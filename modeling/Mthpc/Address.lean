import Mathlib

/-!
# Addresses

Objects that the caller provides are named by their 64-bit address. There are fewer of
them than a 64-bit counter can count, because no object is at `NULL`.
-/
namespace Mthpc

/-- A pointer to an object, not `NULL`. -/
structure Address where
  addr : BitVec 64
  ne_null : addr ≠ 0
  deriving DecidableEq

namespace Address

def index (a : Address) : Fin (2^64) := a.addr.toFin

theorem index_injective : Function.Injective index := by
  rintro ⟨a,ha⟩ ⟨b,hb⟩ hab
  simpa using BitVec.eq_of_toFin_eq hab

theorem index_ne_zero (a : Address) : a.index ≠ 0 := fun h =>
  a.ne_null (BitVec.eq_of_toFin_eq h)

theorem card_lt (A : Finset Address) : A.card < 2^64 := by
  have hsub : A.image index ⊆ Finset.univ.erase 0 := by
    intro i hi
    obtain ⟨a,_,rfl⟩ := Finset.mem_image.mp hi
    exact Finset.mem_erase.mpr ⟨a.index_ne_zero,Finset.mem_univ _⟩
  have hle := Finset.card_le_card hsub
  rw [Finset.card_image_of_injective A index_injective,
    Finset.card_erase_of_mem (Finset.mem_univ _),Finset.card_univ,Fintype.card_fin] at hle
  omega

theorem length_lt {as : List Address} (h : as.Nodup) : as.length < 2^64 := by
  rw [← List.toFinset_card_of_nodup h]
  exact card_lt _

end Address
end Mthpc
