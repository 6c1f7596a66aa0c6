import Mathlib

/-!
# Following a pointer to a sentinel

`Follows next z p xs` says that following `next` from `p` gives the nodes `xs` and then the
sentinel `z`. One write that links a new node behind a node, or that unlinks the node behind
it, changes what follows from any point by that node only, wherever the point is. Nothing here
depends on the programs modelled with it.
-/
namespace Mthpc

variable {α : Type*}

/-- Following `next` from `p` gives `xs` before it first comes to `z`. -/
def Follows (next : α → α) (z : α) : α → List α → Prop
  | p, [] => p = z
  | p, x::xs => p = x ∧ x ≠ z ∧ Follows next z (next x) xs

namespace Follows

variable {next next' : α → α} {p x y z : α} {xs ys zs : List α}

theorem congr (h : Follows next z p xs) (hn : ∀ x ∈ xs, next' x = next x) :
    Follows next' z p xs := by
  induction xs generalizing p with
  | nil => exact h
  | cons x xs ih =>
    obtain ⟨hp,hx,hxs⟩ := h
    refine ⟨hp,hx,?_⟩
    rw [hn x List.mem_cons_self]
    exact ih hxs fun y hy => hn y (List.mem_cons_of_mem _ hy)

theorem unique (h : Follows next z p xs) (h' : Follows next z p ys) : xs = ys := by
  induction xs generalizing p ys with
  | nil =>
    cases ys with
    | nil => rfl
    | cons y ys => exact absurd (h'.1.symm.trans h) h'.2.1
  | cons x xs ih =>
    cases ys with
    | nil => exact absurd (h.1.symm.trans h') h.2.1
    | cons y ys =>
      obtain rfl : x = y := h.1.symm.trans h'.1
      rw [ih h.2.2 h'.2.2]

theorem nil_of_sentinel (h : Follows next z z xs) : xs = [] := by
  have hnil : Follows next z z [] := rfl
  exact h.unique hnil

theorem tail (h : Follows next z p (x::xs)) : Follows next z (next x) xs := h.2.2

theorem drop (h : Follows next z p (xs ++ y::ys)) : Follows next z (next y) ys := by
  induction xs generalizing p with
  | nil => exact h.2.2
  | cons x xs ih => exact ih h.2.2

theorem nodup (h : Follows next z p xs) : xs.Nodup := by
  induction xs generalizing p with
  | nil => exact List.nodup_nil
  | cons x xs ih =>
    refine List.nodup_cons.mpr ⟨fun hx => ?_,ih h.2.2⟩
    obtain ⟨as,bs,rfl⟩ := List.append_of_mem hx
    -- the same nodes would follow from both places
    have hlen := congrArg List.length ((Follows.drop h.2.2).unique h.2.2)
    rw [List.length_append,List.length_cons] at hlen
    omega

section Write

variable [DecidableEq α]

theorem write_off (h : Follows next z p xs) (hy : y ∉ xs) (x : α) :
    Follows (Function.update next y x) z p xs := by
  refine h.congr fun w hw => Function.update_of_ne ?_ _ _
  rintro rfl
  exact hy hw

theorem write_on (h : Follows next z p (xs ++ y::ys))
    (hz : Follows (Function.update next y x) z x zs) :
    Follows (Function.update next y x) z p (xs ++ y::zs) := by
  induction xs generalizing p with
  | nil =>
    refine ⟨h.1,h.2.1,?_⟩
    rw [Function.update_self]
    exact hz
  | cons w xs ih =>
    refine ⟨h.1,h.2.1,?_⟩
    have hwy : w ≠ y := by
      rintro rfl
      exact (List.nodup_cons.mp h.nodup).1 (by simp)
    rw [Function.update_of_ne hwy]
    exact ih h.2.2

theorem link (h : Follows next z p xs) (hx : x ∉ xs) (hxz : x ≠ z)
    (hnext : next x = next y) : ∃ ys, Follows (Function.update next y x) z p ys ∧
      (∀ w ∈ ys, w ∈ xs ∨ w = x) ∧ ∀ f : α → Bool, f x = false → ys.filter f = xs.filter f := by
  by_cases hy : y ∈ xs
  · obtain ⟨as,bs,rfl⟩ := List.append_of_mem hy
    have hxy : x ≠ y := fun he => hx (he ▸ hy)
    have hafter := h.drop
    have hnd := h.nodup
    have hybs : y ∉ bs := fun hm => (List.nodup_cons.mp (List.nodup_append.mp hnd).2.1).1 hm
    have hnew : Follows (Function.update next y x) z x (x::bs) := by
      refine ⟨rfl,hxz,?_⟩
      rw [Function.update_of_ne hxy,hnext]
      exact hafter.write_off hybs x
    refine ⟨as ++ y::x::bs,h.write_on hnew,fun w hw => ?_,fun f hf => ?_⟩
    · simp only [List.mem_append,List.mem_cons] at hw ⊢
      tauto
    · simp [List.filter_append,List.filter_cons,hf]
  · exact ⟨xs,h.write_off hy x,fun w hw => .inl hw,fun _ _ => rfl⟩

theorem unlink (h : Follows next z p xs) (hx : next y = x) (hxz : x ≠ z) :
    ∃ ys, Follows (Function.update next y (next x)) z p ys ∧ (∀ w ∈ ys, w ∈ xs) ∧
      ∀ f : α → Bool, f x = false → ys.filter f = xs.filter f := by
  by_cases hy : y ∈ xs
  · obtain ⟨as,bs,rfl⟩ := List.append_of_mem hy
    have hafter := h.drop
    rw [hx] at hafter
    cases bs with
    | nil => exact absurd hafter hxz
    | cons w bs =>
      obtain rfl : x = w := hafter.1
      have hnd := (List.nodup_append.mp h.nodup).2.1
      have hybs : y ∉ bs := fun hm => (List.nodup_cons.mp hnd).1 (List.mem_cons_of_mem _ hm)
      refine ⟨as ++ y::bs,h.write_on (hafter.tail.write_off hybs _),fun w hw => ?_,fun f hf => ?_⟩
      · simp only [List.mem_append,List.mem_cons] at hw ⊢
        tauto
      · simp [List.filter_append,List.filter_cons,hf]
  · exact ⟨xs,h.write_off hy _,fun w hw => hw,fun _ _ => rfl⟩

end Write

end Follows
end Mthpc
