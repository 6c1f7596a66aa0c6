import Mthpc.StepSystem

/-!
# Tables of allocated blocks

What a program does to its storage, as a sequence of events over any type of block names that
are used once. A pointer is the base of a block or points to an object inside one. A sequence
is allowed where the table can follow it: `free` is given the base of a block in the table and
nothing is read whose storage was given to `free`.
-/
namespace Mthpc
namespace AllocTable

open StepSystem

variable {β : Type*}

inductive Ptr (β : Type*)
  | base (b : β)
  | inside (b : β)
  deriving DecidableEq

/-- `read b` is an access to the storage of `b`. -/
inductive Event (β : Type*)
  | malloc (b : β)
  | free (p : Ptr β)
  | read (b : β)
  deriving DecidableEq

/-- The blocks in the table, and those that `free` took out of it. -/
structure Table (β : Type*) where
  blocks : Finset β
  freed : Finset β

variable [DecidableEq β]

/-- One event, where it is allowed. -/
def Table.step (t : Table β) : Event β → Option (Table β)
  | .malloc b => guarded (b ∉ t.blocks ∧ b ∉ t.freed) { t with blocks := insert b t.blocks }
  | .free (.base b) =>
      guarded (b ∈ t.blocks) { blocks := t.blocks.erase b, freed := insert b t.freed }
  | .free (.inside _) => none
  | .read b => guarded (b ∉ t.freed) t

/-- The table after a sequence of events, if all of them are allowed. -/
def Table.run (t : Table β) (es : List (Event β)) : Option (Table β) := exec Table.step t es

variable {t u : Table β} {b : β} {es fs : List (Event β)}

@[simp] theorem run_nil : t.run [] = some t := rfl

theorem run_append : t.run (es ++ fs) = (t.run es).bind fun u => u.run fs := by
  induction es generalizing t with
  | nil => rfl
  | cons e es ih =>
    simp only [Table.run,List.cons_append,exec] at ih ⊢
    cases t.step e with
    | none => rfl
    | some u => exact ih

theorem run_trans {v : Table β} (h : t.run es = some u) (h' : u.run fs = some v) :
    t.run (es ++ fs) = some v := by
  rw [run_append,h,Option.bind_some,h']

theorem run_read (h : b ∉ t.freed) : t.run (.read b::es) = t.run es := by
  simp [Table.run,exec,Table.step,guarded,h]

theorem run_malloc (h : b ∉ t.blocks) (h' : b ∉ t.freed) :
    t.run (.malloc b::es) = { t with blocks := insert b t.blocks }.run es := by
  simp [Table.run,exec,Table.step,guarded,h,h']

theorem run_free (h : b ∈ t.blocks) : t.run (.free (.base b)::es) =
    { blocks := t.blocks.erase b, freed := insert b t.freed : Table β }.run es := by
  simp [Table.run,exec,Table.step,guarded,h]

theorem inside_notMem (h : t.run es = some u) (b : β) : .free (.inside b) ∉ es := by
  induction es generalizing t with
  | nil => exact List.not_mem_nil
  | cons e es ih =>
    obtain ⟨v,hv,hu⟩ := Option.bind_eq_some_iff.mp h
    rw [List.mem_cons,not_or]
    refine ⟨?_,ih hu⟩
    rintro rfl
    cases hv

end AllocTable
end Mthpc
