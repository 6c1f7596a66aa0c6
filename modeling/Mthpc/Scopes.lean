import Mthpc.StepSystem

/-!
# Scoped code

Blocks that declare guards. A guard is opened where it is declared and closed when control
leaves the block, the last one first, whichever way it leaves. Nothing here depends on the
programs modelled with it.
-/
namespace Mthpc
namespace Scopes

/-- What remains of a block. `exit n` leaves it and `n` of the blocks around it: the end of a block
is `exit 0`, and a `return` leaves all blocks of the function. -/
inductive Code (γ α : Type*)
  | exit (n : ℕ)
  | act (a : α) (rest : Code γ α)
  | guard (g : γ) (rest : Code γ α)
  | scope (body rest : Code γ α)
  | choose (left right rest : Code γ α)
  | loop (body rest : Code γ α)
  deriving DecidableEq

/-- A block that has been entered, with its open guards, the last one first. -/
structure Frame (γ α : Type*) where
  guards : List γ
  code : Code γ α
  deriving DecidableEq

inductive Event (γ α : Type*)
  | act (a : α) | opens (g : γ) | closes (g : γ)

variable {γ α : Type*}

/-- The block around one that was left by `exit (n+1)`. -/
def leave (n : ℕ) : List (Frame γ α) → List (Frame γ α)
  | [] => []
  | f::fs => ⟨f.guards,.exit n⟩::fs

/-- The next step, innermost block first: what it does to the outside, and what remains. `b` is
the value of the condition of `choose` and `loop`. -/
def next (b : Bool) : List (Frame γ α) → Option (Option (Event γ α) × List (Frame γ α))
  | [] => none
  | ⟨gs,.act a rest⟩::fs => some (some (.act a),⟨gs,rest⟩::fs)
  | ⟨gs,.guard g rest⟩::fs => some (some (.opens g),⟨g::gs,rest⟩::fs)
  | ⟨gs,.scope body rest⟩::fs => some (none,⟨[],body⟩::⟨gs,rest⟩::fs)
  | ⟨gs,.choose left right rest⟩::fs =>
    some (none,⟨[],if b then left else right⟩::⟨gs,rest⟩::fs)
  | ⟨gs,.loop body rest⟩::fs =>
    some (none,if b then ⟨[],body⟩::⟨gs,.loop body rest⟩::fs else ⟨gs,rest⟩::fs)
  | ⟨g::gs,.exit n⟩::fs => some (some (.closes g),⟨gs,.exit n⟩::fs)
  | ⟨[],.exit 0⟩::fs => some (none,fs)
  | ⟨[],.exit (n+1)⟩::fs => some (none,leave n fs)

def held (fs : List (Frame γ α)) : List γ := fs.flatMap Frame.guards

@[simp] theorem held_nil : held ([] : List (Frame γ α)) = [] := rfl

@[simp] theorem held_cons (f : Frame γ α) (fs : List (Frame γ α)) :
    held (f::fs) = f.guards ++ held fs := rfl

@[simp] theorem held_leave (n : ℕ) (fs : List (Frame γ α)) : held (leave n fs) = held fs := by
  cases fs <;> rfl

/-- What a step does to the open guards: they are a stack. -/
def Moves : Option (Event γ α) → List γ → List γ → Prop
  | some (.opens g), gs, gs' => gs' = g::gs
  | some (.closes g), gs, gs' => gs = g::gs'
  | _, gs, gs' => gs' = gs

variable {b : Bool} {fs fs' : List (Frame γ α)} {e : Option (Event γ α)}

theorem next_isSome (b : Bool) (hfs : fs ≠ []) : (next b fs).isSome := by
  cases fs with
  | nil => exact absurd rfl hfs
  | cons f fs =>
    obtain ⟨gs,code⟩ := f
    cases code with
    | exit n => cases gs <;> cases n <;> rfl
    | act | guard | scope | choose | loop => rfl

theorem next_held (h : next b fs = some (e,fs')) : Moves e (held fs) (held fs') := by
  cases fs with
  | nil => cases h
  | cons f fs =>
    obtain ⟨gs,code⟩ := f
    cases code with
    | exit n =>
      cases gs with
      | cons g gs =>
        cases h
        simp [Moves]
      | nil => cases n <;> cases h <;> simp [Moves]
    | act a rest | guard g rest | scope body rest | choose left right rest =>
      cases h
      simp [Moves]
    | loop body rest => cases b <;> cases h <;> simp [Moves]

section Check

/-- Each action and each opening meets a condition on the guards that are open there. -/
def Code.Checked (ok : List γ → Event γ α → Prop) (gs : List γ) : Code γ α → Prop
  | .exit _ => True
  | .act a rest => ok gs (.act a) ∧ rest.Checked ok gs
  | .guard g rest => ok gs (.opens g) ∧ rest.Checked ok (g::gs)
  | .scope body rest => body.Checked ok gs ∧ rest.Checked ok gs
  | .choose left right rest => left.Checked ok gs ∧ right.Checked ok gs ∧ rest.Checked ok gs
  | .loop body rest => body.Checked ok gs ∧ rest.Checked ok gs

/-- The same of all that remains. -/
def Checked (ok : List γ → Event γ α → Prop) : List (Frame γ α) → Prop
  | [] => True
  | f::fs => f.code.Checked ok (f.guards ++ held fs) ∧ Checked ok fs

variable {ok : List γ → Event γ α → Prop}

theorem Checked.next (h : Checked ok fs) (hn : Scopes.next b fs = some (e,fs')) :
    Checked ok fs' ∧ (∀ a, e = some (.act a) → ok (held fs) (.act a)) ∧
      ∀ g, e = some (.opens g) → ok (held fs) (.opens g) := by
  cases fs with
  | nil => cases hn
  | cons f fs =>
    obtain ⟨gs,code⟩ := f
    obtain ⟨hc,hfs⟩ := h
    cases code with
    | exit n =>
      cases gs with
      | cons g gs =>
        cases hn
        exact ⟨⟨trivial,hfs⟩,by simp,by simp⟩
      | nil =>
        cases n with
        | zero =>
          cases hn
          exact ⟨hfs,by simp,by simp⟩
        | succ n =>
          cases hn
          refine ⟨?_,by simp,by simp⟩
          cases fs with
          | nil => trivial
          | cons f fs => exact ⟨trivial,hfs.2⟩
    | act a rest =>
      cases hn
      refine ⟨⟨hc.2,hfs⟩,fun a' he => ?_,by simp⟩
      cases he
      exact hc.1
    | guard g rest =>
      cases hn
      refine ⟨⟨hc.2,hfs⟩,by simp,fun g' he => ?_⟩
      cases he
      exact hc.1
    | scope body rest =>
      cases hn
      exact ⟨⟨by simpa using hc.1,hc.2,hfs⟩,by simp,by simp⟩
    | choose left right rest =>
      cases hn
      refine ⟨⟨?_,hc.2.2,hfs⟩,by simp,by simp⟩
      cases b with
      | true => simpa using hc.1
      | false => simpa using hc.2.1
    | loop body rest =>
      cases b with
      | true =>
        cases hn
        exact ⟨⟨by simpa using hc.1,hc,hfs⟩,by simp,by simp⟩
      | false =>
        cases hn
        exact ⟨⟨hc.2,hfs⟩,by simp,by simp⟩

end Check

section Ends

def Code.loopFree : Code γ α → Bool
  | .exit _ => true
  | .act _ rest | .guard _ rest => rest.loopFree
  | .scope body rest => body.loopFree && rest.loopFree
  | .choose left right rest => left.loopFree && right.loopFree && rest.loopFree
  | .loop _ _ => false

/-- At least the steps that the code can take. -/
def Code.size : Code γ α → ℕ
  | .exit _ => 1
  | .act _ rest => rest.size+1
  | .guard _ rest => rest.size+2
  | .scope body rest => body.size+rest.size+1
  | .choose left right rest => left.size+right.size+rest.size+1
  | .loop body rest => body.size+rest.size+1

def Frame.cost (f : Frame γ α) : ℕ := f.code.size+f.guards.length

def cost (fs : List (Frame γ α)) : ℕ := (fs.map Frame.cost).sum

theorem Code.size_pos (c : Code γ α) : 0 < c.size := by
  cases c <;> simp [Code.size]

theorem cost_leave (n : ℕ) (fs : List (Frame γ α)) : cost (leave n fs) ≤ cost fs := by
  cases fs with
  | nil => exact le_rfl
  | cons f fs =>
    have hpos := f.code.size_pos
    simp only [leave,cost,List.map_cons,List.sum_cons,Frame.cost,Code.size]
    omega

theorem next_cost (hfree : ∀ f ∈ fs, f.code.loopFree = true) (h : next b fs = some (e,fs')) :
    (∀ f ∈ fs', f.code.loopFree = true) ∧ cost fs' < cost fs := by
  cases fs with
  | nil => cases h
  | cons f fs =>
    obtain ⟨gs,code⟩ := f
    obtain ⟨hc,hfs⟩ := List.forall_mem_cons.mp hfree
    cases code with
    | exit n =>
      cases gs with
      | cons g gs =>
        cases h
        exact ⟨List.forall_mem_cons.mpr ⟨rfl,hfs⟩,by simp [cost,Frame.cost]⟩
      | nil =>
        cases n with
        | zero =>
          cases h
          exact ⟨hfs,by simp [cost,Frame.cost,Code.size]⟩
        | succ n =>
          cases h
          have hle := cost_leave n fs
          refine ⟨?_,by simp only [cost,List.map_cons,List.sum_cons,Frame.cost,Code.size] at hle ⊢
                        omega⟩
          cases fs with
          | nil => simp [leave]
          | cons f fs => exact List.forall_mem_cons.mpr ⟨rfl,fun f hf => hfs f (by simp [hf])⟩
    | act a rest | guard g rest =>
      cases h
      refine ⟨List.forall_mem_cons.mpr ⟨hc,hfs⟩,?_⟩
      simp only [cost,List.map_cons,List.sum_cons,Frame.cost,Code.size,List.length_cons]
      omega
    | scope body rest =>
      cases h
      obtain ⟨hb,hr⟩ := Bool.and_eq_true_iff.mp hc
      refine ⟨List.forall_mem_cons.mpr ⟨hb,List.forall_mem_cons.mpr ⟨hr,hfs⟩⟩,?_⟩
      simp only [cost,List.map_cons,List.sum_cons,Frame.cost,Code.size,List.length_nil]
      omega
    | choose left right rest =>
      cases h
      obtain ⟨hlr,hr⟩ := Bool.and_eq_true_iff.mp hc
      obtain ⟨hl,hrt⟩ := Bool.and_eq_true_iff.mp hlr
      cases b with
      | true =>
        refine ⟨List.forall_mem_cons.mpr ⟨hl,List.forall_mem_cons.mpr ⟨hr,hfs⟩⟩,?_⟩
        simp only [cost,List.map_cons,List.sum_cons,Frame.cost,Code.size,List.length_nil,if_true]
        omega
      | false =>
        refine ⟨List.forall_mem_cons.mpr ⟨hrt,List.forall_mem_cons.mpr ⟨hr,hfs⟩⟩,?_⟩
        simp only [cost,List.map_cons,List.sum_cons,Frame.cost,Code.size,List.length_nil,
          Bool.false_eq_true,if_false]
        omega
    | loop body rest => cases hc

end Ends

end Scopes
end Mthpc
