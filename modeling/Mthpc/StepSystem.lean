import Mathlib

/-!
# Step systems and their guarded runs

A concurrent program is a computable step function: an action names the party
that moves and the operands its instruction finds, and the step is `none` where
the action is not enabled. `Reach step ok s` collects the states of the runs from
`s` whose steps all meet `ok`; an invariant is proved once for one step and lifted
by `Reach.invariant`. Nothing here depends on the programs modelled with it.
-/
namespace Mthpc
namespace StepSystem

variable {σ α : Type*}

/-- An instruction that is enabled under `p` and then produces `s`. -/
def guarded (p : Prop) [Decidable p] (s : σ) : Option σ := if p then some s else none

@[simp] theorem guarded_eq_some {p : Prop} [Decidable p] {s t : σ} :
    guarded p s = some t ↔ p ∧ s = t := by
  by_cases h : p <;> simp [guarded,h]

/-- States of the runs from `s` in which every step meets `ok`. -/
inductive Reach (step : σ → α → Option σ) (ok : σ → α → Prop) (s : σ) : σ → Prop
  | refl : Reach step ok s s
  | tail {t u : σ} {a : α} : Reach step ok s t → ok t a → step t a = some u → Reach step ok s u

/-- Every interleaving: no condition on the steps. -/
abbrev Anything : σ → α → Prop := fun _ _ => True

variable {step : σ → α → Option σ} {ok ok' : σ → α → Prop} {s t u : σ}

theorem Reach.invariant {I : σ → Prop} (h : Reach step ok s t) (hs : I s)
    (hstep : ∀ t a u, I t → ok t a → step t a = some u → I u) : I t := by
  induction h with
  | refl => exact hs
  | tail _ hok hst ih => exact hstep _ _ _ ih hok hst

/-- An invariant may help to show that the steps meet a second condition. -/
theorem Reach.strengthen {I : σ → Prop} (h : Reach step ok s t) (hs : I s)
    (hstep : ∀ t a u, I t → ok t a → step t a = some u → I u)
    (hok : ∀ t a, I t → ok t a → ok' t a) : Reach step ok' s t := by
  have hh : Reach step ok' s t ∧ I t := by
    induction h with
    | refl => exact ⟨.refl,hs⟩
    | tail _ ho hst ih => exact ⟨ih.1.tail (hok _ _ ih.2 ho) hst,hstep _ _ _ ih.2 ho hst⟩
  exact hh.1

theorem Reach.mono (h : Reach step ok s t) (hok : ∀ t a, ok t a → ok' t a) :
    Reach step ok' s t :=
  h.strengthen (I:=fun _ => True) trivial (fun _ _ _ _ _ _ => trivial) (fun t a _ => hok t a)

theorem Reach.trans (h : Reach step ok s t) (h' : Reach step ok t u) : Reach step ok s u := by
  induction h' with
  | refl => exact h
  | tail _ ho hst ih => exact ih.tail ho hst

/-- Run a list of actions; the executable counterpart of `Reach`. -/
def exec (step : σ → α → Option σ) : σ → List α → Option σ
  | s, [] => some s
  | s, a::as => (step s a).bind fun t => exec step t as

/-- Only the steps that meet a decidable condition. -/
def restrict (step : σ → α → Option σ) (ok : σ → α → Prop) [∀ s a, Decidable (ok s a)] :
    σ → α → Option σ :=
  fun s a => if ok s a then step s a else none

theorem reach_of_exec_restrict [∀ s a, Decidable (ok s a)] {as : List α}
    (h : exec (restrict step ok) s as = some t) : Reach step ok s t := by
  induction as generalizing s with
  | nil => cases h; exact .refl
  | cons a as ih =>
    obtain ⟨u,hu,ht⟩ := Option.bind_eq_some_iff.mp h
    by_cases ho : ok s a
    · exact (Reach.tail .refl ho (by simpa [restrict,ho] using hu)).trans (ih ht)
    · simp [restrict,ho] at hu

theorem exec_of_restrict [∀ s a, Decidable (ok s a)] {as : List α}
    (h : exec (restrict step ok) s as = some t) : exec step s as = some t := by
  induction as generalizing s with
  | nil => exact h
  | cons a as ih =>
    obtain ⟨u,hu,ht⟩ := Option.bind_eq_some_iff.mp h
    by_cases ho : ok s a
    · exact Option.bind_eq_some_iff.mpr ⟨u,by simpa [restrict,ho] using hu,ih ht⟩
    · simp [restrict,ho] at hu

theorem reach_of_exec {as : List α} (h : exec step s as = some t) : Reach step Anything s t := by
  induction as generalizing s with
  | nil => cases h; exact .refl
  | cons a as ih =>
    obtain ⟨u,hu,ht⟩ := Option.bind_eq_some_iff.mp h
    exact (Reach.tail .refl trivial hu).trans (ih ht)

section Locks

variable {κ τ : Type*} {holder : κ → Option τ} {held : τ → Option κ} {l : κ} {a : τ}

/-- `holder` names the party that holds a lock, and `held` the lock that a party holds. -/
def Held (holder : κ → Option τ) (held : τ → Option κ) : Prop :=
  ∀ l a, holder l = some a ↔ held a = some l

theorem Held.acquire [DecidableEq κ] [DecidableEq τ] (h : Held holder held)
    (hl : holder l = none) (ha : held a = none) :
    Held (Function.update holder l (some a)) (Function.update held a (some l)) := by
  intro m b
  have hlb : held b ≠ some l := fun hb => by
    have hh := (h l b).mpr hb
    rw [hl] at hh
    cases hh
  have hma : holder m ≠ some a := fun hm => by
    have hh := (h m a).mp hm
    rw [ha] at hh
    cases hh
  have := h m b
  by_cases hm : m = l <;> by_cases hb : b = a <;> grind

theorem Held.release [DecidableEq κ] [DecidableEq τ] (h : Held holder held)
    (ha : held a = some l) :
    Held (Function.update holder l none) (Function.update held a none) := by
  intro m b
  have hl := (h l a).mpr ha
  have hm := h m b
  have hlb := h l b
  have hma := h m a
  by_cases hml : m = l <;> by_cases hb : b = a <;> grind

end Locks

/-- If every edge of a waiting relation lowers a rank then nothing waits for itself. -/
theorem no_cycle_of_rank {τ : Type*} {waits : τ → τ → Prop} (rank : τ → ℕ)
    (h : ∀ a b, waits a b → rank b < rank a) (a : τ) : ¬ Relation.TransGen waits a a := by
  have hlt : ∀ b, Relation.TransGen waits a b → rank b < rank a := by
    intro b hb
    induction hb with
    | single hab => exact h _ _ hab
    | tail _ hbc ih => exact (h _ _ hbc).trans ih
  exact fun ha => lt_irrefl _ (hlt a ha)

end StepSystem
end Mthpc
