import Mthpc.StepSystem

/-!
# Systems that settle

A system settles when, however its steps are ordered, they come to an end and the end is where
it should be. `Settles.of_measure` proves this from a measure that every step lowers and from
the states in which no step is enabled. Nothing here depends on the programs modelled with it.
-/
namespace Mthpc
namespace StepSystem

variable {σ α : Type*}

/-- Every run from `s` whose steps meet `ok` ends, and it can only end in `goal`. -/
inductive Settles (step : σ → α → Option σ) (ok : σ → α → Prop) (goal : σ → Prop) : σ → Prop
  | intro {s : σ} (next : ∀ a t, ok s a → step s a = some t → Settles step ok goal t)
      (stop : (∀ a, ok s a → step s a = none) → goal s) : Settles step ok goal s

variable {step : σ → α → Option σ} {ok : σ → α → Prop} {goal : σ → Prop} {s t : σ}

theorem Settles.of_measure {I : σ → Prop} (cost : σ → ℕ) (hs : I s)
    (hstep : ∀ t a u, I t → ok t a → step t a = some u → I u ∧ cost u < cost t)
    (hstop : ∀ t, I t → (∀ a, ok t a → step t a = none) → goal t) : Settles step ok goal s := by
  induction hn : cost s using Nat.strong_induction_on generalizing s with
  | _ n ih =>
    subst hn
    refine .intro (fun a t ha ht => ?_) (hstop s hs)
    obtain ⟨hi,hlt⟩ := hstep s a t hs ha ht
    exact ih _ hlt hi rfl

@[simp] theorem guarded_eq_none {p : Prop} [Decidable p] : guarded p s = none ↔ ¬ p := by
  by_cases h : p <;> simp [guarded,h]

theorem Settles.reach (h : Settles step ok goal s) : ∃ t, Reach step ok s t ∧ goal t := by
  induction h with
  | @intro s _ stop ih =>
    by_cases hq : ∀ a, ok s a → step s a = none
    · exact ⟨s,.refl,stop hq⟩
    · push Not at hq
      obtain ⟨a,ha,hne⟩ := hq
      obtain ⟨t,ht⟩ := Option.ne_none_iff_exists'.mp hne
      obtain ⟨u,hu,hg⟩ := ih a t ha ht
      exact ⟨u,(Reach.tail .refl ha ht).trans hu,hg⟩

theorem Settles.mono {goal' : σ → Prop} (h : Settles step ok goal s)
    (hg : ∀ t, goal t → goal' t) : Settles step ok goal' s := by
  induction h with
  | intro _ stop ih => exact .intro ih fun hs => hg _ (stop hs)

theorem sum_lt_of_one {ι : Type*} {u : Finset ι} {f g : ι → ℕ} (i : ι) (hu : i ∈ u)
    (hi : g i < f i) (h : ∀ j ∈ u, j ≠ i → g j ≤ f j) : ∑ j ∈ u, g j < ∑ j ∈ u, f j := by
  refine Finset.sum_lt_sum (fun j hj => ?_) ⟨i,hu,hi⟩
  by_cases hji : j = i
  · exact hji ▸ hi.le
  · exact h j hj hji

end StepSystem
end Mthpc
