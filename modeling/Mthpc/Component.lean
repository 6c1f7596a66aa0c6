import Mthpc.StepSystem

/-!
# Components and their users

A component shows some of its steps as events. A user reacts to them, may refuse one it does
not ask for, and takes steps of its own. When the component simulates a specification of its
events, a run of the user over the component is a run of the same user over the specification:
what is proved of the user there holds here. Nothing depends on the programs modelled with it.
-/
namespace Mthpc
namespace StepSystem

variable {σ τ α β γ δ : Type*}

/-- Under the invariant, a step that shows an event is a step of the specification, and a step
that shows none changes nothing of what the specification sees. -/
structure Simulation (step : σ → α → Option σ) (ok : σ → α → Prop) (label : σ → α → Option β)
    (spec : τ → β → Option τ) (abs : σ → τ) (I : σ → Prop) : Prop where
  keeps : ∀ s a t, I s → ok s a → step s a = some t → I t
  silent : ∀ s a t, I s → ok s a → step s a = some t → label s a = none → abs t = abs s
  shown : ∀ s a t b, I s → ok s a → step s a = some t → label s a = some b →
    spec (abs s) b = some (abs t)

/-- A user over a component. -/
def compose (step : σ → α → Option σ) (label : σ → α → Option β) (react : γ → β → Option γ)
    (own : γ → δ → Option γ) (s : σ × γ) : α ⊕ δ → Option (σ × γ)
  | .inl a => (step s.1 a).bind fun t =>
    match label s.1 a with
    | none => some (t,s.2)
    | some b => (react s.2 b).map fun c => (t,c)
  | .inr d => (own s.2 d).map fun c => (s.1,c)

/-- A condition on the steps of the component, and one on what its user does. -/
def both (label : σ → α → Option β) (ok : σ → α → Prop) (okUser : γ → β ⊕ δ → Prop)
    (s : σ × γ) : α ⊕ δ → Prop
  | .inl a => ok s.1 a ∧ ∀ b ∈ label s.1 a, okUser s.2 (.inl b)
  | .inr d => okUser s.2 (.inr d)

instance {label : σ → α → Option β} {ok : σ → α → Prop} {okUser : γ → β ⊕ δ → Prop}
    [∀ s a, Decidable (ok s a)] [∀ c e, Decidable (okUser c e)] (s : σ × γ) :
    ∀ e, Decidable (both label ok okUser s e)
  | .inl a => inferInstanceAs (Decidable (ok s.1 a ∧ ∀ b ∈ label s.1 a, okUser s.2 (.inl b)))
  | .inr d => inferInstanceAs (Decidable (okUser s.2 (.inr d)))

/-- A user over a specification: every step of it is an event. -/
abbrev overSpec (spec : τ → β → Option τ) (react : γ → β → Option γ) (own : γ → δ → Option γ) :
    τ × γ → β ⊕ δ → Option (τ × γ) :=
  compose spec (fun _ b => some b) react own

variable {step : σ → α → Option σ} {label : σ → α → Option β} {react : γ → β → Option γ}
  {own : γ → δ → Option γ} {spec : τ → β → Option τ} {s t : σ} {c d : γ}

theorem compose_cases {e : α ⊕ δ} {u : σ × γ}
    (h : compose step label react own (s,c) e = some u) :
    (∃ a t, e = .inl a ∧ step s a = some t ∧
      (label s a = none ∧ u = (t,c) ∨ ∃ b d, label s a = some b ∧ react c b = some d ∧
        u = (t,d))) ∨
    ∃ a d, e = .inr a ∧ own c a = some d ∧ u = (s,d) := by
  cases e with
  | inl a =>
    obtain ⟨t,ht,hu⟩ := Option.bind_eq_some_iff.mp h
    refine .inl ⟨a,t,rfl,ht,?_⟩
    cases hl : label s a with
    | none =>
      simp only [hl] at hu
      cases hu
      exact .inl ⟨rfl,rfl⟩
    | some b =>
      simp only [hl] at hu
      obtain ⟨d,hd,rfl⟩ := Option.map_eq_some_iff.mp hu
      exact .inr ⟨b,d,rfl,hd,rfl⟩
  | inr a =>
    obtain ⟨d,hd,rfl⟩ := Option.map_eq_some_iff.mp h
    exact .inr ⟨a,d,rfl,hd,rfl⟩

theorem overSpec_cases {s : τ} {e : β ⊕ δ} {u : τ × γ}
    (h : overSpec spec react own (s,c) e = some u) :
    (∃ b t d, e = .inl b ∧ spec s b = some t ∧ react c b = some d ∧ u = (t,d)) ∨
    ∃ a d, e = .inr a ∧ own c a = some d ∧ u = (s,d) := by
  obtain ⟨b,t,rfl,ht,⟨hl,_⟩ | ⟨b',d,hl,hd,rfl⟩⟩ | hr := compose_cases h
  · cases hl
  · cases hl
    exact .inl ⟨b,t,d,rfl,ht,hd,rfl⟩
  · exact .inr hr

theorem Simulation.compose {ok : σ → α → Prop} {abs : σ → τ} {I : σ → Prop}
    {okUser : γ → β ⊕ δ → Prop} (h : Simulation step ok label spec abs I) (hs : I s)
    (hr : Reach (compose step label react own) (both label ok okUser) (s,c) (t,d)) :
    I t ∧ Reach (overSpec spec react own) (fun u => okUser u.2) (abs s,c) (abs t,d) := by
  generalize hp : (t,d) = p at hr
  induction hr generalizing t d with
  | refl =>
    cases hp
    exact ⟨hs,.refl⟩
  | @tail u v e hu hok hst ih =>
    obtain ⟨u,c'⟩ := u
    obtain ⟨hi,hreach⟩ := ih rfl
    subst hp
    obtain ⟨a,v,rfl,hv,hcase⟩ | ⟨a,d',rfl,hd,he⟩ := compose_cases hst
    · obtain ⟨hoka,hokb⟩ := hok
      obtain ⟨hl,he⟩ | ⟨b,d',hl,hd,he⟩ := hcase <;> cases he
      · refine ⟨h.keeps _ _ _ hi hoka hv,?_⟩
        rw [h.silent _ _ _ hi hoka hv hl]
        exact hreach
      · refine ⟨h.keeps _ _ _ hi hoka hv,hreach.tail (a:=.inl b) (hokb b hl) ?_⟩
        simp [overSpec,StepSystem.compose,h.shown _ _ _ _ hi hoka hv hl,hd]
    · cases he
      exact ⟨hi,hreach.tail (a:=.inr a) hok (by simp [overSpec,StepSystem.compose,hd])⟩

end StepSystem
end Mthpc
