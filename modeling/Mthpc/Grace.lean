import Mthpc.StepSystem

/-!
# Read-side sections and grace periods

What read-copy-update is for, with no words, phases or lists: a synchronizer may return when
every section that was open at its call has been left. Sections of one reader do not overlap
here; a nested one shows no event. Nothing depends on the programs modelled with it.
-/
namespace Mthpc
namespace Grace

open StepSystem

variable {ι κ : Type*}

/-- The readers inside a section, the synchronizers in a call, and for each of them the readers
whose section was open at the call and is open still. -/
@[ext] structure State (ι κ : Type*) where
  inside : Set ι
  calling : Set κ
  owed : κ → Set ι

inductive Event (ι κ : Type*)
  | enter (r : ι) | leave (r : ι)
  | call (k : κ) | ret (k : κ)

def init (ι κ : Type*) : State ι κ where
  inside := ∅
  calling := ∅
  owed _ := ∅

open scoped Classical

noncomputable def step (s : State ι κ) : Event ι κ → Option (State ι κ)
  | .enter r => guarded (r ∉ s.inside) { s with inside := insert r s.inside }
  | .leave r => guarded (r ∈ s.inside)
      { s with
        inside := s.inside \ {r}
        owed := fun k => s.owed k \ {r} }
  | .call k => guarded (k ∉ s.calling)
      { s with
        calling := insert k s.calling
        owed := Function.update s.owed k s.inside }
  | .ret k => guarded (k ∈ s.calling ∧ s.owed k = ∅) { s with calling := s.calling \ {k} }

variable {s t : State ι κ} {r : ι} {k : κ}

theorem step_enter : step s (.enter r) = some t ↔
    r ∉ s.inside ∧ { s with inside := insert r s.inside } = t := guarded_eq_some

theorem step_leave : step s (.leave r) = some t ↔ r ∈ s.inside ∧
    { s with
      inside := s.inside \ {r}
      owed := fun k => s.owed k \ {r} } = t := guarded_eq_some

theorem step_call : step s (.call k) = some t ↔ k ∉ s.calling ∧
    { s with
      calling := insert k s.calling
      owed := Function.update s.owed k s.inside } = t := guarded_eq_some

theorem step_ret : step s (.ret k) = some t ↔
    (k ∈ s.calling ∧ s.owed k = ∅) ∧ { s with calling := s.calling \ {k} } = t :=
  guarded_eq_some

section Pull

variable {η : Type*} {ptr : η → Option ι} {h : η}

def State.pull (s : State ι κ) (ptr : η → Option ι) : State η κ where
  inside := { h | ∃ r, ptr h = some r ∧ r ∈ s.inside }
  calling := s.calling
  owed k := { h | ∃ r, ptr h = some r ∧ r ∈ s.owed k }

theorem step_pull_enter (hone : ∀ g, ptr g = some r ↔ g = h) (hst : step s (.enter r) = some t) :
    step (s.pull ptr) (.enter h) = some (t.pull ptr) := by
  obtain ⟨hr,rfl⟩ := step_enter.mp hst
  refine step_enter.mpr ⟨?_,State.ext ?_ rfl rfl⟩
  · intro hh
    obtain ⟨q,hq,hin⟩ := hh
    rw [(hone h).mpr rfl] at hq
    cases hq
    exact hr hin
  · ext g
    simp only [State.pull,Set.mem_insert_iff,Set.mem_ofPred_eq]
    constructor
    · intro hg
      rcases hg with hg | ⟨q,hq,hin⟩
      · exact ⟨r,(hone g).mpr hg,.inl rfl⟩
      · exact ⟨q,hq,.inr hin⟩
    · intro hg
      obtain ⟨q,hq,hin⟩ := hg
      rcases hin with hin | hin
      · exact .inl ((hone g).mp (hin ▸ hq))
      · exact .inr ⟨q,hq,hin⟩

theorem pull_diff (hone : ∀ g, ptr g = some r ↔ g = h) (u : Set ι) :
    { g | ∃ q, ptr g = some q ∧ q ∈ u } \ {h} = { g | ∃ q, ptr g = some q ∧ q ∈ u \ {r} } := by
  ext g
  simp only [Set.mem_sdiff,Set.mem_ofPred_eq,Set.mem_singleton_iff]
  constructor
  · intro hg
    obtain ⟨⟨q,hq,hin⟩,hgh⟩ := hg
    exact ⟨q,hq,hin,fun hqr => hgh ((hone g).mp (hqr ▸ hq))⟩
  · intro hg
    obtain ⟨q,hq,hin,hqr⟩ := hg
    refine ⟨⟨q,hq,hin⟩,fun hgh => hqr ?_⟩
    rw [(hone g).mpr hgh] at hq
    exact (Option.some.inj hq).symm

theorem step_pull_leave (hone : ∀ g, ptr g = some r ↔ g = h) (hst : step s (.leave r) = some t) :
    step (s.pull ptr) (.leave h) = some (t.pull ptr) := by
  obtain ⟨hr,rfl⟩ := step_leave.mp hst
  refine step_leave.mpr ⟨⟨r,(hone h).mpr rfl,hr⟩,State.ext ?_ rfl ?_⟩
  · exact pull_diff hone s.inside
  · funext k
    exact pull_diff hone (s.owed k)

theorem step_pull_call (hst : step s (.call k) = some t) :
    step (s.pull ptr) (.call k) = some (t.pull ptr) := by
  obtain ⟨hk,rfl⟩ := step_call.mp hst
  refine step_call.mpr ⟨hk,State.ext rfl rfl ?_⟩
  funext j
  by_cases hj : j = k
  · subst hj
    simp [State.pull]
  · simp [State.pull,hj]

theorem step_pull_ret (hst : step s (.ret k) = some t) :
    step (s.pull ptr) (.ret k) = some (t.pull ptr) := by
  obtain ⟨⟨hk,ho⟩,rfl⟩ := step_ret.mp hst
  refine step_ret.mpr ⟨⟨hk,?_⟩,rfl⟩
  simp [State.pull,ho]

end Pull

end Grace
end Mthpc
