import Mthpc.Component
import Mthpc.Grace
import Mthpc.GracePeriod

/-!
# The words and phases implement the sections

A `read_lock` that finds depth zero opens a section when it stores its word, the `read_unlock`
that leaves depth zero closes it with its subtraction, and everything in between is invisible.
A thread is registered before it reads: `mthpc_rcu_read_lock` sees to it.
-/
namespace Mthpc
namespace Rcu

open StepSystem

variable {ι κ : Type} [DecidableEq ι] [DecidableEq κ]

/-- What the users of the sections and of `mthpc_synchronize_rcu` see of an instruction. -/
def label (s : State ι κ) : Act ι κ → Option (Grace.Event ι κ)
  | .lockStore r _ => some (.enter r)
  | .unlockAdd r _ => if s.depth r = 1 then some (.leave r) else none
  | .syncCall k => some (.call k)
  | .syncReturn k => some (.ret k)
  | _ => none

def toGrace (s : State ι κ) : Grace.State ι κ where
  inside := { r | 0 < s.depth r }
  calling := { k | s.sync k ≠ .idle }
  owed k := { r | s.owed k r = true }

@[simp] theorem toGrace_init {ι κ : Type} : toGrace (init ι κ) = Grace.init ι κ := by
  simp [toGrace,Grace.init,init]

variable {nodes : List ι} {s t : State ι κ} {a : Act ι κ}

def Registered (nodes : List ι) : Act ι κ → Prop
  | .lockLoad r => r ∈ nodes
  | _ => True

instance (nodes : List ι) : ∀ a : Act ι κ, Decidable (Registered nodes a)
  | .lockLoad r => inferInstanceAs (Decidable (r ∈ nodes))
  | .lockRead _ _ | .lockStore _ _ | .lockAdd _ _ | .unlockLoad _ | .unlockAdd _ _ | .syncCall _
  | .syncLock _ | .syncRead _ | .waitPass _ _ _ _ _ | .waitAgain _ _ _ _ _ | .waitDone _ _ _
  | .readFlip _ _ | .writeFlip _ _ _ | .syncUnlock _ | .syncReturn _ =>
    inferInstanceAs (Decidable True)

/-- The readers are registered and publish their phase in time. -/
def Proper (nodes : List ι) (s : State ι κ) (a : Act ι κ) : Prop :=
  Timely s a ∧ Registered nodes a

instance (nodes : List ι) (s : State ι κ) (a : Act ι κ) : Decidable (Proper nodes s a) :=
  inferInstanceAs (Decidable (_ ∧ _))

structure GraceInv (nodes : List ι) (s : State ι κ) : Prop extends Inv nodes s where
  registered : ∀ r, r ∉ nodes → s.reader r = .idle ∧ s.depth r = 0

theorem GraceInv.init {ι κ : Type} {nodes : List ι} :
    GraceInv nodes (Rcu.init ι κ) := ⟨.init,fun _ _ => ⟨rfl,rfl⟩⟩

theorem GraceInv.step (h : GraceInv nodes s) (hok : Proper nodes s a)
    (hst : step nodes s a = some t) : GraceInv nodes t := by
  refine ⟨h.toInv.step hok.1 hst,fun q hq => ?_⟩
  obtain ⟨hi,hd⟩ := h.registered q hq
  have hother : ∀ {r}, s.reader r ≠ .idle ∨ 0 < s.depth r ∨ r ∈ nodes → q ≠ r := by
    rintro r hr rfl
    obtain hr | hr | hr := hr
    · exact hr hi
    · omega
    · exact hq hr
  cases a with
  | lockLoad r =>
    obtain ⟨_,rfl⟩ := guarded_eq_some.mp hst
    have hne : q ≠ r := hother (.inr (.inr hok.2))
    simpa [hne] using ⟨hi,hd⟩
  | unlockLoad r =>
    obtain ⟨⟨_,hr⟩,rfl⟩ := guarded_eq_some.mp hst
    have hne : q ≠ r := hother (.inr (.inl hr))
    simpa [hne] using ⟨hi,hd⟩
  | lockRead r w | lockAdd r w =>
    obtain ⟨⟨hr,_⟩,rfl⟩ := guarded_eq_some.mp hst
    have hne : q ≠ r := hother (.inl (by simp [hr]))
    simpa [hne] using ⟨hi,hd⟩
  | lockStore r w | unlockAdd r w =>
    obtain ⟨hr,rfl⟩ := guarded_eq_some.mp hst
    have hne : q ≠ r := hother (.inl (by simp [hr]))
    simpa [hne] using ⟨hi,hd⟩
  | _ =>
    obtain ⟨_,rfl⟩ := guarded_eq_some.mp hst
    exact ⟨hi,hd⟩

theorem GraceInv.noneOwed {ι κ : Type} [DecidableEq ι] {nodes : List ι} {s : State ι κ} {k : κ}
    (h : GraceInv nodes s) (hk : s.sync k = .ret) (r : ι) : s.owed k r = false := by
  by_cases hr : r ∈ nodes
  · exact h.gracePeriod k hk r hr
  · by_contra ho
    have hd := h.owed k r (by simpa using ho)
    have := (h.registered r hr).2
    omega

theorem toGrace_sync {ι κ : Type} [DecidableEq κ] {s t : State ι κ} {k : κ} {p : SyncPc ι}
    (hd : t.depth = s.depth) (ho : t.owed = s.owed)
    (hy : t.sync = Function.update s.sync k p) (hk : s.sync k ≠ .idle) (hp : p ≠ .idle) :
    toGrace t = toGrace s := by
  refine Grace.State.ext (by simp [toGrace,hd]) ?_ (by simp [toGrace,ho])
  ext j
  by_cases hj : j = k
  · subst hj
    simp [toGrace,hy,hk,hp]
  · simp [toGrace,hy,hj]

theorem toGrace_silent (h : Inv nodes s) (hst : step nodes s a = some t)
    (hl : label s a = none) : toGrace t = toGrace s := by
  cases a with
  | lockStore r v | syncCall k | syncReturn k => cases hl
  | lockLoad r | lockRead r w | unlockLoad r | waitAgain k b curr n rest =>
    obtain ⟨_,rfl⟩ := guarded_eq_some.mp hst
    rfl
  | lockAdd r w =>
    obtain ⟨⟨hr,hw⟩,rfl⟩ := guarded_eq_some.mp hst
    have hd : 0 < s.depth r := by
      rw [← h.depthOf_test hr]
      exact Nat.pos_of_ne_zero fun h0 => hw ((and_mask_eq_zero w).mpr h0)
    refine Grace.State.ext ?_ rfl rfl
    ext q
    by_cases hq : q = r <;> simp_all [toGrace]
  | unlockAdd r w =>
    obtain ⟨hr,rfl⟩ := guarded_eq_some.mp hst
    have hd : 0 < s.depth r := h.untest r w hr
    have h1 : s.depth r ≠ 1 := fun h1 => by simp [label,h1] at hl
    refine Grace.State.ext ?_ rfl ?_
    · ext q
      by_cases hq : q = r
      · subst hq
        simp only [toGrace,Function.update_self,Set.mem_ofPred_eq]
        omega
      · simp [toGrace,hq]
    · simp [toGrace,h1]
  | syncLock k =>
    obtain ⟨⟨hk,_⟩,rfl⟩ := guarded_eq_some.mp hst
    exact toGrace_sync (p:=.readGp) rfl rfl rfl (by simp [hk]) (by simp)
  | waitPass k b curr n rest =>
    obtain ⟨⟨hk,_⟩,rfl⟩ := guarded_eq_some.mp hst
    exact toGrace_sync (p:=.wait b curr rest) rfl rfl rfl (by simp [hk]) (by simp)
  | waitDone k b curr =>
    obtain ⟨hk,rfl⟩ := guarded_eq_some.mp hst
    cases b <;> exact toGrace_sync rfl rfl rfl (by simp [hk]) (by simp)
  | syncRead k | readFlip k curr | writeFlip k curr v | syncUnlock k =>
    obtain ⟨hk,rfl⟩ := guarded_eq_some.mp hst
    exact toGrace_sync rfl rfl rfl (by simp [hk]) (by simp)

theorem toGrace_shown (h : GraceInv nodes s) {e : Grace.Event ι κ}
    (hst : step nodes s a = some t) (hl : label s a = some e) :
    Grace.step (toGrace s) e = some (toGrace t) := by
  cases a with
  | lockStore r v =>
    cases hl
    obtain ⟨hr,rfl⟩ := guarded_eq_some.mp hst
    have hd := (h.store r v hr).1
    refine Grace.step_enter.mpr ⟨by simp [toGrace,hd],Grace.State.ext ?_ rfl rfl⟩
    ext q
    by_cases hq : q = r <;> simp [toGrace,hq]
  | unlockAdd r w =>
    obtain ⟨hr,rfl⟩ := guarded_eq_some.mp hst
    by_cases h1 : s.depth r = 1
    · simp only [label,if_pos h1,Option.some.injEq] at hl
      subst hl
      refine Grace.step_leave.mpr ⟨by simp [toGrace,h1],Grace.State.ext ?_ rfl ?_⟩
      · ext q
        by_cases hq : q = r <;> simp [toGrace,hq,h1]
      · funext k
        ext q
        simp [toGrace,h1]
    · simp [label,h1] at hl
  | syncCall k =>
    cases hl
    obtain ⟨hk,rfl⟩ := guarded_eq_some.mp hst
    refine Grace.step_call.mpr ⟨by simp [toGrace,hk],Grace.State.ext rfl ?_ ?_⟩
    · ext j
      by_cases hj : j = k <;> simp [toGrace,hj]
    · funext j
      by_cases hj : j = k
      · subst hj
        simp [toGrace]
      · simp [toGrace,hj]
  | syncReturn k =>
    cases hl
    obtain ⟨hk,rfl⟩ := guarded_eq_some.mp hst
    have howed := h.noneOwed hk
    refine Grace.step_ret.mpr ⟨⟨by simp [toGrace,hk],by simp [toGrace,howed]⟩,
      Grace.State.ext rfl ?_ rfl⟩
    ext j
    by_cases hj : j = k <;> simp [toGrace,hj]
  | _ => cases hl

/-- The runs whose readers are registered and publish in time simulate the sections. -/
theorem simulates : Simulation (step nodes) (Proper nodes) label Grace.step toGrace
    (GraceInv (κ:=κ) nodes) where
  keeps _ _ _ h hok hst := h.step hok hst
  silent _ _ _ h _ hst hl := toGrace_silent h.toInv hst hl
  shown _ _ _ _ h _ hst hl := toGrace_shown h hst hl

end Rcu
end Mthpc
