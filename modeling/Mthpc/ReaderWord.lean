import Mthpc.GracePeriod

/-!
# What the word of a reader says

The nesting half of `node->gp_seq` is the depth of the open sections, and its phase bit is the
one that the outermost `read_lock` has read, however often the phase is flipped meanwhile.
-/
namespace Mthpc
namespace Rcu

open StepSystem

variable {ι κ : Type} [DecidableEq ι] [DecidableEq κ]

/-- The second field is a ghost: the value of `data->gp_seq` that the last outermost
`read_lock` of a reader has read. -/
structure Traced (ι κ : Type) where
  state : State ι κ
  opened : ι → Word

/-- Only an outermost `read_lock` reads `data->gp_seq`. -/
def record (s : Traced ι κ) : Act ι κ → ι → Word
  | .lockRead r _ => Function.update s.opened r s.state.gpSeq
  | _ => s.opened

def stepTraced (nodes : List ι) (s : Traced ι κ) (a : Act ι κ) : Option (Traced ι κ) :=
  (step nodes s.state a).map fun t => ⟨t,record s a⟩

def Traced.init (ι κ : Type) : Traced ι κ := ⟨Rcu.init ι κ,fun _ => 0⟩

/-- The depth of a reader is never above 2^32 - 1. -/
def Shallow (s : Traced ι κ) : Act ι κ → Prop
  | .lockAdd r _ => s.state.depth r < 2^32-1
  | _ => True

instance (s : Traced ι κ) : ∀ a, Decidable (Shallow s a)
  | .lockAdd r _ => inferInstanceAs (Decidable (s.state.depth r < 2^32-1))
  | .lockLoad _ | .lockRead _ _ | .lockStore _ _ | .unlockLoad _ | .unlockAdd _ _ | .syncCall _
  | .syncLock _ | .syncRead _ | .waitPass _ _ _ _ _ | .waitAgain _ _ _ _ _ | .waitDone _ _ _
  | .readFlip _ _ | .writeFlip _ _ _ | .syncUnlock _ | .syncReturn _ =>
    inferInstanceAs (Decidable True)

structure WordTells (s : Traced ι κ) : Prop where
  depth : ∀ r, (s.state.node r &&& gpCtrNestMask).toNat = s.state.depth r
  phase : ∀ r, 0 < s.state.depth r → s.state.node r &&& gpCtrPhase = s.opened r &&& gpCtrPhase
  gp : s.state.gpSeq &&& gpCtrNestMask = gpCount

theorem and_phase_eq {a b : Word} (h : phaseOf a = phaseOf b) :
    a &&& gpCtrPhase = b &&& gpCtrPhase := by
  rw [gpCtrPhase_eq,BitVec.and_twoPow,BitVec.and_twoPow]
  rw [phaseOf,phaseOf] at h
  rw [h]

structure TraceInv (s : Traced ι κ) : Prop extends WordInv s.state where
  flip : ∀ k curr v, s.state.sync k = .writeFlip curr v → depthOf v = 1
  stored : ∀ r v, s.state.reader r = .lockStore v → v = s.opened r
  phase : ∀ r, 0 < s.state.depth r → phaseOf (s.state.node r) = phaseOf (s.opened r)

section Steps

variable {nodes : List ι} {s s' : Traced ι κ} {t : State ι κ} {a : Act ι κ} {r : ι}

theorem TraceInv.flip_step (h : TraceInv s) (hst : step nodes s.state a = some t) {k : κ}
    {curr v : Word} (hk : t.sync k = .writeFlip curr v) : depthOf v = 1 := by
  cases a with
  | readFlip k' curr' =>
    obtain ⟨_,rfl⟩ := guarded_eq_some.mp hst
    by_cases hkk : k = k'
    · subst hkk
      simp only [Function.update_self,SyncPc.writeFlip.injEq] at hk
      rw [← hk.2]
      exact h.gp
    · exact h.flip k curr v (by simpa only [Function.update_of_ne hkk] using hk)
  | waitDone k' b curr' =>
    obtain ⟨_,rfl⟩ := guarded_eq_some.mp hst
    by_cases hkk : k = k'
    · subst hkk
      simp only [Function.update_self] at hk
      cases b <;> cases hk
    · exact h.flip k curr v (by simpa only [Function.update_of_ne hkk] using hk)
  | syncCall k' | syncLock k' | syncRead k' | waitPass k' b curr' n rest | writeFlip k' curr' w
  | syncUnlock k' | syncReturn k' =>
    obtain ⟨_,rfl⟩ := guarded_eq_some.mp hst
    by_cases hkk : k = k'
    · subst hkk
      simp only [Function.update_self] at hk
      cases hk
    · exact h.flip k curr v (by simpa only [Function.update_of_ne hkk] using hk)
  | lockLoad r | lockRead r w | lockStore r w | lockAdd r w | unlockLoad r | unlockAdd r w
  | waitAgain k' b curr' n rest =>
    obtain ⟨_,rfl⟩ := guarded_eq_some.mp hst
    exact h.flip k curr v hk

theorem TraceInv.goto {ι κ : Type} [DecidableEq ι] {s : Traced ι κ} {r : ι} {pc : ReaderPc}
    (h : TraceInv s) (hw : WordInv { s.state with reader := Function.update s.state.reader r pc })
    (hs : ∀ v, pc ≠ .lockStore v) :
    TraceInv ⟨{ s.state with reader := Function.update s.state.reader r pc },s.opened⟩ := by
  refine ⟨hw,h.flip,fun q v hq => ?_,h.phase⟩
  have hqr : q ≠ r := by
    rintro rfl
    simp only [Function.update_self] at hq
    exact hs v hq
  exact h.stored q v (by simpa only [Function.update_of_ne hqr] using hq)

theorem TraceInv.write {ι κ : Type} [DecidableEq ι] {s : Traced ι κ} {r : ι} {w : Word} {d : ℕ}
    {owed : κ → ι → Bool} (h : TraceInv s) (hw : WordInv { s.state with
      node := Function.update s.state.node r w
      depth := Function.update s.state.depth r d
      reader := Function.update s.state.reader r .idle
      owed := owed })
    (hphase : 0 < d → phaseOf w = phaseOf (s.opened r)) :
    TraceInv ⟨{ s.state with
      node := Function.update s.state.node r w
      depth := Function.update s.state.depth r d
      reader := Function.update s.state.reader r .idle
      owed := owed },s.opened⟩ := by
  refine ⟨hw,h.flip,fun q v hq => ?_,fun q hq => ?_⟩
  · have hqr : q ≠ r := by
      rintro rfl
      simp only [Function.update_self] at hq
      cases hq
    exact h.stored q v (by simpa only [Function.update_of_ne hqr] using hq)
  · by_cases hqr : q = r
    · subst hqr
      simp only [Function.update_self] at hq ⊢
      exact hphase hq
    · simp only [Function.update_of_ne hqr] at hq ⊢
      exact h.phase q hq

theorem TraceInv.sync {ι κ : Type} {s : Traced ι κ} {t : State ι κ} (h : TraceInv s)
    (hw : WordInv t) (hflip : ∀ k curr v, t.sync k = .writeFlip curr v → depthOf v = 1)
    (hreader : t.reader = s.state.reader) (hnode : t.node = s.state.node)
    (hdepth : t.depth = s.state.depth) : TraceInv ⟨t,s.opened⟩ := by
  refine ⟨hw,hflip,fun q v hq => ?_,fun q hq => ?_⟩
  · simp only [hreader] at hq
    exact h.stored q v hq
  · simp only [hnode,hdepth] at hq ⊢
    exact h.phase q hq

theorem TraceInv.step (h : TraceInv s) (hok : Shallow s a)
    (hst : stepTraced nodes s a = some s') : TraceInv s' := by
  obtain ⟨t,ht,rfl⟩ := Option.map_eq_some_iff.mp hst
  have hflip : ∀ k curr v, t.sync k = .writeFlip curr v → depthOf v = 1 :=
    fun k curr v => h.flip_step ht
  have hlt : ∀ r w, a = .lockAdd r w → s.state.reader r = .lockTest w → depthOf w+1 < 2^32 := by
    rintro r w rfl hr
    have hd : s.state.depth r < 2^32-1 := hok
    rw [h.depthOf_test hr]
    omega
  have hw : WordInv t := by
    refine h.toWordInv.step (fun r w ha => hlt r w ha ?_) h.flip ht
    subst ha
    exact (guarded_eq_some.mp ht).1.1
  cases a with
  | lockLoad r =>
    obtain ⟨_,rfl⟩ := guarded_eq_some.mp ht
    exact h.goto hw (by rintro _ ⟨⟩)
  | unlockLoad r =>
    obtain ⟨_,rfl⟩ := guarded_eq_some.mp ht
    exact h.goto hw (by rintro _ ⟨⟩)
  | lockRead r w =>
    obtain ⟨⟨hr,hz⟩,rfl⟩ := guarded_eq_some.mp ht
    have hd : s.state.depth r = 0 := by
      rw [← h.depthOf_test hr]
      exact (and_mask_eq_zero w).mp hz
    refine ⟨hw,h.flip,fun q v hq => ?_,fun q hq => ?_⟩
    · by_cases hqr : q = r
      · subst hqr
        simp only [Function.update_self,ReaderPc.lockStore.injEq] at hq
        show v = Function.update s.opened q s.state.gpSeq q
        rw [Function.update_self,hq]
      · simp only [Function.update_of_ne hqr] at hq
        show v = Function.update s.opened r s.state.gpSeq q
        rw [Function.update_of_ne hqr]
        exact h.stored q v hq
    · have hqr : q ≠ r := by
        rintro rfl
        exact absurd hd (Nat.pos_iff_ne_zero.mp hq)
      show _ = phaseOf (Function.update s.opened r s.state.gpSeq q)
      rw [Function.update_of_ne hqr]
      exact h.phase q hq
  | lockStore r v =>
    obtain ⟨hr,rfl⟩ := guarded_eq_some.mp ht
    exact h.write hw fun _ => by rw [h.stored r v hr]
  | lockAdd r w =>
    obtain ⟨⟨hr,hz⟩,rfl⟩ := guarded_eq_some.mp ht
    refine h.write hw fun _ => ?_
    have hw' : depthOf (s.state.node r)+1 < 2^32 := h.test r w hr ▸ hlt r w rfl hr
    have hd : 0 < s.state.depth r := by
      rw [← h.depthOf_test hr]
      exact Nat.pos_of_ne_zero (mt (and_mask_eq_zero w).mpr hz)
    rw [phaseOf_add _ hw']
    exact h.phase r hd
  | unlockAdd r w =>
    obtain ⟨hr,rfl⟩ := guarded_eq_some.mp ht
    refine h.write hw fun _ => ?_
    have hd : 0 < s.state.depth r := h.untest r w hr
    rw [phaseOf_sub _ (by rwa [h.word])]
    exact h.phase r hd
  | syncCall k | syncLock k | syncRead k | waitPass k b curr n rest | waitAgain k b curr n rest
  | waitDone k b curr | readFlip k curr | writeFlip k curr v | syncUnlock k | syncReturn k =>
    obtain ⟨_,rfl⟩ := guarded_eq_some.mp ht
    exact h.sync hw hflip rfl rfl rfl

theorem TraceInv.init {ι κ : Type} : TraceInv (Traced.init ι κ) where
  gp := by
    show depthOf gpCount = 1
    exact depthOf_gpCount
  word _ := by
    show depthOf 0 = 0
    decide
  test _ _ hr := by cases hr
  store _ _ hr := by cases hr
  untest _ _ hr := by cases hr
  flip _ _ _ hk := by cases hk
  stored _ _ hr := by cases hr
  phase _ hr := by cases hr

theorem TraceInv.tells {ι κ : Type} {s : Traced ι κ} (h : TraceInv s) : WordTells s where
  depth r := (toNat_and_mask _).trans (h.word r)
  phase r hr := and_phase_eq (h.phase r hr)
  gp := by
    apply BitVec.eq_of_toNat_eq
    rw [toNat_and_mask,h.gp]
    decide

end Steps

/-- For any number of readers, synchronizers and calls, in every interleaving. -/
theorem wordTells {nodes : List ι} {s : Traced ι κ}
    (h : Reach (stepTraced nodes) Shallow (.init ι κ) s) : WordTells s :=
  (h.invariant (I:=TraceInv) .init fun _ _ _ hi hok hst => hi.step hok hst).tells

/-- A nested section in phase zero; the phase is flipped between its two locks. -/
theorem wordTells_nested : ∃ s : Traced Unit Unit,
    Reach (stepTraced [()]) Shallow (.init Unit Unit) s ∧ s.state.depth () = 2 ∧
      s.state.gpSeq &&& gpCtrPhase ≠ s.state.node () &&& gpCtrPhase ∧ WordTells s := by
  have hs : (exec (restrict (stepTraced [()]) Shallow) (.init Unit Unit)
      [.syncCall (),.syncLock (),.syncRead (),.waitPass () false gpCount () [],
        .waitDone () false gpCount,.readFlip () gpCount,.lockLoad (),.lockRead () 0,
        .lockStore () gpCount,.writeFlip () gpCount gpCount,.lockLoad (),.lockAdd () gpCount]).map
      (fun s => (s.state.depth (),decide (s.state.gpSeq &&& gpCtrPhase ≠
        s.state.node () &&& gpCtrPhase))) = some (2,true) := by decide
  obtain ⟨s,hs,hp⟩ := Option.map_eq_some_iff.mp hs
  simp only [Prod.mk.injEq,decide_eq_true_eq] at hp
  have hr := reach_of_exec_restrict hs
  exact ⟨s,hr,hp.1,hp.2,wordTells hr⟩

end Rcu
end Mthpc
