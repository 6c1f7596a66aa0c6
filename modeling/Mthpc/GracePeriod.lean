import Mthpc.Rcu

/-!
# The grace-period guarantee

A synchronizer must not return before the sections that were open when it was
called. Both waits of `mthpc_synchronize_rcu_internal` compare with the phase
from before the flip, so a reader that stores a stale phase is passed by both.
The guarantee holds in the runs whose readers publish their snapshot in time.
-/
namespace Mthpc
namespace Rcu

open StepSystem

variable {ι κ : Type} [DecidableEq ι] [DecidableEq κ]

/-- A call that is about to return owes no section of a registered reader. -/
def GracePeriod (nodes : List ι) (s : State ι κ) : Prop :=
  ∀ k, s.sync k = .ret → ∀ r ∈ nodes, s.owed k r = false

/-- The synchronizer still flips the phase, or its second wait still comes to `r`. -/
def SyncPc.awaits (r : ι) : SyncPc ι → Bool
  | .readGp | .wait false _ _ | .readFlip _ | .writeFlip _ _ => true
  | .wait true _ rest => decide (r ∈ rest)
  | _ => false

/-- The holder of `data->lock`, if there is one, awaits `r`. -/
def awaited (s : State ι κ) (r : ι) : Bool :=
  match s.lock with
  | some k => (s.sync k).awaits r
  | none => false

/-- The phase stored by an outermost `read_lock` is the current one or is awaited by the
synchronizer under way, and no nested one fills the nesting half of the word. -/
def Timely (s : State ι κ) : Act ι κ → Prop
  | .lockStore r v => phaseOf v = phaseOf s.gpSeq ∨ awaited s r = true
  | .lockAdd _ w => depthOf w+1 < 2^32
  | _ => True

instance (s : State ι κ) (a : Act ι κ) : Decidable (Timely s a) := by
  cases a <;> unfold Timely <;> infer_instance

def SyncPc.holds : SyncPc ι → Bool
  | .idle | .lock | .ret => false
  | _ => true

def NoneOwed (nodes : List ι) (s : State ι κ) (k : κ) : Prop := ∀ r ∈ nodes, s.owed k r = false

/-- Every open section carries the current phase, or is still to be met in `rest`. -/
def Current (nodes rest : List ι) (s : State ι κ) : Prop :=
  ∀ r ∈ nodes, 0 < s.depth r → phaseOf (s.node r) = phaseOf s.gpSeq ∨ r ∈ rest

def SyncOk (nodes : List ι) (s : State ι κ) (k : κ) : SyncPc ι → Prop
  | .idle | .ret => NoneOwed nodes s k
  | .lock => True
  | .readGp => ∀ r ∈ nodes, s.owed k r = true → phaseOf (s.node r) = phaseOf s.gpSeq
  | .wait false curr rest => curr = s.gpSeq ∧
      ∀ r ∈ nodes, s.owed k r = true → phaseOf (s.node r) = phaseOf curr ∧ r ∈ rest
  | .readFlip curr => curr = s.gpSeq ∧ NoneOwed nodes s k
  | .writeFlip curr v => curr = s.gpSeq ∧ v = s.gpSeq ∧ NoneOwed nodes s k
  | .wait true curr rest => phaseOf curr ≠ phaseOf s.gpSeq ∧ NoneOwed nodes s k ∧
      Current nodes rest s
  | .unlock => NoneOwed nodes s k ∧ Current nodes [] s

/-- A reader word holds the nesting depth of its thread, and its local copies are fresh. -/
structure WordInv (s : State ι κ) : Prop where
  gp : depthOf s.gpSeq = 1
  word : ∀ r, depthOf (s.node r) = s.depth r
  test : ∀ r w, s.reader r = .lockTest w → w = s.node r
  store : ∀ r v, s.reader r = .lockStore v → s.depth r = 0 ∧ depthOf v = 1
  untest : ∀ r w, s.reader r = .unlockTest w → 0 < s.depth r

structure Inv (nodes : List ι) (s : State ι κ) : Prop extends WordInv s where
  owed : ∀ k r, s.owed k r = true → 0 < s.depth r
  holder : ∀ k, (s.sync k).holds = true ↔ s.lock = some k
  free : s.lock = none → Current nodes [] s
  sync : ∀ k, SyncOk nodes s k (s.sync k)

theorem WordInv.local {ι κ : Type} [DecidableEq ι] {s : State ι κ} (h : WordInv s) (r : ι)
    (pc : ReaderPc) (ht : ∀ w, pc = .lockTest w → w = s.node r)
    (hs : ∀ v, pc = .lockStore v → s.depth r = 0 ∧ depthOf v = 1)
    (hu : ∀ w, pc = .unlockTest w → 0 < s.depth r) :
    WordInv { s with reader := Function.update s.reader r pc } := by
  refine ⟨h.gp,h.word,?_,?_,?_⟩
  · intro q w hq
    by_cases hqr : q = r
    · subst hqr; exact ht w (by simpa using hq)
    · exact h.test q w (by simpa [hqr] using hq)
  · intro q v hq
    by_cases hqr : q = r
    · subst hqr; exact hs v (by simpa using hq)
    · exact h.store q v (by simpa [hqr] using hq)
  · intro q w hq
    by_cases hqr : q = r
    · subst hqr; exact hu w (by simpa using hq)
    · exact h.untest q w (by simpa [hqr] using hq)

theorem WordInv.write {ι κ : Type} [DecidableEq ι] {s : State ι κ} (h : WordInv s) (r : ι)
    (w : Word) (d : ℕ) (hw : depthOf w = d) (owed : κ → ι → Bool) :
    WordInv { s with
      node := Function.update s.node r w
      depth := Function.update s.depth r d
      reader := Function.update s.reader r .idle
      owed := owed } := by
  refine ⟨h.gp,?_,?_,?_,?_⟩
  · intro q
    by_cases hqr : q = r
    · subst hqr; simpa using hw
    · simpa [hqr] using h.word q
  · intro q w hq
    by_cases hqr : q = r
    · subst hqr; simp at hq
    · simpa [hqr] using h.test q w (by simpa [hqr] using hq)
  · intro q v hq
    by_cases hqr : q = r
    · subst hqr; simp at hq
    · simpa [hqr] using h.store q v (by simpa [hqr] using hq)
  · intro q w hq
    by_cases hqr : q = r
    · subst hqr; simp at hq
    · simpa [hqr] using h.untest q w (by simpa [hqr] using hq)

theorem WordInv.depthOf_test {ι κ : Type} {s : State ι κ} (h : WordInv s) {r : ι} {w : Word}
    (hr : s.reader r = .lockTest w) : depthOf w = s.depth r := by
  rw [h.test r w hr]
  exact h.word r

theorem WordInv.step {nodes : List ι} {s t : State ι κ} {a : Act ι κ} (h : WordInv s)
    (hok : ∀ r w, a = .lockAdd r w → depthOf w+1 < 2^32)
    (hflip : ∀ k curr v, s.sync k = .writeFlip curr v → depthOf v = 1)
    (hst : step nodes s a = some t) : WordInv t := by
  cases a with
  | lockLoad r =>
    obtain ⟨hr,rfl⟩ := guarded_eq_some.mp hst
    exact h.local r _ (by rintro w ⟨⟩; rfl) (by rintro v ⟨⟩) (by rintro w ⟨⟩)
  | lockRead r w =>
    obtain ⟨⟨hr,hw⟩,rfl⟩ := guarded_eq_some.mp hst
    have hd : s.depth r = 0 := by
      rw [← h.depthOf_test hr]
      exact (and_mask_eq_zero w).mp hw
    exact h.local r _ (by rintro w ⟨⟩) (by rintro v ⟨⟩; exact ⟨hd,h.gp⟩) (by rintro w ⟨⟩)
  | lockStore r v =>
    obtain ⟨hr,rfl⟩ := guarded_eq_some.mp hst
    obtain ⟨hd,hv⟩ := h.store r v hr
    exact h.write r v _ (by rw [hd,hv]) s.owed
  | lockAdd r w =>
    obtain ⟨⟨hr,hw⟩,rfl⟩ := guarded_eq_some.mp hst
    have hlt : depthOf (s.node r)+1 < 2^32 := by rw [← h.test r w hr]; exact hok r w rfl
    exact h.write r _ _ (by rw [depthOf_add _ hlt,h.word]) s.owed
  | unlockLoad r =>
    obtain ⟨⟨hr,hd⟩,rfl⟩ := guarded_eq_some.mp hst
    exact h.local r _ (by rintro w ⟨⟩) (by rintro v ⟨⟩) (by rintro w ⟨⟩; exact hd)
  | unlockAdd r w =>
    obtain ⟨hr,rfl⟩ := guarded_eq_some.mp hst
    have hd : 0 < depthOf (s.node r) := by rw [h.word]; exact h.untest r w hr
    exact h.write r _ _ (by rw [depthOf_sub _ hd,h.word]) _
  | writeFlip k curr v =>
    obtain ⟨hk,rfl⟩ := guarded_eq_some.mp hst
    exact ⟨by simpa using hflip k curr v hk,h.word,h.test,h.store,h.untest⟩
  | syncCall k | syncLock k | syncRead k | waitPass k b curr n rest | waitAgain k b curr n rest
  | waitDone k b curr | readFlip k curr | syncUnlock k | syncReturn k =>
    obtain ⟨_,rfl⟩ := guarded_eq_some.mp hst
    exact ⟨h.gp,h.word,h.test,h.store,h.untest⟩

theorem Inv.current_awaited {ι κ : Type} [DecidableEq ι] {nodes : List ι} {s : State ι κ}
    (h : Inv nodes s) {k : κ} {r : ι}
    (hk : (s.sync k).holds = true) (hr : awaited s r = true) : (s.sync k).awaits r = true := by
  rw [awaited,(h.holder k).mp hk] at hr
  exact hr

/-- A reader step keeps what the synchronizers know: it opens no section with an old
phase that nobody awaits, and it changes no word whose section is owed. -/
theorem Inv.reader {ι κ : Type} [DecidableEq ι] {nodes : List ι} {s t : State ι κ} (h : Inv nodes s)
    (hw : WordInv t) (hg : t.gpSeq = s.gpSeq) (hl : t.lock = s.lock) (hy : t.sync = s.sync)
    (ho : ∀ k r, t.owed k r = true →
      s.owed k r = true ∧ 0 < t.depth r ∧ phaseOf (t.node r) = phaseOf (s.node r))
    (ha : ∀ r, 0 < t.depth r → (0 < s.depth r ∧ phaseOf (t.node r) = phaseOf (s.node r)) ∨
      phaseOf (t.node r) = phaseOf s.gpSeq ∨ awaited s r = true) : Inv nodes t := by
  have hnone : ∀ k, NoneOwed nodes s k → NoneOwed nodes t k := by
    intro k hn r hr
    cases hb : t.owed k r with
    | false => rfl
    | true => exact absurd (ho k r hb).1 (by simp [hn r hr])
  have hcur : ∀ rest, (∀ r, awaited s r = true → r ∈ rest) →
      Current nodes rest s → Current nodes rest t := by
    intro rest haw hc r hr hd
    rw [hg]
    rcases ha r hd with ⟨hd',hp⟩ | hp | hp
    · rw [hp]; exact hc r hr hd'
    · exact Or.inl hp
    · exact Or.inr (haw r hp)
  refine ⟨hw,fun k r hk => (ho k r hk).2.1,by rw [hy,hl]; exact h.holder,?_,?_⟩
  · intro hfree
    rw [hl] at hfree
    exact hcur [] (fun r hr => by simp [awaited,hfree] at hr) (h.free hfree)
  · intro k
    have hk := h.sync k
    have haw := fun r => h.current_awaited (k:=k) (r:=r)
    rw [hy]
    cases hpc : s.sync k with
    | idle | ret => rw [hpc] at hk; exact hnone k hk
    | lock => trivial
    | readGp =>
      rw [hpc] at hk
      intro r hr hb
      obtain ⟨hb',_,hp⟩ := ho k r hb
      rw [hp,hg]; exact hk r hr hb'
    | readFlip curr => rw [hpc] at hk; exact ⟨hk.1.trans hg.symm,hnone k hk.2⟩
    | writeFlip curr v =>
      rw [hpc] at hk
      exact ⟨hk.1.trans hg.symm,hk.2.1.trans hg.symm,hnone k hk.2.2⟩
    | unlock =>
      rw [hpc] at hk haw
      exact ⟨hnone k hk.1,hcur [] (fun r hr => by simpa [SyncPc.awaits] using haw r rfl hr) hk.2⟩
    | wait flipped curr rest =>
      rw [hpc] at hk haw
      cases flipped with
      | false =>
        refine ⟨hk.1.trans hg.symm,fun r hr hb => ?_⟩
        obtain ⟨hb',_,hp⟩ := ho k r hb
        rw [hp]; exact hk.2 r hr hb'
      | true =>
        refine ⟨by rw [hg]; exact hk.1,hnone k hk.2.1,?_⟩
        exact hcur rest (fun r hr => by simpa [SyncPc.awaits] using haw r rfl hr) hk.2.2

/-- What one synchronizer knows does not depend on the others, who change the
current phase only while they hold the lock. -/
theorem SyncOk.other {ι κ : Type} {nodes : List ι} {s t : State ι κ} {k : κ} {pc : SyncPc ι}
    (h : SyncOk nodes s k pc) (hn : t.node = s.node) (hd : t.depth = s.depth)
    (ho : t.owed k = s.owed k) (hg : pc.holds = true → t.gpSeq = s.gpSeq) :
    SyncOk nodes t k pc := by
  cases pc with
  | idle | ret => intro r hr; rw [ho]; exact h r hr
  | lock => trivial
  | readGp | readFlip curr | writeFlip curr v | unlock =>
    simpa [SyncOk,NoneOwed,Current,hn,hd,ho,hg rfl] using h
  | wait flipped curr rest =>
    cases flipped <;> simpa [SyncOk,NoneOwed,Current,hn,hd,ho,hg rfl] using h

theorem Inv.synchronizer {ι κ : Type} [DecidableEq κ] {nodes : List ι} {s : State ι κ}
    (h : Inv nodes s) (k : κ) (pc : SyncPc ι) (lock : Option κ) (gp : Word)
    (hlock : lock = some k ∧ pc.holds = true ∧ (s.lock = none ∨ s.lock = some k) ∨
      lock = none ∧ pc.holds = false ∧ s.lock = some k ∨
      lock = s.lock ∧ pc.holds = false ∧ s.lock ≠ some k)
    (hgp : depthOf gp = 1) (hg : gp = s.gpSeq ∨ s.lock = some k)
    (hfree : lock = none → Current nodes [] { s with gpSeq := gp })
    (howed : κ → ι → Bool) (ho : ∀ j r, j ≠ k → howed j r = s.owed j r)
    (hd : ∀ j r, howed j r = true → 0 < s.depth r)
    (hk : SyncOk nodes { s with gpSeq := gp, owed := howed } k pc) :
    Inv nodes { s with
      gpSeq := gp, lock := lock, sync := Function.update s.sync k pc, owed := howed } := by
  refine ⟨⟨hgp,h.word,h.test,h.store,h.untest⟩,hd,?_,hfree,?_⟩
  · intro j
    by_cases hj : j = k
    · subst hj
      rcases hlock with ⟨rfl,hh,_⟩ | ⟨rfl,hh,_⟩ | ⟨rfl,hh,hne⟩ <;> simp [hh]
      exact hne
    · have hjs := h.holder j
      simp only [Function.update_of_ne hj]
      rcases hlock with ⟨rfl,_,hs | hs⟩ | ⟨rfl,_,hs⟩ | ⟨rfl,_,_⟩
      · simpa [hs,Ne.symm hj] using hjs
      · simpa [hs,Ne.symm hj] using hjs
      · simpa [hs,Ne.symm hj] using hjs
      · exact hjs
  · intro j
    by_cases hj : j = k
    · subst hj
      simp only [Function.update_self]
      exact hk.other rfl rfl rfl (fun _ => rfl)
    · simp only [Function.update_of_ne hj]
      refine (h.sync j).other rfl rfl (by funext r; exact ho j r hj) fun hh => ?_
      rcases hg with hg | hg
      · exact hg
      · rw [(h.holder j).mp hh] at hg
        exact absurd (Option.some.inj hg) hj

theorem Inv.lockStore {nodes : List ι} {s t : State ι κ} {r : ι} {v : Word} (h : Inv nodes s)
    (hw : WordInv t) (hok : Timely s (.lockStore r v))
    (hst : step nodes s (.lockStore r v) = some t) : Inv nodes t := by
  obtain ⟨hr,rfl⟩ := guarded_eq_some.mp hst
  obtain ⟨hd,_⟩ := h.store r v hr
  refine h.reader hw rfl rfl rfl (fun k q hq => ?_) (fun q hq => ?_) <;> by_cases hqr : q = r
  · subst hqr; exact absurd (h.owed k q hq) (by omega)
  · simpa [hqr] using ⟨hq,h.owed k q hq⟩
  · subst hqr; right; simpa [Timely] using hok
  · left; simpa [hqr] using hq

theorem Inv.lockAdd {nodes : List ι} {s t : State ι κ} {r : ι} {w : Word} (h : Inv nodes s)
    (hw : WordInv t) (hok : Timely s (.lockAdd r w))
    (hst : step nodes s (.lockAdd r w) = some t) : Inv nodes t := by
  obtain ⟨⟨hr,hmask⟩,rfl⟩ := guarded_eq_some.mp hst
  have hlt : depthOf (s.node r)+1 < 2^32 := by rw [← h.test r w hr]; exact hok
  have hd : 0 < s.depth r := by
    rw [← h.depthOf_test hr]
    exact Nat.pos_of_ne_zero fun h0 => hmask ((and_mask_eq_zero w).mpr h0)
  refine h.reader hw rfl rfl rfl (fun k q hq => ?_) (fun q hq => ?_) <;> by_cases hqr : q = r
  · subst hqr; simpa [phaseOf_add _ hlt] using hq
  · simpa [hqr] using ⟨hq,h.owed k q hq⟩
  · subst hqr; left; simpa [phaseOf_add _ hlt] using hd
  · left; simpa [hqr] using hq

theorem Inv.unlockAdd {nodes : List ι} {s t : State ι κ} {r : ι} {w : Word} (h : Inv nodes s)
    (hw : WordInv t) (hst : step nodes s (.unlockAdd r w) = some t) : Inv nodes t := by
  obtain ⟨hr,rfl⟩ := guarded_eq_some.mp hst
  have hd : 0 < s.depth r := h.untest r w hr
  have hp : phaseOf (s.node r+-gpCount) = phaseOf (s.node r) :=
    phaseOf_sub _ (by rw [h.word]; exact hd)
  refine h.reader hw rfl rfl rfl (fun k q hq => ?_) (fun q hq => ?_) <;> by_cases hqr : q = r
  · subst hqr
    obtain ⟨hb,hne⟩ : s.owed k q = true ∧ s.depth q ≠ 1 := by simpa using hq
    simp [hb,hp]
    omega
  · have hb : s.owed k q = true := by simpa [hqr] using hq
    simpa [hqr] using ⟨hb,h.owed k q hb⟩
  · subst hqr; left; simpa [hp] using hd
  · left; simpa [hqr] using hq

/-- The holder of the lock goes on and keeps it. -/
theorem Inv.holderTo {ι κ : Type} [DecidableEq κ] {nodes : List ι} {s : State ι κ} {k : κ}
    {pc : SyncPc ι} (h : Inv nodes s)
    (hk : (s.sync k).holds = true) (hpc : pc.holds = true) (hok : SyncOk nodes s k pc) :
    Inv nodes { s with sync := Function.update s.sync k pc } := by
  have hl := (h.holder k).mp hk
  exact h.synchronizer k pc s.lock s.gpSeq (Or.inl ⟨hl,hpc,Or.inr hl⟩) h.gp (Or.inl rfl) h.free
    s.owed (fun _ _ _ => rfl) h.owed hok

theorem Inv.waitPass {nodes : List ι} {s t : State ι κ} {k : κ} {b : Bool} {curr : Word} {n : ι}
    {rest : List ι} (h : Inv nodes s) (hst : step nodes s (.waitPass k b curr n rest) = some t) :
    Inv nodes t := by
  obtain ⟨⟨hk,hp⟩,rfl⟩ := guarded_eq_some.mp hst
  have hs := h.sync k
  rw [hk] at hs
  have hn := (passes_iff _ _).mp hp
  rw [h.word] at hn
  refine h.holderTo (by rw [hk]; rfl) rfl ?_
  cases b with
  | false =>
    refine ⟨hs.1,fun r hr hb => ?_⟩
    obtain ⟨hph,hmem⟩ := hs.2 r hr hb
    refine ⟨hph,(List.mem_cons.mp hmem).resolve_left fun hrn => ?_⟩
    -- an owed reader is active in the awaited phase, so the loop does not pass it
    subst hrn
    exact hn.elim (fun h0 => absurd (h.owed k r hb) (by omega)) fun hne => hne hph
  | true =>
    refine ⟨hs.1,hs.2.1,fun r hr (hd : 0 < s.depth r) => ?_⟩
    rcases hs.2.2 r hr hd with hph | hmem
    · exact Or.inl hph
    · rcases List.mem_cons.mp hmem with hrn | hmem
      · subst hrn
        left
        have hne : phaseOf (s.node r) ≠ phaseOf curr := hn.resolve_left (by omega)
        have hc := hs.1
        revert hne hc
        show phaseOf (s.node r) ≠ phaseOf curr → phaseOf curr ≠ phaseOf s.gpSeq →
          phaseOf (s.node r) = phaseOf s.gpSeq
        cases phaseOf (s.node r) <;> cases phaseOf curr <;> cases phaseOf s.gpSeq <;> simp
      · exact Or.inr hmem

theorem Inv.waitDone {nodes : List ι} {s t : State ι κ} {k : κ} {b : Bool} {curr : Word}
    (h : Inv nodes s) (hst : step nodes s (.waitDone k b curr) = some t) : Inv nodes t := by
  obtain ⟨hk,rfl⟩ := guarded_eq_some.mp hst
  have hs := h.sync k
  rw [hk] at hs
  cases b with
  | false =>
    refine h.holderTo (by rw [hk]; rfl) rfl ⟨hs.1,fun r hr => ?_⟩
    by_contra hb
    simpa using (hs.2 r hr (by simpa using hb)).2
  | true => exact h.holderTo (by rw [hk]; rfl) rfl ⟨hs.2.1,hs.2.2⟩

theorem Inv.writeFlip {nodes : List ι} {s t : State ι κ} {k : κ} {curr v : Word}
    (h : Inv nodes s) (hw : WordInv t) (hst : step nodes s (.writeFlip k curr v) = some t) :
    Inv nodes t := by
  obtain ⟨hk,rfl⟩ := guarded_eq_some.mp hst
  have hl := (h.holder k).mp (by rw [hk]; rfl)
  have hs := h.sync k
  rw [hk] at hs
  obtain ⟨hc,hv,hn⟩ := hs
  have hph : phaseOf curr ≠ phaseOf (v ^^^ gpCtrPhase) := by rw [hc,hv]; simp
  exact h.synchronizer k (.wait true curr nodes) s.lock (v ^^^ gpCtrPhase)
    (Or.inl ⟨hl,rfl,Or.inr hl⟩) hw.gp (Or.inr hl) (fun h0 => by simp [hl] at h0) s.owed
    (fun _ _ _ => rfl) h.owed ⟨hph,hn,fun r hr _ => Or.inr hr⟩

theorem Inv.step {nodes : List ι} {s t : State ι κ} {a : Act ι κ} (h : Inv nodes s)
    (hok : Timely s a) (hst : step nodes s a = some t) : Inv nodes t := by
  have hw : WordInv t := h.toWordInv.step (by rintro r w rfl; exact hok)
    (fun k curr v hk => by
      have hh := h.sync k
      rw [hk] at hh
      rw [hh.2.1]; exact h.gp) hst
  cases a with
  | lockLoad r | lockRead r w | unlockLoad r =>
    obtain ⟨_,rfl⟩ := guarded_eq_some.mp hst
    exact h.reader hw rfl rfl rfl (fun k q hq => ⟨hq,h.owed k q hq,rfl⟩)
      (fun q hq => Or.inl ⟨hq,rfl⟩)
  | lockStore r v => exact h.lockStore hw hok hst
  | lockAdd r w => exact h.lockAdd hw hok hst
  | unlockAdd r w => exact h.unlockAdd hw hst
  | syncCall k =>
    obtain ⟨hk,rfl⟩ := guarded_eq_some.mp hst
    have hl : s.lock ≠ some k := fun hl => by simpa [hk,SyncPc.holds] using (h.holder k).mpr hl
    refine h.synchronizer k .lock s.lock s.gpSeq (Or.inr (Or.inr ⟨rfl,rfl,hl⟩)) h.gp
      (Or.inl rfl) h.free _ (fun j r hj => by simp [hj]) (fun j r hj => ?_) trivial
    by_cases hjk : j = k
    · subst hjk; simpa using hj
    · exact h.owed j r (by simpa [hjk] using hj)
  | syncLock k =>
    obtain ⟨⟨hk,hl⟩,rfl⟩ := guarded_eq_some.mp hst
    exact h.synchronizer k .readGp (some k) s.gpSeq (Or.inl ⟨rfl,rfl,Or.inl hl⟩) h.gp
      (Or.inl rfl) nofun s.owed (fun _ _ _ => rfl) h.owed
      (fun r hr hb => (h.free hl r hr (h.owed k r hb)).resolve_right (by simp))
  | syncRead k =>
    obtain ⟨hk,rfl⟩ := guarded_eq_some.mp hst
    have hs := h.sync k
    rw [hk] at hs
    exact h.holderTo (by rw [hk]; rfl) rfl ⟨rfl,fun r hr hb => ⟨hs r hr hb,hr⟩⟩
  | waitPass k b curr n rest => exact h.waitPass hst
  | waitAgain k b curr n rest =>
    obtain ⟨_,rfl⟩ := guarded_eq_some.mp hst
    exact h
  | waitDone k b curr => exact h.waitDone hst
  | readFlip k curr =>
    obtain ⟨hk,rfl⟩ := guarded_eq_some.mp hst
    have hs := h.sync k
    rw [hk] at hs
    exact h.holderTo (by rw [hk]; rfl) rfl ⟨hs.1,rfl,hs.2⟩
  | writeFlip k curr v => exact h.writeFlip hw hst
  | syncUnlock k =>
    obtain ⟨hk,rfl⟩ := guarded_eq_some.mp hst
    have hl := (h.holder k).mp (by rw [hk]; rfl)
    have hs := h.sync k
    rw [hk] at hs
    exact h.synchronizer k .ret none s.gpSeq (Or.inr (Or.inl ⟨rfl,rfl,hl⟩)) h.gp (Or.inl rfl)
      (fun _ => hs.2) s.owed (fun _ _ _ => rfl) h.owed hs.1
  | syncReturn k =>
    obtain ⟨hk,rfl⟩ := guarded_eq_some.mp hst
    have hl : s.lock ≠ some k := fun hl => by simpa [hk,SyncPc.holds] using (h.holder k).mpr hl
    have hs := h.sync k
    rw [hk] at hs
    exact h.synchronizer k .idle s.lock s.gpSeq (Or.inr (Or.inr ⟨rfl,rfl,hl⟩)) h.gp (Or.inl rfl)
      h.free s.owed (fun _ _ _ => rfl) h.owed hs

theorem Inv.init {ι κ : Type} {nodes : List ι} : Inv nodes (Rcu.init ι κ) := by
  refine ⟨⟨rfl,fun _ => rfl,nofun,nofun,nofun⟩,nofun,?_,?_,?_⟩
  · intro k; simp [Rcu.init,SyncPc.holds]
  · intro _ r _ hd; exact absurd hd (by simp [Rcu.init])
  · intro k r _; rfl

theorem Inv.gracePeriod {ι κ : Type} {nodes : List ι} {s : State ι κ} (h : Inv nodes s) :
    GracePeriod nodes s := by
  intro k hk r hr
  have hs := h.sync k
  rw [hk] at hs
  exact hs r hr

/-- In every run whose readers publish in time, for any number of readers, synchronizers
and calls, no call returns before the sections that were open at its start are closed. -/
theorem gracePeriod_of_timely {nodes : List ι} {s : State ι κ}
    (h : Reach (step nodes) Timely (init ι κ) s) : GracePeriod nodes s :=
  (h.invariant (I:=Inv nodes) .init fun _ _ _ hi hok hst => hi.step hok hst).gracePeriod

/-- One whole call of `mthpc_synchronize_rcu_internal` that passes the one node at once. -/
def quickSync (curr : Word) : List (Act Unit Unit) :=
  [.syncCall (),.syncLock (),.syncRead (),.waitPass () false curr () [],.waitDone () false curr,
    .readFlip () curr,.writeFlip () curr curr,.waitPass () true curr () [],.waitDone () true curr,
    .syncUnlock ()]

/-- The reader loads phase zero, a whole grace period passes, and it stores phase zero.
The next synchronizer starts inside the section and skips the reader in both waits. -/
def staleRun : List (Act Unit Unit) :=
  [.lockLoad (),.lockRead () 0] ++ quickSync gpCount ++ [.syncReturn (),.lockStore () gpCount] ++
    quickSync (gpCount ^^^ gpCtrPhase)

theorem staleRun_ends : ∃ s, exec (step [()]) (init Unit Unit) staleRun = some s ∧
    s.sync () = .ret ∧ s.owed () () = true := ⟨_,rfl,rfl,rfl⟩

/-- The guarantee fails over all interleavings, already for one reader and one synchronizer. -/
theorem gracePeriod_fails : ¬ ∀ s, Reach (step [()]) Anything (init Unit Unit) s →
    GracePeriod [()] s := by
  intro h
  obtain ⟨s,hs,hr,ho⟩ := staleRun_ends
  have hf := h s (reach_of_exec hs) () hr () (by simp)
  simp [ho] at hf

/-- A reader inside its section blocks the first wait; it unlocks and the call returns. -/
def timelyRun : List (Act Unit Unit) :=
  [.lockLoad (),.lockRead () 0,.lockStore () gpCount,
    .syncCall (),.syncLock (),.syncRead (),.waitAgain () false gpCount () [],
    .unlockLoad (),.unlockAdd () gpCount,
    .waitPass () false gpCount () [],.waitDone () false gpCount,
    .readFlip () gpCount,.writeFlip () gpCount gpCount,.waitPass () true gpCount () [],
    .waitDone () true gpCount,.syncUnlock ()]

theorem gracePeriod_of_timelyRun : ∃ s, Reach (step [()]) Timely (init Unit Unit) s ∧
    s.sync () = .ret ∧ GracePeriod [()] s := by
  have hs : ∃ s, exec (restrict (step [()]) Timely) (init Unit Unit) timelyRun = some s ∧
      s.sync () = .ret := ⟨_,rfl,rfl⟩
  obtain ⟨s,hs,hr⟩ := hs
  have hreach := reach_of_exec_restrict hs
  exact ⟨s,hreach,hr,gracePeriod_of_timely hreach⟩

end Rcu
end Mthpc
