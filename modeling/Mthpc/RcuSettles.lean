import Mthpc.GracePeriod
import Mthpc.Settles

/-!
# Every section closes and every grace period ends

No reader and no synchronizer can be left stuck: once no section and no call begins any more,
the instructions of the sections and calls under way run out, however they are ordered, and
what they leave is a state in which no section is open and no call is under way. Only the loop
that looks at the word of a reader again does not count as an instruction here.
-/
namespace Mthpc
namespace Rcu

open StepSystem

variable {ι κ : Type} [DecidableEq ι] [DecidableEq κ]

/-- A thread does not begin a section inside 2^32 - 1 others. -/
def Bounded (s : State ι κ) : Act ι κ → Prop
  | .lockLoad r => s.depth r+1 < 2^32
  | _ => True

instance (s : State ι κ) : ∀ a, Decidable (Bounded s a)
  | .lockLoad r => inferInstanceAs (Decidable (s.depth r+1 < 2^32))
  | .lockRead _ _ | .lockStore _ _ | .lockAdd _ _ | .unlockLoad _ | .unlockAdd _ _ | .syncCall _
  | .syncLock _ | .syncRead _ | .waitPass _ _ _ _ _ | .waitAgain _ _ _ _ _ | .waitDone _ _ _
  | .readFlip _ _ | .writeFlip _ _ _ | .syncUnlock _ | .syncReturn _ =>
    inferInstanceAs (Decidable True)

/-- The instructions of what is under way: no section begins, no call begins, and the wait does
not look at the same word again. -/
def Closing (_ : State ι κ) : Act ι κ → Prop
  | .lockLoad _ | .syncCall _ | .waitAgain _ _ _ _ _ => False
  | _ => True

/-- No section is open and no call is under way. -/
structure Quiescent (s : State ι κ) : Prop where
  reader : ∀ r, s.reader r = .idle
  closed : ∀ r, s.depth r = 0
  inactive : ∀ r, s.node r &&& gpCtrNestMask = 0
  sync : ∀ k, s.sync k = .idle
  lock : s.lock = none

/-- What keeps both parties able to move, whatever the phases. -/
structure MoveInv (s : State ι κ) : Prop extends WordInv s where
  flip : ∀ k curr v, s.sync k = .writeFlip curr v → depthOf v = 1
  room : ∀ r w, s.reader r = .lockTest w → s.depth r+1 < 2^32
  holder : ∀ k, (s.sync k).holds = true ↔ s.lock = some k

theorem MoveInv.init {ι κ : Type} : MoveInv (Rcu.init ι κ) where
  toWordInv := (Inv.init : Inv [] (Rcu.init ι κ)).toWordInv
  flip _ _ _ h := by cases h
  room _ _ h := by cases h
  holder _ := by simp [Rcu.init,SyncPc.holds]

section Step

variable {nodes : List ι} {s t : State ι κ} {a : Act ι κ}

theorem MoveInv.reader {ι κ : Type} [DecidableEq ι] {s t : State ι κ} {r : ι} {pc : ReaderPc}
    (h : MoveInv s) (hw : WordInv t) (hy : t.sync = s.sync) (hl : t.lock = s.lock)
    (hr : t.reader = Function.update s.reader r pc) (hd : ∀ q, q ≠ r → t.depth q = s.depth q)
    (ht : ∀ w, pc = .lockTest w → t.depth r+1 < 2^32) : MoveInv t := by
  refine ⟨hw,by rw [hy]; exact h.flip,fun q w hq => ?_,by rw [hy,hl]; exact h.holder⟩
  rw [hr] at hq
  by_cases hqr : q = r
  · subst hqr
    exact ht w (by simpa using hq)
  · rw [hd q hqr]
    exact h.room q w (by simpa [hqr] using hq)

theorem MoveInv.synchronizer {ι κ : Type} [DecidableEq κ] {s t : State ι κ} {k : κ} {pc : SyncPc ι}
    (h : MoveInv s) (hw : WordInv t) (hr : t.reader = s.reader) (hd : t.depth = s.depth)
    (hy : t.sync = Function.update s.sync k pc)
    (hf : ∀ curr v, pc = .writeFlip curr v → depthOf v = 1)
    (hl : t.lock = (if pc.holds then some k else if s.lock = some k then none else s.lock))
    (hk : pc.holds = true → s.lock = none ∨ s.lock = some k) : MoveInv t := by
  refine ⟨hw,fun j curr v hj => ?_,by rw [hr,hd]; exact h.room,fun j => ?_⟩
  · rw [hy] at hj
    by_cases hjk : j = k
    · subst hjk
      exact hf curr v (by simpa using hj)
    · exact h.flip j curr v (by simpa [hjk] using hj)
  · have hj := h.holder j
    rw [hy,hl]
    by_cases hjk : j = k
    · subst hjk
      rw [Function.update_self]
      cases pc.holds <;> grind
    · rw [Function.update_of_ne hjk]
      cases hp : pc.holds
      · by_cases hs : s.lock = some k <;> grind
      · have := hk hp
        grind

theorem MoveInv.step (h : MoveInv s) (hok : Bounded s a ∨ Closing s a)
    (hst : step nodes s a = some t) : MoveInv t := by
  have hw : WordInv t := h.toWordInv.step (fun r w ha => by
    subst ha
    obtain ⟨⟨hr,_⟩,_⟩ := guarded_eq_some.mp hst
    rw [h.depthOf_test hr]
    exact h.room r w hr) h.flip hst
  cases a with
  | lockLoad r =>
    obtain ⟨_,rfl⟩ := guarded_eq_some.mp hst
    exact h.reader hw rfl rfl rfl (fun _ _ => rfl) fun _ _ => hok.resolve_right id
  | lockRead r w | unlockLoad r =>
    obtain ⟨_,rfl⟩ := guarded_eq_some.mp hst
    exact h.reader hw rfl rfl rfl (fun _ _ => rfl) (by rintro _ ⟨⟩)
  | lockStore r v | lockAdd r w | unlockAdd r w =>
    obtain ⟨_,rfl⟩ := guarded_eq_some.mp hst
    exact h.reader hw rfl rfl rfl (fun q hq => Function.update_of_ne hq _ _) (by rintro _ ⟨⟩)
  | waitAgain k b curr n rest =>
    obtain ⟨_,rfl⟩ := guarded_eq_some.mp hst
    exact h
  | waitDone k b curr =>
    obtain ⟨hk,rfl⟩ := guarded_eq_some.mp hst
    have hl := (h.holder k).mp (by rw [hk]; rfl)
    cases b <;> exact h.synchronizer hw rfl rfl rfl (by rintro _ _ ⟨⟩) (by simpa [SyncPc.holds])
      fun _ => .inr hl
  | syncRead k | waitPass k b curr n rest | writeFlip k curr v =>
    obtain ⟨hk,rfl⟩ := guarded_eq_some.mp hst
    have hl := (h.holder k).mp (by simp only [hk]; rfl)
    exact h.synchronizer hw rfl rfl rfl (by rintro _ _ ⟨⟩) (by simpa [SyncPc.holds])
      fun _ => .inr hl
  | readFlip k curr =>
    obtain ⟨hk,rfl⟩ := guarded_eq_some.mp hst
    have hl := (h.holder k).mp (by rw [hk]; rfl)
    exact h.synchronizer hw rfl rfl rfl (by rintro _ _ ⟨⟩; exact h.gp) (by simpa [SyncPc.holds])
      fun _ => .inr hl
  | syncCall k | syncReturn k =>
    obtain ⟨hk,rfl⟩ := guarded_eq_some.mp hst
    have hl : s.lock ≠ some k := fun hl => by simpa [hk,SyncPc.holds] using (h.holder k).mpr hl
    exact h.synchronizer hw rfl rfl rfl (by rintro _ _ ⟨⟩) (by simp [SyncPc.holds,hl])
      (by simp [SyncPc.holds])
  | syncLock k =>
    obtain ⟨⟨_,hl⟩,rfl⟩ := guarded_eq_some.mp hst
    exact h.synchronizer hw rfl rfl rfl (by rintro _ _ ⟨⟩) (by simp [SyncPc.holds])
      fun _ => .inl hl
  | syncUnlock k =>
    obtain ⟨hk,rfl⟩ := guarded_eq_some.mp hst
    have hl := (h.holder k).mp (by rw [hk]; rfl)
    exact h.synchronizer hw rfl rfl rfl (by rintro _ _ ⟨⟩) (by simp [SyncPc.holds,hl])
      (by simp [SyncPc.holds])

def ReaderPc.cost (depth : ℕ) : ReaderPc → ℕ
  | .idle => 2*depth
  | .lockTest _ => 2*depth+4
  | .lockStore _ => 2*depth+3
  | .unlockTest _ => 2*depth-1

/-- The instructions left to a call; `n` is the number of nodes. -/
def SyncPc.cost (n : ℕ) : SyncPc ι → ℕ
  | .idle => 0
  | .ret => 1
  | .unlock => 2
  | .wait true _ rest => 3+rest.length
  | .writeFlip _ _ => 4+n
  | .readFlip _ => 5+n
  | .wait false _ rest => 6+n+rest.length
  | .readGp => 7+2*n
  | .lock => 8+2*n

def cost [Fintype ι] [Fintype κ] (nodes : List ι) (s : State ι κ) : ℕ :=
  ∑ r, (s.reader r).cost (s.depth r)+∑ k, (s.sync k).cost nodes.length

variable [Fintype ι] [Fintype κ]

theorem cost_reader {ι κ : Type} {nodes : List ι} {s t : State ι κ} [Fintype ι] [Fintype κ] {r : ι}
    (hy : t.sync = s.sync) (hr : (t.reader r).cost (t.depth r) < (s.reader r).cost (s.depth r))
    (ho : ∀ q, q ≠ r → t.reader q = s.reader q ∧ t.depth q = s.depth q) :
    cost nodes t < cost nodes s := by
  rw [cost,cost,hy]
  exact Nat.add_lt_add_right (sum_lt_of_one r (Finset.mem_univ r) hr fun q _ hq => by
    rw [(ho q hq).1,(ho q hq).2]) _

theorem cost_sync {ι κ : Type} [DecidableEq κ] {nodes : List ι} {s t : State ι κ} [Fintype ι]
    [Fintype κ] {k : κ} {pc : SyncPc ι} (hr : t.reader = s.reader) (hd : t.depth = s.depth)
    (hy : t.sync = Function.update s.sync k pc)
    (hk : pc.cost nodes.length < (s.sync k).cost nodes.length) : cost nodes t < cost nodes s := by
  rw [cost,cost,hr,hd,hy]
  refine Nat.add_lt_add_left (sum_lt_of_one k (Finset.mem_univ k)
    (by rwa [Function.update_self]) fun j _ hj => ?_) _
  rw [Function.update_of_ne hj]

theorem cost_step (h : MoveInv s) (hok : Closing s a) (hst : step nodes s a = some t) :
    cost nodes t < cost nodes s := by
  cases a with
  | lockLoad r | syncCall k | waitAgain k b curr n rest => exact hok.elim
  | lockRead r w =>
    obtain ⟨⟨hr,_⟩,rfl⟩ := guarded_eq_some.mp hst
    exact cost_reader (r:=r) rfl (by simp [hr,ReaderPc.cost]) fun q hq => by simp [hq]
  | lockStore r v =>
    obtain ⟨hr,rfl⟩ := guarded_eq_some.mp hst
    refine cost_reader (r:=r) rfl ?_ fun q hq => by simp [hq]
    simp only [hr,Function.update_self,ReaderPc.cost]
    omega
  | lockAdd r w =>
    obtain ⟨⟨hr,_⟩,rfl⟩ := guarded_eq_some.mp hst
    refine cost_reader (r:=r) rfl ?_ fun q hq => by simp [hq]
    simp only [hr,Function.update_self,ReaderPc.cost]
    omega
  | unlockLoad r =>
    obtain ⟨⟨hr,hd⟩,rfl⟩ := guarded_eq_some.mp hst
    refine cost_reader (r:=r) rfl ?_ fun q hq => by simp [hq]
    simp only [hr,Function.update_self,ReaderPc.cost]
    omega
  | unlockAdd r w =>
    obtain ⟨hr,rfl⟩ := guarded_eq_some.mp hst
    have hd := h.untest r w hr
    refine cost_reader (r:=r) rfl ?_ fun q hq => by simp [hq]
    simp only [hr,Function.update_self,ReaderPc.cost]
    omega
  | waitDone k b curr =>
    obtain ⟨hk,rfl⟩ := guarded_eq_some.mp hst
    cases b <;> exact cost_sync rfl rfl rfl (by simp [hk,SyncPc.cost])
  | waitPass k b curr n rest =>
    obtain ⟨⟨hk,_⟩,rfl⟩ := guarded_eq_some.mp hst
    cases b <;> exact cost_sync rfl rfl rfl (by simp [hk,SyncPc.cost])
  | syncLock k =>
    obtain ⟨⟨hk,_⟩,rfl⟩ := guarded_eq_some.mp hst
    exact cost_sync rfl rfl rfl (by simp [hk,SyncPc.cost])
  | syncRead k | readFlip k curr | writeFlip k curr v | syncUnlock k | syncReturn k =>
    obtain ⟨hk,rfl⟩ := guarded_eq_some.mp hst
    exact cost_sync rfl rfl rfl (by simp only [hk,SyncPc.cost]; omega)

theorem reader_done {ι κ : Type} [DecidableEq ι] [DecidableEq κ] {nodes : List ι} {s : State ι κ}
    (hq : ∀ a, Closing s a → Rcu.step nodes s a = none)
    (r : ι) : s.reader r = .idle ∧ s.depth r = 0 := by
  cases hr : s.reader r with
  | idle =>
    have hn := guarded_eq_none.mp (hq (.unlockLoad r) trivial)
    exact ⟨rfl,Nat.eq_zero_of_not_pos fun hd => hn ⟨hr,hd⟩⟩
  | lockTest w =>
    by_cases hw : w &&& gpCtrNestMask = 0
    · exact absurd ⟨hr,hw⟩ (guarded_eq_none.mp (hq (.lockRead r w) trivial))
    · exact absurd ⟨hr,hw⟩ (guarded_eq_none.mp (hq (.lockAdd r w) trivial))
  | lockStore v => exact absurd hr (guarded_eq_none.mp (hq (.lockStore r v) trivial))
  | unlockTest w => exact absurd hr (guarded_eq_none.mp (hq (.unlockAdd r w) trivial))

theorem MoveInv.quiescent {ι κ : Type} [DecidableEq ι] [DecidableEq κ] {nodes : List ι}
    {s : State ι κ} (h : MoveInv s) (hq : ∀ a, Closing s a → Rcu.step nodes s a = none) :
    Quiescent s := by
  have hdepth := fun r => (reader_done hq r).2
  have hword : ∀ r, s.node r &&& gpCtrNestMask = 0 := fun r =>
    (and_mask_eq_zero _).mpr ((h.word r).trans (hdepth r))
  -- whoever holds the lock can go on, so nobody holds it
  have hmoves : ∀ k, s.sync k = .idle ∨ s.sync k = .lock := by
    intro k
    cases hk : s.sync k with
    | idle => exact .inl rfl
    | lock => exact .inr rfl
    | readGp => exact absurd hk (guarded_eq_none.mp (hq (.syncRead k) trivial))
    | wait b curr rest =>
      cases rest with
      | nil => exact absurd hk (guarded_eq_none.mp (hq (.waitDone k b curr) trivial))
      | cons n rest =>
        refine absurd ⟨hk,?_⟩ (guarded_eq_none.mp (hq (.waitPass k b curr n rest) trivial))
        exact (passes_iff _ _).mpr (.inl ((h.word n).trans (hdepth n)))
    | readFlip curr => exact absurd hk (guarded_eq_none.mp (hq (.readFlip k curr) trivial))
    | writeFlip curr v => exact absurd hk (guarded_eq_none.mp (hq (.writeFlip k curr v) trivial))
    | unlock => exact absurd hk (guarded_eq_none.mp (hq (.syncUnlock k) trivial))
    | ret => exact absurd hk (guarded_eq_none.mp (hq (.syncReturn k) trivial))
  have hlock : s.lock = none := by
    cases hl : s.lock with
    | none => rfl
    | some k =>
      have hh := (h.holder k).mpr hl
      obtain hk | hk := hmoves k <;> simp [hk,SyncPc.holds] at hh
  refine ⟨fun r => (reader_done hq r).1,hdepth,hword,fun k => ?_,hlock⟩
  exact (hmoves k).resolve_right fun hk => guarded_eq_none.mp (hq (.syncLock k) trivial) ⟨hk,hlock⟩

/-- From every state of every run, the sections and calls under way end, however their
instructions are ordered; no call of `mthpc_synchronize_rcu_internal` is left waiting. -/
theorem settles_of_bounded (h : Reach (step nodes) Bounded (init ι κ) s) :
    Settles (step nodes) Closing Quiescent s := by
  have hi : MoveInv s := h.invariant .init fun _ _ _ hi hok hst => hi.step (.inl hok) hst
  exact .of_measure (cost nodes) hi
    (fun _ _ _ hi hok hst => ⟨hi.step (.inr hok) hst,cost_step hi hok hst⟩)
    fun _ hi hq => hi.quiescent hq

end Step

def nestedRun : List (Act Unit Unit) :=
  [.lockLoad (),.lockRead () 0,.lockStore () gpCount,.lockLoad (),.lockAdd () gpCount,
    .syncCall (),.syncLock (),.syncRead ()]

theorem settles_of_nestedRun : ∃ s, Reach (step [()]) Bounded (init Unit Unit) s ∧
    s.depth () = 2 ∧ s.sync () = .wait false gpCount [()] ∧
    Settles (step [()]) Closing Quiescent s ∧
    ∃ t, Reach (step [()]) Closing s t ∧ Quiescent t := by
  have hs : ∃ s, exec (restrict (step [()]) Bounded) (init Unit Unit) nestedRun = some s ∧
      s.depth () = 2 ∧ s.sync () = .wait false gpCount [()] := ⟨_,rfl,rfl,rfl⟩
  obtain ⟨s,hs,hd,hw⟩ := hs
  have hreach := reach_of_exec_restrict hs
  have hsettles := settles_of_bounded hreach
  exact ⟨s,hreach,hd,hw,hsettles,hsettles.reach⟩

end Rcu
end Mthpc
