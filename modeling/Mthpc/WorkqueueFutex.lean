import Mthpc.WorkqueueLocks

/-!
# The futex of a workqueue

The word `wq->futex` becomes 1 with the first `mthpc_wq_futex_wake` and stays 1, because the
wait would set it back only on a result `EAGAIN` that no `futex` returns. So it tells whether
the queue is empty just where it is not, and no worker sleeps after that first wake. The
emulation of `src/futex.c` is a second layer: its mutex, its condition variable and what every
caller does between them, over the system of the workqueues.
-/
namespace Mthpc
namespace Workqueue

open StepSystem

section Word

variable {ι W : Type} [DecidableEq ι] [DecidableEq W]

/-- The call has added its work to `q` and has not returned from `mthpc_wq_futex_wake`. -/
def Pc.waking (q : ℕ) : Pc W → Prop
  | .unlock _ _ r | .leave _ (some r) | .unlockPool _ _ r | .create r | .drop _ r | .store r
  | .wake r => r = q
  | _ => False

/-- The worker is about to test the word of its active queue, and nobody is at work on it. -/
structure Resting (s : State ι W) (q : ℕ) : Prop where
  worker : s.worker q = .wait
  active : active (s.wq q).activedCpu = true
  lock : (s.wq q).lock = none
  callers : ∀ a, ¬ (s.pc a).waking q

/-- 0 stands for an empty queue and 1 for a non-empty one. -/
def TellsEmptiness (s : State ι W) (q : ℕ) : Prop :=
  (s.wq q).futex = if ListHead.empty s.links (.works q) = true then 0 else 1

/-- A queue with a worker has its word set, or the call that made the worker is to set it. -/
def Woken (s : State ι W) : Prop :=
  ∀ q, s.worker q ≠ .absent → (s.wq q).futex = 1 ∨ ∃ a, s.pc a = .store q

variable {s s' : State ι W} {qs : Wp → List ℕ} {fs : List ℕ} {a : Actor ι} {q : ℕ}

theorem update_futex {ι W : Type} {s s' : State ι W} {q : ℕ} {r : Wq ι}
    (hw : s'.wq = Function.update s.wq q r)
    (hr : r.futex = (s.wq q).futex) (n : ℕ) : (s'.wq n).futex = (s.wq n).futex := by
  rw [hw]
  by_cases hn : n = q
  · rw [hn,Function.update_self,hr]
  · rw [Function.update_of_ne hn]

/-- A call starts the worker it has made, and the word of a queue with a worker changes only
when a call stores it. -/
theorem go_word {mem : Option Word} {here : Word} {n : ℕ} (hi : PoolInv s qs fs)
    (hst : Workqueue.go s a mem here (s.pc a) = some s') :
    (s'.worker n ≠ .absent → s.worker n ≠ .absent ∨ s'.pc a = .store n) ∧
    (s.worker n ≠ .absent → s'.worker n = s.worker n ∧
      ((s'.wq n).futex = (s.wq n).futex ∧ s.pc a ≠ .store n ∨
        s.pc a = .store n ∧ s'.pc a = .wake n ∧ (s'.wq n).futex = 1)) := by
  have hsame : ∀ {t : State ι W}, t.worker = s.worker →
      (s.worker n ≠ .absent → (t.wq n).futex = (s.wq n).futex) → (∀ q, s.pc a ≠ .store q) →
      (t.worker n ≠ .absent → s.worker n ≠ .absent ∨ t.pc a = .store n) ∧
      (s.worker n ≠ .absent → t.worker n = s.worker n ∧
        ((t.wq n).futex = (s.wq n).futex ∧ s.pc a ≠ .store n ∨
          s.pc a = .store n ∧ t.pc a = .wake n ∧ (t.wq n).futex = 1)) :=
    fun hw hf hp => ⟨fun hn => .inl (by rwa [hw] at hn),
      fun hn => ⟨by rw [hw],.inl ⟨hf hn,hp n⟩⟩⟩
  cases hp : s.pc a with
  | idle =>
    rw [hp] at hst
    cases hst
  | walk c pos =>
    rw [hp] at hst hsame
    obtain ⟨_,rfl⟩ | ⟨r,_,⟨_,rfl⟩ | ⟨_,rfl⟩⟩ := walk_spec hst <;>
      exact hsame rfl (fun _ => rfl) (by rintro _ ⟨⟩)
  | recheck c pre pos =>
    rw [hp] at hst hsame
    obtain ⟨_,rfl⟩ | ⟨r,_,⟨_,rfl⟩ | ⟨_,rfl⟩⟩ := recheck_spec hst <;>
      exact hsame rfl (fun _ => rfl) (by rintro _ ⟨⟩)
  | lock c pre r =>
    rw [hp] at hst hsame
    obtain ⟨_,rfl⟩ := guarded_eq_some.mp hst
    exact hsame rfl (fun _ => update_futex rfl (by rfl) n) (by rintro _ ⟨⟩)
  | lockPool c pre =>
    rw [hp] at hst hsame
    obtain ⟨_,rfl⟩ := guarded_eq_some.mp hst
    exact hsame rfl (fun _ => rfl) (by rintro _ ⟨⟩)
  | unlock c pre r =>
    rw [hp] at hst hsame
    cases pre <;> cases hst <;>
      exact hsame rfl (fun _ => update_futex rfl (by rfl) n) (by rintro _ ⟨⟩)
  | add c pre r | setCpu c r | addPre c r =>
    rw [hp] at hst hsame
    cases hst
    exact hsame rfl (fun _ => update_futex rfl (by rfl) n) (by rintro _ ⟨⟩)
  | alloc c =>
    rw [hp] at hst hsame
    cases mem with
    | none =>
      cases hst
      exact hsame rfl (fun _ => rfl) (by rintro _ ⟨⟩)
    | some mem =>
      cases hst
      refine hsame rfl (fun hn => ?_) (by rintro _ ⟨⟩)
      -- the new queue has no worker
      have hne : n ≠ s.nextWq := (hi.created n hn).ne
      exact congrArg Wq.futex (Function.update_of_ne hne _ _)
  | create r =>
    have habs := (hi.absent a r (by rw [hp]; rfl)).2
    rw [hp] at hst
    cases hst
    by_cases hr : n = r
    · subst hr
      exact ⟨fun _ => .inr (Function.update_self ..),fun hn => absurd habs hn⟩
    · have hw : Function.update s.worker r .test n = s.worker n := Function.update_of_ne hr _ _
      exact ⟨fun hn => .inl (by rw [← hw]; exact hn),
        fun _ => ⟨hw,.inl ⟨rfl,by rintro ⟨⟩⟩⟩⟩
  | store r =>
    rw [hp] at hst
    cases hst
    refine ⟨.inl,fun _ => ⟨rfl,?_⟩⟩
    by_cases hr : n = r
    · subst hr
      exact .inr ⟨rfl,Function.update_self ..,congrArg Wq.futex (Function.update_self n _ s.wq)⟩
    · exact .inl ⟨congrArg Wq.futex (Function.update_of_ne hr _ _),
        fun he => hr (Pc.store.inj he).symm⟩
  | _ =>
    rw [hp] at hst hsame
    cases hst
    exact hsame rfl (fun _ => rfl) (by rintro _ ⟨⟩)

theorem workerGo_word {ι W : Type} [DecidableEq W] {s s' : State ι W} {q : ℕ} {p : WorkerPc W}
    (hst : Workqueue.workerGo s q p = some s') :
    (∃ x, s'.worker = Function.update s.worker q x) ∧ p ≠ .absent ∧
      ∀ n, (s'.wq n).futex = (s.wq n).futex := by
  cases p with
  | absent | exited => cases hst
  | pop =>
    obtain ⟨_,rfl⟩ | ⟨w,_,rfl⟩ := pop_spec hst
    · exact ⟨⟨_,rfl⟩,(by rintro ⟨⟩),fun _ => rfl⟩
    · exact ⟨⟨_,rfl⟩,(by rintro ⟨⟩),update_futex rfl (by rfl)⟩
  | lock =>
    obtain ⟨_,rfl⟩ := guarded_eq_some.mp hst
    exact ⟨⟨_,rfl⟩,(by rintro ⟨⟩),update_futex rfl (by rfl)⟩
  | wait | run w =>
    obtain ⟨_,rfl⟩ := guarded_eq_some.mp hst
    exact ⟨⟨_,rfl⟩,(by rintro ⟨⟩),fun _ => rfl⟩
  | unlock w =>
    cases hst
    exact ⟨⟨_,rfl⟩,(by rintro ⟨⟩),update_futex rfl (by rfl)⟩
  | test | call w =>
    cases hst
    exact ⟨⟨_,rfl⟩,(by rintro ⟨⟩),fun _ => rfl⟩

theorem joinGo_word {p : JoinPc W} (h : joinGo s p = some s') :
    s'.worker = s.worker ∧ ∀ n, (s'.wq n).futex = (s.wq n).futex := by
  cases p with
  | idle | done => cases h
  | settle | lockPool | settleWq | join =>
    obtain ⟨_,rfl⟩ := guarded_eq_some.mp h
    exact ⟨rfl,fun _ => rfl⟩
  | lock =>
    obtain ⟨_,rfl⟩ := guarded_eq_some.mp h
    exact ⟨rfl,update_futex rfl (by rfl)⟩
  | walk | freeWalk =>
    obtain ⟨_,rfl⟩ | ⟨r,_,rfl⟩ := joinWalk_spec h <;> exact ⟨rfl,fun _ => rfl⟩
  | loop =>
    simp only [joinGo] at h
    split at h
    · cases h
      exact ⟨rfl,fun _ => rfl⟩
    · split at h <;> cases h <;> exact ⟨rfl,fun _ => rfl⟩
  | freeTest =>
    simp only [joinGo] at h
    split at h <;> cases h <;> exact ⟨rfl,fun _ => rfl⟩
  | destroy =>
    obtain ⟨_,⟨_,rfl⟩ | ⟨p,_,rfl⟩⟩ := destroy_spec h <;> exact ⟨rfl,fun _ => rfl⟩
  | clear q n | unlock q n =>
    cases h
    exact ⟨rfl,update_futex rfl (by rfl)⟩
  | _ =>
    cases h
    exact ⟨rfl,fun _ => rfl⟩

theorem step_word {act : Act ι W} {n : ℕ} (hi : PoolInv s qs fs)
    (hst : Workqueue.step s act = some s') (hn : s.worker n ≠ .absent) :
    (act ≠ .work n → s'.worker n = s.worker n) ∧
    ((s'.wq n).futex = (s.wq n).futex ∧ (∀ b, s.pc b = .store n → s'.pc b = .store n) ∨
      ∃ a, s.pc a = .store n ∧ s'.pc a = .wake n ∧ (s'.wq n).futex = 1) := by
  have hpc : ∀ b, act.caller ≠ some b → s.pc b = .store n → s'.pc b = .store n :=
    fun b hb hp => (step_pc hst hb).trans hp
  cases act with
  | call a c =>
    obtain ⟨hm,rfl⟩ := guarded_eq_some.mp hst
    refine ⟨fun _ => rfl,.inl ⟨rfl,fun b hb => hpc b ?_ hb⟩⟩
    rintro ⟨⟩
    rw [(mayCall_pc hm).2] at hb
    cases hb
  | go a mem here =>
    obtain ⟨hw,⟨hf,hp⟩ | ⟨hp,hp',hf⟩⟩ := (go_word hi hst).2 hn
    · refine ⟨fun _ => hw,.inl ⟨hf,fun b hb => hpc b ?_ hb⟩⟩
      rintro ⟨⟩
      exact hp hb
    · exact ⟨fun _ => hw,.inr ⟨a,hp,hp',hf⟩⟩
  | work q =>
    obtain ⟨⟨x,hw⟩,_,hf⟩ := workerGo_word hst
    refine ⟨fun hne => ?_,.inl ⟨hf n,fun b hb => hpc b (by rintro ⟨⟩) hb⟩⟩
    have hnq : n ≠ q := fun he => hne (by rw [he])
    rw [hw,Function.update_of_ne hnq]
  | exit =>
    obtain ⟨_,rfl⟩ := guarded_eq_some.mp hst
    exact ⟨fun _ => rfl,.inl ⟨rfl,fun _ => id⟩⟩
  | join =>
    obtain ⟨hw,hf⟩ := joinGo_word hst
    exact ⟨fun _ => by rw [hw],.inl ⟨hf n,fun b hb => hpc b (by rintro ⟨⟩) hb⟩⟩

theorem step_started {act : Act ι W} {n : ℕ} (hi : PoolInv s qs fs)
    (hst : Workqueue.step s act = some s') (hn : s'.worker n ≠ .absent) :
    s.worker n ≠ .absent ∨ ∃ a, s'.pc a = .store n := by
  cases act with
  | call a c =>
    obtain ⟨_,rfl⟩ := guarded_eq_some.mp hst
    exact .inl hn
  | go a mem here => exact ((go_word hi hst).1 hn).imp_right fun h => ⟨a,h⟩
  | work q =>
    obtain ⟨⟨x,hw⟩,hq,_⟩ := workerGo_word hst
    by_cases hnq : n = q
    · rw [hnq]
      exact .inl hq
    · rw [hw,Function.update_of_ne hnq] at hn
      exact .inl hn
  | exit =>
    obtain ⟨_,rfl⟩ := guarded_eq_some.mp hst
    exact .inl hn
  | join =>
    rw [(joinGo_word hst).1] at hn
    exact .inl hn

theorem Woken.step {act : Act ι W} (h : Woken s) (hi : PoolInv s qs fs)
    (hst : Workqueue.step s act = some s') : Woken s' := by
  intro n hn
  obtain hold | hnew := step_started hi hst hn
  · obtain ⟨hf,hp⟩ | ⟨_,_,_,hf⟩ := (step_word hi hst hold).2
    · rw [hf]
      exact (h n hold).imp_right fun ⟨b,hb⟩ => ⟨b,hp b hb⟩
    · exact .inl hf
  · exact .inr hnew

theorem woken (h : Reach step Anything (init ι W) s) : Woken s := by
  have hi : ∃ qs fs, PoolInv s qs fs ∧ Woken s := by
    refine h.invariant (I:=fun s => ∃ qs fs, PoolInv s qs fs ∧ Woken s)
      ⟨_,_,.init,fun _ hq => absurd rfl hq⟩ fun s act s' hi _ hst => ?_
    obtain ⟨qs,fs,hi,hw⟩ := hi
    exact ⟨_,_,hi.step hst,hw.step hi hst⟩
  obtain ⟨_,_,_,hw⟩ := hi
  exact hw

/-- The word of a resting queue is 1, whatever is in the queue. -/
theorem tellsEmptiness_iff (h : Reach step Anything (init ι W) s) (hq : Resting s q) :
    TellsEmptiness s q ↔ ListHead.empty s.links (.works q) = false := by
  have hone : (s.wq q).futex = 1 := by
    refine (woken h q (by rw [hq.worker]; rintro ⟨⟩)).resolve_right ?_
    rintro ⟨a,ha⟩
    refine hq.callers a ?_
    rw [ha]
    exact rfl
  rw [TellsEmptiness,hone]
  cases ListHead.empty s.links (.works q) <;> simp

end Word

def onceAround : List (Act Unit Unit) :=
  oneCall ++ List.replicate 2 (.go (.outside ()) none 0) ++ List.replicate 10 (.work 0)

def addedAgain : List (Act Unit Unit) :=
  onceAround ++ .call (.outside ()) ⟨.global,0,()⟩::
    List.replicate 10 (.go (.outside ()) none 0)

theorem resting_of_exec {as : List (Act Unit Unit)} {s : State Unit Unit}
    (h : exec step (init Unit Unit) as = some s)
    (hcaller : ∀ act ∈ as, act.caller = none ∨ act.caller = some (.outside ()))
    (hp : s.pc (.outside ()) = .idle) (hw : s.worker 0 = .wait)
    (hact : active (s.wq 0).activedCpu = true) (hl : (s.wq 0).lock = none) : Resting s 0 where
  worker := hw
  active := hact
  lock := hl
  callers a := by
    rw [exec_idle h hcaller hp a]
    exact id

theorem tellsEmptiness_fails : ¬ ∀ s : State Unit Unit,
    Reach step Anything (init Unit Unit) s → ∀ q, Resting s q → TellsEmptiness s q := by
  intro h
  have hs : (exec step (init Unit Unit) onceAround).map (fun s => (s.pc (.outside ()),s.worker 0,
      active (s.wq 0).activedCpu,decide ((s.wq 0).lock = none),(s.wq 0).futex,
      ListHead.empty s.links (.works 0))) = some (.idle,.wait,true,true,1,true) := by decide
  obtain ⟨s,hs,hp⟩ := Option.map_eq_some_iff.mp hs
  simp only [Prod.mk.injEq,decide_eq_true_eq] at hp
  obtain ⟨hpc,hw,hact,hl,hf,he⟩ := hp
  have htell := h s (reach_of_exec hs) 0 (resting_of_exec hs (by decide) hpc hw hact hl)
  rw [TellsEmptiness,hf,he] at htell
  exact absurd htell (by decide)

theorem tellsEmptiness_addedAgain : ∃ s : State Unit Unit,
    Reach step Anything (init Unit Unit) s ∧ Resting s 0 ∧ TellsEmptiness s 0 := by
  have hs : (exec step (init Unit Unit) addedAgain).map (fun s => (s.pc (.outside ()),s.worker 0,
      active (s.wq 0).activedCpu,decide ((s.wq 0).lock = none),
      ListHead.empty s.links (.works 0))) = some (.idle,.wait,true,true,false) := by decide
  obtain ⟨s,hs,hp⟩ := Option.map_eq_some_iff.mp hs
  simp only [Prod.mk.injEq,decide_eq_true_eq] at hp
  obtain ⟨hpc,hw,hact,hl,he⟩ := hp
  have hr := reach_of_exec hs
  have hrest := resting_of_exec hs (by decide) hpc hw hact hl
  exact ⟨s,hr,hrest,(tellsEmptiness_iff hr hrest).mpr he⟩

/-! ## The emulation of `src/futex.c` -/

/-- `FUTEX_WAIT` on the word of a queue, and `FUTEX_WAKE`. -/
inductive FutexOp
  | wait (q : ℕ) | wake
  deriving DecidableEq

/-- Where an actor is in `futex`, `asleep` and `woken` in `pthread_cond_wait`. From
`FUTEX_WAIT` it is `out` again, since the loop around it only tests the word. -/
inductive FutexPc
  | out | lock (op : FutexOp)
  | test (q : ℕ) | asleep (q : ℕ) | woken (q : ℕ)
  | broadcast
  | unlock (op : FutexOp) | returned
  deriving DecidableEq

/-- The workqueues, `mthpc_futex_mutex`, and the place of each actor in `futex`. -/
structure Emulated (ι W : Type) where
  base : State ι W
  mutex : Option (Actor ι)
  futex : Actor ι → FutexPc

/-- A step of the workqueues, one of `futex`, or the return of `pthread_cond_wait` without a
broadcast. -/
inductive EmuAct (ι W : Type)
  | base (act : Act ι W) | futex (a : Actor ι) | spurious (a : Actor ι)

/-- In `mthpc_wq_futex_wake`, after the store. -/
def Pc.inWake {W : Type} : Pc W → Bool
  | .wake _ => true
  | _ => false

section Emulation

variable {ι W : Type} [DecidableEq ι] [DecidableEq W]

namespace Emulated

variable (s : Emulated ι W) (a : Actor ι)

def goto (p : FutexPc) : Emulated ι W := { s with futex := Function.update s.futex a p }

/-- The call of `futex` that the actor makes: a worker if the word of its queue is 0. -/
def due : Option FutexOp :=
  if (s.base.pc a).inWake then some .wake else match a with
    | .worker q =>
      if s.base.worker q = .wait ∧ (s.base.wq q).futex = 0 then some (.wait q) else none
    | _ => none

/-- `pthread_cond_broadcast` on one sleeper. -/
def wakeUp : FutexPc → FutexPc
  | .asleep q => .woken q
  | p => p

/-- The next step in `futex`; no call to the mutex and the condition variable fails. -/
def futexGo : FutexPc → Option (Emulated ι W)
  | .out => (s.due a).map fun op => s.goto a (.lock op)
  | .lock op =>
    guarded (s.mutex = none) ({ s with mutex := some a }.goto a (match op with
      | .wait q => .test q
      | .wake => .broadcast))
  | .test q =>
    some (if (s.base.wq q).futex = 0 then { s with mutex := none }.goto a (.asleep q)
      else s.goto a (.unlock (.wait q)))
  | .asleep _ => none
  | .woken q => guarded (s.mutex = none) ({ s with mutex := some a }.goto a (.test q))
  | .broadcast => some ({ s with futex := fun b => wakeUp (s.futex b) }.goto a (.unlock .wake))
  | .unlock op =>
    some ({ s with mutex := none }.goto a (match op with
      | .wait _ => .out
      | .wake => .returned))
  | .returned => none

def spurious : FutexPc → Option (Emulated ι W)
  | .asleep q => some (s.goto a (.woken q))
  | _ => none

/-- The workqueue code goes on when the actor is not in `futex`. -/
def mayStep : Act ι W → Prop
  | .go a _ _ => (s.base.pc a).inWake = true → s.futex a = .returned
  | .work q => s.base.worker q = .wait → s.futex (.worker q) = .out
  | _ => True

instance : ∀ act, Decidable (s.mayStep act)
  | .go a _ _ => inferInstanceAs (Decidable ((s.base.pc a).inWake = true → s.futex a = .returned))
  | .work q => inferInstanceAs (Decidable (s.base.worker q = .wait → s.futex (.worker q) = .out))
  | .call _ _ | .exit | .join => inferInstanceAs (Decidable True)

/-- `mthpc_wq_futex_wake` has returned. -/
def after : Act ι W → Actor ι → FutexPc
  | .go a _ _ => if s.futex a = .returned then Function.update s.futex a .out else s.futex
  | _ => s.futex

def step : EmuAct ι W → Option (Emulated ι W)
  | .base act =>
    if s.mayStep act then (Workqueue.step s.base act).map fun t => ⟨t,s.mutex,s.after act⟩
    else none
  | .futex a => s.futexGo a (s.futex a)
  | .spurious a => s.spurious a (s.futex a)

def init (ι W : Type) : Emulated ι W := ⟨Workqueue.init ι W,none,fun _ => .out⟩

end Emulated

/-- The store of the word or the broadcast for it is still to come. -/
def Emulated.Owes (s : Emulated ι W) (b : Actor ι) (q : ℕ) : Prop :=
  s.base.pc b = .store q ∨ s.base.pc b = .wake q ∧
    (s.futex b = .out ∨ s.futex b = .lock .wake ∨ s.futex b = .broadcast)

/-- The worker of `q` sleeps, there is work or the queue is inactive, and nobody is to wake it. -/
def Emulated.LostWakeup (s : Emulated ι W) (q : ℕ) : Prop :=
  s.futex (.worker q) = .asleep q ∧
    (ListHead.empty s.base.links (.works q) = false ∨ active (s.base.wq q).activedCpu = false) ∧
    ∀ b, ¬ s.Owes b q

namespace Emulated

variable {s t : Emulated ι W} {a b : Actor ι} {q : ℕ}

theorem spurious_spec {ι W : Type} [DecidableEq ι] {s t : Emulated ι W} {a : Actor ι} {p : FutexPc}
    (h : s.spurious a p = some t) : ∃ q, p = .asleep q ∧ t = s.goto a (.woken q) := by
  cases p with
  | asleep q =>
    cases h
    exact ⟨q,rfl,rfl⟩
  | _ => cases h

theorem due_spec {ι W : Type} [DecidableEq W] {s : Emulated ι W} {a : Actor ι} {op : FutexOp}
    (h : s.due a = some op) :
    op = .wake ∧ (∃ q, s.base.pc a = .wake q) ∨ ∃ q, op = .wait q ∧ a = .worker q ∧
      s.base.worker q = .wait ∧ (s.base.wq q).futex = 0 := by
  unfold due at h
  split at h
  · rename_i hw
    cases h
    refine .inl ⟨rfl,?_⟩
    cases hp : s.base.pc a with
    | wake q => exact ⟨q,rfl⟩
    | _ =>
      rw [hp] at hw
      cases hw
  · cases a with
    | worker q =>
      simp only at h
      split at h
      · rename_i hq
        cases h
        exact .inr ⟨q,rfl,rfl,hq⟩
      · cases h
    | _ => cases h

theorem futexGo_same {p : FutexPc} (h : s.futexGo a p = some t) :
    t.base = s.base ∧ ∀ b, b ≠ a → p ≠ .broadcast ∧ t.futex b = s.futex b ∨
      p = .broadcast ∧ t.futex b = wakeUp (s.futex b) := by
  cases p with
  | out =>
    obtain ⟨op,_,rfl⟩ := Option.map_eq_some_iff.mp h
    exact ⟨rfl,fun b hb => .inl ⟨by rintro ⟨⟩,Function.update_of_ne hb _ _⟩⟩
  | lock op | woken q =>
    obtain ⟨_,rfl⟩ := guarded_eq_some.mp h
    exact ⟨rfl,fun b hb => .inl ⟨by rintro ⟨⟩,Function.update_of_ne hb _ _⟩⟩
  | test q =>
    simp only [futexGo,Option.some.injEq] at h
    split at h <;> subst h <;>
      exact ⟨rfl,fun b hb => .inl ⟨by rintro ⟨⟩,Function.update_of_ne hb _ _⟩⟩
  | broadcast =>
    cases h
    exact ⟨rfl,fun b hb => .inr ⟨rfl,Function.update_of_ne hb _ _⟩⟩
  | unlock op =>
    cases h
    exact ⟨rfl,fun b hb => .inl ⟨by rintro ⟨⟩,Function.update_of_ne hb _ _⟩⟩
  | asleep q | returned => cases h

/-- The emulation makes no step that the system of the workqueues does not make. -/
theorem base_reach
    (h : Reach Emulated.step Anything (.init ι W) s) :
    Reach Workqueue.step Anything (Workqueue.init ι W) s.base := by
  refine h.invariant (I:=fun s => Reach Workqueue.step Anything (Workqueue.init ι W) s.base)
    .refl fun s act t hr _ hst => ?_
  cases act with
  | base act =>
    simp only [Emulated.step] at hst
    split at hst
    · obtain ⟨u,hu,rfl⟩ := Option.map_eq_some_iff.mp hst
      exact hr.tail trivial hu
    · cases hst
  | futex a => rwa [(futexGo_same hst).1]
  | spurious a =>
    obtain ⟨q,_,rfl⟩ := spurious_spec hst
    exact hr

/-- Where an actor stands in the workqueue code while it is in `futex`. -/
def Inside (s : Emulated ι W) (a : Actor ι) : FutexPc → Prop
  | .out => True
  | .lock .wake | .broadcast | .unlock .wake | .returned => ∃ q, s.base.pc a = .wake q
  | .lock (.wait q) | .test q | .asleep q | .woken q | .unlock (.wait q) =>
    a = .worker q ∧ s.base.worker q = .wait

def Broadcasts (s : Emulated ι W) (b : Actor ι) (q : ℕ) : Prop :=
  s.base.pc b = .wake q ∧ (s.futex b = .out ∨ s.futex b = .lock .wake ∨ s.futex b = .broadcast)

/-- A worker sleeps with its word set only while a broadcast is to come. -/
structure EmuInv (s : Emulated ι W) : Prop where
  inside : ∀ a, Inside s a (s.futex a)
  owed : ∀ q, s.futex (.worker q) = .asleep q → (s.base.wq q).futex ≠ 0 → ∃ b, Broadcasts s b q

section

omit [DecidableEq ι] [DecidableEq W]

theorem Inside.of_base {u : Emulated ι W} {p : FutexPc} (h : Inside s a p)
    (hu : u.base = s.base) : Inside u a p := by
  cases p with
  | lock op | unlock op => cases op <;> simpa only [Inside,hu] using h
  | out => trivial
  | _ => simpa only [Inside,hu] using h

theorem Inside.wakeUp {p : FutexPc} (h : Inside s a p) : Inside s a (wakeUp p) := by
  cases p <;> exact h

theorem not_waiting (hb : LockInv s.base) (hp : s.base.pc a ≠ .idle) :
    ¬ (a = .worker q ∧ s.base.worker q = .wait) := by
  rintro ⟨rfl,hw⟩
  have hr := hb.busy q hp
  rw [hw] at hr
  cases hr

end

theorem Inside.out {ι W : Type} {s : Emulated ι W} {a : Actor ι} {p : FutexPc} (h : Inside s a p)
    (hb : LockInv s.base) (hp : s.base.pc a ≠ .idle)
    (hw : ∀ q, s.base.pc a ≠ .wake q) : p = .out := by
  have hwake : ¬ ∃ q, s.base.pc a = .wake q := fun ⟨q,hq⟩ => hw q hq
  cases p with
  | out => rfl
  | broadcast | returned => exact absurd h hwake
  | lock op | unlock op =>
    cases op with
    | wake => exact absurd h hwake
    | wait q => exact absurd h (not_waiting hb hp)
  | test q | asleep q | woken q => exact absurd h (not_waiting hb hp)

theorem after_spec {ι W : Type} [DecidableEq ι] {s : Emulated ι W} (act : Act ι W) (b : Actor ι) :
    s.after act b = s.futex b ∨
    s.after act b = .out ∧ s.futex b = .returned ∧ act.caller = some b := by
  cases act with
  | go a mem here =>
    simp only [after]
    split
    · rename_i hr
      by_cases hba : b = a
      · subst hba
        exact .inr ⟨Function.update_self ..,hr,rfl⟩
      · exact .inl (Function.update_of_ne hba _ _)
    · exact .inl rfl
  | _ => exact .inl rfl

/-- The workqueue code moves an actor in `FUTEX_WAKE` only after its return, and an actor in
`FUTEX_WAIT` not at all. -/
theorem inside_base {act : Act ι W} {u : State ι W} {qs : Wp → List ℕ} {fs : List ℕ}
    (hi : PoolInv s.base qs fs) (hb : LockInv s.base) (hm : s.mayStep act)
    (hst : Workqueue.step s.base act = some u) {p : FutexPc} (hp : s.futex a = p)
    (h : Inside s a p) : s.after act a = .out ∨
      act.caller ≠ some a ∧ Inside ⟨u,s.mutex,s.after act⟩ a p := by
  have hwake : (∃ q, s.base.pc a = .wake q) → s.after act a = .out ∨
      act.caller ≠ some a ∧ ∃ q, u.pc a = .wake q := by
    rintro ⟨q,hq⟩
    by_cases hc : act.caller = some a
    · cases act with
      | call b c =>
        cases hc
        obtain ⟨hcall,-⟩ := guarded_eq_some.mp hst
        rw [(mayCall_pc hcall).2] at hq
        cases hq
      | go b mem here =>
        cases hc
        have hr : s.futex a = .returned := hm (by rw [hq]; rfl)
        rw [after,if_pos hr,Function.update_self]
        exact .inl rfl
      | _ => cases hc
    · exact .inr ⟨hc,q,(step_pc hst hc).trans hq⟩
  have hwait : ∀ q, p ≠ .out → a = .worker q ∧ s.base.worker q = .wait →
      act.caller ≠ some a ∧ a = .worker q ∧ u.worker q = .wait := by
    rintro q hout ⟨rfl,hw⟩
    have hidle : s.base.pc (.worker q) = .idle := by
      by_contra hn
      exact not_waiting hb hn ⟨rfl,hw⟩
    have hc : act.caller ≠ some (.worker q) := by
      intro hc
      cases act with
      | call b c =>
        cases hc
        obtain ⟨hcall,-⟩ := guarded_eq_some.mp hst
        have hr := hcall.2
        rw [hw] at hr
        cases hr
      | go b mem here =>
        cases hc
        rw [Workqueue.step,hidle] at hst
        cases hst
      | _ => cases hc
    refine ⟨hc,rfl,?_⟩
    rw [(step_word hi hst (by rw [hw]; rintro ⟨⟩)).1]
    · exact hw
    · rintro rfl
      exact hout (hp.symm.trans (hm hw))
  cases p with
  | out =>
    obtain he | ⟨he,-⟩ := after_spec (s:=s) act a
    · exact .inl (he.trans hp)
    · exact .inl he
  | broadcast | returned => exact hwake h
  | lock op | unlock op =>
    cases op with
    | wake => exact hwake h
    | wait q => exact .inr (hwait q (by rintro ⟨⟩) h)
  | test q | asleep q | woken q => exact .inr (hwait q (by rintro ⟨⟩) h)

theorem EmuInv.base {act : Act ι W} {qs : Wp → List ℕ} {fs : List ℕ} (h : EmuInv s)
    (hi : PoolInv s.base qs fs) (hb : LockInv s.base)
    (hst : Emulated.step s (.base act) = some t) : EmuInv t := by
  simp only [Emulated.step] at hst
  split at hst
  · rename_i hm
    obtain ⟨u,hu,rfl⟩ := Option.map_eq_some_iff.mp hst
    have hafter : ∀ b, act.caller ≠ some b → s.after act b = s.futex b := fun b hc =>
      (after_spec act b).resolve_right fun he => hc he.2.2
    refine ⟨fun a => ?_,fun q hq hf => ?_⟩
    · obtain ho | ⟨hc,hin⟩ := inside_base hi hb hm hu rfl (h.inside a)
      · dsimp only
        rw [ho]
        trivial
      · dsimp only
        rw [hafter a hc]
        exact hin
    · dsimp only at hq hf
      have hold : s.futex (.worker q) = .asleep q := by
        obtain he | ⟨he,-,-⟩ := after_spec (s:=s) act (.worker q)
        · exact he.symm.trans hq
        · rw [he] at hq
          cases hq
      have hw : s.base.worker q = .wait := by
        have hin := h.inside (.worker q)
        rw [hold] at hin
        exact hin.2
      obtain ⟨hf',-⟩ | ⟨a,ha,ha',-⟩ := (step_word hi hu (by rw [hw]; rintro ⟨⟩)).2
      · rw [hf'] at hf
        obtain ⟨b,hpc,hfut⟩ := h.owed q hold hf
        have hc : act.caller ≠ some b := by
          intro hc
          cases act with
          | call c' c =>
            cases hc
            obtain ⟨hcall,-⟩ := guarded_eq_some.mp hu
            rw [(mayCall_pc hcall).2] at hpc
            cases hpc
          | go c' mem here =>
            cases hc
            have hr : s.futex b = .returned := hm (by rw [hpc]; rfl)
            rw [hr] at hfut
            simp at hfut
          | _ => cases hc
        exact ⟨b,(step_pc hu hc).trans hpc,by dsimp only; rw [hafter b hc]; exact hfut⟩
      · -- the call that has stored the word goes on to its broadcast
        have hout : s.futex a = .out :=
          (h.inside a).out hb (by rw [ha]; rintro ⟨⟩) fun r => by rw [ha]; rintro ⟨⟩
        refine ⟨a,ha',.inl ?_⟩
        obtain he | ⟨he,-⟩ := after_spec (s:=s) act a
        · exact he.trans hout
        · exact he
  · cases hst

theorem futexGo_place {p : FutexPc} (hb : LockInv s.base) (hin : Inside s a p)
    (hst : s.futexGo a p = some t) : Inside t a (t.futex a) ∧
      (∀ q, t.futex a = .asleep q → (s.base.wq q).futex = 0) ∧
      (∀ q, s.base.pc a = .wake q → p = .out ∨ p = .lock .wake →
        t.futex a = .lock .wake ∨ t.futex a = .broadcast) := by
  have hself : ∀ {m : Option (Actor ι)} {f : Actor ι → FutexPc} {x : FutexPc}, Inside s a x →
      Inside ⟨s.base,m,Function.update f a x⟩ a (Function.update f a x a) := fun hx => by
    rw [Function.update_self]
    exact hx.of_base rfl
  cases p with
  | out =>
    obtain ⟨op,hop,rfl⟩ := Option.map_eq_some_iff.mp hst
    obtain ⟨rfl,r,hr⟩ | ⟨r,rfl,ha,hw,_⟩ := due_spec hop
    · exact ⟨hself ⟨r,hr⟩,fun q hq => by simp [goto] at hq,fun q _ _ => by simp [goto]⟩
    · refine ⟨hself ⟨ha,hw⟩,fun q hq => by simp [goto] at hq,fun q hq _ => ?_⟩
      exact absurd ⟨ha,hw⟩ (not_waiting hb (by rw [hq]; rintro ⟨⟩))
  | lock op =>
    obtain ⟨_,rfl⟩ := guarded_eq_some.mp hst
    cases op with
    | wait r => exact ⟨hself hin,fun q hq => by simp [goto] at hq,fun q _ hp => by simp at hp⟩
    | wake => exact ⟨hself hin,fun q hq => by simp [goto] at hq,fun q _ _ => by simp [goto]⟩
  | test r =>
    simp only [futexGo,Option.some.injEq] at hst
    split at hst
    · rename_i hz
      subst hst
      refine ⟨hself hin,fun q hq => ?_,fun q _ hp => by simp at hp⟩
      simp only [goto,Function.update_self,FutexPc.asleep.injEq] at hq
      rw [← hq]
      exact hz
    · subst hst
      exact ⟨hself hin,fun q hq => by simp [goto] at hq,fun q _ hp => by simp at hp⟩
  | woken r =>
    obtain ⟨_,rfl⟩ := guarded_eq_some.mp hst
    exact ⟨hself hin,fun q hq => by simp [goto] at hq,fun q _ hp => by simp at hp⟩
  | broadcast =>
    cases hst
    exact ⟨hself hin,fun q hq => by simp [goto] at hq,fun q _ hp => by simp at hp⟩
  | unlock op =>
    cases hst
    cases op with
    | wait r =>
      exact ⟨hself (x:=.out) trivial,fun q hq => by simp [goto] at hq,fun q _ hp => by simp at hp⟩
    | wake => exact ⟨hself hin,fun q hq => by simp [goto] at hq,fun q _ hp => by simp at hp⟩
  | asleep r | returned => cases hst

theorem EmuInv.futex (h : EmuInv s) (hb : LockInv s.base)
    (hst : s.futexGo a (s.futex a) = some t) : EmuInv t := by
  obtain ⟨hbase,hother⟩ := futexGo_same hst
  obtain ⟨hin,hsleep,hgo⟩ := futexGo_place hb (h.inside a) hst
  refine ⟨fun b => ?_,fun q hq hf => ?_⟩
  · by_cases hba : b = a
    · rw [hba]
      exact hin
    · obtain ⟨_,he⟩ | ⟨_,he⟩ := hother b hba
      · rw [he]
        exact (h.inside b).of_base hbase
      · rw [he]
        exact (h.inside b).wakeUp.of_base hbase
  · rw [hbase] at hf
    have hne : .worker q ≠ a := by
      rintro rfl
      exact hf (hsleep q hq)
    obtain ⟨hnb,he⟩ | ⟨_,he⟩ := hother _ hne
    · rw [he] at hq
      obtain ⟨b,hpc,hfut⟩ := h.owed q hq hf
      refine ⟨b,by rw [hbase]; exact hpc,?_⟩
      by_cases hba : b = a
      · subst hba
        obtain ho | hl | hbc := hfut
        · exact .inr (hgo q hpc (.inl ho))
        · exact .inr (hgo q hpc (.inr hl))
        · exact absurd hbc hnb
      · obtain ⟨_,he'⟩ | ⟨hbc,_⟩ := hother b hba
        · rw [he']
          exact hfut
        · exact absurd hbc hnb
    · -- a broadcast leaves nobody asleep
      rw [he] at hq
      cases hw : s.futex (.worker q) <;> rw [hw] at hq <;> cases hq

theorem EmuInv.spurious {ι W : Type} [DecidableEq ι] {s t : Emulated ι W} {a : Actor ι}
    (h : EmuInv s) (hst : s.spurious a (s.futex a) = some t) : EmuInv t := by
  obtain ⟨r,hr,rfl⟩ := spurious_spec hst
  have hin := h.inside a
  rw [hr] at hin
  refine ⟨fun b => ?_,fun q hq hf => ?_⟩
  · simp only [goto]
    by_cases hba : b = a
    · subst hba
      rw [Function.update_self]
      exact hin
    · rw [Function.update_of_ne hba]
      exact (h.inside b).of_base rfl
  · have hne : .worker q ≠ a := by
      rintro rfl
      simp [goto] at hq
    simp only [goto,Function.update_of_ne hne] at hq
    obtain ⟨b,hpc,hfut⟩ := h.owed q hq hf
    have hba : b ≠ a := by
      rintro rfl
      rw [hr] at hfut
      simp at hfut
    refine ⟨b,hpc,?_⟩
    simp only [goto,Function.update_of_ne hba]
    exact hfut

theorem EmuInv.init {ι W : Type} : EmuInv (.init ι W) where
  inside _ := trivial
  owed _ h := by cases h

theorem owes_of_asleep (h : Reach Emulated.step Anything (.init ι W) s)
    (hq : s.futex (.worker q) = .asleep q) : ∃ b, s.Owes b q := by
  have hi : EmuInv s ∧ LockInv s.base ∧ ∃ qs fs, PoolInv s.base qs fs := by
    refine h.invariant (I:=fun s => EmuInv s ∧ LockInv s.base ∧ ∃ qs fs, PoolInv s.base qs fs)
      ⟨.init,.init,_,_,.init⟩ fun s act t hi _ hst => ?_
    obtain ⟨he,hb,qs,fs,hp⟩ := hi
    cases act with
    | base act =>
      refine ⟨he.base hp hb hst,?_⟩
      simp only [Emulated.step] at hst
      split at hst
      · obtain ⟨u,hu,rfl⟩ := Option.map_eq_some_iff.mp hst
        exact ⟨hb.step hp hu,_,_,hp.step hu⟩
      · cases hst
    | futex a =>
      rw [(futexGo_same hst).1]
      exact ⟨he.futex hb hst,hb,_,_,hp⟩
    | spurious a =>
      refine ⟨he.spurious hst,?_⟩
      obtain ⟨_,_,rfl⟩ := spurious_spec hst
      exact ⟨hb,_,_,hp⟩
  obtain ⟨he,_⟩ := hi
  have hw : s.base.worker q = .wait := by
    have hin := he.inside (.worker q)
    rw [hq] at hin
    exact hin.2
  by_cases hf : (s.base.wq q).futex = 0
  · obtain h1 | ⟨a,ha⟩ := woken (base_reach h) q (by rw [hw]; rintro ⟨⟩)
    · rw [hf] at h1
      exact absurd h1 (by decide)
    · exact ⟨a,.inl ha⟩
  · obtain ⟨b,hb⟩ := he.owed q hq hf
    exact ⟨b,.inr hb⟩

/-- No wakeup is lost, in any interleaving of callers, workers and the join. -/
theorem noLostWakeup (h : Reach Emulated.step Anything (.init ι W) s) (q : ℕ) :
    ¬ s.LostWakeup q := by
  rintro ⟨hq,_,hnone⟩
  obtain ⟨b,hb⟩ := owes_of_asleep h hq
  exact hnone b hb

end Emulated

end Emulation

/-- The worker sleeps before its maker stores the word, and a second call adds a work. -/
def sleepFirst : List (EmuAct Bool Bool) :=
  (.call (.outside false) ⟨.global,0,false⟩::
    List.replicate 13 (.go (.outside false) (some 0) 0)).map .base ++
  List.replicate 10 (.base (.work 0)) ++ List.replicate 3 (.futex (.worker 0)) ++
  (.call (.outside true) ⟨.global,0,true⟩::
    List.replicate 6 (.go (.outside true) (some 0) 0)).map .base

theorem noLostWakeup_sleepFirst : ∃ s : Emulated Bool Bool,
    Reach Emulated.step Anything (.init Bool Bool) s ∧ s.futex (.worker 0) = .asleep 0 ∧
      ListHead.empty s.base.links (.works 0) = false ∧ ¬ s.LostWakeup 0 := by
  have hs : (exec Emulated.step (.init Bool Bool) sleepFirst).map (fun s =>
      (s.futex (.worker 0),ListHead.empty s.base.links (.works 0))) =
      some (.asleep 0,false) := by decide
  obtain ⟨s,hs,hp⟩ := Option.map_eq_some_iff.mp hs
  obtain ⟨hq,he⟩ := Prod.mk.inj hp
  have hr := reach_of_exec hs
  exact ⟨s,hr,hq,he,Emulated.noLostWakeup hr 0⟩

end Workqueue
end Mthpc
