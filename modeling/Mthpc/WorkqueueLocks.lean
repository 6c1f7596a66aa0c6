import Mthpc.WorkqueueLifetime

/-!
# Who holds the lock of a workqueue

The lock of a workqueue names the party that is between its `spin_lock` and its `spin_unlock`:
a call that adds, the worker that takes a work out, or the join that looks at the count. A
worker that is in a call is running a work, and holds no lock on its own account.
-/
namespace Mthpc
namespace Workqueue

open StepSystem Links

variable {ι W : Type} [DecidableEq ι] [DecidableEq W]

def Pc.holdsWq : Pc W → Option ℕ
  | .add _ _ q | .unlock _ _ q => some q
  | _ => none

def WorkerPc.locked : WorkerPc W → Bool
  | .pop | .unlock _ => true
  | _ => false

def JoinPc.holdsWq : JoinPc W → Option ℕ
  | .check q _ | .unlink q _ | .syncWq q _ | .settleWq q _ | .keep q _ | .clear q _
  | .unlock q _ => some q
  | _ => none

def State.holdsWq (s : State ι W) : Actor ι → Option ℕ
  | .outside t => (s.pc (.outside t)).holdsWq
  | .worker q => if (s.worker q).locked then some q else (s.pc (.worker q)).holdsWq
  | .joiner => s.join.holdsWq

structure LockInv (s : State ι W) : Prop where
  wq : Held (fun q => (s.wq q).lock) s.holdsWq
  busy : ∀ q, s.pc (.worker q) ≠ .idle → (s.worker q).running = true
  joined : ∀ q, s.join.holdsWq = some q → q < s.nextWq

section Steps

variable {s s' : State ι W} {qs : Wp → List ℕ} {fs : List ℕ} {a b : Actor ι} {p : Pc W} {q : ℕ}
  {act : Act ι W}

theorem holdsWq_eq {ι W : Type} {s : State ι W} {a : Actor ι} (ha : a ≠ .joiner)
    (hrun : ∀ q, a = .worker q → (s.worker q).locked = false) : s.holdsWq a = (s.pc a).holdsWq := by
  cases a with
  | outside t => rfl
  | worker q => simp [State.holdsWq,hrun q rfl]
  | joiner => exact absurd rfl ha

theorem running_not_locked {W : Type} {p : WorkerPc W} (h : p.running = true) :
    p.locked = false := by
  cases p <;> first | rfl | cases h

theorem LockInv.not_locked {ι W : Type} [DecidableEq W] {s : State ι W} {a : Actor ι}
    (h : LockInv s) (hp : s.pc a ≠ .idle) (q : ℕ) (ha : a = .worker q) :
    (s.worker q).locked = false :=
  running_not_locked (h.busy q (ha ▸ hp))

theorem LockInv.holds (h : LockInv s) (hi : PoolInv s qs fs) (hp : s.pc a ≠ .idle) :
    s.holdsWq a = (s.pc a).holdsWq := by
  refine holdsWq_eq ?_ (h.not_locked hp)
  rintro rfl
  exact hp hi.joiner

theorem LockInv.unique {ι W : Type} {s : State ι W} {a b : Actor ι} {q : ℕ} (h : LockInv s)
    (ha : s.holdsWq a = some q) (hb : s.holdsWq b = some q) : a = b := by
  have ha' := (h.wq q a).mpr ha
  rw [(h.wq q b).mpr hb] at ha'
  exact (Option.some.inj ha').symm

theorem LockInv.caller {ι W : Type} [DecidableEq ι] {s s' : State ι W} {a : Actor ι} {p : Pc W}
    (h : LockInv s) (ha : a ≠ .joiner) (hrun : ∀ q, a = .worker q → (s.worker q).running = true)
    (hpc : s'.pc = Function.update s.pc a p)
    (hworker : ∀ q, (s'.worker q).locked = (s.worker q).locked ∧
      ((s.worker q).running = true → (s'.worker q).running = true))
    (hjoin : s'.join = s.join) (hnext : s.nextWq ≤ s'.nextWq)
    (hheld : Held (fun q => (s'.wq q).lock) (Function.update s.holdsWq a p.holdsWq)) :
    LockInv s' where
  wq := by
    have hholds : s'.holdsWq = Function.update s.holdsWq a p.holdsWq := by
      funext b
      by_cases hb : b = a
      · subst hb
        rw [Function.update_self,holdsWq_eq ha fun q hq => ?_,hpc,Function.update_self]
        rw [(hworker q).1]
        exact running_not_locked (hrun q hq)
      · rw [Function.update_of_ne hb]
        cases b with
        | outside t => simp only [State.holdsWq,hpc,Function.update_of_ne hb]
        | worker q => simp only [State.holdsWq,hpc,Function.update_of_ne hb,(hworker q).1]
        | joiner => simp only [State.holdsWq,hjoin]
    rw [hholds]
    exact hheld
  busy q hq := by
    refine (hworker q).2 ?_
    by_cases hqa : a = .worker q
    · exact hrun q hqa
    · rw [hpc,Function.update_of_ne (Ne.symm hqa)] at hq
      exact h.busy q hq
  joined q hq := by
    rw [hjoin] at hq
    exact (h.joined q hq).trans_le hnext

theorem LockInv.same {x : Pc W} (h : LockInv s) (ha : a ≠ .joiner) (hp : s.pc a = x)
    (hx : s.pc a ≠ .idle) (hpc : s'.pc = Function.update s.pc a p) (hworker : s'.worker = s.worker)
    (hjoin : s'.join = s.join) (hnext : s.nextWq ≤ s'.nextWq)
    (hlock : ∀ q, (s'.wq q).lock = (s.wq q).lock) (hholds : p.holdsWq = x.holdsWq) :
    LockInv s' := by
  subst hp
  refine h.caller ha (fun q hq => h.busy q (hq ▸ hx)) hpc (fun q => by rw [hworker]; exact ⟨rfl,id⟩)
    hjoin hnext ?_
  rw [hholds,← holdsWq_eq ha (h.not_locked hx),Function.update_eq_self]
  simp only [hlock]
  exact h.wq

theorem update_lock {ι W : Type} {s : State ι W} {q : ℕ} {r : Wq ι} (hr : r.lock = (s.wq q).lock)
    (n : ℕ) : (Function.update s.wq q r n).lock = (s.wq n).lock := by
  by_cases hn : n = q
  · rw [hn,Function.update_self,hr]
  · rw [Function.update_of_ne hn]

theorem setWqLock_lock {ι W : Type} {s : State ι W} {q : ℕ} (b : Option (Actor ι)) :
    (fun n => ((s.setWqLock q b).wq n).lock) = Function.update (fun n => (s.wq n).lock) q b := by
  funext n
  by_cases hn : n = q
  · subst hn
    simp [State.setWqLock,State.setWq]
  · simp [State.setWqLock,State.setWq,hn]

theorem LockInv.fresh {ι W : Type} [DecidableEq ι] {s : State ι W} {qs : Wp → List ℕ} {fs : List ℕ}
    (h : LockInv s) (hi : PoolInv s qs fs) : (s.wq s.nextWq).lock = none := by
  cases hl : (s.wq s.nextWq).lock with
  | none => rfl
  | some b =>
    exfalso
    have hh : s.holdsWq b = some s.nextWq := (h.wq _ b).mp hl
    have hcall : ∀ b, (s.pc b).holdsWq ≠ some s.nextWq := by
      intro b hb
      have hok := hi.call b
      cases hp : s.pc b with
      | add c pre q | unlock c pre q =>
        rw [hp] at hok hb
        obtain rfl := Option.some.inj hb
        have hlisted : (∃ w, s.nextWq ∈ qs w) ∨ s.nextWq ∈ s.gone fs := by
          cases pre with
          | none => exact hok.2.listed
          | some pre => exact .inl ⟨c.wp,hok.2⟩
        exact lt_irrefl _ (hi.listed_allocated hlisted).1
      | _ =>
        rw [hp] at hb
        cases hb
    cases b with
    | outside t => exact hcall _ hh
    | worker q =>
      by_cases hw : (s.worker q).locked = true
      · simp only [State.holdsWq,hw,if_true,Option.some.injEq] at hh
        subst hh
        exact lt_irrefl _ (hi.created _ fun he => by simp [he,WorkerPc.locked] at hw)
      · simp only [State.holdsWq,hw] at hh
        exact hcall _ hh
    | joiner => exact lt_irrefl _ (h.joined _ hh)

theorem LockInv.go {mem : Option Word} {here : Word} (h : LockInv s) (hi : PoolInv s qs fs)
    (ha : a ≠ .joiner) (hst : Workqueue.go s a mem here (s.pc a) = some s') : LockInv s' := by
  have hx : s.pc a ≠ .idle := fun he => by
    rw [he] at hst
    cases hst
  have hholds := h.holds hi hx
  cases hp : s.pc a with
  | idle =>
    rw [hp] at hst
    cases hst
  | init c | enter c | first c | publish c pre | drop pre q | wake q =>
    rw [hp] at hst
    cases hst
    exact h.same ha hp hx rfl rfl rfl le_rfl (fun _ => rfl) rfl
  | setCpu c pre | addPre c pre | add c pre q | store q =>
    rw [hp] at hst
    cases hst
    exact h.same ha hp hx rfl rfl rfl le_rfl (update_lock rfl) rfl
  | walk c pos =>
    rw [hp] at hst
    obtain ⟨_,rfl⟩ | ⟨q,rfl,⟨_,rfl⟩ | ⟨_,rfl⟩⟩ := walk_spec hst <;>
      exact h.same ha hp hx rfl rfl rfl le_rfl (fun _ => rfl) rfl
  | recheck c pre pos =>
    rw [hp] at hst
    obtain ⟨_,rfl⟩ | ⟨q,rfl,⟨_,rfl⟩ | ⟨_,rfl⟩⟩ := recheck_spec hst <;>
      exact h.same ha hp hx rfl rfl rfl le_rfl (fun _ => rfl) rfl
  | lock c pre q =>
    rw [hp] at hst hholds
    obtain ⟨hl,rfl⟩ := guarded_eq_some.mp hst
    refine h.caller ha (fun q hq => h.busy q (hq ▸ hx)) rfl (fun _ => ⟨rfl,id⟩) rfl le_rfl ?_
    have hheld := h.wq.acquire hl hholds
    rw [← setWqLock_lock] at hheld
    exact hheld
  | unlock c pre q =>
    rw [hp] at hst hholds
    have hheld : Held (fun n => ((s.setWqLock q none).wq n).lock)
        (Function.update s.holdsWq a none) := by
      rw [setWqLock_lock]
      exact h.wq.release hholds
    cases pre <;> cases hst <;>
      exact h.caller ha (fun q hq => h.busy q (hq ▸ hx)) rfl (fun _ => ⟨rfl,id⟩) rfl le_rfl hheld
  | leave c wq =>
    rw [hp] at hst
    cases hst
    cases wq <;> exact h.same ha hp hx rfl rfl rfl le_rfl (fun _ => rfl) rfl
  | alloc c =>
    rw [hp] at hst
    cases mem with
    | none =>
      cases hst
      exact h.same ha hp hx rfl rfl rfl le_rfl (fun _ => rfl) rfl
    | some mem =>
      cases hst
      exact h.same ha hp hx rfl rfl rfl (Nat.le_succ _)
        (update_lock (r:=.alloc mem) (h.fresh hi).symm) rfl
  | lockPool c pre =>
    rw [hp] at hst
    obtain ⟨_,rfl⟩ := guarded_eq_some.mp hst
    exact h.same ha hp hx rfl rfl rfl le_rfl (fun _ => rfl) rfl
  | unlockPool c pre q =>
    rw [hp] at hst
    cases hst
    cases pre <;> exact h.same ha hp hx rfl rfl rfl le_rfl (fun _ => rfl) rfl
  | create q =>
    rw [hp] at hst hholds
    cases hst
    have habsent : s.worker q = .absent := (hi.absent a q (by rw [hp]; rfl)).2
    refine h.caller ha (fun q hq => h.busy q (hq ▸ hx)) rfl (fun r => ?_) rfl le_rfl ?_
    · by_cases hr : r = q
      · subst hr
        simp [State.workerGoto,State.goto,habsent,WorkerPc.locked,WorkerPc.running]
      · simp [State.workerGoto,State.goto,hr]
    · have hn : (Pc.store q : Pc W).holdsWq = s.holdsWq a := hholds.symm
      rw [hn,Function.update_eq_self]
      exact h.wq

theorem LockInv.worker {ι W : Type} [DecidableEq ι] {s s' : State ι W} {q : ℕ} {p : WorkerPc W}
    (h : LockInv s) (hpc : s'.pc = s.pc)
    (hworker : s'.worker = Function.update s.worker q p) (hjoin : s'.join = s.join)
    (hnext : s'.nextWq = s.nextWq) (hbusy : s.pc (.worker q) ≠ .idle → p.running = true)
    (hheld : Held (fun q => (s'.wq q).lock) (Function.update s.holdsWq (.worker q)
      (if p.locked then some q else (s.pc (.worker q)).holdsWq))) : LockInv s' where
  wq := by
    have hholds : s'.holdsWq = Function.update s.holdsWq (.worker q)
        (if p.locked then some q else (s.pc (.worker q)).holdsWq) := by
      funext b
      by_cases hb : b = .worker q
      · subst hb
        rw [Function.update_self]
        simp only [State.holdsWq,hpc,hworker,Function.update_self]
      · rw [Function.update_of_ne hb]
        cases b with
        | outside t => simp only [State.holdsWq,hpc]
        | worker r =>
          have hr : r ≠ q := fun he => hb (he ▸ rfl)
          simp only [State.holdsWq,hpc,hworker,Function.update_of_ne hr]
        | joiner => simp only [State.holdsWq,hjoin]
    rw [hholds]
    exact hheld
  busy r hr := by
    rw [hpc] at hr
    rw [hworker]
    by_cases hrq : r = q
    · subst hrq
      rw [Function.update_self]
      exact hbusy hr
    · rw [Function.update_of_ne hrq]
      exact h.busy r hr
  joined := by
    rw [hjoin,hnext]
    exact h.joined

theorem LockInv.idle {ι W : Type} [DecidableEq W] {s : State ι W} {q : ℕ} (h : LockInv s)
    (hr : (s.worker q).running = false) : s.pc (.worker q) = .idle := by
  by_contra hp
  rw [h.busy q hp] at hr
  cases hr

theorem LockInv.workerGo (h : LockInv s)
    (hst : Workqueue.workerGo s q (s.worker q) = some s') : LockInv s' := by
  have hsame : ∀ p : WorkerPc W, p.locked = (s.worker q).locked →
      Held (fun q => (s.wq q).lock) (Function.update s.holdsWq (.worker q)
        (if p.locked then some q else (s.pc (.worker q)).holdsWq)) := fun p hp => by
    rw [hp]
    show Held _ (Function.update s.holdsWq _ (s.holdsWq (.worker q)))
    rw [Function.update_eq_self]
    exact h.wq
  cases hp : s.worker q with
  | absent | exited =>
    rw [hp] at hst
    cases hst
  | test =>
    rw [hp] at hst
    cases hst
    refine h.worker rfl rfl rfl rfl (fun hi => absurd (h.idle (by rw [hp]; rfl)) hi) ?_
    exact hsame _ (by rw [hp]; split <;> rfl)
  | lock =>
    rw [hp] at hst
    obtain ⟨hl,rfl⟩ := guarded_eq_some.mp hst
    have hi := h.idle (q:=q) (by rw [hp]; rfl)
    refine h.worker rfl rfl rfl rfl (fun hn => absurd hi hn) ?_
    have hn : s.holdsWq (.worker q) = none := by
      simp [State.holdsWq,hp,hi,WorkerPc.locked,Pc.holdsWq]
    have hheld := h.wq.acquire hl hn
    rw [← setWqLock_lock] at hheld
    exact hheld
  | pop =>
    rw [hp] at hst
    have hi := h.idle (q:=q) (by rw [hp]; rfl)
    obtain ⟨_,rfl⟩ | ⟨w,_,rfl⟩ := pop_spec hst
    · exact h.worker rfl rfl rfl rfl (fun hn => absurd hi hn) (hsame _ (by rw [hp]; rfl))
    · refine h.worker rfl rfl rfl rfl (fun hn => absurd hi hn) ?_
      have hlock : ∀ r, (((takeOut s q w).workerGoto q (.unlock (some w))).wq r).lock =
          (s.wq r).lock := update_lock rfl
      simp only [hlock]
      exact hsame _ (by rw [hp]; rfl)
  | unlock w =>
    rw [hp] at hst
    cases hst
    have hi := h.idle (q:=q) (by rw [hp]; rfl)
    refine h.worker rfl rfl rfl rfl (fun hn => absurd hi hn) ?_
    have hs : s.holdsWq (.worker q) = some q := by simp [State.holdsWq,hp,WorkerPc.locked]
    have hheld := h.wq.release hs
    rw [← setWqLock_lock] at hheld
    have hn : (s.pc (.worker q)).holdsWq = none := by
      rw [hi]
      rfl
    have hno : (w.elim WorkerPc.wait WorkerPc.call).locked = false := by cases w <;> rfl
    rw [hno]
    show Held _ (Function.update s.holdsWq (.worker q) (s.pc (.worker q)).holdsWq)
    rw [hn]
    exact hheld
  | wait =>
    rw [hp] at hst
    obtain ⟨_,rfl⟩ := guarded_eq_some.mp hst
    exact h.worker rfl rfl rfl rfl (fun hn => absurd (h.idle (by rw [hp]; rfl)) hn)
      (hsame _ (by rw [hp]; rfl))
  | call w =>
    rw [hp] at hst
    cases hst
    exact h.worker rfl rfl rfl rfl (fun _ => rfl) (hsame _ (by rw [hp]; rfl))
  | run w =>
    rw [hp] at hst
    obtain ⟨hi,rfl⟩ := guarded_eq_some.mp hst
    exact h.worker rfl rfl rfl rfl (fun hn => absurd hi hn) (hsame _ (by rw [hp]; rfl))

theorem LockInv.joinTo {ι W : Type} [DecidableEq ι] {s s' : State ι W} (h : LockInv s)
    (hpc : s'.pc = s.pc) (hworker : s'.worker = s.worker) (hnext : s'.nextWq = s.nextWq)
    (hheld : Held (fun q => (s'.wq q).lock) (Function.update s.holdsWq .joiner s'.join.holdsWq))
    (hjoined : ∀ q, s'.join.holdsWq = some q → q < s.nextWq) : LockInv s' where
  wq := by
    have hholds : s'.holdsWq = Function.update s.holdsWq .joiner s'.join.holdsWq := by
      funext b
      by_cases hb : b = .joiner
      · subst hb
        rw [Function.update_self]
        rfl
      · rw [Function.update_of_ne hb]
        cases b with
        | outside t => simp only [State.holdsWq,hpc]
        | worker r => simp only [State.holdsWq,hpc,hworker]
        | joiner => exact absurd rfl hb
    rw [hholds]
    exact hheld
  busy := by
    rw [hpc,hworker]
    exact h.busy
  joined := by
    rw [hnext]
    exact hjoined

theorem LockInv.joinSame {ι W : Type} [DecidableEq ι] {s s' : State ι W} {x : JoinPc W}
    (h : LockInv s) (hp : s.join = x) (hpc : s'.pc = s.pc)
    (hworker : s'.worker = s.worker) (hnext : s'.nextWq = s.nextWq)
    (hlock : ∀ q, (s'.wq q).lock = (s.wq q).lock) (hjoin : s'.join.holdsWq = x.holdsWq) :
    LockInv s' := by
  subst hp
  refine h.joinTo hpc hworker hnext ?_ fun q hq => h.joined q (hjoin ▸ hq)
  rw [hjoin]
  show Held _ (Function.update s.holdsWq _ (s.holdsWq .joiner))
  rw [Function.update_eq_self]
  simp only [hlock]
  exact h.wq

theorem LockInv.joinGo (h : LockInv s) (hi : PoolInv s qs fs)
    (hst : Workqueue.joinGo s s.join = some s') : LockInv s' := by
  have hj := hi.join
  cases hp : s.join with
  | idle | done =>
    rw [hp] at hst
    cases hst
  | sync | unlink q n | syncWq q n | keep q n | unlockPool | free q n | dec n =>
    rw [hp] at hst
    cases hst
    exact h.joinSame hp rfl rfl rfl (fun _ => rfl) rfl
  | settle | lockPool | settleWq | join =>
    rw [hp] at hst
    obtain ⟨_,rfl⟩ := guarded_eq_some.mp hst
    exact h.joinSame hp rfl rfl rfl (fun _ => rfl) rfl
  | loop =>
    rw [hp] at hst
    simp only [Workqueue.joinGo] at hst
    split at hst
    · cases hst
      exact h.joinSame hp rfl rfl rfl (fun _ => rfl) rfl
    · split at hst <;> cases hst
      · exact h.joinSame hp rfl rfl rfl (fun _ => rfl) (by rw [hp])
      · exact h.joinSame hp rfl rfl rfl (fun _ => rfl) rfl
  | walk curr n | freeWalk curr n =>
    rw [hp] at hst
    obtain ⟨_,rfl⟩ | ⟨q,_,rfl⟩ := joinWalk_spec hst <;>
      exact h.joinSame hp rfl rfl rfl (fun _ => rfl) rfl
  | lock q n =>
    rw [hp] at hst hj
    obtain ⟨hl,rfl⟩ := guarded_eq_some.mp hst
    refine h.joinTo rfl rfl rfl ?_ fun r hr => ?_
    · have hn : s.holdsWq .joiner = none := by
        show s.join.holdsWq = none
        rw [hp]
        rfl
      have hheld := h.wq.acquire hl hn
      rw [← setWqLock_lock] at hheld
      exact hheld
    · cases hr
      exact hi.linked_lt hj.2.1
  | check q n =>
    rw [hp] at hst
    cases hst
    refine h.joinSame hp rfl rfl rfl (fun _ => rfl) ?_
    simp only [State.joinGoto]
    split <;> rfl
  | clear q n =>
    rw [hp] at hst
    cases hst
    exact h.joinSame hp rfl rfl rfl (update_lock rfl) rfl
  | unlock q n =>
    rw [hp] at hst
    cases hst
    refine h.joinTo rfl rfl rfl ?_ (by rintro _ ⟨⟩)
    have hs : s.holdsWq .joiner = some q := by
      show s.join.holdsWq = some q
      rw [hp]
      rfl
    have hheld := h.wq.release hs
    rw [← setWqLock_lock] at hheld
    exact hheld
  | freeTest =>
    rw [hp] at hst
    simp only [Workqueue.joinGo] at hst
    split at hst <;> cases hst <;> exact h.joinSame hp rfl rfl rfl (fun _ => rfl) rfl
  | destroy =>
    rw [hp] at hst
    obtain ⟨_,⟨_,rfl⟩ | ⟨p,_,rfl⟩⟩ := destroy_spec hst <;>
      exact h.joinSame hp rfl rfl rfl (fun _ => rfl) rfl

theorem LockInv.init {ι W : Type} : LockInv (init ι W) where
  wq q a := by
    cases a <;> simp [Workqueue.init,Wq.alloc,
      State.holdsWq,Pc.holdsWq,WorkerPc.locked,JoinPc.holdsWq]
  busy _ hq := absurd rfl hq
  joined _ hj := by cases hj

theorem LockInv.step (h : LockInv s) (hi : PoolInv s qs fs)
    (hst : Workqueue.step s act = some s') : LockInv s' := by
  cases act with
  | call a c =>
    obtain ⟨hm,rfl⟩ := guarded_eq_some.mp hst
    obtain ⟨ha,hp⟩ := mayCall_pc hm
    have hrun : ∀ q, a = .worker q → (s.worker q).running = true := by
      rintro q rfl
      exact hm.2
    refine h.caller ha hrun rfl (fun _ => ⟨rfl,id⟩) rfl le_rfl ?_
    have hn : (Pc.init c).holdsWq = s.holdsWq a := by
      rw [holdsWq_eq ha fun q hq => running_not_locked (hrun q hq),hp]
      rfl
    rw [hn,Function.update_eq_self]
    exact h.wq
  | go a mem here =>
    by_cases ha : a = .joiner
    · subst ha
      rw [Workqueue.step,hi.joiner] at hst
      cases hst
    · exact h.go hi ha hst
  | work q => exact h.workerGo hst
  | exit =>
    obtain ⟨hp,rfl⟩ := guarded_eq_some.mp hst
    exact h.joinSame hp rfl rfl rfl (fun _ => rfl) rfl
  | join => exact h.joinGo hi hst

end Steps

end Workqueue
end Mthpc
