import Mthpc.ListHead
import Mthpc.StepSystem

/-!
# Workqueues: scheduling, running and joining works

`src/workqueue/workqueue.c`. The parties are the callers of `__mthpc_schedule_work_on`
(outside threads, and the threads of the workqueues from within a work), the worker of each
workqueue and the thread in `mthpc_workqueue_exit`. Each access to a pool, a workqueue or a
work is a step, and so is what a party does to a list and its count while it holds the lock
of the list. The read-side sections are the abstract ones: `readers` are the threads inside a
section, and `mthpc_synchronize_rcu` waits for the ones it found inside. A workqueue is named
by the number of its allocation, so that no name is used twice.
-/
namespace Mthpc
namespace Workqueue

open StepSystem

/-- `int`, `unsigned int` and `int32_t`. -/
abbrev Word := BitVec 32

/-- `mthpc_workpool`, `mthpc_thread_wp` and `mthpc_taskflow_wp`. -/
inductive Wp
  | global | thread | taskflow
  deriving DecidableEq

/-- The list heads: `wp->head`, the `free_list` of the join, and for each workqueue `wq->node`
and `wq->head`; and the nodes of the works. -/
inductive Node (W : Type)
  | null
  | pool (p : Wp)
  | free
  | queue (q : ℕ)
  | works (q : ℕ)
  | work (w : W)
  deriving DecidableEq

/-- Who moves: a thread of the program, the thread of a workqueue, or the one that exits. -/
inductive Actor (ι : Type)
  | outside (t : ι)
  | worker (q : ℕ)
  | joiner
  deriving DecidableEq

def nrCpu : Word := 4

def cpuMask : Word := nrCpu - 1

def activedFlag : Word := nrCpu

/-- `mthpc_wq_get_cpu` and the functions below, on the value of `__actived_cpu`. -/
def getCpu (activedCpu : Word) : Word := activedCpu &&& cpuMask

def setCpu (activedCpu cpu : Word) : Word := activedCpu &&& ~~~cpuMask ||| cpu &&& cpuMask

def active (activedCpu : Word) : Bool := activedCpu &&& activedFlag ≠ 0

def mkactive (activedCpu : Word) : Word := activedCpu ||| activedFlag

def clearActive (activedCpu : Word) : Word := activedCpu &&& ~~~activedFlag

/-- `struct mthpc_workqueue` without its two list heads; `lock` names the holder. -/
structure Wq (ι : Type) where
  activedCpu : Word
  lock : Option (Actor ι)
  futex : Word
  count : Word
  wp : Option Wp

/-- `mthpc_alloc_workqueue` on memory that holds `mem` at `__actived_cpu`. -/
def Wq.alloc {ι : Type} (mem : Word) : Wq ι where
  activedCpu := mkactive mem
  lock := none
  futex := 0
  count := 0
  wp := none

/-- The arguments of `__mthpc_schedule_work_on`. -/
structure Call (W : Type) where
  wp : Wp
  cpu : Word
  work : W
  deriving DecidableEq

/-- `__mthpc_schedule_work_on` and `mthpc_get_workqueue`. In the three steps that lock a
workqueue of the pool and add to it, `pre` is `none` on the fast path and `prealloc` on the
slow one. -/
inductive Pc (W : Type)
  | idle
  | init (c : Call W)
  | enter (c : Call W) | first (c : Call W)
  | walk (c : Call W) (pos : Node W)
  | lock (c : Call W) (pre : Option ℕ) (q : ℕ)
  | add (c : Call W) (pre : Option ℕ) (q : ℕ)
  | unlock (c : Call W) (pre : Option ℕ) (q : ℕ)
  | leave (c : Call W) (wq : Option ℕ)
  | alloc (c : Call W)
  | setCpu (c : Call W) (pre : ℕ) | addPre (c : Call W) (pre : ℕ)
  | lockPool (c : Call W) (pre : ℕ)
  | recheck (c : Call W) (pre : ℕ) (pos : Node W)
  | publish (c : Call W) (pre : ℕ)
  | unlockPool (c : Call W) (pre : Option ℕ) (q : ℕ)
  | create (q : ℕ) | drop (pre q : ℕ)
  | store (q : ℕ) | wake (q : ℕ)
  deriving DecidableEq

/-- `mthpc_worker_run`. -/
inductive WorkerPc (W : Type)
  | absent
  | test | lock | pop
  | unlock (w : Option W)
  | wait
  | call (w : W) | run (w : W)
  | exited
  deriving DecidableEq

/-- In `work->func`. -/
def WorkerPc.running {W : Type} : WorkerPc W → Bool
  | .run _ => true
  | _ => false

/-- `mthpc_workpool_exit` and `mthpc_workqueues_join`; `n` is the next element that the loop
has saved. -/
inductive JoinPc (W : Type)
  | idle
  | sync | settle
  | loop | lockPool
  | walk (curr n : Node W)
  | lock (q : ℕ) (n : Node W) | check (q : ℕ) (n : Node W)
  | unlink (q : ℕ) (n : Node W)
  | syncWq (q : ℕ) (n : Node W) | settleWq (q : ℕ) (n : Node W)
  | keep (q : ℕ) (n : Node W) | clear (q : ℕ) (n : Node W)
  | unlock (q : ℕ) (n : Node W)
  | unlockPool
  | freeTest
  | freeWalk (curr n : Node W)
  | join (q : ℕ) (n : Node W) | free (q : ℕ) (n : Node W) | dec (n : Node W)
  | destroy
  | done
  deriving DecidableEq

/-- The last four fields are ghosts: the works that a call has been given and no worker has
popped, the workqueue in whose list a work is linked, and for each workqueue of a pool the
works added to it and the works whose function its worker has called. -/
structure State (ι W : Type) where
  links : Links (Node W)
  wq : ℕ → Wq ι
  live : ℕ → Bool
  nextWq : ℕ
  lock : Wp → Option (Actor ι)
  count : Wp → Word
  destroyed : Wp → Bool
  /-- `work->wq` -/
  workWq : W → Option ℕ
  readers : Finset (Actor ι)
  awaits : Finset (Actor ι)
  pc : Actor ι → Pc W
  worker : ℕ → WorkerPc W
  join : JoinPc W
  exiting : Wp
  progress : ℕ
  pending : W → Bool
  home : W → Option ℕ
  added : ℕ → List W
  executed : ℕ → List W

/-- `mem` is the memory that `malloc` gives, and `here` the return of `sched_getcpu`. -/
inductive Act (ι W : Type)
  | call (a : Actor ι) (c : Call W)
  | go (a : Actor ι) (mem : Option Word) (here : Word)
  | work (q : ℕ)
  | exit
  | join

section Step

variable {ι W : Type} [DecidableEq ι] [DecidableEq W]

namespace State

def goto (s : State ι W) (a : Actor ι) (p : Pc W) : State ι W :=
  { s with pc := Function.update s.pc a p }

def workerGoto (s : State ι W) (q : ℕ) (p : WorkerPc W) : State ι W :=
  { s with worker := Function.update s.worker q p }

def joinGoto (s : State ι W) (p : JoinPc W) : State ι W := { s with join := p }

def setLinks (s : State ι W) (l : Links (Node W)) : State ι W := { s with links := l }

def setWq (s : State ι W) (q : ℕ) (r : Wq ι) : State ι W :=
  { s with wq := Function.update s.wq q r }

def setLock (s : State ι W) (p : Wp) (h : Option (Actor ι)) : State ι W :=
  { s with lock := Function.update s.lock p h }

/-- `spin_lock(&wq->lock)` and `spin_unlock(&wq->lock)`, by the new holder. -/
def setWqLock (s : State ι W) (q : ℕ) (h : Option (Actor ι)) : State ι W :=
  s.setWq q { s.wq q with lock := h }

/-- `mthpc_wq_get_cpu`. -/
def cpuOf (s : State ι W) (q : ℕ) : Word := getCpu (s.wq q).activedCpu

end State

variable (s : State ι W) (a : Actor ι) (mem : Option Word) (here : Word)

/-- `mthpc_list_add_tail_rcu`, whose writes are those of `mthpc_list_add_tail`. -/
def addTailRcu (l : Links (Node W)) (new head : Node W) : Links (Node W) :=
  ListHead.addBetween l new (l.prev head) head

/-- `mthpc_list_del_rcu`. -/
def delRcu (l : Links (Node W)) (node : Node W) : Links (Node W) :=
  (ListHead.delBetween l (l.prev node) (l.next node)).setPrev node .null

/-- `mthpc_workqueue_add_locked`. -/
def addLocked (q : ℕ) (w : W) : State ι W :=
  { s with
    links := addTailRcu s.links (.work w) (.works q)
    wq := Function.update s.wq q { s.wq q with count := (s.wq q).count + 1 }
    workWq := Function.update s.workWq w (some q)
    home := Function.update s.home w (some q) }

/-- The works of a workqueue that is in a pool count as accepted. -/
def accept (q : ℕ) (w : W) : State ι W :=
  { s with added := Function.update s.added q (s.added q ++ [w]) }

/-- `mthpc_alloc_workqueue`. -/
def allocWorkqueue (mem : Word) : State ι W :=
  { s with
    links := ListHead.init (ListHead.init s.links (.works s.nextWq)) (.queue s.nextWq)
    wq := Function.update s.wq s.nextWq (.alloc mem)
    live := Function.update s.live s.nextWq true
    nextWq := s.nextWq + 1 }

/-- The comparison of the fast path. -/
def onCpu (cpu cpu' : Word) : Prop := cpu = -1 ∨ cpu &&& cpuMask = cpu'

instance (cpu cpu' : Word) : Decidable (onCpu cpu cpu') :=
  inferInstanceAs (Decidable (cpu = -1 ∨ cpu &&& cpuMask = cpu'))

def pickCpu (cpu here : Word) : Word := if cpu = -1 then (here + 1) &&& cpuMask else cpu

def walk (c : Call W) (pos : Node W) : Option (State ι W) :=
  if pos = .pool c.wp then some (s.goto a (.leave c none))
  else match pos with
    | .queue q =>
      if onCpu c.cpu (s.cpuOf q) then some (s.goto a (.lock c none q))
      else some (s.goto a (.walk c (s.links.next pos)))
    | _ => none

def recheck (c : Call W) (pre : ℕ) (pos : Node W) : Option (State ι W) :=
  if pos = .pool c.wp then some (s.goto a (.publish c pre))
  else match pos with
    | .queue q =>
      if c.cpu = s.cpuOf q then some (s.goto a (.lock c (some pre) q))
      else some (s.goto a (.recheck c pre (s.links.next pos)))
    | _ => none

def go : Pc W → Option (State ι W)
  | .idle => none
  | .init c => some ((s.setLinks (ListHead.init s.links (.work c.work))).goto a (.enter c))
  | .enter c => some ({ s with readers := insert a s.readers }.goto a (.first c))
  | .first c => some (s.goto a (.walk c (s.links.next (.pool c.wp))))
  | .walk c pos => walk s a c pos
  | .lock c pre q =>
    guarded ((s.wq q).lock = none) ((s.setWqLock q (some a)).goto a (.add c pre q))
  | .add c pre q => some ((accept (addLocked s q c.work) q c.work).goto a (.unlock c pre q))
  | .unlock c none q => some ((s.setWqLock q none).goto a (.leave c (some q)))
  | .unlock c (some pre) q => some ((s.setWqLock q none).goto a (.unlockPool c (some pre) q))
  | .leave c wq =>
    some ({ s with
      readers := s.readers.erase a
      awaits := s.awaits.erase a }.goto a (wq.elim (.alloc c) .store))
  | .alloc c => match mem with
    | none =>
      some ({ s with pending := Function.update s.pending c.work false }.goto a .idle)
    | some mem => some ((allocWorkqueue s mem).goto a (.setCpu c s.nextWq))
  | .setCpu c pre =>
    let cpu := pickCpu c.cpu here
    some ((s.setWq pre { s.wq pre with
      activedCpu := setCpu (s.wq pre).activedCpu cpu
      wp := some c.wp }).goto a (.addPre { c with cpu := cpu } pre))
  | .addPre c pre => some ((addLocked s pre c.work).goto a (.lockPool c pre))
  -- `spin_lock` of a lock that is destroyed ends in `MTHPC_BUG_ON`
  | .lockPool c pre =>
    guarded (s.lock c.wp = none ∧ s.destroyed c.wp = false)
      ((s.setLock c.wp (some a)).goto a (.recheck c pre (s.links.next (.pool c.wp))))
  | .recheck c pre pos => recheck s a c pre pos
  | .publish c pre =>
    some ((accept { s with
      links := addTailRcu s.links (.queue pre) (.pool c.wp)
      count := Function.update s.count c.wp (s.count c.wp + 1) } pre c.work).goto a
        (.unlockPool c none pre))
  | .unlockPool c pre q =>
    some ((s.setLock c.wp none).goto a (pre.elim (.create q) fun pre => .drop pre q))
  | .create q => some ((s.workerGoto q .test).goto a (.store q))
  | .drop pre q => some ({ s with live := Function.update s.live pre false }.goto a (.store q))
  | .store q => some ((s.setWq q { s.wq q with futex := 1 }).goto a (.wake q))
  | .wake _ => some (s.goto a .idle)

/-- `mthpc_list_del` and the decrement of the count. -/
def takeOut (q : ℕ) (w : W) : State ι W :=
  { s with
    links := ListHead.del s.links (.work w)
    wq := Function.update s.wq q { s.wq q with count := (s.wq q).count - 1 }
    pending := Function.update s.pending w false
    home := Function.update s.home w none }

def pop (q : ℕ) : Node W → Option (State ι W)
  | .work w => some ((takeOut s q w).workerGoto q (.unlock (some w)))
  | _ => none

/-- The next step of the worker of `q`. -/
def workerGo (q : ℕ) : WorkerPc W → Option (State ι W)
  | .absent | .exited => none
  | .test => some (s.workerGoto q (if active (s.wq q).activedCpu then .lock else .exited))
  | .lock =>
    guarded ((s.wq q).lock = none) ((s.setWqLock q (some (.worker q))).workerGoto q .pop)
  | .pop =>
    if ListHead.empty s.links (.works q) then some (s.workerGoto q (.unlock none))
    else pop s q (s.links.next (.works q))
  | .unlock w => some ((s.setWqLock q none).workerGoto q (w.elim .wait .call))
  | .wait => guarded ((s.wq q).futex ≠ 0) (s.workerGoto q .test)
  | .call w =>
    some ({ s with executed := Function.update s.executed q (s.executed q ++ [w]) }.workerGoto q
      (.run w))
  | .run _ => guarded (s.pc (.worker q) = .idle) (s.workerGoto q .test)

/-- The pool whose exit follows that of `p`. -/
def Wp.next : Wp → Option Wp
  | .global => some .thread
  | .thread => some .taskflow
  | .taskflow => none

/-- The place of a pool in `mthpc_workqueue_exit`. -/
def Wp.index : Wp → ℕ
  | .global => 0
  | .thread => 1
  | .taskflow => 2

theorem Wp.index_next {v w : Wp} (h : w.next = some v) : v.index = w.index + 1 := by
  cases w <;> cases h <;> rfl

theorem Wp.index_inj {v w : Wp} (h : v.index = w.index) : v = w := by
  cases v <;> cases w <;> first | rfl | cases h

theorem Wp.index_le {w : Wp} (h : w.next = none) (v : Wp) : v.index ≤ w.index := by
  cases w <;> cases h
  cases v <;> decide

def joinWalk (head : Node W) (fin : State ι W) (body : ℕ → Node W → JoinPc W)
    (curr n : Node W) : Option (State ι W) :=
  if curr = head then some fin
  else match curr with
    | .queue q => some (s.joinGoto (body q n))
    | _ => none

def joinGo : JoinPc W → Option (State ι W)
  | .idle | .done => none
  | .sync => some ({ s with awaits := s.readers }.joinGoto .settle)
  | .settle => guarded (s.awaits = ∅) ({ s with progress := 0 }.joinGoto .loop)
  | .loop =>
    if s.count s.exiting = 0 then some (s.joinGoto .destroy)
    else if 32 ≤ s.progress then some { s with progress := 0 }
    else some ((s.setLinks (ListHead.init s.links .free)).joinGoto .lockPool)
  | .lockPool =>
    let curr := s.links.next (.pool s.exiting)
    guarded (s.lock s.exiting = none)
      ((s.setLock s.exiting (some .joiner)).joinGoto (.walk curr (s.links.next curr)))
  | .walk curr n => joinWalk s (.pool s.exiting) (s.joinGoto .unlockPool) .lock curr n
  | .lock q n =>
    guarded ((s.wq q).lock = none) ((s.setWqLock q (some .joiner)).joinGoto (.check q n))
  | .check q n => some (s.joinGoto (if (s.wq q).count = 0 then .unlink q n else .unlock q n))
  | .unlink q n => some ((s.setLinks (delRcu s.links (.queue q))).joinGoto (.syncWq q n))
  | .syncWq q n => some ({ s with awaits := s.readers }.joinGoto (.settleWq q n))
  | .settleWq q n => guarded (s.awaits = ∅) (s.joinGoto (.keep q n))
  | .keep q n => some ((s.setLinks (ListHead.add s.links (.queue q) .free)).joinGoto (.clear q n))
  | .clear q n =>
    some ((s.setWq q { s.wq q with
      activedCpu := clearActive (s.wq q).activedCpu }).joinGoto (.unlock q n))
  | .unlock q n => some ((s.setWqLock q none).joinGoto (.walk n (s.links.next n)))
  | .unlockPool => some ((s.setLock s.exiting none).joinGoto .freeTest)
  | .freeTest =>
    let curr := s.links.next .free
    if ListHead.empty s.links .free then some ({ s with progress := s.progress + 8 }.joinGoto .loop)
    else some (s.joinGoto (.freeWalk curr (s.links.next curr)))
  | .freeWalk curr n =>
    joinWalk s .free ({ s with progress := s.progress + 1 }.joinGoto .loop) .join curr n
  | .join q n => guarded (s.worker q = .exited) (s.joinGoto (.free q n))
  | .free q n => some ({ s with live := Function.update s.live q false }.joinGoto (.dec n))
  | .dec n =>
    some ({ s with count := Function.update s.count s.exiting (s.count s.exiting - 1) }.joinGoto
      (.freeWalk n (s.links.next n)))
  -- so does `spin_lock_destroy` of one that is held
  | .destroy =>
    let t := { s with destroyed := Function.update s.destroyed s.exiting true }
    guarded (s.lock s.exiting = none)
      (s.exiting.next.elim (t.joinGoto .done) fun p => { t with exiting := p }.joinGoto .sync)

/-- A thread of the program calls when it is not in a call, and the worker of a workqueue from
within a work. -/
def mayCall : Actor ι → Prop
  | .outside t => s.pc (.outside t) = .idle
  | .worker q => s.pc (.worker q) = .idle ∧ (s.worker q).running
  | .joiner => False

instance : ∀ a, Decidable (mayCall s a)
  | .outside t => inferInstanceAs (Decidable (s.pc (.outside t) = .idle))
  | .worker q => inferInstanceAs (Decidable (s.pc (.worker q) = .idle ∧ (s.worker q).running))
  | .joiner => inferInstanceAs (Decidable False)

def step : Act ι W → Option (State ι W)
  | .call a c =>
    guarded (mayCall s a)
      ({ s with pending := Function.update s.pending c.work true }.goto a (.init c))
  | .go a mem here => go s a mem here (s.pc a)
  | .work q => workerGo s q (s.worker q)
  | .exit => guarded (s.join = .idle) ({ s with exiting := .global }.joinGoto .sync)
  | .join => joinGo s s.join

/-- After `mthpc_workqueue_init`. -/
def init (ι W : Type) : State ι W where
  links := {
    next n := match n with
      | .pool p => .pool p
      | _ => .null
    prev n := match n with
      | .pool p => .pool p
      | _ => .null }
  wq _ := .alloc 0
  live _ := false
  nextWq := 0
  lock _ := none
  count _ := 0
  destroyed _ := false
  workWq _ := none
  readers := ∅
  awaits := ∅
  pc _ := .idle
  worker _ := .absent
  join := .idle
  exiting := .global
  progress := 0
  pending _ := false
  home _ := none
  added _ := []
  executed _ := []

variable {s a mem here} {s' : State ι W} {c : Call W} {pos : Node W} {pre : ℕ}

theorem walk_spec (h : walk s a c pos = some s') :
    pos = .pool c.wp ∧ s' = s.goto a (.leave c none) ∨ ∃ q, pos = .queue q ∧
      (onCpu c.cpu (s.cpuOf q) ∧ s' = s.goto a (.lock c none q) ∨
        ¬ onCpu c.cpu (s.cpuOf q) ∧ s' = s.goto a (.walk c (s.links.next pos))) := by
  unfold walk at h
  by_cases he : pos = .pool c.wp
  · rw [if_pos he] at h
    cases h
    exact .inl ⟨he,rfl⟩
  · rw [if_neg he] at h
    cases pos with
    | queue q =>
      by_cases hc : onCpu c.cpu (s.cpuOf q)
      · simp only [if_pos hc] at h
        cases h
        exact .inr ⟨q,rfl,.inl ⟨hc,rfl⟩⟩
      · simp only [if_neg hc] at h
        cases h
        exact .inr ⟨q,rfl,.inr ⟨hc,rfl⟩⟩
    | _ => cases h

theorem recheck_spec (h : recheck s a c pre pos = some s') :
    pos = .pool c.wp ∧ s' = s.goto a (.publish c pre) ∨ ∃ q, pos = .queue q ∧
      (c.cpu = s.cpuOf q ∧ s' = s.goto a (.lock c (some pre) q) ∨
        c.cpu ≠ s.cpuOf q ∧ s' = s.goto a (.recheck c pre (s.links.next pos))) := by
  unfold recheck at h
  by_cases he : pos = .pool c.wp
  · rw [if_pos he] at h
    cases h
    exact .inl ⟨he,rfl⟩
  · rw [if_neg he] at h
    cases pos with
    | queue q =>
      by_cases hc : c.cpu = s.cpuOf q
      · simp only [if_pos hc] at h
        cases h
        exact .inr ⟨q,rfl,.inl ⟨hc,rfl⟩⟩
      · simp only [if_neg hc] at h
        cases h
        exact .inr ⟨q,rfl,.inr ⟨hc,rfl⟩⟩
    | _ => cases h

theorem pop_spec {ι W : Type} [DecidableEq W] {s : State ι W} {s' : State ι W} {q : ℕ}
    (h : workerGo s q .pop = some s') :
    ListHead.empty s.links (.works q) = true ∧ s' = s.workerGoto q (.unlock none) ∨
      ∃ w, s.links.next (.works q) = .work w ∧
        s' = (takeOut s q w).workerGoto q (.unlock (some w)) := by
  simp only [workerGo] at h
  by_cases he : ListHead.empty s.links (.works q) = true
  · rw [if_pos he] at h
    cases h
    exact .inl ⟨he,rfl⟩
  · rw [if_neg he] at h
    cases hn : s.links.next (.works q) with
    | work w =>
      rw [hn] at h
      cases h
      exact .inr ⟨w,rfl,rfl⟩
    | _ =>
      rw [hn] at h
      cases h

theorem go_pc {p : Pc W} (h : go s a mem here p = some s') :
    ∃ p', s'.pc = Function.update s.pc a p' := by
  cases p with
  | idle => cases h
  | walk c pos =>
    obtain ⟨_,rfl⟩ | ⟨q,_,⟨_,rfl⟩ | ⟨_,rfl⟩⟩ := walk_spec h <;> exact ⟨_,rfl⟩
  | recheck c pre pos =>
    obtain ⟨_,rfl⟩ | ⟨q,_,⟨_,rfl⟩ | ⟨_,rfl⟩⟩ := recheck_spec h <;> exact ⟨_,rfl⟩
  | lock c pre q | lockPool c pre =>
    obtain ⟨_,rfl⟩ := guarded_eq_some.mp h
    exact ⟨_,rfl⟩
  | unlock c pre q =>
    cases pre <;> cases h <;> exact ⟨_,rfl⟩
  | alloc c =>
    cases mem <;> cases h <;> exact ⟨_,rfl⟩
  | _ =>
    cases h
    exact ⟨_,rfl⟩

theorem workerGo_same {ι W : Type} [DecidableEq W] {s : State ι W} {s' : State ι W} {q : ℕ}
    {p : WorkerPc W} (h : workerGo s q p = some s') :
    s'.pc = s.pc ∧ s'.live = s.live ∧ s'.nextWq = s.nextWq := by
  cases p with
  | absent | exited => cases h
  | pop => obtain ⟨_,rfl⟩ | ⟨w,_,rfl⟩ := pop_spec h <;> exact ⟨rfl,rfl,rfl⟩
  | lock | wait | run =>
    obtain ⟨_,rfl⟩ := guarded_eq_some.mp h
    exact ⟨rfl,rfl,rfl⟩
  | _ =>
    cases h
    exact ⟨rfl,rfl,rfl⟩

theorem joinWalk_spec {ι W : Type} [DecidableEq W] {s : State ι W} {s' : State ι W}
    {head curr n : Node W} {fin : State ι W} {body : ℕ → Node W → JoinPc W}
    (h : joinWalk s head fin body curr n = some s') :
    curr = head ∧ s' = fin ∨ ∃ q, curr = .queue q ∧ s' = s.joinGoto (body q n) := by
  unfold joinWalk at h
  by_cases he : curr = head
  · rw [if_pos he] at h
    cases h
    exact .inl ⟨he,rfl⟩
  · rw [if_neg he] at h
    cases curr with
    | queue q =>
      cases h
      exact .inr ⟨q,rfl,rfl⟩
    | _ => cases h

theorem destroy_spec (h : joinGo s .destroy = some s') :
    s.lock s.exiting = none ∧
      (s.exiting.next = none ∧ s' = { s with
          destroyed := Function.update s.destroyed s.exiting true }.joinGoto .done ∨
        ∃ p, s.exiting.next = some p ∧ s' = { s with
          destroyed := Function.update s.destroyed s.exiting true
          exiting := p }.joinGoto .sync) := by
  obtain ⟨hl,rfl⟩ := guarded_eq_some.mp h
  refine ⟨hl,?_⟩
  cases hn : s.exiting.next with
  | none => exact .inl ⟨rfl,rfl⟩
  | some p => exact .inr ⟨p,rfl,rfl⟩

theorem joinGo_same {p : JoinPc W} (h : joinGo s p = some s') :
    s'.pc = s.pc ∧ s'.nextWq = s.nextWq ∧ ((∀ q n, p ≠ .free q n) → s'.live = s.live) := by
  cases p with
  | idle | done => cases h
  | settle | lockPool | lock | settleWq | join =>
    obtain ⟨_,rfl⟩ := guarded_eq_some.mp h
    exact ⟨rfl,rfl,fun _ => rfl⟩
  | walk | freeWalk =>
    obtain ⟨_,rfl⟩ | ⟨q,_,rfl⟩ := joinWalk_spec h <;> exact ⟨rfl,rfl,fun _ => rfl⟩
  | loop =>
    simp only [joinGo] at h
    split at h
    · cases h
      exact ⟨rfl,rfl,fun _ => rfl⟩
    · split at h <;> cases h <;> exact ⟨rfl,rfl,fun _ => rfl⟩
  | freeTest =>
    simp only [joinGo] at h
    split at h <;> cases h <;> exact ⟨rfl,rfl,fun _ => rfl⟩
  | destroy =>
    obtain ⟨_,⟨_,rfl⟩ | ⟨p,_,rfl⟩⟩ := destroy_spec h <;> exact ⟨rfl,rfl,fun _ => rfl⟩
  | free q n =>
    cases h
    exact ⟨rfl,rfl,fun hf => absurd rfl (hf q n)⟩
  | _ =>
    cases h
    exact ⟨rfl,rfl,fun _ => rfl⟩

def Act.caller : Act ι W → Option (Actor ι)
  | .call a _ | .go a _ _ => some a
  | _ => none

theorem step_pc {act : Act ι W} (h : step s act = some s') (ha : act.caller ≠ some a) :
    s'.pc a = s.pc a := by
  cases act with
  | call b c =>
    obtain ⟨_,rfl⟩ := guarded_eq_some.mp h
    exact Function.update_of_ne (fun he => ha (congrArg some he.symm)) _ _
  | go b mem here =>
    obtain ⟨p,hp⟩ := go_pc h
    rw [hp]
    exact Function.update_of_ne (fun he => ha (congrArg some he.symm)) _ _
  | work q => rw [(workerGo_same h).1]
  | exit =>
    obtain ⟨_,rfl⟩ := guarded_eq_some.mp h
    rfl
  | join => rw [(joinGo_same h).1]

theorem exec_pc {as : List (Act ι W)} (h : exec step s as = some s')
    (ha : ∀ act ∈ as, act.caller ≠ some a) : s'.pc a = s.pc a := by
  induction as generalizing s with
  | nil =>
    cases h
    rfl
  | cons act as ih =>
    obtain ⟨u,hu,ht⟩ := Option.bind_eq_some_iff.mp h
    rw [ih ht fun b hb => ha b (List.mem_cons_of_mem _ hb)]
    exact step_pc hu (ha act List.mem_cons_self)

end Step

end Workqueue
end Mthpc
