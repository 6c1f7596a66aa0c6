import Mthpc.Address
import Mthpc.Barrier

/-!
# Thread groups: run, asynchronous run, auto-join and wait

`src/thread/thread.c`. The parties are the callers of `__mthpc_thread_run` and
`__mthpc_thread_async_run`, the threads they create, the executions of the work
`mthpc_thread_wq_join` and the callers of `__mthpc_thread_async_wait`. Each operation on
`mthpc_threads_info`, a group or the barrier object is a step; what a party does to
`head` and `nr_group` between its lock and its unlock is one step of its own.
-/
namespace Mthpc
namespace ThreadGroup

open StepSystem

/-- `struct mthpc_thread_group *`. -/
abbrev Group := Address

/-- The thread that call `r` creates for slot `j` of a group. -/
structure Thread (ρ : Type) where
  call : ρ
  group : Group
  slot : ℕ
  deriving DecidableEq

/-- The calls to be made and the fields of the groups that no function changes: which
entry point a call uses and its array of groups, the array of each `async_wait`, and for
each group `nr` and whether `init` and `func` are there. -/
structure Config (ρ ω : Type) where
  groups : ρ → List Group
  isAsync : ρ → Bool
  waits : ω → List Group
  nr : Group → BitVec 32
  init : Group → Bool
  func : Group → Bool

/-- `total_nr_thread`, an `unsigned long`. -/
def Config.total {ρ ω : Type} (cfg : Config ρ ω) (r : ρ) : BitVec 64 :=
  ((cfg.groups r).map fun g => (cfg.nr g).setWidth 64).sum

/-- `__mthpc_thread_worker` and the two start routines around it. -/
inductive WorkerPc (ρ : Type)
  | absent
  | start | init | test | argBarrier | argCount (o : ρ) | call (o : ρ) (n : Barrier.Size)
  | inBarrier (o : ρ)
  | ready | func | exit | exiting | exited
  deriving DecidableEq

/-- `__mthpc_thread_run` and `__mthpc_thread_async_run`; `rest` are the groups the loop
has not come to, and `failed` is the return of a call that got no memory. -/
inductive RunPc
  | idle | begin
  | prepare (rest : List Group)
  | lock (g : Group) (rest : List Group) | add (g : Group) (rest : List Group)
  | unlock (g : Group) (rest : List Group)
  | publish (g : Group) (rest : List Group)
  | create (g : Group) (j : ℕ) (rest : List Group)
  | join (todo : List Group) (j : ℕ)
  | queue | done | failed
  deriving DecidableEq

/-- `mthpc_group_put_barrier_object`. -/
inductive PutPc
  | test | add | free | null
  deriving DecidableEq

/-- `mthpc_thread_wq_join`. -/
inductive JoinPc
  | idle | lock
  | scan (rest : List Group)
  | join (g : Group) (j : ℕ) (rest : List Group)
  | put (g : Group) (p : PutPc) (rest : List Group)
  | unlock (again : Bool) | requeue
  deriving DecidableEq

/-- `__mthpc_thread_async_wait`. -/
inductive WaitPc
  | idle
  | next (rest : List Group)
  | lock (g : Group) (rest : List Group) | del (g : Group) (rest : List Group)
  | unlock (g : Group) (rest : List Group)
  | spin (g : Group) (j : ℕ) (rest : List Group)
  | join (g : Group) (j : ℕ) (rest : List Group)
  | put (g : Group) (p : PutPc) (rest : List Group)
  | done
  deriving DecidableEq

def JoinPc.afterPut (g : Group) (rest : List Group) : Option PutPc → JoinPc
  | some p => .put g p rest
  | none => .scan rest

def WaitPc.afterPut (g : Group) (rest : List Group) : Option PutPc → WaitPc
  | some p => .put g p rest
  | none => .next rest

/-- Who can hold `mthpc_threads_info.lock`. -/
inductive Party (ρ κ ω : Type)
  | runner (r : ρ) | joiner (k : κ) | waiter (w : ω)
  deriving DecidableEq

/-- Ghost: how far a group has come from its run to its reaping. -/
inductive Stage (κ ω : Type)
  | fresh | linked | joining (k : κ) | waited (w : ω) | reaped
  deriving DecidableEq

/-- Calls `ρ`, user barriers `υ`, executions of the join work `κ`, waits `ω`. The barrier of the
object of call `r` is `Sum.inl r`. The last two fields are ghosts: how often a thread was
passed to `pthread_join`, and the stage of each group. -/
structure State (ρ υ κ ω : Type) where
  lock : Option (Party ρ κ ω)
  head : List Group
  nrGroup : BitVec 64
  asyncType : Group → Bool
  barrierObject : Group → Option ρ
  nrExited : Group → BitVec 32
  /-- whose thread the handle `group->thread[j]` names -/
  thread : Group → ℕ → Option ρ
  refcount : ρ → BitVec 64
  freed : ρ → ℕ
  bars : Barrier.State (ρ ⊕ υ) (Thread ρ)
  worker : Thread ρ → WorkerPc ρ
  runner : ρ → RunPc
  joiner : κ → JoinPc
  waiter : ω → WaitPc
  joined : Thread ρ → ℕ
  stage : Group → Stage κ ω

inductive Act (ρ υ κ ω : Type)
  -- the callers of run and async_run
  | runCall (r : ρ) | allocFail (r : ρ) | runBegin (r : ρ)
  | prepare (r : ρ) (g : Group) (rest : List Group) | prepared (r : ρ)
  | runLock (r : ρ) (g : Group) (rest : List Group)
  | addTail (r : ρ) (g : Group) (rest : List Group)
  | runUnlock (r : ρ) (g : Group) (rest : List Group)
  | publish (r : ρ) (g : Group) (rest : List Group)
  | create (r : ρ) (g : Group) (j : ℕ) (rest : List Group)
  | created (r : ρ) (g : Group) (j : ℕ) (rest : List Group)
  | runJoin (r : ρ) (g : Group) (rest : List Group) (j : ℕ) (o : ρ)
  | runJoined (r : ρ) (g : Group) (rest : List Group) (j : ℕ)
  | runReturn (r : ρ) (j : ℕ) | queueWork (r : ρ)
  -- the created threads
  | threadInit (i : Thread ρ) | initReturn (i : Thread ρ) | testObject (i : Thread ρ)
  | argBarrier (i : Thread ρ) (o : ρ) | argCount (i : Thread ρ) (o o' : ρ)
  | callBarrier (i : Thread ρ) (o : ρ) (n : Barrier.Size)
  | barrier (i : Thread ρ) (o : ρ) (a : Barrier.Act (ρ ⊕ υ) (Thread ρ))
  | barrierReturn (i : Thread ρ) (o : ρ) | callFunc (i : Thread ρ)
  | userBarrier (i : Thread ρ) (u : υ) (a : Barrier.Act (ρ ⊕ υ) (Thread ρ))
  | funcReturn (i : Thread ρ)
  | cleanup (i : Thread ρ) | pthreadExit (i : Thread ρ)
  -- the join work
  | joinCall (k : κ) | joinLock (k : κ) | scan (k : κ) (g : Group) (rest : List Group)
  | join (k : κ) (g : Group) (j : ℕ) (rest : List Group) (o : ρ)
  | joinDel (k : κ) (g : Group) (j : ℕ) (rest : List Group)
  | joinPut (k : κ) (g : Group) (p : PutPc) (rest : List Group)
  | scanned (k : κ) | joinUnlock (k : κ) (again : Bool) | requeue (k : κ)
  -- the callers of async_wait
  | waitCall (w : ω) | waitNext (w : ω) (g : Group) (rest : List Group)
  | waitLock (w : ω) (g : Group) (rest : List Group)
  | waitDel (w : ω) (g : Group) (rest : List Group)
  | waitUnlock (w : ω) (g : Group) (rest : List Group)
  | spin (w : ω) (g : Group) (j : ℕ) (rest : List Group)
  | spun (w : ω) (g : Group) (j : ℕ) (rest : List Group)
  | waitJoin (w : ω) (g : Group) (j : ℕ) (rest : List Group) (o : ρ)
  | waitJoined (w : ω) (g : Group) (j : ℕ) (rest : List Group)
  | waitPut (w : ω) (g : Group) (p : PutPc) (rest : List Group)
  | waitReturn (w : ω)

/-- `mthpc_thread_init`: no group has been run. -/
def init (ρ υ κ ω : Type) : State ρ υ κ ω where
  lock := none
  head := []
  nrGroup := 0
  asyncType := fun _ => false
  barrierObject := fun _ => none
  nrExited := fun _ => 0
  thread := fun _ _ => none
  refcount := fun _ => 0
  freed := fun _ => 0
  bars := Barrier.init _ _
  worker := fun _ => .absent
  runner := fun _ => .idle
  joiner := fun _ => .idle
  waiter := fun _ => .idle
  joined := fun _ => 0
  stage := fun _ => .fresh

variable {ρ υ κ ω : Type} [DecidableEq ρ] [DecidableEq υ] [DecidableEq κ] [DecidableEq ω]

/-- One step of `mthpc_group_put_barrier_object(g)`: the state and the rest of the call.
The negation of `group->nr` is taken in `unsigned int` and then widened. -/
def put (cfg : Config ρ ω) (s : State ρ υ κ ω) (g : Group) :
    PutPc → Option (State ρ υ κ ω × Option PutPc)
  | .test => some (s,if (s.barrierObject g).isSome then some .add else none)
  | .add => (s.barrierObject g).map fun o =>
      ({ s with
        refcount := Function.update s.refcount o (s.refcount o+(-cfg.nr g).setWidth 64) },
        if s.refcount o-(cfg.nr g).setWidth 64 = 0 then some .free else some .null)
  | .free => some (match s.barrierObject g with
      | some o => { s with freed := Function.update s.freed o (s.freed o+1) }
      | none => s, some .null)
  | .null => some ({ s with barrierObject := Function.update s.barrierObject g none },none)

theorem put_eq {ρ υ κ ω : Type} [DecidableEq ρ] {cfg : Config ρ ω} {s t : State ρ υ κ ω} {g : Group}
    {p : PutPc} {q : Option PutPc} (h : put cfg s g p = some (t,q)) : ∃ rc fr bo,
      t = { s with refcount := rc, freed := fr, barrierObject := bo } ∧
      (∀ o, s.barrierObject g ≠ some o → rc o = s.refcount o) ∧
      ∀ g', bo g' = s.barrierObject g' ∨ g' = g ∧ bo g' = none := by
  cases p with
  | test =>
    obtain ⟨rfl,-⟩ : s = t ∧ _ := by simpa only [put,Option.some.injEq,Prod.mk.injEq] using h
    exact ⟨_,_,_,rfl,fun _ _ => rfl,fun _ => Or.inl rfl⟩
  | add =>
    obtain ⟨o,ho,he⟩ := Option.map_eq_some_iff.mp h
    obtain rfl := (Prod.mk.inj he).1
    refine ⟨_,_,_,rfl,fun o' ho' => ?_,fun _ => Or.inl rfl⟩
    have hne : o' ≠ o := by
      rintro rfl
      exact ho' ho
    exact Function.update_of_ne hne _ _
  | free =>
    obtain ⟨ht,-⟩ : _ = t ∧ _ := by simpa only [put,Option.some.injEq,Prod.mk.injEq] using h
    split at ht <;> subst ht <;> exact ⟨_,_,_,rfl,fun _ _ => rfl,fun _ => Or.inl rfl⟩
  | null =>
    obtain ⟨rfl,-⟩ : _ = t ∧ _ := by simpa only [put,Option.some.injEq,Prod.mk.injEq] using h
    refine ⟨_,_,_,rfl,fun _ _ => rfl,fun g' => ?_⟩
    by_cases hg : g' = g
    · exact Or.inr ⟨hg,by rw [hg,Function.update_self]⟩
    · exact Or.inl (Function.update_of_ne hg _ _)

/-- One instruction. `pthread_join` waits until the thread named by the handle has exited. -/
def step (cfg : Config ρ ω) (s : State ρ υ κ ω) : Act ρ υ κ ω → Option (State ρ υ κ ω)
  | .runCall r => guarded (s.runner r = .idle)
      { s with runner := Function.update s.runner r .begin }
  -- only the asynchronous call allocates its barrier object
  | .allocFail r => guarded (s.runner r = .begin ∧ cfg.isAsync r = true)
      { s with runner := Function.update s.runner r .failed }
  | .runBegin r => guarded (s.runner r = .begin)
      { s with
        refcount := Function.update s.refcount r (cfg.total r)
        bars := { s.bars with
          bar := Function.update s.bars.bar (.inl r) Barrier.barrierInit }
        runner := Function.update s.runner r (.prepare (cfg.groups r)) }
  | .prepare r g rest => guarded (s.runner r = .prepare (g::rest))
      { s with
        asyncType := if cfg.isAsync r then Function.update s.asyncType g true else s.asyncType
        runner := Function.update s.runner r
          (if cfg.isAsync r then .lock g rest else .publish g rest) }
  | .prepared r => guarded (s.runner r = .prepare [])
      { s with
        runner := Function.update s.runner r
          (if cfg.isAsync r then .queue else .join (cfg.groups r) 0) }
  | .runLock r g rest => guarded (s.runner r = .lock g rest ∧ s.lock = none)
      { s with
        lock := some (.runner r)
        runner := Function.update s.runner r (.add g rest) }
  | .addTail r g rest => guarded (s.runner r = .add g rest)
      { s with
        head := s.head ++ [g]
        nrGroup := s.nrGroup+1
        runner := Function.update s.runner r (.unlock g rest)
        stage := Function.update s.stage g .linked }
  | .runUnlock r g rest => guarded (s.runner r = .unlock g rest)
      { s with lock := none, runner := Function.update s.runner r (.publish g rest) }
  | .publish r g rest => guarded (s.runner r = .publish g rest)
      { s with
        barrierObject := Function.update s.barrierObject g (some r)
        runner := Function.update s.runner r (.create g 0 rest) }
  | .create r g j rest => guarded (s.runner r = .create g j rest ∧ j < (cfg.nr g).toNat)
      { s with
        thread := Function.update s.thread g (Function.update (s.thread g) j (some r))
        worker := Function.update s.worker ⟨r,g,j⟩ .start
        runner := Function.update s.runner r (.create g (j+1) rest) }
  | .created r g j rest => guarded (s.runner r = .create g j rest ∧ ¬ j < (cfg.nr g).toNat)
      { s with runner := Function.update s.runner r (.prepare rest) }
  | .runJoin r g rest j o => guarded (s.runner r = .join (g::rest) j ∧ j < (cfg.nr g).toNat ∧
        s.thread g j = some o ∧ s.worker ⟨o,g,j⟩ = .exited)
      { s with
        runner := Function.update s.runner r (.join (g::rest) (j+1))
        joined := Function.update s.joined ⟨o,g,j⟩ (s.joined ⟨o,g,j⟩+1) }
  | .runJoined r g rest j =>
      guarded (s.runner r = .join (g::rest) j ∧ ¬ j < (cfg.nr g).toNat)
      { s with runner := Function.update s.runner r (.join rest 0) }
  | .runReturn r j => guarded (s.runner r = .join [] j)
      { s with runner := Function.update s.runner r .done }
  | .queueWork r => guarded (s.runner r = .queue)
      { s with runner := Function.update s.runner r .done }
  | .threadInit i => guarded (s.worker i = .start)
      { s with worker := Function.update s.worker i (if cfg.init i.group then .init else .test) }
  | .initReturn i => guarded (s.worker i = .init ∧ s.bars.pc i = .idle)
      { s with worker := Function.update s.worker i .test }
  | .testObject i => guarded (s.worker i = .test)
      { s with
        worker := Function.update s.worker i
          (if (s.barrierObject i.group).isSome then .argBarrier else .ready) }
  | .argBarrier i o => guarded (s.worker i = .argBarrier ∧ s.barrierObject i.group = some o)
      { s with worker := Function.update s.worker i (.argCount o) }
  -- the pointer is read again for the second argument
  | .argCount i o o' => guarded (s.worker i = .argCount o ∧ s.barrierObject i.group = some o')
      { s with worker := Function.update s.worker i (.call o (s.refcount o')) }
  | .callBarrier i o n =>
      if s.worker i = .call o n then
        (Barrier.step s.bars (.enter i (.inl o) n)).map fun b =>
          { s with bars := b, worker := Function.update s.worker i (.inBarrier o) }
      else none
  | .barrier i o a =>
      if s.worker i = .inBarrier o ∧ a.thread = i ∧ a.on = .inl o ∧ a.isEnter = false then
        (Barrier.step s.bars a).map fun b => { s with bars := b }
      else none
  | .barrierReturn i o => guarded (s.worker i = .inBarrier o ∧ s.bars.pc i = .idle)
      { s with worker := Function.update s.worker i .ready }
  | .callFunc i => guarded (s.worker i = .ready)
      { s with worker := Function.update s.worker i (if cfg.func i.group then .func else .exit) }
  -- `group->init` and `group->func` may use barriers of their own
  | .userBarrier i u a =>
      if (s.worker i = .init ∨ s.worker i = .func) ∧ a.thread = i ∧ a.on = .inr u then
        (Barrier.step s.bars a).map fun b => { s with bars := b }
      else none
  | .funcReturn i => guarded (s.worker i = .func ∧ s.bars.pc i = .idle)
      { s with worker := Function.update s.worker i .exit }
  | .cleanup i => guarded (s.worker i = .exit)
      { s with
        nrExited := if cfg.isAsync i.call then
            Function.update s.nrExited i.group (s.nrExited i.group+1)
          else s.nrExited
        worker := Function.update s.worker i .exiting }
  | .pthreadExit i => guarded (s.worker i = .exiting)
      { s with worker := Function.update s.worker i .exited }
  | .joinCall k => guarded (s.joiner k = .idle)
      { s with joiner := Function.update s.joiner k .lock }
  | .joinLock k => guarded (s.joiner k = .lock ∧ s.lock = none)
      { s with
        lock := some (.joiner k)
        joiner := Function.update s.joiner k (.scan s.head) }
  | .scan k g rest => guarded (s.joiner k = .scan (g::rest))
      (if s.nrExited g = cfg.nr g then
        { s with
          joiner := Function.update s.joiner k (.join g 0 rest)
          stage := Function.update s.stage g (.joining k) }
      else { s with joiner := Function.update s.joiner k (.scan rest) })
  | .join k g j rest o => guarded (s.joiner k = .join g j rest ∧ j < (cfg.nr g).toNat ∧
        s.thread g j = some o ∧ s.worker ⟨o,g,j⟩ = .exited)
      { s with
        joiner := Function.update s.joiner k (.join g (j+1) rest)
        joined := Function.update s.joined ⟨o,g,j⟩ (s.joined ⟨o,g,j⟩+1) }
  | .joinDel k g j rest => guarded (s.joiner k = .join g j rest ∧ ¬ j < (cfg.nr g).toNat)
      { s with
        head := s.head.erase g
        nrGroup := s.nrGroup-1
        joiner := Function.update s.joiner k (.put g .test rest)
        stage := Function.update s.stage g .reaped }
  | .joinPut k g p rest =>
      if s.joiner k = .put g p rest then
        (put cfg s g p).map fun (t,q) =>
          { t with joiner := Function.update s.joiner k (.afterPut g rest q) }
      else none
  | .scanned k => guarded (s.joiner k = .scan [])
      { s with joiner := Function.update s.joiner k (.unlock (s.nrGroup != 0)) }
  | .joinUnlock k again => guarded (s.joiner k = .unlock again)
      { s with
        lock := none
        joiner := Function.update s.joiner k (if again then .requeue else .idle) }
  | .requeue k => guarded (s.joiner k = .requeue)
      { s with joiner := Function.update s.joiner k .idle }
  | .waitCall w => guarded (s.waiter w = .idle)
      { s with waiter := Function.update s.waiter w (.next (cfg.waits w)) }
  -- `MTHPC_BUG_ON` aborts where the type is not the asynchronous one
  | .waitNext w g rest => guarded (s.waiter w = .next (g::rest) ∧ s.asyncType g = true)
      { s with waiter := Function.update s.waiter w (.lock g rest) }
  | .waitLock w g rest => guarded (s.waiter w = .lock g rest ∧ s.lock = none)
      { s with
        lock := some (.waiter w)
        waiter := Function.update s.waiter w (.del g rest) }
  -- a deleted node is linked to itself, so that deleting it again leaves the list alone
  | .waitDel w g rest => guarded (s.waiter w = .del g rest)
      { s with
        head := s.head.erase g
        nrGroup := s.nrGroup-1
        waiter := Function.update s.waiter w (.unlock g rest)
        stage := Function.update s.stage g (.waited w) }
  | .waitUnlock w g rest => guarded (s.waiter w = .unlock g rest)
      { s with lock := none, waiter := Function.update s.waiter w (.spin g 0 rest) }
  | .spin w g j rest => guarded (s.waiter w = .spin g j rest ∧ j < (cfg.nr g).toNat)
      { s with
        waiter := Function.update s.waiter w
          (.spin g (if s.nrExited g = cfg.nr g then j+1 else j) rest) }
  | .spun w g j rest => guarded (s.waiter w = .spin g j rest ∧ ¬ j < (cfg.nr g).toNat)
      { s with waiter := Function.update s.waiter w (.join g 0 rest) }
  | .waitJoin w g j rest o => guarded (s.waiter w = .join g j rest ∧ j < (cfg.nr g).toNat ∧
        s.thread g j = some o ∧ s.worker ⟨o,g,j⟩ = .exited)
      { s with
        waiter := Function.update s.waiter w (.join g (j+1) rest)
        joined := Function.update s.joined ⟨o,g,j⟩ (s.joined ⟨o,g,j⟩+1) }
  | .waitJoined w g j rest => guarded (s.waiter w = .join g j rest ∧ ¬ j < (cfg.nr g).toNat)
      { s with
        waiter := Function.update s.waiter w (.put g .test rest)
        stage := Function.update s.stage g .reaped }
  | .waitPut w g p rest =>
      if s.waiter w = .put g p rest then
        (put cfg s g p).map fun (t,q) =>
          { t with waiter := Function.update s.waiter w (.afterPut g rest q) }
      else none
  | .waitReturn w => guarded (s.waiter w = .next [])
      { s with waiter := Function.update s.waiter w .done }

def Act.caller : Act ρ υ κ ω → Option ρ
  | .runCall r | .allocFail r | .runBegin r | .prepare r _ _ | .prepared r | .runLock r _ _
  | .addTail r _ _ | .runUnlock r _ _ | .publish r _ _ | .create r _ _ _ | .created r _ _ _
  | .runJoin r _ _ _ _ | .runJoined r _ _ _ | .runReturn r _ | .queueWork r => some r
  | _ => none

def Act.worker : Act ρ υ κ ω → Option (Thread ρ)
  | .threadInit i | .initReturn i | .testObject i | .argBarrier i _ | .argCount i _ _
  | .callBarrier i _ _ | .barrier i _ _ | .barrierReturn i _ | .callFunc i | .userBarrier i _ _
  | .funcReturn i | .cleanup i | .pthreadExit i => some i
  | _ => none

def Act.joiner : Act ρ υ κ ω → Option κ
  | .joinCall k | .joinLock k | .scan k _ _ | .join k _ _ _ _ | .joinDel k _ _ _
  | .joinPut k _ _ _ | .scanned k | .joinUnlock k _ | .requeue k => some k
  | _ => none

def Act.waiter : Act ρ υ κ ω → Option ω
  | .waitCall w | .waitNext w _ _ | .waitLock w _ _ | .waitDel w _ _ | .waitUnlock w _ _
  | .spin w _ _ _ | .spun w _ _ _ | .waitJoin w _ _ _ _ | .waitJoined w _ _ _
  | .waitPut w _ _ _ | .waitReturn w => some w
  | _ => none

/-- Who makes a step: the case split of the invariants that all parties share. -/
theorem Act.party {ρ υ κ ω : Type} (a : Act ρ υ κ ω) :
    (∃ q, a.caller = some q) ∨ (∃ i, a.worker = some i) ∨ (∃ k, a.joiner = some k) ∨
      ∃ w, a.waiter = some w := by
  cases a <;> simp [caller,worker,joiner,waiter]

end ThreadGroup
end Mthpc
