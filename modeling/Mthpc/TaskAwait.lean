import Mthpc.TaskRoles

/-!
# Awaiting a taskflow

`mthpc_taskflow_await` of `src/taskflow/taskflow.c` with any number of workers, on the one
completion of the taskflow. The walk over the two levels of lists, the two stores of
`mthpc_completion_init`, each scheduling, the loads of `mthpc_wait_for_completion`, and in a
worker the call of the task, its return and `mthpc_complete` are separate steps. The workqueue
is taken to run each work once: a scheduled work waits until some worker takes it.
-/
namespace Mthpc
namespace Taskflow

open StepSystem Links Node


/-- `struct mthpc_completion`. -/
structure Completion where
  cnt : BitVec 64
  nr : BitVec 64
  deriving DecidableEq

/-- Where the awaiting thread stands, with its `current`, its position on a list, its
`nr_completed_sub_task` and the `cnt` it has loaded. -/
inductive AwaitPc
  | main (pos : Node)
  | initCnt (current : Address) | initNr (current : Address) | schedule (current : Address)
  | sub (current : Address) (pos : Node) (nrCompletedSubTask : BitVec 64)
  | wait (current : Address) (nrCompletedSubTask : BitVec 64)
  | compare (current : Address) (nrCompletedSubTask cnt : BitVec 64)
  | done
  deriving DecidableEq

/-- Where a worker stands in `mthpc_task_worker`; it reads `tf` before it calls the task. -/
inductive WorkerPc
  | idle
  | func (task : Address) (tf : BitVec 64)
  | complete (task : Address) (tf : BitVec 64)
  deriving DecidableEq

/-- What happens to one task. -/
inductive Mark
  | start | ret | complete
  deriving DecidableEq

/-- The events of a run. A group begins where `cnt` is reset for it. -/
inductive Event
  | group (main : Address)
  | task (task : Address) (mark : Mark)
  deriving DecidableEq

inductive Warning
  | subTask (current : Address) | task
  deriving DecidableEq

/-- The workers are `W`. The log is a ghost, with the last event first. -/
structure Await (W : Type) where
  completion : BitVec 64 → Completion
  pc : AwaitPc
  nrCompleted : BitVec 64
  queued : List Address
  worker : W → WorkerPc
  warned : List Warning
  log : List Event

inductive AwaitAct (W : Type)
  | await
  | start (w : W) (task : Address) | ret (w : W) | complete (w : W)

variable {W : Type} [DecidableEq W]

/-- One step of `mthpc_taskflow_await`. -/
def awaitStep (st : State) (tf : BitVec 64) (r : Await W) : Option (Await W) :=
  match r.pc with
  | .main pos =>
    if pos = taskflow tf then some { r with
      pc := .done
      warned := if r.nrCompleted ≠ st.nrTask tf then .task::r.warned else r.warned }
    else (ofListNode pos).map fun current => { r with pc := .initCnt current }
  | .initCnt current => some { r with
      completion := Function.update r.completion tf { r.completion tf with cnt := 0 }
      pc := .initNr current
      log := .group current::r.log }
  | .initNr current => some { r with
      completion := Function.update r.completion tf
        { r.completion tf with nr := (st.task current).nrSubTask }
      pc := .schedule current }
  | .schedule current => some { r with
      queued := current::r.queued
      pc := .sub current (st.links.next (subTaskListHead current)) 1 }
  | .sub current pos k =>
    if pos = subTaskListHead current then some { r with pc := .wait current k }
    else (ofSubTaskListHead pos).map fun subTask => { r with
      queued := subTask::r.queued
      pc := .sub current (st.links.next (subTaskListHead subTask)) (k+1) }
  | .wait current k => some { r with pc := .compare current k (r.completion tf).cnt }
  | .compare current k cnt =>
    if cnt ≠ (r.completion tf).nr then some { r with pc := .wait current k }
    else some { r with
      pc := .main (st.links.next (listNode current))
      nrCompleted := r.nrCompleted+k
      warned := if k ≠ (st.task current).nrSubTask then .subTask current::r.warned else r.warned }
  | .done => none

def workerStep (st : State) (r : Await W) : AwaitAct W → Option (Await W)
  | .await => none
  | .start w t => guarded (r.worker w = .idle ∧ t ∈ r.queued)
      { r with
        queued := r.queued.erase t
        worker := Function.update r.worker w (.func t (getTaskflow (st.task t).isSubTaskParent))
        log := .task t .start::r.log }
  | .ret w =>
    match r.worker w with
    | .func t tf => some { r with
        worker := Function.update r.worker w (.complete t tf)
        log := .task t .ret::r.log }
    | _ => none
  | .complete w =>
    match r.worker w with
    | .complete t tf => some { r with
        completion := Function.update r.completion tf
          { r.completion tf with cnt := (r.completion tf).cnt+1 }
        worker := Function.update r.worker w .idle
        log := .task t .complete::r.log }
    | _ => none

def stepAwait (st : State) (tf : BitVec 64) (r : Await W) : AwaitAct W → Option (Await W)
  | .await => awaitStep st tf r
  | a => workerStep st r a

/-- A call of `mthpc_taskflow_await`: nothing is scheduled yet, the completion is arbitrary. -/
def beginAwait (st : State) (tf : BitVec 64) (completion : BitVec 64 → Completion) : Await W where
  completion := completion
  pc := .main (st.links.next (taskflow tf))
  nrCompleted := 0
  queued := []
  worker := fun _ => .idle
  warned := []
  log := []

/-- The two levels of lists are well formed and hold each task of the taskflow once, and
`nr_sub_task` counts a group. -/
structure Grouped (st : State) (tf : BitVec 64) (f : Flow) : Prop where
  main : Seg st.links (taskflow tf) (f.mains.map listNode) (taskflow tf)
  sub : ∀ p ∈ f, Seg st.links (subTaskListHead p.1) (p.2.map subTaskListHead) (subTaskListHead p.1)
  nodup : f.tasks.Nodup
  taskflow : ∀ t ∈ f.tasks, getTaskflow (st.task t).isSubTaskParent = tf
  nrSubTask : ∀ p ∈ f, (st.task p.1).nrSubTask = BitVec.ofNat 64 (1+p.2.length)

def groupOf : List Event → Option Address
  | [] => none
  | .group m::_ => some m
  | .task _ _::es => groupOf es

def history (es : List Event) (t : Address) : List Mark :=
  es.filterMap fun
    | .group _ => none
    | .task u mark => if u = t then some mark else none

/-- Started, returned and completed once. -/
def Finished (es : List Event) (t : Address) : Prop := history es t = [.complete,.ret,.start]

instance (es : List Event) (t : Address) : Decidable (Finished es t) := by
  unfold Finished; infer_instance

/-- What the groups guarantee, in one state of a run. `es` is the log up to an event. -/
structure Barriers (st : State) (tf : BitVec 64) (f : Flow) (r : Await W) : Prop where
  /-- A task starts after all tasks of the earlier groups have returned. -/
  ordered : ∀ es t, .task t .start::es <:+ r.log → ∀ (f₁ f₂ : Flow) p, f = f₁ ++ p::f₂ →
    t ∈ p.1::p.2 → ∀ u ∈ f₁.tasks, .task u .ret ∈ es
  /-- A completion comes while the task's own group is the current one. -/
  counted : ∀ es t, .task t .complete::es <:+ r.log →
    ∃ p ∈ f, t ∈ p.1::p.2 ∧ groupOf es = some p.1
  /-- The counter is the number of completed tasks of the current group. -/
  cnt : ∀ p ∈ f, groupOf r.log = some p.1 →
    (r.completion tf).cnt = BitVec.ofNat 64 ((p.1::p.2).countP fun t => Finished r.log t)
  /-- Where the call returns, each task of the taskflow and no other has run once. -/
  done : r.pc = .done → ∀ t, if t ∈ f.tasks then Finished r.log t else history r.log t = []
  /-- Where all works of the current group have completed, the wait condition is false. -/
  released : ∀ p ∈ f, (∃ k, r.pc = .wait p.1 k ∨ ∃ v, r.pc = .compare p.1 k v) →
    (∀ t ∈ p.1::p.2, Finished r.log t) → (r.completion tf).cnt = (r.completion tf).nr
  /-- The thread never follows a pointer out of the lists. -/
  walks : r.pc = .done ∨ (awaitStep st tf r).isSome
  /-- The number of tasks of a group is right. -/
  warned : ∀ m, .subTask m ∉ r.warned

section Log

variable {es : List Event} {t u m : Address} {mark : Mark} {e : Event}

@[simp] theorem history_nil : history [] t = [] := rfl

@[simp] theorem history_group : history (.group m::es) t = history es t := rfl

@[simp] theorem history_task : history (.task u mark::es) t =
    if u = t then mark::history es t else history es t := by
  by_cases h : u = t <;> simp [history,h]

theorem mem_history : mark ∈ history es t ↔ .task t mark ∈ es := by
  induction es with
  | nil => simp
  | cons e es ih =>
    cases e with
    | group m => simp [ih]
    | task u mark' =>
      by_cases h : u = t
      · simp [h,ih]
      · simp [h,ih,Ne.symm h]

theorem suffix_task {es' : List Event} (h : .task t mark::es <:+ e::es') :
    e = .task t mark ∧ es' = es ∨ .task t mark::es <:+ es' := by
  rcases List.suffix_cons_iff.mp h with h | h
  · exact .inl ⟨(List.cons.inj h).1.symm,(List.cons.inj h).2.symm⟩
  · exact .inr h

end Log

section Split

variable {f f₁ f₂ g₁ g₂ : Flow} {p q : Address × List Address} {t : Address}

theorem Flow.split_unique (h : f₁ ++ p::f₂ = g₁ ++ q::g₂) (hnd : (f₁ ++ p::f₂).tasks.Nodup)
    (hp : t ∈ p.1::p.2) (hq : t ∈ q.1::q.2) : f₁ = g₁ ∧ p = q := by
  induction f₁ generalizing g₁ with
  | nil =>
    cases g₁ with
    | nil => exact ⟨rfl,(List.cons.inj h).1⟩
    | cons x g₁ =>
      obtain ⟨rfl,rfl⟩ := List.cons.inj h
      have hdis := (List.nodup_append.mp hnd).2.2
      exact absurd rfl (hdis t hp t (Flow.mem_tasks_of_mem (by simp) hq))
  | cons x f₁ ih =>
    cases g₁ with
    | nil =>
      obtain ⟨rfl,rfl⟩ := List.cons.inj h
      have hdis := (List.nodup_append.mp hnd).2.2
      exact absurd rfl (hdis t hq t (Flow.mem_tasks_of_mem (by simp) hp))
    | cons y g₁ =>
      obtain ⟨rfl,h'⟩ := List.cons.inj h
      obtain ⟨rfl,hpq⟩ := ih h' (List.nodup_append.mp hnd).2.1
      exact ⟨rfl,hpq⟩

end Split

/-- The node at which the walk over a list stands, before the tasks `ts`. -/
def nodeAt (node : Address → Node) (head : Node) (ts : List Address) : Node :=
  (ts.head?.map node).getD head

/-- Where the awaiting thread stands: behind the groups `f₁`, before `f₂`, with the tasks `hs`
of the current group handed over. -/
def AwaitOk (tf : BitVec 64) (f₂ : Flow) (hs : List Address) (r : Await W) : Prop :=
  match r.pc with
  | .main pos => hs = [] ∧ pos = nodeAt listNode (taskflow tf) f₂.mains
  | .initCnt m => hs = [] ∧ ∃ ss f₃, f₂ = (m,ss)::f₃
  | .initNr m => hs = [] ∧ groupOf r.log = some m ∧ ∃ ss f₃, f₂ = (m,ss)::f₃
  | .schedule m => hs = [] ∧ groupOf r.log = some m ∧ ∃ ss f₃, f₂ = (m,ss)::f₃ ∧
      (r.completion tf).nr = BitVec.ofNat 64 (1+ss.length)
  | .sub m pos k => groupOf r.log = some m ∧ ∃ ss₁ ss₂ f₃, f₂ = (m,ss₁ ++ ss₂)::f₃ ∧ hs = m::ss₁ ∧
      pos = nodeAt subTaskListHead (subTaskListHead m) ss₂ ∧ k = BitVec.ofNat 64 (1+ss₁.length) ∧
      (r.completion tf).nr = BitVec.ofNat 64 (1+(ss₁ ++ ss₂).length)
  | .wait m k => groupOf r.log = some m ∧ ∃ ss f₃, f₂ = (m,ss)::f₃ ∧ hs = m::ss ∧
      k = BitVec.ofNat 64 (1+ss.length) ∧ (r.completion tf).nr = BitVec.ofNat 64 (1+ss.length)
  | .compare m k v => groupOf r.log = some m ∧ ∃ ss f₃, f₂ = (m,ss)::f₃ ∧ hs = m::ss ∧
      k = BitVec.ofNat 64 (1+ss.length) ∧ (r.completion tf).nr = BitVec.ofNat 64 (1+ss.length) ∧
      (v = BitVec.ofNat 64 (1+ss.length) → ∀ t ∈ m::ss, Finished r.log t)
  | .done => hs = [] ∧ f₂ = []

def WorkerOk (tf : BitVec 64) (hs : List Address) (r : Await W) (w : W) : Prop :=
  match r.worker w with
  | .idle => True
  | .func t x => x = tf ∧ t ∈ hs ∧ history r.log t = [.start]
  | .complete t x => x = tf ∧ t ∈ hs ∧ history r.log t = [.ret,.start]

/-- The task that a worker runs. -/
def WorkerPc.task : WorkerPc → Option Address
  | .idle => none
  | .func t _ | .complete t _ => some t

/-- The tasks `ds` are done, `hs` are handed over, and the others have not been touched. -/
structure Jobs (tf : BitVec 64) (ds hs : List Address) (r : Await W) : Prop where
  nodup : r.queued.Nodup
  queued : ∀ t ∈ r.queued, t ∈ hs ∧ history r.log t = []
  own : ∀ v w t, (r.worker v).task = some t → (r.worker w).task = some t → v = w
  worker : ∀ w, WorkerOk tf hs r w
  finished : ∀ t ∈ ds, Finished r.log t
  fresh : ∀ t, t ∉ ds → t ∉ hs → history r.log t = []

/-- What the log says. -/
structure LogOk (tf : BitVec 64) (f : Flow) (r : Await W) : Prop where
  ordered : ∀ es t, .task t .start::es <:+ r.log → ∀ (f₁ f₂ : Flow) p, f = f₁ ++ p::f₂ →
    t ∈ p.1::p.2 → ∀ u ∈ f₁.tasks, .task u .ret ∈ es
  counted : ∀ es t, .task t .complete::es <:+ r.log →
    ∃ p ∈ f, t ∈ p.1::p.2 ∧ groupOf es = some p.1
  cnt : ∀ p ∈ f, groupOf r.log = some p.1 →
    (r.completion tf).cnt = BitVec.ofNat 64 ((p.1::p.2).countP fun t => Finished r.log t)

structure AwaitInv (tf : BitVec 64) (f f₁ f₂ : Flow) (hs : List Address)
    (r : Await W) : Prop where
  split : f = f₁ ++ f₂
  await : AwaitOk tf f₂ hs r
  jobs : Jobs tf f₁.tasks hs r
  log : LogOk tf f r
  warned : ∀ m, .subTask m ∉ r.warned

section Worker

variable {st : State} {tf : BitVec 64} {f f₁ f₂ : Flow} {hs ds : List Address} {r r' : Await W}
  {t m : Address} {w : W} {a : AwaitAct W}

theorem Finished.ret {es : List Event} (h : Finished es t) : .task t .ret ∈ es := by
  rw [← mem_history,show history es t = _ from h]
  simp

theorem AwaitOk.group {W : Type} {tf : BitVec 64} {f₂ : Flow} {hs : List Address} {r : Await W}
    {t : Address} (h : AwaitOk tf f₂ hs r) (ht : t ∈ hs) :
    ∃ m ss f₃, f₂ = (m,ss)::f₃ ∧ groupOf r.log = some m ∧ ∀ u ∈ hs, u ∈ m::ss := by
  unfold AwaitOk at h
  split at h
  · simp [h.1] at ht
  · simp [h.1] at ht
  · simp [h.1] at ht
  · simp [h.1] at ht
  next m pos k _ =>
    obtain ⟨hg,ss₁,ss₂,f₃,rfl,rfl,_⟩ := h
    refine ⟨m,_,f₃,rfl,hg,fun u hu => ?_⟩
    simp only [List.mem_cons,List.mem_append] at hu ⊢
    tauto
  next m k _ =>
    obtain ⟨hg,ss,f₃,rfl,rfl,_⟩ := h
    exact ⟨m,ss,f₃,rfl,hg,fun _ hu => hu⟩
  next m k v _ =>
    obtain ⟨hg,ss,f₃,rfl,rfl,_⟩ := h
    exact ⟨m,ss,f₃,rfl,hg,fun _ hu => hu⟩
  · simp [h.1] at ht

theorem AwaitOk.congr {W : Type} {tf : BitVec 64} {f₂ : Flow} {hs : List Address} {r r' : Await W}
    (h : AwaitOk tf f₂ hs r) (hpc : r'.pc = r.pc)
    (hnr : (r'.completion tf).nr = (r.completion tf).nr) (hg : groupOf r'.log = groupOf r.log)
    (hf : ∀ t, Finished r.log t → Finished r'.log t) : AwaitOk tf f₂ hs r' := by
  unfold AwaitOk at h ⊢
  rw [hpc,hnr,hg]
  cases hp : r.pc with
  | compare m k v =>
    rw [hp] at h
    obtain ⟨hg,ss,f₃,hf₂,hhs,hk,hn,hv⟩ := h
    exact ⟨hg,ss,f₃,hf₂,hhs,hk,hn,fun he t ht => hf t (hv he t ht)⟩
  | main | initCnt | initNr | schedule | sub | wait | done =>
    rw [hp] at h
    exact h

theorem Jobs.mark {mark : Mark} {p : WorkerPc} (h : Jobs tf ds hs r) (ht : t ∈ hs)
    (hds : t ∉ ds) (hown : ∀ v, v ≠ w → (r.worker v).task ≠ some t)
    (hq : r'.queued = r.queued.erase t) (hw : r'.worker = Function.update r.worker w p)
    (hlog : r'.log = .task t mark::r.log) (hp : ∀ u, p.task = some u → u = t)
    (hok : WorkerOk tf hs r' w) : Jobs tf ds hs r' := by
  have hist : ∀ u, u ≠ t → history r'.log u = history r.log u := fun u hu => by
    simp [hlog,Ne.symm hu]
  refine ⟨by rw [hq]; exact h.nodup.erase t,fun u hu => ?_,fun v v' u hv hv' => ?_,fun v => ?_,
    fun u hu => ?_,fun u hu hu' => ?_⟩
  · rw [hq,h.nodup.mem_erase_iff] at hu
    rw [hist u hu.1]
    exact h.queued u hu.2
  · rw [hw] at hv hv'
    by_cases hvw : v = w <;> by_cases hvw' : v' = w
    · rw [hvw,hvw']
    · simp only [hvw,Function.update_self] at hv
      rw [Function.update_of_ne hvw',hp u hv] at hv'
      exact absurd hv' (hown v' hvw')
    · simp only [hvw',Function.update_self] at hv'
      rw [Function.update_of_ne hvw,hp u hv'] at hv
      exact absurd hv (hown v hvw)
    · rw [Function.update_of_ne hvw] at hv
      rw [Function.update_of_ne hvw'] at hv'
      exact h.own v v' u hv hv'
  · by_cases hvw : v = w
    · rw [hvw]
      exact hok
    · have hv := h.worker v
      have hne := hown v hvw
      unfold WorkerOk at hv ⊢
      rw [hw,Function.update_of_ne hvw]
      cases hpv : r.worker v with
      | idle => trivial
      | func u x | complete u x =>
        rw [hpv] at hv hne
        have hu := hist u fun hu => hne (by simp [WorkerPc.task,hu])
        exact ⟨hv.1,hv.2.1,hu.trans hv.2.2⟩
  · rw [Finished,hist u fun hut => hds (hut ▸ hu)]
    exact h.finished u hu
  · rw [hist u fun hut => hu' (hut ▸ ht)]
    exact h.fresh u hu hu'

theorem Flow.eq_of_mem {p q : Address × List Address} (hnd : f.tasks.Nodup) (hp : p ∈ f)
    (hq : q ∈ f) (htp : t ∈ p.1::p.2) (htq : t ∈ q.1::q.2) : p = q := by
  obtain ⟨f₁,f₂,rfl⟩ := List.append_of_mem hp
  obtain ⟨g₁,g₂,hg⟩ := List.append_of_mem hq
  exact (Flow.split_unique hg hnd htp htq).2

theorem countP_succ {P Q : Address → Bool} {xs : List Address} (hnd : xs.Nodup) (ht : t ∈ xs)
    (hP : P t = false) (hQ : Q t = true) (h : ∀ u, u ≠ t → Q u = P u) :
    xs.countP Q = xs.countP P+1 := by
  have hp := List.perm_cons_erase ht
  have he : (xs.erase t).countP Q = (xs.erase t).countP P :=
    List.countP_congr fun u hu => by rw [h u fun hut => by simp [hut,hnd.mem_erase_iff] at hu]
  rw [hp.countP_eq,hp.countP_eq,List.countP_cons_of_pos hQ,
    List.countP_cons_of_neg (by simp [hP]),he]

theorem AwaitInv.group {W : Type} {tf : BitVec 64} {f f₁ f₂ : Flow} {hs : List Address}
    {r : Await W} {t : Address} (h : AwaitInv tf f f₁ f₂ hs r) (ht : t ∈ hs) :
    ∃ m ss f₃, f₂ = (m,ss)::f₃ ∧ groupOf r.log = some m ∧ t ∈ m::ss ∧ f = f₁ ++ (m,ss)::f₃ := by
  obtain ⟨m,ss,f₃,rfl,hg,hsub⟩ := h.await.group ht
  exact ⟨m,ss,f₃,rfl,hg,hsub t ht,h.split⟩

theorem AwaitInv.notMem_done {W : Type} {tf : BitVec 64} {f f₁ f₂ : Flow} {hs : List Address}
    {r : Await W} {t : Address} (h : AwaitInv tf f f₁ f₂ hs r) (hnd : f.tasks.Nodup) (ht : t ∈ hs) :
    t ∉ f₁.tasks := by
  obtain ⟨m,ss,f₃,_,_,htm,rfl⟩ := h.group ht
  intro htd
  exact (Flow.nodup_group hnd).2 t htm (by simp [htd])

theorem AwaitInv.start (h : AwaitInv tf f f₁ f₂ hs r) (hf : Grouped st tf f)
    (hst : workerStep st r (.start w t) = some r') : AwaitInv tf f f₁ f₂ hs r' := by
  obtain ⟨⟨hw,hq⟩,rfl⟩ := guarded_eq_some.mp hst
  obtain ⟨ht,hhist⟩ := h.jobs.queued t hq
  obtain ⟨m,ss,f₃,hf₂,hg,htm,hsplit⟩ := h.group ht
  have htf : t ∈ f.tasks := Flow.mem_tasks_of_mem (p:=(m,ss)) (by simp [hsplit]) htm
  have hown : ∀ v, (r.worker v).task ≠ some t := by
    intro v hv
    have hok := h.jobs.worker v
    unfold WorkerOk at hok
    cases hpv : r.worker v with
    | idle => simp [hpv,WorkerPc.task] at hv
    | func u x | complete u x =>
      rw [hpv] at hok hv
      have hut : u = t := by simpa [WorkerPc.task] using hv
      exact absurd (hok.2.2.symm.trans (hut ▸ hhist)) (by simp)
  have hfin : ∀ u, Finished (.task t .start::r.log) u ↔ Finished r.log u := by
    intro u
    by_cases hut : t = u
    · subst hut
      simp [Finished,hhist]
    · simp [Finished,hut]
  refine ⟨h.split,?_,?_,?_,h.warned⟩
  · exact h.await.congr rfl rfl rfl fun u hu => (hfin u).mpr hu
  · refine h.jobs.mark ht (h.notMem_done hf.nodup ht) (fun v _ => hown v) rfl rfl rfl
      (by simp [WorkerPc.task]) ?_
    simp [WorkerOk,hf.taskflow t htf,ht,hhist]
  · refine ⟨fun es u hu g₁ g₂ p hp hup v hv => ?_,fun es u hu => ?_,fun p hp hgp => ?_⟩
    · rcases suffix_task hu with ⟨he,rfl⟩ | hu
      · cases he
        obtain ⟨rfl,_⟩ := Flow.split_unique (hsplit.symm.trans hp) (hsplit ▸ hf.nodup) htm hup
        exact (h.jobs.finished v hv).ret
      · exact h.log.ordered es u hu g₁ g₂ p hp hup v hv
    · rcases suffix_task hu with ⟨he,_⟩ | hu
      · cases he
      · exact h.log.counted es u hu
    · simp only [hfin]
      exact h.log.cnt p hp hgp

theorem AwaitInv.ret (h : AwaitInv tf f f₁ f₂ hs r) (hf : Grouped st tf f)
    (hst : workerStep st r (.ret w) = some r') : AwaitInv tf f f₁ f₂ hs r' := by
  simp only [workerStep] at hst
  split at hst
  next t x hw =>
    cases hst
    have hok := h.jobs.worker w
    rw [WorkerOk,hw] at hok
    obtain ⟨rfl,ht,hhist⟩ := hok
    have hfin : ∀ u, Finished (.task t .ret::r.log) u ↔ Finished r.log u := by
      intro u
      by_cases hut : t = u
      · subst hut
        simp [Finished,hhist]
      · simp [Finished,hut]
    refine ⟨h.split,?_,?_,?_,h.warned⟩
    · exact h.await.congr rfl rfl rfl fun u hu => (hfin u).mpr hu
    · refine h.jobs.mark ht (h.notMem_done hf.nodup ht) (fun v hv hvt => ?_) ?_ rfl rfl
        (by simp [WorkerPc.task]) ?_
      · exact hv (h.jobs.own v w t hvt (by simp [hw,WorkerPc.task]))
      · refine (List.erase_of_not_mem fun hq => ?_).symm
        simp [(h.jobs.queued t hq).2] at hhist
      · simp [WorkerOk,ht,hhist]
    · refine ⟨fun es u hu => ?_,fun es u hu => ?_,fun p hp hgp => ?_⟩
      · rcases suffix_task hu with ⟨he,_⟩ | hu
        · cases he
        · exact h.log.ordered es u hu
      · rcases suffix_task hu with ⟨he,_⟩ | hu
        · cases he
        · exact h.log.counted es u hu
      · simp only [hfin]
        exact h.log.cnt p hp hgp
  · cases hst

theorem AwaitInv.complete (h : AwaitInv tf f f₁ f₂ hs r) (hf : Grouped st tf f)
    (hst : workerStep st r (.complete w) = some r') : AwaitInv tf f f₁ f₂ hs r' := by
  simp only [workerStep] at hst
  split at hst
  next t x hw =>
    cases hst
    have hok := h.jobs.worker w
    rw [WorkerOk,hw] at hok
    obtain ⟨rfl,ht,hhist⟩ := hok
    obtain ⟨m,ss,f₃,hf₂,hg,htm,hsplit⟩ := h.group ht
    have hmem : (m,ss) ∈ f := by simp [hsplit]
    have hfin : ∀ u, u ≠ t →
        (Finished (.task t .complete::r.log) u ↔ Finished r.log u) := fun u hu => by
      simp [Finished,Ne.symm hu]
    have hnot : ¬ Finished r.log t := by simp [Finished,hhist]
    have hnow : Finished (.task t .complete::r.log) t := by simp [Finished,hhist]
    refine ⟨h.split,?_,?_,?_,h.warned⟩
    · refine h.await.congr rfl (by simp) rfl fun u hu => ?_
      exact (hfin u fun hut => hnot (hut ▸ hu)).mpr hu
    · refine h.jobs.mark ht (h.notMem_done hf.nodup ht) (fun v hv hvt => ?_) ?_ rfl rfl
        (by simp [WorkerPc.task]) ?_
      · exact hv (h.jobs.own v w t hvt (by simp [hw,WorkerPc.task]))
      · refine (List.erase_of_not_mem fun hq => ?_).symm
        simp [(h.jobs.queued t hq).2] at hhist
      · simp [WorkerOk]
    · refine ⟨fun es u hu => ?_,fun es u hu => ?_,fun p hp hgp => ?_⟩
      · rcases suffix_task hu with ⟨he,_⟩ | hu
        · cases he
        · exact h.log.ordered es u hu
      · rcases suffix_task hu with ⟨he,rfl⟩ | hu
        · cases he
          exact ⟨(m,ss),hmem,htm,hg⟩
        · exact h.log.counted es u hu
      · have hpm : p.1 = m := Option.some.inj (hgp.symm.trans hg)
        obtain rfl : p = (m,ss) := Flow.eq_of_mem hf.nodup hp hmem (t:=m) (by simp [hpm]) (by simp)
        have hndm : (m::ss).Nodup := (Flow.nodup_group (hsplit ▸ hf.nodup)).1
        have hc := h.log.cnt (m,ss) hmem hg
        rw [countP_succ (P:=fun u => Finished r.log u) hndm htm (by simp [hnot]) (by simp [hnow])
          fun u hu => by simp [hfin u hu]]
        simp only [Function.update_self,hc,BitVec.ofNat_add]
        rfl
  · cases hst

end Worker

section Dispatcher

variable {st : State} {tf : BitVec 64} {f f₁ f₂ : Flow} {hs ds ts us : List Address}
  {r r' : Await W} {t m : Address} {l : Links Node} {node : Address → Node} {x head : Node}

theorem Seg.next_eq (h : Seg l x (ts.map node) head) : l.next x = nodeAt node head ts := by
  cases ts with
  | nil => exact (seg_nil.mp h).1
  | cons t ts => exact (seg_cons.mp h).1.1

theorem Seg.next_mem (h : Seg l head ((us ++ t::ts).map node) head) :
    l.next (node t) = nodeAt node head ts := by
  rw [List.map_append,List.map_cons,seg_append] at h
  exact Seg.next_eq h.2

section

omit [DecidableEq W]

theorem Jobs.congr (h : Jobs tf ds hs r) (hq : r'.queued = r.queued) (hw : r'.worker = r.worker)
    (hh : ∀ t, history r'.log t = history r.log t) : Jobs tf ds hs r' := by
  refine ⟨by rw [hq]; exact h.nodup,by simpa only [hq,hh] using h.queued,
    by simpa only [hw] using h.own,fun w => ?_,by simpa only [Finished,hh] using h.finished,
    by simpa only [hh] using h.fresh⟩
  simpa only [WorkerOk,hw,hh] using h.worker w

theorem Jobs.hand (h : Jobs tf ds hs r) (hds : t ∉ ds) (hhs : t ∉ hs)
    (hq : r'.queued = t::r.queued) (hw : r'.worker = r.worker) (hlog : r'.log = r.log) :
    Jobs tf ds (hs ++ [t]) r' := by
  refine ⟨?_,fun u hu => ?_,by simpa only [hw] using h.own,fun w => ?_,
    by simpa only [hlog] using h.finished,fun u hu hu' => ?_⟩
  · rw [hq]
    exact h.nodup.cons fun ht => hhs (h.queued t ht).1
  · rw [hq] at hu
    rw [hlog]
    rcases List.mem_cons.mp hu with rfl | hu
    · exact ⟨by simp,h.fresh u hds hhs⟩
    · exact ⟨by simp [(h.queued u hu).1],(h.queued u hu).2⟩
  · have hok := h.worker w
    unfold WorkerOk at hok ⊢
    rw [hw,hlog]
    cases hp : r.worker w with
    | idle => trivial
    | func u x | complete u x =>
      rw [hp] at hok
      exact ⟨hok.1,by simp [hok.2.1],hok.2.2⟩
  · rw [hlog]
    exact h.fresh u hu fun hh => hu' (by simp [hh])

theorem Jobs.finish (h : Jobs tf ds hs r) (hf : ∀ t ∈ hs, Finished r.log t) :
    Jobs tf (ds ++ hs) [] r := by
  refine ⟨h.nodup,fun t ht => ?_,h.own,fun w => ?_,fun t ht => ?_,fun t ht _ => ?_⟩
  · have hq := h.queued t ht
    exact absurd (hq.2.symm.trans (hf t hq.1)) (by simp)
  · have hok := h.worker w
    unfold WorkerOk at hok ⊢
    cases hp : r.worker w with
    | idle => trivial
    | func u x | complete u x =>
      rw [hp] at hok
      exact absurd (hok.2.2.symm.trans (hf u hok.2.1)) (by simp)
  · rcases List.mem_append.mp ht with ht | ht
    · exact h.finished t ht
    · exact hf t ht
  · rw [List.mem_append,not_or] at ht
    exact h.fresh t ht.1 ht.2

theorem LogOk.congr (h : LogOk tf f r) (hlog : r'.log = r.log)
    (hcnt : (r'.completion tf).cnt = (r.completion tf).cnt) : LogOk tf f r' := by
  refine ⟨?_,?_,?_⟩
  · rw [hlog]
    exact h.ordered
  · rw [hlog]
    exact h.counted
  · rw [hlog,hcnt]
    exact h.cnt

theorem LogOk.finished {p : Address × List Address} (h : LogOk tf f r) (hf : f.tasks.Nodup)
    (hp : p ∈ f) (hg : groupOf r.log = some p.1)
    (hv : (r.completion tf).cnt = BitVec.ofNat 64 (1+p.2.length)) :
    ∀ t ∈ p.1::p.2, Finished r.log t := by
  have hl := Address.length_lt hf
  have hp' := Flow.length_subs_lt hp
  have hle : (p.1::p.2).countP (fun t => Finished r.log t) ≤ (p.1::p.2).length :=
    List.countP_le_length
  have hc := congrArg BitVec.toNat ((h.cnt p hp hg).symm.trans hv)
  simp only [List.length_cons] at hle
  rw [BitVec.toNat_ofNat,BitVec.toNat_ofNat,Nat.mod_eq_of_lt (by omega),
    Nat.mod_eq_of_lt (by omega)] at hc
  have hall : (p.1::p.2).countP (fun t => Finished r.log t) = (p.1::p.2).length := by
    rw [hc,List.length_cons,Nat.add_comm]
  simpa using List.countP_eq_length.mp hall

theorem AwaitOk.isSome (h : AwaitOk tf f₂ hs r) : r.pc = .done ∨ (awaitStep st tf r).isSome := by
  unfold AwaitOk at h
  cases hp : r.pc with
  | main pos =>
    right
    simp only [hp] at h
    cases f₂ <;> simp [awaitStep,hp,h.2,nodeAt,Flow.mains,ofListNode]
  | sub m pos k =>
    right
    simp only [hp] at h
    obtain ⟨_,_,ss₂,_,_,_,rfl,_⟩ := h
    cases ss₂ with
    | nil => simp [awaitStep,hp,nodeAt]
    | cons t ss₂ =>
      simp only [awaitStep,hp]
      split <;> simp [nodeAt,ofSubTaskListHead]
  | compare m k v =>
    right
    simp only [awaitStep,hp]
    split <;> rfl
  | initCnt | initNr | schedule | wait =>
    right
    simp only [awaitStep,hp]
    rfl
  | done => exact .inl rfl

end

section

omit [DecidableEq W]

theorem AwaitInv.initCnt (h : AwaitInv tf f f₁ f₂ hs r) (hf : Grouped st tf f)
    (hp : r.pc = .initCnt m) (hst : awaitStep st tf r = some r') : AwaitInv tf f f₁ f₂ hs r' := by
  have hok := h.await
  simp only [AwaitOk,hp] at hok
  simp only [awaitStep,hp] at hst
  cases hst
  obtain ⟨rfl,ss,f₃,rfl⟩ := hok
  have hmem : (m,ss) ∈ f := by simp [h.split]
  refine ⟨h.split,⟨rfl,rfl,ss,f₃,rfl⟩,h.jobs.congr rfl rfl fun _ => rfl,
    ⟨fun es u hu => ?_,fun es u hu => ?_,fun p hp' hg => ?_⟩,h.warned⟩
  · rcases suffix_task hu with ⟨he,_⟩ | hu
    · cases he
    · exact h.log.ordered es u hu
  · rcases suffix_task hu with ⟨he,_⟩ | hu
    · cases he
    · exact h.log.counted es u hu
  · have hpm : m = p.1 := by simpa [groupOf] using hg
    obtain rfl : p = (m,ss) := Flow.eq_of_mem hf.nodup hp' hmem (t:=m) (by simp [hpm]) (by simp)
    have hzero : (m::ss).countP (fun t => Finished (.group m::r.log) t) = 0 := by
      rw [List.countP_eq_zero]
      intro t ht
      have hd : t ∉ f₁.tasks := fun htd =>
        (Flow.nodup_group (h.split ▸ hf.nodup)).2 t ht (by simp [htd])
      simp [Finished,h.jobs.fresh t hd (by simp)]
    simp only [Function.update_self,hzero]
    rfl

theorem AwaitInv.handOver {k : BitVec 64} {pos : Node} (h : AwaitInv tf f f₁ f₂ hs r)
    (hf : Grouped st tf f) (hp : r.pc = .sub m pos k) (hst : awaitStep st tf r = some r') :
    ∃ hs, AwaitInv tf f f₁ f₂ hs r' := by
  have hok := h.await
  simp only [AwaitOk,hp] at hok
  simp only [awaitStep,hp] at hst
  obtain ⟨hg,ss₁,ss₂,f₃,rfl,rfl,rfl,hk,hnr⟩ := hok
  have hnd := Flow.nodup_group (h.split ▸ hf.nodup)
  cases ss₂ with
  | nil =>
    rw [if_pos (by rfl)] at hst
    cases hst
    exact ⟨m::ss₁,h.split,⟨hg,_,f₃,rfl,by simp,by simpa using hk,hnr⟩,
      h.jobs.congr rfl rfl fun _ => rfl,h.log.congr rfl rfl,h.warned⟩
  | cons t ss₂ =>
    have hseg := hf.sub (m,ss₁ ++ t::ss₂) (by simp [h.split])
    have hhs : t ∉ m::ss₁ := by
      have h1 := hnd.1
      rw [← List.cons_append,List.nodup_append] at h1
      exact fun ht => h1.2.2 t ht t (by simp) rfl
    have hd : t ∉ f₁.tasks := fun htd => hnd.2 t (by simp) (by simp [htd])
    rw [if_neg (by simp only [List.mem_cons,not_or] at hhs; simp [nodeAt,hhs.1])] at hst
    cases hst
    refine ⟨m::ss₁ ++ [t],h.split,⟨hg,ss₁ ++ [t],ss₂,f₃,by simp,by simp,Seg.next_mem hseg,?_,
      by simpa using hnr⟩,h.jobs.hand hd hhs rfl rfl rfl,h.log.congr rfl rfl,h.warned⟩
    rw [hk,List.length_append,← Nat.add_assoc]
    exact (BitVec.ofNat_add _ _).symm

theorem AwaitInv.compare {k v : BitVec 64} (h : AwaitInv tf f f₁ f₂ hs r) (hf : Grouped st tf f)
    (hp : r.pc = .compare m k v) (hst : awaitStep st tf r = some r') :
    ∃ f₁ f₂ hs, AwaitInv tf f f₁ f₂ hs r' := by
  have hok := h.await
  simp only [AwaitOk,hp] at hok
  simp only [awaitStep,hp] at hst
  obtain ⟨hg,ss,f₃,rfl,rfl,hk,hnr,hv⟩ := hok
  by_cases hc : v = (r.completion tf).nr
  · rw [if_neg (not_not.mpr hc)] at hst
    cases hst
    have hmain := hf.main
    rw [h.split,Flow.mains,List.map_append,List.map_cons] at hmain
    refine ⟨f₁ ++ [(m,ss)],f₃,[],by simp [h.split],⟨rfl,Seg.next_mem hmain⟩,?_,
      h.log.congr rfl rfl,fun m' => ?_⟩
    · have hj := h.jobs.finish (hv (hc.trans hnr))
      have htasks : Flow.tasks (f₁ ++ [(m,ss)]) = f₁.tasks ++ m::ss := by simp [Flow.tasks]
      rw [htasks]
      exact hj.congr rfl rfl fun _ => rfl
    · have hn := hf.nrSubTask (m,ss) (by simp [h.split])
      simpa [hk,hn] using h.warned m'
  · rw [if_pos hc] at hst
    cases hst
    exact ⟨f₁,(m,ss)::f₃,m::ss,h.split,⟨hg,ss,f₃,rfl,rfl,hk,hnr⟩,
      h.jobs.congr rfl rfl fun _ => rfl,h.log.congr rfl rfl,h.warned⟩

end

theorem AwaitInv.dispatch {W : Type} {st : State} {tf : BitVec 64} {f f₁ f₂ : Flow}
    {hs : List Address} {r r' : Await W} (h : AwaitInv tf f f₁ f₂ hs r) (hf : Grouped st tf f)
    (hst : awaitStep st tf r = some r') : ∃ f₁ f₂ hs, AwaitInv tf f f₁ f₂ hs r' := by
  have hok := h.await
  have hst' := hst
  unfold AwaitOk at hok
  cases hp : r.pc with
  | main pos =>
    simp only [hp] at hok
    simp only [awaitStep,hp] at hst
    obtain ⟨rfl,rfl⟩ := hok
    cases f₂ with
    | nil =>
      rw [if_pos (by rfl)] at hst
      cases hst
      refine ⟨f₁,[],[],h.split,⟨rfl,rfl⟩,h.jobs.congr rfl rfl fun _ => rfl,h.log.congr rfl rfl,
        fun m => ?_⟩
      have hw := h.warned m
      simp only
      split <;> simp [hw]
    | cons p f₃ =>
      rw [if_neg (by simp [nodeAt,Flow.mains])] at hst
      cases hst
      exact ⟨f₁,p::f₃,[],h.split,⟨rfl,p.2,f₃,rfl⟩,h.jobs.congr rfl rfl fun _ => rfl,
        h.log.congr rfl rfl,h.warned⟩
  | initCnt m => exact ⟨_,_,_,h.initCnt hf hp hst⟩
  | initNr m =>
    simp only [hp] at hok
    simp only [awaitStep,hp] at hst
    cases hst
    obtain ⟨rfl,hg,ss,f₃,rfl⟩ := hok
    refine ⟨f₁,(m,ss)::f₃,[],h.split,⟨rfl,hg,ss,f₃,rfl,?_⟩,h.jobs.congr rfl rfl fun _ => rfl,
      h.log.congr rfl (by simp),h.warned⟩
    simpa using hf.nrSubTask (m,ss) (by simp [h.split])
  | schedule m =>
    simp only [hp] at hok
    simp only [awaitStep,hp] at hst
    cases hst
    obtain ⟨rfl,hg,ss,f₃,rfl,hnr⟩ := hok
    have hd : m ∉ f₁.tasks := fun htd =>
      (Flow.nodup_group (h.split ▸ hf.nodup)).2 m (by simp) (by simp [htd])
    have hnext := Seg.next_eq (hf.sub (m,ss) (by simp [h.split]))
    exact ⟨f₁,(m,ss)::f₃,[m],h.split,⟨hg,[],ss,f₃,rfl,rfl,hnext,rfl,hnr⟩,
      h.jobs.hand hd (by simp) rfl rfl rfl,h.log.congr rfl rfl,h.warned⟩
  | sub m pos k => exact ⟨_,_,h.handOver hf hp hst⟩
  | wait m k =>
    simp only [hp] at hok
    simp only [awaitStep,hp] at hst
    cases hst
    obtain ⟨hg,ss,f₃,rfl,rfl,hk,hnr⟩ := hok
    refine ⟨f₁,(m,ss)::f₃,m::ss,h.split,⟨hg,ss,f₃,rfl,rfl,hk,hnr,fun hv => ?_⟩,
      h.jobs.congr rfl rfl fun _ => rfl,h.log.congr rfl rfl,h.warned⟩
    exact h.log.finished hf.nodup (p:=(m,ss)) (by simp [h.split]) hg hv
  | compare m k v => exact h.compare hf hp hst
  | done => simp [awaitStep,hp] at hst

theorem AwaitInv.step (h : AwaitInv tf f f₁ f₂ hs r) (hf : Grouped st tf f) {a : AwaitAct W}
    (hst : stepAwait st tf r a = some r') : ∃ f₁ f₂ hs, AwaitInv tf f f₁ f₂ hs r' := by
  cases a with
  | await => exact h.dispatch hf hst
  | start w t => exact ⟨_,_,_,h.start hf hst⟩
  | ret w => exact ⟨_,_,_,h.ret hf hst⟩
  | complete w => exact ⟨_,_,_,h.complete hf hst⟩

theorem AwaitInv.begin {W : Type} {st : State} {tf : BitVec 64} {f : Flow} (hf : Grouped st tf f)
    (completion : BitVec 64 → Completion) :
    AwaitInv (W:=W) tf f [] f [] (beginAwait st tf completion) := by
  refine ⟨rfl,⟨rfl,Seg.next_eq hf.main⟩,⟨by simp [beginAwait],by simp [beginAwait],?_,fun w => ?_,
    by simp [Flow.tasks],by simp [beginAwait]⟩,⟨?_,?_,?_⟩,by simp [beginAwait]⟩
  · simp [beginAwait,WorkerPc.task]
  · simp [WorkerOk,beginAwait]
  · simp [beginAwait]
  · simp [beginAwait]
  · simp [beginAwait,groupOf]

theorem AwaitInv.barriers {W : Type} {st : State} {tf : BitVec 64} {f f₁ f₂ : Flow}
    {hs : List Address} {r : Await W} (h : AwaitInv tf f f₁ f₂ hs r) (hf : Grouped st tf f) :
    Barriers st tf f r := by
  refine ⟨h.log.ordered,h.log.counted,h.log.cnt,fun hp t => ?_,fun p hp hpc hall => ?_,
    h.await.isSome,h.warned⟩
  · have hok := h.await
    simp only [AwaitOk,hp] at hok
    obtain ⟨rfl,rfl⟩ := hok
    have hsplit : f = f₁ := by simpa using h.split
    split
    next ht => exact h.jobs.finished t (hsplit ▸ ht)
    next ht => exact h.jobs.fresh t (hsplit ▸ ht) (by simp)
  · have hok := h.await
    have hnr : groupOf r.log = some p.1 ∧
        (r.completion tf).nr = BitVec.ofNat 64 (1+p.2.length) := by
      obtain ⟨k,hpc | ⟨v,hpc⟩⟩ := hpc
      all_goals
        simp only [AwaitOk,hpc] at hok
        obtain ⟨hg,ss,f₃,rfl,-,-,hnr⟩ := hok
        have hps : p = (p.1,ss) := Flow.eq_of_mem hf.nodup hp (by simp [h.split]) (t:=p.1)
          (by simp) (by simp)
        rw [hps]
      · exact ⟨hg,hnr⟩
      · exact ⟨hg,hnr.1⟩
    have hcount : (p.1::p.2).countP (fun t => Finished r.log t) = (p.1::p.2).length :=
      List.countP_eq_length.mpr (by simpa using hall)
    rw [h.log.cnt p hp hnr.1,hnr.2,hcount,List.length_cons,Nat.add_comm]

end Dispatcher

/-- The groups of a taskflow are run one after the other, by any number of workers and in
every interleaving. -/
theorem awaitBarriers {st : State} {tf : BitVec 64} {f : Flow} {r : Await W}
    (completion : BitVec 64 → Completion) (hf : Grouped st tf f)
    (hr : Reach (stepAwait st tf) Anything (beginAwait st tf completion) r) :
    Barriers st tf f r := by
  have hi : ∃ f₁ f₂ hs, AwaitInv tf f f₁ f₂ hs r := by
    apply hr.invariant (I:=fun r => ∃ f₁ f₂ hs, AwaitInv tf f f₁ f₂ hs r)
    · exact ⟨[],f,[],.begin hf completion⟩
    · rintro t a u ⟨f₁,f₂,hs,hi⟩ _ hst
      exact hi.step hf hst
  obtain ⟨f₁,f₂,hs,hi⟩ := hi
  exact hi.barriers hf

theorem RoleInv.grouped {tf : TaskflowPtr} {st : State} {f : Flow} (h : RoleInv tf st f) :
    Grouped st tf.addr f := by
  refine ⟨(rings_cons.mp h.wf.2).1,fun p hp => ?_,h.wf.1.tasks_nodup,fun t ht => ?_,
    fun p hp => (h.assigned.groups p hp).1.2.2⟩
  · obtain ⟨f₁,f₂,rfl⟩ := List.append_of_mem hp
    have hr := h.wf.2
    rw [rings_group] at hr
    exact (rings_cons.mp hr).1
  · exact h.wf.1.taskflow t (h.wf.mem_tasks.mp ht)

/-- A group of two tasks and a group of one. -/
def twoGroups : List Op :=
  [.create (some taskA),.subCreate taskA (some taskB),.create (some taskC)]

/-- Two workers; the second one completes before the first, and runs the second group. -/
def awaitRun : List (AwaitAct Bool) :=
  [.await,.await,.await,.await,.start false taskA,.await,.await,.start true taskB,.ret true,
    .complete true,.await,.ret false,.complete false,.await,.await,.await,.await,.await,.await,
    .await,.await,.await,.start true taskC,.ret true,.complete true,.await,.await,.await,.await]

theorem awaitBarriers_twoGroups : ∃ st, exec (step flowPtr) emptyFlow twoGroups = some st ∧
    ∃ r : Await Bool, Reach (stepAwait st flowPtr.addr) Anything
      (beginAwait st flowPtr.addr fun _ => ⟨7,3⟩) r ∧ r.pc = .done ∧
      Barriers st flowPtr.addr [(taskA,[taskB]),(taskC,[])] r := by
  have hs : ∃ st, exec (step flowPtr) emptyFlow twoGroups = some st ∧
      Grouped st flowPtr.addr [(taskA,[taskB]),(taskC,[])] ∧
      ∃ r : Await Bool, exec (stepAwait st flowPtr.addr)
        (beginAwait st flowPtr.addr fun _ => ⟨7,3⟩) awaitRun = some r ∧ r.pc = .done := by
    refine ⟨_,rfl,⟨?_,?_,by decide,?_,?_⟩,_,rfl,rfl⟩
    · simp [Flow.mains,Linked]
      decide
    · simp [Linked]
      decide
    · decide
    · decide
  obtain ⟨st,hst,hf,r,hr,hp⟩ := hs
  exact ⟨st,hst,r,reach_of_exec hr,hp,awaitBarriers _ hf (reach_of_exec hr)⟩

end Taskflow
end Mthpc
