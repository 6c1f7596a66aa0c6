import Mthpc.Address
import Mthpc.ListHead
import Mthpc.StepSystem

/-!
# Taskflow

`src/taskflow/taskflow.c` up to the scheduling of the works. A task has two list heads: by
`list_node` it is linked on the list of the main tasks, by `sub_task_list_head` a main task
heads the list of its sub tasks and a sub task is linked on that list. A call that follows
`NULL`, that takes a list head for part of a task it is not part of, or that does not leave
one of its loops, does not complete and is `none`.
-/
namespace Mthpc
namespace Taskflow

open StepSystem

/-- The list heads: of the taskflow, of the tasks, and the two on the stack of
`__mthpc_taskflow_precede` and `__mthpc_taskflow_succeed`. -/
inductive Node
  | taskflow (tf : BitVec 64)
  | listNode (task : Address)
  | subTaskListHead (task : Address)
  | addingList
  | newAddingList
  deriving DecidableEq

open Node

/-- The fields of `struct mthpc_task` that order the tasks. -/
structure Task where
  isSubTaskParent : BitVec 64
  nrSubTask : BitVec 64
  mainTask : Option Address
  deriving DecidableEq

/-- The address of a taskflow. `mthpc_taskflow_create` stops at an odd one. -/
structure TaskflowPtr where
  addr : BitVec 64
  aligned : addr &&& 1 = 0

/-- All taskflow memory; `created` is a ghost. -/
structure State where
  links : Links Node
  task : Address → Task
  nrTask : BitVec 64 → BitVec 64
  created : List Address

section Flags

/-- `mthpc_is_sub_task`. -/
def isSubTask (w : BitVec 64) : Bool := w.setWidth 32 &&& 1 ≠ 0

/-- `mthpc_set_sub_task`. -/
def setSubTask (w : BitVec 64) : BitVec 64 := w ||| 1

/-- `mthpc_unset_sub_task`. -/
def unsetSubTask (w : BitVec 64) : BitVec 64 := w &&& ~~~1

/-- `mthpc_get_taskflow`. -/
def getTaskflow (w : BitVec 64) : BitVec 64 := w &&& ~~~1

/-- `mthpc_set_taskflow`. -/
def setTaskflow (tf w : BitVec 64) : BitVec 64 := tf ||| if isSubTask w then 1 else 0

theorem isSubTask_eq (w : BitVec 64) : isSubTask w = w.getLsbD 0 := by
  have h : w.setWidth 32 &&& 1 = if w.getLsbD 0 then 1 else 0 := by
    ext i hi
    by_cases hi : i = 0 <;> by_cases hw : w.getLsbD 0 <;>
      simp_all [BitVec.getLsbD_eq_getElem]
  rw [isSubTask,h]
  by_cases hw : w.getLsbD 0 <;> simp [hw]

@[simp] theorem isSubTask_setSubTask (w : BitVec 64) : isSubTask (setSubTask w) = true := by
  simp [isSubTask_eq,setSubTask]

@[simp] theorem isSubTask_unsetSubTask (w : BitVec 64) : isSubTask (unsetSubTask w) = false := by
  simp [isSubTask_eq,unsetSubTask]

@[simp] theorem getTaskflow_setSubTask (w : BitVec 64) :
    getTaskflow (setSubTask w) = getTaskflow w := by
  ext i hi
  by_cases hi : i = 0 <;> simp [getTaskflow,setSubTask,hi]

@[simp] theorem getTaskflow_unsetSubTask (w : BitVec 64) :
    getTaskflow (unsetSubTask w) = getTaskflow w := by
  ext i hi
  by_cases hi : i = 0 <;> simp [getTaskflow,unsetSubTask,hi]

theorem getTaskflow_setTaskflow (tf : TaskflowPtr) (w : BitVec 64) :
    getTaskflow (setTaskflow tf.addr w) = tf.addr := by
  have h0 : tf.addr[0] = false := by
    have h := congrArg (fun v : BitVec 64 => v.getLsbD 0) tf.aligned
    simpa using h
  ext i hi
  rw [getTaskflow,BitVec.getElem_and,BitVec.getElem_not,BitVec.ofNat_eq_ofNat,BitVec.getElem_one]
  by_cases hi : i = 0 <;> by_cases hw : isSubTask w <;> simp_all [setTaskflow]

end Flags

def State.modify (s : State) (t : Address) (f : Task → Task) : State :=
  { s with task := Function.update s.task t (f (s.task t)) }

def State.relink (s : State) (f : Links Node → Links Node) : State := { s with links := f s.links }

section Projections

variable (s : State) (t : Address) (g : Task → Task) (f : Links Node → Links Node)

@[simp] theorem modify_links : (s.modify t g).links = s.links := rfl

@[simp] theorem modify_nrTask : (s.modify t g).nrTask = s.nrTask := rfl

@[simp] theorem modify_created : (s.modify t g).created = s.created := rfl

@[simp] theorem modify_task (u : Address) :
    (s.modify t g).task u = if u = t then g (s.task t) else s.task u := Function.update_apply ..

@[simp] theorem relink_links : (s.relink f).links = f s.links := rfl

@[simp] theorem relink_task : (s.relink f).task = s.task := rfl

@[simp] theorem relink_nrTask : (s.relink f).nrTask = s.nrTask := rfl

@[simp] theorem relink_created : (s.relink f).created = s.created := rfl

end Projections

/-- `container_of(node, struct mthpc_task, list_node)`. -/
def ofListNode : Node → Option Address
  | listNode t => some t
  | _ => none

/-- `container_of(node, struct mthpc_task, sub_task_list_head)`. -/
def ofSubTaskListHead : Node → Option Address
  | subTaskListHead t => some t
  | _ => none

/-- `__mthpc_task_alloc` where `malloc` gives the block at `t`. -/
def taskAlloc (s : State) (tf : BitVec 64) (t : Address) : State where
  links := ListHead.init (ListHead.init s.links (listNode t)) (subTaskListHead t)
  task := Function.update s.task t ⟨setTaskflow tf 0,1,none⟩
  nrTask := Function.update s.nrTask tf (s.nrTask tf+1)
  created := t::s.created

/-- `mthpc_task_create`; `new` is the result of `malloc`. -/
def taskCreate (s : State) (tf : BitVec 64) : Option Address → State
  | none => s
  | some t =>
    ((taskAlloc s tf t).modify t fun k =>
      { k with isSubTaskParent := unsetSubTask k.isSubTaskParent }).relink fun l =>
        ListHead.addTail l (listNode t) (taskflow tf)

/-- `mthpc_sub_task_create`. The check after the allocation is one of `task`. -/
def subTaskCreate (s : State) (task : Address) : Option Address → Option State
  | none => none
  | some t =>
    let s₁ := (taskAlloc s (getTaskflow (s.task task).isSubTaskParent) t).modify t fun k =>
      { k with isSubTaskParent := setSubTask k.isSubTaskParent }
    let s₂ := s₁.relink fun l => ListHead.addTail l (subTaskListHead t) (subTaskListHead task)
    let s₃ := s₂.modify t fun k => { k with mainTask := some task }
    some (s₃.modify task fun k => { k with nrSubTask := k.nrSubTask+1 })

/-- The last line of an iteration of `mthpc_taskflow_rlist_del`. -/
def State.markSub (s : State) (tmp : Address) : State :=
  s.modify tmp fun k => { k with isSubTaskParent := setSubTask k.isSubTaskParent }

/-- The iteration for a sub task `tmp` of `main`. -/
def delSubTask (s : State) (tmp main : Address) : State :=
  let s₁ := s.relink fun l => ListHead.del l (subTaskListHead tmp)
  let s₂ := s₁.modify main fun k => { k with nrSubTask := k.nrSubTask+-1 }
  let s₃ := s₂.modify tmp fun k => { k with mainTask := none }
  (s₃.relink fun l => ListHead.add l (subTaskListHead tmp) addingList).markSub tmp

/-- The iteration for a main task that counts only itself. -/
def delLoneTask (s : State) (tmp : Address) : State :=
  let s₁ := s.relink fun l => ListHead.del l (listNode tmp)
  (s₁.relink fun l => ListHead.addTail l (subTaskListHead tmp) addingList).markSub tmp

/-- The iteration for a main task that hands its list over to `nextHead`. -/
def delMainTask (s : State) (tmp nextHead : Address) : State :=
  let s₁ := s.modify nextHead fun k => { k with nrSubTask := (s.task tmp).nrSubTask+-1 }
  let s₂ := s₁.modify tmp fun k => { k with nrSubTask := 1 }
  let s₃ := s₂.relink fun l => ListHead.del l (subTaskListHead tmp)
  let s₄ := s₃.relink fun l => ListHead.replaceInit l (listNode tmp) (listNode nextHead)
  (s₄.relink fun l => ListHead.add l (subTaskListHead tmp) addingList).markSub tmp

/-- One iteration of `mthpc_taskflow_rlist_del`, for `tmp`. -/
def rlistDelOne (s : State) (tmp : Address) : Option State :=
  if isSubTask (s.task tmp).isSubTaskParent then
    (s.task tmp).mainTask.map fun main => delSubTask s tmp main
  else if (s.task tmp).nrSubTask = 1 then some (delLoneTask s tmp)
  else (ofSubTaskListHead (s.links.next (subTaskListHead tmp))).map fun nextHead =>
    delMainTask s tmp nextHead

/-- `mthpc_list_init(&adding_list)`. -/
def State.begin (s : State) : State := s.relink fun l => ListHead.init l addingList

/-- `mthpc_taskflow_rlist_del(&adding_list, tasks, nr_task)`. -/
def rlistDel (s : State) (tasks : List Address) : Option State :=
  tasks.foldlM rlistDelOne s.begin

/-- The loop that moves the tasks from `sub_task_list_head` to `list_node`. -/
def relinkLoop : ℕ → Links Node → Node → Node → Option (Links Node)
  | 0, _, _, _ => none
  | fuel+1, l, pos, n =>
    if pos = addingList then some l
    else (ofSubTaskListHead pos).bind fun tmp =>
      let l₁ := ListHead.del l (subTaskListHead tmp)
      let l₂ := ListHead.addTail l₁ (listNode tmp) newAddingList
      relinkLoop fuel l₂ n (l₂.next n)

def State.promote (s : State) (new : Address) (nrTask : ℕ) : State :=
  s.modify new fun k =>
    { k with
      isSubTaskParent := unsetSubTask k.isSubTaskParent
      nrSubTask := BitVec.ofNat 64 nrTask }

/-- The first branch of both functions: the tasks become main tasks, and `splice` puts them on
the main list. -/
def newMainTask (fuel : ℕ) (s : State) (nrTask : ℕ) (splice : Links Node → Links Node) :
    Option State :=
  (ofSubTaskListHead (s.links.next addingList)).bind fun new =>
    let s₁ := s.promote new nrTask
    let l := ListHead.init s₁.links newAddingList
    (relinkLoop fuel l (l.next addingList) (l.next (l.next addingList))).map fun l' =>
      s₁.relink fun _ => splice l'

def State.setMainTask (s : State) (tasks : List Address) (main : Address) : State :=
  tasks.foldl (fun u curr => u.modify curr fun k => { k with mainTask := some main }) s

/-- The other branch of both: the tasks become sub tasks of `main`. -/
def joinMainTask (fuel : ℕ) (s : State) (nrTask : ℕ) (main : Address)
    (splice : Links Node → Links Node) : Option State :=
  (ListHead.forEach s.links addingList fuel (s.links.next addingList)).bind fun nodes =>
    (nodes.mapM ofSubTaskListHead).map fun tasks =>
      ((s.setMainTask tasks main).relink splice).modify main fun k =>
        { k with nrSubTask := k.nrSubTask+BitVec.ofNat 64 nrTask }

/-- `__mthpc_taskflow_precede` after `mthpc_taskflow_rlist_del`. -/
def addBefore (fuel : ℕ) (s : State) (tf : BitVec 64) (task : Address) (nrTask : ℕ) :
    Option State :=
  if s.links.prev (listNode task) = taskflow tf then
    newMainTask fuel s nrTask fun l => ListHead.spliceTail l newAddingList (listNode task)
  else (ofListNode (s.links.prev (listNode task))).bind fun prevTask =>
    joinMainTask fuel s nrTask prevTask fun l =>
      ListHead.spliceTail l addingList (subTaskListHead prevTask)

/-- `__mthpc_taskflow_succeed` after `mthpc_taskflow_rlist_del`. -/
def addAfter (fuel : ℕ) (s : State) (tf : BitVec 64) (task : Address) (nrTask : ℕ) :
    Option State :=
  if s.links.next (listNode task) = taskflow tf then
    newMainTask fuel s nrTask fun l => ListHead.splice l newAddingList (listNode task)
  else (ofListNode (s.links.next (listNode task))).bind fun nextTask =>
    joinMainTask fuel s nrTask nextTask fun l =>
      ListHead.splice l addingList (subTaskListHead nextTask)

@[simp] theorem setMainTask_links (s : State) (ts : List Address) (m : Address) :
    (s.setMainTask ts m).links = s.links := by
  induction ts generalizing s with
  | nil => rfl
  | cons t ts ih => exact ih _

@[simp] theorem setMainTask_nrTask (s : State) (ts : List Address) (m : Address) :
    (s.setMainTask ts m).nrTask = s.nrTask := by
  induction ts generalizing s with
  | nil => rfl
  | cons t ts ih => exact ih _

@[simp] theorem setMainTask_created (s : State) (ts : List Address) (m : Address) :
    (s.setMainTask ts m).created = s.created := by
  induction ts generalizing s with
  | nil => rfl
  | cons t ts ih => exact ih _

@[simp] theorem setMainTask_task (s : State) (ts : List Address) (m t : Address) :
    (s.setMainTask ts m).task t =
      if t ∈ ts then { s.task t with mainTask := some m } else s.task t := by
  induction ts generalizing s with
  | nil => simp [State.setMainTask]
  | cons x ts ih =>
    rw [State.setMainTask,List.foldl_cons,← State.setMainTask,ih]
    by_cases hx : t = x <;> by_cases ht : t ∈ ts <;> simp_all

/-- `task`, or its main task where it is a sub task. -/
def mainOf (s : State) (task : Address) : Option Address :=
  if isSubTask (s.task task).isSubTaskParent then (s.task task).mainTask else some task

/-- `__mthpc_taskflow_precede`. -/
def precede (fuel : ℕ) (s : State) (task : Address) (news : List Address) : Option State :=
  if news = [] then some s
  else (mainOf s task).bind fun main => (rlistDel s news).bind fun u =>
    addBefore fuel u (getTaskflow (s.task task).isSubTaskParent) main news.length

/-- `__mthpc_taskflow_succeed`. -/
def succeed (fuel : ℕ) (s : State) (task : Address) (news : List Address) : Option State :=
  if news = [] then some s
  else (mainOf s task).bind fun main => (rlistDel s news).bind fun u =>
    addAfter fuel u (getTaskflow (s.task task).isSubTaskParent) main news.length

def mainTasks (fuel : ℕ) (s : State) (tf : BitVec 64) : Option (List Address) :=
  (ListHead.forEach s.links (taskflow tf) fuel (s.links.next (taskflow tf))).bind fun nodes =>
    nodes.mapM ofListNode

/-- The tasks linked on the sub task list of `main`, if the walk ends. -/
def subTasks (fuel : ℕ) (s : State) (main : Address) : Option (List Address) :=
  (ListHead.forEach s.links (subTaskListHead main) fuel
    (s.links.next (subTaskListHead main))).bind fun nodes => nodes.mapM ofSubTaskListHead

/-- The tasks in the order in which `mthpc_taskflow_await` schedules them. -/
def awaitWalk (fuel : ℕ) (s : State) (tf : BitVec 64) : Option (List Address) :=
  (mainTasks fuel s tf).bind fun mains =>
    (mains.mapM fun m => (subTasks fuel s m).map fun ts => m::ts).map List.flatten

/-- The calls on one taskflow. `new` is the result of `malloc`, and `fuel` bounds the loops. -/
inductive Op
  | create (new : Option Address)
  | subCreate (task : Address) (new : Option Address)
  | precede (task : Address) (news : List Address) (fuel : ℕ)
  | succeed (task : Address) (news : List Address) (fuel : ℕ)

/-- What the callers of `precede` and `succeed` pass; the length is an `int`. -/
def Batch (s : State) (task : Address) (news : List Address) : Prop :=
  task ∈ s.created ∧ (∀ n ∈ news, n ∈ s.created) ∧ news.Nodup ∧ task ∉ news ∧
    news.length < 2^31

instance (s : State) (task : Address) (news : List Address) : Decidable (Batch s task news) := by
  unfold Batch; infer_instance

def Fresh (s : State) (new : Option Address) : Prop := ∀ t ∈ new, t ∉ s.created

instance (s : State) (new : Option Address) : Decidable (Fresh s new) := by
  unfold Fresh; infer_instance

/-- One call. -/
def step (tf : TaskflowPtr) (s : State) : Op → Option State
  | .create new => if Fresh s new then some (taskCreate s tf.addr new) else none
  | .subCreate task new =>
      if task ∈ s.created ∧ Fresh s new then subTaskCreate s task new else none
  | .precede task news fuel => if Batch s task news then precede fuel s task news else none
  | .succeed task news fuel => if Batch s task news then succeed fuel s task news else none

/-- `mthpc_taskflow_create` in memory of arbitrary contents. -/
def taskflowCreate (tf : TaskflowPtr) (links : Links Node) (task : Address → Task)
    (nrTask : BitVec 64 → BitVec 64) : State where
  links := ListHead.init links (taskflow tf.addr)
  task := task
  nrTask := Function.update nrTask tf.addr 0
  created := []

end Taskflow
end Mthpc
