import Mthpc.RcuThread
import Mthpc.SafePtrNodes
import Mthpc.Taskflow
import Mthpc.WorkqueuePools

/-!
# Calls in which malloc fails

Six functions of the library, one whole call at a time on the state of its four parts.
`mthpc_sub_task_create` checks the wrong pointer after its allocation,
`mthpc_safe_ptr_create` and `mthpc_safe_ptr_store` go on without a control block, and a thread
that `mthpc_rcu_thread_init` could not register enters its read-side section all the same.
-/
namespace Mthpc
namespace AllocFailure

open StepSystem Links
open Workqueue (Actor)

variable {ι W : Type} [DecidableEq ι] [DecidableEq W]

section Schedule

variable (a : Actor ι) (mem : Option Workqueue.Word) (here : Workqueue.Word)

/-- The rest of a call that is not interrupted. -/
def finishCall : ℕ → Workqueue.State ι W → Option (Workqueue.State ι W)
  | 0, _ => none
  | fuel+1, s =>
    if s.pc a = .idle then some s
    else (Workqueue.go s a mem here (s.pc a)).bind (finishCall fuel)

/-- `__mthpc_schedule_work_on`. -/
def scheduleWorkOn (fuel : ℕ) (s : Workqueue.State ι W) (c : Workqueue.Call W) :
    Option (Workqueue.State ι W) :=
  (Workqueue.step s (.call a c)).bind (finishCall a mem here fuel)

end Schedule

/-- The registry of the threads; their ids are the values of `pthread_self()`. -/
def threadConfig (id : Actor ι → BitVec 64) : RcuRegistry.Config (Actor ι) := ⟨.thread,id⟩

/-- `mthpc_rcu_read_lock` up to the first access to the node. -/
def readLock (id : Actor ι → BitVec 64) (fuel : ℕ) (r : RcuRegistry.State (Actor ι)) (a : Actor ι)
    (node : Option Address) : Option (RcuRegistry.State (Actor ι)) :=
  (RcuRegistry.threadInit (threadConfig id) fuel r a node).bind fun r' =>
    if r'.ptr a = none then none else some r'

structure Library (ι W : Type) where
  tasks : Taskflow.State
  safe : SafePtr.State
  works : Workqueue.State ι W
  threads : RcuRegistry.State (Actor ι)

/-- The calls with the results of their `malloc`. -/
inductive Call (ι W : Type)
  | taskCreate (new : Option Address)
  | subTaskCreate (task : Address) (new : Option Address)
  | safePtrCreate (a : Address) (data dtor : BitVec 64) (prior : SafePtr.Sp)
      (cbAlloc nodeAlloc : Bool)
  | safePtrStore (a : Address) (data dtor : BitVec 64) (cbAlloc nodeAlloc : Bool)
  | scheduleWorkOn (a : Actor ι) (c : Workqueue.Call W) (node : Option Address)
      (mem : Option Workqueue.Word) (here : Workqueue.Word)
  | rcuThreadInit (a : Actor ι) (node : Option Address)

/-- One call; `none` where it follows `NULL` or where `fuel` does not do. -/
def run (tf : Taskflow.TaskflowPtr) (id : Actor ι → BitVec 64) (fuel : ℕ) (l : Library ι W) :
    Call ι W → Option (Library ι W)
  | .taskCreate new =>
    (Taskflow.step tf l.tasks (.create new)).map fun s => { l with tasks := s }
  | .subTaskCreate task new =>
    (Taskflow.step tf l.tasks (.subCreate task new)).map fun s => { l with tasks := s }
  | .safePtrCreate a data dtor prior cbAlloc nodeAlloc =>
    (SafePtr.step l.safe (.create a data dtor prior cbAlloc nodeAlloc)).map fun s =>
      { l with safe := s }
  | .safePtrStore a data dtor cbAlloc nodeAlloc =>
    (SafePtr.step l.safe (.store a data dtor cbAlloc nodeAlloc)).map fun s => { l with safe := s }
  | .scheduleWorkOn a c node mem here =>
    (readLock id fuel l.threads a node).bind fun r =>
      (scheduleWorkOn a mem here fuel l.works c).map fun s =>
        { l with
          works := s
          threads := r }
  | .rcuThreadInit a node =>
    (RcuRegistry.threadInit (threadConfig id) fuel l.threads a node).map fun r =>
      { l with threads := r }

/-- Each part is in a state that one of its runs reaches. -/
structure Reachable (tf : Taskflow.TaskflowPtr) (id : Actor ι → BitVec 64) (l : Library ι W) :
    Prop where
  tasks : ∃ links task nrTask,
    Reach (Taskflow.step tf) Anything (Taskflow.taskflowCreate tf links task nrTask) l.tasks
  safe : Reach SafePtr.step Anything SafePtr.init l.safe
  works : Reach Workqueue.step Anything (Workqueue.init ι W) l.works
  threads : ∃ next node allocated ptr, Reach (RcuRegistry.step (threadConfig id)) Anything
    (RcuRegistry.init (threadConfig id) next node allocated ptr) l.threads

/-- Who calls: a parent task that exists, a safe_ptr that begins or lives, a thread outside of
these calls. `malloc` gives no block that is allocated. -/
def Callable (l : Library ι W) : Call ι W → Prop
  | .taskCreate _ => True
  | .subTaskCreate task _ => task ∈ l.tasks.created
  | .safePtrCreate a _ _ _ _ _ => a ∉ l.safe.live
  | .safePtrStore a _ _ _ _ => a ∈ l.safe.live
  | .scheduleWorkOn a _ node _ _ => Workqueue.mayCall l.works a ∧ l.threads.pc a = .idle ∧
      ∀ n ∈ node, n ∉ l.threads.allocated
  | .rcuThreadInit a node => l.threads.pc a = .idle ∧ ∀ n ∈ node, n ∉ l.threads.allocated

def Misses (s : Workqueue.State ι W) (c : Workqueue.Call W) : Prop :=
  ∀ qs : List ℕ, Seg s.links (.pool c.wp) (qs.map .queue) (.pool c.wp) →
    ∀ q ∈ qs, ¬ Workqueue.onCpu c.cpu (s.cpuOf q)

/-- A `malloc` of the call returns `NULL`. -/
def Fails (l : Library ι W) : Call ι W → Prop
  | .taskCreate new => new = none
  | .subTaskCreate _ new => new = none
  | .safePtrCreate _ _ _ _ cbAlloc nodeAlloc => cbAlloc = false ∨ nodeAlloc = false
  | .safePtrStore _ _ _ cbAlloc nodeAlloc => cbAlloc = false ∨ nodeAlloc = false
  | .scheduleWorkOn a c node mem _ =>
    l.threads.ptr a = none ∧ node = none ∨ mem = none ∧ Misses l.works c
  | .rcuThreadInit a node => l.threads.ptr a = none ∧ node = none

/-- The heads of the lists: of the pools, and of the workqueues that are allocated. -/
def IsList (s : Workqueue.State ι W) : Workqueue.Node W → Prop
  | .pool _ => True
  | .works q => s.live q = true
  | _ => False

/-- The nodes that the pointers of the lists lead to, whether or not they form rings. -/
inductive Listed (s : Workqueue.State ι W) : Workqueue.Node W → Prop
  | head {x : Workqueue.Node W} : IsList s x → Listed s x
  | next {x : Workqueue.Node W} : Listed s x → Listed s (s.links.next x)
  | prev {x : Workqueue.Node W} : Listed s x → Listed s (s.links.prev x)

/-- What was there before is as it was before. -/
structure Kept (l l' : Library ι W) : Prop where
  tasks : l'.tasks = l.tasks
  lists : ∀ x, Listed l.works x → l'.works.links.next x = l.works.links.next x ∧
    l'.works.links.prev x = l.works.links.prev x
  count : l'.works.count = l.works.count
  poolLock : l'.works.lock = l.works.lock
  wq : l'.works.wq = l.works.wq
  live : l'.works.live = l.works.live
  cb : ∀ c < l.safe.nextCb, l'.safe.cb c = l.safe.cb c
  node : ∀ n < l.safe.nextNode, l'.safe.node n = l.safe.node n
  prevCb : ∀ a ∈ l.safe.live, (l'.safe.sp a).cb = (l.safe.sp a).cb
  threads : ∀ ns, l.threads.cells.Path l.threads.cells.head ns →
    l'.threads.cells.Path l'.threads.cells.head ns ∧
      ∀ n ∈ ns, l'.threads.node n = l.threads.node n

/-- A node with the id of the thread, in its 32 bits, is registered. -/
def HasId (id : Actor ι → BitVec 64) (r : RcuRegistry.State (Actor ι)) (a : Actor ι) : Prop :=
  ∃ z, r.cells.Reaches r.cells.head z ∧ (r.node z).id = (RcuRegistry.uint (id a)).setWidth 64

/-- No list leads to the node of the work, or it points to itself already. -/
def Unlinked (s : Workqueue.State ι W) (w : W) : Prop :=
  Listed s (.work w) → s.links.next (.work w) = .work w ∧ s.links.prev (.work w) = .work w

/-- Where a call that runs out of memory leaves everything as it was. -/
def Atomic (id : Actor ι → BitVec 64) (l : Library ι W) : Call ι W → Prop
  | .taskCreate _ | .rcuThreadInit _ _ => True
  | .subTaskCreate _ _ | .safePtrStore _ _ _ _ _ => False
  | .safePtrCreate _ _ _ _ cbAlloc nodeAlloc => cbAlloc = true ∨ nodeAlloc = false
  | .scheduleWorkOn a c node _ _ =>
    (l.threads.ptr a ≠ none ∨ node ≠ none ∧ HasId id l.threads a) ∧ Unlinked l.works c.work

section Works

variable {s s' t : Workqueue.State ι W} {a : Actor ι} {mem : Option Workqueue.Word}
  {here : Workqueue.Word} {c : Workqueue.Call W} {fuel : ℕ} {l l' : Library ι W}

theorem finishCall_unique {k : ℕ} (h : finishCall a mem here fuel s = some s')
    (h' : finishCall a mem here k s = some t) : s' = t := by
  induction fuel generalizing k s with
  | zero => cases h
  | succ fuel ih =>
    cases k with
    | zero => cases h'
    | succ k =>
      rw [finishCall] at h h'
      by_cases hp : s.pc a = .idle
      · rw [if_pos hp] at h h'
        cases h
        exact Option.some.inj h'
      · rw [if_neg hp] at h h'
        obtain ⟨u,hu,h⟩ := Option.bind_eq_some_iff.mp h
        rw [hu] at h'
        exact ih h h'

theorem finishCall_go {p : Workqueue.Pc W} (hp : s.pc a = p) (hidle : p ≠ .idle)
    (hgo : Workqueue.go s a mem here p = some t) :
    finishCall a mem here (fuel+1) s = finishCall a mem here fuel t := by
  subst hp
  rw [finishCall,if_neg hidle,hgo,Option.bind_some]

/-- What a call without memory changes: the links of its own work. -/
structure Missed (s s' : Workqueue.State ι W) (w : W) : Prop where
  links : s'.links = ListHead.init s.links (.work w)
  count : s'.count = s.count
  lock : s'.lock = s.lock
  wq : s'.wq = s.wq
  live : s'.live = s.live

theorem finish_leave {w : W} (hm : Missed t s w) (hp : s.pc a = .leave c none) (hf : 2 < fuel) :
    ∃ s', finishCall a none here fuel s = some s' ∧ Missed t s' w := by
  obtain ⟨k,rfl⟩ : ∃ k, fuel = k+1+1+1 := ⟨fuel-3,by omega⟩
  rw [finishCall_go hp (by rintro ⟨⟩) rfl]
  rw [finishCall_go (p:=.alloc c) (Function.update_self ..) (by rintro ⟨⟩) rfl]
  refine ⟨_,if_pos (Function.update_self ..),?_⟩
  exact ⟨hm.links,hm.count,hm.lock,hm.wq,hm.live⟩

theorem finish_walk {w : W} {qs : List ℕ} {x : Workqueue.Node W} (hm : Missed t s w)
    (hp : s.pc a = .walk c (s.links.next x)) (hs : Seg s.links x (qs.map .queue) (.pool c.wp))
    (hq : ∀ q ∈ qs, ¬ Workqueue.onCpu c.cpu (Workqueue.getCpu (t.wq q).activedCpu))
    (hf : qs.length+3 < fuel) : ∃ s', finishCall a none here fuel s = some s' ∧ Missed t s' w := by
  induction qs generalizing s x fuel with
  | nil =>
    obtain ⟨k,rfl⟩ : ∃ k, fuel = k+1 := ⟨fuel-1,by omega⟩
    have hpool : s.links.next x = .pool c.wp := (seg_nil.mp hs).1
    have hgo : Workqueue.go s a none here (.walk c (s.links.next x)) =
        some (s.goto a (.leave c none)) := by
      rw [hpool]
      exact if_pos rfl
    rw [finishCall_go hp (by rintro ⟨⟩) hgo]
    refine finish_leave (c:=c) ⟨hm.links,hm.count,hm.lock,hm.wq,hm.live⟩ ?_ (by simp at hf; omega)
    exact Function.update_self ..
  | cons q qs ih =>
    obtain ⟨k,rfl⟩ : ∃ k, fuel = k+1 := ⟨fuel-1,by omega⟩
    obtain ⟨hlink,hrest⟩ := seg_cons.mp hs
    have hnext : s.links.next x = .queue q := hlink.1
    have hcpu : ¬ Workqueue.onCpu c.cpu (s.cpuOf q) := by
      rw [Workqueue.State.cpuOf,hm.wq]
      exact hq q List.mem_cons_self
    have hgo : Workqueue.go s a none here (.walk c (s.links.next x)) =
        some (s.goto a (.walk c (s.links.next (.queue q)))) := by
      rw [hnext,Workqueue.go,Workqueue.walk,if_neg (by rintro ⟨⟩)]
      exact if_neg hcpu
    rw [finishCall_go hp (by rintro ⟨⟩) hgo]
    refine ih (x:=.queue q) ⟨hm.links,hm.count,hm.lock,hm.wq,hm.live⟩ ?_ hrest
      (fun r hr => hq r (List.mem_cons_of_mem _ hr)) (by simp at hf; omega)
    exact Function.update_self ..

theorem scheduleWorkOn_missed (here : Workqueue.Word)
    (hr : Reach Workqueue.step Anything (Workqueue.init ι W) s)
    (hcall : Workqueue.mayCall s a) (hmiss : Misses s c) : ∃ k, ∀ fuel, k < fuel →
      ∃ s', scheduleWorkOn a none here fuel s c = some s' ∧ Missed s s' c.work := by
  obtain ⟨qs,fs,hinv⟩ : ∃ qs fs, Workqueue.PoolInv s qs fs := by
    refine hr.invariant (I:=fun s => ∃ qs fs, Workqueue.PoolInv s qs fs)
      ⟨_,_,Workqueue.PoolInv.init⟩ ?_
    rintro t act u ⟨qs,fs,hi⟩ - hst
    exact ⟨_,_,hi.step hst⟩
  refine ⟨(qs c.wp).length+6,fun fuel hf => ?_⟩
  obtain ⟨k,rfl⟩ : ∃ k, fuel = k+1+1+1 := ⟨fuel-3,by omega⟩
  have hring := hinv.ring c.wp
  have hidle : s.pc a = .idle := (Workqueue.mayCall_pc hcall).2
  rw [scheduleWorkOn,Workqueue.step,guarded,if_pos hcall,Option.bind_some]
  rw [finishCall_go (p:=.init c) (Function.update_self ..) (by rintro ⟨⟩) rfl]
  rw [finishCall_go (p:=.enter c) (Function.update_self ..) (by rintro ⟨⟩) rfl]
  rw [finishCall_go (p:=.first c) (Function.update_self ..) (by rintro ⟨⟩) rfl]
  refine finish_walk (c:=c) (x:=.pool c.wp) (t:=s) ⟨rfl,rfl,rfl,rfl,rfl⟩
    (Function.update_self ..) ?_ (hmiss _ hring) (by omega)
  refine hring.congr (fun z hz => ?_) fun z hz => ?_
  · refine (ListHead.init_next).trans (if_neg ?_)
    rintro rfl
    simp at hz
  · refine (ListHead.init_prev).trans (if_neg ?_)
    rintro rfl
    simp at hz

end Works

section SafePtrs

open SafePtr (Sp)

variable {s t : SafePtr.State} {a : Address} {data dtor : BitVec 64} {prior : Sp}
  {cbAlloc nodeAlloc : Bool}

/-- Without memory for the node a new safe_ptr changes nothing that is there, but for the
counter of the ids. -/
theorem create_same (data dtor : BitVec 64) (prior : Sp) (cbAlloc : Bool) (ha : a ∉ s.live) :
    ∃ t, SafePtr.step s (.create a data dtor prior cbAlloc false) = some t ∧
      (∀ c < s.nextCb, t.cb c = s.cb c) ∧ (∀ n < s.nextNode, t.node n = s.node n) ∧
        (∀ b ∈ s.live, (t.sp b).cb = (s.sp b).cb) ∧ t.rcuCnt = s.rcuCnt+1 := by
  have hne : ∀ b ∈ s.live, b ≠ a := fun b hb he => ha (he ▸ hb)
  simp only [SafePtr.step]
  rw [if_pos ha]
  cases cbAlloc with
  | false =>
    refine ⟨_,rfl,fun _ _ => rfl,fun _ _ => rfl,fun b hb => ?_,rfl⟩
    simp [SafePtr.cbStore,SafePtr.takeId,SafePtr.State.begin,hne b hb]
  | true =>
    refine ⟨_,rfl,fun c hc => Function.update_of_ne hc.ne _ _,fun _ _ => rfl,fun b hb => ?_,rfl⟩
    simp [SafePtr.cbStore,SafePtr.takeId,SafePtr.State.begin,hne b hb]

/-- Without a control block, but with memory for the node, `mthpc_rcu_add` follows `NULL`. -/
theorem create_null : SafePtr.step s (.create a data dtor prior false true) = none := by
  simp only [SafePtr.step]
  by_cases ha : a ∉ s.live
  · rw [if_pos ha]
    rfl
  · rw [if_neg ha]

/-- A store that completes has put another control block, or none, into its safe_ptr. -/
theorem store_replaces (hr : SafePtr.Refers s)
    (hst : SafePtr.step s (.store a data dtor cbAlloc nodeAlloc) = some t) :
    a ∈ s.live ∧ (t.sp a).cb ≠ (s.sp a).cb := by
  simp only [SafePtr.step] at hst
  by_cases ha : a ∈ s.live
  · rw [if_pos ha] at hst
    obtain ⟨d,hd,hagree⟩ := SafePtr.store_agree hst
    refine ⟨ha,?_⟩
    rw [hagree.owner,hd]
    have hlt := hr a ha d hd
    cases cbAlloc with
    | false => simp [SafePtr.cbStore,SafePtr.cbCreate]
    | true => simp [SafePtr.cbStore,SafePtr.cbCreate,hlt.ne']
  · rw [if_neg ha] at hst
    cases hst

end SafePtrs

section Calls

variable {tf : Taskflow.TaskflowPtr} {id : Actor ι → BitVec 64} {l l' : Library ι W}
  {call : Call ι W} {fuel : ℕ}

theorem Kept.refl {ι W : Type} (l : Library ι W) : Kept l l :=
  ⟨rfl,fun _ _ => ⟨rfl,rfl⟩,rfl,rfl,rfl,rfl,fun _ _ => rfl,fun _ _ => rfl,fun _ _ => rfl,
    fun _ h => ⟨h,fun _ _ => rfl⟩⟩

theorem Kept.ofSafe {ι W : Type} {l : Library ι W} {s : SafePtr.State}
    (hcb : ∀ c < l.safe.nextCb, s.cb c = l.safe.cb c)
    (hnode : ∀ n < l.safe.nextNode, s.node n = l.safe.node n)
    (hprev : ∀ b ∈ l.safe.live, (s.sp b).cb = (l.safe.sp b).cb) : Kept l { l with safe := s } :=
  ⟨rfl,fun _ _ => ⟨rfl,rfl⟩,rfl,rfl,rfl,rfl,hcb,hnode,hprev,fun _ h => ⟨h,fun _ _ => rfl⟩⟩

theorem Kept.ofMissed {ι W : Type} [DecidableEq W] {l : Library ι W} {s : Workqueue.State ι W}
    {r : RcuRegistry.State (Actor ι)} {w : W} (hm : Missed l.works s w) (hw : Unlinked l.works w)
    (hr : ∀ ns, l.threads.cells.Path l.threads.cells.head ns →
      r.cells.Path r.cells.head ns ∧ ∀ n ∈ ns, r.node n = l.threads.node n) :
    Kept l { l with
      works := s
      threads := r } := by
  refine ⟨rfl,fun x hx => ?_,hm.count,hm.lock,hm.wq,hm.live,fun _ _ => rfl,fun _ _ => rfl,
    fun _ _ => rfl,hr⟩
  show s.links.next x = _ ∧ s.links.prev x = _
  rw [hm.links,ListHead.init_next,ListHead.init_prev]
  by_cases he : x = .work w
  · subst he
    obtain ⟨hnext,hprev⟩ := hw hx
    rw [if_pos rfl,if_pos rfl,hnext,hprev]
    exact ⟨rfl,rfl⟩
  · rw [if_neg he,if_neg he]
    exact ⟨rfl,rfl⟩

theorem unlinked_of_kept {ι W : Type} [DecidableEq W] {l : Library ι W} {s : Workqueue.State ι W}
    {w : W} (hm : Missed l.works s w) (hk : ∀ x, Listed l.works x →
      s.links.next x = l.works.links.next x ∧ s.links.prev x = l.works.links.prev x) :
    Unlinked l.works w := by
  intro hw
  obtain ⟨hnext,hprev⟩ := hk _ hw
  rw [hm.links,ListHead.init_next,if_pos rfl] at hnext
  rw [hm.links,ListHead.init_prev,if_pos rfl] at hprev
  exact ⟨hnext.symm,hprev.symm⟩

theorem listInv_of_reachable (h : Reachable tf id l) : ∃ ns, RcuRegistry.ListInv l.threads ns := by
  obtain ⟨next,node,allocated,ptr,hr⟩ := h.threads
  exact RcuRegistry.listInv_of_reach hr

theorem readLock_some {r : RcuRegistry.State (Actor ι)} {a : Actor ι} {node : Option Address}
    (h : Reachable tf id l) (hpc : l.threads.pc a = .idle)
    (hr : readLock id fuel l.threads a node = some r)
    (hk : ∀ ns, l.threads.cells.Path l.threads.cells.head ns → r.cells.Path r.cells.head ns) :
    l.threads.ptr a ≠ none ∨ node ≠ none ∧ HasId id l.threads a := by
  obtain ⟨ns,hi⟩ := listInv_of_reachable h
  by_cases hp : l.threads.ptr a = none
  · right
    obtain ⟨r',hr',hread⟩ := Option.bind_eq_some_iff.mp hr
    cases node with
    | none =>
      rw [RcuRegistry.threadInit_none rfl hpc hp] at hr'
      cases hr'
      rw [if_pos hp] at hread
      cases hread
    | some n =>
      have hrr : r' = r := by
        by_cases hn : r'.ptr a = none
        · rw [if_pos hn] at hread
          cases hread
        · rw [if_neg hn] at hread
          exact Option.some.inj hread
      subst hrr
      obtain ⟨⟨z,hz,hid⟩,_⟩ | ⟨_,hi'⟩ := RcuRegistry.threadInit_some hi hp hr'
      · exact ⟨by rintro ⟨⟩,z,hi.path.reaches_of_mem hz,hid⟩
      -- one more node is on the list
      · have hlen := congrArg List.length ((hk ns hi.path).unique hi'.path)
        rw [List.length_append,List.length_singleton] at hlen
        omega
  · exact .inl hp

theorem readLock_completes {a : Actor ι} {node : Option Address} (h : Reachable tf id l)
    (hpc : l.threads.pc a = .idle) (hn : ∀ n ∈ node, n ∉ l.threads.allocated)
    (hok : l.threads.ptr a ≠ none ∨ node ≠ none ∧ HasId id l.threads a) :
    ∃ k, ∀ fuel, k < fuel → ∃ r, readLock id fuel l.threads a node = some r ∧
      ∀ ns, l.threads.cells.Path l.threads.cells.head ns →
        r.cells.Path r.cells.head ns ∧ ∀ n ∈ ns, r.node n = l.threads.node n := by
  by_cases hp : l.threads.ptr a = none
  · obtain ⟨hsome,z,hz,hid⟩ := hok.resolve_left (not_not.mpr hp)
    obtain ⟨n,rfl⟩ := Option.ne_none_iff_exists'.mp hsome
    obtain ⟨ns,hi⟩ := listInv_of_reachable h
    refine ⟨ns.length,fun fuel hf => ?_⟩
    obtain ⟨r,hr⟩ :=
      RcuRegistry.threadInit_completes (c:=threadConfig id) rfl hi hpc hp (hn n rfl) hf
    obtain ⟨_,hi',hsame,hptr⟩ | ⟨hids,_⟩ := RcuRegistry.threadInit_some hi hp hr
    · refine ⟨r,?_,fun ms hms => ?_⟩
      · rw [readLock,hr,Option.bind_some,if_neg hptr]
      · obtain rfl := hms.unique hi.path
        exact ⟨hi'.path,hsame⟩
    · exact absurd hid (hids z (hi.path.reaches hz))
  · refine ⟨0,fun fuel _ => ⟨l.threads,?_,fun _ hns => ⟨hns,fun _ _ => rfl⟩⟩⟩
    rw [readLock,RcuRegistry.threadInit_registered hp,Option.bind_some,if_neg hp]

theorem schedule_kept_iff {a : Actor ι} {c : Workqueue.Call W} {node : Option Address}
    {mem : Option Workqueue.Word} {here : Workqueue.Word} (h : Reachable tf id l)
    (hcall : Callable l (.scheduleWorkOn a c node mem here))
    (hfail : Fails l (.scheduleWorkOn a c node mem here)) :
    (∃ fuel l', run tf id fuel l (.scheduleWorkOn a c node mem here) = some l' ∧ Kept l l') ↔
      Atomic id l (.scheduleWorkOn a c node mem here) := by
  obtain ⟨hmay,hpc,hn⟩ := hcall
  -- a thread that got its node fails at the workqueue
  have hmiss : l.threads.ptr a ≠ none ∨ node ≠ none ∧ HasId id l.threads a →
      mem = none ∧ Misses l.works c := by
    intro hok
    rcases hfail with ⟨hp,hnode⟩ | hmiss
    · rcases hok with hok | ⟨hok,_⟩
      · exact absurd hp hok
      · exact absurd hnode hok
    · exact hmiss
  constructor
  · rintro ⟨fuel,l',hrun,hk⟩
    obtain ⟨r,hr,hrun⟩ := Option.bind_eq_some_iff.mp hrun
    obtain ⟨s,hs,rfl⟩ := Option.map_eq_some_iff.mp hrun
    have hok := readLock_some h hpc hr fun ns hns => (hk.threads ns hns).1
    obtain ⟨rfl,hmisses⟩ := hmiss hok
    obtain ⟨k,hmissed⟩ := scheduleWorkOn_missed here h.works hmay hmisses
    obtain ⟨s',hs',hm⟩ := hmissed (k+1) (Nat.lt_succ_self k)
    obtain ⟨u,hu,hs⟩ := Option.bind_eq_some_iff.mp hs
    obtain ⟨u',hu',hs'⟩ := Option.bind_eq_some_iff.mp hs'
    rw [hu] at hu'
    cases hu'
    obtain rfl := finishCall_unique hs hs'
    exact ⟨hok,unlinked_of_kept hm hk.lists⟩
  · rintro ⟨hok,hw⟩
    obtain ⟨rfl,hmisses⟩ := hmiss hok
    obtain ⟨k,hmissed⟩ := scheduleWorkOn_missed here h.works hmay hmisses
    obtain ⟨k',hread⟩ := readLock_completes h hpc hn hok
    obtain ⟨s,hs,hm⟩ := hmissed (k+k'+1) (by omega)
    obtain ⟨r,hr,hkeep⟩ := hread (k+k'+1) (by omega)
    refine ⟨k+k'+1,{ l with
      works := s
      threads := r },?_,.ofMissed hm hw hkeep⟩
    rw [run,hr,Option.bind_some,hs,Option.map_some]

theorem create_kept_iff {a : Address} {data dtor : BitVec 64} {prior : SafePtr.Sp}
    {cbAlloc nodeAlloc : Bool} (ha : a ∉ l.safe.live)
    (hfail : cbAlloc = false ∨ nodeAlloc = false) :
    (∃ fuel l', run tf id fuel l (.safePtrCreate a data dtor prior cbAlloc nodeAlloc) = some l' ∧
      Kept l l') ↔ cbAlloc = true ∨ nodeAlloc = false := by
  constructor
  · rintro ⟨fuel,l',hrun,_⟩
    cases cbAlloc with
    | true => exact .inl rfl
    | false =>
      cases nodeAlloc with
      | false => exact .inr rfl
      | true =>
        rw [run,create_null] at hrun
        cases hrun
  · intro hok
    have hnode : nodeAlloc = false := by
      rcases hfail with rfl | hnode
      · exact hok.resolve_left (by rintro ⟨⟩)
      · exact hnode
    subst hnode
    obtain ⟨s,hs,hcb,hn,hprev,-⟩ := create_same data dtor prior cbAlloc ha
    refine ⟨0,{ l with safe := s },?_,.ofSafe hcb hn hprev⟩
    rw [run,hs,Option.map_some]

/-- For every reachable state and each of the six calls, if a `malloc` inside it fails: the call
completes and leaves everything as it was exactly under its condition. -/
theorem atomic_iff (h : Reachable tf id l) (hcall : Callable l call) (hfail : Fails l call) :
    (∃ fuel l', run tf id fuel l call = some l' ∧ Kept l l') ↔ Atomic id l call := by
  cases call with
  | taskCreate new =>
    cases hfail
    have hfresh : Taskflow.Fresh l.tasks none := by rintro t ⟨⟩
    refine ⟨fun _ => trivial,fun _ => ⟨0,l,?_,.refl l⟩⟩
    rw [run,Taskflow.step,if_pos hfresh]
    rfl
  | subTaskCreate task new =>
    cases hfail
    refine ⟨?_,False.elim⟩
    rintro ⟨fuel,l',hrun,_⟩
    have hfresh : Taskflow.Fresh l.tasks none := by rintro t ⟨⟩
    rw [run,Taskflow.step,if_pos ⟨hcall,hfresh⟩] at hrun
    cases hrun
  | safePtrCreate a data dtor prior cbAlloc nodeAlloc => exact create_kept_iff hcall hfail
  | safePtrStore a data dtor cbAlloc nodeAlloc =>
    refine ⟨?_,False.elim⟩
    rintro ⟨fuel,l',hrun,hk⟩
    obtain ⟨s,hs,rfl⟩ := Option.map_eq_some_iff.mp hrun
    obtain ⟨ha,hne⟩ := store_replaces (SafePtr.nodes_of_reach h.safe).2 hs
    exact hne (hk.prevCb a ha)
  | scheduleWorkOn a c node mem here => exact schedule_kept_iff h hcall hfail
  | rcuThreadInit a node =>
    obtain ⟨hp,rfl⟩ := hfail
    refine ⟨fun _ => trivial,fun _ => ⟨0,l,?_,.refl l⟩⟩
    rw [run,RcuRegistry.threadInit_none rfl hcall.1 hp]
    rfl

end Calls

section Inputs

open SafePtr (lender)

def tasks₀ : Taskflow.TaskflowPtr := ⟨12288,by decide⟩

def parentTask : Address := ⟨48,by decide⟩

def threadNode : Address := ⟨96,by decide⟩

def atStart : Library Unit Bool where
  tasks := Taskflow.taskflowCreate tasks₀ ⟨fun n => n,fun n => n⟩ (fun _ => ⟨0,0,none⟩) fun _ => 0
  safe := SafePtr.init
  works := Workqueue.init Unit Bool
  threads := RcuRegistry.init (threadConfig fun _ => 0) (fun _ => none) (fun _ => ⟨0,0⟩) ∅
    fun _ => none

theorem atStart_reachable : Reachable tasks₀ (fun _ => 0) atStart :=
  ⟨⟨_,_,_,.refl⟩,.refl,.refl,⟨_,_,_,_,.refl⟩⟩

def withParent : Library Unit Bool :=
  { atStart with tasks := Taskflow.taskCreate atStart.tasks tasks₀.addr (some parentTask) }

theorem withParent_reachable : Reachable tasks₀ (fun _ => 0) withParent := by
  have hfresh : Taskflow.Fresh atStart.tasks (some parentTask) := by decide
  have hstep : Taskflow.step tasks₀ atStart.tasks (.create (some parentTask)) =
      some withParent.tasks := by
    rw [Taskflow.step,if_pos hfresh]
    rfl
  exact ⟨⟨_,_,_,Reach.refl.tail trivial hstep⟩,atStart_reachable.safe,atStart_reachable.works,
    atStart_reachable.threads⟩

theorem Listed.mem {s : Workqueue.State Unit Bool} {xs : List (Workqueue.Node Bool)}
    {x : Workqueue.Node Bool} (hx : Listed s x) (hheads : ∀ y, IsList s y → y ∈ xs)
    (hclosed : ∀ y ∈ xs, s.links.next y ∈ xs ∧ s.links.prev y ∈ xs) : x ∈ xs := by
  induction hx with
  | head h => exact hheads _ h
  | next _ ih => exact (hclosed _ ih).1
  | prev _ ih => exact (hclosed _ ih).2

def firstCall : List (Workqueue.Act Unit Bool) :=
  .call (.outside ()) ⟨.global,0,false⟩::List.replicate 15 (.go (.outside ()) (some 0) 0)

def queuedNodes : List (Workqueue.Node Bool) :=
  [.pool .global,.pool .thread,.pool .taskflow,.queue 0,.works 0,.work false]

theorem queued : ∃ s : Workqueue.State Unit Bool,
    Reach Workqueue.step Anything (Workqueue.init Unit Bool) s ∧
    s.links.next (.works 0) = .work false ∧ Workqueue.mayCall s (.outside ()) ∧
    Misses s ⟨.global,1,true⟩ ∧ Unlinked s true := by
  have hs : ∃ s, exec Workqueue.step (Workqueue.init Unit Bool) firstCall = some s ∧
      s.live = Function.update (fun _ => false) 0 true ∧ s.cpuOf 0 = 0 ∧
      s.pc (.outside ()) = .idle ∧
      s.links.next (.pool .global) = .queue 0 ∧ s.links.next (.queue 0) = .pool .global ∧
      s.links.next (.works 0) = .work false ∧
      ∀ y ∈ queuedNodes, s.links.next y ∈ queuedNodes ∧ s.links.prev y ∈ queuedNodes :=
    ⟨_,rfl,rfl,rfl,rfl,rfl,rfl,rfl,by decide⟩
  obtain ⟨s,hs,hlive,hcpu,hpc,hfirst,hsecond,hwork,hclosed⟩ := hs
  refine ⟨s,reach_of_exec hs,hwork,hpc,fun qs hseg q hq => ?_,fun hlisted => ?_⟩
  · cases qs with
    | nil => cases hq
    | cons r qs =>
      obtain ⟨hr,hrest⟩ := seg_cons.mp hseg
      obtain rfl : r = 0 := by simpa using hr.1.symm.trans hfirst
      cases qs with
      | nil =>
        obtain rfl := List.mem_singleton.mp hq
        rw [hcpu]
        decide
      | cons u qs =>
        obtain ⟨hu,_⟩ := seg_cons.mp hrest
        exact absurd (hu.1.symm.trans hsecond) (by rintro ⟨⟩)
  · have hmem := hlisted.mem (fun y hy => ?_) hclosed
    · simp [queuedNodes] at hmem
    · cases y with
      | pool p => cases p <;> simp [queuedNodes]
      | works q =>
        have hq : s.live q = true := hy
        rw [hlive] at hq
        by_cases h0 : q = 0
        · simp [h0,queuedNodes]
        · simp [h0] at hq
      | _ => exact hy.elim

/-- A taskflow with a task, a safe_ptr, a thread that is registered and a work that is queued. -/
theorem inUse : ∃ l : Library Unit Bool, Reachable tasks₀ (fun _ => 0) l ∧
    l.tasks.created = [parentTask] ∧ l.safe.live = {lender} ∧
    l.threads.ptr (.outside ()) = some threadNode ∧ l.threads.pc (.outside ()) = .idle ∧
    l.works.links.next (.works 0) = .work false ∧ Workqueue.mayCall l.works (.outside ()) ∧
    Misses l.works ⟨.global,1,true⟩ ∧ Unlinked l.works true := by
  obtain ⟨works,hworks,hwork,hmay,hmiss,hun⟩ := queued
  have hsafe : ∃ s, exec SafePtr.step SafePtr.init
      [.create lender 7 0 ⟨none,0,none⟩ true true] = some s ∧ s.live = {lender} := ⟨_,rfl,rfl⟩
  have hthreads : ∃ r, exec (RcuRegistry.step (threadConfig fun _ => 0)) atStart.threads
      [.init (.outside ()),.malloc (.outside ()) (some threadNode),
        .add (.outside ()) threadNode 1,.assign (.outside ()) threadNode] = some r ∧
      r.ptr (.outside ()) = some threadNode ∧ r.pc (.outside ()) = .idle := ⟨_,rfl,rfl,rfl⟩
  obtain ⟨safe,hsafe,hlive⟩ := hsafe
  obtain ⟨threads,hthreads,hptr,hpc⟩ := hthreads
  exact ⟨⟨withParent.tasks,safe,works,threads⟩,
    ⟨withParent_reachable.tasks,reach_of_exec hsafe,hworks,⟨_,_,_,_,reach_of_exec hthreads⟩⟩,
    rfl,hlive,hptr,hpc,hwork,hmay,hmiss,hun⟩

/-- The thread schedules another work, for which there is no workqueue and no memory. -/
theorem atomic_of_schedule : ∃ (l l' : Library Unit Bool) (fuel : ℕ),
    l.tasks.created = [parentTask] ∧ l.safe.live = {lender} ∧
    l.threads.ptr (.outside ()) = some threadNode ∧
    l.works.links.next (.works 0) = .work false ∧
    run tasks₀ (fun _ => 0) fuel l (.scheduleWorkOn (.outside ()) ⟨.global,1,true⟩ none none 0) =
      some l' ∧ Kept l l' := by
  obtain ⟨l,hreach,htasks,hlive,hptr,hpc,hwork,hmay,hmiss,hun⟩ := inUse
  have hcall : Callable l (.scheduleWorkOn (.outside ()) ⟨.global,1,true⟩ none none 0) :=
    ⟨hmay,hpc,by rintro n ⟨⟩⟩
  have hfail : Fails l (.scheduleWorkOn (.outside ()) ⟨.global,1,true⟩ none none 0) :=
    .inr ⟨rfl,hmiss⟩
  have hok : Atomic (fun _ => 0) l
      (.scheduleWorkOn (.outside ()) ⟨.global,1,true⟩ none none 0) :=
    ⟨.inl (by rw [hptr]; rintro ⟨⟩),hun⟩
  obtain ⟨fuel,l',hrun,hk⟩ := (atomic_iff hreach hcall hfail).mpr hok
  exact ⟨l,l',fuel,htasks,hlive,hptr,hwork,hrun,hk⟩

/-- A sub task without memory for it. -/
theorem atomic_fails : ¬ ∀ (tf : Taskflow.TaskflowPtr) (id : Actor Unit → BitVec 64)
    (l : Library Unit Bool) (call : Call Unit Bool), Reachable tf id l → Callable l call →
      Fails l call → ∃ fuel l', run tf id fuel l call = some l' ∧ Kept l l' := by
  intro hall
  have hparent : parentTask ∈ withParent.tasks.created := List.mem_cons_self
  obtain ⟨fuel,l',hrun,_⟩ := hall tasks₀ (fun _ => 0) withParent (.subTaskCreate parentTask none)
    withParent_reachable hparent rfl
  have hnone : Taskflow.Fresh withParent.tasks none := by rintro t ⟨⟩
  rw [run,Taskflow.step,if_pos ⟨hparent,hnone⟩] at hrun
  cases hrun

end Inputs

end AllocFailure
end Mthpc
