import Mthpc.TaskRings

/-!
# No task is lost

The walk of `mthpc_taskflow_await` sees every created task once as long as the flags and the
counters by which `mthpc_taskflow_rlist_del` chooses its cases agree with the lists, and no
task is moved next to itself.
-/
namespace Mthpc
namespace Taskflow

open StepSystem Links Node

variable {tf : TaskflowPtr} {s t u v : State} {f f' : Flow} {n m T : Address}
  {ts ts' ns : List Address} {q : Option Address} {k fuel : ℕ} {l : Links Node}

section RlistDel

theorem rlistDelOne_cases (hu : rlistDelOne s n = some u) :
    (isSubTask (s.task n).isSubTaskParent = true ∧
      ∃ m, (s.task n).mainTask = some m ∧ u = delSubTask s n m) ∨
    (isSubTask (s.task n).isSubTaskParent = false ∧ (s.task n).nrSubTask = 1 ∧
      u = delLoneTask s n) ∨
    (isSubTask (s.task n).isSubTaskParent = false ∧ (s.task n).nrSubTask ≠ 1 ∧
      ∃ c, s.links.next (subTaskListHead n) = subTaskListHead c ∧ u = delMainTask s n c) := by
  rw [rlistDelOne] at hu
  by_cases hflag : isSubTask (s.task n).isSubTaskParent = true
  · rw [if_pos hflag] at hu
    obtain ⟨m,hm,rfl⟩ := Option.map_eq_some_iff.mp hu
    exact .inl ⟨hflag,m,hm,rfl⟩
  · rw [if_neg hflag] at hu
    rw [Bool.not_eq_true] at hflag
    by_cases hnr : (s.task n).nrSubTask = 1
    · rw [if_pos hnr] at hu
      exact .inr (.inl ⟨hflag,hnr,(Option.some.inj hu).symm⟩)
    · rw [if_neg hnr] at hu
      obtain ⟨c,hc,rfl⟩ := Option.map_eq_some_iff.mp hu
      refine .inr (.inr ⟨hflag,hnr,c,?_,rfl⟩)
      cases hx : s.links.next (subTaskListHead n) <;> simp_all [ofSubTaskListHead]

theorem rlistDelOne_fields (hu : rlistDelOne s n = some u) :
    u.created = s.created ∧ u.nrTask = s.nrTask ∧ ∀ t,
      isSubTask (u.task t).isSubTaskParent =
        (isSubTask (s.task t).isSubTaskParent || decide (t = n)) ∧
      getTaskflow (u.task t).isSubTaskParent = getTaskflow (s.task t).isSubTaskParent ∧
      ∀ m, (u.task t).mainTask = some m → (s.task t).mainTask = some m := by
  rcases rlistDelOne_cases hu with ⟨_,m,_,rfl⟩ | ⟨_,_,rfl⟩ | ⟨_,_,c,_,rfl⟩
  · refine ⟨rfl,rfl,fun t => ?_⟩
    simp only [delSubTask,State.markSub,modify_task,relink_task]
    by_cases htn : t = n <;> by_cases htm : t = m <;> by_cases hnm : n = m <;> simp_all
  · refine ⟨rfl,rfl,fun t => ?_⟩
    simp only [delLoneTask,State.markSub,modify_task,relink_task]
    by_cases htn : t = n <;> simp_all
  · refine ⟨rfl,rfl,fun t => ?_⟩
    simp only [delMainTask,State.markSub,modify_task,relink_task]
    by_cases htn : t = n <;> by_cases htm : t = c <;> by_cases hnm : n = c <;> simp_all

end RlistDel

/-- `P` holds of every task of the batch when its turn comes in `mthpc_taskflow_rlist_del`. -/
def EachTurn (P : State → Address → Prop) : State → List Address → Prop
  | _, [] => True
  | s, n::ns => P s n ∧ match rlistDelOne s n with
    | none => True
    | some t => EachTurn P t ns

instance EachTurn.decidable (P : State → Address → Prop) [∀ s n, Decidable (P s n)] :
    ∀ s ns, Decidable (EachTurn P s ns)
  | _, [] => inferInstanceAs (Decidable True)
  | s, n::ns => by
    unfold EachTurn
    cases rlistDelOne s n with
    | none => exact inferInstanceAs (Decidable (P s n ∧ True))
    | some t =>
      have := EachTurn.decidable P t ns
      exact inferInstanceAs (Decidable (P s n ∧ EachTurn P t ns))

/-- The fields by which the tasks are found agree with the lists; `ts` are the tasks that a
call has taken out. -/
structure Named (tf : TaskflowPtr) (s : State) (f : Flow) (ts : List Address) : Prop where
  nodup : s.created.Nodup
  tasks : (ts ++ f.tasks).Perm s.created
  unflagged : ∀ t ∈ s.created, isSubTask (s.task t).isSubTaskParent = false → t ∈ f.mains
  mainTask : ∀ t ∈ s.created, ∀ m, (s.task t).mainTask = some m → m ∈ s.created
  taskflow : ∀ t ∈ s.created, getTaskflow (s.task t).isSubTaskParent = tf.addr

theorem Named.detach (h : Named tf s f ts) (hd : Detach n f ts f' ts')
    (hu : rlistDelOne s n = some u) : Named tf u f' ts' := by
  obtain ⟨hc,_,hf⟩ := rlistDelOne_fields hu
  refine ⟨by rw [hc]; exact h.nodup,?_,?_,?_,?_⟩ <;> rw [hc]
  · refine .trans ?_ h.tasks
    have hp : ((n::ts) ++ f'.tasks).Perm (ts ++ f.tasks) :=
      List.perm_middle.symm.trans (hd.tasks.symm.append_left ts)
    exact (hd.news.append_right _).trans hp
  · intro t ht hflag
    rw [(hf t).1,Bool.or_eq_false_iff,decide_eq_false_iff_not] at hflag
    exact hd.mains (h.unflagged t ht hflag.1) hflag.2
  · exact fun t ht m hm => h.mainTask t ht m ((hf t).2.2 m hm)
  · exact fun t ht => (hf t).2.1.trans (h.taskflow t ht)

theorem Named.rlistDel (h : Named tf s f ts) (hr : Rings s.links (rings tf.addr f + addingRings ts))
    (hns : ns.Nodup) (hmem : ∀ n ∈ ns, n ∈ f.tasks) (hok : EachTurn Movable s ns)
    (hu : ns.foldlM rlistDelOne s = some u) :
    ∃ f' ts', Named tf u f' ts' ∧ Rings u.links (rings tf.addr f' + addingRings ts') ∧
      ts'.Perm (ns ++ ts) ∧ u.created = s.created := by
  induction ns generalizing s f ts with
  | nil =>
    cases hu
    exact ⟨f,ts,h,hr,.refl _,rfl⟩
  | cons n ns ih =>
    obtain ⟨t,ht,hu⟩ := Option.bind_eq_some_iff.mp hu
    rw [EachTurn,ht] at hok
    have hn := hmem n (by simp)
    have hcr : n ∈ s.created := h.tasks.mem_iff.mp (List.mem_append_right _ hn)
    obtain ⟨f₁,ts₁,hd,hr₁⟩ := rlistDelOne_detach hr hn hok.1 (h.unflagged n hcr) ht
    have hmem' := hd.rest hns hmem
    obtain ⟨f',ts',hn',hr',hp,hc⟩ := ih (h.detach hd ht) hr₁ hns.of_cons hmem' hok.2 hu
    refine ⟨f',ts',hn',hr',?_,hc.trans (rlistDelOne_fields ht).1⟩
    exact hp.trans ((hd.news.append_left ns).trans List.perm_middle)

theorem Named.placed (h : Named tf s f ts) (hp : Placed ts q f f') (hne : q = none → ts ≠ []) :
    Named tf (placed s ts q k l) f' [] := by
  have hmem : ∀ t ∈ f.tasks, t ∈ s.created := fun t ht =>
    h.tasks.mem_iff.mp (List.mem_append_right _ ht)
  refine ⟨by rw [placed_created]; exact h.nodup,?_,?_,?_,?_⟩ <;> rw [placed_created]
  · exact hp.tasks.trans h.tasks
  · intro t ht hflag
    cases q with
    | some q =>
      refine hp.mains t (h.unflagged t ht ?_)
      simp only [Taskflow.placed,modify_task,relink_task,setMainTask_task] at hflag
      by_cases htq : t = q <;> by_cases hts : t ∈ ts <;> by_cases hqs : q ∈ ts <;> simp_all
    | none =>
      cases ts with
      | nil => exact absurd rfl (hne rfl)
      | cons x xs =>
        by_cases htx : t = x
        · exact hp.new_mains rfl t (by simp [htx])
        · simp [Taskflow.placed,State.promote,htx] at hflag
          exact hp.mains t (h.unflagged t ht hflag)
  · intro t ht m hm
    cases q with
    | some q =>
      have hq := hmem q (hp.mem q rfl)
      simp only [Taskflow.placed,modify_task,relink_task,setMainTask_task] at hm
      have hcase : m = q ∨ (s.task t).mainTask = some m := by
        by_cases htq : t = q <;> by_cases hts : t ∈ ts <;> by_cases hqs : q ∈ ts <;> simp_all
      cases hcase with
      | inl hmq => rw [hmq]; exact hq
      | inr hm => exact h.mainTask t ht m hm
    | none =>
      refine h.mainTask t ht m ?_
      cases ts with
      | nil => exact absurd rfl (hne rfl)
      | cons x xs =>
        by_cases htx : t = x <;> simp_all [Taskflow.placed,State.promote]
  · intro t ht
    refine Eq.trans ?_ (h.taskflow t ht)
    cases q with
    | some q =>
      simp only [Taskflow.placed,modify_task,relink_task,setMainTask_task]
      by_cases htq : t = q <;> by_cases hts : t ∈ ts <;> by_cases hqs : q ∈ ts <;> simp_all
    | none =>
      cases ts with
      | nil => rfl
      | cons x xs => by_cases htx : t = x <;> simp_all [Taskflow.placed,State.promote]

def WellFormed (tf : TaskflowPtr) (s : State) (f : Flow) : Prop :=
  Named tf s f [] ∧ Rings s.links (rings tf.addr f)

theorem WellFormed.init (links : Links Node) (task : Address → Task)
    (nrTask : BitVec 64 → BitVec 64) : WellFormed tf (taskflowCreate tf links task nrTask) [] :=
  ⟨⟨by simp [taskflowCreate],by simp [taskflowCreate],by simp [taskflowCreate],
    by simp [taskflowCreate],by simp [taskflowCreate]⟩,rings_taskflowCreate⟩

theorem WellFormed.mem_tasks {t : Address} (h : WellFormed tf s f) :
    t ∈ f.tasks ↔ t ∈ s.created := h.1.tasks.mem_iff

section Create

variable {task new : Address}

theorem Named.create (h : Named tf s f []) (hnew : new ∉ s.created)
    (hc : u.created = new::s.created) (htasks : f'.tasks.Perm (new::f.tasks))
    (hmains : ∀ t ∈ f.mains, t ∈ f'.mains)
    (hflag : isSubTask (u.task new).isSubTaskParent = false → new ∈ f'.mains)
    (hmain : ∀ m, (u.task new).mainTask = some m → m ∈ s.created)
    (htf : getTaskflow (u.task new).isSubTaskParent = tf.addr)
    (hold : ∀ t ∈ s.created,
      (u.task t).isSubTaskParent = (s.task t).isSubTaskParent ∧
      (u.task t).mainTask = (s.task t).mainTask) : Named tf u f' [] := by
  refine ⟨?_,?_,?_,?_,?_⟩ <;> rw [hc]
  · exact List.nodup_cons.mpr ⟨hnew,h.nodup⟩
  · exact htasks.trans (h.tasks.cons new)
  · intro t ht hf
    cases List.mem_cons.mp ht with
    | inl htn =>
      rw [htn] at hf ⊢
      exact hflag hf
    | inr ht =>
      rw [(hold t ht).1] at hf
      exact hmains t (h.unflagged t ht hf)
  · intro t ht m hm
    refine List.mem_cons_of_mem new ?_
    cases List.mem_cons.mp ht with
    | inl htn =>
      rw [htn] at hm
      exact hmain m hm
    | inr ht =>
      rw [(hold t ht).2] at hm
      exact h.mainTask t ht m hm
  · intro t ht
    cases List.mem_cons.mp ht with
    | inl htn =>
      rw [htn]
      exact htf
    | inr ht =>
      rw [(hold t ht).1]
      exact h.taskflow t ht

theorem WellFormed.taskCreate (h : WellFormed tf s f) (hnew : new ∉ s.created) :
    WellFormed tf (taskCreate s tf.addr (some new)) (f ++ [(new,[])]) := by
  have hr := rings_taskCreate (rings_taskAlloc h.2 fun hn => hnew (h.mem_tasks.mp hn))
  refine ⟨h.1.create hnew rfl ?_ ?_ ?_ ?_ ?_ ?_,hr⟩
  · simp
  · intro t ht
    simp [ht]
  · simp
  · simp [Taskflow.taskCreate,taskAlloc]
  · simp [Taskflow.taskCreate,taskAlloc,getTaskflow_setTaskflow]
  · intro t ht
    have htn : t ≠ new := fun h => hnew (h ▸ ht)
    simp [Taskflow.taskCreate,taskAlloc,htn]

theorem subTaskCreate_links (hu : subTaskCreate s task (some new) = some u) :
    u.links = ListHead.addTail (taskAlloc s (getTaskflow (s.task task).isSubTaskParent) new).links
      (subTaskListHead new) (subTaskListHead task) := by
  cases hu
  rfl

theorem WellFormed.subTaskCreate_named (h : WellFormed tf s f) (htask : task ∈ s.created)
    (hnew : new ∉ s.created) (hu : subTaskCreate s task (some new) = some u)
    (hp : f'.tasks.Perm (new::f.tasks)) (hm : ∀ t ∈ f.mains, t ∈ f'.mains) : Named tf u f' [] := by
  have htn : task ≠ new := fun h => hnew (h ▸ htask)
  cases hu
  refine h.1.create hnew rfl hp hm ?_ ?_ ?_ ?_
  · simp [taskAlloc,htn.symm]
  · simpa [taskAlloc,htn.symm] using htask
  · simp [taskAlloc,htn.symm,getTaskflow_setTaskflow,h.1.taskflow task htask]
  · intro t ht
    have ht' : t ≠ new := fun h => hnew (h ▸ ht)
    by_cases htt : t = task <;> simp [taskAlloc,ht',htt,htn]

theorem WellFormed.subTaskCreate_main {f₁ f₂ : Flow} {ss : List Address}
    (h : WellFormed tf s (f₁ ++ (task,ss)::f₂)) (hnew : new ∉ s.created)
    (hu : subTaskCreate s task (some new) = some u) :
    WellFormed tf u (f₁ ++ (task,ss ++ [new])::f₂) := by
  have htask : task ∈ s.created := h.mem_tasks.mp (by simp)
  have hr := rings_taskAlloc h.2 fun hn => hnew (h.mem_tasks.mp hn)
  refine ⟨h.subTaskCreate_named htask hnew hu ?_ (by simp),?_⟩
  · simp [List.perm_iff_count,List.count_cons]
    omega
  · rw [subTaskCreate_links hu]
    exact rings_subTaskCreate_main hr

theorem WellFormed.subTaskCreate_sub {f₁ f₂ : Flow} {ss₁ ss₂ : List Address}
    (h : WellFormed tf s (f₁ ++ (m,ss₁ ++ task::ss₂)::f₂)) (hnew : new ∉ s.created)
    (hu : subTaskCreate s task (some new) = some u) :
    WellFormed tf u (f₁ ++ (m,ss₁ ++ new::task::ss₂)::f₂) := by
  have htask : task ∈ s.created := h.mem_tasks.mp (by simp)
  have hr := rings_taskAlloc h.2 fun hn => hnew (h.mem_tasks.mp hn)
  refine ⟨h.subTaskCreate_named htask hnew hu ?_ (by simp),?_⟩
  · simp [List.perm_iff_count,List.count_cons]
    omega
  · rw [subTaskCreate_links hu]
    exact rings_subTaskCreate_sub hr

theorem WellFormed.subTaskCreate (h : WellFormed tf s f) (htask : task ∈ s.created)
    (hnew : new ∉ s.created) (hu : subTaskCreate s task (some new) = some u) :
    ∃ f', WellFormed tf u f' := by
  cases Flow.mem_tasks.mp (h.mem_tasks.mpr htask) with
  | inl hmain =>
    obtain ⟨f₁,ss,f₂,rfl⟩ := Flow.mem_mains.mp hmain
    exact ⟨_,h.subTaskCreate_main hnew hu⟩
  | inr hsub =>
    obtain ⟨f₁,m,ss₁,ss₂,f₂,rfl⟩ := Flow.mem_subs.mp hsub
    exact ⟨_,h.subTaskCreate_sub hnew hu⟩

end Create

section Move

variable {task : Address} {news : List Address}

/-- The tasks of the batch are where `mthpc_taskflow_rlist_del` expects them, and the main task
that they go next to is not one of them. -/
def Apart (s : State) (task : Address) (news : List Address) : Prop :=
  (∀ m ∈ mainOf s task, m ∉ news) ∧ EachTurn Movable s.begin news

instance (s : State) (task : Address) (news : List Address) : Decidable (Apart s task news) := by
  unfold Apart; infer_instance

theorem WellFormed.mainOf_mem (h : WellFormed tf s f) (htask : task ∈ s.created)
    (hm : mainOf s task = some m) : m ∈ s.created := by
  rw [mainOf] at hm
  split at hm
  · exact h.1.mainTask task htask m hm
  · cases hm
    exact htask

theorem WellFormed.begin (h : WellFormed tf s f) :
    Named tf s.begin f [] ∧ Rings s.begin.links (rings tf.addr f + addingRings []) := by
  have hadd : addingList ∉ nodes (rings tf.addr f) := by simp [mem_nodes_rings]
  refine ⟨⟨h.1.nodup,h.1.tasks,h.1.unflagged,h.1.mainTask,h.1.taskflow⟩,?_⟩
  rw [add_comm]
  simpa [addingRings,State.begin] using ListHead.rings_init h.2 hadd

theorem WellFormed.rlistDel (h : WellFormed tf s f) (hb : Batch s task news)
    (hap : Apart s task news) (hm : mainOf s task = some m) (hu : rlistDel s news = some u) :
    ∃ f' ts, Named tf u f' ts ∧ Rings u.links (rings tf.addr f' + addingRings ts) ∧
      m ∈ f'.tasks := by
  obtain ⟨hn,hr⟩ := h.begin
  obtain ⟨f',ts,hn',hr',hp,hc⟩ := hn.rlistDel hr hb.2.2.1
    (fun n hn => h.mem_tasks.mpr (hb.2.1 n hn)) hap.2 hu
  rw [List.append_nil] at hp
  refine ⟨f',ts,hn',hr',?_⟩
  have hmc : m ∈ ts ++ f'.tasks :=
    hn'.tasks.mem_iff.mpr (hc.symm ▸ h.mainOf_mem hb.1 hm)
  refine (List.mem_append.mp hmc).resolve_left fun hmt => ?_
  exact hap.1 m hm (hp.mem_iff.mp hmt)

theorem WellFormed.precede (h : WellFormed tf s f) (hb : Batch s task news)
    (hap : Apart s task news) (hv : precede fuel s task news = some v) :
    ∃ f', WellFormed tf v f' := by
  rw [Taskflow.precede] at hv
  split at hv
  · cases hv
    exact ⟨f,h⟩
  · obtain ⟨m,hm,hv⟩ := Option.bind_eq_some_iff.mp hv
    obtain ⟨u,hu,hv⟩ := Option.bind_eq_some_iff.mp hv
    rw [h.1.taskflow task hb.1] at hv
    obtain ⟨f₁,ts,hn,hr,hmf⟩ := h.rlistDel hb hap hm hu
    obtain ⟨q,f',l,hbef,hl,rfl,hne⟩ := addBefore_placed hr hmf hv
    exact ⟨f',hn.placed hbef.placed hne,by rwa [placed_links hne]⟩

theorem WellFormed.succeed (h : WellFormed tf s f) (hb : Batch s task news)
    (hap : Apart s task news) (hv : succeed fuel s task news = some v) :
    ∃ f', WellFormed tf v f' := by
  rw [Taskflow.succeed] at hv
  split at hv
  · cases hv
    exact ⟨f,h⟩
  · obtain ⟨m,hm,hv⟩ := Option.bind_eq_some_iff.mp hv
    obtain ⟨u,hu,hv⟩ := Option.bind_eq_some_iff.mp hv
    rw [h.1.taskflow task hb.1] at hv
    obtain ⟨f₁,ts,hn,hr,hmf⟩ := h.rlistDel hb hap hm hu
    obtain ⟨q,f',l,haft,hl,rfl,hne⟩ := addAfter_placed hr hmf hv
    exact ⟨f',hn.placed haft.placed hne,by rwa [placed_links hne]⟩

end Move

/-- The calls whose batch is `Apart`. -/
def Conserving (s : State) : Op → Prop
  | .create _ | .subCreate _ _ => True
  | .precede task news _ | .succeed task news _ => Apart s task news

instance (s : State) (op : Op) : Decidable (Conserving s op) := by
  cases op <;> unfold Conserving <;> infer_instance

theorem WellFormed.step (h : WellFormed tf s f) {op : Op} (hok : Conserving s op)
    (hv : step tf s op = some v) : ∃ f', WellFormed tf v f' := by
  cases op with
  | create new =>
    simp only [Taskflow.step] at hv
    split at hv
    next hfresh =>
      cases hv
      cases new with
      | none => exact ⟨f,h⟩
      | some new => exact ⟨_,h.taskCreate (hfresh new rfl)⟩
    next => cases hv
  | subCreate task new =>
    simp only [Taskflow.step] at hv
    split at hv
    next hg =>
      cases new with
      | none => cases hv
      | some new => exact h.subTaskCreate hg.1 (hg.2 new rfl) hv
    next => cases hv
  | precede task news fuel =>
    simp only [Taskflow.step] at hv
    split at hv
    next hb => exact h.precede hb hok hv
    next => cases hv
  | succeed task news fuel =>
    simp only [Taskflow.step] at hv
    split at hv
    next hb => exact h.succeed hb hok hv
    next => cases hv

/-- The walk of `mthpc_taskflow_await` ends and sees every created task once. -/
def Conserved (tf : TaskflowPtr) (s : State) : Prop :=
  ∃ fuel ts, awaitWalk fuel s tf.addr = some ts ∧ ts.Nodup ∧ ∀ t, t ∈ ts ↔ t ∈ s.created

theorem WellFormed.conserved (h : WellFormed tf s f) : Conserved tf s :=
  ⟨_,_,awaitWalk_eq h.2,h.1.tasks.nodup_iff.mpr h.1.nodup,fun _ => h.mem_tasks⟩

theorem conserved_of_conserving {links : Links Node} {task : Address → Task}
    {nrTask : BitVec 64 → BitVec 64}
    (h : Reach (step tf) Conserving (taskflowCreate tf links task nrTask) s) : Conserved tf s := by
  obtain ⟨f,hf⟩ := h.invariant (I:=fun s => ∃ f, WellFormed tf s f)
    ⟨[],.init links task nrTask⟩ fun _ _ _ ⟨_,hi⟩ hok hst => hi.step hok hst
  exact hf.conserved

section Runs

def flowPtr : TaskflowPtr := ⟨4096,by decide⟩

def taskA : Address := ⟨8,by decide⟩

def taskB : Address := ⟨16,by decide⟩

def taskC : Address := ⟨24,by decide⟩

def taskD : Address := ⟨32,by decide⟩

/-- A taskflow without tasks. -/
def emptyFlow : State :=
  taskflowCreate flowPtr ⟨id,id⟩ (fun _ => ⟨0,0,none⟩) fun _ => 0

/-- A main task precedes its own sub task, and only the sub task is left on the lists. -/
theorem conserved_fails : ¬ ∀ (tf : TaskflowPtr) (links : Links Node) (task : Address → Task)
    (nrTask : BitVec 64 → BitVec 64) (s : State),
    Reach (step tf) Anything (taskflowCreate tf links task nrTask) s → Conserved tf s := by
  intro h
  have hs : ∃ s, exec (step flowPtr) emptyFlow [.create (some taskA),
      .subCreate taskA (some taskB),.precede taskB [taskA] 3] = some s ∧
      awaitWalk 3 s flowPtr.addr = some [taskB] ∧ s.created = [taskB,taskA] := ⟨_,rfl,rfl,rfl⟩
  obtain ⟨s,hs,hw,hc⟩ := hs
  obtain ⟨fuel,ts,hts,_,hmem⟩ := h _ _ _ _ s (reach_of_exec hs)
  have heq := awaitWalk_unique hts hw
  have ha := (hmem taskA).mpr (by simp [hc])
  rw [heq] at ha
  exact absurd ha (by decide)

def movingRun : List Op :=
  [.create (some taskA),.subCreate taskA (some taskB),.create (some taskC),
    .create (some taskD),.precede taskC [taskA] 9,.succeed taskC [taskD] 9,
    .precede taskC [taskD] 9]

theorem conserved_of_movingRun : ∃ s, Reach (step flowPtr) Conserving emptyFlow s ∧
    s.created.length = 4 ∧ Conserved flowPtr s := by
  have hs : ∃ s, exec (restrict (step flowPtr) Conserving) emptyFlow movingRun = some s ∧
    s.created.length = 4 := ⟨_,rfl,rfl⟩
  obtain ⟨s,hs,hc⟩ := hs
  have hreach := reach_of_exec_restrict hs
  exact ⟨s,hreach,hc,conserved_of_conserving hreach⟩

end Runs

end Taskflow
end Mthpc
