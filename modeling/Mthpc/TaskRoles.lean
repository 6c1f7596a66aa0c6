import Mthpc.TaskConservation

/-!
# The roles of the tasks

Flag, `main_task` and `nr_sub_task` against the two levels of lists. They agree after every
call as long as no main task with sub tasks is moved, sub tasks are created below main tasks,
and no batch of two or more becomes the first or the last main tasks.
-/
namespace Mthpc
namespace Taskflow

open StepSystem Links Node

variable {tf : TaskflowPtr} {s u v : State} {f f' f₁ f₂ : Flow} {n m c T task new : Address}
  {ts ts' ns ss qs news : List Address} {q : Option Address} {k fuel : ℕ} {l : Links Node}

/-- A main task with `k` sub tasks. -/
def IsMain (s : State) (m : Address) (k : ℕ) : Prop :=
  isSubTask (s.task m).isSubTaskParent = false ∧ (s.task m).mainTask = none ∧
    (s.task m).nrSubTask = BitVec.ofNat 64 (1+k)

/-- A sub task of `m`. -/
def IsSub (s : State) (c : Address) (m : Option Address) : Prop :=
  isSubTask (s.task c).isSubTaskParent = true ∧ (s.task c).mainTask = m

def IsGroup (s : State) (p : Address × List Address) : Prop :=
  IsMain s p.1 p.2.length ∧ ∀ c ∈ p.2, IsSub s c (some p.1)

/-- The fields of every task say where it is; `ts` are the tasks that a call has taken out. -/
structure Assigned (s : State) (f : Flow) (ts : List Address) : Prop where
  groups : ∀ p ∈ f, IsGroup s p
  taken : ∀ t ∈ ts, IsSub s t none

/-- A task that can be taken out alone. -/
def Plain (s : State) (n : Address) : Prop :=
  isSubTask (s.task n).isSubTaskParent = true ∨ (s.task n).nrSubTask = 1

instance (s : State) (n : Address) : Decidable (Plain s n) := by
  unfold Plain; infer_instance

theorem ofNat_eq_one {j : ℕ} (hj : 1+j < 2^64) (h : BitVec.ofNat 64 (1+j) = 1) : j = 0 := by
  have h' := congrArg BitVec.toNat h
  simp only [BitVec.toNat_ofNat,Nat.mod_eq_of_lt hj] at h'
  simpa using h'

theorem ofNat_succ_sub (j : ℕ) : BitVec.ofNat 64 (j+1)+-1 = BitVec.ofNat 64 j := by
  rw [BitVec.ofNat_add,BitVec.add_assoc]
  exact BitVec.add_zero _

theorem Named.tasks_nodup (h : Named tf s f ts) : f.tasks.Nodup :=
  (List.nodup_append.mp (h.tasks.nodup_iff.mpr h.nodup)).2.1

theorem Named.length_lt (h : Named tf s f ts) {p : Address × List Address} (hp : p ∈ f) :
    1+p.2.length < 2^64 := by
  have hl := Address.length_lt h.tasks_nodup
  have hp' := Flow.length_subs_lt hp
  omega

section Groups

theorem IsSub.ne_main (hc : IsSub s c q) (hm : IsMain s m k) : c ≠ m := by
  rintro rfl
  exact absurd hc.1 (by simp [hm.1])

theorem IsGroup.congr {p : Address × List Address} (h : IsGroup s p)
    (hu : ∀ t ∈ p.1::p.2, u.task t = s.task t) : IsGroup u p := by
  obtain ⟨hm,hs⟩ := h
  refine ⟨?_,fun c hc => ?_⟩
  · rw [IsMain,hu p.1 (by simp)]
    exact hm
  · rw [IsSub,hu c (by simp [hc])]
    exact hs c hc

theorem Assigned.main (h : Assigned s (f₁ ++ (m,ss)::f₂) ts) : IsMain s m ss.length :=
  (h.groups (m,ss) (by simp)).1

theorem Assigned.sub (h : Assigned s (f₁ ++ (m,ss)::f₂) ts) (hc : c ∈ ss) : IsSub s c (some m) :=
  (h.groups (m,ss) (by simp)).2 c hc

theorem Assigned.change {m' : Address} {ss' : List Address}
    (h : Assigned s (f₁ ++ (m,ss)::f₂) ts) (hg : IsGroup u (m',ss'))
    (hu : ∀ t ∈ (f₁ ++ f₂).tasks, u.task t = s.task t) (ht : ∀ t ∈ ts', IsSub u t none) :
    Assigned u (f₁ ++ (m',ss')::f₂) ts' := by
  refine ⟨fun p hp => ?_,ht⟩
  have hp' : p = (m',ss') ∨ p ∈ f₁ ++ f₂ := by
    simp only [List.mem_append,List.mem_cons] at hp ⊢
    tauto
  cases hp' with
  | inl hp' => rwa [hp']
  | inr hp' =>
    refine (h.groups p ?_).congr fun t ht => hu t (Flow.mem_tasks_of_mem hp' ht)
    simp only [List.mem_append,List.mem_cons] at hp' ⊢
    tauto

theorem Assigned.movable (h : Assigned s f ts) (hn : Named tf s f ts)
    (hr : Rings s.links (rings tf.addr f + addingRings ts)) (hnf : n ∈ f.tasks) : Movable s n := by
  rw [Movable]
  cases Flow.mem_tasks.mp hnf with
  | inl hmain =>
    obtain ⟨f₁,ss,f₂,rfl⟩ := Flow.mem_mains.mp hmain
    obtain ⟨hflag,_,hnr⟩ := h.main
    rw [if_neg (by simp [hflag]),empty_subTaskListHead hr.left,hnr]
    constructor
    · intro h1
      exact List.length_eq_zero_iff.mp (ofNat_eq_one (hn.length_lt (p:=(n,ss)) (by simp)) h1)
    · rintro rfl
      rfl
  | inr hsub =>
    obtain ⟨f₁,m,ss₁,ss₂,f₂,rfl⟩ := Flow.mem_subs.mp hsub
    have hflag := (h.sub (c:=n) (by simp)).1
    rw [if_pos hflag,ListHead.empty,(rings_single hr.left hsub).1,decide_eq_true_eq]

end Groups

section Detach

theorem delSubTask_task (hnm : n ≠ m) (t : Address) : (delSubTask s n m).task t =
    if t = n then ⟨setSubTask (s.task n).isSubTaskParent,(s.task n).nrSubTask,none⟩
    else if t = m then { s.task m with nrSubTask := (s.task m).nrSubTask+-1 } else s.task t := by
  simp only [delSubTask,State.markSub,modify_task,relink_task]
  by_cases htn : t = n <;> by_cases htm : t = m <;> simp_all

theorem delLoneTask_task (t : Address) : (delLoneTask s n).task t =
    if t = n then { s.task n with isSubTaskParent := setSubTask (s.task n).isSubTaskParent }
    else s.task t := by
  simp only [delLoneTask,State.markSub,modify_task,relink_task]

theorem Assigned.detach_sub {ss₁ ss₂ : List Address}
    (h : Assigned s (f₁ ++ (m,ss₁ ++ n::ss₂)::f₂) ts)
    (hnd : (f₁ ++ (m,ss₁ ++ n::ss₂)::f₂).tasks.Nodup) (hu : rlistDelOne s n = some u) :
    Assigned u (f₁ ++ (m,ss₁ ++ ss₂)::f₂) (n::ts) := by
  have hm := h.main
  have hn := h.sub (c:=n) (by simp)
  have hu' : u = delSubTask s n m := by
    rcases rlistDelOne_cases hu with ⟨_,m',hm',rfl⟩ | ⟨hf,_,_⟩ | ⟨hf,_,_⟩
    · rw [Option.some.inj (hn.2.symm.trans hm')]
    · exact absurd hn.1 (by simp [hf])
    · exact absurd hn.1 (by simp [hf])
  subst hu'
  obtain ⟨hss,hother⟩ := Flow.nodup_group hnd
  have hnss : n ∉ ss₁ ++ ss₂ := (List.nodup_middle.mp hss.of_cons).notMem
  have hold : ∀ t, t ≠ n → t ≠ m → (delSubTask s n m).task t = s.task t := fun t htn htm => by
    rw [delSubTask_task (hn.ne_main hm),if_neg htn,if_neg htm]
  refine h.change ⟨?_,fun c hc => ?_⟩ (fun t ht => hold t ?_ ?_) fun t ht => ?_
  · rw [IsMain,delSubTask_task (hn.ne_main hm),if_neg (hn.ne_main hm).symm,if_pos rfl]
    refine ⟨hm.1,hm.2.1,?_⟩
    have hlen : 1+(ss₁ ++ n::ss₂).length = (1+(ss₁ ++ ss₂).length)+1 := by
      simp only [List.length_append,List.length_cons]
      omega
    rw [hm.2.2,hlen]
    exact ofNat_succ_sub _
  · have hc' := h.sub (c:=c) (by simp at hc ⊢; tauto)
    rw [IsSub,hold c (fun hcn => hnss (hcn ▸ hc)) (hc'.ne_main hm)]
    exact hc'
  · rintro rfl
    exact hother t (by simp) ht
  · rintro rfl
    exact hother t (by simp) ht
  · cases List.mem_cons.mp ht with
    | inl htn =>
      rw [htn,IsSub,delSubTask_task (hn.ne_main hm),if_pos rfl]
      exact ⟨isSubTask_setSubTask _,rfl⟩
    | inr ht =>
      have ht' := h.taken t ht
      have htn : t ≠ n := by
        rintro rfl
        exact absurd ht'.2 (by simp [hn.2])
      rw [IsSub,hold t htn (ht'.ne_main hm)]
      exact ht'

theorem Assigned.detach_lone (h : Assigned s (f₁ ++ (n,[])::f₂) ts)
    (hnd : (f₁ ++ (n,[])::f₂).tasks.Nodup) (hu : rlistDelOne s n = some u) :
    Assigned u (f₁ ++ f₂) (ts ++ [n]) := by
  have hn := h.main
  have hu' : u = delLoneTask s n := by
    rcases rlistDelOne_cases hu with ⟨hf,_⟩ | ⟨_,_,hu⟩ | ⟨_,hnr,_⟩
    · exact absurd hn.1 (by simp [hf])
    · exact hu
    · exact absurd hn.2.2 hnr
  subst hu'
  obtain ⟨_,hother⟩ := Flow.nodup_group hnd
  have hold : ∀ t, t ≠ n → (delLoneTask s n).task t = s.task t := fun t htn => by
    rw [delLoneTask_task,if_neg htn]
  refine ⟨fun p hp => (h.groups p ?_).congr fun t ht => hold t ?_,fun t ht => ?_⟩
  · simp only [List.mem_append,List.mem_cons] at hp ⊢
    tauto
  · rintro rfl
    exact hother t (by simp) (Flow.mem_tasks_of_mem hp ht)
  · cases List.mem_append.mp ht with
    | inl ht =>
      have ht' := h.taken t ht
      rw [IsSub,hold t (ht'.ne_main hn)]
      exact ht'
    | inr ht =>
      rw [List.mem_singleton.mp ht,IsSub,delLoneTask_task,if_pos rfl]
      exact ⟨isSubTask_setSubTask _,hn.2.1⟩

theorem Assigned.no_subs (h : Assigned s f ts) (hn : Named tf s f ts) (hp : Plain s n) (c : Address)
    (cs : List Address) : (n,c::cs) ∉ f := by
  intro hmem
  have hm := (h.groups _ hmem).1
  cases hp with
  | inl hflag => exact absurd hflag (by simp [hm.1])
  | inr hnr =>
    have hlen := ofNat_eq_one (hn.length_lt hmem) (hm.2.2.symm.trans hnr)
    exact absurd hlen (by simp)

theorem Assigned.detach (h : Assigned s f ts) (hn : Named tf s f ts) (hd : Detach n f ts f' ts')
    (hp : Plain s n) (hu : rlistDelOne s n = some u) : Assigned u f' ts' := by
  have hnd := hn.tasks_nodup
  cases hd with
  | sub f₁ f₂ m ss₁ ss₂ ts => exact h.detach_sub hnd hu
  | lone f₁ f₂ ts => exact h.detach_lone hnd hu
  | main f₁ f₂ c cs ts => exact absurd (by simp) (h.no_subs hn hp c cs)

end Detach

section Place

theorem Assigned.join {qs' : List Address} (h : Assigned s (f₁ ++ (c,qs)::f₂) ts)
    (hnd : (ts ++ (f₁ ++ (c,qs)::f₂).tasks).Nodup) (hp : qs'.Perm (qs ++ ts)) :
    Assigned (placed s ts (some c) ts.length l) (f₁ ++ (c,qs')::f₂) [] := by
  have hc := h.main
  obtain ⟨_,hnf,hdis⟩ := List.nodup_append.mp hnd
  obtain ⟨hqs,hother⟩ := Flow.nodup_group hnf
  have hct : c ∉ ts := fun hct => hdis c hct c (by simp) rfl
  have hnew : ∀ t, (placed s ts (some c) ts.length l).task t =
      if t = c then { s.task c with nrSubTask := (s.task c).nrSubTask+BitVec.ofNat 64 ts.length }
      else if t ∈ ts then { s.task t with mainTask := some c } else s.task t := by
    intro t
    simp only [placed,modify_task,relink_task,setMainTask_task,if_neg hct]
  have hold : ∀ t, t ∉ c::ts → (placed s ts (some c) ts.length l).task t = s.task t := by
    intro t ht
    rw [List.mem_cons,not_or] at ht
    rw [hnew,if_neg ht.1,if_neg ht.2]
  refine h.change ⟨?_,fun t ht => ?_⟩ (fun t ht => hold t ?_) (by simp)
  · rw [IsMain,hnew,if_pos rfl]
    refine ⟨hc.1,hc.2.1,?_⟩
    rw [hc.2.2,← BitVec.ofNat_add,hp.length_eq,List.length_append,Nat.add_assoc]
  · cases List.mem_append.mp (hp.mem_iff.mp ht) with
    | inl ht =>
      have htc : t ∉ c::ts := by
        intro hx
        cases List.mem_cons.mp hx with
        | inl hx => exact (List.nodup_cons.mp hqs).1 (hx ▸ ht)
        | inr hx => exact hdis t hx t (by simp [ht]) rfl
      rw [IsSub,hold t htc]
      exact h.sub ht
    | inr ht =>
      have htc : t ≠ c := fun hx => hct (hx ▸ ht)
      rw [IsSub,hnew,if_neg htc,if_pos ht]
      exact ⟨(h.taken t ht).1,rfl⟩
  · intro hx
    cases List.mem_cons.mp hx with
    | inl hx => exact hother c (by simp) (hx ▸ ht)
    | inr hx =>
      refine hdis t hx t ?_ rfl
      rw [(Flow.tasks_group c qs f₁ f₂).mem_iff]
      exact List.mem_append_right _ ht

theorem Assigned.promote (h : Assigned s f [n]) (hn : n ∉ f.tasks) (hp : f'.Perm ((n,[])::f)) :
    Assigned (placed s [n] none 1 l) f' [] := by
  have hnew : ∀ t, (placed s [n] none 1 l).task t =
      if t = n then ⟨unsetSubTask (s.task n).isSubTaskParent,1,(s.task n).mainTask⟩
      else s.task t := fun t => by simp [placed,State.promote]
  refine ⟨fun p hp' => ?_,by simp⟩
  cases List.mem_cons.mp (hp.mem_iff.mp hp') with
  | inl hpn =>
    rw [hpn]
    refine ⟨?_,by simp⟩
    rw [IsMain,hnew,if_pos rfl]
    exact ⟨isSubTask_unsetSubTask _,(h.taken n (by simp)).2,rfl⟩
  | inr hpf =>
    refine (h.groups p hpf).congr fun t ht => ?_
    have htn : t ≠ n := fun hx => hn (hx ▸ Flow.mem_tasks_of_mem hpf ht)
    rw [hnew,if_neg htn]

end Place

section Loop

/-- `m` is the main task that `task` is resolved to: itself, or the one above it. -/
def Home (f : Flow) (task m : Address) : Prop := ∃ ss, (m,ss) ∈ f ∧ (task = m ∨ task ∈ ss)

theorem Home.detach (h : Home f task m) (hd : Detach n f ts f' ts') (hnd : f.tasks.Nodup)
    (hf : ∀ c cs, (n,c::cs) ∉ f) (hn : task ≠ n) : Home f' task m := by
  obtain ⟨ss,hmem,htask⟩ := h
  cases hd with
  | sub f₁ f₂ m' ss₁ ss₂ ts =>
    by_cases hmm : (m,ss) = (m',ss₁ ++ n::ss₂)
    · cases hmm
      refine ⟨ss₁ ++ ss₂,by simp,htask.imp_right fun ht => ?_⟩
      simp only [List.mem_append,List.mem_cons] at ht ⊢
      tauto
    · refine ⟨ss,?_,htask⟩
      simp only [List.mem_append,List.mem_cons] at hmem ⊢
      tauto
  | lone f₁ f₂ ts =>
    have hne : (m,ss) ≠ (n,[]) := by
      rintro hx
      cases hx
      cases htask with
      | inl ht => exact hn ht
      | inr ht => exact absurd ht (by simp)
    refine ⟨ss,?_,htask⟩
    simp only [List.mem_append,List.mem_cons] at hmem ⊢
    tauto
  | main f₁ f₂ c cs ts => exact absurd (by simp) (hf c cs)

theorem Assigned.rlistDel (h : Assigned s f ts) (hn : Named tf s f ts)
    (hr : Rings s.links (rings tf.addr f + addingRings ts)) (hns : ns.Nodup)
    (hmem : ∀ n ∈ ns, n ∈ f.tasks) (hok : EachTurn Plain s ns) (hhome : Home f task m)
    (htask : task ∉ ns) (hu : ns.foldlM rlistDelOne s = some u) :
    ∃ f' ts', Assigned u f' ts' ∧ Named tf u f' ts' ∧
      Rings u.links (rings tf.addr f' + addingRings ts') ∧ Home f' task m ∧
      ts'.length = ns.length+ts.length ∧ u.created = s.created ∧ u.nrTask = s.nrTask := by
  induction ns generalizing s f ts with
  | nil =>
    cases hu
    exact ⟨f,ts,h,hn,hr,hhome,by simp,rfl,rfl⟩
  | cons n ns ih =>
    obtain ⟨t,ht,hu⟩ := Option.bind_eq_some_iff.mp hu
    rw [EachTurn,ht] at hok
    have hnf := hmem n (by simp)
    have hcr : n ∈ s.created := hn.tasks.mem_iff.mp (List.mem_append_right _ hnf)
    obtain ⟨f₁,ts₁,hd,hr₁⟩ := rlistDelOne_detach hr hnf
      (h.movable hn hr hnf) (hn.unflagged n hcr) ht
    rw [List.mem_cons,not_or] at htask
    have hhome₁ := hhome.detach hd hn.tasks_nodup (h.no_subs hn hok.1) htask.1
    obtain ⟨f',ts',h',hn',hr',hh',hl,hc,hnr⟩ := ih (h.detach hn hd hok.1 ht) (hn.detach hd ht) hr₁
      hns.of_cons (hd.rest hns hmem) hok.2 hhome₁ htask.2 hu
    have hf := rlistDelOne_fields ht
    refine ⟨f',ts',h',hn',hr',hh',?_,hc.trans hf.1,hnr.trans hf.2.1⟩
    rw [hl,hd.news.length_eq,List.length_cons,List.length_cons]
    omega

end Loop

/-- Lists and fields of a taskflow between two calls. -/
structure RoleInv (tf : TaskflowPtr) (s : State) (f : Flow) : Prop where
  wf : WellFormed tf s f
  assigned : Assigned s f []
  nrTask : s.nrTask tf.addr = BitVec.ofNat 64 s.created.length

theorem RoleInv.mainOf (h : RoleInv tf s f) (htask : task ∈ s.created)
    (hm : mainOf s task = some m) : Home f task m := by
  rw [Taskflow.mainOf] at hm
  cases Flow.mem_tasks.mp (h.wf.mem_tasks.mpr htask) with
  | inl hmain =>
    obtain ⟨f₁,ss,f₂,rfl⟩ := Flow.mem_mains.mp hmain
    rw [h.assigned.main.1] at hm
    cases hm
    exact ⟨ss,by simp,.inl rfl⟩
  | inr hsub =>
    obtain ⟨f₁,m',ss₁,ss₂,f₂,rfl⟩ := Flow.mem_subs.mp hsub
    have hs := h.assigned.sub (c:=task) (by simp)
    rw [hs.1,if_pos rfl,hs.2] at hm
    cases hm
    exact ⟨ss₁ ++ task::ss₂,by simp,.inr (by simp)⟩

/-- The calls after which the roles agree with the lists again. `first` tells whether the
tasks would become main tasks of their own. -/
def Regular (s : State) (task : Address) (news : List Address)
    (first : State → Address → Prop) : Prop :=
  EachTurn Plain s.begin news ∧
    (news.length ≤ 1 ∨ ∀ m ∈ mainOf s task, ∀ u ∈ rlistDel s news, ¬ first u m)

/-- `task` is the first main task. -/
def IsFirst (u : State) (m : Address) : Prop :=
  u.links.prev (listNode m) = taskflow (getTaskflow (u.task m).isSubTaskParent)

/-- `task` is the last main task. -/
def IsLast (u : State) (m : Address) : Prop :=
  u.links.next (listNode m) = taskflow (getTaskflow (u.task m).isSubTaskParent)

instance : ∀ u m, Decidable (IsFirst u m) := fun u m => by unfold IsFirst; infer_instance

instance : ∀ u m, Decidable (IsLast u m) := fun u m => by unfold IsLast; infer_instance

instance (s : State) (task : Address) (news : List Address) (first : State → Address → Prop)
    [∀ u m, Decidable (first u m)] : Decidable (Regular s task news first) := by
  unfold Regular; infer_instance

def KeepsRoles (s : State) : Op → Prop
  | .create _ => True
  | .subCreate task _ => isSubTask (s.task task).isSubTaskParent = false
  | .precede task news _ => Regular s task news IsFirst
  | .succeed task news _ => Regular s task news IsLast

instance (s : State) : ∀ op, Decidable (KeepsRoles s op)
  | .create _ => inferInstanceAs (Decidable True)
  | .subCreate task _ => inferInstanceAs
    (Decidable (isSubTask (s.task task).isSubTaskParent = false))
  | .precede task news _ => inferInstanceAs (Decidable (Regular s task news IsFirst))
  | .succeed task news _ => inferInstanceAs (Decidable (Regular s task news IsLast))

section Calls

theorem RoleInv.init (links : Links Node) (task : Address → Task)
    (nrTask : BitVec 64 → BitVec 64) : RoleInv tf (taskflowCreate tf links task nrTask) [] :=
  ⟨.init links task nrTask,⟨by simp,by simp⟩,by simp [taskflowCreate]⟩

theorem RoleInv.taskCreate (h : RoleInv tf s f) (hnew : new ∉ s.created) :
    RoleInv tf (taskCreate s tf.addr (some new)) (f ++ [(new,[])]) := by
  refine ⟨h.wf.taskCreate hnew,⟨fun p hp => ?_,by simp⟩,?_⟩
  · cases List.mem_append.mp hp with
    | inl hp =>
      refine (h.assigned.groups p hp).congr fun t ht => ?_
      have htn : t ≠ new := fun hx =>
        hnew (hx ▸ h.wf.mem_tasks.mp (Flow.mem_tasks_of_mem hp ht))
      simp [Taskflow.taskCreate,taskAlloc,htn]
    | inr hp =>
      rw [List.mem_singleton.mp hp]
      exact ⟨⟨by simp [Taskflow.taskCreate,taskAlloc],by simp [Taskflow.taskCreate,taskAlloc],
        by simp [Taskflow.taskCreate,taskAlloc]⟩,by simp⟩
  · have hc : (Taskflow.taskCreate s tf.addr (some new)).nrTask tf.addr = s.nrTask tf.addr+1 := by
      simp [Taskflow.taskCreate,taskAlloc]
    rw [hc,h.nrTask]
    exact (BitVec.ofNat_add _ _).symm

theorem RoleInv.subTaskCreate (h : RoleInv tf s f) (htask : task ∈ s.created)
    (hflag : isSubTask (s.task task).isSubTaskParent = false) (hnew : new ∉ s.created)
    (hu : subTaskCreate s task (some new) = some u) : ∃ f', RoleInv tf u f' := by
  obtain ⟨f₁,ss,f₂,rfl⟩ := Flow.mem_mains.mp (h.wf.1.unflagged task htask hflag)
  have htn : task ≠ new := fun hx => hnew (hx ▸ htask)
  have hm := h.assigned.main
  have hnd := h.wf.1.tasks_nodup
  obtain ⟨hss,hother⟩ := Flow.nodup_group hnd
  have hwf := h.wf.subTaskCreate_main hnew hu
  have hfresh : ∀ t ∈ Flow.tasks (f₁ ++ (task,ss)::f₂), t ≠ new := fun t ht hx =>
    hnew (hx ▸ h.wf.mem_tasks.mp ht)
  cases hu
  refine ⟨_,hwf,h.assigned.change ⟨?_,fun c hc => ?_⟩ (fun t ht => ?_) (by simp),?_⟩
  · refine ⟨by simpa [taskAlloc,htn] using hflag,by simpa [taskAlloc,htn] using hm.2.1,?_⟩
    simp only [modify_task,relink_task,taskAlloc,if_neg htn,Function.update_of_ne htn,if_pos,
      List.length_append,List.length_singleton,hm.2.2]
    exact (BitVec.ofNat_add _ _).symm
  · cases List.mem_append.mp hc with
    | inl hc =>
      have hcn := hfresh c (by simp [hc])
      have hct : c ≠ task := fun hx => (List.nodup_cons.mp hss).1 (hx ▸ hc)
      have hs := h.assigned.sub hc
      exact ⟨by simpa [taskAlloc,hcn,hct] using hs.1,by simpa [taskAlloc,hcn,hct] using hs.2⟩
    | inr hc =>
      rw [List.mem_singleton.mp hc]
      exact ⟨by simp [htn.symm],by simp [htn.symm]⟩
  · have htt : t ≠ task := fun hx => hother task (by simp) (hx ▸ ht)
    have htn' := hfresh t
      ((Flow.tasks_group task ss f₁ f₂).mem_iff.mpr (List.mem_append_right _ ht))
    simp [taskAlloc,htt,htn']
  · have hc : getTaskflow (s.task task).isSubTaskParent = tf.addr := h.wf.1.taskflow task htask
    simp only [modify_nrTask,relink_nrTask,modify_created,relink_created,taskAlloc,hc,
      Function.update_self,h.nrTask]
    exact (BitVec.ofNat_add _ _).symm

theorem RoleInv.rlistDel {first : State → Address → Prop} (h : RoleInv tf s f)
    (hb : Batch s task news) (hok : Regular s task news first)
    (hm : Taskflow.mainOf s task = some m)
    (hu : rlistDel s news = some u) :
    ∃ f' ts, Assigned u f' ts ∧ Named tf u f' ts ∧
      Rings u.links (rings tf.addr f' + addingRings ts) ∧ m ∈ f'.mains ∧
      ts.length = news.length ∧ u.created = s.created ∧ u.nrTask = s.nrTask := by
  obtain ⟨hn,hr⟩ := h.wf.begin
  have ha : Assigned s.begin f [] := ⟨h.assigned.groups,h.assigned.taken⟩
  obtain ⟨f',ts,ha',hn',hr',⟨ss,hmem,_⟩,hl,hc,hnr⟩ := ha.rlistDel hn hr hb.2.2.1
    (fun n hn => h.wf.mem_tasks.mpr (hb.2.1 n hn)) hok.1 (h.mainOf hb.1 hm) hb.2.2.2.1 hu
  exact ⟨f',ts,ha',hn',hr',List.mem_map_of_mem hmem,by simpa using hl,hc,hnr⟩

theorem Assigned.main_not_sub (h : Assigned s f ts) (hm : m ∈ f.mains) : m ∉ f.subs := by
  intro hs
  obtain ⟨f₁,ss,f₂,rfl⟩ := Flow.mem_mains.mp hm
  obtain ⟨g₁,m',ss₁,ss₂,g₂,hf⟩ := Flow.mem_subs.mp hs
  have hmain := h.main
  rw [hf] at h
  exact (h.sub (c:=m) (by simp)).ne_main hmain rfl

theorem Regular.eq_single {first : State → Address → Prop} (h : Regular s task news first)
    (hm : Taskflow.mainOf s task = some m) (hu : rlistDel s news = some u) (hf : first u m)
    (hl : ts.length = news.length) (hne : ts ≠ []) : ∃ n, ts = [n] := by
  have hlen : news.length ≤ 1 := h.2.resolve_right fun h' => h' m hm u hu hf
  refine List.length_eq_one_iff.mp ?_
  have := List.length_pos_iff.mpr hne
  omega

theorem Assigned.promote_single (h : Assigned u f [n]) (hn : Named tf u f [n])
    (hp : f'.Perm ((n,[])::f)) : Assigned (placed u [n] none 1 l) f' [] := by
  have hnd := hn.tasks.nodup_iff.mpr hn.nodup
  exact h.promote (List.nodup_cons.mp hnd).1 hp

theorem RoleInv.of_placed {f₁ : Flow} (h : RoleInv tf s f) (ha : Assigned (placed u ts q k l) f' [])
    (hn : Named tf u f₁ ts) (hp : Placed ts q f₁ f') (hl : Rings l (rings tf.addr f'))
    (hne : q = none → ts ≠ []) (hc : u.created = s.created) (hnr : u.nrTask = s.nrTask) :
    RoleInv tf (placed u ts q k l) f' :=
  ⟨⟨hn.placed hp hne,by rwa [placed_links hne]⟩,ha,by
    rw [placed_nrTask,placed_created,hc,hnr,h.nrTask]⟩

theorem RoleInv.precede (h : RoleInv tf s f) (hb : Batch s task news)
    (hok : Regular s task news IsFirst) (hv : precede fuel s task news = some v) :
    ∃ f', RoleInv tf v f' := by
  rw [Taskflow.precede] at hv
  split at hv
  · cases hv
    exact ⟨f,h⟩
  · obtain ⟨m,hm,hv⟩ := Option.bind_eq_some_iff.mp hv
    obtain ⟨u,hu,hv⟩ := Option.bind_eq_some_iff.mp hv
    rw [h.wf.1.taskflow task hb.1] at hv
    obtain ⟨f₁,ts,ha,hn,hr,hmf,hlen,hc,hnr⟩ := h.rlistDel hb hok hm hu
    have hmt := Flow.mem_tasks.mpr (.inl hmf)
    obtain ⟨q,f',l,hbef,hl,rfl,hne⟩ := addBefore_placed hr hmt hv
    have hp := hbef.placed
    refine ⟨f',h.of_placed ?_ hn hp hl hne hc hnr⟩
    have hmc : m ∈ u.created := hn.tasks.mem_iff.mp (List.mem_append_right _ hmt)
    rw [← hlen]
    cases hbef with
    | first f₂ ss =>
      have hr' : Rings u.links (rings tf.addr ([] ++ (m,ss)::f₂)) := hr.left
      have hfirst : IsFirst u m := by
        rw [IsFirst,rings_prev_main hr',hn.taskflow m hmc]
        rfl
      obtain ⟨n,rfl⟩ := hok.eq_single hm hu hfirst hlen (hne rfl)
      exact ha.promote_single hn (.refl _)
    | prev f₂ f₃ q qs ss =>
      exact ha.join (hn.tasks.nodup_iff.mpr hn.nodup) (.refl _)
    | sub f₂ f₃ m' ss₁ ss₂ => exact absurd (by simp) (ha.main_not_sub hmf)

theorem RoleInv.succeed (h : RoleInv tf s f) (hb : Batch s task news)
    (hok : Regular s task news IsLast) (hv : succeed fuel s task news = some v) :
    ∃ f', RoleInv tf v f' := by
  rw [Taskflow.succeed] at hv
  split at hv
  · cases hv
    exact ⟨f,h⟩
  · obtain ⟨m,hm,hv⟩ := Option.bind_eq_some_iff.mp hv
    obtain ⟨u,hu,hv⟩ := Option.bind_eq_some_iff.mp hv
    rw [h.wf.1.taskflow task hb.1] at hv
    obtain ⟨f₁,ts,ha,hn,hr,hmf,hlen,hc,hnr⟩ := h.rlistDel hb hok hm hu
    have hmt := Flow.mem_tasks.mpr (.inl hmf)
    obtain ⟨q,f',l,haft,hl,rfl,hne⟩ := addAfter_placed hr hmt hv
    have hp := haft.placed
    refine ⟨f',h.of_placed ?_ hn hp hl hne hc hnr⟩
    have hmc : m ∈ u.created := hn.tasks.mem_iff.mp (List.mem_append_right _ hmt)
    rw [← hlen]
    cases haft with
    | last f₂ ss =>
      have hlast : IsLast u m := by
        rw [IsLast,rings_next_main hr.left,hn.taskflow m hmc]
        rfl
      obtain ⟨n,rfl⟩ := hok.eq_single hm hu hlast hlen (hne rfl)
      refine ha.promote_single hn ?_
      rw [List.append_cons]
      exact List.perm_append_singleton (n,[]) (f₂ ++ [(m,ss)])
    | next f₂ f₃ q qs ss =>
      have hnd := hn.tasks.nodup_iff.mpr hn.nodup
      rw [List.append_cons] at ha hnd ⊢
      exact ha.join hnd List.perm_append_comm
    | sub f₂ f₃ m' ss₁ ss₂ => exact absurd (by simp) (ha.main_not_sub hmf)

theorem RoleInv.step (h : RoleInv tf s f) {op : Op} (hok : KeepsRoles s op)
    (hv : step tf s op = some v) : ∃ f', RoleInv tf v f' := by
  cases op with
  | create new =>
    simp only [Taskflow.step] at hv
    split at hv
    next hfresh =>
      cases hv
      cases new with
      | none => exact ⟨f,h⟩
      | some new => exact ⟨_,h.taskCreate (hfresh new rfl)⟩
    next => cases hv
  | subCreate task new =>
    simp only [Taskflow.step] at hv
    split at hv
    next hg =>
      cases new with
      | none => cases hv
      | some new => exact h.subTaskCreate hg.1 hok (hg.2 new rfl) hv
    next => cases hv
  | precede task news fuel =>
    simp only [Taskflow.step] at hv
    split at hv
    next hb => exact h.precede hb hok hv
    next => cases hv
  | succeed task news fuel =>
    simp only [Taskflow.step] at hv
    split at hv
    next hb => exact h.succeed hb hok hv
    next => cases hv

end Calls

/-- The flags, the pointers and the counters agree with the lists that the walks of
`mthpc_taskflow_await` see, and the counters add up to `nr_task`. -/
def Roles (tf : TaskflowPtr) (s : State) : Prop :=
  ∃ fuel ms, mainTasks fuel s tf.addr = some ms ∧
    (∀ m ∈ ms, isSubTask (s.task m).isSubTaskParent = false ∧ (s.task m).mainTask = none ∧
      ∃ ss, subTasks fuel s m = some ss ∧ (s.task m).nrSubTask.toNat = 1+ss.length ∧
        ∀ c ∈ ss, isSubTask (s.task c).isSubTaskParent = true ∧ (s.task c).mainTask = some m) ∧
    (ms.map fun m => (s.task m).nrSubTask.toNat).sum = (s.nrTask tf.addr).toNat

theorem sum_groups (f : Flow) : (f.map fun p => 1+p.2.length).sum = f.tasks.length := by
  induction f with
  | nil => rfl
  | cons p f ih =>
    simp only [List.map_cons,List.sum_cons,ih,Flow.tasks_cons,List.length_cons,List.length_append]
    omega

theorem RoleInv.roles (h : RoleInv tf s f) : Roles tf s := by
  have hn := h.wf.1
  have htoNat : ∀ p ∈ f, (s.task p.1).nrSubTask.toNat = 1+p.2.length := by
    intro p hp
    rw [(h.assigned.groups p hp).1.2.2,BitVec.toNat_ofNat]
    exact Nat.mod_eq_of_lt (hn.length_lt hp)
  refine ⟨f.tasks.length+1,f.mains,mainTasks_eq h.wf.2 (Nat.lt_succ_of_le f.length_mains_le),?_,?_⟩
  · intro m hm
    obtain ⟨p,hp,rfl⟩ := List.mem_map.mp hm
    obtain ⟨hmain,hsub⟩ := h.assigned.groups p hp
    exact ⟨hmain.1,hmain.2.1,p.2,
      subTasks_eq h.wf.2 hp (Nat.lt_succ_of_lt (Flow.length_subs_lt hp)),htoNat p hp,hsub⟩
  · have hlen : f.tasks.length = s.created.length := hn.tasks.length_eq
    calc (f.mains.map fun m => (s.task m).nrSubTask.toNat).sum
        = (f.map fun p => 1+p.2.length).sum := by
          rw [Flow.mains,List.map_map]
          exact congrArg List.sum (List.map_congr_left htoNat)
      _ = s.created.length := by rw [sum_groups,hlen]
      _ = (s.nrTask tf.addr).toNat := by
          rw [h.nrTask,BitVec.toNat_ofNat,Nat.mod_eq_of_lt (Address.length_lt hn.nodup)]

theorem roles_of_keepsRoles {links : Links Node} {task : Address → Task}
    {nrTask : BitVec 64 → BitVec 64}
    (h : Reach (step tf) KeepsRoles (taskflowCreate tf links task nrTask) s) : Roles tf s := by
  obtain ⟨f,hf⟩ := h.invariant (I:=fun s => ∃ f, RoleInv tf s f)
    ⟨[],.init links task nrTask⟩ fun _ _ _ ⟨_,hi⟩ hok hst => hi.step hok hst
  exact hf.roles

/-- The sub task that takes the place of its main task keeps its flag. -/
theorem roles_fails : ¬ ∀ (tf : TaskflowPtr) (links : Links Node) (task : Address → Task)
    (nrTask : BitVec 64 → BitVec 64) (s : State),
    Reach (step tf) Anything (taskflowCreate tf links task nrTask) s → Roles tf s := by
  intro h
  have hs : ∃ s, exec (step flowPtr) emptyFlow [.create (some taskA),
      .subCreate taskA (some taskB),.create (some taskC),.succeed taskC [taskA] 9] = some s ∧
      mainTasks 9 s flowPtr.addr = some [taskB,taskC,taskA] ∧
      isSubTask (s.task taskB).isSubTaskParent = true := ⟨_,rfl,rfl,rfl⟩
  obtain ⟨s,hs,hw,hflag⟩ := hs
  obtain ⟨fuel,ms,hms,hroles,_⟩ := h _ _ _ _ s (reach_of_exec hs)
  have heq := mainTasks_unique hms hw
  have hb := (hroles taskB (by simp [heq])).1
  exact absurd hflag (by simp [hb])

def plainRun : List Op :=
  [.create (some taskA),.subCreate taskA (some taskB),.create (some taskC),
    .create (some taskD),.precede taskA [taskB] 9,.succeed taskB [taskC,taskD] 9,
    .succeed taskA [taskC] 9]

theorem roles_of_plainRun : ∃ s, Reach (step flowPtr) KeepsRoles emptyFlow s ∧
    s.created.length = 4 ∧ Roles flowPtr s := by
  have hs : ∃ s, exec (restrict (step flowPtr) KeepsRoles) emptyFlow plainRun = some s ∧
    s.created.length = 4 := ⟨_,rfl,rfl⟩
  obtain ⟨s,hs,hc⟩ := hs
  have hreach := reach_of_exec_restrict hs
  exact ⟨s,hreach,hc,roles_of_keepsRoles hreach⟩

end Taskflow
end Mthpc
