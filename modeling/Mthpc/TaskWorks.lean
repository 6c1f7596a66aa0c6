import Mthpc.Component
import Mthpc.TaskAwait
import Mthpc.WorkqueueConservation

/-!
# Awaiting a taskflow on the workqueues

`mthpc_taskflow_await` schedules with `mthpc_schedule_taskflow_work_on`, and its workers are
the threads of the workqueues: `mthpc_task_worker` is the function of a task's work. The thread
`me` awaits, other works are scheduled by anybody, also from within a task. That each scheduled
work is run once, which the model of the await takes for granted, holds here.
-/
namespace Mthpc
namespace TaskWorks

open StepSystem Taskflow Links

/-- The works of the taskflow and the others. -/
abbrev Work (O : Type) := Address ⊕ O

abbrev Base (ι O : Type) := Workqueue.State ι (Work O)

/-- What the await and the tasks see of the workqueues. -/
inductive Shown (O : Type)
  | schedule (c : Workqueue.Call (Work O)) | returned
  | start (q : ℕ) (task : Address) | finish (q : ℕ)

/-- `busy` is set in `mthpc_schedule_taskflow_work_on`. -/
structure Awaiter where
  await : Await ℕ
  busy : Bool

/-- The steps of the awaiting thread outside of the scheduling, and of `mthpc_task_worker` on
the thread of a workqueue. -/
inductive OwnAct
  | await
  | ret (q : ℕ) | complete (q : ℕ)

variable {ι O : Type}

/-- `mthpc_taskflow_get_cpu`. -/
def taskflowGetCpu (seed : BitVec 64) : Workqueue.Word := seed.setWidth 32 &&& 3

/-- The arguments of `mthpc_schedule_taskflow_work_on`, where the await calls it. -/
def scheduled (r : Await ℕ) : Option (Workqueue.Call (Work O)) :=
  match r.pc with
  | .schedule current => some ⟨.taskflow,taskflowGetCpu 0,.inl current⟩
  | .sub current pos k =>
    if pos = .subTaskListHead current then none
    else (ofSubTaskListHead pos).map fun subTask => ⟨.taskflow,taskflowGetCpu k,.inl subTask⟩
  | _ => none

def returns (mem : Option Workqueue.Word) : Workqueue.Pc (Work O) → Bool
  | .wake _ => true
  | .alloc _ => mem.isNone
  | _ => false

section Defs

variable [DecidableEq ι] [DecidableEq O]

def workShown (q : ℕ) : Workqueue.WorkerPc (Work O) → Option (Shown O)
  | .call (.inl task) => some (.start q task)
  | .run (.inl _) => some (.finish q)
  | _ => none

def label (me : ι) (s : Base ι O) : Workqueue.Act ι (Work O) → Option (Shown O)
  | .call _ c => if c.work.isLeft then some (.schedule c) else none
  | .go a mem _ => if a = .outside me ∧ returns mem (s.pc a) = true then some .returned else none
  | .work q => workShown q (s.worker q)
  | _ => none

/-- A worker enters `mthpc_task_worker`, whatever it was given. -/
def startTask (st : Taskflow.State) (r : Await ℕ) (q : ℕ) (task : Address) : Await ℕ :=
  { r with
    queued := r.queued.erase task
    worker := Function.update r.worker q
      (.func task (getTaskflow (st.task task).isSubTaskParent))
    log := .task task .start::r.log }

/-- The work of a task ends when `mthpc_task_worker` has returned. -/
def react (st : Taskflow.State) (tf : BitVec 64) (u : Awaiter) : Shown O → Option Awaiter
  | .schedule c =>
    if u.busy = false ∧ scheduled u.await = some c then
      (awaitStep st tf u.await).map fun r => ⟨r,true⟩
    else none
  | .returned => some { u with busy := false }
  | .start q task => some { u with await := startTask st u.await q task }
  | .finish q => guarded (u.await.worker q = .idle) u

def own (O : Type) [DecidableEq O] (st : Taskflow.State) (tf : BitVec 64) (u : Awaiter) :
    OwnAct → Option Awaiter
  | .await =>
    if u.busy = false ∧ scheduled (O:=O) u.await = none then
      (awaitStep st tf u.await).map fun r => { u with await := r }
    else none
  | .ret q => (workerStep st u.await (.ret q)).map fun r => { u with await := r }
  | .complete q => (workerStep st u.await (.complete q)).map fun r => { u with await := r }

/-- The await and the tasks over the workqueues. -/
def stepOver (me : ι) (st : Taskflow.State) (tf : BitVec 64) :
    Base ι O × Awaiter → Workqueue.Act ι (Work O) ⊕ OwnAct → Option (Base ι O × Awaiter) :=
  compose Workqueue.step (label me) (react st tf) (own O st tf)

/-- Only `me` schedules the works of the taskflow, the other works are not scheduled while they
are pending, and the library is not exited. -/
def Friendly (me : ι) (s : Base ι O × Awaiter) : Workqueue.Act ι (Work O) ⊕ OwnAct → Prop
  | .inl (.call a c) => if c.work.isLeft then a = .outside me else s.1.pending c.work = false
  | .inl .exit | .inl .join => False
  | _ => True

instance (me : ι) (s : Base ι O × Awaiter) : ∀ e, Decidable (Friendly me s e)
  | .inl (.call a c) => inferInstanceAs
    (Decidable (if c.work.isLeft then a = .outside me else s.1.pending c.work = false))
  | .inl .exit | .inl .join => inferInstanceAs (Decidable False)
  | .inl (.go _ _ _) | .inl (.work _) | .inr _ => inferInstanceAs (Decidable True)

/-- Where the works of the taskflow are: what a call or a list has is queued and with no worker,
what a worker holds is queued and with no other, and a worker in `mthpc_task_worker` is in the
function of a work. -/
structure HandInv (s : Base ι O) (r : Await ℕ) : Prop where
  pending : ∀ t, s.pending (.inl t) = true → t ∈ r.queued
  held : ∀ q t, .inl t ∈ (s.worker q).held → t ∈ r.queued ∧ s.pending (.inl t) = false
  one : ∀ q q' t, .inl t ∈ (s.worker q).held → .inl t ∈ (s.worker q').held → q = q'
  running : ∀ q t, (r.worker q).task = some t → s.worker q = .run (.inl t)

end Defs

section Step

variable [DecidableEq ι] [DecidableEq O] {me : ι} {st : Taskflow.State} {tf : BitVec 64}
  {f : Flow} {s s' : Base ι O} {r r' : Await ℕ} {u u' : Awaiter} {t : Address} {q : ℕ}
  {a : Workqueue.Actor ι} {qs : Workqueue.Wp → List ℕ} {ws : ℕ → Option (List (Work O))}

def AwaitKept (st : Taskflow.State) (tf : BitVec 64) (f : Flow)
    (completion : BitVec 64 → Completion) (r : Await ℕ) : Prop :=
  Reach (stepAwait st tf) Anything (beginAwait st tf completion) r ∧
    ∃ f₁ f₂ hs, AwaitInv tf f f₁ f₂ hs r

variable {completion : BitVec 64 → Completion}

theorem AwaitKept.step (h : AwaitKept st tf f completion r) (hf : Grouped st tf f)
    {b : AwaitAct ℕ} (hst : stepAwait st tf r b = some r') : AwaitKept st tf f completion r' := by
  obtain ⟨hr,f₁,f₂,hs,hi⟩ := h
  exact ⟨hr.tail (a:=b) trivial hst,hi.step hf hst⟩

theorem AwaitKept.schedule {O : Type} {st : Taskflow.State} {tf : BitVec 64} {f : Flow}
    {r r' : Await ℕ} {completion : BitVec 64 → Completion} {c : Workqueue.Call (Work O)}
    (h : AwaitKept st tf f completion r) (hf : Grouped st tf f) (hc : scheduled r = some c)
    (hst : awaitStep st tf r = some r') :
    ∃ t, c.work = .inl t ∧ t ∉ r.queued ∧ r'.queued = t::r.queued ∧ r'.worker = r.worker := by
  obtain ⟨_,f₁,f₂,hs,hi⟩ := h.step hf (b:=.await) hst
  have hnd := hi.jobs.nodup
  cases hp : r.pc with
  | schedule current =>
    simp only [scheduled,hp,Option.some.injEq] at hc
    simp only [awaitStep,hp] at hst
    subst hc
    cases hst
    exact ⟨current,rfl,(List.nodup_cons.mp hnd).1,rfl,rfl⟩
  | sub current pos k =>
    simp only [scheduled,hp] at hc
    simp only [awaitStep,hp] at hst
    by_cases he : pos = .subTaskListHead current
    · simp [he] at hc
    · rw [if_neg he] at hc hst
      obtain ⟨t,ht,rfl⟩ := Option.map_eq_some_iff.mp hc
      obtain ⟨t',ht',rfl⟩ := Option.map_eq_some_iff.mp hst
      cases ht.symm.trans ht'
      exact ⟨t,rfl,(List.nodup_cons.mp hnd).1,rfl,rfl⟩
  | _ => simp [scheduled,hp] at hc

theorem awaitStep_queued {O : Type} {st : Taskflow.State} {tf : BitVec 64} {r r' : Await ℕ}
    (hc : scheduled (O:=O) r = none)
    (hst : awaitStep st tf r = some r') : r'.queued = r.queued ∧ r'.worker = r.worker := by
  cases hp : r.pc with
  | main pos =>
    simp only [awaitStep,hp] at hst
    split at hst
    · cases hst
      exact ⟨rfl,rfl⟩
    · obtain ⟨t,_,rfl⟩ := Option.map_eq_some_iff.mp hst
      exact ⟨rfl,rfl⟩
  | schedule current => simp [scheduled,hp] at hc
  | sub current pos k =>
    simp only [scheduled,hp] at hc
    simp only [awaitStep,hp] at hst
    by_cases he : pos = .subTaskListHead current
    · rw [if_pos he] at hst
      cases hst
      exact ⟨rfl,rfl⟩
    · rw [if_neg he] at hc hst
      obtain ⟨t,ht,_⟩ := Option.map_eq_some_iff.mp hst
      simp [ht] at hc
  | compare current k v =>
    simp only [awaitStep,hp] at hst
    split at hst <;> cases hst <;> exact ⟨rfl,rfl⟩
  | initCnt | initNr | wait =>
    simp only [awaitStep,hp] at hst
    cases hst
    exact ⟨rfl,rfl⟩
  | done =>
    simp only [awaitStep,hp] at hst
    cases hst

theorem go_keeps {W : Type} [DecidableEq W] {s s' : Workqueue.State ι W} {fs : List ℕ}
    {mem : Option Workqueue.Word} {here : Workqueue.Word} (hi : Workqueue.PoolInv s qs fs)
    (hst : Workqueue.go s a mem here (s.pc a) = some s') :
    (∀ w, s'.pending w = true → s.pending w = true) ∧
      ∀ q, s'.worker q = s.worker q ∨ s.worker q = .absent ∧ s'.worker q = .test := by
  cases hp : s.pc a with
  | idle =>
    rw [hp] at hst
    cases hst
  | walk c pos =>
    rw [hp] at hst
    obtain ⟨_,rfl⟩ | ⟨q,_,⟨_,rfl⟩ | ⟨_,rfl⟩⟩ := Workqueue.walk_spec hst <;>
      exact ⟨fun _ hw => hw,fun _ => .inl rfl⟩
  | recheck c pre pos =>
    rw [hp] at hst
    obtain ⟨_,rfl⟩ | ⟨q,_,⟨_,rfl⟩ | ⟨_,rfl⟩⟩ := Workqueue.recheck_spec hst <;>
      exact ⟨fun _ hw => hw,fun _ => .inl rfl⟩
  | lock c pre q | lockPool c pre =>
    rw [hp] at hst
    obtain ⟨_,rfl⟩ := guarded_eq_some.mp hst
    exact ⟨fun _ hw => hw,fun _ => .inl rfl⟩
  | unlock c pre q =>
    rw [hp] at hst
    cases pre <;> cases hst <;> exact ⟨fun _ hw => hw,fun _ => .inl rfl⟩
  | alloc c =>
    rw [hp] at hst
    cases mem with
    | some mem =>
      cases hst
      exact ⟨fun _ hw => hw,fun _ => .inl rfl⟩
    | none =>
      cases hst
      refine ⟨fun w hw => ?_,fun _ => .inl rfl⟩
      by_cases hwc : w = c.work
      · simp [Workqueue.State.goto,hwc] at hw
      · simpa [Workqueue.State.goto,hwc] using hw
  | create r =>
    have habs := (hi.absent a r (by rw [hp]; rfl)).2
    rw [hp] at hst
    cases hst
    refine ⟨fun _ hw => hw,fun q => ?_⟩
    by_cases hq : q = r
    · exact .inr ⟨hq ▸ habs,by simp [Workqueue.State.goto,Workqueue.State.workerGoto,hq]⟩
    · exact .inl (by simp [Workqueue.State.goto,Workqueue.State.workerGoto,hq])
  | init | enter | first | add | leave | setCpu | addPre | publish | unlockPool | drop | store
  | wake =>
    rw [hp] at hst
    cases hst
    exact ⟨fun _ hw => hw,fun _ => .inl rfl⟩

theorem HandInv.go {mem : Option Workqueue.Word} {here : Workqueue.Word} (h : HandInv s r)
    (hi : Workqueue.PoolInv s qs []) (hst : Workqueue.go s a mem here (s.pc a) = some s') :
    HandInv s' r := by
  obtain ⟨hpend,hw⟩ := go_keeps hi hst
  have hheld : ∀ q t, .inl t ∈ (s'.worker q).held → .inl t ∈ (s.worker q).held := by
    intro q t ht
    obtain he | ⟨_,he⟩ := hw q
    · rwa [he] at ht
    · rw [he] at ht
      cases ht
  refine ⟨fun t ht => h.pending t (hpend _ ht),fun q t ht => ⟨(h.held q t (hheld q t ht)).1,?_⟩,
    fun q q' t ht ht' => h.one q q' t (hheld q t ht) (hheld q' t ht'),fun q t ht => ?_⟩
  · have hn := (h.held q t (hheld q t ht)).2
    by_contra hp
    rw [hpend _ (by simpa using hp)] at hn
    cases hn
  · obtain he | ⟨he,_⟩ := hw q
    · rw [he]
      exact h.running q t ht
    · have := h.running q t ht
      rw [he] at this
      cases this

theorem HandInv.worker {ι O : Type} {s s' : Base ι O} {r : Await ℕ} {q : ℕ}
    {p : Workqueue.WorkerPc (Work O)} (h : HandInv s r)
    (hpend : s'.pending = s.pending) (hw : s'.worker = Function.update s.worker q p)
    (hheld : ∀ t, .inl t ∈ p.held → .inl t ∈ (s.worker q).held)
    (hrun : ∀ t, (r.worker q).task = some t → p = .run (.inl t)) : HandInv s' r := by
  have hall : ∀ v t, .inl t ∈ (s'.worker v).held → .inl t ∈ (s.worker v).held := by
    intro v t ht
    rw [hw] at ht
    by_cases hv : v = q
    · subst hv
      exact hheld t (by simpa using ht)
    · simpa [hv] using ht
  refine ⟨fun t ht => h.pending t (by rwa [hpend] at ht),fun v t ht => ?_,
    fun v v' t ht ht' => h.one v v' t (hall v t ht) (hall v' t ht'),fun v t ht => ?_⟩
  · rw [hpend]
    exact h.held v t (hall v t ht)
  · rw [hw]
    by_cases hv : v = q
    · subst hv
      rw [Function.update_self]
      exact hrun t ht
    · rw [Function.update_of_ne hv]
      exact h.running v t ht

theorem HandInv.pop {w : Work O} {xs : List (Work O)} (h : HandInv s r)
    (hi : Workqueue.NoJoinInv s qs ws) (hp : s.worker q = .pop) (hq : ws q = some xs)
    (hn : s.links.next (.works q) = .work w) :
    HandInv ((Workqueue.takeOut s q w).workerGoto q (.unlock (some w))) r := by
  have hlist := hi.work.list q xs hq
  have hpend : s.pending w = true := by
    obtain ⟨_,hn'⟩ | ⟨v,ys,rfl,hn'⟩ := hlist.first
    · rw [hn'] at hn
      cases hn
    · rw [hn'] at hn
      cases hn
      exact hi.carry.linked w q ((hlist.home w).mpr List.mem_cons_self)
  have hother : ∀ v t, v ≠ q → .inl t ∈ (s.worker v).held → (.inl t : Work O) ≠ w := by
    intro v t _ ht he
    rw [← he,(h.held v t ht).2] at hpend
    cases hpend
  refine ⟨fun t ht => ?_,fun v t ht => ?_,fun v v' t ht ht' => ?_,fun v t ht => ?_⟩
  · refine h.pending t ?_
    by_cases he : (.inl t : Work O) = w
    · rw [he]
      exact hpend
    · simpa [Workqueue.takeOut,Workqueue.State.workerGoto,he] using ht
  · by_cases hv : v = q
    · subst hv
      have he : .inl t = w := by
        simpa [Workqueue.takeOut,Workqueue.State.workerGoto,Workqueue.WorkerPc.held] using ht
      subst he
      exact ⟨h.pending t hpend,by simp [Workqueue.takeOut,Workqueue.State.workerGoto]⟩
    · have ht' : .inl t ∈ (s.worker v).held := by
        simpa [Workqueue.takeOut,Workqueue.State.workerGoto,hv] using ht
      refine ⟨(h.held v t ht').1,?_⟩
      simpa [Workqueue.takeOut,Workqueue.State.workerGoto,hother v t hv ht'] using
        (h.held v t ht').2
  · have hback : ∀ v, .inl t ∈ (((Workqueue.takeOut s q w).workerGoto q
        (.unlock (some w))).worker v).held → v = q ∧ .inl t = w ∨
        v ≠ q ∧ .inl t ∈ (s.worker v).held := by
      intro v hv
      by_cases hvq : v = q
      · subst hvq
        exact .inl ⟨rfl,by
          simpa [Workqueue.takeOut,Workqueue.State.workerGoto,Workqueue.WorkerPc.held] using hv⟩
      · exact .inr ⟨hvq,by
          simpa [Workqueue.takeOut,Workqueue.State.workerGoto,hvq] using hv⟩
    obtain ⟨rfl,he⟩ | ⟨hv,hm⟩ := hback v ht <;> obtain ⟨rfl,he'⟩ | ⟨hv',hm'⟩ := hback v' ht'
    · rfl
    · exact absurd he (hother v' t hv' hm')
    · exact absurd he' (hother v t hv hm)
    · exact h.one v v' t hm hm'
  · have hr := h.running v t ht
    have hv : v ≠ q := fun hv => by
      rw [hv,hp] at hr
      cases hr
    simpa [Workqueue.takeOut,Workqueue.State.workerGoto,hv] using hr

theorem task_eq_none {p : WorkerPc} : p.task = none ↔ p = .idle := by
  cases p <;> simp [WorkerPc.task]

theorem HandInv.idle {ι O : Type} {s : Base ι O} {r : Await ℕ} {q : ℕ} (h : HandInv s r)
    (hp : ∀ t, s.worker q ≠ .run (.inl t)) : r.worker q = .idle := by
  rw [← task_eq_none]
  cases ht : (r.worker q).task with
  | none => rfl
  | some t => exact absurd (h.running q t ht) (hp t)

theorem HandInv.workerGo (h : HandInv s r) (hi : Workqueue.NoJoinInv s qs ws)
    (hst : Workqueue.workerGo s q (s.worker q) = some s') (hl : workShown q (s.worker q) = none) :
    HandInv s' r := by
  have hrun : ∀ p : Workqueue.WorkerPc (Work O), (∀ t, s.worker q ≠ .run (.inl t)) →
      ∀ t, (r.worker q).task = some t → p = .run (.inl t) := by
    intro p hp t ht
    rw [h.idle hp] at ht
    cases ht
  cases hp : s.worker q with
  | absent | exited =>
    rw [hp] at hst
    cases hst
  | pop =>
    obtain ⟨xs,hxs⟩ := hi.work.works (q:=q) (by rw [hp]; rintro ⟨⟩)
    rw [hp] at hst
    obtain ⟨_,rfl⟩ | ⟨w,hn,rfl⟩ := Workqueue.pop_spec hst
    · exact h.worker rfl rfl (by rintro _ ⟨⟩) (hrun _ (by simp [hp]))
    · exact h.pop hi hp hxs hn
  | test =>
    rw [hp] at hst
    cases hst
    refine h.worker rfl rfl (fun t ht => ?_) (hrun _ (by simp [hp]))
    split at ht <;> cases ht
  | lock | wait =>
    rw [hp] at hst
    obtain ⟨_,rfl⟩ := guarded_eq_some.mp hst
    exact h.worker rfl rfl (by rintro _ ⟨⟩) (hrun _ (by simp [hp]))
  | unlock w =>
    rw [hp] at hst
    cases hst
    refine h.worker rfl rfl (fun t ht => ?_) (hrun _ (by simp [hp]))
    cases w with
    | none => cases ht
    | some w =>
      rw [hp]
      exact ht
  | call w =>
    rw [hp] at hst hl
    cases w with
    | inl t => cases hl
    | inr w =>
      cases hst
      exact h.worker rfl rfl (by rintro _ ⟨⟩) (hrun _ (by simp [hp]))
  | run w =>
    rw [hp] at hst hl
    cases w with
    | inl t => cases hl
    | inr w =>
      obtain ⟨_,rfl⟩ := guarded_eq_some.mp hst
      exact h.worker rfl rfl (by rintro _ ⟨⟩) (hrun _ (by simp [hp]))

/-- The task that a worker enters is queued and the worker is free, so the await sees a start. -/
theorem HandInv.start {ι O : Type} [DecidableEq O] {s s' : Base ι O} {r : Await ℕ} {t : Address}
    {q : ℕ} (h : HandInv s r) (hnd : r.queued.Nodup) (hp : s.worker q = .call (.inl t))
    (hst : Workqueue.workerGo s q (s.worker q) = some s') (st : Taskflow.State) (tf : BitVec 64) :
    stepAwait st tf r (.start q t) = some (startTask st r q t) ∧
      HandInv s' (startTask st r q t) := by
  have hheld : .inl t ∈ (s.worker q).held := by simp [hp,Workqueue.WorkerPc.held]
  obtain ⟨hq,hpend⟩ := h.held q t hheld
  have hidle := h.idle (q:=q) (by simp [hp])
  rw [hp] at hst
  cases hst
  have hw : ∀ v t', .inl t' ∈ (Function.update s.worker q
      (.run (.inl t) : Workqueue.WorkerPc (Work O)) v).held →
      v ≠ q ∧ .inl t' ∈ (s.worker v).held := by
    intro v t' hv
    by_cases hvq : v = q
    · rw [hvq,Function.update_self] at hv
      cases hv
    · exact ⟨hvq,by rwa [Function.update_of_ne hvq] at hv⟩
  refine ⟨guarded_eq_some.mpr ⟨⟨hidle,hq⟩,rfl⟩,fun t' ht' => ?_,fun v t' hv => ?_,
    fun v v' t' hv hv' => h.one v v' t' (hw v t' hv).2 (hw v' t' hv').2,fun v t' ht' => ?_⟩
  · refine (hnd.mem_erase_iff).mpr ⟨?_,h.pending t' ht'⟩
    rintro rfl
    have ht'' : s.pending (.inl t') = true := ht'
    rw [hpend] at ht''
    cases ht''
  · obtain ⟨hvq,hv'⟩ := hw v t' hv
    obtain ⟨hm,hn⟩ := h.held v t' hv'
    refine ⟨(hnd.mem_erase_iff).mpr ⟨?_,hm⟩,hn⟩
    rintro rfl
    exact hvq (h.one v q t' hv' hheld)
  · by_cases hvq : v = q
    · subst hvq
      obtain rfl : t = t' := by simpa [startTask,WorkerPc.task] using ht'
      simp [Workqueue.State.workerGoto]
    · have hr := h.running v t' (by simpa [startTask,hvq] using ht')
      simpa [Workqueue.State.workerGoto,hvq] using hr

theorem HandInv.schedule {c : Workqueue.Call (Work O)} (h : HandInv s r) (hc : c.work = .inl t)
    (ht : t ∉ r.queued) (hq : r'.queued = t::r.queued) (hw : r'.worker = r.worker) :
    HandInv ({ s with pending := Function.update s.pending c.work true }.goto a (.init c)) r' := by
  refine ⟨fun t' ht' => ?_,fun v t' hv => ?_,h.one,fun v t' hv => ?_⟩
  · rw [hq]
    by_cases he : t' = t
    · simp [he]
    · exact List.mem_cons_of_mem _ (h.pending t' (by simpa [Workqueue.State.goto,hc,he] using ht'))
  · obtain ⟨hm,hn⟩ := h.held v t' hv
    have he : t' ≠ t := fun he => ht (he ▸ hm)
    rw [hq]
    exact ⟨List.mem_cons_of_mem _ hm,by simpa [Workqueue.State.goto,hc,he] using hn⟩
  · rw [hw] at hv
    exact h.running v t' hv

theorem HandInv.task {ι O : Type} {st : Taskflow.State} {s : Base ι O} {r r' : Await ℕ} {q : ℕ}
    {b : AwaitAct ℕ} (h : HandInv s r) (hb : b = .ret q ∨ b = .complete q)
    (hst : workerStep st r b = some r') : HandInv s r' := by
  have hout : ∃ p, r'.queued = r.queued ∧ r'.worker = Function.update r.worker q p ∧
      ∀ t, p.task = some t → (r.worker q).task = some t := by
    obtain rfl | rfl := hb <;> simp only [workerStep] at hst <;> split at hst
    · rename_i hw
      cases hst
      exact ⟨_,rfl,rfl,fun t ht => by rw [hw]; exact ht⟩
    · cases hst
    · cases hst
      exact ⟨_,rfl,rfl,by rintro _ ⟨⟩⟩
    · cases hst
  obtain ⟨p,hq,hw,hp⟩ := hout
  refine ⟨by rw [hq]; exact h.pending,by rw [hq]; exact h.held,h.one,fun v t ht => ?_⟩
  rw [hw] at ht
  by_cases hv : v = q
  · subst hv
    exact h.running v t (hp t (by simpa using ht))
  · exact h.running v t (by simpa [hv] using ht)

/-- What every run of the await over the workqueues keeps. -/
structure OverInv (st : Taskflow.State) (tf : BitVec 64) (f : Flow)
    (completion : BitVec 64 → Completion) (s : Base ι O × Awaiter) : Prop where
  base : ∃ qs ws, Workqueue.NoJoinInv s.1 qs ws
  await : AwaitKept st tf f completion s.2.await
  hand : HandInv s.1 s.2.await

theorem OverInv.init {ι O : Type} [DecidableEq ι] {st : Taskflow.State} {tf : BitVec 64} {f : Flow}
    {completion : BitVec 64 → Completion} (hf : Grouped st tf f) :
    OverInv st tf f completion (Workqueue.init ι (Work O),⟨beginAwait st tf completion,false⟩) where
  base := ⟨_,_,.init,.init,.init,rfl,by rintro _ ⟨⟩⟩
  await := ⟨.refl,[],f,[],.begin hf completion⟩
  hand := by
    refine ⟨(by rintro _ ⟨⟩),(by rintro _ _ ⟨⟩),(by rintro _ _ _ ⟨⟩),(by rintro _ _ ⟨⟩)⟩

theorem base_step {act : Workqueue.Act ι (Work O)} (h : Workqueue.NoJoinInv s qs ws)
    (hst : Workqueue.step s act = some s') (hok : Workqueue.Undisturbed s act) :
    ∃ qs ws, Workqueue.NoJoinInv s' qs ws := ⟨_,_,h.step hok hst⟩

theorem OverInv.hidden {act : Workqueue.Act ι (Work O)} {e : Base ι O × Awaiter}
    (h : OverInv st tf f completion e) (hok : Friendly me e (.inl act))
    (hst : Workqueue.step e.1 act = some s') (hl : label me e.1 act = none) :
    OverInv st tf f completion (s',e.2) := by
  obtain ⟨⟨qs,ws,hi⟩,hr,hh⟩ := h
  cases act with
  | call a c =>
    cases hc : c.work with
    | inl t => simp [label,hc] at hl
    | inr w =>
      have hn : e.1.pending c.work = false := by simpa [Friendly,hc] using hok
      have hbase := base_step hi hst hn
      obtain ⟨_,rfl⟩ := guarded_eq_some.mp hst
      refine ⟨hbase,hr,fun t ht => hh.pending t ?_,fun v t hv => ?_,hh.one,hh.running⟩
      · simpa [Workqueue.State.goto,hc] using ht
      · simpa [Workqueue.State.goto,hc] using hh.held v t hv
  | go a mem here => exact ⟨base_step hi hst trivial,hr,hh.go hi.pool hst⟩
  | work q => exact ⟨base_step hi hst trivial,hr,hh.workerGo hi hst hl⟩
  | exit | join => exact hok.elim

theorem OverInv.seen {act : Workqueue.Act ι (Work O)} {e : Base ι O × Awaiter} {b : Shown O}
    (h : OverInv st tf f completion e) (hf : Grouped st tf f)
    (hst : Workqueue.step e.1 act = some s') (hl : label me e.1 act = some b)
    (hu : react st tf e.2 b = some u') : OverInv st tf f completion (s',u') := by
  obtain ⟨⟨qs,ws,hi⟩,hr,hh⟩ := h
  have hnd : e.2.await.queued.Nodup := by
    obtain ⟨_,_,_,_,hinv⟩ := hr
    exact hinv.jobs.nodup
  cases act with
  | call a c =>
    obtain ⟨hleft,hb⟩ := Option.ite_none_right_eq_some.mp hl
    cases hb
    obtain ⟨⟨_,hc⟩,hu⟩ := Option.ite_none_right_eq_some.mp hu
    obtain ⟨r',hst',rfl⟩ := Option.map_eq_some_iff.mp hu
    obtain ⟨t,hw,ht,hq,hwk⟩ := hr.schedule hf hc hst'
    have hpend : e.1.pending c.work = false := by
      by_contra hp
      exact ht (hh.pending t (by rw [← hw]; simpa using hp))
    have hbase := base_step hi hst hpend
    obtain ⟨_,rfl⟩ := guarded_eq_some.mp hst
    exact ⟨hbase,hr.step hf (b:=.await) hst',hh.schedule hw ht hq hwk⟩
  | go a mem here =>
    obtain ⟨_,hb⟩ := Option.ite_none_right_eq_some.mp hl
    cases hb
    cases hu
    exact ⟨base_step hi hst trivial,hr,hh.go hi.pool hst⟩
  | work q =>
    have hbase := base_step hi hst trivial
    have hl' : workShown q (e.1.worker q) = some b := hl
    cases hp : e.1.worker q with
    | call w =>
      rw [hp] at hl'
      cases w with
      | inr w => cases hl'
      | inl t =>
        cases hl'
        cases hu
        obtain ⟨hstart,hh'⟩ := hh.start hnd hp hst st tf
        exact ⟨hbase,hr.step hf hstart,hh'⟩
    | run w =>
      rw [hp] at hl'
      cases w with
      | inr w => cases hl'
      | inl t =>
        cases hl'
        obtain ⟨hidle,rfl⟩ := guarded_eq_some.mp hu
        have hst' : Workqueue.workerGo e.1 q (.run (.inl t)) = some s' := hp ▸ hst
        obtain ⟨_,rfl⟩ := guarded_eq_some.mp hst'
        refine ⟨hbase,hr,hh.worker rfl rfl (by rintro _ ⟨⟩) fun t' ht' => ?_⟩
        rw [hidle] at ht'
        cases ht'
    | _ =>
      rw [hp] at hl'
      cases hl'
  | exit | join => cases hl

theorem OverInv.own {d : OwnAct} {e : Base ι O × Awaiter} (h : OverInv st tf f completion e)
    (hf : Grouped st tf f) (hu : own O st tf e.2 d = some u') :
    OverInv st tf f completion (e.1,u') := by
  obtain ⟨hbase,hr,hh⟩ := h
  cases d with
  | await =>
    obtain ⟨⟨_,hc⟩,hu⟩ := Option.ite_none_right_eq_some.mp hu
    obtain ⟨r',hst,rfl⟩ := Option.map_eq_some_iff.mp hu
    obtain ⟨hq,hw⟩ := awaitStep_queued hc hst
    refine ⟨hbase,hr.step hf (b:=.await) hst,fun t ht => ?_,fun v t hv => ?_,hh.one,
      fun v t hv => ?_⟩
    · rw [hq]
      exact hh.pending t ht
    · rw [hq]
      exact hh.held v t hv
    · rw [hw] at hv
      exact hh.running v t hv
  | ret q =>
    obtain ⟨r',hst,rfl⟩ := Option.map_eq_some_iff.mp hu
    exact ⟨hbase,hr.step hf (b:=.ret q) hst,hh.task (.inl rfl) hst⟩
  | complete q =>
    obtain ⟨r',hst,rfl⟩ := Option.map_eq_some_iff.mp hu
    exact ⟨hbase,hr.step hf (b:=.complete q) hst,hh.task (.inr rfl) hst⟩

end Step

section Run

variable [DecidableEq ι] [DecidableEq O]

/-- On the workqueues, with any callers of other works and every interleaving: the await and the
tasks do what the model of the await says, so that the groups run one after the other, and each
task runs within the function of its own work. -/
theorem awaitOverWorkqueues {me : ι} {st : Taskflow.State} {tf : BitVec 64} {f : Flow}
    {completion : BitVec 64 → Completion} {s : Base ι O} {u : Awaiter} (hf : Grouped st tf f)
    (h : Reach (stepOver me st tf) (Friendly me)
      (Workqueue.init ι (Work O),⟨beginAwait st tf completion,false⟩) (s,u)) :
    Reach (stepAwait st tf) Anything (beginAwait st tf completion) u.await ∧
      Barriers st tf f u.await ∧
      ∀ q t, (u.await.worker q).task = some t → s.worker q = .run (.inl t) := by
  have hi : OverInv st tf f completion (s,u) := by
    refine h.invariant (.init hf) fun e act e' hi hok hst => ?_
    obtain ⟨s,u⟩ := e
    obtain ⟨a,s',rfl,hs,⟨hl,rfl⟩ | ⟨b,u',hl,hu,rfl⟩⟩ | ⟨d,u',rfl,hu,rfl⟩ := compose_cases hst
    · exact hi.hidden hok hs hl
    · exact hi.seen hf hs hl hu
    · exact hi.own hf hu
  obtain ⟨_,⟨hr,_,_,_,hinv⟩,hh⟩ := hi
  exact ⟨hr,hinv.barriers hf,hh.running⟩

end Run

def goes (n : ℕ) : List (Workqueue.Act Unit (Work Unit) ⊕ OwnAct) :=
  List.replicate n (.inl (.go (.outside ()) (some 0) 0))

def awaits (n : ℕ) : List (Workqueue.Act Unit (Work Unit) ⊕ OwnAct) :=
  List.replicate n (.inr .await)

def hands (cpu : Workqueue.Word) (task : Address) :
    List (Workqueue.Act Unit (Work Unit) ⊕ OwnAct) :=
  [.inl (.call (.outside ()) ⟨.taskflow,cpu,.inl task⟩)]

/-- The worker of `q` pops a task and runs it. -/
def runs (q : ℕ) : List (Workqueue.Act Unit (Work Unit) ⊕ OwnAct) :=
  List.replicate 5 (.inl (.work q)) ++ [.inr (.ret q),.inr (.complete q),.inl (.work q)]

/-- Each task of the first group gets a workqueue of its own; the second one completes first.
The task of the second group goes to the first workqueue. -/
def overRun : List (Workqueue.Act Unit (Work Unit) ⊕ OwnAct) :=
  awaits 3 ++ hands 0 taskA ++ goes 15 ++ hands 1 taskB ++ goes 17 ++ awaits 1 ++
    runs 1 ++ runs 0 ++ awaits 5 ++ hands 0 taskC ++ goes 10 ++ awaits 1 ++ runs 0 ++ awaits 3

theorem awaitOverWorkqueues_twoGroups : ∃ st, exec (Taskflow.step flowPtr) emptyFlow twoGroups =
    some st ∧ ∃ (s : Base Unit Unit) (u : Awaiter),
      Reach (stepOver () st flowPtr.addr) (Friendly ())
        (Workqueue.init Unit (Work Unit),⟨beginAwait st flowPtr.addr fun _ => ⟨7,3⟩,false⟩) (s,u) ∧
      u.await.pc = .done ∧ s.executed 0 = [.inl taskA,.inl taskC] ∧
      Barriers st flowPtr.addr [(taskA,[taskB]),(taskC,[])] u.await := by
  have hs : ∃ st, exec (Taskflow.step flowPtr) emptyFlow twoGroups = some st ∧
      Grouped st flowPtr.addr [(taskA,[taskB]),(taskC,[])] ∧
      (exec (restrict (stepOver () st flowPtr.addr) (Friendly ()))
        (Workqueue.init Unit (Work Unit),⟨beginAwait st flowPtr.addr fun _ => ⟨7,3⟩,false⟩)
        overRun).map (fun e => (e.2.await.pc,e.1.executed 0)) =
        some (.done,[.inl taskA,.inl taskC]) := by
    refine ⟨_,rfl,⟨?_,?_,by decide,?_,?_⟩,by decide +kernel⟩
    · simp [Flow.mains,Linked]
      decide
    · simp [Linked]
      decide
    · decide
    · decide
  obtain ⟨st,hst,hf,hr⟩ := hs
  obtain ⟨⟨s,u⟩,hr,hp⟩ := Option.map_eq_some_iff.mp hr
  obtain ⟨hpc,he⟩ := Prod.mk.inj hp
  have hreach := reach_of_exec_restrict hr
  exact ⟨st,hst,s,u,hreach,hpc,he,(awaitOverWorkqueues hf hreach).2.1⟩

end TaskWorks
end Mthpc
