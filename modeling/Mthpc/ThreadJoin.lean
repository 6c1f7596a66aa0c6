import Mthpc.StartBarrier

/-!
# The return of a synchronous run

`__mthpc_thread_run` has its barrier object on its stack, and its joins alone keep the threads
it has created from using the object after the return. Other callers, reapers and threads go on
meanwhile. The reapers find `nr_exited` of the groups at 0 and pass them by, so the handles are
joined by the call only, each of them once.
-/
namespace Mthpc
namespace ThreadGroup

open StepSystem

variable {ρ υ κ ω : Type} [DecidableEq ρ] [DecidableEq υ] [DecidableEq κ] [DecidableEq ω]

def RunPc.inUse (groups : List Group) : RunPc → List Group
  | .idle | .queue | .done | .failed => []
  | .begin => groups
  | .prepare rest => groups ++ rest
  | .lock g rest | .add g rest | .unlock g rest | .publish g rest | .create g _ rest =>
    groups ++ g::rest
  | .join todo _ => todo

/-- The call has joined the thread of slot `j` of group `g`. -/
def RunPc.hasJoined (g : Group) (j : ℕ) : RunPc → Bool
  | .join [] _ | .done => true
  | .join (g'::rest) j' => decide (g ∉ rest ∧ (g = g' → j < j'))
  | _ => false

def State.Reaped (s : State ρ υ κ ω) (g : Group) : Prop :=
  (∃ k, (s.joiner k).reaps g) ∨ ∃ w, (s.waiter w).reaps g

/-- No other call is under way on a group of `r`. -/
def Undisturbed (cfg : Config ρ ω) (r : ρ) (s : State ρ υ κ ω) : Prop :=
  ∀ q, q ≠ r → ∀ g ∈ (s.runner q).inUse (cfg.groups q), g ∉ cfg.groups r

/-- What the caller may rely on: every thread has exited and its handle has been joined, once
since `before`, and nobody is left who has a pointer to the barrier object. -/
structure Returned (cfg : Config ρ ω) (r : ρ) (before : Thread ρ → ℕ) (s : State ρ υ κ ω) :
    Prop where
  exited : ∀ i ∈ cfg.team r, s.worker i = .exited
  joined : ∀ i ∈ cfg.team r, s.joined i = before i+1
  object : ∀ i, (s.worker i).object ≠ some r ∧ (s.bars.pc i).on ≠ some (.inl r)

section Moves

/-- A step of thread `i`. -/
structure ThreadMoves (cfg : Config ρ ω) (i : Thread ρ) (s t : State ρ υ κ ω) : Prop where
  alive : ¬ (s.worker i).quiet
  present : t.worker i ≠ .absent
  workers : ∀ j, j ≠ i → t.worker j = s.worker j
  nrExited : ∀ g, t.nrExited g = s.nrExited g ∨ g = i.group ∧ cfg.isAsync i.call = true
  runner : t.runner = s.runner
  joiner : t.joiner = s.joiner
  waiter : t.waiter = s.waiter
  thread : t.thread = s.thread
  joined : t.joined = s.joined
  freed : t.freed = s.freed

/-- A step of a caller of `mthpc_thread_wq_join` or `__mthpc_thread_async_wait`. -/
structure ReaperMoves (cfg : Config ρ ω) (s t : State ρ υ κ ω) : Prop where
  worker : t.worker = s.worker
  nrExited : t.nrExited = s.nrExited
  runner : t.runner = s.runner
  thread : t.thread = s.thread
  reaps : ∀ g, t.Reaped g → s.Reaped g ∨ s.nrExited g = cfg.nr g ∨ cfg.nr g = 0
  joined : ∀ i, t.joined i = s.joined i ∨ s.Reaped i.group
  freed : ∀ o, t.freed o = s.freed o ∨ ∃ g, s.Reaped g ∧ s.barrierObject g = some o

/-- A step of the caller `q` of one of the two run functions. -/
structure RunnerMoves (cfg : Config ρ ω) (a : Act ρ υ κ ω) (q : ρ) (s t : State ρ υ κ ω) :
    Prop where
  workers : ∀ i, i.call ≠ q → t.worker i = s.worker i
  nrExited : t.nrExited = s.nrExited
  runners : ∀ p, p ≠ q → t.runner p = s.runner p
  joiner : t.joiner = s.joiner
  waiter : t.waiter = s.waiter
  inUse : a = .runCall q ∨ ∀ g ∈ (t.runner q).inUse (cfg.groups q),
    g ∈ (s.runner q).inUse (cfg.groups q)
  thread : ∀ g, g ∉ (s.runner q).inUse (cfg.groups q) → t.thread g = s.thread g
  joined : ∀ i, i.group ∉ (s.runner q).inUse (cfg.groups q) → t.joined i = s.joined i
  freed : t.freed = s.freed

variable {cfg : Config ρ ω} {s t : State ρ υ κ ω} {a : Act ρ υ κ ω}

theorem RunnerMoves.of_update {ρ υ κ ω : Type} [DecidableEq ρ] {cfg : Config ρ ω}
    {s t : State ρ υ κ ω} {a : Act ρ υ κ ω} {q : ρ} {pc : RunPc}
    (hr : t.runner = Function.update s.runner q pc)
    (hw : t.worker = s.worker) (hx : t.nrExited = s.nrExited) (hj : t.joiner = s.joiner)
    (hwt : t.waiter = s.waiter) (ht : t.thread = s.thread) (hjd : t.joined = s.joined)
    (hf : t.freed = s.freed) (hu : a = .runCall q ∨
      ∀ g ∈ pc.inUse (cfg.groups q), g ∈ (s.runner q).inUse (cfg.groups q)) :
    RunnerMoves cfg a q s t where
  workers _ _ := by rw [hw]
  nrExited := hx
  runners p hp := by rw [hr,Function.update_of_ne hp]
  joiner := hj
  waiter := hwt
  inUse := by rwa [hr,Function.update_self]
  thread _ _ := by rw [ht]
  joined _ _ := by rw [hjd]
  freed := hf

theorem ThreadMoves.of_update {ρ υ κ ω : Type} [DecidableEq ρ] {cfg : Config ρ ω}
    {s t : State ρ υ κ ω} {i : Thread ρ} {pc : WorkerPc ρ} (hi : ¬ (s.worker i).quiet)
    (hw : t.worker = Function.update s.worker i pc) (hpc : pc ≠ .absent)
    (hr : t.runner = s.runner) (hj : t.joiner = s.joiner) (hwt : t.waiter = s.waiter)
    (ht : t.thread = s.thread) (hjd : t.joined = s.joined) (hf : t.freed = s.freed)
    (hx : ∀ g, t.nrExited g = s.nrExited g ∨ g = i.group ∧ cfg.isAsync i.call = true) :
    ThreadMoves cfg i s t where
  alive := hi
  present := by rwa [hw,Function.update_self]
  workers j hj := by rw [hw,Function.update_of_ne hj]
  nrExited := hx
  runner := hr
  joiner := hj
  waiter := hwt
  thread := ht
  joined := hjd
  freed := hf

theorem ReaperMoves.of_reaps {ρ υ κ ω : Type} {cfg : Config ρ ω} {s t : State ρ υ κ ω}
    (hw : t.worker = s.worker) (hx : t.nrExited = s.nrExited)
    (hr : t.runner = s.runner) (ht : t.thread = s.thread)
    (hj : ∀ k g, (t.joiner k).reaps g → (s.joiner k).reaps g ∨ s.nrExited g = cfg.nr g)
    (hwt : ∀ w g, (t.waiter w).reaps g →
      (s.waiter w).reaps g ∨ s.nrExited g = cfg.nr g ∨ cfg.nr g = 0)
    (hjd : ∀ i, t.joined i = s.joined i ∨ s.Reaped i.group)
    (hf : ∀ o, t.freed o = s.freed o ∨ ∃ g, s.Reaped g ∧ s.barrierObject g = some o) :
    ReaperMoves cfg s t where
  worker := hw
  nrExited := hx
  runner := hr
  thread := ht
  reaps g := by
    rintro (⟨k,hk⟩ | ⟨w,hk⟩)
    · exact (hj k g hk).imp (fun h => .inl ⟨k,h⟩) .inl
    · exact (hwt w g hk).imp_left fun h => .inr ⟨w,h⟩
  joined := hjd
  freed := hf

theorem ReaperMoves.joiner {ρ υ κ ω : Type} [DecidableEq κ] {cfg : Config ρ ω} {s t : State ρ υ κ ω}
    {k : κ} {pc : JoinPc} (hw : t.worker = s.worker)
    (hx : t.nrExited = s.nrExited) (hr : t.runner = s.runner) (ht : t.thread = s.thread)
    (hj : t.joiner = Function.update s.joiner k pc) (hwt : t.waiter = s.waiter)
    (hpc : ∀ g, pc.reaps g → (s.joiner k).reaps g ∨ s.nrExited g = cfg.nr g)
    (hjd : ∀ i, t.joined i = s.joined i ∨ (s.joiner k).reaps i.group)
    (hf : ∀ o, t.freed o = s.freed o ∨ ∃ g, (s.joiner k).reaps g ∧ s.barrierObject g = some o) :
    ReaperMoves cfg s t := by
  refine .of_reaps hw hx hr ht (fun j g hg => ?_) (fun w g hg => by rw [hwt] at hg; exact .inl hg)
    (fun i => (hjd i).imp_right fun h => .inl ⟨k,h⟩) fun o => ?_
  · rw [hj] at hg
    by_cases hjk : j = k
    · subst hjk
      rw [Function.update_self] at hg
      exact hpc g hg
    · rw [Function.update_of_ne hjk] at hg
      exact .inl hg
  · obtain h | ⟨g,hg,ho⟩ := hf o
    · exact .inl h
    · exact .inr ⟨g,.inl ⟨k,hg⟩,ho⟩

theorem ReaperMoves.waiter {ρ υ κ ω : Type} [DecidableEq ω] {cfg : Config ρ ω} {s t : State ρ υ κ ω}
    {w : ω} {pc : WaitPc} (hw : t.worker = s.worker)
    (hx : t.nrExited = s.nrExited) (hr : t.runner = s.runner) (ht : t.thread = s.thread)
    (hj : t.joiner = s.joiner) (hwt : t.waiter = Function.update s.waiter w pc)
    (hpc : ∀ g, pc.reaps g → (s.waiter w).reaps g ∨ s.nrExited g = cfg.nr g ∨ cfg.nr g = 0)
    (hjd : ∀ i, t.joined i = s.joined i ∨ (s.waiter w).reaps i.group)
    (hf : ∀ o, t.freed o = s.freed o ∨ ∃ g, (s.waiter w).reaps g ∧ s.barrierObject g = some o) :
    ReaperMoves cfg s t := by
  refine .of_reaps hw hx hr ht (fun k g hg => by rw [hj] at hg; exact .inl hg) (fun v g hg => ?_)
    (fun i => (hjd i).imp_right fun h => .inr ⟨w,h⟩) fun o => ?_
  · rw [hwt] at hg
    by_cases hvw : v = w
    · subst hvw
      rw [Function.update_self] at hg
      exact hpc g hg
    · rw [Function.update_of_ne hvw] at hg
      exact .inl hg
  · obtain h | ⟨g,hg,ho⟩ := hf o
    · exact .inl h
    · exact .inr ⟨g,.inr ⟨w,hg⟩,ho⟩

theorem put_freed {ρ υ κ ω : Type} [DecidableEq ρ] {cfg : Config ρ ω} {s t : State ρ υ κ ω}
    {g : Group} {p : PutPc} {q : Option PutPc} (h : put cfg s g p = some (t,q)) :
    t.worker = s.worker ∧ t.nrExited = s.nrExited ∧ t.runner = s.runner ∧ t.thread = s.thread ∧
      t.joiner = s.joiner ∧ t.waiter = s.waiter ∧ t.joined = s.joined ∧
      ∀ o, t.freed o = s.freed o ∨ s.barrierObject g = some o := by
  cases p with
  | test | null =>
    cases h
    exact ⟨rfl,rfl,rfl,rfl,rfl,rfl,rfl,fun _ => .inl rfl⟩
  | add =>
    obtain ⟨o,ho,he⟩ := Option.map_eq_some_iff.mp h
    cases he
    exact ⟨rfl,rfl,rfl,rfl,rfl,rfl,rfl,fun _ => .inl rfl⟩
  | free =>
    simp only [put] at h
    cases ho : s.barrierObject g with
    | none =>
      rw [ho] at h
      cases h
      exact ⟨rfl,rfl,rfl,rfl,rfl,rfl,rfl,fun _ => .inl rfl⟩
    | some o =>
      rw [ho] at h
      cases h
      refine ⟨rfl,rfl,rfl,rfl,rfl,rfl,rfl,fun o' => ?_⟩
      by_cases he : o' = o
      · exact .inr (he ▸ rfl)
      · exact .inl (Function.update_of_ne he _ _)

theorem caller_moves {q : ρ} (ha : a.caller = some q) (hst : step cfg s a = some t) :
    RunnerMoves cfg a q s t := by
  cases a <;> simp only [Act.caller,Option.some.injEq,reduceCtorEq] at ha
  all_goals subst ha
  case runCall q =>
    obtain ⟨_,rfl⟩ := guarded_eq_some.mp hst
    exact .of_update rfl rfl rfl rfl rfl rfl rfl rfl (.inl rfl)
  case allocFail q =>
    obtain ⟨_,rfl⟩ := guarded_eq_some.mp hst
    exact .of_update rfl rfl rfl rfl rfl rfl rfl rfl (.inr fun _ hg => by cases hg)
  case runBegin q =>
    obtain ⟨hpc,rfl⟩ := guarded_eq_some.mp hst
    refine .of_update rfl rfl rfl rfl rfl rfl rfl rfl (.inr fun g hg => ?_)
    rw [hpc]
    simpa [RunPc.inUse] using hg
  case prepare q g rest =>
    obtain ⟨hpc,rfl⟩ := guarded_eq_some.mp hst
    refine .of_update rfl rfl rfl rfl rfl rfl rfl rfl (.inr fun g' hg => ?_)
    rw [hpc]
    split at hg <;> exact hg
  case prepared q =>
    obtain ⟨hpc,rfl⟩ := guarded_eq_some.mp hst
    refine .of_update rfl rfl rfl rfl rfl rfl rfl rfl (.inr fun g' hg => ?_)
    rw [hpc]
    split at hg
    · cases hg
    · exact List.mem_append_left _ hg
  case runLock q g rest =>
    obtain ⟨⟨hpc,-⟩,rfl⟩ := guarded_eq_some.mp hst
    refine .of_update rfl rfl rfl rfl rfl rfl rfl rfl (.inr fun g' hg => ?_)
    rw [hpc]
    exact hg
  case addTail q g rest | runUnlock q g rest | publish q g rest =>
    obtain ⟨hpc,rfl⟩ := guarded_eq_some.mp hst
    refine .of_update rfl rfl rfl rfl rfl rfl rfl rfl (.inr fun g' hg => ?_)
    rw [hpc]
    exact hg
  case create q g j rest =>
    obtain ⟨⟨hpc,_⟩,rfl⟩ := guarded_eq_some.mp hst
    refine ⟨fun i hi => ?_,rfl,fun p hp => Function.update_of_ne hp _ _,rfl,rfl,
      .inr fun g' hg => ?_,fun g' hg => ?_,fun _ _ => rfl,rfl⟩
    · have hne : i ≠ ⟨q,g,j⟩ := by
        rintro rfl
        exact hi rfl
      exact Function.update_of_ne hne _ _
    · simp only [Function.update_self] at hg
      rw [hpc]
      exact hg
    · have hne : g' ≠ g := by
        rintro rfl
        rw [hpc] at hg
        exact hg (List.mem_append_right _ List.mem_cons_self)
      exact Function.update_of_ne hne _ _
  case created q g j rest =>
    obtain ⟨⟨hpc,-⟩,rfl⟩ := guarded_eq_some.mp hst
    refine .of_update rfl rfl rfl rfl rfl rfl rfl rfl (.inr fun g' hg => ?_)
    rw [hpc]
    rcases List.mem_append.mp hg with hg | hg
    · exact List.mem_append_left _ hg
    · exact List.mem_append_right _ (List.mem_cons_of_mem _ hg)
  case runJoin q g rest j o =>
    obtain ⟨⟨hpc,_⟩,rfl⟩ := guarded_eq_some.mp hst
    refine ⟨fun _ _ => rfl,rfl,fun p hp => Function.update_of_ne hp _ _,rfl,rfl,
      .inr fun g' hg => ?_,fun _ _ => rfl,fun i hi => ?_,rfl⟩
    · simp only [Function.update_self] at hg
      rw [hpc]
      exact hg
    · have hne : i ≠ ⟨o,g,j⟩ := by
        rintro rfl
        rw [hpc] at hi
        exact hi List.mem_cons_self
      exact Function.update_of_ne hne _ _
  case runJoined q g rest j =>
    obtain ⟨⟨hpc,-⟩,rfl⟩ := guarded_eq_some.mp hst
    refine .of_update rfl rfl rfl rfl rfl rfl rfl rfl (.inr fun g' hg => ?_)
    rw [hpc]
    exact List.mem_cons_of_mem _ hg
  case runReturn q j | queueWork q =>
    obtain ⟨_,rfl⟩ := guarded_eq_some.mp hst
    exact .of_update rfl rfl rfl rfl rfl rfl rfl rfl (.inr fun _ hg => by cases hg)

theorem worker_moves {i : Thread ρ} (ha : a.worker = some i) (hst : step cfg s a = some t) :
    ThreadMoves cfg i s t := by
  cases a <;> simp only [Act.worker,Option.some.injEq,reduceCtorEq] at ha
  all_goals subst ha
  case threadInit i | testObject i | callFunc i =>
    obtain ⟨hpc,rfl⟩ := guarded_eq_some.mp hst
    refine .of_update (by simp [hpc,WorkerPc.quiet]) rfl ?_ rfl rfl rfl rfl rfl rfl
      fun _ => .inl rfl
    split <;> simp
  case pthreadExit i =>
    obtain ⟨hpc,rfl⟩ := guarded_eq_some.mp hst
    exact .of_update (by simp [hpc,WorkerPc.quiet]) rfl (by simp) rfl rfl rfl rfl rfl
      rfl fun _ => .inl rfl
  case cleanup i =>
    obtain ⟨hpc,rfl⟩ := guarded_eq_some.mp hst
    refine .of_update (by simp [hpc,WorkerPc.quiet]) rfl (by simp) rfl rfl rfl rfl rfl
      rfl fun g => ?_
    by_cases ha : cfg.isAsync i.call = true <;> by_cases hg : g = i.group
    · exact .inr ⟨hg,ha⟩
    · exact .inl (by simp [ha,hg])
    all_goals exact .inl (by simp [ha])
  case initReturn i | argBarrier i o | argCount i o o' | barrierReturn i o | funcReturn i =>
    obtain ⟨⟨hpc,-⟩,rfl⟩ := guarded_eq_some.mp hst
    exact .of_update (by simp [hpc,WorkerPc.quiet]) rfl (by simp) rfl rfl rfl rfl rfl
      rfl fun _ => .inl rfl
  case callBarrier i o n =>
    obtain ⟨hpc,hmap⟩ := Option.ite_none_right_eq_some.mp hst
    obtain ⟨b,-,rfl⟩ := Option.map_eq_some_iff.mp hmap
    exact .of_update (by simp [hpc,WorkerPc.quiet]) rfl (by simp) rfl rfl rfl rfl
      rfl rfl fun _ => .inl rfl
  case barrier i o b =>
    obtain ⟨hpc,hmap⟩ := Option.ite_none_right_eq_some.mp hst
    obtain ⟨_,-,rfl⟩ := Option.map_eq_some_iff.mp hmap
    exact ⟨by simp [hpc.1,WorkerPc.quiet],by simp [hpc.1],fun _ _ => rfl,
      fun _ => .inl rfl,rfl,rfl,rfl,rfl,rfl,rfl⟩
  case userBarrier i o b =>
    obtain ⟨hpc,hmap⟩ := Option.ite_none_right_eq_some.mp hst
    obtain ⟨_,-,rfl⟩ := Option.map_eq_some_iff.mp hmap
    have hw : ¬ (s.worker i).quiet ∧ s.worker i ≠ .absent := by
      rcases hpc.1 with hpc | hpc <;> simp [hpc,WorkerPc.quiet]
    exact ⟨hw.1,hw.2,fun _ _ => rfl,fun _ => .inl rfl,rfl,rfl,rfl,rfl,rfl,rfl⟩

theorem joiner_moves {k : κ} (ha : a.joiner = some k) (hst : step cfg s a = some t) :
    ReaperMoves cfg s t := by
  cases a with
  | joinCall k | joinLock k | scanned k | requeue k =>
    obtain ⟨_,rfl⟩ := guarded_eq_some.mp hst
    exact .joiner rfl rfl rfl rfl rfl rfl (fun _ h => h.elim) (fun _ => .inl rfl)
      fun _ => .inl rfl
  | scan k g rest =>
    obtain ⟨_,ht⟩ := guarded_eq_some.mp hst
    split at ht
    next he =>
      subst ht
      refine .joiner rfl rfl rfl rfl rfl rfl (fun g' hg => .inr ?_) (fun _ => .inl rfl)
        fun _ => .inl rfl
      exact (show g = g' from hg) ▸ he
    next =>
      subst ht
      exact .joiner rfl rfl rfl rfl rfl rfl (fun _ h => h.elim) (fun _ => .inl rfl)
        fun _ => .inl rfl
  | join k g j rest o =>
    obtain ⟨⟨hpc,-⟩,rfl⟩ := guarded_eq_some.mp hst
    refine .joiner rfl rfl rfl rfl rfl rfl (fun _ h => .inl (by rwa [hpc]))
      (fun i => ?_) fun _ => .inl rfl
    by_cases hi : i = ⟨o,g,j⟩
    · exact .inr (by rw [hpc,hi]; rfl)
    · exact .inl (Function.update_of_ne hi _ _)
  | joinDel k g j rest =>
    obtain ⟨⟨hpc,-⟩,rfl⟩ := guarded_eq_some.mp hst
    exact .joiner rfl rfl rfl rfl rfl rfl (fun _ h => .inl (by rwa [hpc]))
      (fun _ => .inl rfl) fun _ => .inl rfl
  | joinPut k g p rest =>
    obtain ⟨hpc,hmap⟩ := Option.ite_none_right_eq_some.mp hst
    obtain ⟨⟨u,q⟩,hput,rfl⟩ := Option.map_eq_some_iff.mp hmap
    obtain ⟨hw,hx,hr,ht,hj,hwt,hjd,hf⟩ := put_freed hput
    refine .joiner hw hx hr ht rfl hwt (fun g' h => .inl ?_) (fun i => .inl
      (by rw [← hjd])) fun o => (hf o).imp_right fun ho => ⟨g,by rw [hpc]; rfl,ho⟩
    rw [hpc]
    cases q with
    | some q => exact h
    | none => exact h.elim
  | joinUnlock k again =>
    obtain ⟨_,rfl⟩ := guarded_eq_some.mp hst
    refine .joiner rfl rfl rfl rfl rfl rfl (fun _ h => ?_) (fun _ => .inl rfl)
      fun _ => .inl rfl
    cases again <;> exact h.elim
  | _ => cases ha

theorem waiter_moves {w : ω} (ha : a.waiter = some w) (hst : step cfg s a = some t) :
    ReaperMoves cfg s t := by
  cases a with
  | waitCall w | waitNext w g rest | waitLock w g rest | waitDel w g rest | waitReturn w =>
    obtain ⟨_,rfl⟩ := guarded_eq_some.mp hst
    exact .waiter rfl rfl rfl rfl rfl rfl (fun _ h => h.elim) (fun _ => .inl rfl)
      fun _ => .inl rfl
  | waitUnlock w g rest =>
    obtain ⟨_,rfl⟩ := guarded_eq_some.mp hst
    exact .waiter rfl rfl rfl rfl rfl rfl (fun _ h => absurd h.2 (lt_irrefl 0))
      (fun _ => .inl rfl) fun _ => .inl rfl
  | spin w g j rest =>
    obtain ⟨⟨hpc,_⟩,rfl⟩ := guarded_eq_some.mp hst
    refine .waiter rfl rfl rfl rfl rfl rfl (fun g' h => ?_) (fun _ => .inl rfl)
      fun _ => .inl rfl
    rw [hpc]
    obtain ⟨rfl,hj⟩ := h
    by_cases he : s.nrExited g = cfg.nr g
    · exact .inr (.inl he)
    · rw [if_neg he] at hj
      exact .inl ⟨rfl,hj⟩
  | spun w g j rest =>
    obtain ⟨⟨hpc,hj⟩,rfl⟩ := guarded_eq_some.mp hst
    refine .waiter rfl rfl rfl rfl rfl rfl (fun g' h => ?_) (fun _ => .inl rfl)
      fun _ => .inl rfl
    obtain rfl : g = g' := h
    rw [hpc]
    by_cases hz : cfg.nr g = 0
    · exact .inr (.inr hz)
    · have hpos : 0 < (cfg.nr g).toNat := by
        apply Nat.pos_of_ne_zero
        intro h0
        exact hz (BitVec.eq_of_toNat_eq h0)
      exact .inl ⟨rfl,by omega⟩
  | waitJoin w g j rest o =>
    obtain ⟨⟨hpc,-⟩,rfl⟩ := guarded_eq_some.mp hst
    refine .waiter rfl rfl rfl rfl rfl rfl (fun _ h => .inl (by rwa [hpc]))
      (fun i => ?_) fun _ => .inl rfl
    by_cases hi : i = ⟨o,g,j⟩
    · exact .inr (by rw [hpc,hi]; rfl)
    · exact .inl (Function.update_of_ne hi _ _)
  | waitJoined w g j rest =>
    obtain ⟨⟨hpc,-⟩,rfl⟩ := guarded_eq_some.mp hst
    exact .waiter rfl rfl rfl rfl rfl rfl (fun _ h => .inl (by rwa [hpc]))
      (fun _ => .inl rfl) fun _ => .inl rfl
  | waitPut w g p rest =>
    obtain ⟨hpc,hmap⟩ := Option.ite_none_right_eq_some.mp hst
    obtain ⟨⟨u,q⟩,hput,rfl⟩ := Option.map_eq_some_iff.mp hmap
    obtain ⟨hw,hx,hr,ht,hj,hwt,hjd,hf⟩ := put_freed hput
    refine .waiter hw hx hr ht hj rfl (fun g' h => .inl ?_) (fun i => .inl
      (by rw [← hjd])) fun o => (hf o).imp_right fun ho => ⟨g,by rw [hpc]; rfl,ho⟩
    rw [hpc]
    cases q with
    | some q => exact h
    | none => exact h.elim
  | _ => cases ha

theorem step_moves (hst : step cfg s a = some t) :
    (∃ q, a.caller = some q ∧ RunnerMoves cfg a q s t) ∨ (∃ i, ThreadMoves cfg i s t) ∨
      ReaperMoves cfg s t := by
  obtain ⟨q,ha⟩ | ⟨i,ha⟩ | ⟨k,ha⟩ | ⟨w,ha⟩ := a.party
  · exact .inl ⟨q,ha,caller_moves ha hst⟩
  · exact .inr (.inl ⟨i,worker_moves ha hst⟩)
  · exact .inr (.inr (joiner_moves ha hst))
  · exact .inr (.inr (waiter_moves ha hst))

end Moves

section Course

variable {cfg : Config ρ ω} {r : ρ} {before : Thread ρ → ℕ} {s t : State ρ υ κ ω}
  {a : Act ρ υ κ ω}

def RunPc.onPath (groups : List Group) : RunPc → Prop
  | .lock _ _ | .add _ _ | .unlock _ _ | .queue | .failed => False
  | .join todo _ => todo.Sublist groups
  | _ => True

/-- How far the call is with its own threads. -/
structure Course (cfg : Config ρ ω) (r : ρ) (before : Thread ρ → ℕ) (s : State ρ υ κ ω) : Prop where
  path : (s.runner r).onPath (cfg.groups r)
  handle : ∀ i ∈ cfg.team r, s.worker i ≠ .absent → s.thread i.group i.slot = some r
  created : ∀ i ∈ cfg.team r, s.worker i = .absent → (s.runner r).uncreated i.group i.slot
  gone : ∀ i ∈ cfg.team r, (s.runner r).hasJoined i.group i.slot = true → s.worker i = .exited
  joined : ∀ i ∈ cfg.team r,
    s.joined i = before i + if (s.runner r).hasJoined i.group i.slot then 1 else 0

theorem Config.eq_of_team {ρ ω : Type} [DecidableEq ρ] {cfg : Config ρ ω} {r : ρ} {i : Thread ρ}
    {g : Group} {j : ℕ} (hi : i ∈ cfg.team r)
    (hg : i.group = g) (hj : i.slot = j) : i = ⟨r,g,j⟩ := by
  rw [← hg,← hj,← (Config.mem_team.mp hi).1]

theorem Course.frame {ρ υ κ ω : Type} [DecidableEq ρ] [DecidableEq ω] {cfg : Config ρ ω} {r : ρ}
    {before : Thread ρ → ℕ} {s t : State ρ υ κ ω} (h : Course cfg r before s)
    (hr : t.runner r = s.runner r) (hw : ∀ i ∈ cfg.team r, t.worker i = s.worker i ∨
      ¬ (s.worker i).quiet ∧ t.worker i ≠ .absent)
    (ht : ∀ g ∈ cfg.groups r, t.thread g = s.thread g)
    (hj : ∀ i ∈ cfg.team r, t.joined i = s.joined i) : Course cfg r before t := by
  refine ⟨by rw [hr]; exact h.path,fun i hi ha => ?_,fun i hi ha => ?_,fun i hi hh => ?_,
    fun i hi => by rw [hr,hj i hi]; exact h.joined i hi⟩
  · rw [ht _ (Config.mem_team.mp hi).2.1]
    apply h.handle i hi
    rcases hw i hi with he | ⟨hq,_⟩
    · rwa [← he]
    · exact fun ha => hq (.inl ha)
  · rw [hr]
    rcases hw i hi with he | ⟨_,hne⟩
    · exact h.created i hi (he ▸ ha)
    · exact absurd ha hne
  · rw [hr] at hh
    have hx := h.gone i hi hh
    rcases hw i hi with he | ⟨hq,_⟩
    · rw [he,hx]
    · exact absurd (.inr hx) hq

theorem Course.next {ρ υ κ ω : Type} [DecidableEq ρ] {cfg : Config ρ ω} {r : ρ}
    {before : Thread ρ → ℕ} {s t : State ρ υ κ ω} {pc : RunPc} (h : Course cfg r before s)
    (hr : t.runner = Function.update s.runner r pc) (hw : t.worker = s.worker)
    (ht : t.thread = s.thread) (hj : t.joined = s.joined) (hp : pc.onPath (cfg.groups r))
    (hc : ∀ i ∈ cfg.team r, (s.runner r).uncreated i.group i.slot → pc.uncreated i.group i.slot)
    (hd : ∀ i ∈ cfg.team r,
      pc.hasJoined i.group i.slot = (s.runner r).hasJoined i.group i.slot) :
    Course cfg r before t := by
  have hpc : t.runner r = pc := by rw [hr,Function.update_self]
  refine ⟨by rwa [hpc],by rw [hw,ht]; exact h.handle,fun i hi ha => ?_,fun i hi hh => ?_,
    fun i hi => ?_⟩
  · rw [hpc]
    rw [hw] at ha
    exact hc i hi (h.created i hi ha)
  · rw [hpc,hd i hi] at hh
    rw [hw]
    exact h.gone i hi hh
  · rw [hpc,hd i hi,hj]
    exact h.joined i hi

theorem hasJoined_next {g g' : Group} {rest : List Group} {j n : ℕ} (hn : (g::rest).Nodup)
    (hj : ¬ j < n) {k : ℕ} (hk : g' = g → k < n) :
    (RunPc.join rest 0).hasJoined g' k = (RunPc.join (g::rest) j).hasJoined g' k := by
  have hg := (List.nodup_cons.mp hn).1
  cases rest with
  | nil =>
    simp only [RunPc.hasJoined,List.not_mem_nil,not_false_eq_true,true_and]
    symm
    exact decide_eq_true fun he => by have := hk he; omega
  | cons g₂ rest =>
    have hr := (List.nodup_cons.mp (List.nodup_cons.mp hn).2).1
    simp only [RunPc.hasJoined,Nat.not_lt_zero,imp_false,List.mem_cons,not_or]
    congr 1
    apply propext
    constructor
    · rintro ⟨h1,h2⟩
      exact ⟨⟨h2,h1⟩,fun he => by have := hk he; omega⟩
    · rintro ⟨⟨h1,h2⟩,_⟩
      exact ⟨h2,h1⟩

theorem Course.create {q : ρ} {g : Group} {j : ℕ} {rest : List Group} (h : Course cfg q before s)
    (ho : Outside cfg q s) (hst : step cfg s (.create q g j rest) = some t) :
    Course cfg q before t := by
  obtain ⟨⟨hpc,hj⟩,rfl⟩ := guarded_eq_some.mp hst
  have habsent := ho.uncreated g j (by rw [hpc]; exact .inl ⟨rfl,le_rfl⟩)
  have hnot : ∀ g' j', (s.runner q).hasJoined g' j' = false := fun _ _ => by rw [hpc]; rfl
  refine ⟨by simp [RunPc.onPath],fun i hi ha => ?_,fun i hi ha => ?_,fun i hi hh => ?_,
    fun i hi => ?_⟩
  · by_cases he : i = ⟨q,g,j⟩
    · subst he
      simp
    · simp only [Function.update_of_ne he] at ha
      have hold := h.handle i hi ha
      by_cases hg : i.group = g
      · have hslot : i.slot ≠ j := by
          intro hs
          exact he (by rw [← hg,← hs,← (Config.mem_team.mp hi).1])
        simpa [hg,hslot] using hg ▸ hold
      · simpa [hg] using hold
  · by_cases he : i = ⟨q,g,j⟩
    · subst he
      simp at ha
    · simp only [Function.update_of_ne he] at ha
      have hu := h.created i hi ha
      rw [hpc] at hu
      simp only [Function.update_self]
      refine hu.imp_left fun hu => ⟨hu.1,?_⟩
      by_contra hlt
      exact he (Config.eq_of_team hi hu.1 (by have := hu.2; omega))
  · simp [RunPc.hasJoined] at hh
  · have hold := h.joined i hi
    rw [hnot] at hold
    simpa [RunPc.hasJoined] using hold

theorem hasJoined_succ {g : Group} {rest : List Group} {j : ℕ} (hg : g ∉ rest) (g' : Group)
    (j' : ℕ) : (RunPc.join (g::rest) (j+1)).hasJoined g' j' = true ↔
      (RunPc.join (g::rest) j).hasJoined g' j' = true ∨ g' = g ∧ j' = j := by
  simp only [RunPc.hasJoined,decide_eq_true_eq]
  constructor
  · rintro ⟨h1,h2⟩
    by_cases he : g' = g ∧ j' = j
    · exact .inr he
    · refine .inl ⟨h1,fun hi => ?_⟩
      have := h2 hi
      have hs : j' ≠ j := fun hs => he ⟨hi,hs⟩
      omega
  · rintro (⟨h1,h2⟩ | ⟨h1,h2⟩)
    · exact ⟨h1,fun hi => by have := h2 hi; omega⟩
    · exact ⟨h1 ▸ hg,fun _ => by omega⟩

theorem Course.runJoin {q o : ρ} {g : Group} {j : ℕ} {rest : List Group}
    (h : Course cfg q before s) (hnd : (cfg.groups q).Nodup)
    (hst : step cfg s (.runJoin q g rest j o) = some t) : Course cfg q before t := by
  obtain ⟨⟨hpc,hj,hth,hex⟩,rfl⟩ := guarded_eq_some.mp hst
  have hsub : (g::rest).Sublist (cfg.groups q) := by
    have hpath := h.path
    rwa [hpc] at hpath
  have hg : g ∉ rest := (List.nodup_cons.mp (hsub.nodup hnd)).1
  have hmem : (⟨q,g,j⟩ : Thread ρ) ∈ cfg.team q :=
    Config.mem_team.mpr ⟨rfl,hsub.subset List.mem_cons_self,hj⟩
  have hthere : s.worker ⟨q,g,j⟩ ≠ .absent := by
    intro ha
    have hu := h.created _ hmem ha
    rw [hpc] at hu
    exact hu
  obtain rfl : o = q := Option.some.inj (hth.symm.trans (h.handle _ hmem hthere))
  have hold := hasJoined_succ (j:=j) hg
  refine ⟨by simpa [RunPc.onPath] using hsub,h.handle,fun i hi ha => ?_,fun i hi hh => ?_,
    fun i hi => ?_⟩
  · have hu := h.created i hi ha
    rw [hpc] at hu
    exact hu.elim
  · simp only [Function.update_self] at hh
    rcases (hold i.group i.slot).mp hh with hh | ⟨hg',hs⟩
    · exact h.gone i hi (by rwa [hpc])
    · rw [Config.eq_of_team hi hg' hs]
      exact hex
  · have hji := h.joined i hi
    rw [hpc] at hji
    simp only [Function.update_self]
    by_cases he : i = ⟨o,g,j⟩
    · subst he
      have hnot : (RunPc.join (g::rest) j).hasJoined g j = false := by simp [RunPc.hasJoined]
      simp only [hnot] at hji
      rw [Function.update_self,hji,(hold g j).mpr (.inr ⟨rfl,rfl⟩)]
      simp
    · have hsame : (RunPc.join (g::rest) (j+1)).hasJoined i.group i.slot =
          (RunPc.join (g::rest) j).hasJoined i.group i.slot := by
        rw [Bool.eq_iff_iff,hold]
        refine or_iff_left ?_
        rintro ⟨h1,h2⟩
        exact he (Config.eq_of_team hi h1 h2)
      rw [Function.update_of_ne he,hsame]
      exact hji

theorem Course.run (h : Course cfg r before s) (ho : Outside cfg r s)
    (hnd : (cfg.groups r).Nodup) (hsync : cfg.isAsync r = false) (hc : a.caller = some r)
    (hst : step cfg s a = some t) : Course cfg r before t := by
  have hpath := h.path
  cases a <;> simp only [Act.caller,Option.some.injEq,reduceCtorEq] at hc
  all_goals subst hc
  case runCall q =>
    obtain ⟨hpc,rfl⟩ := guarded_eq_some.mp hst
    exact h.next rfl rfl rfl rfl trivial (fun _ _ _ => trivial) fun _ _ => by rw [hpc]; rfl
  case allocFail q =>
    obtain ⟨⟨_,ha⟩,_⟩ := guarded_eq_some.mp hst
    rw [hsync] at ha
    cases ha
  case runBegin q =>
    obtain ⟨hpc,rfl⟩ := guarded_eq_some.mp hst
    exact h.next rfl rfl rfl rfl trivial (fun i hi _ => (Config.mem_team.mp hi).2.1)
      fun _ _ => by rw [hpc]; rfl
  case prepare q g rest =>
    obtain ⟨hpc,rfl⟩ := guarded_eq_some.mp hst
    have hpub : (if cfg.isAsync q then RunPc.lock g rest else .publish g rest) = .publish g rest :=
      if_neg (by simp [hsync])
    refine h.next (show _ = Function.update s.runner q (.publish g rest) by rw [hpub]) rfl rfl rfl
      trivial (fun i hi hu => ?_) fun _ _ => by rw [hpc]; rfl
    rw [hpc] at hu
    exact List.mem_cons.mp hu
  case prepared q =>
    obtain ⟨hpc,rfl⟩ := guarded_eq_some.mp hst
    have hjoin : (if cfg.isAsync q then RunPc.queue else .join (cfg.groups q) 0) =
        .join (cfg.groups q) 0 := if_neg (by simp [hsync])
    refine h.next (show _ = Function.update s.runner q (.join (cfg.groups q) 0) by rw [hjoin]) rfl
      rfl rfl (List.Sublist.refl _) (fun i hi hu => ?_) fun i hi => ?_
    · rw [hpc] at hu
      cases hu
    · rw [hpc]
      have hmem := (Config.mem_team.mp hi).2.1
      cases hg : cfg.groups q with
      | nil =>
        rw [hg] at hmem
        cases hmem
      | cons g rest =>
        rw [hg] at hmem
        have hne : ¬ (i.group ∉ rest ∧ i.group ≠ g) := fun hh =>
          (List.mem_cons.mp hmem).elim hh.2 hh.1
        simpa [RunPc.hasJoined] using hne
  case runLock q g rest =>
    obtain ⟨⟨hpc,_⟩,_⟩ := guarded_eq_some.mp hst
    rw [hpc] at hpath
    exact hpath.elim
  case addTail q g rest | runUnlock q g rest | queueWork q =>
    obtain ⟨hpc,_⟩ := guarded_eq_some.mp hst
    rw [hpc] at hpath
    exact hpath.elim
  case publish q g rest =>
    obtain ⟨hpc,rfl⟩ := guarded_eq_some.mp hst
    refine h.next rfl rfl rfl rfl trivial (fun i hi hu => ?_) fun _ _ => by rw [hpc]; rfl
    rw [hpc] at hu
    exact hu.imp_left fun he => ⟨he,Nat.zero_le _⟩
  case create q g j rest => exact h.create ho hst
  case created q g j rest =>
    obtain ⟨⟨hpc,hj⟩,rfl⟩ := guarded_eq_some.mp hst
    refine h.next rfl rfl rfl rfl trivial (fun i hi hu => ?_) fun _ _ => by rw [hpc]; rfl
    rw [hpc] at hu
    refine hu.resolve_left ?_
    rintro ⟨hg,hle⟩
    have hlt := (Config.mem_team.mp hi).2.2
    rw [hg] at hlt
    omega
  case runJoin q g rest j o => exact h.runJoin hnd hst
  case runJoined q g rest j =>
    obtain ⟨⟨hpc,hj⟩,rfl⟩ := guarded_eq_some.mp hst
    rw [hpc] at hpath
    have hsub : (g::rest).Sublist (cfg.groups q) := hpath
    refine h.next rfl rfl rfl rfl ((List.sublist_cons_self g rest).trans hsub)
      (fun i hi hu => by rw [hpc] at hu; exact hu) fun i hi => ?_
    rw [hpc]
    refine hasJoined_next (hsub.nodup hnd) hj fun he => ?_
    have hlt := (Config.mem_team.mp hi).2.2
    rwa [he] at hlt
  case runReturn q j =>
    obtain ⟨hpc,rfl⟩ := guarded_eq_some.mp hst
    exact h.next rfl rfl rfl rfl trivial (fun i hi hu => by rw [hpc] at hu; exact hu)
      fun _ _ => by rw [hpc]; rfl

end Course

section Barrier

variable {cfg : Config ρ ω} {s t : State ρ υ κ ω} {a : Act ρ υ κ ω} {i : Thread ρ}

def WorkerPc.mayBeOn : WorkerPc ρ → Barrier.CallPc (ρ ⊕ υ) → Prop
  | .inBarrier o, b => b = .idle ∨ b.on = some (.inl o)
  | .init, b | .func, b => b = .idle ∨ ∃ u, b.on = some (.inr u)
  | _, b => b = .idle

theorem on_step {b b' : Barrier.State (ρ ⊕ υ) (Thread ρ)} {e : Barrier.Act (ρ ⊕ υ) (Thread ρ)}
    (h : Barrier.step b e = some b') :
    b'.pc e.thread = .idle ∨ (b'.pc e.thread).on = some e.on := by
  cases e with
  | enter j c n | update j c n =>
    obtain ⟨_,rfl⟩ := guarded_eq_some.mp h
    exact .inr (by simp [Barrier.Act.thread,Barrier.Act.on,Barrier.CallPc.on])
  | lock j c n =>
    obtain ⟨_,rfl⟩ := guarded_eq_some.mp h
    exact .inr (by simp [Barrier.Act.thread,Barrier.Act.on,Barrier.CallPc.on])
  | unlock j c m =>
    obtain ⟨_,rfl⟩ := guarded_eq_some.mp h
    cases m <;> simp [Barrier.Act.thread,Barrier.Act.on,Barrier.CallPc.on,Barrier.afterUnlock]
  | store j c =>
    obtain ⟨_,rfl⟩ := guarded_eq_some.mp h
    exact .inl (by simp [Barrier.Act.thread])
  | load j c =>
    obtain ⟨_,rfl⟩ := guarded_eq_some.mp h
    by_cases hf : (b.bar c).flag = b.sense j <;>
      simp [Barrier.Act.thread,Barrier.Act.on,Barrier.CallPc.on,hf]

theorem mayBeOn_step (h : (s.worker i).mayBeOn (s.bars.pc i)) (hst : step cfg s a = some t)
    (hnew : ∀ q g j rest, a = .create q g j rest → i = ⟨q,g,j⟩ → s.worker i = .absent) :
    (t.worker i).mayBeOn (t.bars.pc i) := by
  have hidle : ∀ {pc : WorkerPc ρ} {j : Thread ρ} {w : Thread ρ → WorkerPc ρ}, s.worker = w →
      (i = j → pc.mayBeOn (s.bars.pc i)) →
      (Function.update w j pc i).mayBeOn (s.bars.pc i) := by
    intro pc j w hw hp
    subst hw
    by_cases hij : i = j
    · subst hij
      rw [Function.update_self]
      exact hp rfl
    · rwa [Function.update_of_ne hij]
  cases a with
  | create q g j rest =>
    obtain ⟨_,rfl⟩ := guarded_eq_some.mp hst
    refine hidle rfl fun hi => ?_
    have ha := hnew q g j rest rfl hi
    rw [ha] at h
    exact h
  | threadInit j | testObject j | callFunc j =>
    obtain ⟨hpc,rfl⟩ := guarded_eq_some.mp hst
    refine hidle rfl fun hi => ?_
    rw [hi,hpc] at h
    rw [hi]
    split
    · first | exact h | exact .inl h
    · exact h
  | cleanup j | pthreadExit j =>
    obtain ⟨hpc,rfl⟩ := guarded_eq_some.mp hst
    refine hidle rfl fun hi => ?_
    rw [hi,hpc] at h
    rw [hi]
    exact h
  | argBarrier j o | argCount j o o' =>
    obtain ⟨⟨hpc,_⟩,rfl⟩ := guarded_eq_some.mp hst
    refine hidle rfl fun hi => ?_
    rw [hi,hpc] at h
    rw [hi]
    exact h
  | initReturn j | barrierReturn j o | funcReturn j =>
    obtain ⟨⟨_,hb⟩,rfl⟩ := guarded_eq_some.mp hst
    exact hidle rfl fun hi => hi ▸ hb
  | callBarrier j o n =>
    simp only [ThreadGroup.step] at hst
    split at hst
    next hpc =>
      obtain ⟨b,hb,rfl⟩ := Option.map_eq_some_iff.mp hst
      by_cases hij : i = j
      · subst hij
        simp only [Function.update_self]
        exact on_step hb
      · simp only [Function.update_of_ne hij]
        rwa [(Barrier.step_other hb hij).1]
    next => cases hst
  | barrier j o e =>
    simp only [ThreadGroup.step] at hst
    split at hst
    next hpc =>
      obtain ⟨hpc,rfl,hon,_⟩ := hpc
      obtain ⟨b,hb,rfl⟩ := Option.map_eq_some_iff.mp hst
      by_cases hij : i = e.thread
      · rw [hij,hpc]
        have hs := on_step hb
        rwa [hon] at hs
      · rwa [(Barrier.step_other hb hij).1]
    next => cases hst
  | userBarrier j u e =>
    simp only [ThreadGroup.step] at hst
    split at hst
    next hpc =>
      obtain ⟨hpc,rfl,hon⟩ := hpc
      obtain ⟨b,hb,rfl⟩ := Option.map_eq_some_iff.mp hst
      by_cases hij : i = e.thread
      · have hu : b.pc e.thread = .idle ∨ ∃ u, (b.pc e.thread).on = some (.inr u) :=
          (on_step hb).imp_right fun he => ⟨u,hon ▸ he⟩
        rw [hij]
        rcases hpc with hpc | hpc <;> rw [hpc] <;> exact hu
      · rwa [(Barrier.step_other hb hij).1]
    next => cases hst
  | joinPut k g p rest | waitPut k g p rest =>
    simp only [ThreadGroup.step] at hst
    split at hst
    next hpc =>
      obtain ⟨⟨u,q⟩,hput,rfl⟩ := Option.map_eq_some_iff.mp hst
      obtain ⟨_,_,_,rfl,_⟩ := put_eq hput
      exact h
    next => cases hst
  | scan k g rest =>
    obtain ⟨_,ht⟩ := guarded_eq_some.mp hst
    split at ht <;> subst ht <;> exact h
  | _ =>
    obtain ⟨_,rfl⟩ := guarded_eq_some.mp hst
    exact h

end Barrier

section Join

variable {cfg : Config ρ ω} {r : ρ} {before : Thread ρ → ℕ} {n : ℕ} {s s₀ t : State ρ υ κ ω}
  {a : Act ρ υ κ ω}

structure JoinInv (cfg : Config ρ ω) (r : ρ) (before : Thread ρ → ℕ) (n : ℕ)
    (s : State ρ υ κ ω) : Prop where
  outside : Outside cfg r s
  others : Undisturbed cfg r s
  course : Course cfg r before s
  exited : ∀ g ∈ cfg.groups r, s.nrExited g = 0
  reaped : ∀ g ∈ cfg.groups r, ¬ s.Reaped g
  on : ∀ i ∈ cfg.team r, (s.worker i).mayBeOn (s.bars.pc i)
  freed : s.freed r = n

theorem JoinInv.step (h : JoinInv cfg r before n s) (hnd : (cfg.groups r).Nodup)
    (hpos : ∀ g ∈ cfg.groups r, 0 < (cfg.nr g).toNat) (hsync : cfg.isAsync r = false)
    (hok : Alone cfg r s a) (hst : ThreadGroup.step cfg s a = some t) :
    JoinInv cfg r before n t := by
  have hout := h.outside.step hnd hok hst
  have hon : ∀ i ∈ cfg.team r, (t.worker i).mayBeOn (t.bars.pc i) := by
    intro i hi
    refine mayBeOn_step (h.on i hi) hst fun q g j rest ha he => ?_
    subst ha he
    exact h.outside.absent_of_create hi hst
  have hteam : ∀ i ∈ cfg.team r, i.call = r ∧ i.group ∈ cfg.groups r := fun i hi =>
    ⟨(Config.mem_team.mp hi).1,(Config.mem_team.mp hi).2.1⟩
  rcases step_moves hst with ⟨q,hc,hm⟩ | ⟨i,hm⟩ | hm
  · have hr : ∀ g, t.Reaped g → s.Reaped g := by
      intro g hg
      simpa only [State.Reaped,hm.joiner,hm.waiter] using hg
    refine ⟨hout,fun p hp => ?_,?_,by rw [hm.nrExited]; exact h.exited,
      fun g hg hh => h.reaped g hg (hr g hh),hon,by rw [hm.freed]; exact h.freed⟩
    · by_cases hpq : p = q
      · subst hpq
        rcases hm.inUse with rfl | hu
        · obtain ⟨_,rfl⟩ := guarded_eq_some.mp hst
          intro g hg
          simp only [Function.update_self] at hg
          exact hok.resolve_left hp g hg
        · exact fun g hg => h.others p hp g (hu g hg)
      · rw [hm.runners p hpq]
        exact h.others p hp
    · by_cases hq : q = r
      · subst hq
        exact h.course.run h.outside hnd hsync hc hst
      · have hu : ∀ g ∈ cfg.groups r, g ∉ (s.runner q).inUse (cfg.groups q) := fun g hg hh =>
          h.others q hq g hh hg
        refine h.course.frame (hm.runners r (Ne.symm hq)) (fun i hi => .inl (hm.workers i ?_))
          (fun g hg => hm.thread g (hu g hg)) fun i hi => hm.joined i (hu _ (hteam i hi).2)
        rw [(hteam i hi).1]
        exact Ne.symm hq
  · refine ⟨hout,?_,?_,fun g hg => ?_,fun g hg hh => h.reaped g hg ?_,hon,
      by rw [hm.freed]; exact h.freed⟩
    · rw [Undisturbed,hm.runner]
      exact h.others
    · refine h.course.frame (by rw [hm.runner]) (fun j _ => ?_) (fun g _ => by rw [hm.thread])
        fun j _ => by rw [hm.joined]
      by_cases hji : j = i
      · exact .inr (hji ▸ ⟨hm.alive,hm.present⟩)
      · exact .inl (hm.workers j hji)
    · rcases hm.nrExited g with he | ⟨rfl,ha⟩
      · rw [he]
        exact h.exited g hg
      · have hi : i ∈ cfg.team r := by
          by_contra hi
          exact hm.alive (h.outside.quiet i hi hg)
        rw [(hteam i hi).1,hsync] at ha
        cases ha
    · simpa only [State.Reaped,hm.joiner,hm.waiter] using hh
  · refine ⟨hout,?_,?_,by rw [hm.nrExited]; exact h.exited,fun g hg hh => ?_,hon,?_⟩
    · rw [Undisturbed,hm.runner]
      exact h.others
    · refine h.course.frame (by rw [hm.runner]) (fun i _ => .inl (by rw [hm.worker]))
        (fun g _ => by rw [hm.thread]) fun i hi => (hm.joined i).resolve_right ?_
      exact h.reaped _ (hteam i hi).2
    · have hp := hpos g hg
      rcases hm.reaps g hh with hs | he | he
      · exact h.reaped g hg hs
      · rw [← he,h.exited g hg] at hp
        cases hp
      · rw [he] at hp
        cases hp
    · rcases hm.freed r with he | ⟨g,hs,ho⟩
      · rw [he]
        exact h.freed
      · have hg : g ∈ cfg.groups r := by
          by_contra hg
          exact h.outside.object g hg ho
        exact absurd hs (h.reaped g hg)

theorem Ready.joinInv {ρ υ κ ω : Type} [DecidableEq ρ] {cfg : Config ρ ω} {r : ρ}
    {s : State ρ υ κ ω} (h : Ready cfg r s) (hu : Undisturbed cfg r s) :
    JoinInv cfg r s.joined (s.freed r) s where
  outside := h.outside
  others := hu
  course := by
    refine ⟨by rw [h.idle]; trivial,fun i hi hne => ?_,fun i _ _ => by rw [h.idle]; trivial,
      fun i _ hh => ?_,fun i _ => by rw [h.idle]; rfl⟩
    · exact absurd (h.threads i (Config.mem_team.mp hi).1).1 hne
    · rw [h.idle] at hh
      cases hh
  exited := h.exited
  reaped g hg := by
    rintro (⟨k,hk⟩ | ⟨w,hw⟩)
    · exact h.joiner k g hg hk
    · exact h.waiter w g hg hw
  on i hi := by
    obtain ⟨hw,hb,_⟩ := h.threads i (Config.mem_team.mp hi).1
    rw [hw]
    exact hb
  freed := rfl

theorem JoinInv.of_reach (hnd : (cfg.groups r).Nodup)
    (hpos : ∀ g ∈ cfg.groups r, 0 < (cfg.nr g).toNat) (hsync : cfg.isAsync r = false)
    (hready : Ready cfg r s₀) (hu : Undisturbed cfg r s₀)
    (h : Reach (ThreadGroup.step cfg) (Alone cfg r) s₀ s) :
    JoinInv cfg r s₀.joined (s₀.freed r) s :=
  h.invariant (I:=JoinInv cfg r s₀.joined (s₀.freed r)) (hready.joinInv hu)
    fun _ _ _ hi hok hst => hi.step hnd hpos hsync hok hst

theorem JoinInv.returned {ρ υ κ ω : Type} [DecidableEq ρ] {cfg : Config ρ ω} {r : ρ}
    {before : Thread ρ → ℕ} {n : ℕ} {s : State ρ υ κ ω} (h : JoinInv cfg r before n s)
    (hd : s.runner r = .done) : Returned cfg r before s := by
  have hgone : ∀ i ∈ cfg.team r, s.worker i = .exited := fun i hi =>
    h.course.gone i hi (by rw [hd]; rfl)
  refine ⟨hgone,fun i hi => ?_,fun i => ?_⟩
  · rw [h.course.joined i hi,hd]
    rfl
  · by_cases hi : i ∈ cfg.team r
    · have hon := h.on i hi
      rw [hgone i hi] at hon ⊢
      rw [show s.bars.pc i = .idle from hon]
      exact ⟨by simp [WorkerPc.object],by simp [Barrier.CallPc.on]⟩
    · exact h.outside.pointers i hi

/-- A synchronous run joins each of its threads once, nobody else joins one of them or frees the
barrier object on its stack, and from its return on nobody has a pointer to the object. -/
theorem returned_of_run (hnd : (cfg.groups r).Nodup)
    (hpos : ∀ g ∈ cfg.groups r, 0 < (cfg.nr g).toNat) (hsync : cfg.isAsync r = false)
    (hready : Ready cfg r s₀) (hu : Undisturbed cfg r s₀)
    (h : Reach (ThreadGroup.step cfg) (Alone cfg r) s₀ s) :
    (s.runner r = .done → Returned cfg r s₀.joined s) ∧ s.freed r = s₀.freed r ∧
      ∀ i ∈ cfg.team r, s.joined i ≤ s₀.joined i+1 := by
  have hi := JoinInv.of_reach hnd hpos hsync hready hu h
  refine ⟨hi.returned,hi.freed,fun i hm => ?_⟩
  rw [hi.course.joined i hm]
  split <;> omega

end Join

/-- The first thread of the pair. -/
def first : Thread Unit := ⟨(),pair₁,0⟩

def second : Thread Unit := ⟨(),pair₂,0⟩

def toBarrier (i : Thread Unit) : List (Act Unit Empty Unit Unit) :=
  [.threadInit i,.initReturn i,.testObject i,.argBarrier i (),.argCount i () (),
    .callBarrier i () 2,.barrier i () (.lock i (.inl ()) 2),.barrier i () (.update i (.inl ()) 2)]

def toExit (i : Thread Unit) : List (Act Unit Empty Unit Unit) :=
  [.barrierReturn i (),.callFunc i,.funcReturn i,.cleanup i,.pthreadExit i]

/-- The first thread waits at the barrier until the second one is created; the second one exits
while the call waits for the first. -/
def joinRun : List (Act Unit Empty Unit Unit) := List.flatten
  [[.runCall (),.runBegin (),.prepare () pair₁ [pair₂],.publish () pair₁ [pair₂],
      .create () pair₁ 0 [pair₂],.created () pair₁ 1 [pair₂]],
    toBarrier first,
    [.barrier first () (.unlock first (.inl ()) .wait),.barrier first () (.load first (.inl ()))],
    [.prepare () pair₂ [],.publish () pair₂ [],.create () pair₂ 0 [],.created () pair₂ 1 [],
      .prepared ()],
    toBarrier second,
    [.barrier second () (.unlock second (.inl ()) .last),
      .barrier second () (.store second (.inl ()))],
    toExit second,[.barrier first () (.load first (.inl ()))],toExit first,
    [.runJoin () pair₁ [pair₂] 0 (),.runJoined () pair₁ [pair₂] 1,.runJoin () pair₂ [] 0 (),
      .runJoined () pair₂ [] 1,.runReturn () 0]]

theorem alone_cluster {s : State Unit Empty Unit Unit}
    (h : Reach (step clusterConfig) Anything (init Unit Empty Unit Unit) s) :
    Reach (step clusterConfig) (Alone clusterConfig ()) (init Unit Empty Unit Unit) s :=
  h.mono fun _ a _ => by cases a <;> simp [Alone]

theorem returned_of_joinRun : ∃ s, Reach (step clusterConfig) (Alone clusterConfig ())
    (init Unit Empty Unit Unit) s ∧ s.runner () = .done ∧
    Returned clusterConfig () (fun _ => 0) s := by
  have hs : ∃ s, exec (step clusterConfig) (init Unit Empty Unit Unit) joinRun = some s ∧
      s.runner () = .done := ⟨_,rfl,rfl⟩
  obtain ⟨s,hs,hd⟩ := hs
  have hreach := alone_cluster (reach_of_exec hs)
  have hu : Undisturbed clusterConfig () (init Unit Empty Unit Unit) := fun q hq =>
    absurd (Subsingleton.elim q ()) hq
  exact ⟨s,hreach,hd,(returned_of_run (by decide) (by decide) rfl (init_ready _ _) hu hreach).1 hd⟩

end ThreadGroup
end Mthpc
