import Mthpc.FreshBarrier
import Mthpc.ThreadGroup

/-!
# The start barrier of a cluster

Each thread of a call reads the size of the start barrier from the shared `refcount`, which
the reapers lower later. No reaper comes to a group before one of its threads has exited,
no thread exits before the barrier has let it through, and the barrier waits until all
threads have read the size.
-/
namespace Mthpc
namespace ThreadGroup

open StepSystem

variable {ρ υ κ ω : Type} [DecidableEq ρ] [DecidableEq υ] [DecidableEq κ] [DecidableEq ω]

/-- The threads that a call creates. -/
def Config.team (cfg : Config ρ ω) (r : ρ) : Finset (Thread ρ) :=
  (cfg.groups r).toFinset.biUnion fun g =>
    (Finset.range (cfg.nr g).toNat).image fun j => ⟨r,g,j⟩

theorem Config.mem_team {ρ ω : Type} [DecidableEq ρ] {cfg : Config ρ ω} {r : ρ} {i : Thread ρ} :
    i ∈ cfg.team r ↔ i.call = r ∧ i.group ∈ cfg.groups r ∧ i.slot < (cfg.nr i.group).toNat := by
  obtain ⟨c,g,j⟩ := i
  simp only [team,Finset.mem_biUnion,List.mem_toFinset,Finset.mem_image,Finset.mem_range,
    Thread.mk.injEq]
  constructor
  · rintro ⟨g',hg,j',hj,rfl,rfl,rfl⟩
    exact ⟨rfl,hg,hj⟩
  · rintro ⟨rfl,hg,hj⟩
    exact ⟨g,hg,j,hj,rfl,rfl,rfl⟩

theorem Config.card_team {ρ ω : Type} [DecidableEq ρ] {cfg : Config ρ ω} {r : ρ}
    (hnd : (cfg.groups r).Nodup) :
    (cfg.team r).card = ((cfg.groups r).map fun g => (cfg.nr g).toNat).sum := by
  rw [team,Finset.card_biUnion,← List.sum_toFinset _ hnd]
  · refine Finset.sum_congr rfl fun g _ => ?_
    rw [Finset.card_image_of_injective,Finset.card_range]
    exact fun a b hab => (Thread.mk.inj hab).2.2
  · intro g _ g' _ hne
    rw [Function.onFun,Finset.disjoint_left]
    intro i hi hi'
    obtain ⟨_,_,rfl⟩ := Finset.mem_image.mp hi
    obtain ⟨_,_,he⟩ := Finset.mem_image.mp hi'
    exact hne (Thread.mk.inj he).2.1.symm

theorem toNat_sum_nr (nr : Group → BitVec 32) (gs : List Group)
    (h : (gs.map fun g => (nr g).toNat).sum < 2^64) :
    ((gs.map fun g => (nr g).setWidth 64).sum).toNat = (gs.map fun g => (nr g).toNat).sum := by
  induction gs with
  | nil => rfl
  | cons g gs ih =>
    simp only [List.map_cons,List.sum_cons] at h ⊢
    have hg : ((nr g).setWidth 64).toNat = (nr g).toNat := by
      have hlt := (nr g).isLt
      rw [BitVec.toNat_setWidth]
      omega
    rw [BitVec.toNat_add,ih (by omega),hg,Nat.mod_eq_of_lt h]

theorem Config.total_eq {ρ ω : Type} [DecidableEq ρ] {cfg : Config ρ ω} {r : ρ}
    (hnd : (cfg.groups r).Nodup)
    (hmax : (cfg.team r).card < 2^64) : (cfg.total r).toNat = (cfg.team r).card := by
  rw [card_team hnd] at hmax ⊢
  exact toNat_sum_nr cfg.nr (cfg.groups r) hmax

/-- The thread has returned from `group->init`. -/
def WorkerPc.pastInit : WorkerPc ρ → Bool
  | .absent | .start | .init => false
  | _ => true

/-- The thread has called `group->func`, or has come to its end without one. -/
def WorkerPc.calledFunc : WorkerPc ρ → Bool
  | .func | .exit | .exiting | .exited => true
  | _ => false

/-- Every thread passes the number of threads of its call to the barrier of its call, and
none is in `func` before all are past `init`. -/
structure StartTogether (cfg : Config ρ ω) (r : ρ) (s : State ρ υ κ ω) : Prop where
  size : ∀ i ∈ cfg.team r, ∀ o n, s.worker i = .call o n → o = r ∧ n.toNat = (cfg.team r).card
  start : (∃ i ∈ cfg.team r, (s.worker i).calledFunc = true) →
    ∀ i ∈ cfg.team r, (s.worker i).pastInit = true

def WorkerPc.object : WorkerPc ρ → Option ρ
  | .argCount o | .call o _ | .inBarrier o => some o
  | _ => none

def RunPc.ahead (groups : List Group) : RunPc → List Group
  | .begin => groups
  | .prepare rest => rest
  | .lock g rest | .add g rest | .unlock g rest | .publish g rest | .create g _ rest => g::rest
  | .idle | .join _ _ | .queue | .done | .failed => []

/-- The thread of slot `j` of group `g` is not created yet. -/
def RunPc.uncreated (g : Group) (j : ℕ) : RunPc → Prop
  | .idle | .begin | .failed => True
  | .prepare rest => g ∈ rest
  | .lock g' rest | .add g' rest | .unlock g' rest | .publish g' rest => g = g' ∨ g ∈ rest
  | .create g' j' rest => g = g' ∧ j' ≤ j ∨ g ∈ rest
  | .join _ _ | .queue | .done => False

def WorkerPc.quiet (pc : WorkerPc ρ) : Prop := pc = .absent ∨ pc = .exited

/-- The reaper has joined or put the group, which it does after its threads have exited. -/
def JoinPc.reaps (g : Group) : JoinPc → Prop
  | .join g' _ _ | .put g' _ _ => g' = g
  | _ => False

def WaitPc.reaps (g : Group) : WaitPc → Prop
  | .spin g' j _ => g' = g ∧ 0 < j
  | .join g' _ _ | .put g' _ _ => g' = g
  | _ => False

/-- Call `r` has not been made. Its groups may have been used before, but nobody uses
them now, and `nr_exited` is 0. -/
structure Ready (cfg : Config ρ ω) (r : ρ) (s : State ρ υ κ ω) : Prop where
  idle : s.runner r = .idle
  threads : ∀ i, i.call = r → s.worker i = .absent ∧ s.bars.pc i = .idle ∧ s.bars.sense i = 0
  object : ∀ g, s.barrierObject g ≠ some r
  pointers : ∀ i, (s.worker i).object ≠ some r ∧ (s.bars.pc i).on ≠ some (.inl r)
  runners : ∀ q, q ≠ r → ∀ g ∈ (s.runner q).ahead (cfg.groups q), g ∉ cfg.groups r
  quiet : ∀ i, i.group ∈ cfg.groups r → (s.worker i).quiet
  exited : ∀ g ∈ cfg.groups r, s.nrExited g = 0
  joiner : ∀ k, ∀ g ∈ cfg.groups r, ¬ (s.joiner k).reaps g
  waiter : ∀ w, ∀ g ∈ cfg.groups r, ¬ (s.waiter w).reaps g

/-- No other call is made on a group of `r`. -/
def Alone (cfg : Config ρ ω) (r : ρ) (_ : State ρ υ κ ω) : Act ρ υ κ ω → Prop
  | .runCall q => q = r ∨ ∀ g ∈ cfg.groups q, g ∉ cfg.groups r
  | _ => True

/-- As `Alone`, and the threads of `r` use no barrier in `init`. -/
def QuietInit (cfg : Config ρ ω) (r : ρ) (s : State ρ υ κ ω) (a : Act ρ υ κ ω) : Prop :=
  Alone cfg r s a ∧ ∀ i u b, a = .userBarrier i u b → i ∈ cfg.team r → s.worker i ≠ .init

/-- What the other parties leave alone, and how far call `r` is. -/
structure Outside (cfg : Config ρ ω) (r : ρ) (s : State ρ υ κ ω) : Prop where
  object : ∀ g ∉ cfg.groups r, s.barrierObject g ≠ some r
  pointers : ∀ i ∉ cfg.team r, (s.worker i).object ≠ some r ∧ (s.bars.pc i).on ≠ some (.inl r)
  runners : ∀ q, q ≠ r → ∀ g ∈ (s.runner q).ahead (cfg.groups q), g ∉ cfg.groups r
  quiet : ∀ i ∉ cfg.team r, i.group ∈ cfg.groups r → (s.worker i).quiet
  ahead : ((s.runner r).ahead (cfg.groups r)).Sublist (cfg.groups r)
  uncreated : ∀ g j, (s.runner r).uncreated g j → s.worker ⟨r,g,j⟩ = .absent

def RunPc.begun : RunPc → Bool
  | .idle | .begin | .failed => false
  | _ => true

def WorkerPc.early (r : ρ) (n : Barrier.Size) (pc : WorkerPc ρ) : Prop :=
  pc = .absent ∨ pc = .start ∨ pc = .init ∨ pc = .test ∨ pc = .argBarrier ∨ pc = .argCount r ∨
    pc = .call r n

/-- The threads of the call while one of them is still missing at the barrier. -/
structure Gathering (cfg : Config ρ ω) (r : ρ) (before : Thread ρ → ℕ) (s : State ρ υ κ ω) :
    Prop where
  members : ∀ i ∈ cfg.team r, Barrier.Member (.inl r) (cfg.total r) before s.bars i
  barrier : (s.runner r).begun = true → (s.bars.bar (.inl r)).flag = 0 ∧
    (s.bars.bar (.inl r)).count =
      BitVec.ofNat 32 ((cfg.team r).filter (Barrier.arrived before s.bars ·)).card ∧
    s.refcount r = cfg.total r
  threads : ∀ i ∈ cfg.team r,
    (s.worker i).early r (cfg.total r) ∧ s.bars.calls i = before i ∨
    s.worker i = .inBarrier r ∧ before i < s.bars.calls i
  object : ∀ i ∈ cfg.team r, s.worker i ≠ .absent → s.barrierObject i.group = some r
  creating : ∀ g j rest, s.runner r = .create g j rest → s.barrierObject g = some r
  exited : ∀ g ∈ cfg.groups r, s.nrExited g = 0
  joiner : ∀ k, ∀ g ∈ cfg.groups r, ¬ (s.joiner k).reaps g
  waiter : ∀ w, ∀ g ∈ cfg.groups r, ¬ (s.waiter w).reaps g

def WorkerPc.entered : WorkerPc ρ → Bool
  | .inBarrier _ | .ready | .func | .exit | .exiting | .exited => true
  | _ => false

def Started (cfg : Config ρ ω) (r : ρ) (s : State ρ υ κ ω) : Prop :=
  ∀ i ∈ cfg.team r, (s.worker i).entered = true

section

omit [DecidableEq υ] [DecidableEq κ] [DecidableEq ω]

theorem Started.together {cfg : Config ρ ω} {r : ρ} {s : State ρ υ κ ω}
    (h : Started cfg r s) : StartTogether cfg r s := by
  refine ⟨fun i hi o n hpc => ?_,fun _ i hi => ?_⟩
  · have he := h i hi
    simp [hpc,WorkerPc.entered] at he
  · have he := h i hi
    cases hpc : s.worker i <;> simp [hpc,WorkerPc.entered] at he <;> rfl

theorem Gathering.together {cfg : Config ρ ω} {r : ρ} {before : Thread ρ → ℕ}
    {s : State ρ υ κ ω} (h : Gathering cfg r before s)
    (htotal : (cfg.total r).toNat = (cfg.team r).card) : StartTogether cfg r s := by
  refine ⟨fun i hi o n hpc => ?_,?_⟩
  · rcases h.threads i hi with ⟨he,_⟩ | ⟨he,_⟩
    · simp only [hpc,WorkerPc.early,WorkerPc.call.injEq,reduceCtorEq,false_or] at he
      exact ⟨he.1,by rw [he.2,htotal]⟩
    · simp [hpc] at he
  · rintro ⟨i,hi,hf⟩
    rcases h.threads i hi with ⟨he,_⟩ | ⟨he,_⟩
    · rcases he with he | he | he | he | he | he | he <;> simp [he,WorkerPc.calledFunc] at hf
    · simp [he,WorkerPc.calledFunc] at hf

theorem Gathering.waiting {cfg : Config ρ ω} {r : ρ} {before : Thread ρ → ℕ} {s : State ρ υ κ ω}
    (h : Gathering cfg r before s) (ho : Outside cfg r s) (hb : (s.runner r).begun = true) :
    Barrier.Waiting (cfg.team r) (.inl r) (cfg.total r) before s.bars :=
  ⟨(h.barrier hb).1,(h.barrier hb).2.1,h.members,fun i hi => (ho.pointers i hi).2⟩

theorem Outside.frame {cfg : Config ρ ω} {r : ρ} {s t : State ρ υ κ ω} (h : Outside cfg r s)
    (hw : t.worker = s.worker) (hr : t.runner = s.runner) (hb : t.bars = s.bars)
    (ho : ∀ g, t.barrierObject g = s.barrierObject g ∨ t.barrierObject g = none) :
    Outside cfg r t := by
  refine ⟨fun g hg => ?_,by rw [hw,hb]; exact h.pointers,by rw [hr]; exact h.runners,
    by rw [hw]; exact h.quiet,by rw [hr]; exact h.ahead,by rw [hr,hw]; exact h.uncreated⟩
  rcases ho g with he | he
  · rw [he]; exact h.object g hg
  · rw [he]; nofun

theorem Outside.call {cfg : Config ρ ω} {r : ρ} {s t : State ρ υ κ ω} (h : Outside cfg r s)
    {q : ρ} {pc : RunPc} (hr : t.runner = Function.update s.runner q pc)
    (hw : t.worker = s.worker) (hb : t.bars.pc = s.bars.pc)
    (ho : ∀ g ∉ cfg.groups r, t.barrierObject g = some r → s.barrierObject g = some r)
    (hahead : q ≠ r → ∀ g ∈ pc.ahead (cfg.groups q), g ∉ cfg.groups r)
    (hsub : q = r → (pc.ahead (cfg.groups r)).Sublist (cfg.groups r))
    (hunc : q = r → ∀ g j, pc.uncreated g j → s.worker ⟨r,g,j⟩ = .absent) : Outside cfg r t := by
  refine ⟨fun g hg hh => h.object g hg (ho g hg hh),by rw [hw,hb]; exact h.pointers,
    fun p hp => ?_,by rw [hw]; exact h.quiet,?_,?_⟩
  · by_cases hq : p = q
    · subst hq; rw [hr,Function.update_self]; exact hahead hp
    · rw [hr,Function.update_of_ne hq]; exact h.runners p hp
  · by_cases hq : r = q
    · subst hq; rw [hr,Function.update_self]; exact hsub rfl
    · rw [hr,Function.update_of_ne hq]; exact h.ahead
  · by_cases hq : r = q
    · subst hq; rw [hr,Function.update_self,hw]; exact hunc rfl
    · rw [hr,Function.update_of_ne hq,hw]; exact h.uncreated

end

theorem Outside.next {ρ υ κ ω : Type} [DecidableEq ρ] {cfg : Config ρ ω} {r : ρ}
    {s t : State ρ υ κ ω} (h : Outside cfg r s)
    {q : ρ} {pc : RunPc} (hr : t.runner = Function.update s.runner q pc)
    (hw : t.worker = s.worker) (hb : t.bars.pc = s.bars.pc)
    (ho : t.barrierObject = s.barrierObject)
    (hahead : (pc.ahead (cfg.groups q)).Sublist ((s.runner q).ahead (cfg.groups q)))
    (hunc : ∀ g j, pc.uncreated g j → (s.runner q).uncreated g j) : Outside cfg r t := by
  refine h.call hr hw hb (fun g _ hg => by rw [← ho]; exact hg) (fun hq g hg => ?_) (fun hq => ?_)
    fun hq g j hu => ?_
  · exact h.runners q hq g (hahead.subset hg)
  · subst hq; exact hahead.trans h.ahead
  · subst hq; exact h.uncreated g j (hunc g j hu)

theorem Outside.absent_of_create {cfg : Config ρ ω} {r : ρ} {s t : State ρ υ κ ω}
    (h : Outside cfg r s) {q : ρ} {g : Group} {j : ℕ} {rest : List Group}
    (hi : ⟨q,g,j⟩ ∈ cfg.team r) (hst : step cfg s (.create q g j rest) = some t) :
    s.worker ⟨q,g,j⟩ = .absent := by
  obtain ⟨⟨hpc,_⟩,_⟩ := guarded_eq_some.mp hst
  obtain ⟨rfl,_⟩ := Config.mem_team.mp hi
  exact h.uncreated g j (by rw [hpc]; exact .inl ⟨rfl,le_rfl⟩)

theorem Outside.create {cfg : Config ρ ω} {r : ρ} {s t : State ρ υ κ ω} (h : Outside cfg r s)
    (hnd : (cfg.groups r).Nodup) {q : ρ} {g : Group} {j : ℕ} {rest : List Group}
    (hst : step cfg s (.create q g j rest) = some t) : Outside cfg r t := by
  obtain ⟨⟨hpc,hj⟩,rfl⟩ := guarded_eq_some.mp hst
  refine ⟨h.object,fun i hi => ?_,fun p hp => ?_,fun i hi hg => ?_,?_,fun g' j' hu => ?_⟩
  · refine ⟨?_,(h.pointers i hi).2⟩
    by_cases he : i = ⟨q,g,j⟩
    · subst he
      simp [WorkerPc.object]
    · simpa only [Function.update_of_ne he] using (h.pointers i hi).1
  · by_cases hq : p = q
    · subst hq
      have hr := h.runners p hp
      rw [hpc] at hr
      simp only [Function.update_self]
      exact hr
    · simpa only [Function.update_of_ne hq] using h.runners p hp
  · have hne : i ≠ ⟨q,g,j⟩ := by
      rintro rfl
      by_cases hq : q = r
      · exact hi (Config.mem_team.mpr ⟨hq,hg,hj⟩)
      · exact h.runners q hq g (by rw [hpc]; exact List.mem_cons_self) hg
    simpa only [Function.update_of_ne hne] using h.quiet i hi hg
  · by_cases hq : r = q
    · subst hq
      have ha := h.ahead
      rw [hpc] at ha
      simp only [Function.update_self]
      exact ha
    · simpa only [Function.update_of_ne hq] using h.ahead
  · by_cases hq : r = q
    · subst hq
      have ha := h.ahead
      rw [hpc] at ha
      have hg : g ∉ rest := (List.nodup_cons.mp (ha.nodup hnd)).1
      simp only [Function.update_self,RunPc.uncreated] at hu
      have hne : (⟨r,g',j'⟩ : Thread ρ) ≠ ⟨r,g,j⟩ := by
        intro he
        obtain ⟨-,rfl,rfl⟩ := Thread.mk.inj he
        rcases hu with ⟨_,hu⟩ | hu
        · omega
        · exact hg hu
      simp only [Function.update_of_ne hne]
      refine h.uncreated g' j' ?_
      rw [hpc]
      exact hu.imp_left fun hu => ⟨hu.1,by omega⟩
    · simp only [Function.update_of_ne hq] at hu
      have hne : (⟨r,g',j'⟩ : Thread ρ) ≠ ⟨q,g,j⟩ := fun he => hq (Thread.mk.inj he).1
      simp only [Function.update_of_ne hne]
      exact h.uncreated g' j' hu

theorem Outside.thread {ρ υ κ ω : Type} [DecidableEq ρ] {cfg : Config ρ ω} {r : ρ}
    {s t : State ρ υ κ ω} (h : Outside cfg r s)
    {i : Thread ρ} (pc : WorkerPc ρ) (hi : ¬ (s.worker i).quiet)
    (hw : t.worker = Function.update s.worker i pc) (hr : t.runner = s.runner)
    (ho : t.barrierObject = s.barrierObject)
    (hb : ∀ j, j ≠ i → t.bars.pc j = s.bars.pc j)
    (hout : i ∉ cfg.team r → s.barrierObject i.group ≠ some r → (s.worker i).object ≠ some r →
      (s.bars.pc i).on ≠ some (.inl r) →
      pc.object ≠ some r ∧ (t.bars.pc i).on ≠ some (.inl r)) : Outside cfg r t := by
  have hnot : i ∉ cfg.team r → i.group ∉ cfg.groups r := fun hn hg => hi (h.quiet i hn hg)
  refine ⟨by rw [ho]; exact h.object,fun j hj => ?_,by rw [hr]; exact h.runners,fun j hj hg => ?_,
    by rw [hr]; exact h.ahead,fun g j hu => ?_⟩
  · by_cases hji : j = i
    · subst hji
      rw [hw,Function.update_self]
      exact hout hj (h.object _ (hnot hj)) (h.pointers j hj).1 (h.pointers j hj).2
    · rw [hw,Function.update_of_ne hji,hb j hji]
      exact h.pointers j hj
  · have hji : j ≠ i := by
      rintro rfl
      exact hnot hj hg
    rw [hw,Function.update_of_ne hji]
    exact h.quiet j hj hg
  · rw [hr] at hu
    have hs := h.uncreated g j hu
    have hne : (⟨r,g,j⟩ : Thread ρ) ≠ i := by
      rintro rfl
      exact hi (Or.inl hs)
    rw [hw,Function.update_of_ne hne]
    exact hs

theorem Outside.publish {cfg : Config ρ ω} {r q : ρ} {s t : State ρ υ κ ω} {g : Group}
    {rest : List Group} (h : Outside cfg r s) (hst : step cfg s (.publish q g rest) = some t) :
    Outside cfg r t := by
  obtain ⟨hpc,rfl⟩ := guarded_eq_some.mp hst
  refine h.call rfl rfl rfl (fun g' hg' hh => ?_) (fun hq => ?_) (fun hq => ?_)
    fun hq g' j hu => ?_
  · by_cases hgg : g' = g
    · subst hgg
      -- a group that gets the object of `r` is a group of `r`
      obtain rfl : q = r := by simpa using hh
      have ha := h.ahead
      rw [hpc] at ha
      exact absurd (ha.subset List.mem_cons_self) hg'
    · simpa only [Function.update_of_ne hgg] using hh
  · have hr := h.runners q hq
    rw [hpc] at hr
    exact hr
  · subst hq
    have ha := h.ahead
    rw [hpc] at ha
    exact ha
  · subst hq
    refine h.uncreated g' j ?_
    rw [hpc]
    exact hu.imp_left And.left

theorem Outside.callerStep {cfg : Config ρ ω} {r : ρ} {s t : State ρ υ κ ω} {a : Act ρ υ κ ω}
    (h : Outside cfg r s) (hnd : (cfg.groups r).Nodup) (hok : Alone cfg r s a) {q : ρ}
    (ha : a.caller = some q) (hst : step cfg s a = some t) : Outside cfg r t := by
  cases a with
  | runCall q =>
    obtain ⟨hpc,rfl⟩ := guarded_eq_some.mp hst
    refine h.call rfl rfl rfl (fun _ _ hg => hg) (fun hq => hok.resolve_left hq)
      (fun hq => by subst hq; exact List.Sublist.refl _) fun hq g j _ => ?_
    subst hq
    exact h.uncreated g j (by rw [hpc]; trivial)
  | allocFail q =>
    obtain ⟨⟨hpc,-⟩,rfl⟩ := guarded_eq_some.mp hst
    exact h.next rfl rfl rfl rfl (List.nil_sublist _) fun _ _ _ => by rw [hpc]; trivial
  | runBegin q =>
    obtain ⟨hpc,rfl⟩ := guarded_eq_some.mp hst
    exact h.next rfl rfl rfl rfl (by rw [hpc]; exact List.Sublist.refl _)
      fun _ _ _ => by rw [hpc]; trivial
  | prepare q g rest =>
    obtain ⟨hpc,rfl⟩ := guarded_eq_some.mp hst
    refine h.next rfl rfl rfl rfl ?_ ?_ <;> rw [hpc] <;> split <;>
      simp [RunPc.ahead,RunPc.uncreated]
  | prepared q =>
    obtain ⟨hpc,rfl⟩ := guarded_eq_some.mp hst
    refine h.next rfl rfl rfl rfl ?_ ?_ <;> split <;> simp [RunPc.ahead,RunPc.uncreated]
  | runLock q g rest =>
    obtain ⟨⟨hpc,-⟩,rfl⟩ := guarded_eq_some.mp hst
    refine h.next rfl rfl rfl rfl ?_ ?_ <;> rw [hpc] <;> simp [RunPc.ahead,RunPc.uncreated]
  | addTail q g rest | runUnlock q g rest =>
    obtain ⟨hpc,rfl⟩ := guarded_eq_some.mp hst
    refine h.next rfl rfl rfl rfl ?_ ?_ <;> rw [hpc] <;> simp [RunPc.ahead,RunPc.uncreated]
  | publish q g rest => exact h.publish hst
  | create q g j rest => exact h.create hnd hst
  | created q g j rest =>
    obtain ⟨⟨hpc,-⟩,rfl⟩ := guarded_eq_some.mp hst
    refine h.next rfl rfl rfl rfl ?_ ?_ <;> rw [hpc]
    · exact List.sublist_cons_self g rest
    · exact fun _ _ hu => Or.inr hu
  | runJoin q g rest j o =>
    obtain ⟨_,rfl⟩ := guarded_eq_some.mp hst
    exact h.next rfl rfl rfl rfl (List.nil_sublist _) fun _ _ hu => hu.elim
  | runJoined q g rest j =>
    obtain ⟨_,rfl⟩ := guarded_eq_some.mp hst
    exact h.next rfl rfl rfl rfl (List.nil_sublist _) fun _ _ hu => hu.elim
  | runReturn q j | queueWork q =>
    obtain ⟨_,rfl⟩ := guarded_eq_some.mp hst
    exact h.next rfl rfl rfl rfl (List.nil_sublist _) fun _ _ hu => hu.elim
  | _ => cases ha

theorem Outside.workerStep {cfg : Config ρ ω} {r : ρ} {s t : State ρ υ κ ω} {a : Act ρ υ κ ω}
    (h : Outside cfg r s) {i : Thread ρ} (ha : a.worker = some i) (hst : step cfg s a = some t) :
    Outside cfg r t := by
  cases a with
  | threadInit i | testObject i | callFunc i =>
    obtain ⟨hpc,rfl⟩ := guarded_eq_some.mp hst
    refine h.thread _ (by simp [hpc,WorkerPc.quiet]) rfl rfl rfl (fun _ _ => rfl)
      fun _ _ _ hon => ⟨?_,hon⟩
    split <;> simp [WorkerPc.object]
  | cleanup i | pthreadExit i =>
    obtain ⟨hpc,rfl⟩ := guarded_eq_some.mp hst
    exact h.thread _ (by simp [hpc,WorkerPc.quiet]) rfl rfl rfl (fun _ _ => rfl)
      fun _ _ _ hon => ⟨by simp [WorkerPc.object],hon⟩
  | initReturn i | barrierReturn i o | funcReturn i =>
    obtain ⟨⟨hpc,-⟩,rfl⟩ := guarded_eq_some.mp hst
    exact h.thread _ (by simp [hpc,WorkerPc.quiet]) rfl rfl rfl (fun _ _ => rfl)
      fun _ _ _ hon => ⟨by simp [WorkerPc.object],hon⟩
  | argBarrier i o =>
    obtain ⟨⟨hpc,ho⟩,rfl⟩ := guarded_eq_some.mp hst
    exact h.thread _ (by simp [hpc,WorkerPc.quiet]) rfl rfl rfl (fun _ _ => rfl)
      fun _ hobj _ hon => ⟨by rw [ho] at hobj; exact hobj,hon⟩
  | argCount i o o' =>
    obtain ⟨⟨hpc,-⟩,rfl⟩ := guarded_eq_some.mp hst
    exact h.thread _ (by simp [hpc,WorkerPc.quiet]) rfl rfl rfl (fun _ _ => rfl)
      fun _ _ hobj hon => ⟨by rw [hpc] at hobj; exact hobj,hon⟩
  | callBarrier i o n =>
    obtain ⟨hpc,hmap⟩ := Option.ite_none_right_eq_some.mp hst
    obtain ⟨b,hb,rfl⟩ := Option.map_eq_some_iff.mp hmap
    refine h.thread _ (by simp [hpc,WorkerPc.quiet]) rfl rfl rfl
      (fun j hj => (Barrier.step_other hb hj).1) fun _ _ hobj _ => ?_
    have hne : o ≠ r := by simpa [hpc,WorkerPc.object] using hobj
    refine ⟨by simpa [WorkerPc.object] using hne,?_⟩
    rcases Barrier.step_on hb with hon | hon <;> simp only [Barrier.Act.thread] at hon <;>
      simp [hon,Barrier.Act.on,hne]
  | barrier i o a =>
    obtain ⟨⟨hpc,rfl,hon,-⟩,hmap⟩ := Option.ite_none_right_eq_some.mp hst
    obtain ⟨b,hb,rfl⟩ := Option.map_eq_some_iff.mp hmap
    refine h.thread (s.worker a.thread) (by simp [hpc,WorkerPc.quiet]) (by simp) rfl rfl
      (fun j hj => (Barrier.step_other hb hj).1) fun _ _ hobj _ => ⟨hobj,?_⟩
    have hne : o ≠ r := by simpa [hpc,WorkerPc.object] using hobj
    rcases Barrier.step_on hb with hs | hs <;> simp [hs,hon,hne]
  | userBarrier i u a =>
    obtain ⟨⟨hpc,rfl,hon⟩,hmap⟩ := Option.ite_none_right_eq_some.mp hst
    obtain ⟨b,hb,rfl⟩ := Option.map_eq_some_iff.mp hmap
    have hq : ¬ (s.worker a.thread).quiet := by
      rcases hpc with hpc | hpc <;> simp [hpc,WorkerPc.quiet]
    refine h.thread (s.worker a.thread) hq (by simp) rfl rfl
      (fun j hj => (Barrier.step_other hb hj).1) fun _ _ hobj _ => ⟨hobj,?_⟩
    rcases Barrier.step_on hb with hs | hs <;> simp [hs,hon]
  | _ => cases ha

theorem Outside.joinerStep {cfg : Config ρ ω} {r : ρ} {s t : State ρ υ κ ω} {a : Act ρ υ κ ω}
    (h : Outside cfg r s) {k : κ} (ha : a.joiner = some k) (hst : step cfg s a = some t) :
    Outside cfg r t := by
  cases a with
  | joinPut k g p rest =>
    obtain ⟨-,hmap⟩ := Option.ite_none_right_eq_some.mp hst
    obtain ⟨⟨u,q⟩,hput,rfl⟩ := Option.map_eq_some_iff.mp hmap
    obtain ⟨rc,fr,bo,rfl,-,hbo⟩ := put_eq hput
    exact h.frame rfl rfl rfl fun g' => (hbo g').imp_right And.right
  | scan k g rest =>
    obtain ⟨_,ht⟩ := guarded_eq_some.mp hst
    split at ht <;> subst ht <;> exact h.frame rfl rfl rfl fun _ => Or.inl rfl
  | joinCall k | joinLock k | join k g j rest o | joinDel k g j rest | scanned k
  | joinUnlock k again | requeue k =>
    obtain ⟨_,rfl⟩ := guarded_eq_some.mp hst
    exact h.frame rfl rfl rfl fun _ => Or.inl rfl
  | _ => cases ha

theorem Outside.waiterStep {cfg : Config ρ ω} {r : ρ} {s t : State ρ υ κ ω} {a : Act ρ υ κ ω}
    (h : Outside cfg r s) {w : ω} (ha : a.waiter = some w) (hst : step cfg s a = some t) :
    Outside cfg r t := by
  cases a with
  | waitPut w g p rest =>
    obtain ⟨-,hmap⟩ := Option.ite_none_right_eq_some.mp hst
    obtain ⟨⟨u,q⟩,hput,rfl⟩ := Option.map_eq_some_iff.mp hmap
    obtain ⟨rc,fr,bo,rfl,-,hbo⟩ := put_eq hput
    exact h.frame rfl rfl rfl fun g' => (hbo g').imp_right And.right
  | waitCall w | waitNext w g rest | waitLock w g rest | waitDel w g rest | waitUnlock w g rest
  | spin w g j rest | spun w g j rest | waitJoin w g j rest o | waitJoined w g j rest
  | waitReturn w =>
    obtain ⟨_,rfl⟩ := guarded_eq_some.mp hst
    exact h.frame rfl rfl rfl fun _ => Or.inl rfl
  | _ => cases ha

theorem Outside.step {cfg : Config ρ ω} {r : ρ} {s t : State ρ υ κ ω} {a : Act ρ υ κ ω}
    (h : Outside cfg r s) (hnd : (cfg.groups r).Nodup) (hok : Alone cfg r s a)
    (hst : step cfg s a = some t) : Outside cfg r t := by
  obtain ⟨q,ha⟩ | ⟨i,ha⟩ | ⟨k,ha⟩ | ⟨w,ha⟩ := a.party
  · exact h.callerStep hnd hok ha hst
  · exact h.workerStep ha hst
  · exact h.joinerStep ha hst
  · exact h.waiterStep ha hst

theorem Gathering.frame {ρ υ κ ω : Type} [DecidableEq ρ] [DecidableEq ω] {cfg : Config ρ ω} {r : ρ}
    {before : Thread ρ → ℕ} {s t : State ρ υ κ ω} (h : Gathering cfg r before s)
    (hm : ∀ i ∈ cfg.team r, t.bars.pc i = s.bars.pc i ∧ t.bars.calls i = s.bars.calls i ∧
      t.bars.sense i = s.bars.sense i)
    (hbar : t.bars.bar (.inl r) = s.bars.bar (.inl r))
    (hw : ∀ i ∈ cfg.team r, t.worker i = s.worker i)
    (ho : ∀ g ∈ cfg.groups r, t.barrierObject g = s.barrierObject g)
    (hc : t.refcount r = s.refcount r) (hr : t.runner r = s.runner r)
    (hrun : ∀ g j rest, s.runner r = .create g j rest → g ∈ cfg.groups r)
    (hx : ∀ g ∈ cfg.groups r, t.nrExited g = s.nrExited g)
    (hj : ∀ k, ∀ g ∈ cfg.groups r, (t.joiner k).reaps g → (s.joiner k).reaps g)
    (hwt : ∀ w, ∀ g ∈ cfg.groups r, (t.waiter w).reaps g → (s.waiter w).reaps g) :
    Gathering cfg r before t := by
  refine ⟨fun i hi => ?_,fun hb => ?_,fun i hi => ?_,fun i hi hne => ?_,fun g j rest hp => ?_,
    fun g hg => by rw [hx g hg]; exact h.exited g hg,
    fun k g hg hh => h.joiner k g hg (hj k g hg hh),
    fun w g hg hh => h.waiter w g hg (hwt w g hg hh)⟩
  · obtain ⟨hp,hc,hs⟩ := hm i hi
    simpa only [Barrier.Member,hp,hc,hs] using h.members i hi
  · rw [hr] at hb
    rw [hbar,hc]
    obtain ⟨hf,hcount,hrc⟩ := h.barrier hb
    refine ⟨hf,?_,hrc⟩
    rw [hcount,Finset.filter_congr (q:=(Barrier.arrived before t.bars · = true))]
    intro i hi
    obtain ⟨hp,hc,_⟩ := hm i hi
    simp only [Barrier.arrived,hp,hc]
  · rw [hw i hi,(hm i hi).2.1]
    exact h.threads i hi
  · rw [hw i hi] at hne
    rw [ho i.group (Config.mem_team.mp hi).2.1]
    exact h.object i hi hne
  · rw [hr] at hp
    rw [ho g (hrun g j rest hp)]
    exact h.creating g j rest hp

section

omit [DecidableEq υ] [DecidableEq κ] [DecidableEq ω]

theorem Outside.creating {cfg : Config ρ ω} {r : ρ} {s : State ρ υ κ ω} (h : Outside cfg r s)
    {g : Group} {j : ℕ} {rest : List Group} (hp : s.runner r = .create g j rest) :
    g ∈ cfg.groups r := by
  have ha := h.ahead
  rw [hp] at ha
  exact ha.subset List.mem_cons_self

theorem Gathering.thread {cfg : Config ρ ω} {r : ρ} {before : Thread ρ → ℕ}
    {s : State ρ υ κ ω} (h : Gathering cfg r before s) {i : Thread ρ} {pc : WorkerPc ρ}
    (hi : i ∈ cfg.team r) (hne : s.worker i ≠ .absent) (hin : s.worker i ≠ .inBarrier r)
    (hpc : pc.early r (cfg.total r)) :
    Gathering cfg r before { s with worker := Function.update s.worker i pc } := by
  refine ⟨h.members,h.barrier,fun j hj => ?_,fun j hj hne' => ?_,h.creating,h.exited,h.joiner,
    h.waiter⟩
  · by_cases hji : j = i
    · subst hji
      left
      simp only [Function.update_self]
      exact ⟨hpc,((h.threads j hj).resolve_right fun hh => hin hh.1).2⟩
    · simpa only [Function.update_of_ne hji] using h.threads j hj
  · by_cases hji : j = i
    · subst hji; exact h.object j hj hne
    · exact h.object j hj (by simpa only [Function.update_of_ne hji] using hne')

theorem Gathering.call {cfg : Config ρ ω} {r : ρ} {before : Thread ρ → ℕ}
    {s t : State ρ υ κ ω} (h : Gathering cfg r before s) {q : ρ} {pc : RunPc}
    (hr : t.runner = Function.update s.runner q pc) (hb : t.bars = s.bars)
    (hw : t.worker = s.worker) (ho : t.barrierObject = s.barrierObject)
    (hc : t.refcount = s.refcount) (hx : t.nrExited = s.nrExited) (hj : t.joiner = s.joiner)
    (hwt : t.waiter = s.waiter) (hbegun : pc.begun = true → (s.runner q).begun = true)
    (hcreate : ∀ g j rest, pc ≠ .create g j rest) : Gathering cfg r before t := by
  refine ⟨by rw [hb]; exact h.members,fun hh => ?_,by rw [hw,hb]; exact h.threads,
    by rw [hw,ho]; exact h.object,fun g j rest hp => ?_,by rw [hx]; exact h.exited,
    by rw [hj]; exact h.joiner,by rw [hwt]; exact h.waiter⟩
  · rw [hb,hc]
    refine h.barrier ?_
    rw [hr] at hh
    by_cases hq : r = q
    · subst hq; exact hbegun (by simpa using hh)
    · simpa [hq] using hh
  · rw [ho]
    rw [hr] at hp
    by_cases hq : r = q
    · subst hq; exact absurd (by simpa using hp) (hcreate g j rest)
    · exact h.creating g j rest (by simpa [hq] using hp)

end

theorem Gathering.runBegin {cfg : Config ρ ω} {r : ρ} {before : Thread ρ → ℕ}
    {s t : State ρ υ κ ω} (h : Gathering cfg r before s) (ho : Outside cfg r s) {q : ρ}
    (hst : step cfg s (.runBegin q) = some t) : Gathering cfg r before t := by
  obtain ⟨hpc,rfl⟩ := guarded_eq_some.mp hst
  by_cases hq : q = r
  · subst hq
    have habsent : ∀ i ∈ cfg.team q, s.bars.calls i = before i := by
      intro i hi
      obtain ⟨c,g,j⟩ := i
      obtain ⟨rfl,-⟩ := Config.mem_team.mp hi
      have ha := ho.uncreated g j (by rw [hpc]; trivial)
      refine ((h.threads _ hi).resolve_right fun hh => ?_).2
      rw [ha] at hh
      cases hh.1
    refine ⟨h.members,fun _ => ?_,h.threads,h.object,fun g j rest hp => ?_,h.exited,h.joiner,
      h.waiter⟩
    · have hnone : (cfg.team q).filter (Barrier.arrived before s.bars ·) = ∅ := by
        refine Finset.filter_eq_empty_iff.mpr fun i hi => ?_
        simp [Barrier.arrived,habsent i hi]
      have harr : ∀ i, Barrier.arrived before { s.bars with
          bar := Function.update s.bars.bar (.inl q) Barrier.barrierInit } i =
          Barrier.arrived before s.bars i := fun _ => rfl
      simp only [harr,hnone]
      simp [Barrier.barrierInit]
    · simp at hp
  · refine h.frame (fun _ _ => ⟨rfl,rfl,rfl⟩) ?_ (fun _ _ => rfl) (fun _ _ => rfl) ?_ ?_
      (fun _ _ _ hp => ho.creating hp) (fun _ _ => rfl) (fun _ _ _ hh => hh) fun _ _ _ hh => hh
    · simp [Ne.symm hq]
    · simp [Ne.symm hq]
    · simp [Ne.symm hq]

theorem Gathering.publish {cfg : Config ρ ω} {r : ρ} {before : Thread ρ → ℕ}
    {s t : State ρ υ κ ω} (h : Gathering cfg r before s) (ho : Outside cfg r s) {q : ρ} {g : Group}
    {rest : List Group} (hst : step cfg s (.publish q g rest) = some t) :
    Gathering cfg r before t := by
  obtain ⟨hpc,rfl⟩ := guarded_eq_some.mp hst
  by_cases hq : q = r
  · subst hq
    refine ⟨h.members,fun _ => h.barrier (by rw [hpc]; rfl),h.threads,fun i hi hne => ?_,
      fun g' j rest' hp => ?_,h.exited,h.joiner,h.waiter⟩
    · by_cases hg : i.group = g
      · simp [hg]
      · simpa [hg] using h.object i hi hne
    · obtain ⟨rfl,-,-⟩ : g = g' ∧ 0 = j ∧ rest = rest' := by simpa using hp
      simp
  · refine h.frame (fun _ _ => ⟨rfl,rfl,rfl⟩) rfl (fun _ _ => rfl) (fun g' hg' => ?_) rfl ?_
      (fun _ _ _ hp => ho.creating hp) (fun _ _ => rfl) (fun _ _ _ hh => hh) fun _ _ _ hh => hh
    · have hne : g' ≠ g := by
        rintro rfl
        exact ho.runners q hq g' (by rw [hpc]; exact List.mem_cons_self) hg'
      simp [hne]
    · simp [Ne.symm hq]

theorem Gathering.create {cfg : Config ρ ω} {r : ρ} {before : Thread ρ → ℕ}
    {s t : State ρ υ κ ω} (h : Gathering cfg r before s) (ho : Outside cfg r s) {q : ρ} {g : Group}
    {j : ℕ} {rest : List Group} (hst : step cfg s (.create q g j rest) = some t) :
    Gathering cfg r before t := by
  obtain ⟨⟨hpc,hj⟩,rfl⟩ := guarded_eq_some.mp hst
  by_cases hq : q = r
  · subst hq
    have habsent : s.worker ⟨q,g,j⟩ = .absent :=
      ho.uncreated g j (by rw [hpc]; exact Or.inl ⟨rfl,le_rfl⟩)
    have hobj := h.creating g j rest hpc
    refine ⟨h.members,fun _ => h.barrier (by rw [hpc]; rfl),fun i hi => ?_,fun i hi hne => ?_,
      fun g' j' rest' hp => ?_,h.exited,h.joiner,h.waiter⟩
    · by_cases he : i = ⟨q,g,j⟩
      · subst he
        left
        refine ⟨by simp [WorkerPc.early],?_⟩
        refine ((h.threads _ hi).resolve_right fun hh => ?_).2
        rw [habsent] at hh
        cases hh.1
      · simpa only [Function.update_of_ne he] using h.threads i hi
    · by_cases he : i = ⟨q,g,j⟩
      · subst he; exact hobj
      · exact h.object i hi (by simpa only [Function.update_of_ne he] using hne)
    · obtain ⟨rfl,-,-⟩ : g = g' ∧ j+1 = j' ∧ rest = rest' := by simpa using hp
      exact hobj
  · refine h.frame (fun _ _ => ⟨rfl,rfl,rfl⟩) rfl (fun i hi => ?_) (fun _ _ => rfl) rfl ?_
      (fun _ _ _ hp => ho.creating hp) (fun _ _ => rfl) (fun _ _ _ hh => hh) fun _ _ _ hh => hh
    · have hne : i ≠ ⟨q,g,j⟩ := by
        rintro rfl
        exact hq (Config.mem_team.mp hi).1
      simp [hne]
    · simp [Ne.symm hq]

theorem Gathering.outsider {ρ υ κ ω : Type} [DecidableEq ρ] [DecidableEq ω] {cfg : Config ρ ω}
    {r : ρ} {before : Thread ρ → ℕ}
    {s t : State ρ υ κ ω} (h : Gathering cfg r before s) (ho : Outside cfg r s) {i : Thread ρ}
    (hi : i ∉ cfg.team r)
    (hm : ∀ j, j ≠ i → t.bars.pc j = s.bars.pc j ∧ t.bars.calls j = s.bars.calls j ∧
      t.bars.sense j = s.bars.sense j)
    (hbar : t.bars.bar (.inl r) = s.bars.bar (.inl r))
    (hw : ∀ j, j ≠ i → t.worker j = s.worker j) (hob : t.barrierObject = s.barrierObject)
    (hc : t.refcount = s.refcount) (hr : t.runner = s.runner) (hj : t.joiner = s.joiner)
    (hwt : t.waiter = s.waiter) (hx : ∀ g ∈ cfg.groups r, t.nrExited g = s.nrExited g) :
    Gathering cfg r before t := by
  have hne : ∀ j ∈ cfg.team r, j ≠ i := by
    rintro j hj rfl
    exact hi hj
  exact h.frame (fun j hj => hm j (hne j hj)) hbar (fun j hj => hw j (hne j hj))
    (fun _ _ => by rw [hob]) (by rw [hc]) (by rw [hr]) (fun _ _ _ hp => ho.creating hp) hx
    (fun _ _ _ hh => by rwa [hj] at hh) fun _ _ _ hh => by rwa [hwt] at hh

theorem Outside.begun {ρ υ κ ω : Type} [DecidableEq ρ] [DecidableEq ω] {cfg : Config ρ ω} {r : ρ}
    {s : State ρ υ κ ω} (h : Outside cfg r s)
    {i : Thread ρ} (hi : i ∈ cfg.team r) (hne : s.worker i ≠ .absent) :
    (s.runner r).begun = true := by
  obtain ⟨c,g,j⟩ := i
  obtain ⟨rfl,-⟩ := Config.mem_team.mp hi
  by_contra hb
  refine hne (h.uncreated g j ?_)
  cases hpc : s.runner c <;> simp [hpc,RunPc.begun] at hb <;> trivial

theorem Gathering.barrierStep {ρ υ κ ω : Type} [DecidableEq ρ] [DecidableEq υ] [DecidableEq ω]
    {cfg : Config ρ ω} {r : ρ} {before : Thread ρ → ℕ}
    {s t : State ρ υ κ ω} (h : Gathering cfg r before s) (ho : Outside cfg r s)
    (htotal : (cfg.total r).toNat = (cfg.team r).card) (hmax : (cfg.team r).card ≤ 2^31)
    {a : Barrier.Act (ρ ⊕ υ) (Thread ρ)} (hi : a.thread ∈ cfg.team r)
    (hne : s.worker a.thread ≠ .absent) (hst : Barrier.step s.bars a = some t.bars)
    (hok : Barrier.CallsOnce (cfg.team r) (.inl r) (cfg.total r) before s.bars a)
    (hw : ∀ i, i ≠ a.thread → t.worker i = s.worker i) (hin : t.worker a.thread = .inBarrier r)
    (hcalls : before a.thread < t.bars.calls a.thread) (hob : t.barrierObject = s.barrierObject)
    (hc : t.refcount = s.refcount) (hr : t.runner = s.runner) (hx : t.nrExited = s.nrExited)
    (hj : t.joiner = s.joiner) (hwt : t.waiter = s.waiter) :
    Gathering cfg r before t ∨ Started cfg r t := by
  have hb := ho.begun hi hne
  have hthreads : ∀ i ∈ cfg.team r,
      (t.worker i).early r (cfg.total r) ∧ t.bars.calls i = before i ∨
      t.worker i = .inBarrier r ∧ before i < t.bars.calls i := by
    intro i hi'
    by_cases he : i = a.thread
    · subst he; exact Or.inr ⟨hin,hcalls⟩
    · rw [hw i he,(Barrier.step_other hst he).2.1]
      exact h.threads i hi'
  rcases (h.waiting ho hb).step (by rw [htotal]; exact hmax) htotal.symm hok hst with hwait | hall
  · refine Or.inl ⟨hwait.members,fun _ => ⟨hwait.flag,hwait.count,?_⟩,hthreads,fun i hi' hne' => ?_,
      by rw [hr,hob]; exact h.creating,by rw [hx]; exact h.exited,by rw [hj]; exact h.joiner,
      by rw [hwt]; exact h.waiter⟩
    · rw [hc]; exact (h.barrier hb).2.2
    · rw [hob]
      by_cases he : i = a.thread
      · subst he; exact h.object _ hi' hne
      · exact h.object i hi' (by rwa [hw i he] at hne')
  · refine Or.inr fun i hi' => ?_
    rcases hthreads i hi' with ⟨_,hh⟩ | ⟨hh,_⟩
    · exact absurd (hall i hi') (by omega)
    · rw [hh]; rfl

theorem Gathering.outside_team {ρ υ κ ω : Type} [DecidableEq ρ] {cfg : Config ρ ω} {r : ρ}
    {before : Thread ρ → ℕ} {s : State ρ υ κ ω} (h : Gathering cfg r before s) {i : Thread ρ}
    (hpc : s.worker i = .ready ∨ s.worker i = .func ∨ s.worker i = .exit ∨ s.worker i = .exiting) :
    i ∉ cfg.team r := by
  intro hi
  rcases h.threads i hi with ⟨he,_⟩ | ⟨he,_⟩
  · rcases hpc with hpc | hpc | hpc | hpc <;> simp [hpc,WorkerPc.early] at he
  · rcases hpc with hpc | hpc | hpc | hpc <;> simp [hpc] at he

theorem Gathering.walk {ρ υ κ ω : Type} [DecidableEq ρ] [DecidableEq ω] {cfg : Config ρ ω} {r : ρ}
    {before : Thread ρ → ℕ}
    {s : State ρ υ κ ω} (h : Gathering cfg r before s) (ho : Outside cfg r s) {i : Thread ρ}
    {pc : WorkerPc ρ} (hne : s.worker i ≠ .absent) (hin : s.worker i ≠ .inBarrier r)
    (hpc : i ∈ cfg.team r → pc.early r (cfg.total r)) :
    Gathering cfg r before { s with worker := Function.update s.worker i pc } := by
  by_cases hi : i ∈ cfg.team r
  · exact h.thread hi hne hin (hpc hi)
  · exact h.outsider ho hi (fun _ _ => ⟨rfl,rfl,rfl⟩) rfl (fun j hj => by simp [hj]) rfl rfl rfl
      rfl rfl fun _ _ => rfl

theorem Gathering.reaper {ρ υ κ ω : Type} [DecidableEq ρ] [DecidableEq ω] {cfg : Config ρ ω} {r : ρ}
    {before : Thread ρ → ℕ}
    {s t : State ρ υ κ ω} (h : Gathering cfg r before s) (hb : t.bars = s.bars)
    (hw : t.worker = s.worker) (ho : ∀ g ∈ cfg.groups r, t.barrierObject g = s.barrierObject g)
    (hc : t.refcount r = s.refcount r) (hx : t.nrExited = s.nrExited) (hr : t.runner = s.runner)
    (hout : Outside cfg r s)
    (hj : ∀ k, ∀ g ∈ cfg.groups r, (t.joiner k).reaps g → (s.joiner k).reaps g)
    (hwt : ∀ w, ∀ g ∈ cfg.groups r, (t.waiter w).reaps g → (s.waiter w).reaps g) :
    Gathering cfg r before t :=
  h.frame (fun _ _ => by simp [hb]) (by rw [hb]) (fun _ _ => by rw [hw]) ho hc (by rw [hr])
    (fun _ _ _ hp => hout.creating hp) (fun _ _ => by rw [hx]) hj hwt

theorem reaps_update_joiner {f : κ → JoinPc} {k : κ} {pc : JoinPc} {gs : List Group}
    (h : ∀ g ∈ gs, pc.reaps g → (f k).reaps g) :
    ∀ q, ∀ g ∈ gs, (Function.update f k pc q).reaps g → (f q).reaps g := by
  intro q g hg
  by_cases hq : q = k
  · subst hq; rw [Function.update_self]; exact h g hg
  · rw [Function.update_of_ne hq]; exact id

theorem reaps_update_waiter {f : ω → WaitPc} {w : ω} {pc : WaitPc} {gs : List Group}
    (h : ∀ g ∈ gs, pc.reaps g → (f w).reaps g) :
    ∀ q, ∀ g ∈ gs, (Function.update f w pc q).reaps g → (f q).reaps g := by
  intro q g hg
  by_cases hq : q = w
  · subst hq; rw [Function.update_self]; exact h g hg
  · rw [Function.update_of_ne hq]; exact id

theorem Gathering.put {ρ υ κ ω : Type} [DecidableEq ρ] [DecidableEq ω] {cfg : Config ρ ω} {r : ρ}
    {before : Thread ρ → ℕ}
    {s t : State ρ υ κ ω} (h : Gathering cfg r before s) (ho : Outside cfg r s) {g : Group}
    (hg : g ∉ cfg.groups r) {p : PutPc} {q : Option PutPc}
    (hput : ThreadGroup.put cfg s g p = some (t,q)) (f : κ → JoinPc) (f' : ω → WaitPc)
    (hj : ∀ k, ∀ g ∈ cfg.groups r, (f k).reaps g → (s.joiner k).reaps g)
    (hwt : ∀ w, ∀ g ∈ cfg.groups r, (f' w).reaps g → (s.waiter w).reaps g) :
    Gathering cfg r before { t with joiner := f, waiter := f' } := by
  obtain ⟨rc,fr,bo,rfl,hrc,hbo⟩ := put_eq hput
  refine h.reaper rfl rfl (fun g' hg' => ?_) (hrc r (ho.object g hg)) rfl rfl ho hj hwt
  refine (hbo g').resolve_right ?_
  rintro ⟨rfl,-⟩
  exact hg hg'

theorem Gathering.callerStep {cfg : Config ρ ω} {r : ρ} {before : Thread ρ → ℕ}
    {s t : State ρ υ κ ω} {a : Act ρ υ κ ω} (h : Gathering cfg r before s) (ho : Outside cfg r s)
    {q : ρ} (ha : a.caller = some q) (hst : step cfg s a = some t) : Gathering cfg r before t := by
  cases a with
  | runCall q =>
    obtain ⟨hpc,rfl⟩ := guarded_eq_some.mp hst
    exact h.call rfl rfl rfl rfl rfl rfl rfl rfl nofun nofun
  | allocFail q =>
    obtain ⟨-,rfl⟩ := guarded_eq_some.mp hst
    exact h.call rfl rfl rfl rfl rfl rfl rfl rfl nofun nofun
  | runBegin q => exact h.runBegin ho hst
  | prepare q g rest | prepared q =>
    obtain ⟨hpc,rfl⟩ := guarded_eq_some.mp hst
    refine h.call rfl rfl rfl rfl rfl rfl rfl rfl (fun _ => by rw [hpc]; rfl) ?_
    split <;> nofun
  | addTail q g rest | runUnlock q g rest | runReturn q j | queueWork q =>
    obtain ⟨hpc,rfl⟩ := guarded_eq_some.mp hst
    exact h.call rfl rfl rfl rfl rfl rfl rfl rfl (fun _ => by rw [hpc]; rfl) nofun
  | runLock q g rest | created q g j rest | runJoin q g rest j o | runJoined q g rest j =>
    obtain ⟨⟨hpc,-⟩,rfl⟩ := guarded_eq_some.mp hst
    exact h.call rfl rfl rfl rfl rfl rfl rfl rfl (fun _ => by rw [hpc]; rfl) nofun
  | publish q g rest => exact h.publish ho hst
  | create q g j rest => exact h.create ho hst
  | _ => cases ha

theorem Gathering.joinerStep {cfg : Config ρ ω} {r : ρ} {before : Thread ρ → ℕ}
    {s t : State ρ υ κ ω} {a : Act ρ υ κ ω} (h : Gathering cfg r before s) (ho : Outside cfg r s)
    (hzero : ∀ g ∈ cfg.groups r, s.nrExited g ≠ cfg.nr g) {k : κ} (ha : a.joiner = some k)
    (hst : step cfg s a = some t) : Gathering cfg r before t := by
  cases a with
  | scan k g rest =>
    obtain ⟨hpc,ht⟩ := guarded_eq_some.mp hst
    split at ht <;> subst ht
    · rename_i he
      refine h.reaper rfl rfl (fun _ _ => rfl) rfl rfl rfl ho
        (reaps_update_joiner fun g' hg' hh => ?_) fun _ _ _ hh => hh
      obtain rfl : g = g' := hh
      exact absurd he (hzero g hg')
    · exact h.reaper rfl rfl (fun _ _ => rfl) rfl rfl rfl ho
        (reaps_update_joiner fun _ _ hh => hh.elim) fun _ _ _ hh => hh
  | joinCall k | joinLock k | scanned k | requeue k =>
    obtain ⟨_,rfl⟩ := guarded_eq_some.mp hst
    exact h.reaper rfl rfl (fun _ _ => rfl) rfl rfl rfl ho
      (reaps_update_joiner fun _ _ hh => hh.elim) fun _ _ _ hh => hh
  | joinUnlock k again =>
    obtain ⟨_,rfl⟩ := guarded_eq_some.mp hst
    refine h.reaper rfl rfl (fun _ _ => rfl) rfl rfl rfl ho
      (reaps_update_joiner fun _ _ hh => ?_) fun _ _ _ hh => hh
    cases again <;> exact hh.elim
  | join k g j rest o | joinDel k g j rest =>
    obtain ⟨⟨hpc,-⟩,rfl⟩ := guarded_eq_some.mp hst
    exact h.reaper rfl rfl (fun _ _ => rfl) rfl rfl rfl ho
      (reaps_update_joiner fun _ _ hh => by rw [hpc]; exact hh) fun _ _ _ hh => hh
  | joinPut k g p rest =>
    obtain ⟨hpc,hmap⟩ := Option.ite_none_right_eq_some.mp hst
    obtain ⟨⟨u,q⟩,hput,rfl⟩ := Option.map_eq_some_iff.mp hmap
    have hg : g ∉ cfg.groups r := fun hg => h.joiner k g hg (by rw [hpc]; rfl)
    have hu : u.waiter = s.waiter := by
      obtain ⟨_,_,_,rfl,-⟩ := put_eq hput
      rfl
    refine h.put ho hg hput (Function.update s.joiner k (.afterPut g rest q)) u.waiter
      (reaps_update_joiner fun g' hg' hh => ?_) fun _ _ _ hh => by rwa [hu] at hh
    rw [hpc]
    cases q with
    | some q => exact hh
    | none => exact hh.elim
  | _ => cases ha

theorem Gathering.waiterStep {cfg : Config ρ ω} {r : ρ} {before : Thread ρ → ℕ}
    {s t : State ρ υ κ ω} {a : Act ρ υ κ ω} (h : Gathering cfg r before s) (ho : Outside cfg r s)
    (hpos : ∀ g ∈ cfg.groups r, 0 < (cfg.nr g).toNat)
    (hzero : ∀ g ∈ cfg.groups r, s.nrExited g ≠ cfg.nr g) {w : ω} (ha : a.waiter = some w)
    (hst : step cfg s a = some t) : Gathering cfg r before t := by
  cases a with
  | waitCall w | waitNext w g rest | waitLock w g rest | waitDel w g rest | waitReturn w =>
    obtain ⟨_,rfl⟩ := guarded_eq_some.mp hst
    exact h.reaper rfl rfl (fun _ _ => rfl) rfl rfl rfl ho (fun _ _ _ hh => hh)
      (reaps_update_waiter fun _ _ hh => hh.elim)
  | waitUnlock w g rest =>
    obtain ⟨_,rfl⟩ := guarded_eq_some.mp hst
    exact h.reaper rfl rfl (fun _ _ => rfl) rfl rfl rfl ho (fun _ _ _ hh => hh)
      (reaps_update_waiter fun _ _ hh => absurd hh.2 (lt_irrefl 0))
  | spin w g j rest =>
    obtain ⟨⟨hpc,-⟩,rfl⟩ := guarded_eq_some.mp hst
    refine h.reaper rfl rfl (fun _ _ => rfl) rfl rfl rfl ho (fun _ _ _ hh => hh)
      (reaps_update_waiter fun g' hg' hh => ?_)
    rw [hpc]
    obtain ⟨rfl,hj⟩ := hh
    rw [if_neg (hzero g hg')] at hj
    exact ⟨rfl,hj⟩
  | spun w g j rest =>
    obtain ⟨⟨hpc,hj⟩,rfl⟩ := guarded_eq_some.mp hst
    refine h.reaper rfl rfl (fun _ _ => rfl) rfl rfl rfl ho (fun _ _ _ hh => hh)
      (reaps_update_waiter fun g' hg' hh => ?_)
    obtain rfl : g = g' := hh
    rw [hpc]
    have hp := hpos g hg'
    exact ⟨rfl,by omega⟩
  | waitJoin w g j rest o | waitJoined w g j rest =>
    obtain ⟨⟨hpc,-⟩,rfl⟩ := guarded_eq_some.mp hst
    exact h.reaper rfl rfl (fun _ _ => rfl) rfl rfl rfl ho (fun _ _ _ hh => hh)
      (reaps_update_waiter fun _ _ hh => by rw [hpc]; exact hh)
  | waitPut w g p rest =>
    obtain ⟨hpc,hmap⟩ := Option.ite_none_right_eq_some.mp hst
    obtain ⟨⟨u,q⟩,hput,rfl⟩ := Option.map_eq_some_iff.mp hmap
    have hg : g ∉ cfg.groups r := fun hg => h.waiter w g hg (by rw [hpc]; rfl)
    have hu : u.joiner = s.joiner := by
      obtain ⟨_,_,_,rfl,-⟩ := put_eq hput
      rfl
    refine h.put ho hg hput u.joiner (Function.update s.waiter w (.afterPut g rest q))
      (fun _ _ _ hh => by rwa [hu] at hh) (reaps_update_waiter fun g' hg' hh => ?_)
    rw [hpc]
    cases q with
    | some q => exact hh
    | none => exact hh.elim
  | _ => cases ha

theorem Gathering.callBarrier {cfg : Config ρ ω} {r : ρ} {before : Thread ρ → ℕ}
    {s t : State ρ υ κ ω} (h : Gathering cfg r before s) (ho : Outside cfg r s)
    (htotal : (cfg.total r).toNat = (cfg.team r).card) (hmax : (cfg.team r).card ≤ 2^31)
    {i : Thread ρ} {o : ρ} {n : Barrier.Size} (hst : step cfg s (.callBarrier i o n) = some t) :
    Gathering cfg r before t ∨ Started cfg r t := by
  obtain ⟨hpc,hmap⟩ := Option.ite_none_right_eq_some.mp hst
  obtain ⟨b,hb,rfl⟩ := Option.map_eq_some_iff.mp hmap
  by_cases hi : i ∈ cfg.team r
  · obtain ⟨he,hcalls⟩ := (h.threads i hi).resolve_right fun hh => by simp [hpc] at hh
    obtain ⟨rfl,rfl⟩ : o = r ∧ n = cfg.total r := by simpa [hpc,WorkerPc.early] using he
    refine h.barrierStep (a:=.enter i (.inl o) (cfg.total o)) ho htotal hmax hi
      (by simp [Barrier.Act.thread,hpc]) hb ?_
      (fun j hj => Function.update_of_ne hj _ _) (by simp [Barrier.Act.thread]) ?_
      rfl rfl rfl rfl rfl rfl
    · simp [Barrier.CallsOnce,hi,hcalls]
    · obtain ⟨_,rfl⟩ := guarded_eq_some.mp hb
      simp [Barrier.Act.thread,hcalls]
  · have hne : o ≠ r := by simpa [hpc,WorkerPc.object] using (ho.pointers i hi).1
    exact Or.inl (h.outsider ho hi (fun j hj => Barrier.step_other hb hj)
      (Barrier.step_bar hb (by simp [Barrier.Act.on,Ne.symm hne]))
      (fun j hj => by simp [hj]) rfl rfl rfl rfl rfl fun _ _ => rfl)

theorem Gathering.inBarrier {cfg : Config ρ ω} {r : ρ} {before : Thread ρ → ℕ}
    {s t : State ρ υ κ ω} (h : Gathering cfg r before s) (ho : Outside cfg r s)
    (htotal : (cfg.total r).toNat = (cfg.team r).card) (hmax : (cfg.team r).card ≤ 2^31)
    {i : Thread ρ} {o : ρ} {a : Barrier.Act (ρ ⊕ υ) (Thread ρ)}
    (hst : step cfg s (.barrier i o a) = some t) : Gathering cfg r before t ∨ Started cfg r t := by
  obtain ⟨⟨hpc,rfl,hon,henter⟩,hmap⟩ := Option.ite_none_right_eq_some.mp hst
  obtain ⟨b,hb,rfl⟩ := Option.map_eq_some_iff.mp hmap
  by_cases hi : a.thread ∈ cfg.team r
  · obtain ⟨he,hcalls⟩ := (h.threads _ hi).resolve_left fun hh => by
      simp [hpc,WorkerPc.early] at hh
    refine h.barrierStep ho htotal hmax hi (by simp [hpc]) hb ?_ (fun _ _ => rfl) he ?_
      rfl rfl rfl rfl rfl rfl
    · cases a <;> trivial
    · simp only [Barrier.step_calls hb henter]
      exact hcalls
  · have hne : o ≠ r := by simpa [hpc,WorkerPc.object] using (ho.pointers _ hi).1
    exact Or.inl (h.outsider ho hi (fun j hj => Barrier.step_other hb hj)
      (Barrier.step_bar hb (by simp [hon,Ne.symm hne])) (fun _ _ => rfl) rfl rfl rfl rfl rfl
      fun _ _ => rfl)

theorem Gathering.userBarrier {cfg : Config ρ ω} {r : ρ} {before : Thread ρ → ℕ}
    {s t : State ρ υ κ ω} (h : Gathering cfg r before s) (ho : Outside cfg r s) {i : Thread ρ}
    {u : υ} {a : Barrier.Act (ρ ⊕ υ) (Thread ρ)} (hok : QuietInit cfg r s (.userBarrier i u a))
    (hst : step cfg s (.userBarrier i u a) = some t) : Gathering cfg r before t := by
  obtain ⟨⟨hpc,rfl,hon⟩,hmap⟩ := Option.ite_none_right_eq_some.mp hst
  obtain ⟨b,hb,rfl⟩ := Option.map_eq_some_iff.mp hmap
  have hi : a.thread ∉ cfg.team r := fun hi =>
    h.outside_team (.inr (.inl (hpc.resolve_left (hok.2 _ u a rfl hi)))) hi
  exact h.outsider ho hi (fun j hj => Barrier.step_other hb hj)
    (Barrier.step_bar hb (by simp [hon])) (fun _ _ => rfl) rfl rfl rfl rfl rfl fun _ _ => rfl

theorem Gathering.cleanup {cfg : Config ρ ω} {r : ρ} {before : Thread ρ → ℕ}
    {s t : State ρ υ κ ω} (h : Gathering cfg r before s) (ho : Outside cfg r s) {i : Thread ρ}
    (hst : step cfg s (.cleanup i) = some t) : Gathering cfg r before t := by
  obtain ⟨hpc,rfl⟩ := guarded_eq_some.mp hst
  have hi : i ∉ cfg.team r := h.outside_team (by simp [hpc])
  refine h.outsider ho hi (fun _ _ => ⟨rfl,rfl,rfl⟩) rfl (fun j hj => by simp [hj]) rfl rfl rfl rfl
    rfl fun g hg => ?_
  have hne : g ≠ i.group := by
    rintro rfl
    have hq := ho.quiet i hi hg
    simp [hpc,WorkerPc.quiet] at hq
  split <;> simp [hne]

theorem Gathering.workerStep {cfg : Config ρ ω} {r : ρ} {before : Thread ρ → ℕ}
    {s t : State ρ υ κ ω} {a : Act ρ υ κ ω} (h : Gathering cfg r before s) (ho : Outside cfg r s)
    (htotal : (cfg.total r).toNat = (cfg.team r).card) (hmax : (cfg.team r).card ≤ 2^31)
    (hok : QuietInit cfg r s a) {i : Thread ρ} (ha : a.worker = some i)
    (hst : step cfg s a = some t) : Gathering cfg r before t ∨ Started cfg r t := by
  cases a with
  | threadInit i =>
    obtain ⟨hpc,rfl⟩ := guarded_eq_some.mp hst
    refine Or.inl (h.walk ho (by simp [hpc]) (by simp [hpc]) fun _ => ?_)
    split <;> simp [WorkerPc.early]
  | initReturn i =>
    obtain ⟨⟨hpc,-⟩,rfl⟩ := guarded_eq_some.mp hst
    exact Or.inl (h.walk ho (by simp [hpc]) (by simp [hpc]) fun _ => by simp [WorkerPc.early])
  | testObject i =>
    obtain ⟨hpc,rfl⟩ := guarded_eq_some.mp hst
    refine Or.inl (h.walk ho (by simp [hpc]) (by simp [hpc]) fun hi => ?_)
    rw [h.object i hi (by simp [hpc])]
    simp [WorkerPc.early]
  | argBarrier i o =>
    obtain ⟨⟨hpc,hob⟩,rfl⟩ := guarded_eq_some.mp hst
    refine Or.inl (h.walk ho (by simp [hpc]) (by simp [hpc]) fun hi => ?_)
    rw [h.object i hi (by simp [hpc])] at hob
    simp [WorkerPc.early,Option.some.inj hob]
  | argCount i o o' =>
    obtain ⟨⟨hpc,hob⟩,rfl⟩ := guarded_eq_some.mp hst
    refine Or.inl (h.walk ho (by simp [hpc]) (by simp [hpc]) fun hi => ?_)
    rw [h.object i hi (by simp [hpc])] at hob
    obtain rfl := Option.some.inj hob
    -- nobody has put a group of the call, so the count is still the one it was given
    rw [(h.barrier (ho.begun hi (by simp [hpc]))).2.2]
    have he := (h.threads i hi).resolve_right fun hh => by simp [hpc] at hh
    simpa [hpc,WorkerPc.early] using he.1
  | callBarrier i o n => exact h.callBarrier ho htotal hmax hst
  | barrier i o a => exact h.inBarrier ho htotal hmax hst
  | barrierReturn i o =>
    obtain ⟨⟨hpc,hidle⟩,rfl⟩ := guarded_eq_some.mp hst
    have hi : i ∉ cfg.team r := by
      intro hi
      obtain ⟨_,hcalls⟩ := (h.threads i hi).resolve_left fun hh => by
        simp [hpc,WorkerPc.early] at hh
      have hm := (h.members i hi).resolve_left fun hh => by omega
      simp [hidle] at hm
    exact Or.inl (h.outsider ho hi (fun _ _ => ⟨rfl,rfl,rfl⟩) rfl (fun j hj => by simp [hj]) rfl rfl
      rfl rfl rfl fun _ _ => rfl)
  | callFunc i | pthreadExit i =>
    obtain ⟨hpc,rfl⟩ := guarded_eq_some.mp hst
    have hi : i ∉ cfg.team r := h.outside_team (by simp [hpc])
    exact Or.inl (h.outsider ho hi (fun _ _ => ⟨rfl,rfl,rfl⟩) rfl (fun j hj => by simp [hj]) rfl rfl
      rfl rfl rfl fun _ _ => rfl)
  | funcReturn i =>
    obtain ⟨⟨hpc,-⟩,rfl⟩ := guarded_eq_some.mp hst
    have hi : i ∉ cfg.team r := h.outside_team (by simp [hpc])
    exact Or.inl (h.outsider ho hi (fun _ _ => ⟨rfl,rfl,rfl⟩) rfl (fun j hj => by simp [hj]) rfl rfl
      rfl rfl rfl fun _ _ => rfl)
  | cleanup i => exact Or.inl (h.cleanup ho hst)
  | userBarrier i u a => exact Or.inl (h.userBarrier ho hok hst)
  | _ => cases ha

theorem Gathering.step {cfg : Config ρ ω} {r : ρ} {before : Thread ρ → ℕ}
    {s t : State ρ υ κ ω} {a : Act ρ υ κ ω} (h : Gathering cfg r before s) (ho : Outside cfg r s)
    (hpos : ∀ g ∈ cfg.groups r, 0 < (cfg.nr g).toNat)
    (htotal : (cfg.total r).toNat = (cfg.team r).card) (hmax : (cfg.team r).card ≤ 2^31)
    (hok : QuietInit cfg r s a) (hst : step cfg s a = some t) :
    Gathering cfg r before t ∨ Started cfg r t := by
  have hzero : ∀ g ∈ cfg.groups r, s.nrExited g ≠ cfg.nr g := by
    intro g hg he
    have hp := hpos g hg
    rw [← he,h.exited g hg] at hp
    exact absurd hp (by decide)
  obtain ⟨q,hq⟩ | ⟨i,hi⟩ | ⟨k,hk⟩ | ⟨w,hw⟩ := a.party
  · exact Or.inl (h.callerStep ho hq hst)
  · exact h.workerStep ho htotal hmax hok hi hst
  · exact Or.inl (h.joinerStep ho hzero hk hst)
  · exact Or.inl (h.waiterStep ho hpos hzero hw hst)

theorem Started.thread {ρ υ κ ω : Type} [DecidableEq ρ] {cfg : Config ρ ω} {r : ρ}
    {s t : State ρ υ κ ω} (h : Started cfg r s)
    {j : Thread ρ} {pc : WorkerPc ρ} (hw : t.worker = Function.update s.worker j pc)
    (hpc : (s.worker j).entered = true → pc.entered = true) : Started cfg r t := by
  intro i hi
  rw [hw]
  by_cases he : i = j
  · subst he; rw [Function.update_self]; exact hpc (h i hi)
  · rw [Function.update_of_ne he]; exact h i hi

theorem Started.step {cfg : Config ρ ω} {r : ρ} {s t : State ρ υ κ ω} {a : Act ρ υ κ ω}
    (h : Started cfg r s) (ho : Outside cfg r s) (hst : step cfg s a = some t) :
    Started cfg r t := by
  cases a with
  | create q g j rest =>
    intro i hi
    have hne : i ≠ ⟨q,g,j⟩ := by
      rintro rfl
      have he := h _ hi
      rw [ho.absent_of_create hi hst] at he
      cases he
    obtain ⟨_,rfl⟩ := guarded_eq_some.mp hst
    simpa only [Function.update_of_ne hne] using h i hi
  | threadInit i | testObject i | pthreadExit i | cleanup i | callFunc i =>
    obtain ⟨hpc,rfl⟩ := guarded_eq_some.mp hst
    refine h.thread rfl ?_
    rw [hpc]
    first | (split <;> simp [WorkerPc.entered]) | simp [WorkerPc.entered]
  | initReturn i | argBarrier i o | argCount i o o' | barrierReturn i o | funcReturn i =>
    obtain ⟨⟨hpc,-⟩,rfl⟩ := guarded_eq_some.mp hst
    refine h.thread rfl ?_
    rw [hpc]
    simp [WorkerPc.entered]
  | callBarrier i o n =>
    simp only [ThreadGroup.step] at hst
    split at hst
    · obtain ⟨b,-,rfl⟩ := Option.map_eq_some_iff.mp hst
      exact h.thread rfl fun _ => rfl
    · cases hst
  | barrier i o a | userBarrier i u a =>
    simp only [ThreadGroup.step] at hst
    split at hst
    · obtain ⟨b,-,rfl⟩ := Option.map_eq_some_iff.mp hst
      exact h
    · cases hst
  | joinPut k g p rest | waitPut w g p rest =>
    simp only [ThreadGroup.step] at hst
    split at hst
    · obtain ⟨⟨u,q⟩,hput,rfl⟩ := Option.map_eq_some_iff.mp hst
      obtain ⟨_,_,_,rfl,-⟩ := put_eq hput
      exact h
    · cases hst
  | scan k g rest =>
    obtain ⟨_,ht⟩ := guarded_eq_some.mp hst
    split at ht <;> subst ht <;> exact h
  | runCall q | allocFail q | runBegin q | prepare q g rest | prepared q | runLock q g rest
  | addTail q g rest | runUnlock q g rest | publish q g rest | created q g j rest
  | runJoin q g rest j o | runJoined q g rest j | runReturn q j | queueWork q
  | joinCall k | joinLock k | join k g j rest o | joinDel k g j rest | scanned k
  | joinUnlock k again | requeue k | waitCall w | waitNext w g rest | waitLock w g rest
  | waitDel w g rest | waitUnlock w g rest | spin w g j rest | spun w g j rest
  | waitJoin w g j rest o | waitJoined w g j rest | waitReturn w =>
    obtain ⟨_,rfl⟩ := guarded_eq_some.mp hst
    exact h

theorem Ready.outside {ρ υ κ ω : Type} [DecidableEq ρ] {cfg : Config ρ ω} {r : ρ}
    {s : State ρ υ κ ω} (h : Ready cfg r s) : Outside cfg r s := by
  refine ⟨fun g _ => h.object g,fun i _ => h.pointers i,h.runners,fun i _ hg => h.quiet i hg,
    by rw [h.idle]; exact List.nil_sublist _,fun g j _ => (h.threads ⟨r,g,j⟩ rfl).1⟩

theorem Ready.gathering {ρ υ κ ω : Type} [DecidableEq ρ] [DecidableEq ω] {cfg : Config ρ ω} {r : ρ}
    {s : State ρ υ κ ω} (h : Ready cfg r s) : Gathering cfg r s.bars.calls s := by
  have hthreads : ∀ i ∈ cfg.team r, s.worker i = .absent ∧ s.bars.pc i = .idle ∧
      s.bars.sense i = 0 := fun i hi => h.threads i (Config.mem_team.mp hi).1
  refine ⟨fun i hi => Or.inl ⟨rfl,(hthreads i hi).2⟩,fun hb => ?_,
    fun i hi => Or.inl ⟨Or.inl (hthreads i hi).1,rfl⟩,
    fun i hi hne => absurd (hthreads i hi).1 hne,fun g j rest hp => ?_,h.exited,h.joiner,h.waiter⟩
  · rw [h.idle] at hb
    cases hb
  · rw [h.idle] at hp
    cases hp

/-- Whatever the other parties do, every thread of the call passes the number of threads to
the start barrier, and none is in `func` before all are past `init`. -/
theorem startTogether {cfg : Config ρ ω} {r : ρ} {s₀ s : State ρ υ κ ω}
    (hnd : (cfg.groups r).Nodup) (hpos : ∀ g ∈ cfg.groups r, 0 < (cfg.nr g).toNat)
    (hmax : ((cfg.groups r).map fun g => (cfg.nr g).toNat).sum ≤ 2^31-1)
    (hready : Ready cfg r s₀) (h : Reach (step cfg) (QuietInit cfg r) s₀ s) :
    StartTogether cfg r s := by
  have hcard : (cfg.team r).card ≤ 2^31-1 := by rw [Config.card_team hnd]; exact hmax
  have htotal := Config.total_eq hnd (by omega : (cfg.team r).card < 2^64)
  have hinv : Outside cfg r s ∧ (Gathering cfg r s₀.bars.calls s ∨ Started cfg r s) := by
    refine h.invariant (I:=fun s => Outside cfg r s ∧
      (Gathering cfg r s₀.bars.calls s ∨ Started cfg r s))
      ⟨hready.outside,Or.inl hready.gathering⟩ ?_
    intro s a t hi hok hst
    refine ⟨hi.1.step hnd hok.1 hst,hi.2.elim (fun hg => ?_) fun hs => Or.inr (hs.step hi.1 hst)⟩
    exact hg.step hi.1 hpos htotal (by omega) hok hst
  exact hinv.2.elim (fun hg => hg.together htotal) Started.together

def pair₁ : Group := ⟨2,by decide⟩

def pair₂ : Group := ⟨3,by decide⟩

/-- A cluster of two groups of one thread each, run synchronously. -/
def clusterConfig : Config Unit Unit where
  groups := fun _ => [pair₁,pair₂]
  isAsync := fun _ => false
  waits := fun _ => []
  nr := fun _ => 1
  init := fun _ => true
  func := fun _ => true

def clusterRun : List (Act Unit Empty Unit Unit) :=
  [.runCall (),.runBegin (),.prepare () pair₁ [pair₂],.publish () pair₁ [pair₂],
    .create () pair₁ 0 [pair₂],.created () pair₁ 1 [pair₂],
    .threadInit ⟨(),pair₁,0⟩,.initReturn ⟨(),pair₁,0⟩,.testObject ⟨(),pair₁,0⟩,
    .argBarrier ⟨(),pair₁,0⟩ (),.argCount ⟨(),pair₁,0⟩ () ()]

theorem init_ready {ρ υ κ ω : Type} (cfg : Config ρ ω) (r : ρ) : Ready cfg r (init ρ υ κ ω) where
  idle := rfl
  threads _ _ := ⟨rfl,rfl,rfl⟩
  object _ := nofun
  pointers _ := ⟨nofun,nofun⟩
  runners _ _ _ hg := by simp [init,RunPc.ahead] at hg
  quiet _ _ := Or.inl rfl
  exited _ _ := rfl
  joiner _ _ _ := id
  waiter _ _ _ := id

theorem startTogether_cluster : ∃ s, Reach (step clusterConfig) (QuietInit clusterConfig ())
    (init Unit Empty Unit Unit) s ∧ s.worker ⟨(),pair₁,0⟩ = .call () 2 ∧
    StartTogether clusterConfig () s := by
  have hs : ∃ s, exec (step clusterConfig) (init Unit Empty Unit Unit) clusterRun = some s ∧
      s.worker ⟨(),pair₁,0⟩ = .call () 2 := ⟨_,rfl,rfl⟩
  obtain ⟨s,hs,hw⟩ := hs
  have hreach : Reach (step clusterConfig) (QuietInit clusterConfig ())
      (init Unit Empty Unit Unit) s :=
    (reach_of_exec hs).mono fun _ a _ => ⟨by cases a <;> simp [Alone],fun _ u => u.elim⟩
  exact ⟨s,hreach,hw,startTogether (by decide) (by decide) (by decide) (init_ready _ _) hreach⟩

end ThreadGroup
end Mthpc
