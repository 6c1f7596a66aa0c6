import Mthpc.BarrierProgram
import Mthpc.ThreadJoin

/-!
# The steps that a synchronous run has before it

The threads of a call meet at its start barrier, which they use once, as a program of one call,
and go through `func` to their exits. If `init` and `func` return without a barrier of their
own, every step of the call and its threads brings them forward, and where none is left the
call has returned.
-/
namespace Mthpc
namespace ThreadGroup

open StepSystem

variable {ρ υ κ ω : Type} [DecidableEq ρ] [DecidableEq υ] [DecidableEq κ] [DecidableEq ω]

/-- As `Alone`, and neither `init` nor `func` of the groups of `r` uses a barrier. -/
def Plain (cfg : Config ρ ω) (r : ρ) (s : State ρ υ κ ω) (a : Act ρ υ κ ω) : Prop :=
  Alone cfg r s a ∧ ∀ i u b, a = .userBarrier i u b → i ∉ cfg.team r

theorem Plain.quietInit {ρ υ κ ω : Type} [DecidableEq ρ] {cfg : Config ρ ω} {r : ρ}
    {s : State ρ υ κ ω} {a : Act ρ υ κ ω} (h : Plain cfg r s a) : QuietInit cfg r s a :=
  ⟨h.1,fun i u b he hi => absurd hi (h.2 i u b he)⟩

/-- A step of the call or of one of its threads, loads of the old flag apart. -/
def Forward (cfg : Config ρ ω) (r : ρ) (s : State ρ υ κ ω) (a : Act ρ υ κ ω) : Prop :=
  (a.caller = some r ∨ ∃ i ∈ cfg.team r, a.worker = some i) ∧ Plain cfg r s a ∧
    ∀ i o j c, a = .barrier i o (.load j c) → (s.bars.bar c).flag = s.bars.sense j

section Unmade

variable {cfg : Config ρ ω} {r : ρ} {s t : State ρ υ κ ω} {a : Act ρ υ κ ω}

def Config.without (cfg : Config ρ ω) (r : ρ) : Config ρ ω :=
  { cfg with groups := Function.update cfg.groups r [] }

theorem step_without (ha : a.caller ≠ some r) : step (cfg.without r) s a = step cfg s a := by
  have hgroups : ∀ q, q ≠ r → (cfg.without r).groups q = cfg.groups q := fun q hq =>
    Function.update_of_ne hq _ _
  cases a with
  | runBegin q =>
    have hq : q ≠ r := fun he => ha (by rw [he]; rfl)
    simp only [step,Config.total,hgroups q hq]
    rfl
  | prepared q =>
    have hq : q ≠ r := fun he => ha (by rw [he]; rfl)
    simp only [step,hgroups q hq]
    rfl
  | _ => rfl

theorem called_of_step (ha : a.caller = some r) (hst : step cfg s a = some t) :
    t.runner r ≠ .idle := by
  cases a <;> simp only [Act.caller,Option.some.injEq,reduceCtorEq] at ha
  all_goals
    subst ha
    obtain ⟨_,rfl⟩ := guarded_eq_some.mp hst
    simp only [Function.update_self]
    first | (split <;> simp) | simp

theorem bars_step (hst : step cfg s a = some t) :
    t.bars = s.bars ∨
    (∃ q, a = .runBegin q ∧ t.bars = { s.bars with
      bar := Function.update s.bars.bar (.inl q) Barrier.barrierInit }) ∨
    ∃ e, Barrier.step s.bars e = some t.bars ∧ s.worker e.thread ≠ .absent ∧
      ((∃ o n, a = .callBarrier e.thread o n ∧ e = .enter e.thread (.inl o) n ∧
          s.worker e.thread = .call o n) ∨
        (∃ o, a = .barrier e.thread o e ∧ s.worker e.thread = .inBarrier o ∧ e.on = .inl o ∧
          e.isEnter = false) ∨
        ∃ u, a = .userBarrier e.thread u e ∧
          (s.worker e.thread = .init ∨ s.worker e.thread = .func) ∧ e.on = .inr u) := by
  cases a with
  | runBegin q =>
    obtain ⟨_,rfl⟩ := guarded_eq_some.mp hst
    exact .inr (.inl ⟨q,rfl,rfl⟩)
  | callBarrier i o n =>
    simp only [step] at hst
    split at hst
    next hpc =>
      obtain ⟨b,hb,rfl⟩ := Option.map_eq_some_iff.mp hst
      exact .inr (.inr ⟨_,hb,by simp [Barrier.Act.thread,hpc],.inl ⟨o,n,rfl,rfl,hpc⟩⟩)
    next => cases hst
  | barrier i o e =>
    simp only [step] at hst
    split at hst
    next hpc =>
      obtain ⟨hpc,rfl,hon,hne⟩ := hpc
      obtain ⟨b,hb,rfl⟩ := Option.map_eq_some_iff.mp hst
      exact .inr (.inr ⟨e,hb,by simp [hpc],.inr (.inl ⟨o,rfl,hpc,hon,hne⟩)⟩)
    next => cases hst
  | userBarrier i u e =>
    simp only [step] at hst
    split at hst
    next hpc =>
      obtain ⟨hpc,rfl,hon⟩ := hpc
      obtain ⟨b,hb,rfl⟩ := Option.map_eq_some_iff.mp hst
      have hne : s.worker e.thread ≠ .absent := by
        rcases hpc with hpc | hpc <;> simp [hpc]
      exact .inr (.inr ⟨e,hb,hne,.inr (.inr ⟨u,rfl,hpc,hon⟩)⟩)
    next => cases hst
  | joinPut k g p rest | waitPut k g p rest =>
    simp only [step] at hst
    split at hst
    next =>
      obtain ⟨⟨u,q⟩,hput,rfl⟩ := Option.map_eq_some_iff.mp hst
      obtain ⟨_,_,_,rfl,_⟩ := put_eq hput
      exact .inl rfl
    next => cases hst
  | scan k g rest =>
    obtain ⟨_,ht⟩ := guarded_eq_some.mp hst
    split at ht <;> subst ht <;> exact .inl rfl
  | _ =>
    obtain ⟨_,rfl⟩ := guarded_eq_some.mp hst
    exact .inl rfl

/-- What is so of the barriers in every run. A thread that has not been created has called none. -/
structure BarsInv (s : State ρ υ κ ω) : Prop where
  sense : ∀ i, s.bars.sense i = Barrier.senseAfter (s.bars.calls i)
  locks : Barrier.LocksKept s.bars
  absent : ∀ i, s.worker i = .absent → s.bars.pc i = .idle ∧ s.bars.calls i = 0

theorem absent_of_step {i : Thread ρ} (hst : step cfg s a = some t) (hi : t.worker i = .absent) :
    s.worker i = .absent := by
  rcases step_moves hst with ⟨q,hc,hm⟩ | ⟨j,hm⟩ | hm
  · by_cases hq : i.call = q
    · cases a with
      | create p g j rest =>
        obtain ⟨_,rfl⟩ := guarded_eq_some.mp hst
        by_cases he : i = ⟨p,g,j⟩
        · subst he
          simp at hi
        · simpa only [Function.update_of_ne he] using hi
      | runCall | allocFail | runBegin | prepare | prepared | runLock | addTail | runUnlock
      | publish | created | runJoin | runJoined | runReturn | queueWork =>
        obtain ⟨_,rfl⟩ := guarded_eq_some.mp hst
        exact hi
      | _ => cases hc
    · rwa [← hm.workers i hq]
  · by_cases hij : i = j
    · exact absurd (hij ▸ hi) hm.present
    · rwa [← hm.workers i hij]
  · rwa [← hm.worker]

theorem BarsInv.step (h : BarsInv s) (hst : ThreadGroup.step cfg s a = some t) : BarsInv t := by
  rcases bars_step hst with hb | ⟨q,_,hb⟩ | ⟨e,hb,hne,_⟩
  · refine ⟨by rw [hb]; exact h.sense,by rw [hb]; exact h.locks,fun i hi => ?_⟩
    rw [hb]
    exact h.absent i (absent_of_step hst hi)
  · refine ⟨by rw [hb]; exact h.sense,fun c i hl => ?_,fun i hi => ?_⟩
    · rw [hb] at hl ⊢
      by_cases hc : c = .inl q
      · subst hc
        simp [Barrier.barrierInit] at hl
      · simp only [Function.update_of_ne hc] at hl
        exact h.locks c i hl
    · rw [hb]
      exact h.absent i (absent_of_step hst hi)
  · refine ⟨Barrier.sense_step h.sense hb,h.locks.step hb,fun i hi => ?_⟩
    have hs := absent_of_step hst hi
    have hie : i ≠ e.thread := by
      intro hie
      exact hne (hie ▸ hs)
    obtain ⟨hp,hc,_⟩ := Barrier.step_other hb hie
    rw [hp,hc]
    exact h.absent i hs

theorem BarsInv.init {ρ υ κ ω : Type} : BarsInv (init ρ υ κ ω) where
  sense _ := rfl
  locks _ _ hl := by cases hl
  absent _ _ := ⟨rfl,rfl⟩

theorem bar_of_unmade (h : Reach (step cfg) Anything (init ρ υ κ ω) s) (hr : s.runner r = .idle) :
    s.bars.bar (.inl r) = Barrier.barrierInit := by
  have hinv : s.runner r = .idle → Outside (cfg.without r) r s ∧
      s.bars.bar (.inl r) = Barrier.barrierInit := by
    refine h.invariant (I:=fun s => s.runner r = .idle → Outside (cfg.without r) r s ∧
      s.bars.bar (.inl r) = Barrier.barrierInit) (fun _ => ⟨(init_ready _ r).outside,rfl⟩) ?_
    intro s a t hi _ hst ht
    have hc : a.caller ≠ some r := fun hc => called_of_step hc hst ht
    have hs : s.runner r = .idle := by
      rcases step_moves hst with ⟨q,hq,hm⟩ | ⟨_,hm⟩ | hm
      · rwa [← hm.runners r fun he => hc (he ▸ hq)]
      · rwa [← hm.runner]
      · rwa [← hm.runner]
    obtain ⟨ho,hbar⟩ := hi hs
    have hgroups : (cfg.without r).groups r = [] := Function.update_self _ _ _
    have halone : Alone (cfg.without r) r s a := by
      cases a <;> simp [Alone,hgroups]
    refine ⟨ho.step (by simp [hgroups]) halone ((step_without hc).trans hst),?_⟩
    have hteam : ∀ i, i ∉ (cfg.without r).team r := by
      intro i hi
      rw [Config.mem_team,hgroups] at hi
      exact absurd hi.2.1 List.not_mem_nil
    rcases bars_step hst with hb | ⟨q,rfl,hb⟩ | ⟨e,hb,_,hcase⟩
    · rw [hb,hbar]
    · have hq : r ≠ q := fun he => hc (by rw [he]; rfl)
      rw [hb]
      simpa [hq] using hbar
    · have hon : .inl r ≠ e.on := by
        have hobj := (ho.pointers e.thread (hteam _)).1
        rcases hcase with ⟨o,n,_,he,hw⟩ | ⟨o,_,hw,he,_⟩ | ⟨u,_,_,he⟩
        · rw [he]
          rw [hw] at hobj
          simpa [WorkerPc.object,Barrier.Act.on,eq_comm] using hobj
        · rw [he]
          rw [hw] at hobj
          simpa [WorkerPc.object,eq_comm] using hobj
        · rw [he]
          simp
      rw [Barrier.step_bar hb hon,hbar]
  exact (hinv hr).2

end Unmade

section Program

variable {cfg : Config ρ ω} {r : ρ} {calls : Thread ρ → ℕ} {s t : State ρ υ κ ω}
  {a : Act ρ υ κ ω}

abbrev StartProgram (cfg : Config ρ ω) (r : ρ) (b : Barrier.State (ρ ⊕ υ) (Thread ρ)) : Prop :=
  Barrier.ProgramInv (cfg.team r) (fun _ => .inl r) 1 (cfg.total r) b

theorem fits_start {ρ υ : Type} {r : ρ} (k : ℕ) (hk : k < 1) :
    Barrier.Fits (fun _ => (.inl r : ρ ⊕ υ)) k := by
  obtain rfl : k = 0 := by omega
  exact ⟨fun _ h => absurd h (Nat.not_lt_zero _),fun _ => by decide⟩

theorem StartProgram.frame {ρ υ ω : Type} [DecidableEq ρ] [DecidableEq υ] {cfg : Config ρ ω} {r : ρ}
    {b b' : Barrier.State (ρ ⊕ υ) (Thread ρ)} (h : StartProgram cfg r b)
    (hp : b'.pc = b.pc) (hc : b'.calls = b.calls) (hs : b'.sense = b.sense)
    (hl : Barrier.LocksKept b') (hflag : (b'.bar (.inl r)).flag = (b.bar (.inl r)).flag)
    (hcount : (b'.bar (.inl r)).count = (b.bar (.inl r)).count) : StartProgram cfg r b' := by
  refine ⟨by rw [hs,hc]; exact h.sense,hl,by rw [hp]; exact h.outside,?_⟩
  have hother : ∀ i, b'.pc i = b.pc i ∧ b'.calls i = b.calls i := fun i => by rw [hp,hc]; simp
  rcases h.turn with ⟨k,hk,ho⟩ | ⟨k,hk,j,hc⟩
  · obtain ⟨i,hi⟩ : (cfg.team r).Nonempty :=
      Finset.card_pos.mp ((Nat.zero_le _).trans_lt ho.missing)
    refine .inl ⟨k,hk,ho.frame (j:=i) (fun _ => ⟨hflag,hcount⟩) (fun j _ => hother j) fun hi => ?_⟩
    obtain ⟨hpi,hci⟩ := hother i
    simpa only [Barrier.ArrivedIn,Barrier.Leaving,Barrier.Arriving,hpi,hci,iff_self,true_and]
      using ho.members i hi
  · refine .inr ⟨k,hk,j,hc.frame (j:=j) (fun _ => ⟨hflag,hcount⟩) (fun i _ => hother i)
      (fun _ => ?_) fun _ hne => absurd rfl hne⟩
    obtain ⟨hpj,hcj⟩ := hother j
    rw [hpj,hcj]
    exact hc.last

theorem StartProgram.untouched {ρ υ ω : Type} [DecidableEq ρ] [DecidableEq υ] {cfg : Config ρ ω}
    {r : ρ} {b : Barrier.State (ρ ⊕ υ) (Thread ρ)} (h : StartProgram cfg r b)
    (hi : ∀ i ∈ cfg.team r, b.pc i = .idle ∧ b.calls i = 0) (hne : (cfg.team r).Nonempty) :
    (b.bar (.inl r)).flag = 0 ∧ (b.bar (.inl r)).count = 0 := by
  obtain ⟨i,him⟩ := hne
  obtain ⟨hpi,hci⟩ := hi i him
  rcases h.turn with ⟨k,_,ho⟩ | ⟨k,_,j,hc⟩
  · have hk : k = 0 := by
      rcases ho.members i him with ⟨hk,_⟩ | ⟨_,⟨_,hp⟩ | ⟨_,hp⟩⟩
      · exact hk.symm.trans hci
      · rw [hpi] at hp
        rcases hp with hp | hp <;> cases hp
      · rw [hpi] at hp
        rcases hp with hp | hp <;> cases hp
    subst hk
    have hnone : (cfg.team r).filter (Barrier.ArrivedIn (.inl r) 0 b) = ∅ := by
      refine Finset.filter_false_of_mem fun j hj harr => ?_
      have hp := harr.2
      rw [(hi j hj).1] at hp
      rcases hp with hp | hp <;> cases hp
    have hcount := ho.counts 0
    rw [if_pos rfl,hnone] at hcount
    exact ⟨ho.flags 0,hcount⟩
  · have hp := hc.last.2
    rw [(hi j hc.mem).1] at hp
    rcases hp with hp | hp <;> cases hp

theorem StartProgram.step (h : StartProgram cfg r s.bars) (hb : BarsInv s) (ho : Outside cfg r s)
    (hg : Gathering cfg r calls s ∨ Started cfg r s) (hcalls : ∀ i ∈ cfg.team r, calls i = 0)
    (htotal : (cfg.total r).toNat = (cfg.team r).card) (hmax : (cfg.team r).card < 2^31)
    (hok : Plain cfg r s a) (hne : (cfg.team r).Nonempty)
    (hst : ThreadGroup.step cfg s a = some t) : StartProgram cfg r t.bars := by
  have hlocks := (hb.step hst).locks
  rcases bars_step hst with he | ⟨q,rfl,he⟩ | ⟨e,he,_,hcase⟩
  · rwa [he]
  · rw [he] at hlocks ⊢
    by_cases hq : r = q
    · subst hq
      obtain ⟨hpc,_⟩ := guarded_eq_some.mp hst
      have habsent : ∀ i ∈ cfg.team r, s.worker i = .absent := by
        intro i hi
        obtain ⟨c,g,j⟩ := i
        obtain ⟨rfl,_⟩ := Config.mem_team.mp hi
        exact ho.uncreated g j (by rw [hpc]; trivial)
      obtain ⟨hf,hc⟩ := h.untouched (fun i hi => hb.absent i (habsent i hi)) hne
      exact h.frame rfl rfl rfl hlocks (by simp [Barrier.barrierInit,hf])
        (by simp [Barrier.barrierInit,hc])
    · exact h.frame rfl rfl rfl hlocks (by simp [hq]) (by simp [hq])
  · refine Barrier.ProgramInv.step h fits_start htotal hmax ?_ he
    rcases hcase with ⟨o,n,_,hen,hw⟩ | ⟨o,_,_,_,hen⟩ | ⟨u,ha,_,hon⟩
    · rw [hen]
      by_cases hi : e.thread ∈ cfg.team r
      · simp only [Barrier.Follows,hi,if_true]
        rcases hg with hg | hg
        · obtain ⟨hearly,hc⟩ := (hg.threads _ hi).resolve_right fun hh => by simp [hw] at hh
          obtain ⟨rfl,rfl⟩ : o = r ∧ n = cfg.total r := by simpa [hw,WorkerPc.early] using hearly
          exact ⟨by rw [hc,hcalls _ hi]; exact Nat.one_pos,rfl,rfl⟩
        · have hx := hg _ hi
          rw [hw] at hx
          cases hx
      · simp only [Barrier.Follows,hi,if_false]
        have hobj := (ho.pointers _ hi).1
        rw [hw] at hobj
        intro _
        simpa [WorkerPc.object] using hobj
    · cases e with
      | enter => cases hen
      | lock | update | unlock | store | load => trivial
    · have hi := hok.2 _ u e ha
      cases e with
      | enter j c m =>
        simp only [Barrier.Act.thread] at hi
        simp only [Barrier.Act.on] at hon
        simp [Barrier.Follows,hi,hon]
      | _ => trivial

theorem BarsInv.startProgram {ρ υ κ ω : Type} [DecidableEq ρ] [DecidableEq υ] [DecidableEq ω]
    {cfg : Config ρ ω} {r : ρ} {s : State ρ υ κ ω} (hb : BarsInv s) (hr : Ready cfg r s)
    (hbar : s.bars.bar (.inl r) = Barrier.barrierInit) (hne : (cfg.team r).Nonempty) :
    StartProgram cfg r s.bars := by
  have hteam : ∀ i ∈ cfg.team r, s.bars.pc i = .idle ∧ s.bars.calls i = 0 := fun i hi =>
    hb.absent i (hr.threads i (Config.mem_team.mp hi).1).1
  have hnone : (cfg.team r).filter (Barrier.ArrivedIn (.inl r) 0 s.bars) = ∅ := by
    refine Finset.filter_false_of_mem fun i hi harr => ?_
    have hc := harr.1
    rw [(hteam i hi).2] at hc
    cases hc
  refine ⟨hb.sense,hb.locks,fun i _ _ => (hr.pointers i).2,.inl ⟨0,Nat.zero_le _,?_⟩⟩
  refine ⟨fun _ => by rw [hbar]; rfl,fun _ => ?_,?_,fun i hi => .inl ⟨(hteam i hi).2,
    .inl (hteam i hi).1⟩⟩
  · rw [hbar,hnone,if_pos rfl]
    rfl
  · rw [hnone]
    exact Finset.card_pos.mpr hne

end Program

section Threads

variable {cfg : Config ρ ω} {s t : State ρ υ κ ω} {a : Act ρ υ κ ω} {i : Thread ρ}

theorem thread_step (hw : a.worker = some i) (hst : step cfg s a = some t) :
    t.runner = s.runner ∧ ∀ j, j ≠ i → t.worker j = s.worker j ∧ t.bars.pc j = s.bars.pc j := by
  cases a <;> simp only [Act.worker,Option.some.injEq,reduceCtorEq] at hw
  all_goals subst hw
  case callBarrier i o n =>
    simp only [step] at hst
    split at hst
    next =>
      obtain ⟨b,hb,rfl⟩ := Option.map_eq_some_iff.mp hst
      exact ⟨rfl,fun j hj => ⟨Function.update_of_ne hj _ _,(Barrier.step_other hb hj).1⟩⟩
    next => cases hst
  case barrier i o e | userBarrier i o e =>
    simp only [step] at hst
    split at hst
    next hpc =>
      obtain ⟨_,rfl,_⟩ := hpc
      obtain ⟨b,hb,rfl⟩ := Option.map_eq_some_iff.mp hst
      exact ⟨rfl,fun j hj => ⟨rfl,(Barrier.step_other hb hj).1⟩⟩
    next => cases hst
  all_goals
    obtain ⟨_,rfl⟩ := guarded_eq_some.mp hst
    exact ⟨rfl,fun j hj => ⟨Function.update_of_ne hj _ _,rfl⟩⟩

theorem entered_step (hcalls : (s.worker i).entered = true → 0 < s.bars.calls i)
    (hobj : s.worker i = .test → (s.barrierObject i.group).isSome)
    (hst : step cfg s a = some t) (ht : (t.worker i).entered = true) : 0 < t.bars.calls i := by
  have hmove : ∀ {j : Thread ρ} {pc : WorkerPc ρ} {w : Thread ρ → WorkerPc ρ}, s.worker = w →
      (Function.update w j pc i).entered = true →
      (i = j → pc.entered = true → (s.worker j).entered = true) → 0 < s.bars.calls i := by
    intro j pc w hw he hp
    subst hw
    by_cases hij : i = j
    · subst hij
      rw [Function.update_self] at he
      exact hcalls (hp rfl he)
    · rw [Function.update_of_ne hij] at he
      exact hcalls he
  have hle : s.bars.calls i ≤ t.bars.calls i := by
    rcases bars_step hst with hb | ⟨_,_,hb⟩ | ⟨e,hb,_⟩
    · rw [hb]
    · rw [hb]
    · by_cases hie : i = e.thread
      · cases e with
        | enter j c m =>
          obtain ⟨_,hb⟩ := guarded_eq_some.mp hb
          rw [← hb,hie]
          simp [Barrier.Act.thread]
        | lock | update | unlock | store | load => rw [Barrier.step_calls hb rfl]
      · rw [(Barrier.step_other hb hie).2.1]
  cases a with
  | callBarrier j o n =>
    simp only [step] at hst
    split at hst
    next =>
      obtain ⟨b,hb,rfl⟩ := Option.map_eq_some_iff.mp hst
      obtain ⟨_,rfl⟩ := guarded_eq_some.mp hb
      by_cases hij : i = j
      · simp [hij]
      · simp only [Function.update_of_ne hij] at ht ⊢
        exact hcalls ht
    next => cases hst
  | barrier j o e | userBarrier j o e =>
    simp only [step] at hst
    split at hst
    next =>
      obtain ⟨_,_,rfl⟩ := Option.map_eq_some_iff.mp hst
      exact (hcalls ht).trans_le hle
    next => cases hst
  | testObject j =>
    obtain ⟨hpc,rfl⟩ := guarded_eq_some.mp hst
    refine hmove rfl ht fun hij he => ?_
    subst hij
    rw [if_pos (hobj hpc)] at he
    cases he
  | threadInit j =>
    obtain ⟨_,rfl⟩ := guarded_eq_some.mp hst
    refine hmove rfl ht fun _ he => ?_
    split at he <;> cases he
  | create q g j rest | initReturn j =>
    obtain ⟨_,rfl⟩ := guarded_eq_some.mp hst
    exact hmove rfl ht fun _ he => by cases he
  | argBarrier j o | argCount j o o' =>
    obtain ⟨_,rfl⟩ := guarded_eq_some.mp hst
    exact hmove rfl ht fun _ he => by cases he
  | callFunc j | cleanup j | pthreadExit j =>
    obtain ⟨hpc,rfl⟩ := guarded_eq_some.mp hst
    exact hmove rfl ht fun _ _ => by rw [hpc]; rfl
  | barrierReturn j o | funcReturn j =>
    obtain ⟨⟨hpc,_⟩,rfl⟩ := guarded_eq_some.mp hst
    exact hmove rfl ht fun _ _ => by rw [hpc]; rfl
  | joinPut k g p rest | waitPut k g p rest =>
    simp only [step] at hst
    split at hst
    next =>
      obtain ⟨⟨u,q⟩,hput,rfl⟩ := Option.map_eq_some_iff.mp hst
      obtain ⟨_,_,_,rfl,_⟩ := put_eq hput
      exact hcalls ht
    next => cases hst
  | scan k g rest =>
    obtain ⟨_,hs⟩ := guarded_eq_some.mp hst
    split at hs <;> subst hs <;> exact hcalls ht
  | _ =>
    obtain ⟨_,rfl⟩ := guarded_eq_some.mp hst
    exact hcalls ht

end Threads

section Returns

variable {cfg : Config ρ ω} {r : ρ} {before : Thread ρ → ℕ} {n : ℕ} {calls : Thread ρ → ℕ}
  {s s₀ t : State ρ υ κ ω} {a : Act ρ υ κ ω}

structure ReturnInv (cfg : Config ρ ω) (r : ρ) (before : Thread ρ → ℕ) (n : ℕ)
    (calls : Thread ρ → ℕ) (s : State ρ υ κ ω) : Prop where
  join : JoinInv cfg r before n s
  start : Gathering cfg r calls s ∨ Started cfg r s
  bars : BarsInv s
  program : (cfg.team r).Nonempty → StartProgram cfg r s.bars
  entered : ∀ i ∈ cfg.team r, (s.worker i).entered = true → 0 < s.bars.calls i
  plain : ∀ i ∈ cfg.team r, ∀ u, (s.bars.pc i).on ≠ some (.inr u)

theorem plain_step {i : Thread ρ} (h : ∀ u, (s.bars.pc i).on ≠ some (.inr u))
    (hok : Plain cfg r s a) (hi : i ∈ cfg.team r)
    (hst : ThreadGroup.step cfg s a = some t) (u : υ) : (t.bars.pc i).on ≠ some (.inr u) := by
  rcases bars_step hst with hb | ⟨_,_,hb⟩ | ⟨e,hb,_,hcase⟩
  · rw [hb]
    exact h u
  · rw [hb]
    exact h u
  · by_cases hie : i = e.thread
    · rcases Barrier.step_on hb with hon | hon
      · rw [hie,hon]
        simp
      · rw [hie,hon]
        rcases hcase with ⟨o,m,_,he,_⟩ | ⟨o,_,_,he,_⟩ | ⟨v,ha,_,_⟩
        · rw [he]
          simp [Barrier.Act.on]
        · rw [he]
          simp
        · exact absurd (hie ▸ hi) (hok.2 _ v e ha)
    · rw [(Barrier.step_other hb hie).1]
      exact h u

theorem ReturnInv.step (h : ReturnInv cfg r before n calls s) (hnd : (cfg.groups r).Nodup)
    (hpos : ∀ g ∈ cfg.groups r, 0 < (cfg.nr g).toNat) (hsync : cfg.isAsync r = false)
    (htotal : (cfg.total r).toNat = (cfg.team r).card) (hmax : (cfg.team r).card < 2^31)
    (hcalls : ∀ i ∈ cfg.team r, calls i = 0) (hok : Plain cfg r s a)
    (hst : ThreadGroup.step cfg s a = some t) : ReturnInv cfg r before n calls t where
  join := h.join.step hnd hpos hsync hok.1 hst
  start := by
    rcases h.start with hg | hg
    · exact hg.step h.join.outside hpos htotal hmax.le hok.quietInit hst
    · exact .inr (hg.step h.join.outside hst)
  bars := h.bars.step hst
  program hne := (h.program hne).step h.bars h.join.outside h.start hcalls htotal hmax hok hne hst
  entered i hi he := by
    refine entered_step (h.entered i hi) (fun hpc => ?_) hst he
    rcases h.start with hg | hg
    · rw [hg.object i hi (by simp [hpc])]
      rfl
    · have hx := hg i hi
      rw [hpc] at hx
      cases hx
  plain i hi := plain_step (h.plain i hi) hok hi hst

theorem Ready.returnInv {ρ υ κ ω : Type} [DecidableEq ρ] [DecidableEq υ] [DecidableEq ω]
    {cfg : Config ρ ω} {r : ρ} {s : State ρ υ κ ω} (h : Ready cfg r s) (hu : Undisturbed cfg r s)
    (hb : BarsInv s) (hbar : s.bars.bar (.inl r) = Barrier.barrierInit) :
    ReturnInv cfg r s.joined (s.freed r) s.bars.calls s where
  join := h.joinInv hu
  start := .inl h.gathering
  bars := hb
  program := hb.startProgram h hbar
  entered i hi he := by
    rw [(h.threads i (Config.mem_team.mp hi).1).1] at he
    cases he
  plain i hi u := by
    rw [(h.threads i (Config.mem_team.mp hi).1).2.1]
    simp [Barrier.CallPc.on]

end Returns

section Cost

variable {cfg : Config ρ ω} {r : ρ} {before : Thread ρ → ℕ} {n : ℕ} {calls : Thread ρ → ℕ}
  {s t : State ρ υ κ ω} {a : Act ρ υ κ ω} {i : Thread ρ}

/-- The steps that a thread has before it; the barrier has five instructions of its own. -/
def WorkerPc.cost : WorkerPc ρ → ℕ
  | .absent => 16
  | .start => 15
  | .init => 14
  | .test => 13
  | .argBarrier => 12
  | .argCount _ => 11
  | .call _ _ => 10
  | .inBarrier _ => 5
  | .ready => 4
  | .func => 3
  | .exit => 2
  | .exiting => 1
  | .exited => 0

def startCost (nr : Group → ℕ) (groups : List Group) : ℕ := (groups.map fun g => nr g+3).sum

def joinCost (nr : Group → ℕ) (groups : List Group) : ℕ := (groups.map fun g => nr g+1).sum

def RunPc.cost (nr : Group → ℕ) (groups : List Group) : RunPc → ℕ
  | .begin => startCost nr groups+joinCost nr groups+3
  | .prepare rest => startCost nr rest+joinCost nr groups+2
  | .publish g rest => nr g+2+startCost nr rest+joinCost nr groups+2
  | .create g j rest => nr g-j+1+startCost nr rest+joinCost nr groups+2
  | .join [] _ => 1
  | .join (g::rest) j => nr g-j+1+joinCost nr rest+1
  | _ => 0

/-- The steps of thread `i`, the barrier included. -/
def State.left (s : State ρ υ κ ω) (i : Thread ρ) : ℕ := (s.worker i).cost+(s.bars.pc i).left

def cost (cfg : Config ρ ω) (r : ρ) (s : State ρ υ κ ω) : ℕ :=
  (s.runner r).cost (fun g => (cfg.nr g).toNat) (cfg.groups r)+∑ i ∈ cfg.team r, s.left i

theorem joinCost_next (nr : Group → ℕ) (rest : List Group) :
    (RunPc.join rest 0).cost nr [] = joinCost nr rest+1 := by
  cases rest with
  | nil => rfl
  | cons g rest => simp [RunPc.cost,joinCost]

theorem RunPc.cost_join (nr : Group → ℕ) (groups todo : List Group) (j : ℕ) :
    (RunPc.join todo j).cost nr groups = (RunPc.join todo j).cost nr [] := by
  cases todo <;> rfl

theorem runCost_step (hpath : (s.runner r).onPath (cfg.groups r)) (hidle : s.runner r ≠ .idle)
    (hsync : cfg.isAsync r = false) (hc : a.caller = some r) (hst : step cfg s a = some t) :
    (t.runner r).cost (fun g => (cfg.nr g).toNat) (cfg.groups r) <
      (s.runner r).cost (fun g => (cfg.nr g).toNat) (cfg.groups r) := by
  cases a <;> simp only [Act.caller,Option.some.injEq,reduceCtorEq] at hc
  all_goals subst hc
  case runCall q =>
    obtain ⟨hpc,_⟩ := guarded_eq_some.mp hst
    exact absurd hpc hidle
  case allocFail q =>
    obtain ⟨⟨_,ha⟩,_⟩ := guarded_eq_some.mp hst
    rw [hsync] at ha
    cases ha
  case runBegin q =>
    obtain ⟨hpc,rfl⟩ := guarded_eq_some.mp hst
    simp [hpc,RunPc.cost]
  case prepare q g rest =>
    obtain ⟨hpc,rfl⟩ := guarded_eq_some.mp hst
    simp only [hpc,hsync,Bool.false_eq_true,if_false,Function.update_self,RunPc.cost,startCost,
      List.map_cons,List.sum_cons]
    omega
  case prepared q =>
    obtain ⟨hpc,rfl⟩ := guarded_eq_some.mp hst
    simp only [hpc,hsync,Bool.false_eq_true,if_false,Function.update_self]
    rw [RunPc.cost_join,joinCost_next]
    simp [RunPc.cost]
  case runLock q g rest =>
    obtain ⟨⟨hpc,_⟩,_⟩ := guarded_eq_some.mp hst
    rw [hpc] at hpath
    exact hpath.elim
  case addTail q g rest | runUnlock q g rest | queueWork q =>
    obtain ⟨hpc,_⟩ := guarded_eq_some.mp hst
    rw [hpc] at hpath
    exact hpath.elim
  case publish q g rest =>
    obtain ⟨hpc,rfl⟩ := guarded_eq_some.mp hst
    simp only [hpc,Function.update_self,RunPc.cost]
    omega
  case create q g j rest =>
    obtain ⟨⟨hpc,hj⟩,rfl⟩ := guarded_eq_some.mp hst
    simp only [hpc,Function.update_self,RunPc.cost]
    omega
  case created q g j rest =>
    obtain ⟨⟨hpc,hj⟩,rfl⟩ := guarded_eq_some.mp hst
    simp only [hpc,Function.update_self,RunPc.cost]
    omega
  case runJoin q g rest j o =>
    obtain ⟨⟨hpc,hj,_⟩,rfl⟩ := guarded_eq_some.mp hst
    simp only [hpc,Function.update_self,RunPc.cost]
    omega
  case runJoined q g rest j =>
    obtain ⟨⟨hpc,hj⟩,rfl⟩ := guarded_eq_some.mp hst
    simp only [hpc,Function.update_self]
    rw [RunPc.cost_join,joinCost_next]
    simp only [RunPc.cost]
    omega
  case runReturn q j =>
    obtain ⟨hpc,rfl⟩ := guarded_eq_some.mp hst
    simp [hpc,RunPc.cost]

theorem caller_left (ho : Outside cfg r s) (hc : a.caller = some r) (hst : step cfg s a = some t)
    (i : Thread ρ) : t.left i ≤ s.left i := by
  cases a <;> simp only [Act.caller,Option.some.injEq,reduceCtorEq] at hc
  all_goals subst hc
  case create q g j rest =>
    obtain ⟨⟨hpc,_⟩,rfl⟩ := guarded_eq_some.mp hst
    by_cases hi : i = ⟨q,g,j⟩
    · have ha := ho.uncreated g j (by rw [hpc]; exact .inl ⟨rfl,le_rfl⟩)
      subst hi
      simp [State.left,ha,WorkerPc.cost]
    · simp [State.left,hi]
  all_goals
    obtain ⟨_,rfl⟩ := guarded_eq_some.mp hst
    exact le_rfl

theorem left_step (hw : a.worker = some i) (huser : ∀ u e, a ≠ .userBarrier i u e)
    (hload : ∀ o j c, a = .barrier i o (.load j c) → (s.bars.bar c).flag = s.bars.sense j)
    (hst : step cfg s a = some t) : t.left i < s.left i := by
  cases a <;> simp only [Act.worker,Option.some.injEq,reduceCtorEq] at hw
  all_goals subst hw
  case callBarrier i o n =>
    simp only [step] at hst
    split at hst
    next hpc =>
      obtain ⟨b,hb,rfl⟩ := Option.map_eq_some_iff.mp hst
      obtain ⟨_,rfl⟩ := guarded_eq_some.mp hb
      simp only [State.left,Function.update_self,hpc,WorkerPc.cost,Barrier.CallPc.left]
      omega
    next => cases hst
  case barrier i o e =>
    simp only [step] at hst
    split at hst
    next hpc =>
      obtain ⟨_,rfl,_,hne⟩ := hpc
      obtain ⟨b,hb,rfl⟩ := Option.map_eq_some_iff.mp hst
      have hlt := Barrier.left_step hne (fun j c he => hload o j c (by rw [he])) hb
      exact Nat.add_lt_add_left hlt _
    next => cases hst
  case userBarrier i u e => exact absurd rfl (huser u e)
  case threadInit i | testObject i | callFunc i =>
    obtain ⟨hpc,rfl⟩ := guarded_eq_some.mp hst
    simp only [State.left,Function.update_self,hpc]
    split <;> simp [WorkerPc.cost]
  case cleanup i | pthreadExit i =>
    obtain ⟨hpc,rfl⟩ := guarded_eq_some.mp hst
    simp [State.left,hpc,WorkerPc.cost]
  case initReturn i | argBarrier i o | argCount i o o' | barrierReturn i o | funcReturn i =>
    obtain ⟨⟨hpc,_⟩,rfl⟩ := guarded_eq_some.mp hst
    simp [State.left,hpc,WorkerPc.cost]

theorem ReturnInv.cost_step (h : ReturnInv cfg r before n calls s) (hidle : s.runner r ≠ .idle)
    (hsync : cfg.isAsync r = false) (hok : Forward cfg r s a)
    (hst : ThreadGroup.step cfg s a = some t) : cost cfg r t < cost cfg r s := by
  obtain ⟨hc | ⟨i,hi,hw⟩,⟨_,huser⟩,hload⟩ := hok
  · have hrun := runCost_step h.join.course.path hidle hsync hc hst
    have hsum : ∑ i ∈ cfg.team r, t.left i ≤ ∑ i ∈ cfg.team r, s.left i :=
      Finset.sum_le_sum fun i _ => caller_left h.join.outside hc hst i
    exact Nat.add_lt_add_of_lt_of_le hrun hsum
  · obtain ⟨hr,hother⟩ := thread_step hw hst
    have hsum : ∑ i ∈ cfg.team r, t.left i < ∑ i ∈ cfg.team r, s.left i := by
      refine sum_lt_of_one i hi ?_ fun j _ hj => ?_
      · exact left_step hw (fun u e he => huser i u e he hi)
          (fun o j c he => hload i o j c he) hst
      · rw [State.left,State.left,(hother j hj).1,(hother j hj).2]
    rw [cost,cost,hr]
    exact Nat.add_lt_add_left hsum _

end Cost

section Stop

variable {cfg : Config ρ ω} {r : ρ} {before : Thread ρ → ℕ} {n : ℕ} {calls : Thread ρ → ℕ}
  {s s₀ t : State ρ υ κ ω} {a : Act ρ υ κ ω} {i : Thread ρ}

theorem on_of_step {b b' : Barrier.State (ρ ⊕ υ) (Thread ρ)} {e : Barrier.Act (ρ ⊕ υ) (Thread ρ)}
    (hne : e.isEnter = false) (h : Barrier.step b e = some b') :
    (b.pc e.thread).on = some e.on := by
  cases e with
  | enter => cases hne
  | lock j c m =>
    obtain ⟨⟨hpc,_⟩,_⟩ := guarded_eq_some.mp h
    simp [Barrier.Act.thread,Barrier.Act.on,hpc,Barrier.CallPc.on]
  | update j c m | unlock j c m | store j c | load j c =>
    obtain ⟨hpc,_⟩ := guarded_eq_some.mp h
    simp [Barrier.Act.thread,Barrier.Act.on,hpc,Barrier.CallPc.on]

/-- Where no step forward is left, a thread of a team that has been created is in the barrier or
has exited. -/
theorem ReturnInv.stopped (h : ReturnInv cfg r before n calls s)
    (hstop : ∀ a, Forward cfg r s a → ThreadGroup.step cfg s a = none) (hi : i ∈ cfg.team r)
    (hne : s.worker i ≠ .absent) : (∃ o, s.worker i = .inBarrier o) ∨ s.worker i = .exited := by
  have hown : ∀ a : Act ρ υ κ ω, a.worker = some i → Plain cfg r s a →
      (∀ j o e, a ≠ .barrier j o e) → ThreadGroup.step cfg s a = none := fun a hw hp hb =>
    hstop a ⟨.inr ⟨i,hi,hw⟩,hp,fun j o k c he => absurd he (hb _ _ _)⟩
  have hon := h.join.on i hi
  have hno : ¬ ∃ u, (s.bars.pc i).on = some (.inr u) := by
    rintro ⟨u,hu⟩
    exact h.plain i hi u hu
  have hobject : ¬ (s.worker i).entered = true → s.barrierObject i.group = some r := fun he => by
    rcases h.start with hg | hg
    · exact hg.object i hi hne
    · exact absurd (hg i hi) he
  cases hpc : s.worker i with
  | absent => exact absurd hpc hne
  | start =>
    have := hown (.threadInit i) rfl ⟨trivial,by simp⟩ (by simp)
    simp [ThreadGroup.step,hpc] at this
  | init =>
    have hidle : s.bars.pc i = .idle := by
      rw [hpc] at hon
      exact hon.resolve_right hno
    have := hown (.initReturn i) rfl ⟨trivial,by simp⟩ (by simp)
    simp [ThreadGroup.step,hpc,hidle] at this
  | test =>
    have := hown (.testObject i) rfl ⟨trivial,by simp⟩ (by simp)
    simp [ThreadGroup.step,hpc] at this
  | argBarrier =>
    have hob := hobject (by simp [hpc,WorkerPc.entered])
    have := hown (.argBarrier i r) rfl ⟨trivial,by simp⟩ (by simp)
    simp [ThreadGroup.step,hpc,hob] at this
  | argCount o =>
    have hob := hobject (by simp [hpc,WorkerPc.entered])
    have := hown (.argCount i o r) rfl ⟨trivial,by simp⟩ (by simp)
    simp [ThreadGroup.step,hpc,hob] at this
  | call o m =>
    have hidle : s.bars.pc i = .idle := by
      rw [hpc] at hon
      exact hon
    have := hown (.callBarrier i o m) rfl ⟨trivial,by simp⟩ (by simp)
    simp [ThreadGroup.step,hpc,Barrier.step,hidle] at this
  | inBarrier o => exact .inl ⟨o,rfl⟩
  | ready =>
    have := hown (.callFunc i) rfl ⟨trivial,by simp⟩ (by simp)
    simp [ThreadGroup.step,hpc] at this
  | func =>
    have hidle : s.bars.pc i = .idle := by
      rw [hpc] at hon
      exact hon.resolve_right hno
    have := hown (.funcReturn i) rfl ⟨trivial,by simp⟩ (by simp)
    simp [ThreadGroup.step,hpc,hidle] at this
  | exit =>
    have := hown (.cleanup i) rfl ⟨trivial,by simp⟩ (by simp)
    simp [ThreadGroup.step,hpc] at this
  | exiting =>
    have := hown (.pthreadExit i) rfl ⟨trivial,by simp⟩ (by simp)
    simp [ThreadGroup.step,hpc] at this
  | exited => exact .inr rfl

theorem ReturnInv.exited (h : ReturnInv cfg r before n calls s)
    (hstop : ∀ a, Forward cfg r s a → ThreadGroup.step cfg s a = none)
    (hall : ∀ i ∈ cfg.team r, s.worker i ≠ .absent) (hi : i ∈ cfg.team r) :
    s.worker i = .exited := by
  have hends := fun j hj => h.stopped hstop hj (hall j hj)
  have hcalled : ∀ j ∈ cfg.team r, 0 < s.bars.calls j := by
    intro j hj
    apply h.entered j hj
    rcases hends j hj with ⟨o,hw⟩ | hw <;> rw [hw] <;> rfl
  -- the barrier of the team has no step left either, so nobody is in it
  have hfin : Barrier.Finished (cfg.team r) 1 s.bars := by
    refine (h.program ⟨i,hi⟩).finished ?_
    rintro e ⟨hj,hf,hload⟩
    by_contra hsome
    obtain ⟨b,hb⟩ := Option.ne_none_iff_exists'.mp hsome
    cases he : e.isEnter with
    | true =>
      cases e with
      | enter j c m =>
        simp only [Barrier.Follows,show j ∈ cfg.team r from hj,if_true] at hf
        have := hcalled j hj
        omega
      | _ => cases he
    | false =>
      have hon := on_of_step he hb
      have hmay := h.join.on _ hj
      rcases hends _ hj with ⟨o,hw⟩ | hw
      · rw [hw] at hmay
        rcases hmay with hmay | hmay
        · rw [hmay] at hon
          cases hon
        · have heo : e.on = .inl o := Option.some.inj (hon.symm.trans hmay)
          have := hstop (.barrier e.thread o e) ⟨.inr ⟨_,hj,rfl⟩,⟨trivial,by simp⟩,
            fun _ _ j c hec => by cases hec; exact hload j c rfl⟩
          simp [ThreadGroup.step,hw,heo,he,hb] at this
      · rw [hw] at hmay
        rw [show s.bars.pc e.thread = .idle from hmay] at hon
        cases hon
  rcases hends i hi with ⟨o,hw⟩ | hw
  · have := hstop (.barrierReturn i o) ⟨.inr ⟨i,hi,rfl⟩,⟨trivial,by simp⟩,by simp⟩
    simp [ThreadGroup.step,hw,(hfin i hi).2] at this
  · exact hw

theorem ReturnInv.done (h : ReturnInv cfg r before n calls s) (hidle : s.runner r ≠ .idle)
    (hstop : ∀ a, Forward cfg r s a → ThreadGroup.step cfg s a = none) : s.runner r = .done := by
  have hown : ∀ a : Act ρ υ κ ω, a.caller = some r → Plain cfg r s a →
      (∀ j o e, a ≠ .barrier j o e) → ThreadGroup.step cfg s a = none := fun a hc hp hb =>
    hstop a ⟨.inl hc,hp,fun j o k c he => absurd he (hb _ _ _)⟩
  have hpath := h.join.course.path
  cases hpc : s.runner r with
  | idle => exact absurd hpc hidle
  | done => rfl
  | lock | add | unlock | queue | failed =>
    rw [hpc] at hpath
    exact hpath.elim
  | begin =>
    have := hown (.runBegin r) rfl ⟨trivial,by simp⟩ (by simp)
    simp [ThreadGroup.step,hpc] at this
  | prepare rest =>
    cases rest with
    | nil =>
      have := hown (.prepared r) rfl ⟨trivial,by simp⟩ (by simp)
      simp [ThreadGroup.step,hpc] at this
    | cons g rest =>
      have := hown (.prepare r g rest) rfl ⟨trivial,by simp⟩ (by simp)
      simp [ThreadGroup.step,hpc] at this
  | publish g rest =>
    have := hown (.publish r g rest) rfl ⟨trivial,by simp⟩ (by simp)
    simp [ThreadGroup.step,hpc] at this
  | create g j rest =>
    by_cases hj : j < (cfg.nr g).toNat
    · have := hown (.create r g j rest) rfl ⟨trivial,by simp⟩ (by simp)
      simp [ThreadGroup.step,hpc,hj] at this
    · have := hown (.created r g j rest) rfl ⟨trivial,by simp⟩ (by simp)
      simp [ThreadGroup.step,hpc,hj] at this
  | join todo j =>
    cases todo with
    | nil =>
      have := hown (.runReturn r j) rfl ⟨trivial,by simp⟩ (by simp)
      simp [ThreadGroup.step,hpc] at this
    | cons g rest =>
      rw [hpc] at hpath
      have hsub : (g::rest).Sublist (cfg.groups r) := hpath
      have hall : ∀ i ∈ cfg.team r, s.worker i ≠ .absent := by
        intro i hi ha
        have hu := h.join.course.created i hi ha
        rw [hpc] at hu
        exact hu
      by_cases hj : j < (cfg.nr g).toNat
      · have hi : (⟨r,g,j⟩ : Thread ρ) ∈ cfg.team r :=
          Config.mem_team.mpr ⟨rfl,hsub.subset List.mem_cons_self,hj⟩
        have hth := h.join.course.handle _ hi (hall _ hi)
        have hx := h.exited hstop hall hi
        have := hown (.runJoin r g rest j r) rfl ⟨trivial,by simp⟩ (by simp)
        simp [ThreadGroup.step,hpc,hj,show s.thread g j = some r from hth,hx] at this
      · have := hown (.runJoined r g rest j) rfl ⟨trivial,by simp⟩ (by simp)
        simp [ThreadGroup.step,hpc,hj] at this

theorem called_step (h : s.runner r ≠ .idle) (hst : step cfg s a = some t) :
    t.runner r ≠ .idle := by
  rcases step_moves hst with ⟨q,hc,hm⟩ | ⟨_,hm⟩ | hm
  · by_cases hq : r = q
    · exact called_of_step (hq ▸ hc) hst
    · rwa [hm.runners r hq]
  · rwa [hm.runner]
  · rwa [hm.runner]

end Stop

theorem ReturnInv.of_ready {cfg : Config ρ ω} {r : ρ} {s₀ : State ρ υ κ ω}
    (hinit : Reach (ThreadGroup.step cfg) Anything (init ρ υ κ ω) s₀) (hready : Ready cfg r s₀)
    (hu : Undisturbed cfg r s₀) :
    ReturnInv cfg r s₀.joined (s₀.freed r) s₀.bars.calls s₀ ∧
      ∀ i ∈ cfg.team r, s₀.bars.calls i = 0 := by
  have hbars : BarsInv s₀ := hinit.invariant (I:=BarsInv) .init fun _ _ _ hi _ hst => hi.step hst
  refine ⟨hready.returnInv hu hbars (bar_of_unmade hinit hready.idle),fun i hi => ?_⟩
  exact (hbars.absent i (hready.threads i (Config.mem_team.mp hi).1).1).2

end ThreadGroup
end Mthpc
