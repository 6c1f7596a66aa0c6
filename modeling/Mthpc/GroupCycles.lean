import Mthpc.StartBarrier

/-!
# An asynchronous group that is run again

`nr_exited` is 0 in the declaration of a group, `mthpc_thread_async_cleanup` counts it up and
nothing sets it back. After `k` cycles of `__mthpc_thread_async_run` and
`__mthpc_thread_async_wait` it starts at `k` times `nr`, but both reapers compare it with `nr`.
-/
namespace Mthpc
namespace ThreadGroup

open StepSystem

variable {ρ υ κ ω : Type} [DecidableEq ρ] [DecidableEq υ] [DecidableEq κ] [DecidableEq ω]

/-- Where the cycles of a group are: between two of them, or in the one of call `r` and, from
its call on, of wait `w`. -/
inductive Phase (ρ ω : Type)
  | between | running (r : ρ) | waiting (r : ρ) (w : ω)
  deriving DecidableEq

def Phase.call : Phase ρ ω → Option ρ
  | .between => none
  | .running r | .waiting r _ => some r

/-- A state with the number of completed cycles of one group. -/
structure Cycled (ρ υ κ ω : Type) where
  state : State ρ υ κ ω
  cycles : ℕ
  phase : Phase ρ ω

def Cycled.init (ρ υ κ ω : Type) : Cycled ρ υ κ ω := ⟨ThreadGroup.init ρ υ κ ω,0,.between⟩

/-- Where a step takes the cycles of `g`; a call that is not its turn is not made. -/
def advance (cfg : Config ρ ω) (g : Group) (k : ℕ) (ph : Phase ρ ω) (s : State ρ υ κ ω) :
    Act ρ υ κ ω → Option (ℕ × Phase ρ ω)
  | .runCall r =>
    if g ∈ cfg.groups r then guarded (ph = .between) (k,.running r) else some (k,ph)
  | .waitCall w =>
    if g ∈ cfg.waits w then match ph with
      | .running r => guarded (s.runner r = .done) (k,.waiting r w)
      | .between | .waiting _ _ => none
    else some (k,ph)
  | .waitReturn w => match ph with
    | .waiting r w' => some (if w' = w then (k+1,.between) else (k,.waiting r w'))
    | .between | .running _ => some (k,ph)
  | _ => some (k,ph)

def stepCycles (cfg : Config ρ ω) (g : Group) (s : Cycled ρ υ κ ω) (a : Act ρ υ κ ω) :
    Option (Cycled ρ υ κ ω) :=
  (advance cfg g s.cycles s.phase s.state a).bind fun p =>
    (step cfg s.state a).map fun t => ⟨t,p.1,p.2⟩

/-- The thread has executed `mthpc_thread_async_cleanup`. -/
def WorkerPc.cleaned : WorkerPc ρ → Bool
  | .exiting | .exited => true
  | _ => false

/-- The test of the reapers holds exactly when the `nr` threads of call `r` are done. -/
def TestedExactly (cfg : Config ρ ω) (g : Group) (r : ρ) (s : State ρ υ κ ω) : Prop :=
  s.nrExited g = cfg.nr g ↔ ∀ j < (cfg.nr g).toNat, (s.worker ⟨r,g,j⟩).cleaned = true

/-- The threads of the current cycle that have executed `mthpc_thread_async_cleanup`. -/
def tally (cfg : Config ρ ω) (g : Group) (s : State ρ υ κ ω) : Option ρ → ℕ
  | none => 0
  | some r => ((Finset.range (cfg.nr g).toNat).filter
      fun j => (s.worker ⟨r,g,j⟩).cleaned = true).card

/-- The wait has joined slot `j` of `g` and does not come to `g` again. -/
def WaitPc.passed (g : Group) (j : ℕ) : WaitPc → Prop
  | .idle => False
  | .next rest | .put _ _ rest => g ∉ rest
  | .lock g' rest | .del g' rest | .unlock g' rest | .spin g' _ rest => g ≠ g' ∧ g ∉ rest
  | .join g' j' rest => g ∉ rest ∧ (g = g' → j < j')
  | .done => True

/-- How the counter, the threads and the handles of `g` stand in the run of cycles. -/
structure CycleInv (cfg : Config ρ ω) (g : Group) (k : ℕ) (ph : Phase ρ ω) (s : State ρ υ κ ω) :
    Prop where
  count : s.nrExited g = BitVec.ofNat 32 (k*(cfg.nr g).toNat+tally cfg g s ph.call)
  member : ∀ r, ph.call = some r → g ∈ cfg.groups r
  ahead : ∀ r, ((s.runner r).ahead (cfg.groups r)).Sublist (cfg.groups r)
  runners : ∀ r, ph.call ≠ some r → g ∉ (s.runner r).ahead (cfg.groups r)
  quiet : ∀ r j, ph.call ≠ some r → (s.worker ⟨r,g,j⟩).quiet
  slots : ∀ r j, (cfg.nr g).toNat ≤ j → s.worker ⟨r,g,j⟩ = .absent
  uncreated : ∀ r, ∀ j < (cfg.nr g).toNat, (s.runner r).uncreated g j →
    s.worker ⟨r,g,j⟩ = .absent
  handle : ∀ r, ph.call = some r → ∀ j < (cfg.nr g).toNat, ¬ (s.runner r).uncreated g j →
    s.thread g j = some r
  waiting : ∀ r w, ph = .waiting r w → g ∈ cfg.waits w ∧ s.runner r = .done ∧
    ∀ j < (cfg.nr g).toNat, (s.waiter w).passed g j → s.worker ⟨r,g,j⟩ = .exited

section Steps

variable {cfg : Config ρ ω} {g : Group} {k : ℕ} {ph : Phase ρ ω} {s t : State ρ υ κ ω}

theorem tally_congr {ρ υ κ ω : Type} {cfg : Config ρ ω} {g : Group} {s t : State ρ υ κ ω}
    {c : Option ρ} (h : ∀ r, c = some r → ∀ j < (cfg.nr g).toNat,
    (t.worker ⟨r,g,j⟩).cleaned = (s.worker ⟨r,g,j⟩).cleaned) :
    tally cfg g t c = tally cfg g s c := by
  cases c with
  | none => rfl
  | some r =>
    simp only [tally]
    congr 1
    refine Finset.filter_congr fun j hj => ?_
    rw [h r rfl j (Finset.mem_range.mp hj)]

/-- The fields of a state that the invariant speaks about are the same. -/
structure SameRun (s t : State ρ υ κ ω) : Prop where
  nrExited : t.nrExited = s.nrExited
  thread : t.thread = s.thread
  worker : t.worker = s.worker

theorem SameRun.tally {ρ υ κ ω : Type} {cfg : Config ρ ω} {g : Group} {s t : State ρ υ κ ω}
    {c : Option ρ} (h : SameRun s t) :
    ThreadGroup.tally cfg g t c = ThreadGroup.tally cfg g s c :=
  tally_congr fun _ _ _ _ => by rw [h.worker]

theorem CycleInv.frame {ρ υ κ ω : Type} {cfg : Config ρ ω} {g : Group} {k : ℕ} {ph : Phase ρ ω}
    {s t : State ρ υ κ ω} (h : CycleInv cfg g k ph s) (hs : SameRun s t) (hr : t.runner = s.runner)
    (hw : t.waiter = s.waiter) : CycleInv cfg g k ph t where
  count := by rw [hs.nrExited,hs.tally]; exact h.count
  member := h.member
  ahead := by rw [hr]; exact h.ahead
  runners := by rw [hr]; exact h.runners
  quiet := by rw [hs.worker]; exact h.quiet
  slots := by rw [hs.worker]; exact h.slots
  uncreated := by rw [hs.worker,hr]; exact h.uncreated
  handle := by rw [hs.thread,hr]; exact h.handle
  waiting := by rw [hs.worker,hr,hw]; exact h.waiting

theorem CycleInv.call {ρ υ κ ω : Type} [DecidableEq ρ] {cfg : Config ρ ω} {g : Group} {k : ℕ}
    {ph : Phase ρ ω} {s t : State ρ υ κ ω} (h : CycleInv cfg g k ph s) (hs : SameRun s t) {q : ρ}
    {pc : RunPc} (hr : t.runner = Function.update s.runner q pc) (hw : t.waiter = s.waiter)
    (hq : s.runner q ≠ .done) (hsub : (pc.ahead (cfg.groups q)).Sublist (cfg.groups q))
    (hahead : ph.call ≠ some q → g ∉ pc.ahead (cfg.groups q))
    (hunc : ∀ j < (cfg.nr g).toNat, pc.uncreated g j → (s.runner q).uncreated g j)
    (hcre : ph.call = some q → ∀ j < (cfg.nr g).toNat, (s.runner q).uncreated g j →
      pc.uncreated g j) :
    CycleInv cfg g k ph t where
  count := by rw [hs.nrExited,hs.tally]; exact h.count
  member := h.member
  ahead r := by
    by_cases he : r = q
    · subst he; rw [hr,Function.update_self]; exact hsub
    · rw [hr,Function.update_of_ne he]; exact h.ahead r
  runners r hc := by
    by_cases he : r = q
    · subst he; rw [hr,Function.update_self]; exact hahead hc
    · rw [hr,Function.update_of_ne he]; exact h.runners r hc
  quiet := by rw [hs.worker]; exact h.quiet
  slots := by rw [hs.worker]; exact h.slots
  uncreated r j hj hu := by
    rw [hs.worker]
    by_cases he : r = q
    · subst he
      rw [hr,Function.update_self] at hu
      exact h.uncreated r j hj (hunc j hj hu)
    · rw [hr,Function.update_of_ne he] at hu
      exact h.uncreated r j hj hu
  handle r hc j hj hu := by
    rw [hs.thread]
    by_cases he : r = q
    · subst he
      rw [hr,Function.update_self] at hu
      exact h.handle r hc j hj (mt (hcre hc j hj) hu)
    · rw [hr,Function.update_of_ne he] at hu
      exact h.handle r hc j hj hu
  waiting r w hph := by
    obtain ⟨hg,hd,hp⟩ := h.waiting r w hph
    have he : r ≠ q := by
      rintro rfl
      exact hq hd
    rw [hs.worker,hr,hw,Function.update_of_ne he]
    exact ⟨hg,hd,hp⟩

theorem CycleInv.next {ρ υ κ ω : Type} [DecidableEq ρ] {cfg : Config ρ ω} {g : Group} {k : ℕ}
    {ph : Phase ρ ω} {s t : State ρ υ κ ω} (h : CycleInv cfg g k ph s) (hs : SameRun s t) {q : ρ}
    {pc : RunPc} (hr : t.runner = Function.update s.runner q pc) (hw : t.waiter = s.waiter)
    (hq : s.runner q ≠ .done)
    (hsub : (pc.ahead (cfg.groups q)).Sublist ((s.runner q).ahead (cfg.groups q)))
    (hunc : ∀ j < (cfg.nr g).toNat, pc.uncreated g j ↔ (s.runner q).uncreated g j) :
    CycleInv cfg g k ph t :=
  h.call hs hr hw hq (hsub.trans (h.ahead q)) (fun hc hg => h.runners q hc (hsub.subset hg))
    (fun j hj => (hunc j hj).mp) fun _ j hj => (hunc j hj).mpr

theorem CycleInv.wait {ρ υ κ ω : Type} [DecidableEq ω] {cfg : Config ρ ω} {g : Group} {k : ℕ}
    {ph : Phase ρ ω} {s t : State ρ υ κ ω} (h : CycleInv cfg g k ph s) (hs : SameRun s t) {w : ω}
    {pc : WaitPc} (hr : t.runner = s.runner) (hw : t.waiter = Function.update s.waiter w pc)
    (hp : ∀ r, ph = .waiting r w → ∀ j < (cfg.nr g).toNat, pc.passed g j →
      (s.waiter w).passed g j ∨ s.worker ⟨r,g,j⟩ = .exited) : CycleInv cfg g k ph t where
  count := by rw [hs.nrExited,hs.tally]; exact h.count
  member := h.member
  ahead := by rw [hr]; exact h.ahead
  runners := by rw [hr]; exact h.runners
  quiet := by rw [hs.worker]; exact h.quiet
  slots := by rw [hs.worker]; exact h.slots
  uncreated := by rw [hs.worker,hr]; exact h.uncreated
  handle := by rw [hs.thread,hr]; exact h.handle
  waiting r v hph := by
    obtain ⟨hg,hd,hj⟩ := h.waiting r v hph
    refine ⟨hg,by rw [hr]; exact hd,fun j hlt hpass => ?_⟩
    rw [hs.worker]
    by_cases he : v = w
    · subst he
      rw [hw,Function.update_self] at hpass
      exact (hp r hph j hlt hpass).elim (hj j hlt) id
    · rw [hw,Function.update_of_ne he] at hpass
      exact hj j hlt hpass

/-- A thread of the current call moves; `hcount` is what its step does to the counter. -/
theorem CycleInv.work {ρ υ κ ω : Type} [DecidableEq ρ] {cfg : Config ρ ω} {g : Group} {k : ℕ}
    {ph : Phase ρ ω} {s t : State ρ υ κ ω} (h : CycleInv cfg g k ph s) {i : Thread ρ}
    {p : WorkerPc ρ} (hi : ¬ (s.worker i).quiet) (hw : t.worker = Function.update s.worker i p)
    (hth : t.thread = s.thread) (hr : t.runner = s.runner) (hq : t.waiter = s.waiter)
    (hcount : (i.group = g → ph.call = some i.call ∧ i.slot < (cfg.nr g).toNat) →
      t.nrExited g = BitVec.ofNat 32 (k*(cfg.nr g).toNat+tally cfg g t ph.call)) :
    CycleInv cfg g k ph t := by
  have habs : s.worker i ≠ .absent := fun he => hi (Or.inl he)
  have hne : ∀ {r j}, (s.worker ⟨r,g,j⟩).quiet → t.worker ⟨r,g,j⟩ = s.worker ⟨r,g,j⟩ := by
    intro r j hquiet
    rw [hw,Function.update_of_ne]
    rintro rfl
    exact hi hquiet
  have hown : i.group = g → ph.call = some i.call ∧ i.slot < (cfg.nr g).toNat := by
    rintro rfl
    refine ⟨?_,?_⟩
    · by_contra hc
      exact hi (h.quiet i.call i.slot hc)
    · by_contra hlt
      exact habs (h.slots i.call i.slot (not_lt.mp hlt))
  exact {
    count := hcount hown
    member := h.member
    ahead := by rw [hr]; exact h.ahead
    runners := by rw [hr]; exact h.runners
    quiet := fun r j hc => by rw [hne (h.quiet r j hc)]; exact h.quiet r j hc
    slots := fun r j hj => by rw [hne (Or.inl (h.slots r j hj))]; exact h.slots r j hj
    uncreated := fun r j hj hu => by
      rw [hr] at hu
      rw [hne (Or.inl (h.uncreated r j hj hu))]
      exact h.uncreated r j hj hu
    handle := by rw [hth,hr]; exact h.handle
    waiting := fun r w hph => by
      obtain ⟨hg,hd,hj⟩ := h.waiting r w hph
      refine ⟨hg,by rw [hr]; exact hd,fun j hlt hp => ?_⟩
      rw [hq] at hp
      rw [hne (Or.inr (hj j hlt hp))]
      exact hj j hlt hp }

theorem CycleInv.walk {ρ υ κ ω : Type} [DecidableEq ρ] {cfg : Config ρ ω} {g : Group} {k : ℕ}
    {ph : Phase ρ ω} {s t : State ρ υ κ ω} (h : CycleInv cfg g k ph s) {i : Thread ρ}
    {p : WorkerPc ρ} (hi : ¬ (s.worker i).quiet) (hp : p.cleaned = (s.worker i).cleaned)
    (hw : t.worker = Function.update s.worker i p) (hn : t.nrExited = s.nrExited)
    (hth : t.thread = s.thread) (hr : t.runner = s.runner) (hq : t.waiter = s.waiter) :
    CycleInv cfg g k ph t := by
  refine h.work hi hw hth hr hq fun _ => ?_
  have htally : tally cfg g t ph.call = tally cfg g s ph.call := by
    refine tally_congr fun r _ j _ => ?_
    rw [hw]
    by_cases he : (⟨r,g,j⟩ : Thread ρ) = i
    · subst he; rw [Function.update_self,hp]
    · rw [Function.update_of_ne he]
  rw [hn,htally]
  exact h.count

theorem tally_exiting {ρ υ κ ω : Type} [DecidableEq ρ] {cfg : Config ρ ω} {g : Group}
    {s t : State ρ υ κ ω} {r : ρ} {j : ℕ} (hj : j < (cfg.nr g).toNat)
    (hpc : s.worker ⟨r,g,j⟩ = .exit)
    (hw : t.worker = Function.update s.worker ⟨r,g,j⟩ .exiting) :
    tally cfg g t (some r) = tally cfg g s (some r)+1 := by
  have hsplit : (Finset.range (cfg.nr g).toNat).filter
        (fun l => (t.worker ⟨r,g,l⟩).cleaned = true) =
      insert j ((Finset.range (cfg.nr g).toNat).filter
        fun l => (s.worker ⟨r,g,l⟩).cleaned = true) := by
    ext l
    by_cases hl : l = j
    · subst hl
      simpa [hw,WorkerPc.cleaned] using hj
    · have hne : (⟨r,g,l⟩ : Thread ρ) ≠ ⟨r,g,j⟩ := fun he => hl (Thread.mk.inj he).2.2
      simp [hw,hl]
  have hmem : j ∉ (Finset.range (cfg.nr g).toNat).filter
      fun l => (s.worker ⟨r,g,l⟩).cleaned = true := by
    rw [Finset.mem_filter,hpc]
    simp [WorkerPc.cleaned]
  rw [tally,hsplit,Finset.card_insert_of_notMem hmem]
  rfl

theorem CycleInv.cleanup (h : CycleInv cfg g k ph s)
    (hrun : ∀ r, g ∈ cfg.groups r → cfg.isAsync r = true ∧ (cfg.groups r).count g = 1)
    {i : Thread ρ} (hst : step cfg s (.cleanup i) = some t) : CycleInv cfg g k ph t := by
  obtain ⟨hpc,rfl⟩ := guarded_eq_some.mp hst
  refine h.work (by simp [hpc,WorkerPc.quiet]) rfl rfl rfl rfl fun hown => ?_
  have hcount := h.count
  by_cases hig : i.group = g
  · subst hig
    obtain ⟨hc,hlt⟩ := hown rfl
    rw [hc] at hcount ⊢
    rw [tally_exiting hlt hpc rfl]
    dsimp only
    rw [if_pos (hrun i.call (h.member i.call hc)).1,Function.update_self,hcount,← Nat.add_assoc]
    exact (BitVec.ofNat_add _ 1).symm
  · rw [tally_congr (s:=s)]
    · rw [← hcount]
      dsimp only
      split
      · rw [Function.update_of_ne (Ne.symm hig)]
      · rfl
    · intro r _ j _
      dsimp only
      rw [Function.update_of_ne]
      rintro rfl
      exact hig rfl

theorem CycleInv.create (h : CycleInv cfg g k ph s)
    (hrun : ∀ r, g ∈ cfg.groups r → cfg.isAsync r = true ∧ (cfg.groups r).count g = 1)
    {q : ρ} {g' : Group} {j' : ℕ} {rest : List Group}
    (hst : step cfg s (.create q g' j' rest) = some t) : CycleInv cfg g k ph t := by
  obtain ⟨⟨hpc,hlt⟩,rfl⟩ := guarded_eq_some.mp hst
  have hahead := h.ahead q
  rw [hpc] at hahead
  have hrest : g' = g → ph.call = some q ∧ g ∉ rest ∧ s.worker ⟨q,g,j'⟩ = .absent := by
    rintro rfl
    have hc : ph.call = some q := by
      by_contra hc
      exact h.runners q hc (by rw [hpc]; exact List.mem_cons_self)
    have hone := hahead.count_le g'
    rw [(hrun q (h.member q hc)).2] at hone
    refine ⟨hc,fun hg => ?_,h.uncreated q j' hlt (by rw [hpc]; exact Or.inl ⟨rfl,le_rfl⟩)⟩
    have hpos := List.count_pos_iff.mpr hg
    simp only [RunPc.ahead,List.count_cons_self] at hone
    omega
  have hworker : ∀ r j, (⟨r,g,j⟩ : Thread ρ) ≠ ⟨q,g',j'⟩ →
      Function.update s.worker ⟨q,g',j'⟩ .start ⟨r,g,j⟩ = s.worker ⟨r,g,j⟩ :=
    fun r j hne => Function.update_of_ne hne _ _
  have hdone : ∀ r w, ph = .waiting r w → r ≠ q := by
    rintro r w hph rfl
    have hd := (h.waiting r w hph).2.1
    rw [hpc] at hd
    cases hd
  refine ⟨?_,h.member,fun r => ?_,fun r hc => ?_,fun r j hc => ?_,fun r j hj => ?_,
    fun r j hj hu => ?_,fun r hc j hj hu => ?_,fun r w hph => ?_⟩
  · rw [tally_congr (s:=s)]
    · exact h.count
    · intro r hc j hj
      dsimp only
      by_cases he : (⟨r,g,j⟩ : Thread ρ) = ⟨q,g',j'⟩
      · obtain ⟨rfl,rfl,rfl⟩ := Thread.mk.inj he
        rw [Function.update_self,(hrest rfl).2.2]
        rfl
      · rw [hworker r j he]
  · dsimp only
    by_cases he : r = q
    · subst he; rw [Function.update_self]; exact hahead
    · rw [Function.update_of_ne he]; exact h.ahead r
  · have hold := h.runners r hc
    dsimp only
    by_cases he : r = q
    · subst he; rw [hpc] at hold; rw [Function.update_self]; exact hold
    · rw [Function.update_of_ne he]; exact hold
  · dsimp only
    rw [hworker]
    · exact h.quiet r j hc
    · rintro he
      obtain ⟨rfl,rfl,-⟩ := Thread.mk.inj he
      exact hc (hrest rfl).1
  · dsimp only
    rw [hworker]
    · exact h.slots r j hj
    · rintro he
      obtain ⟨-,rfl,rfl⟩ := Thread.mk.inj he
      omega
  · dsimp only at hu ⊢
    by_cases he : r = q
    · subst he
      rw [Function.update_self] at hu
      have hold : (s.runner r).uncreated g j := by
        rw [hpc]
        exact hu.imp_left fun hh => ⟨hh.1,by omega⟩
      rw [hworker]
      · exact h.uncreated r j hj hold
      · intro he
        obtain ⟨-,rfl,rfl⟩ := Thread.mk.inj he
        rcases hu with hu | hu
        · omega
        · exact (hrest rfl).2.1 hu
    · rw [Function.update_of_ne he] at hu
      rw [hworker]
      · exact h.uncreated r j hj hu
      · exact fun hh => he (Thread.mk.inj hh).1
  · dsimp only at hu ⊢
    by_cases he : r = q
    · subst he
      rw [Function.update_self] at hu
      by_cases hg : g = g'
      · subst hg
        rw [Function.update_self]
        by_cases hjj : j = j'
        · subst hjj; rw [Function.update_self]
        · rw [Function.update_of_ne hjj]
          refine h.handle r hc j hj fun hold => hu ?_
          rw [hpc] at hold
          exact hold.imp_left fun hh => ⟨hh.1,by omega⟩
      · rw [Function.update_of_ne hg]
        refine h.handle r hc j hj fun hold => hu ?_
        rw [hpc] at hold
        exact hold.imp_left fun hh => absurd hh.1 hg
    · rw [Function.update_of_ne he] at hu
      have hg : g ≠ g' := by
        rintro rfl
        have hq := (hrest rfl).1
        rw [hc] at hq
        exact he (Option.some.inj hq)
      rw [Function.update_of_ne hg]
      exact h.handle r hc j hj hu
  · obtain ⟨hg,hd,hp⟩ := h.waiting r w hph
    have hne := hdone r w hph
    dsimp only
    refine ⟨hg,?_,fun j hj hpass => ?_⟩
    · rw [Function.update_of_ne hne]; exact hd
    · rw [hworker]
      · exact hp j hj hpass
      · exact fun hh => hne (Thread.mk.inj hh).1

theorem CycleInv.runCall (h : CycleInv cfg g k ph s) {q : ρ} {k' : ℕ} {ph' : Phase ρ ω}
    (ha : advance cfg g k ph s (.runCall q) = some (k',ph'))
    (hst : step cfg s (.runCall q) = some t) : CycleInv cfg g k' ph' t := by
  obtain ⟨hpc,rfl⟩ := guarded_eq_some.mp hst
  have hunc : ∀ j, (s.runner q).uncreated g j := fun j => by rw [hpc]; trivial
  simp only [advance] at ha
  split at ha
  · rename_i hg
    obtain ⟨rfl,he⟩ := guarded_eq_some.mp ha
    obtain ⟨rfl,rfl⟩ := Prod.mk.inj he
    have hnone : ∀ r, Phase.call (.between : Phase ρ ω) ≠ some r := by rintro _ ⟨⟩
    refine ⟨?_,fun r hr => ?_,fun r => ?_,fun r hc => ?_,fun r j _ => h.quiet r j (hnone r),
      h.slots,fun r j hj hu => ?_,fun r hr j hj hu => ?_,fun r w hph => by cases hph⟩
    · have htally : tally cfg g { s with runner := Function.update s.runner q .begin }
          (some q) = 0 := by
        rw [tally,Finset.card_eq_zero,Finset.filter_eq_empty_iff]
        intro j hj
        rw [h.uncreated q j (Finset.mem_range.mp hj) (hunc j)]
        simp [WorkerPc.cleaned]
      exact h.count.trans (by rw [show Phase.call (.running q) = some q from rfl,htally]; rfl)
    · cases hr
      exact hg
    · dsimp only
      by_cases he : r = q
      · subst he; rw [Function.update_self]; exact List.Sublist.refl _
      · rw [Function.update_of_ne he]; exact h.ahead r
    · have he : r ≠ q := fun he => hc (by rw [he]; rfl)
      dsimp only
      rw [Function.update_of_ne he]
      exact h.runners r (hnone r)
    · by_cases he : r = q
      · subst he; exact h.uncreated r j hj (hunc j)
      · simp only [Function.update_of_ne he] at hu
        exact h.uncreated r j hj hu
    · cases hr
      simp only [Function.update_self] at hu
      exact absurd trivial hu
  · rename_i hg
    obtain ⟨rfl,rfl⟩ := Prod.mk.inj (Option.some.inj ha)
    exact h.call ⟨rfl,rfl,rfl⟩ rfl rfl (by rw [hpc]; rintro ⟨⟩) (List.Sublist.refl _)
      (fun _ => hg) (fun j _ _ => hunc j) fun _ _ _ _ => trivial

theorem CycleInv.waitCall (h : CycleInv cfg g k ph s) {w : ω} {k' : ℕ} {ph' : Phase ρ ω}
    (ha : advance cfg g k ph s (.waitCall w) = some (k',ph'))
    (hst : step cfg s (.waitCall w) = some t) : CycleInv cfg g k' ph' t := by
  obtain ⟨hpc,rfl⟩ := guarded_eq_some.mp hst
  simp only [advance] at ha
  split at ha
  · rename_i hg
    cases ph with
    | between => cases ha
    | waiting r v => cases ha
    | running r =>
      obtain ⟨hd,he⟩ := guarded_eq_some.mp ha
      obtain ⟨rfl,rfl⟩ := Prod.mk.inj he
      refine ⟨h.count,h.member,h.ahead,h.runners,h.quiet,h.slots,h.uncreated,h.handle,?_⟩
      rintro _ _ ⟨⟩
      refine ⟨hg,hd,fun j _ hp => ?_⟩
      simp only [Function.update_self] at hp
      exact absurd hg hp
  · rename_i hg
    obtain ⟨rfl,rfl⟩ := Prod.mk.inj (Option.some.inj ha)
    exact h.wait ⟨rfl,rfl,rfl⟩ rfl rfl fun r hph _ _ _ => absurd (h.waiting r w hph).1 hg

theorem CycleInv.waitReturn (h : CycleInv cfg g k ph s) {w : ω} {k' : ℕ} {ph' : Phase ρ ω}
    (ha : advance cfg g k ph s (.waitReturn w) = some (k',ph'))
    (hst : step cfg s (.waitReturn w) = some t) : CycleInv cfg g k' ph' t := by
  obtain ⟨hpc,rfl⟩ := guarded_eq_some.mp hst
  have hpass : ∀ j, (s.waiter w).passed g j := fun j => by rw [hpc]; exact List.not_mem_nil
  have hstay : CycleInv cfg g k ph { s with waiter := Function.update s.waiter w .done } :=
    h.wait ⟨rfl,rfl,rfl⟩ rfl rfl fun _ _ j _ _ => Or.inl (hpass j)
  cases ph with
  | between | running r =>
    obtain ⟨rfl,rfl⟩ := Prod.mk.inj (Option.some.inj ha)
    exact hstay
  | waiting r v =>
    by_cases hv : v = w
    · subst hv
      simp only [advance,if_true,Option.some.injEq,Prod.mk.injEq] at ha
      obtain ⟨rfl,rfl⟩ := ha
      obtain ⟨_,hd,hexit⟩ := h.waiting r v rfl
      have hexit : ∀ j < (cfg.nr g).toNat, s.worker ⟨r,g,j⟩ = .exited :=
        fun j hj => hexit j hj (hpass j)
      have htally : tally cfg g s (some r) = (cfg.nr g).toNat := by
        rw [tally,Finset.filter_true_of_mem,Finset.card_range]
        intro j hj
        rw [hexit j (Finset.mem_range.mp hj)]
        rfl
      refine ⟨?_,by rintro _ ⟨⟩,h.ahead,fun q _ => ?_,fun q j _ => ?_,h.slots,h.uncreated,
        by rintro _ ⟨⟩,by rintro _ _ ⟨⟩⟩
      · have hcount := h.count
        rw [show Phase.call (.waiting r v) = some r from rfl,htally,← Nat.succ_mul] at hcount
        exact hcount
      · by_cases hq : q = r
        · subst hq; rw [hd]; exact List.not_mem_nil
        · exact h.runners q fun he => hq (Option.some.inj he).symm
      · by_cases hq : q = r
        · subst hq
          by_cases hj : j < (cfg.nr g).toNat
          · exact Or.inr (hexit j hj)
          · exact Or.inl (h.slots q j (not_lt.mp hj))
        · exact h.quiet q j fun he => hq (Option.some.inj he).symm
    · simp only [advance,if_neg hv,Option.some.injEq,Prod.mk.injEq] at ha
      obtain ⟨rfl,rfl⟩ := ha
      exact hstay

theorem CycleInv.waitJoin (h : CycleInv cfg g k ph s) {w : ω} {g' : Group} {j' : ℕ}
    {rest : List Group} {o : ρ} (hst : step cfg s (.waitJoin w g' j' rest o) = some t) :
    CycleInv cfg g k ph t := by
  obtain ⟨⟨hpc,_,hth,hexit⟩,rfl⟩ := guarded_eq_some.mp hst
  refine h.wait ⟨rfl,rfl,rfl⟩ rfl rfl fun r hph j hj hp => ?_
  rw [hpc]
  by_cases hjj : g = g' ∧ j = j'
  · obtain ⟨rfl,rfl⟩ := hjj
    have hhandle := h.handle r (by rw [hph]; rfl) j hj (by rw [(h.waiting r w hph).2.1]; exact id)
    rw [hth] at hhandle
    cases hhandle
    exact Or.inr hexit
  · refine Or.inl ⟨hp.1,fun hg => ?_⟩
    have hlt := hp.2 hg
    have hne : j ≠ j' := fun he => hjj ⟨hg,he⟩
    omega

theorem CycleInv.callerStep (h : CycleInv cfg g k ph s)
    (hrun : ∀ r, g ∈ cfg.groups r → cfg.isAsync r = true ∧ (cfg.groups r).count g = 1)
    {a : Act ρ υ κ ω} {k' : ℕ} {ph' : Phase ρ ω} {q : ρ} (hp : a.caller = some q)
    (ha : advance cfg g k ph s a = some (k',ph')) (hst : ThreadGroup.step cfg s a = some t) :
    CycleInv cfg g k' ph' t := by
  cases a with
  | runCall q => exact h.runCall ha hst
  | create q g' j rest =>
    obtain ⟨rfl,rfl⟩ := Prod.mk.inj (Option.some.inj ha)
    exact h.create hrun hst
  | allocFail q =>
    obtain ⟨rfl,rfl⟩ := Prod.mk.inj (Option.some.inj ha)
    obtain ⟨⟨hpc,-⟩,rfl⟩ := guarded_eq_some.mp hst
    refine h.next ⟨rfl,rfl,rfl⟩ rfl rfl (by rw [hpc]; rintro ⟨⟩) (List.nil_sublist _) fun _ _ => ?_
    rw [hpc]
    exact Iff.rfl
  | runBegin q =>
    obtain ⟨rfl,rfl⟩ := Prod.mk.inj (Option.some.inj ha)
    obtain ⟨hpc,rfl⟩ := guarded_eq_some.mp hst
    refine h.call ⟨rfl,rfl,rfl⟩ rfl rfl (by rw [hpc]; rintro ⟨⟩) (List.Sublist.refl _)
      (fun hc => ?_) (fun _ _ _ => ?_) fun hc _ _ _ => h.member q hc
    · have hout := h.runners q hc
      rw [hpc] at hout
      exact hout
    · rw [hpc]
      trivial
  | prepare q g' rest =>
    obtain ⟨rfl,rfl⟩ := Prod.mk.inj (Option.some.inj ha)
    obtain ⟨hpc,rfl⟩ := guarded_eq_some.mp hst
    refine h.next ⟨rfl,rfl,rfl⟩ rfl rfl (by rw [hpc]; rintro ⟨⟩) ?_ fun _ _ => ?_ <;> rw [hpc] <;>
      split <;> simp [RunPc.ahead,RunPc.uncreated]
  | prepared q =>
    obtain ⟨rfl,rfl⟩ := Prod.mk.inj (Option.some.inj ha)
    obtain ⟨hpc,rfl⟩ := guarded_eq_some.mp hst
    refine h.next ⟨rfl,rfl,rfl⟩ rfl rfl (by rw [hpc]; rintro ⟨⟩) ?_ fun _ _ => ?_ <;> rw [hpc] <;>
      split <;> simp [RunPc.ahead,RunPc.uncreated]
  | runLock q g' rest =>
    obtain ⟨rfl,rfl⟩ := Prod.mk.inj (Option.some.inj ha)
    obtain ⟨⟨hpc,-⟩,rfl⟩ := guarded_eq_some.mp hst
    refine h.next ⟨rfl,rfl,rfl⟩ rfl rfl (by rw [hpc]; rintro ⟨⟩) ?_ fun _ _ => ?_ <;> rw [hpc] <;>
      simp [RunPc.ahead,RunPc.uncreated]
  | addTail q g' rest | runUnlock q g' rest | publish q g' rest =>
    obtain ⟨rfl,rfl⟩ := Prod.mk.inj (Option.some.inj ha)
    obtain ⟨hpc,rfl⟩ := guarded_eq_some.mp hst
    refine h.next ⟨rfl,rfl,rfl⟩ rfl rfl (by rw [hpc]; rintro ⟨⟩) ?_ fun _ _ => ?_ <;> rw [hpc] <;>
      simp [RunPc.ahead,RunPc.uncreated]
  | created q g' j rest =>
    obtain ⟨rfl,rfl⟩ := Prod.mk.inj (Option.some.inj ha)
    obtain ⟨⟨hpc,hj⟩,rfl⟩ := guarded_eq_some.mp hst
    refine h.next ⟨rfl,rfl,rfl⟩ rfl rfl (by rw [hpc]; rintro ⟨⟩) ?_ fun l hl => ?_ <;> rw [hpc]
    · exact List.sublist_cons_self g' rest
    · refine ⟨Or.inr,fun hu => hu.resolve_left ?_⟩
      rintro ⟨rfl,hle⟩
      omega
  | runJoin q g' rest j o =>
    obtain ⟨rfl,rfl⟩ := Prod.mk.inj (Option.some.inj ha)
    obtain ⟨⟨hpc,-⟩,rfl⟩ := guarded_eq_some.mp hst
    refine h.next ⟨rfl,rfl,rfl⟩ rfl rfl (by rw [hpc]; rintro ⟨⟩) (List.nil_sublist _) fun _ _ => ?_
    rw [hpc]
    exact Iff.rfl
  | runJoined q g' rest j =>
    obtain ⟨rfl,rfl⟩ := Prod.mk.inj (Option.some.inj ha)
    obtain ⟨⟨hpc,-⟩,rfl⟩ := guarded_eq_some.mp hst
    refine h.next ⟨rfl,rfl,rfl⟩ rfl rfl (by rw [hpc]; rintro ⟨⟩) (List.nil_sublist _) fun _ _ => ?_
    rw [hpc]
    exact Iff.rfl
  | runReturn q j | queueWork q =>
    obtain ⟨rfl,rfl⟩ := Prod.mk.inj (Option.some.inj ha)
    obtain ⟨hpc,rfl⟩ := guarded_eq_some.mp hst
    refine h.next ⟨rfl,rfl,rfl⟩ rfl rfl (by rw [hpc]; rintro ⟨⟩) (List.nil_sublist _) fun _ _ => ?_
    rw [hpc]
    exact Iff.rfl
  | _ => cases hp

theorem advance_worker {ρ υ κ ω : Type} [DecidableEq ρ] [DecidableEq ω] {cfg : Config ρ ω}
    {g : Group} {k : ℕ} {ph : Phase ρ ω} {s : State ρ υ κ ω} {a : Act ρ υ κ ω} {i : Thread ρ}
    (hp : a.worker = some i) : advance cfg g k ph s a = some (k,ph) := by
  cases a <;> first | rfl | cases hp

theorem advance_joiner {ρ υ κ ω : Type} [DecidableEq ρ] [DecidableEq ω] {cfg : Config ρ ω}
    {g : Group} {k : ℕ} {ph : Phase ρ ω} {s : State ρ υ κ ω} {a : Act ρ υ κ ω} {q : κ}
    (hp : a.joiner = some q) : advance cfg g k ph s a = some (k,ph) := by
  cases a <;> first | rfl | cases hp

theorem CycleInv.workerStep (h : CycleInv cfg g k ph s)
    (hrun : ∀ r, g ∈ cfg.groups r → cfg.isAsync r = true ∧ (cfg.groups r).count g = 1)
    {a : Act ρ υ κ ω} {i : Thread ρ} (hp : a.worker = some i)
    (hst : ThreadGroup.step cfg s a = some t) : CycleInv cfg g k ph t := by
  cases a with
  | cleanup i => exact h.cleanup hrun hst
  | threadInit i | testObject i | callFunc i =>
    obtain ⟨hpc,rfl⟩ := guarded_eq_some.mp hst
    refine h.walk (by simp [hpc,WorkerPc.quiet]) ?_ rfl rfl rfl rfl rfl
    rw [hpc]
    split <;> rfl
  | pthreadExit i =>
    obtain ⟨hpc,rfl⟩ := guarded_eq_some.mp hst
    exact h.walk (by simp [hpc,WorkerPc.quiet]) (by rw [hpc]; rfl) rfl rfl rfl rfl rfl
  | initReturn i | barrierReturn i o | funcReturn i | argBarrier i o | argCount i o o' =>
    obtain ⟨⟨hpc,-⟩,rfl⟩ := guarded_eq_some.mp hst
    exact h.walk (by simp [hpc,WorkerPc.quiet]) (by rw [hpc]; rfl) rfl rfl rfl rfl rfl
  | callBarrier i o n =>
    obtain ⟨hpc,hmap⟩ := Option.ite_none_right_eq_some.mp hst
    obtain ⟨b,-,rfl⟩ := Option.map_eq_some_iff.mp hmap
    exact h.walk (by simp [hpc,WorkerPc.quiet]) (by rw [hpc]; rfl) rfl rfl rfl rfl rfl
  | barrier i o b | userBarrier i u b =>
    obtain ⟨-,hmap⟩ := Option.ite_none_right_eq_some.mp hst
    obtain ⟨b,-,rfl⟩ := Option.map_eq_some_iff.mp hmap
    exact h.frame ⟨rfl,rfl,rfl⟩ rfl rfl
  | _ => cases hp

theorem CycleInv.joinerStep (h : CycleInv cfg g k ph s)
    {a : Act ρ υ κ ω} {q : κ} (hp : a.joiner = some q)
    (hst : ThreadGroup.step cfg s a = some t) : CycleInv cfg g k ph t := by
  cases a with
  | joinCall q | joinLock q | join q g' j rest o | joinDel q g' j rest | scanned q
  | joinUnlock q again | requeue q =>
    obtain ⟨-,rfl⟩ := guarded_eq_some.mp hst
    exact h.frame ⟨rfl,rfl,rfl⟩ rfl rfl
  | scan q g' rest =>
    obtain ⟨-,rfl⟩ := guarded_eq_some.mp hst
    split <;> exact h.frame ⟨rfl,rfl,rfl⟩ rfl rfl
  | joinPut q g' p rest =>
    obtain ⟨-,hmap⟩ := Option.ite_none_right_eq_some.mp hst
    obtain ⟨⟨u,p'⟩,hput,rfl⟩ := Option.map_eq_some_iff.mp hmap
    obtain ⟨_,_,_,rfl,-⟩ := put_eq hput
    exact h.frame ⟨rfl,rfl,rfl⟩ rfl rfl
  | _ => cases hp

theorem CycleInv.waiterStep (h : CycleInv cfg g k ph s)
    {a : Act ρ υ κ ω} {k' : ℕ} {ph' : Phase ρ ω} {w : ω} (hw : a.waiter = some w)
    (ha : advance cfg g k ph s a = some (k',ph')) (hst : ThreadGroup.step cfg s a = some t) :
    CycleInv cfg g k' ph' t := by
  cases a with
  | waitCall w => exact h.waitCall ha hst
  | waitReturn w => exact h.waitReturn ha hst
  | waitJoin w g' j rest o =>
    obtain ⟨rfl,rfl⟩ := Prod.mk.inj (Option.some.inj ha)
    exact h.waitJoin hst
  | waitNext w g' rest =>
    obtain ⟨rfl,rfl⟩ := Prod.mk.inj (Option.some.inj ha)
    obtain ⟨⟨hpc,-⟩,rfl⟩ := guarded_eq_some.mp hst
    refine h.wait ⟨rfl,rfl,rfl⟩ rfl rfl fun _ _ _ _ hp => Or.inl ?_
    rw [hpc]
    simpa [WaitPc.passed] using hp
  | waitLock w g' rest =>
    obtain ⟨rfl,rfl⟩ := Prod.mk.inj (Option.some.inj ha)
    obtain ⟨⟨hpc,-⟩,rfl⟩ := guarded_eq_some.mp hst
    exact h.wait ⟨rfl,rfl,rfl⟩ rfl rfl fun _ _ _ _ hp => Or.inl (by rw [hpc]; exact hp)
  | waitDel w g' rest | waitUnlock w g' rest =>
    obtain ⟨rfl,rfl⟩ := Prod.mk.inj (Option.some.inj ha)
    obtain ⟨hpc,rfl⟩ := guarded_eq_some.mp hst
    exact h.wait ⟨rfl,rfl,rfl⟩ rfl rfl fun _ _ _ _ hp => Or.inl (by rw [hpc]; exact hp)
  | spin w g' j rest =>
    obtain ⟨rfl,rfl⟩ := Prod.mk.inj (Option.some.inj ha)
    obtain ⟨⟨hpc,-⟩,rfl⟩ := guarded_eq_some.mp hst
    exact h.wait ⟨rfl,rfl,rfl⟩ rfl rfl fun _ _ _ _ hp => Or.inl (by rw [hpc]; exact hp)
  | spun w g' j rest =>
    obtain ⟨rfl,rfl⟩ := Prod.mk.inj (Option.some.inj ha)
    obtain ⟨⟨hpc,-⟩,rfl⟩ := guarded_eq_some.mp hst
    refine h.wait ⟨rfl,rfl,rfl⟩ rfl rfl fun _ _ l _ hp => Or.inl ?_
    rw [hpc]
    exact ⟨fun hg => Nat.not_lt_zero l (hp.2 hg),hp.1⟩
  | waitJoined w g' j rest =>
    obtain ⟨rfl,rfl⟩ := Prod.mk.inj (Option.some.inj ha)
    obtain ⟨⟨hpc,hj⟩,rfl⟩ := guarded_eq_some.mp hst
    refine h.wait ⟨rfl,rfl,rfl⟩ rfl rfl fun _ _ l hl hp => Or.inl ?_
    rw [hpc]
    refine ⟨hp,?_⟩
    rintro rfl
    omega
  | waitPut w g' p rest =>
    obtain ⟨rfl,rfl⟩ := Prod.mk.inj (Option.some.inj ha)
    obtain ⟨hpc,hmap⟩ := Option.ite_none_right_eq_some.mp hst
    obtain ⟨⟨u,p'⟩,hput,rfl⟩ := Option.map_eq_some_iff.mp hmap
    obtain ⟨_,_,_,rfl,-⟩ := put_eq hput
    refine h.wait ⟨rfl,rfl,rfl⟩ rfl rfl fun _ _ _ _ hp => Or.inl ?_
    rw [hpc]
    cases p' <;> exact hp
  | _ => cases hw

theorem CycleInv.step (h : CycleInv cfg g k ph s)
    (hrun : ∀ r, g ∈ cfg.groups r → cfg.isAsync r = true ∧ (cfg.groups r).count g = 1)
    {a : Act ρ υ κ ω} {k' : ℕ} {ph' : Phase ρ ω} (ha : advance cfg g k ph s a = some (k',ph'))
    (hst : ThreadGroup.step cfg s a = some t) : CycleInv cfg g k' ph' t := by
  obtain ⟨q,hp⟩ | ⟨i,hp⟩ | ⟨q,hp⟩ | ⟨w,hp⟩ := a.party
  · exact h.callerStep hrun hp ha hst
  · obtain ⟨rfl,rfl⟩ := Prod.mk.inj (Option.some.inj ((advance_worker hp).symm.trans ha))
    exact h.workerStep hrun hp hst
  · obtain ⟨rfl,rfl⟩ := Prod.mk.inj (Option.some.inj ((advance_joiner hp).symm.trans ha))
    exact h.joinerStep hp hst
  · exact h.waiterStep hp ha hst

section

omit [DecidableEq ρ] [DecidableEq υ] [DecidableEq κ] [DecidableEq ω]

theorem CycleInv.init : CycleInv cfg g 0 .between (ThreadGroup.init ρ υ κ ω) where
  count := by simp [ThreadGroup.init,tally,Phase.call]
  member := by rintro _ ⟨⟩
  ahead _ := List.nil_sublist _
  runners _ _ := List.not_mem_nil
  quiet _ _ _ := Or.inl rfl
  slots _ _ _ := rfl
  uncreated _ _ _ _ := rfl
  handle := by rintro _ ⟨⟩
  waiting := by rintro _ _ ⟨⟩

theorem CycleInv.tested_iff (h : CycleInv cfg g k ph s) {r : ρ} (hc : ph.call = some r) :
    s.nrExited g = cfg.nr g ↔
      k*(cfg.nr g).toNat+tally cfg g s (some r) ≡ (cfg.nr g).toNat [MOD 2^32] := by
  rw [h.count,hc,← BitVec.toNat_inj,BitVec.toNat_ofNat,Nat.ModEq,Nat.mod_eq_of_lt (cfg.nr g).isLt]

theorem tally_eq_iff {r : ρ} : tally cfg g s (some r) = (cfg.nr g).toNat ↔
    ∀ j < (cfg.nr g).toNat, (s.worker ⟨r,g,j⟩).cleaned = true := by
  have hiff := Finset.card_filter_eq_iff (s:=Finset.range (cfg.nr g).toNat)
    (p:=fun j => (s.worker ⟨r,g,j⟩).cleaned = true)
  rw [Finset.card_range] at hiff
  exact hiff.trans (forall_congr' fun j => by rw [Finset.mem_range])

theorem tally_le {r : ρ} : tally cfg g s (some r) ≤ (cfg.nr g).toNat :=
  (Finset.card_filter_le _ _).trans (Finset.card_range _).le

end

end Steps

/-- For every group, every number of completed cycles and every interleaving: in the next cycle
the test is exact if the counter starts at a multiple of 2^32, and wrong at its end if not. -/
theorem testedExactly (cfg : Config ρ ω) (g : Group)
    (hrun : ∀ r, g ∈ cfg.groups r → cfg.isAsync r = true ∧ (cfg.groups r).count g = 1)
    {s : Cycled ρ υ κ ω} (hs : Reach (stepCycles cfg g) Anything (.init ρ υ κ ω) s) {r : ρ}
    (hc : s.phase.call = some r) :
    (2^32 ∣ s.cycles*(cfg.nr g).toNat → TestedExactly cfg g r s.state) ∧
      ((∀ j < (cfg.nr g).toNat, (s.state.worker ⟨r,g,j⟩).cleaned = true) →
        TestedExactly cfg g r s.state → 2^32 ∣ s.cycles*(cfg.nr g).toNat) := by
  have hinv : CycleInv cfg g s.cycles s.phase s.state :=
    hs.invariant (I:=fun s => CycleInv cfg g s.cycles s.phase s.state) .init
      fun _ _ _ h _ hst => by
        obtain ⟨⟨k,ph⟩,ha,hmap⟩ := Option.bind_eq_some_iff.mp hst
        obtain ⟨_,hgo,rfl⟩ := Option.map_eq_some_iff.mp hmap
        exact h.step hrun ha hgo
  have htest := hinv.tested_iff hc
  have hle : tally cfg g s.state (some r) ≤ (cfg.nr g).toNat := tally_le
  have hlt := (cfg.nr g).isLt
  rw [TestedExactly,htest,← tally_eq_iff]
  refine ⟨fun hdvd => ?_,fun hall hiff => ?_⟩
  · have hzero := (Nat.modEq_zero_iff_dvd.mpr hdvd).add_right (tally cfg g s.state (some r))
    rw [Nat.zero_add] at hzero
    refine ⟨fun hmod => ?_,fun he => by rw [he] at hzero ⊢; exact hzero⟩
    exact (hzero.symm.trans hmod).eq_of_lt_of_lt (by omega) hlt
  · have hmod := hiff.mpr hall
    rw [hall] at hmod
    refine Nat.modEq_zero_iff_dvd.mp (Nat.ModEq.add_right_cancel' (cfg.nr g).toNat ?_)
    rw [Nat.zero_add]
    exact hmod

def cycled₁ : Group := ⟨12,by decide⟩

/-- One group of one thread, for a second cycle. -/
def config₂ : Config Bool Bool where
  groups := fun _ => [cycled₁]
  isAsync := fun _ => true
  waits := fun _ => [cycled₁]
  nr := fun _ => 1
  init := fun _ => false
  func := fun _ => false

def firstCycle : List (Act Bool Empty Unit Bool) :=
  [.runCall false,.runBegin false,.prepare false cycled₁ [],.runLock false cycled₁ [],
    .addTail false cycled₁ [],.runUnlock false cycled₁ [],.publish false cycled₁ [],
    .create false cycled₁ 0 [],.created false cycled₁ 1 [],.prepared false,.queueWork false,
    .waitCall false,.waitNext false cycled₁ [],.waitLock false cycled₁ [],
    .waitDel false cycled₁ [],.waitUnlock false cycled₁ [],
    .threadInit ⟨false,cycled₁,0⟩,.testObject ⟨false,cycled₁,0⟩,
    .argBarrier ⟨false,cycled₁,0⟩ false,.argCount ⟨false,cycled₁,0⟩ false false,
    .callBarrier ⟨false,cycled₁,0⟩ false 1,
    .barrier ⟨false,cycled₁,0⟩ false (.lock ⟨false,cycled₁,0⟩ (.inl false) 1),
    .barrier ⟨false,cycled₁,0⟩ false (.update ⟨false,cycled₁,0⟩ (.inl false) 1),
    .barrier ⟨false,cycled₁,0⟩ false (.unlock ⟨false,cycled₁,0⟩ (.inl false) .last),
    .barrier ⟨false,cycled₁,0⟩ false (.store ⟨false,cycled₁,0⟩ (.inl false)),
    .barrierReturn ⟨false,cycled₁,0⟩ false,.callFunc ⟨false,cycled₁,0⟩,
    .cleanup ⟨false,cycled₁,0⟩,.pthreadExit ⟨false,cycled₁,0⟩,
    .spin false cycled₁ 0 [],.spun false cycled₁ 1 [],.waitJoin false cycled₁ 0 [] false,
    .waitJoined false cycled₁ 1 [],.waitPut false cycled₁ .test [],.waitPut false cycled₁ .add [],
    .waitPut false cycled₁ .free [],.waitPut false cycled₁ .null [],.waitReturn false]

/-- In the second cycle the test holds as soon as the group is on the list. -/
theorem testedExactly_fails : ¬ ∀ s : Cycled Bool Empty Unit Bool,
    Reach (stepCycles config₂ cycled₁) Anything (.init Bool Empty Unit Bool) s →
    ∀ r, s.phase.call = some r → TestedExactly config₂ cycled₁ r s.state := by
  intro h
  have hs : (exec (stepCycles config₂ cycled₁) (.init Bool Empty Unit Bool) (firstCycle ++
      [.runCall true,.runBegin true,.prepare true cycled₁ [],.runLock true cycled₁ [],
        .addTail true cycled₁ [],.runUnlock true cycled₁ []])).map
      (fun s => (decide (s.phase = .running true),decide (s.state.head = [cycled₁]),
        decide (s.state.nrExited cycled₁ = 1),decide (s.state.worker ⟨true,cycled₁,0⟩ = .absent))) =
      some (true,true,true,true) := by decide
  obtain ⟨s,hs,hp⟩ := Option.map_eq_some_iff.mp hs
  simp only [Prod.mk.injEq,decide_eq_true_eq] at hp
  obtain ⟨hph,_,hn,hw⟩ := hp
  have hall := (h s (reach_of_exec hs) true (by rw [hph]; rfl)).mp hn 0 (by decide)
  rw [hw] at hall
  cases hall

/-- The first cycle, before and after the cleanup of its thread. -/
theorem testedExactly_first : ∃ s : Cycled Bool Empty Unit Bool,
    Reach (stepCycles config₂ cycled₁) Anything (.init Bool Empty Unit Bool) s ∧
      s.phase = .waiting false false ∧ s.state.worker ⟨false,cycled₁,0⟩ = .exiting ∧
      TestedExactly config₂ cycled₁ false s.state := by
  have hs : (exec (stepCycles config₂ cycled₁) (.init Bool Empty Unit Bool)
      (firstCycle.take 28)).map (fun s => (decide (s.phase = .waiting false false),s.cycles,
        decide (s.state.worker ⟨false,cycled₁,0⟩ = .exiting))) = some (true,0,true) := by decide
  obtain ⟨s,hs,hp⟩ := Option.map_eq_some_iff.mp hs
  simp only [Prod.mk.injEq,decide_eq_true_eq] at hp
  obtain ⟨hph,hk,hw⟩ := hp
  have hr := reach_of_exec hs
  exact ⟨s,hr,hph,hw,(testedExactly config₂ cycled₁ (by decide) hr (by rw [hph]; rfl)).1
    (by rw [hk,Nat.zero_mul]; exact dvd_zero _)⟩

end ThreadGroup
end Mthpc
