import Mthpc.ThreadGroup

/-!
# Who reaps an asynchronous group

`mthpc_thread_wq_join` reaps a group whose threads have exited and
`__mthpc_thread_async_wait` reaps the groups it is given, without asking whether the
other has been there. The counter and the joins stay right in the runs where the wait
finds its group still linked.
-/
namespace Mthpc
namespace ThreadGroup

open StepSystem

variable {ρ υ κ ω : Type} [DecidableEq ρ] [DecidableEq υ] [DecidableEq κ] [DecidableEq ω]

/-- Every group is in the array of one call at most, and only once in it. -/
def Config.StartedOnce (cfg : Config ρ ω) : Prop :=
  (∀ r, (cfg.groups r).Nodup) ∧ ∀ r r' g, g ∈ cfg.groups r → g ∈ cfg.groups r' → r = r'

/-- The group is started by `__mthpc_thread_async_run`. -/
def Config.AsyncGroup (cfg : Config ρ ω) (g : Group) : Prop :=
  ∃ r, cfg.isAsync r = true ∧ g ∈ cfg.groups r

/-- Whenever the lock is free the counter is the number of linked groups, and no thread of
an asynchronous group is joined twice. -/
structure ReapedOnce (cfg : Config ρ ω) (s : State ρ υ κ ω) : Prop where
  counter : s.lock = none → s.nrGroup.toNat = s.head.length
  joins : ∀ i, cfg.AsyncGroup i.group → s.joined i ≤ 1

/-- `async_wait` takes a group off the list that is still on it. -/
def WaitOwns (s : State ρ υ κ ω) : Act ρ υ κ ω → Prop
  | .waitDel _ g _ => g ∈ s.head
  | _ => True

instance (s : State ρ υ κ ω) (a : Act ρ υ κ ω) : Decidable (WaitOwns s a) := by
  cases a <;> unfold WaitOwns <;> infer_instance

def RunPc.holds : RunPc → Bool
  | .add _ _ | .unlock _ _ => true
  | _ => false

def JoinPc.holds : JoinPc → Bool
  | .scan _ | .join _ _ _ | .put _ _ _ | .unlock _ => true
  | _ => false

def WaitPc.holds : WaitPc → Bool
  | .del _ _ | .unlock _ _ => true
  | _ => false

/-- The party is between its lock and its unlock. -/
def State.holds (s : State ρ υ κ ω) : Party ρ κ ω → Bool
  | .runner r => (s.runner r).holds
  | .joiner k => (s.joiner k).holds
  | .waiter w => (s.waiter w).holds

/-- The slots below `j` were passed to `pthread_join` once at most, the others never. -/
def JoinedBelow (s : State ρ υ κ ω) (g : Group) (j : ℕ) : Prop :=
  ∀ o i, s.joined ⟨o,g,i⟩ ≤ if i < j then 1 else 0

def RunPc.pending (groups : List Group) : RunPc → List Group
  | .idle | .begin => groups
  | .prepare rest | .unlock _ rest | .publish _ rest | .create _ _ rest => rest
  | .lock g rest | .add g rest => g::rest
  | .join _ _ | .queue | .done | .failed => []

structure RunOk (cfg : Config ρ ω) (s : State ρ υ κ ω) (r : ρ) (pc : RunPc) : Prop where
  sub : (pc.pending (cfg.groups r)).Sublist (cfg.groups r)
  fresh : cfg.isAsync r = true → ∀ g ∈ pc.pending (cfg.groups r), s.stage g = .fresh
  linking : ∀ g rest, pc = .lock g rest ∨ pc = .add g rest → cfg.isAsync r = true
  joining : ∀ todo j, pc = .join todo j → cfg.isAsync r = false ∧ todo ⊆ cfg.groups r

def JoinOk (s : State ρ υ κ ω) (k : κ) : JoinPc → Prop
  | .scan rest | .put _ _ rest => rest.Sublist s.head
  | .join g j rest => (g::rest).Sublist s.head ∧ s.stage g = .joining k ∧ JoinedBelow s g j
  | _ => True

def WaitOk (s : State ρ υ κ ω) (w : ω) : WaitPc → Prop
  | .unlock g _ | .spin g _ _ => s.stage g = .waited w ∧ JoinedBelow s g 0
  | .join g j _ => s.stage g = .waited w ∧ JoinedBelow s g j
  | _ => True

theorem JoinOk.congr {ρ υ κ ω : Type} {s t : State ρ υ κ ω} {k : κ} {pc : JoinPc}
    (h : JoinOk s k pc) (hh : t.head = s.head) (hs : t.stage = s.stage) (hj : t.joined = s.joined) :
    JoinOk t k pc := by
  cases pc with
  | idle | lock | unlock | requeue => trivial
  | scan rest | put g p rest => simpa only [JoinOk,hh] using h
  | join g j rest => simpa only [JoinOk,JoinedBelow,hh,hs,hj] using h

theorem WaitOk.congr {ρ υ κ ω : Type} {s t : State ρ υ κ ω} {w : ω} {pc : WaitPc}
    (h : WaitOk s w pc) (hs : t.stage = s.stage) (hj : t.joined = s.joined) : WaitOk t w pc := by
  cases pc with
  | idle | next | lock | del | put | done => trivial
  | unlock g rest | spin g j rest | join g j rest =>
    simpa only [WaitOk,JoinedBelow,hs,hj] using h

/-- What a party knows at its own point. -/
def Own (cfg : Config ρ ω) (s : State ρ υ κ ω) : Party ρ κ ω → Prop
  | .runner r => RunOk cfg s r (s.runner r)
  | .joiner k => JoinOk s k (s.joiner k)
  | .waiter w => WaitOk s w (s.waiter w)

/-- What the stage of a group says about the list and the joins. -/
structure GroupOk (cfg : Config ρ ω) (s : State ρ υ κ ω) (g : Group) : Prop where
  mem : g ∈ s.head ↔ s.stage g = .linked ∨ ∃ k, s.stage g = .joining k
  async : s.stage g ≠ .fresh → cfg.AsyncGroup g
  joining : ∀ k, s.stage g = .joining k → ∃ j rest, s.joiner k = .join g j rest
  untouched : cfg.AsyncGroup g → s.stage g = .fresh ∨ s.stage g = .linked → JoinedBelow s g 0
  once : cfg.AsyncGroup g → ∀ o i, s.joined ⟨o,g,i⟩ ≤ 1

structure ReapInv (cfg : Config ρ ω) (s : State ρ υ κ ω) : Prop where
  holder : ∀ p, s.holds p = true ↔ s.lock = some p
  nodup : s.head.Nodup
  count : s.nrGroup = BitVec.ofNat 64 s.head.length
  group : ∀ g, GroupOk cfg s g
  own : ∀ p, Own cfg s p

theorem JoinedBelow.once {ρ υ κ ω : Type} {s : State ρ υ κ ω} {g : Group} {j : ℕ}
    (h : JoinedBelow s g j) (o : ρ) (i : ℕ) : s.joined ⟨o,g,i⟩ ≤ 1 := by
  have hi := h o i
  split at hi <;> omega

theorem JoinedBelow.next {ρ υ κ ω : Type} [DecidableEq ρ] {s t : State ρ υ κ ω} {g : Group} {j : ℕ}
    {o : ρ} (h : JoinedBelow s g j)
    (ht : t.joined = Function.update s.joined ⟨o,g,j⟩ (s.joined ⟨o,g,j⟩+1)) :
    JoinedBelow t g (j+1) := by
  intro q i
  rw [ht]
  by_cases he : (⟨q,g,i⟩ : Thread ρ) = ⟨o,g,j⟩
  · have hj := h o j
    rw [he,Function.update_self]
    obtain ⟨-,-,rfl⟩ := Thread.mk.injEq .. ▸ he
    simp at hj ⊢
    omega
  · rw [Function.update_of_ne he]
    refine (h q i).trans ?_
    split <;> split <;> omega

/-- Stage, joins and linkage of the group are the same in both states. -/
def Same (s t : State ρ υ κ ω) (g : Group) : Prop :=
  t.stage g = s.stage g ∧ (∀ o i, t.joined ⟨o,g,i⟩ = s.joined ⟨o,g,i⟩) ∧
    (g ∈ t.head ↔ g ∈ s.head)

/-- No other party relies on the stage or the joins of the group. -/
def Mine (cfg : Config ρ ω) (s : State ρ υ κ ω) (p : Party ρ κ ω) (g : Group) : Prop :=
  match s.stage g with
  | .fresh => ∃ r, p = .runner r ∧ g ∈ cfg.groups r
  | .linked => True
  | .joining k => p = .joiner k
  | .waited w => p = .waiter w
  | .reaped => False

theorem JoinedBelow.same {ρ υ κ ω : Type} {s t : State ρ υ κ ω} {g : Group} {j : ℕ}
    (h : JoinedBelow s g j) (hs : Same s t g) : JoinedBelow t g j := by
  intro o i
  rw [hs.2.1]
  exact h o i

/-- Only the party `p` has moved. -/
structure Moves (s t : State ρ υ κ ω) (p : Party ρ κ ω) : Prop where
  runner : ∀ r, .runner r ≠ p → t.runner r = s.runner r
  joiner : ∀ k, .joiner k ≠ p → t.joiner k = s.joiner k
  waiter : ∀ w, .waiter w ≠ p → t.waiter w = s.waiter w

theorem Moves.ofRunner {ρ υ κ ω : Type} [DecidableEq ρ] {s t : State ρ υ κ ω} {r : ρ} {pc : RunPc}
    (hr : t.runner = Function.update s.runner r pc) (hj : t.joiner = s.joiner)
    (hw : t.waiter = s.waiter) : Moves s t (.runner r) where
  runner q hq := by rw [hr,Function.update_of_ne fun he => hq (by rw [he])]
  joiner _ _ := by rw [hj]
  waiter _ _ := by rw [hw]

theorem Moves.ofJoiner {ρ υ κ ω : Type} [DecidableEq κ] {s t : State ρ υ κ ω} {k : κ} {pc : JoinPc}
    (hj : t.joiner = Function.update s.joiner k pc) (hr : t.runner = s.runner)
    (hw : t.waiter = s.waiter) : Moves s t (.joiner k) where
  runner _ _ := by rw [hr]
  joiner q hq := by rw [hj,Function.update_of_ne fun he => hq (by rw [he])]
  waiter _ _ := by rw [hw]

theorem Moves.ofWaiter {ρ υ κ ω : Type} [DecidableEq ω] {s t : State ρ υ κ ω} {w : ω} {pc : WaitPc}
    (hw : t.waiter = Function.update s.waiter w pc) (hr : t.runner = s.runner)
    (hj : t.joiner = s.joiner) : Moves s t (.waiter w) where
  runner _ _ := by rw [hr]
  joiner _ _ := by rw [hj]
  waiter q hq := by rw [hw,Function.update_of_ne fun he => hq (by rw [he])]

/-- `p` takes the lock, gives it back, or leaves it as it is. -/
def LockMove (s t : State ρ υ κ ω) (p : Party ρ κ ω) : Prop :=
  s.lock = none ∧ t.lock = some p ∧ t.holds p = true ∨
  s.holds p = true ∧ t.lock = none ∧ t.holds p = false ∨
  t.lock = s.lock ∧ t.holds p = s.holds p

theorem Own.frame {ρ υ κ ω : Type} {cfg : Config ρ ω} {s t : State ρ υ κ ω} {p q : Party ρ κ ω}
    (honce : cfg.StartedOnce) (h : Own cfg s q) (hne : q ≠ p) (hm : Moves s t p)
    (hhead : s.holds q = true → t.head = s.head)
    (hgroup : ∀ g, Same s t g ∨ Mine cfg s p g) : Own cfg t q := by
  cases q with
  | runner r =>
    simp only [Own,hm.runner r hne] at h ⊢
    refine ⟨h.sub,fun ha g hg => ?_,h.linking,h.joining⟩
    have hf := h.fresh ha g hg
    rcases hgroup g with hs | hm
    · exact hs.1.trans hf
    · simp only [Mine,hf] at hm
      obtain ⟨r',rfl,hg'⟩ := hm
      exact absurd (by rw [honce.2 r r' g (h.sub.subset hg) hg']) hne
  | joiner k =>
    simp only [Own,hm.joiner k hne] at h ⊢
    simp only [State.holds] at hhead
    cases hpc : s.joiner k with
    | idle | lock | unlock | requeue => trivial
    | scan rest | put g p rest =>
      rw [hpc] at h hhead
      simp only [JoinOk,hhead rfl] at h ⊢
      exact h
    | join g j rest =>
      rw [hpc] at h hhead
      obtain ⟨hsub,hst,hb⟩ := h
      rcases hgroup g with hs | hm
      · exact ⟨by rw [hhead rfl]; exact hsub,hs.1.trans hst,hb.same hs⟩
      · simp only [Mine,hst] at hm
        exact absurd hm.symm hne
  | waiter w =>
    simp only [Own,hm.waiter w hne] at h ⊢
    have hmine : ∀ g, s.stage g = .waited w → Same s t g := by
      intro g hg
      refine (hgroup g).resolve_right fun hm => ?_
      simp only [Mine,hg] at hm
      exact hne hm.symm
    cases hpc : s.waiter w with
    | idle | next | lock | del | put | done => trivial
    | unlock g rest | spin g j rest | join g j rest =>
      rw [hpc] at h
      exact ⟨(hmine g h.1).1.trans h.1,h.2.same (hmine g h.1)⟩

/-- The step of one party: it changes its own point, the list if it holds the lock, and the
groups nobody else relies on. -/
theorem ReapInv.move {ρ υ κ ω : Type} [DecidableEq ρ] [DecidableEq κ] [DecidableEq ω]
    {cfg : Config ρ ω} {s t : State ρ υ κ ω} (h : ReapInv cfg s)
    (honce : cfg.StartedOnce) {p : Party ρ κ ω} (hm : Moves s t p) (hlock : LockMove s t p)
    (hhead : s.holds p = true ∨ t.head = s.head) (hnodup : t.head.Nodup)
    (hcount : t.nrGroup = BitVec.ofNat 64 t.head.length)
    (hgroup : ∀ g, Same s t g ∧ (∀ k, p = .joiner k → s.stage g ≠ .joining k) ∨
      Mine cfg s p g ∧ GroupOk cfg t g)
    (hown : Own cfg t p) : ReapInv cfg t := by
  have hholds : ∀ q, q ≠ p → t.holds q = s.holds q := by
    intro q hq
    cases q with
    | runner r => simp only [State.holds,hm.runner r hq]
    | joiner k => simp only [State.holds,hm.joiner k hq]
    | waiter w => simp only [State.holds,hm.waiter w hq]
  refine ⟨fun q => ?_,hnodup,hcount,fun g => ?_,fun q => ?_⟩
  · have hp := h.holder p
    by_cases hq : q = p
    · subst hq
      rcases hlock with ⟨_,hl,hh⟩ | ⟨_,hl,hh⟩ | ⟨hl,hh⟩
      · simp [hl,hh]
      · simp [hl,hh]
      · rw [hl,hh]; exact hp
    · rw [hholds q hq,h.holder q]
      rcases hlock with ⟨hs,hl,_⟩ | ⟨hs,hl,_⟩ | ⟨hl,_⟩
      · simp [hl,hs,Ne.symm hq]
      · simp [hl,hp.mp hs,Ne.symm hq]
      · rw [hl]
  · rcases hgroup g with ⟨hs,hk⟩ | ⟨_,hg⟩
    · have hg := h.group g
      refine ⟨by rw [hs.2.2,hs.1]; exact hg.mem,by rw [hs.1]; exact hg.async,?_,?_,?_⟩
      · intro k hst
        rw [hs.1] at hst
        obtain ⟨j,rest,hpc⟩ := hg.joining k hst
        exact ⟨j,rest,by rw [hm.joiner k fun he => hk k he.symm hst]; exact hpc⟩
      · intro ha hst
        rw [hs.1] at hst
        exact (hg.untouched ha hst).same hs
      · intro ha o i
        rw [hs.2.1]
        exact hg.once ha o i
    · exact hg
  · by_cases hq : q = p
    · subst hq; exact hown
    · refine (h.own q).frame honce hq hm (fun hh => ?_) fun g => (hgroup g).imp And.left And.left
      rcases hhead with hl | hl
      · rw [h.holder] at hl hh
        rw [hl] at hh
        exact absurd (Option.some.inj hh).symm hq
      · exact hl

theorem ReapInv.walk {ρ υ κ ω : Type} [DecidableEq ρ] [DecidableEq κ] [DecidableEq ω]
    {cfg : Config ρ ω} {s t : State ρ υ κ ω} (h : ReapInv cfg s)
    (honce : cfg.StartedOnce) {p : Party ρ κ ω} (hm : Moves s t p) (hlock : LockMove s t p)
    (hhead : t.head = s.head) (hnr : t.nrGroup = s.nrGroup) (hstage : t.stage = s.stage)
    (hjoined : t.joined = s.joined)
    (hk : ∀ k, p = .joiner k → ∀ g j rest, s.joiner k ≠ .join g j rest)
    (hown : Own cfg t p) : ReapInv cfg t := by
  refine h.move honce hm hlock (Or.inr hhead) (by rw [hhead]; exact h.nodup)
    (by rw [hhead,hnr]; exact h.count) (fun g => Or.inl ⟨?_,?_⟩) hown
  · exact ⟨by rw [hstage],by rw [hjoined]; exact fun _ _ => rfl,by rw [hhead]⟩
  · intro k hp hst
    obtain ⟨j,rest,hpc⟩ := (h.group g).joining k hst
    exact hk k hp g j rest hpc

theorem ReapInv.walkRunner {ρ υ κ ω : Type} [DecidableEq ρ] [DecidableEq κ] [DecidableEq ω]
    {cfg : Config ρ ω} {s t : State ρ υ κ ω} (h : ReapInv cfg s)
    (honce : cfg.StartedOnce) {r : ρ} {pc : RunPc}
    (hr : t.runner = Function.update s.runner r pc) (hj : t.joiner = s.joiner)
    (hw : t.waiter = s.waiter) (hlock : LockMove s t (.runner r)) (hhead : t.head = s.head)
    (hnr : t.nrGroup = s.nrGroup) (hstage : t.stage = s.stage) (hjoined : t.joined = s.joined)
    (hown : RunOk cfg s r (s.runner r) → RunOk cfg s r pc) : ReapInv cfg t := by
  refine h.walk honce (.ofRunner hr hj hw) hlock hhead hnr hstage hjoined nofun ?_
  have hs := hown (h.own (.runner r))
  simp only [Own,hr,Function.update_self]
  exact ⟨hs.sub,fun ha g hg => by rw [hstage]; exact hs.fresh ha g hg,hs.linking,hs.joining⟩

theorem RunOk.next {ρ υ κ ω : Type} {cfg : Config ρ ω} {s : State ρ υ κ ω} {r : ρ} {pc pc' : RunPc}
    (h : RunOk cfg s r pc) (hp : (pc'.pending (cfg.groups r)).Sublist (pc.pending (cfg.groups r)))
    (hl : ∀ g rest, pc' = .lock g rest ∨ pc' = .add g rest → cfg.isAsync r = true)
    (hj : ∀ todo j, pc' = .join todo j → cfg.isAsync r = false ∧ todo ⊆ cfg.groups r) :
    RunOk cfg s r pc' :=
  ⟨hp.trans h.sub,fun ha g hg => h.fresh ha g (hp.subset hg),hl,hj⟩

theorem LockMove.keep {ρ υ κ ω : Type} {s t : State ρ υ κ ω} {p : Party ρ κ ω}
    (hl : t.lock = s.lock) (hh : t.holds p = s.holds p) : LockMove s t p := Or.inr (Or.inr ⟨hl,hh⟩)

theorem ReapInv.addTail {cfg : Config ρ ω} {s t : State ρ υ κ ω} (h : ReapInv cfg s)
    (honce : cfg.StartedOnce) {r : ρ} {g : Group} {rest : List Group}
    (hst : step cfg s (.addTail r g rest) = some t) : ReapInv cfg t := by
  obtain ⟨hpc,rfl⟩ := guarded_eq_some.mp hst
  have hrun : RunOk cfg s r (.add g rest) := by
    have ho := h.own (.runner r)
    simpa only [Own,hpc] using ho
  have hasync := hrun.linking g rest (Or.inr rfl)
  have hg : g ∈ cfg.groups r := hrun.sub.subset (List.mem_cons_self)
  have hfresh := hrun.fresh hasync g List.mem_cons_self
  have hG := h.group g
  have hnot : g ∉ s.head := fun hm => by simpa [hfresh] using hG.mem.mp hm
  refine h.move honce (.ofRunner rfl rfl rfl) (.keep rfl (by simp [State.holds,hpc,RunPc.holds]))
    (Or.inl (by simp [State.holds,hpc,RunPc.holds])) ?_ ?_ (fun g' => ?_) ?_
  · simpa [List.nodup_append] using ⟨h.nodup,fun a ha hag => hnot (hag ▸ ha)⟩
  · simp [h.count,BitVec.ofNat_add]
  · by_cases hgg : g' = g
    · subst hgg
      refine Or.inr ⟨by simp only [Mine,hfresh]; exact ⟨r,rfl,hg⟩,?_⟩
      exact ⟨by simp,fun _ => ⟨r,hasync,hg⟩,fun k hk => by simp at hk,
        fun ha _ => hG.untouched ha (Or.inl hfresh),hG.once⟩
    · exact Or.inl ⟨⟨by simp [hgg],fun _ _ => rfl,by simp [hgg]⟩,nofun⟩
  · simp only [Own,Function.update_self]
    have hnd : (g::rest).Nodup := hrun.sub.nodup (honce.1 r)
    refine ⟨(List.sublist_cons_self g rest).trans hrun.sub,fun ha g' hg' => ?_,nofun,nofun⟩
    have hne : g' ≠ g := fun he => (List.nodup_cons.mp hnd).1 (he ▸ hg')
    simpa [hne] using hrun.fresh ha g' (List.mem_cons_of_mem g hg')

theorem ReapInv.linked {ρ υ κ ω : Type} {cfg : Config ρ ω} {s : State ρ υ κ ω} (h : ReapInv cfg s)
    {p : Party ρ κ ω} (hp : s.holds p = true)
    (hk : ∀ k, p = .joiner k → ∀ g j rest, s.joiner k ≠ .join g j rest) {g : Group}
    (hg : g ∈ s.head) : s.stage g = .linked := by
  refine ((h.group g).mem.mp hg).resolve_right ?_
  rintro ⟨k,hs⟩
  obtain ⟨j,rest,hpc⟩ := (h.group g).joining k hs
  have hh : s.holds (.joiner k) = true := by simp [State.holds,hpc,JoinPc.holds]
  rw [h.holder] at hp hh
  rw [hp] at hh
  exact hk k (Option.some.inj hh) g j rest hpc

theorem ReapInv.count_erase {ρ υ κ ω : Type} {cfg : Config ρ ω} {s : State ρ υ κ ω}
    (h : ReapInv cfg s) {g : Group}
    (hg : g ∈ s.head) : s.nrGroup-1 = BitVec.ofNat 64 (s.head.erase g).length := by
  have hlen : s.head.length = (s.head.erase g).length+1 := by
    have hpos := List.length_pos_of_mem hg
    rw [List.length_erase_of_mem hg]
    omega
  rw [h.count,hlen,BitVec.ofNat_add]
  exact BitVec.add_sub_cancel _ _

theorem same_of_ne {ρ υ κ ω : Type} [DecidableEq ρ] {s t : State ρ υ κ ω} {g g' : Group} {o : ρ}
    {j c : ℕ} (hne : g' ≠ g) (hs : t.stage = s.stage) (hh : t.head = s.head)
    (hj : t.joined = Function.update s.joined ⟨o,g,j⟩ c) : Same s t g' := by
  refine ⟨by rw [hs],fun q i => ?_,by rw [hh]⟩
  rw [hj,Function.update_of_ne]
  intro he
  exact hne (Thread.mk.inj he).2.1

theorem ReapInv.scan {cfg : Config ρ ω} {s t : State ρ υ κ ω} (h : ReapInv cfg s)
    (honce : cfg.StartedOnce) {k : κ} {g : Group} {rest : List Group}
    (hst : step cfg s (.scan k g rest) = some t) : ReapInv cfg t := by
  obtain ⟨hpc,ht⟩ := guarded_eq_some.mp hst
  have hsub : JoinOk s k (.scan (g::rest)) := by
    have ho := h.own (.joiner k)
    simpa only [Own,hpc] using ho
  simp only [JoinOk] at hsub
  have hholds : s.holds (.joiner k) = true := by simp [State.holds,hpc,JoinPc.holds]
  have hnojoin : ∀ q, (.joiner k : Party ρ κ ω) = .joiner q →
      ∀ g j rest, s.joiner q ≠ .join g j rest := by
    intro q hq
    cases hq
    rw [hpc]
    nofun
  split at ht <;> subst ht
  · have hmem : g ∈ s.head := hsub.subset List.mem_cons_self
    have hlinked := h.linked hholds hnojoin hmem
    have hG := h.group g
    refine h.move honce (.ofJoiner rfl rfl rfl)
      (.keep rfl (by simp [State.holds,hpc,JoinPc.holds])) (Or.inl hholds) h.nodup h.count
      (fun g' => ?_) ?_
    · by_cases hgg : g' = g
      · subst hgg
        refine Or.inr ⟨by simp only [Mine,hlinked],?_⟩
        exact ⟨by simp [hmem],fun _ => hG.async (by simp [hlinked]),
          fun q hq => ⟨0,rest,by simp at hq ⊢; simp [← hq]⟩,fun _ hf => by simp at hf,hG.once⟩
      · refine Or.inl ⟨⟨by simp [hgg],fun _ _ => rfl,Iff.rfl⟩,fun q hq hs => ?_⟩
        obtain ⟨j,rest',hpc'⟩ := (h.group g').joining q hs
        exact hnojoin q hq g' j rest' hpc'
    · simp only [Own,Function.update_self]
      exact ⟨hsub,by simp,hG.untouched (hG.async (by simp [hlinked])) (Or.inr hlinked)⟩
  · refine h.walk honce (.ofJoiner rfl rfl rfl)
      (.keep rfl (by simp [State.holds,hpc,JoinPc.holds])) rfl rfl rfl rfl hnojoin ?_
    simp only [Own,Function.update_self]
    exact (List.sublist_cons_self g rest).trans hsub

theorem ReapInv.join {cfg : Config ρ ω} {s t : State ρ υ κ ω} (h : ReapInv cfg s)
    (honce : cfg.StartedOnce) {k : κ} {g : Group} {j : ℕ} {rest : List Group} {o : ρ}
    (hst : step cfg s (.join k g j rest o) = some t) : ReapInv cfg t := by
  obtain ⟨⟨hpc,-⟩,rfl⟩ := guarded_eq_some.mp hst
  obtain ⟨hsub,hstage,hb⟩ : JoinOk s k (.join g j rest) := by
    have ho := h.own (.joiner k)
    simpa only [Own,hpc] using ho
  have hG := h.group g
  have hb' := hb.next (t:={ s with
    joiner := Function.update s.joiner k (.join g (j+1) rest)
    joined := Function.update s.joined ⟨o,g,j⟩ (s.joined ⟨o,g,j⟩+1) }) rfl
  refine h.move honce (.ofJoiner rfl rfl rfl)
    (.keep rfl (by simp [State.holds,hpc,JoinPc.holds])) (Or.inr rfl) h.nodup h.count
    (fun g' => ?_) ?_
  · by_cases hgg : g' = g
    · subst hgg
      refine Or.inr ⟨by simp only [Mine,hstage],?_⟩
      refine ⟨hG.mem,hG.async,fun q hq => ?_,fun _ hf => by simp [hstage] at hf,
        fun _ => hb'.once⟩
      obtain rfl : k = q := by simpa [hstage] using hq
      exact ⟨j+1,rest,by simp⟩
    · refine Or.inl ⟨same_of_ne hgg rfl rfl rfl,fun q hq hs => ?_⟩
      cases hq
      obtain ⟨j',rest',hpc'⟩ := (h.group g').joining k hs
      rw [hpc] at hpc'
      exact hgg (JoinPc.join.inj hpc').1.symm
  · simp only [Own,Function.update_self]
    exact ⟨hsub,hstage,hb'⟩

theorem ReapInv.joinDel {cfg : Config ρ ω} {s t : State ρ υ κ ω} (h : ReapInv cfg s)
    (honce : cfg.StartedOnce) {k : κ} {g : Group} {j : ℕ} {rest : List Group}
    (hst : step cfg s (.joinDel k g j rest) = some t) : ReapInv cfg t := by
  obtain ⟨⟨hpc,-⟩,rfl⟩ := guarded_eq_some.mp hst
  obtain ⟨hsub,hstage,hb⟩ : JoinOk s k (.join g j rest) := by
    have ho := h.own (.joiner k)
    simpa only [Own,hpc] using ho
  have hG := h.group g
  have hmem : g ∈ s.head := hsub.subset List.mem_cons_self
  refine h.move honce (.ofJoiner rfl rfl rfl)
    (.keep rfl (by simp [State.holds,hpc,JoinPc.holds]))
    (Or.inl (by simp [State.holds,hpc,JoinPc.holds])) (h.nodup.erase g) (h.count_erase hmem)
    (fun g' => ?_) ?_
  · by_cases hgg : g' = g
    · subst hgg
      refine Or.inr ⟨by simp only [Mine,hstage],?_⟩
      exact ⟨by simp [h.nodup.mem_erase_iff],fun _ => hG.async (by simp [hstage]),
        fun q hq => by simp at hq,fun _ hf => by simp at hf,hG.once⟩
    · refine Or.inl ⟨⟨by simp [hgg],fun _ _ => rfl,by simp [h.nodup.mem_erase_iff,hgg]⟩,
        fun q hq hs => ?_⟩
      cases hq
      obtain ⟨j',rest',hpc'⟩ := (h.group g').joining k hs
      rw [hpc] at hpc'
      exact hgg (JoinPc.join.inj hpc').1.symm
  · simp only [Own,Function.update_self]
    have he := hsub.erase g
    rwa [List.erase_cons_head] at he

theorem ReapInv.waitDel {cfg : Config ρ ω} {s t : State ρ υ κ ω} (h : ReapInv cfg s)
    (honce : cfg.StartedOnce) {w : ω} {g : Group} {rest : List Group} (hmem : g ∈ s.head)
    (hst : step cfg s (.waitDel w g rest) = some t) : ReapInv cfg t := by
  obtain ⟨hpc,rfl⟩ := guarded_eq_some.mp hst
  have hholds : s.holds (.waiter w) = true := by simp [State.holds,hpc,WaitPc.holds]
  have hlinked := h.linked hholds nofun hmem
  have hG := h.group g
  refine h.move honce (.ofWaiter rfl rfl rfl)
    (.keep rfl (by simp [State.holds,hpc,WaitPc.holds])) (Or.inl hholds) (h.nodup.erase g)
    (h.count_erase hmem) (fun g' => ?_) ?_
  · by_cases hgg : g' = g
    · subst hgg
      refine Or.inr ⟨by simp only [Mine,hlinked],?_⟩
      exact ⟨by simp [h.nodup.mem_erase_iff],fun _ => hG.async (by simp [hlinked]),
        fun q hq => by simp at hq,fun _ hf => by simp at hf,hG.once⟩
    · exact Or.inl ⟨⟨by simp [hgg],fun _ _ => rfl,by simp [h.nodup.mem_erase_iff,hgg]⟩,nofun⟩
  · simp only [Own,Function.update_self]
    exact ⟨by simp,hG.untouched (hG.async (by simp [hlinked])) (Or.inr hlinked)⟩

theorem ReapInv.waitJoin {cfg : Config ρ ω} {s t : State ρ υ κ ω} (h : ReapInv cfg s)
    (honce : cfg.StartedOnce) {w : ω} {g : Group} {j : ℕ} {rest : List Group} {o : ρ}
    (hst : step cfg s (.waitJoin w g j rest o) = some t) : ReapInv cfg t := by
  obtain ⟨⟨hpc,-⟩,rfl⟩ := guarded_eq_some.mp hst
  obtain ⟨hstage,hb⟩ : WaitOk s w (.join g j rest) := by
    have ho := h.own (.waiter w)
    simpa only [Own,hpc] using ho
  have hG := h.group g
  have hb' := hb.next (t:={ s with
    waiter := Function.update s.waiter w (.join g (j+1) rest)
    joined := Function.update s.joined ⟨o,g,j⟩ (s.joined ⟨o,g,j⟩+1) }) rfl
  refine h.move honce (.ofWaiter rfl rfl rfl)
    (.keep rfl (by simp [State.holds,hpc,WaitPc.holds])) (Or.inr rfl) h.nodup h.count
    (fun g' => ?_) ?_
  · by_cases hgg : g' = g
    · subst hgg
      refine Or.inr ⟨by simp only [Mine,hstage],?_⟩
      exact ⟨hG.mem,hG.async,fun q hq => by simp [hstage] at hq,
        fun _ hf => by simp [hstage] at hf,fun _ => hb'.once⟩
    · exact Or.inl ⟨same_of_ne hgg rfl rfl rfl,nofun⟩
  · simp only [Own,Function.update_self]
    exact ⟨hstage,hb'⟩

theorem ReapInv.waitJoined {cfg : Config ρ ω} {s t : State ρ υ κ ω} (h : ReapInv cfg s)
    (honce : cfg.StartedOnce) {w : ω} {g : Group} {j : ℕ} {rest : List Group}
    (hst : step cfg s (.waitJoined w g j rest) = some t) : ReapInv cfg t := by
  obtain ⟨⟨hpc,-⟩,rfl⟩ := guarded_eq_some.mp hst
  obtain ⟨hstage,-⟩ : WaitOk s w (.join g j rest) := by
    have ho := h.own (.waiter w)
    simpa only [Own,hpc] using ho
  have hG := h.group g
  refine h.move honce (.ofWaiter rfl rfl rfl)
    (.keep rfl (by simp [State.holds,hpc,WaitPc.holds])) (Or.inr rfl) h.nodup h.count
    (fun g' => ?_) (by simp only [Own,Function.update_self]; trivial)
  by_cases hgg : g' = g
  · subst hgg
    refine Or.inr ⟨by simp only [Mine,hstage],?_⟩
    exact ⟨by simpa [hstage] using hG.mem,fun _ => hG.async (by simp [hstage]),
      fun q hq => by simp at hq,fun _ hf => by simp at hf,hG.once⟩
  · exact Or.inl ⟨⟨by simp [hgg],fun _ _ => rfl,Iff.rfl⟩,nofun⟩

theorem ReapInv.runJoin {cfg : Config ρ ω} {s t : State ρ υ κ ω} (h : ReapInv cfg s)
    (honce : cfg.StartedOnce) {r : ρ} {g : Group} {rest : List Group} {j : ℕ} {o : ρ}
    (hst : step cfg s (.runJoin r g rest j o) = some t) : ReapInv cfg t := by
  obtain ⟨⟨hpc,-⟩,rfl⟩ := guarded_eq_some.mp hst
  have hrun : RunOk cfg s r (.join (g::rest) j) := by
    have ho := h.own (.runner r)
    simpa only [Own,hpc] using ho
  obtain ⟨hsync,hsub⟩ := hrun.joining _ _ rfl
  have hg : g ∈ cfg.groups r := hsub List.mem_cons_self
  have hnot : ¬ cfg.AsyncGroup g := by
    rintro ⟨r',ha,hg'⟩
    rw [honce.2 r' r g hg' hg,hsync] at ha
    simp at ha
  have hG := h.group g
  have hfresh : s.stage g = .fresh := by
    by_contra hs
    exact hnot (hG.async hs)
  refine h.move honce (.ofRunner rfl rfl rfl)
    (.keep rfl (by simp [State.holds,hpc,RunPc.holds])) (Or.inr rfl) h.nodup h.count
    (fun g' => ?_) ?_
  · by_cases hgg : g' = g
    · subst hgg
      refine Or.inr ⟨by simp only [Mine,hfresh]; exact ⟨r,rfl,hg⟩,?_⟩
      exact ⟨hG.mem,hG.async,hG.joining,fun ha => absurd ha hnot,fun ha => absurd ha hnot⟩
    · exact Or.inl ⟨same_of_ne hgg rfl rfl rfl,nofun⟩
  · simp only [Own,Function.update_self]
    refine ⟨List.nil_sublist _,fun _ g' hg' => by simp [RunPc.pending] at hg',nofun,?_⟩
    intro todo i he
    cases he
    exact ⟨hsync,hsub⟩

theorem ReapInv.congr {ρ υ κ ω : Type} {cfg : Config ρ ω} {s t : State ρ υ κ ω} (h : ReapInv cfg s)
    (hl : t.lock = s.lock) (hh : t.head = s.head) (hn : t.nrGroup = s.nrGroup)
    (hs : t.stage = s.stage) (hj : t.joined = s.joined) (hr : t.runner = s.runner)
    (hk : t.joiner = s.joiner) (hw : t.waiter = s.waiter) : ReapInv cfg t := by
  have hsame : ∀ g, Same s t g := fun g => ⟨by rw [hs],fun _ _ => by rw [hj],by rw [hh]⟩
  refine ⟨fun p => ?_,by rw [hh]; exact h.nodup,by rw [hn,hh]; exact h.count,fun g => ?_,
    fun p => ?_⟩
  · have hp := h.holder p
    cases p <;> simpa only [State.holds,hr,hk,hw,hl] using hp
  · have hg := h.group g
    exact ⟨by rw [hh,hs]; exact hg.mem,by rw [hs]; exact hg.async,by rw [hs,hk]; exact hg.joining,
      by rw [hs]; exact fun ha hf => (hg.untouched ha hf).same (hsame g),
      by rw [hj]; exact hg.once⟩
  · have hp := h.own p
    cases p with
    | runner r =>
      simp only [Own,hr] at hp ⊢
      exact ⟨hp.sub,by rw [hs]; exact hp.fresh,hp.linking,hp.joining⟩
    | joiner k =>
      simp only [Own,hk] at hp ⊢
      exact hp.congr hh hs hj
    | waiter w =>
      simp only [Own,hw] at hp ⊢
      exact hp.congr hs hj

theorem ReapInv.walkJoiner {ρ υ κ ω : Type} [DecidableEq ρ] [DecidableEq κ] [DecidableEq ω]
    {cfg : Config ρ ω} {s t : State ρ υ κ ω} (h : ReapInv cfg s)
    (honce : cfg.StartedOnce) {k : κ} {pc : JoinPc}
    (hk : t.joiner = Function.update s.joiner k pc) (hr : t.runner = s.runner)
    (hw : t.waiter = s.waiter) (hlock : LockMove s t (.joiner k)) (hhead : t.head = s.head)
    (hnr : t.nrGroup = s.nrGroup) (hstage : t.stage = s.stage) (hjoined : t.joined = s.joined)
    (hpc : ∀ g j rest, s.joiner k ≠ .join g j rest)
    (hown : JoinOk s k (s.joiner k) → JoinOk s k pc) : ReapInv cfg t := by
  refine h.walk honce (.ofJoiner hk hr hw) hlock hhead hnr hstage hjoined
    (fun q hq => by cases hq; exact hpc) ?_
  simp only [Own,hk,Function.update_self]
  exact (hown (h.own (.joiner k))).congr hhead hstage hjoined

theorem ReapInv.walkWaiter {ρ υ κ ω : Type} [DecidableEq ρ] [DecidableEq κ] [DecidableEq ω]
    {cfg : Config ρ ω} {s t : State ρ υ κ ω} (h : ReapInv cfg s)
    (honce : cfg.StartedOnce) {w : ω} {pc : WaitPc}
    (hw : t.waiter = Function.update s.waiter w pc) (hr : t.runner = s.runner)
    (hk : t.joiner = s.joiner) (hlock : LockMove s t (.waiter w)) (hhead : t.head = s.head)
    (hnr : t.nrGroup = s.nrGroup) (hstage : t.stage = s.stage) (hjoined : t.joined = s.joined)
    (hown : WaitOk s w (s.waiter w) → WaitOk s w pc) : ReapInv cfg t := by
  refine h.walk honce (.ofWaiter hw hr hk) hlock hhead hnr hstage hjoined nofun ?_
  simp only [Own,hw,Function.update_self]
  exact (hown (h.own (.waiter w))).congr hstage hjoined

theorem ReapInv.callerStep {cfg : Config ρ ω} {s t : State ρ υ κ ω} {a : Act ρ υ κ ω}
    (h : ReapInv cfg s) (honce : cfg.StartedOnce) {q : ρ} (hp : a.caller = some q)
    (hst : step cfg s a = some t) : ReapInv cfg t := by
  cases a with
  | runCall r | runBegin r | runUnlock r g rest | publish r g rest =>
    obtain ⟨hpc,rfl⟩ := guarded_eq_some.mp hst
    refine h.walkRunner honce rfl rfl rfl ?_ rfl rfl rfl rfl fun ho => ?_
    · simp [LockMove,State.holds,hpc,RunPc.holds]
    · rw [hpc] at ho
      exact ho.next (List.Sublist.refl _) nofun nofun
  | create r g j rest | created r g j rest =>
    obtain ⟨⟨hpc,-⟩,rfl⟩ := guarded_eq_some.mp hst
    refine h.walkRunner honce rfl rfl rfl (.keep rfl (by simp [State.holds,hpc,RunPc.holds]))
      rfl rfl rfl rfl fun ho => ?_
    rw [hpc] at ho
    exact ho.next (List.Sublist.refl _) nofun nofun
  | allocFail r =>
    obtain ⟨⟨hpc,-⟩,rfl⟩ := guarded_eq_some.mp hst
    exact h.walkRunner honce rfl rfl rfl (.keep rfl (by simp [State.holds,hpc,RunPc.holds]))
      rfl rfl rfl rfl fun ho => ho.next (List.nil_sublist _) nofun nofun
  | runReturn r j | queueWork r =>
    obtain ⟨hpc,rfl⟩ := guarded_eq_some.mp hst
    exact h.walkRunner honce rfl rfl rfl (.keep rfl (by simp [State.holds,hpc,RunPc.holds]))
      rfl rfl rfl rfl fun ho => ho.next (List.nil_sublist _) nofun nofun
  | prepare r g rest =>
    obtain ⟨hpc,rfl⟩ := guarded_eq_some.mp hst
    refine h.walkRunner honce rfl rfl rfl (.keep rfl ?_) rfl rfl rfl rfl fun ho => ?_
    · cases cfg.isAsync r <;> simp [State.holds,hpc,RunPc.holds]
    rw [hpc] at ho
    cases ha : cfg.isAsync r with
    | true => exact ho.next (List.Sublist.refl _) (fun _ _ _ => ha) nofun
    | false => exact ho.next (List.sublist_cons_self g rest) nofun nofun
  | prepared r =>
    obtain ⟨hpc,rfl⟩ := guarded_eq_some.mp hst
    refine h.walkRunner honce rfl rfl rfl (.keep rfl ?_) rfl rfl rfl rfl fun ho => ?_
    · cases cfg.isAsync r <;> simp [State.holds,hpc,RunPc.holds]
    cases ha : cfg.isAsync r with
    | true => exact ho.next (List.nil_sublist _) nofun nofun
    | false =>
      refine ho.next (List.nil_sublist _) nofun fun todo j he => ?_
      cases he
      exact ⟨ha,List.Subset.refl _⟩
  | runLock r g rest =>
    obtain ⟨⟨hpc,hl⟩,rfl⟩ := guarded_eq_some.mp hst
    refine h.walkRunner honce rfl rfl rfl
      (Or.inl ⟨hl,rfl,by simp [State.holds,RunPc.holds]⟩) rfl rfl rfl rfl fun ho => ?_
    rw [hpc] at ho
    exact ho.next (List.Sublist.refl _) (fun _ _ _ => ho.linking g rest (Or.inl rfl)) nofun
  | addTail r g rest => exact h.addTail honce hst
  | runJoin r g rest j o => exact h.runJoin honce hst
  | runJoined r g rest j =>
    obtain ⟨⟨hpc,-⟩,rfl⟩ := guarded_eq_some.mp hst
    refine h.walkRunner honce rfl rfl rfl (.keep rfl (by simp [State.holds,hpc,RunPc.holds]))
      rfl rfl rfl rfl fun ho => ?_
    rw [hpc] at ho
    obtain ⟨hs,hsub⟩ := ho.joining _ _ rfl
    refine ho.next (List.nil_sublist _) nofun fun todo i he => ?_
    cases he
    exact ⟨hs,fun x hx => hsub (List.mem_cons_of_mem g hx)⟩
  | _ => cases hp

theorem ReapInv.workerStep {cfg : Config ρ ω} {s t : State ρ υ κ ω} {a : Act ρ υ κ ω}
    (h : ReapInv cfg s) {i : Thread ρ} (hp : a.worker = some i)
    (hst : step cfg s a = some t) : ReapInv cfg t := by
  cases a with
  | threadInit i | initReturn i | testObject i | argBarrier i o | argCount i o o'
  | barrierReturn i o | callFunc i | funcReturn i | cleanup i | pthreadExit i =>
    obtain ⟨-,rfl⟩ := guarded_eq_some.mp hst
    exact h.congr rfl rfl rfl rfl rfl rfl rfl rfl
  | callBarrier i o n | barrier i o a | userBarrier i u a =>
    obtain ⟨-,hmap⟩ := Option.ite_none_right_eq_some.mp hst
    obtain ⟨b,-,rfl⟩ := Option.map_eq_some_iff.mp hmap
    exact h.congr rfl rfl rfl rfl rfl rfl rfl rfl
  | _ => cases hp

theorem ReapInv.joinerStep {cfg : Config ρ ω} {s t : State ρ υ κ ω} {a : Act ρ υ κ ω}
    (h : ReapInv cfg s) (honce : cfg.StartedOnce) {q : κ} (hp : a.joiner = some q)
    (hst : step cfg s a = some t) : ReapInv cfg t := by
  cases a with
  | joinCall k | scanned k | requeue k =>
    obtain ⟨hpc,rfl⟩ := guarded_eq_some.mp hst
    exact h.walkJoiner honce rfl rfl rfl (.keep rfl (by simp [State.holds,hpc,JoinPc.holds]))
      rfl rfl rfl rfl (by simp [hpc]) fun _ => trivial
  | joinLock k =>
    obtain ⟨⟨hpc,hl⟩,rfl⟩ := guarded_eq_some.mp hst
    exact h.walkJoiner honce rfl rfl rfl (Or.inl ⟨hl,rfl,by simp [State.holds,JoinPc.holds]⟩)
      rfl rfl rfl rfl (by simp [hpc]) fun _ => List.Sublist.refl _
  | scan k g rest => exact h.scan honce hst
  | join k g j rest o => exact h.join honce hst
  | joinDel k g j rest => exact h.joinDel honce hst
  | joinPut k g p rest =>
    obtain ⟨hpc,hmap⟩ := Option.ite_none_right_eq_some.mp hst
    obtain ⟨⟨u,q⟩,hput,rfl⟩ := Option.map_eq_some_iff.mp hmap
    obtain ⟨rc,fr,bo,rfl,-⟩ := put_eq hput
    refine h.walkJoiner honce rfl rfl rfl (.keep rfl ?_) rfl rfl rfl rfl (by simp [hpc])
      fun ho => ?_
    · cases q <;> simp [State.holds,hpc,JoinPc.holds,JoinPc.afterPut]
    · rw [hpc] at ho
      cases q <;> exact ho
  | joinUnlock k again =>
    obtain ⟨hpc,rfl⟩ := guarded_eq_some.mp hst
    refine h.walkJoiner honce rfl rfl rfl ?_ rfl rfl rfl rfl (by simp [hpc]) fun _ => ?_
    · cases again <;> simp [LockMove,State.holds,hpc,JoinPc.holds]
    · cases again <;> trivial
  | _ => cases hp

theorem ReapInv.waiterStep {cfg : Config ρ ω} {s t : State ρ υ κ ω} {a : Act ρ υ κ ω}
    (h : ReapInv cfg s) (honce : cfg.StartedOnce) (hok : WaitOwns s a) {q : ω}
    (hp : a.waiter = some q) (hst : step cfg s a = some t) : ReapInv cfg t := by
  cases a with
  | waitCall w | waitReturn w =>
    obtain ⟨hpc,rfl⟩ := guarded_eq_some.mp hst
    exact h.walkWaiter honce rfl rfl rfl (.keep rfl (by simp [State.holds,hpc,WaitPc.holds]))
      rfl rfl rfl rfl fun _ => trivial
  | waitNext w g rest =>
    obtain ⟨⟨hpc,-⟩,rfl⟩ := guarded_eq_some.mp hst
    exact h.walkWaiter honce rfl rfl rfl (.keep rfl (by simp [State.holds,hpc,WaitPc.holds]))
      rfl rfl rfl rfl fun _ => trivial
  | waitLock w g rest =>
    obtain ⟨⟨hpc,hl⟩,rfl⟩ := guarded_eq_some.mp hst
    exact h.walkWaiter honce rfl rfl rfl (Or.inl ⟨hl,rfl,by simp [State.holds,WaitPc.holds]⟩)
      rfl rfl rfl rfl fun _ => trivial
  | waitDel w g rest => exact h.waitDel honce hok hst
  | waitUnlock w g rest =>
    obtain ⟨hpc,rfl⟩ := guarded_eq_some.mp hst
    refine h.walkWaiter honce rfl rfl rfl ?_ rfl rfl rfl rfl fun ho => ?_
    · simp [LockMove,State.holds,hpc,WaitPc.holds]
    · rw [hpc] at ho
      exact ho
  | spin w g j rest | spun w g j rest =>
    obtain ⟨⟨hpc,-⟩,rfl⟩ := guarded_eq_some.mp hst
    refine h.walkWaiter honce rfl rfl rfl (.keep rfl (by simp [State.holds,hpc,WaitPc.holds]))
      rfl rfl rfl rfl fun ho => ?_
    rw [hpc] at ho
    exact ho
  | waitJoin w g j rest o => exact h.waitJoin honce hst
  | waitJoined w g j rest => exact h.waitJoined honce hst
  | waitPut w g p rest =>
    obtain ⟨hpc,hmap⟩ := Option.ite_none_right_eq_some.mp hst
    obtain ⟨⟨u,q⟩,hput,rfl⟩ := Option.map_eq_some_iff.mp hmap
    obtain ⟨rc,fr,bo,rfl,-⟩ := put_eq hput
    refine h.walkWaiter honce rfl rfl rfl (.keep rfl ?_) rfl rfl rfl rfl fun _ => ?_
    · cases q <;> simp [State.holds,hpc,WaitPc.holds,WaitPc.afterPut]
    · cases q <;> trivial
  | _ => cases hp

theorem ReapInv.step {cfg : Config ρ ω} {s t : State ρ υ κ ω} {a : Act ρ υ κ ω}
    (h : ReapInv cfg s) (honce : cfg.StartedOnce) (hok : WaitOwns s a)
    (hst : step cfg s a = some t) : ReapInv cfg t := by
  obtain ⟨q,hp⟩ | ⟨i,hp⟩ | ⟨q,hp⟩ | ⟨q,hp⟩ := a.party
  · exact h.callerStep honce hp hst
  · exact h.workerStep hp hst
  · exact h.joinerStep honce hp hst
  · exact h.waiterStep honce hok hp hst

theorem ReapInv.init {ρ υ κ ω : Type} {cfg : Config ρ ω} :
    ReapInv cfg (ThreadGroup.init ρ υ κ ω) := by
  refine ⟨?_,List.nodup_nil,rfl,fun g => ?_,?_⟩
  · rintro (_ | _ | _) <;> simp [State.holds,ThreadGroup.init,RunPc.holds,JoinPc.holds,WaitPc.holds]
  · exact ⟨by simp [ThreadGroup.init],fun hf => absurd rfl hf,nofun,
      fun _ _ _ _ => by simp [ThreadGroup.init],fun _ _ _ => by simp [ThreadGroup.init]⟩
  · rintro (r | k | w)
    · exact ⟨List.Sublist.refl _,fun _ _ _ => rfl,nofun,nofun⟩
    · trivial
    · trivial

theorem ReapInv.reapedOnce {ρ υ κ ω : Type} {cfg : Config ρ ω} {s : State ρ υ κ ω}
    (h : ReapInv cfg s) : ReapedOnce cfg s := by
  refine ⟨fun _ => ?_,fun i ha => (h.group i.group).once ha i.call i.slot⟩
  rw [h.count,BitVec.toNat_ofNat,Nat.mod_eq_of_lt (Address.length_lt h.nodup)]

/-- In every run whose waits find their groups still linked, for any number of calls, waits
and executions of the join work, the counter and the joins are right. -/
theorem reapedOnce_of_owns {cfg : Config ρ ω} (honce : cfg.StartedOnce) {s : State ρ υ κ ω}
    (h : Reach (step cfg) WaitOwns (init ρ υ κ ω) s) : ReapedOnce cfg s :=
  (h.invariant (I:=ReapInv cfg) .init fun _ _ _ hi hok hst => hi.step honce hok hst).reapedOnce

/-- Every group is waited for once at most. -/
def Config.WaitedOnce (cfg : Config ρ ω) : Prop :=
  (∀ w, (cfg.waits w).Nodup) ∧ ∀ w w' g, g ∈ cfg.waits w → g ∈ cfg.waits w' → w = w'

/-- A wait is issued after the run of its groups. -/
def AfterRun (cfg : Config ρ ω) (s : State ρ υ κ ω) : Act ρ υ κ ω → Prop
  | .waitCall w => ∀ g ∈ cfg.waits w, ∀ r, g ∈ cfg.groups r → s.runner r = .done
  | _ => True

instance [Fintype ρ] (cfg : Config ρ ω) (s : State ρ υ κ ω) (a : Act ρ υ κ ω) :
    Decidable (AfterRun cfg s a) := by
  cases a <;> unfold AfterRun <;> infer_instance

def group₁ : Group := ⟨1,by decide⟩

/-- One group of one thread, run asynchronously and waited for. -/
def config₁ : Config Unit Unit where
  groups := fun _ => [group₁]
  isAsync := fun _ => true
  waits := fun _ => [group₁]
  nr := fun _ => 1
  init := fun _ => false
  func := fun _ => false

def asyncRun : List (Act Unit Empty Unit Unit) :=
  [.runCall (),.runBegin (),.prepare () group₁ [],.runLock () group₁ [],.addTail () group₁ [],
    .runUnlock () group₁ [],.publish () group₁ [],.create () group₁ 0 [],.created () group₁ 1 [],
    .prepared (),.queueWork ()]

def thread₁ : Thread Unit := ⟨(),group₁,0⟩

def threadRun : List (Act Unit Empty Unit Unit) :=
  [.threadInit thread₁,.testObject thread₁,.argBarrier thread₁ (),.argCount thread₁ () (),
    .callBarrier thread₁ () 1,.barrier thread₁ () (.lock thread₁ (.inl ()) 1),
    .barrier thread₁ () (.update thread₁ (.inl ()) 1),
    .barrier thread₁ () (.unlock thread₁ (.inl ()) .last),
    .barrier thread₁ () (.store thread₁ (.inl ())),.barrierReturn thread₁ (),
    .callFunc thread₁,.cleanup thread₁,.pthreadExit thread₁]

def autoJoin : List (Act Unit Empty Unit Unit) :=
  [.joinCall (),.joinLock (),.scan () group₁ [],.join () group₁ 0 [] (),.joinDel () group₁ 1 [],
    .joinPut () group₁ .test [],.joinPut () group₁ .add [],.joinPut () group₁ .free [],
    .joinPut () group₁ .null [],.scanned (),.joinUnlock () false]

def asyncWait : List (Act Unit Empty Unit Unit) :=
  [.waitCall (),.waitNext () group₁ [],.waitLock () group₁ [],.waitDel () group₁ [],
    .waitUnlock () group₁ [],.spin () group₁ 0 [],.spun () group₁ 1 [],
    .waitJoin () group₁ 0 [] (),.waitJoined () group₁ 1 [],.waitPut () group₁ .test []]

/-- The thread exits and the join work reaps the group before the wait is issued. -/
theorem reapedOnce_fails : ¬ ∀ cfg : Config Unit Unit, cfg.StartedOnce → cfg.WaitedOnce →
    ∀ s, Reach (step cfg) (AfterRun cfg) (init Unit Empty Unit Unit) s → ReapedOnce cfg s := by
  intro h
  have hs : ∃ s, exec (restrict (step config₁) (AfterRun config₁)) (init Unit Empty Unit Unit)
      (asyncRun ++ threadRun ++ autoJoin ++ asyncWait) = some s ∧
      s.lock = none ∧ s.nrGroup = -1 ∧ s.head = [] := ⟨_,rfl,rfl,rfl,rfl⟩
  obtain ⟨s,hs,hl,hn,hh⟩ := hs
  have hr := h config₁ (by simp [Config.StartedOnce,config₁]) (by simp [Config.WaitedOnce,config₁])
    s (reach_of_exec_restrict hs)
  simpa [hn,hh] using hr.counter hl

/-- The wait takes the group off the list first; the join work finds nothing. -/
theorem reapedOnce_of_owns_run : ∃ s, Reach (step config₁) WaitOwns (init Unit Empty Unit Unit) s ∧
    s.lock = none ∧ s.waiter () = .put group₁ .add [] ∧ ReapedOnce config₁ s := by
  have hs : ∃ s, exec (restrict (step config₁) WaitOwns) (init Unit Empty Unit Unit)
      (asyncRun ++ threadRun ++ asyncWait) = some s ∧
      s.lock = none ∧ s.waiter () = .put group₁ .add [] := ⟨_,rfl,rfl,rfl⟩
  obtain ⟨s,hs,hl,hw⟩ := hs
  have hreach := reach_of_exec_restrict hs
  exact ⟨s,hreach,hl,hw,reapedOnce_of_owns (by simp [Config.StartedOnce,config₁]) hreach⟩

end ThreadGroup
end Mthpc
