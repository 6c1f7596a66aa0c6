import Mthpc.WorkqueueCpus
import Mthpc.WorkqueueLocks

/-!
# Who waits for whom

The locks of the pools and of the workqueues, the grace periods and the thread that the join
waits for. Every edge of the waiting relation goes down in `rank` as long as the join does not
begin a grace period while a caller in its section is about to lock the workqueue that the
join holds.
-/
namespace Mthpc
namespace Workqueue

open StepSystem Links

variable {ι W : Type} [DecidableEq ι] [DecidableEq W]

/-- `a` can go on only after a step of `b`. -/
inductive Waits (s : State ι W) : Actor ι → Actor ι → Prop
  | wq {a b : Actor ι} {c : Call W} {pre : Option ℕ} {q : ℕ} :
    s.pc a = .lock c pre q → (s.wq q).lock = some b → Waits s a b
  | pool {a b : Actor ι} {c : Call W} {pre : ℕ} :
    s.pc a = .lockPool c pre → s.lock c.wp = some b → Waits s a b
  | worker {b : Actor ι} {q : ℕ} :
    s.worker q = .lock → (s.wq q).lock = some b → Waits s (.worker q) b
  | joinPool {b : Actor ι} :
    s.join = .lockPool → s.lock s.exiting = some b → Waits s .joiner b
  | joinWq {b : Actor ι} {q : ℕ} {n : Node W} :
    s.join = .lock q n → (s.wq q).lock = some b → Waits s .joiner b
  | grace {b : Actor ι} : s.join = .settle → b ∈ s.awaits → Waits s .joiner b
  | graceWq {b : Actor ι} {q : ℕ} {n : Node W} :
    s.join = .settleWq q n → b ∈ s.awaits → Waits s .joiner b
  | thread {q : ℕ} {n : Node W} :
    s.join = .join q n → s.worker q ≠ .exited → Waits s .joiner (.worker q)

def NoDeadlock (s : State ι W) : Prop := ∀ a, ¬ Relation.TransGen (Waits s) a a

/-- In its section, and about to lock the workqueue `q`. -/
def Headed (cpu : ℕ → Word) (q : ℕ) : Pc W → Prop
  | .walk c pos => pos = .queue q ∧ onCpu c.cpu (cpu q)
  | .lock _ none r => r = q
  | _ => False

instance (cpu : ℕ → Word) (q : ℕ) : ∀ p : Pc W, Decidable (Headed cpu q p)
  | .walk c pos => inferInstanceAs (Decidable (pos = .queue q ∧ onCpu c.cpu (cpu q)))
  | .lock _ none r => inferInstanceAs (Decidable (r = q))
  | .lock _ (some _) _ | .idle | .init _ | .enter _ | .first _ | .add _ _ _
  | .unlock _ _ _ | .leave _ _ | .alloc _ | .setCpu _ _ | .addPre _ _ | .lockPool _ _
  | .recheck _ _ _ | .publish _ _ | .unlockPool _ _ _ | .create _ | .drop _ _ | .store _
  | .wake _ => inferInstanceAs (Decidable False)

def PassedAt (s : State ι W) : JoinPc W → Prop
  | .syncWq q _ => ∀ a ∈ s.readers, ¬ Headed s.cpuOf q (s.pc a)
  | _ => True

instance (s : State ι W) : ∀ p, Decidable (PassedAt s p)
  | .syncWq q _ => inferInstanceAs (Decidable (∀ a ∈ s.readers, ¬ Headed s.cpuOf q (s.pc a)))
  | .idle | .sync | .settle | .loop | .lockPool | .walk _ _ | .lock _ _ | .check _ _
  | .unlink _ _ | .settleWq _ _ | .keep _ _ | .clear _ _ | .unlock _ _ | .unlockPool
  | .freeTest | .freeWalk _ _ | .join _ _ | .free _ _ | .dec _ | .destroy | .done =>
    inferInstanceAs (Decidable True)

/-- When the join begins a grace period for a workqueue, no caller in its section is about to
lock that workqueue. -/
def Passed (s : State ι W) : Act ι W → Prop
  | .join => PassedAt s s.join
  | _ => True

instance (s : State ι W) : ∀ act, Decidable (Passed s act)
  | .join => inferInstanceAs (Decidable (PassedAt s s.join))
  | .call _ _ | .go _ _ _ | .work _ | .exit => inferInstanceAs (Decidable True)

def Pc.inSection : Pc W → Bool
  | .first _ | .walk _ _ | .leave _ _ => true
  | .lock _ pre _ | .add _ pre _ | .unlock _ pre _ => pre.isNone
  | _ => false

structure WaitInv (s : State ι W) : Prop where
  wq : Held (fun q => (s.wq q).lock) s.holdsWq
  busy : ∀ q, s.pc (.worker q) ≠ .idle → (s.worker q).running = true
  reader : ∀ a ∈ s.readers, (s.pc a).inSection = true
  awaited : s.awaits ⊆ s.readers
  passed : ∀ q n, s.join = .settleWq q n → ∀ a ∈ s.awaits, ¬ Headed s.cpuOf q (s.pc a)
  joined : ∀ q, s.join.holdsWq = some q → q < s.nextWq

def lockRank (s : State ι W) (q : ℕ) : ℕ := if (s.wq q).lock = some .joiner then 3 else 1

def Pc.rank (s : State ι W) : Pc W → ℕ
  | .lockPool _ _ => 4
  | .lock _ _ q => lockRank s q
  | _ => 0

def JoinPc.rank : JoinPc W → ℕ
  | .join _ _ => 5
  | .lockPool => 3
  | .settle | .settleWq _ _ => 2
  | .lock _ _ => 1
  | _ => 0

/-- How far a party is from going on. -/
def rank (s : State ι W) : Actor ι → ℕ
  | .joiner => s.join.rank
  | .outside t => (s.pc (.outside t)).rank s
  | .worker q => if s.worker q = .lock then lockRank s q else (s.pc (.worker q)).rank s

section Rank

variable {s : State ι W} {qs : Wp → List ℕ} {fs : List ℕ} {a b : Actor ι} {q : ℕ}

theorem lockRank_le {ι W : Type} [DecidableEq ι] {s : State ι W} {q : ℕ} : lockRank s q ≤ 3 := by
  unfold lockRank
  split <;> omega

theorem Pc.rank_le {ι W : Type} [DecidableEq ι] {s : State ι W} (p : Pc W) : p.rank s ≤ 4 := by
  cases p with
  | lock c pre q => exact lockRank_le.trans (by omega)
  | lockPool => exact le_rfl
  | _ => exact Nat.zero_le _

theorem WaitInv.rank_eq (h : WaitInv s) (ha : a ≠ .joiner) (hp : s.pc a ≠ .idle) :
    rank s a = (s.pc a).rank s := by
  cases a with
  | outside t => rfl
  | worker q =>
    have hr := h.busy q hp
    have hn : s.worker q ≠ .lock := fun he => by simp [he,WorkerPc.running] at hr
    exact if_neg hn
  | joiner => exact absurd rfl ha

theorem WaitInv.rank_holder (h : WaitInv s) (hb : s.holdsWq b = some q) (hj : b ≠ .joiner) :
    rank s b = 0 := by
  cases b with
  | outside t =>
    have hp : (s.pc (.outside t)).holdsWq = some q := hb
    show (s.pc (.outside t)).rank s = 0
    cases he : s.pc (.outside t) <;> rw [he] at hp <;> first | rfl | cases hp
  | worker r =>
    by_cases hl : (s.worker r).locked = true
    · have hn : s.worker r ≠ .lock := fun he => by simp [he,WorkerPc.locked] at hl
      have hidle : s.pc (.worker r) = .idle := by
        by_contra hi
        have hr := h.busy r hi
        cases he : s.worker r <;> simp [he,WorkerPc.locked,WorkerPc.running] at hl hr
      simp [rank,hn,hidle,Pc.rank]
    · have hp : (s.pc (.worker r)).holdsWq = some q := by simpa [State.holdsWq,hl] using hb
      rw [h.rank_eq hj fun he => by rw [he] at hp; cases hp]
      cases he : s.pc (.worker r) <;> rw [he] at hp <;> first | rfl | cases hp
  | joiner => exact absurd rfl hj

theorem rank_joiner_le (hb : s.join.holdsWq ≠ none ∨ s.join.locked = true) :
    rank s .joiner ≤ 2 := by
  show s.join.rank ≤ 2
  cases he : s.join <;> simp_all [JoinPc.holdsWq,JoinPc.locked,JoinPc.rank]

theorem WaitInv.lockRank_lt (h : WaitInv s) (hb : (s.wq q).lock = some b) :
    rank s b < lockRank s q := by
  have hh : s.holdsWq b = some q := (h.wq q b).mp hb
  by_cases hj : b = .joiner
  · subst hj
    have hle := rank_joiner_le (s:=s) (.inl (by
      rw [show s.join.holdsWq = some q from hh]
      simp))
    rw [lockRank,if_pos hb]
    omega
  · rw [h.rank_holder hh hj,lockRank]
    split <;> omega

theorem WaitInv.lockRank_eq {ι W : Type} [DecidableEq ι] {s : State ι W} {q : ℕ} (h : WaitInv s)
    (hj : s.join.holdsWq ≠ some q) :
    lockRank s q = 1 :=
  if_neg fun hl => hj ((h.wq q .joiner).mp hl)

/-- A caller that a grace period waits for does not wait, or waits for a workqueue that is not
held by the join. -/
theorem WaitInv.rank_awaited (h : WaitInv s) (hi : PoolInv s qs fs) (hb : b ∈ s.awaits)
    (hpass : ∀ q, s.join.holdsWq = some q → ¬ Headed s.cpuOf q (s.pc b)) : rank s b < 2 := by
  have hs := h.reader b (h.awaited hb)
  have hj : b ≠ .joiner := by
    rintro rfl
    rw [hi.joiner] at hs
    cases hs
  rw [h.rank_eq hj fun he => by rw [he] at hs; cases hs]
  cases he : s.pc b with
  | lock c pre q =>
    rw [he] at hs hpass
    cases pre with
    | none =>
      show lockRank s q < 2
      rw [h.lockRank_eq fun hq => hpass q hq rfl]
      omega
    | some pre => cases hs
  | lockPool c pre =>
    rw [he] at hs
    cases hs
  | _ => exact Nat.zero_lt_succ _

theorem WaitInv.rank_lt (h : WaitInv s) (hi : PoolInv s qs fs) (hw : Waits s a b) :
    rank s b < rank s a := by
  have hcaller : ∀ {a p}, s.pc a = p → p ≠ .idle → a ≠ .joiner := by
    rintro a p hp hne rfl
    exact hne (hp.symm.trans hi.joiner)
  have hpool : ∀ {b w}, s.lock w = some b → s.holdsPool b = some w := fun {b w} hl =>
    (hi.held w b).mp hl
  cases hw with
  | wq hp hl =>
    rw [h.rank_eq (hcaller hp (by rintro ⟨⟩)) (by rw [hp]; rintro ⟨⟩),hp]
    exact h.lockRank_lt hl
  | worker hp hl =>
    show _ < (if _ then _ else _)
    rw [if_pos hp]
    exact h.lockRank_lt hl
  | pool hp hl =>
    rw [h.rank_eq (hcaller hp (by rintro ⟨⟩)) (by rw [hp]; rintro ⟨⟩),hp]
    show _ < 4
    by_cases hb : b = .joiner
    · subst hb
      have hlock : s.join.locked = true := by
        have hh := hpool hl
        by_contra hn
        simp [State.holdsPool,hn] at hh
      exact (rank_joiner_le (.inr hlock)).trans_lt (by omega)
    · have hh := hpool hl
      rw [holdsPool_eq hb] at hh
      rw [h.rank_eq hb fun he => by rw [he] at hh; cases hh]
      cases he : s.pc b with
      | lock c pre q => exact lockRank_le.trans_lt (by omega)
      | lockPool c pre =>
        rw [he] at hh
        cases hh
      | _ => exact Nat.zero_lt_succ _
  | joinPool hp hl =>
    have hh := hpool hl
    have hb : b ≠ .joiner := by
      rintro rfl
      simp [State.holdsPool,hp,JoinPc.locked] at hh
    rw [holdsPool_eq hb] at hh
    rw [h.rank_eq hb fun he => by rw [he] at hh; cases hh]
    show _ < s.join.rank
    rw [hp]
    cases he : s.pc b with
    | lock c pre q =>
      show lockRank s q < 3
      rw [h.lockRank_eq (by rw [hp]; rintro ⟨⟩)]
      omega
    | lockPool c pre =>
      rw [he] at hh
      cases hh
    | _ => exact Nat.zero_lt_succ _
  | joinWq hp hl =>
    have hh : s.holdsWq b = some _ := (h.wq _ b).mp hl
    have hb : b ≠ .joiner := by
      rintro rfl
      have hn : s.holdsWq .joiner = none := by
        show s.join.holdsWq = none
        rw [hp]
        rfl
      rw [hn] at hh
      cases hh
    rw [h.rank_holder hh hb]
    show _ < s.join.rank
    rw [hp]
    exact Nat.zero_lt_succ _
  | grace hp hb =>
    show _ < s.join.rank
    rw [hp]
    refine h.rank_awaited hi hb fun q hq => ?_
    rw [hp] at hq
    cases hq
  | graceWq hp hb =>
    show _ < s.join.rank
    rw [hp]
    refine h.rank_awaited hi hb fun q hq => ?_
    rw [hp] at hq
    cases hq
    exact h.passed _ _ hp b hb
  | thread hp _ =>
    show _ < s.join.rank
    rw [hp]
    show (if _ then _ else _) < 5
    split
    · exact lockRank_le.trans_lt (by omega)
    · exact (Pc.rank_le _).trans_lt (by omega)

end Rank

section Steps

variable {s s' : State ι W} {qs : Wp → List ℕ} {fs : List ℕ} {a : Actor ι} {p : Pc W} {q : ℕ}
  {act : Act ι W}

theorem WaitInv.locks {ι W : Type} {s : State ι W} (h : WaitInv s) :
    LockInv s := ⟨h.wq,h.busy,h.joined⟩

theorem WaitInv.caller {ι W : Type} [DecidableEq ι] {s s' : State ι W} {a : Actor ι} {p : Pc W}
    (h : WaitInv s) (hl : LockInv s') (hpc : s'.pc = Function.update s.pc a p)
    (hjoin : s'.join = s.join) (hreaders : ∀ b, b ≠ a → b ∈ s'.readers → b ∈ s.readers)
    (hself : a ∈ s'.readers → p.inSection = true) (hawaited : s'.awaits ⊆ s'.readers)
    (hawaits : s'.awaits ⊆ s.awaits)
    (hcpu : ∀ q n, s.join = .settleWq q n → s'.cpuOf q = s.cpuOf q)
    (hpass : ∀ q n, s.join = .settleWq q n → a ∈ s'.awaits → ¬ Headed s.cpuOf q p) :
    WaitInv s' where
  wq := hl.wq
  busy := hl.busy
  reader b hb := by
    rw [hpc]
    by_cases hba : b = a
    · subst hba
      rw [Function.update_self]
      exact hself hb
    · rw [Function.update_of_ne hba]
      exact h.reader b (hreaders b hba hb)
  awaited := hawaited
  passed q n hj b hb := by
    rw [hjoin] at hj
    have hheaded : ∀ x : Pc W, Headed s'.cpuOf q x ↔ Headed s.cpuOf q x := by
      intro x
      cases x with
      | walk => simp only [Headed,hcpu q n hj]
      | lock c pre r => cases pre <;> rfl
      | _ => rfl
    rw [hheaded,hpc]
    by_cases hba : b = a
    · subst hba
      rw [Function.update_self]
      exact hpass q n hj hb
    · rw [Function.update_of_ne hba]
      exact h.passed q n hj b (hawaits hb)
  joined := hl.joined

theorem WaitInv.same {ι W : Type} [DecidableEq ι] {s s' : State ι W} {a : Actor ι} {p : Pc W}
    {x : Pc W} (h : WaitInv s) (hl : LockInv s') (hp : s.pc a = x)
    (hpc : s'.pc = Function.update s.pc a p) (hjoin : s'.join = s.join)
    (hreaders : s'.readers = s.readers) (hawaits : s'.awaits = s.awaits)
    (hself : x.inSection = true → p.inSection = true)
    (hcpu : ∀ q n, s.join = .settleWq q n → s'.cpuOf q = s.cpuOf q)
    (hpass : ∀ q n, s.join = .settleWq q n → ¬ Headed s.cpuOf q x → ¬ Headed s.cpuOf q p) :
    WaitInv s' := by
  subst hp
  refine h.caller hl hpc hjoin (fun b _ hb => hreaders ▸ hb)
    (fun hr => hself (h.reader a (hreaders ▸ hr))) (by rw [hawaits,hreaders]; exact h.awaited)
    (by rw [hawaits]) hcpu fun q n hj haw => ?_
  exact hpass q n hj (h.passed q n hj a (hawaits ▸ haw))

theorem Headed.of_linked {ι W : Type} [DecidableEq ι] {s : State ι W} {qs : Wp → List ℕ}
    {fs : List ℕ} {q : ℕ} {cpu : ℕ → Word} {c : Call W} {pos : Node W} (hi : PoolInv s qs fs)
    {n : Node W} {w : Wp} (hj : s.join = .settleWq q n)
    (hpos : pos = .pool w ∨ ∃ r, pos = .queue r ∧ r ∈ qs w) : ¬ Headed cpu q (.walk c pos) := by
  rintro ⟨rfl,_⟩
  have hq : q ∈ qs w := by simpa using hpos
  exact (hi.gone q (by simp [State.gone,hj,JoinPc.leaving])).2 w hq

theorem WaitInv.go {mem : Option Word} {here : Word} (h : WaitInv s) (hi : PoolInv s qs fs)
    (ha : a ≠ .joiner) (hst : Workqueue.go s a mem here (s.pc a) = some s') : WaitInv s' := by
  have hl := h.locks.go hi ha hst
  have hok := hi.call a
  have hsec := h.reader a
  cases hp : s.pc a with
  | idle =>
    rw [hp] at hst
    cases hst
  | init c | drop pre q | wake q | publish c pre =>
    rw [hp] at hst
    cases hst
    exact h.same hl hp rfl rfl rfl rfl (by rintro ⟨⟩) (fun _ _ _ => rfl) fun _ _ _ _ => id
  | enter c =>
    rw [hp] at hst
    cases hst
    exact h.caller hl rfl rfl (fun b hb hm => (Finset.mem_insert.mp hm).resolve_left hb)
      (fun _ => rfl) (h.awaited.trans (Finset.subset_insert ..)) subset_rfl (fun _ _ _ => rfl)
      fun _ _ _ _ => id
  | first c =>
    rw [hp] at hst
    cases hst
    exact h.same hl hp rfl rfl rfl rfl id (fun _ _ _ => rfl)
      fun q n hj _ => Headed.of_linked hi hj (hi.first c.wp)
  | walk c pos =>
    rw [hp] at hst hok
    obtain ⟨_,rfl⟩ | ⟨q,rfl,⟨hc,rfl⟩ | ⟨_,rfl⟩⟩ := walk_spec hst
    · exact h.same hl hp rfl rfl rfl rfl id (fun _ _ _ => rfl) fun _ _ _ _ => id
    · refine h.same hl hp rfl rfl rfl rfl id (fun _ _ _ => rfl) fun r n _ hne hq => hne ?_
      obtain rfl : q = r := hq
      exact ⟨rfl,hc⟩
    · have hs : Seen s qs a c.wp q := by simpa using hok.2
      exact h.same hl hp rfl rfl rfl rfl id (fun _ _ _ => rfl)
        fun r n hj _ => Headed.of_linked hi hj (hi.seen_next hs)
  | lock c pre q =>
    rw [hp] at hst hsec
    obtain ⟨_,rfl⟩ := guarded_eq_some.mp hst
    exact h.caller hl rfl rfl (fun b _ hb => hb) hsec h.awaited subset_rfl
      (fun r _ _ => congrFun (cpuOf_setWqLock q _) r) fun _ _ _ _ => id
  | add c pre q =>
    rw [hp] at hst
    cases hst
    exact h.same hl hp rfl rfl rfl rfl id (fun r _ _ => congrFun (cpuOf_addLocked q c.work) r)
      fun _ _ _ _ => id
  | unlock c pre q =>
    rw [hp] at hst hsec
    cases pre with
    | none =>
      cases hst
      exact h.caller hl rfl rfl (fun b _ hb => hb) (fun _ => rfl) h.awaited subset_rfl
        (fun r _ _ => congrFun (cpuOf_setWqLock q _) r) fun _ _ _ _ => id
    | some pre =>
      cases hst
      exact h.caller hl rfl rfl (fun b _ hb => hb) hsec h.awaited subset_rfl
        (fun r _ _ => congrFun (cpuOf_setWqLock q _) r) fun _ _ _ _ => id
  | leave c wq =>
    rw [hp] at hst
    cases hst
    exact h.caller hl rfl rfl (fun b _ hb => Finset.mem_of_mem_erase hb)
      (fun hm => absurd rfl (Finset.ne_of_mem_erase hm)) (Finset.erase_subset_erase a h.awaited)
      (Finset.erase_subset ..) (fun _ _ _ => rfl)
      fun _ _ _ hm => absurd rfl (Finset.ne_of_mem_erase hm)
  | alloc c =>
    rw [hp] at hst
    cases mem with
    | none =>
      cases hst
      exact h.same hl hp rfl rfl rfl rfl (by rintro ⟨⟩) (fun _ _ _ => rfl) fun _ _ _ _ => id
    | some mem =>
      cases hst
      refine h.same hl hp rfl rfl rfl rfl (by rintro ⟨⟩) (fun r n hj => ?_) fun _ _ _ _ => id
      have hr : r ∈ s.gone fs := by simp [State.gone,hj,JoinPc.leaving]
      exact cpuOf_alloc (hi.gone_lt hr).ne
  | setCpu c pre =>
    rw [hp] at hst hok
    cases hst
    refine h.same hl hp rfl rfl rfl rfl (by rintro ⟨⟩) (fun r n hj => cpuOf_setWq_of_ne ?_)
      fun _ _ _ _ => id
    rintro rfl
    exact hok.2.2 (by simp [State.gone,hj,JoinPc.leaving])
  | addPre c pre =>
    rw [hp] at hst
    cases hst
    exact h.same hl hp rfl rfl rfl rfl id (fun r _ _ => congrFun (cpuOf_addLocked pre c.work) r)
      fun _ _ _ _ => id
  | lockPool c pre =>
    rw [hp] at hst
    obtain ⟨_,rfl⟩ := guarded_eq_some.mp hst
    exact h.same hl hp rfl rfl rfl rfl (by rintro ⟨⟩) (fun _ _ _ => rfl) fun _ _ _ _ => id
  | recheck c pre pos =>
    rw [hp] at hst
    obtain ⟨_,rfl⟩ | ⟨q,rfl,⟨_,rfl⟩ | ⟨_,rfl⟩⟩ := recheck_spec hst <;>
      exact h.same hl hp rfl rfl rfl rfl (by rintro ⟨⟩) (fun _ _ _ => rfl) fun _ _ _ _ => id
  | unlockPool c pre q =>
    rw [hp] at hst
    cases hst
    cases pre <;>
      exact h.same hl hp rfl rfl rfl rfl (by rintro ⟨⟩) (fun _ _ _ => rfl) fun _ _ _ _ => id
  | create q =>
    rw [hp] at hst
    cases hst
    exact h.same hl hp rfl rfl rfl rfl (by rintro ⟨⟩) (fun _ _ _ => rfl) fun _ _ _ _ => id
  | store q =>
    rw [hp] at hst
    cases hst
    exact h.same hl hp rfl rfl rfl rfl (by rintro ⟨⟩)
      (fun r _ _ => congrFun (cpuOf_futex q 1) r) fun _ _ _ _ => id

theorem WaitInv.worker {ι W : Type} {s s' : State ι W} (h : WaitInv s) (hl : LockInv s')
    (hpc : s'.pc = s.pc) (hjoin : s'.join = s.join) (hreaders : s'.readers = s.readers)
    (hawaits : s'.awaits = s.awaits) (hcpu : s'.cpuOf = s.cpuOf) : WaitInv s' where
  wq := hl.wq
  busy := hl.busy
  reader := by
    rw [hreaders,hpc]
    exact h.reader
  awaited := by
    rw [hawaits,hreaders]
    exact h.awaited
  passed := by
    rw [hjoin,hawaits,hcpu,hpc]
    exact h.passed
  joined := hl.joined

theorem WaitInv.workerGo (h : WaitInv s)
    (hst : Workqueue.workerGo s q (s.worker q) = some s') : WaitInv s' := by
  have hl := h.locks.workerGo hst
  cases hp : s.worker q with
  | absent | exited =>
    rw [hp] at hst
    cases hst
  | test | call w =>
    rw [hp] at hst
    cases hst
    exact h.worker hl rfl rfl rfl rfl rfl
  | unlock w =>
    rw [hp] at hst
    cases hst
    exact h.worker hl rfl rfl rfl rfl (cpuOf_setWqLock q _)
  | lock =>
    rw [hp] at hst
    obtain ⟨_,rfl⟩ := guarded_eq_some.mp hst
    exact h.worker hl rfl rfl rfl rfl (cpuOf_setWqLock q _)
  | pop =>
    rw [hp] at hst
    obtain ⟨_,rfl⟩ | ⟨w,_,rfl⟩ := pop_spec hst
    · exact h.worker hl rfl rfl rfl rfl rfl
    · exact h.worker hl rfl rfl rfl rfl (funext (update_cpu rfl))
  | wait | run w =>
    rw [hp] at hst
    obtain ⟨_,rfl⟩ := guarded_eq_some.mp hst
    exact h.worker hl rfl rfl rfl rfl rfl

theorem WaitInv.joinTo {ι W : Type} {s s' : State ι W} (h : WaitInv s) (hl : LockInv s')
    (hpc : s'.pc = s.pc) (hreaders : s'.readers = s.readers) (hawaits : s'.awaits ⊆ s.readers)
    (hpass : ∀ q n, s'.join = .settleWq q n → ∀ a ∈ s'.awaits, ¬ Headed s'.cpuOf q (s.pc a)) :
    WaitInv s' where
  wq := hl.wq
  busy := hl.busy
  reader := by
    rw [hreaders,hpc]
    exact h.reader
  awaited := by
    rw [hreaders]
    exact hawaits
  passed := by
    rw [hpc]
    exact hpass
  joined := hl.joined

theorem WaitInv.joinSame {ι W : Type} {s s' : State ι W} (h : WaitInv s) (hl : LockInv s')
    (hpc : s'.pc = s.pc) (hreaders : s'.readers = s.readers) (hawaits : s'.awaits ⊆ s.readers)
    (hset : ∀ q n, s'.join ≠ .settleWq q n) : WaitInv s' :=
  h.joinTo hl hpc hreaders hawaits fun q n hj => absurd hj (hset q n)

theorem WaitInv.joinGo (h : WaitInv s) (hi : PoolInv s qs fs) (hok : PassedAt s s.join)
    (hst : Workqueue.joinGo s s.join = some s') : WaitInv s' := by
  have hl := h.locks.joinGo hi hst
  cases hp : s.join with
  | idle | done =>
    rw [hp] at hst
    cases hst
  | sync =>
    rw [hp] at hst
    cases hst
    exact h.joinSame hl rfl rfl subset_rfl (by rintro _ _ ⟨⟩)
  | settle | lockPool | lock | settleWq | join =>
    rw [hp] at hst
    obtain ⟨_,rfl⟩ := guarded_eq_some.mp hst
    exact h.joinSame hl rfl rfl h.awaited (by rintro _ _ ⟨⟩)
  | loop =>
    rw [hp] at hst
    simp only [Workqueue.joinGo] at hst
    split at hst
    · cases hst
      exact h.joinSame hl rfl rfl h.awaited (by rintro _ _ ⟨⟩)
    · split at hst <;> cases hst
      · exact h.joinSame hl rfl rfl h.awaited (by simp [hp])
      · exact h.joinSame hl rfl rfl h.awaited (by rintro _ _ ⟨⟩)
  | walk curr n | freeWalk curr n =>
    rw [hp] at hst
    obtain ⟨_,rfl⟩ | ⟨q,_,rfl⟩ := joinWalk_spec hst <;>
      exact h.joinSame hl rfl rfl h.awaited (by rintro _ _ ⟨⟩)
  | check q n =>
    rw [hp] at hst
    cases hst
    refine h.joinSame hl rfl rfl h.awaited ?_
    simp only [State.joinGoto]
    split <;> rintro _ _ ⟨⟩
  | unlink q n | keep q n | clear q n | unlock q n | unlockPool | free q n | dec n =>
    rw [hp] at hst
    cases hst
    exact h.joinSame hl rfl rfl h.awaited (by rintro _ _ ⟨⟩)
  | syncWq q n =>
    rw [hp] at hst hok
    cases hst
    refine h.joinTo hl rfl rfl subset_rfl fun r m hm => ?_
    cases hm
    exact hok
  | freeTest =>
    rw [hp] at hst
    simp only [Workqueue.joinGo] at hst
    split at hst <;> cases hst <;> exact h.joinSame hl rfl rfl h.awaited (by rintro _ _ ⟨⟩)
  | destroy =>
    rw [hp] at hst
    obtain ⟨_,⟨_,rfl⟩ | ⟨p,_,rfl⟩⟩ := destroy_spec hst <;>
      exact h.joinSame hl rfl rfl h.awaited (by rintro _ _ ⟨⟩)

theorem WaitInv.init {ι W : Type} : WaitInv (init ι W) where
  wq := LockInv.init.wq
  busy := LockInv.init.busy
  reader _ ha := absurd ha (Finset.notMem_empty _)
  awaited := subset_rfl
  passed _ _ hj := by cases hj
  joined := LockInv.init.joined

theorem WaitInv.step (h : WaitInv s) (hi : PoolInv s qs fs) (hok : Passed s act)
    (hst : Workqueue.step s act = some s') : WaitInv s' := by
  have hl := h.locks.step hi hst
  cases act with
  | call a c =>
    obtain ⟨hm,rfl⟩ := guarded_eq_some.mp hst
    exact h.same hl (mayCall_pc hm).2 rfl rfl rfl rfl (by rintro ⟨⟩) (fun _ _ _ => rfl)
      fun _ _ _ _ => id
  | go a mem here =>
    by_cases ha : a = .joiner
    · subst ha
      rw [Workqueue.step,hi.joiner] at hst
      cases hst
    · exact h.go hi ha hst
  | work q => exact h.workerGo hst
  | exit =>
    obtain ⟨hp,rfl⟩ := guarded_eq_some.mp hst
    exact h.joinSame hl rfl rfl h.awaited (by rintro _ _ ⟨⟩)
  | join => exact h.joinGo hi hok hst

end Steps

/-- In every interleaving of callers, workers and the join. -/
theorem noDeadlock_of_passed {s : State ι W} (h : Reach step Passed (init ι W) s) :
    NoDeadlock s := by
  have hi : ∃ qs fs, PoolInv s qs fs ∧ WaitInv s := by
    refine h.invariant (I:=fun s => ∃ qs fs, PoolInv s qs fs ∧ WaitInv s)
      ⟨_,_,.init,.init⟩ fun s act s' hi hok hst => ?_
    obtain ⟨qs,fs,hi,hw⟩ := hi
    exact ⟨_,_,hi.step hst,hw.step hi hok hst⟩
  obtain ⟨qs,fs,hi,hw⟩ := hi
  exact no_cycle_of_rank (rank s) fun _ _ => hw.rank_lt hi

def served : List (Act Bool Unit) :=
  .call (.outside false) ⟨.global,0,()⟩::List.replicate 15 (.go (.outside false) (some 0) 0) ++
    List.replicate 5 (.work 0)

/-- The join begins; `n` steps of a second call; the join holds the workqueue and waits. -/
def joinWith (n : ℕ) : List (Act Bool Unit) :=
  .exit::List.replicate 3 .join ++ .call (.outside true) ⟨.global,0,()⟩::
    List.replicate n (.go (.outside true) none 0) ++ List.replicate 6 .join

/-- The second call has entered its section and read nothing. -/
theorem noDeadlock_of_served : ∃ s : State Bool Unit, Reach step Passed (init Bool Unit) s ∧
    s.join = .settleWq 0 (.pool .global) ∧ .outside true ∈ s.awaits ∧ NoDeadlock s := by
  have hs : (exec (restrict step Passed) (init Bool Unit) (served ++ joinWith 2)).map
      (fun s => (s.join,decide (.outside true ∈ s.awaits))) =
      some (.settleWq 0 (.pool .global),true) := by decide
  obtain ⟨s,hs,hp⟩ := Option.map_eq_some_iff.mp hs
  simp only [Prod.mk.injEq,decide_eq_true_eq] at hp
  have hr := reach_of_exec_restrict hs
  exact ⟨s,hr,hp.1,hp.2,noDeadlock_of_passed hr⟩

/-- The second call stands on the workqueue: it waits for the lock, and the join for it. -/
theorem noDeadlock_fails : ¬ ∀ s : State Bool Unit,
    Reach step Anything (init Bool Unit) s → NoDeadlock s := by
  intro h
  have hs : (exec step (init Bool Unit) (served ++ joinWith 4)).map
      (fun s => (s.pc (.outside true),(s.wq 0).lock,s.join,decide (.outside true ∈ s.awaits))) =
      some (.lock ⟨.global,0,()⟩ none 0,some .joiner,.settleWq 0 (.pool .global),true) := by decide
  obtain ⟨s,hs,hp⟩ := Option.map_eq_some_iff.mp hs
  simp only [Prod.mk.injEq,decide_eq_true_eq] at hp
  obtain ⟨hpc,hl,hj,ha⟩ := hp
  refine h s (reach_of_exec hs) .joiner ?_
  exact (Relation.TransGen.single (.graceWq hj ha)).tail (.wq hpc hl)

end Workqueue
end Mthpc
