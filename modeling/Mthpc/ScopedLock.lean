import Mthpc.Scopes
import Mthpc.Settles

/-!
# Scoped locks

`include/mthpc/guards.h` and `include/mthpc/scoped_lock.h`. `mthpc_scoped_lock` declares a
variable whose initialiser locks and whose `cleanup` function unlocks: a guard of scoped code.
The threads run their code over shared data; a read-side section keeps nobody out, and a
spinlock is taken when it is free.
-/
namespace Mthpc
namespace ScopedLock

open StepSystem Scopes

/-- `mthpc_scoped_lock(rcu)` and `mthpc_scoped_lock(spinlock, l)`. -/
inductive Guard (Λ : Type)
  | rcu
  | spinlock (l : Λ)
  deriving DecidableEq

/-- What remains of the code of each thread, who holds each spinlock, and the data that the
actions work on. -/
structure State (H Λ δ α : Type) where
  frames : H → List (Frame (Guard Λ) α)
  lock : Λ → Option H
  data : δ

/-- The threads are to call their functions. -/
def init {H Λ δ α : Type} (code : H → Code (Guard Λ) α) (d : δ) : State H Λ δ α where
  frames h := [⟨[],code h⟩]
  lock _ := none
  data := d

variable {H Λ δ α : Type} [DecidableEq H] [DecidableEq Λ]

/-- `mthpc_generated_guards_spinlock_init` and `_exit`, and the actions. The functions of an `rcu`
guard do nothing here. -/
def perform (act : δ → H → α → δ) (s : State H Λ δ α) (h : H) :
    Option (Event (Guard Λ) α) → Option (State H Λ δ α)
  | some (.act a) => some { s with data := act s.data h a }
  | some (.opens (.spinlock l)) => guarded (s.lock l = none)
      { s with lock := Function.update s.lock l (some h) }
  | some (.closes (.spinlock l)) => some { s with lock := Function.update s.lock l none }
  | some (.opens .rcu) | some (.closes .rcu) | none => some s

/-- One step of a thread. -/
def step (act : δ → H → α → δ) (s : State H Λ δ α) (m : H × Bool) : Option (State H Λ δ α) :=
  (next m.2 (s.frames m.1)).bind fun p => (perform act s m.1 p.1).map fun t =>
    { t with frames := Function.update s.frames m.1 p.2 }

/-- A spinlock is held by the thread with an open guard for it, and by one guard of it. -/
def LocksHeld (s : State H Λ δ α) : Prop :=
  ∀ l h, (held (s.frames h)).count (.spinlock l) = if s.lock l = some h then 1 else 0

/-- Locks are taken in ascending order. -/
def Ascending (rank : Λ → ℕ) (gs : List (Guard Λ)) : Event (Guard Λ) α → Prop
  | .opens (.spinlock l) => ∀ l', .spinlock l' ∈ gs → rank l' < rank l
  | _ => True

/-- All threads have come to their ends. -/
def Over (s : State H Λ δ α) : Prop := (∀ h, s.frames h = []) ∧ ∀ l, s.lock l = none

variable {act : δ → H → α → δ} {s t : State H Λ δ α} {h : H} {b : Bool}

theorem step_cases (hst : step act s (h,b) = some t) :
    ∃ e fs, next b (s.frames h) = some (e,fs) ∧ t.frames = Function.update s.frames h fs ∧
      ((∃ l, e = some (.opens (.spinlock l)) ∧ s.lock l = none ∧ t.data = s.data ∧
          t.lock = Function.update s.lock l (some h)) ∨
        (∃ l, e = some (.closes (.spinlock l)) ∧ t.data = s.data ∧
          t.lock = Function.update s.lock l none) ∨
        (∃ a, e = some (.act a) ∧ t.lock = s.lock ∧ t.data = act s.data h a) ∨
        (e = none ∨ e = some (.opens .rcu) ∨ e = some (.closes .rcu)) ∧ t.lock = s.lock ∧
          t.data = s.data) := by
  obtain ⟨⟨e,fs⟩,hn,hp⟩ := Option.bind_eq_some_iff.mp hst
  obtain ⟨u,hu,rfl⟩ := Option.map_eq_some_iff.mp hp
  refine ⟨e,fs,hn,rfl,?_⟩
  match e with
  | none =>
    cases hu
    exact .inr (.inr (.inr ⟨.inl rfl,rfl,rfl⟩))
  | some (.act a) =>
    cases hu
    exact .inr (.inr (.inl ⟨a,rfl,rfl,rfl⟩))
  | some (.opens .rcu) =>
    cases hu
    exact .inr (.inr (.inr ⟨.inr (.inl rfl),rfl,rfl⟩))
  | some (.closes .rcu) =>
    cases hu
    exact .inr (.inr (.inr ⟨.inr (.inr rfl),rfl,rfl⟩))
  | some (.opens (.spinlock l)) =>
    obtain ⟨hl,rfl⟩ := guarded_eq_some.mp hu
    exact .inl ⟨l,rfl,hl,rfl,rfl⟩
  | some (.closes (.spinlock l)) =>
    cases hu
    exact .inr (.inl ⟨l,rfl,rfl,rfl⟩)

section Locks

theorem LocksHeld.init (code : H → Code (Guard Λ) α) (d : δ) : LocksHeld (init code d) := by
  intro l h
  simp [ScopedLock.init]

theorem LocksHeld.mem (hi : LocksHeld s) {l : Λ} :
    .spinlock l ∈ held (s.frames h) ↔ s.lock l = some h := by
  rw [← List.count_pos_iff,hi l h]
  split <;> simp_all

theorem LocksHeld.step (hi : LocksHeld s) (hst : ScopedLock.step act s (h,b) = some t) :
    LocksHeld t := by
  obtain ⟨e,fs,hn,hf,hcase⟩ := step_cases hst
  have hm := next_held hn
  intro l g
  rw [hf]
  have hold := hi l g
  by_cases hg : g = h
  · subst hg
    rw [Function.update_self]
    rcases hcase with ⟨k,rfl,hk,_,hl⟩ | ⟨k,rfl,_,hl⟩ | ⟨a,rfl,hl,_⟩ | ⟨he,hl,_⟩
    · rw [show held fs = .spinlock k::held (s.frames g) from hm,List.count_cons,hold,hl]
      by_cases hlk : l = k
      · subst hlk
        simp [hk]
      · simp [hlk,Ne.symm hlk]
    · have hcons : held (s.frames g) = .spinlock k::held fs := hm
      rw [hcons,List.count_cons] at hold
      rw [hl]
      by_cases hlk : l = k
      · subst hlk
        have hone : (held fs).count (.spinlock l) = 0 := by
          rw [beq_self_eq_true,if_pos rfl] at hold
          split at hold <;> omega
        simpa using hone
      · simpa [hlk,Ne.symm hlk] using hold
    · rw [show held fs = held (s.frames g) from hm,hl]
      exact hold
    · have hsame : (held fs).count (.spinlock l) = (held (s.frames g)).count (.spinlock l) := by
        rcases he with rfl | rfl | rfl
        · rw [show held fs = held (s.frames g) from hm]
        · rw [show held fs = .rcu::held (s.frames g) from hm]
          simp
        · rw [show held (s.frames g) = .rcu::held fs from hm]
          simp
      rw [hsame,hl]
      exact hold
  · rw [Function.update_of_ne hg,hold]
    rcases hcase with ⟨k,_,hk,_,hl⟩ | ⟨k,rfl,_,hl⟩ | ⟨a,_,hl,_⟩ | ⟨_,hl,_⟩
    · rw [hl]
      by_cases hlk : l = k
      · subst hlk
        simp [hk,Ne.symm hg]
      · simp [hlk]
    · rw [hl]
      by_cases hlk : l = k
      · -- the lock was that of `h`
        subst hlk
        have hmem : .spinlock l ∈ held (s.frames h) := by
          rw [show held (s.frames h) = .spinlock l::held fs from hm]
          exact List.mem_cons_self
        simp [hi.mem.mp hmem,Ne.symm hg]
      · simp [hlk]
    · rw [hl]
    · rw [hl]

end Locks

section Order

variable {rank : Λ → ℕ}

/-- Threads without loops that take their locks in ascending order. -/
structure OrderedInv (rank : Λ → ℕ) (s : State H Λ δ α) : Prop where
  locks : LocksHeld s
  free : ∀ h, ∀ f ∈ s.frames h, f.code.loopFree = true
  ascending : ∀ h, Checked (Ascending rank) (s.frames h)

theorem OrderedInv.init {code : H → Code (Guard Λ) α} (d : δ)
    (hfree : ∀ h, (code h).loopFree = true) (hasc : ∀ h, (code h).Checked (Ascending rank) []) :
    OrderedInv rank (init code d) where
  locks := .init code d
  free h f hf := by
    obtain rfl : f = ⟨[],code h⟩ := by simpa [ScopedLock.init] using hf
    exact hfree h
  ascending h := ⟨hasc h,trivial⟩

theorem OrderedInv.step (hi : OrderedInv rank s) (hst : ScopedLock.step act s (h,b) = some t) :
    OrderedInv rank t := by
  obtain ⟨e,fs,hn,hf,_⟩ := step_cases hst
  refine ⟨hi.locks.step hst,fun g => ?_,fun g => ?_⟩
  · rw [hf]
    by_cases hg : g = h
    · subst hg
      rw [Function.update_self]
      exact (next_cost (hi.free g) hn).1
    · rw [Function.update_of_ne hg]
      exact hi.free g
  · rw [hf]
    by_cases hg : g = h
    · subst hg
      rw [Function.update_self]
      exact ((hi.ascending g).next hn).1
    · rw [Function.update_of_ne hg]
      exact hi.ascending g

theorem OrderedInv.waits (hi : OrderedInv rank s) (hstop : ScopedLock.step act s (h,b) = none)
    (hf : s.frames h ≠ []) : ∃ l g, s.lock l = some g ∧
      ∀ k, s.lock k = some h → rank k < rank l := by
  obtain ⟨⟨e,fs⟩,hn⟩ := Option.isSome_iff_exists.mp (next_isSome b hf)
  have hp : perform act s h e = none := by
    simpa [ScopedLock.step,hn] using hstop
  match e, hp with
  | some (.opens (.spinlock l)), hp =>
    obtain ⟨g,hg⟩ := Option.ne_none_iff_exists'.mp (guarded_eq_none.mp hp)
    refine ⟨l,g,hg,fun k hk => ?_⟩
    exact ((hi.ascending h).next hn).2.2 _ rfl k (hi.locks.mem.mpr hk)

variable [Fintype H]

/-- Where no step is left, all threads have come to their ends: of the threads that wait, the one
that waits for the highest lock would wait for a thread that waits for a higher one. -/
theorem OrderedInv.over (hi : OrderedInv rank s) (hstop : ∀ m, ScopedLock.step act s m = none) :
    Over s := by
  have hends : ∀ h, s.frames h = [] := by
    by_contra hne
    push Not at hne
    have hwait : ∀ h, ∃ n, s.frames h ≠ [] → ∃ l g, rank l = n ∧ s.lock l = some g ∧
        ∀ k, s.lock k = some h → rank k < rank l := by
      intro h
      by_cases hf : s.frames h = []
      · exact ⟨0,fun hne => absurd hf hne⟩
      · obtain ⟨l,g,hl⟩ := hi.waits (hstop (h,true)) hf
        exact ⟨rank l,fun _ => ⟨l,g,rfl,hl⟩⟩
    choose n hn using hwait
    obtain ⟨h,hh,hmax⟩ := (Finset.univ.filter (s.frames · ≠ [])).exists_max_image n
      (hne.imp fun h hh => by simpa using hh)
    obtain ⟨l,g,hl,hg,_⟩ := hn h (by simpa using hh)
    have hgf : s.frames g ≠ [] := by
      intro hnil
      have hmem := hi.locks.mem.mpr hg
      rw [hnil] at hmem
      cases hmem
    obtain ⟨l',_,hl',_,habove⟩ := hn g hgf
    have hlt := habove l hg
    have hle := hmax g (by simpa using hgf)
    omega
  refine ⟨hends,fun l => ?_⟩
  cases hl : s.lock l with
  | none => rfl
  | some h =>
    have hmem := hi.locks.mem.mpr hl
    rw [hends h] at hmem
    cases hmem

theorem OrderedInv.settles {I : State H Λ δ α → Prop} (hi : OrderedInv rank s) (hs : I s)
    (hstep : ∀ s m t, OrderedInv rank s → I s → ScopedLock.step act s m = some t → I t) :
    Settles (ScopedLock.step act) Anything (fun t => Over t ∧ I t) s := by
  apply Settles.of_measure (I:=fun s => OrderedInv rank s ∧ I s)
    (fun s => ∑ h, cost (s.frames h)) ⟨hi,hs⟩
  · rintro u ⟨h,b⟩ t ⟨hi,hs⟩ _ hst
    refine ⟨⟨hi.step hst,hstep u (h,b) t hi hs hst⟩,?_⟩
    obtain ⟨e,fs,hn,hf,_⟩ := step_cases hst
    rw [hf]
    refine sum_lt_of_one h (Finset.mem_univ h) ?_ fun g _ hg => ?_
    · rw [Function.update_self]
      exact (next_cost (hi.free h) hn).2
    · rw [Function.update_of_ne hg]
  · rintro u ⟨hi,hs⟩ hstop
    exact ⟨hi.over fun m => hstop m trivial,hs⟩

/-- Threads whose code has no loops and takes its locks in ascending order come to their ends in
every interleaving, with all locks free. -/
theorem settles_of_ascending {code : H → Code (Guard Λ) α} {d : δ}
    (hfree : ∀ h, (code h).loopFree = true) (hasc : ∀ h, (code h).Checked (Ascending rank) [])
    (hr : Reach (ScopedLock.step act) Anything (init code d) s) :
    LocksHeld s ∧ Settles (ScopedLock.step act) Anything Over s := by
  have hi : OrderedInv rank s := hr.invariant (I:=OrderedInv rank) (.init d hfree hasc)
    fun _ m _ hi _ hst => hi.step (h:=m.1) (b:=m.2) hst
  refine ⟨hi.locks,?_⟩
  have hs : Settles (ScopedLock.step act) Anything (fun t => Over t ∧ True) s :=
    hi.settles trivial fun _ _ _ _ _ _ => trivial
  exact hs.mono fun t ht => ht.1

end Order

section Runs

/-- Whether a thread takes the second lock as well depends on a condition, and it may leave its
function with both. -/
def oneOrBoth : Code (Guard Bool) Unit :=
  .guard (.spinlock false)
    (.choose (.guard (.spinlock true) (.act () (.exit 1))) (.act () (.exit 0)) (.exit 0))

/-- The first thread has both locks when the second one comes to the first lock. -/
theorem settles_of_oneOrBoth : ∃ s : State Bool Bool Unit Unit,
    Reach (step fun d _ _ => d) Anything (init (fun _ => oneOrBoth) ()) s ∧
    s.lock true = some false ∧ step (fun d _ _ => d) s (true,true) = none ∧ LocksHeld s ∧
    Settles (step fun d _ _ => d) Anything Over s := by
  have hs : ∃ s : State Bool Bool Unit Unit, exec (step fun d _ _ => d)
      (init (fun _ => oneOrBoth) ()) [(false,true),(false,true),(false,true)] = some s ∧
      s.lock true = some false ∧ step (fun d _ _ => d) s (true,true) = none := ⟨_,rfl,rfl,rfl⟩
  obtain ⟨s,hs,hl,hw⟩ := hs
  have hasc : ∀ _ : Bool, oneOrBoth.Checked (Ascending Bool.toNat) [] := fun _ => by
    simp [oneOrBoth,Code.Checked,Ascending]
  obtain ⟨hi,hset⟩ := settles_of_ascending (fun _ => rfl) hasc (reach_of_exec hs)
  exact ⟨s,reach_of_exec hs,hl,hw,hi,hset⟩

end Runs

section Count

/-- `src/scoped_lock/test.c`: `cnt++` is a load and a store. -/
inductive Access
  | load | store
  deriving DecidableEq

/-- `cnt`, and the value that each thread has loaded. -/
structure Counter (H : Type) where
  cnt : BitVec 32
  loaded : H → BitVec 32

def access (d : Counter H) (h : H) : Access → Counter H
  | .load => { d with loaded := Function.update d.loaded h d.cnt }
  | .store => { d with cnt := d.loaded h+1 }

/-- `worker`. -/
def worker : Code (Guard Unit) Access :=
  .scope (.guard .rcu (.guard (.spinlock ()) (.act .load (.act .store (.exit 0))))) (.exit 0)

/-- The points of `worker`. -/
def point : ℕ → List (Frame (Guard Unit) Access)
  | 0 => [⟨[],worker⟩]
  | 1 => [⟨[],.guard .rcu (.guard (.spinlock ()) (.act .load (.act .store (.exit 0))))⟩,
      ⟨[],.exit 0⟩]
  | 2 => [⟨[.rcu],.guard (.spinlock ()) (.act .load (.act .store (.exit 0)))⟩,⟨[],.exit 0⟩]
  | 3 => [⟨[.spinlock (),.rcu],.act .load (.act .store (.exit 0))⟩,⟨[],.exit 0⟩]
  | 4 => [⟨[.spinlock (),.rcu],.act .store (.exit 0)⟩,⟨[],.exit 0⟩]
  | 5 => [⟨[.spinlock (),.rcu],.exit 0⟩,⟨[],.exit 0⟩]
  | 6 => [⟨[.rcu],.exit 0⟩,⟨[],.exit 0⟩]
  | 7 => [⟨[],.exit 0⟩,⟨[],.exit 0⟩]
  | 8 => [⟨[],.exit 0⟩]
  | _ => []

def doing : ℕ → Option (Event (Guard Unit) Access)
  | 1 => some (.opens .rcu)
  | 2 => some (.opens (.spinlock ()))
  | 3 => some (.act .load)
  | 4 => some (.act .store)
  | 5 => some (.closes (.spinlock ()))
  | 6 => some (.closes .rcu)
  | _ => none

theorem next_point {k : ℕ} {e : Option (Event (Guard Unit) Access)}
    {fs : List (Frame (Guard Unit) Access)} (hk : k ≤ 9) (h : next b (point k) = some (e,fs)) :
    k < 9 ∧ e = doing k ∧ fs = point (k+1) := by
  interval_cases k <;> cases h <;> exact ⟨by decide,rfl,rfl⟩

variable {s t : State H Unit (Counter H) Access} {pos : H → ℕ}

variable [Fintype H]

/-- Where each thread is, and how many have stored. -/
structure CountInv (s : State H Unit (Counter H) Access) (pos : H → ℕ) : Prop where
  points : ∀ h, pos h ≤ 9 ∧ s.frames h = point (pos h)
  cnt : s.data.cnt = BitVec.ofNat 32 (Finset.univ.filter (5 ≤ pos ·)).card
  loaded : ∀ h, pos h = 4 → s.data.loaded h = s.data.cnt

theorem CountInv.init {H : Type} [Fintype H] (d : Counter H) (hd : d.cnt = 0) :
    CountInv (init (fun _ => worker) d) fun _ => 0 where
  points h := ⟨by decide,rfl⟩
  cnt := by simp [ScopedLock.init,hd]
  loaded h hp := by cases hp

theorem stored_update (pos : H → ℕ) (h : H) :
    Finset.univ.filter (5 ≤ Function.update pos h (pos h+1) ·) =
      if pos h = 4 then insert h (Finset.univ.filter (5 ≤ pos ·))
      else Finset.univ.filter (5 ≤ pos ·) := by
  ext g
  by_cases hg : g = h
  · subst hg
    by_cases h4 : pos g = 4
    · simp [h4]
    · simp only [h4,if_false,Finset.mem_filter,Finset.mem_univ,true_and,Function.update_self]
      omega
  · split <;> simp [hg]

theorem CountInv.step (hi : CountInv s pos) (hl : LocksHeld s)
    (hst : ScopedLock.step access s (h,b) = some t) :
    CountInv t (Function.update pos h (pos h+1)) := by
  obtain ⟨e,fs,hn,hf,hcase⟩ := step_cases hst
  obtain ⟨hle,hfr⟩ := hi.points h
  rw [hfr] at hn
  obtain ⟨hlt,he,rfl⟩ := next_point hle hn
  have hpoints : ∀ g, Function.update pos h (pos h+1) g ≤ 9 ∧
      t.frames g = point (Function.update pos h (pos h+1) g) := by
    intro g
    rw [hf]
    by_cases hg : g = h
    · subst hg
      simpa using hlt
    · simpa [hg] using hi.points g
  have hone : ∀ g, pos g = 4 → pos h = 4 → g = h := by
    intro g hg hh
    have hmem : ∀ j, pos j = 4 → s.lock () = some j := by
      intro j hj
      apply hl.mem.mp
      rw [(hi.points j).2,hj]
      simp [point]
    exact Option.some.inj ((hmem g hg).symm.trans (hmem h hh))
  by_cases h4 : pos h = 4
  · rw [h4] at he
    obtain ⟨a,ha,_,hd⟩ : ∃ a, e = some (.act a) ∧ t.lock = s.lock ∧ t.data = access s.data h a := by
      rcases hcase with ⟨_,rfl,_⟩ | ⟨_,rfl,_⟩ | hcase | ⟨rfl | rfl | rfl,_⟩
      · cases he
      · cases he
      · exact hcase
      all_goals cases he
    obtain rfl : a = .store := by
      rw [he] at ha
      cases ha
      rfl
    refine ⟨hpoints,?_,fun g hg => ?_⟩
    · have hnot : h ∉ Finset.univ.filter (5 ≤ pos ·) := by simp [h4]
      rw [stored_update,if_pos h4,Finset.card_insert_of_notMem hnot,hd]
      simp only [access,hi.loaded h h4,hi.cnt]
      rw [BitVec.ofNat_add]
      rfl
    · have hgh : g ≠ h := by
        intro hgh
        subst hgh
        simp [h4] at hg
      rw [Function.update_of_ne hgh] at hg
      exact absurd (hone g hg h4) hgh
  · have hcnt : t.data.cnt = s.data.cnt ∧ ∀ g, g ≠ h ∨ pos h ≠ 3 →
        t.data.loaded g = s.data.loaded g := by
      rcases hcase with ⟨_,_,_,hd,_⟩ | ⟨_,_,hd,_⟩ | ⟨a,ha,_,hd⟩ | ⟨_,_,hd⟩
      · simp [hd]
      · simp [hd]
      · rw [hd]
        rw [he] at ha
        have h3 : pos h = 3 ∧ a = .load := by
          interval_cases pos h <;> simp_all [doing]
        obtain ⟨h3,rfl⟩ := h3
        refine ⟨rfl,fun g hg => Function.update_of_ne (hg.resolve_right fun hh => hh h3) _ _⟩
      · simp [hd]
    refine ⟨hpoints,by rw [stored_update,if_neg h4,hcnt.1,hi.cnt],fun g hg => ?_⟩
    by_cases hgh : g = h
    · subst hgh
      have h3 : pos g = 3 := by simpa using hg
      rcases hcase with ⟨_,rfl,_⟩ | ⟨_,rfl,_⟩ | ⟨a,ha,_,hd⟩ | ⟨rfl | rfl | rfl,_⟩
      · simp [h3,doing] at he
      · simp [h3,doing] at he
      · obtain rfl : a = .load := by
          rw [he,h3] at ha
          cases ha
          rfl
        simp [hd,access]
      all_goals simp [h3,doing] at he
    · rw [Function.update_of_ne hgh] at hg
      rw [hcnt.1,hcnt.2 g (.inl hgh)]
      exact hi.loaded g hg

/-- The threads of `src/scoped_lock/test.c`, any number of them: in every interleaving they come to
their ends, and then every one of them has been counted. -/
theorem settles_of_workers {d : Counter H} (hd : d.cnt = 0)
    (hr : Reach (ScopedLock.step access) Anything (init (fun _ => worker) d) s) :
    Settles (ScopedLock.step access) Anything
      (fun t => Over t ∧ t.data.cnt = BitVec.ofNat 32 (Fintype.card H)) s := by
  have hstep : ∀ (s : State H Unit (Counter H) Access) m t, OrderedInv (fun _ => 0) s →
      (∃ pos, CountInv s pos) → ScopedLock.step access s m = some t → ∃ pos, CountInv t pos := by
    rintro s m t hi ⟨pos,hp⟩ hst
    exact ⟨_,hp.step (h:=m.1) (b:=m.2) hi.locks hst⟩
  have hinv : OrderedInv (fun _ => 0) s ∧ ∃ pos, CountInv s pos := by
    refine hr.invariant (I:=fun s => OrderedInv (fun _ => 0) s ∧ ∃ pos, CountInv s pos)
      ⟨.init d (fun _ => rfl) fun _ => ?_,_,.init d hd⟩ fun s m t hi _ hst =>
        ⟨hi.1.step (h:=m.1) (b:=m.2) hst,hstep s m t hi.1 hi.2 hst⟩
    simp [worker,Code.Checked,Ascending]
  have hs := hinv.1.settles (I:=fun s => ∃ pos, CountInv s pos) hinv.2 hstep
  refine hs.mono fun t ht => ⟨ht.1,?_⟩
  obtain ⟨hover,pos,hp⟩ := ht
  have hall : ∀ h, 5 ≤ pos h := by
    intro h
    obtain ⟨hle,hf⟩ := hp.points h
    rw [hover.1 h] at hf
    by_contra hlt
    interval_cases pos h <;> cases hf
  rw [hp.cnt,Finset.filter_true_of_mem fun h _ => hall h,Finset.card_univ]

/-- Ten threads; the first one has loaded when the second one comes to the lock. -/
theorem settles_of_tenWorkers : ∃ s : State (Fin 10) Unit (Counter (Fin 10)) Access,
    Reach (step access) Anything (init (fun _ => worker) ⟨0,fun _ => 0⟩) s ∧
    step access s (1,true) = none ∧
    Settles (step access) Anything (fun t => Over t ∧ t.data.cnt = 10) s := by
  have hs : ∃ s : State (Fin 10) Unit (Counter (Fin 10)) Access, exec (step access)
      (init (fun _ => worker) ⟨0,fun _ => 0⟩)
      [(0,true),(1,true),(0,true),(1,true),(0,true),(0,true)] = some s ∧
      step access s (1,true) = none := ⟨_,rfl,rfl⟩
  obtain ⟨s,hs,hw⟩ := hs
  exact ⟨s,reach_of_exec hs,hw,settles_of_workers rfl (reach_of_exec hs)⟩

end Count

end ScopedLock
end Mthpc
