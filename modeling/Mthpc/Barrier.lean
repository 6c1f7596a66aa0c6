import Mthpc.StepSystem

/-!
# The centralized sense-reversing barrier

`src/centralized_barrier/centralized_barrier.c`. Each barrier has a flag, a counter
and a lock; the sense is one thread-local `int` that a thread toggles at every call,
whatever the barrier. The lock, the counter update, the unlock, the flag store and
each flag load are separate steps.
-/
namespace Mthpc
namespace Barrier

open StepSystem

/-- `size_t`. -/
abbrev Size := BitVec 64

/-- `struct mthpc_barrier`: `atomic_uint flag`, `int count` and the holder of its lock. -/
structure Bar (ι : Type) where
  flag : BitVec 32
  count : BitVec 32
  lock : Option ι
  deriving DecidableEq

/-- `mthpc_barrier_init`. -/
def barrierInit {ι : Type} : Bar ι := ⟨0,0,none⟩

/-- C's `!` on the local sense. -/
def lnot (sense : BitVec 32) : BitVec 32 := if sense = 0 then 1 else 0

/-- The three arms after `b->count++`. -/
inductive Arm
  | last | wait | warn
  deriving DecidableEq

/-- Which arm an arrival takes: `b->count` is an `int` converted to `size_t` for both
comparisons. -/
def arm (count : BitVec 32) (n : Size) : Arm :=
  if count.signExtend 64 = n then .last
  else if (count.signExtend 64).ult n then .wait
  else .warn

/-- Where a thread stands in `mthpc_centralized_barrier(b, n)`. -/
inductive CallPc (β : Type)
  | idle
  | lock (b : β) (n : Size) | update (b : β) (n : Size)
  | unlock (b : β) (a : Arm)
  | store (b : β) | spin (b : β)
  deriving DecidableEq

/-- The barriers `β` and the threads `ι`; `calls` is a ghost that counts the calls of a thread. -/
structure State (β ι : Type) where
  bar : β → Bar ι
  sense : ι → BitVec 32
  pc : ι → CallPc β
  calls : ι → ℕ

inductive Act (β ι : Type)
  | enter (i : ι) (b : β) (n : Size) | lock (i : ι) (b : β) (n : Size)
  | update (i : ι) (b : β) (n : Size) | unlock (i : ι) (b : β) (a : Arm)
  | store (i : ι) (b : β) | load (i : ι) (b : β)

def Act.thread {β ι : Type} : Act β ι → ι
  | .enter i _ _ | .lock i _ _ | .update i _ _ | .unlock i _ _ | .store i _ | .load i _ => i

/-- The barrier it is on. -/
def Act.on {β ι : Type} : Act β ι → β
  | .enter _ b _ | .lock _ b _ | .update _ b _ | .unlock _ b _ | .store _ b | .load _ b => b

def Act.isEnter {β ι : Type} : Act β ι → Bool
  | .enter _ _ _ => true
  | _ => false

/-- New threads: `mthpc_local_sense` starts at 0. -/
def init (β ι : Type) : State β ι where
  bar := fun _ => barrierInit
  sense := fun _ => 0
  pc := fun _ => .idle
  calls := fun _ => 0

variable {β ι : Type} [DecidableEq β] [DecidableEq ι]

def afterUnlock (b : β) : Arm → CallPc β
  | .last => .store b
  | .wait => .spin b
  | .warn => .idle

/-- One instruction of `mthpc_centralized_barrier`. The increment of the `int` counter
wraps as the compiled addition does. -/
def step (s : State β ι) : Act β ι → Option (State β ι)
  | .enter i b n => guarded (s.pc i = .idle)
      { s with
        sense := Function.update s.sense i (lnot (s.sense i))
        pc := Function.update s.pc i (.lock b n)
        calls := Function.update s.calls i (s.calls i+1) }
  | .lock i b n => guarded (s.pc i = .lock b n ∧ (s.bar b).lock = none)
      { s with
        bar := Function.update s.bar b { s.bar b with lock := some i }
        pc := Function.update s.pc i (.update b n) }
  | .update i b n => guarded (s.pc i = .update b n)
      { s with
        bar := Function.update s.bar b { s.bar b with
          count := if arm ((s.bar b).count+1) n = .last then 0 else (s.bar b).count+1 }
        pc := Function.update s.pc i (.unlock b (arm ((s.bar b).count+1) n)) }
  | .unlock i b a => guarded (s.pc i = .unlock b a)
      { s with
        bar := Function.update s.bar b { s.bar b with lock := none }
        pc := Function.update s.pc i (afterUnlock b a) }
  | .store i b => guarded (s.pc i = .store b)
      { s with
        bar := Function.update s.bar b { s.bar b with flag := s.sense i }
        pc := Function.update s.pc i .idle }
  | .load i b => guarded (s.pc i = .spin b)
      { s with
        pc := Function.update s.pc i (if (s.bar b).flag = s.sense i then .idle else .spin b) }

theorem step_other {s t : State β ι} {a : Act β ι} (h : step s a = some t) {i : ι}
    (hi : i ≠ a.thread) : t.pc i = s.pc i ∧ t.calls i = s.calls i ∧ t.sense i = s.sense i := by
  cases a <;> obtain ⟨_,rfl⟩ := guarded_eq_some.mp h <;> simp only [Act.thread] at hi <;>
    simp [hi]

theorem step_bar {s t : State β ι} {a : Act β ι} (h : step s a = some t) {b : β}
    (hb : b ≠ a.on) : t.bar b = s.bar b := by
  cases a <;> obtain ⟨_,rfl⟩ := guarded_eq_some.mp h <;> simp only [Act.on] at hb <;>
    simp [hb]

theorem step_calls {s t : State β ι} {a : Act β ι} (h : step s a = some t)
    (ha : a.isEnter = false) : t.calls = s.calls := by
  cases a <;> obtain ⟨_,rfl⟩ := guarded_eq_some.mp h <;> first | rfl | cases ha

/-- The local sense after `k` calls. -/
def senseAfter (k : ℕ) : BitVec 32 := lnot^[k] 0

theorem senseAfter_succ (k : ℕ) : senseAfter (k+1) = lnot (senseAfter k) := by
  rw [senseAfter,Function.iterate_succ_apply']
  rfl

theorem senseAfter_eq (k : ℕ) : senseAfter k = if Even k then 0 else 1 := by
  induction k with
  | zero => rfl
  | succ k ih =>
    rw [senseAfter_succ,ih]
    by_cases h : Even k <;> simp [h,lnot,Nat.even_add_one]

theorem sense_eq {s : State β ι} (h : Reach step Anything (init β ι) s) (i : ι) :
    s.sense i = senseAfter (s.calls i) := by
  refine h.invariant (I:=fun s => ∀ i, s.sense i = senseAfter (s.calls i)) (fun _ => rfl) ?_ i
  intro s a t hs _ hst j
  cases a with
  | enter i b n =>
    obtain ⟨_,rfl⟩ := guarded_eq_some.mp hst
    by_cases hj : j = i
    · subst hj; simp [senseAfter_succ,hs]
    · simpa [hj] using hs j
  | lock i b n | update i b n | unlock i b a | store i b | load i b =>
    obtain ⟨_,rfl⟩ := guarded_eq_some.mp hst
    exact hs j

end Barrier
end Mthpc
