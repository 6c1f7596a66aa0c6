import Mthpc.StepSystem

/-!
# Userspace RCU: reader words and the two-phase wait

`include/mthpc/rcu.h` and `src/rcu/rcu.c`. A reader node carries one 64-bit word
`gp_seq`: the nesting depth in the low half and, above it, the phase bit copied
from `data->gp_seq` when the outermost section opens. A synchronizer holds
`data->lock`, waits for the readers of the current phase, flips the phase and
waits again. Every load, store, fetch-add and lock operation is one step.
-/
namespace Mthpc
namespace Rcu

open StepSystem

/-- `unsigned long`. -/
abbrev Word := BitVec 64

/-- `MTHPC_GP_COUNT`. -/
def gpCount : Word := 1#64 <<< 0

/-- `MTHPC_GP_CTR_PHASE`, that is `1UL << (sizeof(unsigned long) << 2)`. -/
def gpCtrPhase : Word := 1#64 <<< (8 <<< 2)

/-- `MTHPC_GP_CTR_NEST_MASK`. -/
def gpCtrNestMask : Word := gpCtrPhase-1

def depthOf (w : Word) : ℕ := w.toNat%2^32

def phaseOf (w : Word) : Bool := w.getLsbD 32

theorem gpCtrNestMask_eq : gpCtrNestMask = BitVec.ofNat 64 (2^32-1) := by decide

theorem gpCtrPhase_eq : gpCtrPhase = BitVec.twoPow 64 32 := by decide

theorem toNat_and_mask (w : Word) : (w &&& gpCtrNestMask).toNat = depthOf w := by
  rw [gpCtrNestMask_eq,BitVec.toNat_and,depthOf]
  exact Nat.and_two_pow_sub_one_eq_mod w.toNat 32

theorem and_mask_eq_zero (w : Word) : w &&& gpCtrNestMask = 0 ↔ depthOf w = 0 := by
  rw [← toNat_and_mask,← BitVec.toNat_inj]
  simp

theorem xor_and_phase_eq_zero (a b : Word) :
    (a ^^^ b) &&& gpCtrPhase = 0 ↔ phaseOf a = phaseOf b := by
  rw [gpCtrPhase_eq,BitVec.and_twoPow,BitVec.getLsbD_xor,phaseOf,phaseOf]
  cases a.getLsbD 32 <;> cases b.getLsbD 32 <;> simp <;> decide

theorem phaseOf_eq (w : Word) : phaseOf w = decide (w.toNat/2^32%2 = 1) := by
  rw [phaseOf,BitVec.getLsbD,Nat.testBit_eq_decide_div_mod_eq]

theorem toNat_add_count (w : Word) (h : depthOf w+1 < 2^32) : (w+gpCount).toNat = w.toNat+1 := by
  have hw := w.isLt
  have hc : gpCount.toNat = 1 := by decide
  rw [depthOf] at h
  rw [BitVec.toNat_add,hc]
  omega

theorem toNat_sub_count (w : Word) (h : 0 < depthOf w) : (w+-gpCount).toNat = w.toNat-1 := by
  have hw := w.isLt
  have hc : (-gpCount).toNat = 2^64-1 := by decide
  rw [depthOf] at h
  rw [BitVec.toNat_add,hc]
  omega

theorem depthOf_add (w : Word) (h : depthOf w+1 < 2^32) : depthOf (w+gpCount) = depthOf w+1 := by
  rw [depthOf,toNat_add_count w h]
  rw [depthOf] at h ⊢
  omega

theorem phaseOf_add (w : Word) (h : depthOf w+1 < 2^32) : phaseOf (w+gpCount) = phaseOf w := by
  have hd : (w.toNat+1)/2^32 = w.toNat/2^32 := by rw [depthOf] at h; omega
  rw [phaseOf_eq,phaseOf_eq,toNat_add_count w h,hd]

theorem depthOf_sub (w : Word) (h : 0 < depthOf w) : depthOf (w+-gpCount) = depthOf w-1 := by
  rw [depthOf,toNat_sub_count w h]
  rw [depthOf] at h ⊢
  omega

theorem phaseOf_sub (w : Word) (h : 0 < depthOf w) : phaseOf (w+-gpCount) = phaseOf w := by
  have hd : (w.toNat-1)/2^32 = w.toNat/2^32 := by rw [depthOf] at h; omega
  rw [phaseOf_eq,phaseOf_eq,toNat_sub_count w h,hd]

@[simp] theorem phaseOf_flip (w : Word) : phaseOf (w ^^^ gpCtrPhase) = !phaseOf w := by
  rw [gpCtrPhase_eq,phaseOf,phaseOf,BitVec.getLsbD_xor,BitVec.getLsbD_twoPow]
  simp

@[simp] theorem depthOf_flip (w : Word) : depthOf (w ^^^ gpCtrPhase) = depthOf w := by
  have hm : gpCtrPhase.toNat &&& gpCtrNestMask.toNat = 0 := by decide
  rw [← toNat_and_mask,← toNat_and_mask,BitVec.toNat_and,BitVec.toNat_xor,
    Nat.and_xor_distrib_right,hm,Nat.xor_zero,BitVec.toNat_and]

@[simp] theorem depthOf_gpCount : depthOf gpCount = 1 := by decide

/-- Where a thread stands in `mthpc_rcu_read_lock_internal` or
`mthpc_rcu_read_unlock_internal`: the loaded words are its local `node_gp`
and the value of `data->gp_seq` it is about to store. -/
inductive ReaderPc
  | idle
  | lockTest (nodeGp : Word)
  | lockStore (dataGp : Word)
  | unlockTest (nodeGp : Word)
  deriving DecidableEq

/-- Where a thread stands in `mthpc_synchronize_rcu_internal`; `wait` is
`mthpc_wait_for_readers(data, curr_gp)` with the nodes still to be passed, its
first call before the flip and its second call after it. -/
inductive SyncPc (ι : Type)
  | idle | lock | readGp
  | wait (flipped : Bool) (currGp : Word) (rest : List ι)
  | readFlip (currGp : Word) | writeFlip (currGp dataGp : Word)
  | unlock | ret
  deriving DecidableEq

/-- One `mthpc_rcu_data` with the nodes of its readers `ι` and its synchronizers `κ`.
The last two fields are ghosts: `depth r` counts the completed read_locks of `r`
without their read_unlock, and `owed k r` says that the section which was open on
`r` when the current call of `k` started is still open. -/
structure State (ι κ : Type) where
  gpSeq : Word
  lock : Option κ
  node : ι → Word
  reader : ι → ReaderPc
  sync : κ → SyncPc ι
  depth : ι → ℕ
  owed : κ → ι → Bool

/-- The instructions of both parties with the operands they find. -/
inductive Act (ι κ : Type)
  | lockLoad (r : ι) | lockRead (r : ι) (w : Word) | lockStore (r : ι) (v : Word)
  | lockAdd (r : ι) (w : Word)
  | unlockLoad (r : ι) | unlockAdd (r : ι) (w : Word)
  | syncCall (k : κ) | syncLock (k : κ) | syncRead (k : κ)
  | waitPass (k : κ) (flipped : Bool) (curr : Word) (n : ι) (rest : List ι)
  | waitAgain (k : κ) (flipped : Bool) (curr : Word) (n : ι) (rest : List ι)
  | waitDone (k : κ) (flipped : Bool) (curr : Word)
  | readFlip (k : κ) (curr : Word) | writeFlip (k : κ) (curr v : Word)
  | syncUnlock (k : κ) | syncReturn (k : κ)

/-- `mthpc_rcu_data_init` and `mthpc_rcu_add`: phase zero, no open section. -/
def init (ι κ : Type) : State ι κ where
  gpSeq := gpCount
  lock := none
  node := fun _ => 0
  reader := fun _ => .idle
  sync := fun _ => .idle
  depth := fun _ => 0
  owed := fun _ _ => false

/-- The loop of `mthpc_wait_for_readers` leaves a node that is inactive or in the other phase. -/
def passes (nodeGp gpSeq : Word) : Bool :=
  nodeGp &&& gpCtrNestMask == 0 || (nodeGp ^^^ gpSeq) &&& gpCtrPhase != 0

theorem passes_iff (nodeGp gpSeq : Word) :
    passes nodeGp gpSeq = true ↔ depthOf nodeGp = 0 ∨ phaseOf nodeGp ≠ phaseOf gpSeq := by
  simp only [passes,Bool.or_eq_true,beq_iff_eq,bne_iff_ne,ne_eq,and_mask_eq_zero,
    xor_and_phase_eq_zero]

variable {ι κ : Type} [DecidableEq ι] [DecidableEq κ]

/-- One instruction; `nodes` is the chain from `data->head`. -/
def step (nodes : List ι) (s : State ι κ) : Act ι κ → Option (State ι κ)
  | .lockLoad r => guarded (s.reader r = .idle)
      { s with reader := Function.update s.reader r (.lockTest (s.node r)) }
  | .lockRead r w => guarded (s.reader r = .lockTest w ∧ w &&& gpCtrNestMask = 0)
      { s with reader := Function.update s.reader r (.lockStore s.gpSeq) }
  | .lockStore r v => guarded (s.reader r = .lockStore v)
      { s with
        node := Function.update s.node r v
        depth := Function.update s.depth r (s.depth r+1)
        reader := Function.update s.reader r .idle }
  | .lockAdd r w => guarded (s.reader r = .lockTest w ∧ w &&& gpCtrNestMask ≠ 0)
      { s with
        node := Function.update s.node r (s.node r+gpCount)
        depth := Function.update s.depth r (s.depth r+1)
        reader := Function.update s.reader r .idle }
  -- properly nested: an unlock is called inside a section
  | .unlockLoad r => guarded (s.reader r = .idle ∧ 0 < s.depth r)
      { s with reader := Function.update s.reader r (.unlockTest (s.node r)) }
  -- both arms of the branch on `node_gp` subtract; they differ in memory order only
  | .unlockAdd r w => guarded (s.reader r = .unlockTest w)
      { s with
        node := Function.update s.node r (s.node r+-gpCount)
        depth := Function.update s.depth r (s.depth r-1)
        reader := Function.update s.reader r .idle
        owed := fun k q => s.owed k q && !(q == r && s.depth r == 1) }
  | .syncCall k => guarded (s.sync k = .idle)
      { s with
        sync := Function.update s.sync k .lock
        owed := Function.update s.owed k fun r => decide (0 < s.depth r) }
  | .syncLock k => guarded (s.sync k = .lock ∧ s.lock = none)
      { s with sync := Function.update s.sync k .readGp, lock := some k }
  | .syncRead k => guarded (s.sync k = .readGp)
      { s with sync := Function.update s.sync k (.wait false s.gpSeq nodes) }
  | .waitPass k b curr n rest =>
      guarded (s.sync k = .wait b curr (n::rest) ∧ passes (s.node n) curr = true)
      { s with sync := Function.update s.sync k (.wait b curr rest) }
  | .waitAgain k b curr n rest =>
      guarded (s.sync k = .wait b curr (n::rest) ∧ passes (s.node n) curr = false) s
  | .waitDone k b curr => guarded (s.sync k = .wait b curr [])
      { s with sync := Function.update s.sync k (if b then .unlock else .readFlip curr) }
  | .readFlip k curr => guarded (s.sync k = .readFlip curr)
      { s with sync := Function.update s.sync k (.writeFlip curr s.gpSeq) }
  | .writeFlip k curr v => guarded (s.sync k = .writeFlip curr v)
      { s with
        gpSeq := v ^^^ gpCtrPhase
        sync := Function.update s.sync k (.wait true curr nodes) }
  | .syncUnlock k => guarded (s.sync k = .unlock)
      { s with sync := Function.update s.sync k .ret, lock := none }
  | .syncReturn k => guarded (s.sync k = .ret)
      { s with sync := Function.update s.sync k .idle }

end Rcu
end Mthpc
