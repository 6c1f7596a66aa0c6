import Mthpc.Address
import Mthpc.Rcu

/-!
# Safe pointers

`src/safe_ptr/safe_ptr.c` with the functions of `src/rcu/rcu.c` that it calls, one whole
operation at a time. Blocks from `malloc` get fresh numbers, so that a freed node is
never taken for a new one; a call that dereferences `NULL` or an uninitialised pointer,
or that waits for a reader nobody will close, does not complete and is `none`.
-/
namespace Mthpc
namespace SafePtr

open StepSystem
open Rcu (Word gpCount gpCtrPhase gpCtrNestMask passes)

/-- `struct mthpc_rcu_node`; `data` is the control block its `rcu_data` is part of. -/
structure Node where
  id : BitVec 64
  gpSeq : Word
  data : ℕ
  deriving DecidableEq

/-- `struct mthpc_safe_cb` with the head and the `gp_seq` of its `rcu_data`. -/
structure Cb where
  refcount : BitVec 64
  head : List ℕ
  gpSeq : Word
  rawPtr : BitVec 64
  dtor : BitVec 64
  deriving DecidableEq

/-- `struct mthpc_safe_ptr`. -/
structure Sp where
  cb : Option ℕ
  id : BitVec 64
  rcuNode : Option ℕ
  deriving DecidableEq

/-- The destructor call of a control block: `dtor(data)`, or `free(data)` where `dtor` is 0. -/
structure Release where
  cb : ℕ
  dtor : BitVec 64
  data : BitVec 64
  deriving DecidableEq

/-- The last three fields are ghosts: the safe_ptrs that are alive, the destructor calls so
far, and the `rcu_data` whose address was given to `free`. It points into the control block,
and `free` aborts the process there: what follows such a call is for an allocator that lets it
pass. -/
structure State where
  cb : ℕ → Cb
  nextCb : ℕ
  node : ℕ → Node
  nextNode : ℕ
  sp : Address → Sp
  rcuCnt : BitVec 64
  live : Finset Address
  released : List Release
  dataFreed : List ℕ

/-- `mthpc_rcu_read_lock_internal`. -/
def readLock (s : State) : Option ℕ → Option State
  | none => none
  | some n => guarded (n < s.nextNode)
      { s with
        node := Function.update s.node n { s.node n with
          gpSeq := if (s.node n).gpSeq &&& gpCtrNestMask = 0 then (s.cb (s.node n).data).gpSeq
            else (s.node n).gpSeq+gpCount } }

/-- `mthpc_rcu_read_unlock_internal`; both arms subtract. -/
def readUnlock (s : State) : Option ℕ → Option State
  | none => none
  | some n => guarded (n < s.nextNode)
      { s with
        node := Function.update s.node n { s.node n with
          gpSeq := (s.node n).gpSeq+-gpCount } }

/-- The parameter `id` of `mthpc_rcu_add` and `mthpc_rcu_del` is an `unsigned int`. -/
def narrowId (id : BitVec 64) : BitVec 64 := (id.setWidth 32).setWidth 64

/-- `mthpc_rcu_add(&cb->rcu_data, id, rev)` where `malloc` succeeds: the state and the node
stored to `*rev`. -/
def rcuAdd (s : State) (c : ℕ) (id : BitVec 64) : State × ℕ :=
  match (s.cb c).head.find? fun m => (s.node m).id = narrowId id with
  | some m => ({ s with nextNode := s.nextNode+1 },m)
  | none =>
    ({ s with
      node := Function.update s.node s.nextNode ⟨narrowId id,0,c⟩
      nextNode := s.nextNode+1
      cb := Function.update s.cb c { s.cb c with head := (s.cb c).head ++ [s.nextNode] } },
    s.nextNode)

/-- `mthpc_rcu_del(&cb->rcu_data, id, node)`: the first node with the id is unlinked. -/
def rcuDel (s : State) (c : ℕ) (id : BitVec 64) : State :=
  { s with cb := Function.update s.cb c { s.cb c with
      head := (s.cb c).head.eraseP fun m => (s.node m).id = narrowId id } }

/-- `mthpc_wait_for_readers`: whether the loop ends, as no reader moves meanwhile. -/
def waitForReaders (s : State) (c : ℕ) (gpSeq : Word) : Bool :=
  (s.cb c).head.all fun m => passes (s.node m).gpSeq gpSeq

/-- `mthpc_synchronize_rcu_internal(&cb->rcu_data)`. -/
def synchronizeRcu (s : State) (c : ℕ) : Option State :=
  let curr := (s.cb c).gpSeq
  if waitForReaders s c curr then
    let t := { s with cb := Function.update s.cb c { s.cb c with gpSeq := curr ^^^ gpCtrPhase } }
    if waitForReaders t c curr then some t else none
  else none

/-- `mthpc_rcu_data_exit(&cb->rcu_data)`. -/
def rcuDataExit (s : State) (c : ℕ) : State :=
  { s with
    cb := Function.update s.cb c { s.cb c with head := [] }
    dataFreed := c::s.dataFreed }

/-- `mthpc_cb_rcu_init`. Without memory `mthpc_rcu_add` leaves `sp->rcu_node` as it is. -/
def spInit (s : State) (a : Address) (c : Option ℕ) (alloc : Bool) : Option State :=
  if alloc then
    c.map fun c =>
      let r := rcuAdd s c (s.sp a).id
      { r.1 with sp := Function.update r.1.sp a { r.1.sp a with rcuNode := some r.2 } }
  else some s

/-- `mthpc_cb_get`. -/
def cbGet (s : State) : Option ℕ → Option State
  | none => none
  | some c => some { s with
      cb := Function.update s.cb c { s.cb c with refcount := (s.cb c).refcount+1 } }

/-- `mthpc_cb_put`: the fetched count is narrowed to `int` before it is compared with 1. -/
def cbPut (s : State) (a : Address) : Option ℕ → Option State
  | none => none
  | some c =>
    let ret := (s.cb c).refcount.setWidth 32
    let s' := { s with
      cb := Function.update s.cb c { s.cb c with refcount := (s.cb c).refcount+-1 } }
    if ret = 1 then
      (synchronizeRcu s' c).map fun t =>
        let u := rcuDataExit t c
        { u with released := u.released ++ [⟨c,(u.cb c).dtor,(u.cb c).rawPtr⟩] }
    else some (rcuDel s' c (s.sp a).id)

/-- `mthpc_cb_create`. -/
def cbCreate (s : State) (data dtor : BitVec 64) (alloc : Bool) : State × Option ℕ :=
  if alloc then
    ({ s with
      cb := Function.update s.cb s.nextCb ⟨1,[],gpCount,data,dtor⟩
      nextCb := s.nextCb+1 },some s.nextCb)
  else (s,none)

/-- `sp->id = atomic_fetch_add(&mthpc_sp_rcu_cnt, 1)`. -/
def takeId (s : State) (a : Address) : State :=
  { s with
    sp := Function.update s.sp a { s.sp a with id := s.rcuCnt }
    rcuCnt := s.rcuCnt+1 }

/-- `mthpc_cb_store`. -/
def cbStore (s : State) (a : Address) (c : Option ℕ) : State :=
  { s with sp := Function.update s.sp a { s.sp a with cb := c } }

/-- The operations. A new safe_ptr has arbitrary contents `prior`; `cbAlloc` and `nodeAlloc`
say whether the two calls of `malloc` succeed. -/
inductive Op
  | create (a : Address) (data dtor : BitVec 64) (prior : Sp) (cbAlloc nodeAlloc : Bool)
  | destroy (a : Address)
  | store (a : Address) (data dtor : BitVec 64) (cbAlloc nodeAlloc : Bool)
  | load (a : Address)
  | cmpxhg (a : Address) (expected desired : BitVec 64)
  | borrow (src dst : Address) (prior : Sp) (nodeAlloc : Bool)

/-- `mthpc_safe_ptr_create`. -/
def create (s : State) (a : Address) (data dtor : BitVec 64) (cbAlloc nodeAlloc : Bool) :
    Option State :=
  let (s₁,c) := cbCreate s data dtor cbAlloc
  (spInit (takeId s₁ a) a c nodeAlloc).map fun t => cbStore t a c

/-- `mthpc_safe_ptr_store`. The branch after the exchange asks for `!old_cb`. -/
def store (s : State) (a : Address) (data dtor : BitVec 64) (cbAlloc nodeAlloc : Bool) :
    Option State :=
  let (s₁,c) := cbCreate s data dtor cbAlloc
  let old := (s₁.sp a).cb
  let s₂ := cbStore s₁ a c
  (if old = none then cbPut s₂ a old else some s₂).bind fun t => spInit t a c nodeAlloc

/-- `mthpc_safe_ptr_load`; the loaded pointer is returned. -/
def load (s : State) (a : Address) : Option (State × BitVec 64) :=
  (readLock s (s.sp a).rcuNode).bind fun t =>
    (t.sp a).cb.bind fun c => (readUnlock t (t.sp a).rcuNode).map fun u => (u,(t.cb c).rawPtr)

/-- `mthpc_safe_ptr_cmpxhg`; the result of the exchange is returned. -/
def cmpxhg (s : State) (a : Address) (expected desired : BitVec 64) : Option (State × Bool) :=
  (readLock s (s.sp a).rcuNode).bind fun t =>
    (t.sp a).cb.bind fun c =>
      let ret := decide ((t.cb c).rawPtr = expected)
      let t' := if ret then
          { t with cb := Function.update t.cb c { t.cb c with rawPtr := desired } }
        else t
      (readUnlock t' (t'.sp a).rcuNode).map fun u => (u,ret)

/-- `mthpc_pass_sp_post(src, dst)`: the section is opened on the node that `dst` names before
it gets its own. -/
def passSpPost (s : State) (src dst : Address) (nodeAlloc : Bool) : Option State :=
  (readLock s (s.sp dst).rcuNode).bind fun s₁ =>
    let c := (s₁.sp src).cb
    (cbGet s₁ c).bind fun s₂ =>
      (spInit (takeId s₂ dst) dst c nodeAlloc).bind fun s₃ =>
        readUnlock (cbStore s₃ dst c) ((cbStore s₃ dst c).sp dst).rcuNode

def State.begin (s : State) (a : Address) (prior : Sp) : State :=
  { s with sp := Function.update s.sp a prior, live := insert a s.live }

/-- One complete operation. -/
def step (s : State) : Op → Option State
  | .create a data dtor prior cbAlloc nodeAlloc =>
      if a ∉ s.live then create (s.begin a prior) a data dtor cbAlloc nodeAlloc else none
  | .destroy a =>
      if a ∈ s.live then
        (cbPut s a (s.sp a).cb).map fun t => { t with live := t.live.erase a }
      else none
  | .store a data dtor cbAlloc nodeAlloc =>
      if a ∈ s.live then store s a data dtor cbAlloc nodeAlloc else none
  | .load a => if a ∈ s.live then (load s a).map Prod.fst else none
  | .cmpxhg a expected desired =>
      if a ∈ s.live then (cmpxhg s a expected desired).map Prod.fst else none
  | .borrow src dst prior nodeAlloc =>
      if src ∈ s.live ∧ dst ∉ s.live then passSpPost (s.begin dst prior) src dst nodeAlloc
      else none

/-- No safe_ptr yet. -/
def init : State where
  cb := fun _ => ⟨0,[],0,0,0⟩
  nextCb := 0
  node := fun _ => ⟨0,0,0⟩
  nextNode := 0
  sp := fun _ => ⟨none,0,none⟩
  rcuCnt := 0
  live := ∅
  released := []
  dataFreed := []

end SafePtr
end Mthpc
