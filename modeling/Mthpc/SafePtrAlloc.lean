import Mthpc.AllocTable
import Mthpc.SafePtrNodes

/-!
# What the safe_ptrs allocate and free

The control blocks and the nodes come from `malloc`. The `rcu_data` of a safe_ptr is part of
its control block, but `mthpc_rcu_data_exit` frees it as a block of its own, before the last
`mthpc_cb_put` reads the destructor; the control block itself is never freed.
-/
namespace Mthpc
namespace SafePtr

open StepSystem AllocTable
open Rcu (gpCtrNestMask)

/-- What `malloc` returned: control blocks, nodes, and the objects of the user. -/
inductive Block
  | cb (c : ℕ)
  | node (n : ℕ)
  | data (rawPtr : BitVec 64)
  deriving DecidableEq

abbrev Ev := Event Block

/-- `free(node)` and `free(target)`. -/
def freeNode (n : ℕ) : Ev := .free (.base (.node n))

/-- `mthpc_rcu_read_lock_internal` reads `node->data->gp_seq` in its first arm. -/
def readLockEvents (s : State) : Option ℕ → List Ev
  | none => []
  | some n =>
    if (s.node n).gpSeq &&& gpCtrNestMask = 0 then [.read (.cb (s.node n).data)] else []

/-- `mthpc_rcu_add` where `malloc` succeeds. -/
def rcuAddEvents (s : State) (c : ℕ) (id : BitVec 64) : List Ev :=
  .malloc (.node s.nextNode)::.read (.cb c)::
    match (s.cb c).head.find? fun m => (s.node m).id = narrowId id with
    | some _ => [freeNode s.nextNode]
    | none => []

/-- `mthpc_rcu_del`. -/
def rcuDelEvents (s : State) (c : ℕ) (id : BitVec 64) : List Ev :=
  .read (.cb c)::
    match (s.cb c).head.find? fun m => (s.node m).id = narrowId id with
    | some target => [freeNode target]
    | none => []

/-- `mthpc_rcu_data_exit(&cb->rcu_data)`. -/
def rcuDataExitEvents (s : State) (c : ℕ) : List Ev :=
  .read (.cb c)::(s.cb c).head.map freeNode ++ [.read (.cb c),.free (.inside (.cb c))]

/-- The destructor call; `free(NULL)` does nothing. -/
def releaseEvents (s : State) (c : ℕ) : List Ev :=
  .read (.cb c)::
    if (s.cb c).dtor = 0 ∧ (s.cb c).rawPtr ≠ 0 then [.free (.base (.data (s.cb c).rawPtr))] else []

/-- `mthpc_cb_put`; `mthpc_synchronize_rcu_internal` reads the control block. -/
def cbPutEvents (s : State) (a : Address) (c : ℕ) : List Ev :=
  .read (.cb c)::
    if (s.cb c).refcount.setWidth 32 = (1 : BitVec 32) then
      .read (.cb c)::rcuDataExitEvents s c ++ releaseEvents s c
    else rcuDelEvents s c (s.sp a).id

/-- `mthpc_cb_rcu_init`. -/
def spInitEvents (s : State) (a : Address) (c : Option ℕ) (alloc : Bool) : List Ev :=
  if alloc then c.elim [] fun c => rcuAddEvents s c (s.sp a).id else []

/-- `mthpc_safe_ptr_create`. -/
def createEvents (s : State) (a : Address) (data dtor : BitVec 64) (cbAlloc nodeAlloc : Bool) :
    List Ev :=
  let (s₁,c) := cbCreate s data dtor cbAlloc
  (if cbAlloc then [.malloc (.cb s.nextCb)] else []) ++ spInitEvents (takeId s₁ a) a c nodeAlloc

/-- `mthpc_pass_sp_post`; `mthpc_cb_get` reads the count. -/
def passSpPostEvents (s : State) (src dst : Address) (nodeAlloc : Bool) : List Ev :=
  readLockEvents s (s.sp dst).rcuNode ++
    (readLock s (s.sp dst).rcuNode).elim [] fun s₁ =>
      let c := (s₁.sp src).cb
      (c.elim [] fun c => [.read (.cb c)]) ++
        (cbGet s₁ c).elim [] fun s₂ => spInitEvents (takeId s₂ dst) dst c nodeAlloc

def opEvents (s : State) : Op → List Ev
  | .create a data dtor prior cbAlloc nodeAlloc =>
      createEvents (s.begin a prior) a data dtor cbAlloc nodeAlloc
  | .destroy a => (s.sp a).cb.elim [] fun c => cbPutEvents s a c
  | .borrow src dst prior nodeAlloc => passSpPostEvents (s.begin dst prior) src dst nodeAlloc
  | _ => []

/-- The safe_ptrs with the events so far. -/
structure Heap where
  st : State
  events : List Ev

def Op.owning : Op → Bool
  | .create _ _ _ _ _ _ | .destroy _ | .borrow _ _ _ _ => true
  | _ => false

def heapStep (h : Heap) (op : Op) : Option Heap :=
  if op.owning then (step h.st op).map fun t => ⟨t,h.events ++ opEvents h.st op⟩ else none

def Heap.init : Heap := ⟨SafePtr.init,[]⟩

def userTable (user : Finset (BitVec 64)) : Table Block := ⟨user.image .data,∅⟩

/-- The events are allowed, and nothing that the operations allocated is left once every
safe_ptr is destroyed. -/
def AllocBalanced (user : Finset (BitVec 64)) (h : Heap) : Prop :=
  ∃ tbl, (userTable user).run h.events = some tbl ∧
    (h.st.live = ∅ → (∀ c, .cb c ∉ tbl.blocks) ∧ ∀ n, .node n ∉ tbl.blocks)

/-- No put finds the count 1, in the 32 bits that it compares. -/
def Shares (h : Heap) : Op → Prop
  | .destroy a => ∀ c ∈ (h.st.sp a).cb, (h.st.cb c).refcount.setWidth 32 ≠ (1 : BitVec 32)
  | _ => True

instance (h : Heap) : ∀ op, Decidable (Shares h op)
  | .destroy a => inferInstanceAs (Decidable
      (∀ c ∈ (h.st.sp a).cb, (h.st.cb c).refcount.setWidth 32 ≠ (1 : BitVec 32)))
  | .create _ _ _ _ _ _ | .store _ _ _ _ _ | .load _ | .cmpxhg _ _ _ | .borrow _ _ _ _ =>
    inferInstanceAs (Decidable True)

/-- The table holds the nodes on the lists, and no control block was freed. -/
structure TableInv (s : State) (tbl : Table Block) : Prop where
  listed : ∀ c < s.nextCb, ∀ n ∈ (s.cb c).head, .node n ∈ tbl.blocks
  cbMade : ∀ c, .cb c ∈ tbl.blocks → c < s.nextCb
  nodeMade : ∀ n, .node n ∈ tbl.blocks → n < s.nextNode ∧ 0 < s.nextCb
  cbKept : ∀ c, .cb c ∉ tbl.freed
  nodeFreed : ∀ n, .node n ∈ tbl.freed → n < s.nextNode

section Tables

variable {s t : State} {tbl : Table Block} {c : ℕ} {id : BitVec 64} {a src dst : Address}
  {alloc : Bool}

theorem TableInv.same (h : TableInv s tbl) (hhead : ∀ c, (t.cb c).head = (s.cb c).head)
    (hcb : t.nextCb = s.nextCb) (hnode : t.nextNode = s.nextNode) : TableInv t tbl := by
  refine ⟨fun c hc n hn => ?_,fun c hc => ?_,fun n hn => ?_,h.cbKept,fun n hn => ?_⟩
  · rw [hhead] at hn
    exact h.listed c (hcb ▸ hc) n hn
  · rw [hcb]
    exact h.cbMade c hc
  · rw [hcb,hnode]
    exact h.nodeMade n hn
  · rw [hnode]
    exact h.nodeFreed n hn

theorem TableInv.cbCreate (h : TableInv s tbl) (data dtor : BitVec 64) (alloc : Bool) : ∃ tbl',
    tbl.run (if alloc then [.malloc (.cb s.nextCb)] else []) = some tbl' ∧
      TableInv (cbCreate s data dtor alloc).1 tbl' := by
  cases alloc with
  | false => exact ⟨tbl,rfl,h⟩
  | true =>
    have hnew : .cb s.nextCb ∉ tbl.blocks := fun hm => lt_irrefl _ (h.cbMade _ hm)
    refine ⟨_,run_malloc hnew (h.cbKept _),fun d hd n hn => ?_,fun d hd => ?_,fun n hn => ?_,
      h.cbKept,h.nodeFreed⟩
    · rcases Nat.lt_succ_iff_lt_or_eq.mp hd with hlt | rfl
      · simp only [SafePtr.cbCreate,if_true,Function.update_of_ne hlt.ne] at hn
        exact Finset.mem_insert_of_mem (h.listed d hlt n hn)
      · simp [SafePtr.cbCreate] at hn
    · rcases Finset.mem_insert.mp hd with he | hm
      · cases he
        exact Nat.lt_succ_self _
      · exact (h.cbMade d hm).trans (Nat.lt_succ_self _)
    · obtain ⟨hlt,_⟩ := h.nodeMade n ((Finset.mem_insert.mp hn).resolve_left (by rintro ⟨⟩))
      exact ⟨hlt,Nat.succ_pos _⟩

theorem TableInv.rcuAdd (h : TableInv s tbl) (hc : c < s.nextCb) (id : BitVec 64) : ∃ tbl',
    tbl.run (rcuAddEvents s c id) = some tbl' ∧ TableInv (rcuAdd s c id).1 tbl' := by
  have hnew : .node s.nextNode ∉ tbl.blocks := fun hm => lt_irrefl _ (h.nodeMade _ hm).1
  have hold : .node s.nextNode ∉ tbl.freed := fun hm => lt_irrefl _ (h.nodeFreed _ hm)
  have hlt : ∀ n, n < s.nextNode → n < s.nextNode+1 := fun n hn => hn.trans (Nat.lt_succ_self _)
  rw [rcuAddEvents,SafePtr.rcuAdd,run_malloc hnew hold,
    run_read (t:=⟨insert (.node s.nextNode) tbl.blocks,tbl.freed⟩) (h.cbKept c)]
  cases hf : (s.cb c).head.find? fun m => (s.node m).id = narrowId id with
  | some m =>
    -- the node that was allocated for nothing is freed again
    refine ⟨_,run_free (Finset.mem_insert_self _ _),fun d hd n hn => ?_,fun d hd => ?_,
      fun n hn => ?_,fun d hd => ?_,fun n hn => ?_⟩
    · rw [Finset.erase_insert hnew]
      exact h.listed d hd n hn
    · rw [Finset.erase_insert hnew] at hd
      exact h.cbMade d hd
    · rw [Finset.erase_insert hnew] at hn
      exact ⟨hlt n (h.nodeMade n hn).1,(h.nodeMade n hn).2⟩
    · exact h.cbKept d ((Finset.mem_insert.mp hd).resolve_left (by rintro ⟨⟩))
    · rcases Finset.mem_insert.mp hn with he | hn
      · cases he
        exact Nat.lt_succ_self _
      · exact hlt n (h.nodeFreed n hn)
  | none =>
    refine ⟨_,run_nil,fun d hd n hn => ?_,fun d hd => ?_,fun n hn => ?_,h.cbKept,
      fun n hn => hlt n (h.nodeFreed n hn)⟩
    · by_cases hdc : d = c
      · subst hdc
        simp only [Function.update_self,List.mem_append,List.mem_singleton] at hn
        rcases hn with hn | rfl
        · exact Finset.mem_insert_of_mem (h.listed d hd n hn)
        · exact Finset.mem_insert_self _ _
      · simp only [Function.update_of_ne hdc] at hn
        exact Finset.mem_insert_of_mem (h.listed d hd n hn)
    · exact h.cbMade d ((Finset.mem_insert.mp hd).resolve_left (by rintro ⟨⟩))
    · rcases Finset.mem_insert.mp hn with he | hn
      · cases he
        exact ⟨Nat.lt_succ_self _,Nat.zero_lt_of_lt hc⟩
      · exact ⟨hlt n (h.nodeMade n hn).1,(h.nodeMade n hn).2⟩

theorem notMem_eraseP_of_find? {l : List ℕ} {p : ℕ → Bool} {m : ℕ} (hl : l.Nodup)
    (hm : l.find? p = some m) : m ∉ l.eraseP p := by
  induction l with
  | nil => exact List.not_mem_nil
  | cons n l ih =>
    obtain ⟨hn,hl⟩ := List.nodup_cons.mp hl
    cases hp : p n with
    | true =>
      rw [List.find?_cons_of_pos hp] at hm
      cases hm
      rw [List.eraseP_cons_of_pos hp]
      exact hn
    | false =>
      rw [List.find?_cons_of_neg (by simp [hp])] at hm
      rw [List.eraseP_cons_of_neg (by simp [hp]),List.mem_cons,not_or]
      refine ⟨?_,ih hl hm⟩
      rintro rfl
      exact hn (List.mem_of_find?_eq_some hm)

theorem TableInv.rcuDel (h : TableInv s tbl) (hs : NodeInv s) (hc : c < s.nextCb)
    (id : BitVec 64) :
    ∃ tbl',
      tbl.run (rcuDelEvents s c id) = some tbl' ∧ TableInv (rcuDel s c id) tbl' := by
  have hsub : ∀ d, ∀ n ∈ ((SafePtr.rcuDel s c id).cb d).head, n ∈ (s.cb d).head :=
    fun d n hn => ((rcuDel_sameNodes s c id).head d).subset hn
  rw [rcuDelEvents,run_read (h.cbKept c)]
  cases hf : (s.cb c).head.find? fun m => (s.node m).id = narrowId id with
  | none =>
    exact ⟨tbl,run_nil,fun d hd n hn => h.listed d hd n (hsub d n hn),h.cbMade,h.nodeMade,h.cbKept,
      h.nodeFreed⟩
  | some m =>
    have hm := List.mem_of_find?_eq_some hf
    have hlisted := h.listed c hc m hm
    refine ⟨_,run_free hlisted,fun d hd n hn => ?_,fun d hd => ?_,fun n hn => ?_,fun d hd => ?_,
      fun n hn => ?_⟩
    · refine Finset.mem_erase.mpr ⟨?_,h.listed d hd n (hsub d n hn)⟩
      -- another control block has other nodes
      rintro ⟨⟩
      have hdc : d = c := by
        rw [← hs.data d hd m (hsub d m hn),hs.data c hc m hm]
      subst hdc
      simp only [SafePtr.rcuDel,Function.update_self] at hn
      exact notMem_eraseP_of_find? (hs.nodup d hd) hf hn
    · exact h.cbMade d (Finset.mem_of_mem_erase hd)
    · exact h.nodeMade n (Finset.mem_of_mem_erase hn)
    · exact h.cbKept d ((Finset.mem_insert.mp hd).resolve_left (by rintro ⟨⟩))
    · rcases Finset.mem_insert.mp hn with he | hn
      · cases he
        exact hs.made c hc m hm
      · exact h.nodeFreed n hn

theorem TableInv.spInit {c : Option ℕ} (h : TableInv s tbl) (hi : spInit s a c alloc = some t)
    (hc : ∀ d, c = some d → d < s.nextCb) : ∃ tbl',
      tbl.run (spInitEvents s a c alloc) = some tbl' ∧ TableInv t tbl' := by
  rw [SafePtr.spInit] at hi
  cases alloc with
  | false =>
    cases hi
    exact ⟨tbl,run_nil,h⟩
  | true =>
    obtain ⟨d,rfl,rfl⟩ := Option.map_eq_some_iff.mp (if_pos rfl ▸ hi)
    obtain ⟨tbl',hrun,hinv⟩ := h.rcuAdd (hc d rfl) (s.sp a).id
    exact ⟨tbl',hrun,hinv.same (fun _ => rfl) rfl rfl⟩

theorem TableInv.cbPut (h : TableInv s tbl) (hs : NodeInv s) (hc : c < s.nextCb)
    (hret : (s.cb c).refcount.setWidth 32 ≠ (1 : BitVec 32)) (hp : cbPut s a (some c) = some t) :
    ∃ tbl', tbl.run (cbPutEvents s a c) = some tbl' ∧ TableInv t tbl' := by
  simp only [SafePtr.cbPut] at hp
  rw [if_neg hret] at hp
  cases hp
  obtain ⟨tbl',hrun,hinv⟩ := h.rcuDel hs hc (s.sp a).id
  refine ⟨tbl',?_,hinv.same (fun d => ?_) rfl rfl⟩
  · rw [cbPutEvents,run_read (h.cbKept c),if_neg hret,hrun]
  · by_cases hd : d = c <;> simp [SafePtr.rcuDel,hd]

theorem TableInv.readLock {x : Option ℕ} (h : TableInv s tbl) :
    tbl.run (readLockEvents s x) = some tbl := by
  cases x with
  | none => rfl
  | some n =>
    rw [readLockEvents]
    split
    · rw [run_read (h.cbKept _),run_nil]
    · rfl

theorem TableInv.passSpPost (h : TableInv s tbl) (hp : passSpPost s src dst alloc = some t)
    (hc : ∀ d, (s.sp src).cb = some d → d < s.nextCb) : ∃ tbl',
      tbl.run (passSpPostEvents s src dst alloc) = some tbl' ∧ TableInv t tbl' := by
  obtain ⟨s₁,h₁,hrest⟩ := Option.bind_eq_some_iff.mp hp
  obtain ⟨s₂,h₂,hrest⟩ := Option.bind_eq_some_iff.mp hrest
  obtain ⟨s₃,h₃,h₄⟩ := Option.bind_eq_some_iff.mp hrest
  have hsrc := (readLock_agree h₁).owner src
  have hnext := (readLock_agree h₁).nextCb
  cases hcb : (s₁.sp src).cb with
  | none =>
    rw [hcb] at h₂
    cases h₂
  | some d =>
    rw [hcb] at h₂ h₃ h₄
    have hlt : d < s.nextCb := hc d (by rw [← hsrc,hcb])
    have h₁' : TableInv s₁ tbl := by
      cases hx : (s.sp dst).rcuNode with
      | none =>
        rw [hx] at h₁
        cases h₁
      | some n =>
        rw [hx] at h₁
        obtain ⟨_,rfl⟩ := guarded_eq_some.mp h₁
        exact h.same (fun _ => rfl) rfl rfl
    have h₂' : TableInv (takeId s₂ dst) tbl := by
      cases h₂
      refine h₁'.same (fun e => ?_) rfl rfl
      by_cases he : e = d <;> simp [takeId,he]
    have hlt₂ : ∀ e, some d = some e → e < (takeId s₂ dst).nextCb := by
      rintro e ⟨⟩
      cases h₂
      exact hnext ▸ hlt
    obtain ⟨tbl',hrun,hinv⟩ := h₂'.spInit h₃ hlt₂
    refine ⟨tbl',?_,?_⟩
    · rw [passSpPostEvents]
      refine run_trans h.readLock ?_
      rw [h₁]
      dsimp only [Option.elim_some]
      rw [hcb,h₂]
      dsimp only [Option.elim_some,List.cons_append,List.nil_append]
      rw [run_read (h.cbKept d),hrun]
    · cases hx : ((cbStore s₃ dst (some d)).sp dst).rcuNode with
      | none =>
        rw [hx] at h₄
        cases h₄
      | some n =>
        rw [hx] at h₄
        obtain ⟨_,rfl⟩ := guarded_eq_some.mp h₄
        exact hinv.same (fun _ => rfl) rfl rfl

end Tables

/-- What holds in the runs that release nothing. -/
structure HeapInv (user : Finset (BitVec 64)) (h : Heap) : Prop where
  owned : Inv h.st
  nodes : NodeInv h.st
  quiet : h.st.released = []
  table : ∃ tbl, (userTable user).run h.events = some tbl ∧ TableInv h.st tbl

section Runs

variable {user : Finset (BitVec 64)} {h h' : Heap} {op : Op} {ops : List Op}

theorem heapStep_some (hst : heapStep h op = some h') : op.owning = true ∧ ∃ t,
    step h.st op = some t ∧ h' = ⟨t,h.events ++ opEvents h.st op⟩ := by
  rw [heapStep] at hst
  split at hst
  · rename_i ho
    obtain ⟨t,ht,rfl⟩ := Option.map_eq_some_iff.mp hst
    exact ⟨ho,t,ht,rfl⟩
  · cases hst

theorem create_released {s t : State} {a : Address} {data dtor : BitVec 64} {prior : Sp}
    {cbAlloc nodeAlloc : Bool}
    (hst : step s (.create a data dtor prior cbAlloc nodeAlloc) = some t) :
    t.released = s.released := by
  simp only [step] at hst
  split at hst
  · obtain ⟨u,hu,rfl⟩ := create_begins hst
    refine hu.released.trans ?_
    cases cbAlloc <;> rfl
  · cases hst

theorem borrow_released {s t : State} {src dst : Address} {prior : Sp} {nodeAlloc : Bool}
    (hst : step s (.borrow src dst prior nodeAlloc) = some t) : t.released = s.released := by
  simp only [step] at hst
  split at hst
  · obtain ⟨c,u,v,-,hu,hv,ht⟩ := passSpPost_agree hst
    exact (ht.released.trans hv.released).trans hu.released
  · cases hst

theorem TableInv.operate {s t : State} {tbl : Table Block} (h : TableInv s tbl) (ho : Inv s)
    (hs : NodeInv s) (hown : op.owning = true)
    (hok : ∀ a, op = .destroy a → ∀ c ∈ (s.sp a).cb,
      (s.cb c).refcount.setWidth 32 ≠ (1 : BitVec 32)) (hst : step s op = some t) :
    ∃ tbl', tbl.run (opEvents s op) = some tbl' ∧ TableInv t tbl' := by
  cases op with
  | create a data dtor prior cbAlloc nodeAlloc =>
    simp only [step] at hst
    split at hst
    · obtain ⟨u,hu,rfl⟩ := Option.map_eq_some_iff.mp hst
      have hbegin : TableInv (s.begin a prior) tbl := h.same (fun _ => rfl) rfl rfl
      obtain ⟨tbl₁,hrun₁,h₁⟩ := hbegin.cbCreate data dtor cbAlloc
      have hid : TableInv
        (takeId (SafePtr.cbCreate (s.begin a prior) data dtor cbAlloc).1 a) tbl₁ :=
        h₁.same (fun _ => rfl) rfl rfl
      obtain ⟨tbl₂,hrun₂,h₂⟩ := hid.spInit hu fun d hd => by
        cases cbAlloc with
        | false => cases hd
        | true =>
          cases hd
          exact Nat.lt_succ_self _
      exact ⟨tbl₂,run_trans hrun₁ hrun₂,h₂.same (fun _ => rfl) rfl rfl⟩
    · cases hst
  | destroy a =>
    simp only [step] at hst
    split at hst
    · rename_i ha
      obtain ⟨u,hu,rfl⟩ := Option.map_eq_some_iff.mp hst
      cases hc : (s.sp a).cb with
      | none =>
        rw [hc] at hu
        cases hu
      | some c =>
        rw [hc] at hu
        obtain ⟨tbl',hrun,h'⟩ := h.cbPut hs (ho.fresh a ha c hc) (hok a rfl c hc) hu
        refine ⟨tbl',?_,h'.same (fun _ => rfl) rfl rfl⟩
        rw [opEvents,hc]
        exact hrun
    · cases hst
  | borrow src dst prior nodeAlloc =>
    simp only [step] at hst
    split at hst
    · rename_i hlive
      have hbegin : TableInv (s.begin dst prior) tbl := h.same (fun _ => rfl) rfl rfl
      have hne : src ≠ dst := fun he => hlive.2 (he ▸ hlive.1)
      refine hbegin.passSpPost hst fun d hd => ho.fresh src hlive.1 d ?_
      simpa [State.begin,hne] using hd
    · cases hst
  | store | load | cmpxhg => cases hown

theorem HeapInv.step (hi : HeapInv user h) (hok : Shares h op) (hst : heapStep h op = some h') :
    HeapInv user h' := by
  obtain ⟨hown,t,ht,rfl⟩ := heapStep_some hst
  obtain ⟨tbl,hrun,htbl⟩ := hi.table
  have hshare : ∀ a, op = .destroy a → ∀ c ∈ (h.st.sp a).cb,
      (h.st.cb c).refcount.setWidth 32 ≠ (1 : BitVec 32) := by
    rintro a rfl
    exact hok
  obtain ⟨tbl',hrun',htbl'⟩ := htbl.operate hi.owned hi.nodes hown hshare ht
  have htable : ∃ tbl, (userTable user).run (h.events ++ opEvents h.st op) = some tbl ∧
      TableInv t tbl := ⟨tbl',run_trans hrun hrun',htbl'⟩
  cases op with
  | create a data dtor prior cbAlloc nodeAlloc =>
    have hsound : Sound h.st (.create a data dtor prior cbAlloc nodeAlloc) := trivial
    exact ⟨hi.owned.step hsound ht,hi.nodes.step ht,(create_released ht).trans hi.quiet,htable⟩
  | destroy a =>
    have hsound : Sound h.st (.destroy a) := hok
    refine ⟨hi.owned.step hsound ht,hi.nodes.step ht,?_,htable⟩
    obtain ⟨c,u,ha,hu,rfl⟩ := destroy_put ht
    refine hu.released.trans ?_
    rw [if_neg (hok c (mem_owners.mp ha).2),hi.quiet]
    rfl
  | borrow src dst prior nodeAlloc =>
    have hsound : Sound h.st (.borrow src dst prior nodeAlloc) := trivial
    exact ⟨hi.owned.step hsound ht,hi.nodes.step ht,(borrow_released ht).trans hi.quiet,htable⟩
  | store | load | cmpxhg => cases hown

theorem HeapInv.init (user : Finset (BitVec 64)) : HeapInv user Heap.init := by
  refine ⟨Inv.init,NodeInv.init,rfl,userTable user,rfl,?_⟩
  refine ⟨fun c hc => absurd hc (Nat.not_lt_zero c),fun c hc => ?_,fun n hn => ?_,fun c => ?_,
    fun n hn => ?_⟩
  · obtain ⟨_,_,he⟩ := Finset.mem_image.mp hc
    cases he
  · obtain ⟨_,_,he⟩ := Finset.mem_image.mp hn
    cases he
  · exact Finset.notMem_empty _
  · exact absurd hn (Finset.notMem_empty _)

theorem HeapInv.balanced (hi : HeapInv user h) : AllocBalanced user h := by
  obtain ⟨tbl,hrun,htbl⟩ := hi.table
  refine ⟨tbl,hrun,fun hlive => ?_⟩
  have hnone : ¬ 0 < h.st.nextCb := by
    intro hpos
    have hr := hi.owned.released 0 hpos
    have hempty : owners h.st 0 = ∅ := by rw [owners,hlive,Finset.filter_empty]
    rw [hi.quiet,if_pos hempty] at hr
    cases hr
  exact ⟨fun c hc => hnone (Nat.zero_lt_of_lt (htbl.cbMade c hc)),
    fun n hn => hnone (htbl.nodeMade n hn).2⟩

theorem heapInv_of_shares (hrun : exec (restrict heapStep Shares) Heap.init ops = some h) :
    HeapInv user h :=
  (reach_of_exec_restrict hrun).invariant (I:=HeapInv user) (.init user)
    fun _ _ _ hi hok hst => hi.step hok hst

theorem events_subset {e : Ev} (hrun : exec heapStep h ops = some h') (he : e ∈ h.events) :
    e ∈ h'.events := by
  induction ops generalizing h with
  | nil =>
    cases hrun
    exact he
  | cons op ops ih =>
    obtain ⟨u,hu,ht⟩ := Option.bind_eq_some_iff.mp hrun
    obtain ⟨_,t,_,rfl⟩ := heapStep_some hu
    exact ih ht (List.mem_append_left _ he)

theorem inside_mem {a : Address} {c : ℕ} (hc : (h.st.sp a).cb = some c)
    (hret : (h.st.cb c).refcount.setWidth 32 = (1 : BitVec 32))
    (hst : heapStep h (.destroy a) = some h') : .free (.inside (.cb c)) ∈ h'.events := by
  obtain ⟨_,t,_,rfl⟩ := heapStep_some hst
  refine List.mem_append_right _ ?_
  rw [opEvents,hc]
  simp [cbPutEvents,hret,rcuDataExitEvents]

theorem shares_of_allowed (hrun : exec heapStep h ops = some h')
    (hfree : ∀ b, .free (.inside b) ∉ h'.events) :
    exec (restrict heapStep Shares) h ops = some h' := by
  induction ops generalizing h with
  | nil => exact hrun
  | cons op ops ih =>
    obtain ⟨u,hu,ht⟩ := Option.bind_eq_some_iff.mp hrun
    have hok : Shares h op := by
      cases op with
      | destroy a =>
        intro c hc hret
        exact hfree _ (events_subset ht (inside_mem hc hret hu))
      | _ => trivial
    refine Option.bind_eq_some_iff.mpr ⟨u,?_,ih ht⟩
    rw [restrict,if_pos hok,hu]

theorem shares_of_balanced (hrun : exec heapStep Heap.init ops = some h)
    (hb : AllocBalanced user h) : exec (restrict heapStep Shares) Heap.init ops = some h := by
  obtain ⟨tbl,htbl,-⟩ := hb
  exact shares_of_allowed hrun (inside_notMem htbl)

/-- Over every sequence of the three operations and every table of the user: the storage is
handled right exactly where no destroy of the sequence drops the last reference. -/
theorem allocBalanced_iff (hrun : exec heapStep Heap.init ops = some h) :
    AllocBalanced user h ↔ exec (restrict heapStep Shares) Heap.init ops = some h :=
  ⟨shares_of_balanced hrun,fun hs => (heapInv_of_shares hs).balanced⟩

theorem spInitEvents_base {s : State} {a : Address} {d : Option ℕ} {alloc : Bool} (c : ℕ) :
    .free (.base (.cb c)) ∉ spInitEvents s a d alloc := by
  cases alloc <;> cases d
  · simp [spInitEvents]
  · simp [spInitEvents]
  · simp [spInitEvents]
  · simp only [spInitEvents,if_true,Option.elim_some,rcuAddEvents]
    split <;> simp [freeNode]

theorem opEvents_base (s : State) (op : Op) (c : ℕ) : .free (.base (.cb c)) ∉ opEvents s op := by
  cases op with
  | create a data dtor prior cbAlloc nodeAlloc =>
    rw [opEvents,createEvents,List.mem_append,not_or]
    refine ⟨?_,spInitEvents_base c⟩
    cases cbAlloc <;> simp
  | destroy a =>
    rw [opEvents]
    cases (s.sp a).cb with
    | none => exact List.not_mem_nil
    | some d =>
      simp only [Option.elim_some,cbPutEvents,rcuDelEvents,rcuDataExitEvents,releaseEvents]
      split
      · split <;> simp [freeNode]
      · split <;> simp [freeNode]
  | borrow src dst prior nodeAlloc =>
    rw [opEvents,passSpPostEvents,List.mem_append,not_or]
    constructor
    · cases ((s.begin dst prior).sp dst).rcuNode with
      | none => exact List.not_mem_nil
      | some n =>
        rw [readLockEvents]
        split <;> simp
    · cases readLock (s.begin dst prior) ((s.begin dst prior).sp dst).rcuNode with
      | none => exact List.not_mem_nil
      | some s₁ =>
        rw [Option.elim_some,List.mem_append,not_or]
        constructor
        · cases (s₁.sp src).cb <;> simp
        · cases cbGet s₁ (s₁.sp src).cb with
          | none => exact List.not_mem_nil
          | some s₂ => exact spInitEvents_base c
  | store | load | cmpxhg => exact List.not_mem_nil

theorem cb_never_freed (hrun : exec heapStep Heap.init ops = some h) (c : ℕ) :
    .free (.base (.cb c)) ∉ h.events := by
  refine (reach_of_exec hrun).invariant (I:=fun h => .free (.base (.cb c)) ∉ h.events)
    List.not_mem_nil fun _ _ _ hi _ hst => ?_
  obtain ⟨_,t,_,rfl⟩ := heapStep_some hst
  rw [List.mem_append,not_or]
  exact ⟨hi,opEvents_base _ _ c⟩

/-- A lender, two borrowers that end, and one that does not. -/
def sharedRun : List Op :=
  [.create lender 7 0 ⟨none,0,none⟩ true true,.borrow lender borrower ⟨none,0,some 0⟩ true,
    .destroy lender,.borrow borrower lender ⟨none,0,some 1⟩ true,.destroy borrower]

theorem sharedRun_allowed : ∃ h, exec (restrict heapStep Shares) Heap.init sharedRun = some h :=
  ⟨_,rfl⟩

theorem allocBalanced_of_sharing : ∃ h, exec heapStep Heap.init sharedRun = some h ∧
    AllocBalanced ∅ h := by
  obtain ⟨h,hs⟩ := sharedRun_allowed
  have hrun := exec_of_restrict hs
  exact ⟨h,hrun,(allocBalanced_iff hrun).mpr hs⟩

/-- The only owner of an object destroys it. -/
theorem allocBalanced_fails : ¬ ∀ user ops h, exec heapStep Heap.init ops = some h →
    AllocBalanced user h := by
  intro hall
  have hrun : ∃ h h', heapStep Heap.init (.create lender 7 0 ⟨none,0,none⟩ true true) = some h ∧
      heapStep h (.destroy lender) = some h' ∧ (h.st.sp lender).cb = some 0 ∧
        (h.st.cb 0).refcount.setWidth 32 = (1 : BitVec 32) := ⟨_,_,rfl,rfl,rfl,by decide⟩
  obtain ⟨h,h',h₁,h₂,hc,hret⟩ := hrun
  have hexec : exec heapStep Heap.init [.create lender 7 0 ⟨none,0,none⟩ true true,
      .destroy lender] = some h' := by
    rw [exec,h₁,Option.bind_some,exec,h₂]
    rfl
  obtain ⟨tbl,htbl,-⟩ := hall ∅ _ h' hexec
  exact inside_notMem htbl _ (inside_mem hc hret h₂)

end Runs

end SafePtr
end Mthpc
