import Mthpc.ReaderWord
import Mthpc.SafePtrNodes

/-!
# The nesting counts of a borrowed safe_ptr

`mthpc_pass_sp_post` locks and unlocks through `sp->rcu_node`, and between the two
`mthpc_cb_rcu_init` overwrites that field. The lock counts up a node that the uninitialised
memory names, the unlock counts the new node down from zero.
-/
namespace Mthpc
namespace SafePtr

open StepSystem
open Rcu (Word gpCount gpCtrNestMask depthOf and_mask_eq_zero depthOf_sub toNat_add_count
  depthOf_gpCount)

def nesting (s : State) (n : ℕ) : ℕ := depthOf (s.node n).gpSeq

/-- What is done through a borrowed safe_ptr. -/
inductive Access
  | load
  | cmpxhg (expected desired : BitVec 64)

def Access.op (a : Address) : Access → Op
  | .load => .load a
  | .cmpxhg expected desired => .cmpxhg a expected desired

def access (a : Address) (s : State) (x : Access) : Option State := step s (x.op a)

def inside (s : State) (a : Address) : Option State := readLock s (s.sp a).rcuNode

/-- The borrow takes `s` to `t`. Its lock is on the node that `prior` names and its unlock on
the node that the safe_ptr has in the end. -/
structure NestingBalanced (s t : State) (src dst : Address) (prior : Sp) : Prop where
  pair : ∃ c n, (s.sp src).cb = some c ∧ n ∈ (s.cb c).head ∧ prior.rcuNode = some n ∧
    (t.sp dst).rcuNode = some n
  kept : ∀ n < s.nextNode, nesting t n = nesting s n
  new : ∀ n, (t.sp dst).rcuNode = some n → nesting t n = 0
  active : ∀ xs u v n, exec (access dst) t xs = some u → inside u dst = some v →
    (u.sp dst).rcuNode = some n → nesting v n ≠ 0

/-- The first node of a list that has the id which the next safe_ptr gets. -/
def taken (s : State) (c : ℕ) : Option ℕ :=
  (s.cb c).head.find? fun m => (s.node m).id = narrowId s.rcuCnt

/-- The memory of the new safe_ptr names an inactive node of the lender's control block, and
`mthpc_rcu_add` leaves it there: `malloc` fails, or it is the first node with the id. -/
def KeepsNode (s : State) (src : Address) (prior : Sp) (nodeAlloc : Bool) : Prop :=
  ∃ c n, (s.sp src).cb = some c ∧ prior.rcuNode = some n ∧ n ∈ (s.cb c).head ∧
    nesting s n = 0 ∧ (nodeAlloc = true → taken s c = some n)

/-- The nodes after `mthpc_rcu_read_lock_internal(n)`. -/
def lockedNode (s : State) (n : ℕ) : ℕ → Node :=
  Function.update s.node n { s.node n with
    gpSeq := if (s.node n).gpSeq &&& gpCtrNestMask = 0 then (s.cb (s.node n).data).gpSeq
      else (s.node n).gpSeq+gpCount }

/-- The nodes after `mthpc_rcu_read_unlock_internal(n)`. -/
def unlockedNode (node : ℕ → Node) (n : ℕ) : ℕ → Node :=
  Function.update node n { node n with gpSeq := (node n).gpSeq+-gpCount }

section Words

variable {s t u v : State} {n m c : ℕ} {src dst a : Address} {nodeAlloc : Bool}

theorem readLock_some {x : Option ℕ} (h : readLock s x = some t) : ∃ n, x = some n ∧
    n < s.nextNode ∧ t = { s with node := lockedNode s n } := by
  cases x with
  | none => cases h
  | some n =>
    obtain ⟨hn,rfl⟩ := guarded_eq_some.mp h
    exact ⟨n,rfl,hn,rfl⟩

theorem readUnlock_some {x : Option ℕ} (h : readUnlock s x = some t) : ∃ n, x = some n ∧
    n < s.nextNode ∧ t = { s with node := unlockedNode s.node n } := by
  cases x with
  | none => cases h
  | some n =>
    obtain ⟨hn,rfl⟩ := guarded_eq_some.mp h
    exact ⟨n,rfl,hn,rfl⟩

theorem readUnlock_completes {x : Option ℕ} (hx : x = some n) (hn : n < s.nextNode) :
    ∃ t, readUnlock s x = some t := by
  subst hx
  exact ⟨_,if_pos hn⟩

theorem lockedNode_id : (lockedNode s n m).id = (s.node m).id := by
  by_cases hm : m = n
  · subst hm
    rw [lockedNode,Function.update_self]
  · rw [lockedNode,Function.update_of_ne hm]

theorem lockedNode_data : (lockedNode s n m).data = (s.node m).data := by
  by_cases hm : m = n
  · subst hm
    rw [lockedNode,Function.update_self]
  · rw [lockedNode,Function.update_of_ne hm]

theorem depth_locked (hgp : depthOf (s.cb (s.node n).data).gpSeq = 1) :
    depthOf (lockedNode s n n).gpSeq = (nesting s n+1)%2^32 := by
  rw [lockedNode,Function.update_self,nesting]
  have hlt : depthOf (s.node n).gpSeq < 2^32 := Nat.mod_lt _ (by norm_num)
  split
  · rename_i h
    rw [hgp,(and_mask_eq_zero _).mp h]
    rfl
  · have hc : gpCount.toNat = 1 := by decide
    rw [depthOf,depthOf,BitVec.toNat_add,hc]
    omega

theorem depth_relocked (hgp : depthOf (s.cb (s.node n).data).gpSeq = 1) :
    depthOf (unlockedNode (lockedNode s n) n n).gpSeq = nesting s n := by
  have hl := depth_locked hgp
  have hlt : nesting s n < 2^32 := Nat.mod_lt _ (by norm_num)
  rw [unlockedNode,Function.update_self]
  have hc : (-gpCount).toNat = 2^64-1 := by decide
  rw [depthOf] at hl ⊢
  rw [BitVec.toNat_add,hc]
  omega

theorem unlocked_of_ne {node : ℕ → Node} (h : m ≠ n) : unlockedNode node n m = node m :=
  Function.update_of_ne h _ _

theorem locked_of_ne (h : m ≠ n) : lockedNode s n m = s.node m := Function.update_of_ne h _ _

end Words

section Borrow

variable {s t u v : State} {n m c : ℕ} {src dst a : Address} {nodeAlloc : Bool}

theorem passSpPost_spec (h : passSpPost s src dst nodeAlloc = some t) :
    ∃ c n m, (s.sp src).cb = some c ∧ (s.sp dst).rcuNode = some n ∧ n < s.nextNode ∧
      (t.sp dst).rcuNode = some m ∧ t.nextCb = s.nextCb ∧
      ((nodeAlloc = false ∧ m = n ∨ nodeAlloc = true ∧ taken s c = some m) ∧
          t.node = unlockedNode (lockedNode s n) m ∨
        nodeAlloc = true ∧ taken s c = none ∧ m = s.nextNode ∧
          t.node = unlockedNode
            (Function.update (lockedNode s n) m ⟨narrowId s.rcuCnt,0,c⟩) m) := by
  obtain ⟨s₁,h₁,hrest⟩ := Option.bind_eq_some_iff.mp h
  obtain ⟨s₂,h₂,hrest⟩ := Option.bind_eq_some_iff.mp hrest
  obtain ⟨s₃,h₃,h₄⟩ := Option.bind_eq_some_iff.mp hrest
  obtain ⟨n,hn,hlt,rfl⟩ := readLock_some h₁
  cases hc : (s.sp src).cb with
  | none =>
    dsimp only at h₂
    rw [hc] at h₂
    cases h₂
  | some c =>
    dsimp only at h₂ h₃ h₄
    rw [hc] at h₂ h₃ h₄
    cases h₂
    obtain ⟨m,hm,hml,rfl⟩ := readUnlock_some h₄
    have hid : ∀ k, (lockedNode s n k).id = (s.node k).id := fun k => lockedNode_id
    simp only [cbStore,Function.update_self] at hm
    refine ⟨c,n,m,rfl,hn,hlt,by simpa [cbStore] using hm,?_⟩
    rw [spInit] at h₃
    cases nodeAlloc with
    | false =>
      cases h₃
      have hmn : m = n := by
        simp only [takeId,Function.update_self] at hm
        rw [hn] at hm
        exact (Option.some.inj hm).symm
      exact ⟨rfl,.inl ⟨.inl ⟨rfl,hmn⟩,rfl⟩⟩
    | true =>
      simp only [if_true,Option.map_some,Option.some.injEq] at h₃
      subst h₃
      have htaken : ((s.cb c).head.find? fun k => (lockedNode s n k).id = narrowId s.rcuCnt) =
          taken s c := by
        rw [taken]
        simp only [hid]
      simp only [rcuAdd,takeId,Function.update_self] at hm ⊢
      rw [htaken] at hm ⊢
      cases hk : taken s c with
      | some k =>
        rw [hk] at hm
        simp only [Option.some.injEq] at hm
        subst hm
        exact ⟨rfl,.inl ⟨.inr ⟨trivial,rfl⟩,rfl⟩⟩
      | none =>
        rw [hk] at hm
        simp only [Option.some.injEq] at hm
        subst hm
        exact ⟨rfl,.inr ⟨trivial,rfl,rfl,rfl⟩⟩

theorem passSpPost_completes (nodeAlloc : Bool) (hc : (s.sp src).cb = some c)
    (hn : (s.sp dst).rcuNode = some n)
    (hlt : n < s.nextNode) (hmade : ∀ m, taken s c = some m → m < s.nextNode) :
    ∃ t, passSpPost s src dst nodeAlloc = some t := by
  have htaken : ((s.cb c).head.find? fun k => (lockedNode s n k).id = narrowId s.rcuCnt) =
      taken s c := by
    rw [taken]
    simp only [lockedNode_id]
  have hlock : readLock s (s.sp dst).rcuNode = some { s with node := lockedNode s n } := by
    rw [hn]
    exact if_pos hlt
  rw [passSpPost,hlock,Option.bind_some]
  dsimp only
  rw [hc,cbGet,Option.bind_some]
  cases nodeAlloc with
  | false =>
    exact readUnlock_completes (n:=n) (by simp [cbStore,takeId,hn]) hlt
  | true =>
    simp only [spInit,if_true,Option.map_some,Option.bind_some,rcuAdd,takeId,Function.update_self]
    rw [htaken]
    cases hk : taken s c with
    | some k =>
      exact readUnlock_completes (n:=k) (by simp [cbStore])
        ((hmade k hk).trans (Nat.lt_succ_self _))
    | none =>
      exact readUnlock_completes (n:=s.nextNode) (by simp [cbStore]) (Nat.lt_succ_self _)

end Borrow

section Accesses

variable {s t u v : State} {n m d : ℕ} {src dst a : Address} {prior : Sp} {nodeAlloc : Bool}

/-- A safe_ptr goes through a node whose nesting count is `d` between the accesses. -/
structure Through (s : State) (a : Address) (m d : ℕ) : Prop where
  inv : NodeInv s
  node : (s.sp a).rcuNode = some m
  data : (s.node m).data < s.nextCb
  count : nesting s m = d

theorem Through.gp (h : Through s a m d) : depthOf (s.cb (s.node m).data).gpSeq = 1 :=
  h.inv.gp _ h.data

theorem Through.inside (h : Through s a m d) (hv : SafePtr.inside s a = some v) :
    nesting v m = (d+1)%2^32 := by
  obtain ⟨k,hk,_,rfl⟩ := readLock_some hv
  obtain rfl : m = k := by
    rw [h.node] at hk
    exact Option.some.inj hk
  rw [← h.count]
  exact depth_locked h.gp

theorem Through.relocked (h : Through s a m d) (hinv : NodeInv t) (hsp : t.sp = s.sp)
    (hn : t.nextCb = s.nextCb) (hnode : t.node = unlockedNode (lockedNode s m) m) :
    Through t a m d := by
  refine ⟨hinv,by rw [hsp,h.node],?_,?_⟩
  · rw [hnode,unlockedNode,Function.update_self,lockedNode_data,hn]
    exact h.data
  · rw [nesting,hnode,depth_relocked h.gp,h.count]

theorem Through.step {x : Access} (h : Through s a m d) (hst : access a s x = some t) :
    Through t a m d := by
  have hinv : NodeInv t := h.inv.step hst
  cases x with
  | load =>
    simp only [access,Access.op,SafePtr.step] at hst
    split at hst
    · obtain ⟨⟨u,x⟩,hu,rfl⟩ := Option.map_eq_some_iff.mp hst
      obtain ⟨s₁,h₁,hu⟩ := Option.bind_eq_some_iff.mp hu
      obtain ⟨c,-,hu⟩ := Option.bind_eq_some_iff.mp hu
      obtain ⟨s₂,h₂,he⟩ := Option.map_eq_some_iff.mp hu
      cases he
      obtain ⟨k,hk,_,rfl⟩ := readLock_some h₁
      obtain ⟨l,hl,_,rfl⟩ := readUnlock_some h₂
      rw [h.node] at hk hl
      cases hk
      cases hl
      exact h.relocked hinv rfl rfl rfl
    · cases hst
  | cmpxhg expected desired =>
    simp only [access,Access.op,SafePtr.step] at hst
    split at hst
    · obtain ⟨⟨u,x⟩,hu,rfl⟩ := Option.map_eq_some_iff.mp hst
      obtain ⟨s₁,h₁,hu⟩ := Option.bind_eq_some_iff.mp hu
      obtain ⟨c,-,hu⟩ := Option.bind_eq_some_iff.mp hu
      obtain ⟨s₂,h₂,he⟩ := Option.map_eq_some_iff.mp hu
      cases he
      obtain ⟨k,hk,_,rfl⟩ := readLock_some h₁
      obtain ⟨l,hl,_,rfl⟩ := readUnlock_some h₂
      rw [h.node] at hk
      cases hk
      by_cases hx : decide (((({ s with node := lockedNode s m } : State).cb c).rawPtr) =
          expected) = true
      · simp only [if_pos hx] at hl hinv ⊢
        rw [h.node] at hl
        cases hl
        exact h.relocked hinv rfl rfl rfl
      · simp only [if_neg hx] at hl hinv ⊢
        rw [h.node] at hl
        cases hl
        exact h.relocked hinv rfl rfl rfl
    · cases hst

theorem Through.exec {xs : List Access} (h : Through s a m d) (hx : exec (access a) s xs = some t) :
    Through t a m d := by
  induction xs generalizing s with
  | nil =>
    cases hx
    exact h
  | cons x xs ih =>
    obtain ⟨u,hu,ht⟩ := Option.bind_eq_some_iff.mp hx
    exact ih (h.step hu) ht

theorem borrow_some (hst : step s (.borrow src dst prior nodeAlloc) = some t) :
    src ∈ s.live ∧ dst ∉ s.live ∧ passSpPost (s.begin dst prior) src dst nodeAlloc = some t := by
  simp only [SafePtr.step] at hst
  split at hst
  · rename_i h
    exact ⟨h.1,h.2,hst⟩
  · cases hst

theorem begin_sp (h : src ≠ dst) : (s.begin dst prior).sp src = s.sp src :=
  Function.update_of_ne h _ _

theorem begin_rcuNode : ((s.begin dst prior).sp dst).rcuNode = prior.rcuNode := by
  simp [State.begin]

theorem keepsNode_of_balanced (hst : step s (.borrow src dst prior nodeAlloc) = some t)
    (h : NestingBalanced s t src dst prior) : KeepsNode s src prior nodeAlloc := by
  obtain ⟨hsrc,hdst,hp⟩ := borrow_some hst
  obtain ⟨c,n,hc,hhead,hprior,ht⟩ := h.pair
  obtain ⟨c',n',m,hc',hn',hlt,hm,-,hcases⟩ := passSpPost_spec hp
  have hne : src ≠ dst := fun he => hdst (he ▸ hsrc)
  rw [begin_sp hne,hc] at hc'
  rw [begin_rcuNode,hprior] at hn'
  rw [ht] at hm
  cases hc'
  cases hn'
  cases hm
  refine ⟨c,n,hc,hprior,hhead,?_,?_⟩
  · rw [← h.kept n hlt]
    exact h.new n ht
  · rintro rfl
    obtain ⟨⟨hf,_⟩ | ⟨_,htaken⟩,_⟩ | ⟨_,_,he,_⟩ := hcases
    · cases hf
    · exact htaken
    -- a node that was allocated meanwhile is not the one that was locked
    · exact absurd he hlt.ne

theorem balanced_of_keepsNode (hinv : NodeInv s) (href : Refers s) (hsrc : src ∈ s.live)
    (hdst : dst ∉ s.live) (h : KeepsNode s src prior nodeAlloc) :
    ∃ t, step s (.borrow src dst prior nodeAlloc) = some t ∧ NestingBalanced s t src dst prior := by
  obtain ⟨c,n,hc,hprior,hhead,hzero,hkeep⟩ := h
  have hne : src ≠ dst := fun he => hdst (he ▸ hsrc)
  have hcn : c < s.nextCb := href src hsrc c hc
  have hmade := hinv.made c hcn
  have hc₁ : ((s.begin dst prior).sp src).cb = some c := by rw [begin_sp hne,hc]
  have hn₁ : ((s.begin dst prior).sp dst).rcuNode = some n := by rw [begin_rcuNode,hprior]
  obtain ⟨t,ht⟩ := passSpPost_completes nodeAlloc hc₁ hn₁ (hmade n hhead)
    fun m hm => hmade m (List.mem_of_find?_eq_some hm)
  have hst : step s (.borrow src dst prior nodeAlloc) = some t := by
    simp only [SafePtr.step]
    rw [if_pos ⟨hsrc,hdst⟩,ht]
  obtain ⟨c',n',m,hc',hn',-,hm,hnext,hcases⟩ := passSpPost_spec ht
  rw [hc₁] at hc'
  rw [hn₁] at hn'
  cases hc'
  cases hn'
  have hgp : depthOf (s.cb (s.node n).data).gpSeq = 1 := by
    rw [hinv.data c hcn n hhead]
    exact hinv.gp c hcn
  have hnode : m = n ∧ t.node = unlockedNode (lockedNode (s.begin dst prior) n) n := by
    obtain ⟨hmn,hnode⟩ | ⟨ha,hnone,_,_⟩ := hcases
    · obtain rfl : m = n := by
        obtain ⟨_,hmn⟩ | ⟨ha,htaken⟩ := hmn
        · exact hmn
        · exact Option.some.inj (htaken.symm.trans (hkeep ha))
      exact ⟨rfl,hnode⟩
    · exact absurd (hnone.symm.trans (hkeep ha)) (by rintro ⟨⟩)
  obtain ⟨rfl,hnode⟩ := hnode
  have hcount : nesting t m = 0 := by
    rw [nesting,hnode]
    exact (depth_relocked (s:=s.begin dst prior) hgp).trans hzero
  have hthrough : Through t dst m 0 := by
    refine ⟨hinv.step hst,hm,?_,hcount⟩
    rw [hnode,unlockedNode,Function.update_self,lockedNode_data,hnext]
    exact (hinv.data c hcn m hhead).symm ▸ hcn
  refine ⟨t,hst,⟨c,m,hc,hhead,hprior,hm⟩,fun k _ => ?_,fun k hk => ?_,fun xs u v k hu hv hk => ?_⟩
  · by_cases hkm : k = m
    · rw [hkm,hcount,hzero]
    · rw [nesting,hnode,unlocked_of_ne hkm,locked_of_ne hkm]
      rfl
  · rw [hm] at hk
    cases hk
    exact hcount
  · have hlast := hthrough.exec hu
    rw [hlast.node] at hk
    cases hk
    rw [hlast.inside hv]
    decide

/-- Over every reachable state, every lender and every contents of the destination: the borrow
opens and closes its section on one node of the lender's control block, leaves every count as
it was and lets every later access count as a reader, exactly where `mthpc_rcu_add` does not
give the new safe_ptr a node of its own. -/
theorem nestingBalanced_iff (h : Reach step Anything init s) (hsrc : src ∈ s.live)
    (hdst : dst ∉ s.live) :
    (∃ t, step s (.borrow src dst prior nodeAlloc) = some t ∧ NestingBalanced s t src dst prior) ↔
      KeepsNode s src prior nodeAlloc := by
  obtain ⟨hinv,href⟩ := nodes_of_reach h
  constructor
  · rintro ⟨t,hst,hb⟩
    exact keepsNode_of_balanced hst hb
  · exact balanced_of_keepsNode hinv href hsrc hdst

/-- Memory in which the node of the lender was left. -/
def stale : Sp := ⟨none,0,some 0⟩

theorem lentOnce : ∃ s, exec step init [.create lender 7 0 ⟨none,0,none⟩ true true] = some s ∧
    lender ∈ s.live ∧ borrower ∉ s.live ∧ (s.sp lender).cb = some 0 ∧ 0 ∈ (s.cb 0).head ∧
      nesting s 0 = 0 ∧ taken s 0 = none :=
  ⟨_,rfl,by decide,by decide,rfl,by decide,by decide,by decide⟩

/-- Without memory for a new node the borrowed safe_ptr keeps the node in its memory. -/
theorem nestingBalanced_of_stale : ∃ s t, Reach step Anything init s ∧
    step s (.borrow lender borrower stale false) = some t ∧
      NestingBalanced s t lender borrower stale := by
  obtain ⟨s,hs,hl,hb,hc,hhead,hzero,-⟩ := lentOnce
  have hkeep : KeepsNode s lender stale false :=
    ⟨0,0,hc,rfl,hhead,hzero,fun hf => absurd hf (by decide)⟩
  obtain ⟨t,ht,hbal⟩ := (nestingBalanced_iff (reach_of_exec hs) hl hb).mpr hkeep
  exact ⟨s,t,reach_of_exec hs,ht,hbal⟩

/-- With memory for it the section is opened on one node and closed on another, even where the
uninitialised pointer names a node of the lender. -/
theorem nestingBalanced_fails : ¬ ∀ s src dst prior nodeAlloc, Reach step Anything init s →
    src ∈ s.live → dst ∉ s.live → ∃ t, step s (.borrow src dst prior nodeAlloc) = some t ∧
      NestingBalanced s t src dst prior := by
  intro h
  obtain ⟨s,hs,hl,hb,hc,-,-,htaken⟩ := lentOnce
  obtain ⟨t,ht,hbal⟩ := h s lender borrower stale true (reach_of_exec hs) hl hb
  obtain ⟨c,n,hc',_,_,_,hkeep⟩ := keepsNode_of_balanced ht hbal
  rw [hc] at hc'
  cases hc'
  exact absurd (htaken.symm.trans (hkeep rfl)) (by rintro ⟨⟩)

/-- Where it gives it one, the new node is left with the count -1, and it counts as no reader
during every later access. -/
theorem inverted_of_newNode (h : Reach step Anything init s)
    (hst : step s (.borrow src dst prior true) = some t) {c : ℕ} (hc : (s.sp src).cb = some c)
    (hnew : taken s c = none) : nesting t s.nextNode = 2^32-1 ∧
      ∀ xs u v, exec (access dst) t xs = some u → inside u dst = some v →
        nesting v s.nextNode = 0 ∧ nesting u s.nextNode = 2^32-1 := by
  obtain ⟨hinv,href⟩ := nodes_of_reach h
  obtain ⟨hsrc,hdst,hp⟩ := borrow_some hst
  have hne : src ≠ dst := fun he => hdst (he ▸ hsrc)
  obtain ⟨c',n,m,hc',-,-,hm,hnext,hcases⟩ := passSpPost_spec hp
  rw [begin_sp hne,hc] at hc'
  cases hc'
  obtain ⟨⟨hf,_⟩ | ⟨_,htaken⟩,_⟩ | ⟨_,_,hmn,hnode⟩ := hcases
  · cases hf
  · exact absurd (hnew.symm.trans htaken) (by rintro ⟨⟩)
  · have hmn : m = s.nextNode := hmn
    subst hmn
    have hcount : nesting t s.nextNode = 2^32-1 := by
      rw [nesting,hnode,unlockedNode,Function.update_self,Function.update_self]
      show depthOf (0+-gpCount) = 2^32-1
      decide
    have hthrough : Through t dst s.nextNode (2^32-1) := by
      refine ⟨hinv.step hst,hm,?_,hcount⟩
      rw [hnode,unlockedNode,Function.update_self,Function.update_self,hnext]
      exact href src hsrc c hc
    refine ⟨hcount,fun xs u v hu hv => ?_⟩
    have hlast := hthrough.exec hu
    refine ⟨?_,hlast.count⟩
    rw [hlast.inside hv]
    decide

end Accesses

end SafePtr
end Mthpc
