import Mthpc.SafePtrOwnership

/-!
# The nodes of the control blocks

What holds of every reachable state whatever the callers pass: the list of a control block
names nodes of its own, each once, and the word of its `rcu_data` says that one section is
open. A live safe_ptr refers to a control block that exists.
-/
namespace Mthpc
namespace SafePtr

open StepSystem
open Rcu (Word gpCount gpCtrPhase depthOf depthOf_flip depthOf_gpCount)

/-- The control blocks and their lists; the safe_ptrs do not matter. -/
structure NodeInv (s : State) : Prop where
  gp : ∀ c < s.nextCb, depthOf (s.cb c).gpSeq = 1
  made : ∀ c < s.nextCb, ∀ n ∈ (s.cb c).head, n < s.nextNode
  data : ∀ c < s.nextCb, ∀ n ∈ (s.cb c).head, (s.node n).data = c
  nodup : ∀ c < s.nextCb, (s.cb c).head.Nodup

def Refers (s : State) : Prop := ∀ a ∈ s.live, ∀ c, (s.sp a).cb = some c → c < s.nextCb

/-- A state with the control blocks and the nodes of another one, up to the words. -/
structure SameNodes (s t : State) : Prop where
  nextCb : t.nextCb = s.nextCb
  nextNode : s.nextNode ≤ t.nextNode
  head : ∀ c, (t.cb c).head.Sublist (s.cb c).head
  data : ∀ n, (t.node n).data = (s.node n).data
  gp : ∀ c, depthOf (t.cb c).gpSeq = depthOf (s.cb c).gpSeq

theorem SameNodes.trans {s t u : State} (h : SameNodes s t) (h' : SameNodes t u) :
    SameNodes s u :=
  ⟨h'.nextCb.trans h.nextCb,h.nextNode.trans h'.nextNode,fun c => (h'.head c).trans (h.head c),
    fun n => (h'.data n).trans (h.data n),fun c => (h'.gp c).trans (h.gp c)⟩

theorem SameNodes.inv {s t : State} (h : SameNodes s t) (hs : NodeInv s) : NodeInv t := by
  refine ⟨fun c hc => ?_,fun c hc n hn => ?_,fun c hc n hn => ?_,fun c hc => ?_⟩ <;>
    rw [h.nextCb] at hc
  · rw [h.gp]
    exact hs.gp c hc
  · exact (hs.made c hc n ((h.head c).subset hn)).trans_le h.nextNode
  · rw [h.data]
    exact hs.data c hc n ((h.head c).subset hn)
  · exact (hs.nodup c hc).sublist (h.head c)

theorem SameNodes.updateWord (s : State) (n : ℕ) (w : Word) :
    SameNodes s { s with node := Function.update s.node n { s.node n with gpSeq := w } } := by
  refine ⟨rfl,le_rfl,fun _ => .refl _,fun m => ?_,fun _ => rfl⟩
  by_cases hm : m = n <;> simp [hm]

theorem readLock_sameNodes {s t : State} {n : Option ℕ} (h : readLock s n = some t) :
    SameNodes s t := by
  cases n with
  | none => cases h
  | some n =>
    obtain ⟨_,rfl⟩ := guarded_eq_some.mp h
    exact .updateWord s n _

theorem readUnlock_sameNodes {s t : State} {n : Option ℕ} (h : readUnlock s n = some t) :
    SameNodes s t := by
  cases n with
  | none => cases h
  | some n =>
    obtain ⟨_,rfl⟩ := guarded_eq_some.mp h
    exact .updateWord s n _

theorem cbGet_sameNodes {s t : State} {c : Option ℕ} (h : cbGet s c = some t) : SameNodes s t := by
  cases c with
  | none => cases h
  | some c =>
    cases h
    refine ⟨rfl,le_rfl,fun d => ?_,fun _ => rfl,fun d => ?_⟩ <;> by_cases hd : d = c <;> simp [hd]

theorem rcuDel_sameNodes (s : State) (c : ℕ) (id : BitVec 64) : SameNodes s (rcuDel s c id) := by
  refine ⟨rfl,le_rfl,fun d => ?_,fun _ => rfl,fun d => ?_⟩
  · by_cases hd : d = c
    · subst hd
      simpa [rcuDel] using List.eraseP_sublist
    · simp [rcuDel,hd]
  · by_cases hd : d = c <;> simp [rcuDel,hd]

theorem rcuDataExit_sameNodes (s : State) (c : ℕ) : SameNodes s (rcuDataExit s c) := by
  refine ⟨rfl,le_rfl,fun d => ?_,fun _ => rfl,fun d => ?_⟩ <;> by_cases hd : d = c <;>
    simp [rcuDataExit,hd]

theorem synchronizeRcu_sameNodes {s t : State} {c : ℕ} (h : synchronizeRcu s c = some t) :
    SameNodes s t := by
  simp only [synchronizeRcu] at h
  split at h
  · split at h
    · cases h
      refine ⟨rfl,le_rfl,fun d => ?_,fun _ => rfl,fun d => ?_⟩ <;> by_cases hd : d = c <;>
        simp [hd]
    · cases h
  · cases h

theorem cbPut_sameNodes {s t : State} {a : Address} {c : Option ℕ} (h : cbPut s a c = some t) :
    SameNodes s t := by
  cases c with
  | none => cases h
  | some c =>
    have hput : SameNodes s { s with
        cb := Function.update s.cb c { s.cb c with refcount := (s.cb c).refcount+-1 } } := by
      refine ⟨rfl,le_rfl,fun d => ?_,fun _ => rfl,fun d => ?_⟩ <;> by_cases hd : d = c <;>
        simp [hd]
    simp only [cbPut] at h
    split at h
    · obtain ⟨u,hu,rfl⟩ := Option.map_eq_some_iff.mp h
      have hexit := rcuDataExit_sameNodes u c
      exact (hput.trans (synchronizeRcu_sameNodes hu)).trans
        ⟨hexit.nextCb,hexit.nextNode,hexit.head,hexit.data,hexit.gp⟩
    · cases h
      exact hput.trans (rcuDel_sameNodes _ c _)

theorem NodeInv.rcuAdd {s : State} (h : NodeInv s) (c : ℕ) (id : BitVec 64) :
    NodeInv (rcuAdd s c id).1 := by
  rw [SafePtr.rcuAdd]
  split
  · exact ⟨h.gp,fun d hd n hn => (h.made d hd n hn).trans (Nat.lt_succ_self _),h.data,h.nodup⟩
  · have hne : ∀ d < s.nextCb, ∀ n ∈ (s.cb d).head, n ≠ s.nextNode :=
      fun d hd n hn => (h.made d hd n hn).ne
    refine ⟨fun d hd => ?_,fun d hd n hn => ?_,fun d hd n hn => ?_,fun d hd => ?_⟩
    · have hgp := h.gp d hd
      by_cases hdc : d = c
      · subst hdc
        simpa using hgp
      · simpa [hdc] using hgp
    · show n < s.nextNode+1
      have hmade := h.made d hd n
      by_cases hdc : d = c
      · subst hdc
        simp only [Function.update_self,List.mem_append,List.mem_singleton] at hn
        rcases hn with hn | rfl
        · exact (hmade hn).trans (Nat.lt_succ_self _)
        · exact Nat.lt_succ_self _
      · simp only [Function.update_of_ne hdc] at hn
        exact (hmade hn).trans (Nat.lt_succ_self _)
    · by_cases hdc : d = c
      · subst hdc
        simp only [Function.update_self,List.mem_append,List.mem_singleton] at hn
        rcases hn with hn | rfl
        · simpa [hne d hd n hn] using h.data d hd n hn
        · simp
      · simp only [Function.update_of_ne hdc] at hn
        simpa [hne d hd n hn] using h.data d hd n hn
    · have hnd := h.nodup d hd
      by_cases hdc : d = c
      · subst hdc
        simp only [Function.update_self]
        exact hnd.append (List.nodup_singleton _)
          fun n hn hs => hne d hd n hn (List.mem_singleton.mp hs)
      · simpa [hdc] using hnd

theorem NodeInv.cbCreate {s : State} (h : NodeInv s) (data dtor : BitVec 64) (alloc : Bool) :
    NodeInv (cbCreate s data dtor alloc).1 := by
  cases alloc with
  | false => exact h
  | true =>
    refine ⟨fun d hd => ?_,fun d hd n hn => ?_,fun d hd n hn => ?_,fun d hd => ?_⟩ <;>
      rcases Nat.lt_succ_iff_lt_or_eq.mp hd with hlt | rfl
    · simpa [SafePtr.cbCreate,hlt.ne] using h.gp d hlt
    · simp [SafePtr.cbCreate]
    · simp only [SafePtr.cbCreate,if_true,Function.update_of_ne hlt.ne] at hn
      exact h.made d hlt n hn
    · simp [SafePtr.cbCreate] at hn
    · simp only [SafePtr.cbCreate,if_true,Function.update_of_ne hlt.ne] at hn
      exact h.data d hlt n hn
    · simp [SafePtr.cbCreate] at hn
    · simpa [SafePtr.cbCreate,hlt.ne] using h.nodup d hlt
    · simp [SafePtr.cbCreate]

theorem NodeInv.spInit {s t : State} (h : NodeInv s) {a : Address} {c : Option ℕ} {alloc : Bool}
    (hi : spInit s a c alloc = some t) : NodeInv t := by
  rw [SafePtr.spInit] at hi
  split at hi
  · obtain ⟨d,-,rfl⟩ := Option.map_eq_some_iff.mp hi
    have hadd := h.rcuAdd d (s.sp a).id
    exact ⟨hadd.gp,hadd.made,hadd.data,hadd.nodup⟩
  · cases hi
    exact h

theorem NodeInv.passSpPost {s t : State} (h : NodeInv s) {src dst : Address} {alloc : Bool}
    (hp : passSpPost s src dst alloc = some t) : NodeInv t := by
  obtain ⟨s₁,h₁,hrest⟩ := Option.bind_eq_some_iff.mp hp
  obtain ⟨s₂,h₂,hrest⟩ := Option.bind_eq_some_iff.mp hrest
  obtain ⟨s₃,h₃,h₄⟩ := Option.bind_eq_some_iff.mp hrest
  have hn₂ := (cbGet_sameNodes h₂).inv ((readLock_sameNodes h₁).inv h)
  have hid : NodeInv (takeId s₂ dst) := ⟨hn₂.gp,hn₂.made,hn₂.data,hn₂.nodup⟩
  have hn₃ := hid.spInit h₃
  have hst : NodeInv (cbStore s₃ dst (s₁.sp src).cb) := ⟨hn₃.gp,hn₃.made,hn₃.data,hn₃.nodup⟩
  exact (readUnlock_sameNodes h₄).inv hst

theorem NodeInv.step {s t : State} {op : Op} (h : NodeInv s) (hst : step s op = some t) :
    NodeInv t := by
  cases op with
  | create a data dtor prior cbAlloc nodeAlloc =>
    simp only [SafePtr.step] at hst
    split at hst
    · obtain ⟨u,hu,rfl⟩ := Option.map_eq_some_iff.mp hst
      have hbegin : NodeInv (s.begin a prior) := ⟨h.gp,h.made,h.data,h.nodup⟩
      have hnew := hbegin.cbCreate data dtor cbAlloc
      have hid : NodeInv (takeId (SafePtr.cbCreate (s.begin a prior) data dtor cbAlloc).1 a) :=
        ⟨hnew.gp,hnew.made,hnew.data,hnew.nodup⟩
      have hn := hid.spInit hu
      exact ⟨hn.gp,hn.made,hn.data,hn.nodup⟩
    · cases hst
  | destroy a =>
    simp only [SafePtr.step] at hst
    split at hst
    · obtain ⟨u,hu,rfl⟩ := Option.map_eq_some_iff.mp hst
      have hn := (cbPut_sameNodes hu).inv h
      exact ⟨hn.gp,hn.made,hn.data,hn.nodup⟩
    · cases hst
  | store a data dtor cbAlloc nodeAlloc =>
    simp only [SafePtr.step] at hst
    split at hst
    · obtain ⟨u,hu,hi⟩ := Option.bind_eq_some_iff.mp hst
      have hnew := h.cbCreate data dtor cbAlloc
      have hx : NodeInv (cbStore (SafePtr.cbCreate s data dtor cbAlloc).1 a
          (SafePtr.cbCreate s data dtor cbAlloc).2) := ⟨hnew.gp,hnew.made,hnew.data,hnew.nodup⟩
      split at hu
      · exact ((cbPut_sameNodes hu).inv hx).spInit hi
      · cases hu
        exact hx.spInit hi
    · cases hst
  | load a =>
    simp only [SafePtr.step] at hst
    split at hst
    · obtain ⟨⟨u,x⟩,hu,rfl⟩ := Option.map_eq_some_iff.mp hst
      obtain ⟨s₁,h₁,hu⟩ := Option.bind_eq_some_iff.mp hu
      obtain ⟨c,-,hu⟩ := Option.bind_eq_some_iff.mp hu
      obtain ⟨s₂,h₂,he⟩ := Option.map_eq_some_iff.mp hu
      cases he
      exact (readUnlock_sameNodes h₂).inv ((readLock_sameNodes h₁).inv h)
    · cases hst
  | cmpxhg a expected desired =>
    simp only [SafePtr.step] at hst
    split at hst
    · obtain ⟨⟨u,x⟩,hu,rfl⟩ := Option.map_eq_some_iff.mp hst
      obtain ⟨s₁,h₁,hu⟩ := Option.bind_eq_some_iff.mp hu
      obtain ⟨c,-,hu⟩ := Option.bind_eq_some_iff.mp hu
      obtain ⟨s₂,h₂,he⟩ := Option.map_eq_some_iff.mp hu
      cases he
      refine (readUnlock_sameNodes h₂).inv (SameNodes.inv ?_ ((readLock_sameNodes h₁).inv h))
      split
      · refine ⟨rfl,le_rfl,fun d => ?_,fun _ => rfl,fun d => ?_⟩ <;> by_cases hd : d = c <;>
          simp [hd]
      · exact ⟨rfl,le_rfl,fun _ => .refl _,fun _ => rfl,fun _ => rfl⟩
    · cases hst
  | borrow src dst prior nodeAlloc =>
    simp only [SafePtr.step] at hst
    split at hst
    · exact NodeInv.passSpPost (s:=s.begin dst prior) ⟨h.gp,h.made,h.data,h.nodup⟩ hst
    · cases hst

theorem NodeInv.init : NodeInv SafePtr.init := by
  refine ⟨?_,?_,?_,?_⟩ <;> intro c hc <;> exact absurd hc (Nat.not_lt_zero c)

theorem Agree.refers {s t : State} (h : Agree s t) (hs : Refers s) : Refers t := by
  intro a ha c hac
  rw [h.live] at ha
  rw [h.owner] at hac
  rw [h.nextCb]
  exact hs a ha c hac

theorem Refers.cbStore {s : State} (a : Address) {c : Option ℕ}
    (hs : ∀ b ∈ s.live, b ≠ a → ∀ d, (s.sp b).cb = some d → d < s.nextCb)
    (hc : ∀ d, c = some d → d < s.nextCb) : Refers (cbStore s a c) := by
  intro b hb d hd
  by_cases hba : b = a
  · subst hba
    exact hc d (by simpa [SafePtr.cbStore] using hd)
  · exact hs b hb hba d (by simpa [SafePtr.cbStore,hba] using hd)

theorem Refers.others {s u : State} (h : Refers s) {a : Address} (prior : Sp)
    (hlive : u.live = insert a s.live) (howner : ∀ b, (u.sp b).cb = ((s.begin a prior).sp b).cb)
    (hn : s.nextCb ≤ u.nextCb) :
    ∀ b ∈ u.live, b ≠ a → ∀ d, (u.sp b).cb = some d → d < u.nextCb := by
  intro b hb hba d hd
  rw [howner] at hd
  rw [hlive] at hb
  refine (h b ((Finset.mem_insert.mp hb).resolve_left hba) d ?_).trans_le hn
  simpa [State.begin,hba] using hd

theorem Refers.step {s t : State} {op : Op} (h : Refers s) (hst : step s op = some t) :
    Refers t := by
  cases op with
  | create a data dtor prior cbAlloc nodeAlloc =>
    simp only [SafePtr.step] at hst
    split at hst
    · obtain ⟨u,hu,rfl⟩ := create_begins hst
      have hn : s.nextCb ≤ u.nextCb := by
        rw [hu.nextCb]
        cases cbAlloc <;> simp [cbCreate,State.begin]
      refine .cbStore a (h.others prior ?_ (fun b => ?_) hn) fun d hd => ?_
      · rw [hu.live]
        cases cbAlloc <;> rfl
      · rw [hu.owner]
        cases cbAlloc <;> rfl
      · rw [hu.nextCb]
        cases cbAlloc with
        | false => cases hd
        | true =>
          cases hd
          exact Nat.lt_succ_self _
    · cases hst
  | destroy a =>
    obtain ⟨c,u,-,hu,rfl⟩ := destroy_put hst
    intro b hb d hd
    have hlive := Finset.mem_of_mem_erase hb
    rw [hu.live] at hlive
    have hd : (u.sp b).cb = some d := hd
    rw [hu.sp] at hd
    rw [hu.nextCb]
    exact h b hlive d hd
  | store a data dtor cbAlloc nodeAlloc =>
    simp only [SafePtr.step] at hst
    split at hst
    · obtain ⟨d,-,hu⟩ := store_agree hst
      refine hu.refers (.cbStore a (fun b hb _ e he => ?_) fun e he => ?_)
      · cases cbAlloc with
        | false => exact h b hb e he
        | true => exact (h b hb e he).trans (Nat.lt_succ_self _)
      · cases cbAlloc with
        | false => cases he
        | true =>
          cases he
          exact Nat.lt_succ_self _
    · cases hst
  | load a =>
    simp only [SafePtr.step] at hst
    split at hst
    · obtain ⟨⟨u,x⟩,hu,rfl⟩ := Option.map_eq_some_iff.mp hst
      obtain ⟨s₁,h₁,hu⟩ := Option.bind_eq_some_iff.mp hu
      obtain ⟨c,-,hu⟩ := Option.bind_eq_some_iff.mp hu
      obtain ⟨s₂,h₂,he⟩ := Option.map_eq_some_iff.mp hu
      cases he
      exact ((readLock_agree h₁).trans (readUnlock_agree h₂)).refers h
    · cases hst
  | cmpxhg a expected desired =>
    simp only [SafePtr.step] at hst
    split at hst
    · obtain ⟨⟨u,x⟩,hu,rfl⟩ := Option.map_eq_some_iff.mp hst
      obtain ⟨s₁,h₁,hu⟩ := Option.bind_eq_some_iff.mp hu
      obtain ⟨c,-,hu⟩ := Option.bind_eq_some_iff.mp hu
      obtain ⟨s₂,h₂,he⟩ := Option.map_eq_some_iff.mp hu
      cases he
      have hs₁ := (readLock_agree h₁).refers h
      refine (readUnlock_agree h₂).refers ?_
      split
      · exact hs₁
      · exact hs₁
    · cases hst
  | borrow src dst prior nodeAlloc =>
    simp only [SafePtr.step] at hst
    split at hst
    · rename_i hlive
      obtain ⟨c,u,v,hc,hu,hv,ht⟩ := passSpPost_agree hst
      have hne : src ≠ dst := fun he => hlive.2 (he ▸ hlive.1)
      have hn : v.nextCb = s.nextCb := hv.nextCb.trans hu.nextCb
      refine ht.refers (.cbStore dst (h.others prior (hv.live.trans hu.live)
        (fun b => (hv.owner b).trans (hu.owner b)) hn.ge) fun d hd => ?_)
      cases hd
      rw [hn]
      exact h src hlive.1 c (by simpa [State.begin,hne] using hc)
    · cases hst

theorem Refers.init : Refers SafePtr.init := by
  intro a ha
  cases ha

theorem nodes_of_reach {s : State} (h : Reach step Anything init s) : NodeInv s ∧ Refers s :=
  h.invariant (I:=fun s => NodeInv s ∧ Refers s) ⟨.init,.init⟩
    fun _ _ _ hi _ hst => ⟨hi.1.step hst,hi.2.step hst⟩

end SafePtr
end Mthpc
