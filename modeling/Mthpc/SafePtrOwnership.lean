import Mthpc.SafePtr

/-!
# Who owns a control block

The count of a control block is the number of live safe_ptrs that refer to it, and its
destructor runs when that number drops to zero. A store takes its safe_ptr away from the
old control block without a put, and a put compares only the low half of the count.
-/
namespace Mthpc
namespace SafePtr

open StepSystem

def owners (s : State) (c : ℕ) : Finset Address := s.live.filter fun a => (s.sp a).cb = some c

/-- Every control block is counted by its owners, and it has been released once, on the last
value of its pointer, if it has no owner left, and not at all otherwise. -/
structure Owned (s : State) : Prop where
  count : ∀ c < s.nextCb, (s.cb c).refcount.toNat = (owners s c).card
  released : ∀ c < s.nextCb, s.released.filter (fun x => x.cb = c) =
    if owners s c = ∅ then [⟨c,(s.cb c).dtor,(s.cb c).rawPtr⟩] else []

/-- No store, and no put that finds the count 1, in the 32 bits that it compares. -/
def Sound (s : State) : Op → Prop
  | .store _ _ _ _ _ => False
  | .destroy a => ∀ c ∈ (s.sp a).cb, (s.cb c).refcount.setWidth 32 ≠ (1 : BitVec 32)
  | _ => True

instance (s : State) (op : Op) : Decidable (Sound s op) := by
  cases op <;> unfold Sound <;> infer_instance

structure Inv (s : State) : Prop extends Owned s where
  fresh : ∀ a ∈ s.live, ∀ c, (s.sp a).cb = some c → c < s.nextCb
  unreleased : ∀ x ∈ s.released, x.cb < s.nextCb

/-- Two states that differ in the bookkeeping of the readers only. -/
structure Agree (s t : State) : Prop where
  live : t.live = s.live
  nextCb : t.nextCb = s.nextCb
  released : t.released = s.released
  owner : ∀ a, (t.sp a).cb = (s.sp a).cb
  refcount : ∀ c, (t.cb c).refcount = (s.cb c).refcount
  rawPtr : ∀ c, (t.cb c).rawPtr = (s.cb c).rawPtr
  dtor : ∀ c, (t.cb c).dtor = (s.cb c).dtor
  dataFreed : t.dataFreed = s.dataFreed

theorem Agree.refl (s : State) : Agree s s :=
  ⟨rfl,rfl,rfl,fun _ => rfl,fun _ => rfl,fun _ => rfl,fun _ => rfl,rfl⟩

theorem Agree.trans {s t u : State} (h : Agree s t) (h' : Agree t u) : Agree s u :=
  ⟨h'.live.trans h.live,h'.nextCb.trans h.nextCb,h'.released.trans h.released,
    fun a => (h'.owner a).trans (h.owner a),fun c => (h'.refcount c).trans (h.refcount c),
    fun c => (h'.rawPtr c).trans (h.rawPtr c),fun c => (h'.dtor c).trans (h.dtor c),
    h'.dataFreed.trans h.dataFreed⟩

theorem Agree.owners {s t : State} (h : Agree s t) (c : ℕ) : owners t c = owners s c := by
  simp only [SafePtr.owners,h.live,h.owner]

theorem Agree.inv {s t : State} (h : Agree s t) (hs : Inv s) : Inv t := by
  refine ⟨⟨fun c hc => ?_,fun c hc => ?_⟩,fun a ha c hac => ?_,fun x hx => ?_⟩
  · rw [h.refcount,h.owners]
    exact hs.count c (h.nextCb ▸ hc)
  · rw [h.released,h.owners,h.dtor,h.rawPtr]
    exact hs.released c (h.nextCb ▸ hc)
  · rw [h.live] at ha
    rw [h.owner] at hac
    rw [h.nextCb]
    exact hs.fresh a ha c hac
  · rw [h.released] at hx
    rw [h.nextCb]
    exact hs.unreleased x hx

theorem Agree.updateCb (s : State) (c : ℕ) (head : List ℕ) (gp : Rcu.Word) :
    Agree s { s with cb := Function.update s.cb c { s.cb c with head := head, gpSeq := gp } } := by
  refine ⟨rfl,rfl,rfl,fun _ => rfl,?_,?_,?_,rfl⟩ <;> intro d <;> by_cases hd : d = c <;> simp [hd]

theorem Agree.updateSp (s : State) (a : Address) (sp : Sp) (h : sp.cb = (s.sp a).cb) :
    Agree s { s with sp := Function.update s.sp a sp } := by
  refine ⟨rfl,rfl,rfl,fun b => ?_,fun _ => rfl,fun _ => rfl,fun _ => rfl,rfl⟩
  by_cases hb : b = a <;> simp [hb,h]

theorem readLock_agree {s t : State} {n : Option ℕ} (h : readLock s n = some t) : Agree s t := by
  cases n with
  | none => cases h
  | some n =>
    obtain ⟨_,rfl⟩ := guarded_eq_some.mp h
    exact ⟨rfl,rfl,rfl,fun _ => rfl,fun _ => rfl,fun _ => rfl,fun _ => rfl,rfl⟩

theorem readUnlock_agree {s t : State} {n : Option ℕ} (h : readUnlock s n = some t) :
    Agree s t := by
  cases n with
  | none => cases h
  | some n =>
    obtain ⟨_,rfl⟩ := guarded_eq_some.mp h
    exact ⟨rfl,rfl,rfl,fun _ => rfl,fun _ => rfl,fun _ => rfl,fun _ => rfl,rfl⟩

theorem rcuAdd_agree (s : State) (c : ℕ) (id : BitVec 64) : Agree s (rcuAdd s c id).1 := by
  rw [rcuAdd]
  split
  · exact ⟨rfl,rfl,rfl,fun _ => rfl,fun _ => rfl,fun _ => rfl,fun _ => rfl,rfl⟩
  · refine ⟨rfl,rfl,rfl,fun _ => rfl,?_,?_,?_,rfl⟩ <;> intro d <;> by_cases hd : d = c <;> simp [hd]

theorem spInit_agree {s t : State} {a : Address} {c : Option ℕ} {alloc : Bool}
    (h : spInit s a c alloc = some t) : Agree s t := by
  rw [spInit] at h
  split at h
  · obtain ⟨d,-,rfl⟩ := Option.map_eq_some_iff.mp h
    exact (rcuAdd_agree s d _).trans (Agree.updateSp _ a _ rfl)
  · cases h
    exact Agree.refl s

theorem takeId_agree (s : State) (a : Address) : Agree s (takeId s a) := by
  refine ⟨rfl,rfl,rfl,fun b => ?_,fun _ => rfl,fun _ => rfl,fun _ => rfl,rfl⟩
  by_cases hb : b = a <;> simp [takeId,hb]

theorem synchronizeRcu_agree {s t : State} {c : ℕ} (h : synchronizeRcu s c = some t) :
    Agree s t := by
  simp only [synchronizeRcu] at h
  split at h
  · split at h
    · cases h
      exact Agree.updateCb s c (s.cb c).head _
    · cases h
  · cases h

/-- The put lowers the count, and releases the control block where it read 1. -/
structure Put (s t : State) (c : ℕ) : Prop where
  live : t.live = s.live
  nextCb : t.nextCb = s.nextCb
  sp : t.sp = s.sp
  refcount : ∀ d, (t.cb d).refcount =
    if d = c then (s.cb c).refcount+-1 else (s.cb d).refcount
  rawPtr : ∀ d, (t.cb d).rawPtr = (s.cb d).rawPtr
  dtor : ∀ d, (t.cb d).dtor = (s.cb d).dtor
  released : t.released = s.released ++
    if (s.cb c).refcount.setWidth 32 = (1 : BitVec 32) then [⟨c,(s.cb c).dtor,(s.cb c).rawPtr⟩]
    else []
  dataFreed : (s.cb c).refcount.setWidth 32 ≠ (1 : BitVec 32) → t.dataFreed = s.dataFreed

theorem synchronizeRcu_sp {s t : State} {c : ℕ} (h : synchronizeRcu s c = some t) :
    t.sp = s.sp := by
  simp only [synchronizeRcu] at h
  split at h
  · split at h
    · cases h; rfl
    · cases h
  · cases h

theorem cbPut_put {s t : State} {a : Address} {c : ℕ} (h : cbPut s a (some c) = some t) :
    Put s t c := by
  simp only [cbPut] at h
  split at h
  · rename_i hret
    obtain ⟨u,hu,rfl⟩ := Option.map_eq_some_iff.mp h
    have hg := synchronizeRcu_agree hu
    have ht := hg.trans (Agree.updateCb u c [] (u.cb c).gpSeq)
    have hsp := synchronizeRcu_sp hu
    refine ⟨ht.live,ht.nextCb,hsp,fun d => ?_,fun d => ?_,fun d => ?_,?_,fun hne => absurd hret hne⟩
    · refine (ht.refcount d).trans ?_
      by_cases hd : d = c <;> simp [hd]
    · refine (ht.rawPtr d).trans ?_
      by_cases hd : d = c <;> simp [hd]
    · refine (ht.dtor d).trans ?_
      by_cases hd : d = c <;> simp [hd]
    · have hdtor : ((rcuDataExit u c).cb c).dtor = (s.cb c).dtor := (ht.dtor c).trans (by simp)
      have hraw : ((rcuDataExit u c).cb c).rawPtr = (s.cb c).rawPtr :=
        (ht.rawPtr c).trans (by simp)
      have hrel : (rcuDataExit u c).released = s.released := ht.released
      rw [if_pos hret,hrel,hdtor,hraw]
  · rename_i hret
    cases h
    refine ⟨rfl,rfl,rfl,fun d => ?_,fun d => ?_,fun d => ?_,?_,fun _ => rfl⟩
    · by_cases hd : d = c <;> simp [rcuDel,hd]
    · by_cases hd : d = c <;> simp [rcuDel,hd]
    · by_cases hd : d = c <;> simp [rcuDel,hd]
    · rw [if_neg hret]
      simp [rcuDel]

theorem toNat_pred {x : BitVec 64} (h : 0 < x.toNat) : (x+-1).toNat = x.toNat-1 := by
  have hlt := x.isLt
  have hone : (-1 : BitVec 64).toNat = 2^64-1 := by decide
  rw [BitVec.toNat_add,hone]
  omega

theorem mem_owners {s : State} {a : Address} {c : ℕ} :
    a ∈ owners s c ↔ a ∈ s.live ∧ (s.sp a).cb = some c := Finset.mem_filter

theorem Inv.owners_fresh {s : State} (h : Inv s) {c : ℕ} (hc : s.nextCb ≤ c) : owners s c = ∅ := by
  refine Finset.filter_eq_empty_iff.mpr fun a ha hac => ?_
  have hlt := h.fresh a ha c hac
  omega

/-- A safe_ptr begins its life as an owner of `c`. -/
structure Begins (s t : State) (a : Address) (c : Option ℕ) : Prop where
  live : t.live = insert a s.live
  owner : (t.sp a).cb = c
  others : ∀ b, b ≠ a → (t.sp b).cb = (s.sp b).cb

theorem Begins.owners {s t : State} {a : Address} {c : Option ℕ} (h : Begins s t a c)
    (ha : a ∉ s.live) (d : ℕ) :
    owners t d = if c = some d then insert a (owners s d) else owners s d := by
  have hold : (s.live.filter fun b => (t.sp b).cb = some d) = SafePtr.owners s d := by
    refine Finset.filter_congr fun b hb => ?_
    rw [h.others b fun he => ha (he ▸ hb)]
  rw [SafePtr.owners,h.live,Finset.filter_insert,h.owner,hold]

theorem Begins.fresh {s t : State} {a : Address} {c : Option ℕ} (h : Begins s t a c) (hs : Inv s)
    (hn : s.nextCb ≤ t.nextCb) (hc : ∀ d, c = some d → d < t.nextCb) :
    ∀ b ∈ t.live, ∀ d, (t.sp b).cb = some d → d < t.nextCb := by
  intro b hb d hd
  by_cases hba : b = a
  · subst hba
    exact hc d (h.owner ▸ hd)
  · rw [h.others b hba] at hd
    rw [h.live] at hb
    exact (hs.fresh b ((Finset.mem_insert.mp hb).resolve_left hba) d hd).trans_le hn

theorem Inv.beginNull {s t : State} {a : Address} (h : Inv s) (ha : a ∉ s.live)
    (hb : Begins s t a none) (hn : t.nextCb = s.nextCb) (hr : t.released = s.released)
    (hcb : ∀ d, (t.cb d).refcount = (s.cb d).refcount ∧ (t.cb d).rawPtr = (s.cb d).rawPtr ∧
      (t.cb d).dtor = (s.cb d).dtor) : Inv t := by
  have ho : ∀ d, owners t d = owners s d := fun d => by rw [hb.owners ha d,if_neg nofun]
  refine ⟨⟨fun d hd => ?_,fun d hd => ?_⟩,hb.fresh h hn.ge nofun,?_⟩
  · rw [ho,(hcb d).1]; exact h.count d (hn ▸ hd)
  · rw [ho,(hcb d).2.1,(hcb d).2.2,hr]; exact h.released d (hn ▸ hd)
  · rw [hr,hn]; exact h.unreleased

theorem Inv.beginNew {s t : State} {a : Address} (h : Inv s) (ha : a ∉ s.live)
    (hb : Begins s t a (some s.nextCb)) (hn : t.nextCb = s.nextCb+1)
    (hr : t.released = s.released) (hnew : (t.cb s.nextCb).refcount = 1)
    (hold : ∀ d < s.nextCb, (t.cb d).refcount = (s.cb d).refcount ∧
      (t.cb d).rawPtr = (s.cb d).rawPtr ∧ (t.cb d).dtor = (s.cb d).dtor) : Inv t := by
  have hempty := h.owners_fresh le_rfl
  have ho : ∀ d < s.nextCb, owners t d = owners s d := by
    intro d hd
    rw [hb.owners ha d,if_neg]
    rintro he
    cases he
    exact lt_irrefl _ hd
  have hnewo : owners t s.nextCb = {a} := by rw [hb.owners ha,if_pos rfl,hempty]; rfl
  refine ⟨⟨fun d hd => ?_,fun d hd => ?_⟩,hb.fresh h (by omega) (fun d hd => ?_),fun x hx => ?_⟩
  · rcases Nat.lt_succ_iff_lt_or_eq.mp (hn ▸ hd) with hd | rfl
    · rw [ho d hd,(hold d hd).1]; exact h.count d hd
    · rw [hnewo,hnew]; rfl
  · rcases Nat.lt_succ_iff_lt_or_eq.mp (hn ▸ hd) with hd | rfl
    · obtain ⟨_,hraw,hdtor⟩ := hold d hd
      rw [ho d hd,hr,hraw,hdtor]; exact h.released d hd
    · rw [hnewo,hr,if_neg (Finset.singleton_ne_empty a),List.filter_eq_nil_iff]
      intro x hx
      have hlt := h.unreleased x hx
      simp only [decide_eq_true_eq]
      omega
  · cases hd; omega
  · have hlt := h.unreleased x (hr ▸ hx)
    omega

theorem Inv.beginBorrow {s t : State} {a src : Address} {c : ℕ} (h : Inv s) (ha : a ∉ s.live)
    (hsrc : src ∈ owners s c) (hb : Begins s t a (some c)) (hn : t.nextCb = s.nextCb)
    (hr : t.released = s.released)
    (hcb : ∀ d, (t.cb d).refcount = (if d = c then (s.cb c).refcount+1 else (s.cb d).refcount) ∧
      (t.cb d).rawPtr = (s.cb d).rawPtr ∧ (t.cb d).dtor = (s.cb d).dtor) : Inv t := by
  have hc : c < s.nextCb := h.fresh src (mem_owners.mp hsrc).1 c (mem_owners.mp hsrc).2
  have hnot : a ∉ owners s c := fun hm => ha (mem_owners.mp hm).1
  refine ⟨⟨fun d hd => ?_,fun d hd => ?_⟩,hb.fresh h hn.ge (fun d hd => ?_),?_⟩
  · rw [(hcb d).1,hb.owners ha d]
    by_cases hdc : d = c
    · subst hdc
      rw [if_pos rfl,if_pos rfl,Finset.card_insert_of_notMem hnot,BitVec.toNat_add,
        h.count d hc]
      have hlt := Address.card_lt (insert a (owners s d))
      rw [Finset.card_insert_of_notMem hnot] at hlt
      exact Nat.mod_eq_of_lt hlt
    · rw [if_neg hdc,if_neg fun he => hdc (Option.some.inj he).symm]
      exact h.count d (hn ▸ hd)
  · rw [(hcb d).2.1,(hcb d).2.2,hr,hb.owners ha d,h.released d (hn ▸ hd)]
    by_cases hdc : c = d
    · subst hdc
      rw [if_pos rfl,if_neg (Finset.ne_empty_of_mem hsrc),if_neg (Finset.insert_ne_empty a _)]
    · rw [if_neg fun he => hdc (Option.some.inj he)]
  · cases hd; omega
  · rw [hr,hn]; exact h.unreleased

theorem create_begins {s t : State} {a : Address} {data dtor : BitVec 64} {prior : Sp}
    {cbAlloc nodeAlloc : Bool}
    (h : create (s.begin a prior) a data dtor cbAlloc nodeAlloc = some t) :
    ∃ u, Agree (cbCreate (s.begin a prior) data dtor cbAlloc).1 u ∧
      t = cbStore u a (cbCreate (s.begin a prior) data dtor cbAlloc).2 := by
  obtain ⟨u,hu,rfl⟩ := Option.map_eq_some_iff.mp h
  exact ⟨u,(takeId_agree _ a).trans (spInit_agree hu),rfl⟩

theorem Inv.create {s t : State} {a : Address} {data dtor : BitVec 64} {prior : Sp}
    {cbAlloc nodeAlloc : Bool} (h : Inv s)
    (hst : step s (.create a data dtor prior cbAlloc nodeAlloc) = some t) : Inv t := by
  simp only [SafePtr.step] at hst
  split at hst
  · rename_i ha
    obtain ⟨u,hu,rfl⟩ := create_begins hst
    have hothers : ∀ b, b ≠ a → (u.sp b).cb = (s.sp b).cb := by
      intro b hb
      rw [hu.owner]
      cases cbAlloc <;> simp [cbCreate,State.begin,hb]
    cases cbAlloc with
    | false =>
      refine h.beginNull ha (a:=a) ⟨hu.live,by simp [cbStore,cbCreate],fun b hb => ?_⟩ hu.nextCb
        hu.released fun d => ⟨hu.refcount d,hu.rawPtr d,hu.dtor d⟩
      simpa [cbStore,hb] using hothers b hb
    | true =>
      refine h.beginNew ha (a:=a) ⟨hu.live,by simp [cbStore,cbCreate,State.begin],fun b hb => ?_⟩
        hu.nextCb hu.released ?_ fun d hd => ⟨?_,?_,?_⟩
      · simpa [cbStore,hb] using hothers b hb
      · exact (hu.refcount _).trans (by simp [cbCreate,State.begin])
      · exact (hu.refcount _).trans (by simp [cbCreate,State.begin,hd.ne])
      · exact (hu.rawPtr _).trans (by simp [cbCreate,State.begin,hd.ne])
      · exact (hu.dtor _).trans (by simp [cbCreate,State.begin,hd.ne])
  · cases hst

theorem passSpPost_agree {s t : State} {src dst : Address} {nodeAlloc : Bool}
    (h : passSpPost s src dst nodeAlloc = some t) : ∃ c u v, (s.sp src).cb = some c ∧ Agree s u ∧
      Agree { u with cb := Function.update u.cb c { u.cb c with
        refcount := (u.cb c).refcount+1 } } v ∧ Agree (cbStore v dst (some c)) t := by
  obtain ⟨s₁,h₁,hrest⟩ := Option.bind_eq_some_iff.mp h
  obtain ⟨s₂,h₂,hrest⟩ := Option.bind_eq_some_iff.mp hrest
  obtain ⟨s₃,h₃,h₄⟩ := Option.bind_eq_some_iff.mp hrest
  have hsrc := (readLock_agree h₁).owner src
  cases hc : (s₁.sp src).cb with
  | none => rw [hc] at h₂; cases h₂
  | some c =>
    rw [hc] at h₂ h₃ h₄
    obtain rfl := Option.some.inj h₂
    exact ⟨c,s₁,s₃,by rw [← hsrc,hc],readLock_agree h₁,(takeId_agree _ dst).trans (spInit_agree h₃),
      readUnlock_agree h₄⟩

theorem Inv.borrow {s t : State} {src dst : Address} {prior : Sp} {nodeAlloc : Bool} (h : Inv s)
    (hst : step s (.borrow src dst prior nodeAlloc) = some t) : Inv t := by
  simp only [SafePtr.step] at hst
  split at hst
  · rename_i hlive
    obtain ⟨hsrc,hdst⟩ := hlive
    obtain ⟨c,u,v,hc,hu,hv,ht⟩ := passSpPost_agree hst
    have hne : src ≠ dst := fun he => hdst (he ▸ hsrc)
    have hown : src ∈ owners s c := by
      refine mem_owners.mpr ⟨hsrc,?_⟩
      simpa [State.begin,hne] using hc
    refine h.beginBorrow hdst hown ⟨?_,?_,fun b hb => ?_⟩ ?_ ?_ fun d => ⟨?_,?_,?_⟩
    · exact (ht.live.trans hv.live).trans hu.live
    · rw [ht.owner]; simp [cbStore]
    · rw [ht.owner]
      simp only [cbStore,Function.update_of_ne hb]
      rw [hv.owner]
      simp only [hu.owner,State.begin,Function.update_of_ne hb]
    · exact (ht.nextCb.trans hv.nextCb).trans hu.nextCb
    · exact (ht.released.trans hv.released).trans hu.released
    · rw [ht.refcount]
      refine (hv.refcount d).trans ?_
      by_cases hd : d = c
      · subst hd; simp [hu.refcount,State.begin]
      · simp [hd,hu.refcount,State.begin]
    · rw [ht.rawPtr]
      refine (hv.rawPtr d).trans ?_
      by_cases hd : d = c
      · subst hd; simp [hu.rawPtr,State.begin]
      · simp [hd,hu.rawPtr,State.begin]
    · rw [ht.dtor]
      refine (hv.dtor d).trans ?_
      by_cases hd : d = c
      · subst hd; simp [hu.dtor,State.begin]
      · simp [hd,hu.dtor,State.begin]
  · cases hst

theorem load_agree {s t : State} {a : Address} (hst : step s (.load a) = some t) : Agree s t := by
  simp only [SafePtr.step] at hst
  split at hst
  · obtain ⟨⟨u,x⟩,hu,rfl⟩ := Option.map_eq_some_iff.mp hst
    obtain ⟨s₁,h₁,hu⟩ := Option.bind_eq_some_iff.mp hu
    obtain ⟨c,-,hu⟩ := Option.bind_eq_some_iff.mp hu
    obtain ⟨s₂,h₂,he⟩ := Option.map_eq_some_iff.mp hu
    cases he
    exact (readLock_agree h₁).trans (readUnlock_agree h₂)
  · cases hst

/-- What `mthpc_safe_ptr_cmpxhg` does to the owners: the pointer of its control block changes. -/
theorem cmpxhg_agree {s t : State} {a : Address} {expected desired : BitVec 64}
    (hst : step s (.cmpxhg a expected desired) = some t) : ∃ c u, a ∈ owners u c ∧ Agree s u ∧
      (Agree u t ∨
        Agree { u with cb := Function.update u.cb c { u.cb c with rawPtr := desired } } t) := by
  simp only [SafePtr.step] at hst
  split at hst
  · rename_i ha
    obtain ⟨⟨u,x⟩,hu,rfl⟩ := Option.map_eq_some_iff.mp hst
    obtain ⟨s₁,h₁,hu⟩ := Option.bind_eq_some_iff.mp hu
    obtain ⟨c,hc,hu⟩ := Option.bind_eq_some_iff.mp hu
    obtain ⟨s₂,h₂,he⟩ := Option.map_eq_some_iff.mp hu
    cases he
    have hag := readLock_agree h₁
    refine ⟨c,s₁,mem_owners.mpr ⟨by rw [hag.live]; exact ha,hc⟩,hag,?_⟩
    have hun := readUnlock_agree h₂
    split at hun
    · exact .inr hun
    · exact .inl hun
  · cases hst

theorem Inv.setRaw {s : State} (h : Inv s) {a : Address} {c : ℕ} (ha : a ∈ owners s c)
    (x : BitVec 64) : Inv { s with cb := Function.update s.cb c { s.cb c with rawPtr := x } } := by
  refine ⟨⟨fun d hd => ?_,fun d hd => ?_⟩,h.fresh,h.unreleased⟩
  · have hr := h.count d hd
    by_cases hdc : d = c
    · subst hdc; simpa [owners] using hr
    · simpa [owners,hdc] using hr
  · have hr := h.released d hd
    by_cases hdc : d = c
    · subst hdc
      rw [if_neg (Finset.ne_empty_of_mem ha)] at hr
      exact hr.trans (if_neg (Finset.ne_empty_of_mem ha)).symm
    · simp only [Function.update_of_ne hdc]
      exact hr

theorem destroy_put {s t : State} {a : Address} (hst : step s (.destroy a) = some t) :
    ∃ c u, a ∈ owners s c ∧ Put s u c ∧ t = { u with live := u.live.erase a } := by
  simp only [SafePtr.step] at hst
  split at hst
  · rename_i ha
    obtain ⟨u,hu,rfl⟩ := Option.map_eq_some_iff.mp hst
    cases hc : (s.sp a).cb with
    | none => rw [hc] at hu; cases hu
    | some c =>
      rw [hc] at hu
      exact ⟨c,u,mem_owners.mpr ⟨ha,hc⟩,cbPut_put hu,rfl⟩
  · cases hst

theorem Put.owners {s u : State} {c : ℕ} (h : Put s u c) (a : Address) (d : ℕ) :
    SafePtr.owners { u with live := u.live.erase a } d = (SafePtr.owners s d).erase a := by
  ext b
  simp only [mem_owners,Finset.mem_erase,h.live,h.sp,and_assoc]

theorem Inv.destroy {s t : State} {a : Address} (h : Inv s) (hok : Sound s (.destroy a))
    (hst : step s (.destroy a) = some t) : Inv t := by
  obtain ⟨c,u,ha,hu,rfl⟩ := destroy_put hst
  obtain ⟨hlive,hac⟩ := mem_owners.mp ha
  have hret := hok c hac
  have hc : c < s.nextCb := h.fresh a hlive c hac
  have hcount := h.count c hc
  have hpos : 0 < (owners s c).card := Finset.card_pos.mpr ⟨a,ha⟩
  have hreleased : u.released = s.released := by rw [hu.released,if_neg hret,List.append_nil]
  have hother : ∀ d, d ≠ c → (owners s d).erase a = owners s d := by
    intro d hd
    refine Finset.erase_eq_of_notMem fun hm => hd ?_
    rw [(mem_owners.mp hm).2] at hac
    exact Option.some.inj hac
  have hmore : (owners s c).erase a ≠ ∅ := by
    intro he
    have hcard := Finset.card_erase_of_mem ha
    rw [he,Finset.card_empty] at hcard
    have hone : (s.cb c).refcount = 1 := BitVec.eq_of_toNat_eq (by
      rw [hcount]
      show _ = 1
      omega)
    exact hret (by rw [hone]; rfl)
  refine ⟨⟨fun d hd => ?_,fun d hd => ?_⟩,fun b hb d hbd => ?_,fun x hx => ?_⟩
  · rw [hu.owners a d]
    by_cases hdc : d = c
    · subst hdc
      have hr := hu.refcount d
      rw [if_pos rfl] at hr
      rw [show ({ u with live := u.live.erase a } : State).cb = u.cb from rfl,hr,
        toNat_pred (by omega),hcount,Finset.card_erase_of_mem ha]
    · have hr := hu.refcount d
      rw [if_neg hdc] at hr
      rw [hother d hdc]
      exact (congrArg BitVec.toNat hr).trans (h.count d (hu.nextCb ▸ hd))
  · have hs := h.released d (hu.nextCb ▸ hd)
    rw [hu.owners a d]
    simp only [hreleased,hu.dtor,hu.rawPtr]
    by_cases hdc : d = c
    · subst hdc
      rw [hs,if_neg (Finset.ne_empty_of_mem ha),if_neg hmore]
    · rw [hother d hdc,hs]
  · have hb' : b ∈ s.live := by
      rw [← hu.live]
      exact Finset.mem_of_mem_erase hb
    have hbd' : (s.sp b).cb = some d := by
      rw [← hu.sp]
      exact hbd
    have hlt := h.fresh b hb' d hbd'
    rw [← hu.nextCb] at hlt
    exact hlt
  · have hx' : x ∈ u.released := hx
    rw [hreleased] at hx'
    have hn := h.unreleased x hx'
    rw [← hu.nextCb] at hn
    exact hn

theorem Inv.step {s t : State} {op : Op} (h : Inv s) (hok : Sound s op)
    (hst : step s op = some t) : Inv t := by
  cases op with
  | create a data dtor prior cbAlloc nodeAlloc => exact h.create hst
  | destroy a => exact h.destroy hok hst
  | store a data dtor cbAlloc nodeAlloc => exact hok.elim
  | load a => exact (load_agree hst).inv h
  | cmpxhg a expected desired =>
    obtain ⟨c,u,hown,hu,ht | ht⟩ := cmpxhg_agree hst
    · exact ht.inv (hu.inv h)
    · exact ht.inv ((hu.inv h).setRaw hown desired)
  | borrow src dst prior nodeAlloc => exact h.borrow hst

theorem Inv.init : Inv SafePtr.init :=
  ⟨⟨nofun,nofun⟩,nofun,nofun⟩

theorem store_agree {s t : State} {a : Address} {data dtor : BitVec 64} {cbAlloc nodeAlloc : Bool}
    (h : store s a data dtor cbAlloc nodeAlloc = some t) : ∃ d, (s.sp a).cb = some d ∧
      Agree (cbStore (cbCreate s data dtor cbAlloc).1 a (cbCreate s data dtor cbAlloc).2) t := by
  have hsp : (cbCreate s data dtor cbAlloc).1.sp = s.sp := by cases cbAlloc <;> rfl
  obtain ⟨u,hu,hi⟩ := Option.bind_eq_some_iff.mp h
  split at hu
  · rename_i hnull
    rw [hnull] at hu
    cases hu
  · rename_i hne
    cases hu
    obtain ⟨d,hd⟩ := Option.ne_none_iff_exists'.mp hne
    exact ⟨d,by rw [← hsp]; exact hd,spInit_agree hi⟩

theorem not_owned_of_store {s t : State} {a : Address} {data dtor : BitVec 64}
    {cbAlloc nodeAlloc : Bool} (h : Inv s)
    (hst : step s (.store a data dtor cbAlloc nodeAlloc) = some t) : ¬ Owned t := by
  intro ht
  simp only [SafePtr.step] at hst
  split at hst
  · rename_i ha
    obtain ⟨d,hd,hu⟩ := store_agree hst
    have hdlt : d < s.nextCb := h.fresh a ha d hd
    have hmem : a ∈ owners s d := mem_owners.mpr ⟨ha,hd⟩
    have howners : owners t d = (owners s d).erase a := by
      ext b
      simp only [mem_owners,Finset.mem_erase,hu.live,hu.owner]
      by_cases hb : b = a
      · subst hb
        cases cbAlloc <;> simp [cbStore,cbCreate,hdlt.ne']
      · cases cbAlloc <;> simp [cbStore,cbCreate,hb]
    have hcount : (t.cb d).refcount = (s.cb d).refcount := by
      rw [hu.refcount]
      cases cbAlloc <;> simp [cbStore,cbCreate,hdlt.ne]
    have hn : d < t.nextCb := by
      rw [hu.nextCb]
      cases cbAlloc <;> simp [cbStore,cbCreate] <;> omega
    have hc := ht.count d hn
    rw [hcount,h.count d hdlt,howners,Finset.card_erase_of_mem hmem] at hc
    have hpos := Finset.card_pos.mpr ⟨a,hmem⟩
    omega
  · cases hst

/-- An operation that meets the condition gives no pointer into a control block to `free`. -/
theorem dataFreed_of_sound {s t : State} {op : Op} (hok : Sound s op) (hst : step s op = some t) :
    t.dataFreed = s.dataFreed := by
  cases op with
  | create a data dtor prior cbAlloc nodeAlloc =>
    simp only [SafePtr.step] at hst
    split at hst
    · obtain ⟨u,hu,rfl⟩ := create_begins hst
      refine hu.dataFreed.trans ?_
      cases cbAlloc <;> rfl
    · cases hst
  | destroy a =>
    obtain ⟨c,u,ha,hu,rfl⟩ := destroy_put hst
    exact hu.dataFreed (hok c (mem_owners.mp ha).2)
  | store a data dtor cbAlloc nodeAlloc => exact hok.elim
  | load a => exact (load_agree hst).dataFreed
  | cmpxhg a expected desired =>
    obtain ⟨c,u,_,hu,ht | ht⟩ := cmpxhg_agree hst
    · exact ht.dataFreed.trans hu.dataFreed
    · exact ht.dataFreed.trans hu.dataFreed
  | borrow src dst prior nodeAlloc =>
    simp only [SafePtr.step] at hst
    split at hst
    · obtain ⟨c,u,v,_,hu,hv,ht⟩ := passSpPost_agree hst
      exact (ht.dataFreed.trans hv.dataFreed).trans hu.dataFreed
    · cases hst

/-- The put that finds the count 1 frees the `rcu_data` inside the control block. -/
theorem dataFreed_of_last {s t : State} {a : Address} {c : ℕ} (hst : step s (.destroy a) = some t)
    (hac : (s.sp a).cb = some c) (hret : (s.cb c).refcount.setWidth 32 = (1 : BitVec 32)) :
    c ∈ t.dataFreed := by
  simp only [SafePtr.step] at hst
  split at hst
  · obtain ⟨u,hu,rfl⟩ := Option.map_eq_some_iff.mp hst
    rw [hac] at hu
    simp only [cbPut,if_pos hret] at hu
    obtain ⟨v,_,rfl⟩ := Option.map_eq_some_iff.mp hu
    exact List.mem_cons_self
  · cases hst

/-- A step from a state in which the control blocks are counted right keeps them so, in a process
that is not aborted, exactly where it meets the condition. -/
theorem owned_step_iff {s t : State} {op : Op} (h : Inv s) (hd : s.dataFreed = [])
    (hst : step s op = some t) : Owned t ∧ t.dataFreed = [] ↔ Sound s op := by
  refine ⟨fun ⟨ht,he⟩ => ?_,fun hok =>
    ⟨(h.step hok hst).toOwned,(dataFreed_of_sound hok hst).trans hd⟩⟩
  cases op with
  | create a data dtor prior cbAlloc nodeAlloc | load a | cmpxhg a expected desired
  | borrow src dst prior nodeAlloc => trivial
  | store a data dtor cbAlloc nodeAlloc => exact absurd ht (not_owned_of_store h hst)
  | destroy a =>
    intro c hac hret
    have hmem := dataFreed_of_last hst hac hret
    rw [he] at hmem
    cases hmem

/-- In every sequence of operations that meet the condition, over any number of safe_ptrs, the
counts and the destructor calls are right after every operation, and the process is there. -/
theorem owned_of_sound {s : State} (h : Reach step Sound init s) : Owned s ∧ s.dataFreed = [] := by
  have hinv : Inv s ∧ s.dataFreed = [] := by
    refine h.invariant (I:=fun s => Inv s ∧ s.dataFreed = []) ⟨.init,rfl⟩ ?_
    intro s op t hi hok hst
    exact ⟨hi.1.step hok hst,(dataFreed_of_sound hok hst).trans hi.2⟩
  exact ⟨hinv.1.toOwned,hinv.2⟩

def lender : Address := ⟨65,by decide⟩

def borrower : Address := ⟨66,by decide⟩

/-- The old control block of a store keeps its count, without an owner. -/
theorem owned_fails : ¬ ∀ s, Reach step Anything init s → Owned s := by
  intro h
  have hs : ∃ s t, step init (.create lender 7 0 ⟨none,0,none⟩ true true) = some s ∧
      step s (.store lender 8 0 true true) = some t := ⟨_,_,rfl,rfl⟩
  obtain ⟨s,t,hs,ht⟩ := hs
  have hreach : Reach step Anything init s := Reach.refl.tail trivial hs
  exact not_owned_of_store (Inv.init.create hs) ht (h t (hreach.tail trivial ht))

def borrowRun : List Op :=
  [.create lender 7 0 ⟨none,0,none⟩ true true,.borrow lender borrower ⟨none,0,some 0⟩ true,
    .destroy lender,.cmpxhg borrower 7 9,.load borrower]

theorem owned_of_borrowRun : ∃ s, Reach step Sound init s ∧ s.live = {borrower} ∧
    (s.cb 0).rawPtr = 9 ∧ Owned s ∧ s.dataFreed = [] := by
  have hs : (exec (restrict step Sound) init borrowRun).map (fun s => (s.live,(s.cb 0).rawPtr)) =
      some ({borrower},9) := by decide
  obtain ⟨s,hs,hp⟩ := Option.map_eq_some_iff.mp hs
  obtain ⟨hl,hr⟩ := Prod.mk.inj hp
  have hreach := reach_of_exec_restrict hs
  exact ⟨s,hreach,hl,hr,owned_of_sound hreach⟩

end SafePtr
end Mthpc
