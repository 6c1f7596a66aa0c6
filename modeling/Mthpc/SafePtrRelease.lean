import Mthpc.SafePtr

/-!
# Releases of one control block by several threads

`mthpc_safe_ptr_destroy` with `mthpc_cb_put` of `src/safe_ptr/safe_ptr.c`, step by step: the
decrement, then either the retire sequence (`mthpc_synchronize_rcu_internal`,
`mthpc_rcu_data_exit`, the destructor) or `mthpc_rcu_del`. What is done under `data->lock`
between two waits is one step.
-/
namespace Mthpc
namespace SafePtr

open StepSystem
open Rcu (Word gpCtrPhase passes)

/-- Where a thread stands in `mthpc_cb_put`. The two waits of the synchronizer carry `curr_gp`
and the nodes they still have to pass. -/
inductive PutPc
  | dec
  | syncLock | readGp
  | wait1 (currGp : Word) (rest : List ℕ) | flip (currGp : Word)
  | wait2 (currGp : Word) (rest : List ℕ) | syncUnlock
  | exitLock | freeNodes | exitUnlock | metaUnlink | dtor
  | delLock | del | delUnlock
  | retired | deleted
  deriving DecidableEq

/-- The memory of the safe_ptrs, with the holder of each `data->lock`. -/
structure Mem (T : Type) where
  st : State
  lock : ℕ → Option T

variable {T : Type} [DecidableEq T]

def Mem.setCb (m : Mem T) (c : ℕ) (f : Cb → Cb) : Mem T :=
  { m with st := { m.st with cb := Function.update m.st.cb c (f (m.st.cb c)) } }

/-- `spin_lock(&data->lock)` and `spin_unlock(&data->lock)`. -/
def Mem.setLock (m : Mem T) (c : ℕ) (holder : Option T) : Mem T :=
  { m with lock := Function.update m.lock c holder }

section Projections

omit [DecidableEq T]

variable (m : Mem T) (c : ℕ) (f : Cb → Cb) (holder : Option T)

@[simp] theorem setCb_cb (d : ℕ) :
    (m.setCb c f).st.cb d = if d = c then f (m.st.cb c) else m.st.cb d := Function.update_apply ..

@[simp] theorem setCb_sp : (m.setCb c f).st.sp = m.st.sp := rfl

@[simp] theorem setCb_live : (m.setCb c f).st.live = m.st.live := rfl

@[simp] theorem setCb_nextCb : (m.setCb c f).st.nextCb = m.st.nextCb := rfl

@[simp] theorem setCb_released : (m.setCb c f).st.released = m.st.released := rfl

@[simp] theorem setLock_st : (m.setLock c holder).st = m.st := rfl

end Projections

/-- One step of `mthpc_cb_put(c, a)` by the thread `t`; the count is narrowed to `int`. -/
def putStep (t : T) (a : Address) (c : ℕ) (m : Mem T) : PutPc → Option (Mem T × PutPc)
  | .dec => some (m.setCb c fun b => { b with refcount := b.refcount+-1 },
      if (m.st.cb c).refcount.setWidth 32 = (1 : BitVec 32) then .syncLock else .delLock)
  | .syncLock => guarded (m.lock c = none) (m.setLock c (some t),.readGp)
  | .readGp => some (m,.wait1 (m.st.cb c).gpSeq (m.st.cb c).head)
  | .wait1 currGp [] => some (m,.flip currGp)
  | .wait1 currGp (n::rest) =>
      some (m,.wait1 currGp (if passes (m.st.node n).gpSeq currGp then rest else n::rest))
  | .flip currGp =>
      some (m.setCb c fun b => { b with gpSeq := b.gpSeq ^^^ gpCtrPhase },
        .wait2 currGp (m.st.cb c).head)
  | .wait2 _ [] => some (m,.syncUnlock)
  | .wait2 currGp (n::rest) =>
      some (m,.wait2 currGp (if passes (m.st.node n).gpSeq currGp then rest else n::rest))
  | .syncUnlock => some (m.setLock c none,.exitLock)
  | .exitLock => guarded (m.lock c = none) (m.setLock c (some t),.freeNodes)
  | .freeNodes => some (m.setCb c fun b => { b with head := [] },.exitUnlock)
  | .exitUnlock => some (m.setLock c none,.metaUnlink)
  | .metaUnlink => some ({ m with st := { m.st with dataFreed := c::m.st.dataFreed } },.dtor)
  | .dtor => some ({ m with st := { m.st with
      released := m.st.released ++ [⟨c,(m.st.cb c).dtor,(m.st.cb c).rawPtr⟩] } },.retired)
  | .delLock => guarded (m.lock c = none) (m.setLock c (some t),.del)
  | .del => some ({ m with st := rcuDel m.st c (m.st.sp a).id },.delUnlock)
  | .delUnlock => some (m.setLock c none,.deleted)
  | .retired | .deleted => none

def PutPc.retires : PutPc → Bool
  | .dec | .delLock | .del | .delUnlock | .deleted => false
  | _ => true

/-- The retire sequence has entered `mthpc_rcu_data_exit`. -/
def PutPc.tearsDown : PutPc → Bool
  | .freeNodes | .exitUnlock | .metaUnlink | .dtor | .retired => true
  | _ => false

def PutPc.ends : PutPc → Bool
  | .retired | .deleted => true
  | _ => false

/-- The thread that destroys a safe_ptr. -/
inductive DestroyPc
  | idle
  | put (c : ℕ) (p : PutPc)
  deriving DecidableEq

/-- Each safe_ptr that is alive is destroyed by a thread of its own, named after it. -/
structure Destroys where
  mem : Mem Address
  pc : Address → DestroyPc

/-- One step of the thread that destroys `a`. -/
def destroyStep (s : Destroys) (a : Address) : Option Destroys :=
  match s.pc a with
  | .idle =>
    if a ∈ s.mem.st.live then
      (s.mem.st.sp a).cb.map fun c => { s with pc := Function.update s.pc a (.put c .dec) }
    else none
  | .put c p => (putStep a a c s.mem p).map fun r =>
      { s with
        mem := r.1
        pc := Function.update s.pc a (.put c r.2) }

/-- Nothing is destroyed yet, and no lock is held. -/
def beginDestroys (st : State) : Destroys := ⟨⟨st,fun _ => none⟩,fun _ => .idle⟩

/-- The control block that the next step of a thread in `mthpc_cb_put` works on. -/
def DestroyPc.touches : DestroyPc → Option ℕ
  | .idle => none
  | .put c p => if p.ends then none else some c

/-- Once a put tears down the reader data, no other put does anything on the control block. -/
def Untouched (s : Destroys) : Prop :=
  ∀ h c p, s.pc h = .put c p → p.tearsDown = true → ∀ g ≠ h, (s.pc g).touches ≠ some c

/-- The count that a put reads is 1 if it is 1 as an `int`, and when a put enters
`mthpc_rcu_data_exit` every other put on the control block is over. -/
def LastAt (s : Destroys) (a : Address) : DestroyPc → Prop
  | .put c .dec => (s.mem.st.cb c).refcount.setWidth 32 = (1 : BitVec 32) →
      (s.mem.st.cb c).refcount = 1
  | .put c .exitLock => ∀ g ∈ s.mem.st.live, g ≠ a → (s.pc g).touches ≠ some c
  | _ => True

instance (s : Destroys) (a : Address) : ∀ p, Decidable (LastAt s a p)
  | .put c .dec => inferInstanceAs (Decidable
      ((s.mem.st.cb c).refcount.setWidth 32 = (1 : BitVec 32) → (s.mem.st.cb c).refcount = 1))
  | .put c .exitLock => inferInstanceAs (Decidable
      (∀ g ∈ s.mem.st.live, g ≠ a → (s.pc g).touches ≠ some c))
  | .idle | .put _ .syncLock | .put _ .readGp | .put _ (.wait1 _ _) | .put _ (.flip _)
  | .put _ (.wait2 _ _) | .put _ .syncUnlock | .put _ .freeNodes | .put _ .exitUnlock
  | .put _ .metaUnlink | .put _ .dtor | .put _ .delLock | .put _ .del | .put _ .delUnlock
  | .put _ .retired | .put _ .deleted => inferInstanceAs (Decidable True)

def Last (s : Destroys) (a : Address) : Prop := LastAt s a (s.pc a)

instance (s : Destroys) (a : Address) : Decidable (Last s a) :=
  inferInstanceAs (Decidable (LastAt s a (s.pc a)))

/-- What one step of a put does to the count and to the place of the thread. -/
structure PutStep (m m' : Mem T) (c : ℕ) (p p' : PutPc) : Prop where
  sp : m'.st.sp = m.st.sp
  live : m'.st.live = m.st.live
  nextCb : m'.st.nextCb = m.st.nextCb
  released : ∀ x ∈ m'.st.released, x ∈ m.st.released ∨ p.retires = true ∧ x.cb = c
  refcount : ∀ d, (m'.st.cb d).refcount =
    if p = .dec ∧ d = c then (m.st.cb c).refcount+-1 else (m.st.cb d).refcount
  retires : p'.retires = true ↔
    if p = .dec then (m.st.cb c).refcount.setWidth 32 = (1 : BitVec 32) else p.retires = true
  tearsDown : p'.tearsDown = true → p = .exitLock ∨ p.tearsDown = true
  goes : p.ends = false ∧ p' ≠ .dec

theorem putStep_spec {T : Type} {t : T} {a : Address} {c : ℕ} {m m' : Mem T} {p p' : PutPc}
    (h : putStep t a c m p = some (m',p')) : PutStep m m' c p p' := by
  cases p with
  | dec =>
    cases h
    refine ⟨rfl,rfl,rfl,fun _ => .inl,
      fun d => by by_cases hd : d = c <;> simp [hd],?_,?_,rfl,?_⟩ <;>
      split <;> simp_all [PutPc.retires,PutPc.tearsDown]
  | syncLock | exitLock | delLock =>
    obtain ⟨_,he⟩ := guarded_eq_some.mp h
    cases he
    exact ⟨rfl,rfl,rfl,fun _ => .inl,by simp,by simp [PutPc.retires],by simp [PutPc.tearsDown],rfl,
      nofun⟩
  | wait1 g rest | wait2 g rest =>
    cases rest <;> cases h <;>
      exact ⟨rfl,rfl,rfl,fun _ => .inl,
        by simp,by simp [PutPc.retires],by simp [PutPc.tearsDown],rfl,
        nofun⟩
  | readGp | syncUnlock | exitUnlock | metaUnlink | delUnlock =>
    cases h
    exact ⟨rfl,rfl,rfl,fun _ => .inl,by simp,by simp [PutPc.retires],by simp [PutPc.tearsDown],rfl,
      nofun⟩
  | dtor =>
    cases h
    refine ⟨rfl,rfl,rfl,fun x hx => ?_,
      by simp,by simp [PutPc.retires],by simp [PutPc.tearsDown],rfl,
      nofun⟩
    rcases List.mem_append.mp hx with hx | hx
    · exact .inl hx
    · exact .inr ⟨rfl,by rw [List.mem_singleton.mp hx]⟩
  | flip g | freeNodes | del =>
    cases h
    refine ⟨rfl,rfl,rfl,fun _ => .inl,fun d => ?_,by simp [PutPc.retires],
      by simp [PutPc.tearsDown],rfl,nofun⟩
    by_cases hd : d = c <;> simp [hd,rcuDel]
  | retired | deleted => cases h

def DestroyPc.pending : DestroyPc → Bool
  | .idle | .put _ .dec => true
  | _ => false

def pending (s : Destroys) (c : ℕ) : Finset Address :=
  s.mem.st.live.filter fun a => (s.mem.st.sp a).cb = some c ∧ (s.pc a).pending = true

structure ReleaseInv (s : Destroys) : Prop where
  count : ∀ a ∈ s.mem.st.live, ∀ c, (s.mem.st.sp a).cb = some c →
    (s.mem.st.cb c).refcount.toNat = (pending s c).card
  pc : ∀ a c p, s.pc a = .put c p → a ∈ s.mem.st.live ∧ (s.mem.st.sp a).cb = some c
  retired : ∀ a c p, s.pc a = .put c p → p.retires = true → pending s c = ∅
  unique : ∀ a b c p q, s.pc a = .put c p → s.pc b = .put c q → p.retires = true →
    q.retires = true → a = b
  torn : Untouched s

section Steps

variable {s t : Destroys} {a b : Address} {c d : ℕ} {p q : PutPc}

theorem mem_pending : b ∈ pending s c ↔ b ∈ s.mem.st.live ∧ (s.mem.st.sp b).cb = some c ∧
    (s.pc b).pending = true := by
  simp [pending]

theorem PutPc.retires_of_tearsDown (h : p.tearsDown = true) : p.retires = true := by
  cases p <;> first | rfl | cases h

theorem touches_put : (DestroyPc.put c p).touches = if p.ends = true then none else some c := rfl

theorem ReleaseInv.idle (h : ReleaseInv s) (hp : s.pc a = .idle) (ha : a ∈ s.mem.st.live)
    (hc : (s.mem.st.sp a).cb = some c) :
    ReleaseInv { s with pc := Function.update s.pc a (.put c .dec) } := by
  have hpend : ∀ d, pending { s with pc := Function.update s.pc a (.put c .dec) } d =
      pending s d := by
    intro d
    ext b
    simp only [mem_pending]
    by_cases hb : b = a
    · simp [hb,hp,DestroyPc.pending]
    · simp [hb]
  have hmem : a ∈ pending s c := mem_pending.mpr ⟨ha,hc,by simp [hp,DestroyPc.pending]⟩
  refine ⟨fun b hb d hd => ?_,fun b d p hb => ?_,fun b d p hb hr => ?_,
    fun b b' d p q hb hb' hr hr' => ?_,fun b d p hb ht g hg => ?_⟩
  · rw [hpend]
    exact h.count b hb d hd
  · by_cases hba : b = a
    · subst hba
      simp only [Function.update_self,DestroyPc.put.injEq] at hb
      exact ⟨ha,hb.1 ▸ hc⟩
    · exact h.pc b d p (by simpa [hba] using hb)
  · rw [hpend]
    by_cases hba : b = a
    · simp only [hba,Function.update_self,DestroyPc.put.injEq] at hb
      simp [← hb.2,PutPc.retires] at hr
    · exact h.retired b d p (by simpa [hba] using hb) hr
  · have hne : ∀ e r, Function.update s.pc a (.put c .dec) e = .put d r → r.retires = true →
        e ≠ a := by
      rintro e r he hr rfl
      simp only [Function.update_self,DestroyPc.put.injEq] at he
      simp [← he.2,PutPc.retires] at hr
    have h1 := hne b p hb hr
    have h2 := hne b' q hb' hr'
    exact h.unique b b' d p q (by simpa [h1] using hb) (by simpa [h2] using hb') hr hr'
  · have hba : b ≠ a := by
      rintro rfl
      simp only [Function.update_self,DestroyPc.put.injEq] at hb
      simp [← hb.2,PutPc.tearsDown] at ht
    have hb' : s.pc b = .put d p := by simpa [hba] using hb
    by_cases hga : g = a
    · have hempty := h.retired b d p hb' (PutPc.retires_of_tearsDown ht)
      have hcd : c ≠ d := by
        rintro rfl
        simp [hempty] at hmem
      simpa [hga,touches_put,PutPc.ends] using hcd
    · simpa [hga] using h.torn b d p hb' ht g hg

theorem ReleaseInv.dec {m : Mem Address} (h : ReleaseInv s) (hok : Last s a)
    (hp : s.pc a = .put c .dec) (hst : PutStep s.mem m c .dec q) :
    ReleaseInv { s with
      mem := m
      pc := Function.update s.pc a (.put c q) } := by
  obtain ⟨hlive,hcb⟩ := h.pc a c _ hp
  have hmem : a ∈ pending s c := mem_pending.mpr ⟨hlive,hcb,by simp [hp,DestroyPc.pending]⟩
  have hnot : (DestroyPc.put c q).pending = false := by
    have hq := hst.goes.2
    cases q <;> first | rfl | exact absurd rfl hq
  have hpend : ∀ d, pending { s with
      mem := m
      pc := Function.update s.pc a (.put c q) } d =
      if d = c then (pending s c).erase a else pending s d := by
    intro d
    ext b
    by_cases hba : b = a
    · by_cases hd : d = c
      · simp [hd,mem_pending,hba,hnot]
      · simp [hd,mem_pending,hba,hnot,hcb,Ne.symm hd]
    · by_cases hd : d = c <;> simp [hd,mem_pending,hba,hst.live,hst.sp]
  have hother : ∀ b p, s.pc b = .put c p → p.retires = false := by
    intro b p hb
    by_contra hr
    have he := h.retired b c p hb (by simpa using hr)
    simp [he] at hmem
  refine ⟨fun b hb d hd => ?_,fun b d p hb => ?_,fun b d p hb hr => ?_,
    fun b b' d p p' hb hb' hr hr' => ?_,fun b d p hb ht g hg => ?_⟩
  · simp only [hst.live] at hb
    simp only [hst.sp] at hd
    have hcount := h.count b hb d hd
    rw [hpend,hst.refcount]
    by_cases hdc : d = c
    · subst hdc
      have hpos := Finset.card_pos.mpr ⟨a,hmem⟩
      rw [if_pos ⟨rfl,rfl⟩,if_pos rfl,Finset.card_erase_of_mem hmem,BitVec.toNat_add,hcount,
        show (-1 : BitVec 64).toNat = 2^64-1 from rfl]
      have hlt := (s.mem.st.cb d).refcount.isLt
      omega
    · rw [if_neg fun hh => hdc hh.2,if_neg hdc]
      exact hcount
  · simp only [hst.live,hst.sp]
    by_cases hba : b = a
    · subst hba
      simp only [Function.update_self,DestroyPc.put.injEq] at hb
      exact ⟨hlive,hb.1 ▸ hcb⟩
    · exact h.pc b d p (by simpa [hba] using hb)
  · rw [hpend]
    by_cases hba : b = a
    · simp only [hba,Function.update_self,DestroyPc.put.injEq] at hb
      obtain ⟨rfl,rfl⟩ := hb
      have hone : (s.mem.st.cb c).refcount = 1 := by
        rw [Last,hp] at hok
        exact hok (by simpa using hst.retires.mp hr)
      have hcard := h.count a hlive c hcb
      rw [hone] at hcard
      rw [if_pos rfl,← Finset.card_eq_zero,Finset.card_erase_of_mem hmem,← hcard]
      rfl
    · have hb' : s.pc b = .put d p := by simpa [hba] using hb
      have hdc : d ≠ c := by
        rintro rfl
        simp [hother b p hb'] at hr
      rw [if_neg hdc]
      exact h.retired b d p hb' hr
  · by_cases hba : b = a <;> by_cases hba' : b' = a
    · rw [hba,hba']
    · simp only [hba,Function.update_self,DestroyPc.put.injEq] at hb
      obtain ⟨rfl,rfl⟩ := hb
      simp [hother b' p' (by simpa [hba'] using hb')] at hr'
    · simp only [hba',Function.update_self,DestroyPc.put.injEq] at hb'
      obtain ⟨rfl,rfl⟩ := hb'
      simp [hother b p (by simpa [hba] using hb)] at hr
    · exact h.unique b b' d p p' (by simpa [hba] using hb) (by simpa [hba'] using hb') hr hr'
  · have hba : b ≠ a := by
      rintro rfl
      simp only [Function.update_self,DestroyPc.put.injEq] at hb
      obtain ⟨rfl,rfl⟩ := hb
      simpa [PutPc.tearsDown] using hst.tearsDown ht
    have hb' : s.pc b = .put d p := by simpa [hba] using hb
    have hdc : c ≠ d := by
      rintro rfl
      exact absurd (hother b p hb') (by simp [PutPc.retires_of_tearsDown ht])
    by_cases hga : g = a
    · simp only [hga,Function.update_self,touches_put]
      split <;> simp [hdc]
    · simpa [hga] using h.torn b d p hb' ht g hg

theorem ReleaseInv.goOn {m : Mem Address} (h : ReleaseInv s) (hok : Last s a)
    (hp : s.pc a = .put c p) (hdec : p ≠ .dec) (hst : PutStep s.mem m c p q) :
    ReleaseInv { s with
      mem := m
      pc := Function.update s.pc a (.put c q) } := by
  obtain ⟨hlive,hcb⟩ := h.pc a c _ hp
  have hnot : ∀ r, r ≠ .dec → (DestroyPc.put c r).pending = false := by
    intro r hr
    cases r <;> first | rfl | exact absurd rfl hr
  have hret : q.retires = true ↔ p.retires = true := by simpa [hdec] using hst.retires
  have hpend : ∀ d, pending { s with
      mem := m
      pc := Function.update s.pc a (.put c q) } d = pending s d := by
    intro d
    ext b
    by_cases hba : b = a
    · simp [mem_pending,hba,hp,hnot q hst.goes.2,hnot p hdec]
    · simp [mem_pending,hba,hst.live,hst.sp]
  -- a thread of the new state was in a put on the same block before the step
  have hold : ∀ b d r, Function.update s.pc a (.put c q) b = .put d r →
      ∃ r', s.pc b = .put d r' ∧ (r.retires = true → r'.retires = true) := by
    intro b d r hb
    by_cases hba : b = a
    · subst hba
      simp only [Function.update_self,DestroyPc.put.injEq] at hb
      obtain ⟨rfl,rfl⟩ := hb
      exact ⟨p,hp,hret.mp⟩
    · exact ⟨r,by simpa [hba] using hb,id⟩
  refine ⟨fun b hb d hd => ?_,fun b d r hb => ?_,fun b d r hb hr => ?_,
    fun b b' d r r' hb hb' hr hr' => ?_,fun b d r hb ht g hg => ?_⟩
  · rw [hpend,hst.refcount,if_neg fun hh => hdec hh.1]
    exact h.count b (by simpa [hst.live] using hb) d (by simpa [hst.sp] using hd)
  · obtain ⟨r',hb',_⟩ := hold b d r hb
    simpa [hst.live,hst.sp] using h.pc b d r' hb'
  · obtain ⟨r',hb',hr'⟩ := hold b d r hb
    rw [hpend]
    exact h.retired b d r' hb' (hr' hr)
  · obtain ⟨_,h1,hr1⟩ := hold b d r hb
    obtain ⟨_,h2,hr2⟩ := hold b' d r' hb'
    exact h.unique b b' d _ _ h1 h2 (hr1 hr) (hr2 hr')
  · have hta : (s.pc a).touches = some c := by simp [hp,touches_put,hst.goes.1]
    by_cases hba : b = a
    · subst hba
      simp only [Function.update_self,DestroyPc.put.injEq] at hb
      obtain ⟨rfl,rfl⟩ := hb
      simp only [Function.update_of_ne hg]
      rcases hst.tearsDown ht with rfl | ht'
      · rw [Last,hp] at hok
        by_cases hgl : g ∈ s.mem.st.live
        · exact hok g hgl hg
        · cases hpg : s.pc g with
          | idle => simp [DestroyPc.touches]
          | put d r => exact absurd (h.pc g d r hpg).1 hgl
      · exact h.torn b c p hp ht' g hg
    · have hb' : s.pc b = .put d r := by simpa [hba] using hb
      by_cases hga : g = a
      · have hcd : c ≠ d := by
          have hne := h.torn b d r hb' ht a (Ne.symm hba)
          rw [hta] at hne
          exact fun hcd => hne (congrArg some hcd)
        simp only [hga,Function.update_self,touches_put]
        split <;> simp [hcd]
      · simpa [hga] using h.torn b d r hb' ht g hg

theorem ReleaseInv.step (h : ReleaseInv s) (hok : Last s a) (hst : destroyStep s a = some t) :
    ReleaseInv t := by
  unfold destroyStep at hst
  cases hp : s.pc a with
  | idle =>
    simp only [hp] at hst
    split at hst
    next ha =>
      obtain ⟨c,hc,rfl⟩ := Option.map_eq_some_iff.mp hst
      exact h.idle hp ha hc
    next => cases hst
  | put c p =>
    simp only [hp] at hst
    obtain ⟨⟨m,q⟩,hq,rfl⟩ := Option.map_eq_some_iff.mp hst
    have hspec := putStep_spec hq
    by_cases hdec : p = .dec
    · subst hdec
      exact h.dec hok hp hspec
    · exact h.goOn hok hp hdec hspec

theorem ReleaseInv.begin {st : State} (hcount : ∀ a ∈ st.live, ∀ c, (st.sp a).cb = some c →
    (st.cb c).refcount.toNat = (st.live.filter fun b => (st.sp b).cb = some c).card) :
    ReleaseInv (beginDestroys st) := by
  refine ⟨fun a ha c hc => ?_,nofun,nofun,nofun,nofun⟩
  rw [show pending (beginDestroys st) c = st.live.filter fun b => (st.sp b).cb = some c by
    ext b; simp [mem_pending,beginDestroys,DestroyPc.pending]]
  exact hcount a ha c hc

end Steps

/-- In every interleaving of releases in which the retiring put enters the exit last, no other
put touches the control block afterwards. -/
theorem untouched_of_last {st : State} {s : Destroys}
    (hcount : ∀ a ∈ st.live, ∀ c, (st.sp a).cb = some c →
      (st.cb c).refcount.toNat = (st.live.filter fun b => (st.sp b).cb = some c).card)
    (h : Reach destroyStep Last (beginDestroys st) s) : Untouched s := by
  have hi : ReleaseInv s := by
    apply h.invariant (I:=ReleaseInv) (.begin hcount)
    intro t a u hi hok hst
    exact hi.step hok hst
  exact hi.torn

def ownerA : Address := ⟨129,by decide⟩

def ownerB : Address := ⟨130,by decide⟩

def otherOwner : Address := ⟨131,by decide⟩

/-- Two safe_ptrs that own the control block 1. The second one is borrowed from the first, and its
memory held the reader node of a third one before. -/
def shared : State :=
  (exec step init [.create otherOwner 5 0 ⟨none,0,none⟩ true true,
    .create ownerA 7 0 ⟨none,0,none⟩ true true,
    .borrow ownerA ownerB ⟨none,0,some 0⟩ true]).getD init

theorem shared_count : ∀ a ∈ shared.live, ∀ c, (shared.sp a).cb = some c →
    (shared.cb c).refcount.toNat =
      (shared.live.filter fun b => (shared.sp b).cb = some c).card := by
  intro a ha c hc
  have hlive : shared.live = {ownerB,ownerA,otherOwner} := rfl
  simp only [hlive,Finset.mem_insert,Finset.mem_singleton] at ha
  rcases ha with rfl | rfl | rfl
  · have h1 : some 1 = some c := hc
    cases h1
    rfl
  · have h1 : some 1 = some c := hc
    cases h1
    rfl
  · have h0 : some 0 = some c := hc
    cases h0
    rfl

/-- The first owner removes its reader node before the second one retires the block. -/
def orderly : List Address :=
  [ownerA,ownerA,ownerA,ownerA,ownerA] ++ List.replicate 15 ownerB

theorem untouched_of_orderly : ∃ s, Reach destroyStep Last (beginDestroys shared) s ∧
    s.pc ownerA = .put 1 .deleted ∧ s.pc ownerB = .put 1 .retired ∧ Untouched s := by
  have hs : (exec (restrict destroyStep Last) (beginDestroys shared) orderly).map
      (fun s => (s.pc ownerA,s.pc ownerB)) = some (.put 1 .deleted,.put 1 .retired) := by decide
  obtain ⟨s,hs,hp⟩ := Option.map_eq_some_iff.mp hs
  obtain ⟨ha,hb⟩ := Prod.mk.inj hp
  have hreach := reach_of_exec_restrict hs
  exact ⟨s,hreach,ha,hb,untouched_of_last shared_count hreach⟩

/-- The first owner has decremented, and is about to remove its reader node from the block that
the second one tears down. -/
theorem untouched_fails : ¬ ∀ st s, (∀ a ∈ st.live, ∀ c, (st.sp a).cb = some c →
      (st.cb c).refcount.toNat = (st.live.filter fun b => (st.sp b).cb = some c).card) →
    Reach destroyStep Anything (beginDestroys st) s → Untouched s := by
  intro h
  have hs : (exec destroyStep (beginDestroys shared)
      ([ownerA,ownerA] ++ List.replicate 13 ownerB)).map (fun s => (s.pc ownerA,s.pc ownerB)) =
        some (.put 1 .delLock,.put 1 .freeNodes) := by decide
  obtain ⟨s,hs,hp⟩ := Option.map_eq_some_iff.mp hs
  obtain ⟨ha,hb⟩ := Prod.mk.inj hp
  have hu := h shared s shared_count (reach_of_exec hs)
    ownerB 1 .freeNodes hb rfl ownerA (by decide)
  exact hu (by rw [ha]; rfl)

end SafePtr
end Mthpc
