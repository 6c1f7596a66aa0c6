import Mthpc.SafePtrOwnership
import Mthpc.SafePtrRelease

/-!
# Borrowing from a safe_ptr that is released

Any number of threads that create, borrow, store and destroy safe_ptrs, step by step. A borrow
loads the control block of the lender and increments its count in two steps, and the lender
may be released meanwhile. A read-side section is one step here: it is opened on whatever
node pointer the memory of the new safe_ptr holds.
-/
namespace Mthpc
namespace SafePtr

open StepSystem

/-- Who calls `mthpc_cb_rcu_init`. -/
inductive Caller
  | create | borrow | store
  deriving DecidableEq

/-- Where a thread stands in `mthpc_rcu_add`. -/
inductive AddPc
  | malloc | lock | add | unlock (node : ℕ) | assign (node : ℕ)
  deriving DecidableEq

/-- Where a thread stands in an operation, with its local `cb`. -/
inductive ThreadPc
  | idle
  | destroyLoad (a : Address) | put (a : Address) (c : ℕ) (p : PutPc) | putNull
  | lock (src dst : Address) | load (src dst : Address) | get (src dst : Address) (c : ℕ)
  | takeId (k : Caller) (a : Address) (c : Option ℕ)
  | init (k : Caller) (a : Address) (c : Option ℕ) (p : AddPc)
  | storeCb (k : Caller) (a : Address) (c : Option ℕ) | unlock (a : Address)
  | xchg (a : Address) (c : Option ℕ)
  deriving DecidableEq

/-- `owned` are the safe_ptrs in the hands of no operation of their owner. `holds` is a ghost:
the references that were taken and not put, each with the safe_ptr it was taken for. -/
structure Borrows (T : Type) where
  mem : Mem T
  pc : T → ThreadPc
  owned : Finset Address
  holds : Multiset (Address × ℕ)

/-- A call, or the next step of the thread; `alloc` says whether `malloc` succeeds. -/
inductive BorrowAct (T : Type)
  | create (t : T) (a : Address) (data dtor : BitVec 64) (prior : Sp) (alloc : Bool)
  | destroy (t : T) (a : Address)
  | store (t : T) (a : Address) (data dtor : BitVec 64) (alloc : Bool)
  | borrow (t : T) (src dst : Address) (prior : Sp)
  | go (t : T) (alloc : Bool)

variable {T : Type} [DecidableEq T]

def Borrows.setSt (s : Borrows T) (st : State) : Borrows T :=
  { s with mem := { s.mem with st := st } }

def Borrows.goto (s : Borrows T) (t : T) (p : ThreadPc) : Borrows T :=
  { s with pc := Function.update s.pc t p }

def Borrows.return (s : Borrows T) (t : T) (a : Address) : Borrows T :=
  { s.goto t .idle with owned := insert a s.owned }

/-- The reference of a new control block. -/
def Borrows.hold (s : Borrows T) (a : Address) (c : Option ℕ) : Borrows T :=
  { s with holds := (c.elim 0 fun d => {(a,d)}) + s.holds }

/-- `mthpc_cb_rcu_init` returns to its caller. -/
def Borrows.inited (s : Borrows T) (t : T) (k : Caller) (a : Address) (c : Option ℕ) : Borrows T :=
  if k = .store then s.return t a else s.goto t (.storeCb k a c)

/-- One step of `mthpc_rcu_add(&cb->rcu_data, a->id, &a->rcu_node)`. -/
def initStep (s : Borrows T) (t : T) (alloc : Bool) (k : Caller) (a : Address) (c : Option ℕ) :
    AddPc → Option (Borrows T)
  | .malloc => some (if alloc then s.goto t (.init k a c .lock) else s.inited t k a c)
  | .lock => c.bind fun d => guarded (s.mem.lock d = none)
      { s.goto t (.init k a c .add) with mem := s.mem.setLock d (some t) }
  | .add => c.map fun d =>
      let r := rcuAdd s.mem.st d (s.mem.st.sp a).id
      (s.setSt r.1).goto t (.init k a c (.unlock r.2))
  | .unlock n => c.map fun d =>
      { s.goto t (.init k a c (.assign n)) with mem := s.mem.setLock d none }
  | .assign n => some ((s.setSt { s.mem.st with
      sp := Function.update s.mem.st.sp a
        { s.mem.st.sp a with rcuNode := some n } }).inited t k a c)

def goStep (s : Borrows T) (t : T) (alloc : Bool) : ThreadPc → Option (Borrows T)
  | .idle | .putNull => none
  | .destroyLoad a => some (s.goto t ((s.mem.st.sp a).cb.elim .putNull fun c => .put a c .dec))
  | .put a c p =>
    if p.ends then some ((s.setSt { s.mem.st with live := s.mem.st.live.erase a }).goto t .idle)
    else (putStep t a c s.mem p).map fun r =>
      { s.goto t (.put a c r.2) with
        mem := r.1
        holds := if p = .dec then s.holds.erase (a,c) else s.holds }
  | .lock src dst => (readLock s.mem.st (s.mem.st.sp dst).rcuNode).map fun st =>
      (s.setSt st).goto t (.load src dst)
  | .load src dst => (s.mem.st.sp src).cb.map fun c => s.goto t (.get src dst c)
  | .get _ dst c => (cbGet s.mem.st (some c)).map fun st =>
      ((s.setSt st).hold dst (some c)).goto t (.takeId .borrow dst (some c))
  | .takeId k a c => some ((s.setSt (takeId s.mem.st a)).goto t (.init k a c .malloc))
  | .init k a c p => initStep s t alloc k a c p
  | .storeCb k a c =>
    let s' := s.setSt (cbStore s.mem.st a c)
    some (if k = .borrow then s'.goto t (.unlock a) else s'.return t a)
  | .unlock a => (readUnlock s.mem.st (s.mem.st.sp a).rcuNode).map fun st =>
      (s.setSt st).return t a
  | .xchg a c =>
    let s' := s.setSt (cbStore s.mem.st a c)
    some (s'.goto t (if (s.mem.st.sp a).cb = none then .putNull else .init .store a c .malloc))

/-- One step. A safe_ptr is released and stored to by its owner only, while others may borrow
from it; a new one is at an address that is not in use, with arbitrary contents. -/
def borrowStep (s : Borrows T) : BorrowAct T → Option (Borrows T)
  | .create t a data dtor prior alloc =>
    let r := cbCreate (s.mem.st.begin a prior) data dtor alloc
    guarded (s.pc t = .idle ∧ a ∉ s.mem.st.live)
      (((s.setSt r.1).hold a r.2).goto t (.takeId .create a r.2))
  | .destroy t a => guarded (s.pc t = .idle ∧ a ∈ s.owned)
      { s.goto t (.destroyLoad a) with owned := s.owned.erase a }
  | .store t a data dtor alloc =>
    let r := cbCreate s.mem.st data dtor alloc
    guarded (s.pc t = .idle ∧ a ∈ s.owned)
      { ((s.setSt r.1).hold a r.2).goto t (.xchg a r.2) with owned := s.owned.erase a }
  | .borrow t src dst prior => guarded (s.pc t = .idle ∧ src ∈ s.owned ∧ dst ∉ s.mem.st.live)
      ((s.setSt (s.mem.st.begin dst prior)).goto t (.lock src dst))
  | .go t alloc => goStep s t alloc (s.pc t)

/-- No safe_ptr yet. -/
def noSafePtr (T : Type) : Borrows T := ⟨⟨init,fun _ => none⟩,fun _ => .idle,∅,0⟩

def ThreadPc.gets : ThreadPc → Option ℕ
  | .get _ _ c => some c
  | _ => none

/-- A count that has reached zero is not incremented, and no destructor runs before the
references to its control block are put. -/
structure NotResurrected (s : Borrows T) : Prop where
  get : ∀ t c, (s.pc t).gets = some c → (s.mem.st.cb c).refcount ≠ 0
  alive : ∀ a c, (a,c) ∈ s.holds → ∀ x ∈ s.mem.st.released, x.cb ≠ c

/-- A borrow loads a control block to which some safe_ptr still holds a reference, and the last
reference is not put before the borrow has taken its own; the count does not overflow, and a
put finds 1 in the low half only if the count is 1. -/
def KeptAt (s : Borrows T) : ThreadPc → Prop
  | .load src _ => ∀ c ∈ (s.mem.st.sp src).cb, c ∈ s.holds.map Prod.snd
  | .get _ _ c => (s.mem.st.cb c).refcount ≠ -1
  | .put _ c .dec =>
      ((s.mem.st.cb c).refcount.setWidth 32 = (1 : BitVec 32) → (s.mem.st.cb c).refcount = 1) ∧
      ((s.mem.st.cb c).refcount = 1 → ∀ u, (s.pc u).gets ≠ some c)
  | _ => True

def Kept (s : Borrows T) : BorrowAct T → Prop
  | .go t _ => KeptAt s (s.pc t)
  | _ => True

instance [Fintype T] (s : Borrows T) : ∀ p, Decidable (KeptAt s p)
  | .load src _ => inferInstanceAs (Decidable
      (∀ c ∈ (s.mem.st.sp src).cb, c ∈ s.holds.map Prod.snd))
  | .get _ _ c => inferInstanceAs (Decidable ((s.mem.st.cb c).refcount ≠ -1))
  | .put _ c p => match p with
    | .dec => inferInstanceAs (Decidable
        (((s.mem.st.cb c).refcount.setWidth 32 = (1 : BitVec 32) → (s.mem.st.cb c).refcount = 1) ∧
        ((s.mem.st.cb c).refcount = 1 → ∀ u, (s.pc u).gets ≠ some c)))
    | .syncLock | .readGp | .wait1 _ _ | .flip _ | .wait2 _ _ | .syncUnlock | .exitLock
    | .freeNodes | .exitUnlock | .metaUnlink | .dtor | .delLock | .del | .delUnlock | .retired
    | .deleted => inferInstanceAs (Decidable True)
  | .idle | .putNull | .destroyLoad _ | .lock _ _ | .takeId _ _ _ | .init _ _ _ _
  | .storeCb _ _ _ | .unlock _ | .xchg _ _ => inferInstanceAs (Decidable True)

instance [Fintype T] (s : Borrows T) : ∀ a, Decidable (Kept s a)
  | .go t _ => inferInstanceAs (Decidable (KeptAt s (s.pc t)))
  | .create _ _ _ _ _ _ | .destroy _ _ | .store _ _ _ _ _ | .borrow _ _ _ _ =>
    inferInstanceAs (Decidable True)

def ThreadPc.target : ThreadPc → Option Address
  | .idle | .putNull => none
  | .destroyLoad a | .put a _ _ | .takeId _ a _ | .init _ a _ _ | .storeCb _ a _ | .unlock a
  | .xchg a _ => some a
  | .lock _ dst | .load _ dst | .get _ dst _ => some dst

def Holding (s : Borrows T) (a : Address) (c : Option ℕ) : Prop := ∀ d ∈ c, (a,d) ∈ s.holds

def Backed (s : Borrows T) : ThreadPc → Prop
  | .idle | .putNull | .lock _ _ | .load _ _ => True
  | .destroyLoad a | .unlock a => Holding s a (s.mem.st.sp a).cb
  | .put a c p => c < s.mem.st.nextCb ∧ (p = .dec → (a,c) ∈ s.holds) ∧
      (p.retires = true → ∀ x ∈ s.holds, x.2 ≠ c)
  | .get _ _ c => ∃ x ∈ s.holds, x.2 = c
  | .takeId k a c => k ≠ .store ∧ Holding s a c
  | .storeCb _ a c | .xchg a c => Holding s a c
  | .init k a c _ => Holding s a c ∧ (k = .store → (s.mem.st.sp a).cb = c)

def refs (s : Borrows T) (c : ℕ) : ℕ := s.holds.countP fun x => x.2 = c

structure BorrowInv (s : Borrows T) : Prop where
  count : ∀ c < s.mem.st.nextCb, (s.mem.st.cb c).refcount.toNat = refs s c
  fresh : ∀ x ∈ s.holds, x.2 < s.mem.st.nextCb
  owned : ∀ a ∈ s.owned, a ∈ s.mem.st.live ∧ Holding s a (s.mem.st.sp a).cb
  backed : ∀ t, Backed s (s.pc t)
  target : ∀ t a, (s.pc t).target = some a → a ∈ s.mem.st.live ∧ a ∉ s.owned
  unique : ∀ t u a, (s.pc t).target = some a → (s.pc u).target = some a → t = u
  released : ∀ x ∈ s.mem.st.released, x.cb < s.mem.st.nextCb ∧ ∀ y ∈ s.holds, y.2 ≠ x.cb

section Steps

variable {s s' : Borrows T} {t u : T} {a b : Address} {c : Option ℕ} {d : ℕ} {p : ThreadPc}

/-- A step of the thread `t` on the safe_ptr `a`. -/
structure On (s s' : Borrows T) (t : T) (a : Address) (p : ThreadPc) : Prop where
  pc : s'.pc = Function.update s.pc t p
  target : p.target = some a ∨ p.target = none
  free : ∀ u ≠ t, (s.pc u).target ≠ some a
  sp : ∀ b ≠ a, (s'.mem.st.sp b).cb = (s.mem.st.sp b).cb
  owned : ∀ b ≠ a, b ∈ s'.owned ↔ b ∈ s.owned
  live : ∀ b ≠ a, b ∈ s'.mem.st.live ↔ b ∈ s.mem.st.live
  keeps : p.target = some a → a ∈ s'.mem.st.live ∧ a ∉ s'.owned
  returns : a ∈ s'.owned → a ∈ s'.mem.st.live ∧ Holding s' a (s'.mem.st.sp a).cb ∧ p.target = none

theorem On.inv (h : BorrowInv s) (ho : On s s' t a p)
    (hholds : ∀ b ≠ a, ∀ d, (b,d) ∈ s.holds → (b,d) ∈ s'.holds)
    (hcount : ∀ c < s'.mem.st.nextCb, (s'.mem.st.cb c).refcount.toNat = refs s' c)
    (hfresh : ∀ x ∈ s'.holds, x.2 < s'.mem.st.nextCb)
    (hothers : ∀ u ≠ t, Backed s' (s.pc u)) (hback : Backed s' p)
    (hrel : ∀ x ∈ s'.mem.st.released, x.cb < s'.mem.st.nextCb ∧ ∀ y ∈ s'.holds, y.2 ≠ x.cb) :
    BorrowInv s' := by
  have hne : ∀ u b, u ≠ t → (s.pc u).target = some b → b ≠ a := by
    rintro u b hu hb rfl
    exact ho.free u hu hb
  refine ⟨hcount,hfresh,fun b hb => ?_,fun u => ?_,fun u b hu => ?_,fun u v b hu hv => ?_,hrel⟩
  · by_cases hba : b = a
    · subst hba
      exact ⟨(ho.returns hb).1,(ho.returns hb).2.1⟩
    · have hb' := h.owned b ((ho.owned b hba).mp hb)
      refine ⟨(ho.live b hba).mpr hb'.1,?_⟩
      rw [ho.sp b hba]
      exact fun d hd => hholds b hba d (hb'.2 d hd)
  · rw [ho.pc]
    by_cases hut : u = t
    · simpa [hut] using hback
    · simpa [hut] using hothers u hut
  · rw [ho.pc] at hu
    by_cases hut : u = t
    · simp only [hut,Function.update_self] at hu
      rcases ho.target with hp | hp
      · obtain rfl : a = b := Option.some.inj (hp.symm.trans hu)
        exact ho.keeps hp
      · exact absurd (hp.symm.trans hu) (by simp)
    · simp only [Function.update_of_ne hut] at hu
      have hba := hne u b hut hu
      rw [ho.live b hba,ho.owned b hba]
      exact h.target u b hu
  · rw [ho.pc] at hu hv
    have hnow : p.target = some b → b = a := fun hb => by
      rcases ho.target with hp | hp
      · exact Option.some.inj (hb.symm.trans hp)
      · exact absurd (hp.symm.trans hb) (by simp)
    by_cases hut : u = t <;> by_cases hvt : v = t
    · rw [hut,hvt]
    · simp only [hut,Function.update_self] at hu
      simp only [Function.update_of_ne hvt] at hv
      exact absurd (hnow hu) (hne v b hvt hv)
    · simp only [hvt,Function.update_self] at hv
      simp only [Function.update_of_ne hut] at hu
      exact absurd (hnow hv) (hne u b hut hu)
    · exact h.unique u v b (by simpa [hut] using hu) (by simpa [hvt] using hv)

theorem Backed.congr {T : Type} {s s' : Borrows T} {p : ThreadPc} (h : Backed s p)
    (hholds : s'.holds = s.holds) (hn : s.mem.st.nextCb ≤ s'.mem.st.nextCb)
    (hsp : ∀ b, p.target = some b → (s'.mem.st.sp b).cb = (s.mem.st.sp b).cb) : Backed s' p := by
  cases p with
  | idle | putNull | lock | load => trivial
  | destroyLoad a | unlock a =>
    simp only [Backed,Holding,hholds,hsp a rfl]
    exact h
  | put a c q =>
    simp only [Backed,hholds]
    exact ⟨h.1.trans_le hn,h.2⟩
  | get | takeId | storeCb | xchg =>
    simp only [Backed,Holding,hholds]
    exact h
  | init k a c q =>
    simp only [Backed,Holding,hholds,hsp a rfl]
    exact h

theorem On.quiet (h : BorrowInv s) (ho : On s s' t a p) (hholds : s'.holds = s.holds)
    (hn : s'.mem.st.nextCb = s.mem.st.nextCb)
    (hc : ∀ c, (s'.mem.st.cb c).refcount = (s.mem.st.cb c).refcount)
    (hr : ∀ x ∈ s'.mem.st.released, x ∈ s.mem.st.released ∨
      x.cb < s.mem.st.nextCb ∧ ∀ y ∈ s.holds, y.2 ≠ x.cb) (hback : Backed s' p) :
    BorrowInv s' := by
  refine ho.inv h (fun b _ d hd => hholds ▸ hd) (fun c hlt => ?_) ?_ (fun u hu => ?_) hback
    fun x hx => ?_
  · rw [hc,refs,hholds]
    exact h.count c (hn ▸ hlt)
  · rw [hholds,hn]
    exact h.fresh
  · refine (h.backed u).congr hholds hn.ge fun b hb => ho.sp b ?_
    rintro rfl
    exact ho.free u hu hb
  · rw [hholds,hn]
    rcases hr x hx with hx | hx
    · exact h.released x hx
    · exact hx

theorem On.take (h : BorrowInv s) (ho : On s s' t a p) (hholds : s'.holds = (a,d) ::ₘ s.holds)
    (hn : s.mem.st.nextCb ≤ s'.mem.st.nextCb) (hd : d < s'.mem.st.nextCb)
    (hnew : (∃ x ∈ s.holds, x.2 = d) ∨ s.mem.st.nextCb ≤ d)
    (hcount : ∀ c < s'.mem.st.nextCb, (s'.mem.st.cb c).refcount.toNat = refs s' c)
    (hr : s'.mem.st.released = s.mem.st.released) (hback : Backed s' p) : BorrowInv s' := by
  have hne : ∀ c < s.mem.st.nextCb, (∀ x ∈ s.holds, x.2 ≠ c) → d ≠ c := by
    rintro c hc hall rfl
    rcases hnew with ⟨x,hx,hxd⟩ | hle
    · exact hall x hx hxd
    · omega
  have hmem : ∀ x ∈ s.holds, x ∈ s'.holds := fun x hx => by simp [hholds,hx]
  refine ho.inv h (fun b _ e he => hmem _ he) hcount ?_ (fun u hu => ?_) hback fun x hx => ?_
  · rw [hholds]
    intro x hx
    rcases Multiset.mem_cons.mp hx with rfl | hx
    · exact hd
    · exact (h.fresh x hx).trans_le hn
  · have hb := h.backed u
    have hsp : ∀ b, (s.pc u).target = some b → (s'.mem.st.sp b).cb = (s.mem.st.sp b).cb := by
      intro b hb
      refine ho.sp b ?_
      rintro rfl
      exact ho.free u hu hb
    cases hp : s.pc u with
    | idle | putNull | lock | load => trivial
    | destroyLoad b | unlock b =>
      rw [hp] at hb hsp
      simp only [Backed,Holding,hsp b rfl]
      exact fun e he => hmem _ (hb e he)
    | put b c q =>
      rw [hp] at hb
      refine ⟨hb.1.trans_le hn,fun hq => hmem _ (hb.2.1 hq),fun hq x hx => ?_⟩
      rw [hholds] at hx
      rcases Multiset.mem_cons.mp hx with rfl | hx
      · exact hne c hb.1 (hb.2.2 hq)
      · exact hb.2.2 hq x hx
    | get src dst c =>
      rw [hp] at hb
      obtain ⟨x,hx,hxc⟩ := hb
      exact ⟨x,hmem x hx,hxc⟩
    | takeId k b c =>
      rw [hp] at hb
      exact ⟨hb.1,fun e he => hmem _ (hb.2 e he)⟩
    | storeCb k b c | xchg b c =>
      rw [hp] at hb
      exact fun e he => hmem _ (hb e he)
    | init k b c q =>
      rw [hp] at hb hsp
      refine ⟨fun e he => hmem _ (hb.1 e he),fun hk => ?_⟩
      rw [hsp b rfl]
      exact hb.2 hk
  · rw [hr] at hx
    obtain ⟨hlt,hall⟩ := h.released x hx
    refine ⟨hlt.trans_le hn,fun y hy => ?_⟩
    rw [hholds] at hy
    rcases Multiset.mem_cons.mp hy with rfl | hy
    · exact hne x.cb hlt hall
    · exact hall y hy

theorem On.same (h : BorrowInv s) (ht : (s.pc t).target = some a)
    (hp : p.target = some a ∨ p.target = none) (hpc : s'.pc = Function.update s.pc t p)
    (hsp : ∀ b ≠ a, (s'.mem.st.sp b).cb = (s.mem.st.sp b).cb) (howned : s'.owned = s.owned)
    (hlive : s'.mem.st.live = s.mem.st.live) : On s s' t a p := by
  obtain ⟨hl,ho⟩ := h.target t a ht
  refine ⟨hpc,hp,fun u hu hut => hu (h.unique u t a hut ht),hsp,fun b _ => by rw [howned],
    fun b _ => by rw [hlive],fun _ => ?_,fun ha => ?_⟩
  · rw [hlive,howned]
    exact ⟨hl,ho⟩
  · rw [howned] at ha
    exact absurd ha ho

theorem On.return (h : BorrowInv s) (ht : (s.pc t).target = some a)
    (hpc : s'.pc = Function.update s.pc t .idle)
    (hsp : ∀ b ≠ a, (s'.mem.st.sp b).cb = (s.mem.st.sp b).cb)
    (howned : s'.owned = insert a s.owned) (hlive : s'.mem.st.live = s.mem.st.live)
    (hh : Holding s' a (s'.mem.st.sp a).cb) : On s s' t a .idle := by
  obtain ⟨hl,ho⟩ := h.target t a ht
  refine ⟨hpc,.inr rfl,fun u hu hut => hu (h.unique u t a hut ht),hsp,fun b hb => ?_,
    fun b _ => by rw [hlive],nofun,fun _ => ⟨by rw [hlive]; exact hl,hh,rfl⟩⟩
  simp [howned,hb]

theorem On.call (h : BorrowInv s) (ha : a ∉ s.mem.st.live ∨ a ∈ s.owned)
    (hp : p.target = some a) (hpc : s'.pc = Function.update s.pc t p)
    (hsp : ∀ b ≠ a, (s'.mem.st.sp b).cb = (s.mem.st.sp b).cb)
    (howned : s'.owned = s.owned.erase a) (hlive : s'.mem.st.live = insert a s.mem.st.live) :
    On s s' t a p := by
  refine ⟨hpc,.inl hp,fun u _ hut => ?_,hsp,fun b hb => by simp [howned,hb],
    fun b hb => by simp [hlive,hb],fun _ => by simp [howned,hlive],fun ha' => ?_⟩
  · obtain ⟨hl,ho⟩ := h.target u a hut
    exact ha.elim (fun hn => hn hl) fun hm => ho hm
  · simp [howned] at ha'

theorem BorrowInv.agree (h : BorrowInv s) (ho : On s s' t a p) (hag : Agree s.mem.st s'.mem.st)
    (hholds : s'.holds = s.holds) (hback : Backed s' p) : BorrowInv s' :=
  ho.quiet h hholds hag.nextCb hag.refcount (fun _ hx => .inl (hag.released ▸ hx)) hback

theorem BorrowInv.newCb {st : State} {data dtor : BitVec 64} {alloc : Bool} (h : BorrowInv s)
    (ho : On s s' t a p) (hst : s'.mem.st = (cbCreate st data dtor alloc).1)
    (hcb : st.cb = s.mem.st.cb) (hn : st.nextCb = s.mem.st.nextCb)
    (hr : st.released = s.mem.st.released)
    (hholds : s'.holds = ((cbCreate st data dtor alloc).2.elim 0 fun d => {(a,d)}) + s.holds)
    (hback : Holding s' a (cbCreate st data dtor alloc).2 → Backed s' p) : BorrowInv s' := by
  cases alloc with
  | false =>
    simp only [cbCreate,Bool.false_eq_true,if_false] at hst
    have hholds' : s'.holds = s.holds := by simpa [cbCreate] using hholds
    refine ho.quiet h hholds' (by rw [hst,hn]) (fun c => by rw [hst,hcb])
      (fun x hx => .inl (by rwa [hst,hr] at hx)) (hback ?_)
    simp [cbCreate,Holding]
  | true =>
    simp only [cbCreate,if_true] at hst
    have hholds' : s'.holds = (a,s.mem.st.nextCb) ::ₘ s.holds := by
      simpa [cbCreate,hn] using hholds
    have hn' : s'.mem.st.nextCb = s.mem.st.nextCb+1 := by rw [hst,← hn]
    have hcb' : s'.mem.st.cb =
        Function.update s.mem.st.cb s.mem.st.nextCb ⟨1,[],Rcu.gpCount,data,dtor⟩ := by
      rw [hst,← hn,← hcb]
    refine ho.take h hholds' (by omega) (by omega) (.inr le_rfl) (fun c hc => ?_)
      (by rw [hst,← hr]) (hback ?_)
    · rw [hcb',refs,hholds',Multiset.countP_cons]
      rcases Nat.lt_succ_iff_lt_or_eq.mp (hn' ▸ hc) with hlt | rfl
      · rw [Function.update_of_ne hlt.ne,if_neg hlt.ne',h.count c hlt]
        rfl
      · have hzero : s.holds.countP (fun x => x.2 = s.mem.st.nextCb) = 0 := by
          rw [Multiset.countP_eq_zero]
          exact fun x hx => (h.fresh x hx).ne
        simp [hzero]
    · simp [cbCreate,Holding,hholds',hn]

theorem BorrowInv.create {data dtor : BitVec 64} {prior : Sp} {alloc : Bool} (h : BorrowInv s)
    (hst : borrowStep s (.create t a data dtor prior alloc) = some s') : BorrowInv s' := by
  obtain ⟨⟨_,ha⟩,rfl⟩ := guarded_eq_some.mp hst
  have ha' : a ∉ s.owned := fun hm => ha (h.owned a hm).1
  refine h.newCb (On.call h (.inl ha) rfl rfl ?_ ?_ ?_) rfl rfl rfl rfl rfl fun hh => ⟨nofun,hh⟩
  · intro b hb
    cases alloc <;> simp [cbCreate,Borrows.goto,Borrows.hold,Borrows.setSt,State.begin,hb]
  · exact (Finset.erase_eq_of_notMem ha').symm
  · cases alloc <;> rfl

theorem BorrowInv.store {data dtor : BitVec 64} {alloc : Bool} (h : BorrowInv s)
    (hst : borrowStep s (.store t a data dtor alloc) = some s') : BorrowInv s' := by
  obtain ⟨⟨_,ha⟩,rfl⟩ := guarded_eq_some.mp hst
  have hl : insert a s.mem.st.live = s.mem.st.live := Finset.insert_eq_of_mem (h.owned a ha).1
  refine h.newCb (On.call h (.inr ha) rfl rfl ?_ rfl ?_) rfl rfl rfl rfl rfl id
  · intro b _
    cases alloc <;> rfl
  · rw [hl]
    cases alloc <;> rfl

theorem BorrowInv.destroy (h : BorrowInv s) (hst : borrowStep s (.destroy t a) = some s') :
    BorrowInv s' := by
  obtain ⟨⟨_,ha⟩,rfl⟩ := guarded_eq_some.mp hst
  refine h.agree (On.call h (.inr ha) rfl rfl (fun _ _ => rfl) rfl ?_) (.refl _) rfl
    (h.owned a ha).2
  exact (Finset.insert_eq_of_mem (h.owned a ha).1).symm

theorem BorrowInv.borrow {prior : Sp} (h : BorrowInv s)
    (hst : borrowStep s (.borrow t b a prior) = some s') : BorrowInv s' := by
  obtain ⟨⟨_,_,ha⟩,rfl⟩ := guarded_eq_some.mp hst
  have ha' : a ∉ s.owned := fun hm => ha (h.owned a hm).1
  refine (On.call (p:=.lock b a) h (.inl ha) rfl rfl ?_ ?_ rfl).quiet h rfl rfl (fun _ => rfl)
    (fun _ => .inl) trivial
  · intro b hb
    simp [Borrows.goto,Borrows.setSt,State.begin,hb]
  · exact (Finset.erase_eq_of_notMem ha').symm

theorem BorrowInv.inited {k : Caller} {q : AddPc} {st : State} (h : BorrowInv s)
    (hp : s.pc t = .init k a c q) (hag : Agree s.mem.st st) :
    BorrowInv ((s.setSt st).inited t k a c) := by
  have hb := h.backed t
  rw [hp] at hb
  have ht : (s.pc t).target = some a := by rw [hp]; rfl
  by_cases hk : k = .store
  · rw [Borrows.inited,if_pos hk]
    have hh : Holding s a (st.sp a).cb := by
      rw [hag.owner,hb.2 hk]
      exact hb.1
    exact h.agree (On.return h ht rfl (fun b _ => hag.owner b) rfl hag.live hh) hag rfl trivial
  · rw [Borrows.inited,if_neg hk]
    exact h.agree (On.same h ht (.inl rfl) rfl (fun b _ => hag.owner b) rfl hag.live) hag rfl hb.1

theorem BorrowInv.init {alloc : Bool} {k : Caller} {q : AddPc} (h : BorrowInv s)
    (hp : s.pc t = .init k a c q) (hst : initStep s t alloc k a c q = some s') : BorrowInv s' := by
  have hb := h.backed t
  rw [hp] at hb
  have ht : (s.pc t).target = some a := by rw [hp]; rfl
  cases q with
  | malloc =>
    cases hst
    cases alloc with
    | false => exact h.inited hp (.refl _)
    | true =>
      exact h.agree (On.same h ht (.inl rfl) rfl (fun _ _ => rfl) rfl rfl) (.refl _) rfl hb
  | lock =>
    obtain ⟨d,_,hst⟩ := Option.bind_eq_some_iff.mp hst
    obtain ⟨_,rfl⟩ := guarded_eq_some.mp hst
    exact h.agree (On.same h ht (.inl rfl) rfl (fun _ _ => rfl) rfl rfl) (.refl _) rfl hb
  | add =>
    obtain ⟨d,_,rfl⟩ := Option.map_eq_some_iff.mp hst
    have hag := rcuAdd_agree s.mem.st d (s.mem.st.sp a).id
    refine h.agree (On.same h ht (.inl rfl) rfl (fun b _ => hag.owner b) rfl hag.live) hag rfl
      ⟨hb.1,fun hk => ?_⟩
    exact (hag.owner a).trans (hb.2 hk)
  | unlock n =>
    obtain ⟨d,_,rfl⟩ := Option.map_eq_some_iff.mp hst
    exact h.agree (On.same h ht (.inl rfl) rfl (fun _ _ => rfl) rfl rfl) (.refl _) rfl hb
  | assign n =>
    cases hst
    exact h.inited hp (Agree.updateSp s.mem.st a _ rfl)

theorem BorrowInv.putDec {m : Mem T} {e : ℕ} {q : PutPc} (h : BorrowInv s)
    (hok : KeptAt s (s.pc t)) (hp : s.pc t = .put a e .dec) (hspec : PutStep s.mem m e .dec q) :
    BorrowInv { s.goto t (.put a e q) with
      mem := m
      holds := s.holds.erase (a,e) } := by
  have hb := h.backed t
  rw [hp] at hb hok
  have ht : (s.pc t).target = some a := by rw [hp]; rfl
  have hmem : (a,e) ∈ s.holds := hb.2.1 rfl
  have hcons := Multiset.cons_erase hmem
  have hrefs : ∀ d, refs s d = (s.holds.erase (a,e)).countP (fun x => x.2 = d) +
      if e = d then 1 else 0 := by
    intro d
    rw [refs,← hcons,Multiset.countP_cons,Multiset.erase_cons_head]
  have hsub : ∀ x ∈ s.holds.erase (a,e), x ∈ s.holds := fun x hx => Multiset.mem_of_mem_erase hx
  have hone : (s.mem.st.cb e).refcount = 1 ↔ ∀ x ∈ s.holds.erase (a,e), x.2 ≠ e := by
    have hc := h.count e hb.1
    rw [hrefs e,if_pos rfl] at hc
    rw [← Multiset.countP_eq_zero,← BitVec.toNat_inj,hc]
    simp
  refine On.inv h (a:=a) (t:=t) (p:=.put a e q)
    (On.same h ht (.inl rfl) rfl (fun b _ => by rw [hspec.sp]) rfl hspec.live)
    (fun b hb d hd => ?_) (fun d hd => ?_) (fun x hx => ?_) (fun u hu => ?_) ?_ fun x hx => ?_
  · exact (Multiset.mem_erase_of_ne (by simp [hb])).mpr hd
  · have hd' : d < s.mem.st.nextCb := hspec.nextCb ▸ hd
    have hc := h.count d hd'
    rw [hrefs d] at hc
    rw [hspec.refcount d]
    by_cases hde : d = e
    · subst hde
      rw [if_pos rfl] at hc
      rw [if_pos ⟨rfl,rfl⟩,toNat_pred (by omega),hc]
      rfl
    · rw [if_neg (Ne.symm hde)] at hc
      rw [if_neg fun hh => hde hh.2,hc]
      rfl
  · show _ < m.st.nextCb
    rw [hspec.nextCb]
    exact h.fresh x (hsub x hx)
  · have hbu := h.backed u
    have hna : ∀ b, (s.pc u).target = some b → b ≠ a := by
      rintro b hbt rfl
      exact hu (h.unique u t b hbt ht)
    have hkeep : ∀ b, (s.pc u).target = some b → ∀ c, Holding s b c →
        ∀ d ∈ c, (b,d) ∈ s.holds.erase (a,e) := fun b hbt c hh d hd =>
      (Multiset.mem_erase_of_ne (by simp [hna b hbt])).mpr (hh d hd)
    cases hpu : s.pc u with
    | idle | putNull | lock | load => trivial
    | destroyLoad b | unlock b =>
      rw [hpu] at hbu hkeep
      simp only [Backed,Holding,hspec.sp]
      exact hkeep b rfl _ hbu
    | takeId k b c =>
      rw [hpu] at hbu hkeep
      exact ⟨hbu.1,hkeep b rfl _ hbu.2⟩
    | storeCb k b c | xchg b c =>
      rw [hpu] at hbu hkeep
      exact hkeep b rfl _ hbu
    | init k b c r =>
      rw [hpu] at hbu hkeep
      simp only [Backed,Holding,hspec.sp]
      exact ⟨hkeep b rfl _ hbu.1,hbu.2⟩
    | put b c r =>
      rw [hpu] at hbu hkeep
      refine ⟨hspec.nextCb.symm ▸ hbu.1,fun hr => ?_,fun hr x hx => hbu.2.2 hr x (hsub x hx)⟩
      exact hkeep b rfl (some c) (fun d hd => by cases hd; exact hbu.2.1 hr) c rfl
    | get src dst c =>
      rw [hpu] at hbu
      by_cases hce : c = e
      · subst hce
        have hnot : (s.mem.st.cb c).refcount ≠ 1 := fun h1 => hok.2 h1 u (by rw [hpu]; rfl)
        rw [ne_eq,hone] at hnot
        push Not at hnot
        exact hnot
      · obtain ⟨x,hx,hxc⟩ := hbu
        refine ⟨x,(Multiset.mem_erase_of_ne ?_).mpr hx,hxc⟩
        rintro rfl
        exact hce hxc.symm
  · refine ⟨hspec.nextCb.symm ▸ hb.1,fun hq => absurd hq hspec.goes.2,fun hq => ?_⟩
    exact hone.mp (hok.1 (by simpa using hspec.retires.mp hq))
  · rcases hspec.released x hx with hx | ⟨hr,_⟩
    · obtain ⟨hlt,hall⟩ := h.released x hx
      exact ⟨hspec.nextCb.symm ▸ hlt,fun y hy => hall y (hsub y hy)⟩
    · cases hr

theorem BorrowInv.put {alloc : Bool} {e : ℕ} {q : PutPc} (h : BorrowInv s)
    (hok : KeptAt s (s.pc t)) (hp : s.pc t = .put a e q)
    (hst : goStep s t alloc (.put a e q) = some s') : BorrowInv s' := by
  have hb := h.backed t
  rw [hp] at hb
  have ht : (s.pc t).target = some a := by rw [hp]; rfl
  simp only [goStep] at hst
  split at hst
  · cases hst
    obtain ⟨_,ha⟩ := h.target t a ht
    refine On.quiet (a:=a) (p:=.idle) h ⟨rfl,.inr rfl,fun u hu hut => hu (h.unique u t a hut ht),
      fun _ _ => rfl,fun _ _ => Iff.rfl,fun b hb => ?_,nofun,fun hm => absurd hm ha⟩ rfl rfl
      (fun _ => rfl) (fun _ => .inl) trivial
    simp [Borrows.setSt,Borrows.goto,hb]
  · obtain ⟨⟨m,r⟩,hr,rfl⟩ := Option.map_eq_some_iff.mp hst
    have hspec := putStep_spec hr
    by_cases hq : q = .dec
    · subst hq
      exact h.putDec hok hp hspec
    · simp only [if_neg hq]
      refine On.quiet (a:=a) (p:=.put a e r) h
        (On.same h ht (.inl rfl) rfl (fun b _ => by rw [hspec.sp]) rfl hspec.live) rfl
        hspec.nextCb (fun d => ?_) (fun x hx => ?_) ⟨hspec.nextCb.symm ▸ hb.1,?_,fun hr' => ?_⟩
      · exact (hspec.refcount d).trans (if_neg fun hh => hq hh.1)
      · rcases hspec.released x hx with hx | ⟨hret,hxe⟩
        · exact .inl hx
        · exact .inr ⟨hxe ▸ hb.1,hxe ▸ hb.2.2 hret⟩
      · exact fun hd => absurd hd hspec.goes.2
      · exact hb.2.2 (by simpa [hq] using hspec.retires.mp hr')

theorem BorrowInv.get {src : Address} {e : ℕ} {alloc : Bool} (h : BorrowInv s)
    (hok : KeptAt s (s.pc t)) (hp : s.pc t = .get src a e)
    (hst : goStep s t alloc (.get src a e) = some s') : BorrowInv s' := by
  have hb := h.backed t
  rw [hp] at hb hok
  have ht : (s.pc t).target = some a := by rw [hp]; rfl
  cases hst
  obtain ⟨x,hx,hxe⟩ := hb
  have he : e < s.mem.st.nextCb := hxe ▸ h.fresh x hx
  refine On.take (a:=a) (d:=e) (p:=.takeId .borrow a (some e)) h
    (On.same h ht (.inl rfl) rfl (fun _ _ => rfl) rfl rfl) rfl le_rfl he (.inl ⟨x,hx,hxe⟩)
    (fun d hd => ?_) rfl ?_
  · show (Function.update s.mem.st.cb e _ d).refcount.toNat = Multiset.countP _ ((a,e) ::ₘ s.holds)
    rw [Multiset.countP_cons]
    have hc := h.count d hd
    by_cases hde : d = e
    · subst hde
      have hlt : (s.mem.st.cb d).refcount.toNat+1 < 2^64 := by
        have hne : (s.mem.st.cb d).refcount.toNat ≠ 2^64-1 := fun heq =>
          hok (BitVec.eq_of_toNat_eq heq)
        have hlt := (s.mem.st.cb d).refcount.isLt
        omega
      rw [Function.update_self,if_pos rfl]
      show ((s.mem.st.cb d).refcount+1).toNat = refs s d+1
      rw [BitVec.toNat_add,← hc]
      exact Nat.mod_eq_of_lt hlt
    · rw [Function.update_of_ne hde,if_neg (Ne.symm hde)]
      exact hc
  · refine ⟨nofun,fun d hd => ?_⟩
    cases hd
    exact Multiset.mem_cons_self _ _

theorem BorrowInv.go {alloc : Bool} (h : BorrowInv s) (hok : KeptAt s (s.pc t))
    (hst : goStep s t alloc (s.pc t) = some s') : BorrowInv s' := by
  have hb := h.backed t
  cases hp : s.pc t with
  | idle | putNull =>
    rw [hp] at hst
    cases hst
  | put a e q => exact h.put hok hp (hp ▸ hst)
  | get src a e => exact h.get hok hp (hp ▸ hst)
  | init k a c q => exact h.init hp (by rw [hp] at hst; exact hst)
  | destroyLoad a =>
    have ht : (s.pc t).target = some a := by rw [hp]; rfl
    rw [hp] at hst hb
    cases hst
    cases hc : (s.mem.st.sp a).cb with
    | none =>
      exact h.agree (p:=.putNull) (On.same (a:=a) h ht (.inr rfl) (by rw [Borrows.goto]; rfl)
        (fun _ _ => rfl) rfl rfl) (.refl _) rfl trivial
    | some e =>
      have hmem : (a,e) ∈ s.holds := hb e hc
      exact h.agree (p:=.put a e .dec) (On.same (a:=a) h ht (.inl rfl) rfl (fun _ _ => rfl) rfl rfl)
        (.refl _) rfl ⟨h.fresh _ hmem,fun _ => hmem,nofun⟩
  | lock src a =>
    have ht : (s.pc t).target = some a := by rw [hp]; rfl
    rw [hp] at hst
    obtain ⟨st,hl,rfl⟩ := Option.map_eq_some_iff.mp hst
    have hag := readLock_agree hl
    exact h.agree (p:=.load src a) (On.same (a:=a) h ht (.inl rfl) rfl (fun b _ => hag.owner b) rfl
      hag.live) hag rfl trivial
  | load src a =>
    have ht : (s.pc t).target = some a := by rw [hp]; rfl
    rw [hp] at hst hok
    obtain ⟨e,he,rfl⟩ := Option.map_eq_some_iff.mp hst
    exact h.agree (p:=.get src a e) (On.same (a:=a) h ht (.inl rfl) rfl (fun _ _ => rfl) rfl rfl)
      (.refl _) rfl (Multiset.mem_map.mp (hok e he))
  | takeId k a c =>
    have ht : (s.pc t).target = some a := by rw [hp]; rfl
    rw [hp] at hst hb
    cases hst
    have hag := takeId_agree s.mem.st a
    exact h.agree (p:=.init k a c .malloc) (On.same (a:=a) h ht (.inl rfl) rfl
      (fun b _ => hag.owner b) rfl hag.live) hag rfl ⟨hb.2,fun hk => absurd hk hb.1⟩
  | storeCb k a c =>
    have ht : (s.pc t).target = some a := by rw [hp]; rfl
    rw [hp] at hst hb
    cases hst
    have hsp : ∀ b ≠ a, ((cbStore s.mem.st a c).sp b).cb = (s.mem.st.sp b).cb := fun b hba => by
      simp [cbStore,hba]
    have hb' : Holding s a c := hb
    have hh : Holding s a ((cbStore s.mem.st a c).sp a).cb := by simpa [cbStore] using hb'
    by_cases hk : k = .borrow
    · simp only [if_pos hk]
      exact On.quiet (a:=a) (p:=.unlock a) h (On.same h ht (.inl rfl) rfl hsp rfl rfl) rfl rfl
        (fun _ => rfl) (fun _ => .inl) hh
    · simp only [if_neg hk]
      exact On.quiet (a:=a) (p:=.idle) h (On.return h ht rfl hsp rfl rfl hh) rfl rfl (fun _ => rfl)
        (fun _ => .inl) trivial
  | unlock a =>
    have ht : (s.pc t).target = some a := by rw [hp]; rfl
    rw [hp] at hst hb
    obtain ⟨st,hl,rfl⟩ := Option.map_eq_some_iff.mp hst
    have hag := readUnlock_agree hl
    have hh : Holding s a (st.sp a).cb := by
      rw [hag.owner]
      exact hb
    exact h.agree (On.return (a:=a) h ht rfl (fun b _ => hag.owner b) rfl hag.live hh) hag rfl
      trivial
  | xchg a c =>
    have ht : (s.pc t).target = some a := by rw [hp]; rfl
    rw [hp] at hst hb
    cases hst
    have hsp : ∀ b ≠ a, ((cbStore s.mem.st a c).sp b).cb = (s.mem.st.sp b).cb := fun b hba => by
      simp [cbStore,hba]
    by_cases hc : (s.mem.st.sp a).cb = none
    · simp only [if_pos hc]
      exact On.quiet (a:=a) (p:=.putNull) h (On.same h ht (.inr rfl) rfl hsp rfl rfl) rfl rfl
        (fun _ => rfl) (fun _ => .inl) trivial
    · simp only [if_neg hc]
      exact On.quiet (a:=a) (p:=.init .store a c .malloc) h
        (On.same h ht (.inl rfl) rfl hsp rfl rfl) rfl rfl (fun _ => rfl) (fun _ => .inl)
        ⟨hb,fun _ => by simp [Borrows.goto,Borrows.setSt,cbStore]⟩

theorem BorrowInv.step {act : BorrowAct T} (h : BorrowInv s) (hok : Kept s act)
    (hst : borrowStep s act = some s') : BorrowInv s' := by
  cases act with
  | create t a data dtor prior alloc => exact h.create hst
  | destroy t a => exact h.destroy hst
  | store t a data dtor alloc => exact h.store hst
  | borrow t src dst prior => exact h.borrow hst
  | go t alloc => exact h.go hok hst

theorem BorrowInv.begin {T : Type} : BorrowInv (noSafePtr T) := by
  refine ⟨?_,?_,?_,fun t => trivial,?_,?_,?_⟩ <;>
    simp [noSafePtr,SafePtr.init,ThreadPc.target]

theorem BorrowInv.notResurrected {T : Type} {s : Borrows T} (h : BorrowInv s) :
    NotResurrected s := by
  refine ⟨fun t c hc hzero => ?_,fun a c hac x hx hxc => (h.released x hx).2 _ hac hxc.symm⟩
  have hb := h.backed t
  cases hp : s.pc t with
  | get src dst e =>
    rw [hp] at hb hc
    cases hc
    obtain ⟨x,hx,rfl⟩ := hb
    have hcount := h.count x.2 (h.fresh x hx)
    rw [hzero] at hcount
    have hpos : 0 < refs s x.2 := Multiset.countP_pos_of_mem hx rfl
    rw [← hcount] at hpos
    simp at hpos
  | idle | putNull | destroyLoad | put | lock | load | takeId | init | storeCb | unlock | xchg =>
    rw [hp] at hc
    cases hc

end Steps

/-- In every interleaving in which the last reference to a control block outlives the borrows
that have loaded it, no count is incremented from zero, and what is borrowed stays alive. -/
theorem notResurrected_of_kept {s : Borrows T}
    (h : Reach borrowStep Kept (noSafePtr T) s) : NotResurrected s := by
  have hi : BorrowInv s := by
    apply h.invariant (I:=BorrowInv) .begin
    intro t a u hi hok hst
    exact hi.step hok hst
  exact hi.notResurrected

def lent : Address := ⟨257,by decide⟩

def borrowed : Address := ⟨258,by decide⟩

/-- One thread creates a safe_ptr, and the other one is about to borrow from it. Its section is
open on the reader node of the lender. -/
def loads : List (BorrowAct Bool) :=
  .create false lent 7 0 ⟨none,0,none⟩ true::List.replicate 7 (.go false true) ++
    .borrow true lent borrowed ⟨none,0,some 0⟩::List.replicate 2 (.go true true)

/-- The lender is released while the borrow goes on, after it has taken its reference. -/
def lends : List (BorrowAct Bool) :=
  loads ++ .destroy false lent::.go false true::.go true true::List.replicate 5 (.go false true) ++
    List.replicate 8 (.go true true)

theorem notResurrected_of_lends : ∃ s : Borrows Bool, Reach borrowStep Kept (noSafePtr _) s ∧
    s.owned = {borrowed} ∧ s.holds = {(borrowed,0)} ∧ NotResurrected s := by
  have hs : (exec (restrict borrowStep Kept) (noSafePtr Bool) lends).map
      (fun s => (s.owned,s.holds)) = some ({borrowed},{(borrowed,0)}) := by decide
  obtain ⟨s,hs,hp⟩ := Option.map_eq_some_iff.mp hs
  obtain ⟨ho,hh⟩ := Prod.mk.inj hp
  have hreach := reach_of_exec_restrict hs
  exact ⟨s,hreach,ho,hh,notResurrected_of_kept hreach⟩

def other : Address := ⟨259,by decide⟩

/-- As `loads`, with the section open on the node of a third safe_ptr. -/
def loadsStale : List (BorrowAct Bool) :=
  .create false lent 7 0 ⟨none,0,none⟩ true::List.replicate 7 (.go false true) ++
    .create false other 8 0 ⟨none,0,none⟩ true::List.replicate 7 (.go false true) ++
    .borrow true lent borrowed ⟨none,0,some 1⟩::List.replicate 2 (.go true true)

/-- The release of the only owner lets the count drop to zero between the two steps, and no
section keeps it from going on. -/
theorem notResurrected_fails : ¬ ∀ s : Borrows Bool,
    Reach borrowStep Anything (noSafePtr Bool) s → NotResurrected s := by
  intro h
  have hs : (exec borrowStep (noSafePtr Bool)
      (loadsStale ++ .destroy false lent::List.replicate 3 (.go false true))).map
      (fun s => ((s.pc true).gets,(s.mem.st.cb 0).refcount)) = some (some 0,0) := by decide
  obtain ⟨s,hs,hp⟩ := Option.map_eq_some_iff.mp hs
  obtain ⟨hg,hc⟩ := Prod.mk.inj hp
  exact (h s (reach_of_exec hs)).get true 0 hg hc

end SafePtr
end Mthpc
