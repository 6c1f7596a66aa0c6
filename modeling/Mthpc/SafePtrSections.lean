import Mthpc.SafePtrBorrow

/-!
# Read-side sections on one shared safe_ptr

`mthpc_safe_ptr_load`, `mthpc_safe_ptr_cmpxhg` and `mthpc_safe_ptr_store` of
`src/safe_ptr/safe_ptr.c` on one safe_ptr, step by step, with the reader word of
`include/mthpc/rcu.h`. The section is opened on the node that `sp->rcu_node` names when the
operation begins, and closed on the node that it names at the end.
-/
namespace Mthpc
namespace SafePtr

open StepSystem
open Rcu (Word gpCount gpCtrNestMask depthOf depthOf_add depthOf_sub and_mask_eq_zero)

/-- The operations with a section. -/
inductive Section
  | load
  | cmpxhg (expected desired : BitVec 64)
  deriving DecidableEq

/-- Where a thread stands: the node on which its section is or will be open, the control block
it has loaded, and the node on which it closes. -/
inductive SectionPc
  | idle
  | lockRead (k : Section) | lockTest (k : Section) (n : ℕ) | lockData (k : Section) (n : ℕ)
  | lockStore (k : Section) (n : ℕ) (w : Word) | lockAdd (k : Section) (n : ℕ)
  | loadCb (k : Section) (n : ℕ) | access (k : Section) (n c : ℕ) | unlockRead (n c : ℕ)
  | unlockTest (n m : ℕ) | unlockAdd (n m : ℕ)
  | xchg (c : Option ℕ) | putNull | init (c : Option ℕ) (p : AddPc)
  deriving DecidableEq

/-- `result` is what the last operation of each thread has returned. -/
structure Sections (T : Type) where
  mem : Mem T
  pc : T → SectionPc
  result : T → BitVec 64

inductive SectionAct (T : Type)
  | call (t : T) (k : Section)
  | store (t : T) (data dtor : BitVec 64) (alloc : Bool)
  | go (t : T) (alloc : Bool)

/-- Inside `mthpc_safe_ptr_store`. -/
def SectionPc.storing : SectionPc → Bool
  | .xchg _ | .putNull | .init _ _ => true
  | _ => false

def SectionPc.replacing : SectionPc → Bool
  | .putNull | .init _ _ => true
  | _ => false

/-- The operation has read `sp->rcu_node` and not yet the control block. -/
def SectionPc.early : SectionPc → Bool
  | .lockTest _ _ | .lockData _ _ | .lockStore _ _ _ | .lockAdd _ _ | .loadCb _ _ => true
  | _ => false

/-- The operation has loaded the control block and not yet the node on which it closes. -/
def SectionPc.late : SectionPc → Bool
  | .access _ _ _ | .unlockRead _ _ => true
  | _ => false

def SectionPc.openOn : SectionPc → Option ℕ
  | .loadCb _ n | .access _ n _ | .unlockRead n _ | .unlockTest n _ | .unlockAdd n _ => some n
  | _ => none

variable {T : Type} [DecidableEq T]

def Sections.setSt (s : Sections T) (st : State) : Sections T :=
  { s with mem := { s.mem with st := st } }

def Sections.goto (s : Sections T) (t : T) (p : SectionPc) : Sections T :=
  { s with pc := Function.update s.pc t p }

def Sections.setWord (s : Sections T) (n : ℕ) (w : Word) : Sections T :=
  s.setSt { s.mem.st with
    node := Function.update s.mem.st.node n { s.mem.st.node n with gpSeq := w } }

/-- One step of `mthpc_rcu_add(&cb->rcu_data, sp->id, &sp->rcu_node)` in a store. -/
def storeInit (a : Address) (s : Sections T) (t : T) (alloc : Bool) (c : Option ℕ) :
    AddPc → Option (Sections T)
  | .malloc => some (s.goto t (if alloc then .init c .lock else .idle))
  | .lock => c.bind fun d => guarded (s.mem.lock d = none)
      { s.goto t (.init c .add) with mem := s.mem.setLock d (some t) }
  | .add => c.map fun d =>
      let r := rcuAdd s.mem.st d (s.mem.st.sp a).id
      (s.setSt r.1).goto t (.init c (.unlock r.2))
  | .unlock m => c.map fun d =>
      { s.goto t (.init c (.assign m)) with mem := s.mem.setLock d none }
  | .assign m => some ((s.setSt { s.mem.st with
      sp := Function.update s.mem.st.sp a { s.mem.st.sp a with rcuNode := some m } }).goto t .idle)

/-- The exchange of `mthpc_safe_ptr_cmpxhg`, or the load. -/
def accessCb (s : Sections T) (t : T) (c : ℕ) : Section → Sections T
  | .load => { s with result := Function.update s.result t (s.mem.st.cb c).rawPtr }
  | .cmpxhg expected desired =>
    if (s.mem.st.cb c).rawPtr = expected then
      { s with
        mem := s.mem.setCb c fun b => { b with rawPtr := desired }
        result := Function.update s.result t 1 }
    else { s with result := Function.update s.result t 0 }

/-- The next step of a thread on the safe_ptr `a`. -/
def sectionGo (a : Address) (s : Sections T) (t : T) (alloc : Bool) :
    SectionPc → Option (Sections T)
  | .idle | .putNull => none
  | .lockRead k => (s.mem.st.sp a).rcuNode.map fun n => s.goto t (.lockTest k n)
  | .lockTest k n => some (s.goto t
      (if (s.mem.st.node n).gpSeq &&& gpCtrNestMask = 0 then .lockData k n else .lockAdd k n))
  | .lockData k n => some (s.goto t (.lockStore k n (s.mem.st.cb (s.mem.st.node n).data).gpSeq))
  | .lockStore k n w => some ((s.setWord n w).goto t (.loadCb k n))
  | .lockAdd k n =>
      some ((s.setWord n ((s.mem.st.node n).gpSeq+gpCount)).goto t (.loadCb k n))
  | .loadCb k n => (s.mem.st.sp a).cb.map fun c => s.goto t (.access k n c)
  | .access k n c => some ((accessCb s t c k).goto t (.unlockRead n c))
  | .unlockRead n _ => (s.mem.st.sp a).rcuNode.map fun m => s.goto t (.unlockTest n m)
  -- both arms of the branch on the word subtract
  | .unlockTest n m => some (s.goto t (.unlockAdd n m))
  | .unlockAdd _ m => some ((s.setWord m ((s.mem.st.node m).gpSeq+-gpCount)).goto t .idle)
  | .xchg c => some ((s.setSt (cbStore s.mem.st a c)).goto t
      (if (s.mem.st.sp a).cb = none then .putNull else .init c .malloc))
  | .init c p => storeInit a s t alloc c p

variable [Fintype T]

/-- One step; there is at most one store at a time. -/
def sectionStep (a : Address) (s : Sections T) : SectionAct T → Option (Sections T)
  | .call t k => guarded (s.pc t = .idle) (s.goto t (.lockRead k))
  | .store t data dtor alloc =>
    let r := cbCreate s.mem.st data dtor alloc
    guarded (s.pc t = .idle ∧ ∀ u, (s.pc u).storing = false) ((s.setSt r.1).goto t (.xchg r.2))
  | .go t alloc => sectionGo a s t alloc (s.pc t)

def beginSections (st : State) (T : Type) : Sections T :=
  ⟨⟨st,fun _ => none⟩,fun _ => .idle,fun _ => 0⟩

/-- The safe_ptr refers to a control block with which its node is registered, no section is open,
and every node belongs to a control block. -/
structure Ready (st : State) (a : Address) : Prop where
  current : ∃ n c, (st.sp a).rcuNode = some n ∧ (st.sp a).cb = some c ∧ n ∈ (st.cb c).head ∧
    n < st.nextNode ∧ c < st.nextCb
  closed : ∀ n < st.nextNode, depthOf (st.node n).gpSeq = 0
  data : ∀ n < st.nextNode, (st.node n).data < st.nextCb
  gpSeq : ∀ c < st.nextCb, depthOf (st.cb c).gpSeq = 1

/-- Sections close where they opened, on a node that is registered with the control block the
operation reads, and the words count the open sections. -/
structure Closed (s : Sections T) : Prop where
  closes : ∀ t n m, s.pc t = .unlockTest n m ∨ s.pc t = .unlockAdd n m → n = m
  registered : ∀ t k n c, s.pc t = .access k n c → n ∈ (s.mem.st.cb c).head
  nesting : ∀ n < s.mem.st.nextNode, depthOf (s.mem.st.node n).gpSeq =
    (Finset.univ.filter fun t => (s.pc t).openOn = some n).card

/-- No operation begins between the two halves of a store, no store exchanges the control block
before an operation that has read the node has loaded it, nor the node before an operation that
has loaded the block has read the node again; a store finds memory for its node; and an outermost
section is stored while no other is open, a nested one while the count has room. -/
def ApartAt (s : Sections T) : SectionPc → Bool → Prop
  | .lockRead _, _ => ∀ u, (s.pc u).replacing = false
  | .xchg _, _ => ∀ u, (s.pc u).early = false
  | .init _ (.assign _), _ => ∀ u, (s.pc u).late = false
  | .init _ .malloc, alloc => alloc = true
  | .lockStore _ n _, _ => depthOf (s.mem.st.node n).gpSeq = 0
  | .lockAdd _ n, _ => depthOf (s.mem.st.node n).gpSeq+1 < 2^32
  | _, _ => True

def Apart (s : Sections T) : SectionAct T → Prop
  | .go t alloc => ApartAt s (s.pc t) alloc
  | _ => True

instance (s : Sections T) : ∀ p alloc, Decidable (ApartAt s p alloc)
  | .lockRead _, _ => inferInstanceAs (Decidable (∀ u, (s.pc u).replacing = false))
  | .xchg _, _ => inferInstanceAs (Decidable (∀ u, (s.pc u).early = false))
  | .init _ q, alloc => match q with
    | .assign _ => inferInstanceAs (Decidable (∀ u, (s.pc u).late = false))
    | .malloc => inferInstanceAs (Decidable (alloc = true))
    | .lock | .add | .unlock _ => inferInstanceAs (Decidable True)
  | .lockStore _ n _, _ => inferInstanceAs (Decidable (depthOf (s.mem.st.node n).gpSeq = 0))
  | .lockAdd _ n, _ => inferInstanceAs (Decidable (depthOf (s.mem.st.node n).gpSeq+1 < 2^32))
  | .idle, _ | .lockTest _ _, _ | .lockData _ _, _ | .loadCb _ _, _ | .access _ _ _, _
  | .unlockRead _ _, _ | .unlockTest _ _, _ | .unlockAdd _ _, _ | .putNull, _ =>
    inferInstanceAs (Decidable True)

instance (s : Sections T) : ∀ act, Decidable (Apart s act)
  | .go t alloc => inferInstanceAs (Decidable (ApartAt s (s.pc t) alloc))
  | .call _ _ | .store _ _ _ _ => inferInstanceAs (Decidable True)

def SectionOk (a : Address) (st : State) : SectionPc → Prop
  | .idle | .lockRead _ | .putNull => True
  | .lockTest _ n | .lockData _ n | .lockAdd _ n | .loadCb _ n | .unlockRead n _ =>
      (st.sp a).rcuNode = some n
  | .lockStore _ n w => (st.sp a).rcuNode = some n ∧ depthOf w = 1
  | .access _ n c => (st.sp a).rcuNode = some n ∧ c < st.nextCb ∧ n ∈ (st.cb c).head
  | .unlockTest n m | .unlockAdd n m => n = m ∧ n < st.nextNode
  | .xchg c => ∀ d ∈ c, d < st.nextCb ∧ (st.cb d).head = []
  | .init c p => (st.sp a).cb = c ∧
      match p with
      | .malloc | .lock | .add => ∀ d ∈ c, d < st.nextCb ∧ (st.cb d).head = []
      | .unlock m | .assign m => m < st.nextNode ∧ ∀ d ∈ c, d < st.nextCb ∧ m ∈ (st.cb d).head

def opened (pc : T → SectionPc) (n : ℕ) : Finset T :=
  Finset.univ.filter fun t => (pc t).openOn = some n

structure SectionInv (a : Address) (s : Sections T) : Prop where
  node : ∀ n, (s.mem.st.sp a).rcuNode = some n → n < s.mem.st.nextNode
  cb : ∀ c, (s.mem.st.sp a).cb = some c → c < s.mem.st.nextCb
  data : ∀ n < s.mem.st.nextNode, (s.mem.st.node n).data < s.mem.st.nextCb
  gpSeq : ∀ c < s.mem.st.nextCb, depthOf (s.mem.st.cb c).gpSeq = 1
  nesting : ∀ n < s.mem.st.nextNode,
    depthOf (s.mem.st.node n).gpSeq = (opened s.pc n).card
  thread : ∀ t, SectionOk a s.mem.st (s.pc t)
  alone : ∀ t u, (s.pc t).storing = true → (s.pc u).storing = true → t = u
  current : (∀ t, (s.pc t).replacing = false) → ∀ n c, (s.mem.st.sp a).rcuNode = some n →
    (s.mem.st.sp a).cb = some c → n ∈ (s.mem.st.cb c).head
  early : ∀ t u, (s.pc t).early = true → (s.pc u).replacing = false

section Steps

variable {a : Address} {s s' : Sections T} {t u : T} {p : SectionPc} {n m c : ℕ} {st st' : State}

theorem opened_update (pc : T → SectionPc) : opened (Function.update pc t p) n =
    if p.openOn = some n then insert t (opened pc n) else (opened pc n).erase t := by
  ext u
  by_cases hut : u = t
  · subst hut
    by_cases hp : p.openOn = some n <;> simp [opened,hp]
  · by_cases hp : p.openOn = some n <;> simp [opened,hp,hut]

theorem mem_opened {T : Type} [Fintype T] {t : T} {n : ℕ} {pc : T → SectionPc} :
    t ∈ opened pc n ↔ (pc t).openOn = some n := by
  simp [opened]

theorem opened_same {pc : T → SectionPc} (h : p.openOn = (pc t).openOn) :
    opened (Function.update pc t p) n = opened pc n := by
  rw [opened_update,h]
  by_cases ht : (pc t).openOn = some n
  · rw [if_pos ht,Finset.insert_eq_of_mem (mem_opened.mpr ht)]
  · rw [if_neg ht,Finset.erase_eq_of_notMem fun hm => ht (mem_opened.mp hm)]

theorem SectionInv.open_lt {T : Type} [Fintype T] {a : Address} {s : Sections T} {t : T} {n : ℕ}
    (h : SectionInv a s) (ht : (s.pc t).openOn = some n) : n < s.mem.st.nextNode := by
  have hok := h.thread t
  cases hp : s.pc t with
  | loadCb k m | unlockRead m d =>
    rw [hp] at hok ht
    cases ht
    exact h.node _ hok
  | access k m d =>
    rw [hp] at hok ht
    cases ht
    exact h.node _ hok.1
  | unlockTest m d | unlockAdd m d =>
    rw [hp] at hok ht
    cases ht
    exact hok.2
  | idle | lockRead | lockTest | lockData | lockStore | lockAdd | xchg | putNull | init =>
    rw [hp] at ht
    cases ht

/-- Lists, counters and blocks that a step leaves alone, or that only grow. -/
structure Keeps (a : Address) (st st' : State) : Prop where
  rcuNode : (st'.sp a).rcuNode = (st.sp a).rcuNode
  cb : (st'.sp a).cb = (st.sp a).cb
  nextNode : st'.nextNode = st.nextNode
  nextCb : st.nextCb ≤ st'.nextCb
  head : ∀ c < st.nextCb, (st'.cb c).head = (st.cb c).head

theorem SectionOk.keeps (h : SectionOk a st p) (hk : Keeps a st st') : SectionOk a st' p := by
  cases p with
  | idle | lockRead | putNull => trivial
  | lockTest | lockData | lockAdd | loadCb | unlockRead | lockStore =>
    simp only [SectionOk,hk.rcuNode]
    exact h
  | access k n c =>
    obtain ⟨hn,hc,hm⟩ := h
    exact ⟨hk.rcuNode.trans hn,hc.trans_le hk.nextCb,by rw [hk.head c hc]; exact hm⟩
  | unlockTest | unlockAdd =>
    simp only [SectionOk,hk.nextNode]
    exact h
  | xchg c =>
    intro d hd
    obtain ⟨hlt,hh⟩ := h d hd
    exact ⟨hlt.trans_le hk.nextCb,by rw [hk.head d hlt]; exact hh⟩
  | init c q =>
    obtain ⟨hcb,hq⟩ := h
    refine ⟨hk.cb.trans hcb,?_⟩
    cases q with
    | malloc | lock | add =>
      intro d hd
      obtain ⟨hlt,hh⟩ := hq d hd
      exact ⟨hlt.trans_le hk.nextCb,by rw [hk.head d hlt]; exact hh⟩
    | unlock m | assign m =>
      refine ⟨hk.nextNode ▸ hq.1,fun d hd => ?_⟩
      obtain ⟨hlt,hh⟩ := hq.2 d hd
      exact ⟨hlt.trans_le hk.nextCb,by rw [hk.head d hlt]; exact hh⟩

theorem SectionInv.keeps (h : SectionInv a s) (hpc : s'.pc = Function.update s.pc t p)
    (hk : Keeps a s.mem.st s'.mem.st)
    (hdata : ∀ n < s.mem.st.nextNode, (s'.mem.st.node n).data = (s.mem.st.node n).data)
    (hgp : ∀ c < s'.mem.st.nextCb, depthOf (s'.mem.st.cb c).gpSeq = 1)
    (hnest : ∀ n < s.mem.st.nextNode, depthOf (s'.mem.st.node n).gpSeq = (opened s'.pc n).card)
    (hp : SectionOk a s'.mem.st p)
    (hst : p.storing = true → (s.pc t).storing = true ∨ ∀ u, (s.pc u).storing = false)
    (hrep : p.replacing = (s.pc t).replacing)
    (hearly : p.early = true → (s.pc t).early = true ∨ ∀ u, (s.pc u).replacing = false) :
    SectionInv a s' := by
  have hstore : ∀ u, (Function.update s.pc t p u).storing = true →
      (s.pc u).storing = true ∨ u = t ∧ ∀ v, (s.pc v).storing = false := by
    intro u hu
    by_cases hut : u = t
    · subst hut
      simp only [Function.update_self] at hu
      exact (hst hu).imp id fun hh => ⟨rfl,hh⟩
    · left
      simpa [hut] using hu
  have hreplace : ∀ u, (Function.update s.pc t p u).replacing = (s.pc u).replacing := by
    intro u
    by_cases hut : u = t
    · simp [hut,hrep]
    · simp [hut]
  refine ⟨fun n hn => ?_,fun c hc => ?_,fun n hn => ?_,hgp,fun n hn => hnest n (hk.nextNode ▸ hn),
    fun u => ?_,fun u v hu hv => ?_,fun hall n c hn hc => ?_,fun u v hu => ?_⟩
  · rw [hk.nextNode]
    exact h.node n (hk.rcuNode ▸ hn)
  · exact (h.cb c (hk.cb ▸ hc)).trans_le hk.nextCb
  · rw [hk.nextNode] at hn
    rw [hdata n hn]
    exact (h.data n hn).trans_le hk.nextCb
  · rw [hpc]
    by_cases hut : u = t
    · simpa [hut] using hp
    · simpa [hut] using (h.thread u).keeps hk
  · rw [hpc] at hu hv
    rcases hstore u hu with hu' | ⟨hut,hnone⟩ <;> rcases hstore v hv with hv' | ⟨hvt,hnone'⟩
    · exact h.alone u v hu' hv'
    · simp [hnone' u] at hu'
    · simp [hnone v] at hv'
    · rw [hut,hvt]
  · simp only [hpc,hreplace] at hall
    rw [hk.rcuNode] at hn
    rw [hk.cb] at hc
    rw [hk.head c (h.cb c hc)]
    exact h.current hall n c hn hc
  · rw [hpc] at hu ⊢
    rw [hreplace]
    by_cases hut : u = t
    · subst hut
      simp only [Function.update_self] at hu
      exact (hearly hu).elim (fun he => h.early u v he) fun hh => hh v
    · exact h.early u v (by simpa [hut] using hu)

theorem Keeps.refl (a : Address) (st : State) : Keeps a st st :=
  ⟨rfl,rfl,rfl,le_rfl,fun _ _ => rfl⟩

theorem SectionInv.goto (h : SectionInv a s) (hpc : s'.pc = Function.update s.pc t p)
    (hmem : s'.mem.st = s.mem.st) (hp : SectionOk a s.mem.st p)
    (hopen : p.openOn = (s.pc t).openOn)
    (hst : p.storing = true → (s.pc t).storing = true ∨ ∀ u, (s.pc u).storing = false)
    (hrep : p.replacing = (s.pc t).replacing)
    (hearly : p.early = true → (s.pc t).early = true ∨ ∀ u, (s.pc u).replacing = false) :
    SectionInv a s' := by
  refine h.keeps hpc (by rw [hmem]; exact .refl a _) (fun _ _ => by rw [hmem])
    (by rw [hmem]; exact h.gpSeq) (fun n hn => ?_) (by rw [hmem]; exact hp) hst hrep hearly
  rw [hmem,hpc,opened_same hopen]
  exact h.nesting n hn

theorem SectionInv.word {w : Word} (h : SectionInv a s) (hp : SectionOk a s.mem.st p)
    (hw : depthOf w = (opened (Function.update s.pc t p) n).card)
    (hothers : ∀ m ≠ n, (s.pc t).openOn ≠ some m ∧ p.openOn ≠ some m)
    (hst : p.storing = false) (hrep : p.replacing = (s.pc t).replacing)
    (hearly : p.early = true → (s.pc t).early = true) :
    SectionInv a ((s.setWord n w).goto t p) := by
  refine h.keeps rfl ⟨rfl,rfl,rfl,le_rfl,fun _ _ => rfl⟩ (fun m _ => ?_) h.gpSeq (fun m hm => ?_)
    (hp.keeps ⟨rfl,rfl,rfl,le_rfl,fun _ _ => rfl⟩) (by simp [hst]) hrep fun he => .inl (hearly he)
  · by_cases hmn : m = n <;> simp [Sections.goto,Sections.setWord,Sections.setSt,hmn]
  · show depthOf (Function.update s.mem.st.node n _ m).gpSeq =
      (opened (Function.update s.pc t p) m).card
    by_cases hmn : m = n
    · subst hmn
      rw [Function.update_self]
      exact hw
    · rw [Function.update_of_ne hmn,opened_update,if_neg (hothers m hmn).2,
        Finset.erase_eq_of_notMem fun hmem => (hothers m hmn).1 (mem_opened.mp hmem)]
      exact h.nesting m hm

theorem SectionInv.store {data dtor : BitVec 64} {alloc : Bool} (h : SectionInv a s)
    (hst : sectionStep a s (.store t data dtor alloc) = some s') : SectionInv a s' := by
  obtain ⟨⟨hidle,hnone⟩,rfl⟩ := guarded_eq_some.mp hst
  have hopen : ∀ c, SectionPc.openOn (.xchg c) = (s.pc t).openOn := fun c => by rw [hidle]; rfl
  cases alloc with
  | false =>
    exact h.goto (p:=.xchg none) rfl rfl (fun d hd => absurd hd (by simp)) (hopen _)
      (fun _ => .inr hnone) (by rw [hidle]; rfl) (fun hr => Bool.noConfusion hr)
  | true =>
    have hk : Keeps a s.mem.st (cbCreate s.mem.st data dtor true).1 :=
      ⟨rfl,rfl,rfl,Nat.le_succ _,fun c hc => by simp [cbCreate,hc.ne]⟩
    refine h.keeps (p:=.xchg (some s.mem.st.nextCb)) rfl hk (fun _ _ => rfl) (fun c hc => ?_)
      (fun n hn => ?_) ?_ (fun _ => .inr hnone) (by rw [hidle]; rfl) (fun hr => Bool.noConfusion hr)
    · show depthOf (Function.update s.mem.st.cb s.mem.st.nextCb _ c).gpSeq = 1
      rcases Nat.lt_succ_iff_lt_or_eq.mp hc with hlt | rfl
      · rw [Function.update_of_ne hlt.ne]
        exact h.gpSeq c hlt
      · rw [Function.update_self]
        exact Rcu.depthOf_gpCount
    · show _ = (opened (Function.update s.pc t _) n).card
      rw [opened_same (hopen _)]
      exact h.nesting n hn
    · intro d hd
      cases hd
      refine ⟨Nat.lt_succ_self _,?_⟩
      show (Function.update s.mem.st.cb s.mem.st.nextCb _ s.mem.st.nextCb).head = []
      rw [Function.update_self]

theorem SectionInv.lockStore {k : Section} {w : Word} (h : SectionInv a s)
    (hp : s.pc t = .lockStore k n w) (hok : depthOf (s.mem.st.node n).gpSeq = 0) :
    SectionInv a ((s.setWord n w).goto t (.loadCb k n)) := by
  have hth := h.thread t
  rw [hp] at hth
  have hcard := h.nesting n (h.node n hth.1)
  rw [hok,eq_comm,Finset.card_eq_zero] at hcard
  refine h.word hth.1 ?_ (fun m hm => ?_) rfl (by rw [hp]; rfl) fun _ => by rw [hp]; rfl
  · rw [opened_update,if_pos (by rfl),hcard,hth.2]
    rfl
  · rw [hp]
    simp [SectionPc.openOn,Ne.symm hm]

theorem SectionInv.lockAdd {k : Section} (h : SectionInv a s) (hp : s.pc t = .lockAdd k n)
    (hok : depthOf (s.mem.st.node n).gpSeq+1 < 2^32) :
    SectionInv a ((s.setWord n ((s.mem.st.node n).gpSeq+gpCount)).goto t (.loadCb k n)) := by
  have hth := h.thread t
  rw [hp] at hth
  have hnot : t ∉ opened s.pc n := fun hm => by simp [mem_opened,hp,SectionPc.openOn] at hm
  refine h.word hth ?_ (fun m hm => ?_) rfl (by rw [hp]; rfl) fun _ => by rw [hp]; rfl
  · rw [opened_update,if_pos (by rfl),Finset.card_insert_of_notMem hnot,depthOf_add _ hok,
      h.nesting n (h.node n hth)]
  · rw [hp]
    simp [SectionPc.openOn,Ne.symm hm]

theorem SectionInv.unlockAdd (h : SectionInv a s) (hp : s.pc t = .unlockAdd n m) :
    SectionInv a ((s.setWord m ((s.mem.st.node m).gpSeq+-gpCount)).goto t .idle) := by
  have hth := h.thread t
  rw [hp] at hth
  obtain ⟨rfl,hn⟩ := hth
  have hmem : t ∈ opened s.pc n := mem_opened.mpr (by rw [hp]; rfl)
  have hcount := h.nesting n hn
  have hpos := Finset.card_pos.mpr ⟨t,hmem⟩
  refine h.word trivial ?_ (fun m hm => ?_) rfl (by rw [hp]; rfl) nofun
  · rw [opened_update,if_neg nofun,Finset.card_erase_of_mem hmem,depthOf_sub _ (by omega),hcount]
  · rw [hp]
    simp [SectionPc.openOn,Ne.symm hm]

theorem SectionInv.access {k : Section} (h : SectionInv a s) (hp : s.pc t = .access k n c) :
    SectionInv a ((accessCb s t c k).goto t (.unlockRead n c)) := by
  have hth := h.thread t
  rw [hp] at hth
  have hopen : SectionPc.openOn (.unlockRead n c) = (s.pc t).openOn := by rw [hp]; rfl
  have hnest : ∀ m < s.mem.st.nextNode, depthOf (s.mem.st.node m).gpSeq =
      (opened (Function.update s.pc t (.unlockRead n c)) m).card := by
    intro m hm
    rw [opened_same hopen]
    exact h.nesting m hm
  have hrep : SectionPc.replacing (.unlockRead n c) = (s.pc t).replacing := by rw [hp]; rfl
  cases k with
  | load =>
    exact h.keeps rfl (.refl a _) (fun _ _ => rfl) h.gpSeq hnest hth.1 nofun hrep nofun
  | cmpxhg expected desired =>
    simp only [accessCb]
    split
    · have hcb : ∀ d, ((s.mem.setCb c fun b => { b with rawPtr := desired }).st.cb d).head =
          (s.mem.st.cb d).head ∧
          ((s.mem.setCb c fun b => { b with rawPtr := desired }).st.cb d).gpSeq =
          (s.mem.st.cb d).gpSeq := fun d => by by_cases hd : d = c <;> simp [hd]
      refine h.keeps rfl ⟨rfl,rfl,rfl,le_rfl,fun d _ => (hcb d).1⟩ (fun _ _ => rfl) (fun d hd => ?_)
        hnest hth.1 nofun hrep nofun
      exact (congrArg depthOf (hcb d).2).trans (h.gpSeq d hd)
    · exact h.keeps rfl (.refl a _) (fun _ _ => rfl) h.gpSeq hnest hth.1 nofun hrep nofun

theorem SectionInv.xchg {c : Option ℕ} (h : SectionInv a s) (hp : s.pc t = .xchg c)
    (hok : ∀ u, (s.pc u).early = false)
    (hq : p = .putNull ∨ p = .init c .malloc) :
    SectionInv a ((s.setSt (cbStore s.mem.st a c)).goto t p) := by
  have hth := h.thread t
  rw [hp] at hth
  have hopen : p.openOn = (s.pc t).openOn := by
    rw [hp]
    rcases hq with rfl | rfl <;> rfl
  have hrep : p.replacing = true := by rcases hq with rfl | rfl <;> rfl
  have hearly : p.early = false := by rcases hq with rfl | rfl <;> rfl
  have hstor : (s.pc t).storing = true := by rw [hp]; rfl
  have hsp : ((cbStore s.mem.st a c).sp a).rcuNode = (s.mem.st.sp a).rcuNode ∧
      ((cbStore s.mem.st a c).sp a).cb = c := by simp [cbStore]
  have hnotnew : ∀ u, (Function.update s.pc t p u).early = false := by
    intro u
    by_cases hut : u = t
    · simp [hut,hearly]
    · simp [hut,hok u]
  refine ⟨fun n hn => h.node n (hsp.1 ▸ hn),fun d hd => ?_,h.data,h.gpSeq,
    fun n hn => ?_,fun u => ?_,
    fun u v hu hv => ?_,fun hall => ?_,fun u v hu => ?_⟩
  · exact (hth d (hsp.2 ▸ hd)).1
  · show _ = (opened (Function.update s.pc t p) n).card
    rw [opened_same hopen]
    exact h.nesting n hn
  · show SectionOk a (cbStore s.mem.st a c) (Function.update s.pc t p u)
    by_cases hut : u = t
    · rw [hut,Function.update_self]
      rcases hq with rfl | rfl
      · trivial
      · exact ⟨hsp.2,fun d hd => hth d hd⟩
    · rw [Function.update_of_ne hut]
      have hu := h.thread u
      have he := hok u
      cases hpu : s.pc u with
      | init d q =>
        exact absurd (h.alone u t (by rw [hpu]; rfl) hstor) hut
      | lockTest | lockData | lockStore | lockAdd | loadCb =>
        rw [hpu] at he
        cases he
      | access | unlockRead =>
        rw [hpu] at hu
        simp only [SectionOk,hsp.1]
        exact hu
      | idle | lockRead | unlockTest | unlockAdd | xchg | putNull =>
        rw [hpu] at hu
        exact hu
  · have hone : ∀ w, (Function.update s.pc t p w).storing = true → (s.pc w).storing = true := by
      intro w hw
      by_cases hwt : w = t
      · rw [hwt]
        exact hstor
      · simpa [hwt] using hw
    exact h.alone u v (hone u hu) (hone v hv)
  · have ht := hall t
    simp [Sections.goto,hrep] at ht
  · exact absurd (hu.symm.trans (hnotnew u)) (by simp)

theorem SectionInv.add {d : ℕ} (h : SectionInv a s) (hp : s.pc t = .init (some d) .add) :
    SectionInv a ((s.setSt (rcuAdd s.mem.st d (s.mem.st.sp a).id).1).goto t
      (.init (some d) (.unlock (rcuAdd s.mem.st d (s.mem.st.sp a).id).2))) := by
  have hth := h.thread t
  rw [hp] at hth
  obtain ⟨hcb,hth⟩ := hth
  obtain ⟨hd,hempty⟩ := hth d rfl
  have hstor : (s.pc t).storing = true := by rw [hp]; rfl
  have hadd : rcuAdd s.mem.st d (s.mem.st.sp a).id = ({ s.mem.st with
      node := Function.update s.mem.st.node s.mem.st.nextNode ⟨narrowId (s.mem.st.sp a).id,0,d⟩
      nextNode := s.mem.st.nextNode+1
      cb := Function.update s.mem.st.cb d
        { s.mem.st.cb d with head := [s.mem.st.nextNode] } },s.mem.st.nextNode) := by
    simp [rcuAdd,hempty]
  rw [hadd]
  have hopen : SectionPc.openOn (.init (some d) (.unlock s.mem.st.nextNode)) =
      (s.pc t).openOn := by rw [hp]; rfl
  have hpcs : ∀ u, (Function.update s.pc t (.init (some d) (.unlock s.mem.st.nextNode)) u).storing =
      (s.pc u).storing ∧
      (Function.update s.pc t (.init (some d) (.unlock s.mem.st.nextNode)) u).replacing =
      (s.pc u).replacing ∧
      (Function.update s.pc t (.init (some d) (.unlock s.mem.st.nextNode)) u).early =
      (s.pc u).early := by
    intro u
    by_cases hut : u = t
    · rw [hut,hp,Function.update_self]
      exact ⟨rfl,rfl,rfl⟩
    · rw [Function.update_of_ne hut]
      exact ⟨rfl,rfl,rfl⟩
  refine ⟨fun n hn => (h.node n hn).trans_le (Nat.le_succ _),h.cb,fun n hn => ?_,fun c hc => ?_,
    fun n hn => ?_,fun u => ?_,fun u v hu hv => ?_,fun hall => ?_,fun u v hu => ?_⟩
  · show (Function.update s.mem.st.node s.mem.st.nextNode _ n).data < s.mem.st.nextCb
    rcases Nat.lt_succ_iff_lt_or_eq.mp hn with hlt | rfl
    · rw [Function.update_of_ne hlt.ne]
      exact h.data n hlt
    · rw [Function.update_self]
      exact hd
  · show depthOf (Function.update s.mem.st.cb d _ c).gpSeq = 1
    by_cases hcd : c = d
    · subst hcd
      rw [Function.update_self]
      exact h.gpSeq c hc
    · rw [Function.update_of_ne hcd]
      exact h.gpSeq c hc
  · show depthOf (Function.update s.mem.st.node s.mem.st.nextNode _ n).gpSeq =
      (opened (Function.update s.pc t _) n).card
    rw [opened_same hopen]
    rcases Nat.lt_succ_iff_lt_or_eq.mp hn with hlt | rfl
    · rw [Function.update_of_ne hlt.ne]
      exact h.nesting n hlt
    · have hnone : opened s.pc s.mem.st.nextNode = ∅ := by
        refine Finset.eq_empty_of_forall_notMem fun u hu => ?_
        exact lt_irrefl _ (h.open_lt (mem_opened.mp hu))
      rw [Function.update_self,hnone]
      rfl
  · show SectionOk a _ (Function.update s.pc t _ u)
    by_cases hut : u = t
    · rw [hut,Function.update_self]
      refine ⟨hcb,Nat.lt_succ_self _,fun e he => ?_⟩
      cases he
      refine ⟨hd,?_⟩
      show _ ∈ (Function.update s.mem.st.cb d _ d).head
      rw [Function.update_self]
      simp
    · rw [Function.update_of_ne hut]
      have hu := h.thread u
      have hno : (s.pc u).storing = false := by
        by_contra hs
        exact hut (h.alone u t (by simpa using hs) hstor)
      cases hpu : s.pc u with
      | access k n c =>
        rw [hpu] at hu
        refine ⟨hu.1,hu.2.1,?_⟩
        show n ∈ (Function.update s.mem.st.cb d _ c).head
        by_cases hcd : c = d
        · subst hcd
          have hn := hu.2.2
          simp [hempty] at hn
        · rw [Function.update_of_ne hcd]
          exact hu.2.2
      | unlockTest | unlockAdd =>
        rw [hpu] at hu
        exact ⟨hu.1,hu.2.trans_le (Nat.le_succ _)⟩
      | xchg | init =>
        rw [hpu] at hno
        cases hno
      | idle | lockRead | lockTest | lockData | lockStore | lockAdd | loadCb | unlockRead
      | putNull =>
        rw [hpu] at hu
        exact hu
  · exact h.alone u v ((hpcs u).1 ▸ hu) ((hpcs v).1 ▸ hv)
  · exact absurd (hall t) (by simp [Sections.goto,SectionPc.replacing])
  · have he := h.early u v ((hpcs u).2.2 ▸ hu)
    exact (hpcs v).2.1.trans he

theorem SectionInv.assign {c : Option ℕ} (h : SectionInv a s)
    (hp : s.pc t = .init c (.assign m)) (hok : ∀ u, (s.pc u).late = false) :
    SectionInv a ((s.setSt { s.mem.st with
      sp := Function.update s.mem.st.sp a { s.mem.st.sp a with rcuNode := some m } }).goto t
        .idle) := by
  have hth := h.thread t
  rw [hp] at hth
  obtain ⟨hcb,hm,hhead⟩ := hth
  have hrep : (s.pc t).replacing = true := by rw [hp]; rfl
  have hopen : SectionPc.openOn .idle = (s.pc t).openOn := by rw [hp]; rfl
  have hnot : ∀ u, u ≠ t → (s.pc u).storing = false ∧ (s.pc u).early = false := by
    intro u hut
    constructor
    · by_contra hs
      exact hut (h.alone u t (by simpa using hs) (by rw [hp]; rfl))
    · by_contra he
      simp [h.early u t (by simpa using he)] at hrep
  have hpcs : ∀ u, (Function.update s.pc t .idle u).storing = false ∧
      (Function.update s.pc t .idle u).early = false := by
    intro u
    by_cases hut : u = t
    · rw [hut,Function.update_self]
      exact ⟨rfl,rfl⟩
    · rw [Function.update_of_ne hut]
      exact hnot u hut
  have hsp : ((Function.update s.mem.st.sp a
      { s.mem.st.sp a with rcuNode := some m }) a) = { s.mem.st.sp a with rcuNode := some m } :=
    Function.update_self ..
  refine ⟨fun n hn => ?_,fun d hd => ?_,h.data,h.gpSeq,fun n hn => ?_,fun u => ?_,
    fun u v hu _ => absurd (hu.symm.trans (hpcs u).1) (by simp),fun _ n d hn hd => ?_,
    fun u v hu => absurd (hu.symm.trans (hpcs u).2) (by simp)⟩
  · simp only [Sections.goto,Sections.setSt,hsp,Option.some.injEq] at hn
    exact hn ▸ hm
  · simp only [Sections.goto,Sections.setSt,hsp] at hd
    exact h.cb d hd
  · show _ = (opened (Function.update s.pc t .idle) n).card
    rw [opened_same hopen]
    exact h.nesting n hn
  · show SectionOk a _ (Function.update s.pc t .idle u)
    by_cases hut : u = t
    · rw [hut,Function.update_self]
      trivial
    · rw [Function.update_of_ne hut]
      have hu := h.thread u
      have hl := hok u
      have hn := hnot u hut
      cases hpu : s.pc u with
      | access | unlockRead =>
        rw [hpu] at hl
        cases hl
      | lockTest | lockData | lockStore | lockAdd | loadCb =>
        rw [hpu] at hn
        cases hn.2
      | xchg | init =>
        rw [hpu] at hn
        cases hn.1
      | idle | lockRead | unlockTest | unlockAdd | putNull =>
        rw [hpu] at hu
        exact hu
  · simp only [Sections.goto,Sections.setSt,hsp,Option.some.injEq] at hn hd
    subst hn
    exact (hhead d (hcb.symm.trans hd ▸ rfl)).2

theorem SectionInv.storeInit {alloc : Bool} {c : Option ℕ} {q : AddPc} (h : SectionInv a s)
    (hok : ApartAt s (s.pc t) alloc) (hp : s.pc t = .init c q)
    (hst : storeInit a s t alloc c q = some s') : SectionInv a s' := by
  have hth := h.thread t
  have hstor : (s.pc t).storing = true := by rw [hp]; rfl
  have hrep : ∀ q, SectionPc.replacing (.init c q) = (s.pc t).replacing := fun q => by rw [hp]; rfl
  have hopen : ∀ q, SectionPc.openOn (.init c q) = (s.pc t).openOn := fun q => by rw [hp]; rfl
  rw [hp] at hth hok
  cases q with
  | malloc =>
    obtain rfl : alloc = true := hok
    cases hst
    exact h.goto rfl rfl hth (hopen _) (fun _ => .inl hstor) (hrep _) nofun
  | lock =>
    obtain ⟨d,_,hst⟩ := Option.bind_eq_some_iff.mp hst
    obtain ⟨_,rfl⟩ := guarded_eq_some.mp hst
    exact h.goto (p:=.init c .add) rfl rfl hth (hopen _) (fun _ => .inl hstor) (hrep _) nofun
  | add =>
    obtain ⟨d,hd,rfl⟩ := Option.map_eq_some_iff.mp hst
    subst hd
    exact h.add hp
  | unlock m =>
    obtain ⟨d,_,rfl⟩ := Option.map_eq_some_iff.mp hst
    exact h.goto (p:=.init c (.assign m)) rfl rfl hth (hopen _) (fun _ => .inl hstor) (hrep _) nofun
  | assign m =>
    cases hst
    exact h.assign hp hok

theorem SectionInv.go {alloc : Bool} (h : SectionInv a s) (hok : ApartAt s (s.pc t) alloc)
    (hst : sectionGo a s t alloc (s.pc t) = some s') : SectionInv a s' := by
  have hth := h.thread t
  have hok' := hok
  cases hp : s.pc t with
  | idle | putNull =>
    rw [hp] at hst
    cases hst
  | init c q => exact h.storeInit hok hp (by rw [hp] at hst; exact hst)
  | lockRead k =>
    rw [hp] at hst hok
    obtain ⟨n,hn,rfl⟩ := Option.map_eq_some_iff.mp hst
    exact h.goto (p:=.lockTest k n) rfl rfl hn (by rw [hp]; rfl) nofun (by rw [hp]; rfl)
      fun _ => .inr hok
  | lockTest k n =>
    rw [hp] at hst hth
    cases hst
    split
    · exact h.goto (p:=.lockData k n) rfl rfl hth (by rw [hp]; rfl) nofun (by rw [hp]; rfl)
        fun _ => .inl (by rw [hp]; rfl)
    · exact h.goto (p:=.lockAdd k n) rfl rfl hth (by rw [hp]; rfl) nofun (by rw [hp]; rfl)
        fun _ => .inl (by rw [hp]; rfl)
  | lockData k n =>
    rw [hp] at hst hth
    cases hst
    exact h.goto (p:=.lockStore k n _) rfl rfl ⟨hth,h.gpSeq _ (h.data n (h.node n hth))⟩
      (by rw [hp]; rfl) nofun (by rw [hp]; rfl) fun _ => .inl (by rw [hp]; rfl)
  | lockStore k n w =>
    rw [hp] at hst hok
    cases hst
    exact h.lockStore hp hok
  | lockAdd k n =>
    rw [hp] at hst hok
    cases hst
    exact h.lockAdd hp hok
  | loadCb k n =>
    rw [hp] at hst hth
    obtain ⟨c,hc,rfl⟩ := Option.map_eq_some_iff.mp hst
    have hnone : ∀ u, (s.pc u).replacing = false := fun u => h.early t u (by rw [hp]; rfl)
    exact h.goto (p:=.access k n c) rfl rfl ⟨hth,h.cb c hc,h.current hnone n c hth hc⟩
      (by rw [hp]; rfl) nofun (by rw [hp]; rfl) nofun
  | access k n c =>
    rw [hp] at hst
    cases hst
    exact h.access hp
  | unlockRead n c =>
    rw [hp] at hst hth
    obtain ⟨m,hm,rfl⟩ := Option.map_eq_some_iff.mp hst
    have hnm : n = m := Option.some.inj (hth.symm.trans hm)
    exact h.goto (p:=.unlockTest n m) rfl rfl ⟨hnm,h.node n hth⟩ (by rw [hp]; rfl) nofun
      (by rw [hp]; rfl) nofun
  | unlockTest n m =>
    rw [hp] at hst hth
    cases hst
    exact h.goto (p:=.unlockAdd n m) rfl rfl hth (by rw [hp]; rfl) nofun (by rw [hp]; rfl) nofun
  | unlockAdd n m =>
    rw [hp] at hst
    cases hst
    exact h.unlockAdd hp
  | xchg c =>
    rw [hp] at hst hok
    cases hst
    refine h.xchg hp hok ?_
    split <;> simp

theorem SectionInv.step {act : SectionAct T} (h : SectionInv a s) (hok : Apart s act)
    (hst : sectionStep a s act = some s') : SectionInv a s' := by
  cases act with
  | call t k =>
    obtain ⟨hp,rfl⟩ := guarded_eq_some.mp hst
    exact h.goto (p:=.lockRead k) rfl rfl trivial (by rw [hp]; rfl) nofun (by rw [hp]; rfl) nofun
  | store t data dtor alloc => exact h.store hst
  | go t alloc => exact h.go hok hst

theorem SectionInv.begin {T : Type} [Fintype T] {a : Address} {st : State} (hr : Ready st a) :
    SectionInv a (beginSections st T) := by
  obtain ⟨n,c,hn,hc,hmem,hnlt,hclt⟩ := hr.current
  refine ⟨fun m hm => ?_,fun d hd => ?_,hr.data,hr.gpSeq,fun m hm => ?_,fun _ => trivial,nofun,
    fun _ m d hm hd => ?_,nofun⟩
  · exact Option.some.inj (hn.symm.trans hm) ▸ hnlt
  · exact Option.some.inj (hc.symm.trans hd) ▸ hclt
  · rw [show opened (beginSections st T).pc m = ∅ by simp [opened,beginSections,SectionPc.openOn]]
    exact hr.closed m hm
  · rw [← Option.some.inj (hn.symm.trans hm),← Option.some.inj (hc.symm.trans hd)]
    exact hmem

theorem SectionInv.closed {T : Type} [Fintype T] {a : Address} {s : Sections T}
    (h : SectionInv a s) : Closed s := by
  refine ⟨fun t n m hp => ?_,fun t k n c hp => ?_,h.nesting⟩
  · have hth := h.thread t
    rcases hp with hp | hp
    · rw [hp] at hth
      exact hth.1
    · rw [hp] at hth
      exact hth.1
  · have hth := h.thread t
    rw [hp] at hth
    exact hth.2.2

end Steps

/-- In every interleaving in which stores stay apart from the sections, and the outermost sections
from each other, the sections on a shared safe_ptr close where they opened. -/
theorem closed_of_apart {a : Address} {st : State} {s : Sections T} (hr : Ready st a)
    (h : Reach (sectionStep a) Apart (beginSections st T) s) : Closed s := by
  have hi : SectionInv a s := by
    apply h.invariant (I:=SectionInv a) (.begin hr)
    intro t act u hi hok hst
    exact hi.step hok hst
  exact hi.closed

def counter : Address := ⟨513,by decide⟩

/-- One safe_ptr that has just been created. -/
def created : State := (exec step init [.create counter 7 0 ⟨none,0,none⟩ true true]).getD init

theorem created_ready : Ready created counter := by
  refine ⟨⟨0,0,rfl,rfl,by decide,by decide,by decide⟩,?_,?_,?_⟩ <;>
    · intro n hn
      obtain rfl : n = 0 := Nat.lt_one_iff.mp hn
      decide

/-- A load and an exchange with nested sections, a store, and a load after it. -/
def sharing : List (SectionAct Bool) :=
  .call false .load::List.replicate 4 (.go false true) ++ .call true (.cmpxhg 7 8)::
    List.replicate 8 (.go true true) ++ List.replicate 5 (.go false true) ++
    .store true 9 0 true::List.replicate 6 (.go true true) ++ .call false .load::
    List.replicate 9 (.go false true)

theorem closed_of_sharing : ∃ s : Sections Bool,
    Reach (sectionStep counter) Apart (beginSections created _) s ∧ s.result false = 9 ∧
      Closed s := by
  have hs : (exec (restrict (sectionStep counter) Apart) (beginSections created Bool)
      sharing).map (fun s => s.result false) = some 9 := by decide
  obtain ⟨s,hs,hr⟩ := Option.map_eq_some_iff.mp hs
  have hreach := reach_of_exec_restrict hs
  exact ⟨s,hreach,hr,closed_of_apart created_ready hreach⟩

/-- Two threads both find the count 0 and store 1. -/
theorem closed_fails : ¬ ∀ (st : State) (a : Address) (s : Sections Bool), Ready st a →
    Reach (sectionStep a) Anything (beginSections st Bool) s → Closed s := by
  intro h
  have hs : (exec (sectionStep counter) (beginSections created Bool)
      (.call false .load::.call true .load::List.replicate 3 (.go false true) ++
        List.replicate 4 (.go true true) ++ [.go false true])).map
      (fun s => ((s.pc false).openOn,(s.pc true).openOn,depthOf (s.mem.st.node 0).gpSeq,
        s.mem.st.nextNode)) = some (some 0,some 0,1,1) := by decide
  obtain ⟨s,hs,hp⟩ := Option.map_eq_some_iff.mp hs
  simp only [Prod.mk.injEq] at hp
  obtain ⟨h0,h1,hd,hn⟩ := hp
  have hc := (h created counter s created_ready (reach_of_exec hs)).nesting 0 (by omega)
  have hall : (Finset.univ.filter fun t => (s.pc t).openOn = some 0) = Finset.univ := by
    refine Finset.filter_true_of_mem fun t _ => ?_
    cases t
    · exact h0
    · exact h1
  rw [hall,hd] at hc
  simp at hc

end SafePtr
end Mthpc
