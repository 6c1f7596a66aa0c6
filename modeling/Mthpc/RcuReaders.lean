import Mthpc.RcuGrace
import Mthpc.RcuPointer
import Mthpc.RcuRegistry

/-!
# Readers that come and go

The threads of `mthpc_rcu_data`: `mthpc_rcu_thread_init` and `mthpc_rcu_thread_exit` with the
list of nodes, the sections of a thread on the node that its `mthpc_rcu_node_ptr` names, and
`mthpc_synchronize_rcu`, all in one system. The waits walk the list as it is, a node that has
been freed may be allocated again for another thread, and the critical sections of the list and
of the synchronizers exclude each other by `data->lock`.
-/
namespace Mthpc
namespace RcuReaders

open StepSystem

variable {H κ : Type}

def readerOf {ι κ : Type} : Rcu.Act ι κ → Option ι
  | .lockLoad r | .lockRead r _ | .lockStore r _ | .lockAdd r _ | .unlockLoad r
  | .unlockAdd r _ => some r
  | _ => none

/-- The threads with their `pthread_self()`. -/
def threads (id : H → BitVec 64) : RcuRegistry.Config H := ⟨.thread,id⟩

/-- `reg` are the list and the node pointers, `rcu` the words of the nodes, `data->gp_seq` and
`data->lock`. -/
structure State (H κ : Type) where
  reg : RcuRegistry.State H
  rcu : Rcu.State Address κ

inductive Act (H κ : Type)
  | registry (a : RcuRegistry.Act H)
  | read (h : H) (n : Address) (a : Rcu.Act Address κ)
  | sync (a : Rcu.Act Address κ) (fuel : ℕ)

/-- Nobody has registered; the memory is as it is. -/
def init (id : H → BitVec 64) (next : Address → Option Address) (node : Address → RcuRegistry.Node)
    (allocated : Finset Address) : State H κ where
  reg := RcuRegistry.init (threads id) next node allocated fun _ => none
  rcu := Rcu.init Address κ

def nodesFrom (s : RcuRegistry.State H) : ℕ → Option Address → Option (List Address)
  | _, none => some []
  | 0, some _ => none
  | fuel+1, some n =>
    if n ∈ s.allocated then (nodesFrom s fuel (s.cells.next n)).map (n::·) else none

variable [DecidableEq H] [DecidableEq κ]

/-- The critical sections of the list need `data->lock`, and a thread that leaves is not in the
middle of a `read_lock` or `read_unlock`. -/
def May (s : State H κ) : RcuRegistry.Act H → Prop
  | .add _ _ _ | .del _ _ => s.rcu.lock = none
  | .exit h => ∀ n ∈ s.reg.ptr h, s.rcu.reader n = .idle
  | _ => True

instance (s : State H κ) : ∀ a, Decidable (May s a)
  | .add _ _ _ | .del _ _ => inferInstanceAs (Decidable (s.rcu.lock = none))
  | .exit h => inferInstanceAs (Decidable (∀ n ∈ s.reg.ptr h, s.rcu.reader n = .idle))
  | .init _ | .malloc _ _ | .found _ _ _ | .assign _ _ | .free _ _ =>
    inferInstanceAs (Decidable True)

/-- `mthpc_rcu_add` writes 0 to the word of the node it has allocated. -/
def atomicInit (r : Rcu.State Address κ) : RcuRegistry.Act H → Rcu.State Address κ
  | .malloc _ (some n) => { r with node := Function.update r.node n 0 }
  | _ => r

/-- One step of a thread or of a synchronizer. -/
def step (id : H → BitVec 64) (s : State H κ) : Act H κ → Option (State H κ)
  | .registry a =>
    if May s a then
      (RcuRegistry.step (threads id) s.reg a).map fun g => ⟨g,atomicInit s.rcu a⟩
    else none
  | .read h n a =>
    if s.reg.pc h = .idle ∧ s.reg.ptr h = some n ∧ readerOf a = some n then
      (Rcu.step [] s.rcu a).map fun r => { s with rcu := r }
    else none
  | .sync a fuel =>
    if readerOf a = none then
      (nodesFrom s.reg fuel s.reg.cells.head).bind fun ns =>
        (Rcu.step ns s.rcu a).map fun r => { s with rcu := r }
    else none

/-- The registered threads differ in the lower half of their ids, a thread leaves outside of
sections, and the readers publish their phase in time. -/
def Proper (id : H → BitVec 64) (s : State H κ) : Act H κ → Prop
  | .registry a => RcuRegistry.Distinct (threads id) s.reg a ∧
    match a with
    | .exit h => ∀ n ∈ s.reg.ptr h, s.rcu.depth n = 0
    | _ => True
  | .read _ _ a => Rcu.Timely s.rcu a
  | .sync _ _ => True

instance [Fintype H] (id : H → BitVec 64) (s : State H κ) : ∀ e, Decidable (Proper id s e)
  | .registry (.exit h) => inferInstanceAs (Decidable (RcuRegistry.Distinct (threads id) s.reg
      (.exit h) ∧ ∀ n ∈ s.reg.ptr h, s.rcu.depth n = 0))
  | .registry (.init h) => inferInstanceAs (Decidable (RcuRegistry.Distinct (threads id) s.reg
      (.init h) ∧ True))
  | .registry (.malloc h n) => inferInstanceAs (Decidable (RcuRegistry.Distinct (threads id) s.reg
      (.malloc h n) ∧ True))
  | .registry (.add h n fuel) => inferInstanceAs (Decidable (RcuRegistry.Distinct (threads id) s.reg
      (.add h n fuel) ∧ True))
  | .registry (.found h n loc) => inferInstanceAs (Decidable (RcuRegistry.Distinct (threads id)
      s.reg (.found h n loc) ∧ True))
  | .registry (.assign h n) => inferInstanceAs (Decidable (RcuRegistry.Distinct (threads id) s.reg
      (.assign h n) ∧ True))
  | .registry (.del h fuel) => inferInstanceAs (Decidable (RcuRegistry.Distinct (threads id) s.reg
      (.del h fuel) ∧ True))
  | .registry (.free h n) => inferInstanceAs (Decidable (RcuRegistry.Distinct (threads id) s.reg
      (.free h n) ∧ True))
  | .read _ _ a => inferInstanceAs (Decidable (Rcu.Timely s.rcu a))
  | .sync _ _ => inferInstanceAs (Decidable True)

/-- What the system keeps. A synchronizer that is about to return owes no section of any thread;
what a wait still has to look at is on the list, which holds the nodes of the registered threads;
and a node with an open section is on the list and belongs to one thread. -/
structure Kept (s : State H κ) : Prop where
  grace : ∀ k, s.rcu.sync k = .ret → ∀ n, s.rcu.owed k n = false
  walks : ∃ ns, RcuRegistry.Exact s.reg ns ∧
    ∀ k b curr rest, s.rcu.sync k = .wait b curr rest → ∀ n ∈ rest, n ∈ ns
  inUse : ∀ n, 0 < s.rcu.depth n → n ∈ s.reg.allocated ∧
    ∃ h, s.reg.ptr h = some n ∧ s.reg.given h = some n ∧ ∀ g, s.reg.ptr g = some n → g = h

structure InvAt (id : H → BitVec 64) (s : State H κ) (ns : List Address) : Prop where
  list : RcuRegistry.Inv (threads id) s.reg ns
  ptr : ∀ h n, s.reg.ptr h = some n → s.reg.given h = some n ∨ s.reg.pc h = .free n
  words : Rcu.Inv ns s.rcu
  busy : ∀ n, 0 < s.rcu.depth n ∨ s.rcu.reader n ≠ .idle →
    ∃ h, s.reg.ptr h = some n ∧ s.reg.pc h = .idle
  walks : ∀ k b curr rest, s.rcu.sync k = .wait b curr rest → ∀ n ∈ rest, n ∈ ns

def ReadersInv (id : H → BitVec 64) (s : State H κ) : Prop := ∃ ns, InvAt id s ns

section Words

variable {ι : Type} [DecidableEq ι] {nodes nodes' : List ι} {s t : Rcu.State ι κ}
  {a : Rcu.Act ι κ} {r : ι}

theorem words_nodes {κ : Type} {ι : Type} {nodes nodes' : List ι} {s : Rcu.State ι κ}
    (h : Rcu.Inv nodes s) (hsub : ∀ r ∈ nodes', 0 < s.depth r → r ∈ nodes) : Rcu.Inv nodes' s := by
  have hnone : ∀ k, Rcu.NoneOwed nodes s k → Rcu.NoneOwed nodes' s k := by
    intro k hk r hr
    cases ho : s.owed k r with
    | false => rfl
    | true => exact absurd (hk r (hsub r hr (h.owed k r ho))) (by simp [ho])
  have hcur : ∀ rest, Rcu.Current nodes rest s → Rcu.Current nodes' rest s :=
    fun rest hc r hr hd => hc r (hsub r hr hd) hd
  refine ⟨h.toWordInv,h.owed,h.holder,fun hl => hcur [] (h.free hl),fun k => ?_⟩
  have hk := h.sync k
  cases hpc : s.sync k with
  | idle | ret =>
    rw [hpc] at hk
    exact hnone k hk
  | lock => trivial
  | readGp =>
    rw [hpc] at hk
    exact fun r hr ho => hk r (hsub r hr (h.owed k r ho)) ho
  | wait b curr rest =>
    rw [hpc] at hk
    cases b with
    | false => exact ⟨hk.1,fun r hr ho => hk.2 r (hsub r hr (h.owed k r ho)) ho⟩
    | true => exact ⟨hk.1,hnone k hk.2.1,hcur rest hk.2.2⟩
  | readFlip curr =>
    rw [hpc] at hk
    exact ⟨hk.1,hnone k hk.2⟩
  | writeFlip curr v =>
    rw [hpc] at hk
    exact ⟨hk.1,hk.2.1,hnone k hk.2.2⟩
  | unlock =>
    rw [hpc] at hk
    exact ⟨hnone k hk.1,hcur [] hk.2⟩

theorem words_init {κ : Type} {ι : Type} [DecidableEq ι] {nodes : List ι} {s : Rcu.State ι κ}
    {r : ι} (h : Rcu.Inv nodes s) (hd : s.depth r = 0) (hr : s.reader r = .idle) :
    Rcu.Inv nodes { s with node := Function.update s.node r 0 } := by
  have hw : Rcu.WordInv { s with node := Function.update s.node r 0 } := by
    refine ⟨h.gp,fun q => ?_,fun q w hq => ?_,h.store,h.untest⟩
    · by_cases hqr : q = r
      · subst hqr
        simpa [Rcu.depthOf] using hd.symm
      · simpa [hqr] using h.word q
    · have hqr : q ≠ r := by
        intro hqr
        subst hqr
        exact absurd (hr.symm.trans hq) (by simp)
      simpa [hqr] using h.test q w hq
  have hother : ∀ q, 0 < s.depth q →
      Rcu.phaseOf (Function.update s.node r 0 q) = Rcu.phaseOf (s.node q) := by
    intro q hq
    have hqr : q ≠ r := by
      intro hqr
      subst hqr
      omega
    rw [Function.update_of_ne hqr]
  exact h.reader hw rfl rfl rfl (fun k q hq => ⟨hq,h.owed k q hq,hother q (h.owed k q hq)⟩)
    (fun q hq => .inl ⟨hq,hother q hq⟩)

theorem step_nodes (ha : readerOf a = some r) : Rcu.step nodes s a = Rcu.step nodes' s a := by
  cases a <;> first | rfl | cases ha

theorem step_section (ha : readerOf a = some r) (hst : Rcu.step nodes s a = some t) :
    t.sync = s.sync ∧ ∀ q, q ≠ r → t.depth q = s.depth q ∧ t.reader q = s.reader q := by
  cases a with
  | lockLoad q | lockRead q w | lockStore q w | lockAdd q w | unlockLoad q | unlockAdd q w =>
    obtain rfl : q = r := by simpa [readerOf] using ha
    obtain ⟨_,rfl⟩ := guarded_eq_some.mp hst
    exact ⟨rfl,fun q hq => by simp [hq]⟩
  | _ => cases ha

theorem step_sync (ha : readerOf a = none) (hst : Rcu.step nodes s a = some t) :
    t.depth = s.depth ∧ t.reader = s.reader ∧
      ∀ k b curr rest, t.sync k = .wait b curr rest → ∀ n ∈ rest,
        n ∈ nodes ∨ ∃ b' curr' rest', s.sync k = .wait b' curr' rest' ∧ n ∈ rest' := by
  have hmove : ∀ {j : κ} {p : Rcu.SyncPc ι} {k b curr rest},
      Function.update s.sync j p k = .wait b curr rest →
      (∀ n b curr rest, p = .wait b curr rest → n ∈ rest → n ∈ nodes ∨
        ∃ b' curr' rest', s.sync j = .wait b' curr' rest' ∧ n ∈ rest') →
      ∀ n ∈ rest, n ∈ nodes ∨ ∃ b' curr' rest', s.sync k = .wait b' curr' rest' ∧ n ∈ rest' := by
    intro j p k b curr rest hk hp n hn
    by_cases hkj : k = j
    · subst hkj
      rw [Function.update_self] at hk
      exact hp n b curr rest hk hn
    · rw [Function.update_of_ne hkj] at hk
      exact .inr ⟨b,curr,rest,hk,hn⟩
  cases a with
  | lockLoad q | lockRead q w | lockStore q w | lockAdd q w | unlockLoad q | unlockAdd q w =>
    cases ha
  | waitAgain k b curr n rest =>
    obtain ⟨_,rfl⟩ := guarded_eq_some.mp hst
    exact ⟨rfl,rfl,fun k b curr rest hk n hn => .inr ⟨b,curr,rest,hk,hn⟩⟩
  | syncRead k | writeFlip k curr v =>
    obtain ⟨_,rfl⟩ := guarded_eq_some.mp hst
    refine ⟨rfl,rfl,fun j b c rest hj => hmove hj fun n b c rest hp hn => .inl ?_⟩
    cases hp
    exact hn
  | waitPass k b curr m rest =>
    obtain ⟨⟨hk,_⟩,rfl⟩ := guarded_eq_some.mp hst
    refine ⟨rfl,rfl,fun j b c rest hj => hmove hj fun n b c rest hp hn => .inr ?_⟩
    cases hp
    exact ⟨_,_,_,hk,List.mem_cons_of_mem m hn⟩
  | waitDone k b curr =>
    obtain ⟨_,rfl⟩ := guarded_eq_some.mp hst
    refine ⟨rfl,rfl,fun j b' c rest hj => hmove hj fun n b' c rest hp hn => ?_⟩
    cases b <;> cases hp
  | syncCall k | syncLock k | readFlip k curr | syncUnlock k | syncReturn k =>
    obtain ⟨_,rfl⟩ := guarded_eq_some.mp hst
    refine ⟨rfl,rfl,fun j b c rest hj => hmove hj fun n b c rest hp hn => ?_⟩
    cases hp

end Words

variable {id : H → BitVec 64} {s t : State H κ} {ns : List Address} {h : H} {n : Address}

theorem nodesFrom_eq {H : Type} {g : RcuRegistry.State H} {fuel : ℕ} {o : Option Address}
    {xs ys : List Address} (h : g.cells.Path o xs) (hf : nodesFrom g fuel o = some ys) :
    ys = xs := by
  induction xs generalizing o fuel ys with
  | nil =>
    rw [show o = none from h] at hf
    cases fuel <;> exact (Option.some.inj hf).symm
  | cons x xs ih =>
    rw [h.1] at hf
    cases fuel with
    | zero => cases hf
    | succ fuel =>
      rw [nodesFrom] at hf
      split at hf
      · obtain ⟨zs,hz,rfl⟩ := Option.map_eq_some_iff.mp hf
        rw [ih h.2 hz]
      · cases hf

section Registry

def holderOf : RcuRegistry.Act H → H
  | .init h | .malloc h _ | .add h _ _ | .found h _ _ | .assign h _ | .exit h | .del h _
  | .free h _ => h

theorem locked_other {c : RcuRegistry.Config H} {g g' : RcuRegistry.State H} {fuel : ℕ} {j : H}
    (hj : j ≠ h)
    (hst : (∃ n, RcuRegistry.addLocked c g h n fuel = some g') ∨
      RcuRegistry.delLocked c g h fuel = some g') :
    g'.pc j = g.pc j ∧ g'.ptr j = g.ptr j ∧ g'.given j = g.given j := by
  rcases hst with ⟨n,hst⟩ | hst
  · obtain ⟨loc,_,rfl⟩ := Option.map_eq_some_iff.mp hst
    cases g.cells.read loc <;> simp [hj]
  · obtain ⟨loc,_,rfl⟩ := Option.map_eq_some_iff.mp hst
    cases g.cells.read loc <;> cases c.kind <;> simp [hj]

theorem registry_other {c : RcuRegistry.Config H} {g g' : RcuRegistry.State H}
    {a : RcuRegistry.Act H} (hst : RcuRegistry.step c g a = some g') {j : H} (hj : j ≠ holderOf a) :
    g'.pc j = g.pc j ∧ g'.ptr j = g.ptr j ∧ g'.given j = g.given j := by
  cases a with
  | init h | assign h m | exit h | found h m loc =>
    obtain ⟨_,rfl⟩ := guarded_eq_some.mp hst
    simp only [holderOf] at hj
    simp [hj]
  | malloc h o =>
    simp only [holderOf] at hj
    cases o <;> obtain ⟨_,rfl⟩ := guarded_eq_some.mp hst <;> simp [hj]
  | add h m fuel =>
    simp only [RcuRegistry.step] at hst
    split at hst
    · exact locked_other hj (.inl ⟨m,hst⟩)
    · cases hst
  | del h fuel =>
    simp only [RcuRegistry.step] at hst
    split at hst
    · exact locked_other hj (.inr hst)
    · cases hst
  | free h m =>
    obtain ⟨_,rfl⟩ := guarded_eq_some.mp hst
    simp only [holderOf] at hj
    cases c.kind <;> simp [hj]

theorem given_eq {c : RcuRegistry.Config H} {g g' : RcuRegistry.State H}
    {a : RcuRegistry.Act H} (hst : RcuRegistry.step c g a = some g')
    (ha : ∀ h fuel, (∀ m, a ≠ .add h m fuel) ∧ a ≠ .del h fuel) : g'.given = g.given := by
  cases a with
  | init h | assign h m | exit h | found h m loc | free h m =>
    obtain ⟨_,rfl⟩ := guarded_eq_some.mp hst
    rfl
  | malloc h o => cases o <;> obtain ⟨_,rfl⟩ := guarded_eq_some.mp hst <;> rfl
  | add h m fuel => exact absurd rfl ((ha h fuel).1 m)
  | del h fuel => exact absurd rfl (ha h fuel).2

section

omit [DecidableEq H] [DecidableEq κ]

theorem InvAt.own (hi : InvAt id s ns) {g : H} (hg : s.reg.ptr g = some n)
    (hh : s.reg.ptr h = some n) : g = h := by
  have hheld : ∀ j, s.reg.ptr j = some n → RcuRegistry.Held s.reg j n := fun j hj =>
    (hi.ptr j n hj).imp_right .inr
  exact hi.list.own g h n (hheld g hg) (hheld h hh)

theorem InvAt.inUse (hi : InvAt id s ns) (hn : 0 < s.rcu.depth n ∨ s.rcu.reader n ≠ .idle) :
    ∃ h, s.reg.ptr h = some n ∧ s.reg.pc h = .idle ∧ s.reg.given h = some n ∧ n ∈ ns := by
  obtain ⟨h,hp,hpc⟩ := hi.busy n hn
  have hg : s.reg.given h = some n := by
    rcases hi.ptr h n hp with hg | hf
    · exact hg
    · rw [hpc] at hf
      cases hf
  exact ⟨h,hp,hpc,hg,(hi.list.mem n).mpr ⟨h,hg⟩⟩

@[simp] theorem atomicInit_depth (r : Rcu.State Address κ) (a : RcuRegistry.Act H) :
    (atomicInit r a).depth = r.depth := by
  unfold atomicInit
  split <;> rfl

@[simp] theorem atomicInit_reader (r : Rcu.State Address κ) (a : RcuRegistry.Act H) :
    (atomicInit r a).reader = r.reader := by
  unfold atomicInit
  split <;> rfl

@[simp] theorem atomicInit_sync (r : Rcu.State Address κ) (a : RcuRegistry.Act H) :
    (atomicInit r a).sync = r.sync := by
  unfold atomicInit
  split <;> rfl

@[simp] theorem atomicInit_owed (r : Rcu.State Address κ) (a : RcuRegistry.Act H) :
    (atomicInit r a).owed = r.owed := by
  unfold atomicInit
  split <;> rfl

end

variable {a : RcuRegistry.Act H} {g : RcuRegistry.State H}

theorem InvAt.still {H κ : Type} [DecidableEq H] {id : H → BitVec 64} {s : State H κ}
    {ns : List Address} {n : Address} {a : RcuRegistry.Act H} {g : RcuRegistry.State H}
    (hi : InvAt id s ns) (hok : Proper id s (.registry a)) (hmay : May s a)
    (hst : RcuRegistry.step (threads id) s.reg a = some g)
    (hn : 0 < s.rcu.depth n ∨ s.rcu.reader n ≠ .idle) : s.reg.ptr (holderOf a) ≠ some n := by
  intro hp
  obtain ⟨h,hph,hpc,_,_⟩ := hi.inUse hn
  obtain rfl : holderOf a = h := hi.own hp hph
  cases a with
  | init h =>
    obtain ⟨⟨_,hen⟩,_⟩ := guarded_eq_some.mp hst
    exact absurd (hp.symm.trans hen) (by simp)
  | exit h =>
    rcases hn with hn | hn
    · exact absurd (hok.2 n hp) (by omega)
    · exact hn (hmay n hp)
  | malloc h o =>
    cases o with
    | none => exact absurd (hpc.symm.trans (guarded_eq_some.mp hst).1) (by simp)
    | some m => exact absurd (hpc.symm.trans (guarded_eq_some.mp hst).1.1) (by simp)
  | assign h m | found h m loc | free h m =>
    exact absurd (hpc.symm.trans (guarded_eq_some.mp hst).1) (by simp)
  | add h m fuel | del h fuel =>
    simp only [holderOf] at hpc
    simp [RcuRegistry.step,hpc] at hst

theorem InvAt.ptr_step {H κ : Type} [DecidableEq H] {id : H → BitVec 64} {s : State H κ}
    {ns : List Address} {n : Address} {a : RcuRegistry.Act H} {g : RcuRegistry.State H}
    (hi : InvAt id s ns)
    (hst : RcuRegistry.step (threads id) s.reg a = some g) (hp : g.ptr (holderOf a) = some n) :
    g.given (holderOf a) = some n ∨ g.pc (holderOf a) = .free n := by
  have hpc := hi.list.pc (holderOf a)
  have hold := hi.ptr (holderOf a) n
  unfold RcuRegistry.PcOk at hpc
  cases a with
  | init h =>
    obtain ⟨⟨_,hen⟩,rfl⟩ := guarded_eq_some.mp hst
    exact absurd (hp.symm.trans hen) (by simp)
  | malloc h o =>
    cases o with
    | none =>
      obtain ⟨hm,rfl⟩ := guarded_eq_some.mp hst
      simp only [holderOf,hm] at hpc hold
      simpa [hpc] using hold hp
    | some m =>
      obtain ⟨⟨hm,_⟩,rfl⟩ := guarded_eq_some.mp hst
      simp only [holderOf,hm] at hpc hold
      simpa [hpc] using hold hp
  | add h m fuel =>
    simp only [RcuRegistry.step] at hst
    split at hst
    next hm =>
      obtain ⟨loc,_,rfl⟩ := Option.map_eq_some_iff.mp hst
      have hsame : s.reg.ptr h = some n := by
        revert hp
        cases s.reg.cells.read loc <;> exact fun hp => hp
      simp only [holderOf,hm] at hpc hold
      simpa [hpc.1] using hold hsame
    next => cases hst
  | found h m loc =>
    obtain ⟨hm,_⟩ := guarded_eq_some.mp hst
    simp only [holderOf,hm] at hpc
  | assign h m =>
    obtain ⟨hm,rfl⟩ := guarded_eq_some.mp hst
    simp only [holderOf,hm] at hpc
    obtain rfl : m = n := by simpa [holderOf] using hp
    exact .inl hpc
  | exit h =>
    obtain ⟨⟨hm,_⟩,rfl⟩ := guarded_eq_some.mp hst
    simp only [holderOf,hm] at hold
    exact .inl ((hold hp).resolve_right (by simp))
  | del h fuel =>
    by_cases hm : s.reg.pc h = .del
    · simp only [holderOf,hm] at hpc hold
      have hsame : s.reg.ptr h = some n := by
        have hst' := hst
        simp only [RcuRegistry.step,if_pos hm] at hst'
        obtain ⟨loc,_,rfl⟩ := Option.map_eq_some_iff.mp hst'
        revert hp
        cases s.reg.cells.read loc with
        | none => simp [holderOf,threads]
        | some m => exact fun hp => hp
      have hg : s.reg.given h = some n := (hold hsame).resolve_right (by simp)
      right
      exact (hi.list.delLocked hm hg hst).2.1
    · simp [RcuRegistry.step,hm] at hst
  | free h m =>
    obtain ⟨_,rfl⟩ := guarded_eq_some.mp hst
    simp [holderOf,threads] at hp

theorem InvAt.registry {H κ : Type} [DecidableEq H] {id : H → BitVec 64} {s : State H κ}
    {ns : List Address} {a : RcuRegistry.Act H} {g : RcuRegistry.State H} (hi : InvAt id s ns)
    (hok : Proper id s (.registry a)) (hmay : May s a)
    (hst : RcuRegistry.step (threads id) s.reg a = some g) :
    ReadersInv id (⟨g,atomicInit s.rcu a⟩ : State H κ) := by
  obtain ⟨ns',hlist⟩ := hi.list.step hok.1 hst
  have hbusy : ∀ n, 0 < s.rcu.depth n ∨ s.rcu.reader n ≠ .idle →
      ∃ h, g.ptr h = some n ∧ g.pc h = .idle ∧ g.given h = some n := by
    intro n hn
    obtain ⟨h,hp,hpc,hg,_⟩ := hi.inUse hn
    have hne : h ≠ holderOf a := by
      intro he
      exact hi.still hok hmay hst hn (he ▸ hp)
    obtain ⟨h1,h2,h3⟩ := registry_other hst hne
    exact ⟨h,h2.trans hp,h1.trans hpc,h3.trans hg⟩
  have hwords : Rcu.Inv ns (atomicInit s.rcu a) := by
    cases a with
    | malloc h o =>
      cases o with
      | none => exact hi.words
      | some m =>
        obtain ⟨⟨_,hm⟩,_⟩ := guarded_eq_some.mp hst
        have hfree : ¬ (0 < s.rcu.depth m ∨ s.rcu.reader m ≠ .idle) := by
          intro hn
          obtain ⟨j,_,_,hg,_⟩ := hi.inUse hn
          exact hm (hi.list.allocated j m (.inl hg))
        push Not at hfree
        exact words_init hi.words (by omega) hfree.2
    | init | add | found | assign | exit | del | free => exact hi.words
  refine ⟨ns',hlist,fun h n hp => ?_,?_,fun n hn => ?_,fun k b curr rest hk n hn => ?_⟩
  · by_cases hh : h = holderOf a
    · subst hh
      exact hi.ptr_step hst hp
    · obtain ⟨h1,h2,h3⟩ := registry_other hst hh
      show g.given h = some n ∨ g.pc h = .free n
      rw [h1,h3]
      exact hi.ptr h n (h2.symm.trans hp)
  · apply words_nodes hwords
    intro n _ hd
    exact (hi.inUse (.inl (by simpa using hd))).choose_spec.2.2.2
  · obtain ⟨h,hp,hpc,_⟩ := hbusy n (by simpa using hn)
    exact ⟨h,hp,hpc⟩
  · -- the synchronizer holds the lock, so nothing is added or removed
    have hk' : s.rcu.sync k = .wait b curr rest := by simpa using hk
    have hl : s.rcu.lock = some k := (hi.words.holder k).mp (by rw [hk']; rfl)
    have hg : g.given = s.reg.given := by
      apply given_eq hst
      intro h fuel
      refine ⟨fun m he => ?_,fun he => ?_⟩ <;> subst he <;>
        exact absurd (hl.symm.trans hmay) (by simp)
    obtain ⟨h,hh⟩ := (hi.list.mem n).mp (hi.walks k b curr rest hk' n hn)
    exact (hlist.mem n).mpr ⟨h,by rw [hg]; exact hh⟩

end Registry

section Run

theorem InvAt.graceInv {H κ : Type} {id : H → BitVec 64} {s : State H κ} {ns : List Address}
    (hi : InvAt id s ns) : Rcu.GraceInv ns s.rcu := by
  refine ⟨hi.words,fun n hn => ?_⟩
  by_contra hbusy
  rw [not_and_or] at hbusy
  obtain ⟨_,_,_,_,hmem⟩ := hi.inUse (n:=n) (hbusy.symm.imp_left Nat.pos_of_ne_zero)
  exact hn hmem

theorem InvAt.read {H κ : Type} [DecidableEq κ] {id : H → BitVec 64} {s : State H κ}
    {ns : List Address} {h : H} {n : Address} (hi : InvAt id s ns) {a : Rcu.Act Address κ}
    {r : Rcu.State Address κ}
    (hok : Rcu.Timely s.rcu a) (hpc : s.reg.pc h = .idle) (hp : s.reg.ptr h = some n)
    (ha : readerOf a = some n) (hst : Rcu.step ns s.rcu a = some r) :
    InvAt id { s with rcu := r } ns := by
  obtain ⟨hsync,hother⟩ := step_section ha hst
  refine ⟨hi.list,hi.ptr,hi.words.step hok hst,fun m hm => ?_,fun k b curr rest hk m hm => ?_⟩
  · by_cases hmn : m = n
    · subst hmn
      exact ⟨h,hp,hpc⟩
    · obtain ⟨hd,hr⟩ := hother m hmn
      exact hi.busy m (by simpa [hd,hr] using hm)
  · exact hi.walks k b curr rest (by rw [← hsync]; exact hk) m hm

theorem InvAt.sync {H κ : Type} [DecidableEq κ] {id : H → BitVec 64} {s : State H κ}
    {ns : List Address} (hi : InvAt id s ns) {a : Rcu.Act Address κ} {r : Rcu.State Address κ}
    (ha : readerOf a = none) (hst : Rcu.step ns s.rcu a = some r) :
    InvAt id { s with rcu := r } ns := by
  obtain ⟨hd,hr,hwait⟩ := step_sync ha hst
  have hok : Rcu.Timely s.rcu a := by cases a <;> trivial
  refine ⟨hi.list,hi.ptr,hi.words.step hok hst,fun m hm => ?_,fun k b curr rest hk m hm => ?_⟩
  · exact hi.busy m (by simpa [hd,hr] using hm)
  · rcases hwait k b curr rest hk m hm with hm | ⟨b',curr',rest',hk',hm'⟩
    · exact hm
    · exact hi.walks k b' curr' rest' hk' m hm'

theorem InvAt.step_cases (hi : InvAt id s ns) {e : Act H κ} (hst : step id s e = some t) :
    (∃ a g, e = .registry a ∧ May s a ∧ RcuRegistry.step (threads id) s.reg a = some g ∧
      t = ⟨g,atomicInit s.rcu a⟩) ∨
    (∃ h n a r, e = .read h n a ∧ s.reg.pc h = .idle ∧ s.reg.ptr h = some n ∧
      readerOf a = some n ∧ Rcu.step ns s.rcu a = some r ∧ t = { s with rcu := r }) ∨
    ∃ a fuel r, e = .sync a fuel ∧ readerOf a = none ∧ Rcu.step ns s.rcu a = some r ∧
      t = { s with rcu := r } := by
  cases e with
  | registry a =>
    simp only [step] at hst
    split at hst
    next hmay =>
      obtain ⟨g,hg,rfl⟩ := Option.map_eq_some_iff.mp hst
      exact .inl ⟨a,g,rfl,hmay,hg,rfl⟩
    next => cases hst
  | read h n a =>
    simp only [step] at hst
    split at hst
    next hh =>
      obtain ⟨r,hr,rfl⟩ := Option.map_eq_some_iff.mp hst
      rw [step_nodes hh.2.2] at hr
      exact .inr (.inl ⟨h,n,a,r,rfl,hh.1,hh.2.1,hh.2.2,hr,rfl⟩)
    next => cases hst
  | sync a fuel =>
    simp only [step] at hst
    split at hst
    next ha =>
      obtain ⟨xs,hx,hst⟩ := Option.bind_eq_some_iff.mp hst
      obtain ⟨r,hr,rfl⟩ := Option.map_eq_some_iff.mp hst
      rw [nodesFrom_eq hi.list.path hx] at hr
      exact .inr (.inr ⟨a,fuel,r,rfl,ha,hr,rfl⟩)
    next => cases hst

theorem ReadersInv.step {e : Act H κ} (hi : ReadersInv id s) (hok : Proper id s e)
    (hst : RcuReaders.step id s e = some t) : ReadersInv id t := by
  obtain ⟨ns,hi⟩ := hi
  rcases hi.step_cases hst with ⟨a,g,rfl,hmay,hg,rfl⟩ | ⟨h,n,a,r,rfl,hpc,hp,ha,hr,rfl⟩ |
    ⟨a,fuel,r,rfl,ha,hr,rfl⟩
  · exact hi.registry hok hmay hg
  · exact ⟨ns,hi.read hok hpc hp ha hr⟩
  · exact ⟨ns,hi.sync ha hr⟩

theorem ReadersInv.init {H κ : Type} (id : H → BitVec 64) (next : Address → Option Address)
    (node : Address → RcuRegistry.Node) (allocated : Finset Address) :
    ReadersInv id (RcuReaders.init id next node allocated : State H κ) := by
  refine ⟨[],RcuRegistry.Inv.init _ next node allocated _,fun h n hp => ?_,Rcu.Inv.init,
    fun n hn => ?_,fun k b curr rest hk => ?_⟩
  · simp [RcuReaders.init,RcuRegistry.init] at hp
  · simp [RcuReaders.init,Rcu.init] at hn
  · cases hk

theorem InvAt.kept {H κ : Type} {id : H → BitVec 64} {s : State H κ} {ns : List Address}
    (hi : InvAt id s ns) :
    Kept s where
  grace k hk n := hi.graceInv.noneOwed hk n
  walks := ⟨ns,hi.list.exact,hi.walks⟩
  inUse n hn := by
    obtain ⟨h,hp,_,hg,hmem⟩ := hi.inUse (.inl hn)
    exact ⟨hi.list.exact.allocated n hmem,h,hp,hg,fun g hgp => hi.own hgp hp⟩

/-- In every run in which the threads have different ids, leave outside of their sections and
publish their phase in time, whenever they come and go. -/
theorem kept_of_proper {next : Address → Option Address} {node : Address → RcuRegistry.Node}
    {allocated : Finset Address}
    (hr : Reach (step id) (Proper id) (init id next node allocated) s) : Kept s := by
  obtain ⟨ns,hi⟩ : ReadersInv id s := by
    apply hr.invariant (I:=ReadersInv id) (.init id next node allocated)
    intro t e u hi hok hst
    exact hi.step hok hst
  exact hi.kept

end Run

section Runs

def twoIds : Bool → BitVec 64 := RcuRegistry.distinctIds.id

def noThread : State Bool Unit := init twoIds (fun _ => none) (fun _ => ⟨0,0⟩) ∅

/-- The calls of a thread that adds its node, the list being shorter than `fuel`. -/
def register (h : Bool) (n : Address) (fuel : ℕ) : List (Act Bool Unit) :=
  [.registry (.init h),.registry (.malloc h (some n)),.registry (.add h n fuel),
    .registry (.assign h n)]

def enterSection (h : Bool) (n : Address) (gp : Rcu.Word) : List (Act Bool Unit) :=
  [.read h n (.lockLoad n),.read h n (.lockRead n 0),.read h n (.lockStore n gp)]

def leaveSection (h : Bool) (n : Address) (gp : Rcu.Word) : List (Act Bool Unit) :=
  [.read h n (.unlockLoad n),.read h n (.unlockAdd n gp)]

def syncOne (n : Address) (gp : Rcu.Word) : List (Act Bool Unit) :=
  [.sync (.waitPass () false gp n []) 2,.sync (.waitDone () false gp) 2,.sync (.readFlip () gp) 2,
    .sync (.writeFlip () gp gp) 2,.sync (.waitPass () true gp n []) 2,
    .sync (.waitDone () true gp) 2,.sync (.syncUnlock ()) 2]

/-- A synchronizer waits for the section of the first thread, which then leaves; the second
thread gets the memory of its node. -/
def comeAndGo : List (Act Bool Unit) := List.flatten
  [register false RcuRegistry.nodeA 1,enterSection false RcuRegistry.nodeA Rcu.gpCount,
    [.sync (.syncCall ()) 2,.sync (.syncLock ()) 2,.sync (.syncRead ()) 2,
      .sync (.waitAgain () false Rcu.gpCount RcuRegistry.nodeA []) 2,.registry (.init true)],
    leaveSection false RcuRegistry.nodeA Rcu.gpCount,syncOne RcuRegistry.nodeA Rcu.gpCount,
    [.registry (.exit false),.registry (.del false 2),.registry (.free false RcuRegistry.nodeA)],
    [.registry (.malloc true (some RcuRegistry.nodeA)),.registry (.add true RcuRegistry.nodeA 1),
      .registry (.assign true RcuRegistry.nodeA)],
    enterSection true RcuRegistry.nodeA (Rcu.gpCount ^^^ Rcu.gpCtrPhase)]

theorem kept_of_comeAndGo : ∃ s, Reach (step twoIds) (Proper twoIds) noThread s ∧
    s.rcu.sync () = .ret ∧ s.reg.ptr true = some RcuRegistry.nodeA ∧
    s.rcu.depth RcuRegistry.nodeA = 1 ∧ Kept s := by
  have hs : ∃ s, exec (restrict (step twoIds) (Proper twoIds)) noThread comeAndGo = some s ∧
      s.rcu.sync () = .ret ∧ s.reg.ptr true = some RcuRegistry.nodeA ∧
      s.rcu.depth RcuRegistry.nodeA = 1 := ⟨_,rfl,rfl,rfl,rfl⟩
  obtain ⟨s,hs,hret,hp,hd⟩ := hs
  have hreach := reach_of_exec_restrict hs
  exact ⟨s,hreach,hret,hp,hd,kept_of_proper hreach⟩

end Runs

section Sections

/-- What the users of the sections see: threads, not nodes. -/
def label (s : State H κ) : Act H κ → Option (Grace.Event H κ)
  | .registry _ => none
  | .read h _ a => (Rcu.label s.rcu a).bind fun
    | .enter _ => some (.enter h)
    | .leave _ => some (.leave h)
    | _ => none
  | .sync a _ => (Rcu.label s.rcu a).bind fun
    | .call k => some (.call k)
    | .ret k => some (.ret k)
    | _ => none

def toGrace (s : State H κ) : Grace.State H κ := (Rcu.toGrace s.rcu).pull s.reg.ptr

theorem InvAt.toGrace_registry {H κ : Type} [DecidableEq H] {id : H → BitVec 64} {s : State H κ}
    {ns : List Address} (hi : InvAt id s ns) {a : RcuRegistry.Act H}
    {g : RcuRegistry.State H} (hok : Proper id s (.registry a)) (hmay : May s a)
    (hst : RcuRegistry.step (threads id) s.reg a = some g) :
    toGrace (⟨g,atomicInit s.rcu a⟩ : State H κ) = toGrace s := by
  obtain ⟨ns',hi'⟩ := hi.registry hok hmay hst
  have hptr : ∀ h n, 0 < s.rcu.depth n → (g.ptr h = some n ↔ s.reg.ptr h = some n) := by
    intro h n hn
    by_cases hh : h = holderOf a
    · subst hh
      obtain ⟨j,hp,_⟩ := hi.inUse (.inl hn)
      have hj : j ≠ holderOf a := by
        intro hj
        exact hi.still hok hmay hst (.inl hn) (hj ▸ hp)
      have hp' : g.ptr j = some n := (registry_other hst hj).2.1.trans hp
      constructor
      · intro hg
        exact absurd (hi'.own hp' hg) hj
      · intro hs
        exact absurd (hi.own hp hs) hj
    · rw [(registry_other hst hh).2.1]
  have howed : ∀ k n, s.rcu.owed k n = true → 0 < s.rcu.depth n := hi.words.owed
  apply Grace.State.ext
  · ext h
    simp only [toGrace,Grace.State.pull,Rcu.toGrace,atomicInit_depth,Set.mem_ofPred_eq]
    exact exists_congr fun n => and_congr_left fun hn => hptr h n hn
  · simp [toGrace,Grace.State.pull,Rcu.toGrace]
  · funext k
    ext h
    simp only [toGrace,Grace.State.pull,Rcu.toGrace,atomicInit_owed,Set.mem_ofPred_eq]
    exact exists_congr fun n => and_congr_left fun hn => hptr h n (howed k n hn)

/-- The whole of it simulates the sections of the threads. -/
theorem simulates (id : H → BitVec 64) : Simulation (step id) (Proper id) label Grace.step toGrace
    (ReadersInv (κ:=κ) id) where
  keeps _ _ _ hi hok hst := hi.step hok hst
  silent s e t hi hok hst hl := by
    obtain ⟨ns,hi⟩ := hi
    rcases hi.step_cases hst with ⟨a,g,rfl,hmay,hg,rfl⟩ | ⟨h,n,a,r,rfl,hpc,hp,ha,hr,rfl⟩ |
      ⟨a,fuel,r,rfl,ha,hr,rfl⟩
    · exact hi.toGrace_registry hok hmay hg
    · have hs : Rcu.label s.rcu a = none := by
        cases a with
        | lockStore => cases hl
        | unlockAdd q w =>
          by_cases hd : s.rcu.depth q = 1 <;> simp_all [label,Rcu.label]
        | syncCall | syncReturn => cases ha
        | _ => rfl
      rw [toGrace,toGrace,Rcu.toGrace_silent hi.words hr hs]
    · have hs : Rcu.label s.rcu a = none := by
        cases a with
        | lockStore | unlockAdd => cases ha
        | syncCall | syncReturn => cases hl
        | _ => rfl
      rw [toGrace,toGrace,Rcu.toGrace_silent hi.words hr hs]
  shown s e t b hi hok hst hl := by
    obtain ⟨ns,hi⟩ := hi
    rcases hi.step_cases hst with ⟨a,g,rfl,hmay,hg,rfl⟩ | ⟨h,n,a,r,rfl,hpc,hp,ha,hr,rfl⟩ |
      ⟨a,fuel,r,rfl,ha,hr,rfl⟩
    · cases hl
    · obtain ⟨e,he,hb⟩ := Option.bind_eq_some_iff.mp hl
      have hg := Rcu.toGrace_shown hi.graceInv hr he
      have hone : ∀ g, s.reg.ptr g = some n ↔ g = h := fun g =>
        ⟨fun hg => hi.own hg hp,fun hg => hg ▸ hp⟩
      cases e with
      | enter q =>
        cases hb
        obtain rfl : q = n := by
          cases a <;> simp_all [Rcu.label,readerOf]
        exact Grace.step_pull_enter hone hg
      | leave q =>
        cases hb
        obtain rfl : q = n := by
          cases a <;> simp_all [Rcu.label,readerOf]
        exact Grace.step_pull_leave hone hg
      | call k | ret k => cases hb
    · obtain ⟨e,he,hb⟩ := Option.bind_eq_some_iff.mp hl
      have hg := Rcu.toGrace_shown hi.graceInv hr he
      cases e with
      | enter q | leave q => cases hb
      | call k =>
        cases hb
        exact Grace.step_pull_call hg
      | ret k =>
        cases hb
        exact Grace.step_pull_ret hg

@[simp] theorem toGrace_init {H κ : Type} [DecidableEq κ] (id : H → BitVec 64)
    (next : Address → Option Address)
    (node : Address → RcuRegistry.Node) (allocated : Finset Address) :
    toGrace (init id next node allocated : State H κ) = Grace.init H κ := by
  apply Grace.State.ext
  · simp [toGrace,Grace.State.pull,init,Grace.init]
  · simp [toGrace,Grace.State.pull,init,Grace.init]
  · funext k
    simp [toGrace,Grace.State.pull,init,Grace.init]

/-- The pointer of `src/rcu/test.c`, from the start of its threads to their end: as over the
words and phases alone, with nodes that are added, removed and allocated again meanwhile. -/
theorem reclaims_of_registered {next : Address → Option Address}
    {node : Address → RcuRegistry.Node} {allocated : Finset Address} {u : RcuPointer.Users H κ}
    (hr : Reach (compose (step id) label RcuPointer.react RcuPointer.own)
      (both label (Proper id) Anything)
      (init id next node allocated,RcuPointer.Users.init H κ) (s,u)) :
    Kept s ∧ RcuPointer.Reclaims u := by
  obtain ⟨⟨ns,hi⟩,hg⟩ := (simulates id).compose (.init id next node allocated) hr
  rw [toGrace_init] at hg
  exact ⟨hi.kept,(RcuPointer.reach_inv hg).reclaims⟩

def come : List (Act Bool Unit) :=
  register false RcuRegistry.nodeA 1 ++ enterSection false RcuRegistry.nodeA Rcu.gpCount

def waitForLeaving : List (Act Bool Unit) := List.flatten
  [[.sync (.syncCall ()) 2,.sync (.syncLock ()) 2,.sync (.syncRead ()) 2],
    leaveSection false RcuRegistry.nodeA Rcu.gpCount,syncOne RcuRegistry.nodeA Rcu.gpCount,
    [.registry (.exit false),.registry (.del false 2),.registry (.free false RcuRegistry.nodeA),
      .sync (.syncReturn ()) 1]]

/-- The thread has found object 0; the writer, who has put object 1 in its place, frees object 0
after its call. -/
def comeAndReplace : List (Act Bool Unit ⊕ RcuPointer.UserAct Bool Unit) := List.flatten
  [come.map .inl,
    [.inr (.dereference false),.inr (.write ()),.inr (.write ()),.inr (.write ()),
      .inr (.write ())],
    waitForLeaving.map .inl,[.inr (.write ())]]

theorem reclaims_of_comeAndReplace : ∃ (s : State Bool Unit) (u : RcuPointer.Users Bool Unit),
    Reach (compose (step twoIds) label RcuPointer.react RcuPointer.own)
      (both label (Proper twoIds) Anything) (noThread,RcuPointer.Users.init Bool Unit) (s,u) ∧
    s.reg.ptr false = none ∧ u.data = 1 ∧ u.live 0 = false ∧ Kept s ∧ RcuPointer.Reclaims u := by
  have hs : ∃ s u, exec (restrict (compose (step twoIds) label RcuPointer.react RcuPointer.own)
      (both label (Proper twoIds) Anything)) (noThread,RcuPointer.Users.init Bool Unit)
      comeAndReplace = some (s,u) ∧ s.reg.ptr false = none ∧ u.data = 1 ∧ u.live 0 = false :=
    ⟨_,_,rfl,rfl,rfl,rfl⟩
  obtain ⟨s,u,hs,hp,hd,hl⟩ := hs
  have hreach := reach_of_exec_restrict hs
  obtain ⟨hk,hr⟩ := reclaims_of_registered hreach
  exact ⟨s,u,hreach,hp,hd,hl,hk,hr⟩

end Sections

end RcuReaders
end Mthpc
