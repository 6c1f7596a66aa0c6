import Mthpc.RcuReaders
import Mthpc.ScopedLock

/-!
# Scoped sections of registered threads

`__mthpc_thread_worker` around a function of scoped code: a thread registers, runs its code and
leaves. The `rcu` guards are calls of `mthpc_rcu_read_lock` and `mthpc_rcu_read_unlock` on the
node of the thread, with synchronizers and other threads at work meanwhile. What the threads
have to promise elsewhere, to leave outside of sections, their scopes promise here.
-/
namespace Mthpc
namespace ScopedReaders

open StepSystem Scopes ScopedLock

/-- `mthpc_rcu_thread_init`, `group->func` and `mthpc_rcu_thread_exit`. -/
inductive Phase
  | fresh | registers | func | leaves
  deriving DecidableEq

structure Users (H Λ δ α : Type) where
  phase : H → Phase
  threads : ScopedLock.State H Λ δ α

/-- What a thread sees of its calls: their first steps and their ends. -/
inductive Call (H : Type)
  | begins (h : H) | ready (h : H) | leaves (h : H)
  | locks (h : H) | locked (h : H) | unlocks (h : H) | unlocked (h : H)

/-- The caller goes on without a node where there is no memory for one. -/
def label {H κ : Type} (_ : RcuReaders.State H κ) : RcuReaders.Act H κ → Option (Call H)
  | .registry (.init h) => some (.begins h)
  | .registry (.malloc h none) | .registry (.found h _ _) | .registry (.assign h _) =>
    some (.ready h)
  | .registry (.exit h) => some (.leaves h)
  | .read h _ (.lockLoad _) => some (.locks h)
  | .read h _ (.lockStore _ _) | .read h _ (.lockAdd _ _) => some (.locked h)
  | .read h _ (.unlockLoad _) => some (.unlocks h)
  | .read h _ (.unlockAdd _ _) => some (.unlocked h)
  | _ => none

/-- The next thing that the thread does is to open, or to close, an `rcu` guard. -/
def atLock {Λ α : Type} : List (Frame (Guard Λ) α) → Bool
  | ⟨_,.guard .rcu _⟩::_ => true
  | _ => false

def atUnlock {Λ α : Type} : List (Frame (Guard Λ) α) → Bool
  | ⟨.rcu::_,.exit _⟩::_ => true
  | _ => false

def Users.init {H Λ δ α : Type} (code : H → Code (Guard Λ) α) (d : δ) : Users H Λ δ α where
  phase _ := .fresh
  threads := ScopedLock.init code d

variable {H Λ δ α κ : Type} [DecidableEq H] [DecidableEq Λ] [DecidableEq κ]

def Users.goto (u : Users H Λ δ α) (h : H) (p : Phase) : Users H Λ δ α :=
  { u with phase := Function.update u.phase h p }

/-- The step of the code that a condition on what comes next allows. -/
def Users.advance (act : δ → H → α → δ) (u : Users H Λ δ α) (h : H) (b : Bool)
    (p : List (Frame (Guard Λ) α) → Bool) : Option (Users H Λ δ α) :=
  if u.phase h = .func ∧ p (u.threads.frames h) = true then
    (ScopedLock.step act u.threads (h,b)).map fun t => { u with threads := t }
  else none

def react (act : δ → H → α → δ) (u : Users H Λ δ α) : Call H → Option (Users H Λ δ α)
  | .begins h => guarded (u.phase h = .fresh) (u.goto h .registers)
  | .ready h => guarded (u.phase h = .registers) (u.goto h .func)
  | .leaves h => guarded (u.phase h = .func ∧ u.threads.frames h = []) (u.goto h .leaves)
  | .locks h => guarded (u.phase h = .func ∧ atLock (u.threads.frames h) = true) u
  | .locked h => u.advance act h true atLock
  | .unlocks h => guarded (u.phase h = .func ∧ atUnlock (u.threads.frames h) = true) u
  | .unlocked h => u.advance act h true atUnlock

/-- What a thread does between its calls. -/
def own (act : δ → H → α → δ) (u : Users H Λ δ α) (m : H × Bool) : Option (Users H Λ δ α) :=
  u.advance act m.1 m.2 fun fs => !atLock fs && !atUnlock fs

/-- As `RcuReaders.Proper`, with nothing said about where a thread leaves. -/
def Fair (id : H → BitVec 64) (s : RcuReaders.State H κ) : RcuReaders.Act H κ → Prop
  | .registry a => RcuRegistry.Distinct (RcuReaders.threads id) s.reg a
  | .read _ _ a => Rcu.Timely s.rcu a
  | .sync _ _ => True

instance [Fintype H] (id : H → BitVec 64) (s : RcuReaders.State H κ) :
    ∀ a, Decidable (Fair id s a)
  | .registry a =>
    inferInstanceAs (Decidable (RcuRegistry.Distinct (RcuReaders.threads id) s.reg a))
  | .read _ _ a => inferInstanceAs (Decidable (Rcu.Timely s.rcu a))
  | .sync _ _ => inferInstanceAs (Decidable True)

/-- What the threads have of their scopes. -/
structure Disciplined (s : RcuReaders.State H κ) (u : Users H Λ δ α) : Prop where
  kept : RcuReaders.Kept s
  locks : LocksHeld u.threads
  sections : ∀ h n, s.reg.ptr h = some n → s.reg.pc h = .idle →
    s.rcu.depth n = (held (u.threads.frames h)).count .rcu
  ends : ∀ h, u.phase h = .leaves → u.threads.frames h = []

/-- The threads outside of their functions have no scope open. -/
structure ScopesInv (s : RcuReaders.State H κ) (u : Users H Λ δ α) : Prop where
  locks : LocksHeld u.threads
  sections : ∀ h n, s.reg.ptr h = some n → s.reg.pc h = .idle →
    s.rcu.depth n = (held (u.threads.frames h)).count .rcu
  outside : ∀ h, u.phase h ≠ .func → held (u.threads.frames h) = []
  ends : ∀ h, u.phase h = .leaves → u.threads.frames h = []

variable {act : δ → H → α → δ} {u v : Users H Λ δ α} {h : H} {b : Bool}
  {p : List (Frame (Guard Λ) α) → Bool}

section Code

theorem advance_cases (hst : u.advance act h b p = some v) :
    u.phase h = .func ∧ v.phase = u.phase ∧ (∀ g, g ≠ h → v.threads.frames g = u.threads.frames g) ∧
      p (u.threads.frames h) = true ∧ (LocksHeld u.threads → LocksHeld v.threads) ∧
      ∃ e, next b (u.threads.frames h) = some (e,v.threads.frames h) := by
  unfold Users.advance at hst
  split at hst
  next hc =>
    obtain ⟨t,ht,rfl⟩ := Option.map_eq_some_iff.mp hst
    obtain ⟨e,fs,hn,hf,_⟩ := ScopedLock.step_cases ht
    refine ⟨hc.1,rfl,fun g hg => ?_,hc.2,fun hl => hl.step ht,e,?_⟩
    · rw [hf,Function.update_of_ne hg]
    · rw [hf,Function.update_self]
      exact hn
  next => cases hst

variable {fs fs' : List (Frame (Guard Λ) α)} {e : Option (Event (Guard Λ) α)}

theorem held_of_atLock {Λ α : Type} {b : Bool} {fs fs' : List (Frame (Guard Λ) α)}
    {e : Option (Event (Guard Λ) α)} (ha : atLock fs = true) (hn : next b fs = some (e,fs')) :
    held fs' = .rcu::held fs := by
  match fs, ha with
  | ⟨gs,.guard .rcu rest⟩::fs, _ =>
    cases hn
    rfl

theorem held_of_atUnlock {Λ α : Type} {b : Bool} {fs fs' : List (Frame (Guard Λ) α)}
    {e : Option (Event (Guard Λ) α)} (ha : atUnlock fs = true) (hn : next b fs = some (e,fs')) :
    held fs = .rcu::held fs' := by
  match fs, ha with
  | ⟨.rcu::gs,.exit n⟩::fs, _ =>
    cases hn
    rfl

theorem count_of_own (hl : atLock fs = false) (hu : atUnlock fs = false)
    (hn : next b fs = some (e,fs')) : (held fs').count .rcu = (held fs).count .rcu := by
  have hm := next_held hn
  cases fs with
  | nil => cases hn
  | cons f fs =>
    obtain ⟨gs,code⟩ := f
    cases code with
    | exit n =>
      cases gs with
      | cons g gs =>
        cases g with
        | rcu => cases hu
        | spinlock l =>
          cases hn
          simp
      | nil => cases n <;> cases hn <;> simp
    | guard g rest =>
      cases g with
      | rcu => cases hl
      | spinlock l =>
        cases hn
        simp
    | act a rest | scope body rest | choose left right rest =>
      cases hn
      simp
    | loop body rest => cases b <;> cases hn <;> simp

end Code

section Steps

variable {id : H → BitVec 64} {s t : RcuReaders.State H κ} {ns : List Address} {n : Address}

theorem assigned {H κ : Type} [DecidableEq H] {id : H → BitVec 64} {s : RcuReaders.State H κ}
    {ns : List Address} {n : Address} (hi : RcuReaders.InvAt id s ns) {a : RcuRegistry.Act H}
    {g : RcuRegistry.State H} (hst : RcuRegistry.step (RcuReaders.threads id) s.reg a = some g)
    (hp : g.ptr (RcuReaders.holderOf a) = some n) (hpc : g.pc (RcuReaders.holderOf a) = .idle) :
    ∃ h, a = .assign h n ∧ s.reg.pc h = .assign n := by
  have hok := hi.list.pc (RcuReaders.holderOf a)
  have hold := hi.ptr (RcuReaders.holderOf a) n
  unfold RcuRegistry.PcOk at hok
  cases a with
  | init h =>
    obtain ⟨_,rfl⟩ := guarded_eq_some.mp hst
    simp [RcuReaders.holderOf] at hpc
  | exit h =>
    obtain ⟨_,rfl⟩ := guarded_eq_some.mp hst
    simp [RcuReaders.holderOf] at hpc
  | malloc h o =>
    cases o with
    | none =>
      obtain ⟨hm,rfl⟩ := guarded_eq_some.mp hst
      simp only [RcuReaders.holderOf,hm] at hok hold
      simpa [hok] using hold hp
    | some m =>
      obtain ⟨_,rfl⟩ := guarded_eq_some.mp hst
      simp [RcuReaders.holderOf] at hpc
  | add h m fuel =>
    simp only [RcuRegistry.step] at hst
    split at hst
    next =>
      obtain ⟨loc,_,rfl⟩ := Option.map_eq_some_iff.mp hst
      cases hr : s.reg.cells.read loc <;> simp [RcuReaders.holderOf,hr] at hpc
    next => cases hst
  | found h m loc =>
    obtain ⟨hm,_⟩ := guarded_eq_some.mp hst
    simp only [RcuReaders.holderOf,hm] at hok
  | assign h m =>
    obtain ⟨hm,rfl⟩ := guarded_eq_some.mp hst
    obtain rfl : m = n := by simpa [RcuReaders.holderOf] using hp
    exact ⟨h,rfl,hm⟩
  | del h fuel =>
    simp only [RcuRegistry.step] at hst
    split at hst
    next =>
      obtain ⟨loc,_,rfl⟩ := Option.map_eq_some_iff.mp hst
      cases hr : s.reg.cells.read loc with
      | none => simp [RcuReaders.holderOf,RcuReaders.threads,hr] at hp
      | some m => simp [RcuReaders.holderOf,hr] at hpc
    next => cases hst
  | free h m =>
    obtain ⟨_,rfl⟩ := guarded_eq_some.mp hst
    simp [RcuReaders.holderOf,RcuReaders.threads] at hp

theorem depth_of_assign {H κ : Type} {h : H} {id : H → BitVec 64} {s : RcuReaders.State H κ}
    {ns : List Address} {n : Address} (hi : RcuReaders.InvAt id s ns) (hpc : s.reg.pc h = .assign n)
    :
    s.rcu.depth n = 0 := by
  by_contra hd
  obtain ⟨g,_,hg,hgiven,_⟩ := hi.inUse (.inl (Nat.pos_of_ne_zero hd))
  have hok := hi.list.pc h
  rw [RcuRegistry.PcOk,hpc] at hok
  obtain rfl : g = h := hi.list.own g h n (.inl hgiven) (.inl hok)
  rw [hg] at hpc
  cases hpc

theorem ScopesInv.goto {H Λ δ α κ : Type} [DecidableEq H] [DecidableEq Λ] {u : Users H Λ δ α}
    {h : H} {s : RcuReaders.State H κ} (hu : ScopesInv s u) {q : Phase}
    (hq : q ≠ .func → held (u.threads.frames h) = [])
    (he : q = .leaves → u.threads.frames h = []) : ScopesInv s (u.goto h q) := by
  refine ⟨hu.locks,hu.sections,fun g hg => ?_,fun g hg => ?_⟩
  · by_cases hgh : g = h
    · subst hgh
      exact hq (by simpa [Users.goto] using hg)
    · exact hu.outside g (by simpa [Users.goto,hgh] using hg)
  · by_cases hgh : g = h
    · subst hgh
      exact he (by simpa [Users.goto] using hg)
    · exact hu.ends g (by simpa [Users.goto,hgh] using hg)

theorem ScopesInv.advance {H Λ δ α κ : Type} [DecidableEq H] [DecidableEq Λ] {act : δ → H → α → δ}
    {u v : Users H Λ δ α} {h : H} {b : Bool} {p : List (Frame (Guard Λ) α) → Bool}
    {s t : RcuReaders.State H κ} (hu : ScopesInv s u) (hst : u.advance act h b p = some v)
    (hs : ∀ n, t.reg.ptr h = some n → t.reg.pc h = .idle →
      t.rcu.depth n = (held (v.threads.frames h)).count .rcu)
    (hother : ∀ g n, g ≠ h → t.reg.ptr g = some n → t.reg.pc g = .idle →
      s.reg.ptr g = some n ∧ s.reg.pc g = .idle ∧ t.rcu.depth n = s.rcu.depth n) :
    ScopesInv t v := by
  obtain ⟨hf,hph,hfr,_,hl,_⟩ := advance_cases hst
  refine ⟨hl hu.locks,fun g n hp hpc => ?_,fun g hg => ?_,fun g hg => ?_⟩
  · by_cases hgh : g = h
    · subst hgh
      exact hs n hp hpc
    · obtain ⟨hp',hpc',hd⟩ := hother g n hgh hp hpc
      rw [hd,hfr g hgh]
      exact hu.sections g n hp' hpc'
  · rw [hph] at hg
    have hgh : g ≠ h := fun hgh => hg (hgh ▸ hf)
    rw [hfr g hgh]
    exact hu.outside g hg
  · rw [hph] at hg
    have hgh : g ≠ h := by
      intro hgh
      rw [hgh,hf] at hg
      cases hg
    rw [hfr g hgh]
    exact hu.ends g hg

theorem ScopesInv.proper (hu : ScopesInv s u) {a : RcuReaders.Act H κ} (hok : Fair id s a)
    (hst : RcuReaders.step id s a = some t) (hr : ∀ c ∈ label s a, (react act u c).isSome) :
    RcuReaders.Proper id s a := by
  cases a with
  | registry a =>
    refine ⟨hok,?_⟩
    cases a with
    | exit h =>
      intro n hn
      simp only [RcuReaders.step] at hst
      split at hst
      next =>
        obtain ⟨g,hg,_⟩ := Option.map_eq_some_iff.mp hst
        obtain ⟨⟨hpc,_⟩,_⟩ := guarded_eq_some.mp hg
        obtain ⟨v,hv⟩ := Option.isSome_iff_exists.mp (hr (.leaves h) rfl)
        obtain ⟨⟨_,hnil⟩,_⟩ := guarded_eq_some.mp hv
        rw [hu.sections h n hn hpc,hnil]
        rfl
      next => cases hst
    | init | malloc | add | found | assign | del | free => trivial
  | read h n a => exact hok
  | sync a fuel => trivial

theorem ScopesInv.registry {H Λ δ α κ : Type} [DecidableEq H] [DecidableEq Λ] {act : δ → H → α → δ}
    {u v : Users H Λ δ α} {id : H → BitVec 64} {s : RcuReaders.State H κ} {ns : List Address}
    (hi : RcuReaders.InvAt id s ns) (hu : ScopesInv s u)
    {a : RcuRegistry.Act H} {g : RcuRegistry.State H}
    (hg : RcuRegistry.step (RcuReaders.threads id) s.reg a = some g)
    (hr : label s (.registry a) = none ∧ v = u ∨
      ∃ c, label s (.registry a) = some c ∧ react act u c = some v) :
    ScopesInv ⟨g,RcuReaders.atomicInit s.rcu a⟩ v := by
  have hv : ScopesInv s v ∧ ∀ h n, a = .assign h n → held (v.threads.frames h) = [] := by
    have hready : ∀ {h}, react act u (.ready h) = some v →
        ScopesInv s v ∧ held (v.threads.frames h) = [] := by
      intro h hc
      obtain ⟨hph,rfl⟩ := guarded_eq_some.mp hc
      refine ⟨hu.goto (fun hne => absurd rfl hne) (fun he => by cases he),?_⟩
      exact hu.outside h (by rw [hph]; decide)
    rcases hr with ⟨hl,rfl⟩ | ⟨c,hl,hc⟩
    · refine ⟨hu,fun h n ha => ?_⟩
      subst ha
      cases hl
    · cases a with
      | init h =>
        cases hl
        obtain ⟨hph,rfl⟩ := guarded_eq_some.mp hc
        refine ⟨hu.goto (fun _ => hu.outside h ?_) (fun he => by cases he),by simp⟩
        rw [hph]
        decide
      | malloc h o =>
        cases o with
        | none =>
          cases hl
          exact ⟨(hready hc).1,by simp⟩
        | some m => cases hl
      | found h m loc =>
        cases hl
        exact ⟨(hready hc).1,by simp⟩
      | assign h m =>
        cases hl
        refine ⟨(hready hc).1,fun h' n' ha => ?_⟩
        cases ha
        exact (hready hc).2
      | exit h =>
        cases hl
        obtain ⟨⟨_,hnil⟩,rfl⟩ := guarded_eq_some.mp hc
        exact ⟨hu.goto (fun _ => by rw [hnil]; rfl) fun _ => hnil,by simp⟩
      | add | del | free => cases hl
  refine ⟨hv.1.locks,fun h n hp hpc => ?_,hv.1.outside,hv.1.ends⟩
  rw [RcuReaders.atomicInit_depth]
  by_cases hh : h = RcuReaders.holderOf a
  · subst hh
    obtain ⟨h,rfl,hm⟩ := assigned hi hg hp hpc
    have hnil := hv.2 h n rfl
    simp only [RcuReaders.holderOf]
    rw [depth_of_assign hi hm,hnil]
    rfl
  · obtain ⟨h1,h2,_⟩ := RcuReaders.registry_other hg hh
    exact hv.1.sections h n (h2.symm.trans hp) (h1.symm.trans hpc)

theorem ScopesInv.read (hi : RcuReaders.InvAt id s ns) (hu : ScopesInv s u)
    {a : Rcu.Act Address κ} {r : Rcu.State Address κ} (hp : s.reg.ptr h = some n)
    (hpc : s.reg.pc h = .idle) (ha : RcuReaders.readerOf a = some n)
    (hst : Rcu.step ns s.rcu a = some r)
    (hr : label s (.read h n a) = none ∧ v = u ∨
      ∃ c, label s (.read h n a) = some c ∧ react act u c = some v) :
    ScopesInv { s with rcu := r } v := by
  have hdepth : ∀ m, m ≠ n → r.depth m = s.rcu.depth m := fun m hm =>
    ((RcuReaders.step_section ha hst).2 m hm).1
  have hsame : r.depth n = s.rcu.depth n → v = u → ScopesInv { s with rcu := r } v := by
    intro hd hv
    subst hv
    refine ⟨hu.locks,fun g m hg hgpc => ?_,hu.outside,hu.ends⟩
    rw [show r.depth m = s.rcu.depth m by
      by_cases hm : m = n
      · rw [hm,hd]
      · exact hdepth m hm]
    exact hu.sections g m hg hgpc
  have hmove : ∀ {q}, u.advance act h true q = some v →
      r.depth n = (held (v.threads.frames h)).count .rcu → ScopesInv { s with rcu := r } v := by
    intro q hq hd
    refine hu.advance hq (fun m hm _ => ?_) fun g m hgh hg hgpc => ⟨hg,hgpc,hdepth m fun hm => ?_⟩
    · obtain rfl : m = n := Option.some.inj (hm.symm.trans hp)
      exact hd
    · subst hm
      exact hgh (hi.own hg hp)
  have hold := hu.sections h n hp hpc
  cases a with
  | lockLoad q | unlockLoad q =>
    obtain ⟨_,rfl⟩ := guarded_eq_some.mp hst
    rcases hr with ⟨hl,_⟩ | ⟨c,hl,hc⟩
    · cases hl
    · cases hl
      exact hsame rfl (guarded_eq_some.mp hc).2.symm
  | lockRead q w =>
    obtain ⟨_,rfl⟩ := guarded_eq_some.mp hst
    rcases hr with ⟨_,hv⟩ | ⟨c,hl,_⟩
    · exact hsame rfl hv
    · cases hl
  | lockStore q w | lockAdd q w =>
    obtain rfl : q = n := by simpa [RcuReaders.readerOf] using ha
    obtain ⟨_,rfl⟩ := guarded_eq_some.mp hst
    rcases hr with ⟨hl,_⟩ | ⟨c,hl,hc⟩
    · cases hl
    · cases hl
      obtain ⟨_,_,_,hat,_,e,hn⟩ := advance_cases hc
      refine hmove hc ?_
      rw [held_of_atLock hat hn]
      simp [hold]
  | unlockAdd q w =>
    obtain rfl : q = n := by simpa [RcuReaders.readerOf] using ha
    obtain ⟨_,rfl⟩ := guarded_eq_some.mp hst
    rcases hr with ⟨hl,_⟩ | ⟨c,hl,hc⟩
    · cases hl
    · cases hl
      obtain ⟨_,_,_,hat,_,e,hn⟩ := advance_cases hc
      refine hmove hc ?_
      rw [held_of_atUnlock hat hn] at hold
      simp [hold]
  | syncCall | syncLock | syncRead | waitPass | waitAgain | waitDone | readFlip | writeFlip
  | syncUnlock | syncReturn => cases ha

theorem ScopesInv.sync (hu : ScopesInv s u) {a : Rcu.Act Address κ} {r : Rcu.State Address κ}
    (ha : RcuReaders.readerOf a = none) (hst : Rcu.step ns s.rcu a = some r) :
    ScopesInv { s with rcu := r } u := by
  refine ⟨hu.locks,fun g m hg hgpc => ?_,hu.outside,hu.ends⟩
  rw [(RcuReaders.step_sync ha hst).1]
  exact hu.sections g m hg hgpc

theorem ScopesInv.own {H Λ δ α κ : Type} [DecidableEq H] [DecidableEq Λ] {act : δ → H → α → δ}
    {u v : Users H Λ δ α} {s : RcuReaders.State H κ} (hu : ScopesInv s u) {m : H × Bool}
    (hst : own act u m = some v) : ScopesInv s v := by
  obtain ⟨h,b⟩ := m
  have hst' : u.advance act h b (fun fs => !atLock fs && !atUnlock fs) = some v := hst
  obtain ⟨_,_,_,hat,_,e,hn⟩ := advance_cases hst'
  obtain ⟨hl,hul⟩ := Bool.and_eq_true_iff.mp hat
  have hcount := count_of_own (by simpa using hl) (by simpa using hul) hn
  refine hu.advance hst' (fun n hp hpc => ?_) fun g n _ hp hpc => ⟨hp,hpc,rfl⟩
  rw [hcount]
  exact hu.sections h n hp hpc

end Steps

section Runs

variable {id : H → BitVec 64} {s : RcuReaders.State H κ}

/-- Over the whole of registration, sections and synchronizers, with threads that are fair and run
scoped code: they leave outside of sections, so that grace periods are kept; a spinlock is held
by the thread with an open guard for it; and the sections of a thread are its open guards. -/
theorem disciplined_of_scopes {code : H → Code (Guard Λ) α} {d : δ}
    {next : Address → Option Address} {node : Address → RcuRegistry.Node}
    {allocated : Finset Address}
    (hr : Reach (compose (RcuReaders.step id) label (react act) (own act))
      (both label (Fair id) Anything) (RcuReaders.init id next node allocated,Users.init code d)
      (s,u)) : Disciplined s u := by
  have hinv : RcuReaders.ReadersInv id s ∧ ScopesInv s u := by
    refine hr.invariant (I:=fun p => RcuReaders.ReadersInv id p.1 ∧ ScopesInv p.1 p.2)
      ⟨.init id next node allocated,?_⟩ ?_
    · refine ⟨.init code d,fun h n hp => ?_,fun h _ => rfl,fun h hl => by cases hl⟩
      simp [RcuReaders.init,RcuRegistry.init,RcuReaders.threads] at hp
    · rintro ⟨s,u⟩ e ⟨t,v⟩ ⟨hi,hu⟩ hok hst
      rcases compose_cases hst with ⟨a,t',rfl,ht,hcase⟩ | ⟨m,v',rfl,hm,he⟩
      · have hreact : label s a = none ∧ v = u ∨
            ∃ c, label s a = some c ∧ react act u c = some v := by
          rcases hcase with ⟨hl,he⟩ | ⟨c,v',hl,hc,he⟩ <;> cases he
          · exact .inl ⟨hl,rfl⟩
          · exact .inr ⟨c,hl,hc⟩
        obtain rfl : t' = t := by
          rcases hcase with ⟨_,he⟩ | ⟨_,_,_,_,he⟩ <;> cases he <;> rfl
        have hproper : RcuReaders.Proper id s a := by
          have hsome : ∀ c ∈ label s a, (react act u c).isSome := by
            intro c hc
            rcases hreact with ⟨hl,_⟩ | ⟨c',hl,hv⟩
            · rw [hl] at hc
              cases hc
            · rw [hl] at hc
              cases hc
              rw [hv]
              rfl
          exact hu.proper hok.1 ht hsome
        refine ⟨hi.step hproper ht,?_⟩
        obtain ⟨ns,hi⟩ := hi
        rcases hi.step_cases ht with ⟨a,g,rfl,_,hg,rfl⟩ | ⟨h,n,a,r,rfl,hpc,hp,ha,hr,rfl⟩ |
          ⟨a,fuel,r,rfl,ha,hr,rfl⟩
        · exact hu.registry hi hg hreact
        · exact hu.read hi hp hpc ha hr hreact
        · rcases hreact with ⟨_,rfl⟩ | ⟨c,hl,_⟩
          · exact hu.sync ha hr
          · cases hl
      · cases he
        exact ⟨hi,hu.own hm⟩
  obtain ⟨⟨ns,hi⟩,hu⟩ := hinv
  exact ⟨hi.kept,hu.locks,hu.sections,hu.ends⟩

/-- One thread runs `worker`; a synchronizer waits for its scope, and it leaves for good. -/
def scopedRun : List (RcuReaders.Act Bool Unit ⊕ Bool × Bool) := List.flatten
  [(RcuReaders.register false RcuRegistry.nodeA 1).map .inl,[.inr (false,true)],
    (RcuReaders.enterSection false RcuRegistry.nodeA Rcu.gpCount).map .inl,
    [.inr (false,true),.inr (false,true)],
    [.inl (.sync (.syncCall ()) 2),.inl (.sync (.syncLock ()) 2),.inl (.sync (.syncRead ()) 2)],
    [.inr (false,true),.inr (false,true)],
    (RcuReaders.leaveSection false RcuRegistry.nodeA Rcu.gpCount).map .inl,
    (RcuReaders.syncOne RcuRegistry.nodeA Rcu.gpCount).map .inl,
    [.inr (false,true),.inr (false,true),.inl (.registry (.exit false)),
      .inl (.registry (.del false 2)),.inl (.registry (.free false RcuRegistry.nodeA))]]

def workers : Users Bool Unit (Counter Bool) Access := .init (fun _ => worker) ⟨0,fun _ => 0⟩

theorem disciplined_of_scopedRun : ∃ (s : RcuReaders.State Bool Unit)
    (u : Users Bool Unit (Counter Bool) Access),
    Reach (compose (RcuReaders.step RcuReaders.twoIds) label (react access) (own access))
      (both label (Fair RcuReaders.twoIds) Anything) (RcuReaders.noThread,workers) (s,u) ∧
    s.rcu.sync () = .ret ∧ u.phase false = .leaves ∧ u.threads.data.cnt = 1 ∧ Disciplined s u := by
  have hs : ∃ s u, exec (restrict
      (compose (RcuReaders.step RcuReaders.twoIds) label (react access) (own access))
      (both label (Fair RcuReaders.twoIds) Anything)) (RcuReaders.noThread,workers) scopedRun =
      some (s,u) ∧ s.rcu.sync () = .ret ∧ u.phase false = .leaves ∧ u.threads.data.cnt = 1 :=
    ⟨_,_,rfl,rfl,rfl,rfl⟩
  obtain ⟨s,u,hs,hret,hph,hcnt⟩ := hs
  have hreach := reach_of_exec_restrict hs
  exact ⟨s,u,hreach,hret,hph,hcnt,disciplined_of_scopes hreach⟩

end Runs

end ScopedReaders
end Mthpc
