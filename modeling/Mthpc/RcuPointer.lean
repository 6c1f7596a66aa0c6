import Mthpc.RcuGrace

/-!
# Replacing a pointer under RCU

`mthpc_rcu_dereference` and `mthpc_rcu_replace_pointer` of `include/mthpc/rcu.h`, used as
`read_func` and `write_func` of `src/rcu/test.c` use them. A reader dereferences the pointer
inside a section, any number of times, and uses what it found until the section is left; a
writer allocates an object, exchanges the pointer with it under the mutex, calls
`mthpc_synchronize_rcu` and frees the old object. Objects are named by their allocation.
-/
namespace Mthpc
namespace RcuPointer

open StepSystem

variable {ι κ : Type}

/-- `write_func`, for one element of `arr`. -/
inductive WriterPc
  | idle
  | lock (new : ℕ) | replace (new : ℕ) | unlock (old : ℕ)
  | sync (old : ℕ) | wait (old : ℕ)
  | free (old : ℕ)
  deriving DecidableEq

def WriterPc.owns : WriterPc → Option ℕ
  | .idle => none
  | .lock o | .replace o | .unlock o | .sync o | .wait o | .free o => some o

def WriterPc.retires : WriterPc → Option ℕ
  | .unlock o | .sync o | .wait o => some o
  | _ => none

/-- `data` is the pointer, `lock` the mutex, `holds r` what `r` has found at the pointer in the
section it is in. -/
structure Users (ι κ : Type) where
  data : ℕ
  live : ℕ → Bool
  next : ℕ
  lock : Option κ
  inside : ι → Bool
  holds : ι → Finset ℕ
  writer : κ → WriterPc

inductive UserAct (ι κ : Type)
  | dereference (r : ι)
  | write (k : κ)

/-- `main` allocates the first object. -/
def Users.init (ι κ : Type) : Users ι κ where
  data := 0
  live o := decide (o = 0)
  next := 1
  lock := none
  inside _ := false
  holds _ := ∅
  writer _ := .idle

section Step

variable [DecidableEq ι] [DecidableEq κ]

def Users.goto (s : Users ι κ) (k : κ) (p : WriterPc) : Users ι κ :=
  { s with writer := Function.update s.writer k p }

/-- The next instruction of a writer outside of `mthpc_synchronize_rcu`. -/
def write (s : Users ι κ) (k : κ) : WriterPc → Option (Users ι κ)
  | .idle =>
    some ({ s with
      live := Function.update s.live s.next true
      next := s.next+1 }.goto k (.lock s.next))
  | .lock new => guarded (s.lock = none) ({ s with lock := some k }.goto k (.replace new))
  -- `mthpc_rcu_replace_pointer`
  | .replace new => some ({ s with data := new }.goto k (.unlock s.data))
  | .unlock old => some ({ s with lock := none }.goto k (.sync old))
  | .sync _ | .wait _ => none
  | .free old => some ({ s with live := Function.update s.live old false }.goto k .idle)

def own (s : Users ι κ) : UserAct ι κ → Option (Users ι κ)
  -- `mthpc_rcu_dereference`
  | .dereference r => guarded (s.inside r)
      { s with holds := Function.update s.holds r (insert s.data (s.holds r)) }
  | .write k => write s k (s.writer k)

/-- The call of `mthpc_synchronize_rcu` and its return. -/
def call (s : Users ι κ) (k : κ) : WriterPc → Option (Users ι κ)
  | .sync old => some (s.goto k (.wait old))
  | _ => none

def ret (s : Users ι κ) (k : κ) : WriterPc → Option (Users ι κ)
  | .wait old => some (s.goto k (.free old))
  | _ => none

def react (s : Users ι κ) : Grace.Event ι κ → Option (Users ι κ)
  | .enter r => some { s with inside := Function.update s.inside r true }
  | .leave r =>
    some { s with
      inside := Function.update s.inside r false
      holds := Function.update s.holds r ∅ }
  | .call k => call s k (s.writer k)
  | .ret k => ret s k (s.writer k)

/-- Nothing that a reader holds is freed, the pointer leads to an object that is not freed, what
is freed is allocated and no other writer frees it, and nothing is lost. -/
structure Reclaims (s : Users ι κ) : Prop where
  held : ∀ r, ∀ o ∈ s.holds r, s.live o = true
  data : s.live s.data = true
  free : ∀ k o, (s.writer k).owns = some o → s.live o = true ∧
    ∀ j, (s.writer j).owns = some o → j = k
  kept : ∀ o, s.live o = true → o = s.data ∨ ∃ k, (s.writer k).owns = some o

/-- Each object that is not freed is the published one or has one owner. -/
structure Owners (data : ℕ) (live : ℕ → Bool) (next : ℕ) (owns : κ → Option ℕ) : Prop where
  kept : ∀ o, live o = true ↔ o = data ∨ ∃ k, owns k = some o
  below : ∀ o, live o = true → o < next
  hidden : ∀ k, owns k ≠ some data
  apart : ∀ k j o, owns k = some o → owns j = some o → j = k

section Owners

variable {data next new old : ℕ} {live : ℕ → Bool} {owns : κ → Option ℕ} {k : κ}

theorem Owners.lt_next {κ : Type} {data next : ℕ} {live : ℕ → Bool} {owns : κ → Option ℕ}
    (h : Owners data live next owns) :
    data < next ∧ ∀ j o, owns j = some o → o < next :=
  ⟨h.below _ ((h.kept _).mpr (.inl rfl)),fun j _ hj => h.below _ ((h.kept _).mpr (.inr ⟨j,hj⟩))⟩

theorem Owners.alloc (h : Owners data live next owns) (hk : owns k = none) :
    Owners data (Function.update live next true) (next+1)
      (Function.update owns k (some next)) := by
  obtain ⟨hdata,hown⟩ := h.lt_next
  refine ⟨fun o => ?_,fun o ho => ?_,fun j => ?_,fun i j o hi hj => ?_⟩
  · by_cases ho : o = next
    · subst ho
      simp only [Function.update_self,true_iff]
      exact .inr ⟨k,Function.update_self _ _ _⟩
    · rw [Function.update_of_ne ho,h.kept]
      refine or_congr Iff.rfl (exists_congr fun j => ?_)
      by_cases hj : j = k
      · subst hj
        simp [hk,Ne.symm ho]
      · rw [Function.update_of_ne hj]
  · by_cases he : o = next
    · exact he ▸ Nat.lt_succ_self _
    · exact (h.below o (by simpa [he] using ho)).trans (Nat.lt_succ_self _)
  · by_cases hj : j = k
    · subst hj
      simpa using hdata.ne'
    · simpa [hj] using h.hidden j
  · by_cases hik : i = k <;> by_cases hjk : j = k
    · exact hjk.trans hik.symm
    · simp only [hik,Function.update_self,Function.update_of_ne hjk] at hi hj
      cases hi
      exact absurd (hown j _ hj) (lt_irrefl _)
    · simp only [hjk,Function.update_self,Function.update_of_ne hik] at hi hj
      cases hj
      exact absurd (hown i _ hi) (lt_irrefl _)
    · simp only [Function.update_of_ne hik,Function.update_of_ne hjk] at hi hj
      exact h.apart i j o hi hj

theorem Owners.exchange (h : Owners data live next owns) (hk : owns k = some new) :
    Owners new live next (Function.update owns k (some data)) := by
  refine ⟨fun o => ?_,h.below,fun j hj => ?_,fun i j o hi hj => ?_⟩
  · rw [h.kept]
    constructor
    · rintro (rfl | ⟨j,hj⟩)
      · exact .inr ⟨k,Function.update_self _ _ _⟩
      · by_cases hjk : j = k
        · subst hjk
          exact .inl (Option.some.inj (hj.symm.trans hk))
        · exact .inr ⟨j,by rwa [Function.update_of_ne hjk]⟩
    · rintro (rfl | ⟨j,hj⟩)
      · exact .inr ⟨k,hk⟩
      · by_cases hjk : j = k
        · subst hjk
          rw [Function.update_self] at hj
          exact .inl (Option.some.inj hj).symm
        · exact .inr ⟨j,by rwa [Function.update_of_ne hjk] at hj⟩
  · by_cases hjk : j = k
    · subst hjk
      rw [Function.update_self] at hj
      exact h.hidden j (hk.trans hj.symm)
    · rw [Function.update_of_ne hjk] at hj
      exact hjk (h.apart k j new hk hj)
  · by_cases hik : i = k <;> by_cases hjk : j = k
    · exact hjk.trans hik.symm
    · simp only [hik,Function.update_self,Function.update_of_ne hjk] at hi hj
      cases hi
      exact absurd hj (h.hidden j)
    · simp only [hjk,Function.update_self,Function.update_of_ne hik] at hi hj
      cases hj
      exact absurd hi (h.hidden i)
    · simp only [Function.update_of_ne hik,Function.update_of_ne hjk] at hi hj
      exact h.apart i j o hi hj

theorem Owners.free (h : Owners data live next owns) (hk : owns k = some old) :
    Owners data (Function.update live old false) next (Function.update owns k none) := by
  have hother : ∀ j o, Function.update owns k none j = some o ↔ owns j = some o ∧ o ≠ old := by
    intro j o
    by_cases hj : j = k
    · subst hj
      simp only [Function.update_self,reduceCtorEq,hk,Option.some.injEq,false_iff,not_and,not_not]
      exact Eq.symm
    · rw [Function.update_of_ne hj]
      exact ⟨fun ho => ⟨ho,fun he => hj (h.apart k j o (he ▸ hk) ho)⟩,And.left⟩
  have hdata : data ≠ old := fun he => h.hidden k (he ▸ hk)
  refine ⟨fun o => ?_,fun o ho => ?_,fun j hj => h.hidden j ((hother _ _).mp hj).1,
    fun i j o hi hj => h.apart i j o ((hother _ _).mp hi).1 ((hother _ _).mp hj).1⟩
  · by_cases ho : o = old
    · subst ho
      simp [hother,hdata.symm]
    · simp [hother,ho,h.kept]
  · by_cases he : o = old
    · simp [he] at ho
    · exact h.below o (by simpa [he] using ho)

end Owners

def Users.owns (s : Users ι κ) (k : κ) : Option ℕ := (s.writer k).owns

/-- What the users and the sections know of each other. -/
structure PointerInv (g : Grace.State ι κ) (s : Users ι κ) : Prop where
  inside : ∀ r, s.inside r = true ↔ r ∈ g.inside
  outside : ∀ r, s.inside r = false → s.holds r = ∅
  calling : ∀ k, k ∈ g.calling ↔ ∃ o, s.writer k = .wait o
  owners : Owners s.data s.live s.next s.owns
  held : ∀ r, ∀ o ∈ s.holds r, o = s.data ∨ ∃ k, (s.writer k).retires = some o ∧
    (s.writer k = .wait o → r ∈ g.owed k)

theorem WriterPc.owns_of_retires {p : WriterPc} {o : ℕ} (h : p.retires = some o) :
    p.owns = some o := by
  cases p with
  | unlock | sync | wait => exact h
  | idle | lock | replace | free => cases h

theorem PointerInv.reclaims {ι κ : Type} {g : Grace.State ι κ} {s : Users ι κ}
    (h : PointerInv g s) :
    Reclaims s where
  held r o ho := (h.owners.kept o).mpr
    ((h.held r o ho).imp id fun ⟨k,hk,_⟩ => ⟨k,WriterPc.owns_of_retires hk⟩)
  data := (h.owners.kept _).mpr (.inl rfl)
  free k o hk := ⟨(h.owners.kept o).mpr (.inr ⟨k,hk⟩),fun j hj => h.owners.apart k j o hk hj⟩
  kept o ho := (h.owners.kept o).mp ho

theorem PointerInv.init {ι κ : Type} : PointerInv (Grace.init ι κ) (Users.init ι κ) where
  inside r := by simp [Users.init,Grace.init]
  outside _ _ := rfl
  calling k := by simp [Users.init,Grace.init]
  owners := by
    refine ⟨fun o => ?_,fun o ho => ?_,fun k => ?_,fun k j o hk => by cases hk⟩
    · simp [Users.init,Users.owns,WriterPc.owns]
    · obtain rfl : o = 0 := by simpa [Users.init] using ho
      exact Nat.one_pos
    · simp [Users.init,Users.owns,WriterPc.owns]
  held r o ho := by simp [Users.init] at ho

variable {g g' : Grace.State ι κ} {s t : Users ι κ} {k : κ} {p : WriterPc}

theorem owns_goto {ι κ : Type} [DecidableEq κ] {s : Users ι κ} {k : κ} {p : WriterPc} :
    (s.goto k p).owns = Function.update s.owns k p.owns := by
  funext j
  by_cases hj : j = k
  · subst hj
    simp [Users.owns,Users.goto]
  · simp [Users.owns,Users.goto,hj]

theorem owns_same {ι κ : Type} [DecidableEq κ] {s : Users ι κ} {k : κ} {o : ℕ}
    (h : s.owns k = some o) :
    s.owns = Function.update s.owns k (some o) :=
  (Function.update_eq_self_iff.mpr h.symm).symm

/-- A writer outside of `mthpc_synchronize_rcu` goes on, in a state where the objects are owned
as it needs it; what it no longer retires nobody holds. -/
theorem PointerInv.goto {ι κ : Type} [DecidableEq κ] {g : Grace.State ι κ} {s t : Users ι κ} {k : κ}
    {p : WriterPc} (h : PointerInv g s) (hin : t.inside = s.inside)
    (hh : t.holds = s.holds) (hwr : t.writer = s.writer)
    (ho : Owners t.data t.live t.next (Function.update s.owns k p.owns))
    (hr : ∀ r, ∀ o ∈ s.holds r, o = s.data ∨ (s.writer k).retires = some o →
      o = t.data ∨ p.retires = some o)
    (hp : ∀ o, p ≠ .wait o) (hw : ∀ o, s.writer k ≠ .wait o) : PointerInv g (t.goto k p) := by
  refine ⟨by simpa [Users.goto,hin] using h.inside,by simpa [Users.goto,hin,hh] using h.outside,
    fun j => ?_,?_,fun r o hro => ?_⟩
  · rw [h.calling]
    by_cases hj : j = k
    · subst hj
      simp [Users.goto,hp,hw]
    · simp [Users.goto,hwr,hj]
  · rw [owns_goto]
    have hown : t.owns = s.owns := by
      funext j
      rw [Users.owns,Users.owns,hwr]
    rw [hown]
    exact ho
  · have hmine : p.retires = some o → ∃ j, ((t.goto k p).writer j).retires = some o ∧
        ((t.goto k p).writer j = .wait o → r ∈ g.owed j) := fun hpo =>
      ⟨k,by simp [Users.goto,hpo],by simp [Users.goto,hp]⟩
    have hro' : o ∈ s.holds r := by rwa [← hh]
    obtain he | ⟨j,hj,hg⟩ := h.held r o hro'
    · exact (hr r o hro' (.inl he)).imp id hmine
    · by_cases hjk : j = k
      · subst hjk
        exact (hr r o hro' (.inr hj)).imp id hmine
      · exact .inr ⟨j,by simpa [Users.goto,hwr,hjk] using ⟨hj,hg⟩⟩

theorem PointerInv.write {ι κ : Type} [DecidableEq κ] {g : Grace.State ι κ} {s t : Users ι κ}
    {k : κ} (h : PointerInv g s)
    (hst : RcuPointer.write s k (s.writer k) = some t) : PointerInv g t := by
  have hown : s.owns k = (s.writer k).owns := rfl
  cases hk : s.writer k with
  | idle =>
    rw [hk] at hst hown
    cases hst
    exact h.goto rfl rfl rfl (h.owners.alloc hown) (by simp [hk,WriterPc.retires])
      (by simp) (by simp [hk])
  | lock new =>
    rw [hk] at hst hown
    obtain ⟨_,rfl⟩ := guarded_eq_some.mp hst
    exact h.goto rfl rfl rfl (owns_same hown ▸ h.owners)
      (by simp [hk,WriterPc.retires]) (by simp) (by simp [hk])
  | replace new =>
    rw [hk] at hst hown
    cases hst
    refine h.goto rfl rfl rfl (h.owners.exchange hown) (fun r o _ ho => ?_) (by simp)
      (by simp [hk])
    obtain rfl | hr := ho
    · exact .inr rfl
    · simp [hk,WriterPc.retires] at hr
  | unlock old =>
    rw [hk] at hst hown
    cases hst
    exact h.goto rfl rfl rfl (owns_same hown ▸ h.owners)
      (by simp [hk,WriterPc.retires]) (by simp) (by simp [hk])
  | sync old | wait old =>
    rw [hk] at hst
    cases hst
  | free old =>
    rw [hk] at hst hown
    cases hst
    exact h.goto rfl rfl rfl (h.owners.free hown) (by simp [hk,WriterPc.retires])
      (by simp) (by simp [hk])

theorem PointerInv.own {a : UserAct ι κ} (h : PointerInv g s)
    (hst : RcuPointer.own s a = some t) : PointerInv g t := by
  cases a with
  | write k => exact h.write hst
  | dereference r =>
    obtain ⟨hr,rfl⟩ := guarded_eq_some.mp hst
    refine ⟨h.inside,fun q hq => ?_,h.calling,h.owners,fun q o ho => ?_⟩
    · have hqr : q ≠ r := fun he => by simp [he,hr] at hq
      simpa [hqr] using h.outside q hq
    · by_cases hqr : q = r
      · subst hqr
        simp only [Function.update_self,Finset.mem_insert] at ho
        exact ho.elim .inl (h.held q o)
      · exact h.held q o (by simpa [hqr] using ho)

/-- The call takes note of every reader that may hold the old object, and at its return none
is left. -/
theorem PointerInv.react {e : Grace.Event ι κ} (h : PointerInv g s)
    (hg : Grace.step g e = some g') (hst : RcuPointer.react s e = some t) : PointerInv g' t := by
  cases e with
  | enter r =>
    obtain ⟨_,rfl⟩ := Grace.step_enter.mp hg
    cases hst
    refine ⟨fun q => ?_,fun q hq => ?_,h.calling,h.owners,h.held⟩
    · by_cases hqr : q = r
      · simp [hqr]
      · simpa [hqr] using h.inside q
    · by_cases hqr : q = r
      · simp [hqr] at hq
      · exact h.outside q (by simpa [hqr] using hq)
  | leave r =>
    obtain ⟨_,rfl⟩ := Grace.step_leave.mp hg
    cases hst
    refine ⟨fun q => ?_,fun q hq => ?_,h.calling,h.owners,fun q o ho => ?_⟩
    · by_cases hqr : q = r
      · simp [hqr]
      · simpa [hqr] using h.inside q
    · by_cases hqr : q = r
      · simp [hqr]
      · simpa [hqr] using h.outside q (by simpa [hqr] using hq)
    · by_cases hqr : q = r
      · simp [hqr] at ho
      · refine (h.held q o (by simpa [hqr] using ho)).imp id fun ⟨k,hk,hw⟩ => ⟨k,hk,fun hp => ?_⟩
        exact ⟨hw hp,hqr⟩
  | call k =>
    obtain ⟨hnc,rfl⟩ := Grace.step_call.mp hg
    cases hk : s.writer k with
    | sync old =>
      simp only [RcuPointer.react,hk,call,Option.some.injEq] at hst
      subst hst
      refine ⟨h.inside,h.outside,fun j => ?_,?_,fun r o ho => ?_⟩
      · by_cases hj : j = k
        · subst hj
          simp [Users.goto]
        · simpa [Users.goto,hj] using h.calling j
      · have he : (s.goto k (.wait old)).owns = s.owns := by
          rw [owns_goto]
          exact Function.update_eq_self_iff.mpr (by simp [Users.owns,hk,WriterPc.owns])
        rw [he]
        exact h.owners
      · have hin : r ∈ g.inside := by
          rw [← h.inside]
          by_contra hr
          have hh : o ∈ s.holds r := ho
          rw [h.outside r (by simpa using hr)] at hh
          simp at hh
        refine (h.held r o ho).imp id fun ⟨j,hj,hw⟩ => ⟨j,?_⟩
        by_cases hjk : j = k
        · subst hjk
          simp only [hk,WriterPc.retires] at hj
          simpa [Users.goto,WriterPc.retires,hj] using fun _ => hin
        · simpa [Users.goto,hjk] using ⟨hj,hw⟩
    | _ => simp [RcuPointer.react,hk,call] at hst
  | ret k =>
    obtain ⟨⟨_,he⟩,rfl⟩ := Grace.step_ret.mp hg
    cases hk : s.writer k with
    | wait old =>
      simp only [RcuPointer.react,hk,ret,Option.some.injEq] at hst
      subst hst
      refine ⟨h.inside,h.outside,fun j => ?_,?_,fun r o ho => ?_⟩
      · by_cases hj : j = k
        · subst hj
          simp [Users.goto]
        · simpa [Users.goto,hj] using h.calling j
      · have he : (s.goto k (.free old)).owns = s.owns := by
          rw [owns_goto]
          exact Function.update_eq_self_iff.mpr (by simp [Users.owns,hk,WriterPc.owns])
        rw [he]
        exact h.owners
      · refine (h.held r o ho).imp id fun ⟨j,hj,hw⟩ => ⟨j,?_⟩
        have hjk : j ≠ k := by
          rintro rfl
          obtain rfl : old = o := by simpa [hk,WriterPc.retires] using hj
          have hr := hw hk
          rw [he] at hr
          exact hr
        simpa [Users.goto,hjk] using ⟨hj,hw⟩
    | _ => simp [RcuPointer.react,hk,ret] at hst

theorem reach_inv {ok : Grace.State ι κ × Users ι κ → Grace.Event ι κ ⊕ UserAct ι κ → Prop}
    (h : Reach (overSpec Grace.step react own) ok (Grace.init ι κ,Users.init ι κ) (g,s)) :
    PointerInv g s := by
  refine h.invariant (I:=fun u => PointerInv u.1 u.2) .init fun u e v hi _ hst => ?_
  obtain ⟨u,c⟩ := u
  obtain ⟨b,t,d,rfl,ht,hd,rfl⟩ | ⟨a,d,rfl,hd,rfl⟩ := overSpec_cases hst
  · exact hi.react ht hd
  · exact hi.own hd

/-- Over the words and phases, when the readers are registered and publish in time: no reader
uses what is freed, each old object is freed once and by the writer that replaced it, and every
object that is not freed is the published one or has a writer that will free it. -/
theorem reclaims_of_proper {nodes : List ι} {r : Rcu.State ι κ}
    (h : Reach (compose (Rcu.step nodes) Rcu.label react own)
      (both Rcu.label (Rcu.Proper nodes) Anything) (Rcu.init ι κ,Users.init ι κ) (r,s)) :
    Reclaims s := by
  have hr := (Rcu.simulates.compose .init h).2
  rw [Rcu.toGrace_init] at hr
  exact (reach_inv hr).reclaims

end Step

/-- A reader finds object 0 in its section, the writer puts object 1 in its place, waits for the
reader and frees object 0. -/
def replaceRun : List (Rcu.Act Unit Unit ⊕ UserAct Unit Unit) :=
  [.inl (.lockLoad ()),.inl (.lockRead () 0),.inl (.lockStore () Rcu.gpCount),
    .inr (.dereference ()),.inr (.write ()),.inr (.write ()),.inr (.write ()),.inr (.write ()),
    .inl (.syncCall ()),.inl (.syncLock ()),.inl (.syncRead ()),
    .inl (.waitAgain () false Rcu.gpCount () []),
    .inl (.unlockLoad ()),.inl (.unlockAdd () Rcu.gpCount),
    .inl (.waitPass () false Rcu.gpCount () []),.inl (.waitDone () false Rcu.gpCount),
    .inl (.readFlip () Rcu.gpCount),.inl (.writeFlip () Rcu.gpCount Rcu.gpCount),
    .inl (.waitPass () true Rcu.gpCount () []),.inl (.waitDone () true Rcu.gpCount),
    .inl (.syncUnlock ()),.inl (.syncReturn ()),.inr (.write ())]

theorem reclaims_of_replaceRun : ∃ (r : Rcu.State Unit Unit) (s : Users Unit Unit),
    Reach (compose (Rcu.step [()]) Rcu.label react own) (both Rcu.label (Rcu.Proper [()]) Anything)
      (Rcu.init Unit Unit,Users.init Unit Unit) (r,s) ∧
    s.data = 1 ∧ s.live 0 = false ∧ Reclaims s := by
  have hs : ∃ r s, exec (restrict (compose (Rcu.step [()]) Rcu.label react own)
      (both Rcu.label (Rcu.Proper [()]) Anything)) (Rcu.init Unit Unit,Users.init Unit Unit)
      replaceRun = some (r,s) ∧ s.data = 1 ∧ s.live 0 = false := ⟨_,_,rfl,rfl,rfl⟩
  obtain ⟨r,s,hs,hd,hl⟩ := hs
  have hreach := reach_of_exec_restrict hs
  exact ⟨r,s,hreach,hd,hl,reclaims_of_proper hreach⟩

end RcuPointer
end Mthpc
