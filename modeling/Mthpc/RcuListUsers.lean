import Mthpc.RcuList
import Mthpc.RcuReaders

/-!
# The nodes of an RCU list, from their allocation to their free

Threads traverse the list of `include/mthpc/rculist.h` inside their sections. An updater adds a
node that it has allocated, or it deletes one, calls `mthpc_synchronize_rcu`, and then writes to
the node, links it again or frees it. Nobody looks at the traversals: that none of them comes to a
node in these hands follows from the sections.
-/
namespace Mthpc
namespace RcuListUsers

open StepSystem RcuList

variable {α T κ : Type}

/-- An updater and the node in its hands. -/
inductive UpdaterPc (α : Type)
  | idle
  | holds (node : α) | adding (node : α)
  | deleting (node : α) | unlinked (node : α) | waits (node : α)
  deriving DecidableEq

def UpdaterPc.node : UpdaterPc α → Option α
  | .idle => none
  | .holds n | .adding n | .deleting n | .unlinked n | .waits n => some n

/-- After the last pointer write. -/
def UpdaterPc.done : UpdaterPc α → UpdaterPc α
  | .adding _ => .idle
  | .deleting n => .unlinked n
  | p => p

def updating : RcuList.Pc α → Option (UpdaterPc α)
  | .idle => none
  | .addNextPrev _ new _ _ | .addNewNext _ new _ _ | .addNewPrev _ new _ _
  | .addPrevNext _ new _ _ => some (.adding new)
  | .delNextPrev node _ _ | .delPrevNext node _ _ | .delNodePrev node => some (.deleting node)

def operands : RcuList.Pc α → List α
  | .idle => []
  | .addNextPrev _ new prev next | .addNewNext _ new prev next | .addNewPrev _ new prev next
  | .addPrevNext _ new prev next => [new,prev,next]
  | .delNextPrev node prev next | .delPrevNext node prev next => [node,prev,next]
  | .delNodePrev node => [node]

/-- `inside` are the threads in a section. The updaters take turns by a lock, which is free when
no update is in progress. -/
structure Users (α T κ : Type) where
  list : RcuList.State α T
  allocated : Finset α
  inside : T → Bool
  updater : κ → UpdaterPc α

inductive UserAct (α T κ : Type)
  | alloc (k : κ) (node : α) | free (k : κ) (node : α)
  | write (k : κ) (node next prev : α)
  | add (k : κ) (tail : Bool) (node : α) | del (k : κ) (node : α)
  | update (k : κ)
  | start (t : T) | next (t : T) | stop (t : T)

def Users.init (l : Links α) (xs : List α) [DecidableEq α] : Users α T κ where
  list := RcuList.init l xs
  allocated := xs.toFinset
  inside _ := false
  updater _ := .idle

section Step

variable [DecidableEq α] [DecidableEq T] [DecidableEq κ] (c : Consts α)

def Users.goto (u : Users α T κ) (k : κ) (p : UpdaterPc α) : Users α T κ :=
  { u with updater := Function.update u.updater k p }

def Users.setList (u : Users α T κ) (s : RcuList.State α T) : Users α T κ := { u with list := s }

def after (s : RcuList.State α T) (p : UpdaterPc α) : UpdaterPc α :=
  if s.pc = .idle then p.done else p

def writeNext (u : Users α T κ) (k : κ) : UpdaterPc α → Option (Users α T κ)
  | .adding n => (RcuList.go c u.list u.list.pc).map fun s =>
    (u.setList s).goto k (after s (.adding n))
  | .deleting n => (RcuList.go c u.list u.list.pc).map fun s =>
    (u.setList s).goto k (after s (.deleting n))
  | _ => none

def own (u : Users α T κ) : UserAct α T κ → Option (Users α T κ)
  | .alloc k n => guarded (u.updater k = .idle ∧ n ∉ u.allocated ∧ n ≠ c.head ∧ n ≠ c.null)
      ({ u with allocated := insert n u.allocated }.goto k (.holds n))
  | .free k n => guarded (u.updater k = .holds n)
      ({ u with allocated := u.allocated.erase n }.goto k .idle)
  | .write k n next prev => guarded (u.updater k = .holds n)
      (u.setList { u.list with links := (u.list.links.setNext n next).setPrev n prev })
  | .add k tail n => guarded (u.updater k = .holds n ∧ u.list.pc = .idle)
      ((u.setList { u.list with
        pc := .addNextPrev tail n (if tail then u.list.links.prev c.head else c.head)
          (if tail then c.head else u.list.links.next c.head) }).goto k (.adding n))
  -- it has found the node in the list
  | .del k n => guarded (u.updater k = .idle ∧ u.list.pc = .idle ∧ n ∈ u.list.list)
      ((u.setList { u.list with
        pc := .delNextPrev n (u.list.links.prev n) (u.list.links.next n) }).goto k (.deleting n))
  | .update k => writeNext c u k (u.updater k)
  | .start t => if u.inside t then (RcuList.step c u.list (.start t)).map u.setList else none
  | .next t => (RcuList.step c u.list (.next t)).map u.setList
  | .stop t => (RcuList.step c u.list (.stop t)).map u.setList

/-- The call of `mthpc_synchronize_rcu` and its return. -/
def call (u : Users α T κ) (k : κ) : UpdaterPc α → Option (Users α T κ)
  | .unlinked n => some (u.goto k (.waits n))
  | _ => none

def ret (u : Users α T κ) (k : κ) : UpdaterPc α → Option (Users α T κ)
  | .waits n => some (u.goto k (.holds n))
  | _ => none

/-- A thread leaves its section when its traversal is over. -/
def react (u : Users α T κ) : Grace.Event T κ → Option (Users α T κ)
  | .enter t => some { u with inside := Function.update u.inside t true }
  | .leave t => guarded (t ∉ u.list.running)
      { u with inside := Function.update u.inside t false }
  | .call k => call u k (u.updater k)
  | .ret k => ret u k (u.updater k)

/-- No traversal and no update is at a node that has been freed; what an updater may write or free
is allocated, out of the list, in its hands only, and no traversal is at it; and every allocated
node is in the list or in the hands of an updater. -/
structure Kept (u : Users α T κ) : Prop where
  read : ∀ t p, u.list.pos t = some p → p = c.head ∨ p ∈ u.allocated
  written : ∀ p ∈ operands u.list.pc, p = c.head ∨ p ∈ u.allocated
  reclaimed : ∀ k n, u.updater k = .holds n → n ∈ u.allocated ∧ n ∉ u.list.list ∧
    (∀ t, u.list.pos t ≠ some n) ∧ ∀ j, (u.updater j).node = some n → j = k
  kept : ∀ n ∈ u.allocated, n ∈ u.list.list ∨ ∃ k, (u.updater k).node = some n

def HandOk (s : RcuList.State α T) : UpdaterPc α → Prop
  | .idle => True
  | .holds n => n ∉ s.list ∧ s.waits n = ∅ ∧ s.pc.node ≠ some n
  | .adding n => updating s.pc = some (.adding n)
  | .deleting n => updating s.pc = some (.deleting n)
  | .unlinked n | .waits n => n ∉ s.list ∧ s.pc.node ≠ some n

structure HandsInv (s : RcuList.State α T) (allocated : Finset α) (updater : κ → UpdaterPc α) :
    Prop where
  hand : ∀ k, HandOk s (updater k)
  own : ∀ k j n, (updater k).node = some n → (updater j).node = some n → j = k
  alive : ∀ k n, (updater k).node = some n → n ≠ c.head ∧ n ≠ c.null ∧ n ∈ allocated
  busy : ∀ p, updating s.pc = some p → ∃ k, updater k = p
  listed : ∀ n ∈ s.list, n ≠ c.null ∧ n ∈ allocated
  kept : ∀ n ∈ allocated, n ∈ s.list ∨ ∃ k, (updater k).node = some n
  waited : ∀ n, s.waits n ≠ ∅ → n ∈ allocated

/-- The traversals are inside sections, and none has a freed node before it. -/
structure ReadersInv (g : Grace.State T κ) (s : RcuList.State α T) : Prop where
  running : ∀ t ∈ s.running, t ∈ g.inside
  reads : ∀ t ∈ s.running, ∃ p ys, Reads c s t (fun _ => false) p ys
  cursor : ∀ t, s.pos t ≠ none → t ∈ s.running

structure UsersInv (l : Links α) (xs : List α) (g : Grace.State T κ) (u : Users α T κ) : Prop where
  reach : Reach (RcuList.step c) Anything (RcuList.init l xs) u.list
  safe : Safe c u.list
  hands : HandsInv c u.list u.allocated u.updater
  readers : ReadersInv c g u.list
  inside : ∀ t, u.inside t = true ↔ t ∈ g.inside
  calling : ∀ k, k ∈ g.calling ↔ ∃ n, u.updater k = .waits n
  owed : ∀ k n, u.updater k = .waits n → ∀ t ∈ u.list.waits n, t ∈ g.owed k

end Step

section Hands

variable [DecidableEq α] [DecidableEq T] [DecidableEq κ] {c : Consts α} {s v : RcuList.State α T}
  {A B : Finset α} {f : κ → UpdaterPc α} {k : κ} {n : α} {p : UpdaterPc α}

theorem node_updating {α : Type} (pc : RcuList.Pc α) :
    pc.node = (updating pc).bind UpdaterPc.node := by
  cases pc <;> rfl

theorem HandOk.congr {α T : Type} [DecidableEq α] {s v : RcuList.State α T} {p : UpdaterPc α}
    (h : HandOk s p) (hl : v.list = s.list) (hp : updating v.pc = updating s.pc)
    (hw : ∀ n, v.waits n ⊆ s.waits n) : HandOk v p := by
  have hn : v.pc.node = s.pc.node := by rw [node_updating,node_updating,hp]
  cases p with
  | idle => trivial
  | holds n =>
    obtain ⟨h1,h2,h3⟩ := h
    exact ⟨by rwa [hl],Finset.subset_empty.mp (h2 ▸ hw n),by rwa [hn]⟩
  | adding n | deleting n => exact hp.trans h
  | unlinked n | waits n => exact ⟨by rw [hl]; exact h.1,by rw [hn]; exact h.2⟩

theorem HandsInv.congr {α T κ : Type} [DecidableEq α] [DecidableEq T] {c : Consts α}
    {s v : RcuList.State α T} {A : Finset α} {f : κ → UpdaterPc α} (h : HandsInv c s A f)
    (hl : v.list = s.list) (hp : updating v.pc = updating s.pc) (hw : ∀ n, v.waits n ⊆ s.waits n) :
    HandsInv c v A f := by
  refine ⟨fun k => (h.hand k).congr hl hp hw,h.own,h.alive,?_,?_,?_,fun n hn => ?_⟩
  · rw [hp]
    exact h.busy
  · rw [hl]
    exact h.listed
  · rw [hl]
    exact h.kept
  · apply h.waited n
    intro he
    exact hn (Finset.subset_empty.mp (he ▸ hw n))

theorem HandsInv.goto {α T κ : Type} [DecidableEq κ] {c : Consts α} {s : RcuList.State α T}
    {A B : Finset α} {f : κ → UpdaterPc α} {k : κ} {p : UpdaterPc α} (h : HandsInv c s A f)
    (hk : updating s.pc ≠ some (f k)) (hp : HandOk s p)
    (hnode : ∀ n, p.node = some n → (∀ j, j ≠ k → (f j).node ≠ some n) ∧
      n ≠ c.head ∧ n ≠ c.null ∧ n ∈ B)
    (hother : ∀ j n, j ≠ k → (f j).node = some n → n ∈ A → n ∈ B)
    (hlist : ∀ n ∈ s.list, n ∈ A → n ∈ B) (hwait : ∀ n, s.waits n ≠ ∅ → n ∈ A → n ∈ B)
    (hkept : ∀ n ∈ B, n ∈ A ∧ (f k).node ≠ some n ∨ p.node = some n) :
    HandsInv c s B (Function.update f k p) := by
  refine ⟨fun j => ?_,fun i j n hi hj => ?_,fun j n hj => ?_,fun q hq => ?_,fun n hn => ?_,
    fun n hn => ?_,fun n hn => hwait n hn (h.waited n hn)⟩
  · by_cases hj : j = k
    · subst hj
      rwa [Function.update_self]
    · rw [Function.update_of_ne hj]
      exact h.hand j
  · by_cases hik : i = k <;> by_cases hjk : j = k
    · exact hjk.trans hik.symm
    · subst hik
      rw [Function.update_self] at hi
      rw [Function.update_of_ne hjk] at hj
      exact absurd hj ((hnode n hi).1 j hjk)
    · subst hjk
      rw [Function.update_self] at hj
      rw [Function.update_of_ne hik] at hi
      exact absurd hi ((hnode n hj).1 i hik)
    · rw [Function.update_of_ne hik] at hi
      rw [Function.update_of_ne hjk] at hj
      exact h.own i j n hi hj
  · by_cases hjk : j = k
    · subst hjk
      rw [Function.update_self] at hj
      exact (hnode n hj).2
    · rw [Function.update_of_ne hjk] at hj
      obtain ⟨h1,h2,h3⟩ := h.alive j n hj
      exact ⟨h1,h2,hother j n hjk hj h3⟩
  · obtain ⟨j,hj⟩ := h.busy q hq
    have hjk : j ≠ k := by
      intro hjk
      exact hk (by rw [hq,← hj,hjk])
    exact ⟨j,by rwa [Function.update_of_ne hjk]⟩
  · obtain ⟨h1,h2⟩ := h.listed n hn
    exact ⟨h1,hlist n hn h2⟩
  · rcases hkept n hn with ⟨hA,hne⟩ | hpn
    · rcases h.kept n hA with hl | ⟨j,hj⟩
      · exact .inl hl
      · have hjk : j ≠ k := by
          intro hjk
          exact hne (hjk ▸ hj)
        exact .inr ⟨j,by rwa [Function.update_of_ne hjk]⟩
    · exact .inr ⟨k,by rwa [Function.update_self]⟩

theorem HandsInv.begin {α T κ : Type} [DecidableEq α] [DecidableEq κ] {c : Consts α}
    {s v : RcuList.State α T} {A : Finset α} {f : κ → UpdaterPc α} {k : κ} {n : α} {p : UpdaterPc α}
    (h : HandsInv c s A f) (hidle : s.pc = .idle)
    (hl : v.list = s.list) (hw : v.waits = s.waits) (hv : updating v.pc = some p)
    (hp : p = .adding n ∨ p = .deleting n) (hk : (f k).node = some n ∨ f k = .idle)
    (hfree : ∀ j, j ≠ k → (f j).node ≠ some n) (hn : n ≠ c.head ∧ n ≠ c.null ∧ n ∈ A) :
    HandsInv c v A (Function.update f k p) := by
  have hpn : p.node = some n := by rcases hp with rfl | rfl <;> rfl
  have hnode : v.pc.node = some n := by rw [node_updating,hv]; exact hpn
  have hnone : ∀ q, updating s.pc ≠ some q := by
    intro q hq
    rw [hidle] at hq
    cases hq
  refine ⟨fun j => ?_,fun i j m hi hj => ?_,fun j m hj => ?_,fun q hq => ?_,
    by rw [hl]; exact h.listed,fun m hm => ?_,by rw [hw]; exact h.waited⟩
  · by_cases hjk : j = k
    · subst hjk
      rw [Function.update_self]
      rcases hp with rfl | rfl <;> exact hv
    · rw [Function.update_of_ne hjk]
      have hok := h.hand j
      have hne := hfree j hjk
      cases hf : f j with
      | idle => trivial
      | holds m =>
        rw [hf] at hok hne
        exact ⟨by rw [hl]; exact hok.1,by rw [hw]; exact hok.2.1,by rw [hnode]; exact hne.symm⟩
      | adding m | deleting m =>
        rw [hf] at hok
        exact absurd hok (hnone _)
      | unlinked m | waits m =>
        rw [hf] at hok hne
        exact ⟨by rw [hl]; exact hok.1,by rw [hnode]; exact hne.symm⟩
  · by_cases hik : i = k <;> by_cases hjk : j = k
    · exact hjk.trans hik.symm
    · subst hik
      rw [Function.update_self] at hi
      rw [Function.update_of_ne hjk] at hj
      exact absurd (hj.trans (hi.symm.trans hpn)) (hfree j hjk)
    · subst hjk
      rw [Function.update_self] at hj
      rw [Function.update_of_ne hik] at hi
      exact absurd (hi.trans (hj.symm.trans hpn)) (hfree i hik)
    · rw [Function.update_of_ne hik] at hi
      rw [Function.update_of_ne hjk] at hj
      exact h.own i j m hi hj
  · by_cases hjk : j = k
    · subst hjk
      rw [Function.update_self,hpn] at hj
      cases hj
      exact hn
    · rw [Function.update_of_ne hjk] at hj
      exact h.alive j m hj
  · rw [hv] at hq
    cases hq
    exact ⟨k,Function.update_self _ _ _⟩
  · rw [hl]
    refine (h.kept m hm).imp_right fun hj => ?_
    obtain ⟨j,hj⟩ := hj
    by_cases hjk : j = k
    · subst hjk
      rcases hk with hk | hk
      · rw [hk] at hj
        cases hj
        exact ⟨j,by rwa [Function.update_self]⟩
      · rw [hk] at hj
        cases hj
    · exact ⟨j,by rwa [Function.update_of_ne hjk]⟩

theorem HandsInv.unlink {α T κ : Type} [DecidableEq α] {c : Consts α} {s v : RcuList.State α T}
    {A : Finset α} {f : κ → UpdaterPc α} {k : κ} {n : α} (h : HandsInv c s A f)
    (hk : f k = .deleting n) (hp : updating v.pc = updating s.pc) (hl : v.list = s.list.erase n)
    (hw : v.waits = Function.update s.waits n s.running) : HandsInv c v A f := by
  have hnode : v.pc.node = s.pc.node := by rw [node_updating,node_updating,hp]
  have hkn : (f k).node = some n := by rw [hk]; rfl
  have hsub : ∀ m, m ∉ s.list → m ∉ v.list := by
    intro m hm hmv
    rw [hl] at hmv
    exact hm (List.mem_of_mem_erase hmv)
  refine ⟨fun j => ?_,h.own,h.alive,by rw [hp]; exact h.busy,fun m hm => ?_,fun m hm => ?_,
    fun m hm => ?_⟩
  · have hok := h.hand j
    cases hf : f j with
    | idle => trivial
    | holds m =>
      rw [hf] at hok
      have hmn : m ≠ n := by
        intro hmn
        have hjk := h.own k j n hkn (by rw [hf,hmn]; rfl)
        rw [hjk,hk] at hf
        cases hf
      refine ⟨hsub m hok.1,?_,by rw [hnode]; exact hok.2.2⟩
      rw [hw,Function.update_of_ne hmn]
      exact hok.2.1
    | adding m | deleting m =>
      rw [hf] at hok
      exact hp.trans hok
    | unlinked m | waits m =>
      rw [hf] at hok
      exact ⟨hsub m hok.1,by rw [hnode]; exact hok.2⟩
  · rw [hl] at hm
    exact h.listed m (List.mem_of_mem_erase hm)
  · rcases h.kept m hm with hms | hj
    · by_cases hmn : m = n
      · exact .inr ⟨k,hmn ▸ hkn⟩
      · left
        rw [hl]
        exact (List.mem_erase_of_ne hmn).mpr hms
    · exact .inr hj
  · by_cases hmn : m = n
    · exact (h.alive k m (hmn ▸ hkn)).2.2
    · rw [hw,Function.update_of_ne hmn] at hm
      exact h.waited m hm

theorem HandsInv.ends {α T κ : Type} [DecidableEq κ] {c : Consts α} {s v : RcuList.State α T}
    {A : Finset α} {f : κ → UpdaterPc α} {k : κ} {n : α} {p : UpdaterPc α} (h : HandsInv c s A f)
    (hk : updating s.pc = some (f k))
    (hkn : (f k).node = some n) (hv : v.pc = .idle) (hw : v.waits = s.waits)
    (hl : ∀ m ∈ v.list, m ∈ s.list ∨ m = n) (hl' : ∀ m ∈ s.list, m ∈ v.list) (hq : HandOk v p)
    (hqn : ∀ m, p.node = some m → m = n) (hkeep : p.node = some n ∨ n ∈ v.list) :
    HandsInv c v A (Function.update f k p) := by
  have hnode : v.pc.node = none := by rw [hv]; rfl
  have hother : ∀ j m, j ≠ k → (f j).node = some m → m ≠ n := by
    intro j m hjk hj hmn
    exact hjk (h.own k j n hkn (hmn ▸ hj))
  refine ⟨fun j => ?_,fun i j m hi hj => ?_,fun j m hj => ?_,fun q hq => ?_,fun m hm => ?_,
    fun m hm => ?_,by rw [hw]; exact h.waited⟩
  · by_cases hjk : j = k
    · subst hjk
      rwa [Function.update_self]
    · rw [Function.update_of_ne hjk]
      have hok := h.hand j
      have hj := hother j
      cases hf : f j with
      | idle => trivial
      | holds m =>
        rw [hf] at hok hj
        refine ⟨fun hm => ?_,by rw [hw]; exact hok.2.1,by simp [hnode]⟩
        exact (hl m hm).elim hok.1 (hj m hjk rfl)
      | adding m | deleting m =>
        rw [hf] at hok hj
        have hfk : f k = _ := Option.some.inj (hk.symm.trans hok)
        rw [hfk] at hkn
        exact absurd (Option.some.inj hkn) (hj m hjk rfl)
      | unlinked m | waits m =>
        rw [hf] at hok hj
        refine ⟨fun hm => ?_,by simp [hnode]⟩
        exact (hl m hm).elim hok.1 (hj m hjk rfl)
  · by_cases hik : i = k <;> by_cases hjk : j = k
    · exact hjk.trans hik.symm
    · subst hik
      rw [Function.update_self] at hi
      rw [Function.update_of_ne hjk] at hj
      exact absurd (hqn m hi) (hother j m hjk hj)
    · subst hjk
      rw [Function.update_self] at hj
      rw [Function.update_of_ne hik] at hi
      exact absurd (hqn m hj) (hother i m hik hi)
    · rw [Function.update_of_ne hik] at hi
      rw [Function.update_of_ne hjk] at hj
      exact h.own i j m hi hj
  · by_cases hjk : j = k
    · subst hjk
      rw [Function.update_self] at hj
      exact hqn m hj ▸ h.alive j n hkn
    · rw [Function.update_of_ne hjk] at hj
      exact h.alive j m hj
  · rw [hv] at hq
    cases hq
  · rcases hl m hm with hms | hmn
    · exact h.listed m hms
    · obtain ⟨_,h2,h3⟩ := h.alive k n hkn
      exact hmn ▸ ⟨h2,h3⟩
  · rcases h.kept m hm with hms | ⟨j,hj⟩
    · exact .inl (hl' m hms)
    · by_cases hjk : j = k
      · obtain rfl : n = m := Option.some.inj (hkn.symm.trans (hjk ▸ hj))
        exact hkeep.symm.imp_right fun hp => ⟨k,by rwa [Function.update_self]⟩
      · exact .inr ⟨j,by rwa [Function.update_of_ne hjk]⟩

theorem HandsInv.write {l : Links α} (h : HandsInv c s A f) (hi : RcuList.Inv c s l)
    (hk : updating s.pc = some (f k)) (hst : RcuList.go c s s.pc = some v) :
    HandsInv c v A (Function.update f k (after v (f k))) := by
  have hok := hi.pc
  have hgo : ∀ {w : RcuList.State α T}, w.pc ≠ .idle → HandsInv c w A f →
      HandsInv c w A (Function.update f k (after w (f k))) := by
    intro w hw hh
    rwa [after,if_neg hw,Function.update_eq_self]
  cases hp : s.pc with
  | idle =>
    rw [hp] at hk
    cases hk
  | addNextPrev tail new prev next | addNewNext tail new prev next | addNewPrev tail new prev next
  | delNextPrev node prev next =>
    rw [hp] at hst
    cases hst
    exact hgo (by simp) (h.congr rfl (by rw [hp]; rfl) fun _ => Finset.Subset.refl _)
  | addPrevNext tail new prev next =>
    rw [hp] at hst hk
    cases hst
    have hf : f k = .adding new := (Option.some.inj hk).symm
    rw [hf,after,if_pos rfl]
    refine h.ends (n:=new) (by rw [hp,hf]; rfl) (by rw [hf]; rfl) rfl rfl (fun m hm => ?_)
      (fun m hm => ?_) trivial (by simp [UpdaterPc.done,UpdaterPc.node]) (.inr ?_)
    · cases tail <;> simpa [or_comm] using hm
    · cases tail <;> simp [hm]
    · cases tail <;> simp
  | delPrevNext node prev next =>
    rw [hp] at hst hk
    cases hst
    have hf : f k = .deleting node := (Option.some.inj hk).symm
    exact hgo (by simp) (h.unlink hf (by rw [hp]; rfl) rfl rfl)
  | delNodePrev node =>
    rw [hp] at hst hk hok
    cases hst
    have hf : f k = .deleting node := (Option.some.inj hk).symm
    rw [hf,after,if_pos rfl]
    exact h.ends (n:=node) (by rw [hp,hf]; rfl) (by rw [hf]; rfl) rfl rfl (fun m hm => .inl hm)
      (fun m hm => hm) ⟨hok.2,by simp [RcuList.Pc.node]⟩ (by simp [UpdaterPc.done,UpdaterPc.node])
      (.inl rfl)

end Hands

section Users

variable [DecidableEq α] [DecidableEq T] [DecidableEq κ] {c : Consts α} {s v : RcuList.State α T}
  {l : Links α} {xs : List α} {g g' : Grace.State T κ} {u w : Users α T κ}

theorem running_step {a : RcuList.Act α T} (hst : RcuList.step c s a = some v)
    (ha : ∀ t, a ≠ .start t ∧ a ≠ .stop t) : v.running = s.running := by
  cases a with
  | start t => exact absurd rfl (ha t).1
  | stop t => exact absurd rfl (ha t).2
  | next t =>
    obtain ⟨_,_,_,rfl⟩ := advance_some hst
    rfl
  | update =>
    cases hp : s.pc with
    | idle =>
      rw [RcuList.step,hp] at hst
      cases hst
    | _ =>
      rw [RcuList.step,hp] at hst
      cases hst
      rfl
  | _ =>
    obtain ⟨_,rfl⟩ := guarded_eq_some.mp hst
    rfl

theorem cursor_step {a : RcuList.Act α T} {t : T} (hst : RcuList.step c s a = some v)
    (ht : v.pos t ≠ none) : (s.pos t ≠ none ∨ a = .start t) ∧ a ≠ .stop t := by
  cases a with
  | start t' =>
    obtain ⟨_,rfl⟩ := guarded_eq_some.mp hst
    refine ⟨?_,by simp⟩
    by_cases htt : t = t'
    · exact .inr (htt ▸ rfl)
    · exact .inl (by simpa [htt] using ht)
  | stop t' =>
    obtain ⟨_,rfl⟩ := guarded_eq_some.mp hst
    have htt : t ≠ t' := by
      intro htt
      simp [htt] at ht
    exact ⟨.inl (by simpa [htt] using ht),by simpa using Ne.symm htt⟩
  | next t' =>
    obtain ⟨p,hp,_,rfl⟩ := advance_some hst
    refine ⟨.inl ?_,by simp⟩
    by_cases htt : t = t'
    · simp [htt,hp]
    · simpa [htt] using ht
  | update =>
    refine ⟨.inl ?_,by simp⟩
    cases hp : s.pc with
    | idle =>
      rw [RcuList.step,hp] at hst
      cases hst
    | _ =>
      rw [RcuList.step,hp] at hst
      cases hst
      exact ht
  | _ =>
    obtain ⟨_,rfl⟩ := guarded_eq_some.mp hst
    exact ⟨.inl ht,by simp⟩

theorem ReadersInv.step {α T κ : Type} [DecidableEq α] [DecidableEq T] {c : Consts α}
    {s v : RcuList.State α T} {g : Grace.State T κ} {a : RcuList.Act α T} (h : ReadersInv c g s)
    (hsafe : Safe c s) (hst : RcuList.step c s a = some v) (ha : ∀ t, a = .start t → t ∈ g.inside) :
    ReadersInv c g v := by
  obtain ⟨l,hi⟩ := hsafe.inv
  have hreads : ∀ t ∈ s.running, a ≠ .stop t → ∃ p ys, Reads c v t (fun _ => false) p ys := by
    intro t ht hat
    obtain ⟨p,ys,hr⟩ := h.reads t ht
    exact hr.step hi hst hat (by simp)
  cases a with
  | start t =>
    have hnew := hi.reads hst fun _ => false
    have hcur := fun q => cursor_step (t:=q) hst
    obtain ⟨_,rfl⟩ := guarded_eq_some.mp hst
    refine ⟨fun q hq => ?_,fun q hq => ?_,fun q hq => ?_⟩
    · rcases Finset.mem_insert.mp hq with hq | hq
      · exact hq ▸ ha t rfl
      · exact h.running q hq
    · rcases Finset.mem_insert.mp hq with hq | hq
      · subst hq
        exact ⟨_,_,hnew⟩
      · exact hreads q hq (by simp)
    · rcases (hcur q hq).1 with hq | hq
      · exact Finset.mem_insert_of_mem (h.cursor q hq)
      · cases hq
        exact Finset.mem_insert_self _ _
  | stop t =>
    have hcur := fun q => cursor_step (t:=q) hst
    obtain ⟨_,hv⟩ := guarded_eq_some.mp hst
    subst hv
    refine ⟨fun q hq => h.running q (Finset.mem_of_mem_erase hq),fun q hq => ?_,fun q hq => ?_⟩
    · apply hreads q (Finset.mem_of_mem_erase hq)
      intro he
      cases he
      exact Finset.notMem_erase _ _ hq
    · obtain ⟨hpos,hne⟩ := hcur q hq
      have hqt : q ≠ t := by
        intro hqt
        exact hne (hqt ▸ rfl)
      exact Finset.mem_erase.mpr ⟨hqt,h.cursor q (hpos.resolve_right (by simp))⟩
  | add | del | update | write | next =>
    have hrun := running_step hst (by simp)
    refine ⟨by rw [hrun]; exact h.running,fun q hq => ?_,fun q hq => ?_⟩
    · rw [hrun] at hq
      exact hreads q hq (by simp)
    · rw [hrun]
      exact h.cursor q ((cursor_step hst hq).1.resolve_right (by simp))

theorem UsersInv.list {α T κ : Type} [DecidableEq α] [DecidableEq T] {c : Consts α}
    {v : RcuList.State α T} {l : Links α} {xs : List α} {g : Grace.State T κ} {u : Users α T κ}
    {a : RcuList.Act α T} {A : Finset α} {f : κ → UpdaterPc α}
    (h : UsersInv c l xs g u) (hst : RcuList.step c u.list a = some v)
    (ha : ∀ t, a = .start t → t ∈ g.inside) (hh : HandsInv c v A f)
    (hf : ∀ k n, f k = .waits n ↔ u.updater k = .waits n)
    (hw : ∀ k n, u.updater k = .waits n → v.waits n ⊆ u.list.waits n) :
    UsersInv c l xs g { u with list := v, allocated := A, updater := f } := by
  refine ⟨h.reach.tail (a:=a) trivial hst,h.safe.step hst,hh,h.readers.step h.safe hst ha,h.inside,
    fun k => ?_,fun k n hk t ht => ?_⟩
  · rw [h.calling]
    exact exists_congr fun n => (hf k n).symm
  · have hk' := (hf k n).mp hk
    exact h.owed k n hk' t (hw k n hk' ht)

theorem UsersInv.aside {α T κ : Type} [DecidableEq α] [DecidableEq T] {c : Consts α} {l : Links α}
    {xs : List α} {g : Grace.State T κ} {u : Users α T κ} {A : Finset α} {f : κ → UpdaterPc α}
    (h : UsersInv c l xs g u)
    (hh : HandsInv c u.list A f) (hf : ∀ k n, f k = .waits n ↔ u.updater k = .waits n) :
    UsersInv c l xs g { u with allocated := A, updater := f } := by
  refine ⟨h.reach,h.safe,hh,h.readers,h.inside,fun k => ?_,fun k n hk => ?_⟩
  · rw [h.calling]
    exact exists_congr fun n => (hf k n).symm
  · exact h.owed k n ((hf k n).mp hk)

theorem UsersInv.unused {α T κ : Type} [DecidableEq α] [DecidableEq T] {c : Consts α} {l : Links α}
    {xs : List α} {g : Grace.State T κ} {u : Users α T κ} {k : κ} {n : α} (h : UsersInv c l xs g u)
    (hk : u.updater k = .holds n) : Unused c u.list n := by
  have hok := h.hands.hand k
  obtain ⟨h1,h2,_⟩ := h.hands.alive k n (by rw [hk]; rfl)
  rw [hk] at hok
  exact ⟨h1,h2,hok⟩

theorem UsersInv.write {k : κ} (h : UsersInv c l xs g u)
    (hst : writeNext c u k (u.updater k) = some w) : UsersInv c l xs g w := by
  have hgo : ∀ {v : RcuList.State α T}, updating u.list.pc = some (u.updater k) →
      RcuList.go c u.list u.list.pc = some v →
      UsersInv c l xs g ((u.setList v).goto k (after v (u.updater k))) := by
    intro v hk hv
    obtain ⟨l',hi⟩ := h.safe.inv
    have hnw : ∀ n, u.updater k ≠ .waits n ∧ after v (u.updater k) ≠ .waits n := by
      intro n
      have hne : u.updater k ≠ .waits n := by
        intro hn
        rw [hn] at hk
        cases hp : u.list.pc <;> simp [hp,updating] at hk
      refine ⟨hne,?_⟩
      unfold after
      split
      · cases hu : u.updater k with
        | waits m => exact absurd hk (by rw [hu]; cases u.list.pc <;> simp [updating])
        | _ => simp [UpdaterPc.done]
      · exact hne
    refine h.list (a:=.update) hv (by simp) (h.hands.write hi hk hv) (fun j n => ?_)
      fun j n hj => ?_
    · by_cases hjk : j = k
      · subst hjk
        simp [hnw]
      · rw [Function.update_of_ne hjk]
        exact Iff.rfl
    · -- the node that is unlinked is in the hands of the updater, not in those of a waiting one
      cases hp : u.list.pc with
      | idle =>
        rw [hp] at hk
        cases hk
      | delPrevNext node prev next =>
        rw [hp] at hv hk
        cases hv
        have hf : u.updater k = .deleting node := (Option.some.inj hk).symm
        have hne : n ≠ node := by
          intro hn
          have hjk := h.hands.own k j node (by rw [hf]; rfl) (by rw [hj,hn]; rfl)
          rw [hjk,hf] at hj
          cases hj
        show Function.update u.list.waits node u.list.running n ⊆ u.list.waits n
        rw [Function.update_of_ne hne]
      | _ =>
        rw [hp] at hv
        cases hv
        exact Finset.Subset.refl _
  have hok := h.hands.hand k
  cases hk : u.updater k with
  | adding n | deleting n =>
    rw [hk] at hst hok
    obtain ⟨v,hv,rfl⟩ := Option.map_eq_some_iff.mp hst
    have hh := hgo (by rw [hk]; exact hok) hv
    rwa [hk] at hh
  | idle | holds n | unlinked n | waits n =>
    rw [hk] at hst
    cases hst

theorem UsersInv.own {a : UserAct α T κ} (h : UsersInv c l xs g u)
    (hst : RcuListUsers.own c u a = some w) : UsersInv c l xs g w := by
  have hquiet : ∀ k, (∀ n, u.updater k ≠ .adding n ∧ u.updater k ≠ .deleting n) →
      updating u.list.pc ≠ some (u.updater k) := by
    intro k hk hp
    cases hpc : u.list.pc <;> simp only [hpc,updating] at hp
    · cases hp
    all_goals first
      | exact (hk _).1 (Option.some.inj hp).symm
      | exact (hk _).2 (Option.some.inj hp).symm
  have hkeep : ∀ {k : κ} {p : UpdaterPc α}, (∀ n, p ≠ .waits n ∧ u.updater k ≠ .waits n) →
      ∀ j n, Function.update u.updater k p j = .waits n ↔ u.updater j = .waits n := by
    intro k p hp j n
    by_cases hj : j = k
    · subst hj
      simp [hp]
    · rw [Function.update_of_ne hj]
  cases a with
  | alloc k n =>
    obtain ⟨⟨hk,hn,hh,hnull⟩,rfl⟩ := guarded_eq_some.mp hst
    have hfree : ∀ j, (u.updater j).node ≠ some n := fun j hj => hn (h.hands.alive j n hj).2.2
    refine h.aside (h.hands.goto (hquiet k (by simp [hk])) ⟨?_,?_,?_⟩ (fun m hm => ?_)
      (fun _ _ _ _ hm => Finset.mem_insert_of_mem hm) (fun _ _ hm => Finset.mem_insert_of_mem hm)
      (fun _ _ hm => Finset.mem_insert_of_mem hm) fun m hm => ?_) (hkeep (by simp [hk]))
    · exact fun hl => hn (h.hands.listed n hl).2
    · by_contra hw
      exact hn (h.hands.waited n hw)
    · intro hp
      rw [node_updating] at hp
      obtain ⟨p,hp,hpn⟩ := Option.bind_eq_some_iff.mp hp
      obtain ⟨j,hj⟩ := h.hands.busy p hp
      exact hfree j (by rw [hj]; exact hpn)
    · cases hm
      exact ⟨fun j _ => hfree j,hh,hnull,Finset.mem_insert_self _ _⟩
    · rcases Finset.mem_insert.mp hm with hm | hm
      · exact .inr (hm ▸ rfl)
      · exact .inl ⟨hm,by simp [hk,UpdaterPc.node]⟩
  | free k n =>
    obtain ⟨hk,rfl⟩ := guarded_eq_some.mp hst
    have hok := h.hands.hand k
    rw [hk] at hok
    have hkn : (u.updater k).node = some n := by rw [hk]; rfl
    refine h.aside (h.hands.goto (hquiet k (by simp [hk])) trivial (fun m hm => by cases hm)
      (fun j m hjk hj hm => Finset.mem_erase.mpr ⟨fun hmn => ?_,hm⟩)
      (fun m hml hm => Finset.mem_erase.mpr ⟨fun hmn => hok.1 (hmn ▸ hml),hm⟩)
      (fun m hmw hm => Finset.mem_erase.mpr ⟨fun hmn => hmw (hmn ▸ hok.2.1),hm⟩)
      fun m hm => .inl ?_) (hkeep (by simp [hk]))
    · exact hjk (h.hands.own k j n hkn (hmn ▸ hj))
    · obtain ⟨hmn,hm⟩ := Finset.mem_erase.mp hm
      exact ⟨hm,fun he => hmn (Option.some.inj (hkn.symm.trans he)).symm⟩
  | write k n next prev =>
    obtain ⟨hk,rfl⟩ := guarded_eq_some.mp hst
    have hstep : RcuList.step c u.list (.write n next prev) = some _ :=
      guarded_eq_some.mpr ⟨h.unused hk,rfl⟩
    exact h.list hstep (by simp) (h.hands.congr rfl rfl fun _ => Finset.Subset.refl _)
      (fun _ _ => Iff.rfl) fun _ _ _ => Finset.Subset.refl _
  | add k tail n =>
    obtain ⟨⟨hk,hp⟩,rfl⟩ := guarded_eq_some.mp hst
    have hstep : RcuList.step c u.list (.add tail n) = some _ :=
      guarded_eq_some.mpr ⟨⟨hp,h.unused hk⟩,rfl⟩
    have hkn : (u.updater k).node = some n := by rw [hk]; rfl
    refine h.list hstep (by simp) (h.hands.begin (n:=n) hp rfl rfl rfl (.inl rfl) (.inl hkn)
      (fun j hjk hj => hjk (h.hands.own k j n hkn hj)) (h.hands.alive k n hkn))
      (hkeep (by simp [hk])) fun _ _ _ => Finset.Subset.refl _
  | del k n =>
    obtain ⟨⟨hk,hp,hn⟩,rfl⟩ := guarded_eq_some.mp hst
    have hstep : RcuList.step c u.list (.del n) = some _ := guarded_eq_some.mpr ⟨⟨hp,hn⟩,rfl⟩
    obtain ⟨l',hi⟩ := h.safe.inv
    have hhead : n ≠ c.head := by
      intro he
      exact (List.nodup_cons.mp hi.nodup).1 (he ▸ hn)
    have hfree : ∀ j, (u.updater j).node ≠ some n := by
      intro j hj
      have hok := h.hands.hand j
      cases hf : u.updater j with
      | idle =>
        rw [hf] at hj
        cases hj
      | holds m | unlinked m | waits m =>
        rw [hf] at hok hj
        cases hj
        exact hok.1 hn
      | adding m | deleting m =>
        rw [hf,HandOk,hp] at hok
        cases hok
    refine h.list hstep (by simp) (h.hands.begin (n:=n) hp rfl rfl rfl (.inr rfl) (.inr hk)
      (fun j _ => hfree j) ⟨hhead,h.hands.listed n hn⟩) (hkeep (by simp [hk]))
      fun _ _ _ => Finset.Subset.refl _
  | update k => exact h.write hst
  | start t =>
    simp only [RcuListUsers.own] at hst
    split at hst
    next hin =>
      obtain ⟨v,hv,rfl⟩ := Option.map_eq_some_iff.mp hst
      obtain ⟨_,rfl⟩ := guarded_eq_some.mp hv
      refine h.list hv (fun q hq => ?_) (h.hands.congr rfl rfl fun _ => Finset.Subset.refl _)
        (fun _ _ => Iff.rfl) fun _ _ _ => Finset.Subset.refl _
      cases hq
      exact (h.inside t).mp hin
    next => cases hst
  | next t =>
    obtain ⟨v,hv,rfl⟩ := Option.map_eq_some_iff.mp hst
    have hv' := hv
    obtain ⟨_,_,_,rfl⟩ := advance_some hv'
    exact h.list hv (by simp) (h.hands.congr rfl rfl fun _ => Finset.Subset.refl _)
      (fun _ _ => Iff.rfl) fun _ _ _ => Finset.Subset.refl _
  | stop t =>
    obtain ⟨v,hv,rfl⟩ := Option.map_eq_some_iff.mp hst
    obtain ⟨_,rfl⟩ := guarded_eq_some.mp hv
    exact h.list hv (by simp) (h.hands.congr rfl rfl fun _ => Finset.erase_subset _ _)
      (fun _ _ => Iff.rfl) fun _ _ _ => Finset.erase_subset _ _

/-- The call takes note of every traversal that may still come to the node, and at its return
none is left. -/
theorem UsersInv.react {e : Grace.Event T κ} (h : UsersInv c l xs g u)
    (hg : Grace.step g e = some g') (hst : RcuListUsers.react u e = some w) :
    UsersInv c l xs g' w := by
  cases e with
  | enter t =>
    obtain ⟨_,rfl⟩ := Grace.step_enter.mp hg
    cases hst
    refine ⟨h.reach,h.safe,h.hands,⟨fun q hq => .inr (h.readers.running q hq),h.readers.reads,
      h.readers.cursor⟩,fun q => ?_,h.calling,h.owed⟩
    by_cases hqt : q = t
    · simp [hqt]
    · simpa [hqt] using h.inside q
  | leave t =>
    obtain ⟨_,rfl⟩ := Grace.step_leave.mp hg
    obtain ⟨hrun,rfl⟩ := guarded_eq_some.mp hst
    have hne : ∀ q ∈ u.list.running, q ≠ t := fun q hq hqt => hrun (hqt ▸ hq)
    refine ⟨h.reach,h.safe,h.hands,⟨fun q hq => ⟨h.readers.running q hq,hne q hq⟩,h.readers.reads,
      h.readers.cursor⟩,fun q => ?_,h.calling,fun k n hk q hq => ?_⟩
    · by_cases hqt : q = t
      · simp [hqt]
      · simpa [hqt] using h.inside q
    · exact ⟨h.owed k n hk q hq,hne q (h.safe.waits n hq)⟩
  | call k =>
    obtain ⟨_,rfl⟩ := Grace.step_call.mp hg
    cases hk : u.updater k with
    | unlinked n =>
      simp only [RcuListUsers.react,hk,call,Option.some.injEq] at hst
      subst hst
      have hok := h.hands.hand k
      rw [hk] at hok
      have hkn : (u.updater k).node = some n := by rw [hk]; rfl
      have hq : updating u.list.pc ≠ some (u.updater k) := by
        rw [hk]
        cases u.list.pc <;> simp [updating]
      refine ⟨h.reach,h.safe,h.hands.goto (p:=.waits n) hq hok (fun m hm => ?_)
        (fun _ _ _ _ hm => hm) (fun _ _ hm => hm) (fun _ _ hm => hm) (fun m hm => ?_),
        ⟨h.readers.running,h.readers.reads,h.readers.cursor⟩,h.inside,fun j => ?_,
        fun j m hj q hq => ?_⟩
      · cases hm
        exact ⟨fun j hjk hj => hjk (h.hands.own k j n hkn hj),h.hands.alive k n hkn⟩
      · by_cases hmn : m = n
        · exact .inr (hmn ▸ rfl)
        · refine .inl ⟨hm,fun he => hmn ?_⟩
          exact (Option.some.inj (hkn.symm.trans he)).symm
      · by_cases hjk : j = k
        · subst hjk
          simp [Users.goto]
        · simpa [Users.goto,hjk] using h.calling j
      · by_cases hjk : j = k
        · subst hjk
          simpa using h.readers.running q (h.safe.waits m hq)
        · simp only [Users.goto,Function.update_of_ne hjk] at hj
          simpa [hjk] using h.owed j m hj q hq
    | _ => simp [RcuListUsers.react,hk,call] at hst
  | ret k =>
    obtain ⟨⟨_,he⟩,rfl⟩ := Grace.step_ret.mp hg
    cases hk : u.updater k with
    | waits n =>
      simp only [RcuListUsers.react,hk,ret,Option.some.injEq] at hst
      subst hst
      have hok := h.hands.hand k
      rw [hk] at hok
      have hkn : (u.updater k).node = some n := by rw [hk]; rfl
      have hnone : u.list.waits n = ∅ := by
        apply Finset.eq_empty_of_forall_notMem
        intro q hq
        have hin := h.owed k n hk q hq
        rw [he] at hin
        exact hin
      have hq : updating u.list.pc ≠ some (u.updater k) := by
        rw [hk]
        cases u.list.pc <;> simp [updating]
      refine ⟨h.reach,h.safe,h.hands.goto (p:=.holds n) hq ⟨hok.1,hnone,hok.2⟩ (fun m hm => ?_)
        (fun _ _ _ _ hm => hm) (fun _ _ hm => hm) (fun _ _ hm => hm) (fun m hm => ?_),
        ⟨h.readers.running,h.readers.reads,h.readers.cursor⟩,h.inside,fun j => ?_,
        fun j m hj q hq => ?_⟩
      · cases hm
        exact ⟨fun j hjk hj => hjk (h.hands.own k j n hkn hj),h.hands.alive k n hkn⟩
      · by_cases hmn : m = n
        · exact .inr (hmn ▸ rfl)
        · refine .inl ⟨hm,fun he => hmn ?_⟩
          exact (Option.some.inj (hkn.symm.trans he)).symm
      · by_cases hjk : j = k
        · subst hjk
          simp [Users.goto]
        · simpa [Users.goto,hjk] using h.calling j
      · by_cases hjk : j = k
        · subst hjk
          simp [Users.goto] at hj
        · simp only [Users.goto,Function.update_of_ne hjk] at hj
          exact h.owed j m hj q hq
    | _ => simp [RcuListUsers.react,hk,ret] at hst

theorem UsersInv.init {α T κ : Type} [DecidableEq α] [DecidableEq T] {c : Consts α} {l : Links α}
    {xs : List α} (hs : Links.Seg l c.head xs c.head) (hn : (c.head::xs).Nodup)
    (hnull : c.null ∉ xs) :
    UsersInv c l xs (Grace.init T κ) (Users.init l xs) where
  reach := .refl
  safe := safe_of_reach hs hn .refl
  hands :=
    { hand _ := trivial
      own _ _ _ h := by cases h
      alive _ _ h := by cases h
      busy _ h := by cases h
      listed n hn := ⟨fun he => hnull (he ▸ hn),List.mem_toFinset.mpr hn⟩
      kept _ hn := .inl (List.mem_toFinset.mp hn)
      waited _ h := absurd rfl h }
  readers := ⟨fun t ht => absurd ht (Finset.notMem_empty t),
    fun t ht => absurd ht (Finset.notMem_empty t),fun _ h => absurd rfl h⟩
  inside t := by simp [Users.init,Grace.init]
  calling k := by simp [Users.init,Grace.init]
  owed _ _ h := by cases h

theorem neighbours {α : Type} {c : Consts α} {l : Links α} {xs : List α} {z : α}
    (hs : Links.Seg l c.head xs c.head) (hz : z ∈ c.head::xs) :
    l.prev z ∈ c.head::xs ∧ l.next z ∈ c.head::xs := by
  have hmem : ∀ y, y ∈ xs ++ [c.head] ↔ y ∈ c.head::xs := by simp [or_comm]
  exact ⟨(hs.next_prev ((hmem z).mpr hz)).2,(hmem _).mp (hs.prev_next hz).2⟩

theorem operands_cases {α T : Type} [DecidableEq α] {c : Consts α} {s : RcuList.State α T}
    {l : Links α} {p : α} (hi : RcuList.Inv c s l) (hp : p ∈ operands s.pc) :
    p ∈ c.head::s.list ∨ s.pc.node = some p := by
  have hok := hi.pc
  have hhead : c.head ∈ c.head::s.list := List.mem_cons_self
  obtain ⟨hprev,hnext⟩ := neighbours hi.ring hhead
  cases hpc : s.pc with
  | idle =>
    rw [hpc] at hp
    cases hp
  | addNextPrev tail new prev next | addNewNext tail new prev next | addNewPrev tail new prev next
  | addPrevNext tail new prev next =>
    rw [hpc] at hp hok
    obtain ⟨_,_,_,rfl,rfl⟩ := hok
    simp only [operands,List.mem_cons,List.not_mem_nil,or_false] at hp
    rcases hp with rfl | rfl | rfl
    · exact .inr rfl
    · left
      split <;> assumption
    · left
      split <;> assumption
  | delNextPrev node prev next | delPrevNext node prev next =>
    rw [hpc] at hp hok
    obtain ⟨hmem,rfl,rfl⟩ := hok
    obtain ⟨hprev,hnext⟩ := neighbours hi.ring (List.mem_cons_of_mem _ hmem)
    simp only [operands,List.mem_cons,List.not_mem_nil,or_false] at hp
    rcases hp with rfl | rfl | rfl
    · exact .inr rfl
    · exact .inl hprev
    · exact .inl hnext
  | delNodePrev node =>
    rw [hpc] at hp
    rw [List.mem_singleton.mp hp]
    exact .inr rfl

theorem HandsInv.of_node {α T κ : Type} [DecidableEq α] {c : Consts α} {s : RcuList.State α T}
    {A : Finset α} {f : κ → UpdaterPc α} {n : α} (h : HandsInv c s A f)
    (hn : s.pc.node = some n) : ∃ k, (f k).node = some n := by
  rw [node_updating] at hn
  obtain ⟨p,hp,hpn⟩ := Option.bind_eq_some_iff.mp hn
  obtain ⟨k,hk⟩ := h.busy p hp
  exact ⟨k,hk ▸ hpn⟩

theorem reads_cases {α T : Type} {c : Consts α} {s : RcuList.State α T} {t : T} {p : α}
    {ys : List α} {f : α → Bool} (h : Reads c s t f p ys) :
    p = c.head ∨ p ∈ s.list ∨ t ∈ s.waits p := by
  cases ys with
  | nil => exact .inl h.path
  | cons y ys =>
    obtain ⟨rfl,_⟩ := h.path
    exact .inr (h.known _ List.mem_cons_self)

theorem UsersInv.kept {α T κ : Type} [DecidableEq α] [DecidableEq T] {c : Consts α} {l : Links α}
    {xs : List α} {g : Grace.State T κ} {u : Users α T κ} (h : UsersInv c l xs g u) : Kept c u := by
  have hlisted : ∀ p, p ∈ c.head::u.list.list → p = c.head ∨ p ∈ u.allocated := by
    intro p hp
    refine (List.mem_cons.mp hp).imp_right fun hp => ?_
    exact (h.hands.listed p hp).2
  have hpos : ∀ t p, u.list.pos t = some p →
      p = c.head ∨ p ∈ u.list.list ∨ t ∈ u.list.waits p := by
    intro t p hp
    obtain ⟨q,ys,hr⟩ := h.readers.reads t (h.readers.cursor t (by simp [hp]))
    obtain rfl : q = p := Option.some.inj (hr.cursor.symm.trans hp)
    exact reads_cases hr
  refine ⟨fun t p hp => ?_,fun p hp => ?_,fun k n hk => ?_,h.hands.kept⟩
  · rcases hpos t p hp with hh | hl | hw
    · exact .inl hh
    · exact hlisted p (List.mem_cons_of_mem _ hl)
    · exact .inr (h.hands.waited p (Finset.ne_empty_of_mem hw))
  · obtain ⟨l',hi⟩ := h.safe.inv
    rcases operands_cases hi hp with hl | hn
    · exact hlisted p hl
    · obtain ⟨k,hk⟩ := h.hands.of_node hn
      exact .inr (h.hands.alive k p hk).2.2
  · have hkn : (u.updater k).node = some n := by rw [hk]; rfl
    have hok := h.hands.hand k
    rw [hk] at hok
    obtain ⟨hhead,_,halloc⟩ := h.hands.alive k n hkn
    refine ⟨halloc,hok.1,fun t ht => ?_,fun j hj => h.hands.own k j n hkn hj⟩
    rcases hpos t n ht with hh | hl | hw
    · exact hhead hh
    · exact hok.1 hl
    · rw [hok.2.1] at hw
      exact Finset.notMem_empty t hw

theorem reach_inv {ok : Grace.State T κ × Users α T κ → Grace.Event T κ ⊕ UserAct α T κ → Prop}
    (hs : Links.Seg l c.head xs c.head) (hn : (c.head::xs).Nodup) (hnull : c.null ∉ xs)
    (h : Reach (overSpec Grace.step react (own c)) ok (Grace.init T κ,Users.init l xs) (g,u)) :
    UsersInv c l xs g u := by
  refine h.invariant (I:=fun w => UsersInv c l xs w.1 w.2) (.init hs hn hnull)
    fun w e w' hi _ hst => ?_
  obtain ⟨g,u⟩ := w
  obtain ⟨b,t,d,rfl,ht,hd,rfl⟩ | ⟨a,d,rfl,hd,rfl⟩ := overSpec_cases hst
  · exact hi.react ht hd
  · exact hi.own hd

/-- With the threads of `mthpc_rcu_data` and their sections below: the list takes its own steps
only, where a node is written or linked again when no traversal comes to it any more, and no
traversal and no update is at a node that has been freed. -/
theorem keeps_of_sections {id : T → BitVec 64} {next : Address → Option Address}
    {node : Address → RcuRegistry.Node} {allocated : Finset Address} {r : RcuReaders.State T κ}
    (hs : Links.Seg l c.head xs c.head) (hn : (c.head::xs).Nodup) (hnull : c.null ∉ xs)
    (hr : Reach (compose (RcuReaders.step id) RcuReaders.label react (own c))
      (both RcuReaders.label (RcuReaders.Proper id) Anything)
      (RcuReaders.init id next node allocated,Users.init l xs) (r,u)) :
    Reach (RcuList.step c) Anything (RcuList.init l xs) u.list ∧ Kept c u := by
  have hg := ((RcuReaders.simulates id).compose (.init id next node allocated) hr).2
  rw [RcuReaders.toGrace_init] at hg
  have hi := reach_inv hs hn hnull hg
  exact ⟨hi.reach,hi.kept⟩

end Users

/-- The updater adds node 2 behind node 1, and deletes node 1 while the thread is there. Its call
waits for the thread, which goes on to node 2 and to the head; then the node is freed. -/
def deleteRun : List (RcuReaders.Act Bool Unit ⊕ UserAct ℕ Bool Unit) := List.flatten
  [[.inr (.alloc () 2),.inr (.write () 2 7 7),.inr (.add () true 2),.inr (.update ()),
      .inr (.update ()),.inr (.update ()),.inr (.update ())],
    RcuReaders.come.map .inl,
    [.inr (.start false),.inr (.del () 1),.inr (.update ()),.inr (.update ()),.inr (.update ())],
    (RcuReaders.waitForLeaving.take 3).map .inl,
    [.inr (.next false),.inr (.next false),.inr (.stop false)],
    (RcuReaders.waitForLeaving.drop 3).map .inl,[.inr (.free () 1)]]

def oneNode : Links ℕ := ⟨fun n => 1 - n,fun n => 1 - n⟩

theorem keeps_of_deleteRun : ∃ (r : RcuReaders.State Bool Unit) (u : Users ℕ Bool Unit),
    Reach (compose (RcuReaders.step RcuReaders.twoIds) RcuReaders.label react (own ⟨0,9⟩))
      (both RcuReaders.label (RcuReaders.Proper RcuReaders.twoIds) Anything)
      (RcuReaders.noThread,Users.init oneNode [1]) (r,u) ∧
    u.list.list = [2] ∧ u.list.visited false = [1,2] ∧ u.allocated = {2} ∧
    Reach (RcuList.step ⟨0,9⟩) Anything (RcuList.init oneNode [1]) u.list ∧ Kept ⟨0,9⟩ u := by
  have hs : (exec (restrict (compose (RcuReaders.step RcuReaders.twoIds) RcuReaders.label
      react (own ⟨0,9⟩)) (both RcuReaders.label (RcuReaders.Proper RcuReaders.twoIds) Anything))
      (RcuReaders.noThread,Users.init oneNode [1]) deleteRun).map
      (fun s => (s.2.list.list,s.2.list.visited false,s.2.allocated)) =
      some ([2],[1,2],{2}) := by decide +kernel
  obtain ⟨⟨r,u⟩,hs,hu⟩ := Option.map_eq_some_iff.mp hs
  simp only [Prod.mk.injEq] at hu
  obtain ⟨hl,hv,ha⟩ := hu
  have hreach := reach_of_exec_restrict hs
  have hseg : Links.Seg oneNode 0 [1] 0 := by simp [Links.Linked,oneNode]
  obtain ⟨hlist,hk⟩ := keeps_of_sections hseg (by decide) (by decide) hreach
  exact ⟨r,u,hreach,hl,hv,ha,hlist,hk⟩

end RcuListUsers
end Mthpc
