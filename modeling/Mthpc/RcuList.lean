import Mthpc.Follow
import Mthpc.ListHead
import Mthpc.StepSystem

/-!
# Traversals of an RCU list

`include/mthpc/rculist.h`. The updaters of one list hold a lock, so that one update is in
progress at a time, and each of its pointer writes is a step. Any number of traversals read
`next` pointers meanwhile. A node that was deleted may be written again, and linked again, once
the traversals that were running at its deletion are over.
-/
namespace Mthpc
namespace RcuList

open StepSystem Links

/-- The list head, and what `NULL` points to. -/
structure Consts (α : Type) where
  head : α
  null : α

/-- The update in progress: the pointer write that comes next, with the arguments `prev` and
`next` of `__mthpc_list_add_rcu` or `__mthpc_list_del_rcu`. -/
inductive Pc (α : Type)
  | idle
  | addNextPrev (tail : Bool) (new prev next : α)
  | addNewNext (tail : Bool) (new prev next : α)
  | addNewPrev (tail : Bool) (new prev next : α)
  | addPrevNext (tail : Bool) (new prev next : α)
  | delNextPrev (node prev next : α)
  | delPrevNext (node prev next : α)
  | delNodePrev (node : α)
  deriving DecidableEq

/-- The node that is added or deleted. -/
def Pc.node {α : Type} : Pc α → Option α
  | .idle => none
  | .addNextPrev _ new _ _ | .addNewNext _ new _ _ | .addNewPrev _ new _ _
  | .addPrevNext _ new _ _ => some new
  | .delNextPrev node _ _ | .delPrevNext node _ _ | .delNodePrev node => some node

/-- `pos` is the cursor of a running traversal. The other fields are ghosts: the traversals
that are running, what each has visited, the nodes that are in the list, and the traversals
that were running when a node was deleted and still are. -/
structure State (α T : Type) where
  links : Links α
  pc : Pc α
  pos : T → Option α
  running : Finset T
  visited : T → List α
  list : List α
  waits : α → Finset T

/-- `write` is what the owner of an unlinked node stores there. -/
inductive Act (α T : Type)
  | add (tail : Bool) (new : α)
  | del (node : α)
  | update
  | write (node next prev : α)
  | start (t : T)
  | next (t : T)
  | stop (t : T)
  deriving DecidableEq

variable {α T : Type} [DecidableEq α] [DecidableEq T] (c : Consts α)

def go (s : State α T) : Pc α → Option (State α T)
  | .idle => none
  | .addNextPrev tail new prev next => some { s with
      links := s.links.setPrev next new
      pc := .addNewNext tail new prev next }
  | .addNewNext tail new prev next => some { s with
      links := s.links.setNext new next
      pc := .addNewPrev tail new prev next }
  | .addNewPrev tail new prev next => some { s with
      links := s.links.setPrev new prev
      pc := .addPrevNext tail new prev next }
  | .addPrevNext tail new prev _ => some { s with
      links := s.links.setNext prev new
      pc := .idle
      list := if tail then s.list ++ [new] else new::s.list }
  | .delNextPrev node prev next => some { s with
      links := s.links.setPrev next prev
      pc := .delPrevNext node prev next }
  | .delPrevNext node prev next => some { s with
      links := s.links.setNext prev next
      pc := .delNodePrev node
      list := s.list.erase node
      waits := Function.update s.waits node s.running }
  | .delNodePrev node => some { s with
      links := s.links.setPrev node c.null
      pc := .idle }

/-- Nobody may come to the node any more. -/
def Unused (s : State α T) (node : α) : Prop :=
  node ≠ c.head ∧ node ≠ c.null ∧ node ∉ s.list ∧ s.waits node = ∅ ∧ s.pc.node ≠ some node

instance (s : State α T) (node : α) : Decidable (Unused c s node) :=
  inferInstanceAs (Decidable (node ≠ c.head ∧ node ≠ c.null ∧ node ∉ s.list ∧
    s.waits node = ∅ ∧ s.pc.node ≠ some node))

/-- The next element of a traversal, from the one under its cursor. -/
def advance (s : State α T) (t : T) : Option α → Option (State α T)
  | none => none
  | some p => guarded (p ≠ c.head) { s with
      visited := Function.update s.visited t (s.visited t ++ [p])
      pos := Function.update s.pos t (some (s.links.next p)) }

def step (s : State α T) : Act α T → Option (State α T)
  | .add tail new => guarded (s.pc = .idle ∧ Unused c s new) { s with
      pc := .addNextPrev tail new (if tail then s.links.prev c.head else c.head)
        (if tail then c.head else s.links.next c.head) }
  | .del node => guarded (s.pc = .idle ∧ node ∈ s.list) { s with
      pc := .delNextPrev node (s.links.prev node) (s.links.next node) }
  | .update => go c s s.pc
  | .write node next prev => guarded (Unused c s node) { s with
      links := (s.links.setNext node next).setPrev node prev }
  | .start t => guarded (t ∉ s.running) { s with
      pos := Function.update s.pos t (some (s.links.next c.head))
      running := insert t s.running
      visited := Function.update s.visited t [] }
  | .next t => advance c s t (s.pos t)
  | .stop t => guarded (t ∈ s.running) { s with
      pos := Function.update s.pos t none
      running := s.running.erase t
      waits := fun node => (s.waits node).erase t }

theorem advance_some {c : Consts α} {s u : State α T} {t : T}
    (h : advance c s t (s.pos t) = some u) : ∃ p, s.pos t = some p ∧ p ≠ c.head ∧
      u = { s with
        visited := Function.update s.visited t (s.visited t ++ [p])
        pos := Function.update s.pos t (some (s.links.next p)) } := by
  cases hp : s.pos t with
  | none =>
    rw [hp] at h
    cases h
  | some p =>
    rw [hp] at h
    obtain ⟨hne,rfl⟩ := guarded_eq_some.mp h
    exact ⟨p,rfl,hne,rfl⟩

/-- A list of the nodes `xs`, no update and no traversal. -/
def init (l : Links α) (xs : List α) : State α T where
  links := l
  pc := .idle
  pos _ := none
  running := ∅
  visited _ := []
  list := xs
  waits _ := ∅

/-- Two stores with the same pointers at the nodes that `P` holds of. -/
def Agree (P : α → Prop) (l l' : Links α) : Prop :=
  ∀ z, P z → l.next z = l'.next z ∧ l.prev z = l'.prev z

/-- The list as it was when the update in progress began, with its writes so far. -/
def written (l : Links α) : Pc α → Links α
  | .addNewNext _ new _ next => l.setPrev next new
  | .addNewPrev _ new _ next => (l.setPrev next new).setNext new next
  | .addPrevNext _ new prev next => ((l.setPrev next new).setNext new next).setPrev new prev
  | .delPrevNext _ prev next => l.setPrev next prev
  | _ => l

def PcOk (s : State α T) (l : Links α) : Pc α → Prop
  | .idle => True
  | .addNextPrev tail new prev next | .addNewNext tail new prev next
  | .addNewPrev tail new prev next | .addPrevNext tail new prev next =>
    new ≠ c.head ∧ new ∉ s.list ∧ s.waits new = ∅ ∧
      prev = (if tail then l.prev c.head else c.head) ∧
      next = if tail then c.head else l.next c.head
  | .delNextPrev node prev next | .delPrevNext node prev next =>
    node ∈ s.list ∧ prev = l.prev node ∧ next = l.next node
  | .delNodePrev node => node ≠ c.head ∧ node ∉ s.list

/-- The nodes that the update in progress reads or writes. -/
def Scope (s : State α T) (z : α) : Prop := z = c.head ∨ z ∈ s.list ∨ s.pc.node = some z

structure Inv (s : State α T) (l : Links α) : Prop where
  ring : Seg l c.head s.list c.head
  nodup : (c.head::s.list).Nodup
  agree : Agree (Scope c s) s.links (written l s.pc)
  pc : PcOk c s l s.pc

section Updates

variable {c : Consts α} {s u : State α T} {l l' : Links α} {P Q : α → Prop} {x y z : α} {t : T}
  {a : Act α T} {xs ys : List α}

theorem Agree.mono {α : Type} {l l' : Links α} {P Q : α → Prop} (h : Agree P l l')
    (hq : ∀ z, Q z → P z) :
    Agree Q l l' :=
  fun z hz => h z (hq z hz)

theorem Agree.setNext (h : Agree P l l') (x y : α) : Agree P (l.setNext x y) (l'.setNext x y) := by
  intro z hz
  simp [h z hz]

theorem Agree.setPrev (h : Agree P l l') (x y : α) : Agree P (l.setPrev x y) (l'.setPrev x y) := by
  intro z hz
  simp [h z hz]

theorem seg_follows {α : Type} {l : Links α} {x y : α} {xs : List α} (h : Seg l x xs y)
    (hy : y ∉ xs) : Follows l.next y (l.next x) xs := by
  induction xs generalizing x with
  | nil => exact (seg_nil.mp h).1
  | cons w xs ih =>
    obtain ⟨hxw,hs⟩ := seg_cons.mp h
    rw [List.mem_cons,not_or] at hy
    exact ⟨hxw.1,Ne.symm hy.1,ih hs hy.2⟩

theorem Agree.seg {α : Type} {l l' : Links α} {y : α} {xs : List α}
    (h : Agree (fun z => z = y ∨ z ∈ xs) l l') (hs : Seg l' y xs y) : Seg l y xs y := by
  refine hs.congr (fun z hz => ?_) fun z hz => ?_
  · exact (h z (by simpa using hz)).1
  · exact (h z (by simpa [or_comm] using hz)).2

theorem Inv.ring_links {α T : Type} [DecidableEq α] {c : Consts α} {s : State α T} {l : Links α}
    (h : Inv c s l) (hw : written l s.pc = l) : Seg s.links c.head s.list c.head := by
  have hagree := h.agree
  rw [hw] at hagree
  refine (hagree.mono fun z hz => ?_).seg h.ring
  rcases hz with hz | hz
  · exact .inl hz
  · exact .inr (.inl hz)

theorem Inv.next_eq {α T : Type} [DecidableEq α] {c : Consts α} {s : State α T} {l : Links α}
    {z : α} (h : Inv c s l) (hz : z = c.head ∨ z ∈ s.list) : s.links.next z = l.next z := by
  have hscope : Scope c s z := by
    rcases hz with hz | hz
    · exact .inl hz
    · exact .inr (.inl hz)
  have hnew : ∀ new, new ≠ c.head → new ∉ s.list → z ≠ new := by
    rintro new hh hl rfl
    exact hz.elim hh hl
  rw [(h.agree z hscope).1]
  have hok := h.pc
  cases hp : s.pc with
  | addNewPrev tail new prev next | addPrevNext tail new prev next =>
    rw [hp] at hok
    simp [written,hnew new hok.1 hok.2.1]
  | _ => simp [written]

theorem Inv.next_prev {α T : Type} [DecidableEq α] {c : Consts α} {s : State α T} {l : Links α}
    {z : α} (h : Inv c s l) (hz : z = c.head ∨ z ∈ s.list) : s.links.next (l.prev z) = z := by
  have hmem : z ∈ s.list ++ [c.head] := by
    rw [List.mem_append,List.mem_singleton]
    exact hz.symm
  obtain ⟨hn,hp⟩ := h.ring.next_prev hmem
  rw [h.next_eq (List.mem_cons.mp hp)]
  exact hn

theorem Inv.follows {α T : Type} [DecidableEq α] {c : Consts α} {s : State α T} {l : Links α}
    (h : Inv c s l) : Follows s.links.next c.head (s.links.next c.head) s.list := by
  have hhead := (List.nodup_cons.mp h.nodup).1
  rw [h.next_eq (.inl rfl)]
  exact (seg_follows h.ring hhead).congr fun z hz => h.next_eq (.inr hz)

theorem Inv.frame {α T : Type} [DecidableEq α] {c : Consts α} {s u : State α T} {l : Links α}
    (h : Inv c s l) (hlinks : ∀ z, Scope c s z → u.links.next z = s.links.next z ∧
      u.links.prev z = s.links.prev z) (hpc : u.pc = s.pc) (hlist : u.list = s.list)
    (hwaits : ∀ z, s.waits z = ∅ → u.waits z = ∅) : Inv c u l := by
  refine ⟨?_,?_,fun z hz => ?_,?_⟩
  · rw [hlist]
    exact h.ring
  · rw [hlist]
    exact h.nodup
  · rw [Scope,hlist,hpc] at hz
    rw [(hlinks z hz).1,(hlinks z hz).2,hpc]
    exact h.agree z hz
  · have hok := h.pc
    rw [hpc]
    cases hp : s.pc with
    | idle => trivial
    | addNextPrev tail new prev next | addNewNext tail new prev next
    | addNewPrev tail new prev next | addPrevNext tail new prev next =>
      rw [hp] at hok
      obtain ⟨hh,hl,hw,hrest⟩ := hok
      exact ⟨hh,by rw [hlist]; exact hl,hwaits _ hw,hrest⟩
    | delNextPrev node prev next | delPrevNext node prev next =>
      rw [hp] at hok
      exact ⟨by rw [hlist]; exact hok.1,hok.2⟩
    | delNodePrev node =>
      rw [hp] at hok
      exact ⟨hok.1,by rw [hlist]; exact hok.2⟩

theorem seg_delBetween {h : α} (hs : Seg l h xs h) (hn : (h::xs).Nodup) (hx : x ∈ xs) :
    Seg (ListHead.delBetween l (l.prev x) (l.next x)) h (xs.erase x) h := by
  obtain ⟨as,bs,rfl⟩ := List.append_of_mem hx
  have hxas : x ∉ as := by
    intro hm
    exact (List.nodup_append.mp (List.nodup_cons.mp hn).2).2.2 x hm x (by simp) rfl
  have herase : (as ++ x::bs).erase x = as ++ bs := by
    rw [List.erase_append_right _ hxas,List.erase_cons_head]
  have hout : x ∉ h::(as ++ bs) := by
    have hperm : (h::(as ++ x::bs)).Perm (x::h::(as ++ bs)) :=
      (List.Perm.cons h List.perm_middle).trans (List.Perm.swap x h _)
    exact (List.nodup_cons.mp (hperm.nodup_iff.mp hn)).1
  rw [herase]
  refine (ListHead.seg_del hs hn).congr (fun z hz => ?_) fun z hz => ?_
  · have hzx : z ≠ x := fun he => hout (he ▸ hz)
    simp [ListHead.del,ListHead.init_next,hzx]
  · have hzx : z ≠ x := by
      rintro rfl
      refine hout ?_
      simp only [List.mem_append,List.mem_cons] at hz ⊢
      tauto
    simp [ListHead.del,ListHead.init_prev,hzx]

theorem Inv.goOn {α T : Type} [DecidableEq α] {c : Consts α} {s u : State α T} {l : Links α}
    (h : Inv c s l) (hlinks : Agree (Scope c s) u.links (written l u.pc))
    (hnode : u.pc.node = s.pc.node) (hlist : u.list = s.list) (hok : PcOk c u l u.pc) :
    Inv c u l := by
  refine ⟨?_,?_,hlinks.mono fun z hz => ?_,hok⟩
  · rw [hlist]
    exact h.ring
  · rw [hlist]
    exact h.nodup
  · rwa [Scope,hlist,hnode] at hz

theorem Inv.go {α T : Type} [DecidableEq α] {c : Consts α} {s u : State α T} {l : Links α}
    (h : Inv c s l) (hst : go c s s.pc = some u) : ∃ l', Inv c u l' := by
  have hagree := h.agree
  have hok := h.pc
  cases hp : s.pc with
  | idle =>
    rw [hp] at hst
    cases hst
  | addNextPrev tail new prev next =>
    rw [hp] at hst hagree hok
    cases hst
    exact ⟨l,h.goOn (hagree.setPrev next new) (by rw [hp]; rfl) rfl hok⟩
  | addNewNext tail new prev next =>
    rw [hp] at hst hagree hok
    cases hst
    exact ⟨l,h.goOn (hagree.setNext new next) (by rw [hp]; rfl) rfl hok⟩
  | addNewPrev tail new prev next =>
    rw [hp] at hst hagree hok
    cases hst
    exact ⟨l,h.goOn (hagree.setPrev new prev) (by rw [hp]; rfl) rfl hok⟩
  | addPrevNext tail new prev next =>
    rw [hp] at hst hagree hok
    cases hst
    obtain ⟨hh,hl,_,rfl,rfl⟩ := hok
    have hnew : new ∉ c.head::s.list := by
      rw [List.mem_cons,not_or]
      exact ⟨hh,hl⟩
    have hlist : (c.head::if tail then s.list ++ [new] else new::s.list).Nodup := by
      obtain ⟨hhead,hnd⟩ := List.nodup_cons.mp h.nodup
      cases tail with
      | false =>
        exact List.nodup_cons.mpr ⟨by simp [hhead,Ne.symm hh],List.nodup_cons.mpr ⟨hl,hnd⟩⟩
      | true =>
        refine List.nodup_cons.mpr ⟨by simp [hhead,Ne.symm hh],?_⟩
        simpa using hnd.concat hl
    refine ⟨_,?_,hlist,(hagree.setNext _ new).mono fun z hz => ?_,trivial⟩
    · cases tail with
      | false => exact ListHead.seg_add h.ring h.nodup hnew
      | true => exact ListHead.seg_addTail h.ring h.nodup hnew
    · rw [Scope,hp]
      rcases hz with hz | hz | hz
      · exact .inl hz
      · cases tail with
        | false =>
          rcases List.mem_cons.mp hz with rfl | hz
          · exact .inr (.inr rfl)
          · exact .inr (.inl hz)
        | true =>
          rcases List.mem_append.mp hz with hz | hz
          · exact .inr (.inl hz)
          · rw [List.mem_singleton.mp hz]
            exact .inr (.inr rfl)
      · cases hz
  | delNextPrev node prev next =>
    rw [hp] at hst hagree hok
    cases hst
    exact ⟨l,h.goOn (hagree.setPrev next prev) (by rw [hp]; rfl) rfl hok⟩
  | delPrevNext node prev next =>
    rw [hp] at hst hagree hok
    cases hst
    obtain ⟨hmem,rfl,rfl⟩ := hok
    obtain ⟨hhead,hnd⟩ := List.nodup_cons.mp h.nodup
    refine ⟨_,seg_delBetween h.ring h.nodup hmem,?_,(hagree.setNext _ _).mono fun z hz => ?_,?_⟩
    · exact List.nodup_cons.mpr ⟨fun hm => hhead (List.mem_of_mem_erase hm),hnd.erase node⟩
    · rw [Scope,hp]
      rcases hz with hz | hz | hz
      · exact .inl hz
      · exact .inr (.inl (List.mem_of_mem_erase hz))
      · exact .inr (.inr hz)
    · exact ⟨fun he => hhead (he ▸ hmem),fun hm => (hnd.mem_erase_iff.mp hm).1 rfl⟩
  | delNodePrev node =>
    rw [hp] at hst hagree hok
    cases hst
    obtain ⟨hh,hl⟩ := hok
    refine ⟨l,h.ring,h.nodup,fun z hz => ?_,trivial⟩
    have hz' : Scope c s z := by
      rcases hz with hz | hz | hz
      · exact .inl hz
      · exact .inr (.inl hz)
      · cases hz
    have hzn : z ≠ node := by
      rintro rfl
      rcases hz with hz | hz | hz
      · exact hh hz
      · exact hl hz
      · cases hz
    obtain ⟨hn,hpr⟩ := hagree z hz'
    refine ⟨hn,?_⟩
    rw [setPrev_prev,if_neg hzn]
    exact hpr

theorem Inv.step (h : Inv c s l) (hst : RcuList.step c s a = some u) : ∃ l', Inv c u l' := by
  cases a with
  | add tail new =>
    obtain ⟨⟨hp,hh,_,hl,hw,_⟩,rfl⟩ := guarded_eq_some.mp hst
    have hring := h.ring_links (by rw [hp]; rfl)
    exact ⟨s.links,hring,h.nodup,fun _ _ => ⟨rfl,rfl⟩,hh,hl,hw,rfl,rfl⟩
  | del node =>
    obtain ⟨⟨hp,hmem⟩,rfl⟩ := guarded_eq_some.mp hst
    have hring := h.ring_links (by rw [hp]; rfl)
    exact ⟨s.links,hring,h.nodup,fun _ _ => ⟨rfl,rfl⟩,hmem,rfl,rfl⟩
  | update => exact h.go hst
  | write node next prev =>
    obtain ⟨⟨hh,_,hl,_,hn⟩,rfl⟩ := guarded_eq_some.mp hst
    refine ⟨l,h.frame (fun z hz => ?_) rfl rfl fun _ hz => hz⟩
    have hzn : z ≠ node := by
      rintro rfl
      rcases hz with hz | hz | hz
      · exact hh hz
      · exact hl hz
      · exact hn hz
    simp [hzn]
  | start t =>
    obtain ⟨_,rfl⟩ := guarded_eq_some.mp hst
    exact ⟨l,h.frame (fun _ _ => ⟨rfl,rfl⟩) rfl rfl fun _ hz => hz⟩
  | next t =>
    obtain ⟨p,_,_,rfl⟩ := advance_some hst
    exact ⟨l,h.frame (fun _ _ => ⟨rfl,rfl⟩) rfl rfl fun _ hz => hz⟩
  | stop t =>
    obtain ⟨_,rfl⟩ := guarded_eq_some.mp hst
    refine ⟨l,h.frame (fun _ _ => ⟨rfl,rfl⟩) rfl rfl fun z hz => ?_⟩
    show (s.waits z).erase t = ∅
    rw [hz]
    rfl

theorem Inv.init {α T : Type} [DecidableEq α] {c : Consts α} {l : Links α} {xs : List α}
    (hs : Seg l c.head xs c.head) (hn : (c.head::xs).Nodup) :
    Inv c (init l xs : State α T) l :=
  ⟨hs,hn,fun _ _ => ⟨rfl,rfl⟩,trivial⟩

end Updates

/-- Traversal `t` has visited some of the nodes that `g` holds of, and the others are still
before it. -/
structure Reads (c : Consts α) (s : State α T) (t : T) (g : α → Bool) (p : α) (ys : List α) :
    Prop where
  running : t ∈ s.running
  cursor : s.pos t = some p
  path : Follows s.links.next c.head p ys
  known : ∀ y ∈ ys, y ∈ s.list ∨ t ∈ s.waits y
  order : (s.visited t).filter g ++ ys.filter g = s.list.filter g

section Reads

variable {c : Consts α} {s u : State α T} {l : Links α} {p z : α} {t t' : T} {a : Act α T}
  {g f : α → Bool} {ys zs : List α}

theorem filter_again {α : Type} {g f : α → Bool} (hf : ∀ z, f z = true → g z = true) (xs : List α) :
    (xs.filter g).filter f = xs.filter f := by
  rw [List.filter_filter]
  refine List.filter_congr fun z _ => ?_
  cases hz : f z with
  | false => rfl
  | true => simp [hf z hz]

theorem Reads.mono {α T : Type} [DecidableEq α] {c : Consts α} {s : State α T} {p : α} {t : T}
    {g f : α → Bool} {ys : List α} (h : Reads c s t g p ys) (hf : ∀ z, f z = true → g z = true) :
    Reads c s t f p ys := by
  refine ⟨h.running,h.cursor,h.path,h.known,?_⟩
  rw [← filter_again hf,← filter_again hf ys,← filter_again hf s.list,← List.filter_append,
    h.order]

theorem Reads.notMem {α T : Type} {c : Consts α} {s : State α T} {p z : α} {t : T} {g : α → Bool}
    {ys : List α} (h : Reads c s t g p ys) (hl : z ∉ s.list) (hw : s.waits z = ∅) : z ∉ ys := by
  intro hz
  rcases h.known z hz with hk | hk
  · exact hl hk
  · rw [hw] at hk
    exact Finset.notMem_empty t hk

theorem Reads.frame {α T : Type} {c : Consts α} {s u : State α T} {p : α} {t : T} {g : α → Bool}
    {ys zs : List α} (h : Reads c s t g p ys) (hrun : u.running = s.running) (hpos : u.pos = s.pos)
    (hvis : u.visited = s.visited) (hpath : Follows u.links.next c.head p zs)
    (hknown : ∀ y ∈ zs, y ∈ u.list ∨ t ∈ u.waits y) (hzs : zs.filter g = ys.filter g)
    (hlist : u.list.filter g = s.list.filter g) : Reads c u t g p zs := by
  refine ⟨?_,?_,hpath,hknown,?_⟩
  · rw [hrun]
    exact h.running
  · rw [hpos]
    exact h.cursor
  · rw [hvis,hzs,hlist]
    exact h.order

theorem Inv.go_filter {α T : Type} [DecidableEq α] {c : Consts α} {s u : State α T} {l : Links α}
    {g : α → Bool} (hi : Inv c s l) (hst : RcuList.go c s s.pc = some u)
    (hg : ∀ z, g z = true → z ∈ s.list ∧ z ∈ u.list) : u.list.filter g = s.list.filter g := by
  have hok := hi.pc
  cases hp : s.pc with
  | idle =>
    rw [hp] at hst
    cases hst
  | addPrevNext tail new prev next =>
    rw [hp] at hst hok
    cases hst
    have hgnew : g new = false := by
      rw [Bool.eq_false_iff]
      intro hgn
      exact hok.2.1 (hg new hgn).1
    cases tail with
    | false => simp [hgnew]
    | true => simp [List.filter_append,hgnew]
  | delPrevNext node prev next =>
    rw [hp] at hst
    cases hst
    show (s.list.erase node).filter g = s.list.filter g
    rw [← List.erase_filter]
    refine List.erase_of_not_mem fun hm => ?_
    -- the erased node is not in the list any more
    have hnode := (hg node (List.mem_filter.mp hm).2).2
    exact ((List.nodup_cons.mp hi.nodup).2.mem_erase_iff.mp hnode).1 rfl
  | _ =>
    rw [hp] at hst
    cases hst
    rfl

theorem Reads.go {α T : Type} [DecidableEq α] {c : Consts α} {s u : State α T} {l : Links α} {p : α}
    {t : T} {g : α → Bool} {ys : List α} (h : Reads c s t g p ys) (hi : Inv c s l)
    (hst : go c s s.pc = some u)
    (hg : ∀ z, g z = true → z ∈ s.list ∧ z ∈ u.list) : ∃ zs, Reads c u t g p zs := by
  have hok := hi.pc
  have hfilterList := hi.go_filter hst hg
  cases hp : s.pc with
  | idle =>
    rw [hp] at hst
    cases hst
  | addNextPrev tail new prev next =>
    rw [hp] at hst
    cases hst
    exact ⟨ys,h.frame rfl rfl rfl h.path h.known rfl rfl⟩
  | addNewNext tail new prev next =>
    rw [hp] at hst hok
    cases hst
    obtain ⟨_,hl,hw,_⟩ := hok
    exact ⟨ys,h.frame rfl rfl rfl (h.path.write_off (h.notMem hl hw) next) h.known rfl rfl⟩
  | addNewPrev tail new prev next =>
    rw [hp] at hst
    cases hst
    exact ⟨ys,h.frame rfl rfl rfl h.path h.known rfl rfl⟩
  | addPrevNext tail new prev next =>
    have hscope := hi.agree new (.inr (.inr (by rw [hp]; rfl)))
    rw [hp] at hst hok hscope
    cases hst
    obtain ⟨hh,hl,hw,hprev,hnext⟩ := hok
    have hnew : s.links.next new = s.links.next prev := by
      have hwritten : s.links.next new = next := by
        rw [hscope.1]
        simp [written]
      rw [hwritten,hprev,hnext]
      cases tail with
      | false => exact (hi.next_eq (.inl rfl)).symm
      | true => exact (hi.next_prev (.inl rfl)).symm
    have hgnew : g new = false := by
      rw [Bool.eq_false_iff]
      intro hgn
      exact hl (hg new hgn).1
    obtain ⟨zs,hzs,hmem,hfilter⟩ := h.path.link (h.notMem hl hw) hh hnew
    refine ⟨zs,h.frame rfl rfl rfl hzs (fun y hy => ?_) (hfilter g hgnew) ?_⟩
    · rcases hmem y hy with hy | rfl
      · rcases h.known y hy with hy | hy
        · refine .inl ?_
          cases tail with
          | false => exact List.mem_cons_of_mem _ hy
          | true => exact List.mem_append_left _ hy
        · exact .inr hy
      · refine .inl ?_
        cases tail with
        | false => exact List.mem_cons_self
        | true => exact List.mem_append_right _ List.mem_cons_self
    · exact hfilterList
  | delNextPrev node prev next =>
    rw [hp] at hst
    cases hst
    exact ⟨ys,h.frame rfl rfl rfl h.path h.known rfl rfl⟩
  | delPrevNext node prev next =>
    rw [hp] at hst hok
    cases hst
    obtain ⟨hmem,rfl,rfl⟩ := hok
    obtain ⟨hhead,hnd⟩ := List.nodup_cons.mp hi.nodup
    have hgnode : g node = false := by
      rw [Bool.eq_false_iff]
      intro hgn
      exact (hnd.mem_erase_iff.mp (hg node hgn).2).1 rfl
    obtain ⟨zs,hzs,hmem',hfilter⟩ := h.path.unlink (hi.next_prev (.inr hmem))
      fun he => hhead (he ▸ hmem)
    rw [hi.next_eq (.inr hmem)] at hzs
    refine ⟨zs,h.frame rfl rfl rfl hzs (fun y hy => ?_) (hfilter g hgnode) ?_⟩
    · by_cases hyn : y = node
      · subst hyn
        refine .inr ?_
        show t ∈ Function.update s.waits y s.running y
        rw [Function.update_self]
        exact h.running
      · rcases h.known y (hmem' y hy) with hk | hk
        · exact .inl ((List.mem_erase_of_ne hyn).mpr hk)
        · refine .inr ?_
          show t ∈ Function.update s.waits node s.running y
          rw [Function.update_of_ne hyn]
          exact hk
    · exact hfilterList
  | delNodePrev node =>
    rw [hp] at hst
    cases hst
    exact ⟨ys,h.frame rfl rfl rfl h.path h.known rfl rfl⟩

theorem Reads.others (h : Reads c s t g p ys) (hst : step c s a = some u) (hu : a ≠ .update)
    (ha : a ≠ .stop t) : (a ≠ .next t ∧ Reads c u t g p ys) ∨
      (a = .next t ∧ ∃ zs, ys = p::zs ∧ Reads c u t g (s.links.next p) zs) := by
  cases a with
  | add tail new =>
    obtain ⟨_,rfl⟩ := guarded_eq_some.mp hst
    exact .inl ⟨by simp,h.frame rfl rfl rfl h.path h.known rfl rfl⟩
  | del node =>
    obtain ⟨_,rfl⟩ := guarded_eq_some.mp hst
    exact .inl ⟨by simp,h.frame rfl rfl rfl h.path h.known rfl rfl⟩
  | update => exact absurd rfl hu
  | write node next prev =>
    obtain ⟨⟨_,_,hl,hw,_⟩,rfl⟩ := guarded_eq_some.mp hst
    have hpath := h.path.write_off (h.notMem hl hw) next
    exact .inl ⟨by simp,h.frame rfl rfl rfl hpath h.known rfl rfl⟩
  | start t' =>
    obtain ⟨ht,rfl⟩ := guarded_eq_some.mp hst
    have hne : t ≠ t' := by
      rintro rfl
      exact ht h.running
    refine .inl ⟨by simp,Finset.mem_insert_of_mem h.running,?_,h.path,h.known,?_⟩
    · show Function.update s.pos t' _ t = some p
      rw [Function.update_of_ne hne]
      exact h.cursor
    · show (Function.update s.visited t' [] t).filter g ++ _ = _
      rw [Function.update_of_ne hne]
      exact h.order
  | next t' =>
    obtain ⟨q,hq,hqh,rfl⟩ := advance_some hst
    by_cases htt : t = t'
    · subst htt
      obtain rfl : p = q := Option.some.inj (h.cursor.symm.trans hq)
      cases ys with
      | nil => exact absurd h.path hqh
      | cons y ys =>
        obtain rfl : p = y := h.path.1
        refine .inr ⟨rfl,ys,rfl,h.running,?_,h.path.tail,fun z hz => ?_,?_⟩
        · exact Function.update_self _ _ _
        · exact h.known z (List.mem_cons_of_mem _ hz)
        · show (Function.update s.visited t (s.visited t ++ [p]) t).filter g ++ _ = _
          have horder := h.order
          rw [← List.singleton_append,List.filter_append] at horder
          rw [Function.update_self,List.filter_append,List.append_assoc]
          exact horder
    · refine .inl ⟨by simpa using Ne.symm htt,h.running,?_,h.path,h.known,?_⟩
      · show Function.update s.pos t' _ t = some p
        rw [Function.update_of_ne htt]
        exact h.cursor
      · show (Function.update s.visited t' _ t).filter g ++ _ = _
        rw [Function.update_of_ne htt]
        exact h.order
  | stop t' =>
    obtain ⟨_,rfl⟩ := guarded_eq_some.mp hst
    have hne : t ≠ t' := by
      rintro rfl
      exact ha rfl
    have hmem := Finset.mem_erase.mpr ⟨hne,h.running⟩
    refine .inl ⟨by simp,hmem,?_,h.path,fun y hy => ?_,h.order⟩
    · show Function.update s.pos t' none t = some p
      rw [Function.update_of_ne hne]
      exact h.cursor
    · exact (h.known y hy).imp_right fun hw => Finset.mem_erase.mpr ⟨hne,hw⟩

theorem Reads.step (h : Reads c s t g p ys) (hi : Inv c s l) (hst : RcuList.step c s a = some u)
    (ha : a ≠ .stop t) (hg : ∀ z, g z = true → z ∈ s.list ∧ z ∈ u.list) :
    ∃ q zs, Reads c u t g q zs := by
  by_cases hu : a = .update
  · subst hu
    exact ⟨p,h.go hi hst hg⟩
  · rcases h.others hst hu ha with ⟨_,hr⟩ | ⟨_,zs,_,hr⟩
    · exact ⟨p,ys,hr⟩
    · exact ⟨_,zs,hr⟩

theorem Reads.exec (h : Reads c s t g p ys) {as : List (Act α T)}
    (has : ∀ a ∈ as, a ≠ .update ∧ a ≠ .stop t)
    (he : StepSystem.exec (RcuList.step c) s as = some u) :
    ∃ q zs, Reads c u t g q zs ∧ as.count (.next t) + zs.length = ys.length := by
  induction as generalizing s p ys with
  | nil =>
    cases he
    exact ⟨p,ys,h,by simp⟩
  | cons a as ih =>
    obtain ⟨v,hst,hv⟩ := Option.bind_eq_some_iff.mp he
    obtain ⟨hu,ha⟩ := has a List.mem_cons_self
    have has' : ∀ b ∈ as, b ≠ .update ∧ b ≠ .stop t :=
      fun b hb => has b (List.mem_cons_of_mem _ hb)
    rcases h.others hst hu ha with ⟨hne,hr⟩ | ⟨rfl,zs,rfl,hr⟩
    · obtain ⟨q,ws,hq,hcount⟩ := ih hr has' hv
      refine ⟨q,ws,hq,?_⟩
      rw [List.count_cons_of_ne hne]
      exact hcount
    · obtain ⟨q,ws,hq,hcount⟩ := ih hr has' hv
      refine ⟨q,ws,hq,?_⟩
      rw [List.count_cons_self,List.length_cons]
      omega

theorem Reads.at_head_iff {α T : Type} {c : Consts α} {s : State α T} {p : α} {t : T} {g : α → Bool}
    {ys : List α} (h : Reads c s t g p ys) : s.pos t = some c.head ↔ ys = [] := by
  rw [h.cursor]
  constructor
  · intro hp
    obtain rfl : p = c.head := Option.some.inj hp
    exact h.path.nil_of_sentinel
  · rintro rfl
    exact congrArg some h.path

theorem Reads.enabled (h : Reads c s t g p ys) (hys : ys ≠ []) :
    (RcuList.step c s (.next t)).isSome := by
  have hp : p ≠ c.head := by
    rintro rfl
    exact hys h.path.nil_of_sentinel
  simp [RcuList.step,advance,h.cursor,guarded,hp]

theorem Inv.reads (hi : Inv c s l) (hst : RcuList.step c s (.start t) = some u) (g : α → Bool) :
    Reads c u t g (s.links.next c.head) s.list := by
  obtain ⟨_,rfl⟩ := guarded_eq_some.mp hst
  refine ⟨Finset.mem_insert_self t _,Function.update_self _ _ _,hi.follows,fun y hy => .inl hy,?_⟩
  show (Function.update s.visited t [] t).filter g ++ s.list.filter g = s.list.filter g
  rw [Function.update_self]
  rfl

theorem Reads.visited_step (h : Reads c s t g p ys) (hst : RcuList.step c s a = some u)
    (hz : z ∈ u.visited t) : z ∈ s.visited t ∨ z ∈ s.list ∨ t ∈ s.waits z := by
  cases a with
  | start t' =>
    obtain ⟨ht,rfl⟩ := guarded_eq_some.mp hst
    have hne : t ≠ t' := by
      rintro rfl
      exact ht h.running
    have hz' : z ∈ Function.update s.visited t' [] t := hz
    rw [Function.update_of_ne hne] at hz'
    exact .inl hz'
  | next t' =>
    obtain ⟨q,hq,hqh,rfl⟩ := advance_some hst
    have hz' : z ∈ Function.update s.visited t' (s.visited t' ++ [q]) t := hz
    by_cases htt : t = t'
    · subst htt
      rw [Function.update_self,List.mem_append,List.mem_singleton] at hz'
      refine hz'.imp_right fun hzq => h.known z ?_
      obtain rfl : p = q := Option.some.inj (h.cursor.symm.trans hq)
      cases ys with
      | nil => exact absurd h.path hqh
      | cons y ys =>
        rw [hzq,h.path.1]
        exact List.mem_cons_self
    · rw [Function.update_of_ne htt] at hz'
      exact .inl hz'
  | update =>
    cases hp : s.pc with
    | idle =>
      rw [RcuList.step,hp] at hst
      cases hst
    | _ =>
      rw [RcuList.step,hp] at hst
      cases hst
      exact .inl hz
  | _ =>
    obtain ⟨_,rfl⟩ := guarded_eq_some.mp hst
    exact .inl hz

theorem Inv.waits_step (hi : Inv c s l) (hst : RcuList.step c s a = some u)
    (hz : t ∈ u.waits z) : z ∈ s.list ∨ t ∈ s.waits z := by
  cases a with
  | update =>
    have hok := hi.pc
    cases hp : s.pc with
    | idle =>
      rw [RcuList.step,hp] at hst
      cases hst
    | delPrevNext node prev next =>
      rw [RcuList.step,hp] at hst
      rw [hp] at hok
      cases hst
      have hz' : t ∈ Function.update s.waits node s.running z := hz
      by_cases hzn : z = node
      · rw [hzn]
        exact .inl hok.1
      · rw [Function.update_of_ne hzn] at hz'
        exact .inr hz'
    | _ =>
      rw [RcuList.step,hp] at hst
      cases hst
      exact .inr hz
  | next t' =>
    obtain ⟨_,_,_,rfl⟩ := advance_some hst
    exact .inr hz
  | stop t' =>
    obtain ⟨_,rfl⟩ := guarded_eq_some.mp hst
    exact .inr (Finset.mem_of_mem_erase hz)
  | _ =>
    obtain ⟨_,rfl⟩ := guarded_eq_some.mp hst
    exact .inr hz

theorem Inv.filter_step (hi : Inv c s l) (hst : RcuList.step c s a = some u)
    (hg : ∀ z, g z = true → z ∈ s.list ∧ z ∈ u.list) : u.list.filter g = s.list.filter g := by
  cases a with
  | update => exact hi.go_filter hst hg
  | next t =>
    obtain ⟨_,_,_,rfl⟩ := advance_some hst
    rfl
  | _ =>
    obtain ⟨_,rfl⟩ := guarded_eq_some.mp hst
    rfl

end Reads

/-- The traversal of `t` that began in `s` and is not over, with the lists there were since. -/
inductive Spans (c : Consts α) (t : T) (s : State α T) : List (List α) → State α T → Prop
  | start {u : State α T} : step c s (.start t) = some u → Spans c t s [u.list] u
  | step {ms : List (List α)} {u v : State α T} {a : Act α T} : Spans c t s ms u → a ≠ .stop t →
    step c u a = some v → Spans c t s (ms ++ [v.list]) v

/-- The node was in every one of the lists. -/
def always (ms : List (List α)) (z : α) : Bool := ms.all (z ∈ ·)

/-- The node was in one of the lists. -/
def Ever (ms : List (List α)) (z : α) : Prop := ∃ m ∈ ms, z ∈ m

/-- A traversal that saw the lists `ms`. -/
structure Trav (c : Consts α) (s : State α T) (t : T) (ms : List (List α)) : Prop where
  reads : ∃ p ys, Reads c s t (always ms) p ys
  now : s.list ∈ ms
  visited : ∀ z ∈ s.visited t, Ever ms z
  waits : ∀ z, t ∈ s.waits z → Ever ms z
  order : ∀ m ∈ ms, m.filter (always ms) = s.list.filter (always ms)

section Traversal

variable {c : Consts α} {s u v : State α T} {l : Links α} {xs : List α} {p z : α} {t : T}
  {a : Act α T} {ms : List (List α)} {m : List α}

theorem always_iff : always ms z = true ↔ ∀ m ∈ ms, z ∈ m := by
  simp [always]

theorem always_of_append (h : always (ms ++ [m]) z = true) : always ms z = true := by
  rw [always_iff] at h ⊢
  exact fun n hn => h n (List.mem_append_left _ hn)

theorem Ever.append {α : Type} {z : α} {ms : List (List α)} {m : List α} (h : Ever ms z) :
    Ever (ms ++ [m]) z := by
  obtain ⟨n,hn,hz⟩ := h
  exact ⟨n,List.mem_append_left _ hn,hz⟩

theorem Trav.start (hi : Inv c s l) (hst : step c s (.start t) = some u)
    (hw : ∀ z, t ∉ s.waits z) : Trav c u t [u.list] := by
  refine ⟨⟨_,_,hi.reads hst _⟩,List.mem_singleton_self _,?_,?_,?_⟩
  all_goals obtain ⟨_,rfl⟩ := guarded_eq_some.mp hst
  · intro z hz
    have hz' : z ∈ Function.update s.visited t [] t := hz
    rw [Function.update_self] at hz'
    cases hz'
  · exact fun z hz => absurd hz (hw z)
  · intro m hm
    rw [List.mem_singleton.mp hm]

theorem Trav.step (h : Trav c s t ms) (hi : Inv c s l) (hst : RcuList.step c s a = some u)
    (ha : a ≠ .stop t) : Trav c u t (ms ++ [u.list]) := by
  obtain ⟨p,ys,hreads⟩ := h.reads
  have hg : ∀ z, always (ms ++ [u.list]) z = true → z ∈ s.list ∧ z ∈ u.list := by
    intro z hz
    rw [always_iff] at hz
    exact ⟨hz _ (List.mem_append_left _ h.now),hz _ (by simp)⟩
  have hnow : ∀ z, z ∈ s.list ∨ t ∈ s.waits z → Ever ms z := by
    rintro z (hz | hz)
    · exact ⟨s.list,h.now,hz⟩
    · exact h.waits z hz
  refine ⟨?_,by simp,fun z hz => ?_,fun z hz => ?_,fun m hm => ?_⟩
  · exact (hreads.mono fun z hz => always_of_append hz).step hi hst ha hg
  · rcases hreads.visited_step hst hz with hz | hz
    · exact (h.visited z hz).append
    · exact (hnow z hz).append
  · exact (hnow z (hi.waits_step hst hz)).append
  · rw [hi.filter_step hst hg]
    rcases List.mem_append.mp hm with hm | hm
    · rw [← filter_again (fun z hz => always_of_append hz) m,h.order m hm]
      exact filter_again (fun z hz => always_of_append hz) _
    · rw [List.mem_singleton.mp hm]
      exact hi.filter_step hst hg

theorem waits_running_step (h : ∀ z, s.waits z ⊆ s.running) (hst : RcuList.step c s a = some u)
    (z : α) : u.waits z ⊆ u.running := by
  cases a with
  | update =>
    cases hp : s.pc with
    | idle =>
      rw [RcuList.step,hp] at hst
      cases hst
    | delPrevNext node prev next =>
      rw [RcuList.step,hp] at hst
      cases hst
      show Function.update s.waits node s.running z ⊆ s.running
      by_cases hzn : z = node
      · rw [hzn,Function.update_self]
      · rw [Function.update_of_ne hzn]
        exact h z
    | _ =>
      rw [RcuList.step,hp] at hst
      cases hst
      exact h z
  | start t =>
    obtain ⟨_,rfl⟩ := guarded_eq_some.mp hst
    exact (h z).trans (Finset.subset_insert t _)
  | next t =>
    obtain ⟨_,_,_,rfl⟩ := advance_some hst
    exact h z
  | stop t =>
    obtain ⟨_,rfl⟩ := guarded_eq_some.mp hst
    exact Finset.erase_subset_erase t (h z)
  | _ =>
    obtain ⟨_,rfl⟩ := guarded_eq_some.mp hst
    exact h z

/-- A list that has been in use for a while. -/
structure Safe (c : Consts α) (s : State α T) : Prop where
  inv : ∃ l, Inv c s l
  waits : ∀ z, s.waits z ⊆ s.running

theorem Safe.step (h : Safe c s) (hst : RcuList.step c s a = some u) : Safe c u := by
  obtain ⟨l,hi⟩ := h.inv
  exact ⟨hi.step hst,waits_running_step h.waits hst⟩

theorem safe_of_reach (hs : Seg l c.head xs c.head) (hn : (c.head::xs).Nodup)
    (hr : Reach (RcuList.step c) Anything (init l xs) s) : Safe c s :=
  hr.invariant ⟨⟨l,Inv.init hs hn⟩,fun _ => Finset.empty_subset _⟩
    fun _ _ _ h _ hst => h.step hst

theorem Spans.trav (h : Spans c t s ms u) (hs : Safe c s) : Safe c u ∧ Trav c u t ms := by
  induction h with
  | start hst =>
    obtain ⟨l,hi⟩ := hs.inv
    refine ⟨hs.step hst,Trav.start hi hst fun z hz => ?_⟩
    exact (guarded_eq_some.mp hst).1 (hs.waits z hz)
  | step _ ha hst ih =>
    obtain ⟨hsafe,ht⟩ := ih
    obtain ⟨l,hi⟩ := hsafe.inv
    exact ⟨hsafe.step hst,ht.step hi hst ha⟩

theorem Trav.at_head {α T : Type} [DecidableEq α] {c : Consts α} {s : State α T} {t : T}
    {ms : List (List α)} (h : Trav c s t ms) (hp : s.pos t = some c.head) :
    ∀ m ∈ ms, (s.visited t).filter (always ms) = m.filter (always ms) := by
  intro m hm
  obtain ⟨p,ys,hreads⟩ := h.reads
  obtain rfl : p = c.head := Option.some.inj (hreads.cursor.symm.trans hp)
  have hys := hreads.path.nil_of_sentinel
  have horder := hreads.order
  rw [hys,List.filter_nil,List.append_nil] at horder
  rw [h.order m hm,horder]

theorem Trav.count_always {α T : Type} [DecidableEq α] {c : Consts α} {s : State α T} {l : Links α}
    {z : α} {t : T} {ms : List (List α)} (h : Trav c s t ms) (hi : Inv c s l)
    (hp : s.pos t = some c.head) (hz : ∀ m ∈ ms, z ∈ m) : (s.visited t).count z = 1 := by
  have ha : always ms z = true := always_iff.mpr hz
  rw [← List.count_filter ha,h.at_head hp s.list h.now,List.count_filter ha]
  exact List.count_eq_one_of_mem (List.nodup_cons.mp hi.nodup).2 (hz _ h.now)

theorem Trav.known {α T : Type} [DecidableEq α] {c : Consts α} {s : State α T} {z : α} {t : T}
    {ms : List (List α)} (h : Trav c s t ms)
    (hz : z ∈ s.visited t ∨ s.pos t = some z ∧ z ≠ c.head) : Ever ms z := by
  rcases hz with hz | ⟨hp,hz⟩
  · exact h.visited z hz
  · obtain ⟨p,ys,hreads⟩ := h.reads
    obtain rfl : p = z := Option.some.inj (hreads.cursor.symm.trans hp)
    cases ys with
    | nil => exact absurd hreads.path hz
    | cons y ys =>
      rcases hreads.known p (by rw [hreads.path.1]; exact List.mem_cons_self) with hl | hw
      · exact ⟨s.list,h.now,hl⟩
      · exact h.waits p hw

/-- Without updates a traversal comes to the head, after as many of its steps as nodes are
before it. -/
theorem Trav.ends (h : Trav c s t ms) : ∃ n, ∀ as u,
    (∀ a ∈ as, a ≠ .update ∧ a ≠ .stop t) → exec (RcuList.step c) s as = some u →
      as.count (.next t) ≤ n ∧ (u.pos t = some c.head ↔ as.count (.next t) = n) ∧
      (as.count (.next t) < n → (RcuList.step c u (.next t)).isSome) := by
  obtain ⟨p,ys,hreads⟩ := h.reads
  refine ⟨ys.length,fun as u has he => ?_⟩
  obtain ⟨q,zs,hq,hcount⟩ := hreads.exec has he
  refine ⟨by omega,?_,fun hlt => hq.enabled ?_⟩
  · rw [hq.at_head_iff,← List.length_eq_zero_iff]
    omega
  · rintro rfl
    rw [List.length_nil] at hcount
    omega

/-- A traversal visits only nodes that were in the list since it began; those that were in it
all the time it visits once and in their order; and it comes to the head when no more updates
are made. -/
theorem traversal_sound (hs : Seg (l : Links α) c.head xs c.head) (hn : (c.head::xs).Nodup)
    (hr : Reach (RcuList.step c) Anything (init l xs) s) (ht : Spans c t s ms u) :
    (∀ z, z ∈ u.visited t ∨ u.pos t = some z ∧ z ≠ c.head → ∃ m ∈ ms, z ∈ m) ∧
    (u.pos t = some c.head →
      (∀ z, (∀ m ∈ ms, z ∈ m) → (u.visited t).count z = 1) ∧
      ∀ m ∈ ms, (u.visited t).filter (always ms) = m.filter (always ms)) ∧
    ∃ n, ∀ as v, (∀ a ∈ as, a ≠ .update ∧ a ≠ .stop t) → exec (RcuList.step c) u as = some v →
      as.count (.next t) ≤ n ∧ (v.pos t = some c.head ↔ as.count (.next t) = n) ∧
      (as.count (.next t) < n → (RcuList.step c v (.next t)).isSome) := by
  obtain ⟨hsafe,htrav⟩ := ht.trav (safe_of_reach hs hn hr)
  obtain ⟨l',hi⟩ := hsafe.inv
  refine ⟨fun z hz => htrav.known hz,fun hp => ⟨fun z hz => ?_,htrav.at_head hp⟩,htrav.ends⟩
  exact htrav.count_always hi hp hz

end Traversal

/-- The node under the cursor is deleted, and the traversal still comes to the head. -/
theorem traversal_sound_deleted : ∃ (ms : List (List ℕ)) (u : State ℕ Unit),
    Spans ⟨0,3⟩ () (init ⟨fun n => if n = 2 then 0 else n + 1,fun n => if n = 0 then 2 else n - 1⟩
      [1,2]) ms u ∧ u.list = [1] ∧ u.pos () = some 0 ∧ (u.visited ()).count 1 = 1 := by
  have hspan : Spans (⟨0,3⟩ : Consts ℕ) () (init ⟨fun n => if n = 2 then 0 else n + 1,
      fun n => if n = 0 then 2 else n - 1⟩ [1,2]) _ _ :=
    ((((((Spans.start rfl).step (a:=.next ()) (by decide) rfl).step (a:=.del 2) (by decide)
      rfl).step (a:=.update) (by decide) rfl).step (a:=.update) (by decide) rfl).step
      (a:=.update) (by decide) rfl).step (a:=.next ()) (by decide) rfl
  have hseg : Links.Seg (⟨fun n => if n = 2 then 0 else n + 1,
      fun n => if n = 0 then 2 else n - 1⟩ : Links ℕ) 0 [1,2] 0 := by
    simp [Links.Linked]
  refine ⟨_,_,hspan,rfl,rfl,?_⟩
  exact ((traversal_sound hseg (by decide) .refl hspan).2.1 rfl).1 1 (by decide)

end RcuList
end Mthpc
