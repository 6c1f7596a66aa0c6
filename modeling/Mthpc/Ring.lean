import Mathlib

/-!
# Circular doubly linked lists

Intrusive lists: every node holds a `next` and a `prev` pointer, a list is a ring of nodes
through its head, and a store of nodes holds any number of disjoint rings. `Rings l R` says
that the rings in `R` are the ones formed by the links `l`. The collection `R` is a multiset,
so that a ring that an operation works on is brought to the front by an equation. Nothing
here depends on the programs modelled with it.
-/
namespace Mthpc

/-- The two pointer fields of every node. -/
structure Links (α : Type*) where
  next : α → α
  prev : α → α

namespace Links

variable {α : Type*}

section Update

variable [DecidableEq α]

def setNext (l : Links α) (x y : α) : Links α := { l with next := Function.update l.next x y }

def setPrev (l : Links α) (x y : α) : Links α := { l with prev := Function.update l.prev x y }

@[simp] theorem setNext_next (l : Links α) (x y z : α) :
    (l.setNext x y).next z = if z = x then y else l.next z := Function.update_apply ..

@[simp] theorem setNext_prev (l : Links α) (x y z : α) : (l.setNext x y).prev z = l.prev z := rfl

@[simp] theorem setPrev_next (l : Links α) (x y z : α) : (l.setPrev x y).next z = l.next z := rfl

@[simp] theorem setPrev_prev (l : Links α) (x y z : α) :
    (l.setPrev x y).prev z = if z = x then y else l.prev z := Function.update_apply ..

end Update

variable {l l' : Links α}

def Linked (l : Links α) (x y : α) : Prop := l.next x = y ∧ l.prev y = x

/-- A path from `x` through `xs` to `y` whose neighbours point to each other. -/
def Seg (l : Links α) (x : α) (xs : List α) (y : α) : Prop :=
  (x::(xs ++ [y])).IsChain (Linked l)

@[simp] theorem seg_nil {x y : α} : Seg l x [] y ↔ Linked l x y := by simp [Seg]

@[simp] theorem seg_cons {x y z : α} {zs : List α} :
    Seg l x (z::zs) y ↔ Linked l x z ∧ Seg l z zs y := by simp [Seg]

@[simp] theorem seg_append {x y z : α} {xs ys : List α} :
    Seg l x (xs ++ z::ys) y ↔ Seg l x xs z ∧ Seg l z ys y := by
  have h : ((x::xs) ++ z::(ys ++ [y])).IsChain (Linked l) ↔
      ((x::xs) ++ [z]).IsChain (Linked l) ∧ (z::(ys ++ [y])).IsChain (Linked l) :=
    List.isChain_split
  simpa [Seg] using h

theorem Seg.congr {x y : α} {xs : List α} (h : Seg l x xs y)
    (hn : ∀ z ∈ x::xs, l'.next z = l.next z) (hp : ∀ z ∈ xs ++ [y], l'.prev z = l.prev z) :
    Seg l' x xs y := by
  induction xs generalizing x with
  | nil =>
    rw [seg_nil] at h ⊢
    exact ⟨by rw [hn x (by simp),h.1],by rw [hp y (by simp),h.2]⟩
  | cons z zs ih =>
    rw [seg_cons] at h ⊢
    refine ⟨⟨by rw [hn x (by simp),h.1.1],by rw [hp z (by simp),h.1.2]⟩,ih h.2 ?_ ?_⟩
    · intro w hw
      exact hn w (by simp_all)
    · intro w hw
      exact hp w (by simp_all)

/-- The nodes of a collection of rings, each given by its head and the others in order. -/
def nodes (R : Multiset (α × List α)) : Multiset α := R.bind fun r => ↑(r.1::r.2)

@[simp] theorem nodes_cons (h : α) (xs : List α) (R : Multiset (α × List α)) :
    nodes ((h,xs) ::ₘ R) = h ::ₘ (↑xs + nodes R) := by
  simp only [nodes,Multiset.cons_bind,← Multiset.cons_coe,Multiset.cons_add]

@[simp] theorem nodes_zero : nodes (0 : Multiset (α × List α)) = 0 := rfl

@[simp] theorem nodes_add (R S : Multiset (α × List α)) : nodes (R + S) = nodes R + nodes S :=
  Multiset.add_bind ..

/-- The rings in `R` are disjoint, and `l` links each of them. -/
structure Rings (l : Links α) (R : Multiset (α × List α)) : Prop where
  nodup : (nodes R).Nodup
  seg : ∀ r ∈ R, Seg l r.1 r.2 r.1

theorem rings_cons {h : α} {xs : List α} {R : Multiset (α × List α)} :
    Rings l ((h,xs) ::ₘ R) ↔
      Seg l h xs h ∧ (h::xs).Nodup ∧ (∀ z ∈ h::xs, z ∉ nodes R) ∧ Rings l R := by
  have hnd : (nodes ((h,xs) ::ₘ R)).Nodup ↔
      (h::xs).Nodup ∧ (∀ z ∈ h::xs, z ∉ nodes R) ∧ (nodes R).Nodup := by
    rw [nodes_cons,← Multiset.cons_add,Multiset.nodup_add,Multiset.cons_coe,Multiset.coe_nodup,
      Multiset.disjoint_left]
    simp only [Multiset.mem_coe]
    tauto
  constructor
  · rintro ⟨hn,hs⟩
    have hn' := hnd.mp hn
    exact ⟨hs _ (Multiset.mem_cons_self _ _),hn'.1,hn'.2.1,hn'.2.2,
      fun r hr => hs r (Multiset.mem_cons_of_mem hr)⟩
  · rintro ⟨hs,hx,hd,hR⟩
    refine ⟨hnd.mpr ⟨hx,hd,hR.nodup⟩,fun r hr => ?_⟩
    cases Multiset.mem_cons.mp hr with
    | inl hr => rw [hr]; exact hs
    | inr hr => exact hR.seg r hr

theorem mem_nodes_one {h x : α} {xs : List α} : x ∈ nodes ((h,xs) ::ₘ 0) ↔ x ∈ h::xs := by
  rw [nodes_cons]
  simp

theorem rings_one {h : α} {xs : List α} :
    Rings l ((h,xs) ::ₘ 0) ↔ Seg l h xs h ∧ (h::xs).Nodup := by
  constructor
  · intro hr
    obtain ⟨hs,hn,_,_⟩ := rings_cons.mp hr
    exact ⟨hs,hn⟩
  · intro hr
    exact rings_cons.mpr ⟨hr.1,hr.2,fun _ _ => Multiset.notMem_zero _,
      ⟨Multiset.nodup_zero,fun _ h => absurd h (Multiset.notMem_zero _)⟩⟩

theorem mem_nodes_of_mem {R : Multiset (α × List α)} {r : α × List α} (hr : r ∈ R) {z : α}
    (hz : z ∈ r.1::r.2) : z ∈ nodes R :=
  Multiset.mem_bind.mpr ⟨r,hr,hz⟩

theorem Rings.congr {R : Multiset (α × List α)} (h : Rings l R)
    (hl : ∀ z ∈ nodes R, l'.next z = l.next z ∧ l'.prev z = l.prev z) : Rings l' R := by
  refine ⟨h.nodup,fun r hr => (h.seg r hr).congr ?_ ?_⟩
  · intro z hz
    exact (hl z (mem_nodes_of_mem hr hz)).1
  · intro z hz
    refine (hl z (mem_nodes_of_mem hr ?_)).2
    exact List.mem_cons.mpr (by simpa [or_comm] using hz)

theorem Rings.rotate {h x : α} {xs ys : List α} {R : Multiset (α × List α)}
    (hr : Rings l ((h,xs ++ x::ys) ::ₘ R)) : Rings l ((x,ys ++ h::xs) ::ₘ R) := by
  have hp : ((x::ys) ++ h::xs).Perm ((h::xs) ++ x::ys) := List.perm_append_comm
  obtain ⟨hs,hn,hd,hR⟩ := rings_cons.mp hr
  rw [seg_append] at hs
  refine rings_cons.mpr ⟨seg_append.mpr hs.symm,hp.nodup_iff.mpr hn,fun z hz => ?_,hR⟩
  exact hd z (hp.mem_iff.mp hz)

theorem Rings.change {h g : α} {xs ys : List α} {R : Multiset (α × List α)}
    (hr : Rings l ((h,xs) ::ₘ R)) (hs : Seg l' g ys g) (hn : (g::ys).Nodup)
    (hd : ∀ z ∈ g::ys, z ∉ nodes R)
    (hl : ∀ z, z ∉ h::xs → z ∉ g::ys → l'.next z = l.next z ∧ l'.prev z = l.prev z) :
    Rings l' ((g,ys) ::ₘ R) := by
  obtain ⟨_,_,hd',hR⟩ := rings_cons.mp hr
  refine rings_cons.mpr ⟨hs,hn,hd,hR.congr fun z hz => hl z ?_ ?_⟩
  · exact fun hzh => hd' z hzh hz
  · exact fun hzg => hd z hzg hz

theorem Seg.redirect {x y z : α} {xs : List α} (h : Seg l x xs y) (hx : (x::xs).Nodup)
    (hz : Linked l' (l.prev y) z) (hn : ∀ w ∈ x::xs, w ≠ l.prev y → l'.next w = l.next w)
    (hp : ∀ w ∈ xs, l'.prev w = l.prev w) : Seg l' x xs z := by
  cases List.eq_nil_or_concat' xs with
  | inl h0 =>
    subst h0
    rw [seg_nil] at h ⊢
    rwa [h.2] at hz
  | inr h0 =>
    obtain ⟨ws,w,rfl⟩ := h0
    obtain ⟨hxw,hwy⟩ := seg_append.mp h
    have hw := (seg_nil.mp hwy).2
    rw [hw] at hz hn
    refine seg_append.mpr ⟨hxw.congr ?_ hp,seg_nil.mpr hz⟩
    intro v hv
    refine hn v (List.mem_append_left [w] hv) ?_
    rintro rfl
    rw [← List.cons_append,List.nodup_append] at hx
    exact hx.2.2 v hv v (by simp) rfl

theorem Seg.next_eq {x y : α} {xs : List α} (hs : Seg l x xs y) : l.next x = xs.headD y := by
  cases xs with
  | nil => exact (seg_nil.mp hs).1
  | cons z zs => exact (seg_cons.mp hs).1.1

theorem Seg.prev_eq {x y : α} {xs : List α} (hs : Seg l x xs y) :
    l.prev y = xs.getLast?.getD x := by
  cases List.eq_nil_or_concat' xs with
  | inl h0 =>
    subst h0
    exact (seg_nil.mp hs).2
  | inr h0 =>
    obtain ⟨ws,w,rfl⟩ := h0
    simpa using (seg_nil.mp (seg_append.mp hs).2).2

theorem Seg.last_mem {x y : α} {xs : List α} (hs : Seg l x xs y) : l.prev y ∈ x::xs := by
  cases List.eq_nil_or_concat' xs with
  | inl h0 =>
    subst h0
    simp [(seg_nil.mp hs).2]
  | inr h0 =>
    obtain ⟨ws,w,rfl⟩ := h0
    simp [(seg_nil.mp (seg_append.mp hs).2).2]

theorem Seg.first_mem {x y : α} {xs : List α} (hs : Seg l x xs y) : l.next x ∈ xs ++ [y] := by
  cases xs with
  | nil => simp [(seg_nil.mp hs).1]
  | cons z zs => simp [(seg_cons.mp hs).1.1]

theorem Seg.next_prev {x y z : α} {xs : List α} (hs : Seg l x xs y) (hz : z ∈ xs ++ [y]) :
    l.next (l.prev z) = z ∧ l.prev z ∈ x::xs := by
  induction xs generalizing x with
  | nil =>
    rw [List.nil_append,List.mem_singleton] at hz
    obtain ⟨hn,hp⟩ := seg_nil.mp hs
    rw [hz,hp]
    exact ⟨hn,List.mem_singleton_self x⟩
  | cons w ws ih =>
    obtain ⟨⟨hn,hp⟩,hws⟩ := seg_cons.mp hs
    rcases List.mem_cons.mp hz with rfl | hz
    · rw [hp]
      exact ⟨hn,List.mem_cons_self⟩
    · exact ⟨(ih hws hz).1,List.mem_cons_of_mem _ (ih hws hz).2⟩

theorem Seg.prev_next {x y z : α} {xs : List α} (hs : Seg l x xs y) (hz : z ∈ x::xs) :
    l.prev (l.next z) = z ∧ l.next z ∈ xs ++ [y] := by
  induction xs generalizing x with
  | nil =>
    obtain ⟨hn,hp⟩ := seg_nil.mp hs
    rw [List.mem_singleton.mp hz,hn]
    exact ⟨hp,List.mem_singleton_self y⟩
  | cons w ws ih =>
    obtain ⟨⟨hn,hp⟩,hws⟩ := seg_cons.mp hs
    rcases List.mem_cons.mp hz with rfl | hz
    · rw [hn]
      exact ⟨hp,List.mem_cons_self⟩
    · exact ⟨(ih hws hz).1,List.mem_cons_of_mem _ (ih hws hz).2⟩

theorem Rings.left {R S : Multiset (α × List α)} (hr : Rings l (R + S)) : Rings l R := by
  refine ⟨?_,fun r h => hr.seg r (Multiset.mem_add.mpr (.inl h))⟩
  have hn := hr.nodup
  rw [nodes_add] at hn
  exact (Multiset.nodup_add.mp hn).1

theorem Rings.right {R S : Multiset (α × List α)} (hr : Rings l (R + S)) : Rings l S :=
  Rings.left (R:=S) (S:=R) (by rwa [add_comm])

theorem Rings.tail {h : α} {xs : List α} {R : Multiset (α × List α)}
    (hr : Rings l ((h,xs) ::ₘ R)) : Rings l R := (rings_cons.mp hr).2.2.2

/-- The pointers of the nodes of `R` are the same. -/
def SameOn (l l' : Links α) (R : Multiset (α × List α)) : Prop :=
  ∀ z ∈ nodes R, l'.next z = l.next z ∧ l'.prev z = l.prev z

/-- `next` and `prev` are inverse of each other on the nodes of `R`. -/
def Inverse (l : Links α) (R : Multiset (α × List α)) : Prop :=
  ∀ z ∈ nodes R, l.next (l.prev z) = z ∧ l.prev (l.next z) = z

theorem Rings.inverse {R : Multiset (α × List α)} (hr : Rings l R) : Inverse l R := by
  intro z hz
  obtain ⟨⟨h,xs⟩,hm,hz⟩ := Multiset.mem_bind.mp hz
  have hs := hr.seg _ hm
  have hz' : z ∈ h::xs := hz
  refine ⟨(hs.next_prev ?_).1,(hs.prev_next hz').1⟩
  simpa [or_comm] using hz'

theorem Seg.same {x y z : α} {xs : List α} (hs : Seg l x xs y) (hs' : Seg l' x xs y) :
    (z ∈ x::xs → l'.next z = l.next z) ∧ (z ∈ xs ++ [y] → l'.prev z = l.prev z) := by
  induction xs generalizing x with
  | nil =>
    obtain ⟨hn,hp⟩ := seg_nil.mp hs
    obtain ⟨hn',hp'⟩ := seg_nil.mp hs'
    refine ⟨fun hz => ?_,fun hz => ?_⟩
    · rw [List.mem_singleton.mp hz,hn,hn']
    · rw [List.mem_singleton.mp hz,hp,hp']
  | cons w ws ih =>
    obtain ⟨⟨hn,hp⟩,hws⟩ := seg_cons.mp hs
    obtain ⟨⟨hn',hp'⟩,hws'⟩ := seg_cons.mp hs'
    obtain ⟨hnext,hprev⟩ := ih hws hws'
    refine ⟨fun hz => ?_,fun hz => ?_⟩
    · rcases List.mem_cons.mp hz with rfl | hz
      · rw [hn,hn']
      · exact hnext hz
    · rcases List.mem_cons.mp hz with rfl | hz
      · rw [hp,hp']
      · exact hprev hz

theorem Rings.same {R : Multiset (α × List α)} (hr : Rings l R) (hr' : Rings l' R) :
    SameOn l l' R := by
  intro z hz
  obtain ⟨⟨h,xs⟩,hm,hz⟩ := Multiset.mem_bind.mp hz
  have hz' : z ∈ h::xs := hz
  obtain ⟨hnext,hprev⟩ := (hr.seg _ hm).same (z:=z) (hr'.seg _ hm)
  exact ⟨hnext hz',hprev (by simpa [or_comm] using hz')⟩

end Links
end Mthpc
