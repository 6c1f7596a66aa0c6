import Mthpc.ListHead

/-!
# The list operations refine operations on sequences

A store is seen as the collection of its lists, each the sequence of the nodes behind its head.
`Spec` says what an operation does to the sequences of the lists that it works on when it is
given what it is made for: a new node is in no list, and a node that is removed is behind a
head. The pointer writes do just that, and leave every other list as it is.
-/
namespace Mthpc
namespace ListHead

open Links

variable {α : Type*} [DecidableEq α]

/-- The calls of the operations of `include/mthpc/list.h` that change lists. -/
inductive Op (α : Type*)
  | add (new head : α) | addTail (new head : α)
  | del (node : α)
  | replaceInit (old new : α)
  | move (list head : α)
  | splice (list head : α) | spliceTail (list head : α)

def Op.run : Op α → Links α → Links α
  | .add new head, l => ListHead.add l new head
  | .addTail new head, l => ListHead.addTail l new head
  | .del node, l => ListHead.del l node
  | .replaceInit old new, l => ListHead.replaceInit l old new
  | .move list head, l => ListHead.move l list head
  | .splice list head, l => ListHead.splice l list head
  | .spliceTail list head, l => ListHead.spliceTail l list head

/-- The operation turns the lists `A` into `B`; the other lists are `R`. A node that is removed
ends as the head of an empty list, and the head that has been spliced as no list. -/
inductive Spec (R : Multiset (α × List α)) :
    Op α → Multiset (α × List α) → Multiset (α × List α) → Prop
  | add {h x : α} {xs : List α} : x ∉ nodes ((h,xs) ::ₘ R) →
    Spec R (.add x h) ((h,xs) ::ₘ 0) ((h,x::xs) ::ₘ 0)
  | addTail {h x : α} {xs : List α} : x ∉ nodes ((h,xs) ::ₘ R) →
    Spec R (.addTail x h) ((h,xs) ::ₘ 0) ((h,xs ++ [x]) ::ₘ 0)
  | del {h x : α} {xs : List α} : x ∈ xs →
    Spec R (.del x) ((h,xs) ::ₘ 0) ((h,xs.erase x) ::ₘ (x,[]) ::ₘ 0)
  | replaceInit {h x y : α} {xs : List α} : x ∈ xs → y ∉ nodes ((h,xs) ::ₘ R) →
    Spec R (.replaceInit x y) ((h,xs) ::ₘ 0) ((h,xs.replace x y) ::ₘ (x,[]) ::ₘ 0)
  | move {g h x : α} {xs ys : List α} : x ∈ xs →
    Spec R (.move x g) ((h,xs) ::ₘ (g,ys) ::ₘ 0) ((h,xs.erase x) ::ₘ (g,x::ys) ::ₘ 0)
  | moveWithin {h x : α} {xs : List α} : x ∈ xs →
    Spec R (.move x h) ((h,xs) ::ₘ 0) ((h,x::xs.erase x) ::ₘ 0)
  | splice {g h : α} {xs ys : List α} :
    Spec R (.splice g h) ((g,ys) ::ₘ (h,xs) ::ₘ 0) ((h,ys ++ xs) ::ₘ 0)
  | spliceTail {g h : α} {xs ys : List α} :
    Spec R (.spliceTail g h) ((g,ys) ::ₘ (h,xs) ::ₘ 0) ((h,xs ++ ys) ::ₘ 0)

section Refine

variable {l : Links α} {A B R S : Multiset (α × List α)} {op : Op α} {h x y : α} {xs : List α}

theorem split_at (hn : xs.Nodup) (hx : x ∈ xs) : ∃ as bs, xs = as ++ x::bs ∧
    xs.erase x = as ++ bs ∧ ∀ y, xs.replace x y = as ++ y::bs := by
  obtain ⟨as,bs,rfl⟩ := List.append_of_mem hx
  have has : x ∉ as := fun ha => (List.nodup_append.mp hn).2.2 x ha x List.mem_cons_self rfl
  refine ⟨as,bs,rfl,?_,fun y => ?_⟩
  · rw [List.erase_append_right _ has,List.erase_cons_head]
  · rw [List.replace_append_right has,List.replace_cons_self]

theorem Spec.rings (hs : Spec R op A B) (hr : Rings l (A + R)) : Rings (op.run l) (B + R) := by
  cases hs with
  | add hx =>
    simp only [Multiset.cons_add,zero_add] at hr ⊢
    exact rings_add hr hx
  | addTail hx =>
    simp only [Multiset.cons_add,zero_add] at hr ⊢
    exact rings_addTail hr hx
  | del hx =>
    simp only [Multiset.cons_add,zero_add] at hr ⊢
    obtain ⟨as,bs,rfl,he,_⟩ := split_at (List.nodup_cons.mp (rings_cons.mp hr).2.1).2 hx
    rw [he]
    exact rings_del hr
  | replaceInit hx hy =>
    simp only [Multiset.cons_add,zero_add] at hr ⊢
    obtain ⟨as,bs,rfl,_,he⟩ := split_at (List.nodup_cons.mp (rings_cons.mp hr).2.1).2 hx
    rw [he]
    exact rings_replaceInit hr hy
  | move hx =>
    simp only [Multiset.cons_add,zero_add] at hr ⊢
    obtain ⟨as,bs,rfl,he,_⟩ := split_at (List.nodup_cons.mp (rings_cons.mp hr).2.1).2 hx
    rw [he]
    exact rings_move hr
  | moveWithin hx =>
    simp only [Multiset.cons_add,zero_add] at hr ⊢
    obtain ⟨as,bs,rfl,he,_⟩ := split_at (List.nodup_cons.mp (rings_cons.mp hr).2.1).2 hx
    rw [he]
    exact rings_moveWithin hr
  | splice =>
    simp only [Multiset.cons_add,zero_add] at hr ⊢
    exact rings_splice hr
  | spliceTail =>
    simp only [Multiset.cons_add,zero_add] at hr ⊢
    exact rings_spliceTail hr

theorem Spec.sameOn (hs : Spec R op A B) (hr : Rings l (A + R)) : SameOn l (op.run l) R :=
  (Rings.right hr).same (Rings.right (hs.rings hr))

/-- A sequence of operations, each given what it is made for. -/
inductive Specs : List (Op α) → Multiset (α × List α) → Multiset (α × List α) → Prop
  | nil (R : Multiset (α × List α)) : Specs [] R R
  | cons {op : Op α} {ops : List (Op α)} {A B R S : Multiset (α × List α)} :
    Spec R op A B → Specs ops (B + R) S → Specs (op::ops) (A + R) S

/-- Any number of operations does to the lists what it does to the sequences. -/
theorem Specs.rings {ops : List (Op α)} (hs : Specs ops R S) (hr : Rings l R) :
    Rings (ops.foldl (fun l op => op.run l) l) S := by
  induction hs generalizing l with
  | nil R => exact hr
  | cons hop _ ih => exact ih (hop.rings hr)

/-- The nodes of `xs`, each linked to itself. -/
def singles (xs : List α) : Multiset (α × List α) := ↑(xs.map fun x => (x,([] : List α)))

omit [DecidableEq α] in
theorem singles_append_one : singles (xs ++ [x]) + R = (x,[]) ::ₘ (singles xs + R) := by
  rw [singles,singles,List.map_append,← Multiset.coe_add,add_assoc,List.map_singleton,
    Multiset.coe_singleton,Multiset.singleton_add,Multiset.add_cons]

theorem forEachSafe_empties {fuel : ℕ} (hr : Rings l ((h,xs) ::ₘ R)) (hf : xs.length < fuel) :
    ∃ l', forEachSafe (fun l x => some (del l x)) h fuel l (l.next h) (l.next (l.next h)) =
      some (l',xs) ∧ Rings l' ((h,[]) ::ₘ (singles xs + R)) := by
  -- the nodes that the loop has passed are alone
  let J : List α → Multiset (α × List α) → Prop := fun ys S =>
    ∃ done, xs = done ++ ys ∧ S = singles done + R
  have hb : LeavesList h (fun l _ => some l) J := by
    rintro l x ys S ⟨done,hxs,rfl⟩ hr
    refine ⟨l,_,rfl,⟨done ++ [x],by simp [hxs],rfl⟩,?_⟩
    rwa [singles_append_one]
  obtain ⟨l',S,hl',⟨done,hxs,rfl⟩,hr'⟩ := forEachSafe_del hb ⟨[],rfl,(zero_add R).symm⟩ hr hf
  rw [List.append_nil] at hxs
  exact ⟨l',hl',hxs ▸ hr'⟩

end Refine

/-- Every operation, in every store, and the loop that deletes the current node. -/
theorem listsRefineSequences (l : Links α) (R : Multiset (α × List α)) :
    (∀ op A B, Spec R op A B → Rings l (A + R) →
      Rings (op.run l) (B + R) ∧ Inverse (op.run l) (B + R) ∧ SameOn l (op.run l) R) ∧
    (∀ h xs also J, LeavesList h also J → J xs R → Rings l ((h,xs) ::ₘ R) →
      ∀ fuel > xs.length, ∃ l' S, forEachSafe (fun l x => also (del l x) x) h fuel l (l.next h)
        (l.next (l.next h)) = some (l',xs) ∧ J [] S ∧ Rings l' ((h,[]) ::ₘ S)) ∧
    ∀ h xs, Rings l ((h,xs) ::ₘ R) → ∀ fuel > xs.length, ∃ l', forEachSafe
      (fun l x => some (del l x)) h fuel l (l.next h) (l.next (l.next h)) = some (l',xs) ∧
        Rings l' ((h,[]) ::ₘ (singles xs + R)) ∧ Inverse l' ((h,[]) ::ₘ (singles xs + R)) ∧
          SameOn l l' R := by
  refine ⟨fun op A B hs hr => ?_,fun h xs also J hb hJ hr fuel hf => forEachSafe_del hb hJ hr hf,
    fun h xs hr fuel hf => ?_⟩
  · exact ⟨hs.rings hr,(hs.rings hr).inverse,hs.sameOn hr⟩
  · obtain ⟨l',hl',hr'⟩ := forEachSafe_empties hr hf
    exact ⟨l',hl',hr',hr'.inverse,hr.tail.same (Rings.right hr'.tail)⟩

/-- Three heads, of the lists `[1]`, `[3]` and `[]`. -/
def threeLists : Links ℕ := add (add ⟨id,id⟩ 1 0) 3 2

theorem rings_threeLists : Rings threeLists ((2,[3]) ::ₘ (0,[1]) ::ₘ (4,[]) ::ₘ 0) := by
  have h₀ : Rings (⟨id,id⟩ : Links ℕ) ((0,[]) ::ₘ (2,[]) ::ₘ (4,[]) ::ₘ 0) := by
    refine ⟨by simp [nodes],fun r hr => ?_⟩
    simp only [Multiset.mem_cons,Multiset.notMem_zero,or_false] at hr
    obtain rfl | rfl | rfl := hr <;> exact seg_nil.mpr ⟨rfl,rfl⟩
  have h₁ : Rings (add ⟨id,id⟩ 1 0) ((0,[1]) ::ₘ (2,[]) ::ₘ (4,[]) ::ₘ 0) :=
    rings_add h₀ (by simp [nodes])
  rw [Multiset.cons_swap] at h₁
  exact rings_add h₁ (by simp [nodes])

/-- The only node of a list is moved, and a loop empties the list that it comes to. -/
theorem listsRefineSequences_moved :
    Rings (move threeLists 3 0) ((2,[]) ::ₘ (0,[3,1]) ::ₘ (4,[]) ::ₘ 0) ∧
      SameOn threeLists (move threeLists 3 0) ((4,[]) ::ₘ 0) ∧
      ∃ l', forEachSafe (fun l x => some (del l x)) 0 3 (move threeLists 3 0)
        ((move threeLists 3 0).next 0) ((move threeLists 3 0).next ((move threeLists 3 0).next 0)) =
          some (l',[3,1]) := by
  have hs : Spec ((4,[]) ::ₘ 0) (.move 3 0) ((2,[3]) ::ₘ (0,[1]) ::ₘ 0)
      ((2,[]) ::ₘ (0,[3,1]) ::ₘ 0) := .move (List.mem_singleton_self 3)
  have hr : Rings threeLists ((2,[3]) ::ₘ (0,[1]) ::ₘ 0 + (4,[]) ::ₘ 0) := by
    simpa using rings_threeLists
  obtain ⟨h₁,_,hsame⟩ := (listsRefineSequences threeLists ((4,[]) ::ₘ 0)).1 _ _ _ hs hr
  have h₂ : Rings (move threeLists 3 0) ((2,[]) ::ₘ (0,[3,1]) ::ₘ (4,[]) ::ₘ 0) := by
    simpa [Op.run] using h₁
  refine ⟨h₂,hsame,?_⟩
  rw [Multiset.cons_swap] at h₂
  obtain ⟨l',hl',_⟩ := (listsRefineSequences (move threeLists 3 0) ((2,[]) ::ₘ (4,[]) ::ₘ 0)).2.2
    0 [3,1] h₂ 3 (by simp)
  exact ⟨l',hl'⟩

end ListHead
end Mthpc
