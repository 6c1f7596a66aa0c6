import Mathlib

/-!
# Lists walked by the address of a pointer

Singly linked lists whose loops keep the address of the pointer to the current node, so that
the node is inserted or removed by one write there. `Path c o xs` says that following `next`
from the pointer value `o` gives the nodes `xs`. Nothing here depends on the programs modelled
with it.
-/
namespace Mthpc

/-- The head pointer of a list and the `next` pointers of all nodes. -/
structure Cells (α : Type*) where
  head : Option α
  next : α → Option α

/-- The address of a pointer to a node. -/
inductive Loc (α : Type*)
  | head
  | next (x : α)
  deriving DecidableEq

namespace Cells

variable {α : Type*}

def read (c : Cells α) : Loc α → Option α
  | .head => c.head
  | .next x => c.next x

/-- Following `next` from `o` gives `xs` and then ends. -/
def Path (c : Cells α) : Option α → List α → Prop
  | o, [] => o = none
  | o, x::xs => o = some x ∧ Path c (c.next x) xs

/-- Following `next` from the pointer value comes to the node. -/
inductive Reaches (c : Cells α) : Option α → α → Prop
  | here (x : α) : Reaches c (some x) x
  | next {x y : α} : Reaches c (c.next x) y → Reaches c (some x) y

/-- The address of the pointer behind the nodes `xs`. -/
def locAfter : Loc α → List α → Loc α
  | l, [] => l
  | _, x::xs => locAfter (.next x) xs

@[simp] theorem locAfter_nil (l : Loc α) : locAfter l [] = l := rfl

@[simp] theorem locAfter_cons (l : Loc α) (x : α) (xs : List α) :
    locAfter l (x::xs) = locAfter (.next x) xs := rfl

variable {c d : Cells α} {o : Option α} {l m : Loc α} {x : α} {xs ys zs : List α}

theorem Path.congr (h : Path c o xs) (hn : ∀ x ∈ xs, d.next x = c.next x) : Path d o xs := by
  induction xs generalizing o with
  | nil => exact h
  | cons x xs ih =>
    refine ⟨h.1,?_⟩
    rw [hn x (by simp)]
    exact ih h.2 fun y hy => hn y (by simp [hy])

theorem Path.unique (h : Path c o xs) (h' : Path c o ys) : xs = ys := by
  induction xs generalizing o ys with
  | nil =>
    cases ys with
    | nil => rfl
    | cons y ys => exact absurd (h.symm.trans h'.1) (by simp)
  | cons x xs ih =>
    cases ys with
    | nil => exact absurd (h.1.symm.trans h') (by simp)
    | cons y ys =>
      have hxy : x = y := Option.some.inj (h.1.symm.trans h'.1)
      subst hxy
      rw [ih h.2 h'.2]

theorem Path.reaches (h : Path c o xs) (hx : Reaches c o x) : x ∈ xs := by
  induction hx generalizing xs with
  | here y =>
    cases xs with
    | nil => cases h
    | cons z xs =>
      cases h.1
      exact List.mem_cons_self
  | @next y _ _ ih =>
    cases xs with
    | nil => cases h
    | cons z xs =>
      cases h.1
      exact List.mem_cons_of_mem _ (ih h.2)

theorem Path.reaches_of_mem (h : Path c o xs) (hx : x ∈ xs) : Reaches c o x := by
  induction xs generalizing o with
  | nil => cases hx
  | cons z xs ih =>
    rw [h.1]
    rcases List.mem_cons.mp hx with rfl | hx
    · exact .here x
    · exact .next (ih h.2 hx)

theorem Path.split (h : Path c (c.read l) (xs ++ ys)) : Path c (c.read (locAfter l xs)) ys := by
  induction xs generalizing l with
  | nil => exact h
  | cons x xs ih => exact ih (l:=.next x) h.2

theorem Path.head_eq (h : Path c o xs) : o = xs.head? := by
  cases xs with
  | nil => exact h
  | cons x xs => exact h.1

theorem locAfter_mem (l : Loc α) (xs : List α) :
    locAfter l xs = l ∧ xs = [] ∨ ∃ x ∈ xs, locAfter l xs = .next x := by
  induction xs generalizing l with
  | nil => exact .inl ⟨rfl,rfl⟩
  | cons x xs ih =>
    rcases ih (.next x) with ⟨h,_⟩ | ⟨y,hy,h⟩
    · exact .inr ⟨x,by simp,h⟩
    · exact .inr ⟨y,by simp [hy],h⟩

/-- The loop: the address of the first pointer that is null or whose node satisfies `p`. A
node that is not `valid` cannot be read. -/
def find (valid p : α → Bool) (c : Cells α) : ℕ → Loc α → Option (Loc α)
  | 0, _ => none
  | fuel+1, l =>
    match c.read l with
    | none => some l
    | some x => if valid x then if p x then some l else find valid p c fuel (.next x) else none

theorem find_eq {valid p : α → Bool} {fuel : ℕ} (h : Path c (c.read l) xs)
    (hf : find valid p c fuel l = some m) :
    ∃ ys zs, xs = ys ++ zs ∧ m = locAfter l ys ∧ (∀ y ∈ ys, p y = false) ∧
      ∀ z ∈ zs.head?, p z = true := by
  induction fuel generalizing l xs with
  | zero => cases hf
  | succ fuel ih =>
    rw [find] at hf
    cases xs with
    | nil =>
      rw [show c.read l = none from h] at hf
      cases hf
      exact ⟨[],[],rfl,rfl,by simp,by simp⟩
    | cons x xs =>
      rw [h.1] at hf
      simp only at hf
      split at hf
      · split at hf
        next hp =>
          cases hf
          exact ⟨[],x::xs,rfl,rfl,by simp,by simpa using hp⟩
        next hp =>
          obtain ⟨ys,zs,rfl,rfl,hys,hzs⟩ := ih (l:=.next x) h.2 hf
          refine ⟨x::ys,zs,rfl,rfl,fun y hy => ?_,hzs⟩
          cases List.mem_cons.mp hy with
          | inl hyx => simpa [hyx] using hp
          | inr hy => exact hys y hy
      · cases hf

theorem find_isSome {valid p : α → Bool} {fuel : ℕ} (h : Path c (c.read l) xs)
    (hv : ∀ x ∈ xs, valid x = true) (hf : xs.length < fuel) : (find valid p c fuel l).isSome := by
  induction xs generalizing l fuel with
  | nil =>
    obtain ⟨fuel,rfl⟩ : ∃ k, fuel = k+1 := ⟨fuel-1,by simp at hf; omega⟩
    rw [find,show c.read l = none from h]
    rfl
  | cons x xs ih =>
    obtain ⟨fuel,rfl⟩ : ∃ k, fuel = k+1 := ⟨fuel-1,by simp at hf; omega⟩
    rw [find,h.1]
    simp only [hv x (by simp),if_true]
    split
    · rfl
    · exact ih h.2 (fun y hy => hv y (by simp [hy])) (by simpa using hf)

section Update

variable [DecidableEq α]

def write (c : Cells α) : Loc α → Option α → Cells α
  | .head, v => { c with head := v }
  | .next x, v => { c with next := Function.update c.next x v }

@[simp] theorem read_write (v : Option α) : (c.write l v).read l = v := by
  cases l <;> simp [read,write]

theorem read_write_of_ne (v : Option α) (h : m ≠ l) : (c.write l v).read m = c.read m := by
  cases l <;> cases m <;> simp_all [read,write]

theorem next_write_of_ne (v : Option α) (h : l ≠ .next x) : (c.write l v).next x = c.next x :=
  read_write_of_ne (m:=.next x) v h.symm

theorem Path.write {v : Option α} (h : Path c (c.read l) (xs ++ ys)) (hnd : xs.Nodup)
    (hl : ∀ x ∈ xs, l ≠ .next x) (hz : Path (c.write (locAfter l xs) v) v zs) :
    Path (c.write (locAfter l xs) v) ((c.write (locAfter l xs) v).read l) (xs ++ zs) := by
  induction xs generalizing l with
  | nil => simpa using hz
  | cons x xs ih =>
    obtain ⟨hx,hxs⟩ := List.nodup_cons.mp hnd
    have hne : l ≠ locAfter l (x::xs) := by
      rcases locAfter_mem l (x::xs) with ⟨_,h0⟩ | ⟨y,hy,hly⟩
      · cases h0
      · rw [hly]
        exact hl y hy
    refine ⟨?_,ih (l:=.next x) h.2 hxs (fun y hy => ?_) hz⟩
    · rw [read_write_of_ne v hne]
      exact h.1
    · rintro hxy
      cases hxy
      exact hx hy

theorem Path.unlink (h : Path c c.head (xs ++ x::ys)) (hnd : (xs ++ x::ys).Nodup) :
    Path (c.write (locAfter .head xs) (c.next x)) (c.write (locAfter .head xs) (c.next x)).head
      (xs ++ ys) := by
  have hnext : Path c (c.next x) ys := (Path.split (l:=.head) h).2
  refine Path.write (l:=.head) h (List.nodup_append.mp hnd).1 (by simp) ?_
  refine hnext.congr fun z hz => next_write_of_ne _ ?_
  rcases locAfter_mem .head xs with ⟨hl,_⟩ | ⟨y,hy,hl⟩
  · simp [hl]
  · rw [hl]
    rintro hyz
    cases hyz
    exact (List.nodup_append.mp hnd).2.2 z hy z (by simp [hz]) rfl

end Update

end Cells
end Mthpc
