import Mthpc.Ring

/-!
# The list heads

`include/mthpc/list.h`. An operation is its sequence of pointer writes; its theorem says
what it does to the rings of the store.
-/
namespace Mthpc
namespace ListHead

open Links

variable {α : Type*} [DecidableEq α]

/-- `mthpc_list_init`. -/
def init (l : Links α) (node : α) : Links α := (l.setNext node node).setPrev node node

/-- `mthpc_list_empty`. -/
def empty (l : Links α) (head : α) : Bool := l.next head = head

/-- `__mthpc_list_add`. -/
def addBetween (l : Links α) (new prev next : α) : Links α :=
  (((l.setPrev next new).setNext new next).setPrev new prev).setNext prev new

/-- `mthpc_list_add`. -/
def add (l : Links α) (new head : α) : Links α := addBetween l new head (l.next head)

/-- `mthpc_list_add_tail`. -/
def addTail (l : Links α) (new head : α) : Links α := addBetween l new (l.prev head) head

/-- `__mthpc_list_del`. -/
def delBetween (l : Links α) (prev next : α) : Links α :=
  (l.setPrev next prev).setNext prev next

/-- `mthpc_list_del`. -/
def del (l : Links α) (node : α) : Links α :=
  init (delBetween l (l.prev node) (l.next node)) node

/-- `mthpc_list_replace`. -/
def replace (l : Links α) (old new : α) : Links α :=
  let l₁ := l.setNext new (l.next old)
  let l₂ := l₁.setPrev (l₁.next new) new
  let l₃ := l₂.setPrev new (l₂.prev old)
  l₃.setNext (l₃.prev new) new

/-- `mthpc_list_replace_init`. -/
def replaceInit (l : Links α) (old new : α) : Links α := init (replace l old new) old

/-- `mthpc_list_move`. -/
def move (l : Links α) (list head : α) : Links α :=
  add (delBetween l (l.prev list) (l.next list)) list head

/-- `__mthpc_list_splice`. -/
def spliceBetween (l : Links α) (list prev next : α) : Links α :=
  let first := l.next list
  let last := l.prev list
  (((l.setPrev first prev).setNext prev first).setNext last next).setPrev next last

/-- `mthpc_list_splice`. -/
def splice (l : Links α) (list head : α) : Links α :=
  if empty l list then l else spliceBetween l list head (l.next head)

/-- `mthpc_list_splice_tail`. -/
def spliceTail (l : Links α) (list head : α) : Links α :=
  if empty l list then l else spliceBetween l list (l.prev head) head

/-- `mthpc_list_for_each` whose body leaves the list as it is: the nodes from `pos` on. -/
def forEach (l : Links α) (head : α) : ℕ → α → Option (List α)
  | 0, _ => none
  | fuel+1, pos =>
    if pos = head then some []
    else (forEach l head fuel (l.next pos)).map fun xs => pos::xs

/-- `mthpc_list_for_each_safe`, and the nodes that it visits. `n` is read before the body runs
and again after it. -/
def forEachSafe (body : Links α → α → Option (Links α)) (head : α) :
    ℕ → Links α → α → α → Option (Links α × List α)
  | 0, _, _, _ => none
  | fuel+1, l, pos, n =>
    if pos = head then some (l,[])
    else (body l pos).bind fun l' =>
      (forEachSafe body head fuel l' n (l'.next n)).map fun r => (r.1,pos::r.2)

variable {l : Links α} {R : Multiset (α × List α)} {g h x y z new old prev next list : α}
  {xs ys zs : List α} {fuel : ℕ}

section Writes

theorem init_next : (init l x).next z = if z = x then x else l.next z := by simp [init]

theorem init_prev : (init l x).prev z = if z = x then x else l.prev z := by simp [init]

theorem addBetween_next : (addBetween l new prev next).next z =
    if z = prev then new else if z = new then next else l.next z := by simp [addBetween]

theorem addBetween_prev : (addBetween l new prev next).prev z =
    if z = new then prev else if z = next then new else l.prev z := by simp [addBetween]

theorem del_next : (del l x).next z =
    if z = x then x else if z = l.prev x then l.next x else l.next z := by
  simp [del,init,delBetween]

theorem del_prev : (del l x).prev z =
    if z = x then x else if z = l.next x then l.prev x else l.prev z := by
  simp [del,init,delBetween]

theorem replace_next : (replace l old new).next z =
    if z = (if old = l.next old then new else l.prev old) then new
    else if z = new then l.next old else l.next z := by simp [replace]

theorem replace_prev : (replace l old new).prev z =
    if z = new then (if old = l.next old then new else l.prev old)
    else if z = l.next old then new else l.prev z := by simp [replace]

theorem spliceBetween_next : (spliceBetween l list prev next).next z =
    if z = l.prev list then next else if z = prev then l.next list else l.next z := by
  simp [spliceBetween]

theorem spliceBetween_prev : (spliceBetween l list prev next).prev z =
    if z = next then l.prev list else if z = l.next list then prev else l.prev z := by
  simp [spliceBetween]

end Writes

theorem rings_init (hr : Rings l R) (hx : x ∉ nodes R) : Rings (init l x) ((x,[]) ::ₘ R) := by
  refine rings_cons.mpr ⟨by simp [Linked,init],by simp,by simpa using hx,hr.congr ?_⟩
  intro z hz
  have hzx : z ≠ x := fun h => hx (h ▸ hz)
  simp [init,hzx]

theorem rings_add (hr : Rings l ((h,xs) ::ₘ R)) (hx : x ∉ nodes ((h,xs) ::ₘ R)) :
    Rings (add l x h) ((h,x::xs) ::ₘ R) := by
  obtain ⟨hs,hn,hd,hR⟩ := rings_cons.mp hr
  simp only [nodes_cons,Multiset.mem_cons,Multiset.mem_add,Multiset.mem_coe,not_or] at hx
  have hfirst := hs.first_mem
  refine hr.change ?_ ?_ ?_ ?_
  · cases xs with
    | nil =>
      rw [seg_nil,Linked] at hs
      rw [seg_cons,seg_nil,Linked,Linked,add]
      simp only [addBetween_next,addBetween_prev]
      grind
    | cons a as =>
      obtain ⟨hha,has⟩ := seg_cons.mp hs
      rw [seg_cons,seg_cons]
      refine ⟨?_,?_,has.congr ?_ ?_⟩
      · simp only [Linked,add,addBetween_next,addBetween_prev]
        grind
      · simp only [Linked,add,addBetween_next,addBetween_prev] at hha ⊢
        grind
      · simp only [add,addBetween_next]
        grind
      · simp only [add,addBetween_prev,hha.1]
        grind
  · grind
  · grind
  · simp only [add,addBetween_next,addBetween_prev]
    grind

theorem rings_addTail (hr : Rings l ((h,xs) ::ₘ R)) (hx : x ∉ nodes ((h,xs) ::ₘ R)) :
    Rings (addTail l x h) ((h,xs ++ [x]) ::ₘ R) := by
  have hs := (rings_cons.mp hr).1
  cases List.eq_nil_or_concat' xs with
  | inl hxs =>
    subst hxs
    have hself := seg_nil.mp hs
    have heq : addTail l x h = add l x h := by rw [addTail,add,hself.1,hself.2]
    rw [heq]
    exact rings_add hr hx
  | inr hxs =>
    obtain ⟨ys,y,rfl⟩ := hxs
    have hlast := seg_nil.mp (seg_append.mp hs).2
    have heq : addTail l x h = add l x y := by rw [addTail,add,hlast.1,hlast.2]
    rw [heq,List.append_assoc]
    have hx' : x ∉ nodes ((y,[h] ++ ys) ::ₘ R) := by
      simp only [nodes_cons,Multiset.mem_cons,Multiset.mem_add,Multiset.mem_coe,
        List.mem_append,List.mem_singleton] at hx ⊢
      tauto
    have h' : Rings (add l x y) ((y,[x] ++ h::ys) ::ₘ R) := rings_add (Rings.rotate hr) hx'
    exact h'.rotate

theorem rings_add_single (hr : Rings l ((x,[]) ::ₘ (h,xs) ::ₘ R)) :
    Rings (add l x h) ((h,x::xs) ::ₘ R) := by
  obtain ⟨_,_,hd,hR⟩ := rings_cons.mp hr
  exact rings_add hR (hd x (by simp))

theorem rings_addTail_single (hr : Rings l ((x,[]) ::ₘ (h,xs) ::ₘ R)) :
    Rings (addTail l x h) ((h,xs ++ [x]) ::ₘ R) := by
  obtain ⟨_,_,hd,hR⟩ := rings_cons.mp hr
  exact rings_addTail hR (hd x (by simp))

theorem rings_del_head (hr : Rings l ((x,y::ys) ::ₘ R)) :
    Rings (del l x) ((y,ys) ::ₘ (x,[]) ::ₘ R) := by
  obtain ⟨hs,hn,hd,hR⟩ := rings_cons.mp hr
  obtain ⟨hxy,hys⟩ := seg_cons.mp hs
  have hlast := hys.last_mem
  have hx : Rings (del l x) ((x,[]) ::ₘ R) := by
    refine hr.change ?_ (by simp) (by grind) ?_
    · rw [seg_nil,Linked,del_next,del_prev]
      grind
    · simp only [del_next,del_prev,hxy.1]
      grind
  refine rings_cons.mpr ⟨hys.redirect (List.nodup_cons.mp hn).2 ?_ ?_ ?_,
    (List.nodup_cons.mp hn).2,?_,hx⟩
  · rw [Linked,del_next,del_prev]
    grind [Linked]
  · simp only [del_next]
    grind
  · simp only [del_prev,hxy.1]
    grind
  · intro z hz
    simp only [nodes_cons,Multiset.mem_cons,Multiset.mem_add,Multiset.mem_coe]
    grind

theorem rings_del (hr : Rings l ((h,xs ++ x::ys) ::ₘ R)) :
    Rings (del l x) ((h,xs ++ ys) ::ₘ (x,[]) ::ₘ R) := by
  have h' := hr.rotate
  cases ys with
  | nil => simpa using rings_del_head h'
  | cons y ys => exact (rings_del_head h').rotate

theorem add_init (hx : h ≠ x) : add (init l x) x h = add l x h := by
  have hnext : (init l x).next h = l.next h := by rw [init_next,if_neg hx]
  rw [add,add,hnext,Links.mk.injEq]
  refine ⟨funext fun z => ?_,funext fun z => ?_⟩
  · show (addBetween _ _ _ _).next z = (addBetween _ _ _ _).next z
    rw [addBetween_next,addBetween_next,init_next]
    grind
  · show (addBetween _ _ _ _).prev z = (addBetween _ _ _ _).prev z
    rw [addBetween_prev,addBetween_prev,init_prev]
    grind

theorem move_eq (hx : h ≠ x) : move l x h = add (del l x) x h := (add_init hx).symm

theorem rings_move (hr : Rings l ((h,xs ++ x::ys) ::ₘ (g,zs) ::ₘ R)) :
    Rings (move l x g) ((h,xs ++ ys) ::ₘ (g,x::zs) ::ₘ R) := by
  obtain ⟨_,_,hd,_⟩ := rings_cons.mp hr
  have hgx : g ≠ x := by
    rintro rfl
    exact hd g (by simp) (by simp)
  have h₁ := rings_del hr
  rw [Multiset.cons_swap] at h₁
  have h₂ : Rings (del l x) ((x,[]) ::ₘ (g,zs) ::ₘ (h,xs ++ ys) ::ₘ R) := by
    rwa [Multiset.cons_swap (g,zs)]
  rw [move_eq hgx,Multiset.cons_swap]
  exact rings_add_single h₂

theorem rings_moveWithin (hr : Rings l ((h,xs ++ x::ys) ::ₘ R)) :
    Rings (move l x h) ((h,x::(xs ++ ys)) ::ₘ R) := by
  have hhx : h ≠ x := by
    obtain ⟨_,hn,_⟩ := rings_cons.mp hr
    rintro rfl
    simp at hn
  have h₁ := rings_del hr
  rw [Multiset.cons_swap] at h₁
  rw [move_eq hhx]
  exact rings_add_single h₁

theorem rings_replaceInit_head (hr : Rings l ((x,y::ys) ::ₘ R))
    (hz : z ∉ nodes ((x,y::ys) ::ₘ R)) :
    Rings (replaceInit l x z) ((z,y::ys) ::ₘ (x,[]) ::ₘ R) := by
  obtain ⟨hs,hn,hd,hR⟩ := rings_cons.mp hr
  simp only [nodes_cons,Multiset.mem_cons,Multiset.mem_add,Multiset.mem_coe,not_or] at hz
  obtain ⟨hxy,hys⟩ := seg_cons.mp hs
  have hlast := hys.last_mem
  have hne : x ≠ l.next x := by grind [Linked]
  have hx : Rings (replaceInit l x z) ((x,[]) ::ₘ R) := by
    refine rings_cons.mpr ⟨?_,by simp,by grind,hR.congr ?_⟩
    · rw [seg_nil,Linked,replaceInit,init_next,init_prev]
      simp
    · simp only [replaceInit,init_next,init_prev,replace_next,replace_prev,hxy.1]
      grind
  refine rings_cons.mpr ⟨seg_cons.mpr ⟨?_,hys.redirect (List.nodup_cons.mp hn).2 ?_ ?_ ?_⟩,
    by grind,?_,hx⟩
  · rw [Linked,replaceInit,init_next,init_prev,replace_next,replace_prev,if_neg hne]
    grind [Linked]
  · rw [Linked,replaceInit,init_next,init_prev,replace_next,replace_prev,if_neg hne]
    grind [Linked]
  · simp only [replaceInit,init_next,replace_next,if_neg hne]
    grind
  · simp only [replaceInit,init_prev,replace_prev,hxy.1]
    grind
  · intro w hw
    simp only [nodes_cons,Multiset.mem_cons,Multiset.mem_add,Multiset.mem_coe]
    grind

theorem rings_replaceInit (hr : Rings l ((h,xs ++ x::ys) ::ₘ R))
    (hy : y ∉ nodes ((h,xs ++ x::ys) ::ₘ R)) :
    Rings (replaceInit l x y) ((h,xs ++ y::ys) ::ₘ (x,[]) ::ₘ R) := by
  have h' := hr.rotate
  have hy' : y ∉ nodes ((x,ys ++ h::xs) ::ₘ R) := by
    simp only [nodes_cons,Multiset.mem_cons,Multiset.mem_add,Multiset.mem_coe,
      List.mem_append,List.mem_cons] at hy ⊢
    tauto
  have h'' : Rings (replaceInit l x y) ((y,ys ++ h::xs) ::ₘ (x,[]) ::ₘ R) := by
    cases ys with
    | nil => exact rings_replaceInit_head h' hy'
    | cons z zs => exact rings_replaceInit_head h' hy'
  exact h''.rotate

theorem rings_replaceInit_single (hr : Rings l ((y,[]) ::ₘ (h,xs ++ x::ys) ::ₘ R)) :
    Rings (replaceInit l x y) ((h,xs ++ y::ys) ::ₘ (x,[]) ::ₘ R) := by
  obtain ⟨_,_,hd,hR⟩ := rings_cons.mp hr
  exact rings_replaceInit hR (hd y (by simp))

theorem rings_splice (hr : Rings l ((g,ys) ::ₘ (h,xs) ::ₘ R)) :
    Rings (splice l g h) ((h,ys ++ xs) ::ₘ R) := by
  obtain ⟨hs,hn,hd,hR⟩ := rings_cons.mp hr
  obtain ⟨hs',hn',hd',-⟩ := rings_cons.mp hR
  simp only [nodes_cons,Multiset.mem_cons,Multiset.mem_add,Multiset.mem_coe] at hd
  have hfirst := hs'.first_mem
  cases ys with
  | nil =>
    have he : empty l g = true := by simp [empty,(seg_nil.mp hs).1]
    rwa [splice,if_pos he]
  | cons y ys =>
    obtain ⟨hgy,hys⟩ := seg_cons.mp hs
    have hlast := hys.last_mem
    have he : ¬ empty l g = true := by
      simp only [empty,hgy.1,decide_eq_true_eq]
      grind
    rw [splice,if_neg he]
    have hhy : Seg (spliceBetween l g h (l.next h)) h (y::ys) (l.next h) := by
      refine seg_cons.mpr ⟨?_,hys.redirect (List.nodup_cons.mp hn).2 ?_ ?_ ?_⟩
      · rw [Linked,spliceBetween_next,spliceBetween_prev]
        grind [Linked]
      · rw [Linked,spliceBetween_next,spliceBetween_prev]
        grind [Linked]
      · simp only [spliceBetween_next]
        grind
      · simp only [spliceBetween_prev,hgy.1]
        grind
    refine hR.change ?_ ?_ ?_ ?_
    · cases xs with
      | nil =>
        rw [(seg_nil.mp hs').1] at hhy ⊢
        rwa [List.append_nil]
      | cons b bs =>
        obtain ⟨hhb,hbs⟩ := seg_cons.mp hs'
        rw [hhb.1] at hhy ⊢
        refine seg_append.mpr ⟨hhy,hbs.congr ?_ ?_⟩
        · simp only [spliceBetween_next]
          grind
        · simp only [spliceBetween_prev,hgy.1]
          grind
    · grind
    · grind
    · simp only [spliceBetween_next,spliceBetween_prev,hgy.1]
      grind

theorem rings_spliceTail (hr : Rings l ((g,ys) ::ₘ (h,xs) ::ₘ R)) :
    Rings (spliceTail l g h) ((h,xs ++ ys) ::ₘ R) := by
  have hs := (rings_cons.mp (rings_cons.mp hr).2.2.2).1
  cases List.eq_nil_or_concat' xs with
  | inl h0 =>
    subst h0
    have hself := seg_nil.mp hs
    have heq : spliceTail l g h = splice l g h := by rw [spliceTail,splice,hself.1,hself.2]
    rw [heq]
    simpa using rings_splice hr
  | inr h0 =>
    obtain ⟨ws,w,rfl⟩ := h0
    have hlast := seg_nil.mp (seg_append.mp hs).2
    have heq : spliceTail l g h = splice l g w := by rw [spliceTail,splice,hlast.1,hlast.2]
    rw [Multiset.cons_swap] at hr
    have hr' := Rings.rotate hr
    rw [Multiset.cons_swap] at hr'
    rw [heq,List.append_assoc]
    exact Rings.rotate (rings_splice hr')

theorem seg_addTail (hs : Seg l h xs h) (hn : (h::xs).Nodup) (hx : x ∉ h::xs) :
    Seg (addTail l x h) h (xs ++ [x]) h := by
  exact (rings_cons.mp (rings_addTail (rings_one.mpr ⟨hs,hn⟩) (by rwa [mem_nodes_one]))).1

theorem seg_add (hs : Seg l h xs h) (hn : (h::xs).Nodup) (hx : x ∉ h::xs) :
    Seg (add l x h) h (x::xs) h := by
  exact (rings_cons.mp (rings_add (rings_one.mpr ⟨hs,hn⟩) (by rwa [mem_nodes_one]))).1

theorem seg_del (hs : Seg l h (xs ++ x::ys) h) (hn : (h::(xs ++ x::ys)).Nodup) :
    Seg (del l x) h (xs ++ ys) h :=
  (rings_cons.mp (rings_del (rings_one.mpr ⟨hs,hn⟩))).1

theorem addTail_off (hs : Seg l h xs h) (hz : z ∉ h::xs) (hx : z ≠ x) :
    (addTail l x h).next z = l.next z ∧ (addTail l x h).prev z = l.prev z := by
  have hlast := hs.last_mem
  rw [addTail,addBetween_next,addBetween_prev]
  grind

theorem add_off (hs : Seg l h xs h) (hz : z ∉ h::xs) (hx : z ≠ x) :
    (add l x h).next z = l.next z ∧ (add l x h).prev z = l.prev z := by
  have hfirst := hs.first_mem
  rw [add,addBetween_next,addBetween_prev]
  grind

theorem del_off (hs : Seg l h xs h) (hx : x ∈ xs) (hz : z ∉ h::xs) :
    (del l x).next z = l.next z ∧ (del l x).prev z = l.prev z := by
  obtain ⟨as,bs,rfl⟩ := List.append_of_mem hx
  obtain ⟨ha,hb⟩ := seg_append.mp hs
  have hlast := ha.last_mem
  have hfirst := hb.first_mem
  rw [del_next,del_prev]
  grind

theorem forEach_eq (hs : Seg l x xs h) (hh : h ∉ xs) (hn : xs.length < fuel) :
    forEach l h fuel (l.next x) = some xs := by
  induction xs generalizing x fuel with
  | nil =>
    obtain ⟨fuel,rfl⟩ : ∃ n, fuel = n+1 := ⟨fuel-1,by simp at hn; omega⟩
    rw [(seg_nil.mp hs).1,forEach,if_pos rfl]
  | cons y ys ih =>
    obtain ⟨fuel,rfl⟩ : ∃ n, fuel = n+1 := ⟨fuel-1,by simp at hn; omega⟩
    obtain ⟨hxy,hys⟩ := seg_cons.mp hs
    simp only [List.mem_cons,not_or] at hh
    rw [hxy.1,forEach,if_neg (Ne.symm hh.1),ih hys hh.2 (by simpa using hn)]
    rfl

theorem forEach_mono {fuel' : ℕ} (hx : forEach l h fuel x = some xs) (hle : fuel ≤ fuel') :
    forEach l h fuel' x = some xs := by
  induction fuel generalizing fuel' x xs with
  | zero => cases hx
  | succ fuel ih =>
    obtain ⟨m,rfl⟩ : ∃ m, fuel' = m+1 := ⟨fuel'-1,by omega⟩
    rw [forEach] at hx ⊢
    by_cases hxh : x = h
    · rwa [if_pos hxh] at hx ⊢
    · rw [if_neg hxh] at hx ⊢
      obtain ⟨zs,hzs,rfl⟩ := Option.map_eq_some_iff.mp hx
      rw [ih hzs (by omega)]
      rfl

theorem forEach_unique {fuel' : ℕ} (hx : forEach l h fuel x = some xs)
    (hy : forEach l h fuel' x = some ys) : xs = ys := by
  have hx' := forEach_mono hx (Nat.le_max_left fuel fuel')
  have hy' := forEach_mono hy (Nat.le_max_right fuel fuel')
  exact Option.some.inj (hx'.symm.trans hy')

/-- The loop visits what is left in the list, as long as its body leaves the rest of it. -/
theorem forEachSafe_rule {I : List α → Links α → Prop} {body : Links α → α → Option (Links α)}
    (hlist : ∀ ys l, I ys l → (∃ p, Seg l p ys h) ∧ h ∉ ys)
    (hbody : ∀ x ys l, I (x::ys) l → ∃ l', body l x = some l' ∧ I ys l') (hI : I xs l)
    (hf : xs.length < fuel) {pos n : α} (hpos : pos = xs.headD h) (hn : n = l.next pos) :
    ∃ l', forEachSafe body h fuel l pos n = some (l',xs) ∧ I [] l' := by
  induction xs generalizing l fuel pos n with
  | nil =>
    obtain ⟨fuel,rfl⟩ : ∃ k, fuel = k+1 := ⟨fuel-1,by simp at hf; omega⟩
    refine ⟨l,?_,hI⟩
    rw [forEachSafe,show pos = h from hpos,if_pos rfl]
  | cons x ys ih =>
    obtain ⟨fuel,rfl⟩ : ∃ k, fuel = k+1 := ⟨fuel-1,by simp at hf; omega⟩
    obtain ⟨⟨p,hs⟩,hh⟩ := hlist _ _ hI
    have hpx : pos = x := hpos
    have hxh : x ≠ h := fun he => hh (he ▸ List.mem_cons_self)
    have hnext : n = ys.headD h := by rw [hn,hpx,(seg_cons.mp hs).2.next_eq]
    obtain ⟨l₁,hb,hI₁⟩ := hbody x ys l hI
    obtain ⟨l',hl',hI'⟩ := ih hI₁ (by simpa using hf) hnext rfl
    refine ⟨l',?_,hI'⟩
    rw [forEachSafe,hpx,if_neg hxh,hb,Option.bind_some,hl']
    rfl

theorem forEachSafe_mono {body : Links α → α → Option (Links α)} {pos n : α} {fuel' : ℕ}
    {r : Links α × List α} (hr : forEachSafe body h fuel l pos n = some r) (hle : fuel ≤ fuel') :
    forEachSafe body h fuel' l pos n = some r := by
  induction fuel generalizing fuel' l pos n r with
  | zero => cases hr
  | succ fuel ih =>
    obtain ⟨m,rfl⟩ : ∃ m, fuel' = m+1 := ⟨fuel'-1,by omega⟩
    rw [forEachSafe] at hr ⊢
    by_cases hph : pos = h
    · rwa [if_pos hph] at hr ⊢
    · rw [if_neg hph] at hr ⊢
      obtain ⟨l₁,hb,hr⟩ := Option.bind_eq_some_iff.mp hr
      obtain ⟨r₁,hr₁,rfl⟩ := Option.map_eq_some_iff.mp hr
      rw [hb,Option.bind_some,ih hr₁ (by omega)]
      rfl

/-- The body deletes the current node and then does `also`, which leaves the list of `head`
alone. `J` is what `also` relies on: the elements that are left, and the other lists. -/
def LeavesList (head : α) (also : Links α → α → Option (Links α))
    (J : List α → Multiset (α × List α) → Prop) : Prop :=
  ∀ l x ys S, J (x::ys) S → Rings l ((head,ys) ::ₘ (x,[]) ::ₘ S) →
    ∃ l' S', also l x = some l' ∧ J ys S' ∧ Rings l' ((head,ys) ::ₘ S')

theorem forEachSafe_del {also : Links α → α → Option (Links α)}
    {J : List α → Multiset (α × List α) → Prop} (hb : LeavesList h also J) (hJ : J xs R)
    (hr : Rings l ((h,xs) ::ₘ R)) (hf : xs.length < fuel) :
    ∃ l' S, forEachSafe (fun l x => also (del l x) x) h fuel l (l.next h) (l.next (l.next h)) =
      some (l',xs) ∧ J [] S ∧ Rings l' ((h,[]) ::ₘ S) := by
  let I : List α → Links α → Prop := fun ys l => ∃ S, J ys S ∧ Rings l ((h,ys) ::ₘ S)
  have hlist : ∀ ys l, I ys l → (∃ p, Seg l p ys h) ∧ h ∉ ys := by
    rintro ys l ⟨S,_,hr⟩
    obtain ⟨hs,hn,_⟩ := rings_cons.mp hr
    exact ⟨⟨h,hs⟩,(List.nodup_cons.mp hn).1⟩
  have hbody : ∀ x ys l, I (x::ys) l → ∃ l', also (del l x) x = some l' ∧ I ys l' := by
    rintro x ys l ⟨S,hS,hr⟩
    have hr₀ : Rings l ((h,[] ++ x::ys) ::ₘ S) := hr
    obtain ⟨l₁,S₁,hl₁,hS₁,hr₁⟩ := hb (del l x) x ys S hS (rings_del hr₀)
    exact ⟨l₁,hl₁,S₁,hS₁,hr₁⟩
  obtain ⟨l',hl',S,hS,hr'⟩ := forEachSafe_rule (I:=I) hlist hbody ⟨R,hJ,hr⟩ hf
    (rings_cons.mp hr).1.next_eq rfl
  exact ⟨l',S,hl',hS,hr'⟩

end ListHead
end Mthpc
