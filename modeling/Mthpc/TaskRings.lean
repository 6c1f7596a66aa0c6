import Mthpc.Taskflow

/-!
# The two levels of a taskflow

The abstract taskflow is the list of its main tasks, each with the list of its sub tasks.
`rings` says which rings of list heads stand for it, and every function of the taskflow is
followed on the abstract side: `Detach` for an iteration of `mthpc_taskflow_rlist_del`,
`Before` and `After` for the branches of precede and succeed.
-/
namespace Mthpc
namespace Taskflow

open Links Node

abbrev Flow := List (Address × List Address)

namespace Flow

def mains (f : Flow) : List Address := f.map Prod.fst

def subs (f : Flow) : List Address := f.flatMap Prod.snd

def tasks (f : Flow) : List Address := f.flatMap fun p => p.1::p.2

@[simp] theorem mains_nil : mains [] = [] := rfl

@[simp] theorem mains_cons (p : Address × List Address) (f : Flow) :
    mains (p::f) = p.1::mains f := rfl

@[simp] theorem mains_append (f g : Flow) : mains (f ++ g) = mains f ++ mains g :=
  List.map_append

@[simp] theorem subs_nil : subs [] = [] := rfl

@[simp] theorem subs_cons (p : Address × List Address) (f : Flow) :
    subs (p::f) = p.2 ++ subs f := rfl

@[simp] theorem subs_append (f g : Flow) : subs (f ++ g) = subs f ++ subs g :=
  List.flatMap_append

@[simp] theorem tasks_nil : tasks [] = [] := rfl

@[simp] theorem tasks_cons (p : Address × List Address) (f : Flow) :
    tasks (p::f) = p.1::(p.2 ++ tasks f) := rfl

@[simp] theorem tasks_append (f g : Flow) : tasks (f ++ g) = tasks f ++ tasks g :=
  List.flatMap_append

theorem mem_tasks {t : Address} {f : Flow} : t ∈ tasks f ↔ t ∈ mains f ∨ t ∈ subs f := by
  induction f with
  | nil => simp
  | cons p f ih =>
    simp only [tasks_cons,mains_cons,subs_cons,List.mem_cons,List.mem_append,ih]
    tauto

theorem mem_mains {t : Address} {f : Flow} : t ∈ mains f ↔ ∃ f₁ ss f₂, f = f₁ ++ (t,ss)::f₂ := by
  constructor
  · intro ht
    obtain ⟨⟨_,ss⟩,hp,rfl⟩ := List.mem_map.mp ht
    obtain ⟨f₁,f₂,hf⟩ := List.append_of_mem hp
    exact ⟨f₁,ss,f₂,hf⟩
  · rintro ⟨f₁,ss,f₂,rfl⟩
    simp

theorem mem_subs {t : Address} {f : Flow} :
    t ∈ subs f ↔ ∃ f₁ m ss₁ ss₂ f₂, f = f₁ ++ (m,ss₁ ++ t::ss₂)::f₂ := by
  constructor
  · intro ht
    obtain ⟨⟨m,ss⟩,hp,hts⟩ := List.mem_flatMap.mp ht
    obtain ⟨f₁,f₂,rfl⟩ := List.append_of_mem hp
    obtain ⟨ss₁,ss₂,rfl⟩ := List.append_of_mem hts
    exact ⟨f₁,m,ss₁,ss₂,f₂,rfl⟩
  · rintro ⟨f₁,m,ss₁,ss₂,f₂,rfl⟩
    simp

theorem length_mains_le (f : Flow) : f.mains.length ≤ f.tasks.length := by
  induction f with
  | nil => simp
  | cons p f ih =>
    simp only [mains_cons,tasks_cons,List.length_cons,List.length_append]
    omega

theorem length_subs_lt {p : Address × List Address} {f : Flow} (hp : p ∈ f) :
    p.2.length < f.tasks.length := by
  obtain ⟨f₁,f₂,rfl⟩ := List.append_of_mem hp
  simp only [tasks_append,tasks_cons,List.length_append,List.length_cons]
  omega

theorem mem_tasks_of_mem {p : Address × List Address} {t : Address} {f : Flow} (hp : p ∈ f)
    (ht : t ∈ p.1::p.2) : t ∈ f.tasks := List.mem_flatMap.mpr ⟨p,hp,ht⟩

theorem tasks_group (m : Address) (ss : List Address) (f₁ f₂ : Flow) :
    (tasks (f₁ ++ (m,ss)::f₂)).Perm ((m::ss) ++ tasks (f₁ ++ f₂)) := by
  simp [List.perm_iff_count,List.count_cons]
  omega

theorem nodup_group {m : Address} {ss : List Address} {f₁ f₂ : Flow}
    (h : (tasks (f₁ ++ (m,ss)::f₂)).Nodup) : (m::ss).Nodup ∧ ∀ t ∈ m::ss, t ∉ tasks (f₁ ++ f₂) := by
  rw [(tasks_group m ss f₁ f₂).nodup_iff,List.nodup_append] at h
  exact ⟨h.1,fun t ht ht' => h.2.2 t ht t ht' rfl⟩

/-- Main tasks without sub tasks. -/
def lone (ts : List Address) : Flow := ts.map fun t => (t,[])

@[simp] theorem mains_lone (ts : List Address) : mains (lone ts) = ts := by
  simp [mains,lone,Function.comp_def]

@[simp] theorem tasks_lone (ts : List Address) : tasks (lone ts) = ts := by
  simp [tasks,lone,List.flatMap_map]

end Flow

/-- The `list_node` of a task that is not on the main list. -/
def single (t : Address) : Node × List Node := (listNode t,[])

def group (p : Address × List Address) : Multiset (Node × List Node) :=
  (subTaskListHead p.1,p.2.map subTaskListHead) ::ₘ ↑(p.2.map single)

def groups (f : Flow) : Multiset (Node × List Node) := (f.map group).sum

def rings (tf : BitVec 64) (f : Flow) : Multiset (Node × List Node) :=
  (taskflow tf,f.mains.map listNode) ::ₘ groups f

/-- The rings of the tasks that `mthpc_taskflow_rlist_del` took out. -/
def addingRings (ts : List Address) : Multiset (Node × List Node) :=
  (addingList,ts.map subTaskListHead) ::ₘ ↑(ts.map single)

@[simp] theorem groups_nil : groups [] = 0 := rfl

@[simp] theorem groups_cons (p : Address × List Address) (f : Flow) :
    groups (p::f) = group p + groups f := by simp [groups]

@[simp] theorem groups_append (f g : Flow) : groups (f ++ g) = groups f + groups g := by
  simp [groups]

/-- Task `n` leaves its place and goes to the adding list. -/
inductive Detach (n : Address) : Flow → List Address → Flow → List Address → Prop
  | sub (f₁ f₂ : Flow) (m : Address) (ss₁ ss₂ ts : List Address) :
      Detach n (f₁ ++ (m,ss₁ ++ n::ss₂)::f₂) ts (f₁ ++ (m,ss₁ ++ ss₂)::f₂) (n::ts)
  | lone (f₁ f₂ : Flow) (ts : List Address) :
      Detach n (f₁ ++ (n,[])::f₂) ts (f₁ ++ f₂) (ts ++ [n])
  | main (f₁ f₂ : Flow) (c : Address) (cs ts : List Address) :
      Detach n (f₁ ++ (n,c::cs)::f₂) ts (f₁ ++ (c,cs)::f₂) (n::ts)

/-- The tasks `ts` go before `task`, as sub tasks of the named one if there is one. -/
inductive Before (task : Address) (ts : List Address) : Option Address → Flow → Flow → Prop
  | first (f : Flow) (ss : List Address) :
      Before task ts none ((task,ss)::f) (Flow.lone ts ++ (task,ss)::f)
  | prev (f₁ f₂ : Flow) (q : Address) (qs ss : List Address) :
      Before task ts (some q) (f₁ ++ (q,qs)::(task,ss)::f₂) (f₁ ++ (q,qs ++ ts)::(task,ss)::f₂)
  | sub (f₁ f₂ : Flow) (m : Address) (ss₁ ss₂ : List Address) :
      Before task ts (some task) (f₁ ++ (m,ss₁ ++ task::ss₂)::f₂)
        (f₁ ++ (m,ss₁ ++ ts ++ task::ss₂)::f₂)

/-- The tasks `ts` go after `task`, as sub tasks of the named one if there is one. -/
inductive After (task : Address) (ts : List Address) : Option Address → Flow → Flow → Prop
  | last (f : Flow) (ss : List Address) :
      After task ts none (f ++ [(task,ss)]) (f ++ (task,ss)::Flow.lone ts)
  | next (f₁ f₂ : Flow) (q : Address) (qs ss : List Address) :
      After task ts (some q) (f₁ ++ (task,ss)::(q,qs)::f₂) (f₁ ++ (task,ss)::(q,ts ++ qs)::f₂)
  | sub (f₁ f₂ : Flow) (m : Address) (ss₁ ss₂ : List Address) :
      After task ts (some task) (f₁ ++ (m,ss₁ ++ task::ss₂)::f₂)
        (f₁ ++ (m,ss₁ ++ task::(ts ++ ss₂))::f₂)

section Abstract

variable {n m task : Address} {ts ts' : List Address} {q : Option Address} {f f' : Flow}

theorem Detach.news (h : Detach n f ts f' ts') : ts'.Perm (n::ts) := by
  cases h with
  | sub f₁ f₂ m ss₁ ss₂ ts => exact .refl _
  | lone f₁ f₂ ts => exact List.perm_append_singleton _ _
  | main f₁ f₂ c cs ts => exact .refl _

theorem Detach.tasks (h : Detach n f ts f' ts') : f.tasks.Perm (n::f'.tasks) := by
  cases h with
  | sub f₁ f₂ m ss₁ ss₂ ts => simp [List.perm_iff_count,List.count_cons]; omega
  | lone f₁ f₂ ts => simp [List.perm_iff_count,List.count_cons]; omega
  | main f₁ f₂ c cs ts => simp [List.perm_iff_count,List.count_cons]; omega

theorem Detach.mains (h : Detach n f ts f' ts') (hm : m ∈ f.mains) (hn : m ≠ n) : m ∈ f'.mains := by
  cases h with
  | sub f₁ f₂ m' ss₁ ss₂ ts => simpa using hm
  | lone f₁ f₂ ts => simpa [hn] using hm
  | main f₁ f₂ c cs ts =>
    simp only [Flow.mains_append,Flow.mains_cons,List.mem_append,List.mem_cons] at hm ⊢
    tauto

theorem Detach.rest {ns : List Address} (h : Detach n f ts f' ts') (hns : (n::ns).Nodup)
    (hmem : ∀ x ∈ n::ns, x ∈ f.tasks) : ∀ x ∈ ns, x ∈ f'.tasks := by
  intro x hx
  cases List.mem_cons.mp (h.tasks.mem_iff.mp (hmem x (by simp [hx]))) with
  | inl hxn => exact absurd (hxn ▸ hx) (List.nodup_cons.mp hns).1
  | inr hx' => exact hx'

/-- What the two insertions have in common, the order of the tasks left aside. -/
structure Placed (ts : List Address) (q : Option Address) (f f' : Flow) : Prop where
  tasks : f'.tasks.Perm (ts ++ f.tasks)
  mains : ∀ m ∈ f.mains, m ∈ f'.mains
  new_mains : q = none → ∀ t ∈ ts, t ∈ f'.mains
  mem : ∀ p ∈ q, p ∈ f.tasks

theorem Before.placed (h : Before task ts q f f') : Placed ts q f f' := by
  cases h with
  | first f ss => exact ⟨by simp,by simp_all,by simp_all,by simp⟩
  | prev f₁ f₂ q qs ss =>
    exact ⟨by simp [List.perm_iff_count,List.count_cons]; omega,by simp,by simp,by simp⟩
  | sub f₁ f₂ m ss₁ ss₂ =>
    exact ⟨by simp [List.perm_iff_count,List.count_cons]; omega,by simp,by simp,by simp⟩

theorem After.placed (h : After task ts q f f') : Placed ts q f f' := by
  cases h with
  | last f ss =>
    exact ⟨by simp [List.perm_iff_count,List.count_cons]; omega,by simp; tauto,by simp_all,by simp⟩
  | next f₁ f₂ q qs ss =>
    exact ⟨by simp [List.perm_iff_count,List.count_cons]; omega,by simp,by simp,by simp⟩
  | sub f₁ f₂ m ss₁ ss₂ =>
    exact ⟨by simp [List.perm_iff_count,List.count_cons]; omega,by simp,by simp,by simp⟩

end Abstract

variable {tf : BitVec 64} {f f₁ f₂ : Flow} {m n c t : Address}
  {ss ss₁ ss₂ cs ts ts' : List Address}
  {l : Links Node} {s u : State}

theorem rings_detach_sub (h : Rings l (rings tf (f₁ ++ (m,ss₁ ++ n::ss₂)::f₂) + addingRings ts)) :
    Rings (ListHead.add (ListHead.del l (subTaskListHead n)) (subTaskListHead n) addingList)
      (rings tf (f₁ ++ (m,ss₁ ++ ss₂)::f₂) + addingRings (n::ts)) := by
  let R := (taskflow tf,(f₁.mains ++ m::f₂.mains).map listNode) ::ₘ
    (groups f₁ + groups f₂ + ↑((ss₁ ++ ss₂).map single) + ↑((n::ts).map single))
  have h₀ : Rings l ((subTaskListHead m,
      ss₁.map subTaskListHead ++ subTaskListHead n::ss₂.map subTaskListHead) ::ₘ
      (addingList,ts.map subTaskListHead) ::ₘ R) := by
    convert h using 1
    simp [R,rings,group,addingRings,← Multiset.singleton_add,← Multiset.coe_add,← Multiset.cons_coe]
    abel
  have h₁ := ListHead.rings_del h₀
  rw [Multiset.cons_swap,Multiset.cons_swap (subTaskListHead m,_)] at h₁
  convert ListHead.rings_add_single h₁ using 1
  simp [R,rings,group,addingRings,← Multiset.singleton_add,← Multiset.coe_add,← Multiset.cons_coe]
  abel

theorem rings_detach_lone (h : Rings l (rings tf (f₁ ++ (n,[])::f₂) + addingRings ts)) :
    Rings (ListHead.addTail (ListHead.del l (listNode n)) (subTaskListHead n) addingList)
      (rings tf (f₁ ++ f₂) + addingRings (ts ++ [n])) := by
  let R := groups f₁ + groups f₂ + ↑(ts.map single)
  have h₀ : Rings l ((taskflow tf,
      f₁.mains.map listNode ++ listNode n::f₂.mains.map listNode) ::ₘ
      (subTaskListHead n,[]) ::ₘ (addingList,ts.map subTaskListHead) ::ₘ R) := by
    convert h using 1
    simp [R,rings,group,addingRings,← Multiset.singleton_add]
    abel
  have h₁ := ListHead.rings_del h₀
  have h₂ : Rings (ListHead.del l (listNode n)) ((subTaskListHead n,[]) ::ₘ
      (addingList,ts.map subTaskListHead) ::ₘ (taskflow tf,
      f₁.mains.map listNode ++ f₂.mains.map listNode) ::ₘ single n ::ₘ R) := by
    convert h₁ using 1
    simp [single,← Multiset.singleton_add]
    abel
  convert ListHead.rings_addTail_single h₂ using 1
  simp [R,rings,addingRings,← Multiset.singleton_add,← Multiset.coe_add,← Multiset.cons_coe]
  abel

theorem rings_detach_main (h : Rings l (rings tf (f₁ ++ (n,c::cs)::f₂) + addingRings ts)) :
    Rings (ListHead.add (ListHead.replaceInit (ListHead.del l (subTaskListHead n))
        (listNode n) (listNode c)) (subTaskListHead n) addingList)
      (rings tf (f₁ ++ (c,cs)::f₂) + addingRings (n::ts)) := by
  let R := groups f₁ + groups f₂ + ↑(cs.map single) + ↑(ts.map single)
  have h₀ : Rings l ((subTaskListHead n,subTaskListHead c::cs.map subTaskListHead) ::ₘ
      single c ::ₘ (taskflow tf,f₁.mains.map listNode ++ listNode n::f₂.mains.map listNode) ::ₘ
      (addingList,ts.map subTaskListHead) ::ₘ R) := by
    convert h using 1
    simp [R,rings,group,addingRings,← Multiset.singleton_add,← Multiset.cons_coe]
    abel
  have h₁ := ListHead.rings_del_head h₀
  have h₂ : Rings (ListHead.del l (subTaskListHead n)) ((listNode c,[]) ::ₘ
      (taskflow tf,f₁.mains.map listNode ++ listNode n::f₂.mains.map listNode) ::ₘ
      (subTaskListHead n,[]) ::ₘ (addingList,ts.map subTaskListHead) ::ₘ
      (subTaskListHead c,cs.map subTaskListHead) ::ₘ R) := by
    convert h₁ using 1
    simp [single,← Multiset.singleton_add]
    abel
  have h₃ := ListHead.rings_replaceInit_single h₂
  have h₄ : Rings (ListHead.replaceInit (ListHead.del l (subTaskListHead n)) (listNode n)
      (listNode c)) ((subTaskListHead n,[]) ::ₘ (addingList,ts.map subTaskListHead) ::ₘ
      (taskflow tf,f₁.mains.map listNode ++ listNode c::f₂.mains.map listNode) ::ₘ
      single n ::ₘ (subTaskListHead c,cs.map subTaskListHead) ::ₘ R) := by
    convert h₃ using 1
    simp [single,← Multiset.singleton_add]
    abel
  convert ListHead.rings_add_single h₄ using 1
  simp [R,rings,group,addingRings,← Multiset.singleton_add,← Multiset.cons_coe]
  abel

section Members

theorem nodes_singles (ts : List Address) :
    nodes (↑(ts.map single) : Multiset (Node × List Node)) = ↑(ts.map listNode) := by
  induction ts with
  | nil => rfl
  | cons t ts ih =>
    rw [List.map_cons,← Multiset.cons_coe,single,nodes_cons,ih]
    rfl

theorem nodes_groups (f : Flow) :
    nodes (groups f) = ↑(f.tasks.map subTaskListHead) + ↑(f.subs.map listNode) := by
  induction f with
  | nil => rfl
  | cons p f ih =>
    rw [groups_cons,nodes_add,ih,group,nodes_cons,nodes_singles]
    simp [← Multiset.singleton_add,← Multiset.coe_add,← Multiset.cons_coe]
    abel

theorem mem_nodes_rings {x : Node} : x ∈ nodes (rings tf f) ↔
    x = taskflow tf ∨ ∃ t ∈ f.tasks, x = listNode t ∨ x = subTaskListHead t := by
  rw [rings,nodes_cons,nodes_groups]
  simp only [Multiset.mem_cons,Multiset.mem_add,Multiset.mem_coe,List.mem_map,Flow.mem_tasks]
  grind

theorem mem_nodes_addingRings {x : Node} : x ∈ nodes (addingRings ts) ↔
    x = addingList ∨ ∃ t ∈ ts, x = listNode t ∨ x = subTaskListHead t := by
  rw [addingRings,nodes_cons,nodes_singles]
  simp only [Multiset.mem_cons,Multiset.mem_add,Multiset.mem_coe,List.mem_map]
  grind

end Members

section Create

theorem rings_taskflowCreate : Rings (ListHead.init l (taskflow tf)) (rings tf []) := by
  refine ListHead.rings_init (R:=0) ⟨by simp,by simp⟩ (by simp)

theorem rings_taskAlloc (h : Rings l (rings tf f)) (ht : t ∉ f.tasks) :
    Rings (ListHead.init (ListHead.init l (listNode t)) (subTaskListHead t))
      ((subTaskListHead t,[]) ::ₘ (listNode t,[]) ::ₘ rings tf f) := by
  have hl : listNode t ∉ nodes (rings tf f) := by simp [mem_nodes_rings,ht]
  have hs : subTaskListHead t ∉ nodes ((listNode t,[]) ::ₘ rings tf f) := by
    simp [mem_nodes_rings,ht]
  exact ListHead.rings_init (ListHead.rings_init h hl) hs

theorem rings_taskCreate (h : Rings l ((subTaskListHead t,[]) ::ₘ (listNode t,[]) ::ₘ rings tf f)) :
    Rings (ListHead.addTail l (listNode t) (taskflow tf)) (rings tf (f ++ [(t,[])])) := by
  have h₀ : Rings l ((listNode t,[]) ::ₘ (taskflow tf,f.mains.map listNode) ::ₘ
      (subTaskListHead t,[]) ::ₘ groups f) := by
    convert h using 1
    simp [rings,← Multiset.singleton_add]
    abel
  convert ListHead.rings_addTail_single h₀ using 1
  simp [rings,group,← Multiset.singleton_add]
  abel

theorem rings_subTaskCreate_main
    (h : Rings l ((subTaskListHead t,[]) ::ₘ (listNode t,[]) ::ₘ rings tf (f₁ ++ (m,ss)::f₂))) :
    Rings (ListHead.addTail l (subTaskListHead t) (subTaskListHead m))
      (rings tf (f₁ ++ (m,ss ++ [t])::f₂)) := by
  let R := (taskflow tf,(f₁.mains ++ m::f₂.mains).map listNode) ::ₘ
    (groups f₁ + groups f₂ + ↑((t::ss).map single))
  have h₀ : Rings l ((subTaskListHead t,[]) ::ₘ
      (subTaskListHead m,ss.map subTaskListHead) ::ₘ R) := by
    convert h using 1
    simp [R,rings,group,single,← Multiset.singleton_add,← Multiset.cons_coe]
    abel
  convert ListHead.rings_addTail_single h₀ using 1
  simp [R,rings,group,← Multiset.singleton_add,← Multiset.coe_add,← Multiset.cons_coe]
  abel

theorem rings_subTaskCreate_sub
    (h : Rings l ((subTaskListHead t,[]) ::ₘ (listNode t,[]) ::ₘ
      rings tf (f₁ ++ (m,ss₁ ++ n::ss₂)::f₂))) :
    Rings (ListHead.addTail l (subTaskListHead t) (subTaskListHead n))
      (rings tf (f₁ ++ (m,ss₁ ++ t::n::ss₂)::f₂)) := by
  let R := (taskflow tf,(f₁.mains ++ m::f₂.mains).map listNode) ::ₘ
    (groups f₁ + groups f₂ + ↑((t::(ss₁ ++ n::ss₂)).map single))
  have h₀ : Rings l ((subTaskListHead m,
      ss₁.map subTaskListHead ++ subTaskListHead n::ss₂.map subTaskListHead) ::ₘ
      (subTaskListHead t,[]) ::ₘ R) := by
    convert h using 1
    simp [R,rings,group,single,← Multiset.singleton_add,← Multiset.coe_add,← Multiset.cons_coe]
    abel
  have h₁ := h₀.rotate
  rw [Multiset.cons_swap] at h₁
  have h₂ := ListHead.rings_addTail_single h₁
  rw [List.append_assoc,List.cons_append] at h₂
  convert h₂.rotate using 1
  simp [R,rings,group,← Multiset.singleton_add,← Multiset.coe_add,← Multiset.cons_coe]
  abel

end Create

section Neighbours

theorem rings_prev_main (h : Rings l (rings tf (f₁ ++ (t,ss)::f₂))) :
    l.prev (listNode t) = (f₁.mains.map listNode).getLast?.getD (taskflow tf) := by
  have hs := (rings_cons.mp h).1
  rw [Flow.mains_append,Flow.mains_cons,List.map_append,List.map_cons,seg_append] at hs
  exact hs.1.prev_eq

theorem rings_next_main (h : Rings l (rings tf (f₁ ++ (t,ss)::f₂))) :
    l.next (listNode t) = (f₂.mains.map listNode).headD (taskflow tf) := by
  have hs := (rings_cons.mp h).1
  rw [Flow.mains_append,Flow.mains_cons,List.map_append,List.map_cons,seg_append] at hs
  exact hs.2.next_eq

end Neighbours

section Insert

variable {q : Address} {qs bs : List Address} {R : Multiset (Node × List Node)} {l' : Links Node}
  {fuel : ℕ}

/-- What the loop does with a task whose node it has deleted. -/
def relinkTask (l : Links Node) (pos : Node) : Option (Links Node) :=
  (ofSubTaskListHead pos).map fun tmp => ListHead.addTail l (listNode tmp) newAddingList

theorem relinkLoop_eq {pos n : Node} : relinkLoop fuel l pos n = (ListHead.forEachSafe
    (fun l x => relinkTask (ListHead.del l x) x) addingList fuel l pos n).map Prod.fst := by
  induction fuel generalizing l pos n with
  | zero => rfl
  | succ fuel ih =>
    rw [relinkLoop,ListHead.forEachSafe]
    by_cases hp : pos = addingList
    · rw [if_pos hp,if_pos hp]
      rfl
    · rw [if_neg hp,if_neg hp,relinkTask]
      cases pos with
      | subTaskListHead tmp =>
        simp only [ofSubTaskListHead,Option.bind_some,Option.map_some,Option.map_map]
        exact ih
      | _ => rfl

/-- The rings while the loop runs: it has passed `done`, and `ts` is left. -/
def relinking (bs done ts : List Address) (R : Multiset (Node × List Node)) :
    Multiset (Node × List Node) :=
  (newAddingList,(bs ++ done).map listNode) ::ₘ (↑(ts.map single) +
    (groups (Flow.lone done) + R))

theorem leavesList_relink (bs ts : List Address) (R : Multiset (Node × List Node)) :
    ListHead.LeavesList addingList relinkTask fun ys S => ∃ done ts',
      ts = done ++ ts' ∧ ys = ts'.map subTaskListHead ∧ S = relinking bs done ts' R := by
  rintro l x ys S ⟨done,ts',rfl,hys,rfl⟩ h
  obtain ⟨t,ts',rfl,rfl,rfl⟩ := List.map_eq_cons_iff.mp hys.symm
  have h₁ : Rings l ((listNode t,[]) ::ₘ (newAddingList,(bs ++ done).map listNode) ::ₘ
      (addingList,ts'.map subTaskListHead) ::ₘ (↑(ts'.map single) + (subTaskListHead t,[]) ::ₘ
        (groups (Flow.lone done) + R))) := by
    convert h using 1
    simp [relinking,single,← Multiset.singleton_add,← Multiset.cons_coe]
    abel
  have h₂ := ListHead.rings_addTail_single h₁
  refine ⟨_,relinking bs (done ++ [t]) ts' R,rfl,⟨done ++ [t],ts',by simp,rfl,rfl⟩,?_⟩
  convert h₂ using 1
  simp [relinking,Flow.lone,groups,group,← Multiset.singleton_add]
  abel

theorem relinkLoop_returns
    (h : Rings l ((addingList,ts.map subTaskListHead) ::ₘ (newAddingList,bs.map listNode) ::ₘ
      (↑(ts.map single) + R))) (hf : ts.length < fuel) :
    ∃ l', relinkLoop fuel l (l.next addingList) (l.next (l.next addingList)) = some l' ∧
      Rings l' ((addingList,[]) ::ₘ (newAddingList,(bs ++ ts).map listNode) ::ₘ
        (groups (Flow.lone ts) + R)) := by
  have h₀ : Rings l ((addingList,ts.map subTaskListHead) ::ₘ relinking bs [] ts R) := by
    simpa [relinking,Flow.lone] using h
  obtain ⟨l',S,hl',⟨done,ts',hts,hnil,rfl⟩,hr⟩ := ListHead.forEachSafe_del
    (leavesList_relink bs ts R) ⟨[],ts,rfl,rfl,rfl⟩ h₀ (by simpa using hf)
  obtain rfl : ts' = [] := List.map_eq_nil_iff.mp hnil.symm
  obtain rfl : ts = done := hts.trans (List.append_nil done)
  refine ⟨l',?_,by simpa [relinking] using hr⟩
  rw [relinkLoop_eq,hl']
  rfl

theorem rings_relinkLoop
    (h : Rings l ((addingList,ts.map subTaskListHead) ::ₘ (newAddingList,bs.map listNode) ::ₘ
      (↑(ts.map single) + R)))
    (hl : relinkLoop fuel l (l.next addingList) (l.next (l.next addingList)) = some l') :
    Rings l' ((addingList,[]) ::ₘ (newAddingList,(bs ++ ts).map listNode) ::ₘ
      (groups (Flow.lone ts) + R)) := by
  obtain ⟨l₁,hl₁,hr⟩ := relinkLoop_returns h (Nat.lt_succ_self _)
  rw [relinkLoop_eq] at hl hl₁
  obtain ⟨r,hr₁,rfl⟩ := Option.map_eq_some_iff.mp hl
  obtain ⟨r',hr₂,rfl⟩ := Option.map_eq_some_iff.mp hl₁
  have h₁ := ListHead.forEachSafe_mono hr₁ (Nat.le_max_left fuel (ts.length+1))
  have h₂ := ListHead.forEachSafe_mono hr₂ (Nat.le_max_right fuel (ts.length+1))
  rw [Option.some.inj (h₁.symm.trans h₂)]
  exact hr

theorem rings_before_first
    (h : Rings l ((newAddingList,ts.map listNode) ::ₘ (groups (Flow.lone ts) +
      rings tf ((t,ss)::f)))) :
    Rings (ListHead.spliceTail l newAddingList (listNode t))
      (rings tf (Flow.lone ts ++ (t,ss)::f)) := by
  let R := group (t,ss) + groups f + groups (Flow.lone ts)
  have h₀ : Rings l ((taskflow tf,[] ++ listNode t::f.mains.map listNode) ::ₘ
      (newAddingList,ts.map listNode) ::ₘ R) := by
    convert h using 1
    simp [R,rings,← Multiset.singleton_add]
    abel
  have h₁ := h₀.rotate
  rw [Multiset.cons_swap] at h₁
  have h₂ := ListHead.rings_spliceTail h₁
  rw [List.append_assoc,List.cons_append] at h₂
  convert h₂.rotate using 1
  simp [R,rings,← Multiset.singleton_add]
  abel

theorem rings_after_last
    (h : Rings l ((newAddingList,ts.map listNode) ::ₘ (groups (Flow.lone ts) +
      rings tf (f ++ [(t,ss)])))) :
    Rings (ListHead.splice l newAddingList (listNode t))
      (rings tf (f ++ (t,ss)::Flow.lone ts)) := by
  let R := group (t,ss) + groups f + groups (Flow.lone ts)
  have h₀ : Rings l ((taskflow tf,f.mains.map listNode ++ listNode t::[]) ::ₘ
      (newAddingList,ts.map listNode) ::ₘ R) := by
    convert h using 1
    simp [R,rings,← Multiset.singleton_add]
    abel
  have h₁ := h₀.rotate
  rw [Multiset.cons_swap] at h₁
  have h₂ := ListHead.rings_splice h₁
  convert h₂.rotate using 1
  simp [R,rings,← Multiset.singleton_add]
  abel

theorem rings_join_tail (h : Rings l (rings tf (f₁ ++ (q,qs)::f₂) + addingRings ts)) :
    Rings (ListHead.spliceTail l addingList (subTaskListHead q))
      (rings tf (f₁ ++ (q,qs ++ ts)::f₂)) := by
  let R := (taskflow tf,(f₁.mains ++ q::f₂.mains).map listNode) ::ₘ
    (groups f₁ + groups f₂ + ↑((qs ++ ts).map single))
  have h₀ : Rings l ((addingList,ts.map subTaskListHead) ::ₘ
      (subTaskListHead q,qs.map subTaskListHead) ::ₘ R) := by
    convert h using 1
    simp [R,rings,group,addingRings,← Multiset.singleton_add,← Multiset.coe_add]
    abel
  convert ListHead.rings_spliceTail h₀ using 1
  simp [R,rings,group,← Multiset.singleton_add,← Multiset.coe_add]
  abel

theorem rings_join_head (h : Rings l (rings tf (f₁ ++ (q,qs)::f₂) + addingRings ts)) :
    Rings (ListHead.splice l addingList (subTaskListHead q))
      (rings tf (f₁ ++ (q,ts ++ qs)::f₂)) := by
  let R := (taskflow tf,(f₁.mains ++ q::f₂.mains).map listNode) ::ₘ
    (groups f₁ + groups f₂ + ↑((qs ++ ts).map single))
  have h₀ : Rings l ((addingList,ts.map subTaskListHead) ::ₘ
      (subTaskListHead q,qs.map subTaskListHead) ::ₘ R) := by
    convert h using 1
    simp [R,rings,group,addingRings,← Multiset.singleton_add,← Multiset.coe_add]
    abel
  convert ListHead.rings_splice h₀ using 1
  simp [R,rings,group,← Multiset.singleton_add,← Multiset.coe_add]
  abel

theorem rings_join_before (h : Rings l (rings tf (f₁ ++ (m,ss₁ ++ t::ss₂)::f₂) + addingRings ts)) :
    Rings (ListHead.spliceTail l addingList (subTaskListHead t))
      (rings tf (f₁ ++ (m,ss₁ ++ ts ++ t::ss₂)::f₂)) := by
  let R := (taskflow tf,(f₁.mains ++ m::f₂.mains).map listNode) ::ₘ
    (groups f₁ + groups f₂ + ↑((ss₁ ++ t::ss₂ ++ ts).map single))
  have h₀ : Rings l ((subTaskListHead m,
      ss₁.map subTaskListHead ++ subTaskListHead t::ss₂.map subTaskListHead) ::ₘ
      (addingList,ts.map subTaskListHead) ::ₘ R) := by
    convert h using 1
    simp [R,rings,group,addingRings,← Multiset.singleton_add,← Multiset.coe_add,← Multiset.cons_coe]
    abel
  have h₁ := h₀.rotate
  rw [Multiset.cons_swap] at h₁
  have h₂ := ListHead.rings_spliceTail h₁
  rw [List.append_assoc,List.cons_append] at h₂
  convert h₂.rotate using 1
  simp [R,rings,group,← Multiset.singleton_add,← Multiset.coe_add,← Multiset.cons_coe]
  abel

theorem rings_join_after (h : Rings l (rings tf (f₁ ++ (m,ss₁ ++ t::ss₂)::f₂) + addingRings ts)) :
    Rings (ListHead.splice l addingList (subTaskListHead t))
      (rings tf (f₁ ++ (m,ss₁ ++ t::(ts ++ ss₂))::f₂)) := by
  let R := (taskflow tf,(f₁.mains ++ m::f₂.mains).map listNode) ::ₘ
    (groups f₁ + groups f₂ + ↑((ss₁ ++ t::ss₂ ++ ts).map single))
  have h₀ : Rings l ((subTaskListHead m,
      ss₁.map subTaskListHead ++ subTaskListHead t::ss₂.map subTaskListHead) ::ₘ
      (addingList,ts.map subTaskListHead) ::ₘ R) := by
    convert h using 1
    simp [R,rings,group,addingRings,← Multiset.singleton_add,← Multiset.coe_add,← Multiset.cons_coe]
    abel
  have h₁ := h₀.rotate
  rw [Multiset.cons_swap] at h₁
  have h₂ := ListHead.rings_splice h₁
  rw [← List.append_assoc] at h₂
  convert h₂.rotate using 1
  simp [R,rings,group,← Multiset.singleton_add,← Multiset.coe_add,← Multiset.cons_coe]
  abel

end Insert

section Functions

variable {T : Address} {v : State} {fuel k : ℕ} {q : Option Address}

/-- Whether `mthpc_taskflow_rlist_del` finds `n` where its flag and its counter say it is. -/
def Movable (s : State) (n : Address) : Prop :=
  if isSubTask (s.task n).isSubTaskParent then ListHead.empty s.links (listNode n) = true
  else ((s.task n).nrSubTask = 1 ↔ ListHead.empty s.links (subTaskListHead n) = true)

instance (s : State) (n : Address) : Decidable (Movable s n) := by
  unfold Movable; infer_instance

theorem rings_group (f₁ f₂ : Flow) (m : Address) (ss : List Address) :
    rings tf (f₁ ++ (m,ss)::f₂) = (subTaskListHead m,ss.map subTaskListHead) ::ₘ
      ((taskflow tf,(f₁.mains ++ m::f₂.mains).map listNode) ::ₘ
        (groups f₁ + groups f₂ + ↑(ss.map single))) := by
  simp [rings,group,← Multiset.singleton_add]
  abel

theorem empty_listNode (h : Rings l (rings tf f)) (hn : ListHead.empty l (listNode n)) :
    n ∉ f.mains := by
  intro hm
  obtain ⟨f₁,ss,f₂,rfl⟩ := Flow.mem_mains.mp hm
  have hnext := rings_next_main h
  have hnd := (rings_cons.mp h).2.1
  rw [ListHead.empty,hnext,decide_eq_true_eq] at hn
  cases f₂ with
  | nil => exact absurd hn (by simp)
  | cons p f₂ =>
    have hp : p.1 = n := by simpa using hn
    simp [hp,List.nodup_append] at hnd

theorem empty_subTaskListHead (h : Rings l (rings tf (f₁ ++ (m,ss)::f₂))) :
    ListHead.empty l (subTaskListHead m) ↔ ss = [] := by
  rw [rings_group] at h
  obtain ⟨hs,hnd,_,_⟩ := rings_cons.mp h
  rw [ListHead.empty,hs.next_eq,decide_eq_true_eq]
  cases ss with
  | nil => simp
  | cons c cs =>
    have hne : m ≠ c := by
      rintro rfl
      simp at hnd
    simpa using hne.symm

theorem rlistDelOne_detach (h : Rings s.links (rings tf f + addingRings ts)) (hn : n ∈ f.tasks)
    (hm : Movable s n) (hmain : isSubTask (s.task n).isSubTaskParent = false → n ∈ f.mains)
    (hu : rlistDelOne s n = some u) :
    ∃ f' ts', Detach n f ts f' ts' ∧ Rings u.links (rings tf f' + addingRings ts') := by
  rw [Movable] at hm
  rw [rlistDelOne] at hu
  by_cases hflag : isSubTask (s.task n).isSubTaskParent = true
  · rw [if_pos hflag] at hm hu
    obtain ⟨main,_,rfl⟩ := Option.map_eq_some_iff.mp hu
    have hsub := (Flow.mem_tasks.mp hn).resolve_left (empty_listNode h.left hm)
    obtain ⟨f₁,m,ss₁,ss₂,f₂,rfl⟩ := Flow.mem_subs.mp hsub
    exact ⟨_,_,.sub f₁ f₂ m ss₁ ss₂ ts,rings_detach_sub h⟩
  · rw [if_neg hflag] at hm hu
    obtain ⟨f₁,ss,f₂,rfl⟩ := Flow.mem_mains.mp (hmain (by simpa using hflag))
    rw [empty_subTaskListHead h.left] at hm
    by_cases hnr : (s.task n).nrSubTask = 1
    · rw [if_pos hnr] at hu
      cases hu
      rw [hm.mp hnr] at h ⊢
      exact ⟨_,_,.lone f₁ f₂ ts,rings_detach_lone h⟩
    · rw [if_neg hnr] at hu
      cases ss with
      | nil => exact absurd (hm.mpr rfl) hnr
      | cons c cs =>
        have h' := h.left
        rw [rings_group] at h'
        have hnext : s.links.next (subTaskListHead n) = subTaskListHead c :=
          (rings_cons.mp h').1.next_eq
        rw [hnext,ofSubTaskListHead,Option.map_some] at hu
        cases hu
        exact ⟨_,_,.main f₁ f₂ c cs ts,rings_detach_main h⟩

theorem newMainTask_eq {splice : Links Node → Links Node}
    (h : Rings s.links (rings tf f + addingRings ts))
    (hv : newMainTask fuel s k splice = some v) :
    ∃ t ts' l, ts = t::ts' ∧ v = (s.promote t k).relink (fun _ => splice l) ∧
      Rings l ((newAddingList,ts.map listNode) ::ₘ (groups (Flow.lone ts) + rings tf f)) := by
  have h₀ : Rings s.links ((addingList,ts.map subTaskListHead) ::ₘ
      (↑(ts.map single) + rings tf f)) := by
    convert h using 1
    simp [addingRings,← Multiset.singleton_add]
    abel
  have hnext := (rings_cons.mp h₀).1.next_eq
  obtain ⟨t,ht,hv⟩ := Option.bind_eq_some_iff.mp hv
  obtain ⟨l',hl',rfl⟩ := Option.map_eq_some_iff.mp hv
  cases ts with
  | nil =>
    rw [hnext] at ht
    cases ht
  | cons x xs =>
    have hx : t = x := by
      rw [hnext] at ht
      exact (Option.some.inj ht).symm
    subst hx
    refine ⟨t,xs,l',rfl,rfl,?_⟩
    have hnew : newAddingList ∉ nodes (rings tf f + addingRings (t::xs)) := by
      simp [mem_nodes_rings,mem_nodes_addingRings]
    have h₁ := ListHead.rings_init h hnew
    have h₂ : Rings (ListHead.init s.links newAddingList)
        ((addingList,(t::xs).map subTaskListHead) ::ₘ
          (newAddingList,([] : List Address).map listNode) ::ₘ
          (↑((t::xs).map single) + rings tf f)) := by
      convert h₁ using 1
      simp [addingRings,← Multiset.singleton_add]
      abel
    exact (rings_relinkLoop h₂ hl').tail

/-- The state after the tasks `ts` were linked, as sub tasks of the named one if there is one. -/
def placed (s : State) (ts : List Address) (q : Option Address) (k : ℕ) (l : Links Node) : State :=
  match q,ts with
  | some q, _ => ((s.setMainTask ts q).relink fun _ => l).modify q fun t =>
      { t with nrSubTask := t.nrSubTask+BitVec.ofNat 64 k }
  | none, t::_ => (s.promote t k).relink fun _ => l
  | none, [] => s

theorem placed_links (hne : q = none → ts ≠ []) : (placed s ts q k l).links = l := by
  cases q with
  | some q => rfl
  | none =>
    cases ts with
    | nil => exact absurd rfl (hne rfl)
    | cons t ts => rfl

theorem placed_created : (placed s ts q k l).created = s.created := by
  cases q with
  | some q => simp [placed]
  | none => cases ts <;> simp [placed,State.promote]

theorem placed_nrTask : (placed s ts q k l).nrTask = s.nrTask := by
  cases q with
  | some q => simp [placed]
  | none => cases ts <;> simp [placed,State.promote]

theorem mapM_ofSubTaskListHead (ts : List Address) :
    (ts.map subTaskListHead).mapM ofSubTaskListHead = some ts := by
  induction ts with
  | nil => rfl
  | cons t ts ih => simp [ofSubTaskListHead,ih]

theorem mapM_ofListNode (ts : List Address) : (ts.map listNode).mapM ofListNode = some ts := by
  induction ts with
  | nil => rfl
  | cons t ts ih => simp [ofListNode,ih]

theorem joinMainTask_eq {splice : Links Node → Links Node} {main : Address}
    (h : Rings s.links (rings tf f + addingRings ts))
    (hv : joinMainTask fuel s k main splice = some v) :
    v = ((s.setMainTask ts main).relink splice).modify main fun t =>
      { t with nrSubTask := t.nrSubTask+BitVec.ofNat 64 k } := by
  rw [add_comm,addingRings,Multiset.cons_add] at h
  obtain ⟨hs,hnd,_,_⟩ := rings_cons.mp h
  obtain ⟨nodes,hnodes,hv⟩ := Option.bind_eq_some_iff.mp hv
  have heq : nodes = ts.map subTaskListHead :=
    ListHead.forEach_unique hnodes
      (ListHead.forEach_eq hs (List.nodup_cons.mp hnd).1 (Nat.lt_succ_self _))
  rw [heq,mapM_ofSubTaskListHead] at hv
  exact (Option.some.inj hv).symm

theorem rings_single (h : Rings l (rings tf f)) (hn : n ∈ f.subs) :
    l.next (listNode n) = listNode n ∧ l.prev (listNode n) = listNode n := by
  obtain ⟨f₁,m,ss₁,ss₂,f₂,rfl⟩ := Flow.mem_subs.mp hn
  have hmem : single n ∈ rings tf (f₁ ++ (m,ss₁ ++ n::ss₂)::f₂) := by
    simp [rings,group]
  exact seg_nil.mp (h.seg _ hmem)

theorem addBefore_placed (h : Rings s.links (rings tf f + addingRings ts)) (hT : T ∈ f.tasks)
    (hv : addBefore fuel s tf T k = some v) :
    ∃ q f' l, Before T ts q f f' ∧ Rings l (rings tf f') ∧ v = placed s ts q k l ∧
      (q = none → ts ≠ []) := by
  rw [addBefore] at hv
  cases Flow.mem_tasks.mp hT with
  | inl hmain =>
    obtain ⟨f₁,ss,f₂,rfl⟩ := Flow.mem_mains.mp hmain
    have hprev := rings_prev_main h.left
    cases List.eq_nil_or_concat' f₁ with
    | inl h0 =>
      subst h0
      rw [hprev,if_pos (by rfl)] at hv
      obtain ⟨t,ts',l,rfl,rfl,hl⟩ := newMainTask_eq h hv
      exact ⟨none,_,_,.first f₂ ss,rings_before_first hl,rfl,by simp⟩
    | inr h0 =>
      obtain ⟨g,⟨q,qs⟩,rfl⟩ := h0
      have hq : s.links.prev (listNode T) = listNode q := by simpa using hprev
      rw [hq,if_neg (by simp),ofListNode,Option.bind_some] at hv
      rw [List.append_assoc] at h ⊢
      refine ⟨some q,_,_,.prev g f₂ q qs ss,rings_join_tail h,?_,by simp⟩
      rw [joinMainTask_eq h hv,placed]
      simp [State.relink]
  | inr hsub =>
    have hprev := (rings_single h.left hsub).2
    rw [hprev,if_neg (by simp),ofListNode,Option.bind_some] at hv
    obtain ⟨f₁,m,ss₁,ss₂,f₂,rfl⟩ := Flow.mem_subs.mp hsub
    refine ⟨some T,_,_,.sub f₁ f₂ m ss₁ ss₂,rings_join_before h,?_,by simp⟩
    rw [joinMainTask_eq h hv,placed]
    simp [State.relink]

theorem addAfter_placed (h : Rings s.links (rings tf f + addingRings ts)) (hT : T ∈ f.tasks)
    (hv : addAfter fuel s tf T k = some v) :
    ∃ q f' l, After T ts q f f' ∧ Rings l (rings tf f') ∧ v = placed s ts q k l ∧
      (q = none → ts ≠ []) := by
  rw [addAfter] at hv
  cases Flow.mem_tasks.mp hT with
  | inl hmain =>
    obtain ⟨f₁,ss,f₂,rfl⟩ := Flow.mem_mains.mp hmain
    have hnext := rings_next_main h.left
    cases f₂ with
    | nil =>
      rw [hnext,if_pos (by rfl)] at hv
      obtain ⟨t,ts',l,rfl,rfl,hl⟩ := newMainTask_eq h hv
      exact ⟨none,_,_,.last f₁ ss,rings_after_last hl,rfl,by simp⟩
    | cons p f₂ =>
      obtain ⟨q,qs⟩ := p
      have hq : s.links.next (listNode T) = listNode q := by simpa using hnext
      rw [hq,if_neg (by simp),ofListNode,Option.bind_some] at hv
      have h' : Rings s.links (rings tf ((f₁ ++ [(T,ss)]) ++ (q,qs)::f₂) + addingRings ts) := by
        simpa using h
      have hl := rings_join_head h'
      rw [List.append_assoc] at hl
      refine ⟨some q,_,_,.next f₁ f₂ q qs ss,hl,?_,by simp⟩
      rw [joinMainTask_eq h hv,placed]
      simp [State.relink]
  | inr hsub =>
    have hnext := (rings_single h.left hsub).1
    rw [hnext,if_neg (by simp),ofListNode,Option.bind_some] at hv
    obtain ⟨f₁,m,ss₁,ss₂,f₂,rfl⟩ := Flow.mem_subs.mp hsub
    refine ⟨some T,_,_,.sub f₁ f₂ m ss₁ ss₂,rings_join_after h,?_,by simp⟩
    rw [joinMainTask_eq h hv,placed]
    simp [State.relink]

section Walk

theorem mainTasks_eq (h : Rings s.links (rings tf f)) (hf : f.mains.length < fuel) :
    mainTasks fuel s tf = some f.mains := by
  obtain ⟨hs,hnd,_,_⟩ := rings_cons.mp h
  rw [mainTasks,ListHead.forEach_eq hs (List.nodup_cons.mp hnd).1 (by simpa using hf),
    Option.bind_some,mapM_ofListNode]

theorem subTasks_eq (h : Rings s.links (rings tf f)) (hm : (m,ss) ∈ f) (hf : ss.length < fuel) :
    subTasks fuel s m = some ss := by
  obtain ⟨f₁,f₂,rfl⟩ := List.append_of_mem hm
  rw [rings_group] at h
  obtain ⟨hs,hnd,_,_⟩ := rings_cons.mp h
  rw [subTasks,ListHead.forEach_eq hs (List.nodup_cons.mp hnd).1 (by simpa using hf),
    Option.bind_some,mapM_ofSubTaskListHead]

theorem mapM_mono {α β : Type*} {F G : α → Option β} {xs : List α} {ys : List β}
    (hFG : ∀ x y, F x = some y → G x = some y) (h : xs.mapM F = some ys) : xs.mapM G = some ys := by
  induction xs generalizing ys with
  | nil => simpa using h
  | cons x xs ih =>
    rw [List.mapM_cons] at h ⊢
    obtain ⟨y,hy,h⟩ := Option.bind_eq_some_iff.mp h
    obtain ⟨zs,hzs,h⟩ := Option.bind_eq_some_iff.mp h
    rw [hFG x y hy,ih hzs]
    exact h

theorem mainTasks_mono {fuel' : ℕ} (hle : fuel ≤ fuel') (h : mainTasks fuel s tf = some ts) :
    mainTasks fuel' s tf = some ts := by
  obtain ⟨ns,hns,h⟩ := Option.bind_eq_some_iff.mp h
  rw [mainTasks,ListHead.forEach_mono hns hle]
  exact h

theorem mainTasks_unique {fuel' : ℕ} (h : mainTasks fuel s tf = some ts)
    (h' : mainTasks fuel' s tf = some ts') : ts = ts' := by
  have hx := mainTasks_mono (Nat.le_max_left fuel fuel') h
  have hy := mainTasks_mono (Nat.le_max_right fuel fuel') h'
  exact Option.some.inj (hx.symm.trans hy)

theorem subTasks_mono {fuel' : ℕ} (hle : fuel ≤ fuel') (h : subTasks fuel s m = some ts) :
    subTasks fuel' s m = some ts := by
  obtain ⟨ns,hns,h⟩ := Option.bind_eq_some_iff.mp h
  rw [subTasks,ListHead.forEach_mono hns hle]
  exact h

theorem awaitWalk_mono {fuel' : ℕ} (hle : fuel ≤ fuel') (h : awaitWalk fuel s tf = some ts) :
    awaitWalk fuel' s tf = some ts := by
  obtain ⟨ms,hms,h⟩ := Option.bind_eq_some_iff.mp h
  obtain ⟨xs,hxs,h⟩ := Option.map_eq_some_iff.mp h
  rw [awaitWalk,mainTasks_mono hle hms,Option.bind_some,mapM_mono ?_ hxs]
  · exact congrArg some h
  · intro m ys hm
    obtain ⟨zs,hzs,hm⟩ := Option.map_eq_some_iff.mp hm
    rw [subTasks_mono hle hzs]
    exact congrArg some hm

theorem awaitWalk_unique {fuel' : ℕ} (h : awaitWalk fuel s tf = some ts)
    (h' : awaitWalk fuel' s tf = some ts') : ts = ts' := by
  have hx := awaitWalk_mono (Nat.le_max_left fuel fuel') h
  have hy := awaitWalk_mono (Nat.le_max_right fuel fuel') h'
  exact Option.some.inj (hx.symm.trans hy)

theorem mapM_subTasks {f : Flow} (hf : ∀ p ∈ f, subTasks fuel s p.1 = some p.2) :
    (f.mains.mapM fun m => (subTasks fuel s m).map fun ts => m::ts) =
      some (f.map fun p => p.1::p.2) := by
  induction f with
  | nil => rfl
  | cons p f ih =>
    have hp := hf p (by simp)
    have hf' := ih fun q hq => hf q (by simp [hq])
    simp [hp,hf']

theorem awaitWalk_eq (h : Rings s.links (rings tf f)) :
    awaitWalk (f.tasks.length+1) s tf = some f.tasks := by
  have hmains := mainTasks_eq h (Nat.lt_succ_of_le f.length_mains_le)
  have hsubs : ∀ p ∈ f, subTasks (f.tasks.length+1) s p.1 = some p.2 := fun p hp =>
    subTasks_eq h hp (Nat.lt_succ_of_lt (Flow.length_subs_lt hp))
  rw [awaitWalk,hmains,Option.bind_some,mapM_subTasks hsubs]
  simp [Flow.tasks,List.flatMap_def]

end Walk

end Functions

end Taskflow
end Mthpc
