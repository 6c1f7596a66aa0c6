import Mthpc.TaskAwait

/-!
# Declared order and execution order

Precede and succeed move tasks between the groups and keep no record of what was declared. A
declared pair is respected as long as its tasks stay in different groups, in their order. A call
says nothing about the tasks that it does not move, so that all depends on the group that the
batch comes to: the one next to the group of the named task.
-/
namespace Mthpc
namespace Taskflow

open StepSystem Links Node

namespace Flow

/-- Task `a` is in an earlier group than `b`. -/
def Lt : Flow → Address → Address → Prop
  | [], _, _ => False
  | p::f, a, b => a ∈ p.1::p.2 ∧ b ∈ tasks f ∨ Lt f a b

instance Lt.decidable : ∀ (f : Flow) (a b : Address), Decidable (Lt f a b)
  | [], _, _ => inferInstanceAs (Decidable False)
  | p::f, a, b =>
    have := Lt.decidable f a b
    inferInstanceAs (Decidable (a ∈ p.1::p.2 ∧ b ∈ tasks f ∨ Lt f a b))

/-- A group is known by its tasks, the main task first. -/
def ofTasks : List Address → Option (Address × List Address)
  | [] => none
  | m::ss => some (m,ss)

/-- The groups without the tasks of a batch. -/
def without (news : List Address) (f : Flow) : Flow :=
  f.filterMap fun p => ofTasks ((p.1::p.2).filter (· ∉ news))

/-- The order in which the tasks of a batch are queued behind `ts`. One that is alone in its
group when its turn comes goes to the end, and the others to the front. -/
def queue : Flow → List Address → List Address → List Address
  | _, ts, [] => ts
  | f, ts, n::ns => queue (without [n] f) (if (n,[]) ∈ f then ts ++ [n] else n::ts) ns

section Order

variable {f g f₁ f₂ : Flow} {a b m n : Address} {ss ts : List Address} {p : Address × List Address}

@[simp] theorem lt_nil : ¬ Lt [] a b := id

@[simp] theorem lt_cons : Lt (p::f) a b ↔ a ∈ p.1::p.2 ∧ b ∈ tasks f ∨ Lt f a b := Iff.rfl

@[simp] theorem lt_append :
    Lt (f ++ g) a b ↔ Lt f a b ∨ Lt g a b ∨ a ∈ tasks f ∧ b ∈ tasks g := by
  induction f with
  | nil => simp
  | cons p f ih =>
    rw [List.cons_append,lt_cons,lt_cons,ih,tasks_append,tasks_cons,← List.cons_append,
      List.mem_append,List.mem_append,and_or_left,or_and_right]
    exact iff_of_eq (by ac_rfl)

theorem Lt.mem (h : Lt f a b) : a ∈ f.tasks ∧ b ∈ f.tasks := by
  induction f with
  | nil => exact absurd h lt_nil
  | cons p f ih =>
    simp only [tasks_cons,List.mem_cons,List.mem_append]
    rcases lt_cons.mp h with ⟨ha,hb⟩ | h
    · rw [List.mem_cons] at ha
      tauto
    · have := ih h
      tauto

theorem Lt.split (h : Lt f a b) : ∃ (f₁ : Flow) (p : Address × List Address) (f₂ : Flow),
    f = f₁ ++ p::f₂ ∧ a ∈ f₁.tasks ∧ b ∈ p.1::p.2 := by
  induction f with
  | nil => exact absurd h lt_nil
  | cons p f ih =>
    rcases lt_cons.mp h with ⟨ha,hb⟩ | h
    · obtain ⟨q,hq,hbq⟩ := List.mem_flatMap.mp hb
      obtain ⟨g₁,g₂,rfl⟩ := List.append_of_mem hq
      exact ⟨p::g₁,q,g₂,rfl,mem_tasks_of_mem List.mem_cons_self ha,hbq⟩
    · obtain ⟨g₁,q,g₂,rfl,ha,hb⟩ := ih h
      refine ⟨p::g₁,q,g₂,rfl,?_,hb⟩
      rw [tasks_cons,List.mem_cons,List.mem_append]
      exact .inr (.inr ha)

theorem lt_group (hnd : (f₁ ++ p::f₂).tasks.Nodup) (hb : b ∈ p.1::p.2) :
    Lt (f₁ ++ p::f₂) a b ↔ a ∈ f₁.tasks := by
  constructor
  · intro h
    obtain ⟨g₁,q,g₂,hf,ha,hbq⟩ := h.split
    rw [(split_unique hf hnd hb hbq).1]
    exact ha
  · intro ha
    rw [lt_append]
    refine .inr (.inr ⟨ha,?_⟩)
    exact mem_tasks_of_mem List.mem_cons_self hb

theorem lt_of_group (hnd : (f₁ ++ p::f₂).tasks.Nodup) (ha : a ∈ p.1::p.2) :
    Lt (f₁ ++ p::f₂) a b ↔ b ∈ f₂.tasks := by
  constructor
  · intro h
    obtain ⟨g₁,q,g₂,hf,hag,hb⟩ := h.split
    obtain ⟨r,hr,har⟩ := List.mem_flatMap.mp hag
    obtain ⟨h₁,h₂,rfl⟩ := List.append_of_mem hr
    rw [List.append_assoc,List.cons_append] at hf
    obtain ⟨rfl,rfl⟩ := split_unique hf hnd ha har
    rw [List.append_cancel_left_eq,List.cons.injEq] at hf
    rw [hf.2,tasks_append]
    exact List.mem_append_right _ (mem_tasks_of_mem List.mem_cons_self hb)
  · intro hb
    rw [lt_append,lt_cons]
    exact .inr (.inl (.inl ⟨ha,hb⟩))

@[simp] theorem without_nil (news : List Address) : without news [] = [] := rfl

@[simp] theorem without_append (news : List Address) (f g : Flow) :
    without news (f ++ g) = without news f ++ without news g := List.filterMap_append

theorem without_cons (news : List Address) (p : Address × List Address) (f : Flow) :
    without news (p::f) = (ofTasks ((p.1::p.2).filter (· ∉ news))).toList ++ without news f := by
  rw [without,List.filterMap_cons]
  cases ofTasks ((p.1::p.2).filter (· ∉ news)) <;> rfl

theorem tasks_ofTasks (ts : List Address) : tasks (ofTasks ts).toList = ts := by
  cases ts with
  | nil => rfl
  | cons m ss => simp [ofTasks]

theorem tasks_without (news : List Address) (f : Flow) :
    tasks (without news f) = (tasks f).filter (· ∉ news) := by
  induction f with
  | nil => rfl
  | cons p f ih =>
    rw [without_cons,tasks_append,tasks_ofTasks,ih,tasks_cons,← List.cons_append,
      List.filter_append]

theorem lt_without (ha : a ∉ ts) (hb : b ∉ ts) : Lt (without ts f) a b ↔ Lt f a b := by
  induction f with
  | nil => rfl
  | cons p f ih =>
    rw [without_cons,lt_append,ih,lt_cons,tasks_without,tasks_ofTasks]
    have hone : ¬ Lt (ofTasks ((p.1::p.2).filter (· ∉ ts))).toList a b := by
      cases (p.1::p.2).filter (· ∉ ts) <;> simp [ofTasks]
    simp only [List.mem_filter,decide_eq_true_eq]
    tauto

theorem filter_notMem {xs : List Address} (h : n ∉ xs) : xs.filter (· ∉ [n]) = xs := by
  refine List.filter_eq_self.mpr fun t ht => ?_
  simp only [List.mem_singleton,decide_not,Bool.not_eq_true',decide_eq_false_iff_not]
  rintro rfl
  exact h ht

theorem without_notMem (h : n ∉ f.tasks) : without [n] f = f := by
  induction f with
  | nil => rfl
  | cons p f ih =>
    rw [tasks_cons,← List.cons_append,List.mem_append,not_or] at h
    rw [without_cons,filter_notMem h.1,ih h.2]
    rfl

@[simp] theorem without_none (f : Flow) : without [] f = f := by
  induction f with
  | nil => rfl
  | cons p f ih =>
    rw [without_cons,ih]
    simp [ofTasks]

theorem without_cons_batch (n : Address) (ns : List Address) (f : Flow) :
    without (n::ns) f = without ns (without [n] f) := by
  induction f with
  | nil => rfl
  | cons p f ih =>
    have hfilter : (p.1::p.2).filter (· ∉ n::ns) =
        ((p.1::p.2).filter (· ∉ [n])).filter (· ∉ ns) := by
      rw [List.filter_filter]
      refine List.filter_congr fun t _ => ?_
      by_cases htn : t = n <;> simp [htn]
    rw [without_cons,without_cons [n],without_append,ih,hfilter]
    cases (p.1::p.2).filter (· ∉ [n]) with
    | nil => rfl
    | cons x xs =>
      rw [ofTasks,Option.toList_some,without_cons,without_nil,List.append_nil]

theorem lt_join {qs qs' : List Address} (hnd : (f₁ ++ (m,qs')::f₂).tasks.Nodup)
    (hp : qs'.Perm (qs ++ ts)) :
    (b ∈ ts → (Lt (f₁ ++ (m,qs')::f₂) a b ↔ a ∈ f₁.tasks)) ∧
    (a ∈ ts → (Lt (f₁ ++ (m,qs')::f₂) a b ↔ b ∈ f₂.tasks)) ∧
    (a ∉ ts → b ∉ ts → (Lt (f₁ ++ (m,qs')::f₂) a b ↔ Lt (f₁ ++ (m,qs)::f₂) a b)) := by
  have hmem : ∀ t, t ∈ qs' ↔ t ∈ qs ∨ t ∈ ts := fun t => by
    rw [hp.mem_iff,List.mem_append]
  refine ⟨fun hb => lt_group hnd ?_,fun ha => lt_of_group hnd ?_,fun ha hb => ?_⟩
  · simp [hmem,hb]
  · simp [hmem,ha]
  · simp [hmem,ha,hb]

theorem lt_lone (hnd : ts.Nodup) : Lt (lone ts) a b ↔ b ∈ ts ∧ ts.idxOf a < ts.idxOf b := by
  induction ts with
  | nil => simp [lone]
  | cons t ts ih =>
    obtain ⟨ht,hnd⟩ := List.nodup_cons.mp hnd
    have hcons : lone (t::ts) = (t,[])::lone ts := rfl
    rw [hcons,lt_cons,ih hnd,tasks_lone,List.mem_singleton,List.mem_cons]
    by_cases hat : a = t <;> by_cases hbt : b = t
    · simp [hat,hbt,ht]
    · subst hat
      simp only [hbt,false_or,true_and,List.idxOf_cons_self,List.idxOf_cons_ne _ (Ne.symm hbt)]
      simp only [Nat.succ_pos,and_true]
      tauto
    · subst hbt
      simp [hat,ht]
    · rw [List.idxOf_cons_ne _ (Ne.symm hat),List.idxOf_cons_ne _ (Ne.symm hbt)]
      simp [hat,hbt]

end Order

end Flow

/-- Pairs of tasks, the first of which was declared to run before the second. -/
abbrev Declared := List (Address × Address)

def Ordered (D : Declared) (f : Flow) : Prop := ∀ d ∈ D, f.Lt d.1 d.2

/-- Task `a` is queued before `b`. -/
def Queued (ts : List Address) (a b : Address) : Prop := b ∈ ts ∧ ts.idxOf a < ts.idxOf b

instance (ts : List Address) (a b : Address) : Decidable (Queued ts a b) :=
  inferInstanceAs (Decidable (b ∈ ts ∧ ts.idxOf a < ts.idxOf b))

/-- The pairs allow the tasks `ts` to go before the main task `m`. Where it is the first one they
go before all other tasks, in the order of the queue. Otherwise they go to the group before the
one of `m`. -/
def RoomBefore (D : Declared) (g : Flow) (m : Address) (ts : List Address) : Prop :=
  ∀ d ∈ D, (d.2 ∈ ts → if g.mains.head? = some m then Queued ts d.1 d.2
      else ∃ x ∈ g.tasks, g.Lt d.1 x ∧ g.Lt x m) ∧
    (d.1 ∈ ts → d.2 ∉ ts → ¬ g.Lt d.2 m)

/-- The pairs allow the tasks `ts` to go after the main task `m`. -/
def RoomAfter (D : Declared) (g : Flow) (m : Address) (ts : List Address) : Prop :=
  ∀ d ∈ D, (d.1 ∈ ts → if g.mains.getLast? = some m then Queued ts d.1 d.2
      else ∃ x ∈ g.tasks, g.Lt m x ∧ g.Lt x d.2) ∧
    (d.2 ∈ ts → d.1 ∉ ts → ¬ g.Lt m d.1)

instance (D : Declared) (g : Flow) (m : Address) (ts : List Address) :
    Decidable (RoomBefore D g m ts) :=
  inferInstanceAs (Decidable (∀ d ∈ D, (d.2 ∈ ts → if g.mains.head? = some m then Queued ts d.1 d.2
      else ∃ x ∈ g.tasks, g.Lt d.1 x ∧ g.Lt x m) ∧ (d.1 ∈ ts → d.2 ∉ ts → ¬ g.Lt d.2 m)))

instance (D : Declared) (g : Flow) (m : Address) (ts : List Address) :
    Decidable (RoomAfter D g m ts) :=
  inferInstanceAs (Decidable (∀ d ∈ D, (d.1 ∈ ts → if g.mains.getLast? = some m then
      Queued ts d.1 d.2 else ∃ x ∈ g.tasks, g.Lt m x ∧ g.Lt x d.2) ∧
      (d.2 ∈ ts → d.1 ∉ ts → ¬ g.Lt m d.1)))

section Moves

variable {n m task : Address} {ts ts' : List Address} {q : Option Address} {f f' g : Flow}

theorem without_group {f₁ f₂ : Flow} {ss : List Address}
    (hnd : (f₁ ++ (m,ss)::f₂).tasks.Nodup) (hn : n ∈ m::ss) :
    Flow.without [n] (f₁ ++ (m,ss)::f₂) =
      f₁ ++ ((Flow.ofTasks ((m::ss).filter (· ∉ [n]))).toList ++ f₂) := by
  have ho := (Flow.nodup_group hnd).2 n hn
  rw [Flow.tasks_append,List.mem_append,not_or] at ho
  rw [Flow.without_append,Flow.without_cons,Flow.without_notMem ho.1,Flow.without_notMem ho.2]

theorem Detach.eq (h : Detach n f ts f' ts') (hnd : f.tasks.Nodup) :
    f' = Flow.without [n] f ∧ ts' = if (n,[]) ∈ f then ts ++ [n] else n::ts := by
  cases h with
  | sub f₁ f₂ m ss₁ ss₂ ts =>
    have hg := (Flow.nodup_group hnd).1
    have hmid := List.nodup_middle.mp (List.nodup_cons.mp hg).2
    have hnm : n ≠ m := fun h => (List.nodup_cons.mp hg).1 (by simp [h])
    have hns : n ∉ m::(ss₁ ++ ss₂) := by
      rw [List.mem_cons,not_or]
      exact ⟨hnm,(List.nodup_cons.mp hmid).1⟩
    have hfilter : (m::(ss₁ ++ n::ss₂)).filter (· ∉ [n]) = m::(ss₁ ++ ss₂) := by
      rw [← Flow.filter_notMem hns]
      simp [List.filter_cons,List.filter_append]
    have hlone : (n,[]) ∉ f₁ ++ (m,ss₁ ++ n::ss₂)::f₂ := by
      intro hmem
      have he := Flow.eq_of_mem (t:=n) hnd hmem (List.mem_append_right _ List.mem_cons_self)
        (by simp) (by simp)
      simp at he
    rw [without_group hnd (by simp),hfilter,if_neg hlone]
    exact ⟨rfl,rfl⟩
  | lone f₁ f₂ ts =>
    rw [without_group hnd (by simp),if_pos (by simp)]
    simp [Flow.ofTasks]
  | main f₁ f₂ c cs ts =>
    have hg := (Flow.nodup_group hnd).1
    have hfilter : (n::c::cs).filter (· ∉ [n]) = c::cs := by
      rw [← Flow.filter_notMem (List.nodup_cons.mp hg).1]
      simp
    have hlone : (n,[]) ∉ f₁ ++ (n,c::cs)::f₂ := by
      intro hmem
      have he := Flow.eq_of_mem (t:=n) hnd hmem (List.mem_append_right _ List.mem_cons_self)
        (by simp) (by simp)
      simp at he
    rw [without_group hnd (by simp),hfilter,if_neg hlone]
    exact ⟨rfl,rfl⟩

theorem Named.rlistDel_eq {tf : TaskflowPtr} {s u : State} {ns : List Address}
    (h : Named tf s f ts) (hr : Rings s.links (rings tf.addr f + addingRings ts))
    (hns : ns.Nodup) (hmem : ∀ n ∈ ns, n ∈ f.tasks) (hok : EachTurn Movable s ns)
    (hu : ns.foldlM rlistDelOne s = some u) :
    Named tf u (Flow.without ns f) (Flow.queue f ts ns) ∧
      Rings u.links (rings tf.addr (Flow.without ns f) + addingRings (Flow.queue f ts ns)) ∧
      u.created = s.created := by
  induction ns generalizing s f ts with
  | nil =>
    cases hu
    rw [Flow.without_none]
    exact ⟨h,hr,rfl⟩
  | cons n ns ih =>
    obtain ⟨t,ht,hu⟩ := Option.bind_eq_some_iff.mp hu
    rw [EachTurn,ht] at hok
    have hn := hmem n (by simp)
    have hcr : n ∈ s.created := h.tasks.mem_iff.mp (List.mem_append_right _ hn)
    obtain ⟨f₁,ts₁,hd,hr₁⟩ := rlistDelOne_detach hr hn hok.1 (h.unflagged n hcr) ht
    have hnext := h.detach hd ht
    have hmem' := hd.rest hns hmem
    obtain ⟨rfl,rfl⟩ := hd.eq h.tasks_nodup
    obtain ⟨hn',hr',hc⟩ := ih hnext hr₁ hns.of_cons hmem' hok.2 hu
    rw [Flow.without_cons_batch,Flow.queue]
    exact ⟨hn',hr',hc.trans (rlistDelOne_fields ht).1⟩

theorem Flow.not_sub_of_main {f₁ f₂ : Flow} {ss₁ ss₂ : List Address} {m' : Address}
    (hnd : (f₁ ++ (m',ss₁ ++ m::ss₂)::f₂).tasks.Nodup) :
    m ∉ (f₁ ++ (m',ss₁ ++ m::ss₂)::f₂).mains := by
  intro hm
  obtain ⟨g₁,ss,g₂,hg⟩ := Flow.mem_mains.mp hm
  have hp : (m,ss) ∈ f₁ ++ (m',ss₁ ++ m::ss₂)::f₂ := by
    rw [hg]
    exact List.mem_append_right _ List.mem_cons_self
  obtain ⟨rfl,_⟩ := Prod.mk.inj (Flow.eq_of_mem (t:=m) hnd hp
    (List.mem_append_right _ List.mem_cons_self) (by simp) (by simp))
  exact absurd (Flow.nodup_group hnd).1 (by simp)

theorem Flow.lt_gap_before {f₁ f₂ : Flow} {qs ss : List Address} {a r : Address}
    (hnd : (f₁ ++ (r,qs)::(m,ss)::f₂).tasks.Nodup) :
    (∃ x ∈ (f₁ ++ (r,qs)::(m,ss)::f₂).tasks, (f₁ ++ (r,qs)::(m,ss)::f₂).Lt a x ∧
      (f₁ ++ (r,qs)::(m,ss)::f₂).Lt x m) ↔ a ∈ f₁.tasks := by
  constructor
  · rintro ⟨x,_,hax,hxm⟩
    rw [List.append_cons] at hxm hnd
    rw [Flow.lt_group hnd (by simp)] at hxm
    rw [← List.append_cons] at hnd
    rw [Flow.tasks_append,List.mem_append] at hxm
    rcases hxm with hx | hx
    · obtain ⟨p,hp,hxp⟩ := List.mem_flatMap.mp hx
      obtain ⟨g₁,g₂,rfl⟩ := List.append_of_mem hp
      rw [List.append_assoc,List.cons_append] at hax hnd
      rw [Flow.lt_group hnd hxp] at hax
      simp [hax]
    · exact (Flow.lt_group hnd (by simpa using hx)).mp hax
  · intro ha
    refine ⟨r,by simp,(Flow.lt_group hnd (by simp)).mpr ha,?_⟩
    rw [List.append_cons] at hnd ⊢
    rw [Flow.lt_group hnd (by simp)]
    simp

theorem Before.ordered_iff {D : Declared} (h : Before m ts q g f') (hm : m ∈ g.mains)
    (hnd : f'.tasks.Nodup) (hD : ∀ d ∈ D, d.1 ∈ ts ++ g.tasks ∧ d.2 ∈ ts ++ g.tasks)
    (hrest : ∀ d ∈ D, d.1 ∉ ts → d.2 ∉ ts → g.Lt d.1 d.2) : Ordered D f' ↔ RoomBefore D g m ts := by
  have hp := h.placed.tasks.nodup_iff.mp hnd
  obtain ⟨hts,hg,hdis⟩ := List.nodup_append.mp hp
  refine forall₂_congr fun d hd => ?_
  obtain ⟨hd₁,hd₂⟩ := hD d hd
  have hrest := hrest d hd
  rw [List.mem_append] at hd₁ hd₂
  cases h with
  | first f ss =>
    have hfirst : ¬ Flow.Lt ((m,ss)::f) d.2 m := by
      intro hlt
      rw [← List.nil_append ((m,ss)::f)] at hlt hg
      exact List.not_mem_nil ((Flow.lt_group hg List.mem_cons_self).mp hlt)
    have hmem : d.2 ∈ ts → d.2 ∉ Flow.tasks ((m,ss)::f) := fun h₁ h₂ => hdis _ h₁ _ h₂ rfl
    have hlt : Flow.Lt ((m,ss)::f) d.1 d.2 → d.2 ∈ Flow.tasks ((m,ss)::f) := fun h => h.mem.2
    rw [Flow.lt_append,Flow.lt_lone hts,Flow.tasks_lone,Flow.mains_cons,List.head?_cons,
      if_pos rfl,Queued]
    by_cases h₂ : d.2 ∈ ts
    · have hno : d.2 ∉ Flow.tasks ((m,ss)::f) := hmem h₂
      have hnlt : ¬ Flow.Lt ((m,ss)::f) d.1 d.2 := fun h => hno (hlt h)
      simp only [h₂,hno,hnlt,not_true,false_imp_iff,imp_true_iff,and_true,true_imp_iff,or_false,
        and_false,true_and]
    · have hin := hd₂.resolve_left h₂
      simp only [h₂,hin,hfirst,false_imp_iff,not_false_iff,imp_true_iff,and_true,
        false_and,false_or,iff_true]
      rcases hd₁ with h₁ | h₁
      · exact .inr h₁
      · exact .inl (hrest (fun h => hdis _ h _ h₁ rfl) h₂)
  | prev f₁ f₂ q qs ss =>
    obtain ⟨hj₁,hj₂,hj₃⟩ := Flow.lt_join (a:=d.1) (b:=d.2) hnd (.refl _)
    rw [List.append_cons] at hg
    have hafter := (Flow.lt_group (a:=d.2) hg List.mem_cons_self)
    obtain ⟨hg₁,hg₂,hdis'⟩ := List.nodup_append.mp (Flow.tasks_append _ _ ▸ hg)
    have hhead : (f₁ ++ (q,qs)::(m,ss)::f₂).mains.head? ≠ some m := by
      intro hh
      have hm' : m ∈ (f₁ ++ [(q,qs)]).tasks := by
        refine Flow.mem_tasks.mpr (.inl (List.mem_of_head? ?_))
        simpa [List.head?_append] using hh
      exact hdis' m hm' m (by simp) rfl
    have hsplit : d.2 ∈ (f₁ ++ [(q,qs)]).tasks → d.2 ∉ Flow.tasks ((m,ss)::f₂) :=
      fun h₁ h₂ => hdis' _ h₁ _ h₂ rfl
    rw [List.append_cons,Flow.tasks_append,List.mem_append] at hd₂
    rw [← List.append_cons] at hg hafter
    rw [if_neg hhead,Flow.lt_gap_before hg,hafter]
    by_cases h₂ : d.2 ∈ ts
    · rw [hj₁ h₂]
      simp [h₂]
    · by_cases h₁ : d.1 ∈ ts
      · rw [hj₂ h₁]
        constructor
        · exact fun hb => ⟨fun h => absurd h h₂,fun _ _ ha => hsplit ha hb⟩
        · exact fun h => (hd₂.resolve_left h₂).resolve_left (h.2 h₁ h₂)
      · rw [hj₃ h₁ h₂]
        simp [h₁,h₂,hrest h₁ h₂]
  | sub f₁ f₂ m' ss₁ ss₂ => exact absurd hm (Flow.not_sub_of_main hg)

theorem Flow.lt_gap_after {f₁ f₂ : Flow} {qs ss : List Address} {b r : Address}
    (hnd : (f₁ ++ (m,ss)::(r,qs)::f₂).tasks.Nodup) :
    (∃ x ∈ (f₁ ++ (m,ss)::(r,qs)::f₂).tasks, (f₁ ++ (m,ss)::(r,qs)::f₂).Lt m x ∧
      (f₁ ++ (m,ss)::(r,qs)::f₂).Lt x b) ↔ b ∈ f₂.tasks := by
  have hnd' := hnd
  rw [List.append_cons] at hnd'
  constructor
  · rintro ⟨x,_,hmx,hxb⟩
    rw [Flow.lt_of_group hnd List.mem_cons_self,Flow.tasks_cons,← List.cons_append,
      List.mem_append] at hmx
    rcases hmx with hx | hx
    · rw [List.append_cons] at hxb
      exact (Flow.lt_of_group hnd' hx).mp hxb
    · obtain ⟨p,hp,hxp⟩ := List.mem_flatMap.mp hx
      obtain ⟨g₁,g₂,rfl⟩ := List.append_of_mem hp
      have hf : f₁ ++ (m,ss)::(r,qs)::(g₁ ++ p::g₂) = (f₁ ++ (m,ss)::(r,qs)::g₁) ++ p::g₂ := by
        simp
      rw [hf] at hxb hnd
      rw [Flow.lt_of_group hnd hxp] at hxb
      simp [hxb]
  · intro hb
    refine ⟨r,by simp,(Flow.lt_of_group hnd List.mem_cons_self).mpr (by simp),?_⟩
    rw [List.append_cons]
    exact (Flow.lt_of_group hnd' List.mem_cons_self).mpr hb

theorem After.ordered_iff {D : Declared} (h : After m ts q g f') (hm : m ∈ g.mains)
    (hnd : f'.tasks.Nodup) (hD : ∀ d ∈ D, d.1 ∈ ts ++ g.tasks ∧ d.2 ∈ ts ++ g.tasks)
    (hrest : ∀ d ∈ D, d.1 ∉ ts → d.2 ∉ ts → g.Lt d.1 d.2) : Ordered D f' ↔ RoomAfter D g m ts := by
  have hp := h.placed.tasks.nodup_iff.mp hnd
  obtain ⟨hts,hg,hdis⟩ := List.nodup_append.mp hp
  refine forall₂_congr fun d hd => ?_
  obtain ⟨hd₁,hd₂⟩ := hD d hd
  have hrest := hrest d hd
  rw [List.mem_append] at hd₁ hd₂
  cases h with
  | last f ss =>
    have hlast : ¬ (f ++ [(m,ss)]).Lt m d.1 := by
      rw [Flow.lt_of_group hg List.mem_cons_self]
      exact List.not_mem_nil
    have hmem : d.1 ∈ ts → d.1 ∉ (f ++ [(m,ss)]).tasks := fun h₁ h₂ => hdis _ h₁ _ h₂ rfl
    have hlt : (f ++ [(m,ss)]).Lt d.1 d.2 → d.1 ∈ (f ++ [(m,ss)]).tasks := fun h => h.mem.1
    have hq : d.2 ∈ ts ∧ ts.idxOf d.1 < ts.idxOf d.2 → d.1 ∈ ts := fun h =>
      List.idxOf_lt_length_iff.mp (h.2.trans (List.idxOf_lt_length_iff.mpr h.1))
    have hml : (f ++ [(m,ss)]).mains.getLast? = some m := by simp
    rw [List.append_cons,Flow.lt_append,Flow.lt_lone hts,Flow.tasks_lone,if_pos hml,Queued]
    by_cases h₁ : d.1 ∈ ts
    · have hno : d.1 ∉ (f ++ [(m,ss)]).tasks := hmem h₁
      have hnlt : ¬ (f ++ [(m,ss)]).Lt d.1 d.2 := fun h => hno (hlt h)
      simp only [h₁,hno,hnlt,not_true,false_imp_iff,imp_true_iff,and_true,true_imp_iff,false_or,
        false_and,or_false]
    · have hin := hd₁.resolve_left h₁
      simp only [h₁,hin,hlast,false_imp_iff,not_false_iff,imp_true_iff,true_and,and_true,iff_true]
      rcases hd₂ with h₂ | h₂
      · exact .inr (.inr h₂)
      · exact .inl (hrest h₁ fun h => hdis _ h _ h₂ rfl)
  | next f₁ f₂ q qs ss =>
    rw [List.append_cons] at hnd
    obtain ⟨hj₁,hj₂,hj₃⟩ := Flow.lt_join (a:=d.1) (b:=d.2) hnd List.perm_append_comm
    have hafter := (Flow.lt_of_group (b:=d.1) hg (List.mem_cons_self (a:=m)))
    have hg' := hg
    rw [List.append_cons,Flow.tasks_append] at hg'
    obtain ⟨hg₁,hg₂,hdis'⟩ := List.nodup_append.mp hg'
    have hlast : (f₁ ++ (m,ss)::(q,qs)::f₂).mains.getLast? ≠ some m := by
      intro hh
      have hm' : m ∈ Flow.tasks ((q,qs)::f₂) := by
        refine Flow.mem_tasks.mpr (.inl (List.mem_of_getLast? ?_))
        simpa [List.getLast?_append,List.getLast?_cons] using hh
      exact hdis' m (by simp) m hm' rfl
    have hsplit : d.1 ∈ (f₁ ++ [(m,ss)]).tasks → d.1 ∉ Flow.tasks ((q,qs)::f₂) :=
      fun h₁ h₂ => hdis' _ h₁ _ h₂ rfl
    rw [List.append_cons f₁,Flow.tasks_append,List.mem_append] at hd₁
    rw [if_neg hlast,Flow.lt_gap_after hg,hafter]
    rw [List.append_cons]
    by_cases h₁ : d.1 ∈ ts
    · rw [hj₂ h₁]
      simp [h₁]
    · by_cases h₂ : d.2 ∈ ts
      · rw [hj₁ h₂]
        constructor
        · exact fun ha => ⟨fun h => absurd h h₁,fun _ _ hb => hsplit ha hb⟩
        · exact fun h => (hd₁.resolve_left h₁).resolve_right (h.2 h₂ h₁)
      · rw [hj₃ h₁ h₂,← List.append_cons]
        simp [h₁,h₂,hrest h₁ h₂]
  | sub f₁ f₂ m' ss₁ ss₂ => exact absurd hm (Flow.not_sub_of_main hg)

end Moves

/-- The groups as `mthpc_taskflow_await` would walk over them. -/
def groupsOf (s : State) (tf : BitVec 64) : Option Flow :=
  (mainTasks (s.created.length+1) s tf).bind fun ms =>
    ms.mapM fun m => (subTasks (s.created.length+1) s m).map fun ss => (m,ss)

def declares : Op → Declared
  | .precede task news _ => news.map fun n => (n,task)
  | .succeed task news _ => news.map fun n => (task,n)
  | _ => []

/-- The calls, with what they have declared. -/
def stepDeclared (tf : TaskflowPtr) (x : State × Declared) (op : Op) : Option (State × Declared) :=
  (step tf x.1 op).map fun u => (u,declares op ++ x.2)

/-- The batch can be moved next to the main task of `task`, and there is room for it. -/
def Placeable (tf : TaskflowPtr) (s : State) (task : Address) (news : List Address)
    (room : Flow → Address → List Address → Prop) : Prop :=
  Apart s task news ∧ (news ≠ [] → ∀ m ∈ mainOf s task, ∀ f ∈ groupsOf s tf.addr,
    m ∈ (f.without news).mains ∧ room (f.without news) m (f.queue [] news))

instance (tf : TaskflowPtr) (s : State) (task : Address) (news : List Address)
    (room : Flow → Address → List Address → Prop) [∀ f m ts, Decidable (room f m ts)] :
    Decidable (Placeable tf s task news room) :=
  inferInstanceAs (Decidable (Apart s task news ∧ (news ≠ [] → ∀ m ∈ mainOf s task,
    ∀ f ∈ groupsOf s tf.addr, m ∈ (f.without news).mains ∧
      room (f.without news) m (f.queue [] news))))

/-- The calls that keep every declared pair in order, their own ones included. -/
def Orderly (tf : TaskflowPtr) (x : State × Declared) (op : Op) : Prop :=
  match op with
  | .create _ | .subCreate _ _ => True
  | .precede task news _ => Placeable tf x.1 task news (RoomBefore (declares op ++ x.2))
  | .succeed task news _ => Placeable tf x.1 task news (RoomAfter (declares op ++ x.2))

instance (tf : TaskflowPtr) (x : State × Declared) : ∀ op, Decidable (Orderly tf x op)
  | .create _ => inferInstanceAs (Decidable True)
  | .subCreate _ _ => inferInstanceAs (Decidable True)
  | .precede task news fuel => inferInstanceAs (Decidable (Placeable tf x.1 task news
      (RoomBefore (declares (.precede task news fuel) ++ x.2))))
  | .succeed task news fuel => inferInstanceAs (Decidable (Placeable tf x.1 task news
      (RoomAfter (declares (.succeed task news fuel) ++ x.2))))

section Calls

variable {tf : TaskflowPtr} {s u v : State} {f f' : Flow} {D : Declared} {m task : Address}
  {news : List Address} {fuel : ℕ}

theorem mapM_groups (hf : ∀ p ∈ f, subTasks fuel s p.1 = some p.2) :
    (f.mains.mapM fun m => (subTasks fuel s m).map fun ss => (m,ss)) = some f := by
  induction f with
  | nil => rfl
  | cons p f ih =>
    have hp := hf p (by simp)
    have hf' := ih fun q hq => hf q (by simp [hq])
    simp [hp,hf']

theorem WellFormed.groupsOf (h : WellFormed tf s f) : groupsOf s tf.addr = some f := by
  have hlen : f.tasks.length = s.created.length := h.1.tasks.length_eq
  have hfuel : f.mains.length < s.created.length+1 := by
    rw [← hlen]
    exact Nat.lt_succ_of_le f.length_mains_le
  have hmains := mainTasks_eq h.2 hfuel
  have hsubs : ∀ p ∈ f, subTasks (s.created.length+1) s p.1 = some p.2 := by
    intro p hp
    refine subTasks_eq h.2 hp ?_
    rw [← hlen]
    exact Nat.lt_succ_of_lt (Flow.length_subs_lt hp)
  rw [Taskflow.groupsOf,hmains,Option.bind_some]
  exact mapM_groups hsubs

theorem Flow.mem_queue {f : Flow} {ts ns : List Address} {x : Address} :
    x ∈ f.queue ts ns ↔ x ∈ ts ∨ x ∈ ns := by
  induction ns generalizing f ts with
  | nil => simp [Flow.queue]
  | cons n ns ih =>
    rw [Flow.queue,ih]
    split <;> simp <;> tauto

theorem WellFormed.takeOut (h : WellFormed tf s f) (hb : Batch s task news)
    (hap : Apart s task news) (hu : Taskflow.rlistDel s news = some u) :
    Named tf u (f.without news) (f.queue [] news) ∧
      Rings u.links (rings tf.addr (f.without news) + addingRings (f.queue [] news)) ∧
      u.created = s.created := by
  obtain ⟨hn,hr⟩ := h.begin
  exact hn.rlistDel_eq hr hb.2.2.1 (fun n hn => h.mem_tasks.mpr (hb.2.1 n hn)) hap.2 hu

theorem Flow.Lt.grow {f₁ f₂ : Flow} {ss ss' : List Address} {a b : Address}
    (h : (f₁ ++ (m,ss)::f₂).Lt a b) (hss : ss ⊆ ss') : (f₁ ++ (m,ss')::f₂).Lt a b := by
  have hgroup : m::ss ⊆ m::ss' := List.cons_subset_cons m hss
  have htasks : Flow.tasks ((m,ss)::f₂) ⊆ Flow.tasks ((m,ss')::f₂) := by
    intro t ht
    rcases List.mem_append.mp ht with ht | ht
    · exact List.mem_append_left f₂.tasks (hgroup ht)
    · exact List.mem_append_right (m::ss') ht
  rcases Flow.lt_append.mp h with h | h | ⟨ha,hb⟩
  · exact Flow.lt_append.mpr (.inl h)
  · refine Flow.lt_append.mpr (.inr (.inl ?_))
    rcases Flow.lt_cons.mp h with ⟨ha,hb⟩ | h
    · exact Flow.lt_cons.mpr (.inl ⟨hgroup ha,hb⟩)
    · exact Flow.lt_cons.mpr (.inr h)
  · exact Flow.lt_append.mpr (.inr (.inr ⟨ha,htasks hb⟩))

/-- What is known between two calls. -/
def OrderInv (tf : TaskflowPtr) (x : State × Declared) (f : Flow) : Prop :=
  WellFormed tf x.1 f ∧ Ordered x.2 f

theorem OrderInv.taskCreate {new : Address} (h : OrderInv tf (s,D) f) (hnew : new ∉ s.created) :
    OrderInv tf (taskCreate s tf.addr (some new),D) (f ++ [(new,[])]) :=
  ⟨h.1.taskCreate hnew,fun d hd => Flow.lt_append.mpr (.inl (h.2 d hd))⟩

theorem OrderInv.subTaskCreate {new : Address} (h : OrderInv tf (s,D) f) (htask : task ∈ s.created)
    (hnew : new ∉ s.created) (hu : subTaskCreate s task (some new) = some u) :
    ∃ f', OrderInv tf (u,D) f' := by
  obtain ⟨hwf,hord⟩ := h
  cases Flow.mem_tasks.mp (hwf.mem_tasks.mpr htask) with
  | inl hmain =>
    obtain ⟨f₁,ss,f₂,rfl⟩ := Flow.mem_mains.mp hmain
    refine ⟨_,hwf.subTaskCreate_main hnew hu,fun d hd => (hord d hd).grow ?_⟩
    exact List.subset_append_left ss [new]
  | inr hsub =>
    obtain ⟨f₁,m,ss₁,ss₂,f₂,rfl⟩ := Flow.mem_subs.mp hsub
    refine ⟨_,hwf.subTaskCreate_sub hnew hu,fun d hd => (hord d hd).grow ?_⟩
    intro x hx
    simp only [List.mem_append,List.mem_cons] at hx ⊢
    tauto

theorem OrderInv.pairs {E : Declared} (h : OrderInv tf (s,D) f)
    (hn : Named tf u (f.without news) (f.queue [] news)) (hc : u.created = s.created)
    (hE : ∀ d ∈ E, d.1 ∈ s.created ∧ d.2 ∈ s.created ∧ (d.1 ∈ news ∨ d.2 ∈ news)) :
    (∀ d ∈ E ++ D, d.1 ∈ f.queue [] news ++ (f.without news).tasks ∧
      d.2 ∈ f.queue [] news ++ (f.without news).tasks) ∧
    ∀ d ∈ E ++ D, d.1 ∉ f.queue [] news → d.2 ∉ f.queue [] news →
      (f.without news).Lt d.1 d.2 := by
  have hmem : ∀ x, x ∈ f.queue [] news ↔ x ∈ news := fun x => by simp [Flow.mem_queue]
  refine ⟨fun d hd => ?_,fun d hd h₁ h₂ => ?_⟩
  · rw [hn.tasks.mem_iff,hn.tasks.mem_iff,hc]
    rcases List.mem_append.mp hd with hd | hd
    · exact ⟨(hE d hd).1,(hE d hd).2.1⟩
    · have hm := (h.2 d hd).mem
      exact ⟨h.1.mem_tasks.mp hm.1,h.1.mem_tasks.mp hm.2⟩
  · rw [hmem] at h₁ h₂
    rcases List.mem_append.mp hd with hd | hd
    · exact absurd (hE d hd).2.2 (by simp [h₁,h₂])
    · exact (Flow.lt_without h₁ h₂).mpr (h.2 d hd)

theorem OrderInv.taken {room : Flow → Address → List Address → Prop} {E : Declared}
    {queueAt : State → Address → Option State} (h : OrderInv tf (s,D) f)
    (hb : Batch s task news) (hne : news ≠ []) (hok : Placeable tf s task news room)
    (hE : ∀ d ∈ E, ∃ n ∈ news, d = (n,task) ∨ d = (task,n))
    (hv : ((mainOf s task).bind fun m => (Taskflow.rlistDel s news).bind fun u =>
      queueAt u m) = some v) :
    ∃ u m, queueAt u m = some v ∧ m ∈ (f.without news).mains ∧
      room (f.without news) m (f.queue [] news) ∧
      Named tf u (f.without news) (f.queue [] news) ∧
      Rings u.links (rings tf.addr (f.without news) + addingRings (f.queue [] news)) ∧
      (∀ d ∈ E ++ D, d.1 ∈ f.queue [] news ++ (f.without news).tasks ∧
        d.2 ∈ f.queue [] news ++ (f.without news).tasks) ∧
      ∀ d ∈ E ++ D, d.1 ∉ f.queue [] news → d.2 ∉ f.queue [] news →
        (f.without news).Lt d.1 d.2 := by
  obtain ⟨m,hm,hv⟩ := Option.bind_eq_some_iff.mp hv
  obtain ⟨u,hu,hv⟩ := Option.bind_eq_some_iff.mp hv
  obtain ⟨hap,hroom⟩ := hok
  obtain ⟨hmain,hroom⟩ := hroom hne m hm f h.1.groupsOf
  obtain ⟨hn,hr,hc⟩ := h.1.takeOut hb hap hu
  obtain ⟨hD,hrest⟩ := h.pairs (E:=E) hn hc fun d hd => by
    obtain ⟨n,hn,rfl | rfl⟩ := hE d hd
    · exact ⟨hb.2.1 n hn,hb.1,.inl hn⟩
    · exact ⟨hb.1,hb.2.1 n hn,.inr hn⟩
  exact ⟨u,m,hv,hmain,hroom,hn,hr,hD,hrest⟩

theorem OrderInv.precede (h : OrderInv tf (s,D) f) (hb : Batch s task news)
    (hok : Orderly tf (s,D) (.precede task news fuel)) (hv : precede fuel s task news = some v) :
    ∃ f', OrderInv tf (v,declares (.precede task news fuel) ++ D) f' := by
  rw [Taskflow.precede] at hv
  split at hv
  next hnil =>
    cases hv
    subst hnil
    exact ⟨f,h⟩
  next hne =>
    have hE : ∀ d ∈ declares (.precede task news fuel),
        ∃ n ∈ news, d = (n,task) ∨ d = (task,n) := by
      intro d hd
      obtain ⟨n,hn,rfl⟩ := List.mem_map.mp hd
      exact ⟨n,hn,.inl rfl⟩
    rw [h.1.1.taskflow task hb.1] at hv
    obtain ⟨u,m,hv,hmain,hroom,hn,hr,hD,hrest⟩ := h.taken hb hne hok hE hv
    obtain ⟨q,f',l,hbef,hl,rfl,hq⟩ := addBefore_placed hr (Flow.mem_tasks.mpr (.inl hmain)) hv
    have hn' := hn.placed hbef.placed hq (k:=news.length) (l:=l)
    refine ⟨f',⟨hn',by rwa [placed_links hq]⟩,?_⟩
    exact (hbef.ordered_iff hmain hn'.tasks_nodup hD hrest).mpr hroom

theorem OrderInv.succeed (h : OrderInv tf (s,D) f) (hb : Batch s task news)
    (hok : Orderly tf (s,D) (.succeed task news fuel)) (hv : succeed fuel s task news = some v) :
    ∃ f', OrderInv tf (v,declares (.succeed task news fuel) ++ D) f' := by
  rw [Taskflow.succeed] at hv
  split at hv
  next hnil =>
    cases hv
    subst hnil
    exact ⟨f,h⟩
  next hne =>
    have hE : ∀ d ∈ declares (.succeed task news fuel),
        ∃ n ∈ news, d = (n,task) ∨ d = (task,n) := by
      intro d hd
      obtain ⟨n,hn,rfl⟩ := List.mem_map.mp hd
      exact ⟨n,hn,.inr rfl⟩
    rw [h.1.1.taskflow task hb.1] at hv
    obtain ⟨u,m,hv,hmain,hroom,hn,hr,hD,hrest⟩ := h.taken hb hne hok hE hv
    obtain ⟨q,f',l,haft,hl,rfl,hq⟩ := addAfter_placed hr (Flow.mem_tasks.mpr (.inl hmain)) hv
    have hn' := hn.placed haft.placed hq (k:=news.length) (l:=l)
    refine ⟨f',⟨hn',by rwa [placed_links hq]⟩,?_⟩
    exact (haft.ordered_iff hmain hn'.tasks_nodup hD hrest).mpr hroom

theorem OrderInv.step {x y : State × Declared} {op : Op} (h : OrderInv tf x f)
    (hok : Orderly tf x op) (hst : stepDeclared tf x op = some y) : ∃ f', OrderInv tf y f' := by
  obtain ⟨s,D⟩ := x
  obtain ⟨v,hv,rfl⟩ := Option.map_eq_some_iff.mp hst
  cases op with
  | create new =>
    simp only [Taskflow.step] at hv
    split at hv
    next hfresh =>
      cases hv
      cases new with
      | none => exact ⟨f,h⟩
      | some new => exact ⟨_,h.taskCreate (hfresh new rfl)⟩
    next => cases hv
  | subCreate task new =>
    simp only [Taskflow.step] at hv
    split at hv
    next hg =>
      cases new with
      | none => cases hv
      | some new => exact h.subTaskCreate hg.1 (hg.2 new rfl) hv
    next => cases hv
  | precede task news fuel =>
    simp only [Taskflow.step] at hv
    split at hv
    next hb => exact h.precede hb hok hv
    next => cases hv
  | succeed task news fuel =>
    simp only [Taskflow.step] at hv
    split at hv
    next hb => exact h.succeed hb hok hv
    next => cases hv

end Calls

/-- No main task counts less tasks than its group has. -/
def Counted (tf : TaskflowPtr) (s : State) : Prop :=
  ∀ f ∈ groupsOf s tf.addr, ∀ p ∈ f, 1+p.2.length ≤ (s.task p.1).nrSubTask.toNat

instance (tf : TaskflowPtr) (s : State) : Decidable (Counted tf s) :=
  inferInstanceAs (Decidable (∀ f ∈ groupsOf s tf.addr, ∀ p ∈ f,
    1+p.2.length ≤ (s.task p.1).nrSubTask.toNat))

/-- The taskflow with the counters that its groups should have. -/
def recount (st : State) (f : Flow) : State :=
  { st with task := fun t => match f.lookup t with
    | some ss => { st.task t with nrSubTask := BitVec.ofNat 64 (1+ss.length) }
    | none => st.task t }

section Recount


variable {W : Type} [DecidableEq W] {st : State} {tf : BitVec 64} {f f₁ f₂ : Flow}
  {r r' u : Await W} {t m : Address}

theorem lookup_eq {ss : List Address} (hnd : f.tasks.Nodup) (hp : (m,ss) ∈ f) :
    f.lookup m = some ss := by
  induction f with
  | nil => cases hp
  | cons q f ih =>
    obtain ⟨c,cs⟩ := q
    by_cases hmc : m = c
    · obtain ⟨_,rfl⟩ := Prod.mk.inj (Flow.eq_of_mem (t:=m) hnd hp List.mem_cons_self (by simp)
        (by simp [hmc]))
      simp [hmc]
    · have hp' : (m,ss) ∈ f := by
        refine (List.mem_cons.mp hp).resolve_left fun he => hmc ?_
        exact (Prod.mk.inj he).1
      rw [List.lookup_cons,beq_false_of_ne hmc]
      exact ih (List.nodup_append.mp hnd).2.1 hp'

@[simp] theorem recount_links : (recount st f).links = st.links := rfl

@[simp] theorem recount_isSubTaskParent :
    ((recount st f).task t).isSubTaskParent = (st.task t).isSubTaskParent := by
  simp only [recount]
  split <;> rfl

theorem recount_nrSubTask {ss : List Address} (hnd : f.tasks.Nodup) (hp : (m,ss) ∈ f) :
    ((recount st f).task m).nrSubTask = BitVec.ofNat 64 (1+ss.length) := by
  simp only [recount,lookup_eq hnd hp]

/-- A run of `mthpc_taskflow_await` with the counters as they are, and one with those they should
have, in which nothing is awaited twice. -/
structure Mirrors (st : State) (tf : BitVec 64) (r r' : Await W) : Prop where
  queued : r'.queued = r.queued
  worker : r'.worker = r.worker
  log : r'.log = r.log
  cnt : ∀ x, (r'.completion x).cnt = (r.completion x).cnt
  pc : match r.pc with
    | .schedule m | .sub m _ _ | .wait m _ =>
      r'.pc = r.pc ∧ (r.completion tf).nr = (st.task m).nrSubTask
    | .compare m k v => r'.pc = .wait m k ∧ (r.completion tf).nr = (st.task m).nrSubTask ∧
      v.toNat ≤ (r.completion tf).cnt.toNat
    | _ => r'.pc = r.pc

theorem AwaitInv.waiting {W : Type} {tf : BitVec 64} {f f₁ f₂ : Flow} {r' : Await W} {m : Address}
    {hs : List Address} {k : BitVec 64} (hi : AwaitInv tf f f₁ f₂ hs r') (hp : r'.pc = .wait m k) :
    ∃ ss, (m,ss) ∈ f ∧ groupOf r'.log = some m ∧
      (r'.completion tf).nr = BitVec.ofNat 64 (1+ss.length) := by
  have hok := hi.await
  simp only [AwaitOk,hp] at hok
  obtain ⟨hg,ss,f₃,rfl,_,_,hnr⟩ := hok
  exact ⟨ss,by simp [hi.split],hg,hnr⟩

theorem AwaitInv.cnt_le {W : Type} {tf : BitVec 64} {f f₁ f₂ : Flow} {r' : Await W} {m : Address}
    {hs ss : List Address} (hi : AwaitInv tf f f₁ f₂ hs r')
    (hnd : f.tasks.Nodup) (hmem : (m,ss) ∈ f) (hg : groupOf r'.log = some m) :
    (r'.completion tf).cnt.toNat ≤ 1+ss.length := by
  have hl := Address.length_lt hnd
  have hs' : ss.length < f.tasks.length := Flow.length_subs_lt hmem
  have hle : (m::ss).countP (fun t => Finished r'.log t) ≤ (m::ss).length :=
    List.countP_le_length
  have hcnt : (r'.completion tf).cnt =
    BitVec.ofNat 64 ((m::ss).countP fun t => Finished r'.log t) := hi.log.cnt (m,ss) hmem hg
  rw [List.length_cons] at hle
  rw [hcnt,BitVec.toNat_ofNat,Nat.mod_eq_of_lt (by omega)]
  omega

theorem AwaitInv.cnt_succ {W : Type} {tf : BitVec 64} {f f₁ f₂ : Flow} {r' : Await W} {t : Address}
    {hs : List Address} {w : W} {x : BitVec 64}
    (hi : AwaitInv tf f f₁ f₂ hs r') (hnd : f.tasks.Nodup) (hw : r'.worker w = .complete t x) :
    x = tf ∧ ((r'.completion tf).cnt+1).toNat = (r'.completion tf).cnt.toNat+1 := by
  have hok := hi.jobs.worker w
  rw [WorkerOk,hw] at hok
  obtain ⟨rfl,ht,hhist⟩ := hok
  obtain ⟨m,ss,f₃,_,hg,htm,hsplit⟩ := hi.group ht
  have hmem : (m,ss) ∈ f := by simp [hsplit]
  have hl := Address.length_lt hnd
  have hs' : ss.length < f.tasks.length := Flow.length_subs_lt hmem
  have hle : (m::ss).countP (fun t => Finished r'.log t) ≤ (m::ss).length :=
    List.countP_le_length
  have hne : (m::ss).countP (fun t => Finished r'.log t) ≠ (m::ss).length := by
    intro h
    have hall := List.countP_eq_length.mp h t htm
    simp [Finished,hhist] at hall
  have hcnt : (r'.completion x).cnt =
    BitVec.ofNat 64 ((m::ss).countP fun t => Finished r'.log t) := hi.log.cnt (m,ss) hmem hg
  rw [List.length_cons] at hle hne
  have h1 : (1 : BitVec 64).toNat = 1 := rfl
  refine ⟨rfl,?_⟩
  rw [hcnt,BitVec.toNat_add,h1,BitVec.toNat_ofNat,Nat.mod_eq_of_lt (a:=List.countP _ _) (by omega),
    Nat.mod_eq_of_lt (by omega)]

theorem Mirrors.one {st' : State} {u' : Await W} (hst : awaitStep st' tf r' = some u') :
    Reach (stepAwait st' tf) Anything r' u' :=
  .tail (a:=.await) .refl trivial hst

theorem Mirrors.await {hs : List Address} (h : Mirrors st tf r r')
    (hi : AwaitInv tf f f₁ f₂ hs r') (hf : Grouped (recount st f) tf f)
    (hc : ∀ p ∈ f, 1+p.2.length ≤ (st.task p.1).nrSubTask.toNat)
    (hst : awaitStep st tf r = some u) :
    ∃ u', Reach (stepAwait (recount st f) tf) Anything r' u' ∧ Mirrors st tf u u' := by
  have hpc := h.pc
  cases hp : r.pc with
  | main pos =>
    simp only [hp] at hpc
    simp only [awaitStep,hp] at hst
    split at hst
    next hpos =>
      cases hst
      have hst' : awaitStep (recount st f) tf r' = some { r' with
          pc := .done
          warned := if r'.nrCompleted ≠ st.nrTask tf then .task::r'.warned else r'.warned } := by
        simp only [awaitStep,hpc,if_pos hpos]
        rfl
      exact ⟨_,Mirrors.one hst',h.queued,h.worker,h.log,h.cnt,rfl⟩
    next hpos =>
      obtain ⟨m,hm,rfl⟩ := Option.map_eq_some_iff.mp hst
      have hst' : awaitStep (recount st f) tf r' = some { r' with pc := .initCnt m } := by
        simp only [awaitStep,hpc,if_neg hpos,hm,Option.map_some]
      exact ⟨_,Mirrors.one hst',h.queued,h.worker,h.log,h.cnt,rfl⟩
  | initCnt m =>
    simp only [hp] at hpc
    simp only [awaitStep,hp] at hst
    cases hst
    have hst' : awaitStep (recount st f) tf r' = some { r' with
        completion := Function.update r'.completion tf { r'.completion tf with cnt := 0 }
        pc := .initNr m
        log := .group m::r'.log } := by
      simp only [awaitStep,hpc]
    refine ⟨_,Mirrors.one hst',h.queued,h.worker,congrArg (List.cons _) h.log,fun x => ?_,rfl⟩
    have hx := h.cnt x
    by_cases hxt : x = tf <;> simp [hxt,hx]
  | initNr m =>
    simp only [hp] at hpc
    simp only [awaitStep,hp] at hst
    cases hst
    have hst' : awaitStep (recount st f) tf r' = some { r' with
        completion := Function.update r'.completion tf
          { r'.completion tf with nr := ((recount st f).task m).nrSubTask }
        pc := .schedule m } := by
      simp only [awaitStep,hpc]
    refine ⟨_,Mirrors.one hst',h.queued,h.worker,h.log,fun x => ?_,rfl,by simp⟩
    have hx := h.cnt x
    by_cases hxt : x = tf
    · subst hxt
      simp [hx]
    · simp [hxt,hx]
  | schedule m =>
    simp only [hp] at hpc
    simp only [awaitStep,hp] at hst
    cases hst
    have hst' : awaitStep (recount st f) tf r' = some { r' with
        queued := m::r'.queued
        pc := .sub m (st.links.next (subTaskListHead m)) 1 } := by
      simp only [awaitStep,hpc.1,recount_links]
    exact ⟨_,Mirrors.one hst',congrArg (List.cons _) h.queued,h.worker,h.log,h.cnt,rfl,hpc.2⟩
  | sub m pos k =>
    simp only [hp] at hpc
    simp only [awaitStep,hp] at hst
    split at hst
    next hpos =>
      cases hst
      have hst' : awaitStep (recount st f) tf r' = some { r' with pc := .wait m k } := by
        simp only [awaitStep,hpc.1,if_pos hpos]
      exact ⟨_,Mirrors.one hst',h.queued,h.worker,h.log,h.cnt,rfl,hpc.2⟩
    next hpos =>
      obtain ⟨t,ht,rfl⟩ := Option.map_eq_some_iff.mp hst
      have hst' : awaitStep (recount st f) tf r' = some { r' with
          queued := t::r'.queued
          pc := .sub m (st.links.next (subTaskListHead t)) (k+1) } := by
        simp only [awaitStep,hpc.1,if_neg hpos,ht,Option.map_some,recount_links]
      exact ⟨_,Mirrors.one hst',congrArg (List.cons _) h.queued,h.worker,h.log,h.cnt,rfl,hpc.2⟩
  | wait m k =>
    simp only [hp] at hpc
    simp only [awaitStep,hp] at hst
    cases hst
    exact ⟨r',.refl,h.queued,h.worker,h.log,h.cnt,hpc.1,hpc.2,le_refl _⟩
  | compare m k v =>
    simp only [hp] at hpc
    simp only [awaitStep,hp] at hst
    obtain ⟨hpc',hnr,hv⟩ := hpc
    split at hst
    next hne =>
      cases hst
      exact ⟨r',.refl,h.queued,h.worker,h.log,h.cnt,hpc',hnr⟩
    next heq =>
      cases hst
      obtain ⟨ss,hmem,hg,hnr'⟩ := hi.waiting hpc'
      have hlt : 1+ss.length < 2^64 := by
        have hl := Address.length_lt hf.nodup
        have hs' := Flow.length_subs_lt hmem
        simp only at hs'
        omega
      -- the value that was loaded is neither above the count nor below the size of the group
      have hcnt : (r'.completion tf).cnt = (r'.completion tf).nr := by
        have hle := hi.cnt_le hf.nodup hmem hg
        have hge := hc (m,ss) hmem
        simp only at hge
        rw [← hnr,← not_not.mp heq] at hge
        rw [← h.cnt tf] at hv
        refine BitVec.eq_of_toNat_eq ?_
        rw [hnr',BitVec.toNat_ofNat,Nat.mod_eq_of_lt hlt]
        omega
      have hst₁ : awaitStep (recount st f) tf r' = some { r' with
          pc := .compare m k (r'.completion tf).cnt } := by
        simp only [awaitStep,hpc']
      have hst₂ : awaitStep (recount st f) tf { r' with
          pc := .compare m k (r'.completion tf).cnt } = some { r' with
          pc := .main (st.links.next (listNode m))
          nrCompleted := r'.nrCompleted+k
          warned := if k ≠ ((recount st f).task m).nrSubTask then .subTask m::r'.warned
            else r'.warned } := by
        simp only [awaitStep,if_neg (not_not.mpr hcnt),recount_links]
      exact ⟨_,(Mirrors.one hst₁).trans (Mirrors.one hst₂),h.queued,h.worker,h.log,h.cnt,rfl⟩
  | done => simp [awaitStep,hp] at hst

theorem Mirrors.worker_step {hs : List Address} {a : AwaitAct W} (h : Mirrors st tf r r')
    (hi : AwaitInv tf f f₁ f₂ hs r') (hf : Grouped (recount st f) tf f)
    (hst : workerStep st r a = some u) :
    ∃ u', workerStep (recount st f) r' a = some u' ∧ Mirrors st tf u u' := by
  cases a with
  | await => cases hst
  | start w t =>
    obtain ⟨⟨hw,hq⟩,rfl⟩ := guarded_eq_some.mp hst
    refine ⟨_,guarded_eq_some.mpr ⟨⟨?_,?_⟩,rfl⟩,?_,?_,congrArg (List.cons _) h.log,h.cnt,h.pc⟩
    · rw [h.worker,hw]
    · rw [h.queued]
      exact hq
    · exact congrArg (fun q => q.erase t) h.queued
    · simp only [h.worker,recount_isSubTaskParent]
  | ret w =>
    simp only [workerStep] at hst
    split at hst
    next t x hw =>
      cases hst
      have hw' : r'.worker w = .func t x := by rw [h.worker,hw]
      refine ⟨{ r' with
        worker := Function.update r'.worker w (.complete t x)
        log := .task t .ret::r'.log },by simp only [workerStep,hw'],h.queued,?_,
        congrArg (List.cons _) h.log,h.cnt,h.pc⟩
      simp only [h.worker]
    · cases hst
  | complete w =>
    simp only [workerStep] at hst
    split at hst
    next t x hw =>
      cases hst
      have hw' : r'.worker w = .complete t x := by rw [h.worker,hw]
      refine ⟨{ r' with
        completion := Function.update r'.completion x
          { r'.completion x with cnt := (r'.completion x).cnt+1 }
        worker := Function.update r'.worker w .idle
        log := .task t .complete::r'.log },by simp only [workerStep,hw'],h.queued,?_,
        congrArg (List.cons _) h.log,fun y => ?_,?_⟩
      · simp only [h.worker]
      · have hy := h.cnt y
        by_cases hyx : y = x
        · subst hyx
          simp [hy]
        · simp [hyx,hy]
      · obtain ⟨rfl,hcnt⟩ := hi.cnt_succ hf.nodup hw'
        have hpc := h.pc
        simp only
        cases hp : r.pc with
        | compare m k v =>
          simp only [hp] at hpc ⊢
          simp only [Function.update_self]
          rw [h.cnt] at hcnt
          exact ⟨hpc.1,hpc.2.1,by omega⟩
        | _ =>
          simp only [hp] at hpc ⊢
          simpa using hpc
    · cases hst

def InOrder (f : Flow) (log : List Event) : Prop :=
  ∀ es t, .task t .start::es <:+ log → ∀ a, f.Lt a t → Finished es a

theorem InOrder.cons {e : Event} {log : List Event} (h : InOrder f log)
    (he : ∀ t, e ≠ .task t .start) : InOrder f (e::log) := by
  intro es t hes a ha
  rcases suffix_task hes with ⟨hs,_⟩ | hes
  · exact absurd hs (he t)
  · exact h es t hes a ha

theorem InOrder.start {W : Type} {tf : BitVec 64} {f f₁ f₂ : Flow} {r' : Await W} {t : Address}
    {hs : List Address} (h : InOrder f r'.log) (hi : AwaitInv tf f f₁ f₂ hs r')
    (hnd : f.tasks.Nodup) (ht : t ∈ r'.queued) : InOrder f (.task t .start::r'.log) := by
  intro es c hes a ha
  rcases suffix_task hes with ⟨hs,rfl⟩ | hes
  · cases hs
    obtain ⟨m,ss,f₃,_,_,htm,rfl⟩ := hi.group (hi.jobs.queued t ht).1
    exact hi.jobs.finished a ((Flow.lt_group hnd htm).mp ha)
  · exact h es c hes a ha

theorem InOrder.await {W : Type} {st : State} {tf : BitVec 64} {f : Flow} {r u : Await W}
    (h : InOrder f r.log) (hst : awaitStep st tf r = some u) : InOrder f u.log := by
  cases hp : r.pc with
  | main pos =>
    simp only [awaitStep,hp] at hst
    split at hst
    · cases hst
      exact h
    · obtain ⟨m,_,rfl⟩ := Option.map_eq_some_iff.mp hst
      exact h
  | sub m pos k =>
    simp only [awaitStep,hp] at hst
    split at hst
    · cases hst
      exact h
    · obtain ⟨t,_,rfl⟩ := Option.map_eq_some_iff.mp hst
      exact h
  | compare m k v =>
    simp only [awaitStep,hp] at hst
    split at hst
    · cases hst
      exact h
    · cases hst
      exact h
  | initCnt m =>
    simp only [awaitStep,hp] at hst
    cases hst
    exact h.cons fun t => by simp
  | initNr m | schedule m | wait m k =>
    simp only [awaitStep,hp] at hst
    cases hst
    exact h
  | done => simp [awaitStep,hp] at hst

theorem InOrder.worker {hs : List Address} {a : AwaitAct W} (h : InOrder f r.log)
    (hm : Mirrors st tf r r') (hi : AwaitInv tf f f₁ f₂ hs r') (hnd : f.tasks.Nodup)
    (hst : workerStep st r a = some u) : InOrder f u.log := by
  cases a with
  | await => cases hst
  | start w t =>
    obtain ⟨⟨_,hq⟩,rfl⟩ := guarded_eq_some.mp hst
    rw [← hm.log] at h
    rw [← hm.queued] at hq
    show InOrder f (.task t .start::r.log)
    rw [← hm.log]
    exact h.start hi hnd hq
  | ret w | complete w =>
    simp only [workerStep] at hst
    split at hst
    · cases hst
      exact h.cons fun t => by simp
    · cases hst

/-- A taskflow whose counters are large enough is awaited in the order of its groups. -/
theorem inOrder_of_reach (completion : BitVec 64 → Completion) (hf : Grouped (recount st f) tf f)
    (hc : ∀ p ∈ f, 1+p.2.length ≤ (st.task p.1).nrSubTask.toNat)
    (hr : Reach (stepAwait st tf) Anything (beginAwait st tf completion) r) : InOrder f r.log := by
  have hi : InOrder f r.log ∧ ∃ r', Mirrors st tf r r' ∧ ∃ f₁ f₂ hs, AwaitInv tf f f₁ f₂ hs r' := by
    refine hr.invariant (I:=fun r => InOrder f r.log ∧ ∃ r', Mirrors st tf r r' ∧
      ∃ f₁ f₂ hs, AwaitInv tf f f₁ f₂ hs r') ?_ ?_
    · refine ⟨by simp [InOrder,beginAwait],beginAwait (recount st f) tf completion,
        ⟨rfl,rfl,rfl,fun _ => rfl,rfl⟩,_,_,_,.begin hf completion⟩
    · rintro r a u ⟨ho,r',hm,f₁,f₂,hs,hi⟩ _ hst
      have hwork : workerStep st r a = some u → InOrder f u.log ∧ ∃ r', Mirrors st tf u r' ∧
          ∃ f₁ f₂ hs, AwaitInv tf f f₁ f₂ hs r' := by
        intro hst
        obtain ⟨u',hst',hm'⟩ := hm.worker_step hi hf hst
        have hst₁ : stepAwait (recount st f) tf r' a = some u' := by
          cases a with
          | await => cases hst
          | _ => exact hst'
        exact ⟨ho.worker hm hi hf.nodup hst,u',hm',hi.step hf hst₁⟩
      cases a with
      | await =>
        obtain ⟨u',hr',hm'⟩ := hm.await hi hf hc hst
        refine ⟨ho.await hst,u',hm',?_⟩
        have hinv : ∀ (t : Await W) (a : AwaitAct W) (u : Await W),
            (∃ f₁ f₂ hs, AwaitInv tf f f₁ f₂ hs t) → Anything t a →
            stepAwait (recount st f) tf t a = some u → ∃ f₁ f₂ hs, AwaitInv tf f f₁ f₂ hs u := by
          rintro t a u ⟨_,_,_,hi⟩ _ hst
          exact hi.step hf hst
        exact hr'.invariant (I:=fun x => ∃ f₁ f₂ hs, AwaitInv tf f f₁ f₂ hs x)
          ⟨f₁,f₂,hs,hi⟩ hinv
      | _ => exact hwork hst
  exact hi.1

end Recount

theorem WellFormed.grouped {tf : TaskflowPtr} {s : State} {f : Flow} (h : WellFormed tf s f) :
    Grouped (recount s f) tf.addr f := by
  refine ⟨(rings_cons.mp h.2).1,fun p hp => ?_,h.1.tasks_nodup,fun t ht => ?_,fun p hp =>
    recount_nrSubTask h.1.tasks_nodup hp⟩
  · obtain ⟨f₁,f₂,rfl⟩ := List.append_of_mem hp
    have hr := h.2
    rw [rings_group] at hr
    exact (rings_cons.mp hr).1
  · rw [recount_isSubTaskParent]
    exact h.1.taskflow t (h.mem_tasks.mp ht)

/-- As long as every batch finds room, the declared order is the order of execution. -/
theorem declared_of_orderly {W : Type} [DecidableEq W] {tf : TaskflowPtr} {links : Links Node}
    {task : Address → Task} {nrTask : BitVec 64 → BitVec 64} {s : State} {D : Declared}
    {r : Await W} (completion : BitVec 64 → Completion)
    (h : Reach (stepDeclared tf) (Orderly tf) (taskflowCreate tf links task nrTask,[]) (s,D))
    (hc : Counted tf s)
    (hr : Reach (stepAwait s tf.addr) Anything (beginAwait s tf.addr completion) r) :
    ∀ d ∈ D, ∀ es, .task d.2 .start::es <:+ r.log → Finished es d.1 := by
  obtain ⟨f,hwf,hord⟩ : ∃ f, OrderInv tf (s,D) f := by
    refine h.invariant (I:=fun x => ∃ f, OrderInv tf x f) ⟨[],.init links task nrTask,?_⟩ ?_
    · exact fun d hd => absurd hd List.not_mem_nil
    · rintro _ _ _ ⟨_,hi⟩ hok hst
      exact hi.step hok hst
  intro d hd es hes
  have hin := inOrder_of_reach completion hwf.grouped (hc f hwf.groupsOf) hr
  exact hin es d.2 hes d.1 (hord d hd)

/-- A batch joins the group before the one of its task, and the pair is kept. -/
theorem declared_of_joined : ∃ (s : State) (r : Await Unit),
    Reach (stepDeclared flowPtr) (Orderly flowPtr) (emptyFlow,[]) (s,[(taskC,taskB)]) ∧
    Reach (stepAwait s flowPtr.addr) Anything (beginAwait s flowPtr.addr fun _ => ⟨7,3⟩) r ∧
    .task taskB .start ∈ r.log ∧
    ∀ es, .task taskB .start::es <:+ r.log → Finished es taskC := by
  have hs : ∃ s, exec (restrict (stepDeclared flowPtr) (Orderly flowPtr)) (emptyFlow,[])
      [.create (some taskA),.create (some taskB),.create (some taskC),.precede taskB [taskC] 9] =
        some (s,[(taskC,taskB)]) ∧ Counted flowPtr s ∧
      ∃ r : Await Unit, exec (stepAwait s flowPtr.addr)
        (beginAwait s flowPtr.addr fun _ => ⟨7,3⟩) [.await,.await,.await,.await,.await,.await,
          .start () taskC,.ret (),.complete (),.start () taskA,.ret (),.complete (),.await,.await,
          .await,.await,.await,.await,.start () taskB] = some r ∧
        .task taskB .start ∈ r.log := by
    refine ⟨_,rfl,by decide,_,rfl,by decide⟩
  obtain ⟨s,hs,hc,r,hr,hlog⟩ := hs
  have hreach := reach_of_exec_restrict hs
  refine ⟨s,r,hreach,reach_of_exec hr,hlog,?_⟩
  exact declared_of_orderly _ hreach hc (reach_of_exec hr) (taskC,taskB) (by simp)

/-- Task `C` is declared before `B`, and then, to go after `A`, it is moved to the group of `B`. -/
theorem declared_fails : ¬ ∀ (tf : TaskflowPtr) (links : Links Node) (task : Address → Task)
    (nrTask : BitVec 64 → BitVec 64) (s : State) (D : Declared),
    Reach (stepDeclared tf) Anything (taskflowCreate tf links task nrTask,[]) (s,D) →
    (∀ a, ¬ Relation.TransGen (fun a b => (a,b) ∈ D) a a) →
    ∀ (completion : BitVec 64 → Completion) (r : Await Unit),
    Reach (stepAwait s tf.addr) Anything (beginAwait s tf.addr completion) r →
    ∀ d ∈ D, ∀ es, .task d.2 .start::es <:+ r.log → Finished es d.1 := by
  intro h
  have hs : ∃ s, exec (stepDeclared flowPtr) (emptyFlow,[])
      [.create (some taskA),.create (some taskB),.create (some taskC),.precede taskB [taskC] 9,
        .succeed taskA [taskC] 9] = some (s,[(taskA,taskC),(taskC,taskB)]) ∧
      ∃ (r : Await Unit) (es : List Event), exec (stepAwait s flowPtr.addr)
        (beginAwait s flowPtr.addr fun _ => ⟨7,3⟩) [.await,.await,.await,.await,.await,
          .start () taskA,.ret (),.complete (),.await,.await,.await,.await,.await,.await,
          .start () taskB] = some r ∧ r.log = .task taskB .start::es ∧ ¬ Finished es taskC := by
    refine ⟨_,rfl,_,_,rfl,rfl,by decide⟩
  obtain ⟨s,hs,r,es,hr,hlog,hnot⟩ := hs
  have hacyclic : ∀ a, ¬ Relation.TransGen
      (fun a b => (a,b) ∈ [(taskA,taskC),(taskC,taskB)]) a a := by
    refine no_cycle_of_rank (fun t => if t = taskA then 2 else if t = taskC then 1 else 0) ?_
    intro a b hab
    simp only [List.mem_cons,List.not_mem_nil,or_false,Prod.mk.injEq] at hab
    rcases hab with ⟨rfl,rfl⟩ | ⟨rfl,rfl⟩ <;> decide
  refine hnot (h _ _ _ _ s _ (reach_of_exec hs) hacyclic _ r (reach_of_exec hr) (taskC,taskB)
    (by simp) es ?_)
  rw [hlog]

end Taskflow
end Mthpc
