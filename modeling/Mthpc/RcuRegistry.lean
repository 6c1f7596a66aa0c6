import Mthpc.Address
import Mthpc.PointerList
import Mthpc.StepSystem

/-!
# The reader nodes of an rcu_data

`mthpc_rcu_add` and `mthpc_rcu_del` of `src/rcu/rcu.c` on one `mthpc_rcu_data`, with their two
kinds of callers: threads by `mthpc_rcu_thread_init` and `mthpc_rcu_thread_exit`, and the
safe_ptrs attached to a control block. The body under `data->lock` is one step.
-/
namespace Mthpc
namespace RcuRegistry

open StepSystem

/-- `struct mthpc_rcu_node` without its link. -/
structure Node where
  id : BitVec 64
  gpSeq : BitVec 64
  deriving DecidableEq

/-- Who calls: threads check their own node pointer, safe_ptrs are attached once and detached
once by their owners. -/
inductive Kind
  | thread | safePtr
  deriving DecidableEq

/-- The parameter `id` of both functions is an `unsigned int`. -/
def uint (id : BitVec 64) : BitVec 32 := id.setWidth 32

/-- Where a holder stands in its call. -/
inductive Pc
  | idle
  | malloc | add (node : Address) | found (node : Address) (loc : Loc Address)
  | assign (node : Address)
  | del | free (target : Address)
  deriving DecidableEq

/-- The holders `H`. `ptr` is `mthpc_rcu_node_ptr` or `sp->rcu_node`; `given` is a ghost: the
node of the list that stands for the holder since its critical section in `mthpc_rcu_add`. -/
structure State (H : Type) where
  cells : Cells Address
  node : Address → Node
  allocated : Finset Address
  ptr : H → Option Address
  pc : H → Pc
  given : H → Option Address

/-- The parameters: what is attached, and the ids, `pthread_self()` or `sp->id`. -/
structure Config (H : Type) where
  kind : Kind
  id : H → BitVec 64

inductive Act (H : Type)
  | init (h : H) | malloc (h : H) (node : Option Address) | add (h : H) (node : Address) (fuel : ℕ)
  | found (h : H) (node : Address) (loc : Loc Address) | assign (h : H) (node : Address)
  | exit (h : H) | del (h : H) (fuel : ℕ) | free (h : H) (target : Address)

variable {H : Type} [DecidableEq H]

/-- Whether a call of `mthpc_rcu_thread_init` goes on to `mthpc_rcu_add`, or the owner of a
safe_ptr may attach it. -/
def Enters (c : Config H) (s : State H) (h : H) : Prop :=
  match c.kind with
  | .thread => s.ptr h = none
  | .safePtr => s.given h = none

/-- Whether a call of `mthpc_rcu_thread_exit` goes on to `mthpc_rcu_del`. The release of a
safe_ptr always does, also where it could not be attached for want of memory. -/
def Leaves (c : Config H) (s : State H) (h : H) : Prop :=
  match c.kind with
  | .thread => s.ptr h ≠ none
  | .safePtr => True

instance (c : Config H) (s : State H) (h : H) : Decidable (Enters c s h) := by
  unfold Enters; cases c.kind <;> infer_instance

instance (c : Config H) (s : State H) (h : H) : Decidable (Leaves c s h) := by
  unfold Leaves; cases c.kind <;> infer_instance

/-- The loop of both functions: the address of the pointer to the first node with the id. -/
def findId (s : State H) (fuel : ℕ) (id : BitVec 32) : Option (Loc Address) :=
  s.cells.find (fun n => decide (n ∈ s.allocated)) (fun n => (s.node n).id = id.setWidth 64) fuel
    .head

/-- The critical section of `mthpc_rcu_add`. -/
def addLocked (c : Config H) (s : State H) (h : H) (node : Address) (fuel : ℕ) :
    Option (State H) :=
  (findId s fuel (uint (c.id h))).map fun loc =>
    match s.cells.read loc with
    | some n => { s with
        pc := Function.update s.pc h (.found node loc)
        given := Function.update s.given h (some n) }
    | none => { s with
        cells := s.cells.write loc (some node)
        pc := Function.update s.pc h (.assign node)
        given := Function.update s.given h (some node) }

/-- The critical section of `mthpc_rcu_del`; without a target there is only a warning. -/
def delLocked (c : Config H) (s : State H) (h : H) (fuel : ℕ) : Option (State H) :=
  (findId s fuel (uint (c.id h))).map fun loc =>
    match s.cells.read loc with
    | some n => { s with
        cells := s.cells.write loc (s.cells.next n)
        pc := Function.update s.pc h (.free n)
        given := Function.update s.given h none }
    | none => { s with
        ptr := if c.kind = .thread then Function.update s.ptr h none else s.ptr
        pc := Function.update s.pc h .idle
        given := Function.update s.given h none }

/-- One step of a holder. `malloc` gives any block that is not allocated, or none. -/
def step (c : Config H) (s : State H) : Act H → Option (State H)
  | .init h => guarded (s.pc h = .idle ∧ Enters c s h)
      { s with pc := Function.update s.pc h .malloc }
  | .malloc h none => guarded (s.pc h = .malloc) { s with pc := Function.update s.pc h .idle }
  | .malloc h (some n) => guarded (s.pc h = .malloc ∧ n ∉ s.allocated)
      { s with
        cells := s.cells.write (.next n) none
        node := Function.update s.node n ⟨(uint (c.id h)).setWidth 64,0⟩
        allocated := insert n s.allocated
        pc := Function.update s.pc h (.add n) }
  | .add h n fuel => if s.pc h = .add n then addLocked c s h n fuel else none
  | .found h n loc => guarded (s.pc h = .found n loc)
      { s with
        allocated := s.allocated.erase n
        ptr := Function.update s.ptr h (s.cells.read loc)
        pc := Function.update s.pc h .idle }
  | .assign h n => guarded (s.pc h = .assign n)
      { s with
        ptr := Function.update s.ptr h (some n)
        pc := Function.update s.pc h .idle }
  | .exit h => guarded (s.pc h = .idle ∧ Leaves c s h)
      { s with pc := Function.update s.pc h .del }
  | .del h fuel => if s.pc h = .del then delLocked c s h fuel else none
  | .free h n => guarded (s.pc h = .free n)
      { s with
        allocated := s.allocated.erase n
        ptr := if c.kind = .thread then Function.update s.ptr h none else s.ptr
        pc := Function.update s.pc h .idle }

/-- No reader yet. Threads start with a null node pointer, safe_ptrs with an arbitrary one, and
other blocks may be allocated. -/
def init (c : Config H) (next : Address → Option Address) (node : Address → Node)
    (allocated : Finset Address) (ptr : H → Option Address) : State H where
  cells := ⟨none,next⟩
  node := node
  allocated := allocated
  ptr := fun h => if c.kind = .thread then none else ptr h
  pc := fun _ => .idle
  given := fun _ => none

/-- No other registered holder has the same id as an `unsigned int`, where a holder that is
not registered is added or removed. -/
def Distinct (c : Config H) (s : State H) : Act H → Prop
  | .add h _ _ | .del h _ =>
    s.given h = none → ∀ g, s.given g ≠ none → uint (c.id g) ≠ uint (c.id h)
  | _ => True

instance [Fintype H] (c : Config H) (s : State H) : ∀ a, Decidable (Distinct c s a)
  | .add h _ _ | .del h _ => inferInstanceAs (Decidable
      (s.given h = none → ∀ g, s.given g ≠ none → uint (c.id g) ≠ uint (c.id h)))
  | .init _ | .malloc _ _ | .found _ _ _ | .assign _ _ | .exit _ | .free _ _ =>
    inferInstanceAs (Decidable True)

/-- The list holds one node per registered holder, and each holder has its own. -/
structure Exact (s : State H) (ns : List Address) : Prop where
  path : s.cells.Path s.cells.head ns
  nodup : ns.Nodup
  allocated : ∀ n ∈ ns, n ∈ s.allocated
  mem : ∀ n, n ∈ ns ↔ ∃ h, s.given h = some n
  own : ∀ g h n, s.given g = some n → s.given h = some n → g = h
  ptr : ∀ h n, s.given h = some n → s.pc h = .idle → s.ptr h = some n

/-- `n` is the node of `h`: on the list, or only in the hands of its call. -/
def Held (s : State H) (h : H) (n : Address) : Prop :=
  s.given h = some n ∨ s.pc h = .add n ∨ s.pc h = .free n

def PcOk (s : State H) (h : H) : Prop :=
  match s.pc h with
  | .idle | .del => ∀ n, s.given h = some n → s.ptr h = some n
  | .malloc | .free _ => s.given h = none
  | .add n => s.given h = none ∧ s.cells.next n = none
  | .found _ _ => False
  | .assign n => s.given h = some n

structure Inv (c : Config H) (s : State H) (ns : List Address) : Prop where
  path : s.cells.Path s.cells.head ns
  nodup : ns.Nodup
  mem : ∀ n, n ∈ ns ↔ ∃ h, s.given h = some n
  allocated : ∀ h n, Held s h n → n ∈ s.allocated
  own : ∀ g h n, Held s g n → Held s h n → g = h
  id : ∀ h n, Held s h n → (s.node n).id = (uint (c.id h)).setWidth 64
  distinct : ∀ g h, s.given g ≠ none → s.given h ≠ none → uint (c.id g) = uint (c.id h) → g = h
  pc : ∀ h, PcOk s h

variable {c : Config H} {s t : State H} {ns : List Address} {a : Act H} {h : H}

theorem Inv.exact {H : Type} {c : Config H} {s : State H} {ns : List Address} (hi : Inv c s ns) :
    Exact s ns := by
  refine ⟨hi.path,hi.nodup,fun n hn => ?_,hi.mem,fun g h n hg hh => ?_,fun h n hg hp => ?_⟩
  · obtain ⟨h,hh⟩ := (hi.mem n).mp hn
    exact hi.allocated h n (.inl hh)
  · exact hi.own g h n (.inl hg) (.inl hh)
  · have hpc := hi.pc h
    rw [PcOk,hp] at hpc
    exact hpc n hg

theorem Inv.init {H : Type} (c : Config H) (next : Address → Option Address) (node : Address → Node)
    (allocated : Finset Address) (ptr : H → Option Address) :
    Inv c (init c next node allocated ptr) [] := by
  refine ⟨rfl,by simp,by simp [RcuRegistry.init],?_,?_,?_,?_,?_⟩ <;>
    simp [RcuRegistry.init,Held,PcOk]

theorem setWidth_inj {x y : BitVec 32} (h : x.setWidth 64 = y.setWidth 64) : x = y := by
  have h' := congrArg (BitVec.setWidth 32) h
  simpa using h'

section

omit [DecidableEq H]

theorem Inv.findId {fuel : ℕ} {loc : Loc Address} (hi : Inv c s ns)
    (hd : s.given h = none → ∀ g, s.given g ≠ none → uint (c.id g) ≠ uint (c.id h))
    (hf : findId s fuel (uint (c.id h)) = some loc) :
    (∃ ys n zs, s.given h = some n ∧ ns = ys ++ n::zs ∧ loc = Cells.locAfter .head ys) ∨
      s.given h = none ∧ loc = Cells.locAfter .head ns := by
  obtain ⟨ys,zs,rfl,rfl,hys,hzs⟩ := Cells.find_eq hi.path hf
  cases zs with
  | nil =>
    right
    refine ⟨?_,by simp⟩
    by_contra hne
    obtain ⟨n,hn⟩ := Option.ne_none_iff_exists'.mp hne
    have hmem : n ∈ ys := by simpa using (hi.mem n).mpr ⟨h,hn⟩
    have hp := hys n hmem
    rw [hi.id h n (.inl hn)] at hp
    simp at hp
  | cons z zs =>
    left
    obtain ⟨g,hg⟩ := (hi.mem z).mp (by simp)
    have hz : (s.node z).id = (uint (c.id h)).setWidth 64 := by simpa using hzs z rfl
    have hids : uint (c.id g) = uint (c.id h) :=
      setWidth_inj ((hi.id g z (.inl hg)).symm.trans hz)
    have hreg : s.given h ≠ none := fun hn => hd hn g (by simp [hg]) hids
    have hgh := hi.distinct g h (by simp [hg]) hreg hids
    exact ⟨ys,z,zs,hgh ▸ hg,rfl,rfl⟩

theorem PcOk.congr (h' : PcOk s h) (hpc : t.pc h = s.pc h) (hptr : t.ptr h = s.ptr h)
    (hgiven : t.given h = s.given h)
    (hnext : ∀ n, s.pc h = .add n → t.cells.next n = s.cells.next n) : PcOk t h := by
  rw [PcOk] at h' ⊢
  rw [hpc,hptr,hgiven]
  cases hp : s.pc h with
  | add n =>
    rw [hp] at h'
    exact ⟨h'.1,(hnext n hp).trans h'.2⟩
  | idle | malloc | found n loc | assign n | del | free n =>
    rw [hp] at h'
    exact h'

theorem Inv.add_notMem (hi : Inv c s ns) {n : Address} (hp : s.pc h = .add n) : n ∉ ns := by
  intro hn
  obtain ⟨g,hg⟩ := (hi.mem n).mp hn
  have hgh := hi.own g h n (.inl hg) (.inr (.inl hp))
  have hpc := hi.pc h
  rw [PcOk,hp] at hpc
  rw [hgh,hpc.1] at hg
  cases hg

end

theorem Inv.next_write {H : Type} {c : Config H} {s : State H} {ns : List Address} {h : H}
    (hi : Inv c s ns) {n : Address} {ys zs : List Address} {v : Option Address}
    (hns : ns = ys ++ zs) (hp : s.pc h = .add n) :
    (s.cells.write (Cells.locAfter .head ys) v).next n = s.cells.next n := by
  refine Cells.next_write_of_ne v ?_
  rcases Cells.locAfter_mem .head ys with ⟨hl,_⟩ | ⟨y,hy,hl⟩
  · simp [hl]
  · rw [hl]
    rintro hyn
    cases hyn
    exact hi.add_notMem hp (by simp [hns,hy])

theorem Inv.move (hi : Inv c s ns) (hcells : t.cells = s.cells) (hnode : t.node = s.node)
    (hgiven : t.given = s.given) (hpc : ∀ g, g ≠ h → t.pc g = s.pc g ∧ t.ptr g = s.ptr g)
    (hheld : ∀ n, Held t h n → Held s h n)
    (halloc : ∀ g n, Held t g n → n ∈ s.allocated → n ∈ t.allocated)
    (hh : PcOk t h) : Inv c t ns := by
  have hheld' : ∀ g n, Held t g n → Held s g n := by
    intro g n hg
    by_cases hgh : g = h
    · subst hgh
      exact hheld n hg
    · rwa [Held,hgiven,(hpc g hgh).1] at hg
  refine ⟨by rw [hcells]; exact hi.path,hi.nodup,by rw [hgiven]; exact hi.mem,
    fun g n hg => halloc g n hg (hi.allocated g n (hheld' g n hg)),?_,?_,?_,?_⟩
  · exact fun g k n hg hk => hi.own g k n (hheld' g n hg) (hheld' k n hk)
  · exact fun g n hg => by rw [hnode]; exact hi.id g n (hheld' g n hg)
  · rw [hgiven]
    exact hi.distinct
  · intro g
    by_cases hgh : g = h
    · subst hgh
      exact hh
    · exact (hi.pc g).congr (hpc g hgh).1 (hpc g hgh).2 (by rw [hgiven]) fun n _ => by rw [hcells]

theorem Inv.malloc {n : Address} (hi : Inv c s ns) (hst : step c s (.malloc h (some n)) = some t) :
    Inv c t ns := by
  obtain ⟨⟨hp,hn⟩,rfl⟩ := guarded_eq_some.mp hst
  have hgiven : s.given h = none := by
    have hpc := hi.pc h
    rwa [PcOk,hp] at hpc
  have hfree : ∀ g, ¬ Held s g n := fun g hg => hn (hi.allocated g n hg)
  have hheld : ∀ g k, Held { s with
      cells := s.cells.write (.next n) none
      node := Function.update s.node n ⟨(uint (c.id h)).setWidth 64,0⟩
      allocated := insert n s.allocated
      pc := Function.update s.pc h (.add n) } g k → g = h ∧ k = n ∨ g ≠ h ∧ Held s g k ∧ k ≠ n := by
    intro g k hg
    by_cases hgh : g = h
    · subst hgh
      left
      simpa [Held,hgiven,eq_comm] using hg
    · right
      have hg' : Held s g k := by simpa [Held,hgh] using hg
      exact ⟨hgh,hg',fun hk => hfree g (hk ▸ hg')⟩
  refine ⟨?_,hi.nodup,hi.mem,fun g k hg => ?_,fun g g' k hg hg' => ?_,fun g k hg => ?_,
    hi.distinct,fun g => ?_⟩
  · refine hi.path.congr fun k hk => ?_
    have hkn : (.next n : Loc Address) ≠ .next k := by
      rintro hkn
      cases hkn
      obtain ⟨g,hg⟩ := (hi.mem n).mp hk
      exact hfree g (.inl hg)
    exact Cells.next_write_of_ne none hkn
  · rcases hheld g k hg with ⟨_,rfl⟩ | ⟨_,hg',_⟩
    · simp
    · simp [hi.allocated g k hg']
  · rcases hheld g k hg with ⟨rfl,rfl⟩ | ⟨_,h1,hk⟩ <;>
      rcases hheld g' k hg' with ⟨rfl,hk'⟩ | ⟨_,h2,_⟩
    · rfl
    · exact absurd h2 (hfree g')
    · exact absurd hk' hk
    · exact hi.own g g' k h1 h2
  · rcases hheld g k hg with ⟨rfl,rfl⟩ | ⟨_,hg',hk⟩
    · simp
    · simpa [hk] using hi.id g k hg'
  · by_cases hgh : g = h
    · subst hgh
      simp [PcOk,hgiven,Cells.write]
    · refine (hi.pc g).congr (by simp [hgh]) rfl rfl fun k hk => ?_
      have hkn : (.next n : Loc Address) ≠ .next k := by
        rintro hkn
        cases hkn
        exact hfree g (.inr (.inl hk))
      exact Cells.next_write_of_ne none hkn

theorem Inv.add {n : Address} {fuel : ℕ} (hi : Inv c s ns)
    (hok : Distinct c s (.add h n fuel)) (hst : step c s (.add h n fuel) = some t) :
    Inv c t (ns ++ [n]) := by
  simp only [step] at hst
  split at hst
  next hp =>
    obtain ⟨loc,hf,rfl⟩ := Option.map_eq_some_iff.mp hst
    have hpc : s.given h = none ∧ s.cells.next n = none := by
      have hpc := hi.pc h
      rwa [PcOk,hp] at hpc
    rcases hi.findId hok hf with ⟨_,k,_,hk,_⟩ | ⟨_,rfl⟩
    · exact absurd hk (by simp [hpc.1])
    have hpath : s.cells.Path (s.cells.read .head) (ns ++ []) := by
      rw [List.append_nil]
      exact hi.path
    have hnil : s.cells.read (Cells.locAfter .head ns) = none := hpath.split
    rw [hnil]
    have hheld : ∀ g k, Held { s with
        cells := s.cells.write (Cells.locAfter .head ns) (some n)
        pc := Function.update s.pc h (.assign n)
        given := Function.update s.given h (some n) } g k → Held s g k := by
      intro g k hg
      by_cases hgh : g = h
      · subst hgh
        right; left
        simpa [Held,hp,eq_comm] using hg
      · simpa [Held,hgh] using hg
    have hnn := hi.add_notMem hp
    refine ⟨?_,?_,fun k => ?_,fun g k hg => hi.allocated g k (hheld g k hg),
      fun g g' k hg hg' => hi.own g g' k (hheld g k hg) (hheld g' k hg'),
      fun g k hg => hi.id g k (hheld g k hg),fun g g' hg hg' huint => ?_,fun g => ?_⟩
    · refine hpath.write hi.nodup (by simp) ⟨rfl,?_⟩
      rw [hi.next_write (List.append_nil ns).symm hp]
      exact hpc.2
    · simpa using hi.nodup.concat hnn
    · rw [List.mem_append,hi.mem k,List.mem_singleton]
      constructor
      · rintro (⟨g,hg⟩ | rfl)
        · have hgh : g ≠ h := by
            rintro rfl
            rw [hpc.1] at hg
            cases hg
          exact ⟨g,by simpa [hgh] using hg⟩
        · exact ⟨h,by simp⟩
      · rintro ⟨g,hg⟩
        by_cases hgh : g = h
        · subst hgh
          right
          simpa [eq_comm] using hg
        · exact .inl ⟨g,by simpa [hgh] using hg⟩
    · by_cases hgh : g = h <;> by_cases hgh' : g' = h
      · rw [hgh,hgh']
      · simp only [Function.update_of_ne hgh'] at hg'
        exact absurd (hgh ▸ huint).symm (hok hpc.1 g' hg')
      · simp only [Function.update_of_ne hgh] at hg
        exact absurd (hgh' ▸ huint) (hok hpc.1 g hg)
      · simp only [Function.update_of_ne hgh,Function.update_of_ne hgh'] at hg hg'
        exact hi.distinct g g' hg hg' huint
    · by_cases hgh : g = h
      · subst hgh
        simp [PcOk]
      · exact (hi.pc g).congr (by simp [hgh]) rfl (by simp [hgh]) fun k hk =>
          hi.next_write (List.append_nil ns).symm hk
  next => cases hst

theorem Inv.delLocked {n : Address} {fuel : ℕ} (hi : Inv c s ns) (hp : s.pc h = .del)
    (hg : s.given h = some n) (hst : step c s (.del h fuel) = some t) :
    Inv c t (ns.erase n) ∧ t.pc h = .free n ∧ t.allocated = s.allocated ∧
      t.given = Function.update s.given h none := by
  simp only [RcuRegistry.step,if_pos hp] at hst
  obtain ⟨loc,hf,rfl⟩ := Option.map_eq_some_iff.mp hst
  rcases hi.findId (fun hn => absurd (hg.symm.trans hn) (by simp)) hf with
    ⟨ys,k,zs,hk,rfl,rfl⟩ | ⟨hn,_⟩
  · have hkn : k = n := Option.some.inj (hk.symm.trans hg)
    subst hkn
    have hpath : s.cells.Path (s.cells.read .head) (ys ++ k::zs) := hi.path
    have hread : s.cells.read (Cells.locAfter .head ys) = some k := hpath.split.1
    have hnd := hi.nodup
    have hky : k ∉ ys := fun hky => (List.nodup_append.mp hnd).2.2 k hky k (by simp) rfl
    have herase : (ys ++ k::zs).erase k = ys ++ zs := by
      rw [List.erase_append_right _ hky,List.erase_cons_head]
    rw [hread]
    have hheld : ∀ g m, Held { s with
        cells := s.cells.write (Cells.locAfter .head ys) (s.cells.next k)
        pc := Function.update s.pc h (.free k)
        given := Function.update s.given h none } g m → Held s g m := by
      intro g m hgm
      by_cases hgh : g = h
      · subst hgh
        left
        have hmk : k = m := by simpa [Held] using hgm
        rw [← hmk]
        exact hg
      · simpa [Held,hgh] using hgm
    refine ⟨⟨?_,hi.nodup.erase k,fun m => ?_,fun g m hgm => hi.allocated g m (hheld g m hgm),
      fun g g' m hgm hgm' => hi.own g g' m (hheld g m hgm) (hheld g' m hgm'),
      fun g m hgm => hi.id g m (hheld g m hgm),fun g g' hgg hgg' huint => ?_,fun g => ?_⟩,
      by simp,rfl,rfl⟩
    · rw [herase]
      exact hi.path.unlink hnd
    · rw [hnd.mem_erase_iff,hi.mem m]
      constructor
      · rintro ⟨hmk,g,hgm⟩
        have hgh : g ≠ h := by
          rintro rfl
          exact hmk (Option.some.inj (hgm.symm.trans hg))
        exact ⟨g,by simpa [hgh] using hgm⟩
      · rintro ⟨g,hgm⟩
        by_cases hgh : g = h
        · subst hgh
          simp at hgm
        · have hgm' : s.given g = some m := by simpa [hgh] using hgm
          refine ⟨?_,g,hgm'⟩
          rintro rfl
          exact hgh (hi.own g h m (.inl hgm') (.inl hg))
    · have hgh : g ≠ h := by
        rintro rfl
        simp at hgg
      have hgh' : g' ≠ h := by
        rintro rfl
        simp at hgg'
      simp only [Function.update_of_ne hgh,Function.update_of_ne hgh'] at hgg hgg'
      exact hi.distinct g g' hgg hgg' huint
    · by_cases hgh : g = h
      · subst hgh
        simp [PcOk]
      · exact (hi.pc g).congr (by simp [hgh]) rfl (by simp [hgh]) fun m hm =>
          hi.next_write rfl hm
  · exact absurd (hg.symm.trans hn) (by simp)

theorem Inv.free {n : Address} (hi : Inv c s ns) (hst : step c s (.free h n) = some t) :
    Inv c t ns := by
  obtain ⟨hp,rfl⟩ := guarded_eq_some.mp hst
  have hgiven : s.given h = none := by
    have hpc := hi.pc h
    rwa [PcOk,hp] at hpc
  refine hi.move (h:=h) rfl rfl rfl (fun g hg => ?_) (fun m hm => ?_) (fun g m hm ha => ?_) ?_
  · cases c.kind <;> simp [hg]
  · simp [Held,hgiven] at hm
  · have hgh : g ≠ h := by
      rintro rfl
      simp [Held,hgiven] at hm
    apply Finset.mem_erase.mpr ⟨?_,ha⟩
    rintro rfl
    exact hgh (hi.own g h m (by simpa [Held,hgh] using hm) (.inr (.inr hp)))
  · simp [PcOk,hgiven]

theorem Inv.free_notMem {H : Type} {c : Config H} {s : State H} {ns : List Address} {h : H}
    {n : Address} (hi : Inv c s ns) (hp : s.pc h = .free n) : n ∉ ns := by
  intro hn
  obtain ⟨g,hg⟩ := (hi.mem n).mp hn
  have hgh := hi.own g h n (.inl hg) (.inr (.inr hp))
  have hpc := hi.pc h
  rw [PcOk,hp] at hpc
  rw [hgh,hpc] at hg
  cases hg

theorem Inv.step (hi : Inv c s ns) (hok : Distinct c s a) (hst : step c s a = some t) :
    ∃ ns', Inv c t ns' := by
  cases a with
  | init h =>
    obtain ⟨⟨hp,hen⟩,rfl⟩ := guarded_eq_some.mp hst
    have hpc : ∀ n, s.given h = some n → s.ptr h = some n := by
      have hpc := hi.pc h
      rwa [PcOk,hp] at hpc
    have hgiven : s.given h = none := by
      unfold Enters at hen
      cases hk : c.kind with
      | thread =>
        rw [hk] at hen
        by_contra hne
        obtain ⟨n,hn⟩ := Option.ne_none_iff_exists'.mp hne
        exact absurd ((hpc n hn).symm.trans hen) (by simp)
      | safePtr =>
        rw [hk] at hen
        exact hen
    refine ⟨ns,hi.move (h:=h) rfl rfl rfl (fun g hg => by simp [hg]) (fun n hn => ?_)
      (fun _ _ _ hn => hn) ?_⟩
    · simp [Held,hgiven] at hn
    · simp [PcOk,hgiven]
  | malloc h n =>
    cases n with
    | none =>
      obtain ⟨hp,rfl⟩ := guarded_eq_some.mp hst
      have hgiven : s.given h = none := by
        have hpc := hi.pc h
        rwa [PcOk,hp] at hpc
      refine ⟨ns,hi.move (h:=h) rfl rfl rfl (fun g hg => by simp [hg]) (fun n hn => ?_)
        (fun _ _ _ hn => hn) ?_⟩
      · simp [Held,hgiven] at hn
      · simp [PcOk,hgiven]
    | some n => exact ⟨ns,hi.malloc hst⟩
  | add h n fuel => exact ⟨_,hi.add hok hst⟩
  | found h n loc =>
    obtain ⟨hp,_⟩ := guarded_eq_some.mp hst
    have hpc := hi.pc h
    rw [PcOk,hp] at hpc
    exact hpc.elim
  | assign h n =>
    obtain ⟨hp,rfl⟩ := guarded_eq_some.mp hst
    have hgiven : s.given h = some n := by
      have hpc := hi.pc h
      rwa [PcOk,hp] at hpc
    refine ⟨ns,hi.move (h:=h) rfl rfl rfl (fun g hg => by simp [hg]) (fun m hm => ?_)
      (fun _ _ _ hn => hn) ?_⟩
    · left
      simpa [Held] using hm
    · simp [PcOk,hgiven]
  | exit h =>
    obtain ⟨⟨hp,_⟩,rfl⟩ := guarded_eq_some.mp hst
    have hpc : ∀ n, s.given h = some n → s.ptr h = some n := by
      have hpc := hi.pc h
      rwa [PcOk,hp] at hpc
    refine ⟨ns,hi.move (h:=h) rfl rfl rfl (fun g hg => by simp [hg]) (fun m hm => ?_)
      (fun _ _ _ hn => hn) ?_⟩
    · left
      simpa [Held] using hm
    · simpa [PcOk] using hpc
  | del h fuel =>
    by_cases hp : s.pc h = .del
    · cases hg : s.given h with
      | some n => exact ⟨_,(hi.delLocked hp hg hst).1⟩
      | none =>
        simp only [RcuRegistry.step,if_pos hp] at hst
        obtain ⟨loc,hf,rfl⟩ := Option.map_eq_some_iff.mp hst
        rcases hi.findId hok hf with ⟨_,k,_,hk,_⟩ | ⟨_,rfl⟩
        · exact absurd (hk.symm.trans hg) (by simp)
        have hpath : s.cells.Path (s.cells.read .head) (ns ++ []) := by
          rw [List.append_nil]
          exact hi.path
        have hnil : s.cells.read (Cells.locAfter .head ns) = none := hpath.split
        have hgiven : Function.update s.given h none = s.given := by
          rw [← hg,Function.update_eq_self]
        rw [hnil]
        refine ⟨ns,hi.move (h:=h) rfl rfl hgiven (fun g hg => ?_) (fun m hm => ?_)
          (fun _ _ _ hn => hn) ?_⟩
        · cases c.kind <;> simp [hg]
        · simp [Held] at hm
        · simp [PcOk]
    · simp [RcuRegistry.step,hp] at hst
  | free h n => exact ⟨ns,hi.free hst⟩

/-- The list is exact, and a removal by a registered holder takes its own node off the list,
keeps the others in their order, and frees this node. -/
def RegistryExact (c : Config H) (s : State H) : Prop :=
  ∃ ns, Exact s ns ∧
    (∀ h n fuel t, s.pc h = .del → s.given h = some n → step c s (.del h fuel) = some t →
      Exact t (ns.erase n) ∧ t.pc h = .free n ∧ t.allocated = s.allocated ∧
        t.given = Function.update s.given h none) ∧
    ∀ h n t, step c s (.free h n) = some t → Exact t ns ∧ t.allocated = s.allocated.erase n ∧
      n ∉ ns ∧ ∀ g, t.given g = s.given g

theorem Inv.registryExact (hi : Inv c s ns) : RegistryExact c s := by
  refine ⟨ns,hi.exact,fun h n fuel t hp hg hst => ?_,fun h n t hst => ?_⟩
  · obtain ⟨hi',hrest⟩ := hi.delLocked hp hg hst
    exact ⟨hi'.exact,hrest⟩
  · have hi' := hi.free hst
    obtain ⟨hp,rfl⟩ := guarded_eq_some.mp hst
    exact ⟨hi'.exact,rfl,hi.free_notMem hp,fun _ => rfl⟩

/-- In every run in which each holder, where it is added or removed, differs from the registered
ones in the lower half of its id, the registry is exact. -/
theorem registryExact_of_distinct (c : Config H) (next : Address → Option Address)
    (node : Address → Node) (allocated : Finset Address) (ptr : H → Option Address) (s : State H)
    (hr : Reach (step c) (Distinct c) (init c next node allocated ptr) s) : RegistryExact c s := by
  have hi : ∃ ns, Inv c s ns := by
    apply hr.invariant (I:=fun s => ∃ ns, Inv c s ns)
    · exact ⟨[],Inv.init c next node allocated ptr⟩
    · rintro t a u ⟨ns,hi⟩ hok hst
      exact hi.step hok hst
  obtain ⟨ns,hi⟩ := hi
  exact hi.registryExact

def aliased : Config Bool where
  kind := .thread
  id h := if h = false then 1 else 1 + 2^32

def distinctIds : Config Bool where
  kind := .thread
  id h := if h = false then 1 else 2 + 2^33

def noReader (c : Config Bool) : State Bool :=
  init c (fun _ => none) (fun _ => ⟨0,0⟩) ∅ (fun _ => none)

def nodeA : Address := ⟨33,by decide⟩

def nodeB : Address := ⟨34,by decide⟩

def registrations : List (Act Bool) :=
  [.init false,.init true,.malloc true (some nodeB),.malloc false (some nodeA),.add true nodeB 1,
    .add false nodeA 2,.assign false nodeA,.assign true nodeB,.exit false,.del false 2,
    .free false nodeA]

theorem registryExact_of_registrations : ∃ s, Reach (step distinctIds) (Distinct distinctIds)
    (noReader distinctIds) s ∧ s.cells.Path s.cells.head [nodeB] ∧
      RegistryExact distinctIds s := by
  have hs : ∃ s, exec (restrict (step distinctIds) (Distinct distinctIds)) (noReader distinctIds)
      registrations = some s ∧ s.cells.head = some nodeB ∧ s.cells.next nodeB = none :=
    ⟨_,rfl,rfl,rfl⟩
  obtain ⟨s,hs,hh,hn⟩ := hs
  have hreach := reach_of_exec_restrict hs
  exact ⟨s,hreach,⟨hh,hn⟩,registryExact_of_distinct _ _ _ _ _ _ hreach⟩

/-- The second thread is handed the node of the first one. -/
theorem registry_fails : ¬ ∀ c : Config Bool, Function.Injective c.id → ∀ s,
    Reach (step c) Anything (noReader c) s → RegistryExact c s := by
  intro h
  have hs : ∃ s, exec (step aliased) (noReader aliased)
      [.init false,.malloc false (some nodeA),.add false nodeA 1,.init true,
        .malloc true (some nodeB),.add true nodeB 1] = some s ∧
      s.given false = some nodeA ∧ s.given true = some nodeA := ⟨_,rfl,rfl,rfl⟩
  obtain ⟨s,hs,h0,h1⟩ := hs
  have hinj : Function.Injective aliased.id := by
    intro g h
    revert g h
    decide
  obtain ⟨ns,he,_⟩ := h aliased hinj s (reach_of_exec hs)
  exact absurd (he.own false true nodeA h0 h1) (by decide)

end RcuRegistry
end Mthpc
