import Mthpc.RcuRegistry

/-!
# One call of mthpc_rcu_thread_init

The list of an `mthpc_rcu_data` is well formed in every run, whatever the ids: it ends, its
nodes are allocated, and a node in the hands of a call is not on it. On such a list a call of
`mthpc_rcu_thread_init` that is not interrupted adds a node at the end, or finds one that has
the id already, or leaves everything as it was where `malloc` fails.
-/
namespace Mthpc
namespace RcuRegistry

open StepSystem

variable {H : Type} [DecidableEq H]

/-- The node that a call has allocated and not linked, or unlinked and not freed. -/
def Pc.node : Pc → Option Address
  | .add n | .found n _ | .free n => some n
  | _ => none

structure ListInv (s : State H) (ns : List Address) : Prop where
  path : s.cells.Path s.cells.head ns
  nodup : ns.Nodup
  allocated : ∀ n ∈ ns, n ∈ s.allocated
  held : ∀ h n, (s.pc h).node = some n → n ∈ s.allocated ∧ n ∉ ns
  own : ∀ g h n, (s.pc g).node = some n → (s.pc h).node = some n → g = h
  last : ∀ h n, s.pc h = .add n → s.cells.next n = none

variable {c : Config H} {s t : State H} {ns : List Address} {a : Act H} {h : H} {n : Address}

theorem ListInv.init {H : Type} (c : Config H) (next : Address → Option Address)
    (node : Address → Node) (allocated : Finset Address) (ptr : H → Option Address) :
    ListInv (init c next node allocated ptr) [] := by
  refine ⟨rfl,List.nodup_nil,by simp,?_,?_,?_⟩ <;> simp [RcuRegistry.init,Pc.node]

theorem ListInv.goto (hi : ListInv s ns) (hcells : t.cells = s.cells)
    (halloc : ∀ n ∈ s.allocated, (∀ g, g ≠ h → (s.pc g).node = some n → n ∈ t.allocated) ∧
      (n ∈ ns → n ∈ t.allocated))
    {p : Pc} (hpc : t.pc = Function.update s.pc h p) (hp : p.node = none) : ListInv t ns := by
  have hother : ∀ g n, (t.pc g).node = some n → g ≠ h ∧ (s.pc g).node = some n := by
    intro g n hg
    rw [hpc] at hg
    by_cases hgh : g = h
    · subst hgh
      rw [Function.update_self,hp] at hg
      cases hg
    · rw [Function.update_of_ne hgh] at hg
      exact ⟨hgh,hg⟩
  refine ⟨by rw [hcells]; exact hi.path,hi.nodup,fun n hn => ?_,fun g n hg => ?_,
    fun g k n hg hk => ?_,fun g n hg => ?_⟩
  · exact (halloc n (hi.allocated n hn)).2 hn
  · obtain ⟨hgh,hg'⟩ := hother g n hg
    obtain ⟨hn,hns⟩ := hi.held g n hg'
    exact ⟨(halloc n hn).1 g hgh hg',hns⟩
  · exact hi.own g k n (hother g n hg).2 (hother k n hk).2
  · rw [hcells]
    rw [hpc] at hg
    by_cases hgh : g = h
    · subst hgh
      rw [Function.update_self] at hg
      rw [hg] at hp
      cases hp
    · rw [Function.update_of_ne hgh] at hg
      exact hi.last g n hg

theorem ListInv.malloc (hi : ListInv s ns) (hst : step c s (.malloc h (some n)) = some t) :
    ListInv t ns := by
  obtain ⟨⟨_,hn⟩,rfl⟩ := guarded_eq_some.mp hst
  have hfree : ∀ g, (s.pc g).node ≠ some n := fun g hg => hn (hi.held g n hg).1
  have hns : n ∉ ns := fun hm => hn (hi.allocated n hm)
  have hnext : ∀ m, m ≠ n → (s.cells.write (.next n) none).next m = s.cells.next m := by
    intro m hm
    refine Cells.next_write_of_ne none fun he => hm ?_
    cases he
    rfl
  refine ⟨hi.path.congr fun m hm => hnext m fun he => hns (he ▸ hm),hi.nodup,
    fun m hm => Finset.mem_insert_of_mem (hi.allocated m hm),fun g m hg => ?_,
    fun g k m hg hk => ?_,fun g m hg => ?_⟩
  · by_cases hgh : g = h
    · subst hgh
      simp only [Function.update_self,Pc.node,Option.some.injEq] at hg
      subst hg
      exact ⟨Finset.mem_insert_self _ _,hns⟩
    · simp only [Function.update_of_ne hgh] at hg
      exact ⟨Finset.mem_insert_of_mem (hi.held g m hg).1,(hi.held g m hg).2⟩
  · by_cases hgh : g = h <;> by_cases hkh : k = h
    · rw [hgh,hkh]
    · subst hgh
      simp only [Function.update_self,Function.update_of_ne hkh,Pc.node,Option.some.injEq] at hg hk
      exact absurd (hg ▸ hk) (hfree k)
    · subst hkh
      simp only [Function.update_self,Function.update_of_ne hgh,Pc.node,Option.some.injEq] at hg hk
      exact absurd (hk ▸ hg) (hfree g)
    · simp only [Function.update_of_ne hgh,Function.update_of_ne hkh] at hg hk
      exact hi.own g k m hg hk
  · by_cases hgh : g = h
    · subst hgh
      simp only [Function.update_self,Pc.add.injEq] at hg
      subst hg
      simp [Cells.write]
    · simp only [Function.update_of_ne hgh] at hg
      have hmn : m ≠ n := by
        rintro rfl
        exact hfree g (by rw [hg]; rfl)
      exact (hnext m hmn).trans (hi.last g m hg)

section

omit [DecidableEq H]

theorem ListInv.findId {fuel : ℕ} {id : BitVec 32} {loc : Loc Address} (hi : ListInv s ns)
    (hf : findId s fuel id = some loc) : ∃ ys zs, ns = ys ++ zs ∧ loc = Cells.locAfter .head ys ∧
      s.cells.read loc = zs.head? ∧ (∀ y ∈ ys, (s.node y).id ≠ id.setWidth 64) ∧
        ∀ z ∈ zs.head?, (s.node z).id = id.setWidth 64 := by
  obtain ⟨ys,zs,rfl,rfl,hys,hzs⟩ := Cells.find_eq hi.path hf
  exact ⟨ys,zs,rfl,rfl,(Cells.Path.split (l:=.head) hi.path).head_eq,
    fun y hy => by simpa using hys y hy,fun z hz => by simpa using hzs z hz⟩

theorem ListInv.findId_isSome {fuel : ℕ} (hi : ListInv s ns) (hf : ns.length < fuel)
    (id : BitVec 32) : ∃ loc, RcuRegistry.findId s fuel id = some loc :=
  Option.isSome_iff_exists.mp
    (Cells.find_isSome (l:=.head) hi.path (fun n hn => by simpa using hi.allocated n hn) hf)

theorem ListInv.next_write {ys zs : List Address} {v : Option Address} (hns : ns = ys ++ zs)
    (hn : n ∉ ns) : (s.cells.write (Cells.locAfter .head ys) v).next n = s.cells.next n := by
  refine Cells.next_write_of_ne v ?_
  rcases Cells.locAfter_mem .head ys with ⟨hl,_⟩ | ⟨y,hy,hl⟩
  · simp [hl]
  · rw [hl]
    rintro hyn
    cases hyn
    exact hn (by simp [hns,hy])

end

theorem ListInv.add {fuel : ℕ} (hi : ListInv s ns) (hst : step c s (.add h n fuel) = some t) :
    s.pc h = .add n ∧ ((∃ z loc, z ∈ ns ∧ (s.node z).id = (uint (c.id h)).setWidth 64 ∧
      s.cells.read loc = some z ∧ ListInv t ns ∧
      t = { s with
        pc := Function.update s.pc h (.found n loc)
        given := Function.update s.given h (some z) }) ∨
    (∀ z ∈ ns, (s.node z).id ≠ (uint (c.id h)).setWidth 64) ∧ ListInv t (ns ++ [n]) ∧
      t.pc h = .assign n ∧ t.node = s.node ∧ t.ptr = s.ptr) := by
  simp only [step] at hst
  split at hst
  · rename_i hp
    refine ⟨hp,?_⟩
    obtain ⟨loc,hf,rfl⟩ := Option.map_eq_some_iff.mp hst
    obtain ⟨halloc,hnn⟩ := hi.held h n (by rw [hp]; rfl)
    obtain ⟨ys,zs,rfl,rfl,hread,hys,hzs⟩ := hi.findId hf
    cases zs with
    | cons z zs =>
      have hread : s.cells.read (Cells.locAfter .head ys) = some z := hread
      refine .inl ⟨z,_,by simp,hzs z rfl,hread,?_,by rw [hread]⟩
      rw [hread]
      refine ⟨hi.path,hi.nodup,hi.allocated,fun g m hg => ?_,fun g k m hg hk => ?_,
        fun g m hg => ?_⟩
      · by_cases hgh : g = h
        · subst hgh
          simp only [Function.update_self,Pc.node,Option.some.injEq] at hg
          subst hg
          exact ⟨halloc,hnn⟩
        · simp only [Function.update_of_ne hgh] at hg
          exact hi.held g m hg
      · have hsame : ∀ g, (Function.update s.pc h (.found n (Cells.locAfter .head ys)) g).node =
            (s.pc g).node := by
          intro g
          by_cases hgh : g = h
          · subst hgh
            rw [Function.update_self,hp]
            rfl
          · rw [Function.update_of_ne hgh]
        rw [hsame] at hg hk
        exact hi.own g k m hg hk
      · by_cases hgh : g = h
        · subst hgh
          simp only [Function.update_self] at hg
          cases hg
        · simp only [Function.update_of_ne hgh] at hg
          exact hi.last g m hg
    | nil =>
      have hread : s.cells.read (Cells.locAfter .head ys) = none := hread
      rw [List.append_nil] at hi hnn
      refine .inr ⟨by simpa using hys,?_,?_⟩
      · rw [List.append_nil,hread]
        have hpath : s.cells.Path (s.cells.read .head) (ys ++ []) := by
          rw [List.append_nil]
          exact hi.path
        have hother : ∀ g m, (Function.update s.pc h (.assign n) g).node = some m →
            g ≠ h ∧ (s.pc g).node = some m := by
          intro g m hg
          by_cases hgh : g = h
          · subst hgh
            rw [Function.update_self] at hg
            cases hg
          · rw [Function.update_of_ne hgh] at hg
            exact ⟨hgh,hg⟩
        refine ⟨hpath.write hi.nodup (by simp) ⟨rfl,?_⟩,by simpa using hi.nodup.concat hnn,
          fun m hm => ?_,fun g m hg => ?_,
          fun g k m hg hk => hi.own g k m (hother g m hg).2 (hother k m hk).2,fun g m hg => ?_⟩
        · rw [ListInv.next_write (List.append_nil ys).symm hnn]
          exact hi.last h n hp
        · rcases List.mem_append.mp hm with hm | hm
          · exact hi.allocated m hm
          · rw [List.mem_singleton.mp hm]
            exact halloc
        · obtain ⟨hgh,hg'⟩ := hother g m hg
          obtain ⟨hm,hms⟩ := hi.held g m hg'
          refine ⟨hm,?_⟩
          rw [List.mem_append,List.mem_singleton,not_or]
          refine ⟨hms,?_⟩
          rintro rfl
          exact hgh (hi.own g h m hg' (by rw [hp]; rfl))
        · by_cases hgh : g = h
          · subst hgh
            simp only [Function.update_self] at hg
            cases hg
          · simp only [Function.update_of_ne hgh] at hg
            have hmn : m ∉ ys := (hi.held g m (by rw [hg]; rfl)).2
            exact (ListInv.next_write (List.append_nil ys).symm hmn).trans (hi.last g m hg)
      · rw [hread]
        simp
  · cases hst

theorem ListInv.del {fuel : ℕ} (hi : ListInv s ns) (hst : step c s (.del h fuel) = some t) :
    ∃ ns', ListInv t ns' := by
  simp only [step] at hst
  split at hst
  · rename_i hp
    obtain ⟨loc,hf,rfl⟩ := Option.map_eq_some_iff.mp hst
    obtain ⟨ys,zs,rfl,rfl,hread,-,-⟩ := hi.findId hf
    rw [hread]
    cases zs with
    | nil =>
      have hpc : (Pc.idle).node = none := rfl
      exact ⟨_,hi.goto (h:=h) rfl (fun n hn => ⟨fun _ _ _ => hn,fun _ => hn⟩) rfl hpc⟩
    | cons z zs =>
      have hz : z ∉ ys ++ zs := (List.nodup_middle.mp hi.nodup).notMem
      have hsub : ∀ m, m ∈ ys ++ zs → m ∈ ys ++ z::zs := by
        intro m hm
        rcases List.mem_append.mp hm with hm | hm
        · exact List.mem_append_left _ hm
        · exact List.mem_append_right _ (List.mem_cons_of_mem _ hm)
      have hother : ∀ g m, (Function.update s.pc h (.free z) g).node = some m →
          g = h ∧ m = z ∨ g ≠ h ∧ (s.pc g).node = some m ∧ m ≠ z := by
        intro g m hg
        by_cases hgh : g = h
        · subst hgh
          simp only [Function.update_self,Pc.node,Option.some.injEq] at hg
          exact .inl ⟨rfl,hg.symm⟩
        · rw [Function.update_of_ne hgh] at hg
          refine .inr ⟨hgh,hg,?_⟩
          rintro rfl
          exact (hi.held g m hg).2 (by simp)
      refine ⟨ys ++ zs,hi.path.unlink hi.nodup,(List.nodup_middle.mp hi.nodup).of_cons,
        fun m hm => hi.allocated m (hsub m hm),fun g m hg => ?_,fun g k m hg hk => ?_,
        fun g m hg => ?_⟩
      · rcases hother g m hg with ⟨_,rfl⟩ | ⟨_,hg',_⟩
        · exact ⟨hi.allocated m (by simp),hz⟩
        · exact ⟨(hi.held g m hg').1,fun hm => (hi.held g m hg').2 (hsub m hm)⟩
      · rcases hother g m hg with ⟨rfl,rfl⟩ | ⟨_,hg',hmz⟩ <;>
          rcases hother k m hk with ⟨rfl,hm⟩ | ⟨_,hk',hmz'⟩
        · rfl
        · exact absurd rfl hmz'
        · exact absurd hm hmz
        · exact hi.own g k m hg' hk'
      · simp only [List.head?_cons] at hg
        by_cases hgh : g = h
        · subst hgh
          simp only [Function.update_self] at hg
          cases hg
        · simp only [Function.update_of_ne hgh] at hg
          have hmn : m ∉ ys ++ z::zs := (hi.held g m (by rw [hg]; rfl)).2
          exact (ListInv.next_write rfl hmn).trans (hi.last g m hg)
  · cases hst

theorem ListInv.freeHeld {p : Pc} (hi : ListInv s ns) (hp : (s.pc h).node = some n)
    (hcells : t.cells = s.cells) (halloc : t.allocated = s.allocated.erase n)
    (hpc : t.pc = Function.update s.pc h p) (hnode : p.node = none) : ListInv t ns := by
  obtain ⟨hn,hns⟩ := hi.held h n hp
  refine hi.goto hcells (fun m hm => ⟨fun g hgh hg => ?_,fun hms => ?_⟩) hpc hnode
  · rw [halloc]
    refine Finset.mem_erase.mpr ⟨?_,hm⟩
    rintro rfl
    exact hgh (hi.own g h m hg hp)
  · rw [halloc]
    exact Finset.mem_erase.mpr ⟨fun he => hns (he ▸ hms),hm⟩

theorem ListInv.step (hi : ListInv s ns) (hst : step c s a = some t) : ∃ ns', ListInv t ns' := by
  cases a with
  | init h | exit h =>
    obtain ⟨_,rfl⟩ := guarded_eq_some.mp hst
    exact ⟨ns,hi.goto (h:=h) rfl (fun n hn => ⟨fun _ _ _ => hn,fun _ => hn⟩) rfl rfl⟩
  | malloc h n =>
    cases n with
    | none =>
      obtain ⟨_,rfl⟩ := guarded_eq_some.mp hst
      exact ⟨ns,hi.goto (h:=h) rfl (fun n hn => ⟨fun _ _ _ => hn,fun _ => hn⟩) rfl rfl⟩
    | some n => exact ⟨ns,hi.malloc hst⟩
  | add h n fuel =>
    obtain ⟨_,⟨_,_,_,_,_,hi',_⟩ | ⟨_,hi',_⟩⟩ := hi.add hst
    · exact ⟨ns,hi'⟩
    · exact ⟨_,hi'⟩
  | found h n loc =>
    obtain ⟨hp,rfl⟩ := guarded_eq_some.mp hst
    exact ⟨ns,hi.freeHeld (h:=h) (n:=n) (by rw [hp]; rfl) rfl rfl rfl rfl⟩
  | assign h n =>
    obtain ⟨_,rfl⟩ := guarded_eq_some.mp hst
    exact ⟨ns,hi.goto (h:=h) rfl (fun n hn => ⟨fun _ _ _ => hn,fun _ => hn⟩) rfl rfl⟩
  | del h fuel => exact hi.del hst
  | free h n =>
    obtain ⟨hp,rfl⟩ := guarded_eq_some.mp hst
    exact ⟨ns,hi.freeHeld (h:=h) (n:=n) (by rw [hp]; rfl) rfl rfl rfl rfl⟩

theorem listInv_of_reach {next : Address → Option Address} {node : Address → Node}
    {allocated : Finset Address} {ptr : H → Option Address}
    (hr : Reach (RcuRegistry.step c) Anything (RcuRegistry.init c next node allocated ptr) s) :
    ∃ ns, ListInv s ns := by
  refine hr.invariant (I:=fun s => ∃ ns, ListInv s ns) ⟨[],.init c next node allocated ptr⟩ ?_
  rintro t a u ⟨ns,hi⟩ - hst
  exact hi.step hst

/-- A call of `mthpc_rcu_thread_init` by itself; `node` is the result of its `malloc`. -/
def threadInit (c : Config H) (fuel : ℕ) (s : State H) (h : H) (node : Option Address) :
    Option (State H) :=
  if s.ptr h ≠ none then some s
  else (step c s (.init h)).bind fun s₁ => (step c s₁ (.malloc h node)).bind fun s₂ =>
    match node with
    | none => some s₂
    | some n => (step c s₂ (.add h n fuel)).bind fun s₃ =>
      match s₃.pc h with
      | .found n loc => step c s₃ (.found h n loc)
      | .assign n => step c s₃ (.assign h n)
      | _ => none

theorem threadInit_registered {fuel : ℕ} {node : Option Address} (hp : s.ptr h ≠ none) :
    threadInit c fuel s h node = some s := if_pos hp

theorem threadInit_none {fuel : ℕ} (hk : c.kind = .thread) (hpc : s.pc h = .idle)
    (hp : s.ptr h = none) : threadInit c fuel s h none = some s := by
  have hen : Enters c s h := by
    rw [Enters,hk]
    exact hp
  have hinit : RcuRegistry.step c s (.init h) =
      some { s with pc := Function.update s.pc h .malloc } := if_pos ⟨hpc,hen⟩
  rw [threadInit,if_neg (not_not.mpr hp),hinit,Option.bind_some]
  simp only [RcuRegistry.step,Function.update_self,guarded,if_true,Option.bind_some,
    Function.update_idem]
  rw [← hpc,Function.update_eq_self]

theorem threadInit_some {fuel : ℕ} (hi : ListInv s ns) (hp : s.ptr h = none)
    (hst : threadInit c fuel s h (some n) = some t) :
    ((∃ z ∈ ns, (s.node z).id = (uint (c.id h)).setWidth 64) ∧ ListInv t ns ∧
      (∀ z ∈ ns, t.node z = s.node z) ∧ t.ptr h ≠ none) ∨
    (∀ z ∈ ns, (s.node z).id ≠ (uint (c.id h)).setWidth 64) ∧ ListInv t (ns ++ [n]) := by
  rw [threadInit,if_neg (not_not.mpr hp)] at hst
  obtain ⟨s₁,h₁,hst⟩ := Option.bind_eq_some_iff.mp hst
  obtain ⟨s₂,h₂,hst⟩ := Option.bind_eq_some_iff.mp hst
  obtain ⟨s₃,h₃,hst⟩ := Option.bind_eq_some_iff.mp hst
  have hi₁ : ListInv s₁ ns := by
    obtain ⟨_,rfl⟩ := guarded_eq_some.mp h₁
    exact hi.goto (h:=h) rfl (fun n hn => ⟨fun _ _ _ => hn,fun _ => hn⟩) rfl rfl
  have hi₂ := hi₁.malloc h₂
  have hnode : ∀ z ∈ ns, s₂.node z = s.node z := by
    intro z hz
    obtain ⟨_,rfl⟩ := guarded_eq_some.mp h₁
    obtain ⟨⟨_,hn⟩,rfl⟩ := guarded_eq_some.mp h₂
    have hzn : z ≠ n := fun he => hn (he ▸ hi.allocated z hz)
    exact Function.update_of_ne hzn _ _
  obtain ⟨hp₂,⟨z,loc,hz,hid,hread,hi₃,rfl⟩ | ⟨hids,hi₃,hpc,hn₃,-⟩⟩ := hi₂.add h₃
  · left
    simp only [Function.update_self] at hst
    obtain ⟨_,rfl⟩ := guarded_eq_some.mp hst
    refine ⟨⟨z,hz,(hnode z hz) ▸ hid⟩,?_,hnode,?_⟩
    · exact hi₃.freeHeld (h:=h) (n:=n) (by simp [Pc.node]) rfl rfl rfl rfl
    · simp only [Function.update_self,hread]
      simp
  · right
    rw [hpc] at hst
    obtain ⟨_,rfl⟩ := guarded_eq_some.mp hst
    refine ⟨fun z hz => (hnode z hz) ▸ hids z hz,?_⟩
    exact hi₃.goto (h:=h) rfl (fun n hn => ⟨fun _ _ _ => hn,fun _ => hn⟩) rfl rfl

theorem threadInit_completes {fuel : ℕ} (hk : c.kind = .thread) (hi : ListInv s ns)
    (hpc : s.pc h = .idle) (hp : s.ptr h = none) (hn : n ∉ s.allocated) (hf : ns.length < fuel) :
    ∃ t, threadInit c fuel s h (some n) = some t := by
  have hen : Enters c s h := by
    rw [Enters,hk]
    exact hp
  have hinit : RcuRegistry.step c s (.init h) =
      some { s with pc := Function.update s.pc h .malloc } := if_pos ⟨hpc,hen⟩
  rw [threadInit,if_neg (not_not.mpr hp),hinit,Option.bind_some]
  have hi₁ : ListInv { s with pc := Function.update s.pc h .malloc } ns :=
    hi.goto (h:=h) rfl (fun n hn => ⟨fun _ _ _ => hn,fun _ => hn⟩) rfl rfl
  obtain ⟨s₂,h₂,hpc₂⟩ : ∃ s₂, RcuRegistry.step c { s with pc := Function.update s.pc h .malloc }
      (.malloc h (some n)) = some s₂ ∧ s₂.pc h = .add n := by
    refine ⟨_,if_pos ⟨?_,hn⟩,?_⟩
    · simp only [Function.update_self]
    · simp only [Function.update_self]
  rw [h₂,Option.bind_some]
  have hi₂ := hi₁.malloc h₂
  obtain ⟨loc,hloc⟩ := hi₂.findId_isSome hf (uint (c.id h))
  obtain ⟨s₃,h₃⟩ : ∃ s₃, RcuRegistry.step c s₂ (.add h n fuel) = some s₃ := by
    simp only [RcuRegistry.step]
    rw [if_pos hpc₂,addLocked,hloc]
    exact ⟨_,rfl⟩
  dsimp only
  rw [h₃,Option.bind_some]
  obtain ⟨-,⟨z,loc,-,-,-,-,rfl⟩ | ⟨-,-,hpc₃,-,-⟩⟩ := hi₂.add h₃
  · simp only [Function.update_self]
    exact ⟨_,if_pos (Function.update_self ..)⟩
  · rw [hpc₃]
    exact ⟨_,if_pos hpc₃⟩

end RcuRegistry
end Mthpc
