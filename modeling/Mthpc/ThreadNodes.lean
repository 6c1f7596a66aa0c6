import Mthpc.Settles
import Mthpc.ThreadReturns

/-!
# A synchronous run returns

`__mthpc_thread_worker` begins with `mthpc_rcu_thread_init` and ends with
`mthpc_rcu_thread_exit`. Both take `data->lock` of `mthpc_rcu_data`, which a call of
`mthpc_synchronize_rcu_internal` holds for its whole grace period. Here the thread groups run
with that lock: the threads of all calls, and callers of `mthpc_synchronize_rcu` that take the
lock at any time. Where none of these takes it any more, the steps of a call and its threads
come to an end in every order, and the end is the return of the call.
-/
namespace Mthpc
namespace ThreadNodes

open StepSystem ThreadGroup

/-- How far a thread is with its node. Where `mthpc_rcu_add` gets no memory the node pointer
stays `NULL`: then `mthpc_rcu_read_lock` tries again, and `mthpc_rcu_thread_exit` returns at
once. -/
inductive NodePc
  | fresh | adding | added | deleting | deleted | failed
  deriving DecidableEq

/-- The callers of `mthpc_synchronize_rcu` are `σ`. -/
structure State (ρ υ κ ω σ : Type) where
  group : ThreadGroup.State ρ υ κ ω
  dataLock : Option (Thread ρ ⊕ σ)
  node : Thread ρ → NodePc

inductive Act (ρ υ κ ω σ : Type)
  | group (a : ThreadGroup.Act ρ υ κ ω)
  -- the walk of `mthpc_rcu_add` or `mthpc_rcu_del` through the list ends with its unlock
  | addFail (i : Thread ρ) | addLock (i : Thread ρ) | addUnlock (i : Thread ρ)
  | delLock (i : Thread ρ) | delUnlock (i : Thread ρ)
  | syncLock (y : σ) | syncUnlock (y : σ)

def init (ρ υ κ ω σ : Type) : State ρ υ κ ω σ where
  group := ThreadGroup.init ρ υ κ ω
  dataLock := none
  node := fun _ => .fresh

/-- A thread comes to `init` when `mthpc_rcu_thread_init` has returned, and to the cleanup when
`mthpc_rcu_thread_exit` has. While it registers in `init` or `func` it does nothing else. -/
def passed {ρ υ κ ω : Type} (node : Thread ρ → NodePc) : ThreadGroup.Act ρ υ κ ω → Bool
  | .threadInit i => node i == .added || node i == .failed
  | .initReturn i | .funcReturn i | .userBarrier i _ _ => node i != .adding
  | .cleanup i => node i == .deleted || node i == .failed
  | _ => true

section

variable {ρ υ κ ω σ : Type} [DecidableEq ρ] [DecidableEq υ] [DecidableEq κ] [DecidableEq ω]
  [DecidableEq σ]

def step (cfg : Config ρ ω) (s : State ρ υ κ ω σ) : Act ρ υ κ ω σ → Option (State ρ υ κ ω σ)
  | .group a =>
      if passed s.node a then
        (ThreadGroup.step cfg s.group a).map fun g => { s with group := g }
      else none
  | .addFail i => guarded (s.group.worker i = .start ∧ s.node i = .fresh)
      { s with node := Function.update s.node i .failed }
  -- a section in `init` or `func` registers a thread that has no node
  | .addLock i => guarded ((s.group.worker i = .start ∧ s.node i = .fresh ∨
        (s.group.worker i = .init ∨ s.group.worker i = .func) ∧ s.node i = .failed) ∧
          s.dataLock = none)
      { s with
        dataLock := some (.inl i)
        node := Function.update s.node i .adding }
  | .addUnlock i => guarded (s.node i = .adding)
      { s with
        dataLock := none
        node := Function.update s.node i .added }
  | .delLock i => guarded (s.group.worker i = .exit ∧ s.node i = .added ∧ s.dataLock = none)
      { s with
        dataLock := some (.inl i)
        node := Function.update s.node i .deleting }
  | .delUnlock i => guarded (s.node i = .deleting)
      { s with
        dataLock := none
        node := Function.update s.node i .deleted }
  | .syncLock y => guarded (s.dataLock = none) { s with dataLock := some (.inr y) }
  | .syncUnlock y => guarded (s.dataLock = some (.inr y)) { s with dataLock := none }

def Plain (cfg : Config ρ ω) (r : ρ) (s : State ρ υ κ ω σ) : Act ρ υ κ ω σ → Prop
  | .group a => ThreadGroup.Plain cfg r s.group a
  | _ => True

/-- A step forward of the call or of one of its threads, or one by which anybody gives the lock
back. -/
def Forward (cfg : Config ρ ω) (r : ρ) (s : State ρ υ κ ω σ) : Act ρ υ κ ω σ → Prop
  | .group a => ThreadGroup.Forward cfg r s.group a
  | .addFail i | .addLock i | .delLock i => i ∈ cfg.team r
  | .addUnlock _ | .delUnlock _ | .syncUnlock _ => True
  | .syncLock _ => False

variable {cfg : Config ρ ω} {r : ρ} {s t : State ρ υ κ ω σ} {a : Act ρ υ κ ω σ}

theorem Forward.plain {ρ υ κ ω σ : Type} [DecidableEq ρ] {cfg : Config ρ ω} {r : ρ}
    {s : State ρ υ κ ω σ} {a : Act ρ υ κ ω σ} (h : Forward cfg r s a) : Plain cfg r s a := by
  cases a with
  | group a => exact h.2.1
  | _ => trivial

theorem group_step {a : ThreadGroup.Act ρ υ κ ω} (hst : step cfg s (.group a) = some t) :
    passed s.node a = true ∧ ThreadGroup.step cfg s.group a = some t.group ∧
      t.dataLock = s.dataLock ∧ t.node = s.node := by
  obtain ⟨hp,hmap⟩ := Option.ite_none_right_eq_some.mp hst
  obtain ⟨g,hg,rfl⟩ := Option.map_eq_some_iff.mp hmap
  exact ⟨hp,hg,rfl,rfl⟩

theorem group_same (ha : ∀ b, a ≠ .group b) (hst : step cfg s a = some t) : t.group = s.group := by
  cases a with
  | group b => exact absurd rfl (ha b)
  | addFail i | addLock i | addUnlock i | delLock i | delUnlock i | syncLock y | syncUnlock y =>
    obtain ⟨_,rfl⟩ := guarded_eq_some.mp hst
    rfl

theorem group_reach {s₀ : State ρ υ κ ω σ} (h : Reach (step cfg) Anything s₀ s) :
    Reach (ThreadGroup.step cfg) Anything s₀.group s.group := by
  refine h.invariant (I:=fun s => Reach (ThreadGroup.step cfg) Anything s₀.group s.group) .refl ?_
  intro s a t hr _ hst
  cases a with
  | group a => exact hr.tail trivial (group_step hst).2.1
  | _ =>
    rw [group_same (by rintro b ⟨⟩) hst]
    exact hr

section Lock

/-- The thread holds `data->lock`. -/
def NodePc.holds : NodePc → Bool
  | .adding | .deleting => true
  | _ => false

/-- In every run the lock is with the thread that is in one of the two walks, and a thread that
is not created has no node. -/
structure LockInv (s : State ρ υ κ ω σ) : Prop where
  holder : ∀ i, s.dataLock = some (.inl i) ↔ (s.node i).holds = true
  fresh : ∀ i, s.group.worker i = .absent → s.node i = .fresh

theorem LockInv.init {ρ υ κ ω σ : Type} : LockInv (init ρ υ κ ω σ) :=
  ⟨fun _ => by simp [ThreadNodes.init,NodePc.holds],fun _ _ => rfl⟩

theorem LockInv.goto {ρ υ κ ω σ : Type} [DecidableEq ρ] {s : State ρ υ κ ω σ} (h : LockInv s)
    {i : Thread ρ} {pc : NodePc} {l : Option (Thread ρ ⊕ σ)}
    (hi : s.group.worker i ≠ .absent) (hown : l = some (.inl i) ↔ pc.holds = true)
    (hother : ∀ j, j ≠ i → (l = some (.inl j) ↔ s.dataLock = some (.inl j))) :
    LockInv { s with dataLock := l, node := Function.update s.node i pc } := by
  refine ⟨fun j => ?_,fun j hj => ?_⟩
  · by_cases hji : j = i
    · subst hji
      simpa only [Function.update_self] using hown
    · simpa only [Function.update_of_ne hji] using (hother j hji).trans (h.holder j)
  · have hji : j ≠ i := by
      rintro rfl
      exact hi hj
    simpa only [Function.update_of_ne hji] using h.fresh j hj

theorem LockInv.created {ρ υ κ ω σ : Type} {s : State ρ υ κ ω σ} (h : LockInv s) {i : Thread ρ}
    (hn : s.node i ≠ .fresh) : s.group.worker i ≠ .absent := fun ha => hn (h.fresh i ha)

theorem LockInv.lock {ρ υ κ ω σ : Type} [DecidableEq ρ] {s : State ρ υ κ ω σ} (h : LockInv s)
    {i : Thread ρ} {pc : NodePc} (hl : s.dataLock = none)
    (hi : s.group.worker i ≠ .absent) (hpc : pc.holds = true) :
    LockInv (σ:=σ)
      { s with dataLock := some (.inl i), node := Function.update s.node i pc } :=
  h.goto hi (by simp [hpc]) fun j hj => by simp [hl,Ne.symm hj]

theorem LockInv.unlock {ρ υ κ ω σ : Type} [DecidableEq ρ] {s : State ρ υ κ ω σ} (h : LockInv s)
    {i : Thread ρ} {pc : NodePc} (hn : (s.node i).holds = true) (hpc : pc.holds = false) :
    LockInv (σ:=σ) { s with dataLock := none, node := Function.update s.node i pc } := by
  have hl := (h.holder i).mpr hn
  refine h.goto (h.created ?_) (by simp [hpc]) fun j hj => by simp [hl,Ne.symm hj]
  intro hf
  rw [hf] at hn
  cases hn

theorem LockInv.step (h : LockInv s) (hst : ThreadNodes.step cfg s a = some t) : LockInv t := by
  cases a with
  | group a =>
    obtain ⟨_,hg,hl,hn⟩ := group_step hst
    refine ⟨by rw [hl,hn]; exact h.holder,fun i hi => ?_⟩
    rw [hn]
    exact h.fresh i (absent_of_step hg hi)
  | addFail i =>
    obtain ⟨⟨hw,hn⟩,rfl⟩ := guarded_eq_some.mp hst
    refine h.goto (by simp [hw]) ?_ fun _ _ => Iff.rfl
    rw [h.holder,hn]
    rfl
  | addLock i =>
    obtain ⟨⟨⟨hw,_⟩ | ⟨hw | hw,_⟩,hl⟩,rfl⟩ := guarded_eq_some.mp hst <;>
      exact h.lock hl (by simp [hw]) rfl
  | delLock i =>
    obtain ⟨⟨hw,_,hl⟩,rfl⟩ := guarded_eq_some.mp hst
    exact h.lock hl (by simp [hw]) rfl
  | addUnlock i =>
    obtain ⟨hn,rfl⟩ := guarded_eq_some.mp hst
    exact h.unlock (by rw [hn]; rfl) rfl
  | delUnlock i =>
    obtain ⟨hn,rfl⟩ := guarded_eq_some.mp hst
    exact h.unlock (by rw [hn]; rfl) rfl
  | syncLock y =>
    obtain ⟨hl,rfl⟩ := guarded_eq_some.mp hst
    exact ⟨fun i => by simp [← h.holder i,hl],h.fresh⟩
  | syncUnlock y =>
    obtain ⟨hl,rfl⟩ := guarded_eq_some.mp hst
    exact ⟨fun i => by simp [← h.holder i,hl],h.fresh⟩

end Lock

section Place

/-- The points of a thread at which its node may be so. -/
def NodePc.fits : NodePc → WorkerPc ρ → Prop
  | .fresh, pc => pc = .absent ∨ pc = .start
  | .adding, pc => pc = .start ∨ pc = .init ∨ pc = .func
  | .added, pc => pc ≠ .absent ∧ pc ≠ .exiting ∧ pc ≠ .exited
  | .deleting, pc => pc = .exit
  | .deleted, pc => pc = .exit ∨ pc = .exiting ∨ pc = .exited
  | .failed, pc => pc ≠ .absent

/-- From the first instruction of `init` to the last of `func`. -/
def WorkerPc.running : WorkerPc ρ → Bool
  | .absent | .start | .exit | .exiting | .exited => false
  | _ => true

theorem NodePc.fits_running {ρ : Type} {n : NodePc} {pc pc' : WorkerPc ρ} (h : n.fits pc)
    (hn : n ≠ .adding) (hpc : WorkerPc.running pc = true)
    (hpc' : WorkerPc.running pc' = true ∨ pc' = .exit) : n.fits pc' := by
  cases n with
  | added =>
    refine ⟨?_,?_,?_⟩ <;> rintro rfl <;> simp [WorkerPc.running] at hpc'
  | failed => rintro rfl; simp [WorkerPc.running] at hpc'
  | fresh => rcases h with h | h <;> rw [h] at hpc <;> cases hpc
  | adding => exact absurd rfl hn
  | deleting => rw [show pc = .exit from h] at hpc; cases hpc
  | deleted => rcases h with h | h | h <;> rw [h] at hpc <;> cases hpc

theorem fits_step {g g' : ThreadGroup.State ρ υ κ ω} {a : ThreadGroup.Act ρ υ κ ω} {i : Thread ρ}
    {node : Thread ρ → NodePc} (h : (node i).fits (g.worker i)) (hp : passed node a = true)
    (hst : ThreadGroup.step cfg g a = some g')
    (hnew : ∀ q k j rest, a = .create q k j rest → i = ⟨q,k,j⟩ → g.worker i = .absent) :
    (node i).fits (g'.worker i) := by
  have hmove : ∀ {pc : WorkerPc ρ} {j : Thread ρ}, (i = j → (node i).fits pc) →
      (node i).fits (Function.update g.worker j pc i) := by
    intro pc j hpc
    by_cases hij : i = j
    · subst hij
      rw [Function.update_self]
      exact hpc rfl
    · rwa [Function.update_of_ne hij]
  -- between `init` and `func` the node stays what it is
  have hrun : ∀ {pc : WorkerPc ρ} {j : Thread ρ}, (i = j → node i ≠ .adding) →
      WorkerPc.running (g.worker j) = true → (WorkerPc.running pc = true ∨ pc = .exit) →
      (node i).fits (Function.update g.worker j pc i) := fun hne hj hpc =>
    hmove fun hij => NodePc.fits_running h (hne hij) (hij ▸ hj) hpc
  have hout : ∀ {j : Thread ρ}, g.worker j ≠ .start → g.worker j ≠ .init → g.worker j ≠ .func →
      i = j → node i ≠ .adding := by
    rintro j hs hi hf rfl ha
    rw [ha] at h
    rcases h with h | h | h
    · exact hs h
    · exact hi h
    · exact hf h
  cases a with
  | create q k j rest =>
    obtain ⟨_,rfl⟩ := guarded_eq_some.mp hst
    refine hmove fun hi => ?_
    rw [hnew q k j rest rfl hi] at h
    cases hn : node i <;> simp [hn,NodePc.fits] at h ⊢
  | threadInit j =>
    obtain ⟨hpc,rfl⟩ := guarded_eq_some.mp hst
    refine hmove fun hi => ?_
    subst hi
    have hn : node i = .added ∨ node i = .failed := by simpa [passed] using hp
    rcases hn with hn | hn <;> rw [hn] <;> split <;> simp [NodePc.fits]
  | cleanup j =>
    obtain ⟨hpc,rfl⟩ := guarded_eq_some.mp hst
    refine hmove fun hi => ?_
    subst hi
    have hn : node i = .deleted ∨ node i = .failed := by simpa [passed] using hp
    rcases hn with hn | hn <;> rw [hn] <;> simp [NodePc.fits]
  | pthreadExit j =>
    obtain ⟨hpc,rfl⟩ := guarded_eq_some.mp hst
    refine hmove fun hi => ?_
    subst hi
    rw [hpc] at h
    cases hn : node i <;> simp [hn,NodePc.fits] at h ⊢
  | testObject j | callFunc j =>
    obtain ⟨hpc,rfl⟩ := guarded_eq_some.mp hst
    refine hrun (hout (by simp [hpc]) (by simp [hpc]) (by simp [hpc])) (by rw [hpc]; rfl) ?_
    split <;> simp [WorkerPc.running]
  | initReturn j | funcReturn j =>
    obtain ⟨⟨hpc,_⟩,rfl⟩ := guarded_eq_some.mp hst
    refine hrun (fun hij => ?_) (by rw [hpc]; rfl) (by simp [WorkerPc.running])
    subst hij
    simpa [passed] using hp
  | argBarrier j o | argCount j o o' | barrierReturn j o =>
    obtain ⟨⟨hpc,_⟩,rfl⟩ := guarded_eq_some.mp hst
    exact hrun (hout (by simp [hpc]) (by simp [hpc]) (by simp [hpc])) (by rw [hpc]; rfl)
      (by simp [WorkerPc.running])
  | callBarrier j o n =>
    obtain ⟨hpc,hmap⟩ := Option.ite_none_right_eq_some.mp hst
    obtain ⟨b,_,rfl⟩ := Option.map_eq_some_iff.mp hmap
    exact hrun (hout (by simp [hpc]) (by simp [hpc]) (by simp [hpc])) (by rw [hpc]; rfl) (.inl rfl)
  | barrier j o e | userBarrier j u e =>
    obtain ⟨_,hmap⟩ := Option.ite_none_right_eq_some.mp hst
    obtain ⟨b,_,rfl⟩ := Option.map_eq_some_iff.mp hmap
    exact h
  | joinPut k g p rest | waitPut k g p rest =>
    obtain ⟨_,hmap⟩ := Option.ite_none_right_eq_some.mp hst
    obtain ⟨⟨u,q⟩,hput,rfl⟩ := Option.map_eq_some_iff.mp hmap
    obtain ⟨_,_,_,rfl,_⟩ := put_eq hput
    exact h
  | scan k g rest =>
    obtain ⟨_,ht⟩ := guarded_eq_some.mp hst
    split at ht <;> subst ht <;> exact h
  | _ =>
    obtain ⟨_,rfl⟩ := guarded_eq_some.mp hst
    exact h

/-- Where the threads of a call are with their nodes. -/
def Placed (cfg : Config ρ ω) (r : ρ) (s : State ρ υ κ ω σ) : Prop :=
  ∀ i ∈ cfg.team r, (s.node i).fits (s.group.worker i)

theorem Placed.step (h : Placed cfg r s) (ho : Outside cfg r s.group)
    (hst : ThreadNodes.step cfg s a = some t) : Placed cfg r t := by
  intro i hi
  have hfits := h i hi
  have hmove : ∀ {pc : NodePc} {j : Thread ρ}, (i = j → pc.fits (s.group.worker i)) →
      (Function.update s.node j pc i).fits (s.group.worker i) := by
    intro pc j hpc
    by_cases hij : i = j
    · subst hij
      rw [Function.update_self]
      exact hpc rfl
    · rwa [Function.update_of_ne hij]
  cases a with
  | group a =>
    obtain ⟨hp,hg,_,hn⟩ := group_step hst
    rw [hn]
    refine fits_step hfits hp hg fun q k j rest ha he => ?_
    subst ha he
    exact ho.absent_of_create hi hg
  | addFail j =>
    obtain ⟨⟨hw,_⟩,rfl⟩ := guarded_eq_some.mp hst
    exact hmove fun hij => by subst hij; simp [NodePc.fits,hw]
  | addLock j =>
    obtain ⟨⟨hw,_⟩,rfl⟩ := guarded_eq_some.mp hst
    refine hmove fun hij => ?_
    subst hij
    exact hw.imp And.left And.left
  | delLock j =>
    obtain ⟨⟨hw,_⟩,rfl⟩ := guarded_eq_some.mp hst
    exact hmove fun hij => by subst hij; exact hw
  | addUnlock j =>
    obtain ⟨hn,rfl⟩ := guarded_eq_some.mp hst
    refine hmove fun hij => ?_
    subst hij
    rw [hn] at hfits
    rcases hfits with hw | hw | hw <;> simp [NodePc.fits,hw]
  | delUnlock j =>
    obtain ⟨hn,rfl⟩ := guarded_eq_some.mp hst
    refine hmove fun hij => ?_
    subst hij
    rw [hn] at hfits
    exact .inl hfits
  | syncLock y | syncUnlock y =>
    obtain ⟨_,rfl⟩ := guarded_eq_some.mp hst
    exact hfits

end Place

section Cost

/-- The steps of a thread with its node; taking the lock is one with giving it back. A thread
without a node may still register. -/
def NodePc.cost : NodePc → ℕ
  | .fresh => 7
  | .failed => 6
  | .adding => 4
  | .added => 3
  | .deleting => 1
  | .deleted => 0

def State.nodes (s : State ρ υ κ ω σ) (team : Finset (Thread ρ)) : ℕ :=
  ∑ i ∈ team, (s.node i).cost

def cost (cfg : Config ρ ω) (r : ρ) (s : State ρ υ κ ω σ) : ℕ :=
  ThreadGroup.cost cfg r s.group+(s.nodes (cfg.team r)+if s.dataLock = none then 0 else 1)

theorem nodes_update {team : Finset (Thread ρ)} {node : Thread ρ → NodePc} {i : Thread ρ}
    {n : NodePc} (pc : NodePc) (k : ℕ) (hi : i ∈ team) (hn : node i = n)
    (hpc : pc.cost+k ≤ n.cost) :
    ∑ j ∈ team, (Function.update node i pc j).cost+k ≤ ∑ j ∈ team, (node j).cost := by
  have hrest : ∑ j ∈ team.erase i, (Function.update node i pc j).cost =
      ∑ j ∈ team.erase i, (node j).cost :=
    Finset.sum_congr rfl fun j hj => by rw [Function.update_of_ne (Finset.ne_of_mem_erase hj)]
  rw [← Finset.add_sum_erase team _ hi,← Finset.add_sum_erase team (fun j => (node j).cost) hi,
    Function.update_self,hrest,hn]
  omega

theorem nodes_le (team : Finset (Thread ρ)) {node : Thread ρ → NodePc} {i : Thread ρ}
    {n : NodePc} (pc : NodePc) (hn : node i = n) (hpc : pc.cost ≤ n.cost) :
    ∑ j ∈ team, (Function.update node i pc j).cost ≤ ∑ j ∈ team, (node j).cost := by
  refine Finset.sum_le_sum fun j _ => ?_
  by_cases hj : j = i
  · subst hj
    rwa [Function.update_self,hn]
  · rw [Function.update_of_ne hj]

theorem cost_step (h : LockInv s)
    (hgroup : ∀ b g, ThreadGroup.Forward cfg r s.group b →
      ThreadGroup.step cfg s.group b = some g →
      ThreadGroup.cost cfg r g < ThreadGroup.cost cfg r s.group)
    (hok : Forward cfg r s a) (hst : step cfg s a = some t) : cost cfg r t < cost cfg r s := by
  cases a with
  | group b =>
    obtain ⟨_,hg,hl,hn⟩ := group_step hst
    rw [cost,cost,State.nodes,State.nodes,hl,hn]
    exact Nat.add_lt_add_right (hgroup b _ hok hg) _
  | addFail i =>
    obtain ⟨⟨_,hn⟩,rfl⟩ := guarded_eq_some.mp hst
    have hle := nodes_update .failed 1 hok hn (by simp [NodePc.cost])
    simp only [cost,State.nodes]
    omega
  | addLock i =>
    obtain ⟨⟨⟨_,hn⟩ | ⟨_,hn⟩,hl⟩,rfl⟩ := guarded_eq_some.mp hst <;>
      have hle := nodes_update .adding 2 hok hn (by simp [NodePc.cost]) <;>
      simp only [cost,State.nodes,hl,if_true,reduceCtorEq,if_false] <;>
      omega
  | delLock i =>
    obtain ⟨⟨_,hn,hl⟩,rfl⟩ := guarded_eq_some.mp hst
    have hle := nodes_update .deleting 2 hok hn (by simp [NodePc.cost])
    simp only [cost,State.nodes,hl,if_true,reduceCtorEq,if_false]
    omega
  | addUnlock i =>
    obtain ⟨hn,rfl⟩ := guarded_eq_some.mp hst
    have hl := (h.holder i).mpr (by rw [hn]; rfl)
    have hle := nodes_le (cfg.team r) .added hn (by simp [NodePc.cost])
    simp only [cost,State.nodes,hl,if_true,reduceCtorEq,if_false]
    omega
  | delUnlock i =>
    obtain ⟨hn,rfl⟩ := guarded_eq_some.mp hst
    have hl := (h.holder i).mpr (by rw [hn]; rfl)
    have hle := nodes_le (cfg.team r) .deleted hn (by simp [NodePc.cost])
    simp only [cost,State.nodes,hl,if_true,reduceCtorEq,if_false]
    omega
  | syncLock y => exact hok.elim
  | syncUnlock y =>
    obtain ⟨hl,rfl⟩ := guarded_eq_some.mp hst
    simp [cost,State.nodes,hl]

end Cost

section Stop

theorem LockInv.free (h : LockInv s)
    (hstop : ∀ a, Forward cfg r s a → ThreadNodes.step cfg s a = none) : s.dataLock = none := by
  match hl : s.dataLock with
  | none => rfl
  | some (.inr y) =>
    have := hstop (.syncUnlock y) trivial
    simp [ThreadNodes.step,hl] at this
  | some (.inl i) =>
    have hn := (h.holder i).mp hl
    have hadd := hstop (.addUnlock i) trivial
    have hdel := hstop (.delUnlock i) trivial
    cases hpc : s.node i <;> simp [ThreadNodes.step,hpc,NodePc.holds] at hn hadd hdel

theorem stopped (h : LockInv s) (hp : Placed cfg r s)
    (hstop : ∀ a, Forward cfg r s a → step cfg s a = none) (b : ThreadGroup.Act ρ υ κ ω)
    (hb : ThreadGroup.Forward cfg r s.group b) : ThreadGroup.step cfg s.group b = none := by
  have hfree := h.free hstop
  have hteam : ∀ i, b.worker = some i → i ∈ cfg.team r := by
    intro i hi
    rcases hb.1 with hc | ⟨j,hj,hw⟩
    · cases b <;> cases hc <;> cases hi
    · obtain rfl := Option.some.inj (hi.symm.trans hw)
      exact hj
  have hpass : ThreadGroup.step cfg s.group b ≠ none → passed s.node b = true := by
    intro hne
    obtain ⟨g,hg⟩ := Option.ne_none_iff_exists'.mp hne
    cases b with
    | threadInit i =>
      obtain ⟨hw,_⟩ := guarded_eq_some.mp hg
      have hi := hteam i rfl
      have hfits := hp i hi
      have hlock := hstop (.addLock i) hi
      have hunlock := hstop (.addUnlock i) trivial
      rw [hw] at hfits
      cases hn : s.node i <;>
        simp [hn,hw,hfree,NodePc.fits,step,passed] at hfits hlock hunlock ⊢
    | cleanup i =>
      obtain ⟨hw,_⟩ := guarded_eq_some.mp hg
      have hi := hteam i rfl
      have hfits := hp i hi
      have hlock := hstop (.delLock i) hi
      have hunlock := hstop (.delUnlock i) trivial
      rw [hw] at hfits
      cases hn : s.node i <;>
        simp [hn,hw,hfree,NodePc.fits,step,passed] at hfits hlock hunlock ⊢
    | initReturn i | funcReturn i | userBarrier i u e =>
      have hunlock := hstop (.addUnlock i) trivial
      cases hn : s.node i <;> simp [hn,step,passed] at hunlock ⊢
    | _ => rfl
  by_contra hne
  have := hstop (.group b) hb
  simp [step,hpass hne,hne] at this

end Stop

section Returns

variable {before : Thread ρ → ℕ} {n : ℕ} {calls : Thread ρ → ℕ}

structure RunInv (cfg : Config ρ ω) (r : ρ) (before : Thread ρ → ℕ) (n : ℕ)
    (calls : Thread ρ → ℕ) (s : State ρ υ κ ω σ) : Prop where
  locks : LockInv s
  placed : Placed cfg r s
  returns : ReturnInv cfg r before n calls s.group

theorem RunInv.step (h : RunInv cfg r before n calls s) (hnd : (cfg.groups r).Nodup)
    (hpos : ∀ g ∈ cfg.groups r, 0 < (cfg.nr g).toNat) (hsync : cfg.isAsync r = false)
    (htotal : (cfg.total r).toNat = (cfg.team r).card) (hmax : (cfg.team r).card < 2^31)
    (hcalls : ∀ i ∈ cfg.team r, calls i = 0) (hok : Plain cfg r s a)
    (hst : ThreadNodes.step cfg s a = some t) : RunInv cfg r before n calls t where
  locks := h.locks.step hst
  placed := h.placed.step h.returns.join.outside hst
  returns := by
    cases a with
    | group a => exact h.returns.step hnd hpos hsync htotal hmax hcalls hok (group_step hst).2.1
    | _ =>
      rw [group_same (by rintro b ⟨⟩) hst]
      exact h.returns

theorem called_step (h : s.group.runner r ≠ .idle) (hst : step cfg s a = some t) :
    t.group.runner r ≠ .idle := by
  cases a with
  | group a => exact ThreadGroup.called_step h (group_step hst).2.1
  | _ => rwa [group_same (by rintro b ⟨⟩) hst]

theorem RunInv.done (h : RunInv cfg r before n calls s) (hidle : s.group.runner r ≠ .idle)
    (hstop : ∀ a, Forward cfg r s a → ThreadNodes.step cfg s a = none) :
    s.group.runner r = .done ∧ Returned cfg r before s.group ∧
      ∀ i ∈ cfg.team r, s.node i = .deleted ∨ s.node i = .failed := by
  have hd := h.returns.done hidle (stopped h.locks h.placed hstop)
  have hret := h.returns.join.returned hd
  refine ⟨hd,hret,fun i hi => ?_⟩
  have hfits := h.placed i hi
  rw [hret.exited i hi] at hfits
  cases hn : s.node i <;> simp [hn,NodePc.fits] at hfits ⊢

end Returns

end

/-- A synchronous run whose `init` and `func` use no barrier returns, however its steps and
those of its threads are ordered, once no new grace period takes the lock of the nodes: from
every state after its call they come to an end, and the end is the return of the call, with its
threads gone and joined and their nodes deleted. -/
theorem settles_of_run {ρ υ κ ω σ : Type} [DecidableEq ρ] [DecidableEq υ] [DecidableEq κ]
    [DecidableEq ω] [DecidableEq σ] {cfg : Config ρ ω} {r : ρ} {s₀ s : State ρ υ κ ω σ}
    (hnd : (cfg.groups r).Nodup) (hpos : ∀ g ∈ cfg.groups r, 0 < (cfg.nr g).toNat)
    (hmax : ((cfg.groups r).map fun g => (cfg.nr g).toNat).sum ≤ 2^31-1)
    (hsync : cfg.isAsync r = false) (hinit : Reach (step cfg) Anything (init ρ υ κ ω σ) s₀)
    (hready : Ready cfg r s₀.group) (hu : Undisturbed cfg r s₀.group)
    (h : Reach (step cfg) (Plain cfg r) s₀ s) (hcall : s.group.runner r ≠ .idle) :
    Settles (step cfg) (Forward cfg r)
      (fun t => t.group.runner r = .done ∧ Returned cfg r s₀.group.joined t.group ∧
        ∀ i ∈ cfg.team r, t.node i = .deleted ∨ t.node i = .failed) s := by
  have hcard : (cfg.team r).card < 2^31 := by
    rw [Config.card_team hnd]
    omega
  have htotal := Config.total_eq hnd (by omega : (cfg.team r).card < 2^64)
  have hgroup : Reach (ThreadGroup.step cfg) Anything (ThreadGroup.init ρ υ κ ω) s₀.group :=
    group_reach hinit
  obtain ⟨hreturns,hcalls⟩ := ReturnInv.of_ready hgroup hready hu
  have hlocks : LockInv s₀ := hinit.invariant (I:=LockInv) .init fun _ _ _ hi _ hst => hi.step hst
  have hplaced : Placed cfg r s₀ := fun i hi => by
    have hw := (hready.threads i (Config.mem_team.mp hi).1).1
    rw [hlocks.fresh i hw,hw]
    exact .inl rfl
  have hstep : ∀ (t : State ρ υ κ ω σ) a u,
      RunInv cfg r s₀.group.joined (s₀.group.freed r) s₀.group.bars.calls t → Plain cfg r t a →
      step cfg t a = some u →
      RunInv cfg r s₀.group.joined (s₀.group.freed r) s₀.group.bars.calls u :=
    fun _ _ _ hi hok hst => hi.step hnd hpos hsync htotal hcard hcalls hok hst
  apply Settles.of_measure (I:=fun s => s.group.runner r ≠ .idle ∧
    RunInv cfg r s₀.group.joined (s₀.group.freed r) s₀.group.bars.calls s) (cost cfg r)
    ⟨hcall,h.invariant ⟨hlocks,hplaced,hreturns⟩ hstep⟩
  · rintro t a u ⟨hc,hi⟩ hok hst
    refine ⟨⟨called_step hc hst,hstep t a u hi hok.plain hst⟩,cost_step hi.locks ?_ hok hst⟩
    exact fun b g hb hg => hi.returns.cost_step hc hsync hb hg
  · rintro t ⟨hc,hi⟩ hstop
    exact hi.done hc hstop

/-- The first thread is at the barrier when a grace period takes the lock, which the second one
needs for its node. -/
def lockedRun : List (Act Unit Empty Unit Unit Unit) := List.flatten
  [[.group (.runCall ()),.group (.runBegin ()),.group (.prepare () pair₁ [pair₂]),
      .group (.publish () pair₁ [pair₂]),.group (.create () pair₁ 0 [pair₂]),.addLock first,
      .group (.created () pair₁ 1 [pair₂]),.addUnlock first],
    (toBarrier first).map .group,
    [.group (.prepare () pair₂ []),.group (.publish () pair₂ []),.group (.create () pair₂ 0 []),
      .syncLock ()]]

theorem settles_of_lockedRun : ∃ s, Reach (step clusterConfig) (Plain clusterConfig ())
    (init Unit Empty Unit Unit Unit) s ∧ s.group.worker first = .inBarrier () ∧
    s.group.worker second = .start ∧ s.dataLock = some (.inr ()) ∧
    Settles (step clusterConfig) (Forward clusterConfig ())
      (fun t => t.group.runner () = .done ∧ Returned clusterConfig () (fun _ => 0) t.group ∧
        ∀ i ∈ clusterConfig.team (), t.node i = .deleted ∨ t.node i = .failed) s := by
  have hs : ∃ s, exec (step clusterConfig) (init Unit Empty Unit Unit Unit) lockedRun = some s ∧
      s.group.worker first = .inBarrier () ∧ s.group.worker second = .start ∧
      s.dataLock = some (.inr ()) ∧ s.group.runner () ≠ .idle := ⟨_,rfl,rfl,rfl,rfl,by decide⟩
  obtain ⟨s,hs,hf,hsec,hl,hcall⟩ := hs
  have hreach : Reach (step clusterConfig) (Plain clusterConfig ())
      (init Unit Empty Unit Unit Unit) s := (reach_of_exec hs).mono fun _ a _ => by
    cases a with
    | group a => exact ⟨by cases a <;> simp [Alone],fun _ u => u.elim⟩
    | _ => trivial
  have hu : Undisturbed clusterConfig () (init Unit Empty Unit Unit Unit).group := fun q hq =>
    absurd (Subsingleton.elim q ()) hq
  exact ⟨s,hreach,hf,hsec,hl,settles_of_run (by decide) (by decide) (by decide) rfl .refl
    (init_ready _ _) hu hreach hcall⟩

end ThreadNodes
end Mthpc
