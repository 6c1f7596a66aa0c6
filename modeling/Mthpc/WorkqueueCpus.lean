import Mthpc.WorkqueuePools

/-!
# One workqueue for each cpu

`mthpc_wq_set_cpu` and the fast path take the cpu modulo the number of cpus, the second
lookup under the lock of the pool compares it as it was given. A workqueue is published for
a cpu that has one exactly when the two differ at that step.
-/
namespace Mthpc
namespace Workqueue

open StepSystem Links

variable {ι W : Type} [DecidableEq ι] [DecidableEq W]

/-- The list of a pool as a walk from its head finds it. -/
def State.wqs (s : State ι W) (p : Wp) : List (Node W) :=
  (ListHead.forEach s.links (.pool p) (s.nextWq + 1) (s.links.next (.pool p))).getD []

/-- Whenever the lock of a pool is free, its workqueues have different cpus. -/
def OneEachCpu (s : State ι W) : Prop := ∀ p, s.lock p = none → ∃ qs : List ℕ,
  Seg s.links (.pool p) (qs.map .queue) (.pool p) ∧ (qs.map s.cpuOf).Nodup ∧
    qs.length ≤ nrCpu.toNat

def NormalAt (s : State ι W) : Pc W → Prop
  | .publish c _ => c.cpu &&& cpuMask = c.cpu ∨
    ∀ q < s.nextWq, Node.queue q ∈ s.wqs c.wp → s.cpuOf q ≠ c.cpu &&& cpuMask
  | _ => True

instance (s : State ι W) : ∀ p, Decidable (NormalAt s p)
  | .publish c _ => inferInstanceAs (Decidable (c.cpu &&& cpuMask = c.cpu ∨
      ∀ q < s.nextWq, Node.queue q ∈ s.wqs c.wp → s.cpuOf q ≠ c.cpu &&& cpuMask))
  | .idle | .init _ | .enter _ | .first _ | .walk _ _ | .lock _ _ _ | .add _ _ _
  | .unlock _ _ _ | .leave _ _ | .alloc _ | .setCpu _ _ | .addPre _ _ | .lockPool _ _
  | .recheck _ _ _ | .unlockPool _ _ _ | .create _ | .drop _ _ | .store _ | .wake _ =>
    inferInstanceAs (Decidable True)

/-- A call that publishes its workqueue was given a cpu in the range of the pool, or no
workqueue of the pool is on the cpu that its own one got. -/
def Normal (s : State ι W) : Act ι W → Prop
  | .go a _ _ => NormalAt s (s.pc a)
  | _ => True

instance (s : State ι W) : ∀ act, Decidable (Normal s act)
  | .go a _ _ => inferInstanceAs (Decidable (NormalAt s (s.pc a)))
  | .call _ _ | .work _ | .exit | .join => inferInstanceAs (Decidable True)

section Words

theorem getCpu_clearActive (x : Word) : getCpu (clearActive x) = getCpu x := by
  simp only [getCpu,clearActive,cpuMask,nrCpu,activedFlag]
  ext i hi
  simp only [BitVec.getElem_and,BitVec.getElem_not]
  interval_cases i <;> simp

theorem getCpu_setCpu (x cpu : Word) : getCpu (setCpu x cpu) = cpu &&& cpuMask := by
  simp only [getCpu,setCpu]
  ext i hi
  simp only [BitVec.getElem_and,BitVec.getElem_or,BitVec.getElem_not]
  cases x[i] <;> cases cpu[i] <;> cases cpuMask[i] <;> rfl

theorem getCpu_lt (x : Word) : (getCpu x).toNat < nrCpu.toNat := by
  have hle : (x &&& cpuMask).toNat ≤ cpuMask.toNat := by
    rw [BitVec.toNat_and]
    exact Nat.and_le_right
  exact lt_of_le_of_lt hle (by decide)

end Words

def CpuOk (cpu : ℕ → Word) (qs : Wp → List ℕ) : Pc W → Prop
  | .addPre c pre | .lockPool c pre => cpu pre = c.cpu &&& cpuMask
  | .recheck c pre pos => cpu pre = c.cpu &&& cpuMask ∧ ∃ xs ys, qs c.wp = xs ++ ys ∧
    (∀ q ∈ xs, cpu q ≠ c.cpu) ∧ pos = (ys.map .queue).headD (.pool c.wp)
  | .publish c pre => cpu pre = c.cpu &&& cpuMask ∧ ∀ q ∈ qs c.wp, cpu q ≠ c.cpu
  | _ => True

structure CpuInv (s : State ι W) (qs : Wp → List ℕ) : Prop where
  nodup : ∀ p, ((qs p).map s.cpuOf).Nodup
  call : ∀ a, CpuOk s.cpuOf qs (s.pc a)

section Steps

variable {s s' : State ι W} {qs qs' : Wp → List ℕ} {fs : List ℕ} {a : Actor ι} {p : Pc W} {q : ℕ}
  {cpu cpu' : ℕ → Word} {act : Act ι W}

theorem update_cpu {ι W : Type} {s : State ι W} {q : ℕ} {r : Wq ι}
    (hr : getCpu r.activedCpu = s.cpuOf q) (n : ℕ) :
    getCpu (Function.update s.wq q r n).activedCpu = s.cpuOf n := by
  by_cases hn : n = q
  · rw [hn,Function.update_self,hr]
  · rw [Function.update_of_ne hn]
    rfl

theorem cpuOf_addLocked {ι W : Type} [DecidableEq W] {s : State ι W} (q : ℕ) (w : W) :
    (addLocked s q w).cpuOf = s.cpuOf :=
  funext (update_cpu rfl)

theorem cpuOf_setWqLock {ι W : Type} {s : State ι W} (q : ℕ) (b : Option (Actor ι)) :
    (s.setWqLock q b).cpuOf = s.cpuOf :=
  funext (update_cpu rfl)

theorem cpuOf_futex {ι W : Type} {s : State ι W} (q : ℕ) (v : Word) :
    (s.setWq q { s.wq q with futex := v }).cpuOf = s.cpuOf :=
  funext (update_cpu rfl)

theorem cpuOf_setWq_of_ne {ι W : Type} {s : State ι W} {q : ℕ} {r : Wq ι} {n : ℕ} (hn : n ≠ q) :
    (s.setWq q r).cpuOf n = s.cpuOf n :=
  congrArg (fun r : Wq ι => getCpu r.activedCpu) (Function.update_of_ne hn _ _)

theorem cpuOf_alloc {ι W : Type} [DecidableEq W] {s : State ι W} {mem : Word} {n : ℕ}
    (hn : n ≠ s.nextWq) :
    (allocWorkqueue s mem).cpuOf n = s.cpuOf n :=
  congrArg (fun r : Wq ι => getCpu r.activedCpu) (Function.update_of_ne hn _ _)

theorem CpuOk.keeps {W : Type} {qs qs' : Wp → List ℕ} {p : Pc W} {cpu cpu' : ℕ → Word}
    (h : CpuOk cpu qs p) (hown : ∀ q, p.owned = some q → (∀ c, p ≠ .setCpu c q) → cpu' q = cpu q)
    (hlist : ∀ w, p.holdsPool = some w → qs' w = qs w ∧ ∀ q ∈ qs w, cpu' q = cpu q) :
    CpuOk cpu' qs' p := by
  cases p with
  | addPre c pre | lockPool c pre => exact (hown pre rfl nofun).trans h
  | recheck c pre pos =>
    obtain ⟨hcpu,xs,ys,hxy,hne,hpos⟩ := h
    obtain ⟨hq,hc⟩ := hlist c.wp rfl
    refine ⟨(hown pre rfl (by rintro _ ⟨⟩)).trans hcpu,xs,ys,hq.trans hxy,fun q hx => ?_,hpos⟩
    rw [hc q (hxy ▸ List.mem_append_left _ hx)]
    exact hne q hx
  | publish c pre =>
    obtain ⟨hq,hc⟩ := hlist c.wp rfl
    refine ⟨(hown pre rfl (by rintro _ ⟨⟩)).trans h.1,fun q hm => ?_⟩
    rw [hq] at hm
    rw [hc q hm]
    exact h.2 q hm
  | _ => trivial

theorem CpuInv.goto {ι W : Type} [DecidableEq ι] {s s' : State ι W} {qs : Wp → List ℕ} {a : Actor ι}
    {p : Pc W} (h : CpuInv s qs) (hpc : s'.pc = Function.update s.pc a p)
    (hlinked : ∀ w, ∀ q ∈ qs w, s'.cpuOf q = s.cpuOf q)
    (hown : ∀ b q, b ≠ a → (s.pc b).owned = some q → s'.cpuOf q = s.cpuOf q)
    (hok : CpuOk s'.cpuOf qs p) : CpuInv s' qs where
  nodup w := by
    rw [List.map_congr_left (hlinked w)]
    exact h.nodup w
  call b := by
    rw [hpc]
    by_cases hb : b = a
    · rw [hb,Function.update_self]
      exact hok
    · rw [Function.update_of_ne hb]
      exact (h.call b).keeps (fun q hq _ => hown b q hb hq) fun w _ => ⟨rfl,hlinked w⟩

theorem CpuInv.step_of_eq {ι W : Type} [DecidableEq ι] {s s' : State ι W} {qs : Wp → List ℕ}
    {a : Actor ι} {p : Pc W} (h : CpuInv s qs) (hcpu : s'.cpuOf = s.cpuOf)
    (hpc : s'.pc = Function.update s.pc a p) (hok : CpuOk s.cpuOf qs p) : CpuInv s' qs :=
  h.goto hpc (fun _ _ _ => by rw [hcpu]) (fun _ _ _ _ => by rw [hcpu]) (hcpu ▸ hok)

theorem CpuInv.other {ι W : Type} {s s' : State ι W} {qs : Wp → List ℕ} (h : CpuInv s qs)
    (hcpu : s'.cpuOf = s.cpuOf) (hpc : s'.pc = s.pc) :
    CpuInv s' qs where
  nodup := by
    rw [hcpu]
    exact h.nodup
  call b := by
    rw [hcpu,hpc]
    exact h.call b

theorem PoolInv.wqs_eq (h : PoolInv s qs fs) (w : Wp) : s.wqs w = (qs w).map .queue := by
  have hlen := h.length_le w
  rw [State.wqs,ListHead.forEach_eq (h.ring w) pool_notMem (by rw [List.length_map]; omega)]
  rfl

theorem CpuInv.publish {c : Call W} {pre : ℕ} (h : CpuInv s qs) (hi : PoolInv s qs fs)
    (ha : a ≠ .joiner) (hp : s.pc a = .publish c pre) (hok : NormalAt s (.publish c pre))
    (hcpu : s'.cpuOf = s.cpuOf) (hpc : s'.pc = Function.update s.pc a (.unlockPool c none pre)) :
    CpuInv s' (Function.update qs c.wp (qs c.wp ++ [pre])) where
  nodup w := by
    rw [hcpu]
    by_cases hw : w = c.wp
    · subst hw
      have hcall := h.call a
      rw [hp] at hcall
      have hne : ∀ q ∈ qs c.wp, s.cpuOf q ≠ s.cpuOf pre := by
        intro q hq
        rw [hcall.1]
        cases hok with
        | inl he =>
          rw [he]
          exact hcall.2 q hq
        | inr hn => exact hn q (hi.linked_lt hq) (by rw [hi.wqs_eq]; exact queue_mem.mpr hq)
      rw [Function.update_self,List.map_append,List.nodup_append]
      refine ⟨h.nodup _,by simp,fun x hx y hy he => ?_⟩
      obtain ⟨q,hq,rfl⟩ := List.mem_map.mp hx
      exact hne q hq (by simpa [he] using hy)
    · rw [Function.update_of_ne hw]
      exact h.nodup w
  call b := by
    rw [hcpu,hpc]
    by_cases hb : b = a
    · rw [hb,Function.update_self]
      trivial
    · rw [Function.update_of_ne hb]
      refine (h.call b).keeps (fun _ _ _ => rfl) fun w hw =>
        ⟨Function.update_of_ne ?_ _ _,fun _ _ => rfl⟩
      rintro rfl
      by_cases hbj : b = .joiner
      · rw [hbj,hi.joiner] at hw
        cases hw
      · have hb' := (hi.held c.wp b).mpr (by rw [holdsPool_eq hbj,hw])
        have ha' := (hi.held c.wp a).mpr (by rw [holdsPool_eq ha,hp]; rfl)
        rw [ha'] at hb'
        exact hb (Option.some.inj hb').symm

theorem CpuInv.recheck {c : Call W} {pre : ℕ} {pos : Node W} (h : CpuInv s qs)
    (hi : PoolInv s qs fs) (hp : s.pc a = .recheck c pre pos)
    (hst : Workqueue.recheck s a c pre pos = some s') : CpuInv s' qs := by
  have hcall := h.call a
  rw [hp] at hcall
  obtain ⟨hcpu,xs,ys,hxy,hne,hpos⟩ := hcall
  obtain ⟨rfl,rfl⟩ | ⟨q,rfl,hst⟩ := recheck_spec hst
  · cases ys with
    | nil =>
      rw [List.append_nil] at hxy
      exact h.step_of_eq rfl rfl ⟨hcpu,hxy ▸ hne⟩
    | cons => cases hpos
  · obtain ⟨_,rfl⟩ | ⟨hc,rfl⟩ := hst
    · exact h.step_of_eq rfl rfl trivial
    · cases ys with
      | nil => cases hpos
      | cons r ys =>
        cases hpos
        refine h.step_of_eq rfl rfl ⟨hcpu,xs ++ [q],ys,by simp [hxy],fun r hr => ?_,?_⟩
        · obtain hr | hr := List.mem_append.mp hr
          · exact hne r hr
          · rw [List.mem_singleton.mp hr]
            exact Ne.symm hc
        · have hring := hi.ring c.wp
          rw [hxy,List.map_append,List.map_cons,seg_append] at hring
          exact hring.2.next_eq

theorem CpuInv.go {mem : Option Word} {here : Word} (h : CpuInv s qs) (hi : PoolInv s qs fs)
    (ha : a ≠ .joiner) (hok : NormalAt s (s.pc a))
    (hst : Workqueue.go s a mem here (s.pc a) = some s') : CpuInv s' ((s.pc a).pools qs) := by
  have hcall := h.call a
  have howned := hi.owner a
  cases hp : s.pc a with
  | idle =>
    rw [hp] at hst
    cases hst
  | init c | enter c | first c | create q | drop pre q | wake q =>
    rw [hp] at hst
    cases hst
    exact h.step_of_eq rfl rfl trivial
  | walk c pos =>
    rw [hp] at hst
    obtain ⟨_,rfl⟩ | ⟨q,_,⟨_,rfl⟩ | ⟨_,rfl⟩⟩ := walk_spec hst <;> exact h.step_of_eq rfl rfl trivial
  | lock c pre q =>
    rw [hp] at hst
    obtain ⟨_,rfl⟩ := guarded_eq_some.mp hst
    exact h.step_of_eq (cpuOf_setWqLock q _) rfl trivial
  | add c pre q =>
    rw [hp] at hst
    cases hst
    exact h.step_of_eq (cpuOf_addLocked q c.work) rfl trivial
  | unlock c pre q =>
    rw [hp] at hst
    cases pre <;> cases hst <;> exact h.step_of_eq (cpuOf_setWqLock q _) rfl trivial
  | leave c wq =>
    rw [hp] at hst
    cases hst
    refine h.step_of_eq rfl rfl ?_
    cases wq <;> trivial
  | alloc c =>
    rw [hp] at hst
    cases mem with
    | none =>
      cases hst
      exact h.step_of_eq rfl rfl trivial
    | some mem =>
      cases hst
      exact h.goto rfl (fun w q hq => cpuOf_alloc (hi.linked_lt hq).ne)
        (fun b q _ hq => cpuOf_alloc (hi.absent b q hq).1.ne) trivial
  | setCpu c pre =>
    rw [hp] at hst
    cases hst
    have hpre := hi.call a
    rw [hp] at hpre
    refine h.goto rfl (fun w q hq => cpuOf_setWq_of_ne ?_)
      (fun b q hb hq => cpuOf_setWq_of_ne ?_) ?_
    · rintro rfl
      exact hpre.2.1 w hq
    · rintro rfl
      exact hb (hi.owner b a q hq (by rw [hp]; rfl))
    · have hself : ((s.setWq pre { s.wq pre with
          activedCpu := setCpu (s.wq pre).activedCpu (pickCpu c.cpu here)
          wp := some c.wp }).cpuOf pre) =
          getCpu (setCpu (s.wq pre).activedCpu (pickCpu c.cpu here)) :=
        congrArg (fun r : Wq ι => getCpu r.activedCpu) (Function.update_self pre _ s.wq)
      exact hself.trans (getCpu_setCpu _ _)
  | addPre c pre =>
    rw [hp] at hst hcall
    cases hst
    exact h.step_of_eq (cpuOf_addLocked pre c.work) rfl hcall
  | lockPool c pre =>
    rw [hp] at hst hcall
    obtain ⟨_,rfl⟩ := guarded_eq_some.mp hst
    exact h.step_of_eq rfl rfl ⟨hcall,[],qs c.wp,rfl,(by rintro _ ⟨⟩),(hi.ring c.wp).next_eq⟩
  | recheck c pre pos =>
    rw [hp] at hst
    exact h.recheck hi hp hst
  | publish c pre =>
    rw [hp] at hst hok
    cases hst
    exact h.publish hi ha hp hok rfl rfl
  | unlockPool c pre q =>
    rw [hp] at hst
    cases hst
    refine h.step_of_eq rfl rfl ?_
    cases pre <;> trivial
  | store q =>
    rw [hp] at hst
    cases hst
    exact h.step_of_eq (cpuOf_futex q 1) rfl trivial

theorem CpuInv.workerGo {ι W : Type} [DecidableEq W] {s s' : State ι W} {qs : Wp → List ℕ} {q : ℕ}
    (h : CpuInv s qs) (hst : Workqueue.workerGo s q (s.worker q) = some s') : CpuInv s' qs := by
  cases hp : s.worker q with
  | absent | exited =>
    rw [hp] at hst
    cases hst
  | test | call =>
    rw [hp] at hst
    cases hst
    exact h.other rfl rfl
  | lock =>
    rw [hp] at hst
    obtain ⟨_,rfl⟩ := guarded_eq_some.mp hst
    exact h.other (cpuOf_setWqLock q _) rfl
  | pop =>
    rw [hp] at hst
    obtain ⟨_,rfl⟩ | ⟨w,_,rfl⟩ := pop_spec hst
    · exact h.other rfl rfl
    · exact h.other (funext (update_cpu rfl)) rfl
  | unlock w =>
    rw [hp] at hst
    cases hst
    exact h.other (cpuOf_setWqLock q _) rfl
  | wait | run =>
    rw [hp] at hst
    obtain ⟨_,rfl⟩ := guarded_eq_some.mp hst
    exact h.other rfl rfl

theorem CpuInv.unlink {ι W : Type} [DecidableEq ι] {s s' : State ι W} {qs : Wp → List ℕ}
    {fs : List ℕ} {q : ℕ} (h : CpuInv s qs) (hi : PoolInv s qs fs) {n : Node W}
    (hp : s.join = .unlink q n) (hcpu : s'.cpuOf = s.cpuOf) (hpc : s'.pc = s.pc) :
    CpuInv s' (Function.update qs s.exiting ((qs s.exiting).erase q)) where
  nodup w := by
    rw [hcpu]
    by_cases hw : w = s.exiting
    · subst hw
      rw [Function.update_self]
      exact (h.nodup _).sublist ((List.erase_sublist).map _)
    · rw [Function.update_of_ne hw]
      exact h.nodup w
  call b := by
    rw [hcpu,hpc]
    refine (h.call b).keeps (fun _ _ _ => rfl) fun w hw =>
      ⟨Function.update_of_ne ?_ _ _,fun _ _ => rfl⟩
    rintro rfl
    by_cases hbj : b = .joiner
    · rw [hbj,hi.joiner] at hw
      cases hw
    · have hb := (hi.held s.exiting b).mpr (by rw [holdsPool_eq hbj,hw])
      have hj := (hi.held s.exiting .joiner).mpr (by simp [State.holdsPool,hp,JoinPc.locked])
      rw [hj] at hb
      exact hbj (Option.some.inj hb).symm

theorem CpuInv.joinGo (h : CpuInv s qs) (hi : PoolInv s qs fs)
    (hst : Workqueue.joinGo s s.join = some s') : CpuInv s' (s.join.pools qs s.exiting) := by
  cases hp : s.join with
  | idle | done =>
    rw [hp] at hst
    cases hst
  | sync | check | syncWq | keep | unlockPool | free | dec =>
    rw [hp] at hst
    cases hst
    exact h.other rfl rfl
  | settle | lockPool | settleWq | join =>
    rw [hp] at hst
    obtain ⟨_,rfl⟩ := guarded_eq_some.mp hst
    exact h.other rfl rfl
  | loop =>
    rw [hp] at hst
    simp only [Workqueue.joinGo] at hst
    split at hst
    · cases hst
      exact h.other rfl rfl
    · split at hst <;> cases hst <;> exact h.other rfl rfl
  | walk curr n | freeWalk curr n =>
    rw [hp] at hst
    obtain ⟨_,rfl⟩ | ⟨q,_,rfl⟩ := joinWalk_spec hst <;> exact h.other rfl rfl
  | lock q n =>
    rw [hp] at hst
    obtain ⟨_,rfl⟩ := guarded_eq_some.mp hst
    exact h.other (cpuOf_setWqLock q _) rfl
  | unlink q n =>
    rw [hp] at hst
    cases hst
    exact h.unlink hi hp rfl rfl
  | clear q n =>
    rw [hp] at hst
    cases hst
    exact h.other (funext (update_cpu (getCpu_clearActive _))) rfl
  | unlock q n =>
    rw [hp] at hst
    cases hst
    exact h.other (cpuOf_setWqLock q _) rfl
  | freeTest =>
    rw [hp] at hst
    simp only [Workqueue.joinGo] at hst
    split at hst <;> cases hst <;> exact h.other rfl rfl
  | destroy =>
    rw [hp] at hst
    obtain ⟨_,⟨_,rfl⟩ | ⟨p,_,rfl⟩⟩ := destroy_spec hst <;> exact h.other rfl rfl

theorem CpuInv.init {ι W : Type} :
    CpuInv (init ι W) (fun _ => []) := ⟨fun _ => List.nodup_nil,fun _ => trivial⟩

theorem CpuInv.step (h : CpuInv s qs) (hi : PoolInv s qs fs) (hok : Normal s act)
    (hst : Workqueue.step s act = some s') : CpuInv s' (act.pools s qs) := by
  cases act with
  | call a c =>
    obtain ⟨_,rfl⟩ := guarded_eq_some.mp hst
    exact h.step_of_eq rfl rfl trivial
  | go a mem here =>
    by_cases ha : a = .joiner
    · subst ha
      rw [Workqueue.step,hi.joiner] at hst
      cases hst
    · exact h.go hi ha hok hst
  | work q => exact h.workerGo hst
  | exit =>
    obtain ⟨_,rfl⟩ := guarded_eq_some.mp hst
    exact h.other rfl rfl
  | join => exact h.joinGo hi hst

theorem CpuInv.length_le {ι W : Type} {s : State ι W} {qs : Wp → List ℕ} (h : CpuInv s qs)
    (w : Wp) : (qs w).length ≤ nrCpu.toNat := by
  have hsub : ((qs w).map fun q => (s.cpuOf q).toNat) ⊆ List.range nrCpu.toNat := by
    intro n hn
    obtain ⟨q,_,rfl⟩ := List.mem_map.mp hn
    exact List.mem_range.mpr (getCpu_lt _)
  have hnd : ((qs w).map fun q => (s.cpuOf q).toNat).Nodup := by
    have hmap := (h.nodup w).map (f:=BitVec.toNat) fun _ _ => BitVec.eq_of_toNat_eq
    rwa [List.map_map] at hmap
  simpa using (hnd.subperm hsub).length_le

end Steps

/-- In every interleaving, whatever cpus the calls are given. -/
theorem oneEachCpu_of_normal {s : State ι W} (h : Reach step Normal (init ι W) s) :
    OneEachCpu s := by
  have hi : ∃ qs fs, PoolInv s qs fs ∧ CpuInv s qs := by
    refine h.invariant (I:=fun s => ∃ qs fs, PoolInv s qs fs ∧ CpuInv s qs)
      ⟨_,_,.init,.init⟩ fun s act s' hi hok hst => ?_
    obtain ⟨qs,fs,hi,hc⟩ := hi
    exact ⟨_,_,hi.step hst,hc.step hi hok hst⟩
  obtain ⟨qs,fs,hi,hc⟩ := hi
  exact fun p _ => ⟨qs p,hi.ring p,hc.nodup p,hc.length_le p⟩

/-- A call on cpu `cpu` up to its slow path, when the pool is empty. -/
def toSlowPath (t : Bool) (cpu : Word) : List (Act Bool Bool) :=
  .call (.outside t) ⟨.global,cpu,t⟩::List.replicate 5 (.go (.outside t) none 0)

/-- The slow path of a call that finds `n` workqueues. -/
def slowPath (t : Bool) (n : ℕ) : List (Act Bool Bool) :=
  List.replicate (7 + n) (.go (.outside t) (some 0) 0)

/-- Two callers at a time, with the cpu of the pool for 5 and with 2. -/
theorem oneEachCpu_of_callers : ∃ s : State Bool Bool, Reach step Normal (init Bool Bool) s ∧
    s.wqs .global = [.queue 0,.queue 1] ∧ OneEachCpu s := by
  have hs : (exec (restrict step Normal) (init Bool Bool) (toSlowPath false 5 ++
      toSlowPath true 2 ++ slowPath false 0 ++ slowPath true 1)).map
      (fun s => s.wqs .global) = some [.queue 0,.queue 1] := by decide
  obtain ⟨s,hs,hq⟩ := Option.map_eq_some_iff.mp hs
  have hreach := reach_of_exec_restrict hs
  exact ⟨s,hreach,hq,oneEachCpu_of_normal hreach⟩

/-- Both callers find no workqueue on the cpu 5, and both publish one for cpu 1. -/
theorem oneEachCpu_fails : ¬ ∀ s : State Bool Bool,
    Reach step Anything (init Bool Bool) s → OneEachCpu s := by
  intro h
  have hs : (exec step (init Bool Bool) (toSlowPath false 5 ++ toSlowPath true 5 ++
      slowPath false 0 ++ slowPath true 1)).map
        (fun s => (s.lock .global,s.links.next (.pool .global),
        s.links.next (.queue 0),s.links.next (.queue 1),s.cpuOf 0,s.cpuOf 1)) =
      some (none,.queue 0,.queue 1,.pool .global,1,1) := by decide
  obtain ⟨s,hs,hp⟩ := Option.map_eq_some_iff.mp hs
  simp only [Prod.mk.injEq] at hp
  obtain ⟨hl,h0,h1,h2,hc0,hc1⟩ := hp
  obtain ⟨qs,hring,hnd,_⟩ := h s (reach_of_exec hs) .global hl
  cases qs with
  | nil =>
    have hn := hring.next_eq
    rw [h0] at hn
    cases hn
  | cons q qs =>
    obtain ⟨hq,hring⟩ := seg_cons.mp hring
    rw [Linked,h0] at hq
    cases hq.1
    cases qs with
    | nil =>
      have hn := hring.next_eq
      rw [h1] at hn
      cases hn
    | cons r qs =>
      obtain ⟨hr,_⟩ := seg_cons.mp hring
      rw [Linked,h1] at hr
      cases hr.1
      simp [hc0,hc1] at hnd

end Workqueue
end Mthpc
