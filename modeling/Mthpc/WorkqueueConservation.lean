import Mthpc.WorkqueueWorks

/-!
# Accepted works

Every accepted scheduling is linked, held by a worker or executed, in the order of the
acceptance, as long as a call initialises and links a work only while it is in no list. Two
conditions on the callers give that: each work is scheduled only when it is not pending, or,
weaker, no two of them use the node of one work at a time.
-/
namespace Mthpc
namespace Workqueue

open StepSystem Links

variable {ι W : Type} [DecidableEq ι] [DecidableEq W]

/-- A work is scheduled only when it is not pending, and no join runs. -/
def Undisturbed (s : State ι W) : Act ι W → Prop
  | .call _ c => s.pending c.work = false
  | .exit | .join => False
  | _ => True

instance (s : State ι W) : ∀ act, Decidable (Undisturbed s act)
  | .call _ c => inferInstanceAs (Decidable (s.pending c.work = false))
  | .exit | .join => inferInstanceAs (Decidable False)
  | .go _ _ _ | .work _ => inferInstanceAs (Decidable True)

/-- `qs` are the workqueues of the pools and `ws` the works linked in each of them. The
schedulings that `q` has accepted are in `added q`, in the order of their acceptance. -/
structure Places (s : State ι W) (qs : Wp → List ℕ) (ws : ℕ → List W) : Prop where
  pools : ∀ p, Seg s.links (.pool p) ((qs p).map .queue) (.pool p) ∧ (qs p).Nodup
  onePool : ∀ p p' q, q ∈ qs p → q ∈ qs p' → p = p'
  linked : ∀ p, ∀ q ∈ qs p,
    Seg s.links (.works q) ((ws q).map .work) (.works q) ∧ (ws q).Nodup
  oneQueue : ∀ q q' w, w ∈ ws q → w ∈ ws q' → q = q'
  accepted : ∀ q, s.added q ≠ [] → ∃ p, q ∈ qs p
  order : ∀ q, s.added q = s.executed q ++ (s.worker q).held ++ ws q
  count : ∀ p, ∀ q ∈ qs p, (s.wq q).lock = none → (s.wq q).count = BitVec.ofNat 32 (ws q).length
  noWarning : ∀ q, s.worker q = .pop → ListHead.empty s.links (.works q) = true →
    (s.wq q).count = 0
  popped : ∀ q w, s.worker q = .pop → s.links.next (.works q) = .work w → s.workWq w = some q

def Conserved (s : State ι W) : Prop := ∃ qs ws, Places s qs ws

def Pc.carries : Pc W → Option W
  | .init c | .enter c | .first c | .walk c _ | .lock c _ _ | .add c _ _ | .leave c none
  | .alloc c | .setCpu c _ | .addPre c _ | .lockPool c _ | .recheck c _ _ | .publish c _ =>
    some c.work
  | _ => none

/-- A work that is not pending is with no call and in no list. -/
structure CarryInv (s : State ι W) : Prop where
  unique : ∀ a b w, (s.pc a).carries = some w → (s.pc b).carries = some w → a = b
  pending : ∀ a w, (s.pc a).carries = some w → s.pending w = true
  home : ∀ a w, (s.pc a).carries = some w →
    s.home w = none ∨ ∃ q, (s.pc a).own = some (q,[w])
  linked : ∀ w q, s.home w = some q → s.pending w = true

section Steps

variable {s s' : State ι W} {qs : Wp → List ℕ} {fs : List ℕ} {ws : ℕ → Option (List W)}
  {a : Actor ι} {p : Pc W} {q : ℕ}

theorem go_join {mem : Option Word} {here : Word} {x : Pc W}
    (hst : Workqueue.go s a mem here x = some s') : s'.join = s.join := by
  cases x with
  | idle => cases hst
  | walk c pos => obtain ⟨_,rfl⟩ | ⟨q,_,⟨_,rfl⟩ | ⟨_,rfl⟩⟩ := walk_spec hst <;> rfl
  | recheck c pre pos => obtain ⟨_,rfl⟩ | ⟨q,_,⟨_,rfl⟩ | ⟨_,rfl⟩⟩ := recheck_spec hst <;> rfl
  | lock c pre q | lockPool c pre =>
    obtain ⟨_,rfl⟩ := guarded_eq_some.mp hst
    rfl
  | unlock c pre q => cases pre <;> cases hst <;> rfl
  | alloc c => cases mem <;> cases hst <;> rfl
  | _ =>
    cases hst
    rfl

theorem workerGo_join {ι W : Type} [DecidableEq W] {s s' : State ι W} {q : ℕ} {x : WorkerPc W}
    (hst : Workqueue.workerGo s q x = some s') : s'.join = s.join := by
  cases x with
  | absent | exited => cases hst
  | pop => obtain ⟨_,rfl⟩ | ⟨w,_,rfl⟩ := pop_spec hst <;> rfl
  | lock | wait | run =>
    obtain ⟨_,rfl⟩ := guarded_eq_some.mp hst
    rfl
  | _ =>
    cases hst
    rfl

theorem CarryInv.unlinkedAt {ι W : Type} {s : State ι W} (h : CarryInv s) (a : Actor ι) :
    UnlinkedAt s (s.pc a) := by
  cases hp : s.pc a with
  | init c | addPre c pre =>
    obtain hn | ⟨q,hq⟩ := h.home a c.work (by rw [hp]; rfl)
    · exact hn
    · rw [hp] at hq
      cases hq
  | add c pre q =>
    cases pre with
    | none =>
      obtain hn | ⟨q,hq⟩ := h.home a c.work (by rw [hp]; rfl)
      · exact hn
      · rw [hp] at hq
        cases hq
    | some pre => exact trivial
  | _ => exact trivial

theorem CarryInv.unlinked {ι W : Type} {s : State ι W} (h : CarryInv s) (act : Act ι W) :
    Unlinked s act := by
  cases act with
  | go a mem here => exact h.unlinkedAt a
  | _ => exact trivial

theorem CarryInv.goto (h : CarryInv s) (hpc : s'.pc = Function.update s.pc a p)
    (hother : ∀ v, (s.pc a).carries ≠ some v → s'.pending v = s.pending v ∧ s'.home v = s.home v)
    (hcarry : ∀ w, p.carries = some w → (s.pc a).carries = some w ∧ s'.pending w = true ∧
      (s'.home w = none ∨ ∃ q, p.own = some (q,[w])))
    (hlinked : ∀ w q, (s.pc a).carries = some w → s'.home w = some q → s'.pending w = true) :
    CarryInv s' := by
  have hold : ∀ b w, (s'.pc b).carries = some w → (s.pc b).carries = some w := by
    intro b w hb
    rw [hpc] at hb
    by_cases hba : b = a
    · rw [hba,Function.update_self] at hb
      exact hba ▸ (hcarry w hb).1
    · rwa [Function.update_of_ne hba] at hb
  have hne : ∀ b w, b ≠ a → (s.pc b).carries = some w → (s.pc a).carries ≠ some w :=
    fun b w hba hb ha => hba (h.unique b a w hb ha)
  refine ⟨fun b c w hb hc => h.unique b c w (hold b w hb) (hold c w hc),fun b w hb => ?_,
    fun b w hb => ?_,fun w q hw => ?_⟩
  · by_cases hba : b = a
    · rw [hba,hpc,Function.update_self] at hb
      exact (hcarry w hb).2.1
    · have hb' := hold b w hb
      rw [(hother w (hne b w hba hb')).1]
      exact h.pending b w hb'
  · by_cases hba : b = a
    · rw [hba,hpc,Function.update_self] at hb ⊢
      exact (hcarry w hb).2.2
    · have hb' := hold b w hb
      rw [(hother w (hne b w hba hb')).2,hpc,Function.update_of_ne hba]
      exact h.home b w hb'
  · by_cases ha : (s.pc a).carries = some w
    · exact hlinked w q ha hw
    · rw [(hother w ha).2] at hw
      rw [(hother w ha).1]
      exact h.linked w q hw

theorem CarryInv.same {x : Pc W} (h : CarryInv s) (hp : s.pc a = x)
    (hpc : s'.pc = Function.update s.pc a p) (hpending : s'.pending = s.pending)
    (hhome : s'.home = s.home)
    (hcarry : ∀ w, p.carries = some w → x.carries = some w ∧ p.own = x.own) : CarryInv s' := by
  subst hp
  refine h.goto hpc (fun v _ => by rw [hpending,hhome]; exact ⟨rfl,rfl⟩) (fun w hw => ?_)
    fun w q _ hw => ?_
  · obtain ⟨hx,ho⟩ := hcarry w hw
    rw [hpending,hhome,ho]
    exact ⟨hx,h.pending a w hx,h.home a w hx⟩
  · rw [hhome] at hw
    rw [hpending]
    exact h.linked w q hw

theorem CarryInv.other {ι W : Type} {s s' : State ι W} (h : CarryInv s) (hpc : s'.pc = s.pc)
    (hpending : s'.pending = s.pending) (hhome : s'.home = s.home) : CarryInv s' where
  unique a b w := by
    rw [hpc]
    exact h.unique a b w
  pending a w := by
    rw [hpc,hpending]
    exact h.pending a w
  home a w := by
    rw [hpc,hhome]
    exact h.home a w
  linked w q := by
    rw [hhome,hpending]
    exact h.linked w q

theorem CarryInv.begin {c : Call W} (h : CarryInv s) (hc : s.pending c.work = false) :
    CarryInv ({ s with pending := Function.update s.pending c.work true }.goto a (.init c)) := by
  have hfree : ∀ b, (s.pc b).carries ≠ some c.work := fun b hb => by
    rw [h.pending b c.work hb] at hc
    cases hc
  have hnew : ∀ b w, (Function.update s.pc a (.init c) b).carries = some w →
      b = a ∧ w = c.work ∨ b ≠ a ∧ w ≠ c.work ∧ (s.pc b).carries = some w := by
    intro b w hb
    by_cases hba : b = a
    · rw [hba,Function.update_self] at hb
      exact .inl ⟨hba,(Option.some.inj hb).symm⟩
    · rw [Function.update_of_ne hba] at hb
      exact .inr ⟨hba,fun he => hfree b (he ▸ hb),hb⟩
  refine ⟨fun b d w hb hd => ?_,fun b w hb => ?_,fun b w hb => ?_,fun w q hw => ?_⟩
  · obtain ⟨hba,he⟩ | ⟨_,hw,hb⟩ := hnew b w hb
    · obtain ⟨hda,_⟩ | ⟨_,hw,_⟩ := hnew d w hd
      · rw [hba,hda]
      · exact absurd he hw
    · obtain ⟨_,he⟩ | ⟨_,_,hd⟩ := hnew d w hd
      · exact absurd he hw
      · exact h.unique b d w hb hd
  · show Function.update s.pending c.work true w = true
    obtain ⟨_,rfl⟩ | ⟨_,hw,hb⟩ := hnew b w hb
    · exact Function.update_self ..
    · rw [Function.update_of_ne hw]
      exact h.pending b w hb
  · show s.home w = none ∨ ∃ q, (Function.update s.pc a (.init c) b).own = some (q,[w])
    obtain ⟨_,rfl⟩ | ⟨hba,_,hb⟩ := hnew b w hb
    · refine .inl (Option.eq_none_iff_forall_ne_some.mpr fun q hq => ?_)
      rw [h.linked c.work q hq] at hc
      cases hc
    · rw [Function.update_of_ne hba]
      exact h.home b w hb
  · show Function.update s.pending c.work true w = true
    by_cases hwc : w = c.work
    · rw [hwc,Function.update_self]
    · rw [Function.update_of_ne hwc]
      exact h.linked w q hw

theorem CarryInv.add {c : Call W} (h : CarryInv s) (hc : (s.pc a).carries = some c.work)
    (hpc : s'.pc = Function.update s.pc a p) (hpending : s'.pending = s.pending)
    (hhome : s'.home = Function.update s.home c.work (some q))
    (hcarry : ∀ w, p.carries = some w → p.own = some (q,[c.work]) ∧ w = c.work) : CarryInv s' := by
  refine h.goto hpc (fun v hv => ?_) (fun w hw => ?_) fun w r hw _ => ?_
  · rw [hpending,hhome]
    refine ⟨rfl,Function.update_of_ne ?_ _ _⟩
    rintro rfl
    exact hv hc
  · obtain ⟨ho,rfl⟩ := hcarry w hw
    exact ⟨hc,hpending ▸ h.pending a _ hc,.inr ⟨q,ho⟩⟩
  · rw [hpending]
    exact h.pending a w hw

theorem CarryInv.go {mem : Option Word} {here : Word} (h : CarryInv s)
    (hst : Workqueue.go s a mem here (s.pc a) = some s') : CarryInv s' := by
  cases hp : s.pc a with
  | idle =>
    rw [hp] at hst
    cases hst
  | init c | enter c | first c | setCpu c pre =>
    rw [hp] at hst
    cases hst
    exact h.same hp rfl rfl rfl fun _ hw => ⟨hw,rfl⟩
  | walk c pos =>
    rw [hp] at hst
    obtain ⟨_,rfl⟩ | ⟨q,_,⟨_,rfl⟩ | ⟨_,rfl⟩⟩ := walk_spec hst <;>
      exact h.same hp rfl rfl rfl fun _ hw => ⟨hw,rfl⟩
  | recheck c pre pos =>
    rw [hp] at hst
    obtain ⟨_,rfl⟩ | ⟨q,_,⟨_,rfl⟩ | ⟨_,rfl⟩⟩ := recheck_spec hst <;>
      exact h.same hp rfl rfl rfl fun _ hw => ⟨hw,rfl⟩
  | lock c pre q =>
    rw [hp] at hst
    obtain ⟨_,rfl⟩ := guarded_eq_some.mp hst
    refine h.same hp rfl rfl rfl fun _ hw => ⟨hw,?_⟩
    cases pre <;> rfl
  | lockPool c pre =>
    rw [hp] at hst
    obtain ⟨_,rfl⟩ := guarded_eq_some.mp hst
    exact h.same hp rfl rfl rfl fun _ hw => ⟨hw,rfl⟩
  | add c pre q =>
    rw [hp] at hst
    cases hst
    exact h.add (c:=c) (q:=q) (by rw [hp]; rfl) rfl rfl rfl (by rintro _ ⟨⟩)
  | addPre c pre =>
    rw [hp] at hst
    cases hst
    refine h.add (c:=c) (q:=pre) (by rw [hp]; rfl) rfl rfl rfl fun w hw => ⟨rfl,?_⟩
    exact (Option.some.inj hw).symm
  | leave c wq =>
    rw [hp] at hst
    cases hst
    cases wq with
    | none => exact h.same hp rfl rfl rfl fun _ hw => ⟨hw,rfl⟩
    | some q => exact h.same hp rfl rfl rfl (by rintro _ ⟨⟩)
  | alloc c =>
    rw [hp] at hst
    have hc : (s.pc a).carries = some c.work := by rw [hp]; rfl
    cases mem with
    | none =>
      cases hst
      refine h.goto rfl (fun v hv => ⟨?_,rfl⟩) (by rintro _ ⟨⟩) fun w q hw hq => ?_
      · refine Function.update_of_ne ?_ _ _
        rintro rfl
        exact hv hc
      · obtain hn | ⟨r,hr⟩ := h.home a w hw
        · have hq' : s.home w = some q := hq
          rw [hn] at hq'
          cases hq'
        · rw [hp] at hr
          cases hr
    | some mem =>
      cases hst
      refine h.goto rfl (fun _ _ => ⟨rfl,rfl⟩) (fun w hw => ⟨hp ▸ hw,?_,.inl ?_⟩) fun w q hw _ => ?_
      · exact h.pending a w (hp ▸ hw)
      · obtain hn | ⟨r,hr⟩ := h.home a w (hp ▸ hw)
        · exact hn
        · rw [hp] at hr
          cases hr
      · exact h.pending a w hw
  | publish c pre | create q | drop pre q | store q | wake q =>
    rw [hp] at hst
    cases hst
    exact h.same hp rfl rfl rfl (by rintro _ ⟨⟩)
  | unlock c pre q =>
    rw [hp] at hst
    cases pre <;> cases hst <;> exact h.same hp rfl rfl rfl (by rintro _ ⟨⟩)
  | unlockPool c pre q =>
    rw [hp] at hst
    cases hst
    cases pre <;> exact h.same hp rfl rfl rfl (by rintro _ ⟨⟩)

theorem CarryInv.takeOut {ι W : Type} [DecidableEq W] {s : State ι W} {qs : Wp → List ℕ}
    {fs : List ℕ} {ws : ℕ → Option (List W)} {q : ℕ} {v : W} {xs : List W} (h : CarryInv s)
    (hw : WorkInv s qs fs ws) (hq : ws q = some (v::xs)) :
    CarryInv ((Workqueue.takeOut s q v).workerGoto q (.unlock (some v))) := by
  have hv : s.home v = some q := ((hw.list q _ hq).home v).mpr List.mem_cons_self
  have hfree : ∀ b w, (s.pc b).carries = some w → w ≠ v := by
    rintro b w hb rfl
    obtain hn | ⟨r,hr⟩ := h.home b w hb
    · rw [hn] at hv
      cases hv
    · obtain ⟨hl,hnone⟩ := hw.own b r _ hr
      have hrq := (hl.home w).mpr List.mem_cons_self
      rw [hv] at hrq
      cases hrq
      rw [hq] at hnone
      cases hnone
  refine ⟨h.unique,fun b w hb => ?_,fun b w hb => ?_,fun w r hr => ?_⟩
  · show Function.update s.pending v false w = true
    rw [Function.update_of_ne (hfree b w hb)]
    exact h.pending b w hb
  · show Function.update s.home v none w = none ∨ _
    rw [Function.update_of_ne (hfree b w hb)]
    exact h.home b w hb
  · have hr' : Function.update s.home v none w = some r := hr
    by_cases hwv : w = v
    · rw [hwv,Function.update_self] at hr'
      cases hr'
    · rw [Function.update_of_ne hwv] at hr'
      show Function.update s.pending v false w = true
      rw [Function.update_of_ne hwv]
      exact h.linked w r hr'

theorem CarryInv.workerGo {ι W : Type} [DecidableEq W] {s s' : State ι W} {qs : Wp → List ℕ}
    {fs : List ℕ} {ws : ℕ → Option (List W)} {q : ℕ} (h : CarryInv s) (hw : WorkInv s qs fs ws)
    (hst : Workqueue.workerGo s q (s.worker q) = some s') : CarryInv s' := by
  cases hp : s.worker q with
  | absent | exited =>
    rw [hp] at hst
    cases hst
  | test | unlock w | call w =>
    rw [hp] at hst
    cases hst
    exact h.other rfl rfl rfl
  | lock | wait | run w =>
    rw [hp] at hst
    obtain ⟨_,rfl⟩ := guarded_eq_some.mp hst
    exact h.other rfl rfl rfl
  | pop =>
    rw [hp] at hst
    obtain ⟨xs,hxs⟩ := hw.works (q:=q) (by rw [hp]; rintro ⟨⟩)
    obtain ⟨_,rfl⟩ | ⟨w,hn,rfl⟩ := pop_spec hst
    · exact h.other rfl rfl rfl
    · obtain ⟨_,hn'⟩ | ⟨v,ys,rfl,hn'⟩ := (hw.list q xs hxs).first
      · rw [hn'] at hn
        cases hn
      · rw [hn'] at hn
        cases hn
        exact h.takeOut hw hxs

theorem CarryInv.init {ι W : Type} : CarryInv (init ι W) where
  unique _ _ _ ha := by cases ha
  pending _ _ ha := by cases ha
  home _ _ ha := by cases ha
  linked _ _ hw := by cases hw

/-- What holds in the runs without a join. -/
structure NoJoinInv (s : State ι W) (qs : Wp → List ℕ) (ws : ℕ → Option (List W)) : Prop where
  pool : PoolInv s qs []
  work : WorkInv s qs [] ws
  carry : CarryInv s
  join : s.join = .idle
  published : ∀ q, (ws q).isSome = true → ∃ p, q ∈ qs p

theorem NoJoinInv.works_go {ι W : Type} [DecidableEq ι] {s : State ι W} {qs : Wp → List ℕ}
    {ws : ℕ → Option (List W)} (h : NoJoinInv s qs ws) (a : Actor ι) (q : ℕ)
    (hq : ((s.pc a).works ws q).isSome = true) : ∃ p, q ∈ (s.pc a).pools qs p := by
  have hok := h.pool.call a
  cases hp : s.pc a with
  | add c pre r =>
    rw [hp] at hok hq
    by_cases hqr : q = r
    · subst hqr
      cases pre with
      | none =>
        obtain hm | ⟨hv,_⟩ := hok.2
        · exact ⟨c.wp,hm⟩
        · rw [h.join] at hv
          cases hv
      | some pre => exact ⟨c.wp,hok.2⟩
    · simp only [Pc.works,Function.update_of_ne hqr] at hq
      exact h.published q hq
  | publish c pre =>
    rw [hp] at hq
    by_cases hqr : q = pre
    · refine ⟨c.wp,?_⟩
      simp only [Pc.pools,Function.update_self]
      simp [hqr]
    · simp only [Pc.works,Function.update_of_ne hqr] at hq
      obtain ⟨w,hw⟩ := h.published q hq
      refine ⟨w,?_⟩
      simp only [Pc.pools]
      by_cases hwp : w = c.wp
      · subst hwp
        rw [Function.update_self]
        exact List.mem_append_left _ hw
      · rwa [Function.update_of_ne hwp]
  | _ =>
    rw [hp] at hq
    exact h.published q hq

theorem NoJoinInv.step {act : Act ι W} (h : NoJoinInv s qs ws) (hok : Undisturbed s act)
    (hst : Workqueue.step s act = some s') : NoJoinInv s' (act.pools s qs) (act.works s ws) := by
  have hpool := h.pool.step hst
  have hwork := h.work.step h.pool (h.carry.unlinked act) hst
  cases act with
  | call a c =>
    obtain ⟨_,rfl⟩ := guarded_eq_some.mp hst
    exact ⟨hpool,hwork,h.carry.begin hok,h.join,h.published⟩
  | go a mem here =>
    refine ⟨hpool,hwork,h.carry.go hst,?_,fun q hq => h.works_go a q hq⟩
    rw [go_join hst]
    exact h.join
  | work q =>
    refine ⟨hpool,hwork,h.carry.workerGo h.work hst,?_,fun r hr => ?_⟩
    · rw [workerGo_join hst]
      exact h.join
    · refine h.published r ?_
      have hr' : ((s.worker q).works ws q r).isSome = true := hr
      cases hp : s.worker q with
      | pop =>
        rw [hp] at hr'
        by_cases hrq : r = q
        · subst hrq
          simpa [WorkerPc.works] using hr'
        · simpa only [WorkerPc.works,Function.update_of_ne hrq] using hr'
      | _ =>
        rw [hp] at hr'
        exact hr'
  | exit => exact hok.elim
  | join => exact hok.elim

theorem NoJoinInv.places (h : NoJoinInv s qs ws) : Places s qs fun q => (ws q).getD [] where
  pools p := ⟨h.pool.ring p,h.pool.nodup p⟩
  onePool p p' q hq hq' := h.pool.same_pool hq hq'
  linked p q hq := by
    obtain ⟨xs,hxs⟩ := Option.isSome_iff_exists.mp (h.work.listed q (.inl ⟨p,hq⟩))
    have hl := h.work.list q xs hxs
    rw [hxs]
    exact ⟨hl.seg,hl.nodup⟩
  oneQueue q q' w hq hq' := by
    have hhome : ∀ r, w ∈ (ws r).getD [] → s.home w = some r := by
      intro r hr
      cases hw : ws r with
      | none =>
        rw [hw] at hr
        cases hr
      | some xs =>
        rw [hw] at hr
        exact ((h.work.list r xs hw).home w).mpr hr
    exact Option.some.inj ((hhome q hq).symm.trans (hhome q' hq'))
  accepted q hq := by
    refine h.published q (Option.isSome_iff_ne_none.mpr fun hn => hq ?_)
    rw [h.work.added,hn,(h.work.unused q hn).1,(h.work.unused q hn).2]
    rfl
  order := h.work.added
  count p q hq _ := by
    obtain ⟨xs,hxs⟩ := Option.isSome_iff_exists.mp (h.work.listed q (.inl ⟨p,hq⟩))
    rw [hxs]
    exact (h.work.list q xs hxs).count
  noWarning q hp he := by
    obtain ⟨xs,hxs⟩ := h.work.works (q:=q) (by rw [hp]; rintro ⟨⟩)
    have hl := h.work.list q xs hxs
    obtain ⟨rfl,_⟩ | ⟨v,ys,_,hn⟩ := hl.first
    · exact hl.count
    · simp [ListHead.empty,hn] at he
  popped q w hp hn := by
    obtain ⟨xs,hxs⟩ := h.work.works (q:=q) (by rw [hp]; rintro ⟨⟩)
    have hl := h.work.list q xs hxs
    obtain ⟨_,hn'⟩ | ⟨v,ys,rfl,hn'⟩ := hl.first
    · rw [hn'] at hn
      cases hn
    · rw [hn'] at hn
      cases hn
      exact hl.wq w List.mem_cons_self

end Steps

/-- In every interleaving of callers that schedule no pending work, and workers. -/
theorem worksConserved {s : State ι W} (h : Reach step Undisturbed (init ι W) s) : Conserved s := by
  have hi : ∃ qs ws, NoJoinInv s qs ws := by
    refine h.invariant (I:=fun s => ∃ qs ws, NoJoinInv s qs ws) ?_ fun s act s' hi hok hst => ?_
    · exact ⟨_,_,.init,.init,.init,rfl,by rintro _ ⟨⟩⟩
    · obtain ⟨qs,ws,hi⟩ := hi
      exact ⟨_,_,hi.step hok hst⟩
  obtain ⟨qs,ws,hi⟩ := hi
  exact ⟨qs,_,hi.places⟩

/-- Two callers allocate; the second adds to the workqueue of the first and gives up its own;
the worker runs the first work and has popped the second. -/
def raced : List (Act Bool Bool) :=
  [.call (.outside false) ⟨.global,0,false⟩,.call (.outside true) ⟨.global,0,true⟩] ++
    List.replicate 8 (.go (.outside false) (some 0) 0) ++
    List.replicate 8 (.go (.outside true) (some 0) 0) ++
    List.replicate 7 (.go (.outside false) none 0) ++
    List.replicate 9 (.go (.outside true) none 0) ++ List.replicate 10 (.work 0)

theorem worksConserved_raced : ∃ s : State Bool Bool,
    Reach step Undisturbed (init Bool Bool) s ∧ s.added 0 = [false,true] ∧
      s.executed 0 = [false] ∧ s.worker 0 = .call true ∧ Conserved s := by
  have hs : (exec (restrict step Undisturbed) (init Bool Bool) raced).map
      (fun s => (s.added 0,s.executed 0,s.worker 0)) =
      some ([false,true],[false],.call true) := by decide
  obtain ⟨s,hs,hp⟩ := Option.map_eq_some_iff.mp hs
  simp only [Prod.mk.injEq] at hp
  have hr := reach_of_exec_restrict hs
  exact ⟨s,hr,hp.1,hp.2.1,hp.2.2,worksConserved hr⟩

/-- The list of each workqueue in a pool is a ring without repetition, of the length that the
workqueue counts, and holds every work that is at the workqueue. -/
def Intact (s : State ι W) : Prop :=
  ∃ qs : Wp → List ℕ, (∀ p, Seg s.links (.pool p) ((qs p).map .queue) (.pool p)) ∧
    ∀ p, ∀ q ∈ qs p, (s.wq q).lock = none →
      ∃ xs : List W, Seg s.links (.works q) (xs.map .work) (.works q) ∧ xs.Nodup ∧
        (s.wq q).count = BitVec.ofNat 32 xs.length ∧ ∀ w, s.home w = some q → w ∈ xs

/-- `t` is `mthpc_thread_work`: every `__mthpc_thread_async_run` queues it, and so may its own
function, whatever `nr_group` is. Any other work is scheduled when it is not pending. -/
def AsyncRuns (t : W) (s : State ι W) : Act ι W → Prop
  | .call (.worker q) c => if c.work = t then
      c = ⟨.thread,-1,t⟩ ∧ s.worker q = .run t
    else s.pending c.work = false
  | .call _ c => if c.work = t then c = ⟨.thread,-1,t⟩ else s.pending c.work = false
  | .exit | .join => False
  | _ => True

instance (t : W) (s : State ι W) : ∀ act, Decidable (AsyncRuns t s act)
  | .call (.worker q) c => inferInstanceAs (Decidable (if c.work = t then
      c = ⟨.thread,-1,t⟩ ∧ s.worker q = .run t
    else s.pending c.work = false))
  | .call (.outside _) c | .call .joiner c => inferInstanceAs (Decidable
      (if c.work = t then c = ⟨.thread,-1,t⟩ else s.pending c.work = false))
  | .exit | .join => inferInstanceAs (Decidable False)
  | .go _ _ _ | .work _ => inferInstanceAs (Decidable True)

/-- In every interleaving of callers, workers and the join. -/
theorem intact_of_unlinked {s : State ι W} (h : Reach step Unlinked (init ι W) s) : Intact s := by
  have hi : ∃ qs fs ws, PoolInv s qs fs ∧ WorkInv s qs fs ws := by
    refine h.invariant (I:=fun s => ∃ qs fs ws, PoolInv s qs fs ∧ WorkInv s qs fs ws)
      ⟨_,_,_,.init,.init⟩ fun s act s' hi hok hst => ?_
    obtain ⟨qs,fs,ws,hi,hw⟩ := hi
    exact ⟨_,_,_,hi.step hst,hw.step hi hok hst⟩
  obtain ⟨qs,fs,ws,hi,hw⟩ := hi
  refine ⟨qs,hi.ring,fun p q hq _ => ?_⟩
  obtain ⟨xs,hxs⟩ := Option.isSome_iff_exists.mp (hw.listed q (.inl ⟨p,hq⟩))
  have hl := hw.list q xs hxs
  exact ⟨xs,hl.seg,hl.nodup,hl.count,fun w => (hl.home w).mp⟩

/-- `__mthpc_thread_async_run` queues the work on a new workqueue. -/
def asyncRun (a : Actor Bool) : List (Act Bool Unit) :=
  .call a ⟨.thread,-1,()⟩::List.replicate 15 (.go a (some 0) 0)

/-- The work queues itself again from within its function. -/
theorem intact_of_requeue : ∃ s : State Bool Unit, Reach step Unlinked (init Bool Unit) s ∧
    s.added 0 = [(),()] ∧ s.home () = some 0 ∧ Intact s := by
  have hs : (exec (restrict step Unlinked) (init Bool Unit) (asyncRun (.outside false) ++
      List.replicate 5 (.work 0) ++ .call (.worker 0) ⟨.thread,-1,()⟩::
        List.replicate 10 (.go (.worker 0) none 0))).map
      (fun s => (s.added 0,s.home ())) = some ([(),()],some 0) := by decide
  obtain ⟨s,hs,hp⟩ := Option.map_eq_some_iff.mp hs
  simp only [Prod.mk.injEq] at hp
  have hr := reach_of_exec_restrict hs
  exact ⟨s,hr,hp.1,hp.2,intact_of_unlinked hr⟩

/-- A second `__mthpc_thread_async_run` initialises the node that is still linked. -/
theorem intact_fails : ¬ ∀ s : State Bool Unit,
    Reach step (AsyncRuns ()) (init Bool Unit) s → Intact s := by
  intro h
  have hs : (exec (restrict step (AsyncRuns ())) (init Bool Unit) (asyncRun (.outside false) ++
      [.call (.outside true) ⟨.thread,-1,()⟩,.go (.outside true) none 0])).map
      (fun s => (s.links.next (.pool .thread),s.links.next (.works 0),s.links.next (.work ()),
        (s.wq 0).lock)) = some (.queue 0,.work (),.work (),none) := by decide
  obtain ⟨s,hs,hp⟩ := Option.map_eq_some_iff.mp hs
  simp only [Prod.mk.injEq] at hp
  obtain ⟨hpool,hworks,hwork,hlock⟩ := hp
  obtain ⟨qs,hring,hq⟩ := h s (reach_of_exec_restrict hs)
  have hmem : 0 ∈ qs .thread := by
    have hnext := (hring .thread).next_eq
    rw [hpool] at hnext
    cases hx : qs .thread with
    | nil =>
      rw [hx] at hnext
      cases hnext
    | cons r rs =>
      rw [hx] at hnext
      cases hnext
      exact List.mem_cons_self
  obtain ⟨xs,hseg,hn,_⟩ := hq .thread 0 hmem hlock
  have hnext := hseg.next_eq
  rw [hworks] at hnext
  cases xs with
  | nil => cases hnext
  | cons u xs =>
    have hrest := ((seg_cons.mp hseg).2).next_eq
    cases xs with
    | nil =>
      rw [List.map_nil,List.headD_nil,hwork] at hrest
      cases hrest
    | cons v xs => simp at hn

end Workqueue
end Mthpc
