import Mthpc.RcuWorkqueue
import Mthpc.WorkqueueConservation
import Mthpc.WorkqueueLocks

/-!
# What the exit leaves behind

`mthpc_workqueue_exit` drains the global pool, then that of the threads and then that of the
taskflows. Within one pool a work that schedules itself again is waited for, since its new
workqueue counts before its old worker can exit. The exit does not come back to a pool that it
has left, so that a call that creates a workqueue there is the one thing that it misses.
-/
namespace Mthpc
namespace Workqueue

open StepSystem Links

variable {ι W : Type} [DecidableEq ι] [DecidableEq W]

def Left (s : State ι W) (p : Wp) : Prop :=
  p.index < s.exiting.index ∨ p = s.exiting ∧ (s.join = .destroy ∨ s.join = .done)

instance (s : State ι W) (p : Wp) : Decidable (Left s p) :=
  inferInstanceAs (Decidable (_ ∨ _ ∧ (_ ∨ _)))

def KeptAt (s : State ι W) : Pc W → Prop
  | .add _ _ q => (s.wq q).count ≠ -1
  | .lockPool c _ => ¬ Left s c.wp
  | .publish c _ => s.count c.wp ≠ -1
  | _ => True

instance (s : State ι W) : ∀ p, Decidable (KeptAt s p)
  | .add _ _ q => inferInstanceAs (Decidable ((s.wq q).count ≠ -1))
  | .lockPool c _ => inferInstanceAs (Decidable (¬ Left s c.wp))
  | .publish c _ => inferInstanceAs (Decidable (s.count c.wp ≠ -1))
  | .idle | .init _ | .enter _ | .first _ | .walk _ _ | .lock _ _ _ | .unlock _ _ _ | .leave _ _
  | .alloc _ | .setCpu _ _ | .addPre _ _ | .recheck _ _ _ | .unlockPool _ _ _ | .create _
  | .drop _ _ | .store _ | .wake _ => inferInstanceAs (Decidable True)

def ReleasedAt (s : State ι W) : JoinPc W → Prop
  | .loop => s.count s.exiting = 0 → s.lock s.exiting = none
  | _ => True

instance (s : State ι W) : ∀ p, Decidable (ReleasedAt s p)
  | .loop => inferInstanceAs (Decidable (s.count s.exiting = 0 → s.lock s.exiting = none))
  | .idle | .sync | .settle | .lockPool | .walk _ _ | .lock _ _ | .check _ _ | .unlink _ _
  | .syncWq _ _ | .settleWq _ _ | .keep _ _ | .clear _ _ | .unlock _ _ | .unlockPool | .freeTest
  | .freeWalk _ _ | .join _ _ | .free _ _ | .dec _ | .destroy | .done =>
    inferInstanceAs (Decidable True)

/-- No call takes the lock of a pool that the exit has left, or holds it when the exit leaves.
A work is linked while it is in no list, and the two kinds of counts stay below `2 ^ 32`. -/
def Kept (s : State ι W) : Act ι W → Prop
  | .go a _ _ => UnlinkedAt s (s.pc a) ∧ KeptAt s (s.pc a)
  | .join => ReleasedAt s s.join
  | _ => True

instance (s : State ι W) : ∀ act, Decidable (Kept s act)
  | .go a _ _ => inferInstanceAs (Decidable (UnlinkedAt s (s.pc a) ∧ KeptAt s (s.pc a)))
  | .join => inferInstanceAs (Decidable (ReleasedAt s s.join))
  | .call _ _ | .work _ | .exit => inferInstanceAs (Decidable True)

theorem Kept.unlinked {ι W : Type} {s : State ι W} {act : Act ι W} (h : Kept s act) :
    Unlinked s act := by
  cases act with
  | go a mem here => exact h.1
  | _ => exact trivial

/-- When `mthpc_workqueue_exit` has returned, every accepted scheduling has been executed, and
once, and no workqueue is linked in a pool. Nobody takes the lock of a pool that is destroyed. -/
structure Drained (s : State ι W) : Prop where
  executed : s.join = .done → ∀ q, s.executed q = s.added q
  unlinked : s.join = .done → ∀ p, s.links.next (.pool p) = .pool p
  lock : ∀ p, s.destroyed p = true → s.lock p = none

/-- The join is in `mthpc_workqueues_join`, or about to be. -/
def JoinPc.draining : JoinPc W → Bool
  | .idle | .destroy | .done => false
  | _ => true

def JoinPc.emptied : JoinPc W → Option ℕ
  | .unlink q _ => some q
  | _ => none

/-- The workqueue whose thread the join has waited for. -/
def JoinPc.joined : JoinPc W → Option ℕ
  | .free q _ => some q
  | _ => none

/-- What the count of a pool holds besides the workqueues that are linked in it. -/
def owed (s : State ι W) (fs : List ℕ) (p : Wp) : ℕ :=
  if p = s.exiting then (s.gone fs).length + s.join.counted else 0

def Emptied (s : State ι W) (qs : Wp → List ℕ) (q : ℕ) : Prop :=
  (∀ p, q ∉ qs p) ∨ s.join.emptied = some q

structure DrainInv (s : State ι W) (qs : Wp → List ℕ) (fs : List ℕ) (ws : ℕ → Option (List W)) :
    Prop where
  count : ∀ p, (s.count p).toNat = (qs p).length + owed s fs p
  short : ∀ q xs, ws q = some xs → xs.length < 2 ^ 32
  empty : ∀ q, Emptied s qs q → (ws q).getD [] = []
  exited : ∀ q, (∀ p, q ∉ qs p) → q ∉ s.gone fs ∨ s.join.joined = some q →
    (ws q).isSome = true → s.worker q = .exited
  left : ∀ p, Left s p → qs p = [] ∧ s.lock p = none
  destroyed : ∀ p, s.destroyed p = true → Left s p
  idle : s.join = .idle → s.exiting = .global
  done : s.join = .done → s.exiting = .taskflow

section Steps

variable {s s' : State ι W} {qs qs' : Wp → List ℕ} {fs fs' : List ℕ}
  {ws ws' : ℕ → Option (List W)} {a : Actor ι} {p : Pc W} {q : ℕ} {x y : JoinPc W}

theorem toNat_succ {n : Word} (h : n ≠ -1) : (n + 1).toNat = n.toNat + 1 := by bv_omega

theorem toNat_pred {n : Word} (h : n ≠ 0) : (n - 1).toNat + 1 = n.toNat := by bv_omega

theorem JoinPc.emptied_holds {W : Type} {q : ℕ} {x : JoinPc W} (h : x.emptied = some q) :
    x.holdsWq = some q := by
  cases x <;> first | exact h | cases h

theorem JoinPc.visible_holds {W : Type} {q : ℕ} {x : JoinPc W} (h : x.visible = some q) :
    x.holdsWq = some q := by
  cases x <;> first | exact h | cases h

theorem LockInv.adds (hl : LockInv s) (hi : PoolInv s qs fs) {c : Call W} {pre : Option ℕ}
    (hp : s.pc a = .add c pre q) : ¬ Emptied s qs q := by
  have hheld : s.holdsWq a = some q := by
    rw [hl.holds hi (by rw [hp]; rintro ⟨⟩),hp]
    rfl
  have hfree : s.join.holdsWq ≠ some q := fun hj => by
    obtain rfl : a = .joiner := hl.unique hheld hj
    rw [hi.joiner] at hp
    cases hp
  have hok := hi.call a
  rw [hp] at hok
  rintro (hn | he)
  · cases pre with
    | none =>
      obtain hq | ⟨hv,_⟩ := hok.2
      · exact hn c.wp hq
      · exact hfree (JoinPc.visible_holds hv)
    | some pre => exact hn c.wp hok.2
  · exact hfree (JoinPc.emptied_holds he)

theorem go_exit {mem : Option Word} {here : Word} (hst : Workqueue.go s a mem here p = some s') :
    s'.exiting = s.exiting ∧ s'.destroyed = s.destroyed ∧
      (∀ q, p ≠ .create q → s'.worker q = s.worker q) ∧
      ((∀ c pre, p ≠ .publish c pre) → s'.count = s.count) ∧
      ((∀ c pre, p ≠ .lockPool c pre) → ∀ w, s.lock w = none → s'.lock w = none) := by
  cases p with
  | idle => cases hst
  | walk c pos =>
    obtain ⟨_,rfl⟩ | ⟨q,_,⟨_,rfl⟩ | ⟨_,rfl⟩⟩ := walk_spec hst <;>
      exact ⟨rfl,rfl,fun _ _ => rfl,fun _ => rfl,fun _ _ => id⟩
  | recheck c pre pos =>
    obtain ⟨_,rfl⟩ | ⟨q,_,⟨_,rfl⟩ | ⟨_,rfl⟩⟩ := recheck_spec hst <;>
      exact ⟨rfl,rfl,fun _ _ => rfl,fun _ => rfl,fun _ _ => id⟩
  | lock c pre q =>
    obtain ⟨_,rfl⟩ := guarded_eq_some.mp hst
    exact ⟨rfl,rfl,fun _ _ => rfl,fun _ => rfl,fun _ _ => id⟩
  | lockPool c pre =>
    obtain ⟨_,rfl⟩ := guarded_eq_some.mp hst
    exact ⟨rfl,rfl,fun _ _ => rfl,fun _ => rfl,fun hn => absurd rfl (hn c pre)⟩
  | publish c pre =>
    cases hst
    exact ⟨rfl,rfl,fun _ _ => rfl,fun hn => absurd rfl (hn c pre),fun _ _ => id⟩
  | unlock c pre q =>
    cases pre <;> cases hst <;> exact ⟨rfl,rfl,fun _ _ => rfl,fun _ => rfl,fun _ _ => id⟩
  | alloc c =>
    cases mem <;> cases hst <;> exact ⟨rfl,rfl,fun _ _ => rfl,fun _ => rfl,fun _ _ => id⟩
  | unlockPool c pre q =>
    cases hst
    refine ⟨rfl,rfl,fun _ _ => rfl,fun _ => rfl,fun _ w hw => ?_⟩
    show Function.update s.lock c.wp none w = none
    by_cases hwc : w = c.wp
    · rw [hwc,Function.update_self]
    · rwa [Function.update_of_ne hwc]
  | create q =>
    cases hst
    refine ⟨rfl,rfl,fun r hr => Function.update_of_ne ?_ _ _,fun _ => rfl,fun _ _ => id⟩
    rintro rfl
    exact hr rfl
  | _ =>
    cases hst
    exact ⟨rfl,rfl,fun _ _ => rfl,fun _ => rfl,fun _ _ => id⟩

theorem workerGo_exit {ι W : Type} [DecidableEq W] {s s' : State ι W} {q : ℕ}
    (hst : Workqueue.workerGo s q (s.worker q) = some s') :
    s'.exiting = s.exiting ∧ s'.destroyed = s.destroyed ∧ s'.count = s.count ∧
      s'.lock = s.lock ∧ ∀ r, s.worker r = .exited → s'.worker r = .exited := by
  have hother : ∀ (t : State ι W) (y : WorkerPc W) r, s.worker q ≠ .exited → t.worker = s.worker →
      s.worker r = .exited → (t.workerGoto q y).worker r = .exited := by
    intro t y r hq ht hr
    have hrq : r ≠ q := fun he => hq (he ▸ hr)
    exact (Function.update_of_ne hrq _ _).trans (ht ▸ hr)
  cases hp : s.worker q with
  | absent | exited =>
    rw [hp] at hst
    cases hst
  | pop =>
    rw [hp] at hst
    obtain ⟨_,rfl⟩ | ⟨w,_,rfl⟩ := pop_spec hst <;>
      exact ⟨rfl,rfl,rfl,rfl,fun r => hother _ _ r (by rw [hp]; rintro ⟨⟩) rfl⟩
  | lock | wait | run =>
    rw [hp] at hst
    obtain ⟨_,rfl⟩ := guarded_eq_some.mp hst
    exact ⟨rfl,rfl,rfl,rfl,fun r => hother _ _ r (by rw [hp]; rintro ⟨⟩) rfl⟩
  | _ =>
    rw [hp] at hst
    cases hst
    exact ⟨rfl,rfl,rfl,rfl,fun r => hother _ _ r (by rw [hp]; rintro ⟨⟩) rfl⟩

theorem Left.congr {ι W : Type} {s s' : State ι W} (hjoin : s'.join = s.join)
    (hexit : s'.exiting = s.exiting) {w : Wp} :
    Left s' w ↔ Left s w := by rw [Left,Left,hjoin,hexit]

theorem Left.lt {ι W : Type} {s : State ι W} {w : Wp} (hw : Left s w)
    (hj : s.join.draining = true) : w.index < s.exiting.index := by
  obtain hlt | ⟨_,hd | hd⟩ := hw
  · exact hlt
  · rw [hd] at hj
    cases hj
  · rw [hd] at hj
    cases hj

theorem DrainInv.other {ι W : Type} {s s' : State ι W} {qs : Wp → List ℕ} {fs : List ℕ}
    {ws ws' : ℕ → Option (List W)} (h : DrainInv s qs fs ws) (hjoin : s'.join = s.join)
    (hexit : s'.exiting = s.exiting) (hdestroyed : s'.destroyed = s.destroyed)
    (hcount : s'.count = s.count) (hlock : ∀ w, Left s w → s'.lock w = none)
    (hworker : ∀ r, (ws' r).isSome = true → s.worker r = .exited → s'.worker r = .exited)
    (hshort : ∀ r xs, ws' r = some xs → xs.length < 2 ^ 32)
    (hempty : ∀ r, Emptied s qs r → (ws r).getD [] = [] → (ws' r).getD [] = [])
    (hsome : ∀ r, (ws' r).isSome = true → (ws r).isSome = true) : DrainInv s' qs fs ws' where
  count w := by
    rw [hcount,h.count,owed,owed,State.gone,State.gone,hjoin,hexit]
  short := hshort
  empty r hr := by
    rw [Emptied,hjoin] at hr
    exact hempty r hr (h.empty r hr)
  exited r hr hg hw := by
    rw [State.gone,hjoin] at hg
    exact hworker r hw (h.exited r hr hg (hsome r hw))
  left w hw := by
    rw [Left.congr hjoin hexit] at hw
    exact ⟨(h.left w hw).1,hlock w hw⟩
  destroyed w hw := by
    rw [Left.congr hjoin hexit]
    exact h.destroyed w (hdestroyed ▸ hw)
  idle hj := hexit.trans (h.idle (hjoin ▸ hj))
  done hj := hexit.trans (h.done (hjoin ▸ hj))

theorem DrainInv.publish {c : Call W} {pre : ℕ} (h : DrainInv s qs fs ws) (hi : PoolInv s qs fs)
    (hw : WorkInv s qs fs ws) (ha : a ≠ .joiner) (hp : s.pc a = .publish c pre)
    (hok : s.count c.wp ≠ -1) :
    DrainInv ((Workqueue.accept { s with
      links := addTailRcu s.links (.queue pre) (.pool c.wp)
      count := Function.update s.count c.wp (s.count c.wp + 1) } pre c.work).goto a
        (.unlockPool c none pre)) (Function.update qs c.wp (qs c.wp ++ [pre])) fs
      (Function.update ws pre (some ((ws pre).getD [] ++ [c.work]))) := by
  have hpriv := hi.call a
  rw [hp] at hpriv
  obtain ⟨⟨_,hun,_⟩,_⟩ := hpriv
  have hnone : ws pre = none := (hw.own a pre [c.work] (by rw [hp]; rfl)).2
  have hlock : s.lock c.wp = some a := (hi.held _ _).mpr (by rw [holdsPool_eq ha,hp]; rfl)
  have hmono : ∀ r, (∀ w, r ∉ Function.update qs c.wp (qs c.wp ++ [pre]) w) →
      (∀ w, r ∉ qs w) ∧ r ≠ pre := by
    refine fun r hr => ⟨fun w hm => ?_,?_⟩
    · by_cases hwc : w = c.wp
      · subst hwc
        exact hr c.wp (by rw [Function.update_self]; exact List.mem_append_left _ hm)
      · exact hr w (by rwa [Function.update_of_ne hwc])
    · rintro rfl
      exact hr c.wp (by rw [Function.update_self]; simp)
  refine ⟨fun w => ?_,fun r xs hr => ?_,fun r hr => ?_,fun r hr hg hs => ?_,fun w hl => ?_,
    h.destroyed,h.idle,h.done⟩
  · show (Function.update s.count c.wp _ w).toNat = _ + owed s fs w
    by_cases hwc : w = c.wp
    · subst hwc
      rw [Function.update_self,Function.update_self,toNat_succ hok,h.count,List.length_append,
        List.length_singleton]
      omega
    · rw [Function.update_of_ne hwc,Function.update_of_ne hwc,h.count]
  · by_cases hrp : r = pre
    · rw [hrp,Function.update_self,hnone] at hr
      obtain rfl := Option.some.inj hr
      simp
    · rw [Function.update_of_ne hrp] at hr
      exact h.short r xs hr
  · have hold : Emptied s qs r ∧ r ≠ pre := by
      obtain hr | he := hr
      · exact ⟨.inl (hmono r hr).1,(hmono r hr).2⟩
      · refine ⟨.inr he,?_⟩
        rintro rfl
        have hj := hi.join
        have he' : s.join.emptied = some r := he
        cases hx : s.join with
        | unlink r' n =>
          rw [hx] at hj he'
          obtain rfl := Option.some.inj he'
          exact hun _ hj.2.1
        | _ =>
          rw [hx] at he'
          cases he'
    rw [Function.update_of_ne hold.2]
    exact h.empty r hold.1
  · obtain ⟨hr',hrp⟩ := hmono r hr
    rw [Function.update_of_ne hrp] at hs
    exact h.exited r hr' hg hs
  · obtain ⟨hq,hn⟩ := h.left w hl
    have hwc : w ≠ c.wp := by
      rintro rfl
      rw [hlock] at hn
      cases hn
    rw [Function.update_of_ne hwc]
    exact ⟨hq,hn⟩

theorem DrainInv.go {mem : Option Word} {here : Word} (h : DrainInv s qs fs ws)
    (hi : PoolInv s qs fs) (hw : WorkInv s qs fs ws) (hl : LockInv s) (ha : a ≠ .joiner)
    (hok : KeptAt s (s.pc a)) (hst : Workqueue.go s a mem here (s.pc a) = some s') :
    DrainInv s' ((s.pc a).pools qs) fs ((s.pc a).works ws) := by
  have hjoin := go_join hst
  obtain ⟨hexit,hdestroyed,hworker,hcount,hlock⟩ := go_exit hst
  -- a worker that is created was absent
  have hkeep : ∀ r, s.worker r = .exited → s'.worker r = .exited := by
    intro r hr
    refine (hworker r fun hc => ?_).trans hr
    rw [(hi.absent a r (by rw [hc]; rfl)).2] at hr
    cases hr
  cases hp : s.pc a with
  | add c pre q =>
    rw [hp] at hok hcount hlock
    have hn := hl.adds hi hp
    have hsome : (ws q).isSome = true := by
      refine hw.listed q (.inl ?_)
      by_contra hq
      exact hn (.inl fun w hm => hq ⟨w,hm⟩)
    obtain ⟨xs,hxs⟩ := Option.isSome_iff_exists.mp hsome
    refine h.other hjoin hexit hdestroyed (hcount (by rintro _ _ ⟨⟩))
      (fun w hlw => hlock (by rintro _ _ ⟨⟩) w (h.left w hlw).2) (fun r _ => hkeep r)
      (fun r ys hr => ?_) (fun r he hr => ?_) fun r hr => ?_
    · by_cases hrq : r = q
      · rw [hrq] at hr
        simp only [Pc.works,Function.update_self,hxs,Option.getD_some,Option.some.injEq] at hr
        have hlen := h.short q xs hxs
        have hc : (s.wq q).count ≠ -1 := hok
        rw [(hw.list q xs hxs).count] at hc
        have hne : xs.length ≠ 2 ^ 32 - 1 := by
          rintro he
          exact hc (by rw [he]; rfl)
        rw [← hr,List.length_append,List.length_singleton]
        omega
      · simp only [Pc.works,Function.update_of_ne hrq] at hr
        exact h.short r ys hr
    · have hrq : r ≠ q := by
        rintro rfl
        exact hn he
      simp only [Pc.works,Function.update_of_ne hrq]
      exact hr
    · by_cases hrq : r = q
      · exact hrq ▸ hsome
      · simpa only [Pc.works,Function.update_of_ne hrq] using hr
  | publish c pre =>
    rw [hp] at hst hok
    cases hst
    exact h.publish hi hw ha hp hok
  | lockPool c pre =>
    rw [hp] at hst hok hcount
    refine h.other hjoin hexit hdestroyed (hcount (by rintro _ _ ⟨⟩)) (fun w hlw => ?_)
      (fun r _ => hkeep r) h.short (fun _ _ => id) fun _ => id
    obtain ⟨_,rfl⟩ := guarded_eq_some.mp hst
    have hwc : w ≠ c.wp := by
      rintro rfl
      exact hok hlw
    exact (Function.update_of_ne hwc _ _).trans (h.left w hlw).2
  | _ =>
    rw [hp] at hcount hlock
    exact h.other hjoin hexit hdestroyed (hcount (by rintro _ _ ⟨⟩))
      (fun w hlw => hlock (by rintro _ _ ⟨⟩) w (h.left w hlw).2) (fun r _ => hkeep r) h.short
      (fun _ _ => id) fun _ => id

theorem DrainInv.workerGo {ι W : Type} [DecidableEq W] {s s' : State ι W} {qs : Wp → List ℕ}
    {fs : List ℕ} {ws : ℕ → Option (List W)} {q : ℕ} (h : DrainInv s qs fs ws)
    (hst : Workqueue.workerGo s q (s.worker q) = some s') :
    DrainInv s' qs fs ((s.worker q).works ws q) := by
  obtain ⟨hexit,hdestroyed,hcount,hlock,hkeep⟩ := workerGo_exit hst
  -- a list gets shorter, or stays
  have hworks : ∀ r, (s.worker q).works ws q r = ws r ∨
      (s.worker q).works ws q r = (ws r).map List.tail := by
    intro r
    cases s.worker q with
    | pop =>
      by_cases hrq : r = q
      · subst hrq
        exact .inr (Function.update_self ..)
      · exact .inl (Function.update_of_ne hrq _ _)
    | _ => exact .inl rfl
  refine h.other (workerGo_join hst) hexit hdestroyed hcount
    (fun w hw => by rw [hlock]; exact (h.left w hw).2) (fun r _ => hkeep r) (fun r xs hr => ?_)
    (fun r _ hr => ?_) fun r hr => ?_
  · obtain he | he := hworks r <;> rw [he] at hr
    · exact h.short r xs hr
    · obtain ⟨ys,hys,rfl⟩ := Option.map_eq_some_iff.mp hr
      have hlen := h.short r ys hys
      rw [List.length_tail]
      omega
  · obtain he | he := hworks r <;> rw [he]
    · exact hr
    · cases hx : ws r with
      | none => rfl
      | some xs =>
        rw [hx,Option.getD_some] at hr
        rw [hr]
        rfl
  · obtain he | he := hworks r <;> rw [he] at hr
    · exact hr
    · simpa using hr

theorem DrainInv.joinWithin {ι W : Type} {s s' : State ι W} {qs : Wp → List ℕ} {fs fs' : List ℕ}
    {ws : ℕ → Option (List W)} {x y : JoinPc W} (h : DrainInv s qs fs ws) (hp : s.join = x)
    (hj : s'.join = y)
    (hx : x.draining = true) (hy : y.draining = true) (hworker : s'.worker = s.worker)
    (hexit : s'.exiting = s.exiting) (hdestroyed : s'.destroyed = s.destroyed)
    (hlock : ∀ w, w ≠ s.exiting → s.lock w = none → s'.lock w = none)
    (hcount : ∀ w, (s'.count w).toNat = (qs w).length + owed s' fs' w)
    (hgone : ∀ r, r ∉ s'.gone fs' → r ∉ s.gone fs ∨ x.joined = some r)
    (hemptied : ∀ r, y.emptied = some r → (ws r).getD [] = [])
    (hjoined : ∀ r, y.joined = some r → s.worker r = .exited) : DrainInv s' qs fs' ws where
  count := hcount
  short := h.short
  empty r hr := by
    obtain hr | he := hr
    · exact h.empty r (.inl hr)
    · rw [hj] at he
      exact hemptied r he
  exited r hr hg hs := by
    rw [hworker]
    obtain hg | he := hg
    · refine h.exited r hr ?_ hs
      rw [hp]
      exact hgone r hg
    · rw [hj] at he
      exact hjoined r he
  left w hw := by
    have hlt : w.index < s.exiting.index := hexit ▸ hw.lt (hj ▸ hy)
    obtain ⟨hq,hn⟩ := h.left w (.inl hlt)
    exact ⟨hq,hlock w (fun he => lt_irrefl _ (he ▸ hlt)) hn⟩
  destroyed w hw := by
    rw [hdestroyed] at hw
    rw [Left,hexit]
    exact .inl ((h.destroyed w hw).lt (hp ▸ hx))
  idle he := by
    rw [hj] at he
    rw [he] at hy
    cases hy
  done he := by
    rw [hj] at he
    rw [he] at hy
    cases hy

theorem DrainInv.joinTo {ι W : Type} {s s' : State ι W} {qs : Wp → List ℕ} {fs fs' : List ℕ}
    {ws : ℕ → Option (List W)} {x y : JoinPc W} (h : DrainInv s qs fs ws) (hp : s.join = x)
    (hj : s'.join = y)
    (hx : x.draining = true) (hy : y.draining = true) (hworker : s'.worker = s.worker)
    (hcount : s'.count = s.count) (hexit : s'.exiting = s.exiting)
    (hdestroyed : s'.destroyed = s.destroyed)
    (hlock : ∀ w, w ≠ s.exiting → s.lock w = none → s'.lock w = none)
    (hgone : s'.gone fs' = s.gone fs) (hcnt : y.counted = x.counted)
    (hemptied : ∀ r, y.emptied = some r → (ws r).getD [] = [])
    (hjoined : ∀ r, y.joined = some r → s.worker r = .exited) : DrainInv s' qs fs' ws := by
  refine h.joinWithin hp hj hx hy hworker hexit hdestroyed hlock (fun w => ?_)
    (fun r hr => .inl (hgone ▸ hr)) hemptied hjoined
  rw [hcount,h.count,owed,owed,hgone,hexit,hj,hp,hcnt]

theorem DrainInv.unlink {n : Node W} (h : DrainInv s qs fs ws) (hi : PoolInv s qs fs)
    (hp : s.join = .unlink q n) :
    DrainInv ((s.setLinks (delRcu s.links (.queue q))).joinGoto (.syncWq q n))
      (Function.update qs s.exiting ((qs s.exiting).erase q)) fs ws := by
  have hj := hi.join
  rw [hp] at hj
  have hq : q ∈ qs s.exiting := hj.2.1
  have hgone : s.gone fs = fs := by
    rw [State.gone,hp]
    rfl
  have hold : ∀ r, r ≠ q → (∀ w, r ∉ Function.update qs s.exiting ((qs s.exiting).erase q) w) →
      ∀ w, r ∉ qs w := by
    intro r hrq hr w hm
    by_cases hwe : w = s.exiting
    · subst hwe
      exact hr s.exiting (by rw [Function.update_self]; exact (List.mem_erase_of_ne hrq).mpr hm)
    · exact hr w (by rwa [Function.update_of_ne hwe])
  refine ⟨fun w => ?_,h.short,fun r hr => ?_,fun r hr hg hs => ?_,fun w hw => ?_,fun w hw => ?_,
    (by rintro ⟨⟩),by rintro ⟨⟩⟩
  · show (s.count w).toNat = _ + if w = s.exiting then (q::fs).length + 0 else 0
    rw [h.count,owed,hgone,hp]
    by_cases hwe : w = s.exiting
    · subst hwe
      have hpos := List.length_pos_of_mem hq
      rw [Function.update_self,if_pos rfl,if_pos rfl,List.length_erase_of_mem hq,List.length_cons]
      simp only [JoinPc.counted]
      omega
    · rw [Function.update_of_ne hwe,if_neg hwe,if_neg hwe]
  · by_cases hrq : r = q
    · subst hrq
      exact h.empty r (.inr (by rw [hp]; rfl))
    · obtain hr | he := hr
      · exact h.empty r (.inl (hold r hrq hr))
      · cases he
  · obtain hg | he := hg
    · have hg' : r ∉ q::fs := hg
      refine h.exited r (hold r (List.ne_of_not_mem_cons hg') hr) (.inl ?_) hs
      rw [hgone]
      exact List.not_mem_of_not_mem_cons hg'
    · cases he
  · have hlt : w.index < s.exiting.index := hw.lt rfl
    have hwe : w ≠ s.exiting := fun he => lt_irrefl _ (he ▸ hlt)
    rw [Function.update_of_ne hwe]
    exact h.left w (.inl hlt)
  · exact .inl ((h.destroyed w hw).lt (by rw [hp]; rfl))

theorem DrainInv.free {ι W : Type} [DecidableEq ι] {s : State ι W} {qs : Wp → List ℕ} {fs : List ℕ}
    {ws : ℕ → Option (List W)} {q : ℕ} {n : Node W} (h : DrainInv s qs fs ws) (hi : PoolInv s qs fs)
    (hp : s.join = .free q n) :
    DrainInv ({ s with live := Function.update s.live q false }.joinGoto (.dec n)) qs fs.tail
      ws := by
  have hj := hi.join
  rw [hp] at hj
  obtain ⟨rest,rfl,_⟩ := hj
  have hgone : s.gone (q::rest) = q::rest := by
    rw [State.gone,hp]
    rfl
  refine h.joinWithin hp rfl rfl rfl rfl rfl rfl (fun _ _ hl => hl) (fun w => ?_)
    (fun r hg => ?_) (by rintro _ ⟨⟩) (by rintro _ ⟨⟩)
  · show (s.count w).toNat = _ + if w = s.exiting then rest.length + 1 else 0
    rw [h.count,owed,hgone,hp]
    rfl
  · have hg' : r ∉ rest := hg
    rw [hgone]
    by_cases hrq : r = q
    · exact .inr (hrq ▸ rfl)
    · exact .inl (List.not_mem_cons_of_ne_of_not_mem hrq hg')

theorem DrainInv.leave {ι W : Type} {s : State ι W} {qs : Wp → List ℕ} {fs : List ℕ}
    {ws : ℕ → Option (List W)} (h : DrainInv s qs fs ws) (hp : s.join = .loop)
    (hc : s.count s.exiting = 0) (hl : s.lock s.exiting = none) :
    DrainInv (s.joinGoto .destroy) qs fs ws := by
  have hempty : qs s.exiting = [] := by
    have hcount := h.count s.exiting
    have hzero : (0 : Word).toNat = 0 := rfl
    rw [hc,hzero] at hcount
    exact List.length_eq_zero_iff.mp (by omega)
  refine ⟨fun w => ?_,h.short,fun r hr => ?_,fun r hr hg hs => ?_,fun w hw => ?_,fun w hw => ?_,
    (by rintro ⟨⟩),by rintro ⟨⟩⟩
  · show (s.count w).toNat = _ + if w = s.exiting then fs.length + 0 else 0
    rw [h.count,owed,State.gone,hp]
    rfl
  · obtain hr | he := hr
    · exact h.empty r (.inl hr)
    · cases he
  · obtain hg | he := hg
    · refine h.exited r hr (.inl ?_) hs
      rw [State.gone,hp]
      exact hg
    · cases he
  · obtain hlt | ⟨rfl,_⟩ := hw
    · exact h.left w (.inl hlt)
    · exact ⟨hempty,hl⟩
  · exact .inl ((h.destroyed w hw).lt (by rw [hp]; rfl))

theorem DrainInv.nextPool {ι W : Type} {s : State ι W} {qs : Wp → List ℕ} {ws : ℕ → Option (List W)}
    {x y : JoinPc W} {d : Wp → Bool} {v : Wp} (h : DrainInv s qs [] ws) (hp : s.join = x)
    (hx : x = .idle ∨ x = .destroy) (hy : y = .sync ∨ y = .done)
    (hleft : ∀ w, Left ({ s with
      destroyed := d
      exiting := v }.joinGoto y) w ↔ x = .destroy ∧ Left s w)
    (hd : ∀ w, d w = true → s.destroyed w = true ∨ w = s.exiting ∧ x = .destroy)
    (hidle : x = .idle → ∀ w, s.destroyed w = false) (hdone : y = .done → v = .taskflow) :
    DrainInv ({ s with
      destroyed := d
      exiting := v }.joinGoto y) qs [] ws := by
  have hgone : s.gone [] = [] ∧ s.join.counted = 0 ∧ s.join.joined = none := by
    obtain rfl | rfl := hx <;> simp [State.gone,hp,JoinPc.leaving,JoinPc.counted,JoinPc.joined]
  refine ⟨fun w => ?_,h.short,fun r hr => ?_,fun r hr hg hs => ?_,fun w hw => ?_,fun w hw => ?_,
    fun he => ?_,fun he => hdone he⟩
  · have hcount := h.count w
    rw [owed,hgone.1,hgone.2.1] at hcount
    rw [owed]
    obtain rfl | rfl := hy <;>
      simpa [State.gone,State.joinGoto,JoinPc.leaving,JoinPc.counted] using hcount
  · obtain hr | he := hr
    · exact h.empty r (.inl hr)
    · obtain rfl | rfl := hy <;> cases he
  · refine h.exited r hr (.inl ?_) hs
    rw [hgone.1]
    exact List.not_mem_nil
  · exact h.left w ((hleft w).mp hw).2
  · obtain hw' | ⟨rfl,hxd⟩ := hd w hw
    · refine (hleft w).mpr ⟨hx.resolve_left fun he => ?_,h.destroyed w hw'⟩
      rw [hidle he w] at hw'
      cases hw'
    · exact (hleft s.exiting).mpr ⟨hxd,.inr ⟨rfl,.inl (hp.trans hxd)⟩⟩
  · obtain rfl | rfl := hy <;> cases he

theorem DrainInv.dec {ι W : Type} {s : State ι W} {qs : Wp → List ℕ} {fs : List ℕ}
    {ws : ℕ → Option (List W)} {n : Node W} (h : DrainInv s qs fs ws) (hp : s.join = .dec n) :
    DrainInv ({ s with
      count := Function.update s.count s.exiting (s.count s.exiting - 1) }.joinGoto
        (.freeWalk n (s.links.next n))) qs fs ws := by
  have hgone : s.gone fs = fs := by
    rw [State.gone,hp]
    rfl
  refine h.joinWithin hp rfl rfl rfl rfl rfl rfl (fun _ _ hl => hl) (fun w => ?_)
    (fun r hg => .inl ?_) (by rintro _ ⟨⟩) (by rintro _ ⟨⟩)
  · show (Function.update s.count s.exiting _ w).toNat = _ +
      if w = s.exiting then fs.length + 0 else 0
    have hcount := h.count w
    rw [owed,hgone,hp] at hcount
    by_cases hwe : w = s.exiting
    · subst hwe
      rw [if_pos rfl] at hcount ⊢
      simp only [JoinPc.counted] at hcount
      rw [Function.update_self]
      have hne : s.count s.exiting ≠ 0 := by
        intro he
        rw [he] at hcount
        simp at hcount
      have hpred := toNat_pred hne
      omega
    · rw [if_neg hwe] at hcount ⊢
      rwa [Function.update_of_ne hwe]
  · rw [hgone]
    exact hg

theorem DrainInv.begin {ι W : Type} {s : State ι W} {qs : Wp → List ℕ} {ws : ℕ → Option (List W)}
    (h : DrainInv s qs [] ws) (hp : s.join = .idle) :
    DrainInv ({ s with exiting := .global }.joinGoto .sync) qs [] ws := by
  have hno : ∀ w, ¬ Left s w := by
    rintro w (hlt | ⟨_,hd | hd⟩)
    · rw [h.idle hp] at hlt
      exact Nat.not_lt_zero _ hlt
    · rw [hp] at hd
      cases hd
    · rw [hp] at hd
      cases hd
  refine h.nextPool (d:=s.destroyed) hp (.inl rfl) (.inl rfl) (fun w => ?_) (fun w => .inl)
    (fun _ w => ?_) (by rintro ⟨⟩)
  · refine ⟨fun hw => ?_,by rintro ⟨⟨⟩,_⟩⟩
    exact absurd (hw.lt rfl) (Nat.not_lt_zero _)
  · cases hd : s.destroyed w with
    | false => rfl
    | true => exact absurd (h.destroyed w hd) (hno w)

theorem DrainInv.destroy (h : DrainInv s qs [] ws) (hp : s.join = .destroy)
    (hst : Workqueue.joinGo s .destroy = some s') : DrainInv s' qs [] ws := by
  have hd : ∀ w, Function.update s.destroyed s.exiting true w = true →
      s.destroyed w = true ∨ w = s.exiting ∧ JoinPc.destroy = (.destroy : JoinPc W) := by
    intro w hw
    by_cases hwe : w = s.exiting
    · exact .inr ⟨hwe,rfl⟩
    · rw [Function.update_of_ne hwe] at hw
      exact .inl hw
  obtain ⟨_,⟨hn,rfl⟩ | ⟨v,hn,rfl⟩⟩ := destroy_spec hst
  · have hlast : s.exiting = .taskflow := by
      cases he : s.exiting with
      | taskflow => rfl
      | _ =>
        rw [he] at hn
        cases hn
    refine h.nextPool (v:=s.exiting) hp (.inr rfl) (.inr rfl) (fun w => ?_) hd (by rintro ⟨⟩)
      fun _ => hlast
    constructor
    · rintro (hlt | ⟨hwe,_⟩)
      · exact ⟨rfl,.inl hlt⟩
      · exact ⟨rfl,.inr ⟨hwe,.inl hp⟩⟩
    · rintro ⟨_,hlt | ⟨hwe,_⟩⟩
      · exact .inl hlt
      · exact .inr ⟨hwe,.inr rfl⟩
  · have hidx := Wp.index_next hn
    refine h.nextPool (v:=v) hp (.inr rfl) (.inl rfl) (fun w => ?_) hd (by rintro ⟨⟩)
      (by rintro ⟨⟩)
    constructor
    · intro hw
      have hlt : w.index < v.index := hw.lt rfl
      refine ⟨rfl,?_⟩
      by_cases hwe : w = s.exiting
      · exact .inr ⟨hwe,.inl hp⟩
      · have hne : w.index ≠ s.exiting.index := fun he => hwe (Wp.index_inj he)
        exact .inl (by omega)
    · rintro ⟨_,hlt | ⟨rfl,_⟩⟩
      · exact .inl (show w.index < v.index by omega)
      · exact .inl (show s.exiting.index < v.index by omega)

theorem DrainInv.check {q : ℕ} {n : Node W} (h : DrainInv s qs fs ws) (hi : PoolInv s qs fs)
    (hw : WorkInv s qs fs ws) (hp : s.join = .check q n)
    (hst : Workqueue.joinGo s (.check q n) = some s') : DrainInv s' qs fs ws := by
  have hj := hi.join
  rw [hp] at hj
  cases hst
  by_cases hc : (s.wq q).count = 0
  · rw [if_pos hc]
    refine h.joinTo hp rfl rfl rfl rfl rfl rfl rfl (fun _ _ => id) ?_ rfl (fun r hr => ?_)
      (by rintro _ ⟨⟩)
    · rw [State.gone,State.gone,hp]
      rfl
    · cases hr
      obtain ⟨xs,hxs⟩ := Option.isSome_iff_exists.mp (hw.listed q (.inl ⟨s.exiting,hj.2.1⟩))
      have hlen := h.short q xs hxs
      rw [(hw.list q xs hxs).count] at hc
      have hzero : xs.length = 0 := by
        have hc' := congrArg BitVec.toNat hc
        rwa [BitVec.toNat_ofNat,Nat.mod_eq_of_lt hlen] at hc'
      rw [hxs,List.length_eq_zero_iff.mp hzero]
      rfl
  · rw [if_neg hc]
    refine h.joinTo hp rfl rfl rfl rfl rfl rfl rfl (fun _ _ => id) ?_ rfl (by rintro _ ⟨⟩)
      (by rintro _ ⟨⟩)
    rw [State.gone,State.gone,hp]
    rfl

theorem DrainInv.joinGo (h : DrainInv s qs fs ws) (hi : PoolInv s qs fs) (hw : WorkInv s qs fs ws)
    (hok : ReleasedAt s s.join) (hst : Workqueue.joinGo s s.join = some s') :
    DrainInv s' (s.join.pools qs s.exiting) (s.join.frees fs) ws := by
  have hj := hi.join
  cases hp : s.join with
  | idle | done =>
    rw [hp] at hst
    cases hst
  | sync | unlockPool =>
    rw [hp] at hst
    cases hst
    refine h.joinTo hp rfl rfl rfl rfl rfl rfl rfl (fun w hwe hn => ?_) ?_ rfl (by rintro _ ⟨⟩)
      (by rintro _ ⟨⟩)
    · first | exact hn | exact (Function.update_of_ne hwe _ _).trans hn
    · rw [State.gone,State.gone,hp]
      rfl
  | settle | settleWq q n =>
    rw [hp] at hst
    obtain ⟨_,rfl⟩ := guarded_eq_some.mp hst
    refine h.joinTo hp rfl rfl rfl rfl rfl rfl rfl (fun _ _ => id) ?_ rfl (by rintro _ ⟨⟩)
      (by rintro _ ⟨⟩)
    rw [State.gone,State.gone,hp]
    rfl
  | loop =>
    rw [hp] at hst hok
    simp only [Workqueue.joinGo] at hst
    split at hst
    · cases hst
      exact h.leave hp ‹_› (hok ‹_›)
    · split at hst <;> cases hst
      · refine h.joinTo hp hp rfl rfl rfl rfl rfl rfl (fun _ _ => id) rfl rfl (by rintro _ ⟨⟩)
          (by rintro _ ⟨⟩)
      · refine h.joinTo hp rfl rfl rfl rfl rfl rfl rfl (fun _ _ => id) ?_ rfl (by rintro _ ⟨⟩)
          (by rintro _ ⟨⟩)
        rw [State.gone,State.gone,hp]
        rfl
  | lockPool =>
    rw [hp] at hst
    obtain ⟨_,rfl⟩ := guarded_eq_some.mp hst
    refine h.joinTo hp rfl rfl rfl rfl rfl rfl rfl
      (fun w hwe hn => (Function.update_of_ne hwe _ _).trans hn) ?_ rfl (by rintro _ ⟨⟩)
      (by rintro _ ⟨⟩)
    rw [State.gone,State.gone,hp]
    rfl
  | walk curr n | freeWalk curr n =>
    rw [hp] at hst
    obtain ⟨_,rfl⟩ | ⟨q,_,rfl⟩ := joinWalk_spec hst <;>
      refine h.joinTo hp rfl rfl rfl rfl rfl rfl rfl (fun _ _ => id) ?_ rfl (by rintro _ ⟨⟩)
        (by rintro _ ⟨⟩) <;> rw [State.gone,State.gone,hp] <;> rfl
  | lock q n =>
    rw [hp] at hst
    obtain ⟨_,rfl⟩ := guarded_eq_some.mp hst
    refine h.joinTo hp rfl rfl rfl rfl rfl rfl rfl (fun _ _ => id) ?_ rfl (by rintro _ ⟨⟩)
      (by rintro _ ⟨⟩)
    rw [State.gone,State.gone,hp]
    rfl
  | check q n =>
    rw [hp] at hst
    exact h.check hi hw hp hst
  | unlink q n =>
    rw [hp] at hst
    cases hst
    exact h.unlink hi hp
  | syncWq q n | keep q n | clear q n | unlock q n =>
    rw [hp] at hst
    cases hst
    refine h.joinTo hp rfl rfl rfl rfl rfl rfl rfl (fun _ _ => id) ?_ rfl (by rintro _ ⟨⟩)
      (by rintro _ ⟨⟩)
    rw [State.gone,State.gone,hp]
    rfl
  | freeTest =>
    rw [hp] at hst
    simp only [Workqueue.joinGo] at hst
    split at hst <;> cases hst <;>
      refine h.joinTo hp rfl rfl rfl rfl rfl rfl rfl (fun _ _ => id) ?_ rfl (by rintro _ ⟨⟩)
        (by rintro _ ⟨⟩) <;> rw [State.gone,State.gone,hp] <;> rfl
  | join q n =>
    rw [hp] at hst
    obtain ⟨he,rfl⟩ := guarded_eq_some.mp hst
    refine h.joinTo hp rfl rfl rfl rfl rfl rfl rfl (fun _ _ => id) ?_ rfl (by rintro _ ⟨⟩)
      fun r hr => ?_
    · rw [State.gone,State.gone,hp]
      rfl
    · cases hr
      exact he
  | free q n =>
    rw [hp] at hst
    cases hst
    exact h.free hi hp
  | dec n =>
    rw [hp] at hst
    cases hst
    exact h.dec hp
  | destroy =>
    rw [hp] at hst hj
    obtain rfl : fs = [] := hj
    exact h.destroy hp hst

theorem DrainInv.init {ι W : Type} : DrainInv (init ι W) (fun _ => []) [] (fun _ => none) where
  count w := by
    rw [owed]
    split <;> rfl
  short _ _ hr := by cases hr
  empty _ _ := rfl
  exited _ _ _ hs := by cases hs
  left _ _ := ⟨rfl,rfl⟩
  destroyed _ hd := by cases hd
  idle _ := rfl
  done hj := by cases hj

theorem DrainInv.step {act : Act ι W} (h : DrainInv s qs fs ws) (hi : PoolInv s qs fs)
    (hw : WorkInv s qs fs ws) (hl : LockInv s) (hok : Kept s act)
    (hst : Workqueue.step s act = some s') :
    DrainInv s' (act.pools s qs) (act.frees s fs) (act.works s ws) := by
  cases act with
  | call a c =>
    obtain ⟨_,rfl⟩ := guarded_eq_some.mp hst
    exact h.other rfl rfl rfl rfl (fun w hlw => (h.left w hlw).2) (fun _ _ => id) h.short
      (fun _ _ => id) fun _ => id
  | go a mem here =>
    by_cases ha : a = .joiner
    · subst ha
      rw [Workqueue.step,hi.joiner] at hst
      cases hst
    · exact h.go hi hw hl ha hok.2 hst
  | work q => exact h.workerGo hst
  | exit =>
    obtain ⟨hp,rfl⟩ := guarded_eq_some.mp hst
    have hj := hi.join
    rw [hp] at hj
    obtain rfl : fs = [] := hj
    exact h.begin hp
  | join => exact h.joinGo hi hw hok hst

theorem DrainInv.drained {ι W : Type} [DecidableEq ι] {s : State ι W} {qs : Wp → List ℕ}
    {fs : List ℕ} {ws : ℕ → Option (List W)} (h : DrainInv s qs fs ws) (hi : PoolInv s qs fs)
    (hw : WorkInv s qs fs ws) : Drained s := by
  have hall : s.join = .done → ∀ w, qs w = [] := by
    intro hj w
    refine (h.left w ?_).1
    by_cases hwe : w = s.exiting
    · exact .inr ⟨hwe,.inr hj⟩
    · refine .inl (lt_of_le_of_ne ?_ fun he => hwe (Wp.index_inj he))
      rw [h.done hj]
      exact Wp.index_le rfl w
  refine ⟨fun hj q => ?_,fun hj w => ?_,fun w hd => (h.left w (h.destroyed w hd)).2⟩
  · have hgone : s.gone fs = [] := by
      have hok := hi.join
      rw [hj] at hok
      rw [State.gone,hj,show fs = [] from hok]
      rfl
    have hout : ∀ w, q ∉ qs w := fun w hm => by
      rw [hall hj w] at hm
      cases hm
    have hheld : (s.worker q).held = [] := by
      cases hx : ws q with
      | none => rw [(hw.unused q hx).2]; rfl
      | some xs =>
        rw [h.exited q hout (.inl (hgone ▸ List.not_mem_nil)) (by rw [hx]; rfl)]
        rfl
    rw [hw.added,hheld,h.empty q (.inl hout),List.append_nil,List.append_nil]
  · have hring := hi.ring w
    rw [hall hj w] at hring
    exact (seg_nil.mp hring).1

end Steps

/-- In every interleaving of callers, workers and the exit with its abstract sections. -/
theorem Drained.of_reach {s : State ι W} (h : Reach step Kept (init ι W) s) : Drained s := by
  have hinv : ∃ qs fs ws, PoolInv s qs fs ∧ WorkInv s qs fs ws ∧ LockInv s ∧
      DrainInv s qs fs ws := by
    refine h.invariant (I:=fun s => ∃ qs fs ws, PoolInv s qs fs ∧ WorkInv s qs fs ws ∧ LockInv s ∧
      DrainInv s qs fs ws) ⟨_,_,_,.init,.init,.init,.init⟩ fun s act s' hinv hok hst => ?_
    obtain ⟨qs,fs,ws,hi,hw,hl,hd⟩ := hinv
    exact ⟨_,_,_,hi.step hst,hw.step hi hok.unlinked hst,hl.step hi hst,
      hd.step hi hw hl hok hst⟩
  obtain ⟨qs,fs,ws,hi,hw,_,hd⟩ := hinv
  exact hd.drained hi hw

/-- In every interleaving of callers, workers and the exit, over the RCU of `src/rcu/rcu.c`: the
callers are registered and publish their phase in time, and the steps of the workqueues meet the
condition. -/
theorem drained_of_kept {κ : Type} [DecidableEq κ] {nodes : List (Actor ι)}
    {r : Rcu.State (Actor ι) (Option κ)} {s : State ι W}
    (h : Reach (compose (Rcu.step nodes) Rcu.label react own)
      (both Rcu.label (Rcu.Proper nodes) (OkOver Kept)) (Rcu.init (Actor ι) (Option κ),init ι W)
      (r,s)) : Drained s :=
  .of_reach (reach_overRcu h)

/-- The threads that schedule in the runs below. -/
def schedulers : List (Actor Unit) := [.outside (),.worker 0]

def waitsOver (flipped : Bool) (gp : Rcu.Word) :
    List (Rcu.Act (Actor Unit) (Option Unit) ⊕ Act Unit Bool) :=
  [.inl (.waitPass none flipped gp (.outside ()) [.worker 0]),
    .inl (.waitPass none flipped gp (.worker 0) []),.inl (.waitDone none flipped gp)]

/-- A call of `mthpc_synchronize_rcu` by the exit, with nobody in a section. -/
def graceOver (gp : Rcu.Word) : List (Rcu.Act (Actor Unit) (Option Unit) ⊕ Act Unit Bool) :=
  [.inl (.syncCall none),.inl (.syncLock none),.inl (.syncRead none)] ++ waitsOver false gp ++
    [.inl (.readFlip none gp),.inl (.writeFlip none gp gp)] ++ waitsOver true gp ++
    [.inl (.syncUnlock none),.inl (.syncReturn none)]

def workOver (n q : ℕ) : List (Rcu.Act (Actor Unit) (Option Unit) ⊕ Act Unit Bool) :=
  List.replicate n (.inr (.work q))

def joinOver (n : ℕ) : List (Rcu.Act (Actor Unit) (Option Unit) ⊕ Act Unit Bool) :=
  List.replicate n (.inr .join)

/-- The exit takes the one workqueue out of its pool and comes to wait for its thread. -/
def unlinkOver (gp : Rcu.Word) : List (Rcu.Act (Actor Unit) (Option Unit) ⊕ Act Unit Bool) :=
  joinOver 6 ++ graceOver gp ++ joinOver 7

def flippedGp : Rcu.Word := Rcu.gpCount ^^^ Rcu.gpCtrPhase

def rescheduled : List (Rcu.Act (Actor Unit) (Option Unit) ⊕ Act Unit Bool) := List.flatten
  [scheduleOver (.outside ()) Rcu.gpCount .global false,workOver 5 0,[.inr .exit],
    graceOver Rcu.gpCount,unlinkOver flippedGp,scheduleOver (.worker 0) Rcu.gpCount .global false,
    workOver 5 1,workOver 2 0,joinOver 4,unlinkOver Rcu.gpCount,workOver 2 1,joinOver 6,
    graceOver flippedGp,joinOver 2,graceOver Rcu.gpCount,joinOver 2]

theorem drained_of_rescheduled : ∃ (r : Rcu.State (Actor Unit) (Option Unit))
    (s : State Unit Bool), Reach (compose (Rcu.step schedulers) Rcu.label react own)
      (both Rcu.label (Rcu.Proper schedulers) (OkOver Kept))
      (Rcu.init (Actor Unit) (Option Unit),init Unit Bool) (r,s) ∧
    s.join = .done ∧ s.added 0 = [false] ∧ s.added 1 = [false] ∧ Drained s := by
  have hs : (exec (restrict (compose (Rcu.step schedulers) Rcu.label react own)
      (both Rcu.label (Rcu.Proper schedulers) (OkOver Kept)))
      (Rcu.init (Actor Unit) (Option Unit),init Unit Bool) rescheduled).map
      (fun u => (u.2.join,u.2.added 0,u.2.added 1)) = some (.done,[false],[false]) := by
    decide +kernel
  obtain ⟨⟨r,s⟩,hs,hp⟩ := Option.map_eq_some_iff.mp hs
  simp only [Prod.mk.injEq] at hp
  have hr := reach_of_exec_restrict hs
  exact ⟨r,s,hr,hp.1,hp.2.1,hp.2.2,drained_of_kept hr⟩

/-- A work of the thread pool calls `mthpc_queue_work` when the join of the global pool has found
its count 0 and the lock is not destroyed yet. The work returns, and the exit goes on. -/
def queuedBehind : List (Rcu.Act (Actor Unit) (Option Unit) ⊕ Act Unit Bool) := List.flatten
  [scheduleOver (.outside ()) Rcu.gpCount .thread false,workOver 5 0,[.inr .exit],
    graceOver Rcu.gpCount,joinOver 1,scheduleOver (.worker 0) flippedGp .global true,
    joinOver 1,graceOver flippedGp,unlinkOver Rcu.gpCount,workOver 2 0,joinOver 6,
    graceOver flippedGp,joinOver 2]

/-- The new workqueue stays, and its work is not executed when the exit has returned. -/
theorem drained_fails : ¬ ∀ (r : Rcu.State (Actor Unit) (Option Unit)) (s : State Unit Bool),
    Reach (compose (Rcu.step schedulers) Rcu.label react own) Anything
      (Rcu.init (Actor Unit) (Option Unit),init Unit Bool) (r,s) → Drained s := by
  intro h
  have hs : (exec (compose (Rcu.step schedulers) Rcu.label react own)
      (Rcu.init (Actor Unit) (Option Unit),init Unit Bool) queuedBehind).map
      (fun u => (u.2.join,u.2.added 1,u.2.executed 1)) = some (.done,[true],[]) := by
    decide +kernel
  obtain ⟨⟨r,s⟩,hs,hp⟩ := Option.map_eq_some_iff.mp hs
  simp only [Prod.mk.injEq] at hp
  have hexec := (h r s (reach_of_exec hs)).executed hp.1 1
  rw [hp.2.1,hp.2.2] at hexec
  cases hexec

end Workqueue
end Mthpc
