import Mthpc.WorkqueueLifetime

/-!
# Where the memory of the workqueues is

In every run a workqueue that is allocated and not freed is in exactly one place: in the list
of one pool, with the join that has taken it out, or the `prealloc` of one call. So nothing is
freed twice and nothing is lost, and `wp->count` counts the first two. When the exit starts
after the last call has returned, it leaves no workqueue and no thread behind.
-/
namespace Mthpc
namespace Workqueue

open StepSystem Links

variable {ι W : Type} [DecidableEq ι] [DecidableEq W]

/-- The workqueues that `wp->count` counts. -/
def State.size (s : State ι W) (qs : Wp → List ℕ) (fs : List ℕ) (p : Wp) : ℕ :=
  (qs p).length + if p = s.exiting then (s.gone fs).length + s.join.counted else 0

/-- Each allocated workqueue has a place, and the counts are right. -/
structure MemoryInv (s : State ι W) (qs : Wp → List ℕ) (fs : List ℕ) : Prop
    extends PoolInv s qs fs where
  kept : ∀ q, s.live q = true →
    (∃ p, q ∈ qs p) ∨ q ∈ s.gone fs ∨ ∃ a, (s.pc a).prealloc = some q
  counts : ∀ p, s.count p = BitVec.ofNat 32 (s.size qs fs p)

theorem Pc.owned_of_prealloc {W : Type} {p : Pc W} {q : ℕ} (h : p.prealloc = some q) :
    p.owned = some q := by
  cases p with
  | unlockPool c pre r =>
    obtain rfl : pre = some q := h
    rfl
  | setCpu | addPre | lockPool | recheck | publish | lock | add | unlock | drop => exact h
  | _ => cases h

section Steps

variable {s s' : State ι W} {qs qs' : Wp → List ℕ} {fs fs' : List ℕ} {a : Actor ι} {p : Pc W}
  {q : ℕ} {act : Act ι W}

section

omit [DecidableEq W]

theorem MemoryInv.same (h : MemoryInv s qs fs) (h' : PoolInv s' qs fs) {x : Pc W}
    (hp : s.pc a = x) (hpc : s'.pc = Function.update s.pc a p)
    (hpre : p.prealloc = x.prealloc) (hlive : s'.live = s.live) (hcount : s'.count = s.count)
    (hjoin : s'.join = s.join) (hexit : s'.exiting = s.exiting) : MemoryInv s' qs fs := by
  refine ⟨h',fun q hq => ?_,fun w => ?_⟩
  · rw [hlive] at hq
    rw [State.gone,hjoin]
    refine (h.kept q hq).imp id (Or.imp id fun hb => ?_)
    obtain ⟨b,hb⟩ := hb
    refine ⟨b,?_⟩
    rw [hpc]
    by_cases hba : b = a
    · rw [hba,Function.update_self,hpre,← hp,← hba]
      exact hb
    · rwa [Function.update_of_ne hba]
  · rw [hcount,h.counts,State.size,State.size,State.gone,State.gone,hjoin,hexit]

theorem MemoryInv.other (h : MemoryInv s qs fs) (h' : PoolInv s' qs fs) (hpc : s'.pc = s.pc)
    (hlive : s'.live = s.live) (hcount : s'.count = s.count) (hjoin : s'.join = s.join)
    (hexit : s'.exiting = s.exiting) : MemoryInv s' qs fs := by
  refine ⟨h',fun q hq => ?_,fun w => ?_⟩
  · rw [hlive] at hq
    rw [State.gone,hjoin,hpc]
    exact h.kept q hq
  · rw [hcount,h.counts,State.size,State.size,State.gone,State.gone,hjoin,hexit]

theorem MemoryInv.publish {c : Call W} {pre : ℕ} (h : MemoryInv s qs fs)
    (hp : s.pc a = .publish c pre)
    (h' : PoolInv s' (Function.update qs c.wp (qs c.wp ++ [pre])) fs)
    (hpc : s'.pc = Function.update s.pc a (.unlockPool c none pre)) (hlive : s'.live = s.live)
    (hcount : s'.count = Function.update s.count c.wp (s.count c.wp + 1))
    (hjoin : s'.join = s.join) (hexit : s'.exiting = s.exiting) :
    MemoryInv s' (Function.update qs c.wp (qs c.wp ++ [pre])) fs := by
  refine ⟨h',fun q hq => ?_,fun w => ?_⟩
  · rw [hlive] at hq
    rw [State.gone,hjoin,hpc]
    obtain ⟨w,hw⟩ | hg | ⟨b,hb⟩ := h.kept q hq
    · refine .inl ⟨w,?_⟩
      by_cases he : w = c.wp
      · rw [he,Function.update_self]
        exact List.mem_append_left _ (he ▸ hw)
      · rwa [Function.update_of_ne he]
    · exact .inr (.inl hg)
    · by_cases hba : b = a
      · rw [hba,hp] at hb
        obtain rfl := Option.some.inj hb
        exact .inl ⟨c.wp,by simp⟩
      · exact .inr (.inr ⟨b,by rwa [Function.update_of_ne hba]⟩)
  · rw [hcount,State.size,State.gone,hjoin,hexit]
    have hw := h.counts w
    rw [State.size,State.gone] at hw
    by_cases he : w = c.wp
    · subst he
      have hlen : (qs c.wp ++ [pre]).length = (qs c.wp).length + 1 := by simp
      rw [Function.update_self,Function.update_self,hw,hlen,Nat.add_right_comm,
        BitVec.ofNat_add _ 1]
      rfl
    · rw [Function.update_of_ne he,Function.update_of_ne he,hw]

end

theorem MemoryInv.go {mem : Option Word} {here : Word} (h : MemoryInv s qs fs)
    (ha : a ≠ .joiner) (hst : Workqueue.go s a mem here (s.pc a) = some s') :
    MemoryInv s' ((s.pc a).pools qs) fs := by
  have h' := h.toPoolInv.go ha hst
  cases hp : s.pc a with
  | idle =>
    rw [hp] at hst
    cases hst
  | init c | enter c | first c | add c pre q | setCpu c pre | addPre c pre | create q | store q
  | wake q =>
    rw [hp] at hst h'
    cases hst
    exact h.same h' hp rfl rfl rfl rfl rfl rfl
  | walk c pos =>
    rw [hp] at hst h'
    obtain ⟨_,rfl⟩ | ⟨q,_,⟨_,rfl⟩ | ⟨_,rfl⟩⟩ := walk_spec hst <;>
      exact h.same h' hp rfl rfl rfl rfl rfl rfl
  | recheck c pre pos =>
    rw [hp] at hst h'
    obtain ⟨_,rfl⟩ | ⟨q,_,⟨_,rfl⟩ | ⟨_,rfl⟩⟩ := recheck_spec hst <;>
      exact h.same h' hp rfl rfl rfl rfl rfl rfl
  | lock c pre q | lockPool c pre =>
    rw [hp] at hst h'
    obtain ⟨_,rfl⟩ := guarded_eq_some.mp hst
    exact h.same h' hp rfl rfl rfl rfl rfl rfl
  | unlock c pre q =>
    rw [hp] at hst h'
    cases pre <;> cases hst <;> exact h.same h' hp rfl rfl rfl rfl rfl rfl
  | leave c wq =>
    rw [hp] at hst h'
    cases wq <;> cases hst <;> exact h.same h' hp rfl rfl rfl rfl rfl rfl
  | unlockPool c pre q =>
    rw [hp] at hst h'
    cases pre <;> cases hst <;> exact h.same h' hp rfl rfl rfl rfl rfl rfl
  | alloc c =>
    rw [hp] at hst h'
    cases mem with
    | none =>
      cases hst
      exact h.same h' hp rfl rfl rfl rfl rfl rfl
    | some mem =>
      cases hst
      refine ⟨h',fun q hq => ?_,h.counts⟩
      by_cases hn : q = s.nextWq
      · exact .inr (.inr ⟨a,by simp [State.goto,Pc.prealloc,hn]⟩)
      · have hq' : s.live q = true := by
          simpa [allocWorkqueue,State.goto,Function.update_of_ne hn] using hq
        refine (h.kept q hq').imp id (Or.imp id fun hb => ?_)
        obtain ⟨b,hb⟩ := hb
        refine ⟨b,?_⟩
        have hba : b ≠ a := fun he => by simp [he,hp,Pc.prealloc] at hb
        simpa [State.goto,allocWorkqueue,Function.update_of_ne hba] using hb
  | publish c pre =>
    rw [hp] at hst h'
    cases hst
    exact h.publish hp h' rfl rfl rfl rfl rfl
  | drop pre r =>
    rw [hp] at hst h'
    cases hst
    refine ⟨h',fun q hq => ?_,h.counts⟩
    have hq' : q ≠ pre ∧ s.live q = true := by
      by_cases he : q = pre
      · simp [State.goto,he] at hq
      · exact ⟨he,by simpa [State.goto,Function.update_of_ne he] using hq⟩
    refine (h.kept q hq'.2).imp id (Or.imp id fun hb => ?_)
    obtain ⟨b,hb⟩ := hb
    refine ⟨b,?_⟩
    have hba : b ≠ a := by
      rintro rfl
      rw [hp] at hb
      exact hq'.1 (Option.some.inj hb).symm
    simpa [State.goto,Function.update_of_ne hba] using hb

theorem MemoryInv.joinSame {ι W : Type} [DecidableEq ι] {s s' : State ι W} {qs : Wp → List ℕ}
    {fs : List ℕ} (h : MemoryInv s qs fs) (h' : PoolInv s' qs fs) (hpc : s'.pc = s.pc)
    (hlive : s'.live = s.live) (hcount : s'.count = s.count)
    (hgone : s'.join.leaving = s.join.leaving) (hc : s'.join.counted = s.join.counted)
    (hexit : s'.exiting = s.exiting) : MemoryInv s' qs fs := by
  refine ⟨h',fun q hq => ?_,fun w => ?_⟩
  · rw [hlive] at hq
    rw [State.gone,hgone,hpc]
    exact h.kept q hq
  · rw [hcount,h.counts,State.size,State.size,State.gone,State.gone,hgone,hc,hexit]

theorem MemoryInv.nextPool {ι W : Type} [DecidableEq ι] {s s' : State ι W} {qs : Wp → List ℕ}
    (h : MemoryInv s qs []) (h' : PoolInv s' qs []) (hpc : s'.pc = s.pc)
    (hlive : s'.live = s.live) (hcount : s'.count = s.count) (hx : s.join.leaving = none)
    (hx' : s'.join.leaving = none) (hc : s.join.counted = 0) (hc' : s'.join.counted = 0) :
    MemoryInv s' qs [] := by
  refine ⟨h',fun q hq => ?_,fun w => ?_⟩
  · rw [hlive] at hq
    have hk := h.kept q hq
    rw [State.gone,hx] at hk
    rw [State.gone,hx',hpc]
    exact hk
  · rw [hcount,h.counts,State.size,State.size,State.gone,State.gone,hx,hx',hc,hc']
    simp

theorem MemoryInv.unlink {q : ℕ} {n : Node W} (h : MemoryInv s qs fs) (hp : s.join = .unlink q n)
    (hst : Workqueue.joinGo s (.unlink q n) = some s')
    (h' : PoolInv s' ((JoinPc.unlink q n).pools qs s.exiting) ((JoinPc.unlink q n).frees fs)) :
    MemoryInv s' ((JoinPc.unlink q n).pools qs s.exiting) ((JoinPc.unlink q n).frees fs) := by
  have hj := h.join
  rw [hp] at hj
  cases hst
  obtain ⟨_,hq,_⟩ := hj
  refine ⟨h',fun r hr => ?_,fun w => ?_⟩
  · by_cases hrq : r = q
    · exact .inr (.inl (by simp [State.gone,State.joinGoto,JoinPc.leaving,hrq]))
    · obtain ⟨w,hw⟩ | hg | hb := h.kept r hr
      · refine .inl ⟨w,?_⟩
        rw [JoinPc.pools]
        by_cases he : w = s.exiting
        · rw [he,Function.update_self]
          exact (List.mem_erase_of_ne hrq).mpr (he ▸ hw)
        · rwa [Function.update_of_ne he]
      · refine .inr (.inl ?_)
        rw [State.gone,hp] at hg
        exact List.mem_append_right _ hg
      · exact .inr (.inr hb)
  · have hw := h.counts w
    have hlen := List.length_erase_of_mem hq
    have hpos := List.length_pos_of_mem hq
    rw [State.size,State.gone,hp] at hw
    refine hw.trans ?_
    rw [State.size,State.gone,JoinPc.pools]
    by_cases he : w = s.exiting
    · subst he
      simp only [Function.update_self,State.joinGoto,State.setLinks,if_true,JoinPc.leaving,
        Option.toList,JoinPc.counted,hlen,JoinPc.frees,List.nil_append,List.length_append,
        List.length_cons,List.length_nil]
      congr 1
      omega
    · simp [State.joinGoto,State.setLinks,he]

theorem MemoryInv.free {q : ℕ} {n : Node W} (h : MemoryInv s qs fs) (hp : s.join = .free q n)
    (hst : Workqueue.joinGo s (.free q n) = some s')
    (h' : PoolInv s' ((JoinPc.free q n).pools qs s.exiting) ((JoinPc.free q n).frees fs)) :
    MemoryInv s' ((JoinPc.free q n).pools qs s.exiting) ((JoinPc.free q n).frees fs) := by
  have hj := h.join
  rw [hp] at hj
  cases hst
  obtain ⟨rest,rfl,_⟩ := hj
  have hgone : s.gone (q::rest) = q::rest := by
    rw [State.gone,hp]
    rfl
  refine ⟨h',fun r hr => ?_,fun w => ?_⟩
  · have hr' : r ≠ q ∧ s.live r = true := by
      by_cases he : r = q
      · simp [State.joinGoto,he] at hr
      · exact ⟨he,by simpa [State.joinGoto,Function.update_of_ne he] using hr⟩
    refine (h.kept r hr'.2).imp id (Or.imp (fun hg => ?_) id)
    rw [hgone] at hg
    exact (List.mem_cons.mp hg).resolve_left hr'.1
  · have hw := h.counts w
    rw [State.size,hgone,hp] at hw
    refine hw.trans ?_
    rw [State.size]
    by_cases he : w = s.exiting <;>
      simp [he,State.joinGoto,State.gone,JoinPc.leaving,JoinPc.counted,JoinPc.frees,JoinPc.pools]

theorem MemoryInv.joinGo (h : MemoryInv s qs fs)
    (hst : Workqueue.joinGo s s.join = some s') :
    MemoryInv s' (s.join.pools qs s.exiting) (s.join.frees fs) := by
  have h' := h.toPoolInv.joinGo hst
  have hj := h.join
  cases hp : s.join with
  | idle | done =>
    rw [hp] at hst
    cases hst
  | sync | check | syncWq | clear | unlock | unlockPool =>
    rw [hp] at hst h'
    cases hst
    refine h.joinSame h' rfl rfl rfl ?_ ?_ rfl <;> rw [hp] <;>
      first | rfl | (simp only [State.joinGoto]; split <;> rfl)
  | settle | lockPool | lock | settleWq | join =>
    rw [hp] at hst h'
    obtain ⟨_,rfl⟩ := guarded_eq_some.mp hst
    refine h.joinSame h' rfl rfl rfl ?_ ?_ rfl <;> rw [hp] <;> rfl
  | walk | freeWalk =>
    rw [hp] at hst h'
    obtain ⟨_,rfl⟩ | ⟨q,_,rfl⟩ := joinWalk_spec hst <;>
      (refine h.joinSame h' rfl rfl rfl ?_ ?_ rfl <;> rw [hp] <;> rfl)
  | loop =>
    rw [hp] at hst h'
    simp only [Workqueue.joinGo] at hst
    split at hst
    · cases hst
      refine h.joinSame h' rfl rfl rfl ?_ ?_ rfl <;> rw [hp] <;> rfl
    · split at hst <;> cases hst <;>
        (refine h.joinSame h' rfl rfl rfl ?_ ?_ rfl <;> simp [hp,State.joinGoto] <;> rfl)
  | freeTest =>
    rw [hp] at hst h'
    simp only [Workqueue.joinGo] at hst
    split at hst <;> cases hst <;>
      (refine h.joinSame h' rfl rfl rfl ?_ ?_ rfl <;> rw [hp] <;> rfl)
  | unlink q n =>
    rw [hp] at hst h'
    exact h.unlink hp hst h'
  | keep q n =>
    rw [hp] at hst h'
    cases hst
    have hgone : ((s.setLinks (ListHead.add s.links (.queue q) .free)).joinGoto
        (.clear q n)).gone (q::fs) = s.gone fs := by
      rw [State.gone,State.gone,hp]
      rfl
    refine ⟨h',fun r hr => ?_,fun w => ?_⟩
    · rw [JoinPc.frees,hgone]
      exact h.kept r hr
    · have hw := h.counts w
      rw [State.size,hp] at hw
      rw [State.size,JoinPc.frees,hgone]
      exact hw
  | free q n =>
    rw [hp] at hst h'
    exact h.free hp hst h'
  | dec n =>
    rw [hp] at hst h'
    cases hst
    refine ⟨h',fun r hr => ?_,fun w => ?_⟩
    · have hk := h.kept r hr
      rw [State.gone,hp] at hk
      exact hk
    · have hw := h.counts w
      rw [State.size,State.gone,hp] at hw
      rw [State.size,State.gone]
      by_cases he : w = s.exiting
      · subst he
        simp only [State.joinGoto,Function.update_self,hw,if_true,JoinPc.pools,JoinPc.frees,
          JoinPc.counted,JoinPc.leaving,Option.toList,List.nil_append]
        rw [← Nat.add_assoc,BitVec.ofNat_add _ 1,Nat.add_zero]
        exact BitVec.add_sub_cancel _ _
      · simp [State.joinGoto,hw,he,JoinPc.pools]
  | destroy =>
    rw [hp] at hst h' hj
    obtain rfl : fs = [] := hj
    obtain ⟨_,⟨_,rfl⟩ | ⟨p,_,rfl⟩⟩ := destroy_spec hst <;>
      exact h.nextPool h' rfl rfl rfl (by rw [hp]; rfl) rfl (by rw [hp]; rfl) rfl

theorem MemoryInv.init {ι W : Type} [DecidableEq ι] : MemoryInv (init ι W) (fun _ => []) [] where
  toPoolInv := .init
  kept q hq := by simp [Workqueue.init] at hq
  counts p := by simp [State.size,State.gone,Workqueue.init,JoinPc.leaving,JoinPc.counted]

theorem workerGo_alone {ι W : Type} [DecidableEq W] {s s' : State ι W} {q : ℕ}
    (h : workerGo s q (s.worker q) = some s') :
    s'.count = s.count ∧ s'.join = s.join ∧ s'.exiting = s.exiting ∧
      s'.destroyed = s.destroyed ∧ ∀ r, s'.worker r = s.worker r ∨
        s.worker r ≠ .absent ∧ s.worker r ≠ .exited := by
  have hr : ∀ {t : State ι W} {x : WorkerPc W}, t.worker = s.worker → s.worker q ≠ .absent →
      s.worker q ≠ .exited → ∀ r, (t.workerGoto q x).worker r = s.worker r ∨
        s.worker r ≠ .absent ∧ s.worker r ≠ .exited := by
    intro t x ht ha he r
    by_cases hrq : r = q
    · exact .inr (hrq ▸ ⟨ha,he⟩)
    · exact .inl (by simp [State.workerGoto,ht,hrq])
  cases hp : s.worker q with
  | absent | exited =>
    rw [hp] at h
    cases h
  | pop =>
    rw [hp] at h
    obtain ⟨_,rfl⟩ | ⟨w,_,rfl⟩ := pop_spec h <;>
      exact ⟨rfl,rfl,rfl,rfl,hr rfl (by simp [hp]) (by simp [hp])⟩
  | lock | wait | run =>
    rw [hp] at h
    obtain ⟨_,rfl⟩ := guarded_eq_some.mp h
    exact ⟨rfl,rfl,rfl,rfl,hr rfl (by simp [hp]) (by simp [hp])⟩
  | test | unlock | call =>
    rw [hp] at h
    cases h
    exact ⟨rfl,rfl,rfl,rfl,hr rfl (by simp [hp]) (by simp [hp])⟩

theorem MemoryInv.step (h : MemoryInv s qs fs) (hst : Workqueue.step s act = some s') :
    MemoryInv s' (act.pools s qs) (act.frees s fs) := by
  have h' := h.toPoolInv.step hst
  cases act with
  | call a c =>
    obtain ⟨hm,rfl⟩ := guarded_eq_some.mp hst
    exact h.same h' (mayCall_pc hm).2 rfl rfl rfl rfl rfl rfl
  | go a mem here =>
    by_cases ha : a = .joiner
    · subst ha
      rw [Workqueue.step,h.joiner] at hst
      cases hst
    · exact h.go ha hst
  | work q =>
    obtain ⟨hpc,hlive,_⟩ := workerGo_same hst
    obtain ⟨hc,hj,he,_⟩ := workerGo_alone hst
    exact h.other h' hpc hlive hc hj he
  | exit =>
    obtain ⟨hp,rfl⟩ := guarded_eq_some.mp hst
    have hj := h.join
    rw [hp] at hj
    obtain rfl : fs = [] := hj
    exact h.nextPool h' rfl rfl rfl (by rw [hp]; rfl) rfl (by rw [hp]; rfl) rfl
  | join => exact h.joinGo hst

/-- The places of a workqueue. -/
inductive Place (ι : Type)
  | pool (p : Wp)
  | join
  | call (a : Actor ι)

def At (s : State ι W) (qs : Wp → List ℕ) (fs : List ℕ) (q : ℕ) : Place ι → Prop
  | .pool p => q ∈ qs p
  | .join => q ∈ s.gone fs
  | .call a => (s.pc a).prealloc = some q

/-- `qs` are the lists of the pools and `fs` the list that the join frees. -/
structure MemoryKept (s : State ι W) (qs : Wp → List ℕ) (fs : List ℕ) : Prop where
  pools : ∀ p, Seg s.links (.pool p) ((qs p).map .queue) (.pool p) ∧ (qs p).Nodup
  join : JoinOk s qs fs s.join ∧ (s.gone fs).Nodup
  place : ∀ q, s.live q = true ↔ ∃! x, At s qs fs q x
  counts : ∀ p, s.count p = BitVec.ofNat 32 (s.size qs fs p)
  dropped : ∀ a pre q, s.pc a = .drop pre q → s.live pre = true
  joined : ∀ q n, s.join = .free q n → s.live q = true

theorem MemoryInv.at_live {ι W : Type} [DecidableEq ι] {s : State ι W} {qs : Wp → List ℕ}
    {fs : List ℕ} {q : ℕ} (h : MemoryInv s qs fs) {x : Place ι} (hx : At s qs fs q x) :
    s.live q = true := by
  cases x with
  | pool p => exact (h.linked p q hx).1.2
  | join => exact (h.gone q hx).1.1.2
  | call a =>
    by_contra hl
    have hok := h.call a
    cases hp : s.pc a <;> simp only [At,hp,Pc.prealloc,reduceCtorEq,Option.some.injEq] at hx <;>
      rw [hp] at hok <;> subst hx
    all_goals first
      | exact hl hok.1.1.1.2
      | exact hl hok.1.1.2
      | exact hl hok.1.2
      | exact hl (hok.1 q rfl).1.2

theorem MemoryInv.at_unique {ι W : Type} [DecidableEq ι] {s : State ι W} {qs : Wp → List ℕ}
    {fs : List ℕ} {q : ℕ} (h : MemoryInv s qs fs) {x y : Place ι} (hx : At s qs fs q x)
    (hy : At s qs fs q y) : x = y := by
  cases x with
  | pool p => cases y with
    | pool p' => rw [h.same_pool hx hy]
    | join => exact absurd hx ((h.gone q hy).2 p)
    | call a => exact absurd hy (h.not_prealloc (.inl ⟨p,hx⟩) a)
  | join => cases y with
    | pool p => exact absurd hy ((h.gone q hx).2 p)
    | join => rfl
    | call a => exact absurd hy (h.not_prealloc (.inr hx) a)
  | call a => cases y with
    | pool p => exact absurd hx (h.not_prealloc (.inl ⟨p,hy⟩) a)
    | join => exact absurd hx (h.not_prealloc (.inr hy) a)
    | call b => rw [h.owner a b q (Pc.owned_of_prealloc hx) (Pc.owned_of_prealloc hy)]

theorem MemoryInv.allKept {ι W : Type} [DecidableEq ι] {s : State ι W} {qs : Wp → List ℕ}
    {fs : List ℕ} (h : MemoryInv s qs fs) : MemoryKept s qs fs where
  pools p := ⟨h.ring p,h.nodup p⟩
  join := ⟨h.join,h.goneNodup⟩
  place q := by
    constructor
    · intro hq
      obtain ⟨p,hp⟩ | hg | ⟨a,ha⟩ := h.kept q hq
      · exact ⟨.pool p,hp,fun y hy => h.at_unique hy hp⟩
      · exact ⟨.join,hg,fun y hy => h.at_unique hy hg⟩
      · exact ⟨.call a,ha,fun y hy => h.at_unique hy ha⟩
    · rintro ⟨x,hx,_⟩
      exact h.at_live hx
  counts := h.counts
  dropped a pre q hp := h.at_live (x:=.call a) (by rw [At,hp]; rfl)
  joined q n hp := by
    have hj := h.join
    rw [hp] at hj
    obtain ⟨rest,rfl,_⟩ := hj
    exact h.at_live (x:=.join) (List.mem_append_right _ List.mem_cons_self)

end Steps

/-- In every run, whatever is scheduled and joined. Since no name is allocated twice, and what a
step frees was allocated, no workqueue is freed twice. -/
theorem memoryKept {s : State ι W} (h : Reach step Anything (init ι W) s) :
    ∃ qs fs, MemoryKept s qs fs := by
  obtain ⟨qs,fs,hi⟩ := h.invariant (I:=fun s => ∃ qs fs, MemoryInv s qs fs) ⟨_,_,.init⟩
    fun t a u ⟨qs,fs,hi⟩ _ hst => ⟨_,_,hi.step hst⟩
  exact ⟨qs,fs,hi.allKept⟩

/-- Two calls find the pool empty and make a workqueue each; one of them finds the other's. -/
def goes (t : Bool) (n : ℕ) : List (Act Bool Bool) :=
  List.replicate n (.go (.outside t) (some 0) 0)

def startCall (t : Bool) : List (Act Bool Bool) := [.call (.outside t) ⟨.global,0,t⟩] ++ goes t 5

def racedCalls : List (Act Bool Bool) :=
  startCall true ++ startCall false ++ goes true 7 ++ goes false 9

theorem memoryKept_racedCalls : ∃ s : State Bool Bool, Reach step Anything (init Bool Bool) s ∧
    s.pc (.outside false) = .drop 1 0 ∧ ∃ qs fs, MemoryKept s qs fs := by
  have hs : (exec step (init Bool Bool) racedCalls).map (fun s => s.pc (.outside false)) =
      some (.drop 1 0) := by decide
  obtain ⟨s,hs,hp⟩ := Option.map_eq_some_iff.mp hs
  exact ⟨s,reach_of_exec hs,hp,memoryKept (reach_of_exec hs)⟩

/-- The calls have returned when the exit begins and none begins after it, and fewer than 2^32
workqueues are made. -/
def QuietExit (s : State ι W) : Act ι W → Prop
  | .call _ _ => s.join = .idle
  | .exit => ∀ a, s.pc a = .idle
  | .go _ _ _ => s.nextWq + 1 < 2^32
  | _ => True

/-- The exit leaves each pool empty behind it. -/
structure QuietInv (s : State ι W) (qs : Wp → List ℕ) (fs : List ℕ) : Prop
    extends MemoryInv s qs fs where
  life : LifeInv s
  few : s.nextWq < 2^32
  calls : s.join ≠ .idle → ∀ a, s.pc a = .idle
  fresh : s.join = .idle → ∀ p, s.destroyed p = false
  past : ∀ p, s.destroyed p = true → qs p = []
  ended : s.join = .destroy → qs s.exiting = []
  order : s.join ≠ .idle → ∀ p, p.index < s.exiting.index → s.destroyed p = true
  done : s.join = .done → ∀ p, s.destroyed p = true
  joined : ∀ q n, s.join = .free q n → s.worker q = .exited
  dead : ∀ q, s.live q = false → s.worker q = .absent ∨ s.worker q = .exited

section Quiet

variable {s s' : State ι W} {qs : Wp → List ℕ} {fs : List ℕ} {a : Actor ι} {q : ℕ}
  {act : Act ι W}

theorem QuietInv.empty {ι W : Type} [DecidableEq ι] {s : State ι W} {qs : Wp → List ℕ} {fs : List ℕ}
    (h : QuietInv s qs fs) {p : Wp} (hc : s.count p = 0)
    (hout : p ≠ s.exiting ∨ s.gone fs = [] ∧ s.join.counted = 0) : qs p = [] := by
  have hp := h.counts p
  have hsize : s.size qs fs p = (qs p).length := by
    rw [State.size]
    obtain he | ⟨hg,hj⟩ := hout
    · rw [if_neg he,Nat.add_zero]
    · simp [hg,hj]
  rw [hc,hsize] at hp
  have hn := congrArg BitVec.toNat hp
  have hlt : (qs p).length < 2^32 := (h.length_le p).trans_lt h.few
  rw [BitVec.toNat_ofNat,Nat.mod_eq_of_lt hlt] at hn
  exact List.eq_nil_of_length_eq_zero hn.symm

theorem go_storage {mem : Option Word} {here : Word} (h : PoolInv s qs fs)
    (hl : LifeInv s) (hst : Workqueue.go s a mem here (s.pc a) = some s') :
    s'.nextWq ≤ s.nextWq + 1 ∧ s'.join = s.join ∧ s'.exiting = s.exiting ∧
      s'.destroyed = s.destroyed ∧
      ∀ q, s'.live q = false → s'.worker q = s.worker q ∧
        (s.live q = false ∨ s.worker q = .absent) := by
  have hsame : ∀ {t : State ι W}, t.live = s.live → t.worker = s.worker →
      ∀ q, t.live q = false → t.worker q = s.worker q ∧
        (s.live q = false ∨ s.worker q = .absent) := by
    intro t hlive hw q hq
    exact ⟨by rw [hw],.inl (by rwa [hlive] at hq)⟩
  cases hp : s.pc a with
  | idle =>
    rw [hp] at hst
    cases hst
  | init c | enter c | first c | add c pre q | setCpu c pre | addPre c pre | store q | wake q
  | leave c wq | publish c pre | unlockPool c pre q =>
    rw [hp] at hst
    cases hst
    exact ⟨Nat.le_succ _,rfl,rfl,rfl,hsame rfl rfl⟩
  | walk c pos =>
    rw [hp] at hst
    obtain ⟨_,rfl⟩ | ⟨q,_,⟨_,rfl⟩ | ⟨_,rfl⟩⟩ := walk_spec hst <;>
      exact ⟨Nat.le_succ _,rfl,rfl,rfl,hsame rfl rfl⟩
  | recheck c pre pos =>
    rw [hp] at hst
    obtain ⟨_,rfl⟩ | ⟨q,_,⟨_,rfl⟩ | ⟨_,rfl⟩⟩ := recheck_spec hst <;>
      exact ⟨Nat.le_succ _,rfl,rfl,rfl,hsame rfl rfl⟩
  | lock c pre q | lockPool c pre =>
    rw [hp] at hst
    obtain ⟨_,rfl⟩ := guarded_eq_some.mp hst
    exact ⟨Nat.le_succ _,rfl,rfl,rfl,hsame rfl rfl⟩
  | unlock c pre q =>
    rw [hp] at hst
    cases pre <;> cases hst <;> exact ⟨Nat.le_succ _,rfl,rfl,rfl,hsame rfl rfl⟩
  | alloc c =>
    rw [hp] at hst
    cases mem with
    | none =>
      cases hst
      exact ⟨Nat.le_succ _,rfl,rfl,rfl,hsame rfl rfl⟩
    | some mem =>
      cases hst
      refine ⟨le_rfl,rfl,rfl,rfl,fun q hq => ⟨rfl,.inl ?_⟩⟩
      by_cases he : q = s.nextWq
      · simp [State.goto,allocWorkqueue,he] at hq
      · simpa [State.goto,allocWorkqueue,he] using hq
  | create r =>
    rw [hp] at hst
    cases hst
    refine ⟨Nat.le_succ _,rfl,rfl,rfl,fun q hq => ?_⟩
    have hr : s.live r = true := (hl a r (by rw [hp]; rfl)).1.2
    have he : q ≠ r := fun he => by
      have hq' : s.live q = false := hq
      rw [he,hr] at hq'
      cases hq'
    exact ⟨by simp [State.goto,State.workerGoto,he],.inl hq⟩
  | drop pre r =>
    rw [hp] at hst
    cases hst
    refine ⟨Nat.le_succ _,rfl,rfl,rfl,fun q hq => ⟨rfl,?_⟩⟩
    by_cases he : q = pre
    · exact .inr (he ▸ (h.absent a pre (by rw [hp]; rfl)).2)
    · exact .inl (by simpa [State.goto,he] using hq)

theorem QuietInv.go {mem : Option Word} {here : Word} (h : QuietInv s qs fs)
    (hfew : s.nextWq + 1 < 2^32) (ha : a ≠ .joiner)
    (hst : Workqueue.go s a mem here (s.pc a) = some s') : QuietInv s' ((s.pc a).pools qs) fs := by
  obtain ⟨hn,hj,he,hd,hw⟩ := go_storage h.toPoolInv h.life hst
  have hidle : s.join = .idle := by
    by_contra hne
    rw [h.calls hne a] at hst
    cases hst
  have hidle' : s'.join = .idle := hj.trans hidle
  have hfresh : ∀ p, s'.destroyed p = false := fun p => by rw [hd]; exact h.fresh hidle p
  refine ⟨h.toMemoryInv.go ha hst,h.life.go h.toPoolInv hst,hn.trans_lt hfew,
    fun hne => absurd hidle' hne,fun _ => hfresh,fun p hp => ?_,fun hp => ?_,
    fun hne => absurd hidle' hne,fun hp => ?_,fun q n hp => ?_,fun q hq => ?_⟩
  · rw [hfresh p] at hp
    cases hp
  · rw [hidle'] at hp
    cases hp
  · rw [hidle'] at hp
    cases hp
  · rw [hidle'] at hp
    cases hp
  · obtain ⟨hsame,hl | hl⟩ := hw q hq
    · rw [hsame]
      exact h.dead q hl
    · exact .inl (hsame.trans hl)

theorem QuietInv.joinSame {ι W : Type} [DecidableEq ι] {s s' : State ι W} {qs : Wp → List ℕ}
    {fs : List ℕ} {qs' : Wp → List ℕ} {fs' : List ℕ} (h : QuietInv s qs fs)
    (h' : MemoryInv s' qs' fs') (hl : LifeInv s') (hn : s'.nextWq = s.nextWq)
    (hpc : s'.pc = s.pc) (hi : s.join ≠ .idle) (hi' : s'.join ≠ .idle)
    (hd : s'.destroyed = s.destroyed) (he : s'.exiting = s.exiting)
    (hqs : ∀ p, qs p = [] → qs' p = []) (hend : s'.join = .destroy → qs' s.exiting = [])
    (hdone : s'.join ≠ .done) (hfree : ∀ q n, s'.join = .free q n → s'.worker q = .exited)
    (hdead : ∀ q, s'.live q = false → s'.worker q = .absent ∨ s'.worker q = .exited) :
    QuietInv s' qs' fs' := by
  refine ⟨h',hl,by rw [hn]; exact h.few,fun _ a => by rw [hpc]; exact h.calls hi a,
    fun hc => absurd hc hi',fun p hp => ?_,fun hp => ?_,fun _ p hp => ?_,fun hp => absurd hp hdone,
    hfree,hdead⟩
  · rw [hd] at hp
    exact hqs p (h.past p hp)
  · rw [he]
    exact hend hp
  · rw [he] at hp
    rw [hd]
    exact h.order hi p hp

/-- The pool is destroyed when it is empty, and the exit goes to the next one. -/
theorem QuietInv.destroy (h : QuietInv s qs fs) (hp : s.join = .destroy)
    (hst : Workqueue.joinGo s s.join = some s') : QuietInv s' qs fs := by
  have h' := h.toMemoryInv.joinGo hst
  have hl : LifeInv s' := h.life.joinGo (by rw [hp]; trivial) hst
  have hi : s.join ≠ .idle := by simp [hp]
  rw [hp] at hst h'
  have hpast : ∀ p, Function.update s.destroyed s.exiting true p = true → qs p = [] := by
    intro p hd
    by_cases he : p = s.exiting
    · exact he ▸ h.ended hp
    · exact h.past p (by simpa [he] using hd)
  have hle : ∀ p, p.index ≤ s.exiting.index →
      Function.update s.destroyed s.exiting true p = true := by
    intro p hle
    by_cases he : p = s.exiting
    · simp [he]
    · rw [Function.update_of_ne he]
      exact h.order hi p (lt_of_le_of_ne hle fun hpl => he (Wp.index_inj hpl))
  obtain ⟨_,⟨hnext,rfl⟩ | ⟨p',hnext,rfl⟩⟩ := destroy_spec hst
  · exact ⟨h',hl,h.few,fun _ => h.calls hi,(by rintro ⟨⟩),hpast,(by rintro ⟨⟩),
      fun _ p hlt => hle p hlt.le,fun _ p => hle p (Wp.index_le hnext p),(by rintro _ _ ⟨⟩),
      h.dead⟩
  · refine ⟨h',hl,h.few,fun _ => h.calls hi,(by rintro ⟨⟩),hpast,(by rintro ⟨⟩),
      fun _ p hlt => hle p ?_,(by rintro ⟨⟩),(by rintro _ _ ⟨⟩),h.dead⟩
    have hpl := Wp.index_next hnext
    have hlt' : p.index < p'.index := hlt
    omega

theorem QuietInv.joinGo (h : QuietInv s qs fs)
    (hst : Workqueue.joinGo s s.join = some s') :
    QuietInv s' (s.join.pools qs s.exiting) (s.join.frees fs) := by
  by_cases hd : s.join = .destroy
  · have hh := h.destroy hd hst
    rw [hd]
    exact hh
  have hi : s.join ≠ .idle := fun hp => by
    rw [hp] at hst
    cases hst
  have hset : SettledAt s s.join := by
    unfold SettledAt
    split
    · intro a
      rw [h.calls hi a]
      simp [Pc.ends]
    · trivial
  have h' := h.toMemoryInv.joinGo hst
  have hl := h.life.joinGo hset hst
  have hj := h.join
  obtain ⟨hpc,hn,_⟩ := joinGo_same hst
  cases hp : s.join with
  | idle | done =>
    rw [hp] at hst
    cases hst
  | destroy => exact absurd hp hd
  | sync | syncWq | clear | unlock | unlockPool | dec | keep =>
    rw [hp] at hst h'
    cases hst
    exact h.joinSame h' hl hn hpc hi (by simp [State.joinGoto]) rfl rfl (fun _ he => he)
      (by rintro ⟨⟩) (by simp [State.joinGoto]) (by rintro _ _ ⟨⟩) h.dead
  | settle | lockPool | lock | settleWq =>
    rw [hp] at hst h'
    obtain ⟨_,rfl⟩ := guarded_eq_some.mp hst
    exact h.joinSame h' hl hn hpc hi (by simp [State.joinGoto]) rfl rfl (fun _ he => he)
      (by rintro ⟨⟩) (by simp [State.joinGoto]) (by rintro _ _ ⟨⟩) h.dead
  | walk curr n | freeWalk curr n =>
    rw [hp] at hst h'
    obtain ⟨_,rfl⟩ | ⟨q,_,rfl⟩ := joinWalk_spec hst <;>
      exact h.joinSame h' hl hn hpc hi (by simp [State.joinGoto]) rfl rfl (fun _ he => he)
        (by rintro ⟨⟩) (by simp [State.joinGoto]) (by rintro _ _ ⟨⟩) h.dead
  | check q n =>
    rw [hp] at hst h'
    cases hst
    refine h.joinSame h' hl hn hpc hi ?_ rfl rfl (fun _ he => he) (fun hj => ?_) ?_
      (fun r m hj => ?_) h.dead
    all_goals
      simp only [State.joinGoto] at *
      split at * <;> simp_all
  | loop =>
    rw [hp] at hst h' hj
    simp only [Workqueue.joinGo] at hst
    split at hst
    · rename_i hc
      cases hst
      refine h.joinSame h' hl hn hpc hi (by simp [State.joinGoto]) rfl rfl (fun _ he => he)
        (fun _ => ?_) (by simp [State.joinGoto]) (by rintro _ _ ⟨⟩) h.dead
      refine h.empty hc (.inr ⟨?_,by rw [hp]; rfl⟩)
      rw [State.gone,hp]
      exact hj
    · split at hst <;> cases hst
      · exact h.joinSame h' hl hn hpc hi hi rfl rfl (fun _ he => he)
          (fun hc => absurd (hp.symm.trans hc) (by simp)) (by simp [hp])
          (fun q n hc => absurd (hp.symm.trans hc) (by simp)) h.dead
      · exact h.joinSame h' hl hn hpc hi (by simp [State.joinGoto]) rfl rfl (fun _ he => he)
          (by rintro ⟨⟩) (by simp [State.joinGoto]) (by rintro _ _ ⟨⟩) h.dead
  | freeTest =>
    rw [hp] at hst h'
    simp only [Workqueue.joinGo] at hst
    split at hst <;> cases hst <;>
      exact h.joinSame h' hl hn hpc hi (by simp [State.joinGoto]) rfl rfl (fun _ he => he)
        (by rintro ⟨⟩) (by simp [State.joinGoto]) (by rintro _ _ ⟨⟩) h.dead
  | unlink q n =>
    rw [hp] at hst h'
    cases hst
    refine h.joinSame h' hl hn hpc hi (by simp [State.joinGoto]) rfl rfl (fun p he => ?_)
      (by rintro ⟨⟩) (by simp [State.joinGoto]) (by rintro _ _ ⟨⟩) h.dead
    rw [JoinPc.pools]
    by_cases hpe : p = s.exiting
    · rw [← hpe,Function.update_self,he]
      rfl
    · rwa [Function.update_of_ne hpe]
  | join q n =>
    rw [hp] at hst h'
    obtain ⟨hw,rfl⟩ := guarded_eq_some.mp hst
    refine h.joinSame h' hl hn hpc hi (by simp [State.joinGoto]) rfl rfl (fun _ he => he)
      (by rintro ⟨⟩) (by simp [State.joinGoto]) (fun r m hj => ?_) h.dead
    cases hj
    exact hw
  | free q n =>
    have hw := h.joined q n hp
    rw [hp] at hst h'
    cases hst
    refine h.joinSame h' hl hn hpc hi (by simp [State.joinGoto]) rfl rfl (fun _ he => he)
      (by rintro ⟨⟩) (by simp [State.joinGoto]) (by rintro _ _ ⟨⟩) fun r hr => ?_
    by_cases he : r = q
    · exact .inr (he ▸ hw)
    · exact h.dead r (by simpa [State.joinGoto,he] using hr)

theorem QuietInv.step (h : QuietInv s qs fs) (hok : QuietExit s act)
    (hst : Workqueue.step s act = some s') : QuietInv s' (act.pools s qs) (act.frees s fs) := by
  have h' := h.toMemoryInv.step hst
  cases act with
  | call a c =>
    obtain ⟨_,rfl⟩ := guarded_eq_some.mp hst
    have hidle : s.join = .idle := hok
    refine ⟨h',?_,h.few,fun hne => absurd hidle hne,h.fresh,h.past,h.ended,
      fun hne => absurd hidle hne,h.done,h.joined,h.dead⟩
    exact h.life.goto rfl (fun _ _ hq => hq) (by rintro _ ⟨⟩) (by rintro _ ⟨⟩)
  | go a mem here =>
    by_cases ha : a = .joiner
    · subst ha
      rw [Workqueue.step,h.joiner] at hst
      cases hst
    · exact h.go hok ha hst
  | work q =>
    obtain ⟨hpc,hlive,hnext⟩ := workerGo_same hst
    obtain ⟨_,hj,he,hd,hw⟩ := workerGo_alone hst
    refine ⟨h',h.life.other hpc hlive hnext,by rw [hnext]; exact h.few,?_,?_,?_,?_,?_,?_,
      fun r n hr => ?_,fun r hr => ?_⟩
    · rw [hj,hpc]
      exact h.calls
    · rw [hj,hd]
      exact h.fresh
    · rw [hd]
      exact h.past
    · rw [hj,he]
      exact h.ended
    · rw [hj,he,hd]
      exact h.order
    · rw [hj,hd]
      exact h.done
    · rw [hj] at hr
      have hx := h.joined r n hr
      exact (hw r).elim (fun hs => hs.trans hx) fun hs => absurd hx hs.2
    · rw [hlive] at hr
      have hx := h.dead r hr
      exact (hw r).elim (fun hs => by rwa [hs]) fun hs => absurd hx (by simp [hs.1,hs.2])
  | exit =>
    obtain ⟨hp,rfl⟩ := guarded_eq_some.mp hst
    have hall : ∀ a, s.pc a = .idle := hok
    refine ⟨h',h.life.other rfl rfl rfl,h.few,fun _ => hall,(by rintro ⟨⟩),h.past,(by rintro ⟨⟩),
      fun _ p hlt => absurd hlt (Nat.not_lt_zero _),(by rintro ⟨⟩),(by rintro _ _ ⟨⟩),h.dead⟩
  | join => exact h.joinGo hst

theorem QuietInv.init {ι W : Type} [DecidableEq ι] : QuietInv (init ι W) (fun _ => []) [] := by
  refine ⟨.init,(by rintro _ _ ⟨⟩),by simp [Workqueue.init],fun hne => absurd rfl hne,
    fun _ _ => rfl,fun _ _ => rfl,fun _ => rfl,fun hne => absurd rfl hne,(by rintro ⟨⟩),
    (by rintro _ _ ⟨⟩),fun _ _ => .inl rfl⟩

end Quiet

/-- When `mthpc_workqueue_exit` has returned, every workqueue is freed, every thread that was
created has exited, and the counts are zero. -/
theorem noneLeft_of_quietExit {s : State ι W} (h : Reach step QuietExit (init ι W) s)
    (hd : s.join = .done) : (∀ q, s.live q = false) ∧
      (∀ q, s.worker q = .absent ∨ s.worker q = .exited) ∧ ∀ p, s.count p = 0 := by
  obtain ⟨qs,fs,hi⟩ := h.invariant (I:=fun s => ∃ qs fs, QuietInv s qs fs) ⟨_,_,.init⟩
    fun t a u ⟨qs,fs,hi⟩ hok hst => ⟨_,_,hi.step hok hst⟩
  have hempty : ∀ p, qs p = [] := fun p => hi.past p (hi.done hd p)
  have hfs : fs = [] := by
    have hj := hi.join
    rw [hd] at hj
    exact hj
  have hgone : s.gone fs = [] := by
    rw [State.gone,hd,hfs]
    rfl
  have hidle := hi.calls (by simp [hd])
  have hdead : ∀ q, s.live q = false := by
    intro q
    by_contra hq
    obtain ⟨p,hp⟩ | hg | ⟨a,ha⟩ := hi.kept q (by simpa using hq)
    · simp [hempty p] at hp
    · simp [hgone] at hg
    · rw [hidle a] at ha
      cases ha
  refine ⟨hdead,fun q => hi.dead q (hdead q),fun p => ?_⟩
  rw [hi.counts,State.size,hempty p,hgone,hd]
  simp [JoinPc.counted]

/-- One thread makes all calls, and the exit begins when it is not in one. -/
def OneCaller (s : State Unit Unit) : Act Unit Unit → Prop
  | .call a _ => a = .outside () ∧ s.join = .idle
  | .go a _ _ => a = .outside () ∧ s.nextWq + 1 < 2^32
  | .exit => s.pc (.outside ()) = .idle
  | _ => True

instance (s : State Unit Unit) : ∀ act, Decidable (OneCaller s act)
  | .call a _ => inferInstanceAs (Decidable (a = .outside () ∧ s.join = .idle))
  | .go a _ _ => inferInstanceAs (Decidable (a = .outside () ∧ s.nextWq + 1 < 2^32))
  | .exit => inferInstanceAs (Decidable (s.pc (.outside ()) = .idle))
  | .work _ | .join => inferInstanceAs (Decidable True)

theorem noneLeft_of_wokenFirst : ∃ s : State Unit Unit,
    Reach step QuietExit (init Unit Unit) s ∧ s.nextWq = 1 ∧ s.live 0 = false ∧
      s.worker 0 = .exited := by
  have hs : (exec (restrict step OneCaller) (init Unit Unit)
      (wokenFirst ++ List.replicate 13 .join)).map
      (fun s => (s.join,s.nextWq,s.worker 0)) = some (.done,1,.exited) := by decide +kernel
  obtain ⟨s,hs,hp⟩ := Option.map_eq_some_iff.mp hs
  obtain ⟨hj,hn,hw⟩ : s.join = .done ∧ s.nextWq = 1 ∧ s.worker 0 = .exited := by simpa using hp
  have hreach : Reach step QuietExit (init Unit Unit) s := by
    refine (reach_of_exec_restrict hs).strengthen
      (I:=fun s => ∀ a, a ≠ .outside () → s.pc a = .idle) (fun _ _ => rfl)
      (fun s act s' hi hok hst a ha => ?_) fun s act hi hok => ?_
    · rw [step_pc hst fun hc => ?_]
      · exact hi a ha
      · cases act with
        | call b c | go b mem here => exact ha ((Option.some.inj hc).symm.trans hok.1)
        | _ => cases hc
    · cases act with
      | call a c | go a mem here => exact hok.2
      | exit =>
        intro a
        by_cases ha : a = .outside ()
        · exact ha ▸ hok
        · exact hi a ha
      | _ => trivial
  exact ⟨s,hreach,hn,(noneLeft_of_quietExit hreach hj).1 0,hw⟩

end Workqueue
end Mthpc
