import Mthpc.WorkqueuePools

/-!
# Scheduling calls and the lifetime of a workqueue

Inside its read-side section, and under the lock of the pool, a call is safe from the join.
The workqueue it returns to `__mthpc_schedule_work_on` is not protected by either, and the
creation of the thread, the store to the futex and the wake come after both have ended.
-/
namespace Mthpc
namespace Workqueue

open StepSystem Links

variable {ι W : Type} [DecidableEq ι] [DecidableEq W]

/-- The workqueues whose memory the next step of a call reads or writes. -/
def Touches (s : State ι W) : Pc W → ℕ → Prop
  | .walk _ pos, q | .recheck _ _ pos, q => pos = .queue q
  | .lock _ _ r, q | .add _ _ r, q | .unlock _ _ r, q => r = q
  | .setCpu _ pre, q | .addPre _ pre, q | .drop pre _, q => pre = q
  | .publish c pre, q => pre = q ∨ s.links.prev (.pool c.wp) = .queue q
  | .create r, q | .store r, q | .wake r, q => r = q
  | _, _ => False

/-- No call is about to touch a workqueue that has been freed. -/
def NoneFreed (s : State ι W) : Prop := ∀ a q, Touches s (s.pc a) q → s.live q = true

/-- The workqueue that a call has got and not yet woken. -/
def Pc.ends : Pc W → Option ℕ
  | .create q | .drop _ q | .store q | .wake q => some q
  | _ => none

def SettledAt (s : State ι W) : JoinPc W → Prop
  | .free q _ => ∀ a, (s.pc a).ends ≠ some q
  | _ => True

/-- The join frees a workqueue when no call that got it has its thread still to create or its
futex still to set and wake. -/
def Settled (s : State ι W) : Act ι W → Prop
  | .join => SettledAt s s.join
  | _ => True

/-- `prealloc`. -/
def Pc.prealloc : Pc W → Option ℕ
  | .setCpu _ pre | .addPre _ pre | .lockPool _ pre | .recheck _ pre _ | .publish _ pre => some pre
  | .lock _ pre _ | .add _ pre _ | .unlock _ pre _ | .unlockPool _ pre _ => pre
  | .drop pre _ => some pre
  | _ => none

/-- What a call has got is allocated, and is the `prealloc` of none. -/
def LifeInv (s : State ι W) : Prop :=
  ∀ a q, (s.pc a).ends = some q → Allocated s q ∧ ∀ b, (s.pc b).prealloc ≠ some q

section Steps

variable {s s' : State ι W} {qs : Wp → List ℕ} {fs : List ℕ} {a : Actor ι} {p : Pc W} {q : ℕ}
  {act : Act ι W}

theorem LifeInv.goto {ι W : Type} [DecidableEq ι] {s s' : State ι W} {a : Actor ι} {p : Pc W}
    (h : LifeInv s) (hpc : s'.pc = Function.update s.pc a p)
    (hal : ∀ q, (∀ b, (s.pc b).prealloc ≠ some q) → Allocated s q → Allocated s' q)
    (hpre : ∀ q, p.prealloc = some q → (s.pc a).prealloc = some q ∨ q = s.nextWq)
    (hends : ∀ q, p.ends = some q → Allocated s q ∧ ∀ b, (s.pc b).prealloc ≠ some q) :
    LifeInv s' := by
  intro b q hb
  have hold : Allocated s q ∧ ∀ c, (s.pc c).prealloc ≠ some q := by
    rw [hpc] at hb
    by_cases hba : b = a
    · rw [hba,Function.update_self] at hb
      exact hends q hb
    · rw [Function.update_of_ne hba] at hb
      exact h b q hb
  refine ⟨hal q hold.2 hold.1,fun c => ?_⟩
  rw [hpc]
  by_cases hca : c = a
  · rw [hca,Function.update_self]
    intro hq
    obtain hq | rfl := hpre q hq
    · exact hold.2 a hq
    · exact lt_irrefl _ hold.1.1
  · rw [Function.update_of_ne hca]
    exact hold.2 c

theorem LifeInv.same {ι W : Type} [DecidableEq ι] {s s' : State ι W} {a : Actor ι} {p : Pc W}
    {x : Pc W} (h : LifeInv s) (hp : s.pc a = x)
    (hpc : s'.pc = Function.update s.pc a p) (hlive : s'.live = s.live)
    (hnext : s'.nextWq = s.nextWq) (hpre : ∀ q, p.prealloc = some q → x.prealloc = some q)
    (hends : ∀ q, p.ends = some q → x.ends = some q) : LifeInv s' := by
  subst hp
  exact h.goto hpc (fun q _ hq => by rwa [Allocated,hlive,hnext]) (fun q hq => .inl (hpre q hq))
    fun q hq => h a q (hends q hq)

theorem LifeInv.other {ι W : Type} {s s' : State ι W} (h : LifeInv s) (hpc : s'.pc = s.pc)
    (hlive : s'.live = s.live) (hnext : s'.nextWq = s.nextWq) : LifeInv s' := by
  intro b q hb
  rw [hpc] at hb ⊢
  rw [Allocated,hlive,hnext]
  exact h b q hb

theorem PoolInv.not_prealloc {ι W : Type} [DecidableEq ι] {s : State ι W} {qs : Wp → List ℕ}
    {fs : List ℕ} {q : ℕ} (h : PoolInv s qs fs) (hq : (∃ w, q ∈ qs w) ∨ q ∈ s.gone fs)
    (b : Actor ι) : (s.pc b).prealloc ≠ some q := by
  intro hb
  have hpriv : Private s qs fs q := by
    have hok := h.call b
    cases hp : s.pc b with
    | setCpu c pre | drop pre r =>
      rw [hp] at hok hb
      obtain rfl := Option.some.inj hb
      exact hok
    | addPre c pre | lockPool c pre | publish c pre =>
      rw [hp] at hok hb
      obtain rfl := Option.some.inj hb
      exact hok.1
    | recheck c pre pos =>
      rw [hp] at hok hb
      obtain rfl := Option.some.inj hb
      exact hok.1.1
    | lock c pre r | add c pre r | unlock c pre r =>
      rw [hp] at hok hb
      obtain rfl : pre = some q := hb
      exact hok.1
    | unlockPool c pre r =>
      rw [hp] at hok hb
      obtain rfl : pre = some q := hb
      exact hok.1 q rfl
    | _ =>
      rw [hp] at hb
      cases hb
  obtain ⟨w,hw⟩ | hg := hq
  · exact hpriv.2.1 w hw
  · exact hpriv.2.2 hg

theorem Seen.listed {ι W : Type} {s : State ι W} {qs : Wp → List ℕ} {fs : List ℕ} {a : Actor ι}
    {q : ℕ} {w : Wp} (hs : Seen s qs a w q) : (∃ w, q ∈ qs w) ∨ q ∈ s.gone fs := by
  obtain hq | ⟨hv,_⟩ := hs
  · exact .inl ⟨w,hq⟩
  · refine .inr ?_
    cases hp : s.join with
    | syncWq r n | settleWq r n =>
      rw [hp] at hv
      obtain rfl := Option.some.inj hv
      simp [State.gone,hp,JoinPc.leaving]
    | _ =>
      rw [hp] at hv
      cases hv

theorem PoolInv.listed_allocated {ι W : Type} [DecidableEq ι] {s : State ι W} {qs : Wp → List ℕ}
    {fs : List ℕ} {q : ℕ} (h : PoolInv s qs fs) (hq : (∃ w, q ∈ qs w) ∨ q ∈ s.gone fs) :
    Allocated s q := by
  obtain ⟨w,hw⟩ | hg := hq
  · exact (h.linked w q hw).1
  · exact (h.gone q hg).1.1

theorem LifeInv.go {mem : Option Word} {here : Word} (h : LifeInv s) (hi : PoolInv s qs fs)
    (hst : Workqueue.go s a mem here (s.pc a) = some s') : LifeInv s' := by
  have hok := hi.call a
  cases hp : s.pc a with
  | idle =>
    rw [hp] at hst
    cases hst
  | init c | enter c | first c =>
    rw [hp] at hst
    cases hst
    exact h.same hp rfl rfl rfl nofun nofun
  | walk c pos =>
    rw [hp] at hst
    obtain ⟨_,rfl⟩ | ⟨q,_,⟨_,rfl⟩ | ⟨_,rfl⟩⟩ := walk_spec hst <;>
      exact h.same hp rfl rfl rfl nofun nofun
  | recheck c pre pos =>
    rw [hp] at hst
    obtain ⟨_,rfl⟩ | ⟨q,_,⟨_,rfl⟩ | ⟨_,rfl⟩⟩ := recheck_spec hst <;>
      exact h.same hp rfl rfl rfl (fun _ hq => hq) nofun
  | lock c pre q =>
    rw [hp] at hst
    obtain ⟨_,rfl⟩ := guarded_eq_some.mp hst
    exact h.same hp rfl rfl rfl (fun _ hq => hq) (by rintro _ ⟨⟩)
  | add c pre q | setCpu c pre | addPre c pre =>
    rw [hp] at hst
    cases hst
    exact h.same hp rfl rfl rfl (fun _ hq => hq) nofun
  | unlock c pre q =>
    rw [hp] at hst
    cases pre <;> cases hst <;> exact h.same hp rfl rfl rfl (fun _ hq => hq) nofun
  | leave c wq =>
    rw [hp] at hst hok
    cases hst
    cases wq with
    | none => exact h.same hp rfl rfl rfl (by rintro _ ⟨⟩) (by rintro _ ⟨⟩)
    | some q =>
      have hq : (∃ w, q ∈ qs w) ∨ q ∈ s.gone fs := hok.2.listed
      refine h.goto rfl (fun _ _ hq => hq) (by rintro _ ⟨⟩) fun r hr => ?_
      obtain rfl := Option.some.inj hr
      exact ⟨hi.listed_allocated hq,hi.not_prealloc hq⟩
  | alloc c =>
    rw [hp] at hst
    cases mem with
    | none =>
      cases hst
      exact h.same hp rfl rfl rfl (by rintro _ ⟨⟩) (by rintro _ ⟨⟩)
    | some mem =>
      cases hst
      refine h.goto rfl (fun r _ hr => ⟨hr.1.trans (Nat.lt_succ_self _),?_⟩)
        (fun r hr => .inr (Option.some.inj hr).symm) (by rintro _ ⟨⟩)
      exact (Function.update_of_ne hr.1.ne _ _).trans hr.2
  | lockPool c pre =>
    rw [hp] at hst
    obtain ⟨_,rfl⟩ := guarded_eq_some.mp hst
    exact h.same hp rfl rfl rfl (fun _ hq => hq) (by rintro _ ⟨⟩)
  | publish c pre =>
    rw [hp] at hst
    cases hst
    exact h.same hp rfl rfl rfl (by rintro _ ⟨⟩) (by rintro _ ⟨⟩)
  | unlockPool c pre q =>
    rw [hp] at hst hok
    cases hst
    have hq : (∃ w, q ∈ qs w) ∨ q ∈ s.gone fs := .inl ⟨c.wp,hok.2⟩
    refine h.goto rfl (fun _ _ hq => hq) (fun r hr => .inl ?_) fun r hr => ?_
    · rw [hp]
      cases pre with
      | none => cases hr
      | some pre => exact hr
    · have hrq : r = q := by cases pre <;> exact (Option.some.inj hr).symm
      subst hrq
      exact ⟨hi.listed_allocated hq,hi.not_prealloc hq⟩
  | create q =>
    rw [hp] at hst
    cases hst
    exact h.same hp rfl rfl rfl (by rintro _ ⟨⟩) (fun _ hq => hq)
  | drop pre q =>
    rw [hp] at hst
    cases hst
    refine h.goto rfl (fun r hr hal => ⟨hal.1,?_⟩) (by rintro _ ⟨⟩)
      fun r hr => h a r (by rw [hp]; exact hr)
    have hne : r ≠ pre := fun he => hr a (by rw [hp,he]; rfl)
    exact (Function.update_of_ne hne _ _).trans hal.2
  | store q =>
    rw [hp] at hst
    cases hst
    exact h.same hp rfl rfl rfl (by rintro _ ⟨⟩) (fun _ hq => hq)
  | wake q =>
    rw [hp] at hst
    cases hst
    exact h.same hp rfl rfl rfl (by rintro _ ⟨⟩) (by rintro _ ⟨⟩)

theorem LifeInv.joinGo (h : LifeInv s) (hok : SettledAt s s.join)
    (hst : Workqueue.joinGo s s.join = some s') : LifeInv s' := by
  obtain ⟨hpc,hnext,hlive⟩ := joinGo_same hst
  by_cases hf : ∃ q n, s.join = .free q n
  · obtain ⟨q,n,hp⟩ := hf
    rw [hp] at hst hok
    cases hst
    intro b r hb
    obtain ⟨hal,hpre⟩ := h b r hb
    have hne : r ≠ q := fun he => hok b (he ▸ hb)
    exact ⟨⟨hal.1,(Function.update_of_ne hne _ _).trans hal.2⟩,hpre⟩
  · exact h.other hpc (hlive fun q n hp => hf ⟨q,n,hp⟩) hnext

theorem LifeInv.step (h : LifeInv s) (hi : PoolInv s qs fs) (hok : Settled s act)
    (hst : Workqueue.step s act = some s') : LifeInv s' := by
  cases act with
  | call a c =>
    obtain ⟨_,rfl⟩ := guarded_eq_some.mp hst
    exact h.goto rfl (fun _ _ hq => hq) (by rintro _ ⟨⟩) (by rintro _ ⟨⟩)
  | go a mem here => exact h.go hi hst
  | work q =>
    obtain ⟨hpc,hlive,hnext⟩ := workerGo_same hst
    exact h.other hpc hlive hnext
  | exit =>
    obtain ⟨_,rfl⟩ := guarded_eq_some.mp hst
    exact h.other rfl rfl rfl
  | join => exact h.joinGo hok hst

/-- Up to the end of the section and of the critical section, what a call touches is allocated. -/
theorem PoolInv.touches {ι W : Type} [DecidableEq ι] {s : State ι W} {qs : Wp → List ℕ}
    {fs : List ℕ} {a : Actor ι} {q : ℕ} (h : PoolInv s qs fs) (he : (s.pc a).ends = none)
    (ht : Touches s (s.pc a) q) : s.live q = true := by
  have hok := h.call a
  have hlisted : ((∃ w, q ∈ qs w) ∨ q ∈ s.gone fs) → s.live q = true := fun hq =>
    (h.listed_allocated hq).2
  cases hp : s.pc a with
  | walk c pos =>
    rw [hp] at ht hok
    subst ht
    have hs : Seen s qs a c.wp q := by simpa using hok.2
    exact hlisted hs.listed
  | recheck c pre pos =>
    rw [hp] at ht hok
    subst ht
    exact hlisted (.inl ⟨c.wp,by simpa using hok.2⟩)
  | lock c pre r | add c pre r | unlock c pre r =>
    rw [hp] at ht hok
    obtain rfl : r = q := ht
    cases pre with
    | none => exact hlisted hok.2.listed
    | some pre => exact hlisted (.inl ⟨c.wp,hok.2⟩)
  | setCpu c pre =>
    rw [hp] at ht hok
    obtain rfl : pre = q := ht
    exact hok.1.2
  | addPre c pre =>
    rw [hp] at ht hok
    obtain rfl : pre = q := ht
    exact hok.1.1.2
  | publish c pre =>
    rw [hp] at ht hok
    obtain rfl | hprev := ht
    · exact hok.1.1.2
    · have hm := (h.ring c.wp).last_mem
      rw [hprev] at hm
      exact hlisted (.inl ⟨c.wp,by simpa using hm⟩)
  | create r | drop pre r | store r | wake r => simp [hp,Pc.ends] at he
  | _ =>
    rw [hp] at ht
    exact ht.elim

theorem LifeInv.noneFreed {ι W : Type} [DecidableEq ι] {s : State ι W} {qs : Wp → List ℕ}
    {fs : List ℕ} (h : LifeInv s) (hi : PoolInv s qs fs) : NoneFreed s := by
  intro a q ht
  have hok := hi.call a
  have hends := h a
  cases he : (s.pc a).ends with
  | none => exact hi.touches he ht
  | some r =>
    cases hp : s.pc a with
    | create r | store r | wake r =>
      rw [hp] at ht hends
      obtain rfl : r = q := ht
      exact (hends r rfl).1.2
    | drop pre r =>
      rw [hp] at ht hok
      obtain rfl : pre = q := ht
      exact hok.1.2
    | _ => simp [hp,Pc.ends] at he

end Steps

/-- In every interleaving with the workers and the join. -/
theorem noneFreed_of_settled {s : State ι W} (h : Reach step Settled (init ι W) s) :
    NoneFreed s := by
  have hi : ∃ qs fs, PoolInv s qs fs ∧ LifeInv s := by
    refine h.invariant (I:=fun s => ∃ qs fs, PoolInv s qs fs ∧ LifeInv s)
      ⟨_,_,.init,(by rintro _ _ ⟨⟩)⟩ fun s act s' hi hok hst => ?_
    obtain ⟨qs,fs,hi,hl⟩ := hi
    exact ⟨_,_,hi.step hst,hl.step hi hok hst⟩
  obtain ⟨qs,fs,hi,hl⟩ := hi
  exact hl.noneFreed hi

def JoinPc.freeing : JoinPc W → Bool
  | .free _ _ => true
  | _ => false

def Unfreed (s : State ι W) : Act ι W → Prop
  | .join => s.join.freeing = false
  | _ => True

instance (s : State ι W) : ∀ act, Decidable (Unfreed s act)
  | .join => inferInstanceAs (Decidable (s.join.freeing = false))
  | .call _ _ | .go _ _ _ | .work _ | .exit => inferInstanceAs (Decidable True)

theorem Unfreed.settled {ι W : Type} {s : State ι W} {act : Act ι W} (h : Unfreed s act) :
    Settled s act := by
  cases act with
  | join =>
    rw [Settled]
    cases hp : s.join with
    | free q n => simp [Unfreed,hp,JoinPc.freeing] at h
    | _ => trivial
  | _ => trivial

def oneCall : List (Act Unit Unit) :=
  .call (.outside ()) ⟨.global,0,()⟩::List.replicate 13 (.go (.outside ()) (some 0) 0)

def runAndJoin : List (Act Unit Unit) :=
  List.replicate 5 (.work 0) ++ .exit::List.replicate 12 .join ++ List.replicate 2 (.work 0) ++
    List.replicate 6 .join

theorem exec_idle {s : State ι W} {as : List (Act ι W)} {a : Actor ι}
    (h : exec step (init ι W) as = some s)
    (hcaller : ∀ act ∈ as, act.caller = none ∨ act.caller = some a) (ha : s.pc a = .idle)
    (b : Actor ι) : s.pc b = .idle := by
  by_cases hb : b = a
  · rw [hb,ha]
  · rw [exec_pc h fun act hm hc => ?_]
    · rfl
    · obtain hn | hs := hcaller act hm
      · rw [hn] at hc
        cases hc
      · rw [hs] at hc
        exact hb (Option.some.inj hc).symm

def wokenFirst : List (Act Unit Unit) :=
  oneCall ++ List.replicate 2 (.go (.outside ()) none 0) ++ runAndJoin

theorem noneFreed_of_wokenFirst : ∃ s : State Unit Unit,
    Reach step Settled (init Unit Unit) s ∧ s.live 0 = false ∧ NoneFreed s := by
  have hs : (exec (restrict step Unfreed) (init Unit Unit) wokenFirst).map
      (fun s => (s.pc (.outside ()),s.join)) = some (.idle,.free 0 .free) := by decide
  obtain ⟨s,hs,hp⟩ := Option.map_eq_some_iff.mp hs
  obtain ⟨hpc,hj⟩ := Prod.mk.inj hp
  have hidle : ∀ a, s.pc a = .idle := exec_idle (exec_of_restrict hs) (by decide) hpc
  have hreach : Reach step Settled (init Unit Unit) s :=
    (reach_of_exec_restrict hs).mono fun _ _ => Unfreed.settled
  have hst : step s .join = some ({ s with
      live := Function.update s.live 0 false }.joinGoto (.dec .free)) := by
    rw [step,hj]
    rfl
  have hok : Settled s .join := by
    rw [Settled,hj]
    intro a ha
    rw [hidle a] at ha
    cases ha
  exact ⟨_,hreach.tail hok hst,rfl,noneFreed_of_settled (hreach.tail hok hst)⟩

theorem noneFreed_fails : ¬ ∀ s : State Unit Unit,
    Reach step Anything (init Unit Unit) s → NoneFreed s := by
  intro h
  have hs : (exec step (init Unit Unit) (oneCall ++ runAndJoin ++ [.join])).map
      (fun s => (s.pc (.outside ()),s.live 0)) = some (.store 0,false) := by decide
  obtain ⟨s,hs,hp⟩ := Option.map_eq_some_iff.mp hs
  obtain ⟨hpc,hl⟩ := Prod.mk.inj hp
  have ht : Touches s (s.pc (.outside ())) 0 := by
    rw [hpc]
    rfl
  have hlive := h s (reach_of_exec hs) _ 0 ht
  rw [hl] at hlive
  cases hlive

end Workqueue
end Mthpc
