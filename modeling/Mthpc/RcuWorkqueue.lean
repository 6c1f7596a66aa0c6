import Mthpc.RcuGrace
import Mthpc.WorkqueueLifetime

/-!
# The workqueues over RCU

In the model of the workqueues the sections of the callers are abstract. Here their
`mthpc_rcu_read_lock`, `mthpc_rcu_read_unlock` and `mthpc_synchronize_rcu` are those of
`src/rcu/rcu.c`: the join goes on when the synchronizer returns, and looks at no set of
readers. The synchronizer of the join is `none`, and other threads synchronize as they like.
Every run of this program is one of the model.
-/
namespace Mthpc
namespace Workqueue

open StepSystem

variable {ι κ W : Type}

def Pc.enters : Pc W → Bool
  | .enter _ => true
  | _ => false

def Pc.leaves : Pc W → Bool
  | .leave _ _ => true
  | _ => false

/-- Before `mthpc_synchronize_rcu`, and in it. -/
def JoinPc.calls : JoinPc W → Bool
  | .sync | .syncWq _ _ => true
  | _ => false

def JoinPc.settles : JoinPc W → Bool
  | .settle | .settleWq _ _ => true
  | _ => false

section Step

variable [DecidableEq ι] [DecidableEq κ] [DecidableEq W]

def Act.section (s : State ι W) : Act ι W → Bool
  | .go a _ _ => (s.pc a).enters || (s.pc a).leaves
  | .join => s.join.calls || s.join.settles
  | _ => false

/-- The step that an event of RCU stands for. -/
def actOf : Grace.Event (Actor ι) (Option κ) → Option (Act ι W)
  | .enter a | .leave a => some (.go a none 0)
  | .call none | .ret none => some .join
  | .call (some _) | .ret (some _) => none

/-- The program goes on after a call of RCU. The guard of the model on the return of the
synchronizer is not there. -/
def react (s : State ι W) : Grace.Event (Actor ι) (Option κ) → Option (State ι W)
  | .enter a => if (s.pc a).enters then step s (.go a none 0) else none
  | .leave a => if (s.pc a).leaves then step s (.go a none 0) else none
  | .call none => if s.join.calls then step s .join else none
  | .ret none => if s.join.settles then step { s with awaits := ∅ } .join else none
  | .call (some _) | .ret (some _) => some s

def own (s : State ι W) (act : Act ι W) : Option (State ι W) :=
  if act.section s then none else step s act

/-- The sections of the model are those of RCU. -/
structure SectionInv (g : Grace.State (Actor ι) (Option κ)) (s : State ι W) : Prop where
  readers : ∀ a, a ∈ s.readers ↔ a ∈ g.inside
  awaits : ∀ a, a ∈ s.awaits ↔ a ∈ g.owed none

variable {g g' : Grace.State (Actor ι) (Option κ)} {s s' : State ι W} {act : Act ι W}

theorem step_sections (hst : step s act = some s') (ha : act.section s = false) :
    s'.readers = s.readers ∧ s'.awaits = s.awaits := by
  cases act with
  | call a c =>
    obtain ⟨_,rfl⟩ := guarded_eq_some.mp hst
    exact ⟨rfl,rfl⟩
  | go a mem here =>
    simp only [step] at hst
    cases hp : s.pc a with
    | idle =>
      rw [hp] at hst
      cases hst
    | enter c | leave c wq => simp [Act.section,hp,Pc.enters,Pc.leaves] at ha
    | walk c pos =>
      rw [hp] at hst
      obtain ⟨_,rfl⟩ | ⟨q,_,⟨_,rfl⟩ | ⟨_,rfl⟩⟩ := walk_spec hst <;> exact ⟨rfl,rfl⟩
    | recheck c pre pos =>
      rw [hp] at hst
      obtain ⟨_,rfl⟩ | ⟨q,_,⟨_,rfl⟩ | ⟨_,rfl⟩⟩ := recheck_spec hst <;> exact ⟨rfl,rfl⟩
    | lock c pre q | lockPool c pre =>
      rw [hp] at hst
      obtain ⟨_,rfl⟩ := guarded_eq_some.mp hst
      exact ⟨rfl,rfl⟩
    | unlock c pre q =>
      rw [hp] at hst
      cases pre <;> cases hst <;> exact ⟨rfl,rfl⟩
    | alloc c =>
      rw [hp] at hst
      cases mem <;> cases hst <;> exact ⟨rfl,rfl⟩
    | unlockPool c pre q =>
      rw [hp] at hst
      cases hst
      exact ⟨rfl,rfl⟩
    | init | first | add | setCpu | addPre | publish | create | drop | store | wake =>
      rw [hp] at hst
      cases hst
      exact ⟨rfl,rfl⟩
  | work q =>
    simp only [step] at hst
    cases hp : s.worker q with
    | absent | exited =>
      rw [hp] at hst
      cases hst
    | pop =>
      rw [hp] at hst
      obtain ⟨_,rfl⟩ | ⟨w,_,rfl⟩ := pop_spec hst <;> exact ⟨rfl,rfl⟩
    | lock | wait | run =>
      rw [hp] at hst
      obtain ⟨_,rfl⟩ := guarded_eq_some.mp hst
      exact ⟨rfl,rfl⟩
    | test | unlock | call =>
      rw [hp] at hst
      cases hst
      exact ⟨rfl,rfl⟩
  | exit =>
    obtain ⟨_,rfl⟩ := guarded_eq_some.mp hst
    exact ⟨rfl,rfl⟩
  | join =>
    simp only [step] at hst
    cases hp : s.join with
    | idle | done =>
      rw [hp] at hst
      cases hst
    | sync | syncWq | settle | settleWq => simp [Act.section,hp,JoinPc.calls,JoinPc.settles] at ha
    | lockPool | lock | join =>
      rw [hp] at hst
      obtain ⟨_,rfl⟩ := guarded_eq_some.mp hst
      exact ⟨rfl,rfl⟩
    | walk | freeWalk =>
      rw [hp] at hst
      obtain ⟨_,rfl⟩ | ⟨q,_,rfl⟩ := joinWalk_spec hst <;> exact ⟨rfl,rfl⟩
    | loop =>
      rw [hp] at hst
      simp only [joinGo] at hst
      split at hst
      · cases hst
        exact ⟨rfl,rfl⟩
      · split at hst <;> cases hst <;> exact ⟨rfl,rfl⟩
    | freeTest =>
      rw [hp] at hst
      simp only [joinGo] at hst
      split at hst <;> cases hst <;> exact ⟨rfl,rfl⟩
    | destroy =>
      rw [hp] at hst
      obtain ⟨_,⟨_,rfl⟩ | ⟨p,_,rfl⟩⟩ := destroy_spec hst <;> exact ⟨rfl,rfl⟩
    | check | unlink | keep | clear | unlock | unlockPool | free | dec =>
      rw [hp] at hst
      cases hst
      exact ⟨rfl,rfl⟩

theorem SectionInv.own {ι κ W : Type} [DecidableEq ι] [DecidableEq W]
    {g : Grace.State (Actor ι) (Option κ)} {s s' : State ι W} {act : Act ι W} (h : SectionInv g s)
    (hst : Workqueue.own s act = some s') : Workqueue.step s act = some s' ∧ SectionInv g s' := by
  unfold Workqueue.own at hst
  cases ha : act.section s with
  | true => simp [ha] at hst
  | false =>
    simp only [ha,Bool.false_eq_true,if_false] at hst
    obtain ⟨hr,hw⟩ := step_sections hst ha
    exact ⟨hst,by simpa [hr] using h.readers,by simpa [hw] using h.awaits⟩

theorem SectionInv.react {ι κ W : Type} [DecidableEq ι] [DecidableEq W]
    {g g' : Grace.State (Actor ι) (Option κ)} {s s' : State ι W}
    {e : Grace.Event (Actor ι) (Option κ)} (h : SectionInv g s)
    (hg : Grace.step g e = some g') (hst : Workqueue.react s e = some s') :
    (s' = s ∨ ∃ act, actOf e = some act ∧ Workqueue.step s act = some s') ∧ SectionInv g' s' := by
  cases e with
  | enter a =>
    obtain ⟨_,rfl⟩ := Grace.step_enter.mp hg
    obtain ⟨hp,hst⟩ := Option.ite_none_right_eq_some.mp hst
    refine ⟨.inr ⟨_,rfl,hst⟩,?_⟩
    cases hpc : s.pc a with
    | enter c =>
      simp only [Workqueue.step,hpc] at hst
      cases hst
      exact ⟨by simp [State.goto,h.readers],h.awaits⟩
    | _ => simp [hpc,Pc.enters] at hp
  | leave a =>
    obtain ⟨_,rfl⟩ := Grace.step_leave.mp hg
    obtain ⟨hp,hst⟩ := Option.ite_none_right_eq_some.mp hst
    refine ⟨.inr ⟨_,rfl,hst⟩,?_⟩
    cases hpc : s.pc a with
    | leave c wq =>
      simp only [Workqueue.step,hpc] at hst
      cases hst
      exact ⟨by simp [State.goto,h.readers,and_comm],by simp [State.goto,h.awaits,and_comm]⟩
    | _ => simp [hpc,Pc.leaves] at hp
  | call k =>
    obtain ⟨_,rfl⟩ := Grace.step_call.mp hg
    cases k with
    | some k =>
      cases hst
      exact ⟨.inl rfl,h.readers,by simpa using h.awaits⟩
    | none =>
      obtain ⟨hp,hst⟩ := Option.ite_none_right_eq_some.mp hst
      refine ⟨.inr ⟨_,rfl,hst⟩,?_⟩
      cases hj : s.join with
      | sync | syncWq =>
        simp only [Workqueue.step,hj] at hst
        cases hst
        exact ⟨h.readers,by simp [State.joinGoto,h.readers]⟩
      | _ => simp [hj,JoinPc.calls] at hp
  | ret k =>
    obtain ⟨⟨_,he⟩,rfl⟩ := Grace.step_ret.mp hg
    cases k with
    | some k =>
      cases hst
      exact ⟨.inl rfl,h.readers,h.awaits⟩
    | none =>
      obtain ⟨hp,hst⟩ := Option.ite_none_right_eq_some.mp hst
      have haw : s.awaits = ∅ := by
        refine Finset.eq_empty_of_forall_notMem fun a ha => ?_
        rw [h.awaits,he] at ha
        exact ha
      have hsame : { s with awaits := ∅ } = s := by rw [← haw]
      rw [hsame] at hst
      refine ⟨.inr ⟨_,rfl,hst⟩,?_⟩
      cases hj : s.join with
      | settle | settleWq =>
        simp only [Workqueue.step,hj] at hst
        obtain ⟨_,rfl⟩ := guarded_eq_some.mp hst
        exact ⟨h.readers,h.awaits⟩
      | _ => simp [hj,JoinPc.settles] at hp

theorem SectionInv.init {ι κ W : Type} : SectionInv (Grace.init (Actor ι) (Option κ)) (init ι W) :=
  ⟨by simp [Workqueue.init,Grace.init],by simp [Workqueue.init,Grace.init]⟩

/-- A condition on the steps of the workqueues, for the program over RCU. -/
def OkOver (ok : State ι W → Act ι W → Prop) (s : State ι W) :
    Grace.Event (Actor ι) (Option κ) ⊕ Act ι W → Prop
  | .inl e => ∀ act ∈ actOf e, ok s act
  | .inr act => ok s act

instance {ok : State ι W → Act ι W → Prop} [∀ s act, Decidable (ok s act)] (s : State ι W) :
    ∀ e : Grace.Event (Actor ι) (Option κ) ⊕ Act ι W, Decidable (OkOver ok s e)
  | .inl e => inferInstanceAs (Decidable (∀ act ∈ actOf e, ok s act))
  | .inr act => inferInstanceAs (Decidable (ok s act))

/-- Every run over RCU is a run of the model, and its steps meet the same condition. -/
theorem reach_overRcu {nodes : List (Actor ι)}
    {ok : State ι W → Act ι W → Prop} {r : Rcu.State (Actor ι) (Option κ)}
    (h : Reach (compose (Rcu.step nodes) Rcu.label react own)
      (both Rcu.label (Rcu.Proper nodes) (OkOver ok)) (Rcu.init (Actor ι) (Option κ),init ι W)
      (r,s)) :
    Reach step ok (init ι W) s := by
  have hr := (Rcu.simulates.compose .init h).2
  rw [Rcu.toGrace_init] at hr
  refine (hr.invariant (I:=fun u => Reach step ok (Workqueue.init ι W) u.2 ∧ SectionInv u.1 u.2)
    ⟨.refl,.init⟩ fun u e v hi hok hst => ?_).1
  obtain ⟨u,c⟩ := u
  obtain ⟨b,t,d,rfl,ht,hd,rfl⟩ | ⟨a,d,rfl,hd,rfl⟩ := overSpec_cases hst
  · obtain ⟨rfl | ⟨act,he,hst⟩,hinv⟩ := hi.2.react ht hd
    · exact ⟨hi.1,hinv⟩
    · exact ⟨hi.1.tail (hok act he) hst,hinv⟩
  · obtain ⟨hst,hinv⟩ := hi.2.own hd
    exact ⟨hi.1.tail hok hst,hinv⟩

/-- Over RCU, in every run whose callers are registered and publish in time, whatever is
scheduled and joined: the workqueues do what the model says, under the same condition, and no
call touches a workqueue that is freed before it has left its section or the lock of the pool. -/
theorem refines_overRcu {nodes : List (Actor ι)} {ok : State ι W → Act ι W → Prop}
    {r : Rcu.State (Actor ι) (Option κ)}
    (h : Reach (compose (Rcu.step nodes) Rcu.label react own)
      (both Rcu.label (Rcu.Proper nodes) (OkOver ok)) (Rcu.init (Actor ι) (Option κ),init ι W)
      (r,s)) :
    Reach step ok (init ι W) s ∧
      ∀ a q, (s.pc a).ends = none → Touches s (s.pc a) q → s.live q = true := by
  have hr := reach_overRcu h
  obtain ⟨qs,fs,hi⟩ := hr.invariant (I:=fun s => ∃ qs fs, PoolInv s qs fs) ⟨_,_,.init⟩
    fun t a u ⟨qs,fs,hi⟩ _ hst => ⟨_,_,hi.step hst⟩
  exact ⟨hr,fun a q he hq => hi.touches he hq⟩

end Step

/-- A section of a caller whose word was `w`, in the phase of `gp`. -/
def openRcu (a : Actor Unit) (w gp : Rcu.Word) :
    List (Rcu.Act (Actor Unit) (Option Unit) ⊕ Act Unit Bool) :=
  [.inl (.lockLoad a),.inl (.lockRead a w),.inl (.lockStore a gp)]

def closeRcu (a : Actor Unit) (gp : Rcu.Word) :
    List (Rcu.Act (Actor Unit) (Option Unit) ⊕ Act Unit Bool) :=
  [.inl (.unlockLoad a),.inl (.unlockAdd a gp)]

def goOver (a : Actor Unit) (n : ℕ) : List (Rcu.Act (Actor Unit) (Option Unit) ⊕ Act Unit Bool) :=
  List.replicate n (.inr (.go a (some 0) 0))

def scheduleOver (a : Actor Unit) (gp : Rcu.Word) (p : Wp) (w : Bool) :
    List (Rcu.Act (Actor Unit) (Option Unit) ⊕ Act Unit Bool) :=
  .inr (.call a ⟨p,-1,w⟩)::(goOver a 1 ++ openRcu a 0 gp ++ goOver a 2 ++ closeRcu a gp ++
    goOver a 10)

/-- A call makes the first workqueue of a pool, and in a second one the walk comes to it. -/
def overRcuRun : List (Rcu.Act (Actor Unit) (Option Unit) ⊕ Act Unit Bool) :=
  scheduleOver (.outside ()) Rcu.gpCount .global true ++
    .inr (.call (.outside ()) ⟨.global,-1,false⟩)::(goOver (.outside ()) 1 ++
      openRcu (.outside ()) 0 Rcu.gpCount ++ goOver (.outside ()) 1)

theorem refines_overRcuRun : ∃ (r : Rcu.State (Actor Unit) (Option Unit)) (s : State Unit Bool),
    Reach (compose (Rcu.step [.outside ()]) Rcu.label react own)
      (both Rcu.label (Rcu.Proper [.outside ()]) (OkOver Anything))
      (Rcu.init (Actor Unit) (Option Unit),init Unit Bool) (r,s) ∧
    s.pc (.outside ()) = .walk ⟨.global,-1,false⟩ (.queue 0) ∧ s.live 0 = true := by
  have hs : ∃ u : Rcu.State (Actor Unit) (Option Unit) × State Unit Bool,
      exec (restrict (compose (Rcu.step [.outside ()]) Rcu.label react own)
        (both Rcu.label (Rcu.Proper [.outside ()]) (OkOver Anything)))
        (Rcu.init (Actor Unit) (Option Unit),init Unit Bool) overRcuRun = some u ∧
      u.2.pc (.outside ()) = .walk ⟨.global,-1,false⟩ (.queue 0) := ⟨_,rfl,rfl⟩
  obtain ⟨⟨r,s⟩,hs,ha⟩ := hs
  have hreach := reach_of_exec_restrict hs
  exact ⟨r,s,hreach,ha,(refines_overRcu hreach).2 _ _ (by rw [ha]; rfl) (by rw [ha]; rfl)⟩

end Workqueue
end Mthpc
