import Mthpc.Workqueue

/-!
# The pools and their workqueues

What holds in every run, whatever the works and the cpus: the list of a pool is a ring of
live workqueues, a caller in its read-side section stands on a workqueue that is linked or
that the join has unlinked and not yet taken out, a caller that holds the lock of the pool
stands on a linked one, and `prealloc` is known to its caller only.
-/
namespace Mthpc
namespace Workqueue

open StepSystem Links

variable {ι W : Type}

def Node.listed : Node W → Bool
  | .pool _ | .free | .queue _ => true
  | _ => false

def Pc.holdsPool : Pc W → Option Wp
  | .recheck c _ _ | .publish c _ | .unlockPool c _ _ => some c.wp
  | .lock c (some _) _ | .add c (some _) _ | .unlock c (some _) _ => some c.wp
  | _ => none

/-- The workqueue that has no worker yet and that only this call may give one. -/
def Pc.owned : Pc W → Option ℕ
  | .setCpu _ pre | .addPre _ pre | .lockPool _ pre | .recheck _ pre _ | .publish _ pre => some pre
  | .lock _ pre _ | .add _ pre _ | .unlock _ pre _ => pre
  | .unlockPool _ pre q => some (pre.getD q)
  | .create q => some q
  | .drop pre _ => some pre
  | _ => none

def JoinPc.locked : JoinPc W → Bool
  | .walk _ _ | .lock _ _ | .check _ _ | .unlink _ _ | .syncWq _ _ | .settleWq _ _ | .keep _ _
  | .clear _ _ | .unlock _ _ | .unlockPool => true
  | _ => false

def JoinPc.leaving : JoinPc W → Option ℕ
  | .syncWq q _ | .settleWq q _ | .keep q _ => some q
  | _ => none

/-- A caller that was in its section may still stand on it. -/
def JoinPc.visible : JoinPc W → Option ℕ
  | .syncWq q _ | .settleWq q _ => some q
  | _ => none

/-- `mthpc_synchronize_rcu` has not begun. -/
def JoinPc.unlinking : JoinPc W → Bool
  | .syncWq _ _ => true
  | _ => false

section Defs

variable [DecidableEq ι] [DecidableEq W]

def State.holdsPool (s : State ι W) (a : Actor ι) : Option Wp :=
  if a = .joiner then (if s.join.locked then some s.exiting else none) else (s.pc a).holdsPool

/-- The workqueue is freed and `wp->count` is still to be decremented. -/
def JoinPc.counted : JoinPc W → ℕ
  | .dec _ => 1
  | _ => 0

def State.gone (s : State ι W) (fs : List ℕ) : List ℕ := s.join.leaving.toList ++ fs

def Allocated (s : State ι W) (q : ℕ) : Prop := q < s.nextWq ∧ s.live q = true

def Belongs (s : State ι W) (p : Wp) (q : ℕ) : Prop := Allocated s q ∧ (s.wq q).wp = some p

/-- What a caller may stand on in its read-side section. -/
def Seen (s : State ι W) (qs : Wp → List ℕ) (a : Actor ι) (p : Wp) (q : ℕ) : Prop :=
  q ∈ qs p ∨ s.join.visible = some q ∧ s.exiting = p ∧ (s.join.unlinking = true ∨ a ∈ s.awaits)

def Private (s : State ι W) (qs : Wp → List ℕ) (fs : List ℕ) (q : ℕ) : Prop :=
  Allocated s q ∧ (∀ p, q ∉ qs p) ∧ q ∉ s.gone fs

def CallOk (s : State ι W) (qs : Wp → List ℕ) (fs : List ℕ) (a : Actor ι) : Pc W → Prop
  | .first _ | .leave _ none => a ∈ s.readers
  | .walk c pos => a ∈ s.readers ∧ (pos = .pool c.wp ∨ ∃ q, pos = .queue q ∧ Seen s qs a c.wp q)
  | .lock c none q | .add c none q | .unlock c none q | .leave c (some q) =>
    a ∈ s.readers ∧ Seen s qs a c.wp q
  | .setCpu _ pre => Private s qs fs pre
  | .addPre c pre | .lockPool c pre | .publish c pre =>
    Private s qs fs pre ∧ (s.wq pre).wp = some c.wp
  | .recheck c pre pos => (Private s qs fs pre ∧ (s.wq pre).wp = some c.wp) ∧
    (pos = .pool c.wp ∨ ∃ q, pos = .queue q ∧ q ∈ qs c.wp)
  | .lock c (some pre) q | .add c (some pre) q | .unlock c (some pre) q =>
    Private s qs fs pre ∧ q ∈ qs c.wp
  | .unlockPool c pre q => (∀ r ∈ pre, Private s qs fs r) ∧ q ∈ qs c.wp
  | .drop pre _ => Private s qs fs pre
  | _ => True

/-- The list from `pos` on is that of `fs`. -/
def FreeFrom (l : Links (Node W)) (pos : Node W) : List ℕ → Prop
  | [] => pos = .free
  | q::fs => pos = .queue q ∧ FreeFrom l (l.next (.queue q)) fs

def AtPool (s : State ι W) (qs : Wp → List ℕ) (pos : Node W) : Prop :=
  pos = .pool s.exiting ∨ ∃ q ∈ qs s.exiting, pos = .queue q

def FreeRing (l : Links (Node W)) (fs : List ℕ) : Prop := Seg l .free (fs.map .queue) .free

def JoinOk (s : State ι W) (qs : Wp → List ℕ) (fs : List ℕ) : JoinPc W → Prop
  | .lockPool | .unlockPool | .freeTest => FreeRing s.links fs
  | .walk curr n => FreeRing s.links fs ∧ AtPool s qs curr ∧ n = s.links.next curr
  | .lock q n | .check q n | .unlink q n =>
    FreeRing s.links fs ∧ q ∈ qs s.exiting ∧ n = s.links.next (.queue q)
  | .syncWq q n | .settleWq q n | .keep q n =>
    FreeRing s.links fs ∧ AtPool s qs n ∧ n = s.links.next (.queue q)
  | .clear _ n | .unlock _ n => FreeRing s.links fs ∧ AtPool s qs n
  | .freeWalk curr n => FreeFrom s.links curr fs ∧ n = s.links.next curr
  | .join q n | .free q n => ∃ rest, fs = q::rest ∧ FreeFrom s.links n rest
  | .dec n => FreeFrom s.links n fs
  | _ => fs = []

/-- No node of a list of works points to a node of a list of workqueues. -/
def Closed (l : Links (Node W)) : Prop :=
  ∀ n, n.listed = false → (l.next n).listed = false ∧ (l.prev n).listed = false

/-- `qs` are the lists of the pools, and `fs` the list that the join frees. -/
structure PoolInv (s : State ι W) (qs : Wp → List ℕ) (fs : List ℕ) : Prop where
  held : Held s.lock s.holdsPool
  joiner : s.pc .joiner = .idle
  closed : Closed s.links
  ring : ∀ p, Seg s.links (.pool p) ((qs p).map .queue) (.pool p)
  nodup : ∀ p, (qs p).Nodup
  linked : ∀ p, ∀ q ∈ qs p, Belongs s p q
  goneNodup : (s.gone fs).Nodup
  gone : ∀ q ∈ s.gone fs, Belongs s s.exiting q ∧ ∀ p, q ∉ qs p
  call : ∀ a, CallOk s qs fs a (s.pc a)
  owner : ∀ a b q, (s.pc a).owned = some q → (s.pc b).owned = some q → a = b
  absent : ∀ a q, (s.pc a).owned = some q → q < s.nextWq ∧ s.worker q = .absent
  created : ∀ q, s.worker q ≠ .absent → q < s.nextWq
  join : JoinOk s qs fs s.join

end Defs

section Frames

variable [DecidableEq ι] [DecidableEq W] {s s' : State ι W} {qs qs' : Wp → List ℕ}
  {fs fs' : List ℕ} {a : Actor ι} {p : Pc W} {q : ℕ} {l l' : Links (Node W)}

theorem FreeFrom.congr {W : Type} {fs : List ℕ} {l l' : Links (Node W)} {pos : Node W}
    (h : FreeFrom l pos fs)
    (hl : ∀ q ∈ fs, l'.next (.queue q) = l.next (.queue q)) : FreeFrom l' pos fs := by
  induction fs generalizing pos with
  | nil => exact h
  | cons q fs ih =>
    refine ⟨h.1,?_⟩
    rw [hl q (by simp)]
    exact ih h.2 fun r hr => hl r (by simp [hr])

theorem FreeFrom.of_seg {W : Type} {fs : List ℕ} {l : Links (Node W)} {x : Node W}
    (h : Seg l x (fs.map .queue) .free) : FreeFrom l (l.next x) fs := by
  induction fs generalizing x with
  | nil => exact (seg_nil.mp h).1
  | cons q fs ih =>
    obtain ⟨hx,hq⟩ := seg_cons.mp h
    exact ⟨hx.1,ih hq⟩

theorem CallOk.keeps {ι W : Type} {s s' : State ι W} {qs qs' : Wp → List ℕ} {fs fs' : List ℕ}
    {a : Actor ι} {p : Pc W} (h : CallOk s qs fs a p) (hr : a ∈ s.readers → a ∈ s'.readers)
    (hseen : a ∈ s.readers → ∀ p q, Seen s qs a p q → Seen s' qs' a p q)
    (hpriv : ∀ q, p.owned = some q → Private s qs fs q → Private s' qs' fs' q)
    (hwp : ∀ q, (∀ c, p ≠ .setCpu c q) → p.owned = some q → (s'.wq q).wp = (s.wq q).wp)
    (hheld : ∀ w q, p.holdsPool = some w → q ∈ qs w → q ∈ qs' w) : CallOk s' qs' fs' a p := by
  cases p with
  | idle | init | enter | alloc | create | store | wake => exact trivial
  | first => exact hr h
  | walk c pos => exact ⟨hr h.1,h.2.imp id fun ⟨q,hq,hs⟩ => ⟨q,hq,hseen h.1 _ _ hs⟩⟩
  | leave c wq =>
    cases wq with
    | none => exact hr h
    | some q => exact ⟨hr h.1,hseen h.1 _ _ h.2⟩
  | lock c pre q | add c pre q | unlock c pre q =>
    cases pre with
    | none => exact ⟨hr h.1,hseen h.1 _ _ h.2⟩
    | some pre => exact ⟨hpriv _ rfl h.1,hheld _ _ rfl h.2⟩
  | setCpu c pre | drop pre q => exact hpriv _ rfl h
  | addPre c pre | lockPool c pre | publish c pre =>
    exact ⟨hpriv _ rfl h.1,(hwp _ (by simp) rfl).trans h.2⟩
  | recheck c pre pos =>
    exact ⟨⟨hpriv _ rfl h.1.1,(hwp _ (by simp) rfl).trans h.1.2⟩,
      h.2.imp id fun ⟨q,hq,hs⟩ => ⟨q,hq,hheld _ _ rfl hs⟩⟩
  | unlockPool c pre q =>
    refine ⟨fun r hr => hpriv r ?_ (h.1 r hr),hheld _ _ rfl h.2⟩
    obtain rfl := Option.mem_def.mp hr
    rfl

/-- The steps that leave alone the pools, the positions in them and the workqueues `X`. -/
structure Quiet (s s' : State ι W) (X : ℕ → Prop) : Prop where
  links : ∀ n : Node W, n.listed = true → (∀ q, n = .queue q → X q) →
    s'.links.next n = s.links.next n ∧ s'.links.prev n = s.links.prev n
  closed : Closed s.links → Closed s'.links
  wp : ∀ q, X q → (s'.wq q).wp = (s.wq q).wp
  allocated : ∀ q, X q → Allocated s q → Allocated s' q
  nextWq : s.nextWq ≤ s'.nextWq
  lock : s'.lock = s.lock
  readers : s'.readers = s.readers
  awaits : s'.awaits = s.awaits
  pc : s'.pc = s.pc
  worker : s'.worker = s.worker
  join : s'.join = s.join
  exiting : s'.exiting = s.exiting

variable {X : ℕ → Prop}

theorem listed_ring {W : Type} {p : Wp} {l : List ℕ} {z : Node W}
    (hz : z ∈ (Node.pool p : Node W)::(l.map .queue ++ [.pool p])) :
    z.listed = true ∧ ∀ q, z = .queue q → q ∈ l := by
  simp only [List.mem_cons,List.mem_append,List.mem_map,List.not_mem_nil,or_false] at hz
  obtain rfl | ⟨q,hq,rfl⟩ | rfl := hz <;> simp_all [Node.listed]

theorem listed_free {W : Type} {l : List ℕ} {z : Node W}
    (hz : z ∈ (Node.free : Node W)::(l.map .queue ++ [.free])) :
    z.listed = true ∧ ∀ q, z = .queue q → q ∈ l := by
  simp only [List.mem_cons,List.mem_append,List.mem_map,List.not_mem_nil,or_false] at hz
  obtain rfl | ⟨q,hq,rfl⟩ | rfl := hz <;> simp_all [Node.listed]

theorem AtPool.listed {ι W : Type} {s : State ι W} {qs : Wp → List ℕ} {pos : Node W}
    (h : AtPool s qs pos) : pos.listed = true ∧ ∀ q, pos = .queue q → q ∈ qs s.exiting := by
  obtain rfl | ⟨q,hq,rfl⟩ := h <;> simp_all [Node.listed]

theorem JoinOk.keeps {ι W : Type} [DecidableEq W] {s s' : State ι W} {qs qs' : Wp → List ℕ}
    {fs : List ℕ} {p : JoinPc W} (h : JoinOk s qs fs p)
    (hfree : ∀ z ∈ (Node.free : Node W)::fs.map .queue,
      s'.links.next z = s.links.next z ∧ s'.links.prev z = s.links.prev z)
    (hpool : p.locked = true → ∀ z, AtPool s qs z →
      AtPool s' qs' z ∧ s'.links.next z = s.links.next z)
    (hleave : ∀ q, p.leaving = some q → s'.links.next (.queue q) = s.links.next (.queue q)) :
    JoinOk s' qs' fs p := by
  have hring : FreeRing s.links fs → FreeRing s'.links fs := fun hf =>
    Seg.congr hf (fun z hz => (hfree z hz).1) fun z hz => (hfree z (by grind)).2
  have hfrom : ∀ pos xs, (∀ q ∈ xs, q ∈ fs) → FreeFrom s.links pos xs → FreeFrom s'.links pos xs :=
    fun pos xs hx hf => hf.congr fun q hq => (hfree (.queue q) (by simp [hx q hq])).1
  have hmem : p.locked = true → ∀ q ∈ qs s.exiting,
      q ∈ qs' s'.exiting ∧ s'.links.next (.queue q) = s.links.next (.queue q) := fun hl q hq => by
    obtain ⟨hat,hn⟩ := hpool hl (.queue q) (.inr ⟨q,hq,rfl⟩)
    simp only [AtPool,reduceCtorEq,Node.queue.injEq,exists_eq_right',false_or] at hat
    exact ⟨hat,hn⟩
  cases p with
  | idle | sync | settle | loop | destroy | done => exact h
  | lockPool | unlockPool | freeTest => exact hring h
  | walk curr n =>
    obtain ⟨hat,hn⟩ := hpool rfl curr h.2.1
    exact ⟨hring h.1,hat,h.2.2.trans hn.symm⟩
  | lock q n | check q n | unlink q n =>
    obtain ⟨hq,hn⟩ := hmem rfl q h.2.1
    exact ⟨hring h.1,hq,h.2.2.trans hn.symm⟩
  | syncWq q n | settleWq q n | keep q n =>
    exact ⟨hring h.1,(hpool rfl n h.2.1).1,h.2.2.trans (hleave q rfl).symm⟩
  | clear q n | unlock q n => exact ⟨hring h.1,(hpool rfl n h.2).1⟩
  | freeWalk curr n =>
    refine ⟨hfrom curr fs (fun _ hq => hq) h.1,h.2.trans (hfree curr ?_).1.symm⟩
    cases fs with
    | nil => simp [show curr = .free from h.1]
    | cons q fs => simp [h.1.1]
  | join q n | free q n =>
    obtain ⟨rest,rfl,hr⟩ := h
    exact ⟨rest,rfl,hfrom n rest (fun _ hq => List.mem_cons_of_mem _ hq) hr⟩
  | dec n => exact hfrom n fs (fun _ hq => hq) h

theorem Quiet.gone {ι W : Type} {s s' : State ι W} {fs : List ℕ} {X : ℕ → Prop} (h : Quiet s s' X) :
    s'.gone fs = s.gone fs := by
  rw [State.gone,State.gone,h.join]

theorem Quiet.holdsPool {ι W : Type} [DecidableEq ι] {s s' : State ι W} {X : ℕ → Prop}
    (h : Quiet s s' X) : s'.holdsPool = s.holdsPool := by
  funext b
  rw [State.holdsPool,State.holdsPool,h.join,h.exiting,h.pc]

theorem Quiet.joinOk {ι W : Type} [DecidableEq W] {s s' : State ι W} {qs : Wp → List ℕ}
    {fs : List ℕ} {X : ℕ → Prop} (h : Quiet s s' X) (hqs : ∀ p, ∀ q ∈ qs p, X q)
    (hfs : ∀ q ∈ s.gone fs, X q) (hj : JoinOk s qs fs s.join) : JoinOk s' qs fs s'.join := by
  rw [h.join]
  refine hj.keeps (fun z hz => ?_) (fun _ z hz => ?_) fun q hq => ?_
  · obtain ⟨hl,hx⟩ := listed_free (l:=fs) (z:=z) (by grind)
    exact h.links z hl fun q hq => hfs q (List.mem_append_right _ (hx q hq))
  · obtain ⟨hl,hx⟩ := hz.listed
    exact ⟨by rwa [AtPool,h.exiting],(h.links z hl fun q hq => hqs _ q (hx q hq)).1⟩
  · refine (h.links _ rfl fun r hr => ?_).1
    cases hr
    exact hfs q (by simp [State.gone,hq])

theorem PoolInv.quiet (h : PoolInv s qs fs) (hq : Quiet s s' X) (hqs : ∀ p, ∀ q ∈ qs p, X q)
    (hfs : ∀ q ∈ s.gone fs, X q) (hown : ∀ b q, (s.pc b).owned = some q →
      X q ∨ (∃ c, s.pc b = .setCpu c q) ∧ Allocated s' q) : PoolInv s' qs fs where
  held := by
    rw [hq.lock,hq.holdsPool]
    exact h.held
  joiner := by rw [hq.pc,h.joiner]
  closed := hq.closed h.closed
  ring p := by
    have hl : ∀ z ∈ (Node.pool p : Node W)::((qs p).map .queue ++ [.pool p]),
        s'.links.next z = s.links.next z ∧ s'.links.prev z = s.links.prev z := fun z hz =>
      hq.links z (listed_ring hz).1 fun q hzq => hqs p q ((listed_ring hz).2 q hzq)
    exact (h.ring p).congr (fun z hz => (hl z (by grind)).1) fun z hz => (hl z (by grind)).2
  nodup := h.nodup
  linked p q hp :=
    ⟨hq.allocated q (hqs p q hp) (h.linked p q hp).1,
      (hq.wp q (hqs p q hp)).trans (h.linked p q hp).2⟩
  goneNodup := by
    rw [hq.gone]
    exact h.goneNodup
  gone q hg := by
    rw [hq.gone] at hg
    rw [hq.exiting]
    obtain ⟨hb,hn⟩ := h.gone q hg
    exact ⟨⟨hq.allocated q (hfs q hg) hb.1,(hq.wp q (hfs q hg)).trans hb.2⟩,hn⟩
  call b := by
    rw [hq.pc]
    refine (h.call b).keeps (fun hr => by rwa [hq.readers]) (fun _ p q hs => ?_)
      (fun q ho hp => ⟨?_,hp.2.1,?_⟩) (fun q hn ho => ?_) fun _ _ _ hm => hm
    · rwa [Seen,hq.join,hq.exiting,hq.awaits]
    · exact (hown b q ho).elim (fun hx => hq.allocated q hx hp.1) And.right
    · rw [hq.gone]
      exact hp.2.2
    · exact (hown b q ho).elim (hq.wp q) fun hc => absurd hc.1.choose_spec (hn _)
  owner b c q hb hc := h.owner b c q (by rwa [hq.pc] at hb) (by rwa [hq.pc] at hc)
  absent b q hb := by
    rw [hq.pc] at hb
    obtain ⟨hlt,hw⟩ := h.absent b q hb
    exact ⟨hlt.trans_le hq.nextWq,by rw [hq.worker,hw]⟩
  created q hw := by
    rw [hq.worker] at hw
    exact (h.created q hw).trans_le hq.nextWq
  join := hq.joinOk hqs hfs h.join

theorem PoolInv.all (h : PoolInv s qs fs) (hq : Quiet s s' fun _ => True) : PoolInv s' qs fs :=
  h.quiet hq (fun _ _ _ => trivial) (fun _ _ => trivial) fun _ _ _ => .inl trivial

theorem Quiet.of_links {ι W : Type} {s s' : State ι W} (hlinks : s'.links = s.links)
    (hwp : ∀ q, (s'.wq q).wp = (s.wq q).wp)
    (hlive : s'.live = s.live) (hnext : s'.nextWq = s.nextWq) (hlock : s'.lock = s.lock)
    (hreaders : s'.readers = s.readers) (hawaits : s'.awaits = s.awaits) (hpc : s'.pc = s.pc)
    (hworker : s'.worker = s.worker) (hjoin : s'.join = s.join)
    (hexit : s'.exiting = s.exiting) : Quiet s s' fun _ => True :=
  ⟨fun _ _ _ => by rw [hlinks]; exact ⟨rfl,rfl⟩,fun h => by rwa [hlinks],fun q _ => hwp q,
    fun q _ ha => by rwa [Allocated,hlive,hnext],hnext.ge,hlock,hreaders,hawaits,hpc,hworker,
    hjoin,hexit⟩

theorem holdsPool_goto {ι W : Type} [DecidableEq ι] {s : State ι W} {a : Actor ι} {p : Pc W}
    (ha : a ≠ .joiner) : (s.goto a p).holdsPool = Function.update s.holdsPool a p.holdsPool := by
  funext b
  rw [State.holdsPool]
  by_cases hb : b = a
  · subst hb
    simp [State.goto,ha]
  · rw [Function.update_of_ne hb,State.holdsPool]
    simp only [State.goto,Function.update_of_ne hb]
    rfl

theorem holdsPool_eq {ι W : Type} [DecidableEq ι] {s : State ι W} {a : Actor ι} (ha : a ≠ .joiner) :
    s.holdsPool a = (s.pc a).holdsPool := if_neg ha

theorem PoolInv.move {ι W : Type} [DecidableEq ι] {s : State ι W} {qs : Wp → List ℕ} {fs : List ℕ}
    {a : Actor ι} {p : Pc W} {l : Wp → Option (Actor ι)} (h : PoolInv s qs fs) (ha : a ≠ .joiner)
    (hheld : Held l (Function.update s.holdsPool a p.holdsPool)) (hok : CallOk s qs fs a p)
    (howner : ∀ q b, b ≠ a → p.owned = some q → (s.pc b).owned ≠ some q)
    (habsent : ∀ q, p.owned = some q → q < s.nextWq ∧ s.worker q = .absent) :
    PoolInv ({ s with lock := l }.goto a p) qs fs where
  held := by
    rw [holdsPool_goto ha]
    exact hheld
  joiner := (Function.update_of_ne ha.symm _ _).trans h.joiner
  closed := h.closed
  ring := h.ring
  nodup := h.nodup
  linked := h.linked
  goneNodup := h.goneNodup
  gone := h.gone
  call b := by
    show CallOk s qs fs b (Function.update s.pc a p b)
    by_cases hb : b = a
    · subst hb
      rwa [Function.update_self]
    · rw [Function.update_of_ne hb]
      exact h.call b
  owner b c q hb hc := by
    by_cases hba : b = a <;> by_cases hca : c = a
    · rw [hba,hca]
    · subst hba
      simp only [State.goto,Function.update_self,Function.update_of_ne hca] at hb hc
      exact absurd hc (howner q c hca hb)
    · subst hca
      simp only [State.goto,Function.update_self,Function.update_of_ne hba] at hb hc
      exact absurd hb (howner q b hba hc)
    · simp only [State.goto,Function.update_of_ne hba,Function.update_of_ne hca] at hb hc
      exact h.owner b c q hb hc
  absent b q hb := by
    by_cases hba : b = a
    · subst hba
      simp only [State.goto,Function.update_self] at hb
      exact habsent q hb
    · simp only [State.goto,Function.update_of_ne hba] at hb
      exact h.absent b q hb
  created := h.created
  join := h.join

theorem PoolInv.goto {ι W : Type} [DecidableEq ι] {s : State ι W} {qs : Wp → List ℕ} {fs : List ℕ}
    {a : Actor ι} {p : Pc W} {x : Pc W} (h : PoolInv s qs fs) (ha : a ≠ .joiner) (hp : s.pc a = x)
    (hheld : p.holdsPool = x.holdsPool) (howned : ∀ q, p.owned = some q → x.owned = some q)
    (hok : CallOk s qs fs a p) : PoolInv (s.goto a p) qs fs := by
  subst hp
  refine h.move (l:=s.lock) ha ?_ hok (fun q b hb hq hbq => hb (h.owner b a q hbq (howned q hq)))
    fun q hq => h.absent a q (howned q hq)
  rw [hheld,← holdsPool_eq ha,Function.update_eq_self]
  exact h.held

def Pc.pools (qs : Wp → List ℕ) : Pc W → Wp → List ℕ
  | .publish c pre => Function.update qs c.wp (qs c.wp ++ [pre])
  | _ => qs

theorem unlisted_init {w : W} {n : Node W} (hn : n.listed = true) :
    (ListHead.init l (.work w)).next n = l.next n ∧
      (ListHead.init l (.work w)).prev n = l.prev n := by
  have hw : n ≠ .work w := fun h => by simp [h,Node.listed] at hn
  rw [ListHead.init_next,ListHead.init_prev,if_neg hw,if_neg hw]
  exact ⟨rfl,rfl⟩

theorem Closed.init {w : W} (h : Closed l) : Closed (ListHead.init l (.work w)) := by
  intro n hn
  rw [ListHead.init_next,ListHead.init_prev]
  split
  · exact ⟨rfl,rfl⟩
  · exact h n hn

theorem unlisted_addTailRcu {w : W} (h : Closed l) {n : Node W} (hn : n.listed = true) :
    (addTailRcu l (.work w) (.works q)).next n = l.next n ∧
      (addTailRcu l (.work w) (.works q)).prev n = l.prev n := by
  have hw : n ≠ .work w := fun h => by simp [h,Node.listed] at hn
  have hq : n ≠ .works q := fun h => by simp [h,Node.listed] at hn
  have hp : n ≠ l.prev (.works q) := fun h' => by simp [h',(h (.works q) rfl).2] at hn
  rw [addTailRcu,ListHead.addBetween_next,ListHead.addBetween_prev,if_neg hw,if_neg hq,if_neg hw,
    if_neg hp]
  exact ⟨rfl,rfl⟩

theorem Closed.addTailRcu {w : W} (h : Closed l) : Closed (addTailRcu l (.work w) (.works q)) := by
  intro n hn
  have hq := h (.works q) rfl
  have hs := h n hn
  rw [Workqueue.addTailRcu,ListHead.addBetween_next,ListHead.addBetween_prev]
  refine ⟨?_,?_⟩
  · split_ifs
    exacts [rfl,rfl,hs.1]
  · split_ifs
    exacts [hq.2,rfl,hs.2]

theorem unlisted_del {w : W} (h : Closed l) {n : Node W} (hn : n.listed = true) :
    (ListHead.del l (.work w)).next n = l.next n ∧
      (ListHead.del l (.work w)).prev n = l.prev n := by
  have hw : n ≠ .work w := fun h => by simp [h,Node.listed] at hn
  have hx : n ≠ l.next (.work w) := fun h' => by simp [h',(h (.work w) rfl).1] at hn
  have hp : n ≠ l.prev (.work w) := fun h' => by simp [h',(h (.work w) rfl).2] at hn
  rw [ListHead.del_next,ListHead.del_prev,if_neg hw,if_neg hw,if_neg hx,if_neg hp]
  exact ⟨rfl,rfl⟩

theorem Closed.del {w : W} (h : Closed l) : Closed (ListHead.del l (.work w)) := by
  intro n hn
  have hw := h (.work w) rfl
  have hs := h n hn
  rw [ListHead.del_next,ListHead.del_prev]
  refine ⟨?_,?_⟩
  · split_ifs
    exacts [rfl,hw.1,hs.1]
  · split_ifs
    exacts [rfl,hw.2,hs.2]

theorem update_wp {ι W : Type} {s : State ι W} {q : ℕ} {r : Wq ι} (hr : r.wp = (s.wq q).wp)
    (n : ℕ) : (Function.update s.wq q r n).wp = (s.wq n).wp := by
  by_cases hn : n = q
  · rw [hn,Function.update_self,hr]
  · rw [Function.update_of_ne hn]

theorem PoolInv.setWq {r : Wq ι} (h : PoolInv s qs fs) (hr : r.wp = (s.wq q).wp) :
    PoolInv (s.setWq q r) qs fs :=
  h.all (.of_links rfl (update_wp hr) rfl rfl rfl rfl rfl rfl rfl rfl rfl)

theorem PoolInv.initWork {w : W} (h : PoolInv s qs fs) :
    PoolInv (s.setLinks (ListHead.init s.links (.work w))) qs fs :=
  h.all ⟨fun _ hn _ => unlisted_init hn,Closed.init,fun _ _ => rfl,fun _ _ ha => ha,le_rfl,rfl,rfl,
    rfl,rfl,rfl,rfl,rfl⟩

theorem PoolInv.addLocked {w : W} (h : PoolInv s qs fs) : PoolInv (addLocked s q w) qs fs :=
  h.all ⟨fun _ hn _ => unlisted_addTailRcu h.closed hn,Closed.addTailRcu,
    fun n _ => update_wp (r:={ s.wq q with count := (s.wq q).count + 1 }) rfl n,
    fun _ _ ha => ha,le_rfl,rfl,rfl,rfl,rfl,rfl,rfl,rfl⟩

theorem PoolInv.accept {w : W} (h : PoolInv s qs fs) : PoolInv (accept s q w) qs fs :=
  h.all (.of_links rfl (fun _ => rfl) rfl rfl rfl rfl rfl rfl rfl rfl rfl)

theorem PoolInv.first {ι W : Type} [DecidableEq ι] {s : State ι W} {qs : Wp → List ℕ} {fs : List ℕ}
    (h : PoolInv s qs fs) (p : Wp) :
    s.links.next (.pool p) = .pool p ∨ ∃ q, s.links.next (.pool p) = .queue q ∧ q ∈ qs p := by
  have hm := (h.ring p).first_mem
  simp only [List.mem_append,List.mem_map,List.mem_singleton] at hm
  exact hm.symm.imp id fun ⟨q,hq,he⟩ => ⟨q,he.symm,hq⟩

theorem PoolInv.after {ι W : Type} [DecidableEq ι] {s : State ι W} {qs : Wp → List ℕ} {fs : List ℕ}
    {q : ℕ} (h : PoolInv s qs fs) {p : Wp} (hq : q ∈ qs p) :
    s.links.next (.queue q) = .pool p ∨ ∃ r, s.links.next (.queue q) = .queue r ∧ r ∈ qs p := by
  obtain ⟨xs,ys,hxy⟩ := List.append_of_mem hq
  have hring := h.ring p
  rw [hxy,List.map_append,List.map_cons,seg_append] at hring
  have hm := hring.2.first_mem
  simp only [List.mem_append,List.mem_map,List.mem_singleton] at hm
  exact hm.symm.imp id fun ⟨r,hr,he⟩ => ⟨r,he.symm,hxy ▸ by simp [hr]⟩

theorem PoolInv.lockPool {ι W : Type} [DecidableEq ι] {s : State ι W} {qs : Wp → List ℕ}
    {fs : List ℕ} {a : Actor ι} {c : Call W} {pre : ℕ} (h : PoolInv s qs fs) (ha : a ≠ .joiner)
    (hp : s.pc a = .lockPool c pre) (hl : s.lock c.wp = none) :
    PoolInv ((s.setLock c.wp (some a)).goto a (.recheck c pre (s.links.next (.pool c.wp)))) qs
      fs := by
  have hok := h.call a
  have hnone := holdsPool_eq (s:=s) ha
  rw [hp] at hok hnone
  refine h.move ha (h.held.acquire hl hnone) ⟨hok,h.first _⟩ (fun q b hb hq hbq => ?_)
    fun q hq => ?_
  · exact hb (h.owner b a q hbq (by rw [hp]; exact hq))
  · exact h.absent a q (by rw [hp]; exact hq)

theorem PoolInv.unlockPool {ι W : Type} [DecidableEq ι] {s : State ι W} {qs : Wp → List ℕ}
    {fs : List ℕ} {a : Actor ι} {q : ℕ} {c : Call W} {pre : Option ℕ} (h : PoolInv s qs fs)
    (ha : a ≠ .joiner) (hp : s.pc a = .unlockPool c pre q) :
    PoolInv ((s.setLock c.wp none).goto a (pre.elim (.create q) fun pre => .drop pre q)) qs fs := by
  have hok := h.call a
  have hsome := holdsPool_eq (s:=s) ha
  rw [hp] at hok hsome
  have howned : (pre.elim (.create q) fun pre => .drop pre q : Pc W).owned = (s.pc a).owned := by
    rw [hp]
    cases pre <;> rfl
  have hholds : (pre.elim (.create q) fun pre => .drop pre q : Pc W).holdsPool = none := by
    cases pre <;> rfl
  refine h.move ha ?_ ?_ (fun r b hb hr hbr => hb (h.owner b a r hbr (howned ▸ hr)))
    fun r hr => h.absent a r (howned ▸ hr)
  · rw [hholds]
    exact h.held.release hsome
  · cases pre with
    | none => exact trivial
    | some pre => exact hok.1 pre rfl

theorem PoolInv.enter {ι W : Type} [DecidableEq ι] {s : State ι W} {qs : Wp → List ℕ} {fs : List ℕ}
    {a : Actor ι} (h : PoolInv s qs fs) : PoolInv { s with readers := insert a s.readers } qs fs :=
  ⟨h.held,h.joiner,h.closed,h.ring,h.nodup,h.linked,h.goneNodup,h.gone,
    fun b => (h.call b).keeps (Finset.mem_insert_of_mem) (fun _ _ _ hs => hs) (fun _ _ hp => hp)
      (fun _ _ _ => rfl) fun _ _ _ hq => hq,
    h.owner,h.absent,h.created,h.join⟩

theorem PoolInv.leave {ι W : Type} [DecidableEq ι] {s : State ι W} {qs : Wp → List ℕ} {fs : List ℕ}
    {a : Actor ι} (h : PoolInv s qs fs) (hok : CallOk { s with
      readers := s.readers.erase a
      awaits := s.awaits.erase a } qs fs a (s.pc a)) :
    PoolInv { s with
      readers := s.readers.erase a
      awaits := s.awaits.erase a } qs fs := by
  refine ⟨h.held,h.joiner,h.closed,h.ring,h.nodup,h.linked,h.goneNodup,h.gone,fun b => ?_,h.owner,
    h.absent,h.created,h.join⟩
  by_cases hb : b = a
  · subst hb
    exact hok
  · refine (h.call b).keeps (fun hr => Finset.mem_erase.mpr ⟨hb,hr⟩) (fun _ p q hs => ?_)
      (fun _ _ hp => hp) (fun _ _ _ => rfl) fun _ _ _ hq => hq
    refine hs.imp id fun ⟨hl,he,ha⟩ => ⟨hl,he,ha.imp id fun ha => ?_⟩
    exact Finset.mem_erase.mpr ⟨hb,ha⟩

theorem PoolInv.gone_lt {ι W : Type} [DecidableEq ι] {s : State ι W} {qs : Wp → List ℕ}
    {fs : List ℕ} {q : ℕ} (h : PoolInv s qs fs) (hq : q ∈ s.gone fs) : q < s.nextWq :=
  (h.gone q hq).1.1.1

theorem PoolInv.linked_lt {ι W : Type} [DecidableEq ι] {s : State ι W} {qs : Wp → List ℕ}
    {fs : List ℕ} {q : ℕ} (h : PoolInv s qs fs) {p : Wp} (hq : q ∈ qs p) : q < s.nextWq :=
  (h.linked p q hq).1.1

theorem PoolInv.length_le {ι W : Type} [DecidableEq ι] {s : State ι W} {qs : Wp → List ℕ}
    {fs : List ℕ} (h : PoolInv s qs fs) (p : Wp) : (qs p).length ≤ s.nextWq := by
  have hsub : (qs p).toFinset ⊆ Finset.range s.nextWq := fun q hq =>
    Finset.mem_range.mpr (h.linked_lt (List.mem_toFinset.mp hq))
  have hc := Finset.card_le_card hsub
  rwa [Finset.card_range,List.toFinset_card_of_nodup (h.nodup p)] at hc

theorem PoolInv.alloc {c : Call W} {mem : Word} (h : PoolInv s qs fs) (ha : a ≠ .joiner)
    (hp : s.pc a = .alloc c) :
    PoolInv ((allocWorkqueue s mem).goto a (.setCpu c s.nextWq)) qs fs := by
  have hq : Quiet s (allocWorkqueue s mem) (· < s.nextWq) := by
    refine ⟨fun n hn hx => ?_,fun hc n hn => ?_,fun q hq => ?_,fun q hq hal => ?_,Nat.le_succ _,rfl,
      rfl,rfl,rfl,rfl,rfl,rfl⟩
    · have h1 : n ≠ .works s.nextWq := fun h => by simp [h,Node.listed] at hn
      have h2 : n ≠ .queue s.nextWq := fun h => lt_irrefl _ (hx _ h)
      simp [allocWorkqueue,ListHead.init_next,ListHead.init_prev,h1,h2]
    · have h2 : n ≠ .queue s.nextWq := fun h => by simp [h,Node.listed] at hn
      have hs := hc n hn
      simp only [allocWorkqueue,ListHead.init_next,ListHead.init_prev,if_neg h2]
      split
      · exact ⟨rfl,rfl⟩
      · exact hs
    · exact congrArg Wq.wp (Function.update_of_ne hq.ne _ _)
    · exact ⟨hal.1.trans (Nat.lt_succ_self _),(Function.update_of_ne hq.ne _ _).trans hal.2⟩
  have h' : PoolInv (allocWorkqueue s mem) qs fs :=
    h.quiet hq (fun p q hm => h.linked_lt hm) (fun q hm => h.gone_lt hm)
      fun b q hb => .inl (h.absent b q hb).1
  have hnone := holdsPool_eq (s:=allocWorkqueue s mem) ha
  have hpc : (allocWorkqueue s mem).pc a = .alloc c := hp
  rw [hpc] at hnone
  refine h'.move (l:=s.lock) ha ?_ ⟨⟨Nat.lt_succ_self _,Function.update_self ..⟩,?_,?_⟩
    (fun q b _ hq hb => ?_) fun q hq => ?_
  · have hsame : (Pc.setCpu c s.nextWq).holdsPool = (allocWorkqueue s mem).holdsPool a :=
      hnone.symm
    rw [hsame,Function.update_eq_self]
    exact h'.held
  · exact fun p hm => lt_irrefl _ (h.linked_lt hm)
  · exact fun hm => lt_irrefl _ (h.gone_lt hm)
  · cases hq
    exact lt_irrefl _ (h.absent b _ hb).1
  · cases hq
    refine ⟨Nat.lt_succ_self _,?_⟩
    by_contra hw
    exact lt_irrefl _ (h.created _ hw)

theorem PoolInv.setCpu {c c' : Call W} {pre : ℕ} {r : Wq ι} (h : PoolInv s qs fs)
    (ha : a ≠ .joiner) (hp : s.pc a = .setCpu c pre) (hr : r.wp = some c'.wp) :
    PoolInv ((s.setWq pre r).goto a (.addPre c' pre)) qs fs := by
  have hok := h.call a
  rw [hp] at hok
  obtain ⟨hal,hun,hg⟩ := hok
  have hq : Quiet s (s.setWq pre r) (· ≠ pre) :=
    ⟨fun _ _ _ => ⟨rfl,rfl⟩,fun hc => hc,fun q hq => congrArg Wq.wp (Function.update_of_ne hq _ _),
      fun _ _ ha => ha,le_rfl,rfl,rfl,rfl,rfl,rfl,rfl,rfl⟩
  have h' : PoolInv (s.setWq pre r) qs fs := by
    refine h.quiet hq (fun p q hm he => hun p (he ▸ hm)) (fun q hm he => hg (he ▸ hm)) ?_
    intro b q hb
    by_cases hqp : q = pre
    · subst hqp
      obtain rfl := h.owner b a q hb (by rw [hp]; rfl)
      exact .inr ⟨⟨c,hp⟩,hal⟩
    · exact .inl hqp
  refine h'.goto ha hp rfl (fun _ hq => hq) ⟨⟨hal,hun,hg⟩,?_⟩
  exact (congrArg Wq.wp (Function.update_self pre r s.wq)).trans hr

theorem PoolInv.drop {pre : ℕ} (h : PoolInv s qs fs) (ha : a ≠ .joiner)
    (hp : s.pc a = .drop pre q) :
    PoolInv ({ s with live := Function.update s.live pre false }.goto a (.store q)) qs fs := by
  have hok := h.call a
  rw [hp] at hok
  obtain ⟨hal,hun,hg⟩ := hok
  have h₁ : PoolInv (s.goto a (.store q)) qs fs :=
    h.goto ha hp rfl (by rintro _ ⟨⟩) trivial
  refine h₁.quiet (X:=(· ≠ pre)) ⟨fun _ _ _ => ⟨rfl,rfl⟩,fun hc => hc,fun _ _ => rfl,
    fun r hr hl => ⟨hl.1,(Function.update_of_ne hr _ _).trans hl.2⟩,le_rfl,rfl,rfl,rfl,rfl,rfl,rfl,
    rfl⟩ (fun p r hm he => hun p (he ▸ hm)) (fun r hm he => hg (he ▸ hm)) fun b r hb => .inl ?_
  rintro rfl
  by_cases hba : b = a
  · subst hba
    simp [State.goto,Pc.owned] at hb
  · simp only [State.goto,Function.update_of_ne hba] at hb
    exact hba (h.owner b a r hb (by rw [hp]; rfl))

theorem PoolInv.workerGoto {ι W : Type} [DecidableEq ι] {s : State ι W} {qs : Wp → List ℕ}
    {fs : List ℕ} {q : ℕ} {p : WorkerPc W} (h : PoolInv s qs fs)
    (hown : ∀ b, (s.pc b).owned ≠ some q) (hlt : q < s.nextWq) :
    PoolInv (s.workerGoto q p) qs fs where
  held := h.held
  joiner := h.joiner
  closed := h.closed
  ring := h.ring
  nodup := h.nodup
  linked := h.linked
  goneNodup := h.goneNodup
  gone := h.gone
  call := h.call
  owner := h.owner
  absent b r hb := by
    refine ⟨(h.absent b r hb).1,?_⟩
    have hr : r ≠ q := fun he => hown b (he ▸ hb)
    exact (Function.update_of_ne hr _ _).trans (h.absent b r hb).2
  created r hr := by
    by_cases he : r = q
    · exact he ▸ hlt
    · exact h.created r fun hw => hr ((Function.update_of_ne he _ _).trans hw)
  join := h.join

theorem PoolInv.create {ι W : Type} [DecidableEq ι] {s : State ι W} {qs : Wp → List ℕ} {fs : List ℕ}
    {a : Actor ι} {q : ℕ} (h : PoolInv s qs fs) (ha : a ≠ .joiner) (hp : s.pc a = .create q) :
    PoolInv ((s.workerGoto q .test).goto a (.store q)) qs fs := by
  have howned : (s.pc a).owned = some q := by rw [hp]; rfl
  have h₁ : PoolInv (s.goto a (.store q)) qs fs :=
    h.goto ha hp rfl (by rintro _ ⟨⟩) trivial
  refine h₁.workerGoto (fun b hb => ?_) (h.absent a q howned).1
  by_cases hba : b = a
  · subst hba
    simp [State.goto,Pc.owned] at hb
  · simp only [State.goto,Function.update_of_ne hba] at hb
    exact hba (h.owner b a q hb howned)

theorem pool_notMem {W : Type} {p : Wp} {fs : List ℕ} :
    (Node.pool p : Node W) ∉ fs.map .queue := by simp

theorem queue_mem {W : Type} {q : ℕ} {fs : List ℕ} :
    (Node.queue q : Node W) ∈ fs.map .queue ↔ q ∈ fs := by simp

theorem PoolInv.nodup_ring {ι W : Type} [DecidableEq ι] {s : State ι W} {qs : Wp → List ℕ}
    {fs : List ℕ} (h : PoolInv s qs fs) (p : Wp) :
    ((Node.pool p : Node W)::(qs p).map .queue).Nodup :=
  List.nodup_cons.mpr ⟨pool_notMem,(h.nodup p).map fun _ _ => Node.queue.inj⟩

theorem PoolInv.same_pool {ι W : Type} [DecidableEq ι] {s : State ι W} {qs : Wp → List ℕ}
    {fs : List ℕ} {q : ℕ} (h : PoolInv s qs fs) {p p' : Wp} (hq : q ∈ qs p) (hq' : q ∈ qs p') :
    p = p' :=
  Option.some.inj ((h.linked p q hq).2.symm.trans (h.linked p' q hq').2)

theorem PoolInv.off {ι W : Type} [DecidableEq ι] {s : State ι W} {qs : Wp → List ℕ} {fs : List ℕ}
    (h : PoolInv s qs fs) {p p' : Wp} (hp : p' ≠ p) {z : Node W}
    (hz : z ∈ Node.pool p'::(qs p').map .queue) : z ∉ Node.pool p::(qs p).map .queue := by
  intro hz'
  simp only [List.mem_cons,List.mem_map] at hz hz'
  obtain rfl | ⟨q,hq,rfl⟩ := hz
  · simp [hp] at hz'
  · simp only [reduceCtorEq,Node.queue.injEq,exists_eq_right,false_or] at hz'
    exact hp (h.same_pool hq hz')

theorem PoolInv.ring_of_ne {ι W : Type} [DecidableEq ι] {s : State ι W} {qs : Wp → List ℕ}
    {fs : List ℕ} {q : ℕ} {l' : Links (Node W)} (h : PoolInv s qs fs) {p p' : Wp} (hp : p' ≠ p)
    (hq : q ∉ qs p') (hl : ∀ z : Node W, z ∉ Node.pool p::(qs p).map .queue → z ≠ .queue q →
      l'.next z = s.links.next z ∧ l'.prev z = s.links.prev z) :
    Seg l' (.pool p') ((qs p').map .queue) (.pool p') := by
  have hsame : ∀ z ∈ (Node.pool p' : Node W)::(qs p').map .queue,
      l'.next z = s.links.next z ∧ l'.prev z = s.links.prev z := fun z hz =>
    hl z (h.off hp hz) fun he => hq (by simpa [he] using hz)
  exact (h.ring p').congr (fun z hz => (hsame z hz).1) fun z hz => (hsame z (by grind)).2

theorem PoolInv.free_off {ι W : Type} [DecidableEq ι] {s : State ι W} {qs : Wp → List ℕ}
    {fs : List ℕ} (h : PoolInv s qs fs) {p : Wp} {z : Node W}
    (hz : z ∈ Node.free::fs.map .queue) : z ∉ Node.pool p::(qs p).map .queue := by
  intro hz'
  simp only [List.mem_cons,List.mem_map] at hz hz'
  obtain rfl | ⟨q,hq,rfl⟩ := hz
  · simp at hz'
  · simp only [reduceCtorEq,Node.queue.injEq,exists_eq_right,false_or] at hz'
    exact (h.gone q (List.mem_append_right _ hq)).2 p hz'

theorem PoolInv.publish {c : Call W} {pre : ℕ} (h : PoolInv s qs fs) (ha : a ≠ .joiner)
    (hp : s.pc a = .publish c pre) :
    PoolInv ((Workqueue.accept { s with
      links := addTailRcu s.links (.queue pre) (.pool c.wp)
      count := Function.update s.count c.wp (s.count c.wp + 1) } pre c.work).goto a
        (.unlockPool c none pre)) (Function.update qs c.wp (qs c.wp ++ [pre])) fs := by
  have hok := h.call a
  rw [hp] at hok
  obtain ⟨⟨hal,hun,hg⟩,hwp⟩ := hok
  have hx : (Node.queue pre : Node W) ∉ Node.pool c.wp::(qs c.wp).map .queue := by
    simpa using hun c.wp
  have hoff : ∀ z : Node W, z ∉ Node.pool c.wp::(qs c.wp).map .queue → z ≠ .queue pre →
      (addTailRcu s.links (.queue pre) (.pool c.wp)).next z = s.links.next z ∧
      (addTailRcu s.links (.queue pre) (.pool c.wp)).prev z = s.links.prev z := fun z hz hzp =>
    ListHead.addTail_off (h.ring c.wp) hz hzp
  have hmono : ∀ p q, q ∈ qs p → q ∈ Function.update qs c.wp (qs c.wp ++ [pre]) p := by
    intro p q hq
    by_cases hpc : p = c.wp
    · subst hpc
      simp [hq]
    · rwa [Function.update_of_ne hpc]
  have hnew : ∀ p q, q ≠ pre → q ∈ Function.update qs c.wp (qs c.wp ++ [pre]) p → q ∈ qs p := by
    intro p q hqp hq
    by_cases hpc : p = c.wp
    · subst hpc
      simpa [hqp] using hq
    · rwa [Function.update_of_ne hpc] at hq
  have hholds : s.holdsPool a = some c.wp := by rw [holdsPool_eq ha,hp]; rfl
  have howned : (s.pc a).owned = some pre := by rw [hp]; rfl
  have hpcs : ∀ b, (Function.update s.pc a (.unlockPool c none pre) b).owned = (s.pc b).owned := by
    intro b
    by_cases hba : b = a
    · subst hba
      rw [Function.update_self,howned]
      rfl
    · rw [Function.update_of_ne hba]
  have hlist : ∀ z : Node W, z ∈ Node.pool c.wp::(qs c.wp).map .queue → z.listed = true :=
    fun z hz => (listed_ring (p:=c.wp) (l:=qs c.wp) (z:=z) (by grind)).1
  refine ⟨?_,?_,fun n hn => ?_,fun p => ?_,fun p => ?_,fun p q hq => ?_,h.goneNodup,fun q hq => ?_,
    fun b => ?_,fun b b' q hb hb' => ?_,fun b q hb => ?_,h.created,?_⟩
  · rw [holdsPool_goto ha]
    show Held s.lock (Function.update s.holdsPool a (some c.wp))
    rw [← hholds,Function.update_eq_self]
    exact h.held
  · exact (Function.update_of_ne ha.symm _ _).trans h.joiner
  · have hn₁ := hoff n (fun hz => by simp [hlist n hz] at hn) fun hz => by
      simp [hz,Node.listed] at hn
    have hc := h.closed n hn
    exact ⟨hn₁.1.symm ▸ hc.1,hn₁.2.symm ▸ hc.2⟩
  · by_cases hpc : p = c.wp
    · subst hpc
      rw [Function.update_self,List.map_append]
      exact ListHead.seg_addTail (h.ring _) (h.nodup_ring _) hx
    · rw [Function.update_of_ne hpc]
      exact h.ring_of_ne hpc (hun p) hoff
  · by_cases hpc : p = c.wp
    · subst hpc
      rw [Function.update_self]
      exact List.nodup_append.mpr ⟨h.nodup _,by simp,fun x hx y hy he => hun c.wp (by grind)⟩
    · rw [Function.update_of_ne hpc]
      exact h.nodup p
  · by_cases hqp : q = pre
    · subst hqp
      by_cases hpc : p = c.wp
      · exact ⟨hal,hpc ▸ hwp⟩
      · rw [Function.update_of_ne hpc] at hq
        exact absurd hq (hun p)
    · exact h.linked p q (hnew p q hqp hq)
  · refine ⟨(h.gone q hq).1,fun p hm => (h.gone q hq).2 p (hnew p q ?_ hm)⟩
    rintro rfl
    exact hg hq
  · show CallOk _ _ _ b (Function.update s.pc a _ b)
    by_cases hba : b = a
    · subst hba
      rw [Function.update_self]
      exact ⟨fun _ hr => absurd hr (by simp),by simp⟩
    · rw [Function.update_of_ne hba]
      refine (h.call b).keeps (fun hr => hr) (fun _ p q hs => hs.imp (hmono p q) id)
        (fun q ho hq => ⟨hq.1,fun p hm => hq.2.1 p (hnew p q ?_ hm),hq.2.2⟩) (fun _ _ _ => rfl)
        fun p q _ hq => hmono p q hq
      rintro rfl
      exact hba (h.owner b a q ho howned)
  · exact h.owner b b' q ((hpcs b).symm.trans hb) ((hpcs b').symm.trans hb')
  · exact h.absent b q ((hpcs b).symm.trans hb)
  · have hne : s.join.locked = true → s.exiting ≠ c.wp := by
      intro hl he
      have hj : s.lock c.wp = some .joiner := (h.held _ _).mpr (by simp [State.holdsPool,hl,he])
      have ha' : s.lock c.wp = some a := (h.held _ _).mpr hholds
      rw [hj] at ha'
      exact ha (Option.some.inj ha').symm
    refine h.join.keeps (fun z hz => ?_) (fun hl z hz => ⟨?_,?_⟩) fun q hq => ?_
    · refine hoff z (h.free_off hz) fun he => hg (List.mem_append_right _ ?_)
      simpa [he] using hz
    · show AtPool s (Function.update qs c.wp _) z
      rwa [AtPool,Function.update_of_ne (hne hl)]
    · have hmem : z ∈ (Node.pool s.exiting : Node W)::(qs s.exiting).map .queue := by
        obtain rfl | ⟨q,hq,rfl⟩ := hz <;> simp_all
      exact (hoff z (h.off (hne hl) hmem) fun he => hun s.exiting (by simpa [he] using hmem)).1
    · have hq' : q ∈ s.gone fs := by simp [State.gone,hq]
      refine (hoff _ ?_ fun he => hg (Node.queue.inj he ▸ hq')).1
      simpa using (h.gone q hq').2 c.wp

theorem PoolInv.seen_next {ι W : Type} [DecidableEq ι] {s : State ι W} {qs : Wp → List ℕ}
    {fs : List ℕ} {a : Actor ι} {q : ℕ} (h : PoolInv s qs fs) {p : Wp} (hs : Seen s qs a p q) :
    s.links.next (.queue q) = .pool p ∨ ∃ r, s.links.next (.queue q) = .queue r ∧ r ∈ qs p := by
  obtain hq | ⟨hl,rfl,_⟩ := hs
  · exact h.after hq
  · have hj := h.join
    cases hp : s.join with
    | syncWq r n | settleWq r n =>
      rw [hp] at hj hl
      obtain rfl := Option.some.inj hl
      exact hj.2.2 ▸ hj.2.1.imp id fun ⟨r,hr,he⟩ => ⟨r,he,hr⟩
    | _ =>
      rw [hp] at hl
      cases hl

theorem PoolInv.walk {c : Call W} {pos : Node W} (h : PoolInv s qs fs) (ha : a ≠ .joiner)
    (hp : s.pc a = .walk c pos) (hst : Workqueue.walk s a c pos = some s') : PoolInv s' qs fs := by
  have hok := h.call a
  rw [hp] at hok
  obtain ⟨hr,hpos⟩ := hok
  obtain ⟨rfl,rfl⟩ | ⟨q,rfl,hst⟩ := walk_spec hst
  · exact h.goto ha hp rfl (by rintro _ ⟨⟩) hr
  · have hs : Seen s qs a c.wp q := by simpa using hpos
    obtain ⟨_,rfl⟩ | ⟨_,rfl⟩ := hst
    · exact h.goto ha hp rfl (by rintro _ ⟨⟩) ⟨hr,hs⟩
    · refine h.goto ha hp rfl (by rintro _ ⟨⟩) ⟨hr,?_⟩
      exact (h.seen_next hs).imp id fun ⟨r,he,hm⟩ => ⟨r,he,.inl hm⟩

theorem PoolInv.recheck {c : Call W} {pre : ℕ} {pos : Node W} (h : PoolInv s qs fs)
    (ha : a ≠ .joiner) (hp : s.pc a = .recheck c pre pos)
    (hst : Workqueue.recheck s a c pre pos = some s') : PoolInv s' qs fs := by
  have hok := h.call a
  rw [hp] at hok
  obtain ⟨hpre,hpos⟩ := hok
  obtain ⟨rfl,rfl⟩ | ⟨q,rfl,hst⟩ := recheck_spec hst
  · exact h.goto ha hp rfl (fun _ hq => hq) hpre
  · have hq : q ∈ qs c.wp := by simpa using hpos
    obtain ⟨_,rfl⟩ | ⟨_,rfl⟩ := hst
    · exact h.goto ha hp rfl (fun _ hq => hq) ⟨hpre.1,hq⟩
    · exact h.goto ha hp rfl (fun _ hq => hq) ⟨hpre,h.after hq⟩

theorem PoolInv.go {mem : Option Word} {here : Word} (h : PoolInv s qs fs) (ha : a ≠ .joiner)
    (hst : Workqueue.go s a mem here (s.pc a) = some s') : PoolInv s' ((s.pc a).pools qs) fs := by
  have hok := h.call a
  cases hp : s.pc a with
  | idle =>
    rw [hp] at hst
    cases hst
  | init c =>
    rw [hp] at hst
    cases hst
    exact h.initWork.goto ha hp rfl (by rintro _ ⟨⟩) trivial
  | enter c =>
    rw [hp] at hst
    cases hst
    exact h.enter.goto ha hp rfl (by rintro _ ⟨⟩) (Finset.mem_insert_self ..)
  | first c =>
    rw [hp] at hst hok
    cases hst
    exact h.goto ha hp rfl (by rintro _ ⟨⟩)
      ⟨hok,(h.first c.wp).imp id fun ⟨q,he,hq⟩ => ⟨q,he,.inl hq⟩⟩
  | walk c pos =>
    rw [hp] at hst
    exact h.walk ha hp hst
  | lock c pre q =>
    rw [hp] at hst hok
    obtain ⟨_,rfl⟩ := guarded_eq_some.mp hst
    have h' : PoolInv (s.setWqLock q (some a)) qs fs := h.setWq rfl
    cases pre <;> exact h'.goto ha hp rfl (fun _ hr => hr) hok
  | add c pre q =>
    rw [hp] at hst hok
    cases hst
    have h' : PoolInv (Workqueue.accept (Workqueue.addLocked s q c.work) q c.work) qs fs :=
      h.addLocked.accept
    cases pre <;> exact h'.goto ha hp rfl (fun _ hr => hr) hok
  | unlock c pre q =>
    rw [hp] at hst hok
    have h' : PoolInv (s.setWqLock q none) qs fs := h.setWq rfl
    cases pre with
    | none =>
      cases hst
      exact h'.goto ha hp rfl (by rintro _ ⟨⟩) hok
    | some pre =>
      cases hst
      refine h'.goto ha hp rfl (fun _ hr => hr) ⟨fun r hr => ?_,hok.2⟩
      obtain rfl := Option.some.inj hr
      exact hok.1
  | leave c wq =>
    rw [hp] at hst
    cases hst
    cases wq with
    | none =>
      have h' : PoolInv (s.goto a (.alloc c)) qs fs := h.goto ha hp rfl (by rintro _ ⟨⟩) trivial
      refine h'.leave ?_
      simp [State.goto,CallOk]
    | some q =>
      have h' : PoolInv (s.goto a (.store q)) qs fs := h.goto ha hp rfl (by rintro _ ⟨⟩) trivial
      refine h'.leave ?_
      simp [State.goto,CallOk]
  | alloc c =>
    rw [hp] at hst
    cases mem with
    | none =>
      cases hst
      have h' : PoolInv { s with pending := Function.update s.pending c.work false } qs fs :=
        h.all (.of_links rfl (fun _ => rfl) rfl rfl rfl rfl rfl rfl rfl rfl rfl)
      exact h'.goto ha hp rfl (by rintro _ ⟨⟩) trivial
    | some mem =>
      cases hst
      exact h.alloc ha hp
  | setCpu c pre =>
    rw [hp] at hst
    cases hst
    exact h.setCpu ha hp rfl
  | addPre c pre =>
    rw [hp] at hst hok
    cases hst
    refine h.addLocked.goto ha hp rfl (fun _ hr => hr) ⟨hok.1,?_⟩
    exact (congrArg Wq.wp (Function.update_self pre _ s.wq)).trans hok.2
  | lockPool c pre =>
    rw [hp] at hst
    obtain ⟨⟨hl,_⟩,rfl⟩ := guarded_eq_some.mp hst
    exact h.lockPool ha hp hl
  | recheck c pre pos =>
    rw [hp] at hst
    exact h.recheck ha hp hst
  | publish c pre =>
    rw [hp] at hst
    cases hst
    exact h.publish ha hp
  | unlockPool c pre q =>
    rw [hp] at hst
    cases hst
    exact h.unlockPool ha hp
  | create q =>
    rw [hp] at hst
    cases hst
    exact h.create ha hp
  | drop pre q =>
    rw [hp] at hst
    cases hst
    exact h.drop ha hp
  | store q =>
    rw [hp] at hst
    cases hst
    have h' : PoolInv (s.setWq q { s.wq q with futex := 1 }) qs fs := h.setWq rfl
    exact h'.goto ha hp rfl (by rintro _ ⟨⟩) trivial
  | wake q =>
    rw [hp] at hst
    cases hst
    exact h.goto ha hp rfl (by rintro _ ⟨⟩) trivial

theorem PoolInv.not_owned {ι W : Type} [DecidableEq ι] {s : State ι W} {qs : Wp → List ℕ}
    {fs : List ℕ} {q : ℕ} (h : PoolInv s qs fs) (hw : s.worker q ≠ .absent) (b : Actor ι) :
    (s.pc b).owned ≠ some q := fun hb => hw (h.absent b q hb).2

theorem PoolInv.workerGo (h : PoolInv s qs fs)
    (hst : Workqueue.workerGo s q (s.worker q) = some s') : PoolInv s' qs fs := by
  have hgo : ∀ {t : State ι W} {p : WorkerPc W}, PoolInv t qs fs → t.worker = s.worker →
      t.worker q ≠ .absent → PoolInv (t.workerGoto q p) qs fs := fun ht _ hw =>
    ht.workerGoto (ht.not_owned hw) (ht.created q hw)
  cases hp : s.worker q with
  | absent | exited =>
    rw [hp] at hst
    cases hst
  | test =>
    rw [hp] at hst
    cases hst
    exact hgo h rfl (by simp [hp])
  | lock =>
    rw [hp] at hst
    obtain ⟨_,rfl⟩ := guarded_eq_some.mp hst
    have h' : PoolInv (s.setWqLock q (some (.worker q))) qs fs := h.setWq rfl
    exact hgo h' rfl (by simp [State.setWqLock,State.setWq,hp])
  | pop =>
    rw [hp] at hst
    obtain ⟨_,rfl⟩ | ⟨w,_,rfl⟩ := pop_spec hst
    · exact hgo h rfl (by simp [hp])
    · have h' : PoolInv (takeOut s q w) qs fs :=
        h.all ⟨fun _ hn _ => unlisted_del h.closed hn,Closed.del,
          fun n _ => update_wp (r:={ s.wq q with count := (s.wq q).count - 1 }) rfl n,
          fun _ _ ha => ha,le_rfl,rfl,rfl,rfl,rfl,rfl,rfl,rfl⟩
      exact hgo h' rfl (by simp [takeOut,hp])
  | unlock w =>
    rw [hp] at hst
    cases hst
    have h' : PoolInv (s.setWqLock q none) qs fs := h.setWq rfl
    exact hgo h' rfl (by simp [State.setWqLock,State.setWq,hp])
  | wait =>
    rw [hp] at hst
    obtain ⟨_,rfl⟩ := guarded_eq_some.mp hst
    exact hgo h rfl (by simp [hp])
  | call w =>
    rw [hp] at hst
    cases hst
    have h' : PoolInv { s with
        executed := Function.update s.executed q (s.executed q ++ [w]) } qs fs :=
      h.all (.of_links rfl (fun _ => rfl) rfl rfl rfl rfl rfl rfl rfl rfl rfl)
    exact hgo h' rfl (by simp [hp])
  | run w =>
    rw [hp] at hst
    obtain ⟨_,rfl⟩ := guarded_eq_some.mp hst
    exact hgo h rfl (by simp [hp])

def JoinPc.pools (qs : Wp → List ℕ) (exiting : Wp) : JoinPc W → Wp → List ℕ
  | .unlink q _ => Function.update qs exiting ((qs exiting).erase q)
  | _ => qs

def JoinPc.frees (fs : List ℕ) : JoinPc W → List ℕ
  | .keep q _ => q::fs
  | .free _ _ => fs.tail
  | _ => fs

theorem holdsPool_joinGoto {ι W : Type} [DecidableEq ι] {s : State ι W} {p : JoinPc W} :
    (s.joinGoto p).holdsPool =
    Function.update s.holdsPool .joiner (if p.locked then some s.exiting else none) := by
  funext b
  by_cases hb : b = .joiner
  · subst hb
    rw [Function.update_self]
    rfl
  · rw [Function.update_of_ne hb,holdsPool_eq hb,holdsPool_eq hb]
    rfl

theorem JoinPc.visible_eq {W : Type} {p : JoinPc W} (h : p.leaving = none) : p.visible = none := by
  cases p <;> first | rfl | cases h

theorem PoolInv.held_join {ι W : Type} [DecidableEq ι] {s : State ι W} {qs : Wp → List ℕ}
    {fs : List ℕ} {p : JoinPc W} (h : PoolInv s qs fs) (hp : p.locked = s.join.locked) :
    Held s.lock
      (Function.update s.holdsPool .joiner (if p.locked then some s.exiting else none)) := by
  have hsame : (if p.locked then some s.exiting else none) = s.holdsPool .joiner := by
    rw [hp]
    rfl
  rw [hsame,Function.update_eq_self]
  exact h.held

/-- The join goes on with the lists as they are, and takes or gives back the lock of the pool. -/
theorem PoolInv.joinMove {ι W : Type} [DecidableEq ι] {s : State ι W} {qs : Wp → List ℕ}
    {fs : List ℕ} {l : Wp → Option (Actor ι)} {p x : JoinPc W} (h : PoolInv s qs fs)
    (hp : s.join = x) (hheld : Held l (Function.update s.holdsPool .joiner
      (if p.locked then some s.exiting else none))) (hx : x.leaving = none)
    (hleave : p.leaving = none) (hok : JoinOk s qs fs p) :
    PoolInv ({ s with lock := l }.joinGoto p) qs fs := by
  subst hp
  have hgone : ({ s with lock := l }.joinGoto p).gone fs = s.gone fs := by
    simp only [State.gone,State.joinGoto,hx,hleave]
  refine ⟨?_,h.joiner,h.closed,h.ring,h.nodup,h.linked,hgone.symm ▸ h.goneNodup,hgone.symm ▸ h.gone,
    fun b => ?_,h.owner,h.absent,h.created,hok⟩
  · rw [holdsPool_joinGoto]
    exact hheld
  · refine (h.call b).keeps (fun hr => hr) (fun _ w q hs => hs.imp id fun hv => ?_)
      (fun q _ hq => ⟨hq.1,hq.2.1,hgone.symm ▸ hq.2.2⟩) (fun _ _ _ => rfl) fun _ _ _ hq => hq
    have hv' := hv.1
    rw [JoinPc.visible_eq hx] at hv'
    cases hv'

theorem PoolInv.joinGoto {ι W : Type} [DecidableEq ι] {s : State ι W} {qs : Wp → List ℕ}
    {fs : List ℕ} {p x : JoinPc W} (h : PoolInv s qs fs) (hp : s.join = x)
    (hlock : p.locked = x.locked) (hx : x.leaving = none) (hleave : p.leaving = none)
    (hok : JoinOk s qs fs p) : PoolInv (s.joinGoto p) qs fs := by
  exact h.joinMove (l:=s.lock) hp (h.held_join (by rw [hlock,hp])) hx hleave hok

theorem PoolInv.await {ι W : Type} [DecidableEq ι] {s : State ι W} {qs : Wp → List ℕ} {fs : List ℕ}
    (h : PoolInv s qs fs) (hx : s.join.leaving = none) :
    PoolInv { s with awaits := s.readers } qs fs := by
  refine ⟨h.held,h.joiner,h.closed,h.ring,h.nodup,h.linked,h.goneNodup,h.gone,fun b => ?_,h.owner,
    h.absent,h.created,h.join⟩
  refine (h.call b).keeps (fun hr => hr) (fun _ w q hs => hs.imp id fun hv => ?_)
    (fun _ _ hq => hq) (fun _ _ _ => rfl) fun _ _ _ hq => hq
  have hv' := hv.1
  rw [JoinPc.visible_eq hx] at hv'
  cases hv'

theorem PoolInv.initFree (h : PoolInv s qs fs) (hp : s.join = .loop) :
    PoolInv (s.setLinks (ListHead.init s.links .free)) qs fs := by
  have hoff : ∀ z : Node W, z ≠ .free → (ListHead.init s.links .free).next z = s.links.next z ∧
      (ListHead.init s.links .free).prev z = s.links.prev z := fun z hz => by
    rw [ListHead.init_next,ListHead.init_prev,if_neg hz,if_neg hz]
    exact ⟨rfl,rfl⟩
  refine ⟨h.held,h.joiner,fun n hn => ?_,fun p => ?_,h.nodup,h.linked,h.goneNodup,h.gone,h.call,
    h.owner,h.absent,h.created,?_⟩
  · have hn' := hoff n fun he => by simp [he,Node.listed] at hn
    have hc := h.closed n hn
    exact ⟨hn'.1.symm ▸ hc.1,hn'.2.symm ▸ hc.2⟩
  · refine (h.ring p).congr (fun z hz => (hoff z ?_).1) fun z hz => (hoff z ?_).2
    all_goals
      rintro rfl
      simp at hz
  · have hj := h.join
    rw [hp] at hj
    show JoinOk _ qs fs s.join
    rw [hp]
    exact hj

theorem delRcu_next {x z : Node W} :
    (delRcu l x).next z = if z = l.prev x then l.next x else l.next z := by
  simp [delRcu,ListHead.delBetween]

theorem delRcu_prev {x z : Node W} : (delRcu l x).prev z =
    if z = x then .null else if z = l.next x then l.prev x else l.prev z := by
  simp [delRcu,ListHead.delBetween]

/-- Off the node itself the links are those that `mthpc_list_del` leaves. -/
theorem delRcu_eq {x z : Node W} (hz : z ≠ x) : (delRcu l x).next z = (ListHead.del l x).next z ∧
    (delRcu l x).prev z = (ListHead.del l x).prev z := by
  rw [delRcu_next,delRcu_prev,ListHead.del_next,ListHead.del_prev,if_neg hz,if_neg hz,if_neg hz]
  exact ⟨rfl,rfl⟩

theorem PoolInv.unlink {n : Node W} (h : PoolInv s qs fs) (hp : s.join = .unlink q n) :
    PoolInv ((s.setLinks (delRcu s.links (.queue q))).joinGoto (.syncWq q n))
      (Function.update qs s.exiting ((qs s.exiting).erase q)) fs := by
  have hj := h.join
  rw [hp] at hj
  obtain ⟨hfree,hq,hn⟩ := hj
  have hmem : ∀ p r, r ∈ Function.update qs s.exiting ((qs s.exiting).erase q) p ↔
      r ∈ qs p ∧ r ≠ q := by
    intro p r
    by_cases hpe : p = s.exiting
    · subst hpe
      rw [Function.update_self,(h.nodup _).mem_erase_iff,and_comm]
    · rw [Function.update_of_ne hpe]
      exact ⟨fun hr => ⟨hr,fun he => hpe (h.same_pool (he ▸ hr) hq)⟩,And.left⟩
  have hoff : ∀ z : Node W, z ∉ Node.pool s.exiting::(qs s.exiting).map .queue →
      (delRcu s.links (.queue q)).next z = s.links.next z ∧
      (delRcu s.links (.queue q)).prev z = s.links.prev z := by
    intro z hz
    have hzq : z ≠ .queue q := by
      rintro rfl
      exact hz (by simpa using hq)
    rw [(delRcu_eq hzq).1,(delRcu_eq hzq).2]
    exact ListHead.del_off (h.ring s.exiting) (queue_mem.mpr hq) hz
  have hgone : ((s.setLinks (delRcu s.links (.queue q))).joinGoto (.syncWq q n)).gone fs =
      q::s.gone fs := by
    have hl : s.join.leaving = none := by rw [hp]; rfl
    rw [State.gone,State.gone,hl]
    rfl
  have hnq : n ≠ .queue q := by
    obtain ⟨xs,ys,hxy⟩ := List.append_of_mem hq
    have hring := h.ring s.exiting
    have hnd := h.nodup s.exiting
    rw [hxy] at hring hnd
    rw [List.map_append,List.map_cons,seg_append] at hring
    have hm := hring.2.first_mem
    rw [← hn] at hm
    rintro rfl
    simp only [List.mem_append,List.mem_map,Node.queue.injEq,exists_eq_right,List.mem_singleton,
      reduceCtorEq,or_false] at hm
    rw [List.nodup_append] at hnd
    exact (List.nodup_cons.mp hnd.2.1).1 hm
  have hholder : ∀ b p, b ≠ .joiner → (s.pc b).holdsPool = some p → p ≠ s.exiting := by
    rintro b p hb hbp rfl
    have hb' : s.lock s.exiting = some b := (h.held _ _).mpr (by rw [holdsPool_eq hb,hbp])
    have hj : s.lock s.exiting = some .joiner :=
      (h.held _ _).mpr (by simp [State.holdsPool,hp,JoinPc.locked])
    rw [hj] at hb'
    exact hb (Option.some.inj hb').symm
  refine ⟨?_,h.joiner,fun m hm => ?_,fun p => ?_,fun p => ?_,fun p r hr => ?_,?_,fun r hr => ?_,
    fun b => ?_,h.owner,h.absent,h.created,?_⟩
  · rw [holdsPool_joinGoto]
    exact h.held_join (by rw [hp]; rfl)
  · have hm' := hoff m fun hz => by
      have := (listed_ring (p:=s.exiting) (l:=qs s.exiting) (z:=m) (by grind)).1
      simp [this] at hm
    have hc := h.closed m hm
    exact ⟨hm'.1.symm ▸ hc.1,hm'.2.symm ▸ hc.2⟩
  · by_cases hpe : p = s.exiting
    · subst hpe
      rw [Function.update_self]
      obtain ⟨xs,ys,hxy⟩ := List.append_of_mem hq
      have hring := h.ring s.exiting
      have hnd := h.nodup s.exiting
      have hnr := h.nodup_ring s.exiting
      rw [hxy] at hring hnd hnr ⊢
      have hqx : q ∉ xs := fun hx => (List.nodup_append.mp hnd).2.2 q hx q (by simp) rfl
      have hqy : q ∉ ys := (List.nodup_cons.mp (List.nodup_append.mp hnd).2.1).1
      rw [List.erase_append_right _ hqx,List.erase_cons_head,List.map_append]
      rw [List.map_append,List.map_cons] at hring hnr
      have hzq : ∀ z ∈ (Node.pool s.exiting : Node W)::(xs.map .queue ++ ys.map .queue),
          z ≠ .queue q := by
        rintro z hz rfl
        simp [hqx,hqy] at hz
      exact (ListHead.seg_del hring hnr).congr (fun z hz => (delRcu_eq (hzq z hz)).1)
        fun z hz => (delRcu_eq (hzq z (by grind))).2
    · rw [Function.update_of_ne hpe]
      have hqp : q ∉ qs p := fun hm => hpe (h.same_pool hm hq)
      exact h.ring_of_ne hpe hqp fun z hz _ => hoff z hz
  · by_cases hpe : p = s.exiting
    · subst hpe
      rw [Function.update_self]
      exact (h.nodup _).erase q
    · rw [Function.update_of_ne hpe]
      exact h.nodup p
  · exact h.linked p r ((hmem p r).mp hr).1
  · rw [hgone]
    exact List.nodup_cons.mpr ⟨fun hg => (h.gone q hg).2 _ hq,h.goneNodup⟩
  · rw [hgone] at hr
    cases List.mem_cons.mp hr with
    | inl hr =>
      subst hr
      exact ⟨h.linked _ _ hq,fun p hm => ((hmem p r).mp hm).2 rfl⟩
    | inr hr => exact ⟨(h.gone r hr).1,fun p hm => (h.gone r hr).2 p ((hmem p r).mp hm).1⟩
  · refine (h.call b).keeps (fun hr => hr) (fun _ p r hs => ?_) (fun r _ hr => ?_)
      (fun _ _ _ => rfl) fun p r hbp hr => ?_
    · obtain hr | ⟨hv,_⟩ := hs
      · by_cases hrq : r = q
        · subst hrq
          exact .inr ⟨rfl,h.same_pool hq hr,.inl rfl⟩
        · exact .inl ((hmem p r).mpr ⟨hr,hrq⟩)
      · rw [hp] at hv
        cases hv
    · refine ⟨hr.1,fun p hm => hr.2.1 p ((hmem p r).mp hm).1,?_⟩
      rw [hgone]
      exact List.not_mem_cons_of_ne_of_not_mem (fun he => hr.2.1 _ (he ▸ hq)) hr.2.2
    · refine (hmem p r).mpr ⟨hr,?_⟩
      rintro rfl
      by_cases hb : b = .joiner
      · subst hb
        rw [h.joiner] at hbp
        cases hbp
      · exact hholder b p hb hbp (h.same_pool hr hq)
  · have hat : AtPool s qs n := hn ▸ (h.after hq).imp id fun ⟨r,he,hr⟩ => ⟨r,hr,he⟩
    refine ⟨?_,?_,?_⟩
    · refine Seg.congr hfree (fun z hz => (hoff z (h.free_off hz)).1) fun z hz => ?_
      exact (hoff z (h.free_off (by grind))).2
    · refine hat.imp id fun ⟨r,hr,he⟩ => ⟨r,(hmem _ r).mpr ⟨hr,?_⟩,he⟩
      rintro rfl
      exact hnq he
    · show n = (delRcu s.links (.queue q)).next (.queue q)
      rw [delRcu_next,hn]
      split <;> rfl

theorem PoolInv.syncWq {ι W : Type} [DecidableEq ι] {s : State ι W} {qs : Wp → List ℕ} {fs : List ℕ}
    {q : ℕ} {n : Node W} (h : PoolInv s qs fs) (hp : s.join = .syncWq q n) :
    PoolInv ({ s with awaits := s.readers }.joinGoto (.settleWq q n)) qs fs := by
  have hj := h.join
  rw [hp] at hj
  have hgone : ({ s with awaits := s.readers }.joinGoto (.settleWq q n)).gone fs = s.gone fs := by
    rw [State.gone,State.gone,hp]
    rfl
  refine ⟨?_,h.joiner,h.closed,h.ring,h.nodup,h.linked,hgone.symm ▸ h.goneNodup,hgone.symm ▸ h.gone,
    fun b => ?_,h.owner,h.absent,h.created,hj⟩
  · rw [holdsPool_joinGoto]
    exact h.held_join (by rw [hp]; rfl)
  · refine (h.call b).keeps (fun hr => hr) (fun hb w r hs => hs.imp id fun hv => ?_)
      (fun r _ hr => ⟨hr.1,hr.2.1,hgone.symm ▸ hr.2.2⟩) (fun _ _ _ => rfl) fun _ _ _ hr => hr
    rw [hp] at hv
    exact ⟨hv.1,hv.2.1,.inr hb⟩

theorem PoolInv.settleWq {ι W : Type} [DecidableEq ι] {s : State ι W} {qs : Wp → List ℕ}
    {fs : List ℕ} {q : ℕ} {n : Node W} (h : PoolInv s qs fs) (hp : s.join = .settleWq q n)
    (he : s.awaits = ∅) : PoolInv (s.joinGoto (.keep q n)) qs fs := by
  have hj := h.join
  rw [hp] at hj
  have hgone : (s.joinGoto (.keep q n)).gone fs = s.gone fs := by
    rw [State.gone,State.gone,hp]
    rfl
  refine ⟨?_,h.joiner,h.closed,h.ring,h.nodup,h.linked,hgone.symm ▸ h.goneNodup,hgone.symm ▸ h.gone,
    fun b => ?_,h.owner,h.absent,h.created,hj⟩
  · rw [holdsPool_joinGoto]
    exact h.held_join (by rw [hp]; rfl)
  · refine (h.call b).keeps (fun hr => hr) (fun hb w r hs => hs.imp id fun hv => ?_)
      (fun r _ hr => ⟨hr.1,hr.2.1,hgone.symm ▸ hr.2.2⟩) (fun _ _ _ => rfl) fun _ _ _ hr => hr
    obtain ⟨_,_,hu | ha⟩ := hv
    · rw [hp] at hu
      cases hu
    · rw [he] at ha
      exact absurd ha (Finset.notMem_empty b)

theorem PoolInv.keep {n : Node W} (h : PoolInv s qs fs) (hp : s.join = .keep q n) :
    PoolInv ((s.setLinks (ListHead.add s.links (.queue q) .free)).joinGoto (.clear q n)) qs
      (q::fs) := by
  have hj := h.join
  rw [hp] at hj
  obtain ⟨hfree,hn,_⟩ := hj
  have hgone : ((s.setLinks (ListHead.add s.links (.queue q) .free)).joinGoto (.clear q n)).gone
      (q::fs) = s.gone fs := by
    rw [State.gone,State.gone,hp]
    rfl
  have hg : q ∈ s.gone fs := hgone ▸ List.mem_cons_self
  have hnd : (q::fs).Nodup := by
    have hnd := h.goneNodup
    rw [← hgone] at hnd
    exact hnd
  have hx : (Node.queue q : Node W) ∉ Node.free::fs.map .queue := by
    simpa using (List.nodup_cons.mp hnd).1
  have hnr : ((Node.free : Node W)::fs.map .queue).Nodup :=
    List.nodup_cons.mpr ⟨by simp,(List.nodup_cons.mp hnd).2.map fun _ _ => Node.queue.inj⟩
  have hoff : ∀ z : Node W, z ∉ Node.free::fs.map .queue → z ≠ .queue q →
      (ListHead.add s.links (.queue q) .free).next z = s.links.next z ∧
      (ListHead.add s.links (.queue q) .free).prev z = s.links.prev z := fun z hz hzq =>
    ListHead.add_off hfree hz hzq
  refine ⟨?_,h.joiner,fun m hm => ?_,fun p => ?_,h.nodup,h.linked,hgone.symm ▸ h.goneNodup,
    hgone.symm ▸ h.gone,fun b => ?_,h.owner,h.absent,h.created,?_⟩
  · rw [holdsPool_joinGoto]
    exact h.held_join (by rw [hp]; rfl)
  · have hm' := hoff m (fun hz => by
      have := (listed_free (l:=fs) (z:=m) (by grind)).1
      simp [this] at hm) fun hz => by simp [hz,Node.listed] at hm
    have hc := h.closed m hm
    exact ⟨hm'.1.symm ▸ hc.1,hm'.2.symm ▸ hc.2⟩
  · have hsame : ∀ z ∈ (Node.pool p : Node W)::(qs p).map .queue,
        (ListHead.add s.links (.queue q) .free).next z = s.links.next z ∧
        (ListHead.add s.links (.queue q) .free).prev z = s.links.prev z := by
      refine fun z hz => hoff z (fun hf => h.free_off hf hz) ?_
      rintro rfl
      exact (h.gone q hg).2 p (by simpa using hz)
    exact (h.ring p).congr (fun z hz => (hsame z hz).1) fun z hz => (hsame z (by grind)).2
  · refine (h.call b).keeps (fun hr => hr) (fun hb w r hs => hs.imp id fun hv => ?_)
      (fun r _ hr => ⟨hr.1,hr.2.1,hgone.symm ▸ hr.2.2⟩) (fun _ _ _ => rfl) fun _ _ _ hr => hr
    rw [hp] at hv
    cases hv.1
  · exact ⟨ListHead.seg_add hfree hnr hx,hn⟩

theorem PoolInv.free {ι W : Type} [DecidableEq ι] {s : State ι W} {qs : Wp → List ℕ} {fs : List ℕ}
    {q : ℕ} {n : Node W} (h : PoolInv s qs fs) (hp : s.join = .free q n) :
    PoolInv ({ s with live := Function.update s.live q false }.joinGoto (.dec n)) qs fs.tail := by
  have hj := h.join
  rw [hp] at hj
  obtain ⟨rest,rfl,hrest⟩ := hj
  have hgone : s.gone (q::rest) = q::rest := by
    rw [State.gone,hp]
    rfl
  have hnd := hgone ▸ h.goneNodup
  have hfree := h.gone
  rw [hgone] at hfree
  have hal : ∀ r, r ≠ q → Allocated s r →
      Allocated ({ s with live := Function.update s.live q false }.joinGoto (.dec n)) r :=
    fun r hr ha => ⟨ha.1,(Function.update_of_ne hr _ _).trans ha.2⟩
  refine ⟨?_,h.joiner,h.closed,h.ring,h.nodup,fun p r hr => ?_,(List.nodup_cons.mp hnd).2,
    fun r hr => ?_,fun b => ?_,h.owner,h.absent,h.created,hrest⟩
  · rw [holdsPool_joinGoto]
    exact h.held_join (by rw [hp]; rfl)
  · have hrq : r ≠ q := fun he => (hfree q List.mem_cons_self).2 p (he ▸ hr)
    exact ⟨hal r hrq (h.linked p r hr).1,(h.linked p r hr).2⟩
  · have hr' : r ∈ rest := hr
    have hrq : r ≠ q := fun he => (List.nodup_cons.mp hnd).1 (he ▸ hr')
    obtain ⟨hb,hn⟩ := hfree r (List.mem_cons_of_mem _ hr')
    exact ⟨⟨hal r hrq hb.1,hb.2⟩,hn⟩
  · refine (h.call b).keeps (fun hr => hr) (fun _ w r hs => hs.imp id fun hv => ?_)
      (fun r _ hr => ?_) (fun _ _ _ => rfl) fun _ _ _ hr => hr
    · rw [hp] at hv
      cases hv.1
    · obtain ⟨ha,hl,hk⟩ := hr
      rw [hgone] at hk
      exact ⟨hal r (List.ne_of_not_mem_cons hk) ha,hl,List.not_mem_of_not_mem_cons hk⟩

theorem PoolInv.nextPool {ι W : Type} [DecidableEq ι] {s : State ι W} {qs : Wp → List ℕ}
    {fs : List ℕ} {p : Wp} {x y : JoinPc W} {d : Wp → Bool} (h : PoolInv s qs fs)
    (hp : s.join = x) (hx : x = .idle ∨ x = .destroy) (hy : y = .sync ∨ y = .done) :
    PoolInv ({ s with
      destroyed := d
      exiting := p }.joinGoto y) qs fs := by
  subst hp
  have hleave : s.join.visible = none := by obtain hx | hx := hx <;> rw [hx] <;> rfl
  have hl : y.locked = s.join.locked := by
    obtain hx | hx := hx <;> obtain rfl | rfl := hy <;> rw [hx] <;> rfl
  obtain rfl : fs = [] := by
    have hj := h.join
    obtain hx | hx := hx <;> rw [hx] at hj <;> exact hj
  have hgone' : ({ s with
      destroyed := d
      exiting := p }.joinGoto y).gone [] = [] := by
    obtain rfl | rfl := hy <;> rfl
  refine ⟨?_,h.joiner,h.closed,h.ring,h.nodup,h.linked,by rw [hgone']; exact List.nodup_nil,
    fun r hr => ?_,fun b => ?_,h.owner,h.absent,h.created,?_⟩
  · have hn : y.locked = false := by obtain rfl | rfl := hy <;> rfl
    have hheld := h.held_join hl
    rw [holdsPool_joinGoto]
    simp only [hn,Bool.false_eq_true,if_false] at hheld ⊢
    have hsame : Function.update ({ s with
        destroyed := d
        exiting := p } : State ι W).holdsPool .joiner none =
        Function.update s.holdsPool .joiner none := by
      funext b
      by_cases hb : b = .joiner
      · rw [hb,Function.update_self,Function.update_self]
      · rw [Function.update_of_ne hb,Function.update_of_ne hb,holdsPool_eq hb,holdsPool_eq hb]
    rw [hsame]
    exact hheld
  · rw [hgone'] at hr
    cases hr
  · refine (h.call b).keeps (fun hr => hr) (fun _ w r hs => hs.imp id fun hv => ?_)
      (fun r _ hr => ⟨hr.1,hr.2.1,by rw [hgone']; exact List.not_mem_nil⟩) (fun _ _ _ => rfl)
      fun _ _ _ hr => hr
    rw [hleave] at hv
    cases hv.1
  · obtain rfl | rfl := hy <;> rfl

theorem FreeFrom.nil_of_free {W : Type} {fs : List ℕ} {l : Links (Node W)}
    (h : FreeFrom l .free fs) : fs = [] := by
  cases fs with
  | nil => rfl
  | cons q fs => cases h.1

theorem holdsPool_joiner {ι W : Type} [DecidableEq ι] {s : State ι W} {b : Bool}
    (hb : s.join.locked = b) : s.holdsPool .joiner = if b then some s.exiting else none := by
  subst hb
  rfl

theorem PoolInv.loop (h : PoolInv s qs fs) (hp : s.join = .loop)
    (hst : Workqueue.joinGo s .loop = some s') : PoolInv s' qs fs := by
  have hj := h.join
  rw [hp] at hj
  simp only [Workqueue.joinGo] at hst
  by_cases hc : s.count s.exiting = 0
  · rw [if_pos hc] at hst
    cases hst
    exact h.joinGoto hp rfl rfl rfl hj
  · rw [if_neg hc] at hst
    by_cases hpr : 32 ≤ s.progress
    · rw [if_pos hpr] at hst
      cases hst
      exact h.all (.of_links rfl (fun _ => rfl) rfl rfl rfl rfl rfl rfl rfl rfl rfl)
    · rw [if_neg hpr] at hst
      cases hst
      obtain rfl : fs = [] := hj
      refine (h.initFree hp).joinGoto hp rfl rfl rfl ?_
      show Seg (ListHead.init s.links .free) .free [] .free
      rw [seg_nil,Linked,ListHead.init_next,ListHead.init_prev]
      simp

theorem PoolInv.joinLock (h : PoolInv s qs fs) (hp : s.join = .lockPool)
    (hst : Workqueue.joinGo s .lockPool = some s') : PoolInv s' qs fs := by
  have hj := h.join
  rw [hp] at hj
  obtain ⟨hl,rfl⟩ := guarded_eq_some.mp hst
  refine h.joinMove hp (h.held.acquire hl (holdsPool_joiner (b:=false) (by rw [hp]; rfl))) rfl rfl
    ⟨hj,?_,rfl⟩
  obtain he | ⟨q,he,hq⟩ := h.first s.exiting
  · exact .inl he
  · exact .inr ⟨q,hq,he⟩

theorem PoolInv.walkStep {curr n : Node W} (h : PoolInv s qs fs) (hp : s.join = .walk curr n)
    (hst : Workqueue.joinGo s (.walk curr n) = some s') : PoolInv s' qs fs := by
  have hj := h.join
  rw [hp] at hj
  obtain ⟨hf,hat,hn⟩ := hj
  obtain rfl | ⟨q,hq,rfl⟩ := hat
  · simp only [Workqueue.joinGo,joinWalk,if_pos] at hst
    cases hst
    exact h.joinGoto hp rfl rfl rfl hf
  · simp only [Workqueue.joinGo,joinWalk,reduceCtorEq,if_false] at hst
    cases hst
    exact h.joinGoto hp rfl rfl rfl ⟨hf,hq,hn⟩

theorem PoolInv.check {q : ℕ} {n : Node W} (h : PoolInv s qs fs) (hp : s.join = .check q n)
    (hst : Workqueue.joinGo s (.check q n) = some s') : PoolInv s' qs fs := by
  have hj := h.join
  rw [hp] at hj
  cases hst
  split
  · exact h.joinGoto hp rfl rfl rfl hj
  · refine h.joinGoto hp rfl rfl rfl ⟨hj.1,?_⟩
    rw [hj.2.2]
    obtain he | ⟨r,he,hr⟩ := h.after hj.2.1
    · exact .inl he
    · exact .inr ⟨r,hr,he⟩

theorem PoolInv.freeTest (h : PoolInv s qs fs) (hp : s.join = .freeTest)
    (hst : Workqueue.joinGo s .freeTest = some s') : PoolInv s' qs fs := by
  have hj := h.join
  rw [hp] at hj
  simp only [Workqueue.joinGo] at hst
  have hfrom := FreeFrom.of_seg hj
  by_cases he : ListHead.empty s.links .free = true
  · rw [if_pos he] at hst
    cases hst
    have h' : PoolInv { s with progress := s.progress + 8 } qs fs :=
      h.all (.of_links rfl (fun _ => rfl) rfl rfl rfl rfl rfl rfl rfl rfl rfl)
    refine h'.joinGoto hp rfl rfl rfl ?_
    have hnext : s.links.next .free = .free := by simpa [ListHead.empty] using he
    rw [hnext] at hfrom
    exact hfrom.nil_of_free
  · rw [if_neg he] at hst
    cases hst
    exact h.joinGoto hp rfl rfl rfl ⟨hfrom,rfl⟩

theorem PoolInv.freeWalk {curr n : Node W} (h : PoolInv s qs fs) (hp : s.join = .freeWalk curr n)
    (hst : Workqueue.joinGo s (.freeWalk curr n) = some s') : PoolInv s' qs fs := by
  have hj := h.join
  rw [hp] at hj
  obtain ⟨hfrom,hn⟩ := hj
  cases fs with
  | nil =>
    obtain rfl : curr = .free := hfrom
    simp only [Workqueue.joinGo,joinWalk,if_pos] at hst
    cases hst
    have h' : PoolInv { s with progress := s.progress + 1 } qs [] :=
      h.all (.of_links rfl (fun _ => rfl) rfl rfl rfl rfl rfl rfl rfl rfl rfl)
    exact h'.joinGoto hp rfl rfl rfl rfl
  | cons q fs =>
    obtain ⟨rfl,hfrom⟩ := hfrom
    simp only [Workqueue.joinGo,joinWalk,reduceCtorEq,if_false] at hst
    cases hst
    exact h.joinGoto hp rfl rfl rfl ⟨fs,rfl,hn ▸ hfrom⟩

theorem PoolInv.joinGo (h : PoolInv s qs fs) (hst : Workqueue.joinGo s s.join = some s') :
    PoolInv s' (s.join.pools qs s.exiting) (s.join.frees fs) := by
  have hj := h.join
  cases hp : s.join with
  | idle | done =>
    rw [hp] at hst
    cases hst
  | sync =>
    rw [hp] at hst hj
    cases hst
    exact (h.await (by rw [hp]; rfl)).joinGoto hp rfl rfl rfl hj
  | settle =>
    rw [hp] at hst hj
    obtain ⟨_,rfl⟩ := guarded_eq_some.mp hst
    have h' : PoolInv { s with progress := 0 } qs fs :=
      h.all (.of_links rfl (fun _ => rfl) rfl rfl rfl rfl rfl rfl rfl rfl rfl)
    exact h'.joinGoto hp rfl rfl rfl hj
  | loop =>
    rw [hp] at hst
    exact h.loop hp hst
  | lockPool =>
    rw [hp] at hst
    exact h.joinLock hp hst
  | walk curr n =>
    rw [hp] at hst
    exact h.walkStep hp hst
  | lock q n =>
    rw [hp] at hst hj
    obtain ⟨_,rfl⟩ := guarded_eq_some.mp hst
    have h' : PoolInv (s.setWqLock q (some .joiner)) qs fs := h.setWq rfl
    exact h'.joinGoto hp rfl rfl rfl hj
  | check q n =>
    rw [hp] at hst
    exact h.check hp hst
  | unlink q n =>
    rw [hp] at hst
    cases hst
    exact h.unlink hp
  | syncWq q n =>
    rw [hp] at hst
    cases hst
    exact h.syncWq hp
  | settleWq q n =>
    rw [hp] at hst
    obtain ⟨he,rfl⟩ := guarded_eq_some.mp hst
    exact h.settleWq hp he
  | keep q n =>
    rw [hp] at hst
    cases hst
    exact h.keep hp
  | clear q n =>
    rw [hp] at hst hj
    cases hst
    have h' : PoolInv (s.setWq q { s.wq q with
      activedCpu := clearActive (s.wq q).activedCpu }) qs fs := h.setWq rfl
    exact h'.joinGoto hp rfl rfl rfl hj
  | unlock q n =>
    rw [hp] at hst hj
    cases hst
    have h' : PoolInv (s.setWqLock q none) qs fs := h.setWq rfl
    exact h'.joinGoto hp rfl rfl rfl ⟨hj.1,hj.2,rfl⟩
  | unlockPool =>
    rw [hp] at hst hj
    cases hst
    exact h.joinMove hp (h.held.release (holdsPool_joiner (b:=true) (by rw [hp]; rfl))) rfl rfl hj
  | freeTest =>
    rw [hp] at hst
    exact h.freeTest hp hst
  | freeWalk curr n =>
    rw [hp] at hst
    exact h.freeWalk hp hst
  | join q n =>
    rw [hp] at hst hj
    obtain ⟨_,rfl⟩ := guarded_eq_some.mp hst
    exact h.joinGoto hp rfl rfl rfl hj
  | free q n =>
    rw [hp] at hst
    cases hst
    exact h.free hp
  | dec n =>
    rw [hp] at hst hj
    cases hst
    have h' : PoolInv { s with
        count := Function.update s.count s.exiting (s.count s.exiting - 1) } qs fs :=
      h.all (.of_links rfl (fun _ => rfl) rfl rfl rfl rfl rfl rfl rfl rfl rfl)
    exact h'.joinGoto hp rfl rfl rfl ⟨hj,rfl⟩
  | destroy =>
    rw [hp] at hst
    obtain ⟨_,⟨_,rfl⟩ | ⟨p,_,rfl⟩⟩ := destroy_spec hst
    · exact h.nextPool (p:=s.exiting) hp (.inr rfl) (.inr rfl)
    · exact h.nextPool hp (.inr rfl) (.inl rfl)

end Frames

section Run

variable [DecidableEq ι] [DecidableEq W] {s s' : State ι W} {qs : Wp → List ℕ} {fs : List ℕ}
  {act : Act ι W}

def Act.pools (s : State ι W) (qs : Wp → List ℕ) : Act ι W → Wp → List ℕ
  | .go a _ _ => (s.pc a).pools qs
  | .join => s.join.pools qs s.exiting
  | _ => qs

def Act.frees (s : State ι W) (fs : List ℕ) : Act ι W → List ℕ
  | .join => s.join.frees fs
  | _ => fs

theorem mayCall_pc {ι W : Type} {s : State ι W} {a : Actor ι} (h : mayCall s a) :
    a ≠ .joiner ∧ s.pc a = .idle := by
  cases a with
  | outside t => exact ⟨(by rintro ⟨⟩),h⟩
  | worker q => exact ⟨(by rintro ⟨⟩),h.1⟩
  | joiner => exact h.elim

theorem PoolInv.init {ι W : Type} [DecidableEq ι] : PoolInv (init ι W) (fun _ => []) [] where
  held := by
    intro p a
    simp [State.holdsPool,Workqueue.init,JoinPc.locked,Pc.holdsPool]
  joiner := rfl
  closed n hn := by
    cases n with
    | pool p => cases hn
    | _ => exact ⟨rfl,rfl⟩
  ring p := seg_nil.mpr ⟨rfl,rfl⟩
  nodup _ := List.nodup_nil
  linked _ _ hq := absurd hq List.not_mem_nil
  goneNodup := List.nodup_nil
  gone _ hq := absurd hq List.not_mem_nil
  call _ := trivial
  owner _ _ _ h _ := by cases h
  absent _ _ h := by cases h
  created _ h := absurd rfl h
  join := rfl

theorem PoolInv.step (h : PoolInv s qs fs) (hst : Workqueue.step s act = some s') :
    PoolInv s' (act.pools s qs) (act.frees s fs) := by
  cases act with
  | call a c =>
    obtain ⟨hm,rfl⟩ := guarded_eq_some.mp hst
    obtain ⟨ha,hp⟩ := mayCall_pc hm
    have h' : PoolInv { s with pending := Function.update s.pending c.work true } qs fs :=
      h.all (.of_links rfl (fun _ => rfl) rfl rfl rfl rfl rfl rfl rfl rfl rfl)
    exact h'.goto ha hp rfl (by rintro _ ⟨⟩) trivial
  | go a mem here =>
    by_cases ha : a = .joiner
    · subst ha
      rw [Workqueue.step,h.joiner] at hst
      cases hst
    · exact h.go ha hst
  | work q => exact h.workerGo hst
  | exit =>
    obtain ⟨hp,rfl⟩ := guarded_eq_some.mp hst
    exact h.nextPool (d:=s.destroyed) hp (.inl rfl) (.inl rfl)
  | join => exact h.joinGo hst

end Run

end Workqueue
end Mthpc
