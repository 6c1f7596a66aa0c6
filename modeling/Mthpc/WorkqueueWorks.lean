import Mthpc.WorkqueueLifetime

/-!
# The works of a workqueue

A work is linked by its only node, so that what holds of the list of a workqueue depends on
who may still initialise or add that node. `Unlinked` is the condition on the steps under
which every list is a ring; a call may link its work twice, first on the workqueue that it
has allocated and then on the one that was faster, and gives up the first list.
-/
namespace Mthpc
namespace Workqueue

open StepSystem Links

variable {ι W : Type} [DecidableEq ι] [DecidableEq W]

/-- The list of `q` is the ring of the works `xs`, which are the works that are at `q`. -/
structure Lists (s : State ι W) (q : ℕ) (xs : List W) : Prop where
  lt : q < s.nextWq
  seg : Seg s.links (.works q) (xs.map .work) (.works q)
  nodup : xs.Nodup
  count : (s.wq q).count = BitVec.ofNat 32 xs.length
  home : ∀ w, s.home w = some q ↔ w ∈ xs
  wq : ∀ w ∈ xs, s.workWq w = some q

def WorkerPc.held : WorkerPc W → List W
  | .unlock (some w) | .call w => [w]
  | _ => []

/-- `prealloc` and its list, until the call publishes it or gives it up. -/
def Pc.own : Pc W → Option (ℕ × List W)
  | .setCpu _ pre | .addPre _ pre => some (pre,[])
  | .lockPool c pre | .recheck c pre _ | .publish c pre => some (pre,[c.work])
  | .lock c (some pre) _ | .add c (some pre) _ => some (pre,[c.work])
  | _ => none

def Pc.made : Pc W → Option ℕ
  | .unlockPool _ none q | .create q => some q
  | _ => none

/-- `ws` are the lists of the workqueues that have been published. -/
structure WorkInv (s : State ι W) (qs : Wp → List ℕ) (fs : List ℕ) (ws : ℕ → Option (List W)) :
    Prop where
  list : ∀ q xs, ws q = some xs → Lists s q xs
  own : ∀ a q xs, (s.pc a).own = some (q,xs) → Lists s q xs ∧ ws q = none
  home : ∀ w q, s.home w = some q → q < s.nextWq
  added : ∀ q, s.added q = s.executed q ++ (s.worker q).held ++ (ws q).getD []
  unused : ∀ q, ws q = none → s.executed q = [] ∧ s.worker q = .absent
  listed : ∀ q, (∃ p, q ∈ qs p) ∨ q ∈ s.gone fs → (ws q).isSome = true
  made : ∀ a q, (s.pc a).made = some q → (ws q).isSome = true

def UnlinkedAt (s : State ι W) : Pc W → Prop
  | .init c | .add c none _ | .addPre c _ => s.home c.work = none
  | _ => True

instance (s : State ι W) : ∀ p, Decidable (UnlinkedAt s p)
  | .init c | .add c none _ | .addPre c _ => inferInstanceAs (Decidable (s.home c.work = none))
  | .add _ (some _) _ | .idle | .enter _ | .first _ | .walk _ _ | .lock _ _ _ | .unlock _ _ _
  | .leave _ _ | .alloc _ | .setCpu _ _ | .lockPool _ _ | .recheck _ _ _ | .publish _ _
  | .unlockPool _ _ _ | .create _ | .drop _ _ | .store _ | .wake _ =>
    inferInstanceAs (Decidable True)

/-- A call initialises the node of its work, and links it first, while it is in no list. -/
def Unlinked (s : State ι W) : Act ι W → Prop
  | .go a _ _ => UnlinkedAt s (s.pc a)
  | _ => True

instance (s : State ι W) : ∀ act, Decidable (Unlinked s act)
  | .go a _ _ => inferInstanceAs (Decidable (UnlinkedAt s (s.pc a)))
  | .call _ _ | .work _ | .exit | .join => inferInstanceAs (Decidable True)

section Lists

variable {s s' : State ι W} {q r : ℕ} {xs ys : List W} {w : W}

theorem Lists.nodup_ring {ι W : Type} {s : State ι W} {q : ℕ} {xs : List W} (h : Lists s q xs) :
    ((Node.works q : Node W)::xs.map .work).Nodup := by
  refine List.nodup_cons.mpr ⟨by simp,?_⟩
  exact h.nodup.map fun _ _ => Node.work.inj

theorem Lists.frame {ι W : Type} {s s' : State ι W} {q : ℕ} {xs : List W} (h : Lists s q xs)
    (hlt : s.nextWq ≤ s'.nextWq) (hl : ∀ n ∈ (Node.works q : Node W)::xs.map .work,
      s'.links.next n = s.links.next n ∧ s'.links.prev n = s.links.prev n)
    (hcount : (s'.wq q).count = (s.wq q).count)
    (hhome : ∀ w, s'.home w = some q ↔ s.home w = some q)
    (hwq : ∀ w ∈ xs, s'.workWq w = s.workWq w) : Lists s' q xs where
  lt := h.lt.trans_le hlt
  seg := by
    refine h.seg.congr (fun n hn => (hl n hn).1) fun n hn => (hl n ?_).2
    simpa [or_comm] using hn
  nodup := h.nodup
  count := hcount.trans h.count
  home w := (hhome w).trans (h.home w)
  wq w hw := (hwq w hw).trans (h.wq w hw)

theorem Lists.congr {ι W : Type} {s s' : State ι W} {q : ℕ} {xs : List W} (h : Lists s q xs)
    (hlt : s.nextWq ≤ s'.nextWq) (hl : ∀ n : Node W, n.listed = false →
      s'.links.next n = s.links.next n ∧ s'.links.prev n = s.links.prev n)
    (hcount : (s'.wq q).count = (s.wq q).count) (hhome : s'.home = s.home)
    (hwq : s'.workWq = s.workWq) : Lists s' q xs := by
  refine h.frame hlt (fun n hn => hl n ?_) hcount (fun w => by rw [hhome]) fun w _ => by rw [hwq]
  simp only [List.mem_cons,List.mem_map] at hn
  obtain rfl | ⟨w,_,rfl⟩ := hn <;> rfl

theorem Lists.off {ι W : Type} {s : State ι W} {q r : ℕ} {xs ys : List W} (h : Lists s q xs)
    (hr : Lists s r ys) (hne : r ≠ q) {n : Node W}
    (hn : n ∈ (Node.works r : Node W)::ys.map .work) : n ∉ Node.works q::xs.map .work := by
  intro hn'
  simp only [List.mem_cons,List.mem_map] at hn hn'
  obtain rfl | ⟨v,hv,rfl⟩ := hn
  · simp [hne] at hn'
  · simp only [reduceCtorEq,Node.work.injEq,exists_eq_right,false_or] at hn'
    have hq := (h.home v).mpr hn'
    rw [(hr.home v).mpr hv] at hq
    exact hne (Option.some.inj hq)

section

omit [DecidableEq ι]

theorem Lists.init (h : Lists s q xs) (hw : s.home w ≠ some q) :
    Lists (s.setLinks (ListHead.init s.links (.work w))) q xs := by
  refine h.frame le_rfl (fun n hn => ?_) rfl (fun _ => Iff.rfl) fun _ _ => rfl
  have hne : n ≠ .work w := by
    rintro rfl
    exact hw ((h.home w).mpr (by simpa using hn))
  show (ListHead.init s.links _).next n = _ ∧ (ListHead.init s.links _).prev n = _
  rw [ListHead.init_next,ListHead.init_prev,if_neg hne,if_neg hne]
  exact ⟨rfl,rfl⟩

theorem Lists.addLocked (h : Lists s q xs) (hw : s.home w ≠ some q) :
    Lists (addLocked s q w) q (xs ++ [w]) where
  lt := h.lt
  seg := by
    rw [List.map_append]
    exact ListHead.seg_addTail h.seg h.nodup_ring (by simpa using mt (h.home w).mpr hw)
  nodup := by
    have hn := mt (h.home w).mpr hw
    exact List.nodup_append.mpr ⟨h.nodup,List.nodup_singleton w,by grind⟩
  count := by
    show (Function.update s.wq q _ q).count = _
    rw [Function.update_self,h.count,List.length_append]
    exact (BitVec.ofNat_add ..).symm
  home v := by
    show Function.update s.home w (some q) v = some q ↔ _
    by_cases hv : v = w
    · simp [hv]
    · rw [Function.update_of_ne hv,h.home v]
      simp [hv]
  wq v hv := by
    show Function.update s.workWq w (some q) v = some q
    by_cases hvw : v = w
    · rw [hvw,Function.update_self]
    · rw [Function.update_of_ne hvw]
      exact h.wq v (by simpa [hvw] using hv)

theorem Lists.addLocked_other (h : Lists s q xs) (hr : Lists s r ys) (hne : r ≠ q)
    (hw : s.home w ≠ some r) : Lists (Workqueue.addLocked s q w) r ys := by
  refine hr.frame le_rfl (fun n hn => ?_) ?_ (fun v => ?_) fun v hv => ?_
  · refine ListHead.addTail_off h.seg (h.off hr hne hn) ?_
    rintro rfl
    exact hw ((hr.home w).mpr (by simpa using hn))
  · exact congrArg Wq.count (Function.update_of_ne hne _ _)
  · show Function.update s.home w (some q) v = some r ↔ _
    by_cases hv : v = w
    · rw [hv,Function.update_self]
      exact ⟨fun he => absurd (Option.some.inj he).symm hne,fun he => absurd he hw⟩
    · rw [Function.update_of_ne hv]
  · refine Function.update_of_ne ?_ _ _
    rintro rfl
    exact hw ((hr.home v).mpr hv)

theorem Lists.takeOut (h : Lists s q (w::xs)) : Lists (takeOut s q w) q xs where
  lt := h.lt
  seg := by
    have hs : Seg s.links (.works q) ([] ++ .work w::xs.map .work) (.works q) := h.seg
    exact ListHead.seg_del hs h.nodup_ring
  nodup := (List.nodup_cons.mp h.nodup).2
  count := by
    show (Function.update s.wq q _ q).count = _
    rw [Function.update_self,h.count,List.length_cons,BitVec.ofNat_add]
    exact BitVec.add_sub_cancel ..
  home v := by
    show Function.update s.home w none v = some q ↔ _
    by_cases hv : v = w
    · rw [hv,Function.update_self]
      simp [(List.nodup_cons.mp h.nodup).1]
    · rw [Function.update_of_ne hv,h.home v]
      simp [hv]
  wq v hv := h.wq v (List.mem_cons_of_mem w hv)

theorem Lists.takeOut_other (h : Lists s q (w::xs)) (hr : Lists s r ys) (hne : r ≠ q) :
    Lists (Workqueue.takeOut s q w) r ys := by
  have hw : s.home w = some q := (h.home w).mpr List.mem_cons_self
  refine hr.frame le_rfl (fun n hn => ?_) ?_ (fun v => ?_) fun _ _ => rfl
  · exact ListHead.del_off h.seg (by simp) (h.off hr hne hn)
  · exact congrArg Wq.count (Function.update_of_ne hne _ _)
  · show Function.update s.home w none v = some r ↔ _
    by_cases hv : v = w
    · rw [hv,Function.update_self,hw]
      simp [hne.symm]
    · rw [Function.update_of_ne hv]

end

theorem Lists.alloc {ι W : Type} [DecidableEq W] {s : State ι W} (mem : Word)
    (hw : ∀ w, s.home w ≠ some s.nextWq) :
    Lists (allocWorkqueue s mem) s.nextWq [] where
  lt := Nat.lt_succ_self _
  seg := by
    rw [List.map_nil,seg_nil]
    show Linked (ListHead.init (ListHead.init s.links _) _) _ _
    simp [Linked,ListHead.init_next,ListHead.init_prev]
  nodup := List.nodup_nil
  count := by
    show (Function.update s.wq s.nextWq _ s.nextWq).count = _
    rw [Function.update_self]
    rfl
  home w := by
    show s.home w = some s.nextWq ↔ _
    simpa using hw w
  wq _ hw := absurd hw List.not_mem_nil

theorem Lists.alloc_other {ι W : Type} [DecidableEq W] {s : State ι W} {q : ℕ} {xs : List W}
    (h : Lists s q xs) (mem : Word) : Lists (allocWorkqueue s mem) q xs := by
  refine h.frame (Nat.le_succ _) (fun n hn => ?_)
    (congrArg Wq.count (Function.update_of_ne h.lt.ne _ _)) (fun _ => Iff.rfl) fun _ _ => rfl
  have hne : n ≠ .works s.nextWq ∧ n ≠ .queue s.nextWq := by
    have := h.lt.ne
    simp only [List.mem_cons,List.mem_map] at hn
    obtain rfl | ⟨v,_,rfl⟩ := hn <;> simp [this]
  show (ListHead.init (ListHead.init s.links _) _).next n = _ ∧
    (ListHead.init (ListHead.init s.links _) _).prev n = _
  simp [ListHead.init_next,ListHead.init_prev,hne]

end Lists

section Steps

variable {s s' : State ι W} {qs qs' : Wp → List ℕ} {fs fs' : List ℕ} {ws : ℕ → Option (List W)}
  {a : Actor ι} {p : Pc W} {q : ℕ} {xs : List W} {w : W}

theorem Pc.owned_of_own {W : Type} {p : Pc W} {q : ℕ} {xs : List W} (h : p.own = some (q,xs)) :
    p.owned = some q := by
  cases p with
  | lock c pre r | add c pre r =>
    cases pre with
    | none => cases h
    | some pre =>
      cases h
      rfl
  | setCpu | addPre | lockPool | recheck | publish =>
    cases h
    rfl
  | _ => cases h

theorem own_ne {ι W : Type} [DecidableEq ι] {s : State ι W} {qs : Wp → List ℕ} {fs : List ℕ}
    {a : Actor ι} {b : Actor ι} {r : ℕ} {ys : List W} (hi : PoolInv s qs fs) (hb : b ≠ a)
    (hr : (s.pc b).own = some (r,ys)) : ∀ zs, (s.pc a).own ≠ some (r,zs) :=
  fun _ ha => hb (hi.owner b a r (Pc.owned_of_own hr) (Pc.owned_of_own ha))

theorem WorkInv.goto {ι W : Type} [DecidableEq ι] {s s' : State ι W} {qs : Wp → List ℕ}
    {fs : List ℕ} {ws : ℕ → Option (List W)} {a : Actor ι} {p : Pc W} (h : WorkInv s qs fs ws)
    (hi : PoolInv s qs fs)
    (hpc : s'.pc = Function.update s.pc a p) (hheld : ∀ q, (s'.worker q).held = (s.worker q).held)
    (habsent : ∀ q, ws q = none → s'.worker q = s.worker q)
    (hjoin : s'.join = s.join) (hadded : s'.added = s.added) (hexecuted : s'.executed = s.executed)
    (hhome : ∀ w q, s'.home w = some q → q < s'.nextWq)
    (hlists : ∀ q xs, (∀ ys, (s.pc a).own ≠ some (q,ys)) → Lists s q xs → Lists s' q xs)
    (hown : ∀ q xs, p.own = some (q,xs) → Lists s' q xs ∧ ws q = none)
    (hmade : ∀ q, p.made = some q → (s.pc a).made = some q) : WorkInv s' qs fs ws where
  list r ys hr := by
    refine hlists r ys (fun zs hz => ?_) (h.list r ys hr)
    have hn := (h.own a r zs hz).2
    rw [hr] at hn
    cases hn
  own b r ys hb := by
    rw [hpc] at hb
    by_cases hba : b = a
    · rw [hba,Function.update_self] at hb
      exact hown r ys hb
    · rw [Function.update_of_ne hba] at hb
      exact ⟨hlists r ys (own_ne hi hba hb) (h.own b r ys hb).1,(h.own b r ys hb).2⟩
  home := hhome
  added r := by rw [hadded,hexecuted,hheld,h.added]
  unused r hr := by
    rw [hexecuted,habsent r hr]
    exact h.unused r hr
  listed r hr := h.listed r (by rwa [State.gone,hjoin] at hr)
  made b r hb := by
    rw [hpc] at hb
    by_cases hba : b = a
    · rw [hba,Function.update_self] at hb
      exact h.made a r (hmade r hb)
    · rw [Function.update_of_ne hba] at hb
      exact h.made b r hb

/-- The works and the links of the works that a step leaves alone. -/
structure Still (s s' : State ι W) : Prop where
  nextWq : s.nextWq ≤ s'.nextWq
  links : ∀ n : Node W, n.listed = false →
    s'.links.next n = s.links.next n ∧ s'.links.prev n = s.links.prev n
  count : ∀ q, (s'.wq q).count = (s.wq q).count
  home : s'.home = s.home
  workWq : s'.workWq = s.workWq
  added : s'.added = s.added
  executed : s'.executed = s.executed

theorem Still.of_links {ι W : Type} {s s' : State ι W} (hnext : s'.nextWq = s.nextWq)
    (hlinks : s'.links = s.links)
    (hcount : ∀ q, (s'.wq q).count = (s.wq q).count) (hhome : s'.home = s.home)
    (hwq : s'.workWq = s.workWq) (hadded : s'.added = s.added)
    (hexecuted : s'.executed = s.executed) : Still s s' :=
  ⟨hnext.ge,fun _ _ => by rw [hlinks]; exact ⟨rfl,rfl⟩,hcount,hhome,hwq,hadded,hexecuted⟩

theorem Still.lists {ι W : Type} {s s' : State ι W} {q : ℕ} {xs : List W} (h : Still s s')
    (hq : Lists s q xs) :
    Lists s' q xs :=
  hq.congr h.nextWq h.links (h.count q) h.home h.workWq

theorem WorkInv.still {ι W : Type} [DecidableEq ι] {s s' : State ι W} {qs : Wp → List ℕ}
    {fs : List ℕ} {ws : ℕ → Option (List W)} {a : Actor ι} {p : Pc W} {x : Pc W}
    (h : WorkInv s qs fs ws) (hi : PoolInv s qs fs)
    (hp : s.pc a = x) (hs : Still s s') (hpc : s'.pc = Function.update s.pc a p)
    (hworker : s'.worker = s.worker) (hjoin : s'.join = s.join)
    (hown : ∀ q xs, p.own = some (q,xs) → x.own = some (q,xs))
    (hmade : ∀ q, p.made = some q → x.made = some q) : WorkInv s' qs fs ws := by
  subst hp
  refine h.goto hi hpc (fun q => by rw [hworker]) (fun q _ => by rw [hworker]) hjoin hs.added
    hs.executed (fun w q hw => ?_) (fun q xs _ hq => hs.lists hq) (fun q xs hq => ?_) hmade
  · rw [hs.home] at hw
    exact (h.home w q hw).trans_le hs.nextWq
  · exact ⟨hs.lists (h.own a q xs (hown q xs hq)).1,(h.own a q xs (hown q xs hq)).2⟩

theorem WorkInv.accept (h : WorkInv s qs fs ws) (hi : PoolInv s qs fs)
    (hpc : s'.pc = Function.update s.pc a p) (hworker : s'.worker = s.worker)
    (hjoin : s'.join = s.join) (hnext : s'.nextWq = s.nextWq)
    (hadded : s'.added = Function.update s.added q (s.added q ++ [w]))
    (hexecuted : s'.executed = s.executed) (hhome : ∀ v, v ≠ w → s'.home v = s.home v)
    (hxs : (ws q).getD [] ++ [w] = xs) (hq : Lists s' q xs)
    (hlists : ∀ r ys, r ≠ q → (∀ zs, (s.pc a).own ≠ some (r,zs)) → Lists s r ys → Lists s' r ys)
    (hother : ∀ b, b ≠ a → ∀ ys, (s.pc b).own ≠ some (q,ys)) (hown : p.own = none)
    (hmade : ∀ r, p.made = some r → r = q)
    (hlisted : ∀ r, (∃ w, r ∈ qs' w) → r = q ∨ ∃ w, r ∈ qs w) :
    WorkInv s' qs' fs (Function.update ws q (some xs)) where
  list r ys hr := by
    by_cases hrq : r = q
    · subst hrq
      rw [Function.update_self] at hr
      exact Option.some.inj hr ▸ hq
    · rw [Function.update_of_ne hrq] at hr
      refine hlists r ys hrq (fun zs hz => ?_) (h.list r ys hr)
      have hn := (h.own a r zs hz).2
      rw [hr] at hn
      cases hn
  own b r ys hb := by
    rw [hpc] at hb
    by_cases hba : b = a
    · rw [hba,Function.update_self,hown] at hb
      cases hb
    · rw [Function.update_of_ne hba] at hb
      have hrq : r ≠ q := fun he => hother b hba ys (he ▸ hb)
      rw [Function.update_of_ne hrq]
      exact ⟨hlists r ys hrq (own_ne hi hba hb) (h.own b r ys hb).1,(h.own b r ys hb).2⟩
  home v r hv := by
    by_cases hvw : v = w
    · subst hvw
      have hmem : v ∈ xs := by simp [← hxs]
      rw [(hq.home v).mpr hmem] at hv
      exact Option.some.inj hv ▸ hq.lt
    · rw [hhome v hvw] at hv
      exact hnext ▸ h.home v r hv
  added r := by
    rw [hadded,hexecuted,hworker]
    by_cases hrq : r = q
    · subst hrq
      rw [Function.update_self,Function.update_self,h.added,← hxs,Option.getD_some]
      simp only [List.append_assoc]
    · rw [Function.update_of_ne hrq,Function.update_of_ne hrq,h.added]
  unused r hr := by
    have hrq : r ≠ q := by
      rintro rfl
      rw [Function.update_self] at hr
      cases hr
    rw [Function.update_of_ne hrq] at hr
    rw [hexecuted,hworker]
    exact h.unused r hr
  listed r hr := by
    by_cases hrq : r = q
    · rw [hrq,Function.update_self]
      rfl
    · rw [Function.update_of_ne hrq]
      rw [State.gone,hjoin] at hr
      refine h.listed r (hr.imp (fun hr => (hlisted r hr).resolve_left hrq) id)
  made b r hb := by
    by_cases hrq : r = q
    · rw [hrq,Function.update_self]
      rfl
    · rw [hpc] at hb
      rw [Function.update_of_ne hrq]
      by_cases hba : b = a
      · rw [hba,Function.update_self] at hb
        exact absurd (hmade r hb) hrq
      · rw [Function.update_of_ne hba] at hb
        exact h.made b r hb

theorem update_count {ι W : Type} {s : State ι W} {q : ℕ} {r : Wq ι} (hr : r.count = (s.wq q).count)
    (n : ℕ) : (Function.update s.wq q r n).count = (s.wq n).count := by
  by_cases hn : n = q
  · rw [hn,Function.update_self,hr]
  · rw [Function.update_of_ne hn]

theorem Lists.goto {ι W : Type} [DecidableEq ι] {s : State ι W} {a : Actor ι} {p : Pc W} {q : ℕ}
    {xs : List W} (h : Lists s q xs) : Lists (s.goto a p) q xs :=
  h.congr le_rfl (fun _ _ => ⟨rfl,rfl⟩) rfl rfl rfl

/-- The lists after a step of a call. -/
def Pc.works (ws : ℕ → Option (List W)) : Pc W → ℕ → Option (List W)
  | .add c _ q | .publish c q => Function.update ws q (some ((ws q).getD [] ++ [c.work]))
  | _ => ws

theorem WorkInv.add {c : Call W} {pre : Option ℕ} (h : WorkInv s qs fs ws) (hi : PoolInv s qs fs)
    (hp : s.pc a = .add c pre q) (hw : pre = none → s.home c.work = none) :
    WorkInv ((Workqueue.accept (Workqueue.addLocked s q c.work) q c.work).goto a (.unlock c pre q))
      qs fs (Function.update ws q (some ((ws q).getD [] ++ [c.work]))) := by
  have hok := hi.call a
  rw [hp] at hok
  have hlisted : (∃ w, q ∈ qs w) ∨ q ∈ s.gone fs := by
    cases pre with
    | none => exact hok.2.listed
    | some pre => exact .inl ⟨c.wp,hok.2⟩
  obtain ⟨xs,hxs⟩ := Option.isSome_iff_exists.mp (h.listed q hlisted)
  have hq := h.list q xs hxs
  -- the work is in no list, or in the one that the call gives up
  have hhome : ∀ r, s.home c.work = some r → ∃ zs, (s.pc a).own = some (r,zs) := by
    intro r hr
    cases pre with
    | none =>
      rw [hw rfl] at hr
      cases hr
    | some pre =>
      have hown : (s.pc a).own = some (pre,[c.work]) := by rw [hp]; rfl
      have hpre := ((h.own a pre _ hown).1.home c.work).mpr List.mem_cons_self
      rw [hpre] at hr
      exact ⟨_,Option.some.inj hr ▸ hown⟩
  have hnone : ∀ r, (∀ zs, (s.pc a).own ≠ some (r,zs)) → s.home c.work ≠ some r := by
    intro r hr he
    obtain ⟨zs,hz⟩ := hhome r he
    exact hr zs hz
  have howner : ∀ b zs, (s.pc b).own ≠ some (q,zs) := by
    intro b zs hb
    have hn := (h.own b q zs hb).2
    rw [hxs] at hn
    cases hn
  refine h.accept hi rfl rfl rfl rfl rfl rfl (fun v hv => Function.update_of_ne hv _ _) rfl ?_
    (fun r ys hrq hr hl => ?_) (fun b _ => howner b) ?_ (fun r hr => ?_) fun r hr => .inr hr
  · rw [hxs,Option.getD_some]
    have hadd := hq.addLocked (hnone q (howner a))
    exact hadd.congr le_rfl (fun _ _ => ⟨rfl,rfl⟩) rfl rfl rfl
  · have hadd := hq.addLocked_other hl hrq (hnone r hr)
    exact hadd.congr le_rfl (fun _ _ => ⟨rfl,rfl⟩) rfl rfl rfl
  · cases pre <;> rfl
  · cases hr

theorem PoolInv.last {ι W : Type} [DecidableEq ι] {s : State ι W} {qs : Wp → List ℕ} {fs : List ℕ}
    (h : PoolInv s qs fs) (w : Wp) :
    (s.links.prev (.pool w)).listed = true :=
  (listed_ring (l:=qs w) (List.mem_cons.mpr ((List.mem_cons.mp (h.ring w).last_mem).imp id
    (List.mem_append_left _)))).1

theorem WorkInv.publish {c : Call W} {pre : ℕ} (h : WorkInv s qs fs ws) (hi : PoolInv s qs fs)
    (hp : s.pc a = .publish c pre) :
    WorkInv ((Workqueue.accept { s with
      links := addTailRcu s.links (.queue pre) (.pool c.wp)
      count := Function.update s.count c.wp (s.count c.wp + 1) } pre c.work).goto a
        (.unlockPool c none pre)) (Function.update qs c.wp (qs c.wp ++ [pre])) fs
      (Function.update ws pre (some ((ws pre).getD [] ++ [c.work]))) := by
  have hown : (s.pc a).own = some (pre,[c.work]) := by rw [hp]; rfl
  obtain ⟨hl,hnone⟩ := h.own a pre _ hown
  have hlinks : ∀ n : Node W, n.listed = false →
      (addTailRcu s.links (.queue pre) (.pool c.wp)).next n = s.links.next n ∧
        (addTailRcu s.links (.queue pre) (.pool c.wp)).prev n = s.links.prev n := by
    intro n hn
    have hq : n ≠ .queue pre := fun he => by simp [he,Node.listed] at hn
    have hpool : n ≠ .pool c.wp := fun he => by simp [he,Node.listed] at hn
    have hlast : n ≠ s.links.prev (.pool c.wp) := fun he => by simp [he,hi.last] at hn
    rw [addTailRcu,ListHead.addBetween_next,ListHead.addBetween_prev,if_neg hq,if_neg hq,
      if_neg hpool,if_neg hlast]
    exact ⟨rfl,rfl⟩
  have hkeep : ∀ r ys, Lists s r ys → Lists ((Workqueue.accept { s with
      links := addTailRcu s.links (.queue pre) (.pool c.wp)
      count := Function.update s.count c.wp (s.count c.wp + 1) } pre c.work).goto a
        (.unlockPool c none pre)) r ys := fun r ys hr => hr.congr le_rfl hlinks rfl rfl rfl
  refine h.accept hi rfl rfl rfl rfl rfl rfl (fun _ _ => rfl) rfl ?_
    (fun r ys _ _ hr => hkeep r ys hr)
    (fun b hb ys hr => own_ne hi hb hr _ hown) rfl (fun r hr => (Option.some.inj hr).symm)
    fun r hr => ?_
  · rw [hnone]
    exact hkeep pre _ hl
  · obtain ⟨w,hw⟩ := hr
    by_cases hwp : w = c.wp
    · subst hwp
      rw [Function.update_self,List.mem_append,List.mem_singleton] at hw
      exact hw.symm.imp id fun hw => ⟨c.wp,hw⟩
    · rw [Function.update_of_ne hwp] at hw
      exact .inr ⟨w,hw⟩

theorem WorkInv.addPre {c : Call W} {pre : ℕ} (h : WorkInv s qs fs ws) (hi : PoolInv s qs fs)
    (hp : s.pc a = .addPre c pre) (hnew : s.home c.work = none) :
    WorkInv ((addLocked s pre c.work).goto a (.lockPool c pre)) qs fs ws := by
  have hown : (s.pc a).own = some (pre,[]) := by rw [hp]; rfl
  obtain ⟨hl,hnone⟩ := h.own a pre [] hown
  have hne : ∀ q, s.home c.work ≠ some q := fun q he => by
    rw [hnew] at he
    cases he
  refine h.goto hi rfl (fun _ => rfl) (fun _ _ => rfl) rfl rfl rfl (fun w q hw => ?_)
    (fun q xs hq hl' => ?_) (fun q xs hq => ?_) (by rintro _ ⟨⟩)
  · by_cases hwc : w = c.work
    · subst hwc
      have hq : some pre = some q := (Function.update_self (c.work) _ _).symm.trans hw
      exact Option.some.inj hq ▸ hl.lt
    · exact h.home w q ((Function.update_of_ne hwc _ _).symm.trans hw)
  · refine (hl.addLocked_other hl' ?_ (hne q)).goto
    rintro rfl
    exact hq [] hown
  · cases hq
    exact ⟨(hl.addLocked (hne pre)).goto,hnone⟩

theorem WorkInv.create {ι W : Type} [DecidableEq ι] {s : State ι W} {qs : Wp → List ℕ} {fs : List ℕ}
    {ws : ℕ → Option (List W)} {a : Actor ι} {q : ℕ} (h : WorkInv s qs fs ws) (hi : PoolInv s qs fs)
    (hp : s.pc a = .create q) : WorkInv ((s.workerGoto q .test).goto a (.store q)) qs fs ws := by
  have habs := (hi.absent a q (by rw [hp]; rfl)).2
  have hmade := h.made a q (by rw [hp]; rfl)
  refine h.goto hi rfl (fun r => ?_) (fun r hr => ?_) rfl rfl rfl h.home
    (fun _ _ _ hq => hq.congr le_rfl (fun _ _ => ⟨rfl,rfl⟩) rfl rfl rfl) (by rintro _ _ ⟨⟩)
    (by rintro _ ⟨⟩)
  · show (Function.update s.worker q .test r).held = _
    by_cases hrq : r = q
    · rw [hrq,Function.update_self,habs]
      rfl
    · rw [Function.update_of_ne hrq]
  · refine Function.update_of_ne ?_ _ _
    rintro rfl
    rw [hr] at hmade
    cases hmade

theorem WorkInv.go {mem : Option Word} {here : Word} (h : WorkInv s qs fs ws)
    (hi : PoolInv s qs fs) (hok : UnlinkedAt s (s.pc a))
    (hst : Workqueue.go s a mem here (s.pc a) = some s') :
    WorkInv s' ((s.pc a).pools qs) fs ((s.pc a).works ws) := by
  have hlinks : ∀ n : Node W, n.listed = false →
      s.links.next n = s.links.next n ∧ s.links.prev n = s.links.prev n := fun _ _ => ⟨rfl,rfl⟩
  cases hp : s.pc a with
  | idle =>
    rw [hp] at hst
    cases hst
  | init c =>
    rw [hp] at hst hok
    cases hst
    refine h.goto hi rfl (fun _ => rfl) (fun _ _ => rfl) rfl rfl rfl h.home (fun q xs _ hq => ?_)
      (fun _ _ hq => by cases hq) fun _ hq => by cases hq
    have hne : s.home c.work ≠ some q := fun he => by
      rw [show s.home c.work = none from hok] at he
      cases he
    exact (hq.init hne).goto
  | enter c | first c =>
    rw [hp] at hst
    cases hst
    exact h.still hi hp (.of_links rfl rfl (fun _ => rfl) rfl rfl rfl rfl) rfl rfl rfl
      (by rintro _ _ ⟨⟩) (by rintro _ ⟨⟩)
  | walk c pos =>
    rw [hp] at hst
    obtain ⟨_,rfl⟩ | ⟨q,_,⟨_,rfl⟩ | ⟨_,rfl⟩⟩ := walk_spec hst <;>
      exact h.still hi hp (.of_links rfl rfl (fun _ => rfl) rfl rfl rfl rfl) rfl rfl rfl
        (by rintro _ _ ⟨⟩) (by rintro _ ⟨⟩)
  | lock c pre q =>
    rw [hp] at hst
    obtain ⟨_,rfl⟩ := guarded_eq_some.mp hst
    refine h.still hi hp (.of_links rfl rfl (update_count rfl) rfl rfl rfl rfl) rfl rfl rfl ?_
      (by rintro _ ⟨⟩)
    cases pre <;> exact fun _ _ hq => hq
  | add c pre q =>
    rw [hp] at hst hok
    cases hst
    refine h.add hi hp fun hpre => ?_
    subst hpre
    exact hok
  | unlock c pre q =>
    rw [hp] at hst
    cases pre <;> cases hst <;>
      exact h.still hi hp (.of_links rfl rfl (update_count rfl) rfl rfl rfl rfl) rfl rfl rfl
        (by rintro _ _ ⟨⟩) (by rintro _ ⟨⟩)
  | leave c wq =>
    rw [hp] at hst
    cases hst
    cases wq <;>
      exact h.still hi hp (.of_links rfl rfl (fun _ => rfl) rfl rfl rfl rfl) rfl rfl rfl
        (by rintro _ _ ⟨⟩) (by rintro _ ⟨⟩)
  | alloc c =>
    rw [hp] at hst
    cases mem with
    | none =>
      cases hst
      exact h.still hi hp (.of_links rfl rfl (fun _ => rfl) rfl rfl rfl rfl) rfl rfl rfl
        (by rintro _ _ ⟨⟩) (by rintro _ ⟨⟩)
    | some mem =>
      cases hst
      have hfresh : ws s.nextWq = none := by
        by_contra hne
        obtain ⟨xs,hxs⟩ := Option.ne_none_iff_exists'.mp hne
        exact lt_irrefl _ (h.list _ xs hxs).lt
      refine h.goto hi rfl (fun _ => rfl) (fun _ _ => rfl) rfl rfl rfl
        (fun w q hw => (h.home w q hw).trans (Nat.lt_succ_self _))
        (fun q xs _ hq => (hq.alloc_other mem).goto) (fun q xs hq => ?_) (by rintro _ ⟨⟩)
      cases hq
      exact ⟨(Lists.alloc mem fun w hw => lt_irrefl _ (h.home w _ hw)).goto,hfresh⟩
  | setCpu c pre =>
    rw [hp] at hst
    cases hst
    exact h.still hi hp (.of_links rfl rfl (update_count rfl) rfl rfl rfl rfl) rfl rfl rfl
      (fun _ _ hq => hq) (by rintro _ ⟨⟩)
  | addPre c pre =>
    rw [hp] at hst hok
    cases hst
    exact h.addPre hi hp hok
  | lockPool c pre =>
    rw [hp] at hst
    obtain ⟨_,rfl⟩ := guarded_eq_some.mp hst
    exact h.still hi hp (.of_links rfl rfl (fun _ => rfl) rfl rfl rfl rfl) rfl rfl rfl
      (fun _ _ hq => hq) (by rintro _ ⟨⟩)
  | recheck c pre pos =>
    rw [hp] at hst
    obtain ⟨_,rfl⟩ | ⟨q,_,⟨_,rfl⟩ | ⟨_,rfl⟩⟩ := recheck_spec hst <;>
      exact h.still hi hp (.of_links rfl rfl (fun _ => rfl) rfl rfl rfl rfl) rfl rfl rfl
        (fun _ _ hq => hq) (by rintro _ ⟨⟩)
  | publish c pre =>
    rw [hp] at hst
    cases hst
    exact h.publish hi hp
  | unlockPool c pre q =>
    rw [hp] at hst
    cases hst
    cases pre with
    | none =>
      exact h.still hi hp (.of_links rfl rfl (fun _ => rfl) rfl rfl rfl rfl) rfl rfl rfl
        (by rintro _ _ ⟨⟩) fun _ hq => hq
    | some pre =>
      exact h.still hi hp (.of_links rfl rfl (fun _ => rfl) rfl rfl rfl rfl) rfl rfl rfl
        (by rintro _ _ ⟨⟩) (by rintro _ ⟨⟩)
  | create q =>
    rw [hp] at hst
    cases hst
    exact h.create hi hp
  | drop pre q | wake q =>
    rw [hp] at hst
    cases hst
    exact h.still hi hp (.of_links rfl rfl (fun _ => rfl) rfl rfl rfl rfl) rfl rfl rfl
      (by rintro _ _ ⟨⟩) (by rintro _ ⟨⟩)
  | store q =>
    rw [hp] at hst
    cases hst
    exact h.still hi hp (.of_links rfl rfl (update_count rfl) rfl rfl rfl rfl) rfl rfl rfl
      (by rintro _ _ ⟨⟩) (by rintro _ ⟨⟩)

theorem WorkInv.worker {ι W : Type} {s s' : State ι W} {qs : Wp → List ℕ} {fs : List ℕ}
    {ws : ℕ → Option (List W)} {q : ℕ} {x p : WorkerPc W} (h : WorkInv s qs fs ws)
    (hp : s.worker q = x)
    (hx : x ≠ .absent) (hs : Still s s') (hpc : s'.pc = s.pc) (hjoin : s'.join = s.join)
    (hworker : s'.worker = Function.update s.worker q p) (hheld : p.held = x.held) :
    WorkInv s' qs fs ws where
  list r ys hr := hs.lists (h.list r ys hr)
  own b r ys hb := by
    rw [hpc] at hb
    exact ⟨hs.lists (h.own b r ys hb).1,(h.own b r ys hb).2⟩
  home w r hw := by
    rw [hs.home] at hw
    exact (h.home w r hw).trans_le hs.nextWq
  added r := by
    rw [hs.added,hs.executed,hworker,h.added]
    by_cases hrq : r = q
    · rw [hrq,Function.update_self,hheld,hp]
    · rw [Function.update_of_ne hrq]
  unused r hr := by
    obtain ⟨hex,habs⟩ := h.unused r hr
    rw [hs.executed,hworker]
    refine ⟨hex,?_⟩
    rw [Function.update_of_ne]
    · exact habs
    · rintro rfl
      exact hx (hp.symm.trans habs)
  listed r hr := h.listed r (by rwa [State.gone,hjoin] at hr)
  made b r hb := h.made b r (by rwa [hpc] at hb)

theorem WorkInv.works {ι W : Type} {s : State ι W} {qs : Wp → List ℕ} {fs : List ℕ}
    {ws : ℕ → Option (List W)} {q : ℕ} (h : WorkInv s qs fs ws) (hw : s.worker q ≠ .absent) :
    ∃ xs, ws q = some xs :=
  Option.ne_none_iff_exists'.mp fun hn => hw (h.unused q hn).2

theorem WorkInv.pop {ι W : Type} [DecidableEq W] {s : State ι W} {qs : Wp → List ℕ} {fs : List ℕ}
    {ws : ℕ → Option (List W)} {q : ℕ} {xs : List W} {v : W} (h : WorkInv s qs fs ws)
    (hp : s.worker q = .pop) (hq : ws q = some (v::xs)) :
    WorkInv ((Workqueue.takeOut s q v).workerGoto q (.unlock (some v))) qs fs
      (Function.update ws q (some xs)) := by
  have hl := h.list q _ hq
  have hcongr : ∀ r ys, Lists (Workqueue.takeOut s q v) r ys →
      Lists ((Workqueue.takeOut s q v).workerGoto q (.unlock (some v))) r ys := fun r ys hr =>
    hr.congr le_rfl (fun _ _ => ⟨rfl,rfl⟩) rfl rfl rfl
  refine ⟨fun r ys hr => ?_,fun b r ys hb => ?_,fun w r hw => ?_,fun r => ?_,fun r hr => ?_,
    fun r hr => ?_,fun b r hb => ?_⟩
  · by_cases hrq : r = q
    · subst hrq
      rw [Function.update_self] at hr
      exact hcongr r ys (Option.some.inj hr ▸ hl.takeOut)
    · rw [Function.update_of_ne hrq] at hr
      exact hcongr r ys (hl.takeOut_other (h.list r ys hr) hrq)
  · obtain ⟨hlr,hnone⟩ := h.own b r ys hb
    have hrq : r ≠ q := by
      rintro rfl
      rw [hq] at hnone
      cases hnone
    rw [Function.update_of_ne hrq]
    exact ⟨hcongr r ys (hl.takeOut_other hlr hrq),hnone⟩
  · by_cases hwv : w = v
    · subst hwv
      have hn : Function.update s.home w none w = some r := hw
      rw [Function.update_self] at hn
      cases hn
    · exact h.home w r ((Function.update_of_ne hwv _ _).symm.trans hw)
  · show s.added r = s.executed r ++ (Function.update s.worker q _ r).held ++ _
    rw [h.added]
    by_cases hrq : r = q
    · subst hrq
      rw [Function.update_self,Function.update_self,hp,hq]
      simp [WorkerPc.held]
    · rw [Function.update_of_ne hrq,Function.update_of_ne hrq]
  · have hrq : r ≠ q := by
      rintro rfl
      rw [Function.update_self] at hr
      cases hr
    rw [Function.update_of_ne hrq] at hr
    refine ⟨(h.unused r hr).1,?_⟩
    exact (Function.update_of_ne hrq _ _).trans (h.unused r hr).2
  · by_cases hrq : r = q
    · rw [hrq,Function.update_self]
      rfl
    · rw [Function.update_of_ne hrq]
      exact h.listed r hr
  · by_cases hrq : r = q
    · rw [hrq,Function.update_self]
      rfl
    · rw [Function.update_of_ne hrq]
      exact h.made b r hb

theorem WorkInv.call {ι W : Type} {s : State ι W} {qs : Wp → List ℕ} {fs : List ℕ}
    {ws : ℕ → Option (List W)} {q : ℕ} {v : W} (h : WorkInv s qs fs ws) (hp : s.worker q = .call v)
    :
    WorkInv ({ s with
      executed := Function.update s.executed q (s.executed q ++ [v]) }.workerGoto q (.run v))
      qs fs ws := by
  refine ⟨fun r ys hr => ?_,fun b r ys hb => ⟨?_,(h.own b r ys hb).2⟩,h.home,fun r => ?_,
    fun r hr => ?_,h.listed,h.made⟩
  · exact (h.list r ys hr).congr le_rfl (fun _ _ => ⟨rfl,rfl⟩) rfl rfl rfl
  · exact (h.own b r ys hb).1.congr le_rfl (fun _ _ => ⟨rfl,rfl⟩) rfl rfl rfl
  · show s.added r = Function.update s.executed q _ r ++ (Function.update s.worker q _ r).held ++ _
    rw [h.added]
    by_cases hrq : r = q
    · subst hrq
      rw [Function.update_self,Function.update_self,hp]
      simp [WorkerPc.held]
    · rw [Function.update_of_ne hrq,Function.update_of_ne hrq]
  · obtain ⟨hex,habs⟩ := h.unused r hr
    have hrq : r ≠ q := by
      rintro rfl
      rw [hp] at habs
      cases habs
    exact ⟨(Function.update_of_ne hrq _ _).trans hex,(Function.update_of_ne hrq _ _).trans habs⟩

/-- The lists after a step of the worker of `q`. -/
def WorkerPc.works (ws : ℕ → Option (List W)) (q : ℕ) : WorkerPc W → ℕ → Option (List W)
  | .pop => Function.update ws q ((ws q).map List.tail)
  | _ => ws

theorem Lists.first {ι W : Type} {s : State ι W} {q : ℕ} {xs : List W} (h : Lists s q xs) :
    xs = [] ∧ s.links.next (.works q) = .works q ∨
      ∃ v ys, xs = v::ys ∧ s.links.next (.works q) = .work v := by
  cases xs with
  | nil => exact .inl ⟨rfl,(seg_nil.mp h.seg).1⟩
  | cons v ys => exact .inr ⟨v,ys,rfl,(seg_cons.mp h.seg).1.1⟩

theorem WorkInv.workerGo {ι W : Type} [DecidableEq W] {s s' : State ι W} {qs : Wp → List ℕ}
    {fs : List ℕ} {ws : ℕ → Option (List W)} {q : ℕ} (h : WorkInv s qs fs ws)
    (hst : Workqueue.workerGo s q (s.worker q) = some s') :
    WorkInv s' qs fs ((s.worker q).works ws q) := by
  cases hp : s.worker q with
  | absent | exited =>
    rw [hp] at hst
    cases hst
  | test =>
    rw [hp] at hst
    cases hst
    refine h.worker hp (by rintro ⟨⟩) (.of_links rfl rfl (fun _ => rfl) rfl rfl rfl rfl)
      rfl rfl rfl ?_
    split <;> rfl
  | lock =>
    rw [hp] at hst
    obtain ⟨_,rfl⟩ := guarded_eq_some.mp hst
    exact h.worker hp (by rintro ⟨⟩) (.of_links rfl rfl (update_count rfl) rfl rfl rfl rfl) rfl rfl
      rfl rfl
  | pop =>
    rw [hp] at hst
    obtain ⟨xs,hxs⟩ := h.works (q:=q) (by rw [hp]; rintro ⟨⟩)
    have hfirst := (h.list q xs hxs).first
    show WorkInv s' qs fs (Function.update ws q ((ws q).map List.tail))
    rw [hxs]
    obtain ⟨he,rfl⟩ | ⟨w,hw,rfl⟩ := pop_spec hst
    · have hnil : xs = [] := by
        obtain ⟨hnil,_⟩ | ⟨v,ys,_,hn⟩ := hfirst
        · exact hnil
        · simp [ListHead.empty,hn] at he
      subst hnil
      have hsame : Function.update ws q ((some ([] : List W)).map List.tail) = ws := by
        funext r
        by_cases hrq : r = q
        · rw [hrq,Function.update_self,hxs]
          rfl
        · rw [Function.update_of_ne hrq]
      rw [hsame]
      exact h.worker hp (by rintro ⟨⟩) (.of_links rfl rfl (fun _ => rfl) rfl rfl rfl rfl) rfl rfl
        rfl rfl
    · obtain ⟨_,hn⟩ | ⟨v,ys,rfl,hn⟩ := hfirst
      · rw [hn] at hw
        cases hw
      · rw [hn] at hw
        cases hw
        exact h.pop hp hxs
  | unlock w =>
    rw [hp] at hst
    cases hst
    refine h.worker hp (by rintro ⟨⟩) (.of_links rfl rfl (update_count rfl) rfl rfl rfl rfl) rfl rfl
      rfl ?_
    cases w <;> rfl
  | wait =>
    rw [hp] at hst
    obtain ⟨_,rfl⟩ := guarded_eq_some.mp hst
    exact h.worker hp (by rintro ⟨⟩) (.of_links rfl rfl (fun _ => rfl) rfl rfl rfl rfl) rfl rfl rfl
      rfl
  | call v =>
    rw [hp] at hst
    cases hst
    exact h.call hp
  | run v =>
    rw [hp] at hst
    obtain ⟨_,rfl⟩ := guarded_eq_some.mp hst
    exact h.worker hp (by rintro ⟨⟩) (.of_links rfl rfl (fun _ => rfl) rfl rfl rfl rfl) rfl rfl rfl
      rfl

theorem WorkInv.joined {ι W : Type} {s s' : State ι W} {qs qs' : Wp → List ℕ} {fs fs' : List ℕ}
    {ws : ℕ → Option (List W)} (h : WorkInv s qs fs ws) (hs : Still s s') (hpc : s'.pc = s.pc)
    (hworker : s'.worker = s.worker)
    (hlisted : ∀ r, (∃ w, r ∈ qs' w) ∨ r ∈ s'.gone fs' → (∃ w, r ∈ qs w) ∨ r ∈ s.gone fs) :
    WorkInv s' qs' fs' ws where
  list r ys hr := hs.lists (h.list r ys hr)
  own b r ys hb := by
    rw [hpc] at hb
    exact ⟨hs.lists (h.own b r ys hb).1,(h.own b r ys hb).2⟩
  home w r hw := by
    rw [hs.home] at hw
    exact (h.home w r hw).trans_le hs.nextWq
  added r := by rw [hs.added,hs.executed,hworker,h.added]
  unused r hr := by
    rw [hs.executed,hworker]
    exact h.unused r hr
  listed r hr := h.listed r (hlisted r hr)
  made b r hb := h.made b r (by rwa [hpc] at hb)

theorem PoolInv.around {ι W : Type} [DecidableEq ι] {s : State ι W} {qs : Wp → List ℕ} {fs : List ℕ}
    {q : ℕ} (h : PoolInv s qs fs) {w : Wp} (hq : q ∈ qs w) :
    (s.links.next (.queue q)).listed = true ∧ (s.links.prev (.queue q)).listed = true := by
  obtain ⟨as,bs,hab⟩ := List.append_of_mem hq
  have hring := h.ring w
  rw [hab,List.map_append,List.map_cons,seg_append] at hring
  have hprev := hring.1.last_mem
  have hnext := hring.2.first_mem
  simp only [List.mem_cons,List.mem_append,List.mem_map,List.not_mem_nil,or_false] at hprev hnext
  constructor
  · obtain ⟨r,_,hr⟩ | hr := hnext
    · rw [← hr]
      rfl
    · rw [hr]
      rfl
  · obtain hr | ⟨r,_,hr⟩ := hprev
    · rw [hr]
      rfl
    · rw [← hr]
      rfl

theorem FreeRing.first {ι W : Type} [DecidableEq W] {s : State ι W} {fs : List ℕ}
    (h : FreeRing s.links fs) : (s.links.next .free).listed = true := by
  have hm := Seg.first_mem h
  exact (listed_free (l:=fs) (List.mem_cons_of_mem _ hm)).1

theorem WorkInv.joinTo {ι W : Type} {s s' : State ι W} {qs : Wp → List ℕ} {fs : List ℕ}
    {ws : ℕ → Option (List W)} {x : JoinPc W} (h : WorkInv s qs fs ws) (hp : s.join = x)
    (hs : Still s s') (hpc : s'.pc = s.pc) (hworker : s'.worker = s.worker)
    (hleave : s'.join.leaving = none ∨ s'.join.leaving = x.leaving) : WorkInv s' qs fs ws := by
  subst hp
  refine h.joined hs hpc hworker fun r hr => hr.imp id fun hr => ?_
  rw [State.gone] at hr ⊢
  obtain hl | hl := hleave
  · rw [hl] at hr
    exact List.mem_append_right _ hr
  · rwa [hl] at hr

theorem WorkInv.joinGo (h : WorkInv s qs fs ws) (hi : PoolInv s qs fs)
    (hst : Workqueue.joinGo s s.join = some s') :
    WorkInv s' (s.join.pools qs s.exiting) (s.join.frees fs) ws := by
  have hj := hi.join
  cases hp : s.join with
  | idle | done =>
    rw [hp] at hst
    cases hst
  | sync | unlockPool | dec n =>
    rw [hp] at hst
    cases hst
    exact h.joinTo hp (.of_links rfl rfl (fun _ => rfl) rfl rfl rfl rfl) rfl rfl (.inl rfl)
  | check q n =>
    rw [hp] at hst
    cases hst
    refine h.joinTo hp (.of_links rfl rfl (fun _ => rfl) rfl rfl rfl rfl) rfl rfl (.inl ?_)
    simp only [State.joinGoto]
    split <;> rfl
  | settle | lockPool | join q n =>
    rw [hp] at hst
    obtain ⟨_,rfl⟩ := guarded_eq_some.mp hst
    exact h.joinTo hp (.of_links rfl rfl (fun _ => rfl) rfl rfl rfl rfl) rfl rfl (.inl rfl)
  | loop =>
    rw [hp] at hst
    simp only [Workqueue.joinGo] at hst
    split at hst
    · cases hst
      exact h.joinTo hp (.of_links rfl rfl (fun _ => rfl) rfl rfl rfl rfl) rfl rfl (.inl rfl)
    · split at hst <;> cases hst
      · exact h.joinTo hp (.of_links rfl rfl (fun _ => rfl) rfl rfl rfl rfl) rfl rfl
          (.inr (by rw [hp]))
      · refine h.joinTo hp ⟨le_rfl,fun n hn => ?_,fun _ => rfl,rfl,rfl,rfl,rfl⟩ rfl rfl (.inl rfl)
        have hne : n ≠ .free := fun he => by simp [he,Node.listed] at hn
        show (ListHead.init s.links .free).next n = _ ∧ (ListHead.init s.links .free).prev n = _
        rw [ListHead.init_next,ListHead.init_prev,if_neg hne,if_neg hne]
        exact ⟨rfl,rfl⟩
  | walk curr n | freeWalk curr n =>
    rw [hp] at hst
    obtain ⟨_,rfl⟩ | ⟨q,_,rfl⟩ := joinWalk_spec hst <;>
      exact h.joinTo hp (.of_links rfl rfl (fun _ => rfl) rfl rfl rfl rfl) rfl rfl (.inl rfl)
  | lock q n =>
    rw [hp] at hst
    obtain ⟨_,rfl⟩ := guarded_eq_some.mp hst
    exact h.joinTo hp (.of_links rfl rfl (update_count rfl) rfl rfl rfl rfl) rfl rfl (.inl rfl)
  | unlink q n =>
    rw [hp] at hst hj
    cases hst
    have haround := hi.around hj.2.1
    refine h.joined ⟨le_rfl,fun n hn => ?_,fun _ => rfl,rfl,rfl,rfl,rfl⟩ rfl rfl fun r hr => ?_
    · have hq : n ≠ .queue q := fun he => by simp [he,Node.listed] at hn
      have hnext : n ≠ s.links.next (.queue q) := fun he => by simp [he,haround.1] at hn
      have hprev : n ≠ s.links.prev (.queue q) := fun he => by simp [he,haround.2] at hn
      show (delRcu s.links (.queue q)).next n = _ ∧ (delRcu s.links (.queue q)).prev n = _
      rw [delRcu_next,delRcu_prev,if_neg hq,if_neg hnext,if_neg hprev]
      exact ⟨rfl,rfl⟩
    · obtain ⟨w,hw⟩ | hr := hr
      · by_cases hwe : w = s.exiting
        · subst hwe
          simp only [JoinPc.pools,Function.update_self] at hw
          exact .inl ⟨_,List.mem_of_mem_erase hw⟩
        · simp only [JoinPc.pools,Function.update_of_ne hwe] at hw
          exact .inl ⟨w,hw⟩
      · have hr' : r ∈ [q] ++ fs := hr
        obtain rfl | hr : r = q ∨ r ∈ fs := by simpa using hr'
        · exact .inl ⟨s.exiting,hj.2.1⟩
        · exact .inr (List.mem_append_right _ hr)
  | syncWq q n =>
    rw [hp] at hst
    cases hst
    exact h.joinTo hp (.of_links rfl rfl (fun _ => rfl) rfl rfl rfl rfl) rfl rfl (.inr rfl)
  | settleWq q n =>
    rw [hp] at hst
    obtain ⟨_,rfl⟩ := guarded_eq_some.mp hst
    exact h.joinTo hp (.of_links rfl rfl (fun _ => rfl) rfl rfl rfl rfl) rfl rfl (.inr rfl)
  | keep q n =>
    rw [hp] at hst hj
    cases hst
    have hfirst := FreeRing.first hj.1
    refine h.joined ⟨le_rfl,fun n hn => ?_,fun _ => rfl,rfl,rfl,rfl,rfl⟩ rfl rfl fun r hr => ?_
    · have hq : n ≠ .queue q := fun he => by simp [he,Node.listed] at hn
      have hfree : n ≠ .free := fun he => by simp [he,Node.listed] at hn
      have hnext : n ≠ s.links.next .free := fun he => by simp [he,hfirst] at hn
      show (ListHead.add s.links (.queue q) .free).next n = _ ∧
        (ListHead.add s.links (.queue q) .free).prev n = _
      rw [ListHead.add,ListHead.addBetween_next,ListHead.addBetween_prev,if_neg hq,if_neg hq,
        if_neg hfree,if_neg hnext]
      exact ⟨rfl,rfl⟩
    · rwa [State.gone,hp]
  | clear q n | unlock q n =>
    rw [hp] at hst
    cases hst
    exact h.joinTo hp (.of_links rfl rfl (update_count rfl) rfl rfl rfl rfl) rfl rfl (.inl rfl)
  | freeTest =>
    rw [hp] at hst
    simp only [Workqueue.joinGo] at hst
    split at hst <;> cases hst <;>
      exact h.joinTo hp (.of_links rfl rfl (fun _ => rfl) rfl rfl rfl rfl) rfl rfl (.inl rfl)
  | free q n =>
    rw [hp] at hst
    cases hst
    refine h.joined (.of_links rfl rfl (fun _ => rfl) rfl rfl rfl rfl) rfl rfl fun r hr => ?_
    exact hr.imp id fun hr => List.mem_append_right _ (List.mem_of_mem_tail hr)
  | destroy =>
    rw [hp] at hst
    obtain ⟨_,⟨_,rfl⟩ | ⟨p,_,rfl⟩⟩ := destroy_spec hst <;>
      exact h.joinTo hp (.of_links rfl rfl (fun _ => rfl) rfl rfl rfl rfl) rfl rfl (.inl rfl)

theorem WorkInv.init {ι W : Type} : WorkInv (init ι W) (fun _ => []) [] (fun _ => none) where
  list _ _ hq := by cases hq
  own _ _ _ hq := by cases hq
  home _ _ hw := by cases hw
  added _ := rfl
  unused _ _ := ⟨rfl,rfl⟩
  listed q hq := by simp [State.gone,Workqueue.init,JoinPc.leaving] at hq
  made _ _ hq := by cases hq

/-- The lists after a step. -/
def Act.works (s : State ι W) (ws : ℕ → Option (List W)) : Act ι W → ℕ → Option (List W)
  | .go a _ _ => (s.pc a).works ws
  | .work q => (s.worker q).works ws q
  | _ => ws

theorem WorkInv.step {act : Act ι W} (h : WorkInv s qs fs ws) (hi : PoolInv s qs fs)
    (hok : Unlinked s act) (hst : Workqueue.step s act = some s') :
    WorkInv s' (act.pools s qs) (act.frees s fs) (act.works s ws) := by
  cases act with
  | call a c =>
    obtain ⟨hm,rfl⟩ := guarded_eq_some.mp hst
    exact h.still hi (mayCall_pc hm).2 (.of_links rfl rfl (fun _ => rfl) rfl rfl rfl rfl) rfl rfl
      rfl (by rintro _ _ ⟨⟩) (by rintro _ ⟨⟩)
  | go a mem here => exact h.go hi hok hst
  | work q => exact h.workerGo hst
  | exit =>
    obtain ⟨hp,rfl⟩ := guarded_eq_some.mp hst
    exact h.joinTo hp (.of_links rfl rfl (fun _ => rfl) rfl rfl rfl rfl) rfl rfl (.inl rfl)
  | join => exact h.joinGo hi hst

end Steps

end Workqueue
end Mthpc
