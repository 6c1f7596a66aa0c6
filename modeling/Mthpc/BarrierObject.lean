import Mthpc.ThreadGroup

/-!
# The shared barrier object

`mthpc_group_put_barrier_object` once for each group of a cluster. The function negates
`group->nr` in `unsigned int` before it is widened to the `long` counter, but subtracts it as
such from the value that it tests: the tested value is right at the first put, and what stays
in the counter is 2^32 too large.
-/
namespace Mthpc
namespace ThreadGroup


variable {ρ υ κ ω : Type} [DecidableEq ρ] [DecidableEq υ] [DecidableEq κ] [DecidableEq ω]

def putFrom (cfg : Config ρ ω) (g : Group) : ℕ → State ρ υ κ ω → PutPc → Option (State ρ υ κ ω)
  | 0, _, _ => none
  | fuel+1, s, p => (put cfg s g p).bind fun r => match r.2 with
    | none => some r.1
    | some q => putFrom cfg g fuel r.1 q

/-- `mthpc_group_put_barrier_object(g)`. -/
def putGroup (cfg : Config ρ ω) (s : State ρ υ κ ω) (g : Group) : Option (State ρ υ κ ω) :=
  putFrom cfg g 4 s .test

/-- `nr_thread < 0`. -/
def warns (cfg : Config ρ ω) (s : State ρ υ κ ω) (g : Group) : Bool :=
  match s.barrierObject g with
  | some o => (s.refcount o-(cfg.nr g).setWidth 64).slt 0
  | none => false

/-- The number of threads of some groups. -/
def threads (cfg : Config ρ ω) (gs : List Group) : ℕ := (gs.map fun g => (cfg.nr g).toNat).sum

/-- The groups are put in order: no put warns, the last one frees the object and no other does,
and until then the counter is the number of threads of the groups not yet put. -/
def FreedByLast (cfg : Config ρ ω) (r : ρ) : State ρ υ κ ω → List Group → Prop
  | _, [] => True
  | s, g::gs => warns cfg s g = false ∧ ∃ t, putGroup cfg s g = some t ∧
      t.freed r = s.freed r+(if gs = [] then 1 else 0) ∧
      (gs ≠ [] → (t.refcount r).toInt = threads cfg gs) ∧ FreedByLast cfg r t gs

section Put

variable {cfg : Config ρ ω} {s : State ρ υ κ ω} {r : ρ} {g : Group} {gs : List Group}

theorem putFrom_add {ρ υ κ ω : Type} [DecidableEq ρ] {cfg : Config ρ ω} {s : State ρ υ κ ω} {r : ρ}
    {g : Group} {z : Bool} (hg : s.barrierObject g = some r)
    (hz : s.refcount r-(cfg.nr g).setWidth 64 = 0 ↔ z = true) :
    putFrom cfg g 3 s .add = some { s with
      refcount := Function.update s.refcount r (s.refcount r+(-cfg.nr g).setWidth 64)
      freed := if z then Function.update s.freed r (s.freed r+1) else s.freed
      barrierObject := Function.update s.barrierObject g none } := by
  have hput : put cfg s g .add = some ({ s with
      refcount := Function.update s.refcount r (s.refcount r+(-cfg.nr g).setWidth 64) },
      if z then some .free else some .null) := by
    simp only [put,hg,Option.map_some,hz]
  rw [putFrom,hput]
  cases z with
  | false => simp [putFrom,put]
  | true => simp [putFrom,put,hg]

theorem putGroup_eq {ρ υ κ ω : Type} [DecidableEq ρ] {cfg : Config ρ ω} {s : State ρ υ κ ω} {r : ρ}
    {g : Group} (hg : s.barrierObject g = some r) : putGroup cfg s g = some { s with
    refcount := Function.update s.refcount r (s.refcount r+(-cfg.nr g).setWidth 64)
    freed := if s.refcount r-(cfg.nr g).setWidth 64 = 0 then
        Function.update s.freed r (s.freed r+1)
      else s.freed
    barrierObject := Function.update s.barrierObject g none } := by
  have htest : put cfg s g .test = some (s,some .add) := by simp [put,hg]
  rw [putGroup,putFrom,htest]
  simpa using putFrom_add hg (z:=decide (s.refcount r-(cfg.nr g).setWidth 64 = 0)) (by simp)

theorem widen_neg_add {n : BitVec 32} (hn : n ≠ 0) :
    (-n).setWidth 64+n.setWidth 64 = BitVec.ofNat 64 (2^32) := by
  have hlt := n.isLt
  have hpos : n.toNat ≠ 0 := fun h => hn (BitVec.eq_of_toNat_eq h)
  apply BitVec.eq_of_toNat_eq
  simp only [BitVec.toNat_add,BitVec.toNat_setWidth,BitVec.toNat_neg,BitVec.toNat_ofNat]
  omega

theorem refcount_eq {w : BitVec 64} {n : ℕ} (h : w.toInt = n) : w = BitVec.ofNat 64 n := by
  rw [← BitVec.ofInt_toInt (x:=w),h]
  exact BitVec.ofInt_natCast ..

theorem ofNat_toNat_eq (n : BitVec 32) : BitVec.ofNat 64 n.toNat = n.setWidth 64 := by
  apply BitVec.eq_of_toNat_eq
  rw [BitVec.toNat_ofNat,BitVec.toNat_setWidth]

theorem freedByLast_one {ρ υ κ ω : Type} [DecidableEq ρ] {cfg : Config ρ ω} {s : State ρ υ κ ω}
    {r : ρ} {g : Group} (hg : s.barrierObject g = some r)
    (hcount : (s.refcount r).toInt = threads cfg [g]) : FreedByLast cfg r s [g] := by
  have hr : s.refcount r = (cfg.nr g).setWidth 64 := by
    rw [refcount_eq hcount,← ofNat_toNat_eq]
    simp only [threads,List.map_cons,List.map_nil,List.sum_cons,List.sum_nil,Nat.add_zero]
  refine ⟨?_,_,putGroup_eq hg,?_,fun h => absurd rfl h,trivial⟩
  · simp [warns,hg,hr]
  · simp [hr]

theorem not_freedByLast {ρ υ κ ω : Type} [DecidableEq ρ] {cfg : Config ρ ω} {s : State ρ υ κ ω}
    {r : ρ} {g : Group} {gs : List Group} {g' : Group} (hn : cfg.nr g ≠ 0)
    (hg : s.barrierObject g = some r) (hcount : (s.refcount r).toInt = threads cfg (g::g'::gs)) :
    ¬ FreedByLast cfg r s (g::g'::gs) := by
  rintro ⟨_,t,ht,_,hleft,_⟩
  have hleft := refcount_eq (hleft (by simp))
  rw [putGroup_eq hg] at ht
  cases ht
  simp only [Function.update_self] at hleft
  have hsum : s.refcount r = (cfg.nr g).setWidth 64+BitVec.ofNat 64 (threads cfg (g'::gs)) := by
    rw [refcount_eq hcount,threads,List.map_cons,List.sum_cons,BitVec.ofNat_add,ofNat_toNat_eq]
    rfl
  have hover : BitVec.ofNat 64 (2^32) = 0 := by
    rw [← widen_neg_add hn]
    rw [hsum] at hleft
    grind
  exact absurd hover (by decide)

end Put

/-- A cluster of one group meets the law, and no other does. -/
theorem freedByLast_iff {ρ υ κ ω : Type} [DecidableEq ρ] (cfg : Config ρ ω) (s : State ρ υ κ ω)
    (r : ρ) (gs : List Group) (hne : gs ≠ []) (hpos : ∀ g ∈ gs, cfg.nr g ≠ 0) (hn : gs.Nodup)
    (hobj : ∀ g ∈ gs, s.barrierObject g = some r)
    (hcount : (s.refcount r).toInt = threads cfg gs) : FreedByLast cfg r s gs ↔ gs.length = 1 := by
  match gs with
  | [] => exact absurd rfl hne
  | [g] => exact ⟨fun _ => rfl,fun _ => freedByLast_one (hobj g (by simp)) hcount⟩
  | g::g'::gs =>
    refine ⟨fun h => absurd h ?_,fun h => by simp at h⟩
    exact not_freedByLast (hpos g (by simp)) (hobj g (by simp)) hcount

/-- The groups `gs`, of one thread each, share the object of one call. -/
def sharing (gs : List Group) : State Unit Empty Unit Unit := { init Unit Empty Unit Unit with
  barrierObject := fun _ => some ()
  refcount := fun _ => BitVec.ofNat 64 gs.length }

def unitConfig (gs : List Group) : Config Unit Unit where
  groups := fun _ => gs
  isAsync := fun _ => true
  waits := fun _ => []
  nr := fun _ => 1
  init := fun _ => false
  func := fun _ => false

def left : Group := ⟨10,by decide⟩

def right : Group := ⟨11,by decide⟩

/-- Two groups of one thread: 2 becomes 2^32+1 and then 2^33, and nobody frees the object. -/
theorem freedByLast_fails : ¬ ∀ (gs : List Group), gs ≠ [] → gs.Nodup →
    ((sharing gs).refcount ()).toInt = threads (unitConfig gs) gs →
    FreedByLast (unitConfig gs) () (sharing gs) gs := by
  intro h
  obtain ⟨_,t,ht,_,hleft,_⟩ := h [left,right] (by decide) (by decide) (by decide)
  have hfirst : (putGroup (unitConfig [left,right]) (sharing [left,right]) left).map
      (fun t => t.refcount ()) = some (BitVec.ofNat 64 (2^32+1)) := by decide
  rw [ht] at hfirst
  simp only [Option.map_some,Option.some.injEq] at hfirst
  have hone := hleft (by decide)
  rw [hfirst] at hone
  exact absurd hone (by decide)

theorem freedByLast_alone : FreedByLast (unitConfig [left]) () (sharing [left]) [left] :=
  (freedByLast_iff (unitConfig [left]) (sharing [left]) () [left] (by decide)
    (fun _ _ => by simp [unitConfig]) (by decide) (fun _ _ => rfl) (by decide)).mpr rfl

end ThreadGroup
end Mthpc
