import Mthpc.PointerList
import Mthpc.StepSystem

/-!
# The global list of rcu_data

`mthpc_rcu_data_init`, `mthpc_rcu_data_exit` and `mthpc_synchronize_rcu_all` of
`src/rcu/rcu.c` on `mthpc_rcu_meta`. The exit destroys `data->lock` while the data is still on
the list and takes it off under `mthpc_rcu_meta.lock` afterwards, so between the two a walk of
the list comes to a destroyed lock.
-/
namespace Mthpc
namespace RcuMeta

open StepSystem

/-- The call on an rcu_data. The lock is initialised when `lockIn` is reached; the storage of
an `absent` one may be used for a new data. -/
inductive DataPc
  | absent
  | lockIn | setNext | link | unlockIn
  | ready
  | lock | clear | unlock | destroy
  | lockOut | unlink | unlockOut | free
  deriving DecidableEq

/-- `mthpc_synchronize_rcu_all`, with `mthpc_synchronize_rcu_internal(d)` inside. -/
inductive WalkPc (δ : Type)
  | idle | lock | head
  | lockData (d : δ) | sync (d : δ) | unlockData (d : δ)
  | next (d : δ)
  | unlock
  deriving DecidableEq

/-- Who holds a lock: the call on a data, or a walker. -/
inductive Party (δ κ : Type)
  | data (d : δ) | walker (k : κ)
  deriving DecidableEq

/-- `cells` are `mthpc_rcu_meta.head` and the `next` of all data; `alive` is whether the lock is
initialised and not destroyed, `stored` whether the storage has not been freed. -/
structure State (δ κ : Type) where
  cells : Cells δ
  metaLock : Option (Party δ κ)
  lock : δ → Option (Party δ κ)
  alive : δ → Bool
  stored : δ → Bool
  data : δ → DataPc
  walk : κ → WalkPc δ

inductive Act (δ κ : Type)
  | dataInit (d : δ) | dataExit (d : δ) | data (d : δ) (fuel : ℕ)
  | syncAll (k : κ) | walk (k : κ)

section Step

variable {δ κ : Type} [DecidableEq δ] [DecidableEq κ]

def State.goto (s : State δ κ) (d : δ) (p : DataPc) : State δ κ :=
  { s with data := Function.update s.data d p }

def State.walkTo (s : State δ κ) (k : κ) (p : WalkPc δ) : State δ κ :=
  { s with walk := Function.update s.walk k p }

def State.setLock (s : State δ κ) (d : δ) (h : Option (Party δ κ)) : State δ κ :=
  { s with lock := Function.update s.lock d h }

variable (isStatic : δ → Bool) (s : State δ κ)

/-- The next step of the call on `d`. -/
def dataGo (d : δ) (fuel : ℕ) : DataPc → Option (State δ κ)
  | .absent | .ready => none
  | .lockIn =>
    guarded (s.metaLock = none) ({ s with metaLock := some (.data d) }.goto d .setNext)
  | .setNext => some ({ s with cells := s.cells.write (.next d) s.cells.head }.goto d .link)
  | .link => some ({ s with cells := s.cells.write .head (some d) }.goto d .unlockIn)
  | .unlockIn => some ({ s with metaLock := none }.goto d .ready)
  | .lock => guarded (s.lock d = none) ((s.setLock d (some (.data d))).goto d .clear)
  -- the nodes are freed
  | .clear => some (s.goto d .unlock)
  | .unlock => some ((s.setLock d none).goto d .destroy)
  | .destroy => some ({ s with alive := Function.update s.alive d false }.goto d .lockOut)
  | .lockOut =>
    guarded (s.metaLock = none) ({ s with metaLock := some (.data d) }.goto d .unlink)
  | .unlink =>
    (s.cells.find (fun n => s.stored n) (fun n => decide (n = d)) fuel .head).map fun loc =>
      { s with
        cells := match s.cells.read loc with
          | some n => s.cells.write loc (s.cells.next n)
          | none => s.cells }.goto d .unlockOut
  | .unlockOut =>
    some ({ s with metaLock := none }.goto d (if isStatic d then .absent else .free))
  | .free => some ({ s with stored := Function.update s.stored d false }.goto d .absent)

def walkGo (k : κ) : WalkPc δ → Option (State δ κ)
  | .idle => none
  | .lock => guarded (s.metaLock = none) ({ s with metaLock := some (.walker k) }.walkTo k .head)
  | .head => some (s.walkTo k (s.cells.head.elim .unlock .lockData))
  | .lockData d => guarded (s.lock d = none) ((s.setLock d (some (.walker k))).walkTo k (.sync d))
  | .sync d => some (s.walkTo k (.unlockData d))
  | .unlockData d => some ((s.setLock d none).walkTo k (.next d))
  | .next d => some (s.walkTo k ((s.cells.next d).elim .unlock .lockData))
  | .unlock => some ({ s with metaLock := none }.walkTo k .idle)

def step : Act δ κ → Option (State δ κ)
  | .dataInit d =>
    guarded (s.data d = .absent) ({ s with
      lock := Function.update s.lock d none
      alive := Function.update s.alive d true
      stored := Function.update s.stored d true }.goto d .lockIn)
  | .dataExit d => guarded (s.data d = .ready) (s.goto d .lock)
  | .data d fuel => dataGo isStatic s d fuel (s.data d)
  | .syncAll k => guarded (s.walk k = .idle) (s.walkTo k .lock)
  | .walk k => walkGo s k (s.walk k)

end Step

/-- `mthpc_rcu_init` before its first `mthpc_rcu_data_init`. -/
def init (δ κ : Type) : State δ κ where
  cells := ⟨none,fun _ => none⟩
  metaLock := none
  lock _ := none
  alive _ := false
  stored _ := false
  data _ := .absent
  walk _ := .idle

def DataPc.linked : DataPc → Bool
  | .unlockIn | .ready | .lock | .clear | .unlock | .destroy | .lockOut | .unlink => true
  | _ => false

def DataPc.dying : DataPc → Bool
  | .lockOut | .unlink => true
  | _ => false

def DataPc.alive : DataPc → Bool
  | .lockIn | .setNext | .link | .unlockIn | .ready | .lock | .clear | .unlock | .destroy => true
  | _ => false

def DataPc.holdsMeta : DataPc → Bool
  | .setNext | .link | .unlockIn | .unlink | .unlockOut => true
  | _ => false

def WalkPc.place {δ : Type} : WalkPc δ → Option δ
  | .lockData d | .sync d | .unlockData d | .next d => some d
  | _ => none

def WalkPc.holdsMeta {δ : Type} : WalkPc δ → Bool
  | .idle | .lock => false
  | _ => true

section Laws

variable {δ κ : Type} [DecidableEq δ] [DecidableEq κ]

/-- No walker is at a dead data, and while the list is free no data on it is dead. -/
structure AllAlive (s : State δ κ) : Prop where
  walker : ∀ k d, (s.walk k).place = some d → s.alive d = true ∧ s.stored d = true
  list : s.metaLock = none → ∀ d, s.cells.Reaches s.cells.head d →
    s.alive d = true ∧ s.stored d = true

/-- Where the rest of a walk begins. -/
def State.rest (s : State δ κ) (k : κ) : Option δ :=
  match s.walk k with
  | .head => s.cells.head
  | p => p.place

/-- The walker is at `d` or comes to it later. -/
def Ahead (s : State δ κ) (k : κ) (d : δ) : Prop := s.cells.Reaches (s.rest k) d

/-- A data dies only when no walk has it ahead, and no walk begins while one is dying. -/
def NoOverlap (s : State δ κ) : Act δ κ → Prop
  | .data d _ => s.data d = .destroy → ∀ k, ¬ Ahead s k d
  | .walk k => s.walk k = .lock → s.metaLock = none → ∀ d, (s.data d).dying = false
  | _ => True

/-- A data dies only while the list is locked, and not by a walk that has it ahead, and nobody
gives the list free while one is dying. -/
def Hidden (s : State δ κ) : Act δ κ → Prop
  | .data d _ => (s.data d = .destroy → s.metaLock ≠ none ∧ ∀ k, ¬ Ahead s k d) ∧
    (s.data d = .unlockIn ∨ s.data d = .unlockOut → ∀ e, (s.data e).dying = false)
  | .walk k => s.walk k = .unlock → ∀ e, (s.data e).dying = false
  | _ => True

def State.holds (s : State δ κ) : Party δ κ → Bool
  | .data d => (s.data d).holdsMeta
  | .walker k => (s.walk k).holdsMeta

/-- The list, its lock and its data in every interleaving. -/
structure MetaInv (s : State δ κ) : Prop where
  path : ∃ ds, s.cells.Path s.cells.head ds ∧ ds.Nodup ∧ ∀ d, d ∈ ds ↔ (s.data d).linked = true
  holder : ∀ p, s.metaLock = some p ↔ s.holds p = true
  alive : ∀ d, s.alive d = (s.data d).alive
  stored : ∀ d, s.data d ≠ .absent → s.stored d = true
  next : ∀ d, s.data d = .link → s.cells.next d = s.cells.head

def WalkInv (s : State δ κ) : Prop :=
  ∀ k d, Ahead s k d → (s.data d).linked = true ∧ (s.data d).alive = true

variable {isStatic : δ → Bool} {s t : State δ κ} {d : δ} {k : κ} {a : Act δ κ}

theorem MetaInv.linked {δ κ : Type} {s : State δ κ} {d : δ} (h : MetaInv s)
    (hd : s.cells.Reaches s.cells.head d) : (s.data d).linked = true := by
  obtain ⟨ds,hp,_,hm⟩ := h.path
  exact (hm d).mp (hp.reaches hd)

theorem DataPc.alive_of_linked {p : DataPc} (h : p.linked = true) (hd : p.dying = false) :
    p.alive = true := by
  cases p <;> simp_all [DataPc.linked,DataPc.dying,DataPc.alive]

theorem MetaInv.touchable {δ κ : Type} {s : State δ κ} {d : δ} (h : MetaInv s)
    (ha : (s.data d).alive = true) : s.alive d = true ∧ s.stored d = true := by
  refine ⟨(h.alive d).trans ha,h.stored d fun he => ?_⟩
  rw [he] at ha
  cases ha

theorem MetaInv.moved {p : Party δ κ} (h : MetaInv s) (hother : ∀ q, q ≠ p → t.holds q = s.holds q)
    (hmove : t.metaLock = s.metaLock ∧ t.holds p = s.holds p ∨
      s.metaLock = none ∧ t.metaLock = some p ∧ t.holds p = true ∨
      s.holds p = true ∧ t.metaLock = none ∧ t.holds p = false) (q : Party δ κ) :
    t.metaLock = some q ↔ t.holds q = true := by
  have hown := h.holder p
  by_cases hne : q = p
  · subst hne
    rcases hmove with ⟨hl,hh⟩ | ⟨_,hl,hh⟩ | ⟨_,hl,hh⟩
    · rw [hl,hh]
      exact hown
    · simp [hl,hh]
    · simp [hl,hh]
  · rw [hother q hne,← h.holder q]
    rcases hmove with ⟨hl,_⟩ | ⟨hs,hl,_⟩ | ⟨hs,hl,_⟩
    · rw [hl]
    · simp [hl,hs,Ne.symm hne]
    · simp [hl,hown.mpr hs,Ne.symm hne]

theorem MetaInv.goto {p : DataPc} (h : MetaInv s) (hdata : t.data = Function.update s.data d p)
    (hwalk : t.walk = s.walk)
    (hpath : ∃ ds, t.cells.Path t.cells.head ds ∧ ds.Nodup ∧
      ∀ e, e ∈ ds ↔ (t.data e).linked = true)
    (hnext : ∀ e, t.data e = .link → t.cells.next e = t.cells.head)
    (hholder : t.metaLock = s.metaLock ∧ p.holdsMeta = (s.data d).holdsMeta ∨
      s.metaLock = none ∧ t.metaLock = some (.data d) ∧ p.holdsMeta = true ∨
      (s.data d).holdsMeta = true ∧ t.metaLock = none ∧ p.holdsMeta = false)
    (halive : ∀ e, t.alive e = if e = d then p.alive else s.alive e)
    (hstored : ∀ e, e ≠ d → t.stored e = s.stored e) (hd : p ≠ .absent → t.stored d = true) :
    MetaInv t where
  path := hpath
  holder := by
    have hself : t.holds (.data d) = p.holdsMeta := by
      rw [State.holds,hdata,Function.update_self]
    refine h.moved (fun q hne => ?_) (by rw [hself]; exact hholder)
    cases q with
    | data e =>
      have he : e ≠ d := fun he => hne (by rw [he])
      rw [State.holds,State.holds,hdata,Function.update_of_ne he]
    | walker k => rw [State.holds,State.holds,hwalk]
  alive e := by
    rw [halive,hdata]
    by_cases he : e = d
    · rw [if_pos he,he,Function.update_self]
    · rw [if_neg he,Function.update_of_ne he]
      exact h.alive e
  stored e he := by
    rw [hdata] at he
    by_cases hed : e = d
    · rw [hed,Function.update_self] at he
      rw [hed]
      exact hd he
    · rw [Function.update_of_ne hed] at he
      rw [hstored e hed]
      exact h.stored e he
  next := hnext

theorem MetaInv.stay {p : DataPc} (h : MetaInv s) (hdata : t.data = Function.update s.data d p)
    (hwalk : t.walk = s.walk) (hcells : t.cells = s.cells)
    (hlinked : p.linked = (s.data d).linked) (hp : p ≠ .link)
    (hholder : t.metaLock = s.metaLock ∧ p.holdsMeta = (s.data d).holdsMeta ∨
      s.metaLock = none ∧ t.metaLock = some (.data d) ∧ p.holdsMeta = true ∨
      (s.data d).holdsMeta = true ∧ t.metaLock = none ∧ p.holdsMeta = false)
    (halive : ∀ e, t.alive e = if e = d then p.alive else s.alive e)
    (hstored : ∀ e, e ≠ d → t.stored e = s.stored e) (hd : p ≠ .absent → t.stored d = true) :
    MetaInv t := by
  refine h.goto hdata hwalk ?_ (fun e he => ?_) hholder halive hstored hd
  · obtain ⟨ds,hpath,hnd,hm⟩ := h.path
    refine ⟨ds,by rw [hcells]; exact hpath,hnd,fun e => (hm e).trans ?_⟩
    rw [hdata]
    by_cases he : e = d
    · rw [he,Function.update_self,hlinked]
    · rw [Function.update_of_ne he]
  · rw [hdata] at he
    rw [hcells]
    by_cases hed : e = d
    · rw [hed,Function.update_self] at he
      exact absurd he hp
    · rw [Function.update_of_ne hed] at he
      exact h.next e he

theorem MetaInv.alive_same {δ κ : Type} [DecidableEq δ] {s : State δ κ} {d : δ} {p : DataPc}
    (h : MetaInv s) (hp : p.alive = (s.data d).alive) (e : δ) :
    s.alive e = if e = d then p.alive else s.alive e := by
  by_cases he : e = d
  · rw [if_pos he,hp,he]
    exact h.alive d
  · rw [if_neg he]

theorem MetaInv.alone {δ κ : Type} {s : State δ κ} {d : δ} {e : δ} (h : MetaInv s)
    (he : (s.data e).holdsMeta = true) (hd : (s.data d).holdsMeta = true) : e = d := by
  have h1 := (h.holder (.data d)).mpr hd
  have h2 := (h.holder (.data e)).mpr he
  rw [h1] at h2
  exact (Party.data.inj (Option.some.inj h2)).symm

theorem MetaInv.setNext (h : MetaInv s) (hd : s.data d = .setNext) :
    MetaInv ({ s with cells := s.cells.write (.next d) s.cells.head }.goto d .link) := by
  have hst := h.stored d (by rw [hd]; rintro ⟨⟩)
  refine h.goto rfl rfl ?_ (fun e he => ?_) (.inl ⟨rfl,by rw [hd]; rfl⟩)
    (h.alive_same (by rw [hd]; rfl)) (fun _ _ => rfl) fun _ => hst
  · obtain ⟨ds,hpath,hnd,hm⟩ := h.path
    have hnot : d ∉ ds := fun hm' => by
      have hl := (hm d).mp hm'
      rw [hd] at hl
      cases hl
    refine ⟨ds,hpath.congr fun e he => ?_,hnd,fun e => (hm e).trans ?_⟩
    · have hne : (.next d : Loc δ) ≠ .next e := by
        rintro hde
        cases hde
        exact hnot he
      exact Cells.next_write_of_ne _ hne
    · by_cases hed : e = d
      · rw [hed,hd]
        simp [State.goto,DataPc.linked]
      · simp [State.goto,hed]
  · by_cases hed : e = d
    · rw [hed]
      exact Function.update_self ..
    · have hother : s.data e = .link := by simpa [State.goto,hed] using he
      exact absurd (h.alone (by rw [hother]; rfl) (by rw [hd]; rfl)) hed

theorem MetaInv.link (h : MetaInv s) (hd : s.data d = .link) :
    MetaInv ({ s with cells := s.cells.write .head (some d) }.goto d .unlockIn) := by
  have hst := h.stored d (by rw [hd]; rintro ⟨⟩)
  refine h.goto rfl rfl ?_ (fun e he => ?_) (.inl ⟨rfl,by rw [hd]; rfl⟩)
    (h.alive_same (by rw [hd]; rfl)) (fun _ _ => rfl) fun _ => hst
  · obtain ⟨ds,hpath,hnd,hm⟩ := h.path
    have hnot : d ∉ ds := fun hm' => by
      have hl := (hm d).mp hm'
      rw [hd] at hl
      cases hl
    refine ⟨d::ds,⟨rfl,?_⟩,List.nodup_cons.mpr ⟨hnot,hnd⟩,fun e => ?_⟩
    · have hn : s.cells.Path (s.cells.next d) ds := by
        rw [h.next d hd]
        exact hpath
      exact hn.congr fun _ _ => rfl
    · rw [List.mem_cons,hm e]
      by_cases hed : e = d
      · rw [hed]
        simp [State.goto,DataPc.linked]
      · simp [State.goto,hed]
  · have hne : e ≠ d := by
      rintro rfl
      simp [State.goto] at he
    have hother : s.data e = .link := by simpa [State.goto,hne] using he
    exact absurd (h.alone (by rw [hother]; rfl) (by rw [hd]; rfl)) hne

theorem MetaInv.unlink {fuel : ℕ} (h : MetaInv s) (hd : s.data d = .unlink)
    (hst : dataGo isStatic s d fuel .unlink = some t) : MetaInv t := by
  obtain ⟨loc,hf,rfl⟩ := Option.map_eq_some_iff.mp hst
  have hstored := h.stored d (by rw [hd]; rintro ⟨⟩)
  obtain ⟨ds,hpath,hnd,hm⟩ := h.path
  have hmem : d ∈ ds := (hm d).mpr (by rw [hd]; rfl)
  obtain ⟨ys,zs,rfl,rfl,hys,hzs⟩ := Cells.find_eq (l:=.head) hpath hf
  have hdy : d ∉ ys := fun hy => by simpa using hys d hy
  obtain ⟨zs,rfl⟩ : ∃ rest, zs = d::rest := by
    cases zs with
    | nil => simp [hdy] at hmem
    | cons z zs =>
      have hz : z = d := by simpa using hzs z (by simp)
      exact ⟨zs,by rw [hz]⟩
  have hread : s.cells.read (Cells.locAfter .head ys) = some d :=
    (Cells.Path.split (l:=.head) hpath).1
  refine h.goto rfl rfl ?_ (fun e he => ?_) (.inl ⟨rfl,by rw [hd]; rfl⟩)
    (h.alive_same (by rw [hd]; rfl)) (fun _ _ => rfl) fun _ => hstored
  · refine ⟨ys ++ zs,?_,?_,fun e => ?_⟩
    · simp only [State.goto,hread]
      exact hpath.unlink hnd
    · exact hnd.sublist ((List.sublist_cons_self d zs).append_left ys)
    · have hme := hm e
      by_cases hed : e = d
      · subst hed
        have hz : e ∉ zs := (List.nodup_cons.mp (List.nodup_append.mp hnd).2.1).1
        simp [State.goto,DataPc.linked,hdy,hz]
      · simp only [List.mem_append,List.mem_cons,hed,false_or] at hme
        simp [State.goto,hed,hme]
  · have hne : e ≠ d := by
      rintro rfl
      simp [State.goto] at he
    have hother : s.data e = .link := by simpa [State.goto,hne] using he
    exact absurd (h.alone (by rw [hother]; rfl) (by rw [hd]; rfl)) hne

theorem MetaInv.dataGo {fuel : ℕ} (h : MetaInv s)
    (hst : RcuMeta.dataGo isStatic s d fuel (s.data d) = some t) : MetaInv t := by
  have hstored : s.data d ≠ .absent → s.stored d = true := h.stored d
  cases hd : s.data d with
  | absent | ready =>
    rw [hd] at hst
    cases hst
  | setNext =>
    rw [hd] at hst
    cases hst
    exact h.setNext hd
  | link =>
    rw [hd] at hst
    cases hst
    exact h.link hd
  | unlink =>
    rw [hd] at hst
    exact h.unlink hd hst
  | lockIn | lockOut =>
    rw [hd] at hst
    obtain ⟨hl,rfl⟩ := guarded_eq_some.mp hst
    exact h.stay (d:=d) rfl rfl rfl (by rw [hd]; rfl) (by rintro ⟨⟩) (.inr (.inl ⟨hl,rfl,rfl⟩))
      (h.alive_same (by rw [hd]; rfl)) (fun _ _ => rfl)
      fun _ => hstored (by rw [hd]; rintro ⟨⟩)
  | unlockIn =>
    rw [hd] at hst
    cases hst
    exact h.stay (d:=d) rfl rfl rfl (by rw [hd]; rfl) (by rintro ⟨⟩)
      (.inr (.inr ⟨by rw [hd]; rfl,rfl,rfl⟩)) (h.alive_same (by rw [hd]; rfl)) (fun _ _ => rfl)
      fun _ => hstored (by rw [hd]; rintro ⟨⟩)
  | lock =>
    rw [hd] at hst
    obtain ⟨_,rfl⟩ := guarded_eq_some.mp hst
    exact h.stay (d:=d) rfl rfl rfl (by rw [hd]; rfl) (by rintro ⟨⟩)
      (.inl ⟨rfl,by rw [hd]; rfl⟩) (h.alive_same (by rw [hd]; rfl)) (fun _ _ => rfl)
      fun _ => hstored (by rw [hd]; rintro ⟨⟩)
  | clear | unlock =>
    rw [hd] at hst
    cases hst
    exact h.stay (d:=d) rfl rfl rfl (by rw [hd]; rfl) (by rintro ⟨⟩)
      (.inl ⟨rfl,by rw [hd]; rfl⟩) (h.alive_same (by rw [hd]; rfl)) (fun _ _ => rfl)
      fun _ => hstored (by rw [hd]; rintro ⟨⟩)
  | destroy =>
    rw [hd] at hst
    cases hst
    exact h.stay (d:=d) rfl rfl rfl (by rw [hd]; rfl) (by rintro ⟨⟩)
      (.inl ⟨rfl,by rw [hd]; rfl⟩) (fun e => Function.update_apply ..) (fun _ _ => rfl)
      fun _ => hstored (by rw [hd]; rintro ⟨⟩)
  | unlockOut =>
    rw [hd] at hst
    cases hst
    cases isStatic d with
    | true =>
      exact h.stay (d:=d) rfl rfl rfl (by rw [hd]; rfl) (by rintro ⟨⟩)
        (.inr (.inr ⟨by rw [hd]; rfl,rfl,rfl⟩)) (h.alive_same (by rw [hd]; rfl))
        (fun _ _ => rfl) fun hn => absurd rfl hn
    | false =>
      exact h.stay (d:=d) rfl rfl rfl (by rw [hd]; rfl) (by rintro ⟨⟩)
        (.inr (.inr ⟨by rw [hd]; rfl,rfl,rfl⟩)) (h.alive_same (by rw [hd]; rfl))
        (fun _ _ => rfl) fun _ => hstored (by rw [hd]; rintro ⟨⟩)
  | free =>
    rw [hd] at hst
    cases hst
    exact h.stay (d:=d) rfl rfl rfl (by rw [hd]; rfl) (by rintro ⟨⟩)
      (.inl ⟨rfl,by rw [hd]; rfl⟩) (h.alive_same (by rw [hd]; rfl))
      (fun _ he => Function.update_of_ne he _ _) fun hn => absurd rfl hn

theorem MetaInv.walked {p : WalkPc δ} (h : MetaInv s)
    (hwalk : t.walk = Function.update s.walk k p) (hdata : t.data = s.data)
    (hcells : t.cells = s.cells) (halive : t.alive = s.alive) (hstored : t.stored = s.stored)
    (hholder : t.metaLock = s.metaLock ∧ p.holdsMeta = (s.walk k).holdsMeta ∨
      s.metaLock = none ∧ t.metaLock = some (.walker k) ∧ p.holdsMeta = true ∨
      (s.walk k).holdsMeta = true ∧ t.metaLock = none ∧ p.holdsMeta = false) : MetaInv t where
  path := by rw [hcells,hdata]; exact h.path
  holder := by
    have hself : t.holds (.walker k) = p.holdsMeta := by
      rw [State.holds,hwalk,Function.update_self]
    refine h.moved (fun q hne => ?_) (by rw [hself]; exact hholder)
    cases q with
    | data e => rw [State.holds,State.holds,hdata]
    | walker j =>
      have hj : j ≠ k := fun he => hne (by rw [he])
      rw [State.holds,State.holds,hwalk,Function.update_of_ne hj]
  alive := by rw [halive,hdata]; exact h.alive
  stored := by rw [hstored,hdata]; exact h.stored
  next := by rw [hcells,hdata]; exact h.next

theorem holdsMeta_elim {δ : Type} {o : Option δ} :
    (o.elim .unlock .lockData : WalkPc δ).holdsMeta = true := by cases o <;> rfl

theorem MetaInv.walkGo (h : MetaInv s) (hst : RcuMeta.walkGo s k (s.walk k) = some t) :
    MetaInv t := by
  cases hp : s.walk k with
  | idle =>
    rw [hp] at hst
    cases hst
  | lock =>
    rw [hp] at hst
    obtain ⟨hl,rfl⟩ := guarded_eq_some.mp hst
    exact h.walked (k:=k) rfl rfl rfl rfl rfl (.inr (.inl ⟨hl,rfl,rfl⟩))
  | head | next d =>
    rw [hp] at hst
    cases hst
    exact h.walked (k:=k) rfl rfl rfl rfl rfl (.inl ⟨rfl,by rw [hp,holdsMeta_elim]; rfl⟩)
  | lockData d =>
    rw [hp] at hst
    obtain ⟨_,rfl⟩ := guarded_eq_some.mp hst
    exact h.walked (k:=k) rfl rfl rfl rfl rfl (.inl ⟨rfl,by rw [hp]; rfl⟩)
  | sync d | unlockData d =>
    rw [hp] at hst
    cases hst
    exact h.walked (k:=k) rfl rfl rfl rfl rfl (.inl ⟨rfl,by rw [hp]; rfl⟩)
  | unlock =>
    rw [hp] at hst
    cases hst
    exact h.walked (k:=k) rfl rfl rfl rfl rfl (.inr (.inr ⟨by rw [hp]; rfl,rfl,rfl⟩))

theorem MetaInv.step (h : MetaInv s) (hst : RcuMeta.step isStatic s a = some t) : MetaInv t := by
  cases a with
  | dataInit d =>
    obtain ⟨hd,rfl⟩ := guarded_eq_some.mp hst
    exact h.stay (d:=d) rfl rfl rfl (by rw [hd]; rfl) (by rintro ⟨⟩) (.inl ⟨rfl,by rw [hd]; rfl⟩)
      (fun e => Function.update_apply ..) (fun _ he => Function.update_of_ne he _ _)
      fun _ => Function.update_self ..
  | dataExit d =>
    obtain ⟨hd,rfl⟩ := guarded_eq_some.mp hst
    exact h.stay (d:=d) rfl rfl rfl (by rw [hd]; rfl) (by rintro ⟨⟩) (.inl ⟨rfl,by rw [hd]; rfl⟩)
      (h.alive_same (by rw [hd]; rfl)) (fun _ _ => rfl)
      fun _ => h.stored d (by rw [hd]; rintro ⟨⟩)
  | data d fuel => exact h.dataGo hst
  | syncAll k =>
    obtain ⟨hk,rfl⟩ := guarded_eq_some.mp hst
    exact h.walked (k:=k) rfl rfl rfl rfl rfl (.inl ⟨rfl,by rw [hk]; rfl⟩)
  | walk k => exact h.walkGo hst

section

omit [DecidableEq δ] [DecidableEq κ]

theorem MetaInv.init : MetaInv (init δ κ) where
  path := ⟨[],rfl,List.nodup_nil,fun d => by simp [RcuMeta.init,DataPc.linked]⟩
  holder p := by cases p <;> simp [RcuMeta.init,State.holds,DataPc.holdsMeta,WalkPc.holdsMeta]
  alive _ := rfl
  stored _ h := absurd rfl h
  next _ h := by cases h

theorem Ahead.holds (h : Ahead s k d) : (s.walk k).holdsMeta = true := by
  unfold Ahead State.rest at h
  cases hp : s.walk k with
  | idle | lock =>
    rw [hp] at h
    cases h
  | _ => rfl

theorem WalkInv.frame (h : WalkInv s) (hcells : t.cells = s.cells) (hwalk : t.walk = s.walk)
    (hdata : ∀ k d, Ahead s k d → (s.data d).linked = true → (s.data d).alive = true →
      (t.data d).linked = true ∧ (t.data d).alive = true) : WalkInv t := by
  intro k d hd
  have hs : Ahead s k d := by rwa [Ahead,State.rest,hcells,hwalk] at hd
  obtain ⟨hl,ha⟩ := h k d hs
  exact hdata k d hs hl ha

end

theorem WalkInv.locked {δ κ : Type} {s t : State δ κ} {d : δ} {p : DataPc} (hm : MetaInv s)
    (hwalk : t.walk = s.walk) (hd : s.data d = p) (hp : p.holdsMeta = true) : WalkInv t := by
  intro k e he
  have hk : (s.walk k).holdsMeta = true := by
    rw [← hwalk]
    exact he.holds
  have h1 := (hm.holder (.walker k)).mpr hk
  have h2 := (hm.holder (.data d)).mpr (by rw [State.holds,hd]; exact hp)
  rw [h1] at h2
  cases h2

theorem WalkInv.data {δ κ : Type} [DecidableEq δ] {isStatic : δ → Bool} {s t : State δ κ} {d : δ}
    {fuel : ℕ} (h : WalkInv s) (hm : MetaInv s)
    (hok : NoOverlap s (.data d fuel)) (hst : dataGo isStatic s d fuel (s.data d) = some t) :
    WalkInv t := by
  have hstay : ∀ {u : State δ κ} {p : DataPc}, u.cells = s.cells → u.walk = s.walk →
      u.data = s.data → ((s.data d).alive = true → p.linked = true ∧ p.alive = true) →
      WalkInv (u.goto d p) := by
    intro u p hcells hwalk hdata hp
    refine h.frame hcells hwalk fun k e _ hl ha => ?_
    by_cases he : e = d
    · subst he
      simp only [State.goto,Function.update_self]
      exact hp ha
    · simp only [State.goto,Function.update_of_ne he,hdata]
      exact ⟨hl,ha⟩
  cases hd : s.data d with
  | absent | ready =>
    rw [hd] at hst
    cases hst
  | setNext | link | unlockIn | unlockOut =>
    rw [hd] at hst
    cases hst
    exact WalkInv.locked hm rfl hd rfl
  | unlink =>
    rw [hd] at hst
    obtain ⟨_,_,rfl⟩ := Option.map_eq_some_iff.mp hst
    exact WalkInv.locked hm rfl hd rfl
  | lockIn =>
    rw [hd] at hst
    obtain ⟨hl,rfl⟩ := guarded_eq_some.mp hst
    refine h.frame rfl rfl fun k e he hl ha => ?_
    have hne : e ≠ d := by
      rintro rfl
      rw [hd] at hl
      cases hl
    simp only [State.goto,Function.update_of_ne hne]
    exact ⟨hl,ha⟩
  | lockOut =>
    rw [hd] at hst
    obtain ⟨_,rfl⟩ := guarded_eq_some.mp hst
    exact hstay rfl rfl rfl fun ha => by rw [hd] at ha; cases ha
  | lock =>
    rw [hd] at hst
    obtain ⟨_,rfl⟩ := guarded_eq_some.mp hst
    exact hstay rfl rfl rfl fun _ => ⟨rfl,rfl⟩
  | clear | unlock =>
    rw [hd] at hst
    cases hst
    exact hstay rfl rfl rfl fun _ => ⟨rfl,rfl⟩
  | destroy =>
    rw [hd] at hst
    cases hst
    refine h.frame rfl rfl fun k e he hl ha => ?_
    have hne : e ≠ d := by
      rintro rfl
      exact hok hd k he
    simp only [State.goto,Function.update_of_ne hne]
    exact ⟨hl,ha⟩
  | free =>
    rw [hd] at hst
    cases hst
    exact hstay rfl rfl rfl fun ha => by rw [hd] at ha; cases ha

theorem WalkInv.walked {δ κ : Type} [DecidableEq κ] {s t : State δ κ} {k : κ} {p : WalkPc δ}
    (h : WalkInv s) (hwalk : t.walk = Function.update s.walk k p) (hdata : t.data = s.data)
    (hcells : t.cells = s.cells)
    (hp : ∀ d, Ahead t k d → (s.data d).linked = true ∧ (s.data d).alive = true) : WalkInv t := by
  intro j d hd
  rw [hdata]
  by_cases hj : j = k
  · subst hj
    exact hp d hd
  · refine h j d ?_
    rwa [Ahead,State.rest,hcells,hwalk,Function.update_of_ne hj] at hd

theorem rest_elim {δ κ : Type} [DecidableEq κ] {s : State δ κ} {d : δ} {k : κ} {o : Option δ}
    (hd : (s.walkTo k (o.elim .unlock .lockData)).cells.Reaches
    ((s.walkTo k (o.elim .unlock .lockData)).rest k) d) : s.cells.Reaches o d := by
  cases o with
  | none =>
    simp only [State.rest,State.walkTo,Function.update_self,Option.elim] at hd
    cases hd
  | some e => simpa [State.rest,State.walkTo,WalkPc.place] using hd

theorem WalkInv.walkGo (h : WalkInv s) (hm : MetaInv s) (hok : NoOverlap s (.walk k))
    (hst : RcuMeta.walkGo s k (s.walk k) = some t) : WalkInv t := by
  cases hp : s.walk k with
  | idle =>
    rw [hp] at hst
    cases hst
  | lock =>
    rw [hp] at hst
    obtain ⟨hl,rfl⟩ := guarded_eq_some.mp hst
    refine h.walked (k:=k) rfl rfl rfl fun d hd => ?_
    have hr : s.cells.Reaches s.cells.head d := by
      simpa [Ahead,State.rest,State.walkTo] using hd
    exact ⟨hm.linked hr,DataPc.alive_of_linked (hm.linked hr) (hok hp hl d)⟩
  | head =>
    rw [hp] at hst
    cases hst
    refine h.walked (k:=k) rfl rfl rfl fun d hd => h k d ?_
    rw [Ahead,State.rest,hp]
    exact rest_elim hd
  | next e =>
    rw [hp] at hst
    cases hst
    refine h.walked (k:=k) rfl rfl rfl fun d hd => h k d ?_
    rw [Ahead,State.rest,hp]
    exact .next (rest_elim hd)
  | lockData e =>
    rw [hp] at hst
    obtain ⟨_,rfl⟩ := guarded_eq_some.mp hst
    refine h.walked (k:=k) rfl rfl rfl fun d hd => h k d ?_
    rw [Ahead,State.rest,hp]
    simpa [Ahead,State.rest,State.walkTo,State.setLock,WalkPc.place] using hd
  | sync e | unlockData e =>
    rw [hp] at hst
    cases hst
    refine h.walked (k:=k) rfl rfl rfl fun d hd => h k d ?_
    rw [Ahead,State.rest,hp]
    simpa [Ahead,State.rest,State.walkTo,State.setLock,WalkPc.place] using hd
  | unlock =>
    rw [hp] at hst
    cases hst
    refine h.walked (k:=k) rfl rfl rfl fun d hd => ?_
    simp only [Ahead,State.rest,State.walkTo,Function.update_self] at hd
    cases hd

theorem WalkInv.step (h : WalkInv s) (hm : MetaInv s) (hok : NoOverlap s a)
    (hst : RcuMeta.step isStatic s a = some t) : WalkInv t := by
  cases a with
  | dataInit d =>
    obtain ⟨hd,rfl⟩ := guarded_eq_some.mp hst
    refine h.frame rfl rfl fun k e _ hl ha => ?_
    have he : e ≠ d := by
      rintro rfl
      rw [hd] at hl
      cases hl
    simp only [State.goto,Function.update_of_ne he]
    exact ⟨hl,ha⟩
  | dataExit d =>
    obtain ⟨_,rfl⟩ := guarded_eq_some.mp hst
    refine h.frame rfl rfl fun k e _ hl ha => ?_
    by_cases he : e = d
    · subst he
      simp only [State.goto,Function.update_self]
      exact ⟨rfl,rfl⟩
    · simp only [State.goto,Function.update_of_ne he]
      exact ⟨hl,ha⟩
  | data d fuel => exact h.data hm hok hst
  | syncAll k =>
    obtain ⟨hk,rfl⟩ := guarded_eq_some.mp hst
    refine h.walked (k:=k) rfl rfl rfl fun d hd => ?_
    simp only [Ahead,State.rest,State.walkTo,Function.update_self] at hd
    cases hd
  | walk k => exact h.walkGo hm hok hst

theorem WalkInv.walker {δ κ : Type} {s : State δ κ} {d : δ} {k : κ} (h : WalkInv s) (hm : MetaInv s)
    (hp : (s.walk k).place = some d) : s.alive d = true ∧ s.stored d = true := by
  have ha : Ahead s k d := by
    rw [Ahead,State.rest]
    cases hw : s.walk k with
    | head =>
      rw [hw] at hp
      cases hp
    | _ =>
      rw [hw] at hp
      simp only [hp]
      exact .here d
  exact hm.touchable (h k d ha).2

/-- No walk touches a dead data, in the runs in which no walk overlaps with a death. -/
theorem walker_of_noOverlap (h : Reach (step isStatic) NoOverlap (init δ κ) s)
    (hp : (s.walk k).place = some d) : s.alive d = true ∧ s.stored d = true := by
  have hi : MetaInv s ∧ WalkInv s := by
    refine h.invariant (I:=fun s => MetaInv s ∧ WalkInv s) ⟨.init,?_⟩
      fun s a t hi hok hst => ⟨hi.1.step hst,hi.2.step hi.1 hok hst⟩
    intro k d hd
    cases hd
  exact hi.2.walker hi.1 hp

def NoneDying (s : State δ κ) : Prop := s.metaLock = none → ∀ d, (s.data d).dying = false

theorem NoneDying.step (h : NoneDying s) (hok : Hidden s a)
    (hst : RcuMeta.step isStatic s a = some t) : NoneDying t := by
  have hgo : ∀ {u : State δ κ} {d : δ} {p : DataPc}, u.data = s.data →
      (u.metaLock = none → ∀ e, (s.data e).dying = false) → p.dying = false →
      NoneDying (u.goto d p) := by
    intro u d p hdata hold hp hl e
    by_cases he : e = d
    · simp only [State.goto,he,Function.update_self,hp]
    · simp only [State.goto,Function.update_of_ne he,hdata]
      exact hold hl e
  cases a with
  | dataInit d | dataExit d =>
    obtain ⟨_,rfl⟩ := guarded_eq_some.mp hst
    exact hgo rfl h rfl
  | data d fuel =>
    rw [RcuMeta.step] at hst
    cases hd : s.data d with
    | absent | ready =>
      rw [hd] at hst
      cases hst
    | setNext | link | clear | unlock | free =>
      rw [hd] at hst
      cases hst
      exact hgo rfl h rfl
    | lockIn =>
      rw [hd] at hst
      obtain ⟨_,rfl⟩ := guarded_eq_some.mp hst
      exact hgo rfl (by rintro ⟨⟩) rfl
    | lockOut =>
      rw [hd] at hst
      obtain ⟨_,rfl⟩ := guarded_eq_some.mp hst
      rintro ⟨⟩
    | lock =>
      rw [hd] at hst
      obtain ⟨_,rfl⟩ := guarded_eq_some.mp hst
      exact hgo rfl h rfl
    | unlockIn =>
      rw [hd] at hst
      cases hst
      exact hgo rfl (fun _ => hok.2 (.inl hd)) rfl
    | unlockOut =>
      rw [hd] at hst
      cases hst
      exact hgo rfl (fun _ => hok.2 (.inr hd)) (by split <;> rfl)
    | destroy =>
      rw [hd] at hst
      cases hst
      exact fun hl => absurd hl (hok.1 hd).1
    | unlink =>
      rw [hd] at hst
      obtain ⟨_,_,rfl⟩ := Option.map_eq_some_iff.mp hst
      exact hgo rfl h rfl
  | syncAll k =>
    obtain ⟨_,rfl⟩ := guarded_eq_some.mp hst
    exact h
  | walk k =>
    rw [RcuMeta.step] at hst
    cases hp : s.walk k with
    | idle =>
      rw [hp] at hst
      cases hst
    | lock =>
      rw [hp] at hst
      obtain ⟨_,rfl⟩ := guarded_eq_some.mp hst
      rintro ⟨⟩
    | lockData e =>
      rw [hp] at hst
      obtain ⟨_,rfl⟩ := guarded_eq_some.mp hst
      exact h
    | head | next e | sync e | unlockData e =>
      rw [hp] at hst
      cases hst
      exact h
    | unlock =>
      rw [hp] at hst
      cases hst
      exact fun _ => hok hp

/-- The exit itself needs the list free when its data is dying, and breaks the second half. -/
theorem not_allAlive_of_dying (h : Reach (step isStatic) Anything (init δ κ) s)
    (hl : s.metaLock = none) (hd : (s.data d).dying = true) : ¬ AllAlive s := by
  intro ha
  have hi : MetaInv s := h.invariant .init fun _ _ _ hi _ hst => hi.step hst
  obtain ⟨ds,hpath,_,hm⟩ := hi.path
  have hmem : d ∈ ds := (hm d).mpr (by
    cases hp : s.data d <;> simp_all [DataPc.dying,DataPc.linked])
  have halive := (ha.list hl d (hpath.reaches_of_mem hmem)).1
  rw [hi.alive d] at halive
  cases hp : s.data d <;> simp_all [DataPc.dying,DataPc.alive]

/-- Both halves, in every interleaving whose steps hide the deaths behind the lock. -/
theorem allAlive_of_hidden (h : Reach (step isStatic) Hidden (init δ κ) s) : AllAlive s := by
  have hi : MetaInv s ∧ NoneDying s :=
    h.invariant (I:=fun s => MetaInv s ∧ NoneDying s) ⟨.init,fun _ _ => rfl⟩
      fun s a t hi hok hst => ⟨hi.1.step hst,hi.2.step hok hst⟩
  have hover : Reach (step isStatic) NoOverlap (init δ κ) s := by
    refine h.strengthen (I:=NoneDying) (fun _ _ => rfl) (fun s a t hi hok hst => hi.step hok hst)
      fun s a hi hok => ?_
    cases a with
    | data d fuel => exact fun hd => (hok.1 hd).2
    | walk k => exact fun _ hl => hi hl
    | _ => trivial
  refine ⟨fun k d => walker_of_noOverlap hover,fun hl d hd => hi.1.touchable ?_⟩
  exact DataPc.alive_of_linked (hi.1.linked hd) (hi.2 hl d)

end Laws

/-- A data is created, and the exit comes to the lock of the list. -/
def initAndExit : List (Act Bool Unit) :=
  .dataInit false::List.replicate 4 (.data false 0) ++
    .dataExit false::List.replicate 4 (.data false 0)

/-- A walk comes to the destroyed lock. -/
theorem allAlive_fails : ¬ ∀ s : State Bool Unit,
    Reach (step fun _ => false) Anything (init Bool Unit) s → AllAlive s := by
  intro h
  have hs : (exec (step fun _ => false) (init Bool Unit)
      (initAndExit ++ .syncAll ()::List.replicate 2 (.walk ()))).map
      (fun s => (s.walk (),s.alive false)) = some (.lockData false,false) := by decide
  obtain ⟨s,hs,hp⟩ := Option.map_eq_some_iff.mp hs
  obtain ⟨hw,ha⟩ := Prod.mk.inj hp
  have halive := ((h s (reach_of_exec hs)).walker () false (by rw [hw]; rfl)).1
  rw [ha] at halive
  cases halive

/-- No walk begins, and a lock is destroyed only while the other data links itself. -/
def NoWalk (s : State Bool Unit) : Act Bool Unit → Prop
  | .data d _ => (s.data d = .destroy → s.metaLock = some (.data true)) ∧
    (s.data d = .unlockIn ∨ s.data d = .unlockOut → ∀ e, (s.data e).dying = false)
  | .syncAll _ | .walk _ => False
  | _ => True

instance (s : State Bool Unit) : ∀ a, Decidable (NoWalk s a)
  | .data d _ => inferInstanceAs (Decidable (
    (s.data d = .destroy → s.metaLock = some (.data true)) ∧
      (s.data d = .unlockIn ∨ s.data d = .unlockOut → ∀ e, (s.data e).dying = false)))
  | .syncAll _ | .walk _ => inferInstanceAs (Decidable False)
  | .dataInit _ | .dataExit _ => inferInstanceAs (Decidable True)

/-- The lock of one data is destroyed while another one is linked. -/
theorem allAlive_of_linking : ∃ s : State Bool Unit,
    Reach (step fun _ => false) Hidden (init Bool Unit) s ∧ s.data false = .lockOut ∧
      AllAlive s := by
  have hs : (exec (restrict (step fun _ => false) NoWalk) (init Bool Unit)
      (.dataInit false::List.replicate 4 (.data false 0) ++
        .dataInit true::List.replicate 2 (.data true 0) ++
        .dataExit false::List.replicate 4 (.data false 0))).map
      (fun s => s.data false) = some .lockOut := by decide
  obtain ⟨s,hs,hd⟩ := Option.map_eq_some_iff.mp hs
  have hr : Reach (step fun _ => false) Hidden (init Bool Unit) s := by
    refine (reach_of_exec_restrict hs).strengthen (I:=MetaInv) .init
      (fun s a t hi _ hst => hi.step hst) fun s a hi hok => ?_
    cases a with
    | data d fuel =>
      refine ⟨fun hd => ⟨by rw [hok.1 hd]; rintro ⟨⟩,fun k hk => ?_⟩,hok.2⟩
      have hl := (hi.holder (.walker k)).mpr hk.holds
      rw [hok.1 hd] at hl
      cases hl
    | walk k => exact hok.elim
    | _ => trivial
  exact ⟨s,hr,hd,allAlive_of_hidden hr⟩

end RcuMeta
end Mthpc
