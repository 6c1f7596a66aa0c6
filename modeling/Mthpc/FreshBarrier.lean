import Mthpc.Barrier

/-!
# One use of a freshly initialised barrier

A team of `n` threads calls a fresh barrier once. Whether a thread can return
before all have entered depends on the parity of its calls on other barriers,
because the flag starts at 0 and the thread waits for its own sense.
-/
namespace Mthpc
namespace Barrier

open StepSystem

variable {β ι : Type} [DecidableEq β] [DecidableEq ι]

/-- The barrier a call is on. -/
def CallPc.on : CallPc β → Option β
  | .idle => none
  | .lock b _ | .update b _ | .unlock b _ | .store b | .spin b => some b

theorem step_on {s t : State β ι} {a : Act β ι} (h : step s a = some t) :
    (t.pc a.thread).on = none ∨ (t.pc a.thread).on = some a.on := by
  cases a with
  | enter i b n | lock i b n | update i b n | store i b =>
    obtain ⟨_,rfl⟩ := guarded_eq_some.mp h
    simp [Act.thread,Act.on,CallPc.on]
  | unlock i b a =>
    obtain ⟨_,rfl⟩ := guarded_eq_some.mp h
    cases a <;> simp [Act.thread,Act.on,CallPc.on,afterUnlock]
  | load i b =>
    obtain ⟨_,rfl⟩ := guarded_eq_some.mp h
    by_cases hf : (s.bar b).flag = s.sense i <;> simp [Act.thread,Act.on,CallPc.on,hf]

/-- `mthpc_barrier_init` on `b`. -/
def State.fresh (s : State β ι) (b : β) : State β ι :=
  { s with bar := Function.update s.bar b barrierInit }

/-- Each thread of the team makes its next call on `b` with `n` and no further call;
the other threads stay away from `b`. -/
def CallsOnce (team : Finset ι) (b : β) (n : Size) (before : ι → ℕ) (s : State β ι) :
    Act β ι → Prop
  | .enter i c m => if i ∈ team then c = b ∧ m = n ∧ s.calls i = before i else c ≠ b
  | _ => True

def AllEntered (team : Finset ι) (before : ι → ℕ) (s : State β ι) : Prop :=
  ∀ i ∈ team, before i < s.calls i

/-- No thread of the team has returned from its call before all have entered theirs. -/
def NoEarlyReturn (team : Finset ι) (before : ι → ℕ) (s : State β ι) : Prop :=
  (∃ i ∈ team, before i < s.calls i ∧ s.pc i = .idle) → AllEntered team before s

def arrived (before : ι → ℕ) (s : State β ι) (i : ι) : Bool :=
  decide (before i < s.calls i) &&
    match s.pc i with
    | .lock _ _ | .update _ _ => false
    | _ => true

def Member (b : β) (n : Size) (before : ι → ℕ) (s : State β ι) (i : ι) : Prop :=
  s.calls i = before i ∧ s.pc i = .idle ∧ s.sense i = 0 ∨
  before i < s.calls i ∧ s.sense i = 1 ∧
    (s.pc i = .lock b n ∨ s.pc i = .update b n ∨ s.pc i = .unlock b .wait ∨ s.pc i = .spin b)

/-- The barrier while somebody is still missing. -/
structure Waiting (team : Finset ι) (b : β) (n : Size) (before : ι → ℕ) (s : State β ι) :
    Prop where
  flag : (s.bar b).flag = 0
  count : (s.bar b).count = BitVec.ofNat 32 (team.filter (arrived before s ·)).card
  members : ∀ i ∈ team, Member b n before s i
  others : ∀ i ∉ team, (s.pc i).on ≠ some b

theorem Waiting.noEarlyReturn {β ι : Type} {team : Finset ι} {b : β} {n : Size} {before : ι → ℕ}
    {s : State β ι} (h : Waiting team b n before s) : NoEarlyReturn team before s := by
  rintro ⟨i,hi,hc,hp⟩
  rcases h.members i hi with ⟨hc',_⟩ | ⟨_,_,hpc⟩
  · omega
  · simp [hp] at hpc

theorem toNat_signExtend {k : ℕ} (hint : k < 2^31) :
    ((BitVec.ofNat 32 k).signExtend 64).toNat = k := by
  have hm : (BitVec.ofNat 32 k).msb = false := by
    rw [BitVec.msb_eq_false_iff_two_mul_lt,BitVec.toNat_ofNat]
    omega
  rw [BitVec.signExtend_eq_setWidth_of_msb_false hm,BitVec.toNat_setWidth,BitVec.toNat_ofNat]
  omega

theorem arm_wait {k : ℕ} {n : Size} (hk : k < n.toNat) (hint : k < 2^31) :
    arm (BitVec.ofNat 32 k) n = .wait := by
  have ht := toNat_signExtend hint
  have hne : (BitVec.ofNat 32 k).signExtend 64 ≠ n := by
    rintro rfl
    omega
  have hlt : ((BitVec.ofNat 32 k).signExtend 64).ult n = true := by
    rw [BitVec.ult_eq_decide,ht,decide_eq_true_eq]
    exact hk
  rw [arm,if_neg hne,if_pos hlt]

theorem arm_last {k : ℕ} {n : Size} (hk : k = n.toNat) (hint : k < 2^31) :
    arm (BitVec.ofNat 32 k) n = .last := by
  have heq : (BitVec.ofNat 32 k).signExtend 64 = n :=
    BitVec.eq_of_toNat_eq ((toNat_signExtend hint).trans hk)
  rw [arm,if_pos heq]

theorem calls_le {s t : State β ι} {a : Act β ι} (h : step s a = some t) (i : ι) :
    s.calls i ≤ t.calls i := by
  cases a with
  | enter j b n =>
    obtain ⟨_,rfl⟩ := guarded_eq_some.mp h
    by_cases hj : i = j
    · subst hj; simp
    · simp [hj]
  | lock j b n | update j b n | unlock j b a | store j b | load j b =>
    obtain ⟨_,rfl⟩ := guarded_eq_some.mp h
    exact le_rfl

theorem AllEntered.step {team : Finset ι} {before : ι → ℕ} {s t : State β ι} {a : Act β ι}
    (h : AllEntered team before s) (hst : step s a = some t) : AllEntered team before t :=
  fun i hi => (h i hi).trans_le (calls_le hst i)

theorem Waiting.frame {β ι : Type} [DecidableEq ι] {team : Finset ι} {b : β} {n : Size}
    {before : ι → ℕ} {s t : State β ι}
    (h : Waiting team b n before s) (j : ι) (hf : (t.bar b).flag = (s.bar b).flag)
    (hc : (t.bar b).count = (s.bar b).count)
    (hother : ∀ i, i ≠ j → t.pc i = s.pc i ∧ t.calls i = s.calls i ∧ t.sense i = s.sense i)
    (harr : j ∈ team → arrived before t j = arrived before s j)
    (hin : j ∈ team → Member b n before t j) (hout : j ∉ team → (t.pc j).on ≠ some b) :
    Waiting team b n before t := by
  have ha : ∀ i ∈ team, arrived before t i = arrived before s i := by
    intro i hi
    by_cases hj : i = j
    · subst hj; exact harr hi
    · obtain ⟨hp,hk,_⟩ := hother i hj
      simp only [arrived,hp,hk]
  refine ⟨hf.trans h.flag,?_,?_,?_⟩
  · rw [hc,h.count,Finset.filter_congr (q:=(arrived before t · = true))]
    intro i hi
    rw [ha i hi]
  · intro i hi
    by_cases hj : i = j
    · subst hj; exact hin hi
    · obtain ⟨hp,hk,hs⟩ := hother i hj
      simpa only [Member,hp,hk,hs] using h.members i hi
  · intro i hi
    by_cases hj : i = j
    · subst hj; exact hout hi
    · rw [(hother i hj).1]; exact h.others i hi

theorem Waiting.ne_of_outside {β ι : Type} {team : Finset ι} {b c : β} {n : Size} {before : ι → ℕ}
    {s : State β ι} (h : Waiting team b n before s) {j : ι} (hj : j ∉ team)
    (hc : (s.pc j).on = some c) : b ≠ c := by
  rintro rfl
  exact h.others j hj hc

theorem Waiting.inside {β ι : Type} {team : Finset ι} {b : β} {n : Size} {before : ι → ℕ}
    {s : State β ι} (h : Waiting team b n before s) {j : ι} (hj : j ∈ team) (hp : s.pc j ≠ .idle) :
    before j < s.calls j ∧ s.sense j = 1 ∧
      (s.pc j = .lock b n ∨ s.pc j = .update b n ∨ s.pc j = .unlock b .wait ∨ s.pc j = .spin b) :=
  (h.members j hj).resolve_left fun hh => hp hh.2.1

theorem Waiting.update {team : Finset ι} {b : β} {n : Size} {before : ι → ℕ} {s t : State β ι}
    (h : Waiting team b n before s) (hn : n.toNat ≤ 2^31) (hteam : team.card = n.toNat) {j : ι}
    (hj : j ∈ team) (hpc : s.pc j = .update b n) (hst : step s (.update j b n) = some t) :
    Waiting team b n before t ∨ AllEntered team before t := by
  obtain ⟨_,rfl⟩ := guarded_eq_some.mp hst
  obtain ⟨hin,hsense,_⟩ := h.inside hj (by simp [hpc])
  let A := team.filter (arrived before s ·)
  have hjA : j ∉ A := by simp [A,arrived,hpc]
  have hsub : insert j A ⊆ team := Finset.insert_subset hj (Finset.filter_subset _ _)
  have hcard : (insert j A).card = A.card+1 := Finset.card_insert_of_notMem hjA
  by_cases hall : A.card+1 = n.toNat
  · right
    have heq : insert j A = team := Finset.eq_of_subset_of_card_le hsub (by omega)
    intro i hi
    rw [← heq] at hi
    rcases Finset.mem_insert.mp hi with rfl | hi
    · exact hin
    · have ha := (Finset.mem_filter.mp hi).2
      simp only [arrived,Bool.and_eq_true,decide_eq_true_eq] at ha
      exact ha.1
  · left
    have hlt : A.card+1 < n.toNat := by
      have hle := Finset.card_le_card hsub
      omega
    have hcount : (s.bar b).count+1 = BitVec.ofNat 32 (A.card+1) := by
      rw [h.count,BitVec.ofNat_add]
      rfl
    have harm : arm ((s.bar b).count+1) n = .wait := by rw [hcount]; exact arm_wait hlt (by omega)
    rw [harm]
    have hfilter : team.filter (arrived before { s with
        bar := Function.update s.bar b { s.bar b with
          count := if Arm.wait = .last then 0 else (s.bar b).count+1 }
        pc := Function.update s.pc j (.unlock b .wait) } ·) = insert j A := by
      ext i
      by_cases hi : i = j
      · subst hi; simp [arrived,hj,hin]
      · simp [A,arrived,hi]
    refine ⟨by simpa using h.flag,?_,?_,?_⟩
    · rw [hfilter,hcard]
      simpa using hcount
    · intro i hi
      by_cases hij : i = j
      · subst hij
        exact Or.inr ⟨hin,hsense,by simp⟩
      · simpa [Member,hij] using h.members i hi
    · intro i hi
      have hij : i ≠ j := fun he => hi (he ▸ hj)
      simpa [hij] using h.others i hi

theorem Waiting.step {team : Finset ι} {b : β} {n : Size} {before : ι → ℕ} {s t : State β ι}
    {a : Act β ι} (h : Waiting team b n before s) (hn : n.toNat ≤ 2^31)
    (hteam : team.card = n.toNat) (hok : CallsOnce team b n before s a)
    (hst : step s a = some t) : Waiting team b n before t ∨ AllEntered team before t := by
  cases a with
  | enter j c m =>
    obtain ⟨hpc,rfl⟩ := guarded_eq_some.mp hst
    left
    refine h.frame j rfl rfl (fun i hi => by simp [hi]) (fun hj => ?_) (fun hj => ?_) (fun hj => ?_)
    all_goals simp only [CallsOnce,hj,if_true,if_false] at hok
    · simp [arrived,hok.2.2]
    · have hs : s.sense j = 0 := by
        rcases h.members j hj with ⟨_,_,hs⟩ | ⟨hlt,_⟩
        · exact hs
        · omega
      exact Or.inr ⟨by simp [hok.2.2],by simp [hs,lnot],by simp [hok.1,hok.2.1]⟩
    · simpa [CallPc.on] using hok
  | lock j c m =>
    obtain ⟨⟨hpc,_⟩,rfl⟩ := guarded_eq_some.mp hst
    left
    have hf : ∀ d, (Function.update s.bar c { s.bar c with lock := some j } d).flag =
        (s.bar d).flag ∧ (Function.update s.bar c { s.bar c with lock := some j } d).count =
        (s.bar d).count := by
      intro d
      by_cases hd : d = c
      · subst hd; simp
      · simp [hd]
    refine h.frame j (hf b).1 (hf b).2 (fun i hi => by simp [hi]) (fun _ => by simp [arrived,hpc])
      (fun hj => ?_) (fun hj => ?_)
    · obtain ⟨hin,hs,hp⟩ := h.inside hj (by simp [hpc])
      obtain ⟨rfl,rfl⟩ : c = b ∧ m = n := by simpa [hpc] using hp
      exact Or.inr ⟨hin,hs,by simp⟩
    · simpa [hpc,CallPc.on] using h.others j hj
  | update j c m =>
    have hpc := (guarded_eq_some.mp hst).1
    by_cases hj : j ∈ team
    · obtain ⟨_,_,hp⟩ := h.inside hj (by simp [hpc])
      obtain ⟨rfl,rfl⟩ : c = b ∧ m = n := by simpa [hpc] using hp
      exact h.update hn hteam hj hpc hst
    · obtain ⟨_,rfl⟩ := guarded_eq_some.mp hst
      left
      have hne := h.ne_of_outside hj (c:=c) (by rw [hpc]; rfl)
      exact h.frame j (by simp [hne]) (by simp [hne]) (fun i hi => by simp [hi])
        (fun hh => absurd hh hj) (fun hh => absurd hh hj)
        (fun _ => by simpa [CallPc.on] using hne.symm)
  | unlock j c a =>
    obtain ⟨hpc,rfl⟩ := guarded_eq_some.mp hst
    left
    have hf : ∀ d, (Function.update s.bar c { s.bar c with lock := none } d).flag =
        (s.bar d).flag ∧ (Function.update s.bar c { s.bar c with lock := none } d).count =
        (s.bar d).count := by
      intro d
      by_cases hd : d = c
      · subst hd; simp
      · simp [hd]
    refine h.frame j (hf b).1 (hf b).2 (fun i hi => by simp [hi]) (fun hj => ?_)
      (fun hj => ?_) (fun hj => ?_)
    · cases a <;> simp [arrived,hpc,afterUnlock]
    · obtain ⟨hin,hs,hp⟩ := h.inside hj (by simp [hpc])
      obtain ⟨rfl,rfl⟩ : c = b ∧ a = .wait := by simpa [hpc] using hp
      exact Or.inr ⟨hin,hs,by simp [afterUnlock]⟩
    · have hne := h.ne_of_outside hj (c:=c) (by rw [hpc]; rfl)
      cases a <;> simp [afterUnlock,CallPc.on,hne.symm]
  | store j c =>
    obtain ⟨hpc,rfl⟩ := guarded_eq_some.mp hst
    left
    have hj : j ∉ team := fun hj => by
      obtain ⟨_,_,hp⟩ := h.inside hj (by simp [hpc])
      simp [hpc] at hp
    have hne := h.ne_of_outside hj (c:=c) (by rw [hpc]; rfl)
    exact h.frame j (by simp [hne]) (by simp [hne]) (fun i hi => by simp [hi])
      (fun hh => absurd hh hj) (fun hh => absurd hh hj) (fun _ => by simp [CallPc.on])
  | load j c =>
    obtain ⟨hpc,rfl⟩ := guarded_eq_some.mp hst
    left
    refine h.frame j rfl rfl (fun i hi => by simp [hi]) (fun hj => ?_) (fun hj => ?_) (fun hj => ?_)
    · by_cases hf : (s.bar c).flag = s.sense j <;> simp [arrived,hpc,hf]
    · -- the flag is down, so a thread that waits for sense 1 spins on
      obtain ⟨hin,hs,hp⟩ := h.inside hj (by simp [hpc])
      obtain rfl : c = b := by simpa [hpc] using hp
      exact Or.inr ⟨hin,hs,by simp [h.flag,hs]⟩
    · have hne := h.ne_of_outside hj (c:=c) (by rw [hpc]; rfl)
      simp only [Function.update_self]
      split <;> simp [CallPc.on,hne.symm]

theorem noEarlyReturn_of_sense {team : Finset ι} {b : β} {n : Size} {s₀ s : State β ι}
    (hn : n.toNat ≤ 2^31) (hteam : team.card = n.toNat)
    (hidle : ∀ i ∈ team, s₀.pc i = .idle) (hfree : ∀ i, (s₀.pc i).on ≠ some b)
    (hsense : ∀ i ∈ team, s₀.sense i = 0)
    (h : Reach step (CallsOnce team b n s₀.calls) (s₀.fresh b) s) :
    NoEarlyReturn team s₀.calls s := by
  have hw : Waiting team b n s₀.calls (s₀.fresh b) := by
    refine ⟨by simp [State.fresh,barrierInit],?_,?_,fun i _ => hfree i⟩
    · simp [State.fresh,barrierInit,arrived]
    · exact fun i hi => Or.inl ⟨rfl,hidle i hi,hsense i hi⟩
  have hh : Waiting team b n s₀.calls s ∨ AllEntered team s₀.calls s :=
    h.invariant (I:=fun s => Waiting team b n s₀.calls s ∨ AllEntered team s₀.calls s)
      (Or.inl hw) fun _ _ _ hi hok hst =>
        hi.elim (fun hw => hw.step hn hteam hok hst) fun ha => Or.inr (ha.step hst)
  exact hh.elim Waiting.noEarlyReturn fun ha _ => ha

theorem exists_arm_ne_wait {n : Size} (hn : 2^31 < n.toNat) :
    ∃ k < n.toNat, arm (BitVec.ofNat 32 k) n ≠ .wait := by
  have hlt := n.isLt
  by_cases hbig : n.toNat ≤ 2^64-2^31
  · refine ⟨2^31,hn,?_⟩
    have ht : ((BitVec.ofNat 32 (2^31)).signExtend 64).toNat = 2^64-2^31 := by decide
    have hult : ((BitVec.ofNat 32 (2^31)).signExtend 64).ult n = false := by
      rw [BitVec.ult_eq_decide,ht,decide_eq_false_iff_not]
      omega
    rw [arm,hult]
    split <;> nofun
  · -- sizes next to 2^64 meet the sign-extended negative counter itself
    refine ⟨n.toNat-(2^64-2^32),by omega,?_⟩
    have heq : (BitVec.ofNat 32 (n.toNat-(2^64-2^32))).signExtend 64 = n := by
      apply BitVec.eq_of_toNat_eq
      have hm : (BitVec.ofNat 32 (n.toNat-(2^64-2^32))).msb = true := by
        rw [BitVec.msb_eq_true_iff_two_mul_ge,BitVec.toNat_ofNat]
        omega
      rw [BitVec.toNat_signExtend,hm,BitVec.toNat_setWidth,BitVec.toNat_ofNat]
      simp only [if_true]
      omega
    rw [arm,if_pos heq]
    nofun

/-- The state after one whole arrival of `i`. -/
def State.arrive (s : State β ι) (i : ι) (b : β) (n : Size) : State β ι where
  bar := Function.update s.bar b
    { s.bar b with
      count := if arm ((s.bar b).count+1) n = .last then 0 else (s.bar b).count+1
      lock := none }
  sense := Function.update s.sense i (lnot (s.sense i))
  pc := Function.update s.pc i (afterUnlock b (arm ((s.bar b).count+1) n))
  calls := Function.update s.calls i (s.calls i+1)

theorem arrive_pc (s : State β ι) (i : ι) (b : β) (n : Size) {a : Arm}
    (ha : arm ((s.bar b).count+1) n = a) : (s.arrive i b n).pc i = afterUnlock b a := by
  subst ha
  simp [State.arrive]

theorem arrive_count (s : State β ι) (i : ι) (b : β) (n : Size)
    (ha : arm ((s.bar b).count+1) n = .wait) :
    ((s.arrive i b n).bar b).count = (s.bar b).count+1 := by
  simp only [State.arrive,ha,Function.update_self]
  rw [if_neg nofun]

theorem reach_arrive {team : Finset ι} {b : β} {n : Size} {before : ι → ℕ} {s : State β ι} {i : ι}
    (hi : i ∈ team) (hpc : s.pc i = .idle) (hcalls : s.calls i = before i)
    (hlock : (s.bar b).lock = none) :
    Reach step (CallsOnce team b n before) s (s.arrive i b n) := by
  have h₀ : Reach step (CallsOnce team b n before) s s := .refl
  have h₁ := h₀.tail (a:=Act.enter i b n) (by simp [CallsOnce,hi,hcalls])
    (guarded_eq_some.mpr ⟨hpc,rfl⟩)
  have h₂ := h₁.tail (a:=Act.lock i b n) trivial (guarded_eq_some.mpr ⟨⟨by simp,hlock⟩,rfl⟩)
  have h₃ := h₂.tail (a:=Act.update i b n) trivial (guarded_eq_some.mpr ⟨by simp,rfl⟩)
  have h₄ := h₃.tail (a:=Act.unlock i b (arm ((s.bar b).count+1) n)) trivial
    (guarded_eq_some.mpr ⟨by simp,rfl⟩)
  simpa [State.arrive] using h₄

theorem early_of_odd {team : Finset ι} {b : β} {n : Size} {s₀ : State β ι}
    (hn : 2 ≤ n.toNat) (hteam : team.card = n.toNat) (hidle : ∀ i ∈ team, s₀.pc i = .idle)
    {i : ι} (hi : i ∈ team) (hsense : s₀.sense i = 1) :
    ∃ s, Reach step (CallsOnce team b n s₀.calls) (s₀.fresh b) s ∧
      ¬ NoEarlyReturn team s₀.calls s := by
  have hreach : Reach step (CallsOnce team b n s₀.calls) (s₀.fresh b)
      ((s₀.fresh b).arrive i b n) :=
    reach_arrive hi (hidle i hi) rfl (by simp [State.fresh,barrierInit])
  have harm : arm (((s₀.fresh b).bar b).count+1) n = .wait := by
    have h1 : ((s₀.fresh b).bar b).count+1 = BitVec.ofNat 32 1 := by simp [State.fresh,barrierInit]
    rw [h1]
    exact arm_wait (by omega) (by omega)
  have hspin : ((s₀.fresh b).arrive i b n).pc i = .spin b := arrive_pc _ _ _ _ harm
  -- its new sense is 0, which is what the flag of a fresh barrier holds
  have hflag : (((s₀.fresh b).arrive i b n).bar b).flag = ((s₀.fresh b).arrive i b n).sense i := by
    simp [State.arrive,State.fresh,barrierInit,hsense,lnot]
  have h₁ := hreach.tail (a:=Act.load i b) trivial (guarded_eq_some.mpr ⟨hspin,rfl⟩)
  refine ⟨_,h₁,fun hearly => ?_⟩
  obtain ⟨j,hj,hji⟩ := Finset.exists_mem_ne (by omega : 1 < team.card) i
  have hall := hearly ⟨i,hi,by simp [State.arrive,State.fresh],by simp [hflag]⟩ j hj
  simp [State.arrive,State.fresh,hji] at hall

theorem arrive_all {team : Finset ι} {b : β} {n : Size} {s₀ : State β ι}
    (hidle : ∀ i ∈ team, s₀.pc i = .idle) (A : Finset ι) (hA : A ⊆ team)
    (hwait : ∀ k ≤ A.card, arm (BitVec.ofNat 32 k) n = .wait) :
    ∃ t, Reach step (CallsOnce team b n s₀.calls) (s₀.fresh b) t ∧
      (t.bar b).count = BitVec.ofNat 32 A.card ∧ (t.bar b).lock = none ∧
      ∀ i ∈ team, i ∉ A → t.pc i = .idle ∧ t.calls i = s₀.calls i := by
  induction A using Finset.induction_on with
  | empty =>
    refine ⟨_,.refl,by simp [State.fresh,barrierInit],by simp [State.fresh,barrierInit],?_⟩
    exact fun i hi _ => ⟨hidle i hi,rfl⟩
  | insert i A hiA ih =>
    have hi : i ∈ team := hA (Finset.mem_insert_self i A)
    have hcard : (insert i A).card = A.card+1 := Finset.card_insert_of_notMem hiA
    obtain ⟨t,hreach,hcount,hlock,hrest⟩ := ih ((Finset.subset_insert i A).trans hA)
      fun k hk => hwait k (by omega)
    have hsucc : (t.bar b).count+1 = BitVec.ofNat 32 (A.card+1) := by
      rw [hcount,BitVec.ofNat_add]
      rfl
    have harm : arm ((t.bar b).count+1) n = .wait := by rw [hsucc]; exact hwait _ hcard.ge
    refine ⟨t.arrive i b n,
      hreach.trans (reach_arrive hi (hrest i hi hiA).1 (hrest i hi hiA).2 hlock),?_,?_,?_⟩
    · rw [hcard,arrive_count _ _ _ _ harm,hsucc]
    · simp [State.arrive]
    · intro j hj hjA
      obtain ⟨hji,hjA⟩ : j ≠ i ∧ j ∉ A := by simpa using hjA
      simpa [State.arrive,hji] using hrest j hj hjA

theorem early_of_large {team : Finset ι} {b : β} {n : Size} {s₀ : State β ι}
    (hn : 2^31 < n.toNat) (hteam : team.card = n.toNat) (hidle : ∀ i ∈ team, s₀.pc i = .idle) :
    ∃ s, Reach step (CallsOnce team b n s₀.calls) (s₀.fresh b) s ∧
      ¬ NoEarlyReturn team s₀.calls s := by
  classical
  obtain ⟨K,hK,hKne⟩ := exists_arm_ne_wait hn
  have hex : ∃ k, arm (BitVec.ofNat 32 k) n ≠ .wait := ⟨K,hKne⟩
  have hlt : Nat.find hex < n.toNat := (Nat.find_min' hex hKne).trans_lt hK
  have hmin : ∀ k < Nat.find hex, arm (BitVec.ofNat 32 k) n = .wait := fun k hk => by
    simpa using Nat.find_min hex hk
  have hpos : 0 < Nat.find hex := by
    refine Nat.pos_of_ne_zero fun h0 => ?_
    have hne := Nat.find_spec hex
    rw [h0] at hne
    exact hne (arm_wait (by omega) (by omega))
  -- `A` has arrived and waits, and `i` is the first to find an arm that returns
  obtain ⟨A,hA,hcard⟩ := Finset.exists_subset_card_eq (s:=team) (n:=Nat.find hex-1) (by omega)
  obtain ⟨i,hi,hiA⟩ := Finset.exists_mem_notMem_of_card_lt_card (by omega : A.card < team.card)
  obtain ⟨t,hreach,hcount,hlock,hrest⟩ := arrive_all (b:=b) hidle A hA
    fun k hk => hmin k (by omega)
  obtain ⟨hidlei,hcallsi⟩ := hrest i hi hiA
  have hsucc : (t.bar b).count+1 = BitVec.ofNat 32 (Nat.find hex) := by
    rw [hcount,← show A.card+1 = Nat.find hex by omega,BitVec.ofNat_add]
    rfl
  have hne : arm ((t.bar b).count+1) n ≠ .wait := by rw [hsucc]; exact Nat.find_spec hex
  have hu : Reach step (CallsOnce team b n s₀.calls) (s₀.fresh b) (t.arrive i b n) :=
    hreach.trans (reach_arrive hi hidlei hcallsi hlock)
  have hret : ∃ v, Reach step (CallsOnce team b n s₀.calls) (s₀.fresh b) v ∧ v.pc i = .idle ∧
      v.calls = (t.arrive i b n).calls := by
    cases harm : arm ((t.bar b).count+1) n with
    | wait => exact absurd harm hne
    | warn => exact ⟨_,hu,arrive_pc _ _ _ _ harm,rfl⟩
    | last =>
      have hstore : (t.arrive i b n).pc i = .store b := arrive_pc _ _ _ _ harm
      exact ⟨_,hu.tail (a:=Act.store i b) trivial (guarded_eq_some.mpr ⟨hstore,rfl⟩),by simp,rfl⟩
  obtain ⟨v,hv,hidlev,hcv⟩ := hret
  have hcard' : (insert i A).card < team.card := by
    rw [Finset.card_insert_of_notMem hiA]
    omega
  obtain ⟨j,hj,hjA⟩ := Finset.exists_mem_notMem_of_card_lt_card hcard'
  obtain ⟨hji,hjA⟩ : j ≠ i ∧ j ∉ A := by simpa using hjA
  refine ⟨v,hv,fun hearly => ?_⟩
  have hall := hearly ⟨i,hi,by simp [hcv,State.arrive,hcallsi],hidlev⟩ j hj
  simp [hcv,State.arrive,hji,(hrest j hj hjA).2] at hall

/-- A fresh barrier keeps a team of idle threads together in every interleaving exactly
when each of them has made an even number of barrier calls before and the counter does
not leave the range of `int`. -/
theorem freshBarrier_iff {team : Finset ι} {b : β} {n : Size} {s₀ : State β ι}
    (hs : Reach step Anything (init β ι) s₀) (hn : 2 ≤ n.toNat) (hteam : team.card = n.toNat)
    (hidle : ∀ i ∈ team, s₀.pc i = .idle) (hfree : ∀ i, (s₀.pc i).on ≠ some b) :
    (∀ s, Reach step (CallsOnce team b n s₀.calls) (s₀.fresh b) s →
      NoEarlyReturn team s₀.calls s) ↔
    (∀ i ∈ team, Even (s₀.calls i)) ∧ n.toNat ≤ 2^31 := by
  have hsense : ∀ i, s₀.sense i = if Even (s₀.calls i) then 0 else 1 := fun i => by
    rw [sense_eq hs,senseAfter_eq]
  constructor
  · intro hall
    constructor
    · intro i hi
      by_contra hodd
      obtain ⟨s,hreach,hearly⟩ := early_of_odd (b:=b) hn hteam hidle hi (by simp [hsense,hodd])
      exact hearly (hall s hreach)
    · by_contra hlarge
      obtain ⟨s,hreach,hearly⟩ := early_of_large (b:=b) (by omega) hteam hidle
      exact hearly (hall s hreach)
  · rintro ⟨heven,hle⟩ s hreach
    exact noEarlyReturn_of_sense hle hteam hidle hfree
      (fun i hi => by simp [hsense,heven i hi]) hreach

/-- Two threads pass the barrier `false` together. -/
def startRun : List (Act Bool (Fin 2)) :=
  [.enter 0 false 2,.lock 0 false 2,.update 0 false 2,.unlock 0 false .wait,
    .enter 1 false 2,.lock 1 false 2,.update 1 false 2,.unlock 1 false .last,
    .store 1 false,.load 0 false]

/-- After the start barrier the same two threads use the fresh barrier `true`, and the
claim that neither returns early fails. -/
theorem freshBarrier_fails : ¬ ∀ (team : Finset (Fin 2)) (b : Bool) (n : Size)
    (s₀ s : State Bool (Fin 2)), Reach step Anything (init Bool (Fin 2)) s₀ → 2 ≤ n.toNat →
    team.card = n.toNat → (∀ i ∈ team, s₀.pc i = .idle) → (∀ i, (s₀.pc i).on ≠ some b) →
    Reach step (CallsOnce team b n s₀.calls) (s₀.fresh b) s → NoEarlyReturn team s₀.calls s := by
  intro h
  have hs : ∃ s₀, exec step (init Bool (Fin 2)) startRun = some s₀ ∧
      (∀ i, s₀.pc i = .idle) ∧ s₀.sense 0 = 1 := ⟨_,rfl,by decide,by decide⟩
  obtain ⟨s₀,hs₀,hidle,hsense⟩ := hs
  have hteam : (Finset.univ : Finset (Fin 2)).card = (2 : Size).toNat := by decide
  obtain ⟨s,hreach,hearly⟩ := early_of_odd (b:=true) (by decide) hteam (fun i _ => hidle i)
    (Finset.mem_univ 0) hsense
  exact hearly (h Finset.univ true 2 s₀ s (reach_of_exec hs₀) (by decide) (by decide)
    (fun i _ => hidle i) (fun i => by simp [hidle i,CallPc.on]) hreach)

/-- After two uses of the start barrier the two threads keep together at a fresh one. -/
theorem freshBarrier_of_startTwice : ∃ s₀, Reach step Anything (init Bool (Fin 2)) s₀ ∧
    (∀ i, s₀.calls i = 2) ∧ ∀ s, Reach step (CallsOnce Finset.univ true 2 s₀.calls)
      (s₀.fresh true) s → NoEarlyReturn Finset.univ s₀.calls s := by
  have hs : ∃ s₀, exec step (init Bool (Fin 2)) (startRun ++ startRun) = some s₀ ∧
      (∀ i, s₀.pc i = .idle) ∧ ∀ i, s₀.calls i = 2 := ⟨_,rfl,by decide,by decide⟩
  obtain ⟨s₀,hs₀,hidle,hcalls⟩ := hs
  have hreach := reach_of_exec hs₀
  refine ⟨s₀,hreach,hcalls,(freshBarrier_iff hreach (by decide) (by decide) (fun i _ => hidle i)
    fun i => by simp [hidle i,CallPc.on]).mpr ⟨fun i _ => ?_,by decide⟩⟩
  rw [hcalls i]
  decide

end Barrier
end Mthpc
