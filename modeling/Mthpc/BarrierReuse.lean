import Mthpc.FreshBarrier

/-!
# A barrier used round after round

A team of `n` fresh threads calls the same barrier over and over. Between two flag stores the
round is open, some threads still behind in the previous one and some already arrived in this
one; from the last arrival to its flag store it is closing, and then nobody is elsewhere.
-/
namespace Mthpc
namespace Barrier

open StepSystem

variable {β ι : Type} [DecidableEq β] [DecidableEq ι]

/-- The threads of the team use only `b` and pass `n`; the others stay away from `b`. -/
def UsesOnly (team : Finset ι) (b : β) (n : Size) (_ : State β ι) : Act β ι → Prop
  | .enter i c m => if i ∈ team then c = b ∧ m = n else c ≠ b
  | _ => True

instance (team : Finset ι) (b : β) (n : Size) (s : State β ι) :
    ∀ a, Decidable (UsesOnly team b n s a)
  | .enter i c m => inferInstanceAs (Decidable (if i ∈ team then c = b ∧ m = n else c ≠ b))
  | .lock _ _ _ | .update _ _ _ | .unlock _ _ _ | .store _ _ | .load _ _ =>
    inferInstanceAs (Decidable True)

/-- The calls a thread has returned from. -/
def returned (s : State β ι) (i : ι) : ℕ := if s.pc i = .idle then s.calls i else s.calls i-1

/-- The thread has not taken the waiting arm of its call: one of these comes last. -/
def DueToStore (b : β) (n : Size) (s : State β ι) (i : ι) : Prop :=
  s.pc i = .lock b n ∨ s.pc i = .update b n ∨ s.pc i = .unlock b .last ∨ s.pc i = .store b

/-- What the rounds of a team on one barrier keep to. -/
structure RoundsKept (team : Finset ι) (b : β) (n : Size) (s : State β ι) : Prop where
  together : ∀ i ∈ team, ∀ j ∈ team, returned s i ≤ s.calls j
  noWarning : ∀ i ∈ team, s.pc i ≠ .unlock b .warn
  apart : ∀ i ∈ team, ∀ j ∈ team, s.calls i ≤ s.calls j+1
  released : ∀ k, (∀ j ∈ team, k ≤ s.calls j) → ∀ i ∈ team, s.calls i = k → s.pc i = .spin b →
    (s.bar b).flag ≠ s.sense i → ∃ j ∈ team, DueToStore b n s j

/-- A thread that has counted itself in, in round `r+1`. -/
def ArrivedIn (b : β) (r : ℕ) (s : State β ι) (i : ι) : Prop :=
  s.calls i = r+1 ∧ (s.pc i = .unlock b .wait ∨ s.pc i = .spin b)

instance (b : β) (r : ℕ) (s : State β ι) (i : ι) : Decidable (ArrivedIn b r s i) := by
  unfold ArrivedIn; infer_instance

/-- A thread that has been released from round `r`, or has not noticed yet. -/
def Behind (b : β) (r : ℕ) (s : State β ι) (i : ι) : Prop :=
  s.calls i = r ∧ (s.pc i = .idle ∨ s.pc i = .unlock b .wait ∨ s.pc i = .spin b)

/-- A thread on its way to the counter in round `r+1`. -/
def Arriving (b : β) (n : Size) (r : ℕ) (s : State β ι) (i : ι) : Prop :=
  s.calls i = r+1 ∧ (s.pc i = .lock b n ∨ s.pc i = .update b n)

/-- Round `r+1` while somebody is missing. -/
structure RoundOpen (team : Finset ι) (b : β) (n : Size) (r : ℕ) (s : State β ι) : Prop where
  flag : (s.bar b).flag = senseAfter r
  count : (s.bar b).count = BitVec.ofNat 32 (team.filter (ArrivedIn b r s)).card
  missing : (team.filter (ArrivedIn b r s)).card < team.card
  members : ∀ i ∈ team, Behind b r s i ∨ Arriving b n r s i ∨ ArrivedIn b r s i

/-- Round `r+1` from its last arrival, by `j`, to the flag store. -/
structure RoundClosing (team : Finset ι) (b : β) (r : ℕ) (j : ι) (s : State β ι) : Prop where
  flag : (s.bar b).flag = senseAfter r
  count : (s.bar b).count = 0
  mem : j ∈ team
  last : s.calls j = r+1 ∧ (s.pc j = .unlock b .last ∨ s.pc j = .store b)
  others : ∀ i ∈ team, i ≠ j → ArrivedIn b r s i

structure RoundInv (team : Finset ι) (b : β) (n : Size) (s : State β ι) : Prop where
  sense : ∀ i, s.sense i = senseAfter (s.calls i)
  outside : ∀ i ∉ team, (s.pc i).on ≠ some b
  round : ∃ r, RoundOpen team b n r s ∨ ∃ j, RoundClosing team b r j s

variable {team : Finset ι} {b : β} {n : Size} {r : ℕ} {s t : State β ι} {a : Act β ι} {i j : ι}

theorem senseAfter_ne (r : ℕ) : senseAfter (r+1) ≠ senseAfter r := by
  rw [senseAfter_succ,senseAfter_eq]
  by_cases h : Even r <;> simp [h,lnot]

section Kept

theorem Behind.calls {β ι : Type} {b : β} {r : ℕ} {s : State β ι} {i : ι} (h : Behind b r s i) :
    s.calls i = r := h.1

theorem RoundOpen.calls {β ι : Type} [DecidableEq β] {team : Finset ι} {b : β} {n : Size} {r : ℕ}
    {s : State β ι} {i : ι} (h : RoundOpen team b n r s) (hi : i ∈ team) :
    (s.calls i = r ∨ s.calls i = r+1) ∧ returned s i ≤ r := by
  rcases h.members i hi with ⟨hc,_⟩ | ⟨hc,hp⟩ | ⟨hc,hp⟩
  · refine ⟨.inl hc,?_⟩
    unfold returned
    split <;> omega
  · refine ⟨.inr hc,?_⟩
    have hne : s.pc i ≠ .idle := by rcases hp with hp | hp <;> simp [hp]
    rw [returned,if_neg hne]
    omega
  · refine ⟨.inr hc,?_⟩
    have hne : s.pc i ≠ .idle := by rcases hp with hp | hp <;> simp [hp]
    rw [returned,if_neg hne]
    omega

theorem RoundClosing.pc {β ι : Type} [DecidableEq ι] {team : Finset ι} {b : β} {r : ℕ}
    {s : State β ι} {i j : ι} (h : RoundClosing team b r j s) (hi : i ∈ team) :
    s.calls i = r+1 ∧ (s.pc i = .unlock b .last ∨ s.pc i = .store b ∨
      s.pc i = .unlock b .wait ∨ s.pc i = .spin b) := by
  by_cases hij : i = j
  · subst hij
    exact ⟨h.last.1,h.last.2.imp_right .inl⟩
  · have ha := h.others i hi hij
    exact ⟨ha.1,.inr (.inr ha.2)⟩

theorem RoundOpen.kept {β ι : Type} [DecidableEq β] {team : Finset ι} {b : β} {n : Size} {r : ℕ}
    {s : State β ι} (h : RoundOpen team b n r s)
    (hs : ∀ i, s.sense i = senseAfter (s.calls i)) : RoundsKept team b n s := by
  refine ⟨fun i hi j hj => ?_,fun i hi hp => ?_,fun i hi j hj => ?_,fun k hk i hi hc hp hf => ?_⟩
  · have hi' := (h.calls hi).2
    have hj' := (h.calls hj).1
    omega
  · rcases h.members i hi with ⟨_,hm⟩ | ⟨_,hm⟩ | ⟨_,hm⟩ <;> simp [hp] at hm
  · have hi' := (h.calls hi).1
    have hj' := (h.calls hj).1
    omega
  · -- the flag has the sense of round `r`, so the waiter is in round `r+1`, and so is everybody
    have hkr : k = r+1 := by
      refine (hc ▸ (h.calls hi).1).resolve_left fun hkr => hf ?_
      rw [h.flag,hs i,hc,hkr]
    obtain ⟨m,hm,hma⟩ : ∃ m ∈ team, ¬ ArrivedIn b r s m := by
      by_contra hall
      push Not at hall
      have hmiss := h.missing
      rw [Finset.filter_true_of_mem hall] at hmiss
      exact lt_irrefl _ hmiss
    refine ⟨m,hm,?_⟩
    rcases h.members m hm with ⟨hc',_⟩ | ⟨_,hp'⟩ | ha
    · have := hk m hm
      omega
    · exact hp'.imp_right .inl
    · exact absurd ha hma

theorem RoundClosing.kept (h : RoundClosing team b r j s) : RoundsKept team b n s := by
  have hret : ∀ i ∈ team, returned s i = r := by
    intro i hi
    obtain ⟨hc,hp⟩ := h.pc hi
    have hne : s.pc i ≠ .idle := by rcases hp with hp | hp | hp | hp <;> simp [hp]
    rw [returned,if_neg hne,hc]
    rfl
  refine ⟨fun i hi k hk => ?_,fun i hi hp => ?_,fun i hi k hk => ?_,fun _ _ _ _ _ _ _ => ?_⟩
  · rw [hret i hi,(h.pc hk).1]
    omega
  · simpa [hp] using (h.pc hi).2
  · rw [(h.pc hi).1,(h.pc hk).1]
    omega
  · exact ⟨j,h.mem,.inr (.inr h.last.2)⟩

theorem RoundInv.kept (h : RoundInv team b n s) : RoundsKept team b n s := by
  obtain ⟨r,ho | ⟨j,hc⟩⟩ := h.round
  · exact ho.kept h.sense
  · exact hc.kept

end Kept

section Frame

theorem RoundOpen.frame (h : RoundOpen team b n r s) (hflag : (t.bar b).flag = (s.bar b).flag)
    (hcount : (t.bar b).count = (s.bar b).count)
    (hother : ∀ i, i ≠ j → t.pc i = s.pc i ∧ t.calls i = s.calls i)
    (hj : j ∈ team → (ArrivedIn b r t j ↔ ArrivedIn b r s j) ∧
      (Behind b r t j ∨ Arriving b n r t j ∨ ArrivedIn b r t j)) : RoundOpen team b n r t := by
  have harr : team.filter (ArrivedIn b r t) = team.filter (ArrivedIn b r s) := by
    refine Finset.filter_congr fun i hi => ?_
    by_cases hij : i = j
    · subst hij
      exact (hj hi).1
    · rw [ArrivedIn,ArrivedIn,(hother i hij).1,(hother i hij).2]
  refine ⟨hflag.trans h.flag,?_,?_,fun i hi => ?_⟩
  · rw [hcount,h.count,harr]
  · rw [harr]
    exact h.missing
  · by_cases hij : i = j
    · subst hij
      exact (hj hi).2
    · simpa only [Behind,Arriving,ArrivedIn,(hother i hij).1,(hother i hij).2] using h.members i hi

theorem RoundClosing.frame {β ι : Type} [DecidableEq ι] {team : Finset ι} {b : β} {r : ℕ}
    {s t : State β ι} {j : ι} {k : ι} (h : RoundClosing team b r k s)
    (hflag : (t.bar b).flag = (s.bar b).flag) (hcount : (t.bar b).count = (s.bar b).count)
    (hother : ∀ i, i ≠ j → t.pc i = s.pc i ∧ t.calls i = s.calls i)
    (hlast : j = k → t.calls k = r+1 ∧ (t.pc k = .unlock b .last ∨ t.pc k = .store b))
    (hj : j ∈ team → j ≠ k → ArrivedIn b r t j) : RoundClosing team b r k t := by
  refine ⟨hflag.trans h.flag,hcount.trans h.count,h.mem,?_,fun i hi hik => ?_⟩
  · by_cases hjk : j = k
    · exact hlast hjk
    · rw [(hother k (Ne.symm hjk)).1,(hother k (Ne.symm hjk)).2]
      exact h.last
  · by_cases hij : i = j
    · subst hij
      exact hj hi hik
    · rw [ArrivedIn,(hother i hij).1,(hother i hij).2]
      exact h.others i hi hik

theorem on_ne_of_step (hst : step s a = some t) (hon : (s.pc a.thread).on ≠ some b)
    (hok : UsesOnly team b n s a) (ha : a.thread ∉ team) :
    a.on ≠ b ∧ (t.pc a.thread).on ≠ some b := by
  have hab : a.on ≠ b := by
    cases a with
    | enter i c m => simpa [Act.on,UsesOnly,show i ∉ team from ha] using hok
    | lock i c m =>
      obtain ⟨⟨hp,_⟩,_⟩ := guarded_eq_some.mp hst
      simpa [Act.on,Act.thread,hp,CallPc.on] using hon
    | update i c m | unlock i c m | store i c | load i c =>
      obtain ⟨hp,_⟩ := guarded_eq_some.mp hst
      simpa [Act.on,Act.thread,hp,CallPc.on] using hon
  refine ⟨hab,?_⟩
  rcases step_on hst with h | h <;> rw [h] <;> simp [hab]

theorem sense_step (h : ∀ i, s.sense i = senseAfter (s.calls i)) (hst : step s a = some t) (i : ι) :
    t.sense i = senseAfter (t.calls i) := by
  cases a with
  | enter j c m =>
    obtain ⟨_,rfl⟩ := guarded_eq_some.mp hst
    by_cases hij : i = j
    · subst hij
      simp [senseAfter_succ,h]
    · simpa [hij] using h i
  | lock j c m | update j c m | unlock j c m | store j c | load j c =>
    obtain ⟨_,rfl⟩ := guarded_eq_some.mp hst
    exact h i

end Frame

section Steps

theorem RoundOpen.update (h : RoundOpen team b n r s) (hn : n.toNat = team.card)
    (hint : team.card < 2^31) (hi : i ∈ team) (hst : step s (.update i b n) = some t) :
    RoundOpen team b n r t ∨ RoundClosing team b r i t := by
  obtain ⟨hpc,rfl⟩ := guarded_eq_some.mp hst
  have hc : s.calls i = r+1 := by
    rcases h.members i hi with ⟨_,hp⟩ | ⟨hc,_⟩ | ⟨_,hp⟩
    · simp [hpc] at hp
    · exact hc
    · simp [hpc] at hp
  let A := team.filter (ArrivedIn b r s)
  have hiA : i ∉ A := by simp [A,ArrivedIn,hpc]
  have hsub : insert i A ⊆ team := Finset.insert_subset hi (Finset.filter_subset _ _)
  have hcard : (insert i A).card = A.card+1 := Finset.card_insert_of_notMem hiA
  have hle := Finset.card_le_card hsub
  have hcount : (s.bar b).count+1 = BitVec.ofNat 32 (A.card+1) := by
    rw [h.count,BitVec.ofNat_add]
    rfl
  by_cases hall : A.card+1 = n.toNat
  · right
    have heq : insert i A = team := Finset.eq_of_subset_of_card_le hsub (by omega)
    have harm : arm ((s.bar b).count+1) n = .last := by
      rw [hcount]
      exact arm_last hall (by omega)
    rw [harm]
    refine ⟨by simpa using h.flag,by simp,hi,⟨hc,by simp⟩,fun k hk hki => ?_⟩
    rw [← heq] at hk
    have hkA := (Finset.mem_insert.mp hk).resolve_left hki
    simpa [ArrivedIn,hki] using (Finset.mem_filter.mp hkA).2
  · left
    have harm : arm ((s.bar b).count+1) n = .wait := by
      rw [hcount]
      exact arm_wait (by omega) (by omega)
    rw [harm]
    have hfilter : team.filter (ArrivedIn b r { s with
        bar := Function.update s.bar b { s.bar b with
          count := if Arm.wait = .last then 0 else (s.bar b).count+1 }
        pc := Function.update s.pc i (.unlock b .wait) }) = insert i A := by
      ext k
      by_cases hk : k = i
      · subst hk; simp [ArrivedIn,hi,hc]
      · simp [A,ArrivedIn,hk]
    refine ⟨by simpa using h.flag,?_,?_,fun k hk => ?_⟩
    · rw [hfilter,hcard]
      simpa using hcount
    · rw [hfilter,hcard]
      omega
    · by_cases hki : k = i
      · subst hki
        exact .inr (.inr ⟨hc,by simp⟩)
      · simpa [Behind,Arriving,ArrivedIn,hki] using h.members k hk

theorem RoundOpen.step (h : RoundOpen team b n r s) (hn : n.toNat = team.card)
    (hint : team.card < 2^31) (hs : ∀ i, s.sense i = senseAfter (s.calls i))
    (ha : a.thread ∈ team) (hok : UsesOnly team b n s a) (hst : step s a = some t) :
    RoundOpen team b n r t ∨ RoundClosing team b r a.thread t := by
  have hother : ∀ i, i ≠ a.thread → t.pc i = s.pc i ∧ t.calls i = s.calls i := fun i hi =>
    ⟨(step_other hst hi).1,(step_other hst hi).2.1⟩
  cases a with
  | enter i c m =>
    obtain ⟨rfl,rfl⟩ : c = b ∧ m = n := by simpa [UsesOnly,show i ∈ team from ha] using hok
    obtain ⟨hpc,rfl⟩ := guarded_eq_some.mp hst
    left
    have hc : s.calls i = r := by
      rcases h.members i ha with ⟨hc,_⟩ | ⟨_,hp⟩ | ⟨_,hp⟩
      · exact hc
      · simp [hpc] at hp
      · simp [hpc] at hp
    exact h.frame rfl rfl hother fun _ =>
      ⟨by simp [ArrivedIn,hpc,Act.thread],
        .inr (.inl ⟨by simp [hc,Act.thread],by simp [Act.thread]⟩)⟩
  | lock i c m =>
    obtain ⟨⟨hpc,_⟩,rfl⟩ := guarded_eq_some.mp hst
    obtain ⟨hc,rfl,rfl⟩ : s.calls i = r+1 ∧ c = b ∧ m = n := by
      rcases h.members i ha with ⟨_,hp⟩ | ⟨hc,hp⟩ | ⟨_,hp⟩
      · simp [hpc] at hp
      · exact ⟨hc,by simpa [hpc] using hp⟩
      · simp [hpc] at hp
    left
    exact h.frame (by simp) (by simp) hother fun _ =>
      ⟨by simp [ArrivedIn,hpc,Act.thread],.inr (.inl ⟨hc,by simp [Act.thread]⟩)⟩
  | update i c m =>
    have hpc := (guarded_eq_some.mp hst).1
    obtain ⟨rfl,rfl⟩ : c = b ∧ m = n := by
      rcases h.members i ha with ⟨_,hp⟩ | ⟨_,hp⟩ | ⟨_,hp⟩
      · simp [hpc] at hp
      · simpa [hpc] using hp
      · simp [hpc] at hp
    exact h.update hn hint ha hst
  | unlock i c m =>
    obtain ⟨hpc,rfl⟩ := guarded_eq_some.mp hst
    obtain ⟨hc,rfl,rfl⟩ : (s.calls i = r ∨ s.calls i = r+1) ∧ c = b ∧ m = .wait := by
      rcases h.members i ha with ⟨hc,hp⟩ | ⟨_,hp⟩ | ⟨hc,hp⟩
      · exact ⟨.inl hc,by simpa [hpc] using hp⟩
      · simp [hpc] at hp
      · exact ⟨.inr hc,by simpa [hpc] using hp⟩
    left
    refine h.frame (by simp) (by simp) hother fun _ => ⟨?_,?_⟩
    · simp [ArrivedIn,hpc,Act.thread,afterUnlock]
    · cases hc with
      | inl hc => exact .inl ⟨hc,by simp [Act.thread,afterUnlock]⟩
      | inr hc => exact .inr (.inr ⟨hc,by simp [Act.thread,afterUnlock]⟩)
  | store i c =>
    obtain ⟨hpc,rfl⟩ := guarded_eq_some.mp hst
    exfalso
    rcases h.members i ha with ⟨_,hp⟩ | ⟨_,hp⟩ | ⟨_,hp⟩ <;> simp [hpc] at hp
  | load i c =>
    obtain ⟨hpc,rfl⟩ := guarded_eq_some.mp hst
    obtain ⟨hc,rfl⟩ : (s.calls i = r ∨ s.calls i = r+1) ∧ c = b := by
      rcases h.members i ha with ⟨hc,hp⟩ | ⟨_,hp⟩ | ⟨hc,hp⟩
      · exact ⟨.inl hc,by simpa [hpc] using hp⟩
      · simp [hpc] at hp
      · exact ⟨.inr hc,by simpa [hpc] using hp⟩
    left
    refine h.frame rfl rfl hother fun _ => ?_
    cases hc with
    | inl hc =>
      have hf : (s.bar c).flag = s.sense i := by rw [h.flag,hs i,hc]
      exact ⟨by simp [ArrivedIn,hc,Act.thread],.inl ⟨hc,by simp [Act.thread,hf]⟩⟩
    | inr hc =>
      -- the flag still has the sense of the round before
      have hf : (s.bar c).flag ≠ s.sense i := by
        rw [h.flag,hs i,hc]
        exact (senseAfter_ne r).symm
      have harr : ArrivedIn c r { s with
          pc := Function.update s.pc i
            (if (s.bar c).flag = s.sense i then .idle else .spin c) } i :=
        ⟨hc,by simp [hf]⟩
      exact ⟨⟨fun _ => ⟨hc,.inr hpc⟩,fun _ => harr⟩,.inr (.inr harr)⟩

theorem RoundClosing.step (h : RoundClosing team b r j s)
    (hs : ∀ i, s.sense i = senseAfter (s.calls i)) (hcard : 0 < team.card)
    (ha : a.thread ∈ team) (hst : step s a = some t) :
    RoundClosing team b r j t ∨ RoundOpen team b n (r+1) t := by
  have hother : ∀ i, i ≠ a.thread → t.pc i = s.pc i ∧ t.calls i = s.calls i := fun i hi =>
    ⟨(step_other hst hi).1,(step_other hst hi).2.1⟩
  obtain ⟨hc,hp⟩ := h.pc ha
  cases a with
  | enter i c m =>
    have hpc := (guarded_eq_some.mp hst).1
    simp [Act.thread,hpc] at hp
  | lock i c m =>
    have hpc := (guarded_eq_some.mp hst).1.1
    simp [Act.thread,hpc] at hp
  | update i c m =>
    have hpc := (guarded_eq_some.mp hst).1
    simp [Act.thread,hpc] at hp
  | unlock i c m =>
    obtain ⟨hpc,rfl⟩ := guarded_eq_some.mp hst
    left
    obtain rfl : c = b := by
      simp [Act.thread,hpc] at hp
      tauto
    refine h.frame (by simp) (by simp) hother (fun hij => ?_) fun _ hij => ?_
    · have hm : m = .last := by
        have hl := h.last.2
        rw [← show i = j from hij,hpc] at hl
        simpa using hl
      exact ⟨h.last.1,.inr (by simp [← show i = j from hij,hm,afterUnlock])⟩
    · have hm : m = .wait := by
        have hl := (h.others i ha hij).2
        rw [hpc] at hl
        simpa using hl
      exact ⟨hc,.inr (by simp [Act.thread,hm,afterUnlock])⟩
  | store i c =>
    obtain ⟨hpc,rfl⟩ := guarded_eq_some.mp hst
    right
    obtain rfl : c = b := by simpa [Act.thread,hpc] using hp
    have hij : i = j := by
      by_contra hij
      have hl := (h.others i ha hij).2
      simp [hpc] at hl
    subst hij
    have hnone : team.filter (ArrivedIn c (r+1) { s with
        bar := Function.update s.bar c { s.bar c with flag := s.sense i }
        pc := Function.update s.pc i .idle }) = ∅ := by
      refine Finset.filter_false_of_mem fun k hk harr => ?_
      have hck := (h.pc hk).1
      have := harr.1
      simp only at this
      omega
    refine ⟨?_,?_,?_,fun k hk => .inl ⟨(h.pc hk).1,?_⟩⟩
    · simp [hs i,h.last.1]
    · rw [hnone]
      simpa using h.count
    · rw [hnone]
      exact hcard
    · by_cases hki : k = i
      · simp [hki]
      · exact .inr (by simpa [hki] using (h.others k hk hki).2)
  | load i c =>
    obtain ⟨hpc,rfl⟩ := guarded_eq_some.mp hst
    left
    obtain rfl : c = b := by simpa [Act.thread,hpc] using hp
    have hij : i ≠ j := by
      rintro rfl
      have hl := h.last.2
      simp [hpc] at hl
    have hf : (s.bar c).flag ≠ s.sense i := by
      rw [h.flag,hs i,show s.calls i = r+1 from hc]
      exact (senseAfter_ne r).symm
    exact h.frame rfl rfl hother (fun hx => absurd hx hij) fun _ _ =>
      ⟨hc,by simp [Act.thread,hf]⟩

theorem RoundInv.step (h : RoundInv team b n s) (hn : n.toNat = team.card)
    (hint : team.card < 2^31) (hcard : 0 < team.card) (hok : UsesOnly team b n s a)
    (hst : step s a = some t) : RoundInv team b n t := by
  have hother : ∀ i, i ≠ a.thread → t.pc i = s.pc i ∧ t.calls i = s.calls i := fun i hi =>
    ⟨(step_other hst hi).1,(step_other hst hi).2.1⟩
  obtain ⟨r,hr⟩ := h.round
  by_cases ha : a.thread ∈ team
  · refine ⟨sense_step h.sense hst,fun i hi => ?_,?_⟩
    · rw [(hother i fun hx => hi (hx ▸ ha)).1]
      exact h.outside i hi
    · rcases hr with ho | ⟨j,hc⟩
      · rcases ho.step hn hint h.sense ha hok hst with ho | hc
        · exact ⟨r,.inl ho⟩
        · exact ⟨r,.inr ⟨_,hc⟩⟩
      · rcases hc.step h.sense hcard ha hst with hc | ho
        · exact ⟨r,.inr ⟨j,hc⟩⟩
        · exact ⟨r+1,.inl ho⟩
  · obtain ⟨hab,hon⟩ := on_ne_of_step hst (h.outside _ ha) hok ha
    have hbar := step_bar hst (Ne.symm hab)
    refine ⟨sense_step h.sense hst,fun i hi => ?_,r,?_⟩
    · by_cases hia : i = a.thread
      · rw [hia]
        exact hon
      · rw [(hother i hia).1]
        exact h.outside i hi
    · rcases hr with ho | ⟨j,hc⟩
      · exact .inl (ho.frame (by rw [hbar]) (by rw [hbar]) hother fun hx => absurd hx ha)
      · exact .inr ⟨j,hc.frame (by rw [hbar]) (by rw [hbar]) hother
          (fun hx => absurd (hx ▸ hc.mem) ha) fun hx => absurd hx ha⟩

theorem RoundInv.init {β ι : Type} [DecidableEq β] {team : Finset ι} {b : β} {n : Size}
    (hcard : 0 < team.card) : RoundInv team b n (init β ι) := by
  have hnone : team.filter (ArrivedIn b 0 (Barrier.init β ι)) = ∅ :=
    Finset.filter_false_of_mem fun k _ harr => absurd harr.1 (by simp [Barrier.init])
  refine ⟨fun _ => rfl,fun _ _ => by simp [Barrier.init,CallPc.on],0,.inl ⟨rfl,?_,?_,fun i _ => ?_⟩⟩
  · rw [hnone]
    rfl
  · rw [hnone]
    exact hcard
  · exact .inl ⟨rfl,.inl rfl⟩

end Steps

/-- Any number of rounds, for every interleaving. -/
theorem roundsKept (hn : n.toNat = team.card) (hcard : 0 < team.card) (hint : team.card < 2^31)
    (h : Reach step (UsesOnly team b n) (init β ι) s) : RoundsKept team b n s :=
  (h.invariant (I:=RoundInv team b n) (.init hcard) fun _ _ _ hi hok hst =>
    hi.step hn hint hcard hok hst).kept

/-- Two threads, the first of them in its second round before the second one has seen the flag. -/
def twoRounds : List (Act Unit Bool) :=
  [.enter false () 2,.lock false () 2,.update false () 2,.unlock false () .wait,.enter true () 2,
    .lock true () 2,.update true () 2,.unlock true () .last,.load false (),.store true (),
    .enter true () 2,.lock true () 2,.update true () 2,.unlock true () .wait,.load true (),
    .load false (),.enter false () 2,.lock false () 2,.update false () 2,.unlock false () .last,
    .store false (),.load true ()]

theorem roundsKept_twoRounds : ∃ s : State Unit Bool,
    returned s false = 2 ∧ returned s true = 2 ∧ RoundsKept Finset.univ () 2 s := by
  have hs : ∃ s, exec (restrict step (UsesOnly Finset.univ () 2)) (init Unit Bool) twoRounds =
      some s ∧ returned s false = 2 ∧ returned s true = 2 := ⟨_,rfl,rfl,rfl⟩
  obtain ⟨s,hs,h0,h1⟩ := hs
  exact ⟨s,h0,h1,roundsKept rfl (by simp) (by simp) (reach_of_exec_restrict hs)⟩

end Barrier
end Mthpc
