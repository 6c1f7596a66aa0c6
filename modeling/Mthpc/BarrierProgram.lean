import Mthpc.BarrierReuse
import Mthpc.Settles

/-!
# A team that goes through a sequence of barriers

The threads of a team start with sense 0 and call the barriers of a program one after the
other. All barriers toggle the same local sense, so a barrier keeps a use together only if its
flag is not yet at the sense of that use, which depends on how many calls lie between two uses
of it. From a program in which every use fits, the team comes through; in any other one a
thread runs ahead of the team.
-/
namespace Mthpc
namespace Barrier

open StepSystem

variable {β ι : Type} [DecidableEq β] [DecidableEq ι]

/-- The threads of the team make the first `len` calls of the program; the others stay away from
its barriers. -/
def Follows (team : Finset ι) (prog : ℕ → β) (len : ℕ) (n : Size) (s : State β ι) :
    Act β ι → Prop
  | .enter i c m =>
    if i ∈ team then s.calls i < len ∧ c = prog (s.calls i) ∧ m = n else ∀ k, c ≠ prog k
  | _ => True

/-- An instruction of the team that is not a load of the old flag. -/
def Onward (team : Finset ι) (prog : ℕ → β) (len : ℕ) (n : Size) (s : State β ι) (a : Act β ι) :
    Prop :=
  a.thread ∈ team ∧ Follows team prog len n s a ∧
    ∀ i c, a = .load i c → (s.bar c).flag = s.sense i

/-- Nobody has returned from a use that somebody has not entered. -/
def Together (team : Finset ι) (s : State β ι) : Prop :=
  ∀ i ∈ team, ∀ j ∈ team, returned s i ≤ s.calls j

/-- Everybody has returned from the last call of the program. -/
def Finished (team : Finset ι) (len : ℕ) (s : State β ι) : Prop :=
  ∀ i ∈ team, s.calls i = len ∧ s.pc i = .idle

/-- Use `r` of the program fits: the last earlier use of its barrier, if there is one, is an odd
number of calls ago, and otherwise the number of calls before it is even. -/
def Fits (prog : ℕ → β) (r : ℕ) : Prop :=
  (∀ k < r, prog k = prog r → (∀ m, k < m → m < r → prog m ≠ prog r) → Odd (r-k)) ∧
    ((∀ k < r, prog k ≠ prog r) → Even r)

/-- The flag of `c` after the first `r` uses. -/
def flagAt (prog : ℕ → β) (c : β) : ℕ → BitVec 32
  | 0 => 0
  | r+1 => if prog r = c then senseAfter (r+1) else flagAt prog c r

/-- A thread that has been released from use `r-1`, or has not noticed yet. -/
def Leaving (prog : ℕ → β) (r : ℕ) (s : State β ι) (i : ι) : Prop :=
  s.calls i = r ∧
    (s.pc i = .idle ∨
      0 < r ∧ (s.pc i = .unlock (prog (r-1)) .wait ∨ s.pc i = .spin (prog (r-1))))

/-- Use `r` while somebody is missing. -/
structure TurnOpen (team : Finset ι) (prog : ℕ → β) (len : ℕ) (n : Size) (r : ℕ)
    (s : State β ι) : Prop where
  flags : ∀ k, (s.bar (prog k)).flag = flagAt prog (prog k) r
  counts : ∀ k, (s.bar (prog k)).count =
    if prog k = prog r then BitVec.ofNat 32 (team.filter (ArrivedIn (prog r) r s)).card else 0
  missing : (team.filter (ArrivedIn (prog r) r s)).card < team.card
  members : ∀ i ∈ team, Leaving prog r s i ∨
    r < len ∧ (Arriving (prog r) n r s i ∨ ArrivedIn (prog r) r s i)

/-- Use `r` from its last arrival, by `j`, to the flag store. -/
structure TurnClosing (team : Finset ι) (prog : ℕ → β) (r : ℕ) (j : ι) (s : State β ι) :
    Prop where
  flags : ∀ k, (s.bar (prog k)).flag = flagAt prog (prog k) r
  counts : ∀ k, (s.bar (prog k)).count = 0
  mem : j ∈ team
  last : s.calls j = r+1 ∧ (s.pc j = .unlock (prog r) .last ∨ s.pc j = .store (prog r))
  others : ∀ i ∈ team, i ≠ j → ArrivedIn (prog r) r s i

def LocksKept (s : State β ι) : Prop :=
  ∀ c i, (s.bar c).lock = some i → (∃ n, s.pc i = .update c n) ∨ ∃ a, s.pc i = .unlock c a

structure ProgramInv (team : Finset ι) (prog : ℕ → β) (len : ℕ) (n : Size) (s : State β ι) :
    Prop where
  sense : ∀ i, s.sense i = senseAfter (s.calls i)
  locks : LocksKept s
  outside : ∀ i ∉ team, ∀ k, (s.pc i).on ≠ some (prog k)
  turn : (∃ r ≤ len, TurnOpen team prog len n r s) ∨ ∃ r < len, ∃ j, TurnClosing team prog r j s

variable {team : Finset ι} {prog : ℕ → β} {len : ℕ} {n : Size} {r : ℕ} {s t : State β ι}
  {a : Act β ι} {i j : ι}

section Flags

theorem senseAfter_eq_iff (k r : ℕ) : senseAfter k = senseAfter r ↔ (Even k ↔ Even r) := by
  rw [senseAfter_eq,senseAfter_eq]
  by_cases hk : Even k <;> by_cases hr : Even r <;> simp [hk,hr]

theorem senseAfter_succ_of_ne {k r : ℕ} (h : senseAfter k ≠ senseAfter r) :
    senseAfter k = senseAfter (r+1) := by
  rw [ne_eq,senseAfter_eq_iff] at h
  rw [senseAfter_eq_iff,Nat.even_add_one]
  tauto

theorem flagAt_cases (prog : ℕ → β) (c : β) (r : ℕ) :
    (∀ k < r, prog k ≠ c) ∧ flagAt prog c r = senseAfter 0 ∨
      ∃ k < r, prog k = c ∧ (∀ m, k < m → m < r → prog m ≠ c) ∧
        flagAt prog c r = senseAfter (k+1) := by
  induction r with
  | zero => exact .inl ⟨fun k hk => absurd hk k.not_lt_zero,rfl⟩
  | succ r ih =>
    by_cases hc : prog r = c
    · refine .inr ⟨r,r.lt_succ_self,hc,fun m hm hm' => ?_,by simp [flagAt,hc]⟩
      omega
    · have hlast : ∀ m < r+1, r ≤ m → prog m ≠ c := by
        intro m hm hrm
        rwa [show m = r by omega]
      rcases ih with ⟨hnone,hf⟩ | ⟨k,hk,hkc,hno,hf⟩
      · refine .inl ⟨fun k hk => ?_,by simp [flagAt,hc,hf]⟩
        by_cases hkr : k < r
        · exact hnone k hkr
        · exact hlast k hk (by omega)
      · refine .inr ⟨k,by omega,hkc,fun m hm hm' => ?_,by simp [flagAt,hc,hf]⟩
        by_cases hmr : m < r
        · exact hno m hm hmr
        · exact hlast m hm' (by omega)

/-- A use fits when the flag of its barrier has the sense that the threads had before it. -/
theorem fits_iff (prog : ℕ → β) (r : ℕ) : Fits prog r ↔ flagAt prog (prog r) r = senseAfter r := by
  rcases flagAt_cases prog (prog r) r with ⟨hnone,hf⟩ | ⟨k,hk,hkr,hno,hf⟩
  · rw [hf,senseAfter_eq_iff]
    constructor
    · intro h
      simpa using h.2 hnone
    · intro h
      exact ⟨fun k hk hkr => absurd hkr (hnone k hk),fun _ => by simpa using h⟩
  · have hodd : Odd (r-k) ↔ (Even (k+1) ↔ Even r) := by
      rw [Nat.odd_sub hk.le,Nat.even_add_one,← Nat.not_even_iff_odd]
      tauto
    rw [hf,senseAfter_eq_iff,← hodd]
    constructor
    · intro h
      exact h.1 k hk hkr hno
    · intro h
      refine ⟨fun m hm hmr hno' => ?_,fun hnone => absurd hkr (hnone k hk)⟩
      rcases lt_trichotomy m k with hlt | rfl | hlt
      · exact absurd hkr (hno' k hlt hk)
      · exact h
      · exact absurd hmr (hno m hlt hm)

instance (prog : ℕ → β) (r : ℕ) : Decidable (Fits prog r) :=
  decidable_of_iff _ (fits_iff prog r).symm

theorem flagAt_last (prog : ℕ → β) (hr : 0 < r) : flagAt prog (prog (r-1)) r = senseAfter r := by
  cases r with
  | zero => omega
  | succ r => simp [flagAt]

end Flags

section Locks

theorem LocksKept.step (h : LocksKept s) (hst : step s a = some t) : LocksKept t := by
  intro c i hl
  have hother : i ≠ a.thread → t.pc i = s.pc i := fun hi => (step_other hst hi).1
  cases a with
  | enter j d m =>
    obtain ⟨hpc,rfl⟩ := guarded_eq_some.mp hst
    by_cases hi : i = j
    · have hs := h c i hl
      simp [hi,hpc] at hs
    · rw [hother hi]
      exact h c i hl
  | lock j d m =>
    obtain ⟨⟨hpc,_⟩,rfl⟩ := guarded_eq_some.mp hst
    by_cases hc : c = d
    · subst hc
      obtain rfl : j = i := by simpa using hl
      simp
    · have hs := h c i (by simpa [hc] using hl)
      by_cases hi : i = j
      · simp [hi,hpc] at hs
      · rw [hother hi]
        exact hs
  | update j d m =>
    obtain ⟨hpc,rfl⟩ := guarded_eq_some.mp hst
    have hs := h c i (by by_cases hc : c = d <;> simpa [hc] using hl)
    by_cases hi : i = j
    · subst hi
      obtain rfl : d = c := by simpa [hpc] using hs
      simp
    · rw [hother hi]
      exact hs
  | unlock j d m =>
    obtain ⟨hpc,rfl⟩ := guarded_eq_some.mp hst
    by_cases hc : c = d
    · simp [hc] at hl
    · have hs := h c i (by simpa [hc] using hl)
      by_cases hi : i = j
      · subst hi
        simp only [hpc,reduceCtorEq,exists_false,false_or,CallPc.unlock.injEq] at hs
        exact absurd hs.choose_spec.1.symm hc
      · rw [hother hi]
        exact hs
  | store j d =>
    obtain ⟨hpc,rfl⟩ := guarded_eq_some.mp hst
    have hs := h c i (by by_cases hc : c = d <;> simpa [hc] using hl)
    by_cases hi : i = j
    · simp [hi,hpc] at hs
    · rw [hother hi]
      exact hs
  | load j d =>
    obtain ⟨hpc,rfl⟩ := guarded_eq_some.mp hst
    have hs := h c i hl
    by_cases hi : i = j
    · simp [hi,hpc] at hs
    · rw [hother hi]
      exact hs

end Locks

section Frame

theorem TurnOpen.frame (h : TurnOpen team prog len n r s)
    (hbar : ∀ k, (t.bar (prog k)).flag = (s.bar (prog k)).flag ∧
      (t.bar (prog k)).count = (s.bar (prog k)).count)
    (hother : ∀ i, i ≠ j → t.pc i = s.pc i ∧ t.calls i = s.calls i)
    (hj : j ∈ team → (ArrivedIn (prog r) r t j ↔ ArrivedIn (prog r) r s j) ∧
      (Leaving prog r t j ∨
        r < len ∧ (Arriving (prog r) n r t j ∨ ArrivedIn (prog r) r t j))) :
    TurnOpen team prog len n r t := by
  have harr : team.filter (ArrivedIn (prog r) r t) = team.filter (ArrivedIn (prog r) r s) := by
    apply Finset.filter_congr
    intro i hi
    by_cases hij : i = j
    · subst hij
      exact (hj hi).1
    · rw [ArrivedIn,ArrivedIn,(hother i hij).1,(hother i hij).2]
  refine ⟨fun k => (hbar k).1.trans (h.flags k),fun k => ?_,?_,fun i hi => ?_⟩
  · rw [(hbar k).2,h.counts,harr]
  · rw [harr]
    exact h.missing
  · by_cases hij : i = j
    · subst hij
      exact (hj hi).2
    · simpa only [Leaving,Arriving,ArrivedIn,(hother i hij).1,(hother i hij).2] using h.members i hi

theorem TurnClosing.frame {k : ι} (h : TurnClosing team prog r k s)
    (hbar : ∀ k, (t.bar (prog k)).flag = (s.bar (prog k)).flag ∧
      (t.bar (prog k)).count = (s.bar (prog k)).count)
    (hother : ∀ i, i ≠ j → t.pc i = s.pc i ∧ t.calls i = s.calls i)
    (hlast : j = k → t.calls k = r+1 ∧
      (t.pc k = .unlock (prog r) .last ∨ t.pc k = .store (prog r)))
    (hj : j ∈ team → j ≠ k → ArrivedIn (prog r) r t j) : TurnClosing team prog r k t := by
  refine ⟨fun k => (hbar k).1.trans (h.flags k),fun k => (hbar k).2.trans (h.counts k),h.mem,?_,
    fun i hi hik => ?_⟩
  · by_cases hjk : j = k
    · exact hlast hjk
    · rw [(hother k (Ne.symm hjk)).1,(hother k (Ne.symm hjk)).2]
      exact h.last
  · by_cases hij : i = j
    · subst hij
      exact hj hi hik
    · rw [ArrivedIn,(hother i hij).1,(hother i hij).2]
      exact h.others i hi hik

theorem TurnClosing.pc (h : TurnClosing team prog r j s) (hi : i ∈ team) :
    s.calls i = r+1 ∧ (s.pc i = .unlock (prog r) .last ∨ s.pc i = .store (prog r) ∨
      s.pc i = .unlock (prog r) .wait ∨ s.pc i = .spin (prog r)) := by
  by_cases hij : i = j
  · subst hij
    exact ⟨h.last.1,h.last.2.imp_right .inl⟩
  · have ha := h.others i hi hij
    exact ⟨ha.1,.inr (.inr ha.2)⟩

theorem lock_bar {β ι : Type} [DecidableEq β] (s : State β ι) (d : β) (l : Option ι) (c : β) :
    (Function.update s.bar d { s.bar d with lock := l } c).flag = (s.bar c).flag ∧
      (Function.update s.bar d { s.bar d with lock := l } c).count = (s.bar c).count := by
  by_cases hc : c = d
  · subst hc
    simp
  · simp [hc]

theorem away_of_step (hst : step s a = some t) (hon : ∀ k, (s.pc a.thread).on ≠ some (prog k))
    (hok : Follows team prog len n s a) (ha : a.thread ∉ team) (k : ℕ) :
    prog k ≠ a.on ∧ (t.pc a.thread).on ≠ some (prog k) := by
  have hab : a.on ≠ prog k := by
    cases a with
    | enter i c m =>
      simp only [Follows,show i ∉ team from ha,if_false] at hok
      exact hok k
    | lock i c m =>
      obtain ⟨⟨hp,_⟩,_⟩ := guarded_eq_some.mp hst
      simpa [Act.on,Act.thread,hp,CallPc.on] using hon k
    | update i c m | unlock i c m | store i c | load i c =>
      obtain ⟨hp,_⟩ := guarded_eq_some.mp hst
      simpa [Act.on,Act.thread,hp,CallPc.on] using hon k
  refine ⟨hab.symm,?_⟩
  rcases step_on hst with h | h <;> rw [h] <;> simp [hab]

end Frame

section Steps

theorem TurnOpen.update (h : TurnOpen team prog len n r s) (hn : n.toNat = team.card)
    (hint : team.card < 2^31) (hi : i ∈ team) (hc : s.calls i = r+1) (hr : r < len)
    (hst : step s (.update i (prog r) n) = some t) :
    TurnOpen team prog len n r t ∨ TurnClosing team prog r i t := by
  obtain ⟨hpc,rfl⟩ := guarded_eq_some.mp hst
  let A := team.filter (ArrivedIn (prog r) r s)
  have hiA : i ∉ A := by simp [A,ArrivedIn,hpc]
  have hsub : insert i A ⊆ team := Finset.insert_subset hi (Finset.filter_subset _ _)
  have hcard : (insert i A).card = A.card+1 := Finset.card_insert_of_notMem hiA
  have hle := Finset.card_le_card hsub
  have hcount : (s.bar (prog r)).count+1 = BitVec.ofNat 32 (A.card+1) := by
    rw [h.counts,if_pos rfl,BitVec.ofNat_add]
    rfl
  by_cases hall : A.card+1 = n.toNat
  · right
    have heq : insert i A = team := Finset.eq_of_subset_of_card_le hsub (by omega)
    have harm : arm ((s.bar (prog r)).count+1) n = .last := by
      rw [hcount]
      exact arm_last hall (by omega)
    rw [harm]
    refine ⟨fun k => ?_,fun k => ?_,hi,⟨hc,by simp⟩,fun k hk hki => ?_⟩
    · by_cases hk : prog k = prog r
      · simpa [hk] using h.flags r
      · simpa [hk] using h.flags k
    · by_cases hk : prog k = prog r
      · simp [hk]
      · simpa [hk] using h.counts k
    · rw [← heq] at hk
      have hkA := (Finset.mem_insert.mp hk).resolve_left hki
      simpa [ArrivedIn,hki] using (Finset.mem_filter.mp hkA).2
  · left
    have harm : arm ((s.bar (prog r)).count+1) n = .wait := by
      rw [hcount]
      exact arm_wait (by omega) (by omega)
    rw [harm]
    have hfilter : team.filter (ArrivedIn (prog r) r { s with
        bar := Function.update s.bar (prog r) { s.bar (prog r) with
          count := if Arm.wait = .last then 0 else (s.bar (prog r)).count+1 }
        pc := Function.update s.pc i (.unlock (prog r) .wait) }) = insert i A := by
      ext k
      by_cases hk : k = i
      · subst hk
        simp [ArrivedIn,hi,hc]
      · simp [A,ArrivedIn,hk]
    refine ⟨fun k => ?_,fun k => ?_,?_,fun k hk => ?_⟩
    · by_cases hk : prog k = prog r
      · simpa [hk] using h.flags r
      · simpa [hk] using h.flags k
    · rw [hfilter,hcard]
      by_cases hk : prog k = prog r
      · simpa [hk] using hcount
      · simpa [hk] using h.counts k
    · rw [hfilter,hcard]
      omega
    · by_cases hki : k = i
      · subst hki
        exact .inr ⟨hr,.inr ⟨hc,by simp⟩⟩
      · simpa [Leaving,Arriving,ArrivedIn,hki] using h.members k hk

/-- A thread that stands in the waiting arm is leaving the use before or has arrived in this one. -/
theorem TurnOpen.waiting {β ι : Type} [DecidableEq β] {team : Finset ι} {prog : ℕ → β} {len : ℕ}
    {n : Size} {r : ℕ} {s : State β ι} {i : ι} (h : TurnOpen team prog len n r s) (hi : i ∈ team)
    {c : β} (hpc : s.pc i = .unlock c .wait ∨ s.pc i = .spin c) :
    (s.calls i = r ∧ 0 < r ∧ c = prog (r-1)) ∨ s.calls i = r+1 ∧ r < len ∧ c = prog r := by
  rcases h.members i hi with ⟨hc,hp⟩ | ⟨hr,⟨hc,hp⟩ | ⟨hc,hp⟩⟩
  · left
    rcases hpc with hpc | hpc <;> simp [hpc] at hp <;> exact ⟨hc,hp⟩
  · rcases hpc with hpc | hpc <;> simp [hpc] at hp
  · right
    rcases hpc with hpc | hpc <;> simp [hpc] at hp <;> exact ⟨hc,hr,hp⟩

theorem TurnOpen.step (h : TurnOpen team prog len n r s) (hfit : r < len → Fits prog r)
    (hn : n.toNat = team.card) (hint : team.card < 2^31)
    (hs : ∀ i, s.sense i = senseAfter (s.calls i)) (ha : a.thread ∈ team)
    (hok : Follows team prog len n s a) (hst : step s a = some t) :
    TurnOpen team prog len n r t ∨ r < len ∧ TurnClosing team prog r a.thread t := by
  have hother : ∀ i, i ≠ a.thread → t.pc i = s.pc i ∧ t.calls i = s.calls i := fun i hi =>
    ⟨(step_other hst hi).1,(step_other hst hi).2.1⟩
  cases a with
  | enter i c m =>
    obtain ⟨hlt,rfl,rfl⟩ : s.calls i < len ∧ c = prog (s.calls i) ∧ m = n := by
      simpa [Follows,show i ∈ team from ha] using hok
    obtain ⟨hpc,rfl⟩ := guarded_eq_some.mp hst
    left
    have hc : s.calls i = r := by
      rcases h.members i ha with ⟨hc,_⟩ | ⟨_,⟨_,hp⟩ | ⟨_,hp⟩⟩
      · exact hc
      · simp [hpc] at hp
      · simp [hpc] at hp
    refine h.frame (fun _ => ⟨rfl,rfl⟩) hother fun _ => ?_
    exact ⟨by simp [ArrivedIn,hpc,Act.thread],
      .inr ⟨hc ▸ hlt,.inl ⟨by simp [hc,Act.thread],by simp [hc,Act.thread]⟩⟩⟩
  | lock i c m =>
    obtain ⟨⟨hpc,_⟩,rfl⟩ := guarded_eq_some.mp hst
    obtain ⟨hr,hc,rfl,rfl⟩ : r < len ∧ s.calls i = r+1 ∧ c = prog r ∧ m = n := by
      rcases h.members i ha with ⟨_,hp⟩ | ⟨hr,⟨hc,hp⟩ | ⟨_,hp⟩⟩
      · simp [hpc] at hp
      · exact ⟨hr,hc,by simpa [hpc] using hp⟩
      · simp [hpc] at hp
    left
    apply h.frame (fun k => lock_bar s _ _ _) hother
    intro _
    exact ⟨by simp [ArrivedIn,hpc,Act.thread],.inr ⟨hr,.inl ⟨hc,by simp [Act.thread]⟩⟩⟩
  | update i c m =>
    have hpc := (guarded_eq_some.mp hst).1
    obtain ⟨hr,hc,rfl,rfl⟩ : r < len ∧ s.calls i = r+1 ∧ c = prog r ∧ m = n := by
      rcases h.members i ha with ⟨_,hp⟩ | ⟨hr,⟨hc,hp⟩ | ⟨_,hp⟩⟩
      · simp [hpc] at hp
      · exact ⟨hr,hc,by simpa [hpc] using hp⟩
      · simp [hpc] at hp
    rcases h.update hn hint ha hc hr hst with ho | hcl
    · exact .inl ho
    · exact .inr ⟨hr,hcl⟩
  | unlock i c m =>
    obtain ⟨hpc,rfl⟩ := guarded_eq_some.mp hst
    left
    obtain rfl : m = .wait := by
      rcases h.members i ha with ⟨_,hp⟩ | ⟨_,⟨_,hp⟩ | ⟨_,hp⟩⟩ <;> simp [hpc] at hp
      · exact hp.2.2
      · exact hp.2
    apply h.frame (fun k => lock_bar s _ _ _) hother
    intro _
    refine ⟨by simp [ArrivedIn,hpc,Act.thread,afterUnlock],?_⟩
    rcases h.waiting (i:=i) ha (.inl hpc) with ⟨hc,hr,rfl⟩ | ⟨hc,hr,rfl⟩
    · exact .inl ⟨hc,.inr ⟨hr,by simp [Act.thread,afterUnlock]⟩⟩
    · exact .inr ⟨hr,.inr ⟨hc,by simp [Act.thread,afterUnlock]⟩⟩
  | store i c =>
    have hpc := (guarded_eq_some.mp hst).1
    exfalso
    rcases h.members i ha with ⟨_,hp⟩ | ⟨_,⟨_,hp⟩ | ⟨_,hp⟩⟩ <;> simp [hpc] at hp
  | load i c =>
    obtain ⟨hpc,rfl⟩ := guarded_eq_some.mp hst
    left
    refine h.frame (fun _ => ⟨rfl,rfl⟩) hother fun _ => ?_
    rcases h.waiting (i:=i) ha (.inr hpc) with ⟨hc,hr,rfl⟩ | ⟨hc,hr,rfl⟩
    · -- the barrier of the use before was the last one to be stored to
      have hf : (s.bar (prog (r-1))).flag = s.sense i := by rw [h.flags,flagAt_last prog hr,hs i,hc]
      exact ⟨by simp [ArrivedIn,hc,Act.thread],.inl ⟨hc,.inl (by simp [Act.thread,hf])⟩⟩
    · -- the use fits, so the flag still has the sense that the threads had before it
      have hf : (s.bar (prog r)).flag ≠ s.sense i := by
        rw [h.flags,(fits_iff prog r).mp (hfit hr),hs i,hc]
        exact (senseAfter_ne r).symm
      have harr : ArrivedIn (prog r) r { s with
          pc := Function.update s.pc i
            (if (s.bar (prog r)).flag = s.sense i then .idle else .spin (prog r)) } i :=
        ⟨hc,by simp [hf]⟩
      exact ⟨⟨fun _ => ⟨hc,.inr hpc⟩,fun _ => harr⟩,.inr ⟨hr,.inr harr⟩⟩

theorem TurnClosing.step (h : TurnClosing team prog r j s) (hfit : Fits prog r)
    (hs : ∀ i, s.sense i = senseAfter (s.calls i)) (ha : a.thread ∈ team)
    (hst : step s a = some t) : TurnClosing team prog r j t ∨ TurnOpen team prog len n (r+1) t := by
  have hother : ∀ i, i ≠ a.thread → t.pc i = s.pc i ∧ t.calls i = s.calls i := fun i hi =>
    ⟨(step_other hst hi).1,(step_other hst hi).2.1⟩
  obtain ⟨hc,hp⟩ := h.pc ha
  cases a with
  | enter i c m =>
    have hpc := (guarded_eq_some.mp hst).1
    simp [Act.thread,hpc] at hp
  | lock i c m =>
    have hpc := (guarded_eq_some.mp hst).1.1
    simp [Act.thread,hpc] at hp
  | update i c m =>
    have hpc := (guarded_eq_some.mp hst).1
    simp [Act.thread,hpc] at hp
  | unlock i c m =>
    obtain ⟨hpc,rfl⟩ := guarded_eq_some.mp hst
    left
    obtain rfl : c = prog r := by
      simp [Act.thread,hpc] at hp
      tauto
    refine h.frame (fun k => lock_bar s _ _ _) hother (fun hij => ?_) fun _ hij => ?_
    · have hm : m = .last := by
        have hl := h.last.2
        rw [← show i = j from hij,hpc] at hl
        simpa using hl
      exact ⟨h.last.1,.inr (by simp [← show i = j from hij,hm,afterUnlock])⟩
    · have hm : m = .wait := by
        have hl := (h.others i ha hij).2
        rw [hpc] at hl
        simpa using hl
      exact ⟨hc,.inr (by simp [Act.thread,hm,afterUnlock])⟩
  | store i c =>
    obtain ⟨hpc,rfl⟩ := guarded_eq_some.mp hst
    right
    obtain rfl : c = prog r := by simpa [Act.thread,hpc] using hp
    have hij : i = j := by
      by_contra hij
      have hl := (h.others i ha hij).2
      simp [hpc] at hl
    subst hij
    have hnone : team.filter (ArrivedIn (prog (r+1)) (r+1) { s with
        bar := Function.update s.bar (prog r) { s.bar (prog r) with flag := s.sense i }
        pc := Function.update s.pc i .idle }) = ∅ := by
      apply Finset.filter_false_of_mem
      intro k hk harr
      have hck := (h.pc hk).1
      have := harr.1
      simp only at this
      omega
    refine ⟨fun k => ?_,fun k => ?_,?_,fun k hk => .inl ⟨(h.pc hk).1,?_⟩⟩
    · by_cases hk : prog k = prog r
      · simp [hk,flagAt,hs i,h.last.1]
      · simpa [hk,Ne.symm hk,flagAt] using h.flags k
    · rw [hnone]
      by_cases hk : prog k = prog r
      · simpa [hk] using h.counts r
      · simpa [hk] using h.counts k
    · rw [hnone]
      exact Finset.card_pos.mpr ⟨i,h.mem⟩
    · by_cases hki : k = i
      · simp [hki]
      · exact .inr ⟨r.succ_pos,by simpa [hki] using (h.others k hk hki).2⟩
  | load i c =>
    obtain ⟨hpc,rfl⟩ := guarded_eq_some.mp hst
    left
    obtain rfl : c = prog r := by simpa [Act.thread,hpc] using hp
    have hij : i ≠ j := by
      intro hij
      have hl := h.last.2
      simp [← hij,hpc] at hl
    have hf : (s.bar (prog r)).flag ≠ s.sense i := by
      rw [h.flags,(fits_iff prog r).mp hfit,hs i,show s.calls i = r+1 from hc]
      exact (senseAfter_ne r).symm
    exact h.frame (fun _ => ⟨rfl,rfl⟩) hother (fun hx => absurd hx hij) fun _ _ =>
      ⟨hc,by simp [Act.thread,hf]⟩

theorem ProgramInv.step (h : ProgramInv team prog len n s) (hfit : ∀ r < len, Fits prog r)
    (hn : n.toNat = team.card) (hint : team.card < 2^31)
    (hok : Follows team prog len n s a) (hst : step s a = some t) :
    ProgramInv team prog len n t := by
  have hother : ∀ i, i ≠ a.thread → t.pc i = s.pc i ∧ t.calls i = s.calls i := fun i hi =>
    ⟨(step_other hst hi).1,(step_other hst hi).2.1⟩
  by_cases ha : a.thread ∈ team
  · refine ⟨sense_step h.sense hst,h.locks.step hst,fun i hi k => ?_,?_⟩
    · rw [(hother i fun hx => hi (hx ▸ ha)).1]
      exact h.outside i hi k
    · rcases h.turn with ⟨r,hr,ho⟩ | ⟨r,hr,j,hc⟩
      · rcases ho.step (hfit r) hn hint h.sense ha hok hst with ho | ⟨hr,hc⟩
        · exact .inl ⟨r,hr,ho⟩
        · exact .inr ⟨r,hr,_,hc⟩
      · rcases hc.step (hfit r hr) h.sense ha hst with hc | ho
        · exact .inr ⟨r,hr,j,hc⟩
        · exact .inl ⟨r+1,hr,ho⟩
  · have haway := away_of_step hst (h.outside _ ha) hok ha
    have hbar : ∀ k, (t.bar (prog k)).flag = (s.bar (prog k)).flag ∧
        (t.bar (prog k)).count = (s.bar (prog k)).count := fun k => by
      rw [step_bar hst (haway k).1]
      exact ⟨rfl,rfl⟩
    refine ⟨sense_step h.sense hst,h.locks.step hst,fun i hi k => ?_,?_⟩
    · by_cases hia : i = a.thread
      · rw [hia]
        exact (haway k).2
      · rw [(hother i hia).1]
        exact h.outside i hi k
    · rcases h.turn with ⟨r,hr,ho⟩ | ⟨r,hr,j,hc⟩
      · exact .inl ⟨r,hr,ho.frame hbar hother fun hx => absurd hx ha⟩
      · exact .inr ⟨r,hr,j,hc.frame hbar hother (fun hx => absurd (hx ▸ hc.mem) ha)
          fun hx => absurd hx ha⟩

theorem ProgramInv.init {β ι : Type} [DecidableEq β] {team : Finset ι} {prog : ℕ → β} {len : ℕ}
    {n : Size} (hcard : 0 < team.card) : ProgramInv team prog len n (Barrier.init β ι) := by
  have hnone : team.filter (ArrivedIn (prog 0) 0 (Barrier.init β ι)) = ∅ := by
    apply Finset.filter_false_of_mem
    intro k _ harr
    exact absurd harr.1 (by simp [Barrier.init])
  refine ⟨fun _ => rfl,fun c i hl => ?_,fun _ _ _ => by simp [Barrier.init,CallPc.on],
    .inl ⟨0,len.zero_le,fun _ => rfl,fun k => ?_,?_,fun i _ => .inl ⟨rfl,.inl rfl⟩⟩⟩
  · cases hl
  · rw [hnone]
    simp [Barrier.init,barrierInit]
  · rw [hnone]
    exact hcard

theorem ProgramInv.of_reach (hfit : ∀ r < len, Fits prog r) (hn : n.toNat = team.card)
    (hcard : 0 < team.card) (hint : team.card < 2^31)
    (h : Reach Barrier.step (Follows team prog len n) (Barrier.init β ι) s) :
    ProgramInv team prog len n s :=
  h.invariant (I:=ProgramInv team prog len n) (.init hcard) fun _ _ _ hi hok hst =>
    hi.step hfit hn hint hok hst

theorem ProgramInv.together (h : ProgramInv team prog len n s) : Together team s := by
  have hret : ∀ i c, s.calls i = c+1 → s.pc i ≠ .idle → returned s i = c := fun i c hc hp => by
    rw [returned,if_neg hp,hc]
    rfl
  rcases h.turn with ⟨r,_,ho⟩ | ⟨r,_,k,hc⟩
  · have hle : ∀ i ∈ team, returned s i ≤ r ∧ r ≤ s.calls i := by
      intro i hi
      rcases ho.members i hi with ⟨hc,_⟩ | ⟨_,⟨hc,hp⟩ | ⟨hc,hp⟩⟩
      · refine ⟨?_,hc.ge⟩
        unfold returned
        split <;> omega
      · have hne : s.pc i ≠ .idle := by rcases hp with hp | hp <;> simp [hp]
        exact ⟨(hret i r hc hne).le,by omega⟩
      · have hne : s.pc i ≠ .idle := by rcases hp with hp | hp <;> simp [hp]
        exact ⟨(hret i r hc hne).le,by omega⟩
    intro i hi j hj
    exact (hle i hi).1.trans (hle j hj).2
  · intro i hi j hj
    obtain ⟨hci,hpi⟩ := hc.pc hi
    have hne : s.pc i ≠ .idle := by rcases hpi with hp | hp | hp | hp <;> simp [hp]
    rw [hret i r hci hne,(hc.pc hj).1]
    exact r.le_succ

end Steps

section Ends

/-- The instructions a call has before it when it stands there. -/
def CallPc.left : CallPc β → ℕ
  | .idle => 0
  | .lock _ _ => 4
  | .update _ _ => 3
  | .unlock _ _ => 2
  | .store _ | .spin _ => 1

def cost (team : Finset ι) (len : ℕ) (s : State β ι) : ℕ :=
  ∑ i ∈ team, (5*(len-s.calls i)+(s.pc i).left)

theorem left_step (hne : a.isEnter = false)
    (hload : ∀ i c, a = .load i c → (s.bar c).flag = s.sense i) (hst : step s a = some t) :
    (t.pc a.thread).left < (s.pc a.thread).left := by
  cases a with
  | enter i c m => cases hne
  | lock i c m =>
    obtain ⟨⟨hpc,_⟩,rfl⟩ := guarded_eq_some.mp hst
    simp [Act.thread,CallPc.left,hpc]
  | update i c m | store i c =>
    obtain ⟨hpc,rfl⟩ := guarded_eq_some.mp hst
    simp [Act.thread,CallPc.left,hpc]
  | unlock i c m =>
    obtain ⟨hpc,rfl⟩ := guarded_eq_some.mp hst
    cases m <;> simp [Act.thread,afterUnlock,CallPc.left,hpc]
  | load i c =>
    obtain ⟨hpc,rfl⟩ := guarded_eq_some.mp hst
    simp [Act.thread,CallPc.left,hpc,hload i c rfl]

theorem cost_step (hok : Onward team prog len n s a) (hst : step s a = some t) :
    cost team len t < cost team len s := by
  obtain ⟨ha,hf,hload⟩ := hok
  refine sum_lt_of_one a.thread ha ?_ fun i _ hi => ?_
  · cases he : a.isEnter with
    | true =>
      cases a with
      | enter i c m =>
        simp only [Follows,show i ∈ team from ha,if_true] at hf
        obtain ⟨hpc,rfl⟩ := guarded_eq_some.mp hst
        simp only [Act.thread,Function.update_self,CallPc.left,hpc]
        omega
      | _ => cases he
    | false =>
      have hleft := left_step he hload hst
      rw [step_calls hst he]
      omega
  · rw [(step_other hst hi).1,(step_other hst hi).2.1]

theorem ProgramInv.finished (h : ProgramInv team prog len n s)
    (hstop : ∀ a, Onward team prog len n s a → Barrier.step s a = none) : Finished team len s := by
  have hupdate : ∀ i ∈ team, ∀ c m, s.pc i ≠ .update c m := fun i hi c m hp => by
    have := hstop (.update i c m) ⟨hi,trivial,by simp⟩
    simp [Barrier.step,hp] at this
  have hunlock : ∀ i ∈ team, ∀ c m, s.pc i ≠ .unlock c m := fun i hi c m hp => by
    have := hstop (.unlock i c m) ⟨hi,trivial,by simp⟩
    simp [Barrier.step,hp] at this
  have hstore : ∀ i ∈ team, ∀ c, s.pc i ≠ .store c := fun i hi c hp => by
    have := hstop (.store i c) ⟨hi,trivial,by simp⟩
    simp [Barrier.step,hp] at this
  -- nobody stands between a lock and its unlock, so every lock of the program is free
  have hlock : ∀ i ∈ team, ∀ k m, s.pc i ≠ .lock (prog k) m := fun i hi k m hp => by
    have hfree : (s.bar (prog k)).lock = none := by
      cases hl : (s.bar (prog k)).lock with
      | none => rfl
      | some j =>
        have hj : j ∈ team := by
          by_contra hj
          have hon := h.outside j hj k
          rcases h.locks _ j hl with ⟨_,hp⟩ | ⟨_,hp⟩ <;> simp [hp,CallPc.on] at hon
        rcases h.locks _ j hl with ⟨_,hp⟩ | ⟨_,hp⟩
        · exact absurd hp (hupdate j hj _ _)
        · exact absurd hp (hunlock j hj _ _)
    have := hstop (.lock i (prog k) m) ⟨hi,trivial,by simp⟩
    simp [Barrier.step,hp,hfree] at this
  have hspin : ∀ i ∈ team, ∀ c, s.pc i = .spin c → (s.bar c).flag ≠ s.sense i :=
    fun i hi c hp hf => by
      have := hstop (.load i c) ⟨hi,trivial,by rintro _ _ ⟨⟩; exact hf⟩
      simp [Barrier.step,hp] at this
  rcases h.turn with ⟨r,hr,ho⟩ | ⟨r,hr,j,hc⟩
  · have hmem : ∀ i ∈ team, (s.calls i = r ∧ s.pc i = .idle) ∨
        r < len ∧ ArrivedIn (prog r) r s i := by
      intro i hi
      rcases ho.members i hi with ⟨hc,hp | ⟨hpos,hp | hp⟩⟩ | ⟨hlt,⟨_,hp | hp⟩ | harr⟩
      · exact .inl ⟨hc,hp⟩
      · exact absurd hp (hunlock i hi _ _)
      · have hf : (s.bar (prog (r-1))).flag = s.sense i := by
          rw [ho.flags,flagAt_last prog hpos,h.sense,hc]
        exact absurd hf (hspin i hi _ hp)
      · exact absurd hp (hlock i hi r n)
      · exact absurd hp (hupdate i hi _ _)
      · exact .inr ⟨hlt,harr⟩
    -- somebody is missing, and could enter if the program went on
    obtain ⟨i,hi,hna⟩ : ∃ i ∈ team, ¬ ArrivedIn (prog r) r s i := by
      by_contra hall
      push Not at hall
      have hmiss := ho.missing
      rw [Finset.filter_true_of_mem hall] at hmiss
      exact lt_irrefl _ hmiss
    obtain ⟨hci,hpi⟩ := (hmem i hi).resolve_right fun hh => hna hh.2
    have hlen : r = len := by
      by_contra hne
      have hlt : r < len := by omega
      have := hstop (.enter i (prog r) n) ⟨hi,by simp [Follows,hi,hci,hlt],by simp⟩
      simp [Barrier.step,hpi] at this
    intro k hk
    have hh := (hmem k hk).resolve_right fun hh => absurd hh.1 (by omega)
    exact ⟨hlen ▸ hh.1,hh.2⟩
  · exfalso
    rcases hc.last.2 with hp | hp
    · exact hunlock j hc.mem _ _ hp
    · exact hstore j hc.mem _ hp

theorem ProgramInv.settles (h : ProgramInv team prog len n s) (hfit : ∀ r < len, Fits prog r)
    (hn : n.toNat = team.card) (hint : team.card < 2^31) :
    Settles Barrier.step (Onward team prog len n) (Finished team len) s := by
  apply Settles.of_measure (I:=ProgramInv team prog len n) (cost team len) h
  · intro t a u hi hok hst
    exact ⟨hi.step hfit hn hint hok.2.1 hst,cost_step hok hst⟩
  · intro t hi hstop
    exact hi.finished hstop

end Ends

section Astray

theorem arrive_reach {ok : State β ι → Act β ι → Prop} {b : β} (henter : ok s (.enter i b n))
    (hok : ∀ t a, a.isEnter = false → ok t a) (hpc : s.pc i = .idle)
    (hlock : (s.bar b).lock = none) : Reach step ok s (s.arrive i b n) := by
  have h₀ : Reach step ok s s := .refl
  have h₁ := h₀.tail henter (guarded_eq_some.mpr ⟨hpc,rfl⟩)
  have h₂ := h₁.tail (a:=Act.lock i b n) (hok _ _ rfl) (guarded_eq_some.mpr ⟨⟨by simp,hlock⟩,rfl⟩)
  have h₃ := h₂.tail (a:=Act.update i b n) (hok _ _ rfl) (guarded_eq_some.mpr ⟨by simp,rfl⟩)
  have h₄ := h₃.tail (a:=Act.unlock i b (arm ((s.bar b).count+1) n)) (hok _ _ rfl)
    (guarded_eq_some.mpr ⟨by simp,rfl⟩)
  simpa [State.arrive] using h₄

/-- The team comes to the first use that does not fit, and there a thread runs ahead. -/
theorem astray (hn : n.toNat = team.card) (hcard : 2 ≤ team.card) (hint : team.card < 2^31)
    (hr : r < len) (hfit : ∀ k < r, Fits prog k) (hbad : ¬ Fits prog r) :
    ∃ s, Reach step (Follows team prog len n) (Barrier.init β ι) s ∧ ¬ Together team s := by
  have hsettles : Settles step (Onward team prog r n) (Finished team r) (Barrier.init β ι) :=
    (ProgramInv.init (by omega)).settles hfit hn hint
  obtain ⟨s,hreach,hfin⟩ := hsettles.reach
  have hin : Reach step (Follows team prog r n) (Barrier.init β ι) s :=
    hreach.mono fun t a ha => ha.2.1
  have hinv := ProgramInv.of_reach hfit hn (by omega) hint hin
  have hlong : Reach step (Follows team prog len n) (Barrier.init β ι) s := by
    apply hin.mono
    intro t a ha
    cases a with
    | enter i c m =>
      by_cases hi : i ∈ team
      · simp only [Follows,hi,if_true] at ha ⊢
        exact ⟨ha.1.trans hr,ha.2⟩
      · simpa only [Follows,hi,if_false] using ha
    | lock | update | unlock | store | load => trivial
  obtain ⟨i,hi,j,hj,hij⟩ := Finset.one_lt_card.mp (show 1 < team.card by omega)
  obtain ⟨hci,hpi⟩ := hfin i hi
  obtain ⟨hcj,hpj⟩ := hfin j hj
  -- all are idle, so the lock is free, the counter is 0 and the flag is as after `r` uses
  have hlock : (s.bar (prog r)).lock = none := by
    cases hl : (s.bar (prog r)).lock with
    | none => rfl
    | some k =>
      exfalso
      by_cases hk : k ∈ team
      · rcases hinv.locks _ k hl with ⟨_,hp⟩ | ⟨_,hp⟩ <;> simp [(hfin k hk).2] at hp
      · have hon := hinv.outside k hk r
        rcases hinv.locks _ k hl with ⟨_,hp⟩ | ⟨_,hp⟩ <;> simp [hp,CallPc.on] at hon
  obtain ⟨hflag,hcount⟩ : (s.bar (prog r)).flag = flagAt prog (prog r) r ∧
      (s.bar (prog r)).count = 0 := by
    rcases hinv.turn with ⟨q,hq,ho⟩ | ⟨q,hq,k,hc⟩
    · obtain rfl : q = r := by
        rcases ho.members i hi with ⟨hc,_⟩ | ⟨_,⟨_,hp⟩ | ⟨_,hp⟩⟩
        · omega
        · simp [hpi] at hp
        · simp [hpi] at hp
      refine ⟨ho.flags q,?_⟩
      have hnone : team.filter (ArrivedIn (prog q) q s) = ∅ := by
        apply Finset.filter_false_of_mem
        intro k hk harr
        have := (hfin k hk).1
        have := harr.1
        omega
      rw [ho.counts,if_pos rfl,hnone]
      rfl
    · have := (hc.pc hi).1
      have := (hc.pc hi).2
      simp [hpi] at this
  have harm : arm ((s.bar (prog r)).count+1) n = .wait := by
    rw [hcount]
    exact arm_wait (k:=1) (by omega) (by omega)
  have hsense : (s.arrive i (prog r) n).sense i = senseAfter (r+1) := by
    simp [State.arrive,hinv.sense i,hci,senseAfter_succ]
  -- the flag already has the sense that the thread waits for
  have hopen : ((s.arrive i (prog r) n).bar (prog r)).flag = (s.arrive i (prog r) n).sense i := by
    have hne : flagAt prog (prog r) r ≠ senseAfter r := fun hf => hbad ((fits_iff prog r).mpr hf)
    rw [hsense,show ((s.arrive i (prog r) n).bar (prog r)).flag = (s.bar (prog r)).flag by
      simp [State.arrive],hflag]
    rcases flagAt_cases prog (prog r) r with ⟨_,hf⟩ | ⟨k,_,_,_,hf⟩
    · rw [hf] at hne ⊢
      exact senseAfter_succ_of_ne hne
    · rw [hf] at hne ⊢
      exact senseAfter_succ_of_ne hne
  have harrive : Reach step (Follows team prog len n) s (s.arrive i (prog r) n) := by
    apply arrive_reach
    · simp [Follows,hi,hci,hr]
    · intro t a ha
      cases a with
      | enter => cases ha
      | lock | update | unlock | store | load => trivial
    · exact hpi
    · exact hlock
  have hload := (hlong.trans harrive).tail (a:=Act.load i (prog r)) trivial
    (guarded_eq_some.mpr ⟨arrive_pc s i (prog r) n harm,rfl⟩)
  refine ⟨_,hload,fun htog => ?_⟩
  have hle := htog i hi j hj
  simp only [returned,Function.update_self,hopen,if_true] at hle
  simp [State.arrive,Ne.symm hij,hci,hcj] at hle

end Astray

/-- In every interleaving the team keeps together and comes through the program, if and only if
every use of a barrier fits. -/
theorem comesThrough_iff (hn : n.toNat = team.card) (hcard : 2 ≤ team.card)
    (hint : team.card < 2^31) :
    (∀ s, Reach step (Follows team prog len n) (init β ι) s →
      Together team s ∧ Settles step (Onward team prog len n) (Finished team len) s) ↔
      ∀ r < len, Fits prog r := by
  constructor
  · intro h r
    induction r using Nat.strong_induction_on with
    | _ r ih =>
      intro hr
      by_contra hbad
      obtain ⟨s,hs,hnot⟩ := astray hn hcard hint hr (fun k hk => ih k hk (hk.trans hr)) hbad
      exact hnot (h s hs).1
  · intro hfit s hs
    have hinv := ProgramInv.of_reach hfit hn (by omega) hint hs
    exact ⟨hinv.together,hinv.settles hfit hn hint⟩

/-- Each of two barriers, used twice. -/
def pairs (k : ℕ) : Bool := decide (2 ≤ k)

/-- Two barriers, used in turn. -/
def inTurn (k : ℕ) : Bool := decide (k % 2 = 1)

/-- Two threads come through the first program, but not through the second one. -/
theorem comesThrough_pairs :
    (∀ s : State Bool Bool, Reach step (Follows Finset.univ pairs 4 2) (init Bool Bool) s →
      Together Finset.univ s ∧
        Settles step (Onward Finset.univ pairs 4 2) (Finished Finset.univ 4) s) ∧
    ¬ ∀ s : State Bool Bool, Reach step (Follows Finset.univ inTurn 4 2) (init Bool Bool) s →
      Together Finset.univ s ∧
        Settles step (Onward Finset.univ inTurn 4 2) (Finished Finset.univ 4) s :=
  ⟨(comesThrough_iff rfl (by simp) (by simp)).mpr (by decide),
    fun h => absurd ((comesThrough_iff rfl (by simp) (by simp)).mp h 1 (by decide)) (by decide)⟩

end Barrier
end Mthpc
