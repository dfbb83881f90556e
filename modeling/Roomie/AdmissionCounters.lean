import Mathlib.Data.Fintype.BigOperators

/-!
# Admission by a shared counter

Several acceptors share a counter. Each counts a newcomer first and looks at the number before it
afterwards: at the limit it takes its count back, else the newcomer is admitted, and its count is
taken back when it leaves. Whatever the order of these steps, no more newcomers are admitted than
the limit allows, and the counter is wrong only by the newcomers that are counted and not decided.
-/

namespace AdmissionCounters

variable {ι : Type*}

/-- Where an acceptor stands: it waits, or it has counted a newcomer and seen so many before it. -/
inductive Phase where
  | waiting
  | counted (before : ℕ)
  deriving DecidableEq

/-- The counter, the acceptors, and how many were admitted and have not left. -/
structure State (ι : Type*) where
  counter : ℕ
  phase : ι → Phase
  held : ℕ

inductive Action (ι : Type*) where
  | count (i : ι)
  | decide (i : ι)
  | release

/-- The counter has values below `M` and wraps. -/
def up (M c : ℕ) : ℕ := if c + 1 = M then 0 else c + 1

def down (M c : ℕ) : ℕ := if c = 0 then M - 1 else c - 1

def start : State ι := ⟨0, fun _ => .waiting, 0⟩

def step [DecidableEq ι] (M limit : ℕ) (s : State ι) : Action ι → State ι
  | .count i =>
    match s.phase i with
    | .waiting =>
      ⟨up M s.counter, Function.update s.phase i (.counted s.counter), s.held⟩
    | .counted _ => s
  | .decide i =>
    match s.phase i with
    | .waiting => s
    | .counted before =>
      if limit ≤ before then ⟨down M s.counter, Function.update s.phase i .waiting, s.held⟩
      else ⟨s.counter, Function.update s.phase i .waiting, s.held + 1⟩
  | .release => if s.held = 0 then s else ⟨down M s.counter, s.phase, s.held - 1⟩

/-- The acceptor has counted a newcomer. -/
def Phase.Busy (p : Phase) : Prop := p ≠ .waiting

/-- The newcomer that the acceptor has counted is going to be admitted. -/
def Phase.Admits (limit : ℕ) : Phase → Prop
  | .waiting => False
  | .counted before => before < limit

instance : DecidablePred Phase.Busy := fun p => inferInstanceAs (Decidable (p ≠ .waiting))

instance (limit : ℕ) : DecidablePred (Phase.Admits limit)
  | .waiting => inferInstanceAs (Decidable False)
  | .counted before => inferInstanceAs (Decidable (before < limit))

@[simp] theorem not_busy_waiting : ¬ Phase.waiting.Busy := fun h => h rfl

@[simp] theorem busy_counted (before : ℕ) : (Phase.counted before).Busy := Phase.noConfusion

@[simp] theorem not_admits_waiting (limit : ℕ) : ¬ Phase.waiting.Admits limit := fun h => h

@[simp] theorem admits_counted (limit before : ℕ) :
    (Phase.counted before).Admits limit ↔ before < limit := Iff.rfl

/-! ## Counting acceptors -/

section
variable [Fintype ι] (p : Phase → Prop) [DecidablePred p]

/-- How many acceptors are in such a phase. -/
def tally (phase : ι → Phase) : ℕ := (Finset.univ.filter fun i => p (phase i)).card

theorem tally_le (phase : ι → Phase) : tally p phase ≤ Fintype.card ι := Finset.card_filter_le _ _

theorem tally_eq_zero {phase : ι → Phase} (h : ∀ i, ¬ p (phase i)) : tally p phase = 0 := by
  rw [tally, Finset.card_eq_zero, Finset.filter_eq_empty_iff]
  exact fun i _ => h i

theorem tally_pos {phase : ι → Phase} {i : ι} (h : p (phase i)) : 0 < tally p phase :=
  Finset.card_pos.mpr ⟨i, Finset.mem_filter.mpr ⟨Finset.mem_univ i, h⟩⟩

/-- When one acceptor changes its phase, the others count as before. -/
theorem tally_update [DecidableEq ι] (phase : ι → Phase) (i : ι) (x : Phase) :
    tally p (Function.update phase i x) + (if p (phase i) then 1 else 0) =
      tally p phase + (if p x then 1 else 0) := by
  have hsplit : ∀ f : ι → Phase, tally p f =
      (if p (f i) then 1 else 0) + ∑ j ∈ Finset.univ.erase i, if p (f j) then 1 else 0 := by
    intro f
    rw [tally, Finset.card_filter]
    exact (Finset.add_sum_erase _ (fun j => if p (f j) then 1 else 0) (Finset.mem_univ i)).symm
  have hothers : ∑ j ∈ Finset.univ.erase i, (if p (Function.update phase i x j) then 1 else 0) =
      ∑ j ∈ Finset.univ.erase i, if p (phase j) then 1 else 0 := by
    apply Finset.sum_congr rfl
    intro j hj
    rw [Function.update_of_ne (Finset.ne_of_mem_erase hj)]
  rw [hsplit phase, hsplit (Function.update phase i x), hothers, Function.update_self]
  omega

end

/-! ## What every step keeps -/

variable [Fintype ι] {M limit : ℕ} {s : State ι}

/-- Every count stands for somebody who is admitted or not decided yet, and those who are or will
be admitted are within the limit. -/
structure Sound (limit : ℕ) (s : State ι) : Prop where
  counter_eq : s.counter = s.held + tally Phase.Busy s.phase
  within : s.held + tally (Phase.Admits limit) s.phase ≤ limit

theorem sound_start : Sound limit (start : State ι) := by
  have hbusy : tally Phase.Busy (start : State ι).phase = 0 := tally_eq_zero _ fun _ h => h rfl
  have hadmits : tally (Phase.Admits limit) (start : State ι).phase = 0 :=
    tally_eq_zero _ fun _ h => h
  refine ⟨?_, ?_⟩
  · rw [hbusy]
    rfl
  · rw [hadmits]
    exact Nat.zero_le limit

theorem Sound.held_le (h : Sound limit s) : s.held ≤ limit := by
  have hwithin := h.within
  omega

theorem Sound.counter_le (h : Sound limit s) : s.counter ≤ limit + Fintype.card ι := by
  have hbusy := tally_le Phase.Busy s.phase
  rw [h.counter_eq]
  exact Nat.add_le_add h.held_le hbusy

theorem Sound.held_le_counter (h : Sound limit s) : s.held ≤ s.counter := by
  rw [h.counter_eq]
  exact Nat.le_add_right _ _

/-- While nobody is undecided the counter is exact. -/
theorem Sound.counter_eq_held (h : Sound limit s) (hphase : ∀ i, s.phase i = .waiting) :
    s.counter = s.held := by
  rw [h.counter_eq, tally_eq_zero Phase.Busy fun i hbusy => hbusy (hphase i), Nat.add_zero]

/-- Nobody takes back a count that is not there. -/
theorem Sound.counter_pos (h : Sound limit s) {i : ι} (hphase : s.phase i ≠ .waiting) :
    0 < s.counter := by
  have hbusy : 0 < tally Phase.Busy s.phase := tally_pos Phase.Busy hphase
  rw [h.counter_eq]
  omega

theorem up_eq {c : ℕ} (h : c + 1 < M) : up M c = c + 1 := if_neg h.ne

theorem down_eq {c : ℕ} (hpos : 0 < c) : down M c = c - 1 := if_neg hpos.ne'

theorem Sound.release (h : Sound limit s) (hheld : s.held ≠ 0) :
    Sound limit ⟨down M s.counter, s.phase, s.held - 1⟩ := by
  have hcounter := h.counter_eq
  have hwithin := h.within
  refine ⟨?_, ?_⟩
  · rw [down_eq (by omega)]
    dsimp only
    omega
  · dsimp only
    omega

variable [DecidableEq ι]

/-- A newcomer is counted, and will be admitted if there is room beside all who are counted. -/
theorem Sound.count (hM : limit + Fintype.card ι + 1 < M) (h : Sound limit s) {i : ι}
    (hphase : s.phase i = .waiting) : Sound limit
      ⟨up M s.counter, Function.update s.phase i (.counted s.counter), s.held⟩ := by
  have hle := h.counter_le
  have hcounter := h.counter_eq
  have hwithin := h.within
  have hbusy := tally_update Phase.Busy s.phase i (.counted s.counter)
  have hadmits := tally_update (Phase.Admits limit) s.phase i (.counted s.counter)
  simp only [hphase, not_busy_waiting, busy_counted, if_true, if_false, add_zero] at hbusy
  simp only [hphase, not_admits_waiting, admits_counted, if_false, add_zero] at hadmits
  refine ⟨?_, ?_⟩
  · rw [up_eq (by omega)]
    dsimp only
    omega
  · dsimp only
    have hfew : tally (Phase.Admits limit) s.phase ≤ tally Phase.Busy s.phase := by
      apply Finset.card_le_card
      intro j hj
      have hj := (Finset.mem_filter.mp hj).2
      refine Finset.mem_filter.mpr ⟨Finset.mem_univ j, fun hwaiting => ?_⟩
      rw [hwaiting] at hj
      exact hj
    split_ifs at hadmits <;> omega

/-- The acceptor waits again, and its newcomer was sent away or admitted. -/
theorem Sound.decide (h : Sound limit s) {i : ι} {before : ℕ}
    (hphase : s.phase i = .counted before) :
    Sound limit (if limit ≤ before then
      ⟨down M s.counter, Function.update s.phase i .waiting, s.held⟩
      else ⟨s.counter, Function.update s.phase i .waiting, s.held + 1⟩) := by
  have hcounter := h.counter_eq
  have hwithin := h.within
  have hpos := h.counter_pos (i := i) (by rw [hphase]; exact Phase.noConfusion)
  have hbusy := tally_update Phase.Busy s.phase i .waiting
  have hadmits := tally_update (Phase.Admits limit) s.phase i .waiting
  simp only [hphase, not_busy_waiting, busy_counted, if_true, if_false, add_zero] at hbusy
  simp only [hphase, not_admits_waiting, admits_counted, if_false, add_zero] at hadmits
  split_ifs with hlimit
  · rw [if_neg (Nat.not_lt.mpr hlimit)] at hadmits
    refine ⟨?_, ?_⟩
    · rw [down_eq hpos]
      dsimp only
      omega
    · dsimp only
      omega
  · rw [if_pos (Nat.not_le.mp hlimit)] at hadmits
    refine ⟨?_, ?_⟩ <;> dsimp only <;> omega

theorem Sound.step (hM : limit + Fintype.card ι + 1 < M) (h : Sound limit s) (a : Action ι) :
    Sound limit (step M limit s a) := by
  cases a with
  | count i =>
    cases hphase : s.phase i with
    | waiting => simpa only [AdmissionCounters.step, hphase] using h.count hM hphase
    | counted before => simpa only [AdmissionCounters.step, hphase] using h
  | decide i =>
    cases hphase : s.phase i with
    | waiting => simpa only [AdmissionCounters.step, hphase] using h
    | counted before => simpa only [AdmissionCounters.step, hphase] using h.decide hphase
  | release =>
    simp only [AdmissionCounters.step]
    split_ifs with hheld
    · exact h
    · exact h.release hheld

end AdmissionCounters
