import Mathlib.Data.List.Basic

/-!
# Fixed windows that begin at an arrival

A limiter counts arrivals in a window of fixed length; the first arrival after its end begins the
next one, so the windows are not aligned to anything. With at most `max` admitted in each, at most
`2 * max` are admitted in any interval of that length: at most two windows have arrivals in it.
-/

namespace RateWindows

/-- Where the current window begins, and how many arrivals it has seen. -/
structure Window where
  start : ℕ
  count : ℕ

/-- An arrival is counted, in the current window or as the first of the next. -/
def Window.tick (W : ℕ) (w : Window) (now : ℕ) : Window :=
  if W ≤ now - w.start then ⟨now, 1⟩ else ⟨w.start, w.count + 1⟩

/-- How many of these times are in the interval from `t` to `t + W`. -/
def hits (W t : ℕ) (log : List ℕ) : ℕ := log.countP fun x => t ≤ x ∧ x ≤ t + W

variable {W t max now : ℕ} {w : Window} {log : List ℕ}

@[simp] theorem hits_nil : hits W t [] = 0 := rfl

theorem hits_append (log log' : List ℕ) : hits W t (log ++ log') = hits W t log + hits W t log' :=
  List.countP_append

theorem hits_le_length (log : List ℕ) : hits W t log ≤ log.length := List.countP_le_length

/-- Times before the interval do not count. -/
theorem hits_eq_zero {log : List ℕ} (h : ∀ x ∈ log, x < t) : hits W t log = 0 := by
  apply List.countP_eq_zero.mpr
  intro x hx hin
  have hlt := h x hx
  simp only [decide_eq_true_eq] at hin
  omega

theorem hits_singleton (x : ℕ) : hits W t [x] = if t ≤ x ∧ x ≤ t + W then 1 else 0 := by
  by_cases hx : t ≤ x ∧ x ≤ t + W <;> simp [hits, hx]

/-- What was admitted so far falls into the current window, with at most `k` arrivals of it, the
one before, and what is too old to share an interval with the current one. -/
def Split (W max : ℕ) (w : Window) (k : ℕ) (log : List ℕ) : Prop :=
  ∃ older previous current, log = older ++ previous ++ current ∧
    (∀ x ∈ older, x + W < w.start) ∧ (∀ x ∈ previous, x < w.start) ∧
    (∀ x ∈ current, x < w.start + W) ∧ previous.length ≤ max ∧ current.length ≤ max ∧
    current.length ≤ k

/-- No interval has more than it may have. -/
structure Paced (W max : ℕ) (w : Window) (log : List ℕ) : Prop where
  split : Split W max w w.count log
  sparse : ∀ t, hits W t log ≤ 2 * max

theorem paced_nil (w : Window) : Paced W max w [] :=
  ⟨⟨[], [], [], rfl, (fun _ hx => by cases hx), (fun _ hx => by cases hx),
    (fun _ hx => by cases hx), Nat.zero_le _, Nat.zero_le _, Nat.zero_le _⟩, fun _ => Nat.zero_le _⟩

theorem Split.mono {k k' : ℕ} (h : Split W max w k log) (hk : k ≤ k') : Split W max w k' log := by
  obtain ⟨older, previous, current, hlog, holder, hprevious, hcurrent, hp, hc, hcount⟩ := h
  exact ⟨older, previous, current, hlog, holder, hprevious, hcurrent, hp, hc, Nat.le_trans hcount hk⟩

/-- An arrival moves the window on; it is not among what was admitted yet. -/
theorem Split.tick (hpos : 0 < W) (h : Split W max w w.count log) :
    Split W max (w.tick W now) ((w.tick W now).count - 1) log := by
  obtain ⟨older, previous, current, hlog, holder, hprevious, hcurrent, hp, hc, hcount⟩ := h
  unfold Window.tick
  split_ifs with hW
  · refine ⟨older ++ previous, current, [], by simp [hlog], ?_, ?_, (fun _ hx => by cases hx), hc,
      Nat.zero_le _, Nat.zero_le _⟩
    · intro x hx
      dsimp only
      rcases List.mem_append.mp hx with hx | hx
      · have hlt := holder x hx
        omega
      · have hlt := hprevious x hx
        omega
    · intro x hx
      have hlt := hcurrent x hx
      dsimp only
      omega
  · exact ⟨older, previous, current, hlog, holder, hprevious, hcurrent, hp, hc, hcount⟩

theorem Paced.tick (hpos : 0 < W) (h : Paced W max w log) : Paced W max (w.tick W now) log :=
  ⟨(h.split.tick hpos).mono (Nat.sub_le _ _), h.sparse⟩

/-- The window has begun by now and is not at its end. -/
theorem tick_bounds (hpos : 0 < W) (hnow : w.start ≤ now) :
    (w.tick W now).start ≤ now ∧ now < (w.tick W now).start + W ∧ 0 < (w.tick W now).count := by
  unfold Window.tick
  split_ifs with hW <;> dsimp only <;> omega

/-- An arrival is admitted if with it the window has seen no more than `max`. -/
theorem Paced.admit (hpos : 0 < W) (h : Paced W max w log) (hnow : w.start ≤ now)
    (hroom : (w.tick W now).count ≤ max) : Paced W max (w.tick W now) (log ++ [now]) := by
  obtain ⟨hstart, hend, hone⟩ := tick_bounds hpos hnow
  obtain ⟨older, previous, current, hlog, holder, hprevious, hcurrent, hp, hc, hcount⟩ :=
    h.split.tick hpos
  refine ⟨⟨older, previous, current ++ [now], by simp [hlog], holder, hprevious, ?_, hp, ?_, ?_⟩,
    fun t => ?_⟩
  · intro x hx
    rcases List.mem_append.mp hx with hx | hx
    · exact hcurrent x hx
    · rw [List.mem_singleton.mp hx]
      exact hend
  · rw [List.length_append, List.length_singleton]
    omega
  · rw [List.length_append, List.length_singleton]
    omega
  · rw [hits_append, hits_singleton]
    split_ifs with hin
    · -- an interval that ends after the window began misses what is older
      have hzero : hits W t older = 0 := hits_eq_zero fun x hx => by
        have hlt := holder x hx
        omega
      have hprev := hits_le_length (W := W) (t := t) previous
      have hcurr := hits_le_length (W := W) (t := t) current
      rw [hlog, hits_append, hits_append]
      omega
    · exact h.sparse t

end RateWindows
