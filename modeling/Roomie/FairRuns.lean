import Mathlib.Order.WellFounded
import Roomie.GuardedRuns

/-!
# Fair schedules

A schedule is an infinite list of actions, and every action is the turn of one party. It is
fair when each party has its turn again and again. A turn that does nothing leaves the
state as it is, as when the party has to wait; a turn that does something makes the state
smaller. If in every unfinished state some party can do something whenever its turn comes,
then every fair schedule finishes, whatever the order of the turns.
-/

namespace FairRuns
open GuardedRuns

variable {σ α π : Type*}

/-- The state before each action of a schedule. -/
def along (step : σ → α → σ) (s : σ) (schedule : ℕ → α) : ℕ → σ
  | 0 => s
  | n + 1 => step (along step s schedule n) (schedule n)

/-- Every party has its turn again and again. -/
def Fair (party : α → π) (schedule : ℕ → α) : Prop :=
  ∀ p n, ∃ m, n ≤ m ∧ party (schedule m) = p

/-- The party takes the state down whenever its turn comes. -/
def Moves (step : σ → α → σ) (guard : σ → α → Prop) (party : α → π) (smaller : σ → σ → Prop)
    (s : σ) (p : π) : Prop :=
  ∀ a, guard s a → party a = p → smaller (step s a) s

variable {step : σ → α → σ} {guard : σ → α → Prop} {s : σ} {schedule : ℕ → α}

/-- What every guarded step keeps holds all along the schedule. -/
theorem along_invariant {I : σ → Prop} (hstep : ∀ s a, I s → guard s a → I (step s a)) (h : I s)
    (hguard : ∀ n, guard (along step s schedule n) (schedule n)) (n : ℕ) :
    I (along step s schedule n) := by
  induction n with
  | zero => exact h
  | succ n ih => exact hstep _ _ ih (hguard n)

section
variable {party : α → π} {smaller : σ → σ → Prop} {I done : σ → Prop}

/-- Between two moments the state has stayed the same, or has become smaller on the way. -/
theorem same_or_smaller (hkeep : ∀ s a, I s → guard s a → I (step s a))
    (hstep : ∀ s a, I s → guard s a → step s a = s ∨ smaller (step s a) s) (h : I s)
    (hguard : ∀ n, guard (along step s schedule n) (schedule n)) (n d : ℕ) :
    along step s schedule (n + d) = along step s schedule n ∨
      ∃ m, n ≤ m ∧ smaller (along step s schedule m) (along step s schedule n) := by
  induction d with
  | zero => exact .inl rfl
  | succ d ih =>
    rcases ih with heq | hless
    · have hnow := hstep _ _ (along_invariant hkeep h hguard (n + d)) (hguard (n + d))
      rcases hnow with hsame | hdown
      · exact .inl (hsame.trans heq)
      · refine .inr ⟨n + d + 1, by omega, ?_⟩
        rw [heq] at hdown
        rwa [along, heq]
    · exact .inr hless

/-- Every fair schedule finishes. -/
theorem fair_finishes (hwf : WellFounded smaller) (hkeep : ∀ s a, I s → guard s a → I (step s a))
    (hstep : ∀ s a, I s → guard s a → step s a = s ∨ smaller (step s a) s)
    (hmoves : ∀ s, I s → ¬ done s → ∃ p, Moves step guard party smaller s p) (h : I s)
    (hguard : ∀ n, guard (along step s schedule n) (schedule n)) (hfair : Fair party schedule) :
    ∃ n, done (along step s schedule n) := by
  -- down the states: whichever state stands at some moment, a finished one stands later
  have hdown : ∀ t n, along step s schedule n = t → ∃ m, n ≤ m ∧ done (along step s schedule m) := by
    intro t
    induction t using hwf.induction with
    | _ t ih =>
      rintro n rfl
      have hn := along_invariant hkeep h hguard n
      by_cases hdone : done (along step s schedule n)
      · exact ⟨n, le_rfl, hdone⟩
      obtain ⟨p, hp⟩ := hmoves _ hn hdone
      obtain ⟨m, hm, hturn⟩ := hfair p n
      obtain ⟨d, rfl⟩ := Nat.exists_eq_add_of_le hm
      have hlater : ∃ k, n ≤ k ∧ smaller (along step s schedule k) (along step s schedule n) := by
        rcases same_or_smaller hkeep hstep h hguard n d with heq | hless
        · refine ⟨n + d + 1, by omega, ?_⟩
          have hturn' := hp (schedule (n + d)) (heq ▸ hguard (n + d)) hturn
          rwa [along, heq]
        · exact hless
      obtain ⟨k, hk, hless⟩ := hlater
      obtain ⟨m, hm, hdone⟩ := ih _ hless k rfl
      exact ⟨m, by omega, hdone⟩
  obtain ⟨n, _, hdone⟩ := hdown s 0 rfl
  exact ⟨n, hdone⟩

end

end FairRuns
