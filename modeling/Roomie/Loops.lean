import Mathlib.Data.Nat.Notation

/-!
# Loops that end

`while (turn()) {}`: each turn changes the state and says whether the loop goes on. If every turn
that it goes on after makes the state smaller it ends, and what the turns keep holds at its end.
-/

namespace Loops
variable {σ : Type} (size : σ → ℕ) (turn : σ → σ × Bool)

/-- A turn that the loop goes on after makes the state smaller. -/
def Shrinks : Prop := ∀ s s', turn s = (s', true) → size s' < size s

/-- `while (turn()) {}` -/
def loop (h : Shrinks size turn) (s : σ) : σ :=
  match _hturn : turn s with
  | (s', true) => loop h s'
  | (s', false) => s'
termination_by size s
decreasing_by exact h s s' _hturn

variable {size turn} {h : Shrinks size turn} {s s' : σ}

theorem loop_again (hturn : turn s = (s', true)) : loop size turn h s = loop size turn h s' := by
  rw [loop]
  split
  · rename_i heq
    rw [hturn] at heq
    obtain ⟨rfl, -⟩ := Prod.mk.inj heq
    rfl
  · rename_i heq
    rw [hturn] at heq
    cases heq

theorem loop_end (hturn : turn s = (s', false)) : loop size turn h s = s' := by
  rw [loop]
  split
  · rename_i heq
    rw [hturn] at heq
    cases heq
  · rename_i heq
    rw [hturn] at heq
    obtain ⟨rfl, -⟩ := Prod.mk.inj heq
    rfl

/-- What holds before each turn, and what the last turn makes of it. -/
theorem loop_rule {I J : σ → Prop} (hs : I s) (hgo : ∀ s s', I s → turn s = (s', true) → I s')
    (hstop : ∀ s s', I s → turn s = (s', false) → J s') : J (loop size turn h s) := by
  induction s using loop.induct size turn h with
  | case1 s s' hturn ih =>
    rw [loop_again hturn]
    exact ih (hgo s s' hs hturn)
  | case2 s s' hturn =>
    rw [loop_end hturn]
    exact hstop s s' hs hturn

end Loops
