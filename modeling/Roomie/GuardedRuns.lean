import Mathlib.Logic.Relation

/-!
# Runs of a machine under a guard

A machine takes an action in a state and moves to the next state. A guard says which
actions are considered in which states. The states reached under a guard obey one
induction rule; every safety result about runs is an instance of it.
-/

namespace GuardedRuns

variable {σ τ α : Type*}

/-- The states reached from `start` by actions that meet the guard. -/
inductive Reaches (step : σ → α → σ) (guard : σ → α → Prop) (start : σ) : σ → Prop
  | refl : Reaches step guard start start
  | tail {s : σ} (a : α) : Reaches step guard start s → guard s a →
      Reaches step guard start (step s a)

variable {step : σ → α → σ} {guard guard' : σ → α → Prop} {start s s' : σ}

theorem Reaches.single {a : α} (h : guard start a) : Reaches step guard start (step start a) :=
  .tail a .refl h

theorem Reaches.trans (h : Reaches step guard start s) (h' : Reaches step guard s s') :
    Reaches step guard start s' := by
  induction h' with
  | refl => exact h
  | tail a _ ha ih => exact ih.tail a ha

theorem Reaches.mono (hg : ∀ s a, guard s a → guard' s a) (h : Reaches step guard start s) :
    Reaches step guard' start s := by
  induction h with
  | refl => exact .refl
  | tail a _ ha ih => exact ih.tail a (hg _ a ha)

/-- What holds at the start and is kept by every guarded step holds of every reached state. -/
theorem Reaches.invariant {I : σ → Prop} (h0 : I start)
    (hstep : ∀ s a, I s → guard s a → I (step s a)) (h : Reaches step guard start s) : I s := by
  induction h with
  | refl => exact h0
  | tail a _ ha ih => exact hstep _ a ih ha

/-- An invariant may be proved with the help of one that is known already. -/
theorem Reaches.invariant_under {I J : σ → Prop} (hJ : ∀ s, Reaches step guard start s → J s)
    (h0 : I start) (hstep : ∀ s a, J s → I s → guard s a → I (step s a))
    (h : Reaches step guard start s) : I s := by
  induction h with
  | refl => exact h0
  | tail a hr ha ih => exact hstep _ a (hJ _ hr) ih ha

/-- A projection that commutes with the steps carries runs to runs: an instrumented machine
reaches only what the bare one reaches. -/
theorem Reaches.map {step' : τ → α → τ} {guard' : τ → α → Prop} (f : σ → τ)
    (hstep : ∀ s a, f (step s a) = step' (f s) a) (hg : ∀ s a, guard s a → guard' (f s) a)
    (h : Reaches step guard start s) : Reaches step' guard' (f start) (f s) := by
  induction h with
  | refl => exact .refl
  | tail a _ ha ih =>
    rw [hstep]
    exact ih.tail a (hg _ a ha)

/-- The state after a list of actions. -/
def exec (step : σ → α → σ) (s : σ) (as : List α) : σ := as.foldl step s

@[simp] theorem exec_nil : exec step s [] = s := rfl

@[simp] theorem exec_cons (a : α) (as : List α) :
    exec step s (a :: as) = exec step (step s a) as := rfl

/-- What every step keeps holds after any list of actions. -/
theorem exec_invariant {I : σ → Prop} (hstep : ∀ s a, I s → I (step s a)) (h : I s)
    (as : List α) : I (exec step s as) := by
  induction as generalizing s with
  | nil => exact h
  | cons a as ih => exact ih (hstep s a h)

/-- What every action either sets or leaves as it is, the last action that sets it has set. -/
theorem exec_latest {β : Type*} {obs : σ → β} {sets : α → Option β}
    (hstep : ∀ s a, obs (step s a) = (sets a).getD (obs s)) (s : σ) (as : List α) :
    obs (exec step s as) = (as.filterMap sets).getLast?.getD (obs s) := by
  induction as generalizing s with
  | nil => rfl
  | cons a as ih =>
    rw [exec_cons, ih, hstep]
    cases h : sets a with
    | none => rw [List.filterMap_cons_none h]; rfl
    | some b => rw [List.filterMap_cons_some h, List.getLast?_cons]; rfl

/-- Every action of the list meets the guard in the state it is taken in. -/
def Along (step : σ → α → σ) (guard : σ → α → Prop) : σ → List α → Prop
  | _, [] => True
  | s, a :: as => guard s a ∧ Along step guard (step s a) as

theorem Reaches.exec {as : List α} (h : Reaches step guard start s)
    (ha : Along step guard s as) : Reaches step guard start (exec step s as) := by
  induction as generalizing s with
  | nil => exact h
  | cons a as ih => exact ih (h.tail a ha.1) ha.2

/-- Without a guard every list of actions is a run. -/
theorem reaches_exec (step : σ → α → σ) (s : σ) (as : List α) :
    Reaches step (fun _ _ => True) s (exec step s as) := by
  refine Reaches.exec .refl ?_
  induction as generalizing s with
  | nil => trivial
  | cons a as ih => exact ⟨trivial, ih (step s a)⟩

/-- The property holds in the state a list of actions starts from and after each of them. -/
def Throughout (step : σ → α → σ) (I : σ → Prop) (s : σ) (as : List α) : Prop :=
  ∀ pre, pre <+: as → I (exec step s pre)

theorem throughout_cons {I : σ → Prop} {a : α} {as : List α} :
    Throughout step I s (a :: as) ↔ I s ∧ Throughout step I (step s a) as := by
  constructor
  · intro h
    refine ⟨h [] List.nil_prefix, fun pre hpre => ?_⟩
    exact h (a :: pre) (List.prefix_cons_inj a |>.mpr hpre)
  · rintro ⟨h, hrest⟩ pre hpre
    rcases List.prefix_cons_iff.mp hpre with rfl | ⟨rest, rfl, hprefix⟩
    · exact h
    · exact hrest rest hprefix

/-- If a step keeps the property exactly when the guard is met, then the property holds all along
a list of actions exactly when each of them meets the guard. An invariant may help. -/
theorem throughout_iff_along {I J : σ → Prop} (hJ : ∀ s a, J s → J (step s a))
    (hstep : ∀ s a, J s → I s → (I (step s a) ↔ guard s a)) {as : List α} (hs : J s) (hI : I s) :
    Throughout step I s as ↔ Along step guard s as := by
  induction as generalizing s with
  | nil =>
    refine iff_of_true (fun pre hpre => ?_) trivial
    rw [List.prefix_nil.mp hpre]
    exact hI
  | cons a as ih =>
    have hkeep := hstep s a hs hI
    rw [throughout_cons]
    constructor
    · rintro ⟨-, hthroughout⟩
      have hnext : I (step s a) := hthroughout [] List.nil_prefix
      exact ⟨hkeep.mp hnext, (ih (hJ s a hs) hnext).mp hthroughout⟩
    · rintro ⟨hguard, halong⟩
      exact ⟨hI, (ih (hJ s a hs) (hkeep.mpr hguard)).mpr halong⟩

end GuardedRuns
