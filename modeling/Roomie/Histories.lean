import Mathlib.Data.List.Basic

/-!
# Sightings of a changing value

A value changes from time to time, and somebody is shown it now and then. Each sighting comes with
the number of changes made before it. What was seen is faithful if the sightings follow the order
of the changes and each shows the value as it then was.
-/

namespace Histories

variable {α : Type*}

/-- The value after the first `k` changes. -/
def valueAt (initial : α) (changes : List α) (k : ℕ) : α := (changes.take k).getLast?.getD initial

structure Faithful (initial : α) (changes : List α) (seen : List (α × ℕ)) : Prop where
  ordered : seen.Pairwise fun e f => e.2 ≤ f.2
  made : ∀ e ∈ seen, e.2 ≤ changes.length
  value : ∀ e ∈ seen, e.1 = valueAt initial changes e.2

/-- The present value was seen last. -/
structure UpToDate (initial : α) (changes : List α) (seen : List (α × ℕ)) : Prop
    extends Faithful initial changes seen where
  last : seen.getLast? = some (valueAt initial changes changes.length, changes.length)

variable {initial : α} {changes : List α} {seen seen' : List (α × ℕ)}

theorem valueAt_length : valueAt initial changes changes.length = changes.getLast?.getD initial := by
  rw [valueAt, List.take_length]

/-- Later changes do not change what was. -/
theorem valueAt_append {k : ℕ} (h : k ≤ changes.length) (more : List α) :
    valueAt initial (changes ++ more) k = valueAt initial changes k := by
  rw [valueAt, valueAt, List.take_append_of_le_length h]

theorem valueAt_append_singleton (value : α) :
    valueAt initial (changes ++ [value]) (changes.length + 1) = value := by
  have hlen : changes.length + 1 = (changes ++ [value]).length := by rw [List.length_append]; rfl
  rw [hlen, valueAt_length, List.getLast?_append]
  rfl

theorem Faithful.append_changes (h : Faithful initial changes seen) (more : List α) :
    Faithful initial (changes ++ more) seen := by
  refine ⟨h.ordered, fun e he => ?_, fun e he => ?_⟩
  · rw [List.length_append]
    exact Nat.le_trans (h.made e he) (Nat.le_add_right _ _)
  · rw [valueAt_append (h.made e he)]
    exact h.value e he

/-- The first sightings are faithful too. -/
theorem Faithful.of_append (h : Faithful initial changes (seen ++ seen')) :
    Faithful initial changes seen :=
  ⟨(List.pairwise_append.mp h.ordered).1, fun e he => h.made e (List.mem_append_left _ he),
    fun e he => h.value e (List.mem_append_left _ he)⟩

/-- A sighting of the present value follows all others. -/
theorem Faithful.look (h : Faithful initial changes seen) :
    UpToDate initial changes
      (seen ++ [(valueAt initial changes changes.length, changes.length)]) := by
  refine ⟨⟨?_, ?_, ?_⟩, by rw [List.getLast?_append]; rfl⟩
  · refine List.pairwise_append.mpr ⟨h.ordered, List.pairwise_singleton _ _, fun e he f hf => ?_⟩
    obtain rfl := List.mem_singleton.mp hf
    exact h.made e he
  · refine List.forall_mem_append.mpr ⟨h.made, fun f hf => ?_⟩
    obtain rfl := List.mem_singleton.mp hf
    exact Nat.le_refl _
  · refine List.forall_mem_append.mpr ⟨h.value, fun f hf => ?_⟩
    obtain rfl := List.mem_singleton.mp hf
    rfl

theorem faithful_nil : Faithful initial changes [] :=
  ⟨List.Pairwise.nil, (fun e he => by cases he), (fun e he => by cases he)⟩

/-- Who has just come is shown the present value. -/
theorem upToDate_singleton :
    UpToDate initial changes [(valueAt initial changes changes.length, changes.length)] :=
  faithful_nil.look

/-- A change that is seen at once. -/
theorem Faithful.change (h : Faithful initial changes seen) (value : α) :
    UpToDate initial (changes ++ [value]) (seen ++ [(value, changes.length + 1)]) := by
  have hlen : (changes ++ [value]).length = changes.length + 1 := by rw [List.length_append]; rfl
  have hlook := (h.append_changes [value]).look
  rwa [hlen, valueAt_append_singleton] at hlook

end Histories
