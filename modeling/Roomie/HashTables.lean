import Mathlib.Data.List.AList

/-!
# Hash tables whose iteration order is left open

A table is an association list with distinct keys. The order in which a hash map
hands out its entries is a separate parameter: an arbitrary permutation of the keys,
which never looks at the values.
-/

namespace HashTables

universe u v

/-- The order in which the keys of a table come up. -/
structure IterOrder (κ : Type u) where
  order : List κ → List κ
  perm : ∀ ks, (order ks).Perm ks

/-- Entries come up as they are stored. -/
def IterOrder.stored (κ : Type u) : IterOrder κ := ⟨id, fun _ => .refl _⟩

abbrev Table (κ : Type u) (ν : Type v) := AList fun _ : κ => ν

end HashTables

namespace AList
open HashTables

variable {κ : Type*} {ν : Type*} {o : IterOrder κ} {k k' : κ} {v w : ν}

def size (m : Table κ ν) : ℕ := m.keys.length

def isEmpty (m : Table κ ν) : Bool := m.keys.isEmpty

/-- The first key a loop over the table meets. -/
def firstKey (o : IterOrder κ) (m : Table κ ν) : Option κ := (o.order m.keys).head?

@[simp] theorem isEmpty_iff {m : Table κ ν} : m.isEmpty = true ↔ ∀ k, k ∉ m := by
  simp only [isEmpty, List.isEmpty_iff, List.eq_nil_iff_forall_not_mem, mem_keys]

theorem isEmpty_eq_false_iff {m : Table κ ν} : m.isEmpty = false ↔ ∃ k, k ∈ m := by
  rw [← Bool.not_eq_true, isEmpty_iff]
  push Not
  rfl

@[simp] theorem isEmpty_empty : (∅ : Table κ ν).isEmpty = true := rfl

@[simp] theorem size_empty : (∅ : Table κ ν).size = 0 := rfl

theorem size_eq_zero {m : Table κ ν} : m.size = 0 ↔ ∀ k, k ∉ m := by
  rw [size, List.length_eq_zero_iff, List.eq_nil_iff_forall_not_mem]
  exact Iff.rfl

theorem firstKey_mem {m : Table κ ν} (h : m.firstKey o = some k) : k ∈ m :=
  (o.perm m.keys).mem_iff.mp (List.mem_of_mem_head? h)

theorem firstKey_eq_none {m : Table κ ν} : m.firstKey o = none ↔ ∀ k, k ∉ m := by
  rw [firstKey, List.head?_eq_none_iff, ← List.length_eq_zero_iff, (o.perm m.keys).length_eq]
  exact size_eq_zero

variable [DecidableEq κ] {m : Table κ ν}

/-- The entries in the order in which a loop over the table meets them. -/
def iter (o : IterOrder κ) (m : Table κ ν) : List (κ × ν) :=
  (o.order m.keys).filterMap fun k => (m.lookup k).map (k, ·)

theorem mem_iff_lookup : k ∈ m ↔ ∃ v, m.lookup k = some v := by
  rw [← lookup_isSome, Option.isSome_iff_exists]

theorem mem_of_lookup (h : m.lookup k = some v) : k ∈ m := mem_iff_lookup.mpr ⟨v, h⟩

theorem lookup_erase_if (m : Table κ ν) (k k' : κ) :
    (m.erase k').lookup k = if k = k' then none else m.lookup k := by
  split_ifs with h
  · rw [h, lookup_erase]
  · exact lookup_erase_ne h

theorem lookup_insert_if (m : Table κ ν) (k k' : κ) (w : ν) :
    (m.insert k' w).lookup k = if k = k' then some w else m.lookup k := by
  split_ifs with h
  · rw [h, lookup_insert]
  · exact lookup_insert_ne h

theorem lookup_erase_some : (m.erase k').lookup k = some v ↔ k ≠ k' ∧ m.lookup k = some v := by
  rw [lookup_erase_if]
  split_ifs with h <;> simp [h]

theorem lookup_insert_some :
    (m.insert k' w).lookup k = some v ↔ k = k' ∧ w = v ∨ k ≠ k' ∧ m.lookup k = some v := by
  rw [lookup_insert_if]
  split_ifs with h <;> simp [h]

theorem size_erase_of_mem (h : k ∈ m) : (m.erase k).size + 1 = m.size := by
  rw [size, size, keys_erase, List.length_erase_of_mem h]
  have := List.length_pos_of_mem (mem_keys.mp h)
  omega

theorem erase_of_notMem (h : k ∉ m) : m.erase k = m := by
  apply AList.ext
  exact List.kerase_of_notMem_keys h

theorem size_insert_of_notMem (h : k ∉ m) : (m.insert k v).size = m.size + 1 := by
  rw [size, size, keys_insert, List.length_cons, List.erase_of_not_mem h]

theorem mem_iter : (k, v) ∈ m.iter o ↔ m.lookup k = some v := by
  simp only [iter, List.mem_filterMap, Option.map_eq_some_iff, Prod.mk.injEq,
    (o.perm m.keys).mem_iff]
  constructor
  · rintro ⟨_, _, _, hv, rfl, rfl⟩
    exact hv
  · intro h
    exact ⟨k, mem_of_lookup h, v, h, rfl, rfl⟩

theorem iter_map_fst (o : IterOrder κ) (m : Table κ ν) :
    (m.iter o).map Prod.fst = o.order m.keys := by
  rw [iter, List.map_filterMap]
  have h : ∀ ks : List κ, (∀ k ∈ ks, k ∈ m) →
      ks.filterMap (fun k => ((m.lookup k).map (k, ·)).map Prod.fst) = ks := by
    intro ks hks
    induction ks with
    | nil => rfl
    | cons k ks ih =>
      obtain ⟨v, hv⟩ := mem_iff_lookup.mp (hks k List.mem_cons_self)
      rw [List.filterMap_cons_some (b := k) (by simp [hv])]
      rw [ih (fun k' hk' => hks k' (List.mem_cons_of_mem _ hk'))]
  exact h _ (fun k hk => (o.perm m.keys).mem_iff.mp hk)

theorem nodup_iter_keys (o : IterOrder κ) (m : Table κ ν) : ((m.iter o).map Prod.fst).Nodup := by
  rw [iter_map_fst]
  exact (o.perm m.keys).nodup_iff.mpr m.keys_nodup

theorem nodup_iter (o : IterOrder κ) (m : Table κ ν) : (m.iter o).Nodup :=
  .of_map _ (nodup_iter_keys o m)

/-- The contributions of the entries have no repetition when none has one and no two meet. -/
theorem nodup_flatMap_iter {γ : Type*} {f : κ × ν → List γ}
    (hf : ∀ k v, m.lookup k = some v → (f (k, v)).Nodup)
    (hd : ∀ k v k' v' x, m.lookup k = some v → m.lookup k' = some v' → x ∈ f (k, v) →
      x ∈ f (k', v') → k = k') : ((m.iter o).flatMap f).Nodup := by
  refine List.nodup_flatMap.mpr ⟨fun e he => hf e.1 e.2 (mem_iter.mp he), ?_⟩
  refine (nodup_iter o m).pairwise_of_forall_ne fun e he e' he' hne x hx hx' => hne ?_
  have hlookup := mem_iter.mp he
  have hlookup' := mem_iter.mp he'
  have hkey : e.1 = e'.1 := hd _ _ _ _ x hlookup hlookup' hx hx'
  rw [← hkey, hlookup] at hlookup'
  exact Prod.ext hkey (Option.some.inj hlookup')

/-! ## Tables related entry by entry -/

/-- The same keys in the same order, with related values. -/
structure Related {ν' : Type*} (R : κ → ν → ν' → Prop) (m : Table κ ν) (m' : Table κ ν') :
    Prop where
  keys : m'.keys = m.keys
  values : ∀ k v v', m.lookup k = some v → m'.lookup k = some v' → R k v v'

namespace Related
variable {ν' : Type*} {R : κ → ν → ν' → Prop} {m' : Table κ ν'} {v' : ν'}

theorem refl {R : κ → ν → ν → Prop} (h : ∀ k v, m.lookup k = some v → R k v v) :
    Related R m m where
  keys := rfl
  values k v _ hv hv' := Option.some.inj (hv.symm.trans hv') ▸ h k v hv

theorem mem_iff (h : Related R m m') : k ∈ m' ↔ k ∈ m := by
  rw [mem_keys, mem_keys, h.keys]

/-- A key is missing in both tables, or has related values in both. -/
theorem lookup (h : Related R m m') (k : κ) : m.lookup k = none ∧ m'.lookup k = none ∨
    ∃ v v', m.lookup k = some v ∧ m'.lookup k = some v' ∧ R k v v' := by
  by_cases hk : k ∈ m
  · obtain ⟨v, hv⟩ := mem_iff_lookup.mp hk
    obtain ⟨v', hv'⟩ := mem_iff_lookup.mp (h.mem_iff.mpr hk)
    exact .inr ⟨v, v', hv, hv', h.values k v v' hv hv'⟩
  · exact .inl ⟨lookup_eq_none.mpr hk, lookup_eq_none.mpr fun hk' => hk (h.mem_iff.mp hk')⟩

theorem insert (h : Related R m m') (hv : R k v v') : Related R (m.insert k v) (m'.insert k v') where
  keys := by rw [keys_insert, keys_insert, h.keys]
  values k₁ v₁ v₁' h₁ h₁' := by
    rcases lookup_insert_some.mp h₁ with ⟨rfl, rfl⟩ | ⟨hne, h₁⟩
    · rcases lookup_insert_some.mp h₁' with ⟨_, rfl⟩ | ⟨hne, _⟩
      · exact hv
      · exact absurd rfl hne
    · rcases lookup_insert_some.mp h₁' with ⟨heq, _⟩ | ⟨_, h₁'⟩
      · exact absurd heq hne
      · exact h.values k₁ v₁ v₁' h₁ h₁'

theorem erase (h : Related R m m') (k : κ) : Related R (m.erase k) (m'.erase k) where
  keys := by rw [keys_erase, keys_erase, h.keys]
  values k₁ v₁ v₁' h₁ h₁' :=
    h.values k₁ v₁ v₁' (lookup_erase_some.mp h₁).2 (lookup_erase_some.mp h₁').2

/-- Loops over related tables that look at what the relation keeps give the same. -/
theorem filterMap_iter {γ : Type*} (h : Related R m m') {f : κ × ν → Option γ}
    {f' : κ × ν' → Option γ} (hf : ∀ k v v', R k v v' → f' (k, v') = f (k, v)) :
    (m'.iter o).filterMap f' = (m.iter o).filterMap f := by
  rw [iter, iter, h.keys, List.filterMap_filterMap, List.filterMap_filterMap]
  refine List.filterMap_congr fun k _ => ?_
  rcases h.lookup k with ⟨hv, hv'⟩ | ⟨v, v', hv, hv', hR⟩
  · simp [hv, hv']
  · simp [hv, hv', hf k v v' hR]

end Related

end AList
