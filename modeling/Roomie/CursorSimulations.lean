import Roomie.Cursors

/-!
# Two cursors on the same bytes

One cursor reports errors, the other does not. The second follows the first if, wherever the first
reads a value, the second reads one that corresponds to it and goes on at the same position. What is
read in this way may depend on how much of the data is left.
-/

namespace Cursors
open Bincode

variable {ε α β γ δ : Type} {data : Bytes} {lo : ℕ} {R : α → β → Prop} {S : γ → δ → Prop}
  {r : Cursor (Except ε) α} {s : Cursor Option β} {f : α → Cursor (Except ε) γ}
  {g : β → Cursor Option δ}

/-- From the position `lo` on the second cursor reads what the first reads. -/
def Follows (data : Bytes) (lo : ℕ) (R : α → β → Prop) (r : Cursor (Except ε) α)
    (s : Cursor Option β) : Prop :=
  ∀ pos a p, lo ≤ pos → pos ≤ data.length → r data pos = .ok (a, p) →
    pos ≤ p ∧ p ≤ data.length ∧ ∃ b, s data pos = some (b, p) ∧ R a b

/-- The same, and at least one byte is read. -/
def Precedes (data : Bytes) (R : α → β → Prop) (r : Cursor (Except ε) α)
    (s : Cursor Option β) : Prop :=
  ∀ pos a p, pos ≤ data.length → r data pos = .ok (a, p) →
    pos < p ∧ p ≤ data.length ∧ ∃ b, s data pos = some (b, p) ∧ R a b

theorem Precedes.follows (h : Precedes data R r s) : Follows data lo R r s := by
  intro pos a p _ hpos hr
  obtain ⟨hahead, hrest⟩ := h pos a p hpos hr
  exact ⟨hahead.le, hrest⟩

theorem Follows.mono {lo' : ℕ} (h : Follows data lo R r s) (hlo : lo ≤ lo') :
    Follows data lo' R r s :=
  fun pos a p hle hpos hr => h pos a p (hlo.trans hle) hpos hr

theorem Follows.congr {R' : α → β → Prop} (h : Follows data lo R r s)
    (hR : ∀ a b, R a b → R' a b) : Follows data lo R' r s := by
  intro pos a p hlo hpos hr
  obtain ⟨hahead, hin, b, hs, hab⟩ := h pos a p hlo hpos hr
  exact ⟨hahead, hin, b, hs, hR a b hab⟩

theorem Follows.pure {a : α} {b : β} (h : R a b) :
    Follows data lo R (pure a : Cursor (Except ε) α) (pure b) := by
  rintro pos _ _ _ hpos ⟨⟩
  exact ⟨le_rfl, hpos, b, rfl, h⟩

/-- What never reads anything is followed by everything. -/
theorem Follows.error (h : ∀ pos x, r data pos ≠ .ok x) : Follows data lo R r s :=
  fun pos _ _ _ _ hr => absurd hr (h pos _)

theorem bind_eq_ok {pos p : ℕ} {c : γ} (h : (r >>= f) data pos = .ok (c, p)) :
    ∃ a q, r data pos = .ok (a, q) ∧ f a data q = .ok (c, p) := by
  rw [Cursor.bind_apply] at h
  cases hr : r data pos with
  | error e =>
    rw [hr] at h
    cases h
  | ok x =>
    rw [hr] at h
    exact ⟨x.1, x.2, rfl, h⟩

theorem bind_eq_some {pos q p : ℕ} {b : β} {d : δ} (h : s data pos = some (b, q))
    (h' : g b data q = some (d, p)) : (s >>= g) data pos = some (d, p) := by
  rw [Cursor.bind_apply, h]
  exact h'

theorem of_bind_eq_some {pos : ℕ} {x : δ × ℕ} (h : (s >>= g) data pos = some x) :
    ∃ b q, s data pos = some (b, q) ∧ g b data q = some x := by
  obtain ⟨⟨b, q⟩, hs, hg⟩ := Option.bind_eq_some_iff.mp h
  exact ⟨b, q, hs, hg⟩

theorem Follows.bind (h : Follows data lo R r s)
    (h' : ∀ a b, R a b → Follows data lo S (f a) (g b)) :
    Follows data lo S (r >>= f) (s >>= g) := by
  intro pos c p hlo hpos hr
  obtain ⟨a, q, hfirst, hsecond⟩ := bind_eq_ok hr
  obtain ⟨hq, hqin, b, hs, hab⟩ := h pos a q hlo hpos hfirst
  obtain ⟨hp, hpin, d, hd, hcd⟩ := h' a b hab q c p (hlo.trans hq) hqin hsecond
  exact ⟨hq.trans hp, hpin, d, bind_eq_some hs hd, hcd⟩

/-- The second part begins later. -/
theorem Precedes.bind (h : Precedes data R r s)
    (h' : ∀ a b, R a b → Follows data (lo + 1) S (f a) (g b)) :
    Follows data lo S (r >>= f) (s >>= g) := by
  intro pos c p hlo hpos hr
  obtain ⟨a, q, hfirst, hsecond⟩ := bind_eq_ok hr
  obtain ⟨hq, hqin, b, hs, hab⟩ := h pos a q hpos hfirst
  obtain ⟨hp, hpin, d, hd, hcd⟩ := h' a b hab q c p (Nat.lt_of_le_of_lt hlo hq) hqin hsecond
  exact ⟨hq.le.trans hp, hpin, d, bind_eq_some hs hd, hcd⟩

theorem Follows.map {u : α → γ} {v : β → δ} (h : Follows data lo R r s)
    (h' : ∀ a b, R a b → S (u a) (v b)) : Follows data lo S (u <$> r) (v <$> s) := by
  rw [Cursor.map_eq_bind, Cursor.map_eq_bind]
  exact h.bind fun a b hab => .pure (h' a b hab)

/-- The value is changed on the first side only. -/
theorem Follows.map_left {T : γ → β → Prop} {u : α → γ} (h : Follows data lo R r s)
    (h' : ∀ a b, R a b → T (u a) b) : Follows data lo T (u <$> r) s := by
  intro pos c p hlo hpos hr
  rw [Cursor.map_eq_bind] at hr
  obtain ⟨a, q, hfirst, hsecond⟩ := bind_eq_ok hr
  cases hsecond
  obtain ⟨hahead, hin, b, hs, hab⟩ := h pos a _ hlo hpos hfirst
  exact ⟨hahead, hin, b, hs, h' a b hab⟩

theorem Follows.discard (h : Follows data lo R r s) :
    Follows data lo (fun _ _ => True) (discard r) (discard s) :=
  h.bind fun _ _ _ => .pure trivial

/-- A list that one reads to the end of the data, or of the list, the other reads so too. -/
theorem Follows.collect (h : Follows data lo R r s) (n : ℕ) :
    Follows data lo (List.Forall₂ R) (r.collect n) (s.collect n) := by
  induction n with
  | zero => exact .pure .nil
  | succ n ih =>
    intro pos as p hlo hpos hr
    by_cases hend : data.length ≤ pos
    · rw [Cursor.collect_end _ _ hend] at hr ⊢
      exact Follows.pure .nil pos as p hlo hpos hr
    · rw [Cursor.collect_more _ _ (Nat.not_le.mp hend)] at hr ⊢
      exact h.bind (fun a b hab => ih.bind fun as bs habs => .pure (.cons hab habs)) pos as p hlo
        hpos hr

/-- What the first cursor reads, wherever it stands, the second reads there. -/
theorem Reads.followed {L : ℕ} {a : α} {b : β} {w : Bytes} (hr : Reads L r a w)
    (h : ∀ data, data.length ≤ L → Follows data 0 R r s) (hR : ∀ b', R a b' → b' = b) :
    Reads L s b w := by
  intro pre post hL
  have hpos : pre.length ≤ (pre ++ (w ++ post)).length := by
    simp only [List.length_append]
    omega
  obtain ⟨-, -, b', hs, hab⟩ := h _ hL pre.length a _ (Nat.zero_le _) hpos (hr pre post hL)
  rw [hs, hR b' hab]
  rfl

end Cursors
