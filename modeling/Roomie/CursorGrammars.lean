import Roomie.CursorSimulations

/-!
# The words that a cursor reads

A language says which bytes stand for which value. A cursor keeps to a language if the bytes that it
goes past are a word for the value it yields. This is asked only where it stops before the end of
the data: at the end a list may be cut short.
-/

namespace Cursors
open Bincode

variable {ε α β γ : Type} {L : ℕ} {r : Cursor (Except ε) α} {f : α → Cursor (Except ε) β}
  {P P' : α → Bytes → Prop} {Q : β → Bytes → Prop}

/-- Two pieces of the data that stand one behind the other. -/
theorem Cursor.slice_append {data : Bytes} {pos q p : ℕ} (hq : pos ≤ q) (hp : q ≤ p) :
    slice data pos (q - pos) ++ slice data q (p - q) = slice data pos (p - pos) := by
  have hdrop : data.drop q = (data.drop pos).drop (q - pos) := by
    rw [List.drop_drop, Nat.add_sub_cancel' hq]
  have hlen : p - pos = (q - pos) + (p - q) := by omega
  rw [slice, slice, slice, hdrop, hlen, List.take_add]

theorem Cursor.slice_self (data : Bytes) (pos : ℕ) : slice data pos (pos - pos) = [] := by
  rw [slice, Nat.sub_self, List.take_zero]

theorem Cursor.slice_one {data : Bytes} {pos : ℕ} (h : pos < data.length) :
    slice data pos 1 = [data.getD pos 0] := by
  rw [slice, List.drop_eq_getElem_cons h, List.getD, List.getElem?_eq_getElem h]
  rfl

/-- The bytes that the cursor goes past are a word for what it reads. -/
def KeepsTo (L : ℕ) (r : Cursor (Except ε) α) (P : α → Bytes → Prop) : Prop :=
  ∀ data pos a p, data.length ≤ L → pos ≤ data.length → r data pos = .ok (a, p) →
    pos ≤ p ∧ p ≤ data.length ∧ (p < data.length → P a (Cursor.slice data pos (p - pos)))

theorem KeepsTo.congr (h : KeepsTo L r P) (hP : ∀ a w, P a w → P' a w) : KeepsTo L r P' := by
  intro data pos a p hL hpos hr
  obtain ⟨hahead, hin, hword⟩ := h data pos a p hL hpos hr
  exact ⟨hahead, hin, fun hlt => hP a _ (hword hlt)⟩

/-- The cursor takes a number of bytes that are there. -/
theorem KeepsTo.of_slice (h : ∀ data pos a p, data.length ≤ L → pos ≤ data.length →
      r data pos = .ok (a, p) →
      ∃ n, p = pos + n ∧ pos + n ≤ data.length ∧ P a (Cursor.slice data pos n)) :
    KeepsTo L r P := by
  intro data pos a p hL hpos hr
  obtain ⟨n, rfl, hin, hword⟩ := h data pos a p hL hpos hr
  refine ⟨Nat.le_add_right pos n, hin, fun _ => ?_⟩
  rwa [Nat.add_sub_cancel_left]

/-- What never reads anything keeps to every language. -/
theorem KeepsTo.error (h : ∀ data pos x, r data pos ≠ .ok x) : KeepsTo L r P :=
  fun data pos _ _ _ _ hr => absurd hr (h data pos _)

theorem KeepsTo.pure {a : α} (h : P a []) : KeepsTo L (pure a : Cursor (Except ε) α) P := by
  rintro data pos _ _ _ hpos ⟨⟩
  refine ⟨le_rfl, hpos, fun _ => ?_⟩
  rw [Cursor.slice_self]
  exact h

theorem KeepsTo.bind (h : KeepsTo L r P)
    (h' : ∀ a, KeepsTo L (f a) fun b v => ∀ w, P a w → Q b (w ++ v)) : KeepsTo L (r >>= f) Q := by
  intro data pos b p hL hpos hr
  obtain ⟨a, q, hfirst, hsecond⟩ := bind_eq_ok hr
  obtain ⟨hq, hqin, hword⟩ := h data pos a q hL hpos hfirst
  obtain ⟨hp, hpin, hword'⟩ := h' a data q b p hL hqin hsecond
  refine ⟨hq.trans hp, hpin, fun hlt => ?_⟩
  rw [← Cursor.slice_append hq hp]
  exact hword' hlt _ (hword (Nat.lt_of_le_of_lt hp hlt))

theorem KeepsTo.map {u : α → β} (h : KeepsTo L r P) (h' : ∀ a w, P a w → Q (u a) w) :
    KeepsTo L (u <$> r) Q := by
  rw [Cursor.map_eq_bind]
  refine h.bind fun a => .pure fun w hw => ?_
  rw [List.append_nil]
  exact h' a w hw

theorem KeepsTo.discard {P : Bytes → Prop} (h : KeepsTo L r fun _ w => P w) :
    KeepsTo L (discard r) fun _ w => P w := by
  refine h.bind fun _ => .pure ?_
  intro w hw
  rwa [List.append_nil]

/-- A list that is not cut short is written one entry behind the other. -/
theorem KeepsTo.collect (h : KeepsTo L r P) (n : ℕ) :
    KeepsTo L (r.collect n) fun as w =>
      as.length = n ∧ ∃ ws, List.Forall₂ P as ws ∧ w = ws.flatten := by
  induction n with
  | zero => exact .pure ⟨rfl, [], .nil, rfl⟩
  | succ n ih =>
    have hbody : KeepsTo L (r >>= fun a => r.collect n >>= fun as =>
        (Pure.pure (a :: as) : Cursor (Except ε) (List α)))
        fun as w => as.length = n + 1 ∧ ∃ ws, List.Forall₂ P as ws ∧ w = ws.flatten := by
      refine h.bind fun a => ih.bind fun as => .pure ?_
      rintro v ⟨hlen, ws, hws, rfl⟩ w hw
      refine ⟨congrArg (· + 1) hlen, w :: ws, .cons hw hws, ?_⟩
      rw [List.append_nil, List.flatten_cons]
    intro data pos as p hL hpos hr
    by_cases hend : data.length ≤ pos
    · rw [Cursor.collect_end _ _ hend] at hr
      cases hr
      exact ⟨le_rfl, hpos, fun hlt => absurd hend (Nat.not_le.mpr hlt)⟩
    · rw [Cursor.collect_more _ _ (Nat.not_le.mp hend)] at hr
      exact hbody data pos as p hL hpos hr

/-! ## What stands behind a word -/

section
variable {m : Type → Type} [Monad m]

/-- Somewhere, before the end of the data, the cursor goes past the word. -/
def Stops (L : ℕ) (r : Cursor m α) (w : Bytes) : Prop :=
  ∃ pre post a, post ≠ [] ∧ (pre ++ (w ++ post)).length ≤ L ∧
    r (pre ++ (w ++ post)) pre.length = Pure.pure (a, pre.length + w.length)

theorem Reads.stops {r : Cursor m α} {a : α} {w : Bytes} (h : Reads L r a w) (hL : w.length < L) :
    Stops L r w := by
  have hlen : ([] ++ (w ++ [0])).length ≤ L := by
    rw [List.nil_append, List.length_append]
    exact hL
  exact ⟨[], [0], a, List.cons_ne_nil _ _, hlen, h [] [0] hlen⟩

variable [LawfulMonad m]

theorem Reads.discard {r : Cursor m α} {a : α} {w : Bytes} (h : Reads L r a w) :
    Reads L (discard r) () w :=
  h.map fun _ => ()

/-- Behind what one cursor reads the next goes on. -/
theorem Reads.next {r : Cursor m α} {f : α → Cursor m β} {a : α} {w : Bytes} (h : Reads L r a w)
    {pre post : Bytes} (hL : (pre ++ (w ++ post)).length ≤ L) :
    (r >>= f) (pre ++ (w ++ post)) pre.length = f a (pre ++ w ++ post) (pre ++ w).length := by
  rw [Cursor.bind_apply, h pre post hL, pure_bind, List.length_append, List.append_assoc]

theorem Stops.behind {r : Cursor m α} {f : α → Cursor m β} {a : α} {w v : Bytes}
    (h : Stops L (r >>= f) (w ++ v)) (hr : Reads L r a w) : Stops L (f a) v := by
  obtain ⟨pre, post, b, hpost, hL, hb⟩ := h
  have hend : pre.length + (w ++ v).length = (pre ++ w).length + v.length := by
    simp only [List.length_append, Nat.add_assoc]
  rw [List.append_assoc] at hL hb
  rw [hr.next hL, hend] at hb
  exact ⟨pre ++ w, post, b, hpost, by rwa [List.append_assoc], hb⟩

end

/-- The value that is read last is not changed any more. -/
theorem Stops.last {r : Cursor (Except ε) α} {g : α → β} {w : Bytes}
    (h : Stops L (r >>= fun a => (Pure.pure (g a) : Cursor (Except ε) β)) w) : Stops L r w := by
  obtain ⟨pre, post, b, hpost, hL, hb⟩ := h
  obtain ⟨a, q, hr, hq⟩ := bind_eq_ok hb
  cases hq
  exact ⟨pre, post, a, hpost, hL, hr⟩

/-- What a cursor goes past is a word of the language that it keeps to. -/
theorem Stops.word {w : Bytes} (h : Stops L r w) (hkeeps : KeepsTo L r P) : ∃ a, P a w := by
  obtain ⟨pre, post, a, hpost, hL, hr⟩ := h
  have hin : pre.length ≤ (pre ++ (w ++ post)).length := by
    rw [List.length_append]
    exact Nat.le_add_right _ _
  have hlt : pre.length + w.length < (pre ++ (w ++ post)).length := by
    have hpos := List.length_pos_iff.mpr hpost
    simp only [List.length_append]
    omega
  obtain ⟨-, -, hword⟩ := hkeeps _ _ a _ hL hin hr
  refine ⟨a, ?_⟩
  have hw := hword hlt
  rwa [Nat.add_sub_cancel_left, Cursor.slice_at] at hw

/-- A cursor that comes to an end did so in its first part. -/
theorem isSome_first {s : Cursor Option α} {g : α → Cursor Option β} {data : Bytes} {pos : ℕ}
    (h : ((s >>= g) data pos).isSome = true) : (s data pos).isSome = true := by
  cases hs : s data pos with
  | none =>
    rw [Cursor.bind_apply, hs] at h
    cases h
  | some x => rfl

/-- A list of words on which a cursor comes to an end: it does so on each of them. -/
theorem collect_isSome {s : Cursor Option α} {a : α} {good : Bytes → Prop} {words : List Bytes}
    (hne : ∀ w ∈ words, w ≠ []) (hreads : ∀ w ∈ words, good w → Reads L s a w)
    (hgood : ∀ w ∈ words, ∀ pre post, (pre ++ (w ++ post)).length ≤ L →
      (s (pre ++ (w ++ post)) pre.length).isSome = true → good w)
    {pre post : Bytes} (hL : (pre ++ (words.flatten ++ post)).length ≤ L)
    (h : (s.collect words.length (pre ++ (words.flatten ++ post)) pre.length).isSome = true) :
    ∀ w ∈ words, good w := by
  induction words generalizing pre with
  | nil => exact fun w hw => by cases hw
  | cons w words ih =>
    obtain ⟨hne, hne'⟩ := List.forall_mem_cons.mp hne
    obtain ⟨hreads, hreads'⟩ := List.forall_mem_cons.mp hreads
    obtain ⟨hgood, hgood'⟩ := List.forall_mem_cons.mp hgood
    have hpos := List.length_pos_iff.mpr hne
    rw [List.flatten_cons, List.append_assoc] at hL h
    have hmore : pre.length < (pre ++ (w ++ (words.flatten ++ post))).length := by
      simp only [List.length_append]
      omega
    rw [List.length_cons, Cursor.collect_more _ _ hmore] at h
    have hword : good w := hgood pre (words.flatten ++ post) hL (isSome_first h)
    rw [(hreads hword).next hL] at h
    have hL' : ((pre ++ w) ++ (words.flatten ++ post)).length ≤ L := by
      rwa [List.append_assoc]
    exact List.forall_mem_cons.mpr ⟨hword, ih hne' hreads' hgood' hL' (isSome_first h)⟩

end Cursors
