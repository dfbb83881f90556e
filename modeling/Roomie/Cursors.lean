import Roomie.Bincode

/-!
# Readers that move a cursor through a buffer

A cursor reads a value at a position of a buffer and says where to go on; the monad below it
says how reading may fail. What a cursor makes of written bytes does not depend on what stands
before or after them, so the laws of a record follow from those of its fields. A second law,
for cursors that report errors, says that bytes cut off anywhere are refused.
-/

namespace Cursors
open Bincode

variable {m : Type → Type} {α β : Type}

/-- The value read at a position, and the next position. -/
def Cursor (m : Type → Type) (α : Type) := Bytes → ℕ → m (α × ℕ)

namespace Cursor
variable [Monad m]

instance : Monad (Cursor m) where
  pure a := fun _ pos => Pure.pure (a, pos)
  bind r f := fun data pos => r data pos >>= fun x => f x.1 data x.2

theorem bind_apply (r : Cursor m α) (f : α → Cursor m β) (data : Bytes) (pos : ℕ) :
    (r >>= f) data pos = r data pos >>= fun x => f x.1 data x.2 := rfl

theorem map_eq_bind (f : α → β) (r : Cursor m α) :
    f <$> r = r >>= fun a => (Pure.pure (f a) : Cursor m β) := rfl

/-- The bytes of the buffer from `pos` on, `n` of them. -/
def slice (data : Bytes) (pos n : ℕ) : Bytes := (data.drop pos).take n

theorem slice_at (pre w post : Bytes) : slice (pre ++ (w ++ post)) pre.length w.length = w := by
  rw [slice, List.drop_left, List.take_left]

theorem length_slice {data : Bytes} {pos n : ℕ} (h : pos + n ≤ data.length) :
    (slice data pos n).length = n := by
  rw [slice, List.length_take, List.length_drop]
  omega

/-- The bytes behind a marker. -/
theorem slice_behind (pre : Bytes) (b : UInt8) (w post : Bytes) {k : ℕ} (hk : w.length = k) :
    slice (pre ++ ((b :: w) ++ post)) (pre.length + 1) k = w := by
  have hdata : pre ++ ((b :: w) ++ post) = (pre ++ [b]) ++ (w ++ post) := by simp
  have hpos : pre.length + 1 = (pre ++ [b]).length := by simp
  rw [hdata, hpos, ← hk]
  exact slice_at (pre ++ [b]) w post

theorem getD_at (pre : Bytes) (b : UInt8) (w post : Bytes) :
    (pre ++ ((b :: w) ++ post)).getD pre.length 0 = b := by
  simp

/-- Read again and again: at most `n` values, and none once the end of the data is reached. -/
def collect (r : Cursor m α) : ℕ → Cursor m (List α)
  | 0 => Pure.pure []
  | n + 1 => fun data pos =>
    if data.length ≤ pos then Pure.pure ([], pos)
    else (r >>= fun a => collect r n >>= fun as => Pure.pure (a :: as)) data pos

theorem collect_end (r : Cursor m α) (n : ℕ) {data : Bytes} {pos : ℕ} (h : data.length ≤ pos) :
    r.collect n data pos = Pure.pure ([], pos) := by
  cases n with
  | zero => rfl
  | succ n => exact if_pos h

theorem collect_more (r : Cursor m α) (n : ℕ) {data : Bytes} {pos : ℕ} (h : pos < data.length) :
    r.collect (n + 1) data pos =
      (r >>= fun a => r.collect n >>= fun as => (Pure.pure (a :: as) : Cursor m _)) data pos :=
  if_neg (Nat.not_le.mpr h)

end Cursor

/-- In every buffer of at most `L` bytes the cursor reads `a` from the bytes `w` and goes past
them. -/
def Reads [Monad m] (L : ℕ) (r : Cursor m α) (a : α) (w : Bytes) : Prop :=
  ∀ pre post, (pre ++ (w ++ post)).length ≤ L →
    r (pre ++ (w ++ post)) pre.length = Pure.pure (a, pre.length + w.length)

section Reads
variable [Monad m] {L : ℕ}

theorem Reads.pure (a : α) : Reads L (Pure.pure a : Cursor m α) a [] := by
  intro pre post _
  rfl

theorem Reads.congr {r : Cursor m α} {a b : α} {w v : Bytes} (h : Reads L r a w) (hb : a = b)
    (hv : w = v) : Reads L r b v := hb ▸ hv ▸ h

/-- The bytes that are read fit the buffer. -/
theorem Reads.within {r : Cursor m α} {a : α} {w : Bytes} (h : w.length ≤ L → Reads L r a w) :
    Reads L r a w := by
  intro pre post hL
  refine h ?_ pre post hL
  simp only [List.length_append] at hL
  omega

/-- At the start of a buffer that holds nothing else the cursor reads all of it. -/
theorem Reads.whole {r : Cursor m α} {a : α} {w : Bytes} (h : Reads L r a w) (hL : w.length ≤ L) :
    r w 0 = Pure.pure (a, w.length) := by
  simpa using h [] [] (by simpa using hL)

/-- The words that a cursor reads are no beginnings of each other. -/
theorem Reads.eq_of_prefix {r : Cursor Option α} {a b : α} {w v : Bytes}
    (hw : Reads v.length r a w) (hv : Reads v.length r b v) (h : w <+: v) : a = b := by
  obtain ⟨rest, rfl⟩ := h
  have hfirst : r (w ++ rest) 0 = some (a, 0 + w.length) := hw [] rest le_rfl
  have hall : r (w ++ rest) 0 = some (b, (w ++ rest).length) := hv.whole le_rfl
  rw [hfirst] at hall
  exact congrArg Prod.fst (Option.some.inj hall)

variable [LawfulMonad m]

theorem Reads.bind {r : Cursor m α} {f : α → Cursor m β} {a : α} {b : β} {w v : Bytes}
    (h : Reads L r a w) (h' : Reads L (f a) b v) : Reads L (r >>= f) b (w ++ v) := by
  intro pre post hL
  have hfirst : (pre ++ (w ++ (v ++ post))).length ≤ L := by simpa [Nat.add_assoc] using hL
  have hsecond : (pre ++ w ++ (v ++ post)).length ≤ L := by simpa [Nat.add_assoc] using hL
  have hv := h' (pre ++ w) post hsecond
  rw [List.append_assoc] at hv
  rw [Cursor.bind_apply, List.append_assoc, h pre (v ++ post) hfirst, pure_bind,
    ← List.length_append, hv]
  simp [Nat.add_assoc]

theorem Reads.map {r : Cursor m α} {a : α} {w : Bytes} (h : Reads L r a w) (f : α → β) :
    Reads L (f <$> r) (f a) w := by
  rw [Cursor.map_eq_bind, ← List.append_nil w]
  exact h.bind (.pure (f a))

/-- The last value read, and what is made of it. -/
theorem Reads.last {r : Cursor m α} {g : α → β} {a : α} {w : Bytes} (h : Reads L r a w) :
    Reads L (r >>= fun x => (Pure.pure (g x) : Cursor m β)) (g a) w :=
  h.map g

theorem Reads.collect {γ : Type} {r : Cursor m α} {xs : List γ} {f : γ → α} {w : γ → Bytes}
    (h : ∀ x ∈ xs, Reads L r (f x) (w x)) (hne : ∀ x ∈ xs, w x ≠ []) :
    Reads L (r.collect xs.length) (xs.map f) (xs.flatMap w) := by
  induction xs with
  | nil => exact .pure []
  | cons x xs ih =>
    have hbody := (h x List.mem_cons_self).bind (f := fun a => r.collect xs.length >>= fun as =>
        (Pure.pure (a :: as) : Cursor m (List α)))
      ((ih (fun y hy => h y (List.mem_cons_of_mem _ hy))
        fun y hy => hne y (List.mem_cons_of_mem _ hy)).bind (.pure _))
    rw [List.append_nil] at hbody
    intro pre post hL
    have hpos := List.length_pos_iff.mpr (hne x List.mem_cons_self)
    have hmore : pre.length < (pre ++ ((x :: xs).flatMap w ++ post)).length := by
      simp only [List.flatMap_cons, List.length_append]
      omega
    rw [List.length_cons, Cursor.collect_more r _ hmore]
    exact hbody pre post hL

/-- A list that announces more values than there are ends with the data. -/
theorem Reads.collect_short {γ : Type} {r : Cursor m α} {xs : List γ} {f : γ → α} {w : γ → Bytes}
    (h : ∀ x ∈ xs, Reads L r (f x) (w x)) (hne : ∀ x ∈ xs, w x ≠ []) {n : ℕ}
    (hn : xs.length ≤ n) (pre : Bytes) (hL : (pre ++ xs.flatMap w).length ≤ L) :
    r.collect n (pre ++ xs.flatMap w) pre.length =
      Pure.pure (xs.map f, (pre ++ xs.flatMap w).length) := by
  induction xs generalizing n pre with
  | nil =>
    rw [List.flatMap_nil, List.append_nil, Cursor.collect_end r n le_rfl]
    rfl
  | cons x xs ih =>
    obtain ⟨n, rfl⟩ := Nat.exists_eq_succ_of_ne_zero (Nat.ne_zero_of_lt hn)
    have hpos := List.length_pos_iff.mpr (hne x List.mem_cons_self)
    rw [List.flatMap_cons] at hL ⊢
    have hmore : pre.length < (pre ++ (w x ++ xs.flatMap w)).length := by
      simp only [List.length_append]
      omega
    have hrest := ih (fun y hy => h y (List.mem_cons_of_mem _ hy))
      (fun y hy => hne y (List.mem_cons_of_mem _ hy)) (Nat.le_of_succ_le_succ hn)
      (pre ++ w x) (by rwa [List.append_assoc])
    rw [List.append_assoc, List.length_append] at hrest
    rw [Cursor.collect_more r n hmore, Cursor.bind_apply,
      h x List.mem_cons_self pre (xs.flatMap w) hL, pure_bind, Cursor.bind_apply, hrest, pure_bind]
    rfl

end Reads

/-! ## Truncated data -/

/-- Where the bytes `w` fit the buffer, each proper prefix of them at its end is refused, with an
error of the kind `E`. -/
def Refuses {ε : Type} (E : ε → Prop) (L : ℕ) (r : Cursor (Except ε) α) (w : Bytes) : Prop :=
  ∀ pre q, q <+: w → q ≠ w → (pre ++ w).length ≤ L →
    ∃ e, E e ∧ r (pre ++ q) pre.length = .error e

/-- A proper prefix of two pieces ends in the first one, or in the second. -/
theorem prefix_append_cases {q w v : Bytes} (h : q <+: w ++ v) (hne : q ≠ w ++ v) :
    (q <+: w ∧ q ≠ w) ∨ ∃ q', q = w ++ q' ∧ q' <+: v ∧ q' ≠ v := by
  by_cases hlen : w.length ≤ q.length
  · obtain ⟨q', rfl⟩ := List.prefix_of_prefix_length_le (List.prefix_append w v) h hlen
    right
    refine ⟨q', rfl, (List.prefix_append_right_inj w).mp h, fun heq => hne (by rw [heq])⟩
  · left
    refine ⟨List.prefix_of_prefix_length_le h (List.prefix_append w v) (by omega), ?_⟩
    rintro rfl
    exact hlen le_rfl

/-- A proper prefix lacks the first byte already, or some byte behind it. -/
theorem prefix_cons_cases {b : UInt8} {q w : Bytes} (h : q <+: b :: w) (hne : q ≠ b :: w) :
    q = [] ∨ ∃ q', q = b :: q' ∧ q' <+: w ∧ q'.length < w.length := by
  rcases List.prefix_cons_iff.mp h with rfl | ⟨q', rfl, hq'⟩
  · exact .inl rfl
  · have hlt : q'.length < w.length :=
      lt_of_le_of_ne hq'.length_le fun heq => hne (by rw [hq'.eq_of_length heq])
    exact .inr ⟨q', rfl, hq', hlt⟩

/-- The cursor reads `a` from the bytes `w`, and refuses them when some are cut off. -/
structure Exact {ε : Type} (E : ε → Prop) (L : ℕ) (r : Cursor (Except ε) α) (a : α) (w : Bytes) :
    Prop where
  reads : Reads L r a w
  refuses : Refuses E L r w

section Refuses
variable {ε : Type} {E : ε → Prop} {L : ℕ} {r : Cursor (Except ε) α} {a : α} {w : Bytes}

theorem Refuses.nil (r : Cursor (Except ε) α) : Refuses E L r [] := by
  intro pre q hq hne
  exact absurd (List.prefix_nil.mp hq) hne

theorem Refuses.bind {f : α → Cursor (Except ε) β} {v : Bytes} (hr : Reads L r a w)
    (h : Refuses E L r w) (h' : Refuses E L (f a) v) : Refuses E L (r >>= f) (w ++ v) := by
  intro pre q hq hne hL
  have hsecond : (pre ++ w ++ v).length ≤ L := by rwa [List.append_assoc]
  rcases prefix_append_cases hq hne with ⟨hq, hne⟩ | ⟨q', rfl, hq', hne'⟩
  · have hfirst : (pre ++ w).length ≤ L := by
      rw [List.length_append] at hsecond
      omega
    obtain ⟨e, he, herr⟩ := h pre q hq hne hfirst
    exact ⟨e, he, by rw [Cursor.bind_apply, herr]; rfl⟩
  · have hbuffer : (pre ++ (w ++ q')).length ≤ L := by
      have hle := hq'.length_le
      simp only [List.length_append] at hsecond ⊢
      omega
    have hv := h' (pre ++ w) q' hq' hne' hsecond
    rw [List.append_assoc, List.length_append] at hv
    rw [Cursor.bind_apply, hr pre q' hbuffer, pure_bind]
    exact hv

/-- A buffer that holds nothing but a cut message is refused. -/
theorem Refuses.whole {q : Bytes} (h : Refuses E L r w) (hq : q <+: w) (hne : q ≠ w)
    (hL : w.length ≤ L) : ∃ e, E e ∧ r q 0 = .error e := by
  simpa using h [] q hq hne (by simpa using hL)

theorem Exact.pure (a : α) : Exact E L (Pure.pure a) a [] := ⟨.pure a, .nil _⟩

theorem Exact.bind {f : α → Cursor (Except ε) β} {b : β} {v : Bytes} (h : Exact E L r a w)
    (h' : Exact E L (f a) b v) : Exact E L (r >>= f) b (w ++ v) :=
  ⟨h.reads.bind h'.reads, .bind h.reads h.refuses h'.refuses⟩

theorem Exact.map (h : Exact E L r a w) (f : α → β) : Exact E L (f <$> r) (f a) w := by
  rw [Cursor.map_eq_bind, ← List.append_nil w]
  exact h.bind (.pure (f a))

theorem Exact.last {g : α → β} (h : Exact E L r a w) :
    Exact E L (r >>= fun x => (Pure.pure (g x) : Cursor (Except ε) β)) (g a) w :=
  h.map g

theorem Exact.congr {b : α} {v : Bytes} (h : Exact E L r a w) (hb : a = b) (hv : w = v) :
    Exact E L r b v := hb ▸ hv ▸ h

/-- The bytes fit the buffer. -/
theorem Exact.within (h : w.length ≤ L → Exact E L r a w) : Exact E L r a w := by
  refine ⟨.within fun hL => (h hL).reads, ?_⟩
  intro pre q hq hne hL
  refine (h ?_).refuses pre q hq hne hL
  rw [List.length_append] at hL
  omega

end Refuses
end Cursors
