import Roomie.Cursors

/-!
# Buffers with a position

A buffer holds bytes and has a position, where the next byte is written or read. Writing moves the
position; copying from another buffer leaves it where it is. A buffer that grows is made longer by
bytes that go behind its end, one of fixed size loses them.
-/

namespace ByteBuffers
open Bincode Cursors

inductive Growth where
  | fixed
  | grow
  deriving DecidableEq

@[ext] structure Buffer where
  growth : Growth
  bytes : Bytes
  pos : ℕ
  deriving DecidableEq

/-- So many of the bytes, with zeros behind them where there are too few. -/
def fit (n : ℕ) (data : Bytes) : Bytes := data.take n ++ List.replicate (n - data.length) 0

/-- Some bytes in the place of those that were there. -/
def overwrite (data : Bytes) (offset : ℕ) (w : Bytes) : Bytes :=
  fit offset data ++ w ++ data.drop (offset + w.length)

namespace Buffer

/-- A new buffer is full of zeros. -/
def create (size : ℕ) (growth : Growth) : Buffer := ⟨growth, List.replicate size 0, 0⟩

def size (b : Buffer) : ℕ := b.bytes.length

def seek (b : Buffer) (pos : ℕ) : Buffer := { b with pos := pos }

/-- Bytes are put somewhere; the position stays. -/
def put (b : Buffer) (offset : ℕ) (w : Bytes) : Buffer :=
  { b with bytes := match b.growth with
    | .grow => overwrite b.bytes offset w
    | .fixed => (overwrite b.bytes offset w).take b.size }

/-- Bytes are written at the position, which goes behind them. -/
def write (b : Buffer) (w : Bytes) : Buffer := (b.put b.pos w).seek (b.pos + w.length)

/-- `n` bytes of the source from an offset on, as far as it has them. -/
def copy (src : Buffer) (srcOffset n : ℕ) (dst : Buffer) (dstOffset : ℕ) : Buffer :=
  dst.put dstOffset (Cursor.slice src.bytes srcOffset n)

/-- The leading bytes stay. -/
def resize (b : Buffer) (size : ℕ) : Buffer := { b with bytes := fit size b.bytes }

end Buffer

/-! ## Bytes in the place of others -/

section
variable {data u w : Bytes} {offset n : ℕ}

@[simp] theorem length_fit (n : ℕ) (data : Bytes) : (fit n data).length = n := by
  rw [fit, List.length_append, List.length_take, List.length_replicate]
  omega

theorem fit_of_le (h : n ≤ data.length) : fit n data = data.take n := by
  rw [fit, Nat.sub_eq_zero_of_le h]
  exact List.append_nil _

theorem getElem?_fit (n : ℕ) (data : Bytes) (i : ℕ) :
    (fit n data)[i]? = if i < n then some (data.getD i 0) else none := by
  by_cases hi : i < n
  · rw [if_pos hi, fit]
    by_cases hdata : i < data.length
    · rw [List.getElem?_append_left (by rw [List.length_take]; omega), List.getElem?_take_of_lt hi,
        List.getD, List.getElem?_eq_getElem hdata]
      rfl
    · rw [List.getElem?_append_right (by rw [List.length_take]; omega), List.getD,
        List.getElem?_eq_none (Nat.not_lt.mp hdata), List.getElem?_replicate,
        if_pos (by rw [List.length_take]; omega)]
      rfl
  · rw [if_neg hi, List.getElem?_eq_none (by rw [length_fit]; omega)]

theorem overwrite_end (data w : Bytes) : overwrite data data.length w = data ++ w := by
  rw [overwrite, fit_of_le le_rfl, List.take_length,
    List.drop_of_length_le (Nat.le_add_right _ _), List.append_nil]

theorem overwrite_start (data w : Bytes) : overwrite data 0 w = w ++ data.drop w.length := by
  rw [overwrite, fit_of_le (Nat.zero_le _), Nat.zero_add]
  rfl

/-- What stands at each place. -/
theorem getElem?_overwrite (data : Bytes) (offset : ℕ) (w : Bytes) (i : ℕ) :
    (overwrite data offset w)[i]? =
      if i < offset then some (data.getD i 0)
      else if i < offset + w.length then w[i - offset]? else data[i]? := by
  unfold overwrite
  by_cases hbefore : i < offset
  · rw [if_pos hbefore, List.append_assoc, List.getElem?_append_left (by rwa [length_fit]),
      getElem?_fit, if_pos hbefore]
  rw [if_neg hbefore]
  by_cases hin : i < offset + w.length
  · rw [if_pos hin, List.append_assoc, List.getElem?_append_right (by rw [length_fit]; omega),
      length_fit, List.getElem?_append_left (by omega)]
  · rw [if_neg hin, List.getElem?_append_right (by rw [List.length_append, length_fit]; omega),
      List.length_append, length_fit, List.getElem?_drop]
    congr 1
    omega

/-- One piece behind the other. -/
theorem overwrite_append (data : Bytes) (offset : ℕ) (u w : Bytes) :
    overwrite data offset (u ++ w) = overwrite (overwrite data offset u) (offset + u.length) w := by
  have hlen : (fit offset data ++ u).length = offset + u.length := by
    rw [List.length_append, length_fit]
  have hfirst : fit (offset + u.length) (overwrite data offset u) = fit offset data ++ u := by
    rw [fit_of_le, overwrite, List.take_left' hlen]
    rw [overwrite, List.length_append, hlen]
    exact Nat.le_add_right _ _
  have hrest : (overwrite data offset u).drop (offset + u.length + w.length) =
      data.drop (offset + u.length + w.length) := by
    rw [overwrite, ← List.drop_drop, List.drop_left' hlen, List.drop_drop]
  calc overwrite data offset (u ++ w)
      = fit offset data ++ u ++ w ++ data.drop (offset + u.length + w.length) := by
        rw [overwrite, List.length_append, ← Nat.add_assoc, List.append_assoc _ u w]
    _ = overwrite (overwrite data offset u) (offset + u.length) w := by
        rw [overwrite, hfirst, hrest]

/-- Bytes that are lost behind the end do not come back. -/
theorem take_overwrite (n : ℕ) (data : Bytes) (offset : ℕ) (w : Bytes) :
    (overwrite (data.take n) offset w).take n = (overwrite data offset w).take n := by
  apply List.ext_getElem?
  intro i
  rw [List.getElem?_take, List.getElem?_take]
  by_cases hi : i < n
  · have hdata : (data.take n)[i]? = data[i]? := List.getElem?_take_of_lt hi
    rw [if_pos hi, if_pos hi, getElem?_overwrite, getElem?_overwrite, List.getD, List.getD, hdata]
  · rw [if_neg hi, if_neg hi]

end

/-! ## Operations on buffers -/

namespace Buffer
variable {b : Buffer}

@[simp] theorem put_growth (b : Buffer) (offset : ℕ) (w : Bytes) :
    (b.put offset w).growth = b.growth := rfl

@[simp] theorem put_pos (b : Buffer) (offset : ℕ) (w : Bytes) : (b.put offset w).pos = b.pos := rfl

@[simp] theorem write_growth (b : Buffer) (w : Bytes) : (b.write w).growth = b.growth := rfl

@[simp] theorem write_pos (b : Buffer) (w : Bytes) : (b.write w).pos = b.pos + w.length := rfl

@[simp] theorem copy_pos (src : Buffer) (srcOffset n : ℕ) (dst : Buffer) (dstOffset : ℕ) :
    (src.copy srcOffset n dst dstOffset).pos = dst.pos := rfl

@[simp] theorem copy_growth (src : Buffer) (srcOffset n : ℕ) (dst : Buffer) (dstOffset : ℕ) :
    (src.copy srcOffset n dst dstOffset).growth = dst.growth := rfl

theorem resize_zero (b : Buffer) : (b.resize 0).bytes = [] :=
  List.length_eq_zero_iff.mp (length_fit 0 b.bytes)

theorem put_grow (h : b.growth = .grow) (offset : ℕ) (w : Bytes) :
    (b.put offset w).bytes = overwrite b.bytes offset w := by
  unfold put
  rw [h]

theorem put_fixed (h : b.growth = .fixed) (offset : ℕ) (w : Bytes) :
    (b.put offset w).bytes = (overwrite b.bytes offset w).take b.size := by
  unfold put
  rw [h]

/-- A buffer of fixed size keeps it. -/
theorem size_put_fixed (h : b.growth = .fixed) (offset : ℕ) (w : Bytes) :
    (b.put offset w).size = b.size := by
  rw [size, put_fixed h, List.length_take, Nat.min_eq_left]
  simp only [size, overwrite, List.length_append, length_fit, List.length_drop]
  omega

theorem put_append (b : Buffer) (offset : ℕ) (u w : Bytes) :
    b.put offset (u ++ w) = (b.put offset u).put (offset + u.length) w := by
  refine Buffer.ext rfl ?_ rfl
  cases h : b.growth with
  | grow =>
    have h' : (b.put offset u).growth = .grow := h
    rw [put_grow h, put_grow h', put_grow h, overwrite_append]
  | fixed =>
    have h' : (b.put offset u).growth = .fixed := h
    rw [put_fixed h, put_fixed h', size_put_fixed h, put_fixed h, take_overwrite, overwrite_append]

/-- Writing twice is writing both. -/
theorem write_append (b : Buffer) (u w : Bytes) : b.write (u ++ w) = (b.write u).write w := by
  unfold write
  rw [put_append, List.length_append, ← Nat.add_assoc]
  rfl

/-- A buffer of fixed size that is filled. -/
theorem put_all (h : b.growth = .fixed) {w : Bytes} (hw : w.length = b.size) :
    (b.put 0 w).bytes = w := by
  rw [put_fixed h, overwrite_start, ← hw, List.take_left]

section
variable {src : Buffer}

theorem slice_all (src : Buffer) : Cursor.slice src.bytes 0 src.size = src.bytes := List.take_length

/-- Copying all of a buffer to the end of one that grows. -/
theorem copy_end (src : Buffer) (h : b.growth = .grow) :
    (src.copy 0 src.size b b.size).bytes = b.bytes ++ src.bytes := by
  rw [copy, slice_all, put_grow h]
  exact overwrite_end b.bytes src.bytes

/-- Copying into a new buffer of the right size. -/
theorem copy_create {offset n : ℕ} (h : offset + n ≤ src.size) :
    (src.copy offset n (create n .fixed) 0).bytes = Cursor.slice src.bytes offset n := by
  have hlen : (Cursor.slice src.bytes offset n).length = n := Cursor.length_slice h
  have hsize : (create n .fixed).size = n := List.length_replicate
  rw [copy, put_fixed rfl, overwrite_start, hsize, List.take_left' hlen]

/-- Copying all of a buffer to the start of one that grows, which then holds nothing else. -/
theorem resize_copy_start (src : Buffer) (h : b.growth = .grow) :
    ((src.copy 0 src.size b 0).resize src.size).bytes = src.bytes := by
  change fit src.size (src.copy 0 src.size b 0).bytes = src.bytes
  rw [copy, slice_all, put_grow h, overwrite_start, fit_of_le, size, List.take_left]
  rw [List.length_append]
  exact Nat.le_add_right _ _

end

/-! ### What has been written -/

/-- A buffer that grows, with just these bytes before its position. -/
structure Holds (b : Buffer) (w : Bytes) : Prop where
  grows : b.growth = .grow
  pos_eq : b.pos = w.length
  begins : w <+: b.bytes

theorem holds_create (n : ℕ) : (create n .grow).Holds [] := ⟨rfl, rfl, List.nil_prefix⟩

section
variable {w : Bytes} (h : b.Holds w)
include h

theorem Holds.take : b.bytes.take b.pos = w := by
  rw [h.pos_eq]
  exact (List.prefix_iff_eq_take.mp h.begins).symm

theorem Holds.pos_le : b.pos ≤ b.size := h.pos_eq ▸ h.begins.length_le

theorem Holds.fit_pos : fit b.pos b.bytes = w := (fit_of_le h.pos_le).trans h.take

/-- Something is written behind. -/
theorem Holds.write (u : Bytes) : (b.write u).Holds (w ++ u) where
  grows := h.grows
  pos_eq := by rw [write_pos, h.pos_eq, List.length_append]
  begins := by
    change w ++ u <+: (b.put b.pos u).bytes
    rw [put_grow h.grows, overwrite, h.fit_pos]
    exact List.prefix_append _ _

/-- Something is put behind, and the position does not move. -/
theorem Holds.copy (src : Buffer) (srcOffset n : ℕ) :
    (src.copy srcOffset n b b.pos).Holds w where
  grows := h.grows
  pos_eq := h.pos_eq
  begins := by
    rw [Buffer.copy, put_grow h.grows, overwrite, h.fit_pos, List.append_assoc]
    exact List.prefix_append _ _

end

/-! ### Writers -/

/-- A function on buffers that puts just these bytes behind what has been written, as long as the
position does not go past a limit; it never moves the position back. -/
structure Writes (L : ℕ) (f : Buffer → Buffer) (w : Bytes) : Prop where
  forward : ∀ b, b.pos ≤ (f b).pos
  holds : ∀ b v, b.Holds v → (f b).pos ≤ L → (f b).Holds (v ++ w)

section
variable {L : ℕ} {f g : Buffer → Buffer} {u w : Bytes}

theorem Writes.write (L : ℕ) (w : Bytes) : Writes L (fun b => b.write w) w where
  forward _ := Nat.le_add_right _ _
  holds _ _ h _ := h.write w

theorem Writes.nothing (L : ℕ) : Writes L (fun b => b) [] where
  forward _ := le_rfl
  holds _ v h _ := by rwa [List.append_nil]

/-- One writer after the other. -/
theorem Writes.andThen (h : Writes L f w) (h' : Writes L g u) :
    Writes L (fun b => g (f b)) (w ++ u) where
  forward b := (h.forward b).trans (h'.forward _)
  holds b v hb hL := by
    rw [← List.append_assoc]
    exact h'.holds _ _ (h.holds b v hb ((h'.forward _).trans hL)) hL

theorem Writes.congr (h : Writes L f w) (hw : w = u) : Writes L f u := hw ▸ h

/-- A new buffer that grows holds just what a writer has put into it. -/
theorem Writes.holds_create (h : Writes L f w) (n : ℕ) (hL : (f (create n .grow)).pos ≤ L) :
    (f (create n .grow)).Holds w :=
  h.holds _ _ (Buffer.holds_create n) hL

end

end Buffer

end ByteBuffers
