import Roomie.Bincode

/-!
# Frames with their length in front

A stream of frames, each a length of four bytes, least significant first, and a payload. What is
at the head of a buffer is a frame, the beginning of one, or a length beyond the limit; which of
these it is does not depend on how the stream was cut into pieces.
-/

namespace Frames
open Bincode

def frame (payload : Bytes) : Bytes := littleEndian 4 payload.length ++ payload

/-- What stands at the head of a buffer. -/
inductive Head where
  | incomplete
  | oversized
  | frame (payload rest : Bytes)

/-- The length is read when four bytes are there, and the payload when all of it is. -/
def head (limit : ℕ) (buf : Bytes) : Head :=
  if buf.length < 4 then .incomplete
  else if limit < ofLittleEndian (buf.take 4) then .oversized
  else if buf.length < 4 + ofLittleEndian (buf.take 4) then .incomplete
  else .frame ((buf.drop 4).take (ofLittleEndian (buf.take 4)))
    (buf.drop (4 + ofLittleEndian (buf.take 4)))

@[simp] theorem length_frame (payload : Bytes) : (frame payload).length = 4 + payload.length := by
  rw [frame, List.length_append, length_littleEndian]

/-- Behind the frame at the head. -/
theorem head_rest {limit : ℕ} {buf payload rest : Bytes} (h : head limit buf = .frame payload rest) :
    4 + payload.length ≤ buf.length ∧ rest = buf.drop (4 + payload.length) := by
  unfold head at h
  split_ifs at h with hfour hlong hshort
  obtain ⟨rfl, rfl⟩ := Head.frame.inj h
  have hlen : ((buf.drop 4).take (ofLittleEndian (buf.take 4))).length =
      ofLittleEndian (buf.take 4) := by
    rw [List.length_take, List.length_drop]
    omega
  rw [hlen]
  exact ⟨Nat.not_lt.mp hshort, rfl⟩

/-- Once a frame is taken out the buffer is shorter, also if it is cleared over it. -/
theorem head_shorter {limit : ℕ} {buf payload rest buf' : Bytes}
    (h : head limit buf = .frame payload rest) (hbuf : buf' = rest ∨ buf' = []) :
    buf'.length < buf.length := by
  obtain ⟨hlen, hrest⟩ := head_rest h
  rcases hbuf with rfl | rfl
  · rw [hrest, List.length_drop]
    omega
  · rw [List.length_nil]
    omega

/-- What is cut off at the head is the frame of a payload within the limit. -/
theorem eq_of_head {limit : ℕ} {buf payload rest : Bytes} (h : head limit buf = .frame payload rest) :
    payload.length ≤ limit ∧ buf = frame payload ++ rest := by
  unfold head at h
  split_ifs at h with hfour hlong hshort
  obtain ⟨rfl, rfl⟩ := Head.frame.inj h
  have hheader : (buf.take 4).length = 4 := by
    rw [List.length_take]
    omega
  have hlen : ((buf.drop 4).take (ofLittleEndian (buf.take 4))).length =
      ofLittleEndian (buf.take 4) := by
    rw [List.length_take, List.length_drop]
    omega
  refine ⟨hlen.le.trans (Nat.not_lt.mp hlong), ?_⟩
  have hfront : littleEndian 4 (ofLittleEndian (buf.take 4)) = buf.take 4 := by
    have hround := littleEndian_ofLittleEndian (buf.take 4)
    rwa [hheader] at hround
  rw [frame, hlen, hfront, ← List.drop_drop, List.append_assoc, List.take_append_drop,
    List.take_append_drop]

/-- A payload of any length from 1 to the limit. -/
def Sound (limit : ℕ) (payload : Bytes) : Prop := 1 ≤ payload.length ∧ payload.length ≤ limit

/-- The beginning of a frame, not all of it. -/
def Unfinished (limit : ℕ) (tail : Bytes) : Prop :=
  ∃ payload, Sound limit payload ∧ tail <+: frame payload ∧ tail ≠ frame payload

section
variable {limit : ℕ} (hlimit : limit < 4294967296)
include hlimit

theorem header_eq {payload : Bytes} (h : payload.length ≤ limit) (rest : Bytes) :
    ofLittleEndian ((frame payload ++ rest).take 4) = payload.length := by
  have hlen := length_littleEndian 4 payload.length
  rw [frame, List.append_assoc, List.take_append_of_le_length hlen.ge,
    List.take_of_length_le hlen.le, ofLittleEndian_littleEndian (by norm_num; omega)]

theorem head_frame {payload : Bytes} (h : payload.length ≤ limit) (rest : Bytes) :
    head limit (frame payload ++ rest) = .frame payload rest := by
  have hlen := length_frame payload
  unfold head
  rw [header_eq hlimit h, if_neg (by rw [List.length_append]; omega), if_neg (by omega),
    if_neg (by rw [List.length_append]; omega)]
  have hdrop : (frame payload ++ rest).drop 4 = payload ++ rest := by
    rw [frame, List.append_assoc]
    exact List.drop_left' (length_littleEndian 4 _)
  rw [hdrop, List.take_left, ← hlen, List.drop_left]

/-- Where some bytes of a frame are missing the head is incomplete. -/
theorem head_prefix {payload buf : Bytes} (h : payload.length ≤ limit)
    (hbuf : buf <+: frame payload) (hne : buf ≠ frame payload) : head limit buf = .incomplete := by
  have hlt : buf.length < 4 + payload.length := by
    rw [← length_frame]
    exact lt_of_le_of_ne hbuf.length_le fun heq => hne (hbuf.eq_of_length heq)
  unfold head
  by_cases hfour : buf.length < 4
  · rw [if_pos hfour]
  · obtain ⟨more, hmore⟩ := hbuf
    have hheader := header_eq hlimit h []
    rw [List.append_nil, ← hmore, List.take_append_of_le_length (by omega)] at hheader
    rw [if_neg hfour, hheader, if_neg (by omega), if_pos hlt]

end

theorem Unfinished.head_eq {limit : ℕ} (hlimit : limit < 4294967296) {tail : Bytes}
    (h : Unfinished limit tail) : head limit tail = .incomplete := by
  obtain ⟨payload, hsound, hpre, hne⟩ := h
  exact head_prefix hlimit hsound.2 hpre hne

theorem Unfinished.of_prefix {limit : ℕ} {tail buf : Bytes} (h : Unfinished limit tail)
    (hbuf : buf <+: tail) : Unfinished limit buf := by
  obtain ⟨payload, hsound, hpre, hne⟩ := h
  refine ⟨payload, hsound, hbuf.trans hpre, ?_⟩
  rintro rfl
  exact hne (hpre.eq_of_length_le hbuf.length_le)

/-- The beginning of a stream is some whole frames and less than the frame that follows. -/
theorem split_stream {payloads : List Bytes} {buf : Bytes} (h : buf <+: payloads.flatMap frame) :
    ∃ done rest tail, payloads = done ++ rest ∧ buf = done.flatMap frame ++ tail ∧
      tail <+: rest.flatMap frame ∧ ∀ payload ∈ rest.head?, tail.length < (frame payload).length := by
  induction payloads generalizing buf with
  | nil =>
    have hnil : buf = [] := List.prefix_nil.mp h
    exact ⟨[], [], [], rfl, hnil, List.prefix_rfl, fun p hp => by cases hp⟩
  | cons payload payloads ih =>
    rw [List.flatMap_cons] at h
    by_cases hlen : (frame payload).length ≤ buf.length
    · obtain ⟨buf, rfl⟩ := List.prefix_of_prefix_length_le (List.prefix_append _ _) h hlen
      obtain ⟨done, rest, tail, rfl, rfl, htail, hnext⟩ := ih ((List.prefix_append_right_inj _).mp h)
      refine ⟨payload :: done, rest, tail, rfl, ?_, htail, hnext⟩
      rw [List.flatMap_cons, List.append_assoc]
    · refine ⟨[], payload :: payloads, buf, rfl, rfl, h, fun p hp => ?_⟩
      obtain rfl : payload = p := Option.some.inj hp
      exact Nat.not_le.mp hlen

/-- In what is less than the next frame there is no frame. -/
theorem head_tail {limit : ℕ} (hlimit : limit < 4294967296) {rest : List Bytes} {tail : Bytes}
    (hrest : ∀ payload ∈ rest, payload.length ≤ limit) (htail : tail <+: rest.flatMap frame)
    (hnext : ∀ payload ∈ rest.head?, tail.length < (frame payload).length) :
    head limit tail = .incomplete := by
  cases rest with
  | nil =>
    obtain rfl : tail = [] := List.prefix_nil.mp htail
    rfl
  | cons payload rest =>
    have hlt := hnext payload rfl
    rw [List.flatMap_cons] at htail
    refine head_prefix hlimit (hrest payload List.mem_cons_self)
      (List.prefix_of_prefix_length_le htail (List.prefix_append _ _) hlt.le) ?_
    rintro rfl
    exact Nat.lt_irrefl _ hlt

/-- At the beginning of a stream there is less than its first frame, or the frame. -/
theorem head_stream {limit : ℕ} (hlimit : limit < 4294967296) {rest : List Bytes} {tail : Bytes}
    (hrest : ∀ payload ∈ rest, payload.length ≤ limit) (htail : tail <+: rest.flatMap frame) :
    head limit tail = .incomplete ∧
        (∀ payload ∈ rest.head?, tail.length < (frame payload).length) ∨
      ∃ payload rest' tail', rest = payload :: rest' ∧ tail = frame payload ++ tail' ∧
        tail' <+: rest'.flatMap frame ∧ head limit tail = .frame payload tail' := by
  by_cases hnext : ∀ payload ∈ rest.head?, tail.length < (frame payload).length
  · exact .inl ⟨head_tail hlimit hrest htail hnext, hnext⟩
  · right
    push Not at hnext
    obtain ⟨payload, hhead, hlen⟩ := hnext
    obtain ⟨rest', rfl⟩ := List.head?_eq_some_iff.mp hhead
    rw [List.flatMap_cons] at htail
    obtain ⟨tail', rfl⟩ := List.prefix_of_prefix_length_le (List.prefix_append _ _) htail hlen
    refine ⟨payload, rest', tail', rfl, rfl, (List.prefix_append_right_inj _).mp htail, ?_⟩
    exact head_frame hlimit (hrest payload List.mem_cons_self) tail'

/-- Whole frames at the beginning of a stream are the first frames of it. -/
theorem split_frames {limit : ℕ} (hlimit : limit < 4294967296) {done payloads : List Bytes}
    (hdone : ∀ p ∈ done, p.length ≤ limit) (hpayloads : ∀ p ∈ payloads, p.length ≤ limit)
    {tail : Bytes} (h : done.flatMap frame ++ tail <+: payloads.flatMap frame) :
    ∃ rest, payloads = done ++ rest ∧ tail <+: rest.flatMap frame := by
  induction done generalizing payloads with
  | nil => exact ⟨payloads, rfl, h⟩
  | cons p done ih =>
    obtain ⟨hp, hdone⟩ := List.forall_mem_cons.mp hdone
    rw [List.flatMap_cons, List.append_assoc] at h
    have hhead := head_frame hlimit hp (done.flatMap frame ++ tail)
    rcases head_stream hlimit hpayloads h with ⟨hnone, -⟩ | ⟨q, payloads, tail', rfl, -, hrest, hq⟩
    · rw [hhead] at hnone
      cases hnone
    · obtain ⟨rfl, rfl⟩ := Head.frame.inj (hhead.symm.trans hq)
      obtain ⟨rest, rfl, htail⟩ := ih hdone (List.forall_mem_cons.mp hpayloads).2 hrest
      exact ⟨rest, rfl, htail⟩

end Frames
