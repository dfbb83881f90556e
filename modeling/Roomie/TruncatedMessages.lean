import Roomie.ClientDecoders

/-!
# Truncated messages

A payload that ends too early. The C# reader throws wherever a field is cut, and only a room list
cut between two of its entries goes through as a shorter one. The C++ reader goes on with zero
values and calls the callback nevertheless; what keeps it quiet is the check that a blob is not
empty, so only inputs and states are rejected, and of the inputs not all: what is left of a cut
peer id can pass for a blob.
-/

namespace Roomie
open Bincode Cursors

namespace Cpp

/-! ## What the reader makes of cut fields -/

/-- A small value takes a byte. -/
theorem readVarint_byte (pre : Bytes) {b : UInt8} {q : Bytes} (hb : b.toNat < 251)
    (hL : (pre ++ b :: q).length ≤ maxFrameLen) :
    readVarint (pre ++ b :: q) pre.length = some (b.toNat, pre.length + 1) := by
  have hread := readVarint_reads (L := maxFrameLen) (n := b.toNat) (by omega) pre q
  rw [Bincode.writeVarint, if_pos hb, UInt8.ofNat_toNat] at hread
  exact hread hL

/-- A marker with too few bytes behind it. -/
def CutMarker (b : UInt8) (q : Bytes) : Prop :=
  (b = 251 ∧ q.length < 2) ∨ (b = 252 ∧ q.length < 4) ∨ (b = 253 ∧ q.length < 8)

theorem readVarint_marker {pre : Bytes} {b : UInt8} {q : Bytes} (h : CutMarker b q)
    (hL : (pre ++ b :: q).length ≤ maxFrameLen) :
    readVarint (pre ++ b :: q) pre.length = some (0, pre.length + 1) := by
  have hfirst : need (pre ++ b :: q) pre.length 1 = true :=
    need_at (w := [b]) (by simp)
  have hshort : ∀ k, q.length < k → k ≤ 8 → need (pre ++ b :: q) (pre.length + 1) k = false := by
    intro k hk hk8
    simp only [List.length_append, List.length_cons, maxFrameLen] at hL
    rw [Bool.eq_false_iff, Ne, need_iff (by omega)]
    simp only [List.length_append, List.length_cons]
    omega
  rcases h with ⟨rfl, hq⟩ | ⟨rfl, hq⟩ | ⟨rfl, hq⟩
  · simp [readVarint, hfirst, hshort 2 hq (by omega)]
  · simp [readVarint, hfirst, hshort 4 hq (by omega)]
  · simp [readVarint, hfirst, hshort 8 hq (by omega)]

/-- A cut varint: nothing is left, or a marker and some of its bytes. -/
theorem varint_cut {n : ℕ} {q : Bytes} (hq : q <+: Bincode.writeVarint n)
    (hne : q ≠ Bincode.writeVarint n) : q = [] ∨ ∃ b q', q = b :: q' ∧ CutMarker b q' := by
  unfold Bincode.writeVarint at hq hne
  split_ifs at hq hne
  · rcases prefix_cons_cases hq hne with rfl | ⟨q', rfl, -, hlt⟩
    · exact .inl rfl
    · exact absurd hlt (Nat.not_lt_zero _)
  all_goals
    rcases prefix_cons_cases hq hne with rfl | ⟨q', rfl, -, hlt⟩
    · exact .inl rfl
    · rw [length_littleEndian] at hlt
      exact .inr ⟨_, q', rfl, by simp [CutMarker, hlt]⟩

theorem readVarint_cut {n : ℕ} {pre q : Bytes} (hq : q <+: Bincode.writeVarint n)
    (hne : q ≠ Bincode.writeVarint n) (hL : (pre ++ q).length ≤ maxFrameLen) :
    ∃ pos, readVarint (pre ++ q) pre.length = some (0, pos) := by
  rcases varint_cut hq hne with rfl | ⟨b, q', rfl, hcut⟩
  · rw [List.append_nil] at hL ⊢
    exact ⟨pre.length, readVarint_end hL⟩
  · exact ⟨pre.length + 1, readVarint_marker hcut hL⟩

theorem readLength_zero (limit : ℕ) (data : Bytes) (pos : ℕ) :
    readLength limit 0 data pos = some ([], pos) := by
  unfold readLength
  split_ifs
  · rfl
  · rfl

theorem readLength_short (limit : ℕ) {len : ℕ} {data : Bytes} {pos : ℕ}
    (h : data.length < pos + len) (hsmall : pos + len < 2 ^ 64) :
    readLength limit len data pos = some ([], pos) := by
  have hneed : need data pos len = false := by
    rw [Bool.eq_false_iff, Ne, need_iff hsmall]
    omega
  rw [readLength, hneed, if_pos (by simp)]

/-- A cut blob is read as the empty one. -/
theorem readBytes_cut {b : Blob} {pre q : Bytes} (hq : q <+: blob.write b)
    (hne : q ≠ blob.write b) (hL : (pre ++ blob.write b).length ≤ maxFrameLen) :
    ∃ pos, readBytes (pre ++ q) pre.length = some ([], pos) := by
  have hbuffer : (pre ++ q).length ≤ maxFrameLen := by
    have hle := hq.length_le
    simp only [List.length_append] at hL ⊢
    omega
  change q <+: Bincode.writeVarint b.length ++ b at hq
  change q ≠ Bincode.writeVarint b.length ++ b at hne
  change (pre ++ (Bincode.writeVarint b.length ++ b)).length ≤ maxFrameLen at hL
  rcases prefix_append_cases hq hne with ⟨hq, hne⟩ | ⟨q', rfl, hq', hne'⟩
  · obtain ⟨pos, hread⟩ := readVarint_cut hq hne hbuffer
    refine ⟨pos, ?_⟩
    rw [readBytes, Cursor.bind_apply, hread]
    exact readLength_zero maxFrameLen _ pos
  · have hlt : q'.length < b.length :=
      lt_of_le_of_ne hq'.length_le fun h => hne' (hq'.eq_of_length h)
    simp only [List.length_append, maxFrameLen] at hL
    refine ⟨pre.length + (Bincode.writeVarint b.length).length, ?_⟩
    rw [readBytes, Cursor.bind_apply, readVarint_reads (by omega) pre q' hbuffer]
    apply readLength_short
    · simp only [List.length_append]
      omega
    · omega

/-- Bytes that pass for a blob: a length, and as many bytes behind it. -/
def Leftover (q : Bytes) : Prop :=
  ∃ b rest, q = b :: rest ∧ 1 ≤ b.toNat ∧ b.toNat ≤ rest.length

theorem leftover_cons {b : UInt8} {rest : Bytes} :
    Leftover (b :: rest) ↔ 1 ≤ b.toNat ∧ b.toNat ≤ rest.length := by
  constructor
  · rintro ⟨_, _, ⟨rfl, rfl⟩, h⟩
    exact h
  · exact fun h => ⟨b, rest, rfl, h⟩

/-- A marker with at most two bytes behind it yields 0, or these bytes and nothing is left. -/
theorem readVarint_tiny {pre : Bytes} {b : UInt8} {rest : Bytes} (hb : 251 ≤ b.toNat)
    (hrest : rest.length ≤ 2) (hL : (pre ++ b :: rest).length ≤ maxFrameLen) :
    ∃ v pos, readVarint (pre ++ b :: rest) pre.length = some (v, pos) ∧
      (v = 0 ∨ v < 65536 ∧ pos = (pre ++ b :: rest).length) := by
  by_cases hcut : CutMarker b rest
  · exact ⟨0, pre.length + 1, readVarint_marker hcut hL, .inl rfl⟩
  have hfirst : need (pre ++ b :: rest) pre.length 1 = true :=
    need_at (w := [b]) (by simp)
  have hlarge : ¬ b.toNat < 251 := by omega
  by_cases h251 : b = 251
  · subst h251
    have hlen : rest.length = 2 := by
      simp only [CutMarker, true_and] at hcut
      omega
    have hmore : need (pre ++ 251 :: rest) (pre.length + 1) 2 = true := by
      have hbehind : need (pre ++ ((251 :: rest) ++ [])) (pre.length + 1) 2 = true :=
        need_behind hlen.ge
      simpa using hbehind
    have hslice : Cursor.slice (pre ++ 251 :: rest) (pre.length + 1) 2 = rest := by
      simpa using Cursor.slice_behind pre 251 rest [] hlen
    have hlt := hlen ▸ ofLittleEndian_lt rest
    refine ⟨ofLittleEndian rest, pre.length + 3, ?_, .inr ⟨hlt, by simp [hlen]⟩⟩
    simp [readVarint, hfirst, hmore, hslice]
  · refine ⟨0, pre.length + 1, ?_, .inl rfl⟩
    have h252 : b ≠ 252 := by
      rintro rfl
      exact hcut (.inr (.inl ⟨rfl, by omega⟩))
    have h253 : b ≠ 253 := by
      rintro rfl
      exact hcut (.inr (.inr ⟨rfl, by omega⟩))
    simp [readVarint, hfirst, hlarge, h251, h252, h253]

/-- What is left of a cut field is read as a blob, which is empty or not. -/
theorem readBytes_leftover {pre q : Bytes} (hq : q.length ≤ 3)
    (hL : (pre ++ q).length ≤ maxFrameLen) :
    ∃ data pos, readBytes (pre ++ q) pre.length = some (data, pos) ∧
      (data = [] ↔ ¬ Leftover q) := by
  cases q with
  | nil =>
    rw [List.append_nil] at hL ⊢
    refine ⟨[], pre.length, ?_, ?_⟩
    · rw [readBytes, Cursor.bind_apply, readVarint_end hL]
      exact readLength_zero maxFrameLen _ _
    · simp [Leftover]
  | cons b rest =>
    rw [List.length_cons] at hq
    rw [leftover_cons, readBytes, Cursor.bind_apply]
    by_cases hb : b.toNat < 251
    · rw [readVarint_byte pre hb hL]
      by_cases hthere : b.toNat ≤ rest.length
      · have hdata : pre ++ b :: rest = pre ++ [b] ++ (rest.take b.toNat ++ rest.drop b.toNat) := by
          simp
        have hlen : (rest.take b.toNat).length = b.toNat := by simpa using hthere
        have hread := readLength_reads (b := rest.take b.toNat) (le_refl maxFrameLen)
          (pre ++ [b]) (rest.drop b.toNat) (hdata ▸ hL)
        rw [← hdata, hlen, List.length_append, List.length_singleton] at hread
        refine ⟨_, _, hread, ?_⟩
        rw [← List.length_eq_zero_iff, hlen]
        omega
      · refine ⟨[], pre.length + 1, readLength_short _ ?_ ?_, ?_⟩
        · simp only [List.length_append, List.length_cons]
          omega
        · simp only [List.length_append, maxFrameLen] at hL
          omega
        · simp [hthere]
    · obtain ⟨v, pos, hread, hend⟩ := readVarint_tiny (by omega) (by omega) hL
      have hnone : (([] : Bytes) = [] ↔ ¬ (1 ≤ b.toNat ∧ b.toNat ≤ rest.length)) := by
        simp only [true_iff]
        omega
      refine ⟨[], pos, ?_, hnone⟩
      rw [hread]
      change readLength maxFrameLen v (pre ++ b :: rest) pos = some ([], pos)
      rcases Nat.eq_zero_or_pos v with rfl | hpositive
      · exact readLength_zero maxFrameLen _ pos
      · rw [maxFrameLen] at hL
        exact readLength_short _ (by omega) (by omega)

/-- The id takes five bytes, two or three of the last four are there, and the first of these is
the length of a blob in the others. -/
def IdPasses (pid : PeerId) (q : Bytes) : Prop :=
  65536 ≤ pid.toNat ∧ (q.length = 3 ∨ q.length = 4) ∧ 1 ≤ pid.toNat % 256 ∧
    pid.toNat % 256 + 2 ≤ q.length

/-- A cut id is read as 0, and what is left of it may pass for a blob. -/
theorem id_cut {pid : PeerId} {q : Bytes} (hq : q <+: Bincode.writeVarint pid.toNat)
    (hne : q ≠ Bincode.writeVarint pid.toNat) :
    ∃ marker left, q = marker ++ left ∧ left.length ≤ 3 ∧ (Leftover left ↔ IdPasses pid q) ∧
      ∀ pre, (pre ++ q).length ≤ maxFrameLen →
        readVarint (pre ++ q) pre.length = some (0, (pre ++ marker).length) := by
  have hmarker : ∀ b left, q = b :: left → CutMarker b left → left.length ≤ 3 →
      (Leftover left ↔ IdPasses pid q) → ∃ marker left, q = marker ++ left ∧ left.length ≤ 3 ∧
        (Leftover left ↔ IdPasses pid q) ∧ ∀ pre, (pre ++ q).length ≤ maxFrameLen →
          readVarint (pre ++ q) pre.length = some (0, (pre ++ marker).length) := by
    rintro b left rfl hcut hlen hleft
    refine ⟨[b], left, rfl, hlen, hleft, fun pre hL => ?_⟩
    rw [List.length_append, List.length_singleton]
    exact readVarint_marker hcut hL
  have hnone : q = [] → ∃ marker left, q = marker ++ left ∧ left.length ≤ 3 ∧
      (Leftover left ↔ IdPasses pid q) ∧ ∀ pre, (pre ++ q).length ≤ maxFrameLen →
        readVarint (pre ++ q) pre.length = some (0, (pre ++ marker).length) := by
    rintro rfl
    refine ⟨[], [], rfl, by simp, by simp [Leftover, IdPasses], fun pre hL => ?_⟩
    rw [List.append_nil] at hL ⊢
    exact readVarint_end hL
  have hlt := pid.toNat_lt
  unfold Bincode.writeVarint at hq hne
  split_ifs at hq hne with h₁ h₂
  · rcases prefix_cons_cases hq hne with hq | ⟨q', rfl, -, hlen⟩
    · exact hnone hq
    · exact absurd hlen (Nat.not_lt_zero _)
  · rcases prefix_cons_cases hq hne with hq | ⟨q', rfl, -, hlen⟩
    · exact hnone hq
    · rw [length_littleEndian] at hlen
      refine hmarker 251 q' rfl (.inl ⟨rfl, hlen⟩) (by omega) ?_
      constructor
      · rintro ⟨b, rest, rfl, hpos, hle⟩
        rw [List.length_cons] at hlen
        omega
      · rintro ⟨hlarge, -⟩
        omega
  · rcases prefix_cons_cases hq hne with hq | ⟨q', rfl, hq', hlen⟩
    · exact hnone hq
    · rw [length_littleEndian] at hlen
      refine hmarker 252 q' rfl (.inr (.inl ⟨rfl, hlen⟩)) (by omega) ?_
      rcases List.prefix_cons_iff.mp hq' with rfl | ⟨rest, rfl, -⟩
      · simp [Leftover, IdPasses]
      · rw [leftover_cons, UInt8.toNat_ofNat']
        simp only [IdPasses, List.length_cons] at hlen ⊢
        omega

section
variable (cbs : Callback → Bool) (depth : ℕ) (su : Session)

/-- A cut input carries no blob, unless the bytes of its id pass for one. -/
theorem input_cut {pid : PeerId} {b : Blob} (pre : Bytes) {q : Bytes}
    (hq : q <+: u32.write pid ++ blob.write b) (hne : q ≠ u32.write pid ++ blob.write b)
    (hL : (pre ++ (u32.write pid ++ blob.write b)).length ≤ maxFrameLen) :
    ∃ id data pos, dispatchTag cbs depth su 4 (pre ++ q) pre.length =
        some ((su, if data.isEmpty then none else (Call.peerInput id data).invoke cbs), pos) ∧
      (data = [] ↔ ¬ IdPasses pid q) := by
  have hbuffer : (pre ++ q).length ≤ maxFrameLen := by
    have hle := hq.length_le
    simp only [List.length_append] at hL hle ⊢
    omega
  have hdispatch : ∀ id data pos pos', readU32Varint (pre ++ q) pre.length = some (id, pos) →
      readBytes (pre ++ q) pos = some (data, pos') →
      dispatchTag cbs depth su 4 (pre ++ q) pre.length =
        some ((su, if data.isEmpty then none else (Call.peerInput id data).invoke cbs), pos') := by
    intro id data pos pos' hid hdata
    rw [dispatchTag, Cursor.bind_apply, hid]
    simp only [Option.bind_eq_bind, Option.bind_some]
    rw [Cursor.bind_apply, hdata]
    rfl
  rcases prefix_append_cases hq hne with ⟨hq, hne⟩ | ⟨q', rfl, hq', hne'⟩
  · obtain ⟨marker, left, rfl, hlen, hleft, hread⟩ := id_cut hq hne
    rw [← List.append_assoc] at hbuffer
    obtain ⟨data, pos, hdata, hempty⟩ := readBytes_leftover hlen hbuffer
    rw [List.append_assoc] at hdata hbuffer
    refine ⟨0, data, pos, hdispatch _ _ _ _ ?_ hdata, hempty.trans (not_congr hleft)⟩
    rw [readU32Varint, Cursor.map_eq_bind, Cursor.bind_apply, hread pre hbuffer]
    rfl
  · rw [← List.append_assoc] at hL
    obtain ⟨pos, hdata⟩ := readBytes_cut hq' hne' hL
    rw [List.append_assoc, List.length_append] at hdata
    refine ⟨pid, [], pos, hdispatch _ _ _ _ (readU32Varint_reads pid pre q' hbuffer) hdata, ?_⟩
    simp only [true_iff]
    rintro ⟨hlarge, hshort, -⟩
    have hsize : varintSize pid.toNat = 5 := by
      have hlt := pid.toNat_lt
      unfold varintSize
      split_ifs <;> omega
    rw [List.length_append] at hshort
    change (Bincode.writeVarint pid.toNat).length + _ = 3 ∨
      (Bincode.writeVarint pid.toNat).length + _ = 4 at hshort
    rw [length_writeVarint, hsize] at hshort
    omega

/-- A cut state update carries no blob. -/
theorem state_cut {b : Blob} (pre : Bytes) {q : Bytes} (hq : q <+: blob.write b) (hne : q ≠ blob.write b)
    (hL : (pre ++ blob.write b).length ≤ maxFrameLen) :
    ∃ pos, dispatchTag cbs depth su 5 (pre ++ q) pre.length = some ((su, none), pos) := by
  obtain ⟨pos, hdata⟩ := readBytes_cut hq hne hL
  refine ⟨pos, ?_⟩
  rw [dispatchTag, Cursor.bind_apply, hdata]
  rfl

end

/-! ## What is called in any case -/

/-- Where the reader ends, a callback was called. -/
def Tells (r : Reader (Session × Option Call)) : Prop :=
  ∀ data pos x pos', r data pos = some (x, pos') → x.2 ≠ none

theorem Tells.pure (su : Session) (call : Call) :
    Tells (Pure.pure (su, call.invoke fun _ => true)) := by
  intro data pos x pos' h
  cases h
  exact Option.some_ne_none call

theorem Tells.bind {α : Type} {r : Reader α} {f : α → Reader (Session × Option Call)}
    (h : ∀ a, Tells (f a)) : Tells (r >>= f) := by
  intro data pos x pos' hx
  obtain ⟨⟨a, mid⟩, _, hf⟩ := Option.bind_eq_some_iff.mp hx
  exact h a data mid x pos' hf

section
variable (depth : ℕ) (su : Session)

theorem dispatchEvent_tells {e : ℕ} (he : e < 4) :
    Tells (dispatchEvent (fun _ => true) depth su e) := by
  interval_cases e
  · exact .bind fun _ => .pure _ _
  · exact .pure _ _
  · exact .pure _ _
  · exact .bind fun _ => .pure _ _

/-- Apart from inputs, states and room events, every message calls its callback whatever the
fields are. -/
theorem dispatchTag_tells {t : ℕ} (ht : t < 11) (hinput : t ≠ 4) (hstate : t ≠ 5)
    (hevent : t ≠ 8) : Tells (dispatchTag (fun _ => true) depth su t) := by
  interval_cases t
  · exact .bind fun _ => .bind fun _ => .bind fun _ => .bind fun _ => .bind fun _ =>
      .bind fun _ => .pure _ _
  · exact .bind fun _ => .pure _ _
  · exact .bind fun _ => .bind fun _ => .bind fun _ => .pure _ _
  · exact .bind fun _ => .pure _ _
  · exact absurd rfl hinput
  · exact absurd rfl hstate
  · exact .pure _ _
  · exact .bind fun _ => .pure _ _
  · exact absurd rfl hevent
  · exact .pure _ _
  · exact .bind fun _ => .pure _ _

/-- A cut room event is taken for one of the four events, too. -/
theorem event_tells {event : RoomEvent} (pre : Bytes) {q : Bytes} (hq : q <+: roomEventFormat.write event)
    (hL : (pre ++ q).length ≤ maxFrameLen) (x : Session × Option Call) (pos : ℕ)
    (h : dispatchTag (fun _ => true) depth su 8 (pre ++ q) pre.length = some (x, pos)) :
    x.2 ≠ none := by
  have htag : event.tag < 4 := by cases event <;> simp [RoomEvent.tag]
  have hread : ∃ e pos, e < 4 ∧ readVarint (pre ++ q) pre.length = some (e, pos) := by
    change q <+: Bincode.writeVarint event.tag ++ _ at hq
    rw [Bincode.writeVarint, if_pos (by omega)] at hq
    rcases List.prefix_cons_iff.mp hq with rfl | ⟨q', rfl, -⟩
    · rw [List.append_nil] at hL ⊢
      exact ⟨0, _, by omega, readVarint_end hL⟩
    · have hto : (UInt8.ofNat event.tag).toNat = event.tag := by
        rw [UInt8.toNat_ofNat']
        omega
      exact ⟨_, _, hto.symm ▸ htag, readVarint_byte pre (by omega) hL⟩
  obtain ⟨e, mid, he, hread⟩ := hread
  rw [dispatchTag, Cursor.bind_apply, hread] at h
  exact dispatchEvent_tells depth su he _ mid x pos h

end

theorem dispatch_first (cbs : Callback → Bool) (depth : ℕ) (su : Session) {t : ℕ} (ht : t < 251)
    {q : Bytes} (hL : (UInt8.ofNat t :: q).length ≤ maxFrameLen) :
    decodeAndDispatch cbs depth su (.ofNat t :: q) =
      dispatchTag cbs depth su t (.ofNat t :: q) 1 := by
  have hto : (UInt8.ofNat t).toNat = t := by
    rw [UInt8.toNat_ofNat']
    omega
  have hread := readVarint_byte [] (q := q) (hto.symm ▸ ht) hL
  rw [hto] at hread
  rw [decodeAndDispatch, dispatch, Cursor.bind_apply]
  change readVarint (.ofNat t :: q) 0 >>= _ = _
  rw [show readVarint (.ofNat t :: q) 0 = some (t, 1) from hread]
  rfl

end Cpp

/-! ## Which truncated messages are rejected -/

/-- Neither client takes the payload for a message: the C++ client calls no callback and keeps
its session, the C# client throws a `ProtocolException`. -/
def Rejected (rt : Csharp.Runtime) (depth : ℕ) (p : Bytes) : Prop :=
  (∀ cbs su, ∃ pos, Cpp.decodeAndDispatch cbs depth su p = some ((su, none), pos)) ∧
    ∀ handlers, ∃ message, Csharp.decodeAndDispatch rt handlers p = .error (.protocol message)

/-- Something is left of a state update or of an input, and of the input no id that passes for
a blob. -/
def Guarded (m : ServerMessage) (p : Bytes) : Prop :=
  p ≠ [] ∧ match m with
    | .stateUpdate _ => True
    | .peerInput pid _ => ¬ Cpp.IdPasses pid p.tail
    | _ => False

section
variable (rt : Csharp.Runtime) (depth : ℕ)

/-- The C# client refuses whatever is cut, room lists apart. -/
theorem Csharp.cut_refused {m : ServerMessage} {payload p : Bytes}
    (hencode : m.encode = some payload) (hcustom : ∀ s ∈ m.carried, s.custom = none)
    (hlist : ∀ rooms, m ≠ .roomList rooms) (hp : p <+: payload) (hne : p ≠ payload)
    (handlers : Callback → Bool) :
    ∃ message, Csharp.decodeAndDispatch rt handlers p = .error (.protocol message) := by
  obtain ⟨rfl, hL⟩ := m.encode_eq hencode
  obtain ⟨_, ⟨message, rfl⟩, herror⟩ :=
    (Csharp.dispatch_decodes rt handlers hcustom hlist).refuses.whole hp hne hL
  exact ⟨message, herror⟩

/-- A room list cut between two rooms goes through as the list of the rooms before. -/
theorem Csharp.list_cut {rooms : List RoomListEntry} {n : ℕ} {p : Bytes}
    (hp : p = [1] ++ (Bincode.writeVarint n ++ rooms.flatMap listEntryFormat.write))
    (hn : rooms.length ≤ n) (hsmall : n < 18446744073709551616)
    (hcustom : ∀ e ∈ rooms, e.settings.custom = none) (hL : p.length ≤ maxFrameLen)
    (handlers : Callback → Bool) :
    Csharp.decodeAndDispatch rt handlers p =
      .ok ((Csharp.callOf (.roomList rooms)).invoke handlers, p.length) := by
  subst hp
  have htag := (Csharp.readVarint_decodes (n := 1) (by decide)).reads [] _ hL
  have hlength := (Csharp.readVarint_decodes hsmall).reads [1] _ hL
  have hrooms := Reads.collect_short
    (fun e he => (Csharp.readListedRoom_decodes rt (hcustom e he)).reads) listEntry_ne_nil hn
    ([1] ++ Bincode.writeVarint n) (by rwa [List.append_assoc])
  have hone : Bincode.writeVarint 1 = [1] := rfl
  rw [hone] at htag
  rw [List.append_assoc, List.length_append] at hrooms
  simp only [List.nil_append, List.length_nil, List.length_singleton, Nat.zero_add] at htag
  rw [List.length_singleton] at hlength hrooms
  rw [Csharp.decodeAndDispatch, Cursor.bind_apply, htag, pure_bind, Csharp.dispatchTag,
    Cursor.bind_apply, Csharp.readList, Cursor.bind_apply, hlength, pure_bind, hrooms]
  rfl

theorem not_rejected {p : Bytes}
    (h : ∀ x pos, Cpp.decodeAndDispatch (fun _ => true) depth ⟨[], 0, 0⟩ p = some (x, pos) →
      x.2 ≠ none) : ¬ Rejected rt depth p := by
  rintro ⟨hcpp, -⟩
  obtain ⟨pos, hcpp⟩ := hcpp (fun _ => true) ⟨[], 0, 0⟩
  exact h _ pos hcpp rfl

/-- Apart from inputs and states, nothing that is left of a message is rejected. -/
theorem told {m : ServerMessage} {w q : Bytes}
    (hw : serverMessageFormat.write m = Bincode.writeVarint m.tag ++ w) (hq : q <+: w)
    (hL : (UInt8.ofNat m.tag :: q).length ≤ maxFrameLen) (hinput : m.tag ≠ 4)
    (hstate : m.tag ≠ 5) : ¬ Rejected rt depth (.ofNat m.tag :: q) := by
  have htag := m.tag_lt
  apply not_rejected
  intro x pos h
  rw [Cpp.dispatch_first _ depth _ (by omega) hL] at h
  by_cases hevent : m.tag = 8
  · cases m
    case roomEvent event =>
      obtain rfl : roomEventFormat.write event = w := List.append_cancel_left hw
      exact Cpp.event_tells depth _ [8] hq hL x pos h
    all_goals cases hevent
  · exact Cpp.dispatchTag_tells depth _ htag hinput hstate hevent _ 1 x pos h

/-- Cutting a message anywhere leaves a payload that the clients reject exactly if it is the
rest of a state update or of an input, with the exceptions named. -/
theorem rejected_iff {m : ServerMessage} {payload p : Bytes} (hencode : m.encode = some payload)
    (hp : p <+: payload) (hne : p ≠ payload) : Rejected rt depth p ↔ Guarded m p := by
  obtain ⟨hpayload, hL⟩ := m.encode_eq hencode
  have hbuffer : p.length ≤ maxFrameLen := hp.length_le.trans hL
  have htag := m.tag_lt
  obtain ⟨w, hw⟩ : ∃ w, serverMessageFormat.write m = Bincode.writeVarint m.tag ++ w := ⟨_, rfl⟩
  have hcons : payload = .ofNat m.tag :: w := by
    rw [hpayload, hw, Bincode.writeVarint, if_pos (by omega)]
    rfl
  have hfull : (UInt8.ofNat m.tag :: w).length ≤ maxFrameLen := hcons ▸ hL
  have hcut := hcons ▸ hp
  have hcutne := hcons ▸ hne
  rcases prefix_cons_cases hcut hcutne with rfl | ⟨q, rfl, hq, hlen⟩
  · -- the empty payload is taken for a `Joined` without any field
    refine iff_of_false (not_rejected rt depth fun x pos h => ?_) fun h => h.1 rfl
    exact Cpp.dispatchTag_tells depth ⟨[], 0, 0⟩ (t := 0) (by decide) (by decide) (by decide)
      (by decide) [] 0 x pos h
  have hqne : q ≠ w := by
    rintro rfl
    exact lt_irrefl _ hlen
  have hfirst := fun cbs su => Cpp.dispatch_first cbs depth su (t := m.tag) (by omega) hbuffer
  cases m
  case stateUpdate data =>
    obtain rfl : blob.write data = w := List.append_cancel_left hw
    refine iff_of_true ⟨fun cbs su => ?_, fun handlers => ?_⟩ ⟨List.cons_ne_nil _ _, trivial⟩
    · obtain ⟨pos, hread⟩ := Cpp.state_cut cbs depth su [5] hq hqne hfull
      exact ⟨pos, (hfirst cbs su).trans hread⟩
    · exact Csharp.cut_refused rt hencode (fun s hs => by cases hs) (fun _ h => by cases h) hp hne
        handlers
  case peerInput pid data =>
    obtain rfl : u32.write pid ++ blob.write data = w := List.append_cancel_left hw
    have hread := fun cbs su => Cpp.input_cut cbs depth su [4] hq hqne hfull
    constructor
    · rintro ⟨hcpp, -⟩
      refine ⟨List.cons_ne_nil _ _, fun hpasses => ?_⟩
      obtain ⟨id, bytes, pos, hcalled, hempty⟩ := hread (fun _ => true) ⟨[], 0, 0⟩
      obtain ⟨pos', hquiet⟩ := hcpp (fun _ => true) ⟨[], 0, 0⟩
      have hbytes : bytes ≠ [] := fun h => hempty.mp h hpasses
      have hcalls := ((hfirst (fun _ => true) ⟨[], 0, 0⟩).trans hcalled).symm.trans hquiet
      rw [if_neg (by simpa using hbytes)] at hcalls
      cases hcalls
    · rintro ⟨-, hpasses⟩
      refine ⟨fun cbs su => ?_, fun handlers => ?_⟩
      · obtain ⟨id, bytes, pos, hcalled, hempty⟩ := hread cbs su
        rw [hempty.mpr hpasses] at hcalled
        exact ⟨pos, (hfirst cbs su).trans hcalled⟩
      · exact Csharp.cut_refused rt hencode (fun s hs => by cases hs) (fun _ h => by cases h) hp
          hne handlers
  all_goals
    exact iff_of_false (told rt depth hw hq hbuffer (by simp [ServerMessage.tag])
      (by simp [ServerMessage.tag])) fun h => h.2

end

/-- Of the news that the peer 7 left, the tag alone arrives: the C++ client reports that the
peer 0 left. -/
theorem peerLeft_cut :
    ServerMessage.encode (.peerLeft 7) = some [3, 7] ∧ [3] <+: [3, 7] ∧
      Cpp.decodeAndDispatch (fun _ => true) 64 ⟨[], 1, 2⟩ [3] =
        some ((⟨[], 1, 2⟩, some (.peerLeft 0)), 1) ∧
      ¬ Rejected ⟨64, fun _ => ""⟩ 64 [3] := by
  have hcalled : Cpp.decodeAndDispatch (fun _ => true) 64 ⟨[], 1, 2⟩ [3] =
      some ((⟨[], 1, 2⟩, some (.peerLeft 0)), 1) := by rfl
  refine ⟨by rfl, ⟨[7], rfl⟩, hcalled, ?_⟩
  rintro ⟨hcpp, -⟩
  obtain ⟨pos, hquiet⟩ := hcpp (fun _ => true) ⟨[], 1, 2⟩
  rw [hcalled] at hquiet
  cases hquiet

/-- A state of two bytes is rejected when the second is missing. -/
theorem state_cut_rejected : Rejected ⟨64, fun _ => ""⟩ 64 [5, 2, 9] := by
  have hencode : ServerMessage.encode (.stateUpdate [9, 9]) = some [5, 2, 9, 9] := by rfl
  exact (rejected_iff ⟨64, fun _ => ""⟩ 64 hencode ⟨[9], rfl⟩ (by decide)).mpr
    ⟨by decide, trivial⟩

end Roomie
