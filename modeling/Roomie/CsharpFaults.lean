import Roomie.CsharpTraces

/-!
# How the C# decoder fails

In a frame the sums of a position and a small number do not wrap, so a read is refused with a
`ProtocolException` or stays in the payload. The length of a string may be up to `2 ^ 31 - 1`. Where
the sum with it wraps `Need` lets it pass, and the framework throws what is no `ProtocolException`.
-/

namespace Roomie.Csharp
open Bincode Cursors

namespace Traced
variable {α : Type}

/-- A length that a string may have does not wrap when it is added to the position, and there is
room for a nested call. -/
def Honest (e : Entry Kind) : Prop :=
  match e.kind with
  | .reads _ => True
  | .string n => n ≤ 0x7FFFFFFF → e.before + n < 2 ^ 31
  | .nested room => 0 < room

instance : DecidablePred Honest := fun e => by
  unfold Honest
  split <;> infer_instance

/-- The bytes that are accessed are bytes of the payload. -/
def Inside (size : ℕ) (e : Entry Kind) : Prop :=
  match e.kind with
  | .reads n | .string n => e.after = none ∨ e.before + n ≤ size
  | .nested _ => True

def blame : Blame Fault Kind := ⟨Honest, Inside, fun f => ¬ f.IsProtocol⟩

abbrev Foreseen (r : Tracer α) : Prop := Blames blame maxFrameLen r

theorem protocol_good (message : String) : ¬ blame.bad (.protocol message) :=
  fun h => h ⟨message, rfl⟩

/-- In a frame the sums with small numbers do not wrap. -/
theorem need_small {data : Bytes} {pos n : ℕ} (hL : data.length ≤ maxFrameLen)
    (hpos : pos ≤ data.length) (hn : n ≤ 65536) :
    need data pos n = true ↔ pos + n ≤ data.length := by
  rw [maxFrameLen] at hL
  exact need_iff (by omega)

/-- A sum that wraps is negative, and so within the payload. -/
theorem need_wraps {data : Bytes} {pos n : ℕ} (hpos : pos ≤ 65536) (hn : n ≤ 0x7FFFFFFF)
    (h : 2 ^ 31 ≤ pos + n) : need data pos n = true := by
  have hwraps : Int.bmod ((pos : ℤ) + n) (2 ^ 32) = (pos : ℤ) + n - 2 ^ 32 := by
    rw [← Int.sub_bmod_right]
    push_cast
    apply Int.bmod_eq_of_le
    · norm_num
      omega
    · norm_num
      omega
  refine decide_eq_true ?_
  rw [hwraps]
  omega

/-- A read that `Need` guards. -/
theorem foreseen_guarded {n : ℕ} {r : Reader α} (hn : n ≤ 65536)
    (hok : ∀ data pos v p, r data pos = .ok (v, p) → need data pos n = true ∧ p = pos + n)
    (herror : ∀ data pos f, r data pos = .error f → f.IsProtocol) :
    Foreseen (.logged (.reads n) (.silent r)) := by
  refine Blames.primitive (fun data pos v p hL hpos hr => ?_) fun data pos f hL hpos hr => ?_
  · obtain ⟨hneed, rfl⟩ := hok data pos v p hr
    have hin := (need_small hL hpos hn).mp hneed
    exact ⟨hin, .inr hin, trivial⟩
  · have hprotocol := herror data pos f hr
    exact ⟨.inl rfl, iff_of_true (fun hbad => hbad hprotocol) trivial⟩

theorem foreseen_readByte (what : String) : Foreseen (readByte what) := by
  refine foreseen_guarded (by decide) (fun data pos v p hr => ?_) fun data pos f hr => ?_
  · unfold Csharp.readByte at hr
    split_ifs at hr with hneed
    obtain ⟨-, rfl⟩ := Prod.mk.inj (Except.ok.inj hr)
    exact ⟨hneed, rfl⟩
  · unfold Csharp.readByte at hr
    split_ifs at hr
    cases hr
    exact ⟨_, rfl⟩

theorem foreseen_readLittleEndian {k : ℕ} (hk : k ≤ 8) (what : String) :
    Foreseen (readLittleEndian k what) := by
  refine foreseen_guarded (by omega) (fun data pos v p hr => ?_) fun data pos f hr => ?_
  · unfold Csharp.readLittleEndian at hr
    split_ifs at hr with hneed
    obtain ⟨-, rfl⟩ := Prod.mk.inj (Except.ok.inj hr)
    exact ⟨hneed, rfl⟩
  · unfold Csharp.readLittleEndian at hr
    split_ifs at hr
    cases hr
    exact ⟨_, rfl⟩

/-- What throws a `ProtocolException` without reading. -/
theorem foreseen_throws (message : String) : Foreseen (throws message : Tracer α) := by
  intro data pos _ _
  refine ⟨le_rfl, (fun e he => by cases he), iff_of_true ?_ fun e he => by cases he⟩
  rintro f ⟨⟩
  exact protocol_good message

theorem foreseen_skip {n : ℕ} (hn : n ≤ 65536) (message : String) : Foreseen (skip n message) := by
  intro data pos hL hpos
  have hrun : skip n message data pos = ([], Csharp.skip n message data pos) := rfl
  rw [hrun]
  unfold Csharp.skip
  split_ifs with hneed
  · refine ⟨(need_small hL hpos hn).mp hneed, (fun e he => by cases he), ?_⟩
    exact iff_of_true (fun f hf => by cases hf) fun e he => by cases he
  · exact foreseen_throws (α := Unit) message data pos hL hpos

theorem foreseen_readVarint : Foreseen readVarint := by
  refine (foreseen_readByte _).bind fun b => ?_
  unfold readVarintTail
  split_ifs
  · exact .pure _
  · exact foreseen_readLittleEndian (by decide) _
  · exact foreseen_readLittleEndian (by decide) _
  · exact foreseen_readLittleEndian (by decide) _
  · exact foreseen_throws _

theorem foreseen_readBytes : Foreseen readBytes := by
  refine foreseen_readVarint.bind fun len => ?_
  refine Blames.primitive (fun data pos v p hL hpos hr => ?_) fun data pos f hL hpos hr => ?_
  · unfold readLength at hr
    split_ifs at hr with hlimit hneed hlen
    obtain ⟨-, rfl⟩ := Prod.mk.inj (Except.ok.inj hr)
    exact ⟨Nat.not_lt.mp hlen, .inr (Nat.not_lt.mp hlen), trivial⟩
  · refine ⟨.inl rfl, iff_of_true ?_ trivial⟩
    unfold readLength at hr
    split_ifs at hr with hlimit hneed hlen
    · cases hr
      exact protocol_good _
    · cases hr
      exact protocol_good _
    · rw [Bool.not_eq_true', Bool.not_eq_false, need_small hL hpos (by omega)] at hneed
      omega

/-- The one length for which the sum may wrap. -/
theorem foreseen_stringLength {limit : ℕ} (hmax : limit = 0x7FFFFFFF) (tooLarge tooShort : String)
    (len : ℕ) :
    Foreseen (.logged (.string len) (.silent (readLength limit tooLarge tooShort len))) := by
  refine Blames.primitive (fun data pos v p hL hpos hr => ?_) fun data pos f hL hpos hr => ?_
  · unfold readLength at hr
    split_ifs at hr with hlimit hneed hlen
    obtain ⟨-, rfl⟩ := Prod.mk.inj (Except.ok.inj hr)
    refine ⟨Nat.not_lt.mp hlen, .inr (Nat.not_lt.mp hlen), fun _ => ?_⟩
    rw [maxFrameLen] at hL
    change pos + len < 2 ^ 31
    omega
  · refine ⟨.inl rfl, ?_⟩
    change ¬ ¬ f.IsProtocol ↔ (len ≤ 0x7FFFFFFF → pos + len < 2 ^ 31)
    rw [not_not]
    rw [maxFrameLen] at hL
    unfold readLength at hr
    split_ifs at hr with hlimit hneed hlen
    · cases hr
      exact iff_of_true ⟨_, rfl⟩ fun hle => absurd hlimit (by omega)
    · cases hr
      refine iff_of_true ⟨_, rfl⟩ fun hle => ?_
      by_contra hwraps
      rw [Bool.not_eq_true'] at hneed
      have hpasses : need data pos len = true := need_wraps (by omega) hle (by omega)
      rw [hneed] at hpasses
      cases hpasses
    · cases hr
      refine iff_of_false ?_ fun hfits => ?_
      · rintro ⟨message, hmessage⟩
        cases hmessage
      have hin := hfits (by omega)
      rw [Bool.not_eq_true', Bool.not_eq_false, need_iff hin] at hneed
      omega

theorem foreseen_readString (rt : Runtime) : Foreseen (readString rt) := by
  unfold readString
  apply Blames.map
  apply Blames.bind foreseen_readVarint
  intro len
  exact foreseen_stringLength rfl _ _ len

theorem foreseen_readU8 : Foreseen readU8 := foreseen_readByte "u8"

theorem foreseen_readBool : Foreseen readBool := foreseen_readU8.map _

theorem foreseen_readU32Varint : Foreseen readU32Varint := by
  unfold readU32Varint
  apply Blames.map
  exact foreseen_readVarint

theorem foreseen_readOptString (rt : Runtime) : Foreseen (readOptString rt) := by
  refine foreseen_readU8.bind fun tag => ?_
  split_ifs
  · exact .pure none
  · exact (foreseen_readString rt).map some

theorem foreseen_readState : Foreseen readState := by
  refine foreseen_readU8.bind fun tag => ?_
  split_ifs
  · exact foreseen_readBytes.map some
  · exact .pure none

theorem foreseen_skipTagged (rt : Runtime) {deeper : Tracer Unit} (h : Foreseen deeper)
    (tag : ℕ) : Foreseen (skipTagged rt deeper tag) := by
  unfold skipTagged
  split
  · exact .pure ()
  · exact foreseen_readU8.discard
  · exact foreseen_skip (by decide) _
  · exact (foreseen_readString rt).discard
  · exact foreseen_readVarint.bind fun n => (h.collect n).discard
  · have hentry : Foreseen (skipEntry rt deeper) := by
      apply Blames.bind
      · exact (foreseen_readString rt).discard
      · exact fun _ => h
    exact foreseen_readVarint.bind fun n => (hentry.collect n).discard
  · exact foreseen_throws _

/-- A nested call without room is the other way to fail. -/
theorem foreseen_skipBincodeJsonValue (rt : Runtime) (room : ℕ) :
    Foreseen (skipBincodeJsonValue rt room) := by
  induction room with
  | zero =>
    refine Blames.primitive (fun data pos v p _ _ hr => (by cases hr)) fun data pos f _ _ hr => ?_
    cases hr
    have hbad : blame.bad .stackOverflow := by
      rintro ⟨message, hmessage⟩
      cases hmessage
    exact ⟨trivial, iff_of_false (fun hgood => hgood hbad) (Nat.lt_irrefl 0)⟩
  | succ room ih =>
    rw [skipBincodeJsonValue_succ]
    exact (foreseen_readVarint.bind fun tag => foreseen_skipTagged rt ih tag).logged
      (fun _ _ _ => trivial) fun _ _ => Nat.succ_pos room

theorem foreseen_readRoomSettings (rt : Runtime) : Foreseen (readRoomSettings rt) := by
  refine foreseen_readU32Varint.bind fun maxPlayers => foreseen_readU32Varint.bind fun minPlayers =>
    foreseen_readBool.bind fun isPublic => (foreseen_readOptString rt).bind fun password =>
      foreseen_readBool.bind fun acceptRequired => foreseen_readU8.bind fun customTag => ?_
  split_ifs
  · exact (foreseen_skipBincodeJsonValue rt rt.stack).bind fun _ => .pure _
  · exact .pure _

theorem foreseen_readList (rt : Runtime) : Foreseen (readList rt) := by
  have hentry : Foreseen (readListedRoom rt) :=
    (foreseen_readString rt).bind fun _ => foreseen_readU32Varint.bind fun _ =>
      (foreseen_readRoomSettings rt).bind fun _ => .pure _
  exact foreseen_readVarint.bind fun n => hentry.collect n

section
variable (rt : Runtime) (handlers : Callback → Bool)

theorem foreseen_dispatchEvent (event : ℕ) : Foreseen (dispatchEvent rt handlers event) := by
  unfold dispatchEvent
  split
  · exact foreseen_readU32Varint.bind fun _ => .pure _
  · exact .pure _
  · exact .pure _
  · exact (foreseen_readRoomSettings rt).bind fun _ => .pure _
  · exact .pure _

theorem foreseen_dispatchTag (tag : ℕ) : Foreseen (dispatchTag rt handlers tag) := by
  have hstring := foreseen_readString rt
  unfold dispatchTag
  split
  · exact hstring.bind fun _ => foreseen_readU32Varint.bind fun _ =>
      foreseen_readU32Varint.bind fun _ => foreseen_readU8.bind fun _ =>
        (foreseen_readRoomSettings rt).bind fun _ => foreseen_readState.bind fun _ => .pure _
  · exact (foreseen_readList rt).bind fun _ => .pure _
  · exact foreseen_readU32Varint.bind fun _ => hstring.bind fun _ =>
      (foreseen_readOptString rt).bind fun _ => .pure _
  · exact foreseen_readU32Varint.bind fun _ => .pure _
  · exact foreseen_readU32Varint.bind fun _ => foreseen_readBytes.bind fun _ => .pure _
  · exact foreseen_readBytes.bind fun _ => .pure _
  · exact .pure _
  · exact hstring.bind fun _ => .pure _
  · exact foreseen_readVarint.bind fun event => foreseen_dispatchEvent rt handlers event
  · exact .pure _
  · exact hstring.bind fun _ => .pure _
  · exact .pure _

theorem foreseen_dispatch : Foreseen (dispatch rt handlers) :=
  foreseen_readVarint.bind fun tag => foreseen_dispatchTag rt handlers tag

end

end Traced

/-- The lengths that the decoder comes to, and the room it has for nested calls, are such that it
finds nothing which it did not foresee. -/
def Tame (rt : Runtime) (handlers : Callback → Bool) (payload : Bytes) : Prop :=
  ∀ e ∈ (Traced.dispatch rt handlers payload 0).1, Traced.Honest e

/-- Every access is one to the payload, and an exception is none but a `ProtocolException` exactly
if no length of a string wraps and there is room for the nested calls. -/
theorem faults_iff (rt : Runtime) (handlers : Callback → Bool) {payload : Bytes}
    (hL : payload.length ≤ maxFrameLen) :
    (∀ e ∈ (Traced.dispatch rt handlers payload 0).1, Traced.Inside payload.length e) ∧
      ((∀ f, decodeAndDispatch rt handlers payload = .error f → f.IsProtocol) ↔
        Tame rt handlers payload) := by
  have hblamed := Traced.foreseen_dispatch rt handlers payload 0 hL (Nat.zero_le _)
  refine ⟨hblamed.always, Iff.trans ?_ hblamed.blames⟩
  rw [Traced.untraced_dispatch]
  exact ⟨fun h f hf hbad => hbad (h f hf), fun h f hf => not_not.mp (h f hf)⟩

end Roomie.Csharp
