import Roomie.Cursors
import Roomie.ClientCallbacks
import Roomie.ClientEncoders

/-!
# The decoder of the C# client

`BincodeReader`, `RoomSettings.Decode` and `DecodeAndDispatch`. The reader throws a
`ProtocolException` where the data end too early. Positions and sizes are 32-bit, and so wraps
the sum in `Need`. A handler is called last of all, so an exception means that none was called.
-/

namespace Roomie.Csharp
open Bincode Cursors

/-- How decoding ends other than well. -/
inductive Fault where
  | protocol (message : String)
  | argumentOutOfRange
  | stackOverflow
  deriving DecidableEq

/-- A `ProtocolException`. -/
def Fault.IsProtocol (e : Fault) : Prop := ∃ message, e = .protocol message

/-- What the decoder gets from the runtime: how many nested calls there is room for, and what
the UTF-8 decoder makes of ill-formed bytes. -/
structure Runtime where
  stack : ℕ
  illFormed : Bytes → String

abbrev Reader := Cursor (Except Fault)

def need (data : Bytes) (pos n : ℕ) : Bool := Int.bmod (pos + n) (2 ^ 32) ≤ data.length

def readByte (what : String) : Reader UInt8 := fun data pos =>
  if need data pos 1 then .ok (data.getD pos 0, pos + 1)
  else .error (.protocol ("Unexpected end of data reading " ++ what))

def readU8 : Reader UInt8 := readByte "u8"

def readBool : Reader Bool := (fun b => decide (b ≠ 0)) <$> readU8

/-- The value of so many bytes. -/
def readLittleEndian (k : ℕ) (what : String) : Reader ℕ := fun data pos =>
  if need data pos k then .ok (ofLittleEndian (Cursor.slice data pos k), pos + k)
  else .error (.protocol ("Unexpected end of data reading " ++ what))

/-- What follows the first byte of a varint. -/
def readVarintTail (b : UInt8) : Reader ℕ :=
  if b.toNat < 251 then pure b.toNat
  else if b = 251 then readLittleEndian 2 "u16 varint"
  else if b = 252 then readLittleEndian 4 "u32 varint"
  else if b = 253 then readLittleEndian 8 "u64 varint"
  else fun _ _ => .error (.protocol ("Invalid varint prefix byte: " ++ toString b))

def readVarint : Reader ℕ := readByte "varint" >>= readVarintTail

def readU32Varint : Reader UInt32 := UInt32.ofNat <$> readVarint

/-- The bytes behind a length that was read. Where the sum in `Need` wraps, the framework finds
that the bytes are not there. -/
def readLength (limit : ℕ) (tooLarge tooShort : String) (len : ℕ) : Reader Bytes :=
  fun data pos =>
    if limit < len then .error (.protocol (tooLarge ++ toString len))
    else if !need data pos len then .error (.protocol tooShort)
    else if data.length < pos + len then .error .argumentOutOfRange
    else .ok (Cursor.slice data pos len, pos + len)

/-- `Encoding.UTF8.GetString`. -/
def getString (rt : Runtime) (b : Bytes) : String :=
  (String.fromUTF8? ⟨b.toArray⟩).getD (rt.illFormed b)

def readString (rt : Runtime) : Reader String :=
  getString rt <$> (readVarint >>= readLength 0x7FFFFFFF "String length too large: "
    "Unexpected end of data reading string")

def readOptString (rt : Runtime) : Reader (Option String) := do
  if (← readU8) = 0 then pure none else some <$> readString rt

def readBytes : Reader Bytes :=
  readVarint >>= readLength 65536 "Byte array length too large: "
    "Unexpected end of data reading bytes"

/-- `if (!Need(n)) throw`, else the position moves on. -/
def skip (n : ℕ) (message : String) : Reader Unit := fun data pos =>
  if need data pos n then .ok ((), pos + n) else .error (.protocol message)

/-- `SkipBincodeJsonValue`, with room for so many nested calls on the stack. -/
def skipBincodeJsonValue (rt : Runtime) : ℕ → Reader Unit
  | 0 => fun _ _ => .error .stackOverflow
  | depth + 1 => do
    match ← readVarint with
    | 0 => pure ()
    | 1 => discard readU8
    | 2 => skip 8 "Unexpected end of data reading JSON Number"
    | 3 => discard (readString rt)
    | 4 => discard ((skipBincodeJsonValue rt depth).collect (← readVarint))
    | 5 =>
      let entry := do
        discard (readString rt)
        skipBincodeJsonValue rt depth
      discard (entry.collect (← readVarint))
    | tag => fun _ _ => .error (.protocol ("Unknown JSON Value variant: " ++ toString tag))

/-- `RoomSettings.Decode`. -/
def readRoomSettings (rt : Runtime) : Reader RoomSettings := do
  let maxPlayers ← readU32Varint
  let minPlayers ← readU32Varint
  let isPublic ← readBool
  let password ← readOptString rt
  let acceptRequired ← readBool
  let customTag ← readU8
  if customTag ≠ 0 then skipBincodeJsonValue rt rt.stack
  pure ⟨maxPlayers, minPlayers, isPublic, password, acceptRequired⟩

abbrev Call := Roomie.Call String RoomSettings (Option Bytes)

def readListedRoom (rt : Runtime) : Reader (ListedRoom String RoomSettings) := do
  let roomCode ← readString rt
  let playerCount ← readU32Varint
  let settings ← readRoomSettings rt
  pure ⟨roomCode, playerCount, settings⟩

/-- `for (i < n && !r.Eof)`: the list ends with the data, however many entries were announced. -/
def readList (rt : Runtime) : Reader (List (ListedRoom String RoomSettings)) :=
  readVarint >>= (readListedRoom rt).collect

/-- The state that may follow in `Joined`; null if there is none. -/
def readState : Reader (Option Bytes) := do
  if (← readU8) ≠ 0 then some <$> readBytes else pure none

/-- The cases of `RoomEvent`. -/
def dispatchEvent (rt : Runtime) (handlers : Callback → Bool) : ℕ → Reader (Option Call)
  | 0 => do
    let newHost ← readU32Varint
    pure ((Call.hostTransferred newHost).invoke handlers)
  | 1 => pure (Call.kicked.invoke handlers)
  | 2 => pure (Call.banned.invoke handlers)
  | 3 => do
    let settings ← readRoomSettings rt
    pure ((Call.settingsChanged settings).invoke handlers)
  | _ => pure none

/-- The cases of `DecodeAndDispatch`: the handler called. -/
def dispatchTag (rt : Runtime) (handlers : Callback → Bool) : ℕ → Reader (Option Call)
  | 0 => do
    let roomCode ← readString rt
    let peerId ← readU32Varint
    let hostPeerId ← readU32Varint
    let side ← readU8
    let settings ← readRoomSettings rt
    let initialState ← readState
    pure ((Call.joined roomCode peerId hostPeerId side settings initialState).invoke handlers)
  | 1 => do
    let list ← readList rt
    pure ((Call.roomList list).invoke handlers)
  | 2 => do
    let peerId ← readU32Varint
    let clientHash ← readString rt
    let displayName ← readOptString rt
    pure ((Call.peerJoined peerId clientHash displayName).invoke handlers)
  | 3 => do
    let peerId ← readU32Varint
    pure ((Call.peerLeft peerId).invoke handlers)
  | 4 => do
    let peerId ← readU32Varint
    let data ← readBytes
    pure ((Call.peerInput peerId data).invoke handlers)
  | 5 => do
    let data ← readBytes
    pure ((Call.stateUpdate data).invoke handlers)
  | 6 => pure (Call.moveAccepted.invoke handlers)
  | 7 => do
    let reason ← readString rt
    pure ((Call.moveRejected reason).invoke handlers)
  | 8 => readVarint >>= dispatchEvent rt handlers
  | 9 => pure (Call.pong.invoke handlers)
  | 10 => do
    let msg ← readString rt
    pure ((Call.error msg).invoke handlers)
  | _ => pure none

/-- `DecodeAndDispatch` on a whole array; the last component is where reading ended. -/
def decodeAndDispatch (rt : Runtime) (handlers : Callback → Bool) (payload : Bytes) :
    Except Fault (Option Call × ℕ) :=
  (readVarint >>= dispatchTag rt handlers) payload 0

/-! ## Reading what the server writes, whole or cut -/

/-- The reader yields `a` from the bytes `w`, and throws a `ProtocolException` when some of them
are missing. -/
abbrev Decodes {α : Type} (r : Reader α) (a : α) (w : Bytes) : Prop :=
  Exact Fault.IsProtocol maxFrameLen r a w

theorem bmod_small {pos n : ℕ} (h : pos + n < 2 ^ 31) :
    Int.bmod ((pos : ℤ) + n) (2 ^ 32) = (pos : ℤ) + n := by
  apply Int.bmod_eq_of_le
  · norm_num
    omega
  · norm_num
    omega

/-- In a buffer within the limit no sum wraps. -/
theorem need_iff {data : Bytes} {pos n : ℕ} (h : pos + n < 2 ^ 31) :
    need data pos n = true ↔ pos + n ≤ data.length := by
  unfold need
  rw [decide_eq_true_iff, bmod_small h]
  exact Int.ofNat_le

theorem need_of_le {data : Bytes} {pos n : ℕ} (h : pos + n ≤ data.length) :
    need data pos n = true := by
  have hle : Int.bmod ((pos : ℤ) + n) (2 ^ 32) ≤ (pos : ℤ) + n := by
    rw [Int.bmod_def]
    norm_num
    split_ifs <;> omega
  exact decide_eq_true (hle.trans (Int.ofNat_le.mpr h))

theorem need_at {pre w post : Bytes} : need (pre ++ (w ++ post)) pre.length w.length = true := by
  apply need_of_le
  simp only [List.length_append]
  omega

theorem need_cut {pre w q : Bytes} (hq : q <+: w) (hne : q ≠ w)
    (hL : (pre ++ w).length ≤ maxFrameLen) : need (pre ++ q) pre.length w.length = false := by
  have hlt : q.length < w.length := lt_of_le_of_ne hq.length_le fun h => hne (hq.eq_of_length h)
  simp only [List.length_append, maxFrameLen] at hL
  rw [Bool.eq_false_iff, Ne, need_iff (by omega)]
  simp only [List.length_append]
  omega

section
variable {L : ℕ}

theorem readByte_reads (what : String) (b : UInt8) : Reads L (readByte what) b [b] := by
  intro pre post _
  have hneed : need (pre ++ ([b] ++ post)) pre.length [b].length = true := need_at
  rw [List.length_singleton] at hneed
  rw [readByte, if_pos hneed, Cursor.getD_at]
  rfl

theorem readLittleEndian_reads {k : ℕ} (what : String) {w : Bytes} (hk : w.length = k) :
    Reads L (readLittleEndian k what) (ofLittleEndian w) w := by
  subst hk
  intro pre post _
  rw [readLittleEndian, if_pos need_at, Cursor.slice_at]
  rfl

end

theorem readByte_decodes (what : String) (b : UInt8) : Decodes (readByte what) b [b] := by
  refine ⟨readByte_reads what b, ?_⟩
  intro pre q hq hne hL
  have hneed := need_cut hq hne hL
  rw [List.length_singleton] at hneed
  refine ⟨_, ⟨"Unexpected end of data reading " ++ what, rfl⟩, ?_⟩
  rw [readByte, if_neg (by simp [hneed])]

theorem readLittleEndian_decodes {k n : ℕ} (what : String) (h : n < 256 ^ k) :
    Decodes (readLittleEndian k what) n (littleEndian k n) := by
  have hlen := length_littleEndian k n
  refine ⟨(readLittleEndian_reads what hlen).congr (ofLittleEndian_littleEndian h) rfl, ?_⟩
  intro pre q hq hne hL
  have hneed := need_cut hq hne hL
  rw [hlen] at hneed
  refine ⟨_, ⟨"Unexpected end of data reading " ++ what, rfl⟩, ?_⟩
  rw [readLittleEndian, if_neg (by simp [hneed])]

/-- The first byte of a varint says how the rest of it is read. -/
theorem readVarintTail_cases {n : ℕ} (h : n < 18446744073709551616) :
    ∃ b w, Bincode.writeVarint n = [b] ++ w ∧ (w = [] ∧ readVarintTail b = pure n ∨
      ∃ k what, w = littleEndian k n ∧ n < 256 ^ k ∧
        readVarintTail b = readLittleEndian k what) := by
  unfold Bincode.writeVarint
  split_ifs with h₁ h₂ h₃
  · have hn : (UInt8.ofNat n).toNat = n := by
      rw [UInt8.toNat_ofNat']
      omega
    exact ⟨.ofNat n, [], rfl, .inl ⟨rfl, by rw [readVarintTail, hn, if_pos h₁]⟩⟩
  · exact ⟨251, _, rfl, .inr ⟨2, "u16 varint", rfl, h₂, by simp [readVarintTail]⟩⟩
  · exact ⟨252, _, rfl, .inr ⟨4, "u32 varint", rfl, h₃, by simp [readVarintTail]⟩⟩
  · exact ⟨253, _, rfl, .inr ⟨8, "u64 varint", rfl, h, by simp [readVarintTail]⟩⟩

theorem readVarint_reads {L n : ℕ} (h : n < 18446744073709551616) :
    Reads L readVarint n (Bincode.writeVarint n) := by
  obtain ⟨b, w, hw, ⟨rfl, htail⟩ | ⟨k, what, rfl, hn, htail⟩⟩ := readVarintTail_cases h
  · rw [hw]
    exact (readByte_reads _ b).bind (htail ▸ .pure n)
  · rw [hw]
    exact (readByte_reads _ b).bind (htail ▸ (readLittleEndian_reads what
      (length_littleEndian k n)).congr (ofLittleEndian_littleEndian hn) rfl)

theorem readVarint_decodes {n : ℕ} (h : n < 18446744073709551616) :
    Decodes readVarint n (Bincode.writeVarint n) := by
  obtain ⟨b, w, hw, ⟨rfl, htail⟩ | ⟨k, what, rfl, hn, htail⟩⟩ := readVarintTail_cases h
  · rw [hw]
    exact (readByte_decodes _ b).bind (htail ▸ .pure n)
  · rw [hw]
    exact (readByte_decodes _ b).bind (htail ▸ readLittleEndian_decodes what hn)

theorem readU32Varint_decodes (n : UInt32) : Decodes readU32Varint n (u32.write n) := by
  have hlt := n.toNat_lt
  exact ((readVarint_decodes (by omega)).map UInt32.ofNat).congr (UInt32.ofNat_toNat) rfl

theorem readLength_decodes {limit : ℕ} (tooLarge tooShort : String) {b : Bytes}
    (hlimit : b.length ≤ limit) :
    Decodes (readLength limit tooLarge tooShort b.length) b b := by
  have hfew : ¬ limit < b.length := by omega
  constructor
  · intro pre post hL
    have hthere : ¬ (pre ++ (b ++ post)).length < pre.length + b.length := by
      simp only [List.length_append]
      omega
    rw [readLength, if_neg hfew, need_at, if_neg (by simp), if_neg hthere, Cursor.slice_at]
    rfl
  · intro pre q hq hne hL
    refine ⟨_, ⟨tooShort, rfl⟩, ?_⟩
    rw [readLength, if_neg hfew, need_cut hq hne hL]
    rfl

/-- A byte string with its length in front. -/
theorem readBlob_decodes {limit : ℕ} (tooLarge tooShort : String) (hlimit : maxFrameLen ≤ limit)
    (b : Bytes) :
    Decodes (readVarint >>= readLength limit tooLarge tooShort) b (blob.write b) := by
  apply Exact.within
  intro hL
  have hlen : b.length ≤ maxFrameLen := by
    change (Bincode.writeVarint b.length ++ b).length ≤ maxFrameLen at hL
    rw [List.length_append] at hL
    omega
  have hsmall : b.length < 18446744073709551616 := by
    rw [maxFrameLen] at hlen
    omega
  exact (readVarint_decodes hsmall).bind (readLength_decodes _ _ (hlen.trans hlimit))

theorem readBytes_decodes (b : Bytes) : Decodes readBytes b (blob.write b) :=
  readBlob_decodes _ _ le_rfl b

section
variable (rt : Runtime)

theorem getString_utf8 (s : String) : getString rt (utf8 s) = s := by
  have hs : (⟨(utf8 s).toArray⟩ : ByteArray) = s.toByteArray := rfl
  rw [getString, hs, String.fromUTF8?, dif_pos s.isValidUTF8]
  rfl

theorem readString_decodes (s : String) : Decodes (readString rt) s (string.write s) :=
  ((readBlob_decodes _ _ (by decide) (utf8 s)).map (getString rt)).congr (getString_utf8 rt s) rfl

theorem readOptString_decodes (s : Option String) :
    Decodes (readOptString rt) s (string.option.write s) := by
  cases s with
  | none => exact (readByte_decodes _ 0).bind (w := [_]) (.pure none)
  | some s => exact (readByte_decodes _ 1).bind (w := [_]) ((readString_decodes rt s).map some)

theorem readBool_decodes (b : Bool) : Decodes readBool b (Bincode.bool.write b) := by
  cases b with
  | false => exact (readByte_decodes _ 0).map _
  | true => exact (readByte_decodes _ 1).map _

/-- The settings of the server as the client has them. -/
def RoomSettings.ofServer (s : Roomie.RoomSettings) : RoomSettings :=
  ⟨s.maxPlayers, s.minPlayers, s.isPublic, s.password, s.acceptRequired⟩

theorem readRoomSettings_decodes {s : Roomie.RoomSettings} (h : s.custom = none) :
    Decodes (readRoomSettings rt) (.ofServer s) (settingsFormat.write s) := by
  rw [settings_write h]
  exact (readU32Varint_decodes _).bind <| (readU32Varint_decodes _).bind <|
    (readBool_decodes _).bind <| (readOptString_decodes rt _).bind <|
      (readBool_decodes _).bind <| (readByte_decodes _ 0).bind (.pure _)

theorem readListedRoom_decodes {e : Roomie.RoomListEntry} (h : e.settings.custom = none) :
    Decodes (readListedRoom rt) ⟨e.roomCode.str, e.playerCount, .ofServer e.settings⟩
      (listEntryFormat.write e) := by
  rw [listEntry_write]
  exact (readString_decodes rt _).bind <| (readU32Varint_decodes _).bind <|
    (readRoomSettings_decodes rt h).bind (.pure _)

theorem readList_reads {rooms : List Roomie.RoomListEntry}
    (h : ∀ e ∈ rooms, e.settings.custom = none) :
    Reads maxFrameLen (readList rt)
      (rooms.map fun e => ⟨e.roomCode.str, e.playerCount, .ofServer e.settings⟩)
      (listEntryFormat.list.write rooms) := by
  apply Reads.within
  intro hL
  have hlen := list_length_lt hL
  exact (readVarint_decodes hlen).reads.bind
    (Reads.collect (fun e he => (readListedRoom_decodes rt (h e he)).reads) listEntry_ne_nil)

theorem readState_decodes (state : Option Blob) :
    Decodes readState state (blob.option.write state) := by
  cases state with
  | none => exact (readByte_decodes _ 0).bind (w := [_]) (.pure none)
  | some b => exact (readByte_decodes _ 1).bind (w := [_]) ((readBytes_decodes b).map some)

/-- The call of the C# client for a message. -/
abbrev callOf (m : ServerMessage) : Call := m.call id RoomSettings.ofServer id

variable (handlers : Callback → Bool)

theorem dispatchEvent_decodes {event : RoomEvent}
    (hcustom : ∀ s ∈ (ServerMessage.roomEvent event).carried, s.custom = none) :
    Decodes (readVarint >>= dispatchEvent rt handlers)
      ((callOf (.roomEvent event)).invoke handlers) (roomEventFormat.write event) := by
  cases event with
  | hostTransferred pid =>
    refine (readVarint_decodes (n := 0) (by decide)).bind (w := Bincode.writeVarint 0) ?_
    exact (readU32Varint_decodes pid).last
  | kicked => exact (readVarint_decodes (n := 1) (by decide)).bind (.pure _)
  | banned => exact (readVarint_decodes (n := 2) (by decide)).bind (.pure _)
  | settingsChanged settings =>
    refine (readVarint_decodes (n := 3) (by decide)).bind (w := Bincode.writeVarint 3) ?_
    exact (readRoomSettings_decodes rt (hcustom settings (List.mem_singleton.mpr rfl))).last

/-- The fields of a message other than a room list, read behind its tag. -/
theorem dispatchTag_decodes {m : ServerMessage} {w : Bytes}
    (hw : serverMessageFormat.write m = Bincode.writeVarint m.tag ++ w)
    (hcustom : ∀ s ∈ m.carried, s.custom = none) (hlist : ∀ rooms, m ≠ .roomList rooms) :
    Decodes (dispatchTag rt handlers m.tag) ((callOf m).invoke handlers) w := by
  cases m with
  | joined code pid host side settings state =>
    obtain rfl : string.write code.str ++ (u32.write pid ++ (u32.write host ++ ([side] ++
      (settingsFormat.write settings ++ blob.option.write state)))) = w :=
      List.append_cancel_left hw
    have hsettings := readRoomSettings_decodes rt (hcustom settings (List.mem_singleton.mpr rfl))
    exact (readString_decodes rt _).bind <| (readU32Varint_decodes _).bind <|
      (readU32Varint_decodes _).bind <| (readByte_decodes _ side).bind <|
        hsettings.bind (readState_decodes state).last
  | roomList rooms => exact absurd rfl (hlist rooms)
  | peerJoined pid hash name =>
    obtain rfl : u32.write pid ++ (string.write hash ++ string.option.write name) = w :=
      List.append_cancel_left hw
    refine (readU32Varint_decodes _).bind <| (readString_decodes rt _).bind
      ((readOptString_decodes rt _).last.congr ?_ rfl)
    cases name <;> rfl
  | peerLeft pid =>
    obtain rfl : u32.write pid = w := List.append_cancel_left hw
    exact (readU32Varint_decodes _).last
  | peerInput pid data =>
    obtain rfl : u32.write pid ++ blob.write data = w := List.append_cancel_left hw
    exact (readU32Varint_decodes _).bind (readBytes_decodes data).last
  | stateUpdate data =>
    obtain rfl : blob.write data = w := List.append_cancel_left hw
    exact (readBytes_decodes data).last
  | moveAccepted =>
    obtain rfl : [] = w := List.append_cancel_left hw
    exact .pure _
  | moveRejected reason =>
    obtain rfl : string.write reason = w := List.append_cancel_left hw
    exact (readString_decodes rt _).last
  | roomEvent event =>
    obtain rfl : roomEventFormat.write event = w := List.append_cancel_left hw
    exact dispatchEvent_decodes rt handlers hcustom
  | pong =>
    obtain rfl : [] = w := List.append_cancel_left hw
    exact .pure _
  | error message =>
    obtain rfl : string.write message = w := List.append_cancel_left hw
    exact (readString_decodes rt _).last

theorem dispatch_decodes {m : ServerMessage} (hcustom : ∀ s ∈ m.carried, s.custom = none)
    (hlist : ∀ rooms, m ≠ .roomList rooms) :
    Decodes (readVarint >>= dispatchTag rt handlers) ((callOf m).invoke handlers)
      (serverMessageFormat.write m) := by
  have htag := m.tag_lt
  exact (readVarint_decodes (by omega)).bind (dispatchTag_decodes rt handlers rfl hcustom hlist)

theorem dispatch_reads {m : ServerMessage} (hcustom : ∀ s ∈ m.carried, s.custom = none) :
    Reads maxFrameLen (readVarint >>= dispatchTag rt handlers) ((callOf m).invoke handlers)
      (serverMessageFormat.write m) := by
  by_cases hlist : ∃ rooms, m = .roomList rooms
  · obtain ⟨rooms, rfl⟩ := hlist
    have hrooms : ∀ e ∈ rooms, e.settings.custom = none :=
      fun e he => hcustom e.settings (List.mem_map_of_mem he)
    refine (readVarint_decodes (n := 1) (by decide)).reads.bind (w := Bincode.writeVarint 1) ?_
    exact (readList_reads rt hrooms).last
  · exact (dispatch_decodes rt handlers hcustom fun rooms h => hlist ⟨rooms, h⟩).reads

end

end Roomie.Csharp
