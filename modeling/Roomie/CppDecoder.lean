import Roomie.Cursors
import Roomie.ClientCallbacks

/-!
# The decoder of the C++ client

`Reader`, `read_room_settings`, `skip_bincode_json_value` and `decode_and_dispatch`. A reader
never reports an error: at the end of the data it yields zero values and goes on. The only
failure is a crash, when the nested values of a custom setting use up the stack. Positions and
sizes are 64-bit, and so wraps the sum in `need`.
-/

namespace Roomie.Cpp
open Bincode Cursors

abbrev Reader := Cursor Option

def need (data : Bytes) (pos n : ℕ) : Bool := (pos + n) % 2 ^ 64 ≤ data.length

def readU8 : Reader UInt8 := fun data pos =>
  if need data pos 1 then some (data.getD pos 0, pos + 1) else some (0, pos)

/-- A marker without the bytes that it announces is taken alone and yields 0. -/
def readVarint : Reader ℕ := fun data pos =>
  if need data pos 1 then
    let b := data.getD pos 0
    if b.toNat < 251 then some (b.toNat, pos + 1)
    else if b = 251 && need data (pos + 1) 2 then
      some (ofLittleEndian (Cursor.slice data (pos + 1) 2), pos + 1 + 2)
    else if b = 252 && need data (pos + 1) 4 then
      some (ofLittleEndian (Cursor.slice data (pos + 1) 4), pos + 1 + 4)
    else if b = 253 && need data (pos + 1) 8 then
      some (ofLittleEndian (Cursor.slice data (pos + 1) 8), pos + 1 + 8)
    else some (0, pos + 1)
  else some (0, pos)

/-- The value is cut to 32 bits. -/
def readU32Varint : Reader UInt32 := UInt32.ofNat <$> readVarint

/-- So many bytes, or nothing at all when there are too many of them or too few are left. -/
def readLength (limit len : ℕ) : Reader Bytes := fun data pos =>
  if limit < len || !need data pos len then some ([], pos)
  else some (Cursor.slice data pos len, pos + len)

def readStr : Reader Bytes := readVarint >>= readLength 0x7FFFFFFF

/-- `read_bytes`, into an empty vector. -/
def readBytes : Reader Bytes := readVarint >>= readLength maxFrameLen

def readOptStr : Reader (Option Bytes) := do
  if (← readU8) = 0 then pure none else some <$> readStr

/-- `if (need(n)) pos += n`. -/
def skip (n : ℕ) : Reader Unit := fun data pos =>
  if need data pos n then some ((), (pos + n) % 2 ^ 64) else some ((), pos)

/-- `skip_bincode_json_value`, with room for so many nested calls on the stack. -/
def skipBincodeJsonValue : ℕ → Reader Unit
  | 0 => fun _ _ => none
  | depth + 1 => do
    match ← readVarint with
    | 0 => pure ()
    | 1 => discard readU8
    | 2 => skip 8
    | 3 => readVarint >>= skip
    | 4 => discard ((skipBincodeJsonValue depth).collect (← readVarint))
    | 5 =>
      let entry := do
        discard readStr
        skipBincodeJsonValue depth
      discard (entry.collect (← readVarint))
    | _ => pure ()

/-- `RoomSettings` of the C++ client; an empty password is none. -/
structure RoomSettings where
  maxPlayers : UInt32
  minPlayers : UInt32
  isPublic : Bool
  password : Bytes
  acceptRequired : Bool
  deriving DecidableEq, Repr

def readRoomSettings (depth : ℕ) : Reader RoomSettings := do
  let maxPlayers ← readU32Varint
  let minPlayers ← readU32Varint
  let isPublic ← readU8
  let password ← readOptStr
  let acceptRequired ← readU8
  let custom ← readU8
  if custom ≠ 0 then skipBincodeJsonValue depth
  pure ⟨maxPlayers, minPlayers, isPublic ≠ 0, password.getD [], acceptRequired ≠ 0⟩

abbrev Call := Roomie.Call Bytes RoomSettings Bytes

/-- The fields that `SessionUpdate` points to. -/
structure Session where
  roomCode : Bytes
  peerId : PeerId
  hostPeerId : PeerId
  deriving DecidableEq

def readListedRoom (depth : ℕ) : Reader (ListedRoom Bytes RoomSettings) := do
  let roomCode ← readStr
  let playerCount ← readU32Varint
  let settings ← readRoomSettings depth
  pure ⟨roomCode, playerCount, settings⟩

/-- The state that may follow in `Joined`. -/
def readState : Reader Bytes := do
  if (← readU8) ≠ 0 then readBytes else pure []

/-- `for (i < n && !eof())`: the list ends with the data, however many entries were announced. -/
def readList (depth : ℕ) : Reader (List (ListedRoom Bytes RoomSettings)) :=
  readVarint >>= (readListedRoom depth).collect

/-- The cases of `RoomEvent`. -/
def dispatchEvent (cbs : Callback → Bool) (depth : ℕ) (su : Session) :
    ℕ → Reader (Session × Option Call)
  | 0 => do
    let id ← readU32Varint
    pure ({ su with hostPeerId := id }, (Call.hostTransferred id).invoke cbs)
  | 1 => pure (su, Call.kicked.invoke cbs)
  | 2 => pure (su, Call.banned.invoke cbs)
  | 3 => do
    let s ← readRoomSettings depth
    pure (su, (Call.settingsChanged s).invoke cbs)
  | _ => pure (su, none)

/-- The cases of `decode_and_dispatch`: the session afterwards and the callback called. -/
def dispatchTag (cbs : Callback → Bool) (depth : ℕ) (su : Session) :
    ℕ → Reader (Session × Option Call)
  | 0 => do
    let roomCode ← readStr
    let peerId ← readU32Varint
    let hostPeerId ← readU32Varint
    let side ← readU8
    let settings ← readRoomSettings depth
    let initialState ← readState
    pure (⟨roomCode, peerId, hostPeerId⟩,
      (Call.joined roomCode peerId hostPeerId side settings initialState).invoke cbs)
  | 1 => do
    let list ← readList depth
    pure (su, (Call.roomList list).invoke cbs)
  | 2 => do
    let peerId ← readU32Varint
    let clientHash ← readStr
    let displayName ← readOptStr
    pure (su, (Call.peerJoined peerId clientHash displayName).invoke cbs)
  | 3 => do
    let peerId ← readU32Varint
    pure (su, (Call.peerLeft peerId).invoke cbs)
  | 4 => do
    let peerId ← readU32Varint
    let data ← readBytes
    pure (su, if data.isEmpty then none else (Call.peerInput peerId data).invoke cbs)
  | 5 => do
    let data ← readBytes
    pure (su, if data.isEmpty then none else (Call.stateUpdate data).invoke cbs)
  | 6 => pure (su, Call.moveAccepted.invoke cbs)
  | 7 => do
    let reason ← readStr
    pure (su, (Call.moveRejected reason).invoke cbs)
  | 8 => readVarint >>= dispatchEvent cbs depth su
  | 9 => pure (su, Call.pong.invoke cbs)
  | 10 => do
    let msg ← readStr
    pure (su, (Call.error msg).invoke cbs)
  | _ => pure (su, none)

def dispatch (cbs : Callback → Bool) (depth : ℕ) (su : Session) : Reader (Session × Option Call) :=
  readVarint >>= dispatchTag cbs depth su

/-- The whole payload from its first byte; the last component is where reading ended. -/
def decodeAndDispatch (cbs : Callback → Bool) (depth : ℕ) (su : Session) (payload : Bytes) :
    Option ((Session × Option Call) × ℕ) :=
  dispatch cbs depth su payload 0

/-! ## Reading what the server writes -/

/-- In a buffer within the limit no sum wraps. -/
theorem need_iff {data : Bytes} {pos n : ℕ} (h : pos + n < 2 ^ 64) :
    need data pos n = true ↔ pos + n ≤ data.length := by
  rw [need, decide_eq_true_iff, Nat.mod_eq_of_lt h]

theorem need_of_le {data : Bytes} {pos n : ℕ} (h : pos + n ≤ data.length) :
    need data pos n = true :=
  decide_eq_true ((Nat.mod_le _ _).trans h)

theorem need_at {pre w post : Bytes} {n : ℕ} (hn : n ≤ w.length) :
    need (pre ++ (w ++ post)) pre.length n = true := by
  apply need_of_le
  simp only [List.length_append]
  omega

theorem need_behind {pre : Bytes} {b : UInt8} {w post : Bytes} {n : ℕ} (hn : n ≤ w.length) :
    need (pre ++ ((b :: w) ++ post)) (pre.length + 1) n = true := by
  apply need_of_le
  simp only [List.length_append, List.length_cons]
  omega

section
variable {L : ℕ}

theorem readU8_reads (b : UInt8) : Reads L readU8 b [b] := by
  intro pre post _
  rw [readU8, if_pos (need_at (by simp)), Cursor.getD_at]
  rfl

/-- Where no byte is left the reader goes on with zero. -/
theorem readVarint_end {data : Bytes} (hL : data.length ≤ maxFrameLen) :
    readVarint data data.length = some (0, data.length) := by
  rw [maxFrameLen] at hL
  have hneed : ¬ need data data.length 1 = true := by
    rw [need_iff (by omega)]
    omega
  rw [readVarint, if_neg hneed]

theorem readVarint_reads {n : ℕ} (h : n < 18446744073709551616) :
    Reads L readVarint n (Bincode.writeVarint n) := by
  intro pre post _
  have hfirst : ∀ {b : UInt8} {w : Bytes}, need (pre ++ ((b :: w) ++ post)) pre.length 1 = true :=
    need_at (by simp)
  have hbehind : ∀ {k : ℕ} {w : Bytes} (b : UInt8), w.length = k →
      need (pre ++ ((b :: w) ++ post)) (pre.length + 1) k = true := fun _ hk => need_behind hk.ge
  unfold Bincode.writeVarint
  split_ifs with h₁ h₂ h₃
  · have hn : (UInt8.ofNat n).toNat = n := by
      rw [UInt8.toNat_ofNat']
      omega
    simp only [readVarint, hfirst, Cursor.getD_at, hn, h₁, if_true]
    rfl
  · have hmore := hbehind 251 (length_littleEndian 2 n)
    simp only [readVarint, hfirst, hmore, Cursor.getD_at, Cursor.slice_behind pre _ _ post
      (length_littleEndian 2 n), ofLittleEndian_littleEndian (k := 2) h₂]
    simp
  · have hmore := hbehind 252 (length_littleEndian 4 n)
    simp only [readVarint, hfirst, hmore, Cursor.getD_at, Cursor.slice_behind pre _ _ post
      (length_littleEndian 4 n), ofLittleEndian_littleEndian (k := 4) h₃]
    simp
  · have hmore := hbehind 253 (length_littleEndian 8 n)
    simp only [readVarint, hfirst, hmore, Cursor.getD_at, Cursor.slice_behind pre _ _ post
      (length_littleEndian 8 n), ofLittleEndian_littleEndian (k := 8) h]
    simp

end

theorem readU32Varint_reads (n : UInt32) :
    Reads maxFrameLen readU32Varint n (u32.write n) := by
  have hlt := n.toNat_lt
  exact ((readVarint_reads (by omega)).map UInt32.ofNat).congr (UInt32.ofNat_toNat) rfl

theorem readLength_reads {limit : ℕ} {b : Bytes} (hlimit : maxFrameLen ≤ limit) :
    Reads maxFrameLen (readLength limit b.length) b b := by
  intro pre post hL
  have hfew : ¬ limit < b.length := by
    simp only [List.length_append] at hL
    omega
  simp only [readLength, need_at le_rfl, Cursor.slice_at]
  simp [hfew]

/-- A byte string with its length in front. -/
theorem readBlob_reads {limit : ℕ} (hlimit : maxFrameLen ≤ limit) (b : Bytes) :
    Reads maxFrameLen (readVarint >>= readLength limit) b (blob.write b) := by
  apply Reads.within
  intro hL
  have hlen : b.length < 18446744073709551616 := by
    change (Bincode.writeVarint b.length ++ b).length ≤ maxFrameLen at hL
    simp only [List.length_append, maxFrameLen] at hL
    omega
  exact (readVarint_reads hlen).bind (readLength_reads hlimit)

theorem readStr_reads (s : String) : Reads maxFrameLen readStr (utf8 s) (string.write s) :=
  readBlob_reads (by decide) (utf8 s)

theorem readBytes_reads (b : Bytes) : Reads maxFrameLen readBytes b (blob.write b) :=
  readBlob_reads le_rfl b

theorem readOptStr_reads (s : Option String) :
    Reads maxFrameLen readOptStr (s.map utf8) (string.option.write s) := by
  cases s with
  | none => exact ((readU8_reads 0).bind (.pure none)).congr rfl rfl
  | some s => exact (readU8_reads 1).bind ((readStr_reads s).map some)

theorem readFlag_reads (b : Bool) :
    Reads maxFrameLen readU8 (if b then 1 else 0) (Bincode.bool.write b) :=
  readU8_reads _

theorem flag_eq (b : Bool) : decide ((if b then 1 else 0 : UInt8) ≠ 0) = b := by
  cases b <;> rfl

/-- The settings of the server as the client has them. -/
def RoomSettings.ofServer (s : Roomie.RoomSettings) : RoomSettings :=
  ⟨s.maxPlayers, s.minPlayers, s.isPublic, (s.password.map utf8).getD [], s.acceptRequired⟩

theorem readRoomSettings_reads (depth : ℕ) {s : Roomie.RoomSettings} (h : s.custom = none) :
    Reads maxFrameLen (readRoomSettings depth) (.ofServer s) (settingsFormat.write s) := by
  rw [settings_write h]
  refine ((readU32Varint_reads _).bind <| (readU32Varint_reads _).bind <|
    (readFlag_reads _).bind <| (readOptStr_reads _).bind <| (readFlag_reads _).bind <|
      (readU8_reads 0).bind ((Reads.pure _).congr ?_ rfl))
  rw [flag_eq, flag_eq]
  rfl

theorem readListedRoom_reads (depth : ℕ) {e : Roomie.RoomListEntry} (h : e.settings.custom = none) :
    Reads maxFrameLen (readListedRoom depth)
      ⟨utf8 e.roomCode.str, e.playerCount, .ofServer e.settings⟩ (listEntryFormat.write e) := by
  rw [listEntry_write]
  exact (readStr_reads _).bind <| (readU32Varint_reads _).bind <|
    (readRoomSettings_reads depth h).bind (.pure _)

theorem readList_reads (depth : ℕ) {rooms : List Roomie.RoomListEntry}
    (h : ∀ e ∈ rooms, e.settings.custom = none) :
    Reads maxFrameLen (readList depth)
      (rooms.map fun e => ⟨utf8 e.roomCode.str, e.playerCount, .ofServer e.settings⟩)
      (listEntryFormat.list.write rooms) := by
  apply Reads.within
  intro hL
  have hlen := list_length_lt hL
  exact (readVarint_reads hlen).bind
    (Reads.collect (fun e he => readListedRoom_reads depth (h e he)) listEntry_ne_nil)

/-- What a call tells of the room is kept in the session. -/
def Session.after (su : Session) : Call → Session
  | .joined roomCode peerId hostPeerId _ _ _ => ⟨roomCode, peerId, hostPeerId⟩
  | .hostTransferred id => { su with hostPeerId := id }
  | _ => su

/-- The call of the C++ client for a message. -/
abbrev callOf (m : ServerMessage) : Call := m.call utf8 RoomSettings.ofServer (Option.getD · [])

/-- Input and state without a byte are not passed on. -/
def Passed : ServerMessage → Prop
  | .peerInput _ data => data ≠ []
  | .stateUpdate data => data ≠ []
  | _ => True

theorem readState_reads (state : Option Blob) :
    Reads maxFrameLen readState (state.getD []) (blob.option.write state) := by
  cases state with
  | none => exact (readU8_reads 0).bind (.pure [])
  | some b => exact (readU8_reads 1).bind (readBytes_reads b)

section
variable (cbs : Callback → Bool) (depth : ℕ) (su : Session)

theorem dispatchEvent_reads {event : RoomEvent}
    (hcustom : ∀ s ∈ (ServerMessage.roomEvent event).carried, s.custom = none) :
    Reads maxFrameLen (readVarint >>= dispatchEvent cbs depth su)
      (su.after (callOf (.roomEvent event)), (callOf (.roomEvent event)).invoke cbs)
      (roomEventFormat.write event) := by
  cases event with
  | hostTransferred pid =>
    refine (readVarint_reads (n := 0) (by decide)).bind (w := Bincode.writeVarint 0) ?_
    exact (readU32Varint_reads pid).last
  | kicked => exact (readVarint_reads (n := 1) (by decide)).bind (.pure _)
  | banned => exact (readVarint_reads (n := 2) (by decide)).bind (.pure _)
  | settingsChanged settings =>
    refine (readVarint_reads (n := 3) (by decide)).bind (w := Bincode.writeVarint 3) ?_
    exact (readRoomSettings_reads depth (hcustom settings (List.mem_singleton.mpr rfl))).last

/-- The fields of a message, read behind its tag. -/
theorem dispatchTag_reads {m : ServerMessage} {w : Bytes}
    (hw : serverMessageFormat.write m = Bincode.writeVarint m.tag ++ w)
    (hcustom : ∀ s ∈ m.carried, s.custom = none) (hpassed : Passed m) :
    Reads maxFrameLen (dispatchTag cbs depth su m.tag)
      (su.after (callOf m), (callOf m).invoke cbs) w := by
  cases m with
  | joined code pid host side settings state =>
    obtain rfl : string.write code.str ++ (u32.write pid ++ (u32.write host ++ ([side] ++
      (settingsFormat.write settings ++ blob.option.write state)))) = w :=
      List.append_cancel_left hw
    have hsettings := readRoomSettings_reads depth (hcustom settings (List.mem_singleton.mpr rfl))
    exact (readStr_reads _).bind <| (readU32Varint_reads _).bind <| (readU32Varint_reads _).bind <|
      (readU8_reads _).bind <| hsettings.bind (readState_reads state).last
  | roomList rooms =>
    obtain rfl : listEntryFormat.list.write rooms = w := List.append_cancel_left hw
    have hrooms : ∀ e ∈ rooms, e.settings.custom = none :=
      fun e he => hcustom e.settings (List.mem_map_of_mem he)
    exact (readList_reads depth hrooms).last
  | peerJoined pid hash name =>
    obtain rfl : u32.write pid ++ (string.write hash ++ string.option.write name) = w :=
      List.append_cancel_left hw
    exact (readU32Varint_reads _).bind <| (readStr_reads _).bind (readOptStr_reads _).last
  | peerLeft pid =>
    obtain rfl : u32.write pid = w := List.append_cancel_left hw
    exact (readU32Varint_reads _).last
  | peerInput pid data =>
    obtain rfl : u32.write pid ++ blob.write data = w := List.append_cancel_left hw
    refine (readU32Varint_reads _).bind ((readBytes_reads data).last.congr ?_ rfl)
    have hdata : data ≠ [] := hpassed
    rw [if_neg (by simpa using hdata)]
    rfl
  | stateUpdate data =>
    obtain rfl : blob.write data = w := List.append_cancel_left hw
    refine (readBytes_reads data).last.congr ?_ rfl
    have hdata : data ≠ [] := hpassed
    rw [if_neg (by simpa using hdata)]
    rfl
  | moveAccepted =>
    obtain rfl : [] = w := List.append_cancel_left hw
    exact .pure _
  | moveRejected reason =>
    obtain rfl : string.write reason = w := List.append_cancel_left hw
    exact (readStr_reads _).last
  | roomEvent event =>
    obtain rfl : roomEventFormat.write event = w := List.append_cancel_left hw
    exact dispatchEvent_reads cbs depth su hcustom
  | pong =>
    obtain rfl : [] = w := List.append_cancel_left hw
    exact .pure _
  | error message =>
    obtain rfl : string.write message = w := List.append_cancel_left hw
    exact (readStr_reads _).last

theorem dispatch_reads {m : ServerMessage} (hcustom : ∀ s ∈ m.carried, s.custom = none)
    (hpassed : Passed m) :
    Reads maxFrameLen (dispatch cbs depth su) (su.after (callOf m), (callOf m).invoke cbs)
      (serverMessageFormat.write m) := by
  have htag := m.tag_lt
  exact (readVarint_reads (by omega)).bind (dispatchTag_reads cbs depth su rfl hcustom hpassed)

end

end Roomie.Cpp
