import Mathlib.Data.List.TakeWhile
import Roomie.ClientDecoders
import Roomie.GmlPolling

/-!
# What the GameMaker client makes of the server's messages

Each message that the server encodes is decoded field by field, and told to the user by one
callback. Strings and blobs are passed on as text, which ends with the first zero byte, and an
input or a state without a byte is passed on to nobody; everything else comes through as the
server wrote it.
-/

namespace Roomie.Gml
open Bincode Cursors ByteBuffers Frames

/-- A byte string that is read; an empty one is no buffer at all. -/
def bufferOf (b : Bytes) : Option Bytes := if b = [] then none else some b

/-- A string as it is read. -/
def textOf (s : String) : Bytes := text (utf8 s)

/-- The settings as they are read. -/
def RoomSettings.ofServer (s : Roomie.RoomSettings) : RoomSettings :=
  ⟨s.maxPlayers.toNat, s.minPlayers.toNat, s.isPublic, s.password.map textOf, s.acceptRequired⟩

def ListedRoom.ofServer (e : RoomListEntry) : ListedRoom :=
  ⟨textOf e.roomCode.str, e.playerCount.toNat, .ofServer e.settings⟩

/-- A message as it is read. -/
def Message.ofServer : ServerMessage → Message
  | .joined code pid host side settings state =>
    .joined (textOf code.str) pid.toNat host.toNat side.toNat (.ofServer settings)
      (state.bind bufferOf)
  | .roomList rooms => .roomList (rooms.map .ofServer)
  | .peerJoined pid hash name => .peerJoined pid.toNat (textOf hash) (name.map textOf)
  | .peerLeft pid => .peerLeft pid.toNat
  | .peerInput pid data => .peerInput pid.toNat (bufferOf data)
  | .stateUpdate data => .stateUpdate (bufferOf data)
  | .moveAccepted => .moveAccepted
  | .moveRejected reason => .moveRejected (textOf reason)
  | .roomEvent (.hostTransferred pid) => .hostTransferred pid.toNat
  | .roomEvent .kicked => .roomEvent 1
  | .roomEvent .banned => .roomEvent 2
  | .roomEvent (.settingsChanged settings) => .settingsChanged (.ofServer settings)
  | .pong => .pong
  | .error message => .error (textOf message)

/-- The callback for a message. -/
def callOf (m : ServerMessage) : Option Call := (Message.ofServer m).call

/-! ## What is read -/

section
variable (rt : Runtime)

theorem byte_reads {L : ℕ} (b : UInt8) : Reads L (bufferRead rt 1) b.toNat [b] :=
  bufferRead_reads rt rfl

theorem readOptStr_reads (s : Option String) :
    Reads maxFrameLen (readOptStr rt) (s.map textOf) (string.option.write s) := by
  cases s with
  | none => exact (byte_reads rt 0).bind (w := [_]) (.pure none)
  | some s => exact (byte_reads rt 1).bind (w := [_]) ((readStr_reads rt s).map some)

theorem readBytes_reads (b : Bytes) :
    Reads maxFrameLen (readBytes rt) (bufferOf b) (blob.write b) := by
  apply Reads.within
  intro hL
  have hlen : b.length < 4294967296 := by
    change (writeVarint b.length ++ b).length ≤ maxFrameLen at hL
    rw [List.length_append, maxFrameLen] at hL
    omega
  exact (varintRead_reads rt hlen).bind (readLength_reads b)

theorem readOptBytes_reads (state : Option Blob) :
    Reads maxFrameLen (readOptBytes rt) (state.bind bufferOf) (blob.option.write state) := by
  cases state with
  | none => exact (byte_reads rt 0).bind (w := [_]) (.pure none)
  | some b => exact (byte_reads rt 1).bind (w := [_]) (readBytes_reads rt b)

theorem bool_reads {L : ℕ} (b : Bool) :
    ∃ n, Reads L (bufferRead rt 1) n (Bincode.bool.write b) ∧ decide (n ≠ 0) = b := by
  cases b with
  | false => exact ⟨0, byte_reads rt 0, rfl⟩
  | true => exact ⟨1, byte_reads rt 1, rfl⟩

theorem readRoomSettings_reads {s : Roomie.RoomSettings} (h : s.custom = none) :
    Reads maxFrameLen (readRoomSettings rt) (.ofServer s) (settingsFormat.write s) := by
  obtain ⟨isPublic, hpublic, hpublic'⟩ := bool_reads (L := maxFrameLen) rt s.isPublic
  obtain ⟨accept, haccept, haccept'⟩ := bool_reads (L := maxFrameLen) rt s.acceptRequired
  have hsettings : RoomSettings.ofServer s = ⟨s.maxPlayers.toNat, s.minPlayers.toNat,
      decide (isPublic ≠ 0), s.password.map textOf, decide (accept ≠ 0)⟩ := by
    rw [hpublic', haccept']
    rfl
  rw [settings_write h, hsettings]
  exact (varintRead_u32 rt _).bind <| (varintRead_u32 rt _).bind <| hpublic.bind <|
    (readOptStr_reads rt _).bind <| haccept.bind <| (byte_reads rt 0).bind (.pure _)

theorem readListedRoom_reads {e : RoomListEntry} (h : e.settings.custom = none) :
    Reads maxFrameLen (readListedRoom rt) (.ofServer e) (listEntryFormat.write e) := by
  rw [listEntry_write]
  exact (readStr_reads rt _).bind <| (varintRead_u32 rt _).bind <|
    (readRoomSettings_reads rt h).bind (.pure _)

theorem readRooms_reads {rooms : List RoomListEntry}
    (h : ∀ e ∈ rooms, e.settings.custom = none) :
    Reads maxFrameLen (varintRead rt >>= (readListedRoom rt).collect) (rooms.map .ofServer)
      (listEntryFormat.list.write rooms) := by
  apply Reads.within
  intro hL
  have hlen : rooms.length < 4294967296 := by
    have hle := @length_le_flatMap _ rooms _ listEntry_ne_nil
    change (writeVarint rooms.length ++ rooms.flatMap listEntryFormat.write).length ≤
      maxFrameLen at hL
    rw [List.length_append, maxFrameLen] at hL
    omega
  exact (varintRead_reads rt hlen).bind
    (Reads.collect (fun e he => readListedRoom_reads rt (h e he)) listEntry_ne_nil)

theorem readEvent_reads {event : RoomEvent}
    (hcustom : ∀ s ∈ (ServerMessage.roomEvent event).carried, s.custom = none) :
    Reads maxFrameLen (varintRead rt >>= readEvent rt) (Message.ofServer (.roomEvent event))
      (roomEventFormat.write event) := by
  cases event with
  | hostTransferred pid =>
    refine (varintRead_reads rt (n := 0) (by decide)).bind (w := writeVarint 0) ?_
    exact (varintRead_u32 rt pid).map _
  | kicked => exact (varintRead_reads rt (n := 1) (by decide)).bind (.pure _)
  | banned => exact (varintRead_reads rt (n := 2) (by decide)).bind (.pure _)
  | settingsChanged settings =>
    refine (varintRead_reads rt (n := 3) (by decide)).bind (w := writeVarint 3) ?_
    exact (readRoomSettings_reads rt (hcustom settings (List.mem_singleton.mpr rfl))).map _

/-- The fields of a message, read behind its tag. -/
theorem readMessage_reads {m : ServerMessage} {w : Bytes}
    (hw : serverMessageFormat.write m = writeVarint m.tag ++ w)
    (hcustom : ∀ s ∈ m.carried, s.custom = none) :
    Reads maxFrameLen (readMessage rt m.tag) (.ofServer m) w := by
  cases m with
  | joined code pid host side settings state =>
    obtain rfl : string.write code.str ++ (u32.write pid ++ (u32.write host ++ ([side] ++
      (settingsFormat.write settings ++ blob.option.write state)))) = w :=
      List.append_cancel_left hw
    have hsettings := readRoomSettings_reads rt (hcustom settings (List.mem_singleton.mpr rfl))
    exact (readStr_reads rt _).bind <| (varintRead_u32 rt _).bind <| (varintRead_u32 rt _).bind <|
      (byte_reads rt side).bind <| hsettings.bind (readOptBytes_reads rt state).last
  | roomList rooms =>
    obtain rfl : listEntryFormat.list.write rooms = w := List.append_cancel_left hw
    exact (readRooms_reads rt fun e he => hcustom e.settings (List.mem_map_of_mem he)).map _
  | peerJoined pid hash name =>
    obtain rfl : u32.write pid ++ (string.write hash ++ string.option.write name) = w :=
      List.append_cancel_left hw
    exact (varintRead_u32 rt _).bind <| (readStr_reads rt _).bind (readOptStr_reads rt _).last
  | peerLeft pid =>
    obtain rfl : u32.write pid = w := List.append_cancel_left hw
    exact (varintRead_u32 rt _).map _
  | peerInput pid data =>
    obtain rfl : u32.write pid ++ blob.write data = w := List.append_cancel_left hw
    exact (varintRead_u32 rt _).bind (readBytes_reads rt data).last
  | stateUpdate data =>
    obtain rfl : blob.write data = w := List.append_cancel_left hw
    exact (readBytes_reads rt data).map _
  | moveAccepted =>
    obtain rfl : [] = w := List.append_cancel_left hw
    exact .pure _
  | moveRejected reason =>
    obtain rfl : string.write reason = w := List.append_cancel_left hw
    exact (readStr_reads rt _).map _
  | roomEvent event =>
    obtain rfl : roomEventFormat.write event = w := List.append_cancel_left hw
    exact readEvent_reads rt hcustom
  | pong =>
    obtain rfl : [] = w := List.append_cancel_left hw
    exact .pure _
  | error message =>
    obtain rfl : string.write message = w := List.append_cancel_left hw
    exact (readStr_reads rt _).map _

theorem message_reads {m : ServerMessage} (hcustom : ∀ s ∈ m.carried, s.custom = none) :
    Reads maxFrameLen (varintRead rt >>= readMessage rt) (.ofServer m)
      (serverMessageFormat.write m) := by
  have htag := m.tag_lt
  exact (varintRead_reads rt (by omega)).bind (readMessage_reads rt rfl hcustom)

/-- What the server encodes is decoded to the message as it is read. -/
theorem decodeServerMessage_encode {m : ServerMessage} {payload : Bytes}
    (hencode : m.encode = some payload) (hcustom : ∀ s ∈ m.carried, s.custom = none) :
    decodeServerMessage rt payload = some (.ofServer m) := by
  obtain ⟨rfl, hL⟩ := m.encode_eq hencode
  rw [decodeServerMessage, (message_reads rt hcustom).whole hL]
  rfl

end

/-! ## What is lost -/

/-- The strings and blobs of settings, and of a message. -/
def textsOfSettings (s : Roomie.RoomSettings) : List Bytes := (s.password.map utf8).toList

def textsOf : ServerMessage → List Bytes
  | .joined code _ _ _ settings state => utf8 code.str :: (textsOfSettings settings ++ state.toList)
  | .roomList rooms => rooms.flatMap fun e => utf8 e.roomCode.str :: textsOfSettings e.settings
  | .peerJoined _ hash name => utf8 hash :: (name.map utf8).toList
  | .peerInput _ data => [data]
  | .stateUpdate data => [data]
  | .moveRejected reason => [utf8 reason]
  | .roomEvent (.settingsChanged settings) => textsOfSettings settings
  | .error message => [utf8 message]
  | .peerLeft _ | .moveAccepted | .roomEvent _ | .pong => []

/-- The settings with all of their texts. -/
def RoomSettings.whole (s : Roomie.RoomSettings) : RoomSettings :=
  ⟨s.maxPlayers.toNat, s.minPlayers.toNat, s.isPublic, s.password.map utf8, s.acceptRequired⟩

/-- The callback with all of the message. -/
def wholeCall (m : ServerMessage) : Call :=
  match m.call utf8 RoomSettings.whole (Option.getD · []) with
  | .joined roomCode peerId hostPeerId side settings initialState =>
    .joined roomCode peerId.toNat hostPeerId.toNat side.toNat settings initialState
  | .roomList rooms =>
    .roomList (rooms.map fun r => ⟨r.roomCode, r.playerCount.toNat, r.settings⟩)
  | .peerJoined peerId clientHash displayName => .peerJoined peerId.toNat clientHash displayName
  | .peerLeft peerId => .peerLeft peerId.toNat
  | .peerInput peerId data => .peerInput peerId.toNat data
  | .stateUpdate data => .stateUpdate data
  | .moveAccepted => .moveAccepted
  | .moveRejected reason => .moveRejected reason
  | .hostTransferred newHostPeerId => .hostTransferred newHostPeerId.toNat
  | .kicked => .kicked
  | .banned => .banned
  | .settingsChanged settings => .settingsChanged settings
  | .pong => .pong
  | .error message => .error message

/-- Nothing is cut short, and there is something to pass on. -/
def Clean (m : ServerMessage) : Prop :=
  (∀ b ∈ textsOf m, (0 : UInt8) ∉ b) ∧ Cpp.Passed m

/-- All of a string or blob is passed on as text. -/
theorem text_eq_iff (b : Bytes) : text b = b ↔ (0 : UInt8) ∉ b := by
  constructor
  · intro h hzero
    rw [← h] at hzero
    simpa using List.mem_takeWhile_imp hzero
  · intro h
    refine List.takeWhile_eq_self_iff.mpr fun x hx => ?_
    exact decide_eq_true fun hzero : x = 0 => h (hzero ▸ hx)

theorem map_textOf_iff (s : Option String) :
    s.map textOf = s.map utf8 ↔ ∀ b ∈ (s.map utf8).toList, (0 : UInt8) ∉ b := by
  cases s with
  | none => simp
  | some s => simpa [textOf] using text_eq_iff (utf8 s)

theorem settings_whole_iff (s : Roomie.RoomSettings) :
    RoomSettings.ofServer s = .whole s ↔ ∀ b ∈ textsOfSettings s, (0 : UInt8) ∉ b := by
  rw [textsOfSettings, ← map_textOf_iff]
  simp [RoomSettings.ofServer, RoomSettings.whole]

theorem text_bufferOf (b : Bytes) : text ((bufferOf b).getD []) = text b := by
  unfold bufferOf
  split_ifs with hnil
  · rw [hnil]
    rfl
  · rfl

theorem state_whole_iff (state : Option Blob) :
    text ((state.bind bufferOf).getD []) = state.getD [] ↔ ∀ b ∈ state.toList, (0 : UInt8) ∉ b := by
  cases state with
  | none => simp [text]
  | some b => simpa [text_bufferOf] using text_eq_iff b

theorem rooms_whole_iff (rooms : List RoomListEntry) :
    rooms.map ListedRoom.ofServer = rooms.map (fun e =>
        ⟨utf8 e.roomCode.str, e.playerCount.toNat, .whole e.settings⟩) ↔
      ∀ e ∈ rooms, ∀ b ∈ utf8 e.roomCode.str :: textsOfSettings e.settings, (0 : UInt8) ∉ b := by
  rw [List.map_inj_left]
  refine forall₂_congr fun e _ => ?_
  rw [List.forall_mem_cons, ← settings_whole_iff, ← text_eq_iff]
  simp [ListedRoom.ofServer, textOf]

/-- A callback gets all of a message exactly when no text has a zero byte in it and no input or
state is empty. -/
theorem callOf_whole_iff (m : ServerMessage) : callOf m = some (wholeCall m) ↔ Clean m := by
  unfold callOf Clean
  cases m with
  | joined code pid host side settings state =>
    simp only [textsOf, List.forall_mem_cons, List.forall_mem_append, ← text_eq_iff (utf8 code.str),
      ← settings_whole_iff settings, ← state_whole_iff state]
    simp [Message.ofServer, Message.call, wholeCall, ServerMessage.call, textOf, Cpp.Passed]
  | roomList rooms =>
    have hrooms : rooms.map ListedRoom.ofServer = (rooms.map fun e => ListedRoom.mk
        (utf8 e.roomCode.str) e.playerCount.toNat (.whole e.settings)) ↔ _ := rooms_whole_iff rooms
    simp only [textsOf, List.forall_mem_flatMap, ← hrooms]
    simp [Message.ofServer, Message.call, wholeCall, ServerMessage.call, Cpp.Passed,
      Function.comp_def]
  | peerJoined pid hash name =>
    simp only [textsOf, List.forall_mem_cons, ← text_eq_iff (utf8 hash), ← map_textOf_iff name]
    simp [Message.ofServer, Message.call, wholeCall, ServerMessage.call, textOf, Cpp.Passed]
  | peerInput pid data =>
    simp only [textsOf, List.forall_mem_singleton, ← text_eq_iff data]
    by_cases hnil : data = [] <;>
      simp [Message.ofServer, Message.call, wholeCall, ServerMessage.call, Cpp.Passed, bufferOf,
        hnil]
  | stateUpdate data =>
    simp only [textsOf, List.forall_mem_singleton, ← text_eq_iff data]
    by_cases hnil : data = [] <;>
      simp [Message.ofServer, Message.call, wholeCall, ServerMessage.call, Cpp.Passed, bufferOf,
        hnil]
  | moveRejected reason =>
    simp only [textsOf, List.forall_mem_singleton, ← text_eq_iff (utf8 reason)]
    simp [Message.ofServer, Message.call, wholeCall, ServerMessage.call, textOf, Cpp.Passed]
  | roomEvent event =>
    cases event with
    | settingsChanged settings =>
      simp only [textsOf, ← settings_whole_iff settings]
      simp [Message.ofServer, Message.call, wholeCall, ServerMessage.call, Cpp.Passed]
    | _ => simp [Message.ofServer, Message.call, wholeCall, ServerMessage.call, textsOf, Cpp.Passed]
  | error message =>
    simp only [textsOf, List.forall_mem_singleton, ← text_eq_iff (utf8 message)]
    simp [Message.ofServer, Message.call, wholeCall, ServerMessage.call, textOf, Cpp.Passed]
  | peerLeft pid | moveAccepted | pong =>
    simp [Message.ofServer, Message.call, wholeCall, ServerMessage.call, textsOf, Cpp.Passed]

/-- What the server encodes is decoded, whatever the runner does outside of payloads, and its
callback gets all of it exactly when no text is cut short and no input or state is empty. -/
theorem messages_decoded (rt : Runtime) {m : ServerMessage} {payload : Bytes}
    (hencode : m.encode = some payload) (hcustom : ∀ s ∈ m.carried, s.custom = none) :
    ∃ msg, decodeServerMessage rt payload = some msg ∧ (msg.call = some (wholeCall m) ↔ Clean m) :=
  ⟨_, decodeServerMessage_encode rt hencode hcustom, callOf_whole_iff m⟩

theorem rejection_decoded : ∃ msg,
    decodeServerMessage ⟨64, fun _ _ _ => none, fun _ _ => none⟩ [7, 3, 110, 0, 111] = some msg ∧
      (msg.call = some (wholeCall (.moveRejected "n\x00o")) ↔ Clean (.moveRejected "n\x00o")) :=
  messages_decoded _ (by decide +kernel) fun s hs => by cases hs

end Roomie.Gml
