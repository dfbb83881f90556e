import Roomie.Cursors
import Roomie.MessageCodec

/-!
# The callbacks of the clients

Both clients turn a server message into the call of one callback. They differ in how they
represent strings, settings and an absent blob, so these types are parameters of a call.
-/

namespace Roomie
open Bincode Cursors

/-- `ClientCallbacks` of the C++ client and `Handlers` of the C# client name the same events. -/
inductive Callback where
  | onJoined | onRoomList | onPeerJoined | onPeerLeft | onPeerInput | onStateUpdate
  | onMoveAccepted | onMoveRejected | onHostTransferred | onKicked | onBanned
  | onSettingsChanged | onPong | onError
  deriving DecidableEq, Repr

/-- One room of a list, as a client represents it. -/
structure ListedRoom (Str Settings : Type) where
  roomCode : Str
  playerCount : UInt32
  settings : Settings
  deriving DecidableEq

/-- A callback with its arguments. -/
inductive Call (Str Settings State : Type) where
  | joined (roomCode : Str) (peerId hostPeerId : PeerId) (side : UInt8) (settings : Settings)
      (initialState : State)
  | roomList (rooms : List (ListedRoom Str Settings))
  | peerJoined (peerId : PeerId) (clientHash : Str) (displayName : Option Str)
  | peerLeft (peerId : PeerId)
  | peerInput (peerId : PeerId) (data : Blob)
  | stateUpdate (data : Blob)
  | moveAccepted
  | moveRejected (reason : Str)
  | hostTransferred (newHostPeerId : PeerId)
  | kicked
  | banned
  | settingsChanged (settings : Settings)
  | pong
  | error (message : Str)
  deriving DecidableEq

namespace Call
variable {Str Settings State : Type}

def callback : Call Str Settings State → Callback
  | .joined .. => .onJoined
  | .roomList _ => .onRoomList
  | .peerJoined .. => .onPeerJoined
  | .peerLeft _ => .onPeerLeft
  | .peerInput .. => .onPeerInput
  | .stateUpdate _ => .onStateUpdate
  | .moveAccepted => .onMoveAccepted
  | .moveRejected _ => .onMoveRejected
  | .hostTransferred _ => .onHostTransferred
  | .kicked => .onKicked
  | .banned => .onBanned
  | .settingsChanged _ => .onSettingsChanged
  | .pong => .onPong
  | .error _ => .onError

/-- A callback that is not set is not called. -/
def invoke (handlers : Callback → Bool) (call : Call Str Settings State) :
    Option (Call Str Settings State) :=
  if handlers call.callback then some call else none

end Call

/-- The call that tells a client of a message, with the fields in the client's representation. -/
def ServerMessage.call {Str Settings State : Type} (str : String → Str)
    (represent : RoomSettings → Settings) (blob : Option Blob → State) :
    ServerMessage → Call Str Settings State
  | .joined code pid host side settings state =>
    .joined (str code.str) pid host side (represent settings) (blob state)
  | .roomList rooms =>
    .roomList (rooms.map fun e => ⟨str e.roomCode.str, e.playerCount, represent e.settings⟩)
  | .peerJoined pid hash name => .peerJoined pid (str hash) (name.map str)
  | .peerLeft pid => .peerLeft pid
  | .peerInput pid data => .peerInput pid data
  | .stateUpdate state => .stateUpdate state
  | .moveAccepted => .moveAccepted
  | .moveRejected reason => .moveRejected (str reason)
  | .roomEvent (.hostTransferred pid) => .hostTransferred pid
  | .roomEvent .kicked => .kicked
  | .roomEvent .banned => .banned
  | .roomEvent (.settingsChanged settings) => .settingsChanged (represent settings)
  | .pong => .pong
  | .error message => .error (str message)

theorem ServerMessage.tag_lt (m : ServerMessage) : m.tag < 11 := by
  cases m <;> simp [ServerMessage.tag]

/-- The settings that a message carries. -/
def ServerMessage.carried : ServerMessage → List RoomSettings
  | .joined _ _ _ _ settings _ => [settings]
  | .roomList rooms => rooms.map RoomListEntry.settings
  | .roomEvent (.settingsChanged settings) => [settings]
  | _ => []

/-! ## What the server writes -/

/-- Settings without a custom value end in the tag of an absent one. -/
theorem settings_write {s : RoomSettings} (h : s.custom = none) :
    settingsFormat.write s = u32.write s.maxPlayers ++ (u32.write s.minPlayers ++
      (Bincode.bool.write s.isPublic ++ (string.option.write s.password ++
        (Bincode.bool.write s.acceptRequired ++ ([0] ++ []))))) := by
  change _ ++ (_ ++ (_ ++ (_ ++ (_ ++ customFormat.write s.custom)))) = _
  rw [h]
  rfl

theorem listEntry_write (e : RoomListEntry) :
    listEntryFormat.write e = string.write e.roomCode.str ++
      (u32.write e.playerCount ++ (settingsFormat.write e.settings ++ [])) := by
  rw [List.append_nil]
  rfl

theorem listEntry_ne_nil {rooms : List RoomListEntry} :
    ∀ e ∈ rooms, listEntryFormat.write e ≠ [] := by
  intro e _ hnil
  have hlen := congrArg List.length hnil
  change (Bincode.writeVarint e.roomCode.str.utf8ByteSize ++ _ ++ _).length = 0 at hlen
  have hpos := varintSize_pos e.roomCode.str.utf8ByteSize
  simp only [List.length_append, length_writeVarint] at hlen
  omega

/-- A list that fits a frame has a length that fits a varint. -/
theorem list_length_lt {rooms : List RoomListEntry}
    (h : (listEntryFormat.list.write rooms).length ≤ maxFrameLen) :
    rooms.length < 18446744073709551616 := by
  have hle := @length_le_flatMap _ rooms _ listEntry_ne_nil
  change (Bincode.writeVarint rooms.length ++ rooms.flatMap listEntryFormat.write).length ≤
    maxFrameLen at h
  simp only [List.length_append, maxFrameLen] at h
  omega

end Roomie
