import Roomie.HashTables
import Mathlib.Data.UInt

/-!
# Messages between clients and the server

The data types of `protocol::messages` together with the room types they carry.
Strings are measured in UTF-8 bytes, as Rust measures them; a blob is a list of bytes.
A connection and the sending half of its channel go by one number.
-/

namespace Roomie
open HashTables

/-- Server-assigned peer id, a `u32`. -/
abbrev PeerId := UInt32

abbrev ConnId := ℕ

abbrev Blob := List UInt8

/-- `str::len`. -/
abbrev byteLen (s : String) : ℕ := s.utf8ByteSize

/-- `RoomCode(UniCase<String>)`: the spelling is kept. -/
structure RoomCode where
  str : String
  deriving DecidableEq, Repr

/-- Two room codes are the same key when they differ in letter case only. The server's codes
are ASCII, where `UniCase` folds exactly the letters `A` to `Z`. -/
def RoomCode.key (c : RoomCode) : String := .ofList (c.str.toList.map Char.toLower)

/-- Opaque client identity sent in `Hello`. -/
structure ClientHash where
  value : String
  deriving DecidableEq, Repr

/-- `serde_json::Number`; a float is kept by its bits. -/
inductive JsonNumber where
  | posInt (n : UInt64)
  | negInt (n : Int64)
  | float (bits : UInt64)
  deriving DecidableEq, Repr

/-- `serde_json::Value`. -/
inductive Json where
  | null
  | bool (b : Bool)
  | number (n : JsonNumber)
  | string (s : String)
  | array (xs : List Json)
  | object (fields : List (String × Json))
  deriving Repr

structure RoomSettings where
  maxPlayers : UInt32
  minPlayers : UInt32
  isPublic : Bool
  password : Option String
  acceptRequired : Bool
  custom : Option Json
  deriving Repr

/-- `RoomSettings::default()`. -/
def RoomSettings.default : RoomSettings where
  maxPlayers := 0
  minPlayers := 0
  isPublic := false
  password := none
  acceptRequired := false
  custom := none

/-- `settings.password = None`, as done before settings leave the server. -/
def RoomSettings.withoutPassword (s : RoomSettings) : RoomSettings := { s with password := none }

@[simp] theorem RoomSettings.withoutPassword_password (s : RoomSettings) :
    s.withoutPassword.password = none := rfl

/-- Fields of `ClientMessage::Hello`. -/
structure Hello where
  appKey : String
  roomCode : RoomCode
  clientHash : String
  displayName : Option String
  authToken : Option String
  password : Option String
  deriving DecidableEq, Repr

inductive RoomControl where
  | createRoom (settings : RoomSettings)
  | updateSettings (settings : RoomSettings)
  | setPublic (isPublic : Bool)
  | acceptPeer (pid : PeerId)
  | denyPeer (pid : PeerId)
  | kick (pid : PeerId)
  | ban (pid : PeerId)
  | transferHost (pid : PeerId)
  | leave
  deriving Repr

inductive ClientMessage where
  | hello (h : Hello)
  | move (blob : Blob)
  | input (blob : Blob)
  | roomControl (rc : RoomControl)
  | requestState
  | ping
  | listRooms (appKey : String)
  deriving Repr

/-- One entry of the public room list. -/
structure RoomListEntry where
  roomCode : RoomCode
  playerCount : UInt32
  settings : RoomSettings
  deriving Repr

inductive RoomEvent where
  | hostTransferred (pid : PeerId)
  | kicked
  | banned
  | settingsChanged (settings : RoomSettings)
  deriving Repr

inductive ServerMessage where
  | joined (roomCode : RoomCode) (peerId hostPeerId : PeerId) (side : UInt8)
      (settings : RoomSettings) (initialState : Option Blob)
  | roomList (rooms : List RoomListEntry)
  | peerJoined (peerId : PeerId) (clientHash : String) (displayName : Option String)
  | peerLeft (peerId : PeerId)
  | peerInput (peerId : PeerId) (blob : Blob)
  | stateUpdate (state : Blob)
  | moveAccepted
  | moveRejected (reason : String)
  | roomEvent (event : RoomEvent)
  | pong
  | error (message : String)
  deriving Repr

/-- The texts of all errors the server answers with. -/
def errorTexts : List String :=
  ["app_key is required", "app_key too long", "room_code too long", "client_hash is required",
    "client_hash too long", "display_name too long", "auth_token too long", "password too long",
    "authentication required", "unregistered game type", "internal error", "failed to create room",
    "room not found", "banned from this room", "room full", "invalid or missing room password",
    "not in a room", "already in a room", "forbidden or invalid"]

theorem byteLen_errorText : ∀ text ∈ errorTexts, byteLen text ≤ 32 := by decide

end Roomie
