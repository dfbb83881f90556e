import Roomie.Bincode
import Roomie.ProtocolMessages
import Mathlib.Algebra.Order.BigOperators.Group.List

/-!
# The wire format of the messages

`ClientMessage` and `ServerMessage` as serde derives their format for bincode: the fields in
order, variants by their index. Two types are special. A room code is reduced to its ASCII
letters and digits when it is read, and custom settings can be written but not read, since
bincode cannot read a value whose type is not known beforehand.
-/

namespace Roomie
open Bincode

/-- `MAX_FRAME_LEN`. -/
def maxFrameLen : ℕ := 65536

/-- The length of a frame fits its four bytes. -/
theorem maxFrameLen_lt : maxFrameLen < 4294967296 := by decide

/-! ## JSON values, written only -/

/-- Zigzag: a negative `n` is written as `2 * |n| - 1`. -/
def zigzag (n : ℤ) : ℕ := if n < 0 then (2 * -n - 1).toNat else (2 * n).toNat

def JsonNumber.write : JsonNumber → Bytes
  | .posInt n => writeVarint n.toNat
  | .negInt n => writeVarint (zigzag n.toInt)
  | .float bits => littleEndian 8 bits.toNat

mutual

/-- `serde_json::Value`, without any tag for its type. -/
def Json.write : Json → Bytes
  | .null => []
  | .bool b => Bincode.bool.write b
  | .number n => n.write
  | .string s => Bincode.string.write s
  | .array xs => writeVarint xs.length ++ Json.writeAll xs
  | .object fields => writeVarint fields.length ++ Json.writeFields fields

def Json.writeAll : List Json → Bytes
  | [] => []
  | x :: xs => x.write ++ Json.writeAll xs

def Json.writeFields : List (String × Json) → Bytes
  | [] => []
  | (name, x) :: fields => Bincode.string.write name ++ x.write ++ Json.writeFields fields

end

/-- Reading anything but `None` ends in an error. -/
def customFormat : Format (Option Json) where
  write
    | none => [0]
    | some v => 1 :: v.write
  read
    | 0 :: p => some (none, p)
    | _ => none
  Fits c := c = none
  read_write c rest h := by
    subst h
    rfl
  read_spec p c rest h := by
    split at h
    · obtain ⟨rfl, rfl⟩ := Prod.mk.inj (Option.some.inj h)
      exact ⟨rfl, by simp [Nat.add_comm]⟩
    · cases h

/-! ## Records -/

/-- What is kept of a room code; the trimming that goes before removes nothing else. -/
def RoomCode.normalize (s : String) : String := .ofList (s.toList.filter Char.isAlphanum)

theorem utf8ByteSize_ofList (cs : List Char) :
    (String.ofList cs).utf8ByteSize = (cs.map Char.utf8Size).sum := by
  induction cs with
  | nil => rfl
  | cons c cs ih =>
    rw [List.map_cons, List.sum_cons, ← ih, show c :: cs = [c] ++ cs from rfl,
      String.ofList_append, String.utf8ByteSize_append]
    simp

theorem RoomCode.byteLen_normalize (s : String) : byteLen (normalize s) ≤ byteLen s := by
  rw [byteLen, byteLen, normalize, utf8ByteSize_ofList, ← String.ofList_toList (s := s),
    utf8ByteSize_ofList, String.toList_ofList]
  exact (List.filter_sublist.map Char.utf8Size).sum_le_sum fun _ _ => Nat.zero_le _

theorem RoomCode.normalize_normalize (s : String) : normalize (normalize s) = normalize s := by
  simp [normalize]

def roomCodeFormat : Format RoomCode :=
  string.conv (fun s => some ⟨RoomCode.normalize s⟩) RoomCode.str
    (fun c => RoomCode.normalize c.str = c.str) (fun c h => by rw [h]) (by
      rintro s _ ⟨⟩
      have hlen := RoomCode.byteLen_normalize s
      refine ⟨RoomCode.normalize_normalize s, fun h => ?_, ?_⟩
      · exact ⟨lt_of_le_of_lt hlen h.1, trivial⟩
      · change (writeVarint _ ++ utf8 _).length ≤ (writeVarint _ ++ utf8 _).length
        have hv := varintSize_mono hlen
        simp only [List.length_append, length_writeVarint, length_utf8]
        simp only [byteLen] at hlen hv
        omega)

def settingsFormat : Format RoomSettings :=
  (u32.pair <| u32.pair <| bool.pair <| string.option.pair <| bool.pair customFormat).iso
    (fun (maxPlayers, minPlayers, isPublic, password, acceptRequired, custom) =>
      ⟨maxPlayers, minPlayers, isPublic, password, acceptRequired, custom⟩)
    (fun s => (s.maxPlayers, s.minPlayers, s.isPublic, s.password, s.acceptRequired, s.custom))
    (fun _ => rfl) (fun _ => rfl)

def helloFormat : Format Hello :=
  (string.pair <| roomCodeFormat.pair <| string.pair <| string.option.pair <|
    string.option.pair string.option).iso
    (fun (appKey, roomCode, clientHash, displayName, authToken, password) =>
      ⟨appKey, roomCode, clientHash, displayName, authToken, password⟩)
    (fun h => (h.appKey, h.roomCode, h.clientHash, h.displayName, h.authToken, h.password))
    (fun _ => rfl) (fun _ => rfl)

def listEntryFormat : Format RoomListEntry :=
  (roomCodeFormat.pair <| u32.pair settingsFormat).iso
    (fun (roomCode, playerCount, settings) => ⟨roomCode, playerCount, settings⟩)
    (fun e => (e.roomCode, e.playerCount, e.settings)) (fun _ => rfl) (fun _ => rfl)

/-! ## Enumerations -/

def RoomControl.tag : RoomControl → ℕ
  | .createRoom _ => 0
  | .updateSettings _ => 1
  | .setPublic _ => 2
  | .acceptPeer _ => 3
  | .denyPeer _ => 4
  | .kick _ => 5
  | .ban _ => 6
  | .transferHost _ => 7
  | .leave => 8

def roomControlFormat : Format RoomControl :=
  .choice
    [settingsFormat.variant .createRoom (fun | .createRoom s => some s | _ => none)
      (fun _ => rfl) (by rintro ⟨⟩ _ ⟨⟩; rfl),
    settingsFormat.variant .updateSettings (fun | .updateSettings s => some s | _ => none)
      (fun _ => rfl) (by rintro ⟨⟩ _ ⟨⟩; rfl),
    bool.variant .setPublic (fun | .setPublic b => some b | _ => none)
      (fun _ => rfl) (by rintro ⟨⟩ _ ⟨⟩; rfl),
    u32.variant .acceptPeer (fun | .acceptPeer p => some p | _ => none)
      (fun _ => rfl) (by rintro ⟨⟩ _ ⟨⟩; rfl),
    u32.variant .denyPeer (fun | .denyPeer p => some p | _ => none)
      (fun _ => rfl) (by rintro ⟨⟩ _ ⟨⟩; rfl),
    u32.variant .kick (fun | .kick p => some p | _ => none)
      (fun _ => rfl) (by rintro ⟨⟩ _ ⟨⟩; rfl),
    u32.variant .ban (fun | .ban p => some p | _ => none)
      (fun _ => rfl) (by rintro ⟨⟩ _ ⟨⟩; rfl),
    u32.variant .transferHost (fun | .transferHost p => some p | _ => none)
      (fun _ => rfl) (by rintro ⟨⟩ _ ⟨⟩; rfl),
    unit.variant (fun _ => .leave) (fun | .leave => some () | _ => none)
      (fun _ => rfl) (by rintro ⟨⟩ _ ⟨⟩; rfl)]
    RoomControl.tag (by decide) (by
      intro t f hf b hb
      have ht : t < 9 := (List.getElem?_eq_some_iff.mp hf).1
      interval_cases t <;>
      · obtain rfl := Option.some.inj hf
        obtain ⟨_, hget, _⟩ := hb
        cases b <;> first | rfl | cases hget)

def ClientMessage.tag : ClientMessage → ℕ
  | .hello _ => 0
  | .move _ => 1
  | .input _ => 2
  | .roomControl _ => 3
  | .requestState => 4
  | .ping => 5
  | .listRooms _ => 6

def clientMessageFormat : Format ClientMessage :=
  .choice
    [helloFormat.variant .hello (fun | .hello h => some h | _ => none)
      (fun _ => rfl) (by rintro ⟨⟩ _ ⟨⟩; rfl),
    blob.variant .move (fun | .move b => some b | _ => none)
      (fun _ => rfl) (by rintro ⟨⟩ _ ⟨⟩; rfl),
    blob.variant .input (fun | .input b => some b | _ => none)
      (fun _ => rfl) (by rintro ⟨⟩ _ ⟨⟩; rfl),
    roomControlFormat.variant .roomControl (fun | .roomControl rc => some rc | _ => none)
      (fun _ => rfl) (by rintro ⟨⟩ _ ⟨⟩; rfl),
    unit.variant (fun _ => .requestState) (fun | .requestState => some () | _ => none)
      (fun _ => rfl) (by rintro ⟨⟩ _ ⟨⟩; rfl),
    unit.variant (fun _ => .ping) (fun | .ping => some () | _ => none)
      (fun _ => rfl) (by rintro ⟨⟩ _ ⟨⟩; rfl),
    string.variant .listRooms (fun | .listRooms appKey => some appKey | _ => none)
      (fun _ => rfl) (by rintro ⟨⟩ _ ⟨⟩; rfl)]
    ClientMessage.tag (by decide) (by
      intro t f hf b hb
      have ht : t < 7 := (List.getElem?_eq_some_iff.mp hf).1
      interval_cases t <;>
      · obtain rfl := Option.some.inj hf
        obtain ⟨_, hget, _⟩ := hb
        cases b <;> first | rfl | cases hget)

def RoomEvent.tag : RoomEvent → ℕ
  | .hostTransferred _ => 0
  | .kicked => 1
  | .banned => 2
  | .settingsChanged _ => 3

def roomEventFormat : Format RoomEvent :=
  .choice
    [u32.variant .hostTransferred (fun | .hostTransferred p => some p | _ => none)
      (fun _ => rfl) (by rintro ⟨⟩ _ ⟨⟩; rfl),
    unit.variant (fun _ => .kicked) (fun | .kicked => some () | _ => none)
      (fun _ => rfl) (by rintro ⟨⟩ _ ⟨⟩; rfl),
    unit.variant (fun _ => .banned) (fun | .banned => some () | _ => none)
      (fun _ => rfl) (by rintro ⟨⟩ _ ⟨⟩; rfl),
    settingsFormat.variant .settingsChanged (fun | .settingsChanged s => some s | _ => none)
      (fun _ => rfl) (by rintro ⟨⟩ _ ⟨⟩; rfl)]
    RoomEvent.tag (by decide) (by
      intro t f hf b hb
      have ht : t < 4 := (List.getElem?_eq_some_iff.mp hf).1
      interval_cases t <;>
      · obtain rfl := Option.some.inj hf
        obtain ⟨_, hget, _⟩ := hb
        cases b <;> first | rfl | cases hget)

/-- The fields of `Joined`. -/
def joinedFormat : Format (RoomCode × PeerId × PeerId × UInt8 × RoomSettings × Option Blob) :=
  roomCodeFormat.pair <| u32.pair <| u32.pair <| u8.pair <| settingsFormat.pair blob.option

def ServerMessage.tag : ServerMessage → ℕ
  | .joined .. => 0
  | .roomList _ => 1
  | .peerJoined .. => 2
  | .peerLeft _ => 3
  | .peerInput .. => 4
  | .stateUpdate _ => 5
  | .moveAccepted => 6
  | .moveRejected _ => 7
  | .roomEvent _ => 8
  | .pong => 9
  | .error _ => 10

def serverMessageFormat : Format ServerMessage :=
  .choice
    [joinedFormat.variant
      (fun (code, pid, host, side, settings, state) => .joined code pid host side settings state)
      (fun
        | .joined code pid host side settings state => some (code, pid, host, side, settings, state)
        | _ => none)
      (fun _ => rfl) (by rintro ⟨⟩ _ ⟨⟩; rfl),
    listEntryFormat.list.variant .roomList (fun | .roomList rooms => some rooms | _ => none)
      (fun _ => rfl) (by rintro ⟨⟩ _ ⟨⟩; rfl),
    (u32.pair <| string.pair string.option).variant
      (fun (pid, hash, name) => .peerJoined pid hash name)
      (fun | .peerJoined pid hash name => some (pid, hash, name) | _ => none)
      (fun _ => rfl) (by rintro ⟨⟩ _ ⟨⟩; rfl),
    u32.variant .peerLeft (fun | .peerLeft p => some p | _ => none)
      (fun _ => rfl) (by rintro ⟨⟩ _ ⟨⟩; rfl),
    (u32.pair blob).variant (fun (pid, b) => .peerInput pid b)
      (fun | .peerInput pid b => some (pid, b) | _ => none)
      (fun _ => rfl) (by rintro ⟨⟩ _ ⟨⟩; rfl),
    blob.variant .stateUpdate (fun | .stateUpdate b => some b | _ => none)
      (fun _ => rfl) (by rintro ⟨⟩ _ ⟨⟩; rfl),
    unit.variant (fun _ => .moveAccepted) (fun | .moveAccepted => some () | _ => none)
      (fun _ => rfl) (by rintro ⟨⟩ _ ⟨⟩; rfl),
    string.variant .moveRejected (fun | .moveRejected reason => some reason | _ => none)
      (fun _ => rfl) (by rintro ⟨⟩ _ ⟨⟩; rfl),
    roomEventFormat.variant .roomEvent (fun | .roomEvent event => some event | _ => none)
      (fun _ => rfl) (by rintro ⟨⟩ _ ⟨⟩; rfl),
    unit.variant (fun _ => .pong) (fun | .pong => some () | _ => none)
      (fun _ => rfl) (by rintro ⟨⟩ _ ⟨⟩; rfl),
    string.variant .error (fun | .error message => some message | _ => none)
      (fun _ => rfl) (by rintro ⟨⟩ _ ⟨⟩; rfl)]
    ServerMessage.tag (by decide) (by
      intro t f hf b hb
      have ht : t < 11 := (List.getElem?_eq_some_iff.mp hf).1
      interval_cases t <;>
      · obtain rfl := Option.some.inj hf
        obtain ⟨_, hget, _⟩ := hb
        cases b <;> first | rfl | cases hget)

/-! ## Encoding and decoding within the limit -/

/-- `ProtocolMessage::encode`: an error when the encoding exceeds the limit. -/
def ServerMessage.encode (m : ServerMessage) : Option Bytes :=
  if (serverMessageFormat.write m).length ≤ maxFrameLen then some (serverMessageFormat.write m)
  else none

/-- `ProtocolMessage::decode`: trailing bytes are ignored, and no more than the limit is read. All
bytes read count here, while bincode leaves some out of its count; that makes no difference for
payloads within the limit, and neither transport nor encoder lets longer ones through. -/
def ClientMessage.decode (payload : Bytes) : Option ClientMessage :=
  match clientMessageFormat.read payload with
  | some (m, rest) => if payload.length - rest.length ≤ maxFrameLen then some m else none
  | none => none

theorem decode_spec {payload : Bytes} {m : ClientMessage}
    (h : ClientMessage.decode payload = some m) :
    clientMessageFormat.Fits m ∧ (clientMessageFormat.write m).length ≤ maxFrameLen ∧
      (clientMessageFormat.write m).length ≤ payload.length := by
  unfold ClientMessage.decode at h
  cases hr : clientMessageFormat.read payload with
  | none => simp [hr] at h
  | some x =>
    obtain ⟨m', rest⟩ := x
    simp only [hr] at h
    split_ifs at h with hl
    obtain rfl := Option.some.inj h
    obtain ⟨hfits, hlen⟩ := clientMessageFormat.read_spec payload m' rest hr
    exact ⟨hfits, by omega, by omega⟩

theorem decode_accepted {payload : Bytes} {m : ClientMessage}
    (h : clientMessageFormat.Accepts payload m) (hlen : payload.length ≤ maxFrameLen)
    (rest : Bytes) : ClientMessage.decode (payload ++ rest) = some m := by
  rw [ClientMessage.decode, h rest]
  exact if_pos (by simpa using hlen)

theorem decode_whole {payload : Bytes} {m : ClientMessage}
    (h : clientMessageFormat.Accepts payload m) (hlen : payload.length ≤ maxFrameLen) :
    ClientMessage.decode payload = some m := by
  simpa using decode_accepted h hlen []

end Roomie
