import Roomie.ClientDecoders
import Roomie.CursorGrammars
import Roomie.GmlVarints

/-!
# The decoder of the GameMaker client

`roomie_decode_server_message` and the readers under it. A blob or a string that goes past the end of
the payload is read as nothing at all, and a string ends with its first zero byte. Numbers and bytes
past the end are left to the runner.
-/

namespace Roomie.Gml
open Bincode Cursors

/-- `buffer_read(temp, buffer_text)`: a string ends with the first zero. -/
def text (b : Bytes) : Bytes := b.takeWhile (· ≠ 0)

/-- The struct of `_roomie_read_room_settings`. -/
structure RoomSettings where
  maxPlayers : ℕ
  minPlayers : ℕ
  isPublic : Bool
  password : Option Bytes
  acceptRequired : Bool
  deriving DecidableEq

/-- One entry of a room list. -/
structure ListedRoom where
  roomCode : Bytes
  playerCount : ℕ
  settings : RoomSettings
  deriving DecidableEq

/-- The struct of `roomie_decode_server_message`. -/
inductive Message where
  | joined (roomCode : Bytes) (peerId hostPeerId side : ℕ) (settings : RoomSettings)
      (initialState : Option Bytes)
  | roomList (rooms : List ListedRoom)
  | peerJoined (peerId : ℕ) (clientHash : Bytes) (displayName : Option Bytes)
  | peerLeft (peerId : ℕ)
  | peerInput (peerId : ℕ) (blob : Option Bytes)
  | stateUpdate (blob : Option Bytes)
  | moveAccepted
  | moveRejected (reason : Bytes)
  | hostTransferred (newHostPeerId : ℕ)
  | settingsChanged (settings : RoomSettings)
  | roomEvent (eventTag : ℕ)
  | pong
  | error (message : Bytes)
  | unknown (tag : ℕ)
  deriving DecidableEq

section
variable (rt : Runtime)

/-- So many bytes, or nothing when there are none or too few are left. -/
def readLength (len : ℕ) : Reader (Option Bytes) := fun data pos =>
  if len = 0 ∨ data.length < pos + len then some (none, pos)
  else some (some (Cursor.slice data pos len), pos + len)

/-- `_roomie_read_bytes`. -/
def readBytes : Reader (Option Bytes) := varintRead rt >>= readLength

/-- `_roomie_read_str`. -/
def readStr : Reader Bytes := (fun b => text (b.getD [])) <$> (varintRead rt >>= readLength)

/-- `_roomie_read_opt_str`. -/
def readOptStr : Reader (Option Bytes) := do
  if (← bufferRead rt 1) = 0 then pure none else some <$> readStr rt

/-- `_roomie_read_opt_bytes`. -/
def readOptBytes : Reader (Option Bytes) := do
  if (← bufferRead rt 1) = 0 then pure none else readBytes rt

/-- `buffer_seek(buff, buffer_seek_relative, n)`. -/
def seekRelative (n : ℕ) : Reader Unit := fun data pos =>
  if pos + n ≤ data.length then some ((), pos + n)
  else (rt.seekOutside data (pos + n)).map fun p => ((), p)

/-- `_roomie_skip_bincode_json_value`, with room for so many nested calls on the stack. -/
def skipBincodeJsonValue : ℕ → Reader Unit
  | 0 => fun _ _ => none
  | depth + 1 => do
    match ← varintRead rt with
    | 0 => pure ()
    | 1 => discard (bufferRead rt 1)
    | 2 => seekRelative rt 8
    | 3 => varintRead rt >>= seekRelative rt
    | 4 => discard ((skipBincodeJsonValue depth).collect (← varintRead rt))
    | 5 =>
      let entry := do
        discard (readStr rt)
        skipBincodeJsonValue depth
      discard (entry.collect (← varintRead rt))
    | _ => pure ()

/-- `_roomie_read_room_settings`. -/
def readRoomSettings : Reader RoomSettings := do
  let maxPlayers ← varintRead rt
  let minPlayers ← varintRead rt
  let isPublic ← bufferRead rt 1
  let password ← readOptStr rt
  let acceptRequired ← bufferRead rt 1
  let hasCustom ← bufferRead rt 1
  if hasCustom ≠ 0 then skipBincodeJsonValue rt rt.stack
  pure ⟨maxPlayers, minPlayers, isPublic ≠ 0, password, acceptRequired ≠ 0⟩

def readListedRoom : Reader ListedRoom := do
  let roomCode ← readStr rt
  let playerCount ← varintRead rt
  let settings ← readRoomSettings rt
  pure ⟨roomCode, playerCount, settings⟩

/-- The cases of `RoomEvent`. -/
def readEvent : ℕ → Reader Message
  | 0 => .hostTransferred <$> varintRead rt
  | 3 => .settingsChanged <$> readRoomSettings rt
  | eventTag => pure (.roomEvent eventTag)

/-- The switch over the tag. -/
def readMessage : ℕ → Reader Message
  | 0 => do
    let roomCode ← readStr rt
    let peerId ← varintRead rt
    let hostPeerId ← varintRead rt
    let side ← bufferRead rt 1
    let settings ← readRoomSettings rt
    let initialState ← readOptBytes rt
    pure (.joined roomCode peerId hostPeerId side settings initialState)
  | 1 => .roomList <$> (varintRead rt >>= (readListedRoom rt).collect)
  | 2 => do
    let peerId ← varintRead rt
    let clientHash ← readStr rt
    let displayName ← readOptStr rt
    pure (.peerJoined peerId clientHash displayName)
  | 3 => .peerLeft <$> varintRead rt
  | 4 => do
    let peerId ← varintRead rt
    let blob ← readBytes rt
    pure (.peerInput peerId blob)
  | 5 => .stateUpdate <$> readBytes rt
  | 6 => pure .moveAccepted
  | 7 => .moveRejected <$> readStr rt
  | 8 => varintRead rt >>= readEvent rt
  | 9 => pure .pong
  | 10 => .error <$> readStr rt
  | tag => pure (.unknown tag)

/-- `roomie_decode_server_message`, of a payload; nothing if the runner reports an error. -/
def decodeServerMessage (payload : Bytes) : Option Message :=
  ((varintRead rt >>= readMessage rt) payload 0).map Prod.fst

end

/-! ## Hosts that a message names -/

/-- What a message says of the host of the room. -/
inductive Naming where
  | joined (host : ℕ)
  | transferred (host : ℕ)
  | silent
  deriving DecidableEq

def Message.naming : Message → Naming
  | .joined _ _ host _ _ _ => .joined host
  | .hostTransferred host => .transferred host
  | _ => .silent

end Roomie.Gml

/-- The same of a message as the server means it. -/
def Roomie.ServerMessage.naming : ServerMessage → Gml.Naming
  | .joined _ _ host _ _ _ => .joined host.toNat
  | .roomEvent (.hostTransferred host) => .transferred host.toNat
  | _ => .silent

namespace Roomie.Gml
open Bincode Cursors

section
variable {rt : Runtime} {L : ℕ}

theorem readLength_reads (b : Bytes) :
    Reads L (readLength b.length) (if b = [] then none else some b) b := by
  intro pre post _
  by_cases hb : b = []
  · subst hb
    rfl
  · have hthere : ¬ (b.length = 0 ∨ (pre ++ (b ++ post)).length < pre.length + b.length) := by
      rintro (hnil | hlong)
      · exact hb (List.length_eq_zero_iff.mp hnil)
      · simp only [List.length_append] at hlong
        omega
    rw [readLength, if_neg hthere, if_neg hb, Cursor.slice_at]
    rfl

variable (rt) in
theorem readStr_reads (s : String) :
    Reads maxFrameLen (readStr rt) (text (utf8 s)) (string.write s) := by
  apply Reads.within
  intro hL
  have hwrite : string.write s = writeVarint (utf8 s).length ++ utf8 s := rfl
  have hlen : (utf8 s).length < 4294967296 := by
    rw [hwrite, List.length_append, maxFrameLen] at hL
    omega
  have hread := ((varintRead_reads (L := maxFrameLen) rt hlen).bind
    (readLength_reads (utf8 s))).map fun b => text (b.getD [])
  refine hread.congr ?_ rfl
  split_ifs with hnil
  · rw [hnil]
    rfl
  · rfl

variable (rt) in
theorem varintRead_u32 (n : UInt32) : Reads L (varintRead rt) n.toNat (u32.write n) :=
  varintRead_reads rt n.toNat_lt

/-- Behind the host of a `Joined` nothing is read that changes it. -/
theorem naming_joined {roomCode : Bytes} {peerId host : ℕ} {data : Bytes} {pos : ℕ} {msg : Message}
    {p : ℕ} (h : (do
      let side ← bufferRead rt 1
      let settings ← readRoomSettings rt
      let initialState ← readOptBytes rt
      pure (Message.joined roomCode peerId host side settings initialState) : Reader Message)
        data pos = some (msg, p)) : msg.naming = .joined host := by
  obtain ⟨side, p₁, -, h⟩ := of_bind_eq_some h
  obtain ⟨settings, p₂, -, h⟩ := of_bind_eq_some h
  obtain ⟨initialState, p₃, -, h⟩ := of_bind_eq_some h
  cases h
  rfl

/-- What is made of what was read names nobody. -/
theorem naming_map {α : Type} {r : Reader α} {f : α → Message} (hf : ∀ a, (f a).naming = .silent)
    {data : Bytes} {pos : ℕ} {msg : Message} {p : ℕ} (h : (f <$> r) data pos = some (msg, p)) :
    msg.naming = .silent := by
  rw [Cursor.map_eq_bind] at h
  obtain ⟨a, q, -, h⟩ := of_bind_eq_some h
  cases h
  exact hf a

/-- Only a `Joined` and a `RoomEvent` name a host. -/
theorem naming_readMessage {tag : ℕ} (h₀ : tag ≠ 0) (h₈ : tag ≠ 8) {data : Bytes} {pos : ℕ}
    {msg : Message} {p : ℕ} (h : readMessage rt tag data pos = some (msg, p)) :
    msg.naming = .silent := by
  unfold readMessage at h
  split at h
  · exact absurd rfl h₀
  · exact naming_map (fun _ => rfl) h
  · obtain ⟨peerId, p₁, -, h⟩ := of_bind_eq_some h
    obtain ⟨clientHash, p₂, -, h⟩ := of_bind_eq_some h
    obtain ⟨displayName, p₃, -, h⟩ := of_bind_eq_some h
    cases h
    rfl
  · exact naming_map (fun _ => rfl) h
  · obtain ⟨peerId, p₁, -, h⟩ := of_bind_eq_some h
    obtain ⟨blob, p₂, -, h⟩ := of_bind_eq_some h
    cases h
    rfl
  · exact naming_map (fun _ => rfl) h
  · cases h
    rfl
  · exact naming_map (fun _ => rfl) h
  · exact absurd rfl h₈
  · cases h
    rfl
  · exact naming_map (fun _ => rfl) h
  · cases h
    rfl

theorem naming_readEvent {tag : ℕ} (h₀ : tag ≠ 0) {data : Bytes} {pos : ℕ} {msg : Message} {p : ℕ}
    (h : readEvent rt tag data pos = some (msg, p)) : msg.naming = .silent := by
  unfold readEvent at h
  split at h
  · exact absurd rfl h₀
  · exact naming_map (fun _ => rfl) h
  · cases h
    rfl

theorem naming_decode_joined {code : RoomCode} {pid host : PeerId} {side : UInt8}
    {settings : Roomie.RoomSettings} {state : Option Blob} {msg : Message} {p : ℕ}
    (hL : (serverMessageFormat.write (.joined code pid host side settings state)).length ≤ maxFrameLen)
    (h : (varintRead rt >>= readMessage rt)
      (serverMessageFormat.write (.joined code pid host side settings state)) 0 = some (msg, p)) :
    msg.naming = .joined host.toNat := by
  have hwrite : serverMessageFormat.write (.joined code pid host side settings state) =
      [] ++ (writeVarint 0 ++ (string.write code.str ++ (u32.write pid ++ (u32.write host ++
        ([side] ++ (settingsFormat.write settings ++ blob.option.write state)))))) := rfl
  rw [hwrite] at hL h
  change (varintRead rt >>= readMessage rt) _ ([] : Bytes).length = _ at h
  rw [(varintRead_reads rt (n := 0) (by decide)).next hL] at h
  change (readStr rt >>= _) _ _ = _ at h
  rw [(readStr_reads rt code.str).next (by simpa using hL)] at h
  rw [(varintRead_u32 rt pid (L := maxFrameLen)).next (by simpa using hL)] at h
  rw [(varintRead_u32 rt host (L := maxFrameLen)).next (by simpa using hL)] at h
  exact naming_joined h

/-- Where a payload comes from the server and is decoded, the host is the one that the server
names. -/
theorem naming_decode {m : ServerMessage} {payload : Bytes} {msg : Message}
    (hencode : m.encode = some payload) (h : decodeServerMessage rt payload = some msg) :
    msg.naming = m.naming := by
  obtain ⟨rfl, hL⟩ := m.encode_eq hencode
  obtain ⟨⟨msg', p⟩, hread, hmsg⟩ := Option.map_eq_some_iff.mp h
  obtain rfl : msg' = msg := hmsg
  have htag : ∀ w, serverMessageFormat.write m = [] ++ (writeVarint m.tag ++ w) →
      readMessage rt m.tag ([] ++ writeVarint m.tag ++ w) ([] ++ writeVarint m.tag).length =
        some (msg', p) := by
    intro w hw
    have hlt := m.tag_lt
    rw [hw] at hL hread
    exact ((varintRead_reads rt (by omega)).next hL).symm.trans hread
  cases m with
  | joined code pid host side settings state => exact naming_decode_joined hL hread
  | roomEvent event =>
    have hevent : ∀ w, roomEventFormat.write event = writeVarint event.tag ++ w →
        readEvent rt event.tag ([] ++ writeVarint 8 ++ writeVarint event.tag ++ w)
          ([] ++ writeVarint 8 ++ writeVarint event.tag).length = some (msg', p) := by
      intro w hw
      have hmessage := htag (writeVarint event.tag ++ w) (by rw [← hw]; rfl)
      have hlt : event.tag < 4294967296 := by cases event <;> simp [RoomEvent.tag]
      exact ((varintRead_reads rt hlt).next le_rfl).symm.trans hmessage
    cases event with
    | hostTransferred host =>
      have hhost := hevent (u32.write host ++ []) (by
        rw [List.append_nil]
        rfl)
      change (Message.hostTransferred <$> varintRead rt) _ _ = _ at hhost
      rw [Cursor.map_eq_bind, (varintRead_u32 rt host).next le_rfl] at hhost
      cases hhost
      rfl
    | _ => exact naming_readEvent (by simp [RoomEvent.tag]) (hevent _ rfl)
  | _ =>
    exact naming_readMessage (by simp [ServerMessage.tag]) (by simp [ServerMessage.tag])
      (htag _ rfl)

end

end Roomie.Gml
