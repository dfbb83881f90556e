import Roomie.ClientCallbacks
import Roomie.FrameLimits

/-!
# What comes back of the server's own messages

Both message types are written and read by the server's own code. A room code comes back as its
letters and digits and everything else as it was, except for custom settings: they are written
without their type, which only a format that describes itself can do.
-/

namespace Roomie
open Bincode

/-- `ProtocolMessage::encode` of a client message. -/
def ClientMessage.encode (m : ClientMessage) : Option Bytes :=
  if (clientMessageFormat.write m).length ≤ maxFrameLen then some (clientMessageFormat.write m)
  else none

/-- `ProtocolMessage::decode` of a server message. -/
def ServerMessage.decode (payload : Bytes) : Option ServerMessage :=
  match serverMessageFormat.read payload with
  | some (m, rest) => if payload.length - rest.length ≤ maxFrameLen then some m else none
  | none => none

/-- The code, reduced to its ASCII letters and digits. -/
def RoomCode.normalized (code : RoomCode) : RoomCode := ⟨RoomCode.normalize code.str⟩

def Hello.normalized (h : Hello) : Hello := { h with roomCode := h.roomCode.normalized }

def RoomListEntry.normalized (e : RoomListEntry) : RoomListEntry :=
  { e with roomCode := e.roomCode.normalized }

def ClientMessage.normalized : ClientMessage → ClientMessage
  | .hello h => .hello h.normalized
  | m => m

def ServerMessage.normalized : ServerMessage → ServerMessage
  | .joined code pid host side settings state => .joined code.normalized pid host side settings state
  | .roomList rooms => .roomList (rooms.map RoomListEntry.normalized)
  | m => m

/-- The settings that a command carries. -/
def RoomControl.carried : RoomControl → List RoomSettings
  | .createRoom settings | .updateSettings settings => [settings]
  | _ => []

def ClientMessage.carried : ClientMessage → List RoomSettings
  | .roomControl rc => rc.carried
  | _ => []

namespace RoundTrips

/-! ## The records -/

theorem limit : maxFrameLen < 18446744073709551616 := by decide

theorem custom_returns : customFormat.Returns maxFrameLen (fun c => c = none) id :=
  Format.returns_of_fits fun _ _ h => h

theorem roomCode_returns :
    roomCodeFormat.Returns maxFrameLen (fun _ => True) RoomCode.normalized :=
  (string_returns limit).conv (fun _ h => h) fun _ => rfl

theorem settings_returns : settingsFormat.Returns maxFrameLen (fun s => s.custom = none) id :=
  (u32_returns.pair <| u32_returns.pair <| bool_returns.pair <|
    (string_returns limit).option.pair <| bool_returns.pair custom_returns).iso
      (fun _ h => ⟨trivial, trivial, trivial, trivial, trivial, h⟩) fun _ => rfl

theorem hello_returns : helloFormat.Returns maxFrameLen (fun _ => True) Hello.normalized :=
  ((string_returns limit).pair <| roomCode_returns.pair <| (string_returns limit).pair <|
    (string_returns limit).option.pair <| (string_returns limit).option.pair
      (string_returns limit).option).iso
        (fun _ _ => ⟨trivial, trivial, trivial, trivial, trivial, trivial⟩) fun _ => rfl

theorem listEntry_returns :
    listEntryFormat.Returns maxFrameLen (fun e => e.settings.custom = none)
      RoomListEntry.normalized :=
  (roomCode_returns.pair <| u32_returns.pair settings_returns).iso
    (fun _ h => ⟨trivial, trivial, h⟩) fun _ => rfl

/-! ## The messages -/

theorem control_returns :
    roomControlFormat.Returns maxFrameLen (fun rc => ∀ s ∈ rc.carried, s.custom = none) id := by
  intro rc hlen hcustom
  cases rc with
  | createRoom s =>
    have hs : s.custom = none := hcustom s (by simp [RoomControl.carried])
    exact settings_returns.chosen rfl rfl rfl hlen hs
  | updateSettings s =>
    have hs : s.custom = none := hcustom s (by simp [RoomControl.carried])
    exact settings_returns.chosen rfl rfl rfl hlen hs
  | setPublic isPublic => exact bool_returns.chosen rfl rfl rfl hlen trivial
  | acceptPeer pid => exact u32_returns.chosen rfl rfl rfl hlen trivial
  | denyPeer pid => exact u32_returns.chosen rfl rfl rfl hlen trivial
  | kick pid => exact u32_returns.chosen rfl rfl rfl hlen trivial
  | ban pid => exact u32_returns.chosen rfl rfl rfl hlen trivial
  | transferHost pid => exact u32_returns.chosen rfl rfl rfl hlen trivial
  | leave => exact unit_returns.chosen rfl rfl rfl hlen trivial

theorem client_returns : clientMessageFormat.Returns maxFrameLen
    (fun m => ∀ s ∈ m.carried, s.custom = none) ClientMessage.normalized := by
  intro m hlen hcustom
  cases m with
  | hello h => exact hello_returns.chosen rfl rfl rfl hlen trivial
  | move data => exact (blob_returns limit).chosen rfl rfl rfl hlen trivial
  | input data => exact (blob_returns limit).chosen rfl rfl rfl hlen trivial
  | roomControl rc => exact control_returns.chosen rfl rfl rfl hlen hcustom
  | requestState => exact unit_returns.chosen rfl rfl rfl hlen trivial
  | ping => exact unit_returns.chosen rfl rfl rfl hlen trivial
  | listRooms appKey => exact (string_returns limit).chosen rfl rfl rfl hlen trivial

theorem event_returns : roomEventFormat.Returns maxFrameLen
    (fun event => ∀ s ∈ (ServerMessage.roomEvent event).carried, s.custom = none) id := by
  intro event hlen hcustom
  cases event with
  | hostTransferred pid => exact u32_returns.chosen rfl rfl rfl hlen trivial
  | kicked => exact unit_returns.chosen rfl rfl rfl hlen trivial
  | banned => exact unit_returns.chosen rfl rfl rfl hlen trivial
  | settingsChanged s =>
    exact settings_returns.chosen rfl rfl rfl hlen (hcustom s (by simp [ServerMessage.carried]))

theorem joined_returns : joinedFormat.Returns maxFrameLen (fun x => x.2.2.2.2.1.custom = none)
    (Prod.map RoomCode.normalized id) :=
  fun x hlen h => (roomCode_returns.pair <| u32_returns.pair <| u32_returns.pair <|
    u8_returns.pair <| settings_returns.pair (blob_returns limit).option) x hlen
      ⟨trivial, trivial, trivial, trivial, h, trivial⟩

theorem rooms_return : listEntryFormat.list.Returns maxFrameLen
    (fun rooms => ∀ e ∈ rooms, e.settings.custom = none) (List.map RoomListEntry.normalized) :=
  listEntry_returns.list (fun e => listEntry_ne_nil e (List.mem_singleton_self e)) limit

theorem server_returns : serverMessageFormat.Returns maxFrameLen
    (fun m => ∀ s ∈ m.carried, s.custom = none) ServerMessage.normalized := by
  intro m hlen hcustom
  cases m with
  | joined code pid host side settings state =>
    exact joined_returns.chosen (a := (code, pid, host, side, settings, state)) rfl rfl rfl hlen
      (hcustom settings (by simp [ServerMessage.carried]))
  | roomList rooms =>
    exact rooms_return.chosen rfl rfl rfl hlen fun e he => hcustom _ (List.mem_map_of_mem he)
  | peerJoined pid hash name =>
    exact (u32_returns.pair <| (string_returns limit).pair (string_returns limit).option).chosen
      (a := (pid, hash, name)) rfl rfl rfl hlen ⟨trivial, trivial, trivial⟩
  | peerLeft pid => exact u32_returns.chosen rfl rfl rfl hlen trivial
  | peerInput pid data =>
    exact (u32_returns.pair (blob_returns limit)).chosen (a := (pid, data)) rfl rfl rfl hlen
      ⟨trivial, trivial⟩
  | stateUpdate state => exact (blob_returns limit).chosen rfl rfl rfl hlen trivial
  | moveAccepted => exact unit_returns.chosen rfl rfl rfl hlen trivial
  | moveRejected reason => exact (string_returns limit).chosen rfl rfl rfl hlen trivial
  | roomEvent event => exact event_returns.chosen rfl rfl rfl hlen hcustom
  | pong => exact unit_returns.chosen rfl rfl rfl hlen trivial
  | error message => exact (string_returns limit).chosen rfl rfl rfl hlen trivial

/-! ## What is read has no custom settings -/

theorem control_read {rc : RoomControl} (h : roomControlFormat.Fits rc) :
    ∀ s ∈ rc.carried, s.custom = none := by
  obtain ⟨f, hf, hfits⟩ := h
  cases rc with
  | createRoom settings =>
    obtain rfl := Option.some.inj hf
    obtain ⟨_, ⟨⟩, hset⟩ := hfits
    exact fun s hs => List.mem_singleton.mp hs ▸ hset.1.2.2.2.2.2
  | updateSettings settings =>
    obtain rfl := Option.some.inj hf
    obtain ⟨_, ⟨⟩, hset⟩ := hfits
    exact fun s hs => List.mem_singleton.mp hs ▸ hset.1.2.2.2.2.2
  | _ => exact fun s hs => by cases hs

theorem client_read {m : ClientMessage} (h : clientMessageFormat.Fits m) :
    ∀ s ∈ m.carried, s.custom = none := by
  obtain ⟨f, hf, hfits⟩ := h
  cases m with
  | roomControl rc =>
    obtain rfl := Option.some.inj hf
    obtain ⟨_, ⟨⟩, hrc⟩ := hfits
    exact control_read hrc
  | _ => exact fun s hs => by cases hs

theorem server_read {m : ServerMessage} (h : serverMessageFormat.Fits m) :
    ∀ s ∈ m.carried, s.custom = none := by
  obtain ⟨f, hf, hfits⟩ := h
  cases m with
  | joined code pid host side settings state =>
    obtain rfl := Option.some.inj hf
    obtain ⟨_, ⟨⟩, hfields⟩ := hfits
    exact fun s hs => List.mem_singleton.mp hs ▸ hfields.2.2.2.2.1.1.2.2.2.2.2
  | roomList rooms =>
    obtain rfl := Option.some.inj hf
    obtain ⟨_, ⟨⟩, -, hrooms⟩ := hfits
    intro s hs
    obtain ⟨e, he, rfl⟩ := List.mem_map.mp hs
    exact (hrooms e he).1.2.2.1.2.2.2.2.2
  | roomEvent event =>
    obtain rfl := Option.some.inj hf
    obtain ⟨_, ⟨⟩, g, hg, hevent⟩ := hfits
    cases event with
    | settingsChanged settings =>
      obtain rfl := Option.some.inj hg
      obtain ⟨_, ⟨⟩, hset⟩ := hevent
      exact fun s hs => List.mem_singleton.mp hs ▸ hset.1.2.2.2.2.2
    | _ => exact fun s hs => by cases hs
  | _ => exact fun s hs => by cases hs

/-! ## Round trips -/

/-- A message of either type. -/
inductive WireMessage where
  | client (m : ClientMessage)
  | server (m : ServerMessage)

namespace WireMessage

def encode : WireMessage → Option Bytes
  | .client m => m.encode
  | .server m => m.encode

def carried : WireMessage → List RoomSettings
  | .client m => m.carried
  | .server m => m.carried

/-- The payload is decoded to the message, its room codes normalized, whatever follows it. -/
def ComesBack (payload : Bytes) : WireMessage → Prop
  | .client m => ∀ rest, ClientMessage.decode (payload ++ rest) = some m.normalized
  | .server m => ∀ rest, ServerMessage.decode (payload ++ rest) = some m.normalized

end WireMessage

theorem server_decode {m : ServerMessage} {payload : Bytes}
    (h : serverMessageFormat.Accepts payload m) (hlen : payload.length ≤ maxFrameLen)
    (rest : Bytes) : ServerMessage.decode (payload ++ rest) = some m := by
  rw [ServerMessage.decode, h rest]
  exact if_pos (by simpa using hlen)

theorem server_decode_fits {m : ServerMessage} {payload : Bytes}
    (h : ServerMessage.decode payload = some m) : serverMessageFormat.Fits m := by
  unfold ServerMessage.decode at h
  cases hr : serverMessageFormat.read payload with
  | none => simp [hr] at h
  | some x =>
    obtain ⟨m', rest⟩ := x
    simp only [hr] at h
    split_ifs at h
    obtain rfl := Option.some.inj h
    exact (serverMessageFormat.read_spec payload m' rest hr).1

theorem client_carried_normalized (m : ClientMessage) : m.normalized.carried = m.carried := by
  cases m <;> rfl

theorem server_carried_normalized (m : ServerMessage) : m.normalized.carried = m.carried := by
  cases m with
  | roomList rooms => simp [ServerMessage.normalized, ServerMessage.carried, RoomListEntry.normalized]
  | _ => rfl

/-- What was encoded comes back exactly when it carries no custom settings. -/
theorem comes_back_iff (m : WireMessage) (payload : Bytes) (h : m.encode = some payload) :
    m.ComesBack payload ↔ ∀ s ∈ m.carried, s.custom = none := by
  cases m with
  | client m =>
    simp only [WireMessage.encode, ClientMessage.encode] at h
    split_ifs at h with hlen
    obtain rfl := Option.some.inj h
    constructor
    · intro hback
      rw [WireMessage.carried, ← client_carried_normalized]
      exact client_read (decode_spec (hback [])).1
    · exact fun hcustom => decode_accepted (client_returns m hlen hcustom) hlen
  | server m =>
    simp only [WireMessage.encode, ServerMessage.encode] at h
    split_ifs at h with hlen
    obtain rfl := Option.some.inj h
    constructor
    · intro hback
      rw [WireMessage.carried, ← server_carried_normalized]
      exact server_read (server_decode_fits (hback []))
    · exact fun hcustom => server_decode (server_returns m hlen hcustom) hlen

/-- A hyphen in the code is all that is lost. -/
theorem joined_comes_back :
    (WireMessage.server (.joined ⟨"ab-1"⟩ 1 1 0 .default none)).ComesBack
      [0, 4, 97, 98, 45, 49, 1, 1, 0, 0, 0, 0, 0, 0, 0, 0] :=
  (comes_back_iff (.server (.joined ⟨"ab-1"⟩ 1 1 0 .default none))
    [0, 4, 97, 98, 45, 49, 1, 1, 0, 0, 0, 0, 0, 0, 0, 0] rfl).mpr fun s hs => by
      rw [List.mem_singleton.mp hs]
      rfl

/-- The host sends custom settings, if only `null`. -/
theorem custom_lost : ¬ ∀ (m : WireMessage) payload, m.encode = some payload →
    m.ComesBack payload := by
  intro hall
  have hback := hall (.client (.roomControl (.updateSettings
    { RoomSettings.default with custom := some .null }))) [3, 1, 0, 0, 0, 0, 0, 1] rfl []
  cases hback

end RoundTrips
end Roomie
