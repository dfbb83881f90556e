import Roomie.Frames
import Roomie.MessageCodec

/-!
# What the clients write

The encoders of the C++ and the C# client, kept by hand beside the serde derivation on the
server. Each builds a payload from the arguments of one call. The server decodes every payload
within the limit to the message that the call stands for, although the layouts, the variant
indices and the varint thresholds are written down three times.
-/

namespace Roomie
open Bincode Frames

/-! ## The C++ client -/

namespace Cpp

/-- The loop of `write_varint`: the lowest byte goes out, the value is shifted. -/
def writeLowBytes : ℕ → ℕ → Bytes
  | 0, _ => []
  | i + 1, v => .ofNat v :: writeLowBytes i (v >>> 8)

/-- `write_varint`, of a `uint64_t`. -/
def writeVarint (v : ℕ) : Bytes :=
  if v < 251 then [.ofNat v]
  else if v < 1 <<< 16 then [251, .ofNat v, .ofNat (v >>> 8)]
  else if v < 1 <<< 32 then
    [252, .ofNat v, .ofNat (v >>> 8), .ofNat (v >>> 16), .ofNat (v >>> 24)]
  else 253 :: writeLowBytes 8 v

def writeU8 (v : UInt8) : Bytes := [v]

/-- A `std::string` is a sequence of bytes. -/
def writeStr (s : Bytes) : Bytes := writeVarint s.length ++ s

/-- A null pointer and a pointer to the empty string are written alike. -/
def writeOptStr : Option Bytes → Bytes
  | none => writeU8 0
  | some s => if s.isEmpty then writeU8 0 else writeU8 1 ++ writeStr s

def writeBytes (data : Bytes) : Bytes := writeVarint data.length ++ data

def encodeHello (appKey roomCode clientHash : Bytes)
    (displayName authToken password : Option Bytes) : Bytes :=
  writeVarint 0 ++ (writeStr appKey ++ (writeStr roomCode ++ (writeStr clientHash ++
    (writeOptStr displayName ++ (writeOptStr authToken ++ writeOptStr password)))))

def encodeMove (data : Bytes) : Bytes := writeVarint 1 ++ writeBytes data

def encodeInput (data : Bytes) : Bytes := writeVarint 2 ++ writeBytes data

def encodeRoomControlLeave : Bytes := writeVarint 3 ++ writeVarint 8

def encodeRoomControlSetPublic (isPublic : Bool) : Bytes :=
  writeVarint 3 ++ (writeVarint 2 ++ writeU8 (if isPublic then 1 else 0))

def encodeRequestState : Bytes := writeVarint 4

def encodePing : Bytes := writeVarint 5

def encodeListRooms (appKey : Bytes) : Bytes := writeVarint 6 ++ writeStr appKey

/-- What the public methods can send, with their arguments. -/
inductive Sending where
  | hello (appKey roomCode clientHash : String) (displayName authToken password : Option String)
  | move (data : Blob)
  | input (data : Blob)
  | leave
  | setPublic (isPublic : Bool)
  | requestState
  | ping
  | listRooms (appKey : String)

def Sending.payload : Sending → Bytes
  | .hello appKey roomCode clientHash displayName authToken password =>
    encodeHello (utf8 appKey) (utf8 roomCode) (utf8 clientHash) (displayName.map utf8)
      (authToken.map utf8) (password.map utf8)
  | .move data => encodeMove data
  | .input data => encodeInput data
  | .leave => encodeRoomControlLeave
  | .setPublic isPublic => encodeRoomControlSetPublic isPublic
  | .requestState => encodeRequestState
  | .ping => encodePing
  | .listRooms appKey => encodeListRooms (utf8 appKey)

/-- An empty optional string is none at all. -/
def present : Option String → Option String
  | none => none
  | some s => if s = "" then none else some s

/-- The message a call stands for. -/
def Sending.message : Sending → ClientMessage
  | .hello appKey roomCode clientHash displayName authToken password =>
    .hello ⟨appKey, ⟨RoomCode.normalize roomCode⟩, clientHash, present displayName,
      present authToken, present password⟩
  | .move data => .move data
  | .input data => .input data
  | .leave => .roomControl .leave
  | .setPublic isPublic => .roomControl (.setPublic isPublic)
  | .requestState => .requestState
  | .ping => .ping
  | .listRooms appKey => .listRooms appKey

end Cpp

/-! ## The C# client -/

namespace Csharp

/-- `RoomSettings` of the C# client: a null password is none, and there is no custom value. -/
structure RoomSettings where
  maxPlayers : UInt32
  minPlayers : UInt32
  isPublic : Bool
  password : Option String
  acceptRequired : Bool
  deriving DecidableEq, Repr

/-- `BincodeWriter.WriteVarint`, of a `ulong`. -/
def writeVarint (v : ℕ) : Bytes :=
  if v < 251 then [.ofNat v]
  else if v < 1 <<< 16 then [251, .ofNat v, .ofNat (v >>> 8)]
  else if v < 1 <<< 32 then
    [252, .ofNat v, .ofNat (v >>> 8), .ofNat (v >>> 16), .ofNat (v >>> 24)]
  else 253 :: (List.range 8).map fun i => .ofNat (v >>> (i * 8))

def writeU8 (v : UInt8) : Bytes := [v]

def writeBool (v : Bool) : Bytes := [if v then 1 else 0]

def writeString (s : String) : Bytes := writeVarint (utf8 s).length ++ utf8 s

def writeOptString : Option String → Bytes
  | none => writeU8 0
  | some s => writeU8 1 ++ writeString s

def writeBytes (data : Bytes) : Bytes := writeVarint data.length ++ data

/-- `RoomSettings.Encode`. -/
def RoomSettings.encode (s : RoomSettings) : Bytes :=
  writeVarint s.maxPlayers.toNat ++ (writeVarint s.minPlayers.toNat ++ (writeBool s.isPublic ++
    (writeOptString s.password ++ (writeBool s.acceptRequired ++ writeU8 0))))

def encodeHello (appKey roomCode clientHash : String)
    (displayName authToken password : Option String) : Bytes :=
  writeVarint 0 ++ (writeString appKey ++ (writeString roomCode ++ (writeString clientHash ++
    (writeOptString displayName ++ (writeOptString authToken ++ writeOptString password)))))

def encodeMove (data : Bytes) : Bytes := writeVarint 1 ++ writeBytes data

def encodeInput (data : Bytes) : Bytes := writeVarint 2 ++ writeBytes data

def encodeCreateRoom (settings : RoomSettings) : Bytes :=
  writeVarint 3 ++ (writeVarint 0 ++ settings.encode)

def encodeUpdateSettings (settings : RoomSettings) : Bytes :=
  writeVarint 3 ++ (writeVarint 1 ++ settings.encode)

def encodeSetPublic (isPublic : Bool) : Bytes :=
  writeVarint 3 ++ (writeVarint 2 ++ writeBool isPublic)

/-- The controls that name a peer differ in the number of their variant. -/
def encodePeerControl (control : ℕ) (peerId : UInt32) : Bytes :=
  writeVarint 3 ++ (writeVarint control ++ writeVarint peerId.toNat)

def encodeAcceptPeer (peerId : UInt32) : Bytes := encodePeerControl 3 peerId

def encodeDenyPeer (peerId : UInt32) : Bytes := encodePeerControl 4 peerId

def encodeKick (peerId : UInt32) : Bytes := encodePeerControl 5 peerId

def encodeBan (peerId : UInt32) : Bytes := encodePeerControl 6 peerId

def encodeTransferHost (peerId : UInt32) : Bytes := encodePeerControl 7 peerId

def encodeLeave : Bytes := writeVarint 3 ++ writeVarint 8

def encodeRequestState : Bytes := writeVarint 4

def encodePing : Bytes := writeVarint 5

def encodeListRooms (appKey : String) : Bytes := writeVarint 6 ++ writeString appKey

/-- What the public methods can send, with their arguments. -/
inductive Sending where
  | hello (appKey roomCode clientHash : String) (displayName authToken password : Option String)
  | move (data : Blob)
  | input (data : Blob)
  | createRoom (settings : RoomSettings)
  | updateSettings (settings : RoomSettings)
  | setPublic (isPublic : Bool)
  | acceptPeer (peerId : PeerId)
  | denyPeer (peerId : PeerId)
  | kick (peerId : PeerId)
  | ban (peerId : PeerId)
  | transferHost (peerId : PeerId)
  | leave
  | requestState
  | ping
  | listRooms (appKey : String)

def Sending.payload : Sending → Bytes
  | .hello appKey roomCode clientHash displayName authToken password =>
    encodeHello appKey roomCode clientHash displayName authToken password
  | .move data => encodeMove data
  | .input data => encodeInput data
  | .createRoom settings => encodeCreateRoom settings
  | .updateSettings settings => encodeUpdateSettings settings
  | .setPublic isPublic => encodeSetPublic isPublic
  | .acceptPeer peerId => encodeAcceptPeer peerId
  | .denyPeer peerId => encodeDenyPeer peerId
  | .kick peerId => encodeKick peerId
  | .ban peerId => encodeBan peerId
  | .transferHost peerId => encodeTransferHost peerId
  | .leave => encodeLeave
  | .requestState => encodeRequestState
  | .ping => encodePing
  | .listRooms appKey => encodeListRooms appKey

/-- The settings as the server knows them. -/
def RoomSettings.toServer (s : RoomSettings) : Roomie.RoomSettings :=
  ⟨s.maxPlayers, s.minPlayers, s.isPublic, s.password, s.acceptRequired, none⟩

/-- The message a call stands for. -/
def Sending.message : Sending → ClientMessage
  | .hello appKey roomCode clientHash displayName authToken password =>
    .hello ⟨appKey, ⟨RoomCode.normalize roomCode⟩, clientHash, displayName, authToken, password⟩
  | .move data => .move data
  | .input data => .input data
  | .createRoom settings => .roomControl (.createRoom settings.toServer)
  | .updateSettings settings => .roomControl (.updateSettings settings.toServer)
  | .setPublic isPublic => .roomControl (.setPublic isPublic)
  | .acceptPeer peerId => .roomControl (.acceptPeer peerId)
  | .denyPeer peerId => .roomControl (.denyPeer peerId)
  | .kick peerId => .roomControl (.kick peerId)
  | .ban peerId => .roomControl (.ban peerId)
  | .transferHost peerId => .roomControl (.transferHost peerId)
  | .leave => .roomControl .leave
  | .requestState => .requestState
  | .ping => .ping
  | .listRooms appKey => .listRooms appKey

end Csharp

/-! ## The writers agree with the formats -/

theorem Cpp.writeLowBytes_eq (i v : ℕ) : Cpp.writeLowBytes i v = littleEndian i v := by
  induction i generalizing v with
  | zero => rfl
  | succ i ih => rw [Cpp.writeLowBytes, littleEndian, ih, Nat.shiftRight_eq_div_pow]

@[simp] theorem Cpp.writeVarint_eq (v : ℕ) : Cpp.writeVarint v = Bincode.writeVarint v := by
  unfold Cpp.writeVarint Bincode.writeVarint
  simp [Cpp.writeLowBytes_eq, littleEndian, Nat.shiftRight_eq_div_pow, Nat.div_div_eq_div_mul]

@[simp] theorem Csharp.writeVarint_eq (v : ℕ) : Csharp.writeVarint v = Bincode.writeVarint v := by
  unfold Csharp.writeVarint Bincode.writeVarint
  simp [List.range_succ, littleEndian, Nat.shiftRight_eq_div_pow, Nat.div_div_eq_div_mul]

theorem Cpp.writeStr_utf8 (s : String) : Cpp.writeStr (utf8 s) = string.write s := by
  rw [Cpp.writeStr, Cpp.writeVarint_eq]
  rfl

theorem Cpp.writeBytes_eq (data : Bytes) : Cpp.writeBytes data = blob.write data := by
  rw [Cpp.writeBytes, Cpp.writeVarint_eq]
  rfl

theorem utf8_isEmpty (s : String) : (utf8 s).isEmpty = true ↔ s = "" := by
  rw [List.isEmpty_iff_length_eq_zero, length_utf8, String.utf8ByteSize_eq_zero_iff]

theorem Cpp.writeOptStr_utf8 (s : Option String) :
    Cpp.writeOptStr (s.map utf8) = string.option.write (Cpp.present s) := by
  cases s with
  | none => rfl
  | some s =>
    rw [Option.map_some, Cpp.writeOptStr, Cpp.present, Cpp.writeStr_utf8]
    by_cases hs : s = ""
    · rw [if_pos ((utf8_isEmpty s).mpr hs), if_pos hs]
      rfl
    · rw [if_neg (fun h => hs ((utf8_isEmpty s).mp h)), if_neg hs]
      rfl

theorem Csharp.writeString_eq (s : String) : Csharp.writeString s = string.write s := by
  rw [Csharp.writeString, Csharp.writeVarint_eq]
  rfl

theorem Csharp.writeOptString_eq (s : Option String) :
    Csharp.writeOptString s = string.option.write s := by
  cases s with
  | none => rfl
  | some s => rw [Csharp.writeOptString, Csharp.writeString_eq]; rfl

theorem Csharp.writeBytes_eq (data : Bytes) : Csharp.writeBytes data = blob.write data := by
  rw [Csharp.writeBytes, Csharp.writeVarint_eq]
  rfl

theorem Csharp.RoomSettings.encode_eq (s : Csharp.RoomSettings) :
    s.encode = settingsFormat.write s.toServer := by
  rw [Csharp.RoomSettings.encode, Csharp.writeVarint_eq, Csharp.writeVarint_eq,
    Csharp.writeOptString_eq]
  rfl

/-! ## The server accepts what they write -/

/-- In what is sent the server finds one frame, and this message in it. -/
def Arrives (sent : Option Bytes) (msg : ClientMessage) : Prop :=
  ∃ w payload, sent = some w ∧ head maxFrameLen w = .frame payload [] ∧
    ClientMessage.decode payload = some msg

theorem arrives_frame {payload : Bytes} (h : payload.length ≤ maxFrameLen) (msg : ClientMessage) :
    Arrives (some (frame payload)) msg ↔ ClientMessage.decode payload = some msg := by
  have hhead := head_frame maxFrameLen_lt h []
  rw [List.append_nil] at hhead
  constructor
  · rintro ⟨_, payload', ⟨⟩, hhead', hdecode⟩
    obtain ⟨rfl, -⟩ := Head.frame.inj (hhead.symm.trans hhead')
    exact hdecode
  · exact fun hdecode => ⟨_, payload, rfl, hhead, hdecode⟩

theorem varint_fits {n : ℕ} (h : n ≤ maxFrameLen) : varint.Fits n := by
  change n < 18446744073709551616
  rw [maxFrameLen] at h
  omega

theorem string_accepts {s : String} (h : (string.write s).length ≤ maxFrameLen) :
    string.Accepts (string.write s) s := by
  apply string.accepts_write
  change (writeVarint s.utf8ByteSize ++ utf8 s).length ≤ maxFrameLen at h
  rw [List.length_append, length_utf8] at h
  have hsize : s.utf8ByteSize ≤ maxFrameLen := by omega
  exact ⟨varint_fits hsize, trivial⟩

theorem optString_accepts {s : Option String} (h : (string.option.write s).length ≤ maxFrameLen) :
    string.option.Accepts (string.option.write s) s := by
  cases s with
  | none => exact string.accepts_none
  | some s =>
    apply Format.Accepts.some
    apply string_accepts
    change (1 :: string.write s).length ≤ maxFrameLen at h
    rw [List.length_cons] at h
    omega

theorem blob_accepts {b : Blob} (h : (blob.write b).length ≤ maxFrameLen) :
    blob.Accepts (blob.write b) b := by
  apply blob.accepts_write
  change (writeVarint b.length ++ b).length ≤ maxFrameLen at h
  rw [List.length_append] at h
  exact varint_fits (by omega)

theorem u32_accepts (n : UInt32) : u32.Accepts (writeVarint n.toNat) n := by
  apply u32.accepts_write
  have hlt := n.toNat_lt
  exact ⟨show n.toNat < 18446744073709551616 by omega, trivial⟩

theorem bool_accepts (b : Bool) : Bincode.bool.Accepts [if b then 1 else 0] b :=
  Bincode.bool.accepts_write ⟨trivial, trivial⟩

theorem settings_accepts {s : Csharp.RoomSettings}
    (h : (settingsFormat.write s.toServer).length ≤ maxFrameLen) :
    settingsFormat.Accepts (settingsFormat.write s.toServer) s.toServer := by
  have hpassword : (string.option.write s.password).length ≤ maxFrameLen := by
    change (writeVarint s.maxPlayers.toNat ++ (writeVarint s.minPlayers.toNat ++
      (Bincode.bool.write s.isPublic ++ (string.option.write s.password ++
        (Bincode.bool.write s.acceptRequired ++ [0]))))).length ≤ maxFrameLen at h
    simp only [List.length_append] at h
    omega
  exact ((u32_accepts _).pair <| (u32_accepts _).pair <| (bool_accepts _).pair <|
    (optString_accepts hpassword).pair <| (bool_accepts _).pair fun _ => rfl).iso

theorem roomCode_accepts {s : String} (h : (string.write s).length ≤ maxFrameLen) :
    roomCodeFormat.Accepts (string.write s) ⟨RoomCode.normalize s⟩ :=
  (string_accepts h).conv rfl

/-- The fields of a hello, written with any room code. -/
def helloBytes (appKey roomCode clientHash : String)
    (displayName authToken password : Option String) : Bytes :=
  string.write appKey ++ (string.write roomCode ++ (string.write clientHash ++
    (string.option.write displayName ++ (string.option.write authToken ++
      string.option.write password))))

theorem hello_accepts {appKey roomCode clientHash : String}
    {displayName authToken password : Option String}
    (h : (helloBytes appKey roomCode clientHash displayName authToken password).length ≤
      maxFrameLen) :
    helloFormat.Accepts (helloBytes appKey roomCode clientHash displayName authToken password)
      ⟨appKey, ⟨RoomCode.normalize roomCode⟩, clientHash, displayName, authToken, password⟩ := by
  simp only [helloBytes, List.length_append] at h
  have happ := string_accepts (s := appKey) (by omega)
  have hcode := roomCode_accepts (s := roomCode) (by omega)
  have hhash := string_accepts (s := clientHash) (by omega)
  have hname := optString_accepts (s := displayName) (by omega)
  have htoken := optString_accepts (s := authToken) (by omega)
  have hpassword := optString_accepts (s := password) (by omega)
  exact (happ.pair <| hcode.pair <| hhash.pair <| hname.pair <| htoken.pair hpassword).iso

/-- A control goes behind the tag of `RoomControl`. -/
theorem control_accepts {w : Bytes} {rc : RoomControl} (h : roomControlFormat.Accepts w rc) :
    clientMessageFormat.Accepts (writeVarint 3 ++ w) (.roomControl rc) :=
  h.variant.choice rfl

/-- A call of either client. -/
inductive ClientCall where
  | cpp (s : Cpp.Sending)
  | csharp (s : Csharp.Sending)

def ClientCall.payload : ClientCall → Bytes
  | .cpp s => s.payload
  | .csharp s => s.payload

def ClientCall.message : ClientCall → ClientMessage
  | .cpp s => s.message
  | .csharp s => s.message

theorem Cpp.accepts (s : Cpp.Sending) (h : s.payload.length ≤ maxFrameLen) :
    clientMessageFormat.Accepts s.payload s.message := by
  cases s with
  | hello appKey roomCode clientHash displayName authToken password =>
    have hpayload : (Cpp.Sending.hello appKey roomCode clientHash displayName authToken
        password).payload = writeVarint 0 ++ helloBytes appKey roomCode clientHash
          (present displayName) (present authToken) (present password) := by
      simp only [Cpp.Sending.payload, Cpp.encodeHello, Cpp.writeVarint_eq, Cpp.writeStr_utf8,
        Cpp.writeOptStr_utf8, helloBytes]
    rw [hpayload, List.length_append] at h
    rw [hpayload]
    exact (hello_accepts (by omega)).variant.choice rfl
  | move data =>
    simp only [Cpp.Sending.payload, Cpp.encodeMove, Cpp.writeVarint_eq, Cpp.writeBytes_eq,
      List.length_append] at h ⊢
    exact (blob_accepts (by omega)).variant.choice rfl
  | input data =>
    simp only [Cpp.Sending.payload, Cpp.encodeInput, Cpp.writeVarint_eq, Cpp.writeBytes_eq,
      List.length_append] at h ⊢
    exact (blob_accepts (by omega)).variant.choice rfl
  | leave => exact fun _ => rfl
  | setPublic isPublic => exact control_accepts ((bool_accepts isPublic).variant.choice rfl)
  | requestState => exact fun _ => rfl
  | ping => exact fun _ => rfl
  | listRooms appKey =>
    simp only [Cpp.Sending.payload, Cpp.encodeListRooms, Cpp.writeVarint_eq, Cpp.writeStr_utf8,
      List.length_append] at h ⊢
    exact (string_accepts (by omega)).variant.choice rfl

theorem Csharp.peerControl_accepts {control : ℕ} {peerId : PeerId} {rc : RoomControl}
    (h : roomControlFormat.Accepts (Bincode.writeVarint control ++
      Bincode.writeVarint peerId.toNat) rc) :
    clientMessageFormat.Accepts (Csharp.encodePeerControl control peerId) (.roomControl rc) := by
  simp only [Csharp.encodePeerControl, Csharp.writeVarint_eq]
  exact control_accepts h

theorem Csharp.accepts (s : Csharp.Sending) (h : s.payload.length ≤ maxFrameLen) :
    clientMessageFormat.Accepts s.payload s.message := by
  cases s with
  | hello appKey roomCode clientHash displayName authToken password =>
    have hpayload : (Csharp.Sending.hello appKey roomCode clientHash displayName authToken
        password).payload = writeVarint 0 ++ helloBytes appKey roomCode clientHash displayName
          authToken password := by
      simp only [Csharp.Sending.payload, Csharp.encodeHello, Csharp.writeVarint_eq,
        Csharp.writeString_eq, Csharp.writeOptString_eq, helloBytes]
    rw [hpayload, List.length_append] at h
    rw [hpayload]
    exact (hello_accepts (by omega)).variant.choice rfl
  | move data =>
    simp only [Csharp.Sending.payload, Csharp.encodeMove, Csharp.writeVarint_eq,
      Csharp.writeBytes_eq, List.length_append] at h ⊢
    exact (blob_accepts (by omega)).variant.choice rfl
  | input data =>
    simp only [Csharp.Sending.payload, Csharp.encodeInput, Csharp.writeVarint_eq,
      Csharp.writeBytes_eq, List.length_append] at h ⊢
    exact (blob_accepts (by omega)).variant.choice rfl
  | createRoom settings =>
    simp only [Csharp.Sending.payload, Csharp.encodeCreateRoom, Csharp.writeVarint_eq,
      Csharp.RoomSettings.encode_eq, List.length_append] at h ⊢
    exact control_accepts ((settings_accepts (by omega)).variant.choice rfl)
  | updateSettings settings =>
    simp only [Csharp.Sending.payload, Csharp.encodeUpdateSettings, Csharp.writeVarint_eq,
      Csharp.RoomSettings.encode_eq, List.length_append] at h ⊢
    exact control_accepts ((settings_accepts (by omega)).variant.choice rfl)
  | setPublic isPublic => exact control_accepts ((bool_accepts isPublic).variant.choice rfl)
  | acceptPeer peerId => exact peerControl_accepts ((u32_accepts peerId).variant.choice rfl)
  | denyPeer peerId => exact peerControl_accepts ((u32_accepts peerId).variant.choice rfl)
  | kick peerId => exact peerControl_accepts ((u32_accepts peerId).variant.choice rfl)
  | ban peerId => exact peerControl_accepts ((u32_accepts peerId).variant.choice rfl)
  | transferHost peerId => exact peerControl_accepts ((u32_accepts peerId).variant.choice rfl)
  | leave => exact fun _ => rfl
  | requestState => exact fun _ => rfl
  | ping => exact fun _ => rfl
  | listRooms appKey =>
    simp only [Csharp.Sending.payload, Csharp.encodeListRooms, Csharp.writeVarint_eq,
      Csharp.writeString_eq, List.length_append] at h ⊢
    exact (string_accepts (by omega)).variant.choice rfl

theorem ClientCall.accepts (call : ClientCall) (h : call.payload.length ≤ maxFrameLen) :
    clientMessageFormat.Accepts call.payload call.message := by
  cases call with
  | cpp s => exact Cpp.accepts s h
  | csharp s => exact Csharp.accepts s h

/-- Whatever the clients send within the limit, the server decodes to the message meant, and
nothing is left over. -/
theorem encoders_match (call : ClientCall) (h : call.payload.length ≤ maxFrameLen) :
    clientMessageFormat.read call.payload = some (call.message, []) ∧
      ClientMessage.decode call.payload = some call.message :=
  ⟨(call.accepts h).whole, decode_whole (call.accepts h) h⟩

/-- A host of the C# client shuts out the peer 300, whose id takes three bytes. -/
theorem kick_decoded :
    ClientMessage.decode [3, 5, 251, 44, 1] = some (.roomControl (.kick 300)) :=
  (encoders_match (.csharp (.kick 300)) (by decide)).2

end Roomie
