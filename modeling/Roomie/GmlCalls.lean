import Roomie.GmlSending

/-!
# The calls of the GameMaker client

The encoders of `roomie_encode.gml` and the functions of the client that send what they encode.
An argument may be of any type: what is no string counts as none, or as the empty one. Each call
on a connected client whose payload is within the limit reaches the server as the message it
stands for, in one frame with nothing left of it, save where a blob is a buffer with a byte in it.
A call on another client, or with a longer payload, sends nothing.
-/

namespace Roomie.Gml
open Bincode Cursors ByteBuffers Frames

/-- What is passed as a string. -/
inductive Arg where
  | string (s : String)
  | undefined
  | other

/-- The string that is written for it. -/
def Arg.str : Arg → String
  | .string s => s
  | .undefined | .other => ""

/-- An argument that is present: a string that is not empty. -/
def Arg.present : Arg → Option String
  | .string s => if s = "" then none else some s
  | .undefined | .other => none

/-- `_roomie_write_str`. -/
def writeStr (s : Arg) (buff : Buffer) : Buffer :=
  let buff := varintWrite (utf8 s.str).length buff
  if 0 < (utf8 s.str).length then buff.write (utf8 s.str) else buff

/-- `_roomie_write_opt_str`. -/
def writeOptStr (s : Arg) (buff : Buffer) : Buffer :=
  match s with
  | .string s => if s = "" then buff.write [0] else writeStr (.string s) (buff.write [1])
  | .undefined | .other => buff.write [0]

def encodeHello (appKey roomCode clientHash displayName authToken password : Arg) : Buffer :=
  let buff := varintWrite 0 (.create 256 .grow)
  let buff := writeStr appKey buff
  let buff := writeStr roomCode buff
  let buff := writeStr clientHash buff
  let buff := writeOptStr displayName buff
  let buff := writeOptStr authToken buff
  writeOptStr password buff

def encodeRoomControlLeave : Buffer := varintWrite 8 (varintWrite 3 (.create 16 .grow))

def encodeRequestState : Buffer := varintWrite 4 (.create 16 .grow)

def encodePing : Buffer := varintWrite 5 (.create 16 .grow)

def encodeListRooms (appKey : Arg) : Buffer := writeStr appKey (varintWrite 6 (.create 64 .grow))

def encodeRoomControlSetPublic (isPublic : Bool) : Buffer :=
  (varintWrite 2 (varintWrite 3 (.create 16 .grow))).write [if isPublic then 1 else 0]

/-- A call of one of the functions that send. -/
inductive Sending where
  | createRoom (appKey clientHash displayName authToken password : Arg)
  | joinRoom (appKey roomCode clientHash displayName authToken password : Arg)
  | sendMove (blob : BlobArg)
  | sendInput (blob : BlobArg)
  | requestState
  | listRooms (appKey : Arg)
  | setRoomPublic (isPublic : Bool)
  | leaveRoom

/-- What the call encodes. -/
def Sending.payload : Sending → Buffer
  | .createRoom appKey clientHash displayName authToken password =>
    encodeHello appKey (.string "") clientHash displayName authToken password
  | .joinRoom appKey roomCode clientHash displayName authToken password =>
    encodeHello appKey roomCode clientHash displayName authToken password
  | .sendMove blob => encodeMove blob
  | .sendInput blob => encodeInput blob
  | .requestState => encodeRequestState
  | .listRooms appKey => encodeListRooms appKey
  | .setRoomPublic isPublic => encodeRoomControlSetPublic isPublic
  | .leaveRoom => encodeRoomControlLeave

/-- The message a call stands for. -/
def Sending.message : Sending → ClientMessage
  | .createRoom appKey clientHash displayName authToken password =>
    .hello ⟨appKey.str, ⟨""⟩, clientHash.str, displayName.present, authToken.present,
      password.present⟩
  | .joinRoom appKey roomCode clientHash displayName authToken password =>
    .hello ⟨appKey.str, ⟨RoomCode.normalize roomCode.str⟩, clientHash.str, displayName.present,
      authToken.present, password.present⟩
  | .sendMove blob => .move blob.bytes
  | .sendInput blob => .input blob.bytes
  | .requestState => .requestState
  | .listRooms appKey => .listRooms appKey.str
  | .setRoomPublic isPublic => .roomControl (.setPublic isPublic)
  | .leaveRoom => .roomControl .leave

/-- A blob that is passed is no buffer with a byte in it, of which only the length would be sent. -/
def Sending.Written : Sending → Prop
  | .sendMove blob | .sendInput blob => blob.Written
  | _ => True

/-- What a call leaves of the client: `roomie_client_leave_room` forgets the room. -/
def Sending.after (c : Client) : Sending → Client
  | .leaveRoom => { c with roomCode := [], peerId := 0, hostPeerId := 0 }
  | _ => c

/-- A call: what is passed to the network, whether the call returns true, and the client after it. -/
def Sending.run (network : Bytes → ℤ) (c : Client) (s : Sending) : (Option Bytes × Bool) × Client :=
  if c.isConnected then (sendFrame network c s.payload, s.after c) else ((none, false), c)

/-- What the call is in a run of the client. -/
def Sending.act : Sending → Act
  | .leaveRoom => .leaveRoom
  | _ => .send

/-- What a call leaves of the client is what it does in a run, whatever the network answers. -/
theorem run_act (network : Bytes → ℤ) (c : Client) (s : Sending) :
    c.act s.act = { (s.run network c).2 with log := (c.act s.act).log } := by
  unfold Sending.run
  cases s with
  | leaveRoom =>
    dsimp only [Sending.act, Client.act, Client.leaveRoom]
    split_ifs <;> rfl
  | _ => split_ifs <;> rfl

/-! ## What is encoded -/

/-- What the server reads for a call. -/
def Sending.bytes : Sending → Bytes
  | .createRoom appKey clientHash displayName authToken password =>
    writeVarint 0 ++ helloBytes appKey.str "" clientHash.str displayName.present authToken.present
      password.present
  | .joinRoom appKey roomCode clientHash displayName authToken password =>
    writeVarint 0 ++ helloBytes appKey.str roomCode.str clientHash.str displayName.present
      authToken.present password.present
  | .sendMove b => writeVarint 1 ++ blob.write b.bytes
  | .sendInput b => writeVarint 2 ++ blob.write b.bytes
  | .requestState => writeVarint 4
  | .listRooms appKey => writeVarint 6 ++ string.write appKey.str
  | .setRoomPublic isPublic => writeVarint 3 ++ (writeVarint 2 ++ [if isPublic then 1 else 0])
  | .leaveRoom => writeVarint 3 ++ writeVarint 8

section
open Buffer

theorem pos_varintWrite (value : ℤ) (b : Buffer) : b.pos ≤ (varintWrite value b).pos := by
  unfold varintWrite
  dsimp only
  split_ifs
  · exact Nat.le_add_right _ _
  · exact (Nat.le_add_right _ _).trans (Nat.le_add_right _ _)
  · exact (Nat.le_add_right _ _).trans (Nat.le_add_right _ _)

theorem varintWrite_writes {n : ℕ} (h : n < 4294967296) :
    Writes maxFrameLen (varintWrite n) (writeVarint n) where
  forward := pos_varintWrite n
  holds _ _ hb _ := varintWrite_holds hb h

/-- What follows a length is not longer than the limit, and so its length is written whole. -/
theorem counted_writes (w : Bytes) : Writes maxFrameLen
    (fun b => (varintWrite w.length b).write w) (writeVarint w.length ++ w) where
  forward b := (pos_varintWrite _ b).trans (Nat.le_add_right _ _)
  holds b v hb hL := by
    have hlt : w.length < 4294967296 := by
      have hmax := maxFrameLen_lt
      rw [write_pos] at hL
      omega
    exact ((varintWrite_writes hlt).andThen (.write maxFrameLen w)).holds b v hb hL

/-- A string that is empty is not written at all, which makes no difference. -/
theorem writeStr_writes (s : Arg) : Writes maxFrameLen (writeStr s) (string.write s.str) where
  forward b := by
    unfold writeStr
    dsimp only
    split_ifs
    · exact (pos_varintWrite _ b).trans (Nat.le_add_right _ _)
    · exact pos_varintWrite _ b
  holds b v hb hL := by
    have hwrite : string.write s.str = writeVarint (utf8 s.str).length ++ utf8 s.str := rfl
    unfold writeStr at hL ⊢
    dsimp only at hL ⊢
    rw [hwrite]
    split_ifs at hL ⊢ with hlen
    · exact (counted_writes (utf8 s.str)).holds b v hb hL
    · have hnil : utf8 s.str = [] := List.length_eq_zero_iff.mp (Nat.eq_zero_of_not_pos hlen)
      rw [hnil, List.append_nil]
      exact varintWrite_holds hb (by decide)

theorem writeOptStr_writes (s : Arg) :
    Writes maxFrameLen (writeOptStr s) (string.option.write s.present) := by
  have hnone : Writes maxFrameLen (fun b => b.write [0]) (string.option.write none) := .write _ [0]
  cases s with
  | string s =>
    by_cases hs : s = ""
    · subst hs
      exact hnone
    · have hwrite : (writeOptStr (.string s) : Buffer → Buffer) =
          fun b => writeStr (.string s) (b.write [1]) := by
        funext b
        exact if_neg hs
      rw [hwrite, Arg.present, if_neg hs]
      exact (Writes.write _ [1]).andThen (writeStr_writes (.string s))
  | undefined => exact hnone
  | other => exact hnone

theorem encodeHello_holds {appKey roomCode clientHash displayName authToken password : Arg}
    (h : (encodeHello appKey roomCode clientHash displayName authToken password).pos ≤ maxFrameLen) :
    (encodeHello appKey roomCode clientHash displayName authToken password).Holds
      (writeVarint 0 ++ helloBytes appKey.str roomCode.str clientHash.str displayName.present
        authToken.present password.present) := by
  have htag : Writes maxFrameLen (varintWrite 0) (writeVarint 0) :=
    varintWrite_writes (n := 0) (by decide)
  have hwrites := htag.andThen <| (writeStr_writes appKey).andThen <|
    (writeStr_writes roomCode).andThen <| (writeStr_writes clientHash).andThen <|
    (writeOptStr_writes displayName).andThen <| (writeOptStr_writes authToken).andThen
      (writeOptStr_writes password)
  exact hwrites.holds_create 256 h

theorem encodeBlob_holds_written {variant : ℕ} (hvariant : variant < 4294967296) {arg : BlobArg}
    (hwritten : arg.Written) (h : (encodeBlob variant arg).pos ≤ maxFrameLen) :
    (encodeBlob variant arg).Holds (writeVarint variant ++ blob.write arg.bytes) := by
  have hsize : arg.bytes.length < 4294967296 := by
    have hmax := maxFrameLen_lt
    cases arg with
    | string s =>
      by_contra hbig
      have hpos : 0 < (utf8 s).length := by
        change ¬ (utf8 s).length < _ at hbig
        omega
      change (if 0 < (utf8 s).length then _ else _ : Buffer).pos ≤ _ at h
      rw [if_pos hpos, write_pos] at h
      change ¬ (utf8 s).length < _ at hbig
      omega
    | buffer b =>
      change b.size < _
      rw [show b.size = 0 from hwritten]
      decide
    | other => decide
  have hholds := encodeBlob_holds hvariant hsize
  rw [(arg.written_eq_iff).mpr hwritten, List.append_assoc] at hholds
  exact hholds

/-- What is written up to the position is what the server reads. -/
theorem payload_holds {s : Sending} (hwritten : s.Written) (h : s.payload.pos ≤ maxFrameLen) :
    s.payload.Holds s.bytes := by
  have htag : ∀ {n : ℕ}, n < 4294967296 → Writes maxFrameLen (varintWrite n) (writeVarint n) :=
    varintWrite_writes
  cases s with
  | createRoom appKey clientHash displayName authToken password => exact encodeHello_holds h
  | joinRoom appKey roomCode clientHash displayName authToken password => exact encodeHello_holds h
  | sendMove blob => exact encodeBlob_holds_written (by decide) hwritten h
  | sendInput blob => exact encodeBlob_holds_written (by decide) hwritten h
  | requestState => exact (htag (n := 4) (by decide)).holds_create 16 h
  | listRooms appKey =>
    exact ((htag (n := 6) (by decide)).andThen (writeStr_writes appKey)).holds_create 64 h
  | setRoomPublic isPublic =>
    exact ((htag (n := 3) (by decide)).andThen ((htag (n := 2) (by decide)).andThen
      (.write _ _))).holds_create 16 h
  | leaveRoom =>
    exact ((htag (n := 3) (by decide)).andThen (htag (n := 8) (by decide))).holds_create 16 h

end

/-! ## What arrives -/

theorem bytes_accepts {s : Sending} (h : s.bytes.length ≤ maxFrameLen) :
    clientMessageFormat.Accepts s.bytes s.message := by
  cases s with
  | createRoom appKey clientHash displayName authToken password =>
    rw [Sending.bytes, List.length_append] at h
    exact (hello_accepts (by omega)).variant.choice rfl
  | joinRoom appKey roomCode clientHash displayName authToken password =>
    rw [Sending.bytes, List.length_append] at h
    exact (hello_accepts (by omega)).variant.choice rfl
  | sendMove b =>
    rw [Sending.bytes, List.length_append] at h
    exact (blob_accepts (by omega)).variant.choice rfl
  | sendInput b =>
    rw [Sending.bytes, List.length_append] at h
    exact (blob_accepts (by omega)).variant.choice rfl
  | requestState => exact fun _ => rfl
  | listRooms appKey =>
    rw [Sending.bytes, List.length_append] at h
    exact (string_accepts (by omega)).variant.choice rfl
  | setRoomPublic isPublic => exact control_accepts ((bool_accepts isPublic).variant.choice rfl)
  | leaveRoom => exact fun _ => rfl

/-- Of a buffer with a byte in it no message arrives that has the bytes. -/
theorem written_of_arrives {network : Bytes → ℤ} {c : Client} (hup : c.isConnected = true)
    {s : Sending} (h : Arrives (s.run network c).1.1 s.message) : s.Written := by
  obtain ⟨_, _, -, -, hdecode⟩ := id h
  have hlen := (decode_spec hdecode).2.1
  rw [Sending.run, if_pos hup] at h
  cases s with
  | sendMove blob =>
    have harrives : Arrives (sendMove network c blob).1 (.move blob.bytes) := by
      rwa [sendMove, if_pos hup]
    exact (sendMove_arrives hup hlen).mp harrives
  | sendInput blob =>
    have harrives : Arrives (sendInput network c blob).1 (.input blob.bytes) := by
      rwa [sendInput, if_pos hup]
    exact (sendInput_arrives hup hlen).mp harrives
  | _ => trivial

/-- A call reaches the server, as the message it stands for and in one frame, exactly when the client
is connected, the payload is within the limit and no blob is a buffer with a byte in it. Where the
client is not connected or the payload too long nothing is sent and the call returns false. -/
theorem calls_arrive_iff (network : Bytes → ℤ) (c : Client) (s : Sending) :
    (Arrives (s.run network c).1.1 s.message ↔
        c.isConnected = true ∧ s.payload.pos ≤ maxFrameLen ∧ s.Written) ∧
      (¬ (c.isConnected = true ∧ s.payload.pos ≤ maxFrameLen) →
        (s.run network c).1 = (none, false)) := by
  have hfails : ¬ (c.isConnected = true ∧ s.payload.pos ≤ maxFrameLen) →
      (s.run network c).1 = (none, false) := by
    intro h
    unfold Sending.run
    split_ifs with hup
    · have hlong : maxFrameLen < s.payload.pos := by
        by_contra hshort
        exact h ⟨hup, Nat.le_of_not_lt hshort⟩
      change sendFrame network c s.payload = _
      unfold sendFrame
      split_ifs
      · rfl
      · exact if_pos hlong
    · rfl
  refine ⟨⟨fun harrives => ?_, ?_⟩, hfails⟩
  · have hgoes : c.isConnected = true ∧ s.payload.pos ≤ maxFrameLen := by
      by_contra h
      rw [hfails h] at harrives
      obtain ⟨w, payload, hsent, _⟩ := harrives
      cases hsent
    exact ⟨hgoes.1, hgoes.2, written_of_arrives hgoes.1 harrives⟩
  · rintro ⟨hup, hlen, hwritten⟩
    have hholds := payload_holds hwritten hlen
    have hshort : s.bytes.length ≤ maxFrameLen := hholds.pos_eq ▸ hlen
    have hsent : (s.run network c).1.1 = some (frame s.bytes) := by
      unfold Sending.run
      rw [if_pos hup]
      exact sendFrame_eq hup hholds hshort
    rw [hsent, arrives_frame hshort]
    exact decode_whole (bytes_accepts hshort) hshort

end Roomie.Gml
