import Roomie.Frames
import Roomie.GmlDecoder

/-!
# The GameMaker client

The fields of the client, `roomie_handle_async`, `roomie_client_connect`, `roomie_client_disconnect`
and `roomie_client_poll`. What is received goes to the end of one buffer, and an offset says how
much of it has been consumed; from 2048 bytes on these are cut off. A callback runs in the middle of
`roomie_client_poll` and may connect, disconnect, leave the room or send.
-/

namespace Roomie.Gml
open Bincode Cursors ByteBuffers Frames

/-- A callback with its arguments. Blobs are passed on as strings. -/
inductive Call where
  | joined (roomCode : Bytes) (peerId hostPeerId side : ℕ) (settings : RoomSettings)
      (initialState : Bytes)
  | roomList (rooms : List ListedRoom)
  | peerJoined (peerId : ℕ) (clientHash : Bytes) (displayName : Option Bytes)
  | peerLeft (peerId : ℕ)
  | peerInput (peerId : ℕ) (blob : Bytes)
  | stateUpdate (blob : Bytes)
  | moveAccepted
  | moveRejected (reason : Bytes)
  | hostTransferred (newHostPeerId : ℕ)
  | kicked
  | banned
  | settingsChanged (settings : RoomSettings)
  | pong
  | error (message : Bytes)
  deriving DecidableEq

def Call.callback : Call → Callback
  | .joined .. => .onJoined
  | .roomList _ => .onRoomList
  | .peerJoined .. => .onPeerJoined
  | .peerLeft _ => .onPeerLeft
  | .peerInput .. => .onPeerInput
  | .stateUpdate _ => .onStateUpdate
  | .moveAccepted => .onMoveAccepted
  | .moveRejected _ => .onMoveRejected
  | .hostTransferred _ => .onHostTransferred
  | .kicked => .onKicked
  | .banned => .onBanned
  | .settingsChanged _ => .onSettingsChanged
  | .pong => .onPong
  | .error _ => .onError

/-- What goes on at the client, as it is seen from outside: a data event for its socket, a call of
`roomie_decode_server_message` or of a callback, a call of `roomie_client_connect` or
`roomie_client_disconnect`, and one of `roomie_client_leave_room` while it is connected. -/
inductive Event where
  | received (data : Bytes)
  | decoding (payload : Bytes)
  | called (call : Call)
  | reset
  | left
  deriving DecidableEq

/-- The struct of `roomie_client_create`, and what has gone on. -/
structure Client where
  socket : ℤ
  connected : Bool
  isWs : Bool
  roomCode : Bytes
  peerId : ℕ
  hostPeerId : ℕ
  side : ℕ
  lastError : String
  recvBuf : Buffer
  recvReadPos : ℕ
  log : List Event
  deriving DecidableEq

/-- What a callback, or the program between two events, may do. The runner says what comes of a new
connection: the number of the socket and the result of connecting it, each below zero if it fails. The
functions that only send leave the client as it is. -/
inductive Act where
  | disconnect
  | connect (useWs : Bool) (sock err : ℤ)
  | leaveRoom
  | send

/-- The map of an Async Network event. -/
inductive Async where
  | nonBlockingConnect (succeeded : Bool)
  | disconnect
  | data (id : Option ℤ) (buffer : Option Buffer)
  | other

/-- The fields of a client that say where it is in a room. -/
structure Session where
  roomCode : Bytes
  peerId : ℕ
  hostPeerId : ℕ
  side : ℕ
  deriving DecidableEq

namespace Client

def session (c : Client) : Session := ⟨c.roomCode, c.peerId, c.hostPeerId, c.side⟩

def setSession (c : Client) (s : Session) : Client :=
  { c with roomCode := s.roomCode, peerId := s.peerId, hostPeerId := s.hostPeerId, side := s.side }

/-- `roomie_client_create`. -/
def create : Client :=
  ⟨-1, false, false, [], 0, 0, 0, "", .create 4096 .grow, 0, []⟩

/-- `roomie_client_is_connected`. -/
def isConnected (c : Client) : Bool := c.connected && 0 ≤ c.socket

/-- `roomie_client_is_host`. -/
def isHost (c : Client) : Bool := c.peerId ≠ 0 && c.peerId = c.hostPeerId

/-- `roomie_client_disconnect`. -/
def disconnect (c : Client) : Client :=
  { c with
    socket := if 0 ≤ c.socket then -1 else c.socket
    connected := false
    roomCode := []
    peerId := 0
    hostPeerId := 0
    recvReadPos := 0
    recvBuf := (c.recvBuf.seek 0).resize 0 }

/-- `roomie_client_connect`, and whether it returns true. -/
def connect (useWs : Bool) (sock err : ℤ) (c : Client) : Client × Bool :=
  let c := { c.disconnect with isWs := useWs }
  if sock < 0 then ({ c with lastError := "Failed to create socket" }, false)
  else if err < 0 then ({ c with socket := -1, lastError := "Connect failed" }, false)
  else ({ c with socket := sock, lastError := "", connected := true }, true)

/-- What `roomie_client_leave_room` leaves of the client. -/
def leaveRoom (c : Client) : Client :=
  if c.isConnected then { c with roomCode := [], peerId := 0, hostPeerId := 0 } else c

def note (c : Client) (e : Event) : Client := { c with log := c.log ++ [e] }

def act (c : Client) : Act → Client
  | .disconnect => c.disconnect.note .reset
  | .connect useWs sock err => (c.connect useWs sock err).1.note .reset
  | .leaveRoom => if c.isConnected then c.leaveRoom.note .left else c.leaveRoom
  | .send => c

section
variable (rt : Runtime) (cbs : Callback → Bool) (acts : List Event → List Act)

/-- The callback is called, if it is set. What it does depends on all that has gone on. -/
def raise (call : Call) (c : Client) : Client :=
  if cbs call.callback then
    (acts (c.log ++ [.called call])).foldl act (c.note (.called call))
  else c

/-- The end of `roomie_handle_async` for a data event. -/
def receive (inBuff : Buffer) (c : Client) : Client :=
  if 0 < inBuff.size then
    let offset := c.recvBuf.size
    { c with recvBuf := inBuff.copy 0 inBuff.size (c.recvBuf.seek offset) offset }
  else c

/-- Data for another socket are skipped. -/
def accepts (c : Client) (id : Option ℤ) : Bool := id.all (· = c.socket)

/-- `roomie_handle_async`. -/
def handleAsync (c : Client) : Async → Client
  | .nonBlockingConnect succeeded =>
    { c with
      connected := succeeded
      lastError := if succeeded then c.lastError else "Connection failed or timed out" }
  | .disconnect =>
    raise cbs acts (.error (utf8 "Connection lost"))
      { c with connected := false, socket := -1, roomCode := [], peerId := 0, hostPeerId := 0 }
  | .data id buffer =>
    if c.accepts id then
      buffer.elim c fun inBuff => (c.receive inBuff).note (.received inBuff.bytes)
    else c
  | .other => c

/-- What `roomie_client_poll` makes of a message. -/
def handle (c : Client) : Message → Client
  | .joined roomCode peerId hostPeerId side settings initialState =>
    raise cbs acts (.joined roomCode peerId hostPeerId side settings (text (initialState.getD [])))
      { c with roomCode := roomCode, peerId := peerId, hostPeerId := hostPeerId, side := side }
  | .roomList rooms => raise cbs acts (.roomList rooms) c
  | .peerJoined peerId clientHash displayName =>
    raise cbs acts (.peerJoined peerId clientHash displayName) c
  | .peerLeft peerId => raise cbs acts (.peerLeft peerId) c
  | .peerInput peerId (some blob) => raise cbs acts (.peerInput peerId (text blob)) c
  | .peerInput _ none => c
  | .stateUpdate (some blob) => raise cbs acts (.stateUpdate (text blob)) c
  | .stateUpdate none => c
  | .moveAccepted => raise cbs acts .moveAccepted c
  | .moveRejected reason => raise cbs acts (.moveRejected reason) c
  | .hostTransferred newHostPeerId =>
    -- the field is written only where the callback is set
    if cbs .onHostTransferred then
      raise cbs acts (.hostTransferred newHostPeerId) { c with hostPeerId := newHostPeerId }
    else c
  | .settingsChanged settings => raise cbs acts (.settingsChanged settings) c
  | .roomEvent 1 => raise cbs acts .kicked c
  | .roomEvent 2 => raise cbs acts .banned c
  | .roomEvent _ => c
  | .pong => raise cbs acts .pong c
  | .error message => raise cbs acts (.error message) c
  | .unknown _ => c

/-- The end of `roomie_client_poll`: what has been consumed is cut off, by way of a temporary
buffer, when it is long. The size of the buffer was read before the callback ran. -/
def compact (total : ℕ) (c : Client) : Client :=
  if 2048 ≤ c.recvReadPos then
    let remain := total - c.recvReadPos
    let recv :=
      if 0 < remain then
        (c.recvBuf.copy c.recvReadPos remain (.create remain .fixed) 0).copy 0 remain c.recvBuf 0
      else c.recvBuf
    { c with recvBuf := recv.resize remain, recvReadPos := 0 }
  else c

/-- How a call of `roomie_client_poll` goes on: with itself, or it returns, or the runner stops it
with an error. -/
inductive Progress where
  | again
  | returned
  | failed
  deriving DecidableEq

/-- `roomie_client_poll` up to the call of itself. -/
def pollFrame (c : Client) : Client × Progress :=
  if c.socket < 0 then (c, .returned)
  else
    let total := c.recvBuf.size
    let size := total - c.recvReadPos
    if size < 4 then (c, .returned)
    else
      let frameLen := ofLittleEndian (Cursor.slice c.recvBuf.bytes c.recvReadPos 4)
      if maxFrameLen < frameLen then
        (raise cbs acts (.error (utf8 "Frame too large")) { c with recvReadPos := total }, .returned)
      else if size < 4 + frameLen then (c, .returned)
      else
        let payload :=
          (c.recvBuf.copy (c.recvReadPos + 4) frameLen (.create frameLen .fixed) 0).bytes
        let c := { c with recvReadPos := c.recvReadPos + 4 + frameLen }.note (.decoding payload)
        match decodeServerMessage rt payload with
        | none => (c, .failed)
        | some msg => (compact total (handle cbs acts c msg), .again)

end

/-- The bytes that have been received and not consumed. -/
def pending (c : Client) : Bytes := c.recvBuf.bytes.drop c.recvReadPos

end Client

/-! ## What messages change and what they call -/

/-- The session after a message; a new host is written only where the callback for it is set. -/
def Message.update (transfers : Bool) (s : Session) : Message → Session
  | .joined roomCode peerId hostPeerId side _ _ => ⟨roomCode, peerId, hostPeerId, side⟩
  | .hostTransferred host => if transfers then { s with hostPeerId := host } else s
  | _ => s

/-- The callback for a message. -/
def Message.call : Message → Option Call
  | .joined roomCode peerId hostPeerId side settings initialState =>
    some (.joined roomCode peerId hostPeerId side settings (text (initialState.getD [])))
  | .roomList rooms => some (.roomList rooms)
  | .peerJoined peerId clientHash displayName => some (.peerJoined peerId clientHash displayName)
  | .peerLeft peerId => some (.peerLeft peerId)
  | .peerInput peerId blob => blob.map fun blob => .peerInput peerId (text blob)
  | .stateUpdate blob => blob.map fun blob => .stateUpdate (text blob)
  | .moveAccepted => some .moveAccepted
  | .moveRejected reason => some (.moveRejected reason)
  | .hostTransferred host => some (.hostTransferred host)
  | .settingsChanged settings => some (.settingsChanged settings)
  | .roomEvent 1 => some .kicked
  | .roomEvent 2 => some .banned
  | .roomEvent _ => none
  | .pong => some .pong
  | .error message => some (.error message)
  | .unknown _ => none

namespace Client

/-! ## What callbacks leave of the buffer -/

/-- The buffer is as it was, or there has been a reset. -/
def Spares (c c' : Client) : Prop :=
  c'.recvBuf = c.recvBuf ∧ c'.recvReadPos = c.recvReadPos ∨
    c'.recvBuf.bytes = [] ∧ c'.recvReadPos = 0

theorem Spares.trans {c c' c'' : Client} (h : c.Spares c') (h' : c'.Spares c'') : c.Spares c'' := by
  rcases h' with ⟨hbuf, hpos⟩ | hreset
  · unfold Spares
    rw [hbuf, hpos]
    exact h
  · exact .inr hreset

theorem spares_disconnect (c : Client) : c.Spares c.disconnect :=
  .inr ⟨(c.recvBuf.seek 0).resize_zero, rfl⟩

theorem spares_act (c : Client) (a : Act) : c.Spares (c.act a) := by
  cases a with
  | disconnect => exact c.spares_disconnect
  | connect useWs sock err =>
    unfold act connect
    dsimp only
    split_ifs <;> exact c.spares_disconnect
  | leaveRoom =>
    unfold act leaveRoom
    split_ifs <;> exact .inl ⟨rfl, rfl⟩
  | send => exact .inl ⟨rfl, rfl⟩

section
variable (rt : Runtime) (cbs : Callback → Bool) (acts : List Event → List Act)

theorem spares_acts (c : Client) (as : List Act) : c.Spares (as.foldl act c) := by
  induction as generalizing c with
  | nil => exact .inl ⟨rfl, rfl⟩
  | cons a as ih => exact (c.spares_act a).trans (ih _)

theorem spares_raise (call : Call) (c : Client) : c.Spares (c.raise cbs acts call) := by
  unfold raise
  split_ifs
  · exact Spares.trans (.inl ⟨rfl, rfl⟩) (spares_acts _ _)
  · exact .inl ⟨rfl, rfl⟩

/-- What a message changes, and what it calls, are independent of one another. -/
theorem handle_eq (c : Client) (msg : Message) :
    handle cbs acts c msg = msg.call.elim id (raise cbs acts)
      (c.setSession (msg.update (cbs .onHostTransferred) c.session)) := by
  cases msg with
  | hostTransferred host =>
    unfold handle Message.update
    split_ifs with hset
    · rfl
    · exact (if_neg hset).symm
  | peerInput peerId blob => cases blob <;> rfl
  | stateUpdate blob => cases blob <;> rfl
  | roomEvent eventTag =>
    match eventTag with
    | 0 => rfl
    | 1 => rfl
    | 2 => rfl
    | _ + 3 => rfl
  | _ => rfl

theorem spares_handle (c : Client) (msg : Message) : c.Spares (handle cbs acts c msg) := by
  rw [handle_eq]
  cases msg.call with
  | none => exact .inl ⟨rfl, rfl⟩
  | some call => exact Spares.trans (.inl ⟨rfl, rfl⟩) (spares_raise cbs acts call _)

/-! ## The loop of `roomie_client_poll` -/

theorem length_pending (c : Client) : c.pending.length = c.recvBuf.size - c.recvReadPos :=
  List.length_drop

theorem length_compact (total : ℕ) (c : Client) :
    (compact total c).pending.length = if 2048 ≤ c.recvReadPos then total - c.recvReadPos
      else c.pending.length := by
  unfold compact
  split_ifs
  · change ((fit _ _).drop 0).length = _
    rw [List.drop_zero, length_fit]
  · rfl

/-- What is cut off has been consumed, and nothing else. -/
theorem pending_compact {c : Client} (hgrow : c.recvBuf.growth = .grow) :
    (compact c.recvBuf.size c).pending = c.pending := by
  by_cases hfar : 2048 ≤ c.recvReadPos
  · rw [compact, if_pos hfar]
    by_cases hmore : 0 < c.recvBuf.size - c.recvReadPos
    · -- the temporary buffer holds what is pending
      have hthere : c.recvReadPos + (c.recvBuf.size - c.recvReadPos) ≤ c.recvBuf.size := by omega
      have htmp := Buffer.copy_create hthere
      dsimp only
      rw [if_pos hmore]
      generalize c.recvBuf.copy c.recvReadPos (c.recvBuf.size - c.recvReadPos)
        (.create (c.recvBuf.size - c.recvReadPos) .fixed) 0 = tmp at *
      have hsize : tmp.size = c.recvBuf.size - c.recvReadPos := by
        rw [Buffer.size, htmp, Cursor.length_slice hthere]
      rw [← hsize]
      change (((tmp.copy 0 tmp.size c.recvBuf 0).resize tmp.size).bytes).drop 0 = _
      rw [Buffer.resize_copy_start tmp hgrow, List.drop_zero, htmp, pending, Cursor.slice,
        List.take_of_length_le]
      exact List.length_drop.le
    · have hnone : c.recvBuf.size - c.recvReadPos = 0 := by omega
      have hnil : c.pending = [] := List.length_eq_zero_iff.mp (c.length_pending.trans hnone)
      dsimp only
      rw [if_neg hmore, hnone, hnil]
      exact c.recvBuf.resize_zero
  · rw [compact, if_neg hfar]

/-- A frame with this payload is consumed. -/
def consume (payload : Bytes) (c : Client) : Client :=
  { c with recvReadPos := c.recvReadPos + 4 + payload.length }.note (.decoding payload)

/-- What is done next depends on what stands at the head of the pending bytes. -/
theorem pollFrame_eq {c : Client} (hsocket : 0 ≤ c.socket) :
    pollFrame rt cbs acts c = match head maxFrameLen c.pending with
      | .incomplete => (c, .returned)
      | .oversized => (raise cbs acts (.error (utf8 "Frame too large"))
          { c with recvReadPos := c.recvBuf.size }, .returned)
      | .frame payload _ => match decodeServerMessage rt payload with
        | none => (c.consume payload, .failed)
        | some msg => (compact c.recvBuf.size (handle cbs acts (c.consume payload) msg), .again) := by
  have htake : c.pending.take 4 = Cursor.slice c.recvBuf.bytes c.recvReadPos 4 := rfl
  unfold pollFrame head
  dsimp only
  rw [if_neg (by omega), htake, length_pending]
  split_ifs with hfour hlong hshort
  · rfl
  · rfl
  · rfl
  · generalize hn : ofLittleEndian (Cursor.slice c.recvBuf.bytes c.recvReadPos 4) = n at *
    have hthere : c.recvReadPos + 4 + n ≤ c.recvBuf.size := by omega
    have hpayload : (c.pending.drop 4).take n = Cursor.slice c.recvBuf.bytes (c.recvReadPos + 4) n := by
      rw [pending, List.drop_drop]
      rfl
    have hlen := Cursor.length_slice hthere
    rw [Buffer.copy_create hthere, hpayload]
    dsimp only
    rw [consume, hlen]

theorem pending_consume {c : Client} {payload rest : Bytes}
    (h : head maxFrameLen c.pending = .frame payload rest) :
    (c.consume payload).pending = rest ∧ (c.consume payload).recvReadPos ≤ c.recvBuf.size := by
  obtain ⟨hlen, rfl⟩ := head_rest h
  rw [length_pending] at hlen
  constructor
  · rw [pending, pending, List.drop_drop]
    exact congrArg (List.drop · c.recvBuf.bytes) (Nat.add_assoc _ _ _)
  · change c.recvReadPos + 4 + payload.length ≤ c.recvBuf.size
    omega

/-- What is left after a message is what was left before it, or nothing. -/
theorem length_handled (c : Client) (msg : Message) :
    (compact c.recvBuf.size (handle cbs acts c msg)).pending.length ≤ c.pending.length := by
  rw [length_compact, length_pending, length_pending]
  rcases spares_handle cbs acts c msg with ⟨hbuf, hpos⟩ | ⟨hbuf, hpos⟩
  · rw [hbuf, hpos, ite_self]
  · have hsize : (handle cbs acts c msg).recvBuf.size = 0 := by
      rw [Buffer.size, hbuf]
      rfl
    rw [if_neg (by omega), hsize, Nat.zero_sub]
    exact Nat.zero_le _

/-- Each frame that is consumed leaves less. -/
theorem pollFrame_lt {c c' : Client} (h : pollFrame rt cbs acts c = (c', .again)) :
    c'.pending.length < c.pending.length := by
  by_cases hsocket : c.socket < 0
  · rw [pollFrame, if_pos hsocket] at h
    cases h
  rw [pollFrame_eq rt cbs acts (Int.not_lt.mp hsocket)] at h
  split at h
  · cases h
  · cases h
  · rename_i payload rest hhead
    obtain ⟨hlen, hrest⟩ := head_rest hhead
    split at h
    · cases h
    · rename_i msg hmsg
      obtain ⟨rfl, -⟩ := Prod.mk.inj h
      have hle := length_handled cbs acts (c.consume payload) msg
      rw [(pending_consume hhead).1, hrest, List.length_drop] at hle
      exact Nat.lt_of_le_of_lt hle (by omega)

/-- `roomie_client_poll`, and whether it returns. -/
def poll (c : Client) : Client × Bool :=
  match _h : pollFrame rt cbs acts c with
  | (c', .again) => poll c'
  | (c', .returned) => (c', true)
  | (c', .failed) => (c', false)
termination_by c.pending.length
decreasing_by exact pollFrame_lt rt cbs acts _h

section
variable {rt cbs acts} {c c' : Client}

theorem poll_again (h : pollFrame rt cbs acts c = (c', .again)) :
    poll rt cbs acts c = poll rt cbs acts c' := by
  rw [poll]
  split <;> simp_all

theorem poll_returned (h : pollFrame rt cbs acts c = (c', .returned)) :
    poll rt cbs acts c = (c', true) := by
  rw [poll]
  split <;> simp_all

theorem poll_failed (h : pollFrame rt cbs acts c = (c', .failed)) :
    poll rt cbs acts c = (c', false) := by
  rw [poll]
  split <;> simp_all

end

end

end Client

end Roomie.Gml
