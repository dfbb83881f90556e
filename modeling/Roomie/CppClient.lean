import Roomie.Frames
import Roomie.ClientEncoders
import Roomie.CppDecoder

/-!
# The C++ client at work

`RoomieClient` between two returns of `poll`: the loop that receives and dispatches, and the
public methods that a callback may call while the loop is running. What the socket answers and
what the callbacks do is given from outside, one turn of the loop at a time.
-/

namespace Roomie.Cpp
open Bincode Frames

/-- The fields of `Impl` that the loop and the methods use. -/
structure Client where
  /-- `sock != INVALID_SOCK` -/
  sock : Bool
  connected : Bool
  recvBuf : Bytes
  session : Session

/-- What a callback does: it sends, disconnects or connects. Of a message it is said whether the
socket accepts all of it, and what `on_error` does if that is called because it does not. -/
inductive Action where
  | send (msg : Sending) (accepted : Bool) (onError : List Action)
  | disconnect
  | connect (succeeds : Bool)

/-- What happens while the loop is running. -/
inductive Event where
  /-- `decode_and_dispatch` gets a payload. -/
  | dispatched (payload : Bytes)
  /-- A callback is called. -/
  | called (call : Call)
  /-- A callback calls `disconnect`. -/
  | disconnected
  /-- The frame is erased from the front of the buffer, which holds these bytes. -/
  | erasing (frame buf : Bytes)

/-- A client that is connected and has nothing in its buffer. -/
def fresh : Client := ⟨true, true, [], ⟨[], 0, 0⟩⟩

namespace Client

def ensureConnected (c : Client) : Bool := c.sock && c.connected

/-- `RoomieClient::disconnect`. -/
def disconnect (c : Client) : Client :=
  { c with sock := false, connected := false, session := ⟨[], 0, 0⟩ }

/-- `RoomieClient::connect`: the old connection goes first, whether there will be a new one or
not. -/
def connect (c : Client) (succeeds : Bool) : Client :=
  if succeeds then { c.disconnect with sock := true, connected := true, recvBuf := [] }
  else c.disconnect

/-- What `handle_disconnect` makes of the fields. -/
def lose (c : Client) : Client := { c.disconnect with recvBuf := [] }

/-- After a message went out: `leave_room` clears the session. -/
def sent (c : Client) : Sending → Client
  | .leave => { c with session := ⟨[], 0, 0⟩ }
  | _ => c

end Client

/-- The call of `on_error` in `handle_disconnect`. -/
def lostCall : Call := .error (utf8 "Connection lost")

section
variable (cbs : Callback → Bool)

mutual

/-- A public method called by a callback. A message that is too long or that the socket does
not accept ends the connection. -/
def Action.run : Action → Client → Client × List Event
  | .send msg accepted onError, c =>
    if !c.ensureConnected then (c, [])
    else if msg.payload.length ≤ maxFrameLen && accepted then (c.sent msg, [])
    else if cbs .onError then
      ((runActions onError c.lose).1, .called lostCall :: (runActions onError c.lose).2)
    else (c.lose, [])
  | .disconnect, c => (c.disconnect, [.disconnected])
  | .connect succeeds, c => (c.connect succeeds, [])

def runActions : List Action → Client → Client × List Event
  | [], c => (c, [])
  | a :: as, c =>
    ((runActions as (a.run c).1).1, (a.run c).2 ++ (runActions as (a.run c).1).2)

end

/-- `handle_disconnect`. -/
def handleDisconnect (onError : List Action) (c : Client) : Client × List Event :=
  if cbs .onError then
    ((runActions cbs onError c.lose).1, .called lostCall :: (runActions cbs onError c.lose).2)
  else (c.lose, [])

/-- What `recv` returns. -/
inductive Recv where
  | data (chunk : Bytes)
  | wouldBlock
  | endOfStream
  | failed

/-- What the world outside does in one turn of the loop: the socket, the callback of a message,
and `on_error` if the connection is found lost. -/
structure Turn where
  recv : Recv
  onMessage : List Action
  onLost : List Action

/-- How a turn of the loop ends: with another one, or the loop ends because no frame is complete
or the connection is lost, or the program breaks off. -/
inductive Outcome where
  | again (c : Client)
  | idle (c : Client)
  | lost (c : Client)
  | broken

/-- The callback of a message, if one is called, with what it does. -/
def runCall (onMessage : List Action) : Option Call → Client → Client × List Event
  | none, c => (c, [])
  | some call, c => ((runActions cbs onMessage c).1, .called call :: (runActions cbs onMessage c).2)

variable (depth : ℕ)

/-- The second half of `try_recv_frame`, from the check of the length on. The frame is erased
after its callback has run; where fewer bytes are left the erasure is undefined. -/
def Client.takeFrame (turn : Turn) (c : Client) : Outcome × List Event :=
  match head maxFrameLen c.recvBuf with
  | .incomplete => (.idle c, [])
  | .oversized => (.idle c, [])
  | .frame payload _ =>
    match decodeAndDispatch cbs depth c.session payload with
    | none => (.broken, [.dispatched payload])
    | some ((session, call), _) =>
      let after := runCall cbs turn.onMessage call { c with session := session }
      let events := .dispatched payload ::
        (after.2 ++ [.erasing (c.recvBuf.take (4 + payload.length)) after.1.recvBuf])
      if after.1.recvBuf.length < 4 + payload.length then (.broken, events)
      else (.again { after.1 with recvBuf := after.1.recvBuf.drop (4 + payload.length) }, events)

/-- `try_recv_frame`. On an invalid socket `recv` fails. -/
def Client.tryRecvFrame (turn : Turn) (c : Client) : Outcome × List Event :=
  match if c.sock then turn.recv else .failed with
  | .data chunk => { c with recvBuf := c.recvBuf ++ chunk }.takeFrame cbs depth turn
  | .wouldBlock => c.takeFrame cbs depth turn
  | .endOfStream | .failed =>
    (.lost (handleDisconnect cbs turn.onLost c).1, (handleDisconnect cbs turn.onLost c).2)

/-- The loop of `poll` for so many turns; `again` where these do not end it. -/
def Client.pollLoop : List Turn → Client → Outcome × List Event
  | [], c => (.again c, [])
  | turn :: turns, c =>
    match c.tryRecvFrame cbs depth turn with
    | (.again c', events) => ((pollLoop turns c').1, events ++ (pollLoop turns c').2)
    | (ended, events) => (ended, events)

/-- `RoomieClient::poll`. -/
def Client.poll (turns : List Turn) (c : Client) : Outcome × List Event :=
  if c.sock then c.pollLoop cbs depth turns else (.idle c, [])

end

end Roomie.Cpp
