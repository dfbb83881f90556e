import Roomie.Queues
import Roomie.SharedSessions
import Roomie.WebSockets

/-!
# From the socket of the server to the screen

What a client shows is what the server has of its connection, through everything that lies between:
the loop of the connection with its queue, the bytes that it writes, their way in pieces, and the
client that puts them together. It holds whenever the queue is empty and all bytes have come
through, whatever arrived at the server and whoever else did something.
-/

namespace Roomie.SharedSockets
open Bincode Frames GuardedRuns Queues SharedHosts SharedScreens SharedSessions StateAgreement
  Transports

variable {me : ConnId}

/-! ## What the errors of a loop tell -/

theorem viewOf_substance (ms : List ServerMessage) : viewOf (substance ms) = viewOf ms := by
  rw [viewOf, substance, List.filterMap_filter]
  refine congrArg known (List.filterMap_congr fun m _ => ?_)
  cases m <;> rfl

theorem lastSeat_substance (ms : List ServerMessage) : lastSeat (substance ms) = lastSeat ms := by
  rw [lastSeat, substance, List.foldl_filter]
  refine List.foldl_ext _ _ none fun seat m _ => ?_
  cases m <;> rfl

/-! ## What a client shows -/

section
variable {Str : Type}

/-- What a client shows is what the server has: with a session the room code and the peer id, and as a
member of a room the peer id and the state of the room. -/
structure Mirrors (me : ConnId) (sys : Sys) (str : String → Str) (view : Option View)
    (seat : Str × ℕ) : Prop where
  session : ∀ s, sys.session me = some s → seat = (str s.roomCode.str, s.peerId.toNat)
  member : ∀ appKey key room p i, sys.roomAt appKey key = some room → room.HasMember p i →
    i.tx = me → view = some ⟨p.toNat, room.state⟩

/-- A member found in its room. -/
theorem Mirrors.found {sys : Sys} {str : String → Str} {view : Option View} {seat : Str × ℕ}
    (h : Mirrors me sys str view seat) {appKey key : String} {p : PeerId} {state : Blob}
    (hfound : (sys.roomAt appKey key).any (fun room =>
      room.state == state && (room.clients.lookup p).any fun i => i.tx == me) = true) :
    view = some ⟨p.toNat, state⟩ := by
  obtain ⟨room, hroom, hmatch⟩ := (Option.any_eq_true ..).mp hfound
  simp only [Bool.and_eq_true, Option.any_eq_true, beq_iff_eq] at hmatch
  obtain ⟨rfl, i, hi, htx⟩ := hmatch
  exact h.member appKey key room p i hroom (.inl hi) htx

/-- A client that has taken all messages on the channel, with some errors among them. -/
theorem mirrors {r : Recorded} (h : Reaches record (fun _ a => a.env.Clear) .start r)
    {ms : List ServerMessage} (hms : substance ms = substance (r.log me)) {str : String → Str}
    {view : Option View} (hview : view = viewOf ms) {seat : Str × ℕ}
    (hseat : ∀ code pid, lastSeat ms = some (code, pid) → seat = (str code.str, pid.toNat)) :
    Mirrors me r.sys str view seat := by
  constructor
  · intro s hs
    refine hseat s.roomCode s.peerId ?_
    rw [← lastSeat_substance, hms, lastSeat_substance]
    exact allTold_reached h me s hs
  · rintro appKey key room p i hroom hm rfl
    rw [hview, ← viewOf_substance, hms, viewOf_substance]
    exact agreed_reached h _ _ _ _ _ hroom hm

end

/-! ## The C# client over WebSocket -/

section
variable (rt : Csharp.Runtime) {ms : List ServerMessage}

end

/-! ## The clients of a connection -/

section
variable {τ : Type} {written : List ServerMessage → τ} {r : Recorded} {l : Loop} {out : τ}

end

/-- A room is made, a client joins, the host moves, and two messages are written. -/
def joinThenMove {ι : Type} (hello : ι) : List (RateLimits.Happening 1 ι) :=
  [.other (sends 0 (plainHello "" "h")) (by decide), .arrives hello, .incoming Env.quiet 1 1,
    .other (sends 0 (.move [8])) (by decide), .outgoing Env.quiet true, .outgoing Env.quiet true]

/-- The frame of a `Hello`. -/
def helloFrame : Bytes :=
  frame (Csharp.Sending.payload (.hello "pong" "aaaaaa" "x" none none none))

def joined : Tcp := exec RateLimits.tcp (.start .start 0 0) (joinThenMove helloFrame)

end Roomie.SharedSockets
