import Roomie.Histories
import Roomie.Hosts
import Roomie.Relays
import Roomie.SentMessages

/-!
# Replies that are enqueued later

The messages for others are enqueued while the room is locked, the replies for the connection
itself only after `dispatch` has returned. In between other connections may be served, and what
they send is in the queue before the replies. The machine of this module takes these two steps
apart; a connection does nothing else before its replies are enqueued.
-/

namespace Roomie
open HashTables GuardedRuns Seats Histories Relays

/-- A message with the number of `Move`s that the room of its addressee had accepted when it was
made. -/
abbrev Stamped := ServerMessage × ℕ

def isJoined : ServerMessage → Bool
  | .joined .. => true
  | _ => false

/-- The state a message shows. -/
def shown : ServerMessage → Option Blob
  | .joined _ _ _ _ _ initialState => some (initialState.getD [])
  | .stateUpdate blob => some blob
  | _ => none

/-- The states in a list of messages. -/
def states (ms : List Stamped) : List (Blob × ℕ) := ms.filterMap fun e => (shown e.1).map (·, e.2)

/-- The server between two steps. The replies in flight are those that `dispatch` has returned and
that are not enqueued yet; of each queue there is what came since its connection was let into a
room. -/
structure Delayed where
  tracked : Tracked
  inflight : ConnId → List Stamped
  queue : ConnId → List Stamped

namespace Delayed

def start : Delayed := ⟨.start, fun _ => [], fun _ => []⟩

abbrev sys (d : Delayed) : Sys := d.tracked.sys

/-- All replies are enqueued. -/
def Idle (d : Delayed) : Prop := ∀ tx, d.inflight tx = []

end Delayed

/-- How many `Move`s were accepted in the room of the session. -/
def movesSeen (t : Tracked) (tx : ConnId) : ℕ :=
  match t.sys.session tx with
  | some s => (t.moves s.appKey s.roomCode.key).length
  | none => 0

def stamp (t : Tracked) (tx : ConnId) (ms : List ServerMessage) : List Stamped :=
  ms.map fun m => (m, movesSeen t tx)

/-- A connection handles a message or disconnects, or its replies are enqueued. -/
inductive Happening where
  | dispatch (a : Action)
  | reply (conn : ConnId)

/-- `dispatch` until it returns; a `Joined` among the replies starts the queue anew. -/
def dispatched (d : Delayed) (a : Action) : Delayed where
  tracked := track d.tracked a
  inflight := Function.update d.inflight a.conn
    (stamp (track d.tracked a) a.conn (a.outcome d.sys).replies)
  queue tx :=
    (if tx = a.conn ∧ (a.outcome d.sys).replies.any isJoined = true then [] else d.queue tx) ++
      stamp (track d.tracked a) tx (onChannel tx (delivered a.env (a.outcome d.sys).net))

/-- The loop after `dispatch`. -/
def enqueued (d : Delayed) (conn : ConnId) : Delayed where
  tracked := d.tracked
  inflight := Function.update d.inflight conn []
  queue := Function.update d.queue conn (d.queue conn ++ d.inflight conn)

/-- One step; a connection whose replies are in flight has to wait. -/
def happen (d : Delayed) : Happening → Delayed
  | .dispatch a => if d.inflight a.conn = [] then dispatched d a else d
  | .reply conn => enqueued d conn

/-- The order in one queue: the `Joined` comes first, the states come as they were current, and
when nothing is in progress the last one is the room's. -/
structure Orderly (d : Delayed) (appKey key : String) (room : Room) (tx : ConnId) : Prop where
  first : ∀ e ∈ (d.queue tx).head?, isJoined e.1 = true
  states : Faithful [] (d.tracked.moves appKey key) (states (d.queue tx))
  last : d.Idle → (Roomie.states (d.queue tx)).getLast?.map Prod.fst = some room.state

/-- The delivery order matches the room order for every member of every room. -/
def InOrder (d : Delayed) : Prop :=
  ∀ appKey key room p i, d.sys.roomAt appKey key = some room → room.HasMember p i →
    Orderly d appKey key room i.tx

/-! ## Lists of messages -/

theorem states_append (ms ms' : List Stamped) : states (ms ++ ms') = states ms ++ states ms' :=
  List.filterMap_append

theorem states_stamp (t : Tracked) (tx : ConnId) (ms : List ServerMessage) :
    states (stamp t tx ms) = (ms.filterMap shown).map (·, movesSeen t tx) := by
  induction ms with
  | nil => rfl
  | cons m ms ih =>
    have hcons : states (stamp t tx (m :: ms)) =
        states (stamp t tx [m]) ++ states (stamp t tx ms) := states_append [_] _
    rw [hcons, ih]
    cases h : shown m with
    | none => simp [states, stamp, h]
    | some blob => simp [states, stamp, h]

theorem states_eq_nil {ms : List Stamped} : states ms = [] ↔ ∀ e ∈ ms, shown e.1 = none := by
  simp [states, List.filterMap_eq_nil_iff]

end Roomie
