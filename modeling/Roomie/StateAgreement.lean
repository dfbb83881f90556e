import Roomie.Hearing
import Roomie.Relays

/-!
# What members know of themselves and of the state

A client learns its peer id and the state of the room from its `Joined`, and the state again
from each `StateUpdate`. Accepted and pending members alike are told of every new state, so over
clear channels each of them always knows who it is and holds the state of its room.
-/

namespace Roomie.StateAgreement
open HashTables GuardedRuns Seats

/-- What a message tells a client of itself and of the state. -/
inductive News where
  | joined (peerId : ℕ) (state : Blob)
  | state (blob : Blob)

def newsOf : ServerMessage → Option News
  | .joined _ pid _ _ _ initial => some (.joined pid.toNat (initial.getD []))
  | .stateUpdate blob => some (.state blob)
  | _ => none

/-- What a client knows. -/
structure View where
  peerId : ℕ
  state : Blob
  deriving DecidableEq

def learn (view : Option View) : News → Option View
  | .joined pid state => some ⟨pid, state⟩
  | .state blob => view.map fun view => { view with state := blob }

/-- What a client knows after all this. -/
def known (news : List News) : Option View := news.foldl learn none

def viewOf (log : List ServerMessage) : Option View := known (log.filterMap newsOf)

theorem viewOf_append (log ms : List ServerMessage) :
    viewOf (log ++ ms) = (ms.filterMap newsOf).foldl learn (viewOf log) := by
  rw [viewOf, viewOf, known, List.filterMap_append, List.foldl_append]
  rfl

/-- Every member knows its peer id and holds the state of its room. -/
def Agreed (r : Recorded) : Prop :=
  ∀ appKey key room p i, r.sys.roomAt appKey key = some room → room.HasMember p i →
    viewOf (r.log i.tx) = some ⟨p.toNat, room.state⟩

/-! ## One member -/

/-- The messages lead from one state of the room to another. -/
def Tells (s s' : Blob) (ms : List ServerMessage) : Prop :=
  ∀ p, (ms.filterMap newsOf).foldl learn (some ⟨p, s⟩) = some ⟨p, s'⟩

variable {s s' s'' : Blob} {ms ms' : List ServerMessage}

theorem Tells.append (h : Tells s s' ms) (h' : Tells s' s'' ms') : Tells s s'' (ms ++ ms') := by
  intro p
  rw [List.filterMap_append, List.foldl_append, h, h']

theorem tells_nothing (h : ∀ m ∈ ms, newsOf m = none) : Tells s s ms := by
  intro p
  rw [List.filterMap_eq_nil_iff.mpr h]
  rfl

theorem tells_answers (h : ∀ m ∈ ms, m.IsAnswer) : Tells s s ms := by
  apply tells_nothing
  intro m hm
  have hans := h m hm
  cases m <;> first | exact hans.elim | rfl

theorem tells_requestState (room : Room) : Tells room.state room.state room.requestState := by
  intro p
  unfold Room.requestState
  split_ifs <;> rfl

section
variable (env : Env) (room : Room)

theorem move_tells (pid : PeerId) (blob : Blob) :
    Tells room.state (RoomOp.after env room (.move pid blob)).state
      (if room.hostPeerId = pid ∧ room.moveAllowed then [.stateUpdate blob] else []) := by
  simp only [RoomOp.after, RoomOp.edit]
  split_ifs
  · exact fun _ => rfl
  · exact fun _ => rfl

/-- Accepted clients are told of every new state. -/
theorem news_tells (o : RoomOp) : Tells room.state (o.after env room).state (o.news env room) := by
  cases o with
  | leave pid =>
    apply tells_nothing
    intro m hm
    rcases List.mem_cons.mp hm with rfl | hm
    · rfl
    · obtain ⟨host, _, rfl⟩ := List.mem_map.mp hm
      rfl
  | move pid blob => exact move_tells env room pid blob
  | control pid rc =>
    have hstate : (RoomOp.after env room (.control pid rc)).state = room.state := by
      apply Relays.edit_state
      intro _ _ h
      cases h
    rw [hstate]
    apply tells_nothing
    intro m hm
    simp only [RoomOp.news] at hm
    split_ifs at hm
    · cases rc with
      | acceptPeer target =>
        obtain ⟨i, _, rfl⟩ := List.mem_map.mp hm
        rfl
      | transferHost target =>
        simp only at hm
        split_ifs at hm
        · obtain rfl := List.mem_singleton.mp hm
          rfl
        · cases hm
      | updateSettings settings =>
        obtain rfl := List.mem_singleton.mp hm
        rfl
      | kick target =>
        obtain rfl := List.mem_singleton.mp hm
        rfl
      | ban target =>
        obtain rfl := List.mem_singleton.mp hm
        rfl
      | _ => cases hm
    · cases hm

/-- So are pending peers. -/
theorem pendingNews_tells (o : RoomOp) :
    Tells room.state (o.after env room).state (o.pendingNews room) := by
  cases o with
  | leave pid => exact fun _ => rfl
  | move pid blob => exact move_tells env room pid blob
  | control pid rc =>
    have hstate : (RoomOp.after env room (.control pid rc)).state = room.state := by
      apply Relays.edit_state
      intro _ _ h
      cases h
    rw [hstate]
    exact fun _ => rfl

end

variable {env : Env} {room room' : Room} {p : PeerId} {i : ClientInfo}

theorem turn_tells {g : Room → RoomOp → Prop} (h : HearsTurn env g p i room ms room') :
    Tells room.state room'.state ms := by
  cases h with
  | rest | input => exact fun _ => rfl
  | opClient => exact news_tells env room _
  | opPending => exact pendingNews_tells env room _

theorem arrival_tells {comer : Option (ConnId × Hello)} {appKey key : String}
    (h : HearsArrival env comer appKey key p i room ms room') : Tells room.state room'.state ms := by
  cases h with
  | rest | count => exact fun _ => rfl
  | admitPeer _ _ _ _ _ admitted =>
    rw [admitted.data.1]
    apply tells_nothing
    intro m hm
    split_ifs at hm
    · obtain rfl := List.mem_singleton.mp hm
      rfl
    · cases hm

/-- A `Joined` tells everything anew. -/
theorem joined_view (room : Room) (code : RoomCode) (p : PeerId) (side : UInt8)
    (log : List ServerMessage) :
    viewOf (log ++ [room.joinedMessage code p side]) = some ⟨p.toNat, room.state⟩ := by
  rw [viewOf_append]
  cases hstate : room.state <;> simp [Room.joinedMessage, newsOf, learn, hstate]

/-! ## All runs -/

theorem record_agreed {r : Recorded} {a : Action} (hr : Reachable r.sys) (h : Agreed r)
    (hc : a.env.Clear) : Agreed (record r a) := by
  intro appKey key room' p i hroom hm
  have hlog : (record r a).log i.tx = r.log i.tx ++ onChannel i.tx (a.sent r.sys) := rfl
  have hguard : OpGuard (fun _ _ _ => True) r.sys a := fun _ _ _ _ _ => trivial
  have hears := step_hears (Seats.seated hr) (allDisjoint_of_reachable hr) hc hguard hroom hm
  rw [hlog]
  revert hears
  generalize onChannel i.tx (a.sent r.sys) = heard
  intro hears
  cases hears with
  | @stays room mid ms ms' answers _ found turn arrival answers_spec =>
    have hbefore := h _ _ _ _ _ found (turn.hasMember (arrival.hasMember hm))
    have htells : Tells room'.state room'.state answers := by
      rcases answers_spec with plain | ⟨_, rfl⟩
      · exact tells_answers plain
      · exact tells_requestState room'
    rw [viewOf_append, hbefore]
    exact ((turn_tells turn).append (arrival_tells arrival)).append htells p.toNat
  | joins _ _ _ _ code side => exact joined_view room' code p side _
  | opens _ _ _ code side => exact joined_view room' code p side _

theorem agreed_reached {r : Recorded} (h : Reaches record (fun _ a => a.env.Clear) .start r) :
    Agreed r := by
  refine h.invariant_under (J := fun r => Reachable r.sys) (fun r => reachable_of_record) ?_
    fun r a hr hI hc => record_agreed hr hI hc
  intro appKey key room p i hroom
  simp [Recorded.start, Sys.roomAt, Sys.start, Server.start, Server.roomAt] at hroom

end Roomie.StateAgreement
