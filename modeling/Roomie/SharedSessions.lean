import Roomie.DeliveryOrder
import Roomie.SharedHosts

/-!
# Where the server has a client, and where the client takes itself to be

The server keeps a session for each connection, and each client keeps a room code and a peer id.
A session begins with the `Joined` that tells of it, and nobody is sent a `Joined` that is for
another. So a client that has polled all that was sent to it shows the room and the id of its
session, also when it was kicked: the session of one that was kicked goes on.
-/

namespace Roomie.SharedSessions
open HashTables GuardedRuns SharedHosts SharedScreens

/-! ## The last `Joined` -/

/-- The seat that a message gives. -/
def hearSeat (seat : Option (RoomCode × PeerId)) : ServerMessage → Option (RoomCode × PeerId)
  | .joined code pid _ _ _ _ => some (code, pid)
  | _ => seat

/-- The seat that the last `Joined` on a channel gave. -/
def lastSeat (log : List ServerMessage) : Option (RoomCode × PeerId) := log.foldl hearSeat none

theorem lastSeat_concat (log : List ServerMessage) (m : ServerMessage) :
    lastSeat (log ++ [m]) = hearSeat (lastSeat log) m := by
  rw [lastSeat, List.foldl_append]
  rfl

theorem lastSeat_append {log ms : List ServerMessage} (h : ∀ m ∈ ms, isJoined m = false) :
    lastSeat (log ++ ms) = lastSeat log := by
  induction ms using List.reverseRecOn with
  | nil => rw [List.append_nil]
  | append_singleton ms m ih =>
    have hlast : hearSeat (lastSeat (log ++ ms)) m = lastSeat (log ++ ms) := by
      have hm := h m (List.mem_append_right _ List.mem_cons_self)
      cases m with
      | joined => cases hm
      | _ => rfl
    rw [← List.append_assoc, lastSeat_concat, hlast]
    exact ih fun m hm => h m (List.mem_append_left _ hm)

/-! ## What the server sends -/

section
variable {sys : Sys} {a : Action}

theorem tells_not_joined {room : Room} {o : RoomOp} {m : ServerMessage} (h : o.Tells room m) :
    isJoined m = false := by
  cases h <;> rfl

theorem leave_not_joined (env : Env) (server : Server) (session : Option Session) :
    ∀ x ∈ (leaveSession env server session []).2, isJoined x.2 = false := by
  cases session with
  | none => simp [leaveSession]
  | some s =>
    simp only [leaveSession]
    cases hr : server.roomAt s.appKey s.roomCode.key with
    | none => simp [leaveRoom_none hr]
    | some room =>
      rw [leaveRoom_net hr]
      exact fun x hx => tells_not_joined ((RoomOp.leave s.peerId).run_tells env room x hx)

/-- What becomes of the session of the acting connection, with what that connection is answered. -/
inductive Reseated (before : Option Session) : Option Session → List ServerMessage → Prop
  | kept {replies : List ServerMessage} (plain : ∀ m ∈ replies, isJoined m = false) :
      Reseated before before replies
  | gone (replies : List ServerMessage) : Reseated before none replies
  | joined (s : Session) {m : ServerMessage}
      (tells : ∀ seat, hearSeat seat m = some (s.roomCode, s.peerId)) :
      Reseated before (some s) [m]

/-- A `Joined` is only ever sent as the answer that a session begins with. -/
theorem outcome_reseated (sys : Sys) (a : Action) :
    (∀ x ∈ (a.outcome sys).net, isJoined x.2 = false) ∧
      Reseated (sys.session a.conn) (a.outcome sys).session (a.outcome sys).replies := by
  have hleft := leave_not_joined a.env sys.server (sys.session a.conn)
  have hres := a.result sys
  revert hres
  generalize a.outcome sys = out
  intro hres
  cases hres with
  | idle _ plain _ =>
    exact ⟨by simp, .kept fun m hm => (DeliveryOrder.shown_of_isAnswer (plain m hm)).2⟩
  | @read s room s' net replies session _ _ reads =>
    obtain ⟨blob, _, rfl, rfl⟩ | ⟨_, rfl, rfl⟩ := reads
    · refine ⟨?_, session ▸ .kept (by simp)⟩
      intro x hx
      unfold Room.input at hx
      split_ifs at hx
      · cases hlookup : room.clients.lookup room.hostPeerId with
        | none => simp [hlookup] at hx
        | some host =>
          simp only [hlookup, trySend, List.nil_append, List.mem_singleton] at hx
          rw [hx]
          rfl
      · cases hx
    · refine ⟨by simp, session ▸ .kept ?_⟩
      intro m hm
      unfold Room.requestState at hm
      split_ifs at hm
      · cases hm
      · obtain rfl := List.mem_singleton.mp hm
        rfl
  | @op s o room s' session _ _ _ _ =>
    refine ⟨fun x hx => tells_not_joined (o.run_tells a.env room x hx), session ▸ .kept ?_⟩
    exact fun m hm => (DeliveryOrder.shown_of_isAnswer (o.replies_isAnswer a.env room m hm)).2
  | left _ => exact ⟨hleft, .gone _⟩
  | hello _ _ result =>
    cases result with
    | refused _ _ => exact ⟨hleft, .gone _⟩
    | rejected _ _ _ _ _ => exact ⟨hleft, .gone _⟩
    | joined _ _ admitted _ =>
      refine ⟨admitted.sent (Q := fun _ m => isJoined m = false) (fun _ _ _ => rfl) hleft, ?_⟩
      rw [admitted.joined_eq]
      exact .joined _ fun _ => rfl

end

/-! ## All runs -/

/-- Of every session its connection was told, and of no other since. -/
def AllTold (r : Recorded) : Prop :=
  ∀ conn s, r.sys.session conn = some s → lastSeat (r.log conn) = some (s.roomCode, s.peerId)

theorem record_allTold {r : Recorded} {a : Action} (h : AllTold r) (hc : a.env.Clear) :
    AllTold (record r a) := by
  intro conn s hs
  obtain ⟨hnet, hreseated⟩ := outcome_reseated r.sys a
  have hchannel : ∀ m ∈ onChannel conn (a.outcome r.sys).net, isJoined m = false :=
    fun m hm => hnet _ (mem_onChannel hm)
  change lastSeat (r.log conn ++ onChannel conn (a.sent r.sys)) = _
  change Function.update r.sys.session a.conn (a.outcome r.sys).session conn = some s at hs
  rw [onChannel_sent hc, ← List.append_assoc]
  by_cases hconn : conn = a.conn
  · subst hconn
    rw [Function.update_self] at hs
    rw [if_pos rfl]
    revert hs hreseated
    generalize (a.outcome r.sys).session = after
    generalize (a.outcome r.sys).replies = replies
    intro hreseated hs
    cases hreseated with
    | kept plain =>
      rw [lastSeat_append plain, lastSeat_append hchannel]
      exact h _ _ hs
    | gone _ => cases hs
    | joined s' tells =>
      obtain rfl := Option.some.inj hs
      rw [lastSeat_concat]
      exact tells _
  · rw [Function.update_of_ne hconn] at hs
    rw [if_neg hconn, List.append_nil, lastSeat_append hchannel]
    exact h _ _ hs

theorem allTold_reached {r : Recorded} (h : Reaches record (fun _ a => a.env.Clear) .start r) :
    AllTold r := by
  refine h.invariant ?_ fun r a hr hc => record_allTold hr hc
  intro conn s hs
  cases hs

/-! ## What a client shows -/

section
variable {Str : Type} {str : String → Str}

end

end Roomie.SharedSessions
