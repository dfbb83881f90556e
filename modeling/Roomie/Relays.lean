import Roomie.Hearing

/-!
# What the server relays

The purpose of the server is to hand on two kinds of blobs. The state of a room is the blob
of the last `Move` that was accepted in it, and every member is sent the blob of every such
`Move` once; an `Input` goes to the host of the room and to nobody else.
-/

namespace Roomie.Relays
open HashTables GuardedRuns Seats

def isMoveAccepted : ServerMessage → Bool
  | .moveAccepted => true
  | _ => false

def isStateUpdate : ServerMessage → Bool
  | .stateUpdate _ => true
  | _ => false

/-- The answers to a `Move` that was not carried out. -/
def Refusal : ServerMessage → Prop
  | .moveRejected _ | .error _ => True
  | _ => False

/-- The blob of a `Move` that is answered `MoveAccepted`, for the room of the session. -/
def acceptedIn (appKey key : String) (sys : Sys) (a : Action) : List Blob :=
  match a.event, sys.session a.conn with
  | .message (.move blob), some s =>
    if (s.appKey = appKey ∧ s.roomCode.key = key) ∧ (a.outcome sys).replies.any isMoveAccepted then
      [blob] else []
  | _, _ => []

/-- What a `Move` comes to: there is no session, no room, the room refuses, or the room carries
it out and says so. -/
inductive MoveResult (sys : Sys) (a : Action) (blob : Blob) : Outcome → Prop
  | unseated (unseated : sys.session a.conn = none) :
      MoveResult sys a blob ⟨sys.server, none, [], [.error "not in a room"]⟩
  | nowhere {s : Session} (session : sys.session a.conn = some s) :
      MoveResult sys a blob ⟨sys.server, some s, [], []⟩
  | rejected {s : Session} {s' : Server} {reason : String} (session : sys.session a.conn = some s)
      (same : SameRooms sys.server s') :
      MoveResult sys a blob ⟨s', some s, [], [.moveRejected reason]⟩
  | accepted {s : Session} {room : Room} {s' : Server} (session : sys.session a.conn = some s)
      (found : sys.roomAt s.appKey s.roomCode.key = some room)
      (host : room.hostPeerId = s.peerId ∧ room.moveAllowed = true)
      (put : RoomPut sys.server s.appKey s.roomCode.key
        (some ((RoomOp.move s.peerId blob).run a.env room []).1) s') :
      MoveResult sys a blob
        ⟨s', some s, ((RoomOp.move s.peerId blob).run a.env room []).2, [.moveAccepted]⟩

theorem move_result (sys : Sys) {a : Action} {blob : Blob} (event : a.event = .message (.move blob)) :
    MoveResult sys a blob (a.outcome sys) := by
  simp only [Action.outcome, event]
  cases hs : sys.session a.conn with
  | none => exact .unseated hs
  | some s =>
    simp only [dispatch]
    cases hr : sys.server.roomAt s.appKey s.roomCode.key with
    | none =>
      rw [inRoom_none hr]
      exact .nowhere hs
    | some room =>
      have hput := Server.roomPut_setRoom hr
        ((RoomOp.move s.peerId blob).run a.env room []).1
      have hsame := sameRooms_setRoom hr
      rw [inRoom_some hr]
      by_cases hh : room.hostPeerId = s.peerId
      · cases hm : room.moveAllowed with
        | true =>
          have hmove : (room.move a.env s.peerId blob []).2.2 = [.moveAccepted] := by
            simp [Room.move, hh, hm]
          rw [hmove]
          exact .accepted hs hr ⟨hh, hm⟩ hput
        | false =>
          simp only [Room.move, hh, hm, ne_eq, not_true_eq_false, if_false, Bool.not_false, if_true]
          exact .rejected hs hsame
      · simp only [Room.move, ne_eq, hh, not_false_eq_true, if_true]
        exact .rejected hs hsame

/-! ## The state of a room -/

/-- The action removes the room under this code; a new one may take its place at once. -/
def removes (a : Action) (sys : Sys) (appKey key : String) : Bool :=
  match a.op sys with
  | some (s, .leave pid) => decide (s.appKey = appKey ∧ s.roomCode.key = key ∧ pid = s.peerId) &&
      (sys.roomAt appKey key).any fun room => (room.removePeer a.env s.peerId []).1.isVacant
  | _ => false

theorem removes_iff {a : Action} {sys : Sys} {appKey key : String} :
    removes a sys appKey key = true ↔ a.Removes sys appKey key := by
  unfold removes Action.Removes
  split
  · rename_i s pid hop
    simp only [Bool.and_eq_true, decide_eq_true_eq, Option.any_eq_true, hop, Option.some.injEq,
      Prod.mk.injEq, RoomOp.leave.injEq]
    constructor
    · rintro ⟨⟨ha, hk, hp⟩, room, hr, hv⟩
      exact ⟨s, room, ⟨rfl, hp⟩, ha, hk, hr, hv⟩
    · rintro ⟨s', room, ⟨rfl, hp⟩, ha, hk, hr, hv⟩
      exact ⟨⟨ha, hk, hp⟩, room, hr, hv⟩
  · rename_i hno
    simp only [Bool.false_eq_true, false_iff]
    rintro ⟨s, room, hop, _⟩
    exact hno _ _ hop

/-- A system with the blobs of the `Move`s accepted in the life of each room. -/
structure Tracked where
  sys : Sys
  moves : String → String → List Blob

def Tracked.start : Tracked := ⟨.start, fun _ _ => []⟩

def track (t : Tracked) (a : Action) : Tracked :=
  ⟨step t.sys a, fun appKey key =>
    (if removes a t.sys appKey key then [] else t.moves appKey key) ++ acceptedIn appKey key t.sys a⟩

/-- Operations that are no `Move`. -/
def NoMove (o : RoomOp) : Prop := ∀ pid blob, o ≠ .move pid blob

theorem edit_state {o : RoomOp} (h : NoMove o) (room : Room) : (o.edit room).state = room.state := by
  cases o with
  | leave pid => rfl
  | move pid blob => exact absurd rfl (h pid blob)
  | control pid rc =>
    simp only [RoomOp.edit]
    split_ifs
    · cases rc with
      | acceptPeer target => simp only [RoomControl.edit]; split <;> rfl
      | ban target => simp only [RoomControl.edit]; split <;> rfl
      | transferHost target => simp only [RoomControl.edit]; split <;> rfl
      | _ => rfl
    · rfl

/-- As long as nobody moves a room keeps its state. -/
theorem life_state {env : Env} {room room' : Room}
    (h : RoomLife env (fun _ => NoMove) room room') : room'.state = room.state := by
  induction h with
  | refl room => rfl
  | @op room o net allowed =>
    exact (o.run_shrunkTo env room net).data.state.trans (edit_state allowed room)
  | count room n => rfl
  | admitPeer _ admitted => exact admitted.data.1
  | trans _ _ ih ih' => exact ih'.trans ih

/-- A room that was not there before has the empty state. -/
theorem change_state {env : Env} {r r' : Option Room}
    (h : RoomChange env (fun _ => NoMove) r r') {room' : Room} (hr' : r' = some room') :
    room'.state = [] ∨ ∃ room, r = some room ∧ room'.state = room.state := by
  induction h generalizing room' with
  | refl r => exact .inr ⟨room', hr', rfl⟩
  | life hl =>
    obtain rfl := Option.some.inj hr'
    exact .inr ⟨_, rfl, life_state hl⟩
  | destroy => cases hr'
  | create =>
    obtain rfl := Option.some.inj hr'
    exact .inl rfl
  | trans _ _ ih ih' =>
    rcases ih' hr' with h | ⟨mid, hmid, h⟩
    · exact .inl h
    · rw [h]
      exact ih hmid

/-- An action that leaves is a disconnect, a `Leave`, or a `Hello`. -/
theorem leave_outcome {a : Action} {sys : Sys} {s : Session}
    (hop : a.op sys = some (s, .leave s.peerId)) : sys.session a.conn = some s ∧
      ((a.outcome sys).server = (leaveSession a.env sys.server (some s) []).1 ∨
        ∃ h, HelloResult a.env a.conn h (leaveSession a.env sys.server (some s) []).1
          (leaveSession a.env sys.server (some s) []).2 (a.outcome sys)) := by
  unfold Action.op at hop
  split at hop
  · rename_i s' event hs
    obtain ⟨rfl, -⟩ := Prod.mk.inj (Option.some.inj hop)
    exact ⟨hs, .inl (by simp only [Action.outcome, event, hs])⟩
  · rename_i h s' event hs
    obtain ⟨rfl, -⟩ := Prod.mk.inj (Option.some.inj hop)
    refine ⟨hs, .inr ⟨h, ?_⟩⟩
    simp only [Action.outcome, event, dispatch, hs]
    exact dispatchHello_result a.env sys.server (some s') a.conn h
  · rename_i s' event hs
    obtain ⟨rfl, -⟩ := Prod.mk.inj (Option.some.inj hop)
    exact ⟨hs, .inl (by
      simp only [Action.outcome, event, dispatch, hs, dispatchRoomControl, leaveSession])⟩
  all_goals simp at hop

/-- The leave removes the room. -/
theorem removes_gone {a : Action} {sys : Sys} {appKey key : String}
    (h : a.Removes sys appKey key) :
    (leaveSession a.env sys.server (sys.session a.conn) []).1.roomAt appKey key = none := by
  obtain ⟨s, room, hop, rfl, rfl, hr, hv⟩ := h
  rw [Action.op_session hop, leaveSession, (leaveRoom_roomPut _ _ _ hr).here, leftBehind, if_pos hv]

/-- What is found in the place of a room that was removed is new. -/
theorem removed_state {a : Action} {sys : Sys} {appKey key : String} {room' : Room}
    (h : a.Removes sys appKey key) (hr' : (step sys a).roomAt appKey key = some room') :
    room'.state = [] := by
  have hgone := removes_gone h
  obtain ⟨s, _, hop, rfl, rfl, _⟩ := h
  rw [Action.op_session hop] at hgone
  change (a.outcome sys).server.roomAt s.appKey s.roomCode.key = some room' at hr'
  rcases (leave_outcome hop).2 with hout | ⟨h, hres⟩
  · rw [hout, hgone] at hr'
    cases hr'
  · have hchange : RoomChange a.env (fun _ => NoMove) _ _ := hres.change s.appKey s.roomCode.key
    rw [hgone, hr'] at hchange
    rcases change_state hchange rfl with h | ⟨_, ⟨⟩, _⟩
    exact h

theorem noMove_of_event {a : Action} (sys : Sys) (h : ∀ blob, a.event ≠ .message (.move blob)) :
    OpGuard (fun _ _ => NoMove) sys a := by
  rintro s o room hop _ pid blob rfl
  unfold Action.op at hop
  split at hop
  case h_6 event _ => exact h _ event
  all_goals simp at hop

/-- The state is the last blob; where there is no room there are no blobs. -/
def Follows (t : Tracked) : Prop :=
  ∀ appKey key,
    (∀ room, t.sys.roomAt appKey key = some room →
      room.state = (t.moves appKey key).getLast?.getD []) ∧
    (t.sys.roomAt appKey key = none → t.moves appKey key = [])

theorem acceptedIn_of_not_move {a : Action} {sys : Sys}
    (h : ∀ blob, a.event ≠ .message (.move blob)) (appKey key : String) :
    acceptedIn appKey key sys a = [] := by
  unfold acceptedIn
  split
  · rename_i blob s event _
    exact absurd event (h blob)
  · rfl

theorem removes_of_move {a : Action} {sys : Sys} {blob : Blob}
    (event : a.event = .message (.move blob)) (appKey key : String) :
    removes a sys appKey key = false := by
  unfold removes Action.op
  cases hs : sys.session a.conn <;> simp [event]

/-- The state after a `Move` that was carried out. -/
theorem move_state {env : Env} {room : Room} {pid : PeerId} {blob : Blob}
    (h : room.hostPeerId = pid ∧ room.moveAllowed = true) (net : Net) :
    ((RoomOp.move pid blob).run env room net).1.state = blob := by
  rw [((RoomOp.move pid blob).run_shrunkTo env room net).data.state, RoomOp.edit, if_pos h]

theorem track_follows {t : Tracked} (a : Action) (h : Follows t) : Follows (track t a) := by
  intro appKey key
  obtain ⟨hsome, hnone⟩ := h appKey key
  by_cases hm : ∃ blob, a.event = .message (.move blob)
  · obtain ⟨blob, event⟩ := hm
    have hmoves : (track t a).moves appKey key =
        t.moves appKey key ++ acceptedIn appKey key t.sys a := by
      simp [track, removes_of_move event]
    have hroom : (track t a).sys.roomAt appKey key =
        (a.outcome t.sys).server.roomAt appKey key := rfl
    rw [hmoves, hroom]
    have hres := move_result t.sys event
    unfold acceptedIn
    rw [event]
    revert hres
    generalize a.outcome t.sys = out
    intro hres
    cases hres with
    | unseated hs => simpa [hs, Sys.roomAt] using h appKey key
    | nowhere hs => simpa [hs, Sys.roomAt, isMoveAccepted] using h appKey key
    | rejected hs same => simpa [hs, Sys.roomAt, isMoveAccepted, same appKey key] using h appKey key
    | @accepted s room s' hs found host put =>
      simp only [hs, List.any_cons, isMoveAccepted, Bool.true_or, and_true]
      by_cases hk : appKey = s.appKey ∧ key = s.roomCode.key
      · obtain ⟨rfl, rfl⟩ := hk
        rw [put.here]
        refine ⟨?_, by simp⟩
        rintro _ ⟨rfl⟩
        simp [move_state host]
      · have hk' : ¬ (s.appKey = appKey ∧ s.roomCode.key = key) :=
          fun heq => hk ⟨heq.1.symm, heq.2.symm⟩
        rw [put.elsewhere hk, if_neg hk', List.append_nil]
        exact h appKey key
  · have hm' : ∀ blob, a.event ≠ .message (.move blob) := fun blob event => hm ⟨blob, event⟩
    have hg := noMove_of_event t.sys hm'
    simp only [track, acceptedIn_of_not_move hm', List.append_nil]
    split_ifs with hrem
    · exact ⟨fun room hr => removed_state (removes_iff.mp hrem) hr, fun _ => rfl⟩
    · rw [removes_iff] at hrem
      cases hr : t.sys.roomAt appKey key with
      | some room =>
        obtain ⟨room', hr', hl⟩ := step_life hg hr hrem
        rw [hr']
        refine ⟨?_, by simp⟩
        rintro _ ⟨rfl⟩
        exact (life_state hl).trans (hsome room hr)
      | none =>
        rw [hnone hr]
        refine ⟨fun room' hr' => ?_, fun _ => rfl⟩
        have hchange := step_change hg appKey key
        rw [hr] at hchange
        rcases change_state hchange hr' with h | ⟨_, ⟨⟩, _⟩
        exact h

theorem follows {t : Tracked} (h : Reaches track (fun _ _ => True) .start t) : Follows t := by
  refine h.invariant (fun appKey key => ⟨fun room hr => ?_, fun _ => rfl⟩)
    fun t a ht _ => track_follows a ht
  simp [Tracked.start, Sys.roomAt, Sys.start, Server.start, Server.roomAt] at hr

/-! ## One `Move` and one `Input` -/

theorem refused_unchanged {sys : Sys} {a : Action} {blob : Blob}
    (event : a.event = .message (.move blob))
    (h : ∃ m ∈ (a.outcome sys).replies, Refusal m) :
    SameRooms sys.server (step sys a).server ∧ (a.outcome sys).net = [] := by
  change SameRooms sys.server (a.outcome sys).server ∧ _
  have hres := move_result sys event
  revert h hres
  generalize a.outcome sys = out
  intro h hres
  cases hres with
  | unseated _ => exact ⟨fun _ _ => rfl, rfl⟩
  | nowhere _ => exact ⟨fun _ _ => rfl, rfl⟩
  | rejected _ same => exact ⟨same, rfl⟩
  | accepted _ _ _ _ => simp [Refusal] at h

/-- Over clear channels every member hears the blob of a `Move` that is carried out. -/
theorem move_heard {env : Env} {room : Room} {pid : PeerId} {blob : Blob} (hc : env.Clear)
    (hd : room.Disjoint) (h1 : room.OneSeat)
    (host : room.hostPeerId = pid ∧ room.moveAllowed = true) {p : PeerId} {i : ClientInfo}
    (hm : room.HasMember p i) :
    onChannel i.tx ((RoomOp.move pid blob).run env room []).2 = [.stateUpdate blob] := by
  have hafter : (RoomOp.move pid blob).after env room = { room with state := blob } := by
    rw [RoomOp.after, RoomOp.edit, if_pos host]
    exact fun _ h => RoomOp.noConfusion h
  rw [hc.run, List.nil_append]
  rcases hm with hm | hm
  · rw [RoomOp.heard_by_client hd h1 (by rw [hafter]; exact hm), RoomOp.news, if_pos host]
  · rw [RoomOp.heard_by_pending hd h1 (by rw [hafter]; exact hm), RoomOp.pendingNews, if_pos host]

theorem move_unheard {env : Env} {room : Room} {o : RoomOp} (hc : env.Clear)
    (hd : room.Disjoint) {tx : ConnId} (h : ∀ p i, room.HasMember p i → i.tx ≠ tx) :
    onChannel tx (o.run env room []).2 = [] := by
  rw [hc.run, List.nil_append]
  exact RoomOp.heard_outside hd h

/-- A `Move` that is answered `MoveAccepted` reaches every member of the room once. -/
theorem accepted_heard {sys : Sys} {a : Action} {blob : Blob} (hsys : Reachable sys)
    (hc : a.env.Clear) (event : a.event = .message (.move blob))
    (h : .moveAccepted ∈ (a.outcome sys).replies) :
    ∃ s room, sys.session a.conn = some s ∧ sys.roomAt s.appKey s.roomCode.key = some room ∧
      (∀ p i, room.HasMember p i → onChannel i.tx (a.sent sys) =
        .stateUpdate blob :: if i.tx = a.conn then [.moveAccepted] else []) ∧
      ∀ tx, (∀ p i, room.HasMember p i → i.tx ≠ tx) →
        onChannel tx (a.sent sys) = if tx = a.conn then [.moveAccepted] else [] := by
  have hres := move_result sys event
  simp only [onChannel_sent hc]
  revert h hres
  generalize a.outcome sys = out
  intro h hres
  cases hres with
  | unseated _ => simp at h
  | nowhere _ => simp at h
  | rejected _ _ => simp at h
  | @accepted s room s' hs found host put =>
    have hd := reachable_disjoint hsys found
    have h1 := (seated hsys).oneSeat found
    refine ⟨s, room, hs, found, fun p i hm => ?_, fun tx hout => ?_⟩
    · rw [move_heard hc hd h1 host hm]
      rfl
    · rw [move_unheard hc hd hout, List.nil_append]

/-- An `Input` of a peer that is not the host is one message, to the host if it is a client. -/
theorem input_sent {sys : Sys} {a : Action} {blob : Blob} {s : Session} {room : Room}
    (hc : a.env.Clear) (event : a.event = .message (.input blob))
    (hs : sys.session a.conn = some s) (hr : sys.roomAt s.appKey s.roomCode.key = some room)
    (hhost : s.peerId ≠ room.hostPeerId) :
    a.sent sys = (room.clients.lookup room.hostPeerId).toList.map
      fun host => (host.tx, .peerInput s.peerId blob) := by
  have hr' : sys.server.roomAt s.appKey s.roomCode.key = some room := hr
  rw [Action.sent, hc.delivered, Action.attempts, Action.outcome, event]
  simp only [dispatch, hs, inRoom_some hr', sendReplies, List.map_nil, List.append_nil, Room.input,
    if_pos (Ne.symm hhost)]
  cases room.clients.lookup room.hostPeerId <;> simp [trySend]

/-! ## Members throughout -/

/-- The `StateUpdate`s a channel receives from `Move`s in the course of a list of actions. -/
def movesHeard (tx : ConnId) : Sys → List Action → List ServerMessage
  | _, [] => []
  | sys, a :: as =>
    (match a.event with
      | .message (.move _) => (onChannel tx (a.sent sys)).filter isStateUpdate
      | _ => []) ++ movesHeard tx (step sys a) as

/-- The blobs of the accepted `Move`s of a room in the course of a list of actions. -/
def acceptedAlong (appKey key : String) : Sys → List Action → List Blob
  | _, [] => []
  | sys, a :: as => acceptedIn appKey key sys a ++ acceptedAlong appKey key (step sys a) as

/-- `p` is a member of the room, reached over the channel of `i`, all the way. -/
def MemberAlong (appKey key : String) (p : PeerId) (i : ClientInfo) : Sys → List Action → Prop
  | sys, [] => ∃ room, sys.roomAt appKey key = some room ∧ room.HasMember p i
  | sys, a :: as => (∃ room, sys.roomAt appKey key = some room ∧ room.HasMember p i) ∧
      MemberAlong appKey key p i (step sys a) as

theorem filter_answer (tx me : ConnId) (answer : ServerMessage) (h : isStateUpdate answer = false) :
    (if tx = me then [answer] else []).filter isStateUpdate = [] := by
  split_ifs <;> simp [h]

/-- A member hears from a `Move` what was accepted in its room. -/
theorem move_heard_accepted {sys : Sys} {a : Action} {blob : Blob} (hsys : Reachable sys)
    (hc : a.env.Clear) (event : a.event = .message (.move blob)) {appKey key : String} {room : Room}
    (hr : sys.roomAt appKey key = some room) {p : PeerId} {i : ClientInfo}
    (hm : room.HasMember p i) : (onChannel i.tx (a.sent sys)).filter isStateUpdate =
      (acceptedIn appKey key sys a).map .stateUpdate := by
  have hres := move_result sys event
  rw [onChannel_sent hc]
  unfold acceptedIn
  rw [event]
  revert hres
  generalize a.outcome sys = out
  intro hres
  cases hres with
  | unseated hs => simp [hs, filter_answer i.tx a.conn (.error _) rfl]
  | nowhere hs => simp [hs]
  | rejected hs _ =>
    simp [hs, isMoveAccepted, filter_answer i.tx a.conn (.moveRejected _) rfl]
  | @accepted s own s' hs found host put =>
    have hd := allDisjoint_of_reachable hsys
    have hown := filter_answer i.tx a.conn .moveAccepted rfl
    rw [List.filter_append, hown, List.append_nil]
    by_cases hk : appKey = s.appKey ∧ key = s.roomCode.key
    · obtain ⟨rfl, rfl⟩ := hk
      obtain rfl := Option.some.inj (found.symm.trans hr)
      rw [move_heard hc (hd _ _ _ hr) ((seated hsys).oneSeat hr) host hm]
      simp [hs, isStateUpdate, isMoveAccepted]
    · have hk' : ¬ (s.appKey = appKey ∧ s.roomCode.key = key) :=
        fun heq => hk ⟨heq.1.symm, heq.2.symm⟩
      rw [heard_elsewhere (seated hsys) hd hc found hk hr hm]
      simp [hs, hk']

/-- Who stays a member receives exactly the accepted `Move`s of its room, in order. -/
theorem moves_heard {sys : Sys} {as : List Action} (hsys : Reachable sys)
    (hc : Along step (fun _ a => a.env.Clear) sys as) {appKey key : String} {p : PeerId}
    {i : ClientInfo} (hm : MemberAlong appKey key p i sys as) :
    movesHeard i.tx sys as = (acceptedAlong appKey key sys as).map .stateUpdate := by
  induction as generalizing sys with
  | nil => rfl
  | cons a as ih =>
    obtain ⟨room, hr, hin⟩ := hm.1
    rw [movesHeard, acceptedAlong, List.map_append, ih (hsys.tail a trivial) hc.2 hm.2]
    congr 1
    split
    · rename_i blob event
      exact move_heard_accepted hsys hc.1 event hr hin
    · rename_i hno
      rw [acceptedIn_of_not_move hno, List.map_nil]

/-- The state of a room is the last accepted `Move`; a refused `Move` changes nothing and tells
nobody; an accepted one reaches every member once and nobody else, so members hear the same; an
`Input` reaches the host alone. -/
theorem relay_correct :
    (∀ t, Reaches track (fun _ _ => True) .start t → ∀ appKey key room,
      t.sys.roomAt appKey key = some room →
        room.state = (t.moves appKey key).getLast?.getD []) ∧
    (∀ (sys : Sys) (a : Action) blob, a.event = .message (.move blob) →
      (∃ m ∈ (a.outcome sys).replies, Refusal m) →
        SameRooms sys.server (step sys a).server ∧ (a.outcome sys).net = []) ∧
    (∀ (sys : Sys) (a : Action) blob, Reachable sys → a.env.Clear →
      a.event = .message (.move blob) →
      .moveAccepted ∈ (a.outcome sys).replies →
      ∃ s room, sys.session a.conn = some s ∧ sys.roomAt s.appKey s.roomCode.key = some room ∧
        (∀ p i, room.HasMember p i → onChannel i.tx (a.sent sys) =
          .stateUpdate blob :: if i.tx = a.conn then [.moveAccepted] else []) ∧
        ∀ tx, (∀ p i, room.HasMember p i → i.tx ≠ tx) →
          onChannel tx (a.sent sys) = if tx = a.conn then [.moveAccepted] else []) ∧
    (∀ sys as appKey key p i q j, Reachable sys →
      Along step (fun _ a => a.env.Clear) sys as → MemberAlong appKey key p i sys as →
      MemberAlong appKey key q j sys as →
        movesHeard i.tx sys as = (acceptedAlong appKey key sys as).map .stateUpdate ∧
          movesHeard i.tx sys as = movesHeard j.tx sys as) ∧
    (∀ (sys : Sys) (a : Action) blob s room, a.env.Clear → a.event = .message (.input blob) →
      sys.session a.conn = some s → sys.roomAt s.appKey s.roomCode.key = some room →
      s.peerId ≠ room.hostPeerId → a.sent sys =
        (room.clients.lookup room.hostPeerId).toList.map
          fun host => (host.tx, .peerInput s.peerId blob)) := by
  refine ⟨fun t h appKey key => (follows h appKey key).1, fun _ _ _ => refused_unchanged,
    fun _ _ _ => accepted_heard, ?_, fun _ _ _ _ _ => input_sent⟩
  intro sys as appKey key p i q j hsys hc hp hq
  have hi := moves_heard hsys hc hp
  exact ⟨hi, hi.trans (moves_heard hsys hc hq).symm⟩

/-- A host and a guest, and a `Move`. -/
def opening : List Action :=
  [sends 0 (plainHello "" "h"), sends 1 (plainHello "aaaaaa" "x"), sends 0 (.move [7])]

theorem opening_relayed :
    (∃ room, (exec track .start opening).sys.roomAt "pong" "aaaaaa" = some room ∧
      room.state = [7]) ∧
    movesHeard 1 (exec step .start (opening.take 2)) [sends 0 (.move [7])] = [.stateUpdate [7]] := by
  have hmember : ∀ sys : Sys, ((sys.roomAt "pong" "aaaaaa").any fun room =>
      room.clients.lookup 2 == some ⟨⟨"x"⟩, none, 1, 1⟩) = true →
      ∃ room, sys.roomAt "pong" "aaaaaa" = some room ∧ room.HasMember 2 ⟨⟨"x"⟩, none, 1, 1⟩ := by
    intro sys hany
    obtain ⟨room, hr, hi⟩ := (Option.any_eq_true ..).mp hany
    exact ⟨room, hr, .inl (beq_iff_eq.mp hi)⟩
  constructor
  · have hreach : Reaches track (fun _ _ => True) .start (exec track .start opening) :=
      Reaches.exec .refl ⟨trivial, trivial, trivial, trivial⟩
    have hrun : ((exec track .start opening).sys.roomAt "pong" "aaaaaa").isSome = true := by decide
    obtain ⟨room, hr⟩ := Option.isSome_iff_exists.mp hrun
    refine ⟨room, hr, (relay_correct.1 _ hreach _ _ room hr).trans ?_⟩
    decide
  · have hsys := reachable_exec (opening.take 2)
    have hstays : MemberAlong "pong" "aaaaaa" 2 ⟨⟨"x"⟩, none, 1, 1⟩
        (exec step .start (opening.take 2)) [sends 0 (.move [7])] :=
      ⟨hmember _ (by decide), hmember _ (by decide)⟩
    have hheard := (relay_correct.2.2.2.1 _ [sends 0 (.move [7])] _ _ 2 _ 2 _ hsys
      ⟨Env.quiet_clear, trivial⟩ hstays hstays).1
    exact hheard.trans (congrArg _ (by decide : acceptedAlong "pong" "aaaaaa"
      (exec step .start (opening.take 2)) [sends 0 (.move [7])] = [[7]]))

end Roomie.Relays
