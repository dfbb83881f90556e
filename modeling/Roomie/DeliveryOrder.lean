import Roomie.DelayedReplies

/-!
# When the delivery order matches the room order

What is enqueued under the lock may overtake the replies that are in flight. For a member this
matters in two cases: its `Joined` is in flight and something else is sent to it, or an answer
with the state is in flight and the state changes. As long as neither happens the order holds.
-/

namespace Roomie.DeliveryOrder
open HashTables GuardedRuns Seats Histories Relays

def JoinedWaits (d : Delayed) (tx : ConnId) : Prop := ∃ e ∈ d.inflight tx, isJoined e.1 = true

def StateWaits (d : Delayed) (tx : ConnId) : Prop := ∃ e ∈ d.inflight tx, shown e.1 ≠ none

/-- The operation broadcasts to the member and does not take it out. -/
def NewsFor (room : Room) (p : PeerId) (o : RoomOp) : Prop :=
  Hosts.Broadcasts room o ∧
    (p ∈ room.clients ∧ o ≠ .leave p ∧ o ≠ .control room.hostPeerId (.kick p) ∧
        o ≠ .control room.hostPeerId (.ban p) ∨
      p ∈ room.pending ∧
        ((∃ pid blob, o = .move pid blob) ∨ o = .control room.hostPeerId (.acceptPeer p)))

/-- The operation has nothing for members whose `Joined` is in flight, and it is no `Move` that is
carried out while an answer with the state is in flight to a member. -/
structure Patient (d : Delayed) (room : Room) (o : RoomOp) : Prop where
  joined : ∀ p i, room.HasMember p i → JoinedWaits d i.tx → ¬ NewsFor room p o
  state : ∀ pid blob, o = .move pid blob → room.hostPeerId = pid → room.moveAllowed = true →
    ∀ p i, room.HasMember p i → ¬ StateWaits d i.tx

/-- The action comes in turn: over clear channels, with an operation that is patient; no `Input`
is relayed to a host and nobody is let in next to a client whose `Joined` is in flight. -/
structure InTurn (d : Delayed) (a : Action) : Prop where
  clear : a.env.Clear
  op : OpGuard (fun _ => Patient d) d.sys a
  input : ∀ blob s room i, a.event = .message (.input blob) → d.sys.session a.conn = some s →
    d.sys.roomAt s.appKey s.roomCode.key = some room → s.peerId ≠ room.hostPeerId →
    room.clients.lookup room.hostPeerId = some i → ¬ JoinedWaits d i.tx
  hello : ∀ h s₁ room, a.event = .message (.hello h) →
    helloGate a.env (leaveSession a.env d.sys.server (d.sys.session a.conn) []).1 h = .ok s₁ →
    d.sys.roomAt h.appKey h.roomCode.key = some room → ¬ room.Refuses h →
    room.settings.acceptRequired = false →
    ∀ p i, room.clients.lookup p = some i → ¬ JoinedWaits d i.tx

/-- Actions that find the replies of their connection in flight do not happen yet. -/
def Turnwise (d : Delayed) : Happening → Prop
  | .dispatch a => d.inflight a.conn = [] → InTurn d a
  | .reply _ => True

/-! ## One channel -/

/-- What the queue of a member will hold once its replies are enqueued. -/
structure Served (moves : List Blob) (queue inflight : List Stamped) : Prop where
  first : ∃ e, (queue ++ inflight).head? = some e ∧ isJoined e.1 = true
  alone : (∃ e ∈ inflight, isJoined e.1 = true) → queue = []
  states : UpToDate [] moves (states (queue ++ inflight))

section
variable {moves moves' : List Blob} {queue inflight ms : List Stamped}

/-- The first message stays the first one. -/
theorem Served.head_append (h : Served moves queue inflight)
    (hm : (∃ e ∈ inflight, isJoined e.1 = true) → ms = []) :
    ∃ e, (queue ++ ms ++ inflight).head? = some e ∧ isJoined e.1 = true := by
  obtain ⟨e, he, hj⟩ := h.first
  refine ⟨e, ?_, hj⟩
  cases queue with
  | cons q rest => exact he
  | nil =>
    have hin : e ∈ inflight := List.mem_of_mem_head? he
    rw [hm ⟨e, hin, hj⟩]
    exact he

/-- Something arrives before the replies in flight. -/
theorem Served.hear (h : Served moves queue inflight)
    (hm : (∃ e ∈ inflight, isJoined e.1 = true) → ms = [])
    (hs : Roomie.states inflight = [] ∨ Roomie.states ms = [])
    (hnow : UpToDate [] moves' (Roomie.states (queue ++ inflight) ++ Roomie.states ms)) :
    Served moves' (queue ++ ms) inflight := by
  refine ⟨h.head_append hm, fun hj => ?_, ?_⟩
  · rw [hm hj, List.append_nil]
    exact h.alone hj
  · rw [states_append] at hnow
    rw [states_append, states_append]
    rcases hs with hs | hs
    · rw [hs, List.append_nil] at hnow ⊢
      exact hnow
    · rw [hs, List.append_nil] at hnow ⊢
      exact hnow

/-- Replies come up, and none is a `Joined`. -/
theorem Served.answered (h : Served moves queue []) {replies : List Stamped}
    (hj : ∀ e ∈ replies, isJoined e.1 = false)
    (hnow : UpToDate [] moves (Roomie.states queue ++ Roomie.states replies)) :
    Served moves queue replies := by
  refine ⟨?_, ?_, by rwa [states_append]⟩
  · obtain ⟨e, he, hje⟩ := h.first
    rw [List.append_nil] at he
    refine ⟨e, ?_, hje⟩
    rw [List.head?_append, he, Option.some_or]
  · rintro ⟨e, he, hje⟩
    rw [hj e he] at hje
    cases hje

theorem Served.flushed (h : Served moves queue inflight) : Served moves (queue ++ inflight) [] := by
  refine ⟨by simpa using h.first, ?_, by simpa using h.states⟩
  rintro ⟨e, he, _⟩
  cases he

/-- The queue as it is obeys the law. -/
theorem Served.orderly {d : Delayed} {appKey key : String} {room : Room} {tx : ConnId}
    (h : Served (d.tracked.moves appKey key) (d.queue tx) (d.inflight tx))
    (hstate : room.state = (d.tracked.moves appKey key).getLast?.getD []) :
    Orderly d appKey key room tx := by
  refine ⟨fun e he => ?_, ?_, fun hidle => ?_⟩
  · obtain ⟨e', he', hj⟩ := h.first
    rw [List.head?_append, Option.mem_def.mp he, Option.some_or] at he'
    obtain rfl := Option.some.inj he'
    exact hj
  · have hall := h.states.toFaithful
    rw [states_append] at hall
    exact hall.of_append
  · have hlast := h.states.last
    rw [hidle tx, List.append_nil] at hlast
    rw [hlast, hstate, valueAt_length]
    rfl

end

/-! ## One operation -/

section
variable {env : Env} {room : Room} {o : RoomOp} {p : PeerId} {i : ClientInfo}

theorem silent_of_not_broadcasts (h : ¬ Hosts.Broadcasts room o) :
    o.news env room = [] ∧ o.pendingNews room = [] := by
  cases o with
  | leave pid => exact absurd trivial h
  | move pid blob => exact ⟨if_neg h, if_neg h⟩
  | control pid rc =>
    refine ⟨?_, rfl⟩
    simp only [RoomOp.news]
    split_ifs with hh
    · have hrc : ∀ {q : Prop}, ¬ (room.hostPeerId = pid ∧ q) → ¬ q := fun h hq => h ⟨hh, hq⟩
      cases rc with
      | acceptPeer target =>
        simp only
        rw [AList.lookup_eq_none.mpr (hrc h)]
        rfl
      | transferHost target => exact if_neg (hrc h)
      | updateSettings settings => exact absurd trivial (hrc h)
      | kick target => exact absurd trivial (hrc h)
      | ban target => exact absurd trivial (hrc h)
      | _ => rfl
    · rfl

/-- A client that is left was not taken out. -/
theorem kept_of_client (h : (o.after env room).clients.lookup p = some i) :
    o ≠ .leave p ∧ o ≠ .control room.hostPeerId (.kick p) ∧
      o ≠ .control room.hostPeerId (.ban p) := by
  rw [RoomOp.after_clients] at h
  have herase : ∀ members : Members, (members.erase p).lookup p ≠ some i :=
    fun members hp => (AList.lookup_erase_some.mp hp).1 rfl
  refine ⟨?_, ?_, ?_⟩
  · rintro rfl
    exact herase _ h
  · rintro rfl
    rw [RoomOp.edit, if_pos rfl] at h
    exact herase _ h
  · rintro rfl
    rw [RoomOp.edit, if_pos rfl] at h
    simp only [RoomControl.edit] at h
    cases hp : room.clients.lookup p with
    | none =>
      rw [hp] at h
      cases hp.symm.trans h
    | some info =>
      rw [hp] at h
      exact herase _ h

/-- A client hears of an operation that broadcasts. -/
theorem newsFor_client (hd : room.Disjoint) (hb : Hosts.Broadcasts room o)
    (h : (o.after env room).clients.lookup p = some i) : NewsFor room p o := by
  rcases RoomOp.after_hasMember (.inl h) with hc | hp
  · exact ⟨hb, .inl ⟨AList.mem_of_lookup hc, kept_of_client h⟩⟩
  · have hpending := AList.mem_of_lookup hp
    exact ⟨hb, .inr ⟨hpending, .inr (RoomOp.accepted_of_client hd hpending (AList.mem_of_lookup h))⟩⟩

theorem news_unheard (hd : room.Disjoint) (hn : ¬ NewsFor room p o)
    (h : (o.after env room).clients.lookup p = some i) : o.news env room = [] :=
  (silent_of_not_broadcasts fun hb => hn (newsFor_client hd hb h)).1

theorem pendingNews_unheard (hn : ¬ NewsFor room p o)
    (h : (o.after env room).pending.lookup p = some i) : o.pendingNews room = [] := by
  cases o with
  | move pid blob =>
    have hpending := AList.mem_of_lookup (RoomOp.after_pending_lookup h)
    exact if_neg fun hb => hn ⟨hb, .inr ⟨hpending, .inl ⟨pid, blob, rfl⟩⟩⟩
  | _ => rfl

/-- Only a `Move` shows a state. -/
theorem news_show_nothing (h : NoMove o) : ∀ m ∈ o.news env room, shown m = none := by
  cases o with
  | leave pid =>
    simp only [RoomOp.news]
    cases (room.dropMember pid).heir env pid <;> simp [shown]
  | move pid blob => exact absurd rfl (h pid blob)
  | control pid rc =>
    simp only [RoomOp.news]
    split_ifs
    · cases rc with
      | acceptPeer target =>
        simp only
        cases room.pending.lookup target <;> simp [shown]
      | transferHost target =>
        simp only
        split_ifs <;> simp [shown]
      | _ => simp [shown]
    · simp

theorem pendingNews_of_noMove (h : NoMove o) : o.pendingNews room = [] := by
  cases o with
  | move pid blob => exact absurd rfl (h pid blob)
  | _ => rfl

end

/-! ## One action -/

section
variable {sys : Sys} {a : Action} {appKey key : String} {room' : Room} {p : PeerId}
  {i : ClientInfo} {m : ServerMessage}

/-- A `Joined` is only ever the answer to a `Hello` that passed the checks before any room. -/
theorem emitted_joined (h : Emitted sys a m) (hj : isJoined m = true) :
    ∃ hello s₁, a.event = .message (.hello hello) ∧
      helloGate a.env (leaveSession a.env sys.server (sys.session a.conn) []).1 hello =
        .ok s₁ := by
  cases h with
  | told _ _ tells => cases tells <;> cases hj
  | joined event gate _ _ _ => exact ⟨_, _, event, gate⟩
  | _ => cases hj

theorem emitted_peerInput {pid : PeerId} {blob : Blob} (h : Emitted sys a (.peerInput pid blob)) :
    a.event = .message (.input blob) := by
  cases h with
  | told _ _ tells => cases tells
  | input event _ _ _ => exact event
  | joined _ _ _ admitted _ => cases admitted.joined_eq

/-- A room that somebody stays in is not removed. -/
theorem not_removes_of_stays (hr' : (step sys a).roomAt appKey key = some room')
    (hm : room'.HasMember p i) (hstays : ∀ h, a.comer ≠ some (i.tx, h)) :
    ¬ a.Removes sys appKey key := by
  intro hrem
  have hgone := removes_gone hrem
  obtain ⟨s, _, hop, rfl, rfl, _⟩ := hrem
  have hs := Action.op_session hop
  change (a.outcome sys).server.roomAt s.appKey s.roomCode.key = some room' at hr'
  rcases (Action.op_leave hop).2 with event | event | ⟨h, event⟩
  · have hout : (a.outcome sys).server =
        (leaveSession a.env sys.server (sys.session a.conn) []).1 := by
      simp only [Action.outcome, event]
    rw [hout, hgone] at hr'
    cases hr'
  · have hout : (a.outcome sys).server =
        (leaveSession a.env sys.server (sys.session a.conn) []).1 := by
      simp only [Action.outcome, event, dispatch, hs, dispatchRoomControl, leaveSession]
    rw [hout, hgone] at hr'
    cases hr'
  · have hres := dispatchHello_result a.env sys.server (sys.session a.conn) a.conn h
    have hout : a.outcome sys = dispatchHello a.env sys.server (sys.session a.conn) a.conn h :=
    Action.outcome_hello event
    rw [hout] at hr'
    rcases helloResult_hasMember hres hr' hm with ⟨old, hold, _⟩ | ⟨htx, _⟩
    · cases hgone.symm.trans hold
    · refine hstays h ?_
      rw [Action.comer, event, htx]

/-- Of a room one `Move` is accepted in a step at most, by the host of a room that allows it. -/
theorem acceptedIn_cases (sys : Sys) (a : Action) (appKey key : String) :
    acceptedIn appKey key sys a = [] ∨ ∃ blob s room, a.event = .message (.move blob) ∧
      sys.session a.conn = some s ∧ s.appKey = appKey ∧ s.roomCode.key = key ∧
      sys.roomAt appKey key = some room ∧ room.hostPeerId = s.peerId ∧ room.moveAllowed = true ∧
      acceptedIn appKey key sys a = [blob] := by
  by_cases hm : ∃ blob, a.event = .message (.move blob)
  · obtain ⟨blob, event⟩ := hm
    have hres := move_result sys event
    unfold acceptedIn
    rw [event]
    revert hres
    generalize a.outcome sys = out
    intro hres
    cases hres with
    | unseated hs => exact .inl (by rw [hs])
    | nowhere hs => exact .inl (by simp [hs])
    | rejected hs _ => exact .inl (by simp [hs, isMoveAccepted])
    | @accepted s room s' hs found host put =>
      by_cases hk : s.appKey = appKey ∧ s.roomCode.key = key
      · obtain ⟨rfl, rfl⟩ := hk
        exact .inr ⟨blob, s, room, rfl, hs, rfl, rfl, found, host.1, host.2,
          by simp [hs, isMoveAccepted]⟩
      · exact .inl (by simp [hs, hk])
  · exact .inl (acceptedIn_of_not_move (fun blob event => hm ⟨blob, event⟩) appKey key)

theorem shown_of_isAnswer (h : m.IsAnswer) : shown m = none ∧ isJoined m = false := by
  cases m <;> first | exact h.elim | exact ⟨rfl, rfl⟩

/-- Without a `Joined` only `StateUpdate`s show a state. -/
theorem filterMap_shown {ms : List ServerMessage} (h : ∀ m ∈ ms, isJoined m = false) :
    ms.filterMap shown = (ms.filter isStateUpdate).filterMap shown := by
  induction ms with
  | nil => rfl
  | cons m ms ih =>
    have hrest := ih fun m hm => h m (List.mem_cons_of_mem _ hm)
    have hm := h m List.mem_cons_self
    cases m with
    | joined => cases hm
    | stateUpdate blob => exact congrArg (blob :: ·) hrest
    | _ => exact hrest

theorem filterMap_shown_updates (blobs : List Blob) :
    (blobs.map ServerMessage.stateUpdate).filterMap shown = blobs := by
  induction blobs with
  | nil => rfl
  | cons blob blobs ih => exact congrArg (blob :: ·) ih

/-- What the acting connection is answered shows the state of the room at most. -/
theorem replies_show (hs : Seated sys) (hr' : (step sys a).roomAt appKey key = some room')
    (hm : room'.HasMember p i) (hstays : ∀ h, a.comer ≠ some (i.tx, h)) (htx : i.tx = a.conn) :
    (∀ m ∈ (a.outcome sys).replies, isJoined m = false) ∧
      ((a.outcome sys).replies.filterMap shown = [] ∨
        a.event = .message .requestState ∧
          (a.outcome sys).replies.filterMap shown = [room'.state]) := by
  cases step_answered hs hr' hm htx with
  | stays _ plain =>
    refine ⟨fun m hm => (shown_of_isAnswer (plain m hm)).2, .inl ?_⟩
    exact List.filterMap_eq_nil_iff.mpr fun m hm => (shown_of_isAnswer (plain m hm)).1
  | asked event heq =>
    rw [heq, Room.requestState]
    split_ifs
    · exact ⟨(fun m hm => by cases hm), .inl rfl⟩
    · exact ⟨fun m hm => List.mem_singleton.mp hm ▸ rfl, .inr ⟨event, rfl⟩⟩
  | joins comer _ _ _ => exact absurd (htx ▸ comer) (hstays _)

/-- The states that a member sees before the replies are those of the `Move`s accepted in its
room. -/
theorem net_shows (hsys : Reachable sys) (hc : a.env.Clear)
    (hr' : (step sys a).roomAt appKey key = some room') (hm : room'.HasMember p i)
    (hstays : ∀ h, a.comer ≠ some (i.tx, h)) :
    (onChannel i.tx (a.outcome sys).net).filterMap shown = acceptedIn appKey key sys a := by
  have hs := seated hsys
  by_cases hmove : ∃ blob, a.event = .message (.move blob)
  · obtain ⟨blob, event⟩ := hmove
    have hg : OpGuard (fun _ _ _ => True) sys a := fun _ _ _ _ _ => trivial
    obtain ⟨room, mid, ms, ms', hr, turn, arrival, -⟩ :=
      step_view hs (allDisjoint_of_reachable hsys) hc hg hr' hm hstays
    have hheard := move_heard_accepted hsys hc event hr (turn.hasMember (arrival.hasMember hm))
    have hreplies : (if i.tx = a.conn then (a.outcome sys).replies else []).filter isStateUpdate =
        [] := by
      split_ifs with htx
      · obtain ⟨hunjoined, hnone | ⟨event', _⟩⟩ := replies_show hs hr' hm hstays htx
        · refine List.filter_eq_nil_iff.mpr fun m hmem hupdate => ?_
          have hshown := List.filterMap_eq_nil_iff.mp hnone m hmem
          cases m with
          | stateUpdate blob => cases hshown
          | _ => cases hupdate
        · cases event.symm.trans event'
      · rfl
    rw [onChannel_sent hc, List.filter_append, hreplies, List.append_nil] at hheard
    rw [filterMap_shown, hheard, filterMap_shown_updates]
    intro m hmem
    have hemitted := Action.emitted sys a (i.tx, m) (List.mem_append_left _ (mem_onChannel hmem))
    by_contra hj
    obtain ⟨h, _, event', _⟩ := emitted_joined hemitted (by simpa using hj)
    cases event.symm.trans event'
  · have hno : ∀ blob, a.event ≠ .message (.move blob) := fun blob event => hmove ⟨blob, event⟩
    obtain ⟨room, mid, ms, ms', hr, turn, arrival, hnet⟩ :=
      step_view hs (allDisjoint_of_reachable hsys) hc (noMove_of_event sys hno) hr' hm hstays
    have hturn : ∀ m ∈ ms, shown m = none := by
      cases turn with
      | rest => exact fun m hm => by cases hm
      | input => exact fun m hm => List.mem_singleton.mp hm ▸ rfl
      | opClient allowed _ _ => exact news_show_nothing allowed
      | opPending allowed _ _ =>
        rw [pendingNews_of_noMove allowed]
        exact fun m hm => by cases hm
    have harrival : ∀ m ∈ ms', shown m = none := by
      cases arrival with
      | rest => exact fun m hm => by cases hm
      | count => exact fun m hm => by cases hm
      | admitPeer =>
        split_ifs
        · exact fun m hm => List.mem_singleton.mp hm ▸ rfl
        · exact fun m hm => by cases hm
    rw [acceptedIn_of_not_move hno, hnet, List.filterMap_eq_nil_iff]
    exact List.forall_mem_append.mpr ⟨hturn, harrival⟩

end

/-! ## What overtakes nothing -/

section
variable {d : Delayed} {a : Action} {appKey key : String} {room room' : Room} {p : PeerId}
  {i : ClientInfo}

/-- An `Input` that comes in turn reaches no host whose `Joined` is in flight. -/
theorem input_unheard (ht : InTurn d a) {blob : Blob} (event : a.event = .message (.input blob))
    {tx : ConnId} (hw : JoinedWaits d tx) : onChannel tx (a.outcome d.sys).net = [] := by
  have hout : a.outcome d.sys =
      dispatch a.env d.sys.server (d.sys.session a.conn) a.conn (.input blob) := by
    simp only [Action.outcome, event]
  rw [hout]
  cases hs : d.sys.session a.conn with
  | none => rfl
  | some s =>
    simp only [dispatch]
    cases hr : d.sys.server.roomAt s.appKey s.roomCode.key with
    | none =>
      rw [inRoom_none hr]
      rfl
    | some room =>
      rw [inRoom_some hr]
      simp only [Room.input]
      split_ifs with hhost
      · cases hi : room.clients.lookup room.hostPeerId with
        | none => rfl
        | some host =>
          have hne : host.tx ≠ tx := by
            rintro rfl
            exact ht.input blob s room host event hs hr (Ne.symm hhost) hi hw
          simp [trySend, onChannel, hne]
      · rfl

/-- A `Hello` that comes in turn is not announced to a client whose `Joined` is in flight. -/
theorem arrival_unheard (hsys : Reachable d.sys) (ht : InTurn d a)
    (hr : d.sys.roomAt appKey key = some room)
    (hr' : (step d.sys a).roomAt appKey key = some room') (hw : JoinedWaits d i.tx)
    {ms : List ServerMessage}
    (arrival : HearsArrival a.env a.comer appKey key p i room ms room') : ms = [] := by
  cases arrival with
  | rest => rfl
  | count => rfl
  | @admitPeer me h _ _ _ pid _ comes place disjoint member _ admitted =>
    obtain ⟨rfl, event⟩ := Action.comer_eq_some comes
    refine if_neg ?_
    rintro ⟨hpid, hp⟩
    obtain ⟨j, hj⟩ := AList.mem_iff_lookup.mp hpid
    obtain ⟨q, hq⟩ := AList.mem_iff_lookup.mp hp
    obtain rfl := disjoint.info_unique (.inl hq) member
    -- the newcomer is answered `Joined`, so the `Hello` passed the first checks
    have hnew : j.tx = a.conn := by
      rcases admitted.hasMember (.inl hj) with ⟨_, rfl⟩ | hbefore
      · rfl
      · rcases hbefore with hb | hb
        · exact absurd (AList.mem_of_lookup hb) admitted.fresh.1
        · exact absurd (AList.mem_of_lookup hb) admitted.fresh.2
    obtain ⟨h', s₁, event', gate⟩ : ∃ hello s₁, a.event = .message (.hello hello) ∧
        helloGate a.env (leaveSession a.env d.sys.server (d.sys.session a.conn) []).1 hello =
          .ok s₁ := by
      cases step_answered (seated hsys) hr' (.inl hj) hnew with
      | stays hnone _ => cases hnone.symm.trans comes
      | asked event' _ => cases event.symm.trans event'
      | joins _ code side heq =>
        refine emitted_joined (m := room'.joinedMessage code pid side) ?_ rfl
        refine Action.emitted d.sys a (a.conn, _) (List.mem_append_right _ ?_)
        rw [heq]
        exact List.mem_singleton_self _
    obtain rfl : h = h' := by
      have heq := event.symm.trans event'
      rw [ConnEvent.message.injEq, ClientMessage.hello.injEq] at heq
      exact heq
    have hacc : room.settings.acceptRequired = false := by
      by_contra hacc
      obtain ⟨n, rfl⟩ := admitted.seated
      have hv : ({ room with peerCounter := n } : Room).isVacant = false :=
        Room.isVacant_eq_false_of_hasMember (.inl hq)
      simp only [Room.seat, hv, Bool.false_eq_true, if_false] at hpid
      rw [if_pos (by simpa using hacc)] at hpid
      exact admitted.fresh.1 hpid
    obtain ⟨rfl, rfl⟩ := place
    exact ht.hello h s₁ room event gate hr admitted.not_refuses hacc p q hq hw

/-- A member whose `Joined` is in flight hears nothing of an action that comes in turn. -/
theorem net_unheard (hsys : Reachable d.sys) (ht : InTurn d a)
    (hr' : (step d.sys a).roomAt appKey key = some room') (hm : room'.HasMember p i)
    (hstays : ∀ h, a.comer ≠ some (i.tx, h)) (hw : JoinedWaits d i.tx) :
    onChannel i.tx (a.outcome d.sys).net = [] := by
  by_cases hinput : ∃ blob, a.event = .message (.input blob)
  · obtain ⟨blob, event⟩ := hinput
    exact input_unheard ht event hw
  have hg : OpGuard (fun _ room o => Patient d room o ∧ ∃ s, a.op d.sys = some (s, o)) d.sys a :=
    fun s o room hop hr => ⟨ht.op s o room hop hr, s, hop⟩
  obtain ⟨room, mid, ms, ms', hr, turn, arrival, hnet⟩ :=
    step_view (seated hsys) (allDisjoint_of_reachable hsys) ht.clear hg hr' hm hstays
  have hbefore := turn.hasMember (arrival.hasMember hm)
  cases turn with
  | rest => rw [hnet, arrival_unheard hsys ht hr hr' hw arrival, List.append_nil]
  | input host pid blob =>
    have hmem : ServerMessage.peerInput pid blob ∈ onChannel i.tx (a.outcome d.sys).net := by
      rw [hnet]
      exact List.mem_append_left _ (List.mem_singleton_self _)
    have hemitted := Action.emitted d.sys a (i.tx, _) (List.mem_append_left _ (mem_onChannel hmem))
    exact absurd ⟨blob, emitted_peerInput hemitted⟩ hinput
  | @opClient o allowed disjoint client =>
    obtain ⟨hpatient, s, hop⟩ := allowed
    have hquiet := hpatient.joined p i hbefore hw
    rw [hnet, news_unheard disjoint hquiet client, List.nil_append]
    cases arrival with
    | rest => rfl
    | count => rfl
    | admitPeer comes _ _ _ _ _ =>
      -- who says `Hello` leaves the room first, which the client would have heard
      have hleave : ∃ pid, o = .leave pid := by
        have event := (Action.comer_eq_some comes).2
        rcases (Action.op_cases hop).2 with ⟨rfl, _⟩ | ⟨_, event', _⟩ | ⟨_, event', _⟩
        · exact ⟨_, rfl⟩
        · cases event.symm.trans event'
        · cases event.symm.trans event'
      obtain ⟨pid, rfl⟩ := hleave
      have hb : Hosts.Broadcasts room (.leave pid) := trivial
      exact absurd (newsFor_client disjoint hb client) hquiet
  | @opPending o allowed disjoint pending =>
    have hquiet := allowed.1.joined p i hbefore hw
    rw [hnet, pendingNews_unheard hquiet pending, List.nil_append]
    cases arrival with
    | rest => rfl
    | count => rfl
    | admitPeer _ _ disjoint' _ _ _ =>
      refine if_neg ?_
      rintro ⟨_, hp⟩
      exact disjoint' p hp (AList.mem_of_lookup pending)

/-- No `Move` is accepted while an answer with the state is in flight to a member. -/
theorem none_accepted (ht : InTurn d a) (hr : d.sys.roomAt appKey key = some room)
    (hm : room.HasMember p i) (hw : StateWaits d i.tx) : acceptedIn appKey key d.sys a = [] := by
  rcases acceptedIn_cases d.sys a appKey key with hnone |
    ⟨blob, s, room₁, event, hs, rfl, rfl, hr₁, hhost, hallowed, _⟩
  · exact hnone
  · obtain rfl := Option.some.inj (hr.symm.trans hr₁)
    have hop : a.op d.sys = some (s, .move s.peerId blob) := by simp only [Action.op, event, hs]
    exact absurd hw ((ht.op s _ room hop hr).state s.peerId blob rfl hhost hallowed p i hm)

end

/-! ## All runs -/

/-- Every member is served. -/
def AllServed (d : Delayed) : Prop :=
  ∀ appKey key room p i, d.sys.roomAt appKey key = some room → room.HasMember p i →
    Served (d.tracked.moves appKey key) (d.queue i.tx) (d.inflight i.tx)

/-- What is known of the system without the queues. -/
def Sound (d : Delayed) : Prop := Reachable d.sys ∧ Follows d.tracked

theorem dispatched_sound {d : Delayed} (h : Sound d) (a : Action) : Sound (dispatched d a) :=
  ⟨h.1.tail a trivial, track_follows a h.2⟩

/-- The replies reach the queue, in which nobody was served in between. -/
theorem enqueued_allServed {d : Delayed} (h : AllServed d) (conn : ConnId) :
    AllServed (enqueued d conn) := by
  intro appKey key room p i hr hm
  have hserved := h appKey key room p i hr hm
  simp only [enqueued]
  by_cases htx : i.tx = conn
  · subst htx
    rw [Function.update_self, Function.update_self]
    exact hserved.flushed
  · rw [Function.update_of_ne htx, Function.update_of_ne htx]
    exact hserved

section
variable {d : Delayed} {a : Action} {appKey key : String} {room' : Room} {p : PeerId}
  {i : ClientInfo}

/-- Members are told the number of `Move`s of their own room. -/
theorem movesSeen_member {t : Tracked} (hs : Seated t.sys)
    (hr : t.sys.roomAt appKey key = some room') (hm : room'.HasMember p i) :
    movesSeen t i.tx = (t.moves appKey key).length := by
  obtain ⟨s, hsession, rfl, rfl, _⟩ := hs _ _ _ _ _ hr hm
  rw [movesSeen, hsession]

/-- Who has just come has its `Joined` in flight and nothing in the queue. -/
theorem comer_served (hsound : Sound d) (hc : a.env.Clear)
    (hr' : (dispatched d a).sys.roomAt appKey key = some room') (hm : room'.HasMember p i)
    {h : Hello} (hcomer : a.comer = some (i.tx, h)) :
    Served ((dispatched d a).tracked.moves appKey key) ((dispatched d a).queue i.tx)
      ((dispatched d a).inflight i.tx) := by
  have hs := seated hsound.1
  obtain ⟨htx, event⟩ := Action.comer_eq_some hcomer
  have hnext : Sound (dispatched d a) := dispatched_sound hsound a
  have hunheard := hello_unheard hs hc event
  have hseen := movesSeen_member (seated hnext.1) hr' hm
  have hstate := (hnext.2 appKey key).1 room' hr'
  cases step_answered hs hr' hm htx with
  | stays hnone _ => cases hnone.symm.trans hcomer
  | asked event' _ => cases event.symm.trans event'
  | joins _ code side heq =>
    have hqueue : (dispatched d a).queue i.tx = [] := by
      have hreset : i.tx = a.conn ∧ (a.outcome d.sys).replies.any isJoined = true := by
        rw [heq]
        exact ⟨htx, rfl⟩
      simp only [dispatched]
      rw [if_pos hreset, hc.delivered, htx, hunheard]
      rfl
    have hinflight : (dispatched d a).inflight i.tx =
        stamp (dispatched d a).tracked i.tx [room'.joinedMessage code p side] := by
      simp only [dispatched]
      rw [htx, Function.update_self, heq]
    have hshown : [room'.joinedMessage code p side].filterMap shown = [room'.state] := by
      simp only [Room.joinedMessage, List.filterMap_cons, shown, List.filterMap_nil]
      split_ifs with hempty
      · rw [List.isEmpty_iff.mp hempty]
        rfl
      · rfl
    rw [hqueue, hinflight]
    refine ⟨⟨_, rfl, rfl⟩, fun _ => rfl, ?_⟩
    rw [List.nil_append, states_stamp, hshown, hseen, hstate, ← valueAt_length]
    exact upToDate_singleton

theorem stays_moves (hr' : (dispatched d a).sys.roomAt appKey key = some room')
    (hm : room'.HasMember p i) (hstays : ∀ h, a.comer ≠ some (i.tx, h)) :
    (dispatched d a).tracked.moves appKey key =
      d.tracked.moves appKey key ++ acceptedIn appKey key d.sys a := by
  have hno : removes a d.sys appKey key = false := by
    rw [← Bool.not_eq_true, removes_iff]
    exact not_removes_of_stays hr' hm hstays
  simp only [dispatched, track]
  rw [if_neg (by rw [hno]; exact Bool.false_ne_true)]

/-- Who stays hears what is sent to it before the replies that are in flight. -/
theorem heard_served (hsound : Sound d) (ht : InTurn d a) (h : AllServed d)
    (hr' : (dispatched d a).sys.roomAt appKey key = some room') (hm : room'.HasMember p i)
    (hstays : ∀ h, a.comer ≠ some (i.tx, h)) :
    Served ((dispatched d a).tracked.moves appKey key) ((dispatched d a).queue i.tx)
      (d.inflight i.tx) := by
  have hs := seated hsound.1
  have hnext : Sound (dispatched d a) := dispatched_sound hsound a
  have hg : OpGuard (fun _ _ _ => True) d.sys a := fun _ _ _ _ _ => trivial
  obtain ⟨room, mid, _, _, hr, turn, arrival, _⟩ :=
    step_view hs (allDisjoint_of_reachable hsound.1) ht.clear hg hr' hm hstays
  have hbefore := turn.hasMember (arrival.hasMember hm)
  have hserved := h _ _ _ _ _ hr hbefore
  have hqueue : (dispatched d a).queue i.tx = d.queue i.tx ++
      stamp (dispatched d a).tracked i.tx (onChannel i.tx (a.outcome d.sys).net) := by
    simp only [dispatched]
    rw [if_neg, ht.clear.delivered]
    rintro ⟨htx, hany⟩
    obtain ⟨m, hmem, hj⟩ := List.any_eq_true.mp hany
    rw [(replies_show hs hr' hm hstays htx).1 m hmem] at hj
    cases hj
  have hnet : states (stamp (dispatched d a).tracked i.tx (onChannel i.tx (a.outcome d.sys).net)) =
      (acceptedIn appKey key d.sys a).map
        (·, ((dispatched d a).tracked.moves appKey key).length) := by
    rw [states_stamp, net_shows hsound.1 ht.clear hr' hm hstays,
      movesSeen_member (seated hnext.1) hr' hm]
  rw [hqueue]
  refine hserved.hear (fun hw => ?_) ?_ ?_
  · rw [net_unheard hsound.1 ht hr' hm hstays hw]
    rfl
  · by_cases hw : StateWaits d i.tx
    · rw [hnet, none_accepted ht hr hbefore hw]
      exact .inr rfl
    · refine .inl (states_eq_nil.mpr fun e he => ?_)
      by_contra hshown
      exact hw ⟨e, he, hshown⟩
  · rw [hnet, stays_moves hr' hm hstays]
    rcases acceptedIn_cases d.sys a appKey key with hnone | ⟨blob, _, _, _, _, _, _, _, _, _, heq⟩
    · rw [hnone, List.map_nil, List.append_nil, List.append_nil]
      exact hserved.states
    · rw [heq, List.map_singleton, List.length_append]
      exact hserved.states.toFaithful.change blob

/-- Who stays is served, also the acting connection. -/
theorem stays_served (hsound : Sound d) (ht : InTurn d a) (hidle : d.inflight a.conn = [])
    (h : AllServed d) (hr' : (dispatched d a).sys.roomAt appKey key = some room')
    (hm : room'.HasMember p i) (hstays : ∀ h, a.comer ≠ some (i.tx, h)) :
    Served ((dispatched d a).tracked.moves appKey key) ((dispatched d a).queue i.tx)
      ((dispatched d a).inflight i.tx) := by
  have hheard := heard_served hsound ht h hr' hm hstays
  by_cases htx : i.tx = a.conn
  · have hnext : Sound (dispatched d a) := dispatched_sound hsound a
    have hseen := movesSeen_member (seated hnext.1) hr' hm
    have hstate := (hnext.2 appKey key).1 room' hr'
    obtain ⟨hunjoined, hshow⟩ := replies_show (seated hsound.1) hr' hm hstays htx
    have hinflight : (dispatched d a).inflight i.tx =
        stamp (dispatched d a).tracked i.tx (a.outcome d.sys).replies := by
      simp only [dispatched]
      rw [htx, Function.update_self]
    rw [htx, hidle, ← htx] at hheard
    rw [hinflight]
    refine hheard.answered (fun e he => ?_) ?_
    · obtain ⟨m, hmem, rfl⟩ := List.mem_map.mp he
      exact hunjoined m hmem
    · have hnow := hheard.states
      rw [List.append_nil] at hnow
      rw [states_stamp, hseen]
      rcases hshow with hnone | ⟨_, hone⟩
      · rw [hnone, List.map_nil, List.append_nil]
        exact hnow
      · rw [hone, hstate, ← valueAt_length]
        exact hnow.toFaithful.look
  · have hinflight : (dispatched d a).inflight i.tx = d.inflight i.tx :=
      Function.update_of_ne htx _ _
    rw [hinflight]
    exact hheard

theorem happen_allServed {d : Delayed} (hsound : Sound d) (h : AllServed d) (happening : Happening)
    (hturn : Turnwise d happening) : AllServed (happen d happening) := by
  cases happening with
  | reply conn => exact enqueued_allServed h conn
  | dispatch a =>
    by_cases hidle : d.inflight a.conn = []
    · have ht : InTurn d a := hturn hidle
      rw [happen, if_pos hidle]
      intro appKey key room' p i hr' hm
      by_cases hcomer : ∃ h, a.comer = some (i.tx, h)
      · obtain ⟨_, hcomer⟩ := hcomer
        exact comer_served hsound ht.clear hr' hm hcomer
      · exact stays_served hsound ht hidle h hr' hm fun h heq => hcomer ⟨h, heq⟩
    · rw [happen, if_neg hidle]
      exact h

end

theorem happen_sound {d : Delayed} (h : Sound d) (happening : Happening) :
    Sound (happen d happening) := by
  cases happening with
  | reply conn => exact h
  | dispatch a =>
    by_cases hidle : d.inflight a.conn = []
    · rw [happen, if_pos hidle]
      exact dispatched_sound h a
    · rw [happen, if_neg hidle]
      exact h

theorem start_sound : Sound .start :=
  ⟨.refl, follows .refl⟩

/-- As long as nothing is sent to members whose `Joined` is in flight, and no `Move` is accepted
while an answer with the state is in flight, the delivery order matches the room order. -/
theorem delivered_in_order (d : Delayed) (h : Reaches happen Turnwise .start d) : InOrder d := by
  have hsound : ∀ d, Reaches happen Turnwise .start d → Sound d := fun d h =>
    h.invariant start_sound fun d happening hd _ => happen_sound hd happening
  have hserved : AllServed d := by
    refine h.invariant_under hsound ?_ fun d happening hd hall hturn =>
      happen_allServed hd hall happening hturn
    intro appKey key room p i hr
    simp [Delayed.start, Tracked.start, Sys.roomAt, Sys.start, Server.start, Server.roomAt] at hr
  intro appKey key room p i hr hm
  exact (hserved appKey key room p i hr hm).orderly (((hsound d h).2 appKey key).1 room hr)

/-! ## One action at a time -/

theorem inTurn_of_idle {d : Delayed} (hidle : d.Idle) {a : Action} (hc : a.env.Clear) :
    InTurn d a := by
  have hjoined : ∀ tx, ¬ JoinedWaits d tx := by
    rintro tx ⟨e, he, _⟩
    rw [hidle tx] at he
    cases he
  have hstate : ∀ tx, ¬ StateWaits d tx := by
    rintro tx ⟨e, he, _⟩
    rw [hidle tx] at he
    cases he
  exact ⟨hc, fun _ _ _ _ _ => ⟨fun _ i _ hw => absurd hw (hjoined i.tx),
    fun _ _ _ _ _ _ i _ => hstate i.tx⟩, fun _ _ _ i _ _ _ _ _ => hjoined i.tx,
    fun _ _ _ _ _ _ _ _ _ i _ => hjoined i.tx⟩

/-- Each action with its replies. -/
def oneByOne (as : List Action) : List Happening :=
  as.flatMap fun a => [.dispatch a, .reply a.conn]

/-- Replies that follow at once overtake nothing. -/
theorem oneByOne_turnwise {as : List Action} {d : Delayed} (hidle : d.Idle)
    (hc : ∀ a ∈ as, a.env.Clear) : Along happen Turnwise d (oneByOne as) := by
  induction as generalizing d with
  | nil => trivial
  | cons a as ih =>
    refine ⟨fun _ => inTurn_of_idle hidle (hc a List.mem_cons_self), trivial,
      ih ?_ fun b hb => hc b (List.mem_cons_of_mem _ hb)⟩
    intro tx
    rw [happen, happen, if_pos (hidle a.conn)]
    change Function.update (dispatched d a).inflight a.conn [] tx = []
    by_cases htx : tx = a.conn
    · rw [htx]
      exact Function.update_self ..
    · rw [Function.update_of_ne htx]
      exact (Function.update_of_ne htx _ _).trans (hidle tx)

/-- The channels are clear, whatever is in flight. -/
def OverClear (_ : Delayed) : Happening → Prop
  | .dispatch a => a.env.Clear
  | .reply _ => True

/-- A peer is let in, and the host moves before the peer's `Joined` is enqueued. -/
def overtaking : List Happening :=
  [.dispatch (sends 0 (plainHello "" "h")), .reply 0, .dispatch (sends 1 (plainHello "aaaaaa" "x")),
    .dispatch (sends 0 (.move [7])), .reply 1, .reply 0]

/-- The peer receives the `StateUpdate` before its `Joined`, which shows an older state. -/
theorem joined_overtaken : ¬ ∀ d, Reaches happen OverClear .start d → InOrder d := by
  intro hall
  have hreach : Reaches happen OverClear .start (exec happen .start overtaking) :=
    Reaches.exec .refl (by simp [overtaking, Along, OverClear, sends, Env.quiet_clear])
  have hrun : ((exec happen .start overtaking).sys.roomAt "pong" "aaaaaa").any (fun room =>
      (room.clients.lookup 2).any fun i =>
        ((exec happen .start overtaking).queue i.tx).head?.any fun e => !isJoined e.1) = true := by
    decide
  obtain ⟨room, hr, hany⟩ := (Option.any_eq_true ..).mp hrun
  obtain ⟨i, hi, hhead⟩ := (Option.any_eq_true ..).mp hany
  obtain ⟨e, he, hj⟩ := (Option.any_eq_true ..).mp hhead
  have hfirst := (hall _ hreach _ _ room 2 i hr (.inl hi)).first e he
  simp [hfirst] at hj

/-- A host and a guest take turns. -/
theorem opening_in_order :
    ∃ room, (exec happen .start (oneByOne opening)).sys.roomAt "pong" "aaaaaa" = some room ∧
      Orderly (exec happen .start (oneByOne opening)) "pong" "aaaaaa" room 1 := by
  have hclear : ∀ a ∈ opening, a.env.Clear := by simp [opening, sends, Env.quiet_clear]
  have hrun : ((exec happen .start (oneByOne opening)).sys.roomAt "pong" "aaaaaa").any
      (fun room => room.clients.lookup 2 == some ⟨⟨"x"⟩, none, 1, 1⟩) = true := by decide
  obtain ⟨room, hr, hi⟩ := (Option.any_eq_true ..).mp hrun
  refine ⟨room, hr, delivered_in_order _ (Reaches.exec .refl ?_) "pong" "aaaaaa" room 2
    ⟨⟨"x"⟩, none, 1, 1⟩ hr (.inl (beq_iff_eq.mp hi))⟩
  exact oneByOne_turnwise (fun _ => rfl) hclear

end Roomie.DeliveryOrder
