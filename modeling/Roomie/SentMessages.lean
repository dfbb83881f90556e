import Roomie.RoomInvariants

/-!
# What an action can send at all

Every message the server ever tries to send is of one of a few kinds, and its parts come
from the message being handled or from the rooms as they stand. This holds whatever the
channels answer; claims about all messages are case distinctions over it.
-/

namespace Roomie
open HashTables GuardedRuns

/-- What an operation may tell: events without data, and data of the operation or the room. -/
inductive RoomOp.Tells (room : Room) : RoomOp → ServerMessage → Prop
  | left (o : RoomOp) (q : PeerId) : Tells room o (.peerLeft q)
  | host (o : RoomOp) (q : PeerId) : Tells room o (.roomEvent (.hostTransferred q))
  | kicked (o : RoomOp) : Tells room o (.roomEvent .kicked)
  | banned (o : RoomOp) : Tells room o (.roomEvent .banned)
  | state (pid : PeerId) (blob : Blob) : Tells room (.move pid blob) (.stateUpdate blob)
  | settings (pid : PeerId) (settings : RoomSettings) :
      Tells room (.control pid (.updateSettings settings))
        (.roomEvent (.settingsChanged settings.withoutPassword))
  | accepted (pid : PeerId) {target : PeerId} {info : ClientInfo}
      (pending : room.pending.lookup target = some info) :
      Tells room (.control pid (.acceptPeer target))
        (.peerJoined target info.clientHash.value info.displayName)

section
variable {env : Env} {Q : ConnId → ServerMessage → Prop} {room room' : Room} {net : Net}

theorem Room.removePeer_sent (ha : Announces Q room) (hnet : ∀ a ∈ net, Q a.1 a.2) (pid : PeerId) :
    ∀ a ∈ (room.removePeer env pid net).2, Q a.1 a.2 := by
  have hdropped : Announces Q (room.dropMember pid) :=
    ⟨fun q p i hi => ha.left q p i (AList.lookup_erase_some.mp hi).2,
      fun q p i hi => ha.host q p i (AList.lookup_erase_some.mp hi).2⟩
  have hfirst := @broadcastAndPrune_sent env Q _ _ _ hdropped (hdropped.left pid) hnet
  have hpruned := hdropped.prunedTo
    (broadcastAndPrune_prunedTo env (room.dropMember pid) (.peerLeft pid) net)
  unfold removePeer
  generalize broadcastAndPrune env (room.dropMember pid) (.peerLeft pid) net = mid at hfirst hpruned
  obtain ⟨mid, net'⟩ := mid
  dsimp only
  split_ifs
  · cases mid.clients.firstKey env.peers with
    | none => exact hfirst
    | some newHost =>
      exact broadcastAndPrune_sent ⟨hpruned.left, hpruned.host⟩ (hpruned.host newHost) hfirst
  · exact hfirst

theorem Room.expel_sent (ha : Announces Q room) {event : RoomEvent}
    {mark : Room → ClientInfo → Room} (hmark : ∀ r i, (mark r i).clients = r.clients)
    (he : ∀ p i, room.clients.lookup p = some i → Q i.tx (.roomEvent event))
    (hnet : ∀ a ∈ net, Q a.1 a.2) (pid : PeerId) :
    ∀ a ∈ (room.expel env event mark pid net).2, Q a.1 a.2 := by
  cases h : room.clients.lookup pid with
  | none =>
    rw [expel_none h]
    exact broadcastAndPrune_sent ha (ha.left pid) hnet
  | some info =>
    have hlook : ∀ {p i}, (mark (room.dropClient pid) info).clients.lookup p = some i →
        room.clients.lookup p = some i := by
      intro p i hi
      rw [hmark] at hi
      exact (AList.lookup_erase_some.mp hi).2
    have hmarked : Announces Q (mark (room.dropClient pid) info) :=
      ⟨fun q p i hi => ha.left q p i (hlook hi), fun q p i hi => ha.host q p i (hlook hi)⟩
    rw [expel_some h]
    exact broadcastAndPrune_sent hmarked (hmarked.left pid)
      (List.forall_mem_append.mpr ⟨hnet, by simpa using he pid info h⟩)

theorem Room.command_sent {rc : RoomControl} {pid : PeerId}
    (hq : ∀ p i m, room.HasMember p i → (RoomOp.control pid rc).Tells room m → Q i.tx m)
    (hnet : ∀ a ∈ net, Q a.1 a.2) : ∀ a ∈ (room.command env rc net).2, Q a.1 a.2 := by
  have ha : Announces Q room :=
    ⟨fun q p i hi => hq p i _ (.inl hi) (.left _ q), fun q p i hi => hq p i _ (.inl hi) (.host _ q)⟩
  cases rc with
  | createRoom settings => exact hnet
  | leave => exact hnet
  | setPublic isPublic => exact hnet
  | updateSettings settings =>
    exact broadcastAndPrune_sent ⟨ha.left, ha.host⟩
      (fun p i hi => hq p i _ (.inl hi) (.settings pid settings)) hnet
  | acceptPeer target =>
    simp only [command, acceptPeer]
    cases hp : room.pending.lookup target with
    | none => exact hnet
    | some info =>
      have hmember : ∀ {p i}, (room.clients.insert target info).lookup p = some i →
          room.HasMember p i := by
        intro p i hi
        rcases AList.lookup_insert_some.mp hi with ⟨rfl, rfl⟩ | ⟨_, hi⟩
        · exact .inr hp
        · exact .inl hi
      exact broadcastAndPrune_sent
        ⟨fun q p i hi => hq p i _ (hmember hi) (.left _ q),
          fun q p i hi => hq p i _ (hmember hi) (.host _ q)⟩
        (fun p i hi => hq p i _ (hmember hi) (.accepted pid hp)) hnet
  | denyPeer target =>
    simp only [command, denyPeer]
    cases hp : room.pending.lookup target with
    | none => exact hnet
    | some info =>
      simp only [trySend]
      exact List.forall_mem_append.mpr
        ⟨hnet, by simpa using hq target info _ (.inr hp) (.kicked _)⟩
  | kick target =>
    exact expel_sent ha (fun _ _ => rfl) (fun p i hi => hq p i _ (.inl hi) (.kicked _)) hnet target
  | ban target =>
    have hmark : ∀ (r : Room) (i : ClientInfo),
        ({ r with banned := insert i.clientHash r.banned } : Room).clients = r.clients :=
      fun _ _ => rfl
    exact expel_sent ha hmark (fun p i hi => hq p i _ (.inl hi) (.banned _)) hnet target
  | transferHost target =>
    simp only [command, transferHost]
    split_ifs
    · exact broadcastAndPrune_sent ⟨ha.left, ha.host⟩ (ha.host target) hnet
    · exact hnet

/-- An operation sends what it may tell, to members of the room. -/
theorem RoomOp.run_sent (env : Env) (room : Room) (o : RoomOp) :
    ∀ a ∈ (o.run env room []).2, (∃ p i, room.HasMember p i ∧ i.tx = a.1) ∧ o.Tells room a.2 := by
  have hnil : ∀ a ∈ ([] : Net), (∃ p i, room.HasMember p i ∧ i.tx = a.1) ∧ o.Tells room a.2 := by simp
  have ha : Announces (fun tx m => (∃ p i, room.HasMember p i ∧ i.tx = tx) ∧ o.Tells room m) room :=
    ⟨fun q p i hi => ⟨⟨p, i, .inl hi, rfl⟩, .left _ q⟩,
      fun q p i hi => ⟨⟨p, i, .inl hi, rfl⟩, .host _ q⟩⟩
  cases o with
  | leave pid =>
    exact Room.removePeer_sent (Q := fun tx m => (∃ p i, room.HasMember p i ∧ i.tx = tx) ∧
      (RoomOp.leave pid).Tells room m) ha hnil pid
  | move pid blob =>
    simp only [run, Room.move]
    split_ifs
    · simp
    · simp
    · exact broadcastStateUpdateAndPrune_sent (Q := fun tx m =>
        (∃ p i, room.HasMember p i ∧ i.tx = tx) ∧ (RoomOp.move pid blob).Tells room m)
        ⟨ha.left, ha.host⟩ (fun p i hi => ⟨⟨p, i, hi, rfl⟩, .state pid blob⟩) hnil
  | control pid rc =>
    simp only [run, Room.control]
    split_ifs
    · exact Room.command_sent (Q := fun tx m => (∃ p i, room.HasMember p i ∧ i.tx = tx) ∧
        (RoomOp.control pid rc).Tells room m) (fun p i m hi hm => ⟨⟨p, i, hi, rfl⟩, hm⟩) hnil
    · simp

/-- Everything an operation sends is something it may tell. -/
theorem RoomOp.run_tells (env : Env) (room : Room) (o : RoomOp) :
    ∀ a ∈ (o.run env room []).2, o.Tells room a.2 := fun a ha => (o.run_sent env room a ha).2

/-- The announcement of a newcomer goes to members that were there before. -/
theorem Room.Admitted.sent {me : ConnId} {code : RoomCode} {h : Hello} {pid : PeerId}
    {joined : ServerMessage} {net' : Net}
    (ha : Admitted env me code h room net room' net' pid joined)
    (hj : ∀ p i, room.HasMember p i → Q i.tx (.peerJoined pid h.clientHash h.displayName))
    (hnet : ∀ a ∈ net, Q a.1 a.2) : ∀ a ∈ net', Q a.1 a.2 := by
  rw [ha.net_eq]
  simp only [announceJoined]
  split_ifs
  · rw [sendAll_net]
    intro a hm
    rcases List.mem_append.mp hm with hm | hm
    · exact hnet a hm
    · obtain ⟨e, he, rfl⟩ := List.mem_map.mp hm
      obtain ⟨he, hne⟩ := List.mem_filter.mp he
      rcases ha.hasMember (.inl (AList.mem_iter.mp he)) with ⟨heq, _⟩ | hmem
      · simp [heq] at hne
      · exact hj e.1 e.2 hmem
  · exact hnet

end

/-- The messages an action may send, with where their parts come from. -/
inductive Emitted (sys : Sys) (a : Action) : ServerMessage → Prop
  | told {s : Session} {o : RoomOp} {room : Room} {m : ServerMessage} (performs : a.op sys = some (s, o))
      (found : sys.roomAt s.appKey s.roomCode.key = some room) (tells : o.Tells room m) :
      Emitted sys a m
  | input {s : Session} {room : Room} {blob : Blob} (event : a.event = .message (.input blob))
      (session : sys.session a.conn = some s)
      (found : sys.roomAt s.appKey s.roomCode.key = some room)
      (host : room.hostPeerId ≠ s.peerId ∧ room.hostPeerId ∈ room.clients) :
      Emitted sys a (.peerInput s.peerId blob)
  | state {s : Session} {room : Room} (found : sys.roomAt s.appKey s.roomCode.key = some room) :
      Emitted sys a (.stateUpdate room.state)
  | arrival {h : Hello} (event : a.event = .message (.hello h)) (valid : h.Valid) (pid : PeerId) :
      Emitted sys a (.peerJoined pid h.clientHash h.displayName)
  | joined {h : Hello} {s₁ s₂ : Server} {code : RoomCode} {room room' : Room} {net net' : Net}
      {pid : PeerId} {joined : ServerMessage} (event : a.event = .message (.hello h))
      (gate : helloGate a.env (leaveSession a.env sys.server (sys.session a.conn) []).1 h = .ok s₁)
      (opened : Opened s₁ h s₂ code room)
      (admitted : Room.Admitted a.env a.conn code h room net room' net' pid joined)
      (found : (step sys a).roomAt h.appKey code.key = some room') : Emitted sys a joined
  | rooms {appKey : String} {pool : RoomPool} (event : a.event = .message (.listRooms appKey))
      (registered : (isRegisteredApp a.env.disk sys.server.cache appKey).1 = true)
      (found : sys.server.registry.lookup appKey = some pool) :
      Emitted sys a (.roomList (pool.listPublicRooms a.env))
  | noRooms : Emitted sys a (.roomList [])
  | moveAccepted : Emitted sys a .moveAccepted
  | moveRejected {reason : String} (known : IsRejection reason) :
      Emitted sys a (.moveRejected reason)
  | pong : Emitted sys a .pong
  | error {message : String} (known : message ∈ errorTexts) : Emitted sys a (.error message)

theorem leaveSession_emitted {sys : Sys} {a : Action}
    (hp : ∀ s, sys.session a.conn = some s → a.op sys = some (s, .leave s.peerId)) :
    ∀ x ∈ (leaveSession a.env sys.server (sys.session a.conn) []).2, Emitted sys a x.2 := by
  cases hs : sys.session a.conn with
  | none => simp [leaveSession]
  | some s =>
    simp only [leaveSession]
    cases hr : sys.server.roomAt s.appKey s.roomCode.key with
    | none => simp [leaveRoom_none hr]
    | some room =>
      rw [leaveRoom_net hr]
      exact fun x hx => .told (hp s hs) hr ((RoomOp.leave s.peerId).run_tells a.env room x hx)

theorem HelloResult.emitted {sys : Sys} {a : Action} {h : Hello}
    (event : a.event = .message (.hello h)) {net : Net}
    (hres : HelloResult a.env a.conn h
      (leaveSession a.env sys.server (sys.session a.conn) []).1 net (a.outcome sys))
    (hnet : ∀ x ∈ net, Emitted sys a x.2) :
    (∀ x ∈ (a.outcome sys).net, Emitted sys a x.2) ∧
      ∀ m ∈ (a.outcome sys).replies, Emitted sys a m := by
  have hroom : ∀ appKey key, (step sys a).roomAt appKey key =
      (a.outcome sys).server.roomAt appKey key := fun _ _ => rfl
  revert hres hroom
  generalize a.outcome sys = out
  intro hres hroom
  cases hres with
  | refused _ known => exact ⟨hnet, by simpa using .error known⟩
  | rejected _ _ _ known _ => exact ⟨hnet, by simpa using .error known⟩
  | @joined s₁ s₂ s' code room room' net' pid joined gate opened admitted put =>
    refine ⟨admitted.sent (Q := fun _ => Emitted sys a)
      (fun _ _ _ => .arrival event (helloGate_ok gate).1 pid) hnet, ?_⟩
    simpa using .joined event gate opened admitted ((hroom _ _).trans put.here)

theorem emitted_of_replies {sys : Sys} {a : Action} {replies : List ServerMessage}
    (plain : ∀ m ∈ replies, m.IsAnswer) (lists : Lists sys a replies) :
    ∀ m ∈ replies, Emitted sys a m := by
  intro m hm
  have hplain := plain m hm
  cases m with
  | roomList rooms =>
    rcases lists rooms hm with rfl | ⟨appKey, pool, event, registered, found, rfl⟩
    · exact .noRooms
    · exact .rooms event registered found
  | moveAccepted => exact .moveAccepted
  | moveRejected reason => exact .moveRejected hplain
  | pong => exact .pong
  | error message => exact .error hplain
  | _ => exact hplain.elim

theorem RoomOp.replies_no_list (env : Env) (room : Room) (o : RoomOp) (rooms : List RoomListEntry) :
    .roomList rooms ∉ o.replies env room := by
  cases o with
  | leave pid => simp [RoomOp.replies]
  | move pid blob =>
    simp only [RoomOp.replies, Room.move]
    split_ifs <;> simp
  | control pid rc =>
    simp only [RoomOp.replies, Room.control]
    split_ifs <;> simp

/-- Everything an action tries to send, and everything it answers, is of one of these kinds. -/
theorem Action.emitted (sys : Sys) (a : Action) : ∀ x ∈ a.attempts sys, Emitted sys a x.2 := by
  suffices h : (∀ x ∈ (a.outcome sys).net, Emitted sys a x.2) ∧
      ∀ m ∈ (a.outcome sys).replies, Emitted sys a m by
    refine List.forall_mem_append.mpr ⟨h.1, fun x hx => ?_⟩
    obtain ⟨m, hm, rfl⟩ := List.mem_map.mp hx
    exact h.2 m hm
  by_cases hh : ∃ h, a.event = .message (.hello h)
  · obtain ⟨h, event⟩ := hh
    have hout : a.outcome sys = dispatchHello a.env sys.server (sys.session a.conn) a.conn h := by
      simp [Action.outcome, event, dispatch]
    have hres := dispatchHello_result a.env sys.server (sys.session a.conn) a.conn h
    rw [← hout] at hres
    exact hres.emitted event (leaveSession_emitted fun s hs => by simp [Action.op, event, hs])
  have hres := Action.result sys a
  revert hres
  generalize a.outcome sys = out
  intro hres
  cases hres with
  | idle _ plain lists => exact ⟨by simp, emitted_of_replies plain lists⟩
  | @read s room s' net replies session found _ reads =>
    rcases reads with ⟨blob, event, rfl, rfl⟩ | ⟨_, rfl, rfl⟩
    · refine ⟨fun x hx => ?_, by simp⟩
      simp only [Room.input] at hx
      split_ifs at hx with hne
      · cases hhost : room.clients.lookup room.hostPeerId with
        | none => simp [hhost] at hx
        | some host =>
          simp only [hhost, trySend, List.nil_append] at hx
          rw [List.mem_singleton.mp hx]
          exact .input event session found ⟨hne, AList.mem_of_lookup hhost⟩
      · simp at hx
    · refine ⟨by simp, fun m hm => ?_⟩
      simp only [Room.requestState] at hm
      split_ifs at hm
      · simp at hm
      · rw [List.mem_singleton.mp hm]
        exact .state found
  | @op s o room s' _ performs _ found _ =>
    refine ⟨fun x hx => .told performs found (o.run_tells a.env room x hx), ?_⟩
    exact emitted_of_replies (o.replies_isAnswer a.env room)
      fun rooms hm => absurd hm (o.replies_no_list a.env room rooms)
  | left performs => exact ⟨leaveSession_emitted performs, by simp⟩
  | hello event _ _ => exact absurd ⟨_, event⟩ hh

end Roomie
