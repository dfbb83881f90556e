import Roomie.Seats

/-!
# What is heard over clear channels

When no channel is full or closed, nothing is pruned and an operation is exactly three
things: notices to single peers, news to every client it leaves, and, for a move, the news
to the pending ones as well. Since every member has a channel of its own, this says what
each channel receives.
-/

namespace Roomie
open HashTables

/-! ## One channel of a table -/

theorem onChannel_map_of_notMem {es : List (PeerId × ClientInfo)} {tx : ConnId}
    (h : ∀ e ∈ es, e.2.tx ≠ tx) (msg : ServerMessage) :
    onChannel tx (es.map fun e => (e.2.tx, msg)) = [] := by
  simp only [onChannel, List.map_eq_nil_iff, List.filter_eq_nil_iff, List.mem_map]
  rintro _ ⟨e, he, rfl⟩
  simpa using h e he

/-- A channel that belongs to one of the entries receives the message once. -/
theorem onChannel_map_of_mem {es : List (PeerId × ClientInfo)} {e : PeerId × ClientInfo}
    (hn : es.Nodup) (he : e ∈ es) (hu : ∀ f ∈ es, f.2.tx = e.2.tx → f = e) (msg : ServerMessage) :
    onChannel e.2.tx (es.map fun e => (e.2.tx, msg)) = [msg] := by
  have hfilter : (es.filter fun f => f.2.tx == e.2.tx) = [e] := by
    have heq : (es.filter fun f => f.2.tx == e.2.tx) = es.filter (· == e) := by
      refine List.filter_congr fun f hf => ?_
      by_cases hfe : f = e
      · simp [hfe]
      · have : f.2.tx ≠ e.2.tx := fun h => hfe (hu f hf h)
        simp [hfe, this]
    rw [heq, List.filter_beq, List.count_eq_one_of_mem hn he, List.replicate_one]
  rw [onChannel, List.filter_map, List.map_map]
  change ((es.filter fun f => f.2.tx == e.2.tx).map fun _ => msg) = [msg]
  rw [hfilter, List.map_singleton]

namespace Room

/-- No two ids share a channel. -/
def OneSeat (room : Room) : Prop :=
  ∀ p q i j, room.HasMember p i → room.HasMember q j → i.tx = j.tx → p = q

theorem OneSeat.of_hasMember {room room' : Room} (h : room.OneSeat)
    (hm : ∀ p i, room'.HasMember p i → room.HasMember p i) : room'.OneSeat :=
  fun p q i j hi hj => h p q i j (hm p i hi) (hm q j hj)

/-- A message to every accepted client. -/
def toClients (env : Env) (room : Room) (msg : ServerMessage) : Net :=
  (room.clients.iter env.peers).map fun e => (e.2.tx, msg)

/-- A message to every pending client. -/
def toPending (env : Env) (room : Room) (msg : ServerMessage) : Net :=
  (room.pending.iter env.peers).map fun e => (e.2.tx, msg)

section
variable {env : Env} {room : Room} {tx : ConnId} {p : PeerId} {i : ClientInfo}

theorem onChannel_toClients_of_client (h : room.OneSeat) (hp : room.clients.lookup p = some i)
    (msg : ServerMessage) : onChannel i.tx (room.toClients env msg) = [msg] := by
  refine onChannel_map_of_mem (e := (p, i)) (AList.nodup_iter _ _) (AList.mem_iter.mpr hp) ?_ msg
  rintro ⟨q, j⟩ hq htx
  have hq' := AList.mem_iter.mp hq
  obtain rfl := h q p j i (.inl hq') (.inl hp) htx
  rw [Option.some.inj (hq'.symm.trans hp)]

theorem onChannel_toPending_of_pending (h : room.OneSeat) (hp : room.pending.lookup p = some i)
    (msg : ServerMessage) : onChannel i.tx (room.toPending env msg) = [msg] := by
  refine onChannel_map_of_mem (e := (p, i)) (AList.nodup_iter _ _) (AList.mem_iter.mpr hp) ?_ msg
  rintro ⟨q, j⟩ hq htx
  have hq' := AList.mem_iter.mp hq
  obtain rfl := h q p j i (.inr hq') (.inr hp) htx
  rw [Option.some.inj (hq'.symm.trans hp)]

theorem onChannel_toClients_of_none (h : ∀ p i, room.clients.lookup p = some i → i.tx ≠ tx)
    (msg : ServerMessage) : onChannel tx (room.toClients env msg) = [] :=
  onChannel_map_of_notMem (fun e he => h e.1 e.2 (AList.mem_iter.mp he)) msg

theorem onChannel_toPending_of_none (h : ∀ p i, room.pending.lookup p = some i → i.tx ≠ tx)
    (msg : ServerMessage) : onChannel tx (room.toPending env msg) = [] :=
  onChannel_map_of_notMem (fun e he => h e.1 e.2 (AList.mem_iter.mp he)) msg

end

/-- The client that becomes host when `pid` has left. -/
def heir (env : Env) (pid : PeerId) (room : Room) : Option PeerId :=
  if room.hostPeerId = pid then room.clients.firstKey env.peers else none

end Room

namespace RoomOp

/-- The room an operation leaves when all channels are clear. -/
def after (env : Env) (room : Room) : RoomOp → Room
  | .leave pid =>
    { room.dropMember pid with
      hostPeerId := ((room.dropMember pid).heir env pid).getD room.hostPeerId }
  | o => o.edit room

/-- The notice to a peer that is taken out by the host. -/
def notices (room : Room) : RoomOp → Net
  | .control pid rc =>
    if room.hostPeerId = pid then
      match rc with
      | .denyPeer target =>
        (room.pending.lookup target).toList.map fun i => (i.tx, .roomEvent .kicked)
      | .kick target =>
        (room.clients.lookup target).toList.map fun i => (i.tx, .roomEvent .kicked)
      | .ban target =>
        (room.clients.lookup target).toList.map fun i => (i.tx, .roomEvent .banned)
      | _ => []
    else []
  | _ => []

/-- What every client that is left hears. -/
def news (env : Env) (room : Room) : RoomOp → List ServerMessage
  | .leave pid => .peerLeft pid ::
      ((room.dropMember pid).heir env pid).toList.map fun p => .roomEvent (.hostTransferred p)
  | .move pid blob =>
    if room.hostPeerId = pid ∧ room.moveAllowed then [.stateUpdate blob] else []
  | .control pid rc =>
    if room.hostPeerId = pid then
      match rc with
      | .updateSettings settings => [.roomEvent (.settingsChanged settings.withoutPassword)]
      | .acceptPeer target => (room.pending.lookup target).toList.map fun i =>
          .peerJoined target i.clientHash.value i.displayName
      | .kick target | .ban target => [.peerLeft target]
      | .transferHost target =>
        if target ∈ room.clients then [.roomEvent (.hostTransferred target)] else []
      | .setPublic _ | .denyPeer _ | .leave | .createRoom _ => []
    else []

/-- What every pending peer that is left hears. -/
def pendingNews (room : Room) : RoomOp → List ServerMessage
  | .move pid blob =>
    if room.hostPeerId = pid ∧ room.moveAllowed then [.stateUpdate blob] else []
  | _ => []

/-- Everything an operation sends when all channels are clear. -/
def messages (env : Env) (room : Room) (o : RoomOp) : Net :=
  o.notices room ++ (o.news env room).flatMap ((o.after env room).toClients env) ++
    (o.pendingNews room).flatMap ((o.after env room).toPending env)

end RoomOp

namespace Env.Clear
variable {env : Env} (hc : env.Clear)
include hc

theorem broadcast (room : Room) (msg : ServerMessage) (net : Net) :
    Roomie.broadcastAndPrune env room msg net = (room, net ++ room.toClients env msg) :=
  hc.broadcastAndPrune room msg net

theorem broadcastState (room : Room) (net : Net) :
    Roomie.broadcastStateUpdateAndPrune env room net =
      (room, net ++ room.toClients env (.stateUpdate room.state) ++
        room.toPending env (.stateUpdate room.state)) := by
  simp [hc.broadcastStateUpdateAndPrune, Room.everyone, Room.toClients, Room.toPending]

theorem removePeer (pid : PeerId) (room : Room) (net : Net) :
    room.removePeer env pid net =
      ((RoomOp.leave pid).after env room, net ++ (RoomOp.leave pid).messages env room) := by
  have hh : (room.dropMember pid).hostPeerId = room.hostPeerId := rfl
  simp only [Room.removePeer, hc.broadcast, RoomOp.after, RoomOp.messages, RoomOp.news,
    RoomOp.notices, RoomOp.pendingNews, Room.heir, hh]
  split_ifs with hpid
  · cases (room.dropMember pid).clients.firstKey env.peers with
    | some newHost => simp [Room.toClients]
    | none => simp [Room.toClients, Room.dropMember]
  · simp [Room.toClients, Room.dropMember]

theorem expel {event : RoomEvent} {mark : Room → ClientInfo → Room} (pid : PeerId) (room : Room)
    (net : Net) : room.expel env event mark pid net =
      match room.clients.lookup pid with
      | some info => (mark (room.dropClient pid) info, net ++ [(info.tx, .roomEvent event)] ++
          (mark (room.dropClient pid) info).toClients env (.peerLeft pid))
      | none => (room, net ++ room.toClients env (.peerLeft pid)) := by
  cases h : room.clients.lookup pid with
  | some info => rw [Room.expel_some h, hc.broadcast]
  | none => rw [Room.expel_none h, hc.broadcast]

theorem command (rc : RoomControl) (room : Room) (net : Net) :
    room.command env rc net = ((RoomOp.control room.hostPeerId rc).after env room,
      net ++ (RoomOp.control room.hostPeerId rc).messages env room) := by
  simp only [RoomOp.after, RoomOp.edit, RoomOp.messages, RoomOp.news, RoomOp.notices,
    RoomOp.pendingNews, if_true]
  cases rc with
  | acceptPeer target =>
    cases h : room.pending.lookup target <;>
      simp [Room.command, Room.acceptPeer, RoomControl.edit, h, hc.broadcast]
  | denyPeer target =>
    cases h : room.pending.lookup target with
    | some info => simp [Room.command, Room.denyPeer, RoomControl.edit, h, trySend]
    | none => simp [Room.command, Room.denyPeer, RoomControl.edit, h,
        AList.erase_of_notMem (AList.lookup_eq_none.mp h)]
  | kick target =>
    cases h : room.clients.lookup target with
    | some info => simp [Room.command, Room.kick, RoomControl.edit, hc.expel, h]
    | none => simp [Room.command, Room.kick, RoomControl.edit, hc.expel, h,
        Room.dropClient_of_notMem (AList.lookup_eq_none.mp h)]
  | ban target =>
    cases h : room.clients.lookup target with
    | some info => simp [Room.command, Room.ban, RoomControl.edit, hc.expel, h]; exact ⟨rfl, rfl⟩
    | none => simp [Room.command, Room.ban, RoomControl.edit, hc.expel, h]
  | transferHost target =>
    by_cases h : target ∈ room.clients <;>
      simp [Room.command, Room.transferHost, RoomControl.edit, h, hc.broadcast]
  | updateSettings settings =>
    simp [Room.command, Room.updateSettings, RoomControl.edit, hc.broadcast]
  | _ => simp [Room.command, RoomControl.edit]

/-- Over clear channels an operation is its edit, the hand over to an heir, and its messages. -/
theorem run (o : RoomOp) (room : Room) (net : Net) :
    o.run env room net = (o.after env room, net ++ o.messages env room) := by
  cases o with
  | leave pid => exact hc.removePeer pid room net
  | move pid blob =>
    simp only [RoomOp.run, RoomOp.after, RoomOp.edit, RoomOp.messages, RoomOp.news,
      RoomOp.notices, RoomOp.pendingNews, Room.move]
    by_cases hh : room.hostPeerId = pid
    · cases hm : room.moveAllowed <;> simp [hh, hc.broadcastState]
    · simp [hh]
  | control pid rc =>
    by_cases hh : room.hostPeerId = pid
    · subst hh
      simpa [RoomOp.run, Room.control] using hc.command rc room net
    · simp [RoomOp.run, Room.control, RoomOp.after, RoomOp.edit, RoomOp.messages, RoomOp.news,
        RoomOp.notices, RoomOp.pendingNews, hh]

end Env.Clear

/-! ## What a channel hears of an operation -/

theorem onChannel_flatMap {ms : List ServerMessage} {f : ServerMessage → Net} {tx : ConnId}
    {g : ServerMessage → List ServerMessage} (h : ∀ m, onChannel tx (f m) = g m) :
    onChannel tx (ms.flatMap f) = ms.flatMap g := by
  induction ms with
  | nil => rfl
  | cons m ms ih => rw [List.flatMap_cons, onChannel_append, h, ih, List.flatMap_cons]

theorem onChannel_of_notMem {net : Net} {tx : ConnId} (h : ∀ a ∈ net, a.1 ≠ tx) :
    onChannel tx net = [] := by
  simp only [onChannel, List.map_eq_nil_iff, List.filter_eq_nil_iff]
  exact fun a ha => by simpa using h a ha

namespace RoomOp

variable {env : Env} {room : Room} {o : RoomOp} {p : PeerId} {i : ClientInfo}

theorem after_clients (env : Env) (room : Room) (o : RoomOp) :
    (o.after env room).clients = (o.edit room).clients := by cases o <;> rfl

theorem after_pending (env : Env) (room : Room) (o : RoomOp) :
    (o.after env room).pending = (o.edit room).pending := by cases o <;> rfl

theorem after_hasMember (h : (o.after env room).HasMember p i) : room.HasMember p i := by
  rw [Room.HasMember, after_clients, after_pending] at h
  exact edit_hasMember h

theorem after_disjoint (hd : room.Disjoint) : (o.after env room).Disjoint := by
  intro q hq hq'
  rw [after_clients] at hq
  rw [after_pending] at hq'
  exact edit_disjoint hd q hq hq'

/-- A pending peer becomes a client only when the host accepts it. -/
theorem accepted_of_client (hd : room.Disjoint) (hp : p ∈ room.pending)
    (hc : p ∈ (o.after env room).clients) : o = .control room.hostPeerId (.acceptPeer p) := by
  have hnot : p ∉ room.clients := fun h => hd p h hp
  rw [after_clients] at hc
  cases o with
  | leave pid => exact absurd (AList.mem_erase.mp hc).2 hnot
  | move pid blob =>
    simp only [edit] at hc
    split_ifs at hc <;> exact absurd hc hnot
  | control pid rc =>
    simp only [edit] at hc
    split_ifs at hc with hh
    · cases rc with
      | acceptPeer target =>
        simp only [RoomControl.edit] at hc
        cases ht : room.pending.lookup target with
        | none =>
          rw [ht] at hc
          exact absurd hc hnot
        | some info =>
          rw [ht] at hc
          rcases (AList.mem_insert _).mp hc with rfl | hc
          · rw [hh]
          · exact absurd hc hnot
      | kick target => exact absurd (AList.mem_erase.mp hc).2 hnot
      | ban target =>
        simp only [RoomControl.edit] at hc
        cases ht : room.clients.lookup target with
        | none =>
          rw [ht] at hc
          exact absurd hc hnot
        | some info =>
          rw [ht] at hc
          exact absurd (AList.mem_erase.mp hc).2 hnot
      | transferHost target =>
        simp only [RoomControl.edit] at hc
        split_ifs at hc <;> exact absurd hc hnot
      | _ => exact absurd hc hnot
    · exact absurd hc hnot

/-- No operation makes anybody pending. -/
theorem after_pending_lookup (h : (o.after env room).pending.lookup p = some i) :
    room.pending.lookup p = some i := by
  rw [after_pending] at h
  cases o with
  | leave pid => exact (AList.lookup_erase_some.mp h).2
  | move pid blob =>
    simp only [edit] at h
    split_ifs at h <;> exact h
  | control pid rc =>
    simp only [edit] at h
    split_ifs at h
    · cases rc with
      | acceptPeer target =>
        simp only [RoomControl.edit] at h
        cases ht : room.pending.lookup target with
        | none => rwa [ht] at h
        | some info =>
          rw [ht] at h
          exact (AList.lookup_erase_some.mp h).2
      | denyPeer target => exact (AList.lookup_erase_some.mp h).2
      | ban target =>
        simp only [RoomControl.edit] at h
        split at h <;> exact h
      | transferHost target =>
        simp only [RoomControl.edit] at h
        split_ifs at h <;> exact h
      | _ => exact h
    · exact h

/-- A notice goes to a member that is taken out. -/
theorem notices_spec (hd : room.Disjoint) {a : ConnId × ServerMessage} (ha : a ∈ o.notices room) :
    ∃ q j, room.HasMember q j ∧ a.1 = j.tx ∧ ∀ k, ¬ (o.after env room).HasMember q k := by
  cases o with
  | leave pid => simp [notices] at ha
  | move pid blob => simp [notices] at ha
  | control pid rc =>
    by_cases hh : room.hostPeerId = pid
    · simp only [notices, hh, if_true] at ha
      have hclient : ∀ target j, room.clients.lookup target = some j → ∀ k,
          ¬ ((room.dropClient target).HasMember target k) := by
        rintro target j hj k (hk | hk)
        · exact (AList.lookup_erase_some.mp hk).1 rfl
        · exact hd target (AList.mem_of_lookup hj) (AList.mem_of_lookup hk)
      cases rc with
      | denyPeer target =>
        obtain ⟨j, hj, rfl⟩ := List.mem_map.mp ha
        have hj' := Option.mem_toList.mp hj
        refine ⟨target, j, .inr hj', rfl, ?_⟩
        rintro k (hk | hk)
        · simp only [after, edit, hh, if_true, RoomControl.edit] at hk
          exact hd target (AList.mem_of_lookup hk) (AList.mem_of_lookup hj')
        · simp only [after, edit, hh, if_true, RoomControl.edit] at hk
          exact (AList.lookup_erase_some.mp hk).1 rfl
      | kick target =>
        obtain ⟨j, hj, rfl⟩ := List.mem_map.mp ha
        have hj' := Option.mem_toList.mp hj
        refine ⟨target, j, .inl hj', rfl, fun k hk => hclient target j hj' k ?_⟩
        simpa only [after, edit, hh, if_true, RoomControl.edit] using hk
      | ban target =>
        obtain ⟨j, hj, rfl⟩ := List.mem_map.mp ha
        have hj' := Option.mem_toList.mp hj
        refine ⟨target, j, .inl hj', rfl, fun k hk => hclient target j hj' k ?_⟩
        simp only [after, edit, hh, if_true, RoomControl.edit] at hk
        rw [show room.clients.lookup target = some j from hj'] at hk
        exact hk
      | _ => simp at ha
    · simp [notices, hh] at ha

theorem onChannel_notices (hd : room.Disjoint) (h1 : room.OneSeat)
    (hp : (o.after env room).HasMember p i) : onChannel i.tx (o.notices room) = [] := by
  refine onChannel_of_notMem fun a ha htx => ?_
  obtain ⟨q, j, hq, haj, hgone⟩ := @notices_spec env _ _ hd _ ha
  obtain rfl := h1 q p j i hq (after_hasMember hp) (haj.symm.trans htx)
  exact hgone i hp

/-- A client that is left hears exactly the news. -/
theorem heard_by_client (hd : room.Disjoint) (h1 : room.OneSeat)
    (hp : (o.after env room).clients.lookup p = some i) :
    onChannel i.tx (o.messages env room) = o.news env room := by
  have h1' := h1.of_hasMember fun q j => @after_hasMember env _ o q j
  have hd' : (o.after env room).Disjoint := after_disjoint hd
  have hpending : ∀ q j, (o.after env room).pending.lookup q = some j → j.tx ≠ i.tx := by
    intro q j hj htx
    obtain rfl := h1' q p j i (.inr hj) (.inl hp) htx
    exact hd' q (AList.mem_of_lookup hp) (AList.mem_of_lookup hj)
  rw [messages, onChannel_append, onChannel_append, onChannel_notices hd h1 (.inl hp),
    onChannel_flatMap (Room.onChannel_toClients_of_client h1' hp),
    onChannel_flatMap (Room.onChannel_toPending_of_none hpending)]
  simp

/-- A pending peer that is left hears of moves only. -/
theorem heard_by_pending (hd : room.Disjoint) (h1 : room.OneSeat)
    (hp : (o.after env room).pending.lookup p = some i) :
    onChannel i.tx (o.messages env room) = o.pendingNews room := by
  have h1' := h1.of_hasMember fun q j => @after_hasMember env _ o q j
  have hd' : (o.after env room).Disjoint := after_disjoint hd
  have hclients : ∀ q j, (o.after env room).clients.lookup q = some j → j.tx ≠ i.tx := by
    intro q j hj htx
    obtain rfl := h1' q p j i (.inl hj) (.inr hp) htx
    exact hd' q (AList.mem_of_lookup hj) (AList.mem_of_lookup hp)
  rw [messages, onChannel_append, onChannel_append, onChannel_notices hd h1 (.inr hp),
    onChannel_flatMap (Room.onChannel_toClients_of_none hclients),
    onChannel_flatMap (Room.onChannel_toPending_of_pending h1' hp)]
  simp

/-- Nobody outside the room hears anything. -/
theorem heard_outside (hd : room.Disjoint) {tx : ConnId} (h : ∀ p i, room.HasMember p i → i.tx ≠ tx) :
    onChannel tx (o.messages env room) = [] := by
  have hnotices : onChannel tx (o.notices room) = [] := by
    refine onChannel_of_notMem fun a ha htx => ?_
    obtain ⟨q, j, hq, haj, _⟩ := @notices_spec env _ _ hd _ ha
    exact h q j hq (haj.symm.trans htx)
  rw [messages, onChannel_append, onChannel_append, hnotices,
    onChannel_flatMap
      (Room.onChannel_toClients_of_none fun q j hj => h q j (after_hasMember (.inl hj))),
    onChannel_flatMap
      (Room.onChannel_toPending_of_none fun q j hj => h q j (after_hasMember (.inr hj)))]
  simp

/-- Who leaves hears nothing of it, unless another member has its channel. -/
theorem leave_heard_outside {pid : PeerId} {tx : ConnId}
    (h : ∀ p i, room.HasMember p i → i.tx = tx → p = pid) :
    onChannel tx ((RoomOp.leave pid).messages env room) = [] := by
  have hclients : ∀ q j, ((RoomOp.leave pid).after env room).clients.lookup q = some j → j.tx ≠ tx := by
    intro q j hj htx
    obtain ⟨hne, hj⟩ := AList.lookup_erase_some.mp hj
    exact hne (h q j (.inl hj) htx)
  rw [messages, onChannel_append, onChannel_append,
    onChannel_flatMap (Room.onChannel_toClients_of_none hclients)]
  simp [notices, pendingNews]

end RoomOp

end Roomie
