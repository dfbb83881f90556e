import Roomie.PruningBroadcasts

/-!
# The operations on one room

The sections that can change a room, apart from the admission of a new member, are listed
as operations. Each one first edits the room and then broadcasts; `edit` is the edit alone,
and the room an operation leaves behind is the edited one without some members whose
channel was closed. Admission is described once, with everything that was checked before.
-/

namespace Roomie
open HashTables

/-- An operation under the lock of a room, by the peer `pid` it is done for. -/
inductive RoomOp where
  | leave (pid : PeerId)
  | move (pid : PeerId) (blob : Blob)
  | control (pid : PeerId) (rc : RoomControl)

namespace RoomOp

def run (env : Env) : RoomOp → Room → Net → Room × Net
  | .leave pid, room, net => room.removePeer env pid net
  | .move pid blob, room, net => ((room.move env pid blob net).1, (room.move env pid blob net).2.1)
  | .control pid rc, room, net =>
    ((room.control env pid rc net).1, (room.control env pid rc net).2.1)

end RoomOp

/-- The edit a host's command makes before anything is broadcast. -/
def RoomControl.edit (rc : RoomControl) (room : Room) : Room :=
  match rc with
  | .updateSettings settings => { room with settings := settings }
  | .setPublic isPublic => { room with settings := { room.settings with isPublic := isPublic } }
  | .acceptPeer pid =>
    match room.pending.lookup pid with
    | some info =>
      { room with pending := room.pending.erase pid, clients := room.clients.insert pid info }
    | none => room
  | .denyPeer pid => { room with pending := room.pending.erase pid }
  | .kick pid => room.dropClient pid
  | .ban pid =>
    match room.clients.lookup pid with
    | some info => { room.dropClient pid with banned := insert info.clientHash room.banned }
    | none => room
  | .transferHost pid => if pid ∈ room.clients then { room with hostPeerId := pid } else room
  | .leave | .createRoom _ => room

/-- The edit of an operation. -/
def RoomOp.edit : RoomOp → Room → Room
  | .leave pid, room => room.dropMember pid
  | .move pid blob, room =>
    if room.hostPeerId = pid ∧ room.moveAllowed then { room with state := blob } else room
  | .control pid rc, room => if room.hostPeerId = pid then rc.edit room else room

theorem Room.dropClient_of_notMem {room : Room} {pid : PeerId} (h : pid ∉ room.clients) :
    room.dropClient pid = room := by
  rw [dropClient, AList.erase_of_notMem h]

theorem Room.expel_some {env : Env} {event : RoomEvent} {mark : Room → ClientInfo → Room}
    {pid : PeerId} {room : Room} {net : Net} {info : ClientInfo}
    (h : room.clients.lookup pid = some info) :
    room.expel env event mark pid net =
      broadcastAndPrune env (mark (room.dropClient pid) info) (.peerLeft pid)
        (net ++ [(info.tx, .roomEvent event)]) := by
  simp [expel, h, trySend]

theorem Room.expel_none {env : Env} {event : RoomEvent} {mark : Room → ClientInfo → Room}
    {pid : PeerId} {room : Room} {net : Net} (h : room.clients.lookup pid = none) :
    room.expel env event mark pid net = broadcastAndPrune env room (.peerLeft pid) net := by
  simp [expel, h]

theorem Room.command_prunedTo (env : Env) (rc : RoomControl) (room : Room) (net : Net) :
    PrunedTo env (rc.edit room) (room.command env rc net).1 := by
  cases rc with
  | createRoom settings => exact .refl env room
  | leave => exact .refl env room
  | setPublic isPublic => exact .refl env _
  | updateSettings settings => exact broadcastAndPrune_prunedTo env _ _ net
  | acceptPeer pid =>
    simp only [RoomControl.edit, command, acceptPeer]
    cases room.pending.lookup pid with
    | some info => exact broadcastAndPrune_prunedTo env _ _ net
    | none => exact .refl env room
  | denyPeer pid =>
    simp only [RoomControl.edit, command, denyPeer]
    cases h : room.pending.lookup pid with
    | some info => exact .refl env _
    | none =>
      rw [AList.erase_of_notMem (AList.lookup_eq_none.mp h)]
      exact .refl env room
  | kick pid =>
    simp only [RoomControl.edit, command, kick]
    cases h : room.clients.lookup pid with
    | some info =>
      rw [expel_some h]
      exact broadcastAndPrune_prunedTo env _ _ _
    | none =>
      rw [expel_none h, dropClient_of_notMem (AList.lookup_eq_none.mp h)]
      exact broadcastAndPrune_prunedTo env room _ net
  | ban pid =>
    simp only [RoomControl.edit, command, ban]
    cases h : room.clients.lookup pid with
    | some info =>
      rw [expel_some h]
      exact broadcastAndPrune_prunedTo env _ _ _
    | none =>
      rw [expel_none h]
      exact broadcastAndPrune_prunedTo env room _ net
  | transferHost pid =>
    simp only [RoomControl.edit, command, transferHost]
    split_ifs
    · exact broadcastAndPrune_prunedTo env _ _ net
    · exact .refl env room

theorem Room.control_prunedTo (env : Env) (pid : PeerId) (rc : RoomControl) (room : Room)
    (net : Net) :
    PrunedTo env ((RoomOp.control pid rc).edit room) (room.control env pid rc net).1 := by
  simp only [RoomOp.edit, control]
  split_ifs
  · exact room.command_prunedTo env rc net
  · exact .refl env room

theorem Room.move_prunedTo (env : Env) (pid : PeerId) (blob : Blob) (room : Room) (net : Net) :
    PrunedTo env ((RoomOp.move pid blob).edit room) (room.move env pid blob net).1 := by
  by_cases hh : room.hostPeerId = pid
  · cases hm : room.moveAllowed with
    | true =>
      simpa [RoomOp.edit, move, hh, hm] using broadcastStateUpdateAndPrune_prunedTo env _ net
    | false => simpa [RoomOp.edit, move, hh, hm] using PrunedTo.refl env room
  · simpa [RoomOp.edit, move, hh] using PrunedTo.refl env room

/-- A leave prunes, and hands a host's role to the first remaining client. -/
theorem Room.removePeer_cases (env : Env) (pid : PeerId) (room : Room) (net : Net) :
    ∃ mid, PrunedTo env (room.dropMember pid) mid ∧
      (mid.hostPeerId ≠ pid ∧ (room.removePeer env pid net).1 = mid ∨
        mid.hostPeerId = pid ∧ mid.clients.isEmpty = true ∧
          (room.removePeer env pid net).1 = mid ∨
        ∃ newHost, mid.hostPeerId = pid ∧ newHost ∈ mid.clients ∧
          PrunedTo env { mid with hostPeerId := newHost } (room.removePeer env pid net).1) := by
  have hp := broadcastAndPrune_prunedTo env (room.dropMember pid) (.peerLeft pid) net
  unfold removePeer
  generalize broadcastAndPrune env (room.dropMember pid) (.peerLeft pid) net = mid at hp
  obtain ⟨mid, net'⟩ := mid
  refine ⟨mid, hp, ?_⟩
  by_cases hh : mid.hostPeerId = pid
  · cases hf : mid.clients.firstKey env.peers with
    | none =>
      refine .inr (.inl ⟨hh, AList.isEmpty_iff.mpr (AList.firstKey_eq_none.mp hf), ?_⟩)
      simp [hh, hf]
    | some newHost =>
      refine .inr (.inr ⟨newHost, hh, AList.firstKey_mem hf, ?_⟩)
      simpa [hh, hf] using broadcastAndPrune_prunedTo env _ _ _
  · exact .inl ⟨hh, by simp [hh]⟩

theorem Room.removePeer_shrunkTo (env : Env) (pid : PeerId) (room : Room) (net : Net) :
    ShrunkTo env (room.dropMember pid) (room.removePeer env pid net).1 := by
  obtain ⟨mid, hp, ⟨_, heq⟩ | ⟨_, _, heq⟩ | ⟨newHost, _, _, hp'⟩⟩ := room.removePeer_cases env pid net
  · exact heq ▸ hp.toShrunkTo
  · exact heq ▸ hp.toShrunkTo
  · exact (hp.toShrunkTo.trans (.setHost env mid newHost)).trans hp'.toShrunkTo

/-- Every operation is its edit, followed by the loss of members with closed channels. -/
theorem RoomOp.run_shrunkTo (env : Env) (op : RoomOp) (room : Room) (net : Net) :
    ShrunkTo env (op.edit room) (op.run env room net).1 := by
  cases op with
  | leave pid => exact room.removePeer_shrunkTo env pid net
  | move pid blob => exact (room.move_prunedTo env pid blob net).toShrunkTo
  | control pid rc => exact (room.control_prunedTo env pid rc net).toShrunkTo

/-! ## Operations bring nobody in -/

theorem RoomControl.edit_hasMember {rc : RoomControl} {room : Room} {p : PeerId} {i : ClientInfo}
    (h : (rc.edit room).HasMember p i) : room.HasMember p i := by
  cases rc with
  | createRoom settings => exact h
  | leave => exact h
  | setPublic isPublic => exact h
  | updateSettings settings => exact h
  | acceptPeer pid =>
    simp only [edit] at h
    cases hp : room.pending.lookup pid with
    | none => simpa [hp] using h
    | some info =>
      simp only [hp] at h
      rcases h with h | h
      · rcases AList.lookup_insert_some.mp h with ⟨rfl, rfl⟩ | ⟨_, h⟩
        · exact .inr hp
        · exact .inl h
      · exact .inr (AList.lookup_erase_some.mp h).2
  | denyPeer pid => exact h.imp_right fun hp => (AList.lookup_erase_some.mp hp).2
  | kick pid => exact h.imp_left fun hp => (AList.lookup_erase_some.mp hp).2
  | ban pid =>
    simp only [edit] at h
    cases hp : room.clients.lookup pid with
    | none => simpa [hp] using h
    | some info =>
      simp only [hp] at h
      exact h.imp_left fun hp => (AList.lookup_erase_some.mp hp).2
  | transferHost pid =>
    simp only [edit] at h
    split_ifs at h <;> exact h

theorem RoomOp.edit_hasMember {o : RoomOp} {room : Room} {p : PeerId} {i : ClientInfo}
    (h : (o.edit room).HasMember p i) : room.HasMember p i := by
  cases o with
  | leave pid =>
    exact h.imp (fun hp => (AList.lookup_erase_some.mp hp).2)
      fun hp => (AList.lookup_erase_some.mp hp).2
  | move pid blob =>
    simp only [edit] at h
    split_ifs at h <;> exact h
  | control pid rc =>
    simp only [edit] at h
    split_ifs at h
    · exact RoomControl.edit_hasMember h
    · exact h

theorem RoomOp.run_hasMember {env : Env} {o : RoomOp} {room : Room} {net : Net} {p : PeerId}
    {i : ClientInfo} (h : (o.run env room net).1.HasMember p i) : room.HasMember p i :=
  edit_hasMember ((o.run_shrunkTo env room net).hasMember h)

/-- No edit moves a room. -/
theorem RoomOp.edit_place (o : RoomOp) (room : Room) :
    (o.edit room).appKey = room.appKey ∧ (o.edit room).code = room.code := by
  cases o with
  | leave pid => exact ⟨rfl, rfl⟩
  | move pid blob =>
    simp only [edit]
    split_ifs <;> exact ⟨rfl, rfl⟩
  | control pid rc =>
    simp only [edit]
    split_ifs
    · cases rc with
      | acceptPeer pid => simp only [RoomControl.edit]; split <;> exact ⟨rfl, rfl⟩
      | ban pid => simp only [RoomControl.edit]; split <;> exact ⟨rfl, rfl⟩
      | transferHost pid => simp only [RoomControl.edit]; split <;> exact ⟨rfl, rfl⟩
      | _ => exact ⟨rfl, rfl⟩
    · exact ⟨rfl, rfl⟩

/-- Only a ban changes the banned hashes, and it adds one. -/
theorem RoomControl.edit_banned (rc : RoomControl) (room : Room) :
    (∀ pid, rc ≠ .ban pid) → (rc.edit room).banned = room.banned := by
  intro hb
  cases rc with
  | ban pid => exact absurd rfl (hb pid)
  | acceptPeer pid => simp only [edit]; split <;> rfl
  | transferHost pid => simp only [edit]; split <;> rfl
  | _ => rfl

theorem RoomOp.edit_banned_subset (o : RoomOp) (room : Room) : room.banned ⊆ (o.edit room).banned := by
  cases o with
  | leave pid => exact subset_rfl
  | move pid blob => simp only [edit]; split <;> exact subset_rfl
  | control pid rc =>
    simp only [edit]
    split
    · by_cases hb : ∃ target, rc = .ban target
      · obtain ⟨target, rfl⟩ := hb
        simp only [RoomControl.edit]
        split
        · exact Finset.subset_insert _ _
        · exact subset_rfl
      · rw [rc.edit_banned room fun target ht => hb ⟨target, ht⟩]
    · exact subset_rfl

/-! ## Admission -/

namespace Room

theorem inUse_eq_false {room : Room} {pid : PeerId} :
    room.inUse pid = false ↔ pid ∉ room.clients ∧ pid ∉ room.pending := by
  simp [inUse, AList.mem_keys]

theorem firstUnused_some {room : Room} {candidate count : ℕ} {pid : PeerId}
    (h : room.firstUnused candidate count = some pid) : room.inUse pid = false := by
  induction count generalizing candidate with
  | zero => simp [firstUnused] at h
  | succ count ih =>
    unfold firstUnused at h
    split_ifs at h with hu
    · exact ih h
    · rw [← Option.some.inj h]
      simpa using hu

/-- The allocator only moves the counter, and hands out an id nobody has. -/
theorem nextPeerId_spec (room : Room) :
    (∃ n, (room.nextPeerId).2 = { room with peerCounter := n }) ∧
      ∀ pid, (room.nextPeerId).1 = some pid → pid ∉ room.clients ∧ pid ∉ room.pending := by
  have hfree : ∀ (n : PeerId) (pid : PeerId),
      ({ room with peerCounter := n } : Room).inUse pid = false →
        pid ∉ room.clients ∧ pid ∉ room.pending :=
    fun _ _ h => inUse_eq_false.mp h
  unfold nextPeerId
  dsimp only
  split_ifs with hu
  · generalize hs : Option.or _ _ = scan
    cases scan with
    | none => exact ⟨⟨_, rfl⟩, by simp⟩
    | some candidate =>
      refine ⟨⟨_, rfl⟩, ?_⟩
      rintro pid ⟨rfl⟩
      rcases Option.or_eq_some_iff.mp hs with h | ⟨_, h⟩
      · exact hfree _ _ (firstUnused_some h)
      · exact hfree _ _ (firstUnused_some h)
  · refine ⟨⟨_, rfl⟩, ?_⟩
    rintro pid ⟨rfl⟩
    exact hfree _ _ (by simpa using hu)

/-- The counter's own id is handed out when it is free. -/
theorem nextPeerId_of_unused {room : Room} (h : room.inUse room.peerCounter = false) :
    room.nextPeerId.1 = some room.peerCounter := by
  have hused : ({ room with peerCounter := saturatingSucc room.peerCounter } : Room).inUse
      room.peerCounter = false := h
  unfold nextPeerId
  simp [hused]

theorem firstUnused_congr {room room' : Room} (h : ∀ p, room.inUse p = room'.inUse p)
    (candidate count : ℕ) : room.firstUnused candidate count = room'.firstUnused candidate count := by
  induction count generalizing candidate with
  | zero => rfl
  | succ count ih => simp only [firstUnused, h, ih]

/-- The allocator looks at the counter and at the ids in use, not at the host. -/
theorem nextPeerId_setHost (room : Room) (pid : PeerId) :
    ({ room with hostPeerId := pid } : Room).nextPeerId.1 = room.nextPeerId.1 := by
  have hcongr : ∀ n candidate count,
      ({ room with hostPeerId := pid, peerCounter := n } : Room).firstUnused candidate count =
        ({ room with peerCounter := n } : Room).firstUnused candidate count :=
    fun n => firstUnused_congr fun _ => rfl
  have huse : ∀ n p, ({ room with hostPeerId := pid, peerCounter := n } : Room).inUse p =
      ({ room with peerCounter := n } : Room).inUse p := fun _ _ => rfl
  unfold nextPeerId
  simp only [hcongr, huse]
  split_ifs
  · generalize Option.or _ _ = scan
    cases scan <;> rfl
  · rfl

theorem seat_data (room : Room) (pid : PeerId) (info : ClientInfo) :
    SameData room (room.seat pid info) := by
  unfold seat
  split_ifs <;> exact ⟨rfl, rfl, rfl, rfl, rfl, rfl⟩

/-- After the seating the members are those before and the new one. -/
theorem seat_hasMember {room : Room} {pid : PeerId} {info : ClientInfo} {p : PeerId}
    {i : ClientInfo} (h : (room.seat pid info).HasMember p i) :
    p = pid ∧ i = info ∨ room.HasMember p i := by
  have hinsert : ∀ m : Members, (m.insert pid info).lookup p = some i →
      p = pid ∧ i = info ∨ m.lookup p = some i := by
    intro m hm
    rcases AList.lookup_insert_some.mp hm with ⟨hp, hi⟩ | ⟨_, hm⟩
    · exact .inl ⟨hp, hi.symm⟩
    · exact .inr hm
  unfold seat at h
  split_ifs at h
  · exact h.elim (fun h => (hinsert _ h).imp_right .inl) fun h => .inr (.inr h)
  · exact h.elim (fun h => .inr (.inl h)) fun h => (hinsert _ h).imp_right .inr
  · exact h.elim (fun h => (hinsert _ h).imp_right .inl) fun h => .inr (.inr h)

/-- The members there were keep their place. -/
theorem seat_kept {room : Room} {pid p : PeerId} {info : ClientInfo} (hne : pid ≠ p) :
    (room.seat pid info).clients.lookup p = room.clients.lookup p ∧
      (room.seat pid info).pending.lookup p = room.pending.lookup p := by
  unfold seat
  split_ifs <;> simp [AList.lookup_insert_ne hne.symm]

/-- Who does not have to wait is an accepted client. -/
theorem seat_accepted {room : Room} {pid : PeerId} {info : ClientInfo}
    (h : room.isVacant = true ∨ room.settings.acceptRequired = false) :
    (room.seat pid info).clients.lookup pid = some info := by
  unfold seat
  split_ifs with hv hacc
  · exact AList.lookup_insert _
  · simp [hv, hacc] at h
  · exact AList.lookup_insert _

/-- The reasons for which the locked part of `Hello` refuses. -/
def Refuses (room : Room) (h : Hello) : Prop :=
  room.isBanned ⟨h.clientHash⟩ = true ∨ room.isFull = true ∨
    room.wrongPassword h.password = true ∨ room.nextPeerId.1 = none

/-- The member a `Hello` becomes when it is let in. -/
def newcomer (room : Room) (me : ConnId) (h : Hello) : ClientInfo :=
  ⟨⟨h.clientHash⟩, h.displayName, me, room.nextAvailableSide⟩

/-- A `Hello` that was let in: the checks it passed, and what became of the room. -/
structure Admitted (env : Env) (me : ConnId) (code : RoomCode) (h : Hello) (room : Room) (net : Net)
    (room' : Room) (net' : Net) (pid : PeerId) (joined : ServerMessage) : Prop where
  notBanned : room.isBanned ⟨h.clientHash⟩ = false
  notFull : room.isFull = false
  password : room.wrongPassword h.password = false
  allocated : room.nextPeerId.1 = some pid
  fresh : pid ∉ room.clients ∧ pid ∉ room.pending
  seated : ∃ n, room' = ({ room with peerCounter := n } : Room).seat pid (room.newcomer me h)
  net_eq : net' = room'.announceJoined env pid (room.newcomer me h) net
  joined_eq : joined = room'.joinedMessage code pid room.nextAvailableSide

theorem Admitted.not_refuses {env : Env} {me : ConnId} {code : RoomCode} {h : Hello}
    {room room' : Room} {net net' : Net} {pid : PeerId} {joined : ServerMessage}
    (ha : Admitted env me code h room net room' net' pid joined) : ¬ room.Refuses h := by
  rintro (hr | hr | hr | hr)
  · simp [ha.notBanned] at hr
  · simp [ha.notFull] at hr
  · simp [ha.password] at hr
  · simp [ha.allocated] at hr

theorem Admitted.data {env : Env} {me : ConnId} {code : RoomCode} {h : Hello} {room room' : Room}
    {net net' : Net} {pid : PeerId} {joined : ServerMessage}
    (ha : Admitted env me code h room net room' net' pid joined) :
    room'.state = room.state ∧ room'.settings = room.settings ∧ room'.banned = room.banned ∧
      room'.code = room.code := by
  obtain ⟨n, rfl⟩ := ha.seated
  have hd := seat_data { room with peerCounter := n } pid (room.newcomer me h)
  exact ⟨hd.state, hd.settings, hd.banned, hd.code⟩

theorem Admitted.member {env : Env} {me : ConnId} {code : RoomCode} {h : Hello}
    {room room' : Room} {net net' : Net} {pid : PeerId} {joined : ServerMessage}
    (ha : Admitted env me code h room net room' net' pid joined) :
    room'.HasMember pid (room.newcomer me h) := by
  obtain ⟨n, rfl⟩ := ha.seated
  unfold seat
  split_ifs
  · exact .inl (AList.lookup_insert _)
  · exact .inr (AList.lookup_insert _)
  · exact .inl (AList.lookup_insert _)

theorem Admitted.hasMember {env : Env} {me : ConnId} {code : RoomCode} {h : Hello}
    {room room' : Room} {net net' : Net} {pid : PeerId} {joined : ServerMessage}
    (ha : Admitted env me code h room net room' net' pid joined) {p : PeerId} {i : ClientInfo}
    (hp : room'.HasMember p i) : p = pid ∧ i = room.newcomer me h ∨ room.HasMember p i := by
  obtain ⟨n, rfl⟩ := ha.seated
  exact @seat_hasMember { room with peerCounter := n } _ _ _ _ hp

theorem Admitted.kept {env : Env} {me : ConnId} {code : RoomCode} {h : Hello}
    {room room' : Room} {net net' : Net} {pid p : PeerId} {joined : ServerMessage}
    (ha : Admitted env me code h room net room' net' pid joined) (hne : pid ≠ p) :
    room'.clients.lookup p = room.clients.lookup p ∧
      room'.pending.lookup p = room.pending.lookup p := by
  obtain ⟨n, rfl⟩ := ha.seated
  exact @seat_kept { room with peerCounter := n } _ _ _ hne

theorem admit_cases (env : Env) (me : ConnId) (code : RoomCode) (h : Hello) (room : Room)
    (net : Net) :
    (room.Refuses h ∧ ∃ n message, message ∈ errorTexts ∧ room.admitPeer env me code h net =
      ({ room with peerCounter := n }, net, .error message)) ∨
    ¬ room.Refuses h ∧ ∃ room' net' pid joined,
      room.admitPeer env me code h net = (room', net', .ok (pid, joined)) ∧
        Admitted env me code h room net room' net' pid joined := by
  obtain ⟨⟨n, hn⟩, hfresh⟩ := room.nextPeerId_spec
  unfold admitPeer Refuses
  by_cases hb : room.isBanned ⟨h.clientHash⟩ = true
  · exact .inl ⟨.inl hb, room.peerCounter, "banned from this room", by simp [errorTexts],
      by rw [if_pos hb]⟩
  rw [if_neg hb]
  by_cases hf : room.isFull = true
  · exact .inl ⟨.inr (.inl hf), room.peerCounter, "room full", by simp [errorTexts],
      by rw [if_pos hf]⟩
  rw [if_neg hf]
  by_cases hw : room.wrongPassword h.password = true
  · exact .inl ⟨.inr (.inr (.inl hw)), room.peerCounter, "invalid or missing room password",
      by simp [errorTexts], by rw [if_pos hw]⟩
  rw [if_neg hw]
  generalize hid : room.nextPeerId = alloc at hn hfresh
  obtain ⟨id, room'⟩ := alloc
  simp only at hn hfresh
  subst hn
  cases id with
  | none => exact .inl ⟨.inr (.inr (.inr rfl)), n, "room full", by simp [errorTexts], rfl⟩
  | some pid =>
    right
    refine ⟨by simp [hb, hf, hw], _, _, pid, _, rfl, ?_⟩
    exact ⟨by simpa using hb, by simpa using hf, by simpa using hw, by rw [hid], hfresh pid rfl,
      ⟨n, rfl⟩, rfl, rfl⟩

end Room

end Roomie
