import Roomie.Episodes

/-!
# What one member hears

The view of a single member on an episode: how its room changes and what arrives on its
channel. Claims about what members know, and about the order and number of the messages
they get, are inductions over this view.
-/

namespace Roomie
open HashTables GuardedRuns Seats

/-- A turn as the member `p` with the data `i` hears it. -/
inductive HearsTurn (env : Env) (g : Room → RoomOp → Prop) (p : PeerId) (i : ClientInfo) :
    Room → List ServerMessage → Room → Prop
  | rest (room : Room) : HearsTurn env g p i room [] room
  | input {room : Room} (host : room.hostPeerId = p) (pid : PeerId) (blob : Blob) :
      HearsTurn env g p i room [.peerInput pid blob] room
  | opClient {room : Room} {o : RoomOp} (allowed : g room o) (disjoint : room.Disjoint)
      (client : (o.after env room).clients.lookup p = some i) :
      HearsTurn env g p i room (o.news env room) (o.after env room)
  | opPending {room : Room} {o : RoomOp} (allowed : g room o) (disjoint : room.Disjoint)
      (pending : (o.after env room).pending.lookup p = some i) :
      HearsTurn env g p i room (o.pendingNews room) (o.after env room)

/-- An arrival as the member `p` with the data `i` hears it. -/
inductive HearsArrival (env : Env) (comer : Option (ConnId × Hello)) (appKey key : String)
    (p : PeerId) (i : ClientInfo) : Room → List ServerMessage → Room → Prop
  | rest (room : Room) : HearsArrival env comer appKey key p i room [] room
  | count (room : Room) (n : PeerId) :
      HearsArrival env comer appKey key p i room [] { room with peerCounter := n }
  | admitPeer {me : ConnId} {h : Hello} {room room' : Room} {net : Net} {pid : PeerId}
      {joined : ServerMessage} (comes : comer = some (me, h))
      (place : h.appKey = appKey ∧ h.roomCode.key = key) (disjoint : room.Disjoint)
      (member : room.HasMember p i) (other : pid ≠ p)
      (admitted : Room.Admitted env me h.roomCode h room [] room' net pid joined) :
      HearsArrival env comer appKey key p i room
        (if pid ∈ room'.clients ∧ p ∈ room.clients then
          [.peerJoined pid h.clientHash h.displayName] else []) room'

namespace Room

variable {env : Env} {room room' : Room} {me : ConnId} {code : RoomCode} {h : Hello} {net : Net}
  {pid p : PeerId} {joined : ServerMessage} {i info : ClientInfo}

/-- In a room with members the host does not change, and an admission is announced when it is
to the accepted clients. -/
theorem Admitted.inCompany (ha : Admitted env me code h room [] room' net pid joined)
    (hm : room.HasMember p i) : room'.hostPeerId = room.hostPeerId ∧
      (!room'.settings.acceptRequired || room'.clients.keys.contains pid) =
        decide (pid ∈ room'.clients) := by
  obtain ⟨n, rfl⟩ := ha.seated
  have hv : ({ room with peerCounter := n } : Room).isVacant = false :=
    isVacant_eq_false_of_hasMember hm
  have hfresh : pid ∉ room.clients := ha.fresh.1
  have hkeys : pid ∉ room.clients.keys := fun h => hfresh (AList.mem_keys.mpr h)
  cases hacc : room.settings.acceptRequired <;> simp [seat, hv, hacc, hfresh, hkeys]

/-- An admission is heard by every other client, if the newcomer is accepted at once. -/
theorem Admitted.heard (ha : Admitted env me code h room [] room' net pid joined)
    (h1 : room'.OneSeat) (hd : room.Disjoint) (hm : room.HasMember p i) (hne : pid ≠ p) :
    onChannel i.tx net = if pid ∈ room'.clients ∧ p ∈ room.clients then
      [.peerJoined pid h.clientHash h.displayName] else [] := by
  obtain ⟨hclients, hpending⟩ := ha.kept hne
  rw [ha.net_eq]
  simp only [announceJoined, (ha.inCompany hm).2]
  by_cases hpid : pid ∈ room'.clients
  · simp only [hpid, decide_true, if_true, true_and, sendAll_net, List.nil_append]
    have hfilter : ∀ e, e ∈ (room'.clients.iter env.peers).filter (fun e => e.1 != pid) →
        e.2.tx = i.tx → e = (p, i) := by
      rintro ⟨q, j⟩ he htx
      have hj := AList.mem_iter.mp (List.mem_filter.mp he).1
      have hm' : room'.HasMember p i := by rwa [HasMember, hclients, hpending]
      obtain rfl := h1 q p j i (.inl hj) hm' htx
      rw [hclients] at hj
      rw [hd.info_unique (.inl hj) hm]
    split_ifs with hp
    · obtain ⟨j, hj⟩ := AList.mem_iff_lookup.mp hp
      obtain rfl := hd.info_unique (.inl hj) hm
      refine onChannel_map_of_mem (e := (p, j)) ((AList.nodup_iter _ _).filter _) ?_ hfilter _
      refine List.mem_filter.mpr ⟨AList.mem_iter.mpr (hclients.trans hj), ?_⟩
      simpa using hne.symm
    · refine onChannel_map_of_notMem (fun e he htx => hp ?_) _
      have heq := hfilter e he htx
      have he' := AList.mem_iter.mp (List.mem_filter.mp he).1
      rw [heq, hclients] at he'
      exact AList.mem_of_lookup he'
  · simp [hpid]

end Room

section
variable {env : Env} {comer : Option (ConnId × Hello)} {g : Room → RoomOp → Prop}
  {appKey key : String} {room room' : Room} {net : Net} {p : PeerId} {i : ClientInfo}

theorem Turn.disjoint (t : Turn env g room net room') (hd : room.Disjoint) : room'.Disjoint := by
  cases t with
  | rest => exact hd
  | op _ => exact disjoint_invariant.op _ _ _ _ hd trivial
  | input => exact hd

theorem Turn.oneSeat (t : Turn env g room net room') (h1 : room.OneSeat) : room'.OneSeat :=
  h1.of_hasMember fun _ _ => t.hasMember

/-- Over clear channels every member that is left hears a turn in its own view. -/
theorem Turn.hears (hc : env.Clear) (t : Turn env g room net room') (hd : room.Disjoint)
    (h1 : room.OneSeat) (hm : room'.HasMember p i) :
    HearsTurn env g p i room (onChannel i.tx net) room' := by
  cases t with
  | rest => exact .rest room
  | @op o allowed =>
    rw [hc.run] at hm ⊢
    rw [List.nil_append]
    rcases hm with hm | hm
    · rw [RoomOp.heard_by_client hd h1 hm]
      exact .opClient allowed hd hm
    · rw [RoomOp.heard_by_pending hd h1 hm]
      exact .opPending allowed hd hm
  | input pid blob =>
    simp only [Room.input]
    split_ifs
    · cases hhost : room.clients.lookup room.hostPeerId with
      | none => exact .rest room
      | some host =>
        simp only [trySend, List.nil_append]
        by_cases htx : host.tx = i.tx
        · have hhear : onChannel i.tx [(host.tx, .peerInput pid blob)] = [.peerInput pid blob] := by
            simp [onChannel, htx]
          rw [hhear]
          exact .input (h1 _ p _ i (.inl hhost) hm htx) pid blob
        · have hhear : onChannel i.tx [(host.tx, .peerInput pid blob)] = [] := by
            simp [onChannel, htx]
          rw [hhear]
          exact .rest room
    · exact .rest room

theorem Arrival.oneSeat (a : Arrival env comer appKey key room net room') (h1 : room.OneSeat) :
    room'.OneSeat := by
  cases a with
  | rest => exact h1
  | count n => exact h1
  | admitPeer _ _ _ absent admitted =>
    intro p q i j hp hq htx
    rcases admitted.hasMember hp with ⟨rfl, rfl⟩ | hp' <;>
      rcases admitted.hasMember hq with ⟨rfl, rfl⟩ | hq'
    · rfl
    · exact absurd htx.symm (absent q j hq')
    · exact absurd htx (absent p i hp')
    · exact h1 p q i j hp' hq' htx

/-- Every member but the comer hears an arrival in its own view. -/
theorem Arrival.hears (a : Arrival env comer appKey key room net room') (hd : room.Disjoint)
    (h1 : room.OneSeat) (hm : room'.HasMember p i) (hne : ∀ h, comer ≠ some (i.tx, h)) :
    HearsArrival env comer appKey key p i room (onChannel i.tx net) room' := by
  have h1' := a.oneSeat h1
  have hbefore := a.hasMember hm hne
  cases a with
  | rest => exact .rest room
  | count n => exact .count room _
  | @admitPeer me h _ _ _ pid _ comes valid place absent admitted =>
    have hother : pid ≠ p := by
      rintro rfl
      rcases hbefore with hb | hb
      · exact admitted.fresh.1 (AList.mem_of_lookup hb)
      · exact admitted.fresh.2 (AList.mem_of_lookup hb)
    rw [admitted.heard h1' hd hbefore hother]
    exact .admitPeer comes place hd hbefore hother admitted

end

theorem HearsTurn.hasMember {env : Env} {g : Room → RoomOp → Prop} {p : PeerId} {i : ClientInfo}
    {room room' : Room} {ms : List ServerMessage} (h : HearsTurn env g p i room ms room')
    (hm : room'.HasMember p i) : room.HasMember p i := by
  cases h with
  | rest => exact hm
  | input _ _ _ => exact hm
  | opClient _ _ _ => exact RoomOp.after_hasMember hm
  | opPending _ _ _ => exact RoomOp.after_hasMember hm

theorem HearsArrival.hasMember {env : Env} {comer : Option (ConnId × Hello)}
    {appKey key : String} {p : PeerId} {i : ClientInfo} {room room' : Room}
    {ms : List ServerMessage} (h : HearsArrival env comer appKey key p i room ms room')
    (hm : room'.HasMember p i) : room.HasMember p i := by
  cases h with
  | rest => exact hm
  | count _ => exact hm
  | admitPeer _ _ _ member _ _ => exact member

/-- What a member hears of an action: its view of the turn and of the arrival, and answers to
itself that tell nothing about the room but its state; or, when it comes with the action, the
`Joined`, from a room that was there or from a new one. -/
inductive StepHears (sys : Sys) (a : Action) (g : Room → RoomOp → Prop) (appKey key : String)
    (room' : Room) (p : PeerId) (i : ClientInfo) : List ServerMessage → Prop
  | stays {room mid : Room} {ms ms' answers : List ServerMessage}
      (stays : ∀ h, a.comer ≠ some (i.tx, h)) (found : sys.roomAt appKey key = some room)
      (turn : HearsTurn a.env g p i room ms mid)
      (arrival : HearsArrival a.env a.comer appKey key p i mid ms' room')
      (answers_spec : (∀ m ∈ answers, m.IsAnswer) ∨
        a.event = .message .requestState ∧ answers = room'.requestState) :
      StepHears sys a g appKey key room' p i (ms ++ ms' ++ answers)
  | joins {h : Hello} {room mid : Room} {net net' : Net} {joined : ServerMessage}
      (comes : a.comer = some (i.tx, h)) (found : sys.roomAt appKey key = some room)
      (turn : Turn a.env g room net mid)
      (admitted : Room.Admitted a.env i.tx h.roomCode h mid [] room' net' p joined)
      (code : RoomCode) (side : UInt8) :
      StepHears sys a g appKey key room' p i [room'.joinedMessage code p side]
  | opens {h : Hello} (comes : a.comer = some (i.tx, h))
      (alone : ∀ q j, room'.HasMember q j → j.tx = i.tx)
      (was : ∀ room, sys.roomAt appKey key = some room → ∃ pid, ∀ q j, room.HasMember q j → q = pid)
      (code : RoomCode) (side : UInt8) :
      StepHears sys a g appKey key room' p i [room'.joinedMessage code p side]

/-- Who comes hears the `Joined` and nothing else. -/
theorem comer_hears {sys : Sys} {a : Action} {appKey key : String} (hs : Seated sys)
    (hc : a.env.Clear) {room' : Room} (hr' : (step sys a).roomAt appKey key = some room')
    {p : PeerId} {i : ClientInfo} (hm : room'.HasMember p i) {h : Hello}
    (hcomer : a.comer = some (i.tx, h)) : ∃ (code : RoomCode) (side : UInt8),
      onChannel i.tx (a.sent sys) = [room'.joinedMessage code p side] := by
  obtain ⟨htx, event⟩ := Action.comer_eq_some hcomer
  have hans := step_answered hs hr' hm htx
  rw [onChannel_sent hc, if_pos htx, htx, hello_unheard hs hc event, List.nil_append]
  cases hans with
  | stays hnone _ => simp [hnone] at hcomer
  | asked event' _ => simp [event'] at event
  | joins _ code side heq => exact ⟨code, side, heq⟩

/-- A member that does not come with the action sees a turn and an arrival. -/
theorem step_view {sys : Sys} {a : Action} {g : Env → Room → RoomOp → Prop}
    {appKey key : String} (hs : Seated sys) (hd : AllDisjoint sys) (hc : a.env.Clear)
    (hg : OpGuard g sys a) {room' : Room} (hr' : (step sys a).roomAt appKey key = some room')
    {p : PeerId} {i : ClientInfo} (hm : room'.HasMember p i)
    (hstays : ∀ h, a.comer ≠ some (i.tx, h)) :
    ∃ room mid ms ms', sys.roomAt appKey key = some room ∧
      HearsTurn a.env (g a.env) p i room ms mid ∧
      HearsArrival a.env a.comer appKey key p i mid ms' room' ∧
      onChannel i.tx (a.outcome sys).net = ms ++ ms' := by
  rcases step_episode hs hd hc hg hr' with
    ⟨room, _, hr, ⟨turn, _, arrival⟩, hheard⟩ | ⟨h, hsome, hnew, _⟩
  · have hdr := hd _ _ _ hr
    have h1 := hs.oneSeat hr
    have hnet := hheard p i hm
    rw [onChannel_sent hc, onChannel_append] at hnet
    exact ⟨room, _, _, _, hr, turn.hears hc hdr h1 (arrival.hasMember hm hstays),
      arrival.hears (turn.disjoint hdr) (turn.oneSeat h1) hm hstays,
      List.append_cancel_right hnet⟩
  · exact absurd (hnew p i hm ▸ hsome) (hstays h)

theorem step_hears {sys : Sys} {a : Action} {g : Env → Room → RoomOp → Prop} {appKey key : String}
    (hs : Seated sys) (hd : AllDisjoint sys) (hc : a.env.Clear) (hg : OpGuard g sys a)
    {room' : Room} (hr' : (step sys a).roomAt appKey key = some room') {p : PeerId}
    {i : ClientInfo} (hm : room'.HasMember p i) :
    StepHears sys a (g a.env) appKey key room' p i (onChannel i.tx (a.sent sys)) := by
  by_cases hcomer : ∃ h, a.comer = some (i.tx, h)
  · obtain ⟨h, hcomer⟩ := hcomer
    obtain ⟨code, side, heq⟩ := comer_hears hs hc hr' hm hcomer
    rw [heq]
    rcases step_episode hs hd hc hg hr' with
      ⟨room, _, hr, ⟨turn, absent, arrival⟩, _⟩ | ⟨h', hsome, hnew, hwas⟩
    · have hgone := absent _ _ hcomer
      cases arrival with
      | rest => exact absurd rfl (hgone p i hm)
      | count n => exact absurd rfl (hgone p i hm)
      | @admitPeer me h' _ _ _ pid _ comes _ _ _ admitted =>
        obtain ⟨rfl, rfl⟩ := Prod.mk.inj (Option.some.inj (hcomer.symm.trans comes))
        rcases admitted.hasMember hm with ⟨rfl, _⟩ | hmid
        · exact .joins hcomer hr turn admitted code side
        · exact absurd rfl (hgone p i hmid)
    · have htx := (Action.comer_eq_some hcomer).1
      exact .opens hcomer (fun q j hq => (hnew q j hq).trans htx.symm) hwas code side
  · have hstays : ∀ h, a.comer ≠ some (i.tx, h) := fun h heq => hcomer ⟨h, heq⟩
    obtain ⟨room, mid, ms, ms', hr, turn, arrival, hnet⟩ := step_view hs hd hc hg hr' hm hstays
    rw [onChannel_sent hc, hnet]
    refine .stays hstays hr turn arrival ?_
    split_ifs with htx
    · cases step_answered hs hr' hm htx with
      | stays _ plain => exact .inl plain
      | asked event heq => exact .inr ⟨event, heq⟩
      | joins hsome _ _ _ => exact absurd (htx ▸ hsome) (hstays _)
    · exact .inl (by simp)

/-! ## Recorded runs -/

/-- A system with everything that was enqueued on each channel so far. -/
structure Recorded where
  sys : Sys
  log : ConnId → List ServerMessage

def Recorded.start : Recorded := ⟨.start, fun _ => []⟩

def record (r : Recorded) (a : Action) : Recorded :=
  ⟨step r.sys a, fun tx => r.log tx ++ onChannel tx (a.sent r.sys)⟩

theorem allDisjoint_of_reachable {sys : Sys} (h : Reachable sys) : AllDisjoint sys :=
  fun _ _ _ hr => reachable_disjoint h hr

theorem reachable_of_record {guard : Recorded → Action → Prop} {r : Recorded}
    (h : Reaches record guard .start r) : Reachable r.sys :=
  h.map Recorded.sys (fun _ _ => rfl) fun _ _ _ => trivial

end Roomie
