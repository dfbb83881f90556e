import Roomie.ClearChannels

/-!
# One room during one action

Seen from a single room an action is an episode of two parts: the turn of the acting
connection, which runs an operation or none, and an arrival, when the action is a `Hello`
for this room. Over clear channels every member of the room afterwards has heard exactly
the messages of the episode, and the acting connection its replies.
-/

namespace Roomie
open HashTables GuardedRuns Seats

/-- What the acting connection does to a room as a member of it, with the messages sent. -/
inductive Turn (env : Env) (g : Room → RoomOp → Prop) : Room → Net → Room → Prop
  | rest (room : Room) : Turn env g room [] room
  | op {room : Room} {o : RoomOp} (allowed : g room o) :
      Turn env g room (o.run env room []).2 (o.run env room []).1
  | input (room : Room) (pid : PeerId) (blob : Blob) :
      Turn env g room (room.input env pid blob []) room

/-- What a `Hello` does to the room under `appKey` and `key`; `comer` is who says it. -/
inductive Arrival (env : Env) (comer : Option (ConnId × Hello)) (appKey key : String) :
    Room → Net → Room → Prop
  | rest (room : Room) : Arrival env comer appKey key room [] room
  | count (room : Room) (n : PeerId) :
      Arrival env comer appKey key room [] { room with peerCounter := n }
  | admitPeer {me : ConnId} {h : Hello} {room room' : Room} {net : Net} {pid : PeerId}
      {joined : ServerMessage} (comes : comer = some (me, h)) (valid : h.Valid)
      (place : h.appKey = appKey ∧ h.roomCode.key = key)
      (absent : ∀ p i, room.HasMember p i → i.tx ≠ me)
      (admitted : Room.Admitted env me h.roomCode h room [] room' net pid joined) :
      Arrival env comer appKey key room net room'

/-- A turn and an arrival; who says `Hello` has left before. -/
inductive Episode (env : Env) (comer : Option (ConnId × Hello)) (g : Room → RoomOp → Prop)
    (appKey key : String) : Room → Net → Room → Prop
  | mk {room mid room' : Room} {net net' : Net} (turn : Turn env g room net mid)
      (absent : ∀ me h, comer = some (me, h) → ∀ p i, mid.HasMember p i → i.tx ≠ me)
      (arrival : Arrival env comer appKey key mid net' room') :
      Episode env comer g appKey key room (net ++ net') room'

namespace Room

theorem announceJoined_net (env : Env) (room : Room) (pid : PeerId) (info : ClientInfo)
    (net : Net) : room.announceJoined env pid info net =
      net ++ room.announceJoined env pid info [] := by
  simp only [announceJoined]
  split_ifs <;> simp [sendAll_net]

/-- The announcements of an admission come after whatever was sent before. -/
theorem Admitted.split {env : Env} {me : ConnId} {code : RoomCode} {h : Hello} {room room' : Room}
    {net net' : Net} {pid : PeerId} {joined : ServerMessage}
    (ha : Admitted env me code h room net room' net' pid joined) :
    ∃ added, net' = net ++ added ∧ Admitted env me code h room [] room' added pid joined :=
  ⟨_, ha.net_eq.trans (announceJoined_net env room' pid _ net),
    { ha with net_eq := rfl }⟩

/-- The announcements of an admission go to members that were there before. -/
theorem Admitted.addressees {env : Env} {me : ConnId} {code : RoomCode} {h : Hello}
    {room room' : Room} {net : Net} {pid : PeerId} {joined : ServerMessage}
    (ha : Admitted env me code h room [] room' net pid joined) {a : ConnId × ServerMessage}
    (hm : a ∈ net) : ∃ q j, room.HasMember q j ∧ a.1 = j.tx := by
  rw [ha.net_eq] at hm
  simp only [announceJoined] at hm
  split_ifs at hm
  · rw [sendAll_net, List.nil_append] at hm
    obtain ⟨e, he, rfl⟩ := List.mem_map.mp hm
    obtain ⟨he, hne⟩ := List.mem_filter.mp he
    rcases ha.hasMember (.inl (AList.mem_iter.mp he)) with ⟨heq, _⟩ | hbefore
    · simp [heq] at hne
    · exact ⟨e.1, e.2, hbefore, rfl⟩
  · simp at hm

theorem isVacant_eq_false_of_hasMember {room : Room} {p : PeerId} {i : ClientInfo}
    (hm : room.HasMember p i) : room.isVacant = false := by
  rw [← Bool.not_eq_true]
  intro hv
  obtain ⟨hc, hp⟩ : (∀ p, p ∉ room.clients) ∧ ∀ p, p ∉ room.pending := by
    simpa [isVacant] using hv
  rcases hm with hm | hm
  · exact hc p (AList.mem_of_lookup hm)
  · exact hp p (AList.mem_of_lookup hm)

/-- Nobody is a member of a new room. -/
theorem not_hasMember_new {appKey : String} {code : RoomCode} {settings : RoomSettings}
    {p : PeerId} {i : ClientInfo} : ¬ (Room.new appKey code settings).HasMember p i := by
  rintro (h | h) <;> simp [Room.new] at h

end Room

section
variable {env : Env} {comer : Option (ConnId × Hello)} {g : Room → RoomOp → Prop}
  {appKey key : String} {room room' : Room} {net : Net}

theorem Turn.life (t : Turn env g room net room') : RoomLife env g room room' := by
  cases t with
  | rest => exact .refl room
  | op allowed => exact .op [] allowed
  | input => exact .refl room

theorem Arrival.life (a : Arrival env comer appKey key room net room') :
    RoomLife env g room room' := by
  cases a with
  | rest => exact .refl room
  | count n => exact .count room _
  | admitPeer _ valid _ _ admitted => exact .admitPeer valid admitted

/-- An episode is a stretch of the life of a room. -/
theorem Episode.life (e : Episode env comer g appKey key room net room') :
    RoomLife env g room room' := by
  cases e with
  | mk turn _ arrival => exact turn.life.trans arrival.life

theorem Turn.hasMember (t : Turn env g room net room') {p : PeerId} {i : ClientInfo}
    (hm : room'.HasMember p i) : room.HasMember p i := by
  cases t with
  | rest => exact hm
  | op _ => exact RoomOp.run_hasMember hm
  | input => exact hm

/-- Nobody but the comer comes in. -/
theorem Arrival.hasMember (a : Arrival env comer appKey key room net room') {p : PeerId}
    {i : ClientInfo} (hm : room'.HasMember p i) (hne : ∀ h, comer ≠ some (i.tx, h)) :
    room.HasMember p i := by
  cases a with
  | rest => exact hm
  | count n => exact hm
  | admitPeer comes _ _ _ admitted =>
    rcases admitted.hasMember hm with ⟨_, rfl⟩ | hm
    · exact absurd comes (hne _)
    · exact hm

end

theorem Seats.Seated.oneSeat {sys : Sys} (h : Seated sys) {appKey key : String} {room : Room}
    (hr : sys.roomAt appKey key = some room) : room.OneSeat :=
  fun _ _ _ _ hp hq htx => (h.unique hr hp hr hq htx).2.2

/-- Who says `Hello`, and how. -/
def Action.comer (a : Action) : Option (ConnId × Hello) :=
  match a.event with
  | .message (.hello h) => some (a.conn, h)
  | _ => none

theorem Action.comer_eq_some {a : Action} {tx : ConnId} {h : Hello} (hc : a.comer = some (tx, h)) :
    tx = a.conn ∧ a.event = .message (.hello h) := by
  unfold comer at hc
  split at hc
  · rename_i heq
    obtain ⟨rfl, rfl⟩ := Prod.mk.inj (Option.some.inj hc)
    exact ⟨rfl, heq⟩
  · cases hc

/-- All rooms are without double ids. -/
def AllDisjoint (sys : Sys) : Prop :=
  ∀ appKey key room, sys.roomAt appKey key = some room → room.Disjoint

section
variable {sys : Sys} {a : Action} {appKey key : String} {g : Env → Room → RoomOp → Prop}

/-- An operation on another room is not heard by the members of this one. -/
theorem heard_elsewhere (hs : Seated sys) (hd : AllDisjoint sys) (hc : a.env.Clear) {s : Session}
    {old room : Room} {o : RoomOp} (hold : sys.roomAt s.appKey s.roomCode.key = some old)
    (hk : ¬ (appKey = s.appKey ∧ key = s.roomCode.key)) (hr : sys.roomAt appKey key = some room)
    {p : PeerId} {i : ClientInfo} (hm : room.HasMember p i) :
    onChannel i.tx (o.run a.env old []).2 = [] := by
  rw [hc.run, List.nil_append]
  refine RoomOp.heard_outside (hd _ _ _ hold) fun q j hj htx => hk ?_
  obtain ⟨h1, h2, _⟩ := hs.unique hr hm hold hj htx.symm
  exact ⟨h1, h2⟩

/-- The acting connection hears nothing of its own leave. -/
theorem leaveSession_unheard (hs : Seated sys) (hc : a.env.Clear) :
    onChannel a.conn (leaveSession a.env sys.server (sys.session a.conn) []).2 = [] := by
  cases hsess : sys.session a.conn with
  | none => rfl
  | some s =>
    simp only [leaveSession]
    cases hold : sys.server.roomAt s.appKey s.roomCode.key with
    | none =>
      rw [leaveRoom_none hold]
      rfl
    | some old =>
      rw [leaveRoom_net hold, hc.removePeer, List.nil_append]
      refine RoomOp.leave_heard_outside fun p i hm htx => ?_
      have hnames := hs _ _ _ _ _ hold hm
      rw [htx, hsess] at hnames
      obtain ⟨_, ⟨⟩, _, _, hpid⟩ := hnames
      exact hpid.symm

/-- The leave of a session, seen from a room: a turn in which the acting connection gives up its
seat and hears nothing. -/
theorem leaveSession_turn (hs : Seated sys) (hd : AllDisjoint sys) (hc : a.env.Clear)
    (hg : OpGuard g sys a)
    (hp : ∀ s, sys.session a.conn = some s → a.op sys = some (s, .leave s.peerId)) {room' : Room}
    (hr' : (leaveSession a.env sys.server (sys.session a.conn) []).1.roomAt appKey key =
      some room') :
    ∃ room net, sys.roomAt appKey key = some room ∧ Turn a.env (g a.env) room net room' ∧
      onChannel a.conn net = [] ∧
      ∀ p i, room'.HasMember p i → i.tx ≠ a.conn ∧
        onChannel i.tx (leaveSession a.env sys.server (sys.session a.conn) []).2 =
          onChannel i.tx net := by
  have hgone : ∀ p i, room'.HasMember p i → i.tx ≠ a.conn := by
    intro p i hm heq
    obtain ⟨⟨room, hr, hm⟩, hn⟩ := leaveSession_hasMember hr' hm
    exact hn (heq ▸ hs _ _ _ _ _ hr hm)
  have hunheard := leaveSession_unheard (a := a) hs hc
  cases hsess : sys.session a.conn with
  | none =>
    rw [hsess] at hr'
    exact ⟨room', [], hr', .rest room', rfl, fun p i hm => ⟨hgone p i hm, rfl⟩⟩
  | some s =>
    rw [hsess] at hr' hunheard
    simp only [leaveSession] at hr' hunheard ⊢
    cases hold : sys.server.roomAt s.appKey s.roomCode.key with
    | none =>
      rw [leaveRoom_none hold] at hr' ⊢
      exact ⟨room', [], hr', .rest room', rfl, fun p i hm => ⟨hgone p i hm, rfl⟩⟩
    | some old =>
      rw [leaveRoom_net hold] at hunheard ⊢
      have hput := leaveRoom_roomPut a.env s.peerId [] hold
      by_cases hk : appKey = s.appKey ∧ key = s.roomCode.key
      · obtain ⟨rfl, rfl⟩ := hk
        rw [hput.here, leftBehind] at hr'
        split_ifs at hr'
        obtain rfl := Option.some.inj hr'
        exact ⟨old, _, hold, .op (o := .leave s.peerId) (hg _ _ _ (hp s hsess) hold), hunheard,
          fun p i hm => ⟨hgone p i hm, rfl⟩⟩
      · rw [hput.elsewhere hk] at hr'
        exact ⟨room', [], hr', .rest room', rfl, fun p i hm =>
          ⟨hgone p i hm, heard_elsewhere (o := .leave s.peerId) hs hd hc hold hk hr' hm⟩⟩

theorem onChannel_replies (tx me : ConnId) (replies : List ServerMessage) :
    onChannel tx (replies.map fun m => (me, m)) = if tx = me then replies else [] := by
  split_ifs with h
  · subst h
    simp [onChannel, List.filter_map, Function.comp_def]
  · exact onChannel_of_notMem fun b hb => by
      obtain ⟨m, _, rfl⟩ := List.mem_map.mp hb
      exact fun heq => h heq.symm

theorem onChannel_sent (hc : a.env.Clear) (tx : ConnId) :
    onChannel tx (a.sent sys) = onChannel tx (a.outcome sys).net ++
      if tx = a.conn then (a.outcome sys).replies else [] := by
  rw [Action.sent, hc.delivered, Action.attempts, sendReplies, onChannel_append, onChannel_replies]

/-- A `Hello` after the leave, seen from a room: the acting connection has no seat, and whatever
is sent in addition belongs to the arrival; or the room is new and has no other member. -/
theorem HelloResult.arrival {env : Env} {me : ConnId} {h : Hello} {s : Server} {net : Net}
    {o : Outcome} (hres : HelloResult env me h s net o)
    (hs : ∀ appKey appKey' key key' room room' p q i j, s.roomAt appKey key = some room →
      room.HasMember p i → s.roomAt appKey' key' = some room' → room'.HasMember q j →
      i.tx = j.tx → appKey = appKey' ∧ key = key')
    (absent : ∀ appKey key room p i, s.roomAt appKey key = some room → room.HasMember p i →
      i.tx ≠ me) {room' : Room} (hr' : o.server.roomAt appKey key = some room') :
    (∃ room net', s.roomAt appKey key = some room ∧
      Arrival env (some (me, h)) appKey key room net' room' ∧ onChannel me net' = [] ∧
      ∀ p i, room'.HasMember p i → onChannel i.tx o.net = onChannel i.tx net ++ onChannel i.tx net') ∨
    s.roomAt appKey key = none ∧ ∀ p i, room'.HasMember p i → i.tx = me := by
  cases hres with
  | refused same =>
    exact .inl ⟨room', [], (same appKey key).symm.trans hr', .rest room', rfl, fun p i _ => by simp⟩
  | @rejected s₁ s₂ s' code room n message gate opened _ _ put =>
    by_cases hk : appKey = h.appKey ∧ key = code.key
    · obtain ⟨rfl, rfl⟩ := hk
      obtain rfl := Option.some.inj (put.here.symm.trans hr')
      rcases opened.origin with ⟨_, _, hat⟩ | ⟨_, hfree, _, _, _, rfl⟩
      · exact .inl ⟨room, [], ((helloGate_ok gate).2 _ _).symm.trans hat, .count room n, rfl,
          fun p i _ => by simp⟩
      · refine .inr ⟨((helloGate_ok gate).2 _ _).symm.trans hfree, fun p i hm => ?_⟩
        rcases hm with hm | hm <;> simp [Room.new] at hm
    · rw [put.elsewhere hk, opened.put.elsewhere hk, (helloGate_ok gate).2] at hr'
      exact .inl ⟨room', [], hr', .rest room', rfl, fun p i _ => by simp⟩
  | @joined s₁ s₂ s' code room roomJ net' pid joined gate opened admitted put =>
    obtain ⟨added, rfl, hadm⟩ := admitted.split
    have hold : ∀ p i, room.HasMember p i → s.roomAt h.appKey code.key = some room := by
      intro p i hm
      rcases opened.origin with ⟨_, _, hat⟩ | ⟨_, _, _, _, _, rfl⟩
      · exact ((helloGate_ok gate).2 _ _).symm.trans hat
      · exact absurd hm Room.not_hasMember_new
    have hme : onChannel me added = [] := by
      refine onChannel_of_notMem fun b hb htx => ?_
      obtain ⟨q, j, hq, hbj⟩ := hadm.addressees hb
      exact absent _ _ room q j (hold q j hq) hq (hbj.symm.trans htx)
    by_cases hk : appKey = h.appKey ∧ key = code.key
    · obtain ⟨rfl, rfl⟩ := hk
      obtain rfl := Option.some.inj (put.here.symm.trans hr')
      rcases opened.origin with ⟨_, rfl, hat⟩ | ⟨_, hfree, _, _, _, rfl⟩
      · have hat' := ((helloGate_ok gate).2 _ _).symm.trans hat
        exact .inl ⟨room, added, hat', .admitPeer rfl (helloGate_ok gate).1 ⟨rfl, rfl⟩
          (fun p i hm => absent _ _ room p i hat' hm) hadm, hme, fun p i _ => onChannel_append _ _ _⟩
      · refine .inr ⟨((helloGate_ok gate).2 _ _).symm.trans hfree, fun p i hm => ?_⟩
        rcases hadm.hasMember hm with ⟨_, rfl⟩ | hm
        · rfl
        · exact absurd hm Room.not_hasMember_new
    · rw [put.elsewhere hk, opened.put.elsewhere hk, (helloGate_ok gate).2] at hr'
      refine .inl ⟨room', [], hr', .rest room', rfl, fun p i hm => ?_⟩
      have hnone : onChannel i.tx added = [] := by
        refine onChannel_of_notMem fun b hb htx => hk ?_
        obtain ⟨q, j, hq, hbj⟩ := hadm.addressees hb
        exact hs _ _ _ _ _ _ _ _ _ _ hr' hm (hold q j hq) hq (htx.symm.trans hbj)
      rw [onChannel_append, hnone, onChannel_nil]

/-- A room that a leave removes had one member at most. -/
theorem leaveSession_removes (hc : a.env.Clear) {room : Room}
    (hr : sys.roomAt appKey key = some room)
    (hn : (leaveSession a.env sys.server (sys.session a.conn) []).1.roomAt appKey key = none) :
    ∃ pid, ∀ p i, room.HasMember p i → p = pid := by
  change sys.server.roomAt appKey key = some room at hr
  cases hsess : sys.session a.conn with
  | none =>
    rw [hsess] at hn
    cases hn.symm.trans hr
  | some s =>
    rw [hsess] at hn
    simp only [leaveSession] at hn
    refine ⟨s.peerId, fun p i hm => ?_⟩
    cases hold : sys.server.roomAt s.appKey s.roomCode.key with
    | none =>
      rw [leaveRoom_none hold] at hn
      cases hn.symm.trans hr
    | some old =>
      have hput := leaveRoom_roomPut a.env s.peerId [] hold
      by_cases hk : appKey = s.appKey ∧ key = s.roomCode.key
      · obtain ⟨rfl, rfl⟩ := hk
        obtain rfl : old = room := Option.some.inj (hold.symm.trans hr)
        rw [hput.here, leftBehind, hc.removePeer] at hn
        split_ifs at hn with hv
        by_contra hne
        have hm' : ((RoomOp.leave s.peerId).after a.env old).HasMember p i := by
          rw [Room.HasMember, RoomOp.after_clients, RoomOp.after_pending]
          exact hm.imp (fun h => AList.lookup_erase_some.mpr ⟨hne, h⟩)
            fun h => AList.lookup_erase_some.mpr ⟨hne, h⟩
        simp [Room.isVacant_eq_false_of_hasMember hm'] at hv
      · rw [hput.elsewhere hk] at hn
        cases hn.symm.trans hr

/-- What a `Hello` brings: an episode of the room as it was, or a new room of the newcomer, replacing
at most a room with a single member. -/
theorem hello_episode (hs : Seated sys) (hd : AllDisjoint sys) (hc : a.env.Clear)
    (hg : OpGuard g sys a) {h : Hello} (event : a.event = .message (.hello h)) {room' : Room}
    (hr' : (a.outcome sys).server.roomAt appKey key = some room') :
    (∃ room net, sys.roomAt appKey key = some room ∧
      Episode a.env a.comer (g a.env) appKey key room net room' ∧
      ∀ p i, room'.HasMember p i → onChannel i.tx (a.outcome sys).net = onChannel i.tx net) ∨
    (∀ p i, room'.HasMember p i → i.tx = a.conn) ∧
      ∀ room, sys.roomAt appKey key = some room → ∃ pid, ∀ p i, room.HasMember p i → p = pid := by
  have hcomer : a.comer = some (a.conn, h) := by simp [Action.comer, event]
  have performs : ∀ s, sys.session a.conn = some s → a.op sys = some (s, .leave s.peerId) :=
    fun s hs => by simp [Action.op, event, hs]
  have hout : a.outcome sys = dispatchHello a.env sys.server (sys.session a.conn) a.conn h := by
    simp [Action.outcome, event, dispatch]
  have result := dispatchHello_result a.env sys.server (sys.session a.conn) a.conn h
  rw [hcomer]
  rw [← hout] at result
  revert result hr'
  generalize a.outcome sys = out
  intro hr' result
  have hseat : ∀ appKey appKey' key key' room room' p q i j,
      (leaveSession a.env sys.server (sys.session a.conn) []).1.roomAt appKey key = some room →
      room.HasMember p i →
      (leaveSession a.env sys.server (sys.session a.conn) []).1.roomAt appKey' key' = some room' →
      room'.HasMember q j → i.tx = j.tx → appKey = appKey' ∧ key = key' := by
    intro appKey appKey' key key' room room' p q i j hr hp hr' hq htx
    obtain ⟨⟨r, hr, hp⟩, _⟩ := leaveSession_hasMember hr hp
    obtain ⟨⟨r', hr', hq⟩, _⟩ := leaveSession_hasMember hr' hq
    obtain ⟨h1, h2, _⟩ := hs.unique hr hp hr' hq htx
    exact ⟨h1, h2⟩
  have habsent : ∀ appKey key room p i,
      (leaveSession a.env sys.server (sys.session a.conn) []).1.roomAt appKey key = some room →
      room.HasMember p i → i.tx ≠ a.conn := by
    intro appKey key room p i hr hm
    obtain ⟨_, _, _, _, _, hheard⟩ := leaveSession_turn hs hd hc hg performs hr
    exact (hheard p i hm).1
  have hunheard := leaveSession_unheard (a := a) hs hc
  rcases result.arrival hseat habsent hr' with ⟨mid, net', hr, harr, hme, hheard⟩ | ⟨hfree, hnew⟩
  · obtain ⟨room, net, hr₀, ht, hme₀, hheard₀⟩ := leaveSession_turn hs hd hc hg performs hr
    refine .inl ⟨room, net ++ net', hr₀, .mk ht ?_ harr, fun p i hm => ?_⟩
    · rintro me h' ⟨⟩ p i hm
      exact habsent _ _ _ _ _ hr hm
    rw [hheard p i hm, onChannel_append]
    by_cases htx : i.tx = a.conn
    · rw [htx, hunheard, hme₀]
    · have hmid : mid.HasMember p i := by
        refine harr.hasMember hm fun h' heq => htx ?_
        exact (Prod.mk.inj (Option.some.inj heq)).1.symm
      rw [(hheard₀ p i hmid).2]
  · exact .inr ⟨hnew, fun room hr => leaveSession_removes hc hr hfree⟩

/-- An input is heard by the host of its room only. -/
theorem input_elsewhere (hs : Seated sys) {env : Env} {s : Session} {blob : Blob}
    {room room' : Room} (found : sys.roomAt s.appKey s.roomCode.key = some room)
    (hk : ¬ (appKey = s.appKey ∧ key = s.roomCode.key))
    (hr : sys.roomAt appKey key = some room') {p : PeerId} {i : ClientInfo}
    (hm : room'.HasMember p i) : onChannel i.tx (room.input env s.peerId blob []) = [] := by
  simp only [Room.input]
  split_ifs
  · cases hhost : room.clients.lookup room.hostPeerId with
    | none => rfl
    | some host =>
      refine onChannel_of_notMem fun b hb htx => hk ?_
      simp only [trySend, List.nil_append, List.mem_singleton] at hb
      subst hb
      obtain ⟨h1, h2, _⟩ := hs.unique hr hm found (.inl hhost) htx.symm
      exact ⟨h1, h2⟩
  · rfl

/-- Every other action is an episode without a newcomer. -/
theorem other_episode (hs : Seated sys) (hd : AllDisjoint sys) (hc : a.env.Clear)
    (hg : OpGuard g sys a) (hh : ¬ ∃ h, a.event = .message (.hello h)) {room' : Room}
    (hr' : (a.outcome sys).server.roomAt appKey key = some room') :
    ∃ room net, sys.roomAt appKey key = some room ∧
      Episode a.env a.comer (g a.env) appKey key room net room' ∧
      ∀ p i, room'.HasMember p i → onChannel i.tx (a.outcome sys).net = onChannel i.tx net := by
  have hturn : ∀ {room net}, Turn a.env (g a.env) room net room' →
      Episode a.env a.comer (g a.env) appKey key room net room' := by
    intro room net t
    have habsent : ∀ me h, a.comer = some (me, h) → ∀ p i, room'.HasMember p i → i.tx ≠ me :=
      fun me h hcomer => absurd ⟨h, (Action.comer_eq_some hcomer).2⟩ hh
    simpa using Episode.mk t habsent (.rest room')
  have hres := Action.result sys a
  revert hres hr'
  generalize a.outcome sys = out
  intro hr' hres
  cases hres with
  | idle same _ =>
    exact ⟨room', [], (same appKey key).symm.trans hr', hturn (.rest room'), fun p i _ => rfl⟩
  | @read s room s' net replies _ found same reads =>
    have hr := (same appKey key).symm.trans hr'
    rcases reads with ⟨blob, _, rfl, _⟩ | ⟨_, rfl, _⟩
    · by_cases hk : appKey = s.appKey ∧ key = s.roomCode.key
      · obtain ⟨rfl, rfl⟩ := hk
        obtain rfl := Option.some.inj (found.symm.trans hr)
        exact ⟨room, _, found, hturn (.input room s.peerId blob), fun p i _ => rfl⟩
      · exact ⟨room', [], hr, hturn (.rest room'), fun p i hm =>
          input_elsewhere hs found hk hr hm⟩
    · exact ⟨room', [], hr, hturn (.rest room'), fun p i _ => rfl⟩
  | @op s o old s' _ performs _ found put =>
    by_cases hk : appKey = s.appKey ∧ key = s.roomCode.key
    · obtain ⟨rfl, rfl⟩ := hk
      obtain rfl := Option.some.inj (put.here.symm.trans hr')
      exact ⟨old, _, found, hturn (.op (hg _ _ _ performs found)), fun p i _ => rfl⟩
    · have hr := (put.elsewhere hk).symm.trans hr'
      exact ⟨room', [], hr, hturn (.rest room'), fun p i hm =>
        heard_elsewhere hs hd hc found hk hr hm⟩
  | left performs =>
    obtain ⟨room, net, hr, ht, _, hheard⟩ := leaveSession_turn hs hd hc hg performs hr'
    exact ⟨room, net, hr, hturn ht, fun p i hm => (hheard p i hm).2⟩
  | hello event _ _ => exact absurd ⟨_, event⟩ hh

/-- What the members of a room hear of an action over clear channels: an episode of the room as
it was and, for the acting connection, its replies; or the room is new, replacing at most a room
with a single member. -/
theorem step_episode (hs : Seated sys) (hd : AllDisjoint sys) (hc : a.env.Clear)
    (hg : OpGuard g sys a) {room' : Room} (hr' : (step sys a).roomAt appKey key = some room') :
    (∃ room net, sys.roomAt appKey key = some room ∧
      Episode a.env a.comer (g a.env) appKey key room net room' ∧
      ∀ p i, room'.HasMember p i → onChannel i.tx (a.sent sys) =
        onChannel i.tx net ++ if i.tx = a.conn then (a.outcome sys).replies else []) ∨
    ∃ h, a.comer = some (a.conn, h) ∧ (∀ p i, room'.HasMember p i → i.tx = a.conn) ∧
      ∀ room, sys.roomAt appKey key = some room → ∃ pid, ∀ p i, room.HasMember p i → p = pid := by
  change (a.outcome sys).server.roomAt appKey key = some room' at hr'
  -- the replies come behind what the rooms send
  have hsent : (∃ room net, sys.roomAt appKey key = some room ∧
      Episode a.env a.comer (g a.env) appKey key room net room' ∧
      ∀ p i, room'.HasMember p i → onChannel i.tx (a.outcome sys).net = onChannel i.tx net) →
      ∃ room net, sys.roomAt appKey key = some room ∧
      Episode a.env a.comer (g a.env) appKey key room net room' ∧
      ∀ p i, room'.HasMember p i → onChannel i.tx (a.sent sys) =
        onChannel i.tx net ++ if i.tx = a.conn then (a.outcome sys).replies else [] := by
    rintro ⟨room, net, hr, he, hheard⟩
    exact ⟨room, net, hr, he, fun p i hm => by rw [onChannel_sent hc, hheard p i hm]⟩
  by_cases hh : ∃ h, a.event = .message (.hello h)
  · obtain ⟨h, event⟩ := hh
    have hcomer : a.comer = some (a.conn, h) := by simp [Action.comer, event]
    exact (hello_episode hs hd hc hg event hr').imp hsent fun hnew => ⟨h, hcomer, hnew⟩
  · exact .inl (hsent (other_episode hs hd hc hg hh hr'))

/-- Whoever says `Hello` hears nothing but the answer. -/
theorem hello_unheard (hs : Seated sys) (hc : a.env.Clear) {h : Hello}
    (event : a.event = .message (.hello h)) : onChannel a.conn (a.outcome sys).net = [] := by
  have hout : a.outcome sys = dispatchHello a.env sys.server (sys.session a.conn) a.conn h := by
    simp [Action.outcome, event, dispatch]
  have hres := dispatchHello_result a.env sys.server (sys.session a.conn) a.conn h
  rw [← hout] at hres
  have hunheard := leaveSession_unheard (a := a) hs hc
  revert hres
  generalize a.outcome sys = out
  intro hres
  cases hres with
  | refused _ => exact hunheard
  | rejected _ _ _ _ => exact hunheard
  | @joined s₁ s₂ s' code room roomJ net' pid joined gate opened admitted put =>
    obtain ⟨added, rfl, hadm⟩ := admitted.split
    rw [onChannel_append, hunheard, List.nil_append]
    refine onChannel_of_notMem fun b hb htx => ?_
    obtain ⟨q, j, hq, hbj⟩ := hadm.addressees hb
    rcases opened.origin with ⟨_, _, hat⟩ | ⟨_, _, _, _, _, rfl⟩
    · have hat' := ((helloGate_ok gate).2 _ _).symm.trans hat
      obtain ⟨⟨old, hold, hq⟩, hn⟩ := leaveSession_hasMember hat' hq
      have hnames := hs _ _ _ _ _ hold hq
      rw [← hbj, htx] at hnames
      exact hn hnames
    · exact absurd hq Room.not_hasMember_new

/-- What the acting connection is answered when it is a member afterwards. -/
inductive Answered (a : Action) (room' : Room) (p : PeerId) (replies : List ServerMessage) : Prop
  | stays (comer : a.comer = none) (plain : ∀ m ∈ replies, m.IsAnswer)
  | asked (event : a.event = .message .requestState) (eq : replies = room'.requestState)
  | joins {h : Hello} (comer : a.comer = some (a.conn, h)) (code : RoomCode) (side : UInt8)
      (eq : replies = [room'.joinedMessage code p side])

theorem step_answered (hs : Seated sys) {room' : Room}
    (hr' : (step sys a).roomAt appKey key = some room') {p : PeerId} {i : ClientInfo}
    (hm : room'.HasMember p i) (htx : i.tx = a.conn) :
    Answered a room' p (a.outcome sys).replies := by
  have hnames : Names (a.outcome sys).session appKey key p := by
    have h : Names (Function.update sys.session a.conn (a.outcome sys).session i.tx) appKey key p :=
      step_seated hs a _ _ _ _ _ hr' hm
    rwa [htx, Function.update_self] at h
  change (a.outcome sys).server.roomAt appKey key = some room' at hr'
  by_cases hh : ∃ h, a.event = .message (.hello h)
  · obtain ⟨h, event⟩ := hh
    have hcomer : a.comer = some (a.conn, h) := by simp [Action.comer, event]
    have hout : a.outcome sys = dispatchHello a.env sys.server (sys.session a.conn) a.conn h := by
      simp [Action.outcome, event, dispatch]
    have hres := dispatchHello_result a.env sys.server (sys.session a.conn) a.conn h
    rw [← hout] at hres
    revert hres hr' hnames
    generalize a.outcome sys = out
    intro hnames hr' hres
    cases hres with
    | refused _ =>
      obtain ⟨_, ⟨⟩, _⟩ := hnames
    | rejected _ _ _ _ =>
      obtain ⟨_, ⟨⟩, _⟩ := hnames
    | @joined s₁ s₂ s' code room roomJ net' pid joined gate opened admitted put =>
      obtain ⟨_, ⟨⟩, rfl, rfl, rfl⟩ := hnames
      obtain rfl := Option.some.inj (put.here.symm.trans hr')
      exact .joins hcomer code _ (by rw [admitted.joined_eq])
  · have hcomer : a.comer = none := by
      unfold Action.comer
      split
      · rename_i h heq
        exact absurd ⟨h, heq⟩ hh
      · rfl
    have hres := Action.result sys a
    revert hres hr' hnames
    generalize a.outcome sys = out
    intro hnames hr' hres
    cases hres with
    | idle _ plain => exact .stays hcomer plain
    | @read s room s' net replies session found same reads =>
      rcases reads with ⟨_, _, _, rfl⟩ | ⟨event, _, rfl⟩
      · exact .stays hcomer (by simp)
      · obtain ⟨_, ⟨⟩, rfl, rfl, _⟩ := hnames
        obtain rfl := Option.some.inj (found.symm.trans ((same _ _).symm.trans hr'))
        exact .asked event rfl
    | op _ _ _ _ _ => exact .stays hcomer (RoomOp.replies_isAnswer _ _ _)
    | left _ => obtain ⟨_, ⟨⟩, _⟩ := hnames
    | hello event _ _ => exact absurd ⟨_, event⟩ hh

end

end Roomie
