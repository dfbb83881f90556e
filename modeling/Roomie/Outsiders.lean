import Roomie.Hosts
import Roomie.Seats

/-!
# What a session is still good for after the membership is gone

A kick, a ban or a denial edits the room but cannot reach the session of the connection
it hits. The sections look at the session and at the host only, so a former member keeps
some influence. This module says exactly how much: the law that outsiders are inert is
equivalent to a condition on the room as it stands.
-/

namespace Roomie.Outsiders
open HashTables GuardedRuns

/-- The messages an outsider should have no effect with. -/
def Concerns : ClientMessage → Prop
  | .move _ | .input _ | .requestState => True
  | .roomControl .leave => False
  | .roomControl _ => True
  | .hello _ | .ping | .listRooms _ => False

/-- The connection handles a message. -/
abbrev on (conn : ConnId) (env : Env) (msg : ClientMessage) : Action := ⟨env, conn, .message msg⟩

/-- The law for a connection with this session in this room: only an accepted client's input
reaches the host, and without a membership nothing changes or leaves the server but an answer
that does not tell the state. -/
structure InertIn (sys : Sys) (conn : ConnId) (s : Session) (room : Room) : Prop where
  relay : ∀ env blob a, a ∈ (on conn env (.input blob)).sent sys →
    (∃ pid blob', a.2 = .peerInput pid blob') → s.peerId ∈ room.clients
  quiet : s.peerId ∉ room.clients → s.peerId ∉ room.pending → ∀ env msg, Concerns msg →
    SameRooms sys.server (step sys (on conn env msg)).server ∧
      (∀ a ∈ (on conn env msg).sent sys, a.1 = conn) ∧
      ∀ blob, .stateUpdate blob ∉ ((on conn env msg).outcome sys).replies

/-- Non-members are inert: the law for the room the session of a connection names. -/
def Inert (sys : Sys) (conn : ConnId) : Prop :=
  ∀ s room, sys.session conn = some s → sys.roomAt s.appKey s.roomCode.key = some room →
    InertIn sys conn s room

/-- An accepted client; or there is no host to relay to, and the peer is pending or the room has
nothing to give away to it: it is not the host's own id and no state is set. -/
def Harmless (room : Room) (pid : PeerId) : Prop :=
  pid ∈ room.clients ∨ room.hostPeerId ∉ room.clients ∧
    (pid ∈ room.pending ∨ pid ≠ room.hostPeerId ∧ room.state = [])

instance (room : Room) (pid : PeerId) : Decidable (Harmless room pid) :=
  inferInstanceAs (Decidable (_ ∨ _ ∧ (_ ∨ _ ∧ _)))

section
variable {sys : Sys} {conn : ConnId} {s : Session} {room : Room}

theorem outcome_input (hs : sys.session conn = some s)
    (hr : sys.roomAt s.appKey s.roomCode.key = some room) (env : Env) (blob : Blob) :
    (on conn env (.input blob)).outcome sys =
      ⟨sys.server.setRoom s.appKey s.roomCode room, some s, room.input env s.peerId blob [], []⟩ := by
  simp only [Action.outcome, dispatch, hs]
  exact inRoom_some hr _

theorem outcome_move (hs : sys.session conn = some s)
    (hr : sys.roomAt s.appKey s.roomCode.key = some room) (env : Env) (blob : Blob) :
    (on conn env (.move blob)).outcome sys =
      ⟨sys.server.setRoom s.appKey s.roomCode (room.move env s.peerId blob []).1, some s,
        (room.move env s.peerId blob []).2.1, (room.move env s.peerId blob []).2.2⟩ := by
  simp only [Action.outcome, dispatch, hs]
  exact inRoom_some hr _

theorem outcome_requestState (hs : sys.session conn = some s)
    (hr : sys.roomAt s.appKey s.roomCode.key = some room) (env : Env) :
    (on conn env .requestState).outcome sys =
      ⟨sys.server.setRoom s.appKey s.roomCode room, some s, [], room.requestState⟩ := by
  simp only [Action.outcome, dispatch, hs]
  exact inRoom_some hr _

theorem outcome_control (hs : sys.session conn = some s)
    (hr : sys.roomAt s.appKey s.roomCode.key = some room) (env : Env) {rc : RoomControl}
    (hl : rc ≠ .leave) (hc : ∀ settings, rc ≠ .createRoom settings) :
    (on conn env (.roomControl rc)).outcome sys =
      ⟨sys.server.setRoom s.appKey s.roomCode (room.control env s.peerId rc []).1, some s,
        (room.control env s.peerId rc []).2.1, (room.control env s.peerId rc []).2.2⟩ := by
  simp only [Action.outcome, dispatch, hs]
  cases rc with
  | leave => exact absurd rfl hl
  | createRoom settings => exact absurd rfl (hc settings)
  | _ =>
    simp only [dispatchRoomControl]
    exact inRoom_some hr _

/-- Nothing changes and nothing leaves the server but replies that do not tell the state. -/
structure Silent (sys : Sys) (conn : ConnId) (o : Outcome) : Prop where
  same : SameRooms sys.server o.server
  net : o.net = []
  replies : ∀ blob, .stateUpdate blob ∉ o.replies

theorem Silent.quiet {env : Env} {msg : ClientMessage}
    (h : Silent sys conn ((on conn env msg).outcome sys)) :
    SameRooms sys.server (step sys (on conn env msg)).server ∧
      (∀ a ∈ (on conn env msg).sent sys, a.1 = conn) ∧
      ∀ blob, .stateUpdate blob ∉ ((on conn env msg).outcome sys).replies := by
  refine ⟨h.same, fun a ha => ?_, h.replies⟩
  have ha' := mem_of_mem_delivered ha
  simp only [Action.attempts, sendReplies, h.net, List.nil_append, List.mem_map] at ha'
  obtain ⟨m, _, rfl⟩ := ha'
  rfl

/-- A peer that is not the host, in a room without a host and without a state. -/
theorem silent_of_harmless (hs : sys.session conn = some s)
    (hr : sys.roomAt s.appKey s.roomCode.key = some room) (hhost : room.hostPeerId ∉ room.clients)
    (hne : s.peerId ≠ room.hostPeerId) (hstate : room.state = []) (env : Env) {msg : ClientMessage}
    (hm : Concerns msg) : Silent sys conn ((on conn env msg).outcome sys) := by
  have hsame : SameRooms sys.server (sys.server.setRoom s.appKey s.roomCode room) :=
    sameRooms_setRoom hr
  cases msg with
  | hello h => exact hm.elim
  | ping => exact hm.elim
  | listRooms appKey => exact hm.elim
  | move blob =>
    have hmove : room.move env s.peerId blob [] =
        (room, [], [.moveRejected "only host can send moves"]) := by
      simp [Room.move, hne.symm]
    rw [outcome_move hs hr, hmove]
    exact ⟨hsame, rfl, by simp⟩
  | input blob =>
    have hinput : room.input env s.peerId blob [] = [] := by
      simp [Room.input, AList.lookup_eq_none.mpr hhost]
    rw [outcome_input hs hr, hinput]
    exact ⟨hsame, rfl, by simp⟩
  | requestState =>
    have hnone : room.requestState = [] := by simp [Room.requestState, hstate]
    rw [outcome_requestState hs hr, hnone]
    exact ⟨hsame, rfl, by simp⟩
  | roomControl rc =>
    by_cases hc : ∃ settings, rc = .createRoom settings
    · obtain ⟨settings, rfl⟩ := hc
      have hout : (on conn env (.roomControl (.createRoom settings))).outcome sys =
          ⟨sys.server, some s, [], [.error "already in a room"]⟩ := by
        simp only [Action.outcome, dispatch, hs, dispatchRoomControl]
      rw [hout]
      exact ⟨fun _ _ => rfl, rfl, by simp⟩
    · have hl : rc ≠ .leave := by
        rintro rfl
        exact hm.elim
      have hcontrol : room.control env s.peerId rc [] =
          (room, [], [.error "forbidden or invalid"]) := by
        simp [Room.control, hne.symm]
      rw [outcome_control hs hr env hl fun settings h => hc ⟨settings, h⟩, hcontrol]
      exact ⟨hsame, rfl, by simp⟩

theorem inertIn_of_harmless (hs : sys.session conn = some s)
    (hr : sys.roomAt s.appKey s.roomCode.key = some room) (h : Harmless room s.peerId) :
    InertIn sys conn s room := by
  constructor
  · rintro env blob a ha ⟨pid, blob', hmsg⟩
    rcases h with h | ⟨hhost, _⟩
    · exact h
    have hinput : room.input env s.peerId blob [] = [] := by
      simp [Room.input, AList.lookup_eq_none.mpr hhost]
    have ha' := mem_of_mem_delivered ha
    simp [Action.attempts, sendReplies, outcome_input hs hr, hinput] at ha'
  · intro hc hp env msg hm
    rcases h with h | ⟨hhost, h | ⟨hne, hstate⟩⟩
    · exact absurd h hc
    · exact absurd h hp
    · exact (silent_of_harmless hs hr hhost hne hstate env hm).quiet

/-- With a host to relay to, the input of a peer that is not accepted reaches it. -/
theorem host_absent_of_inertIn (hs : sys.session conn = some s)
    (hr : sys.roomAt s.appKey s.roomCode.key = some room) (h : InertIn sys conn s room)
    (hc : s.peerId ∉ room.clients) : room.hostPeerId ∉ room.clients := by
  intro hhost
  obtain ⟨host, hlook⟩ := AList.mem_iff_lookup.mp hhost
  have hne : room.hostPeerId ≠ s.peerId := fun heq => hc (heq ▸ hhost)
  have hsent : (on conn .quiet (.input [])).sent sys = [(host.tx, .peerInput s.peerId [])] := by
    rw [Action.sent, Env.quiet_clear.delivered, Action.attempts, outcome_input hs hr]
    simp [Room.input, hne, hlook, trySend, sendReplies]
  exact hc (h.relay .quiet [] (host.tx, .peerInput s.peerId []) (by simp [hsent]) ⟨_, _, rfl⟩)

/-- The session of an outsider with the host's id could still change the settings. -/
theorem not_host_of_inertIn (hs : sys.session conn = some s)
    (hr : sys.roomAt s.appKey s.roomCode.key = some room) (h : InertIn sys conn s room)
    (hc : s.peerId ∉ room.clients) (hp : s.peerId ∉ room.pending) :
    s.peerId ≠ room.hostPeerId := by
  intro heq
  obtain ⟨hsame, _⟩ := h.quiet hc hp .quiet (.roomControl (.setPublic !room.settings.isPublic)) trivial
  have hput := Server.roomPut_setRoom hr
    (room.control .quiet s.peerId (.setPublic !room.settings.isPublic) []).1
  have hat := hsame s.appKey s.roomCode.key
  rw [step, outcome_control hs hr .quiet (by simp) (by simp), hput.here] at hat
  have hpublic := congrArg (Option.map fun r : Room => r.settings.isPublic) (hat.trans hr)
  simp [Room.control, heq, Room.command] at hpublic

theorem state_of_inertIn (hs : sys.session conn = some s)
    (hr : sys.roomAt s.appKey s.roomCode.key = some room) (h : InertIn sys conn s room)
    (hc : s.peerId ∉ room.clients) (hp : s.peerId ∉ room.pending) : room.state = [] := by
  by_contra hne
  obtain ⟨_, _, hreplies⟩ := h.quiet hc hp .quiet .requestState trivial
  refine hreplies room.state ?_
  simp [outcome_requestState hs hr, Room.requestState, hne]

theorem harmless_of_inertIn (hs : sys.session conn = some s)
    (hr : sys.roomAt s.appKey s.roomCode.key = some room) (h : InertIn sys conn s room) :
    Harmless room s.peerId := by
  by_cases hc : s.peerId ∈ room.clients
  · exact .inl hc
  refine .inr ⟨host_absent_of_inertIn hs hr h hc, ?_⟩
  by_cases hp : s.peerId ∈ room.pending
  · exact .inl hp
  · exact .inr ⟨not_host_of_inertIn hs hr h hc hp, state_of_inertIn hs hr h hc hp⟩

end

/-- Non-members are inert exactly when every session names a room where its peer is harmless. -/
theorem inert_iff_harmless (sys : Sys) (conn : ConnId) : Inert sys conn ↔
    ∀ s room, sys.session conn = some s → sys.roomAt s.appKey s.roomCode.key = some room →
      Harmless room s.peerId :=
  ⟨fun h s room hs hr => harmless_of_inertIn hs hr (h s room hs hr),
    fun h s room hs hr => inertIn_of_harmless hs hr (h s room hs hr)⟩

/-! ## Runs that make no outsiders -/

/-- The operation costs no accepted peer the membership, but the one that leaves: the host expels
nobody, and a broadcast finds no closed channel. -/
structure Spares (env : Env) (room : Room) (o : RoomOp) : Prop where
  expels : ∀ target, o = .control room.hostPeerId (.kick target) ∨
    o = .control room.hostPeerId (.ban target) → target ∉ room.clients
  live : Hosts.Broadcasts room o → ∀ p i, room.clients.lookup p = some i → o ≠ .leave p →
    env.Live i.tx

/-- A `Hello` that is let into a room with members is accepted at once. -/
def AcceptedAtOnce (sys : Sys) (a : Action) : Prop :=
  ∀ h s₁ room, a.event = .message (.hello h) → h.roomCode.str.isEmpty = false →
    helloGate a.env (leaveSession a.env sys.server (sys.session a.conn) []).1 h = .ok s₁ →
    (leaveSession a.env sys.server (sys.session a.conn) []).1.roomAt h.appKey h.roomCode.key =
      some room → ¬ room.Refuses h →
    room.isVacant = true ∨ room.settings.acceptRequired = false

/-- The action makes nobody an outsider. -/
def MakesNoOutsider (sys : Sys) (a : Action) : Prop := OpGuard Spares sys a ∧ AcceptedAtOnce sys a

/-- Every session is that of an accepted client. -/
def Housed (sys : Sys) : Prop :=
  ∀ conn s, sys.session conn = some s → ∃ room i,
    sys.roomAt s.appKey s.roomCode.key = some room ∧ room.clients.lookup s.peerId = some i ∧
      i.tx = conn

theorem edit_keeps {env : Env} {room : Room} {o : RoomOp} (hs : Spares env room o)
    (hd : room.Disjoint) {p : PeerId} {i : ClientInfo} (hp : room.clients.lookup p = some i)
    (hl : o ≠ .leave p) : (o.edit room).clients.lookup p = some i := by
  cases o with
  | leave pid =>
    have hne : p ≠ pid := fun heq => hl (heq ▸ rfl)
    exact AList.lookup_erase_some.mpr ⟨hne, hp⟩
  | move pid blob =>
    simp only [RoomOp.edit]
    split_ifs <;> exact hp
  | control pid rc =>
    simp only [RoomOp.edit]
    split_ifs with hh
    · subst hh
      cases rc with
      | acceptPeer target =>
        simp only [RoomControl.edit]
        cases ht : room.pending.lookup target with
        | none => exact hp
        | some info =>
          have hne : p ≠ target := by
            rintro rfl
            exact hd p (AList.mem_of_lookup hp) (AList.mem_of_lookup ht)
          exact (AList.lookup_insert_ne hne).trans hp
      | kick target =>
        have hne : p ≠ target := by
          rintro rfl
          exact hs.expels p (.inl rfl) (AList.mem_of_lookup hp)
        exact AList.lookup_erase_some.mpr ⟨hne, hp⟩
      | ban target =>
        have hn := AList.lookup_eq_none.mpr (hs.expels target (.inr rfl))
        simpa only [RoomControl.edit, hn] using hp
      | transferHost target =>
        simp only [RoomControl.edit]
        split_ifs <;> exact hp
      | _ => exact hp
    · exact hp

theorem run_keeps {env : Env} {room : Room} {o : RoomOp} (net : Net) (hs : Spares env room o)
    (hd : room.Disjoint) {p : PeerId} {i : ClientInfo} (hp : room.clients.lookup p = some i)
    (hl : o ≠ .leave p) : (o.run env room net).1.clients.lookup p = some i := by
  have hedit := edit_keeps hs hd hp hl
  by_cases hb : Hosts.Broadcasts room o
  · exact (o.run_shrunkTo env room net).survives (RoomOp.edit_disjoint hd) hedit
      (hs.live hb p i hp hl)
  · rwa [Hosts.run_of_not_broadcasts hb]

section
variable {sys : Sys} {a : Action}

/-- A connection that leaves takes nobody along. -/
theorem leaveSession_keeps (hg : OpGuard Spares sys a) (hd : ∀ appKey key room,
      sys.roomAt appKey key = some room → room.Disjoint) (hh : Housed sys)
    (hp : ∀ s, sys.session a.conn = some s → a.op sys = some (s, .leave s.peerId))
    {conn : ConnId} (hne : conn ≠ a.conn) {s : Session} (hs : sys.session conn = some s) :
    ∃ room i, (leaveSession a.env sys.server (sys.session a.conn) []).1.roomAt s.appKey
      s.roomCode.key = some room ∧ room.clients.lookup s.peerId = some i ∧ i.tx = conn := by
  obtain ⟨room, i, hr, hi, htx⟩ := hh conn s hs
  cases hold : sys.session a.conn with
  | none => exact ⟨room, i, hr, hi, htx⟩
  | some old =>
    obtain ⟨own, j, hown, hj, hjtx⟩ := hh a.conn old hold
    change sys.server.roomAt _ _ = some own at hown
    have hput := leaveRoom_roomPut a.env old.peerId [] hown
    by_cases hk : s.appKey = old.appKey ∧ s.roomCode.key = old.roomCode.key
    · obtain rfl : own = room := by
        rw [hk.1, hk.2] at hr
        exact Option.some.inj (hown.symm.trans hr)
      have hpeer : RoomOp.leave old.peerId ≠ .leave s.peerId := by
        intro heq
        rw [RoomOp.leave.injEq] at heq
        rw [heq] at hj
        exact hne (by rw [← htx, ← hjtx, Option.some.inj (hi.symm.trans hj)])
      have hkept := run_keeps [] (hg _ _ _ (hp old hold) hown) (hd _ _ _ hr) hi hpeer
      refine ⟨_, i, ?_, hkept, htx⟩
      have hv : ((RoomOp.leave old.peerId).run a.env own []).1.isVacant = false := by
        by_contra hv
        exact (Room.isVacant_iff.mp (by simpa using hv)).1 _ (AList.mem_of_lookup hkept)
      simp only [leaveSession]
      rw [hk.1, hk.2, hput.here]
      exact if_neg (Bool.not_eq_true _ ▸ hv)
    · refine ⟨room, i, ?_, hi, htx⟩
      simp only [leaveSession]
      rw [hput.elsewhere hk]
      exact hr

/-- A `Hello` that is let in houses its connection and disturbs no other. -/
theorem helloResult_housed {h : Hello} {s : Server} {net : Net} {o : Outcome}
    (hres : HelloResult a.env a.conn h s net o) {session : ConnId → Option Session}
    (hh : ∀ conn, conn ≠ a.conn → ∀ old, session conn = some old → ∃ room i,
      s.roomAt old.appKey old.roomCode.key = some room ∧
        room.clients.lookup old.peerId = some i ∧ i.tx = conn)
    (hacc : ∀ s₁ room, helloGate a.env s h = .ok s₁ → h.roomCode.str.isEmpty = false →
      s.roomAt h.appKey h.roomCode.key = some room → ¬ room.Refuses h →
      room.isVacant = true ∨ room.settings.acceptRequired = false) :
    Housed ⟨o.server, Function.update session a.conn o.session⟩ := by
  -- what became of the room of another connection
  have hothers : ∀ {s₁ s₂ s' : Server} {code : RoomCode} {room room' : Room},
      helloGate a.env s h = .ok s₁ → Opened s₁ h s₂ code room →
      RoomPut s₂ h.appKey code.key (some room') s' →
      (∀ p i, room.clients.lookup p = some i → room'.clients.lookup p = some i) →
      ∀ conn, conn ≠ a.conn → ∀ old, session conn = some old → ∃ room i,
        s'.roomAt old.appKey old.roomCode.key = some room ∧
          room.clients.lookup old.peerId = some i ∧ i.tx = conn := by
    intro s₁ s₂ s' code room room' gate opened put hkeep conn hne old hs
    obtain ⟨r, i, hr, hi, htx⟩ := hh conn hne old hs
    have hr₁ := ((helloGate_ok gate).2 old.appKey old.roomCode.key).trans hr
    by_cases hk : old.appKey = h.appKey ∧ old.roomCode.key = code.key
    · rw [hk.1, hk.2] at hr₁ ⊢
      rcases opened.origin with ⟨_, _, hat⟩ | ⟨_, hat, _⟩
      · obtain rfl : room = r := Option.some.inj (hat.symm.trans hr₁)
        exact ⟨room', i, put.here, hkeep _ i hi, htx⟩
      · cases hat.symm.trans hr₁
    · exact ⟨r, i, by rw [put.elsewhere hk, opened.put.elsewhere hk, hr₁], hi, htx⟩
  have hnone : ∀ {s' : Server}, (∀ conn, conn ≠ a.conn → ∀ old, session conn = some old →
      ∃ room i, s'.roomAt old.appKey old.roomCode.key = some room ∧
        room.clients.lookup old.peerId = some i ∧ i.tx = conn) →
      Housed ⟨s', Function.update session a.conn none⟩ := by
    intro s' hrest conn old hs
    by_cases hne : conn = a.conn
    · simp [hne] at hs
    · exact hrest conn hne old (by simpa [Function.update_of_ne hne] using hs)
  cases hres with
  | refused same =>
    refine hnone fun conn hne old hs => ?_
    obtain ⟨r, i, hr, hi⟩ := hh conn hne old hs
    exact ⟨r, i, (same _ _).trans hr, hi⟩
  | rejected gate opened _ _ put => exact hnone (hothers gate opened put fun _ _ hi => hi)
  | @joined s₁ s₂ s' code room room' net' pid joined gate opened admitted put =>
    intro conn old hs
    by_cases hne : conn = a.conn
    · subst hne
      simp only [Function.update_self] at hs
      obtain rfl := Option.some.inj hs
      refine ⟨room', room.newcomer a.conn h, put.here, ?_, rfl⟩
      have hseat : room.isVacant = true ∨ room.settings.acceptRequired = false := by
        rcases opened.origin with ⟨hcode, rfl, hat⟩ | ⟨_, _, _, _, _, rfl⟩
        · exact hacc s₁ room gate hcode (((helloGate_ok gate).2 _ _).symm.trans hat)
            admitted.not_refuses
        · exact .inl rfl
      obtain ⟨n, rfl⟩ := admitted.seated
      exact Room.seat_accepted hseat
    · refine hothers gate opened put (fun p i hi => ?_) conn hne old
        (by simpa [Function.update_of_ne hne] using hs)
      have hpid : pid ≠ p := fun heq => admitted.fresh.1 (heq ▸ AList.mem_of_lookup hi)
      exact (admitted.kept hpid).1.trans hi

theorem step_housed (hd : ∀ appKey key room, sys.roomAt appKey key = some room → room.Disjoint)
    (hh : Housed sys) (hg : MakesNoOutsider sys a) : Housed (step sys a) := by
  have hsame : ∀ s' : Server, SameRooms sys.server s' → Housed ⟨s', sys.session⟩ := by
    intro s' same conn s hs
    obtain ⟨room, i, hr, hi⟩ := hh conn s hs
    exact ⟨room, i, (same _ _).trans hr, hi⟩
  change Housed ⟨(a.outcome sys).server, Function.update sys.session a.conn (a.outcome sys).session⟩
  have hres := Action.result sys a
  revert hres
  generalize a.outcome sys = out
  intro hres
  cases hres with
  | idle same =>
    rw [Function.update_eq_self]
    exact hsame _ same
  | read session _ same _ =>
    rw [← session, Function.update_eq_self]
    exact hsame _ same
  | @op s o room s' session performs stays found put =>
    rw [← session, Function.update_eq_self]
    intro conn s₁ hs
    obtain ⟨room₁, i, hr, hi, htx⟩ := hh conn s₁ hs
    by_cases hk : s₁.appKey = s.appKey ∧ s₁.roomCode.key = s.roomCode.key
    · rw [hk.1, hk.2] at hr ⊢
      obtain rfl : room = room₁ := Option.some.inj (found.symm.trans hr)
      have hkept := run_keeps [] (hg.1 _ _ _ performs found) (hd _ _ _ found) hi (stays _)
      exact ⟨_, i, put.here, hkept, htx⟩
    · exact ⟨room₁, i, (put.elsewhere hk).trans hr, hi, htx⟩
  | left performs =>
    intro conn s hs
    by_cases hne : conn = a.conn
    · simp [hne] at hs
    · exact leaveSession_keeps hg.1 hd hh performs hne
        (by simpa [Function.update_of_ne hne] using hs)
  | hello event performs result =>
    refine helloResult_housed result (fun conn hne old hs =>
      leaveSession_keeps hg.1 hd hh performs hne hs) fun s₁ room gate hcode hat hno => ?_
    exact hg.2 _ s₁ room event hcode gate hat hno

end

theorem housed {sys : Sys} (h : Reaches step MakesNoOutsider .start sys) : Housed sys := by
  have hd : ∀ sys, Reaches step MakesNoOutsider .start sys →
      ∀ appKey key room, sys.roomAt appKey key = some room → room.Disjoint :=
    fun sys h appKey key room hr => Seats.reachable_disjoint (h.mono fun _ _ _ => trivial) hr
  refine h.invariant_under hd ?_ fun sys a hd hh hg => step_housed hd hh hg
  rintro conn s ⟨⟩

/-- While nobody is expelled, made to wait or cut off, there are no outsiders; and in any state
non-members are inert exactly when every session names a room where its peer is harmless. -/
theorem outsiders_inert (sys : Sys) (conn : ConnId) :
    (Reaches step MakesNoOutsider .start sys → Inert sys conn) ∧
    (Inert sys conn ↔
      ∀ s room, sys.session conn = some s → sys.roomAt s.appKey s.roomCode.key = some room →
        Harmless room s.peerId) := by
  refine ⟨fun h => (inert_iff_harmless sys conn).mpr fun s room hs hr => ?_,
    inert_iff_harmless sys conn⟩
  obtain ⟨room', i, hr', hi, _⟩ := housed h conn s hs
  obtain rfl : room' = room := Option.some.inj (hr'.symm.trans hr)
  exact .inl (AList.mem_of_lookup hi)

/-- A host and a guest. -/
def hosted : List Action := [sends 0 (plainHello "" "h"), sends 1 (plainHello "aaaaaa" "x")]

theorem hosted_inert : Inert (exec step .start hosted) 1 := by
  refine (outsiders_inert (exec step .start hosted) 1).1
    (Reaches.exec .refl ⟨⟨.of_none rfl, ?_⟩, ⟨.of_none rfl, ?_⟩, trivial⟩)
  · rintro h s₁ room ⟨⟩ hcode
    exact absurd hcode (by decide)
  · rintro h s₁ room ⟨⟩ _ _ hr _
    have hrun : ((exec step .start (hosted.take 1)).roomAt "pong" "aaaaaa").all
        (fun room => !room.settings.acceptRequired) = true := by decide
    exact .inr (by simpa using (Option.all_eq_true ..).mp hrun room hr)

/-- A peer joins and is kicked by the host. -/
def kicked : List Action :=
  [sends 0 (plainHello "" "h"), sends 1 (plainHello "aaaaaa" "x"),
    sends 0 (.roomControl (.kick 2))]

/-- Its connection keeps the session, and its input still reaches the host. -/
theorem kicked_peer_not_inert : ¬ ∀ sys, Reachable sys → ∀ conn, Inert sys conn := by
  intro hall
  have hs : (exec step .start kicked).session 1 = some ⟨"pong", ⟨"aaaaaa"⟩, 2⟩ := by decide
  have hrun : ((exec step .start kicked).roomAt "pong" "aaaaaa").any
      (fun room => !Harmless room 2) = true := by decide
  obtain ⟨room, hr, hharm⟩ := (Option.any_eq_true ..).mp hrun
  have h := hall _ (reachable_exec kicked) 1 _ room hs hr
  simp [harmless_of_inertIn hs hr h] at hharm

end Roomie.Outsiders
