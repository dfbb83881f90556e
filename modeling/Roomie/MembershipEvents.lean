import Roomie.Hearing

/-!
# `PeerJoined` and `PeerLeft`

The clients of a room are told who becomes a client and who ceases to be one. `PeerLeft`
is also broadcast for peers that were no clients: when a host kicks or bans an id that is
not accepted, and when a pending or former member leaves. Apart from these, and from a
client that leaves and returns under its old id within one `Hello`, every client hears the
exact difference of the client sets, and can count along.
-/

namespace Roomie.MembershipEvents
open HashTables GuardedRuns Seats

def tellsLeft (q : PeerId) : ServerMessage → Bool
  | .peerLeft p => p == q
  | _ => false

def tellsJoined (q : PeerId) : ServerMessage → Bool
  | .peerJoined p _ _ => p == q
  | _ => false

def leftCount (q : PeerId) (ms : List ServerMessage) : ℕ := ms.countP (tellsLeft q)

def joinedCount (q : PeerId) (ms : List ServerMessage) : ℕ := ms.countP (tellsJoined q)

/-- One event for every id that is in `after` and not in `before`. -/
def gain (q : PeerId) (before after : Members) : ℕ := if q ∈ after ∧ q ∉ before then 1 else 0

/-- Who is a client before and after an action hears one `PeerLeft` for each client lost and one
`PeerJoined` for each client gained, and no other such event. -/
def ExactEvents (sys : Sys) (a : Action) : Prop :=
  ∀ appKey key room room' c i, sys.roomAt appKey key = some room →
    (step sys a).roomAt appKey key = some room' → c ∈ room.clients →
    room'.clients.lookup c = some i → ∀ q,
      leftCount q (onChannel i.tx (a.sent sys)) = gain q room'.clients room.clients ∧
      joinedCount q (onChannel i.tx (a.sent sys)) = gain q room.clients room'.clients

/-- A leave, kick or ban takes out a client, if there is any client to be told. -/
def TakesClient (room : Room) : RoomOp → Prop
  | .leave pid => pid ∈ room.clients ∨ room.clients.isEmpty = true
  | .control pid (.kick target) | .control pid (.ban target) =>
    room.hostPeerId = pid → target ∈ room.clients ∨ room.clients.isEmpty = true
  | _ => True

/-- A client of a room with other clients says `Hello` to this very room, and what it left lets
it in at once under the id it had. -/
def Returns (sys : Sys) (a : Action) : Prop :=
  ∃ h s room, a.event = .message (.hello h) ∧ sys.session a.conn = some s ∧
    sys.roomAt s.appKey s.roomCode.key = some room ∧
    (h.appKey = s.appKey ∧ h.roomCode.key = s.roomCode.key) ∧
    s.peerId ∈ room.clients ∧ (∃ c ∈ room.clients, c ≠ s.peerId) ∧
    (∃ server, helloGate a.env (leaveSession a.env sys.server (some s) []).1 h = .ok server) ∧
    ¬ (room.dropMember s.peerId).Refuses h ∧
    (room.dropMember s.peerId).nextPeerId.1 = some s.peerId ∧
    room.settings.acceptRequired = false

/-- Channels are clear, only clients are taken out, and nobody is back at once. -/
structure Regular (sys : Sys) (a : Action) : Prop where
  clear : a.env.Clear
  takes : OpGuard (fun _ => TakesClient) sys a
  away : ¬ Returns sys a

/-! ## Counting -/

theorem counts_of_isAnswer {ms : List ServerMessage} (h : ∀ m ∈ ms, m.IsAnswer) (q : PeerId) :
    leftCount q ms = 0 ∧ joinedCount q ms = 0 := by
  constructor
  · refine List.countP_eq_zero.mpr fun m hm => ?_
    have hans := h m hm
    cases m <;> first | exact hans.elim | simp [tellsLeft]
  · refine List.countP_eq_zero.mpr fun m hm => ?_
    have hans := h m hm
    cases m <;> first | exact hans.elim | simp [tellsJoined]

theorem counts_requestState (room : Room) (q : PeerId) :
    leftCount q room.requestState = 0 ∧ joinedCount q room.requestState = 0 := by
  unfold Room.requestState
  split_ifs <;> simp [leftCount, joinedCount, tellsLeft, tellsJoined]

theorem gain_self (q : PeerId) (m : Members) : gain q m m = 0 := by
  simp [gain]

/-- What an operation tells is what it does to the clients. -/
theorem news_exact {env : Env} {room : Room} {o : RoomOp} (hd : room.Disjoint)
    (hg : TakesClient room o) (hne : room.clients.isEmpty = false) (q : PeerId) :
    leftCount q (o.news env room) = gain q (o.after env room).clients room.clients ∧
      joinedCount q (o.news env room) = gain q room.clients (o.after env room).clients := by
  rw [RoomOp.after_clients]
  have htaken : ∀ target, target ∈ room.clients →
      (if target == q then 1 else 0) = gain q (room.clients.erase target) room.clients ∧
        0 = gain q room.clients (room.clients.erase target) := by
    intro target ht
    by_cases hq : target = q
    · subst hq
      simp [gain, ht]
    · simp [gain, AList.mem_erase, hq, Ne.symm hq]
  cases o with
  | leave pid =>
    have hpid : pid ∈ room.clients := by
      rcases hg with h | h
      · exact h
      · simp [hne] at h
    simp only [RoomOp.news, RoomOp.edit, Room.dropMember_clients]
    rw [← (htaken pid hpid).1, ← (htaken pid hpid).2]
    cases (room.dropMember pid).heir env pid <;>
      simp [leftCount, joinedCount, tellsLeft, tellsJoined, List.countP_cons]
  | move pid blob =>
    simp only [RoomOp.news, RoomOp.edit]
    split_ifs <;> simp [leftCount, joinedCount, tellsLeft, tellsJoined, gain]
  | control pid rc =>
    simp only [RoomOp.news, RoomOp.edit]
    split_ifs with hh
    · have hexpel : ∀ target, (target ∈ room.clients ∨ room.clients.isEmpty = true) →
          leftCount q [.peerLeft target] = gain q (room.clients.erase target) room.clients ∧
            joinedCount q [.peerLeft target] = gain q room.clients (room.clients.erase target) := by
        intro target ht
        have ht' : target ∈ room.clients := by
          rcases ht with h | h
          · exact h
          · simp [hne] at h
        rw [← (htaken target ht').1, ← (htaken target ht').2]
        simp [leftCount, joinedCount, tellsLeft, tellsJoined, List.countP_cons]
      cases rc with
      | kick target => exact hexpel target (hg hh)
      | ban target =>
        have hclients : (RoomControl.edit (.ban target) room).clients =
            room.clients.erase target := by
          simp only [RoomControl.edit]
          cases ht : room.clients.lookup target with
          | some info => rfl
          | none => rw [AList.erase_of_notMem (AList.lookup_eq_none.mp ht)]
        rw [hclients]
        exact hexpel target (hg hh)
      | acceptPeer target =>
        simp only [RoomControl.edit]
        cases ht : room.pending.lookup target with
        | none => simp [leftCount, joinedCount, gain]
        | some info =>
          have hnot : target ∉ room.clients := fun h => hd target h (AList.mem_of_lookup ht)
          by_cases hq : target = q
          · subst hq
            simp [leftCount, joinedCount, tellsLeft, tellsJoined, gain, AList.mem_insert, hnot]
          · simp [leftCount, joinedCount, tellsLeft, tellsJoined, gain, AList.mem_insert, hq,
              Ne.symm hq]
      | transferHost target =>
        simp only [RoomControl.edit]
        split_ifs <;> simp [leftCount, joinedCount, tellsLeft, tellsJoined, gain]
      | _ => simp [RoomControl.edit, leftCount, joinedCount, tellsLeft, tellsJoined, gain]
    · simp [leftCount, joinedCount, gain]

/-- A turn of a regular action tells what it does to the clients. -/
theorem turn_exact {env : Env} {g : Room → RoomOp → Prop} (hg : ∀ room o, g room o → TakesClient room o)
    {c : PeerId} {i : ClientInfo} {room mid : Room} {ms : List ServerMessage}
    (h : HearsTurn env g c i room ms mid) (hc : c ∈ room.clients)
    (hmid : mid.clients.lookup c = some i) (q : PeerId) :
    leftCount q ms = gain q mid.clients room.clients ∧
      joinedCount q ms = gain q room.clients mid.clients := by
  cases h with
  | rest => simp [leftCount, joinedCount, gain_self]
  | input _ pid blob => simp [leftCount, joinedCount, tellsLeft, tellsJoined, gain_self]
  | opClient allowed disjoint _ =>
    exact news_exact disjoint (hg _ _ allowed) (AList.isEmpty_eq_false_iff.mpr ⟨c, hc⟩) q
  | opPending _ disjoint pending =>
    exact absurd (AList.mem_of_lookup pending)
      (RoomOp.after_disjoint disjoint c (AList.mem_of_lookup hmid))

/-- An admission adds the newcomer to the clients, or nobody. -/
theorem admitted_clients {env : Env} {me : ConnId} {code : RoomCode} {h : Hello}
    {room room' : Room} {net : Net} {pid : PeerId} {joined : ServerMessage}
    (ha : Room.Admitted env me code h room [] room' net pid joined) {q : PeerId} (hq : pid ≠ q) :
    q ∈ room'.clients ↔ q ∈ room.clients := by
  rw [AList.mem_iff_lookup, AList.mem_iff_lookup, (ha.kept hq).1]

theorem arrival_exact {env : Env} {comer : Option (ConnId × Hello)} {appKey key : String}
    {c : PeerId} {i : ClientInfo} {mid room' : Room} {ms : List ServerMessage}
    (h : HearsArrival env comer appKey key c i mid ms room') (hc : c ∈ mid.clients) (q : PeerId) :
    leftCount q ms = 0 ∧ joinedCount q ms = gain q mid.clients room'.clients ∧
      (q ∈ mid.clients → q ∈ room'.clients) := by
  cases h with
  | rest => simp [leftCount, joinedCount, gain_self]
  | count n => simp [leftCount, joinedCount, gain_self]
  | @admitPeer me h _ _ net pid joined _ _ _ _ _ admitted =>
    have hfresh : pid ∉ mid.clients := admitted.fresh.1
    by_cases hq : pid = q
    · subst hq
      by_cases ha : pid ∈ room'.clients <;>
        simp [ha, hc, hfresh, leftCount, joinedCount, tellsLeft, tellsJoined, gain]
    · have hkept := admitted_clients admitted hq
      split_ifs <;> simp [leftCount, joinedCount, tellsLeft, tellsJoined, gain, hq, hkept]

/-! ## One action -/

theorem hello_op {sys : Sys} {a : Action} {h : Hello} {s : Session} {o : RoomOp}
    (event : a.event = .message (.hello h)) (ho : a.op sys = some (s, o)) :
    o = .leave s.peerId := by
  have hs := Action.op_session ho
  simp only [Action.op, event, hs, Option.some.injEq, Prod.mk.injEq] at ho
  exact ho.2.symm

/-- The operation of the action, on the room of its session. -/
def Pinned (sys : Sys) (a : Action) (room : Room) (o : RoomOp) : Prop :=
  TakesClient room o ∧ ∃ s, a.op sys = some (s, o) ∧
    sys.roomAt s.appKey s.roomCode.key = some room

theorem pinned_guard {sys : Sys} {a : Action} (h : OpGuard (fun _ => TakesClient) sys a) :
    OpGuard (fun _ => Pinned sys a) sys a :=
  fun s o room ho hr => ⟨h s o room ho hr, s, ho, hr⟩

/-- The operation of a `Hello` that takes out a client is the leave of that client. -/
theorem pinned_leave {sys : Sys} {a : Action} {h : Hello} (event : a.event = .message (.hello h))
    {room : Room} {o : RoomOp} {q : PeerId} (hp : Pinned sys a room o) (hq : q ∈ room.clients)
    (hgone : q ∉ (o.after a.env room).clients) :
    o = .leave q ∧ ∃ s, sys.session a.conn = some s ∧ s.peerId = q ∧
      sys.roomAt s.appKey s.roomCode.key = some room := by
  obtain ⟨_, s, hop, hr⟩ := hp
  obtain rfl := hello_op event hop
  obtain rfl : q = s.peerId := by
    by_contra hne
    rw [RoomOp.after_clients] at hgone
    exact hgone (AList.mem_erase.mpr ⟨hne, hq⟩)
  exact ⟨rfl, s, Action.op_session hop, rfl, hr⟩

/-- A `Hello` that ends with a session has passed the gate. -/
theorem hello_gate {sys : Sys} {a : Action} {h : Hello} (event : a.event = .message (.hello h))
    {s : Session} (hs : (step sys a).session a.conn = some s) :
    ∃ server, helloGate a.env (leaveSession a.env sys.server (sys.session a.conn) []).1 h =
      .ok server := by
  have hout : a.outcome sys = dispatchHello a.env sys.server (sys.session a.conn) a.conn h := by
    simp [Action.outcome, event, dispatch]
  have hres := dispatchHello_result a.env sys.server (sys.session a.conn) a.conn h
  rw [← hout] at hres
  simp only [step, Function.update_self] at hs
  revert hres hs
  generalize a.outcome sys = out
  intro hres hs
  cases hres with
  | refused _ => cases hs
  | rejected _ _ _ _ => cases hs
  | joined gate _ _ _ => exact ⟨_, gate⟩

/-- Who is let in as a client under the id it has just given up returns. -/
theorem returns_of_back {sys : Sys} {a : Action} {h : Hello}
    (event : a.event = .message (.hello h)) (hseat : Seated sys) {appKey key : String}
    {room mid room' : Room} {net : Net} {q c : PeerId} {joined : ServerMessage}
    (hr : sys.roomAt appKey key = some room) (hr' : (step sys a).roomAt appKey key = some room')
    (hq : q ∈ room.clients) (hc : c ∈ room.clients) (hne : c ≠ q)
    (hleave : mid = (RoomOp.leave q).after a.env room ∧ ∃ s, sys.session a.conn = some s ∧
      s.peerId = q ∧ sys.roomAt s.appKey s.roomCode.key = some room)
    (place : h.appKey = appKey ∧ h.roomCode.key = key)
    (hadm : Room.Admitted a.env a.conn h.roomCode h mid [] room' net q joined)
    (hback : q ∈ room'.clients) : Returns sys a := by
  obtain ⟨rfl, s, hs, rfl, hr₀⟩ := hleave
  obtain ⟨iq, hiq⟩ := AList.mem_iff_lookup.mp hq
  obtain ⟨rfl, rfl, _⟩ := hseat.unique hr (.inl hiq) hr₀ (.inl hiq) rfl
  obtain ⟨ic, hic⟩ := AList.mem_iff_lookup.mp hc
  have hcmid : ((RoomOp.leave s.peerId).after a.env room).HasMember c ic := by
    rw [Room.HasMember, RoomOp.after_clients]
    exact .inl (AList.lookup_erase_some.mpr ⟨hne, hic⟩)
  have hnew : (step sys a).session a.conn ≠ none := by
    obtain ⟨j, hj⟩ := AList.mem_iff_lookup.mp hback
    rcases hadm.hasMember (.inl hj) with ⟨_, rfl⟩ | hold
    · obtain ⟨s', hs', _⟩ := step_seated hseat a _ _ _ _ _ hr' (.inl hj)
      exact fun hnone => by cases hnone.symm.trans hs'
    · rcases hold with hold | hold
      · exact absurd (AList.mem_of_lookup hold) hadm.fresh.1
      · exact absurd (AList.mem_of_lookup hold) hadm.fresh.2
  obtain ⟨s', hs'⟩ := Option.ne_none_iff_exists'.mp hnew
  have hgate := hello_gate event hs'
  rw [hs] at hgate
  have hid : (room.dropMember s.peerId).nextPeerId.1 = some s.peerId :=
    (Room.nextPeerId_setHost _ _).symm.trans hadm.allocated
  refine ⟨h, s, room, event, hs, hr₀, place, hq, ⟨c, hc, hne⟩, hgate, ?_, hid, ?_⟩
  · rintro (hb | hf | hw | hn)
    · cases hb.symm.trans hadm.notBanned
    · cases hf.symm.trans hadm.notFull
    · cases hw.symm.trans hadm.password
    · cases hid.symm.trans hn
  · by_contra hacc
    obtain ⟨n, rfl⟩ := hadm.seated
    have hv := Room.isVacant_eq_false_of_hasMember hcmid
    have hv' : ({ (RoomOp.leave s.peerId).after a.env room with peerCounter := n } :
        Room).isVacant = false := hv
    have hacc' : ((RoomOp.leave s.peerId).after a.env room).settings.acceptRequired = true :=
      Bool.eq_true_of_not_eq_false hacc
    simp only [Room.seat, hv', hacc', Bool.false_eq_true, if_false, if_true] at hback
    exact hadm.fresh.1 hback

theorem gain_congr {q : PeerId} {m m' n n' : Members} (hm : q ∈ m ↔ q ∈ m') (hn : q ∈ n ↔ q ∈ n') :
    gain q m n = gain q m' n' := by
  simp only [gain, hm, hn]

/-- Counts over a turn and an arrival, when nobody is lost in the one and gained in the other. -/
theorem gain_through {q : PeerId} {before mid after : Members} (harr : q ∈ mid → q ∈ after)
    (hback : ¬ (q ∈ before ∧ q ∉ mid ∧ q ∈ after)) :
    gain q mid before = gain q after before ∧
      gain q before mid + gain q mid after = gain q before after := by
  by_cases hb : q ∈ before <;> by_cases hm : q ∈ mid <;> by_cases ha : q ∈ after <;>
    simp_all [gain]

theorem joinedMessage_counts (room : Room) (code : RoomCode) (p : PeerId) (side : UInt8)
    (q : PeerId) : leftCount q [room.joinedMessage code p side] = 0 ∧
      joinedCount q [room.joinedMessage code p side] = 0 := by
  simp [leftCount, joinedCount, Room.joinedMessage, tellsLeft, tellsJoined]

/-- Who was a client and is a member after a turn is a client still. -/
theorem turn_client {env : Env} {g : Room → RoomOp → Prop} {c : PeerId} {i : ClientInfo}
    {room mid : Room} {ms : List ServerMessage} (h : HearsTurn env g c i room ms mid)
    (hd : room.Disjoint) (hc : c ∈ room.clients) (hm : mid.HasMember c i) :
    mid.clients.lookup c = some i := by
  have hroom := h.hasMember hm
  have hpending : room.pending.lookup c ≠ some i := fun hp => hd c hc (AList.mem_of_lookup hp)
  cases h with
  | rest => exact hm.resolve_right hpending
  | input _ _ _ => exact hm.resolve_right hpending
  | opClient _ _ client => exact client
  | opPending _ _ pending => exact absurd (RoomOp.after_pending_lookup pending) hpending

/-- A client that neither comes nor goes hears the exact difference. -/
theorem step_exact {sys : Sys} {a : Action} (hsys : Reachable sys) (hg : Regular sys a) :
    ExactEvents sys a := by
  intro appKey key room room' c i hr hr' hc hi q
  have hs := seated hsys
  have hd := allDisjoint_of_reachable hsys
  have hdr := hd _ _ _ hr
  have hhears := step_hears hs hd hg.clear (pinned_guard hg.takes) hr' (.inl hi)
  generalize onChannel i.tx (a.sent sys) = heard at hhears
  cases hhears with
  | @stays room₀ mid ms ms' answers _ found turn arrival answers_spec =>
    obtain rfl := Option.some.inj (found.symm.trans hr)
    have hmid : mid.clients.lookup c = some i :=
      turn_client turn hdr hc (arrival.hasMember (.inl hi))
    obtain ⟨hl, hj⟩ := turn_exact (fun _ _ h => h.1) turn hc hmid q
    obtain ⟨hl', hj', hkept⟩ := arrival_exact arrival (AList.mem_of_lookup hmid) q
    obtain ⟨hl'', hj''⟩ : leftCount q answers = 0 ∧ joinedCount q answers = 0 := by
      rcases answers_spec with h | ⟨_, rfl⟩
      · exact counts_of_isAnswer h q
      · exact counts_requestState room' q
    have hback : ¬ (q ∈ room₀.clients ∧ q ∉ mid.clients ∧ q ∈ room'.clients) := by
      rintro ⟨hb, hgone, ha⟩
      cases arrival with
      | rest => exact hgone ha
      | count n => exact hgone ha
      | @admitPeer me h _ _ net pid joined comes place _ member other admitted =>
        obtain ⟨rfl, event⟩ := Action.comer_eq_some comes
        obtain rfl : pid = q := by
          by_contra hne
          exact hgone ((admitted_clients admitted hne).mp ha)
        have hleave : mid = (RoomOp.leave pid).after a.env room₀ ∧ ∃ s,
            sys.session a.conn = some s ∧ s.peerId = pid ∧
              sys.roomAt s.appKey s.roomCode.key = some room₀ := by
          cases turn with
          | rest => exact absurd hb hgone
          | input _ _ _ => exact absurd hb hgone
          | opClient allowed _ _ | opPending allowed _ _ =>
            obtain ⟨rfl, hsess⟩ := pinned_leave event allowed hb hgone
            exact ⟨rfl, hsess⟩
        exact hg.away (returns_of_back event hs hr hr' hb hc (Ne.symm other) hleave place
          admitted ha)
    obtain ⟨hleft, hjoined⟩ := gain_through hkept hback
    simp only [leftCount, joinedCount, List.countP_append] at hl hj hl' hj' hl'' hj'' ⊢
    omega
  | @joins h room₀ mid net net' joined comes found turn admitted code side =>
    obtain rfl := Option.some.inj (found.symm.trans hr)
    obtain ⟨_, event⟩ := Action.comer_eq_some comes
    have hsame : q ∈ room'.clients ↔ q ∈ room₀.clients := by
      by_cases hq : c = q
      · subst hq
        exact iff_of_true (AList.mem_of_lookup hi) hc
      · rw [admitted_clients admitted hq]
        cases turn with
        | rest => rfl
        | input _ _ => rfl
        | op allowed =>
          rw [hg.clear.run] at admitted ⊢
          obtain ⟨rfl, _⟩ := pinned_leave event allowed hc admitted.fresh.1
          rw [RoomOp.after_clients]
          exact AList.mem_erase.trans (and_iff_right (Ne.symm hq))
    rw [gain_congr hsame Iff.rfl, gain_congr Iff.rfl hsame, gain_self]
    exact joinedMessage_counts room' code c side q
  | @opens h comes alone was code side =>
    have hsame : q ∈ room'.clients ↔ q ∈ room.clients := by
      by_cases hq : c = q
      · subst hq
        exact iff_of_true (AList.mem_of_lookup hi) hc
      · refine iff_of_false (fun hq' => ?_) fun hq' => ?_
        · obtain ⟨j, hj⟩ := AList.mem_iff_lookup.mp hq'
          exact hq ((step_seated hs a).oneSeat hr' _ _ _ _ (.inl hi) (.inl hj)
            (alone q j (.inl hj)).symm)
        · obtain ⟨pid, hpid⟩ := was room hr
          obtain ⟨j, hj⟩ := AList.mem_iff_lookup.mp hc
          obtain ⟨k, hk⟩ := AList.mem_iff_lookup.mp hq'
          exact hq ((hpid c j (.inl hj)).trans (hpid q k (.inl hk)).symm)
    rw [gain_congr hsame Iff.rfl, gain_congr Iff.rfl hsame, gain_self]
    exact joinedMessage_counts room' code c side q

/-! ## Counting along -/

/-- 1 for a client, 0 for anybody else. -/
def here (q : PeerId) (m : Members) : ℕ := if q ∈ m then 1 else 0

theorem here_gain (q : PeerId) (before after : Members) :
    gain q before after + here q before = gain q after before + here q after := by
  by_cases hb : q ∈ before <;> by_cases ha : q ∈ after <;> simp [gain, here, hb, ha]

/-- `c` is a client of the room, reached over the channel of `i`, all the way. -/
def ClientAlong (appKey key : String) (c : PeerId) (i : ClientInfo) (sys : Sys) :
    List Action → Prop
  | [] => ∃ room, sys.roomAt appKey key = some room ∧ room.clients.lookup c = some i
  | a :: as => (∃ room, sys.roomAt appKey key = some room ∧ room.clients.lookup c = some i) ∧
      ClientAlong appKey key c i (step sys a) as

theorem ClientAlong.now {appKey key : String} {c : PeerId} {i : ClientInfo} {sys : Sys}
    {as : List Action} (h : ClientAlong appKey key c i sys as) :
    ∃ room, sys.roomAt appKey key = some room ∧ room.clients.lookup c = some i := by
  cases as with
  | nil => exact h
  | cons a as => exact h.1

/-- Who stays a client can count who else is one. -/
theorem counts_along {appKey key : String} {c : PeerId} {i : ClientInfo} {sys : Sys}
    {as : List Action} (hsys : Reachable sys) (hg : Along step Regular sys as)
    (hc : ClientAlong appKey key c i sys as) {room room' : Room}
    (hr : sys.roomAt appKey key = some room)
    (hr' : (exec step sys as).roomAt appKey key = some room') (q : PeerId) :
    joinedCount q (heardAlong i.tx sys as) + here q room.clients =
      leftCount q (heardAlong i.tx sys as) + here q room'.clients := by
  induction as generalizing sys room with
  | nil =>
    obtain rfl := Option.some.inj (hr.symm.trans hr')
    rfl
  | cons a as ih =>
    obtain ⟨mid, hmid, hi⟩ := hc.2.now
    obtain ⟨room₀, hr₀, hi₀⟩ := hc.1
    obtain rfl := Option.some.inj (hr.symm.trans hr₀)
    obtain ⟨hl, hj⟩ := step_exact hsys hg.1 _ _ _ _ _ _ hr hmid (AList.mem_of_lookup hi₀) hi q
    have hrest := ih (hsys.tail a trivial) hg.2 hc.2 hmid hr'
    have hgain := here_gain q room.clients mid.clients
    simp only [heardAlong, leftCount, joinedCount, List.countP_append] at hl hj hrest ⊢
    omega

/-- Every client is told the exact difference by every regular action, and so can count along
for as long as it stays. -/
theorem membership_events (sys : Sys) (h : Reachable sys) :
    (∀ a, Regular sys a → ExactEvents sys a) ∧
    ∀ as appKey key c i room room', Along step Regular sys as →
      ClientAlong appKey key c i sys as → sys.roomAt appKey key = some room →
      (exec step sys as).roomAt appKey key = some room' → ∀ q,
        joinedCount q (heardAlong i.tx sys as) + here q room.clients =
          leftCount q (heardAlong i.tx sys as) + here q room'.clients :=
  ⟨fun _ => step_exact h, fun _ _ _ _ _ _ _ hg hc hr hr' => counts_along h hg hc hr hr'⟩

/-- A host and one guest. -/
def pair : List Action := [sends 0 (plainHello "" "h"), sends 1 (plainHello "aaaaaa" "x")]

/-- A host that kicks an id nobody has makes everybody believe that this peer left. -/
theorem kick_of_nobody_is_told : ¬ ∀ sys a, Reachable sys → a.env.Clear → ExactEvents sys a := by
  intro hall
  let kick := sends 0 (.roomControl (.kick 9))
  have hrun : ((exec step .start pair).roomAt "pong" "aaaaaa").any (fun room =>
      decide (1 ∈ room.clients ∧ 9 ∉ room.clients) &&
        ((step (exec step .start pair) kick).roomAt "pong" "aaaaaa").any fun room' =>
          (room'.clients.lookup 1).any fun i =>
            leftCount 9 (onChannel i.tx (kick.sent (exec step .start pair))) == 1) = true := by
    decide
  obtain ⟨room, hr, hany⟩ := (Option.any_eq_true ..).mp hrun
  simp only [Bool.and_eq_true, decide_eq_true_eq] at hany
  obtain ⟨⟨hc, hnot⟩, hany⟩ := hany
  obtain ⟨room', hr', hany⟩ := (Option.any_eq_true ..).mp hany
  obtain ⟨i, hi, hcount⟩ := (Option.any_eq_true ..).mp hany
  have hexact := hall _ kick (reachable_exec pair) Env.quiet_clear _ _ room room' 1 i hr hr' hc hi 9
  simp only [beq_iff_eq] at hcount
  simp [hcount, gain, hnot] at hexact

/-- The guest leaves, and the host has counted it out. -/
theorem pair_counts :
    (∀ room room' c i, (exec step .start pair).roomAt "pong" "aaaaaa" = some room →
      (step (exec step .start pair) (sends 1 (.roomControl .leave))).roomAt "pong" "aaaaaa" =
        some room' → c ∈ room.clients → room'.clients.lookup c = some i → ∀ q,
          leftCount q (onChannel i.tx
            ((sends 1 (.roomControl .leave)).sent (exec step .start pair))) =
              gain q room'.clients room.clients) ∧
      ∃ room room' i, (exec step .start pair).roomAt "pong" "aaaaaa" = some room ∧
        (exec step (exec step .start pair) [sends 1 (.roomControl .leave)]).roomAt
          "pong" "aaaaaa" = some room' ∧ room'.clients.lookup 1 = some i ∧
        joinedCount 2 (heardAlong i.tx (exec step .start pair) [sends 1 (.roomControl .leave)]) +
            here 2 room.clients =
          leftCount 2 (heardAlong i.tx (exec step .start pair) [sends 1 (.roomControl .leave)]) +
            here 2 room'.clients := by
  let leave := sends 1 (.roomControl .leave)
  have hreg : Regular (exec step .start pair) leave := by
    refine ⟨Env.quiet_clear, .of_some (s := ⟨"pong", ⟨"aaaaaa"⟩, 2⟩) (o := .leave 2) rfl ?_, ?_⟩
    · intro room hr
      have hrun : ((exec step .start pair).roomAt "pong" "aaaaaa").all (fun room =>
          decide (2 ∈ room.clients)) = true := by decide
      exact .inl (of_decide_eq_true ((Option.all_eq_true ..).mp hrun room hr))
    · rintro ⟨h, s, room, event, _⟩
      cases event
  have hrun : ((exec step .start pair).roomAt "pong" "aaaaaa").any (fun room =>
      (room.clients.lookup 1).any fun i =>
        ((step (exec step .start pair) leave).roomAt "pong" "aaaaaa").any fun room' =>
          room'.clients.lookup 1 == some i) = true := by decide
  obtain ⟨room, hr, hany⟩ := (Option.any_eq_true ..).mp hrun
  obtain ⟨i, hi, hany⟩ := (Option.any_eq_true ..).mp hany
  obtain ⟨room', hr', hi'⟩ := (Option.any_eq_true ..).mp hany
  have hi'' := beq_iff_eq.mp hi'
  refine ⟨fun room room' c i hr hr' hc hi q => ?_, room, room', i, hr, hr', hi'', ?_⟩
  · exact ((membership_events _ (reachable_exec pair)).1 leave hreg _ _ _ _ _ _ hr hr' hc hi q).1
  · exact (membership_events _ (reachable_exec pair)).2 [leave] _ _ 1 i room room' ⟨hreg, trivial⟩
      ⟨⟨room, hr, hi⟩, room', hr', hi''⟩ hr hr' 2

end Roomie.MembershipEvents
