import Roomie.RoomPools

/-!
# What a pruning broadcast can do to a room

A broadcast drops the members whose channel turned out to be closed, and the rounds that
announce them may drop more. All of this is one relation between the room before and the
room after, reflexive and transitive, so every claim about broadcasts follows from the
claim about a single one. With clear channels nothing is dropped and the messages sent
are exactly those of the first round.
-/

namespace Roomie
open HashTables

/-! ## The sending loop -/

theorem sendAll_net (env : Env) (msg : ServerMessage) (es : List (PeerId × ClientInfo))
    (net : Net) : (sendAll env msg es net).2 = net ++ es.map fun e => (e.2.tx, msg) := by
  induction es generalizing net with
  | nil => simp [sendAll]
  | cons e rest ih => simp [sendAll, trySend, ih]

theorem mem_sendAll_cons {env : Env} {msg : ServerMessage} {es : List (PeerId × ClientInfo)}
    {net : Net} {p q : PeerId} {i : ClientInfo} :
    q ∈ (sendAll env msg ((p, i) :: es) net).1 ↔ env.chan net.length i.tx = .closed ∧ p = q ∨
      q ∈ (sendAll env msg es (net ++ [(i.tx, msg)])).1 := by
  simp only [sendAll, trySend, isClosed, beq_iff_eq]
  split_ifs with hc
  · simp [hc, eq_comm]
  · simp [hc]

/-- Who is found closed, and at which attempt. -/
theorem mem_sendAll_iff {env : Env} {msg : ServerMessage} {es : List (PeerId × ClientInfo)}
    {net : Net} {q : PeerId} : q ∈ (sendAll env msg es net).1 ↔
    ∃ (k : ℕ) (e : PeerId × ClientInfo), es[k]? = some e ∧ e.1 = q ∧
      env.chan (net.length + k) e.2.tx = .closed := by
  induction es generalizing net with
  | nil => simp [sendAll]
  | cons e rest ih =>
    obtain ⟨p, i⟩ := e
    rw [mem_sendAll_cons, ih, List.length_append, List.length_singleton]
    constructor
    · rintro (⟨hc, rfl⟩ | ⟨k, e, he, hq, hc⟩)
      · exact ⟨0, (p, i), rfl, rfl, hc⟩
      · exact ⟨k + 1, e, he, hq, by rwa [← Nat.add_assoc, Nat.add_right_comm]⟩
    · rintro ⟨k, e, he, hq, hc⟩
      cases k with
      | zero =>
        obtain rfl := Option.some.inj he
        exact .inl ⟨hc, hq⟩
      | succ k => exact .inr ⟨k, e, he, hq, by rwa [Nat.add_assoc, Nat.add_comm 1]⟩

theorem mem_sendAll_dead {env : Env} {msg : ServerMessage} {es : List (PeerId × ClientInfo)}
    {net : Net} {p : PeerId} (h : p ∈ (sendAll env msg es net).1) :
    ∃ i n, (p, i) ∈ es ∧ env.chan n i.tx = .closed := by
  obtain ⟨k, ⟨_, i⟩, he, rfl, hclosed⟩ := mem_sendAll_iff.mp h
  exact ⟨i, _, List.mem_of_getElem? he, hclosed⟩

/-- The channel is open whenever it is tried. -/
def Env.Live (env : Env) (tx : ConnId) : Prop := ∀ n, env.chan n tx ≠ .closed

/-- The channel is closed whenever it is tried. -/
def Env.Dead (env : Env) (tx : ConnId) : Prop := ∀ n, env.chan n tx = .closed

theorem mem_sendAll_of_dead {env : Env} {msg : ServerMessage} {es : List (PeerId × ClientInfo)}
    {net : Net} {p : PeerId} {i : ClientInfo} (h : (p, i) ∈ es) (hd : env.Dead i.tx) :
    p ∈ (sendAll env msg es net).1 := by
  obtain ⟨k, he⟩ := List.mem_iff_getElem?.mp h
  exact mem_sendAll_iff.mpr ⟨k, (p, i), he, rfl, hd _⟩

theorem Env.Clear.live {env : Env} (hc : env.Clear) (tx : ConnId) : env.Live tx := by
  intro n
  simp [hc n tx]

theorem Env.Clear.sendAll_dead {env : Env} (hc : env.Clear) (msg : ServerMessage)
    (es : List (PeerId × ClientInfo)) (net : Net) : (sendAll env msg es net).1 = [] := by
  rw [List.eq_nil_iff_forall_not_mem]
  intro p hp
  obtain ⟨i, n, _, hn⟩ := mem_sendAll_dead hp
  simp [hc n i.tx] at hn

theorem Env.Clear.delivered {env : Env} (hc : env.Clear) (net : Net) :
    delivered env net = net := by
  have h : (net.zipIdx.filter fun a => env.chan a.2 a.1.1 == .ok) = net.zipIdx :=
    List.filter_eq_self.mpr fun a _ => by simp [hc a.2 a.1.1]
  rw [Roomie.delivered, h, List.zipIdx_map_fst]

theorem mem_of_mem_delivered {env : Env} {net : Net} {s : ConnId × ServerMessage}
    (h : s ∈ Roomie.delivered env net) : s ∈ net := by
  obtain ⟨a, ha, rfl⟩ := List.mem_map.mp h
  exact List.fst_mem_of_mem_zipIdx (List.mem_filter.mp ha).1

/-! ## Membership -/

namespace Room

/-- Somebody has the id `p`, accepted or pending, with the data `i`. -/
def HasMember (room : Room) (p : PeerId) (i : ClientInfo) : Prop :=
  room.clients.lookup p = some i ∨ room.pending.lookup p = some i

/-- No id is accepted and pending at once. -/
def Disjoint (room : Room) : Prop := ∀ p, p ∈ room.clients → p ∉ room.pending

/-- In a room without double ids the data of a member is determined by its id. -/
theorem Disjoint.info_unique {room : Room} (hd : room.Disjoint) {p : PeerId} {i j : ClientInfo}
    (hi : room.HasMember p i) (hj : room.HasMember p j) : i = j := by
  rcases hi with hi | hi <;> rcases hj with hj | hj
  · exact Option.some.inj (hi.symm.trans hj)
  · exact absurd (AList.mem_of_lookup hj) (hd p (AList.mem_of_lookup hi))
  · exact absurd (AList.mem_of_lookup hi) (hd p (AList.mem_of_lookup hj))
  · exact Option.some.inj (hi.symm.trans hj)

theorem mem_everyone {env : Env} {room : Room} {p : PeerId} {i : ClientInfo} :
    (p, i) ∈ room.everyone env ↔ room.HasMember p i := by
  simp only [everyone, List.mem_append, AList.mem_iter, HasMember]

theorem isVacant_iff {room : Room} :
    room.isVacant = true ↔ (∀ p, p ∉ room.clients) ∧ ∀ p, p ∉ room.pending := by
  simp [isVacant]

@[simp] theorem dropMember_clients (room : Room) (p : PeerId) :
    (room.dropMember p).clients = room.clients.erase p := rfl

@[simp] theorem dropMember_pending (room : Room) (p : PeerId) :
    (room.dropMember p).pending = room.pending.erase p := rfl

@[simp] theorem dropClient_clients (room : Room) (p : PeerId) :
    (room.dropClient p).clients = room.clients.erase p := rfl

@[simp] theorem dropClient_pending (room : Room) (p : PeerId) :
    (room.dropClient p).pending = room.pending := rfl

end Room

/-- Fields a broadcast never touches. -/
structure SameData (room room' : Room) : Prop where
  appKey : room'.appKey = room.appKey
  code : room'.code = room.code
  state : room'.state = room.state
  settings : room'.settings = room.settings
  banned : room'.banned = room.banned
  peerCounter : room'.peerCounter = room.peerCounter

theorem SameData.refl (room : Room) : SameData room room := ⟨rfl, rfl, rfl, rfl, rfl, rfl⟩

theorem SameData.trans {r s t : Room} (h : SameData r s) (h' : SameData s t) : SameData r t :=
  ⟨h'.appKey.trans h.appKey, h'.code.trans h.code, h'.state.trans h.state,
    h'.settings.trans h.settings, h'.banned.trans h.banned, h'.peerCounter.trans h.peerCounter⟩

/-- `room'` is `room` without some members whose channel was closed. The host is left open. -/
structure ShrunkTo (env : Env) (room room' : Room) : Prop where
  data : SameData room room'
  clients : ∀ p i, room'.clients.lookup p = some i → room.clients.lookup p = some i
  pending : ∀ p i, room'.pending.lookup p = some i → room.pending.lookup p = some i
  gone : ∀ p, p ∈ room.clients ∧ p ∉ room'.clients ∨ p ∈ room.pending ∧ p ∉ room'.pending →
    ∃ i n, room.HasMember p i ∧ env.chan n i.tx = .closed

namespace ShrunkTo

variable {env : Env} {r s t : Room}

theorem refl (env : Env) (room : Room) : ShrunkTo env room room where
  data := .refl room
  clients _ _ h := h
  pending _ _ h := h
  gone p h := by
    rcases h with ⟨h, h'⟩ | ⟨h, h'⟩ <;> exact absurd h h'

theorem mem_clients (h : ShrunkTo env r s) {p : PeerId} (hp : p ∈ s.clients) : p ∈ r.clients := by
  obtain ⟨i, hi⟩ := AList.mem_iff_lookup.mp hp
  exact AList.mem_of_lookup (h.clients p i hi)

theorem mem_pending (h : ShrunkTo env r s) {p : PeerId} (hp : p ∈ s.pending) : p ∈ r.pending := by
  obtain ⟨i, hi⟩ := AList.mem_iff_lookup.mp hp
  exact AList.mem_of_lookup (h.pending p i hi)

theorem hasMember (h : ShrunkTo env r s) {p : PeerId} {i : ClientInfo} (hp : s.HasMember p i) :
    r.HasMember p i :=
  hp.imp (h.clients p i) (h.pending p i)

theorem trans (h : ShrunkTo env r s) (h' : ShrunkTo env s t) : ShrunkTo env r t where
  data := h.data.trans h'.data
  clients p i hp := h.clients p i (h'.clients p i hp)
  pending p i hp := h.pending p i (h'.pending p i hp)
  gone p hp := by
    have later : p ∈ s.clients ∧ p ∉ t.clients ∨ p ∈ s.pending ∧ p ∉ t.pending →
        ∃ i n, r.HasMember p i ∧ env.chan n i.tx = .closed := by
      intro hs
      obtain ⟨i, n, hi, hn⟩ := h'.gone p hs
      exact ⟨i, n, h.hasMember hi, hn⟩
    rcases hp with ⟨hr, ht⟩ | ⟨hr, ht⟩
    · by_cases hs : p ∈ s.clients
      · exact later (.inl ⟨hs, ht⟩)
      · exact h.gone p (.inl ⟨hr, hs⟩)
    · by_cases hs : p ∈ s.pending
      · exact later (.inr ⟨hs, ht⟩)
      · exact h.gone p (.inr ⟨hr, hs⟩)

theorem disjoint (h : ShrunkTo env r s) (hr : r.Disjoint) : s.Disjoint :=
  fun p hp hp' => hr p (h.mem_clients hp) (h.mem_pending hp')

/-- In a room without double ids a member is kept unless its channel was found closed. -/
theorem kept_or_closed (h : ShrunkTo env r s) (hr : r.Disjoint) {p : PeerId} {i : ClientInfo} :
    (r.clients.lookup p = some i → s.clients.lookup p = some i ∨ ∃ n, env.chan n i.tx = .closed) ∧
      (r.pending.lookup p = some i →
        s.pending.lookup p = some i ∨ ∃ n, env.chan n i.tx = .closed) := by
  have hgone : ∀ {j n}, r.HasMember p i → r.HasMember p j → env.chan n j.tx = .closed →
      ∃ n, env.chan n i.tx = .closed :=
    fun hi hj hn => ⟨_, hr.info_unique hi hj ▸ hn⟩
  constructor
  · intro hp
    by_cases hs : p ∈ s.clients
    · obtain ⟨j, hj⟩ := AList.mem_iff_lookup.mp hs
      rw [hp.symm.trans (h.clients p j hj)]
      exact .inl hj
    · obtain ⟨j, n, hj, hn⟩ := h.gone p (.inl ⟨AList.mem_of_lookup hp, hs⟩)
      exact .inr (hgone (.inl hp) hj hn)
  · intro hp
    by_cases hs : p ∈ s.pending
    · obtain ⟨j, hj⟩ := AList.mem_iff_lookup.mp hs
      rw [hp.symm.trans (h.pending p j hj)]
      exact .inl hj
    · obtain ⟨j, n, hj, hn⟩ := h.gone p (.inr ⟨AList.mem_of_lookup hp, hs⟩)
      exact .inr (hgone (.inr hp) hj hn)

/-- In a room without double ids an accepted client survives while its channel does. -/
theorem survives (h : ShrunkTo env r s) (hr : r.Disjoint) {p : PeerId} {i : ClientInfo}
    (hp : r.clients.lookup p = some i) (hlive : ∀ n, env.chan n i.tx ≠ .closed) :
    s.clients.lookup p = some i := by
  rcases (h.kept_or_closed hr).1 hp with hs | ⟨n, hn⟩
  · exact hs
  · exact absurd hn (hlive n)

/-- A change of host alone changes no member. -/
theorem setHost (env : Env) (room : Room) (pid : PeerId) :
    ShrunkTo env room { room with hostPeerId := pid } where
  data := ⟨rfl, rfl, rfl, rfl, rfl, rfl⟩
  clients _ _ h := h
  pending _ _ h := h
  gone p h := by
    rcases h with ⟨h, h'⟩ | ⟨h, h'⟩ <;> exact absurd h h'

end ShrunkTo

/-- The channel of the host was found closed. -/
def Room.HostLost (env : Env) (room : Room) : Prop :=
  ∃ i n, room.HasMember room.hostPeerId i ∧ env.chan n i.tx = .closed

/-- Members whose channel was closed are gone, and the host is replaced when it was among them. -/
structure PrunedTo (env : Env) (room room' : Room) : Prop extends ShrunkTo env room room' where
  host : room.hostPeerId ∈ room.clients →
    room'.hostPeerId ∈ room'.clients ∨ room'.clients.isEmpty = true
  hostKept : room.hostPeerId ∈ room'.clients → room'.hostPeerId = room.hostPeerId
  hostLost : room'.hostPeerId = room.hostPeerId ∨ room.HostLost env

namespace PrunedTo

variable {env : Env} {r s t : Room}

theorem refl (env : Env) (room : Room) : PrunedTo env room room where
  toShrunkTo := .refl env room
  host h := .inl h
  hostKept _ := rfl
  hostLost := .inl rfl

theorem trans (h : PrunedTo env r s) (h' : PrunedTo env s t) : PrunedTo env r t where
  toShrunkTo := h.toShrunkTo.trans h'.toShrunkTo
  host hr := by
    rcases h.host hr with hs | hs
    · exact h'.host hs
    · right
      rw [AList.isEmpty_iff] at hs ⊢
      exact fun p hp => hs p (h'.mem_clients hp)
  hostKept ht := by
    have hs := h.hostKept (h'.mem_clients ht)
    rw [← hs] at ht ⊢
    exact h'.hostKept ht
  hostLost := by
    rcases h.hostLost with hs | hlost
    · refine h'.hostLost.imp (fun ht => ht.trans hs) ?_
      rintro ⟨i, n, hi, hn⟩
      exact ⟨i, n, hs ▸ h.hasMember hi, hn⟩
    · exact .inr hlost

/-- A host that is no member is kept. -/
theorem hostOut (h : PrunedTo env r s) (hr : ∀ i, ¬ r.HasMember r.hostPeerId i) :
    s.hostPeerId = r.hostPeerId := by
  rcases h.hostLost with hs | ⟨i, _, hi, _⟩
  · exact hs
  · exact absurd hi (hr i)

end PrunedTo

/-! ## The removal loop -/

/-- What the two ways of dropping a peer have in common. -/
structure Drops (drop : Room → PeerId → Room) : Prop where
  data : ∀ room p, SameData room (drop room p)
  host : ∀ room p, (drop room p).hostPeerId = room.hostPeerId
  clients : ∀ room p, (drop room p).clients = room.clients.erase p
  pending : ∀ room p q i, (drop room p).pending.lookup q = some i → room.pending.lookup q = some i
  kept : ∀ room p q, q ≠ p → q ∈ room.pending → q ∈ (drop room p).pending

theorem drops_dropClient : Drops Room.dropClient where
  data _ _ := ⟨rfl, rfl, rfl, rfl, rfl, rfl⟩
  host _ _ := rfl
  clients _ _ := rfl
  pending _ _ _ _ h := h
  kept _ _ _ _ h := h

theorem drops_dropMember : Drops Room.dropMember where
  data _ _ := ⟨rfl, rfl, rfl, rfl, rfl, rfl⟩
  host _ _ := rfl
  clients _ _ := rfl
  pending _ _ _ _ h := (AList.lookup_erase_some.mp h).2
  kept _ _ _ hq h := AList.mem_erase.mpr ⟨hq, h⟩

/-- The removal loop erased the ids of `dead` and repaired the host. -/
structure Removed (dead : List PeerId) (room room' : Room) : Prop where
  data : SameData room room'
  clients : ∀ q, room'.clients.lookup q = if q ∈ dead then none else room.clients.lookup q
  pending : ∀ q i, room'.pending.lookup q = some i → room.pending.lookup q = some i
  kept : ∀ q, q ∉ dead → q ∈ room.pending → q ∈ room'.pending
  host : room.hostPeerId ∈ room.clients →
    room'.hostPeerId ∈ room'.clients ∨ room'.clients.isEmpty = true
  hostKept : room.hostPeerId ∉ dead → room'.hostPeerId = room.hostPeerId

theorem Removed.nil (room : Room) : Removed [] room room where
  data := .refl room
  clients q := by simp
  pending _ _ h := h
  kept _ _ h := h
  host h := .inl h
  hostKept _ := rfl

theorem Removed.cons {p : PeerId} {rest : List PeerId} {r s t : Room} (h : Removed [p] r s)
    (h' : Removed rest s t) : Removed (p :: rest) r t where
  data := h.data.trans h'.data
  clients q := by
    rw [h'.clients, h.clients]
    by_cases hq : q = p <;> simp [hq]
  pending q i hq := h.pending q i (h'.pending q i hq)
  kept q hq hr := by
    have hp : q ∉ [p] := fun hm => hq (List.mem_cons.mpr (.inl (List.mem_singleton.mp hm)))
    exact h'.kept q (fun hm => hq (List.mem_cons_of_mem _ hm)) (h.kept q hp hr)
  host hr := by
    rcases h.host hr with hs | hs
    · exact h'.host hs
    · right
      rw [AList.isEmpty_iff] at hs ⊢
      intro q hq
      obtain ⟨i, hi⟩ := AList.mem_iff_lookup.mp hq
      rw [h'.clients] at hi
      split_ifs at hi
      exact hs q (AList.mem_of_lookup hi)
  hostKept hr := by
    have hp : r.hostPeerId ∉ [p] := fun hm =>
      hr (List.mem_cons.mpr (.inl (List.mem_singleton.mp hm)))
    have hs := h.hostKept hp
    rw [← hs] at hr ⊢
    exact h'.hostKept fun hm => hr (List.mem_cons_of_mem _ hm)

/-- One turn of the removal loop. -/
theorem Drops.removed_one {drop : Room → PeerId → Room} (hd : Drops drop) (env : Env)
    (room : Room) (p : PeerId) :
    (room.hostPeerId ≠ p → Removed [p] room (drop room p)) ∧
    (room.hostPeerId = p → Removed [p] room
      { drop room p with
        hostPeerId := ((drop room p).clients.firstKey env.peers).getD 0 }) := by
  have hcl : ∀ q, (drop room p).clients.lookup q =
      if q ∈ [p] then none else room.clients.lookup q := by
    intro q
    simp only [hd.clients, AList.lookup_erase_if, List.mem_singleton]
  have hkept : ∀ q, q ∉ [p] → q ∈ room.pending → q ∈ (drop room p).pending :=
    fun q hq => hd.kept room p q fun h => hq (List.mem_singleton.mpr h)
  have hsame := hd.data room p
  constructor
  · intro hne
    refine ⟨hsame, hcl, hd.pending room p, hkept, ?_, fun _ => hd.host room p⟩
    intro hin
    left
    rw [hd.host, hd.clients]
    exact AList.mem_erase.mpr ⟨hne, hin⟩
  · intro heq
    refine ⟨⟨hsame.appKey, hsame.code, hsame.state, hsame.settings, hsame.banned,
      hsame.peerCounter⟩, hcl, hd.pending room p, hkept, ?_, ?_⟩
    · intro _
      cases hf : (drop room p).clients.firstKey env.peers with
      | some q => exact .inl (AList.firstKey_mem hf)
      | none => exact .inr (AList.isEmpty_iff.mpr (AList.firstKey_eq_none.mp hf))
    · intro hn
      exact absurd (List.mem_singleton.mpr heq) hn

theorem removeDead_removed {env : Env} {drop : Room → PeerId → Room} (hd : Drops drop)
    (dead : List PeerId) (room : Room) (nh : Option PeerId) :
    Removed dead room (removeDead env drop dead room nh).1 := by
  induction dead generalizing room nh with
  | nil => exact .nil room
  | cons p rest ih =>
    obtain ⟨hother, hhost⟩ := hd.removed_one env room p
    simp only [removeDead, hd.host]
    split_ifs with h
    · exact (hhost h).cons (ih _ _)
    · exact (hother h).cons (ih _ _)

/-! ## Broadcasts prune -/

/-- A broadcast to members of the room drops only members whose channel was closed. -/
theorem retainConnected_prunedTo {env : Env} {drop : Room → PeerId → Room} (hd : Drops drop)
    {audience : List (PeerId × ClientInfo)} {room : Room}
    (ha : ∀ e ∈ audience, room.HasMember e.1 e.2) (msg : ServerMessage) (net : Net) :
    PrunedTo env room (retainConnected env audience drop room msg net).room := by
  have hr : Removed (sendAll env msg audience net).1 room
      (retainConnected env audience drop room msg net).room :=
    removeDead_removed hd _ room none
  generalize (retainConnected env audience drop room msg net).room = room' at hr
  have hclients : ∀ p, p ∈ room'.clients → p ∉ (sendAll env msg audience net).1 := by
    intro p hp hdead
    obtain ⟨i, hi⟩ := AList.mem_iff_lookup.mp hp
    simp [hr.clients, hdead] at hi
  have hmember : ∀ p ∈ (sendAll env msg audience net).1,
      ∃ i n, room.HasMember p i ∧ env.chan n i.tx = .closed := by
    intro p hp
    obtain ⟨i, n, hi, hn⟩ := mem_sendAll_dead hp
    exact ⟨i, n, ha _ hi, hn⟩
  refine ⟨⟨hr.data, ?_, hr.pending, ?_⟩, hr.host, fun h => hr.hostKept (hclients _ h), ?_⟩
  · intro p i hp
    rw [hr.clients] at hp
    split_ifs at hp
    exact hp
  · intro p hp
    have hdead : p ∈ (sendAll env msg audience net).1 := by
      by_contra hn
      rcases hp with ⟨hp, hp'⟩ | ⟨hp, hp'⟩
      · obtain ⟨i, hi⟩ := AList.mem_iff_lookup.mp hp
        exact hp' (AList.mem_of_lookup (v := i) (by rw [hr.clients, if_neg hn, hi]))
      · exact hp' (hr.kept p hn hp)
    exact hmember p hdead
  · by_cases hdead : room.hostPeerId ∈ (sendAll env msg audience net).1
    · exact .inr (hmember _ hdead)
    · exact .inl (hr.hostKept hdead)

theorem broadcastRetainConnected_prunedTo (env : Env) (room : Room) (msg : ServerMessage)
    (net : Net) : PrunedTo env room (broadcastRetainConnected env room msg net).room :=
  retainConnected_prunedTo drops_dropClient (fun _ he => .inl (AList.mem_iter.mp he)) msg net

theorem broadcastStateUpdateRetainConnected_prunedTo (env : Env) (room : Room) (net : Net) :
    PrunedTo env room (broadcastStateUpdateRetainConnected env room net).room :=
  retainConnected_prunedTo drops_dropMember (fun _ he => Room.mem_everyone.mp he) _ net

theorem announceLeft_prunedTo (env : Env) (dead : List PeerId) (b : Broadcast) :
    PrunedTo env b.room (announceLeft env dead b).room := by
  induction dead generalizing b with
  | nil => exact .refl env b.room
  | cons p rest ih =>
    have hc := broadcastRetainConnected_prunedTo env b.room (.peerLeft p) b.net
    simp only [announceLeft]
    generalize broadcastRetainConnected env b.room (.peerLeft p) b.net = c at hc
    exact hc.trans (ih ⟨c.room, c.net, b.dead ++ c.dead, c.newHost.or b.newHost⟩)

theorem pruneLoop_prunedTo (env : Env) (fuel : ℕ) (b : Broadcast) :
    PrunedTo env b.room (pruneLoop env fuel b).room := by
  induction fuel generalizing b with
  | zero => exact .refl env b.room
  | succ fuel ih =>
    unfold pruneLoop
    split_ifs
    · exact .refl env b.room
    · exact (announceLeft_prunedTo env b.dead { b with dead := [] }).trans (ih _)

theorem prune_prunedTo (env : Env) (b : Broadcast) : PrunedTo env b.room (prune env b).1 := by
  have hl := pruneLoop_prunedTo env (b.room.clients.size + 1) b
  unfold prune
  generalize pruneLoop env (b.room.clients.size + 1) b = c at hl
  cases hn : c.newHost with
  | none => simpa [hn] using hl
  | some newHost =>
    simp only [hn]
    exact hl.trans (broadcastRetainConnected_prunedTo env _ _ _)

theorem broadcastAndPrune_prunedTo (env : Env) (room : Room) (msg : ServerMessage) (net : Net) :
    PrunedTo env room (broadcastAndPrune env room msg net).1 :=
  (broadcastRetainConnected_prunedTo env room msg net).trans (prune_prunedTo env _)

theorem broadcastStateUpdateAndPrune_prunedTo (env : Env) (room : Room) (net : Net) :
    PrunedTo env room (broadcastStateUpdateAndPrune env room net).1 :=
  (broadcastStateUpdateRetainConnected_prunedTo env room net).trans (prune_prunedTo env _)

/-! ## Dead channels are dropped -/

theorem retainConnected_drops {env : Env} {drop : Room → PeerId → Room} (hd : Drops drop)
    {audience : List (PeerId × ClientInfo)} {room : Room} {p : PeerId} {i : ClientInfo}
    (ha : (p, i) ∈ audience) (hp : env.Dead i.tx) (msg : ServerMessage) (net : Net) :
    p ∉ (retainConnected env audience drop room msg net).room.clients := by
  intro hm
  obtain ⟨j, hj⟩ := AList.mem_iff_lookup.mp hm
  have hr : Removed (sendAll env msg audience net).1 room
      (retainConnected env audience drop room msg net).room :=
    removeDead_removed hd _ room none
  rw [hr.clients, if_pos (mem_sendAll_of_dead ha hp)] at hj
  cases hj

/-- An accepted client with a dead channel does not survive a broadcast. -/
theorem broadcastAndPrune_drops {env : Env} {room : Room} {p : PeerId} {i : ClientInfo}
    (hp : room.clients.lookup p = some i) (hd : env.Dead i.tx) (msg : ServerMessage) (net : Net) :
    p ∉ (broadcastAndPrune env room msg net).1.clients := fun hm =>
  retainConnected_drops drops_dropClient (AList.mem_iter.mpr hp) hd msg net
    ((prune_prunedTo env _).mem_clients hm)

theorem removeDead_pending {env : Env} {dead : List PeerId} {room : Room} {nh : Option PeerId}
    {p : PeerId} (hp : p ∈ dead) : p ∉ (removeDead env Room.dropMember dead room nh).1.pending := by
  induction dead generalizing room nh with
  | nil => simp at hp
  | cons q rest ih =>
    have hlast : ∀ room' nh', p ∉ room'.pending →
        p ∉ (removeDead env Room.dropMember rest room' nh').1.pending := by
      intro room' nh' hn hm
      obtain ⟨i, hi⟩ := AList.mem_iff_lookup.mp hm
      exact hn (AList.mem_of_lookup ((removeDead_removed drops_dropMember rest room' nh').pending p i hi))
    simp only [removeDead]
    rcases List.mem_cons.mp hp with rfl | hp
    · split_ifs
      · exact hlast _ _ fun h => (AList.mem_erase.mp h).1 rfl
      · exact hlast _ _ fun h => (AList.mem_erase.mp h).1 rfl
    · split_ifs <;> exact ih hp

/-- A pending client with a dead channel does not survive the broadcast of a state. -/
theorem broadcastStateUpdateAndPrune_drops {env : Env} {room : Room} {p : PeerId} {i : ClientInfo}
    (hp : room.pending.lookup p = some i) (hd : env.Dead i.tx) (net : Net) :
    p ∉ (broadcastStateUpdateAndPrune env room net).1.pending := by
  intro hm
  refine absurd ((prune_prunedTo env _).mem_pending hm) (removeDead_pending ?_)
  exact mem_sendAll_of_dead (Room.mem_everyone.mpr (.inr hp)) hd

/-! ## The rounds come to an end -/

theorem sendAll_dead_sublist (env : Env) (msg : ServerMessage) (es : List (PeerId × ClientInfo))
    (net : Net) : (sendAll env msg es net).1.Sublist (es.map Prod.fst) := by
  induction es generalizing net with
  | nil => exact .refl _
  | cons e rest ih =>
    simp only [sendAll, List.map_cons]
    split_ifs
    · exact (ih _).cons_cons _
    · exact (ih _).cons _

/-- Each erased client is one client less. -/
theorem removeDead_size {env : Env} {dead : List PeerId} {room : Room} {nh : Option PeerId}
    (hn : dead.Nodup) (hm : ∀ p ∈ dead, p ∈ room.clients) :
    (removeDead env Room.dropClient dead room nh).1.clients.size + dead.length =
      room.clients.size := by
  induction dead generalizing room nh with
  | nil => rfl
  | cons p rest ih =>
    obtain ⟨hp, hrest⟩ := List.nodup_cons.mp hn
    have hsize := AList.size_erase_of_mem (hm p List.mem_cons_self)
    have hm' : ∀ q ∈ rest, q ∈ room.clients.erase p := by
      intro q hq
      exact AList.mem_erase.mpr ⟨fun h => hp (h ▸ hq), hm q (List.mem_cons_of_mem _ hq)⟩
    have hstep : ∀ (room' : Room) nh', room'.clients = room.clients.erase p →
        (removeDead env Room.dropClient rest room' nh').1.clients.size + (p :: rest).length =
          room.clients.size := by
      intro room' nh' hr
      have := @ih room' nh' hrest (by rw [hr]; exact hm')
      rw [hr] at this
      simp only [List.length_cons]
      omega
    simp only [removeDead]
    split_ifs
    · exact hstep _ _ rfl
    · exact hstep _ _ rfl

/-- The dead of a broadcast to the clients are clients, each once. -/
theorem broadcastRetainConnected_dead (env : Env) (room : Room) (msg : ServerMessage) (net : Net) :
    (broadcastRetainConnected env room msg net).dead.Nodup ∧
      ∀ q ∈ (broadcastRetainConnected env room msg net).dead, q ∈ room.clients := by
  have hsub := sendAll_dead_sublist env msg (room.clients.iter env.peers) net
  refine ⟨hsub.nodup (AList.nodup_iter_keys _ _), fun q hq => ?_⟩
  obtain ⟨e, he, rfl⟩ := List.mem_map.mp (hsub.subset hq)
  exact AList.mem_of_lookup (AList.mem_iter.mp he)

theorem broadcastRetainConnected_size (env : Env) (room : Room) (msg : ServerMessage) (net : Net) :
    (broadcastRetainConnected env room msg net).room.clients.size +
      (broadcastRetainConnected env room msg net).dead.length = room.clients.size := by
  obtain ⟨hnodup, hclients⟩ := broadcastRetainConnected_dead env room msg net
  exact removeDead_size hnodup hclients

theorem announceLeft_size (env : Env) (dead : List PeerId) (b : Broadcast) :
    (announceLeft env dead b).room.clients.size + (announceLeft env dead b).dead.length =
      b.room.clients.size + b.dead.length := by
  induction dead generalizing b with
  | nil => rfl
  | cons p rest ih =>
    have := broadcastRetainConnected_size env b.room (.peerLeft p) b.net
    simp only [announceLeft, ih, List.length_append]
    omega

theorem pruneLoop_of_dead_nil {env : Env} {b : Broadcast} (h : b.dead = []) (fuel : ℕ) :
    pruneLoop env fuel b = b := by
  cases fuel <;> simp [pruneLoop, h]

/-- The fuel suffices: the loop stops because nobody else died. -/
theorem pruneLoop_dead {env : Env} {fuel : ℕ} {b : Broadcast} (h : b.room.clients.size < fuel) :
    (pruneLoop env fuel b).dead = [] := by
  induction fuel generalizing b with
  | zero => omega
  | succ fuel ih =>
    unfold pruneLoop
    split_ifs with hd
    · exact List.isEmpty_iff.mp hd
    · have hsize := announceLeft_size env b.dead { b with dead := [] }
      generalize announceLeft env b.dead { b with dead := [] } = c at hsize
      by_cases hc : c.dead = []
      · rw [pruneLoop_of_dead_nil hc]
        exact hc
      · have := List.length_pos_iff.mpr hc
        simp only [List.length_nil] at hsize
        exact ih (by omega)

/-! ## What is sent -/

theorem retainConnected_net (env : Env) (audience : List (PeerId × ClientInfo))
    (drop : Room → PeerId → Room) (room : Room) (msg : ServerMessage) (net : Net) :
    (retainConnected env audience drop room msg net).net =
      net ++ audience.map fun e => (e.2.tx, msg) :=
  sendAll_net env msg audience net

/-- `Q` allows the announcements that go with pruning to every accepted client of the room. -/
structure Announces (Q : ConnId → ServerMessage → Prop) (room : Room) : Prop where
  left : ∀ q p i, room.clients.lookup p = some i → Q i.tx (.peerLeft q)
  host : ∀ q p i, room.clients.lookup p = some i → Q i.tx (.roomEvent (.hostTransferred q))

section Sent
variable {env : Env} {Q : ConnId → ServerMessage → Prop} {room : Room} {net : Net}

theorem retainConnected_sent {audience : List (PeerId × ClientInfo)}
    {drop : Room → PeerId → Room} {msg : ServerMessage} (ha : ∀ e ∈ audience, Q e.2.tx msg)
    (hnet : ∀ a ∈ net, Q a.1 a.2) :
    ∀ a ∈ (retainConnected env audience drop room msg net).net, Q a.1 a.2 := by
  intro a h
  rw [retainConnected_net] at h
  rcases List.mem_append.mp h with h | h
  · exact hnet a h
  · obtain ⟨e, he, rfl⟩ := List.mem_map.mp h
    exact ha e he

theorem broadcastRetainConnected_sent {msg : ServerMessage}
    (hmsg : ∀ p i, room.clients.lookup p = some i → Q i.tx msg) (hnet : ∀ a ∈ net, Q a.1 a.2) :
    ∀ a ∈ (broadcastRetainConnected env room msg net).net, Q a.1 a.2 :=
  retainConnected_sent (fun e he => hmsg e.1 e.2 (AList.mem_iter.mp he)) hnet

theorem Announces.prunedTo {room' : Room} (h : Announces Q room) (hp : PrunedTo env room room') :
    Announces Q room' :=
  ⟨fun q p i hi => h.left q p i (hp.clients p i hi), fun q p i hi => h.host q p i (hp.clients p i hi)⟩

theorem announceLeft_sent {dead : List PeerId} {b : Broadcast} (h : Announces Q b.room)
    (hnet : ∀ a ∈ b.net, Q a.1 a.2) : ∀ a ∈ (announceLeft env dead b).net, Q a.1 a.2 := by
  induction dead generalizing b with
  | nil => exact hnet
  | cons p rest ih =>
    exact ih (h.prunedTo (broadcastRetainConnected_prunedTo env b.room _ b.net))
      (broadcastRetainConnected_sent (h.left p) hnet)

theorem pruneLoop_sent {fuel : ℕ} {b : Broadcast} (h : Announces Q b.room)
    (hnet : ∀ a ∈ b.net, Q a.1 a.2) : ∀ a ∈ (pruneLoop env fuel b).net, Q a.1 a.2 := by
  induction fuel generalizing b with
  | zero => exact hnet
  | succ fuel ih =>
    unfold pruneLoop
    split_ifs
    · exact hnet
    · exact ih (h.prunedTo (announceLeft_prunedTo env b.dead { b with dead := [] }))
        (announceLeft_sent h hnet)

theorem prune_sent {b : Broadcast} (h : Announces Q b.room) (hnet : ∀ a ∈ b.net, Q a.1 a.2) :
    ∀ a ∈ (prune env b).2, Q a.1 a.2 := by
  have hp := h.prunedTo (pruneLoop_prunedTo env (b.room.clients.size + 1) b)
  have hl := @pruneLoop_sent env Q (b.room.clients.size + 1) b h hnet
  unfold prune
  generalize pruneLoop env (b.room.clients.size + 1) b = c at hp hl
  cases hn : c.newHost with
  | none => simpa [hn] using hl
  | some newHost =>
    simp only [hn]
    exact broadcastRetainConnected_sent (hp.host newHost) hl

/-- Everything a pruning broadcast adds is its own message or an announcement, to an accepted
client of the room. -/
theorem broadcastAndPrune_sent {msg : ServerMessage} (h : Announces Q room)
    (hmsg : ∀ p i, room.clients.lookup p = some i → Q i.tx msg) (hnet : ∀ a ∈ net, Q a.1 a.2) :
    ∀ a ∈ (broadcastAndPrune env room msg net).2, Q a.1 a.2 :=
  prune_sent (h.prunedTo (broadcastRetainConnected_prunedTo env room msg net))
    (broadcastRetainConnected_sent hmsg hnet)

theorem broadcastStateUpdateAndPrune_sent (h : Announces Q room)
    (hmsg : ∀ p i, room.HasMember p i → Q i.tx (.stateUpdate room.state))
    (hnet : ∀ a ∈ net, Q a.1 a.2) :
    ∀ a ∈ (broadcastStateUpdateAndPrune env room net).2, Q a.1 a.2 :=
  prune_sent (h.prunedTo (broadcastStateUpdateRetainConnected_prunedTo env room net))
    (retainConnected_sent (fun e he => hmsg e.1 e.2 (Room.mem_everyone.mp he)) hnet)

end Sent

/-! ## Clear channels -/

namespace Env.Clear
variable {env : Env} (hc : env.Clear)
include hc

theorem retainConnected (audience : List (PeerId × ClientInfo)) (drop : Room → PeerId → Room)
    (room : Room) (msg : ServerMessage) (net : Net) :
    retainConnected env audience drop room msg net =
      ⟨room, net ++ audience.map fun e => (e.2.tx, msg), [], none⟩ := by
  have h : sendAll env msg audience net = ([], net ++ audience.map fun e => (e.2.tx, msg)) :=
    Prod.ext (hc.sendAll_dead msg audience net) (sendAll_net env msg audience net)
  simp [Roomie.retainConnected, h, removeDead]

theorem broadcastAndPrune (room : Room) (msg : ServerMessage) (net : Net) :
    broadcastAndPrune env room msg net =
      (room, net ++ (room.clients.iter env.peers).map fun e => (e.2.tx, msg)) := by
  simp [Roomie.broadcastAndPrune, broadcastRetainConnected, hc.retainConnected, prune, pruneLoop]

theorem broadcastStateUpdateAndPrune (room : Room) (net : Net) :
    broadcastStateUpdateAndPrune env room net =
      (room, net ++ (room.everyone env).map fun e => (e.2.tx, .stateUpdate room.state)) := by
  simp [Roomie.broadcastStateUpdateAndPrune, broadcastStateUpdateRetainConnected,
    hc.retainConnected, prune, pruneLoop]

end Env.Clear

end Roomie
