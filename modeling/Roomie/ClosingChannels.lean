import Roomie.ClearChannels

/-!
# Channels that close during a pruning broadcast

While the rounds of a pruning broadcast last, everybody who is dropped is announced to everybody who
is left, whenever a channel closes, and the new host is the one that is announced. Whom the last
broadcast finds closed, the one that announces the new host, is dropped without a word, and so is
the host itself. The rooms that come out right are those where the last broadcast finds nobody
closed, or everybody.
-/

namespace Roomie.ClosingChannels
open HashTables

/-- No channel is ever full. -/
def NeverFull (env : Env) : Prop := ∀ n tx, env.chan n tx ≠ .full

/-- A channel that was found closed stays closed. -/
def StaysClosed (env : Env) : Prop :=
  ∀ n m tx, n ≤ m → env.chan n tx = .closed → env.chan m tx = .closed

/-- The call of one of the two functions. -/
inductive Call where
  | message (msg : ServerMessage)
  | state

namespace Call

/-- What is sent to everybody first. -/
def opening (room : Room) : Call → ServerMessage
  | .message msg => msg
  | .state => .stateUpdate room.state

/-- The first broadcast. -/
def first (env : Env) (room : Room) : Call → Broadcast
  | .message msg => broadcastRetainConnected env room msg []
  | .state => broadcastStateUpdateRetainConnected env room []

def run (env : Env) (room : Room) : Call → Room × Net
  | .message msg => broadcastAndPrune env room msg []
  | .state => broadcastStateUpdateAndPrune env room []

/-- What the function has come to before it announces a new host. -/
def rounds (env : Env) (room : Room) (call : Call) : Broadcast :=
  pruneLoop env ((call.first env room).room.clients.size + 1) (call.first env room)

/-- What the call puts on a channel. -/
def enqueued (env : Env) (room : Room) (call : Call) (tx : ConnId) : List ServerMessage :=
  onChannel tx (delivered env (call.run env room).2)

end Call

/-- Who is announced as left. -/
def leaver : ServerMessage → Option PeerId
  | .peerLeft pid => some pid
  | _ => none

/-- Who is announced as host. -/
def transferee : ServerMessage → Option PeerId
  | .roomEvent (.hostTransferred pid) => some pid
  | _ => none

/-- The loop ends, and leaves the room with a host among the clients, who have heard of everybody
who is gone, and of the host when it is another one. -/
structure Consistent (env : Env) (room : Room) (call : Call) : Prop where
  ends : (call.rounds env room).dead = []
  host : (call.run env room).1.hostPeerId ∈ (call.run env room).1.clients ∨
    (call.run env room).1.clients.isEmpty = true
  told : ∀ p i, (call.run env room).1.clients.lookup p = some i →
    ∀ q ∈ room.clients, q ∉ (call.run env room).1.clients →
      ((call.enqueued env room i.tx).filterMap leaver).count q = 1
  hostTold : (call.run env room).1.hostPeerId ≠ room.hostPeerId →
    ∀ p i, (call.run env room).1.clients.lookup p = some i →
      ((call.enqueued env room i.tx).filterMap transferee).getLast? =
        some (call.run env room).1.hostPeerId

/-- The room when the functions are called: the host is a client, no id is accepted and pending at
once, no two members share a channel, and who is announced as left was removed before. -/
structure Ready (room : Room) (call : Call) : Prop where
  host : room.hostPeerId ∈ room.clients
  disjoint : room.Disjoint
  oneSeat : room.OneSeat
  left : ∀ q ∈ room.clients, call.opening room ≠ .peerLeft q

/-- There is no new host to announce, or the announcement finds the channels of all clients alike:
none of them closed, or each. -/
def FoundAlike (env : Env) (room : Room) (call : Call) : Prop :=
  let b := call.rounds env room
  let clients := b.room.clients.iter env.peers
  b.newHost = none ∨
    (∀ (k : ℕ) e, clients[k]? = some e → env.chan (b.net.length + k) e.2.tx ≠ .closed) ∨
    ∀ (k : ℕ) e, clients[k]? = some e → env.chan (b.net.length + k) e.2.tx = .closed

/-- The announcement of a new host finds the channel of this client closed. -/
def Silenced (env : Env) (room : Room) (call : Call) (p : PeerId) : Prop :=
  let b := call.rounds env room
  ∃ (k : ℕ) (e : PeerId × ClientInfo), (b.room.clients.iter env.peers)[k]? = some e ∧ e.1 = p ∧
    env.chan (b.net.length + k) e.2.tx = .closed

/-! ## One broadcast -/

section
variable {env : Env} {msg : ServerMessage} {es : List (PeerId × ClientInfo)} {net : Net}

theorem delivered_concat (net : Net) (a : ConnId × ServerMessage) :
    delivered env (net ++ [a]) =
      delivered env net ++ if env.chan net.length a.1 = .ok then [a] else [] := by
  simp only [delivered, List.zipIdx_append, List.filter_append, List.map_append, Nat.zero_add]
  congr 1
  by_cases hok : env.chan net.length a.1 = .ok <;> simp [hok]

/-- A channel that is neither full nor found closed gets everything that is sent to it. -/
theorem onChannel_sendAll (hfull : NeverFull env) {tx : ConnId}
    (h : ∀ e ∈ es, e.2.tx = tx → e.1 ∉ (sendAll env msg es net).1) :
    onChannel tx (delivered env (sendAll env msg es net).2) =
      onChannel tx (delivered env net) ++ onChannel tx (es.map fun e => (e.2.tx, msg)) := by
  induction es generalizing net with
  | nil => simp [sendAll]
  | cons e rest ih =>
    obtain ⟨p, i⟩ := e
    have hrest := @ih (net ++ [(i.tx, msg)]) fun e he htx hdead =>
      h e (List.mem_cons_of_mem _ he) htx (mem_sendAll_cons.mpr (.inr hdead))
    have hnet : (sendAll env msg ((p, i) :: rest) net).2 =
      (sendAll env msg rest (net ++ [(i.tx, msg)])).2 := rfl
    have hone : onChannel tx (if env.chan net.length i.tx = .ok then [(i.tx, msg)] else []) =
        onChannel tx [(i.tx, msg)] := by
      by_cases htx : i.tx = tx
      · have hopen : env.chan net.length i.tx ≠ .closed := fun hc =>
          h (p, i) List.mem_cons_self htx (mem_sendAll_iff.mpr ⟨0, (p, i), rfl, rfl, hc⟩)
        have hok : env.chan net.length i.tx = .ok := by
          cases hans : env.chan net.length i.tx with
          | ok => rfl
          | full => exact absurd hans (hfull _ _)
          | closed => exact absurd hans hopen
        rw [if_pos hok]
      · split_ifs <;> simp [onChannel, htx]
    rw [hnet, hrest, delivered_concat, onChannel_append, hone, List.append_assoc,
      ← onChannel_append]
    rfl

/-- What a broadcast does to the host, and what it returns of it. -/
def Tracks (host : PeerId) (room : Room) (newHost : Option PeerId) : Prop :=
  newHost = none ∧ room.hostPeerId = host ∨ newHost = some room.hostPeerId ∨
    room.clients.isEmpty = true

theorem removeDead_tracks {drop : Room → PeerId → Room} (hd : Drops drop) {dead : List PeerId}
    {room : Room} {host : PeerId} {newHost : Option PeerId} (h : Tracks host room newHost) :
    Tracks host (removeDead env drop dead room newHost).1
      (removeDead env drop dead room newHost).2 := by
  induction dead generalizing room newHost with
  | nil => exact h
  | cons p rest ih =>
    have hempty : room.clients.isEmpty = true → (drop room p).clients.isEmpty = true := by
      rw [hd.clients, AList.isEmpty_iff, AList.isEmpty_iff]
      exact fun he q hq => he q (AList.mem_erase.mp hq).2
    simp only [removeDead]
    split_ifs with hhost
    · apply ih
      cases hfirst : (drop room p).clients.firstKey env.peers with
      | none => exact .inr (.inr (AList.isEmpty_iff.mpr (AList.firstKey_eq_none.mp hfirst)))
      | some q => exact .inr (.inl rfl)
    · apply ih
      rcases h with ⟨hnone, hsame⟩ | hsome | he
      · exact .inl ⟨hnone, (hd.host room p).trans hsame⟩
      · exact .inr (.inl (hsome.trans (by rw [hd.host])))
      · exact .inr (.inr (hempty he))

/-- A broadcast starts with no new host. -/
theorem tracks_retainConnected {drop : Room → PeerId → Room} (hd : Drops drop) (room : Room) :
    Tracks room.hostPeerId (retainConnected env es drop room msg net).room
      (retainConnected env es drop room msg net).newHost :=
  removeDead_tracks hd (.inl ⟨rfl, rfl⟩)

/-- The new host of a later broadcast is preferred. -/
theorem Tracks.or {host : PeerId} {room room' : Room} {newHost newHost' : Option PeerId}
    (h : Tracks host room newHost) (h' : Tracks room.hostPeerId room' newHost')
    (hempty : room.clients.isEmpty = true → room'.clients.isEmpty = true) :
    Tracks host room' (newHost'.or newHost) := by
  rcases h' with ⟨rfl, hsame⟩ | rfl | he
  · rcases h with ⟨hnone, hhost⟩ | hsome | he
    · exact .inl ⟨hnone, hsame.trans hhost⟩
    · exact .inr (.inl (hsome.trans (by rw [hsame])))
    · exact .inr (.inr (hempty he))
  · exact .inr (.inl rfl)
  · exact .inr (.inr he)

/-- The dead of a broadcast are erased from the clients. -/
theorem lookup_retainConnected {drop : Room → PeerId → Room} (hd : Drops drop) (room : Room)
    (q : PeerId) : (retainConnected env es drop room msg net).room.clients.lookup q =
      if q ∈ (retainConnected env es drop room msg net).dead then none
      else room.clients.lookup q :=
  (removeDead_removed hd _ room none).clients q

theorem room_of_dead_nil {drop : Room → PeerId → Room} {room : Room}
    (h : (retainConnected env es drop room msg net).dead = []) :
    (retainConnected env es drop room msg net).room = room := by
  have hdead : (sendAll env msg es net).1 = [] := h
  simp only [retainConnected, hdead, removeDead]

/-- Who is left after a broadcast has got its message. -/
theorem onChannel_retainConnected (hfull : NeverFull env) {drop : Room → PeerId → Room}
    (hd : Drops drop) {room : Room} {p : PeerId} {i : ClientInfo} (hn : es.Nodup)
    (hp : (p, i) ∈ es) (halone : ∀ e ∈ es, e.2.tx = i.tx → e = (p, i))
    (hleft : p ∈ (retainConnected env es drop room msg net).room.clients) :
    onChannel i.tx (delivered env (retainConnected env es drop room msg net).net) =
      onChannel i.tx (delivered env net) ++ [msg] := by
  have hsurvives : p ∉ (sendAll env msg es net).1 := by
    intro hdead
    obtain ⟨j, hj⟩ := AList.mem_iff_lookup.mp hleft
    rw [lookup_retainConnected hd, if_pos (show p ∈ Broadcast.dead _ from hdead)] at hj
    cases hj
  have hdead : ∀ e ∈ es, e.2.tx = i.tx → e.1 ∉ (sendAll env msg es net).1 := by
    intro e he htx
    rw [halone e he htx]
    exact hsurvives
  have hsent := onChannel_sendAll hfull hdead
  rw [onChannel_map_of_mem hn hp halone] at hsent
  exact hsent

end

/-! ## The rounds -/

/-- Where the rounds stand: these have been announced as left, those are still to be, and the rest
of the dead later. Every client that is left has the opening and these announcements. -/
structure Progress (env : Env) (room : Room) (opening : ServerMessage)
    (announced todo : List PeerId) (b : Broadcast) : Prop where
  clients : ∀ p, b.room.clients.lookup p =
    if p ∈ announced ++ todo ++ b.dead then none else room.clients.lookup p
  nodup : (announced ++ todo ++ b.dead).Nodup
  told : ∀ p i, b.room.clients.lookup p = some i → onChannel i.tx (delivered env b.net) =
    opening :: announced.map .peerLeft
  host : Tracks room.hostPeerId b.room b.newHost

section
variable {env : Env} {room : Room} {opening : ServerMessage} {announced todo : List PeerId}
  {b : Broadcast}

theorem Progress.client (h : Progress env room opening announced todo b) {p : PeerId}
    {i : ClientInfo} (hp : b.room.clients.lookup p = some i) :
    room.clients.lookup p = some i ∧ p ∉ announced ++ todo ++ b.dead := by
  rw [h.clients] at hp
  split_ifs at hp with hgone
  exact ⟨hp, hgone⟩

/-- Another broadcast to the clients reaches those it leaves. -/
theorem Progress.heard (hfull : NeverFull env) (h1 : room.OneSeat)
    (h : Progress env room opening announced todo b) (msg : ServerMessage) {p : PeerId}
    {i : ClientInfo}
    (hp : (broadcastRetainConnected env b.room msg b.net).room.clients.lookup p = some i) :
    onChannel i.tx (delivered env (broadcastRetainConnected env b.room msg b.net).net) =
      opening :: announced.map .peerLeft ++ [msg] := by
  have hbefore := (broadcastRetainConnected_prunedTo env b.room msg b.net).clients p i hp
  have halone : ∀ e ∈ b.room.clients.iter env.peers, e.2.tx = i.tx → e = (p, i) := by
    rintro ⟨q, j⟩ he htx
    have hq := AList.mem_iter.mp he
    obtain rfl := h1 q p j i (.inl (h.client hq).1) (.inl (h.client hbefore).1) htx
    rw [Option.some.inj (hq.symm.trans hbefore)]
  rw [← h.told p i hbefore]
  exact onChannel_retainConnected hfull drops_dropClient (AList.nodup_iter _ _)
    (AList.mem_iter.mpr hbefore) halone (AList.mem_of_lookup hp)

/-- One more is announced, and who dies meanwhile is collected. -/
theorem Progress.announce (hfull : NeverFull env) (h1 : room.OneSeat) {pid : PeerId}
    (h : Progress env room opening announced (pid :: todo) b) :
    let c := broadcastRetainConnected env b.room (.peerLeft pid) b.net
    Progress env room opening (announced ++ [pid]) todo
      ⟨c.room, c.net, b.dead ++ c.dead, c.newHost.or b.newHost⟩ := by
  intro c
  obtain ⟨hnodup, hclients⟩ := broadcastRetainConnected_dead env b.room (.peerLeft pid) b.net
  have hlookup : ∀ p, c.room.clients.lookup p =
      if p ∈ c.dead then none else b.room.clients.lookup p :=
    lookup_retainConnected drops_dropClient b.room
  have hlist : announced ++ [pid] ++ todo ++ (b.dead ++ c.dead) =
      announced ++ pid :: todo ++ b.dead ++ c.dead := by simp
  refine ⟨fun p => ?_, ?_, fun p i hp => ?_, ?_⟩
  · dsimp only
    rw [hlookup, h.clients, hlist]
    by_cases hdead : p ∈ c.dead
    · rw [if_pos hdead, if_pos (List.mem_append_right _ hdead)]
    · rw [if_neg hdead]
      exact if_congr (by rw [List.mem_append (t := c.dead), or_iff_left hdead]) rfl rfl
  · rw [hlist]
    refine List.nodup_append.mpr ⟨h.nodup, hnodup, ?_⟩
    rintro p hp q hq rfl
    obtain ⟨i, hi⟩ := AList.mem_iff_lookup.mp (hclients p hq)
    exact (h.client hi).2 hp
  · rw [List.map_append]
    exact h.heard hfull h1 _ hp
  · refine h.host.or (tracks_retainConnected drops_dropClient b.room) fun he => ?_
    rw [AList.isEmpty_iff] at he ⊢
    exact fun p hp => he p
      ((broadcastRetainConnected_prunedTo env b.room (.peerLeft pid) b.net).mem_clients hp)

theorem Progress.announceLeft (hfull : NeverFull env) (h1 : room.OneSeat)
    (h : Progress env room opening announced todo b) :
    Progress env room opening (announced ++ todo) [] (announceLeft env todo b) := by
  induction todo generalizing announced b with
  | nil =>
    rw [List.append_nil]
    exact h
  | cons pid rest ih =>
    rw [List.append_cons]
    exact ih (h.announce hfull h1)

theorem Progress.pruneLoop (hfull : NeverFull env) (h1 : room.OneSeat) (fuel : ℕ)
    (h : Progress env room opening announced [] b) :
    ∃ announced', Progress env room opening announced' [] (pruneLoop env fuel b) := by
  induction fuel generalizing announced b with
  | zero => exact ⟨announced, h⟩
  | succ fuel ih =>
    unfold Roomie.pruneLoop
    split_ifs with hdead
    · exact ⟨announced, h⟩
    · have hround : Progress env room opening announced b.dead { b with dead := [] } := by
        refine ⟨fun p => ?_, ?_, h.told, h.host⟩
        · rw [h.clients p, List.append_nil, List.append_nil]
        · simpa only [List.append_nil] using h.nodup
      exact ih (hround.announceLeft hfull h1)

end

/-! ## The whole call -/

section
variable {env : Env} {room : Room} {call : Call}

theorem everyone_keys (hd : room.Disjoint) : ((room.everyone env).map Prod.fst).Nodup := by
  rw [Room.everyone, List.map_append]
  refine List.nodup_append.mpr ⟨AList.nodup_iter_keys _ _, AList.nodup_iter_keys _ _, ?_⟩
  rintro p hp q hq rfl
  obtain ⟨⟨_, i⟩, hi, rfl⟩ := List.mem_map.mp hp
  obtain ⟨⟨_, j⟩, hj, rfl⟩ := List.mem_map.mp hq
  exact hd _ (AList.mem_of_lookup (AList.mem_iter.mp hi)) (AList.mem_of_lookup (AList.mem_iter.mp hj))

theorem progress_retainConnected (hfull : NeverFull env) (hd : room.Disjoint) (h1 : room.OneSeat)
    {drop : Room → PeerId → Room} (hdrop : Drops drop) {audience : List (PeerId × ClientInfo)}
    (hkeys : (audience.map Prod.fst).Nodup) (hmember : ∀ e ∈ audience, room.HasMember e.1 e.2)
    (hclients : ∀ p i, room.clients.lookup p = some i → (p, i) ∈ audience) (msg : ServerMessage) :
    Progress env room msg [] [] (retainConnected env audience drop room msg []) where
  clients := lookup_retainConnected hdrop room
  nodup := (sendAll_dead_sublist env msg audience []).nodup hkeys
  told p i hp := by
    have hbefore : room.clients.lookup p = some i := by
      rw [lookup_retainConnected hdrop] at hp
      split_ifs at hp
      exact hp
    have halone : ∀ e ∈ audience, e.2.tx = i.tx → e = (p, i) := by
      rintro ⟨q, j⟩ he htx
      have hq := hmember _ he
      obtain rfl := h1 q p j i hq (.inl hbefore) htx
      exact congrArg (Prod.mk q) (hd.info_unique hq (.inl hbefore))
    exact onChannel_retainConnected hfull hdrop (.of_map _ hkeys) (hclients p i hbefore) halone
      (AList.mem_of_lookup hp)
  host := tracks_retainConnected hdrop room

/-- The first broadcast, of whichever kind. -/
theorem progress_first (hfull : NeverFull env) (h : Ready room call) :
    Progress env room (call.opening room) [] [] (call.first env room) := by
  cases call with
  | message msg =>
    exact progress_retainConnected hfull h.disjoint h.oneSeat drops_dropClient
      (AList.nodup_iter_keys _ _) (fun _ he => .inl (AList.mem_iter.mp he))
      (fun _ _ hp => AList.mem_iter.mpr hp) msg
  | state =>
    exact progress_retainConnected hfull h.disjoint h.oneSeat drops_dropMember
      (everyone_keys h.disjoint) (fun _ he => Room.mem_everyone.mp he)
      (fun _ _ hp => Room.mem_everyone.mpr (.inl hp)) _

theorem run_prunedTo (env : Env) (room : Room) (call : Call) :
    PrunedTo env room (call.run env room).1 := by
  cases call with
  | message msg => exact broadcastAndPrune_prunedTo env room msg []
  | state => exact broadcastStateUpdateAndPrune_prunedTo env room []

theorem run_of_newHost_none (h : (call.rounds env room).newHost = none) :
    call.run env room = ((call.rounds env room).room, (call.rounds env room).net) := by
  have hrun : call.run env room = prune env (call.first env room) := by cases call <;> rfl
  rw [hrun, prune, show (pruneLoop _ _ _).newHost = none from h]
  rfl

/-- The last broadcast, and its dead are forgotten. -/
theorem run_of_newHost {newHost : PeerId} (h : (call.rounds env room).newHost = some newHost) :
    let c := broadcastRetainConnected env (call.rounds env room).room
      (.roomEvent (.hostTransferred newHost)) (call.rounds env room).net
    call.run env room = (c.room, c.net) := by
  have hrun : call.run env room = prune env (call.first env room) := by cases call <;> rfl
  rw [hrun, prune, show (pruneLoop _ _ _).newHost = some newHost from h]
  rfl

theorem leaver_eq_some {msg : ServerMessage} {q : PeerId} (h : leaver msg = some q) :
    msg = .peerLeft q := by
  cases msg with
  | peerLeft pid => rw [Option.some.inj h]
  | _ => cases h

/-- How often a client is announced as left while the rounds last. -/
theorem Progress.count {opening : ServerMessage} {announced : List PeerId} {b : Broadcast}
    (h : Progress env room opening announced [] b) (hdead : b.dead = [])
    (hleft : ∀ q ∈ room.clients, opening ≠ .peerLeft q) {q : PeerId} (hq : q ∈ room.clients) :
    ((opening :: announced.map .peerLeft).filterMap leaver).count q =
      if q ∈ b.room.clients then 0 else 1 := by
  have hlists : announced ++ [] ++ b.dead = announced := by simp [hdead]
  have hannounced : (announced.map ServerMessage.peerLeft).filterMap leaver = announced := by
    rw [List.filterMap_map]
    exact List.filterMap_some
  have hopening : ((opening :: announced.map .peerLeft).filterMap leaver).count q =
      announced.count q := by
    cases hl : leaver opening with
    | none => rw [List.filterMap_cons_none hl, hannounced]
    | some q' =>
      rw [List.filterMap_cons_some hl, hannounced, List.count_cons_of_ne]
      rintro rfl
      exact hleft q' hq (leaver_eq_some hl)
  have hmem : q ∈ b.room.clients ↔ q ∉ announced := by
    obtain ⟨i, hi⟩ := AList.mem_iff_lookup.mp hq
    rw [AList.mem_iff_lookup, h.clients, hlists, hi]
    split_ifs with hgone <;> simp [hgone]
  have hnodup := h.nodup
  rw [hlists] at hnodup
  rw [hopening, hnodup.count]
  by_cases hgone : q ∈ announced
  · rw [if_pos hgone, if_neg fun hc => hmem.mp hc hgone]
  · rw [if_neg hgone, if_pos (hmem.mpr hgone)]

/-- Without a new host to announce all is well. -/
theorem consistent_of_newHost_none (h : Ready room call) {announced : List PeerId}
    (hprogress : Progress env room (call.opening room) announced [] (call.rounds env room))
    (hdead : (call.rounds env room).dead = []) (hnew : (call.rounds env room).newHost = none) :
    Consistent env room call := by
  have hrun := run_of_newHost_none hnew
  refine ⟨hdead, (run_prunedTo env room call).host h.host, ?_, ?_⟩
  · intro p i hp q hq hgone
    rw [hrun] at hp hgone
    rw [Call.enqueued, hrun, hprogress.told p i hp, hprogress.count hdead h.left hq, if_neg hgone]
  · intro hchanged p i hp
    rw [hrun] at hp hchanged
    rcases hprogress.host with ⟨-, hsame⟩ | hsome | hempty
    · exact absurd hsame hchanged
    · rw [hnew] at hsome
      cases hsome
    · exact absurd (AList.mem_of_lookup hp) (AList.isEmpty_iff.mp hempty p)

/-- What is left when a new host was announced has heard of it last. -/
theorem enqueued_of_newHost (hfull : NeverFull env) (h : Ready room call)
    {announced : List PeerId}
    (hprogress : Progress env room (call.opening room) announced [] (call.rounds env room))
    {newHost : PeerId} (hnew : (call.rounds env room).newHost = some newHost) {p : PeerId}
    {i : ClientInfo} (hp : (call.run env room).1.clients.lookup p = some i) :
    call.enqueued env room i.tx = call.opening room :: announced.map .peerLeft ++
      [.roomEvent (.hostTransferred newHost)] := by
  have hrun := run_of_newHost hnew
  rw [hrun] at hp
  rw [Call.enqueued, hrun]
  exact hprogress.heard hfull h.oneSeat _ hp

/-- Who is left when a new host was announced. -/
theorem lookup_of_newHost {newHost : PeerId}
    (hnew : (call.rounds env room).newHost = some newHost) {p : PeerId} {i : ClientInfo} :
    (call.run env room).1.clients.lookup p = some i ↔
      (call.rounds env room).room.clients.lookup p = some i ∧ ¬ Silenced env room call p := by
  have hdead : p ∈ (broadcastRetainConnected env (call.rounds env room).room
      (.roomEvent (.hostTransferred newHost)) (call.rounds env room).net).dead ↔
      Silenced env room call p := mem_sendAll_iff
  have hlookup : (broadcastRetainConnected env (call.rounds env room).room
      (.roomEvent (.hostTransferred newHost)) (call.rounds env room).net).room.clients.lookup p = _ :=
    lookup_retainConnected drops_dropClient _ p
  rw [run_of_newHost hnew, ← hdead, hlookup]
  split_ifs with hgone
  · exact iff_of_false (fun h => by cases h) fun h => h.2 hgone
  · exact (and_iff_left hgone).symm

/-- A client that the announcement finds open, while it finds another one closed, is not told of
the other one. -/
theorem foundAlike_of_consistent (hfull : NeverFull env) (h : Ready room call)
    {announced : List PeerId}
    (hprogress : Progress env room (call.opening room) announced [] (call.rounds env room))
    (hdead : (call.rounds env room).dead = []) {newHost : PeerId}
    (hnew : (call.rounds env room).newHost = some newHost) (hc : Consistent env room call) :
    FoundAlike env room call := by
  right
  by_contra hmixed
  push Not at hmixed
  obtain ⟨⟨k, ⟨q, j⟩, hq, hclosed⟩, k', ⟨p, i⟩, hp, hopen⟩ := hmixed
  have hqlookup := AList.mem_iter.mp (List.mem_of_getElem? hq)
  have hplookup := AList.mem_iter.mp (List.mem_of_getElem? hp)
  have hspared : ¬ Silenced env room call p := by
    rintro ⟨l, ⟨_, i'⟩, hl, rfl, hclosed'⟩
    have hi := AList.mem_iter.mp (List.mem_of_getElem? hl)
    obtain rfl : i' = i := Option.some.inj (hi.symm.trans hplookup)
    obtain ⟨hlt, -⟩ := List.getElem?_eq_some_iff.mp hl
    obtain rfl := (List.getElem?_inj hlt (AList.nodup_iter _ _)).mp (hl.trans hp.symm)
    exact hopen hclosed'
  have hpleft : (call.run env room).1.clients.lookup p = some i :=
    (lookup_of_newHost hnew).mpr ⟨hplookup, hspared⟩
  have hqgone : q ∉ (call.run env room).1.clients := by
    intro hin
    obtain ⟨j', hj'⟩ := AList.mem_iff_lookup.mp hin
    exact ((lookup_of_newHost hnew).mp hj').2 ⟨k, (q, j), hq, rfl, hclosed⟩
  have hqclient : q ∈ room.clients := AList.mem_of_lookup (hprogress.client hqlookup).1
  have htold := hc.told p i hpleft q hqclient hqgone
  rw [enqueued_of_newHost hfull h hprogress hnew hpleft, List.filterMap_append, List.count_append,
    hprogress.count hdead h.left hqclient, if_pos (AList.mem_of_lookup hqlookup)] at htold
  cases htold

/-- Who is left has been told of everybody else, when nobody was dropped by the announcement. -/
theorem consistent_of_foundAlike (hfull : NeverFull env) (h : Ready room call)
    {announced : List PeerId}
    (hprogress : Progress env room (call.opening room) announced [] (call.rounds env room))
    (hdead : (call.rounds env room).dead = []) {newHost : PeerId}
    (hnew : (call.rounds env room).newHost = some newHost) (halike : FoundAlike env room call) :
    Consistent env room call := by
  -- somebody is left only when nobody was found closed
  have hopen : ∀ p i, (call.run env room).1.clients.lookup p = some i →
      ∀ q, ¬ Silenced env room call q := by
    rintro p i hp q ⟨k, e, he, rfl, hclosed⟩
    obtain ⟨hplookup, hspared⟩ := (lookup_of_newHost hnew).mp hp
    rcases halike with hnone | hnobody | hall
    · rw [hnew] at hnone
      cases hnone
    · exact hnobody k e he hclosed
    · obtain ⟨k', hk'⟩ := List.mem_iff_getElem?.mp (AList.mem_iter.mpr hplookup)
      exact hspared ⟨k', _, hk', rfl, hall k' _ hk'⟩
  refine ⟨hdead, (run_prunedTo env room call).host h.host, ?_, ?_⟩
  · intro p i hp q hq hgone
    have hgone' : q ∉ (call.rounds env room).room.clients := by
      intro hin
      obtain ⟨j, hj⟩ := AList.mem_iff_lookup.mp hin
      exact hgone (AList.mem_of_lookup ((lookup_of_newHost hnew).mpr ⟨hj, hopen p i hp q⟩))
    rw [enqueued_of_newHost hfull h hprogress hnew hp, List.filterMap_append, List.count_append,
      hprogress.count hdead h.left hq, if_neg hgone']
    rfl
  · intro _ p i hp
    have hnobody : (broadcastRetainConnected env (call.rounds env room).room
        (.roomEvent (.hostTransferred newHost)) (call.rounds env room).net).dead = [] :=
      List.eq_nil_iff_forall_not_mem.mpr fun q hq => hopen p i hp q (mem_sendAll_iff.mp hq)
    have hlast : (call.run env room).1.hostPeerId = newHost := by
      rw [run_of_newHost hnew]
      dsimp only
      rw [broadcastRetainConnected, room_of_dead_nil hnobody]
      rcases hprogress.host with ⟨hnone, -⟩ | hsome | hempty
      · rw [hnew] at hnone
        cases hnone
      · rw [hnew] at hsome
        exact (Option.some.inj hsome).symm
      · exact absurd (AList.mem_of_lookup ((lookup_of_newHost hnew).mp hp).1)
          (AList.isEmpty_iff.mp hempty p)
    rw [enqueued_of_newHost hfull h hprogress hnew hp, List.filterMap_append, hlast]
    exact List.getLast?_concat

end

/-- A pruning broadcast leaves a consistent room exactly when the announcement of a new host, if
there is one, finds all channels alike. -/
theorem consistent_iff (env : Env) (hfull : NeverFull env) (room : Room) (call : Call)
    (h : Ready room call) : Consistent env room call ↔ FoundAlike env room call := by
  obtain ⟨announced, hprogress⟩ := (progress_first hfull h).pruneLoop hfull h.oneSeat
    ((call.first env room).room.clients.size + 1)
  have hdead : (call.rounds env room).dead = [] := pruneLoop_dead (Nat.lt_succ_self _)
  cases hnew : (call.rounds env room).newHost with
  | none => exact iff_of_true (consistent_of_newHost_none h hprogress hdead hnew) (.inl hnew)
  | some newHost =>
    exact ⟨foundAlike_of_consistent hfull h hprogress hdead hnew,
      consistent_of_foundAlike hfull h hprogress hdead hnew⟩

/-! ## Three clients -/

def seat (tx : ConnId) : ClientInfo := ⟨⟨"hash"⟩, none, tx, 0⟩

/-- Each with its own id for a channel; the first is the host. -/
def trio : Room := { Room.new "pong" ⟨"AAAAAA"⟩ .default with
  hostPeerId := 1
  clients := (((∅ : Members).insert 1 (seat 1)).insert 2 (seat 2)).insert 3 (seat 3)
  peerCounter := 5 }

/-- A fourth has left. -/
def fourthLeft : Call := .message (.peerLeft 4)

theorem trio_ready : Ready trio fourthLeft := by
  have hseats : ∀ p i, trio.HasMember p i → (p = 1 ∨ p = 2 ∨ p = 3) ∧ p.toNat = i.tx := by
    intro p i hp
    rcases hp with hp | hp
    · rcases AList.lookup_insert_some.mp hp with ⟨rfl, rfl⟩ | ⟨-, hp⟩
      · exact ⟨.inr (.inr rfl), rfl⟩
      · rcases AList.lookup_insert_some.mp hp with ⟨rfl, rfl⟩ | ⟨-, hp⟩
        · exact ⟨.inr (.inl rfl), rfl⟩
        · rcases AList.lookup_insert_some.mp hp with ⟨rfl, rfl⟩ | ⟨-, hp⟩
          · exact ⟨.inl rfl, rfl⟩
          · cases hp
    · cases hp
  refine ⟨by decide, fun p _ hp => absurd hp (AList.notMem_empty p), ?_, ?_⟩
  · intro p q i j hi hj htx
    exact UInt32.toNat_inj.mp ((hseats p i hi).2.trans (htx.trans (hseats q j hj).2.symm))
  · intro q hq heq
    obtain rfl := ServerMessage.peerLeft.inj heq
    exact absurd hq (by decide)

/-- The channel of the host is closed, and that of the third client from some attempt on. -/
def closingThird (moment : ℕ) : Env := { Env.quiet with
  chan := fun n tx => if tx = 1 ∨ tx = 3 ∧ moment ≤ n then .closed else .ok }

theorem closingThird_neverFull (moment : ℕ) : NeverFull (closingThird moment) := by
  intro n tx h
  simp only [closingThird] at h
  split_ifs at h

theorem closingThird_staysClosed (moment : ℕ) : StaysClosed (closingThird moment) := by
  intro n m tx hle h
  have hn : tx = 1 ∨ tx = 3 ∧ moment ≤ n := by
    by_contra hno
    simp only [closingThird, if_neg hno] at h
    cases h
  exact if_pos (hn.imp_right fun hthird => ⟨hthird.1, hthird.2.trans hle⟩)

/-- The third client is told that the host is gone, and closes only then: it has become the host, is
dropped by the announcement of itself, and the second one is never told. -/
theorem third_not_announced : ¬ ∀ env room call, NeverFull env → StaysClosed env →
    Ready room call → Consistent env room call := by
  intro hall
  have hc := hall (closingThird 5) trio fourthLeft (closingThird_neverFull 5)
    (closingThird_staysClosed 5) trio_ready
  exact absurd (hc.told 2 (seat 2) (by decide +kernel) 3 (by decide) (by decide +kernel))
    (by decide +kernel)

/-- If it closes earlier its death is announced like that of the host. -/
theorem third_announced : Consistent (closingThird 3) trio fourthLeft := by
  refine (consistent_iff _ (closingThird_neverFull 3) trio fourthLeft trio_ready).mpr ?_
  refine .inr (.inl fun k e he => ?_)
  have hiter : (fourthLeft.rounds (closingThird 3) trio).room.clients.iter
      (closingThird 3).peers = [(2, seat 2)] := by decide +kernel
  rw [hiter] at he
  obtain rfl := List.mem_singleton.mp (List.mem_of_getElem? he)
  simp [closingThird, seat]

end Roomie.ClosingChannels
