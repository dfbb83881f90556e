import Roomie.Hearing

/-!
# What the members of a room are told of it

A member learns something of its room from its `Joined` and from the events of the room after it.
All accepted clients hear of every event; pending peers hear of none, and are not told later either,
when they are accepted. So what the accepted clients hold is what the room has, as long as every
change of it is an event, and nobody is accepted who joined under something else.
-/

namespace Roomie
open HashTables GuardedRuns Seats

/-- Something of a room that members are told: what it is under a host and settings, which come
without their password, and what an event tells of it. -/
structure Topic (κ : Type) where
  of : PeerId → RoomSettings → κ
  news : RoomEvent → Option κ

namespace Topic
variable {κ : Type} (T : Topic κ)

/-- What the room has. -/
def now (room : Room) : κ := T.of room.hostPeerId room.settings.withoutPassword

/-- What a member holds after one more message. -/
def hear (known : Option κ) : ServerMessage → Option κ
  | .joined _ _ host _ settings _ => some (T.of host settings)
  | .roomEvent event => (T.news event).or known
  | _ => known

def held (log : List ServerMessage) : Option κ := log.foldl T.hear none

/-- What the last `Joined` told. -/
def hearJoined (known : Option κ) : ServerMessage → Option κ
  | .joined _ _ host _ settings _ => some (T.of host settings)
  | _ => known

def joinedWith (log : List ServerMessage) : Option κ := log.foldl T.hearJoined none

/-- Nobody is accepted who joined under something else. -/
def AcceptsFresh (log : ConnId → List ServerMessage) (room : Room) (o : RoomOp) : Prop :=
  ∀ target info, o = .control room.hostPeerId (.acceptPeer target) →
    room.pending.lookup target = some info → T.joinedWith (log info.tx) = some (T.now room)

/-- What the clients hear of an operation brings them up to date. -/
def Announced (env : Env) (room : Room) (o : RoomOp) : Prop :=
  (o.news env room).foldl T.hear (some (T.now room)) = some (T.now (o.after env room))

/-- Channels are clear, changes announced and acceptances fresh. -/
def Fresh (r : Recorded) (a : Action) : Prop :=
  a.env.Clear ∧
    OpGuard (fun env room o => T.AcceptsFresh r.log room o ∧ T.Announced env room o) r.sys a

/-! ## Messages that tell nothing -/

/-- Neither a `Joined` nor news. -/
def Neutral (ms : List ServerMessage) : Prop :=
  ∀ m ∈ ms, ∀ known, T.hear known m = known ∧ T.hearJoined known m = known

variable {T} {joined : Option κ} {room room' : Room} {p : PeerId} {i : ClientInfo}
  {log ms : List ServerMessage}

theorem Neutral.nil : T.Neutral [] := fun m hm => by cases hm

theorem Neutral.foldl (h : T.Neutral ms) (known : Option κ) :
    ms.foldl T.hear known = known ∧ ms.foldl T.hearJoined known = known := by
  induction ms with
  | nil => exact ⟨rfl, rfl⟩
  | cons m ms ih =>
    obtain ⟨hm, hj⟩ := h m List.mem_cons_self known
    simp only [List.foldl_cons, hm, hj]
    exact ih fun m hm => h m (List.mem_cons_of_mem _ hm)

theorem Neutral.held (h : T.Neutral ms) (log : List ServerMessage) :
    T.held (log ++ ms) = T.held log ∧ T.joinedWith (log ++ ms) = T.joinedWith log := by
  simp only [Topic.held, joinedWith, List.foldl_append]
  exact ⟨(h.foldl _).1, (h.foldl _).2⟩

theorem neutral_of_isAnswer (h : ∀ m ∈ ms, m.IsAnswer) : T.Neutral ms := by
  intro m hm known
  have hans := h m hm
  cases m <;> first | exact hans.elim | exact ⟨rfl, rfl⟩

theorem neutral_requestState (room : Room) : T.Neutral room.requestState := by
  unfold Room.requestState
  split_ifs
  · exact .nil
  · simp [Neutral, hear, hearJoined]

theorem neutral_pendingNews (o : RoomOp) (room : Room) : T.Neutral (o.pendingNews room) := by
  cases o with
  | move pid blob =>
    rw [RoomOp.pendingNews]
    split_ifs
    · simp [Neutral, hear, hearJoined]
    · exact .nil
  | _ => exact .nil

/-- No operation sends a `Joined` to the clients. -/
theorem news_joined (env : Env) (room : Room) (o : RoomOp) (known : Option κ) :
    (o.news env room).foldl T.hearJoined known = known := by
  cases o with
  | leave pid =>
    simp only [RoomOp.news]
    cases (room.dropMember pid).heir env pid <;> rfl
  | move pid blob =>
    simp only [RoomOp.news]
    split_ifs <;> rfl
  | control pid rc =>
    simp only [RoomOp.news]
    split_ifs
    · cases rc with
      | acceptPeer target =>
        simp only
        cases room.pending.lookup target <;> rfl
      | transferHost target =>
        simp only
        split_ifs <;> rfl
      | _ => rfl
    · rfl

/-- An event tells what it is about, and nothing else. -/
structure Tells (T : Topic κ) : Prop where
  host : ∀ host host' settings, (T.news (.hostTransferred host')).or (some (T.of host settings)) =
    some (T.of host' settings)
  settings : ∀ host settings settings',
    (T.news (.settingsChanged settings')).or (some (T.of host settings)) =
      some (T.of host settings')

/-- Every operation announces what it changes, but for `SetPublic`, which changes the settings only. -/
theorem Tells.announced (h : T.Tells) {env : Env} {o : RoomOp}
    (hsame : ∀ isPublic, o = .control room.hostPeerId (.setPublic isPublic) →
      T.of room.hostPeerId { room.settings.withoutPassword with isPublic := isPublic } =
        T.now room) : T.Announced env room o := by
  unfold Announced
  cases o with
  | leave pid =>
    simp only [RoomOp.news, RoomOp.after]
    cases (room.dropMember pid).heir env pid with
    | none => rfl
    | some heir => exact h.host ..
  | move pid blob =>
    simp only [RoomOp.news, RoomOp.after, RoomOp.edit]
    split_ifs <;> rfl
  | control pid rc =>
    simp only [RoomOp.news, RoomOp.after, RoomOp.edit]
    split_ifs with hhost
    · subst hhost
      cases rc with
      | setPublic isPublic => exact congrArg some (hsame isPublic rfl).symm
      | updateSettings settings => exact h.settings ..
      | acceptPeer target =>
        simp only [RoomControl.edit]
        cases room.pending.lookup target <;> rfl
      | ban target =>
        simp only [RoomControl.edit]
        cases room.clients.lookup target <;> rfl
      | transferHost target =>
        simp only [RoomControl.edit]
        split_ifs
        · exact h.host ..
        · rfl
      | _ => rfl
    · rfl

/-! ## One member -/

/-- What a member holds: accepted ones what the room has, pending ones what they joined under. -/
structure Knows (T : Topic κ) (joined : Option κ) (room : Room) (p : PeerId) (i : ClientInfo)
    (log : List ServerMessage) : Prop where
  joined : T.joinedWith log = joined
  client : room.clients.lookup p = some i → T.held log = some (T.now room)
  pending : room.pending.lookup p = some i → T.held log = T.joinedWith log

theorem Knows.neutral (hk : T.Knows joined room p i log) (hn : T.Neutral ms)
    (hclients : room'.clients.lookup p = some i → room.clients.lookup p = some i)
    (hpending : room'.pending.lookup p = some i → room.pending.lookup p = some i)
    (hnow : T.now room' = T.now room) : T.Knows joined room' p i (log ++ ms) := by
  obtain ⟨hheld, hjoined⟩ := hn.held log
  refine ⟨hjoined.trans hk.joined, fun hc => ?_, fun hp => ?_⟩
  · rw [hheld, hnow]
    exact hk.client (hclients hc)
  · rw [hheld, hjoined]
    exact hk.pending (hpending hp)

theorem turn_knows {env : Env} {logs : ConnId → List ServerMessage}
    (h : HearsTurn env (fun room o => T.AcceptsFresh logs room o ∧ T.Announced env room o) p i
      room ms room')
    (hk : T.Knows (T.joinedWith (logs i.tx)) room p i log) :
    T.Knows (T.joinedWith (logs i.tx)) room' p i (log ++ ms) := by
  cases h with
  | rest => simpa using hk
  | input _ pid blob => exact hk.neutral (by simp [Neutral, hear, hearJoined]) id id rfl
  | @opClient o allowed disjoint client =>
    obtain ⟨fresh, announced⟩ := allowed
    have hdis := @RoomOp.after_disjoint env _ o disjoint
    -- whoever holds what the room has is brought up to date
    have hnext : T.held log = some (T.now room) →
        T.held (log ++ o.news env room) = some (T.now (o.after env room)) := by
      intro hheld
      rw [held, List.foldl_append, show log.foldl T.hear none = _ from hheld]
      exact announced
    refine ⟨?_, fun _ => ?_, fun hp => ?_⟩
    · rw [joinedWith, List.foldl_append, news_joined]
      exact hk.joined
    · rcases RoomOp.after_hasMember (.inl client) with hc | hp
      · exact hnext (hk.client hc)
      · -- the peer is being accepted, and it joined under what the room has
        have haccepted := RoomOp.accepted_of_client disjoint (AList.mem_of_lookup hp)
          (AList.mem_of_lookup client)
        refine hnext ?_
        rw [hk.pending hp, hk.joined, fresh p i haccepted hp]
    · exact absurd (AList.mem_of_lookup hp) (hdis p (AList.mem_of_lookup client))
  | @opPending o allowed disjoint pending =>
    have hdis := @RoomOp.after_disjoint env _ o disjoint
    obtain ⟨hheld, hjoined⟩ := (T.neutral_pendingNews o room).held log
    refine ⟨hjoined.trans hk.joined, fun hc => ?_, fun _ => ?_⟩
    · exact absurd (AList.mem_of_lookup pending) (hdis p (AList.mem_of_lookup hc))
    · rw [hheld, hjoined]
      exact hk.pending (RoomOp.after_pending_lookup pending)

theorem arrival_knows {env : Env} {comer : Option (ConnId × Hello)} {appKey key : String}
    (h : HearsArrival env comer appKey key p i room ms room') (hk : T.Knows joined room p i log) :
    T.Knows joined room' p i (log ++ ms) := by
  cases h with
  | rest => simpa using hk
  | count n => exact hk.neutral .nil id id rfl
  | admitPeer _ _ _ member other admitted =>
    obtain ⟨hclients, hpending⟩ := admitted.kept other
    have hnow : T.now room' = T.now room := by
      rw [now, now, (admitted.inCompany member).1, admitted.data.2.1]
    refine hk.neutral ?_ (by rw [hclients]; exact id) (by rw [hpending]; exact id) hnow
    split_ifs <;> simp [Neutral, hear, hearJoined]

/-- Who has just been answered `Joined` holds what the room has. -/
theorem joined_knows (room : Room) {p : PeerId} {i : ClientInfo} (code : RoomCode) (side : UInt8)
    (log : List ServerMessage) :
    T.Knows (T.joinedWith (log ++ [room.joinedMessage code p side])) room p i
      (log ++ [room.joinedMessage code p side]) := by
  refine ⟨rfl, fun _ => ?_, fun _ => ?_⟩
  · simp [held, hear, now, Room.joinedMessage]
  · simp [held, joinedWith, hear, hearJoined, Room.joinedMessage]

/-! ## All runs -/

/-- All members of all rooms hold what they should. -/
def AllKnow (T : Topic κ) (r : Recorded) : Prop :=
  ∀ appKey key room p i, r.sys.roomAt appKey key = some room → room.HasMember p i →
    T.Knows (T.joinedWith (r.log i.tx)) room p i (r.log i.tx)

theorem record_allKnow {r : Recorded} {a : Action} (hr : Reachable r.sys) (h : T.AllKnow r)
    (hf : T.Fresh r a) : T.AllKnow (record r a) := by
  intro appKey key room' p i hroom hm
  have hlog : (record r a).log i.tx = r.log i.tx ++ onChannel i.tx (a.sent r.sys) := rfl
  have hears := step_hears (Seats.seated hr) (allDisjoint_of_reachable hr) hf.1 hf.2 hroom hm
  rw [hlog]
  revert hears
  generalize onChannel i.tx (a.sent r.sys) = heard
  intro hears
  cases hears with
  | @stays room mid ms ms' answers _ found turn arrival answers_spec =>
    have hn : T.Neutral answers := by
      rcases answers_spec with plain | ⟨_, rfl⟩
      · exact neutral_of_isAnswer plain
      · exact neutral_requestState room'
    have hmid := arrival.hasMember hm
    have hk := arrival_knows arrival (turn_knows turn (h _ _ _ _ _ found (turn.hasMember hmid)))
    have hk' := hk.neutral hn id id rfl
    rw [← List.append_assoc, ← List.append_assoc]
    exact ⟨rfl, hk'.client, hk'.pending⟩
  | joins _ _ _ _ code side => exact joined_knows room' code side _
  | opens _ _ _ code side => exact joined_knows room' code side _

/-- Over clear channels all members hold what they should, as long as changes are announced and
acceptances fresh. -/
theorem allKnow {r : Recorded} (h : Reaches record T.Fresh .start r) : T.AllKnow r := by
  refine h.invariant_under (J := fun r => Reachable r.sys) (fun r => reachable_of_record) ?_
    fun r a hr hI hf => record_allKnow hr hI hf
  intro appKey key room p i hroom
  simp [Recorded.start, Sys.roomAt, Sys.start, Server.start, Server.roomAt] at hroom

end Topic
end Roomie
