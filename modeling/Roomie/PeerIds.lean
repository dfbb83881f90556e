import Roomie.HelloOutcomes
import Roomie.Seats

/-!
# The ids of the peers of a room

Ids come from a counter that stops at `u32::MAX`, and from a search once the counter's own id is
in use. The search misses no id, and it is not needed before the counter has stopped: until then
every id handed out in a room is larger than those before it.
-/

namespace Roomie.PeerIds
open HashTables GuardedRuns Seats

/-! ## The allocator -/

theorem inUse_iff {room : Room} {pid : PeerId} :
    room.inUse pid = true ↔ pid ∈ room.clients ∨ pid ∈ room.pending := by
  simp [Room.inUse, AList.mem_keys]

theorem firstUnused_eq_none {room : Room} {candidate count : ℕ} :
    room.firstUnused candidate count = none ↔
      ∀ k, candidate ≤ k → k < candidate + count → room.inUse (.ofNat k) = true := by
  induction count generalizing candidate with
  | zero => simp only [Room.firstUnused, true_iff]; omega
  | succ count ih =>
    unfold Room.firstUnused
    constructor
    · intro h k hk hlt
      split_ifs at h with hu
      rcases Nat.eq_or_lt_of_le hk with rfl | hk
      · exact hu
      · exact ih.mp h k hk (by omega)
    · intro h
      rw [if_pos (h candidate le_rfl (by omega))]
      exact ih.mpr fun k hk hlt => h k (by omega) (by omega)

theorem firstUnused_range {room : Room} {candidate count : ℕ} {pid : PeerId}
    (h : room.firstUnused candidate count = some pid) :
    ∃ k, candidate ≤ k ∧ k < candidate + count ∧ pid = .ofNat k := by
  induction count generalizing candidate with
  | zero => simp [Room.firstUnused] at h
  | succ count ih =>
    unfold Room.firstUnused at h
    split_ifs at h with hu
    · obtain ⟨k, hk, hlt, rfl⟩ := ih h
      exact ⟨k, by omega, by omega, rfl⟩
    · exact ⟨candidate, le_rfl, by omega, (Option.some.inj h).symm⟩

theorem one_le_ofNat {k : ℕ} (h : 1 ≤ k) (hlt : k < 4294967296) : (1 : PeerId) ≤ .ofNat k := by
  rw [UInt32.le_iff_toNat_le, UInt32.toNat_ofNat']
  simp only [UInt32.toNat_one]
  omega

theorem one_le_saturatingSucc (n : PeerId) : 1 ≤ Room.saturatingSucc n := by
  unfold Room.saturatingSucc
  split_ifs with h
  · rw [h]
    decide
  · have hlt := n.toNat_lt
    have hne : n.toNat ≠ 4294967295 := fun hn => h (UInt32.toNat_inj.mp hn)
    rw [UInt32.le_iff_toNat_le, UInt32.toNat_add]
    simp only [UInt32.toNat_one]
    omega

/-- A counter that has not stopped has moved. -/
theorem lt_saturatingSucc {n : PeerId} (h : n ≠ 4294967295) : n < Room.saturatingSucc n := by
  have hlt := n.toNat_lt
  have hne : n.toNat ≠ 4294967295 := fun hn => h (UInt32.toNat_inj.mp hn)
  rw [Room.saturatingSucc, if_neg h, UInt32.lt_iff_toNat_lt, UInt32.toNat_add]
  simp only [UInt32.toNat_one]
  omega

/-- The counter's own id is handed out when it is free, and the counter moves on. -/
theorem nextPeerId_unused {room : Room} (h : room.inUse room.peerCounter = false) :
    room.nextPeerId = (some room.peerCounter,
      { room with peerCounter := Room.saturatingSucc room.peerCounter }) := by
  have hused : ({ room with peerCounter := Room.saturatingSucc room.peerCounter } : Room).inUse
      room.peerCounter = false := h
  unfold Room.nextPeerId
  simp [hused]

/-- When it is in use, the search covers all ids but 0. -/
theorem nextPeerId_used {room : Room} (h : room.inUse room.peerCounter = true) :
    ∃ start, 1 ≤ start ∧ start < 4294967296 ∧ room.nextPeerId.1 =
      (room.firstUnused start (4294967296 - start)).or (room.firstUnused 1 (start - 1)) := by
  have hused : ({ room with peerCounter := Room.saturatingSucc room.peerCounter } : Room).inUse
      room.peerCounter = true := h
  have hscan : ∀ n candidate count, ({ room with peerCounter := n } : Room).firstUnused candidate
      count = room.firstUnused candidate count := fun n => Room.firstUnused_congr fun _ => rfl
  refine ⟨max (Room.saturatingSucc room.peerCounter).toNat 1, le_max_right _ _, ?_, ?_⟩
  · have hlt := (Room.saturatingSucc room.peerCounter).toNat_lt
    omega
  · unfold Room.nextPeerId
    simp only [hused, if_true, hscan]
    generalize Option.or _ _ = scan
    cases scan <;> rfl

/-- No id is found exactly when all of them are in use. -/
theorem nextPeerId_none_iff {room : Room} (hc : 1 ≤ room.peerCounter) :
    room.nextPeerId.1 = none ↔ ∀ id, 1 ≤ id → room.inUse id = true := by
  cases hused : room.inUse room.peerCounter with
  | false =>
    rw [nextPeerId_unused hused]
    refine iff_of_false (fun h => by cases h) fun h => ?_
    cases hused.symm.trans (h _ hc)
  | true =>
    obtain ⟨start, hstart, hlt, hscan⟩ := nextPeerId_used hused
    rw [hscan, Option.or_eq_none_iff, firstUnused_eq_none, firstUnused_eq_none]
    constructor
    · rintro ⟨hhigh, hlow⟩ id hid
      have hlt' := id.toNat_lt
      rw [UInt32.le_iff_toNat_le] at hid
      simp only [UInt32.toNat_one] at hid
      rw [← UInt32.ofNat_toNat (x := id)]
      by_cases hk : start ≤ id.toNat
      · exact hhigh _ hk (by omega)
      · exact hlow _ hid (by omega)
    · intro h
      exact ⟨fun k hk hk' => h _ (one_le_ofNat (by omega) (by omega)),
        fun k hk hk' => h _ (one_le_ofNat hk (by omega))⟩

theorem nextPeerId_range {room : Room} (hc : 1 ≤ room.peerCounter) {id : PeerId}
    (h : room.nextPeerId.1 = some id) : 1 ≤ id := by
  cases hused : room.inUse room.peerCounter with
  | false =>
    rw [nextPeerId_unused hused] at h
    exact Option.some.inj h ▸ hc
  | true =>
    obtain ⟨start, hstart, hlt, hscan⟩ := nextPeerId_used hused
    rw [hscan, Option.or_eq_some_iff] at h
    rcases h with h | ⟨_, h⟩
    · obtain ⟨k, hk, hk', rfl⟩ := firstUnused_range h
      exact one_le_ofNat (by omega) (by omega)
    · obtain ⟨k, hk, hk', rfl⟩ := firstUnused_range h
      exact one_le_ofNat hk (by omega)

theorem nextPeerId_counter (room : Room) : 1 ≤ room.nextPeerId.2.peerCounter := by
  unfold Room.nextPeerId
  dsimp only
  split_ifs
  · generalize Option.or _ _ = scan
    cases scan <;> exact one_le_saturatingSucc _
  · exact one_le_saturatingSucc _

/-! ## Rooms -/

/-- The room has lost members at most, and its counter stands where it did. -/
structure Fewer (room room' : Room) : Prop where
  counter : room'.peerCounter = room.peerCounter
  members : ∀ p i, room'.HasMember p i → room.HasMember p i

theorem Fewer.refl (room : Room) : Fewer room room := ⟨rfl, fun _ _ h => h⟩

theorem edit_peerCounter (o : RoomOp) (room : Room) :
    (o.edit room).peerCounter = room.peerCounter := by
  cases o with
  | leave pid => rfl
  | move pid blob =>
    simp only [RoomOp.edit]
    split_ifs <;> rfl
  | control pid rc =>
    simp only [RoomOp.edit]
    split_ifs
    · cases rc with
      | acceptPeer pid => simp only [RoomControl.edit]; split <;> rfl
      | ban pid => simp only [RoomControl.edit]; split <;> rfl
      | transferHost pid => simp only [RoomControl.edit]; split <;> rfl
      | _ => rfl
    · rfl

theorem run_fewer (env : Env) (o : RoomOp) (room : Room) (net : Net) :
    Fewer room (o.run env room net).1 where
  counter := (o.run_shrunkTo env room net).data.peerCounter.trans (edit_peerCounter o room)
  members _ _ h := RoomOp.run_hasMember h

/-- No member has the id 0, and the counter is beyond it. -/
structure Sound (room : Room) : Prop where
  zero : ∀ i, ¬ room.HasMember 0 i
  counter : 1 ≤ room.peerCounter

theorem Sound.fewer {room room' : Room} (h : Sound room) (hf : Fewer room room') : Sound room' where
  zero i hi := h.zero i (hf.members 0 i hi)
  counter := hf.counter ▸ h.counter

theorem sound_new (appKey : String) (code : RoomCode) (settings : RoomSettings) :
    Sound (Room.new appKey code settings) where
  zero i := by rintro (h | h) <;> simp [Room.new] at h
  counter := by change (1 : PeerId) ≤ 1; decide

/-- The room with the counter moved on has the members it had. -/
theorem nextPeerId_members {room : Room} {p : PeerId} {i : ClientInfo} :
    room.nextPeerId.2.HasMember p i ↔ room.HasMember p i := by
  obtain ⟨n, hn⟩ := room.nextPeerId_spec.1
  rw [hn]
  rfl

theorem Sound.admission {env : Env} {me : ConnId} {code : RoomCode} {h : Hello} {room : Room}
    {net : Net} {out : Room × Net × Except String (PeerId × ServerMessage)} (hs : Sound room)
    (ha : room.Admission env me code h net out) : Sound out.1 := by
  cases ha with
  | refused _ => exact hs
  | exhausted _ =>
    exact ⟨fun i hi => hs.zero i (nextPeerId_members.mp hi), nextPeerId_counter room⟩
  | @seated room' net' pid joined admitted eq =>
    have hdata := Room.seat_data room.nextPeerId.2 pid (room.newcomer me h)
    subst eq
    refine ⟨fun i hi => ?_, hdata.peerCounter ▸ nextPeerId_counter room⟩
    rcases admitted.hasMember hi with ⟨hpid, _⟩ | hi
    · have hid := nextPeerId_range hs.counter admitted.allocated
      rw [← hpid] at hid
      exact absurd hid (by decide)
    · exact hs.zero i hi

/-! ## What an action leaves of a room -/

/-- The rooms as a `Hello` finds them after the old room was left, or as any other action leaves
them. -/
def remaining (sys : Sys) (a : Action) : Server :=
  match a.event with
  | .message (.hello _) => (leaveSession a.env sys.server (sys.session a.conn) []).1
  | _ => (a.outcome sys).server

theorem left_fewer {env : Env} {s : Server} {session : Option Session} {net : Net}
    {appKey key : String} {room' : Room}
    (h : (leaveSession env s session net).1.roomAt appKey key = some room') :
    ∃ room, s.roomAt appKey key = some room ∧ Fewer room room' := by
  obtain ⟨room, hat, ⟨rfl, _⟩ | ⟨old, _, _, _, rfl, _⟩⟩ := leaveSession_roomAt h
  · exact ⟨_, hat, .refl _⟩
  · exact ⟨room, hat, run_fewer env (.leave old.peerId) room net⟩

/-- What remains of a room has lost members at most. -/
theorem remaining_fewer {sys : Sys} {a : Action} {appKey key : String} {room' : Room}
    (h : (remaining sys a).roomAt appKey key = some room') :
    ∃ room, sys.roomAt appKey key = some room ∧ Fewer room room' := by
  by_cases hh : ∃ hello, a.event = .message (.hello hello)
  · obtain ⟨hello, event⟩ := hh
    simp only [remaining, event] at h
    exact left_fewer h
  have hremaining : remaining sys a = (a.outcome sys).server := by
    unfold remaining
    split
    · rename_i hello event
      exact absurd ⟨hello, event⟩ hh
    · rfl
  rw [hremaining] at h
  have hres := Action.result sys a
  revert hres h
  generalize a.outcome sys = out
  intro h hres
  cases hres with
  | idle same => exact ⟨room', (same appKey key).symm.trans h, .refl _⟩
  | read _ _ same _ => exact ⟨room', (same appKey key).symm.trans h, .refl _⟩
  | @op s o room s' _ _ _ found put =>
    by_cases hk : appKey = s.appKey ∧ key = s.roomCode.key
    · obtain ⟨rfl, rfl⟩ := hk
      obtain rfl := Option.some.inj (put.here.symm.trans h)
      exact ⟨room, found, run_fewer a.env o room []⟩
    · exact ⟨room', (put.elsewhere hk).symm.trans h, .refl _⟩
  | left _ => exact left_fewer h
  | hello event _ _ => exact absurd ⟨_, event⟩ hh

/-- The id that an action hands out in the room under this code. -/
def handedOut (sys : Sys) (a : Action) (appKey key : String) : List PeerId :=
  match a.event, (a.outcome sys).session with
  | .message (.hello _), some new =>
    if new.appKey = appKey ∧ new.roomCode.key = key then [new.peerId] else []
  | _, _ => []

/-- The locked part of a `Hello` has run on the room at this place. -/
structure Locked (sys : Sys) (a : Action) (appKey key : String) (room : Room)
    (out : Room × Net × Except String (PeerId × ServerMessage)) : Prop where
  found : FoundOrNew (remaining sys a) appKey key room
  admission : ∃ code hello net, room.Admission a.env a.conn code hello net out
  left : (step sys a).roomAt appKey key = some out.1
  ids : handedOut sys a appKey key = match out.2.2 with
    | .ok (pid, _) => [pid]
    | .error _ => []

/-- After an action a place has what remained of it, or a `Hello` was handled there. -/
theorem step_place (sys : Sys) (a : Action) (appKey key : String) :
    ((step sys a).roomAt appKey key = (remaining sys a).roomAt appKey key ∧
      handedOut sys a appKey key = []) ∨ ∃ room out, Locked sys a appKey key room out := by
  by_cases hh : ∃ hello, a.event = .message (.hello hello)
  · obtain ⟨hello, event⟩ := hh
    have hremaining : remaining sys a =
        (leaveSession a.env sys.server (sys.session a.conn) []).1 := by
      simp only [remaining, event]
    have ho := helloOutcome a.env sys.server (sys.session a.conn) a.conn hello
    rw [← Action.outcome_hello event] at ho
    rcases ho.roomAt appKey key with ⟨hsame, hnew⟩ | ⟨code, room, happ, hkey, hfound, hroom, hs⟩
    · refine .inl ⟨by rw [hremaining]; exact hsame, ?_⟩
      unfold handedOut
      split
      · rename_i new _ hsession
        exact if_neg (hnew new hsession)
      · rfl
    · refine .inr ⟨room, _, by rw [hremaining]; exact hfound, ⟨code, hello, _,
        room.admission _ _ _ _ _⟩, hroom, ?_⟩
      unfold handedOut
      rw [hs, event]
      generalize (room.admitPeer a.env a.conn code hello _).2.2 = answer
      cases answer with
      | error message => rfl
      | ok found => exact if_pos ⟨happ, hkey⟩
  · left
    unfold remaining handedOut
    split
    · rename_i hello event
      exact absurd ⟨hello, event⟩ hh
    · exact ⟨rfl, by split <;> simp_all⟩

/-- What a room keeps when it loses members and when a `Hello` is handled in it, and what a new room
has, is kept by every action. -/
theorem step_keeps {I : Room → Prop} {sys : Sys} {a : Action} {appKey key : String}
    (hfewer : ∀ {room room'}, I room → Fewer room room' → I room')
    (hnew : ∀ app code settings, I (Room.new app code settings))
    (hadmission : ∀ {env me code h room net out}, I room →
      Room.Admission env me code h room net out →
      (step sys a).roomAt appKey key = some out.1 → I out.1)
    (h : ∀ room, sys.roomAt appKey key = some room → I room) :
    ∀ room, (step sys a).roomAt appKey key = some room → I room := by
  intro room' hr'
  have hremaining : ∀ room, (remaining sys a).roomAt appKey key = some room → I room := by
    intro room hr
    obtain ⟨before, hbefore, hlost⟩ := remaining_fewer hr
    exact hfewer (h before hbefore) hlost
  rcases step_place sys a appKey key with ⟨hsame, _⟩ | ⟨room, out, hlocked⟩
  · exact hremaining room' (hsame.symm.trans hr')
  · obtain ⟨code, hello, net, ha⟩ := hlocked.admission
    obtain rfl := Option.some.inj (hlocked.left.symm.trans hr')
    rcases hlocked.found with hat | ⟨_, app, code', settings, rfl⟩
    · exact hadmission (hremaining room hat) ha hlocked.left
    · exact hadmission (hnew app code' settings) ha hlocked.left

/-! ## Runs -/

/-- The server with a record for every room, begun when the room is created: the ids handed out in
it, and whether its counter had stopped before the last action. -/
structure Issue where
  sys : Sys
  issued : String → String → List PeerId
  exhausted : String → String → Bool

def Issue.start : Issue := ⟨.start, fun _ _ => [], fun _ _ => false⟩

def Issue.step (w : Issue) (a : Action) : Issue where
  sys := Roomie.step w.sys a
  issued := fun appKey key =>
    (if ((remaining w.sys a).roomAt appKey key).isSome then w.issued appKey key else []) ++
      handedOut w.sys a appKey key
  exhausted := fun appKey key => ((remaining w.sys a).roomAt appKey key).any fun room =>
    w.exhausted appKey key || room.peerCounter == 4294967295

abbrev Recorded (w : Issue) : Prop := Reaches Issue.step (fun _ _ => True) .start w

theorem Recorded.reachable {w : Issue} (h : Recorded w) : Reachable w.sys :=
  h.map Issue.sys (fun _ _ => rfl) fun _ _ _ => trivial

/-- Every room is sound. -/
theorem reachable_sound {sys : Sys} (h : Reachable sys) {appKey key : String} {room : Room}
    (hr : sys.roomAt appKey key = some room) : Sound room := by
  have hall : ∀ appKey key room, sys.roomAt appKey key = some room → Sound room := by
    refine h.invariant (I := fun sys => ∀ appKey key room, sys.roomAt appKey key = some room →
      Sound room) ?_ ?_
    · intro appKey key room hr
      simp [Sys.roomAt, Sys.start, Server.start, Server.roomAt] at hr
    · intro sys a ih _ appKey key
      exact step_keeps (fun h hf => h.fewer hf) sound_new (fun h ha _ => h.admission ha)
        (ih appKey key)
  exact hall appKey key room hr

/-- The ids were handed out in ascending order, and the counter is beyond all of them and beyond
every member. -/
structure Ascending (issued : List PeerId) (room : Room) : Prop where
  sorted : issued.Pairwise (· < ·)
  below : ∀ id ∈ issued, id < room.peerCounter
  members : ∀ p i, room.HasMember p i → p < room.peerCounter

theorem Ascending.fewer {issued : List PeerId} {room room' : Room} (h : Ascending issued room)
    (hf : Fewer room room') : Ascending issued room' where
  sorted := h.sorted
  below := hf.counter ▸ h.below
  members p i hi := hf.counter ▸ h.members p i (hf.members p i hi)

theorem ascending_new (appKey : String) (code : RoomCode) (settings : RoomSettings) :
    Ascending [] (Room.new appKey code settings) where
  sorted := .nil
  below id hid := by cases hid
  members p i := by rintro (h | h) <;> simp [Room.new] at h

/-- The counter's own id is free then. -/
theorem Ascending.unused {issued : List PeerId} {room : Room} (h : Ascending issued room) :
    room.inUse room.peerCounter = false := by
  rw [← Bool.not_eq_true, inUse_iff]
  rintro (hm | hm)
  · obtain ⟨i, hi⟩ := AList.mem_iff_lookup.mp hm
    exact absurd (h.members _ i (.inl hi)) (UInt32.lt_irrefl _)
  · obtain ⟨i, hi⟩ := AList.mem_iff_lookup.mp hm
    exact absurd (h.members _ i (.inr hi)) (UInt32.lt_irrefl _)

/-- The next id is the counter, which is larger than all before it. -/
theorem Ascending.admission {issued : List PeerId} {env : Env} {me : ConnId} {code : RoomCode}
    {h : Hello} {room : Room} {net : Net}
    {out : Room × Net × Except String (PeerId × ServerMessage)} (hi : Ascending issued room)
    (hc : room.peerCounter ≠ 4294967295) (ha : room.Admission env me code h net out) :
    Ascending (issued ++ match out.2.2 with
      | .ok (pid, _) => [pid]
      | .error _ => []) out.1 := by
  have hnext := nextPeerId_unused hi.unused
  cases ha with
  | refused _ => simpa using hi
  | exhausted hnone =>
    rw [hnext] at hnone
    cases hnone
  | @seated room' net' pid joined admitted eq =>
    have hpid : room.peerCounter = pid := by simpa [hnext] using admitted.allocated
    have hcounter : room'.peerCounter = Room.saturatingSucc room.peerCounter := by
      rw [eq, (Room.seat_data _ _ _).peerCounter, hnext]
    have hlt := lt_saturatingSucc hc
    refine ⟨?_, ?_, ?_⟩
    · refine List.pairwise_append.mpr ⟨hi.sorted, List.pairwise_singleton _ _, ?_⟩
      intro id hid new hnew
      rw [List.mem_singleton.mp hnew, ← hpid]
      exact hi.below id hid
    · rw [hcounter]
      intro id hid
      rcases List.mem_append.mp hid with hid | hid
      · exact UInt32.lt_trans (hi.below id hid) hlt
      · rw [List.mem_singleton.mp hid, ← hpid]
        exact hlt
    · rw [hcounter]
      intro p i hp
      rcases admitted.hasMember hp with ⟨rfl, _⟩ | hp
      · exact hpid ▸ hlt
      · exact UInt32.lt_trans (hi.members p i hp) hlt

theorem recorded_ascending {w : Issue} (h : Recorded w) :
    ∀ appKey key room, w.sys.roomAt appKey key = some room → w.exhausted appKey key = false →
      Ascending (w.issued appKey key) room := by
  refine h.invariant (I := fun w => ∀ appKey key room, w.sys.roomAt appKey key = some room →
    w.exhausted appKey key = false → Ascending (w.issued appKey key) room) ?_ ?_
  · intro appKey key room hr
    simp [Issue.start, Sys.roomAt, Sys.start, Server.start, Server.roomAt] at hr
  intro w a ih _ appKey key room' hr' hexhausted
  change (step w.sys a).roomAt appKey key = some room' at hr'
  -- the room that remains, with the ids handed out in it so far
  have hremaining : ∀ room, (remaining w.sys a).roomAt appKey key = some room →
      Ascending (w.issued appKey key) room ∧ room.peerCounter ≠ 4294967295 := by
    intro room hr
    obtain ⟨before, hbefore, hfewer⟩ := remaining_fewer hr
    simp only [Issue.step, hr, Option.any_some, Bool.or_eq_false_iff] at hexhausted
    exact ⟨(ih appKey key before hbefore hexhausted.1).fewer hfewer, by simpa using hexhausted.2⟩
  rcases step_place w.sys a appKey key with ⟨hsame, hids⟩ | ⟨room, out, hlocked⟩
  · have hr := hsame.symm.trans hr'
    simpa [Issue.step, hr, hids] using (hremaining room' hr).1
  · obtain ⟨code, hello, net, hadmission⟩ := hlocked.admission
    obtain rfl := Option.some.inj (hlocked.left.symm.trans hr')
    simp only [Issue.step, hlocked.ids]
    rcases hlocked.found with hat | ⟨hnone, app, code', settings, rfl⟩
    · obtain ⟨hasc, hc⟩ := hremaining room hat
      simpa [hat] using hasc.admission hc hadmission
    · have hc : (1 : PeerId) ≠ 4294967295 := by decide
      simpa [hnone] using (ascending_new app code' settings).admission hc hadmission

/-- The ids of a room are fresh: no member is accepted and pending at once or has the id 0; an id
is found whenever one is free, and it is a free one from 1 on; and until the counter has stopped
the ids handed out ascend, the next one is larger than all before it. -/
structure Fresh (room : Room) (issued : List PeerId) (exhausted : Bool) : Prop where
  disjoint : room.Disjoint
  zero : 0 ∉ room.clients ∧ 0 ∉ room.pending
  sound : ∀ id, room.nextPeerId.1 = some id → 1 ≤ id ∧ id ∉ room.clients ∧ id ∉ room.pending
  complete : room.nextPeerId.1 = none ↔ ∀ id, 1 ≤ id → id ∈ room.clients ∨ id ∈ room.pending
  ascending : exhausted = false → issued.Pairwise (· < ·)
  next : exhausted = false → room.peerCounter ≠ 4294967295 →
    ∀ id, room.nextPeerId.1 = some id → ∀ earlier ∈ issued, earlier < id

/-- In every state of every run, every room hands out fresh ids. -/
theorem peer_ids_fresh (w : Issue) (h : Recorded w) (appKey key : String) (room : Room)
    (hr : w.sys.roomAt appKey key = some room) :
    Fresh room (w.issued appKey key) (w.exhausted appKey key) := by
  have hsound := reachable_sound h.reachable hr
  have hascending := recorded_ascending h appKey key room hr
  have hzero : ∀ m : Members, (∀ i, m.lookup 0 ≠ some i) → (0 : PeerId) ∉ m := by
    intro m hm h0
    obtain ⟨i, hi⟩ := AList.mem_iff_lookup.mp h0
    exact hm i hi
  exact
    { disjoint := reachable_disjoint h.reachable hr
      zero := ⟨hzero _ fun i hi => hsound.zero i (.inl hi), hzero _ fun i hi => hsound.zero i (.inr hi)⟩
      sound := fun id hid => ⟨nextPeerId_range hsound.counter hid, room.nextPeerId_spec.2 id hid⟩
      complete := by simpa only [inUse_iff] using nextPeerId_none_iff hsound.counter
      ascending := fun he => (hascending he).sorted
      next := fun he _ id hid earlier hearlier => by
        rw [nextPeerId_unused (hascending he).unused] at hid
        exact Option.some.inj hid ▸ (hascending he).below earlier hearlier }

/-- The first peer leaves its id behind and gets a new one. -/
theorem rejoining_fresh : ∃ room,
    (exec Issue.step .start rejoining).sys.roomAt "pong" "aaaaaa" = some room ∧
      Fresh room [1, 2, 3] false := by
  have hroom : ((exec Issue.step .start rejoining).sys.roomAt "pong" "aaaaaa").isSome = true := by
    decide
  have hissued : (exec Issue.step .start rejoining).issued "pong" "aaaaaa" = [1, 2, 3] := by decide
  have hcounter : (exec Issue.step .start rejoining).exhausted "pong" "aaaaaa" = false := by decide
  obtain ⟨room, hr⟩ := Option.isSome_iff_exists.mp hroom
  have hfresh := peer_ids_fresh (exec Issue.step .start rejoining)
    (Reaches.exec .refl ⟨trivial, trivial, trivial, trivial⟩) "pong" "aaaaaa" room hr
  rw [hissued, hcounter] at hfresh
  exact ⟨room, hr, hfresh⟩

end Roomie.PeerIds
