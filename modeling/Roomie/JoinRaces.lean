import Roomie.SharedRooms

/-!
# Joined rooms and the registry

A connection that was answered with `Joined` has a seat: a peer id in one room object. The
seat should last until the peer leaves or is taken out, and the registry should lead to this
very object all the while. It does as long as a `Hello` that is let in finds its room still
registered when it gets the lock, and every leave removes the connection's own entry.
-/

namespace Roomie.JoinRaces
open HashTables GuardedRuns Shared

/-- What `Joined` promised to a connection: a peer id in a room object found under a code. -/
structure Seat where
  appKey : String
  key : String
  peerId : PeerId
  ref : RoomRef
  deriving DecidableEq

/-- The machine together with everybody's seat. -/
structure Watched where
  st : Shared
  seats : ConnId → Option Seat

def Watched.start : Watched := ⟨.start, fun _ => none⟩

/-- The peer was a member, accepted or pending, and is none any more. -/
def takenOut (room room' : Room) (pid : PeerId) : Bool :=
  room.inUse pid && !room'.inUse pid

/-- The seats after a section that made `room'` of the room behind `ref`: who was kicked, banned,
denied or pruned has lost the seat. -/
def withoutTaken (ref : RoomRef) (room room' : Room) (seats : ConnId → Option Seat) :
    ConnId → Option Seat :=
  fun conn => (seats conn).filter fun seat =>
    !(seat.ref == ref && takenOut room room' seat.peerId)

/-- The seats after a step: `Joined` gives one, the own leave ends it, and the section of any
other connection ends the seats of those it takes out. -/
def seatsAfter (w : Watched) (t : Tick) : ConnId → Option Seat :=
  match t.event, w.st.phase t.conn with
  | none, .joining h code ref =>
    if w.st.holder ref = none then
      match ((w.st.rooms ref).admitPeer t.env t.conn code h []).2.2 with
      | .ok (pid, _) => Function.update w.seats t.conn (some ⟨h.appKey, code.key, pid, ref⟩)
      | .error _ => w.seats
    else w.seats
  | none, .leaving s ref _ =>
    if w.st.holder ref = none then
      let room := w.st.rooms ref
      Function.update (withoutTaken ref (room.dropMember s.peerId)
        (room.removePeer t.env s.peerId []).1 w.seats) t.conn none
    else w.seats
  | none, .acting (some o) ref =>
    if w.st.holder ref = none then
      withoutTaken ref (w.st.rooms ref) (o.run t.env (w.st.rooms ref) []).1 w.seats
    else w.seats
  | _, _ => w.seats

def watch (w : Watched) (t : Tick) : Watched := ⟨w.st.tick t, seatsAfter w t⟩

/-- Under the code of the seat the registry has the very room that contains the peer. -/
def Kept (st : Shared) (conn : ConnId) (seat : Seat) : Prop :=
  st.registry.lookup (seat.appKey, seat.key) = some seat.ref ∧
    ∃ i, (st.rooms seat.ref).HasMember seat.peerId i ∧ i.tx = conn

/-- A step that can cost nobody the room: who is let in is let into the room that is registered
under the code, and who leaves removes no entry of another connection. -/
structure Timely (w : Watched) (t : Tick) : Prop where
  joins : ∀ h code ref, t.event = none → w.st.phase t.conn = .joining h code ref →
    w.st.holder ref = none → ¬ (w.st.rooms ref).Refuses h → w.st.refAt h.appKey code = some ref
  leaves : ∀ s ref next, t.event = none → w.st.phase t.conn = .leaving s ref next →
    w.st.holder ref = none → ∀ i, (w.st.rooms ref).HasMember s.peerId i → i.tx = t.conn

/-! ## What a step does to the rooms and the registry -/

/-- The entries under an id are there and belong to this connection. -/
def Owned (room : Room) (pid : PeerId) (conn : ConnId) : Prop :=
  (∃ i, room.HasMember pid i) ∧ ∀ i, room.HasMember pid i → i.tx = conn

theorem Owned.congr {room room' : Room} {pid : PeerId} {conn : ConnId} (h : Owned room pid conn)
    (hsame : ∀ i, room'.HasMember pid i ↔ room.HasMember pid i) : Owned room' pid conn := by
  obtain ⟨⟨i, hi⟩, hall⟩ := h
  exact ⟨⟨i, (hsame i).mpr hi⟩, fun j hj => hall j ((hsame j).mp hj)⟩

/-- One room is replaced. -/
theorem Owned.update {rooms : RoomRef → Room} {ref ref' : RoomRef} {room' : Room} {pid : PeerId}
    {conn : ConnId} (h : Owned (rooms ref') pid conn)
    (hroom : ref' = ref → Owned (rooms ref) pid conn → Owned room' pid conn) :
    Owned (Function.update rooms ref room' ref') pid conn := by
  by_cases href : ref' = ref
  · subst href
    rw [Function.update_self]
    exact hroom rfl h
  · rwa [Function.update_of_ne href]

theorem inUse_iff {room : Room} {pid : PeerId} :
    room.inUse pid = true ↔ ∃ i, room.HasMember pid i := by
  simp only [Room.inUse, Bool.or_eq_true, List.contains_iff_mem, ← AList.mem_keys, Room.HasMember,
    AList.mem_iff_lookup, exists_or]

/-- Both know the same objects under the same codes. -/
structure SameObjects (st st' : Shared) : Prop where
  rooms : st'.rooms = st.rooms
  registry : st'.registry = st.registry
  nextRef : st'.nextRef = st.nextRef

theorem SameObjects.rfl (st : Shared) : SameObjects st st := ⟨Eq.refl _, Eq.refl _, Eq.refl _⟩

theorem begin_same (st : Shared) (conn : ConnId) (event : ConnEvent) :
    SameObjects st (st.begin conn event) := by
  have hleave : ∀ next, SameObjects st (st.beginLeave conn next) := by
    intro next
    unfold beginLeave
    split
    · dsimp only
      split <;> exact ⟨rfl, rfl, rfl⟩
    · exact ⟨rfl, rfl, rfl⟩
  have hact : ∀ o, SameObjects st (st.beginAct conn o) := by
    intro o
    unfold beginAct
    split
    · split <;> exact ⟨rfl, rfl, rfl⟩
    · exact ⟨rfl, rfl, rfl⟩
  unfold Shared.begin
  split <;> first | exact hleave _ | exact hact _ | exact .rfl st

theorem unlock_same (st : Shared) (conn : ConnId) (ref : RoomRef)
    (emptied : Option (String × RoomCode)) (next : Option Hello) :
    SameObjects st (st.unlock conn ref emptied next) := by
  unfold unlock
  cases emptied <;> exact ⟨rfl, rfl, rfl⟩

theorem enter_same (env : Env) (st : Shared) (conn : ConnId) (h : Hello) :
    SameObjects st (st.enter env conn h) := by
  unfold enter
  split <;> exact ⟨rfl, rfl, rfl⟩

/-- A lookup changes no object; a creation adds one, under a code that was free. -/
theorem getOrCreate_cases (env : Env) (st : Shared) (conn : ConnId) (h : Hello) :
    SameObjects st (st.getOrCreate env conn h) ∨ ∃ code room, st.refAt h.appKey code = none ∧
      (st.getOrCreate env conn h).rooms = Function.update st.rooms st.nextRef room ∧
      (st.getOrCreate env conn h).registry = st.registry.insert (h.appKey, code.key) st.nextRef ∧
      (st.getOrCreate env conn h).nextRef = st.nextRef + 1 := by
  unfold getOrCreate
  dsimp only
  split_ifs
  · split
    · rename_i code hcode
      refine .inr ⟨code, _, ?_, rfl, rfl, rfl⟩
      exact Option.isNone_iff_eq_none.mp (freshCode_free (Prod.ext hcode rfl))
    · exact .inl ⟨rfl, rfl, rfl⟩
  · split <;> exact .inl ⟨rfl, rfl, rfl⟩

/-! ## The invariant -/

/-- References in the registry are allocated, and every seat is kept. -/
structure Sound (w : Watched) : Prop where
  alloc : ∀ key ref, w.st.registry.lookup key = some ref → ref < w.st.nextRef
  seat : ∀ conn seat, w.seats conn = some seat →
    w.st.registry.lookup (seat.appKey, seat.key) = some seat.ref ∧
      Owned (w.st.rooms seat.ref) seat.peerId conn

theorem Sound.of_same {w : Watched} {st' : Shared} (h : Sound w) (same : SameObjects w.st st') :
    Sound ⟨st', w.seats⟩ where
  alloc := by
    simp only [same.registry, same.nextRef]
    exact h.alloc
  seat := by
    simp only [same.registry, same.rooms]
    exact h.seat

/-- The other seats after a section that let nobody in: who is still seated is still a member. -/
theorem owned_withoutTaken {w : Watched} (h : Sound w) {ref : RoomRef} {room room' : Room}
    {conn : ConnId} {seat : Seat} (hs : withoutTaken ref room room' w.seats conn = some seat)
    (hroom : seat.ref = ref → Owned (w.st.rooms ref) seat.peerId conn →
      Owned room seat.peerId conn)
    (hsub : ∀ p i, room'.HasMember p i → room.HasMember p i) :
    w.st.registry.lookup (seat.appKey, seat.key) = some seat.ref ∧
      Owned (Function.update w.st.rooms ref room' seat.ref) seat.peerId conn := by
  obtain ⟨hs, hkeep⟩ := Option.filter_eq_some_iff.mp hs
  obtain ⟨hreg, howned⟩ := h.seat conn seat hs
  refine ⟨hreg, howned.update fun href howned => ?_⟩
  obtain ⟨hin, hall⟩ := hroom href howned
  have hstay : room'.inUse seat.peerId = true := by
    simpa [href, takenOut, inUse_iff.mpr hin] using hkeep
  exact ⟨inUse_iff.mp hstay, fun i hi => hall i (hsub _ i hi)⟩

theorem sound_join {w : Watched} (h : Sound w) {env : Env} {conn : ConnId} {hello : Hello}
    {code : RoomCode} {ref : RoomRef} {net' : Net} {pid : PeerId} {joined : ServerMessage}
    {room' : Room} (ha : Room.Admitted env conn code hello (w.st.rooms ref) [] room' net' pid joined)
    (hreg : w.st.refAt hello.appKey code = some ref) :
    ∀ c seat, Function.update w.seats conn (some ⟨hello.appKey, code.key, pid, ref⟩) c = some seat →
      w.st.registry.lookup (seat.appKey, seat.key) = some seat.ref ∧
        Owned (Function.update w.st.rooms ref room' seat.ref) seat.peerId c := by
  intro c seat hs
  have hnone : ∀ i, ¬ (w.st.rooms ref).HasMember pid i := by
    rintro i (hi | hi)
    · exact ha.fresh.1 (AList.mem_of_lookup hi)
    · exact ha.fresh.2 (AList.mem_of_lookup hi)
  by_cases hc : c = conn
  · subst hc
    rw [Function.update_self] at hs
    obtain rfl := Option.some.inj hs
    refine ⟨hreg, ?_⟩
    rw [Function.update_self]
    refine ⟨⟨_, ha.member⟩, fun i hi => ?_⟩
    rcases ha.hasMember hi with ⟨_, rfl⟩ | hi
    · rfl
    · exact absurd hi (hnone i)
  · rw [Function.update_of_ne hc] at hs
    obtain ⟨hreg', howned⟩ := h.seat c seat hs
    refine ⟨hreg', howned.update fun _ howned => howned.congr fun j => ?_⟩
    obtain ⟨i, hi⟩ := howned.1
    obtain ⟨hclients, hpending⟩ := ha.kept fun heq : pid = seat.peerId => hnone i (heq ▸ hi)
    rw [Room.HasMember, Room.HasMember, hclients, hpending]

theorem sound_removeIfEmpty {w : Watched} (h : Sound w) (appKey : String) (code : RoomCode)
    (conn : ConnId) (phase : Phase) :
    Sound ⟨(w.st.removeIfEmpty appKey code).setPhase conn phase, w.seats⟩ := by
  unfold removeIfEmpty
  split
  · rename_i ref href
    split_ifs with hempty
    · obtain ⟨_, hv⟩ := Bool.and_eq_true_iff.mp hempty
      refine ⟨fun key ref' hr => h.alloc key ref' (AList.lookup_erase_some.mp hr).2, ?_⟩
      intro c seat hs
      obtain ⟨hreg, hin, hall⟩ := h.seat c seat hs
      refine ⟨AList.lookup_erase_some.mpr ⟨fun hk => ?_, hreg⟩, hin, hall⟩
      -- nobody sits in the room that is removed
      rw [hk] at hreg
      obtain rfl : ref = seat.ref := Option.some.inj (href.symm.trans hreg)
      obtain ⟨i, hi⟩ := hin
      have hv := Room.isVacant_iff.mp hv
      rcases hi with hi | hi
      · exact hv.1 _ (AList.mem_of_lookup hi)
      · exact hv.2 _ (AList.mem_of_lookup hi)
    · exact h.of_same ⟨rfl, rfl, rfl⟩
  · exact h.of_same ⟨rfl, rfl, rfl⟩

theorem sound_getOrCreate {w : Watched} (h : Sound w) (env : Env) (conn : ConnId) (hello : Hello) :
    Sound ⟨w.st.getOrCreate env conn hello, w.seats⟩ := by
  rcases getOrCreate_cases env w.st conn hello with same | ⟨code, room, hfree, hrooms, hreg, hnext⟩
  · exact h.of_same same
  · refine ⟨?_, ?_⟩
    · simp only [hreg, hnext]
      intro key ref hr
      rcases AList.lookup_insert_some.mp hr with ⟨_, rfl⟩ | ⟨_, hr⟩
      · exact Nat.lt_succ_self _
      · exact Nat.lt_succ_of_lt (h.alloc key ref hr)
    · intro c seat hs
      obtain ⟨hreg', howned⟩ := h.seat c seat hs
      have hne : (seat.appKey, seat.key) ≠ (hello.appKey, code.key) := by
        intro hk
        rw [hk] at hreg'
        exact absurd (hfree.symm.trans hreg') (by simp)
      simp only [hreg, hrooms]
      refine ⟨AList.lookup_insert_some.mpr (.inr ⟨hne, hreg'⟩), ?_⟩
      rwa [Function.update_of_ne (h.alloc _ _ hreg').ne]

/-- The connection that leaves gives up its seat, and the entry that is removed is its own. -/
theorem sound_leave {w : Watched} (h : Sound w) (env : Env) {conn : ConnId} {s : Session}
    {ref : RoomRef} (hleaves : ∀ i, (w.st.rooms ref).HasMember s.peerId i → i.tx = conn) :
    ∀ c seat, Function.update (withoutTaken ref ((w.st.rooms ref).dropMember s.peerId)
        ((w.st.rooms ref).removePeer env s.peerId []).1 w.seats) conn none c = some seat →
      w.st.registry.lookup (seat.appKey, seat.key) = some seat.ref ∧
        Owned (Function.update w.st.rooms ref ((w.st.rooms ref).removePeer env s.peerId []).1
          seat.ref) seat.peerId c := by
  intro c seat hs
  by_cases hc : c = conn
  · subst hc
    rw [Function.update_self] at hs
    cases hs
  · rw [Function.update_of_ne hc] at hs
    refine owned_withoutTaken h hs (fun _ howned => howned.congr fun j => ?_)
      fun p i => ((w.st.rooms ref).removePeer_shrunkTo env s.peerId []).hasMember
    obtain ⟨⟨i, hi⟩, hall⟩ := howned
    have hne : seat.peerId ≠ s.peerId := by
      intro heq
      exact hc ((hall i hi).symm.trans (hleaves i (heq ▸ hi)))
    simp only [Room.HasMember, Room.dropMember_clients, Room.dropMember_pending,
      AList.lookup_erase_ne hne]

/-- What a timely step keeps. -/
theorem watch_sound {w : Watched} {t : Tick} (h : Sound w) (ht : Timely w t) : Sound (watch w t) := by
  obtain ⟨env, conn, event⟩ := t
  cases event with
  | some event =>
    have hseats : seatsAfter w ⟨env, conn, some event⟩ = w.seats := rfl
    rw [watch, hseats]
    simp only [tick]
    split
    · exact h.of_same (begin_same ..)
    · exact h.of_same (.rfl _)
    · contradiction
  | none =>
    have hstep : w.st.tick ⟨env, conn, none⟩ = w.st.proceed env conn := rfl
    rw [watch, hstep, proceed, seatsAfter]
    cases hphase : w.st.phase conn with
    | idle => exact h
    | entering hello => exact h.of_same (enter_same ..)
    | opening hello => exact sound_getOrCreate h env conn hello
    | inside ref emptied next => exact h.of_same (unlock_same ..)
    | removing appKey code next => exact sound_removeIfEmpty h appKey code conn _
    | joining hello code ref =>
      simp only [whenFree]
      split_ifs with hfree
      · rcases (w.st.rooms ref).admit_cases env conn code hello [] with
          ⟨_, n, message, _, ha⟩ | ⟨hno, room', net', pid, joined, ha, hadm⟩
        · -- the id may be spent, and the members are as before
          simp only [join, ha]
          refine ⟨h.alloc, fun c seat hs => ?_⟩
          obtain ⟨hreg, howned⟩ := h.seat c seat hs
          exact ⟨hreg, howned.update fun _ howned => howned⟩
        · have hreg := ht.joins hello code ref rfl hphase hfree hno
          simp only [join, ha]
          exact ⟨h.alloc, sound_join h hadm hreg⟩
      · exact h
    | leaving s ref next =>
      simp only [whenFree]
      split_ifs with hfree
      · exact ⟨h.alloc, sound_leave h env (ht.leaves s ref next rfl hphase hfree)⟩
      · exact h
    | acting o ref =>
      cases o with
      | none =>
        dsimp only [whenFree, act]
        split_ifs
        · refine ⟨h.alloc, fun c seat hs => ?_⟩
          obtain ⟨hreg, howned⟩ := h.seat c seat hs
          exact ⟨hreg, howned.update fun _ howned => howned⟩
        · exact h
      | some o =>
        dsimp only [whenFree, act]
        split_ifs
        · refine ⟨h.alloc, fun c seat hs => ?_⟩
          exact owned_withoutTaken h hs (fun _ ho => ho) fun p i => RoomOp.run_hasMember
        · exact h

/-- As long as every step is timely, whoever was answered with `Joined` and has not left or been
taken out is a member of the room that is registered under the code. -/
theorem joined_room_kept (w : Watched) (h : Reaches watch Timely .start w) (conn : ConnId)
    (seat : Seat) (hs : w.seats conn = some seat) : Kept w.st conn seat := by
  have hsound : Sound w := by
    refine h.invariant ⟨?_, ?_⟩ fun w t => watch_sound
    · intro key ref hr
      simp [Watched.start, Shared.start] at hr
    · rintro c seat ⟨⟩
  obtain ⟨hreg, ⟨i, hi⟩, hall⟩ := hsound.seat conn seat hs
  exact ⟨hreg, i, hi, hall i hi⟩

/-- A sufficient check of the guard. -/
def timely (w : Watched) (t : Tick) : Bool :=
  match w.st.phase t.conn with
  | .joining h code ref => w.st.refAt h.appKey code == some ref
  | .leaving s ref _ =>
    let room := w.st.rooms ref
    ((room.clients.lookup s.peerId).toList ++ (room.pending.lookup s.peerId).toList).all fun i =>
      i.tx == t.conn
  | _ => true

theorem timely_of_check {w : Watched} {t : Tick} (h : timely w t = true) : Timely w t := by
  constructor
  · intro hello code ref _ hphase _ _
    simpa [timely, hphase] using h
  · intro s ref next _ hphase _ i hi
    simp only [timely, hphase, List.all_eq_true, List.mem_append, Option.mem_toList,
      beq_iff_eq] at h
    exact h i hi

theorem reaches_of_check {ticks : List Tick} {w : Watched} (h : Reaches watch Timely .start w)
    (hc : Along watch (fun w t => timely w t = true) w ticks) :
    Reaches watch Timely .start (exec watch w ticks) := by
  induction ticks generalizing w with
  | nil => exact h
  | cons t ticks ih => exact ih (h.tail t (timely_of_check hc.1)) hc.2

/-- A room is created, and a second connection looks it up. -/
def approach : List Tick :=
  [begins 0 (plainHello "" "h"), goesOn 0, goesOn 0, goesOn 0, goesOn 0,
    begins 1 (plainHello "aaaaaa" "x"), goesOn 1, goesOn 1]

/-- The second connection gets the lock at once. -/
theorem punctual_kept : Kept (exec watch .start (approach ++ [goesOn 1])).st 1
    ⟨"pong", "aaaaaa", 2, 0⟩ := by
  refine joined_room_kept _ (reaches_of_check .refl ?_) 1 _ (by decide +kernel)
  exact ⟨by decide, by decide, by decide, by decide, by decide, by decide +kernel,
    by decide +kernel, by decide +kernel, by decide +kernel, trivial⟩

/-- The creator leaves, and removes the room, before the second connection gets the lock. -/
def race : List Tick :=
  approach ++ [begins 0 (.roomControl .leave), goesOn 0, goesOn 0, goesOn 0, goesOn 1, goesOn 1]

/-- It is let into a room nobody can find. -/
theorem joined_room_lost : ¬ ∀ w, Reaches watch (fun _ _ => True) .start w → ∀ conn seat,
    w.seats conn = some seat → Kept w.st conn seat := by
  intro hall
  have hreach : Reaches watch (fun _ _ => True) .start (exec watch .start race) := by
    refine Reaches.exec .refl ?_
    exact ⟨trivial, trivial, trivial, trivial, trivial, trivial, trivial, trivial, trivial, trivial,
      trivial, trivial, trivial, trivial, trivial⟩
  have hrun : ((exec watch .start race).seats 1).any (fun seat =>
      ((exec watch .start race).st.registry.lookup (seat.appKey, seat.key)).isNone) = true := by
    decide +kernel
  obtain ⟨seat, hs, hnone⟩ := (Option.any_eq_true ..).mp hrun
  have hkept := (hall _ hreach 1 seat hs).1
  rw [Option.isNone_iff_eq_none.mp hnone] at hkept
  cases hkept

end Roomie.JoinRaces
