import Roomie.ServerRuns

/-!
# Rooms behind locks

The finer view of the server. A room is an object of its own, the registry maps codes to
references to such objects, and a connection works in several steps: after its checks it
looks a room up and keeps the reference, later locks the room and runs its section, unlocks
it, and after a leave that found the room empty tries to remove the room. Steps of different
connections may come in any order between these.
-/

namespace Roomie
open HashTables GuardedRuns

/-- A shared reference to a room. -/
abbrev RoomRef := ℕ

/-- What a connection is about to do. -/
inductive Phase where
  | idle
  /-- The old session is left; the checks of `Hello` come next. -/
  | entering (h : Hello)
  /-- The checks are passed; a room is to be looked up or created in the pool of the app. -/
  | opening (h : Hello)
  /-- `Hello` has a reference to its room and waits for the lock. -/
  | joining (h : Hello) (code : RoomCode) (ref : RoomRef)
  /-- `leave_room` has a reference and waits for the lock; `next` is the `Hello` it is part of. -/
  | leaving (s : Session) (ref : RoomRef) (next : Option Hello)
  /-- Another message has a reference and waits for the lock; without an operation it only reads. -/
  | acting (o : Option RoomOp) (ref : RoomRef)
  /-- The lock is held, its section is done. -/
  | inside (ref : RoomRef) (emptied : Option (String × RoomCode)) (next : Option Hello)
  /-- `leave_room` found the room empty and is about to call `remove_if_empty`. -/
  | removing (appKey : String) (code : RoomCode) (next : Option Hello)

/-- The state of all connections; the rooms of all apps are registered in one table. -/
structure Shared where
  rooms : RoomRef → Room
  nextRef : RoomRef
  registry : Table (String × String) RoomRef
  cache : SettingsCache
  fallbackCounter : UInt64
  holder : RoomRef → Option ConnId
  session : ConnId → Option Session
  phase : ConnId → Phase

/-- The room under a code, as an object. -/
def Shared.refAt (st : Shared) (appKey : String) (code : RoomCode) : Option RoomRef :=
  st.registry.lookup (appKey, code.key)

def Shared.start : Shared where
  rooms _ := Room.new "" ⟨""⟩ RoomSettings.default
  nextRef := 0
  registry := ∅
  cache := ∅
  fallbackCounter := 0
  holder _ := none
  session _ := none
  phase _ := .idle

/-- The loop of `create_room` and the code after it: the first random code that is free, else
the next fallback code if that one is. -/
def freshCode (env : Env) (free : RoomCode → Bool) (counter : UInt64) : Option RoomCode × UInt64 :=
  match ((List.range roomCodeGenRetries).map fun n => RoomPool.randomCode (env.draws n)).find? free with
  | some code => (some code, counter)
  | none =>
    let code := RoomPool.fallbackCode counter
    (if free code then some code else none, counter + 1)

theorem tryInsertNewRoom_fst (pool : RoomPool) (code : RoomCode) (settings : RoomSettings) :
    (pool.tryInsertNewRoom code settings).map Prod.fst =
      if (pool.getRoom code).isNone then some code else none := by
  unfold RoomPool.tryInsertNewRoom RoomPool.getRoom
  cases pool.rooms.lookup code.key <;> simp

theorem tryRandomCodes_fst (env : Env) (pool : RoomPool) (settings : RoomSettings)
    (attempts : List ℕ) : (pool.tryRandomCodes env settings attempts).map Prod.fst =
      (attempts.map fun n => RoomPool.randomCode (env.draws n)).find? fun code =>
        (pool.getRoom code).isNone := by
  induction attempts with
  | nil => rfl
  | cons n rest ih =>
    have hn := tryInsertNewRoom_fst pool (RoomPool.randomCode (env.draws n)) settings
    rw [RoomPool.tryRandomCodes, List.map_cons, List.find?_cons]
    split_ifs at hn with hfree
    · obtain ⟨result, hresult, hcode⟩ := Option.map_eq_some_iff.mp hn
      simp [hfree, hresult, hcode]
    · simp [hfree, Option.map_eq_none_iff.mp hn, ih]

/-- The code is the one the atomic `create_room` takes. -/
theorem createRoom_freshCode (env : Env) (pool : RoomPool) (n : UInt64) (settings : RoomSettings) :
    ((pool.createRoom env n settings "").1.map Prod.fst, (pool.createRoom env n settings "").2) =
      freshCode env (fun code => (pool.getRoom code).isNone) n := by
  have hcodes := tryRandomCodes_fst env pool settings (List.range roomCodeGenRetries)
  have hempty : (!"".isEmpty) = false := by decide
  unfold freshCode
  rw [RoomPool.createRoom, hempty, ← hcodes]
  cases pool.tryRandomCodes env settings (List.range roomCodeGenRetries) with
  | some result => rfl
  | none => simp [tryInsertNewRoom_fst]

theorem freshCode_free {env : Env} {free : RoomCode → Bool} {n n' : UInt64} {code : RoomCode}
    (h : freshCode env free n = (some code, n')) : free code = true := by
  unfold freshCode at h
  split at h
  · rename_i code' hfind
    obtain ⟨h, _⟩ := Prod.mk.inj h
    exact Option.some.inj h ▸ List.find?_some hfind
  · obtain ⟨h, _⟩ := Prod.mk.inj h
    split_ifs at h with hfree
    exact Option.some.inj h ▸ hfree

/-- The codes whose entries `create_room` asks for: those that are taken, and the one it tries
last. -/
def triedCodes (env : Env) (free : RoomCode → Bool) (counter : UInt64) : List RoomCode :=
  let codes := (List.range roomCodeGenRetries).map fun n => RoomPool.randomCode (env.draws n)
  codes.takeWhile (fun code => !free code) ++
    [(codes.find? free).getD (RoomPool.fallbackCode counter)]

theorem freshCode_tried {env : Env} {free : RoomCode → Bool} {n n' : UInt64} {code : RoomCode}
    (h : freshCode env free n = (some code, n')) : code ∈ triedCodes env free n := by
  refine List.mem_append_right _ (List.mem_singleton.mpr ?_)
  unfold freshCode at h
  split at h
  · rename_i code' hfind
    rw [hfind]
    exact (Option.some.inj (Prod.mk.inj h).1).symm
  · rename_i hfind
    obtain ⟨h, _⟩ := Prod.mk.inj h
    split_ifs at h
    rw [hfind]
    exact (Option.some.inj h).symm

/-- One step of one connection: the begin of an event, or the next step of the one that has begun. -/
structure Tick where
  env : Env
  conn : ConnId
  event : Option ConnEvent

def begins (conn : ConnId) (msg : ClientMessage) : Tick := ⟨.quiet, conn, some (.message msg)⟩

def goesOn (conn : ConnId) : Tick := ⟨.quiet, conn, none⟩

namespace Shared

def setPhase (st : Shared) (conn : ConnId) (phase : Phase) : Shared :=
  { st with phase := Function.update st.phase conn phase }

def setSession (st : Shared) (conn : ConnId) (session : Option Session) : Shared :=
  { st with session := Function.update st.session conn session }

/-- After `leave_room`. -/
def afterLeave : Option Hello → Phase
  | some h => .entering h
  | none => .idle

/-- `session.take()`, then the lookup of `leave_room`. -/
def beginLeave (st : Shared) (conn : ConnId) (next : Option Hello) : Shared :=
  match st.session conn with
  | some s =>
    let st := st.setSession conn none
    match st.refAt s.appKey s.roomCode with
    | some ref => st.setPhase conn (.leaving s ref next)
    | none => st.setPhase conn (afterLeave next)
  | none => st.setPhase conn (afterLeave next)

/-- The lookup of a message for the room of the session. -/
def beginAct (st : Shared) (conn : ConnId) (o : PeerId → Option RoomOp) : Shared :=
  match st.session conn with
  | some s =>
    match st.refAt s.appKey s.roomCode with
    | some ref => st.setPhase conn (.acting (o s.peerId) ref)
    | none => st
  | none => st

/-- An idle connection receives a message or is closed. The list of rooms is made under the
locks of the registry and is not followed here. -/
def begin (st : Shared) (conn : ConnId) : ConnEvent → Shared
  | .message (.hello h) => st.beginLeave conn (some h)
  | .message (.roomControl .leave) | .disconnect => st.beginLeave conn none
  | .message (.roomControl (.createRoom _)) => st
  | .message (.roomControl rc) => st.beginAct conn fun pid => some (.control pid rc)
  | .message (.move blob) => st.beginAct conn fun pid => some (.move pid blob)
  | .message (.input _) | .message .requestState => st.beginAct conn fun _ => none
  | .message .ping | .message (.listRooms _) => st

/-- The checks of `Hello`. -/
def enter (env : Env) (st : Shared) (conn : ConnId) (h : Hello) : Shared :=
  match helloGate env ⟨∅, st.cache, st.fallbackCounter⟩ h with
  | .error _ => st.setPhase conn .idle
  | .ok checked => { st with cache := checked.cache }.setPhase conn (.opening h)

/-- The lookup of the room of a `Hello`, or its creation; the attempts of the loop of
`create_room` are made in one go. -/
def getOrCreate (env : Env) (st : Shared) (conn : ConnId) (h : Hello) : Shared :=
  if h.roomCode.str.isEmpty then
    let (settings, cache) := defaultRoomSettingsForApp env.disk st.cache h.appKey
    let (code, counter) :=
      freshCode env (fun code => (st.refAt h.appKey code).isNone) st.fallbackCounter
    let st := { st with cache := cache, fallbackCounter := counter }
    match code with
    | some code =>
      { st with
        rooms := Function.update st.rooms st.nextRef (Room.new h.appKey code settings)
        nextRef := st.nextRef + 1
        registry := st.registry.insert (h.appKey, code.key) st.nextRef
        phase := Function.update st.phase conn (.joining h code st.nextRef) }
    | none => st.setPhase conn .idle
  else match st.refAt h.appKey h.roomCode with
    | some ref => st.setPhase conn (.joining h h.roomCode ref)
    | none => st.setPhase conn .idle

/-- A section leaves `room` behind and still holds the lock. -/
def lock (st : Shared) (conn : ConnId) (ref : RoomRef) (room : Room)
    (emptied : Option (String × RoomCode)) (next : Option Hello) : Shared :=
  { st with
    rooms := Function.update st.rooms ref room
    holder := Function.update st.holder ref (some conn)
    phase := Function.update st.phase conn (.inside ref emptied next) }

def join (env : Env) (st : Shared) (conn : ConnId) (h : Hello) (code : RoomCode) (ref : RoomRef) :
    Shared :=
  let (room, _, answer) := (st.rooms ref).admitPeer env conn code h []
  let st := st.lock conn ref room none none
  match answer with
  | .ok (pid, _) => st.setSession conn (some ⟨h.appKey, code, pid⟩)
  | .error _ => st

def leave (env : Env) (st : Shared) (conn : ConnId) (s : Session) (ref : RoomRef)
    (next : Option Hello) : Shared :=
  let room := ((st.rooms ref).removePeer env s.peerId []).1
  st.lock conn ref room (if room.isVacant then some (s.appKey, s.roomCode) else none) next

def act (env : Env) (st : Shared) (conn : ConnId) (o : Option RoomOp) (ref : RoomRef) : Shared :=
  match o with
  | some o => st.lock conn ref (o.run env (st.rooms ref) []).1 none none
  | none => st.lock conn ref (st.rooms ref) none none

def unlock (st : Shared) (conn : ConnId) (ref : RoomRef) (emptied : Option (String × RoomCode))
    (next : Option Hello) : Shared :=
  let st := { st with holder := Function.update st.holder ref none }
  match emptied with
  | some (appKey, code) => st.setPhase conn (.removing appKey code next)
  | none => st.setPhase conn (afterLeave next)

/-- `remove_if_empty`: `try_lock` fails while somebody holds the lock. -/
def removeIfEmpty (st : Shared) (appKey : String) (code : RoomCode) : Shared :=
  match st.refAt appKey code with
  | some ref =>
    if (st.holder ref).isNone && (st.rooms ref).isVacant then
      { st with registry := st.registry.erase (appKey, code.key) }
    else st
  | none => st

/-- Wait while somebody holds the lock. -/
def whenFree (st : Shared) (ref : RoomRef) (st' : Shared) : Shared :=
  if st.holder ref = none then st' else st

def proceed (env : Env) (st : Shared) (conn : ConnId) : Shared :=
  match st.phase conn with
  | .idle => st
  | .entering h => st.enter env conn h
  | .opening h => st.getOrCreate env conn h
  | .joining h code ref => st.whenFree ref (st.join env conn h code ref)
  | .leaving s ref next => st.whenFree ref (st.leave env conn s ref next)
  | .acting o ref => st.whenFree ref (st.act env conn o ref)
  | .inside ref emptied next => st.unlock conn ref emptied next
  | .removing appKey code next =>
    (st.removeIfEmpty appKey code).setPhase conn (afterLeave next)

/-- An event begins only when the one before is done. -/
def tick (st : Shared) (t : Tick) : Shared :=
  match t.event, st.phase t.conn with
  | some event, .idle => st.begin t.conn event
  | some _, _ => st
  | none, _ => st.proceed t.env t.conn

/-! ## A step leaves the other connections alone -/

/-- Another connection has its session and its phase as before. -/
def Private (st st' : Shared) (me : ConnId) : Prop :=
  ∀ conn, conn ≠ me → st'.session conn = st.session conn ∧ st'.phase conn = st.phase conn

theorem private_of_updates {st st' : Shared} {me : ConnId} {session : Option Session}
    {phase : Phase} (hs : st'.session = Function.update st.session me session)
    (hp : st'.phase = Function.update st.phase me phase) : Private st st' me := by
  intro conn hne
  rw [hs, hp, Function.update_of_ne hne, Function.update_of_ne hne]
  exact ⟨rfl, rfl⟩

theorem private_of_phase {st st' : Shared} {me : ConnId} {phase : Phase}
    (hs : st'.session = st.session) (hp : st'.phase = Function.update st.phase me phase) :
    Private st st' me := by
  intro conn hne
  rw [hs, hp, Function.update_of_ne hne]
  exact ⟨rfl, rfl⟩

theorem private_refl (st : Shared) (me : ConnId) : Private st st me := fun _ _ => ⟨rfl, rfl⟩

theorem begin_private (st : Shared) (me : ConnId) (event : ConnEvent) :
    Private st (st.begin me event) me := by
  have hleave : ∀ next, Private st (st.beginLeave me next) me := by
    intro next
    unfold beginLeave
    split
    · dsimp only
      split <;> exact private_of_updates rfl rfl
    · exact private_of_phase rfl rfl
  have hact : ∀ o, Private st (st.beginAct me o) me := by
    intro o
    unfold beginAct
    split
    · split
      · exact private_of_phase rfl rfl
      · exact private_refl st me
    · exact private_refl st me
  unfold Shared.begin
  split <;> first | exact hleave _ | exact hact _ | exact private_refl st me

theorem enter_private (env : Env) (st : Shared) (me : ConnId) (h : Hello) :
    Private st (st.enter env me h) me := by
  unfold enter
  split <;> exact private_of_phase rfl rfl

theorem getOrCreate_private (env : Env) (st : Shared) (me : ConnId) (h : Hello) :
    Private st (st.getOrCreate env me h) me := by
  unfold getOrCreate
  dsimp only
  split_ifs <;> split <;> exact private_of_phase rfl rfl

theorem proceed_private (env : Env) (st : Shared) (me : ConnId) :
    Private st (st.proceed env me) me := by
  have hfree : ∀ (ref : RoomRef) (st' : Shared), Private st st' me →
      Private st (st.whenFree ref st') me := by
    intro ref st' h
    unfold whenFree
    split_ifs
    · exact h
    · exact private_refl st me
  unfold proceed
  split
  · exact private_refl st me
  · exact enter_private env st me _
  · exact getOrCreate_private env st me _
  · refine hfree _ _ ?_
    unfold join
    dsimp only
    split
    · exact private_of_updates rfl rfl
    · exact private_of_phase rfl rfl
  · exact hfree _ _ (private_of_phase rfl rfl)
  · refine hfree _ _ ?_
    unfold act
    split <;> exact private_of_phase rfl rfl
  · unfold unlock
    dsimp only
    split <;> exact private_of_phase rfl rfl
  · unfold removeIfEmpty
    split
    · split_ifs <;> exact private_of_phase rfl rfl
    · exact private_of_phase rfl rfl

theorem tick_private (st : Shared) (t : Tick) : Private st (st.tick t) t.conn := by
  unfold tick
  split
  · exact begin_private st t.conn _
  · exact private_refl st t.conn
  · exact proceed_private t.env st t.conn

/-- A connection that takes no step keeps its session and its phase. -/
theorem exec_private {ticks : List Tick} {conn : ConnId} (h : ∀ t ∈ ticks, t.conn ≠ conn)
    (st : Shared) : (exec tick st ticks).session conn = st.session conn ∧
      (exec tick st ticks).phase conn = st.phase conn := by
  induction ticks generalizing st with
  | nil => exact ⟨rfl, rfl⟩
  | cons t ticks ih =>
    obtain ⟨ht, hrest⟩ := List.forall_mem_cons.mp h
    obtain ⟨hs, hp⟩ := tick_private st t conn ht.symm
    obtain ⟨hs', hp'⟩ := ih hrest (st.tick t)
    exact ⟨hs'.trans hs, hp'.trans hp⟩

end Shared
end Roomie
