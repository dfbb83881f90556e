import Roomie.RoomScans

/-!
# One event after another

The server with its rooms behind locks against the server whose actions are atomic. When
every event is carried to its end before the next one begins, the two go through the same
states: the same rooms under the same codes, the same sessions, the same cache. What is
proved of these in the atomic server holds in the finer one as long as events do not
overlap. The finer state has no messages: what is sent to whom is said of atomic actions only.
-/

namespace Roomie.SerialRuns
open HashTables GuardedRuns Shared

/-! ## Two views of one state -/

/-- Every pool is registered under the key of its app. -/
def Keyed (server : Server) : Prop :=
  ∀ appKey pool, server.registry.lookup appKey = some pool → pool.appKey = appKey

/-- The finer state is that of the atomic server with these sessions. -/
structure Mirrors (st : Shared) (server : Server) (session : ConnId → Option Session) : Prop where
  rooms : ∀ appKey key,
    server.roomAt appKey key = (st.registry.lookup (appKey, key)).map st.rooms
  cache : st.cache = server.cache
  counter : st.fallbackCounter = server.fallbackCounter
  session : st.session = session

/-- Only one connection is in the middle of an event, and it holds no lock. -/
structure At (st : Shared) (me : ConnId) (phase : Phase) (server : Server)
    (session : ConnId → Option Session) : Prop where
  latched : Latched st
  here : st.phase me = phase
  others : ∀ conn, conn ≠ me → st.phase conn = .idle
  locks : ∀ ref, st.holder ref = none
  mirrors : Mirrors st server session
  keyed : Keyed server

/-- The connection comes from one state to the other by steps of its own. -/
def Comes (env : Env) (me : ConnId) (st st' : Shared) : Prop :=
  ∃ n, (fun st => Shared.proceed env st me)^[n] st = st'

theorem Comes.refl {env : Env} {me : ConnId} (st : Shared) : Comes env me st st := ⟨0, rfl⟩

theorem Comes.step {env : Env} {me : ConnId} {st st' : Shared}
    (h : Comes env me (st.proceed env me) st') : Comes env me st st' := by
  obtain ⟨n, hn⟩ := h
  exact ⟨n + 1, hn⟩

theorem Comes.trans {env : Env} {me : ConnId} {st st' st'' : Shared} (h : Comes env me st st')
    (h' : Comes env me st' st'') : Comes env me st st'' := by
  obtain ⟨n, rfl⟩ := h
  obtain ⟨m, rfl⟩ := h'
  exact ⟨m + n, Function.iterate_add_apply _ m n st⟩

/-! ## The atomic server -/

section
variable {s s' : Server}

theorem Keyed.insert (h : Keyed s) {appKey : String} {pool : RoomPool} (hpool : pool.appKey = appKey)
    (cache : SettingsCache) (counter : UInt64) :
    Keyed ⟨s.registry.insert appKey pool, cache, counter⟩ := by
  intro appKey' pool' hlookup
  rcases AList.lookup_insert_some.mp hlookup with ⟨rfl, rfl⟩ | ⟨_, hlookup⟩
  · exact hpool
  · exact h appKey' pool' hlookup

theorem Keyed.setRoom (h : Keyed s) (appKey : String) (code : RoomCode) (room : Room) :
    Keyed (s.setRoom appKey code room) := by
  unfold Server.setRoom
  cases hpool : s.registry.lookup appKey with
  | none => exact h
  | some pool =>
    refine h.insert ?_ _ _
    exact h appKey pool hpool

theorem Keyed.removeIfEmpty (h : Keyed s) (appKey : String) (code : RoomCode) :
    Keyed (s.removeIfEmpty appKey code false) := by
  unfold Server.removeIfEmpty
  cases hpool : s.registry.lookup appKey with
  | none => exact h
  | some pool =>
    refine h.insert ?_ _ _
    rw [← h appKey pool hpool]
    unfold RoomPool.removeIfEmpty
    split
    · split_ifs <;> rfl
    · rfl

theorem removeIfEmpty_rest (s : Server) (appKey : String) (code : RoomCode) :
    (s.removeIfEmpty appKey code false).cache = s.cache ∧
      (s.removeIfEmpty appKey code false).fallbackCounter = s.fallbackCounter := by
  unfold Server.removeIfEmpty
  split <;> exact ⟨rfl, rfl⟩

end

/-! ## What changes one room -/

section
variable {st st' : Shared} {me : ConnId} {phase : Phase} {server server' : Server}
  {session session' : ConnId → Option Session}

/-- Two codes lead to two rooms. -/
theorem ref_unique (h : Latched st) {key key' : String × String} {ref : RoomRef}
    (hkey : st.registry.lookup key = some ref) (hkey' : st.registry.lookup key' = some ref) :
    key = key' :=
  (h.registered key ref hkey).2.symm.trans (h.registered key' ref hkey').2

/-- A registered room is replaced. -/
theorem Mirrors.put (h : Mirrors st server session) (hlatched : Latched st) {appKey key : String}
    {ref : RoomRef} {room : Room} (href : st.registry.lookup (appKey, key) = some ref)
    (hput : RoomPut server appKey key (some room) server')
    (hrest : server'.cache = server.cache ∧ server'.fallbackCounter = server.fallbackCounter)
    (hrooms : st'.rooms = Function.update st.rooms ref room)
    (hsame : st'.registry = st.registry ∧ st'.cache = st.cache ∧
      st'.fallbackCounter = st.fallbackCounter) : Mirrors st' server' st'.session := by
  refine ⟨fun appKey' key' => ?_, ?_, ?_, rfl⟩
  · rw [hsame.1, hrooms]
    by_cases hk : appKey' = appKey ∧ key' = key
    · obtain ⟨rfl, rfl⟩ := hk
      rw [hput.here, href, Option.map_some, Function.update_self]
    · rw [hput.elsewhere hk, h.rooms]
      cases hlookup : st.registry.lookup (appKey', key') with
      | none => rfl
      | some ref' =>
        have hne : ref' ≠ ref := by
          rintro rfl
          have heq := ref_unique hlatched hlookup href
          exact hk ⟨congrArg Prod.fst heq, congrArg Prod.snd heq⟩
        rw [Option.map_some, Option.map_some, Function.update_of_ne hne]
  · rw [hsame.2.1, hrest.1, h.cache]
  · rw [hsame.2.2, hrest.2, h.counter]

/-- A registered room is removed. -/
theorem Mirrors.erase (h : Mirrors st server session) {appKey key : String}
    (hput : RoomPut server appKey key none server')
    (hrest : server'.cache = server.cache ∧ server'.fallbackCounter = server.fallbackCounter)
    (hregistry : st'.registry = st.registry.erase (appKey, key))
    (hsame : st'.rooms = st.rooms ∧ st'.cache = st.cache ∧
      st'.fallbackCounter = st.fallbackCounter) : Mirrors st' server' st'.session := by
  refine ⟨fun appKey' key' => ?_, ?_, ?_, rfl⟩
  · rw [hregistry, hsame.1]
    by_cases hk : appKey' = appKey ∧ key' = key
    · obtain ⟨rfl, rfl⟩ := hk
      rw [hput.here, AList.lookup_erase]
      rfl
    · have hne : (appKey', key') ≠ (appKey, key) :=
        fun heq => hk ⟨congrArg Prod.fst heq, congrArg Prod.snd heq⟩
      rw [hput.elsewhere hk, h.rooms, AList.lookup_erase_ne hne]
  · rw [hsame.2.1, hrest.1, h.cache]
  · rw [hsame.2.2, hrest.2, h.counter]

/-! ## Sections -/

/-- A section that leaves `room` behind is run, and the lock is given back. -/
theorem At.locked (h : At st me phase server session) {env : Env} {ref : RoomRef} {room : Room}
    {appKey key : String} {emptied : Option (String × RoomCode)} {next : Option Hello}
    (href : st.registry.lookup (appKey, key) = some ref)
    (hput : RoomPut server appKey key (some room) server')
    (hrest : server'.cache = server.cache ∧ server'.fallbackCounter = server.fallbackCounter)
    (hkeyed : Keyed server') (hlock : Latched st')
    (hrooms : st'.rooms = Function.update st.rooms ref room)
    (hsame : st'.registry = st.registry ∧ st'.cache = st.cache ∧
      st'.fallbackCounter = st.fallbackCounter)
    (hholder : st'.holder = Function.update st.holder ref (some me))
    (hprivate : Private st st' me) (hin : st'.phase me = .inside ref emptied next) :
    At (st'.proceed env me) me
      (emptied.elim (afterLeave next) fun e => .removing e.1 e.2 next) server' st'.session := by
  have hmirrors := h.mirrors.put h.latched href hput hrest hrooms hsame
  have hunlock : st'.proceed env me = st'.unlock me ref emptied next := by
    rw [Shared.proceed, hin]
  have hlatched := hlock.proceed env me
  rw [hunlock] at hlatched ⊢
  have hlocks : ∀ ref', Function.update st'.holder ref none ref' = none := by
    intro ref'
    by_cases hr : ref' = ref
    · rw [hr, Function.update_self]
    · rw [Function.update_of_ne hr, hholder, Function.update_of_ne hr]
      exact h.locks ref'
  have hothers : ∀ conn, conn ≠ me → st'.phase conn = .idle :=
    fun conn hne => (hprivate conn hne).2.trans (h.others conn hne)
  cases emptied with
  | none =>
    exact ⟨hlatched, Function.update_self .., fun conn hne => (Function.update_of_ne hne ..).trans
      (hothers conn hne), hlocks, ⟨hmirrors.rooms, hmirrors.cache, hmirrors.counter, rfl⟩, hkeyed⟩
  | some e =>
    exact ⟨hlatched, Function.update_self .., fun conn hne => (Function.update_of_ne hne ..).trans
      (hothers conn hne), hlocks, ⟨hmirrors.rooms, hmirrors.cache, hmirrors.counter, rfl⟩, hkeyed⟩

/-- What the finer state says of a room that is looked up. -/
theorem At.roomAt (h : At st me phase server session) {appKey key : String} {ref : RoomRef}
    (href : st.registry.lookup (appKey, key) = some ref) :
    server.roomAt appKey key = some (st.rooms ref) := by
  rw [h.mirrors.rooms, href]
  rfl

theorem At.found (h : At st me phase server session) {appKey : String} {code : RoomCode}
    {room : Room} (hroom : server.roomAt appKey code.key = some room) :
    ∃ ref, st.refAt appKey code = some ref ∧ st.rooms ref = room := by
  rw [h.mirrors.rooms] at hroom
  exact Option.map_eq_some_iff.mp hroom

/-- Who waits for a lock gets it, when no lock is held. -/
theorem At.whenFree (h : At st me phase server session) (ref : RoomRef) (st' : Shared) :
    st.whenFree ref st' = st' := if_pos (h.locks ref)

/-- A section of a message other than `Hello` and `Leave`. -/
theorem act_comes (env : Env) {o : Option RoomOp} {ref : RoomRef} {s : Session}
    (h : At st me (.acting o ref) server session)
    (href : st.refAt s.appKey s.roomCode = some ref) :
    ∃ st', Comes env me st st' ∧ At st' me .idle
      (server.setRoom s.appKey s.roomCode (o.elim (st.rooms ref) fun o =>
        (o.run env (st.rooms ref) []).1)) session := by
  have hproceed : st.proceed env me = st.act env me o ref := by
    rw [Shared.proceed, h.here]
    exact h.whenFree ref _
  have hlatched := h.latched.proceed env me
  have hprivate := proceed_private env st me
  rw [hproceed] at hlatched hprivate
  generalize hroom : (o.elim (st.rooms ref) fun o => (o.run env (st.rooms ref) []).1) = room
  have hsession : (st.act env me o ref).session = session := by
    rw [← h.mirrors.session]
    cases o <;> rfl
  have hafter : At ((st.act env me o ref).proceed env me) me (afterLeave none)
      (server.setRoom s.appKey s.roomCode room) (st.act env me o ref).session := by
    have hput := Server.roomPut_setRoom (h.roomAt href) room
    refine h.locked href hput (Server.setRoom_rest ..) (h.keyed.setRoom _ _ _) hlatched ?_ ?_ ?_ hprivate
      (show (st.act env me o ref).phase me = .inside ref none none from ?_)
    · subst hroom
      cases o <;> rfl
    · cases o <;> exact ⟨rfl, rfl, rfl⟩
    · cases o <;> rfl
    · cases o <;> exact Function.update_self ..
  rw [hsession] at hafter
  refine ⟨_, .step (.step (.refl _)), ?_⟩
  rw [hproceed]
  exact hafter

/-- `remove_if_empty` of a vacant room. -/
theorem remove_comes (env : Env) {appKey : String} {code : RoomCode} {ref : RoomRef}
    {next : Option Hello} (h : At st me (.removing appKey code next) server session)
    (href : st.refAt appKey code = some ref) (hvacant : (st.rooms ref).isVacant = true) :
    ∃ st', Comes env me st st' ∧
      At st' me (afterLeave next) (server.removeIfEmpty appKey code false) session := by
  have hlatched := h.latched.proceed env me
  have hproceed : st.proceed env me =
      { st with registry := st.registry.erase (appKey, code.key) }.setPhase me (afterLeave next) := by
    rw [Shared.proceed, h.here]
    simp only [removeIfEmpty, href, h.locks ref, hvacant, Option.isNone_none, Bool.true_and, if_true]
  rw [hproceed] at hlatched
  refine ⟨_, .step (.refl _), ?_⟩
  rw [hproceed]
  have hput := Server.roomPut_removeIfEmpty (h.roomAt href) hvacant
  have hmirrors : Mirrors
      ({ st with registry := st.registry.erase (appKey, code.key) }.setPhase me (afterLeave next))
      (server.removeIfEmpty appKey code false) st.session :=
    h.mirrors.erase hput (removeIfEmpty_rest ..) rfl ⟨rfl, rfl, rfl⟩
  refine ⟨hlatched, Function.update_self .., fun conn hne => ?_, h.locks, ?_,
    h.keyed.removeIfEmpty _ _⟩
  · exact (Function.update_of_ne hne ..).trans (h.others conn hne)
  · exact h.mirrors.session ▸ hmirrors

/-- `leave_room`, up to what follows it. -/
theorem leave_comes (env : Env) {s : Session} {ref : RoomRef} {next : Option Hello}
    (h : At st me (.leaving s ref next) server session)
    (href : st.refAt s.appKey s.roomCode = some ref) :
    ∃ st', Comes env me st st' ∧ At st' me (afterLeave next)
      (leaveRoom env server s.appKey s.roomCode s.peerId []).1 session := by
  have hproceed : st.proceed env me = st.leave env me s ref next := by
    rw [Shared.proceed, h.here]
    exact h.whenFree ref _
  have hlatched := h.latched.proceed env me
  have hprivate := proceed_private env st me
  rw [hproceed] at hlatched hprivate
  have hlookup : server.lookupRoom s.appKey s.roomCode = some (st.rooms ref) := h.roomAt href
  generalize hroom : ((st.rooms ref).removePeer env s.peerId []).1 = room
  have hafter : At ((st.leave env me s ref next).proceed env me) me
      ((if room.isVacant then some (s.appKey, s.roomCode) else none).elim (afterLeave next)
        fun e => .removing e.1 e.2 next)
      (server.setRoom s.appKey s.roomCode room) session := by
    have hput := Server.roomPut_setRoom (h.roomAt href) room
    rw [← h.mirrors.session]
    subst hroom
    exact h.locked href hput (Server.setRoom_rest ..) (h.keyed.setRoom _ _ _) hlatched rfl
      ⟨rfl, rfl, rfl⟩ rfl hprivate (Function.update_self ..)
  have hcomes : Comes env me st ((st.leave env me s ref next).proceed env me) := by
    refine .step (.step ?_)
    rw [hproceed]
    exact .refl _
  by_cases hvacant : room.isVacant = true
  · have hleave : (leaveRoom env server s.appKey s.roomCode s.peerId []).1 =
        (server.setRoom s.appKey s.roomCode room).removeIfEmpty s.appKey s.roomCode false := by
      simp only [leaveRoom, hlookup, hroom, hvacant, if_true]
    rw [if_pos hvacant] at hafter
    -- the room is found again where it was
    obtain ⟨ref', href', hvacant'⟩ := hafter.found (Server.roomPut_setRoom (h.roomAt href) room).here
    obtain ⟨st', hcomes', hat⟩ := remove_comes env hafter href' (hvacant' ▸ hvacant)
    rw [hleave]
    exact ⟨st', hcomes.trans hcomes', hat⟩
  · have hleave : (leaveRoom env server s.appKey s.roomCode s.peerId []).1 =
        server.setRoom s.appKey s.roomCode room := by
      simp only [leaveRoom, hlookup, hroom, hvacant, if_false, Bool.false_eq_true]
    rw [if_neg hvacant] at hafter
    rw [hleave]
    exact ⟨_, hcomes, hafter⟩

/-- The admission does not depend on what was sent before. -/
theorem admitPeer_net (env : Env) (conn : ConnId) (code : RoomCode) (h : Hello) (room : Room)
    (net : Net) : (room.admitPeer env conn code h net).1 = (room.admitPeer env conn code h []).1 ∧
      (room.admitPeer env conn code h net).2.2 = (room.admitPeer env conn code h []).2.2 := by
  unfold Room.admitPeer
  split_ifs
  · exact ⟨rfl, rfl⟩
  · exact ⟨rfl, rfl⟩
  · exact ⟨rfl, rfl⟩
  · split <;> exact ⟨rfl, rfl⟩

/-- The session after an admission, or without one. -/
def joinedSession (appKey : String) (code : RoomCode) :
    Except String (PeerId × ServerMessage) → Option Session
  | .ok (pid, _) => some ⟨appKey, code, pid⟩
  | .error _ => none

/-- The section of a `Hello`. -/
theorem join_comes (env : Env) {hello : Hello} {code : RoomCode} {ref : RoomRef}
    (h : At st me (.joining hello code ref) server session) (hnone : session me = none)
    (href : st.refAt hello.appKey code = some ref) :
    ∃ st', Comes env me st st' ∧ At st' me .idle
      (server.setRoom hello.appKey code ((st.rooms ref).admitPeer env me code hello []).1)
      (Function.update session me (joinedSession hello.appKey code
        ((st.rooms ref).admitPeer env me code hello []).2.2)) := by
  have hproceed : st.proceed env me = st.join env me hello code ref := by
    rw [Shared.proceed, h.here]
    exact h.whenFree ref _
  have hlatched := h.latched.proceed env me
  have hprivate := proceed_private env st me
  rw [hproceed] at hlatched hprivate
  have hput := Server.roomPut_setRoom (h.roomAt href)
    ((st.rooms ref).admitPeer env me code hello []).1
  have hafter : At ((st.join env me hello code ref).proceed env me) me (afterLeave none)
      (server.setRoom hello.appKey code ((st.rooms ref).admitPeer env me code hello []).1)
      (st.join env me hello code ref).session := by
    refine h.locked href hput (Server.setRoom_rest ..) (h.keyed.setRoom _ _ _) hlatched ?_ ?_ ?_ hprivate
      (show (st.join env me hello code ref).phase me = .inside ref none none from ?_)
    all_goals
      unfold join
      dsimp only
      cases ((st.rooms ref).admitPeer env me code hello []).2.2 <;>
        first | rfl | exact ⟨rfl, rfl, rfl⟩ | exact Function.update_self ..
  have hsession : (st.join env me hello code ref).session = Function.update session me
      (joinedSession hello.appKey code ((st.rooms ref).admitPeer env me code hello []).2.2) := by
    rw [← h.mirrors.session]
    unfold join
    dsimp only
    cases ((st.rooms ref).admitPeer env me code hello []).2.2 with
    | ok joined => rfl
    | error message =>
      rw [← h.mirrors.session] at hnone
      exact (Function.update_eq_self_iff.mpr hnone.symm).symm
  rw [hsession] at hafter
  refine ⟨_, .step (.step (.refl _)), ?_⟩
  rw [hproceed]
  exact hafter

/-! ## `Hello` -/

/-- The checks before any room is touched depend on the cache only. -/
theorem gate_same {s s' : Server} (hcache : s.cache = s'.cache) (env : Env) (hello : Hello) :
    (helloGate env s hello).map Server.cache = (helloGate env s' hello).map Server.cache := by
  have hensure : ∀ (s : Server) appKey, (s.ensurePool appKey).cache = s.cache := by
    intro s appKey
    unfold Server.ensurePool
    split_ifs <;> rfl
  unfold helloGate
  rw [hcache]
  cases hello.validate with
  | error message => rfl
  | ok u =>
    dsimp only
    split_ifs
    · rfl
    · refine congrArg Except.ok ?_
      rw [hensure, hensure]
    · rfl

theorem helloGate_rest {s s' : Server} {env : Env} {hello : Hello}
    (hgate : helloGate env s hello = .ok s') (hkeyed : Keyed s) :
    s'.fallbackCounter = s.fallbackCounter ∧ Keyed s' ∧
      ∃ pool, s'.registry.lookup hello.appKey = some pool := by
  unfold helloGate at hgate
  cases hvalid : hello.validate with
  | error message => simp [hvalid] at hgate
  | ok u =>
    simp only [hvalid] at hgate
    split_ifs at hgate
    obtain rfl := Except.ok.inj hgate
    unfold Server.ensurePool
    split_ifs with hmem
    · exact ⟨rfl, hkeyed, AList.mem_iff_lookup.mp hmem⟩
    · refine ⟨rfl, ?_, _, AList.lookup_insert _⟩
      refine hkeyed.insert ?_ _ _
      rfl

/-- Nothing depends on what was sent when the old room was left. -/
theorem dispatchHello_left (env : Env) (s : Server) (old : Option Session) (conn : ConnId)
    (hello : Hello) : (dispatchHello env s old conn hello).server =
        (dispatchHello env (leaveSession env s old []).1 none conn hello).server ∧
      (dispatchHello env s old conn hello).session =
        (dispatchHello env (leaveSession env s old []).1 none conn hello).session := by
  generalize hleft : leaveSession env s old [] = left
  obtain ⟨s', net⟩ := left
  unfold dispatchHello
  rw [hleft]
  dsimp only [leaveSession]
  cases helloGate env s' hello with
  | error message => exact ⟨rfl, rfl⟩
  | ok s₁ =>
    dsimp only
    rcases openRoom env s₁ hello with ⟨s₂, message | ⟨code, room⟩⟩
    · exact ⟨rfl, rfl⟩
    · obtain ⟨hroom, hanswer⟩ := admitPeer_net env conn code hello room net
      dsimp only
      rw [hroom, hanswer]
      cases (room.admitPeer env conn code hello []).2.2 <;> exact ⟨rfl, rfl⟩

/-- A room is created under a code that is free. -/
theorem Mirrors.create (h : Mirrors st server session) (hlatched : Latched st)
    {appKey key : String} {room : Room} (hput : RoomPut server appKey key (some room) server')
    (hrooms : st'.rooms = Function.update st.rooms st.nextRef room)
    (hregistry : st'.registry = st.registry.insert (appKey, key) st.nextRef)
    (hcache : st'.cache = server'.cache) (hcounter : st'.fallbackCounter = server'.fallbackCounter) :
    Mirrors st' server' st'.session := by
  refine ⟨fun appKey' key' => ?_, hcache, hcounter, rfl⟩
  rw [hregistry, hrooms]
  by_cases hk : appKey' = appKey ∧ key' = key
  · obtain ⟨rfl, rfl⟩ := hk
    rw [hput.here, AList.lookup_insert, Option.map_some, Function.update_self]
  · have hne : (appKey', key') ≠ (appKey, key) :=
      fun heq => hk ⟨congrArg Prod.fst heq, congrArg Prod.snd heq⟩
    rw [hput.elsewhere hk, h.rooms, AList.lookup_insert_ne hne]
    cases hlookup : st.registry.lookup (appKey', key') with
    | none => rfl
    | some ref =>
      have hlt := (hlatched.registered _ ref hlookup).1
      rw [Option.map_some, Option.map_some, Function.update_of_ne hlt.ne]

/-- The finer server finds the code free exactly when the atomic one does. -/
theorem Mirrors.free (h : Mirrors st server session) {appKey : String} {pool : RoomPool}
    (hpool : server.registry.lookup appKey = some pool) :
    (fun code => (st.refAt appKey code).isNone) = fun code => (pool.getRoom code).isNone := by
  funext code
  have hroom := h.rooms appKey code.key
  rw [Server.roomAt, hpool] at hroom
  rw [Shared.refAt, RoomPool.getRoom, show pool.rooms.lookup code.key = _ from hroom,
    Option.isNone_map]

/-- What a `Hello` comes to once its room has been found or created, or neither. -/
def received (env : Env) (conn : ConnId) (hello : Hello) :
    Server × Except String (RoomCode × Room) → Outcome
  | (server, .error message) => ⟨server, none, [], [.error message]⟩
  | (server, .ok (code, room)) =>
    let (room, net, answer) := room.admitPeer env conn code hello []
    ⟨server.setRoom hello.appKey code room, joinedSession hello.appKey code answer, net,
      match answer with
      | .error message => [.error message]
      | .ok (_, joined) => [joined]⟩

theorem dispatchHello_none (env : Env) (s : Server) (conn : ConnId) (hello : Hello) :
    dispatchHello env s none conn hello = match helloGate env s hello with
      | .error message => ⟨s, none, [], [.error message]⟩
      | .ok s₁ => received env conn hello (openRoom env s₁ hello) := by
  unfold dispatchHello
  dsimp only [leaveSession]
  cases helloGate env s hello with
  | error message => rfl
  | ok s₁ =>
    dsimp only
    rcases openRoom env s₁ hello with ⟨s₂, message | ⟨code, room⟩⟩
    · rfl
    · dsimp only [received]
      cases (room.admitPeer env conn code hello []).2.2 <;> rfl

/-- A `Hello` whose room has been found or created. -/
theorem open_comes {env : Env} {hello : Hello} {s₁ : Server} {code : RoomCode} {ref : RoomRef}
    (h : At (st.proceed env me) me (.joining hello code ref) server' session)
    (href : (st.proceed env me).refAt hello.appKey code = some ref)
    (hopen : openRoom env s₁ hello = (server', .ok (code, (st.proceed env me).rooms ref)))
    (hnone : session me = none) : ∃ st', Comes env me st st' ∧
      At st' me .idle (received env me hello (openRoom env s₁ hello)).server
        (Function.update session me (received env me hello (openRoom env s₁ hello)).session) := by
  obtain ⟨st', hcomes, hat⟩ := join_comes env h hnone href
  rw [hopen]
  exact ⟨st', hcomes.step, hat⟩

/-- The `Hello` ends without a room; at most the cache and the counter have changed. -/
theorem At.refused (h : At st me phase server session) {env : Env}
    (hrooms : SameRooms server server') (hkeyed : Keyed server')
    (hproceed : st.proceed env me = { st with
      cache := server'.cache
      fallbackCounter := server'.fallbackCounter }.setPhase me .idle) :
    At (st.proceed env me) me .idle server' session := by
  have hlatched := h.latched.proceed env me
  rw [hproceed] at hlatched ⊢
  refine ⟨hlatched, Function.update_self .., fun conn hne => ?_, h.locks, ?_, hkeyed⟩
  · exact (Function.update_of_ne hne ..).trans (h.others conn hne)
  · exact ⟨fun appKey key => (hrooms appKey key).trans (h.mirrors.rooms appKey key), rfl, rfl,
      h.mirrors.session⟩

/-- The connection turns to something else. -/
theorem At.rephase (h : At st me phase server session) (phase' : Phase) :
    At (st.setPhase me phase') me phase' server session := by
  refine ⟨⟨h.latched.registered, fun ref conn hheld => ?_⟩, Function.update_self ..,
    fun conn hne => (Function.update_of_ne hne ..).trans (h.others conn hne), h.locks, ?_, h.keyed⟩
  · cases (h.locks ref).symm.trans hheld
  · exact ⟨h.mirrors.rooms, h.mirrors.cache, h.mirrors.counter, h.mirrors.session⟩

/-- A `Hello` with an empty code that has passed the checks. -/
theorem create_comes {env : Env} {hello : Hello} (h : At st me (.opening hello) server session)
    (hnone : session me = none) {pool : RoomPool}
    (hpool : server.registry.lookup hello.appKey = some pool)
    (hempty : hello.roomCode.str.isEmpty = true) : ∃ st', Comes env me st st' ∧
      At st' me .idle (received env me hello (openRoom env server hello)).server
        (Function.update session me (received env me hello (openRoom env server hello)).session) := by
  have hcount : server.fallbackCounter = st.fallbackCounter := h.mirrors.counter.symm
  generalize hdefault : defaultRoomSettingsForApp env.disk server.cache hello.appKey = default
  obtain ⟨settings, cache⟩ := default
  have hcodes := createRoom_freshCode env pool st.fallbackCounter settings
  rw [← h.mirrors.free hpool] at hcodes
  have hproceed : st.proceed env me = st.getOrCreate env me hello := by
    rw [Shared.proceed, h.here]
  simp only [Shared.getOrCreate, h.mirrors.cache, hempty, if_true, hdefault] at hproceed
  rw [← hcodes] at hproceed
  generalize hcreated : pool.createRoom env st.fallbackCounter settings "" = created at *
  obtain ⟨_ | ⟨code, room, pool'⟩, counter⟩ := created
  · have hopen : openRoom env server hello =
        (⟨server.registry, cache, counter⟩, .error "failed to create room") := by
      simp only [openRoom, hpool, hempty, if_true, hdefault, hcount, hcreated]
    have hsame : Function.update session me none = session :=
      Function.update_eq_self_iff.mpr hnone.symm
    have hat : At (st.proceed env me) me .idle ⟨server.registry, cache, counter⟩ session :=
      h.refused (fun _ _ => rfl) h.keyed hproceed
    refine ⟨_, .step (.refl _), ?_⟩
    rw [hopen]
    exact hsame.symm ▸ hat
  · have hopen : openRoom env server hello =
        (⟨server.registry.insert hello.appKey pool', cache, counter⟩, .ok (code, room)) := by
      simp only [openRoom, hpool, hempty, if_true, hdefault, hcount, hcreated]
    have hspec := RoomPool.createRoom_some (congrArg Prod.fst hcreated)
    have hroom := hspec.room_eq
    rw [h.keyed _ _ hpool] at hroom
    dsimp only [Option.map_some] at hproceed
    have hlatched := h.latched.proceed env me
    have hnow : (st.proceed env me).rooms st.nextRef = room := by
      rw [hproceed, hroom]
      exact Function.update_self ..
    have hcreate : Mirrors (st.proceed env me)
        ⟨server.registry.insert hello.appKey pool', cache, counter⟩ (st.proceed env me).session := by
      refine h.mirrors.create h.latched (openRoom_ok hopen).put ?_ ?_ ?_ ?_
      all_goals rw [hproceed, ← hroom]
    have hsession : (st.proceed env me).session = session := by
      rw [hproceed]
      exact h.mirrors.session
    have hat : At (st.proceed env me) me (.joining hello code st.nextRef)
        ⟨server.registry.insert hello.appKey pool', cache, counter⟩ session := by
      refine ⟨hlatched, ?_, fun conn hne => ?_, ?_, hsession ▸ hcreate, h.keyed.insert ?_ _ _⟩
      · rw [hproceed]
        exact Function.update_self ..
      · rw [hproceed]
        exact (Function.update_of_ne hne ..).trans (h.others conn hne)
      · rw [hproceed]
        exact h.locks
      · rw [hspec.pool_eq]
        exact h.keyed hello.appKey pool hpool
    refine open_comes hat ?_ (hnow.symm ▸ hopen) hnone
    rw [hproceed]
    exact AList.lookup_insert _

/-- A `Hello` with a code that has passed the checks. -/
theorem lookup_comes {env : Env} {hello : Hello} (h : At st me (.opening hello) server session)
    (hnone : session me = none) {pool : RoomPool}
    (hpool : server.registry.lookup hello.appKey = some pool)
    (hgiven : ¬ hello.roomCode.str.isEmpty = true) : ∃ st', Comes env me st st' ∧
      At st' me .idle (received env me hello (openRoom env server hello)).server
        (Function.update session me (received env me hello (openRoom env server hello)).session) := by
  have hfound := h.mirrors.rooms hello.appKey hello.roomCode.key
  rw [Server.roomAt, hpool] at hfound
  have hproceed : st.proceed env me = st.getOrCreate env me hello := by
    rw [Shared.proceed, h.here]
  simp only [Shared.getOrCreate, hgiven, Bool.false_eq_true, if_false] at hproceed
  cases href : st.refAt hello.appKey hello.roomCode with
  | none =>
    have hopen : openRoom env server hello = (server, .error "room not found") := by
      have hnoroom : pool.getRoom hello.roomCode = none := hfound.trans (congrArg _ href)
      simp only [openRoom, hpool, hgiven, Bool.false_eq_true, if_false, hnoroom]
    have hsame : Function.update session me none = session :=
      Function.update_eq_self_iff.mpr hnone.symm
    have hidle : At (st.proceed env me) me .idle server session := by
      refine h.refused (fun _ _ => rfl) h.keyed ?_
      rw [hproceed, href, ← h.mirrors.cache, ← h.mirrors.counter]
    refine ⟨_, .step (.refl _), ?_⟩
    rw [hopen]
    exact hsame.symm ▸ hidle
  | some ref =>
    rw [href] at hproceed
    have hopen : openRoom env server hello = (server, .ok (hello.roomCode, st.rooms ref)) := by
      have hroom : pool.getRoom hello.roomCode = some (st.rooms ref) :=
        hfound.trans (congrArg _ href)
      simp only [openRoom, hpool, hgiven, Bool.false_eq_true, if_false, hroom]
    have hjoining : At (st.proceed env me) me (.joining hello hello.roomCode ref) server session :=
      hproceed ▸ h.rephase _
    refine open_comes hjoining ?_ ?_ hnone
    · rw [hproceed]
      exact href
    · rw [hproceed]
      exact hopen

/-- A `Hello` that has left its old room. -/
theorem enter_comes (env : Env) {hello : Hello}
    (h : At st me (.entering hello) server session) (hnone : session me = none) :
    ∃ st', Comes env me st st' ∧ At st' me .idle (dispatchHello env server none me hello).server
      (Function.update session me (dispatchHello env server none me hello).session) := by
  have hsame : Function.update session me none = session :=
    Function.update_eq_self_iff.mpr hnone.symm
  have hgates : (helloGate env server hello).map Server.cache =
      (helloGate env ⟨∅, st.cache, st.fallbackCounter⟩ hello).map Server.cache :=
    gate_same h.mirrors.cache.symm env hello
  have hproceed : st.proceed env me = st.enter env me hello := by
    rw [Shared.proceed, h.here]
  rw [dispatchHello_none]
  cases hgate : helloGate env server hello with
  | error message =>
    cases hfiner : helloGate env ⟨∅, st.cache, st.fallbackCounter⟩ hello with
    | ok checked =>
      rw [hgate, hfiner] at hgates
      cases hgates
    | error text =>
      have hrefuse : st.proceed env me = { st with
          cache := server.cache
          fallbackCounter := server.fallbackCounter }.setPhase me .idle := by
        rw [hproceed, Shared.enter, hfiner, ← h.mirrors.cache, ← h.mirrors.counter]
      have hat : At (st.proceed env me) me .idle server session :=
        h.refused (fun _ _ => rfl) h.keyed hrefuse
      exact ⟨_, .step (.refl _), hsame.symm ▸ hat⟩
  | ok s₁ =>
    cases hfiner : helloGate env ⟨∅, st.cache, st.fallbackCounter⟩ hello with
    | error text =>
      rw [hgate, hfiner] at hgates
      cases hgates
    | ok checked =>
      rw [hgate, hfiner] at hgates
      have hcache : checked.cache = s₁.cache := (Except.ok.inj hgates).symm
      have hrooms := (helloGate_ok hgate).2
      obtain ⟨hcounter, hkeyed, pool, hpool⟩ := helloGate_rest hgate h.keyed
      have hopening : At (st.proceed env me) me (.opening hello) s₁ session := by
        have hlatched := h.latched.proceed env me
        rw [hproceed, Shared.enter, hfiner] at hlatched ⊢
        refine ⟨hlatched, Function.update_self .., fun conn hne => ?_, h.locks, ?_, hkeyed⟩
        · exact (Function.update_of_ne hne ..).trans (h.others conn hne)
        · exact ⟨fun appKey key => (hrooms appKey key).trans (h.mirrors.rooms appKey key), hcache,
            h.mirrors.counter.trans hcounter.symm, h.mirrors.session⟩
      have hopens : ∃ st', Comes env me (st.proceed env me) st' ∧
          At st' me .idle (received env me hello (openRoom env s₁ hello)).server
            (Function.update session me (received env me hello (openRoom env s₁ hello)).session) := by
        by_cases hempty : hello.roomCode.str.isEmpty = true
        · exact create_comes hopening hnone hpool hempty
        · exact lookup_comes hopening hnone hpool hempty
      obtain ⟨st', hcomes, hat⟩ := hopens
      exact ⟨st', hcomes.step, hat⟩

/-! ## Whole events -/

/-- Nobody is in the middle of an event, so any connection may be the next one. -/
theorem At.turn (h : At st me .idle server session) (me' : ConnId) :
    At st me' .idle server session := by
  have hidle : ∀ conn, st.phase conn = .idle := by
    intro conn
    by_cases hne : conn = me
    · exact hne ▸ h.here
    · exact h.others conn hne
  exact ⟨h.latched, hidle me', fun conn _ => hidle conn, h.locks, h.mirrors, h.keyed⟩

/-- Its session is taken. -/
theorem At.taken (h : At st me phase server session) :
    At (st.setSession me none) me phase server (Function.update session me none) := by
  have hsession : (st.setSession me none).session = Function.update session me none := by
    rw [← h.mirrors.session]
    rfl
  exact ⟨⟨h.latched.registered, h.latched.holders⟩, h.here, h.others, h.locks,
    ⟨h.mirrors.rooms, h.mirrors.cache, h.mirrors.counter, hsession⟩, h.keyed⟩

/-- The event is carried to what the atomic action leaves behind. -/
def Carried (env : Env) (me : ConnId) (event : ConnEvent) (st : Shared)
    (session : ConnId → Option Session) (o : Outcome) : Prop :=
  ∃ st', Comes env me (st.begin me event) st' ∧
    At st' me .idle o.server (Function.update session me o.session)

/-- An event that changes neither the rooms nor the session. -/
theorem At.unchanged (h : At st me .idle server session) {env : Env} {event : ConnEvent}
    {o : Outcome} (hbegin : st.begin me event = st) (hserver : o.server = server)
    (hsession : o.session = session me) : Carried env me event st session o := by
  have hkeep : Function.update session me (session me) = session := Function.update_eq_self me session
  refine ⟨st, hbegin.symm ▸ .refl st, ?_⟩
  rw [hserver, hsession, hkeep]
  exact h

/-- A message for the room of the session runs its section, if there is such a room. -/
theorem section_comes (h : At st me .idle server session) {env : Env} {msg : ClientMessage}
    (o : PeerId → Option RoomOp) (f : Session → Room → Net → Room × Net × List ServerMessage)
    (hbegin : st.begin me (.message msg) = st.beginAct me o)
    (hin : ∀ s, dispatch env server (some s) me msg = inRoom server s (f s))
    (hout : (dispatch env server none me msg).server = server ∧
      (dispatch env server none me msg).session = none)
    (hrun : ∀ s room, (f s room []).1 = (o s.peerId).elim room fun o => (o.run env room []).1) :
    Carried env me (.message msg) st session (dispatch env server (session me) me msg) := by
  have hhere : st.session me = session me := congrFun h.mirrors.session me
  cases hs : session me with
  | none =>
    refine h.unchanged ?_ hout.1 (hout.2.trans hs.symm)
    rw [hbegin, beginAct, hhere, hs]
  | some s =>
    rw [hin]
    cases href : st.refAt s.appKey s.roomCode with
    | none =>
      have hroom : server.roomAt s.appKey s.roomCode.key = none := by
        rw [h.mirrors.rooms]
        exact congrArg _ href
      rw [inRoom_none hroom]
      refine h.unchanged ?_ rfl hs.symm
      rw [hbegin, beginAct, hhere, hs]
      dsimp only
      rw [href]
    | some ref =>
      have hacting : st.begin me (.message msg) = st.setPhase me (.acting (o s.peerId) ref) := by
        rw [hbegin, beginAct, hhere, hs]
        dsimp only
        rw [href]
      have hkeep : Function.update session me (some s) = session :=
        Function.update_eq_self_iff.mpr hs.symm
      obtain ⟨st', hcomes, hat⟩ := act_comes env (h.rephase (.acting (o s.peerId) ref)) href
      rw [inRoom_some (h.roomAt href), hrun]
      exact ⟨st', hacting.symm ▸ hcomes, hkeep.symm ▸ hat⟩

/-- `session.take()` and `leave_room`. -/
theorem beginLeave_comes (env : Env) (h : At st me .idle server session) (next : Option Hello) :
    ∃ st', Comes env me (st.beginLeave me next) st' ∧ At st' me (afterLeave next)
      (leaveSession env server (session me) []).1 (Function.update session me none) := by
  have hhere : st.session me = session me := congrFun h.mirrors.session me
  unfold beginLeave
  rw [hhere]
  cases hs : session me with
  | none =>
    have hkeep : Function.update session me none = session :=
      Function.update_eq_self_iff.mpr hs.symm
    exact ⟨_, .refl _, hkeep.symm ▸ h.rephase (afterLeave next)⟩
  | some s =>
    dsimp only
    cases href : (st.setSession me none).refAt s.appKey s.roomCode with
    | none =>
      have hroom : server.roomAt s.appKey s.roomCode.key = none := by
        rw [h.mirrors.rooms]
        exact congrArg _ href
      have hleave : (leaveSession env server (some s) []).1 = server :=
        congrArg Prod.fst (leaveRoom_none hroom)
      rw [hleave]
      exact ⟨_, .refl _, h.taken.rephase (afterLeave next)⟩
    | some ref => exact leave_comes env (h.taken.rephase (.leaving s ref next)) href

/-- `Leave` is a command like the others, but not one of the host. -/
theorem leave_carried (env : Env) (h : At st me .idle server session) :
    Carried env me (.message (.roomControl .leave)) st session
      (dispatch env server (session me) me (.roomControl .leave)) := by
  have hcomes := beginLeave_comes env h none
  cases hs : session me with
  | none =>
    rw [hs] at hcomes
    exact hcomes
  | some s =>
    rw [hs] at hcomes
    exact hcomes

/-- Every message but a request for the list of rooms. -/
theorem message_carried (env : Env) (h : At st me .idle server session) {msg : ClientMessage}
    (hmsg : ∀ appKey, msg ≠ .listRooms appKey) :
    Carried env me (.message msg) st session (dispatch env server (session me) me msg) := by
  cases msg with
  | hello hello =>
    obtain ⟨hserver, hsession⟩ := dispatchHello_left env server (session me) me hello
    obtain ⟨st', hcomes, hat⟩ := beginLeave_comes env h (some hello)
    obtain ⟨st'', hcomes', hat'⟩ := enter_comes env hat (Function.update_self ..)
    refine ⟨st'', hcomes.trans hcomes', ?_⟩
    rw [Function.update_idem] at hat'
    dsimp only [dispatch]
    rw [hserver, hsession]
    exact hat'
  | move blob =>
    exact section_comes h (fun pid => some (.move pid blob))
      (fun s room net => room.move env s.peerId blob net)
      rfl (fun _ => rfl) ⟨rfl, rfl⟩ fun _ _ => rfl
  | input blob =>
    exact section_comes h (fun _ => none)
      (fun s room net => (room, room.input env s.peerId blob net, [])) rfl (fun _ => rfl)
      ⟨rfl, rfl⟩ fun _ _ => rfl
  | requestState =>
    exact section_comes h (fun _ => none) (fun _ room net => (room, net, room.requestState)) rfl
      (fun _ => rfl) ⟨rfl, rfl⟩ fun _ _ => rfl
  | roomControl rc =>
    by_cases hleave : rc = .leave
    · subst hleave
      exact leave_carried env h
    by_cases hcreate : ∃ settings, rc = .createRoom settings
    · obtain ⟨settings, rfl⟩ := hcreate
      refine h.unchanged rfl ?_ ?_ <;> cases session me <;> rfl
    refine section_comes h (fun pid => some (.control pid rc))
      (fun s room net => room.control env s.peerId rc net) ?_ (fun s => ?_) ⟨rfl, rfl⟩
      fun _ _ => rfl
    · cases rc <;> first | rfl | exact absurd rfl hleave | exact absurd ⟨_, rfl⟩ hcreate
    · cases rc <;> first | rfl | exact absurd rfl hleave | exact absurd ⟨_, rfl⟩ hcreate
  | ping => exact h.unchanged rfl rfl rfl
  | listRooms appKey => exact absurd rfl (hmsg appKey)

/-- Every event but a request for the list of rooms. -/
theorem event_carried (env : Env) (h : At st me .idle server session) {event : ConnEvent}
    (hevent : ∀ appKey, event ≠ .message (.listRooms appKey)) :
    Carried env me event st session (Action.outcome ⟨env, me, event⟩ ⟨server, session⟩) := by
  cases event with
  | disconnect => exact beginLeave_comes env h none
  | message msg =>
    refine message_carried env h fun appKey heq => ?_
    exact hevent appKey (congrArg _ heq)

end

end Roomie.SerialRuns
