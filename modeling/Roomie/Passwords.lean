import Roomie.SentMessages

/-!
# Room passwords

No message carries a password. Beyond that the password of a room matters only to those who
try to enter this very room: two servers that differ in it alone answer every other message
alike and differ in it alone afterwards.
-/

namespace Roomie.Passwords
open HashTables GuardedRuns

/-! ## No password is sent -/

/-- No settings in the message have a password. -/
def WithoutPassword : ServerMessage → Prop
  | .joined _ _ _ _ settings _ => settings.password = none
  | .roomList rooms => ∀ entry ∈ rooms, entry.settings.password = none
  | .roomEvent (.settingsChanged settings) => settings.password = none
  | _ => True

theorem told_withoutPassword {room : Room} {o : RoomOp} {m : ServerMessage}
    (h : o.Tells room m) : WithoutPassword m := by
  cases h with
  | settings pid settings => exact settings.withoutPassword_password
  | _ => trivial

theorem emitted_withoutPassword {sys : Sys} {a : Action} {m : ServerMessage}
    (h : Emitted sys a m) : WithoutPassword m := by
  cases h with
  | told _ _ tells => exact told_withoutPassword tells
  | joined _ _ _ admitted _ =>
    rw [admitted.joined_eq]
    exact RoomSettings.withoutPassword_password _
  | rooms _ _ _ =>
    intro entry he
    obtain ⟨e, _, he⟩ := List.mem_filterMap.mp he
    exact RoomPool.listEntry_password he
  | noRooms => simp [WithoutPassword]
  | _ => trivial

/-! ## Sections that do not look at the password -/

/-- The room with another password, or with none. -/
def setPassword (room : Room) (w : Option String) : Room :=
  { room with settings := { room.settings with password := w } }

section
variable (env : Env) (w : Option String)

/-- A removal that leaves the settings alone. -/
def KeepsSettings (drop : Room → PeerId → Room) : Prop :=
  ∀ room w pid, drop (setPassword room w) pid = setPassword (drop room pid) w

theorem removeDead_setPassword {drop : Room → PeerId → Room} (hd : KeepsSettings drop)
    (dead : List PeerId) (room : Room) (newHost : Option PeerId) :
    removeDead env drop dead (setPassword room w) newHost =
      (setPassword (removeDead env drop dead room newHost).1 w,
        (removeDead env drop dead room newHost).2) := by
  induction dead generalizing room newHost with
  | nil => rfl
  | cons pid rest ih =>
    have hhost : (setPassword (drop room pid) w).hostPeerId = (drop room pid).hostPeerId := rfl
    have hclients : (setPassword (drop room pid) w).clients = (drop room pid).clients := rfl
    simp only [removeDead, hd room w pid, hhost, hclients]
    split_ifs
    · exact ih { drop room pid with hostPeerId := _ } _
    · exact ih _ _

/-- Where a broadcast stands, the password replaced. -/
def broadcastWith (b : Broadcast) : Broadcast := { b with room := setPassword b.room w }

theorem retainConnected_setPassword {drop : Room → PeerId → Room} (hd : KeepsSettings drop)
    (audience : List (PeerId × ClientInfo)) (room : Room) (msg : ServerMessage) (net : Net) :
    retainConnected env audience drop (setPassword room w) msg net =
      broadcastWith w (retainConnected env audience drop room msg net) := by
  simp only [retainConnected, removeDead_setPassword env w hd]
  rfl

theorem broadcastRetainConnected_setPassword (room : Room) (msg : ServerMessage) (net : Net) :
    broadcastRetainConnected env (setPassword room w) msg net =
      broadcastWith w (broadcastRetainConnected env room msg net) :=
  retainConnected_setPassword env w (fun _ _ _ => rfl) _ room msg net

theorem announceLeft_setPassword (dead : List PeerId) (b : Broadcast) :
    announceLeft env dead (broadcastWith w b) = broadcastWith w (announceLeft env dead b) := by
  induction dead generalizing b with
  | nil => rfl
  | cons pid rest ih =>
    have hb := broadcastRetainConnected_setPassword env w b.room (.peerLeft pid) b.net
    have hroom : (broadcastWith w b).room = setPassword b.room w := rfl
    have hnet : (broadcastWith w b).net = b.net := rfl
    simp only [announceLeft, hroom, hnet, hb]
    generalize broadcastRetainConnected env b.room (.peerLeft pid) b.net = c
    exact ih ⟨c.room, c.net, b.dead ++ c.dead, c.newHost.or b.newHost⟩

theorem pruneLoop_setPassword (fuel : ℕ) (b : Broadcast) :
    pruneLoop env fuel (broadcastWith w b) = broadcastWith w (pruneLoop env fuel b) := by
  induction fuel generalizing b with
  | zero => rfl
  | succ fuel ih =>
    have hdead : (broadcastWith w b).dead = b.dead := rfl
    simp only [pruneLoop, hdead]
    split_ifs
    · rfl
    · have hann := announceLeft_setPassword env w b.dead { b with dead := [] }
      exact (congrArg (pruneLoop env fuel) hann).trans (ih _)

theorem prune_setPassword (b : Broadcast) :
    prune env (broadcastWith w b) = (setPassword (prune env b).1 w, (prune env b).2) := by
  have hloop := pruneLoop_setPassword env w (b.room.clients.size + 1) b
  have hsize : (broadcastWith w b).room.clients.size = b.room.clients.size := rfl
  simp only [prune, hsize, hloop]
  generalize pruneLoop env (b.room.clients.size + 1) b = c
  have hhost : (broadcastWith w c).newHost = c.newHost := rfl
  rw [hhost]
  cases c.newHost with
  | none => rfl
  | some newHost =>
    have hb := broadcastRetainConnected_setPassword env w c.room
      (.roomEvent (.hostTransferred newHost)) c.net
    exact congrArg (fun b : Broadcast => (b.room, b.net)) hb

theorem broadcastAndPrune_setPassword (room : Room) (msg : ServerMessage) (net : Net) :
    broadcastAndPrune env (setPassword room w) msg net =
      (setPassword (broadcastAndPrune env room msg net).1 w,
        (broadcastAndPrune env room msg net).2) :=
  (congrArg (prune env) (broadcastRetainConnected_setPassword env w room msg net)).trans
    (prune_setPassword env w _)

theorem broadcastStateUpdateAndPrune_setPassword (room : Room) (net : Net) :
    broadcastStateUpdateAndPrune env (setPassword room w) net =
      (setPassword (broadcastStateUpdateAndPrune env room net).1 w,
        (broadcastStateUpdateAndPrune env room net).2) :=
  (congrArg (prune env) (retainConnected_setPassword env w (fun _ _ _ => rfl) _ room _ net)).trans
    (prune_setPassword env w _)

theorem removePeer_setPassword (pid : PeerId) (room : Room) (net : Net) :
    (setPassword room w).removePeer env pid net =
      (setPassword (room.removePeer env pid net).1 w, (room.removePeer env pid net).2) := by
  have hb := broadcastAndPrune_setPassword env w (room.dropMember pid) (.peerLeft pid) net
  have hdrop : (setPassword room w).dropMember pid = setPassword (room.dropMember pid) w := rfl
  simp only [Room.removePeer, hdrop, hb]
  generalize (broadcastAndPrune env (room.dropMember pid) (.peerLeft pid) net).1 = mid
  have hhost : (setPassword mid w).hostPeerId = mid.hostPeerId := rfl
  have hclients : (setPassword mid w).clients = mid.clients := rfl
  simp only [hhost, hclients]
  split_ifs
  · cases mid.clients.firstKey env.peers with
    | none => rfl
    | some newHost =>
      exact broadcastAndPrune_setPassword env w { mid with hostPeerId := newHost }
        (.roomEvent (.hostTransferred newHost)) _
  · rfl

theorem expel_setPassword {event : RoomEvent} {mark : Room → ClientInfo → Room}
    (hm : ∀ room info, mark (setPassword room w) info = setPassword (mark room info) w)
    (pid : PeerId) (room : Room) (net : Net) :
    (setPassword room w).expel env event mark pid net =
      (setPassword (room.expel env event mark pid net).1 w,
        (room.expel env event mark pid net).2) := by
  cases h : room.clients.lookup pid with
  | none =>
    rw [Room.expel_none h, @Room.expel_none _ _ _ _ (setPassword room w) _ h]
    exact broadcastAndPrune_setPassword env w room _ _
  | some info =>
    have hdrop : (setPassword room w).dropClient pid = setPassword (room.dropClient pid) w := rfl
    rw [Room.expel_some h, @Room.expel_some _ _ _ _ (setPassword room w) _ _ h, hdrop, hm]
    exact broadcastAndPrune_setPassword env w _ _ _

/-- A command leaves rooms that differ in the password alone, and sends the same. -/
theorem command_setPassword (rc : RoomControl) (room : Room) (net : Net) :
    ∃ w', (setPassword room w).command env rc net =
      (setPassword (room.command env rc net).1 w', (room.command env rc net).2) := by
  have hclients : (setPassword room w).clients = room.clients := rfl
  have hpending : (setPassword room w).pending = room.pending := rfl
  cases rc with
  | createRoom settings => exact ⟨w, rfl⟩
  | leave => exact ⟨w, rfl⟩
  | setPublic isPublic => exact ⟨w, rfl⟩
  | updateSettings settings =>
    refine ⟨settings.password, ?_⟩
    exact broadcastAndPrune_setPassword env settings.password { room with settings := settings } _ net
  | acceptPeer target =>
    refine ⟨w, ?_⟩
    simp only [Room.command, Room.acceptPeer, hpending]
    cases room.pending.lookup target with
    | none => rfl
    | some info =>
      exact broadcastAndPrune_setPassword env w { room with
        pending := room.pending.erase target, clients := room.clients.insert target info } _ net
  | denyPeer target =>
    refine ⟨w, ?_⟩
    simp only [Room.command, Room.denyPeer, hpending]
    cases room.pending.lookup target <;> rfl
  | kick target =>
    simp only [Room.command, Room.kick]
    exact ⟨w, expel_setPassword env w (fun _ _ => rfl) target room net⟩
  | ban target =>
    simp only [Room.command, Room.ban]
    exact ⟨w, expel_setPassword env w (fun _ _ => rfl) target room net⟩
  | transferHost target =>
    refine ⟨w, ?_⟩
    simp only [Room.command, Room.transferHost, hclients]
    split_ifs
    · exact broadcastAndPrune_setPassword env w { room with hostPeerId := target } _ net
    · rfl

end

/-- A section under the lock for which the password makes no difference but to itself. -/
def Blind (f : Room → Net → Room × Net × List ServerMessage) : Prop :=
  ∀ room w, ∃ w', f (setPassword room w) [] = (setPassword (f room []).1 w', (f room []).2)

theorem blind_control (env : Env) (pid : PeerId) (rc : RoomControl) :
    Blind fun room net => room.control env pid rc net := by
  intro room w
  obtain ⟨w', h⟩ := command_setPassword env w rc room []
  have hhost : (setPassword room w).hostPeerId = room.hostPeerId := rfl
  simp only [Room.control, hhost]
  split_ifs
  · exact ⟨w', by simp only [h]⟩
  · exact ⟨w, rfl⟩

theorem blind_move (env : Env) (pid : PeerId) (blob : Blob) :
    Blind fun room net => room.move env pid blob net := by
  intro room w
  refine ⟨w, ?_⟩
  have hhost : (setPassword room w).hostPeerId = room.hostPeerId := rfl
  have hallowed : (setPassword room w).moveAllowed = room.moveAllowed := rfl
  have hmin : (setPassword room w).settings.minPlayers = room.settings.minPlayers := rfl
  have hb := broadcastStateUpdateAndPrune_setPassword env w { room with state := blob } []
  simp only [Room.move, hhost, hallowed, hmin]
  split_ifs
  · rfl
  · rfl
  · exact congrArg (fun x : Room × Net => (x.1, x.2, [ServerMessage.moveAccepted])) hb

theorem blind_input (env : Env) (pid : PeerId) (blob : Blob) :
    Blind fun room net => (room, room.input env pid blob net, []) := fun _ w => ⟨w, rfl⟩

theorem blind_requestState : Blind fun room net => (room, net, room.requestState) :=
  fun _ w => ⟨w, rfl⟩

/-! ## Servers that differ in one password -/

/-- The rooms are the same, or found under the code in question and differ in the password. -/
def RoomAlike (app code appKey key : String) (room room' : Room) : Prop :=
  room' = room ∨ (appKey = app ∧ key = code) ∧ ∃ w, room' = setPassword room w

def PoolAlike (app code appKey : String) (pool pool' : RoomPool) : Prop :=
  pool'.appKey = pool.appKey ∧ AList.Related (RoomAlike app code appKey) pool.rooms pool'.rooms

/-- The servers differ at most in the password of the room of `app` under the key `code`. -/
structure Alike (app code : String) (s s' : Server) : Prop where
  registry : AList.Related (PoolAlike app code) s.registry s'.registry
  cache : s'.cache = s.cache
  counter : s'.fallbackCounter = s.fallbackCounter

/-- A `Hello` for the room of `app` under the key `code`. -/
def NamesRoom (app code : String) : ClientMessage → Prop
  | .hello h => h.roomCode.str.isEmpty = false ∧ h.appKey = app ∧ h.roomCode.key = code
  | _ => False

section
variable {app code : String}

theorem RoomAlike.blind {f : Room → Net → Room × Net × List ServerMessage} (hf : Blind f)
    {appKey key : String} {room room' : Room} (h : RoomAlike app code appKey key room room') :
    RoomAlike app code appKey key (f room []).1 (f room' []).1 ∧
      (f room' []).2 = (f room []).2 := by
  rcases h with rfl | ⟨hk, w, rfl⟩
  · exact ⟨.inl rfl, rfl⟩
  · obtain ⟨w', hw⟩ := hf room w
    rw [hw]
    exact ⟨.inr ⟨hk, w', rfl⟩, rfl⟩

theorem RoomAlike.removePeer {appKey key : String} {room room' : Room}
    (h : RoomAlike app code appKey key room room') (env : Env) (pid : PeerId) (net : Net) :
    RoomAlike app code appKey key (room.removePeer env pid net).1 (room'.removePeer env pid net).1 ∧
      (room'.removePeer env pid net).2 = (room.removePeer env pid net).2 := by
  rcases h with rfl | ⟨hk, w, rfl⟩
  · exact ⟨.inl rfl, rfl⟩
  · rw [removePeer_setPassword]
    exact ⟨.inr ⟨hk, w, rfl⟩, rfl⟩

theorem RoomAlike.isVacant {appKey key : String} {room room' : Room}
    (h : RoomAlike app code appKey key room room') : room'.isVacant = room.isVacant := by
  rcases h with rfl | ⟨_, w, rfl⟩ <;> rfl

theorem RoomAlike.listEntry {appKey key : String} {room room' : Room}
    (h : RoomAlike app code appKey key room room') :
    RoomPool.listEntry room' = RoomPool.listEntry room := by
  rcases h with rfl | ⟨_, w, rfl⟩ <;> rfl

theorem PoolAlike.refl (appKey : String) (pool : RoomPool) : PoolAlike app code appKey pool pool :=
  ⟨rfl, .refl fun _ _ _ => .inl rfl⟩

theorem PoolAlike.insert {appKey key : String} {pool pool' : RoomPool} {room room' : Room}
    (h : PoolAlike app code appKey pool pool') (hr : RoomAlike app code appKey key room room') :
    PoolAlike app code appKey { pool with rooms := pool.rooms.insert key room }
      { pool' with rooms := pool'.rooms.insert key room' } :=
  ⟨h.1, h.2.insert hr⟩

namespace Alike
variable {s s' : Server} (h : Alike app code s s')
include h

theorem insert {appKey : String} {pool pool' : RoomPool} (hp : PoolAlike app code appKey pool pool') :
    Alike app code { s with registry := s.registry.insert appKey pool }
      { s' with registry := s'.registry.insert appKey pool' } :=
  ⟨h.registry.insert hp, h.cache, h.counter⟩

theorem lookupRoom (appKey : String) (c : RoomCode) :
    s.lookupRoom appKey c = none ∧ s'.lookupRoom appKey c = none ∨
      ∃ room room', s.lookupRoom appKey c = some room ∧ s'.lookupRoom appKey c = some room' ∧
        RoomAlike app code appKey c.key room room' := by
  simp only [Server.lookupRoom, RoomPool.getRoom]
  rcases h.registry.lookup appKey with ⟨hp, hp'⟩ | ⟨pool, pool', hp, hp', hpool⟩
  · exact .inl ⟨by simp [hp], by simp [hp']⟩
  · simp only [hp, hp', Option.bind_some]
    exact hpool.2.lookup c.key

theorem setRoom {appKey : String} {c : RoomCode} {room room' : Room}
    (hr : RoomAlike app code appKey c.key room room') :
    Alike app code (s.setRoom appKey c room) (s'.setRoom appKey c room') := by
  simp only [Server.setRoom]
  rcases h.registry.lookup appKey with ⟨hp, hp'⟩ | ⟨pool, pool', hp, hp', hpool⟩
  · simpa only [hp, hp'] using h
  · simp only [hp, hp']
    exact h.insert (hpool.insert hr)

theorem removeIfEmpty (appKey : String) (c : RoomCode) (locked : Bool) :
    Alike app code (s.removeIfEmpty appKey c locked) (s'.removeIfEmpty appKey c locked) := by
  simp only [Server.removeIfEmpty]
  rcases h.registry.lookup appKey with ⟨hp, hp'⟩ | ⟨pool, pool', hp, hp', hpool⟩
  · simpa only [hp, hp'] using h
  · simp only [hp, hp']
    refine h.insert ?_
    simp only [RoomPool.removeIfEmpty]
    rcases hpool.2.lookup c.key with ⟨hr, hr'⟩ | ⟨room, room', hr, hr', halike⟩
    · simpa only [hr, hr'] using hpool
    · simp only [hr, hr', halike.isVacant]
      split_ifs
      · exact ⟨hpool.1, hpool.2.erase _⟩
      · exact hpool

theorem ensurePool (appKey : String) :
    Alike app code (s.ensurePool appKey) (s'.ensurePool appKey) := by
  simp only [Server.ensurePool, h.registry.mem_iff]
  split_ifs
  · exact h
  · exact h.insert (.refl appKey _)

theorem leaveRoom (env : Env) (appKey : String) (c : RoomCode) (pid : PeerId) (net : Net) :
    Alike app code (leaveRoom env s appKey c pid net).1 (leaveRoom env s' appKey c pid net).1 ∧
      (Roomie.leaveRoom env s' appKey c pid net).2 = (Roomie.leaveRoom env s appKey c pid net).2 := by
  simp only [Roomie.leaveRoom]
  rcases h.lookupRoom appKey c with ⟨hr, hr'⟩ | ⟨room, room', hr, hr', halike⟩
  · simpa only [hr, hr', and_true] using h
  · obtain ⟨hroom, hnet⟩ := halike.removePeer env pid net
    simp only [hr, hr', hnet, hroom.isVacant]
    split_ifs
    · exact ⟨(h.setRoom hroom).removeIfEmpty appKey c false, rfl⟩
    · exact ⟨h.setRoom hroom, rfl⟩

theorem leaveSession (env : Env) (session : Option Session) (net : Net) :
    Alike app code (leaveSession env s session net).1 (leaveSession env s' session net).1 ∧
      (Roomie.leaveSession env s' session net).2 = (Roomie.leaveSession env s session net).2 := by
  cases session with
  | none => exact ⟨h, rfl⟩
  | some old => exact h.leaveRoom env old.appKey old.roomCode old.peerId net

end Alike

/-- The same answer and the same messages, and servers that differ in one password at most. -/
structure SameOutcome (app code : String) (o o' : Outcome) : Prop where
  server : Alike app code o.server o'.server
  session : o'.session = o.session
  net : o'.net = o.net
  replies : o'.replies = o.replies

theorem Alike.inRoom {s s' : Server} (h : Alike app code s s') (session : Session)
    {f : Room → Net → Room × Net × List ServerMessage} (hf : Blind f) :
    SameOutcome app code (inRoom s session f) (inRoom s' session f) := by
  simp only [Roomie.inRoom]
  rcases h.lookupRoom session.appKey session.roomCode with
    ⟨hr, hr'⟩ | ⟨room, room', hr, hr', halike⟩
  · simp only [hr, hr']
    exact ⟨h, rfl, rfl, rfl⟩
  · obtain ⟨hroom, hout⟩ := halike.blind hf
    simp only [hr, hr', hout]
    exact ⟨h.setRoom hroom, rfl, rfl, rfl⟩

/-- Both creations fail, or both make the same room under the same code. -/
def CreatedAlike (app code appKey : String) (x x' : Option (RoomCode × Room × RoomPool)) : Prop :=
  x = none ∧ x' = none ∨ ∃ c room pool pool', x = some (c, room, pool) ∧
    x' = some (c, room, pool') ∧ PoolAlike app code appKey pool pool'

namespace PoolAlike
variable {appKey : String} {pool pool' : RoomPool} (h : PoolAlike app code appKey pool pool')
include h

theorem tryInsertNewRoom (c : RoomCode) (settings : RoomSettings) :
    CreatedAlike app code appKey (pool.tryInsertNewRoom c settings)
      (pool'.tryInsertNewRoom c settings) := by
  simp only [RoomPool.tryInsertNewRoom]
  rcases h.2.lookup c.key with ⟨hr, hr'⟩ | ⟨room, room', hr, hr', _⟩
  · simp only [hr, hr', h.1]
    refine .inr ⟨_, _, _, _, rfl, rfl, ?_⟩
    exact ⟨rfl, h.2.insert (.inl rfl)⟩
  · simp only [hr, hr']
    exact .inl ⟨rfl, rfl⟩

theorem tryRandomCodes (env : Env) (settings : RoomSettings) (attempts : List ℕ) :
    CreatedAlike app code appKey (RoomPool.tryRandomCodes env pool settings attempts)
      (RoomPool.tryRandomCodes env pool' settings attempts) := by
  induction attempts with
  | nil => exact .inl ⟨rfl, rfl⟩
  | cons attempt rest ih =>
    simp only [RoomPool.tryRandomCodes]
    rcases h.tryInsertNewRoom (RoomPool.randomCode (env.draws attempt)) settings with
      ⟨hx, hx'⟩ | ⟨c, room, p, p', hx, hx', hp⟩
    · simpa only [hx, hx', Option.none_or] using ih
    · simp only [hx, hx', Option.some_or]
      exact .inr ⟨c, room, p, p', rfl, rfl, hp⟩

theorem createRoom (env : Env) (n : UInt64) (settings : RoomSettings) (requested : String) :
    CreatedAlike app code appKey (pool.createRoom env n settings requested).1
        (pool'.createRoom env n settings requested).1 ∧
      (pool'.createRoom env n settings requested).2 =
        (pool.createRoom env n settings requested).2 := by
  simp only [RoomPool.createRoom]
  split_ifs
  · exact ⟨h.tryInsertNewRoom ⟨requested⟩ settings, rfl⟩
  · rcases h.tryRandomCodes env settings (List.range roomCodeGenRetries) with
      ⟨hx, hx'⟩ | ⟨c, room, p, p', hx, hx', hp⟩
    · simp only [hx, hx']
      exact ⟨h.tryInsertNewRoom _ settings, trivial⟩
    · simp only [hx, hx']
      exact ⟨.inr ⟨c, room, p, p', rfl, rfl, hp⟩, trivial⟩

end PoolAlike

namespace Alike
variable {s s' : Server} (h : Alike app code s s')
include h

theorem helloGate (env : Env) (hello : Hello) :
    (∃ message, helloGate env s hello = .error message ∧
        Roomie.helloGate env s' hello = .error message) ∨
      ∃ t t', Roomie.helloGate env s hello = .ok t ∧ Roomie.helloGate env s' hello = .ok t' ∧
        Alike app code t t' := by
  simp only [Roomie.helloGate, h.cache]
  cases hello.validate with
  | error message => exact .inl ⟨message, rfl, rfl⟩
  | ok _ =>
    dsimp only
    split_ifs
    · exact .inl ⟨_, rfl, rfl⟩
    · have hcache : Alike app code
          { s with cache := (isRegisteredApp env.disk s.cache hello.appKey).2 }
          { s' with cache := (isRegisteredApp env.disk s.cache hello.appKey).2 } :=
        ⟨h.registry, rfl, h.counter⟩
      exact .inr ⟨_, _, rfl, rfl, hcache.ensurePool hello.appKey⟩
    · exact .inl ⟨_, rfl, rfl⟩

/-- A `Hello` that does not name the room opens the same room on both servers. -/
theorem openRoom (env : Env) {hello : Hello} (hn : ¬ NamesRoom app code (.hello hello)) :
    ∃ t t' answer, openRoom env s hello = (t, answer) ∧ Roomie.openRoom env s' hello = (t', answer) ∧
      Alike app code t t' := by
  simp only [Roomie.openRoom]
  rcases h.registry.lookup hello.appKey with ⟨hp, hp'⟩ | ⟨pool, pool', hp, hp', hpool⟩
  · simp only [hp, hp']
    exact ⟨s, s', _, rfl, rfl, h⟩
  · simp only [hp, hp', h.cache, h.counter]
    split_ifs with he
    · obtain ⟨hcreated, hcounter⟩ := hpool.createRoom env s.fallbackCounter
        (defaultRoomSettingsForApp env.disk s.cache hello.appKey).1 ""
      rcases hcreated with ⟨hx, hx'⟩ | ⟨c, room, p, p', hx, hx', hp⟩
      · simp only [hx, hx', hcounter]
        exact ⟨_, _, _, rfl, rfl, h.registry, rfl, rfl⟩
      · simp only [hx, hx', hcounter]
        exact ⟨_, _, _, rfl, rfl, h.registry.insert hp, rfl, rfl⟩
    · simp only [RoomPool.getRoom]
      rcases hpool.2.lookup hello.roomCode.key with ⟨hr, hr'⟩ | ⟨room, room', hr, hr', halike⟩
      · simp only [hr, hr']
        exact ⟨s, s', _, rfl, rfl, h⟩
      · have heq : room' = room := by
          refine halike.resolve_right fun hk => hn ⟨?_, hk.1⟩
          simpa using he
        simp only [hr, hr', heq]
        exact ⟨s, s', _, rfl, rfl, h⟩

theorem dispatchHello {env : Env} {hello : Hello} (hn : ¬ NamesRoom app code (.hello hello))
    (session : Option Session) (me : ConnId) :
    SameOutcome app code (dispatchHello env s session me hello)
      (Roomie.dispatchHello env s' session me hello) := by
  obtain ⟨hleft, hnet⟩ := h.leaveSession env session []
  simp only [Roomie.dispatchHello, hnet]
  rcases hleft.helloGate env hello with ⟨message, hg, hg'⟩ | ⟨t, t', hg, hg', ht⟩
  · simp only [hg, hg']
    exact ⟨hleft, rfl, rfl, rfl⟩
  · obtain ⟨u, u', answer, ho, ho', hu⟩ := ht.openRoom env hn
    simp only [hg, hg', ho, ho']
    cases answer with
    | error message => exact ⟨hu, rfl, rfl, rfl⟩
    | ok found =>
      obtain ⟨c, room⟩ := found
      dsimp only
      generalize room.admitPeer env me c hello _ = admitted
      obtain ⟨room', net', answer⟩ := admitted
      have hset : Alike app code (u.setRoom hello.appKey c room') (u'.setRoom hello.appKey c room') :=
        hu.setRoom (.inl rfl)
      cases answer with
      | error message => exact ⟨hset, rfl, rfl, rfl⟩
      | ok joined => exact ⟨hset, rfl, rfl, rfl⟩

theorem dispatchListRooms {env : Env} (session : Option Session) (appKey : String) :
    SameOutcome app code (dispatchListRooms env s session appKey)
      (Roomie.dispatchListRooms env s' session appKey) := by
  have hcache : Alike app code { s with cache := (isRegisteredApp env.disk s.cache appKey).2 }
      { s' with cache := (isRegisteredApp env.disk s.cache appKey).2 } :=
    ⟨h.registry, rfl, h.counter⟩
  simp only [Roomie.dispatchListRooms, h.cache]
  split_ifs
  · rcases h.registry.lookup appKey with ⟨hp, hp'⟩ | ⟨pool, pool', hp, hp', hpool⟩
    · simp only [hp, hp']
      exact ⟨hcache, rfl, rfl, rfl⟩
    · have hlist : pool'.listPublicRooms env = pool.listPublicRooms env :=
        hpool.2.filterMap_iter fun _ _ _ hr => hr.listEntry
      simp only [hp, hp', hlist]
      exact ⟨hcache, rfl, rfl, rfl⟩
  · exact ⟨hcache, rfl, rfl, rfl⟩

theorem dispatchRoomControl {env : Env} (session : Session) (rc : RoomControl) :
    SameOutcome app code (dispatchRoomControl env s session rc)
      (Roomie.dispatchRoomControl env s' session rc) := by
  cases rc with
  | leave =>
    obtain ⟨hleft, hnet⟩ :=
      h.leaveRoom env session.appKey session.roomCode session.peerId []
    exact ⟨hleft, rfl, hnet, rfl⟩
  | createRoom settings => exact ⟨h, rfl, rfl, rfl⟩
  | _ =>
    simp only [Roomie.dispatchRoomControl]
    exact h.inRoom session (blind_control env session.peerId _)

/-- Every message but a `Hello` for the room is handled alike. -/
theorem dispatch {env : Env} {msg : ClientMessage} (hn : ¬ NamesRoom app code msg)
    (session : Option Session) (me : ConnId) :
    SameOutcome app code (dispatch env s session me msg) (Roomie.dispatch env s' session me msg) := by
  cases msg with
  | hello hello => exact h.dispatchHello hn session me
  | ping => exact ⟨h, rfl, rfl, rfl⟩
  | listRooms appKey => exact h.dispatchListRooms session appKey
  | move blob =>
    cases session with
    | none => exact ⟨h, rfl, rfl, rfl⟩
    | some session => exact h.inRoom session (blind_move env session.peerId blob)
  | input blob =>
    cases session with
    | none => exact ⟨h, rfl, rfl, rfl⟩
    | some session => exact h.inRoom session (blind_input env session.peerId blob)
  | roomControl rc =>
    cases session with
    | none => exact ⟨h, rfl, rfl, rfl⟩
    | some session => exact h.dispatchRoomControl session rc
  | requestState =>
    cases session with
    | none => exact ⟨h, rfl, rfl, rfl⟩
    | some session => exact h.inRoom session blind_requestState

end Alike

end

/-- No message carries a password, and a password makes no difference but to who names its
room in a `Hello`. -/
theorem passwords_never_leak :
    (∀ sys a, ∀ x ∈ Action.attempts a sys, WithoutPassword x.2) ∧
    ∀ app code env s s' session me msg, Alike app code s s' → ¬ NamesRoom app code msg →
      SameOutcome app code (dispatch env s session me msg) (dispatch env s' session me msg) :=
  ⟨fun sys a x hx => emitted_withoutPassword (a.emitted sys x hx),
    fun _ _ _ _ _ session me _ h hn => h.dispatch hn session me⟩

/-- A server with one room, public and with one member, under this password. -/
def lockedBy (w : Option String) : Server :=
  ⟨(∅ : AppRegistry).insert "pong" ⟨"pong", (∅ : Table String Room).insert "aaaaaa"
    (setPassword
      { Room.new "pong" ⟨"AAAAAA"⟩ { RoomSettings.default with isPublic := true } with
        hostPeerId := 1
        clients := (∅ : Members).insert 1 ⟨⟨"x"⟩, none, 1, 0⟩
        peerCounter := 2 } w)⟩, ∅, 0⟩

theorem lockedBy_looks_the_same :
    (∀ x ∈ (sends 2 (.hello ⟨"pong", ⟨"aaaaaa"⟩, "y", none, none, some "x"⟩)).attempts
      ⟨lockedBy (some "x"), fun _ => none⟩, WithoutPassword x.2) ∧
    (dispatch .quiet (lockedBy (some "x")) none 2 (.listRooms "pong")).replies =
      [.roomList [⟨⟨"AAAAAA"⟩, 1, { RoomSettings.default with isPublic := true }⟩]] ∧
    (dispatch .quiet (lockedBy (some "y")) none 2 (.listRooms "pong")).replies =
      (dispatch .quiet (lockedBy (some "x")) none 2 (.listRooms "pong")).replies := by
  have hempty : ∀ k : String, (∅ : Table String Room).lookup k = none := fun _ => rfl
  have halike : Alike "pong" "aaaaaa" (lockedBy (some "x")) (lockedBy (some "y")) := by
    refine ⟨.insert (.refl fun _ _ h => by cases h) ⟨rfl, ?_⟩, rfl, rfl⟩
    refine .insert (.refl fun _ _ h => by cases (hempty _).symm.trans h) ?_
    exact .inr ⟨⟨rfl, rfl⟩, some "y", rfl⟩
  exact ⟨passwords_never_leak.1 _ _, rfl,
    (passwords_never_leak.2 _ _ .quiet _ _ none 2 (.listRooms "pong") halike id).replies⟩

/-- Two systems whose servers are alike and whose sessions are the same. -/
structure SysAlike (app code : String) (sys sys' : Sys) : Prop where
  server : Alike app code sys.server sys'.server
  session : sys'.session = sys.session

/-- The action is no `Hello` for the room. -/
def Action.Away (app code : String) (a : Action) : Prop :=
  ∀ msg, a.event = .message msg → ¬ NamesRoom app code msg

theorem outcome_alike {app code : String} {sys sys' : Sys} {a : Action}
    (h : SysAlike app code sys sys') (ha : Action.Away app code a) :
    SameOutcome app code (a.outcome sys) (a.outcome sys') := by
  simp only [Action.outcome, h.session]
  cases he : a.event with
  | message msg => exact h.server.dispatch (ha msg he) _ _
  | disconnect =>
    obtain ⟨hserver, hnet⟩ := h.server.leaveSession a.env (sys.session a.conn) []
    exact ⟨hserver, rfl, hnet, rfl⟩

/-- Over whole runs nobody who stays away from the room learns anything about its password. -/
theorem heardAlong_alike {app code : String} {sys sys' : Sys} {as : List Action}
    (h : SysAlike app code sys sys') (ha : ∀ a ∈ as, Action.Away app code a) (tx : ConnId) :
    heardAlong tx sys' as = heardAlong tx sys as := by
  induction as generalizing sys sys' with
  | nil => rfl
  | cons a as ih =>
    have hout := outcome_alike h (ha a List.mem_cons_self)
    have hsent : a.sent sys' = a.sent sys := by
      simp only [Action.sent, Action.attempts, hout.net, hout.replies]
    have hstep : SysAlike app code (step sys a) (step sys' a) :=
      ⟨hout.server, by simp only [step, h.session, hout.session]⟩
    rw [heardAlong, heardAlong, hsent, ih hstep fun b hb => ha b (List.mem_cons_of_mem _ hb)]

end Roomie.Passwords
