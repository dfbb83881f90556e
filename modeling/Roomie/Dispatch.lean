import Roomie.RoomPools

/-!
# Dispatch of client messages

`server::dispatch` and `server::leave_room` as one atomic step: the registry of all apps,
the settings cache and the fallback counter are the shared state, the session belongs to
the connection. Messages for other connections are recorded as they are sent; the replies
for the connection itself are returned.
-/

namespace Roomie
open HashTables

abbrev AppRegistry := Table String RoomPool

/-- The state all connections share. -/
structure Server where
  registry : AppRegistry
  cache : SettingsCache
  fallbackCounter : UInt64

/-- Which room a connection is in, if any. -/
structure Session where
  appKey : String
  roomCode : RoomCode
  peerId : PeerId
  deriving DecidableEq, Repr

namespace Server

/-- A server that has just been started. -/
def start : Server := ⟨∅, ∅, 0⟩

/-- The room of an app under a key. -/
def roomAt (server : Server) (appKey key : String) : Option Room :=
  (server.registry.lookup appKey).bind fun pool => pool.rooms.lookup key

/-- `lookup_room`. -/
def lookupRoom (server : Server) (appKey : String) (code : RoomCode) : Option Room :=
  (server.registry.lookup appKey).bind fun pool => pool.getRoom code

/-- What a section left in the room it had locked. -/
def setRoom (server : Server) (appKey : String) (code : RoomCode) (room : Room) : Server :=
  match server.registry.lookup appKey with
  | some pool =>
    { server with registry :=
        server.registry.insert appKey { pool with rooms := pool.rooms.insert code.key room } }
  | none => server

def removeIfEmpty (server : Server) (appKey : String) (code : RoomCode) (locked : Bool) : Server :=
  match server.registry.lookup appKey with
  | some pool =>
    { server with registry := server.registry.insert appKey (pool.removeIfEmpty code locked) }
  | none => server

/-- `registry.entry(app_key).or_insert_with(..)`. -/
def ensurePool (server : Server) (appKey : String) : Server :=
  if appKey ∈ server.registry then server
  else { server with registry := server.registry.insert appKey (RoomPool.new appKey) }

end Server

/-- `leave_room`; nobody else holds the lock of the room when it is removed. -/
def leaveRoom (env : Env) (server : Server) (appKey : String) (code : RoomCode) (pid : PeerId)
    (net : Net) : Server × Net :=
  match server.lookupRoom appKey code with
  | some room =>
    let (room, net) := room.removePeer env pid net
    let server := server.setRoom appKey code room
    if room.isVacant then (server.removeIfEmpty appKey code false, net) else (server, net)
  | none => (server, net)

/-- What one call of `dispatch` leaves behind. -/
structure Outcome where
  server : Server
  session : Option Session
  net : Net
  replies : List ServerMessage

/-- The checks of `Hello` before any room is touched. -/
def helloGate (env : Env) (server : Server) (h : Hello) : Except String Server :=
  match h.validate with
  | .error message => .error message
  | .ok () =>
    if env.secret.any (fun secret => !secret.isEmpty && h.authToken.getD "" != secret) then
      .error "authentication required"
    else
      let (registered, cache) := isRegisteredApp env.disk server.cache h.appKey
      if registered then .ok ({ server with cache := cache }.ensurePool h.appKey)
      else .error "unregistered game type"

/-- Create a room when the code is empty, else look up the one the code names. -/
def openRoom (env : Env) (server : Server) (h : Hello) :
    Server × Except String (RoomCode × Room) :=
  match server.registry.lookup h.appKey with
  | none => (server, .error "internal error")
  | some pool =>
    if h.roomCode.str.isEmpty then
      let (settings, cache) := defaultRoomSettingsForApp env.disk server.cache h.appKey
      let (created, counter) := pool.createRoom env server.fallbackCounter settings ""
      match created with
      | some (code, room, pool) =>
        (⟨server.registry.insert h.appKey pool, cache, counter⟩, .ok (code, room))
      | none => (⟨server.registry, cache, counter⟩, .error "failed to create room")
    else match pool.getRoom h.roomCode with
      | some room => (server, .ok (h.roomCode, room))
      | none => (server, .error "room not found")

/-- Leave the room of the old session, if there is one. -/
def leaveSession (env : Env) (server : Server) (session : Option Session) (net : Net) :
    Server × Net :=
  match session with
  | some old => leaveRoom env server old.appKey old.roomCode old.peerId net
  | none => (server, net)

def dispatchHello (env : Env) (server : Server) (session : Option Session) (me : ConnId)
    (h : Hello) : Outcome :=
  let (server, net) := leaveSession env server session []
  match helloGate env server h with
  | .error message => ⟨server, none, net, [.error message]⟩
  | .ok server =>
    match openRoom env server h with
    | (server, .error message) => ⟨server, none, net, [.error message]⟩
    | (server, .ok (code, room)) =>
      let (room, net, answer) := room.admitPeer env me code h net
      let server := server.setRoom h.appKey code room
      match answer with
      | .error message => ⟨server, none, net, [.error message]⟩
      | .ok (pid, joined) => ⟨server, some ⟨h.appKey, code, pid⟩, net, [joined]⟩

/-- Run the locked part of a message on the room of the session; without such a room there
is no answer. -/
def inRoom (server : Server) (s : Session)
    (section_ : Room → Net → Room × Net × List ServerMessage) : Outcome :=
  match server.lookupRoom s.appKey s.roomCode with
  | some room =>
    let (room, net, replies) := section_ room []
    ⟨server.setRoom s.appKey s.roomCode room, some s, net, replies⟩
  | none => ⟨server, some s, [], []⟩

def dispatchRoomControl (env : Env) (server : Server) (s : Session) (rc : RoomControl) : Outcome :=
  match rc with
  | .leave =>
    let (server, net) := leaveRoom env server s.appKey s.roomCode s.peerId []
    ⟨server, none, net, []⟩
  | .createRoom _ => ⟨server, some s, [], [.error "already in a room"]⟩
  | rc => inRoom server s fun room net => room.control env s.peerId rc net

def dispatchListRooms (env : Env) (server : Server) (session : Option Session) (appKey : String) :
    Outcome :=
  let (registered, cache) := isRegisteredApp env.disk server.cache appKey
  let server := { server with cache := cache }
  if registered then
    match server.registry.lookup appKey with
    | some pool => ⟨server, session, [], [.roomList (pool.listPublicRooms env)]⟩
    | none => ⟨server, session, [], [.roomList []]⟩
  else ⟨server, session, [], [.error "unregistered game type"]⟩

/-- `dispatch`: the server, the session and the messages for others after one client message,
and the replies for the client itself. -/
def dispatch (env : Env) (server : Server) (session : Option Session) (me : ConnId)
    (msg : ClientMessage) : Outcome :=
  match msg, session with
  | .hello h, session => dispatchHello env server session me h
  | .move blob, some s => inRoom server s fun room net => room.move env s.peerId blob net
  | .input blob, some s =>
    inRoom server s fun room net => (room, room.input env s.peerId blob net, [])
  | .roomControl rc, some s => dispatchRoomControl env server s rc
  | .requestState, some s => inRoom server s fun room net => (room, net, room.requestState)
  | .requestState, none => ⟨server, none, [], []⟩
  | .ping, session => ⟨server, session, [], [.pong]⟩
  | .listRooms appKey, session => dispatchListRooms env server session appKey
  | .move _, none | .input _, none | .roomControl _, none =>
    ⟨server, none, [], [.error "not in a room"]⟩

/-- The loop after `dispatch` that puts the replies on the connection's own channel. -/
def sendReplies (me : ConnId) (replies : List ServerMessage) (net : Net) : Net :=
  net ++ replies.map fun m => (me, m)

end Roomie
