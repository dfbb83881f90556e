import Roomie.HelloValidation
import Roomie.Rooms

/-!
# What happens under the lock of a room

Each definition is the part of `dispatch` or `leave_room` that runs while one room is
locked: it takes the room and the attempts made so far and returns both, with what it
answers.
-/

namespace Roomie
open HashTables

namespace Room

/-- The locked part of `leave_room`. -/
def removePeer (env : Env) (pid : PeerId) (room : Room) (net : Net) : Room × Net :=
  let (room, net) := broadcastAndPrune env (room.dropMember pid) (.peerLeft pid) net
  if room.hostPeerId = pid then
    match room.clients.firstKey env.peers with
    | some newHost =>
      broadcastAndPrune env { room with hostPeerId := newHost }
        (.roomEvent (.hostTransferred newHost)) net
    | none => (room, net)
  else (room, net)

/-- A password is set and the one provided, empty when missing, differs. -/
def wrongPassword (room : Room) (provided : Option String) : Bool :=
  match room.settings.password with
  | some required => provided.getD "" != required
  | none => false

/-- Where a peer that was let in goes: the first member becomes host, later ones wait in
`pending` when acceptance is required. -/
def seat (room : Room) (pid : PeerId) (info : ClientInfo) : Room :=
  if room.isVacant then
    { room with hostPeerId := pid, clients := room.clients.insert pid info }
  else if room.settings.acceptRequired then
    { room with pending := room.pending.insert pid info }
  else
    { room with clients := room.clients.insert pid info }

/-- The `Joined` answer; `code` is the code as the client spelled it. -/
def joinedMessage (room : Room) (code : RoomCode) (pid : PeerId) (side : UInt8) : ServerMessage :=
  .joined code pid room.hostPeerId side room.settings.withoutPassword
    (if room.state.isEmpty then none else some room.state)

/-- `PeerJoined` to the other accepted clients; answers of the channels are ignored. -/
def announceJoined (env : Env) (room : Room) (pid : PeerId) (info : ClientInfo) (net : Net) : Net :=
  if !room.settings.acceptRequired || room.clients.keys.contains pid then
    (sendAll env (.peerJoined pid info.clientHash.value info.displayName)
      ((room.clients.iter env.peers).filter fun e => e.1 != pid) net).2
  else net

/-- The locked part of `Hello`: refusals in the order of the source, then the new member. -/
def admitPeer (env : Env) (me : ConnId) (code : RoomCode) (h : Hello) (room : Room) (net : Net) :
    Room × Net × Except String (PeerId × ServerMessage) :=
  if room.isBanned ⟨h.clientHash⟩ then (room, net, .error "banned from this room")
  else if room.isFull then (room, net, .error "room full")
  else if room.wrongPassword h.password then
    (room, net, .error "invalid or missing room password")
  else match room.nextPeerId with
    | (none, room) => (room, net, .error "room full")
    | (some pid, room) =>
      let info : ClientInfo := ⟨⟨h.clientHash⟩, h.displayName, me, room.nextAvailableSide⟩
      let room := room.seat pid info
      (room, room.announceJoined env pid info net,
        .ok (pid, room.joinedMessage code pid info.side))

def moveAllowed (room : Room) : Bool :=
  !(room.settings.minPlayers > 0 && UInt32.ofNat room.clients.size < room.settings.minPlayers)

/-- The locked part of `Move`. -/
def move (env : Env) (pid : PeerId) (blob : Blob) (room : Room) (net : Net) :
    Room × Net × List ServerMessage :=
  if room.hostPeerId ≠ pid then (room, net, [.moveRejected "only host can send moves"])
  else if !room.moveAllowed then
    (room, net, [.moveRejected ("minimum " ++ toString room.settings.minPlayers.toNat ++
      " players required to start")])
  else
    let (room, net) := broadcastStateUpdateAndPrune env { room with state := blob } net
    (room, net, [.moveAccepted])

/-- The locked part of `Input`: forwarded to the host only. -/
def input (env : Env) (pid : PeerId) (blob : Blob) (room : Room) (net : Net) : Net :=
  if room.hostPeerId ≠ pid then
    match room.clients.lookup room.hostPeerId with
    | some host => (trySend env net host.tx (.peerInput pid blob)).2
    | none => net
  else net

/-- The locked part of `RequestState`. -/
def requestState (room : Room) : List ServerMessage :=
  if room.state.isEmpty then [] else [.stateUpdate room.state]

/-- `AcceptPeer(pid)`: a pending peer becomes an accepted one. -/
def acceptPeer (env : Env) (pid : PeerId) (room : Room) (net : Net) : Room × Net :=
  match room.pending.lookup pid with
  | some info =>
    broadcastAndPrune env
      { room with pending := room.pending.erase pid, clients := room.clients.insert pid info }
      (.peerJoined pid info.clientHash.value info.displayName) net
  | none => (room, net)

/-- `DenyPeer(pid)`: a pending peer is told that it was kicked. -/
def denyPeer (env : Env) (pid : PeerId) (room : Room) (net : Net) : Room × Net :=
  match room.pending.lookup pid with
  | some info => ({ room with pending := room.pending.erase pid },
      (trySend env net info.tx (.roomEvent .kicked)).2)
  | none => (room, net)

/-- Removal of an accepted peer by the host, shared by `Kick` and `Ban`: the peer is erased
and told, and `PeerLeft` is broadcast whether or not there was such a peer. -/
def expel (env : Env) (event : RoomEvent) (mark : Room → ClientInfo → Room) (pid : PeerId)
    (room : Room) (net : Net) : Room × Net :=
  match room.clients.lookup pid with
  | some info =>
    broadcastAndPrune env (mark (room.dropClient pid) info) (.peerLeft pid)
      (trySend env net info.tx (.roomEvent event)).2
  | none => broadcastAndPrune env room (.peerLeft pid) net

def kick (env : Env) : PeerId → Room → Net → Room × Net := expel env .kicked fun room _ => room

def ban (env : Env) : PeerId → Room → Net → Room × Net :=
  expel env .banned fun room info => { room with banned := insert info.clientHash room.banned }

/-- `TransferHost(pid)`, to an accepted peer only. -/
def transferHost (env : Env) (pid : PeerId) (room : Room) (net : Net) : Room × Net :=
  if pid ∈ room.clients then
    broadcastAndPrune env { room with hostPeerId := pid } (.roomEvent (.hostTransferred pid)) net
  else (room, net)

def updateSettings (env : Env) (settings : RoomSettings) (room : Room) (net : Net) : Room × Net :=
  broadcastAndPrune env { room with settings := settings }
    (.roomEvent (.settingsChanged settings.withoutPassword)) net

/-- The commands a host may give; `leave` and `createRoom` are handled before the lock. -/
def command (env : Env) (rc : RoomControl) (room : Room) (net : Net) : Room × Net :=
  match rc with
  | .updateSettings settings => room.updateSettings env settings net
  | .setPublic isPublic =>
    ({ room with settings := { room.settings with isPublic := isPublic } }, net)
  | .acceptPeer pid => room.acceptPeer env pid net
  | .denyPeer pid => room.denyPeer env pid net
  | .kick pid => room.kick env pid net
  | .ban pid => room.ban env pid net
  | .transferHost pid => room.transferHost env pid net
  | .leave | .createRoom _ => (room, net)

/-- The locked part of `RoomControl`: every command is for the host only. -/
def control (env : Env) (pid : PeerId) (rc : RoomControl) (room : Room) (net : Net) :
    Room × Net × List ServerMessage :=
  if room.hostPeerId = pid then
    let (room, net) := room.command env rc net
    (room, net, [])
  else (room, net, [.error "forbidden or invalid"])

end Room
end Roomie
