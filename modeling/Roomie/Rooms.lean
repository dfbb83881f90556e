import Roomie.AppSettings

/-!
# Rooms and the channels of their members

A room as in `room::room`. Sending is recorded: every `try_send` appends its message to
the list of attempts, and the environment says what the channel answered to the attempt
made at each position. Nothing is assumed about these answers, so a channel may be full
or closed at any attempt.
-/

namespace Roomie
open HashTables

structure ClientInfo where
  clientHash : ClientHash
  displayName : Option String
  tx : ConnId
  side : UInt8
  deriving DecidableEq, Repr

abbrev Members := Table PeerId ClientInfo

structure Room where
  appKey : String
  code : RoomCode
  hostPeerId : PeerId
  clients : Members
  pending : Members
  state : Blob
  settings : RoomSettings
  banned : Finset ClientHash
  /-- The field `next_peer_id`. -/
  peerCounter : PeerId

/-- `Room::new`. -/
def Room.new (appKey : String) (code : RoomCode) (settings : RoomSettings) : Room where
  appKey := appKey
  code := code
  hostPeerId := 0
  clients := ∅
  pending := ∅
  state := []
  settings := settings
  banned := ∅
  peerCounter := 1

/-- The answers of `try_send`: enqueued, dropped because the queue is full, refused because
the receiver is gone. -/
inductive TrySend where
  | ok | full | closed
  deriving DecidableEq, Repr

/-- What the server meets from outside while it handles one message: the answers of the
channels, the iteration order of its hash maps, random draws, the application secret and
the app directory. -/
structure Env where
  chan : ℕ → ConnId → TrySend
  peers : IterOrder PeerId
  rooms : IterOrder String
  draws : ℕ → ℕ → Fin 32
  secret : Option String
  disk : Disk

/-- Every attempt to send, oldest first. -/
abbrev Net := List (ConnId × ServerMessage)

def trySend (env : Env) (net : Net) (tx : ConnId) (msg : ServerMessage) : TrySend × Net :=
  (env.chan net.length tx, net ++ [(tx, msg)])

/-- The attempts that put their message on the channel. -/
def delivered (env : Env) (net : Net) : Net :=
  (net.zipIdx.filter fun a => env.chan a.2 a.1.1 == .ok).map Prod.fst

def isClosed (answer : TrySend) : Bool := answer == .closed

/-- No channel is full or closed. -/
def Env.Clear (env : Env) : Prop := ∀ n tx, env.chan n tx = .ok

namespace Room

def inUse (room : Room) (pid : PeerId) : Bool :=
  room.clients.keys.contains pid || room.pending.keys.contains pid

/-- `saturating_add(1)` on a `u32`. -/
def saturatingSucc (n : PeerId) : PeerId := if n = 4294967295 then n else n + 1

/-- The first of the `count` candidates from `candidate` on that is not in use. -/
def firstUnused (room : Room) : ℕ → ℕ → Option PeerId
  | _, 0 => none
  | candidate, count + 1 =>
    if room.inUse (.ofNat candidate) then room.firstUnused (candidate + 1) count
    else some (.ofNat candidate)

/-- Allocate the next peer id. The scan for a free id runs over `start..=MAX`, then `1..start`. -/
def nextPeerId (room : Room) : Option PeerId × Room :=
  let id := room.peerCounter
  let room := { room with peerCounter := saturatingSucc id }
  if room.inUse id then
    let start := max room.peerCounter.toNat 1
    match (room.firstUnused start (4294967296 - start)).or (room.firstUnused 1 (start - 1)) with
    | some candidate => (some candidate, { room with peerCounter := saturatingSucc candidate })
    | none => (none, room)
  else (some id, room)

/-- The sides taken by accepted and pending peers. -/
def usedSides (room : Room) : List UInt8 :=
  room.clients.entries.map (·.2.side) ++ room.pending.entries.map (·.2.side)

/-- First available slot in `0..=max_side`; slot 0 when there is none. -/
def nextAvailableSide (room : Room) : UInt8 :=
  let maxSide : ℕ :=
    if room.settings.maxPlayers = 0 then 255 else min room.settings.maxPlayers.toNat 255
  (((List.range (maxSide + 1)).map UInt8.ofNat).find? fun side =>
    !room.usedSides.contains side).getD 0

def isFull (room : Room) : Bool :=
  if room.settings.maxPlayers = 0 then false
  else UInt32.ofNat (room.clients.size + room.pending.size) ≥ room.settings.maxPlayers

def isBanned (room : Room) (hash : ClientHash) : Bool := hash ∈ room.banned

/-- No client is left, accepted or pending. -/
def isVacant (room : Room) : Bool := room.clients.isEmpty && room.pending.isEmpty

/-- Erase an accepted client. -/
def dropClient (room : Room) (pid : PeerId) : Room :=
  { room with clients := room.clients.erase pid }

/-- Erase a client, accepted or pending. -/
def dropMember (room : Room) (pid : PeerId) : Room :=
  { room with clients := room.clients.erase pid, pending := room.pending.erase pid }

end Room

/-! ## Broadcasts -/

/-- The sending loop of a broadcast: one attempt for each entry; returns the peers whose
channel is closed. -/
def sendAll (env : Env) (msg : ServerMessage) :
    List (PeerId × ClientInfo) → Net → List PeerId × Net
  | [], net => ([], net)
  | (pid, info) :: rest, net =>
    let (answer, net) := trySend env net info.tx msg
    let (dead, net) := sendAll env msg rest net
    (if isClosed answer then pid :: dead else dead, net)

/-- The removal loop of a broadcast: erase each dead peer; when it was the host, the first
remaining client becomes host, and 0 when there is none. -/
def removeDead (env : Env) (drop : Room → PeerId → Room) :
    List PeerId → Room → Option PeerId → Room × Option PeerId
  | [], room, newHost => (room, newHost)
  | pid :: rest, room, newHost =>
    let room := drop room pid
    if room.hostPeerId = pid then
      let newHost := room.clients.firstKey env.peers
      removeDead env drop rest { room with hostPeerId := newHost.getD 0 } newHost
    else removeDead env drop rest room newHost

/-- Where a broadcast and the announcements after it stand. -/
structure Broadcast where
  room : Room
  net : Net
  dead : List PeerId
  newHost : Option PeerId

/-- Send to an audience, then drop those whose channel is closed. -/
def retainConnected (env : Env) (audience : List (PeerId × ClientInfo))
    (drop : Room → PeerId → Room) (room : Room) (msg : ServerMessage) (net : Net) : Broadcast :=
  let (dead, net) := sendAll env msg audience net
  let (room, newHost) := removeDead env drop dead room none
  ⟨room, net, dead, newHost⟩

/-- Accepted clients, then pending ones, in the order the loops meet them. -/
def Room.everyone (env : Env) (room : Room) : List (PeerId × ClientInfo) :=
  room.clients.iter env.peers ++ room.pending.iter env.peers

/-- `broadcast_retain_connected`: accepted clients only. -/
def broadcastRetainConnected (env : Env) (room : Room) (msg : ServerMessage) (net : Net) :
    Broadcast :=
  retainConnected env (room.clients.iter env.peers) Room.dropClient room msg net

/-- `broadcast_state_update_retain_connected`: the stored state to accepted and pending clients. -/
def broadcastStateUpdateRetainConnected (env : Env) (room : Room) (net : Net) : Broadcast :=
  retainConnected env (room.everyone env) Room.dropMember room (.stateUpdate room.state) net

/-- The `for` loop over the dead: announce each as left; who dies meanwhile is collected. -/
def announceLeft (env : Env) : List PeerId → Broadcast → Broadcast
  | [], b => b
  | pid :: rest, b =>
    let c := broadcastRetainConnected env b.room (.peerLeft pid) b.net
    announceLeft env rest ⟨c.room, c.net, b.dead ++ c.dead, c.newHost.or b.newHost⟩

/-- The `while !dead.is_empty()` loop, cut off after `fuel` rounds. -/
def pruneLoop (env : Env) : ℕ → Broadcast → Broadcast
  | 0, b => b
  | fuel + 1, b =>
    if b.dead.isEmpty then b
    else pruneLoop env fuel (announceLeft env b.dead { b with dead := [] })

/-- The rounds after a broadcast and the final announcement of a new host. Every round that
is followed by another one removes a client, which bounds their number. -/
def prune (env : Env) (b : Broadcast) : Room × Net :=
  let b := pruneLoop env (b.room.clients.size + 1) b
  match b.newHost with
  | some newHost =>
    let c := broadcastRetainConnected env b.room (.roomEvent (.hostTransferred newHost)) b.net
    (c.room, c.net)
  | none => (b.room, b.net)

def broadcastAndPrune (env : Env) (room : Room) (msg : ServerMessage) (net : Net) : Room × Net :=
  prune env (broadcastRetainConnected env room msg net)

def broadcastStateUpdateAndPrune (env : Env) (room : Room) (net : Net) : Room × Net :=
  prune env (broadcastStateUpdateRetainConnected env room net)

end Roomie
