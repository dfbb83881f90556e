import Roomie.GuardedRuns
import Roomie.ServerSteps

/-!
# Runs of the server

The server with all its connections is a machine whose actions are a client message or a
disconnect of one connection, each with the environment it meets. Every action is one of
five kinds; from that follows what any action can do to any one room, and the rule by
which an invariant of rooms is proved for every reachable state.
-/

namespace Roomie
open HashTables GuardedRuns

/-- The shared state and the private session of every connection. -/
structure Sys where
  server : Server
  session : ConnId → Option Session

def Sys.start : Sys := ⟨.start, fun _ => none⟩

def Sys.roomAt (sys : Sys) (appKey key : String) : Option Room := sys.server.roomAt appKey key

inductive ConnEvent where
  | message (msg : ClientMessage)
  | disconnect

/-- One connection handles one message or disconnects. -/
structure Action where
  env : Env
  conn : ConnId
  event : ConnEvent

namespace Action

/-- The whole effect of an action, replies not yet enqueued. -/
def outcome (a : Action) (sys : Sys) : Outcome :=
  match a.event with
  | .message msg => dispatch a.env sys.server (sys.session a.conn) a.conn msg
  | .disconnect =>
    let (server, net) := leaveSession a.env sys.server (sys.session a.conn) []
    ⟨server, none, net, []⟩

theorem outcome_hello {a : Action} {sys : Sys} {h : Hello} (event : a.event = .message (.hello h)) :
    a.outcome sys = dispatchHello a.env sys.server (sys.session a.conn) a.conn h := by
  simp only [outcome, event, dispatch]

/-- Everything the action tries to send: what `dispatch` sends, then the replies. -/
def attempts (a : Action) (sys : Sys) : Net :=
  sendReplies a.conn (a.outcome sys).replies (a.outcome sys).net

/-- What the action enqueues. -/
def sent (a : Action) (sys : Sys) : Net := delivered a.env (a.attempts sys)

/-- The operation the action performs on the room of the session. -/
def op (a : Action) (sys : Sys) : Option (Session × RoomOp) :=
  match a.event, sys.session a.conn with
  | .disconnect, some s => some (s, .leave s.peerId)
  | .message (.hello _), some s => some (s, .leave s.peerId)
  | .message (.roomControl .leave), some s => some (s, .leave s.peerId)
  | .message (.roomControl (.createRoom _)), _ => none
  | .message (.roomControl rc), some s => some (s, .control s.peerId rc)
  | .message (.move blob), some s => some (s, .move s.peerId blob)
  | _, _ => none

/-- The action ends the stay of its connection: a disconnect, a `Leave`, or another `Hello`. -/
def Departs (a : Action) : Prop :=
  a.event = .disconnect ∨ a.event = .message (.roomControl .leave) ∨
    ∃ h, a.event = .message (.hello h)

/-- The operations that actions perform, and the events they are performed for. -/
theorem op_cases {sys : Sys} {a : Action} {s : Session} {o : RoomOp}
    (h : a.op sys = some (s, o)) : sys.session a.conn = some s ∧
      (o = .leave s.peerId ∧ a.Departs ∨
        (∃ blob, a.event = .message (.move blob) ∧ o = .move s.peerId blob) ∨
        ∃ rc, a.event = .message (.roomControl rc) ∧ o = .control s.peerId rc) := by
  unfold op at h
  split at h
  · rename_i s' event hs
    obtain ⟨rfl, rfl⟩ := Prod.mk.inj (Option.some.inj h)
    exact ⟨hs, .inl ⟨rfl, .inl event⟩⟩
  · rename_i hello s' event hs
    obtain ⟨rfl, rfl⟩ := Prod.mk.inj (Option.some.inj h)
    exact ⟨hs, .inl ⟨rfl, .inr (.inr ⟨hello, event⟩)⟩⟩
  · rename_i s' event hs
    obtain ⟨rfl, rfl⟩ := Prod.mk.inj (Option.some.inj h)
    exact ⟨hs, .inl ⟨rfl, .inr (.inl event)⟩⟩
  · cases h
  · rename_i rc s' _ _ event hs
    obtain ⟨rfl, rfl⟩ := Prod.mk.inj (Option.some.inj h)
    exact ⟨hs, .inr (.inr ⟨rc, event, rfl⟩)⟩
  · rename_i blob s' event hs
    obtain ⟨rfl, rfl⟩ := Prod.mk.inj (Option.some.inj h)
    exact ⟨hs, .inr (.inl ⟨blob, event, rfl⟩)⟩
  · cases h

theorem op_session {sys : Sys} {a : Action} {s : Session} {o : RoomOp}
    (h : a.op sys = some (s, o)) : sys.session a.conn = some s := (op_cases h).1

/-- A command is performed for the peer of the session. -/
theorem op_control {sys : Sys} {a : Action} {s : Session} {pid : PeerId} {rc : RoomControl}
    (h : a.op sys = some (s, .control pid rc)) :
    a.event = .message (.roomControl rc) ∧ pid = s.peerId := by
  rcases (op_cases h).2 with ⟨heq, _⟩ | ⟨_, _, heq⟩ | ⟨rc', event, heq⟩
  · cases heq
  · cases heq
  · obtain ⟨rfl, rfl⟩ := RoomOp.control.inj heq
    exact ⟨event, rfl⟩

/-- Whoever leaves has departed. -/
theorem op_leave {sys : Sys} {a : Action} {s : Session} {pid : PeerId}
    (h : a.op sys = some (s, .leave pid)) : pid = s.peerId ∧ a.Departs := by
  rcases (op_cases h).2 with ⟨heq, departs⟩ | ⟨_, _, heq⟩ | ⟨_, _, heq⟩
  · exact ⟨RoomOp.leave.inj heq, departs⟩
  · cases heq
  · cases heq

end Action

def step (sys : Sys) (a : Action) : Sys :=
  ⟨(a.outcome sys).server, Function.update sys.session a.conn (a.outcome sys).session⟩

/-- An environment without surprises: every channel accepts, tables come up as they are stored,
every draw is 0, no secret is set and no app is configured on disk. -/
def Env.quiet : Env := ⟨fun _ _ => .ok, .stored _, .stored _, fun _ _ => 0, none, fun _ => none⟩

theorem Env.quiet_clear : Env.quiet.Clear := fun _ _ => rfl

/-- A message handled in the quiet environment. -/
def sends (conn : ConnId) (msg : ClientMessage) : Action := ⟨.quiet, conn, .message msg⟩

/-- A `Hello` for the built-in app without optional fields. -/
def plainHello (code hash : String) : ClientMessage :=
  .hello ⟨"pong", ⟨code⟩, hash, none, none, none⟩

/-- The messages of `net` that are for one channel. -/
def onChannel (tx : ConnId) (net : Net) : List ServerMessage :=
  (net.filter fun a => a.1 == tx).map Prod.snd

@[simp] theorem onChannel_nil (tx : ConnId) : onChannel tx [] = [] := rfl

@[simp] theorem onChannel_append (tx : ConnId) (n n' : Net) :
    onChannel tx (n ++ n') = onChannel tx n ++ onChannel tx n' := by
  simp [onChannel]

theorem mem_onChannel {tx : ConnId} {m : ServerMessage} {net : Net} (h : m ∈ onChannel tx net) :
    (tx, m) ∈ net := by
  obtain ⟨⟨tx', m'⟩, hmem, rfl⟩ := List.mem_map.mp h
  obtain ⟨hin, heq⟩ := List.mem_filter.mp hmem
  rwa [← beq_iff_eq.mp heq]

/-- What a channel receives in the course of a list of actions. -/
def heardAlong (tx : ConnId) : Sys → List Action → List ServerMessage
  | _, [] => []
  | sys, a :: as => onChannel tx (a.sent sys) ++ heardAlong tx (step sys a) as

/-- The replies of an operation. -/
def RoomOp.replies (env : Env) (room : Room) : RoomOp → List ServerMessage
  | .leave _ => []
  | .move pid blob => (room.move env pid blob []).2.2
  | .control pid rc => (room.control env pid rc []).2.2

/-- The reasons for which a `Move` is rejected. -/
def IsRejection (reason : String) : Prop :=
  reason = "only host can send moves" ∨ ∃ n : UInt32,
    reason = "minimum " ++ toString n.toNat ++ " players required to start"

/-- Answers that tell nothing about a room one is in. -/
def ServerMessage.IsAnswer : ServerMessage → Prop
  | .roomList _ | .moveAccepted | .pong => True
  | .moveRejected reason => IsRejection reason
  | .error message => message ∈ errorTexts
  | .joined .. | .peerJoined .. | .peerLeft _ | .peerInput .. | .stateUpdate _ | .roomEvent _ => False

theorem RoomOp.replies_isAnswer (env : Env) (room : Room) (o : RoomOp) :
    ∀ m ∈ o.replies env room, m.IsAnswer := by
  cases o with
  | leave pid => simp [RoomOp.replies]
  | move pid blob =>
    simp only [RoomOp.replies, Room.move]
    split_ifs
    · simp [ServerMessage.IsAnswer, IsRejection]
    · simpa [ServerMessage.IsAnswer] using .inr ⟨room.settings.minPlayers, rfl⟩
    · simp [ServerMessage.IsAnswer]
  | control pid rc =>
    simp only [RoomOp.replies, Room.control]
    split_ifs <;> simp [ServerMessage.IsAnswer, errorTexts]

/-- A list of rooms among the replies is the list that was asked for. -/
def Lists (sys : Sys) (a : Action) (replies : List ServerMessage) : Prop :=
  ∀ rooms, .roomList rooms ∈ replies → rooms = [] ∨ ∃ appKey pool,
    a.event = .message (.listRooms appKey) ∧
      (isRegisteredApp a.env.disk sys.server.cache appKey).1 = true ∧
      sys.server.registry.lookup appKey = some pool ∧ rooms = pool.listPublicRooms a.env

/-- The five kinds of actions: no room is touched; the session's room is read; an operation
runs on it; the connection leaves it; or a `Hello`, which leaves first. -/
inductive StepResult (sys : Sys) (a : Action) : Outcome → Prop
  | idle {s' : Server} {replies : List ServerMessage} (same : SameRooms sys.server s')
      (plain : ∀ m ∈ replies, m.IsAnswer) (lists : Lists sys a replies) :
      StepResult sys a ⟨s', sys.session a.conn, [], replies⟩
  | read {s : Session} {room : Room} {s' : Server} {net : Net} {replies : List ServerMessage}
      (session : sys.session a.conn = some s)
      (found : sys.roomAt s.appKey s.roomCode.key = some room) (same : SameRooms sys.server s')
      (reads : (∃ blob, a.event = .message (.input blob) ∧
          net = room.input a.env s.peerId blob [] ∧ replies = []) ∨
        a.event = .message .requestState ∧ net = [] ∧ replies = room.requestState) :
      StepResult sys a ⟨s', some s, net, replies⟩
  | op {s : Session} {o : RoomOp} {room : Room} {s' : Server}
      (session : sys.session a.conn = some s) (performs : a.op sys = some (s, o))
      (stays : ∀ pid, o ≠ .leave pid)
      (found : sys.roomAt s.appKey s.roomCode.key = some room)
      (put : RoomPut sys.server s.appKey s.roomCode.key (some (o.run a.env room []).1) s') :
      StepResult sys a ⟨s', some s, (o.run a.env room []).2, o.replies a.env room⟩
  | left (performs : ∀ s, sys.session a.conn = some s → a.op sys = some (s, .leave s.peerId)) :
      StepResult sys a ⟨(leaveSession a.env sys.server (sys.session a.conn) []).1, none,
        (leaveSession a.env sys.server (sys.session a.conn) []).2, []⟩
  | hello {h : Hello} {o : Outcome} (event : a.event = .message (.hello h))
      (performs : ∀ s, sys.session a.conn = some s → a.op sys = some (s, .leave s.peerId))
      (result : HelloResult a.env a.conn h
        (leaveSession a.env sys.server (sys.session a.conn) []).1
        (leaveSession a.env sys.server (sys.session a.conn) []).2 o) :
      StepResult sys a o

theorem inRoom_none {server : Server} {s : Session} (h : server.roomAt s.appKey s.roomCode.key = none)
    (f : Room → Net → Room × Net × List ServerMessage) :
    inRoom server s f = ⟨server, some s, [], []⟩ := by
  simp [inRoom, Server.lookupRoom_eq, h]

theorem inRoom_some {server : Server} {s : Session} {room : Room}
    (h : server.roomAt s.appKey s.roomCode.key = some room)
    (f : Room → Net → Room × Net × List ServerMessage) :
    inRoom server s f = ⟨server.setRoom s.appKey s.roomCode (f room []).1, some s, (f room []).2.1,
      (f room []).2.2⟩ := by
  simp [inRoom, Server.lookupRoom_eq, h]

section
variable {sys : Sys} {a : Action} {s' : Server} (same : SameRooms sys.server s')
include same

/-- Nothing is answered. -/
theorem StepResult.silent : StepResult sys a ⟨s', sys.session a.conn, [], []⟩ :=
  .idle same (fun m hm => by cases hm) fun rooms hm => by cases hm

/-- One answer, which lists rooms only if that was asked. -/
theorem StepResult.answer {m : ServerMessage} (plain : m.IsAnswer) (lists : Lists sys a [m]) :
    StepResult sys a ⟨s', sys.session a.conn, [], [m]⟩ :=
  .idle same (fun _ hm => List.mem_singleton.mp hm ▸ plain) lists

theorem StepResult.error {message : String} (known : message ∈ errorTexts) :
    StepResult sys a ⟨s', sys.session a.conn, [], [.error message]⟩ :=
  .answer same known fun rooms hm => by cases List.mem_singleton.mp hm

end

/-- A section that leaves the room as it is changes nothing that can be looked up. -/
theorem sameRooms_setRoom {server : Server} {s : Session} {room : Room}
    (h : server.roomAt s.appKey s.roomCode.key = some room) :
    SameRooms server (server.setRoom s.appKey s.roomCode room) := by
  intro appKey key
  rw [Server.roomPut_setRoom h room]
  split_ifs with hk
  · rw [hk.1, hk.2, h]
  · rfl

private theorem op_result {sys : Sys} {a : Action} {s : Session} {o : RoomOp}
    (hs : sys.session a.conn = some s) (ho : a.op sys = some (s, o))
    (hl : ∀ pid, o ≠ .leave pid)
    (f : Room → Net → Room × Net × List ServerMessage)
    (hf : ∀ room, f room [] = ((o.run a.env room []).1, (o.run a.env room []).2,
      o.replies a.env room)) :
    StepResult sys a (inRoom sys.server s f) := by
  cases hr : sys.server.roomAt s.appKey s.roomCode.key with
  | none =>
    rw [inRoom_none hr, ← hs]
    exact .silent fun _ _ => rfl
  | some room =>
    rw [inRoom_some hr, hf]
    exact .op hs ho hl hr (Server.roomPut_setRoom hr _)

private theorem read_result {sys : Sys} {a : Action} {s : Session}
    (hs : sys.session a.conn = some s) (f : Room → Net → Room × Net × List ServerMessage)
    (hf : ∀ room, (f room []).1 = room ∧
      ((∃ blob, a.event = .message (.input blob) ∧
          (f room []).2.1 = room.input a.env s.peerId blob [] ∧ (f room []).2.2 = []) ∨
        a.event = .message .requestState ∧ (f room []).2.1 = [] ∧
          (f room []).2.2 = room.requestState)) :
    StepResult sys a (inRoom sys.server s f) := by
  cases hr : sys.server.roomAt s.appKey s.roomCode.key with
  | none =>
    rw [inRoom_none hr, ← hs]
    exact .silent fun _ _ => rfl
  | some room =>
    rw [inRoom_some hr, (hf room).1]
    exact .read hs hr (sameRooms_setRoom hr) (hf room).2

theorem dispatchListRooms_result {sys : Sys} {a : Action} {appKey : String}
    (event : a.event = .message (.listRooms appKey)) :
    StepResult sys a (dispatchListRooms a.env sys.server (sys.session a.conn) appKey) := by
  have same : SameRooms sys.server { sys.server with
      cache := (isRegisteredApp a.env.disk sys.server.cache appKey).2 } := fun _ _ => rfl
  unfold dispatchListRooms
  dsimp only
  split_ifs with hreg
  · cases hp : sys.server.registry.lookup appKey with
    | some pool =>
      refine .answer same trivial fun rooms hm => ?_
      obtain rfl : rooms = pool.listPublicRooms a.env := by simpa using hm
      exact .inr ⟨appKey, pool, event, hreg, hp, rfl⟩
    | none => exact .answer same trivial fun rooms hm => .inl (by simpa using hm)
  · exact .error same (by decide)

private theorem control_result {sys : Sys} {a : Action} {s : Session} {rc : RoomControl}
    (hs : sys.session a.conn = some s) (ho : a.op sys = some (s, .control s.peerId rc)) :
    StepResult sys a (inRoom sys.server s fun room net => room.control a.env s.peerId rc net) :=
  op_result hs ho (by simp) _ fun _ => rfl

theorem dispatchRoomControl_result {sys : Sys} {a : Action} {s : Session} {rc : RoomControl}
    (he : a.event = .message (.roomControl rc)) (hs : sys.session a.conn = some s) :
    StepResult sys a (dispatchRoomControl a.env sys.server s rc) := by
  cases rc with
  | leave =>
    have hl : leaveRoom a.env sys.server s.appKey s.roomCode s.peerId [] =
        leaveSession a.env sys.server (sys.session a.conn) [] := by rw [hs]; rfl
    simp only [dispatchRoomControl, hl]
    exact .left fun s' hs' => by simp [Action.op, he, hs']
  | createRoom settings =>
    simp only [dispatchRoomControl, ← hs]
    exact .error (fun _ _ => rfl) (by decide)
  | _ =>
    simp only [dispatchRoomControl]
    refine control_result hs ?_
    simp only [Action.op, he, hs]

/-- Every action is of one of the five kinds. -/
theorem Action.result (sys : Sys) (a : Action) : StepResult sys a (a.outcome sys) := by
  obtain ⟨env, conn, event⟩ := a
  cases event with
  | disconnect => exact .left fun s hs => by simp only at hs; simp [Action.op, hs]
  | message msg =>
    cases msg with
    | hello h =>
      refine .hello rfl (fun s hs => ?_) (dispatchHello_result env sys.server _ conn h)
      simp only at hs
      simp [Action.op, hs]
    | ping => exact .answer (fun _ _ => rfl) trivial fun rooms hm => by simp at hm
    | listRooms appKey => exact dispatchListRooms_result (a := ⟨env, conn, _⟩) rfl
    | requestState =>
      cases hs : sys.session conn with
      | none =>
        simp only [Action.outcome, dispatch, hs]
        rw [← hs]
        exact .silent (a := ⟨env, conn, _⟩) fun _ _ => rfl
      | some s =>
        simp only [Action.outcome, dispatch, hs]
        exact read_result (a := ⟨env, conn, _⟩) hs _ fun _ => ⟨rfl, .inr ⟨rfl, rfl, rfl⟩⟩
    | input blob =>
      cases hs : sys.session conn with
      | none =>
        simp only [Action.outcome, dispatch, hs]
        rw [← hs]
        exact .error (a := ⟨env, conn, _⟩) (fun _ _ => rfl) (by decide)
      | some s =>
        simp only [Action.outcome, dispatch, hs]
        exact read_result (a := ⟨env, conn, _⟩) hs _ fun _ => ⟨rfl, .inl ⟨blob, rfl, rfl, rfl⟩⟩
    | move blob =>
      cases hs : sys.session conn with
      | none =>
        simp only [Action.outcome, dispatch, hs]
        rw [← hs]
        exact .error (a := ⟨env, conn, _⟩) (fun _ _ => rfl) (by decide)
      | some s =>
        simp only [Action.outcome, dispatch, hs]
        exact op_result (a := ⟨env, conn, .message (.move blob)⟩) (o := .move s.peerId blob) hs
          (by simp only [Action.op, hs]) (by simp) _ fun _ => rfl
    | roomControl rc =>
      cases hs : sys.session conn with
      | none =>
        simp only [Action.outcome, dispatch, hs]
        rw [← hs]
        exact .error (a := ⟨env, conn, _⟩) (fun _ _ => rfl) (by decide)
      | some s =>
        simp only [Action.outcome, dispatch, hs]
        exact dispatchRoomControl_result (a := ⟨env, conn, _⟩) rfl hs

end Roomie
