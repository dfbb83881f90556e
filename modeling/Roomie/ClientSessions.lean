import Roomie.ClientDecoders
import Roomie.CppClient
import Roomie.GuardedRuns

/-!
# What a client shows of its membership

Both clients keep the room code, their own id and the id of the host, and show them to the game.
They should be those of the last `Joined` while the membership lasts, and empty otherwise. The
fields change before a callback is called, so what a callback does comes as happenings of its own.
-/

namespace Roomie.ClientSessions
open Bincode Cursors GuardedRuns

/-! ## The membership a history amounts to -/

/-- The room code, the own id and the id of the host. -/
structure Membership (Str : Type) where
  roomCode : Str
  peerId : PeerId
  hostPeerId : PeerId
  deriving DecidableEq

/-- What becomes known to a client of its membership. -/
inductive Notice (Str : Type) where
  | joined (m : Membership Str)
  | hostTransferred (pid : PeerId)
  | ended
  | other
  deriving DecidableEq

section
variable {Str : Type}

/-- Empty and zero. -/
def Membership.none [Inhabited Str] : Membership Str := ⟨default, 0, 0⟩

/-- `is_host`. -/
def Membership.isHost (m : Membership Str) : Bool := m.peerId ≠ 0 && m.peerId = m.hostPeerId

def Notice.update (m : Option (Membership Str)) : Notice Str → Option (Membership Str)
  | .joined m' => some m'
  | .hostTransferred pid => m.map fun m => { m with hostPeerId := pid }
  | .ended => none
  | .other => m

/-- The membership after these notices, if there is one. -/
def membership (history : List (Notice Str)) : Option (Membership Str) :=
  history.foldl Notice.update none

@[simp] theorem membership_nil : membership ([] : List (Notice Str)) = none := rfl

@[simp] theorem membership_concat (history : List (Notice Str)) (n : Notice Str) :
    membership (history ++ [n]) = n.update (membership history) := by
  simp [membership]

/-- The notice leaves a membership what it is, its host apart. -/
def Notice.Spares : Notice Str → Prop
  | .hostTransferred _ | .other => True
  | .joined _ | .ended => False

def Notice.newHost : Notice Str → Option PeerId
  | .hostTransferred pid => some pid
  | _ => none

/-- The host that was named last. -/
def lastHost (host : PeerId) (after : List (Notice Str)) : PeerId :=
  (after.filterMap Notice.newHost).getLast?.getD host

theorem lastHost_concat (host : PeerId) (after : List (Notice Str)) (n : Notice Str) :
    lastHost host (after ++ [n]) = n.newHost.getD (lastHost host after) := by
  unfold lastHost
  cases h : n.newHost <;> simp [List.filterMap_append, h]

/-- The membership is that of the latest `Joined`, with the host that was named last after it, if
nothing has ended it since. -/
theorem membership_eq_some_iff {history : List (Notice Str)} {m : Membership Str} :
    membership history = some m ↔ ∃ before joined after,
      history = before ++ .joined joined :: after ∧ (∀ n ∈ after, n.Spares) ∧
        m = { joined with hostPeerId := lastHost joined.hostPeerId after } := by
  induction history using List.reverseRecOn generalizing m with
  | nil => simp
  | append_singleton history n ih =>
    rw [membership_concat]
    constructor
    · intro h
      -- what was known before, when the notice spares it
      have hspared : n.Spares → ∀ m', membership history = some m' →
          m = { m' with hostPeerId := n.newHost.getD m'.hostPeerId } →
          ∃ before joined after, history ++ [n] = before ++ .joined joined :: after ∧
            (∀ n ∈ after, n.Spares) ∧
              m = { joined with hostPeerId := lastHost joined.hostPeerId after } := by
        intro hspares m' hm' hm
        obtain ⟨before, joined, after, rfl, hafter, rfl⟩ := ih.mp hm'
        refine ⟨before, joined, after ++ [n], by simp, ?_, ?_⟩
        · refine List.forall_mem_append.mpr ⟨hafter, fun n' hn' => ?_⟩
          rwa [List.mem_singleton.mp hn']
        · rw [hm, lastHost_concat]
      cases n with
      | joined m' =>
        obtain rfl := Option.some.inj h
        exact ⟨history, m', [], rfl, (fun n hn => by cases hn), rfl⟩
      | hostTransferred pid =>
        obtain ⟨m', hm', rfl⟩ := Option.map_eq_some_iff.mp h
        exact hspared trivial m' hm' rfl
      | ended => cases h
      | other => exact hspared trivial m h rfl
    · rintro ⟨before, joined, after, heq, hafter, rfl⟩
      rcases List.eq_nil_or_concat' after with rfl | ⟨after, last, rfl⟩
      · obtain ⟨rfl, hlast⟩ := List.append_inj' heq rfl
        obtain rfl : n = .joined joined := List.singleton_inj.mp hlast
        rfl
      · have hlist : history ++ [n] = (before ++ .joined joined :: after) ++ [last] := by
          rw [heq]
          simp
        obtain ⟨rfl, hlast⟩ := List.append_inj' hlist rfl
        obtain rfl : n = last := List.singleton_inj.mp hlast
        obtain ⟨hafter, hn⟩ := List.forall_mem_append.mp hafter
        rw [ih.mpr ⟨before, joined, after, rfl, hafter, rfl⟩, lastHost_concat]
        have hspares := hn n (List.mem_singleton.mpr rfl)
        cases n with
        | joined m => exact hspares.elim
        | ended => exact hspares.elim
        | hostTransferred pid => rfl
        | other => rfl

/-! ## A client that is watched -/

/-- What a message of the server means for the membership. -/
def noticeOf (str : String → Str) : ServerMessage → Notice Str
  | .joined code pid host _ _ _ => .joined ⟨str code.str, pid, host⟩
  | .roomEvent (.hostTransferred pid) => .hostTransferred pid
  | .roomEvent .kicked | .roomEvent .banned => .ended
  | _ => .other

/-- What the fields become when only `Joined` and `HostTransferred` are written to them. -/
def Membership.told (m : Membership Str) : Notice Str → Membership Str
  | .joined m' => m'
  | .hostTransferred pid => { m with hostPeerId := pid }
  | .ended | .other => m

/-- A client together with what it has come to know. -/
def watch {σ ε : Type} (happen : σ → ε → σ) (notice : σ → ε → Notice Str)
    (w : σ × List (Notice Str)) (e : ε) : σ × List (Notice Str) :=
  (happen w.1 e, w.2 ++ [notice w.1 e])

variable [Inhabited Str]

/-- What should be shown. -/
def expected (history : List (Notice Str)) : Membership Str :=
  (membership history).getD .none

/-- There is no membership, or nothing of it to show. -/
def Out (history : List (Notice Str)) : Prop := expected history = .none

/-- The message can be told by writing to the fields: a `Kicked` or `Banned` finds nothing to clear,
and a `HostTransferred` finds a membership, or names nobody. -/
def Timely (history : List (Notice Str)) : ServerMessage → Prop
  | .roomEvent .kicked | .roomEvent .banned => Out history
  | .roomEvent (.hostTransferred pid) => membership history ≠ Option.none ∨ pid = 0
  | _ => True

/-- The fields and `is_host` are as they should be. -/
structure Mirrors {σ : Type} (shown : σ → Membership Str) (isHost : σ → Bool)
    (w : σ × List (Notice Str)) : Prop where
  fields : shown w.1 = expected w.2
  isHost : isHost w.1 = (expected w.2).isHost

/-- It is enough that the fields are. -/
theorem mirrors_iff {σ : Type} {shown : σ → Membership Str} {isHost : σ → Bool}
    (hhost : ∀ c, isHost c = (shown c).isHost) {w : σ × List (Notice Str)} :
    Mirrors shown isHost w ↔ shown w.1 = expected w.2 :=
  ⟨Mirrors.fields, fun h => ⟨h, (hhost w.1).trans (congrArg Membership.isHost h)⟩⟩

theorem expected_concat (history : List (Notice Str)) (n : Notice Str) :
    expected (history ++ [n]) = (n.update (membership history)).getD .none := by
  rw [expected, membership_concat]

/-- A notice that changes nothing. -/
theorem expected_other (history : List (Notice Str)) :
    expected (history ++ [.other]) = expected history := by
  rw [expected_concat]
  rfl

theorem expected_ended (history : List (Notice Str)) : expected (history ++ [.ended]) = .none := by
  rw [expected_concat]
  rfl

theorem told_iff (str : String → Str) (history : List (Notice Str)) (m : ServerMessage) :
    (expected history).told (noticeOf str m) = expected (history ++ [noticeOf str m]) ↔
      Timely history m := by
  rw [expected_concat]
  cases m with
  | joined code pid host side settings state => exact iff_of_true rfl trivial
  | roomEvent event =>
    cases event with
    | hostTransferred pid =>
      simp only [noticeOf, Membership.told, Notice.update, Timely, expected]
      cases hm : membership history with
      | none => simp [Membership.none]
      | some m => simp
    | kicked => exact Iff.rfl
    | banned => exact Iff.rfl
    | settingsChanged settings => exact iff_of_true rfl trivial
  | _ => exact iff_of_true rfl trivial

end

/-- A message as it arrives. The server puts no custom value into settings, so it sends no other. -/
structure Received where
  message : ServerMessage
  payload : Bytes
  encoded : message.encode = some payload
  plain : ∀ s ∈ message.carried, s.custom = none

end Roomie.ClientSessions

/-! ## The C++ client -/

namespace Roomie.Cpp
open Bincode Cursors GuardedRuns ClientSessions

/-- What happens to the client. A callback is called last of all, so what it does comes as
happenings after the one it is called for. -/
inductive Happening where
  /-- Any call that sends a message; it is said whether the socket accepts all of it. -/
  | send (msg : Sending) (accepted : Bool)
  | disconnect
  | connect (succeeds : Bool)
  /-- `poll` comes to a message. -/
  | message (r : Received)
  /-- `poll` finds the connection lost. -/
  | lost

namespace Client
variable (cbs : Callback → Bool) (depth : ℕ)

/-- The client before the first call. -/
def start : Client := ⟨false, false, [], ⟨[], 0, 0⟩⟩

def happen (c : Client) : Happening → Client
  | .send msg accepted => ((Action.send msg accepted []).run cbs c).1
  | .disconnect => c.disconnect
  | .connect succeeds => c.connect succeeds
  | .message r =>
    -- without a socket `poll` returns at once
    if c.sock then
      match decodeAndDispatch cbs depth c.session r.payload with
      | some ((session, _), _) => { c with session := session }
      | none => c
    else c
  | .lost => (handleDisconnect cbs [] c).1

/-- `room_code`, `peer_id` and `host_peer_id`. -/
def shown (c : Client) : Membership Bytes :=
  ⟨c.session.roomCode, c.session.peerId, c.session.hostPeerId⟩

/-- `is_host`. -/
def isHost (c : Client) : Bool := c.session.peerId ≠ 0 && c.session.peerId = c.session.hostPeerId

/-- The send ends the connection. -/
def sendFails (c : Client) (msg : Sending) (accepted : Bool) : Bool :=
  c.ensureConnected && !(decide (msg.payload.length ≤ maxFrameLen) && accepted)

/-- What becomes known by it. -/
def notice (c : Client) : Happening → Notice Bytes
  | .send .leave _ => .ended
  | .send msg accepted => if c.sendFails msg accepted then .ended else .other
  | .disconnect | .connect _ | .lost => .ended
  | .message r => if c.sock then noticeOf utf8 r.message else .other

/-- A message that is received is timely. -/
def Keeps (w : Client × List (Notice Bytes)) : Happening → Prop
  | .message r => w.1.sock = true → Timely w.2 r.message
  | _ => True

/-- Without a socket there is nothing to show. -/
structure Idle (c : Client) : Prop where
  connected : c.connected = c.sock
  session : c.sock = false → c.session = ⟨[], 0, 0⟩

end Client

/-- What the user is told of a message: an input or a state without a byte is not passed on. -/
def tellingOf (cbs : Callback → Bool) : ServerMessage → Option Call
  | .peerInput _ [] | .stateUpdate [] => none
  | m => (callOf m).invoke cbs

/-- A message that is passed on goes to its callback. -/
theorem tellingOf_passed {cbs : Callback → Bool} {m : ServerMessage} (h : Passed m) :
    tellingOf cbs m = (callOf m).invoke cbs := by
  cases m with
  | peerInput pid data =>
    cases data with
    | nil => exact absurd rfl h
    | cons => rfl
  | stateUpdate data =>
    cases data with
    | nil => exact absurd rfl h
    | cons => rfl
  | _ => rfl

/-- A message that the server encodes is decoded, and told. -/
theorem decode_message (cbs : Callback → Bool) (depth : ℕ) {m : ServerMessage} {payload : Bytes}
    (hencode : m.encode = some payload) (hcustom : ∀ s ∈ m.carried, s.custom = none)
    (su : Session) : ∃ pos,
    decodeAndDispatch cbs depth su payload = some ((su.after (callOf m), tellingOf cbs m), pos) := by
  obtain ⟨rfl, hL⟩ := m.encode_eq hencode
  by_cases hpassed : Passed m
  · rw [tellingOf_passed hpassed]
    exact ⟨_, (dispatch_reads cbs depth su hcustom hpassed).whole hL⟩
  · cases m with
    | peerInput pid data =>
      obtain rfl : data = [] := Classical.not_not.mp hpassed
      have hreads : Reads maxFrameLen (dispatch cbs depth su) (su, none)
          (serverMessageFormat.write (.peerInput pid [])) :=
        (readVarint_reads (n := 4) (by decide)).bind (w := Bincode.writeVarint 4)
          ((readU32Varint_reads pid).bind (readBytes_reads []).last)
      exact ⟨_, hreads.whole hL⟩
    | stateUpdate data =>
      obtain rfl : data = [] := Classical.not_not.mp hpassed
      have hreads : Reads maxFrameLen (dispatch cbs depth su) (su, none)
          (serverMessageFormat.write (.stateUpdate [])) :=
        (readVarint_reads (n := 5) (by decide)).bind (w := Bincode.writeVarint 5)
          (readBytes_reads []).last
      exact ⟨_, hreads.whole hL⟩
    | _ => exact absurd trivial hpassed

section
variable {cbs : Callback → Bool} {depth : ℕ} {c : Client}

theorem run_send (cbs : Callback → Bool) (msg : Sending) (accepted : Bool) (c : Client) :
    ((Action.send msg accepted []).run cbs c).1 =
      if c.sendFails msg accepted then c.lose
      else if c.ensureConnected then c.sent msg else c := by
  unfold Action.run Client.sendFails
  by_cases hup : c.ensureConnected = true
  · by_cases hok : (decide (msg.payload.length ≤ maxFrameLen) && accepted) = true
    · simp [hup, hok]
    · by_cases herror : cbs .onError = true <;> simp [hup, hok, herror, runActions]
  · simp [hup]

/-- What a send makes known, unless the client leaves by it. -/
theorem notice_send {msg : Sending} (accepted : Bool) (hleave : msg ≠ .leave) :
    c.notice (.send msg accepted) = if c.sendFails msg accepted then .ended else .other := by
  cases msg with
  | leave => exact absurd rfl hleave
  | _ => rfl

theorem happen_lost : c.happen cbs depth .lost = c.lose := by
  change (handleDisconnect cbs [] c).1 = _
  unfold handleDisconnect
  split_ifs <;> rfl

theorem happen_message (h : c.sock = true) (r : Received) : c.happen cbs depth (.message r) =
    { c with session := c.session.after (callOf r.message) } := by
  obtain ⟨pos, hread⟩ := decode_message cbs depth r.encoded r.plain c.session
  simp only [Client.happen, if_pos h, hread]

theorem shown_message (h : c.sock = true) (r : Received) :
    (c.happen cbs depth (.message r)).shown = c.shown.told (noticeOf utf8 r.message) := by
  rw [happen_message h]
  cases r.message with
  | roomEvent event => cases event <;> rfl
  | _ => rfl

theorem Client.Idle.happen (h : c.Idle) (e : Happening) : (c.happen cbs depth e).Idle := by
  cases e with
  | send msg accepted =>
    rw [show c.happen cbs depth (.send msg accepted) = _ from run_send cbs msg accepted c]
    split_ifs with hfails hup
    · exact ⟨rfl, fun _ => rfl⟩
    · have hsock : c.sock = true := (Bool.and_eq_true_iff.mp hup).1
      cases msg with
      | leave => exact ⟨h.connected, fun _ => rfl⟩
      | _ => exact h
    · exact h
  | disconnect => exact ⟨rfl, fun _ => rfl⟩
  | connect succeeds => cases succeeds <;> exact ⟨rfl, fun _ => rfl⟩
  | message r =>
    by_cases hsock : c.sock = true
    · rw [happen_message hsock]
      exact ⟨h.connected, fun hno => absurd (hsock.symm.trans hno) (by decide)⟩
    · rw [show c.happen cbs depth (.message r) = c from if_neg hsock]
      exact h
  | lost =>
    rw [happen_lost]
    exact ⟨rfl, fun _ => rfl⟩

/-- Whatever happens to the client, its fields are right afterwards if they were before, except for
a message that comes at the wrong time. -/
theorem mirrors_step {history : List (Notice Bytes)} (h : c.Idle) (e : Happening)
    (hm : c.shown = expected history) :
    (c.happen cbs depth e).shown = expected (history ++ [c.notice e]) ↔
      Client.Keeps (c, history) e := by
  cases e with
  | send msg accepted =>
    refine iff_of_true ?_ trivial
    rw [show c.happen cbs depth (.send msg accepted) = _ from run_send cbs msg accepted c]
    by_cases hleave : msg = .leave
    · rw [hleave, show c.notice (.send .leave accepted) = .ended from rfl, expected_ended]
      split_ifs with hfails hup
      · rfl
      · rfl
      · -- the call does nothing, and there is nothing to clear
        have hsock : c.sock = false := by
          simpa [Client.ensureConnected, h.connected] using hup
        rw [Client.shown, h.session hsock]
        rfl
    · have hsent : c.sent msg = c := by
        cases msg with
        | leave => exact absurd rfl hleave
        | _ => rfl
      rw [notice_send accepted hleave, hsent, ite_self]
      split_ifs
      · exact (expected_ended history).symm
      · rw [expected_other, hm]
  | disconnect => exact iff_of_true (expected_ended history).symm trivial
  | connect succeeds =>
    refine iff_of_true ?_ trivial
    rw [show c.notice (.connect succeeds) = .ended from rfl, expected_ended]
    cases succeeds <;> rfl
  | message r =>
    by_cases hsock : c.sock = true
    · rw [shown_message hsock, hm, show c.notice (.message r) = _ from if_pos hsock, told_iff]
      exact ⟨fun htimely _ => htimely, fun hkeeps => hkeeps hsock⟩
    · rw [show c.happen cbs depth (.message r) = c from if_neg hsock,
        show c.notice (.message r) = .other from if_neg hsock, expected_other]
      exact iff_of_true hm fun hyes => absurd hyes hsock
  | lost =>
    rw [happen_lost]
    exact iff_of_true (expected_ended history).symm trivial

end

end Roomie.Cpp

/-! ## The C# client -/

namespace Roomie.Csharp
open Bincode Cursors GuardedRuns ClientSessions

/-- The fields of `RoomieClient` that are shown, and whether it is connected. -/
structure Client where
  connected : Bool
  roomCode : String
  peerId : PeerId
  hostPeerId : PeerId
  deriving DecidableEq

/-- What happens to the client. An event is raised last of all, so what its handlers do comes as
happenings after it; a method that goes on after an event happens in two pieces. -/
inductive Happening where
  /-- `Disconnect`; also the beginning of `Connect`. -/
  | disconnect
  /-- What `Connect` does after `Disconnect`. -/
  | opened (succeeds : Bool)
  /-- `SendPayload`; also the beginning of `LeaveRoom`. -/
  | send (msg : Sending) (accepted : Bool)
  /-- What `LeaveRoom` does after `SendPayload`. -/
  | forget
  /-- `Poll` comes to a message. -/
  | message (r : Received)
  /-- `Poll` finds the connection lost, or breaks it off. -/
  | lost

namespace Client
variable (rt : Runtime)

/-- The client before the first call. -/
def start : Client := ⟨false, "", 0, 0⟩

/-- `HandleDisconnect`. -/
def handleDisconnect (c : Client) : Client := { c with connected := false }

/-- What the handlers do before they raise the event. -/
def handle (c : Client) : Call → Client
  | .joined roomCode peerId hostPeerId _ _ _ =>
    { c with roomCode := roomCode, peerId := peerId, hostPeerId := hostPeerId }
  | .hostTransferred newHost => { c with hostPeerId := newHost }
  | _ => c

/-- The send ends the connection. -/
def sendFails (c : Client) (msg : Sending) (accepted : Bool) : Bool :=
  c.connected && decide (msg.payload.length ≤ maxFrameLen) && !accepted

def happen (c : Client) : Happening → Client
  | .disconnect => ⟨false, "", 0, 0⟩
  | .opened succeeds => { c with connected := succeeds }
  | .send msg accepted => if c.sendFails msg accepted then c.handleDisconnect else c
  | .forget => { c with roomCode := "", peerId := 0, hostPeerId := 0 }
  | .message r =>
    if c.connected then
      match decodeAndDispatch rt (fun _ => true) r.payload with
      | .ok (some call, _) => c.handle call
      | _ => c
    else c
  | .lost => c.handleDisconnect

/-- `RoomCode`, `PeerId` and `HostPeerId`. -/
def shown (c : Client) : Membership String := ⟨c.roomCode, c.peerId, c.hostPeerId⟩

/-- `IsHost`. -/
def isHost (c : Client) : Bool := c.peerId ≠ 0 && c.peerId = c.hostPeerId

/-- What becomes known by it. -/
def notice (c : Client) : Happening → Notice String
  | .disconnect | .forget | .lost => .ended
  | .opened _ => .other
  | .send msg accepted => if c.sendFails msg accepted then .ended else .other
  | .message r => if c.connected then noticeOf id r.message else .other

/-- A message that is received is timely, and no connection is lost that has something to show. -/
def Keeps (w : Client × List (Notice String)) : Happening → Prop
  | .message r => w.1.connected = true → Timely w.2 r.message
  | .send msg accepted => w.1.sendFails msg accepted = true → Out w.2
  | .lost => Out w.2
  | _ => True

end Client

section
variable {rt : Runtime} {c : Client}

theorem happen_message (h : c.connected = true) (r : Received) :
    c.happen rt (.message r) = c.handle (callOf r.message) := by
  obtain ⟨m, payload, hencode, hplain⟩ := r
  obtain ⟨rfl, hL⟩ := m.encode_eq hencode
  have hread : decodeAndDispatch rt (fun _ => true) (serverMessageFormat.write m) = _ :=
    (dispatch_reads rt (fun _ => true) hplain).whole hL
  have hcall : (callOf m).invoke (fun _ => true) = some (callOf m) := rfl
  simp only [Client.happen, if_pos h, hread, hcall]
  rfl

theorem shown_message (h : c.connected = true) (r : Received) :
    (c.happen rt (.message r)).shown = c.shown.told (noticeOf id r.message) := by
  rw [happen_message h]
  cases r.message with
  | roomEvent event => cases event <;> rfl
  | _ => rfl

/-- Whatever happens to the client, its fields are right afterwards if they were before, except for
a message that comes at the wrong time and for a connection that is lost with something to show. -/
theorem mirrors_step {history : List (Notice String)} (e : Happening)
    (hm : c.shown = expected history) :
    (c.happen rt e).shown = expected (history ++ [c.notice e]) ↔ Client.Keeps (c, history) e := by
  have hlost : c.handleDisconnect.shown = expected (history ++ [.ended]) ↔ Out history := by
    rw [show c.handleDisconnect.shown = c.shown from rfl, hm, expected_ended]
    rfl
  cases e with
  | disconnect => exact iff_of_true (expected_ended history).symm trivial
  | opened succeeds =>
    refine iff_of_true ?_ trivial
    rw [show c.notice (.opened succeeds) = .other from rfl, expected_other, ← hm]
    rfl
  | send msg accepted =>
    by_cases hfails : c.sendFails msg accepted = true
    · rw [show c.happen rt (.send msg accepted) = _ from if_pos hfails,
        show c.notice (.send msg accepted) = .ended from if_pos hfails, hlost]
      exact ⟨fun hout _ => hout, fun hkeeps => hkeeps hfails⟩
    · rw [show c.happen rt (.send msg accepted) = c from if_neg hfails,
        show c.notice (.send msg accepted) = .other from if_neg hfails, expected_other]
      exact iff_of_true hm fun hyes => absurd hyes hfails
  | forget => exact iff_of_true (expected_ended history).symm trivial
  | message r =>
    by_cases hup : c.connected = true
    · rw [shown_message hup, hm, show c.notice (.message r) = _ from if_pos hup, told_iff]
      exact ⟨fun htimely _ => htimely, fun hkeeps => hkeeps hup⟩
    · rw [show c.happen rt (.message r) = c from if_neg hup,
        show c.notice (.message r) = .other from if_neg hup, expected_other]
      exact iff_of_true hm fun hyes => absurd hyes hup
  | lost => exact hlost

end

end Roomie.Csharp

/-! ## Both clients -/

namespace Roomie.ClientSessions
open Bincode GuardedRuns

/-- The C++ client, watched. -/
def watchCpp (cbs : Callback → Bool) (depth : ℕ) :
    Cpp.Client × List (Notice Bytes) → Cpp.Happening → Cpp.Client × List (Notice Bytes) :=
  watch (Cpp.Client.happen cbs depth) Cpp.Client.notice

/-- The C# client, watched. -/
def watchCsharp (rt : Csharp.Runtime) :
    Csharp.Client × List (Notice String) → Csharp.Happening → Csharp.Client × List (Notice String) :=
  watch (Csharp.Client.happen rt) Csharp.Client.notice

/-- All along whatever happens to a client it shows the membership that it knows of, exactly when
each message comes in time and, for the C# client, no connection is lost that has something to
show. -/
theorem sessions_mirror (cbs : Callback → Bool) (depth : ℕ) (rt : Csharp.Runtime) :
    (∀ happenings : List Cpp.Happening,
      Throughout (watchCpp cbs depth) (Mirrors Cpp.Client.shown Cpp.Client.isHost)
          (.start, []) happenings ↔
        Along (watchCpp cbs depth) Cpp.Client.Keeps (.start, []) happenings) ∧
      ∀ happenings : List Csharp.Happening,
        Throughout (watchCsharp rt) (Mirrors Csharp.Client.shown Csharp.Client.isHost)
            (.start, []) happenings ↔
          Along (watchCsharp rt) Csharp.Client.Keeps (.start, []) happenings := by
  constructor
  · intro happenings
    refine throughout_iff_along (J := fun w => w.1.Idle) (fun w e h => h.happen e)
      (fun w e h hm => ?_) ⟨rfl, fun _ => rfl⟩ ⟨rfl, rfl⟩
    exact (mirrors_iff fun _ => rfl).trans (Cpp.mirrors_step h e hm.fields)
  · intro happenings
    refine throughout_iff_along (J := fun _ => True) (fun _ _ _ => trivial) (fun w e _ hm => ?_)
      trivial ⟨rfl, rfl⟩
    exact (mirrors_iff fun _ => rfl).trans (Csharp.mirrors_step e hm.fields)

/-- The client has the id 1 in a room of its own. -/
def ownRoom : Received where
  message := .joined ⟨"AAAAAA"⟩ 1 1 0 .default none
  payload := serverMessageFormat.write (.joined ⟨"AAAAAA"⟩ 1 1 0 .default none)
  encoded := if_pos (by decide +kernel)
  plain s hs := by
    rw [List.mem_singleton.mp hs]
    rfl

/-- It is kicked. -/
def expulsion : Received where
  message := .roomEvent .kicked
  payload := serverMessageFormat.write (.roomEvent .kicked)
  encoded := if_pos (by decide +kernel)
  plain s hs := by cases hs

/-- After a `Kicked` the C++ client shows the room still, and so does the C# client after the
connection is lost. -/
theorem sessions_linger :
    (¬ ∀ (cbs : Callback → Bool) (depth : ℕ) (happenings : List Cpp.Happening),
      Throughout (watchCpp cbs depth) (Mirrors Cpp.Client.shown Cpp.Client.isHost)
        (.start, []) happenings) ∧
      ¬ ∀ (rt : Csharp.Runtime) (happenings : List Csharp.Happening),
        Throughout (watchCsharp rt) (Mirrors Csharp.Client.shown Csharp.Client.isHost)
          (.start, []) happenings := by
  constructor
  · intro hall
    have hmirrors := hall (fun _ => true) 64
      [.connect true, .message ownRoom, .message expulsion] _ List.prefix_rfl
    exact absurd hmirrors.fields (by decide +kernel)
  · intro hall
    have hmirrors := hall ⟨64, fun _ => ""⟩ [.opened true, .message ownRoom, .lost] _
      List.prefix_rfl
    exact absurd hmirrors.fields (by decide +kernel)

end Roomie.ClientSessions
