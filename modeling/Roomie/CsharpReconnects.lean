import Roomie.ClientSessions

/-!
# Reconnecting the C# client

`Connect`, `CreateRoom` and `JoinRoom` keep what they are called with, and `Reconnect` calls
`Connect` and `JoinRoom` with it once more. What is kept is what was asked for last, and not what a
`Joined` has answered.
-/

namespace Roomie.Csharp
open Bincode Frames GuardedRuns ClientSessions

/-- What `CreateRoom` and `JoinRoom` are called with beside a room code. Each of it may be null. -/
structure Credentials where
  appKey : Option String
  clientHash : Option String
  displayName : Option String
  authToken : Option String
  password : Option String
  deriving DecidableEq

/-- The arguments of `EncodeHello`, which throws at a null where it needs a string. -/
def Credentials.sending (c : Credentials) (roomCode : Option String) : Option Sending :=
  match c.appKey, roomCode, c.clientHash with
  | some appKey, some roomCode, some clientHash =>
    some (.hello appKey roomCode clientHash c.displayName c.authToken c.password)
  | _, _, _ => none

/-- The client with its reconnect info, which is null before the first call. -/
structure RoomieClient where
  client : Client
  lastHost : Option String
  lastPort : ℤ
  lastWsPort : ℤ
  lastCredentials : Credentials
  lastRoomCode : Option String

/-- What comes of a call: the frame that is written to the stream, if any is, and what is returned,
unless it throws. -/
structure Outcome where
  after : RoomieClient
  frame : Option Bytes
  returned : Option Bool

/-- `string.IsNullOrEmpty`. -/
def isNullOrEmpty : Option String → Bool
  | none => true
  | some s => s = ""

/-- The frame of `SendPayload`. -/
def Client.frameOf (c : Client) (payload : Bytes) : Option Bytes :=
  if !c.connected then none
  else if maxFrameLen < payload.length then none
  else
    let len := payload.length
    some ([.ofNat len, .ofNat (len >>> 8), .ofNat (len >>> 16), .ofNat (len >>> 24)] ++ payload)

namespace RoomieClient
variable (rt : Runtime)

/-- The client before the first call. -/
def start : RoomieClient := ⟨.start, none, 0, 0, ⟨none, none, none, none, none⟩, none⟩

/-- What `Connect` does after `Disconnect`. -/
def connect (host : Option String) (port wsPort : ℤ) (succeeds : Bool) (c : RoomieClient) :
    RoomieClient :=
  { c with
    lastHost := host
    lastPort := port
    lastWsPort := wsPort
    client := c.client.happen rt (.opened succeeds) }

/-- `SendHello`; it is said whether the stream accepts what is written. -/
def sendHello (credentials : Credentials) (roomCode : Option String) (accepted : Bool)
    (c : RoomieClient) : Outcome :=
  match credentials.sending roomCode with
  | none => ⟨c, none, none⟩
  | some msg =>
    let frame := c.client.frameOf msg.payload
    ⟨{ c with client := c.client.happen rt (.send msg accepted) }, frame,
      some (frame.isSome && accepted)⟩

/-- `CreateRoom`. -/
def createRoom (credentials : Credentials) (accepted : Bool) (c : RoomieClient) : Outcome :=
  sendHello rt credentials (some "") accepted
    { c with lastCredentials := credentials, lastRoomCode := some "" }

/-- `JoinRoom`. -/
def joinRoom (credentials : Credentials) (roomCode : Option String) (accepted : Bool)
    (c : RoomieClient) : Outcome :=
  sendHello rt credentials roomCode accepted
    { c with lastCredentials := credentials, lastRoomCode := roomCode }

/-- `Reconnect`. The event of `Disconnect` is left out: after a loss it is not raised. -/
def reconnect (succeeds accepted : Bool) (c : RoomieClient) : Outcome :=
  if isNullOrEmpty c.lastHost || isNullOrEmpty c.lastRoomCode then ⟨c, none, some false⟩
  else
    let c := connect rt c.lastHost c.lastPort c.lastWsPort succeeds
      { c with client := c.client.happen rt .disconnect }
    if !succeeds then ⟨c, none, some false⟩
    else joinRoom rt c.lastCredentials c.lastRoomCode accepted c

end RoomieClient

/-! ## Histories -/

/-- What happens to the client. A call of `Reconnect` is a `Connect` and a `JoinRoom`. -/
inductive Event where
  /-- `Connect`, behind the `Disconnect` that it begins with. -/
  | connect (host : Option String) (port wsPort : ℤ) (succeeds : Bool)
  | createRoom (credentials : Credentials) (accepted : Bool)
  | joinRoom (credentials : Credentials) (roomCode : Option String) (accepted : Bool)
  /-- What leaves the reconnect info as it is. -/
  | other (e : Happening)

/-- The host of a `Connect`. -/
def Event.host : Event → Option (Option String)
  | .connect host _ _ _ => some host
  | _ => none

/-- The credentials and the room code of a `CreateRoom` or `JoinRoom`. -/
def Event.request : Event → Option (Credentials × Option String)
  | .createRoom credentials _ => some (credentials, some "")
  | .joinRoom credentials roomCode _ => some (credentials, roomCode)
  | _ => none

namespace RoomieClient

def happen (rt : Runtime) (c : RoomieClient) : Event → RoomieClient
  | .connect host port wsPort succeeds => c.connect rt host port wsPort succeeds
  | .createRoom credentials accepted => (c.createRoom rt credentials accepted).after
  | .joinRoom credentials roomCode accepted => (c.joinRoom rt credentials roomCode accepted).after
  | .other e => { c with client := c.client.happen rt e }

/-- What `Reconnect` would ask for. -/
def stored (c : RoomieClient) : Credentials × Option String := (c.lastCredentials, c.lastRoomCode)

end RoomieClient

/-- The host of the latest `Connect`. -/
def latestHost (history : List Event) : Option String :=
  (history.filterMap Event.host).getLast?.getD none

/-- The latest `CreateRoom` or `JoinRoom`. -/
def latestRequest (history : List Event) : Credentials × Option String :=
  (history.filterMap Event.request).getLast?.getD RoomieClient.start.stored

/-- A `CreateRoom` or `JoinRoom` that is answered by a `Joined`, behind which the connection is lost.
Anything may have happened before the call, and between it and the answer. -/
structure Answered where
  before : List Event
  call : Event
  credentials : Credentials
  roomCode : Option String
  request_eq : call.request = some (credentials, roomCode)
  between : List Event
  room : String
  joined : Received
  joined_eq : ∃ peerId hostPeerId side settings initialState,
    joined.message = .joined ⟨room⟩ peerId hostPeerId side settings initialState

def Answered.history (a : Answered) : List Event :=
  a.before ++ a.call :: a.between ++ [.other (.message a.joined), .other .lost]

/-- What comes of a `Reconnect` then, where connecting succeeds. -/
def Answered.reconnect (rt : Runtime) (a : Answered) (accepted : Bool) : Outcome :=
  (exec (RoomieClient.happen rt) .start a.history).reconnect rt true accepted

/-- The `Hello` of these credentials, for a room. -/
def Credentials.hello (c : Credentials) (roomCode : RoomCode) : Option Hello :=
  match c.appKey, c.clientHash with
  | some appKey, some clientHash =>
    some ⟨appKey, roomCode, clientHash, c.displayName, c.authToken, c.password⟩
  | _, _ => none

/-- What is sent is a `Hello` for the room, with these credentials. -/
def ReturnsTo (credentials : Credentials) (room : String) (sent : Option Bytes) : Prop :=
  ∃ hello, credentials.hello ⟨room⟩ = some hello ∧ Arrives sent (.hello hello)

/-- The host is there, and what was asked for last is this room with these credentials, in a request
that fits into a frame. -/
def LeadsBack (credentials : Credentials) (room : String) (host : Option String)
    (request : Credentials × Option String) : Prop :=
  (∃ name, host = some name ∧ name ≠ "") ∧
    ∃ code msg, request = (credentials, some code) ∧ code ≠ "" ∧ RoomCode.normalize code = room ∧
      credentials.sending (some code) = some msg ∧ msg.payload.length ≤ maxFrameLen

/-! ## What is kept -/

section
variable (rt : Runtime)

theorem sendHello_stored (credentials : Credentials) (roomCode : Option String) (accepted : Bool)
    (c : RoomieClient) :
    (c.sendHello rt credentials roomCode accepted).after.stored = c.stored ∧
      (c.sendHello rt credentials roomCode accepted).after.lastHost = c.lastHost := by
  unfold RoomieClient.sendHello
  cases credentials.sending roomCode <;> exact ⟨rfl, rfl⟩

theorem stored_happen (c : RoomieClient) (e : Event) :
    (c.happen rt e).stored = e.request.getD c.stored := by
  cases e with
  | connect host port wsPort succeeds => rfl
  | createRoom credentials accepted => exact (sendHello_stored rt _ _ _ _).1
  | joinRoom credentials roomCode accepted => exact (sendHello_stored rt _ _ _ _).1
  | other e => rfl

theorem lastHost_happen (c : RoomieClient) (e : Event) :
    (c.happen rt e).lastHost = e.host.getD c.lastHost := by
  cases e with
  | connect host port wsPort succeeds => rfl
  | createRoom credentials accepted => exact (sendHello_stored rt _ _ _ _).2
  | joinRoom credentials roomCode accepted => exact (sendHello_stored rt _ _ _ _).2
  | other e => rfl

/-- The reconnect info after a history. -/
theorem exec_stored (history : List Event) :
    (exec (RoomieClient.happen rt) .start history).stored = latestRequest history :=
  exec_latest (stored_happen rt) .start history

theorem exec_lastHost (history : List Event) :
    (exec (RoomieClient.happen rt) .start history).lastHost = latestHost history :=
  exec_latest (lastHost_happen rt) .start history

/-- A call of `Reconnect` that is not refused is a `Connect` and, if that succeeds, a `JoinRoom`. -/
theorem reconnect_happens (succeeds accepted : Bool) (c : RoomieClient)
    (hhost : isNullOrEmpty c.lastHost = false) (hcode : isNullOrEmpty c.lastRoomCode = false) :
    (c.reconnect rt succeeds accepted).after = exec (RoomieClient.happen rt) c
      ([.other .disconnect, .connect c.lastHost c.lastPort c.lastWsPort succeeds] ++
        if succeeds then [.joinRoom c.lastCredentials c.lastRoomCode accepted] else []) := by
  unfold RoomieClient.reconnect
  rw [hhost, hcode]
  cases succeeds <;> rfl

end

/-! ## What is sent -/

theorem frameOf_eq {c : Client} (hconnected : c.connected = true) {payload : Bytes}
    (h : payload.length ≤ maxFrameLen) : c.frameOf payload = some (frame payload) := by
  unfold Client.frameOf
  rw [if_neg (by simp [hconnected]), if_neg (Nat.not_lt.mpr h)]
  simp [frame, littleEndian, Nat.shiftRight_eq_div_pow, Nat.div_div_eq_div_mul]

/-- A payload that is too long is not written at all. -/
theorem arrives_frameOf {c : Client} (hconnected : c.connected = true) {payload : Bytes}
    {msg : ClientMessage} : Arrives (c.frameOf payload) msg ↔
      payload.length ≤ maxFrameLen ∧ ClientMessage.decode payload = some msg := by
  by_cases h : payload.length ≤ maxFrameLen
  · rw [frameOf_eq hconnected h, arrives_frame h]
    exact (and_iff_right h).symm
  · unfold Client.frameOf
    rw [if_neg (by simp [hconnected]), if_pos (Nat.not_le.mp h)]
    refine iff_of_false ?_ fun hboth => h hboth.1
    rintro ⟨_, _, hw, -⟩
    cases hw

theorem hello_inj {c c' : Credentials} {code code' : RoomCode} {hello : Hello}
    (h : c.hello code = some hello) (h' : c'.hello code' = some hello) : c = c' ∧ code = code' := by
  obtain ⟨appKey, clientHash, displayName, authToken, password⟩ := c
  obtain ⟨appKey', clientHash', displayName', authToken', password'⟩ := c'
  unfold Credentials.hello at h h'
  split at h
  · next _ _ happ hhash =>
    split at h'
    · next _ _ happ' hhash' =>
      dsimp only at happ hhash happ' hhash'
      subst happ hhash happ' hhash'
      obtain rfl := Option.some.inj h
      obtain ⟨rfl, rfl, rfl, rfl, rfl, rfl⟩ := Hello.mk.inj (Option.some.inj h')
      exact ⟨rfl, rfl⟩
    · cases h'
  · cases h

theorem sending_message {c : Credentials} {code : String} {msg : Sending}
    (h : c.sending (some code) = some msg) :
    ∃ hello, c.hello ⟨RoomCode.normalize code⟩ = some hello ∧ msg.message = .hello hello := by
  obtain ⟨appKey, clientHash, displayName, authToken, password⟩ := c
  unfold Credentials.sending at h
  split at h
  · next happ hcode hhash =>
    dsimp only at happ hhash
    subst happ hhash
    obtain rfl := Option.some.inj hcode
    obtain rfl := Option.some.inj h
    exact ⟨_, rfl, rfl⟩
  · cases h

/-- A `Hello` that is sent says the credentials as they are, and the room code but for its form. -/
theorem hello_sent {credentials credentials' : Credentials} {code room : String} {msg : Sending}
    (hmsg : credentials'.sending (some code) = some msg)
    (hlen : msg.payload.length ≤ maxFrameLen) :
    (∃ hello, credentials.hello ⟨room⟩ = some hello ∧
      ClientMessage.decode msg.payload = some (.hello hello)) ↔
        credentials' = credentials ∧ RoomCode.normalize code = room := by
  obtain ⟨hello', hhello', hmessage⟩ := sending_message hmsg
  have hdecode : ClientMessage.decode msg.payload = some (.hello hello') :=
    hmessage ▸ decode_whole (Csharp.accepts msg hlen) hlen
  constructor
  · rintro ⟨hello, hhello, hsent⟩
    obtain rfl := ClientMessage.hello.inj (Option.some.inj (hdecode.symm.trans hsent))
    obtain ⟨hsame, hcode⟩ := hello_inj hhello' hhello
    exact ⟨hsame, RoomCode.mk.inj hcode⟩
  · rintro ⟨rfl, rfl⟩
    exact ⟨hello', hhello', hdecode⟩

theorem returnsTo_none {credentials : Credentials} {room : String} :
    ¬ ReturnsTo credentials room none := by
  rintro ⟨_, -, _, _, hsent, -⟩
  cases hsent

/-- Once connected, `JoinRoom` returns to the room if it is called with it. -/
theorem joinRoom_returns {rt : Runtime} {c : RoomieClient} (hconnected : c.client.connected = true)
    {credentials credentials' : Credentials} {code room : String} (accepted : Bool) :
    ReturnsTo credentials room (c.joinRoom rt credentials' (some code) accepted).frame ↔
      credentials' = credentials ∧ RoomCode.normalize code = room ∧
        ∃ msg, credentials'.sending (some code) = some msg ∧ msg.payload.length ≤ maxFrameLen := by
  unfold RoomieClient.joinRoom RoomieClient.sendHello
  cases hmsg : credentials'.sending (some code) with
  | none =>
    refine iff_of_false returnsTo_none ?_
    rintro ⟨-, -, _, hsome, -⟩
    cases hsome
  | some msg =>
    by_cases hlen : msg.payload.length ≤ maxFrameLen
    · have hsent : _ ↔ credentials' = credentials ∧ RoomCode.normalize code = room :=
        hello_sent hmsg hlen
      simp only [ReturnsTo, arrives_frameOf hconnected, hlen, true_and, hsent]
      refine and_congr_right fun _ => (and_iff_left ⟨msg, rfl, hlen⟩).symm
    · refine iff_of_false ?_ ?_
      · rintro ⟨_, -, harrives⟩
        exact hlen ((arrives_frameOf hconnected).mp harrives).1
      · rintro ⟨-, -, _, ⟨⟩, hlen'⟩
        exact hlen hlen'

theorem isNullOrEmpty_iff {s : Option String} :
    isNullOrEmpty s = false ↔ ∃ t, s = some t ∧ t ≠ "" := by
  cases s with
  | none => simp [isNullOrEmpty]
  | some t => simp [isNullOrEmpty]

/-- A `Reconnect` that can connect returns to a room when what is kept leads there. -/
theorem reconnect_returns {rt : Runtime} (c : RoomieClient) (credentials : Credentials)
    (room : String) (accepted : Bool) :
    ReturnsTo credentials room (c.reconnect rt true accepted).frame ↔
      LeadsBack credentials room c.lastHost c.stored := by
  unfold RoomieClient.reconnect
  split_ifs with hrefused
  · -- the host is missing, or the room code
    refine iff_of_false returnsTo_none ?_
    rintro ⟨hhost, code, msg, hstored, hcode, -⟩
    have hhost : isNullOrEmpty c.lastHost = false := isNullOrEmpty_iff.mpr hhost
    have hcode : isNullOrEmpty c.lastRoomCode = false :=
      isNullOrEmpty_iff.mpr ⟨code, congrArg Prod.snd hstored, hcode⟩
    rw [hhost, hcode] at hrefused
    cases hrefused
  · rename_i hup
    cases hup
  · rw [Bool.or_eq_true, not_or, Bool.not_eq_true, Bool.not_eq_true] at hrefused
    have hhost := isNullOrEmpty_iff.mp hrefused.1
    obtain ⟨code, hcode, hne⟩ := isNullOrEmpty_iff.mp hrefused.2
    change ReturnsTo credentials room
      (RoomieClient.joinRoom rt c.lastCredentials c.lastRoomCode accepted _).frame ↔ _
    rw [hcode]
    refine (joinRoom_returns (by rfl) accepted).trans ?_
    have hstored : c.stored = (c.lastCredentials, some code) := congrArg (Prod.mk _) hcode
    constructor
    · rintro ⟨rfl, hroom, msg, hmsg, hlen⟩
      exact ⟨hhost, code, msg, hstored, hne, hroom, hmsg, hlen⟩
    · rintro ⟨-, code', msg, hstored', -, hroom, hmsg, hlen⟩
      obtain ⟨rfl, hsame⟩ := Prod.mk.inj (hstored.symm.trans hstored')
      obtain rfl := Option.some.inj hsame
      exact ⟨rfl, hroom, msg, hmsg, hlen⟩

theorem answered_returns (rt : Runtime) (a : Answered) (credentials : Credentials) (room : String)
    (accepted : Bool) : ReturnsTo credentials room (a.reconnect rt accepted).frame ↔
      LeadsBack credentials room (latestHost a.history) (latestRequest a.history) := by
  rw [Answered.reconnect, reconnect_returns, exec_lastHost, exec_stored]

/-- However a history came to its `Joined` and the loss behind it, a `Reconnect` that can connect
returns to the room exactly when the latest request was for this room and with the credentials of
the one that was answered. -/
theorem reconnect_returns_iff (rt : Runtime) (a : Answered) (accepted : Bool) :
    ReturnsTo a.credentials a.room (a.reconnect rt accepted).frame ↔
      LeadsBack a.credentials a.room (latestHost a.history) (latestRequest a.history) :=
  answered_returns rt a a.credentials a.room accepted

/-- The credentials of a player without a name. -/
def player : Credentials := ⟨some "pong", some "hash", none, none, none⟩

/-- A room that the client creates. -/
def created : Answered where
  before := [.connect (some "localhost") 7777 0 true]
  call := .createRoom player true
  credentials := player
  roomCode := some ""
  request_eq := rfl
  between := []
  room := "AAAAAA"
  joined := ownRoom
  joined_eq := ⟨1, 1, 0, .default, none, rfl⟩

/-- A room that the client joins, where it asks for another before it is answered. -/
def superseded : Answered where
  before := [.connect (some "localhost") 7777 0 true]
  call := .joinRoom player (some "AAAAAA") true
  credentials := player
  roomCode := some "AAAAAA"
  request_eq := rfl
  between := [.joinRoom player (some "BBBBBB") true]
  room := "AAAAAA"
  joined := ownRoom
  joined_eq := ⟨1, 1, 0, .default, none, rfl⟩

/-- For the room that was created nothing is sent, and in place of the one that was joined the
client goes to the other. -/
theorem room_forgotten :
    ¬ ReturnsTo created.credentials created.room (created.reconnect ⟨64, fun _ => ""⟩ true).frame ∧
    (created.reconnect ⟨64, fun _ => ""⟩ true).frame = none ∧
    ¬ ReturnsTo superseded.credentials superseded.room
      (superseded.reconnect ⟨64, fun _ => ""⟩ true).frame ∧
    ReturnsTo player "BBBBBB" (superseded.reconnect ⟨64, fun _ => ""⟩ true).frame := by
  refine ⟨?_, ?_, ?_, ?_⟩
  · rw [answered_returns]
    rintro ⟨-, code, _, hlatest, hne, -⟩
    exact hne (Option.some.inj (congrArg Prod.snd hlatest)).symm
  · decide +kernel
  · rw [answered_returns]
    rintro ⟨-, code, _, hlatest, -, hroom, -⟩
    obtain rfl : "BBBBBB" = code := Option.some.inj (congrArg Prod.snd hlatest)
    exact absurd hroom (by decide +kernel)
  · rw [answered_returns]
    exact ⟨⟨"localhost", rfl, by decide⟩, "BBBBBB", _, rfl, by decide, by decide +kernel, rfl,
      by decide +kernel⟩

end Roomie.Csharp
