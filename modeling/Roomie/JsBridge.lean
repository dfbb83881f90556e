import Roomie.GuardedRuns
import Roomie.WebSockets

/-!
# The JavaScript side of the WebGL transport

`RoomieWebSocket.jslib` keeps one `wsState` for whichever socket is the present one. The handlers of
a socket that was given up are not taken off it, and the browser calls its `onclose` some time after
`close()`, perhaps when the next connection stands already. No frame is lost before the socket opens
or mixed up with those of another connection; but once `onclose` of an earlier socket has come, the
open one is taken for closed, and the frames after that wait in the queue for good. What `Poll` reads
are the messages that came on this connection, each cut off at `MaxFrameLen` bytes.
-/

namespace Roomie.Csharp.Bridge
open Bincode Frames GuardedRuns

/-- `readyState`. -/
inductive ReadyState where
  | connecting | opened | closing | closed
  deriving DecidableEq

/-- A `WebSocket`, with the data passed to its `send`. -/
structure Socket where
  readyState : ReadyState
  sent : List Bytes

/-- `wsState`, save for `receiveBuffer`; a socket is known by its number. -/
structure WsState where
  socket : Option ℕ
  connected : Bool
  sendQueue : List Bytes
  error : Bool

/-- The page: all sockets made so far, and the fields that received bytes pass through. -/
structure Page where
  ws : WsState
  sockets : ℕ → Socket
  count : ℕ
  client : WebClient

namespace Page

def start : Page :=
  ⟨⟨none, false, [], false⟩, fun _ => ⟨.closed, []⟩, 0, ⟨.disconnected, [], [], []⟩⟩

/-- `ws.close()`. -/
def shut : Socket → Socket
  | ⟨.connecting, sent⟩ | ⟨.opened, sent⟩ => ⟨.closing, sent⟩
  | socket => socket

def setSocket (page : Page) (s : ℕ) (socket : Socket) : Page :=
  { page with sockets := Function.update page.sockets s socket }

/-- `RoomieWS_Close`. -/
def wsClose (page : Page) : Page :=
  let page := match page.ws.socket with
    | some s => page.setSocket s (shut (page.sockets s))
    | none => page
  { page with
    ws := ⟨none, false, [], false⟩
    client := { page.client with receiveBuffer := [] } }

/-- `RoomieWS_Connect`. -/
def wsConnect (page : Page) : Page :=
  let page := page.wsClose
  { page with
    ws := { page.ws with socket := some page.count }
    sockets := Function.update page.sockets page.count ⟨.connecting, []⟩
    count := page.count + 1 }

/-- `RoomieWS_Send`, of a frame. -/
def wsSend (page : Page) (data : Bytes) : Page :=
  match page.ws.socket with
  | none => page
  | some s =>
    if page.ws.connected && (page.sockets s).readyState == .opened then
      page.setSocket s { page.sockets s with sent := (page.sockets s).sent ++ [data] }
    else { page with ws := { page.ws with sendQueue := page.ws.sendQueue ++ [data] } }

/-- `RoomieWS_GetState`. -/
inductive State where
  | closed | connecting | opened | error
  deriving DecidableEq

def getState (page : Page) : State :=
  if page.ws.error then .error
  else match page.ws.socket with
    | none => .closed
    | some s => match (page.sockets s).readyState with
      | .connecting => .connecting
      | .opened => .opened
      | .closing | .closed => .closed

/-- `Disconnect` and `HandleDisconnect`. -/
def disconnect (page : Page) : Page :=
  { page.wsClose with client := page.client.handleDisconnect }

/-- `Connect`, which calls `Disconnect` first. -/
def connect (page : Page) : Page := { page.disconnect.wsConnect with client := .start }

/-- `SendPayload`, after the length was checked. -/
def sendPayload (page : Page) (frame : Bytes) : Page :=
  if page.client.status = .connected then page.wsSend frame else page

/-- `Poll`. -/
def poll (rt : Runtime) (handlers : Callback → Bool) (page : Page) : Page :=
  if page.client.status = .connected then
    match page.getState with
    | .closed | .error => page.disconnect
    | .connecting => page
    | .opened =>
      let client := page.client.poll rt handlers
      -- `HandleDisconnect` was called on the way, and `RoomieWS_Close` by it
      if client.status = .disconnected then { page.wsClose with client := client }
      else { page with client := client }
  else page

/-! ## What the browser does -/

/-- `onopen`. -/
def opens (page : Page) (s : ℕ) : Page :=
  { page with
    ws := { page.ws with connected := true, sendQueue := [] }
    sockets := Function.update page.sockets s
      ⟨.opened, (page.sockets s).sent ++ page.ws.sendQueue⟩ }

/-- `onmessage`. -/
def message (page : Page) (data : Bytes) : Page :=
  { page with
    client := { page.client with receiveBuffer := page.client.receiveBuffer ++ [data] } }

/-- `onclose`, after `onerror` if the connection failed. -/
def closes (page : Page) (s : ℕ) (failed : Bool) : Page :=
  { page with
    ws := { page.ws with connected := false, error := page.ws.error || failed }
    sockets := Function.update page.sockets s { page.sockets s with readyState := .closed } }

end Page

/-- What goes on at the page: calls of the C# client's methods, and events of sockets. -/
inductive Act where
  | connect
  | disconnect
  | send (frame : Bytes)
  | poll
  | opens (s : ℕ)
  | message (s : ℕ) (data : Bytes)
  | closing (s : ℕ)
  | closes (s : ℕ) (failed : Bool)

namespace Page

def step (rt : Runtime) (handlers : Callback → Bool) (page : Page) : Act → Page
  | .connect => page.connect
  | .disconnect => page.disconnect
  | .send frame => page.sendPayload frame
  | .poll => page.poll rt handlers
  | .opens s => page.opens s
  | .message _ data => page.message data
  | .closing s => page.setSocket s (shut (page.sockets s))
  | .closes s failed => page.closes s failed

/-- The browser keeps to the order of `readyState`, and messages come to open sockets only. A program
that has crashed calls nothing any more. -/
def Possible (page : Page) : Act → Prop
  | .opens s => s < page.count ∧ (page.sockets s).readyState = .connecting
  | .message s _ | .closing s => s < page.count ∧ (page.sockets s).readyState = .opened
  | .closes s _ => s < page.count ∧ (page.sockets s).readyState ≠ .closed
  | .connect | .disconnect | .send _ | .poll => page.client.status ≠ .crashed

instance (page : Page) : (a : Act) → Decidable (page.Possible a)
  | .opens _ | .message .. | .closing _ | .closes .. => inferInstanceAs (Decidable (_ ∧ _))
  | .connect | .disconnect | .send _ | .poll => inferInstanceAs (Decidable (_ ≠ _))

end Page

/-! ## What a connection has been given -/

/-- The page with what its present connection was given: the frames that `SendPayload` accepted,
those before the socket was taken for closed and those after, and the messages that came. -/
structure Watched where
  page : Page
  onTime : List Bytes
  late : List Bytes
  /-- `onclose` of an earlier socket has come while the present one was open. -/
  disturbed : Bool
  /-- A connection has failed since. -/
  failed : Bool
  arrived : List Bytes

namespace Watched

def start : Watched := ⟨.start, [], [], false, false, []⟩

/-- The `readyState` of the present socket. -/
def present (w : Watched) : Option ReadyState :=
  w.page.ws.socket.map fun s => (w.page.sockets s).readyState

/-- There is a connection: a client that has crashed does not give it up. -/
def up (w : Watched) : Bool := w.page.client.status ≠ .disconnected

def step (rt : Runtime) (handlers : Callback → Bool) (w : Watched) (a : Act) : Watched :=
  let w' : Watched := { w with page := w.page.step rt handlers a }
  match a with
  | .connect | .disconnect => { start with page := w'.page }
  | .send frame =>
    if w.page.client.status = .connected then
      if w.disturbed then { w' with late := w.late ++ [frame] }
      else { w' with onTime := w.onTime ++ [frame] }
    else w'
  | .poll => if w.up && !w'.up then { start with page := w'.page } else w'
  | .message _ data => { w' with arrived := w.arrived ++ [data] }
  | .closes s failed =>
    { w' with
      disturbed := w.disturbed || (w.page.ws.socket != some s && w.present == some .opened)
      failed := w.failed || (w.up && failed) }
  | .opens _ | .closing _ => w'

end Watched

/-- Of these messages some have been read, the others are in `receiveBuffer`; each was cut off at
`MaxFrameLen` bytes, and what comes of that are the frames handed over and the bytes behind them. -/
def Reads (arrived : List Bytes) (c : WebClient) : Prop :=
  ∃ read, arrived = read ++ c.receiveBuffer ∧
    c.account = read.flatMap fun msg => WebClient.getNextMessage msg maxFrameLen

/-- What holds of the page at any time. -/
structure Inv (w : Watched) : Prop where
  /-- The present socket is the last one, and the others were closed. -/
  last : ∀ s, w.page.ws.socket = some s → s + 1 = w.page.count
  others : ∀ s, s < w.page.count → w.page.ws.socket ≠ some s →
    (w.page.sockets s).readyState = .closing ∨ (w.page.sockets s).readyState = .closed
  alive : w.up = true ↔ w.page.ws.socket.isSome = true
  nobody : w.page.ws.socket = none → w.onTime = [] ∧ w.late = [] ∧ w.arrived = []
  connecting : ∀ s, w.page.ws.socket = some s → (w.page.sockets s).readyState = .connecting →
    w.page.ws.connected = false ∧ w.disturbed = false ∧ (w.page.sockets s).sent = []
  opened : ∀ s, w.page.ws.socket = some s → (w.page.sockets s).readyState = .opened →
    w.page.ws.connected = !w.disturbed ∧ (w.page.sockets s).sent = w.onTime ∧
      w.page.ws.sendQueue = w.late
  kept : ∀ s, w.page.ws.socket = some s →
    (w.page.sockets s).sent ++ w.page.ws.sendQueue = w.onTime ++ w.late
  undisturbed : w.disturbed = false → w.late = []
  error : w.up = true → w.page.ws.error = w.failed
  received : w.up = true → Reads w.arrived w.page.client

namespace Inv
variable {w : Watched}

/-- A socket that is neither closing nor closed is the present one. -/
theorem present_of_live (h : Inv w) {s : ℕ} (hs : s < w.page.count)
    (hlive : (w.page.sockets s).readyState = .connecting ∨
      (w.page.sockets s).readyState = .opened) : w.page.ws.socket = some s := by
  by_contra hne
  rcases h.others s hs hne with hshut | hshut
  · rw [hshut] at hlive
    rcases hlive with hlive | hlive <;> cases hlive
  · rw [hshut] at hlive
    rcases hlive with hlive | hlive <;> cases hlive

theorem shut_readyState (socket : Socket) :
    (Page.shut socket).readyState = .closing ∨ (Page.shut socket).readyState = .closed := by
  obtain ⟨_ | _ | _ | _, sent⟩ := socket
  · exact .inl rfl
  · exact .inl rfl
  · exact .inl rfl
  · exact .inr rfl

/-- `RoomieWS_Close` leaves no socket that is not closing or closed. -/
theorem wsClose_spec (h : Inv w) : w.page.wsClose.ws = ⟨none, false, [], false⟩ ∧
    w.page.wsClose.count = w.page.count ∧ ∀ s, s < w.page.count →
      (w.page.wsClose.sockets s).readyState = .closing ∨
        (w.page.wsClose.sockets s).readyState = .closed := by
  unfold Page.wsClose
  cases hsocket : w.page.ws.socket with
  | none =>
    refine ⟨rfl, rfl, fun s hs => h.others s hs ?_⟩
    rw [hsocket]
    exact fun hsome => by cases hsome
  | some s₀ =>
    refine ⟨rfl, rfl, fun s hs => ?_⟩
    dsimp only [Page.setSocket]
    by_cases heq : s = s₀
    · subst heq
      rw [Function.update_self]
      exact shut_readyState _
    · rw [Function.update_of_ne heq]
      refine h.others s hs fun hsome => heq ?_
      exact (Option.some.inj (hsocket.symm.trans hsome)).symm

/-- The connection is given up. -/
theorem down (h : Inv w) {client : WebClient} (hdown : client.status = .disconnected) :
    Inv { Watched.start with page := { w.page.wsClose with client := client } } := by
  obtain ⟨hws, hcount, hshut⟩ := h.wsClose_spec
  have hsocket : w.page.wsClose.ws.socket = none := by rw [hws]
  have habsurd : ∀ {s} {P : Prop}, w.page.wsClose.ws.socket = some s → P :=
    fun hs => by cases hsocket.symm.trans hs
  exact {
    last := fun s hs => habsurd hs
    others := fun s hs _ => hshut s (hcount ▸ hs)
    alive := by simp [Watched.up, hdown, hsocket]
    nobody := fun _ => ⟨rfl, rfl, rfl⟩
    connecting := fun s hs _ => habsurd hs
    opened := fun s hs _ => habsurd hs
    kept := fun s hs => habsurd hs
    undisturbed := fun _ => rfl
    error := fun hup => by simp [Watched.up, hdown] at hup
    received := fun hup => by simp [Watched.up, hdown] at hup }

theorem disconnected (h : Inv w) : Inv { Watched.start with page := w.page.disconnect } := h.down rfl

theorem wsConnect_eq (h : Inv w) : w.page.disconnect.wsConnect =
    { w.page.disconnect with
      ws := ⟨some w.page.count, false, [], false⟩
      sockets := Function.update w.page.wsClose.sockets w.page.count ⟨.connecting, []⟩
      count := w.page.count + 1 } := by
  obtain ⟨hws, hcount, _⟩ := h.wsClose_spec
  have hsame : w.page.disconnect.ws = ⟨none, false, [], false⟩ := hws
  have hagain : w.page.disconnect.wsClose = w.page.disconnect := by
    rw [Page.wsClose.eq_def w.page.disconnect, hsame]
    dsimp only
    rw [← hsame]
    rfl
  rw [Page.wsConnect, hagain, hsame]
  change Page.mk _ (Function.update w.page.wsClose.sockets w.page.wsClose.count _)
    (w.page.wsClose.count + 1) _ = _
  rw [hcount]
  simp only [Page.disconnect, hcount]

theorem connected (h : Inv w) : Inv { Watched.start with page := w.page.connect } := by
  obtain ⟨hws, hcount, hshut⟩ := h.wsClose_spec
  have hpage : w.page.connect = ⟨⟨some w.page.count, false, [], false⟩,
      Function.update w.page.wsClose.sockets w.page.count ⟨.connecting, []⟩, w.page.count + 1,
      .start⟩ := by
    rw [Page.connect, h.wsConnect_eq]
  have hnow : ∀ {s}, some w.page.count = some s →
      Function.update w.page.wsClose.sockets w.page.count ⟨.connecting, []⟩ s =
        ⟨.connecting, []⟩ := by
    rintro s ⟨⟩
    exact Function.update_self ..
  rw [hpage]
  exact {
    last := fun s hs => congrArg (· + 1) (Option.some.inj hs).symm
    others := fun s hs hne => by
      have hs' : s ≠ w.page.count := fun heq => hne (congrArg some heq.symm)
      dsimp only
      rw [Function.update_of_ne hs']
      have hlt : s < w.page.count + 1 := hs
      exact hshut s (by omega)
    alive := ⟨fun _ => rfl, fun _ => rfl⟩
    nobody := fun hs => by cases hs
    connecting := fun s hs _ => ⟨rfl, rfl, congrArg Socket.sent (hnow hs)⟩
    opened := fun s hs hopen => by
      have hconnecting := congrArg Socket.readyState (hnow hs)
      cases hconnecting.symm.trans hopen
    kept := fun s hs => congrArg (Socket.sent · ++ []) (hnow hs)
    undisturbed := fun _ => rfl
    error := fun _ => rfl
    received := fun _ => ⟨[], rfl, rfl⟩ }

/-- The frame is sent at once. -/
theorem sent_now (h : Inv w) {s : ℕ} (hsocket : w.page.ws.socket = some s)
    (hopen : (w.page.sockets s).readyState = .opened) (hcalm : w.disturbed = false) (frame : Bytes) :
    Inv { w with
      page := w.page.setSocket s { w.page.sockets s with sent := (w.page.sockets s).sent ++ [frame] }
      onTime := w.onTime ++ [frame] } := by
  obtain ⟨hconnected, hsent, hqueue⟩ := h.opened s hsocket hopen
  have hlate : w.late = [] := h.undisturbed hcalm
  have hstate : ∀ s', (Function.update w.page.sockets s
      { w.page.sockets s with sent := (w.page.sockets s).sent ++ [frame] } s').readyState =
        (w.page.sockets s').readyState := by
    intro s'
    by_cases heq : s' = s
    · subst heq
      rw [Function.update_self]
    · rw [Function.update_of_ne heq]
  have hnow : ∀ {s'}, w.page.ws.socket = some s' → s' = s :=
    fun hs => Option.some.inj (hs.symm.trans hsocket)
  exact {
    last := h.last
    others := fun s' hs hne => by
      dsimp only [Page.setSocket]
      rw [hstate]
      exact h.others s' hs hne
    alive := h.alive
    nobody := fun hs => by cases hsocket.symm.trans hs
    connecting := fun s' hs hconn => by
      obtain rfl := hnow hs
      dsimp only [Page.setSocket] at hconn
      rw [hstate, hopen] at hconn
      cases hconn
    opened := fun s' hs _ => by
      obtain rfl := hnow hs
      dsimp only [Page.setSocket]
      rw [Function.update_self, hsent]
      exact ⟨hconnected, rfl, hqueue⟩
    kept := fun s' hs => by
      obtain rfl := hnow hs
      dsimp only [Page.setSocket]
      rw [Function.update_self, hsent, hqueue, hlate]
    undisturbed := h.undisturbed
    error := h.error
    received := h.received }

/-- The frame waits in the queue. -/
theorem queued (h : Inv w) {s : ℕ} (hsocket : w.page.ws.socket = some s)
    (hwait : (w.page.sockets s).readyState = .opened → w.disturbed = true) {frame : Bytes}
    {onTime late : List Bytes} (hgiven : onTime ++ late = w.onTime ++ w.late ++ [frame])
    (hsame : w.disturbed = true → onTime = w.onTime) (hlate : w.disturbed = false → late = []) :
    Inv { w with
      page := { w.page with ws := { w.page.ws with sendQueue := w.page.ws.sendQueue ++ [frame] } }
      onTime := onTime
      late := late } := by
  have hnow : ∀ {s'}, w.page.ws.socket = some s' → s' = s :=
    fun hs => Option.some.inj (hs.symm.trans hsocket)
  exact {
    last := h.last
    others := h.others
    alive := h.alive
    nobody := fun hs => by cases hsocket.symm.trans hs
    connecting := h.connecting
    opened := fun s' hs hopen => by
      obtain rfl := hnow hs
      obtain ⟨hconnected, hsent, hqueue⟩ := h.opened s' hs hopen
      have hdisturbed := hwait hopen
      have honTime := hsame hdisturbed
      refine ⟨hconnected, hsent.trans honTime.symm, ?_⟩
      dsimp only
      rw [hqueue]
      rw [honTime, List.append_assoc] at hgiven
      exact (List.append_cancel_left hgiven).symm
    kept := fun s' hs => by
      dsimp only
      rw [← List.append_assoc, h.kept s' hs, hgiven]
    undisturbed := hlate
    error := h.error
    received := h.received }

variable (rt : Runtime) (handlers : Callback → Bool)

theorem up_of_connected (hup : w.page.client.status = .connected) : w.up = true := by
  simp [Watched.up, hup]

/-- A frame goes to the open socket or into the queue. -/
theorem sent (h : Inv w) (frame : Bytes) : Inv (w.step rt handlers (.send frame)) := by
  by_cases hup : w.page.client.status = .connected
  · obtain ⟨s, hsocket⟩ := Option.isSome_iff_exists.mp (h.alive.mp (up_of_connected hup))
    have hpage : w.page.step rt handlers (.send frame) = w.page.wsSend frame := if_pos hup
    -- whatever keeps the frame from the socket puts it into the queue
    have hwaits : (w.page.ws.connected && (w.page.sockets s).readyState == .opened) = false →
        w.page.wsSend frame =
          { w.page with ws := { w.page.ws with sendQueue := w.page.ws.sendQueue ++ [frame] } } := by
      intro hwait
      rw [Page.wsSend, hsocket]
      dsimp only
      rw [hwait]
      exact if_neg Bool.false_ne_true
    cases hcalm : w.disturbed with
    | false =>
      have hstep : w.step rt handlers (.send frame) = { w with
          page := w.page.wsSend frame
          onTime := w.onTime ++ [frame] } := by
        simp [Watched.step, hup, hcalm, hpage]
      have hlate := h.undisturbed hcalm
      rw [hstep]
      by_cases hopen : (w.page.sockets s).readyState = .opened
      · have hconnected := (h.opened s hsocket hopen).1
        rw [hcalm] at hconnected
        have hsends : w.page.wsSend frame = w.page.setSocket s
            { w.page.sockets s with sent := (w.page.sockets s).sent ++ [frame] } := by
          rw [Page.wsSend, hsocket]
          dsimp only
          rw [hconnected, hopen]
          rfl
        rw [hsends]
        exact h.sent_now hsocket hopen hcalm frame
      · rw [hwaits (by simp [hopen])]
        refine h.queued hsocket (fun hopened => absurd hopened hopen) ?_ ?_ fun _ => hlate
        · rw [hlate, List.append_nil, List.append_nil]
        · rw [hcalm]
          exact fun htrue => by cases htrue
    | true =>
      have hstep : w.step rt handlers (.send frame) = { w with
          page := w.page.wsSend frame
          late := w.late ++ [frame] } := by
        simp [Watched.step, hup, hcalm, hpage]
      have hwait : (w.page.ws.connected && (w.page.sockets s).readyState == .opened) = false := by
        by_cases hopen : (w.page.sockets s).readyState = .opened
        · have hconnected := (h.opened s hsocket hopen).1
          simp [hconnected, hcalm]
        · simp [hopen]
      rw [hstep, hwaits hwait]
      refine h.queued hsocket (fun _ => hcalm) ?_ (fun _ => rfl) ?_
      · rw [List.append_assoc]
      · rw [hcalm]
        exact fun hfalse => by cases hfalse
  · have hstep : w.step rt handlers (.send frame) = w := by
      simp [Watched.step, Page.step, Page.sendPayload, hup]
    rw [hstep]
    exact h

theorem readMessages_cut (msgs : List Bytes) (recvBuf : Bytes) :
    ∃ read, msgs = read ++ (WebClient.readMessages msgs recvBuf).1 ∧
      (WebClient.readMessages msgs recvBuf).2 =
        recvBuf ++ read.flatMap fun msg => WebClient.getNextMessage msg maxFrameLen := by
  induction msgs generalizing recvBuf with
  | nil => exact ⟨[], rfl, (List.append_nil _).symm⟩
  | cons msg msgs ih =>
    unfold WebClient.readMessages
    split_ifs with hnone
    · refine ⟨[msg], rfl, ?_⟩
      rw [List.flatMap_singleton, List.length_eq_zero_iff.mp hnone, List.append_nil]
    · obtain ⟨read, hread, hbuf⟩ := ih (recvBuf ++ WebClient.getNextMessage msg maxFrameLen)
      refine ⟨msg :: read, congrArg (msg :: ·) hread, ?_⟩
      rw [hbuf, List.flatMap_cons, List.append_assoc]

/-- What `Poll` does on an open socket. -/
theorem poll_processed {c : WebClient} (hup : c.status = .connected) :
    WebClient.Processed rt handlers { c with
      receiveBuffer := (WebClient.readMessages c.receiveBuffer c.recvBuf).1
      recvBuf := (WebClient.readMessages c.receiveBuffer c.recvBuf).2 } (c.poll rt handlers) := by
  rw [WebClient.poll, if_pos hup]
  exact WebClient.processFrames_processed hup

/-- What `Poll` makes of an open socket's messages. -/
theorem reads_poll {arrived : List Bytes} {c : WebClient} (hreads : Reads arrived c)
    (hup : c.status = .connected) (hstays : (c.poll rt handlers).status ≠ .disconnected) :
    Reads arrived (c.poll rt handlers) := by
  obtain ⟨old, rfl, haccount⟩ := hreads
  obtain ⟨read, hread, hbuf⟩ := readMessages_cut c.receiveBuffer c.recvBuf
  have hdone := @poll_processed rt handlers c hup
  refine ⟨old ++ read, ?_, ?_⟩
  · rw [hdone.queue hstays, List.append_assoc, ← hread]
  · rw [hdone.account hstays, List.flatMap_append, ← haccount, WebClient.account, hbuf,
      WebClient.account, List.append_assoc]

/-- The client goes on with what it has read. -/
theorem polledOn (h : Inv w) {client : WebClient} (hup : client.status ≠ .disconnected)
    (hwas : w.up = true) (hreads : Reads w.arrived client) :
    Inv { w with page := { w.page with client := client } } :=
  { h with
    alive := iff_of_true (by simp [Watched.up, hup]) (h.alive.mp hwas)
    error := fun _ => h.error hwas
    received := fun _ => hreads }

theorem polled (h : Inv w) : Inv (w.step rt handlers .poll) := by
  by_cases hup : w.page.client.status = .connected
  · have hwas := up_of_connected hup
    have hdown : ∀ client : WebClient, client.status = .disconnected →
        w.page.poll rt handlers = { w.page.wsClose with client := client } →
        Inv (w.step rt handlers .poll) := by
      intro client hclient hpage
      have hstep : w.step rt handlers .poll =
          { Watched.start with page := { w.page.wsClose with client := client } } := by
        simp [Watched.step, Page.step, hpage, Watched.up, hup, hclient]
      rw [hstep]
      exact h.down hclient
    have hstays : ∀ page, w.page.poll rt handlers = page → page.client.status ≠ .disconnected →
        w.step rt handlers .poll = { w with page := page } := by
      rintro page rfl hstays
      simp [Watched.step, Page.step, Watched.up, hstays]
    cases hstate : w.page.getState with
    | closed | error =>
      refine hdown w.page.client.handleDisconnect rfl ?_
      rw [Page.poll, if_pos hup, hstate]
      rfl
    | connecting =>
      have hpage : w.page.poll rt handlers = w.page := by
        rw [Page.poll, if_pos hup, hstate]
      rw [hstays _ hpage (by simp [hup])]
      exact h
    | opened =>
      by_cases hends : (w.page.client.poll rt handlers).status = .disconnected
      · refine hdown _ hends ?_
        rw [Page.poll, if_pos hup, hstate]
        exact if_pos hends
      · rw [hstays { w.page with client := w.page.client.poll rt handlers } ?_ hends]
        · exact h.polledOn hends hwas (reads_poll rt handlers (h.received hwas) hup hends)
        · rw [Page.poll, if_pos hup, hstate]
          exact if_neg hends
  · have hpage : w.page.step rt handlers .poll = w.page := if_neg hup
    have hstep : w.step rt handlers .poll = w := by
      simp [Watched.step, hpage, Watched.up]
    rw [hstep]
    exact h

theorem opens (h : Inv w) {s : ℕ} (hb : w.page.Possible (.opens s)) :
    Inv (w.step rt handlers (.opens s)) := by
  obtain ⟨hs, hconnecting⟩ := hb
  have hsocket := h.present_of_live hs (.inl hconnecting)
  obtain ⟨_, hcalm, hsent⟩ := h.connecting s hsocket hconnecting
  have hkept := h.kept s hsocket
  have hlate := h.undisturbed hcalm
  rw [hlate, List.append_nil] at hkept
  have hnow : ∀ {s'}, w.page.ws.socket = some s' → s' = s :=
    fun hs => Option.some.inj (hs.symm.trans hsocket)
  exact {
    last := h.last
    others := fun s' hs' hne => by
      have hother : s' ≠ s := fun heq => hne (heq ▸ hsocket)
      simp only [Watched.step, Page.step, Page.opens]
      rw [Function.update_of_ne hother]
      exact h.others s' hs' hne
    alive := h.alive
    nobody := fun hnone => by cases hsocket.symm.trans hnone
    connecting := fun s' hs' hconn => by
      obtain rfl := hnow hs'
      simp only [Watched.step, Page.step, Page.opens, Function.update_self] at hconn
      cases hconn
    opened := fun s' hs' _ => by
      obtain rfl := hnow hs'
      simp [Watched.step, Page.step, Page.opens, hcalm, hkept, hlate]
    kept := fun s' hs' => by
      obtain rfl := hnow hs'
      simp only [Watched.step, Page.step, Page.opens, Function.update_self, hkept, hlate]
    undisturbed := h.undisturbed
    error := h.error
    received := h.received }

theorem message (h : Inv w) {s : ℕ} {data : Bytes} (hb : w.page.Possible (.message s data)) :
    Inv (w.step rt handlers (.message s data)) := by
  have hsocket := h.present_of_live hb.1 (.inr hb.2)
  exact { h with
    nobody := fun hnone => by cases hsocket.symm.trans hnone
    received := fun hup => by
      obtain ⟨read, harrived, haccount⟩ := h.received hup
      refine ⟨read, ?_, haccount⟩
      simp only [Watched.step, Page.step, Page.message, harrived, List.append_assoc] }

section
variable {s : ℕ} {sockets : ℕ → Socket} {state : ReadyState}

/-- A socket that has stopped is as it was, but for its state. -/
theorem sent_of_stopped
    (hsockets : sockets = Function.update w.page.sockets s ⟨state, (w.page.sockets s).sent⟩)
    (s' : ℕ) :
    (sockets s').sent = (w.page.sockets s').sent := by
  rw [hsockets]
  by_cases heq : s' = s
  · rw [heq, Function.update_self]
  · rw [Function.update_of_ne heq]

/-- Other sockets than the present one are given up still. -/
theorem others_of_stopped (h : Inv w)
    (hsockets : sockets = Function.update w.page.sockets s ⟨state, (w.page.sockets s).sent⟩)
    (hstate : state = .closing ∨ state = .closed) (s' : ℕ) (hs' : s' < w.page.count)
    (hne : w.page.ws.socket ≠ some s') :
    (sockets s').readyState = .closing ∨ (sockets s').readyState = .closed := by
  rw [hsockets]
  by_cases heq : s' = s
  · rw [heq, Function.update_self]
    exact hstate
  · rw [Function.update_of_ne heq]
    exact h.others s' hs' hne

/-- Whichever socket lives still is another one than the one that has stopped. -/
theorem ne_of_stopped
    (hsockets : sockets = Function.update w.page.sockets s ⟨state, (w.page.sockets s).sent⟩)
    (hstate : state = .closing ∨ state = .closed) {s' : ℕ}
    (hlive : (sockets s').readyState = .connecting ∨ (sockets s').readyState = .opened) :
    s' ≠ s ∧ sockets s' = w.page.sockets s' := by
  have hne : s' ≠ s := by
    rintro rfl
    rw [hsockets, Function.update_self] at hlive
    rcases hstate with rfl | rfl <;> rcases hlive with hlive | hlive <;> cases hlive
  refine ⟨hne, ?_⟩
  rw [hsockets, Function.update_of_ne hne]

end

theorem closing (h : Inv w) {s : ℕ} (hb : w.page.Possible (.closing s)) :
    Inv (w.step rt handlers (.closing s)) := by
  have hsocket := h.present_of_live hb.1 (.inr hb.2)
  have hnow : ∀ {s'}, w.page.ws.socket = some s' → s' = s :=
    fun hs => Option.some.inj (hs.symm.trans hsocket)
  have hshut : Page.shut (w.page.sockets s) = ⟨.closing, (w.page.sockets s).sent⟩ := by
    have hopen := hb.2
    cases hold : w.page.sockets s with
    | mk state sent =>
      rw [hold] at hopen
      obtain rfl : state = .opened := hopen
      rfl
  have hsockets : (w.step rt handlers (.closing s)).page.sockets =
      Function.update w.page.sockets s ⟨.closing, (w.page.sockets s).sent⟩ := by
    rw [← hshut]
    rfl
  exact {
    last := h.last
    others := fun s' hs' hne => h.others_of_stopped hsockets (.inl rfl) s' hs' hne
    alive := h.alive
    nobody := fun hnone => by cases hsocket.symm.trans hnone
    connecting := fun s' hs' hconn =>
      absurd (hnow hs') (ne_of_stopped hsockets (.inl rfl) (.inl hconn)).1
    opened := fun s' hs' hopen =>
      absurd (hnow hs') (ne_of_stopped hsockets (.inl rfl) (.inr hopen)).1
    kept := fun s' hs' => by
      rw [sent_of_stopped hsockets]
      exact h.kept s' hs'
    undisturbed := h.undisturbed
    error := h.error
    received := h.received }

theorem closes (h : Inv w) (s : ℕ) (failed : Bool) : Inv (w.step rt handlers (.closes s failed)) := by
  have hsockets : (w.step rt handlers (.closes s failed)).page.sockets =
      Function.update w.page.sockets s ⟨.closed, (w.page.sockets s).sent⟩ := rfl
  exact {
    last := h.last
    others := fun s' hs' hne => h.others_of_stopped hsockets (.inr rfl) s' hs' hne
    alive := h.alive
    nobody := h.nobody
    connecting := fun s' hs' hconn => by
      obtain ⟨hne, hsame⟩ := ne_of_stopped hsockets (.inr rfl) (.inl hconn)
      rw [hsame] at hconn ⊢
      obtain ⟨_, hcalm, hsent⟩ := h.connecting s' hs' hconn
      have hsocket' : w.page.ws.socket = some s' := hs'
      have hpresent : w.present = some .connecting := by
        rw [Watched.present, hsocket', Option.map_some, hconn]
      refine ⟨rfl, ?_, hsent⟩
      simp [Watched.step, hcalm, hpresent]
    opened := fun s' hs' hopen => by
      obtain ⟨hne, hsame⟩ := ne_of_stopped hsockets (.inr rfl) (.inr hopen)
      rw [hsame] at hopen ⊢
      obtain ⟨_, hsent, hqueue⟩ := h.opened s' hs' hopen
      have hsocket' : w.page.ws.socket = some s' := hs'
      have hpresent : w.present = some .opened := by
        rw [Watched.present, hsocket', Option.map_some, hopen]
      have hsocket : w.page.ws.socket ≠ some s := by
        intro heq
        exact hne (Option.some.inj (hsocket'.symm.trans heq))
      refine ⟨?_, hsent, hqueue⟩
      simp [Watched.step, Page.step, Page.closes, hpresent, hsocket]
    kept := fun s' hs' => by
      rw [sent_of_stopped hsockets]
      exact h.kept s' hs'
    undisturbed := fun hcalm => h.undisturbed (Bool.or_eq_false_iff.mp hcalm).1
    error := fun hup => by
      have hup' : w.up = true := hup
      have herror := h.error hup'
      simp [Watched.step, Page.step, Page.closes, herror, hup']
    received := h.received }

theorem step (h : Inv w) {a : Act} (hb : w.page.Possible a) : Inv (w.step rt handlers a) := by
  cases a with
  | connect => exact h.connected
  | disconnect => exact h.disconnected
  | send frame => exact h.sent rt handlers frame
  | poll => exact h.polled rt handlers
  | opens s => exact h.opens rt handlers hb
  | message s data => exact h.message rt handlers hb
  | closing s => exact h.closing rt handlers hb
  | closes s failed => exact h.closes rt handlers s failed

end Inv

theorem inv_start : Inv .start where
  last s hs := by cases hs
  others s hs _ := by cases hs
  alive := ⟨fun h => (by cases h), fun h => by cases h⟩
  nobody _ := ⟨rfl, rfl, rfl⟩
  connecting s hs _ := by cases hs
  opened s hs _ := by cases hs
  kept s hs := by cases hs
  undisturbed _ := rfl
  error hup := by cases hup
  received hup := by cases hup

/-! ## Every run -/

/-- What the C# client may rely on. -/
structure Faithful (rt : Runtime) (handlers : Callback → Bool) (w : Watched) : Prop where
  /-- Every frame accepted on this connection was passed to its socket or is in the queue, in order
  and once. -/
  kept : ∀ s, w.page.ws.socket = some s →
    (w.page.sockets s).sent ++ w.page.ws.sendQueue = w.onTime ++ w.late
  /-- An open socket was passed those accepted before an earlier socket's `onclose` came, and those
  after it wait. -/
  opened : ∀ s, w.page.ws.socket = some s → (w.page.sockets s).readyState = .opened →
    (w.page.sockets s).sent = w.onTime ∧ w.page.ws.sendQueue = w.late
  late : w.late ≠ [] → w.disturbed = true
  received : w.up = true → Reads w.arrived w.page.client
  /-- `Poll` gives the connection up when its socket is closed, when a socket has failed since, or
  over the bytes that it has read. -/
  givesUp : w.page.client.status = .connected →
    ((w.page.poll rt handlers).client.status ≠ .connected ↔
      w.failed = true ∨ w.present = some .closing ∨ w.present = some .closed ∨
        w.present = some .opened ∧ WebClient.Faulty rt handlers
          (WebClient.readMessages w.page.client.receiveBuffer w.page.client.recvBuf).2)
  /-- Otherwise it reads all messages of an open socket, unless one is empty, and leaves no whole
  frame. -/
  reads : w.page.client.status = .connected → w.present = some .opened →
    (w.page.poll rt handlers).client.status = .connected → [] ∉ w.page.client.receiveBuffer →
      (w.page.poll rt handlers).client.receiveBuffer = [] ∧
        head maxFrameLen (w.page.poll rt handlers).client.recvBuf = .incomplete

section
variable {rt : Runtime} {handlers : Callback → Bool} {w : Watched}

theorem readMessages_all {msgs : List Bytes} (h : [] ∉ msgs) (recvBuf : Bytes) :
    (WebClient.readMessages msgs recvBuf).1 = [] := by
  induction msgs generalizing recvBuf with
  | nil => rfl
  | cons msg msgs ih =>
    rw [List.mem_cons, not_or] at h
    obtain ⟨hmsg, hmsgs⟩ := h
    have hsome : (WebClient.getNextMessage msg maxFrameLen).length ≠ 0 := by
      have hlen : msg.length ≠ 0 := fun hnil => hmsg (List.length_eq_zero_iff.mp hnil).symm
      have hmax : maxFrameLen ≠ 0 := by decide
      rw [WebClient.getNextMessage, List.length_take]
      omega
    rw [WebClient.readMessages, if_neg hsome]
    exact ih hmsgs _

theorem Inv.poll_opened (h : Inv w) (hup : w.page.client.status = .connected)
    (hopen : w.present = some .opened) (hwell : w.failed = false) :
    (w.page.poll rt handlers).client = w.page.client.poll rt handlers := by
  obtain ⟨s, hsocket, hstate⟩ := Option.map_eq_some_iff.mp hopen
  have herror := (h.error (Inv.up_of_connected hup)).trans hwell
  rw [Page.poll, if_pos hup, Page.getState, herror, hsocket]
  dsimp only
  rw [hstate]
  simp only [Bool.false_eq_true, if_false]
  split_ifs <;> rfl

theorem Inv.givesUp (h : Inv w) (hup : w.page.client.status = .connected) :
    (w.page.poll rt handlers).client.status ≠ .connected ↔
      w.failed = true ∨ w.present = some .closing ∨ w.present = some .closed ∨
        w.present = some .opened ∧ WebClient.Faulty rt handlers
          (WebClient.readMessages w.page.client.receiveBuffer w.page.client.recvBuf).2 := by
  have hwas := Inv.up_of_connected hup
  obtain ⟨s, hsocket⟩ := Option.isSome_iff_exists.mp (h.alive.mp hwas)
  have hpresent : w.present = some (w.page.sockets s).readyState := by
    rw [Watched.present, hsocket]
    rfl
  cases hfailed : w.failed with
  | true =>
    rw [Page.poll, if_pos hup, Page.getState, h.error hwas, hfailed]
    simp [Page.disconnect, WebClient.handleDisconnect]
  | false =>
    cases hstate : (w.page.sockets s).readyState with
    | opened =>
      rw [hstate] at hpresent
      have hends := (@Inv.poll_processed rt handlers _ hup).stays.not_left
      rw [h.poll_opened hup hpresent hfailed, hpresent]
      simpa using hends
    | _ =>
      rw [hstate] at hpresent
      rw [Page.poll, if_pos hup, Page.getState, h.error hwas, hfailed, hsocket, hpresent]
      simp [Page.disconnect, WebClient.handleDisconnect, hstate, hup]

theorem Inv.reads (h : Inv w) (hup : w.page.client.status = .connected)
    (hopen : w.present = some .opened)
    (hstays : (w.page.poll rt handlers).client.status = .connected)
    (hfull : [] ∉ w.page.client.receiveBuffer) :
    (w.page.poll rt handlers).client.receiveBuffer = [] ∧
      head maxFrameLen (w.page.poll rt handlers).client.recvBuf = .incomplete := by
  have hwell : w.failed = false := by
    by_contra hfailed
    exact (h.givesUp hup).mpr (.inl (Bool.eq_true_of_not_eq_false hfailed)) hstays
  have hdone := @Inv.poll_processed rt handlers _ hup
  rw [h.poll_opened hup hopen hwell] at hstays ⊢
  refine ⟨(hdone.queue ?_).trans (readMessages_all hfull _), hdone.incomplete hstays⟩
  rw [hstays]
  exact fun hdown => by cases hdown

variable (rt handlers)

/-- In every run, whatever the client calls and the browser does, whichever sockets of earlier
connections are still to be closed, if the callbacks leave the client alone. -/
theorem bridge_faithful (h : Reaches (Watched.step rt handlers) (fun w a => w.page.Possible a)
    .start w) : Faithful rt handlers w := by
  have hinv := h.invariant inv_start fun w a hinv hb => hinv.step rt handlers hb
  refine ⟨hinv.kept, fun s hs hopen => (hinv.opened s hs hopen).2, fun hlate => ?_, hinv.received,
    hinv.givesUp, hinv.reads⟩
  by_contra hcalm
  exact hlate (hinv.undisturbed (Bool.eq_false_iff.mpr hcalm))

end

/-- A connection is made anew; the next socket is open when the first one is closed at last, and the
beginning of a frame comes on it. -/
def reconnected : Watched :=
  exec (Watched.step ⟨64, fun _ => ""⟩ fun _ => true) .start
    [.connect, .opens 0, .send [1], .connect, .send [2], .opens 1, .closes 0 false, .send [3],
      .message 1 [1, 0]]

/-- What is sent after that stays in the queue of an open socket, and what comes on it is read. -/
theorem frame_stranded : (reconnected.page.sockets 1).readyState = .opened ∧
    (reconnected.page.sockets 1).sent = [[2]] ∧ reconnected.page.ws.sendQueue = [[3]] ∧
      (reconnected.page.poll ⟨64, fun _ => ""⟩ fun _ => true).client.receiveBuffer = [] := by
  have hreach : Reaches (Watched.step ⟨64, fun _ => ""⟩ fun _ => true)
      (fun w a => w.page.Possible a) .start reconnected :=
    Reaches.exec .refl (by
      refine ⟨?_, ?_, ?_, ?_, ?_, ?_, ?_, ?_, ?_, trivial⟩ <;> (beta_reduce; decide))
  have hopen : (reconnected.page.sockets 1).readyState = .opened := by decide
  have hfaithful := bridge_faithful ⟨64, fun _ => ""⟩ (fun _ => true) hreach
  obtain ⟨hsent, hqueue⟩ := hfaithful.opened 1 (by decide) hopen
  have hstays : (reconnected.page.poll ⟨64, fun _ => ""⟩ fun _ => true).client.status =
      .connected := by
    by_contra hdown
    obtain hfailed | hclosing | hclosed | ⟨-, hfaulty⟩ :=
      (hfaithful.givesUp (by decide)).mp hdown
    · exact absurd hfailed (by decide)
    · exact absurd hclosing (by decide)
    · exact absurd hclosed (by decide)
    · exact WebClient.not_faulty rfl hfaulty
  exact ⟨hopen, hsent.trans (by decide), hqueue.trans (by decide),
    (hfaithful.reads (by decide) (by decide) hstays (by decide)).1⟩

end Roomie.Csharp.Bridge
