import Roomie.Frames
import Roomie.MessageCodec
import Roomie.ServerRuns

/-!
# The loops of the two transports

`handle_connection` and `handle_ws_connection` are written down twice. One takes its payloads from a
codec that cuts them out of a byte stream, the other checks the frame in each binary message itself.
What is fed to both as frames is handled alike: at any moment both have dispatched, enqueued and
sent the same, and both are open or were closed for the same reason.

A payload has arrived with the last byte of its frame; over TCP the bytes before may come earlier, in
any pieces. What goes on elsewhere, what channels answer and when a branch of `select!` is taken are
parts of the run.
-/

namespace Roomie.Transports
open Bincode Frames GuardedRuns

/-! ## What the loops have in common -/

/-- `CONNECTION_IDLE_TIMEOUT`, in milliseconds. -/
def connectionIdleTimeout : ℕ := 120000

/-- `RATE_LIMIT_WINDOW`, in milliseconds. -/
def rateLimitWindow : ℕ := 1000

/-- `RATE_LIMIT_MAX`. -/
def rateLimitMax : ℕ := 200

/-- Why a loop was left: too many frames, silence, the end of the stream, an error of the stream, a
message that cannot be encoded, or one that the socket does not take. -/
inductive Reason where
  | rateLimit | idle | ended | broken | unencodable | unsent
  deriving DecidableEq

/-- What can be told of a connection: the calls of `dispatch` with the session they were made for,
what was put on its queue, and with what session it was closed, and why. -/
structure Observed where
  dispatched : List (Option Session × ClientMessage)
  enqueued : List ServerMessage
  closed : Option (Reason × Option Session)

/-- The local variables of a loop beside the server and the sessions. -/
structure Loop where
  sys : Sys
  rx : List ServerMessage
  idleDeadline : ℕ
  rateCount : ℕ
  rateWindowStart : ℕ
  seen : Observed

/-- A connection is accepted; the clock is read twice. -/
def Loop.start (sys : Sys) (now later : ℕ) : Loop :=
  ⟨sys, [], now + connectionIdleTimeout, 0, later, ⟨[], [], none⟩⟩

namespace Loop
variable (me : ConnId)

/-- These messages are on the queue of the connection now. -/
def enqueue (ms : List ServerMessage) (l : Loop) : Loop :=
  { l with rx := l.rx ++ ms, seen := { l.seen with enqueued := l.seen.enqueued ++ ms } }

/-- `let _ = tx.try_send(ServerMessage::Error { .. })`. -/
def report (env : Env) (message : String) (l : Loop) : Loop :=
  l.enqueue (onChannel me (delivered env (trySend env [] me (.error message)).2))

/-- `dispatch`, and the loop that sends the replies. -/
def dispatch (env : Env) (msg : ClientMessage) (l : Loop) : Loop :=
  let a : Action := ⟨env, me, .message msg⟩
  { l with
    sys := step l.sys a
    seen := { l.seen with dispatched := l.seen.dispatched ++ [(l.sys.session me, msg)] }
    }.enqueue (onChannel me (a.sent l.sys))

/-- The loop is left, and `leave_room` is called for the session. -/
def close (env : Env) (reason : Reason) (l : Loop) : Loop :=
  { l with
    sys := step l.sys ⟨env, me, .disconnect⟩
    seen := { l.seen with closed := some (reason, l.sys.session me) } }

/-- Another connection acts. The queue of a connection that was closed is gone. -/
def others (a : Action) (l : Loop) : Loop :=
  let l' := { l with sys := step l.sys a }
  if l.seen.closed.isSome then l' else l'.enqueue (onChannel me (a.sent l.sys))

def isOpen (l : Loop) : Bool := l.seen.closed.isNone

end Loop

/-- What happens to a connection, whichever transport it uses: a payload arrives, after the first
bytes of its frame perhaps; the stream ends; a branch of `select!` is taken, at the time that the
clock shows, and what is sent in it goes out or fails; another connection acts. -/
inductive Event (me : ConnId) where
  | early (n : ℕ)
  | arrives (payload : Bytes) (short : payload.length ≤ maxFrameLen)
  | ends
  | incoming (env : Env) (now later : ℕ)
  | outgoing (env : Env) (sent : Bool)
  | idle (env : Env) (now : ℕ)
  | other (a : Action) (foreign : a.conn ≠ me)

/-! ## TCP -/

/-- A TCP connection: the bytes received and not consumed, how many of them begin a frame of which
more is to come, and the bytes written, without those of a send that failed. -/
structure Tcp where
  buf : Bytes
  begun : ℕ
  ended : Bool
  written : Bytes
  loop : Loop

namespace Tcp
variable (me : ConnId)

/-- `handle_connection` after a frame was taken from the codec. -/
def receive (env : Env) (now later : ℕ) (payload : Bytes) (l : Loop) : Loop :=
  let l := if rateLimitWindow ≤ now - l.rateWindowStart then
    { l with rateCount := 0, rateWindowStart := now } else l
  let l := { l with rateCount := l.rateCount + 1 }
  if rateLimitMax < l.rateCount then l.close me env .rateLimit
  else match ClientMessage.decode payload with
    | none => l.report me env "invalid message"
    | some msg =>
      { l with idleDeadline := later + connectionIdleTimeout }.dispatch me env msg

/-- The branch of `framed.next()`; it is not ready while the codec has no frame. A read that fails
counts as the end of the stream. -/
def incoming (env : Env) (now later : ℕ) (c : Tcp) : Tcp :=
  match head maxFrameLen c.buf with
  | .frame payload rest => { c with buf := rest, loop := receive me env now later payload c.loop }
  | .oversized => { c with loop := c.loop.close me env .broken }
  | .incomplete =>
    if c.ended then
      { c with loop := c.loop.close me env (if c.buf.isEmpty then .ended else .broken) }
    else c

/-- The branch of `rx.recv()`; the codec puts the length in front. It has the limit of `encode`, so
nothing that was encoded is too long for it; but the socket may fail. -/
def outgoing (env : Env) (sent : Bool) (c : Tcp) : Tcp :=
  match c.loop.rx with
  | [] => c
  | out :: rest =>
    let c := { c with loop := { c.loop with rx := rest } }
    match out.encode with
    | some payload =>
      if sent then { c with written := c.written ++ frame payload }
      else { c with loop := c.loop.close me env .unsent }
    | none => { c with loop := c.loop.close me env .unencodable }

/-- The branch of `sleep_until(idle_deadline)`. -/
def idle (env : Env) (now : ℕ) (c : Tcp) : Tcp :=
  if c.loop.idleDeadline ≤ now then { c with loop := c.loop.close me env .idle } else c

/-- The frame that comes next. -/
def upcoming {me : ConnId} : List (Event me) → Bytes
  | [] => []
  | .arrives payload _ :: _ => frame payload
  | .ends :: _ => []
  | _ :: rest => upcoming rest

/-- An event is handled, with these to come. Early bytes are those of the next frame, which is
complete with its arrival only. -/
def handle (c : Tcp) (rest : List (Event me)) : Event me → Tcp
  | .early n =>
    if c.ended then c
    else
      let more := ((upcoming rest).drop c.begun).take
        (min n ((upcoming rest).length - 1 - c.begun))
      { c with buf := c.buf ++ more, begun := c.begun + more.length }
  | .arrives payload _ =>
    if c.ended then c
    else { c with buf := c.buf ++ (frame payload).drop c.begun, begun := 0 }
  | .ends => { c with ended := true }
  | .incoming env now later => if c.loop.isOpen then c.incoming me env now later else c
  | .outgoing env sent => if c.loop.isOpen then c.outgoing me env sent else c
  | .idle env now => if c.loop.isOpen then c.idle me env now else c
  | .other a _ => { c with loop := c.loop.others me a }

def start (sys : Sys) (now later : ℕ) : Tcp := ⟨[], 0, false, [], .start sys now later⟩

def run : Tcp → List (Event me) → Tcp
  | c, [] => c
  | c, e :: rest => run (c.handle me rest e) rest

end Tcp

/-! ## WebSocket -/

/-- What `ws_recv.next()` gives. -/
inductive WsMessage where
  | binary (data : Bytes)
  | text (data : String)
  | ping
  | pong
  | close
  | error

/-- A WebSocket connection: the messages received and not handled, and those sent. -/
structure Ws where
  inbox : List WsMessage
  ended : Bool
  sent : List Bytes
  loop : Loop

namespace Ws
variable (me : ConnId)

/-- `handle_ws_connection` after a binary message was received. -/
def receive (env : Env) (now later : ℕ) (msg : Bytes) (l : Loop) : Loop :=
  if msg.length < 4 then l.report me env "frame too short"
  else
    let len := ofLittleEndian (msg.take 4)
    if maxFrameLen < len ∨ msg.length ≠ 4 + len then l.report me env "invalid frame length"
    else
      let payload := msg.drop 4
      let l := if rateLimitWindow ≤ now - l.rateWindowStart then
        { l with rateCount := 0, rateWindowStart := now } else l
      let l := { l with rateCount := l.rateCount + 1 }
      if rateLimitMax < l.rateCount then l.close me env .rateLimit
      else match ClientMessage.decode payload with
        | none => l.report me env "invalid message"
        | some msg =>
          { l with idleDeadline := later + connectionIdleTimeout }.dispatch me env msg

/-- The branch of `ws_recv.next()`; only binary messages are looked at. -/
def incoming (env : Env) (now later : ℕ) (c : Ws) : Ws :=
  match c.inbox with
  | .binary msg :: rest =>
    { c with inbox := rest, loop := receive me env now later msg c.loop }
  | .text _ :: rest | .ping :: rest | .pong :: rest | .close :: rest => { c with inbox := rest }
  | .error :: _ => { c with loop := c.loop.close me env .broken }
  | [] => if c.ended then { c with loop := c.loop.close me env .ended } else c

/-- The branch of `rx.recv()`; the length is put in front by hand. -/
def outgoing (env : Env) (sent : Bool) (c : Ws) : Ws :=
  match c.loop.rx with
  | [] => c
  | out :: rest =>
    let c := { c with loop := { c.loop with rx := rest } }
    match out.encode with
    | some payload =>
      if sent then { c with sent := c.sent ++ [littleEndian 4 payload.length ++ payload] }
      else { c with loop := c.loop.close me env .unsent }
    | none => { c with loop := c.loop.close me env .unencodable }

/-- The branch of `sleep_until(idle_deadline)`. -/
def idle (env : Env) (now : ℕ) (c : Ws) : Ws :=
  if c.loop.idleDeadline ≤ now then { c with loop := c.loop.close me env .idle } else c

/-- A payload comes as one binary message, which is its frame. -/
def handle (c : Ws) : Event me → Ws
  | .early _ => c
  | .arrives payload _ =>
    if c.ended then c else { c with inbox := c.inbox ++ [.binary (frame payload)] }
  | .ends => { c with ended := true }
  | .incoming env now later => if c.loop.isOpen then c.incoming me env now later else c
  | .outgoing env sent => if c.loop.isOpen then c.outgoing me env sent else c
  | .idle env now => if c.loop.isOpen then c.idle me env now else c
  | .other a _ => { c with loop := c.loop.others me a }

def start (sys : Sys) (now later : ℕ) : Ws := ⟨[], false, [], .start sys now later⟩

end Ws

/-! ## The branch of the queue -/

/-- There is nothing to send, or the next message goes out in a frame, or the loop is left over it. -/
inductive Sends (me : ConnId) (env : Env) (l : Loop) : Loop → List Bytes → Prop
  | nothing : Sends me env l l []
  | wrote {out : ServerMessage} {rest : List ServerMessage} {payload : Bytes}
      (rx : l.rx = out :: rest) (encoded : out.encode = some payload) :
      Sends me env l { l with rx := rest } [frame payload]
  | left {out : ServerMessage} {rest : List ServerMessage} {reason : Reason}
      (rx : l.rx = out :: rest) (why : reason = .unencodable ∨ reason = .unsent) :
      Sends me env l ({ l with rx := rest }.close me env reason) []

theorem Tcp.outgoing_sends (me : ConnId) (env : Env) (sent : Bool) (c : Tcp) :
    ∃ l frames, Sends me env c.loop l frames ∧
      c.outgoing me env sent = { c with loop := l, written := c.written ++ frames.flatten } := by
  have hsame : c.written = c.written ++ ([] : List Bytes).flatten := (List.append_nil _).symm
  unfold Tcp.outgoing
  cases hrx : c.loop.rx with
  | nil => exact ⟨_, [], .nothing, by rw [← hsame]⟩
  | cons out rest =>
    dsimp only
    cases hencode : out.encode with
    | none => exact ⟨_, [], .left hrx (.inl rfl), by rw [← hsame]⟩
    | some payload =>
      cases sent with
      | false => exact ⟨_, [], .left hrx (.inr rfl), by rw [← hsame]; rfl⟩
      | true =>
        refine ⟨_, [frame payload], .wrote hrx hencode, ?_⟩
        rw [List.flatten_singleton]
        rfl

theorem Ws.outgoing_sends (me : ConnId) (env : Env) (sent : Bool) (c : Ws) :
    ∃ l frames, Sends me env c.loop l frames ∧
      c.outgoing me env sent = { c with loop := l, sent := c.sent ++ frames } := by
  have hsame : c.sent = c.sent ++ [] := (List.append_nil _).symm
  unfold Ws.outgoing
  cases hrx : c.loop.rx with
  | nil => exact ⟨_, [], .nothing, by rw [← hsame]⟩
  | cons out rest =>
    dsimp only
    cases hencode : out.encode with
    | none => exact ⟨_, [], .left hrx (.inl rfl), by rw [← hsame]⟩
    | some payload =>
      cases sent with
      | false => exact ⟨_, [], .left hrx (.inr rfl), by rw [← hsame]; rfl⟩
      | true => exact ⟨_, [frame payload], .wrote hrx hencode, rfl⟩

/-! ## They agree -/

/-- What both have been fed and have done, with these events to come: the byte stream holds the
frames of the messages in the other one's inbox, and perhaps the beginning of the next. -/
structure Agree {me : ConnId} (t : Tcp) (w : Ws) (rest : List (Event me)) : Prop where
  loop : w.loop = t.loop
  ended : w.ended = t.ended
  begun : t.begun ≤ (Tcp.upcoming rest).length - 1
  whole : t.ended = true → t.begun = 0
  inbound : ∃ payloads : List Bytes, (∀ p ∈ payloads, p.length ≤ maxFrameLen) ∧
    t.buf = payloads.flatMap frame ++ (Tcp.upcoming rest).take t.begun ∧
    w.inbox = payloads.map fun p => .binary (frame p)
  outbound : ∃ payloads : List Bytes, t.written = payloads.flatMap frame ∧
    w.sent = payloads.map frame

section
variable {me : ConnId} {t : Tcp} {w : Ws} {rest : List (Event me)}

/-- The checks that one loop makes by itself let every frame through. -/
theorem receive_frame (env : Env) (now later : ℕ) {payload : Bytes}
    (h : payload.length ≤ maxFrameLen) (l : Loop) :
    Ws.receive me env now later (frame payload) l = Tcp.receive me env now later payload l := by
  have hlen := length_frame payload
  have hheader : ofLittleEndian ((frame payload).take 4) = payload.length := by
    simpa using header_eq maxFrameLen_lt h []
  have hdrop : (frame payload).drop 4 = payload := List.drop_left' (length_littleEndian 4 _)
  unfold Ws.receive
  simp only [hheader, hdrop]
  rw [if_neg (by omega), if_neg (by omega)]
  rfl

/-- What comes next is a frame, or nothing. -/
theorem upcoming_cases (rest : List (Event me)) : Tcp.upcoming rest = [] ∨
    ∃ payload, payload.length ≤ maxFrameLen ∧ Tcp.upcoming rest = frame payload := by
  induction rest with
  | nil => exact .inl rfl
  | cons e rest ih =>
    cases e with
    | arrives payload short => exact .inr ⟨payload, short, rfl⟩
    | ends => exact .inl rfl
    | _ => exact ih

/-- The beginning of a frame is no frame. -/
theorem head_begun {n : ℕ} (h : n ≤ (Tcp.upcoming rest).length - 1) :
    head maxFrameLen ((Tcp.upcoming rest).take n) = .incomplete := by
  rcases upcoming_cases rest with hnone | ⟨payload, hshort, hframe⟩
  · rw [hnone, List.take_nil]
    rfl
  · rw [hframe] at h ⊢
    have hlen := length_frame payload
    refine head_prefix maxFrameLen_lt hshort (List.take_prefix _ _) fun heq => ?_
    have htake := congrArg List.length heq
    rw [List.length_take] at htake
    omega

theorem Agree.incoming (h : Agree t w rest) (env : Env) (now later : ℕ) :
    Agree (t.incoming me env now later) (w.incoming me env now later) rest := by
  obtain ⟨payloads, hshort, hbuf, hinbox⟩ := h.inbound
  cases payloads with
  | nil =>
    have hbuf : t.buf = (Tcp.upcoming rest).take t.begun := hbuf
    have hinbox : w.inbox = [] := hinbox
    have hhead : head maxFrameLen t.buf = .incomplete := by
      rw [hbuf]
      exact head_begun h.begun
    have htcp : t.incoming me env now later =
        if t.ended then { t with loop := t.loop.close me env .ended } else t := by
      unfold Tcp.incoming
      rw [hhead]
      dsimp only
      split_ifs with he hempty
      · rfl
      · -- nothing is left half after the end of the stream
        rw [hbuf, h.whole he] at hempty
        exact absurd rfl hempty
      · rfl
    have hws : w.incoming me env now later =
        if w.ended then { w with loop := w.loop.close me env .ended } else w := by
      simp [Ws.incoming, hinbox]
    rw [htcp, hws]
    by_cases he : t.ended = true
    · rw [if_pos he, if_pos (h.ended.trans he)]
      exact ⟨congrArg (Loop.close me env .ended) h.loop, h.ended, h.begun, h.whole, h.inbound,
        h.outbound⟩
    · rw [if_neg he, if_neg (h.ended ▸ he)]
      exact h
  | cons payload payloads =>
    have hfirst := hshort payload List.mem_cons_self
    have hhead : head maxFrameLen t.buf =
        .frame payload (payloads.flatMap frame ++ (Tcp.upcoming rest).take t.begun) := by
      rw [hbuf, List.flatMap_cons, List.append_assoc]
      exact head_frame maxFrameLen_lt hfirst _
    have htcp : t.incoming me env now later = { t with
        buf := payloads.flatMap frame ++ (Tcp.upcoming rest).take t.begun
        loop := Tcp.receive me env now later payload t.loop } := by
      simp [Tcp.incoming, hhead]
    have hws : w.incoming me env now later = { w with
        inbox := payloads.map fun p => .binary (frame p)
        loop := Ws.receive me env now later (frame payload) w.loop } := by
      simp [Ws.incoming, hinbox]
    rw [htcp, hws, h.loop, receive_frame env now later hfirst]
    exact ⟨rfl, h.ended, h.begun, h.whole,
      ⟨payloads, fun p hp => hshort p (List.mem_cons_of_mem _ hp), rfl, rfl⟩, h.outbound⟩

theorem Agree.outgoing (h : Agree t w rest) (env : Env) (sent : Bool) :
    Agree (t.outgoing me env sent) (w.outgoing me env sent) rest := by
  obtain ⟨payloads, hwritten, hsent⟩ := h.outbound
  unfold Tcp.outgoing Ws.outgoing
  rw [h.loop]
  cases t.loop.rx with
  | nil => exact h
  | cons out more =>
    dsimp only
    cases out.encode with
    | none => exact ⟨rfl, h.ended, h.begun, h.whole, h.inbound, h.outbound⟩
    | some payload =>
      cases sent with
      | false => exact ⟨rfl, h.ended, h.begun, h.whole, h.inbound, h.outbound⟩
      | true =>
        refine ⟨rfl, h.ended, h.begun, h.whole, h.inbound, payloads ++ [payload], ?_, ?_⟩
        · simp [hwritten]
        · simp [hsent, frame]

theorem Agree.idle (h : Agree t w rest) (env : Env) (now : ℕ) :
    Agree (t.idle me env now) (w.idle me env now) rest := by
  unfold Tcp.idle Ws.idle
  rw [h.loop]
  split_ifs
  · exact ⟨rfl, h.ended, h.begun, h.whole, h.inbound, h.outbound⟩
  · exact h

/-- More of the next frame has arrived. -/
theorem take_early (up : Bytes) (b n : ℕ) :
    up.take b ++ (up.drop b).take n = up.take (b + ((up.drop b).take n).length) := by
  rw [List.take_add, List.length_take, ← List.take_eq_take_min]

/-- An event that brings no bytes leaves what comes next as it is. -/
theorem Agree.skip {e : Event me} (h : Agree t w (e :: rest))
    (hsame : Tcp.upcoming (e :: rest) = Tcp.upcoming rest) : Agree t w rest :=
  ⟨h.loop, h.ended, hsame ▸ h.begun, h.whole, hsame ▸ h.inbound, h.outbound⟩

theorem Agree.early {n : ℕ} (h : Agree t w (.early n :: rest)) :
    Agree (t.handle me rest (.early n)) (w.handle me (.early n)) rest := by
  have hrest := h.skip rfl
  by_cases he : t.ended = true
  · rw [show t.handle me rest (.early n) = t from if_pos he]
    exact hrest
  · obtain ⟨payloads, hshort, hbuf, hinbox⟩ := hrest.inbound
    have hle := hrest.begun
    rw [show t.handle me rest (.early n) = _ from if_neg he]
    refine ⟨h.loop, h.ended, ?_, fun ht => absurd ht he, ⟨payloads, hshort, ?_, hinbox⟩,
      h.outbound⟩
    · dsimp only
      rw [List.length_take, List.length_drop]
      omega
    · dsimp only
      rw [hbuf, List.append_assoc, take_early]

/-- The rest of the frame arrives, and the message. -/
theorem Agree.arrives {payload : Bytes} {short : payload.length ≤ maxFrameLen}
    (h : Agree t w (.arrives payload short :: rest)) :
    Agree (t.handle me rest (.arrives payload short)) (w.handle me (.arrives payload short))
      rest := by
  by_cases he : t.ended = true
  · rw [show t.handle me rest (.arrives payload short) = t from if_pos he,
      show w.handle me (.arrives payload short) = w from if_pos (h.ended.trans he)]
    have hzero := h.whole he
    refine ⟨h.loop, h.ended, by omega, h.whole, ?_, h.outbound⟩
    simpa only [hzero, List.take_zero] using h.inbound
  · obtain ⟨payloads, hshort, hbuf, hinbox⟩ := h.inbound
    have hbuf : t.buf = payloads.flatMap frame ++ (frame payload).take t.begun := hbuf
    rw [show t.handle me rest (.arrives payload short) = _ from if_neg he,
      show w.handle me (.arrives payload short) = _ from if_neg (h.ended ▸ he)]
    refine ⟨h.loop, h.ended, Nat.zero_le _, fun ht => absurd ht he,
      ⟨payloads ++ [payload], ?_, ?_, ?_⟩, h.outbound⟩
    · intro p hp
      rcases List.mem_append.mp hp with hp | hp
      · exact hshort p hp
      · rw [List.mem_singleton.mp hp]
        exact short
    · dsimp only
      rw [hbuf, List.append_assoc, List.take_append_drop, List.take_zero, List.append_nil,
        List.flatMap_append, List.flatMap_singleton]
    · simp [hinbox]

theorem Agree.ends (h : Agree t w (.ends :: rest)) :
    Agree (t.handle me rest .ends) (w.handle me .ends) rest := by
  have hzero : t.begun = 0 := Nat.le_zero.mp h.begun
  refine ⟨h.loop, rfl, ?_, fun _ => hzero, ?_, h.outbound⟩
  · change t.begun ≤ _
    omega
  · simpa only [Tcp.handle, Ws.handle, hzero, List.take_zero] using h.inbound

/-- Whatever happens, both handle it alike. -/
theorem Agree.handle {e : Event me} (h : Agree t w (e :: rest)) :
    Agree (t.handle me rest e) (w.handle me e) rest := by
  cases e with
  | early n => exact h.early
  | arrives payload short => exact h.arrives
  | ends => exact h.ends
  | incoming env now later =>
    have hrest := h.skip rfl
    simp only [Tcp.handle, Ws.handle, h.loop]
    split_ifs
    · exact hrest.incoming env now later
    · exact hrest
  | outgoing env sent =>
    have hrest := h.skip rfl
    simp only [Tcp.handle, Ws.handle, h.loop]
    split_ifs
    · exact hrest.outgoing env sent
    · exact hrest
  | idle env now =>
    have hrest := h.skip rfl
    simp only [Tcp.handle, Ws.handle, h.loop]
    split_ifs
    · exact hrest.idle env now
    · exact hrest
  | other a foreign =>
    exact ⟨congrArg (Loop.others me a) h.loop, h.ended, h.begun, h.whole, h.inbound, h.outbound⟩

end

/-- After every sequence of events the two transports have called `dispatch` alike, put the same on
the queue and sent the same payloads, and are both open or closed for the same reason and with the
same session; the server and all sessions are in the same state. -/
theorem transports_agree (me : ConnId) (sys : Sys) (now later : ℕ) (events : List (Event me)) :
    let t := Tcp.run me (.start sys now later) events
    let w := exec (Ws.handle me) (.start sys now later) events
    w.loop.seen = t.loop.seen ∧ w.loop.rx = t.loop.rx ∧ w.loop.sys = t.loop.sys ∧
      ∃ payloads : List Bytes, t.written = payloads.flatMap frame ∧
        w.sent = payloads.map frame := by
  have hrun : ∀ (t : Tcp) (w : Ws), Agree t w events →
      Agree (Tcp.run me t events) (exec (Ws.handle me) w events) ([] : List (Event me)) := by
    induction events with
    | nil => exact fun _ _ h => h
    | cons e events ih => exact fun _ _ h => ih _ _ h.handle
  have hstart : Agree (.start sys now later) (.start sys now later) events :=
    ⟨rfl, rfl, Nat.zero_le _, fun _ => rfl, ⟨[], (fun _ hp => by cases hp), rfl, rfl⟩, [], rfl, rfl⟩
  have hagree := hrun _ _ hstart
  exact ⟨by rw [hagree.loop], by rw [hagree.loop], by rw [hagree.loop], hagree.outbound⟩

end Roomie.Transports
