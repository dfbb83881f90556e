import Roomie.GmlCalls
import Roomie.SilentConnections

/-!
# What a client says over its socket

The calls of a client are frames on a stream that arrives in any pieces, or binary messages. The
loop of its connection takes them one by one, between the messages that it writes, the ticks of its
clock and what other connections do. What it dispatches are the calls, from the first on, each once
and in order; unless the loop is left no call is passed over.
-/

namespace Roomie.Sockets
open Bincode Frames GuardedRuns RateLimits SilentConnections Transports

variable {me : ConnId} {ι σ : Type}

/-- A connection with all that arrived on it. -/
structure Fed (σ ι : Type) where
  conn : σ
  fed : List ι

/-- What an event brings; behind the end of a stream there is nothing. -/
def brings (ended : Bool) : RateLimits.Happening me ι → List ι
  | .arrives x => if ended then [] else [x]
  | _ => []

def feed (handle : σ → RateLimits.Happening me ι → σ) (ended : σ → Bool) (w : Fed σ ι)
    (h : RateLimits.Happening me ι) : Fed σ ι :=
  ⟨handle w.conn h, w.fed ++ brings (ended w.conn) h⟩

def feedTcp : Fed Tcp Bytes → RateLimits.Happening me Bytes → Fed Tcp Bytes := feed tcp Tcp.ended

def feedWs : Fed Ws WsMessage → RateLimits.Happening me WsMessage → Fed Ws WsMessage :=
  feed ws Ws.ended

/-- A connection that was accepted, after these events. -/
def overTcp (sys : Sys) (now later : ℕ) (hs : List (RateLimits.Happening me Bytes)) : Fed Tcp Bytes :=
  exec feedTcp ⟨.start sys now later, []⟩ hs

def overWs (sys : Sys) (now later : ℕ) (hs : List (RateLimits.Happening me WsMessage)) :
    Fed Ws WsMessage :=
  exec feedWs ⟨.start sys now later, []⟩ hs

/-! ## What the loop hears -/

/-- The messages that were dispatched. -/
def heard (l : Loop) : List ClientMessage := l.seen.dispatched.map Prod.snd

/-- What becomes of the payloads that an event takes from the socket: an open loop dispatches what
it can decode, or is left. -/
inductive Takes (l l' : Loop) : List Bytes → Prop
  | nothing (same : heard l' = heard l) (stays : l'.isOpen = true → l.isOpen = true) : Takes l l' []
  | dispatched (payload : Bytes) (isOpen : l.isOpen = true)
      (heard : heard l' = heard l ++ (ClientMessage.decode payload).toList) : Takes l l' [payload]
  | dropped (payload : Bytes) (isOpen : l.isOpen = true) (same : heard l' = heard l)
      (shut : l'.isOpen = false) : Takes l l' [payload]

/-- Of these payloads none was passed over, save the last one if the loop was left at it. -/
def Heard (payloads : List Bytes) (l : Loop) : Prop :=
  heard l = payloads.filterMap ClientMessage.decode ∨
    l.isOpen = false ∧ heard l = payloads.dropLast.filterMap ClientMessage.decode

section
variable {l l' : Loop} {payloads more : List Bytes}

/-- Only the branch of a frame takes anything. -/
theorem takes_nothing {h : RateLimits.Happening me ι} (hstep : LoopStep h l l')
    (hrest : ∀ env now later, h ≠ .incoming env now later) : Takes l l' [] := by
  have hstays : l'.seen.closed = l.seen.closed → l'.isOpen = true → l.isOpen = true := by
    intro hclosed
    rw [Loop.isOpen, Loop.isOpen, hclosed]
    exact id
  have hsame : l'.seen.dispatched = l.seen.dispatched → heard l' = heard l :=
    congrArg (List.map Prod.snd)
  cases hstep with
  | still sys dispatched closed => exact .nothing (hsame dispatched) (hstays closed)
  | heard event => exact absurd event (hrest _ _ _)
  | left isOpen sys dispatched => exact .nothing (hsame dispatched) fun _ => isOpen
  | others event sys dispatched closed => exact .nothing (hsame dispatched) (hstays closed)

theorem Takes.refl (l : Loop) : Takes l l [] := .nothing rfl id

theorem Takes.close (env : Env) (reason : Reason) (l : Loop) :
    Takes l (l.close me env reason) [] :=
  .nothing rfl nofun

theorem heard_counted (now : ℕ) (l : Loop) : heard (counted now l) = heard l :=
  congrArg (fun seen : Observed => seen.dispatched.map Prod.snd) (seen_counted now l)

theorem receive_takes (hopen : l.isOpen = true) (env : Env) (now later : ℕ) (payload : Bytes) :
    Takes l (Tcp.receive me env now later payload l) [payload] := by
  have hcounted := heard_counted now l
  rw [receive_eq]
  split_ifs
  · exact .dropped payload hopen hcounted rfl
  · refine .dispatched payload hopen ?_
    cases hdecode : ClientMessage.decode payload with
    | none => exact hcounted.trans (List.append_nil _).symm
    | some msg =>
      rw [← hcounted]
      exact List.map_append

theorem Heard.all (h : Heard payloads l) (hopen : l.isOpen = true) :
    heard l = payloads.filterMap ClientMessage.decode := by
  rcases h with hall | ⟨hshut, -⟩
  · exact hall
  · rw [hopen] at hshut
    cases hshut

theorem Heard.takes (h : Heard payloads l) (htakes : Takes l l' more) : Heard (payloads ++ more) l' := by
  cases htakes with
  | nothing same stays =>
    rw [List.append_nil]
    rcases h with hall | ⟨hshut, hfirst⟩
    · exact .inl (same.trans hall)
    · refine .inr ⟨Bool.eq_false_iff.mpr fun hopen => ?_, same.trans hfirst⟩
      rw [stays hopen] at hshut
      cases hshut
  | dispatched payload isOpen heard =>
    refine .inl ?_
    rw [heard, h.all isOpen, List.filterMap_append, List.filterMap_cons, List.filterMap_nil]
    cases ClientMessage.decode payload <;> rfl
  | dropped payload isOpen same shut =>
    refine .inr ⟨shut, ?_⟩
    rw [same, h.all isOpen, List.dropLast_concat]

end

/-- What was taken of what arrived, read as payloads, is what the loop has heard. -/
theorem heard_run {handle : σ → RateLimits.Happening me ι → σ} {ended : σ → Bool} {loop : σ → Loop}
    {Read : List ι → List Bytes → σ → Prop}
    (hstep : ∀ c (h : RateLimits.Happening me ι) fed payloads, Read fed payloads c →
      ∃ more, Read (fed ++ brings (ended c) h) (payloads ++ more) (handle c h) ∧
        Takes (loop c) (loop (handle c h)) more)
    {w : Fed σ ι} (h : ∃ payloads, Read w.fed payloads w.conn ∧ Heard payloads (loop w.conn))
    (hs : List (RateLimits.Happening me ι)) :
    ∃ payloads, Read (exec (feed handle ended) w hs).fed payloads (exec (feed handle ended) w hs).conn ∧
      Heard payloads (loop (exec (feed handle ended) w hs).conn) := by
  refine exec_invariant (I := fun w : Fed σ ι => ∃ payloads, Read w.fed payloads w.conn ∧
    Heard payloads (loop w.conn)) (fun w e hw => ?_) h hs
  obtain ⟨payloads, hread, hheard⟩ := hw
  obtain ⟨more, hread', htakes⟩ := hstep w.conn e w.fed payloads hread
  exact ⟨payloads ++ more, hread', hheard.takes htakes⟩

/-! ## TCP -/

/-- Of the bytes that arrived the frames of these payloads were cut off, and the rest waits. -/
def Cut (fed : List Bytes) (payloads : List Bytes) (c : Tcp) : Prop :=
  fed.flatten = payloads.flatMap frame ++ c.buf ∧ ∀ p ∈ payloads, p.length ≤ maxFrameLen

section
variable {c : Tcp} {fed payloads : List Bytes}

theorem tcp_buf (c : Tcp) {h : RateLimits.Happening me Bytes}
    (hrest : ∀ env now later, h ≠ .incoming env now later) :
    (tcp c h).buf = c.buf ++ (brings c.ended h).flatten := by
  cases h with
  | arrives data =>
    simp only [tcp, brings]
    split_ifs
    · exact (List.append_nil _).symm
    · rw [List.flatten_singleton]
  | incoming env now later => exact absurd rfl (hrest env now later)
  | outgoing env sent =>
    simp only [tcp, brings, List.flatten_nil, List.append_nil]
    split_ifs
    · obtain ⟨l, frames, -, heq⟩ := Tcp.outgoing_sends me env sent c
      rw [heq]
    · rfl
  | idle env now =>
    simp only [tcp, Tcp.idle, brings, List.flatten_nil, List.append_nil]
    split_ifs <;> rfl
  | ends => exact (List.append_nil _).symm
  | other a foreign => exact (List.append_nil _).symm

/-- Frames are cut off the bytes that wait, or nothing. -/
theorem Cut.append (h : Cut fed payloads c) {more : List Bytes} {c' : Tcp} {data : List Bytes}
    (hshort : ∀ p ∈ more, p.length ≤ maxFrameLen)
    (hbuf : c.buf ++ data.flatten = more.flatMap frame ++ c'.buf) :
    Cut (fed ++ data) (payloads ++ more) c' := by
  obtain ⟨hfed, hlen⟩ := h
  refine ⟨?_, List.forall_mem_append.mpr ⟨hlen, hshort⟩⟩
  rw [List.flatten_append, hfed, List.append_assoc, hbuf, List.flatMap_append, List.append_assoc]

theorem tcp_cuts (c : Tcp) (h : RateLimits.Happening me Bytes) (fed payloads : List Bytes)
    (hread : Cut fed payloads c) :
    ∃ more, Cut (fed ++ brings c.ended h) (payloads ++ more) (tcp c h) ∧
      Takes c.loop (tcp c h).loop more := by
  by_cases hrest : ∀ env now later, h ≠ .incoming env now later
  · refine ⟨[], hread.append nofun ?_, takes_nothing (tcp_step c h) hrest⟩
    rw [tcp_buf c hrest]
    rfl
  · push Not at hrest
    obtain ⟨env, now, later, rfl⟩ := hrest
    simp only [tcp, brings]
    have hsame : ∀ {c' : Tcp}, c'.buf = c.buf → Cut (fed ++ []) (payloads ++ []) c' := by
      intro c' hbuf
      exact hread.append nofun ((List.append_nil _).trans hbuf.symm)
    split_ifs with hopen
    · unfold Tcp.incoming
      split
      · rename_i payload rest hhead
        obtain ⟨hlen, hbuf⟩ := eq_of_head hhead
        refine ⟨[payload], hread.append (List.forall_mem_singleton.mpr hlen) ?_,
          receive_takes hopen env now later payload⟩
        rw [List.flatten_nil, List.append_nil, hbuf, List.flatMap_singleton]
      · exact ⟨[], hsame rfl, .close ..⟩
      · split_ifs
        · exact ⟨[], hsame rfl, .close ..⟩
        · exact ⟨[], hsame rfl, .close ..⟩
        · exact ⟨[], hsame rfl, .refl _⟩
    · exact ⟨[], hsame rfl, .refl _⟩

end

/-! ## WebSocket -/

/-- The payload of a message that is a frame. -/
def payloadOf : WsMessage → Option Bytes
  | .binary data => if isFrame data then some (data.drop 4) else none
  | _ => none

/-- Of the messages that arrived those were taken which carry these payloads, and the rest waits. -/
def Drawn (fed : List WsMessage) (payloads : List Bytes) (c : Ws) : Prop :=
  ∃ taken, fed = taken ++ c.inbox ∧ payloads = taken.filterMap payloadOf

section
variable {c : Ws} {fed : List WsMessage} {payloads : List Bytes}

theorem ws_inbox (c : Ws) {h : RateLimits.Happening me WsMessage}
    (hrest : ∀ env now later, h ≠ .incoming env now later) :
    (ws c h).inbox = c.inbox ++ brings c.ended h := by
  cases h with
  | arrives msg =>
    simp only [ws, brings]
    split_ifs
    · exact (List.append_nil _).symm
    · rfl
  | incoming env now later => exact absurd rfl (hrest env now later)
  | outgoing env sent =>
    simp only [ws, brings, List.append_nil]
    split_ifs
    · obtain ⟨l, frames, -, heq⟩ := Ws.outgoing_sends me env sent c
      rw [heq]
    · rfl
  | idle env now =>
    simp only [ws, Ws.idle, brings, List.append_nil]
    split_ifs <;> rfl
  | ends => exact (List.append_nil _).symm
  | other a foreign => exact (List.append_nil _).symm

/-- The next message is taken. -/
theorem Drawn.next (h : Drawn fed payloads c) {msg : WsMessage} {rest : List WsMessage}
    (hinbox : c.inbox = msg :: rest) {c' : Ws} (hrest : c'.inbox = rest) :
    Drawn (fed ++ []) (payloads ++ (payloadOf msg).toList) c' := by
  obtain ⟨taken, rfl, rfl⟩ := h
  refine ⟨taken ++ [msg], ?_, ?_⟩
  · rw [hinbox, hrest, List.append_nil, List.append_assoc, List.singleton_append]
  · rw [List.filterMap_append, List.filterMap_cons, List.filterMap_nil]
    cases payloadOf msg <;> rfl

theorem ws_receive_takes {l : Loop} (hopen : l.isOpen = true) (env : Env) (now later : ℕ)
    (data : Bytes) :
    Takes l (Ws.receive me env now later data l) (payloadOf (.binary data)).toList := by
  have hnone : isFrame data = false → payloadOf (.binary data) = none := by
    intro hframe
    rw [payloadOf, hframe]
    rfl
  rw [ws_receive_eq]
  split_ifs with hshort hlen
  · rw [hnone (by simp [isFrame, hshort])]
    exact .nothing rfl id
  · have hframe : isFrame data = false := by
      rw [isFrame, Bool.eq_false_iff]
      intro h
      simp only [Bool.and_eq_true, decide_eq_true_eq] at h
      omega
    rw [hnone hframe]
    exact .nothing rfl id
  · have hframe : isFrame data = true := by
      simp only [isFrame, Bool.and_eq_true, decide_eq_true_eq]
      omega
    rw [payloadOf, if_pos hframe]
    exact receive_takes hopen env now later (data.drop 4)

theorem ws_draws (c : Ws) (h : RateLimits.Happening me WsMessage) (fed : List WsMessage)
    (payloads : List Bytes) (hread : Drawn fed payloads c) :
    ∃ more, Drawn (fed ++ brings c.ended h) (payloads ++ more) (ws c h) ∧
      Takes c.loop (ws c h).loop more := by
  by_cases hrest : ∀ env now later, h ≠ .incoming env now later
  · obtain ⟨taken, rfl, rfl⟩ := hread
    refine ⟨[], ⟨taken, ?_, List.append_nil _⟩, takes_nothing (ws_step c h) hrest⟩
    rw [ws_inbox c hrest, List.append_assoc]
  · push Not at hrest
    obtain ⟨env, now, later, rfl⟩ := hrest
    simp only [ws, brings]
    have hsame : ∀ {c' : Ws}, c'.inbox = c.inbox → Drawn (fed ++ []) (payloads ++ []) c' := by
      intro c' hinbox
      rw [List.append_nil, List.append_nil, Drawn, hinbox]
      exact hread
    split_ifs with hopen
    · unfold Ws.incoming
      cases hinbox : c.inbox with
      | nil =>
        dsimp only
        split_ifs
        · exact ⟨[], hsame hinbox.symm, .close ..⟩
        · exact ⟨[], hsame rfl, .refl _⟩
      | cons msg rest =>
        cases msg with
        | binary data =>
          exact ⟨_, hread.next hinbox rfl, ws_receive_takes hopen env now later data⟩
        | error => exact ⟨[], hsame hinbox.symm, .close ..⟩
        | _ => exact ⟨_, hread.next hinbox rfl, .refl _⟩
    · exact ⟨[], hsame rfl, .refl _⟩

end

/-! ## The calls of the clients -/

/-- A call of any of the clients; one of GameMaker comes with the network and the client it finds. -/
inductive Call where
  | client (call : ClientCall)
  | gml (network : Bytes → ℤ) (c : Gml.Client) (s : Gml.Sending)

namespace Call

/-- What the server reads for the call. -/
def payload : Call → Bytes
  | .client call => call.payload
  | .gml _ _ s => s.bytes

def message : Call → ClientMessage
  | .client call => call.message
  | .gml _ _ s => s.message

/-- The call is within the limit; the GameMaker client is connected, and a blob is no buffer with a
byte in it. -/
def Sound : Call → Prop
  | .client call => call.payload.length ≤ maxFrameLen
  | .gml _ c s => c.isConnected = true ∧ s.payload.pos ≤ maxFrameLen ∧ s.Written

/-- What the call gives to the socket. -/
def sent : Call → Bytes
  | .client call => frame call.payload
  | .gml network c s => (s.run network c).1.1.getD []

section
variable {call : Call}

theorem Sound.short (h : call.Sound) : call.payload.length ≤ maxFrameLen := by
  cases call with
  | client call => exact h
  | gml network c s => exact (Gml.payload_holds h.2.2 h.2.1).pos_eq ▸ h.2.1

theorem Sound.decoded (h : call.Sound) : ClientMessage.decode call.payload = some call.message := by
  have hshort := h.short
  cases call with
  | client call => exact decode_whole (call.accepts hshort) hshort
  | gml network c s => exact decode_whole (Gml.bytes_accepts hshort) hshort

theorem Sound.sent_eq (h : call.Sound) : call.sent = frame call.payload := by
  have hshort := h.short
  cases call with
  | client call => rfl
  | gml network c s =>
    obtain ⟨hup, hlen, hwritten⟩ := h
    have hsent : (s.run network c).1.1 = some (frame s.bytes) := by
      rw [Gml.Sending.run, if_pos hup]
      exact Gml.sendFrame_eq hup (Gml.payload_holds hwritten hlen) hshort
    rw [sent, hsent]
    rfl

end

section
variable {calls : List Call} (hsound : ∀ call ∈ calls, call.Sound)
include hsound

/-- The messages meant are read. -/
theorem decoded_all :
    (calls.map payload).filterMap ClientMessage.decode = calls.map message := by
  rw [List.filterMap_map, ← List.filterMap_eq_map]
  exact List.filterMap_congr fun call hcall => (hsound call hcall).decoded

theorem sent_all : calls.map sent = (calls.map payload).map frame := by
  rw [List.map_map]
  exact List.map_congr_left fun call hcall => (hsound call hcall).sent_eq

theorem short_all : ∀ p ∈ calls.map payload, p.length ≤ maxFrameLen := by
  intro p hp
  obtain ⟨call, hcall, rfl⟩ := List.mem_map.mp hp
  exact (hsound call hcall).short

end

end Call

/-- Some calls of a client, from the first on, have been read, and just these were dispatched, save the
last one if the loop was left at it. -/
def Serves (calls done : List Call) (l : Loop) : Prop :=
  done <+: calls ∧ (heard l = done.map Call.message ∨
    l.isOpen = false ∧ heard l = done.dropLast.map Call.message)

theorem Heard.serves {calls done : List Call} (hsound : ∀ call ∈ calls, call.Sound)
    (hdone : done <+: calls) {l : Loop} (h : Heard (done.map Call.payload) l) :
    Serves calls done l := by
  have hsub : ∀ call ∈ done, call.Sound := fun call hcall => hsound call (hdone.subset hcall)
  have hlast : ∀ call ∈ done.dropLast, call.Sound :=
    fun call hcall => hsub call (List.dropLast_subset _ hcall)
  rw [Heard, ← List.map_dropLast, Call.decoded_all hsub, Call.decoded_all hlast] at h
  exact ⟨hdone, h⟩

/-- The bytes of a binary message. -/
def dataOf : WsMessage → Option Bytes
  | .binary data => some data
  | _ => none

theorem payloadOf_eq (msg : WsMessage) :
    payloadOf msg = (dataOf msg).bind fun data => if isFrame data then some (data.drop 4) else none := by
  cases msg <;> rfl

theorem isFrame_frame {payload : Bytes} (h : payload.length ≤ maxFrameLen) :
    isFrame (frame payload) = true := by
  have hheader : ofLittleEndian ((frame payload).take 4) = payload.length := by
    simpa using header_eq maxFrameLen_lt h []
  rw [isFrame, hheader, length_frame]
  simp [h]

/-- The payloads are in the messages that are sent. -/
theorem payloads_drawn {payloads : List Bytes} (h : ∀ p ∈ payloads, p.length ≤ maxFrameLen)
    {taken : List WsMessage} (htaken : taken.filterMap dataOf = payloads.map frame) :
    taken.filterMap payloadOf = payloads := by
  have hcompose : taken.filterMap payloadOf = (taken.filterMap dataOf).filterMap
      fun data => if isFrame data then some (data.drop 4) else none := by
    rw [List.filterMap_filterMap]
    exact List.filterMap_congr fun msg _ => payloadOf_eq msg
  rw [hcompose, htaken, List.filterMap_map]
  have hpayload : ∀ p ∈ payloads, (if isFrame (frame p) then some ((frame p).drop 4) else none) =
      some p := by
    intro p hp
    rw [if_pos (isFrame_frame (h p hp))]
    exact congrArg some (List.drop_left' (length_littleEndian 4 _))
  exact (List.filterMap_congr hpayload).trans List.filterMap_some

/-- Whatever of the calls of a client arrives, in whatever pieces, and whatever happens between: of
the calls, from the first on, some have been read, and just these were dispatched, each once and in
order, save the last if the loop was left at it. What was not read waits in the buffer. -/
theorem calls_dispatched (me : ConnId) (sys : Sys) (now later : ℕ) {calls : List Call}
    (hsound : ∀ call ∈ calls, call.Sound) :
    (∀ hs : List (RateLimits.Happening me Bytes),
      (overTcp sys now later hs).fed.flatten <+: calls.flatMap Call.sent →
        ∃ done, Serves calls done (overTcp sys now later hs).conn.loop ∧
          (overTcp sys now later hs).fed.flatten =
            done.flatMap Call.sent ++ (overTcp sys now later hs).conn.buf) ∧
    ∀ hs : List (RateLimits.Happening me WsMessage),
      (overWs sys now later hs).fed.filterMap dataOf <+: calls.map Call.sent →
        ∃ done, Serves calls done (overWs sys now later hs).conn.loop ∧
          (overWs sys now later hs).fed.filterMap dataOf =
            done.map Call.sent ++ (overWs sys now later hs).conn.inbox.filterMap dataOf := by
  have hstream : ∀ cs : List Call, (∀ call ∈ cs, call.Sound) →
      cs.flatMap Call.sent = (cs.map Call.payload).flatMap frame := by
    intro cs hcs
    rw [List.flatMap_def, Call.sent_all hcs, List.flatMap_def]
  constructor
  · intro hs harrived
    obtain ⟨payloads, ⟨hfed, hshort⟩, hheard⟩ :=
      heard_run (w := ⟨Tcp.start sys now later, []⟩) tcp_cuts
        ⟨[], ⟨rfl, nofun⟩, .inl rfl⟩ hs
    change (overTcp sys now later hs).fed.flatten = _ at hfed
    rw [hfed, hstream calls hsound] at harrived
    obtain ⟨rest, hsplit, -⟩ :=
      split_frames maxFrameLen_lt hshort (Call.short_all hsound) harrived
    obtain ⟨done, unread, rfl, rfl, -⟩ := List.map_eq_append_iff.mp hsplit
    refine ⟨done, hheard.serves hsound (List.prefix_append _ _), ?_⟩
    rw [hfed, hstream done fun call hcall => hsound call (List.mem_append_left _ hcall)]
    rfl
  · intro hs harrived
    obtain ⟨payloads, ⟨taken, hfed, hpayloads⟩, hheard⟩ :=
      heard_run (w := ⟨Ws.start sys now later, []⟩) ws_draws
        ⟨[], ⟨[], rfl, rfl⟩, .inl rfl⟩ hs
    change (overWs sys now later hs).fed = _ at hfed
    rw [hfed, List.filterMap_append] at harrived
    obtain ⟨more, hmore⟩ := (List.prefix_append _ _).trans harrived
    obtain ⟨done, unread, rfl, hdone, -⟩ := List.map_eq_append_iff.mp hmore.symm
    have hsub : ∀ call ∈ done, call.Sound := fun call hcall => hsound call (List.mem_append_left _ hcall)
    rw [Call.sent_all hsub] at hdone
    rw [payloads_drawn (Call.short_all hsub) hdone.symm] at hpayloads
    subst hpayloads
    refine ⟨done, hheard.serves hsound (List.prefix_append _ _), ?_⟩
    rw [hfed, List.filterMap_append, Call.sent_all hsub, ← hdone]
    rfl

/-- The frame of a ping of the C# client, in two pieces, and a turn after each. -/
def pingInTwo : List (RateLimits.Happening 0 Bytes) :=
  [.arrives [1, 0], .incoming Env.quiet 1 1, .arrives [0, 0, 5], .incoming Env.quiet 2 2]

/-- It is heard once. -/
theorem ping_heard : heard (overTcp .start 0 0 pingInTwo).conn.loop = [.ping] := by
  have hshort : (ClientCall.payload (.csharp .ping)).length ≤ maxFrameLen := by decide
  have hsound : ∀ call ∈ [Call.client (.csharp .ping)], call.Sound :=
    List.forall_mem_singleton.mpr hshort
  obtain ⟨done, ⟨hdone, hheard⟩, hfed⟩ :=
    (calls_dispatched 0 .start 0 0 hsound).1 pingInTwo (by decide)
  rcases List.prefix_cons_iff.mp hdone with rfl | ⟨rest, rfl, hrest⟩
  · exact absurd hfed (by decide)
  · rw [List.prefix_nil.mp hrest] at hheard
    exact hheard.resolve_right fun hshut => absurd hshut.1 (by decide)

end Roomie.Sockets
