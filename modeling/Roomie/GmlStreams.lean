import Roomie.GmlPolling
import Roomie.GuardedRuns

/-!
# Streams of frames at the GameMaker client

Whatever data events, calls of `roomie_client_poll` and callbacks follow one another, the bytes from
`recv_read_pos` on are those that have been received and not consumed, and the decoder gets the
payloads of each connection in order and once each.
-/

namespace Roomie.Gml
open Bincode ByteBuffers Frames GuardedRuns

/-! ## What has come of each connection -/

/-- The bytes received on a connection, and the payloads that were decoded on it. -/
structure Reception where
  arrived : Bytes
  decoded : List Bytes

/-- The payloads are the first ones of the stream, in order, and what they were taken from was
received. -/
structure Reception.Follows (stream : List Bytes) (r : Reception) : Prop where
  inOrder : r.decoded <+: stream
  consumed : r.decoded.flatMap frame <+: r.arrived
  arrived : r.arrived <+: stream.flatMap frame

/-- The connections that have been reset, and the present one. -/
structure Tally where
  past : List Reception
  present : Reception

def Tally.start : Tally := ⟨[], ⟨[], []⟩⟩

def Tally.enter (t : Tally) : Event → Tally
  | .received data =>
    { t with present := { t.present with arrived := t.present.arrived ++ data } }
  | .decoding payload =>
    { t with present := { t.present with decoded := t.present.decoded ++ [payload] } }
  | .called _ | .left => t
  | .reset => ⟨t.past ++ [t.present], ⟨[], []⟩⟩

def tally (log : List Event) : Tally := log.foldl Tally.enter .start

theorem tally_concat (log : List Event) (e : Event) : tally (log ++ [e]) = (tally log).enter e := by
  rw [tally, List.foldl_append]
  rfl

/-- What the client has received on the present connection, and what it has decoded. -/
def Client.present (c : Client) : Reception := (tally c.log).present

/-- The number of the present connection. -/
def Client.number (c : Client) : ℕ := (tally c.log).past.length

/-- What is done with the client. -/
inductive Step where
  | async (a : Async)
  | poll
  | act (a : Act)

section
variable (rt : Runtime) (cbs : Callback → Bool) (acts : List Event → List Act)

def Client.step (c : Client) : Step → Client
  | .async a => c.handleAsync cbs acts a
  | .poll => (c.poll rt cbs acts).1
  | .act a => c.act a

/-- The client with its first connection, or after it failed. -/
def Client.opened (useWs : Bool) (sock err : ℤ) : Client := Client.create.act (.connect useWs sock err)

/-- What arrives on each connection is a stream of frames. -/
def Continues (streams : ℕ → List Bytes) (c : Client) : Step → Prop
  | .async (.data id (some buffer)) => c.accepts id = true →
    c.present.arrived ++ buffer.bytes <+: (streams c.number).flatMap frame
  | _ => True

end

/-! ## The invariant -/

/-- The buffer holds what has been received and not consumed, on the present connection. -/
structure InStep (streams : ℕ → List Bytes) (c : Client) : Prop where
  grow : c.recvBuf.growth = .grow
  inside : c.recvReadPos ≤ c.recvBuf.size
  whole : c.present.arrived = c.present.decoded.flatMap frame ++ c.pending
  present : c.present.Follows (streams c.number)
  past : ∀ n (r : Reception), (tally c.log).past[n]? = some r → r.Follows (streams n)

theorem Reception.Follows.new (stream : List Bytes) : Reception.Follows stream ⟨[], []⟩ :=
  ⟨List.nil_prefix, List.nil_prefix, List.nil_prefix⟩

section
variable {streams : ℕ → List Bytes} {c c' : Client}

/-- Where nothing of this changes it goes on. -/
theorem InStep.of_eq (h : InStep streams c) (hgrow : c'.recvBuf.growth = c.recvBuf.growth)
    (hin : c'.recvReadPos ≤ c'.recvBuf.size) (hpending : c'.pending = c.pending)
    (htally : tally c'.log = tally c.log) : InStep streams c' := by
  have hpresent : c'.present = c.present := congrArg Tally.present htally
  have hnumber : c'.number = c.number := congrArg (List.length ∘ Tally.past) htally
  refine ⟨hgrow.trans h.grow, hin, ?_, ?_, ?_⟩
  · rw [hpresent, hpending]
    exact h.whole
  · rw [hpresent, hnumber]
    exact h.present
  · rw [htally]
    exact h.past

theorem InStep.setSession (h : InStep streams c) (s : Session) : InStep streams (c.setSession s) :=
  h.of_eq rfl h.inside rfl rfl

/-- After a reset nothing has been received, and nothing is in the buffer. -/
theorem InStep.reset (hgrow : c'.recvBuf.growth = .grow) (hempty : c'.recvBuf.bytes = [])
    (hpos : c'.recvReadPos = 0) (hlog : c'.log = c.log)
    (hpresent : c.present.Follows (streams c.number))
    (hpast : ∀ n (r : Reception), (tally c.log).past[n]? = some r → r.Follows (streams n)) :
    InStep streams (c'.note .reset) := by
  have htally : tally (c'.note .reset).log = ⟨(tally c.log).past ++ [c.present], ⟨[], []⟩⟩ := by
    rw [Client.note, hlog]
    exact tally_concat c.log .reset
  have hnew : (c'.note .reset).present = ⟨[], []⟩ := congrArg Tally.present htally
  refine ⟨hgrow, hpos ▸ Nat.zero_le _, ?_, ?_, ?_⟩
  · rw [hnew]
    exact ((congrArg (List.drop c'.recvReadPos) hempty).trans List.drop_nil).symm
  · rw [hnew]
    exact .new _
  · rw [htally]
    intro n r hr
    rcases Nat.lt_trichotomy n (tally c.log).past.length with hold | rfl | hlater
    · rw [List.getElem?_append_left hold] at hr
      exact hpast n r hr
    · rw [List.getElem?_concat_length] at hr
      obtain rfl := Option.some.inj hr
      exact hpresent
    · rw [List.getElem?_eq_none (by rw [List.length_append]; exact hlater)] at hr
      cases hr

/-- What a new connection, or none, leaves of the buffer and the log. -/
theorem connect_fields (c : Client) (useWs : Bool) (sock err : ℤ) :
    (c.connect useWs sock err).1.recvBuf = c.disconnect.recvBuf ∧
      (c.connect useWs sock err).1.recvReadPos = 0 ∧
      (c.connect useWs sock err).1.log = c.log := by
  unfold Client.connect
  dsimp only
  split_ifs <;> exact ⟨rfl, rfl, rfl⟩

theorem reset_connect (hgrow : c.recvBuf.growth = .grow)
    (hpresent : c.present.Follows (streams c.number))
    (hpast : ∀ n (r : Reception), (tally c.log).past[n]? = some r → r.Follows (streams n))
    (useWs : Bool) (sock err : ℤ) : InStep streams (c.act (.connect useWs sock err)) := by
  obtain ⟨hbuf, hpos, hlog⟩ := connect_fields c useWs sock err
  refine .reset ?_ ?_ hpos hlog hpresent hpast
  · rw [hbuf]
    exact hgrow
  · rw [hbuf]
    exact (c.recvBuf.seek 0).resize_zero

theorem InStep.opened (useWs : Bool) (sock err : ℤ) :
    InStep streams (Client.opened useWs sock err) :=
  have hnone : ∀ n (r : Reception), (tally Client.create.log).past[n]? = some r →
      r.Follows (streams n) := fun _ _ hr => by cases hr
  reset_connect rfl (.new _) hnone useWs sock err

theorem InStep.act (h : InStep streams c) (a : Act) : InStep streams (c.act a) := by
  cases a with
  | disconnect => exact .reset h.grow (c.recvBuf.seek 0).resize_zero rfl rfl h.present h.past
  | connect useWs sock err => exact reset_connect h.grow h.present h.past useWs sock err
  | leaveRoom =>
    unfold Client.act Client.leaveRoom
    split_ifs
    · exact h.of_eq rfl h.inside rfl (tally_concat c.log .left)
    · exact h
  | send => exact h

theorem InStep.acts (h : InStep streams c) (as : List Act) :
    InStep streams (as.foldl Client.act c) := by
  induction as generalizing c with
  | nil => exact h
  | cons a as ih => exact ih (h.act a)

variable (rt : Runtime) (cbs : Callback → Bool) (acts : List Event → List Act)

theorem InStep.raise (h : InStep streams c) (call : Call) :
    InStep streams (c.raise cbs acts call) := by
  unfold Client.raise
  split_ifs
  · have hcalled : InStep streams (c.note (.called call)) :=
      h.of_eq rfl h.inside rfl (tally_concat c.log (.called call))
    exact hcalled.acts _
  · exact h

theorem InStep.handle (h : InStep streams c) (msg : Message) :
    InStep streams (c.handle cbs acts msg) := by
  rw [Client.handle_eq]
  cases msg.call with
  | none => exact h.setSession _
  | some call => exact (h.setSession _).raise cbs acts call

/-- Received bytes go to the end of the buffer. -/
theorem receive_fields (c : Client) (buffer : Buffer) (hgrow : c.recvBuf.growth = .grow) :
    (c.receive buffer).recvBuf.bytes = c.recvBuf.bytes ++ buffer.bytes ∧
      (c.receive buffer).recvBuf.growth = .grow ∧
      (c.receive buffer).recvReadPos = c.recvReadPos ∧ (c.receive buffer).log = c.log := by
  unfold Client.receive
  split_ifs with hsome
  · refine ⟨?_, hgrow, rfl, rfl⟩
    exact Buffer.copy_end (b := c.recvBuf.seek c.recvBuf.size) buffer hgrow
  · have hnone : buffer.bytes = [] := List.length_eq_zero_iff.mp (Nat.eq_zero_of_not_pos hsome)
    exact ⟨by rw [hnone, List.append_nil], hgrow, rfl, rfl⟩

/-- What a data event for the socket of the client adds to what has arrived. -/
theorem arrived_data {id : Option ℤ} {buffer : Buffer} (haccepts : c.accepts id = true)
    (cbs : Callback → Bool) (acts : List Event → List Act) :
    (c.handleAsync cbs acts (.data id (some buffer))).present =
        ⟨c.present.arrived ++ buffer.bytes, c.present.decoded⟩ ∧
      (c.handleAsync cbs acts (.data id (some buffer))).number = c.number ∧
      tally (c.handleAsync cbs acts (.data id (some buffer))).log =
        (tally c.log).enter (.received buffer.bytes) := by
  have hlog : (c.handleAsync cbs acts (.data id (some buffer))).log =
      c.log ++ [.received buffer.bytes] := by
    have hsame : (c.receive buffer).log = c.log := by
      unfold Client.receive
      split_ifs <;> rfl
    simp only [Client.handleAsync, haccepts, if_true, Option.elim_some, Client.note, hsame]
  have htally : tally (c.handleAsync cbs acts (.data id (some buffer))).log =
      (tally c.log).enter (.received buffer.bytes) := by
    rw [hlog]
    exact tally_concat _ _
  have hpast : (c.handleAsync cbs acts (.data id (some buffer))).number = c.number := by
    rw [Client.number, htally]
    rfl
  exact ⟨congrArg Tally.present htally, hpast, htally⟩

/-- Some bytes of the stream arrive. -/
theorem InStep.data (h : InStep streams c) {id : Option ℤ} {buffer : Buffer}
    (haccepts : c.accepts id = true)
    (hstream : c.present.arrived ++ buffer.bytes <+: (streams c.number).flatMap frame)
    (cbs : Callback → Bool) (acts : List Event → List Act) :
    InStep streams (c.handleAsync cbs acts (.data id (some buffer))) := by
  obtain ⟨hpresent, hnumber, htally⟩ := @arrived_data c id buffer haccepts cbs acts
  obtain ⟨hbytes, hgrow, hpos, -⟩ := receive_fields c buffer h.grow
  have hbuf : (c.handleAsync cbs acts (.data id (some buffer))).recvBuf =
      (c.receive buffer).recvBuf := by
    simp only [Client.handleAsync, haccepts, if_true, Option.elim_some, Client.note]
  have hread : (c.handleAsync cbs acts (.data id (some buffer))).recvReadPos = c.recvReadPos := by
    simp only [Client.handleAsync, haccepts, if_true, Option.elim_some, Client.note, hpos]
  refine ⟨hbuf ▸ hgrow, ?_, ?_, ?_, ?_⟩
  · rw [hread, Buffer.size, hbuf, hbytes, List.length_append]
    exact Nat.le_add_right_of_le h.inside
  · rw [hpresent, Client.pending, hread, hbuf, hbytes, List.drop_append_of_le_length h.inside,
      h.whole, List.append_assoc]
    rfl
  · rw [hpresent, hnumber]
    exact ⟨h.present.inOrder, h.present.consumed.trans (List.prefix_append _ _), hstream⟩
  · rw [htally]
    exact h.past

/-- Not all of the next frame has arrived. -/
def Complete (streams : ℕ → List Bytes) (c : Client) : Prop :=
  ∀ p, c.present.decoded ++ [p] <+: streams c.number → c.pending.length < (frame p).length

/-- At the head there is the next frame of the stream, or some bytes of it at most. -/
theorem InStep.head (h : InStep streams c) (hsound : ∀ p ∈ streams c.number, Sound maxFrameLen p) :
    head maxFrameLen c.pending = .incomplete ∧ Complete streams c ∨
      ∃ p rest, head maxFrameLen c.pending = .frame p rest ∧ c.pending = frame p ++ rest ∧
        c.present.decoded ++ [p] <+: streams c.number := by
  obtain ⟨later, hlater⟩ := h.present.inOrder
  have htail : c.pending <+: later.flatMap frame := by
    have harrived := h.present.arrived
    rwa [h.whole, ← hlater, List.flatMap_append, List.prefix_append_right_inj] at harrived
  have hlen : ∀ p ∈ later, p.length ≤ maxFrameLen := by
    intro p hp
    refine (hsound p ?_).2
    rw [← hlater]
    exact List.mem_append_right _ hp
  rcases head_stream maxFrameLen_lt hlen htail with ⟨hhead, hnext⟩ |
    ⟨p, later', rest, rfl, hpending, -, hhead⟩
  · refine .inl ⟨hhead, fun p hp => hnext p ?_⟩
    rw [← hlater, List.prefix_append_right_inj] at hp
    obtain ⟨more, rfl⟩ := hp
    rfl
  · refine .inr ⟨p, rest, hhead, hpending, ?_⟩
    rw [← hlater, List.prefix_append_right_inj]
    exact List.prefix_append [p] later'

/-- The frame at the head is consumed. -/
theorem InStep.consume (h : InStep streams c) {p rest : Bytes}
    (hhead : Frames.head maxFrameLen c.pending = .frame p rest)
    (hpending : c.pending = frame p ++ rest)
    (hnext : c.present.decoded ++ [p] <+: streams c.number) : InStep streams (c.consume p) := by
  obtain ⟨hrest, hin⟩ := Client.pending_consume hhead
  have htally : tally (c.consume p).log = (tally c.log).enter (.decoding p) := tally_concat _ _
  have hpresent : (c.consume p).present = ⟨c.present.arrived, c.present.decoded ++ [p]⟩ :=
    congrArg Tally.present htally
  have hnumber : (c.consume p).number = c.number := by
    rw [Client.number, htally]
    rfl
  have hwhole : c.present.arrived = (c.present.decoded ++ [p]).flatMap frame ++ rest := by
    rw [h.whole, hpending, List.flatMap_append, List.flatMap_singleton, List.append_assoc]
  refine ⟨h.grow, hin, ?_, ?_, ?_⟩
  · rw [hpresent, hrest]
    exact hwhole
  · rw [hpresent, hnumber]
    exact ⟨hnext, hwhole ▸ List.prefix_append _ _, h.present.arrived⟩
  · rw [htally]
    exact h.past

/-- What has been consumed is cut off. -/
theorem InStep.compact (h : InStep streams c') (hspares : c.Spares c') :
    InStep streams (Client.compact c.recvBuf.size c') := by
  rcases hspares with ⟨hbuf, -⟩ | ⟨-, hpos⟩
  · rw [← hbuf]
    refine h.of_eq ?_ ?_ (Client.pending_compact h.grow) ?_
    · unfold Client.compact
      dsimp only
      split_ifs <;> rfl
    · unfold Client.compact
      split_ifs
      · exact Nat.zero_le _
      · exact h.inside
    · unfold Client.compact
      split_ifs <;> rfl
  · have hshort : ¬ 2048 ≤ c'.recvReadPos := by omega
    rw [Client.compact, if_neg hshort]
    exact h

section
variable (hsound : ∀ n, ∀ p ∈ streams n, Sound maxFrameLen p)
include hsound

/-- One turn of `roomie_client_poll`: it returns when no frame is left, and an error comes from a
payload of the stream. -/
theorem InStep.pollFrame (h : InStep streams c) {progress : Client.Progress}
    (hturn : c.pollFrame rt cbs acts = (c', progress)) :
    InStep streams c' ∧ (progress = .returned → 0 ≤ c'.socket → Complete streams c') ∧
      (progress = .failed → ∃ n, ∃ p ∈ streams n, decodeServerMessage rt p = none) := by
  by_cases hsocket : c.socket < 0
  · rw [Client.pollFrame, if_pos hsocket] at hturn
    obtain ⟨rfl, rfl⟩ := Prod.mk.inj hturn
    exact ⟨h, (fun _ hup => absurd hsocket (Int.not_lt.mpr hup)), fun hfailed => by cases hfailed⟩
  rw [Client.pollFrame_eq rt cbs acts (Int.not_lt.mp hsocket)] at hturn
  rcases h.head (hsound _) with ⟨hhead, hcomplete⟩ | ⟨p, rest, hhead, hpending, hnext⟩
  · rw [hhead] at hturn
    obtain ⟨rfl, rfl⟩ := Prod.mk.inj hturn
    exact ⟨h, fun _ _ => hcomplete, fun hfailed => by cases hfailed⟩
  · have hconsumed := h.consume hhead hpending hnext
    have hmem : p ∈ streams c.number := hnext.subset (List.mem_append_right _ List.mem_cons_self)
    rw [hhead] at hturn
    dsimp only at hturn
    split at hturn
    · rename_i hnone
      obtain ⟨rfl, rfl⟩ := Prod.mk.inj hturn
      exact ⟨hconsumed, (fun hreturned => by cases hreturned), fun _ => ⟨_, p, hmem, hnone⟩⟩
    · rename_i msg _
      obtain ⟨rfl, rfl⟩ := Prod.mk.inj hturn
      have hspares := Client.spares_handle cbs acts (c.consume p) msg
      have hcompact := InStep.compact (c := c.consume p) (hconsumed.handle cbs acts msg) hspares
      exact ⟨hcompact, (fun hreturned => by cases hreturned), fun hfailed => by cases hfailed⟩

/-- The whole of `roomie_client_poll`. -/
theorem InStep.poll (h : InStep streams c) :
    InStep streams (c.poll rt cbs acts).1 ∧
      ((c.poll rt cbs acts).2 = true → 0 ≤ (c.poll rt cbs acts).1.socket →
        Complete streams (c.poll rt cbs acts).1) ∧
      ((c.poll rt cbs acts).2 = false →
        ∃ n, ∃ p ∈ streams n, decodeServerMessage rt p = none) := by
  induction c using Client.poll.induct rt cbs acts with
  | case1 c c' hturn ih =>
    rw [Client.poll_again hturn]
    exact ih (h.pollFrame rt cbs acts hsound hturn).1
  | case2 c c' hturn =>
    obtain ⟨hstep, hcomplete, -⟩ := h.pollFrame rt cbs acts hsound hturn
    rw [Client.poll_returned hturn]
    exact ⟨hstep, fun _ => hcomplete rfl, fun hfalse => by cases hfalse⟩
  | case3 c c' hturn =>
    obtain ⟨hstep, -, hfailed⟩ := h.pollFrame rt cbs acts hsound hturn
    rw [Client.poll_failed hturn]
    exact ⟨hstep, (fun htrue => by cases htrue), fun _ => hfailed rfl⟩

end

theorem InStep.handleAsync (h : InStep streams c) {a : Async}
    (hstream : Continues streams c (.async a)) : InStep streams (c.handleAsync cbs acts a) := by
  cases a with
  | nonBlockingConnect succeeded => exact h.of_eq rfl h.inside rfl rfl
  | disconnect =>
    have hdown : InStep streams { c with
        connected := false, socket := -1, roomCode := [], peerId := 0, hostPeerId := 0 } :=
      h.of_eq rfl h.inside rfl rfl
    exact hdown.raise cbs acts _
  | data id buffer =>
    by_cases haccepts : c.accepts id = true
    · cases buffer with
      | none => simpa only [Client.handleAsync, haccepts, if_true, Option.elim_none] using h
      | some buffer => exact h.data haccepts (hstream haccepts) cbs acts
    · simpa only [Client.handleAsync, haccepts, if_false, Bool.false_eq_true] using h
  | other => exact h

end

/-! ## Every run -/

/-- What holds of a client whose connections carry these payloads: on every connection the payloads
decoded are the first ones, in order and once each; the bytes from `recv_read_pos` on are those
received and not consumed, where each data event for the socket adds its bytes to those received;
and when `roomie_client_poll` returns on a connection that stands, no payload is left of which all
bytes are there. It does return, unless a payload cannot be decoded. -/
structure Preserved (rt : Runtime) (cbs : Callback → Bool) (acts : List Event → List Act)
    (streams : ℕ → List Bytes) (c : Client) : Prop where
  past : ∀ n (r : Reception), (tally c.log).past[n]? = some r → r.Follows (streams n)
  present : c.present.Follows (streams c.number)
  whole : c.present.arrived = c.present.decoded.flatMap frame ++
    c.recvBuf.bytes.drop c.recvReadPos
  arrives : ∀ id (buffer : Buffer), c.accepts id = true →
    (c.handleAsync cbs acts (.data id (some buffer))).present.arrived =
      c.present.arrived ++ buffer.bytes
  complete : (c.poll rt cbs acts).2 = true → 0 ≤ (c.poll rt cbs acts).1.socket →
    Complete streams (c.poll rt cbs acts).1
  returns : (∀ n, ∀ p ∈ streams n, decodeServerMessage rt p ≠ none) → (c.poll rt cbs acts).2 = true

/-- However streams of frames are cut into data events and these are mixed with calls of
`roomie_client_poll`, whatever the callbacks do and wherever the buffer is cut off. -/
theorem streams_preserved (rt : Runtime) (cbs : Callback → Bool) (acts : List Event → List Act)
    {streams : ℕ → List Bytes} (hsound : ∀ n, ∀ p ∈ streams n, Sound maxFrameLen p)
    {useWs : Bool} {sock err : ℤ} {c : Client}
    (h : Reaches (Client.step rt cbs acts) (Continues streams) (.opened useWs sock err) c) :
    Preserved rt cbs acts streams c := by
  have hstep : InStep streams c := by
    refine h.invariant (InStep.opened useWs sock err) fun c step hc hcontinues => ?_
    cases step with
    | async a => exact hc.handleAsync cbs acts hcontinues
    | poll => exact (hc.poll rt cbs acts hsound).1
    | act a => exact hc.act a
  obtain ⟨-, hcomplete, hfailed⟩ := hstep.poll rt cbs acts hsound
  have harrives : ∀ id (buffer : Buffer), c.accepts id = true →
      (c.handleAsync cbs acts (.data id (some buffer))).present.arrived =
        c.present.arrived ++ buffer.bytes :=
    fun id buffer haccepts => congrArg Reception.arrived (arrived_data haccepts cbs acts).1
  refine ⟨hstep.past, hstep.present, hstep.whole, harrives, hcomplete, fun hdecodes => ?_⟩
  by_contra hfalse
  obtain ⟨n, p, hp, hnone⟩ := hfailed (Bool.eq_false_iff.mpr hfalse)
  exact hdecodes n p hp hnone

/-- Two pongs whose frames come in two data events, cut in the first header. -/
def twoPongs : List Step :=
  [.async (.data (some 1) (some ⟨.fixed, [1, 0, 0], 0⟩)),
    .async (.data (some 1) (some ⟨.fixed, [0, 9, 1, 0, 0, 0, 9], 0⟩)), .poll]

/-- The callback of the first pong connects anew. -/
theorem twoPongs_preserved :
    Preserved ⟨64, fun _ _ _ => none, fun _ _ => none⟩ (fun _ => true)
      (fun _ => [.connect false 2 0]) (fun _ => [[9], [9]])
      (exec (Client.step ⟨64, fun _ _ _ => none, fun _ _ => none⟩ (fun _ => true)
        fun _ => [.connect false 2 0]) (.opened false 1 0) twoPongs) := by
  have hpongs : ∀ p ∈ ([[9], [9]] : List Bytes), Sound maxFrameLen p := by
    unfold Sound
    decide
  refine streams_preserved _ _ _ (fun _ => hpongs) (Reaches.refl.exec ?_)
  exact ⟨fun _ => by decide, fun _ => by decide, trivial, trivial⟩

end Roomie.Gml
