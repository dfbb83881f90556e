import Roomie.Frames
import Roomie.Loops
import Roomie.CsharpDecoder

/-!
# The WebGL transport of the C# client

Messages wait in a queue on the JavaScript side. `Poll` copies them one by one into a buffer of
`MaxFrameLen` bytes, appends what was copied to the received bytes, and takes frames from these.
A message is a frame, so it has four bytes more than its payload, and the last bytes of the
largest frames do not fit the buffer. What is missing there is taken from the frames that follow.
-/

namespace Roomie.Csharp
open Bincode Frames Loops

inductive Status where
  | connected
  | disconnected
  | crashed
  deriving DecidableEq

/-- The fields of `RoomieClient` and `wsState` that bytes pass through, and the payloads that
`DecodeAndDispatch` has got. -/
structure WebClient where
  status : Status
  receiveBuffer : List Bytes
  recvBuf : Bytes
  handed : List Bytes

namespace WebClient

/-- After `Connect`. -/
def start : WebClient := ⟨.connected, [], [], []⟩

/-- `ws.onmessage`; a closed socket has no messages any more. -/
def onMessage (c : WebClient) (data : Bytes) : WebClient :=
  if c.status = .connected then { c with receiveBuffer := c.receiveBuffer ++ [data] } else c

/-- `RoomieWS_GetNextMessage`: the message leaves the queue, and its first bytes are copied. -/
def getNextMessage (msg : Bytes) (maxLen : ℕ) : Bytes := msg.take (min msg.length maxLen)

/-- The loop of `Poll` that empties the queue. -/
def readMessages : List Bytes → Bytes → List Bytes × Bytes
  | [], recvBuf => ([], recvBuf)
  | msg :: rest, recvBuf =>
    if (getNextMessage msg maxFrameLen).length = 0 then (rest, recvBuf)
    else readMessages rest (recvBuf ++ getNextMessage msg maxFrameLen)

def handleDisconnect (c : WebClient) : WebClient :=
  { c with status := .disconnected, receiveBuffer := [], recvBuf := [] }

section
variable (rt : Runtime) (handlers : Callback → Bool)

/-- The payload goes to the decoder. A `ProtocolException` is reported and that is all; any other
exception ends `Poll` and the connection. -/
def handOver (payload : Bytes) (c : WebClient) : WebClient :=
  match decodeAndDispatch rt handlers payload with
  | .ok _ | .error (.protocol _) => { c with handed := c.handed ++ [payload] }
  | .error .argumentOutOfRange => { c with handed := c.handed ++ [payload] }.handleDisconnect
  | .error .stackOverflow => { c with handed := c.handed ++ [payload], status := .crashed }

/-- `TryProcessFrame`, and whether the loop goes on after it. -/
def tryProcessFrame (c : WebClient) : WebClient × Bool :=
  match head maxFrameLen c.recvBuf with
  | .incomplete => (c, false)
  | .oversized => (c.handleDisconnect, false)
  | .frame payload rest =>
    let c' := handOver rt handlers payload { c with recvBuf := rest }
    (c', c'.status = .connected)

theorem handOver_recvBuf (payload : Bytes) (c : WebClient) :
    (handOver rt handlers payload c).recvBuf = c.recvBuf ∨
      (handOver rt handlers payload c).recvBuf = [] := by
  unfold handOver
  split
  · exact .inl rfl
  · exact .inl rfl
  · exact .inr rfl
  · exact .inl rfl

/-- Each frame that the loop goes on after makes the buffer shorter. -/
theorem tryProcessFrame_shrinks :
    Shrinks (fun c : WebClient => c.recvBuf.length) (tryProcessFrame rt handlers) := by
  intro c c' h
  unfold tryProcessFrame at h
  split at h
  · cases h
  · cases h
  · rename_i payload rest hhead
    obtain ⟨rfl, -⟩ := Prod.mk.inj h
    exact head_shorter hhead (handOver_recvBuf rt handlers payload { c with recvBuf := rest })

/-- `while (TryProcessFrame()) {}` -/
def processFrames (c : WebClient) : WebClient :=
  loop _ (tryProcessFrame rt handlers) (tryProcessFrame_shrinks rt handlers) c

/-- `Poll`, on an open socket. -/
def poll (c : WebClient) : WebClient :=
  if c.status = .connected then
    processFrames rt handlers { c with
      receiveBuffer := (readMessages c.receiveBuffer c.recvBuf).1
      recvBuf := (readMessages c.receiveBuffer c.recvBuf).2 }
  else c

/-- Some messages arrive, then `Poll` is called. -/
def arriveAndPoll (c : WebClient) (msgs : List Bytes) : WebClient :=
  poll rt handlers (msgs.foldl onMessage c)

/-- The messages arrive in groups, with a call of `Poll` after each. -/
def run (groups : List (List Bytes)) : WebClient :=
  groups.foldl (arriveAndPoll rt handlers) start

end

/-! ## What every run preserves -/

section
variable (rt : Runtime) (handlers : Callback → Bool)

/-- The decoder ends in an exception that is no `ProtocolException`. -/
def Abrupt (payload : Bytes) : Prop :=
  ∃ e, decodeAndDispatch rt handlers payload = .error e ∧ ¬ e.IsProtocol

/-- How many bytes of the messages in the queue will be copied. -/
def queued (msgs : List Bytes) : ℕ := (msgs.map fun msg => min msg.length maxFrameLen).sum

/-- Of the bytes that were or will be copied none counts twice: each is in a frame handed over, in
the received bytes, or still in the queue. And a payload that decoding ends abruptly on is the
last one. -/
structure Accounted (copied : ℕ) (c : WebClient) : Prop where
  bytes : (c.handed.map fun p => 4 + p.length).sum + c.recvBuf.length + queued c.receiveBuffer ≤
    copied
  live : c.status = .connected → ∀ p ∈ c.handed, ¬ Abrupt rt handlers p
  before : ∀ p ∈ c.handed.dropLast, ¬ Abrupt rt handlers p

variable {rt handlers} {copied : ℕ} {c : WebClient}

theorem queued_append (xs ys : List Bytes) : queued (xs ++ ys) = queued xs + queued ys := by
  rw [queued, List.map_append, List.sum_append]
  rfl

theorem Accounted.onMessage (h : Accounted rt handlers copied c) (msg : Bytes) :
    Accounted rt handlers (copied + queued [msg]) (c.onMessage msg) := by
  unfold WebClient.onMessage
  have hbytes := h.bytes
  split_ifs
  · refine ⟨?_, h.live, h.before⟩
    simp only [queued_append]
    omega
  · exact ⟨by omega, h.live, h.before⟩

theorem Accounted.arrive (h : Accounted rt handlers copied c) (msgs : List Bytes) :
    Accounted rt handlers (copied + queued msgs) (msgs.foldl WebClient.onMessage c) := by
  induction msgs generalizing copied c with
  | nil => exact h
  | cons msg msgs ih =>
    have hrest := ih (h.onMessage msg)
    rwa [Nat.add_assoc, ← queued_append] at hrest

theorem Accounted.handleDisconnect (h : Accounted rt handlers copied c) :
    Accounted rt handlers copied c.handleDisconnect := by
  have hbytes := h.bytes
  refine ⟨?_, fun hs => (by cases hs), h.before⟩
  change (c.handed.map fun p => 4 + p.length).sum + 0 + 0 ≤ copied
  omega

/-- A payload handed over by a live client. -/
theorem Accounted.handOver {payload rest : Bytes} (h : Accounted rt handlers copied c)
    (hlive : c.status = .connected) (hbuf : c.recvBuf.length = 4 + payload.length + rest.length) :
    Accounted rt handlers copied (handOver rt handlers payload { c with recvBuf := rest }) := by
  have hbytes := h.bytes
  have hsum : ((c.handed ++ [payload]).map fun p => 4 + p.length).sum + rest.length +
      queued c.receiveBuffer ≤ copied := by
    rw [List.map_append, List.sum_append, List.map_singleton, List.sum_singleton]
    omega
  have hbefore : ∀ p ∈ (c.handed ++ [payload]).dropLast, ¬ Abrupt rt handlers p := by
    rw [List.dropLast_concat]
    exact h.live hlive
  have hall : ¬ Abrupt rt handlers payload →
      ∀ p ∈ c.handed ++ [payload], ¬ Abrupt rt handlers p := by
    intro hpayload p hp
    rcases List.mem_append.mp hp with hp | hp
    · exact h.live hlive p hp
    · obtain rfl := List.mem_singleton.mp hp
      exact hpayload
  unfold WebClient.handOver
  split
  · rename_i hok
    refine ⟨hsum, fun _ => hall ?_, hbefore⟩
    rintro ⟨e, he, -⟩
    rw [hok] at he
    cases he
  · rename_i message herror
    refine ⟨hsum, fun _ => hall ?_, hbefore⟩
    rintro ⟨e, he, hprotocol⟩
    rw [herror] at he
    cases he
    exact hprotocol ⟨message, rfl⟩
  · have hmoved : Accounted rt handlers copied
        { c with status := .disconnected, recvBuf := rest, handed := c.handed ++ [payload] } :=
      ⟨hsum, fun hs => (by cases hs), hbefore⟩
    exact hmoved.handleDisconnect
  · exact ⟨hsum, fun hs => (by cases hs), hbefore⟩

theorem head_length {buf payload rest : Bytes} (h : head maxFrameLen buf = .frame payload rest) :
    buf.length = 4 + payload.length + rest.length := by
  unfold head at h
  split_ifs at h
  obtain ⟨rfl, rfl⟩ := Head.frame.inj h
  simp only [List.length_take, List.length_drop]
  omega

theorem Accounted.tryProcessFrame (h : Accounted rt handlers copied c)
    (hlive : c.status = .connected) :
    Accounted rt handlers copied (tryProcessFrame rt handlers c).1 := by
  unfold WebClient.tryProcessFrame
  split
  · exact h
  · exact h.handleDisconnect
  · rename_i hhead
    exact h.handOver hlive (head_length hhead)

theorem tryProcessFrame_live {c' : WebClient} (h : tryProcessFrame rt handlers c = (c', true)) :
    c'.status = .connected := by
  unfold tryProcessFrame at h
  split at h
  · cases h
  · cases h
  · obtain ⟨rfl, hlive⟩ := Prod.mk.inj h
    exact of_decide_eq_true hlive

theorem Accounted.processFrames (h : Accounted rt handlers copied c)
    (hlive : c.status = .connected) :
    Accounted rt handlers copied (processFrames rt handlers c) := by
  refine loop_rule (I := fun c => Accounted rt handlers copied c ∧ c.status = .connected)
    ⟨h, hlive⟩ (fun c c' hc hturn => ?_) fun c c' hc hturn => ?_
  · have hstep := hc.1.tryProcessFrame hc.2
    rw [hturn] at hstep
    exact ⟨hstep, tryProcessFrame_live hturn⟩
  · have hstep := hc.1.tryProcessFrame hc.2
    rwa [hturn] at hstep

theorem readMessages_length (msgs : List Bytes) (recvBuf : Bytes) :
    (readMessages msgs recvBuf).2.length + queued (readMessages msgs recvBuf).1 ≤
      recvBuf.length + queued msgs := by
  induction msgs generalizing recvBuf with
  | nil => exact le_rfl
  | cons msg msgs ih =>
    have hsum : queued (msg :: msgs) = min msg.length maxFrameLen + queued msgs := rfl
    rw [readMessages, hsum]
    split_ifs
    · simp only
      omega
    · have hrest := ih (recvBuf ++ getNextMessage msg maxFrameLen)
      rw [List.length_append, getNextMessage, List.length_take] at hrest
      rw [getNextMessage]
      omega

theorem Accounted.poll (h : Accounted rt handlers copied c) :
    Accounted rt handlers copied (poll rt handlers c) := by
  unfold WebClient.poll
  split_ifs with hlive
  · have hbytes := h.bytes
    have hread := readMessages_length c.receiveBuffer c.recvBuf
    refine Accounted.processFrames ⟨?_, h.live, h.before⟩ hlive
    simp only
    omega
  · exact h

theorem Accounted.run (h : Accounted rt handlers copied c) (groups : List (List Bytes)) :
    Accounted rt handlers (copied + queued groups.flatten)
      (groups.foldl (arriveAndPoll rt handlers) c) := by
  induction groups generalizing copied c with
  | nil => exact h
  | cons msgs groups ih =>
    rw [List.flatten_cons, queued_append, ← Nat.add_assoc]
    exact ih (h.arrive msgs).poll

theorem start_accounted : Accounted rt handlers 0 start :=
  ⟨le_rfl, fun _ p hp => (by cases hp), fun p hp => by cases hp⟩

end

/-! ## Frames that fit the buffer -/

section
variable {rt : Runtime} {handlers : Callback → Bool} {c : WebClient}

/-- The length of a payload whose frame fits the buffer. -/
def Fits (payload : Bytes) : Prop := payload.length ≤ 65532

theorem readMessages_frames {ps : List Bytes} (h : ∀ p ∈ ps, Fits p) (recvBuf : Bytes) :
    readMessages (ps.map frame) recvBuf = ([], recvBuf ++ ps.flatMap frame) := by
  induction ps generalizing recvBuf with
  | nil => rw [List.map_nil, readMessages, List.flatMap_nil, List.append_nil]
  | cons p ps ih =>
    have hfits : p.length ≤ 65532 := h p List.mem_cons_self
    have hlen := length_frame p
    have hcopy : getNextMessage (frame p) maxFrameLen = frame p := by
      rw [getNextMessage, maxFrameLen, Nat.min_eq_left (by omega), List.take_length]
    rw [List.map_cons, readMessages, hcopy, if_neg (by omega),
      ih fun q hq => h q (List.mem_cons_of_mem _ hq), List.flatMap_cons, List.append_assoc]

theorem arrive_connected (h : c.status = .connected) (msgs : List Bytes) :
    msgs.foldl onMessage c = { c with receiveBuffer := c.receiveBuffer ++ msgs } := by
  induction msgs generalizing c with
  | nil => rw [List.append_nil]; rfl
  | cons msg msgs ih =>
    have hmsg : c.onMessage msg = { c with receiveBuffer := c.receiveBuffer ++ [msg] } := if_pos h
    rw [List.foldl_cons, hmsg, ih (c := { c with receiveBuffer := c.receiveBuffer ++ [msg] }) h,
      List.append_assoc]
    rfl

/-- A client that is not connected any more stays as it is. -/
theorem arriveAndPoll_over (h : c.status ≠ .connected) (msgs : List Bytes) :
    arriveAndPoll rt handlers c msgs = c := by
  have hmsgs : msgs.foldl onMessage c = c := by
    induction msgs with
    | nil => rfl
    | cons msg msgs ih =>
      have hmsg : c.onMessage msg = c := if_neg h
      rw [List.foldl_cons, hmsg, ih]
  rw [arriveAndPoll, hmsgs]
  exact if_neg h

theorem run_over (h : c.status ≠ .connected) (groups : List (List Bytes)) :
    groups.foldl (arriveAndPoll rt handlers) c = c := by
  induction groups with
  | nil => rfl
  | cons msgs groups ih => rw [List.foldl_cons, arriveAndPoll_over h, ih]

theorem handOver_handed (payload : Bytes) :
    (handOver rt handlers payload c).handed = c.handed ++ [payload] := by
  unfold handOver
  split <;> rfl

/-- Decoding that does not end abruptly leaves the client as it was. -/
theorem handOver_calm {payload : Bytes} (h : ¬ Abrupt rt handlers payload) :
    handOver rt handlers payload c = { c with handed := c.handed ++ [payload] } := by
  unfold handOver
  split
  · rfl
  · rfl
  · rename_i herror
    exact absurd ⟨_, herror, fun ⟨_, hm⟩ => by cases hm⟩ h
  · rename_i herror
    exact absurd ⟨_, herror, fun ⟨_, hm⟩ => by cases hm⟩ h

/-- A payload that decoding ends abruptly on ends the connection. -/
theorem handOver_abrupt {payload : Bytes} (h : Abrupt rt handlers payload) :
    (handOver rt handlers payload c).status ≠ .connected := by
  obtain ⟨e, he, hprotocol⟩ := h
  unfold handOver
  rw [he]
  cases e with
  | protocol message => exact absurd ⟨message, rfl⟩ hprotocol
  | argumentOutOfRange => exact fun hs => by cases hs
  | stackOverflow => exact fun hs => by cases hs

/-- Bytes that the connection is given up over: after some frames there is a length beyond the limit,
or a payload that decoding ends abruptly on. -/
inductive Faulty (rt : Runtime) (handlers : Callback → Bool) : Bytes → Prop
  | oversized {buf : Bytes} (hhead : head maxFrameLen buf = .oversized) : Faulty rt handlers buf
  | abrupt {buf payload rest : Bytes} (hhead : head maxFrameLen buf = .frame payload rest)
      (habrupt : Abrupt rt handlers payload) : Faulty rt handlers buf
  | later {buf payload rest : Bytes} (hhead : head maxFrameLen buf = .frame payload rest)
      (hrest : Faulty rt handlers rest) : Faulty rt handlers buf

theorem not_faulty {buf : Bytes} (h : head maxFrameLen buf = .incomplete) :
    ¬ Faulty rt handlers buf := by
  intro hfaulty
  cases hfaulty with
  | oversized hhead => cases h.symm.trans hhead
  | abrupt hhead _ => cases h.symm.trans hhead
  | later hhead _ => cases h.symm.trans hhead

/-- Behind a frame that is well it is the rest that counts. -/
theorem faulty_iff {buf payload rest : Bytes} (hhead : head maxFrameLen buf = .frame payload rest)
    (hcalm : ¬ Abrupt rt handlers payload) : Faulty rt handlers buf ↔ Faulty rt handlers rest := by
  constructor
  · intro hfaulty
    cases hfaulty with
    | oversized hhead' => cases hhead.symm.trans hhead'
    | abrupt hhead' habrupt =>
      obtain ⟨rfl, -⟩ := Head.frame.inj (hhead.symm.trans hhead')
      exact absurd habrupt hcalm
    | later hhead' hrest =>
      obtain ⟨-, rfl⟩ := Head.frame.inj (hhead.symm.trans hhead')
      exact hrest
  · exact .later hhead

/-- What the client has got out of the messages: the frames handed over, and the bytes behind them. -/
def account (c : WebClient) : Bytes := c.handed.flatMap frame ++ c.recvBuf

/-- The loop has come from one client to the other, and goes on. -/
structure Underway (rt : Runtime) (handlers : Callback → Bool) (c d : WebClient) : Prop where
  live : d.status = .connected
  faulty : Faulty rt handlers d.recvBuf ↔ Faulty rt handlers c.recvBuf
  account : d.account = c.account
  queue : d.receiveBuffer = c.receiveBuffer

/-- The loop has ended the connection exactly over faulty bytes; otherwise none are lost, and no
whole frame is left. -/
structure Processed (rt : Runtime) (handlers : Callback → Bool) (c d : WebClient) : Prop where
  stays : d.status = .connected ↔ ¬ Faulty rt handlers c.recvBuf
  incomplete : d.status = .connected → head maxFrameLen d.recvBuf = .incomplete
  account : d.status ≠ .disconnected → d.account = c.account
  queue : d.status ≠ .disconnected → d.receiveBuffer = c.receiveBuffer

/-- A turn either takes the frame at the head and goes on, or it is the last one. -/
theorem tryProcessFrame_cases (hlive : c.status = .connected) {c' : WebClient} {more : Bool}
    (hturn : tryProcessFrame rt handlers c = (c', more)) :
    (∃ payload rest, head maxFrameLen c.recvBuf = .frame payload rest ∧
        ¬ Abrupt rt handlers payload ∧ more = true ∧
        c' = { c with recvBuf := rest, handed := c.handed ++ [payload] }) ∨
      more = false ∧ Processed rt handlers c c' := by
  unfold tryProcessFrame at hturn
  split at hturn
  · rename_i hhead
    obtain ⟨rfl, rfl⟩ := Prod.mk.inj hturn
    exact .inr ⟨rfl, iff_of_true hlive (not_faulty hhead), fun _ => hhead, fun _ => rfl, fun _ => rfl⟩
  · rename_i hhead
    obtain ⟨rfl, rfl⟩ := Prod.mk.inj hturn
    have hdown : c.handleDisconnect.status ≠ .connected := fun hup => by cases hup
    exact .inr ⟨rfl, iff_of_false hdown (not_not_intro (.oversized hhead)),
      fun hup => absurd hup hdown, fun hup => absurd rfl hup, fun hup => absurd rfl hup⟩
  · rename_i payload rest hhead
    obtain ⟨rfl, rfl⟩ := Prod.mk.inj hturn
    by_cases habrupt : Abrupt rt handlers payload
    · have hdown := handOver_abrupt (c := { c with recvBuf := rest }) habrupt
      -- only a crash leaves the bytes where they are
      have hcrash : (handOver rt handlers payload { c with recvBuf := rest }).status ≠
          .disconnected → handOver rt handlers payload { c with recvBuf := rest } =
            ⟨.crashed, c.receiveBuffer, rest, c.handed ++ [payload]⟩ := by
        obtain ⟨e, he, hprotocol⟩ := id habrupt
        unfold handOver
        rw [he]
        cases e with
        | protocol message => exact absurd ⟨message, rfl⟩ hprotocol
        | argumentOutOfRange => exact fun hup => absurd rfl hup
        | stackOverflow => exact fun _ => rfl
      refine .inr ⟨decide_eq_false hdown, iff_of_false hdown
        (not_not_intro (.abrupt hhead habrupt)), fun hup => absurd hup hdown, fun hup => ?_,
        fun hup => ?_⟩
      · rw [hcrash hup, account, account, (eq_of_head hhead).2, List.flatMap_append,
          List.flatMap_singleton, List.append_assoc]
      · rw [hcrash hup]
    · rw [handOver_calm habrupt]
      exact .inl ⟨payload, rest, hhead, habrupt, decide_eq_true hlive, rfl⟩

theorem processFrames_processed (hlive : c.status = .connected) :
    Processed rt handlers c (processFrames rt handlers c) := by
  refine loop_rule (I := Underway rt handlers c) ⟨hlive, Iff.rfl, rfl, rfl⟩
    (fun d d' hd hturn => ?_) fun d d' hd hturn => ?_
  · obtain ⟨payload, rest, hhead, hcalm, -, rfl⟩ | ⟨hfalse, -⟩ := tryProcessFrame_cases hd.live hturn
    · refine ⟨hd.live, (faulty_iff hhead hcalm).symm.trans hd.faulty, ?_, hd.queue⟩
      rw [← hd.account, account, account, (eq_of_head hhead).2, List.flatMap_append,
        List.flatMap_singleton, List.append_assoc]
    · cases hfalse
  · obtain ⟨_, _, -, -, htrue, -⟩ | ⟨-, hends⟩ := tryProcessFrame_cases hd.live hturn
    · cases htrue
    · refine ⟨hends.stays.trans (not_congr hd.faulty), hends.incomplete, fun hup => ?_,
        fun hup => ?_⟩
      · exact (hends.account hup).trans hd.account
      · exact (hends.queue hup).trans hd.queue

/-- The buffer holds whole frames: all of them are handed over, and the client is ready for more
unless the last payload ended the connection. -/
theorem processFrames_frames {ps : List Bytes} (hlive : c.status = .connected)
    (hsound : ∀ p ∈ ps, Sound maxFrameLen p) (hbuf : c.recvBuf = ps.flatMap frame)
    (hcalm : ∀ p ∈ ps.dropLast, ¬ Abrupt rt handlers p) :
    (processFrames rt handlers c).handed = c.handed ++ ps ∧
      ((∀ p ∈ ps, ¬ Abrupt rt handlers p) →
        processFrames rt handlers c = { c with recvBuf := [], handed := c.handed ++ ps }) ∧
      ((∃ p ∈ ps, Abrupt rt handlers p) →
        (processFrames rt handlers c).status ≠ .connected) := by
  induction ps generalizing c with
  | nil =>
    have hnil : c.recvBuf = [] := hbuf
    have hturn : tryProcessFrame rt handlers c = (c, false) := by
      unfold tryProcessFrame
      rw [hnil]
      rfl
    rw [processFrames, loop_end hturn, List.append_nil]
    refine ⟨rfl, fun _ => ?_, fun ⟨p, hp, _⟩ => by cases hp⟩
    rw [← hnil]
  | cons p ps ih =>
    have hhead : head maxFrameLen c.recvBuf = .frame p (ps.flatMap frame) := by
      rw [hbuf, List.flatMap_cons]
      exact head_frame maxFrameLen_lt (hsound p List.mem_cons_self).2 _
    have hturn : tryProcessFrame rt handlers c =
        (handOver rt handlers p { c with recvBuf := ps.flatMap frame },
          decide ((handOver rt handlers p { c with recvBuf := ps.flatMap frame }).status =
            .connected)) := by
      unfold tryProcessFrame
      rw [hhead]
    have hrest : ∀ q ∈ ps, Sound maxFrameLen q := fun q hq => hsound q (List.mem_cons_of_mem _ hq)
    by_cases habrupt : Abrupt rt handlers p
    · -- decoding ends abruptly, so this payload is the last one
      have hlast : ps = [] := by
        by_contra hne
        rw [List.dropLast_cons_of_ne_nil hne] at hcalm
        exact hcalm p List.mem_cons_self habrupt
      subst hlast
      have hdown := handOver_abrupt (c := { c with recvBuf := ([] : List Bytes).flatMap frame }) habrupt
      rw [processFrames, loop_end (hturn.trans (by rw [decide_eq_false hdown]))]
      exact ⟨handOver_handed p, fun h => absurd habrupt (h p List.mem_cons_self), fun _ => hdown⟩
    · have hcalm' : ∀ q ∈ ps.dropLast, ¬ Abrupt rt handlers q := by
        intro q hq
        cases ps with
        | nil => cases hq
        | cons q' ps => exact hcalm q (List.mem_cons_of_mem _ hq)
      rw [handOver_calm habrupt, decide_eq_true hlive] at hturn
      have hagain : processFrames rt handlers c = processFrames rt handlers { c with
          recvBuf := ps.flatMap frame, handed := c.handed ++ [p] } := loop_again hturn
      rw [hagain]
      obtain ⟨hhanded, hready, hdown⟩ := ih (c := { c with
        recvBuf := ps.flatMap frame, handed := c.handed ++ [p] }) hlive hrest rfl hcalm'
      refine ⟨by rw [hhanded, List.append_assoc]; rfl, fun h => ?_, fun ⟨q, hq, habrupt'⟩ => ?_⟩
      · rw [hready fun q hq => h q (List.mem_cons_of_mem _ hq), List.append_assoc]
        rfl
      · rcases List.mem_cons.mp hq with rfl | hq
        · exact absurd habrupt' habrupt
        · exact hdown ⟨q, hq, habrupt'⟩

/-- A client with nothing pending that gets whole frames, in any groups. -/
theorem run_frames {groups : List (List Bytes)} {ps : List Bytes} (hlive : c.status = .connected)
    (hqueue : c.receiveBuffer = []) (hbuf : c.recvBuf = [])
    (hsound : ∀ p ∈ ps, Sound maxFrameLen p) (hfits : ∀ p ∈ ps, Fits p)
    (hcalm : ∀ p ∈ ps.dropLast, ¬ Abrupt rt handlers p) (hgroups : groups.flatten = ps.map frame) :
    (groups.foldl (arriveAndPoll rt handlers) c).handed = c.handed ++ ps := by
  induction groups generalizing c ps with
  | nil =>
    obtain rfl := List.map_eq_nil_iff.mp hgroups.symm
    exact (List.append_nil _).symm
  | cons msgs groups ih =>
    rw [List.flatten_cons] at hgroups
    obtain ⟨now, later, rfl, rfl, hlater⟩ := List.map_eq_append_iff.mp hgroups.symm
    have hnow : ∀ p ∈ now, p ∈ now ++ later := fun p hp => List.mem_append_left _ hp
    have hread := readMessages_frames (fun p hp => hfits p (hnow p hp)) []
    have hpoll : arriveAndPoll rt handlers c (now.map frame) =
        processFrames rt handlers { c with receiveBuffer := [], recvBuf := now.flatMap frame } := by
      rw [arriveAndPoll, arrive_connected hlive, hqueue, List.nil_append]
      unfold poll
      simp only [hlive, hbuf, hread, if_true, List.nil_append]
    have hsplit : later ≠ [] → (now ++ later).dropLast = now ++ later.dropLast :=
      List.dropLast_append_of_ne_nil
    have hcalmNow : ∀ p ∈ now.dropLast, ¬ Abrupt rt handlers p := by
      intro p hp
      by_cases hmore : later = []
      · subst hmore
        rw [List.append_nil] at hcalm
        exact hcalm p hp
      · rw [hsplit hmore] at hcalm
        exact hcalm p (List.mem_append_left _ (List.dropLast_subset _ hp))
    obtain ⟨hhanded, hready, hdown⟩ := @processFrames_frames rt handlers
      { c with receiveBuffer := [], recvBuf := now.flatMap frame } now hlive
      (fun p hp => hsound p (hnow p hp)) rfl hcalmNow
    rw [List.foldl_cons, hpoll]
    by_cases hall : ∀ p ∈ now, ¬ Abrupt rt handlers p
    · have hcalmLater : ∀ p ∈ later.dropLast, ¬ Abrupt rt handlers p := by
        intro p hp
        have hmore : later ≠ [] := by
          rintro rfl
          cases hp
        rw [hsplit hmore] at hcalm
        exact hcalm p (List.mem_append_right _ hp)
      have hrest := ih (c := { c with receiveBuffer := [], recvBuf := [], handed := c.handed ++ now })
        hlive rfl rfl (fun p hp => hsound p (List.mem_append_right _ hp))
        (fun p hp => hfits p (List.mem_append_right _ hp)) hcalmLater hlater.symm
      rw [hready hall, hrest, List.append_assoc]
    · -- the connection ends with this group, so no payload is left for the others
      have habrupt : ∃ p ∈ now, Abrupt rt handlers p := by
        by_contra hnone
        exact hall fun p hp h => hnone ⟨p, hp, h⟩
      have hlast : later = [] := by
        by_contra hmore
        rw [hsplit hmore] at hcalm
        obtain ⟨p, hp, h⟩ := habrupt
        exact hcalm p (List.mem_append_left _ hp) h
      rw [run_over (hdown habrupt), hhanded, hlast, List.append_nil]

end

/-! ## The stream is preserved exactly when every frame fits -/

theorem queued_le (ps : List Bytes) :
    queued (ps.map frame) ≤ (ps.map fun p => 4 + p.length).sum := by
  induction ps with
  | nil => exact le_rfl
  | cons p ps ih =>
    have hmin : min (frame p).length maxFrameLen ≤ 4 + p.length :=
      (Nat.min_le_left _ _).trans (length_frame p).le
    exact Nat.add_le_add hmin ih

/-- All bytes of the frames are copied exactly if every frame fits. -/
theorem frames_fit_iff (ps : List Bytes) :
    (∀ p ∈ ps, Fits p) ↔ (ps.map fun p => 4 + p.length).sum ≤ queued (ps.map frame) := by
  induction ps with
  | nil => exact iff_of_true (fun p hp => by cases hp) le_rfl
  | cons p ps ih =>
    have hle := queued_le ps
    have hlen := length_frame p
    have hone : Fits p ↔ 4 + p.length ≤ min (frame p).length maxFrameLen := by
      rw [Fits, maxFrameLen, hlen]
      omega
    have hmin : min (frame p).length maxFrameLen ≤ 4 + p.length :=
      (Nat.min_le_left _ _).trans hlen.le
    have hsum : queued ((p :: ps).map frame) =
        min (frame p).length maxFrameLen + queued (ps.map frame) := rfl
    rw [List.forall_mem_cons, ih, hone, hsum, List.map_cons, List.sum_cons]
    omega

section
variable (rt : Runtime) (handlers : Callback → Bool)

/-- Whatever the payloads and their groups are, the decoder gets exactly these payloads, each once
and in order, exactly if every frame fits the buffer of `MaxFrameLen` bytes and none but the last
ends the connection. -/
theorem run_delivers_iff {groups : List (List Bytes)} {payloads : List Bytes}
    (hsound : ∀ p ∈ payloads, Sound maxFrameLen p) (hgroups : groups.flatten = payloads.map frame) :
    (run rt handlers groups).handed = payloads ↔
      (∀ p ∈ payloads, Fits p) ∧ ∀ p ∈ payloads.dropLast, ¬ Abrupt rt handlers p := by
  constructor
  · intro hhanded
    have haccounted : Accounted rt handlers (0 + queued groups.flatten) (run rt handlers groups) :=
      start_accounted.run groups
    have hbytes := haccounted.bytes
    have hbefore := haccounted.before
    rw [hhanded, hgroups] at hbytes
    rw [hhanded] at hbefore
    exact ⟨(frames_fit_iff payloads).mpr (by omega), hbefore⟩
  · rintro ⟨hfits, hcalm⟩
    exact run_frames rfl rfl rfl hsound hfits hcalm hgroups

end

theorem large_not_handed (rt : Runtime) (handlers : Callback → Bool) (payload : Bytes)
    (h : ¬ Fits payload) : (run rt handlers [[frame payload]]).handed ≠ [payload] := by
  intro hhanded
  have hflat : [[frame payload]].flatten = [payload].map frame := rfl
  have haccounted : Accounted rt handlers (0 + queued [[frame payload]].flatten)
      (run rt handlers [[frame payload]]) := Accounted.run start_accounted [[frame payload]]
  have hbytes := haccounted.bytes
  rw [hhanded, hflat] at hbytes
  exact h ((frames_fit_iff [payload]).mpr (by omega) payload List.mem_cons_self)

/-- The payload is one byte longer than what the buffer holds of a frame. -/
theorem large_frame_lost :
    ¬ ∀ (rt : Runtime) (handlers : Callback → Bool) (groups : List (List Bytes))
        (payloads : List Bytes), (∀ p ∈ payloads, Sound maxFrameLen p) →
      groups.flatten = payloads.map frame → (run rt handlers groups).handed = payloads := by
  intro h
  have hlen : (List.replicate 65533 (0 : UInt8)).length = 65533 := List.length_replicate
  refine large_not_handed ⟨64, fun _ => ""⟩ (fun _ => true)
    (List.replicate 65533 0) ?_ (h _ _ _ _ (fun p hp => ?_) rfl)
  · rw [Fits, hlen]
    omega
  · obtain rfl := List.mem_singleton.mp hp
    rw [Sound, hlen, maxFrameLen]
    omega

/-- Two pongs arrive one by one. -/
theorem pongs_handed :
    (run ⟨64, fun _ => ""⟩ (fun _ => true) [[frame [9]], [frame [9]]]).handed = [[9], [9]] := by
  have hpong : ¬ Abrupt ⟨64, fun _ => ""⟩ (fun _ => true) [9] := by
    have hdecode : decodeAndDispatch ⟨64, fun _ => ""⟩ (fun _ => true) [9] = .ok (some .pong, 1) :=
      rfl
    rintro ⟨e, he, -⟩
    rw [hdecode] at he
    cases he
  refine (run_delivers_iff _ _ (fun p hp => ?_) rfl).mpr ⟨fun p hp => ?_, fun p hp => ?_⟩
  · obtain rfl : p = [9] := by simpa using hp
    exact ⟨le_rfl, by decide⟩
  · obtain rfl : p = [9] := by simpa using hp
    exact (by decide : 1 ≤ 65532)
  · obtain rfl : p = [9] := by simpa using hp
    exact hpong

end WebClient

end Roomie.Csharp
