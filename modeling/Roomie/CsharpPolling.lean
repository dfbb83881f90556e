import Roomie.WebSockets

/-!
# The TCP transport of the C# client

`Poll` appends what it reads to the received bytes and takes whole frames from these. A handler may
call `Disconnect`, and an exception that is no `ProtocolException` ends the connection too; either
clears the received bytes. What becomes of a stream of frames is said first in terms of payloads:
how `Poll` gets them, and in which pieces, makes no difference.
-/

namespace Roomie.Csharp
open Bincode Frames Loops

/-- What goes on at the client: a call of `DecodeAndDispatch`, of a handler, of `OnError` for a
`ProtocolException`, and of `OnDisconnected`. -/
inductive PollEvent where
  | decoding (payload : Bytes)
  | called (call : Call)
  | reported (message : String)
  | disconnected
  deriving DecidableEq

/-- The fields of `RoomieClient` that bytes pass through, and what has gone on. -/
structure TcpClient where
  status : Status
  recvBuf : Bytes
  log : List PollEvent

namespace TcpClient

/-- After `Connect`. -/
def start : TcpClient := ⟨.connected, [], []⟩

/-- The payloads that `DecodeAndDispatch` has got. -/
def decoded (log : List PollEvent) : List Bytes :=
  log.filterMap fun e => match e with
    | .decoding payload => some payload
    | _ => none

/-- `Disconnect`; `OnDisconnected` is raised only if the client was connected. -/
def disconnect (c : TcpClient) : TcpClient :=
  ⟨.disconnected, [], if c.status = .connected then c.log ++ [.disconnected] else c.log⟩

def handleDisconnect (c : TcpClient) : TcpClient := ⟨.disconnected, [], c.log ++ [.disconnected]⟩

section
variable (rt : Runtime) (handlers : Callback → Bool) (acts : List PollEvent → Bool)

/-- A handler runs. With regard to all that has gone on it calls `Disconnect`, or does not. -/
def raise (e : PollEvent) (c : TcpClient) : TcpClient :=
  if acts (c.log ++ [e]) then { c with log := c.log ++ [e] }.disconnect
  else { c with log := c.log ++ [e] }

/-- The payload goes to the decoder; and whether `TryProcessFrame` comes to its end. -/
def handOver (payload : Bytes) (c : TcpClient) : TcpClient × Bool :=
  let c := { c with log := c.log ++ [.decoding payload] }
  match decodeAndDispatch rt handlers payload with
  | .ok (some call, _) => (raise acts (.called call) c, true)
  | .ok (none, _) => (c, true)
  | .error (.protocol message) => (raise acts (.reported ("Decode error: " ++ message)) c, true)
  | .error .argumentOutOfRange => (c.handleDisconnect, false)
  | .error .stackOverflow => (⟨.crashed, [], c.log⟩, false)

/-- `TryProcessFrame`, and whether the loop goes on after it. -/
def tryProcessFrame (c : TcpClient) : TcpClient × Bool :=
  match head maxFrameLen c.recvBuf with
  | .incomplete => (c, false)
  | .oversized => (c.handleDisconnect, false)
  | .frame payload rest => handOver rt handlers acts payload { c with recvBuf := rest }

theorem raise_recvBuf (e : PollEvent) (c : TcpClient) :
    (raise acts e c).recvBuf = c.recvBuf ∨ (raise acts e c).recvBuf = [] := by
  unfold raise
  split_ifs
  · exact .inr rfl
  · exact .inl rfl

theorem handOver_recvBuf (payload : Bytes) (c : TcpClient) :
    (handOver rt handlers acts payload c).1.recvBuf = c.recvBuf ∨
      (handOver rt handlers acts payload c).1.recvBuf = [] := by
  unfold handOver
  dsimp only
  split
  · exact raise_recvBuf acts _ _
  · exact .inl rfl
  · exact raise_recvBuf acts _ _
  · exact .inr rfl
  · exact .inr rfl

/-- Each frame that the loop goes on after makes the buffer shorter. -/
theorem tryProcessFrame_shrinks :
    Shrinks (fun c : TcpClient => c.recvBuf.length) (tryProcessFrame rt handlers acts) := by
  intro c c' h
  unfold tryProcessFrame at h
  split at h
  · cases h
  · cases h
  · rename_i payload rest hhead
    have hbuf := handOver_recvBuf rt handlers acts payload { c with recvBuf := rest }
    rw [h] at hbuf
    exact head_shorter hhead hbuf

/-- `while (TryProcessFrame()) {}` -/
def processFrames (c : TcpClient) : TcpClient :=
  loop _ (tryProcessFrame rt handlers acts) (tryProcessFrame_shrinks rt handlers acts) c

/-- The loop of `Poll` that reads whatever is available; nothing if the server has closed. -/
def readAvailable : List Bytes → Bytes → Option Bytes
  | [], recvBuf => some recvBuf
  | chunk :: chunks, recvBuf =>
    if chunk.length = 0 then none else readAvailable chunks (recvBuf ++ chunk)

/-- `Poll`, which reads these chunks. -/
def poll (tcpConnected : Bool) (chunks : List Bytes) (c : TcpClient) : TcpClient :=
  if c.status = .connected then
    if tcpConnected then
      match readAvailable chunks c.recvBuf with
      | none => c.handleDisconnect
      | some recvBuf => processFrames rt handlers acts { c with recvBuf := recvBuf }
    else c.handleDisconnect
  else c

/-- The client after some calls of `Poll` on a connection that stands. -/
def run (polls : List (List Bytes)) : TcpClient :=
  polls.foldl (fun c chunks => poll rt handlers acts true chunks c) start

end

/-! ## What becomes of payloads -/

/-- A client as far as it does not depend on how the payloads came. -/
structure Account where
  status : Status
  log : List PollEvent

/-- Before the first payload. -/
def Account.start : Account := ⟨.connected, []⟩

/-- The client with some bytes received; they are cleared when the connection ends. -/
def Account.client (a : Account) (recvBuf : Bytes) : TcpClient :=
  ⟨a.status, if a.status = .connected then recvBuf else [], a.log⟩

section
variable (rt : Runtime) (handlers : Callback → Bool) (acts : List PollEvent → Bool)

/-- What follows from a payload, if nothing but a handler ends the connection. -/
def outcome (payload : Bytes) : List PollEvent :=
  match decodeAndDispatch rt handlers payload with
  | .ok (some call, _) => [.decoding payload, .called call]
  | .error (.protocol message) => [.decoding payload, .reported ("Decode error: " ++ message)]
  | _ => [.decoding payload]

/-- The next payload is decoded, as long as the client is connected. -/
def told (a : Account) (payload : Bytes) : Account :=
  if a.status = .connected then
    let log := a.log ++ outcome rt handlers payload
    match decodeAndDispatch rt handlers payload with
    | .ok (none, _) => ⟨.connected, log⟩
    | .ok (some _, _) | .error (.protocol _) =>
      if acts log then ⟨.disconnected, log ++ [.disconnected]⟩ else ⟨.connected, log⟩
    | .error .argumentOutOfRange => ⟨.disconnected, log ++ [.disconnected]⟩
    | .error .stackOverflow => ⟨.crashed, log⟩
  else a

variable {rt handlers acts}

theorem raise_eq (e : PollEvent) (recvBuf : Bytes) (log : List PollEvent) :
    raise acts e ⟨.connected, recvBuf, log⟩ =
      Account.client (if acts (log ++ [e]) then ⟨.disconnected, log ++ [e] ++ [.disconnected]⟩
        else ⟨.connected, log ++ [e]⟩) recvBuf := by
  unfold raise
  split_ifs <;> rfl

variable (rt handlers acts) in
/-- The frame at the head is decoded, and if it ends the connection the bytes behind it are gone. -/
theorem handOver_eq (payload recvBuf : Bytes) (log : List PollEvent) :
    (handOver rt handlers acts payload ⟨.connected, recvBuf, log⟩).1 =
        (told rt handlers acts ⟨.connected, log⟩ payload).client recvBuf ∧
      ((handOver rt handlers acts payload ⟨.connected, recvBuf, log⟩).2 = false →
        (told rt handlers acts ⟨.connected, log⟩ payload).status ≠ .connected) := by
  unfold handOver told outcome
  rw [if_pos rfl]
  rcases decodeAndDispatch rt handlers payload with e | ⟨_ | call, p⟩
  · cases e with
    | protocol message =>
      refine ⟨?_, nofun⟩
      dsimp only
      rw [raise_eq, List.append_assoc]
      rfl
    | argumentOutOfRange => exact ⟨rfl, fun _ h => by cases h⟩
    | stackOverflow => exact ⟨rfl, fun _ h => by cases h⟩
  · exact ⟨rfl, nofun⟩
  · refine ⟨?_, nofun⟩
    dsimp only
    rw [raise_eq, List.append_assoc]
    rfl

theorem client_over {a : Account} (h : a.status ≠ .connected) (recvBuf : Bytes) :
    a.client recvBuf = ⟨a.status, [], a.log⟩ := by
  rw [Account.client, if_neg h]

theorem told_over {a : Account} (h : a.status ≠ .connected) (payload : Bytes) :
    told rt handlers acts a payload = a := if_neg h

theorem tell_over {a : Account} (h : a.status ≠ .connected) (payloads : List Bytes) :
    payloads.foldl (told rt handlers acts) a = a := by
  induction payloads with
  | nil => rfl
  | cons payload payloads ih => rw [List.foldl_cons, told_over h, ih]

theorem processFrames_incomplete {c : TcpClient} (h : head maxFrameLen c.recvBuf = .incomplete) :
    processFrames rt handlers acts c = c := by
  refine loop_end ?_
  unfold tryProcessFrame
  rw [h]

variable (rt handlers acts) in
/-- The loop on a buffer that holds whole frames and a piece of one. -/
theorem processFrames_eq {payloads : List Bytes} {tail : Bytes} (log : List PollEvent)
    (hlen : ∀ p ∈ payloads, p.length ≤ maxFrameLen)
    (htail : head maxFrameLen tail = .incomplete) :
    processFrames rt handlers acts ⟨.connected, payloads.flatMap frame ++ tail, log⟩ =
      (payloads.foldl (told rt handlers acts) ⟨.connected, log⟩).client tail := by
  induction payloads generalizing log with
  | nil => exact processFrames_incomplete htail
  | cons p ps ih =>
    have hrest : ∀ q ∈ ps, q.length ≤ maxFrameLen := fun q hq => hlen q (List.mem_cons_of_mem _ hq)
    have hturn : tryProcessFrame rt handlers acts
        ⟨.connected, (p :: ps).flatMap frame ++ tail, log⟩ =
          handOver rt handlers acts p ⟨.connected, ps.flatMap frame ++ tail, log⟩ := by
      unfold tryProcessFrame
      rw [List.flatMap_cons, List.append_assoc,
        head_frame maxFrameLen_lt (hlen p List.mem_cons_self)]
    obtain ⟨hclient, hends⟩ := handOver_eq rt handlers acts p
      (ps.flatMap frame ++ tail) log
    rw [List.foldl_cons]
    cases hhand : handOver rt handlers acts p ⟨.connected, ps.flatMap frame ++ tail, log⟩ with
    | mk c more =>
      rw [hhand] at hturn hclient hends
      cases more with
      | false =>
        have hover := hends rfl
        change c = _ at hclient
        rw [processFrames, loop_end hturn, tell_over hover, hclient, client_over hover,
          client_over hover]
      | true =>
        change c = _ at hclient
        rw [processFrames, loop_again hturn, hclient]
        generalize told rt handlers acts ⟨.connected, log⟩ p = a
        obtain ⟨status, log'⟩ := a
        by_cases hlive : status = .connected
        · subst hlive
          exact ih log' hrest
        · rw [tell_over hlive, client_over hlive, client_over hlive]
          exact processFrames_incomplete rfl

theorem readAvailable_eq {chunks : List Bytes} (h : ∀ chunk ∈ chunks, chunk ≠ [])
    (recvBuf : Bytes) : readAvailable chunks recvBuf = some (recvBuf ++ chunks.flatten) := by
  induction chunks generalizing recvBuf with
  | nil => rw [readAvailable, List.flatten_nil, List.append_nil]
  | cons chunk chunks ih =>
    have hlen : chunk.length ≠ 0 := fun hnil =>
      h chunk List.mem_cons_self (List.length_eq_zero_iff.mp hnil)
    rw [readAvailable, if_neg hlen, ih fun c hc => h c (List.mem_cons_of_mem _ hc),
      List.flatten_cons, List.append_assoc]

variable (rt handlers acts) in
/-- Some bytes are read that continue a stream of frames. -/
theorem poll_eq (a : Account) {rest : List Bytes} {tail : Bytes} {chunks : List Bytes}
    (hlen : ∀ p ∈ rest, p.length ≤ maxFrameLen) (hreads : ∀ chunk ∈ chunks, chunk ≠ [])
    (hstream : tail ++ chunks.flatten <+: rest.flatMap frame) :
    ∃ done rest' tail', rest = done ++ rest' ∧
      tail ++ chunks.flatten = done.flatMap frame ++ tail' ∧ tail' <+: rest'.flatMap frame ∧
      (∀ p ∈ rest'.head?, tail'.length < (frame p).length) ∧
      poll rt handlers acts true chunks (a.client tail) =
        (done.foldl (told rt handlers acts) a).client tail' := by
  obtain ⟨done, rest', tail', rfl, hbytes, htail, hnext⟩ := split_stream hstream
  refine ⟨done, rest', tail', rfl, hbytes, htail, hnext, ?_⟩
  have hhead : head maxFrameLen tail' = .incomplete :=
    head_tail maxFrameLen_lt (fun p hp => hlen p (List.mem_append_right _ hp)) htail hnext
  by_cases hlive : a.status = .connected
  · obtain ⟨status, log⟩ := a
    obtain rfl : status = .connected := hlive
    have hframes := processFrames_eq rt handlers acts log
      (fun p hp => hlen p (List.mem_append_left _ hp)) hhead
    rw [← hbytes] at hframes
    have hclient : Account.client ⟨.connected, log⟩ tail = ⟨.connected, tail, log⟩ := rfl
    rw [← hframes, hclient, poll, if_pos rfl, if_pos rfl, readAvailable_eq hreads]
  · rw [tell_over hlive, client_over hlive, client_over hlive]
    exact if_neg hlive

/-- However the bytes of a stream of frames are read, the client is where the payloads that are
complete have brought it, with the piece of the next frame received. -/
theorem run_eq {polls : List (List Bytes)} {payloads : List Bytes}
    (hlen : ∀ p ∈ payloads, p.length ≤ maxFrameLen)
    (hreads : ∀ chunks ∈ polls, ∀ chunk ∈ chunks, chunk ≠ [])
    (hstream : polls.flatten.flatten <+: payloads.flatMap frame) :
    ∃ done rest tail, payloads = done ++ rest ∧
      polls.flatten.flatten = done.flatMap frame ++ tail ∧ tail <+: rest.flatMap frame ∧
      (∀ p ∈ rest.head?, tail.length < (frame p).length) ∧
      run rt handlers acts polls =
        (done.foldl (told rt handlers acts) Account.start).client tail := by
  induction polls using List.reverseRecOn with
  | nil =>
    refine ⟨[], payloads, [], rfl, rfl, List.nil_prefix, fun p _ => ?_, rfl⟩
    rw [length_frame, List.length_nil]
    omega
  | append_singleton polls chunks ih =>
    have hflat : (polls ++ [chunks]).flatten.flatten = polls.flatten.flatten ++ chunks.flatten := by
      simp
    rw [hflat] at hstream ⊢
    obtain ⟨done, rest, tail, rfl, hbytes, htail, hnext, hrun⟩ :=
      ih (fun c hc => hreads c (List.mem_append_left _ hc))
        ((List.prefix_append _ _).trans hstream)
    rw [hbytes, List.flatMap_append, List.append_assoc, List.prefix_append_right_inj] at hstream
    obtain ⟨done', rest', tail', rfl, hbytes', htail', hnext', hpoll⟩ :=
      poll_eq rt handlers acts
        (done.foldl (told rt handlers acts) Account.start)
        (fun p hp => hlen p (List.mem_append_right _ hp))
        (hreads chunks (List.mem_append_right _ (List.mem_singleton.mpr rfl))) hstream
    refine ⟨done ++ done', rest', tail', (List.append_assoc _ _ _).symm, ?_, htail', hnext', ?_⟩
    · rw [hbytes, List.append_assoc, hbytes', List.flatMap_append, List.append_assoc]
    · rw [List.foldl_append, ← hpoll, ← hrun, run, run, List.foldl_append]
      rfl

end

end TcpClient

end Roomie.Csharp
