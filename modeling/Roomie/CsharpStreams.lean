import Roomie.CsharpPolling
import Roomie.CsharpFaults

/-!
# Streams of frames at the C# client

The decoder gets the payloads of a stream in order and once each. A malformed payload costs itself
only if decoding ends in a `ProtocolException`. Where a length wraps in it, or calls are nested too
deep, it costs the connection, and with it whatever has been received or is still to come.
-/

namespace Roomie.Csharp
open Bincode Frames

namespace TcpClient

/-! ## What is decoded -/

section
variable {rt : Runtime} {handlers : Callback → Bool} {acts : List PollEvent → Bool}

theorem decoded_append (xs ys : List PollEvent) : decoded (xs ++ ys) = decoded xs ++ decoded ys :=
  List.filterMap_append

theorem decoded_outcome (payload : Bytes) : decoded (outcome rt handlers payload) = [payload] := by
  unfold outcome
  split <;> rfl

variable (rt handlers) in
theorem decoded_outcomes (payloads : List Bytes) :
    decoded (payloads.flatMap (outcome rt handlers)) = payloads := by
  induction payloads with
  | nil => rfl
  | cons p ps ih => rw [List.flatMap_cons, decoded_append, decoded_outcome, ih]; rfl

/-- A payload that is decoded is decoded once. -/
theorem decoded_told {a : Account} (h : a.status = .connected) (payload : Bytes) :
    decoded (told rt handlers acts a payload).log = decoded a.log ++ [payload] := by
  have hend : ∀ log, decoded (log ++ [.disconnected]) = decoded log := by
    intro log
    rw [decoded_append]
    exact List.append_nil _
  have hlog : decoded (a.log ++ outcome rt handlers payload) = decoded a.log ++ [payload] := by
    rw [decoded_append, decoded_outcome]
  unfold told
  rw [if_pos h]
  dsimp only
  split
  · exact hlog
  · split_ifs
    · exact (hend _).trans hlog
    · exact hlog
  · split_ifs
    · exact (hend _).trans hlog
    · exact hlog
  · exact (hend _).trans hlog
  · exact hlog

variable (rt handlers acts) in
/-- Some of the payloads are decoded, the first ones. -/
theorem decoded_tell (payloads : List Bytes) (a : Account) :
    ∃ done, done <+: payloads ∧
      decoded (payloads.foldl (told rt handlers acts) a).log = decoded a.log ++ done := by
  induction payloads generalizing a with
  | nil => exact ⟨[], List.prefix_rfl, (List.append_nil _).symm⟩
  | cons p ps ih =>
    by_cases h : a.status = .connected
    · obtain ⟨done, hdone, hlog⟩ := ih (told rt handlers acts a p)
      refine ⟨p :: done, List.cons_prefix_cons.mpr ⟨rfl, hdone⟩, ?_⟩
      rw [List.foldl_cons, hlog, decoded_told h, List.append_assoc]
      rfl
    · refine ⟨[], List.nil_prefix, ?_⟩
      rw [tell_over h, List.append_nil]

/-- In a frame decoding fails otherwise than with a `ProtocolException` if it is not tame. -/
theorem fault_of_not_tame {payload : Bytes} (hL : payload.length ≤ maxFrameLen)
    (h : ¬ Tame rt handlers payload) :
    decodeAndDispatch rt handlers payload = .error .argumentOutOfRange ∨
      decodeAndDispatch rt handlers payload = .error .stackOverflow := by
  have hfaults := (faults_iff rt handlers hL).2
  by_contra hnone
  refine h (hfaults.mp fun f hf => ?_)
  cases f with
  | protocol message => exact ⟨message, rfl⟩
  | argumentOutOfRange => exact absurd (.inl hf) hnone
  | stackOverflow => exact absurd (.inr hf) hnone

variable (acts) in
/-- A payload that is not tame ends the connection. -/
theorem told_wild {payload : Bytes} (hL : payload.length ≤ maxFrameLen)
    (h : ¬ Tame rt handlers payload) (a : Account) :
    (told rt handlers acts a payload).status ≠ .connected := by
  by_cases hlive : a.status = .connected
  · unfold told
    rw [if_pos hlive]
    rcases fault_of_not_tame hL h with hfault | hfault
    · rw [hfault]
      exact fun hs => by cases hs
    · rw [hfault]
      exact fun hs => by cases hs
  · rwa [told_over hlive]

variable (acts) in
/-- After a tame one the client is connected still, unless a handler ends the connection. -/
theorem told_tame {payload : Bytes} (hL : payload.length ≤ maxFrameLen)
    (h : Tame rt handlers payload) (log : List PollEvent) :
    told rt handlers acts ⟨.connected, log⟩ payload =
        ⟨.connected, log ++ outcome rt handlers payload⟩ ∨
      acts (log ++ outcome rt handlers payload) = true ∧
        told rt handlers acts ⟨.connected, log⟩ payload =
          ⟨.disconnected, log ++ outcome rt handlers payload ++ [.disconnected]⟩ := by
  have hprotocol := (faults_iff rt handlers hL).2.mpr h
  unfold told
  rw [if_pos rfl]
  dsimp only
  split
  · exact .inl rfl
  · split_ifs with hacts
    · exact .inr ⟨hacts, rfl⟩
    · exact .inl rfl
  · split_ifs with hacts
    · exact .inr ⟨hacts, rfl⟩
    · exact .inl rfl
  · rename_i hfault
    obtain ⟨message, hmessage⟩ := hprotocol _ hfault
    cases hmessage
  · rename_i hfault
    obtain ⟨message, hmessage⟩ := hprotocol _ hfault
    cases hmessage

variable (acts) in
/-- Tame payloads are all decoded, unless a handler ends the connection after some of them. -/
theorem tell_tame {payloads : List Bytes} (hlen : ∀ p ∈ payloads, p.length ≤ maxFrameLen)
    (h : ∀ p ∈ payloads, Tame rt handlers p) (log : List PollEvent) :
    payloads.foldl (told rt handlers acts) ⟨.connected, log⟩ =
        ⟨.connected, log ++ payloads.flatMap (outcome rt handlers)⟩ ∨
      ∃ done, done <+: payloads ∧ acts (log ++ done.flatMap (outcome rt handlers)) = true ∧
        payloads.foldl (told rt handlers acts) ⟨.connected, log⟩ =
          ⟨.disconnected, log ++ done.flatMap (outcome rt handlers) ++ [.disconnected]⟩ := by
  induction payloads generalizing log with
  | nil => exact .inl (by rw [List.flatMap_nil, List.append_nil]; rfl)
  | cons p ps ih =>
    obtain ⟨hp, hps⟩ := List.forall_mem_cons.mp h
    obtain ⟨hpL, hpsL⟩ := List.forall_mem_cons.mp hlen
    have happend : ∀ qs : List Bytes, log ++ (p :: qs).flatMap (outcome rt handlers) =
        log ++ outcome rt handlers p ++ qs.flatMap (outcome rt handlers) := by
      intro qs
      rw [List.flatMap_cons, List.append_assoc]
    rw [List.foldl_cons]
    rcases told_tame acts hpL hp log with hgo | ⟨hacts, hstop⟩
    · rw [hgo, happend]
      rcases ih hpsL hps (log ++ outcome rt handlers p) with hall | ⟨done, hdone, hacts, hstop⟩
      · exact .inl hall
      · refine .inr ⟨p :: done, List.cons_prefix_cons.mpr ⟨rfl, hdone⟩, ?_, ?_⟩
        · rw [happend]
          exact hacts
        · rw [happend]
          exact hstop
    · refine .inr ⟨[p], List.cons_prefix_cons.mpr ⟨rfl, List.nil_prefix⟩, ?_, ?_⟩
      · rw [happend, List.flatMap_nil, List.append_nil]
        exact hacts
      · rw [hstop, happend, List.flatMap_nil, List.append_nil]
        exact tell_over (fun hs => by cases hs) ps

variable (acts) in
/-- What is not tame is the last payload that is decoded. -/
theorem tell_wild (before after : List Bytes) {payload : Bytes}
    (hL : payload.length ≤ maxFrameLen) (h : ¬ Tame rt handlers payload) (a : Account) :
    ((before ++ payload :: after).foldl (told rt handlers acts) a).status ≠ .connected ∧
      (before ++ payload :: after).foldl (told rt handlers acts) a =
        (before ++ [payload]).foldl (told rt handlers acts) a := by
  have hdown := told_wild acts hL h (before.foldl (told rt handlers acts) a)
  rw [List.foldl_append, List.foldl_append, List.foldl_cons, List.foldl_cons, tell_over hdown]
  exact ⟨hdown, rfl⟩

/-- The whole stream leaves nothing behind. -/
theorem stream_done {done rest : List Bytes} {tail : Bytes}
    (h : (done ++ rest).flatMap frame = done.flatMap frame ++ tail)
    (hnext : ∀ p ∈ rest.head?, tail.length < (frame p).length) : rest = [] ∧ tail = [] := by
  rw [List.flatMap_append, List.append_cancel_left_eq] at h
  cases rest with
  | nil => exact ⟨rfl, h.symm⟩
  | cons p rest =>
    have hlt := hnext p rfl
    rw [← h, List.flatMap_cons, List.length_append] at hlt
    omega

variable (rt handlers acts) in
theorem run_whole {payloads : List Bytes} {polls : List (List Bytes)}
    (hlen : ∀ p ∈ payloads, p.length ≤ maxFrameLen)
    (hreads : ∀ chunks ∈ polls, ∀ chunk ∈ chunks, chunk ≠ [])
    (hstream : polls.flatten.flatten = payloads.flatMap frame) :
    run rt handlers acts polls =
      (payloads.foldl (told rt handlers acts) Account.start).client [] := by
  obtain ⟨done, rest, tail, rfl, hbytes, -, hnext, hrun⟩ :=
    run_eq hlen hreads (hstream ▸ List.prefix_rfl)
  rw [hstream] at hbytes
  obtain ⟨rfl, rfl⟩ := stream_done hbytes hnext
  rw [List.append_nil]
  exact hrun

end

/-! ## Streams of frames -/

/-- No handler calls `Disconnect`. -/
def idle : List PollEvent → Bool := fun _ => false

/-- The payloads whose last byte has arrived have been decoded, in order and once each, and what has
arrived of the next frame is in the buffer. -/
structure Reassembled (payloads : List Bytes) (arrived : Bytes) (c : TcpClient) : Prop where
  inOrder : decoded c.log <+: payloads
  whole : arrived = (decoded c.log).flatMap frame ++ c.recvBuf
  unfinished : ∀ p, decoded c.log ++ [p] <+: payloads → c.recvBuf.length < (frame p).length

section
variable {rt : Runtime} {handlers : Callback → Bool} {payloads : List Bytes}
  {polls : List (List Bytes)}

/-- Once the whole stream has arrived all of it has been decoded. -/
theorem Reassembled.all {c : TcpClient} (h : Reassembled payloads (payloads.flatMap frame) c) :
    decoded c.log = payloads := by
  obtain ⟨rest, hrest⟩ := h.inOrder
  have hnext : ∀ p ∈ rest.head?, c.recvBuf.length < (frame p).length := by
    intro p hp
    refine h.unfinished p ?_
    obtain ⟨rest, rfl⟩ := List.head?_eq_some_iff.mp hp
    rw [← hrest]
    exact (List.prefix_append_right_inj _).mpr (List.prefix_append [p] rest)
  have hwhole := h.whole
  rw [← hrest] at hwhole
  obtain ⟨rfl, -⟩ := stream_done hwhole hnext
  rwa [List.append_nil] at hrest

/-- Payloads that are tame, except for the very last one perhaps. -/
theorem Reassembled.of_tame {done rest : List Bytes} {tail : Bytes}
    (hlen : ∀ p ∈ done, p.length ≤ maxFrameLen)
    (htame : ∀ p ∈ (done ++ rest).dropLast, Tame rt handlers p)
    (htail : tail <+: rest.flatMap frame)
    (hnext : ∀ p ∈ rest.head?, tail.length < (frame p).length) :
    Reassembled (done ++ rest) (done.flatMap frame ++ tail)
      ((done.foldl (told rt handlers idle) Account.start).client tail) := by
  have hunfinished : ∀ p, done ++ [p] <+: done ++ rest → tail.length < (frame p).length := by
    intro p hp
    rw [List.prefix_append_right_inj] at hp
    obtain ⟨more, rfl⟩ := hp
    exact hnext p rfl
  by_cases hall : ∀ p ∈ done, Tame rt handlers p
  · rcases tell_tame idle hlen hall [] with hgo | ⟨_, _, hacts, -⟩
    · have hclient : (done.foldl (told rt handlers idle) Account.start).client tail =
          ⟨.connected, tail, done.flatMap (outcome rt handlers)⟩ := by
        rw [Account.start, hgo]
        rfl
      have hdecoded := decoded_outcomes rt handlers done
      rw [hclient]
      refine ⟨?_, ?_, ?_⟩
      · rw [hdecoded]
        exact List.prefix_append _ _
      · rw [hdecoded]
      · rw [hdecoded]
        exact hunfinished
    · cases hacts
  · -- the wild payload is the last one of all
    push Not at hall
    obtain ⟨p, hp, hwild⟩ := hall
    obtain ⟨before, after, rfl⟩ := List.append_of_mem hp
    have hlast : after ++ rest = [] := by
      by_contra hmore
      refine hwild (htame p ?_)
      rw [List.append_assoc, List.cons_append, List.dropLast_append_of_ne_nil (List.cons_ne_nil _ _),
        List.dropLast_cons_of_ne_nil hmore]
      exact List.mem_append_right _ List.mem_cons_self
    obtain ⟨rfl, rfl⟩ := List.append_eq_nil_iff.mp hlast
    obtain rfl : tail = [] := List.prefix_nil.mp htail
    rw [List.append_nil, List.dropLast_concat] at htame
    obtain ⟨hbefore, hpL⟩ := List.forall_mem_append.mp hlen
    have hdown := tell_wild idle before []
      (hpL p (List.mem_singleton.mpr rfl)) hwild Account.start
    rcases tell_tame idle hbefore htame [] with hgo | ⟨_, _, hacts, -⟩
    · have hdecoded : decoded ((before ++ [p]).foldl (told rt handlers idle) Account.start).log =
          before ++ [p] := by
        rw [List.foldl_append, Account.start, hgo, List.foldl_cons, List.foldl_nil,
          decoded_told rfl, List.nil_append, decoded_outcomes]
      rw [client_over hdown.1]
      refine ⟨?_, ?_, ?_⟩
      · rw [hdecoded, List.append_nil]
      · rw [hdecoded]
      · rw [hdecoded]
        exact hunfinished
    · cases hacts

section
variable (rt handlers)

/-- However a stream of frames is cut into reads, the decoder gets its payloads in order and once
each, and whatever the handlers do it gets no others. It gets each of them when the last byte has
arrived, and the buffer holds the rest, exactly if no payload but the last ends the connection by a
length that wraps or by calls that are nested too deep. -/
theorem stream_reassembled (hsound : ∀ p ∈ payloads, Sound maxFrameLen p)
    (hreads : ∀ chunks ∈ polls, ∀ chunk ∈ chunks, chunk ≠ [])
    (hstream : polls.flatten.flatten = payloads.flatMap frame) :
    (∀ acts now, now <+: polls →
      decoded (run rt handlers acts now).log <+: payloads) ∧
    ((∀ now, now <+: polls →
        Reassembled payloads now.flatten.flatten (run rt handlers idle now)) ↔
      ∀ p ∈ payloads.dropLast, Tame rt handlers p) := by
  have hlen : ∀ p ∈ payloads, p.length ≤ maxFrameLen := fun p hp => (hsound p hp).2
  have hnow : ∀ acts now, now <+: polls → ∃ done rest tail, payloads = done ++ rest ∧
      now.flatten.flatten = done.flatMap frame ++ tail ∧ tail <+: rest.flatMap frame ∧
      (∀ p ∈ rest.head?, tail.length < (frame p).length) ∧
      run rt handlers acts now = (done.foldl (told rt handlers acts) Account.start).client tail := by
    rintro acts now ⟨later, rfl⟩
    refine run_eq hlen (fun chunks hc => hreads chunks (List.mem_append_left _ hc)) ?_
    rw [← hstream, List.flatten_append, List.flatten_append]
    exact List.prefix_append _ _
  refine ⟨fun acts now hpre => ?_, fun h p hp => ?_, fun htame now hpre => ?_⟩
  · obtain ⟨done, rest, tail, rfl, -, -, -, hrun⟩ := hnow acts now hpre
    obtain ⟨first, hfirst, hlog⟩ := decoded_tell rt handlers acts done Account.start
    rw [hrun, show ((done.foldl (told rt handlers acts) Account.start).client tail).log =
      (done.foldl (told rt handlers acts) Account.start).log from rfl, hlog]
    exact hfirst.trans (List.prefix_append _ _)
  · -- the last call of `Poll` finds all payloads decoded, so none but the last was wild
    have hall := h polls List.prefix_rfl
    rw [hstream] at hall
    by_contra hwild
    obtain ⟨done, rest, tail, rfl, hbytes, -, hnext, hrun⟩ := hnow idle polls List.prefix_rfl
    rw [hstream] at hbytes
    obtain ⟨rfl, rfl⟩ := stream_done hbytes hnext
    rw [List.append_nil] at hall hp hlen
    obtain ⟨before, after, hsplit⟩ := List.append_of_mem hp
    have hne : done ≠ [] := by
      rintro rfl
      cases hp
    have hdone : done = before ++ p :: (after ++ [done.getLast hne]) := by
      rw [← List.cons_append, ← List.append_assoc, ← hsplit, List.dropLast_append_getLast hne]
    have hstops := (tell_wild idle before
      (after ++ [done.getLast hne]) (hlen p (List.dropLast_subset _ hp)) hwild
      Account.start).2
    rw [← hdone] at hstops
    obtain ⟨first, hfirst, hlog⟩ := decoded_tell rt handlers idle
      (before ++ [p]) Account.start
    have hdecoded : decoded (run rt handlers idle polls).log = first := by
      rw [hrun, hstops]
      exact hlog
    have hfew := hfirst.length_le
    rw [← hdecoded, hall.all, hdone] at hfew
    simp only [List.length_append, List.length_cons, List.length_nil] at hfew
    omega
  · obtain ⟨done, rest, tail, rfl, hbytes, htail, hnext, hrun⟩ := hnow idle now hpre
    rw [hbytes, hrun]
    exact .of_tame (fun p hp => hlen p (List.mem_append_left _ hp)) htame htail hnext

/-- In a payload all accesses are to its bytes, and no exception but a `ProtocolException` is thrown
exactly if the payload is tame. In a stream each payload has its own outcome, whatever stands before
it, and the connection is kept, exactly if all are tame; and then only a handler can end it. -/
theorem malformed_cost_themselves :
    (∀ payload : Bytes, payload.length ≤ maxFrameLen →
      (Traced.dispatch rt handlers payload 0).2 = decodeAndDispatch rt handlers payload ∧
      (((∀ f, decodeAndDispatch rt handlers payload = .error f → f.IsProtocol) ∧
          ∀ e ∈ (Traced.dispatch rt handlers payload 0).1, Traced.Inside payload.length e) ↔
        Tame rt handlers payload)) ∧
    ∀ (payloads : List Bytes) (polls : List (List Bytes)),
      (∀ p ∈ payloads, p.length ≤ maxFrameLen) →
      (∀ chunks ∈ polls, ∀ chunk ∈ chunks, chunk ≠ []) →
      polls.flatten.flatten = payloads.flatMap frame →
      (((run rt handlers idle polls).status = .connected ∧
          (run rt handlers idle polls).log = payloads.flatMap (outcome rt handlers)) ↔
        ∀ p ∈ payloads, Tame rt handlers p) ∧
      ((∀ p ∈ payloads, Tame rt handlers p) → ∀ acts,
        ((run rt handlers acts polls).status = .connected ∧
          (run rt handlers acts polls).log = payloads.flatMap (outcome rt handlers)) ∨
        ∃ done, done <+: payloads ∧ acts (done.flatMap (outcome rt handlers)) = true ∧
          (run rt handlers acts polls).log =
            done.flatMap (outcome rt handlers) ++ [.disconnected]) := by
  constructor
  · intro payload hL
    obtain ⟨hinside, htame⟩ := faults_iff rt handlers hL
    refine ⟨Traced.untraced_dispatch rt handlers payload, ?_⟩
    rw [← htame]
    exact ⟨And.left, fun h => ⟨h, hinside⟩⟩
  · intro payloads polls hlen hreads hstream
    have hrun := fun acts => run_whole rt handlers acts hlen hreads hstream
    have hall : (∀ p ∈ payloads, Tame rt handlers p) → ∀ acts,
        ((run rt handlers acts polls).status = .connected ∧
          (run rt handlers acts polls).log = payloads.flatMap (outcome rt handlers)) ∨
        ∃ done, done <+: payloads ∧ acts (done.flatMap (outcome rt handlers)) = true ∧
          (run rt handlers acts polls).log =
            done.flatMap (outcome rt handlers) ++ [.disconnected] := by
      intro htame acts
      rw [hrun]
      rcases tell_tame acts hlen htame [] with hgo | ⟨done, hdone, hacts, hstop⟩
      · rw [Account.start, hgo]
        exact .inl ⟨rfl, rfl⟩
      · rw [Account.start, hstop]
        exact .inr ⟨done, hdone, hacts, rfl⟩
    refine ⟨⟨fun ⟨hlive, _⟩ p hp => ?_, fun htame => ?_⟩, hall⟩
    · by_contra hwild
      obtain ⟨before, after, rfl⟩ := List.append_of_mem hp
      rw [hrun] at hlive
      exact (tell_wild idle before after (hlen p hp) hwild Account.start).1 hlive
    · rcases hall htame idle with hgo | ⟨_, _, hacts, -⟩
      · exact hgo
      · cases hacts

end

end

/-- A message that is cut short, and a pong. -/
def cutAndPong : List Bytes := [[3], [9]]

theorem cutAndPong_tame : ∀ p ∈ cutAndPong, Tame ⟨64, fun _ => ""⟩ (fun _ => true) p := by
  unfold Tame
  decide +kernel

/-- Both come in one read. -/
theorem cut_reported_pong_called :
    (run ⟨64, fun _ => ""⟩ (fun _ => true) idle [[cutAndPong.flatMap frame]]).status = .connected ∧
      (run ⟨64, fun _ => ""⟩ (fun _ => true) idle [[cutAndPong.flatMap frame]]).log =
        [.decoding [3], .reported "Decode error: Unexpected end of data reading varint",
          .decoding [9], .called .pong] := by
  have hlen : ∀ p ∈ cutAndPong, p.length ≤ maxFrameLen := by decide
  have hreads : ∀ chunks ∈ [[cutAndPong.flatMap frame]], ∀ chunk ∈ chunks, chunk ≠ [] := by
    decide +kernel
  exact ((malformed_cost_themselves ⟨64, fun _ => ""⟩ (fun _ => true)).2 cutAndPong
    [[cutAndPong.flatMap frame]] hlen hreads rfl).1.mpr cutAndPong_tame

/-- The second header is cut by the reads. -/
theorem split_header_reassembled :
    Reassembled cutAndPong (cutAndPong.flatMap frame)
      (run ⟨64, fun _ => ""⟩ (fun _ => true) idle [[[1, 0, 0], [0, 3, 1]], [[0, 0, 0, 9]]]) := by
  have hsound : ∀ p ∈ cutAndPong, Sound maxFrameLen p := by
    unfold Sound
    decide
  have hreads : ∀ chunks ∈ ([[[1, 0, 0], [0, 3, 1]], [[0, 0, 0, 9]]] : List (List Bytes)),
      ∀ chunk ∈ chunks, chunk ≠ [] := by decide
  have hall := stream_reassembled ⟨64, fun _ => ""⟩ (fun _ => true) hsound hreads rfl
  exact hall.2.mpr (fun p hp => cutAndPong_tame p (List.dropLast_subset _ hp)) _ List.prefix_rfl

/-! ## A settings message and a pong -/

/-- Changed settings with a custom value of three numbers, of which the first is read as the length
of a string. -/
def wildSettings : Bytes := serverMessageFormat.write (.roomEvent (.settingsChanged
  ⟨0, 0, false, none, false, some (.array
    [.number (.posInt 2147483647), .number (.posInt 0), .number (.posInt 0)])⟩))

/-- It ends in an exception that is no `ProtocolException`. -/
theorem wildSettings_cost_more : ¬ ∀ (rt : Runtime) (handlers : Callback → Bool) (payload : Bytes),
    payload.length ≤ maxFrameLen →
      ∀ f, decodeAndDispatch rt handlers payload = .error f → f.IsProtocol := by
  intro h
  have hfault : decodeAndDispatch ⟨64, fun _ => ""⟩ (fun _ => true) wildSettings =
      .error .argumentOutOfRange := by rfl
  obtain ⟨message, hmessage⟩ := h _ _ wildSettings (by decide) _ hfault
  cases hmessage

/-- The pong behind it is lost. -/
theorem pong_lost : ¬ ∀ (rt : Runtime) (handlers : Callback → Bool) (payloads : List Bytes)
    (polls : List (List Bytes)), (∀ p ∈ payloads, Sound maxFrameLen p) →
      (∀ chunks ∈ polls, ∀ chunk ∈ chunks, chunk ≠ []) →
      polls.flatten.flatten = payloads.flatMap frame →
      ∀ now, now <+: polls →
        Reassembled payloads now.flatten.flatten (run rt handlers idle now) := by
  intro h
  have hsound : ∀ p ∈ [wildSettings, [9]], Sound maxFrameLen p := by
    unfold Sound
    decide
  have hreads : ∀ chunks ∈ [[frame wildSettings], [frame [9]]], ∀ chunk ∈ chunks, chunk ≠ [] := by
    decide +kernel
  have hall := (h ⟨64, fun _ => ""⟩ (fun _ => true) _ _ hsound hreads rfl _ List.prefix_rfl).all
  rw [run_whole ⟨64, fun _ => ""⟩ (fun _ => true) idle (fun p hp => (hsound p hp).2) hreads rfl]
    at hall
  have hone : decoded (([wildSettings, [9]].foldl (told ⟨64, fun _ => ""⟩ (fun _ => true) idle)
      Account.start).client []).log = [wildSettings] := by rfl
  rw [hone] at hall
  exact absurd hall (by decide)

end TcpClient

end Roomie.Csharp
