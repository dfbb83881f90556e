import Roomie.ClientSessions
import Roomie.CppPolling

/-!
# Streams of messages at the C++ client

Calls of `poll` follow one another while the socket answers in any pieces. A poll may end with a
frame in the socket still, but what was received is never lost: when all bytes of a stream have been
received and the poll has ended, all messages were dispatched, once each and in order, and the
session is what they make of it.
-/

namespace Roomie
open Bincode Frames

/-- The bytes that the writer of a connection sends for these messages. -/
def wire (ms : List ServerMessage) : Bytes := (ms.filterMap ServerMessage.encode).flatMap frame

theorem wire_append (ms ms' : List ServerMessage) : wire (ms ++ ms') = wire ms ++ wire ms' := by
  rw [wire, List.filterMap_append, List.flatMap_append]
  rfl

theorem wire_cons {m : ServerMessage} {payload : Bytes} (hencode : m.encode = some payload)
    (ms : List ServerMessage) : wire (m :: ms) = frame payload ++ wire ms := by
  rw [wire, List.filterMap_cons_some hencode]
  rfl

end Roomie

namespace Roomie.Cpp
open Bincode Cursors Frames ClientSessions

section
variable (cbs : Callback → Bool) (depth : ℕ)

/-- The loop of `poll` on a socket that answers like this, with quiet callbacks, and the answers
that are left. -/
def Client.pollOn : List Recv → Client → (Outcome × List Event) × List Recv
  | [], c => ((.again c, []), [])
  | recv :: answers, c =>
    match c.tryRecvFrame cbs depth (quiet recv) with
    | (.again c', events) =>
      (((pollOn answers c').1.1, events ++ (pollOn answers c').1.2), (pollOn answers c').2)
    | (ended, events) => ((ended, events), answers)

/-- Calls of `poll`, each of which the socket answers like this and ends after the last answer. -/
def Client.polls : List (List Recv) → Client → Option (Client × List Event)
  | [], c => some (c, [])
  | answers :: later, c =>
    match c.pollOn cbs depth answers with
    | ((.idle c', events), []) =>
      (polls later c').map fun rest => (rest.1, events ++ rest.2)
    | _ => none

/-- It is the loop of `poll`. -/
theorem pollOn_eq (answers : List Recv) (c : Client) :
    (c.pollOn cbs depth answers).1 = c.pollLoop cbs depth (answers.map quiet) := by
  induction answers generalizing c with
  | nil => rfl
  | cons recv answers ih =>
    rw [Client.pollOn, List.map_cons, Client.pollLoop]
    cases hturn : c.tryRecvFrame cbs depth (quiet recv) with
    | mk outcome events =>
      cases outcome with
      | again c' =>
        dsimp only
        rw [ih]
      | _ => rfl

/-- The calls of callbacks. -/
def calledIn (events : List Event) : List Call :=
  events.filterMap fun | .called call => some call | _ => none

theorem calledIn_append (xs ys : List Event) : calledIn (xs ++ ys) = calledIn xs ++ calledIn ys :=
  List.filterMap_append

/-- These bytes of a stream have been received: some messages were dispatched and told, and what
comes next is in the buffer. -/
structure Caught (received : Bytes) (c : Client) (events : List Event) (heard : List ServerMessage) :
    Prop where
  sock : c.sock = true
  received : received = wire heard ++ c.recvBuf
  session : c.session = heard.foldl (fun su m => su.after (callOf m)) ⟨[], 0, 0⟩
  called : calledIn events = heard.filterMap (tellingOf cbs)

variable {cbs depth} {received chunk : Bytes} {c : Client} {events : List Event}
  {heard later : List ServerMessage}

theorem calledIn_toList (call : Option Call) : calledIn (call.toList.map .called) = call.toList := by
  cases call <;> rfl

/-- Where a whole frame is in the buffer its message is dispatched and told. -/
theorem Caught.takeFrame (h : Caught cbs received c events heard) {m : ServerMessage}
    (hsend : m.Sendable) {payload rest : Bytes} (hencode : m.encode = some payload)
    (hbuf : c.recvBuf = frame payload ++ rest) (recv : Recv) : ∃ c' es,
    c.takeFrame cbs depth (quiet recv) = (.again c', es) ∧
      Caught cbs received c' (events ++ es) (heard ++ [m]) := by
  have hlimit : payload.length ≤ maxFrameLen := (m.encode_eq hencode).1 ▸ (m.encode_eq hencode).2
  have hhead : head maxFrameLen c.recvBuf = .frame payload rest := by
    rw [hbuf]
    exact head_frame maxFrameLen_lt hlimit rest
  obtain ⟨pos, hdecode⟩ := decode_message cbs depth hencode hsend.2 c.session
  have hlen : ¬ c.recvBuf.length < 4 + payload.length := by
    rw [hbuf, List.length_append, length_frame]
    omega
  have hdrop : c.recvBuf.drop (4 + payload.length) = rest := by
    rw [hbuf]
    exact List.drop_left' (length_frame payload)
  refine ⟨{ c with session := c.session.after (callOf m), recvBuf := rest },
    .dispatched payload :: ((tellingOf cbs m).toList.map .called ++
      [.erasing (c.recvBuf.take (4 + payload.length)) c.recvBuf]), ?_, h.sock, ?_, ?_, ?_⟩
  · unfold Client.takeFrame
    simp only [hhead, hdecode, quiet, runCall_quiet, if_neg hlen, hdrop]
  · have hone : wire [m] = frame payload := (wire_cons hencode []).trans (List.append_nil _)
    rw [h.received, hbuf, wire_append, hone, List.append_assoc]
  · rw [List.foldl_append, ← h.session]
    rfl
  · have hes : calledIn (.dispatched payload :: ((tellingOf cbs m).toList.map .called ++
        [.erasing (c.recvBuf.take (4 + payload.length)) c.recvBuf])) = (tellingOf cbs m).toList := by
      change calledIn (_ ++ _) = _
      rw [calledIn_append, calledIn_toList]
      exact List.append_nil _
    rw [calledIn_append, h.called, hes, List.filterMap_append]
    cases htell : tellingOf cbs m <;> simp [htell]

variable (depth) in
/-- One turn of the loop. It ends the loop where no whole frame is left, which after all bytes of the
stream means that all messages were heard. -/
theorem Caught.turn (h : Caught cbs received c events heard) (hsend : ∀ m ∈ later, m.Sendable)
    (recv : Recv) (hrecv : recv.bytes = some chunk)
    (hstream : received ++ chunk <+: wire (heard ++ later)) :
    (∃ c', c.tryRecvFrame cbs depth (quiet recv) = (.idle c', []) ∧
      Caught cbs (received ++ chunk) c' events heard ∧
        (received ++ chunk = wire (heard ++ later) → later = [])) ∨
    ∃ c' es m later', c.tryRecvFrame cbs depth (quiet recv) = (.again c', es) ∧ later = m :: later' ∧
      Caught cbs (received ++ chunk) c' (events ++ es) (heard ++ [m]) := by
  have hbuf : c.recvBuf ++ chunk <+: wire later := by
    rw [h.received, List.append_assoc, wire_append] at hstream
    exact (List.prefix_append_right_inj _).mp hstream
  have hfilled : Caught cbs (received ++ chunk) { c with recvBuf := c.recvBuf ++ chunk } events
      heard := by
    refine ⟨h.sock, ?_, h.session, h.called⟩
    rw [h.received, List.append_assoc]
  rw [tryRecvFrame_bytes cbs depth h.sock (quiet recv) hrecv]
  cases later with
  | nil =>
    have hempty : c.recvBuf ++ chunk = [] := List.prefix_nil.mp hbuf
    refine .inl ⟨_, takeFrame_incomplete cbs depth (quiet recv) ?_, hfilled, fun _ => rfl⟩
    rw [hempty]
    rfl
  | cons m later =>
    obtain ⟨hm, hlater⟩ := List.forall_mem_cons.mp hsend
    obtain ⟨payload, hencode⟩ := Option.ne_none_iff_exists'.mp hm.1
    have hlimit : payload.length ≤ maxFrameLen := (m.encode_eq hencode).1 ▸ (m.encode_eq hencode).2
    have hfirst := wire_cons hencode later
    rw [hfirst] at hbuf
    by_cases hwhole : (frame payload).length ≤ (c.recvBuf ++ chunk).length
    · obtain ⟨rest, hrest⟩ := List.prefix_of_prefix_length_le (List.prefix_append _ _) hbuf hwhole
      obtain ⟨c', es, htake, hcaught⟩ := hfilled.takeFrame hm hencode hrest.symm recv
      exact .inr ⟨c', es, m, later, htake, rfl, hcaught⟩
    · have hprefix : c.recvBuf ++ chunk <+: frame payload :=
        List.prefix_of_prefix_length_le hbuf (List.prefix_append _ _) (Nat.le_of_not_le hwhole)
      have hhead : head maxFrameLen (c.recvBuf ++ chunk) = .incomplete := by
        refine head_prefix maxFrameLen_lt hlimit hprefix ?_
        intro heq
        exact hwhole (heq ▸ Nat.le_refl _)
      refine .inl ⟨_, takeFrame_incomplete cbs depth (quiet recv) hhead, hfilled, ?_⟩
      intro hall
      rw [h.received, List.append_assoc, wire_append, List.append_cancel_left_eq, hfirst] at hall
      exact absurd (hall ▸ by rw [List.length_append]; omega) hwhole

/-- The bytes that these answers bring. -/
def bytesOf (answers : List Recv) : Bytes := (answers.filterMap Recv.bytes).flatten

/-- The answers bring bytes, or say that there are none. -/
def Flowing (answers : List Recv) : Prop := ∀ recv ∈ answers, recv.bytes ≠ none

/-- One call of `poll` that ends with these answers. -/
theorem Caught.poll {answers : List Recv} (h : Caught cbs received c events heard)
    (hsend : ∀ m ∈ later, m.Sendable) (hflow : Flowing answers)
    (hstream : received ++ bytesOf answers <+: wire (heard ++ later)) {c' : Client}
    {es : List Event} (hpoll : c.pollOn cbs depth answers = ((.idle c', es), [])) :
    ∃ more rest, later = more ++ rest ∧
      Caught cbs (received ++ bytesOf answers) c' (events ++ es) (heard ++ more) ∧
        (received ++ bytesOf answers = wire (heard ++ later) → rest = []) := by
  induction answers generalizing received c events heard later es with
  | nil => cases hpoll
  | cons recv answers ih =>
    obtain ⟨hrecv, hflow⟩ := List.forall_mem_cons.mp hflow
    obtain ⟨chunk, hchunk⟩ := Option.ne_none_iff_exists'.mp hrecv
    have hbytes : bytesOf (recv :: answers) = chunk ++ bytesOf answers := by
      rw [bytesOf, List.filterMap_cons_some hchunk]
      rfl
    rw [hbytes, ← List.append_assoc] at hstream ⊢
    rw [Client.pollOn] at hpoll
    obtain ⟨d, hturn, hcaught, hall⟩ | ⟨d, es', m, later', hturn, rfl, hcaught⟩ :=
      h.turn depth hsend recv hchunk ((List.prefix_append _ _).trans hstream)
    · rw [hturn] at hpoll
      obtain ⟨houtcome, rfl⟩ := Prod.mk.inj hpoll
      obtain ⟨hidle, rfl⟩ := Prod.mk.inj houtcome
      obtain rfl := Outcome.idle.inj hidle
      have hnone : bytesOf [] = [] := rfl
      rw [hnone, List.append_nil, List.append_nil]
      exact ⟨[], later, rfl, by rwa [List.append_nil], hall⟩
    · rw [hturn] at hpoll
      obtain ⟨houtcome, hleft⟩ := Prod.mk.inj hpoll
      obtain ⟨hidle, rfl⟩ := Prod.mk.inj houtcome
      have hrest : d.pollOn cbs depth answers = ((.idle c', (d.pollOn cbs depth answers).1.2), []) :=
        Prod.ext (Prod.ext hidle rfl) hleft
      have hcons : heard ++ m :: later' = heard ++ [m] ++ later' := by
        rw [List.append_assoc]
        rfl
      rw [hcons] at hstream ⊢
      obtain ⟨more, rest, rfl, hcaught', hall⟩ :=
        ih hcaught (fun m hm => hsend m (List.mem_cons_of_mem _ hm)) hflow hstream hrest
      refine ⟨m :: more, rest, rfl, ?_, hall⟩
      have hmore : heard ++ m :: more = heard ++ [m] ++ more := by
        rw [List.append_assoc]
        rfl
      rw [hmore, ← List.append_assoc events]
      exact hcaught'

/-- Calls of `poll` one after another. -/
theorem Caught.polls {polls : List (List Recv)} (h : Caught cbs received c events heard)
    (hsend : ∀ m ∈ later, m.Sendable) (hflow : ∀ answers ∈ polls, Flowing answers)
    (hstream : received ++ bytesOf polls.flatten <+: wire (heard ++ later)) {c' : Client}
    {es : List Event} (hpolls : c.polls cbs depth polls = some (c', es)) :
    ∃ more rest, later = more ++ rest ∧
      Caught cbs (received ++ bytesOf polls.flatten) c' (events ++ es) (heard ++ more) ∧
        (polls ≠ [] → received ++ bytesOf polls.flatten = wire (heard ++ later) → rest = []) := by
  induction polls generalizing received c events heard later es with
  | nil =>
    obtain ⟨rfl, rfl⟩ := Prod.mk.inj (Option.some.inj hpolls)
    have hnone : bytesOf ([] : List (List Recv)).flatten = [] := rfl
    rw [hnone, List.append_nil, List.append_nil]
    exact ⟨[], later, rfl, by rwa [List.append_nil], fun hne => absurd rfl hne⟩
  | cons answers polls ih =>
    obtain ⟨hflow, hflows⟩ := List.forall_mem_cons.mp hflow
    have hbytes : bytesOf (answers :: polls).flatten = bytesOf answers ++ bytesOf polls.flatten := by
      rw [bytesOf, List.flatten_cons, List.filterMap_append, List.flatten_append]
      rfl
    rw [hbytes, ← List.append_assoc] at hstream ⊢
    rw [Client.polls] at hpolls
    obtain ⟨d, es₁, es₂, hpoll, hrest, rfl⟩ : ∃ d es₁ es₂,
        c.pollOn cbs depth answers = ((.idle d, es₁), []) ∧
          d.polls cbs depth polls = some (c', es₂) ∧ es = es₁ ++ es₂ := by
      split at hpolls
      · rename_i d es₁ hpoll
        obtain ⟨⟨c₂, es₂⟩, hrest, hsame⟩ := Option.map_eq_some_iff.mp hpolls
        obtain ⟨rfl, rfl⟩ := Prod.mk.inj hsame
        exact ⟨d, es₁, es₂, hpoll, hrest, rfl⟩
      · cases hpolls
    obtain ⟨more, rest, rfl, hcaught, hall⟩ :=
      h.poll hsend hflow ((List.prefix_append _ _).trans hstream) hpoll
    rw [← List.append_assoc] at hstream
    obtain ⟨more', rest', rfl, hcaught', hall'⟩ :=
      ih hcaught (fun m hm => hsend m (List.mem_append_right _ hm)) hflows hstream hrest
    refine ⟨more ++ more', rest', (List.append_assoc ..).symm, ?_, fun _ hend => ?_⟩
    · rw [← List.append_assoc events, ← List.append_assoc heard]
      exact hcaught'
    · cases polls with
      | nil =>
        have hnone : bytesOf ([] : List (List Recv)).flatten = [] := rfl
        rw [hnone, List.append_nil] at hend
        exact (List.append_eq_nil_iff.mp (hall hend)).2
      | cons => exact hall' (List.cons_ne_nil _ _) (by rw [List.append_assoc heard]; exact hend)

/-- From a fresh client on: some of the messages have been heard, and all of them once all bytes have
been received. -/
theorem polls_heard {ms : List ServerMessage} (hsend : ∀ m ∈ ms, m.Sendable)
    {polls : List (List Recv)} (hflow : ∀ answers ∈ polls, Flowing answers)
    (hstream : bytesOf polls.flatten <+: wire ms)
    (hpolls : fresh.polls cbs depth polls = some (c, events)) :
    ∃ heard, heard <+: ms ∧ Caught cbs (bytesOf polls.flatten) c events heard ∧
      (bytesOf polls.flatten = wire ms → heard = ms) := by
  have hstart : Caught cbs [] fresh [] [] := ⟨rfl, rfl, rfl, rfl⟩
  obtain ⟨heard, rest, rfl, hcaught, hall⟩ := hstart.polls hsend hflow hstream hpolls
  refine ⟨heard, List.prefix_append _ _, hcaught, fun hend => ?_⟩
  have hrest : rest = [] := by
    cases polls with
    | cons => exact hall (List.cons_ne_nil _ _) hend
    | nil =>
      cases rest with
      | nil => rfl
      | cons m rest =>
        obtain ⟨payload, hencode⟩ :=
          Option.ne_none_iff_exists'.mp (hsend m (List.mem_append_right _ List.mem_cons_self)).1
        rw [wire_append, wire_cons hencode] at hend
        have hlen := congrArg List.length hend
        rw [List.length_append, List.length_append, length_frame] at hlen
        change 0 = _ at hlen
        omega
  rw [hrest, List.append_nil]

/-! ## A socket that goes on answering -/

/-- The first answers of a socket. -/
def firsts (socket : ℕ → Recv) (n : ℕ) : List Recv := (List.range n).map socket

theorem firsts_add (socket : ℕ → Recv) (k n : ℕ) :
    firsts socket (k + n) = firsts socket k ++ firsts (fun i => socket (k + i)) n := by
  rw [firsts, List.range_add, List.map_append, List.map_map]
  rfl

theorem bytesOf_append (xs ys : List Recv) : bytesOf (xs ++ ys) = bytesOf xs ++ bytesOf ys := by
  rw [bytesOf, List.filterMap_append, List.flatten_append]
  rfl

theorem firsts_one_add (socket : ℕ → Recv) (n : ℕ) :
    firsts socket (1 + n) = socket 0 :: firsts (fun i => socket (1 + i)) n :=
  firsts_add socket 1 n

theorem bytesOf_singleton {recv : Recv} (h : recv.bytes = some chunk) : bytesOf [recv] = chunk := by
  rw [bytesOf, List.filterMap_cons_some h]
  exact List.append_nil chunk

section
variable {socket : ℕ → Recv} (hflow : ∀ n, (socket n).bytes ≠ none)
include hflow

theorem flowing_firsts (n : ℕ) : Flowing (firsts socket n) := by
  intro recv hrecv
  obtain ⟨i, -, rfl⟩ := List.mem_map.mp hrecv
  exact hflow i

variable (depth) in
/-- A call of `poll` ends: each turn that does not end it has heard a message. -/
theorem Caught.ends (h : Caught cbs received c events heard) (hsend : ∀ m ∈ later, m.Sendable)
    (hstream : ∀ n, received ++ bytesOf (firsts socket n) <+: wire (heard ++ later)) : ∃ n c' es,
    c.pollOn cbs depth (firsts socket (1 + n)) = ((.idle c', es), []) := by
  induction later generalizing received c events heard socket with
  | nil =>
    obtain ⟨chunk, hchunk⟩ := Option.ne_none_iff_exists'.mp (hflow 0)
    obtain ⟨c', hturn, -⟩ | ⟨c', es, m, later', -, hcons, -⟩ :=
      h.turn depth hsend (socket 0) hchunk (bytesOf_singleton hchunk ▸ hstream 1)
    · refine ⟨0, c', [], ?_⟩
      rw [firsts_one_add, Client.pollOn, hturn]
      rfl
    · cases hcons
  | cons m later ih =>
    obtain ⟨chunk, hchunk⟩ := Option.ne_none_iff_exists'.mp (hflow 0)
    obtain ⟨c', hturn, -⟩ | ⟨c', es, m', later', hturn, hcons, hcaught⟩ :=
      h.turn depth hsend (socket 0) hchunk (bytesOf_singleton hchunk ▸ hstream 1)
    · refine ⟨0, c', [], ?_⟩
      rw [firsts_one_add, Client.pollOn, hturn]
      rfl
    · obtain ⟨rfl, rfl⟩ := List.cons.inj hcons
      have hrest : ∀ n, received ++ chunk ++ bytesOf (firsts (fun i => socket (1 + i)) n) <+:
          wire (heard ++ [m] ++ later) := by
        intro n
        have hmore := hstream (1 + n)
        rw [firsts_add, bytesOf_append, ← List.append_assoc] at hmore
        rw [List.append_assoc heard, ← bytesOf_singleton hchunk]
        exact hmore
      obtain ⟨n, d, es', hends⟩ := ih (fun n => hflow (1 + n)) hcaught
        (fun m hm => hsend m (List.mem_cons_of_mem _ hm)) hrest
      refine ⟨1 + n, d, es ++ es', ?_⟩
      rw [firsts_one_add, Client.pollOn, hturn]
      dsimp only
      rw [hends]

variable (depth) in
/-- Any number of calls of `poll` end, each after one answer at least. -/
theorem Caught.polls_end (h : Caught cbs received c events heard) (hsend : ∀ m ∈ later, m.Sendable)
    (hstream : ∀ n, received ++ bytesOf (firsts socket n) <+: wire (heard ++ later)) (n : ℕ) :
    ∃ polls k c' es, polls.length = n ∧ polls.flatten = firsts socket (n + k) ∧
      c.polls cbs depth polls = some (c', es) := by
  induction n generalizing received c events heard later socket with
  | zero => exact ⟨[], 0, c, [], rfl, rfl, rfl⟩
  | succ n ih =>
    obtain ⟨j, d, es, hpoll⟩ := h.ends depth hflow hsend hstream
    obtain ⟨more, rest, rfl, hcaught, -⟩ :=
      h.poll hsend (flowing_firsts hflow (1 + j)) (hstream (1 + j)) hpoll
    have hrest : ∀ n, received ++ bytesOf (firsts socket (1 + j)) ++
        bytesOf (firsts (fun i => socket (1 + j + i)) n) <+: wire (heard ++ more ++ rest) := by
      intro n
      have hmore := hstream (1 + j + n)
      rw [firsts_add, bytesOf_append, ← List.append_assoc] at hmore
      rwa [List.append_assoc heard]
    obtain ⟨polls, k, c', es', hlength, hflatten, hpolls⟩ :=
      ih (fun n => hflow (1 + j + n)) hcaught (fun m hm => hsend m (List.mem_append_right _ hm)) hrest
    refine ⟨firsts socket (1 + j) :: polls, j + k, c', es ++ es', congrArg (· + 1) hlength, ?_, ?_⟩
    · rw [List.flatten_cons, hflatten, ← firsts_add]
      congr 1
      omega
    · rw [Client.polls, hpoll]
      dsimp only
      rw [hpolls]
      rfl

variable (cbs depth) in
/-- However a stream of messages is cut into what `recv` returns: any number of calls of `poll`, whose
callbacks are quiet, come to an end, and then the user has been told of the first messages, in order
and once each, the session is what they say, and the bytes of no other message are gone. There have
been enough calls for all messages when there were as many as answers that bring all bytes. -/
theorem stream_told {ms : List ServerMessage} (hsend : ∀ m ∈ ms, m.Sendable)
    (hstream : ∀ n, bytesOf (firsts socket n) <+: wire ms) (n : ℕ) :
    ∃ polls k c events heard, polls.length = n ∧ polls.flatten = firsts socket k ∧
      fresh.polls cbs depth polls = some (c, events) ∧ heard <+: ms ∧
      calledIn events = heard.filterMap (tellingOf cbs) ∧
      c.session = heard.foldl (fun su m => su.after (callOf m)) ⟨[], 0, 0⟩ ∧
      wire heard ++ c.recvBuf = bytesOf (firsts socket k) ∧
      ∀ enough ≤ n, bytesOf (firsts socket enough) = wire ms → heard = ms := by
  have hstart : Caught cbs [] fresh [] [] := ⟨rfl, rfl, rfl, rfl⟩
  obtain ⟨polls, k, c, events, hlength, hflatten, hpolls⟩ :=
    hstart.polls_end depth hflow hsend hstream n
  have hflows : ∀ answers ∈ polls, Flowing answers := by
    intro answers hanswers recv hrecv
    refine flowing_firsts hflow (n + k) recv ?_
    rw [← hflatten]
    exact List.mem_flatten_of_mem hanswers hrecv
  obtain ⟨heard, hprefix, hcaught, hall⟩ :=
    polls_heard hsend hflows (hflatten ▸ hstream (n + k)) hpolls
  refine ⟨polls, n + k, c, events, heard, hlength, hflatten, hpolls, hprefix, hcaught.called,
    hcaught.session, hflatten ▸ hcaught.received.symm, fun enough hle hbytes => hall ?_⟩
  -- What follows the last byte of the stream brings nothing.
  obtain ⟨more, hmore⟩ := Nat.exists_eq_add_of_le (hle.trans (Nat.le_add_right n k))
  refine (hflatten ▸ hstream (n + k)).eq_of_length_le ?_
  rw [hflatten, hmore, firsts_add, bytesOf_append, hbytes, List.length_append]
  exact Nat.le_add_right _ _

end

end

/-- A pong whose frame comes in two pieces. -/
def slowPong : ℕ → Recv
  | 0 => .data [1]
  | 1 => .data [0, 0, 0, 9]
  | _ => .wouldBlock

/-- Two calls of `poll` tell of it. -/
theorem slowPong_told : ∃ polls c events, polls.length = 2 ∧
    fresh.polls (fun _ => true) 64 polls = some (c, events) ∧ calledIn events = [.pong] := by
  have hsend : ∀ m ∈ [ServerMessage.pong], m.Sendable := by decide +kernel
  have hflow : ∀ n, (slowPong n).bytes ≠ none
    | 0 | 1 | _ + 2 => by simp [slowPong, Recv.bytes]
  have hwire : bytesOf (firsts slowPong 2) = wire [.pong] := by decide +kernel
  have hquiet : ∀ n, bytesOf (firsts (fun i => slowPong (2 + i)) n) = [] := by
    intro n
    simp [bytesOf, firsts, Nat.add_comm 2, slowPong, Recv.bytes]
  have hstream : ∀ n, bytesOf (firsts slowPong n) <+: wire [.pong]
    | 0 => List.nil_prefix
    | 1 => by decide +kernel
    | n + 2 => by
      rw [Nat.add_comm, firsts_add, bytesOf_append, hquiet, hwire, List.append_nil]
  obtain ⟨polls, _, c, events, heard, hlength, _, hpolls, _, hcalled, _, _, hall⟩ :=
    stream_told (fun _ => true) 64 hflow hsend hstream 2
  obtain rfl := hall 2 (Nat.le_refl 2) hwire
  exact ⟨polls, c, events, hlength, hpolls, hcalled⟩

end Roomie.Cpp
