import Mathlib.Data.List.Induction
import Roomie.GmlCallbacks
import Roomie.GmlMessages
import Roomie.GmlStreams

/-!
# What the user of the GameMaker client is told

The server's messages come as a stream of frames on each connection. Whatever data events, calls of
`roomie_client_poll` and doings of callbacks follow one another, the callbacks on a connection are
those of its first messages, in order and once each; behind them there is at most `on_error` with a
lost connection. Once all bytes have arrived, polling tells of all messages.
-/

namespace Roomie.Gml
open Bincode ByteBuffers Frames GuardedRuns

/-! ## What goes on on each connection -/

/-- What went on on a connection: connections are told apart by resets. -/
def onConnection : ℕ → List Event → List Event
  | _, [] => []
  | 0, .reset :: _ => []
  | n + 1, .reset :: log => onConnection n log
  | n, e :: log => if n = 0 then e :: onConnection n log else onConnection n log

def isReset : Event → Bool
  | .reset => true
  | _ => false

/-- The number of the connection that a log ends on. -/
def lastConnection (log : List Event) : ℕ := log.countP isReset

theorem onConnection_reset (n : ℕ) (log : List Event) :
    onConnection (n + 1) (.reset :: log) = onConnection n log := rfl

theorem onConnection_cons {e : Event} (he : isReset e = false) (n : ℕ) (log : List Event) :
    onConnection n (e :: log) = if n = 0 then e :: onConnection n log else onConnection n log := by
  cases e with
  | reset => cases he
  | _ => rfl

/-- Nothing has gone on on a connection that is still to come. -/
theorem onConnection_later {n : ℕ} {log : List Event} (h : lastConnection log < n) :
    onConnection n log = [] := by
  induction log generalizing n with
  | nil => rfl
  | cons e log ih =>
    cases he : isReset e with
    | false =>
      rw [lastConnection, List.countP_cons_of_neg (by simp [he])] at h
      rw [onConnection_cons he, if_neg (by omega)]
      exact ih h
    | true =>
      obtain rfl : e = .reset := by cases e <;> first | rfl | cases he
      rw [lastConnection, List.countP_cons_of_pos rfl] at h
      obtain ⟨n, rfl⟩ : ∃ k, n = k + 1 := ⟨n - 1, by omega⟩
      exact ih (by rw [lastConnection]; omega)

theorem onConnection_first {es : List Event} (hes : ∀ e ∈ es, isReset e = false) (n : ℕ) :
    onConnection n es = if n = 0 then es else [] := by
  induction es with
  | nil => exact (ite_self _).symm
  | cons e es ih =>
    obtain ⟨he, hes⟩ := List.forall_mem_cons.mp hes
    rw [onConnection_cons he, ih hes]
    split_ifs <;> rfl

/-- What comes last has gone on on the last connection. -/
theorem onConnection_append {es : List Event} (hes : ∀ e ∈ es, isReset e = false) (n : ℕ)
    (log : List Event) : onConnection n (log ++ es) =
      if n = lastConnection log then onConnection n log ++ es else onConnection n log := by
  induction log generalizing n with
  | nil => exact onConnection_first hes n
  | cons e log ih =>
    cases he : isReset e with
    | false =>
      rw [List.cons_append, onConnection_cons he, onConnection_cons he, ih, lastConnection,
        lastConnection, List.countP_cons_of_neg (by simp [he])]
      split_ifs <;> rfl
    | true =>
      obtain rfl : e = .reset := by cases e <;> first | rfl | cases he
      rw [lastConnection, List.countP_cons_of_pos rfl]
      cases n with
      | zero => rfl
      | succ n =>
        rw [List.cons_append, onConnection_reset, onConnection_reset, ih, lastConnection]
        simp only [Nat.add_right_cancel_iff]

theorem onConnection_concat_reset (n : ℕ) (log : List Event) :
    onConnection n (log ++ [.reset]) = onConnection n log := by
  induction log generalizing n with
  | nil => cases n <;> rfl
  | cons e log ih =>
    cases he : isReset e with
    | false => rw [List.cons_append, onConnection_cons he, onConnection_cons he, ih]
    | true =>
      obtain rfl : e = .reset := by cases e <;> first | rfl | cases he
      cases n with
      | zero => rfl
      | succ n => exact ih n

/-- The payloads decoded, and the callbacks called. -/
def decodings (n : ℕ) (log : List Event) : List Bytes := handed (onConnection n log)

def callsOf (log : List Event) : List Call :=
  log.filterMap fun e => match e with
    | .called call => some call
    | _ => none

def calls (n : ℕ) (log : List Event) : List Call := callsOf (onConnection n log)

theorem handed_append (log es : List Event) : handed (log ++ es) = handed log ++ handed es :=
  List.filterMap_append

theorem callsOf_append (log es : List Event) : callsOf (log ++ es) = callsOf log ++ callsOf es :=
  List.filterMap_append

theorem handed_turn (p : Bytes) (o : Option Call) :
    handed (.decoding p :: o.toList.map .called) = [p] := by
  cases o <;> rfl

theorem callsOf_turn (p : Bytes) (o : Option Call) :
    callsOf (.decoding p :: o.toList.map .called) = o.toList := by
  cases o <;> rfl

/-! ## What the callbacks say -/

/-- What the user is told of a message: its callback, if that is set. -/
def tellingOf (cbs : Callback → Bool) (m : ServerMessage) : Option Call :=
  (callOf m).filter fun call => cbs call.callback

def lost : Call := .error (utf8 "Connection lost")

/-- The user has been told of the messages decoded, which are the first ones; then the connection
may have been lost so many times. -/
def Told (cbs : Callback → Bool) (messages : List ServerMessage) (losses : ℕ) (decoded : List Bytes)
    (said : List Call) : Prop :=
  ∃ ms, ms <+: messages ∧ decoded = ms.filterMap ServerMessage.encode ∧
    said = ms.filterMap (tellingOf cbs) ++ List.replicate losses lost

/-- The user has been told of all connections; while the last one stands it has not been lost. -/
structure Honest (cbs : Callback → Bool) (messages : ℕ → List ServerMessage) (standing : Prop)
    (log : List Event) : Prop where
  told : ∀ n, ∃ losses, Told cbs (messages n) losses (decodings n log) (calls n log)
  present : standing → Told cbs (messages (lastConnection log)) 0
    (decodings (lastConnection log) log) (calls (lastConnection log) log)

section
variable {cbs : Callback → Bool} {messages : ℕ → List ServerMessage} {up up' : Prop}
  {log : List Event}

theorem Told.nothing (ms : List ServerMessage) : Told cbs ms 0 [] [] :=
  ⟨[], List.nil_prefix, rfl, rfl⟩

theorem Honest.mono (h : Honest cbs messages up log) (hup : up' → up) :
    Honest cbs messages up' log :=
  ⟨h.told, fun hstanding => h.present (hup hstanding)⟩

theorem Honest.start : Honest cbs messages up [] :=
  ⟨fun _ => ⟨0, .nothing _⟩, fun _ => .nothing _⟩

/-- On the next connection nothing has gone on. -/
theorem Honest.reset (h : Honest cbs messages up log) :
    Honest cbs messages up' (log ++ [.reset]) := by
  have hsame : ∀ n, onConnection n (log ++ [.reset]) = onConnection n log :=
    fun n => onConnection_concat_reset n log
  constructor
  · intro n
    rw [decodings, calls, hsame]
    exact h.told n
  · intro _
    have hlast : lastConnection (log ++ [.reset]) = lastConnection log + 1 := by
      rw [lastConnection, List.countP_append]
      rfl
    rw [hlast, decodings, calls, hsame, onConnection_later (Nat.lt_succ_self _)]
    exact .nothing _

/-- What comes last counts for the last connection only. -/
theorem Honest.enter (h : Honest cbs messages up log) (losses : ℕ) {es : List Event}
    (hes : ∀ e ∈ es, isReset e = false) (hlosses : up' → losses = 0)
    (htold : Told cbs (messages (lastConnection log)) losses
      (decodings (lastConnection log) log ++ handed es)
      (calls (lastConnection log) log ++ callsOf es)) :
    Honest cbs messages up' (log ++ es) := by
  have hlast : lastConnection (log ++ es) = lastConnection log := by
    have hnone : es.countP isReset = 0 := List.countP_eq_zero.mpr (by simpa using hes)
    rw [lastConnection, List.countP_append, hnone]
    rfl
  have hnow := onConnection_append hes (lastConnection log) log
  rw [if_pos rfl] at hnow
  rw [decodings, calls, ← handed_append, ← callsOf_append, ← hnow] at htold
  constructor
  · intro n
    by_cases hn : n = lastConnection log
    · subst hn
      exact ⟨losses, htold⟩
    · rw [decodings, calls, onConnection_append hes, if_neg hn]
      exact h.told n
  · intro hup
    rw [hlast]
    exact hlosses hup ▸ htold

/-- An event that neither decodes nor calls. -/
theorem Honest.silent (h : Honest cbs messages up log) {e : Event} (he : isReset e = false)
    (hhanded : handed [e] = []) (hcalls : callsOf [e] = []) :
    Honest cbs messages up (log ++ [e]) := by
  have hes : ∀ e' ∈ [e], isReset e' = false := by
    simpa using he
  by_cases hup : up
  · refine h.enter 0 hes (fun _ => rfl) ?_
    rw [hhanded, hcalls, List.append_nil, List.append_nil]
    exact h.present hup
  · obtain ⟨losses, hlosses⟩ := h.told (lastConnection log)
    refine h.enter losses hes (fun hstands => absurd hstands hup) ?_
    rw [hhanded, hcalls, List.append_nil, List.append_nil]
    exact hlosses

/-- `on_error` for a lost connection. -/
theorem Honest.lose (h : Honest cbs messages up log) (hdown : ¬ up') :
    Honest cbs messages up' (log ++ [.called lost]) := by
  obtain ⟨losses, ms, hms, hdecoded, hsaid⟩ := h.told (lastConnection log)
  refine h.enter (losses + 1) (by simp [isReset]) (fun hup => absurd hup hdown)
    ⟨ms, hms, ?_, ?_⟩
  · rw [hdecoded]
    exact List.append_nil _
  · rw [hsaid, List.replicate_succ', ← List.append_assoc]
    rfl

/-- The next payload is that of the next message, and its callback is called. -/
theorem Honest.tell (h : Honest cbs messages up log) (hup : up)
    (hall : ∀ m ∈ messages (lastConnection log), m.encode ≠ none) {p : Bytes}
    (hnext : decodings (lastConnection log) log ++ [p] <+:
      (messages (lastConnection log)).filterMap ServerMessage.encode) :
    ∃ m ∈ messages (lastConnection log), m.encode = some p ∧
      Honest cbs messages up (log ++ .decoding p :: (tellingOf cbs m).toList.map .called) := by
  obtain ⟨ms, ⟨later, hlater⟩, hdecoded, hsaid⟩ := h.present hup
  rw [hdecoded, ← hlater, List.filterMap_append, List.prefix_append_right_inj] at hnext
  cases later with
  | nil => simp at hnext
  | cons m later =>
    have hmem : m ∈ messages (lastConnection log) := by
      rw [← hlater]
      exact List.mem_append_right _ List.mem_cons_self
    obtain ⟨p', hp'⟩ := Option.ne_none_iff_exists'.mp (hall m hmem)
    rw [List.filterMap_cons_some hp'] at hnext
    obtain rfl : p = p' := (List.cons_prefix_cons.mp hnext).1
    refine ⟨m, hmem, hp', h.enter 0 ?_ (fun _ => rfl) ⟨ms ++ [m], ?_, ?_, ?_⟩⟩
    · simp [isReset]
    · rw [← hlater]
      exact List.prefix_append_right_inj ms |>.mpr (List.prefix_append [m] later)
    · rw [handed_turn, hdecoded, List.filterMap_append, List.filterMap_cons_some hp']
      rfl
    · rw [callsOf_turn, hsaid, List.filterMap_append]
      cases htelling : tellingOf cbs m <;> simp [htelling]

end

/-! ## What each step keeps -/

section
variable {cbs : Callback → Bool} {messages : ℕ → List ServerMessage} {c : Client}

/-- The user has been told of what the client has decoded. -/
def Client.HonestTo (cbs : Callback → Bool) (messages : ℕ → List ServerMessage) (c : Client) : Prop :=
  Honest cbs messages (0 ≤ c.socket) c.log

theorem Client.HonestTo.act (h : c.HonestTo cbs messages) (a : Act) :
    (c.act a).HonestTo cbs messages := by
  cases a with
  | disconnect => exact Honest.reset h
  | connect useWs sock err =>
    have hlog : (c.act (.connect useWs sock err)).log = c.log ++ [.reset] :=
      congrArg (· ++ [Event.reset]) (connect_fields c useWs sock err).2.2
    rw [Client.HonestTo, hlog]
    exact Honest.reset h
  | leaveRoom =>
    unfold Client.act Client.leaveRoom
    split_ifs
    · exact Honest.silent h rfl rfl rfl
    · exact h
  | send => exact h

theorem Client.HonestTo.acts (h : c.HonestTo cbs messages) (as : List Act) :
    (as.foldl Client.act c).HonestTo cbs messages := by
  induction as generalizing c with
  | nil => exact h
  | cons a as ih => exact ih (h.act a)

variable (rt : Runtime) (acts : List Event → List Act)

theorem Client.HonestTo.raise {call : Call}
    (hcalled : cbs call.callback = true →
      Honest cbs messages (0 ≤ c.socket) (c.log ++ [.called call]))
    (hnot : cbs call.callback = false → c.HonestTo cbs messages) :
    (c.raise cbs acts call).HonestTo cbs messages := by
  unfold Client.raise
  split_ifs with hset
  · exact Client.HonestTo.acts (c := c.note (.called call)) (hcalled hset) _
  · exact hnot (Bool.eq_false_iff.mpr hset)

/-- What is done about a message is to call its callback. -/
theorem Client.HonestTo.handle {m : ServerMessage}
    (h : Honest cbs messages (0 ≤ c.socket) (c.log ++ (tellingOf cbs m).toList.map .called)) :
    (c.handle cbs acts (.ofServer m)).HonestTo cbs messages := by
  have hcall : callOf m = (Message.ofServer m).call := rfl
  rw [Client.handle_eq, ← hcall]
  unfold tellingOf at h
  cases hm : callOf m with
  | none =>
    rw [hm, Option.filter_none, Option.toList_none, List.map_nil, List.append_nil] at h
    exact h
  | some call =>
    rw [hm] at h
    refine Client.HonestTo.raise acts (fun hset => ?_) fun hunset => ?_
    · rw [Option.filter_some, hset] at h
      exact h
    · rw [Option.filter_some_neg (by simp [hunset]), Option.toList_none, List.map_nil,
        List.append_nil] at h
      exact h

theorem Client.HonestTo.compact (h : c.HonestTo cbs messages) (total : ℕ) :
    (c.compact total).HonestTo cbs messages := by
  unfold Client.compact
  split_ifs
  · exact h
  · exact h

theorem Client.HonestTo.handleAsync (h : c.HonestTo cbs messages) (a : Async) :
    (c.handleAsync cbs acts a).HonestTo cbs messages := by
  cases a with
  | nonBlockingConnect succeeded => exact h
  | disconnect =>
    refine Client.HonestTo.raise acts (fun _ => ?_) fun _ => ?_
    · exact Honest.lose h (by simp)
    · exact Honest.mono h (by simp)
  | data id buffer =>
    unfold Client.handleAsync
    dsimp only
    split_ifs
    · cases buffer with
      | none => exact h
      | some buffer =>
        have hreceive : (c.receive buffer).HonestTo cbs messages := by
          unfold Client.receive
          split_ifs <;> exact h
        exact Honest.silent hreceive rfl rfl rfl
    · exact h
  | other => exact h

/-! ## Every run -/

/-- What holds of a client whose connections carry these messages. -/
structure Reported (rt : Runtime) (cbs : Callback → Bool) (acts : List Event → List Act)
    (messages : ℕ → List ServerMessage) (c : Client) : Prop where
  told : ∀ n, ∃ losses, Told cbs (messages n) losses (decodings n c.log) (calls n c.log)
  all : 0 ≤ (c.poll rt cbs acts).1.socket →
    (c.poll rt cbs acts).1.present.arrived =
      ((messages (c.poll rt cbs acts).1.number).filterMap ServerMessage.encode).flatMap frame →
    calls (c.poll rt cbs acts).1.number (c.poll rt cbs acts).1.log =
      (messages (c.poll rt cbs acts).1.number).filterMap (tellingOf cbs)

/-- The payloads of the messages on each connection. -/
def payloads (messages : ℕ → List ServerMessage) (n : ℕ) : List Bytes :=
  (messages n).filterMap ServerMessage.encode

theorem sound_payloads (messages : ℕ → List ServerMessage) (n : ℕ) :
    ∀ p ∈ payloads messages n, Sound maxFrameLen p := by
  intro p hp
  obtain ⟨m, -, hencode⟩ := List.mem_filterMap.mp hp
  obtain ⟨rfl, hL⟩ := m.encode_eq hencode
  refine ⟨?_, hL⟩
  have htag : ∃ w, serverMessageFormat.write m = writeVarint m.tag ++ w := by
    cases m <;> exact ⟨_, rfl⟩
  obtain ⟨w, hw⟩ := htag
  have hpos := varintSize_pos m.tag
  rw [hw, List.length_append, length_writeVarint]
  omega

/-- The payloads decoded on the present connection are those in the log. -/
theorem tally_present (log : List Event) : (tally log).past.length = lastConnection log ∧
    (tally log).present.decoded = decodings (lastConnection log) log := by
  induction log using List.reverseRecOn with
  | nil => exact ⟨rfl, rfl⟩
  | append_singleton log e ih =>
    obtain ⟨hpast, hdecoded⟩ := ih
    rw [tally_concat]
    cases he : isReset e with
    | true =>
      obtain rfl : e = .reset := by cases e <;> first | rfl | cases he
      have hlast : lastConnection (log ++ [.reset]) = lastConnection log + 1 := List.countP_append
      refine ⟨(List.length_append).trans (hlast ▸ congrArg (· + 1) hpast), ?_⟩
      rw [hlast, decodings, onConnection_concat_reset, onConnection_later (Nat.lt_succ_self _)]
      rfl
    | false =>
      have hlast : lastConnection (log ++ [e]) = lastConnection log := by
        rw [lastConnection, List.countP_append, List.countP_singleton, he]
        rfl
      have hnow : decodings (lastConnection log) (log ++ [e]) =
          decodings (lastConnection log) log ++ handed [e] := by
        rw [decodings, onConnection_append (by simpa using he), if_pos rfl, handed_append]
        rfl
      rw [hlast, hnow, ← hdecoded, ← hpast]
      cases e with
      | received data => exact ⟨rfl, (List.append_nil _).symm⟩
      | left => exact ⟨rfl, (List.append_nil _).symm⟩
      | decoding payload => exact ⟨rfl, rfl⟩
      | called call => exact ⟨rfl, (List.append_nil _).symm⟩
      | reset => cases he

variable (hsend : ∀ n, ∀ m ∈ messages n, m.Sendable)
include hsend

/-- A turn of `roomie_client_poll` tells of the message that it decodes. -/
theorem Client.HonestTo.pollFrame (h : c.HonestTo cbs messages)
    (hstep : InStep (payloads messages) c) :
    (c.pollFrame rt cbs acts).1.HonestTo cbs messages := by
  by_cases hsocket : c.socket < 0
  · rw [Client.pollFrame, if_pos hsocket]
    exact h
  have hup := Int.not_lt.mp hsocket
  rw [Client.pollFrame_eq rt cbs acts hup]
  rcases hstep.head (sound_payloads messages _) with ⟨hhead, -⟩ | ⟨p, rest, hhead, -, hnext⟩
  · rw [hhead]
    exact h
  · have hpresent : c.present.decoded = decodings (lastConnection c.log) c.log :=
      (tally_present c.log).2
    have hnumber : c.number = lastConnection c.log := (tally_present c.log).1
    rw [hpresent, hnumber] at hnext
    have hall : ∀ m ∈ messages (lastConnection c.log), m.encode ≠ none :=
      fun m hm => (hsend _ m hm).1
    obtain ⟨m, hm, hencode, htold⟩ := Honest.tell h hup hall hnext
    rw [hhead]
    dsimp only
    rw [decodeServerMessage_encode rt hencode (hsend _ m hm).2]
    refine Client.HonestTo.compact (Client.HonestTo.handle acts ?_) _
    rw [Client.consume, Client.note, List.append_assoc]
    exact htold

theorem Client.HonestTo.poll (h : c.HonestTo cbs messages)
    (hstep : InStep (payloads messages) c) : (c.poll rt cbs acts).1.HonestTo cbs messages := by
  induction c using Client.poll.induct rt cbs acts with
  | case1 c c' hturn ih =>
    have hsame : (c.pollFrame rt cbs acts).1 = c' := congrArg Prod.fst hturn
    rw [Client.poll_again hturn]
    exact ih (hsame ▸ h.pollFrame rt acts hsend hstep)
      (hstep.pollFrame rt cbs acts (sound_payloads messages) hturn).1
  | case2 c c' hturn =>
    have hsame : (c.pollFrame rt cbs acts).1 = c' := congrArg Prod.fst hturn
    rw [Client.poll_returned hturn]
    exact hsame ▸ h.pollFrame rt acts hsend hstep
  | case3 c c' hturn =>
    have hsame : (c.pollFrame rt cbs acts).1 = c' := congrArg Prod.fst hturn
    rw [Client.poll_failed hturn]
    exact hsame ▸ h.pollFrame rt acts hsend hstep

theorem honest_step (h : c.HonestTo cbs messages) (hstep : InStep (payloads messages) c) (s : Step) :
    (c.step rt cbs acts s).HonestTo cbs messages := by
  cases s with
  | async a => exact h.handleAsync acts a
  | poll => exact h.poll rt acts hsend hstep
  | act a => exact h.act a

omit hsend in
theorem inStep_step (hstep : InStep (payloads messages) c) {s : Step}
    (hstream : Continues (payloads messages) c s) :
    InStep (payloads messages) (c.step rt cbs acts s) := by
  cases s with
  | async a => exact hstep.handleAsync cbs acts hstream
  | poll => exact (hstep.poll rt cbs acts (sound_payloads messages)).1
  | act a => exact hstep.act a

omit hsend in
theorem HonestTo.opened (useWs : Bool) (sock err : ℤ) :
    (Client.opened useWs sock err).HonestTo cbs messages :=
  Client.HonestTo.act (c := .create) (Honest.start) (.connect useWs sock err)

theorem reachable_honest {useWs : Bool} {sock err : ℤ}
    (h : Reaches (Client.step rt cbs acts) (Continues (payloads messages))
      (.opened useWs sock err) c) : InStep (payloads messages) c ∧ c.HonestTo cbs messages := by
  refine h.invariant (I := fun c => InStep (payloads messages) c ∧ c.HonestTo cbs messages)
    ⟨.opened useWs sock err, HonestTo.opened useWs sock err⟩ fun c s hc hs => ?_
  exact ⟨inStep_step rt acts hc.1 hs, honest_step rt acts hsend hc.2 hc.1 s⟩

omit hsend in
/-- Where all bytes have arrived and no payload is left that is there, all have been decoded. -/
theorem all_decoded (hstep : InStep (payloads messages) c)
    (hcomplete : Complete (payloads messages) c)
    (harrived : c.present.arrived = (payloads messages c.number).flatMap frame) :
    c.present.decoded = payloads messages c.number := by
  obtain ⟨later, hlater⟩ := hstep.present.inOrder
  cases later with
  | nil => rw [← hlater, List.append_nil]
  | cons p later =>
    have hnext : c.present.decoded ++ [p] <+: payloads messages c.number := by
      rw [← hlater, List.prefix_append_right_inj]
      exact List.prefix_append [p] later
    have hshort := hcomplete p hnext
    have hwhole := hstep.whole
    rw [harrived, ← hlater, List.flatMap_append, List.flatMap_cons] at hwhole
    rw [← List.append_cancel_left hwhole, List.length_append] at hshort
    omega

/-- Polling decodes all payloads once all bytes have arrived. -/
theorem polled_decodes_all (hstep : InStep (payloads messages) c)
    (hup : 0 ≤ (c.poll rt cbs acts).1.socket)
    (harrived : (c.poll rt cbs acts).1.present.arrived =
      ((messages (c.poll rt cbs acts).1.number).filterMap ServerMessage.encode).flatMap frame) :
    (c.poll rt cbs acts).1.present.decoded = payloads messages (c.poll rt cbs acts).1.number := by
  obtain ⟨hstep', hcomplete, hfailed⟩ := hstep.poll rt cbs acts (sound_payloads messages)
  have hreturns : (c.poll rt cbs acts).2 = true := by
    by_contra hfalse
    obtain ⟨n, p, hp, hnone⟩ := hfailed (Bool.eq_false_iff.mpr hfalse)
    obtain ⟨m, hm, hencode⟩ := List.mem_filterMap.mp hp
    rw [decodeServerMessage_encode rt hencode (hsend n m hm).2] at hnone
    cases hnone
  exact all_decoded hstep' (hcomplete hreturns hup) harrived

/-- Polling tells of all messages once all bytes have arrived. -/
theorem polled_tells_all (hstep : InStep (payloads messages) c) (hhonest : c.HonestTo cbs messages)
    (hup : 0 ≤ (c.poll rt cbs acts).1.socket)
    (harrived : (c.poll rt cbs acts).1.present.arrived =
      ((messages (c.poll rt cbs acts).1.number).filterMap ServerMessage.encode).flatMap frame) :
    calls (c.poll rt cbs acts).1.number (c.poll rt cbs acts).1.log =
      (messages (c.poll rt cbs acts).1.number).filterMap (tellingOf cbs) := by
  have hpolled := hhonest.poll rt acts hsend hstep
  have hall := polled_decodes_all rt acts hsend hstep hup harrived
  generalize (c.poll rt cbs acts).1 = d at *
  have hnumber : d.number = lastConnection d.log := (tally_present d.log).1
  have hdecoded : d.present.decoded = decodings (lastConnection d.log) d.log :=
    (tally_present d.log).2
  rw [hnumber] at hall ⊢
  obtain ⟨ms, ⟨later, hlater⟩, hms, hsaid⟩ := hpolled.present hup
  rw [hdecoded, hms, payloads, ← hlater, List.filterMap_append] at hall
  have hnone : later.filterMap ServerMessage.encode = [] :=
    List.append_right_eq_self.mp hall.symm
  have hlast : later = [] := by
    cases later with
    | nil => rfl
    | cons m later =>
      have hm := List.mem_append_right ms (List.mem_cons_self (a := m) (l := later))
      rw [hlater] at hm
      exact absurd (List.filterMap_eq_nil_iff.mp hnone m List.mem_cons_self) (hsend _ m hm).1
  rw [hsaid, ← hlater, hlast, List.append_nil]
  exact List.append_nil _

/-- On every connection the user has been told of the messages decoded, the first ones, in order
and once each; and where all bytes have arrived on a connection that stands, polling tells of all
messages. -/
theorem user_told {useWs : Bool} {sock err : ℤ}
    (h : Reaches (Client.step rt cbs acts) (Continues (payloads messages))
      (.opened useWs sock err) c) : Reported rt cbs acts messages c := by
  obtain ⟨hstep, hhonest⟩ := reachable_honest rt acts hsend h
  exact ⟨hhonest.told, polled_tells_all rt acts hsend hstep hhonest⟩

end

/-- A pong and a peer that left, in two data events that part the first header. -/
def pongThenLeft : List Step :=
  [.async (.data (some 1) (some ⟨.fixed, [1, 0, 0], 0⟩)),
    .async (.data (some 1) (some ⟨.fixed, [0, 9, 2, 0, 0, 0, 3, 3], 0⟩))]

/-- The callback of the pong leaves the room and sends something. -/
def leavesAtPong (log : List Event) : List Act :=
  if log.getLast? = some (.called .pong) then [.leaveRoom, .send] else []

/-- The client before it is polled. -/
def pongThenLeftArrived : Client :=
  exec (Client.step runner (fun _ => true) leavesAtPong) (.opened false 1 0) pongThenLeft

/-- Two turns after each other, and one that finds nothing. -/
theorem polled_twice {rt : Runtime} {cbs : Callback → Bool} {acts : List Event → List Act}
    {c c₁ c₂ : Client} (hc₁ : (c.pollFrame rt cbs acts).1 = c₁)
    (hc₂ : (c₁.pollFrame rt cbs acts).1 = c₂) (h₁ : (c.pollFrame rt cbs acts).2 = .again)
    (h₂ : (c₁.pollFrame rt cbs acts).2 = .again) (h₃ : (c₂.pollFrame rt cbs acts).2 = .returned) :
    (c.poll rt cbs acts).1 = (c₂.pollFrame rt cbs acts).1 := by
  rw [Client.poll_again (Prod.ext hc₁ h₁), Client.poll_again (Prod.ext hc₂ h₂),
    Client.poll_returned (Prod.ext rfl h₃)]

/-- The connection stands, and all bytes have arrived. -/
theorem pongThenLeft_arrived :
    0 ≤ (pongThenLeftArrived.poll runner (fun _ => true) leavesAtPong).1.socket ∧
      (pongThenLeftArrived.poll runner (fun _ => true) leavesAtPong).1.present.arrived =
        ([ServerMessage.pong, .peerLeft 3].filterMap ServerMessage.encode).flatMap frame := by
  rw [polled_twice (Eq.refl _) (Eq.refl _) (by decide +kernel) (by decide +kernel)
    (by decide +kernel)]
  decide +kernel

/-- The user is told of both, although the first callback has left the room. -/
theorem pongThenLeft_told :
    calls (pongThenLeftArrived.poll runner (fun _ => true) leavesAtPong).1.number
      (pongThenLeftArrived.poll runner (fun _ => true) leavesAtPong).1.log = [.pong, .peerLeft 3] := by
  have hsend : ∀ m ∈ [ServerMessage.pong, .peerLeft 3], m.Sendable := by decide +kernel
  have hreach : Reaches (Client.step runner (fun _ => true) leavesAtPong)
      (Continues (payloads fun _ => [.pong, .peerLeft 3])) (.opened false 1 0) pongThenLeftArrived :=
    Reaches.refl.exec ⟨fun _ => by decide +kernel, fun _ => by decide +kernel, trivial⟩
  have htold := (user_told runner leavesAtPong (fun _ => hsend) hreach).all
    pongThenLeft_arrived.1 pongThenLeft_arrived.2
  exact htold.trans (by decide +kernel)

end Roomie.Gml
