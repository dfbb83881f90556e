import Roomie.CppStreams
import Roomie.CsharpStreams
import Roomie.GmlSessions
import Roomie.StateAgreement

/-!
# The same game on every screen

From the rooms of the server to the callbacks of the clients. The messages of a member are encoded,
framed, cut into reads, put together, decoded and handed to the user. A user who keeps the state
told last holds the state of the room, and knows its own peer id, as soon as all bytes have come
through and been polled.
-/

namespace Roomie.SharedScreens
open Bincode Frames HashTables GuardedRuns StateAgreement

/-! ## What a call tells -/

/-- The handlers for what a view is made of are set. -/
def Watches (handlers : Callback → Bool) : Prop :=
  handlers .onJoined = true ∧ handlers .onStateUpdate = true

section
variable {Str Settings State : Type} (state : State → Blob)

/-- What a callback of the C++ client, or a handler of the C# client, learns. -/
def newsOfCall : Call Str Settings State → Option News
  | .joined _ pid _ _ _ initial => some (.joined pid.toNat (state initial))
  | .stateUpdate blob => some (.state blob)
  | _ => none

theorem newsOfCall_invoke {handlers : Callback → Bool} (hset : Watches handlers)
    (call : Call Str Settings State) :
    (call.invoke handlers).bind (newsOfCall state) = newsOfCall state call := by
  unfold Call.invoke
  split_ifs with hcalled
  · rfl
  · cases call with
    | joined => exact absurd hset.1 hcalled
    | stateUpdate => exact absurd hset.2 hcalled
    | _ => rfl

theorem newsOfCall_call (str : String → Str) (represent : RoomSettings → Settings)
    {blob : Option Blob → State} (hstate : ∀ b, state (blob b) = b.getD []) (m : ServerMessage) :
    newsOfCall state (m.call str represent blob) = newsOf m := by
  cases m with
  | joined code pid host side settings initial =>
    exact congrArg (fun b => some (News.joined pid.toNat b)) (hstate initial)
  | roomEvent event => cases event <;> rfl
  | _ => rfl

end

/-! ## The C# client -/

/-- What a handler learns. -/
def csharpNews : Csharp.Call → Option News := newsOfCall (Option.getD · [])

/-- The handlers called. -/
def csharpCalls (log : List Csharp.PollEvent) : List Csharp.Call :=
  log.filterMap fun e => match e with
    | .called call => some call
    | _ => none

/-- What the user of the C# client knows, by the handlers called. -/
def csharpView (log : List Csharp.PollEvent) : Option View :=
  known ((csharpCalls log).filterMap csharpNews)

section
variable {rt : Csharp.Runtime} {handlers : Callback → Bool}

/-- A message goes to its handler, and the connection stands. -/
theorem told_message {m : ServerMessage} {payload : Bytes} (hencode : m.encode = some payload)
    (hcustom : ∀ s ∈ m.carried, s.custom = none) (log : List Csharp.PollEvent) :
    Csharp.TcpClient.told rt handlers Csharp.TcpClient.idle ⟨.connected, log⟩ payload =
      ⟨.connected, log ++ .decoding payload ::
        ((Csharp.callOf m).invoke handlers).toList.map .called⟩ := by
  obtain ⟨rfl, hL⟩ := m.encode_eq hencode
  have hread := (Csharp.dispatch_reads rt handlers hcustom).whole hL
  have hdecoded : Csharp.decodeAndDispatch rt handlers (serverMessageFormat.write m) =
      .ok ((Csharp.callOf m).invoke handlers, (serverMessageFormat.write m).length) := hread
  rw [Csharp.TcpClient.told, if_pos rfl, Csharp.TcpClient.outcome, hdecoded]
  cases (Csharp.callOf m).invoke handlers <;> rfl

theorem csharpCalls_append (log es : List Csharp.PollEvent) :
    csharpCalls (log ++ es) = csharpCalls log ++ csharpCalls es :=
  List.filterMap_append

/-- All messages are handed over, each by its handler. -/
theorem tell_messages {ms : List ServerMessage} (hsend : ∀ m ∈ ms, m.Sendable)
    (log : List Csharp.PollEvent) :
    ∃ log', (ms.filterMap ServerMessage.encode).foldl
        (Csharp.TcpClient.told rt handlers Csharp.TcpClient.idle) ⟨.connected, log⟩ =
          ⟨.connected, log'⟩ ∧
      csharpCalls log' =
        csharpCalls log ++ ms.filterMap fun m => (Csharp.callOf m).invoke handlers := by
  induction ms generalizing log with
  | nil => exact ⟨log, rfl, (List.append_nil _).symm⟩
  | cons m ms ih =>
    obtain ⟨hm, hms⟩ := List.forall_mem_cons.mp hsend
    obtain ⟨payload, hencode⟩ := Option.ne_none_iff_exists'.mp hm.1
    obtain ⟨log', hfold, hcalls⟩ := ih hms (log ++ .decoding payload ::
      ((Csharp.callOf m).invoke handlers).toList.map .called)
    refine ⟨log', ?_, ?_⟩
    · rw [List.filterMap_cons_some hencode, List.foldl_cons, told_message hencode hm.2]
      exact hfold
    · rw [hcalls, csharpCalls_append, List.append_assoc, List.filterMap_cons]
      cases (Csharp.callOf m).invoke handlers <;> rfl

/-- When the whole stream has been polled the handlers have been called for all messages. -/
theorem csharp_calls {ms : List ServerMessage} (hsend : ∀ m ∈ ms, m.Sendable)
    {polls : List (List Bytes)} (hreads : ∀ chunks ∈ polls, ∀ chunk ∈ chunks, chunk ≠ [])
    (hstream : polls.flatten.flatten = wire ms) :
    csharpCalls (Csharp.TcpClient.run rt handlers Csharp.TcpClient.idle polls).log =
      ms.filterMap fun m => (Csharp.callOf m).invoke handlers := by
  have hlen : ∀ p ∈ ms.filterMap ServerMessage.encode, p.length ≤ maxFrameLen := by
    intro p hp
    obtain ⟨m, -, hencode⟩ := List.mem_filterMap.mp hp
    exact (m.encode_eq hencode).1 ▸ (m.encode_eq hencode).2
  obtain ⟨log, hfold, hcalls⟩ : ∃ log, (ms.filterMap ServerMessage.encode).foldl
      (Csharp.TcpClient.told rt handlers Csharp.TcpClient.idle) ⟨.connected, []⟩ =
        ⟨.connected, log⟩ ∧
      csharpCalls log = [] ++ ms.filterMap fun m => (Csharp.callOf m).invoke handlers :=
    tell_messages hsend []
  rw [Csharp.TcpClient.run_whole rt handlers _ hlen hreads hstream, Csharp.TcpClient.Account.start,
    hfold]
  exact hcalls

/-- The user knows what the messages tell. -/
theorem csharp_view (hset : Watches handlers) {ms : List ServerMessage}
    (hsend : ∀ m ∈ ms, m.Sendable) {polls : List (List Bytes)}
    (hreads : ∀ chunks ∈ polls, ∀ chunk ∈ chunks, chunk ≠ [])
    (hstream : polls.flatten.flatten = wire ms) :
    csharpView (Csharp.TcpClient.run rt handlers Csharp.TcpClient.idle polls).log = viewOf ms := by
  rw [csharpView, csharp_calls hsend hreads hstream, List.filterMap_filterMap]
  refine congrArg known (List.filterMap_congr fun m _ => ?_)
  exact (newsOfCall_invoke _ hset (Csharp.callOf m)).trans
    (newsOfCall_call _ id Csharp.RoomSettings.ofServer (fun _ => rfl) m)

end

/-! ## The C++ client -/

/-- What a callback learns. -/
def cppNews : Cpp.Call → Option News := newsOfCall id

/-- What the user of the C++ client knows, by the callbacks called. -/
def cppView (calls : List Cpp.Call) : Option View := known (calls.filterMap cppNews)

theorem cppTelling_news {cbs : Callback → Bool} (hset : Watches cbs) {m : ServerMessage}
    (hne : m ≠ .stateUpdate []) : (Cpp.tellingOf cbs m).bind cppNews = newsOf m := by
  by_cases hpassed : Cpp.Passed m
  · rw [Cpp.tellingOf_passed hpassed]
    exact (newsOfCall_invoke id hset (Cpp.callOf m)).trans
      (newsOfCall_call id utf8 Cpp.RoomSettings.ofServer (fun _ => rfl) m)
  · cases m with
    | peerInput pid data =>
      obtain rfl : data = [] := Classical.not_not.mp hpassed
      rfl
    | stateUpdate data => exact absurd (congrArg _ (Classical.not_not.mp hpassed)) hne
    | _ => exact absurd trivial hpassed

/-- When all bytes have been received and polled the user knows what the messages tell. -/
theorem cpp_view {cbs : Callback → Bool} {depth : ℕ} (hset : Watches cbs) {ms : List ServerMessage}
    (hsend : ∀ m ∈ ms, m.Sendable) (hstates : .stateUpdate [] ∉ ms) {polls : List (List Cpp.Recv)}
    (hflow : ∀ answers ∈ polls, Cpp.Flowing answers)
    (hstream : Cpp.bytesOf polls.flatten = wire ms) {c : Cpp.Client} {events : List Cpp.Event}
    (hpolls : Cpp.fresh.polls cbs depth polls = some (c, events)) :
    cppView (Cpp.calledIn events) = viewOf ms := by
  obtain ⟨heard, -, hcaught, hall⟩ :=
    Cpp.polls_heard hsend hflow (hstream ▸ List.prefix_rfl) hpolls
  obtain rfl := hall hstream
  rw [cppView, hcaught.called, List.filterMap_filterMap]
  refine congrArg known (List.filterMap_congr fun m hm => cppTelling_news hset ?_)
  rintro rfl
  exact hstates hm

/-! ## The GameMaker client -/

/-- What a callback learns. -/
def gmlNews : Gml.Call → Option News
  | .joined _ pid _ _ _ initial => some (.joined pid initial)
  | .stateUpdate blob => some (.state blob)
  | _ => none

/-- What the user of the GameMaker client knows, by the callbacks called. -/
def gmlView (calls : List Gml.Call) : Option View := known (calls.filterMap gmlNews)

/-- States that come through as strings. -/
def Textual : ServerMessage → Prop
  | .joined _ _ _ _ _ initial => ∀ state, initial = some state → (0 : UInt8) ∉ state
  | .stateUpdate state => (0 : UInt8) ∉ state ∧ state ≠ []
  | _ => True

instance (m : ServerMessage) : Decidable (Textual m) :=
  match m with
  | .joined _ _ _ _ _ initial => inferInstanceAs (Decidable (∀ state ∈ initial, (0 : UInt8) ∉ state))
  | .stateUpdate state => inferInstanceAs (Decidable ((0 : UInt8) ∉ state ∧ state ≠ []))
  | .roomList _ | .peerJoined .. | .peerLeft _ | .peerInput .. | .moveAccepted | .moveRejected _
  | .roomEvent _ | .pong | .error _ => .isTrue trivial

theorem gmlNews_call {m : ServerMessage} (h : Textual m) :
    (Gml.callOf m).bind gmlNews = newsOf m := by
  cases m with
  | joined code pid host side settings initial =>
    have hstate : Gml.text ((initial.bind Gml.bufferOf).getD []) = initial.getD [] := by
      cases initial with
      | none => rfl
      | some state =>
        have htext := (Gml.text_eq_iff state).mpr (h state rfl)
        by_cases hempty : state = []
        · rw [hempty]
          rfl
        · rw [Option.bind_some, Gml.bufferOf, if_neg hempty]
          exact htext
    exact congrArg (fun state => some (News.joined pid.toNat state)) hstate
  | stateUpdate state =>
    have htext := (Gml.text_eq_iff state).mpr h.1
    simp [Gml.callOf, Gml.Message.ofServer, Gml.Message.call, Gml.bufferOf, h.2, htext, gmlNews,
      newsOf]
  | peerInput pid data =>
    by_cases hempty : data = [] <;>
      simp [Gml.callOf, Gml.Message.ofServer, Gml.Message.call, Gml.bufferOf, hempty, gmlNews, newsOf]
  | roomEvent event => cases event <;> rfl
  | _ => rfl

theorem telling_news {cbs : Callback → Bool} (hset : Watches cbs) {m : ServerMessage}
    (h : Textual m) : (Gml.tellingOf cbs m).bind gmlNews = newsOf m := by
  rw [← gmlNews_call h, Gml.tellingOf]
  cases hcall : Gml.callOf m with
  | none => rfl
  | some call =>
    rw [Option.filter_some]
    split_ifs with hcalled
    · rfl
    · cases call with
      | joined => exact absurd hset.1 hcalled
      | stateUpdate => exact absurd hset.2 hcalled
      | _ => rfl

theorem gmlView_tellings {cbs : Callback → Bool} (hset : Watches cbs) {ms : List ServerMessage}
    (h : ∀ m ∈ ms, Textual m) : gmlView (ms.filterMap (Gml.tellingOf cbs)) = viewOf ms := by
  have hnews : (ms.filterMap (Gml.tellingOf cbs)).filterMap gmlNews = ms.filterMap newsOf := by
    rw [List.filterMap_filterMap]
    apply List.filterMap_congr
    intro m hm
    exact telling_news hset (h m hm)
  rw [gmlView, hnews]
  rfl

/-- The client after a poll that found all bytes of its connection arrived, which carries these
messages. -/
structure CaughtUp (messages : ℕ → List ServerMessage) (log : List ServerMessage) (c : Gml.Client) :
    Prop where
  up : 0 ≤ c.socket
  carries : messages c.number = log
  arrived : c.present.arrived = wire log

/-- When all bytes have arrived and been polled the user knows what the messages tell. -/
theorem gml_view {rt : Gml.Runtime} {cbs : Callback → Bool} {acts : List Gml.Event → List Gml.Act}
    (hset : Watches cbs) {messages : ℕ → List ServerMessage}
    (hsend : ∀ n, ∀ m ∈ messages n, m.Sendable) {useWs : Bool} {sock err : ℤ} {c : Gml.Client}
    (h : Reaches (Gml.Client.step rt cbs acts) (Gml.Continues (Gml.payloads messages))
      (.opened useWs sock err) c) {log : List ServerMessage}
    (hcaught : CaughtUp messages log (c.poll rt cbs acts).1) (htext : ∀ m ∈ log, Textual m) :
    gmlView (Gml.calls (c.poll rt cbs acts).1.number (c.poll rt cbs acts).1.log) = viewOf log := by
  obtain ⟨hup, hcarries, harrived⟩ := hcaught
  obtain ⟨hstep, hhonest⟩ := Gml.reachable_honest rt acts hsend h
  rw [← hcarries] at harrived
  rw [Gml.polled_tells_all rt acts hsend hstep hhonest hup harrived, hcarries]
  exact gmlView_tellings hset htext

/-! ## From the rooms to the screens -/

/-- In every run over clear channels, for every member of every room: when the messages on its
channel have come through to a client and been polled, in whatever pieces, its user knows its peer id
and holds the state of the room, whichever of the three clients it uses. -/
theorem screens_show_room {r : Recorded} (h : Reaches record (fun _ a => a.env.Clear) .start r)
    {appKey key : String} {room : Room} (hroom : r.sys.roomAt appKey key = some room) {p : PeerId}
    {i : ClientInfo} (hm : room.HasMember p i) (hsend : ∀ m ∈ r.log i.tx, m.Sendable) :
    (∀ (rt : Csharp.Runtime) handlers polls, Watches handlers →
      (∀ chunks ∈ polls, ∀ chunk ∈ chunks, chunk ≠ []) →
      polls.flatten.flatten = wire (r.log i.tx) →
        csharpView (Csharp.TcpClient.run rt handlers Csharp.TcpClient.idle polls).log =
          some ⟨p.toNat, room.state⟩) ∧
    (∀ cbs depth polls c events, Watches cbs → .stateUpdate [] ∉ r.log i.tx →
      (∀ answers ∈ polls, Cpp.Flowing answers) → Cpp.bytesOf polls.flatten = wire (r.log i.tx) →
      Cpp.fresh.polls cbs depth polls = some (c, events) →
        cppView (Cpp.calledIn events) = some ⟨p.toNat, room.state⟩) ∧
    (∀ (rt : Gml.Runtime) cbs acts messages useWs sock err c, Watches cbs →
      (∀ n, ∀ m ∈ messages n, m.Sendable) →
      Reaches (Gml.Client.step rt cbs acts) (Gml.Continues (Gml.payloads messages))
        (.opened useWs sock err) c →
      CaughtUp messages (r.log i.tx) (c.poll rt cbs acts).1 → (∀ m ∈ r.log i.tx, Textual m) →
        gmlView (Gml.calls (c.poll rt cbs acts).1.number (c.poll rt cbs acts).1.log) =
          some ⟨p.toNat, room.state⟩) := by
  have hview := agreed_reached h _ _ _ _ _ hroom hm
  refine ⟨?_, ?_, ?_⟩
  · intro rt handlers polls hset hreads hstream
    rw [csharp_view hset hsend hreads hstream, hview]
  · intro cbs depth polls c events hset hstates hflow hstream hpolls
    rw [cpp_view hset hsend hstates hflow hstream hpolls, hview]
  · intro rt cbs acts messages useWs sock err c hset hsendable hreach hcaught htext
    rw [gml_view hset hsendable hreach hcaught htext, hview]

/-! ## Clients that get everything in one piece -/

/-- A socket that has all messages and then nothing more, as often as `poll` asks it. -/
def cppArrived (ms : List ServerMessage) : List Cpp.Recv :=
  .data (wire ms) :: List.replicate ms.length .wouldBlock

theorem cppArrived_flows (ms : List ServerMessage) :
    (∀ answers ∈ [cppArrived ms], Cpp.Flowing answers) ∧
      Cpp.bytesOf [cppArrived ms].flatten = wire ms := by
  have hnone : Cpp.bytesOf (List.replicate ms.length .wouldBlock) = [] := by
    induction ms.length with
    | zero => rfl
    | succ n ih => exact ih
  constructor
  · intro answers hanswers recv hrecv
    rw [List.mem_singleton.mp hanswers] at hrecv
    rcases List.mem_cons.mp hrecv with rfl | hrecv
    · exact Option.some_ne_none _
    · rw [List.eq_of_mem_replicate hrecv]
      exact Option.some_ne_none _
  · rw [List.flatten_singleton]
    change wire ms ++ Cpp.bytesOf (List.replicate ms.length .wouldBlock) = wire ms
    rw [hnone, List.append_nil]

/-- A GameMaker client on whose first connection all messages have arrived. -/
def gmlArrived (cbs : Callback → Bool) (ms : List ServerMessage) : Gml.Client :=
  (Gml.Client.opened false 1 0).handleAsync cbs Gml.idle
    (.data (some 1) (some ⟨.fixed, wire ms, 0⟩))

/-- The client after a poll whose callbacks do nothing. -/
def gmlPolled (rt : Gml.Runtime) (cbs : Callback → Bool) (ms : List ServerMessage) : Gml.Client :=
  ((gmlArrived cbs ms).poll rt cbs Gml.idle).1

theorem gmlPolled_caughtUp (rt : Gml.Runtime) (cbs : Callback → Bool) (ms : List ServerMessage) :
    Reaches (Gml.Client.step rt cbs Gml.idle) (Gml.Continues (Gml.payloads fun _ => ms))
      (.opened false 1 0) (gmlArrived cbs ms) ∧
    CaughtUp (fun _ => ms) ms (gmlPolled rt cbs ms) ∧ (gmlPolled rt cbs ms).Stays rt := by
  have haccepts : (Gml.Client.opened false 1 0).accepts (some 1) = true := rfl
  have harrived : (gmlArrived cbs ms).present.arrived = wire ms :=
    congrArg Gml.Reception.arrived (Gml.arrived_data haccepts cbs Gml.idle).1
  have hlog : (gmlArrived cbs ms).log = [.reset, .received (wire ms)] ∧
      (gmlArrived cbs ms).socket = 1 := by
    rw [gmlArrived, Gml.Client.handleAsync, if_pos haccepts, Option.elim_some, Gml.Client.receive]
    split_ifs <;> exact ⟨rfl, rfl⟩
  have hstays : (gmlArrived cbs ms).Stays rt := by
    rw [Gml.Client.Stays, hlog.1]
    rfl
  have hrests := Gml.rests_poll rt cbs (gmlArrived cbs ms)
  obtain ⟨-, hsame, hleft⟩ := hrests.keeps rt
  refine ⟨Reaches.single (a := Gml.Step.async (.data (some 1) (some ⟨.fixed, wire ms, 0⟩))) fun _ => ?_,
    ⟨?_, rfl, hsame.trans harrived⟩, hleft hstays⟩
  · exact List.prefix_rfl
  · rw [gmlPolled, hrests.socket, hlog.2]
    decide

/-- A host moves, somebody joins, and the host moves again. -/
def moveJoinMove : Recorded :=
  exec record .start [sends 0 (plainHello "" "h"), sends 0 (.move [7]),
    sends 1 (plainHello "aaaaaa" "x"), sends 0 (.move [8])]

/-- Whichever client the second player uses, its user knows the second state. -/
theorem second_state_shown :
    csharpView (Csharp.TcpClient.run ⟨64, fun _ => ""⟩ (fun _ => true) Csharp.TcpClient.idle
      [[wire (moveJoinMove.log 1)]]).log = some ⟨2, [8]⟩ ∧
    (∃ c events, Cpp.fresh.polls (fun _ => true) 1 [cppArrived (moveJoinMove.log 1)] =
      some (c, events) ∧ cppView (Cpp.calledIn events) = some ⟨2, [8]⟩) ∧
    gmlView (Gml.calls (gmlPolled Gml.runner (fun _ => true) (moveJoinMove.log 1)).number
      (gmlPolled Gml.runner (fun _ => true) (moveJoinMove.log 1)).log) = some ⟨2, [8]⟩ := by
  have hreach : Reaches record (fun _ a => a.env.Clear) .start moveJoinMove :=
    Reaches.exec .refl (by simp [Along, sends, Env.quiet_clear])
  have hrun : (moveJoinMove.sys.roomAt "pong" "aaaaaa").any (fun room =>
      room.state == [8] && (room.clients.lookup 2).any fun i => i.tx == 1) = true := by
    decide +kernel
  have hsend : ∀ m ∈ moveJoinMove.log 1, m.Sendable := by decide +kernel
  have htext : ∀ m ∈ moveJoinMove.log 1, Textual m := by decide +kernel
  have hsome : wire (moveJoinMove.log 1) ≠ [] := by decide +kernel
  have hpolled : (Cpp.fresh.polls (fun _ => true) 1 [cppArrived (moveJoinMove.log 1)]).isSome := by
    decide +kernel
  obtain ⟨room, hroom, hmatch⟩ := (Option.any_eq_true ..).mp hrun
  simp only [Bool.and_eq_true, Option.any_eq_true, beq_iff_eq] at hmatch
  obtain ⟨hstate, i, hi, htx⟩ := hmatch
  have hshown := screens_show_room hreach hroom (.inl hi) (htx ▸ hsend)
  rw [htx, hstate] at hshown
  obtain ⟨hcsharp, hcpp, hgml⟩ := hshown
  refine ⟨?_, ?_, ?_⟩
  · exact hcsharp _ _ _ ⟨rfl, rfl⟩ (by simpa using hsome) (by simp)
  · obtain ⟨⟨c, events⟩, hpolls⟩ := Option.isSome_iff_exists.mp hpolled
    obtain ⟨hflow, hstream⟩ := cppArrived_flows (moveJoinMove.log 1)
    have hview := hcpp _ _ _ _ _ ⟨rfl, rfl⟩ (fun h => (htext _ h).2 rfl) hflow hstream hpolls
    exact ⟨c, events, hpolls, hview⟩
  · obtain ⟨hclient, hcaught, -⟩ :=
      gmlPolled_caughtUp Gml.runner (fun _ => true) (moveJoinMove.log 1)
    exact hgml _ _ _ _ _ _ _ _ ⟨rfl, rfl⟩ (fun _ => hsend) hclient hcaught htext

end Roomie.SharedScreens
