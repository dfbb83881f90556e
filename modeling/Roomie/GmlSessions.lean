import Roomie.GmlReports

/-!
# The session of the GameMaker client

Where the client says it is in a room: the room code, its own id and the id of the host. Whatever
bytes arrive and whatever the program and the callbacks do, these are what the messages say that were
decoded since the last reset and the last leave, and nothing where there is no socket. One message is
heard by half: without `on_host_transferred` a `HostTransferred` leaves the host as it is.
-/

namespace Roomie.Gml
open Bincode ByteBuffers Frames GuardedRuns

/-- The fields that say where the client is. -/
structure Whereabouts where
  roomCode : Bytes
  peerId : ℕ
  hostPeerId : ℕ
  deriving DecidableEq

def Whereabouts.nowhere : Whereabouts := ⟨[], 0, 0⟩

def Client.whereabouts (c : Client) : Whereabouts := ⟨c.roomCode, c.peerId, c.hostPeerId⟩

/-- What a message says of it; a new host counts only where the callback for it is set. -/
def Whereabouts.after (transfers : Bool) (w : Whereabouts) : Message → Whereabouts
  | .joined roomCode peerId hostPeerId _ _ _ => ⟨roomCode, peerId, hostPeerId⟩
  | .hostTransferred host => if transfers then { w with hostPeerId := host } else w
  | _ => w

/-- What goes on, as far as it matters here. -/
def Whereabouts.enter (rt : Runtime) (transfers : Bool) (w : Whereabouts) : Event → Whereabouts
  | .decoding payload => (decodeServerMessage rt payload).elim w (w.after transfers)
  | .reset | .left => .nowhere
  | .received _ | .called _ => w

/-- The client shows this, or nothing where it has no socket. -/
def Client.Shows (c : Client) (w : Whereabouts) : Prop :=
  c.whereabouts = if 0 ≤ c.socket then w else .nowhere

section
variable (rt : Runtime) (cbs : Callback → Bool) (acts : List Event → List Act)

/-- Some events go on, and what is shown follows them. -/
def Follows (c c' : Client) : Prop :=
  ∃ es, c'.log = c.log ++ es ∧
    ∀ w, c.Shows w → c'.Shows (es.foldl (Whereabouts.enter rt (cbs .onHostTransferred)) w)

variable {rt cbs} {c c' c'' : Client}

theorem Follows.trans (h : Follows rt cbs c c') (h' : Follows rt cbs c' c'') :
    Follows rt cbs c c'' := by
  obtain ⟨es, hlog, hshows⟩ := h
  obtain ⟨es', hlog', hshows'⟩ := h'
  refine ⟨es ++ es', ?_, fun w hw => ?_⟩
  · rw [hlog', hlog, List.append_assoc]
  · rw [List.foldl_append]
    exact hshows' _ (hshows w hw)

/-- Nothing that matters here has changed. -/
theorem Follows.of_eq (hlog : c'.log = c.log) (hsocket : c'.socket = c.socket)
    (hshown : c'.whereabouts = c.whereabouts) : Follows rt cbs c c' := by
  refine ⟨[], hlog.trans (List.append_nil _).symm, fun w hw => ?_⟩
  unfold Client.Shows
  rw [hshown, hsocket]
  exact hw

/-- Something goes on after which the client is nowhere. -/
theorem Follows.nowhere {e : Event} (he : ∀ w : Whereabouts,
    w.enter rt (cbs .onHostTransferred) e = .nowhere) (hlog : c'.log = c.log ++ [e])
    (hshown : c'.whereabouts = .nowhere) : Follows rt cbs c c' := by
  refine ⟨[e], hlog, fun w _ => ?_⟩
  rw [List.foldl_cons, List.foldl_nil, he, Client.Shows, hshown]
  exact (ite_self _).symm

theorem whereabouts_connect (c : Client) (useWs : Bool) (sock err : ℤ) :
    (c.connect useWs sock err).1.whereabouts = .nowhere := by
  unfold Client.connect
  dsimp only
  split_ifs <;> rfl

theorem follows_act (c : Client) (a : Act) : Follows rt cbs c (c.act a) := by
  cases a with
  | disconnect => exact .nowhere (fun _ => rfl) rfl rfl
  | connect useWs sock err =>
    have hlog : (c.act (.connect useWs sock err)).log = c.log ++ [.reset] :=
      congrArg (· ++ [Event.reset]) (connect_fields c useWs sock err).2.2
    exact .nowhere (fun _ => rfl) hlog (whereabouts_connect c useWs sock err)
  | leaveRoom =>
    unfold Client.act Client.leaveRoom
    split_ifs
    · exact .nowhere (fun _ => rfl) rfl rfl
    · exact .of_eq rfl rfl rfl
  | send => exact .of_eq rfl rfl rfl

theorem follows_acts (c : Client) (as : List Act) : Follows rt cbs c (as.foldl Client.act c) := by
  induction as generalizing c with
  | nil => exact .of_eq rfl rfl rfl
  | cons a as ih => exact (follows_act c a).trans (ih _)

/-- An event that says nothing. -/
theorem Follows.idle {e : Event} (he : ∀ w : Whereabouts,
    w.enter rt (cbs .onHostTransferred) e = w) (hlog : c'.log = c.log ++ [e])
    (hsocket : c'.socket = c.socket) (hshown : c'.whereabouts = c.whereabouts) :
    Follows rt cbs c c' := by
  refine ⟨[e], hlog, fun w hw => ?_⟩
  rw [List.foldl_cons, List.foldl_nil, he, Client.Shows, hshown, hsocket]
  exact hw

theorem follows_raise (call : Call) (c : Client) : Follows rt cbs c (c.raise cbs acts call) := by
  unfold Client.raise
  split_ifs
  · have hcalled : Follows rt cbs c (c.note (.called call)) := .idle (fun _ => rfl) rfl rfl rfl
    exact hcalled.trans (follows_acts _ _)
  · exact .of_eq rfl rfl rfl

theorem whereabouts_setSession (c : Client) (transfers : Bool) (msg : Message) :
    (c.setSession (msg.update transfers c.session)).whereabouts =
      c.whereabouts.after transfers msg := by
  cases msg with
  | hostTransferred host => cases transfers <;> rfl
  | _ => rfl

/-- A payload is decoded and the message handled. -/
theorem follows_handle {payload : Bytes} {msg : Message}
    (hdecode : decodeServerMessage rt payload = some msg) (hsocket : 0 ≤ c.socket) :
    Follows rt cbs c (Client.handle cbs acts (c.consume payload) msg) := by
  have hwritten : Follows rt cbs c ((c.consume payload).setSession
      (msg.update (cbs .onHostTransferred) (c.consume payload).session)) := by
    refine ⟨[.decoding payload], rfl, fun w hw => ?_⟩
    rw [Client.Shows, if_pos hsocket] at hw
    rw [List.foldl_cons, List.foldl_nil, Whereabouts.enter, hdecode, Client.Shows,
      whereabouts_setSession]
    exact (if_pos hsocket ▸ congrArg (Whereabouts.after (cbs .onHostTransferred) · msg) hw)
  rw [Client.handle_eq]
  cases msg.call with
  | none => exact hwritten
  | some call => exact hwritten.trans (follows_raise acts call _)

theorem follows_compact (total : ℕ) (c : Client) : Follows rt cbs c (c.compact total) := by
  unfold Client.compact
  split_ifs
  · exact .of_eq rfl rfl rfl
  · exact .of_eq rfl rfl rfl

theorem follows_pollFrame (c : Client) : Follows rt cbs c (c.pollFrame rt cbs acts).1 := by
  by_cases hdown : c.socket < 0
  · rw [Client.pollFrame, if_pos hdown]
    exact .of_eq rfl rfl rfl
  have hsocket := Int.not_lt.mp hdown
  rw [Client.pollFrame_eq rt cbs acts hsocket]
  cases head maxFrameLen c.pending with
  | incomplete => exact .of_eq rfl rfl rfl
  | oversized =>
    have hskip : Follows rt cbs c { c with recvReadPos := c.recvBuf.size } := .of_eq rfl rfl rfl
    exact hskip.trans (follows_raise acts _ _)
  | frame payload rest =>
    dsimp only
    cases hdecode : decodeServerMessage rt payload with
    | none =>
      refine .idle (fun w => ?_) rfl rfl rfl
      rw [Whereabouts.enter, hdecode]
      rfl
    | some msg => exact (follows_handle acts hdecode hsocket).trans (follows_compact _ _)

theorem follows_poll (c : Client) : Follows rt cbs c (c.poll rt cbs acts).1 := by
  induction c using Client.poll.induct rt cbs acts with
  | case1 c d hturn ih =>
    have hfirst : Follows rt cbs c (c.pollFrame rt cbs acts).1 := follows_pollFrame acts c
    rw [hturn] at hfirst
    rw [Client.poll_again hturn]
    exact hfirst.trans ih
  | case2 c d hturn =>
    have hfirst : Follows rt cbs c (c.pollFrame rt cbs acts).1 := follows_pollFrame acts c
    rw [hturn] at hfirst
    rw [Client.poll_returned hturn]
    exact hfirst
  | case3 c d hturn =>
    have hfirst : Follows rt cbs c (c.pollFrame rt cbs acts).1 := follows_pollFrame acts c
    rw [hturn] at hfirst
    rw [Client.poll_failed hturn]
    exact hfirst

theorem follows_handleAsync (c : Client) (a : Async) :
    Follows rt cbs c (c.handleAsync cbs acts a) := by
  cases a with
  | nonBlockingConnect succeeded => exact .of_eq rfl rfl rfl
  | disconnect =>
    have hlost : Follows rt cbs c
        { c with connected := false, socket := -1, roomCode := [], peerId := 0, hostPeerId := 0 } :=
      ⟨[], (List.append_nil _).symm, fun _ _ => rfl⟩
    exact hlost.trans (follows_raise acts _ _)
  | data id buffer =>
    unfold Client.handleAsync
    dsimp only
    split_ifs
    · cases buffer with
      | none => exact .of_eq rfl rfl rfl
      | some buffer =>
        have hreceive : Follows rt cbs c (c.receive buffer) := by
          unfold Client.receive
          split_ifs <;> exact .of_eq rfl rfl rfl
        exact hreceive.trans (.idle (fun _ => rfl) rfl rfl rfl)
    · exact .of_eq rfl rfl rfl
  | other => exact .of_eq rfl rfl rfl

theorem follows_step (c : Client) (s : Step) : Follows rt cbs c (c.step rt cbs acts s) := by
  cases s with
  | async a => exact follows_handleAsync acts c a
  | poll => exact follows_poll acts c
  | act a => exact follows_act c a

/-- What a client shows comes of all that has gone on. -/
theorem follows_shows (h : Follows rt cbs .create c) :
    c.Shows (c.log.foldl (Whereabouts.enter rt (cbs .onHostTransferred)) .nowhere) := by
  obtain ⟨es, hlog, hshows⟩ := h
  rw [hlog]
  exact hshows .nowhere rfl

/-- In every run of the GameMaker client, whatever arrives, whatever the program and the callbacks
do and whenever one of them leaves a room: without a socket it shows no room, and with one it shows
what the messages say that were decoded since it was reset last or left a room last, where a
`HostTransferred` says something to a client with `on_host_transferred` only. -/
theorem whereabouts_told (rt : Runtime) (cbs : Callback → Bool) (acts : List Event → List Act)
    (steps : List Step) : (exec (Client.step rt cbs acts) .create steps).Shows
      ((exec (Client.step rt cbs acts) .create steps).log.foldl
        (Whereabouts.enter rt (cbs .onHostTransferred)) .nowhere) :=
  follows_shows <| exec_invariant (I := Follows rt cbs .create)
    (fun c s hc => hc.trans (follows_step acts c s)) (.of_eq rfl rfl rfl) steps

end

/-! ## Clients that stay -/

/-- The payload is a `Joined`. -/
def decodesJoined (rt : Runtime) (payload : Bytes) : Bool :=
  match decodeServerMessage rt payload with
  | some (.joined ..) => true
  | _ => false

/-- Whether a room was left, and none has been joined since. -/
def hasLeft (rt : Runtime) (left : Bool) : Event → Bool
  | .left => true
  | .reset => false
  | .decoding payload => left && !decodesJoined rt payload
  | .received _ | .called _ => left

/-- Since the last `Joined` of the present connection the client has not left a room. -/
def Client.Stays (c : Client) (rt : Runtime) : Prop := c.log.foldl (hasLeft rt) false = false

instance (c : Client) (rt : Runtime) : Decidable (c.Stays rt) := inferInstanceAs (Decidable (_ = _))

/-- The client has decoded payloads and called callbacks, and has the connection that it had. -/
structure Client.Rests (c c' : Client) : Prop where
  socket : c'.socket = c.socket
  log : ∃ es, c'.log = c.log ++ es ∧
    ∀ e ∈ es, (∃ payload, e = .decoding payload) ∨ ∃ call, e = .called call

section
variable {c c' c'' : Client}

theorem Client.Rests.refl (c : Client) : c.Rests c :=
  ⟨rfl, [], (List.append_nil _).symm, fun e he => by cases he⟩

theorem Client.Rests.trans (h : c.Rests c') (h' : c'.Rests c'') : c.Rests c'' := by
  obtain ⟨es, hes, hturns⟩ := h.log
  obtain ⟨es', hes', hturns'⟩ := h'.log
  refine ⟨h'.socket.trans h.socket, es ++ es', ?_, List.forall_mem_append.mpr ⟨hturns, hturns'⟩⟩
  rw [hes', hes, List.append_assoc]

theorem rests_raise (cbs : Callback → Bool) (call : Call) (c : Client) :
    c.Rests (c.raise cbs idle call) := by
  unfold Client.raise
  split_ifs
  · exact ⟨rfl, [.called call], rfl, by simp⟩
  · exact .refl c

theorem rests_handle (cbs : Callback → Bool) (c : Client) (msg : Message) :
    c.Rests (c.handle cbs idle msg) := by
  rw [Client.handle_eq]
  have hset : c.Rests (c.setSession (msg.update (cbs .onHostTransferred) c.session)) :=
    ⟨rfl, (Client.Rests.refl c).log⟩
  cases msg.call with
  | none => exact hset
  | some call => exact hset.trans (rests_raise cbs call _)

theorem rests_compact (total : ℕ) (c : Client) : c.Rests (c.compact total) := by
  unfold Client.compact
  split_ifs <;> exact ⟨rfl, (Client.Rests.refl c).log⟩

variable (rt : Runtime) (cbs : Callback → Bool)

theorem rests_pollFrame (c : Client) : c.Rests (c.pollFrame rt cbs idle).1 := by
  by_cases hdown : c.socket < 0
  · rw [Client.pollFrame, if_pos hdown]
    exact .refl c
  rw [Client.pollFrame_eq rt cbs idle (Int.not_lt.mp hdown)]
  cases head maxFrameLen c.pending with
  | incomplete => exact .refl c
  | oversized =>
    have hskip : c.Rests { c with recvReadPos := c.recvBuf.size } :=
      ⟨rfl, (Client.Rests.refl c).log⟩
    exact hskip.trans (rests_raise cbs _ _)
  | frame payload rest =>
    have hconsume : c.Rests (c.consume payload) := ⟨rfl, [.decoding payload], rfl, by simp⟩
    dsimp only
    cases decodeServerMessage rt payload with
    | none => exact hconsume
    | some msg => exact (hconsume.trans (rests_handle cbs _ msg)).trans (rests_compact _ _)

theorem rests_poll (c : Client) : c.Rests (c.poll rt cbs idle).1 := by
  have hturn : ∀ {c c' : Client} {progress : Client.Progress},
      c.pollFrame rt cbs idle = (c', progress) → c.Rests c' := by
    intro c c' progress h
    have hrests := rests_pollFrame rt cbs c
    rwa [h] at hrests
  induction c using Client.poll.induct rt cbs idle with
  | case1 c c' hagain ih =>
    rw [Client.poll_again hagain]
    exact (hturn hagain).trans ih
  | case2 c c' hreturned =>
    rw [Client.poll_returned hreturned]
    exact hturn hreturned
  | case3 c c' hfailed =>
    rw [Client.poll_failed hfailed]
    exact hturn hfailed

/-- So nothing has arrived meanwhile, and it has not left. -/
theorem Client.Rests.keeps (h : c.Rests c') :
    c'.number = c.number ∧ c'.present.arrived = c.present.arrived ∧ (c.Stays rt → c'.Stays rt) := by
  obtain ⟨es, hes, hturns⟩ := h.log
  rw [Client.number, Client.number, Client.present, Client.present, Client.Stays, Client.Stays, hes]
  clear hes h
  induction es using List.reverseRecOn with
  | nil =>
    rw [List.append_nil]
    exact ⟨rfl, rfl, id⟩
  | append_singleton es e ih =>
    obtain ⟨hnumber, harrived, hstays⟩ := ih fun e he => hturns e (List.mem_append_left _ he)
    rw [← List.append_assoc, tally_concat, List.foldl_append, List.foldl_cons, List.foldl_nil]
    rcases hturns e (by simp) with ⟨payload, rfl⟩ | ⟨call, rfl⟩
    · refine ⟨hnumber, harrived, fun hc => ?_⟩
      rw [hstays hc]
      rfl
    · exact ⟨hnumber, harrived, hstays⟩

end

end Roomie.Gml
