import Roomie.GmlPolling
import Roomie.GuardedRuns

/-!
# Callbacks that do not interfere

Two clients that get the same data and are polled alike, one with these callbacks set and one with
those, and no callback does anything to them. The host of the room is the one field in which they may
come to differ: a `HostTransferred` is written to it only where `on_host_transferred` is set, a
`Joined` always.
-/

namespace Roomie.Gml
open Bincode ByteBuffers Frames GuardedRuns

/-- No callback does anything to the client. -/
def idle : List Event → List Act := fun _ => []

/-- Data arrive, or `roomie_client_poll` is called. -/
inductive Feed where
  | data (id : Option ℤ) (buffer : Option Buffer)
  | poll

/-- The payloads that went to the decoder. -/
def handed (log : List Event) : List Bytes :=
  log.filterMap fun e => match e with
    | .decoding payload => some payload
    | _ => none

def Event.isCall : Event → Bool
  | .called _ => true
  | _ => false

namespace Client
variable (rt : Runtime) (cbs : Callback → Bool)

def feed (c : Client) : Feed → Client
  | .data id buffer => c.handleAsync cbs idle (.data id buffer)
  | .poll => (c.poll rt cbs idle).1

/-- What is left of a client without its host and the calls of callbacks. -/
def bare (c : Client) : Client :=
  { c with hostPeerId := 0, log := c.log.filter (!·.isCall) }

/-! ## What does not depend on callbacks -/

/-- What a message changes, its host apart. -/
def told (c : Client) : Message → Client
  | .joined roomCode peerId _ side _ _ =>
    { c with roomCode := roomCode, peerId := peerId, side := side }
  | _ => c

theorem bare_note (e : Event) (c : Client) :
    (c.note e).bare = if e.isCall then c.bare else c.bare.note e := by
  unfold bare note
  rw [List.filter_append]
  cases e with
  | called call => exact congrArg (Client.mk _ _ _ _ _ _ _ _ _ _) (List.append_nil _)
  | _ => rfl

theorem bare_raise (call : Call) (c : Client) : (raise cbs idle call c).bare = c.bare := by
  unfold raise
  split_ifs
  · exact bare_note (.called call) c
  · rfl

theorem bare_handle (c : Client) (msg : Message) :
    (handle cbs idle c msg).bare = c.bare.told msg := by
  have hset : (c.setSession (msg.update (cbs .onHostTransferred) c.session)).bare =
      c.bare.told msg := by
    cases msg with
    | hostTransferred host => cases cbs .onHostTransferred <;> rfl
    | _ => rfl
  rw [handle_eq]
  cases msg.call with
  | none => exact hset
  | some call => exact (bare_raise cbs call _).trans hset

theorem bare_compact (total : ℕ) (c : Client) : (compact total c).bare = compact total c.bare := by
  by_cases h : 2048 ≤ c.recvReadPos
  · have hbare : 2048 ≤ c.bare.recvReadPos := h
    rw [compact, compact, if_pos h, if_pos hbare]
    rfl
  · have hbare : ¬ 2048 ≤ c.bare.recvReadPos := h
    rw [compact, compact, if_neg h, if_neg hbare]

theorem bare_consume (payload : Bytes) (c : Client) :
    (c.consume payload).bare = c.bare.consume payload := by
  exact bare_note (.decoding payload) _

theorem bare_receive (buffer : Buffer) (c : Client) :
    (c.receive buffer).bare = c.bare.receive buffer := by
  unfold receive
  split_ifs <;> rfl

section
variable {c c' : Client}

/-- Two clients that differ in their hosts and in the calls of callbacks only take the same turn. -/
theorem bare_pollFrame (cbs' : Callback → Bool) (h : c.bare = c'.bare) :
    (pollFrame rt cbs idle c).1.bare = (pollFrame rt cbs' idle c').1.bare ∧
      (pollFrame rt cbs idle c).2 = (pollFrame rt cbs' idle c').2 := by
  have hsock : c.socket = c'.socket := show c.bare.socket = c'.bare.socket from congrArg socket h
  have hbuf : c.recvBuf = c'.recvBuf := show c.bare.recvBuf = c'.bare.recvBuf from congrArg recvBuf h
  have hpending : c.pending = c'.pending :=
    show c.bare.pending = c'.bare.pending from congrArg pending h
  by_cases hdown : c.socket < 0
  · rw [pollFrame, pollFrame, if_pos hdown, if_pos (hsock ▸ hdown)]
    exact ⟨h, rfl⟩
  rw [pollFrame_eq rt cbs idle (Int.not_lt.mp hdown),
    pollFrame_eq rt cbs' idle (hsock ▸ Int.not_lt.mp hdown), hpending]
  cases head maxFrameLen c'.pending with
  | incomplete => exact ⟨h, rfl⟩
  | oversized =>
    refine ⟨?_, rfl⟩
    dsimp only
    rw [bare_raise, bare_raise]
    exact congrArg (fun d : Client => { d with recvReadPos := d.recvBuf.size }) h
  | frame payload rest =>
    dsimp only
    have hconsume : (c.consume payload).bare = (c'.consume payload).bare := by
      rw [bare_consume, bare_consume, h]
    cases decodeServerMessage rt payload with
    | none => exact ⟨hconsume, rfl⟩
    | some msg =>
      refine ⟨?_, rfl⟩
      dsimp only
      rw [bare_compact, bare_compact, bare_handle, bare_handle, hconsume, hbuf]

theorem bare_turn (cbs' : Callback → Bool) (h : c.bare = c'.bare) {d : Client} {p : Progress}
    (hturn : pollFrame rt cbs idle c = (d, p)) :
    ∃ d', pollFrame rt cbs' idle c' = (d', p) ∧ d.bare = d'.bare := by
  obtain ⟨hbare, hprogress⟩ := bare_pollFrame rt cbs cbs' h
  rw [hturn] at hbare hprogress
  exact ⟨_, Prod.ext rfl hprogress.symm, hbare⟩

theorem bare_poll (cbs' : Callback → Bool) (h : c.bare = c'.bare) :
    (poll rt cbs idle c).1.bare = (poll rt cbs' idle c').1.bare := by
  induction c using poll.induct rt cbs idle generalizing c' with
  | case1 c d hturn ih =>
    obtain ⟨d', hturn', hbare⟩ := bare_turn rt cbs cbs' h hturn
    rw [poll_again hturn, poll_again hturn']
    exact ih hbare
  | case2 c d hturn =>
    obtain ⟨d', hturn', hbare⟩ := bare_turn rt cbs cbs' h hturn
    rw [poll_returned hturn, poll_returned hturn']
    exact hbare
  | case3 c d hturn =>
    obtain ⟨d', hturn', hbare⟩ := bare_turn rt cbs cbs' h hturn
    rw [poll_failed hturn, poll_failed hturn']
    exact hbare

theorem bare_feed (cbs' : Callback → Bool) (h : c.bare = c'.bare) (f : Feed) :
    (c.feed rt cbs f).bare = (c'.feed rt cbs' f).bare := by
  cases f with
  | data id buffer =>
    have hsock : c.socket = c'.socket := show c.bare.socket = c'.bare.socket from congrArg socket h
    have haccepts : c.accepts id = c'.accepts id := by rw [accepts, accepts, hsock]
    unfold feed handleAsync
    dsimp only
    rw [haccepts]
    split_ifs
    · cases buffer with
      | none => exact h
      | some buffer =>
        rw [Option.elim_some, Option.elim_some, bare_note, bare_note, bare_receive, bare_receive, h]
    · exact h
  | poll => exact bare_poll rt cbs cbs' h

theorem bare_run (cbs' : Callback → Bool) (h : c.bare = c'.bare) (feeds : List Feed) :
    (exec (feed rt cbs) c feeds).bare = (exec (feed rt cbs') c' feeds).bare := by
  induction feeds generalizing c c' with
  | nil => exact h
  | cons f feeds ih => exact ih (bare_feed rt cbs cbs' h f)

end

/-! ## The host -/

/-- The host after a message, where `on_host_transferred` is set or is not. -/
def hostAfter (transfers : Bool) (host : ℕ) : Naming → ℕ
  | .joined host' => host'
  | .transferred host' => if transfers then host' else host
  | .silent => host

/-- Nothing but a call of the decoder says what went to it. -/
theorem handed_concat {e : Event} (he : ∀ payload, e ≠ .decoding payload) (log : List Event) :
    handed (log ++ [e]) = handed log := by
  unfold handed
  rw [List.filterMap_append]
  cases e with
  | decoding payload => exact absurd rfl (he payload)
  | _ => exact List.append_nil _

theorem handed_raise (call : Call) (c : Client) :
    handed (raise cbs idle call c).log = handed c.log ∧
      (raise cbs idle call c).hostPeerId = c.hostPeerId := by
  unfold raise
  split_ifs
  · exact ⟨handed_concat (by simp) c.log, rfl⟩
  · exact ⟨rfl, rfl⟩

theorem handed_handle (c : Client) (msg : Message) :
    handed (handle cbs idle c msg).log = handed c.log ∧
      (handle cbs idle c msg).hostPeerId =
        hostAfter (cbs .onHostTransferred) c.hostPeerId msg.naming := by
  have hhost : (msg.update (cbs .onHostTransferred) c.session).hostPeerId =
      hostAfter (cbs .onHostTransferred) c.hostPeerId msg.naming := by
    cases msg with
    | hostTransferred host => cases cbs .onHostTransferred <;> rfl
    | _ => rfl
  rw [handle_eq]
  cases msg.call with
  | none => exact ⟨rfl, hhost⟩
  | some call =>
    obtain ⟨hlog, hraised⟩ := handed_raise cbs call
      (c.setSession (msg.update (cbs .onHostTransferred) c.session))
    exact ⟨hlog, hraised.trans hhost⟩

/-- Between two moments some payloads go to the decoder, and the host becomes what they make of
it. -/
def Hears (c c' : Client) : Prop :=
  ∃ ps, handed c'.log = handed c.log ++ ps ∧
    c'.hostPeerId = ((ps.filterMap (decodeServerMessage rt)).map Message.naming).foldl
      (hostAfter (cbs .onHostTransferred)) c.hostPeerId

section
variable {rt cbs} {c c' c'' : Client}

theorem Hears.of_eq (hlog : handed c'.log = handed c.log) (hhost : c'.hostPeerId = c.hostPeerId) :
    Hears rt cbs c c' :=
  ⟨[], hlog.trans (List.append_nil _).symm, hhost⟩

theorem Hears.trans (h : Hears rt cbs c c') (h' : Hears rt cbs c' c'') : Hears rt cbs c c'' := by
  obtain ⟨ps, hlog, hhost⟩ := h
  obtain ⟨qs, hlog', hhost'⟩ := h'
  refine ⟨ps ++ qs, ?_, ?_⟩
  · rw [hlog', hlog, List.append_assoc]
  · rw [hhost', hhost, List.filterMap_append, List.map_append, List.foldl_append]

variable (rt cbs)

theorem hears_pollFrame (c : Client) : Hears rt cbs c (pollFrame rt cbs idle c).1 := by
  by_cases hdown : c.socket < 0
  · rw [pollFrame, if_pos hdown]
    exact .of_eq rfl rfl
  rw [pollFrame_eq rt cbs idle (Int.not_lt.mp hdown)]
  cases head maxFrameLen c.pending with
  | incomplete => exact .of_eq rfl rfl
  | oversized =>
    obtain ⟨hlog, hhost⟩ := handed_raise cbs (.error (utf8 "Frame too large"))
      { c with recvReadPos := c.recvBuf.size }
    exact .of_eq hlog hhost
  | frame payload rest =>
    dsimp only
    have hconsume : handed (c.consume payload).log = handed c.log ++ [payload] :=
      List.filterMap_append
    cases hmsg : decodeServerMessage rt payload with
    | none =>
      refine ⟨[payload], hconsume, ?_⟩
      rw [List.filterMap_cons_none hmsg]
      rfl
    | some msg =>
      dsimp only
      obtain ⟨hlog, hhost⟩ := handed_handle cbs (c.consume payload) msg
      have hcompact : ∀ d : Client, (compact c.recvBuf.size d).log = d.log ∧
          (compact c.recvBuf.size d).hostPeerId = d.hostPeerId := by
        intro d
        unfold compact
        split_ifs <;> exact ⟨rfl, rfl⟩
      refine ⟨[payload], ?_, ?_⟩
      · rw [(hcompact _).1, hlog, hconsume]
      · rw [(hcompact _).2, hhost, List.filterMap_cons_some hmsg]
        rfl

theorem hears_poll (c : Client) : Hears rt cbs c (poll rt cbs idle c).1 := by
  induction c using poll.induct rt cbs idle with
  | case1 c d hturn ih =>
    have hfirst := hears_pollFrame rt cbs c
    rw [hturn] at hfirst
    rw [poll_again hturn]
    exact hfirst.trans ih
  | case2 c d hturn =>
    have hfirst := hears_pollFrame rt cbs c
    rw [hturn] at hfirst
    rw [poll_returned hturn]
    exact hfirst
  | case3 c d hturn =>
    have hfirst := hears_pollFrame rt cbs c
    rw [hturn] at hfirst
    rw [poll_failed hturn]
    exact hfirst

theorem hears_feed (c : Client) (f : Feed) : Hears rt cbs c (c.feed rt cbs f) := by
  cases f with
  | data id buffer =>
    unfold feed handleAsync
    dsimp only
    split_ifs
    · cases buffer with
      | none => exact .of_eq rfl rfl
      | some buffer =>
        have hreceive : (c.receive buffer).log = c.log ∧
            (c.receive buffer).hostPeerId = c.hostPeerId := by
          unfold receive
          split_ifs <;> exact ⟨rfl, rfl⟩
        rw [Option.elim_some]
        refine .of_eq ?_ hreceive.2
        exact (handed_concat (by simp) _).trans (congrArg handed hreceive.1)
    · exact .of_eq rfl rfl
  | poll => exact hears_poll rt cbs c

theorem hears_run (c : Client) (feeds : List Feed) : Hears rt cbs c (exec (feed rt cbs) c feeds) := by
  induction feeds generalizing c with
  | nil => exact .of_eq rfl rfl
  | cons f feeds ih => exact (hears_feed rt cbs c f).trans (ih _)

end

end Client

/-! ## When two clients agree -/

/-- The host that the last `Joined` named, and the one that the last `HostTransferred` after it
named, if there was one. -/
structure HostRecord where
  joined : ℕ
  transferred : Option ℕ

def HostRecord.enter (r : HostRecord) : Naming → HostRecord
  | .joined host => ⟨host, none⟩
  | .transferred host => { r with transferred := some host }
  | .silent => r

/-- The host of a client that `on_host_transferred` is set at, or is not. -/
def HostRecord.shown (transfers : Bool) (r : HostRecord) : ℕ :=
  if transfers then r.transferred.getD r.joined else r.joined

/-- A client with this host gets these messages; some the decoder may not come to the end of. -/
def hostRecord (rt : Runtime) (host : ℕ) (ms : List ServerMessage) : HostRecord :=
  ((ms.filter fun m => (decodeServerMessage rt (serverMessageFormat.write m)).isSome).map
    ServerMessage.naming).foldl HostRecord.enter ⟨host, none⟩

/-- After the last `Joined` the host was not transferred, or it was at last to the one named there. -/
def Settled (rt : Runtime) (host : ℕ) (ms : List ServerMessage) : Prop :=
  ∀ host' ∈ (hostRecord rt host ms).transferred, host' = (hostRecord rt host ms).joined

/-- `room_code`, `peer_id`, `host_peer_id`, `side` and `roomie_client_is_host`. -/
structure SameSession (c c' : Client) : Prop where
  session : c.session = c'.session
  isHost : c.isHost = c'.isHost

theorem foldl_hostAfter (transfers : Bool) (ns : List Naming) (r : HostRecord) :
    ns.foldl (Client.hostAfter transfers) (r.shown transfers) =
      (ns.foldl HostRecord.enter r).shown transfers := by
  induction ns generalizing r with
  | nil => rfl
  | cons n ns ih =>
    rw [List.foldl_cons, List.foldl_cons, ← ih]
    congr 1
    cases transfers <;> cases n <;> rfl

theorem shown_eq_iff (r : HostRecord) (b b' : Bool) :
    r.shown b = r.shown b' ↔ b = b' ∨ ∀ host ∈ r.transferred, host = r.joined := by
  obtain ⟨joined, transferred⟩ := r
  cases b <;> cases b' <;> cases transferred <;> simp [HostRecord.shown, eq_comm]

section
variable {rt : Runtime} {cbs cbs' : Callback → Bool} {ms : List ServerMessage}

/-- What the decoder makes of payloads that come from the server. -/
theorem naming_decoded (hencode : ∀ m ∈ ms, m.encode = some (serverMessageFormat.write m)) :
    ((ms.map serverMessageFormat.write).filterMap (decodeServerMessage rt)).map Message.naming =
      (ms.filter fun m => (decodeServerMessage rt (serverMessageFormat.write m)).isSome).map
        ServerMessage.naming := by
  induction ms with
  | nil => rfl
  | cons m ms ih =>
    obtain ⟨hm, hms⟩ := List.forall_mem_cons.mp hencode
    rw [List.map_cons]
    cases hmsg : decodeServerMessage rt (serverMessageFormat.write m) with
    | none =>
      rw [List.filterMap_cons_none hmsg, List.filter_cons_of_neg (by simp [hmsg])]
      exact ih hms
    | some msg =>
      rw [List.filterMap_cons_some hmsg, List.filter_cons_of_pos (by simp [hmsg]), List.map_cons,
        List.map_cons, naming_decode hm hmsg, ih hms]

/-- The host that a run ends with. -/
theorem host_run (hencode : ∀ m ∈ ms, m.encode = some (serverMessageFormat.write m)) {c c' : Client}
    (h : Client.Hears rt cbs c c')
    (hprocessed : handed c'.log = handed c.log ++ ms.map serverMessageFormat.write) :
    c'.hostPeerId = (hostRecord rt c.hostPeerId ms).shown (cbs .onHostTransferred) := by
  obtain ⟨ps, hlog, hhost⟩ := h
  have hstart : HostRecord.shown (cbs .onHostTransferred) ⟨c.hostPeerId, none⟩ = c.hostPeerId :=
    ite_self _
  obtain rfl : ps = ms.map serverMessageFormat.write :=
    List.append_cancel_left (hlog.symm.trans hprocessed)
  rw [hhost, naming_decoded hencode, ← hstart, foldl_hostAfter, hstart]
  rfl

/-- The calls of callbacks do not tell which payloads were decoded. -/
theorem handed_bare (c : Client) : handed c.bare.log = handed c.log := by
  change handed (c.log.filter (!·.isCall)) = handed c.log
  unfold handed
  rw [List.filterMap_filter]
  congr 1
  funext e
  cases e <;> rfl

/-- The host is all that they can differ in. -/
theorem sameSession_iff {c c' : Client} (h : c.bare = c'.bare) :
    SameSession c c' ↔ c.hostPeerId = c'.hostPeerId := by
  have hcode : c.roomCode = c'.roomCode :=
    show c.bare.roomCode = c'.bare.roomCode from congrArg Client.roomCode h
  have hpeer : c.peerId = c'.peerId :=
    show c.bare.peerId = c'.bare.peerId from congrArg Client.peerId h
  have hside : c.side = c'.side := show c.bare.side = c'.bare.side from congrArg Client.side h
  constructor
  · intro hsame
    exact congrArg Session.hostPeerId hsame.session
  · intro hhost
    constructor
    · rw [Client.session, Client.session, hcode, hpeer, hhost, hside]
    · rw [Client.isHost, Client.isHost, hpeer, hhost]

variable (rt cbs cbs')

/-- Two clients that start alike, get the same data and are polled alike process the same messages.
Afterwards they show the same session exactly if `on_host_transferred` is set at both or at neither,
or what was transferred after the last `Joined` has come back to the host named there. -/
theorem sessions_agree_iff (c : Client) (feeds : List Feed)
    (hencode : ∀ m ∈ ms, m.encode = some (serverMessageFormat.write m))
    (hprocessed : handed (exec (Client.feed rt cbs) c feeds).log =
      handed c.log ++ ms.map serverMessageFormat.write) :
    handed (exec (Client.feed rt cbs') c feeds).log =
        handed c.log ++ ms.map serverMessageFormat.write ∧
      (SameSession (exec (Client.feed rt cbs) c feeds) (exec (Client.feed rt cbs') c feeds) ↔
        cbs .onHostTransferred = cbs' .onHostTransferred ∨ Settled rt c.hostPeerId ms) := by
  have hbare := Client.bare_run rt cbs cbs' (Eq.refl c.bare) feeds
  have hprocessed' : handed (exec (Client.feed rt cbs') c feeds).log =
      handed c.log ++ ms.map serverMessageFormat.write := by
    rw [← handed_bare, ← hbare, handed_bare, hprocessed]
  have hhost := host_run hencode (Client.hears_run rt cbs c feeds) hprocessed
  have hhost' := host_run hencode (Client.hears_run rt cbs' c feeds) hprocessed'
  refine ⟨hprocessed', ?_⟩
  rw [sameSession_iff hbare, Settled, ← shown_eq_iff, ← hhost, ← hhost']

end

/-! ## A guest that becomes the host -/

/-- A connection that nothing has been received on. -/
def connectedClient : Client :=
  ⟨1, true, false, [], 0, 0, 0, "", ⟨.grow, [], 0⟩, 0, []⟩

/-- The client gets the id 2 in a room whose host is the peer 1, and becomes the host. -/
def promotion : List ServerMessage :=
  [.joined ⟨"AAAAAA"⟩ 2 1 0 .default none, .roomEvent (.hostTransferred 2)]

/-- Both messages arrive in one data event. -/
def promotionFrames : Buffer :=
  ⟨.fixed, (promotion.map serverMessageFormat.write).flatMap frame, 0⟩

def promotionFeeds : List Feed := [.data (some 1) (some promotionFrames), .poll]

/-- A runner that reports an error for every read past the end. -/
def runner : Runtime := ⟨64, fun _ _ _ => none, fun _ _ => none⟩

theorem promotion_encoded : ∀ m ∈ promotion, m.encode = some (serverMessageFormat.write m) := by
  intro m hm
  have hlen : ∀ m ∈ promotion, (serverMessageFormat.write m).length ≤ maxFrameLen := by
    decide +kernel
  exact if_pos (hlen m hm)

/-- Two frames are consumed, then no bytes are left. -/
theorem promotion_polled (cbs : Callback → Bool) {c₁ c₂ c₃ : Client}
    (h₁ : Client.pollFrame runner cbs idle ((connectedClient.receive promotionFrames).note
      (.received promotionFrames.bytes)) = (c₁, .again))
    (h₂ : Client.pollFrame runner cbs idle c₁ = (c₂, .again))
    (h₃ : Client.pollFrame runner cbs idle c₂ = (c₃, .returned)) :
    exec (Client.feed runner cbs) connectedClient promotionFeeds = c₃ := by
  change (Client.poll runner cbs idle ((connectedClient.receive promotionFrames).note
    (.received promotionFrames.bytes))).1 = c₃
  rw [Client.poll_again h₁, Client.poll_again h₂, Client.poll_returned h₃]

/-- With all callbacks set the client takes note. -/
theorem promotion_seen :
    (exec (Client.feed runner fun _ => true) connectedClient promotionFeeds).hostPeerId = 2 ∧
      handed (exec (Client.feed runner fun _ => true) connectedClient promotionFeeds).log =
        handed connectedClient.log ++ promotion.map serverMessageFormat.write := by
  rw [promotion_polled (fun _ => true) (Prod.ext rfl (by decide +kernel))
    (Prod.ext rfl (by decide +kernel)) (Prod.ext rfl (by decide +kernel))]
  decide +kernel

/-- With no callbacks set it does not. -/
theorem promotion_missed :
    (exec (Client.feed runner fun _ => false) connectedClient promotionFeeds).hostPeerId = 1 := by
  rw [promotion_polled (fun _ => false) (Prod.ext rfl (by decide +kernel))
    (Prod.ext rfl (by decide +kernel)) (Prod.ext rfl (by decide +kernel))]
  decide +kernel

/-- One callback is enough to agree with all of them. -/
theorem promotion_agreed :
    SameSession (exec (Client.feed runner fun _ => true) connectedClient promotionFeeds)
      (exec (Client.feed runner fun cb => cb = .onHostTransferred) connectedClient promotionFeeds) :=
  (sessions_agree_iff runner (fun _ => true) (fun cb => cb = .onHostTransferred) connectedClient
    promotionFeeds promotion_encoded promotion_seen.2).2.mpr (.inl rfl)

/-- With none the client does not know that it is the host. -/
theorem promotion_unknown : ¬ ∀ (rt : Runtime) (cbs cbs' : Callback → Bool) (c : Client)
    (feeds : List Feed) (ms : List ServerMessage),
    (∀ m ∈ ms, m.encode = some (serverMessageFormat.write m)) →
      handed (exec (Client.feed rt cbs) c feeds).log =
        handed c.log ++ ms.map serverMessageFormat.write →
      SameSession (exec (Client.feed rt cbs) c feeds) (exec (Client.feed rt cbs') c feeds) := by
  intro h
  have hsame := h runner (fun _ => true) (fun _ => false) connectedClient promotionFeeds promotion
    promotion_encoded promotion_seen.2
  have hhost := congrArg Session.hostPeerId hsame.session
  change (exec (Client.feed runner fun _ => true) connectedClient promotionFeeds).hostPeerId =
    (exec (Client.feed runner fun _ => false) connectedClient promotionFeeds).hostPeerId at hhost
  rw [promotion_seen.1, promotion_missed] at hhost
  cases hhost

end Roomie.Gml
