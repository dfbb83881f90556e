import Roomie.RateWindows
import Roomie.Transports

/-!
# The rate limit of a connection

Both loops count the frames they take in windows of one second and leave off at the first frame
beyond `RATE_LIMIT_MAX`. Over TCP every frame is counted before it is looked at. The WebSocket loop
looks at the frame in a binary message first, and a message that is no frame is answered with an
error without being counted.
-/

namespace Roomie.RateLimits
open Bincode Frames Transports GuardedRuns RateWindows

variable {me : ConnId} {ι σ : Type}

/-- What happens to a connection, well-formed or not: something arrives, the stream ends, a branch
of `select!` is taken at the time that the clock shows, another connection acts. -/
inductive Happening (me : ConnId) (ι : Type) where
  | arrives (x : ι)
  | ends
  | incoming (env : Env) (now later : ℕ)
  | outgoing (env : Env) (sent : Bool)
  | idle (env : Env) (now : ℕ)
  | other (a : Action) (foreign : a.conn ≠ me)

/-- Bytes arrive in any pieces, whatever they are. -/
def tcp (c : Tcp) : Happening me Bytes → Tcp
  | .arrives data => if c.ended then c else { c with buf := c.buf ++ data }
  | .ends => { c with ended := true }
  | .incoming env now later => if c.loop.isOpen then c.incoming me env now later else c
  | .outgoing env sent => if c.loop.isOpen then c.outgoing me env sent else c
  | .idle env now => if c.loop.isOpen then c.idle me env now else c
  | .other a _ => { c with loop := c.loop.others me a }

/-- Messages of any kind arrive. -/
def ws (c : Ws) : Happening me WsMessage → Ws
  | .arrives msg => if c.ended then c else { c with inbox := c.inbox ++ [msg] }
  | .ends => { c with ended := true }
  | .incoming env now later => if c.loop.isOpen then c.incoming me env now later else c
  | .outgoing env sent => if c.loop.isOpen then c.outgoing me env sent else c
  | .idle env now => if c.loop.isOpen then c.idle me env now else c
  | .other a _ => { c with loop := c.loop.others me a }

/-- The clock does not go back from one frame to the next. -/
def Chronological : ℕ → List (Happening me ι) → Prop
  | _, [] => True
  | since, .incoming _ now _ :: rest => since ≤ now ∧ Chronological now rest
  | since, _ :: rest => Chronological since rest

/-- Something was dispatched, or put on the queue. -/
def answered (l l' : Loop) : Bool :=
  l.seen.dispatched.length < l'.seen.dispatched.length ||
    l.seen.enqueued.length < l'.seen.enqueued.length

/-- A frame: a length within the limit, and a payload of this length. -/
def isFrame (data : Bytes) : Bool :=
  4 ≤ data.length && ofLittleEndian (data.take 4) ≤ maxFrameLen &&
    data.length = 4 + ofLittleEndian (data.take 4)

/-- The message that is taken next is binary and no frame. -/
def misframed (c : Ws) : Bool :=
  c.loop.isOpen && match c.inbox with
    | .binary data :: _ => !isFrame data
    | _ => false

/-- A connection with the times of the frames that were answered, and of the binary messages taken
that were no frames. -/
structure Watched (σ : Type) where
  conn : σ
  answers : List ℕ
  misframes : List ℕ

section
variable (handle : σ → Happening me ι → σ) (loop : σ → Loop) (bad : σ → Bool)

def watch (w : Watched σ) (h : Happening me ι) : Watched σ where
  conn := handle w.conn h
  answers := w.answers ++ match h with
    | .incoming _ now _ => if answered (loop w.conn) (loop (handle w.conn h)) then [now] else []
    | _ => []
  misframes := w.misframes ++ match h with
    | .incoming _ now _ => if bad w.conn then [now] else []
    | _ => []

end

def watchTcp : Watched Tcp → Happening me Bytes → Watched Tcp :=
  watch tcp Tcp.loop fun _ => false

def watchWs : Watched Ws → Happening me WsMessage → Watched Ws :=
  watch ws Ws.loop misframed

/-! ## What one event does to the window -/

def window (l : Loop) : Window := ⟨l.rateWindowStart, l.rateCount⟩

/-- What the branch of a frame may do: answer nothing and leave the window, answer something that is
no frame, or count the frame and answer it only within the limit. -/
inductive Spends (bad : Bool) (now : ℕ) (l l' : Loop) : Prop
  | nothing (same : window l' = window l) (quiet : answered l l' = false)
  | uncounted (same : window l' = window l) (misframe : bad = true)
  | counted (tick : window l' = (window l).tick rateLimitWindow now)
      (few : answered l l' = true → (window l').count ≤ rateLimitMax)

theorem window_others (a : Action) (l : Loop) : window (l.others me a) = window l := by
  unfold Loop.others
  split_ifs <;> rfl

theorem answered_self {l l' : Loop} (h : l'.seen.dispatched = l.seen.dispatched)
    (h' : l'.seen.enqueued = l.seen.enqueued) : answered l l' = false := by
  simp [answered, h, h']

/-- The loop after the frame was counted. -/
def counted (now : ℕ) (l : Loop) : Loop :=
  let l := if rateLimitWindow ≤ now - l.rateWindowStart then
    { l with rateCount := 0, rateWindowStart := now } else l
  { l with rateCount := l.rateCount + 1 }

theorem window_counted (now : ℕ) (l : Loop) :
    window (counted now l) = (window l).tick rateLimitWindow now := by
  unfold counted window Window.tick
  split_ifs <;> rfl

/-- Counting touches nothing but the window. -/
theorem counted_eq (now : ℕ) (l : Loop) : counted now l =
    { l with
      rateCount := (counted now l).rateCount
      rateWindowStart := (counted now l).rateWindowStart } := by
  unfold counted
  split_ifs <;> rfl

theorem seen_counted (now : ℕ) (l : Loop) : (counted now l).seen = l.seen :=
  (congrArg Loop.seen (counted_eq now l) :)

theorem receive_eq (env : Env) (now later : ℕ) (payload : Bytes) (l : Loop) :
    Tcp.receive me env now later payload l =
      if rateLimitMax < (counted now l).rateCount then (counted now l).close me env .rateLimit
      else match ClientMessage.decode payload with
        | none => (counted now l).report me env "invalid message"
        | some msg => { counted now l with
            idleDeadline := later + connectionIdleTimeout }.dispatch me env msg := rfl

/-- A frame is counted before anything else, and answered only within the limit. -/
theorem receive_spends (env : Env) (now later : ℕ) (payload : Bytes) (l : Loop) (bad : Bool) :
    Spends bad now l (Tcp.receive me env now later payload l) := by
  rw [receive_eq]
  split_ifs with hmany
  · refine .counted (window_counted now l) fun h => ?_
    have hseen := seen_counted now l
    have hdispatched : (counted now l).seen.dispatched = l.seen.dispatched := by rw [hseen]
    have henqueued : (counted now l).seen.enqueued = l.seen.enqueued := by rw [hseen]
    have hquiet : answered l ((counted now l).close me env .rateLimit) = false :=
      answered_self hdispatched henqueued
    rw [hquiet] at h
    exact absurd h Bool.false_ne_true
  · have hfew : (window (counted now l)).count ≤ rateLimitMax := Nat.not_lt.mp hmany
    cases ClientMessage.decode payload with
    | none => exact .counted (window_counted now l) fun _ => hfew
    | some msg => exact .counted (window_counted now l) fun _ => hfew

theorem ws_receive_eq (env : Env) (now later : ℕ) (data : Bytes) (l : Loop) :
    Ws.receive me env now later data l =
      if data.length < 4 then l.report me env "frame too short"
      else if maxFrameLen < ofLittleEndian (data.take 4) ∨
          data.length ≠ 4 + ofLittleEndian (data.take 4) then
        l.report me env "invalid frame length"
      else Tcp.receive me env now later (data.drop 4) l := rfl

/-- The checks of the WebSocket loop come before the counter. -/
theorem ws_receive_spends (env : Env) (now later : ℕ) (data : Bytes) (l : Loop) :
    Spends (!isFrame data) now l (Ws.receive me env now later data l) := by
  rw [ws_receive_eq]
  split_ifs with hshort hlen
  · refine .uncounted rfl ?_
    simp [isFrame, hshort]
  · refine .uncounted rfl ?_
    rw [Bool.not_eq_true', isFrame, Bool.eq_false_iff]
    intro h
    simp only [Bool.and_eq_true, decide_eq_true_eq] at h
    omega
  · exact receive_spends env now later (data.drop 4) l _

theorem Spends.refl (bad : Bool) (now : ℕ) (l : Loop) : Spends bad now l l :=
  .nothing rfl (answered_self rfl rfl)

theorem Spends.close (bad : Bool) (now : ℕ) (env : Env) (reason : Reason) (l : Loop) :
    Spends bad now l (l.close me env reason) :=
  .nothing rfl (answered_self rfl rfl)

theorem tcp_incoming_spends (env : Env) (now later : ℕ) (c : Tcp) (bad : Bool) :
    Spends bad now c.loop (c.incoming me env now later).loop := by
  unfold Tcp.incoming
  split
  · exact receive_spends env now later _ c.loop bad
  · exact .close ..
  · split_ifs
    · exact .close ..
    · exact .close ..
    · exact .refl ..

theorem ws_incoming_spends (env : Env) (now later : ℕ) (c : Ws) (hopen : c.loop.isOpen = true) :
    Spends (misframed c) now c.loop (c.incoming me env now later).loop := by
  unfold Ws.incoming misframed
  rw [hopen]
  cases c.inbox with
  | nil =>
    dsimp only
    split_ifs
    · exact .close ..
    · exact .refl ..
  | cons msg rest =>
    cases msg with
    | binary data => exact ws_receive_spends env now later data c.loop
    | error => exact .close ..
    | text data => exact .refl ..
    | ping => exact .refl ..
    | pong => exact .refl ..
    | close => exact .refl ..

/-! ## What a run keeps -/

/-- The answers given by now: beside those to frames that were counted only those to messages that
are no frames. -/
def Limited (loop : σ → Loop) (since : ℕ) (w : Watched σ) : Prop :=
  (window (loop w.conn)).start ≤ since ∧
    ∃ frames, Paced rateLimitWindow rateLimitMax (window (loop w.conn)) frames ∧
      ∀ t, hits rateLimitWindow t w.answers ≤
        hits rateLimitWindow t frames + hits rateLimitWindow t w.misframes

theorem rateLimitWindow_pos : 0 < rateLimitWindow := by decide

section
variable {handle : σ → Happening me ι → σ} {loop : σ → Loop} {bad : σ → Bool} {w : Watched σ}
  {since : ℕ}

theorem Limited.same {w' : Watched σ} (h : Limited loop since w)
    (hwindow : window (loop w'.conn) = window (loop w.conn)) (hanswers : w'.answers = w.answers)
    (hmisframes : w'.misframes = w.misframes) : Limited loop since w' := by
  unfold Limited
  rw [hwindow, hanswers, hmisframes]
  exact h

/-- One branch of a frame. -/
theorem Limited.incoming (env : Env) {now : ℕ} (later : ℕ) (h : Limited loop since w)
    (hnow : since ≤ now)
    (hspends : Spends (bad w.conn) now (loop w.conn) (loop (handle w.conn (.incoming env now later)))) :
    Limited loop now (watch handle loop bad w (.incoming env now later)) := by
  obtain ⟨hstart, frames, hpaced, hbound⟩ := h
  have hbegun := Nat.le_trans hstart hnow
  unfold Limited watch
  dsimp only
  cases hspends with
  | nothing same quiet =>
    rw [same, quiet, if_neg Bool.false_ne_true, List.append_nil]
    refine ⟨hbegun, frames, hpaced, fun t => ?_⟩
    have hle := hbound t
    rw [hits_append]
    omega
  | uncounted same misframe =>
    rw [same, misframe, if_pos rfl]
    refine ⟨hbegun, frames, hpaced, fun t => ?_⟩
    have hle := hbound t
    rw [hits_append, hits_append]
    split_ifs
    · omega
    · rw [hits_nil]
      omega
  | counted tick few =>
    obtain ⟨htick, -, -⟩ := tick_bounds rateLimitWindow_pos hbegun
    rw [tick] at few ⊢
    cases hanswered : answered (loop w.conn) (loop (handle w.conn (.incoming env now later))) with
    | false =>
      rw [if_neg Bool.false_ne_true, List.append_nil]
      refine ⟨htick, frames, hpaced.tick rateLimitWindow_pos, fun t => ?_⟩
      have hle := hbound t
      rw [hits_append]
      omega
    | true =>
      rw [if_pos rfl]
      refine ⟨htick, frames ++ [now],
        hpaced.admit rateLimitWindow_pos hbegun (few hanswered), fun t => ?_⟩
      have hle := hbound t
      rw [hits_append, hits_append, hits_append]
      omega

/-- A run in which each branch of a frame does what it may, and nothing else moves the window. -/
theorem Limited.run
    (hframe : ∀ c env now later, Spends (bad c) now (loop c) (loop (handle c (.incoming env now later))))
    (hrest : ∀ c (h : Happening me ι), (∀ env now later, h ≠ .incoming env now later) →
      window (loop (handle c h)) = window (loop c))
    (h : Limited loop since w) {hs : List (Happening me ι)} (hclock : Chronological since hs) :
    ∃ last, Limited loop last (exec (watch handle loop bad) w hs) := by
  induction hs generalizing w since with
  | nil => exact ⟨since, h⟩
  | cons e hs ih =>
    cases e with
    | incoming env now later =>
      exact ih (h.incoming env later hclock.1 (hframe w.conn env now later)) hclock.2
    | _ =>
      exact ih (h.same (hrest _ _ (fun _ _ _ => nofun)) (List.append_nil _) (List.append_nil _))
        hclock

end

theorem tcp_spends (c : Tcp) (env : Env) (now later : ℕ) :
    Spends false now c.loop (tcp c (.incoming env now later : Happening me Bytes)).loop := by
  simp only [tcp]
  split_ifs
  · exact tcp_incoming_spends env now later c false
  · exact .refl ..

theorem ws_spends (c : Ws) (env : Env) (now later : ℕ) :
    Spends (misframed c) now c.loop (ws c (.incoming env now later : Happening me WsMessage)).loop := by
  simp only [ws]
  split_ifs with hopen
  · exact ws_incoming_spends env now later c hopen
  · exact .refl ..

theorem tcp_window (c : Tcp) (h : Happening me Bytes)
    (hrest : ∀ env now later, h ≠ .incoming env now later) :
    window (tcp c h).loop = window c.loop := by
  cases h with
  | arrives data =>
    simp only [tcp]
    split_ifs <;> rfl
  | ends => rfl
  | incoming env now later => exact absurd rfl (hrest env now later)
  | outgoing env sent =>
    simp only [tcp]
    split_ifs
    · obtain ⟨l, frames, hsends, heq⟩ := Tcp.outgoing_sends me env sent c
      rw [heq]
      cases hsends <;> rfl
    · rfl
  | idle env now =>
    simp only [tcp, Tcp.idle]
    split_ifs <;> rfl
  | other a foreign => exact window_others a c.loop

theorem ws_window (c : Ws) (h : Happening me WsMessage)
    (hrest : ∀ env now later, h ≠ .incoming env now later) :
    window (ws c h).loop = window c.loop := by
  cases h with
  | arrives msg =>
    simp only [ws]
    split_ifs <;> rfl
  | ends => rfl
  | incoming env now later => exact absurd rfl (hrest env now later)
  | outgoing env sent =>
    simp only [ws]
    split_ifs
    · obtain ⟨l, frames, hsends, heq⟩ := Ws.outgoing_sends me env sent c
      rw [heq]
      cases hsends <;> rfl
    · rfl
  | idle env now =>
    simp only [ws, Ws.idle]
    split_ifs <;> rfl
  | other a foreign => exact window_others a c.loop

theorem limited_start {loop : σ → Loop} {conn : σ} {later : ℕ}
    (h : window (loop conn) = ⟨later, 0⟩) : Limited loop later ⟨conn, [], []⟩ := by
  refine ⟨?_, [], paced_nil _, fun t => Nat.zero_le _⟩
  rw [h]

/-- What is no frame costs nothing, so it adds to what a second may have. -/
theorem Limited.hits_le {loop : σ → Loop} {since : ℕ} {w : Watched σ} (h : Limited loop since w)
    (t : ℕ) : hits rateLimitWindow t w.answers ≤
      2 * rateLimitMax + hits rateLimitWindow t w.misframes := by
  obtain ⟨-, frames, hpaced, hbound⟩ := h
  exact Nat.le_trans (hbound t) (Nat.add_le_add_right (hpaced.sparse t) _)

/-- Over TCP there is nothing that is not counted. -/
theorem tcp_misframes (w : Watched Tcp) (hs : List (Happening me Bytes)) (h : w.misframes = []) :
    (exec watchTcp w hs).misframes = [] := by
  refine exec_invariant (I := fun w : Watched Tcp => w.misframes = []) (fun w e hw => ?_) h hs
  change w.misframes ++ _ = []
  rw [hw, List.nil_append]
  cases e <;> rfl

/-- In no second more than `2 * RATE_LIMIT_MAX` of the frames that arrive are answered: over TCP
whatever arrives, over WebSocket if no binary message that is taken in this second fails to be a
frame. -/
theorem answers_limited (me : ConnId) (sys : Sys) (now later t : ℕ) :
    (∀ hs : List (Happening me Bytes), Chronological later hs →
      hits rateLimitWindow t (exec watchTcp ⟨.start sys now later, [], []⟩ hs).answers ≤
        2 * rateLimitMax) ∧
    ∀ hs : List (Happening me WsMessage), Chronological later hs →
      (∀ x ∈ (exec watchWs ⟨.start sys now later, [], []⟩ hs).misframes,
        ¬ (t ≤ x ∧ x ≤ t + rateLimitWindow)) →
      hits rateLimitWindow t (exec watchWs ⟨.start sys now later, [], []⟩ hs).answers ≤
        2 * rateLimitMax := by
  constructor
  · intro hs hclock
    have hstart : Limited Tcp.loop later ⟨.start sys now later, [], []⟩ := limited_start rfl
    obtain ⟨last, hlimited⟩ : ∃ last, Limited Tcp.loop last
        (exec watchTcp ⟨.start sys now later, [], []⟩ hs) := hstart.run tcp_spends tcp_window hclock
    have hle := hlimited.hits_le t
    rwa [tcp_misframes _ hs rfl] at hle
  · intro hs hclock hframes
    have hstart : Limited Ws.loop later ⟨.start sys now later, [], []⟩ := limited_start rfl
    obtain ⟨last, hlimited⟩ : ∃ last, Limited Ws.loop last
        (exec watchWs ⟨.start sys now later, [], []⟩ hs) := hstart.run ws_spends ws_window hclock
    have hle := hlimited.hits_le t
    have hnone : hits rateLimitWindow t
        (exec watchWs ⟨.start sys now later, [], []⟩ hs).misframes = 0 := by
      apply List.countP_eq_zero.mpr
      intro x hx hin
      exact hframes x hx (of_decide_eq_true hin)
    rwa [hnone] at hle

/-- A ping arrives and is taken at five seconds. -/
def ping : List (Happening 0 WsMessage) :=
  [.arrives (.binary (frame [5])), .incoming Env.quiet 5000 5000]

/-- Another one follows in the same window, and one in the next. -/
def pings : List (Happening 0 WsMessage) :=
  ping ++ [.arrives (.binary (frame [5])), .incoming Env.quiet 5900 5900,
    .arrives (.binary (frame [5])), .incoming Env.quiet 6000 6000]

/-- The second from the first ping on lies in two windows. -/
theorem ping_limited :
    (exec watchWs ⟨.start .start 0 0, [], []⟩ pings).conn.loop.rateCount = 1 ∧
    hits rateLimitWindow 5000 (exec watchWs ⟨.start .start 0 0, [], []⟩ pings).answers = 3 ∧
    hits rateLimitWindow 5000 (exec watchWs ⟨.start .start 0 0, [], []⟩ pings).answers ≤
      2 * rateLimitMax :=
  ⟨by decide, by decide, (answers_limited 0 .start 0 0 5000).2 pings
    ⟨by decide, by decide, by decide, trivial⟩ (by decide)⟩

/-! ## Messages that are no frames -/

/-- An empty binary message arrives and is taken at time 0, and the answer is sent. -/
def short : List (Happening 0 WsMessage) :=
  [.arrives (.binary []), .incoming Env.quiet 0 0, .outgoing Env.quiet true]

/-- Nothing waits to be taken or sent. -/
structure Idle (c : Ws) : Prop where
  isOpen : c.loop.isOpen = true
  inbox : c.inbox = []
  ended : c.ended = false
  rx : c.loop.rx = []

theorem short_answered {w : Watched Ws} (h : Idle w.conn) :
    Idle (exec watchWs w short).conn ∧ (exec watchWs w short).answers = w.answers ++ [0] := by
  obtain ⟨⟨inbox, ended, sent, ⟨sys, rx, deadline, count, start, ⟨dispatched, enqueued, closed⟩⟩⟩,
    answers, misframes⟩ := w
  obtain ⟨hopen, hinbox, hended, hrx⟩ := h
  dsimp only at hopen hinbox hended hrx
  subst hinbox hended hrx
  obtain rfl : closed = none := Option.isNone_iff_eq_none.mp hopen
  have hanswered : answered ⟨sys, [], deadline, count, start, ⟨dispatched, enqueued, none⟩⟩
      ⟨sys, [.error "frame too short"], deadline, count, start,
        ⟨dispatched, enqueued ++ [.error "frame too short"], none⟩⟩ = true := by
    simp [answered]
  refine ⟨⟨rfl, rfl, rfl, rfl⟩, ?_⟩
  change answers ++ [] ++ (if answered _ _ = true then [0] else []) ++ [] = answers ++ [0]
  rw [List.append_nil, List.append_nil]
  exact congrArg (answers ++ ·) (if_pos hanswered)

/-- So many of them, one after another. -/
def shorts (n : ℕ) : List (Happening 0 WsMessage) := (List.replicate n short).flatten

theorem chronological_shorts (n : ℕ) : Chronological 0 (shorts n) := by
  induction n with
  | zero => trivial
  | succ n ih => exact ⟨le_rfl, ih⟩

theorem shorts_answered (n : ℕ) {w : Watched Ws} (h : Idle w.conn) :
    (exec watchWs w (shorts n)).answers = w.answers ++ List.replicate n 0 := by
  induction n generalizing w with
  | zero => exact (List.append_nil _).symm
  | succ n ih =>
    obtain ⟨hidle, hanswers⟩ := short_answered h
    have hrest := ih hidle
    rw [hanswers, List.append_assoc] at hrest
    exact hrest

/-- 401 empty messages within one second are all answered. -/
theorem short_messages_not_limited :
    Chronological 0 (shorts 401) ∧ 2 * rateLimitMax <
      hits rateLimitWindow 0 (exec watchWs ⟨.start .start 0 0, [], []⟩ (shorts 401)).answers := by
  refine ⟨chronological_shorts 401, ?_⟩
  rw [shorts_answered 401 ⟨rfl, rfl, rfl, rfl⟩, List.nil_append, hits, List.countP_replicate]
  decide

end Roomie.RateLimits
