import Roomie.RateLimits
import Roomie.Seats

/-!
# Silent connections and closed ones

Both loops are left when nothing was dispatched for `CONNECTION_IDLE_TIMEOUT`; frames that cannot be
decoded, and everything the server sends, do not count. Whatever a loop is left for, `leave_room` is
called for its session, so that a connection that is gone has no seat.
-/

namespace Roomie.SilentConnections
open Bincode Frames GuardedRuns RateLimits Seats Transports

variable {me : ConnId} {ι σ : Type}

/-! ## What an event does to the loop -/

/-- Nothing that matters here, the dispatch of a message, the end of the loop, or an action of
another connection. The branch of the deadline ends the loop from the deadline on, and nothing else
ends it for silence. -/
inductive LoopStep (h : RateLimits.Happening me ι) (l l' : Loop) : Prop
  | still (sys : l'.sys = l.sys) (dispatched : l'.seen.dispatched = l.seen.dispatched)
      (closed : l'.seen.closed = l.seen.closed) (deadline : l'.idleDeadline = l.idleDeadline)
      (early : ∀ env now, h = .idle env now → l.isOpen = true → now < l.idleDeadline)
  | heard {env : Env} {now later : ℕ} {msg : ClientMessage} (event : h = .incoming env now later)
      (isOpen : l.isOpen = true) (sys : l'.sys = step l.sys ⟨env, me, .message msg⟩)
      (dispatched : l'.seen.dispatched = l.seen.dispatched ++ [(l.sys.session me, msg)])
      (closed : l'.seen.closed = l.seen.closed)
      (deadline : l'.idleDeadline = later + connectionIdleTimeout)
  | left {env : Env} {reason : Reason} (isOpen : l.isOpen = true)
      (sys : l'.sys = step l.sys ⟨env, me, .disconnect⟩)
      (dispatched : l'.seen.dispatched = l.seen.dispatched)
      (closed : l'.seen.closed = some (reason, l.sys.session me))
      (deadline : l'.idleDeadline = l.idleDeadline)
      (silent : reason = .idle ↔ ∃ env now, h = .idle env now ∧ l.idleDeadline ≤ now)
  | others {a : Action} {foreign : a.conn ≠ me} (event : h = .other a foreign)
      (sys : l'.sys = step l.sys a) (dispatched : l'.seen.dispatched = l.seen.dispatched)
      (closed : l'.seen.closed = l.seen.closed) (deadline : l'.idleDeadline = l.idleDeadline)

section
variable {l l' : Loop} {env : Env} {now later : ℕ}

theorem LoopStep.refl {h : RateLimits.Happening me ι} (hidle : ∀ env now, h ≠ .idle env now) :
    LoopStep h l l :=
  .still rfl rfl rfl rfl fun env now event _ => absurd event (hidle env now)

/-- The loop is left for another reason, after changes that do not matter. -/
theorem LoopStep.close {h : RateLimits.Happening me ι} {k : Loop} (hopen : l.isOpen = true)
    (hsys : k.sys = l.sys) (hseen : k.seen = l.seen) (hdeadline : k.idleDeadline = l.idleDeadline)
    {reason : Reason} (hreason : reason ≠ .idle) (hidle : ∀ env now, h ≠ .idle env now) :
    LoopStep h l (k.close me env reason) := by
  have hleft : step k.sys ⟨env, me, .disconnect⟩ = step l.sys ⟨env, me, .disconnect⟩ := by rw [hsys]
  have hdispatched : k.seen.dispatched = l.seen.dispatched := by rw [hseen]
  have hclosed : some (reason, k.sys.session me) = some (reason, l.sys.session me) := by rw [hsys]
  refine .left hopen hleft hdispatched hclosed hdeadline (iff_of_false hreason ?_)
  rintro ⟨env, now, event, _⟩
  exact hidle env now event

theorem receive_step (hopen : l.isOpen = true) (payload : Bytes) :
    LoopStep (.incoming env now later : RateLimits.Happening me ι) l
      (Tcp.receive me env now later payload l) := by
  have hsys : (counted now l).sys = l.sys := by rw [counted_eq]
  have hseen : (counted now l).seen = l.seen := by rw [counted_eq]
  have hdeadline : (counted now l).idleDeadline = l.idleDeadline := by rw [counted_eq]
  rw [receive_eq]
  split_ifs
  · exact .close hopen hsys hseen hdeadline (by decide) fun _ _ event => by cases event
  · cases ClientMessage.decode payload with
    | none =>
      have hdispatched : (counted now l).seen.dispatched = l.seen.dispatched := by rw [hseen]
      have hclosed : (counted now l).seen.closed = l.seen.closed := by rw [hseen]
      exact .still hsys hdispatched hclosed hdeadline fun _ _ event => by cases event
    | some msg =>
      have hclosed : (counted now l).seen.closed = l.seen.closed := by rw [hseen]
      have hstep : step (counted now l).sys ⟨env, me, .message msg⟩ =
          step l.sys ⟨env, me, .message msg⟩ := by rw [hsys]
      have hdispatched : (counted now l).seen.dispatched ++ [((counted now l).sys.session me, msg)] =
          l.seen.dispatched ++ [(l.sys.session me, msg)] := by rw [hseen, hsys]
      exact .heard rfl hopen hstep hdispatched hclosed rfl

/-- The branch of the queue leaves the loop as it is, or is the end of it. -/
theorem sends_step {sent : Bool} (hopen : l.isOpen = true) {frames : List Bytes}
    (hsends : Sends me env l l' frames) :
    LoopStep (.outgoing env sent : RateLimits.Happening me ι) l l' := by
  have hidle : ∀ env' now, (.outgoing env sent : RateLimits.Happening me ι) ≠ .idle env' now :=
    fun _ _ event => by cases event
  cases hsends with
  | nothing => exact .refl hidle
  | wrote => exact .still rfl rfl rfl rfl fun env' now event _ => absurd event (hidle env' now)
  | @left _ rest reason rx why =>
    have hreason : reason ≠ .idle := by rcases why with rfl | rfl <;> decide
    exact .close (k := { l with rx := rest }) hopen rfl rfl rfl hreason hidle

theorem others_step {a : Action} {foreign : a.conn ≠ me} :
    LoopStep (.other a foreign : RateLimits.Happening me ι) l (l.others me a) := by
  refine .others rfl ?_ ?_ ?_ ?_
  all_goals
    unfold Loop.others
    split_ifs <;> rfl

end

/-! ## The two transports -/

theorem idle_step {l : Loop} (hopen : l.isOpen = true) (env : Env) (now : ℕ) :
    LoopStep (.idle env now : RateLimits.Happening me ι) l
      (if l.idleDeadline ≤ now then l.close me env .idle else l) := by
  split_ifs with hdue
  · exact .left hopen rfl rfl rfl rfl (iff_of_true rfl ⟨env, now, rfl, hdue⟩)
  · refine .still rfl rfl rfl rfl ?_
    intro env' now' event _
    cases event
    exact Nat.lt_of_not_le hdue

theorem shut_step {l : Loop} (hopen : ¬ l.isOpen = true) (h : RateLimits.Happening me ι) :
    LoopStep h l l :=
  .still rfl rfl rfl rfl fun _ _ _ hopen' => absurd hopen' hopen

theorem tcp_step (c : Tcp) (h : RateLimits.Happening me Bytes) :
    LoopStep h c.loop (tcp c h).loop := by
  cases h with
  | arrives data =>
    simp only [tcp]
    split_ifs
    all_goals exact .refl fun _ _ event => by cases event
  | ends => exact .refl fun _ _ event => by cases event
  | incoming env now later =>
    simp only [tcp]
    split_ifs with hopen
    · unfold Tcp.incoming
      split
      · exact receive_step hopen _
      · exact .close hopen rfl rfl rfl (by decide) fun _ _ event => by cases event
      · split_ifs
        · exact .close hopen rfl rfl rfl (by decide) fun _ _ event => by cases event
        · exact .close hopen rfl rfl rfl (by decide) fun _ _ event => by cases event
        · exact .refl fun _ _ event => by cases event
    · exact shut_step hopen _
  | outgoing env sent =>
    simp only [tcp]
    split_ifs with hopen
    · obtain ⟨l, frames, hsends, heq⟩ := Tcp.outgoing_sends me env sent c
      rw [heq]
      exact sends_step hopen hsends
    · exact shut_step hopen _
  | idle env now =>
    simp only [tcp]
    split_ifs with hopen
    · have hstep : LoopStep (.idle env now : RateLimits.Happening me Bytes) c.loop _ :=
        idle_step hopen env now
      unfold Tcp.idle
      split_ifs at hstep ⊢
      · exact hstep
      · exact hstep
    · exact shut_step hopen _
  | other a foreign => exact others_step

theorem ws_receive_step {l : Loop} (hopen : l.isOpen = true) (env : Env) (now later : ℕ)
    (data : Bytes) : LoopStep (.incoming env now later : RateLimits.Happening me ι) l
      (Ws.receive me env now later data l) := by
  rw [ws_receive_eq]
  split_ifs
  · exact .still rfl rfl rfl rfl fun _ _ event => by cases event
  · exact .still rfl rfl rfl rfl fun _ _ event => by cases event
  · exact receive_step hopen _

theorem ws_step (c : Ws) (h : RateLimits.Happening me WsMessage) :
    LoopStep h c.loop (ws c h).loop := by
  cases h with
  | arrives msg =>
    simp only [ws]
    split_ifs
    all_goals exact .refl fun _ _ event => by cases event
  | ends => exact .refl fun _ _ event => by cases event
  | incoming env now later =>
    simp only [ws]
    split_ifs with hopen
    · unfold Ws.incoming
      cases c.inbox with
      | nil =>
        dsimp only
        split_ifs
        · exact .close hopen rfl rfl rfl (by decide) fun _ _ event => by cases event
        · exact .refl fun _ _ event => by cases event
      | cons msg rest =>
        cases msg with
        | binary data => exact ws_receive_step hopen env now later data
        | error => exact .close hopen rfl rfl rfl (by decide) fun _ _ event => by cases event
        | _ => exact .refl fun _ _ event => by cases event
    · exact shut_step hopen _
  | outgoing env sent =>
    simp only [ws]
    split_ifs with hopen
    · obtain ⟨l, frames, hsends, heq⟩ := Ws.outgoing_sends me env sent c
      rw [heq]
      exact sends_step hopen hsends
    · exact shut_step hopen _
  | idle env now =>
    simp only [ws]
    split_ifs with hopen
    · have hstep : LoopStep (.idle env now : RateLimits.Happening me WsMessage) c.loop _ :=
        idle_step hopen env now
      unfold Ws.idle
      split_ifs at hstep ⊢
      · exact hstep
      · exact hstep
    · exact shut_step hopen _
  | other a foreign => exact others_step

/-! ## What a run keeps -/

/-- A connection with the time at which a message was dispatched last, or it was accepted. -/
structure Listened (σ : Type) where
  conn : σ
  heard : ℕ

/-- The clock is read when a message is about to be dispatched. -/
def listen (handle : σ → RateLimits.Happening me ι → σ) (loop : σ → Loop) (w : Listened σ)
    (h : RateLimits.Happening me ι) : Listened σ where
  conn := handle w.conn h
  heard := match h with
    | .incoming _ _ later =>
      if (loop w.conn).seen.dispatched.length < (loop (handle w.conn h)).seen.dispatched.length
      then later else w.heard
    | _ => w.heard

/-- The deadline follows what was heard; a connection that is closed has no session. -/
structure Keeps (me : ConnId) (loop : σ → Loop) (w : Listened σ) : Prop where
  reachable : Reachable (loop w.conn).sys
  deadline : (loop w.conn).idleDeadline = w.heard + connectionIdleTimeout
  gone : (loop w.conn).isOpen = false → (loop w.conn).sys.session me = none

section
variable {handle : σ → RateLimits.Happening me ι → σ} {loop : σ → Loop} {w : Listened σ}

theorem listen_heard {h : RateLimits.Happening me ι}
    (hsame : (loop (handle w.conn h)).seen.dispatched = (loop w.conn).seen.dispatched) :
    (listen handle loop w h).heard = w.heard := by
  unfold listen
  cases h with
  | incoming env now later =>
    dsimp only
    rw [hsame, if_neg (Nat.lt_irrefl _)]
  | _ => rfl

theorem Keeps.listen (hw : Keeps me loop w) {h : RateLimits.Happening me ι}
    (hstep : LoopStep h (loop w.conn) (loop (handle w.conn h))) :
    Keeps me loop (listen handle loop w h) := by
  cases hstep with
  | still sys dispatched closed deadline early =>
    refine ⟨sys ▸ hw.reachable, ?_, ?_⟩
    · rw [listen_heard dispatched, ← hw.deadline]
      exact deadline
    · intro hshut
      change (loop (handle w.conn h)).sys.session me = none
      rw [sys]
      apply hw.gone
      change (loop (handle w.conn h)).isOpen = false at hshut
      rwa [Loop.isOpen, closed] at hshut
  | @heard env now later msg event isOpen sys dispatched closed deadline =>
    subst event
    have hheard :
        (SilentConnections.listen handle loop w (.incoming env now later)).heard = later := by
      unfold SilentConnections.listen
      dsimp only
      rw [dispatched, List.length_append]
      exact if_pos (Nat.lt_succ_self _)
    refine ⟨?_, ?_, ?_⟩
    · change Reachable (loop (handle w.conn _)).sys
      rw [sys]
      exact hw.reachable.tail _ trivial
    · rw [hheard]
      exact deadline
    · intro hshut
      change (loop (handle w.conn _)).isOpen = false at hshut
      rw [Loop.isOpen, closed] at hshut
      exact absurd (isOpen.symm.trans hshut) (by decide)
  | @left env reason isOpen sys dispatched closed deadline silent =>
    refine ⟨?_, ?_, fun _ => ?_⟩
    · change Reachable (loop (handle w.conn h)).sys
      rw [sys]
      exact hw.reachable.tail _ trivial
    · rw [listen_heard dispatched, ← hw.deadline]
      exact deadline
    · change (loop (handle w.conn h)).sys.session me = none
      rw [sys]
      exact Function.update_self ..
  | @others a foreign event sys dispatched closed deadline =>
    refine ⟨?_, ?_, ?_⟩
    · change Reachable (loop (handle w.conn h)).sys
      rw [sys]
      exact hw.reachable.tail _ trivial
    · rw [listen_heard dispatched, ← hw.deadline]
      exact deadline
    · intro hshut
      change (loop (handle w.conn h)).sys.session me = none
      change (loop (handle w.conn h)).isOpen = false at hshut
      rw [Loop.isOpen, closed] at hshut
      rw [sys]
      exact (Function.update_of_ne foreign.symm _ _).trans (hw.gone hshut)

/-- Whether an event closes a connection for silence. -/
theorem silent_iff {h : RateLimits.Happening me ι} {l l' : Loop} (hopen : l.isOpen = true)
    (hstep : LoopStep h l l') : (∃ session, l'.seen.closed = some (.idle, session)) ↔
      ∃ env now, h = .idle env now ∧ l.idleDeadline ≤ now := by
  have hnone : l.seen.closed = none := Option.isNone_iff_eq_none.mp hopen
  have hstays : l'.seen.closed = l.seen.closed →
      ¬ ∃ session, l'.seen.closed = some (.idle, session) := by
    rintro hclosed ⟨session, hsession⟩
    rw [hclosed, hnone] at hsession
    cases hsession
  cases hstep with
  | still sys dispatched closed deadline early =>
    refine iff_of_false (hstays closed) ?_
    rintro ⟨env, now, event, hdue⟩
    exact absurd hdue (Nat.not_le.mpr (early env now event hopen))
  | heard event isOpen sys dispatched closed deadline =>
    refine iff_of_false (hstays closed) ?_
    rintro ⟨env, now, rfl, -⟩
    cases event
  | left isOpen sys dispatched closed deadline silent =>
    rw [← silent, closed]
    constructor
    · rintro ⟨session, hsession⟩
      exact (Prod.mk.inj (Option.some.inj hsession)).1
    · rintro rfl
      exact ⟨_, rfl⟩
  | others event sys dispatched closed deadline =>
    refine iff_of_false (hstays closed) ?_
    rintro ⟨env, now, rfl, -⟩
    cases event

/-- The connection is closed for silence when it has been silent too long and not otherwise, and has
no seat from the moment it is closed. -/
def Reaps (me : ConnId) (handle : σ → RateLimits.Happening me ι → σ) (loop : σ → Loop)
    (w : Listened σ) : Prop :=
  ((loop w.conn).isOpen = true → ∀ h : RateLimits.Happening me ι,
    (∃ session, (loop (handle w.conn h)).seen.closed = some (.idle, session)) ↔
      ∃ env now, h = .idle env now ∧ w.heard + connectionIdleTimeout ≤ now) ∧
  ((loop w.conn).isOpen = false → ∀ place, ¬ Owns (loop w.conn).sys me place)

theorem Keeps.reaps
    (hstep : ∀ c (h : RateLimits.Happening me ι), LoopStep h (loop c) (loop (handle c h)))
    (hw : Keeps me loop w) : Reaps me handle loop w := by
  constructor
  · intro hopen h
    rw [← hw.deadline]
    exact silent_iff hopen (hstep w.conn h)
  · intro hshut place
    exact not_owns_of_no_session (seated hw.reachable) (hw.gone hshut) place

end

/-- Over both transports, whatever arrives and whenever: an open connection is closed for silence
exactly when the branch of the deadline is taken two minutes or more after the last message was
dispatched, and a connection that was closed, for whatever reason, never has a seat in a room
again. -/
theorem silent_reaped (me : ConnId) (sys : Sys) (hreach : Reachable sys) (now later : ℕ) :
    (∀ hs : List (RateLimits.Happening me Bytes),
      Reaps me tcp Tcp.loop (exec (listen tcp Tcp.loop) ⟨.start sys now later, now⟩ hs)) ∧
    ∀ hs : List (RateLimits.Happening me WsMessage),
      Reaps me ws Ws.loop (exec (listen ws Ws.loop) ⟨.start sys now later, now⟩ hs) := by
  constructor
  · intro hs
    have hstart : Keeps me Tcp.loop ⟨.start sys now later, now⟩ :=
      ⟨hreach, rfl, fun hshut => by cases hshut⟩
    have hkeeps : Keeps me Tcp.loop (exec (listen tcp Tcp.loop) ⟨.start sys now later, now⟩ hs) :=
      exec_invariant (I := Keeps me Tcp.loop) (fun w h hw => hw.listen (tcp_step w.conn h)) hstart hs
    exact hkeeps.reaps tcp_step
  · intro hs
    have hstart : Keeps me Ws.loop ⟨.start sys now later, now⟩ :=
      ⟨hreach, rfl, fun hshut => by cases hshut⟩
    have hkeeps : Keeps me Ws.loop (exec (listen ws Ws.loop) ⟨.start sys now later, now⟩ hs) :=
      exec_invariant (I := Keeps me Ws.loop) (fun w h hw => hw.listen (ws_step w.conn h)) hstart hs
    exact hkeeps.reaps ws_step

/-- A ping at five seconds, and at a hundred seconds a payload that cannot be decoded. -/
def pingThenNoise : List (RateLimits.Happening 0 WsMessage) :=
  ping ++ [.arrives (.binary (frame [99])), .incoming Env.quiet 100000 100000]

/-- A room is made, but the socket does not take the answer. -/
def unansweredHello : List (RateLimits.Happening 0 Bytes) :=
  [.arrives (frame (clientMessageFormat.write (.hello ⟨"pong", ⟨""⟩, "h", none, none, none⟩))),
    .incoming Env.quiet 0 0, .outgoing Env.quiet false]

/-- The noise does not keep one connection open, and the other one had a seat and has none. -/
theorem noise_not_heard :
    (∃ session, (ws (exec (listen ws Ws.loop) ⟨.start .start 0 0, 0⟩ pingThenNoise).conn
      (.idle Env.quiet 125000 : RateLimits.Happening 0 WsMessage)).loop.seen.closed =
        some (.idle, session)) ∧
    (exec (listen tcp Tcp.loop) ⟨.start .start 0 0, 0⟩ unansweredHello).conn.loop.seen.closed =
      some (.unsent, some ⟨"pong", ⟨"AAAAAA"⟩, 1⟩) ∧
    ∀ place, ¬ Owns (exec (listen tcp Tcp.loop) ⟨.start .start 0 0, 0⟩
      unansweredHello).conn.loop.sys 0 place :=
  ⟨(((silent_reaped 0 .start .refl 0 0).2 pingThenNoise).1 (by decide) (.idle Env.quiet 125000)).mpr
      ⟨Env.quiet, 125000, rfl, by decide⟩,
    by decide +kernel, ((silent_reaped 0 .start .refl 0 0).1 unansweredHello).2 (by decide +kernel)⟩

end Roomie.SilentConnections
