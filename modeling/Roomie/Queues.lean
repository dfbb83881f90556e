import Roomie.CppStreams
import Roomie.Hearing
import Roomie.PruningBroadcasts
import Roomie.RateLimits

/-!
# What the server says over a socket

A connection has a queue. What the server sends to it waits there, with the errors that the loop
reports by itself, until the loop writes it, one message a turn, between the frames that it takes
and the ticks of its clock. The bytes written are those of the messages that were put on the queue,
from the first on; what is missing is in the queue still.
-/

namespace Roomie.Queues
open Bincode Frames GuardedRuns RateLimits Transports

variable {me : ConnId} {ι σ τ : Type}

/-! ## What an event does to the queue -/

/-- The binary messages that are sent for these messages. -/
def frames (ms : List ServerMessage) : List Bytes := (ms.filterMap ServerMessage.encode).map frame

/-- The environment that the loop, or another connection, meets. -/
def envOf : RateLimits.Happening me ι → Option Env
  | .incoming env _ _ | .outgoing env _ | .idle env _ => some env
  | .other a _ => some a.env
  | _ => none

def isError : ServerMessage → Bool
  | .error _ => true
  | _ => false

/-- The messages are put on the queue. -/
structure Enqueues (ms : List ServerMessage) (l l' : Loop) : Prop where
  rx : l'.rx = l.rx ++ ms
  enqueued : l'.seen.enqueued = l.seen.enqueued ++ ms

/-- At most errors are put on the queue; a connection acts, and what this sends is put there unless
the loop was left; the next message is written behind the others; or the loop is left. -/
inductive Passes (me : ConnId) (written : List ServerMessage → τ) (env : Option Env) (l l' : Loop)
    (out out' : τ) : Prop
  | reported (errors : List ServerMessage) (plain : ∀ m ∈ errors, isError m = true)
      (sys : l'.sys = l.sys) (isOpen : l'.isOpen = l.isOpen) (queue : Enqueues errors l l')
      (same : out' = out)
  | acted (a : Action) (mem : a.env ∈ env) (sys : l'.sys = step l.sys a)
      (isOpen : l'.isOpen = l.isOpen)
      (queue : Enqueues (if l.isOpen then onChannel me (a.sent l.sys) else []) l l')
      (same : out' = out)
  | wrote (m : ServerMessage) (sys : l'.sys = l.sys) (wasOpen : l.isOpen = true)
      (isOpen : l'.isOpen = true) (rx : l.rx = m :: l'.rx)
      (enqueued : l'.seen.enqueued = l.seen.enqueued)
      (more : ∀ sent, out = written sent → out' = written (sent ++ [m]))
  | left (a : Action) (mem : a.env ∈ env) (sys : l'.sys = step l.sys a) (wasOpen : l.isOpen = true)
      (shut : l'.isOpen = false) (enqueued : l'.seen.enqueued = l.seen.enqueued) (same : out' = out)

section
variable {l l' : Loop} {written : List ServerMessage → τ} {out out' : τ} {env : Env}

theorem Passes.refl (env : Option Env) (l : Loop) (out : τ) : Passes me written env l l out out :=
  .reported [] nofun rfl rfl ⟨(List.append_nil _).symm, (List.append_nil _).symm⟩ rfl

/-- The loop is left, after changes that do not matter here. -/
theorem Passes.close (hsys : l'.sys = l.sys) (hseen : l'.seen = l.seen) (hopen : l.isOpen = true)
    (reason : Reason) : Passes me written (some env) l (l'.close me env reason) out out := by
  refine .left ⟨env, me, .disconnect⟩ rfl ?_ hopen rfl ?_ rfl
  · rw [← hsys]
    rfl
  · rw [← hseen]
    rfl

/-- The branch of the queue, whose frames are what is written for their messages. -/
theorem sends_passes (hopen : l.isOpen = true) {frames : List Bytes}
    (hsends : Sends me env l l' frames)
    (hmore : ∀ m payload, m.encode = some payload → frames = [frame payload] →
      ∀ sent, out = written sent → out' = written (sent ++ [m]))
    (hsame : frames = [] → out' = out) : Passes me written (some env) l l' out out' := by
  cases hsends with
  | nothing =>
    rw [hsame rfl]
    exact .refl ..
  | wrote rx encoded => exact .wrote _ rfl hopen hopen rx rfl (hmore _ _ encoded rfl)
  | @left _ rest reason rx why =>
    have hsys : { l with rx := rest }.sys = l.sys := rfl
    have hseen : { l with rx := rest }.seen = l.seen := rfl
    rw [hsame rfl]
    exact .close hsys hseen hopen reason

/-- An error is reported, after changes that do not matter here. -/
theorem Passes.report (hsys : l'.sys = l.sys) (hrx : l'.rx = l.rx) (hseen : l'.seen = l.seen)
    (message : String) : Passes me written (some env) l (l'.report me env message) out out := by
  refine .reported (onChannel me (delivered env (trySend env [] me (.error message)).2))
    (fun m hm => ?_) hsys ?_ ⟨?_, ?_⟩ rfl
  · have hsent := mem_of_mem_delivered (mem_onChannel hm)
    obtain ⟨-, rfl⟩ := Prod.mk.inj (List.mem_singleton.mp hsent)
    rfl
  · rw [Loop.isOpen, Loop.isOpen, ← hseen]
    rfl
  · rw [← hrx]
    rfl
  · rw [← hseen]
    rfl

theorem receive_passes (hopen : l.isOpen = true) (now later : ℕ) (payload : Bytes) :
    Passes me written (some env) l (Tcp.receive me env now later payload l) out out := by
  have hsys : (counted now l).sys = l.sys := by rw [counted_eq]
  have hrx : (counted now l).rx = l.rx := by rw [counted_eq]
  have hseen : (counted now l).seen = l.seen := by rw [counted_eq]
  rw [receive_eq]
  split_ifs
  · exact .close hsys hseen hopen .rateLimit
  · cases ClientMessage.decode payload with
    | none => exact .report hsys hrx hseen "invalid message"
    | some msg =>
      refine .acted ⟨env, me, .message msg⟩ rfl ?_ ?_ ⟨?_, ?_⟩ rfl
      · rw [← hsys]
        rfl
      · rw [Loop.isOpen, Loop.isOpen, ← hseen]
        rfl
      · rw [if_pos hopen, ← hsys, ← hrx]
        rfl
      · rw [if_pos hopen, ← hsys, ← hseen]
        rfl

theorem ws_receive_passes (hopen : l.isOpen = true) (now later : ℕ) (data : Bytes) :
    Passes me written (some env) l (Ws.receive me env now later data l) out out := by
  rw [ws_receive_eq]
  split_ifs
  · exact .report rfl rfl rfl "frame too short"
  · exact .report rfl rfl rfl "invalid frame length"
  · exact receive_passes hopen now later (data.drop 4)

theorem others_passes (a : Action) : Passes me written (some a.env) l (l.others me a) out out := by
  unfold Loop.others
  dsimp only
  by_cases hopen : l.isOpen = true
  · have hnone : ¬ l.seen.closed.isSome = true := by
      rw [Loop.isOpen, Option.isNone_iff_eq_none] at hopen
      simp [hopen]
    rw [if_neg hnone]
    refine .acted a rfl rfl rfl ?_ rfl
    rw [if_pos hopen]
    exact ⟨rfl, rfl⟩
  · have hsome : l.seen.closed.isSome = true := by
      rw [Loop.isOpen, Option.isNone_iff_eq_none] at hopen
      exact Option.isSome_iff_ne_none.mpr hopen
    rw [if_pos hsome]
    refine .acted a rfl rfl rfl ?_ rfl
    rw [if_neg hopen]
    exact ⟨(List.append_nil _).symm, (List.append_nil _).symm⟩

end

theorem tcp_passes (c : Tcp) (h : RateLimits.Happening me Bytes) :
    Passes me wire (envOf h) c.loop (tcp c h).loop c.written (tcp c h).written := by
  cases h with
  | arrives data =>
    simp only [tcp]
    split_ifs <;> exact .refl ..
  | ends => exact .refl ..
  | incoming env now later =>
    simp only [tcp]
    split_ifs with hopen
    · unfold Tcp.incoming
      split
      · exact receive_passes hopen now later _
      · exact .close rfl rfl hopen .broken
      · split_ifs
        · exact .close rfl rfl hopen .ended
        · exact .close rfl rfl hopen .broken
        · exact .refl ..
    · exact .refl ..
  | outgoing env sent =>
    simp only [tcp]
    split_ifs with hopen
    · obtain ⟨l, frames, hsends, heq⟩ := Tcp.outgoing_sends me env sent c
      rw [heq]
      refine sends_passes hopen hsends ?_ ?_
      · rintro m payload hencode rfl sent hsent
        rw [wire_append, wire_cons hencode, ← hsent]
        rfl
      · rintro rfl
        exact List.append_nil _
    · exact .refl ..
  | idle env now =>
    simp only [tcp]
    split_ifs with hopen
    · unfold Tcp.idle
      split_ifs
      · exact .close rfl rfl hopen .idle
      · exact .refl ..
    · exact .refl ..
  | other a foreign => exact others_passes a

theorem ws_passes (c : Ws) (h : RateLimits.Happening me WsMessage) :
    Passes me frames (envOf h) c.loop (ws c h).loop c.sent (ws c h).sent := by
  cases h with
  | arrives msg =>
    simp only [ws]
    split_ifs <;> exact .refl ..
  | ends => exact .refl ..
  | incoming env now later =>
    simp only [ws]
    split_ifs with hopen
    · unfold Ws.incoming
      cases c.inbox with
      | nil =>
        dsimp only
        split_ifs
        · exact .close rfl rfl hopen .ended
        · exact .refl ..
      | cons msg rest =>
        cases msg with
        | binary data => exact ws_receive_passes hopen now later data
        | error => exact .close rfl rfl hopen .broken
        | _ => exact .refl ..
    · exact .refl ..
  | outgoing env sent =>
    simp only [ws]
    split_ifs with hopen
    · obtain ⟨l, out, hsends, heq⟩ := Ws.outgoing_sends me env sent c
      rw [heq]
      refine sends_passes hopen hsends ?_ ?_
      · rintro m payload hencode rfl sent hsent
        rw [frames, List.filterMap_append, List.filterMap_cons_some hencode, List.map_append, hsent]
        rfl
      · rintro rfl
        exact List.append_nil _
    · exact .refl ..
  | idle env now =>
    simp only [ws]
    split_ifs with hopen
    · unfold Ws.idle
      split_ifs
      · exact .close rfl rfl hopen .idle
      · exact .refl ..
    · exact .refl ..
  | other a foreign => exact others_passes a

/-! ## What a run keeps -/

/-- What was sent, without the errors. -/
def substance (ms : List ServerMessage) : List ServerMessage := ms.filter fun m => !isError m

theorem substance_append (ms ms' : List ServerMessage) :
    substance (ms ++ ms') = substance ms ++ substance ms' :=
  List.filter_append ..

theorem substance_errors {errors : List ServerMessage} (h : ∀ m ∈ errors, isError m = true) :
    substance errors = [] := by
  rw [substance, List.filter_eq_nil_iff]
  intro m hm
  simp [h m hm]

/-- What is written are messages that were put on the queue, from the first on; while the loop is
open the others are in the queue, and up to errors they all are what the server sent. -/
structure Accounts (me : ConnId) (written : List ServerMessage → τ) (r : Recorded) (l : Loop)
    (out : τ) : Prop where
  sys : l.sys = r.sys
  written : ∃ sent, out = written sent ∧ sent <+: l.seen.enqueued ∧
    (l.isOpen = true → l.seen.enqueued = sent ++ l.rx)
  logged : l.isOpen = true → substance l.seen.enqueued = substance (r.log me)

section
variable {written : List ServerMessage → τ} {r : Recorded} {l l' : Loop} {out out' : τ}
  {env : Option Env}

/-- With the queue empty everything that was put on it has been written. -/
theorem Accounts.all (h : Accounts me written r l out) (hopen : l.isOpen = true) (hrx : l.rx = []) :
    out = written l.seen.enqueued := by
  obtain ⟨sent, hsent, -, hqueue⟩ := h.written
  rw [hqueue hopen, hrx, List.append_nil]
  exact hsent

/-- One event, with what the server records of it. -/
theorem Accounts.passes (h : Accounts me written r l out)
    (hstep : Passes me written env l l' out out') :
    ∃ r', (r' = r ∨ ∃ a : Action, a.env ∈ env ∧ r' = record r a) ∧ Accounts me written r' l' out' := by
  obtain ⟨hsys, ⟨sent, hout, hsent, hqueue⟩, hlogged⟩ := h
  cases hstep with
  | reported errors plain sys isOpen queue same =>
    refine ⟨r, .inl rfl, sys.trans hsys, ⟨sent, same.trans hout, ?_, fun hopen => ?_⟩, fun hopen => ?_⟩
    · rw [queue.enqueued]
      exact hsent.trans (List.prefix_append _ _)
    · rw [queue.enqueued, queue.rx, hqueue (isOpen ▸ hopen), List.append_assoc]
    · rw [queue.enqueued, substance_append, substance_errors plain, List.append_nil]
      exact hlogged (isOpen ▸ hopen)
  | acted a mem sys isOpen queue same =>
    refine ⟨record r a, .inr ⟨a, mem, rfl⟩, ?_, ⟨sent, same.trans hout, ?_, fun hopen => ?_⟩,
      fun hopen => ?_⟩
    · rw [sys, hsys]
      rfl
    · rw [queue.enqueued]
      exact hsent.trans (List.prefix_append _ _)
    · rw [queue.enqueued, queue.rx, hqueue (isOpen ▸ hopen), List.append_assoc]
    · have hwas : l.isOpen = true := isOpen ▸ hopen
      rw [queue.enqueued, if_pos hwas, substance_append, hlogged hwas, ← substance_append, hsys]
      rfl
  | wrote m sys wasOpen isOpen rx enqueued more =>
    have hall : l'.seen.enqueued = sent ++ [m] ++ l'.rx := by
      rw [enqueued, hqueue wasOpen, rx, List.append_cons]
    refine ⟨r, .inl rfl, sys.trans hsys, ⟨sent ++ [m], more sent hout, ?_, fun _ => hall⟩, fun _ => ?_⟩
    · rw [hall]
      exact List.prefix_append _ _
    · rw [enqueued]
      exact hlogged wasOpen
  | left a mem sys wasOpen shut enqueued same =>
    have hshut : ¬ l'.isOpen = true := shut ▸ Bool.false_ne_true
    refine ⟨record r a, .inr ⟨a, mem, rfl⟩, ?_, ⟨sent, same.trans hout, enqueued ▸ hsent,
      fun hopen => absurd hopen hshut⟩, fun hopen => absurd hopen hshut⟩
    rw [sys, hsys]
    rfl

/-- A run in environments of one kind, with a run of the server in such environments. -/
theorem Accounts.run {handle : σ → RateLimits.Happening me ι → σ} {loop : σ → Loop} {out : σ → τ}
    (hstep : ∀ c h, Passes me written (envOf h) (loop c) (loop (handle c h)) (out c) (out (handle c h)))
    {P : Env → Prop} {start : Recorded} (hr : Reaches record (fun _ a => P a.env) start r) {c : σ}
    (h : Accounts me written r (loop c) (out c)) {hs : List (RateLimits.Happening me ι)}
    (henv : ∀ e ∈ hs, ∀ env ∈ envOf e, P env) :
    ∃ r', Reaches record (fun _ a => P a.env) start r' ∧
      Accounts me written r' (loop (exec handle c hs)) (out (exec handle c hs)) := by
  induction hs generalizing c r with
  | nil => exact ⟨r, hr, h⟩
  | cons e hs ih =>
    obtain ⟨he, hrest⟩ := List.forall_mem_cons.mp henv
    obtain ⟨r', hrecord, haccounts⟩ := h.passes (hstep c e)
    refine ih ?_ haccounts hrest
    rcases hrecord with rfl | ⟨a, hmem, rfl⟩
    · exact hr
    · exact hr.tail a (he a.env hmem)

end

/-! ## Turns of the writer -/

/-- When the branch of the queue has been taken often enough the queue is empty, and nothing else has
changed. -/
theorem drained {handle : σ → RateLimits.Happening me ι → σ} {loop : σ → Loop} {env : Env}
    (hturn : ∀ c m rest, (loop c).isOpen = true → (loop c).rx = m :: rest → m.encode ≠ none →
      loop (handle c (.outgoing env true)) = { loop c with rx := rest })
    {c : σ} (hopen : (loop c).isOpen = true) (hencode : ∀ m ∈ (loop c).rx, m.encode ≠ none) :
    loop (exec handle c (List.replicate (loop c).rx.length (.outgoing env true))) =
      { loop c with rx := [] } := by
  generalize hrx : (loop c).rx = queue at hencode
  induction queue generalizing c with
  | nil =>
    change loop c = _
    rw [← hrx]
  | cons m rest ih =>
    obtain ⟨hm, hrest⟩ := List.forall_mem_cons.mp hencode
    have hnext := hturn c m rest hopen hrx hm
    rw [List.length_cons, List.replicate_succ, exec_cons, ih (by rw [hnext]; exact hopen)
      (by rw [hnext]) hrest, hnext]

theorem tcp_turn (env : Env) (c : Tcp) (m : ServerMessage) (rest : List ServerMessage)
    (hopen : c.loop.isOpen = true) (hrx : c.loop.rx = m :: rest) (hencode : m.encode ≠ none) :
    (tcp c (.outgoing env true : RateLimits.Happening me Bytes)).loop =
      { c.loop with rx := rest } := by
  obtain ⟨payload, hpayload⟩ := Option.ne_none_iff_exists'.mp hencode
  simp only [tcp, if_pos hopen, Tcp.outgoing, hrx, hpayload, if_true]

theorem ws_turn (env : Env) (c : Ws) (m : ServerMessage) (rest : List ServerMessage)
    (hopen : c.loop.isOpen = true) (hrx : c.loop.rx = m :: rest) (hencode : m.encode ≠ none) :
    (ws c (.outgoing env true : RateLimits.Happening me WsMessage)).loop =
      { c.loop with rx := rest } := by
  obtain ⟨payload, hpayload⟩ := Option.ne_none_iff_exists'.mp hencode
  simp only [ws, if_pos hopen, Ws.outgoing, hrx, hpayload, if_true]

/-- As many turns of the writer as messages are in the queue empty it, and change nothing else. -/
def Drains (handle : σ → RateLimits.Happening me ι → σ) (loop : σ → Loop) (c : σ) : Prop :=
  ∀ env, (loop c).isOpen = true → (∀ m ∈ (loop c).rx, m.encode ≠ none) →
    loop (exec handle c (List.replicate (loop c).rx.length (.outgoing env true))) =
      { loop c with rx := [] }

/-- A connection that nothing was sent to before. -/
theorem start_accounts {written : List ServerMessage → τ} {r : Recorded} (hnew : r.log me = [])
    (now later : ℕ) : Accounts me written r (.start r.sys now later) (written []) := by
  refine ⟨rfl, ⟨[], rfl, List.nil_prefix, fun _ => rfl⟩, fun _ => ?_⟩
  rw [hnew]
  rfl

/-- In every run of either loop, whatever arrives and in environments of any kind: what is written are
the messages that were put on the queue, each once and in order; while the connection is open the
others are in the queue, and turns of the writer empty it. Up to errors all these are what the server
sent to the connection. -/
theorem queue_written {P : Env → Prop} {r₀ : Recorded}
    (hr : Reaches record (fun _ a => P a.env) .start r₀) (hnew : r₀.log me = []) (now later : ℕ) :
    (∀ hs : List (RateLimits.Happening me Bytes), (∀ e ∈ hs, ∀ env ∈ envOf e, P env) →
      ∃ r, Reaches record (fun _ a => P a.env) .start r ∧
        Accounts me wire r (exec tcp (.start r₀.sys now later) hs).loop
          (exec tcp (.start r₀.sys now later) hs).written ∧
        Drains (@tcp me) Tcp.loop (exec tcp (.start r₀.sys now later) hs)) ∧
    ∀ hs : List (RateLimits.Happening me WsMessage), (∀ e ∈ hs, ∀ env ∈ envOf e, P env) →
      ∃ r, Reaches record (fun _ a => P a.env) .start r ∧
        Accounts me frames r (exec ws (.start r₀.sys now later) hs).loop
          (exec ws (.start r₀.sys now later) hs).sent ∧
        Drains (@ws me) Ws.loop (exec ws (.start r₀.sys now later) hs) := by
  constructor
  · intro hs henv
    have hstart : Accounts me wire r₀ (Tcp.start r₀.sys now later).loop [] :=
      start_accounts hnew now later
    obtain ⟨r, hreach, haccounts⟩ : ∃ r, Reaches record (fun _ a => P a.env) .start r ∧
        Accounts me wire r (exec tcp (.start r₀.sys now later) hs).loop
          (exec tcp (.start r₀.sys now later) hs).written := hstart.run tcp_passes hr henv
    exact ⟨r, hreach, haccounts, fun env hopen hencode => drained (tcp_turn env) hopen hencode⟩
  · intro hs henv
    have hstart : Accounts me frames r₀ (Ws.start r₀.sys now later).loop [] :=
      start_accounts hnew now later
    obtain ⟨r, hreach, haccounts⟩ : ∃ r, Reaches record (fun _ a => P a.env) .start r ∧
        Accounts me frames r (exec ws (.start r₀.sys now later) hs).loop
          (exec ws (.start r₀.sys now later) hs).sent := hstart.run ws_passes hr henv
    exact ⟨r, hreach, haccounts, fun env hopen hencode => drained (ws_turn env) hopen hencode⟩

/-- A ping is answered, and the answer is written. -/
theorem pong_written :
    (exec ws (.start .start 0 0) (ping ++ [.outgoing Env.quiet true])).sent = frames [.pong] := by
  have hclear : ∀ e ∈ ping ++ [.outgoing Env.quiet true], ∀ env ∈ envOf e, env.Clear := by
    simp [ping, envOf, Env.quiet_clear]
  obtain ⟨r, -, haccounts, -⟩ :=
    (queue_written .refl rfl 0 0).2 (ping ++ [.outgoing Env.quiet true]) hclear
  obtain ⟨sent, hsent, -, hqueue⟩ := haccounts.written
  have hall : [ServerMessage.pong] = sent ++ [] := hqueue rfl
  rw [List.append_nil] at hall
  exact hsent.trans (congrArg frames hall.symm)

end Roomie.Queues
