import Roomie.CppClient

/-!
# Callbacks that call back

A callback runs while the loop of `poll` still means to erase the frame it was called for, and
the loop goes on after it whatever it did. A send that fails and a new connection clear the
buffer, so the erasure finds no frame there; a disconnect makes the next `recv` fail, which is
reported to `on_error`. In a run whose callbacks avoid this every erased frame is still at the
front of the buffer, and nothing is called after a disconnect.
-/

namespace Roomie.Cpp
open Bincode Frames

/-! ## What callbacks may do -/

/-- In the callback of a message no send fails on a live connection and no connection is made,
and nothing disconnects when `on_error` is set. `up` says that the connection still lives. -/
def Gentle (errorSet : Bool) : Bool → List Action → Prop
  | _, [] => True
  | up, .send msg accepted _ :: as =>
    (up = true → msg.payload.length ≤ maxFrameLen ∧ accepted = true) ∧ Gentle errorSet up as
  | _, .disconnect :: as => errorSet = false ∧ Gentle errorSet false as
  | _, .connect succeeds :: as => succeeds = false ∧ Gentle errorSet false as

mutual

/-- Follows what `on_error` does: whether there is a live connection, and whether a callback has
disconnected. There is no result if a send fails on a connection made after a disconnect, since
`on_error` is called once more then. -/
def Action.follow : Action → Bool → Bool → Option (Bool × Bool)
  | .send msg accepted onError, up, ended =>
    if !up || (msg.payload.length ≤ maxFrameLen && accepted) then some (up, ended)
    else if ended then none
    else followAll onError false false
  | .disconnect, _, _ => some (false, true)
  | .connect succeeds, _, ended => some (succeeds, ended)

def followAll : List Action → Bool → Bool → Option (Bool × Bool)
  | [], up, ended => some (up, ended)
  | a :: as, up, ended =>
    match a.follow up ended with
    | some (up, ended) => followAll as up ended
    | none => none

end

/-- What the callbacks of a turn do is harmless. -/
structure Careful (errorSet : Bool) (turn : Turn) : Prop where
  onMessage : Gentle errorSet true turn.onMessage
  onLost : errorSet = true → (followAll turn.onLost false false).isSome = true

/-! ## What must not happen -/

/-- Each frame that is erased is still at the front of the buffer. -/
def ErasesFrames (events : List Event) : Prop :=
  ∀ frame buf, .erasing frame buf ∈ events → frame <+: buf

def Quiet (events : List Event) : Prop := ∀ call, .called call ∉ events

/-- After a callback has disconnected no callback is called. -/
def SilentAfter (events : List Event) : Prop :=
  ∀ pre post, events = pre ++ .disconnected :: post → Quiet post

theorem ErasesFrames.nil : ErasesFrames [] := fun frame buf he => by cases he

theorem Quiet.nil : Quiet [] := fun call hc => by cases hc

theorem Quiet.append {xs ys : List Event} (hx : Quiet xs) (hy : Quiet ys) : Quiet (xs ++ ys) := by
  intro call h
  rcases List.mem_append.mp h with h | h
  · exact hx call h
  · exact hy call h

theorem Quiet.silentAfter {events : List Event} (h : Quiet events) : SilentAfter events := by
  rintro pre post rfl call hcall
  exact h call (List.mem_append_right _ (List.mem_cons_of_mem _ hcall))

theorem silentAfter_of_not_mem {events : List Event} (h : .disconnected ∉ events) :
    SilentAfter events := by
  rintro pre post rfl
  exact absurd (List.mem_append_right _ List.mem_cons_self) h

theorem SilentAfter.append {xs ys : List Event} (hx : SilentAfter xs) (hy : SilentAfter ys)
    (hxy : .disconnected ∈ xs → Quiet ys) : SilentAfter (xs ++ ys) := by
  intro pre post h
  rcases List.append_eq_append_iff.mp h with ⟨mid, rfl, hmid⟩ | ⟨mid, rfl, hmid⟩
  · exact hy mid post hmid
  · cases mid with
    | nil => exact hy [] post hmid.symm
    | cons e mid =>
      obtain ⟨rfl, rfl⟩ := List.cons.inj hmid
      have hin : Event.disconnected ∈ pre ++ .disconnected :: mid :=
        List.mem_append_right _ List.mem_cons_self
      exact (hx pre mid rfl).append (hxy hin)

theorem SilentAfter.cons {e : Event} {events : List Event} (he : e ≠ .disconnected)
    (h : SilentAfter events) : SilentAfter (e :: events) := by
  have hnot : Event.disconnected ∉ [e] := fun hin => he (List.mem_singleton.mp hin).symm
  exact (silentAfter_of_not_mem hnot).append h fun hin => absurd hin hnot

/-! ## The callback of a message -/

section
variable {cbs : Callback → Bool}

/-- What a gentle callback leaves: the buffer as it was, and of the events disconnects alone. -/
structure Spared (cbs : Callback → Bool) (c : Client) (r : Client × List Event) : Prop where
  recvBuf : r.1.recvBuf = c.recvBuf
  sock : c.sock = false → r.1.sock = false
  events : ∀ e ∈ r.2, e = .disconnected ∧ cbs .onError = false ∧ r.1.sock = false

theorem Spared.refl (c : Client) : Spared cbs c (c, []) :=
  ⟨rfl, id, fun e he => by cases he⟩

theorem Spared.trans {c : Client} {r r' : Client × List Event} (h : Spared cbs c r)
    (h' : Spared cbs r.1 r') : Spared cbs c (r'.1, r.2 ++ r'.2) := by
  refine ⟨h'.recvBuf.trans h.recvBuf, fun hs => h'.sock (h.sock hs), fun e he => ?_⟩
  rcases List.mem_append.mp he with he | he
  · obtain ⟨hdisconnected, herror, hsock⟩ := h.events e he
    exact ⟨hdisconnected, herror, h'.sock hsock⟩
  · exact h'.events e he

/-- A message that is accepted changes neither the buffer nor the connection. -/
theorem run_accepted (cbs : Callback → Bool) {msg : Sending} {accepted : Bool}
    (onError : List Action) {c : Client}
    (h : c.ensureConnected = true → msg.payload.length ≤ maxFrameLen ∧ accepted = true) :
    ∃ c', (Action.send msg accepted onError).run cbs c = (c', []) ∧ c'.recvBuf = c.recvBuf ∧
      c'.sock = c.sock ∧ c'.ensureConnected = c.ensureConnected := by
  by_cases hup : c.ensureConnected = true
  · obtain ⟨hlen, haccepted⟩ := h hup
    refine ⟨c.sent msg, by simp [Action.run, hup, hlen, haccepted], ?_⟩
    cases msg <;> exact ⟨rfl, rfl, rfl⟩
  · exact ⟨c, by simp [Action.run, hup], rfl, rfl, rfl⟩

theorem gentle_spares {as : List Action} {up : Bool} {c : Client}
    (h : Gentle (cbs .onError) up as) (hup : up = false → c.ensureConnected = false) :
    Spared cbs c (runActions cbs as c) := by
  induction as generalizing up c with
  | nil => exact .refl c
  | cons a as ih =>
    rw [runActions]
    cases a with
    | send msg accepted onError =>
      obtain ⟨hsend, hrest⟩ := h
      have hlive : c.ensureConnected = true → up = true := by
        intro hc
        by_contra hne
        rw [hup (Bool.eq_false_iff.mpr hne)] at hc
        cases hc
      obtain ⟨c', hrun, hbuf, hsock, hconnected⟩ :=
        run_accepted cbs onError fun hc => hsend (hlive hc)
      rw [hrun]
      have hspared : Spared cbs c (c', []) := ⟨hbuf, fun hs => hsock.trans hs, fun e he => by cases he⟩
      exact hspared.trans (ih hrest fun hdown => hconnected.trans (hup hdown))
    | disconnect =>
      obtain ⟨herror, hrest⟩ := h
      have hspared : Spared cbs c (c.disconnect, [.disconnected]) := by
        refine ⟨rfl, fun _ => rfl, fun e he => ?_⟩
        exact ⟨List.mem_singleton.mp he, herror, rfl⟩
      exact hspared.trans (ih hrest fun _ => rfl)
    | connect succeeds =>
      obtain ⟨rfl, hrest⟩ := h
      have hspared : Spared cbs c (c.disconnect, []) := ⟨rfl, fun _ => rfl, fun e he => by cases he⟩
      exact hspared.trans (ih hrest fun _ => rfl)

end

/-! ## The callback for a lost connection -/

section
variable {cbs : Callback → Bool}

/-- What is followed happens: `up` and `ended` stand for the connection and for a disconnect, and
nothing is called once it has ended. -/
structure Followed (r : Client × List Event) (ended up' ended' : Bool) : Prop where
  up : r.1.ensureConnected = up'
  quiet : ended = true → ended' = true ∧ Quiet r.2
  ended : .disconnected ∈ r.2 → ended' = true
  silent : SilentAfter r.2
  erasing : ∀ frame buf, .erasing frame buf ∉ r.2

theorem Followed.trans {r r' : Client × List Event} {ended up₁ ended₁ up₂ ended₂ : Bool}
    (h : Followed r ended up₁ ended₁) (h' : Followed r' ended₁ up₂ ended₂) :
    Followed (r'.1, r.2 ++ r'.2) ended up₂ ended₂ := by
  refine ⟨h'.up, fun ho => ?_, fun hin => ?_, ?_, fun frame buf he => ?_⟩
  · obtain ⟨ho₁, hquiet⟩ := h.quiet ho
    obtain ⟨ho₂, hquiet'⟩ := h'.quiet ho₁
    exact ⟨ho₂, hquiet.append hquiet'⟩
  · rcases List.mem_append.mp hin with hin | hin
    · exact (h'.quiet (h.ended hin)).1
    · exact h'.ended hin
  · exact h.silent.append h'.silent fun hin => (h'.quiet (h.ended hin)).2
  · rcases List.mem_append.mp he with he | he
    · exact h.erasing frame buf he
    · exact h'.erasing frame buf he

theorem Followed.nil {c : Client} {up ended : Bool} (h : c.ensureConnected = up) :
    Followed (c, []) ended up ended := by
  exact ⟨h, fun ho => ⟨ho, .nil⟩, (fun hin => by cases hin), Quiet.nil.silentAfter,
    fun frame buf he => by cases he⟩

/-- A callback that is called, and what it does. -/
theorem Followed.called {r : Client × List Event} {up' ended' : Bool}
    (h : Followed r false up' ended') (call : Call) :
    Followed (r.1, .called call :: r.2) false up' ended' := by
  refine ⟨h.up, (fun ho => by cases ho), fun hin => ?_, h.silent.cons (by simp),
    fun frame buf he => ?_⟩
  · rcases List.mem_cons.mp hin with hin | hin
    · cases hin
    · exact h.ended hin
  · rcases List.mem_cons.mp he with he | he
    · cases he
    · exact h.erasing frame buf he

mutual

theorem Action.follow_run (herror : cbs .onError = true) (a : Action) {c : Client}
    {up ended up' ended' : Bool} (hup : c.ensureConnected = up)
    (h : a.follow up ended = some (up', ended')) : Followed (a.run cbs c) ended up' ended' := by
  cases a with
  | send msg accepted onError =>
    rw [Action.follow] at h
    split_ifs at h with hok hover
    · obtain ⟨rfl, rfl⟩ := Prod.mk.inj (Option.some.inj h)
      have haccepted : c.ensureConnected = true →
          msg.payload.length ≤ maxFrameLen ∧ accepted = true := fun hc => by
        simpa [← hup, hc] using hok
      obtain ⟨c', hrun, -, -, hconnected⟩ := run_accepted cbs onError haccepted
      rw [hrun]
      exact .nil (hconnected.trans hup)
    · -- the send fails, and `on_error` is called
      obtain rfl : ended = false := by simpa using hover
      obtain ⟨rfl, hfails⟩ : up = true ∧ ¬ (msg.payload.length ≤ maxFrameLen && accepted) = true := by
        simpa [not_or] using hok
      have hnested := followAll_run herror onError (c := c.lose) rfl h
      have hrun : (Action.send msg accepted onError).run cbs c =
          ((runActions cbs onError c.lose).1,
            .called lostCall :: (runActions cbs onError c.lose).2) := by
        rw [Action.run, hup, if_neg (by simp), if_neg hfails, if_pos herror]
      rw [hrun]
      exact hnested.called lostCall
  | disconnect =>
    obtain ⟨rfl, rfl⟩ := Prod.mk.inj (Option.some.inj h)
    have hquiet : Quiet [.disconnected] := by
      intro call hc
      cases List.mem_singleton.mp hc
    refine ⟨rfl, fun _ => ⟨rfl, hquiet⟩, fun _ => rfl, hquiet.silentAfter, fun frame buf he => ?_⟩
    cases List.mem_singleton.mp he
  | connect succeeds =>
    obtain ⟨rfl, rfl⟩ := Prod.mk.inj (Option.some.inj h)
    refine .nil ?_
    cases succeeds <;> rfl

theorem followAll_run (herror : cbs .onError = true) (as : List Action) {c : Client}
    {up ended up' ended' : Bool} (hup : c.ensureConnected = up)
    (h : followAll as up ended = some (up', ended')) :
    Followed (runActions cbs as c) ended up' ended' := by
  cases as with
  | nil =>
    obtain ⟨rfl, rfl⟩ := Prod.mk.inj (Option.some.inj h)
    exact .nil hup
  | cons a as =>
    rw [followAll] at h
    split at h
    · rename_i up₁ ended₁ ha
      have hfirst := Action.follow_run herror a hup ha
      exact hfirst.trans (followAll_run herror as hfirst.up h)
    · cases h

end

end

/-! ## The loop -/

section
variable {cbs : Callback → Bool} {depth : ℕ}

/-- What a careful turn leaves: if a callback has disconnected and the loop goes on, there is no
socket any more and nobody to tell. -/
structure Safe (cbs : Callback → Bool) (r : Outcome × List Event) : Prop where
  erases : ErasesFrames r.2
  silent : SilentAfter r.2
  again : ∀ c', r.1 = .again c' → .disconnected ∈ r.2 → cbs .onError = false ∧ c'.sock = false

theorem Safe.nothing {o : Outcome} : Safe cbs (o, []) := by
  exact ⟨.nil, Quiet.nil.silentAfter, fun c' _ hin => by cases hin⟩

theorem handleDisconnect_safe {onLost : List Action} (c : Client)
    (h : cbs .onError = true → (followAll onLost false false).isSome = true) :
    Safe cbs (.lost (handleDisconnect cbs onLost c).1, (handleDisconnect cbs onLost c).2) := by
  unfold handleDisconnect
  split_ifs with herror
  · obtain ⟨⟨up, ended⟩, hfollow⟩ := Option.isSome_iff_exists.mp (h herror)
    have hcalled := (followAll_run herror onLost (c := c.lose) rfl hfollow).called lostCall
    exact ⟨fun frame buf he => absurd he (hcalled.erasing frame buf), hcalled.silent,
      fun c' hc' => by cases hc'⟩
  · exact .nothing

theorem runCall_spares {onMessage : List Action} (h : Gentle (cbs .onError) true onMessage)
    (call : Option Call) (c : Client) :
    (runCall cbs onMessage call c).1.recvBuf = c.recvBuf ∧
      ∃ es, (runCall cbs onMessage call c).2 = call.toList.map .called ++ es ∧
        ∀ e ∈ es, e = .disconnected ∧ cbs .onError = false ∧
          (runCall cbs onMessage call c).1.sock = false := by
  cases call with
  | none => exact ⟨rfl, [], rfl, fun e he => by cases he⟩
  | some call =>
    have hspared := gentle_spares (c := c) h fun hup => by cases hup
    exact ⟨hspared.recvBuf, _, rfl, hspared.events⟩

/-- The events of a frame: it is dispatched, a callback may be called, the events `es` come from
what that does, and the frame is erased. -/
def frameEvents (payload : Bytes) (call : Option Call) (es : List Event) (frame buf : Bytes) :
    List Event :=
  Event.dispatched payload :: (call.toList.map Event.called ++ es ++ [Event.erasing frame buf])

theorem frameEvents_safe (payload : Bytes) (call : Option Call) {frame buf : Bytes}
    {es : List Event}
    (hframe : frame <+: buf) (hes : ∀ e ∈ es, e = .disconnected) :
    ErasesFrames (frameEvents payload call es frame buf) ∧
      SilentAfter (frameEvents payload call es frame buf) ∧
      (.disconnected ∈ frameEvents payload call es frame buf → .disconnected ∈ es) := by
  have hcalled : Event.disconnected ∉ call.toList.map Event.called := by
    intro hin
    obtain ⟨_, _, h⟩ := List.mem_map.mp hin
    cases h
  have hquiet : Quiet (es ++ [.erasing frame buf]) := by
    intro call hc
    rcases List.mem_append.mp hc with hc | hc
    · cases hes _ hc
    · cases List.mem_singleton.mp hc
  refine ⟨fun f b he => ?_, ?_, fun hin => ?_⟩
  · simp only [frameEvents, List.mem_cons, List.mem_append, List.mem_map, List.not_mem_nil,
      or_false] at he
    rcases he with he | (⟨_, _, he⟩ | he) | he
    · cases he
    · cases he
    · cases hes _ he
    · obtain ⟨rfl, rfl⟩ := Event.erasing.inj he
      exact hframe
  · rw [frameEvents, List.append_assoc]
    exact ((silentAfter_of_not_mem hcalled).append hquiet.silentAfter
      fun hin => absurd hin hcalled).cons (by simp)
  · simp only [frameEvents, List.mem_cons, List.mem_append, List.not_mem_nil, or_false] at hin
    rcases hin with hin | (hin | hin) | hin
    · cases hin
    · exact absurd hin hcalled
    · exact hin
    · cases hin

theorem takeFrame_safe {turn : Turn} (h : Careful (cbs .onError) turn) (c : Client) :
    Safe cbs (c.takeFrame cbs depth turn) := by
  unfold Client.takeFrame
  split
  · exact .nothing
  · exact .nothing
  · rename_i payload rest hhead
    split
    · refine ⟨fun frame buf he => ?_, silentAfter_of_not_mem fun hin => ?_, fun c' hc' => ?_⟩
      · cases List.mem_singleton.mp he
      · cases List.mem_singleton.mp hin
      · cases hc'
    · rename_i session call pos hdecode
      obtain ⟨hbuf, es, hevents, hdisconnected⟩ :=
        runCall_spares h.onMessage call { c with session := session }
      have hframe : c.recvBuf.take (4 + payload.length) <+:
          (runCall cbs turn.onMessage call { c with session := session }).1.recvBuf :=
        hbuf.symm ▸ List.take_prefix _ _
      obtain ⟨herases, hsilent, hin⟩ := frameEvents_safe payload call hframe
        fun e he => (hdisconnected e he).1
      simp only [hevents]
      split_ifs
      · exact ⟨herases, hsilent, fun c' hc' => by cases hc'⟩
      · refine ⟨herases, hsilent, fun c' hc' hd => ?_⟩
        obtain rfl := Outcome.again.inj hc'
        exact (hdisconnected _ (hin hd)).2

theorem tryRecvFrame_safe (depth : ℕ) {turn : Turn} (h : Careful (cbs .onError) turn) (c : Client) :
    Safe cbs (c.tryRecvFrame cbs depth turn) := by
  unfold Client.tryRecvFrame
  split
  · exact takeFrame_safe h _
  · exact takeFrame_safe h c
  · exact handleDisconnect_safe c h.onLost
  · exact handleDisconnect_safe c h.onLost

/-- Without a socket and with nobody to tell, the loop ends in silence. -/
theorem pollLoop_over {turns : List Turn} {c : Client} (herror : cbs .onError = false)
    (hsock : c.sock = false) : Quiet (c.pollLoop cbs depth turns).2 := by
  cases turns with
  | nil => exact .nil
  | cons turn turns =>
    have hturn : c.tryRecvFrame cbs depth turn = (.lost c.lose, []) := by
      simp [Client.tryRecvFrame, hsock, handleDisconnect, herror]
    rw [Client.pollLoop, hturn]
    exact .nil

theorem pollLoop_safe {turns : List Turn} (h : ∀ turn ∈ turns, Careful (cbs .onError) turn)
    (c : Client) : ErasesFrames (c.pollLoop cbs depth turns).2 ∧
      SilentAfter (c.pollLoop cbs depth turns).2 := by
  induction turns generalizing c with
  | nil => exact ⟨.nil, Quiet.nil.silentAfter⟩
  | cons turn turns ih =>
    have hsafe := tryRecvFrame_safe depth (h turn List.mem_cons_self) c
    rw [Client.pollLoop]
    split
    · rename_i c' events hturn
      rw [hturn] at hsafe
      obtain ⟨herases, hsilent⟩ := ih (fun t ht => h t (List.mem_cons_of_mem _ ht)) c'
      refine ⟨fun frame buf he => ?_, hsafe.silent.append hsilent fun hin => ?_⟩
      · rcases List.mem_append.mp he with he | he
        · exact hsafe.erases frame buf he
        · exact herases frame buf he
      · obtain ⟨herror, hsock⟩ := hsafe.again c' rfl hin
        exact pollLoop_over herror hsock
    · rename_i hturn
      rw [hturn] at hsafe
      exact ⟨hsafe.erases, hsafe.silent⟩

end

/-- In a run of `poll` whose callbacks are careful, each frame is erased from the front of a
buffer that still holds it, and nothing is called after a disconnect. -/
theorem poll_safe (cbs : Callback → Bool) (depth : ℕ) (turns : List Turn) (c : Client)
    (h : ∀ turn ∈ turns, Careful (cbs .onError) turn) :
    ErasesFrames (c.poll cbs depth turns).2 ∧ SilentAfter (c.poll cbs depth turns).2 := by
  unfold Client.poll
  split_ifs
  · exact pollLoop_safe h c
  · exact ⟨.nil, Quiet.nil.silentAfter⟩

/-- A pong arrives. If `on_pong` sends a ping that the socket refuses, the frame is erased from an
empty buffer; if it disconnects, `on_error` is called after that. -/
theorem reentrant_callbacks_break :
    (¬ ∀ (cbs : Callback → Bool) (depth : ℕ) (turns : List Turn) (c : Client),
        ErasesFrames (c.poll cbs depth turns).2) ∧
      ¬ ∀ (cbs : Callback → Bool) (depth : ℕ) (turns : List Turn) (c : Client),
        SilentAfter (c.poll cbs depth turns).2 := by
  constructor
  · intro h
    have hevents : (fresh.poll (fun _ => true) 64
        [⟨.data [1, 0, 0, 0, 9], [.send .ping false []], []⟩]).2 =
          [.dispatched [9], .called .pong, .called lostCall, .erasing [1, 0, 0, 0, 9] []] := rfl
    have hprefix := h _ 64 _ fresh [1, 0, 0, 0, 9] [] (by rw [hevents]; simp)
    exact absurd hprefix (by decide)
  · intro h
    have hevents : (fresh.poll (fun _ => true) 64
        [⟨.data [1, 0, 0, 0, 9], [.disconnect], []⟩, ⟨.wouldBlock, [], []⟩]).2 =
          [.dispatched [9], .called .pong] ++ .disconnected ::
            [.erasing [1, 0, 0, 0, 9] [1, 0, 0, 0, 9], .called lostCall] := rfl
    exact h _ 64 _ fresh _ _ hevents lostCall (by simp)

/-- If `on_pong` sends a ping and the socket takes it, nothing breaks. -/
theorem ping_from_pong :
    ErasesFrames (fresh.poll (fun _ => true) 64
        [⟨.data [1, 0, 0, 0, 9], [.send .ping true []], []⟩]).2 ∧
      SilentAfter (fresh.poll (fun _ => true) 64
        [⟨.data [1, 0, 0, 0, 9], [.send .ping true []], []⟩]).2 := by
  refine poll_safe _ 64 _ fresh fun turn hturn => ?_
  obtain rfl := List.mem_singleton.mp hturn
  exact ⟨⟨fun _ => ⟨by decide, rfl⟩, trivial⟩, fun _ => rfl⟩

end Roomie.Cpp
