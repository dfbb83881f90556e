import Roomie.RoomInvariants

/-!
# What a `Hello` comes to, exactly

The places a `Hello` can end at, with the room as it is left there: which counter it has, who was
seated, and what the session of the connection is afterwards. `HelloResult` says less about the
room and more about who was let in.
-/

namespace Roomie
open HashTables

/-! ## The locked part -/

/-- How the locked part of a `Hello` can end. -/
inductive Room.Admission (env : Env) (me : ConnId) (code : RoomCode) (h : Hello) (room : Room)
    (net : Net) : Room × Net × Except String (PeerId × ServerMessage) → Prop
  | refused {message : String} (why : room.isBanned ⟨h.clientHash⟩ = true ∨ room.isFull = true ∨
      room.wrongPassword h.password = true) : Admission env me code h room net (room, net, .error message)
  | exhausted {message : String} (none_left : room.nextPeerId.1 = none) :
      Admission env me code h room net (room.nextPeerId.2, net, .error message)
  | seated {room' : Room} {net' : Net} {pid : PeerId} {joined : ServerMessage}
      (admitted : room.Admitted env me code h net room' net' pid joined)
      (eq : room' = room.nextPeerId.2.seat pid (room.newcomer me h)) :
      Admission env me code h room net (room', net', .ok (pid, joined))

theorem Room.admission (env : Env) (me : ConnId) (code : RoomCode) (h : Hello) (room : Room)
    (net : Net) : room.Admission env me code h net (room.admitPeer env me code h net) := by
  obtain ⟨⟨n, hn⟩, hfresh⟩ := room.nextPeerId_spec
  unfold admitPeer
  by_cases hb : room.isBanned ⟨h.clientHash⟩ = true
  · rw [if_pos hb]
    exact .refused (.inl hb)
  rw [if_neg hb]
  by_cases hf : room.isFull = true
  · rw [if_pos hf]
    exact .refused (.inr (.inl hf))
  rw [if_neg hf]
  by_cases hw : room.wrongPassword h.password = true
  · rw [if_pos hw]
    exact .refused (.inr (.inr hw))
  rw [if_neg hw]
  cases hid : room.nextPeerId with
  | mk id room' =>
    rw [hid] at hn hfresh
    simp only at hn hfresh
    subst hn
    have hroom : room.nextPeerId.2 = { room with peerCounter := n } := by rw [hid]
    cases id with
    | none =>
      have hnone : room.nextPeerId.1 = none := by rw [hid]
      rw [← hroom]
      exact .exhausted hnone
    | some pid =>
      refine .seated ?_ (by rw [hroom]; rfl)
      exact ⟨by simpa using hb, by simpa using hf, by simpa using hw, by rw [hid], hfresh pid rfl,
        ⟨n, rfl⟩, rfl, rfl⟩

/-! ## The whole -/

section
variable {env : Env} {s s₁ s₂ : Server} {session : Option Session} {me : ConnId} {h : Hello}
  {message : String}

theorem dispatchHello_refused (hg : helloGate env (leaveSession env s session []).1 h =
    .error message) : dispatchHello env s session me h =
      ⟨(leaveSession env s session []).1, none, (leaveSession env s session []).2,
        [.error message]⟩ := by
  simp [dispatchHello, hg]

theorem dispatchHello_unopened (hg : helloGate env (leaveSession env s session []).1 h = .ok s₁)
    (ho : openRoom env s₁ h = (s₂, .error message)) : dispatchHello env s session me h =
      ⟨s₂, none, (leaveSession env s session []).2, [.error message]⟩ := by
  simp [dispatchHello, hg, ho]

/-- The session and the answer after the locked part. -/
def answerOf (appKey : String) (code : RoomCode) :
    Except String (PeerId × ServerMessage) → Option Session × List ServerMessage
  | .error message => (none, [.error message])
  | .ok (pid, joined) => (some ⟨appKey, code, pid⟩, [joined])

theorem dispatchHello_opened {code : RoomCode} {room : Room}
    (hg : helloGate env (leaveSession env s session []).1 h = .ok s₁)
    (ho : openRoom env s₁ h = (s₂, .ok (code, room))) :
    let locked := room.admitPeer env me code h (leaveSession env s session []).2
    dispatchHello env s session me h =
      ⟨s₂.setRoom h.appKey code locked.1, (answerOf h.appKey code locked.2.2).1, locked.2.1,
        (answerOf h.appKey code locked.2.2).2⟩ := by
  simp only [dispatchHello, hg, ho]
  split <;> rename_i hanswer <;> rw [hanswer] <;> rfl

end

/-- A `Hello` that finds no room, or is not allowed to look for one, leaves the rooms as they are.
Any other runs the locked part on the room that it opens. -/
inductive HelloOutcome (env : Env) (me : ConnId) (h : Hello) (s : Server) (net : Net) :
    Outcome → Prop
  | unopened {s' : Server} {message : String} (same : SameRooms s s') :
      HelloOutcome env me h s net ⟨s', none, net, [.error message]⟩
  | opened {s₁ s₂ s' : Server} {code : RoomCode} {room : Room} (gate : helloGate env s h = .ok s₁)
      (opened : Opened s₁ h s₂ code room)
      (put : RoomPut s₂ h.appKey code.key (some (room.admitPeer env me code h net).1) s') :
      HelloOutcome env me h s net
        ⟨s', (answerOf h.appKey code (room.admitPeer env me code h net).2.2).1,
          (room.admitPeer env me code h net).2.1,
          (answerOf h.appKey code (room.admitPeer env me code h net).2.2).2⟩

theorem helloOutcome (env : Env) (s : Server) (session : Option Session) (me : ConnId)
    (h : Hello) : HelloOutcome env me h (leaveSession env s session []).1
      (leaveSession env s session []).2 (dispatchHello env s session me h) := by
  cases hg : helloGate env (leaveSession env s session []).1 h with
  | error message =>
    rw [dispatchHello_refused hg]
    exact .unopened fun _ _ => rfl
  | ok s₁ =>
    have hsame := (helloGate_ok hg).2
    cases ho : openRoom env s₁ h with
    | mk s₂ answer =>
      cases answer with
      | error message =>
        rw [dispatchHello_unopened hg ho]
        exact .unopened fun appKey key =>
          ((openRoom_error ho).1 appKey key).trans (hsame appKey key)
      | ok found =>
        obtain ⟨code, room⟩ := found
        rw [dispatchHello_opened hg ho]
        exact .opened hg (openRoom_ok ho) (Server.roomPut_setRoom (openRoom_ok ho).put.here _)

/-- The room a `Hello` finds under a key, or makes there. -/
def FoundOrNew (s : Server) (appKey key : String) (room : Room) : Prop :=
  s.roomAt appKey key = some room ∨ s.roomAt appKey key = none ∧
    ∃ (app : String) (code : RoomCode) (settings : DefaultSettings), room = Room.new app code settings

/-- At one place a `Hello` leaves the room as it is, or runs the locked part on it. -/
theorem HelloOutcome.roomAt {env : Env} {me : ConnId} {h : Hello} {s : Server} {net : Net}
    {o : Outcome} (ho : HelloOutcome env me h s net o) (appKey key : String) :
    (o.server.roomAt appKey key = s.roomAt appKey key ∧
      ∀ new, o.session = some new → ¬ (new.appKey = appKey ∧ new.roomCode.key = key)) ∨
    ∃ code room, h.appKey = appKey ∧ code.key = key ∧ FoundOrNew s appKey key room ∧
      o.server.roomAt appKey key = some (room.admitPeer env me code h net).1 ∧
      o.session = (answerOf h.appKey code (room.admitPeer env me code h net).2.2).1 := by
  cases ho with
  | unopened same => exact .inl ⟨same appKey key, fun _ hn => by cases hn⟩
  | @opened s₁ s₂ s' code room gate opened put =>
    have hsame := (helloGate_ok gate).2
    by_cases hk : appKey = h.appKey ∧ key = code.key
    · obtain ⟨rfl, rfl⟩ := hk
      refine .inr ⟨code, room, rfl, rfl, ?_, put.here, rfl⟩
      rcases opened.origin with ⟨_, _, hat⟩ | ⟨_, hat, _, app, settings, hnew⟩
      · exact .inl ((hsame _ _).symm.trans hat)
      · exact .inr ⟨(hsame _ _).symm.trans hat, app, code, settings, hnew⟩
    · refine .inl ⟨?_, fun new hnew => ?_⟩
      · rw [put.elsewhere hk, opened.put.elsewhere hk, hsame]
      · generalize (room.admitPeer env me code h net).2.2 = answer at hnew
        cases answer with
        | error message => cases hnew
        | ok found =>
          obtain rfl := Option.some.inj hnew
          exact fun hp => hk ⟨hp.1.symm, hp.2.symm⟩

end Roomie
