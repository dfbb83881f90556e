import Roomie.Admissions
import Roomie.DeadRooms
import Roomie.HelloOutcomes

/-!
# What a rejected `Hello` leaves behind

A `Hello` starts with leaving the old room, and only then is it checked. After that a rejection
changes nothing: no room is created for it, none is changed, and nobody is told. All that can move
is the id counter of a room whose ids are all in use.
-/

namespace Roomie.RejectedHellos
open HashTables GuardedRuns

/-- The `Hello` is answered with an error. -/
def Rejected (sys : Sys) (a : Action) (h : Hello) : Prop :=
  a.event = .message (.hello h) ∧ ∃ message, .error message ∈ (a.outcome sys).replies

/-- The room is the same, apart from the counter of one that has no free id. -/
def SameRoom (before after : Option Room) : Prop :=
  after = before ∨ ∃ room, before = some room ∧ room.nextPeerId.1 = none ∧
    after = some room.nextPeerId.2

/-- The connection leaves its room instead. -/
def leaving (a : Action) : Action := { a with event := .message (.roomControl .leave) }

/-- The rooms, the session and what others are sent are those after the old room was left; without
an old room everything is as it was. -/
structure OnlyLeaves (sys : Sys) (a : Action) : Prop where
  session : (step sys a).session = Function.update sys.session a.conn none
  joined : ∀ s, sys.session a.conn = some s →
    (a.outcome sys).net = ((leaving a).outcome sys).net ∧
      ∀ appKey key, SameRoom ((step sys (leaving a)).roomAt appKey key)
        ((step sys a).roomAt appKey key)
  alone : sys.session a.conn = none → (a.outcome sys).net = [] ∧
    ∀ appKey key, SameRoom (sys.roomAt appKey key) ((step sys a).roomAt appKey key)

/-- A room that a `Hello` creates does not reject it. -/
theorem not_refused_new {appKey : String} {code : RoomCode} {settings : DefaultSettings} (h : Hello) :
    ¬ (Room.new appKey code settings).Refuses h :=
  DeadRooms.Pristine.not_refuses ⟨appKey, code, settings, rfl⟩ h

/-- The outcome of a `Hello` that is rejected. -/
theorem HelloOutcome.rejected {env : Env} {me : ConnId} {h : Hello} {s : Server} {net : Net}
    {o : Outcome} (ho : HelloOutcome env me h s net o) {message : String}
    (hm : .error message ∈ o.replies) : o.session = none ∧ o.net = net ∧
      ∀ appKey key, SameRoom (s.roomAt appKey key) (o.server.roomAt appKey key) := by
  cases ho with
  | unopened same => exact ⟨rfl, rfl, fun appKey key => .inl (same appKey key)⟩
  | @opened s₁ s₂ s' code room gate opened put =>
    have hsame := (helloGate_ok gate).2
    have hadmission := room.admission env me code h net
    generalize room.admitPeer env me code h net = out at hadmission put hm
    -- what was opened was there before, since a new room does not reject
    have hold : room.Refuses h → s.roomAt h.appKey code.key = some room := by
      intro hrefuses
      rcases opened.origin with ⟨_, _, hat⟩ | ⟨_, _, _, app, settings, rfl⟩
      · exact (hsame _ _).symm.trans hat
      · exact absurd hrefuses (not_refused_new h)
    have helsewhere : ∀ appKey key, ¬ (appKey = h.appKey ∧ key = code.key) →
        s'.roomAt appKey key = s.roomAt appKey key := by
      intro appKey key hk
      rw [put.elsewhere hk, opened.put.elsewhere hk, hsame]
    cases hadmission with
    | refused why =>
      have hrefuses : room.Refuses h := by
        rcases why with hb | hf | hw
        · exact .inl hb
        · exact .inr (.inl hf)
        · exact .inr (.inr (.inl hw))
      have hat := hold hrefuses
      refine ⟨rfl, rfl, fun appKey key => .inl ?_⟩
      by_cases hk : appKey = h.appKey ∧ key = code.key
      · rw [hk.1, hk.2, put.here, hat]
      · exact helsewhere appKey key hk
    | exhausted none_left =>
      have hat := hold (.inr (.inr (.inr none_left)))
      refine ⟨rfl, rfl, fun appKey key => ?_⟩
      by_cases hk : appKey = h.appKey ∧ key = code.key
      · rw [hk.1, hk.2, put.here, hat]
        exact .inr ⟨room, rfl, none_left, rfl⟩
      · exact .inl (helsewhere appKey key hk)
    | seated admitted _ =>
      rw [admitted.joined_eq] at hm
      cases List.mem_singleton.mp hm

/-- A rejected `Hello` does no more than leave the room the connection was in. -/
theorem rejected_only_leaves (sys : Sys) (a : Action) (h : Hello) (hr : Rejected sys a h) :
    OnlyLeaves sys a := by
  obtain ⟨event, message, hm⟩ := hr
  have hout : a.outcome sys = dispatchHello a.env sys.server (sys.session a.conn) a.conn h :=
    Action.outcome_hello event
  have ho := helloOutcome a.env sys.server (sys.session a.conn) a.conn h
  rw [← hout] at ho
  obtain ⟨hsession, hnet, hrooms⟩ := HelloOutcome.rejected ho hm
  have hroomAt : ∀ appKey key, (step sys a).roomAt appKey key =
      (a.outcome sys).server.roomAt appKey key := fun _ _ => rfl
  refine ⟨congrArg (Function.update sys.session a.conn) hsession, fun s hs => ?_, fun hnone => ?_⟩
  · have hleave : (leaving a).outcome sys =
        ⟨(leaveSession a.env sys.server (sys.session a.conn) []).1, none,
          (leaveSession a.env sys.server (sys.session a.conn) []).2, []⟩ := by
      simp only [leaving, Action.outcome, dispatch, hs, dispatchRoomControl, leaveSession]
    have hleft : ∀ appKey key, (step sys (leaving a)).roomAt appKey key =
        (leaveSession a.env sys.server (sys.session a.conn) []).1.roomAt appKey key := by
      intro appKey key
      change ((leaving a).outcome sys).server.roomAt appKey key = _
      rw [hleave]
    refine ⟨by rw [hnet, hleave], fun appKey key => ?_⟩
    rw [hleft, hroomAt]
    exact hrooms appKey key
  · rw [hnone] at hnet hrooms
    exact ⟨hnet, hrooms⟩

/-- The connection in its room looks for another one that does not exist. -/
def searching : Action := sends 0 (plainHello "BBBBBB" "h")

theorem searching_rejected : Rejected Admissions.opened searching
    ⟨"pong", ⟨"BBBBBB"⟩, "h", none, none, none⟩ := by
  refine ⟨rfl, "room not found", ?_⟩
  have hreplies : (searching.outcome Admissions.opened).replies = [.error "room not found"] := rfl
  rw [hreplies]
  exact List.mem_singleton_self _

/-- It is as if it had left. -/
theorem searching_leaves : OnlyLeaves Admissions.opened searching :=
  rejected_only_leaves _ _ _ searching_rejected

/-- Neither the rooms nor the session nor what others hear changes. -/
def ChangesNothing (sys : Sys) (a : Action) : Prop :=
  (∀ appKey key, (step sys a).roomAt appKey key = sys.roomAt appKey key) ∧
    (step sys a).session a.conn = sys.session a.conn ∧
    ∀ conn, conn ≠ a.conn → onChannel conn (a.sent sys) = []

/-- The room it was alone in is gone, although the new one was not found. -/
theorem rejection_empties_room : ¬ ∀ sys, Reachable sys → ∀ a h, Rejected sys a h →
    ChangesNothing sys a := by
  intro hall
  have hgone := (hall Admissions.opened (reachable_exec _) searching _ searching_rejected).1
    "pong" "aaaaaa"
  have hafter : ((step Admissions.opened searching).roomAt "pong" "aaaaaa").isSome = false := by
    decide
  have hbefore : (Admissions.opened.roomAt "pong" "aaaaaa").isSome = true := by decide
  rw [hgone, hbefore] at hafter
  cases hafter

end Roomie.RejectedHellos
