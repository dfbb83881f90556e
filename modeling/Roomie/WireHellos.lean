import Roomie.Admissions
import Roomie.ClientEncoders
import Roomie.HelloOutcomes
import Roomie.RoomCodes
import Roomie.RoomCreation

/-!
# What a room code on the wire makes a `Hello` do

An empty code asks for a new room. What the server looks at is not the string that was sent but
its letters and digits, so a code without any of them asks for a new room as well.
-/

namespace Roomie.WireHellos
open Bincode HashTables GuardedRuns RoomPool RoomCodes RoomCreation Admissions

/-- A `Hello` as a client sends it, with any string for a room code. -/
structure WireHello where
  appKey : String
  roomCode : String
  clientHash : String
  displayName : Option String
  authToken : Option String
  password : Option String

/-- The `Hello` it is read as. -/
def WireHello.received (w : WireHello) : Hello :=
  ⟨w.appKey, deserialize w.roomCode, w.clientHash, w.displayName, w.authToken, w.password⟩

def WireHello.payload (w : WireHello) : Bytes :=
  writeVarint 0 ++ helloBytes w.appKey w.roomCode w.clientHash w.displayName w.authToken w.password

theorem decode_payload (w : WireHello) (h : w.payload.length ≤ maxFrameLen) :
    ClientMessage.decode w.payload = some (.hello w.received) := by
  have hfields := h
  rw [WireHello.payload, List.length_append] at hfields
  have haccepts : clientMessageFormat.Accepts w.payload (.hello w.received) := by
    rw [WireHello.received, deserialize_eq]
    exact (hello_accepts (by omega)).variant.choice rfl
  exact decode_whole haccepts h

/-! ## The steps of a `Hello` -/

section
variable {env : Env} {s s₁ s₂ : Server} {session : Option Session} {me : ConnId} {h : Hello}
  {message : String}

/-- The checks before any room is touched look at the settings cache only. -/
theorem helloGate_of_cache {s s' : Server} (hc : s'.cache = s.cache) :
    (∃ message, helloGate env s' h = .error message) ↔ ∃ message, helloGate env s h = .error message := by
  unfold helloGate
  cases h.validate with
  | error message => simp
  | ok u =>
    dsimp only
    rw [hc]
    split_ifs <;> simp

/-- The rooms of an app, none when there is no pool yet. -/
def poolFor (s : Server) (appKey : String) : RoomPool :=
  (s.registry.lookup appKey).getD (.new appKey)

theorem helloGate_pool (hg : helloGate env s h = .ok s₁) :
    s₁.registry.lookup h.appKey = some (poolFor s h.appKey) ∧
      s₁.fallbackCounter = s.fallbackCounter := by
  unfold helloGate at hg
  cases hv : h.validate with
  | error message => simp [hv] at hg
  | ok u =>
    simp only [hv] at hg
    split_ifs at hg
    obtain rfl := Except.ok.inj hg
    unfold Server.ensurePool poolFor
    split_ifs with hm
    · obtain ⟨pool, hp⟩ := AList.mem_iff_lookup.mp hm
      simp [hp]
    · simp [AList.lookup_eq_none.mpr hm]

/-- For the empty code a room is opened when a code is left for it. -/
theorem openRoom_empty {pool : RoomPool} (he : h.roomCode.str = "")
    (hp : s.registry.lookup h.appKey = some pool) :
    (∃ s' code room, openRoom env s h = (s', .ok (code, room))) ↔
      CodeLeft env pool s.fallbackCounter := by
  have hcreate := @createRoom_unrequested env pool s.fallbackCounter
    (defaultRoomSettingsForApp env.disk s.cache h.appKey).1
  rw [← not_iff_not, ← hcreate]
  unfold openRoom
  have hempty : "".isEmpty = true := rfl
  simp only [hp, he, hempty, if_true]
  generalize createRoom env pool s.fallbackCounter _ "" = created
  obtain ⟨_ | ⟨code, room, pool'⟩, counter⟩ := created
  · simp
  · simp

/-- What was opened is new exactly for the empty code, and it is the only one that can be. -/
theorem opened_new_iff {s' : Server} {code : RoomCode} {room room' : Room} (hsame : SameRooms s s₁)
    (hopened : Opened s₁ h s₂ code room)
    (hput : RoomPut s₂ h.appKey code.key (some room') s') :
    (∃ key room, s.roomAt h.appKey key = none ∧ s'.roomAt h.appKey key = some room) ↔
      h.roomCode.str = "" := by
  have helsewhere : ∀ key, key ≠ code.key →
      s'.roomAt h.appKey key = s.roomAt h.appKey key := by
    intro key hk
    rw [hput.elsewhere fun h => hk h.2, hopened.put.elsewhere fun h => hk h.2, hsame]
  rcases hopened.origin with ⟨hcode, _, hat⟩ | ⟨hcode, hat, _⟩
  · rw [hsame] at hat
    refine iff_of_false ?_ fun he => by simp [he] at hcode
    rintro ⟨key, new, hnone, hsome⟩
    by_cases hk : key = code.key
    · rw [hk] at hnone
      cases hnone.symm.trans hat
    · rw [helsewhere key hk] at hsome
      cases hnone.symm.trans hsome
  · rw [hsame] at hat
    exact iff_of_true ⟨code.key, room', hat, hput.here⟩ (by simpa using hcode)

end

/-! ## Creating and joining -/

section
variable (sys : Sys) (a : Action) (w : WireHello)

/-- A room of the app is there after the `Hello` under a code that named none before. -/
def Creates : Prop :=
  ∃ key room, (vacated sys a).roomAt w.appKey key = none ∧
    (step sys a).roomAt w.appKey key = some room

/-- The connection is let into the room its code denotes. -/
def Joins : Prop :=
  ∃ room room' pid i, Spells w.roomCode room.code ∧
    (vacated sys a).roomAt w.appKey (deserialize w.roomCode).key = some room ∧
    (step sys a).roomAt w.appKey (deserialize w.roomCode).key = some room' ∧
    (step sys a).session a.conn = some ⟨w.appKey, deserialize w.roomCode, pid⟩ ∧
    room'.HasMember pid i ∧ i.tx = a.conn

/-- Only an empty code creates a room; any other joins the room it denotes or is answered with an
error. -/
structure Obeys : Prop where
  created : Creates sys a w → w.roomCode = ""
  named : w.roomCode ≠ "" → ¬ Creates sys a w ∧
    (Joins sys a w ∨ ∃ message, (a.outcome sys).replies = [.error message])

/-- The code is empty or has a letter or digit, or the `Hello` comes to nothing: it is refused
before any room is touched, or no code is left for a new room. -/
def Harmless : Prop :=
  w.roomCode = "" ∨ RoomCode.normalize w.roomCode ≠ "" ∨
    (∃ message, helloGate a.env sys.server w.received = .error message) ∨
    ¬ CodeLeft a.env (poolFor (vacated sys a) w.appKey) (vacated sys a).fallbackCounter

end

section
variable {sys : Sys} {a : Action} {w : WireHello}

theorem received_code : w.received.roomCode.str = RoomCode.normalize w.roomCode := by
  rw [WireHello.received, deserialize_eq]

/-- The rooms as the `Hello` leaves them. -/
theorem roomAt_hello {h : Hello} (event : a.event = .message (.hello h)) (appKey key : String) :
    (step sys a).roomAt appKey key =
      (dispatchHello a.env sys.server (sys.session a.conn) a.conn h).server.roomAt appKey key := by
  rw [← Action.outcome_hello event]
  rfl

/-- A room is created exactly for a code of which nothing is left, when the checks are passed and
there is a code left for it. -/
theorem creates_iff (event : a.event = .message (.hello w.received)) :
    Creates sys a w ↔ RoomCode.normalize w.roomCode = "" ∧
      (∀ message, helloGate a.env sys.server w.received ≠ .error message) ∧
      CodeLeft a.env (poolFor (vacated sys a) w.appKey) (vacated sys a).fallbackCounter := by
  have hcache : (∃ message, helloGate a.env (vacated sys a) w.received = .error message) ↔
      ∃ message, helloGate a.env sys.server w.received = .error message :=
    helloGate_of_cache (leaveSession_cache a.env sys.server (sys.session a.conn) [])
  simp only [Creates, roomAt_hello event]
  cases hg : helloGate a.env (vacated sys a) w.received with
  | error message =>
    rw [dispatchHello_refused hg]
    constructor
    · rintro ⟨key, room, hnone, hsome⟩
      cases hnone.symm.trans hsome
    · rintro ⟨-, hpassed, -⟩
      obtain ⟨message', hrefused⟩ := hcache.mp ⟨message, hg⟩
      exact absurd hrefused (hpassed message')
  | ok s₁ =>
    obtain ⟨hpool, hcounter⟩ := helloGate_pool hg
    have hsame := (helloGate_ok hg).2
    have hpassed : ∀ message, helloGate a.env sys.server w.received ≠ .error message := by
      intro message hrefused
      obtain ⟨message', hrefused'⟩ := hcache.mpr ⟨message, hrefused⟩
      cases hg.symm.trans hrefused'
    have hempty : w.received.roomCode.str = "" → ((∃ s' code room,
        openRoom a.env s₁ w.received = (s', .ok (code, room))) ↔ CodeLeft a.env _ s₁.fallbackCounter) :=
      fun he => openRoom_empty he hpool
    rw [hcounter, received_code] at hempty
    cases ho : openRoom a.env s₁ w.received with
    | mk s₂ answer =>
      cases answer with
      | error message =>
        rw [dispatchHello_unopened hg ho]
        constructor
        · rintro ⟨key, room, hnone, hsome⟩
          rw [(openRoom_error ho).1, hsame] at hsome
          cases hnone.symm.trans hsome
        · rintro ⟨he, -, hleft⟩
          obtain ⟨s', code, room, hopened⟩ := (hempty he).mpr hleft
          cases (Prod.mk.inj (ho.symm.trans hopened)).2
      | ok found =>
        obtain ⟨code, room⟩ := found
        have hopen := openRoom_ok ho
        have hput := Server.roomPut_setRoom hopen.put.here (room.admitPeer a.env a.conn code
          w.received (leaveSession a.env sys.server (sys.session a.conn) []).2).1
        have hnew := opened_new_iff hsame hopen hput
        rw [received_code] at hnew
        rw [dispatchHello_opened hg ho]
        refine hnew.trans ⟨fun he => ⟨he, hpassed, ?_⟩, fun h => h.1⟩
        exact (hempty he).mp ⟨s₂, code, room, ho⟩

/-- Whatever a `Hello` comes to: it is answered with an error, it joins the room its code denotes,
or it creates one. -/
theorem answered (h : Reachable sys) (event : a.event = .message (.hello w.received)) :
    Creates sys a w ∨ Joins sys a w ∨ ∃ message, (a.outcome sys).replies = [.error message] := by
  have hres := dispatchHello_result a.env sys.server (sys.session a.conn) a.conn w.received
  have hsession : (step sys a).session a.conn = (a.outcome sys).session := Function.update_self ..
  have hroom : ∀ appKey key, (step sys a).roomAt appKey key =
      (a.outcome sys).server.roomAt appKey key := fun _ _ => rfl
  rw [← Action.outcome_hello event] at hres
  simp only [Creates, Joins, hsession, hroom]
  revert hres
  generalize a.outcome sys = out
  intro hres
  cases hres with
  | refused _ _ => exact .inr (.inr ⟨_, rfl⟩)
  | rejected _ _ _ _ _ => exact .inr (.inr ⟨_, rfl⟩)
  | @joined s₁ s₂ s' code room room' net' pid joined gate opened admitted put =>
    have hsame := (helloGate_ok gate).2
    rcases opened.origin with ⟨_, rfl, hat⟩ | ⟨_, hat, _⟩
    · have hat := (hsame _ _).symm.trans hat
      have hleft : CodedRooms (leaveSession a.env sys.server (sys.session a.conn) []).1 :=
        (reachable_coded h).left _ _
      have hcoded := (hleft _ _ _ hat).1
      exact .inr (.inl ⟨room, room', pid, _, key_deserialize.mp hcoded.symm, hat, put.here, rfl,
        admitted.member, rfl⟩)
    · exact .inl ⟨code.key, room', (hsame _ _).symm.trans hat, put.here⟩

/-- Only an empty code creates a room exactly when the code is harmless. -/
theorem only_empty_creates_iff (sys : Sys) (h : Reachable sys) (a : Action) (w : WireHello)
    (event : a.event = .message (.hello w.received)) : Obeys sys a w ↔ Harmless sys a w := by
  have hcreates : Creates sys a w ↔ _ := creates_iff event
  constructor
  · intro hobeys
    by_contra hno
    simp only [Harmless, not_or, not_exists, Classical.not_not] at hno
    obtain ⟨hne, he, hpassed, hleft⟩ := hno
    exact hne (hobeys.created (hcreates.mpr ⟨he, hpassed, hleft⟩))
  · intro hharmless
    have hcreated : Creates sys a w → w.roomCode = "" := by
      intro hc
      obtain ⟨he, hpassed, hleft⟩ := hcreates.mp hc
      rcases hharmless with hempty | hne | ⟨message, hrefused⟩ | hnone
      · exact hempty
      · exact absurd he hne
      · exact absurd hrefused (hpassed message)
      · exact absurd hleft hnone
    exact ⟨hcreated, fun hne =>
      ⟨fun hc => hne (hcreated hc), (answered h event).resolve_left fun hc => hne (hcreated hc)⟩⟩

/-- Somebody has typed nothing but hyphens. -/
def hyphens : WireHello := ⟨"pong", "---", "h", none, none, none⟩

/-- Hyphens around the letters do no harm. -/
theorem hyphens_between : Obeys .start (sends 0 (.hello { hyphens with roomCode := "-AA-" }.received))
    { hyphens with roomCode := "-AA-" } :=
  (only_empty_creates_iff .start .refl _ { hyphens with roomCode := "-AA-" } rfl).mpr
    (.inr (.inl (by decide)))

/-- Nothing but hyphens is taken for the wish to have a new room. -/
theorem hyphens_create : ¬ ∀ sys, Reachable sys → ∀ a (w : WireHello),
    ClientMessage.decode w.payload = some (.hello w.received) →
      a.event = .message (.hello w.received) → Obeys sys a w := by
  intro hall
  have hroom : ((step .start (sends 0 (.hello hyphens.received))).roomAt "pong" "aaaaaa").isSome =
      true := by decide
  obtain ⟨room, hr⟩ := Option.isSome_iff_exists.mp hroom
  have hobeys := hall .start .refl (sends 0 (.hello hyphens.received)) hyphens
    (decode_payload hyphens (by decide)) rfl
  have hempty : hyphens.roomCode = "" := hobeys.created ⟨"aaaaaa", room, rfl, hr⟩
  exact absurd hempty (by decide)

end

end Roomie.WireHellos
