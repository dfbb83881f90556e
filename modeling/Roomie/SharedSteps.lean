import Roomie.RoomInvariants
import Roomie.SharedRooms

/-!
# What one step does to rooms behind locks

Every step of the finer server is of one of a few kinds: it waits, it moves one connection
on, it creates a room, runs a section under a free lock, unlocks, or removes a registered
room. From the list of kinds follow the invariant that locks are held by connections inside
and that the registry leads to rooms at their place, and the count of steps an event takes.
-/

namespace Roomie.Shared
open HashTables GuardedRuns

/-- Where a room was created: the app and the code up to letter case. -/
def origin (room : Room) : String × String := (room.appKey, room.code.key)

/-- The room whose lock the next step needs. -/
def waitsFor : Phase → Option RoomRef
  | .joining _ _ ref | .leaving _ ref _ | .acting _ ref => some ref
  | .idle | .entering _ | .opening _ | .inside .. | .removing .. => none

/-- The steps of a `Hello` that is to follow a leave. -/
def helloSteps (next : Option Hello) : ℕ := if next.isSome then 4 else 0

/-- How many steps of its own the connection has at most left in its event. -/
def stepsLeft : Phase → ℕ
  | .idle => 0
  | .entering _ => 4
  | .opening _ => 3
  | .joining .. | .acting .. => 2
  | .leaving _ _ next => 3 + helloSteps next
  | .inside _ emptied next => 1 + (if emptied.isSome then 1 else 0) + helloSteps next
  | .removing _ _ next => 1 + helloSteps next

@[simp] theorem stepsLeft_afterLeave (next : Option Hello) :
    stepsLeft (afterLeave next) = helloSteps next := by
  cases next <;> rfl

theorem afterLeave_ne_inside (next : Option Hello) (ref : RoomRef)
    (emptied : Option (String × RoomCode)) (next' : Option Hello) :
    afterLeave next ≠ .inside ref emptied next' := by
  cases next <;> simp [afterLeave]

theorem stepsLeft_eq_zero {phase : Phase} : stepsLeft phase = 0 ↔ phase = .idle := by
  cases phase <;> simp [stepsLeft]

/-- The entries a `Hello` asks for to register a new room. -/
def tries (env : Env) (st : Shared) (h : Hello) : List (String × String) :=
  if h.roomCode.str.isEmpty then
    (triedCodes env (fun code => (st.refAt h.appKey code).isNone) st.fallbackCounter).map
      fun code => (h.appKey, code.key)
  else []

/-- The step changes the phase and the session of one connection at most. -/
structure MovesOn (st st' : Shared) (me : ConnId) : Prop where
  rooms : st'.rooms = st.rooms
  nextRef : st'.nextRef = st.nextRef
  registry : st'.registry = st.registry
  holder : st'.holder = st.holder
  outside : ∀ ref emptied next, st'.phase me ≠ .inside ref emptied next

/-- The kinds of steps of a connection that has begun an event. -/
inductive Proceeded (env : Env) (st : Shared) (me : ConnId) : Shared → Prop
  | idles (idle : st.phase me = .idle) : Proceeded env st me st
  | waits {ref : RoomRef} (waits : waitsFor (st.phase me) = some ref)
      (held : st.holder ref ≠ none) : Proceeded env st me st
  | moves {st' : Shared} {h : Hello} (phase : st.phase me = .entering h ∨ st.phase me = .opening h)
      (moves : MovesOn st st' me)
      (less : stepsLeft (st'.phase me) < stepsLeft (st.phase me)) : Proceeded env st me st'
  | creates {st' : Shared} {h : Hello} {code : RoomCode} {settings : RoomSettings}
      (phase : st.phase me = .opening h) (tried : (h.appKey, code.key) ∈ tries env st h)
      (free : st.registry.lookup (h.appKey, code.key) = none)
      (rooms : st'.rooms = Function.update st.rooms st.nextRef (Room.new h.appKey code settings))
      (nextRef : st'.nextRef = st.nextRef + 1)
      (registry : st'.registry = st.registry.insert (h.appKey, code.key) st.nextRef)
      (holder : st'.holder = st.holder)
      (joins : st'.phase me = .joining h code st.nextRef) : Proceeded env st me st'
  | locks {st' : Shared} {ref : RoomRef} {room : Room} {emptied : Option (String × RoomCode)}
      {next : Option Hello} (waits : waitsFor (st.phase me) = some ref)
      (free : st.holder ref = none) (place : origin room = origin (st.rooms ref))
      (rooms : st'.rooms = Function.update st.rooms ref room) (nextRef : st'.nextRef = st.nextRef)
      (registry : st'.registry = st.registry)
      (holder : st'.holder = Function.update st.holder ref (some me))
      (inside : st'.phase me = .inside ref emptied next)
      (less : stepsLeft (st'.phase me) < stepsLeft (st.phase me)) : Proceeded env st me st'
  | unlocks {st' : Shared} {ref : RoomRef} {emptied : Option (String × RoomCode)}
      {next : Option Hello} (phase : st.phase me = .inside ref emptied next)
      (rooms : st'.rooms = st.rooms) (nextRef : st'.nextRef = st.nextRef)
      (registry : st'.registry = st.registry)
      (holder : st'.holder = Function.update st.holder ref none)
      (outside : ∀ ref emptied next, st'.phase me ≠ .inside ref emptied next)
      (less : stepsLeft (st'.phase me) < stepsLeft (st.phase me)) : Proceeded env st me st'
  | removes {st' : Shared} {appKey : String} {code : RoomCode} {next : Option Hello}
      (phase : st.phase me = .removing appKey code next)
      (rooms : st'.rooms = st.rooms) (nextRef : st'.nextRef = st.nextRef)
      (registry : st'.registry = st.registry ∨
        st'.registry = st.registry.erase (appKey, code.key))
      (holder : st'.holder = st.holder)
      (goesOn : st'.phase me = afterLeave next) : Proceeded env st me st'

section
variable (env : Env) (st : Shared) (me : ConnId)

theorem enter_result {h : Hello} (hp : st.phase me = .entering h) :
    Proceeded env st me (st.enter env me h) := by
  unfold enter
  split
  · refine .moves (.inl hp) ⟨rfl, rfl, rfl, rfl, ?_⟩ ?_ <;> simp [setPhase, hp, stepsLeft]
  · refine .moves (.inl hp) ⟨rfl, rfl, rfl, rfl, ?_⟩ ?_ <;> simp [setPhase, hp, stepsLeft]

theorem getOrCreate_result {h : Hello} (hp : st.phase me = .opening h) :
    Proceeded env st me (st.getOrCreate env me h) := by
  have hleave : ∀ {st' : Shared}, st'.rooms = st.rooms → st'.nextRef = st.nextRef →
      st'.registry = st.registry → st'.holder = st.holder → st'.phase me = .idle →
      Proceeded env st me st' := by
    intro st' hrooms hnext hreg hhold hphase
    refine .moves (.inr hp) ⟨hrooms, hnext, hreg, hhold, by simp [hphase]⟩ ?_
    simp [hphase, hp, stepsLeft]
  unfold getOrCreate
  dsimp only
  split_ifs with hempty
  · split
    · rename_i code hcode
      have hfree := freshCode_free (Prod.ext hcode rfl)
      refine .creates hp ?_ (Option.isNone_iff_eq_none.mp hfree) rfl rfl rfl rfl
        (Function.update_self ..)
      rw [tries, if_pos hempty]
      exact List.mem_map_of_mem (freshCode_tried (Prod.ext hcode rfl))
    · exact hleave rfl rfl rfl rfl (Function.update_self ..)
  · split
    · refine .moves (.inr hp) ⟨rfl, rfl, rfl, rfl, ?_⟩ ?_ <;> simp [setPhase, hp, stepsLeft]
    · exact hleave rfl rfl rfl rfl (Function.update_self ..)

theorem origin_admitPeer (code : RoomCode) (h : Hello) (room : Room) :
    origin (room.admitPeer env me code h []).1 = origin room := by
  rcases room.admit_cases env me code h [] with
    ⟨_, n, message, _, ha⟩ | ⟨_, room', net', pid, joined, ha, hadm⟩
  · rw [ha]
    rfl
  · rw [ha]
    obtain ⟨n, rfl⟩ := hadm.seated
    have hd := Room.seat_data { room with peerCounter := n } pid (room.newcomer me h)
    rw [origin, hd.appKey, hd.code]
    rfl

theorem join_result {h : Hello} {code : RoomCode} {ref : RoomRef}
    (hp : st.phase me = .joining h code ref) (hfree : st.holder ref = none) :
    Proceeded env st me (st.join env me h code ref) := by
  have hplace := origin_admitPeer env me code h (st.rooms ref)
  have hinside : (st.join env me h code ref).phase me = .inside ref none none := by
    unfold join
    dsimp only
    split <;> exact Function.update_self ..
  refine .locks (by rw [hp]; rfl) hfree hplace ?_ ?_ ?_ ?_ hinside
    (by simp [hinside, hp, stepsLeft, helloSteps])
  all_goals
    unfold join
    dsimp only
    split <;> rfl

theorem leave_result {s : Session} {ref : RoomRef} {next : Option Hello}
    (hp : st.phase me = .leaving s ref next) (hfree : st.holder ref = none) :
    Proceeded env st me (st.leave env me s ref next) := by
  have hdata := ((st.rooms ref).removePeer_shrunkTo env s.peerId []).data
  have hplace : origin ((st.rooms ref).removePeer env s.peerId []).1 = origin (st.rooms ref) := by
    rw [origin, hdata.appKey, hdata.code]
    rfl
  refine .locks (by rw [hp]; rfl) hfree hplace rfl rfl rfl rfl (Function.update_self ..) ?_
  simp only [leave, lock, Function.update_self, hp, stepsLeft]
  split_ifs <;> omega

theorem act_result {o : Option RoomOp} {ref : RoomRef} (hp : st.phase me = .acting o ref)
    (hfree : st.holder ref = none) : Proceeded env st me (st.act env me o ref) := by
  cases o with
  | none =>
    exact .locks (by rw [hp]; rfl) hfree rfl rfl rfl rfl rfl (Function.update_self ..)
      (by simp [act, lock, hp, stepsLeft, helloSteps])
  | some o =>
    have hdata := (o.run_shrunkTo env (st.rooms ref) []).data
    have hedit := o.edit_place (st.rooms ref)
    have hplace : origin (o.run env (st.rooms ref) []).1 = origin (st.rooms ref) := by
      rw [origin, hdata.appKey, hdata.code, hedit.1, hedit.2]
      rfl
    exact .locks (by rw [hp]; rfl) hfree hplace rfl rfl rfl rfl (Function.update_self ..)
      (by simp [act, lock, hp, stepsLeft, helloSteps])

theorem unlock_result {ref : RoomRef} {emptied : Option (String × RoomCode)} {next : Option Hello}
    (hp : st.phase me = .inside ref emptied next) :
    Proceeded env st me (st.unlock me ref emptied next) := by
  cases emptied with
  | none =>
    have hphase : (st.unlock me ref none next).phase me = afterLeave next :=
      Function.update_self ..
    refine .unlocks hp rfl rfl rfl rfl (by simp [hphase, afterLeave_ne_inside]) ?_
    rw [hphase, hp, stepsLeft_afterLeave, stepsLeft]
    omega
  | some e =>
    exact .unlocks hp rfl rfl rfl rfl (by simp [unlock, setPhase])
      (by simp [unlock, setPhase, hp, stepsLeft])

theorem removeIfEmpty_result {appKey : String} {code : RoomCode} {next : Option Hello}
    (hp : st.phase me = .removing appKey code next) :
    Proceeded env st me ((st.removeIfEmpty appKey code).setPhase me (afterLeave next)) := by
  have hgone : ∀ {st' : Shared}, st'.rooms = st.rooms → st'.nextRef = st.nextRef →
      st'.holder = st.holder →
      (st'.registry = st.registry ∨ st'.registry = st.registry.erase (appKey, code.key)) →
      Proceeded env st me (st'.setPhase me (afterLeave next)) := by
    intro st' hrooms hnext hhold hreg
    exact .removes hp hrooms hnext hreg hhold (Function.update_self ..)
  unfold removeIfEmpty
  split
  · split_ifs
    · exact hgone rfl rfl rfl (.inr rfl)
    · exact hgone rfl rfl rfl (.inl rfl)
  · exact hgone rfl rfl rfl (.inl rfl)

/-- Every step of a connection is of one of these kinds. -/
theorem proceed_result : Proceeded env st me (st.proceed env me) := by
  have hlock : ∀ {ref : RoomRef} {st' : Shared}, waitsFor (st.phase me) = some ref →
      (st.holder ref = none → Proceeded env st me st') →
      Proceeded env st me (st.whenFree ref st') := by
    intro ref st' hw h
    unfold whenFree
    split_ifs with hfree
    · exact h hfree
    · exact .waits hw hfree
  unfold proceed
  cases hp : st.phase me with
  | idle => exact .idles hp
  | entering h => exact enter_result env st me hp
  | opening h => exact getOrCreate_result env st me hp
  | joining h code ref => exact hlock (by rw [hp]; rfl) (join_result env st me hp)
  | leaving s ref next => exact hlock (by rw [hp]; rfl) (leave_result env st me hp)
  | acting o ref => exact hlock (by rw [hp]; rfl) (act_result env st me hp)
  | inside ref emptied next => exact unlock_result env st me hp
  | removing appKey code next => exact removeIfEmpty_result env st me hp

end

/-- What a begin does: at most the phase and the session of the connection change. -/
theorem begin_moves {st : Shared} {me : ConnId} (event : ConnEvent) (hidle : st.phase me = .idle) :
    MovesOn st (st.begin me event) me := by
  have hsame : MovesOn st st me := ⟨rfl, rfl, rfl, rfl, by simp [hidle]⟩
  have hleave : ∀ next, MovesOn st (st.beginLeave me next) me := by
    intro next
    unfold beginLeave
    split
    · dsimp only
      split
      · exact ⟨rfl, rfl, rfl, rfl, by simp [setPhase]⟩
      · exact ⟨rfl, rfl, rfl, rfl, by simp [setPhase, afterLeave_ne_inside]⟩
    · exact ⟨rfl, rfl, rfl, rfl, by simp [setPhase, afterLeave_ne_inside]⟩
  have hact : ∀ o, MovesOn st (st.beginAct me o) me := by
    intro o
    unfold beginAct
    split
    · split
      · exact ⟨rfl, rfl, rfl, rfl, by simp [setPhase]⟩
      · exact hsame
    · exact hsame
  unfold Shared.begin
  split <;> first | exact hleave _ | exact hact _ | exact hsame

/-- The invariant: the registry leads to rooms at their place, and a lock is held by a connection
that is inside its room. -/
structure Latched (st : Shared) : Prop where
  registered : ∀ key ref, st.registry.lookup key = some ref →
    ref < st.nextRef ∧ origin (st.rooms ref) = key
  holders : ∀ ref conn, st.holder ref = some conn →
    ∃ emptied next, st.phase conn = .inside ref emptied next

theorem latched_start : Latched .start where
  registered _ _ h := by simp [Shared.start] at h
  holders _ _ h := by cases h

namespace Latched
variable {st st' : Shared} {me : ConnId}

/-- Who holds a lock is inside after a step of a connection that was not. -/
theorem still_inside (h : Latched st) (hprivate : Private st st' me) {ref : RoomRef} {conn : ConnId}
    (hout : ∀ emptied next, st.phase me ≠ .inside ref emptied next)
    (hhold : st.holder ref = some conn) : ∃ emptied next, st'.phase conn = .inside ref emptied next := by
  obtain ⟨emptied, next, hin⟩ := h.holders ref conn hhold
  have hne : conn ≠ me := by
    rintro rfl
    exact hout _ _ hin
  exact ⟨emptied, next, (hprivate conn hne).2.trans hin⟩

/-- Only a connection that was not inside moves. -/
theorem moves (h : Latched st) (m : MovesOn st st' me) (hprivate : Private st st' me)
    (hout : ∀ ref emptied next, st.phase me ≠ .inside ref emptied next) : Latched st' where
  registered := by
    rw [m.registry, m.nextRef, m.rooms]
    exact h.registered
  holders ref conn hhold := by
    rw [m.holder] at hhold
    exact h.still_inside hprivate (hout ref) hhold

theorem begin (h : Latched st) (event : ConnEvent) (hidle : st.phase me = .idle) :
    Latched (st.begin me event) :=
  h.moves (begin_moves event hidle) (begin_private st me event) (by simp [hidle])

/-- Whoever waits for a lock is not inside. -/
theorem waits_outside {phase : Phase} {ref : RoomRef} (h : waitsFor phase = some ref) :
    ∀ ref' emptied next, phase ≠ .inside ref' emptied next := by
  rintro ref' emptied next rfl
  cases h

/-- Every step keeps the invariant. -/
theorem proceed (h : Latched st) (env : Env) (me : ConnId) : Latched (st.proceed env me) := by
  have hprivate := proceed_private env st me
  have hresult := proceed_result env st me
  revert hprivate hresult
  generalize st.proceed env me = st'
  intro hprivate hresult
  cases hresult with
  | idles | waits => exact h
  | moves phase moves _ =>
    exact h.moves moves hprivate (by rcases phase with phase | phase <;> simp [phase])
  | creates phase _ _ rooms nextRef registry holder _ =>
    refine ⟨fun key ref hreg => ?_, fun ref conn hhold => ?_⟩
    · rw [registry] at hreg
      rw [nextRef, rooms]
      rcases AList.lookup_insert_some.mp hreg with ⟨rfl, rfl⟩ | ⟨_, hreg⟩
      · exact ⟨Nat.lt_succ_self _, by rw [Function.update_self]; rfl⟩
      · obtain ⟨hlt, hplace⟩ := h.registered key ref hreg
        exact ⟨Nat.lt_succ_of_lt hlt, by rwa [Function.update_of_ne hlt.ne]⟩
    · rw [holder] at hhold
      exact h.still_inside hprivate (by simp [phase]) hhold
  | @locks _ ref room emptied next waits free place rooms nextRef registry holder inside _ =>
    refine ⟨fun key ref' hreg => ?_, fun ref' conn hhold => ?_⟩
    · rw [registry] at hreg
      rw [nextRef, rooms]
      obtain ⟨hlt, hplace⟩ := h.registered key ref' hreg
      refine ⟨hlt, ?_⟩
      by_cases hr : ref' = ref
      · subst hr
        rwa [Function.update_self, place]
      · rwa [Function.update_of_ne hr]
    · rw [holder] at hhold
      by_cases hr : ref' = ref
      · subst hr
        rw [Function.update_self] at hhold
        obtain rfl := Option.some.inj hhold
        exact ⟨emptied, next, inside⟩
      · rw [Function.update_of_ne hr] at hhold
        exact h.still_inside hprivate (waits_outside waits ref') hhold
  | @unlocks _ ref emptied next phase rooms nextRef registry holder _ _ =>
    refine ⟨by rw [registry, nextRef, rooms]; exact h.registered, fun ref' conn hhold => ?_⟩
    rw [holder] at hhold
    by_cases hr : ref' = ref
    · subst hr
      simp at hhold
    · rw [Function.update_of_ne hr] at hhold
      refine h.still_inside hprivate (fun emptied' next' hin => ?_) hhold
      rw [phase] at hin
      exact hr (Phase.inside.inj hin).1.symm
  | removes phase rooms nextRef registry holder _ =>
    refine ⟨fun key ref hreg => ?_, fun ref conn hhold => ?_⟩
    · rw [nextRef, rooms]
      rcases registry with heq | heq
      · exact h.registered key ref (heq ▸ hreg)
      · rw [heq] at hreg
        exact h.registered key ref (AList.lookup_erase_some.mp hreg).2
    · rw [holder] at hhold
      exact h.still_inside hprivate (by simp [phase]) hhold

end Latched

/-- A connection that has something to do and need not wait comes closer to the end of its event. -/
theorem proceed_less (env : Env) {st : Shared} {me : ConnId} (hbusy : st.phase me ≠ .idle)
    (hfree : ∀ ref, waitsFor (st.phase me) = some ref → st.holder ref = none) :
    stepsLeft ((st.proceed env me).phase me) < stepsLeft (st.phase me) := by
  have hresult := proceed_result env st me
  revert hresult
  generalize st.proceed env me = st'
  intro hresult
  cases hresult with
  | idles idle => exact absurd idle hbusy
  | waits waits held => exact absurd (hfree _ waits) held
  | moves _ _ less | locks _ _ _ _ _ _ _ _ less | unlocks _ _ _ _ _ _ less => exact less
  | creates phase _ _ _ _ _ _ joins =>
    rw [joins, phase]
    exact Nat.lt_succ_self 2
  | removes phase _ _ _ _ goesOn =>
    rw [goesOn, phase, stepsLeft_afterLeave, stepsLeft]
    omega

/-- A step that does anything brings the connection closer to the end of its event. -/
theorem proceed_same_or_less (env : Env) (st : Shared) (me : ConnId) :
    st.proceed env me = st ∨ stepsLeft ((st.proceed env me).phase me) < stepsLeft (st.phase me) := by
  by_cases hbusy : st.phase me = .idle
  · left
    rw [Shared.proceed, hbusy]
  by_cases hfree : ∀ ref, waitsFor (st.phase me) = some ref → st.holder ref = none
  · exact .inr (proceed_less env hbusy hfree)
  · push Not at hfree
    obtain ⟨ref, hwaits, hheld⟩ := hfree
    left
    unfold Shared.proceed
    cases hp : st.phase me <;> simp only [hp, waitsFor, Option.some.injEq, reduceCtorEq] at hwaits
    all_goals
      subst hwaits
      exact if_neg hheld

end Roomie.Shared
