import Roomie.SharedSteps

/-!
# Rooms without members in the registry

A room without members should disappear, but `remove_if_empty` gives up when the lock is
held and is not tried again. Somebody always cares for an empty room in the registry: a
connection whose session names it, its creator on the way in, or a leave under way. Only a
`Hello` that is refused holds the lock without caring for the room afterwards.
-/

namespace Roomie.DeadRooms
open HashTables GuardedRuns Shared

/-- The place a session names. -/
def place (s : Session) : String × String := (s.appKey, s.roomCode.key)

/-- A room nobody has locked yet. -/
def Pristine (room : Room) : Prop :=
  ∃ (appKey : String) (code : RoomCode) (settings : DefaultSettings),
    room = Room.new appKey code settings

theorem Pristine.not_refuses {room : Room} (h : Pristine room) (hello : Hello) :
    ¬ room.Refuses hello := by
  obtain ⟨appKey, code, settings, rfl⟩ := h
  have hpass : (Room.new appKey code settings).settings.password = none := settings.2.password
  have hused : (Room.new appKey code settings).inUse 1 = false :=
    Room.inUse_eq_false.mpr ⟨AList.notMem_empty _, AList.notMem_empty _⟩
  rintro (hb | hf | hw | hn)
  · simp [Room.isBanned, Room.new] at hb
  · unfold Room.isFull at hf
    split_ifs at hf with hmax
    exact hmax (by simpa [Room.new] using hf)
  · simp [Room.wrongPassword, hpass] at hw
  · rw [Room.nextPeerId_of_unused hused] at hn
    cases hn

/-- Who cares for the room behind `ref`, registered under `key`, when it is empty. -/
def CaresFor (st : Shared) (key : String × String) (ref : RoomRef) (conn : ConnId) : Prop :=
  (∃ s, st.session conn = some s ∧ place s = key) ∨
    match st.phase conn with
    | .joining _ _ ref' => ref' = ref ∧ Pristine (st.rooms ref)
    | .leaving _ ref' _ => ref' = ref
    | .inside ref' (some _) _ => ref' = ref
    | .removing appKey code _ => (appKey, code.key) = key
    | .inside _ none _ | .idle | .entering _ | .opening _ | .acting _ _ => False

/-- What is true of a connection in its phase. -/
def PhaseFits (st : Shared) (conn : ConnId) : Prop :=
  match st.phase conn with
  | .idle => True
  | .entering _ | .opening _ => st.session conn = none
  | .joining h code ref => st.session conn = none ∧ ref < st.nextRef ∧
      origin (st.rooms ref) = (h.appKey, code.key)
  | .leaving s ref _ => st.session conn = none ∧ ref < st.nextRef ∧ origin (st.rooms ref) = place s
  | .acting _ ref => (∃ s, st.session conn = some s ∧ place s = origin (st.rooms ref)) ∧
      ref < st.nextRef
  | .inside ref emptied next => st.holder ref = some conn ∧ ref < st.nextRef ∧
      (∀ e, emptied = some e → origin (st.rooms ref) = (e.1, e.2.key)) ∧
      (emptied.isSome ∨ next.isSome → st.session conn = none) ∧
      ((st.rooms ref).isVacant = true → emptied.isSome ∨ (st.session conn = none ∧ next = none) ∨
        ∃ s, st.session conn = some s ∧ place s = origin (st.rooms ref))
  | .removing _ _ _ => st.session conn = none

/-- The invariant: locks and registry are as they should be, every connection fits its phase, and
somebody cares for every empty room in the registry. -/
structure Orderly (st : Shared) : Prop where
  latched : Latched st
  fits : ∀ conn, PhaseFits st conn
  cared : ∀ key ref, st.registry.lookup key = some ref → (st.rooms ref).isVacant = true →
    ∃ conn, CaresFor st key ref conn

/-- The lock of an empty room is held by a `Hello` that was refused. -/
def HeldByRefused (st : Shared) (ref : RoomRef) : Prop :=
  (st.rooms ref).isVacant = true ∧ ∃ conn, st.holder ref = some conn ∧
    st.session conn = none ∧ st.phase conn = .inside ref none none

/-- No removal is tried while a refused `Hello` holds the lock of the empty room. -/
def Unhindered (st : Shared) (t : Tick) : Prop :=
  ∀ appKey code next ref, t.event = none → st.phase t.conn = .removing appKey code next →
    st.refAt appKey code = some ref → ¬ HeldByRefused st ref

/-! ## Connections that do not move -/

/-- What a step of one connection leaves to the others. -/
structure Frame (st st' : Shared) (me : ConnId) : Prop where
  others : Private st st' me
  nextRef : st.nextRef ≤ st'.nextRef
  place : ∀ ref, ref < st.nextRef → origin (st'.rooms ref) = origin (st.rooms ref)
  held : ∀ ref conn, conn ≠ me → ref < st.nextRef → st.holder ref = some conn →
    st'.holder ref = some conn ∧ st'.rooms ref = st.rooms ref

theorem frame_of_moves {st st' : Shared} {me : ConnId} (m : MovesOn st st' me)
    (hprivate : Private st st' me) : Frame st st' me where
  others := hprivate
  nextRef := m.nextRef.ge
  place ref _ := by rw [m.rooms]
  held ref conn _ _ hhold := by
    rw [m.holder, m.rooms]
    exact ⟨hhold, rfl⟩

/-- Every step leaves to the others what is theirs. -/
theorem proceed_frame {st : Shared} {me : ConnId}
    (hholds : ∀ ref emptied next, st.phase me = .inside ref emptied next → st.holder ref = some me)
    (env : Env) : Frame st (st.proceed env me) me := by
  have hprivate := proceed_private env st me
  have hresult := proceed_result env st me
  revert hprivate hresult
  generalize st.proceed env me = st'
  intro hprivate hresult
  cases hresult with
  | idles | waits => exact ⟨hprivate, le_rfl, fun _ _ => rfl, fun _ _ _ _ hhold => ⟨hhold, rfl⟩⟩
  | moves _ moves _ => exact frame_of_moves moves hprivate
  | creates _ _ _ rooms nextRef _ holder _ =>
    have hold : ∀ ref, ref < st.nextRef → st'.rooms ref = st.rooms ref := by
      intro ref hlt
      rw [rooms, Function.update_of_ne hlt.ne]
    refine ⟨hprivate, (Nat.le_succ _).trans nextRef.ge, fun ref hlt => congrArg origin (hold ref hlt),
      ?_⟩
    intro ref conn _ hlt hhold
    rw [holder]
    exact ⟨hhold, hold ref hlt⟩
  | @locks _ ref room _ _ _ free place rooms nextRef _ holder _ _ =>
    refine ⟨hprivate, nextRef.ge, fun ref' _ => ?_, fun ref' conn _ _ hhold => ?_⟩
    · rw [rooms]
      by_cases hr : ref' = ref
      · rw [hr, Function.update_self, place]
      · rw [Function.update_of_ne hr]
    · have hr : ref' ≠ ref := by
        rintro rfl
        simp [free] at hhold
      rw [holder, rooms, Function.update_of_ne hr, Function.update_of_ne hr]
      exact ⟨hhold, rfl⟩
  | @unlocks _ ref _ _ phase rooms nextRef _ holder _ _ =>
    refine ⟨hprivate, nextRef.ge, fun ref' _ => by rw [rooms], fun ref' conn hne _ hhold => ?_⟩
    have hr : ref' ≠ ref := by
      rintro rfl
      exact hne (Option.some.inj (hhold.symm.trans (hholds _ _ _ phase)))
    rw [holder, rooms, Function.update_of_ne hr]
    exact ⟨hhold, rfl⟩
  | removes _ rooms nextRef _ holder _ =>
    refine ⟨hprivate, nextRef.ge, fun ref _ => by rw [rooms], fun ref conn _ _ hhold => ?_⟩
    rw [holder, rooms]
    exact ⟨hhold, rfl⟩

theorem Frame.fits {st st' : Shared} {me conn : ConnId} (f : Frame st st' me) (hne : conn ≠ me)
    (h : PhaseFits st conn) : PhaseFits st' conn := by
  unfold PhaseFits at *
  rw [(f.others conn hne).1, (f.others conn hne).2]
  cases hp : st.phase conn with
  | idle => trivial
  | entering hello | opening hello => simpa [hp] using h
  | joining hello code ref | leaving s ref next =>
    simp only [hp] at h
    exact ⟨h.1, h.2.1.trans_le f.nextRef, (f.place ref h.2.1).trans h.2.2⟩
  | acting o ref =>
    simp only [hp] at h
    dsimp only
    rw [f.place ref h.2]
    exact ⟨h.1, h.2.trans_le f.nextRef⟩
  | inside ref emptied next =>
    simp only [hp] at h
    obtain ⟨hhold, hlt, hrest⟩ := h
    obtain ⟨hhold', hroom⟩ := f.held ref conn hne hlt hhold
    dsimp only
    rw [hroom]
    exact ⟨hhold', hlt.trans_le f.nextRef, hrest⟩
  | removing appKey code next => simpa [hp] using h

/-- Somebody else goes on caring for a room that is still the same. -/
theorem Frame.cares {st st' : Shared} {me conn : ConnId} {key : String × String} {ref : RoomRef}
    (f : Frame st st' me) (hne : conn ≠ me)
    (hroom : Pristine (st.rooms ref) → Pristine (st'.rooms ref))
    (h : CaresFor st key ref conn) : CaresFor st' key ref conn := by
  unfold CaresFor at *
  rw [(f.others conn hne).1, (f.others conn hne).2]
  refine h.imp id fun h => ?_
  cases hp : st.phase conn with
  | joining hello code ref' =>
    simp only [hp] at h
    exact ⟨h.1, hroom h.2⟩
  | inside ref' emptied next =>
    simp only [hp] at h
    cases emptied with
    | none => exact h.elim
    | some e => exact h
  | _ =>
    simp only [hp] at h
    try exact h

/-- An ordered state after a step, checked where the step took place. -/
theorem Orderly.next {st st' : Shared} {me : ConnId} (h : Orderly st) (f : Frame st st' me)
    (hlatched : Latched st') (hfits : PhaseFits st' me)
    (hcared : ∀ key ref, st'.registry.lookup key = some ref → (st'.rooms ref).isVacant = true →
      ∃ conn, CaresFor st' key ref conn) : Orderly st' where
  latched := hlatched
  fits conn := by
    by_cases hc : conn = me
    · exact hc ▸ hfits
    · exact f.fits hc (h.fits conn)
  cared := hcared

/-- A connection without a lock moves on, and hands on the care for a room it cared for. -/
theorem Orderly.move {st st' : Shared} {me : ConnId} (h : Orderly st) (m : MovesOn st st' me)
    (hprivate : Private st st' me)
    (hout : ∀ ref emptied next, st.phase me ≠ .inside ref emptied next)
    (hfits : PhaseFits st' me)
    (hcare : ∀ key ref, st.registry.lookup key = some ref → (st.rooms ref).isVacant = true →
      CaresFor st key ref me → ∃ conn, CaresFor st' key ref conn) : Orderly st' := by
  have hframe := frame_of_moves m hprivate
  refine h.next hframe (h.latched.moves m hprivate hout) hfits ?_
  rw [m.registry, m.rooms]
  intro key ref hreg hv
  obtain ⟨conn, hc⟩ := h.cared key ref hreg hv
  by_cases hme : conn = me
  · exact hcare key ref hreg hv (hme ▸ hc)
  · exact ⟨conn, hframe.cares hme (by rw [m.rooms]; exact id) hc⟩

/-- Who is neither at work nor in a room cares for nothing. -/
theorem not_cares {st : Shared} {key : String × String} {ref : RoomRef} {conn : ConnId}
    (hs : st.session conn = none)
    (hp : st.phase conn = .idle ∨ ∃ h, st.phase conn = .entering h ∨ st.phase conn = .opening h) :
    ¬ CaresFor st key ref conn := by
  rintro (⟨s, hs', _⟩ | h)
  · rw [hs] at hs'
    cases hs'
  · rcases hp with hp | ⟨hello, hp | hp⟩ <;> simp [hp] at h

/-! ## The steps, one by one -/

section
variable {st st' : Shared} {me : ConnId}

theorem fits_afterLeave (next : Option Hello) (hs : st.session me = none)
    (hp : st.phase me = afterLeave next) : PhaseFits st me := by
  unfold PhaseFits
  rw [hp]
  cases next with
  | none => trivial
  | some h => exact hs

theorem beginLeave_keeps (h : Orderly st) (hidle : st.phase me = .idle) (next : Option Hello) :
    PhaseFits (st.beginLeave me next) me ∧ ∀ key ref, st.registry.lookup key = some ref →
      CaresFor st key ref me → CaresFor (st.beginLeave me next) key ref me := by
  unfold beginLeave
  cases hs : st.session me with
  | none =>
    refine ⟨fits_afterLeave next hs (Function.update_self ..), fun key ref _ hc => ?_⟩
    exact absurd hc (not_cares hs (.inl hidle))
  | some s =>
    dsimp only
    -- an idle connection cares for the room of its session only
    have hplace : ∀ key ref, CaresFor st key ref me → place s = key := by
      rintro key ref (⟨s', hs', hk⟩ | hcare)
      · rwa [Option.some.inj (hs.symm.trans hs')]
      · simp [hidle] at hcare
    cases href : (st.setSession me none).refAt s.appKey s.roomCode with
    | none =>
      refine ⟨fits_afterLeave next (Function.update_self ..) (Function.update_self ..),
        fun key ref hreg hc => ?_⟩
      rw [← hplace key ref hc] at hreg
      exact absurd (href.symm.trans hreg) (by simp)
    | some ref =>
      obtain ⟨hlt, horigin⟩ := h.latched.registered _ _ href
      refine ⟨?_, fun key ref' hreg hc => .inr ?_⟩
      · unfold PhaseFits
        simp only [setPhase, Function.update_self]
        exact ⟨Function.update_self .., hlt, horigin⟩
      · rw [← hplace key ref' hc] at hreg
        obtain rfl : ref = ref' := Option.some.inj (href.symm.trans hreg)
        simp [setPhase]

theorem beginAct_keeps (h : Orderly st) (hidle : st.phase me = .idle)
    (o : PeerId → Option RoomOp) : PhaseFits (st.beginAct me o) me ∧
      ∀ key ref, CaresFor st key ref me → CaresFor (st.beginAct me o) key ref me := by
  unfold beginAct
  cases hs : st.session me with
  | none => exact ⟨h.fits me, fun _ _ => id⟩
  | some s =>
    dsimp only
    cases href : st.refAt s.appKey s.roomCode with
    | none => exact ⟨h.fits me, fun _ _ => id⟩
    | some ref =>
      obtain ⟨hlt, horigin⟩ := h.latched.registered _ _ href
      refine ⟨?_, fun key ref' hc => .inl ?_⟩
      · unfold PhaseFits
        simp only [setPhase, Function.update_self]
        exact ⟨⟨s, hs, horigin.symm⟩, hlt⟩
      · rcases hc with hc | hc
        · exact hc
        · simp [hidle] at hc

theorem orderly_begin (h : Orderly st) (hidle : st.phase me = .idle) (event : ConnEvent) :
    Orderly (st.begin me event) := by
  have hkeeps : PhaseFits (st.begin me event) me ∧ ∀ key ref, st.registry.lookup key = some ref →
      CaresFor st key ref me → CaresFor (st.begin me event) key ref me := by
    have hact : ∀ o, PhaseFits (st.beginAct me o) me ∧ ∀ key ref,
        st.registry.lookup key = some ref → CaresFor st key ref me →
          CaresFor (st.beginAct me o) key ref me := fun o =>
      ⟨(beginAct_keeps h hidle o).1, fun key ref _ => (beginAct_keeps h hidle o).2 key ref⟩
    have hsame : PhaseFits st me ∧ ∀ key ref, st.registry.lookup key = some ref →
        CaresFor st key ref me → CaresFor st key ref me := ⟨h.fits me, fun _ _ _ => id⟩
    unfold Shared.begin
    split <;> first | exact beginLeave_keeps h hidle _ | exact hact _ | exact hsame
  refine h.move (begin_moves event hidle) (begin_private st me event) (by simp [hidle]) hkeeps.1
    fun key ref hreg _ hc => ⟨me, hkeeps.2 key ref hreg hc⟩

theorem orderly_enter (h : Orderly st) {hello : Hello} (hp : st.phase me = .entering hello)
    (env : Env) : Orderly (st.enter env me hello) := by
  have hs : st.session me = none := by
    have hfit := h.fits me
    unfold PhaseFits at hfit
    simpa [hp] using hfit
  have hmoves : MovesOn st (st.enter env me hello) me := by
    unfold enter
    split <;> exact ⟨rfl, rfl, rfl, rfl, by simp [setPhase]⟩
  have hfits : PhaseFits (st.enter env me hello) me := by
    unfold enter
    split
    · simp [PhaseFits, setPhase]
    · simpa [PhaseFits, setPhase] using hs
  exact h.move hmoves (enter_private env st me hello) (by simp [hp]) hfits fun key ref _ _ hc =>
    absurd hc (not_cares hs (.inr ⟨hello, .inl hp⟩))

/-- The new room is cared for by its creator, as long as nobody else was in it. -/
theorem orderly_create (h : Orderly st) {hello : Hello} (hp : st.phase me = .opening hello)
    (hs : st.session me = none) (f : Frame st st' me) (hlatched : Latched st') {code : RoomCode}
    (settings : DefaultSettings)
    (hrooms : st'.rooms = Function.update st.rooms st.nextRef (Room.new hello.appKey code settings))
    (hnext : st'.nextRef = st.nextRef + 1)
    (hregistry : st'.registry = st.registry.insert (hello.appKey, code.key) st.nextRef)
    (hsession : st'.session = st.session)
    (hphase : st'.phase me = .joining hello code st.nextRef) : Orderly st' := by
  have hnew : st'.rooms st.nextRef = Room.new hello.appKey code settings := by
    rw [hrooms, Function.update_self]
  refine h.next f hlatched ?_ fun key ref hreg hv => ?_
  · unfold PhaseFits
    simp only [hphase, hsession, hnext, hnew]
    exact ⟨hs, Nat.lt_succ_self _, rfl⟩
  · rw [hregistry] at hreg
    rcases AList.lookup_insert_some.mp hreg with ⟨rfl, rfl⟩ | ⟨_, hreg⟩
    · refine ⟨me, .inr ?_⟩
      simp only [hphase, hnew]
      exact ⟨trivial, hello.appKey, code, settings, rfl⟩
    · obtain ⟨hlt, _⟩ := h.latched.registered key ref hreg
      have hold : st'.rooms ref = st.rooms ref := by
        rw [hrooms, Function.update_of_ne hlt.ne]
      rw [hold] at hv
      obtain ⟨conn, hc⟩ := h.cared key ref hreg hv
      have hne : conn ≠ me := by
        rintro rfl
        exact not_cares hs (.inr ⟨hello, .inr hp⟩) hc
      exact ⟨conn, f.cares hne (by rw [hold]; exact id) hc⟩

theorem orderly_getOrCreate (h : Orderly st) {hello : Hello} (hp : st.phase me = .opening hello)
    (env : Env) (f : Frame st (st.getOrCreate env me hello) me)
    (hlatched : Latched (st.getOrCreate env me hello)) : Orderly (st.getOrCreate env me hello) := by
  have hs : st.session me = none := by
    have hfit := h.fits me
    unfold PhaseFits at hfit
    simpa [hp] using hfit
  -- every way out but a creation moves this connection only
  have hmove : ∀ {st' : Shared}, Frame st st' me → MovesOn st st' me → PhaseFits st' me →
      Orderly st' := fun f m hfits =>
    h.move m f.others (by simp [hp]) hfits fun key ref _ _ hc =>
      absurd hc (not_cares hs (.inr ⟨hello, .inr hp⟩))
  have hout : ∀ {st' : Shared}, Frame st st' me → MovesOn st st' me → st'.phase me = .idle →
      Orderly st' := by
    intro st' f m hphase
    refine hmove f m ?_
    unfold PhaseFits
    rw [hphase]
    trivial
  revert f hlatched
  unfold getOrCreate
  dsimp only
  split_ifs
  · split
    · intro f hlatched
      exact orderly_create h hp hs f hlatched _ rfl rfl rfl rfl (Function.update_self ..)
    · intro f _
      exact hout f ⟨rfl, rfl, rfl, rfl, by simp [setPhase]⟩ (Function.update_self ..)
  · split
    · rename_i ref href
      intro f _
      refine hmove f ⟨rfl, rfl, rfl, rfl, by simp [setPhase]⟩ ?_
      obtain ⟨hlt, horigin⟩ := h.latched.registered _ _ href
      unfold PhaseFits
      simp only [setPhase, Function.update_self]
      exact ⟨hs, hlt, horigin⟩
    · intro f _
      exact hout f ⟨rfl, rfl, rfl, rfl, by simp [setPhase]⟩ (Function.update_self ..)

/-- A section that leaves `room` behind and still holds the lock. -/
theorem orderly_locked (h : Orderly st) (f : Frame st st' me) (hlatched : Latched st')
    {ref : RoomRef} {room : Room} {emptied : Option (String × RoomCode)} {next : Option Hello}
    (hrooms : st'.rooms = Function.update st.rooms ref room) (hnext : st'.nextRef = st.nextRef)
    (hregistry : st'.registry = st.registry) (hholder : st'.holder ref = some me)
    (hphase : st'.phase me = .inside ref emptied next) (hlt : ref < st.nextRef)
    (hemptied : ∀ e, emptied = some e → origin room = (e.1, e.2.key))
    (hsession : emptied.isSome ∨ next.isSome → st'.session me = none)
    (hvacant : room.isVacant = true → emptied.isSome ∨ (st'.session me = none ∧ next = none) ∨
      ∃ s, st'.session me = some s ∧ place s = origin room)
    (helsewhere : ∀ key ref', ref' ≠ ref → CaresFor st key ref' me →
      ∃ s, st'.session me = some s ∧ place s = key)
    (hhere : ∀ key, st.registry.lookup key = some ref → room.isVacant = true →
      ∃ conn, CaresFor st' key ref conn) : Orderly st' := by
  have hroom : st'.rooms ref = room := by rw [hrooms, Function.update_self]
  refine h.next f hlatched ?_ fun key ref' hreg hv => ?_
  · unfold PhaseFits
    simp only [hphase, hroom, hnext]
    exact ⟨hholder, hlt, hemptied, hsession, hvacant⟩
  · rw [hregistry] at hreg
    by_cases hr : ref' = ref
    · subst hr
      exact hhere key hreg (hroom ▸ hv)
    · have hsame : st'.rooms ref' = st.rooms ref' := by rw [hrooms, Function.update_of_ne hr]
      obtain ⟨conn, hc⟩ := h.cared key ref' hreg (hsame ▸ hv)
      by_cases hme : conn = me
      · rw [hme] at hc
        exact ⟨me, .inl (helsewhere key ref' hr hc)⟩
      · exact ⟨conn, f.cares hme (by rw [hsame]; exact id) hc⟩

theorem orderly_join (h : Orderly st) {hello : Hello} {code : RoomCode} {ref : RoomRef}
    (hp : st.phase me = .joining hello code ref) (env : Env)
    (f : Frame st (st.join env me hello code ref) me)
    (hlatched : Latched (st.join env me hello code ref)) :
    Orderly (st.join env me hello code ref) := by
  have hfit := h.fits me
  unfold PhaseFits at hfit
  simp only [hp] at hfit
  obtain ⟨hs, hlt, horigin⟩ := hfit
  have hcares : ∀ {key ref'}, CaresFor st key ref' me → ref' = ref ∧ Pristine (st.rooms ref') := by
    rintro key ref' (⟨s, hs', _⟩ | hc)
    · simp [hs] at hs'
    · simp only [hp] at hc
      exact ⟨hc.1.symm, hc.2⟩
  have hnotelse : ∀ {session : Option Session} key ref', ref' ≠ ref → CaresFor st key ref' me →
      ∃ s, session = some s ∧ place s = key := fun key ref' hne hc => absurd (hcares hc).1 hne
  have hplace := origin_admitPeer env me code hello (st.rooms ref)
  revert f hlatched
  unfold join
  rcases (st.rooms ref).admit_cases env me code hello [] with
    ⟨hr, n, message, _, ha⟩ | ⟨_, room', net', pid, joined, ha, hadm⟩
  · simp only [ha]
    intro f hlatched
    refine orderly_locked h f hlatched rfl rfl rfl (Function.update_self ..)
      (Function.update_self ..) hlt nofun (by simp) (fun _ => .inr (.inl ⟨hs, rfl⟩)) hnotelse
      fun key hreg hv => ?_
    -- who is refused was not alone in caring: the room has been used before
    obtain ⟨conn, hc⟩ := h.cared key ref hreg hv
    have hused : ¬ Pristine (st.rooms ref) := fun hpr => hpr.not_refuses hello hr
    have hne : conn ≠ me := by
      rintro rfl
      exact hused (hcares hc).2
    exact ⟨conn, f.cares hne (fun hpr => absurd hpr hused) hc⟩
  · rw [ha] at hplace
    simp only [ha]
    intro f hlatched
    have hmember : room'.isVacant = false := by
      by_contra hv
      obtain ⟨hc, hpd⟩ := Room.isVacant_iff.mp (by simpa using hv)
      rcases hadm.member with hm | hm
      · exact hc _ (AList.mem_of_lookup hm)
      · exact hpd _ (AList.mem_of_lookup hm)
    refine orderly_locked h f hlatched rfl rfl rfl (Function.update_self ..)
      (Function.update_self ..) hlt nofun (by simp) (by simp [hmember]) hnotelse (by simp [hmember])

theorem orderly_leave (h : Orderly st) {s : Session} {ref : RoomRef} {next : Option Hello}
    (hp : st.phase me = .leaving s ref next) (env : Env)
    (f : Frame st (st.leave env me s ref next) me)
    (hlatched : Latched (st.leave env me s ref next)) : Orderly (st.leave env me s ref next) := by
  have hfit := h.fits me
  unfold PhaseFits at hfit
  simp only [hp] at hfit
  obtain ⟨hs, hlt, horigin⟩ := hfit
  have hdata := ((st.rooms ref).removePeer_shrunkTo env s.peerId []).data
  have hsame : origin ((st.rooms ref).removePeer env s.peerId []).1 = origin (st.rooms ref) := by
    rw [origin, hdata.appKey, hdata.code]
    rfl
  refine orderly_locked h f hlatched rfl rfl rfl (Function.update_self ..) (Function.update_self ..)
    hlt ?_ (fun _ => hs) ?_ ?_ ?_
  · intro e he
    split_ifs at he
    obtain rfl := Option.some.inj he
    exact hsame.trans horigin
  · intro hv
    exact .inl (by rw [if_pos hv]; rfl)
  · rintro key ref' hne (⟨s', hs', _⟩ | hc)
    · simp [hs] at hs'
    · simp only [hp] at hc
      exact absurd hc.symm hne
  · intro key _ hv
    refine ⟨me, .inr ?_⟩
    simp [leave, lock, hv]

theorem orderly_act (h : Orderly st) {o : Option RoomOp} {ref : RoomRef}
    (hp : st.phase me = .acting o ref) (env : Env) (f : Frame st (st.act env me o ref) me)
    (hlatched : Latched (st.act env me o ref)) : Orderly (st.act env me o ref) := by
  have hfit := h.fits me
  unfold PhaseFits at hfit
  simp only [hp] at hfit
  obtain ⟨⟨s, hs, hplace⟩, hlt⟩ := hfit
  -- the session of the connection names the room, whatever the section makes of it
  have hsection : ∀ {room : Room}, Frame st (st.lock me ref room none none) me →
      Latched (st.lock me ref room none none) → Orderly (st.lock me ref room none none) := by
    intro room f hlatched
    have hsame : origin room = origin (st.rooms ref) := by
      rw [← f.place ref hlt]
      simp [lock]
    refine orderly_locked h f hlatched rfl rfl rfl (Function.update_self ..)
      (Function.update_self ..) hlt (fun e he => by cases he) (by simp)
      (fun _ => .inr (.inr ⟨s, hs, hplace.trans hsame.symm⟩)) ?_ ?_
    · rintro key ref' _ (hc | hc)
      · exact hc
      · simp [hp] at hc
    · intro key hreg _
      exact ⟨me, .inl ⟨s, hs, hplace.trans (h.latched.registered key ref hreg).2⟩⟩
  cases o with
  | none => exact hsection f hlatched
  | some o => exact hsection f hlatched

theorem orderly_unlock (h : Orderly st) {ref : RoomRef} {emptied : Option (String × RoomCode)}
    {next : Option Hello} (hp : st.phase me = .inside ref emptied next)
    (f : Frame st (st.unlock me ref emptied next) me)
    (hlatched : Latched (st.unlock me ref emptied next)) :
    Orderly (st.unlock me ref emptied next) := by
  have hfit := h.fits me
  unfold PhaseFits at hfit
  simp only [hp] at hfit
  obtain ⟨_, _, horigin, hs, _⟩ := hfit
  -- the connection goes on caring for the room it was in, and for that of its session
  have hcared : ∀ {phase : Phase}, Frame st
      ({ st with holder := Function.update st.holder ref none }.setPhase me phase) me →
      (∀ key, CaresFor st key ref me → st.registry.lookup key = some ref →
        CaresFor ({ st with holder := Function.update st.holder ref none }.setPhase me phase)
          key ref me) →
      ∀ key ref', st.registry.lookup key = some ref' → (st.rooms ref').isVacant = true →
        ∃ conn, CaresFor ({ st with holder := Function.update st.holder ref none }.setPhase me phase)
          key ref' conn := by
    intro phase f hcare key ref' hreg hv
    obtain ⟨conn, hc⟩ := h.cared key ref' hreg hv
    by_cases hme : conn = me
    · subst hme
      by_cases hr : ref' = ref
      · subst hr
        exact ⟨conn, hcare key hc hreg⟩
      · refine ⟨conn, .inl (hc.resolve_right ?_)⟩
        cases emptied with
        | none => simp [hp]
        | some e =>
          simp only [hp]
          exact fun heq => hr heq.symm
    · exact ⟨conn, f.cares hme id hc⟩
  revert f hlatched
  unfold unlock
  cases emptied with
  | none =>
    intro f hlatched
    refine h.next f hlatched ?_ (hcared f fun key hc _ => .inl (hc.resolve_right (by simp [hp])))
    unfold PhaseFits
    simp only [setPhase, Function.update_self]
    cases next with
    | none => trivial
    | some hello => exact hs (.inr rfl)
  | some e =>
    intro f hlatched
    refine h.next f hlatched ?_ (hcared f fun key _ hreg => .inr ?_)
    · unfold PhaseFits
      simp only [setPhase, Function.update_self]
      exact hs (.inl rfl)
    · simp only [setPhase, Function.update_self]
      exact (horigin e rfl).symm.trans (h.latched.registered key ref hreg).2

theorem orderly_remove (h : Orderly st) {appKey : String} {code : RoomCode} {next : Option Hello}
    (hp : st.phase me = .removing appKey code next)
    (hg : ∀ ref, st.refAt appKey code = some ref → ¬ HeldByRefused st ref)
    (f : Frame st ((st.removeIfEmpty appKey code).setPhase me (afterLeave next)) me)
    (hlatched : Latched ((st.removeIfEmpty appKey code).setPhase me (afterLeave next))) :
    Orderly ((st.removeIfEmpty appKey code).setPhase me (afterLeave next)) := by
  have hs : st.session me = none := by
    have hfit := h.fits me
    unfold PhaseFits at hfit
    simpa only [hp] using hfit
  -- somebody else cares for every room that is still registered, under this code too
  have hnext : ∀ {st' : Shared}, Frame st st' me → Latched st' → st'.session = st.session →
      st'.rooms = st.rooms → st'.phase me = afterLeave next →
      (∀ key ref, st'.registry.lookup key = some ref → st.registry.lookup key = some ref) →
      (∀ ref, st'.registry.lookup (appKey, code.key) = some ref → (st.rooms ref).isVacant = true →
        ∃ conn, conn ≠ me ∧ CaresFor st (appKey, code.key) ref conn) → Orderly st' := by
    intro st' f hlatched hsession hrooms hphase hkept hother
    refine h.next f hlatched (fits_afterLeave next (hsession ▸ hs) hphase) fun key ref hreg hv => ?_
    rw [hrooms] at hv
    have hcares : ∃ conn, conn ≠ me ∧ CaresFor st key ref conn := by
      obtain ⟨conn, hc⟩ := h.cared key ref (hkept key ref hreg) hv
      by_cases hme : conn = me
      · rw [hme] at hc
        rcases hc with ⟨s, hs', _⟩ | hc
        · simp [hs] at hs'
        · rw [hp] at hc
          obtain rfl : (appKey, code.key) = key := hc
          exact hother ref hreg hv
      · exact ⟨conn, hme, hc⟩
    obtain ⟨conn, hme, hc⟩ := hcares
    exact ⟨conn, f.cares hme (by rw [hrooms]; exact id) hc⟩
  revert f hlatched
  unfold removeIfEmpty
  cases href : st.refAt appKey code with
  | none =>
    intro f hlatched
    refine hnext f hlatched rfl rfl (Function.update_self ..) (fun _ _ => id) fun ref hreg => ?_
    exact absurd (href.symm.trans hreg) (by simp)
  | some ref =>
    dsimp only
    split_ifs with hempty
    · intro f hlatched
      refine hnext f hlatched rfl rfl (Function.update_self ..)
        (fun key ref hreg => (AList.lookup_erase_some.mp hreg).2) fun ref' hreg => ?_
      exact absurd rfl (AList.lookup_erase_some.mp hreg).1
    · intro f hlatched
      refine hnext f hlatched rfl rfl (Function.update_self ..) (fun _ _ => id) fun ref' hreg hv => ?_
      obtain rfl : ref = ref' := Option.some.inj (href.symm.trans hreg)
      -- `try_lock` failed, so a connection inside holds the lock
      cases hhold : st.holder ref with
      | none => simp [hhold, hv] at hempty
      | some conn =>
        obtain ⟨emptied, n, hin⟩ := h.latched.holders ref conn hhold
        have hne : conn ≠ me := by
          rintro rfl
          simp [hp] at hin
        have hfit := h.fits conn
        unfold PhaseFits at hfit
        simp only [hin] at hfit
        obtain ⟨_, _, _, _, hvacant⟩ := hfit
        refine ⟨conn, hne, ?_⟩
        cases emptied with
        | some e =>
          refine .inr ?_
          simp only [hin]
        | none =>
          rcases hvacant hv with hsome | ⟨hnone, rfl⟩ | ⟨s, hs', hplace⟩
          · cases hsome
          · exact absurd ⟨hv, conn, hhold, hnone, hin⟩ (hg ref href)
          · exact .inl ⟨s, hs', hplace.trans (h.latched.registered _ ref hreg).2⟩

theorem orderly_proceed (h : Orderly st) {env : Env}
    (hg : ∀ appKey code next ref, st.phase me = .removing appKey code next →
      st.refAt appKey code = some ref → ¬ HeldByRefused st ref) : Orderly (st.proceed env me) := by
  have hframe : Frame st (st.proceed env me) me := by
    refine proceed_frame (fun ref emptied next hin => ?_) env
    have hfit := h.fits me
    unfold PhaseFits at hfit
    simp only [hin] at hfit
    exact hfit.1
  have hlatched := h.latched.proceed env me
  revert hframe hlatched
  unfold proceed
  cases hp : st.phase me with
  | idle => exact fun _ _ => h
  | entering hello => exact fun _ _ => orderly_enter h hp env
  | opening hello => exact orderly_getOrCreate h hp env
  | joining hello code ref =>
    dsimp only [whenFree]
    split_ifs
    · exact orderly_join h hp env
    · exact fun _ _ => h
  | leaving s ref next =>
    dsimp only [whenFree]
    split_ifs
    · exact orderly_leave h hp env
    · exact fun _ _ => h
  | acting o ref =>
    dsimp only [whenFree]
    split_ifs
    · exact orderly_act h hp env
    · exact fun _ _ => h
  | inside ref emptied next => exact orderly_unlock h hp
  | removing appKey code next =>
    exact orderly_remove h hp fun ref href => hg appKey code next ref hp href

theorem orderly_tick {t : Tick} (h : Orderly st) (hg : Unhindered st t) : Orderly (st.tick t) := by
  obtain ⟨env, conn, event⟩ := t
  cases event with
  | some event =>
    simp only [tick]
    split
    · rename_i heq hidle
      obtain rfl := Option.some.inj heq
      exact orderly_begin h hidle _
    · exact h
    · contradiction
  | none =>
    exact orderly_proceed h fun appKey code next ref hp href => hg appKey code next ref rfl hp href

end

/-- As long as no removal meets a refused `Hello`, an empty room is in the registry of a state at
rest only when a connection's session names it. -/
theorem no_dead_room (st : Shared) (h : Reaches tick Unhindered .start st)
    (hrest : ∀ conn, st.phase conn = .idle) (key : String × String) (ref : RoomRef)
    (hreg : st.registry.lookup key = some ref) :
    (st.rooms ref).isVacant = false ∨ ∃ conn s, st.session conn = some s ∧ place s = key := by
  have horderly : Orderly st := by
    have hstart : Orderly .start := by
      refine ⟨latched_start, fun _ => trivial, fun key ref hreg => ?_⟩
      simp [Shared.start] at hreg
    exact h.invariant hstart fun st t hst ht => orderly_tick hst ht
  cases hv : (st.rooms ref).isVacant with
  | false => exact .inl rfl
  | true =>
    obtain ⟨conn, ⟨s, hs, hk⟩ | hc⟩ := horderly.cared key ref hreg hv
    · exact .inr ⟨conn, s, hs, hk⟩
    · simp [hrest conn] at hc

/-- A sufficient check of the guard: nobody holds the lock of the room that is to be removed. -/
def unhindered (st : Shared) (t : Tick) : Bool :=
  match st.phase t.conn with
  | .removing appKey code _ => (st.refAt appKey code).all fun ref => (st.holder ref).isNone
  | _ => true

theorem unhindered_of_check {st : Shared} {t : Tick} (h : unhindered st t = true) :
    Unhindered st t := by
  rintro appKey code next ref _ hp href ⟨_, conn, hhold, _⟩
  simp [unhindered, hp, href, hhold] at h

theorem reaches_of_check {ticks : List Tick} {st : Shared} (h : Reaches tick Unhindered .start st)
    (hc : Along tick (fun st t => unhindered st t = true) st ticks) :
    Reaches tick Unhindered .start (exec tick st ticks) := by
  induction ticks generalizing st with
  | nil => exact h
  | cons t ticks ih => exact ih (h.tail t (unhindered_of_check hc.1)) hc.2

def isIdle : Phase → Bool
  | .idle => true
  | _ => false

theorem eq_idle {p : Phase} (h : isIdle p = true) : p = .idle := by
  cases p <;> first | rfl | cases h

/-- Two connections only. -/
theorem rest_of_pair (ticks : List Tick) (ht : ∀ t ∈ ticks, t.conn < 2)
    (h : isIdle ((exec tick .start ticks).phase 0) && isIdle ((exec tick .start ticks).phase 1) &&
      ((exec tick .start ticks).session 0).isNone && ((exec tick .start ticks).session 1).isNone =
        true) : ∀ conn, (exec tick .start ticks).phase conn = .idle ∧
          (exec tick .start ticks).session conn = none := by
  simp only [Bool.and_eq_true, decide_eq_true_eq, Option.isNone_iff_eq_none] at h
  obtain ⟨⟨⟨hp₀, hp₁⟩, hs₀⟩, hs₁⟩ := h
  intro conn
  match conn with
  | 0 => exact ⟨eq_idle hp₀, hs₀⟩
  | 1 => exact ⟨eq_idle hp₁, hs₁⟩
  | n + 2 =>
    have hne : ∀ t ∈ ticks, t.conn ≠ n + 2 := fun t hm =>
      ne_of_lt (lt_of_lt_of_le (ht t hm) (Nat.le_add_left 2 n))
    obtain ⟨hs, hp⟩ := exec_private hne .start
    exact ⟨hp, hs⟩

/-- A room with a password is left by its only member while somebody else has looked it up. -/
def visit : List Tick :=
  [begins 0 (plainHello "" "h"), goesOn 0, goesOn 0, goesOn 0, goesOn 0,
    begins 0 (.roomControl (.updateSettings { RoomSettings.default with password := some "p" })),
    goesOn 0, goesOn 0, begins 1 (plainHello "aaaaaa" "x"), goesOn 1, goesOn 1,
    begins 0 (.roomControl .leave), goesOn 0, goesOn 0]

/-- The removal comes first: nothing stays. -/
theorem left_room_removed : ¬ ∃ key ref,
    (exec tick .start (visit ++ [goesOn 0, goesOn 1, goesOn 1])).registry.lookup key = some ref ∧
    ((exec tick .start (visit ++ [goesOn 0, goesOn 1, goesOn 1])).rooms ref).isVacant = true := by
  rintro ⟨key, ref, hreg, hvacant⟩
  have hrest := rest_of_pair (visit ++ [goesOn 0, goesOn 1, goesOn 1]) (by decide)
    (by decide +kernel)
  have hreach : Reaches tick Unhindered .start
      (exec tick .start (visit ++ [goesOn 0, goesOn 1, goesOn 1])) := by
    refine reaches_of_check .refl ?_
    exact ⟨by decide +kernel, by decide +kernel, by decide +kernel, by decide +kernel,
      by decide +kernel, by decide +kernel, by decide +kernel, by decide +kernel,
      by decide +kernel, by decide +kernel, by decide +kernel, by decide +kernel,
      by decide +kernel, by decide +kernel, by decide +kernel, by decide +kernel,
      by decide +kernel, trivial⟩
  rcases no_dead_room _ hreach (fun conn => (hrest conn).1) key ref hreg with hv | ⟨conn, s, hs, _⟩
  · cases hvacant.symm.trans hv
  · rw [(hrest conn).2] at hs
    cases hs

/-- The refusal comes first: the removal finds the lock held, and the room stays for good. -/
theorem dead_room_stays : ¬ ∀ st, Reaches tick (fun _ _ => True) .start st →
    (∀ conn, st.phase conn = .idle) → ∀ key ref, st.registry.lookup key = some ref →
      (st.rooms ref).isVacant = false ∨ ∃ conn s, st.session conn = some s ∧ place s = key := by
  intro hall
  have hrest := rest_of_pair (visit ++ [goesOn 1, goesOn 0, goesOn 1]) (by decide)
    (by decide +kernel)
  have hreach : Reaches tick (fun _ _ => True) .start
      (exec tick .start (visit ++ [goesOn 1, goesOn 0, goesOn 1])) := by
    refine Reaches.exec .refl ?_
    exact ⟨trivial, trivial, trivial, trivial, trivial, trivial, trivial, trivial, trivial, trivial,
      trivial, trivial, trivial, trivial, trivial, trivial, trivial, trivial⟩
  have hrun : ((exec tick .start (visit ++ [goesOn 1, goesOn 0, goesOn 1])).registry.lookup
      ("pong", "aaaaaa")).any (fun ref =>
        ((exec tick .start (visit ++ [goesOn 1, goesOn 0, goesOn 1])).rooms ref).isVacant) = true := by
    decide +kernel
  obtain ⟨ref, href, hv⟩ := (Option.any_eq_true ..).mp hrun
  rcases hall _ hreach (fun conn => (hrest conn).1) _ ref href with hv' | ⟨conn, s, hs, _⟩
  · rw [hv] at hv'
    cases hv'
  · rw [(hrest conn).2] at hs
    cases hs

end Roomie.DeadRooms
