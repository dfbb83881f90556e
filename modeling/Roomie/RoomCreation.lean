import Roomie.ServerRuns

/-!
# When a room can be created

A code that is requested can be taken. So can the codes that are drawn, all of them, and the code
made of the counter after them: it shares its form with the drawn ones.
-/

namespace Roomie.RoomCreation
open HashTables RoomPool

/-- The code names a room of the pool, up to letter case. -/
def Taken (pool : RoomPool) (code : RoomCode) : Prop := code.key ∈ pool.rooms

instance (pool : RoomPool) (code : RoomCode) : Decidable (Taken pool code) :=
  inferInstanceAs (Decidable (code.key ∈ pool.rooms))

/-- One of the codes that are tried for a room without a requested code names no room. -/
def CodeLeft (env : Env) (pool : RoomPool) (n : UInt64) : Prop :=
  (∃ attempt < roomCodeGenRetries, ¬ Taken pool (randomCode (env.draws attempt))) ∨
    ¬ Taken pool (fallbackCode n)

theorem tryInsertNewRoom_eq_none {pool : RoomPool} {code : RoomCode} {settings : RoomSettings} :
    pool.tryInsertNewRoom code settings = none ↔ Taken pool code := by
  unfold tryInsertNewRoom Taken
  cases h : pool.rooms.lookup code.key with
  | some room => simpa using AList.mem_of_lookup h
  | none => simpa using AList.lookup_eq_none.mp h

theorem tryRandomCodes_eq_none {env : Env} {pool : RoomPool} {settings : RoomSettings}
    {attempts : List ℕ} : tryRandomCodes env pool settings attempts = none ↔
      ∀ attempt ∈ attempts, Taken pool (randomCode (env.draws attempt)) := by
  induction attempts with
  | nil => simp [tryRandomCodes]
  | cons attempt rest ih =>
    rw [tryRandomCodes, Option.or_eq_none_iff, tryInsertNewRoom_eq_none, ih, List.forall_mem_cons]

/-- A requested code fails when it is taken. -/
theorem createRoom_requested {env : Env} {pool : RoomPool} {n : UInt64} {settings : RoomSettings}
    {requestedCode : String} (h : requestedCode ≠ "") :
    (createRoom env pool n settings requestedCode).1 = none ↔ Taken pool ⟨requestedCode⟩ := by
  have he : (!requestedCode.isEmpty) = true := by simpa using h
  rw [createRoom, if_pos he]
  exact tryInsertNewRoom_eq_none

/-- Without one a room fails when there is no code left. -/
theorem createRoom_unrequested {env : Env} {pool : RoomPool} {n : UInt64}
    {settings : RoomSettings} :
    (createRoom env pool n settings "").1 = none ↔ ¬ CodeLeft env pool n := by
  have hdrawn := @tryRandomCodes_eq_none env pool settings (List.range roomCodeGenRetries)
  have hleft : ¬ CodeLeft env pool n ↔
      (∀ attempt ∈ List.range roomCodeGenRetries, Taken pool (randomCode (env.draws attempt))) ∧
        Taken pool (fallbackCode n) := by
    simp only [CodeLeft, List.mem_range]
    push Not
    rfl
  rw [hleft, ← hdrawn, createRoom, if_neg (by decide)]
  cases tryRandomCodes env pool settings (List.range roomCodeGenRetries) with
  | some result => simp
  | none => simpa using tryInsertNewRoom_eq_none

/-- The pool has gained an empty room with these settings, under a code that was free, and its
other rooms are as they were. -/
structure Gained (pool : RoomPool) (settings : RoomSettings) (code : RoomCode) (room : Room)
    (pool' : RoomPool) : Prop where
  free : ¬ Taken pool code
  coded : room.code = code
  settled : room.settings = settings
  vacant : room.isVacant = true
  app : pool'.appKey = pool.appKey
  here : pool'.getRoom code = some room
  elsewhere : ∀ key, key ≠ code.key → pool'.rooms.lookup key = pool.rooms.lookup key

theorem Gained.of_created {pool pool' : RoomPool} {settings : RoomSettings} {code : RoomCode}
    {room : Room} (h : Created pool settings code room pool') :
    Gained pool settings code room pool' := by
  obtain ⟨free, rfl, rfl⟩ := h
  exact
    { free := AList.lookup_eq_none.mp free
      coded := rfl
      settled := rfl
      vacant := rfl
      app := rfl
      here := AList.lookup_insert _
      elsewhere := fun _ hne => AList.lookup_insert_ne hne }

/-- The pool after `create_room`. -/
def poolAfter (env : Env) (pool : RoomPool) (n : UInt64) (settings : RoomSettings)
    (requestedCode : String) : RoomPool :=
  match (createRoom env pool n settings requestedCode).1 with
  | some (_, _, pool') => pool'
  | none => pool

/-- What the comment of `create_room` promises: the room is new, and there is none only if the
code that was requested names a room already. -/
structure AsDocumented (env : Env) (pool : RoomPool) (n : UInt64) (settings : RoomSettings)
    (requestedCode : String) : Prop where
  created : ∀ code room pool', (createRoom env pool n settings requestedCode).1 =
    some (code, room, pool') → Gained pool settings code room pool'
  refused : (createRoom env pool n settings requestedCode).1 = none →
    poolAfter env pool n settings requestedCode = pool ∧ requestedCode ≠ "" ∧
      Taken pool ⟨requestedCode⟩

/-- Rooms are created as documented exactly when a code was requested or one is left. -/
theorem as_documented_iff (env : Env) (pool : RoomPool) (n : UInt64) (settings : RoomSettings)
    (requestedCode : String) : AsDocumented env pool n settings requestedCode ↔
      requestedCode ≠ "" ∨ CodeLeft env pool n := by
  constructor
  · intro h
    by_contra hno
    obtain ⟨rfl, hleft⟩ := not_or.mp hno |>.imp_left Classical.not_not.mp
    exact (h.refused (createRoom_unrequested.mpr hleft)).2.1 rfl
  · intro h
    refine ⟨fun code room pool' hc => .of_created (createRoom_some hc), fun hn => ?_⟩
    have hsame : poolAfter env pool n settings requestedCode = pool := by rw [poolAfter, hn]
    by_cases he : requestedCode = ""
    · subst he
      exact absurd (h.resolve_left (absurd rfl)) (createRoom_unrequested.mp hn)
    · exact ⟨hsame, he, (createRoom_requested he).mp hn⟩

/-- The numbers of an R and of twos. -/
def secondDraw (i : ℕ) : Fin 32 := ⟨if i = 0 then 15 else 24, by split_ifs <;> decide⟩

/-- A pool that was filled by two draws. -/
def drawnPool : RoomPool where
  appKey := "pong"
  rooms := ((∅ : Table String Room).insert "aaaaaa"
      (Room.new "pong" (randomCode (Env.quiet.draws 0)) .default)).insert "r22222"
    (Room.new "pong" (randomCode secondDraw) .default)

/-- All draws come to the first of its codes, and the counter to the second. -/
theorem no_code_left : ¬ AsDocumented .quiet drawnPool 22222 .default "" := by
  have hnone : (createRoom .quiet drawnPool 22222 .default "").1 = none :=
    createRoom_unrequested.mpr (by simp only [CodeLeft]; decide +kernel)
  exact fun h => (h.refused hnone).2.1 rfl

end Roomie.RoomCreation
