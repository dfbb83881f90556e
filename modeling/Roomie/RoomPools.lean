import Roomie.RoomSections

/-!
# Pools of rooms

`room::pool`: the rooms of one app by code, the creation of rooms under fresh codes, the
removal of empty rooms and the public list.
-/

namespace Roomie
open HashTables

def roomCodeLen : ℕ := 6

/-- No `I`, `O`, `0`, `1`. -/
def roomCodeChars : List Char := "ABCDEFGHJKLMNPQRSTUVWXYZ23456789".toList

def roomCodeGenRetries : ℕ := 20

/-- The rooms of one app; a key is a room code up to letter case. -/
structure RoomPool where
  appKey : String
  rooms : Table String Room

namespace RoomPool

def new (appKey : String) : RoomPool := ⟨appKey, ∅⟩

def getRoom (pool : RoomPool) (code : RoomCode) : Option Room := pool.rooms.lookup code.key

/-- Insert a new room only if the code is not already taken. -/
def tryInsertNewRoom (pool : RoomPool) (code : RoomCode) (settings : RoomSettings) :
    Option (RoomCode × Room × RoomPool) :=
  match pool.rooms.lookup code.key with
  | some _ => none
  | none =>
    let room := Room.new pool.appKey code settings
    some (code, room, { pool with rooms := pool.rooms.insert code.key room })

/-- A code from six draws. -/
def randomCode (draws : ℕ → Fin 32) : RoomCode :=
  ⟨String.ofList ((List.range roomCodeLen).map fun i => roomCodeChars.getD (draws i) 'A')⟩

/-- The retry loop of `create_room`. -/
def tryRandomCodes (env : Env) (pool : RoomPool) (settings : RoomSettings) :
    List ℕ → Option (RoomCode × Room × RoomPool)
  | [] => none
  | attempt :: rest =>
    (pool.tryInsertNewRoom (randomCode (env.draws attempt)) settings).or
      (tryRandomCodes env pool settings rest)

/-- `format!("R{}", n)`. -/
def fallbackCode (n : UInt64) : RoomCode := ⟨"R" ++ toString n.toNat⟩

/-- `create_room`; the shared fallback counter advances when all random codes were taken. -/
def createRoom (env : Env) (pool : RoomPool) (fallbackCounter : UInt64) (settings : RoomSettings)
    (requestedCode : String) : Option (RoomCode × Room × RoomPool) × UInt64 :=
  if !requestedCode.isEmpty then
    (pool.tryInsertNewRoom ⟨requestedCode⟩ settings, fallbackCounter)
  else
    match tryRandomCodes env pool settings (List.range roomCodeGenRetries) with
    | some result => (some result, fallbackCounter)
    | none =>
      (pool.tryInsertNewRoom (fallbackCode fallbackCounter) settings, fallbackCounter + 1)

/-- `remove_if_empty`; `locked` says that `try_lock` fails. -/
def removeIfEmpty (pool : RoomPool) (code : RoomCode) (locked : Bool) : RoomPool :=
  match pool.rooms.lookup code.key with
  | some room =>
    if !locked && room.isVacant then { pool with rooms := pool.rooms.erase code.key } else pool
  | none => pool

/-- The list entry of a public room that is not full, password cleared. -/
def listEntry (room : Room) : Option RoomListEntry :=
  if !room.settings.isPublic || room.isFull then none
  else some ⟨room.code, .ofNat (room.clients.size + room.pending.size),
    room.settings.withoutPassword⟩

def listPublicRooms (env : Env) (pool : RoomPool) : List RoomListEntry :=
  (pool.rooms.iter env.rooms).filterMap fun e => listEntry e.2

/-- A creation that succeeds adds one room under a code that was free. -/
structure Created (pool : RoomPool) (settings : RoomSettings) (code : RoomCode) (room : Room)
    (pool' : RoomPool) : Prop where
  free : pool.rooms.lookup code.key = none
  room_eq : room = Room.new pool.appKey code settings
  pool_eq : pool' = { pool with rooms := pool.rooms.insert code.key room }

theorem tryInsertNewRoom_some {pool pool' : RoomPool} {code code' : RoomCode}
    {settings : RoomSettings} {room : Room}
    (h : pool.tryInsertNewRoom code settings = some (code', room, pool')) :
    Created pool settings code' room pool' := by
  unfold tryInsertNewRoom at h
  cases hf : pool.rooms.lookup code.key with
  | some _ => simp [hf] at h
  | none =>
    simp only [hf, Option.some.injEq, Prod.mk.injEq] at h
    obtain ⟨rfl, rfl, rfl⟩ := h
    exact ⟨hf, rfl, rfl⟩

theorem tryRandomCodes_some {env : Env} {pool pool' : RoomPool} {settings : RoomSettings}
    {attempts : List ℕ} {code : RoomCode} {room : Room}
    (h : tryRandomCodes env pool settings attempts = some (code, room, pool')) :
    Created pool settings code room pool' := by
  induction attempts with
  | nil => simp [tryRandomCodes] at h
  | cons attempt rest ih =>
    simp only [tryRandomCodes, Option.or_eq_some_iff] at h
    rcases h with h | ⟨_, h⟩
    · exact tryInsertNewRoom_some h
    · exact ih h

theorem createRoom_some {env : Env} {pool pool' : RoomPool} {n : UInt64}
    {settings : RoomSettings} {requestedCode : String} {code : RoomCode} {room : Room}
    (h : (createRoom env pool n settings requestedCode).1 = some (code, room, pool')) :
    Created pool settings code room pool' := by
  unfold createRoom at h
  split_ifs at h with hr
  · exact tryInsertNewRoom_some h
  · cases ht : tryRandomCodes env pool settings (List.range roomCodeGenRetries) with
    | some result =>
      simp only [ht] at h
      exact tryRandomCodes_some (ht.trans h)
    | none =>
      simp only [ht] at h
      exact tryInsertNewRoom_some h

/-- The codes the server makes up itself. -/
inductive Generated : RoomCode → Prop
  | random (draws : ℕ → Fin 32) : Generated (randomCode draws)
  | fallback (n : UInt64) : Generated (fallbackCode n)

theorem tryInsertNewRoom_code {pool pool' : RoomPool} {code code' : RoomCode}
    {settings : RoomSettings} {room : Room}
    (h : pool.tryInsertNewRoom code settings = some (code', room, pool')) : code' = code := by
  unfold tryInsertNewRoom at h
  cases hf : pool.rooms.lookup code.key with
  | some _ => simp [hf] at h
  | none =>
    simp only [hf, Option.some.injEq, Prod.mk.injEq] at h
    exact h.1.symm

theorem tryRandomCodes_generated {env : Env} {pool pool' : RoomPool} {settings : RoomSettings}
    {attempts : List ℕ} {code : RoomCode} {room : Room}
    (h : tryRandomCodes env pool settings attempts = some (code, room, pool')) :
    Generated code := by
  induction attempts with
  | nil => simp [tryRandomCodes] at h
  | cons attempt rest ih =>
    simp only [tryRandomCodes, Option.or_eq_some_iff] at h
    rcases h with h | ⟨_, h⟩
    · exact tryInsertNewRoom_code h ▸ .random _
    · exact ih h

theorem createRoom_generated {env : Env} {pool pool' : RoomPool} {n : UInt64}
    {settings : RoomSettings} {code : RoomCode} {room : Room}
    (h : (createRoom env pool n settings "").1 = some (code, room, pool')) : Generated code := by
  have he : (!"".isEmpty) = false := by decide
  simp only [createRoom, he, Bool.false_eq_true, if_false] at h
  cases ht : tryRandomCodes env pool settings (List.range roomCodeGenRetries) with
  | some result =>
    simp only [ht] at h
    exact tryRandomCodes_generated (ht.trans h)
  | none =>
    simp only [ht] at h
    exact tryInsertNewRoom_code h ▸ .fallback n

theorem listEntry_password {room : Room} {entry : RoomListEntry} (h : listEntry room = some entry) :
    entry.settings.password = none := by
  unfold listEntry at h
  split_ifs at h
  obtain rfl := Option.some.inj h
  rfl

end RoomPool
end Roomie
