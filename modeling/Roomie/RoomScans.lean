import Roomie.SharedSteps

/-!
# Walks through the rooms of an app

The registry and every pool are maps in shards, each behind a lock of its own. A `Hello` writes
to a shard of the registry to make sure of its pool, then reads it, and keeps the guard while it
looks for a room or writes a new one to a shard of the pool; `leave_room` keeps such a guard
while it removes a room. `list_public_rooms` and `room_and_player_counts` go through a pool
shard by shard: they hold the guard of the registry and that of the shard they are in, and take
the lock of one room after the other. Who writes to a shard waits for all who hold it, and does
so in one step; who reads one waits for nobody. A walk is recorded with what it saw: each room
as it was under its lock.
-/

namespace Roomie.RoomScans
open HashTables GuardedRuns Shared

/-- How the keys of the maps are spread over shards. -/
structure Layout where
  /-- The shard of the registry an app is in. -/
  appShard : String → ℕ
  /-- The number of shards of a pool. -/
  shards : ℕ
  /-- The shard of its pool a room is in. -/
  roomShard : String → ℕ
  roomShard_lt : ∀ key, roomShard key < shards

/-- A walk under way: the app, the apps that come after it, the shards of its pool opened so far, of
which the last one is held, the rooms of it still to be visited, and the rooms seen. -/
structure Walk where
  appKey : String
  later : List String
  opened : ℕ
  todo : List (String × RoomRef)
  seen : List (String × Room)

/-- A walk over an app that has opened no shard. -/
def Walk.new (appKey : String) (later : List String) : Walk := ⟨appKey, later, 0, [], []⟩

/-- The next room is seen. -/
def Walk.see (walk : Walk) (key : String) (room : Room) (rest : List (String × RoomRef)) : Walk :=
  { walk with todo := rest, seen := walk.seen ++ [(key, room)] }

/-- The next shard is opened; its guard replaces the one before. -/
def Walk.openShard (walk : Walk) (rooms : List (String × RoomRef)) : Walk :=
  { walk with opened := walk.opened + 1, todo := rooms }

/-- Who is at work: the task of a connection, or a request for the statistics. -/
inductive Party where
  | conn (conn : ConnId)
  | http (request : ℕ)
  deriving DecidableEq

/-- How far a connection has come with the pool it needs. -/
inductive Grip where
  /-- After `registry.entry`: the pool is there. -/
  | ensured
  /-- After `registry.get`: the guard of the registry is held. -/
  | held (appKey : String)
  deriving DecidableEq

/-- The app in whose shard of the registry the guard is. -/
def Grip.pool : Grip → Option String
  | .ensured => none
  | .held appKey => some appKey

/-- The connections, what they have got hold of, the walks under way, and what the last walk of each
party saw. -/
structure Hall where
  st : Shared
  grips : Table ConnId Grip
  walks : Table Party Walk
  answer : Party → Option (List (String × Room))

def Hall.start : Hall := ⟨.start, ∅, ∅, fun _ => none⟩

/-- The begin of an event of a connection, the begin of a request that goes through these apps, or
the next step of one that has begun. -/
inductive Turn where
  | begins (env : Env) (conn : ConnId) (event : ConnEvent)
  | asks (request : ℕ) (appKey : String) (later : List String)
  | goesOn (env : Env) (party : Party)

/-- The pool in which the next steps are taken. -/
def poolOf : Phase → Option String
  | .opening h => some h.appKey
  | .removing appKey _ _ => some appKey
  | .idle | .entering _ | .joining .. | .leaving .. | .acting .. | .inside .. => none

namespace Hall
variable (lay : Layout)

/-- A walk holds the guard of the shard with this room. -/
def guarded (hall : Hall) (key : String × String) : Bool :=
  hall.walks.entries.any fun e =>
    e.2.appKey == key.1 && e.2.opened == lay.roomShard key.2 + 1

/-- A walk or a connection holds the shard of the registry with this app. -/
def poolGuarded (hall : Hall) (appKey : String) : Bool :=
  (hall.walks.entries.any fun e => lay.appShard e.2.appKey == lay.appShard appKey) ||
    hall.grips.entries.any fun e => e.2.pool.any (lay.appShard · == lay.appShard appKey)

/-- `registry.entry` writes to the shard of the registry; the guard is dropped at once. -/
def ensurePool (hall : Hall) (conn : ConnId) (appKey : String) : Hall :=
  if hall.poolGuarded lay appKey then hall
  else { hall with grips := hall.grips.insert conn .ensured }

/-- `registry.get`, whose guard is kept. -/
def getPool (hall : Hall) (conn : ConnId) (appKey : String) : Hall :=
  { hall with grips := hall.grips.insert conn (.held appKey) }

/-- The work in the pool writes to the shards of these entries; then the guard of the registry is
dropped. -/
def inPool (hall : Hall) (env : Env) (conn : ConnId) (keys : List (String × String)) : Hall :=
  if keys.any (hall.guarded lay) then hall
  else { hall with st := hall.st.proceed env conn, grips := hall.grips.erase conn }

/-- The next step of a connection. -/
def workOn (hall : Hall) (env : Env) (conn : ConnId) : Hall :=
  match hall.st.phase conn, hall.grips.lookup conn with
  | .opening h, none => hall.ensurePool lay conn h.appKey
  | .opening h, some .ensured => hall.getPool conn h.appKey
  | .opening h, some (.held _) => hall.inPool lay env conn (tries env hall.st h)
  | .removing appKey _ _, none => hall.getPool conn appKey
  | .removing appKey code _, some _ => hall.inPool lay env conn [(appKey, code.key)]
  | _, _ => { hall with st := hall.st.proceed env conn }

/-- The rooms of an app in one shard of its pool, in the order in which the loop meets them. -/
def inShard (hall : Hall) (env : Env) (appKey : String) (shard : ℕ) : List (String × RoomRef) :=
  let keys := hall.st.registry.keys.filterMap fun k =>
    if k.1 = appKey ∧ lay.roomShard k.2 = shard then some k.2 else none
  (env.rooms.order keys).filterMap fun key => (hall.st.registry.lookup (appKey, key)).map (key, ·)

def startWalk (hall : Hall) (p : Party) (appKey : String) (later : List String) : Hall :=
  { hall with walks := hall.walks.insert p (.new appKey later) }

/-- The walk through an app is done; the next app follows, if there is one. -/
def endWalk (hall : Hall) (p : Party) (walk : Walk) : Hall :=
  { hall with
    walks := match walk.later with
      | [] => hall.walks.erase p
      | appKey :: later => hall.walks.insert p (.new appKey later)
    answer := Function.update hall.answer p (some walk.seen) }

/-- The next room is seen once its lock is free; after the last one of a shard the next shard is
opened, and after the last shard the walk through this app is done. -/
def walkOn (hall : Hall) (env : Env) (p : Party) (walk : Walk) : Hall :=
  match walk.todo with
  | (key, ref) :: rest =>
    if hall.st.holder ref = none then
      { hall with walks := hall.walks.insert p (walk.see key (hall.st.rooms ref) rest) }
    else hall
  | [] =>
    if walk.opened < lay.shards then
      let rooms := hall.inShard lay env walk.appKey walk.opened
      { hall with walks := hall.walks.insert p (walk.openShard rooms) }
    else hall.endWalk p walk

/-- `ListRooms` from an idle connection: the check of the app, then the walk. -/
def listRooms (hall : Hall) (env : Env) (conn : ConnId) (appKey : String) : Hall :=
  let (registered, cache) := isRegisteredApp env.disk hall.st.cache appKey
  let hall := { hall with st := { hall.st with cache := cache } }
  if registered then hall.startWalk (.conn conn) appKey [] else hall

/-- A party on a walk begins nothing else. -/
def step (hall : Hall) : Turn → Hall
  | .begins env conn event =>
    if Party.conn conn ∈ hall.walks then hall
    else match event, hall.st.phase conn with
      | .message (.listRooms appKey), .idle => hall.listRooms env conn appKey
      | event, _ => { hall with st := hall.st.tick ⟨env, conn, some event⟩ }
  | .asks request appKey later =>
    if Party.http request ∈ hall.walks then hall
    else hall.startWalk (.http request) appKey later
  | .goesOn env p =>
    match hall.walks.lookup p, p with
    | some walk, p => hall.walkOn lay env p walk
    | none, .conn conn => hall.workOn lay env conn
    | none, .http _ => hall

end Hall

open Hall

variable {lay : Layout}

/-! ## What a turn does -/

/-- The entries a connection asks for in the pool. -/
def entriesOf (env : Env) (st : Shared) : Phase → List (String × String)
  | .opening h => tries env st h
  | .removing appKey code _ => [(appKey, code.key)]
  | .idle | .entering _ | .joining .. | .leaving .. | .acting .. | .inside .. => []

/-- A connection changes the registry only in a pool, and only under an entry it asked for. -/
theorem proceed_registry {env : Env} {st : Shared} {conn : ConnId} {key : String × String}
    (hkey : key ∉ entriesOf env st (st.phase conn)) :
    (st.proceed env conn).registry.lookup key = st.registry.lookup key := by
  have hresult := proceed_result env st conn
  revert hresult
  generalize st.proceed env conn = st'
  intro hresult
  cases hresult with
  | idles | waits => rfl
  | moves _ moves _ => rw [moves.registry]
  | locks _ _ _ _ _ registry _ _ _ => rw [registry]
  | unlocks _ _ _ registry _ _ _ => rw [registry]
  | creates phase tried _ _ _ registry _ _ =>
    rw [registry, AList.lookup_insert_ne]
    rintro rfl
    rw [phase] at hkey
    exact hkey tried
  | removes phase _ _ registry _ _ =>
    rcases registry with heq | heq
    · rw [heq]
    · rw [heq, AList.lookup_erase_ne]
      rintro rfl
      rw [phase] at hkey
      exact hkey List.mem_cons_self

/-- The kinds of turns: nothing happens, an event begins, a connection works or takes hold of its
pool, or a walk begins or goes on. -/
inductive Turned (lay : Layout) (hall : Hall) : Turn → Hall → Prop
  | nothing {t : Turn} : Turned lay hall t hall
  | begins {env : Env} {conn : ConnId} {event : ConnEvent} (free : Party.conn conn ∉ hall.walks)
      (idle : hall.st.phase conn = .idle) :
      Turned lay hall (.begins env conn event) { hall with st := hall.st.begin conn event }
  | cached {env : Env} {conn : ConnId} {event : ConnEvent} (cache : SettingsCache) :
      Turned lay hall (.begins env conn event) { hall with st := { hall.st with cache := cache } }
  | lists {env : Env} {conn : ConnId} {event : ConnEvent} (free : Party.conn conn ∉ hall.walks)
      (idle : hall.st.phase conn = .idle) (cache : SettingsCache) (appKey : String) :
      Turned lay hall (.begins env conn event)
        { hall with
          st := { hall.st with cache := cache }
          walks := hall.walks.insert (.conn conn) (.new appKey []) }
  | asks {request : ℕ} {appKey : String} {later : List String}
      (free : Party.http request ∉ hall.walks) :
      Turned lay hall (.asks request appKey later)
        { hall with walks := hall.walks.insert (.http request) (.new appKey later) }
  | works {env : Env} {conn : ConnId} (free : Party.conn conn ∉ hall.walks)
      (outside : poolOf (hall.st.phase conn) = none) :
      Turned lay hall (.goesOn env (.conn conn)) { hall with st := hall.st.proceed env conn }
  | grips {env : Env} {conn : ConnId} {grip : Grip}
      (inside : (poolOf (hall.st.phase conn)).isSome)
      (closer : hall.grips.lookup conn = none ∨
        hall.grips.lookup conn = some .ensured ∧ grip ≠ .ensured) :
      Turned lay hall (.goesOn env (.conn conn))
        { hall with grips := hall.grips.insert conn grip }
  | pools {env : Env} {conn : ConnId} (free : Party.conn conn ∉ hall.walks)
      (inside : (poolOf (hall.st.phase conn)).isSome)
      (ready : ∀ key ∈ entriesOf env hall.st (hall.st.phase conn), hall.guarded lay key = false) :
      Turned lay hall (.goesOn env (.conn conn))
        { hall with st := hall.st.proceed env conn, grips := hall.grips.erase conn }
  | sees {env : Env} {p : Party} {walk : Walk} {key : String} {ref : RoomRef}
      {rest : List (String × RoomRef)} (walks : hall.walks.lookup p = some walk)
      (todo : walk.todo = (key, ref) :: rest) (free : hall.st.holder ref = none) :
      Turned lay hall (.goesOn env p)
        { hall with walks := hall.walks.insert p (walk.see key (hall.st.rooms ref) rest) }
  | opens {env : Env} {p : Party} {walk : Walk} (walks : hall.walks.lookup p = some walk)
      (todo : walk.todo = []) (more : walk.opened < lay.shards) :
      Turned lay hall (.goesOn env p)
        { hall with
          walks := hall.walks.insert p
            (walk.openShard (hall.inShard lay env walk.appKey walk.opened)) }
  | ends {env : Env} {p : Party} {walk : Walk} (walks : hall.walks.lookup p = some walk)
      (todo : walk.todo = []) (last : lay.shards ≤ walk.opened) :
      Turned lay hall (.goesOn env p) (hall.endWalk p walk)

theorem tick_event (st : Shared) (env : Env) (conn : ConnId) (event : ConnEvent) :
    st.tick ⟨env, conn, some event⟩ = st ∨
      st.phase conn = .idle ∧ st.tick ⟨env, conn, some event⟩ = st.begin conn event := by
  unfold tick
  dsimp only
  cases st.phase conn with
  | idle => exact .inr ⟨rfl, rfl⟩
  | _ => exact .inl rfl

theorem inPool_result {hall : Hall} {env : Env} {conn : ConnId}
    (hfree : Party.conn conn ∉ hall.walks) (hinside : (poolOf (hall.st.phase conn)).isSome) :
    Turned lay hall (.goesOn env (.conn conn))
      (hall.inPool lay env conn (entriesOf env hall.st (hall.st.phase conn))) := by
  unfold inPool
  split_ifs with hguarded
  · exact .nothing
  · refine .pools hfree hinside fun key hkey => ?_
    by_contra hheld
    exact hguarded (List.any_eq_true.mpr ⟨key, hkey, by simpa using hheld⟩)

theorem workOn_result {hall : Hall} {conn : ConnId} (hfree : Party.conn conn ∉ hall.walks)
    (env : Env) : Turned lay hall (.goesOn env (.conn conn)) (hall.workOn lay env conn) := by
  have hpool := @inPool_result lay hall env conn hfree
  unfold workOn
  split
  · rename_i h hphase hgrip
    unfold ensurePool
    split_ifs
    · exact .nothing
    · exact .grips (by simp [hphase, poolOf]) (.inl hgrip)
  · rename_i h hphase hgrip
    exact .grips (by simp [hphase, poolOf]) (.inr ⟨hgrip, nofun⟩)
  · rename_i h appKey hphase hgrip
    rw [hphase] at hpool
    exact hpool rfl
  · rename_i appKey code next hphase hgrip
    exact .grips (by simp [hphase, poolOf]) (.inl hgrip)
  · rename_i appKey code next grip hphase hgrip
    rw [hphase] at hpool
    exact hpool rfl
  · rename_i hopening hget hheld hremoving hremove
    refine .works hfree ?_
    cases hphase : hall.st.phase conn with
    | opening h =>
      rcases hgrip : hall.grips.lookup conn with _ | _ | appKey
      · exact absurd hgrip (hopening h hphase)
      · exact absurd hgrip (hget h hphase)
      · exact absurd hgrip (hheld h appKey hphase)
    | removing appKey code next =>
      cases hgrip : hall.grips.lookup conn with
      | none => exact absurd hgrip (hremoving appKey code next hphase)
      | some grip => exact absurd hgrip (hremove appKey code next grip hphase)
    | _ => rfl

theorem walkOn_result {hall : Hall} {p : Party} {walk : Walk} (h : hall.walks.lookup p = some walk)
    (env : Env) : Turned lay hall (.goesOn env p) (hall.walkOn lay env p walk) := by
  unfold walkOn
  cases htodo : walk.todo with
  | nil =>
    dsimp only
    split_ifs with hmore
    · exact .opens h htodo hmore
    · exact .ends h htodo (Nat.le_of_not_lt hmore)
  | cons entry rest =>
    obtain ⟨key, ref⟩ := entry
    dsimp only
    split_ifs with hfree
    · exact .sees h htodo hfree
    · exact .nothing

/-- Every turn is of one of these kinds. -/
theorem step_result (lay : Layout) (hall : Hall) (t : Turn) :
    Turned lay hall t (hall.step lay t) := by
  cases t with
  | begins env conn event =>
    simp only [Hall.step]
    split_ifs with hwalks
    · exact .nothing
    split
    · rename_i appKey hidle
      unfold listRooms
      dsimp only
      split_ifs
      · exact .lists hwalks hidle _ appKey
      · exact .cached _
    · rcases tick_event hall.st env conn _ with heq | ⟨hidle, heq⟩
      · rw [heq]
        exact .nothing
      · rw [heq]
        exact .begins hwalks hidle
  | asks request appKey later =>
    simp only [Hall.step]
    split_ifs with hwalks
    · exact .nothing
    · exact .asks hwalks
  | goesOn env p =>
    simp only [Hall.step]
    split
    · rename_i walk hwalk
      exact walkOn_result hwalk env
    · rename_i conn hnone
      exact workOn_result (AList.lookup_eq_none.mp hnone) env
    · exact .nothing

/-! ## The invariant -/

/-- What is true of a walk: the rooms still to be visited are registered in the shard that is held,
the rooms seen are of shards opened, and no code comes up twice. -/
structure Steady (lay : Layout) (st : Shared) (walk : Walk) : Prop where
  todo : ∀ e ∈ walk.todo, st.registry.lookup (walk.appKey, e.1) = some e.2 ∧
    walk.opened = lay.roomShard e.1 + 1
  seen : ∀ e ∈ walk.seen, lay.roomShard e.1 < walk.opened
  once : (walk.seen.map Prod.fst ++ walk.todo.map Prod.fst).Nodup

/-- The invariant of the hall: locks and registry as they should be, a connection on a walk does
nothing else, who has got hold of a pool needs it, and every walk is steady. -/
structure Ordered (lay : Layout) (hall : Hall) : Prop where
  latched : Latched hall.st
  alone : ∀ conn, Party.conn conn ∈ hall.walks → hall.st.phase conn = .idle
  gripping : ∀ conn, conn ∈ hall.grips → (poolOf (hall.st.phase conn)).isSome
  steady : ∀ p walk, hall.walks.lookup p = some walk → Steady lay hall.st walk

theorem guarded_of_steady {hall : Hall} {p : Party} {walk : Walk}
    (h : hall.walks.lookup p = some walk) {key : String}
    (hopened : walk.opened = lay.roomShard key + 1) : hall.guarded lay (walk.appKey, key) = true := by
  rw [guarded, List.any_eq_true]
  exact ⟨⟨p, walk⟩, AList.mem_lookup_iff.mp h, by simp [hopened]⟩

theorem inShard_mem {hall : Hall} {env : Env} {appKey : String} {shard : ℕ}
    {e : String × RoomRef} : e ∈ hall.inShard lay env appKey shard ↔
      hall.st.registry.lookup (appKey, e.1) = some e.2 ∧ lay.roomShard e.1 = shard := by
  obtain ⟨key, ref⟩ := e
  simp only [inShard, List.mem_filterMap, (env.rooms.perm _).mem_iff, Option.map_eq_some_iff,
    Prod.mk.injEq, Option.ite_none_right_eq_some, Option.some.injEq, Prod.exists]
  constructor
  · rintro ⟨_, ⟨app, key', hmem, ⟨rfl, hshard⟩, rfl⟩, _, hlookup, rfl, rfl⟩
    exact ⟨hlookup, hshard⟩
  · rintro ⟨hlookup, hshard⟩
    exact ⟨key, ⟨appKey, key, AList.mem_keys.mp (AList.mem_of_lookup hlookup), ⟨rfl, hshard⟩, rfl⟩,
      ref, hlookup, rfl, rfl⟩

theorem inShard_nodup (hall : Hall) (env : Env) (appKey : String) (shard : ℕ) :
    ((hall.inShard lay env appKey shard).map Prod.fst).Nodup := by
  have hkeys : (hall.st.registry.keys.filterMap fun k =>
      if k.1 = appKey ∧ lay.roomShard k.2 = shard then some k.2 else none).Nodup := by
    refine hall.st.registry.keys_nodup.filterMap ?_
    rintro ⟨app, key⟩ ⟨app', key'⟩ key'' h h'
    simp only [Option.mem_def, Option.ite_none_right_eq_some, Option.some.injEq] at h h'
    obtain ⟨⟨rfl, _⟩, rfl⟩ := h
    obtain ⟨⟨rfl, _⟩, rfl⟩ := h'
    rfl
  have hsub : ∀ keys : List String, ((keys.filterMap fun key =>
      (hall.st.registry.lookup (appKey, key)).map (key, ·)).map Prod.fst).Sublist keys := by
    intro keys
    induction keys with
    | nil => exact .slnil
    | cons key keys ih =>
      cases hlookup : hall.st.registry.lookup (appKey, key) with
      | none => simpa [hlookup] using ih.cons key
      | some ref => simpa [hlookup] using ih
  exact ((env.rooms.perm _).nodup_iff.mpr hkeys).sublist (hsub _)

/-- A walk stays steady when the registry keeps the shard it holds. -/
theorem Steady.keep {st st' : Shared} {walk : Walk} (h : Steady lay st walk)
    (hreg : ∀ key, walk.opened = lay.roomShard key + 1 →
      st'.registry.lookup (walk.appKey, key) = st.registry.lookup (walk.appKey, key)) :
    Steady lay st' walk where
  todo e he := by
    obtain ⟨hlookup, hopened⟩ := h.todo e he
    exact ⟨(hreg e.1 hopened).trans hlookup, hopened⟩
  seen := h.seen
  once := h.once

theorem steady_new (st : Shared) (appKey : String) (later : List String) :
    Steady lay st (.new appKey later) where
  todo _ h := by cases h
  seen _ h := by cases h
  once := .nil

theorem steady_sees {st : Shared} {walk : Walk} (h : Steady lay st walk) {key : String}
    {ref : RoomRef} {rest : List (String × RoomRef)} (htodo : walk.todo = (key, ref) :: rest) :
    Steady lay st (walk.see key (st.rooms ref) rest) where
  todo e he := h.todo e (htodo ▸ List.mem_cons_of_mem _ he)
  seen e he := by
    rcases List.mem_append.mp he with he | he
    · exact h.seen e he
    · obtain rfl := List.mem_singleton.mp he
      have hopened := (h.todo (key, ref) (htodo ▸ List.mem_cons_self)).2
      exact hopened ▸ Nat.lt_succ_self _
  once := by simpa [htodo, Walk.see] using h.once

theorem steady_opens {hall : Hall} {walk : Walk} (h : Steady lay hall.st walk)
    (htodo : walk.todo = []) (env : Env) :
    Steady lay hall.st (walk.openShard (hall.inShard lay env walk.appKey walk.opened)) where
  todo e he := by
    obtain ⟨hlookup, hshard⟩ := inShard_mem.mp he
    exact ⟨hlookup, by simp [hshard, Walk.openShard]⟩
  seen e he := Nat.lt_succ_of_lt (h.seen e he)
  once := by
    refine List.nodup_append.mpr ⟨?_, inShard_nodup hall env _ _, ?_⟩
    · simpa [htodo, Walk.openShard] using h.once
    · rintro key hseen key' htodo' rfl
      obtain ⟨e, he, rfl⟩ := List.mem_map.mp hseen
      obtain ⟨e', he', hkey⟩ := List.mem_map.mp htodo'
      have hlt := h.seen e he
      have heq := (inShard_mem.mp he').2
      rw [hkey] at heq
      omega

namespace Ordered
variable {hall : Hall}

/-- One walk begins or goes on, the connections stand still. -/
theorem walk (h : Ordered lay hall) {p : Party} {new : Walk} {cache : SettingsCache}
    {answer : Party → Option (List (String × Room))}
    (halone : ∀ conn, p = .conn conn → hall.st.phase conn = .idle)
    (hnew : Steady lay hall.st new) :
    Ordered lay ⟨{ hall.st with cache := cache }, hall.grips, hall.walks.insert p new, answer⟩ where
  latched := ⟨h.latched.registered, h.latched.holders⟩
  alone conn hmem := by
    rcases AList.mem_insert _ |>.mp hmem with heq | hmem
    · exact halone conn heq.symm
    · exact h.alone conn hmem
  gripping := h.gripping
  steady p' walk' hlookup := by
    rcases AList.lookup_insert_some.mp hlookup with ⟨_, rfl⟩ | ⟨_, hlookup⟩
    · exact hnew.keep fun _ _ => rfl
    · exact (h.steady p' walk' hlookup).keep fun _ _ => rfl

/-- A connection that is on no walk moves, and the shards that are held stay as they are. -/
theorem moves (h : Ordered lay hall) {st' : Shared} {me : ConnId} {grips : Table ConnId Grip}
    (hlatched : Latched st') (hprivate : Private hall.st st' me)
    (hfree : Party.conn me ∉ hall.walks) (hgrips : ∀ conn, conn ∈ grips → conn ∈ hall.grips)
    (hmine : me ∉ grips)
    (hreg : ∀ key, hall.guarded lay key = true →
      st'.registry.lookup key = hall.st.registry.lookup key) :
    Ordered lay ⟨st', grips, hall.walks, hall.answer⟩ where
  latched := hlatched
  alone conn hmem := by
    have hne : conn ≠ me := by
      rintro rfl
      exact hfree hmem
    exact (hprivate conn hne).2.trans (h.alone conn hmem)
  gripping conn hmem := by
    have hne : conn ≠ me := by
      rintro rfl
      exact hmine hmem
    rw [(hprivate conn hne).2]
    exact h.gripping conn (hgrips conn hmem)
  steady p walk hlookup :=
    (h.steady p walk hlookup).keep fun _ hopened => hreg _ (guarded_of_steady hlookup hopened)

/-- Who needs no pool has hold of none. -/
theorem no_grip (h : Ordered lay hall) {conn : ConnId}
    (hout : poolOf (hall.st.phase conn) = none) : conn ∉ hall.grips := by
  intro hmem
  have hsome := h.gripping conn hmem
  rw [hout] at hsome
  cases hsome

/-- Every turn keeps the invariant. -/
theorem step (h : Ordered lay hall) (t : Turn) : Ordered lay (hall.step lay t) := by
  have hresult := step_result lay hall t
  revert hresult
  generalize hall.step lay t = hall'
  intro hresult
  cases hresult with
  | nothing => exact h
  | @begins env conn event free idle =>
    refine h.moves (h.latched.begin event idle) (begin_private hall.st conn event) free
      (fun _ => id) (h.no_grip (by rw [idle]; rfl)) fun key _ => ?_
    rw [(begin_moves event idle).registry]
  | @cached env conn event cache =>
    exact ⟨⟨h.latched.registered, h.latched.holders⟩, h.alone, h.gripping, fun p walk hlookup =>
      (h.steady p walk hlookup).keep fun _ _ => rfl⟩
  | @lists env conn event free idle cache appKey =>
    exact h.walk (fun conn' heq => Party.conn.inj heq ▸ idle) (steady_new hall.st appKey [])
  | asks free => exact h.walk (fun conn heq => by cases heq) (steady_new hall.st _ _)
  | @works env conn free outside =>
    refine h.moves (h.latched.proceed env conn) (proceed_private env hall.st conn) free
      (fun _ => id) (h.no_grip outside) fun key _ => proceed_registry ?_
    cases hphase : hall.st.phase conn <;> simp_all [poolOf, entriesOf]
  | @grips env conn grip inside closer =>
    refine ⟨h.latched, h.alone, fun conn' hmem => ?_, h.steady⟩
    rcases (AList.mem_insert _).mp hmem with rfl | hmem
    · exact inside
    · exact h.gripping conn' hmem
  | @pools env conn free inside ready =>
    refine h.moves (h.latched.proceed env conn) (proceed_private env hall.st conn) free
      (fun conn' hmem => (AList.mem_erase.mp hmem).2) (fun hmem => (AList.mem_erase.mp hmem).1 rfl)
      fun key hkey => proceed_registry fun hmem => ?_
    rw [ready key hmem] at hkey
    cases hkey
  | @sees env p walk key ref rest walks todo free =>
    refine h.walk (fun conn heq => ?_) (steady_sees (h.steady p walk walks) todo)
    exact h.alone conn (heq ▸ AList.mem_of_lookup walks)
  | @opens env p walk walks todo more =>
    refine h.walk (fun conn heq => ?_) (steady_opens (h.steady p walk walks) todo env)
    exact h.alone conn (heq ▸ AList.mem_of_lookup walks)
  | @ends env p walk walks todo last =>
    unfold endWalk
    cases walk.later with
    | nil =>
      refine ⟨h.latched, fun conn hmem => ?_, h.gripping, fun p' walk' hlookup => ?_⟩
      · exact h.alone conn (AList.mem_erase.mp hmem).2
      · exact h.steady p' walk' (AList.lookup_erase_some.mp hlookup).2
    | cons appKey later =>
      refine h.walk (fun conn heq => ?_) (steady_new hall.st appKey later)
      exact h.alone conn (heq ▸ AList.mem_of_lookup walks)

end Ordered

theorem ordered_start : Ordered lay .start where
  latched := latched_start
  alone conn h := absurd h (AList.notMem_empty _)
  gripping conn h := absurd h (AList.notMem_empty _)
  steady p walk h := by simp [Hall.start] at h

theorem ordered_reached {hall : Hall}
    (h : Reaches (Hall.step lay) (fun _ _ => True) .start hall) : Ordered lay hall :=
  h.invariant ordered_start fun _ t h _ => h.step t

/-! ## What a walk sees -/

/-- The party is on a walk with these apps still to come. -/
def walking (hall : Hall) (p : Party) (later : List String) : Bool :=
  (hall.walks.lookup p).any fun walk => walk.later == later

/-- The walk through an app that `p` has just begun lasts through these turns and is done after
them. -/
structure Walked (lay : Layout) (hall : Hall) (p : Party) (appKey : String) (later : List String)
    (turns : List Turn) : Prop where
  begun : hall.walks.lookup p = some (.new appKey later)
  lasts : Along (Hall.step lay) (fun hall _ => walking hall p later = true) hall turns
  done : walking (exec (Hall.step lay) hall turns) p later = false

/-- What a turn does to a walk under way. -/
theorem walk_step {hall : Hall} {p : Party} {walk : Walk} (h : hall.walks.lookup p = some walk)
    (t : Turn) : (hall.step lay t).walks.lookup p = some walk ∨
      (∃ key ref rest, walk.todo = (key, ref) :: rest ∧
        (hall.step lay t).walks.lookup p = some (walk.see key (hall.st.rooms ref) rest)) ∨
      (∃ env, walk.todo = [] ∧ (hall.step lay t).walks.lookup p =
        some (walk.openShard (hall.inShard lay env walk.appKey walk.opened))) ∨
      (walk.todo = [] ∧ lay.shards ≤ walk.opened ∧
        walking (hall.step lay t) p walk.later = false ∧
        (hall.step lay t).answer p = some walk.seen) := by
  have hbegun : ∀ {p' : Party} (new : Walk), p' ∉ hall.walks →
      (hall.walks.insert p' new).lookup p = some walk := by
    intro p' new hfree
    rw [AList.lookup_insert_ne, h]
    rintro rfl
    exact hfree (AList.mem_of_lookup h)
  -- a walk that goes on is this one, or leaves this one alone
  have hgoes : ∀ {p' : Party} (new : Walk), p' ≠ p →
      (hall.walks.insert p' new).lookup p = some walk := by
    intro p' new hne
    rw [AList.lookup_insert_ne hne.symm, h]
  have hresult := step_result lay hall t
  revert hresult
  generalize hall.step lay t = hall'
  intro hresult
  cases hresult with
  | nothing | begins | cached | works | grips | pools => exact .inl h
  | lists free | asks free => exact .inl (hbegun _ free)
  | @sees env p' walk' key ref rest walks todo free =>
    by_cases hp : p' = p
    · subst hp
      obtain rfl : walk' = walk := Option.some.inj (walks.symm.trans h)
      exact .inr (.inl ⟨key, ref, rest, todo, AList.lookup_insert _⟩)
    · exact .inl (hgoes _ hp)
  | @opens env p' walk' walks todo more =>
    by_cases hp : p' = p
    · subst hp
      obtain rfl : walk' = walk := Option.some.inj (walks.symm.trans h)
      exact .inr (.inr (.inl ⟨env, todo, AList.lookup_insert _⟩))
    · exact .inl (hgoes _ hp)
  | @ends env p' walk' walks todo last =>
    by_cases hp : p' = p
    · subst hp
      obtain rfl : walk' = walk := Option.some.inj (walks.symm.trans h)
      refine .inr (.inr (.inr ⟨todo, last, ?_, Function.update_self ..⟩))
      unfold walking endWalk
      cases walk'.later with
      | nil => simp
      | cons appKey later => simp [Walk.new]
    · left
      unfold endWalk
      cases walk'.later with
      | nil => exact (AList.lookup_erase_ne (Ne.symm hp)).trans h
      | cons appKey later => exact hgoes _ hp

/-- At one of the moments the room registered under the code is this one. -/
def SeenDuring (lay : Layout) (hall : Hall) (turns : List Turn) (appKey : String)
    (e : String × Room) : Prop :=
  ∃ pre, pre <+: turns ∧ ∃ ref, (exec (Hall.step lay) hall pre).st.registry.lookup (appKey, e.1) =
    some ref ∧ (exec (Hall.step lay) hall pre).st.rooms ref = e.2

theorem SeenDuring.later {hall : Hall} {t : Turn} {turns : List Turn} {appKey : String}
    {e : String × Room} (h : SeenDuring lay (hall.step lay t) turns appKey e) :
    SeenDuring lay hall (t :: turns) appKey e := by
  obtain ⟨pre, hpre, hseen⟩ := h
  exact ⟨t :: pre, (List.prefix_cons_inj t).mpr hpre, hseen⟩

/-- At every moment a room is registered under the code. -/
def StaysRegistered (lay : Layout) (hall : Hall) (turns : List Turn) (appKey key : String) : Prop :=
  Throughout (Hall.step lay) (fun hall => (appKey, key) ∈ hall.st.registry) hall turns

/-- The rest of a walk: it adds rooms that were registered when they were seen, and misses no code
of the shards to come under which a room stays registered. -/
theorem walk_rest {hall : Hall} {p : Party} {walk : Walk} {turns : List Turn}
    (hordered : Ordered lay hall) (hwalk : hall.walks.lookup p = some walk)
    (hlasts : Along (Hall.step lay) (fun hall _ => walking hall p walk.later = true) hall turns)
    (hdone : walking (exec (Hall.step lay) hall turns) p walk.later = false) :
    ∃ new, (exec (Hall.step lay) hall turns).answer p = some (walk.seen ++ new) ∧
      (∀ e ∈ new, SeenDuring lay hall turns walk.appKey e) ∧
      ((walk.seen ++ new).map Prod.fst).Nodup ∧
      ∀ key, StaysRegistered lay hall turns walk.appKey key →
        walk.opened ≤ lay.roomShard key ∨ key ∈ walk.todo.map Prod.fst → key ∈ new.map Prod.fst := by
  induction turns generalizing hall walk with
  | nil => simp [walking, exec, hwalk] at hdone
  | cons t turns ih =>
    have hnext := hordered.step t
    rcases walk_step hwalk t with hsame | ⟨key, ref, rest, htodo, hsees⟩ | ⟨env, htodo, hopens⟩ |
      ⟨htodo, hlast, hgone, hanswer⟩
    · obtain ⟨new, hanswer, hseen, honce, hall'⟩ := ih hnext hsame hlasts.2 hdone
      refine ⟨new, hanswer, fun e he => (hseen e he).later, honce, fun key hreg => hall' key ?_⟩
      exact (throughout_cons.mp hreg).2
    · obtain ⟨new, hanswer, hseen, honce, hall'⟩ := ih hnext hsees hlasts.2 hdone
      obtain ⟨hreg, _⟩ := (hordered.steady p walk hwalk).todo (key, ref) (htodo ▸ List.mem_cons_self)
      refine ⟨(key, hall.st.rooms ref) :: new, ?_, ?_, ?_, ?_⟩
      · simpa [Walk.see] using hanswer
      · intro e he
        rcases List.mem_cons.mp he with rfl | he
        · exact ⟨[], List.nil_prefix, ref, hreg, rfl⟩
        · exact (hseen e he).later
      · simpa [Walk.see] using honce
      · intro key' hstays hkey
        have hrest : key' = key ∨ key' ∈ new.map Prod.fst := by
          rcases hkey with hkey | hkey
          · exact .inr (hall' key' (throughout_cons.mp hstays).2 (.inl hkey))
          · rw [htodo, List.map_cons, List.mem_cons] at hkey
            exact hkey.imp id fun hkey => hall' key' (throughout_cons.mp hstays).2 (.inr hkey)
        rcases hrest with rfl | hnew
        · exact List.mem_cons_self
        · exact List.mem_cons_of_mem _ hnew
    · obtain ⟨new, hanswer, hseen, honce, hall'⟩ := ih hnext hopens hlasts.2 hdone
      refine ⟨new, hanswer, fun e he => (hseen e he).later, honce, fun key hstays hkey => ?_⟩
      obtain ⟨hnow, hlater⟩ := throughout_cons.mp hstays
      refine hall' key hlater ?_
      rw [htodo] at hkey
      have hle : walk.opened ≤ lay.roomShard key := by simpa using hkey
      rcases hle.lt_or_eq with hlt | heq
      · exact .inl hlt
      · -- the code is in the shard that is opened now
        obtain ⟨ref, href⟩ := AList.mem_iff_lookup.mp hnow
        exact .inr (List.mem_map.mpr ⟨(key, ref), inShard_mem.mpr ⟨href, heq.symm⟩, rfl⟩)
    · cases turns with
      | cons t' turns => exact absurd (hlasts.2.1.symm.trans hgone) (by simp)
      | nil =>
        have honce := (hordered.steady p walk hwalk).once
        rw [htodo, List.map_nil, List.append_nil] at honce
        refine ⟨[], by simpa using hanswer, (fun e he => by cases he), by simpa using honce, ?_⟩
        intro key _ hkey
        have hlt := lay.roomShard_lt key
        rw [htodo] at hkey
        simp only [List.map_nil, List.not_mem_nil, or_false] at hkey
        omega

/-- Whatever the connections do meanwhile, a walk sees rooms as they were registered at some moment
of it, no code twice, and every code under which a room stays registered all along. -/
theorem walk_exact {hall : Hall} {p : Party} {appKey : String} {later : List String}
    {turns : List Turn} (hordered : Ordered lay hall) (h : Walked lay hall p appKey later turns) :
    ∃ seen, (exec (Hall.step lay) hall turns).answer p = some seen ∧
      (∀ e ∈ seen, SeenDuring lay hall turns appKey e) ∧ (seen.map Prod.fst).Nodup ∧
      ∀ key, StaysRegistered lay hall turns appKey key → key ∈ seen.map Prod.fst := by
  obtain ⟨seen, hanswer, hseen, honce, hcomplete⟩ := walk_rest hordered h.begun h.lasts h.done
  exact ⟨seen, hanswer, hseen, honce, fun key hstays => hcomplete key hstays (.inl (Nat.zero_le _))⟩

/-! ## The list of rooms -/

/-- The list of public rooms that a walk makes of what it saw. -/
def publicRooms (seen : List (String × Room)) : List RoomListEntry :=
  seen.filterMap fun e => RoomPool.listEntry e.2

theorem listEntry_code {room : Room} {entry : RoomListEntry}
    (h : RoomPool.listEntry room = some entry) : entry.roomCode = room.code := by
  unfold RoomPool.listEntry at h
  split_ifs at h
  obtain rfl := Option.some.inj h
  rfl

/-- The entries of the list are under the codes of the rooms seen. -/
theorem publicRooms_keys {seen : List (String × Room)}
    (hkeys : ∀ e ∈ seen, e.2.code.key = e.1) :
    ((publicRooms seen).map fun e => e.roomCode.key).Sublist (seen.map Prod.fst) := by
  induction seen with
  | nil => exact .slnil
  | cons e seen ih =>
    obtain ⟨he, hrest⟩ := List.forall_mem_cons.mp hkeys
    cases hentry : RoomPool.listEntry e.2 with
    | none => simpa [publicRooms, hentry] using (ih hrest).cons e.1
    | some entry =>
      have hcode : entry.roomCode.key = e.1 := by rw [listEntry_code hentry, he]
      simpa [publicRooms, hentry, hcode] using ih hrest

/-- `ListRooms` while other connections go on working: every entry is what the room registered under
its code had to say at some moment of the walk, no code comes twice, and a code under which a public
room with a free place is registered all along is in the list. -/
theorem list_exact {hall : Hall} {p : Party} {appKey : String} {later : List String}
    {turns : List Turn} (hreach : Reaches (Hall.step lay) (fun _ _ => True) .start hall)
    (h : Walked lay hall p appKey later turns) :
    ∃ seen, (exec (Hall.step lay) hall turns).answer p = some seen ∧
      (∀ entry ∈ publicRooms seen, ∃ pre, pre <+: turns ∧ ∃ ref,
        (exec (Hall.step lay) hall pre).st.registry.lookup (appKey, entry.roomCode.key) = some ref ∧
        RoomPool.listEntry ((exec (Hall.step lay) hall pre).st.rooms ref) = some entry) ∧
      ((publicRooms seen).map fun entry => entry.roomCode.key).Nodup ∧
      ∀ key, Throughout (Hall.step lay) (fun hall => ∃ ref, hall.st.registry.lookup (appKey, key) =
          some ref ∧ (RoomPool.listEntry (hall.st.rooms ref)).isSome) hall turns →
        ∃ entry ∈ publicRooms seen, entry.roomCode.key = key := by
  have hordered := ordered_reached hreach
  have hordered' : ∀ pre, Ordered lay (exec (Hall.step lay) hall pre) := fun pre =>
    exec_invariant (fun _ t h => h.step t) hordered pre
  obtain ⟨seen, hanswer, hseen, honce, hcomplete⟩ := walk_exact hordered h
  have hkeys : ∀ e ∈ seen, e.2.code.key = e.1 := by
    intro e he
    obtain ⟨pre, _, ref, hreg, hroom⟩ := hseen e he
    have hplace := ((hordered' pre).latched.registered _ _ hreg).2
    rw [hroom] at hplace
    exact (Prod.mk.inj hplace).2
  refine ⟨seen, hanswer, ?_, honce.sublist (publicRooms_keys hkeys), ?_⟩
  · intro entry hentry
    obtain ⟨e, he, hlist⟩ := List.mem_filterMap.mp hentry
    obtain ⟨pre, hpre, ref, hreg, hroom⟩ := hseen e he
    refine ⟨pre, hpre, ref, ?_, by rw [hroom, hlist]⟩
    rw [listEntry_code hlist, hkeys e he, hreg]
  · intro key hstays
    have hkey : key ∈ seen.map Prod.fst := hcomplete key fun pre hpre => by
      obtain ⟨ref, hreg, _⟩ := hstays pre hpre
      exact AList.mem_of_lookup hreg
    obtain ⟨e, he, rfl⟩ := List.mem_map.mp hkey
    obtain ⟨pre, hpre, ref, hreg, hroom⟩ := hseen e he
    obtain ⟨ref', hreg', hlisted⟩ := hstays pre hpre
    obtain rfl : ref = ref' := Option.some.inj (hreg.symm.trans hreg')
    obtain ⟨entry, hentry⟩ := Option.isSome_iff_exists.mp hlisted
    refine ⟨entry, List.mem_filterMap.mpr ⟨e, he, by rw [← hroom, hentry]⟩, ?_⟩
    rw [listEntry_code hentry, hroom, hkeys e he]

/-- All rooms of an app in one shard. -/
def oneShard : Layout := ⟨fun _ => 0, 1, fun _ => 0, fun _ => Nat.one_pos⟩

def turnOf (conn : ConnId) : Turn := .goesOn .quiet (.conn conn)

def hears (conn : ConnId) (msg : ClientMessage) : Turn := .begins .quiet conn (.message msg)

/-- A connection makes a room and publishes it, another one has come as far as the pool, then a third
one asks for the list. -/
def listAsked : Hall :=
  exec (Hall.step oneShard) .start
    (hears 0 (plainHello "" "h") :: List.replicate 6 (turnOf 0) ++
      [hears 0 (.roomControl (.setPublic true)), turnOf 0, turnOf 0] ++
      hears 2 (plainHello "" "x") :: List.replicate 3 (turnOf 2) ++ [hears 1 (.listRooms "pong")])

/-- A room is created during the walk, and the first one is left; its lock is held when the walk comes
to it, and the removal has to wait for the walk. -/
def meanwhile : List Turn :=
  [turnOf 2, turnOf 1, turnOf 1, hears 0 (.roomControl .leave), turnOf 0, turnOf 1, turnOf 0,
    turnOf 0, turnOf 0, turnOf 1, turnOf 1]

/-- The walk sees the room that is being left, and the new one. -/
theorem list_of_left_room : ∃ seen,
    (exec (Hall.step oneShard) listAsked meanwhile).answer (.conn 1) = some seen ∧
      ((publicRooms seen).map fun entry => entry.roomCode.key).Nodup ∧ seen.length = 2 := by
  have hwalked : Walked oneShard listAsked (.conn 1) "pong" [] meanwhile := by
    refine ⟨rfl, ?_, by decide +kernel⟩
    exact ⟨by decide +kernel, by decide +kernel, by decide +kernel, by decide +kernel,
      by decide +kernel, by decide +kernel, by decide +kernel, by decide +kernel,
      by decide +kernel, by decide +kernel, by decide +kernel, trivial⟩
  have hlength : ((exec (Hall.step oneShard) listAsked meanwhile).answer (.conn 1)).map
      List.length = some 2 := by decide +kernel
  have hreach : Reaches (Hall.step oneShard) (fun _ _ => True) .start listAsked := reaches_exec _ _ _
  obtain ⟨seen, hanswer, _, honce, _⟩ := list_exact hreach hwalked
  rw [hanswer] at hlength
  exact ⟨seen, hanswer, honce, Option.some.inj hlength⟩

end Roomie.RoomScans
