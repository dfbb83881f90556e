import Mathlib.Data.Set.Card
import Roomie.Episodes

/-!
# The statistics

`collect_stats` adds up the rooms and the members of each game. The numbers are exact: a
connection that has a seat is counted once, in the game it plays, and no other is counted.
-/

namespace Roomie

/-- The number of rooms, and of accepted and pending players over all of them. -/
def RoomPool.roomAndPlayerCounts (env : Env) (pool : RoomPool) : ℕ × ℕ :=
  (pool.rooms.size, (pool.rooms.iter env.rooms).foldl
    (fun players e => players + (e.2.clients.size + e.2.pending.size)) 0)

end Roomie

namespace Roomie.Statistics
open HashTables GuardedRuns Seats

structure GameStats where
  id : String
  rooms : UInt32
  players : UInt32

/-- `collect_stats`; the apps come up in some order. -/
def collectStats (env : Env) (apps : IterOrder String) (registry : AppRegistry) : List GameStats :=
  (registry.iter apps).map fun entry =>
    let (rooms, players) := entry.2.roomAndPlayerCounts env
    ⟨entry.1, .ofNat rooms, .ofNat players⟩

/-! ## Who is counted -/

/-- The connections of the entries of a map. -/
def holders (members : Members) : List ConnId := members.entries.map fun e => e.2.tx

/-- The connections of the members of a room. -/
def tenants (room : Room) : List ConnId := holders room.clients ++ holders room.pending

/-- The connections of the members of the rooms of a pool. -/
def playersOf (env : Env) (pool : RoomPool) : List ConnId :=
  (pool.rooms.iter env.rooms).flatMap fun e => tenants e.2

/-- The connections of the members of all rooms. -/
def everyone (env : Env) (apps : IterOrder String) (registry : AppRegistry) : List ConnId :=
  (registry.iter apps).flatMap fun e => playersOf env e.2

theorem mem_holders {members : Members} {conn : ConnId} :
    conn ∈ holders members ↔ ∃ p i, members.lookup p = some i ∧ i.tx = conn := by
  constructor
  · intro h
    obtain ⟨e, he, htx⟩ := List.mem_map.mp h
    exact ⟨e.1, e.2, AList.mem_lookup_iff.mpr he, htx⟩
  · intro h
    obtain ⟨p, i, hlookup, htx⟩ := h
    exact List.mem_map.mpr ⟨⟨p, i⟩, AList.mem_lookup_iff.mp hlookup, htx⟩

theorem mem_tenants {room : Room} {conn : ConnId} :
    conn ∈ tenants room ↔ ∃ p i, room.HasMember p i ∧ i.tx = conn := by
  rw [tenants, List.mem_append, mem_holders, mem_holders]
  constructor
  · intro h
    rcases h with ⟨p, i, hlookup, htx⟩ | ⟨p, i, hlookup, htx⟩
    · exact ⟨p, i, .inl hlookup, htx⟩
    · exact ⟨p, i, .inr hlookup, htx⟩
  · intro h
    obtain ⟨p, i, hlookup | hlookup, htx⟩ := h
    · exact .inl ⟨p, i, hlookup, htx⟩
    · exact .inr ⟨p, i, hlookup, htx⟩

theorem length_tenants (room : Room) :
    (tenants room).length = room.clients.size + room.pending.size := by
  have hsize : ∀ members : Members, (holders members).length = members.size := by
    intro members
    rw [holders, List.length_map, AList.size, AList.keys, List.keys, List.length_map]
  rw [tenants, List.length_append, hsize, hsize]

/-- The loop counts them. -/
theorem players_eq (env : Env) (pool : RoomPool) :
    (pool.roomAndPlayerCounts env).2 = (playersOf env pool).length := by
  have hloop : ∀ (rooms : List (String × Room)) (players : ℕ),
      rooms.foldl (fun players e => players + (e.2.clients.size + e.2.pending.size)) players =
        players + (rooms.flatMap fun e => tenants e.2).length := by
    intro rooms
    induction rooms with
    | nil => intro players; rfl
    | cons e rooms ih =>
      intro players
      rw [List.foldl_cons, ih, ← length_tenants, List.flatMap_cons, List.length_append]
      omega
  rw [RoomPool.roomAndPlayerCounts, hloop, Nat.zero_add]
  rfl

/-- The total over the games. -/
theorem sum_players (env : Env) (apps : IterOrder String) (registry : AppRegistry) :
    ((collectStats env apps registry).map GameStats.players).sum =
      .ofNat (everyone env apps registry).length := by
  rw [collectStats, everyone, List.map_map]
  induction registry.iter apps with
  | nil => rfl
  | cons e entries ih =>
    rw [List.map_cons, List.sum_cons, ih, List.flatMap_cons, List.length_append,
      UInt32.ofNat_add, ← players_eq]
    rfl

/-- Different entries of a map belong to different connections. -/
theorem holders_nodup {members : Members}
    (h : ∀ p q i j, members.lookup p = some i → members.lookup q = some j → i.tx = j.tx → p = q) :
    (holders members).Nodup := by
  refine List.Nodup.map_on (fun e he e' he' htx => ?_) members.nodupKeys.nodup
  have hlookup := AList.mem_lookup_iff.mpr he
  have hlookup' := AList.mem_lookup_iff.mpr he'
  obtain ⟨p, i⟩ := e
  obtain ⟨q, j⟩ := e'
  obtain rfl := h p q i j hlookup hlookup' htx
  obtain rfl := Option.some.inj (hlookup.symm.trans hlookup')
  rfl

theorem tenants_nodup {room : Room} (h1 : room.OneSeat) (hd : room.Disjoint) :
    (tenants room).Nodup := by
  refine List.nodup_append.mpr ⟨holders_nodup ?_, holders_nodup ?_, ?_⟩
  · exact fun p q i j hp hq => h1 p q i j (.inl hp) (.inl hq)
  · exact fun p q i j hp hq => h1 p q i j (.inr hp) (.inr hq)
  · intro conn hconn conn' hconn' heq
    obtain ⟨p, i, hp, htx⟩ := mem_holders.mp hconn
    obtain ⟨q, j, hq, htx'⟩ := mem_holders.mp hconn'
    obtain rfl := h1 p q i j (.inl hp) (.inr hq) (htx.trans (heq.trans htx'.symm))
    exact hd p (AList.mem_of_lookup hp) (AList.mem_of_lookup hq)

section
variable {sys : Sys} {env : Env} {apps : IterOrder String} {conn : ConnId}

theorem roomAt_of_lookup {appKey key : String} {pool : RoomPool} {room : Room}
    (hpool : sys.server.registry.lookup appKey = some pool)
    (hroom : pool.rooms.lookup key = some room) : sys.roomAt appKey key = some room := by
  rw [Sys.roomAt, Server.roomAt, hpool]
  exact hroom

theorem mem_playersOf {appKey : String} {pool : RoomPool}
    (hpool : sys.server.registry.lookup appKey = some pool) :
    conn ∈ playersOf env pool ↔ ∃ place, place.appKey = appKey ∧ Owns sys conn place := by
  rw [playersOf, List.mem_flatMap]
  constructor
  · intro h
    obtain ⟨e, he, htenant⟩ := h
    obtain ⟨p, i, hmember, htx⟩ := mem_tenants.mp htenant
    obtain ⟨standing, hlookup⟩ := hasMember_iff.mp hmember
    exact ⟨⟨appKey, e.1, standing, p⟩, rfl, e.2, i, roomAt_of_lookup hpool (AList.mem_iter.mp he),
      hlookup, htx⟩
  · intro h
    obtain ⟨place, rfl, room, i, hroom, hlookup, htx⟩ := h
    rw [Sys.roomAt, Server.roomAt, hpool] at hroom
    exact ⟨(place.key, room), AList.mem_iter.mpr hroom,
      mem_tenants.mpr ⟨_, i, hasMember_iff.mpr ⟨_, hlookup⟩, htx⟩⟩

theorem mem_everyone :
    conn ∈ everyone env apps sys.server.registry ↔ ∃ place, Owns sys conn place := by
  rw [everyone, List.mem_flatMap]
  constructor
  · intro h
    obtain ⟨e, he, hplayer⟩ := h
    obtain ⟨place, _, howns⟩ := (mem_playersOf (AList.mem_iter.mp he)).mp hplayer
    exact ⟨place, howns⟩
  · intro h
    obtain ⟨place, howns⟩ := h
    have hroom := howns
    obtain ⟨room, i, hroom, _⟩ := hroom
    obtain ⟨pool, hpool, _⟩ := Option.bind_eq_some_iff.mp hroom
    exact ⟨(place.appKey, pool), AList.mem_iter.mpr hpool,
      (mem_playersOf hpool).mpr ⟨place, rfl, howns⟩⟩

/-- Over the rooms of a game nobody is counted twice. -/
theorem playersOf_nodup (h : Reachable sys) {appKey : String} {pool : RoomPool}
    (hpool : sys.server.registry.lookup appKey = some pool) : (playersOf env pool).Nodup := by
  refine AList.nodup_flatMap_iter ?_ ?_
  · intro key room hroom
    have hat := roomAt_of_lookup hpool hroom
    exact tenants_nodup ((seated h).oneSeat hat) (reachable_disjoint h hat)
  · intro key room key' room' conn hroom hroom' hconn hconn'
    obtain ⟨p, i, hp, htx⟩ := mem_tenants.mp hconn
    obtain ⟨q, j, hq, htx'⟩ := mem_tenants.mp hconn'
    exact ((seated h).unique (roomAt_of_lookup hpool hroom) hp (roomAt_of_lookup hpool hroom') hq
      (htx.trans htx'.symm)).2.1

/-- Nor over the games. -/
theorem everyone_nodup (h : Reachable sys) :
    (everyone env apps sys.server.registry).Nodup := by
  refine AList.nodup_flatMap_iter ?_ ?_
  · exact fun appKey pool hpool => playersOf_nodup h hpool
  · intro appKey pool appKey' pool' conn hpool hpool' hconn hconn'
    obtain ⟨place, rfl, howns⟩ := (mem_playersOf hpool).mp hconn
    obtain ⟨place', rfl, howns'⟩ := (mem_playersOf hpool').mp hconn'
    rw [howns.unique h howns']

theorem ncard_of_nodup {α : Type*} [DecidableEq α] {l : List α} {s : Set α} (hl : l.Nodup)
    (hs : ∀ a, a ∈ l ↔ a ∈ s) : l.length = s.ncard := by
  have hset : s = (l.toFinset : Set α) := by
    ext a
    rw [Finset.mem_coe, List.mem_toFinset, hs]
  rw [hset, Set.ncard_coe_finset, List.toFinset_card_of_nodup hl]

/-- In every reachable state the statistics name each game once; its rooms are the codes in
use and its players the connections that hold a seat in one of them, each counted once. The
players of all games together are all connections with a seat. -/
theorem stats_exact (sys : Sys) (h : Reachable sys) (env : Env) (apps : IterOrder String) :
    ((collectStats env apps sys.server.registry).map GameStats.id).Nodup ∧
    (∀ app, app ∈ (collectStats env apps sys.server.registry).map GameStats.id ↔
      app ∈ sys.server.registry) ∧
    (∀ game ∈ collectStats env apps sys.server.registry,
      game.rooms = .ofNat {key | ∃ room, sys.roomAt game.id key = some room}.ncard ∧
      game.players =
        .ofNat {conn | ∃ place, place.appKey = game.id ∧ Owns sys conn place}.ncard) ∧
    ((collectStats env apps sys.server.registry).map GameStats.players).sum =
      .ofNat {conn | ∃ place, Owns sys conn place}.ncard := by
  have hids : (collectStats env apps sys.server.registry).map GameStats.id =
      (sys.server.registry.iter apps).map Prod.fst := by
    rw [collectStats, List.map_map]
    rfl
  refine ⟨?_, ?_, ?_, ?_⟩
  · rw [hids]
    exact AList.nodup_iter_keys ..
  · intro app
    rw [hids, AList.iter_map_fst, (apps.perm _).mem_iff, AList.mem_keys]
  · intro game hgame
    obtain ⟨e, he, rfl⟩ := List.mem_map.mp hgame
    have hpool := AList.mem_iter.mp he
    have hrooms : e.2.rooms.size = {key | ∃ room, sys.roomAt e.1 key = some room}.ncard := by
      refine ncard_of_nodup e.2.rooms.keys_nodup fun key => ?_
      rw [← AList.mem_keys, AList.mem_iff_lookup, Set.mem_ofPred_eq, Sys.roomAt, Server.roomAt, hpool]
      rfl
    have hplayers : (e.2.roomAndPlayerCounts env).2 =
        {conn | ∃ place, place.appKey = e.1 ∧ Owns sys conn place}.ncard := by
      rw [players_eq]
      exact ncard_of_nodup (playersOf_nodup h hpool) fun conn => mem_playersOf hpool
    exact ⟨congrArg UInt32.ofNat hrooms, congrArg UInt32.ofNat hplayers⟩
  · rw [sum_players]
    exact congrArg UInt32.ofNat (ncard_of_nodup (everyone_nodup h) fun conn => mem_everyone)

/-- The host who says `Hello` again is counted once. -/
theorem rejoining_counted : UInt32.ofNat
    {conn | ∃ place, Owns (exec step .start rejoining) conn place}.ncard = 2 :=
  (stats_exact _ (reachable_exec rejoining) .quiet (.stored _)).2.2.2.symm.trans
    (by decide +kernel)

end

end Roomie.Statistics
