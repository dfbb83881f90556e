import Roomie.EventCompletion
import Roomie.SerialRuns

/-!
# Serial runs are runs of the atomic server

A run in which every event is completed before the next one begins, the walks through the
rooms of an app among them. Every list of actions has such a run, and it ends where the
atomic server is after these actions, with the same lists of rooms given out on the way.
-/

namespace Roomie.SerialRuns
open HashTables GuardedRuns Shared RoomScans

variable {lay : Layout}

/-- The party takes turns that lead from one state to the other. -/
def Serves (lay : Layout) (env : Env) (p : Party) (hall hall' : Hall) : Prop :=
  ∃ n, exec (Hall.step lay) hall (List.replicate n (.goesOn env p)) = hall'

section
variable {env : Env} {p : Party} {hall hall' hall'' : Hall}

theorem Serves.refl (hall : Hall) : Serves lay env p hall hall := ⟨0, rfl⟩

theorem Serves.turn (h : Serves lay env p (hall.step lay (.goesOn env p)) hall') :
    Serves lay env p hall hall' := by
  obtain ⟨n, hn⟩ := h
  exact ⟨n + 1, hn⟩

theorem Serves.trans (h : Serves lay env p hall hall') (h' : Serves lay env p hall' hall'') :
    Serves lay env p hall hall'' := by
  obtain ⟨n, rfl⟩ := h
  obtain ⟨m, rfl⟩ := h'
  refine ⟨n + m, ?_⟩
  rw [List.replicate_add, exec, List.foldl_append]
  rfl

/-- In a quiet state there is nothing to go on with. -/
theorem goesOn_quiet (h : hall.Quiet) (env : Env) (p : Party) :
    hall.step lay (.goesOn env p) = hall := by
  have hnone : hall.walks.lookup p = none := AList.lookup_eq_none.mpr (h.walks p)
  cases p with
  | http request => simp only [Hall.step, hnone]
  | conn conn =>
    have hidle := h.idle conn
    simp [Hall.step, hnone, Hall.workOn, Shared.proceed, hidle]

theorem rests (h : hall.Quiet) (env : Env) (p : Party) (n : ℕ) :
    exec (Hall.step lay) hall (List.replicate n (.goesOn env p)) = hall := by
  induction n with
  | zero => rfl
  | succ n ih =>
    rw [List.replicate_succ, exec_cons, goesOn_quiet h]
    exact ih

/-- The quiet state that a party comes to does not depend on the number of its turns. -/
theorem serves_unique {n m : ℕ}
    (hn : (exec (Hall.step lay) hall (List.replicate n (.goesOn env p))).Quiet)
    (hm : (exec (Hall.step lay) hall (List.replicate m (.goesOn env p))).Quiet) :
    exec (Hall.step lay) hall (List.replicate n (.goesOn env p)) =
      exec (Hall.step lay) hall (List.replicate m (.goesOn env p)) := by
  have hmore : ∀ {n : ℕ} (k : ℕ),
      (exec (Hall.step lay) hall (List.replicate n (.goesOn env p))).Quiet →
      exec (Hall.step lay) hall (List.replicate (n + k) (.goesOn env p)) =
        exec (Hall.step lay) hall (List.replicate n (.goesOn env p)) := by
    intro n k hquiet
    rw [List.replicate_add, exec, List.foldl_append]
    exact rests hquiet env p k
  rcases Nat.le_total n m with hle | hle
  · obtain ⟨k, rfl⟩ := Nat.exists_eq_add_of_le hle
    exact (hmore k hn).symm
  · obtain ⟨k, rfl⟩ := Nat.exists_eq_add_of_le hle
    exact hmore k hm

end

/-! ## Connections at work -/

section
variable {hall : Hall}

theorem not_guarded (hwalks : ∀ p, p ∉ hall.walks) : hall.guarded lay = fun _ => false := by
  have hempty : hall.walks.entries = [] := by
    refine List.eq_nil_iff_forall_not_mem.mpr fun e he => hwalks e.1 ?_
    exact AList.mem_keys.mpr (List.mem_map_of_mem he)
  funext key
  rw [Hall.guarded, hempty]
  rfl

theorem not_poolGuarded (hwalks : ∀ p, p ∉ hall.walks) (hgrips : hall.grips = ∅) (appKey : String) :
    hall.poolGuarded lay appKey = false := by
  have hempty : hall.walks.entries = [] := by
    refine List.eq_nil_iff_forall_not_mem.mpr fun e he => hwalks e.1 ?_
    exact AList.mem_keys.mpr (List.mem_map_of_mem he)
  rw [Hall.poolGuarded, hempty, hgrips]
  rfl

theorem erase_insert {α β : Type} [DecidableEq α] (table : Table α β) (a : α) (b : β) :
    (table.insert a b).erase a = table.erase a := AList.ext (List.kerase_cons_eq rfl)

/-- A connection that is alone takes hold of its pool, does its work there and lets it go. -/
theorem serves_proceed (hwalks : ∀ p, p ∉ hall.walks) (hgrips : hall.grips = ∅) (env : Env)
    (conn : ConnId) :
    Serves lay env (.conn conn) hall { hall with st := hall.st.proceed env conn } := by
  obtain ⟨st, grips, walks, answer⟩ := hall
  obtain rfl : grips = ∅ := hgrips
  have hnone : walks.lookup (.conn conn) = none := AList.lookup_eq_none.mpr (hwalks _)
  have hstep : ∀ grips, Hall.step lay ⟨st, grips, walks, answer⟩ (.goesOn env (.conn conn)) =
      Hall.workOn lay ⟨st, grips, walks, answer⟩ env conn := by
    intro grips
    simp only [Hall.step, hnone]
  have hguarded : ∀ grips, Hall.guarded lay ⟨st, grips, walks, answer⟩ = fun _ => false :=
    fun _ => not_guarded hwalks
  have hpool : ∀ appKey, Hall.poolGuarded lay ⟨st, ∅, walks, answer⟩ appKey = false :=
    not_poolGuarded hwalks rfl
  have hloose : ∀ grip, ((∅ : Table ConnId Grip).insert conn grip).erase conn = ∅ :=
    fun grip => erase_insert ∅ conn grip
  have hin : ∀ grip keys,
      Hall.inPool lay ⟨st, (∅ : Table ConnId Grip).insert conn grip, walks, answer⟩ env conn keys =
        ⟨st.proceed env conn, ∅, walks, answer⟩ := by
    intro grip keys
    have hfree : keys.any (Hall.guarded lay
        ⟨st, (∅ : Table ConnId Grip).insert conn grip, walks, answer⟩) = false := by
      simp [hguarded]
    simp only [Hall.inPool, hfree, hloose, Bool.false_eq_true, if_false]
  -- the last turn in the pool
  have hwork : ∀ appKey, (poolOf (st.phase conn)).isSome → Serves lay env (.conn conn)
      ⟨st, (∅ : Table ConnId Grip).insert conn (.held appKey), walks, answer⟩
      ⟨st.proceed env conn, ∅, walks, answer⟩ := by
    intro appKey hinside
    refine .turn ?_
    rw [hstep]
    cases hphase : st.phase conn <;> simp only [hphase, poolOf] at hinside
    case opening h =>
      simp only [Hall.workOn, hphase, AList.lookup_insert, hin]
      exact .refl _
    case removing appKey' code next =>
      simp only [Hall.workOn, hphase, AList.lookup_insert, hin]
      exact .refl _
    all_goals cases hinside
  cases hphase : st.phase conn with
  | opening h =>
    refine .turn ?_
    have hensure : Hall.workOn lay ⟨st, ∅, walks, answer⟩ env conn =
        ⟨st, (∅ : Table ConnId Grip).insert conn .ensured, walks, answer⟩ := by
      simp [Hall.workOn, hphase, Hall.ensurePool, hpool]
    rw [hstep, hensure]
    refine .turn ?_
    have hget : Hall.workOn lay ⟨st, (∅ : Table ConnId Grip).insert conn .ensured, walks, answer⟩
        env conn = ⟨st, (∅ : Table ConnId Grip).insert conn (.held h.appKey), walks, answer⟩ := by
      simp only [Hall.workOn, hphase, AList.lookup_insert, Hall.getPool, AList.insert_insert]
    rw [hstep, hget]
    exact hwork _ (by simp [hphase, poolOf])
  | removing appKey code next =>
    refine .turn ?_
    have hget : Hall.workOn lay ⟨st, ∅, walks, answer⟩ env conn =
        ⟨st, (∅ : Table ConnId Grip).insert conn (.held appKey), walks, answer⟩ := by
      simp [Hall.workOn, hphase, Hall.getPool]
    rw [hstep, hget]
    exact hwork _ (by simp [hphase, poolOf])
  | _ =>
    refine .turn ?_
    simp only [hstep, Hall.workOn, hphase]
    exact .refl _

/-- Without walks and guards a connection proceeds as if it were alone with the rooms. -/
theorem serves_of_comes {env : Env} {conn : ConnId} {st' : Shared}
    (hwalks : ∀ p, p ∉ hall.walks) (hgrips : hall.grips = ∅) (h : Comes env conn hall.st st') :
    Serves lay env (.conn conn) hall { hall with st := st' } := by
  obtain ⟨n, rfl⟩ := h
  induction n generalizing hall with
  | zero => exact .refl hall
  | succ n ih =>
    refine (serves_proceed hwalks hgrips env conn).trans ?_
    rw [Function.iterate_succ_apply]
    exact ih hwalks hgrips

end

/-! ## A walk that nobody disturbs -/

section
variable {env : Env} {p : Party} {st : Shared} {grips : Table ConnId Grip}
  {walks : Table Party Walk} {answer : Party → Option (List (String × Room))} {appKey : String}

/-- The rooms of an app in the shards from `opened` on, as they are. -/
def ahead (lay : Layout) (env : Env) (st : Shared) (appKey : String) (opened : ℕ) :
    List (String × RoomRef) :=
  (List.range' opened (lay.shards - opened)).flatMap
    (Hall.inShard lay ⟨st, ∅, ∅, fun _ => none⟩ env appKey)

/-- What a walk sees of rooms. -/
def looks (st : Shared) (rooms : List (String × RoomRef)) : List (String × Room) :=
  rooms.map fun e => (e.1, st.rooms e.2)

/-- The rooms of a shard are visited one after the other. -/
theorem visits (hlocks : ∀ ref, st.holder ref = none) (opened : ℕ)
    (todo : List (String × RoomRef)) (seen : List (String × Room)) :
    Serves lay env p ⟨st, grips, walks.insert p ⟨appKey, [], opened, todo, seen⟩, answer⟩
      ⟨st, grips, walks.insert p ⟨appKey, [], opened, [], seen ++ looks st todo⟩, answer⟩ := by
  induction todo generalizing seen with
  | nil => simpa [looks] using Serves.refl _
  | cons e todo ih =>
    obtain ⟨key, ref⟩ := e
    refine .turn ?_
    have hturn : Hall.step lay
        ⟨st, grips, walks.insert p ⟨appKey, [], opened, (key, ref) :: todo, seen⟩, answer⟩
        (.goesOn env p) =
        ⟨st, grips, walks.insert p ⟨appKey, [], opened, todo, seen ++ [(key, st.rooms ref)]⟩, answer⟩ := by
      simp [Hall.step, Hall.walkOn, hlocks, Walk.see, AList.lookup_insert, AList.insert_insert]
    rw [hturn]
    have hrest := ih (seen ++ [(key, st.rooms ref)])
    rwa [List.append_assoc] at hrest

theorem ahead_more {opened : ℕ} (hmore : opened < lay.shards) : ahead lay env st appKey opened =
    Hall.inShard lay ⟨st, ∅, ∅, fun _ => none⟩ env appKey opened ++
      ahead lay env st appKey (opened + 1) := by
  have hleft : lay.shards - opened = (lay.shards - (opened + 1)) + 1 := by omega
  rw [ahead, hleft, List.range'_succ, List.flatMap_cons]
  rfl

theorem ahead_last {opened : ℕ} (hlast : lay.shards ≤ opened) :
    ahead lay env st appKey opened = [] := by
  rw [ahead, Nat.sub_eq_zero_of_le hlast]
  rfl

/-- The shards are opened one after the other, and then the walk is done. -/
theorem walks_through (hlocks : ∀ ref, st.holder ref = none) (opened : ℕ)
    (seen : List (String × Room)) :
    Serves lay env p ⟨st, grips, walks.insert p ⟨appKey, [], opened, [], seen⟩, answer⟩
      ⟨st, grips, walks.erase p,
        Function.update answer p (some (seen ++ looks st (ahead lay env st appKey opened)))⟩ := by
  refine .turn ?_
  by_cases hmore : opened < lay.shards
  · have hturn : Hall.step lay ⟨st, grips, walks.insert p ⟨appKey, [], opened, [], seen⟩, answer⟩
        (.goesOn env p) = ⟨st, grips, walks.insert p ⟨appKey, [], opened + 1,
          Hall.inShard lay ⟨st, ∅, ∅, fun _ => none⟩ env appKey opened, seen⟩, answer⟩ := by
      simp only [Hall.step, AList.lookup_insert, Hall.walkOn, hmore, if_true, AList.insert_insert]
      rfl
    rw [hturn, ahead_more hmore]
    have hrest := walks_through hlocks (opened + 1)
      (seen ++ looks st (Hall.inShard lay ⟨st, ∅, ∅, fun _ => none⟩ env appKey opened))
    rw [List.append_assoc, looks, looks, ← List.map_append] at hrest
    exact (visits hlocks _ _ _).trans hrest
  · have hlast := Nat.le_of_not_lt hmore
    have hturn : Hall.step lay ⟨st, grips, walks.insert p ⟨appKey, [], opened, [], seen⟩, answer⟩
        (.goesOn env p) = ⟨st, grips, walks.erase p, Function.update answer p (some seen)⟩ := by
      simp only [Hall.step, AList.lookup_insert, Hall.walkOn, hmore, if_false, Hall.endWalk,
        erase_insert]
    have hnothing : looks st (ahead lay env st appKey opened) = [] := by
      rw [ahead_last hlast]
      rfl
    rw [hturn, hnothing, List.append_nil]
    exact .refl _
termination_by lay.shards - opened

/-- What the walk sees is what is registered, each room once. -/
theorem mem_looks {e : String × Room} : e ∈ looks st (ahead lay env st appKey 0) ↔
    (st.registry.lookup (appKey, e.1)).map st.rooms = some e.2 := by
  simp only [looks, ahead, List.mem_map, List.mem_flatMap, inShard_mem, Option.map_eq_some_iff]
  constructor
  · rintro ⟨⟨key, ref⟩, ⟨shard, _, hlookup, _⟩, rfl⟩
    exact ⟨ref, hlookup, rfl⟩
  · rintro ⟨ref, hlookup, hroom⟩
    refine ⟨(e.1, ref), ⟨lay.roomShard e.1, ?_, hlookup, rfl⟩, Prod.ext rfl hroom⟩
    have hlt := lay.roomShard_lt e.1
    exact List.mem_range'_1.mpr ⟨Nat.zero_le _, by omega⟩

theorem looks_nodup : ((looks st (ahead lay env st appKey 0)).map Prod.fst).Nodup := by
  have hkeys : (looks st (ahead lay env st appKey 0)).map Prod.fst =
      (List.range' 0 (lay.shards - 0)).flatMap fun shard =>
        (Hall.inShard lay ⟨st, ∅, ∅, fun _ => none⟩ env appKey shard).map Prod.fst := by
    rw [looks, List.map_map, ahead, List.map_flatMap]
    rfl
  rw [hkeys, List.nodup_flatMap]
  refine ⟨fun shard _ => inShard_nodup _ env appKey shard, ?_⟩
  refine (List.nodup_range').imp fun hne => ?_
  -- a code is in the shard it belongs to
  intro key hmem hmem'
  obtain ⟨e, he, rfl⟩ := List.mem_map.mp hmem
  obtain ⟨e', he', hkey⟩ := List.mem_map.mp hmem'
  have hshard := (inShard_mem.mp he).2
  have hshard' := (inShard_mem.mp he').2
  rw [hkey] at hshard'
  exact hne (hshard.symm.trans hshard')

variable {server : Server} {session : ConnId → Option Session}

theorem mem_looks_mirrored (h : Mirrors st server session) {e : String × Room} :
    e ∈ looks st (ahead lay env st appKey 0) ↔ server.roomAt appKey e.1 = some e.2 := by
  rw [mem_looks, h.rooms]

/-- The list the walk makes is the one the atomic server makes. -/
theorem publicRooms_perm (h : Mirrors st server session) {pool : RoomPool}
    (hpool : server.registry.lookup appKey = some pool) :
    (publicRooms (looks st (ahead lay env st appKey 0))).Perm (pool.listPublicRooms env) := by
  refine List.Perm.filterMap _ ?_
  refine (List.perm_ext_iff_of_nodup (.of_map _ looks_nodup) (AList.nodup_iter _ _)).mpr fun e => ?_
  rw [mem_looks_mirrored h, Server.roomAt, hpool]
  exact AList.mem_iter.symm

theorem publicRooms_none (h : Mirrors st server session)
    (hpool : server.registry.lookup appKey = none) :
    publicRooms (looks st (ahead lay env st appKey 0)) = [] := by
  have hnothing : looks st (ahead lay env st appKey 0) = [] := by
    refine List.eq_nil_iff_forall_not_mem.mpr fun e he => ?_
    rw [mem_looks_mirrored h, Server.roomAt, hpool] at he
    cases he
  rw [hnothing]
  rfl

end

/-! ## Serial runs -/

/-- The atomic server, and the lists of rooms that connections were last answered with. -/
structure Served where
  sys : Sys
  lists : ConnId → Option (List RoomListEntry)

def Served.start : Served := ⟨.start, fun _ => none⟩

/-- An action, and the list of rooms that answers a request for one. -/
def serve (served : Served) (a : Action) : Served :=
  ⟨Roomie.step served.sys a, match a.event, (a.outcome served.sys).replies with
    | .message (.listRooms _), [.roomList rooms] =>
      Function.update served.lists a.conn (some rooms)
    | _, _ => served.lists⟩

/-- The same entries, in whatever order. -/
def SameLists (lists : ConnId → Option (List RoomListEntry)) (hall : Hall) : Prop :=
  ∀ conn, Option.Rel List.Perm ((hall.answer (.conn conn)).map publicRooms) (lists conn)

theorem SameLists.answered {lists : ConnId → Option (List RoomListEntry)} {hall : Hall}
    (h : SameLists lists hall) {st : Shared} {walks : Table Party Walk} {conn : ConnId}
    {grips : Table ConnId Grip} {seen : List (String × Room)} {rooms : List RoomListEntry}
    (hperm : (publicRooms seen).Perm rooms) :
    SameLists (Function.update lists conn (some rooms))
      ⟨st, grips, walks, Function.update hall.answer (.conn conn) (some seen)⟩ := by
  intro conn'
  dsimp only
  by_cases hconn : conn' = conn
  · subst hconn
    rw [Function.update_self, Function.update_self]
    exact .some hperm
  · have hparty : Party.conn conn' ≠ .conn conn := fun heq => hconn (Party.conn.inj heq)
    rw [Function.update_of_ne hconn, Function.update_of_ne hparty]
    exact h conn'

/-- Nothing is under way, and the state is that of the atomic server. -/
structure Settled (hall : Hall) (served : Served) : Prop where
  walks : ∀ p, p ∉ hall.walks
  grips : hall.grips = ∅
  state : ∀ me, At hall.st me .idle served.sys.server served.sys.session
  lists : SameLists served.lists hall

theorem settled_start : Settled .start .start where
  walks p := AList.notMem_empty p
  grips := rfl
  state me :=
    ⟨latched_start, rfl, fun _ _ => rfl, fun _ => rfl, ⟨fun _ _ => rfl, rfl, rfl, rfl⟩,
      fun appKey pool h => by simp [Served.start, Sys.start, Server.start] at h⟩
  lists _ := .none

/-- The event of the action begins, and its connection takes `n` turns. -/
def serially (a : Action) (n : ℕ) : List RoomScans.Turn :=
  .begins a.env a.conn a.event :: List.replicate n (.goesOn a.env (.conn a.conn))

/-- Every event is completed before the next one begins. -/
inductive Serial (lay : Layout) : Hall → List Action → Hall → Prop
  | nil {hall : Hall} : Serial lay hall [] hall
  | cons {hall hall' : Hall} {a : Action} {as : List Action} (n : ℕ)
      (completed : (exec (Hall.step lay) hall (serially a n)).Quiet)
      (rest : Serial lay (exec (Hall.step lay) hall (serially a n)) as hall') :
      Serial lay hall (a :: as) hall'

namespace Settled
variable {hall : Hall} {served : Served}

theorem quiet (h : Settled hall served) : hall.Quiet :=
  ⟨fun conn => (h.state conn).here, h.walks, (h.state 0).locks, fun conn =>
    h.grips ▸ AList.notMem_empty conn⟩

/-- Every event but a request for the list of rooms. -/
theorem carried_event (h : Settled hall served) {a : Action}
    (hevent : ∀ appKey, a.event ≠ .message (.listRooms appKey)) :
    ∃ n, Settled (exec (Hall.step lay) hall (serially a n)) (serve served a) := by
  obtain ⟨st', hcomes, hat⟩ := event_carried a.env (h.state a.conn) hevent
  have hbegins : hall.step lay (.begins a.env a.conn a.event) =
      { hall with st := hall.st.begin a.conn a.event } := by
    have hidle := (h.state a.conn).here
    simp only [Hall.step, h.walks, if_false]
    split
    · rename_i appKey event _
      exact absurd event (hevent appKey)
    · simp only [tick, hidle]
  obtain ⟨n, hn⟩ : Serves lay a.env (.conn a.conn)
      { hall with st := hall.st.begin a.conn a.event } { hall with st := st' } :=
    serves_of_comes h.walks h.grips hcomes
  have hlists : (serve served a).lists = served.lists := by
    unfold serve
    dsimp only
    split
    · rename_i appKey _ event _
      exact absurd event (hevent appKey)
    · rfl
  refine ⟨n, ?_⟩
  rw [serially, exec_cons, hbegins, hn]
  exact ⟨h.walks, h.grips, hat.turn, hlists.symm ▸ h.lists⟩

/-- The check of the app changes the cache only. -/
theorem cached (h : Settled hall served) (cache : SettingsCache) (conn me : ConnId) :
    At { hall.st with cache := cache } me .idle { served.sys.server with cache := cache }
      (Function.update served.sys.session conn (served.sys.session conn)) := by
  obtain ⟨latched, here, others, locks, mirrors, keyed⟩ := h.state me
  rw [Function.update_eq_self]
  exact ⟨⟨latched.registered, latched.holders⟩, here, others, locks,
    ⟨mirrors.rooms, rfl, mirrors.counter, mirrors.session⟩, keyed⟩

/-- A request for the list of rooms. -/
theorem carried_list (h : Settled hall served) (env : Env) (conn : ConnId) (appKey : String) :
    ∃ n, Settled (exec (Hall.step lay) hall (serially ⟨env, conn, .message (.listRooms appKey)⟩ n))
      (serve served ⟨env, conn, .message (.listRooms appKey)⟩) := by
  have hidle := (h.state conn).here
  have hcache : hall.st.cache = served.sys.server.cache := (h.state conn).mirrors.cache
  have hbegins : hall.step lay (.begins env conn (.message (.listRooms appKey))) =
      hall.listRooms env conn appKey := by
    simp only [Hall.step, h.walks, if_false, hidle]
  generalize hchecked : isRegisteredApp env.disk served.sys.server.cache appKey = checked
  obtain ⟨registered, cache⟩ := checked
  have hstate := h.cached cache conn
  simp only [serially, exec_cons, hbegins, Hall.listRooms, serve, Roomie.step, Action.outcome,
    dispatch, dispatchListRooms, hcache, hchecked]
  cases registered with
  | false => exact ⟨0, h.walks, h.grips, hstate, h.lists⟩
  | true =>
    obtain ⟨n, hn⟩ : Serves lay env (.conn conn)
        ⟨{ hall.st with cache := cache }, hall.grips, hall.walks.insert (.conn conn) (.new appKey []),
          hall.answer⟩
        ⟨{ hall.st with cache := cache }, hall.grips, hall.walks.erase (.conn conn),
          Function.update hall.answer (.conn conn) (some ([] ++ looks { hall.st with cache := cache }
            (ahead lay env { hall.st with cache := cache } appKey 0)))⟩ :=
      walks_through (hstate conn).locks 0 []
    refine ⟨n, ?_⟩
    simp only [if_true, Hall.startWalk]
    rw [hn, List.nil_append]
    have hwalks : ∀ p, p ∉ hall.walks.erase (.conn conn) := by
      intro p hmem
      exact h.walks p (AList.mem_erase.mp hmem).2
    have hmirrors := (hstate conn).mirrors
    cases hpool : served.sys.server.registry.lookup appKey with
    | none =>
      refine ⟨hwalks, h.grips, hstate, h.lists.answered ?_⟩
      rw [publicRooms_none hmirrors hpool]
    | some pool => exact ⟨hwalks, h.grips, hstate, h.lists.answered (publicRooms_perm hmirrors hpool)⟩

/-- Every action can be carried out, and leaves what the atomic server leaves. -/
theorem carried (h : Settled hall served) (a : Action) :
    ∃ n, Settled (exec (Hall.step lay) hall (serially a n)) (serve served a) := by
  by_cases hlist : ∃ appKey, a.event = .message (.listRooms appKey)
  · obtain ⟨env, conn, event⟩ := a
    obtain ⟨appKey, rfl⟩ := hlist
    exact h.carried_list env conn appKey
  · exact h.carried_event fun appKey heq => hlist ⟨appKey, heq⟩

/-- Whatever number of turns completes the action, it leaves what the atomic server leaves. -/
theorem completed (h : Settled hall served) {a : Action} {n : ℕ}
    (hquiet : (exec (Hall.step lay) hall (serially a n)).Quiet) :
    Settled (exec (Hall.step lay) hall (serially a n)) (serve served a) := by
  obtain ⟨m, hm⟩ : ∃ m, Settled (exec (Hall.step lay) hall (serially a m)) (serve served a) :=
    h.carried a
  exact serves_unique hm.quiet hquiet ▸ hm

end Settled

/-- The record of the lists leaves the server alone. -/
theorem serve_sys (served : Served) (as : List Action) :
    (exec serve served as).sys = exec Roomie.step served.sys as := by
  induction as generalizing served with
  | nil => rfl
  | cons a as ih => exact ih (serve served a)

theorem serial_exists (as : List Action) {hall : Hall} {served : Served}
    (h : Settled hall served) : ∃ hall', Serial lay hall as hall' := by
  induction as generalizing hall served with
  | nil => exact ⟨hall, .nil⟩
  | cons a as ih =>
    obtain ⟨n, hn⟩ : ∃ n, Settled (exec (Hall.step lay) hall (serially a n)) (serve served a) :=
      h.carried a
    obtain ⟨hall', hrest⟩ := ih hn
    exact ⟨hall', .cons n hn.quiet hrest⟩

theorem serial_settled {as : List Action} {hall hall' : Hall} (hrun : Serial lay hall as hall')
    {served : Served} (h : Settled hall served) : Settled hall' (exec serve served as) := by
  induction hrun generalizing served with
  | nil => exact h
  | cons n completed rest ih => exact ih (h.completed completed)

/-- Every list of actions can be carried out one event after another, and however that is done, it
ends in a quiet state with the rooms, the sessions, the settings cache and the lists of rooms of the
atomic server. -/
theorem serial_run_mirrors (as : List Action) : (∃ hall, Serial lay .start as hall) ∧
    ∀ hall, Serial lay .start as hall → hall.Quiet ∧
      Mirrors hall.st (exec Roomie.step .start as).server (exec Roomie.step .start as).session ∧
      SameLists (exec serve .start as).lists hall := by
  refine ⟨serial_exists as settled_start, fun hall hrun => ?_⟩
  have hsettled := serial_settled hrun settled_start
  have hmirrors := (hsettled.state 0).mirrors
  rw [serve_sys] at hmirrors
  exact ⟨hsettled.quiet, hmirrors, hsettled.lists⟩

/-- A room is created and published, and somebody else asks for the list. -/
def publishThenList : List Action :=
  [sends 0 (plainHello "" "h"), sends 0 (.roomControl (.setPublic true)), sends 1 (.listRooms "pong")]

/-- The finer server gives out a list with this one room. -/
theorem serial_list : ∃ hall seen, Serial oneShard .start publishThenList hall ∧
    hall.answer (.conn 1) = some seen ∧ (publicRooms seen).length = 1 := by
  obtain ⟨⟨hall, hrun⟩, hmirrors⟩ : (∃ hall, Serial oneShard .start publishThenList hall) ∧ _ :=
    serial_run_mirrors publishThenList
  obtain ⟨_, _, hlists⟩ := hmirrors hall hrun
  have hlength : ((exec serve .start publishThenList).lists 1).map List.length = some 1 := by
    decide +kernel
  have hone := hlists 1
  obtain ⟨rooms, hrooms, hlen⟩ := Option.map_eq_some_iff.mp hlength
  rw [hrooms] at hone
  cases hseen : hall.answer (.conn 1) with
  | none =>
    rw [hseen] at hone
    cases hone
  | some seen =>
    rw [hseen] at hone
    cases hone with
    | some hperm => exact ⟨hall, seen, hrun, hseen, hperm.length_eq.trans hlen⟩

end Roomie.SerialRuns
