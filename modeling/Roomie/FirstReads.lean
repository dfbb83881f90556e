import Roomie.AppKeys
import Roomie.HelloOutcomes

/-!
# The first reading of a configuration

`schema::load` caches what it finds under an app key. While the server runs files may come, go and
change. The first lookup that finds a configuration decides whether the app is registered from then
on, and what settings all its rooms start with. Lookups are taken one at a time here: of two that
read the file at once the one that writes to the cache last decides.
-/

namespace Roomie.FirstReads
open HashTables GuardedRuns

/-- What a lookup goes by that finds nothing in the cache. -/
def readSettings (disk : Disk) (appKey : String) : Option DefaultSettings :=
  if isBuiltinApp appKey then some (appFallback appKey) else loadSettingsFromDisk disk appKey

/-- The checks before the lookup of a `Hello` pass. -/
def passes (env : Env) (h : Hello) : Bool :=
  h.validate.isOk &&
    !env.secret.any (fun secret => !secret.isEmpty && h.authToken.getD "" != secret)

/-- The app key that a message makes the server look up. -/
def lookedUp (a : Action) : Option String :=
  match a.event with
  | .message (.hello h) => if passes a.env h then some h.appKey else none
  | .message (.listRooms appKey) => some appKey
  | _ => none

/-- What the files hold for an app when it is looked up. -/
def reading (appKey : String) (a : Action) : Option DefaultSettings :=
  if lookedUp a = some appKey then readSettings a.env.disk appKey else none

/-- What the first lookup of an app found that found anything. -/
def firstRead (as : List Action) (appKey : String) : Option DefaultSettings :=
  as.findSome? (reading appKey)

theorem firstRead_concat (as : List Action) (a : Action) (appKey : String) :
    firstRead (as ++ [a]) appKey = (firstRead as appKey).or (reading appKey a) := by
  rw [firstRead, List.findSome?_append, List.findSome?_singleton]
  rfl

/-! ## The cache -/

section
variable {disk : Disk} {cache : SettingsCache} {appKey key : String}

/-- For an app that is not cached the lookup goes by what it reads, and keeps it. -/
theorem isRegisteredApp_uncached (h : cache.lookup appKey = none) :
    isRegisteredApp disk cache appKey = ((readSettings disk appKey).isSome,
      (readSettings disk appKey).elim cache fun settings => cache.insert appKey settings) := by
  rw [isRegisteredApp, if_neg (AList.lookup_eq_none.mp h), readSettings]
  split_ifs
  · rfl
  · cases loadSettingsFromDisk disk appKey <;> rfl

theorem isRegisteredApp_eq : (isRegisteredApp disk cache appKey).1 =
    ((cache.lookup appKey).or (readSettings disk appKey)).isSome := by
  cases hlookup : cache.lookup appKey with
  | some settings =>
    rw [isRegisteredApp, if_pos (AList.mem_of_lookup hlookup)]
    rfl
  | none =>
    rw [isRegisteredApp_uncached hlookup]
    rfl

/-- An entry is added for a key that has none, and never exchanged. -/
theorem lookup_isRegisteredApp : (isRegisteredApp disk cache appKey).2.lookup key =
    (cache.lookup key).or (if appKey = key then readSettings disk key else none) := by
  cases hlookup : cache.lookup appKey with
  | some settings =>
    rw [isRegisteredApp, if_pos (AList.mem_of_lookup hlookup)]
    split_ifs with hkey
    · rw [← hkey, hlookup]
      rfl
    · exact (Option.or_none ..).symm
  | none =>
    rw [isRegisteredApp_uncached hlookup]
    split_ifs with hkey
    · rw [← hkey, hlookup, Option.none_or]
      cases readSettings disk appKey with
      | none => exact hlookup
      | some settings => exact AList.lookup_insert ..
    · rw [Option.or_none]
      cases readSettings disk appKey with
      | none => rfl
      | some settings => exact AList.lookup_insert_ne (Ne.symm hkey)

/-- For an app that is cached the settings are not read again. -/
theorem defaultRoomSettings_cached {settings : DefaultSettings}
    (h : cache.lookup appKey = some settings) :
    defaultRoomSettingsForApp disk cache appKey = (settings, cache) := by
  rw [defaultRoomSettingsForApp, h]

end

/-! ## What a message does to it -/

section
variable {env : Env} {s s₁ s₂ : Server} {h : Hello} {session : Option Session} {me : ConnId}

theorem inRoom_cache (session : Session) (f : Room → Net → Room × Net × List ServerMessage) :
    (inRoom s session f).server.cache = s.cache := by
  unfold inRoom
  cases s.lookupRoom session.appKey session.roomCode with
  | none => rfl
  | some room => exact (Server.setRoom_rest ..).1

theorem ensurePool_cache (appKey : String) : (s.ensurePool appKey).cache = s.cache := by
  unfold Server.ensurePool
  split_ifs <;> rfl

/-- A `Hello` passes the gate when the checks pass and the app is cached or can be read. -/
theorem helloGate_passed (hg : helloGate env s h = .ok s₁) : passes env h = true ∧
    (isRegisteredApp env.disk s.cache h.appKey).1 = true ∧
    s₁.cache = (isRegisteredApp env.disk s.cache h.appKey).2 := by
  unfold helloGate at hg
  cases hv : h.validate with
  | error message => simp [hv] at hg
  | ok u =>
    simp only [hv] at hg
    split_ifs at hg with hauth hregistered
    obtain rfl := Except.ok.inj hg
    refine ⟨?_, hregistered, ensurePool_cache _⟩
    rw [passes, hv, Bool.eq_false_of_not_eq_true hauth]
    rfl

/-- It fails there for the checks, or because the app is not registered. -/
theorem helloGate_failed {message : String} (hg : helloGate env s h = .error message) :
    (passes env h = false ∧ message ≠ "unregistered game type") ∨
    passes env h = true ∧ message = "unregistered game type" ∧
      (isRegisteredApp env.disk s.cache h.appKey).1 = false := by
  unfold helloGate at hg
  cases hv : h.validate with
  | error text =>
    simp only [hv] at hg
    obtain rfl := Except.error.inj hg
    refine .inl ⟨by rw [passes, hv]; rfl, ?_⟩
    rintro rfl
    unfold Hello.validate validateHello at hv
    split_ifs at hv <;> simp at hv
  | ok u =>
    simp only [hv] at hg
    split_ifs at hg with hauth hregistered
    · obtain rfl := Except.error.inj hg
      exact .inl ⟨by rw [passes, hauth, Bool.not_true, Bool.and_false], by decide⟩
    · obtain rfl := Except.error.inj hg
      refine .inr ⟨?_, rfl, Bool.eq_false_of_not_eq_true hregistered⟩
      rw [passes, hv, Bool.eq_false_of_not_eq_true hauth]
      rfl

/-- A room is opened without another reading, and a new one has the settings of the cache. -/
theorem openRoom_cached (env : Env) {settings : DefaultSettings}
    (hcached : s₁.cache.lookup h.appKey = some settings) :
    (openRoom env s₁ h).1.cache = s₁.cache ∧
    (openRoom env s₁ h).2 ≠ .error "unregistered game type" ∧
    ∀ code room, (openRoom env s₁ h).2 = .ok (code, room) →
      s₁.roomAt h.appKey code.key = some room ∨ room.settings = settings := by
  unfold openRoom
  cases hpool : s₁.registry.lookup h.appKey with
  | none => exact ⟨rfl, by simp, by simp⟩
  | some pool =>
    dsimp only
    split_ifs with hempty
    · rw [defaultRoomSettings_cached hcached]
      dsimp only
      split
      · rename_i created code room pool' hcreated
        refine ⟨rfl, by simp, ?_⟩
        intro code' room' hok
        obtain ⟨rfl, rfl⟩ := Prod.mk.inj (Except.ok.inj hok)
        rw [(RoomPool.createRoom_some hcreated).room_eq]
        exact .inr rfl
      · exact ⟨rfl, by simp, by simp⟩
    · cases hroom : pool.getRoom h.roomCode with
      | none => exact ⟨rfl, by simp, by simp⟩
      | some room =>
        refine ⟨rfl, by simp, ?_⟩
        intro code' room' hok
        obtain ⟨rfl, rfl⟩ := Prod.mk.inj (Except.ok.inj hok)
        exact .inl (Server.roomAt_eq_some.mpr ⟨pool, hpool, hroom⟩)

/-- The locked part speaks of other things, and leaves the settings alone. -/
theorem admitPeer_settings (env : Env) (me : ConnId) (h : Hello) (room : Room) (code : RoomCode)
    (net : Net) :
    (room.admitPeer env me code h net).1.settings = room.settings ∧
    (answerOf h.appKey code (room.admitPeer env me code h net).2.2).2 ≠
      [.error "unregistered game type"] := by
  constructor
  · obtain ⟨_, n, message, _, hlocked⟩ | ⟨_, room', net', pid, joined, hlocked, hadmitted⟩ :=
      Room.admit_cases env me code h room net
    · rw [hlocked]
    · rw [hlocked]
      exact hadmitted.data.2.1
  · unfold Room.admitPeer
    split_ifs
    · simp [answerOf]
    · simp [answerOf]
    · simp [answerOf]
    · split <;> simp [answerOf, Room.joinedMessage]

/-- What a `Hello` makes of a server that its connection has left: what the first lookup found is
kept, and decides its answer and the settings of the room it creates. -/
structure HelloReads (env : Env) (h : Hello) (s : Server) (o : Outcome) : Prop where
  cache : ∀ key, o.server.cache.lookup key = (s.cache.lookup key).or
    (if passes env h = true ∧ h.appKey = key then readSettings env.disk key else none)
  answer : passes env h = true → (o.replies = [.error "unregistered game type"] ↔
    (s.cache.lookup h.appKey).or (readSettings env.disk h.appKey) = none)
  created : ∀ appKey key room, s.roomAt appKey key = none → o.server.roomAt appKey key = some room →
    ∃ settings : DefaultSettings, o.server.cache.lookup appKey = some settings ∧
      room.settings = settings

variable {net : Net} {message : String}

theorem HelloReads.refused (hg : helloGate env s h = .error message) :
    HelloReads env h s ⟨s, none, net, [.error message]⟩ := by
  have hnone : ∀ appKey key room, s.roomAt appKey key = none →
      s.roomAt appKey key ≠ some room := by
    intro appKey key room hfree
    rw [hfree]
    exact (Option.some_ne_none room).symm
  obtain ⟨hfails, -⟩ | ⟨-, rfl, hregistered⟩ := helloGate_failed hg
  · refine ⟨?_, ?_, fun appKey key room hfree hroom => absurd hroom (hnone _ _ _ hfree)⟩
    · intro key
      rw [hfails, if_neg (by simp), Option.or_none]
    · intro hpasses
      rw [hfails] at hpasses
      exact absurd hpasses Bool.false_ne_true
  · rw [isRegisteredApp_eq, Option.isSome_eq_false_iff, Option.isNone_iff_eq_none] at hregistered
    refine ⟨?_, fun _ => iff_of_true rfl hregistered,
      fun appKey key room hfree hroom => absurd hroom (hnone _ _ _ hfree)⟩
    intro key
    split_ifs with hkey
    · obtain ⟨hcache, hread⟩ := Option.or_eq_none_iff.mp hregistered
      rw [← hkey.2, hcache, hread]
      rfl
    · exact (Option.or_none ..).symm

/-- Behind the gate the app is cached. -/
theorem helloGate_cached (hg : helloGate env s h = .ok s₁) :
    (∀ key, s₁.cache.lookup key = (s.cache.lookup key).or
      (if passes env h = true ∧ h.appKey = key then readSettings env.disk key else none)) ∧
    ∃ settings, (s.cache.lookup h.appKey).or (readSettings env.disk h.appKey) = some settings ∧
      s₁.cache.lookup h.appKey = some settings := by
  obtain ⟨hpasses, hregistered, hcache⟩ := helloGate_passed hg
  rw [isRegisteredApp_eq] at hregistered
  obtain ⟨settings, hsettings⟩ := Option.isSome_iff_exists.mp hregistered
  have hlookup : ∀ key, s₁.cache.lookup key = (s.cache.lookup key).or
      (if passes env h = true ∧ h.appKey = key then readSettings env.disk key else none) := by
    intro key
    simp only [hcache, lookup_isRegisteredApp, hpasses, true_and]
  exact ⟨hlookup, settings, hsettings, by rw [hlookup, if_pos ⟨hpasses, rfl⟩, hsettings]⟩

theorem HelloReads.unopened (hg : helloGate env s h = .ok s₁)
    (ho : openRoom env s₁ h = (s₂, .error message)) :
    HelloReads env h s ⟨s₂, none, net, [.error message]⟩ := by
  obtain ⟨hlookup, settings, hsettings, hcached⟩ := helloGate_cached hg
  obtain ⟨hsame, hanswer, -⟩ := openRoom_cached env hcached
  rw [ho] at hsame hanswer
  refine ⟨?_, fun _ => iff_of_false ?_ ?_, ?_⟩
  · intro key
    rw [hsame, hlookup]
  · intro hreplies
    obtain rfl := ServerMessage.error.inj (List.singleton_inj.mp hreplies)
    exact hanswer rfl
  · rw [hsettings]
    exact Option.some_ne_none settings
  · intro appKey key room hfree hroom
    rw [(openRoom_error ho).1, (helloGate_ok hg).2, hfree] at hroom
    cases hroom

theorem HelloReads.opened {code : RoomCode} {room : Room} (hg : helloGate env s h = .ok s₁)
    (ho : openRoom env s₁ h = (s₂, .ok (code, room))) :
    let locked := room.admitPeer env me code h net
    HelloReads env h s ⟨s₂.setRoom h.appKey code locked.1, (answerOf h.appKey code locked.2.2).1,
      locked.2.1, (answerOf h.appKey code locked.2.2).2⟩ := by
  obtain ⟨hlookup, settings, hsettings, hcached⟩ := helloGate_cached hg
  obtain ⟨hsame, -, hnew⟩ := openRoom_cached env hcached
  rw [ho] at hsame hnew
  obtain ⟨hkept, hother⟩ := admitPeer_settings env me h room code net
  refine ⟨?_, fun _ => iff_of_false hother ?_, ?_⟩
  · intro key
    rw [(Server.setRoom_rest ..).1, hsame, hlookup]
  · rw [hsettings]
    exact Option.some_ne_none settings
  · intro appKey key room' hfree hroom'
    have hrooms := (helloGate_ok hg).2
    have hopened := openRoom_ok ho
    have hput := Server.roomPut_setRoom hopened.put.here (room.admitPeer env me code h net).1
    by_cases hplace : appKey = h.appKey ∧ key = code.key
    · obtain ⟨rfl, rfl⟩ := hplace
      obtain rfl := Option.some.inj (hput.here.symm.trans hroom')
      obtain hold | hsettings' := hnew code room rfl
      · rw [hrooms, hfree] at hold
        cases hold
      · exact ⟨settings, by rw [(Server.setRoom_rest ..).1, hsame, hcached], hkept.trans hsettings'⟩
    · rw [hput.elsewhere hplace, hopened.put.elsewhere hplace, hrooms, hfree] at hroom'
      cases hroom'

theorem hello_reads (env : Env) (s : Server) (session : Option Session) (me : ConnId) (h : Hello) :
    HelloReads env h (leaveSession env s session []).1 (dispatchHello env s session me h) := by
  cases hg : helloGate env (leaveSession env s session []).1 h with
  | error message =>
    rw [dispatchHello_refused hg]
    exact .refused hg
  | ok s₁ =>
    cases ho : openRoom env s₁ h with
    | mk s₂ answer =>
      cases answer with
      | error message =>
        rw [dispatchHello_unopened hg ho]
        exact .unopened hg ho
      | ok found =>
        rw [dispatchHello_opened hg ho]
        exact .opened hg ho

end

/-! ## What an action does -/

theorem leaveRoom_cache (env : Env) (s : Server) (appKey : String) (code : RoomCode) (pid : PeerId)
    (net : Net) : (leaveRoom env s appKey code pid net).1.cache = s.cache :=
  leaveSession_cache env s (some ⟨appKey, code, pid⟩) net

/-- The cache keeps what it holds, and gets what is read under a key that it does not hold. -/
theorem step_cache (sys : Sys) (a : Action) (key : String) :
    (step sys a).server.cache.lookup key =
      (sys.server.cache.lookup key).or (reading key a) := by
  have hsilent : lookedUp a = none → (a.outcome sys).server.cache = sys.server.cache →
      (a.outcome sys).server.cache.lookup key = (sys.server.cache.lookup key).or (reading key a) := by
    intro hnone hcache
    rw [hcache, reading, hnone, if_neg (Option.some_ne_none key).symm, Option.or_none]
  change (a.outcome sys).server.cache.lookup key = _
  obtain ⟨env, conn, event⟩ := a
  cases event with
  | disconnect => exact hsilent rfl (leaveSession_cache ..)
  | message msg =>
    cases msg with
    | hello h =>
      rw [Action.outcome_hello rfl, (hello_reads env sys.server _ conn h).cache, leaveSession_cache,
        reading, lookedUp]
      dsimp only
      split_ifs with hpasses hkey hkey <;> simp_all
    | listRooms appKey =>
      have hcache : (dispatchListRooms env sys.server (sys.session conn) appKey).server.cache =
          (isRegisteredApp env.disk sys.server.cache appKey).2 := by
        unfold dispatchListRooms
        dsimp only
        split_ifs
        · cases sys.server.registry.lookup appKey <;> rfl
        · rfl
      change (dispatchListRooms env sys.server _ appKey).server.cache.lookup key = _
      rw [hcache, lookup_isRegisteredApp, reading, lookedUp]
      simp only [Option.some.injEq]
    | ping => exact hsilent rfl rfl
    | roomControl rc =>
      refine hsilent rfl ?_
      cases hsession : sys.session conn with
      | none => simp only [Action.outcome, hsession, dispatch]
      | some session =>
        simp only [Action.outcome, hsession, dispatch]
        cases rc with
        | leave => exact leaveRoom_cache ..
        | createRoom settings => rfl
        | _ => exact inRoom_cache ..
    | _ =>
      refine hsilent rfl ?_
      cases hsession : sys.session conn with
      | none => simp only [Action.outcome, hsession, dispatch]
      | some session =>
        simp only [Action.outcome, hsession, dispatch]
        exact inRoom_cache ..

/-- Who looks an app up is told that it is not registered exactly when neither the cache nor the
files know it. -/
theorem step_answer (sys : Sys) (a : Action) {key : String} (h : lookedUp a = some key) :
    (a.outcome sys).replies = [.error "unregistered game type"] ↔
      (sys.server.cache.lookup key).or (readSettings a.env.disk key) = none := by
  obtain ⟨env, conn, event⟩ := a
  cases event with
  | disconnect => cases h
  | message msg =>
    cases msg with
    | hello hello =>
      simp only [lookedUp, Option.ite_none_right_eq_some, Option.some.injEq] at h
      obtain ⟨hpasses, rfl⟩ := h
      rw [Action.outcome_hello rfl]
      rw [(hello_reads env sys.server _ conn hello).answer hpasses, leaveSession_cache]
    | listRooms appKey =>
      obtain rfl := Option.some.inj h
      change (dispatchListRooms env sys.server _ appKey).replies = _ ↔ _
      rw [← Option.isNone_iff_eq_none, ← Option.isSome_eq_false_iff, ← isRegisteredApp_eq,
        dispatchListRooms]
      dsimp only
      split_ifs with hregistered
      · rw [hregistered]
        cases sys.server.registry.lookup appKey <;> simp
      · exact iff_of_true rfl (Bool.eq_false_of_not_eq_true hregistered)
    | _ => cases h

/-- A room that was not there: a `Hello` leaves the room of its connection first, which may be the
last to leave it. -/
structure NewRoom (sys : Sys) (a : Action) (appKey key : String) (room : Room) : Prop where
  free : sys.roomAt appKey key = none ∨ ∃ h, a.event = .message (.hello h) ∧
    (leaveSession a.env sys.server (sys.session a.conn) []).1.roomAt appKey key = none
  there : (step sys a).roomAt appKey key = some room

/-- A new room has the settings that are cached for its app. -/
theorem NewRoom.settings {sys : Sys} {a : Action} {appKey key : String} {room : Room}
    (h : NewRoom sys a appKey key room) : ∃ settings : DefaultSettings,
      (step sys a).server.cache.lookup appKey = some settings ∧ room.settings = settings := by
  obtain ⟨hfree, hthere⟩ := h
  change (a.outcome sys).server.roomAt appKey key = some room at hthere
  have hleft : sys.roomAt appKey key = none →
      (leaveSession a.env sys.server (sys.session a.conn) []).1.roomAt appKey key = none := by
    intro hnone
    rw [Option.eq_none_iff_forall_ne_some]
    intro room' hroom'
    obtain ⟨before, hbefore, _⟩ := leaveSession_roomAt hroom'
    exact absurd (hnone.symm.trans hbefore) (Option.some_ne_none before).symm
  have hhello : ∀ h, a.event = .message (.hello h) → ∃ settings : DefaultSettings,
      (a.outcome sys).server.cache.lookup appKey = some settings ∧ room.settings = settings := by
    intro h event
    have hvacated : (leaveSession a.env sys.server (sys.session a.conn) []).1.roomAt appKey key =
        none := by
      obtain hnone | ⟨_, _, hnone⟩ := hfree
      · exact hleft hnone
      · exact hnone
    rw [Action.outcome_hello event] at hthere ⊢
    exact (hello_reads a.env sys.server _ a.conn h).created appKey key room hvacated hthere
  have hsilent : ∀ o, StepResult sys a o → sys.roomAt appKey key = none →
      (∃ h, a.event = .message (.hello h)) ∨ o.server.roomAt appKey key = none := by
    intro o hresult hnone
    cases hresult with
    | idle same => exact .inr ((same appKey key).trans hnone)
    | read _ _ same _ => exact .inr ((same appKey key).trans hnone)
    | op _ _ _ found put =>
      refine .inr ((put.elsewhere ?_).trans hnone)
      rintro ⟨rfl, rfl⟩
      exact absurd (hnone.symm.trans found) (Option.some_ne_none _).symm
    | left _ => exact .inr (hleft hnone)
    | hello event => exact .inl ⟨_, event⟩
  obtain hnone | ⟨h, event, _⟩ := hfree
  · obtain ⟨h, event⟩ | hgone := hsilent _ (Action.result sys a) hnone
    · exact hhello h event
    · exact absurd (hgone.symm.trans hthere) (Option.some_ne_none room).symm
  · exact hhello h event

/-! ## Whole runs -/

/-- The cache holds what was read first. -/
theorem cache_eq_firstRead (as : List Action) (key : String) :
    (exec step .start as).server.cache.lookup key = firstRead as key := by
  induction as using List.reverseRecOn with
  | nil => exact AList.lookup_empty key
  | append_singleton as a ih =>
    have hlast : exec step .start (as ++ [a]) = step (exec step .start as) a := List.foldl_concat ..
    rw [hlast, step_cache, ih, firstRead_concat]

/-- In every run, while the files change at will: the first lookup of an app that finds it built in
or finds a configuration decides for good. From then on, and not before, those who look the app up
are not told that it is unregistered, and every new room of the app starts with what was found. -/
theorem first_read_decides (as : List Action) (a : Action) :
    (∀ appKey, lookedUp a = some appKey →
      ((a.outcome (exec step .start as)).replies = [.error "unregistered game type"] ↔
        firstRead (as ++ [a]) appKey = none)) ∧
    ∀ appKey key room, NewRoom (exec step .start as) a appKey key room →
      ∃ settings : DefaultSettings, firstRead (as ++ [a]) appKey = some settings ∧
        room.settings = settings := by
  constructor
  · intro appKey hlooked
    rw [step_answer _ a hlooked, cache_eq_firstRead, firstRead_concat, reading, if_pos hlooked]
  · intro appKey key room hnew
    obtain ⟨settings, hcached, hsettings⟩ := hnew.settings
    refine ⟨settings, ?_, hsettings⟩
    rw [firstRead_concat, ← cache_eq_firstRead, ← step_cache, hcached]

/-- A room of the app `chess` is created, whose file has this limit at the time. -/
def createsChess (conn : ConnId) (maxPlayers : UInt32) : Action where
  env := { Env.quiet with
    disk := fun appKey => if appKey = "chess" then some ⟨2, maxPlayers⟩ else none }
  conn := conn
  event := .message (.hello ⟨"chess", ⟨""⟩, "h", none, none, none⟩)

/-- The second room starts with the old limit. -/
theorem old_limit_kept : ∃ room,
    NewRoom (exec step .start [createsChess 0 4]) (createsChess 1 8) "chess" "r0" room ∧
      room.settings.maxPlayers = 4 := by
  have hfree : ((exec step .start [createsChess 0 4]).roomAt "chess" "r0").isNone = true := by
    decide +kernel
  have hthere : ((step (exec step .start [createsChess 0 4]) (createsChess 1 8)).roomAt
      "chess" "r0").isSome = true := by
    decide +kernel
  obtain ⟨room, hroom⟩ := Option.isSome_iff_exists.mp hthere
  have hnew : NewRoom (exec step .start [createsChess 0 4]) (createsChess 1 8) "chess" "r0" room :=
    ⟨.inl (Option.isNone_iff_eq_none.mp hfree), hroom⟩
  obtain ⟨settings, hfirst, hsettings⟩ :=
    (first_read_decides [createsChess 0 4] (createsChess 1 8)).2 _ _ _ hnew
  have hlimit : (firstRead [createsChess 0 4, createsChess 1 8] "chess").map
      (fun settings => settings.1.maxPlayers) = some 4 := by
    decide +kernel
  change firstRead [createsChess 0 4, createsChess 1 8] "chess" = some settings at hfirst
  rw [hfirst] at hlimit
  exact ⟨room, hnew, hsettings ▸ Option.some.inj hlimit⟩

end Roomie.FirstReads
