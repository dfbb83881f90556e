import Roomie.ProtocolMessages

/-!
# Registered apps and their default room settings

`schema::load`: an app is registered when it is built in or when the app directory holds
a readable configuration for it. Answers are kept in a process-wide cache.
-/

namespace Roomie
open HashTables

/-- The part of an app configuration that is read. -/
structure AppRoomDefaults where
  minPlayers : UInt32
  maxPlayers : UInt32
  deriving DecidableEq, Repr

/-- What reading and parsing `{app_dir}/{app_key}.json` gives. -/
abbrev Disk := String → Option AppRoomDefaults

/-- Everything but the player limits is left at its default. -/
structure RoomSettings.IsDefault (s : RoomSettings) : Prop where
  isPublic : s.isPublic = false
  password : s.password = none
  acceptRequired : s.acceptRequired = false
  custom : s.custom = none

abbrev DefaultSettings := {s : RoomSettings // s.IsDefault}

/-- `..RoomSettings::default()` with the two player limits filled in. -/
def DefaultSettings.ofLimits (minPlayers maxPlayers : UInt32) : DefaultSettings :=
  ⟨{ RoomSettings.default with minPlayers := minPlayers, maxPlayers := maxPlayers },
    rfl, rfl, rfl, rfl⟩

abbrev SettingsCache := Table String DefaultSettings

def isBuiltinApp (appKey : String) : Bool := appKey == "pong"

/-- Settings of an app without a readable configuration file. -/
def appFallback (appKey : String) : DefaultSettings :=
  let (minPlayers, maxPlayers) : UInt32 × UInt32 := if isBuiltinApp appKey then (2, 2) else (0, 0)
  .ofLimits minPlayers (if maxPlayers > 0 then maxPlayers else 0)

def loadSettingsFromDisk (disk : Disk) (appKey : String) : Option DefaultSettings :=
  (disk appKey).map fun d =>
    .ofLimits d.minPlayers
      (if d.maxPlayers > 0 then d.maxPlayers else RoomSettings.default.maxPlayers)

/-- `is_registered_app`; a positive answer is cached. -/
def isRegisteredApp (disk : Disk) (cache : SettingsCache) (appKey : String) :
    Bool × SettingsCache :=
  if appKey ∈ cache then (true, cache)
  else if isBuiltinApp appKey then (true, cache.insert appKey (appFallback appKey))
  else match loadSettingsFromDisk disk appKey with
    | some settings => (true, cache.insert appKey settings)
    | none => (false, cache)

/-- `default_room_settings_for_app`; an unregistered app gets the fallback uncached. -/
def defaultRoomSettingsForApp (disk : Disk) (cache : SettingsCache) (appKey : String) :
    DefaultSettings × SettingsCache :=
  match cache.lookup appKey with
  | some settings => (settings, cache)
  | none =>
    if isBuiltinApp appKey then (appFallback appKey, cache.insert appKey (appFallback appKey))
    else match loadSettingsFromDisk disk appKey with
      | some settings => (settings, cache.insert appKey settings)
      | none => (appFallback appKey, cache)

/-- Both leave the same in the cache. -/
theorem defaultRoomSettings_cache (disk : Disk) (cache : SettingsCache) (appKey : String) :
    (defaultRoomSettingsForApp disk cache appKey).2 = (isRegisteredApp disk cache appKey).2 := by
  unfold defaultRoomSettingsForApp isRegisteredApp
  cases hcached : cache.lookup appKey with
  | some settings => rw [if_pos (AList.mem_of_lookup hcached)]
  | none =>
    rw [if_neg (AList.lookup_eq_none.mp hcached)]
    dsimp only
    split_ifs
    · rfl
    · cases loadSettingsFromDisk disk appKey <;> rfl

/-- Once an app counts as registered its settings come from the cache. -/
theorem isRegisteredApp_cached {disk : Disk} {cache : SettingsCache} {appKey : String}
    (h : (isRegisteredApp disk cache appKey).1 = true) :
    appKey ∈ (isRegisteredApp disk cache appKey).2 := by
  unfold isRegisteredApp at h ⊢
  split_ifs at h ⊢ with hc hb
  · exact hc
  · exact (AList.mem_insert _).mpr (.inl rfl)
  · cases hd : loadSettingsFromDisk disk appKey with
    | none => simp [hd] at h
    | some settings => exact (AList.mem_insert _).mpr (.inl rfl)

theorem defaultRoomSettings_registered {disk disk' : Disk} {cache : SettingsCache}
    {appKey : String} (h : (isRegisteredApp disk cache appKey).1 = true) :
    (defaultRoomSettingsForApp disk' (isRegisteredApp disk cache appKey).2 appKey).2 =
      (isRegisteredApp disk cache appKey).2 := by
  obtain ⟨settings, hs⟩ := AList.mem_iff_lookup.mp (isRegisteredApp_cached h)
  simp [defaultRoomSettingsForApp, hs]

example : (isRegisteredApp (fun _ => none) ∅ "pong").1 = true := by decide
example : (isRegisteredApp (fun _ => none) ∅ "chess").1 = false := by decide

end Roomie
