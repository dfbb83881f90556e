import Roomie.FilePaths
import Roomie.ServerRuns

/-!
# App keys and the app directory

`schema::load` makes a path of the app key it is given: `{app_dir}/{app_key}.json`. A key without a
slash names a file of the app directory. Any other key leads wherever its path leads, and one file
has many paths. Whatever key leads to a configuration is registered, cached and given a pool.
-/

namespace Roomie
open FilePaths HashTables GuardedRuns

/-! ## The configuration of an app -/

/-- Where `app_dir` looks: `ROOMIE_APP_DIR`, the current directory and the directory of the
executable. -/
structure Places where
  appDirVar : Option String
  currentDir : Option String
  exeDir : Option String

def Places.candidates (places : Places) : List String :=
  places.appDirVar.toList ++ (places.currentDir.map fun cwd => join cwd "apps").toList ++
    (places.exeDir.toList.flatMap fun parent =>
      ["apps", "../apps", "../../apps"].map fun rel => join parent rel)

section
variable {Node : Type} (fs : FileSystem Node) (places : Places)
  (parse : String → Option AppRoomDefaults)

/-- `app_dir`: the first candidate that is a directory. -/
def appDir : Option String := places.candidates.find? fs.isDirectory

/-- What `load_settings_from_disk` finds under a key. -/
def configs : Disk := fun appKey =>
  (appDir fs places).bind fun dir =>
    (fs.readToString (join dir (appKey ++ ".json"))).bind parse

/-- The app directory itself holds a file with the name of the app. -/
def IsDirect (appKey : String) : Prop :=
  ∃ d, (appDir fs places).bind fs.resolve = some d ∧ fs.holds d (appKey ++ ".json") = true

/-- The JSON files of the app directory. -/
def jsonFiles : List String :=
  ((appDir fs places).bind fs.resolve).elim [] fun d =>
    (fs.files d).filter fun name => ".json".toList <:+ name.toList

/-- A key with a slash leads to no configuration. -/
def Plain (appKey : String) : Prop :=
  '/' ∈ appKey.toList → configs fs places parse appKey = none

variable {fs places parse} {appKey : String}

theorem json_toList (appKey : String) :
    (appKey ++ ".json").toList = appKey.toList ++ ['.', 'j', 's', 'o', 'n'] :=
  String.toList_append

theorem slash_mem_json : '/' ∈ (appKey ++ ".json").toList ↔ '/' ∈ appKey.toList := by
  rw [json_toList, List.mem_append, or_iff_left_iff_imp]
  exact fun h => absurd h (by decide)

/-- A key without a slash leads to a file of the app directory, if it leads anywhere. -/
theorem direct_of_config {config : AppRoomDefaults} (hslash : '/' ∉ appKey.toList)
    (h : configs fs places parse appKey = some config) : IsDirect fs places appKey := by
  obtain ⟨dir, hdir, hread⟩ := Option.bind_eq_some_iff.mp h
  obtain ⟨text, htext, -⟩ := Option.bind_eq_some_iff.mp hread
  obtain ⟨n, hn, hcontents⟩ := Option.bind_eq_some_iff.mp htext
  have hisdir : fs.isDirectory dir = true := List.find?_some hdir
  obtain ⟨d, hd, -⟩ := (Option.any_eq_true _ _).mp hisdir
  have hname : '/' ∉ (appKey ++ ".json").toList := fun h => hslash (slash_mem_json.mp h)
  have hlong : ∀ short : String, short.toList.length < 5 → appKey ++ ".json" ≠ short := by
    intro short hshort heq
    rw [← heq, json_toList, List.length_append] at hshort
    exact absurd hshort (Nat.not_lt.mpr (Nat.le_add_left 5 _))
  rw [fs.resolve_join hd (isAbsolute_of_no_slash hname), components_of_no_slash hname,
    FileSystem.walk_one, FileSystem.follow_name (hlong "" (by decide)) (hlong "." (by decide))
      (hlong ".." (by decide))] at hn
  refine ⟨d, by rw [hdir]; exact hd, ?_⟩
  rw [FileSystem.holds, hn]
  simp [fs.contents_file n text hcontents]

/-- No directory holds a name with a slash. -/
theorem not_direct (h : '/' ∈ appKey.toList) : ¬ IsDirect fs places appKey := by
  rintro ⟨d, -, hholds⟩
  exact (fs.entry_name d _ (FileSystem.entry_of_holds hholds)).noSlash (slash_mem_json.mpr h)

/-- As many keys can be direct as there are JSON files. -/
theorem card_direct_le {keys : Finset String} (h : ∀ key ∈ keys, IsDirect fs places key) :
    keys.card ≤ (jsonFiles fs places).length := by
  have hinj : Function.Injective fun key : String => key ++ ".json" := by
    intro key key' heq
    have hlist := congrArg String.toList heq
    simp only [json_toList] at hlist
    exact String.toList_inj.mp (List.append_cancel_right hlist)
  have hmem : keys.image (· ++ ".json") ⊆ (jsonFiles fs places).toFinset := by
    intro name hname
    obtain ⟨key, hkey, rfl⟩ := Finset.mem_image.mp hname
    obtain ⟨d, hd, hholds⟩ := h key hkey
    rw [List.mem_toFinset, jsonFiles, hd]
    refine List.mem_filter.mpr ⟨FileSystem.mem_files.mpr hholds, ?_⟩
    rw [decide_eq_true_iff, json_toList]
    exact List.suffix_append _ _
  calc keys.card = (keys.image (· ++ ".json")).card := (Finset.card_image_of_injective _ hinj).symm
    _ ≤ (jsonFiles fs places).toFinset.card := Finset.card_le_card hmem
    _ ≤ (jsonFiles fs places).length := List.toFinset_card_le _

end

/-! ## What a lookup registers -/

/-- The key is built in, or there is a configuration for it. -/
def Registrable (disk : Disk) (appKey : String) : Prop :=
  isBuiltinApp appKey = true ∨ disk appKey ≠ none

theorem isRegisteredApp_iff {disk : Disk} {cache : SettingsCache} {appKey : String} :
    (isRegisteredApp disk cache appKey).1 = true ↔
      appKey ∈ cache ∨ Registrable disk appKey := by
  unfold isRegisteredApp Registrable loadSettingsFromDisk
  split_ifs with hcache hbuiltin
  · exact iff_of_true rfl (.inl hcache)
  · exact iff_of_true rfl (.inr (.inl hbuiltin))
  · cases hdisk : disk appKey <;> simp [hcache, hbuiltin]

theorem mem_isRegisteredApp {disk : Disk} {cache : SettingsCache} {appKey key : String}
    (h : key ∈ (isRegisteredApp disk cache appKey).2) :
    key ∈ cache ∨ (key = appKey ∧ Registrable disk appKey) := by
  unfold isRegisteredApp loadSettingsFromDisk at h
  split_ifs at h with hcache hbuiltin
  · exact .inl h
  · obtain rfl | h := (AList.mem_insert _).mp h
    · exact .inr ⟨rfl, .inl hbuiltin⟩
    · exact .inl h
  · cases hdisk : disk appKey with
    | none => exact .inl (by simpa [hdisk] using h)
    | some config =>
      simp only [hdisk, Option.map_some] at h
      obtain rfl | h := (AList.mem_insert _).mp h
      · exact .inr ⟨rfl, .inr (by simp [hdisk])⟩
      · exact .inl h

theorem mem_defaultRoomSettings {disk : Disk} {cache : SettingsCache} {appKey key : String}
    (h : key ∈ (defaultRoomSettingsForApp disk cache appKey).2) :
    key ∈ cache ∨ (key = appKey ∧ Registrable disk appKey) := by
  rw [defaultRoomSettings_cache] at h
  exact mem_isRegisteredApp h

namespace Server

/-- The key is cached, or has a pool. -/
def Knows (server : Server) (key : String) : Prop := key ∈ server.cache ∨ key ∈ server.registry

/-- Whatever key is known afterwards was known before, or is one of those. -/
def Learns (P : String → Prop) (s s' : Server) : Prop := ∀ key, s'.Knows key → s.Knows key ∨ P key

variable {P Q : String → Prop} {s s' s'' : Server}

theorem Learns.refl (s : Server) : Learns P s s := fun _ h => .inl h

theorem Learns.trans (h : Learns P s s') (h' : Learns P s' s'') : Learns P s s'' := by
  intro key hkey
  obtain hkey | hkey := h' key hkey
  · exact h key hkey
  · exact .inr hkey

theorem Learns.mono (hPQ : ∀ key, P key → Q key) (h : Learns P s s') : Learns Q s s' :=
  fun key hkey => (h key hkey).imp_right (hPQ key)

/-- The pool of a known app is exchanged. -/
theorem learns_insert {appKey : String} {pool pool' : RoomPool}
    (h : s.registry.lookup appKey = some pool) :
    Learns P s { s with registry := s.registry.insert appKey pool' } := by
  rintro key (hkey | hkey)
  · exact .inl (.inl hkey)
  · obtain rfl | hkey := (AList.mem_insert _).mp hkey
    · exact .inl (.inr (AList.mem_of_lookup h))
    · exact .inl (.inr hkey)

theorem learns_setRoom (s : Server) (appKey : String) (code : RoomCode) (room : Room) :
    Learns P s (s.setRoom appKey code room) := by
  unfold setRoom
  cases h : s.registry.lookup appKey with
  | none => exact .refl s
  | some pool => exact learns_insert h

theorem learns_removeIfEmpty (s : Server) (appKey : String) (code : RoomCode) (locked : Bool) :
    Learns P s (s.removeIfEmpty appKey code locked) := by
  unfold removeIfEmpty
  cases h : s.registry.lookup appKey with
  | none => exact .refl s
  | some pool => exact learns_insert h

theorem learns_leaveRoom (env : Env) (s : Server) (appKey : String) (code : RoomCode)
    (pid : PeerId) (net : Net) : Learns P s (leaveRoom env s appKey code pid net).1 := by
  unfold leaveRoom
  cases s.lookupRoom appKey code with
  | none => exact .refl s
  | some room =>
    dsimp only
    split_ifs
    · exact (learns_setRoom s _ _ _).trans (learns_removeIfEmpty _ _ _ _)
    · exact learns_setRoom s _ _ _

theorem learns_leaveSession (env : Env) (s : Server) (session : Option Session) (net : Net) :
    Learns P s (leaveSession env s session net).1 := by
  cases session with
  | none => exact .refl s
  | some old => exact learns_leaveRoom env s _ _ _ _

theorem learns_inRoom (s : Server) (session : Session)
    (f : Room → Net → Room × Net × List ServerMessage) :
    Learns P s (inRoom s session f).server := by
  unfold inRoom
  cases s.lookupRoom session.appKey session.roomCode with
  | none => exact .refl s
  | some room => exact learns_setRoom s _ _ _

theorem learns_lookup (s : Server) (disk : Disk) (appKey : String) :
    Learns (fun key => key = appKey ∧ Registrable disk appKey) s
      { s with cache := (isRegisteredApp disk s.cache appKey).2 } := by
  rintro key (hkey | hkey)
  · obtain hkey | hnew := mem_isRegisteredApp hkey
    · exact .inl (.inl hkey)
    · exact .inr hnew
  · exact .inl (.inr hkey)

end Server

/-! ## What a message registers -/

/-- The checks that come before the lookup of the app. -/
def Hello.Passes (h : Hello) (env : Env) : Prop :=
  h.validate = .ok () ∧
    env.secret.any (fun secret => !secret.isEmpty && h.authToken.getD "" != secret) = false

/-- The message makes the server look the key up. -/
def Action.Asks (a : Action) (appKey : String) : Prop :=
  (∃ h, a.event = .message (.hello h) ∧ h.Passes a.env ∧ h.appKey = appKey) ∨
    a.event = .message (.listRooms appKey)

section
variable {env : Env} {s s' : Server} {h : Hello} {appKey : String}

theorem learns_ensurePool : Server.Learns (· = appKey) s (s.ensurePool appKey) := by
  unfold Server.ensurePool
  split_ifs
  · exact .refl s
  · rintro key (hkey | hkey)
    · exact .inl (.inl hkey)
    · obtain hkey | hkey := (AList.mem_insert _).mp hkey
      · exact .inr hkey
      · exact .inl (.inr hkey)

theorem learns_helloGate (hg : helloGate env s h = .ok s') : h.Passes env ∧
    Server.Learns (fun key => key = h.appKey ∧ Registrable env.disk h.appKey) s s' := by
  unfold helloGate at hg
  cases hv : h.validate with
  | error message => simp [hv] at hg
  | ok u =>
    simp only [hv] at hg
    split_ifs at hg with hauth hreg
    obtain rfl := Except.ok.inj hg
    refine ⟨⟨hv, by simpa using hauth⟩, fun key hkey => ?_⟩
    obtain hkey | rfl := learns_ensurePool key hkey
    · exact Server.learns_lookup s env.disk h.appKey key hkey
    · obtain hcached | hdisk := isRegisteredApp_iff.mp hreg
      · exact .inl (.inl hcached)
      · exact .inr ⟨rfl, hdisk⟩

theorem learns_openRoom :
    Server.Learns (fun key => key = h.appKey ∧ Registrable env.disk h.appKey)
      s (openRoom env s h).1 := by
  unfold openRoom
  cases hp : s.registry.lookup h.appKey with
  | none => exact .refl s
  | some pool =>
    dsimp only
    split_ifs
    · have hcache : Server.Learns (fun key => key = h.appKey ∧ Registrable env.disk h.appKey) s
          { s with cache := (defaultRoomSettingsForApp env.disk s.cache h.appKey).2 } := by
        rintro key (hkey | hkey)
        · exact (mem_defaultRoomSettings hkey).imp_left .inl
        · exact .inl (.inr hkey)
      split
      · exact hcache.trans (Server.learns_insert (s := { s with cache := _ }) hp)
      · exact hcache
    · cases pool.getRoom h.roomCode <;> exact .refl s

theorem learns_dispatchHello (session : Option Session) (me : ConnId) :
    Server.Learns (fun key => h.Passes env ∧ key = h.appKey ∧ Registrable env.disk h.appKey)
      s (dispatchHello env s session me h).server := by
  refine (Server.learns_leaveSession env s session []).trans ?_
  unfold dispatchHello
  dsimp only
  cases hg : helloGate env (leaveSession env s session []).1 h with
  | error message => exact .refl _
  | ok s₁ =>
    obtain ⟨hpasses, hgate⟩ := learns_helloGate hg
    have hopen : Server.Learns (fun key => key = h.appKey ∧ Registrable env.disk h.appKey)
        (leaveSession env s session []).1 (openRoom env s₁ h).1 := hgate.trans learns_openRoom
    refine Server.Learns.mono (fun key hkey => ⟨hpasses, hkey⟩) ?_
    cases ho : openRoom env s₁ h with
    | mk s₂ opened =>
      rw [ho] at hopen
      cases opened with
      | error message => simpa only [ho] using hopen
      | ok room =>
        simp only [ho]
        cases (room.2.admitPeer env me room.1 h (leaveSession env s session []).2).2.2 with
        | error message => exact hopen.trans (Server.learns_setRoom s₂ _ _ _)
        | ok joined => exact hopen.trans (Server.learns_setRoom s₂ _ _ _)

theorem learns_dispatchListRooms (session : Option Session) :
    Server.Learns (fun key => key = appKey ∧ Registrable env.disk appKey)
      s (dispatchListRooms env s session appKey).server := by
  have hlookup := Server.learns_lookup s env.disk appKey
  unfold dispatchListRooms
  dsimp only
  split_ifs
  · cases s.registry.lookup appKey <;> exact hlookup
  · exact hlookup

end

theorem learns_dispatchRoomControl {P : String → Prop} (env : Env) (s : Server) (session : Session)
    (rc : RoomControl) : Server.Learns P s (dispatchRoomControl env s session rc).server := by
  cases rc with
  | leave => exact Server.learns_leaveRoom env s _ _ _ _
  | createRoom settings => exact .refl s
  | _ => exact Server.learns_inRoom s session _

/-- Only a key that is looked up and can be registered is cached or given a pool. -/
theorem step_learns (sys : Sys) (a : Action) :
    Server.Learns (fun key => a.Asks key ∧ Registrable a.env.disk key) sys.server
      (step sys a).server := by
  change Server.Learns _ _ (a.outcome sys).server
  cases hevent : a.event with
  | disconnect =>
    simp only [Action.outcome, hevent]
    exact Server.learns_leaveSession _ _ _ _
  | message msg =>
    simp only [Action.outcome, hevent]
    cases msg with
    | hello h =>
      refine (learns_dispatchHello _ _).mono ?_
      rintro _ ⟨hpasses, rfl, hreg⟩
      exact ⟨.inl ⟨h, hevent, hpasses, rfl⟩, hreg⟩
    | listRooms appKey =>
      refine (learns_dispatchListRooms _).mono ?_
      rintro _ ⟨rfl, hreg⟩
      exact ⟨.inr hevent, hreg⟩
    | ping => exact .refl _
    | roomControl rc =>
      cases sys.session a.conn with
      | none => exact .refl _
      | some session => exact learns_dispatchRoomControl _ _ _ _
    | _ =>
      cases sys.session a.conn with
      | none => exact .refl _
      | some session => exact Server.learns_inRoom _ _ _

/-! ## Runs on one file system -/

/-- The key was cached or given a pool at some time. -/
def EverKnown (as : List Action) (appKey : String) : Prop :=
  ∃ pre, pre <+: as ∧ (exec step .start pre).server.Knows appKey

/-- A known key was looked up, and can be registered. -/
theorem known_asked {disk : Disk} {as : List Action} (hdisk : ∀ a ∈ as, a.env.disk = disk)
    {appKey : String} (h : (exec step .start as).server.Knows appKey) :
    (∃ a ∈ as, a.Asks appKey) ∧ Registrable disk appKey := by
  induction as using List.reverseRecOn with
  | nil => exact (h.elim (AList.notMem_empty _) (AList.notMem_empty _)).elim
  | append_singleton as a ih =>
    have hlast : exec step .start (as ++ [a]) = step (exec step .start as) a := List.foldl_concat ..
    rw [hlast] at h
    obtain hbefore | ⟨hasks, hreg⟩ := step_learns _ a appKey h
    · obtain ⟨⟨b, hb, hasks⟩, hreg⟩ := ih (fun b hb => hdisk b (List.mem_append_left _ hb)) hbefore
      exact ⟨⟨b, List.mem_append_left _ hb, hasks⟩, hreg⟩
    · have ha : a ∈ as ++ [a] := List.mem_append_right _ (List.mem_singleton.mpr rfl)
      exact ⟨⟨a, ha, hasks⟩, hdisk a ha ▸ hreg⟩

section
variable {Node : Type} {fs : FileSystem Node} {places : Places}
  {parse : String → Option AppRoomDefaults} {as : List Action} {appKey : String}

/-- A key whose path does not leave the app directory is built in or names one of its files. -/
theorem confined_of_plain (hplain : Plain fs places parse appKey)
    (h : Registrable (configs fs places parse) appKey) :
    isBuiltinApp appKey = true ∨ IsDirect fs places appKey := by
  obtain hbuiltin | hconfig := h
  · exact .inl hbuiltin
  · by_cases hslash : '/' ∈ appKey.toList
    · exact absurd (hplain hslash) hconfig
    · obtain ⟨config, hconfig⟩ := Option.ne_none_iff_exists'.mp hconfig
      exact .inr (direct_of_config hslash hconfig)

theorem not_builtin (h : '/' ∈ appKey.toList) : isBuiltinApp appKey ≠ true := by
  intro hbuiltin
  rw [beq_iff_eq.mp hbuiltin] at h
  exact absurd h (by decide)

/-- However the server got there, exactly the keys with a slash whose path leads to a configuration
are registered without being built in or having a file of their own. While none of them is looked
up, there are no more keys than JSON files, and one. -/
theorem keys_confined (hdisk : ∀ a ∈ as, a.env.disk = configs fs places parse) :
    (∀ appKey, ((isRegisteredApp (configs fs places parse)
        (exec step .start as).server.cache appKey).1 = true →
          isBuiltinApp appKey = true ∨ IsDirect fs places appKey) ↔ Plain fs places parse appKey) ∧
      ((∀ a ∈ as, ∀ appKey, a.Asks appKey → Plain fs places parse appKey) →
        ∀ keys : Finset String, (∀ key ∈ keys, EverKnown as key) →
          keys.card ≤ (jsonFiles fs places).length + 1) := by
  constructor
  · intro appKey
    rw [isRegisteredApp_iff]
    constructor
    · intro hconfined hslash
      by_contra hconfig
      obtain hbuiltin | hdirect := hconfined (.inr (.inr hconfig))
      · exact not_builtin hslash hbuiltin
      · exact not_direct hslash hdirect
    · rintro hplain (hcached | hreg)
      · exact confined_of_plain hplain (known_asked hdisk (.inl hcached)).2
      · exact confined_of_plain hplain hreg
  · intro hplain keys hkeys
    have hdirect : ∀ key ∈ keys.erase "pong", IsDirect fs places key := by
      intro key hkey
      obtain ⟨hne, hmem⟩ := Finset.mem_erase.mp hkey
      obtain ⟨pre, hpre, hknown⟩ := hkeys key hmem
      obtain ⟨⟨a, ha, hasks⟩, hreg⟩ :=
        known_asked (fun a ha => hdisk a (hpre.subset ha)) hknown
      obtain hbuiltin | hdirect := confined_of_plain (hplain a (hpre.subset ha) key hasks) hreg
      · exact absurd (beq_iff_eq.mp hbuiltin) hne
      · exact hdirect
    calc keys.card ≤ (keys.erase "pong").card + 1 :=
          Nat.sub_le_iff_le_add.mp Finset.pred_card_le_card_erase
      _ ≤ (jsonFiles fs places).length + 1 := Nat.add_le_add_right (card_direct_le hdirect) 1

end

/-! ## One file with many names -/

namespace OneApp

/-- The root, the app directory and the one file in it. -/
inductive Node where
  | root | apps | chess
  deriving DecidableEq

def entries : Node → Table String Node
  | .root => .singleton "apps" .apps
  | .apps => .singleton "chess.json" .chess
  | .chess => ∅

theorem mem_entries {d : Node} {name : String} (h : name ∈ entries d) :
    d ≠ .chess ∧ (name = "apps" ∨ name = "chess.json") := by
  cases d with
  | root => exact ⟨nofun, .inl (List.mem_singleton.mp h)⟩
  | apps => exact ⟨nofun, .inr (List.mem_singleton.mp h)⟩
  | chess => exact absurd h (AList.notMem_empty _)

def fs : FileSystem Node where
  root := .root
  cwd := .root
  isDir n := n != .chess
  entries := entries
  parent _ := .root
  contents n := if n = .chess then some "\x7b\x7d" else none
  root_dir := rfl
  entry_name d name h := by
    obtain ⟨-, rfl | rfl⟩ := mem_entries h
    all_goals exact ⟨by decide, by decide, by decide, by decide, by decide⟩
  entry_dir d name h := bne_iff_ne.mpr (mem_entries h).1
  contents_file n text h := by
    split_ifs at h with hn
    rw [hn]
    rfl

def places : Places := ⟨some "/apps", none, none⟩

/-- An object without fields has the default limits. -/
def parse (text : String) : Option AppRoomDefaults :=
  if text = "\x7b\x7d" then some ⟨0, 0⟩ else none

def disk : Disk := configs fs places parse

/-- Somebody asks for the rooms of an app. -/
def asks (appKey : String) : Action :=
  ⟨{ Env.quiet with disk := disk }, 1, .message (.listRooms appKey)⟩

example : disk "chess" = some ⟨0, 0⟩ := by decide
example : disk "./chess" = some ⟨0, 0⟩ := by decide
example : disk "../apps//chess" = some ⟨0, 0⟩ := by decide
example : disk "go" = none := by decide

theorem disk_asks {keys : List String} :
    ∀ a ∈ keys.map asks, a.env.disk = configs fs places parse := by
  intro a ha
  obtain ⟨appKey, -, rfl⟩ := List.mem_map.mp ha
  rfl

/-- The app that has a file in the app directory is registered by its own name. -/
theorem chess_confined : Plain fs places parse "chess" ∧
    ((isRegisteredApp disk (exec step .start (["./chess", "chess"].map asks)).server.cache
      "chess").1 = true → isBuiltinApp "chess" = true ∨ IsDirect fs places "chess") := by
  have hplain : Plain fs places parse "chess" := fun h => absurd h (by decide)
  exact ⟨hplain, ((keys_confined disk_asks).1 "chess").mpr hplain⟩

/-- The names under which the file is asked for. -/
def names : List String := ["chess", "./chess", "../apps/chess"]

/-- They all are registered and cached, where one of them is the name of a file. -/
theorem aliases_cached : (isRegisteredApp disk ∅ "./chess").1 = true ∧
    ¬ (isBuiltinApp "./chess" = true ∨ IsDirect fs places "./chess") ∧
    (∀ key ∈ names.toFinset, EverKnown (names.map asks) key) ∧
    ¬ names.toFinset.card ≤ (jsonFiles fs places).length + 1 := by
  refine ⟨by decide, ?_, ?_, by decide⟩
  · have hslash : '/' ∈ "./chess".toList := by decide
    exact not_or.mpr ⟨not_builtin hslash, not_direct hslash⟩
  · intro key hkey
    refine ⟨names.map asks, List.prefix_refl _, .inl ?_⟩
    have hall : ∀ key ∈ names, key ∈ (exec step .start (names.map asks)).server.cache := by decide
    exact hall key (List.mem_toFinset.mp hkey)

end OneApp
end Roomie
