import Roomie.Dispatch
import Roomie.RoomOperations

/-!
# What a dispatch does to the rooms of the registry

The registry is seen through `roomAt`. Leaving touches one room and may remove it; a
`Hello` that is let in touches the room it names or the one it creates; every other
message runs one section on the room of the session.
-/

namespace Roomie
open HashTables

/-- The registries hold the same rooms. -/
def SameRooms (s s' : Server) : Prop := ∀ appKey key, s'.roomAt appKey key = s.roomAt appKey key

/-- `s'` has `room` under `appKey` and `key` and the rooms of `s` elsewhere. -/
def RoomPut (s : Server) (appKey key : String) (room : Option Room) (s' : Server) : Prop :=
  ∀ appKey' key', s'.roomAt appKey' key' =
    if appKey' = appKey ∧ key' = key then room else s.roomAt appKey' key'

theorem RoomPut.here {s s' : Server} {appKey key : String} {room : Option Room}
    (h : RoomPut s appKey key room s') : s'.roomAt appKey key = room := by
  rw [h, if_pos ⟨rfl, rfl⟩]

theorem RoomPut.elsewhere {s s' : Server} {appKey key appKey' key' : String} {room : Option Room}
    (h : RoomPut s appKey key room s') (hne : ¬ (appKey' = appKey ∧ key' = key)) :
    s'.roomAt appKey' key' = s.roomAt appKey' key' := by
  rw [h, if_neg hne]

theorem RoomPut.trans {s s' s'' : Server} {appKey key : String} {r r' : Option Room}
    (h : RoomPut s appKey key r s') (h' : RoomPut s' appKey key r' s'') :
    RoomPut s appKey key r' s'' := by
  intro appKey' key'
  by_cases hk : appKey' = appKey ∧ key' = key
  · rw [h', if_pos hk, if_pos hk]
  · rw [h', if_neg hk, h, if_neg hk, if_neg hk]

namespace Server

variable {s : Server} {appKey : String} {code : RoomCode} {room : Room}

theorem lookupRoom_eq (s : Server) (appKey : String) (code : RoomCode) :
    s.lookupRoom appKey code = s.roomAt appKey code.key := rfl

theorem roomAt_eq_some {key : String} : s.roomAt appKey key = some room ↔
    ∃ pool, s.registry.lookup appKey = some pool ∧ pool.rooms.lookup key = some room :=
  Option.bind_eq_some_iff

theorem roomAt_insert (s : Server) (pool : RoomPool) (appKey appKey' key : String)
    (cache : SettingsCache) (counter : UInt64) :
    (Server.mk (s.registry.insert appKey pool) cache counter).roomAt appKey' key =
      if appKey' = appKey then pool.rooms.lookup key else s.roomAt appKey' key := by
  rw [roomAt, AList.lookup_insert_if]
  split_ifs <;> rfl

/-- Replacing a pool by one that differs under one key. -/
theorem roomPut_insert {pool pool' : RoomPool} {key : String} {room : Option Room}
    (hp : s.registry.lookup appKey = some pool)
    (hr : ∀ key', pool'.rooms.lookup key' = if key' = key then room else pool.rooms.lookup key')
    (cache : SettingsCache) (counter : UInt64) :
    RoomPut s appKey key room (.mk (s.registry.insert appKey pool') cache counter) := by
  intro appKey' key'
  rw [roomAt_insert]
  by_cases ha : appKey' = appKey
  · subst ha
    simp [hr, roomAt, hp]
  · simp [ha]

theorem roomPut_setRoom {old : Room} (h : s.roomAt appKey code.key = some old) (room : Room) :
    RoomPut s appKey code.key (some room) (s.setRoom appKey code room) := by
  obtain ⟨pool, hp, _⟩ := roomAt_eq_some.mp h
  simp only [setRoom, hp]
  exact roomPut_insert hp (fun key' => AList.lookup_insert_if _ _ _ _) _ _

/-- Writing a room touches neither the cache nor the counter. -/
theorem setRoom_rest (s : Server) (appKey : String) (code : RoomCode) (room : Room) :
    (s.setRoom appKey code room).cache = s.cache ∧
      (s.setRoom appKey code room).fallbackCounter = s.fallbackCounter := by
  unfold setRoom
  split <;> exact ⟨rfl, rfl⟩

theorem roomPut_removeIfEmpty (h : s.roomAt appKey code.key = some room)
    (hv : room.isVacant = true) :
    RoomPut s appKey code.key none (s.removeIfEmpty appKey code false) := by
  obtain ⟨pool, hp, hr⟩ := roomAt_eq_some.mp h
  simp only [removeIfEmpty, hp]
  refine roomPut_insert hp (fun key' => ?_) _ _
  simp [RoomPool.removeIfEmpty, hr, hv, AList.lookup_erase_if]

theorem sameRooms_ensurePool (s : Server) (appKey : String) : SameRooms s (s.ensurePool appKey) := by
  intro appKey' key
  unfold ensurePool
  split_ifs with hm
  · rfl
  · rw [roomAt_insert]
    split_ifs with ha
    · subst ha
      simp [roomAt, AList.lookup_eq_none.mpr hm, RoomPool.new]
    · rfl

end Server

/-- What is left of a room after `leave_room`: nothing, when it has become vacant. -/
def leftBehind (room : Room) : Option Room := if room.isVacant then none else some room

theorem leaveRoom_none {env : Env} {s : Server} {appKey : String} {code : RoomCode} {pid : PeerId}
    {net : Net} (h : s.roomAt appKey code.key = none) :
    leaveRoom env s appKey code pid net = (s, net) := by
  simp [leaveRoom, Server.lookupRoom_eq, h]

theorem leaveRoom_net {env : Env} {s : Server} {appKey : String} {code : RoomCode} {pid : PeerId}
    {net : Net} {room : Room} (h : s.roomAt appKey code.key = some room) :
    (leaveRoom env s appKey code pid net).2 = (room.removePeer env pid net).2 := by
  simp only [leaveRoom, Server.lookupRoom_eq, h]
  split_ifs <;> rfl

theorem leaveRoom_roomPut (env : Env) (pid : PeerId) (net : Net) {s : Server} {appKey : String}
    {code : RoomCode} {room : Room} (h : s.roomAt appKey code.key = some room) :
    RoomPut s appKey code.key (leftBehind (room.removePeer env pid net).1)
      (leaveRoom env s appKey code pid net).1 := by
  have hset := Server.roomPut_setRoom h (room.removePeer env pid net).1
  simp only [leaveRoom, Server.lookupRoom_eq, h, leftBehind]
  split_ifs with hv
  · exact hset.trans (Server.roomPut_removeIfEmpty hset.here hv)
  · exact hset

/-- A room that is there after the leave of a session is as it was, or the session's peer was
removed from it and it did not become vacant. -/
theorem leaveSession_roomAt {env : Env} {s : Server} {session : Option Session} {net : Net}
    {appKey key : String} {room' : Room}
    (h : (leaveSession env s session net).1.roomAt appKey key = some room') :
    ∃ room, s.roomAt appKey key = some room ∧
      (room' = room ∧ (∀ old, session = some old → ¬ (appKey = old.appKey ∧ key = old.roomCode.key)) ∨
        ∃ old, session = some old ∧ old.appKey = appKey ∧ old.roomCode.key = key ∧
          room' = (room.removePeer env old.peerId net).1 ∧ room'.isVacant = false) := by
  cases session with
  | none => exact ⟨room', h, .inl ⟨rfl, by simp⟩⟩
  | some old =>
    simp only [leaveSession] at h
    cases hold : s.roomAt old.appKey old.roomCode.key with
    | none =>
      rw [leaveRoom_none hold] at h
      refine ⟨room', h, .inl ⟨rfl, ?_⟩⟩
      rintro _ ⟨⟩ ⟨rfl, rfl⟩
      simp [hold] at h
    | some room =>
      have hput := leaveRoom_roomPut env old.peerId net hold
      by_cases hk : appKey = old.appKey ∧ key = old.roomCode.key
      · obtain ⟨rfl, rfl⟩ := hk
        rw [hput.here, leftBehind] at h
        split_ifs at h with hv
        obtain rfl := Option.some.inj h
        exact ⟨room, hold, .inr ⟨old, rfl, rfl, rfl, rfl, by simpa using hv⟩⟩
      · rw [hput.elsewhere hk] at h
        exact ⟨room', h, .inl ⟨rfl, by rintro _ ⟨⟩; exact hk⟩⟩

theorem leaveSession_elsewhere {env : Env} {s : Server} {session : Option Session} {net : Net}
    {appKey key : String}
    (h : ∀ old, session = some old → ¬ (appKey = old.appKey ∧ key = old.roomCode.key)) :
    (leaveSession env s session net).1.roomAt appKey key = s.roomAt appKey key := by
  cases session with
  | none => rfl
  | some old =>
    simp only [leaveSession]
    cases hold : s.roomAt old.appKey old.roomCode.key with
    | none => rw [leaveRoom_none hold]
    | some room => exact (leaveRoom_roomPut _ _ _ hold).elsewhere (h old rfl)

theorem leaveSession_cache (env : Env) (s : Server) (session : Option Session) (net : Net) :
    (leaveSession env s session net).1.cache = s.cache := by
  have hset : ∀ (s : Server) appKey code room, (s.setRoom appKey code room).cache = s.cache := by
    intro s appKey code room
    unfold Server.setRoom
    split <;> rfl
  have hremove : ∀ (s : Server) appKey code, (s.removeIfEmpty appKey code false).cache = s.cache := by
    intro s appKey code
    unfold Server.removeIfEmpty
    split <;> rfl
  cases session with
  | none => rfl
  | some old =>
    simp only [leaveSession, leaveRoom]
    cases s.lookupRoom old.appKey old.roomCode with
    | none => rfl
    | some room =>
      dsimp only
      split_ifs
      · rw [hremove, hset]
      · rw [hset]

/-- The room a `Hello` is about: the one its code names, or a new one. -/
structure Opened (s : Server) (h : Hello) (s' : Server) (code : RoomCode) (room : Room) :
    Prop where
  put : RoomPut s h.appKey code.key (some room) s'
  origin : (h.roomCode.str.isEmpty = false ∧ code = h.roomCode ∧
      s.roomAt h.appKey code.key = some room) ∨
    (h.roomCode.str.isEmpty = true ∧ s.roomAt h.appKey code.key = none ∧
      RoomPool.Generated code ∧ ∃ (appKey : String) (settings : DefaultSettings),
        room = Room.new appKey code settings)

theorem openRoom_ok {env : Env} {s s' : Server} {h : Hello} {code : RoomCode} {room : Room}
    (ho : openRoom env s h = (s', .ok (code, room))) : Opened s h s' code room := by
  unfold openRoom at ho
  cases hp : s.registry.lookup h.appKey with
  | none => simp [hp] at ho
  | some pool =>
    simp only [hp] at ho
    split_ifs at ho with he
    · split at ho
      · rename_i code' room' pool' hc
        obtain ⟨rfl, hr⟩ := Prod.mk.inj ho
        obtain ⟨rfl, rfl⟩ := Prod.mk.inj (Except.ok.inj hr)
        have hcr := RoomPool.createRoom_some hc
        refine ⟨Server.roomPut_insert hp (fun key' => ?_) _ _,
          .inr ⟨he, ?_, RoomPool.createRoom_generated hc, _, _, hcr.room_eq⟩⟩
        · rw [hcr.pool_eq]
          exact AList.lookup_insert_if _ _ _ _
        · simp [Server.roomAt, hp, hcr.free]
      · cases (Prod.mk.inj ho).2
    · cases hg : pool.getRoom h.roomCode with
      | none =>
        simp only [hg] at ho
        cases (Prod.mk.inj ho).2
      | some found =>
        simp only [hg] at ho
        obtain ⟨rfl, hr⟩ := Prod.mk.inj ho
        obtain ⟨rfl, rfl⟩ := Prod.mk.inj (Except.ok.inj hr)
        have hat : s.roomAt h.appKey h.roomCode.key = some found :=
          Server.roomAt_eq_some.mpr ⟨pool, hp, hg⟩
        refine ⟨?_, .inl ⟨by simpa using he, rfl, hat⟩⟩
        intro appKey' key'
        split_ifs with hk
        · rw [hk.1, hk.2, hat]
        · rfl

theorem openRoom_error {env : Env} {s s' : Server} {h : Hello} {message : String}
    (ho : openRoom env s h = (s', .error message)) : SameRooms s s' ∧ message ∈ errorTexts := by
  unfold openRoom at ho
  cases hp : s.registry.lookup h.appKey with
  | none =>
    simp only [hp] at ho
    obtain ⟨rfl, hm⟩ := Prod.mk.inj ho
    obtain rfl := Except.error.inj hm
    exact ⟨fun _ _ => rfl, by simp [errorTexts]⟩
  | some pool =>
    simp only [hp] at ho
    split_ifs at ho with he
    · split at ho
      · cases (Prod.mk.inj ho).2
      · obtain ⟨rfl, hm⟩ := Prod.mk.inj ho
        obtain rfl := Except.error.inj hm
        exact ⟨fun _ _ => rfl, by simp [errorTexts]⟩
    · cases hg : pool.getRoom h.roomCode with
      | none =>
        simp only [hg] at ho
        obtain ⟨rfl, hm⟩ := Prod.mk.inj ho
        obtain rfl := Except.error.inj hm
        exact ⟨fun _ _ => rfl, by simp [errorTexts]⟩
      | some found =>
        simp only [hg] at ho
        cases (Prod.mk.inj ho).2

theorem helloGate_ok {env : Env} {s s' : Server} {h : Hello} (hg : helloGate env s h = .ok s') :
    h.Valid ∧ SameRooms s s' := by
  unfold helloGate at hg
  cases hv : h.validate with
  | error message => simp [hv] at hg
  | ok u =>
    simp only [hv] at hg
    split_ifs at hg
    obtain rfl := Except.ok.inj hg
    exact ⟨Hello.validate_ok.mp hv, Server.sameRooms_ensurePool _ _⟩

/-- The checks before any room is touched: the token is the secret, if one is set, and the app is
registered. -/
theorem helloGate_checked {env : Env} {s s' : Server} {h : Hello}
    (hg : helloGate env s h = .ok s') :
    (∀ secret, env.secret = some secret → secret ≠ "" → h.authToken = some secret) ∧
      (isRegisteredApp env.disk s.cache h.appKey).1 = true := by
  unfold helloGate at hg
  cases hv : h.validate with
  | error message => simp [hv] at hg
  | ok u =>
    simp only [hv] at hg
    split_ifs at hg with hauth hreg
    refine ⟨fun secret hs hne => ?_, hreg⟩
    have htoken : h.authToken.getD "" = secret := by
      by_contra hd
      exact hauth (by simp [hs, hne, hd])
    cases ht : h.authToken with
    | none => exact absurd (by simpa [ht] using htoken) hne.symm
    | some token => simpa [ht] using htoken

theorem helloGate_error {env : Env} {s : Server} {h : Hello} {message : String}
    (hg : helloGate env s h = .error message) : message ∈ errorTexts := by
  unfold helloGate at hg
  cases hv : h.validate with
  | error text =>
    simp only [hv] at hg
    exact Except.error.inj hg ▸ Hello.validate_error hv
  | ok u =>
    simp only [hv] at hg
    split_ifs at hg <;> obtain rfl := Except.error.inj hg <;> simp [errorTexts]

/-- What a `Hello` comes to once the old session's room has been left. -/
inductive HelloResult (env : Env) (me : ConnId) (h : Hello) (s : Server) (net : Net) :
    Outcome → Prop
  | refused {s' : Server} {message : String} (same : SameRooms s s')
      (known : message ∈ errorTexts) :
      HelloResult env me h s net ⟨s', none, net, [.error message]⟩
  | rejected {s₁ s₂ s' : Server} {code : RoomCode} {room : Room} {n : PeerId} {message : String}
      (gate : helloGate env s h = .ok s₁) (opened : Opened s₁ h s₂ code room)
      (refuses : room.Refuses h) (known : message ∈ errorTexts)
      (put : RoomPut s₂ h.appKey code.key (some { room with peerCounter := n }) s') :
      HelloResult env me h s net ⟨s', none, net, [.error message]⟩
  | joined {s₁ s₂ s' : Server} {code : RoomCode} {room room' : Room} {net' : Net} {pid : PeerId}
      {joined : ServerMessage} (gate : helloGate env s h = .ok s₁)
      (opened : Opened s₁ h s₂ code room)
      (admitted : Room.Admitted env me code h room net room' net' pid joined)
      (put : RoomPut s₂ h.appKey code.key (some room') s') :
      HelloResult env me h s net ⟨s', some ⟨h.appKey, code, pid⟩, net', [joined]⟩

/-- A `Hello` was let into this room, or into one that it created. -/
structure LetIn (env : Env) (me : ConnId) (h : Hello) (s : Server) (net : Net) (appKey key : String)
    (room room' : Room) (pid : PeerId) (session : Option Session) : Prop where
  app : h.appKey = appKey
  gate : ∃ s', helloGate env s h = .ok s'
  origin : s.roomAt appKey key = some room ∨ s.roomAt appKey key = none ∧
    ∃ (app : String) (code : RoomCode) (settings : DefaultSettings), room = Room.new app code settings
  admitted : ∃ code net' joined, code.key = key ∧ session = some ⟨h.appKey, code, pid⟩ ∧
    Room.Admitted env me code h room net room' net' pid joined

/-- What a `Hello` can do to the room under a code: nothing but count, create it, or let in. -/
theorem HelloResult.roomAt {env : Env} {me : ConnId} {h : Hello} {s : Server} {net : Net}
    {o : Outcome} (hres : HelloResult env me h s net o) {appKey key : String} {room' : Room}
    (hr : o.server.roomAt appKey key = some room') :
    (∃ room n, s.roomAt appKey key = some room ∧ room' = { room with peerCounter := n }) ∨
      (s.roomAt appKey key = none ∧ ∃ (app : String) (code : RoomCode) (settings : DefaultSettings)
        (n : PeerId), room' = { Room.new app code settings with peerCounter := n }) ∨
      ∃ room pid, LetIn env me h s net appKey key room room' pid o.session := by
  have hcount : ∀ {room : Room}, s.roomAt appKey key = some room →
      ∃ room₀ n, s.roomAt appKey key = some room₀ ∧ room = { room₀ with peerCounter := n } :=
    fun {room} h => ⟨room, room.peerCounter, h, rfl⟩
  have horigin : ∀ {s₁ s₂ : Server} {code : RoomCode} {room : Room}, helloGate env s h = .ok s₁ →
      Opened s₁ h s₂ code room → s.roomAt h.appKey code.key = some room ∨
        s.roomAt h.appKey code.key = none ∧
          ∃ (app : String) (code : RoomCode) (settings : DefaultSettings),
            room = Room.new app code settings := by
    intro s₁ s₂ code room gate opened
    have hsame := (helloGate_ok gate).2 h.appKey code.key
    rcases opened.origin with ⟨_, _, hat⟩ | ⟨_, hat, _, app, settings, hnew⟩
    · exact .inl (hsame.symm.trans hat)
    · exact .inr ⟨hsame.symm.trans hat, app, code, settings, hnew⟩
  have helsewhere : ∀ {s₁ s₂ s' : Server} {code : RoomCode} {room : Room} {put : Option Room},
      helloGate env s h = .ok s₁ → Opened s₁ h s₂ code room →
      RoomPut s₂ h.appKey code.key put s' → ¬ (appKey = h.appKey ∧ key = code.key) →
      s'.roomAt appKey key = s.roomAt appKey key := by
    intro s₁ s₂ s' code room put gate opened hput hk
    rw [hput.elsewhere hk, opened.put.elsewhere hk, (helloGate_ok gate).2]
  cases hres with
  | refused same => exact .inl (hcount ((same appKey key).symm.trans hr))
  | @rejected s₁ s₂ s' code room n message gate opened _ _ put =>
    by_cases hk : appKey = h.appKey ∧ key = code.key
    · obtain ⟨rfl, rfl⟩ := hk
      obtain rfl := Option.some.inj (put.here.symm.trans hr)
      rcases horigin gate opened with hat | ⟨hat, app, code', settings, rfl⟩
      · exact .inl ⟨room, n, hat, rfl⟩
      · exact .inr (.inl ⟨hat, app, code', settings, n, rfl⟩)
    · exact .inl (hcount ((helsewhere gate opened put hk).symm.trans hr))
  | @joined s₁ s₂ s' code room roomJ net' pid joined gate opened admitted put =>
    by_cases hk : appKey = h.appKey ∧ key = code.key
    · obtain ⟨rfl, rfl⟩ := hk
      obtain rfl := Option.some.inj (put.here.symm.trans hr)
      exact .inr (.inr ⟨room, pid, rfl, ⟨s₁, gate⟩, horigin gate opened, code, net', joined, rfl,
        rfl, admitted⟩)
    · exact .inl (hcount ((helsewhere gate opened put hk).symm.trans hr))

theorem dispatchHello_result (env : Env) (s : Server) (session : Option Session) (me : ConnId)
    (h : Hello) :
    HelloResult env me h (leaveSession env s session []).1 (leaveSession env s session []).2
      (dispatchHello env s session me h) := by
  unfold dispatchHello
  generalize leaveSession env s session [] = left
  obtain ⟨s, net⟩ := left
  dsimp only
  cases hg : helloGate env s h with
  | error message => exact .refused (fun _ _ => rfl) (helloGate_error hg)
  | ok s₁ =>
    dsimp only
    have hsame := (helloGate_ok hg).2
    cases ho : openRoom env s₁ h with
    | mk s₂ answer =>
      cases answer with
      | error message =>
        obtain ⟨hopen, hknown⟩ := openRoom_error ho
        exact .refused (fun appKey key => (hopen appKey key).trans (hsame appKey key)) hknown
      | ok found =>
        obtain ⟨code, room⟩ := found
        have hopen := openRoom_ok ho
        dsimp only
        rcases room.admit_cases env me code h net with
          ⟨hr, n, message, hknown, ha⟩ | ⟨_, room', net', pid, joined, ha, hadm⟩
        · rw [ha]
          exact .rejected hg hopen hr hknown (Server.roomPut_setRoom hopen.put.here _)
        · rw [ha]
          exact .joined hg hopen hadm (Server.roomPut_setRoom hopen.put.here _)

end Roomie
