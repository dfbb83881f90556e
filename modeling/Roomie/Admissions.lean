import Roomie.Seats
import Mathlib.Data.Fintype.Card

/-!
# Who gets into a room

An entry appears in a room only through a `Hello` that passed every check, or moves from
`pending` to `clients` when the host accepts it. The checks are stated about the room as the
`Hello` finds it, once the connection has left its old room.
-/

namespace Roomie.Admissions
open HashTables GuardedRuns Seats

/-! ## Capacity -/

/-- The ids in use and one that is free are fewer than all ids. -/
theorem size_lt_of_fresh {room : Room} (hd : room.Disjoint) {pid : PeerId}
    (hf : pid ∉ room.clients ∧ pid ∉ room.pending) :
    room.clients.size + room.pending.size < 4294967296 := by
  have hdisj : List.Disjoint room.clients.keys room.pending.keys :=
    fun p hp hp' => hd p hp hp'
  have hnodup : (pid :: (room.clients.keys ++ room.pending.keys)).Nodup := by
    refine List.nodup_cons.mpr ⟨?_, room.clients.keys_nodup.append room.pending.keys_nodup hdisj⟩
    rw [List.mem_append]
    exact fun h => h.elim hf.1 hf.2
  have hcard := (hnodup.map fun _ _ h => UInt32.toFin_inj.mp h).length_le_card
  simp only [List.length_map, List.length_cons, List.length_append, Fintype.card_fin] at hcard
  change room.clients.keys.length + room.pending.keys.length < 4294967296
  simp only [UInt32.size] at hcard
  omega

theorem seat_size {room : Room} {pid : PeerId} {info : ClientInfo}
    (hf : pid ∉ room.clients ∧ pid ∉ room.pending) :
    (room.seat pid info).clients.size + (room.seat pid info).pending.size =
      room.clients.size + room.pending.size + 1 := by
  have hc := AList.size_insert_of_notMem (v := info) hf.1
  have hp := AList.size_insert_of_notMem (v := info) hf.2
  unfold Room.seat
  split_ifs <;> simp only [hc, hp] <;> omega

/-- Whoever is let in finds a place: the limit is kept afterwards. -/
theorem Admitted.within_limit {env : Env} {me : ConnId} {code : RoomCode} {h : Hello}
    {room room' : Room} {net net' : Net} {pid : PeerId} {joined : ServerMessage}
    (ha : Room.Admitted env me code h room net room' net' pid joined) (hd : room.Disjoint)
    (hmax : room'.settings.maxPlayers ≠ 0) :
    room'.clients.size + room'.pending.size ≤ room'.settings.maxPlayers.toNat := by
  have hsize := size_lt_of_fresh hd ha.fresh
  have hfull := ha.notFull
  rw [ha.data.2.1] at hmax ⊢
  simp only [Room.isFull, hmax, if_false, decide_eq_false_iff_not, UInt32.not_le,
    UInt32.lt_iff_toNat_lt, UInt32.toNat_ofNat'] at hfull
  obtain ⟨n, rfl⟩ := ha.seated
  have hseat := @seat_size { room with peerCounter := n } pid (room.newcomer me h) ha.fresh
  simp only at hseat
  omega

/-! ## A Hello that was let in -/

/-- The registry as the `Hello` finds it: the acting connection has left its old room. -/
def vacated (sys : Sys) (a : Action) : Server :=
  (leaveSession a.env sys.server (sys.session a.conn) []).1

/-- The room the `Hello` finds: one that was there before the step, with the settings and bans it
had then and vacant only when it was vacant then; or a new one. -/
inductive Finds (sys : Sys) (a : Action) (appKey key : String) (room : Room) : Prop
  | old {before : Room} (there : sys.roomAt appKey key = some before)
      (found : (vacated sys a).roomAt appKey key = some room) (data : SameData before room)
      (bare : room.isVacant = true → before.isVacant = true)
  | new {app : String} {code : RoomCode} {settings : DefaultSettings}
      (free : (vacated sys a).roomAt appKey key = none) (eq : room = Room.new app code settings)

/-- The step is a `Hello` that passed every check and was seated under `pid`. -/
structure Passed (sys : Sys) (a : Action) (appKey key : String) (pid : PeerId) (h : Hello)
    (found room' : Room) : Prop where
  event : a.event = .message (.hello h)
  app : h.appKey = appKey
  finds : Finds sys a appKey key found
  validated : h.validate = .ok ()
  registered : (isRegisteredApp a.env.disk sys.server.cache appKey).1 = true
  token : ∀ secret, a.env.secret = some secret → secret ≠ "" → h.authToken = some secret
  notBanned : ⟨h.clientHash⟩ ∉ found.banned
  password : ∀ required, found.settings.password = some required → h.password.getD "" = required
  fresh : pid ∉ found.clients ∧ pid ∉ found.pending
  kept : room'.settings = found.settings ∧ room'.banned = found.banned
  capacity : room'.settings.maxPlayers ≠ 0 →
    room'.clients.size + room'.pending.size ≤ room'.settings.maxPlayers.toNat

/-- The step is `AcceptPeer(pid)` by the host of the room, and `pid` is pending there. -/
structure Accepts (sys : Sys) (a : Action) (appKey key : String) (pid : PeerId) : Prop where
  event : a.event = .message (.roomControl (.acceptPeer pid))
  host : ∃ s room, sys.session a.conn = some s ∧ s.appKey = appKey ∧ s.roomCode.key = key ∧
    sys.roomAt appKey key = some room ∧ s.peerId = room.hostPeerId ∧ pid ∈ room.pending

/-- The id has an entry in the map `m` of the room under this code. -/
def EntryIn (sys : Sys) (appKey key : String) (m : Room → Members) (pid : PeerId) : Prop :=
  ∃ room, sys.roomAt appKey key = some room ∧ pid ∈ m room

theorem wrongPassword_eq_false {room : Room} {provided : Option String}
    (h : room.wrongPassword provided = false) (required : String)
    (hr : room.settings.password = some required) : provided.getD "" = required := by
  simpa [Room.wrongPassword, hr] using h

theorem finds_of_origin {sys : Sys} {a : Action} {appKey key : String} {room : Room}
    (h : (vacated sys a).roomAt appKey key = some room ∨ (vacated sys a).roomAt appKey key = none ∧
      ∃ (app : String) (code : RoomCode) (settings : DefaultSettings),
        room = Room.new app code settings) : Finds sys a appKey key room := by
  rcases h with hat | ⟨hat, app, code, settings, hnew⟩
  · obtain ⟨before, hb, ⟨rfl, _⟩ | ⟨old, _, _, _, rfl, hv⟩⟩ := leaveSession_roomAt hat
    · exact .old hb hat (.refl _) id
    · have hdata := (before.removePeer_shrunkTo a.env old.peerId []).data
      refine .old hb hat ((drops_dropMember.data before old.peerId).trans hdata) fun hv' => ?_
      simp [hv] at hv'
  · exact .new hat hnew

/-- No room has an id twice, also after the leave. -/
theorem vacated_disjoint {sys : Sys} (h : Reachable sys) {a : Action} {appKey key : String}
    {room : Room} (hr : (vacated sys a).roomAt appKey key = some room) : room.Disjoint := by
  obtain ⟨before, hb, ⟨rfl, _⟩ | ⟨old, _, _, _, rfl, _⟩⟩ := leaveSession_roomAt hr
  · exact reachable_disjoint h hb
  · exact (before.removePeer_shrunkTo a.env old.peerId []).disjoint
      (RoomOp.edit_disjoint (o := .leave old.peerId) (reachable_disjoint h hb))

theorem passed_of_letIn {sys : Sys} (hr : Reachable sys) {a : Action} {h : Hello}
    (event : a.event = .message (.hello h)) {net : Net} {appKey key : String} {room room' : Room}
    {pid : PeerId} {session : Option Session}
    (hlet : LetIn a.env a.conn h (vacated sys a) net appKey key room room' pid session) :
    Passed sys a appKey key pid h room room' := by
  obtain ⟨s', gate⟩ := hlet.gate
  obtain ⟨code, net', joined, _, _, admitted⟩ := hlet.admitted
  obtain ⟨token, registered⟩ := helloGate_checked gate
  have hdisjoint : room.Disjoint := by
    rcases hlet.origin with hat | ⟨_, app, code', settings, rfl⟩
    · exact vacated_disjoint hr hat
    · exact Room.disjoint_new app code' settings
  refine
    { event := event
      app := hlet.app
      finds := finds_of_origin hlet.origin
      validated := Hello.validate_ok.mpr (helloGate_ok gate).1
      registered := ?_
      token := token
      notBanned := by simpa [Room.isBanned] using admitted.notBanned
      password := wrongPassword_eq_false admitted.password
      fresh := admitted.fresh
      kept := ⟨admitted.data.2.1, admitted.data.2.2.1⟩
      capacity := Admitted.within_limit admitted hdisjoint }
  rwa [vacated, leaveSession_cache, hlet.app] at registered

/-! ## Where entries come from -/

theorem edit_clients {o : RoomOp} {room : Room} {p : PeerId} (h : p ∈ (o.edit room).clients) :
    p ∈ room.clients ∨ o = .control room.hostPeerId (.acceptPeer p) ∧ p ∈ room.pending := by
  cases o with
  | leave pid => exact .inl (AList.mem_erase.mp h).2
  | move pid blob =>
    simp only [RoomOp.edit] at h
    split_ifs at h <;> exact .inl h
  | control pid rc =>
    simp only [RoomOp.edit] at h
    split_ifs at h with hh
    · subst hh
      cases rc with
      | acceptPeer target =>
        simp only [RoomControl.edit] at h
        cases hp : room.pending.lookup target with
        | none =>
          simp only [hp] at h
          exact .inl h
        | some info =>
          simp only [hp] at h
          rcases (AList.mem_insert _).mp h with rfl | h
          · exact .inr ⟨rfl, AList.mem_of_lookup hp⟩
          · exact .inl h
      | kick target => exact .inl (AList.mem_erase.mp h).2
      | ban target =>
        simp only [RoomControl.edit] at h
        split at h
        · exact .inl (AList.mem_erase.mp h).2
        · exact .inl h
      | transferHost target =>
        simp only [RoomControl.edit] at h
        split_ifs at h <;> exact .inl h
      | _ => exact .inl h
    · exact .inl h

theorem edit_pending {o : RoomOp} {room : Room} {p : PeerId} (h : p ∈ (o.edit room).pending) :
    p ∈ room.pending := by
  cases o with
  | leave pid => exact (AList.mem_erase.mp h).2
  | move pid blob =>
    simp only [RoomOp.edit] at h
    split_ifs at h <;> exact h
  | control pid rc =>
    simp only [RoomOp.edit] at h
    split_ifs at h
    · cases rc with
      | acceptPeer target =>
        simp only [RoomControl.edit] at h
        split at h
        · exact (AList.mem_erase.mp h).2
        · exact h
      | denyPeer target => exact (AList.mem_erase.mp h).2
      | ban target =>
        simp only [RoomControl.edit] at h
        split at h <;> exact h
      | transferHost target =>
        simp only [RoomControl.edit] at h
        split_ifs at h <;> exact h
      | _ => exact h
    · exact h

/-- After the leave the maps have lost entries only. -/
theorem vacated_mem {sys : Sys} {a : Action} {appKey key : String} {room : Room}
    (hr : (vacated sys a).roomAt appKey key = some room) {p : PeerId} :
    (p ∈ room.clients → EntryIn sys appKey key Room.clients p) ∧
      (p ∈ room.pending → EntryIn sys appKey key Room.pending p) := by
  obtain ⟨before, hb, ⟨rfl, _⟩ | ⟨old, _, _, _, rfl, _⟩⟩ := leaveSession_roomAt hr
  · exact ⟨fun hp => ⟨_, hb, hp⟩, fun hp => ⟨_, hb, hp⟩⟩
  · have hshrunk := before.removePeer_shrunkTo a.env old.peerId []
    exact ⟨fun hp => ⟨_, hb, (AList.mem_erase.mp (hshrunk.mem_clients hp)).2⟩,
      fun hp => ⟨_, hb, (AList.mem_erase.mp (hshrunk.mem_pending hp)).2⟩⟩

/-- The new member is a client when the room was vacant or accepts at once, else it is pending. -/
theorem seat_mem {room : Room} {pid p : PeerId} {info : ClientInfo} :
    (p ∈ (room.seat pid info).clients → p ∈ room.clients ∨
      p = pid ∧ (room.isVacant = true ∨ room.settings.acceptRequired = false)) ∧
    (p ∈ (room.seat pid info).pending → p ∈ room.pending ∨ p = pid) := by
  unfold Room.seat
  split_ifs with hv hacc
  · exact ⟨fun h => ((AList.mem_insert _).mp h).symm.imp_right fun h => ⟨h, .inl hv⟩, .inl⟩
  · exact ⟨.inl, fun h => ((AList.mem_insert _).mp h).symm⟩
  · exact ⟨fun h => ((AList.mem_insert _).mp h).symm.imp_right fun h => ⟨h, .inr (by simpa using hacc)⟩,
      .inl⟩

/-- What stands behind an entry in the maps after a step. -/
theorem step_entries {sys : Sys} (h : Reachable sys) (a : Action) {appKey key : String}
    {room' : Room} (hr : (step sys a).roomAt appKey key = some room') (p : PeerId) :
    (p ∈ room'.clients → EntryIn sys appKey key Room.clients p ∨ Accepts sys a appKey key p ∨
      ∃ hello found, Passed sys a appKey key p hello found room' ∧
        (found.isVacant = true ∨ found.settings.acceptRequired = false)) ∧
    (p ∈ room'.pending → EntryIn sys appKey key Room.pending p ∨
      ∃ hello found, Passed sys a appKey key p hello found room') := by
  change (a.outcome sys).server.roomAt appKey key = some room' at hr
  have hres := Action.result sys a
  revert hres hr
  generalize a.outcome sys = out
  intro hr hres
  cases hres with
  | idle same =>
    have hr := (same appKey key).symm.trans hr
    exact ⟨fun hp => .inl ⟨_, hr, hp⟩, fun hp => .inl ⟨_, hr, hp⟩⟩
  | read _ _ same _ =>
    have hr := (same appKey key).symm.trans hr
    exact ⟨fun hp => .inl ⟨_, hr, hp⟩, fun hp => .inl ⟨_, hr, hp⟩⟩
  | @op s o old s' hs performs _ found put =>
    by_cases hk : appKey = s.appKey ∧ key = s.roomCode.key
    · obtain ⟨rfl, rfl⟩ := hk
      obtain rfl := Option.some.inj (put.here.symm.trans hr)
      have hshrunk := o.run_shrunkTo a.env old []
      refine ⟨fun hp => ?_, fun hp => .inl ⟨old, found, edit_pending (hshrunk.mem_pending hp)⟩⟩
      rcases edit_clients (hshrunk.mem_clients hp) with hc | ⟨rfl, hpend⟩
      · exact .inl ⟨old, found, hc⟩
      · obtain ⟨hevent, hpid⟩ := Action.op_control performs
        exact .inr (.inl ⟨hevent, s, old, hs, rfl, rfl, found, hpid.symm, hpend⟩)
    · have hr := (put.elsewhere hk).symm.trans hr
      exact ⟨fun hp => .inl ⟨_, hr, hp⟩, fun hp => .inl ⟨_, hr, hp⟩⟩
  | left _ => exact ⟨fun hp => .inl ((vacated_mem hr).1 hp), fun hp => .inl ((vacated_mem hr).2 hp)⟩
  | @hello hello o event _ result =>
    rcases result.roomAt hr with ⟨room, n, hat, rfl⟩ | ⟨_, app, code, settings, n, rfl⟩ |
      ⟨room, pid, hlet⟩
    · exact ⟨fun hp => .inl ((vacated_mem hat).1 hp), fun hp => .inl ((vacated_mem hat).2 hp)⟩
    · exact ⟨fun hp => absurd hp (AList.notMem_empty p), fun hp => absurd hp (AList.notMem_empty p)⟩
    · have hpassed := passed_of_letIn h event hlet
      have hbefore : (p ∈ room.clients → EntryIn sys appKey key Room.clients p) ∧
          (p ∈ room.pending → EntryIn sys appKey key Room.pending p) := by
        rcases hlet.origin with hat | ⟨_, app, code, settings, rfl⟩
        · exact vacated_mem hat
        · exact ⟨fun hp => absurd hp (AList.notMem_empty p), fun hp => absurd hp (AList.notMem_empty p)⟩
      obtain ⟨code, net', joined, _, _, admitted⟩ := hlet.admitted
      obtain ⟨n, hseat⟩ := admitted.seated
      have hmem := @seat_mem { room with peerCounter := n } pid p (room.newcomer a.conn hello)
      rw [← hseat] at hmem
      refine ⟨fun hp => ?_, fun hp => ?_⟩
      · rcases hmem.1 hp with hc | ⟨rfl, hwhy⟩
        · exact .inl (hbefore.1 hc)
        · exact .inr (.inr ⟨hello, room, hpassed, hwhy⟩)
      · rcases hmem.2 hp with hc | rfl
        · exact .inl (hbefore.2 hc)
        · exact .inr ⟨hello, room, hpassed⟩

/-- Entries appear only through a `Hello` that passed every check, and a client is added only when
the room had no member, accepts at once, or its host accepts the pending peer. -/
theorem admission_controlled (sys : Sys) (h : Reachable sys) (a : Action) (appKey key : String)
    (room' : Room) (hr : (step sys a).roomAt appKey key = some room') (pid : PeerId) :
    (pid ∈ room'.clients ∨ pid ∈ room'.pending → ¬ EntryIn sys appKey key Room.clients pid →
      ¬ EntryIn sys appKey key Room.pending pid →
        ∃ hello found, Passed sys a appKey key pid hello found room') ∧
    (pid ∈ room'.clients → ¬ EntryIn sys appKey key Room.clients pid →
      (∃ hello found, Passed sys a appKey key pid hello found room' ∧
        (found.isVacant = true ∨ found.settings.acceptRequired = false)) ∨
      Accepts sys a appKey key pid) ∧
    (pid ∈ room'.pending → ¬ EntryIn sys appKey key Room.pending pid →
      ∃ hello found, Passed sys a appKey key pid hello found room') := by
  obtain ⟨hclient, hpending⟩ := step_entries h a hr pid
  refine ⟨?_, fun hp hn => ?_, fun hp hn => (hpending hp).resolve_left hn⟩
  · rintro (hp | hp) hn hn'
    · rcases (hclient hp).resolve_left hn with haccept | ⟨hello, found, hpassed, _⟩
      · -- who is accepted was pending before
        obtain ⟨s, room, _, _, _, hroom, _, hpend⟩ := haccept.host
        exact absurd ⟨room, hroom, hpend⟩ hn'
      · exact ⟨hello, found, hpassed⟩
    · exact (hpending hp).resolve_left hn'
  · exact ((hclient hp).resolve_left hn).symm

/-- A room with its creator in it. -/
def opened : Sys := exec step .start [sends 0 (plainHello "" "h")]

theorem second_peer_admitted : ∃ room',
    (step opened (sends 1 (plainHello "aaaaaa" "x"))).roomAt "pong" "aaaaaa" = some room' ∧
      ∃ hello found,
        Passed opened (sends 1 (plainHello "aaaaaa" "x")) "pong" "aaaaaa" 2 hello found room' := by
  have hrun : ((step opened (sends 1 (plainHello "aaaaaa" "x"))).roomAt "pong" "aaaaaa").any
      (fun room => room.clients.keys.contains 2) = true := by decide
  have hnew : (opened.roomAt "pong" "aaaaaa").all
      (fun room => !room.clients.keys.contains 2 && !room.pending.keys.contains 2) = true := by decide
  obtain ⟨room', hr, hp⟩ := (Option.any_eq_true ..).mp hrun
  refine ⟨room', hr, (admission_controlled opened (reachable_exec _) _ _ _ room' hr 2).1
    (.inl (AList.mem_keys.mpr (by simpa using hp))) ?_ ?_⟩
  · rintro ⟨room, hroom, hp⟩
    have hall := (Option.all_eq_true ..).mp hnew room hroom
    simp [AList.mem_keys.mp hp] at hall
  · rintro ⟨room, hroom, hp⟩
    have hall := (Option.all_eq_true ..).mp hnew room hroom
    simp [AList.mem_keys.mp hp] at hall

end Roomie.Admissions
