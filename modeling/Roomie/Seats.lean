import Roomie.RoomInvariants

/-!
# Seats

Every member of every room belongs to a connection whose session names exactly this room
and this id. So a connection sits in one room at most, under one id, and what a room sends
to its members reaches the members of no other room.
-/

namespace Roomie.Seats
open HashTables GuardedRuns

/-- The session is for the id `pid` in the room under `appKey` and `key`. -/
def Names (session : Option Session) (appKey key : String) (pid : PeerId) : Prop :=
  ∃ s, session = some s ∧ s.appKey = appKey ∧ s.roomCode.key = key ∧ s.peerId = pid

theorem Names.unique {session : Option Session} {appKey appKey' key key' : String}
    {p q : PeerId} (h : Names session appKey key p) (h' : Names session appKey' key' q) :
    appKey = appKey' ∧ key = key' ∧ p = q := by
  obtain ⟨s, rfl, rfl, rfl, rfl⟩ := h
  obtain ⟨s', ⟨⟩, rfl, rfl, rfl⟩ := h'
  exact ⟨rfl, rfl, rfl⟩

/-- Every member's connection has a session for its seat. -/
def Seated (sys : Sys) : Prop :=
  ∀ appKey key room p i, sys.roomAt appKey key = some room → room.HasMember p i →
    Names (sys.session i.tx) appKey key p

/-- After the leave of a session the members are those before, without the one that left. -/
theorem leaveSession_hasMember {env : Env} {s : Server} {session : Option Session} {net : Net}
    {appKey key : String} {room' : Room} {p : PeerId} {i : ClientInfo}
    (hr : (leaveSession env s session net).1.roomAt appKey key = some room')
    (hm : room'.HasMember p i) :
    (∃ room, s.roomAt appKey key = some room ∧ room.HasMember p i) ∧
      ¬ Names session appKey key p := by
  obtain ⟨room, hroom, ⟨rfl, hother⟩ | ⟨old, hs, happ, hkey, rfl, _⟩⟩ := leaveSession_roomAt hr
  · refine ⟨⟨_, hroom, hm⟩, ?_⟩
    rintro ⟨s, hs, happ, hkey, _⟩
    exact hother s hs ⟨happ.symm, hkey.symm⟩
  · have hbefore : room.HasMember p i ∧ p ≠ old.peerId := by
      rcases (room.removePeer_shrunkTo env old.peerId net).hasMember hm with h | h
      · exact ⟨.inl (AList.lookup_erase_some.mp h).2, (AList.lookup_erase_some.mp h).1⟩
      · exact ⟨.inr (AList.lookup_erase_some.mp h).2, (AList.lookup_erase_some.mp h).1⟩
    refine ⟨⟨room, hroom, hbefore.1⟩, ?_⟩
    rintro ⟨s, hs', _, _, hpid⟩
    obtain rfl := Option.some.inj (hs.symm.trans hs')
    exact hbefore.2 hpid.symm

/-- After a `Hello` the members are those before, and the new one when it was let in. -/
theorem helloResult_hasMember {env : Env} {me : ConnId} {h : Hello} {s : Server} {net : Net}
    {o : Outcome} (hres : HelloResult env me h s net o) {appKey key : String} {room' : Room}
    {p : PeerId} {i : ClientInfo} (hr : o.server.roomAt appKey key = some room')
    (hm : room'.HasMember p i) :
    (∃ room, s.roomAt appKey key = some room ∧ room.HasMember p i) ∨
      i.tx = me ∧ Names o.session appKey key p := by
  rcases hres.roomAt hr with ⟨room, n, hat, rfl⟩ | ⟨_, app, code, settings, n, rfl⟩ |
    ⟨room, pid, hlet⟩
  · exact .inl ⟨room, hat, hm⟩
  · rcases hm with hm | hm <;> simp [Room.new] at hm
  · obtain ⟨code, net', joined, rfl, hsession, admitted⟩ := hlet.admitted
    rcases admitted.hasMember hm with ⟨rfl, rfl⟩ | hm
    · exact .inr ⟨rfl, _, hsession, hlet.app, rfl, rfl⟩
    · rcases hlet.origin with hat | ⟨_, app, code', settings, rfl⟩
      · exact .inl ⟨room, hat, hm⟩
      · rcases hm with hm | hm <;> simp [Room.new] at hm

theorem step_seated {sys : Sys} (h : Seated sys) (a : Action) : Seated (step sys a) := by
  intro appKey key room p i hr hm
  change (a.outcome sys).server.roomAt appKey key = some room at hr
  change Names (Function.update sys.session a.conn (a.outcome sys).session i.tx) appKey key p
  have hother : i.tx ≠ a.conn → (∃ room, sys.roomAt appKey key = some room ∧ room.HasMember p i) →
      Names (Function.update sys.session a.conn (a.outcome sys).session i.tx) appKey key p := by
    rintro hne ⟨room, hr, hm⟩
    rw [Function.update_of_ne hne]
    exact h appKey key room p i hr hm
  -- the session of the acting connection is kept and the members were there before
  have hkept : (a.outcome sys).session = sys.session a.conn →
      (∃ room, sys.roomAt appKey key = some room ∧ room.HasMember p i) →
      Names (Function.update sys.session a.conn (a.outcome sys).session i.tx) appKey key p := by
    rintro hs ⟨room, hr, hm⟩
    rw [hs, Function.update_eq_self]
    exact h appKey key room p i hr hm
  -- the acting connection left its seat before anything else
  have hleft : (∃ room, (leaveSession a.env sys.server (sys.session a.conn) []).1.roomAt appKey key =
        some room ∧ room.HasMember p i) →
      i.tx ≠ a.conn ∧ ∃ room, sys.roomAt appKey key = some room ∧ room.HasMember p i := by
    rintro ⟨room, hr, hm⟩
    obtain ⟨⟨room, hr, hm⟩, hn⟩ := leaveSession_hasMember hr hm
    exact ⟨fun heq => hn (heq ▸ h appKey key room p i hr hm), room, hr, hm⟩
  have hres := Action.result sys a
  revert hres hr hother hkept
  generalize a.outcome sys = out
  intro hr hother hkept hres
  cases hres with
  | idle same => exact hkept rfl ⟨room, (same appKey key).symm.trans hr, hm⟩
  | read hs _ same _ => exact hkept hs.symm ⟨room, (same appKey key).symm.trans hr, hm⟩
  | @op s o old s' hs _ _ found put =>
    refine hkept hs.symm ?_
    by_cases hk : appKey = s.appKey ∧ key = s.roomCode.key
    · obtain ⟨rfl, rfl⟩ := hk
      obtain rfl := Option.some.inj (put.here.symm.trans hr)
      exact ⟨old, found, RoomOp.run_hasMember hm⟩
    · exact ⟨room, (put.elsewhere hk).symm.trans hr, hm⟩
  | left _ =>
    obtain ⟨hne, hbefore⟩ := hleft ⟨room, hr, hm⟩
    exact hother hne hbefore
  | hello _ _ result =>
    rcases helloResult_hasMember result hr hm with hbefore | ⟨htx, hnames⟩
    · obtain ⟨hne, hbefore⟩ := hleft hbefore
      exact hother hne hbefore
    · rwa [htx, Function.update_self]

/-- In every reachable state every member has its seat. -/
theorem seated {sys : Sys} (h : Reachable sys) : Seated sys := by
  refine h.invariant ?_ fun sys a hs _ => step_seated hs a
  intro appKey key room p i hr
  simp [Sys.roomAt, Sys.start, Server.start, Server.roomAt] at hr

/-- A connection has one seat at most. -/
theorem Seated.unique {sys : Sys} (h : Seated sys) {appKey appKey' key key' : String}
    {room room' : Room} {p q : PeerId} {i j : ClientInfo}
    (hr : sys.roomAt appKey key = some room) (hp : room.HasMember p i)
    (hr' : sys.roomAt appKey' key' = some room') (hq : room'.HasMember q j) (htx : i.tx = j.tx) :
    appKey = appKey' ∧ key = key' ∧ p = q :=
  (h _ _ _ _ _ hr hp).unique (htx ▸ h _ _ _ _ _ hr' hq)

theorem reachable_disjoint {sys : Sys} (h : Reachable sys) {appKey key : String} {room : Room}
    (hr : sys.roomAt appKey key = some room) : room.Disjoint :=
  disjoint_invariant.reaches (fun _ _ _ _ _ _ _ _ => trivial) h appKey key room hr

/-! ## Entries -/

/-- The two maps of a room. -/
inductive Standing where
  | accepted | pending
  deriving DecidableEq

/-- Where an entry is kept: the app, the room, the map and the id. -/
structure Place where
  appKey : String
  key : String
  standing : Standing
  pid : PeerId

/-- The map for a standing. -/
def membersOf (room : Room) : Standing → Members
  | .accepted => room.clients
  | .pending => room.pending

/-- The connection has an entry at this place. -/
def Owns (sys : Sys) (conn : ConnId) (place : Place) : Prop :=
  ∃ room i, sys.roomAt place.appKey place.key = some room ∧
    (membersOf room place.standing).lookup place.pid = some i ∧ i.tx = conn

theorem hasMember_iff {room : Room} {p : PeerId} {i : ClientInfo} :
    room.HasMember p i ↔ ∃ standing, (membersOf room standing).lookup p = some i := by
  constructor
  · rintro (h | h)
    · exact ⟨.accepted, h⟩
    · exact ⟨.pending, h⟩
  · rintro ⟨_ | _, h⟩
    · exact .inl h
    · exact .inr h

/-- One id has one standing. -/
theorem standing_unique {room : Room} (hd : room.Disjoint) {st st' : Standing} {p : PeerId}
    {i j : ClientInfo} (h : (membersOf room st).lookup p = some i)
    (h' : (membersOf room st').lookup p = some j) : st = st' := by
  cases st <;> cases st'
  · rfl
  · exact absurd (AList.mem_of_lookup h') (hd p (AList.mem_of_lookup h))
  · exact absurd (AList.mem_of_lookup h) (hd p (AList.mem_of_lookup h'))
  · rfl

theorem Owns.names {sys : Sys} (hs : Seated sys) {conn : ConnId} {place : Place}
    (h : Owns sys conn place) : Names (sys.session conn) place.appKey place.key place.pid := by
  obtain ⟨room, i, hr, hi, rfl⟩ := h
  exact hs _ _ _ _ _ hr (hasMember_iff.mpr ⟨_, hi⟩)

theorem Owns.unique {sys : Sys} (h : Reachable sys) {conn : ConnId} {place place' : Place}
    (ho : Owns sys conn place) (ho' : Owns sys conn place') : place = place' := by
  obtain ⟨happ, hkey, hpid⟩ := (ho.names (seated h)).unique (ho'.names (seated h))
  obtain ⟨room, i, hr, hi, _⟩ := ho
  obtain ⟨room', j, hr', hj, _⟩ := ho'
  rw [← happ, ← hkey, hr] at hr'
  obtain rfl := Option.some.inj hr'
  rw [← hpid] at hj
  have hst := standing_unique (reachable_disjoint h hr) hi hj
  cases place
  cases place'
  simp_all

/-- Without a session there is no entry. -/
theorem not_owns_of_no_session {sys : Sys} (hs : Seated sys) {conn : ConnId}
    (hn : sys.session conn = none) (place : Place) : ¬ Owns sys conn place := by
  intro h
  obtain ⟨s, hsess, _⟩ := h.names hs
  simp [hn] at hsess

theorem session_of_idle {sys : Sys} {as : List Action} {conn : ConnId}
    (h : ∀ a ∈ as, a.conn ≠ conn) : (exec step sys as).session conn = sys.session conn := by
  induction as generalizing sys with
  | nil => rfl
  | cons a as ih =>
    rw [exec_cons, ih fun b hb => h b (List.mem_cons_of_mem _ hb)]
    exact Function.update_of_ne (h a List.mem_cons_self).symm _ _

theorem reachable_continued {sys : Sys} (h : Reachable sys) (as : List Action) :
    Reachable (exec step sys as) := by
  refine h.exec ?_
  induction as generalizing sys with
  | nil => trivial
  | cons a as ih => exact ⟨trivial, ih (h.tail a trivial)⟩

/-- Over the maps of all rooms of all apps a connection has one entry at most, which is the one
its session names. From its disconnect on it has none. -/
theorem one_seat (sys : Sys) (h : Reachable sys) (conn : ConnId) :
    (∀ place place', Owns sys conn place → Owns sys conn place' → place = place') ∧
    (∀ place, Owns sys conn place →
      Names (sys.session conn) place.appKey place.key place.pid) ∧
    ∀ env as, (∀ a ∈ as, a.conn ≠ conn) → ∀ place,
      ¬ Owns (exec step (step sys ⟨env, conn, .disconnect⟩) as) conn place := by
  refine ⟨fun _ _ ho ho' => ho.unique h ho', fun _ ho => ho.names (seated h), ?_⟩
  intro env as has place
  have hnext : Reachable (step sys ⟨env, conn, .disconnect⟩) := h.tail _ trivial
  refine not_owns_of_no_session (seated (reachable_continued hnext as)) ?_ place
  rw [session_of_idle has]
  exact Function.update_self ..

/-- Two connections, the first of which says `Hello` again from inside its room. -/
def rejoining : List Action :=
  [sends 0 (plainHello "" "h"), sends 1 (plainHello "aaaaaa" "x"), sends 0 (plainHello "aaaaaa" "h")]

theorem rejoining_one_seat : ¬ ∃ place place', Owns (exec step .start rejoining) 0 place ∧
    Owns (exec step .start rejoining) 0 place' ∧ place ≠ place' := by
  rintro ⟨place, place', ho, ho', hne⟩
  exact hne ((one_seat (exec step .start rejoining) (reachable_exec rejoining) 0).1 _ _ ho ho')

end Roomie.Seats
