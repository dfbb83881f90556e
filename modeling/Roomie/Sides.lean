import Roomie.Admissions
import Roomie.PeerIds

/-!
# The sides of the peers of a room

A side is the first number not taken, in a range that ends at 255 and falls back to 0 silently.
As long as a room holds no more than 256 peers the range does not run out: whoever is let in finds
fewer peers than there are numbers, and fewer than the limit, whatever the limit has been before.
-/

namespace Roomie.Sides
open HashTables GuardedRuns Seats Admissions PeerIds

/-! ## The first number that is not taken -/

/-- Among more numbers than there are bytes in the list, one is not in it. -/
theorem exists_notMem {used : List UInt8} {n : ℕ} (h : used.length < n) (hn : n ≤ 256) :
    ∃ k < n, UInt8.ofNat k ∉ used := by
  by_contra hno
  push Not at hno
  have hsub : (List.range n).map UInt8.ofNat ⊆ used := by
    intro side hside
    obtain ⟨k, hk, rfl⟩ := List.mem_map.mp hside
    exact hno k (List.mem_range.mp hk)
  have hnodup : ((List.range n).map UInt8.ofNat).Nodup := by
    refine List.nodup_range.map_on fun k hk l hl heq => ?_
    have hk := List.mem_range.mp hk
    have hl := List.mem_range.mp hl
    have hto := congrArg UInt8.toNat heq
    simp only [UInt8.toNat_ofNat'] at hto
    omega
  have hlen := (hnodup.subperm hsub).length_le
  simp only [List.length_map, List.length_range] at hlen
  omega

/-- A search in a range that is long enough finds a number that is not taken, and no more than
there are taken ones come before it. -/
theorem find_unused {used : List UInt8} {n : ℕ} (h : used.length < n) (hn : n ≤ 256) :
    ∃ k ≤ used.length, UInt8.ofNat k ∉ used ∧
      ((List.range n).map UInt8.ofNat).find? (fun side => !used.contains side) =
        some (.ofNat k) := by
  have hfound : ((List.range n).find? fun k => !used.contains (UInt8.ofNat k)).isSome = true := by
    obtain ⟨k, hk, hfree⟩ := exists_notMem h hn
    exact List.find?_isSome.mpr ⟨k, List.mem_range.mpr hk, by simpa using hfree⟩
  obtain ⟨k, hk⟩ := Option.isSome_iff_exists.mp hfound
  obtain ⟨hfree, _, hfirst⟩ := List.find?_range_eq_some.mp hk
  refine ⟨k, ?_, by simpa using hfree, ?_⟩
  · by_contra hlt
    obtain ⟨l, hl, hfree'⟩ := exists_notMem (Nat.lt_succ_self used.length) (by omega)
    have htaken := hfirst l (by omega)
    simp [hfree'] at htaken
  · rw [List.find?_map]
    exact congrArg (Option.map UInt8.ofNat) hk

/-! ## Rooms -/

def headCount (room : Room) : ℕ := room.clients.size + room.pending.size

theorem length_usedSides (room : Room) : room.usedSides.length = headCount room := by
  have hkeys : ∀ m : Members, m.entries.length = m.size := fun m => by
    simp [AList.size, AList.keys, List.keys]
  rw [Room.usedSides, List.length_append, List.length_map, List.length_map, hkeys, hkeys, headCount]

theorem mem_usedSides {room : Room} {side : UInt8} :
    side ∈ room.usedSides ↔ ∃ p i, room.HasMember p i ∧ i.side = side := by
  have hentries : ∀ m : Members, side ∈ m.entries.map (·.2.side) ↔
      ∃ p i, m.lookup p = some i ∧ i.side = side := by
    intro m
    rw [List.mem_map]
    constructor
    · rintro ⟨⟨p, i⟩, hmem, hside⟩
      exact ⟨p, i, AList.mem_lookup_iff.mpr hmem, hside⟩
    · rintro ⟨p, i, hi, hside⟩
      exact ⟨⟨p, i⟩, AList.mem_lookup_iff.mp hi, hside⟩
  rw [Room.usedSides, List.mem_append, hentries, hentries]
  constructor
  · rintro (⟨p, i, hi, hside⟩ | ⟨p, i, hi, hside⟩)
    · exact ⟨p, i, .inl hi, hside⟩
    · exact ⟨p, i, .inr hi, hside⟩
  · rintro ⟨p, i, hi | hi, hside⟩
    · exact .inl ⟨p, i, hi, hside⟩
    · exact .inr ⟨p, i, hi, hside⟩

/-- Members with one side are one member. -/
def Distinct (room : Room) : Prop :=
  ∀ p i q j, room.HasMember p i → room.HasMember q j → i.side = j.side → p = q

theorem Distinct.nodup {room : Room} (h : Distinct room) (hd : room.Disjoint) :
    room.usedSides.Nodup := by
  have hentries : ∀ m : Members, (∀ p i, m.lookup p = some i → room.HasMember p i) →
      (m.entries.map (·.2.side)).Nodup := by
    intro m hm
    refine m.nodupKeys.nodup.map_on ?_
    rintro ⟨p, i⟩ hp ⟨q, j⟩ hq hside
    have hi := AList.mem_lookup_iff.mpr hp
    have hj := AList.mem_lookup_iff.mpr hq
    obtain rfl := h p i q j (hm p i hi) (hm q j hj) hside
    obtain rfl := Option.some.inj (hi.symm.trans hj)
    rfl
  refine List.nodup_append.mpr ⟨hentries _ fun _ _ => .inl, hentries _ fun _ _ => .inr, ?_⟩
  intro side hs side' hs' heq
  subst heq
  obtain ⟨⟨p, i⟩, hp, hside⟩ := List.mem_map.mp hs
  obtain ⟨⟨q, j⟩, hq, hside'⟩ := List.mem_map.mp hs'
  have hi := AList.mem_lookup_iff.mpr hp
  have hj := AList.mem_lookup_iff.mpr hq
  obtain rfl := h p i q j (.inl hi) (.inr hj) (hside.trans hside'.symm)
  exact hd p (AList.mem_of_lookup hi) (AList.mem_of_lookup hj)

/-- A room that is not full and holds fewer than 256 peers gives out a side that nobody has, below
the limit if there is one. -/
theorem nextAvailableSide_free {room : Room} (hcount : headCount room < 256)
    (hfull : room.isFull = false) : room.nextAvailableSide ∉ room.usedSides ∧
      (room.settings.maxPlayers ≠ 0 →
        room.nextAvailableSide.toNat < room.settings.maxPlayers.toNat) := by
  have hlimit : room.settings.maxPlayers ≠ 0 →
      headCount room < room.settings.maxPlayers.toNat := by
    intro hmax
    simp only [Room.isFull, hmax, if_false, decide_eq_false_iff_not, UInt32.not_le,
      UInt32.lt_iff_toNat_lt, UInt32.toNat_ofNat'] at hfull
    simp only [headCount] at hcount ⊢
    omega
  have hlength := length_usedSides room
  have hrange : room.usedSides.length <
      (if room.settings.maxPlayers = 0 then 255 else min room.settings.maxPlayers.toNat 255) + 1 := by
    split_ifs with hmax
    · omega
    · have hlt := hlimit hmax
      omega
  have hshort : (if room.settings.maxPlayers = 0 then 255
      else min room.settings.maxPlayers.toNat 255) + 1 ≤ 256 := by
    split_ifs <;> omega
  obtain ⟨k, hk, hfree, hfound⟩ := find_unused hrange hshort
  have hside : room.nextAvailableSide = .ofNat k := by
    rw [Room.nextAvailableSide, hfound]
    rfl
  rw [hside]
  refine ⟨hfree, fun hmax => ?_⟩
  have hlt := hlimit hmax
  rw [UInt8.toNat_ofNat']
  omega

/-! ## Runs -/

theorem Distinct.fewer {room room' : Room} (h : Distinct room) (hf : Fewer room room') :
    Distinct room' :=
  fun p i q j hp hq => h p i q j (hf.members p i hp) (hf.members q j hq)

theorem distinct_new (appKey : String) (code : RoomCode) (settings : RoomSettings) :
    Distinct (Room.new appKey code settings) := by
  rintro p i q j (hp | hp) <;> simp [Room.new] at hp

/-- Who is seated in a room that holds 256 peers at most afterwards gets a side of its own. -/
theorem seated_side {env : Env} {me : ConnId} {code : RoomCode} {h : Hello} {room room' : Room}
    {net net' : Net} {pid : PeerId} {joined : ServerMessage}
    (ha : Room.Admitted env me code h room net room' net' pid joined)
    (hcount : headCount room' ≤ 256) : (∀ p i, room.HasMember p i →
      i.side ≠ (room.newcomer me h).side) ∧ (room'.settings.maxPlayers ≠ 0 →
        (room.newcomer me h).side.toNat < room'.settings.maxPlayers.toNat) := by
  have hbefore : headCount room < 256 := by
    obtain ⟨n, rfl⟩ := ha.seated
    have hsize := @seat_size { room with peerCounter := n } pid (room.newcomer me h) ha.fresh
    simp only [headCount] at hcount hsize ⊢
    omega
  obtain ⟨hfree, hlimit⟩ := nextAvailableSide_free hbefore ha.notFull
  rw [ha.data.2.1]
  exact ⟨fun p i hi heq => hfree (mem_usedSides.mpr ⟨p, i, hi, heq⟩), hlimit⟩

theorem Distinct.admission {env : Env} {me : ConnId} {code : RoomCode} {h : Hello} {room : Room}
    {net : Net} {out : Room × Net × Except String (PeerId × ServerMessage)} (hd : Distinct room)
    (ha : room.Admission env me code h net out) (hcount : headCount out.1 ≤ 256) :
    Distinct out.1 := by
  cases ha with
  | refused _ => exact hd
  | exhausted _ =>
    intro p i q j hp hq
    exact hd p i q j (nextPeerId_members.mp hp) (nextPeerId_members.mp hq)
  | seated admitted _ =>
    obtain ⟨hfree, _⟩ := seated_side admitted hcount
    intro p i q j hp hq hside
    rcases admitted.hasMember hp with ⟨hpid, rfl⟩ | hold
    · rcases admitted.hasMember hq with ⟨hpid', rfl⟩ | hold'
      · exact hpid.trans hpid'.symm
      · exact absurd hside.symm (hfree q j hold')
    · rcases admitted.hasMember hq with ⟨_, rfl⟩ | hold'
      · exact absurd hside (hfree p i hold)
      · exact hd p i q j hold hold' hside

/-- The action leaves 256 peers at most in the room under this code. -/
def LeavesFew (appKey key : String) (sys : Sys) (a : Action) : Prop :=
  ∀ room, (step sys a).roomAt appKey key = some room → headCount room ≤ 256

theorem step_distinct {sys : Sys} {a : Action} {appKey key : String}
    (h : ∀ room, sys.roomAt appKey key = some room → Distinct room)
    (hfew : LeavesFew appKey key sys a) :
    ∀ room, (step sys a).roomAt appKey key = some room → Distinct room :=
  step_keeps (fun h hf => h.fewer hf) distinct_new
    (fun h ha hleft => h.admission ha (hfew _ hleft)) h

/-- In every run in which a room never holds more than 256 peers, accepted and pending, their
sides are pairwise distinct, and whoever joins under a limit gets a side below it. -/
theorem sides_distinct (appKey key : String) (sys : Sys)
    (h : Reaches step (LeavesFew appKey key) .start sys) :
    (∀ room, sys.roomAt appKey key = some room → room.usedSides.Nodup) ∧
      ∀ a, LeavesFew appKey key sys a → ∀ pid ∈ handedOut sys a appKey key,
        ∃ room i, (step sys a).roomAt appKey key = some room ∧ room.HasMember pid i ∧
          (room.settings.maxPlayers ≠ 0 → i.side.toNat < room.settings.maxPlayers.toNat) := by
  constructor
  · intro room hr
    have hdistinct : ∀ room, sys.roomAt appKey key = some room → Distinct room := by
      refine h.invariant (I := fun sys => ∀ room, sys.roomAt appKey key = some room →
        Distinct room) ?_ fun sys a ih hfew => step_distinct ih hfew
      intro room hr
      simp [Sys.roomAt, Sys.start, Server.start, Server.roomAt] at hr
    exact (hdistinct room hr).nodup (reachable_disjoint (h.mono fun _ _ _ => trivial) hr)
  · intro a hfew pid hpid
    rcases step_place sys a appKey key with ⟨_, hnone⟩ | ⟨room, out, hlocked⟩
    · rw [hnone] at hpid
      cases hpid
    · obtain ⟨code, hello, net, hadmission⟩ := hlocked.admission
      rw [hlocked.ids] at hpid
      have hcount := hfew out.1 hlocked.left
      have hleft := hlocked.left
      cases hadmission with
      | refused _ => cases hpid
      | exhausted _ => cases hpid
      | @seated room' net' pid' joined admitted _ =>
        obtain rfl := List.mem_singleton.mp hpid
        exact ⟨room', _, hleft, admitted.member, (seated_side admitted hcount).2⟩

theorem leavesFew_of_all {appKey key : String} {sys : Sys} {a : Action}
    (h : ((step sys a).roomAt appKey key).all (fun room => decide (headCount room ≤ 256)) = true) :
    LeavesFew appKey key sys a := by
  intro room hr
  rw [hr] at h
  exact of_decide_eq_true h

/-- The second player of a room for two gets a side below 2. -/
theorem second_player_side : ∃ room i,
    (step opened (sends 1 (plainHello "aaaaaa" "x"))).roomAt "pong" "aaaaaa" = some room ∧
      room.HasMember 2 i ∧
      (room.settings.maxPlayers ≠ 0 → i.side.toNat < room.settings.maxPlayers.toNat) :=
  (sides_distinct "pong" "aaaaaa" opened
    (Reaches.exec .refl ⟨leavesFew_of_all (by decide), trivial⟩)).2
      (sends 1 (plainHello "aaaaaa" "x")) (leavesFew_of_all (by decide)) 2 (by decide)

end Roomie.Sides
