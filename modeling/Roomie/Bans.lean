import Roomie.RoomInvariants

/-!
# Banned hashes and the members of a room

A ban removes one accepted peer and remembers its hash, but neither looks for other
members with the same hash nor does `AcceptPeer` consult the list again. As long as every
banned peer is the only member with its hash, no member of any room has a banned hash;
and a hash that is banned stays banned while the room lives.
-/

namespace Roomie.Bans
open HashTables GuardedRuns

/-- No member, accepted or pending, has a banned hash. -/
def Hold (room : Room) : Prop := ∀ p i, room.HasMember p i → i.clientHash ∉ room.banned

/-- A ban by the host finds the hash of the banned peer with no other member that is going to
stay, which an accepted one with a dead channel is not. -/
def SoleHash (env : Env) (room : Room) (o : RoomOp) : Prop :=
  ∀ pid target info, o = .control pid (.ban target) → room.hostPeerId = pid →
    room.clients.lookup target = some info →
    ∀ q j, q ≠ target → j.clientHash = info.clientHash →
      room.pending.lookup q ≠ some j ∧ (room.clients.lookup q = some j → env.Dead j.tx)

theorem hold_of_shrunkTo {env : Env} {room room' : Room} (h : Hold room)
    (hs : ShrunkTo env room room') : Hold room' := by
  intro p i hp
  rw [hs.data.banned]
  exact h p i (hs.hasMember hp)

/-- An edit that only moves or removes members and leaves the list alone. -/
theorem hold_of_members {room room' : Room} (h : Hold room) (hb : room'.banned = room.banned)
    (hm : ∀ p i, room'.HasMember p i → room.HasMember p i) : Hold room' := by
  intro p i hp
  rw [hb]
  exact h p i (hm p i hp)

/-- A ban of the only member with its hash. -/
theorem ban_hold {env : Env} {room : Room} {pid target : PeerId} (net : Net)
    (hd : room.Disjoint) (h : Hold room)
    (hg : SoleHash env room (.control pid (.ban target))) (hh : room.hostPeerId = pid) :
    Hold (room.ban env target net).1 := by
  cases ht : room.clients.lookup target with
  | none =>
    rw [Room.ban, Room.expel_none ht]
    exact hold_of_shrunkTo h (broadcastAndPrune_prunedTo env room _ net).toShrunkTo
  | some info =>
    have hsole := hg pid target info rfl hh ht
    obtain ⟨edited, hedited⟩ : ∃ edited : Room, edited =
      { room.dropClient target with banned := insert info.clientHash room.banned } := ⟨_, rfl⟩
    have hrun : room.ban env target net = broadcastAndPrune env edited (.peerLeft target)
        (net ++ [(info.tx, .roomEvent .banned)]) := by
      rw [hedited, Room.ban, Room.expel_some ht]
      rfl
    have hclients : edited.clients = room.clients.erase target := by rw [hedited]; rfl
    have hpending : edited.pending = room.pending := by rw [hedited]; rfl
    have hbanned : edited.banned = insert info.clientHash room.banned := by rw [hedited]
    rw [hrun]
    have hp := broadcastAndPrune_prunedTo env edited (.peerLeft target)
      (net ++ [(info.tx, .roomEvent .banned)])
    intro q j hq
    rw [hp.data.banned, hbanned, Finset.mem_insert, not_or]
    rcases hq with hq | hq
    · have hq' := hp.clients q j hq
      rw [hclients] at hq'
      obtain ⟨hne, hq''⟩ := AList.lookup_erase_some.mp hq'
      refine ⟨fun heq => ?_, h q j (.inl hq'')⟩
      have hdead := (hsole q j hne heq).2 hq''
      rw [← hclients] at hq'
      exact broadcastAndPrune_drops hq' hdead _ _ (AList.mem_of_lookup hq)
    · have hq' := hp.pending q j hq
      rw [hpending] at hq'
      refine ⟨fun heq => (hsole q j ?_ heq).1 hq', h q j (.inr hq')⟩
      rintro rfl
      exact hd q (AList.mem_of_lookup ht) (AList.mem_of_lookup hq')

theorem op_hold {env : Env} {room : Room} {o : RoomOp} {net : Net} (hd : room.Disjoint)
    (h : Hold room) (hg : SoleHash env room o) : Hold (o.run env room net).1 := by
  by_cases hb : ∃ pid target, o = .control pid (.ban target) ∧ room.hostPeerId = pid
  · obtain ⟨pid, target, rfl, hh⟩ := hb
    simpa [RoomOp.run, Room.control, hh, Room.command] using ban_hold net hd h hg hh
  · have hedit : (o.edit room).banned = room.banned := by
      cases o with
      | leave pid => rfl
      | move pid blob => simp only [RoomOp.edit]; split <;> rfl
      | control pid rc =>
        simp only [RoomOp.edit]
        split_ifs with hh
        · exact rc.edit_banned room fun target ht => hb ⟨pid, target, by rw [ht], hh⟩
        · rfl
    exact hold_of_shrunkTo (hold_of_members h hedit fun p i => RoomOp.edit_hasMember)
      (o.run_shrunkTo env room net)

theorem invariant : RoomInvariant SoleHash fun room => room.Disjoint ∧ Hold room where
  create appKey code settings hgen :=
    ⟨disjoint_invariant.create appKey code settings hgen, fun p i _ => Finset.notMem_empty _⟩
  count _ _ h := h
  op env room o net h hg :=
    ⟨disjoint_invariant.op env room o net h.1 trivial, op_hold h.1 h.2 hg⟩
  admitPeer env me code h room net room' net' pid joined hv hI ha := by
    refine ⟨disjoint_invariant.admitPeer env me code h room net room' net' pid joined hv hI.1 ha, ?_⟩
    intro p i hp
    rw [ha.data.2.2.1]
    rcases ha.hasMember hp with ⟨_, rfl⟩ | hp
    · simpa [Room.isBanned, Room.newcomer] using ha.notBanned
    · exact hI.2 p i hp

/-- A room that goes on living forgets no ban. -/
theorem banned_subset_of_life {env : Env} {g : Room → RoomOp → Prop} {room room' : Room}
    (h : RoomLife env g room room') : room.banned ⊆ room'.banned := by
  induction h with
  | refl room => exact subset_rfl
  | @op room o net _ =>
    rw [(o.run_shrunkTo env room net).data.banned]
    exact o.edit_banned_subset room
  | count room n => exact subset_rfl
  | admitPeer _ admitted => rw [admitted.data.2.2.1]
  | trans _ _ ih ih' => exact ih.trans ih'

theorem banned_exec {appKey key : String} {hash : ClientHash} (as : List Action) {sys : Sys}
    {room : Room} (ha : Along step (fun sys a => ¬ a.Removes sys appKey key) sys as)
    (hr : sys.roomAt appKey key = some room) (hb : hash ∈ room.banned) :
    ∃ room', (exec step sys as).roomAt appKey key = some room' ∧ hash ∈ room'.banned := by
  induction as generalizing sys room with
  | nil => exact ⟨room, hr, hb⟩
  | cons a as ih =>
    obtain ⟨room', hr', hl⟩ := step_life (g := fun _ _ _ => True) (fun _ _ _ _ _ => trivial) hr ha.1
    exact ih ha.2 hr' (banned_subset_of_life hl hb)

/-- While every ban meets the only member with its hash, no member of any room has a banned
hash; and, guarded or not, a ban lasts as long as its room. -/
theorem bans_hold_and_last (sys : Sys) :
    (Reaches step (OpGuard SoleHash) .start sys →
      ∀ appKey key room, sys.roomAt appKey key = some room → Hold room) ∧
    (Reachable sys → ∀ appKey key room hash, sys.roomAt appKey key = some room →
      hash ∈ room.banned → ∀ as, Along step (fun sys a => ¬ a.Removes sys appKey key) sys as →
        ∃ room', (exec step sys as).roomAt appKey key = some room' ∧ hash ∈ room'.banned) := by
  refine ⟨fun h appKey key room hr => ?_, fun _ appKey key room hash hr hb as ha => ?_⟩
  · exact (invariant.reaches (fun _ _ h => h) h appKey key room hr).2
  · exact banned_exec as ha hr hb

/-- Nobody but `target` has the hash of `target`: the guard, checked entry by entry. -/
def alone (room : Room) (target : PeerId) : Bool :=
  (room.clients.entries ++ room.pending.entries).all fun e =>
    e.1 == target || (room.clients.lookup target).all fun info => e.2.clientHash != info.clientHash

theorem soleHash_of_alone {env : Env} {room : Room} {pid target : PeerId}
    (h : alone room target = true) : SoleHash env room (.control pid (.ban target)) := by
  rintro _ _ info ⟨⟩ _ ht q j hne hhash
  have hall := List.all_eq_true.mp h
  have hout : ∀ e : Sigma fun _ : PeerId => ClientInfo, e = ⟨q, j⟩ →
      e ∉ room.clients.entries ++ room.pending.entries := by
    rintro _ rfl hm
    simpa [hne, ht, hhash] using hall _ hm
  refine ⟨fun hp => ?_, fun hc => ?_⟩
  · exact absurd (List.mem_append_right _ (AList.mem_lookup_iff.mp hp)) (hout _ rfl)
  · exact absurd (List.mem_append_left _ (AList.mem_lookup_iff.mp hc)) (hout _ rfl)

/-- A host opens its room for three, two peers join with the same hash, and the host bans the
first of them. -/
def twins : List Action :=
  [sends 0 (plainHello "" "h"), sends 0 (.roomControl (.updateSettings .default)),
    sends 1 (plainHello "aaaaaa" "x"), sends 2 (plainHello "aaaaaa" "x"),
    sends 0 (.roomControl (.ban 2))]

/-- The second of them stays. -/
theorem banned_hash_stays : ¬ ∀ sys, Reachable sys → ∀ appKey key room,
    sys.roomAt appKey key = some room → Hold room := by
  intro hall
  have hrun : ((exec step .start twins).roomAt "pong" "aaaaaa").any (fun room =>
      (room.clients.lookup 3).any fun i => i.clientHash ∈ room.banned) = true := by decide
  obtain ⟨room, hr, hany⟩ := (Option.any_eq_true ..).mp hrun
  obtain ⟨i, hi, hb⟩ := (Option.any_eq_true ..).mp hany
  exact hall _ (reachable_exec twins) _ _ room hr 3 i (.inl hi) (by simpa using hb)

/-- The same run without the second of them. -/
def ousted : Sys :=
  exec step .start
    [sends 0 (plainHello "" "h"), sends 1 (plainHello "aaaaaa" "x"),
      sends 0 (.roomControl (.ban 2))]

theorem ousted_hold :
    (∀ room, ousted.roomAt "pong" "aaaaaa" = some room → Hold room) ∧
      ∃ room, (step ousted (sends 2 (plainHello "aaaaaa" "x"))).roomAt "pong" "aaaaaa" =
        some room ∧ ⟨"x"⟩ ∈ room.banned := by
  constructor
  · have hreach : Reaches step (OpGuard SoleHash) .start ousted := by
      refine Reaches.exec .refl ⟨.of_none rfl, .of_none rfl, ?_, trivial⟩
      · refine .of_some (s := ⟨"pong", ⟨"AAAAAA"⟩, 1⟩) (o := .control 1 (.ban 2)) rfl ?_
        intro room hr
        have hrun : ((exec step .start [sends 0 (plainHello "" "h"),
            sends 1 (plainHello "aaaaaa" "x")]).roomAt "pong" "aaaaaa").all
              (fun room => alone room 2) = true := by decide
        exact soleHash_of_alone ((Option.all_eq_true ..).mp hrun room hr)
    exact (bans_hold_and_last ousted).1 hreach "pong" "aaaaaa"
  · have hrun : (ousted.roomAt "pong" "aaaaaa").any (fun room => ⟨"x"⟩ ∈ room.banned) = true := by
      decide
    obtain ⟨room, hr, hb⟩ := (Option.any_eq_true ..).mp hrun
    refine (bans_hold_and_last ousted).2 (reachable_exec _) _ _ room ⟨"x"⟩ hr (by simpa using hb)
      [sends 2 (plainHello "aaaaaa" "x")] ⟨?_, trivial⟩
    rintro ⟨s, room, ⟨⟩, _⟩

end Roomie.Bans
