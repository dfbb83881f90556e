import Roomie.RoomInvariants

/-!
# Every room with members has a host among its clients

Admission, the commands, leaves and pruning each repair the host on their own. What they
have in common: a room whose host is a client is left with such a host or without clients,
unless the host expels itself. Without clients the room may still have pending peers, and
these two cases are the only ways to lose the host.
-/

namespace Roomie.Hosts
open HashTables GuardedRuns

/-- The host is an accepted client. -/
def Hosted (room : Room) : Prop := room.hostPeerId ∈ room.clients

/-- A room with any member has a host among its clients. -/
def HostKnown (room : Room) : Prop := room.isVacant = false → Hosted room

/-- The host kicks or bans itself. -/
def ExpelsItself (room : Room) (o : RoomOp) : Prop :=
  o = .control room.hostPeerId (.kick room.hostPeerId) ∨
    o = .control room.hostPeerId (.ban room.hostPeerId)

/-- The operation broadcasts, and so finds out about closed channels. -/
def Broadcasts (room : Room) : RoomOp → Prop
  | .leave _ => True
  | .move pid _ => room.hostPeerId = pid ∧ room.moveAllowed
  | .control pid rc => room.hostPeerId = pid ∧
    match rc with
    | .updateSettings _ | .kick _ | .ban _ => True
    | .acceptPeer target => target ∈ room.pending
    | .transferHost target => target ∈ room.clients
    | .setPublic _ | .denyPeer _ | .leave | .createRoom _ => False

/-- Some client has a channel that stays open. -/
def HasLasting (env : Env) (room : Room) : Prop :=
  ∃ p i, room.clients.lookup p = some i ∧ env.Live i.tx

/-- No pending peer outlives the operation: there is none, or it is a move, which prunes pending
peers too, and all their channels are dead. -/
def NobodyWaits (env : Env) (room : Room) (o : RoomOp) : Prop :=
  ∀ p i, room.pending.lookup p = some i → (∃ pid blob, o = .move pid blob) ∧ env.Dead i.tx

/-- A host expels itself only when nobody else stays; and an operation that prunes leaves a
client behind when somebody is pending. -/
def KeepsHost (env : Env) (room : Room) (o : RoomOp) : Prop :=
  (ExpelsItself room o → NobodyWaits env (o.edit room) o ∧
    ∀ p i, (o.edit room).clients.lookup p = some i → env.Dead i.tx) ∧
  (¬ ExpelsItself room o → Broadcasts room o →
    HasLasting env (o.edit room) ∨ NobodyWaits env (o.edit room) o)

theorem isVacant_of_hasMember {room room' : Room} (hv : room.isVacant = true)
    (hm : ∀ p i, room'.HasMember p i → room.HasMember p i) : room'.isVacant = true := by
  obtain ⟨hc, hp⟩ := Room.isVacant_iff.mp hv
  have hnone : ∀ p i, ¬ room'.HasMember p i := by
    intro p i h
    rcases hm p i h with h | h
    · exact hc p (AList.mem_of_lookup h)
    · exact hp p (AList.mem_of_lookup h)
  refine Room.isVacant_iff.mpr ⟨fun p h => ?_, fun p h => ?_⟩
  · obtain ⟨i, hi⟩ := AList.mem_iff_lookup.mp h
    exact hnone p i (.inl hi)
  · obtain ⟨i, hi⟩ := AList.mem_iff_lookup.mp h
    exact hnone p i (.inr hi)

/-! ## The edits -/

theorem control_edit_hosted {room : Room} {rc : RoomControl} (h : Hosted room)
    (hk : rc ≠ .kick room.hostPeerId) (hb : rc ≠ .ban room.hostPeerId) : Hosted (rc.edit room) := by
  have hdrop : ∀ pid, pid ≠ room.hostPeerId → Hosted (room.dropClient pid) := fun pid hne =>
    AList.mem_erase.mpr ⟨hne.symm, h⟩
  cases rc with
  | kick pid => exact hdrop pid fun heq => hk (heq ▸ rfl)
  | ban pid =>
    simp only [RoomControl.edit]
    split
    · exact hdrop pid fun heq => hb (heq ▸ rfl)
    · exact h
  | acceptPeer pid =>
    simp only [RoomControl.edit]
    split
    · exact (AList.mem_insert _).mpr (.inr h)
    · exact h
  | transferHost pid =>
    simp only [RoomControl.edit]
    split_ifs with hp
    · exact hp
    · exact h
  | _ => exact h

theorem edit_hosted {room : Room} {o : RoomOp} (h : Hosted room) (hl : ∀ pid, o ≠ .leave pid)
    (he : ¬ ExpelsItself room o) : Hosted (o.edit room) := by
  cases o with
  | leave pid => exact absurd rfl (hl pid)
  | move pid blob =>
    simp only [RoomOp.edit]
    split_ifs <;> exact h
  | control pid rc =>
    simp only [RoomOp.edit]
    split_ifs with hh
    · refine control_edit_hosted h (fun hk => he ?_) fun hb => he ?_
      · exact .inl (by rw [hk, hh])
      · exact .inr (by rw [hb, hh])
    · exact h

/-- Without pruning an operation is its edit. -/
theorem run_of_not_broadcasts {env : Env} {room : Room} {o : RoomOp} {net : Net}
    (h : ¬ Broadcasts room o) : (o.run env room net).1 = o.edit room := by
  cases o with
  | leave pid => exact absurd trivial h
  | move pid blob =>
    by_cases hh : room.hostPeerId = pid
    · cases hm : room.moveAllowed with
      | true => exact absurd ⟨hh, hm⟩ h
      | false => simp [RoomOp.run, RoomOp.edit, Room.move, hh, hm]
    · simp [RoomOp.run, RoomOp.edit, Room.move, hh]
  | control pid rc =>
    by_cases hh : room.hostPeerId = pid
    · simp only [RoomOp.run, RoomOp.edit, Room.control, hh, if_true]
      cases rc with
      | updateSettings settings => exact absurd ⟨hh, trivial⟩ h
      | kick target => exact absurd ⟨hh, trivial⟩ h
      | ban target => exact absurd ⟨hh, trivial⟩ h
      | acceptPeer target =>
        have hn : room.pending.lookup target = none :=
          AList.lookup_eq_none.mpr fun hm => h ⟨hh, hm⟩
        simp [Room.command, Room.acceptPeer, RoomControl.edit, hn]
      | transferHost target =>
        have hn : target ∉ room.clients := fun hm => h ⟨hh, hm⟩
        simp [Room.command, Room.transferHost, RoomControl.edit, hn]
      | denyPeer target =>
        simp only [Room.command, Room.denyPeer, RoomControl.edit]
        cases hn : room.pending.lookup target with
        | some info => rfl
        | none => rw [AList.erase_of_notMem (AList.lookup_eq_none.mp hn)]
      | _ => rfl
    · simp [RoomOp.run, RoomOp.edit, Room.control, hh]

/-! ## One operation -/

/-- A leave of the host hands over, a leave of another one keeps the host. -/
theorem removePeer_hosted {env : Env} {room : Room} {pid : PeerId} {net : Net} (h : Hosted room) :
    Hosted (room.removePeer env pid net).1 ∨
      (room.removePeer env pid net).1.clients.isEmpty = true := by
  obtain ⟨mid, hp, hcases⟩ := room.removePeer_cases env pid net
  have hmid : mid.hostPeerId = pid ∨ Hosted mid ∨ mid.clients.isEmpty = true := by
    by_cases hh : room.hostPeerId = pid
    · left
      refine (hp.hostOut ?_).trans hh
      rintro i (hi | hi)
      · exact (AList.lookup_erase_some.mp hi).1 hh
      · exact (AList.lookup_erase_some.mp hi).1 hh
    · exact .inr (hp.host (AList.mem_erase.mpr ⟨hh, h⟩))
  rcases hcases with ⟨hne, heq⟩ | ⟨_, hempty, heq⟩ | ⟨newHost, _, hmem, hp'⟩
  · rw [heq]
    exact hmid.resolve_left hne
  · exact .inr (heq ▸ hempty)
  · exact hp'.host hmem

/-- An operation of any kind leaves a host among the clients or no client at all. -/
theorem run_hosted_or_bare (env : Env) {room : Room} {o : RoomOp} (net : Net) (h : Hosted room)
    (he : ¬ ExpelsItself room o) :
    Hosted (o.run env room net).1 ∨ (o.run env room net).1.clients.isEmpty = true := by
  cases o with
  | leave pid => exact removePeer_hosted h
  | move pid blob => exact (room.move_prunedTo env pid blob net).host (edit_hosted h (by simp) he)
  | control pid rc => exact (room.control_prunedTo env pid rc net).host (edit_hosted h (by simp) he)

/-- An operation that broadcasts leaves nobody pending when nobody waits. -/
theorem pending_of_nobodyWaits {env : Env} {room : Room} {o : RoomOp} (net : Net)
    (h : NobodyWaits env (o.edit room) o) (hb : Broadcasts room o) :
    ∀ p, p ∉ (o.run env room net).1.pending := by
  intro p hp
  obtain ⟨i, hi⟩ := AList.mem_iff_lookup.mp hp
  have hi' := (o.run_shrunkTo env room net).pending p i hi
  obtain ⟨⟨pid, blob, rfl⟩, hdead⟩ := h p i hi'
  obtain ⟨hh, hm⟩ := hb
  have hdrops := @broadcastStateUpdateAndPrune_drops env { room with state := blob } _ _
    (by simpa [RoomOp.edit, hh, hm] using hi') hdead net
  exact hdrops (by simpa [RoomOp.run, Room.move, hh, hm] using hp)

/-- When the host expels itself and all other channels are dead, no client is left. -/
theorem expel_empties {env : Env} {room : Room} {o : RoomOp} (net : Net)
    (he : ExpelsItself room o)
    (hd : ∀ p i, (o.edit room).clients.lookup p = some i → env.Dead i.tx) :
    ∀ p, p ∉ (o.run env room net).1.clients := by
  intro p hp
  obtain ⟨i, hi⟩ := AList.mem_iff_lookup.mp hp
  have hi' := (o.run_shrunkTo env room net).clients p i hi
  have hdead := hd p i hi'
  have hexpel : ∀ (event : RoomEvent) (mark : Room → ClientInfo → Room),
      (∀ r info, (mark r info).clients = r.clients) →
      (room.dropClient room.hostPeerId).clients.lookup p = some i →
      p ∉ (room.expel env event mark room.hostPeerId net).1.clients := by
    intro event mark hmark hlook
    cases hh : room.clients.lookup room.hostPeerId with
    | some info =>
      rw [Room.expel_some hh]
      exact broadcastAndPrune_drops (by rwa [hmark]) hdead _ _
    | none =>
      rw [Room.expel_none hh]
      exact broadcastAndPrune_drops (AList.lookup_erase_some.mp hlook).2 hdead _ _
  have hlook : (room.dropClient room.hostPeerId).clients.lookup p = some i := by
    rcases he with rfl | rfl
    · simpa [RoomOp.edit, RoomControl.edit] using hi'
    · simp only [RoomOp.edit, RoomControl.edit, if_true] at hi'
      split at hi'
      · exact hi'
      · rename_i hn
        rwa [Room.dropClient_of_notMem (AList.lookup_eq_none.mp hn)]
  rcases he with rfl | rfl
  · exact hexpel .kicked _ (fun _ _ => rfl) hlook
      (by simpa [RoomOp.run, Room.control, Room.command, Room.kick] using hp)
  · exact hexpel .banned (fun room info => { room with banned := insert info.clientHash room.banned })
      (fun _ _ => rfl) hlook (by simpa [RoomOp.run, Room.control, Room.command, Room.ban] using hp)

theorem seat_hosted {room : Room} {pid : PeerId} {info : ClientInfo} (h : HostKnown room) :
    Hosted (room.seat pid info) := by
  unfold Room.seat
  split_ifs with hv
  · exact (AList.mem_insert _).mpr (.inl rfl)
  · exact h (by simpa using hv)
  · exact (AList.mem_insert _).mpr (.inr (h (by simpa using hv)))

theorem run_hostKnown {env : Env} {room : Room} {o : RoomOp} {net : Net} (hd : room.Disjoint)
    (h : HostKnown room) (hg : KeepsHost env room o) : HostKnown (o.run env room net).1 := by
  intro hv
  -- a vacant room stays vacant, so the host was a client before
  have hhost : Hosted room := by
    cases hr : room.isVacant with
    | false => exact h hr
    | true =>
      have hvac := @isVacant_of_hasMember _ (o.run env room net).1 hr
        fun p i => RoomOp.run_hasMember
      exact absurd hvac (by simp [hv])
  by_cases he : ExpelsItself room o
  · have hb : Broadcasts room o := by rcases he with rfl | rfl <;> exact ⟨rfl, trivial⟩
    obtain ⟨hwait, hdead⟩ := hg.1 he
    have hvac := Room.isVacant_iff.mpr ⟨expel_empties net he hdead,
      pending_of_nobodyWaits net hwait hb⟩
    exact absurd hvac (by simp [hv])
  by_cases hb : Broadcasts room o
  · rcases run_hosted_or_bare env net hhost he with hhosted | hbare
    · exact hhosted
    have hbare' := AList.isEmpty_iff.mp hbare
    rcases hg.2 he hb with ⟨p, i, hi, hlive⟩ | hwait
    · have hstay := (o.run_shrunkTo env room net).survives (RoomOp.edit_disjoint hd) hi hlive
      exact absurd (AList.mem_of_lookup hstay) (hbare' p)
    · have hvac := Room.isVacant_iff.mpr ⟨hbare', pending_of_nobodyWaits net hwait hb⟩
      exact absurd hvac (by simp [hv])
  · rw [run_of_not_broadcasts hb]
    refine edit_hosted hhost ?_ he
    rintro pid rfl
    exact hb trivial

/-! ## All runs -/

theorem invariant : RoomInvariant KeepsHost fun room => room.Disjoint ∧ HostKnown room where
  create appKey code settings hgen :=
    ⟨disjoint_invariant.create appKey code settings hgen, fun hv => by simp [Room.isVacant, Room.new] at hv⟩
  count _ _ h := h
  op env room o net h hg :=
    ⟨disjoint_invariant.op env room o net h.1 trivial, run_hostKnown h.1 h.2 hg⟩
  admitPeer env me code h room net room' net' pid joined hv hI ha := by
    refine ⟨disjoint_invariant.admitPeer env me code h room net room' net' pid joined hv hI.1 ha, ?_⟩
    obtain ⟨n, rfl⟩ := ha.seated
    exact fun _ => seat_hosted hI.2

/-- While no host expels itself from others and no prune leaves only pending peers behind, every
room with members has a host among its clients. -/
theorem host_known (sys : Sys) (h : Reaches step (OpGuard KeepsHost) .start sys) :
    ∀ appKey key room, sys.roomAt appKey key = some room → HostKnown room :=
  fun appKey key room hr => (invariant.reaches (fun _ _ h => h) h appKey key room hr).2

theorem keepsHost_of_clear {env : Env} {room : Room} {o : RoomOp} (hc : env.Clear)
    (he : ¬ ExpelsItself room o) (hn : (o.edit room).clients.isEmpty = false) :
    KeepsHost env room o := by
  refine ⟨fun h => absurd h he, fun _ _ => .inl ?_⟩
  obtain ⟨p, hp⟩ := AList.isEmpty_eq_false_iff.mp hn
  obtain ⟨i, hi⟩ := AList.mem_iff_lookup.mp hp
  exact ⟨p, i, hi, hc.live i.tx⟩

/-- Two peers in a room. -/
def pair : List Action := [sends 0 (plainHello "" "h"), sends 1 (plainHello "aaaaaa" "x")]

/-- The host makes the other one host and leaves. -/
def handover : List Action :=
  pair ++ [sends 0 (.roomControl (.transferHost 2)), sends 0 (.roomControl .leave)]

theorem handover_keeps_host : ∃ room,
    (exec step .start handover).roomAt "pong" "aaaaaa" = some room ∧ HostKnown room := by
  have hsome : ((exec step .start handover).roomAt "pong" "aaaaaa").isSome = true := by decide
  obtain ⟨room, hr⟩ := Option.isSome_iff_exists.mp hsome
  refine ⟨room, hr, host_known (exec step .start handover) ?_ "pong" "aaaaaa" room hr⟩
  refine Reaches.exec .refl ⟨.of_none rfl, .of_none rfl, ?_, ?_, trivial⟩
  · refine .of_some (s := ⟨"pong", ⟨"AAAAAA"⟩, 1⟩) (o := .control 1 (.transferHost 2)) rfl ?_
    intro room hr
    have hrun : ((exec step .start pair).roomAt "pong" "aaaaaa").all (fun room =>
        !((RoomOp.control 1 (.transferHost 2)).edit room).clients.isEmpty) = true := by decide
    refine keepsHost_of_clear Env.quiet_clear (by simp [ExpelsItself]) ?_
    simpa using (Option.all_eq_true ..).mp hrun room hr
  · refine .of_some (s := ⟨"pong", ⟨"AAAAAA"⟩, 1⟩) (o := .leave 1) rfl ?_
    intro room hr
    have hrun : ((exec step .start (handover.take 3)).roomAt "pong" "aaaaaa").all (fun room =>
        !((RoomOp.leave 1).edit room).clients.isEmpty) = true := by decide
    refine keepsHost_of_clear Env.quiet_clear (by simp [ExpelsItself]) ?_
    simpa using (Option.all_eq_true ..).mp hrun room hr

/-- The host kicks itself and the other one is left without a host. -/
theorem self_kick_loses_host : ¬ ∀ sys, Reachable sys → ∀ appKey key room,
    sys.roomAt appKey key = some room → HostKnown room := by
  intro hall
  have hrun : ((exec step .start (pair ++ [sends 0 (.roomControl (.kick 1))])).roomAt
      "pong" "aaaaaa").any
        (fun room => !room.isVacant && !room.clients.keys.contains room.hostPeerId) = true := by
    decide
  obtain ⟨room, hr, hlost⟩ := (Option.any_eq_true ..).mp hrun
  obtain ⟨hv, hh⟩ := Bool.and_eq_true_iff.mp hlost
  have hhosted : room.hostPeerId ∈ room.clients :=
    hall _ (reachable_exec _) _ _ room hr (by simpa using hv)
  simp [AList.mem_keys.mp hhosted] at hh

end Roomie.Hosts
