import Roomie.Seats
import Roomie.SentMessages

/-!
# Rooms do not disturb each other, and only the host commands

A message touches the room of the session and the one a `Hello` names, and nothing is sent to
members of any other. A connection that is no host can only leave and enter; the data of a
room and its other members stay as they are, up to members whose channel turns out closed.
-/

namespace Roomie.Isolation
open HashTables GuardedRuns Seats

/-- The session of the acting connection is for this room. -/
def OwnRoom (sys : Sys) (a : Action) (appKey key : String) : Prop :=
  ∃ s, sys.session a.conn = some s ∧ s.appKey = appKey ∧ s.roomCode.key = key

/-- The action is a `Hello` that names this room. -/
def Targets (a : Action) (appKey key : String) : Prop :=
  ∃ h, a.event = .message (.hello h) ∧ h.roomCode.str.isEmpty = false ∧ h.appKey = appKey ∧
    h.roomCode.key = key

/-- The connection has no session, or the host of its room goes by another id. -/
def NoHost (sys : Sys) (a : Action) : Prop :=
  ∀ s room, sys.session a.conn = some s → sys.roomAt s.appKey s.roomCode.key = some room →
    s.peerId ≠ room.hostPeerId

/-! ## Other rooms -/

section
variable {sys : Sys} {a : Action} {appKey key : String} {room room' : Room}

theorem not_own (h : ¬ OwnRoom sys a appKey key) (s : Session) (hs : sys.session a.conn = some s) :
    ¬ (appKey = s.appKey ∧ key = s.roomCode.key) :=
  fun hk => h ⟨s, hs, hk.1.symm, hk.2.symm⟩

theorem hello_elsewhere {env : Env} {h : Hello} {s : Server} {net : Net} {o : Outcome}
    (event : a.event = .message (.hello h)) (hres : HelloResult env a.conn h s net o)
    (hr : s.roomAt appKey key = some room) (ht : ¬ Targets a appKey key) :
    o.server.roomAt appKey key = some room := by
  have hopened : ∀ {s₁ s₂ s' : Server} {code : RoomCode} {found : Room} {put : Option Room},
      helloGate env s h = .ok s₁ → Opened s₁ h s₂ code found →
      RoomPut s₂ h.appKey code.key put s' → s'.roomAt appKey key = some room := by
    intro s₁ s₂ s' code found put gate opened hput
    have hr₁ : s₁.roomAt appKey key = some room := ((helloGate_ok gate).2 appKey key).trans hr
    have hk : ¬ (appKey = h.appKey ∧ key = code.key) := by
      rintro ⟨rfl, rfl⟩
      rcases opened.origin with ⟨hne, rfl, _⟩ | ⟨_, hnone, _⟩
      · exact ht ⟨h, event, hne, rfl, rfl⟩
      · cases hnone.symm.trans hr₁
    rw [hput.elsewhere hk, opened.put.elsewhere hk, hr₁]
  cases hres with
  | refused same => exact (same appKey key).trans hr
  | rejected gate opened _ _ put => exact hopened gate opened put
  | joined gate opened _ put => exact hopened gate opened put

/-- A room that is neither left nor entered is not changed. -/
theorem step_elsewhere (hr : sys.roomAt appKey key = some room) (ho : ¬ OwnRoom sys a appKey key)
    (ht : ¬ Targets a appKey key) : (step sys a).roomAt appKey key = some room := by
  change (a.outcome sys).server.roomAt appKey key = some room
  have hleft : (leaveSession a.env sys.server (sys.session a.conn) []).1.roomAt appKey key =
      some room := (leaveSession_elsewhere (not_own ho)).trans hr
  have hres := Action.result sys a
  revert hres
  generalize a.outcome sys = out
  intro hres
  cases hres with
  | idle same => exact (same appKey key).trans hr
  | read _ _ same _ => exact (same appKey key).trans hr
  | op hs _ _ _ put => exact (put.elsewhere (not_own ho _ hs)).trans hr
  | left _ => exact hleft
  | hello event _ result => exact hello_elsewhere event result hleft ht

/-- Somebody in the room the connection is in, or in the one its `Hello` names. -/
def Concerned (sys : Sys) (a : Action) (tx : ConnId) : Prop :=
  ∃ appKey key room p i, (OwnRoom sys a appKey key ∨ Targets a appKey key) ∧
    sys.roomAt appKey key = some room ∧ room.HasMember p i ∧ i.tx = tx

theorem leaveSession_addressed :
    ∀ x ∈ (leaveSession a.env sys.server (sys.session a.conn) []).2, Concerned sys a x.1 := by
  cases hs : sys.session a.conn with
  | none => simp [leaveSession]
  | some s =>
    simp only [leaveSession]
    cases hr : sys.server.roomAt s.appKey s.roomCode.key with
    | none => simp [leaveRoom_none hr]
    | some room =>
      rw [leaveRoom_net hr]
      intro x hx
      obtain ⟨⟨p, i, hm, htx⟩, _⟩ := (RoomOp.leave s.peerId).run_sent a.env room x hx
      exact ⟨_, _, room, p, i, .inl ⟨s, hs, rfl, rfl⟩, hr, hm, htx⟩

theorem hello_addressed {h : Hello} {o : Outcome} (event : a.event = .message (.hello h))
    (hres : HelloResult a.env a.conn h
      (leaveSession a.env sys.server (sys.session a.conn) []).1
      (leaveSession a.env sys.server (sys.session a.conn) []).2 o) :
    ∀ x ∈ o.net, Concerned sys a x.1 := by
  cases hres with
  | refused _ _ => exact leaveSession_addressed
  | rejected _ _ _ _ _ => exact leaveSession_addressed
  | @joined s₁ s₂ s' code room room' net' pid joined gate opened admitted put =>
    refine admitted.sent (Q := fun tx _ => Concerned sys a tx) (fun p i hm => ?_)
      leaveSession_addressed
    rcases opened.origin with ⟨hne, rfl, hat⟩ | ⟨_, _, _, app, settings, rfl⟩
    · have hat' := ((helloGate_ok gate).2 h.appKey h.roomCode.key).symm.trans hat
      obtain ⟨⟨before, hb, hm⟩, _⟩ := leaveSession_hasMember hat' hm
      exact ⟨_, _, before, p, i, .inr ⟨h, event, hne, rfl, rfl⟩, hb, hm, rfl⟩
    · rcases hm with hm | hm <;> simp [Room.new] at hm

/-- Messages go to the connection itself and to those concerned. -/
theorem attempts_addressed (sys : Sys) (a : Action) :
    ∀ x ∈ a.attempts sys, x.1 = a.conn ∨ Concerned sys a x.1 := by
  suffices h : ∀ x ∈ (a.outcome sys).net, Concerned sys a x.1 by
    refine List.forall_mem_append.mpr ⟨fun x hx => .inr (h x hx), fun x hx => .inl ?_⟩
    obtain ⟨m, _, rfl⟩ := List.mem_map.mp hx
    rfl
  have hres := Action.result sys a
  revert hres
  generalize a.outcome sys = out
  intro hres
  cases hres with
  | idle _ _ _ => simp
  | @read s room s' net replies hs found _ reads =>
    intro x hx
    rcases reads with ⟨blob, _, rfl, _⟩ | ⟨_, rfl, _⟩
    · simp only [Room.input] at hx
      split_ifs at hx
      · cases hhost : room.clients.lookup room.hostPeerId with
        | none => simp [hhost] at hx
        | some host =>
          simp only [hhost, trySend, List.nil_append] at hx
          rw [List.mem_singleton.mp hx]
          exact ⟨_, _, room, _, host, .inl ⟨s, hs, rfl, rfl⟩, found, .inl hhost, rfl⟩
      · simp at hx
    · simp at hx
  | @op s o room s' hs _ _ found _ =>
    intro x hx
    obtain ⟨⟨p, i, hm, htx⟩, _⟩ := o.run_sent a.env room x hx
    exact ⟨_, _, room, p, i, .inl ⟨s, hs, rfl, rfl⟩, found, hm, htx⟩
  | left _ => exact leaveSession_addressed
  | hello event _ result => exact hello_addressed event result

/-- Members of other rooms are sent nothing. -/
theorem members_unheard (hs : Seated sys) (hr : sys.roomAt appKey key = some room)
    (ho : ¬ OwnRoom sys a appKey key) (ht : ¬ Targets a appKey key) {p : PeerId} {i : ClientInfo}
    (hm : room.HasMember p i) (m : ServerMessage) : (i.tx, m) ∉ a.attempts sys := by
  intro hsent
  rcases attempts_addressed sys a _ hsent with htx | ⟨app, key', other, q, j, hwhy, hother, hj, htx⟩
  · obtain ⟨s, hsess, happ, hkey, _⟩ := hs _ _ _ _ _ hr hm
    exact ho ⟨s, by simpa using htx ▸ hsess, happ, hkey⟩
  · obtain ⟨rfl, rfl, _⟩ := hs.unique hother hj hr hm htx
    exact hwhy.elim ho ht

end

/-! ## Guests -/

/-- What a connection that is no host can change in a room: the ids in `out` may be removed and
those in `come` be added for it. -/
structure GuestChange (env : Env) (me : ConnId) (out come : PeerId → Prop) (room room' : Room) :
    Prop where
  state : room'.state = room.state
  settings : room'.settings = room.settings
  banned : room'.banned = room.banned
  host : room'.hostPeerId ≠ room.hostPeerId →
    room.HostLost env ∨ room.isVacant = true ∧ come room'.hostPeerId
  clients : ∀ p i, room.clients.lookup p = some i →
    room'.clients.lookup p = some i ∨ out p ∨ ∃ n, env.chan n i.tx = .closed
  pending : ∀ p i, room.pending.lookup p = some i →
    room'.pending.lookup p = some i ∨ out p ∨ ∃ n, env.chan n i.tx = .closed
  newClients : ∀ p i, room'.clients.lookup p = some i →
    room.clients.lookup p = some i ∨ come p ∧ i.tx = me
  newPending : ∀ p i, room'.pending.lookup p = some i →
    room.pending.lookup p = some i ∨ come p ∧ i.tx = me

section
variable {env : Env} {me : ConnId} {out come : PeerId → Prop} {room mid room' : Room}

theorem GuestChange.refl (room : Room) (n : PeerId) :
    GuestChange env me out come room { room with peerCounter := n } where
  state := rfl
  settings := rfl
  banned := rfl
  host h := absurd rfl h
  clients _ _ h := .inl h
  pending _ _ h := .inl h
  newClients _ _ h := .inl h
  newPending _ _ h := .inl h

/-- First the old seat is given up, then a new one taken. -/
theorem GuestChange.trans (h : GuestChange env me out (fun _ => False) room mid)
    (h' : GuestChange env me (fun _ => False) come mid room')
    (hv : mid.isVacant = true → room.isVacant = true) : GuestChange env me out come room room' where
  state := h'.state.trans h.state
  settings := h'.settings.trans h.settings
  banned := h'.banned.trans h.banned
  host hne := by
    by_cases hmid : mid.hostPeerId = room.hostPeerId
    · rcases h'.host (hmid ▸ hne) with ⟨i, n, hi, hn⟩ | ⟨hvac, hcome⟩
      · refine .inl ⟨i, n, hmid ▸ ?_, hn⟩
        exact hi.imp (fun hi => by simpa using h.newClients _ _ hi)
          fun hi => by simpa using h.newPending _ _ hi
      · exact .inr ⟨hv hvac, hcome⟩
    · exact .inl ((h.host hmid).resolve_right fun hf => hf.2)
  clients p i hi := by
    rcases h.clients p i hi with hi | hout
    · exact (h'.clients p i hi).imp_right fun hf => .inr (hf.resolve_left id)
    · exact .inr hout
  pending p i hi := by
    rcases h.pending p i hi with hi | hout
    · exact (h'.pending p i hi).imp_right fun hf => .inr (hf.resolve_left id)
    · exact .inr hout
  newClients p i hi := by
    rcases h'.newClients p i hi with hi | hcome
    · exact .inl (by simpa using h.newClients p i hi)
    · exact .inr hcome
  newPending p i hi := by
    rcases h'.newPending p i hi with hi | hcome
    · exact .inl (by simpa using h.newPending p i hi)
    · exact .inr hcome

/-- When a guest leaves, the host changes only if its channel is closed. -/
theorem removePeer_host {pid : PeerId} {net : Net} (hne : room.hostPeerId ≠ pid) :
    (room.removePeer env pid net).1.hostPeerId = room.hostPeerId ∨ room.HostLost env := by
  obtain ⟨mid, hp, hcases⟩ := room.removePeer_cases env pid net
  have hmid : mid.hostPeerId = room.hostPeerId ∨ room.HostLost env := by
    refine hp.hostLost.imp_right ?_
    rintro ⟨i, n, hi, hn⟩
    exact ⟨i, n, RoomOp.edit_hasMember (o := .leave pid) hi, hn⟩
  rcases hmid with hkept | hlost
  · rcases hcases with ⟨_, heq⟩ | ⟨hh, _, _⟩ | ⟨_, hh, _, _⟩
    · exact .inl (heq ▸ hkept)
    · exact absurd (hkept.symm.trans hh) hne
    · exact absurd (hkept.symm.trans hh) hne
  · exact .inr hlost

theorem removePeer_guestChange {pid : PeerId} {net : Net} (hd : room.Disjoint)
    (hne : room.hostPeerId ≠ pid) :
    GuestChange env me (· = pid) (fun _ => False) room (room.removePeer env pid net).1 := by
  have hshrunk := room.removePeer_shrunkTo env pid net
  have hdropped : (room.dropMember pid).Disjoint := RoomOp.edit_disjoint (o := .leave pid) hd
  have hdata := (drops_dropMember.data room pid).trans hshrunk.data
  refine
    { state := hdata.state
      settings := hdata.settings
      banned := hdata.banned
      host := fun h => .inl ((removePeer_host hne).resolve_left h)
      clients := fun p i hi => ?_
      pending := fun p i hi => ?_
      newClients := fun p i hi => .inl (AList.lookup_erase_some.mp (hshrunk.clients p i hi)).2
      newPending := fun p i hi => .inl (AList.lookup_erase_some.mp (hshrunk.pending p i hi)).2 }
  · by_cases hp : p = pid
    · exact .inr (.inl hp)
    · have hi' : (room.dropMember pid).clients.lookup p = some i :=
        AList.lookup_erase_some.mpr ⟨hp, hi⟩
      exact ((hshrunk.kept_or_closed hdropped).1 hi').imp_right .inr
  · by_cases hp : p = pid
    · exact .inr (.inl hp)
    · have hi' : (room.dropMember pid).pending.lookup p = some i :=
        AList.lookup_erase_some.mpr ⟨hp, hi⟩
      exact ((hshrunk.kept_or_closed hdropped).2 hi').imp_right .inr

theorem admitted_guestChange {code : RoomCode} {h : Hello} {net net' : Net} {pid : PeerId}
    {joined : ServerMessage} (ha : Room.Admitted env me code h room net room' net' pid joined) :
    GuestChange env me out (· = pid) room room' := by
  have hold : ∀ p i, room.HasMember p i → pid ≠ p := by
    rintro p i hi rfl
    exact hi.elim (fun hi => ha.fresh.1 (AList.mem_of_lookup hi))
      fun hi => ha.fresh.2 (AList.mem_of_lookup hi)
  have hnew : ∀ p i, room'.HasMember p i → p = pid ∧ i.tx = me ∨ pid ≠ p := by
    intro p i hi
    rcases ha.hasMember hi with ⟨rfl, rfl⟩ | hi
    · exact .inl ⟨rfl, rfl⟩
    · exact .inr (hold p i hi)
  refine
    { state := ha.data.1
      settings := ha.data.2.1
      banned := ha.data.2.2.1
      host := fun hne => .inr ?_
      clients := fun p i hi => .inl ((ha.kept (hold p i (.inl hi))).1.trans hi)
      pending := fun p i hi => .inl ((ha.kept (hold p i (.inr hi))).2.trans hi)
      newClients := fun p i hi => ?_
      newPending := fun p i hi => ?_ }
  · obtain ⟨n, rfl⟩ := ha.seated
    unfold Room.seat at hne ⊢
    split_ifs at hne ⊢ with hv
    · exact ⟨hv, rfl⟩
    · exact absurd rfl hne
    · exact absurd rfl hne
  · exact (hnew p i (.inl hi)).symm.imp_left fun hne => (ha.kept hne).1.symm.trans hi
  · exact (hnew p i (.inr hi)).symm.imp_left fun hne => (ha.kept hne).2.symm.trans hi

theorem GuestChange.mono {out' come' : PeerId → Prop} (h : GuestChange env me out come room room')
    (ho : ∀ p, out p → out' p) (hc : ∀ p, come p → come' p) :
    GuestChange env me out' come' room room' where
  state := h.state
  settings := h.settings
  banned := h.banned
  host hne := (h.host hne).imp_right fun hh => ⟨hh.1, hc _ hh.2⟩
  clients p i hi := (h.clients p i hi).imp_right fun hh => hh.imp_left (ho p)
  pending p i hi := (h.pending p i hi).imp_right fun hh => hh.imp_left (ho p)
  newClients p i hi := (h.newClients p i hi).imp_right fun hh => ⟨hc p hh.1, hh.2⟩
  newPending p i hi := (h.newPending p i hi).imp_right fun hh => ⟨hc p hh.1, hh.2⟩

end

section
variable {sys : Sys} {a : Action} {appKey key : String} {room room' : Room}

/-- An operation on behalf of a guest does nothing, unless the guest leaves. -/
theorem run_of_guest {env : Env} {s : Session} {o : RoomOp} (hop : a.op sys = some (s, o))
    (hl : ∀ pid, o ≠ .leave pid) (hne : s.peerId ≠ room.hostPeerId) :
    (o.run env room []).1 = room := by
  rcases (Action.op_cases hop).2 with ⟨rfl, _⟩ | ⟨blob, _, rfl⟩ | ⟨rc, _, rfl⟩
  · exact absurd rfl (hl _)
  · simp [RoomOp.run, Room.move, hne.symm]
  · simp [RoomOp.run, Room.control, hne.symm]

theorem leaveSession_guestChange (hd : room.Disjoint) (hg : NoHost sys a)
    (hp : ∀ s, sys.session a.conn = some s → a.op sys = some (s, .leave s.peerId))
    (hr : sys.roomAt appKey key = some room) (hn : ¬ a.Removes sys appKey key) :
    ∃ mid, (leaveSession a.env sys.server (sys.session a.conn) []).1.roomAt appKey key = some mid ∧
      GuestChange a.env a.conn (Names (sys.session a.conn) appKey key) (fun _ => False) room mid ∧
      (mid.isVacant = true → room.isVacant = true) := by
  have htrivial : OpGuard (fun _ _ _ => True) sys a := fun _ _ _ _ _ => trivial
  obtain ⟨mid, hmid, _⟩ := leaveSession_life htrivial hp hr hn
  refine ⟨mid, hmid, ?_⟩
  obtain ⟨before, hb, ⟨rfl, _⟩ | ⟨old, hs, happ, hkey, rfl, hv⟩⟩ := leaveSession_roomAt hmid
  · obtain rfl := Option.some.inj (hr.symm.trans hb)
    exact ⟨.refl room room.peerCounter, id⟩
  · obtain rfl := Option.some.inj (hr.symm.trans hb)
    have hne := hg old room hs (by rw [happ, hkey]; exact hr)
    refine ⟨(removePeer_guestChange hd hne.symm).mono ?_ (fun _ hf => hf), by simp [hv]⟩
    rintro _ rfl
    exact ⟨old, hs, happ, hkey, rfl⟩

theorem guest_change (h : Reachable sys) (hg : NoHost sys a)
    (hr : sys.roomAt appKey key = some room) (hn : ¬ a.Removes sys appKey key)
    (hr' : (step sys a).roomAt appKey key = some room') :
    GuestChange a.env a.conn (Names (sys.session a.conn) appKey key)
      (Names ((step sys a).session a.conn) appKey key) room room' := by
  have hd := reachable_disjoint h hr
  have hsession : (step sys a).session a.conn = (a.outcome sys).session := Function.update_self ..
  rw [hsession]
  change (a.outcome sys).server.roomAt appKey key = some room' at hr'
  have hres := Action.result sys a
  revert hres hr'
  generalize a.outcome sys = out
  intro hr' hres
  cases hres with
  | idle same =>
    obtain rfl := Option.some.inj (((same appKey key).trans hr).symm.trans hr')
    exact .refl room room.peerCounter
  | read _ _ same _ =>
    obtain rfl := Option.some.inj (((same appKey key).trans hr).symm.trans hr')
    exact .refl room room.peerCounter
  | @op s o old s' hs performs stays found put =>
    by_cases hk : appKey = s.appKey ∧ key = s.roomCode.key
    · obtain ⟨rfl, rfl⟩ := hk
      obtain rfl := Option.some.inj (found.symm.trans hr)
      obtain rfl := Option.some.inj (put.here.symm.trans hr')
      rw [run_of_guest performs stays (hg s old hs hr)]
      exact .refl old old.peerCounter
    · obtain rfl := Option.some.inj (((put.elsewhere hk).trans hr).symm.trans hr')
      exact .refl room room.peerCounter
  | left performs =>
    obtain ⟨mid, hmid, hchange, _⟩ := leaveSession_guestChange hd hg performs hr hn
    obtain rfl := Option.some.inj (hmid.symm.trans hr')
    exact hchange.mono (fun _ ho => ho) fun _ hf => hf.elim
  | hello event performs result =>
    obtain ⟨mid, hmid, hchange, hvacant⟩ := leaveSession_guestChange hd hg performs hr hn
    refine hchange.trans ?_ hvacant
    rcases result.roomAt hr' with ⟨found, n, hat, rfl⟩ | ⟨hnone, _⟩ | ⟨found, pid, hlet⟩
    · obtain rfl := Option.some.inj (hmid.symm.trans hat)
      exact .refl mid n
    · cases hmid.symm.trans hnone
    · rcases hlet.origin with hat | ⟨hnone, _⟩
      · obtain rfl := Option.some.inj (hmid.symm.trans hat)
        obtain ⟨code, net', joined, rfl, hs, admitted⟩ := hlet.admitted
        refine (admitted_guestChange admitted).mono (fun _ hf => hf) ?_
        rintro _ rfl
        exact ⟨_, hs, hlet.app, rfl, rfl⟩
      · cases hmid.symm.trans hnone

/-! ## Hosts -/

/-- An operation changes the host by handing over, or because the host's channel is closed. -/
theorem run_host {env : Env} {o : RoomOp} (hl : ∀ pid, o ≠ .leave pid) :
    (o.run env room []).1.hostPeerId = room.hostPeerId ∨ room.HostLost env ∨
      ∃ pid target, o = .control pid (.transferHost target) ∧ target ∈ room.clients := by
  have hpruned : PrunedTo env (o.edit room) (o.run env room []).1 := by
    cases o with
    | leave pid => exact absurd rfl (hl pid)
    | move pid blob => exact room.move_prunedTo env pid blob []
    | control pid rc => exact room.control_prunedTo env pid rc []
  have hedit : (o.edit room).hostPeerId = room.hostPeerId ∨
      ∃ pid target, o = .control pid (.transferHost target) ∧ target ∈ room.clients := by
    cases o with
    | leave pid => exact .inl rfl
    | move pid blob =>
      simp only [RoomOp.edit]
      split_ifs <;> exact .inl rfl
    | control pid rc =>
      simp only [RoomOp.edit]
      split_ifs
      · cases rc with
        | transferHost target =>
          simp only [RoomControl.edit]
          split_ifs with hm
          · exact .inr ⟨pid, target, rfl, hm⟩
          · exact .inl rfl
        | acceptPeer target => simp only [RoomControl.edit]; split <;> exact .inl rfl
        | ban target => simp only [RoomControl.edit]; split <;> exact .inl rfl
        | _ => exact .inl rfl
      · exact .inl rfl
  rcases hedit with hkept | htransfer
  · rcases hpruned.hostLost with hsame | ⟨i, n, hi, hn⟩
    · exact .inl (hsame.trans hkept)
    · exact .inr (.inl ⟨i, n, RoomOp.edit_hasMember (hkept ▸ hi), hn⟩)
  · exact .inr (.inr htransfer)

theorem host_change {s : Session} (hs : sys.session a.conn = some s)
    (hr : sys.roomAt s.appKey s.roomCode.key = some room)
    (hr' : (step sys a).roomAt s.appKey s.roomCode.key = some room')
    (hne : room'.hostPeerId ≠ room.hostPeerId) :
    (∃ target, a.event = .message (.roomControl (.transferHost target)) ∧ target ∈ room.clients) ∨
      a.Departs ∨ room.HostLost a.env := by
  change (a.outcome sys).server.roomAt s.appKey s.roomCode.key = some room' at hr'
  have hres := Action.result sys a
  revert hres hr'
  generalize a.outcome sys = out
  intro hr' hres
  cases hres with
  | idle same =>
    obtain rfl := Option.some.inj (((same _ _).trans hr).symm.trans hr')
    exact absurd rfl hne
  | read _ _ same _ =>
    obtain rfl := Option.some.inj (((same _ _).trans hr).symm.trans hr')
    exact absurd rfl hne
  | @op s₁ o old s' hs₁ performs stays found put =>
    obtain rfl := Option.some.inj (hs₁.symm.trans hs)
    obtain rfl := Option.some.inj (found.symm.trans hr)
    obtain rfl := Option.some.inj (put.here.symm.trans hr')
    rcases run_host stays with hsame | hlost | ⟨pid, target, rfl, hm⟩
    · exact absurd hsame hne
    · exact .inr (.inr hlost)
    · exact .inl ⟨target, (Action.op_control performs).1, hm⟩
  | left performs => exact .inr (.inl (Action.op_leave (performs s hs)).2)
  | hello _ performs _ => exact .inr (.inl (Action.op_leave (performs s hs)).2)

/-- A room that a guest's leave removes had no members but the guest and ones with closed channels. -/
theorem removed_members (h : Reachable sys) (hg : NoHost sys a)
    (hr : sys.roomAt appKey key = some room) (hrm : a.Removes sys appKey key) {p : PeerId}
    {i : ClientInfo} (hm : room.HasMember p i) :
    Names (sys.session a.conn) appKey key p ∨ ∃ n, a.env.chan n i.tx = .closed := by
  obtain ⟨s, old, hop, rfl, rfl, hold, hv⟩ := hrm
  obtain rfl := Option.some.inj (hold.symm.trans hr)
  have hs := Action.op_session hop
  obtain ⟨hc, hp⟩ := Room.isVacant_iff.mp hv
  have hchange := @removePeer_guestChange a.env a.conn old s.peerId []
    (reachable_disjoint h hr) (hg s old hs hold).symm
  have hown : p = s.peerId → Names (sys.session a.conn) s.appKey s.roomCode.key p :=
    fun heq => ⟨s, hs, rfl, rfl, heq.symm⟩
  rcases hm with hi | hi
  · exact ((hchange.clients p i hi).resolve_left fun hi => hc p (AList.mem_of_lookup hi)).imp_left hown
  · exact ((hchange.pending p i hi).resolve_left fun hi => hp p (AList.mem_of_lookup hi)).imp_left hown

end

/-- Other rooms are not touched; a guest changes nothing but its own seat; and the host of a room
is replaced only by handing over, by its own departure or for a closed channel. -/
theorem isolated (sys : Sys) (h : Reachable sys) (a : Action) (appKey key : String) (room : Room)
    (hr : sys.roomAt appKey key = some room) :
    (¬ OwnRoom sys a appKey key → ¬ Targets a appKey key →
      (step sys a).roomAt appKey key = some room ∧
        ∀ p i m, room.HasMember p i → (i.tx, m) ∉ a.attempts sys) ∧
    (NoHost sys a →
      (¬ a.Removes sys appKey key → ∃ room', (step sys a).roomAt appKey key = some room' ∧
        GuestChange a.env a.conn (Names (sys.session a.conn) appKey key)
          (Names ((step sys a).session a.conn) appKey key) room room') ∧
      (a.Removes sys appKey key → ∀ p i, room.HasMember p i →
        Names (sys.session a.conn) appKey key p ∨ ∃ n, a.env.chan n i.tx = .closed)) ∧
    ∀ s room', sys.session a.conn = some s → s.appKey = appKey → s.roomCode.key = key →
      s.peerId = room.hostPeerId → (step sys a).roomAt appKey key = some room' →
      room'.hostPeerId ≠ room.hostPeerId →
        (∃ target, a.event = .message (.roomControl (.transferHost target)) ∧
          target ∈ room.clients) ∨ a.Departs ∨ room.HostLost a.env := by
  refine ⟨fun ho ht => ⟨step_elsewhere hr ho ht, ?_⟩, fun hg => ⟨fun hn => ?_, ?_⟩, ?_⟩
  · exact fun p i m hm => members_unheard (seated h) hr ho ht hm m
  · have htrivial : OpGuard (fun _ _ _ => True) sys a := fun _ _ _ _ _ => trivial
    obtain ⟨room', hr', _⟩ := step_life htrivial hr hn
    exact ⟨room', hr', guest_change h hg hr hn hr'⟩
  · exact fun hrm p i hm => removed_members h hg hr hrm hm
  · rintro s room' hs rfl rfl _ hr' hne
    exact host_change hs hr hr' hne

/-- Two connections with a room each. -/
def apart : Sys := exec step .start [sends 0 (plainHello "" "h"), sends 1 (plainHello "" "x")]

theorem other_room_untouched : ∃ room, apart.roomAt "pong" "aaaaaa" = some room ∧
    (step apart (sends 1 (.move [1]))).roomAt "pong" "aaaaaa" = some room ∧
      ∀ p i m, room.HasMember p i → (i.tx, m) ∉ (sends 1 (.move [1])).attempts apart := by
  have hrun : (apart.roomAt "pong" "aaaaaa").isSome = true := by decide
  have hsession : apart.session 1 = some ⟨"pong", ⟨"R0"⟩, 1⟩ := by decide
  obtain ⟨room, hr⟩ := Option.isSome_iff_exists.mp hrun
  refine ⟨room, hr, (isolated apart (reachable_exec _) _ _ _ room hr).1 ?_ ?_⟩
  · rintro ⟨s, hs, _, hkey⟩
    obtain rfl := Option.some.inj (hsession.symm.trans hs)
    exact absurd hkey (by decide)
  · rintro ⟨_, ⟨⟩, _⟩

end Roomie.Isolation
