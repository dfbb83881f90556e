import Roomie.ServerRuns

/-!
# Invariants of single rooms

Whatever an action does to the room under one code is a chain of a few changes: an
operation, the removal of a vacant room, the creation of a new one, an admission. An
invariant of rooms that survives each of them holds of every room in every reachable
state; operations may be restricted by a guard.
-/

namespace Roomie
open HashTables GuardedRuns

/-- The changes of a room that goes on living. -/
inductive RoomLife (env : Env) (g : Room → RoomOp → Prop) : Room → Room → Prop
  | refl (room : Room) : RoomLife env g room room
  | op {room : Room} {o : RoomOp} (net : Net) (allowed : g room o) :
      RoomLife env g room (o.run env room net).1
  | count (room : Room) (n : PeerId) : RoomLife env g room { room with peerCounter := n }
  | admitPeer {me : ConnId} {code : RoomCode} {h : Hello} {room room' : Room} {net net' : Net}
      {pid : PeerId} {joined : ServerMessage} (valid : h.Valid)
      (admitted : Room.Admitted env me code h room net room' net' pid joined) :
      RoomLife env g room room'
  | trans {r r' r'' : Room} : RoomLife env g r r' → RoomLife env g r' r'' → RoomLife env g r r''

/-- The changes an action makes to what is found under one code. -/
inductive RoomChange (env : Env) (g : Room → RoomOp → Prop) : Option Room → Option Room → Prop
  | refl (r : Option Room) : RoomChange env g r r
  | life {room room' : Room} : RoomLife env g room room' →
      RoomChange env g (some room) (some room')
  | destroy {room : Room} (vacant : room.isVacant = true) : RoomChange env g (some room) none
  | create {code : RoomCode} (generated : RoomPool.Generated code) (appKey : String)
      (settings : DefaultSettings) :
      RoomChange env g none (some (Room.new appKey code settings))
  | trans {r r' r'' : Option Room} : RoomChange env g r r' → RoomChange env g r' r'' →
      RoomChange env g r r''

variable {env : Env} {g : Room → RoomOp → Prop}

theorem SameRooms.change {s s' : Server} (h : SameRooms s s') (appKey key : String) :
    RoomChange env g (s.roomAt appKey key) (s'.roomAt appKey key) := by
  rw [h]
  exact .refl _

/-- A change at one place is a change everywhere. -/
theorem RoomPut.change {s s' : Server} {appKey key : String} {room : Option Room}
    (h : RoomPut s appKey key room s')
    (hc : RoomChange env g (s.roomAt appKey key) room) (appKey' key' : String) :
    RoomChange env g (s.roomAt appKey' key') (s'.roomAt appKey' key') := by
  rw [h]
  split_ifs with hk
  · rw [hk.1, hk.2]
    exact hc
  · exact .refl _

theorem leftBehind_change (room : Room) : RoomChange env g (some room) (leftBehind room) := by
  unfold leftBehind
  split_ifs with hv
  · exact .destroy hv
  · exact .refl _

theorem leaveSession_change {s : Server} {session : Option Session} (net : Net)
    (hg : ∀ old room, session = some old → s.roomAt old.appKey old.roomCode.key = some room →
      g room (.leave old.peerId)) (appKey key : String) :
    RoomChange env g (s.roomAt appKey key) ((leaveSession env s session net).1.roomAt appKey key) := by
  cases session with
  | none => exact .refl _
  | some old =>
    simp only [leaveSession]
    cases hr : s.roomAt old.appKey old.roomCode.key with
    | none =>
      rw [leaveRoom_none hr]
      exact .refl _
    | some room =>
      refine (leaveRoom_roomPut _ _ _ hr).change ?_ appKey key
      rw [hr]
      exact (RoomChange.life (.op net (hg old room rfl hr))).trans (leftBehind_change _)

theorem Opened.change {s s' : Server} {h : Hello} {code : RoomCode} {room : Room}
    (ho : Opened s h s' code room) (appKey key : String) :
    RoomChange env g (s.roomAt appKey key) (s'.roomAt appKey key) := by
  refine ho.put.change ?_ appKey key
  rcases ho.origin with ⟨_, _, hr⟩ | ⟨_, hr, hgen, app, settings, rfl⟩
  · rw [hr]
    exact .refl _
  · rw [hr]
    exact .create hgen app settings

theorem HelloResult.change {me : ConnId} {h : Hello} {s : Server} {net : Net} {o : Outcome}
    (hr : HelloResult env me h s net o) (appKey key : String) :
    RoomChange env g (s.roomAt appKey key) (o.server.roomAt appKey key) := by
  cases hr with
  | refused same => exact same.change appKey key
  | rejected gate opened _ _ put =>
    refine ((helloGate_ok gate).2.change appKey key).trans
      ((opened.change appKey key).trans (put.change ?_ appKey key))
    rw [opened.put.here]
    exact .life (.count _ _)
  | joined gate opened admitted put =>
    refine ((helloGate_ok gate).2.change appKey key).trans
      ((opened.change appKey key).trans (put.change ?_ appKey key))
    rw [opened.put.here]
    exact .life (.admitPeer (helloGate_ok gate).1 admitted)

/-- A guard on operations as a guard on actions. -/
def OpGuard (g : Env → Room → RoomOp → Prop) (sys : Sys) (a : Action) : Prop :=
  ∀ s o room, a.op sys = some (s, o) → sys.roomAt s.appKey s.roomCode.key = some room → g a.env room o

theorem OpGuard.of_none {g : Env → Room → RoomOp → Prop} {sys : Sys} {a : Action}
    (h : a.op sys = none) : OpGuard g sys a := by
  intro s o room ho
  simp [h] at ho

theorem OpGuard.of_some {g : Env → Room → RoomOp → Prop} {sys : Sys} {a : Action} {s : Session}
    {o : RoomOp} (h : a.op sys = some (s, o))
    (hg : ∀ room, sys.roomAt s.appKey s.roomCode.key = some room → g a.env room o) :
    OpGuard g sys a := by
  intro s' o' room ho hr
  obtain ⟨rfl, rfl⟩ := Prod.mk.inj (Option.some.inj (h.symm.trans ho))
  exact hg room hr

/-- What an action does to the room found under any one code. -/
theorem step_change {g : Env → Room → RoomOp → Prop} {sys : Sys} {a : Action}
    (hg : OpGuard g sys a) (appKey key : String) :
    RoomChange a.env (g a.env) (sys.roomAt appKey key) ((step sys a).roomAt appKey key) := by
  have hleave : (∀ s, sys.session a.conn = some s → a.op sys = some (s, .leave s.peerId)) →
      RoomChange a.env (g a.env) (sys.roomAt appKey key)
        ((leaveSession a.env sys.server (sys.session a.conn) []).1.roomAt appKey key) :=
    fun hp => leaveSession_change [] (fun old room hs hr => hg old _ room (hp old hs) hr) appKey key
  change RoomChange _ _ (sys.server.roomAt appKey key) ((a.outcome sys).server.roomAt appKey key)
  have hres := Action.result sys a
  revert hres
  generalize a.outcome sys = out
  intro hres
  cases hres with
  | idle same => exact same.change appKey key
  | read _ _ same _ => exact same.change appKey key
  | op session performs _ found put =>
    refine put.change ?_ appKey key
    have found' : sys.server.roomAt _ _ = _ := found
    rw [found']
    exact .life (.op [] (hg _ _ _ performs found))
  | left performs => exact hleave performs
  | hello _ performs result => exact (hleave performs).trans (result.change appKey key)

/-- The changes an invariant of rooms has to survive. -/
structure RoomInvariant (g : Env → Room → RoomOp → Prop) (I : Room → Prop) : Prop where
  create : ∀ appKey code (settings : DefaultSettings), RoomPool.Generated code →
    I (Room.new appKey code settings)
  count : ∀ room n, I room → I { room with peerCounter := n }
  op : ∀ env room o net, I room → g env room o → I (o.run env room net).1
  admitPeer : ∀ env me code h room net room' net' pid joined, h.Valid → I room →
    Room.Admitted env me code h room net room' net' pid joined → I room'

theorem RoomInvariant.life {g : Env → Room → RoomOp → Prop} {I : Room → Prop}
    (hI : RoomInvariant g I) {env : Env} {room room' : Room}
    (hl : RoomLife env (g env) room room') (hr : I room) : I room' := by
  induction hl with
  | refl room => exact hr
  | op net allowed => exact hI.op _ _ _ net hr allowed
  | count room n => exact hI.count _ n hr
  | admitPeer valid admitted => exact hI.admitPeer _ _ _ _ _ _ _ _ _ _ valid hr admitted
  | trans _ _ ih ih' => exact ih' (ih hr)

theorem RoomInvariant.change {g : Env → Room → RoomOp → Prop} {I : Room → Prop}
    (hI : RoomInvariant g I) {env : Env} {r r' : Option Room} (hc : RoomChange env (g env) r r')
    (hr : ∀ room, r = some room → I room) : ∀ room, r' = some room → I room := by
  induction hc with
  | refl r => exact hr
  | life hl =>
    rintro room ⟨rfl⟩
    exact hI.life hl (hr _ rfl)
  | destroy => simp
  | create generated appKey settings =>
    rintro room ⟨rfl⟩
    exact hI.create appKey _ settings generated
  | trans _ _ ih ih' => exact ih' (ih hr)

/-- An invariant of rooms holds of every room in every state reached under its guard. -/
theorem RoomInvariant.reaches {g : Env → Room → RoomOp → Prop} {I : Room → Prop}
    (hI : RoomInvariant g I) {guard : Sys → Action → Prop}
    (hg : ∀ sys a, guard sys a → OpGuard g sys a) {sys : Sys}
    (h : Reaches step guard .start sys) :
    ∀ appKey key room, sys.roomAt appKey key = some room → I room := by
  refine h.invariant (I := fun sys => ∀ appKey key room, sys.roomAt appKey key = some room →
    I room) ?_ ?_
  · intro appKey key room hr
    simp [Sys.roomAt, Sys.start, Server.start, Server.roomAt] at hr
  · intro sys a hs ha appKey key
    exact hI.change (step_change (hg sys a ha) appKey key) (hs appKey key)

/-- Reachable by any sequence of actions. -/
abbrev Reachable (sys : Sys) : Prop := Reaches step (fun _ _ => True) .start sys

theorem reachable_exec (as : List Action) : Reachable (exec step .start as) := by
  refine Reaches.exec .refl ?_
  generalize Sys.start = sys
  induction as generalizing sys with
  | nil => trivial
  | cons a as ih => exact ⟨trivial, ih _⟩

/-! ## The life of a room -/

/-- The action removes the room under this code: a leave left it vacant. -/
def Action.Removes (a : Action) (sys : Sys) (appKey key : String) : Prop :=
  ∃ s room, a.op sys = some (s, .leave s.peerId) ∧ s.appKey = appKey ∧ s.roomCode.key = key ∧
    sys.roomAt appKey key = some room ∧ (room.removePeer a.env s.peerId []).1.isVacant = true

theorem leaveSession_life {g : Env → Room → RoomOp → Prop} {sys : Sys} {a : Action}
    {appKey key : String} {room : Room} (hg : OpGuard g sys a)
    (hp : ∀ s, sys.session a.conn = some s → a.op sys = some (s, .leave s.peerId))
    (hr : sys.roomAt appKey key = some room) (hn : ¬ a.Removes sys appKey key) :
    ∃ room', (leaveSession a.env sys.server (sys.session a.conn) []).1.roomAt appKey key =
      some room' ∧ RoomLife a.env (g a.env) room room' := by
  change sys.server.roomAt appKey key = some room at hr
  cases hs : sys.session a.conn with
  | none => exact ⟨room, hr, .refl room⟩
  | some s =>
    simp only [leaveSession]
    cases hold : sys.server.roomAt s.appKey s.roomCode.key with
    | none =>
      rw [leaveRoom_none hold]
      exact ⟨room, hr, .refl room⟩
    | some old =>
      have hput := leaveRoom_roomPut a.env s.peerId [] hold
      by_cases hk : appKey = s.appKey ∧ key = s.roomCode.key
      · obtain ⟨rfl, rfl⟩ := hk
        obtain rfl : old = room := Option.some.inj (hold.symm.trans hr)
        rw [hput.here, leftBehind]
        split_ifs with hv
        · exact absurd ⟨s, old, hp s hs, rfl, rfl, hold, hv⟩ hn
        · exact ⟨_, rfl, .op (o := .leave s.peerId) [] (hg _ _ _ (hp s hs) hold)⟩
      · rw [hput.elsewhere hk]
        exact ⟨room, hr, .refl room⟩

theorem HelloResult.life {env : Env} {g : Room → RoomOp → Prop} {me : ConnId} {h : Hello}
    {s : Server} {net : Net} {o : Outcome} (hres : HelloResult env me h s net o)
    {appKey key : String} {room : Room}
    (hr : s.roomAt appKey key = some room) :
    ∃ room', o.server.roomAt appKey key = some room' ∧
      RoomLife env g room room' := by
  have hopened : ∀ {s₁ s₂ s' : Server} {code : RoomCode} {r r' : Room},
      helloGate env s h = .ok s₁ → Opened s₁ h s₂ code r →
      RoomPut s₂ h.appKey code.key (some r') s' → RoomLife env g r r' →
      ∃ room', s'.roomAt appKey key = some room' ∧ RoomLife env g room room' := by
    intro s₁ s₂ s' code r r' gate opened put hl
    have hr₁ : s₁.roomAt appKey key = some room := ((helloGate_ok gate).2 appKey key).trans hr
    by_cases hk : appKey = h.appKey ∧ key = code.key
    · obtain ⟨rfl, rfl⟩ := hk
      rcases opened.origin with ⟨_, _, hat⟩ | ⟨_, hat, _⟩
      · obtain rfl : r = room := Option.some.inj (hat.symm.trans hr₁)
        exact ⟨r', put.here, hl⟩
      · cases hat.symm.trans hr₁
    · rw [put.elsewhere hk, opened.put.elsewhere hk]
      exact ⟨room, hr₁, .refl room⟩
  cases hres with
  | refused same => exact ⟨room, (same appKey key).trans hr, .refl room⟩
  | rejected gate opened _ _ put => exact hopened gate opened put (.count _ _)
  | joined gate opened admitted put =>
    exact hopened gate opened put (.admitPeer (helloGate_ok gate).1 admitted)

/-- A room that is not removed is there after the action, changed in the ways a room may change. -/
theorem step_life {g : Env → Room → RoomOp → Prop} {sys : Sys} {a : Action}
    {appKey key : String} {room : Room} (hg : OpGuard g sys a)
    (hr : sys.roomAt appKey key = some room) (hn : ¬ a.Removes sys appKey key) :
    ∃ room', (step sys a).roomAt appKey key = some room' ∧
      RoomLife a.env (g a.env) room room' := by
  change ∃ room', (a.outcome sys).server.roomAt appKey key = some room' ∧ _
  have hres := Action.result sys a
  revert hres
  generalize a.outcome sys = out
  intro hres
  cases hres with
  | idle same => exact ⟨room, (same appKey key).trans hr, .refl room⟩
  | read _ _ same _ => exact ⟨room, (same appKey key).trans hr, .refl room⟩
  | @op s o old s' session performs _ found put =>
    by_cases hk : appKey = s.appKey ∧ key = s.roomCode.key
    · obtain ⟨rfl, rfl⟩ := hk
      obtain rfl : old = room := Option.some.inj (found.symm.trans hr)
      exact ⟨_, put.here, .op [] (hg _ _ _ performs found)⟩
    · exact ⟨room, (put.elsewhere hk).trans hr, .refl room⟩
  | left performs => exact leaveSession_life hg performs hr hn
  | hello _ performs result =>
    obtain ⟨mid, hmid, hl⟩ := leaveSession_life hg performs hr hn
    obtain ⟨room', hr', hl'⟩ := result.life hmid
    exact ⟨room', hr', hl.trans hl'⟩

/-! ## No id is accepted and pending at once -/

theorem Room.disjoint_new (appKey : String) (code : RoomCode) (settings : RoomSettings) :
    (Room.new appKey code settings).Disjoint := fun p hp => absurd hp (AList.notMem_empty p)

theorem RoomControl.edit_disjoint {rc : RoomControl} {room : Room} (h : room.Disjoint) :
    (rc.edit room).Disjoint := by
  cases rc with
  | createRoom settings => exact h
  | leave => exact h
  | setPublic isPublic => exact h
  | updateSettings settings => exact h
  | acceptPeer pid =>
    simp only [edit]
    cases room.pending.lookup pid with
    | none => exact h
    | some info =>
      intro p hp hp'
      obtain ⟨hne, hp'⟩ := AList.mem_erase.mp hp'
      rcases (AList.mem_insert _).mp hp with rfl | hp
      · exact hne rfl
      · exact h p hp hp'
  | denyPeer pid => exact fun p hp hp' => h p hp (AList.mem_erase.mp hp').2
  | kick pid => exact fun p hp hp' => h p (AList.mem_erase.mp hp).2 hp'
  | ban pid =>
    simp only [edit]
    cases room.clients.lookup pid with
    | none => exact h
    | some info => exact fun p hp hp' => h p (AList.mem_erase.mp hp).2 hp'
  | transferHost pid =>
    simp only [edit]
    split_ifs <;> exact h

theorem RoomOp.edit_disjoint {o : RoomOp} {room : Room} (h : room.Disjoint) :
    (o.edit room).Disjoint := by
  cases o with
  | leave pid =>
    exact fun p hp hp' => h p (AList.mem_erase.mp hp).2 (AList.mem_erase.mp hp').2
  | move pid blob =>
    simp only [edit]
    split_ifs <;> exact h
  | control pid rc =>
    simp only [edit]
    split_ifs
    · exact RoomControl.edit_disjoint h
    · exact h

theorem Room.seat_disjoint {room : Room} {pid : PeerId} {info : ClientInfo} (h : room.Disjoint)
    (hf : pid ∉ room.clients ∧ pid ∉ room.pending) : (room.seat pid info).Disjoint := by
  have hclient : ∀ p, p ∈ room.clients.insert pid info → p ∉ room.pending := by
    intro p hp
    rcases (AList.mem_insert _).mp hp with rfl | hp
    · exact hf.2
    · exact h p hp
  unfold seat
  split_ifs
  · exact hclient
  · intro p hp hp'
    rcases (AList.mem_insert _).mp hp' with rfl | hp'
    · exact hf.1 hp
    · exact h p hp hp'
  · exact hclient

theorem disjoint_invariant : RoomInvariant (fun _ _ _ => True) Room.Disjoint where
  create appKey code settings _ := Room.disjoint_new appKey code settings
  count _ _ h := h
  op env room o net h _ := (o.run_shrunkTo env room net).disjoint (RoomOp.edit_disjoint h)
  admitPeer env me code h room net room' net' pid joined _ hd ha := by
    obtain ⟨n, rfl⟩ := ha.seated
    exact @Room.seat_disjoint { room with peerCounter := n } _ _ hd ha.fresh

end Roomie
