import Roomie.RoomTopics

/-!
# What the clients know of their settings

A client is told the settings in its `Joined` and with each `SettingsChanged`. `UpdateSettings`
announces what it changes; `SetPublic` does not. Pending peers hear of neither, and are not told
when they are accepted. So all clients hold the settings of the room as long as `SetPublic` changes
nothing and nobody is accepted who joined under other settings.
-/

namespace Roomie.SettingsAgreement
open HashTables GuardedRuns

/-- The settings, without their password. -/
def topic : Topic RoomSettings where
  of _ settings := settings
  news
    | .settingsChanged settings => some settings
    | _ => none

/-- Every accepted client holds the current settings without their password. -/
def Agreed (r : Recorded) : Prop :=
  ∀ appKey key room p i, r.sys.roomAt appKey key = some room →
    room.clients.lookup p = some i →
      topic.held (r.log i.tx) = some room.settings.withoutPassword

/-- `SetPublic` leaves the settings as they are. -/
def SetsSame (room : Room) (o : RoomOp) : Prop :=
  ∀ isPublic, o = .control room.hostPeerId (.setPublic isPublic) →
    isPublic = room.settings.isPublic

/-- Channels are clear, `SetPublic` changes nothing, and who is accepted joined under the settings
of now. -/
def Fresh (r : Recorded) (a : Action) : Prop :=
  a.env.Clear ∧
    OpGuard (fun _ room o => topic.AcceptsFresh r.log room o ∧ SetsSame room o) r.sys a

/-- Everything but `SetPublic` announces the settings that it changes. -/
theorem announced (env : Env) (room : Room) (o : RoomOp) (h : SetsSame room o) :
    topic.Announced env room o := by
  have htells : topic.Tells := ⟨fun _ _ _ => rfl, fun _ _ _ => rfl⟩
  refine htells.announced fun isPublic ho => ?_
  rw [h isPublic ho]
  rfl

/-- Over clear channels all clients hold the settings of their room, as long as `SetPublic` changes
nothing and nobody is accepted who joined under other settings. -/
theorem settings_agreement (r : Recorded) (h : Reaches record Fresh .start r) : Agreed r := by
  have hfresh : ∀ r a, Fresh r a → topic.Fresh r a := by
    rintro r a ⟨hclear, hguard⟩
    refine ⟨hclear, fun s o room hop hroom => ?_⟩
    obtain ⟨haccepts, hsame⟩ := hguard s o room hop hroom
    exact ⟨haccepts, announced _ _ _ hsame⟩
  have hall := Topic.allKnow (h.mono hfresh)
  exact fun appKey key room p i hroom hc => (hall _ _ _ _ _ hroom (.inl hc)).client hc

/-- A host limits its room, another peer joins, and the room is kept private. -/
def limited : List Action :=
  [sends 0 (plainHello "" "h"),
    sends 0 (.roomControl (.updateSettings { RoomSettings.default with maxPlayers := 4 })),
    sends 1 (plainHello "aaaaaa" "x"), sends 0 (.roomControl (.setPublic false))]

/-- Nothing is changed by the last command. -/
theorem limited_agrees : Agreed (exec record .start limited) := by
  have hquiet : ∀ conn msg, (sends conn msg).env.Clear := fun _ _ => Env.quiet_clear
  refine settings_agreement _ (Reaches.exec .refl ⟨⟨hquiet _ _, .of_none rfl⟩, ⟨hquiet _ _, ?_⟩,
    ⟨hquiet _ _, .of_none rfl⟩, ⟨hquiet _ _, ?_⟩, trivial⟩)
  · refine .of_some (s := ⟨"pong", ⟨"AAAAAA"⟩, 1⟩) (o := .control 1 (.updateSettings _)) rfl ?_
    intro room _
    exact ⟨fun target info ho => by simp at ho, fun isPublic ho => by simp at ho⟩
  · refine .of_some (s := ⟨"pong", ⟨"AAAAAA"⟩, 1⟩) (o := .control 1 (.setPublic false)) rfl ?_
    intro room hr
    refine ⟨fun target info ho => by simp at ho, fun isPublic ho => ?_⟩
    obtain ⟨-, rfl⟩ : _ ∧ false = isPublic := by simpa using ho
    have hrun : ((exec record .start (limited.take 3)).sys.roomAt "pong" "aaaaaa").all (fun room =>
        !room.settings.isPublic) = true := by decide
    simpa using (Option.all_eq_true ..).mp hrun room hr

/-- A client that holds another value of something in the settings. -/
theorem not_agreed {β : Type} [DecidableEq β] (f : RoomSettings → β) {r : Recorded}
    (appKey key : String) (p : PeerId)
    (h : (r.sys.roomAt appKey key).any (fun room => (room.clients.lookup p).any fun i =>
      (topic.held (r.log i.tx)).all fun s => f s != f room.settings.withoutPassword) = true) :
    ¬ Agreed r := by
  intro hagreed
  obtain ⟨room, hr, hany⟩ := (Option.any_eq_true ..).mp h
  obtain ⟨i, hi, hne⟩ := (Option.any_eq_true ..).mp hany
  rw [hagreed _ _ room p i hr hi, Option.all_some] at hne
  exact bne_iff_ne.mp hne rfl

/-- A host opens its room to the public, and is not told so. -/
def opened : List Action :=
  [sends 0 (plainHello "" "h"), sends 0 (.roomControl (.setPublic true))]

/-- A host limits its room while a peer waits, and then accepts the peer. -/
def limitedLate : List Action :=
  [sends 0 (plainHello "" "h"),
    sends 0 (.roomControl (.updateSettings { RoomSettings.default with acceptRequired := true })),
    sends 1 (plainHello "aaaaaa" "x"),
    sends 0 (.roomControl (.updateSettings { RoomSettings.default with maxPlayers := 4 })),
    sends 0 (.roomControl (.acceptPeer 2))]

/-- Neither are all changes announced nor is who is accepted told of the earlier ones. -/
theorem unannounced_disagrees : (∀ a ∈ opened ++ limitedLate, a.env.Clear) ∧
    ¬ Agreed (exec record .start opened) ∧ ¬ Agreed (exec record .start limitedLate) ∧
    ¬ ∀ r, Reaches record (fun _ a => a.env.Clear) .start r → Agreed r := by
  have hopened : ¬ Agreed (exec record .start opened) :=
    not_agreed RoomSettings.isPublic "pong" "aaaaaa" 1 (by decide)
  have hlimited : ¬ Agreed (exec record .start limitedLate) :=
    not_agreed RoomSettings.maxPlayers "pong" "aaaaaa" 2 (by decide)
  refine ⟨by simp [opened, limitedLate, sends, Env.quiet_clear], hopened, hlimited, fun hall => ?_⟩
  refine hopened (hall _ (Reaches.exec .refl ?_))
  simp [opened, Along, sends, Env.quiet_clear]

end Roomie.SettingsAgreement
