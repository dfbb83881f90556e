import Roomie.RoomTopics

/-!
# What the clients know about their host

A client learns the host from its `Joined` and from each `HostTransferred` after it. Every
operation that changes the host tells all accepted clients; pending peers are not told and
are not told later either, when they are accepted. So all clients agree with the room as
long as nobody is accepted who joined under another host.
-/

namespace Roomie.HostAgreement
open HashTables GuardedRuns

/-- The host. -/
def topic : Topic PeerId where
  of host _ := host
  news
    | .hostTransferred host => some host
    | _ => none

/-- A client's idea of the host. -/
def knownHost (log : List ServerMessage) : Option PeerId := topic.held log

/-- The host named in the last `Joined`. -/
def joinedHost (log : List ServerMessage) : Option PeerId := topic.joinedWith log

/-- Every accepted client holds the current host. -/
def Agreed (r : Recorded) : Prop :=
  ∀ appKey key room p i, r.sys.roomAt appKey key = some room →
    room.clients.lookup p = some i → knownHost (r.log i.tx) = some room.hostPeerId

/-- Nobody is accepted who joined under another host. -/
def AcceptsFresh (log : ConnId → List ServerMessage) (room : Room) (o : RoomOp) : Prop :=
  ∀ target info, o = .control room.hostPeerId (.acceptPeer target) →
    room.pending.lookup target = some info → joinedHost (log info.tx) = some room.hostPeerId

/-- Channels are clear and acceptances fresh. -/
def Fresh (r : Recorded) (a : Action) : Prop :=
  a.env.Clear ∧ OpGuard (fun _ => AcceptsFresh r.log) r.sys a

/-- Every change of the host is announced. -/
theorem announced (env : Env) (room : Room) (o : RoomOp) : topic.Announced env room o := by
  have htells : topic.Tells := ⟨fun _ _ _ => rfl, fun _ _ _ => rfl⟩
  exact htells.announced fun _ _ => rfl

/-- All members of all rooms know what they should. -/
theorem allKnow {r : Recorded} (h : Reaches record Fresh .start r) : topic.AllKnow r := by
  refine Topic.allKnow (h.mono ?_)
  rintro r a ⟨hclear, hguard⟩
  refine ⟨hclear, fun s o room hop hroom => ?_⟩
  exact ⟨hguard s o room hop hroom, announced _ _ _⟩

/-- Over clear channels all clients agree with their room about the host, as long as nobody is
accepted who joined under another host. -/
theorem host_agreement (r : Recorded) (h : Reaches record Fresh .start r) : Agreed r :=
  fun _ _ _ _ _ hroom hc => (allKnow h _ _ _ _ _ hroom (.inl hc)).client hc

/-- A host asks for acceptance, two peers join and wait, and the host accepts the first one. -/
def queue : List Action :=
  [sends 0 (plainHello "" "h"),
    sends 0 (.roomControl (.updateSettings { RoomSettings.default with acceptRequired := true })),
    sends 1 (plainHello "aaaaaa" "x"), sends 2 (plainHello "aaaaaa" "y"),
    sends 0 (.roomControl (.acceptPeer 2))]

/-- The first one becomes host and accepts the second, which still believes in the old host. -/
theorem accepted_late_disagrees : ¬ ∀ r, Reaches record (fun _ a => a.env.Clear) .start r →
    Agreed r := by
  intro hall
  let run := queue ++ [sends 0 (.roomControl (.transferHost 2)),
    sends 1 (.roomControl (.acceptPeer 3))]
  have hreach : Reaches record (fun _ a => a.env.Clear) .start (exec record .start run) :=
    Reaches.exec .refl (by simp [run, queue, Along, sends, Env.quiet_clear])
  have hrun : ((exec record .start run).sys.roomAt "pong" "aaaaaa").any (fun room =>
      (room.clients.lookup 3).any fun i =>
        knownHost ((exec record .start run).log i.tx) != some room.hostPeerId) = true := by decide
  obtain ⟨room, hr, hany⟩ := (Option.any_eq_true ..).mp hrun
  obtain ⟨i, hi, hne⟩ := (Option.any_eq_true ..).mp hany
  simp [hall _ hreach _ _ room 3 i hr hi] at hne

theorem queue_agrees : Agreed (exec record .start queue) := by
  have hquiet : ∀ conn msg, (sends conn msg).env.Clear := fun _ _ => Env.quiet_clear
  refine host_agreement _ (Reaches.exec .refl ⟨⟨hquiet _ _, .of_none rfl⟩, ⟨hquiet _ _, ?_⟩,
    ⟨hquiet _ _, .of_none rfl⟩, ⟨hquiet _ _, .of_none rfl⟩, ⟨hquiet _ _, ?_⟩, trivial⟩)
  · refine .of_some (s := ⟨"pong", ⟨"AAAAAA"⟩, 1⟩) (o := .control 1 (.updateSettings _)) rfl ?_
    intro room _ target info ho
    simp at ho
  · refine .of_some (s := ⟨"pong", ⟨"AAAAAA"⟩, 1⟩) (o := .control 1 (.acceptPeer 2)) rfl ?_
    rintro room hr target info ho hp
    obtain ⟨-, rfl⟩ : _ ∧ 2 = target := by simpa using ho
    have hrun : ((exec record .start (queue.take 4)).sys.roomAt "pong" "aaaaaa").all (fun room =>
        (room.pending.lookup 2).all fun i =>
          joinedHost ((exec record .start (queue.take 4)).log i.tx) == some room.hostPeerId) =
            true := by decide
    have hall := (Option.all_eq_true ..).mp ((Option.all_eq_true ..).mp hrun room hr) info hp
    exact beq_iff_eq.mp hall

end Roomie.HostAgreement
