import Roomie.MessageCodec
import Roomie.SentMessages

/-!
# The frame limit

A message that was received in one frame may be handed on in a larger one. The sizes of all
messages are bounded by what the server checks and by what it received, except for three:
the input that gets the id of its sender, the `Joined` that takes along the state of the
room, and the list of all public rooms. A step stays within the limit exactly when these do.
-/

namespace Roomie.FrameLimits
open Bincode HashTables GuardedRuns

/-! ## Sizes -/

def stringSize (s : String) : ℕ := varintSize (byteLen s) + byteLen s

def blobSize (b : Blob) : ℕ := varintSize b.length + b.length

/-- Settings without password and custom part. -/
def settingsSize (s : RoomSettings) : ℕ :=
  varintSize s.maxPlayers.toNat + varintSize s.minPlayers.toNat + 4

def entrySize (e : RoomListEntry) : ℕ :=
  stringSize e.roomCode.str + varintSize e.playerCount.toNat + settingsSize e.settings

/-- The size of an encoded message. -/
def size (m : ServerMessage) : ℕ := (serverMessageFormat.write m).length

theorem encode_some {m : ServerMessage} : (∃ p, m.encode = some p) ↔ size m ≤ maxFrameLen := by
  unfold ServerMessage.encode size
  split_ifs with h <;> simp [h]

theorem length_string (s : String) : (string.write s).length = stringSize s := by
  change (writeVarint _ ++ utf8 s).length = _
  simp [stringSize]

theorem length_blob (b : Blob) : (blob.write b).length = blobSize b := by
  change (writeVarint _ ++ b).length = _
  simp [blobSize]

theorem length_u32 (n : UInt32) : (u32.write n).length = varintSize n.toNat :=
  length_writeVarint _

theorem varintSize_u32 (n : UInt32) : varintSize n.toNat ≤ 5 := by
  have := n.toNat_lt
  unfold varintSize
  split_ifs <;> omega

theorem length_settings {s : RoomSettings} (hp : s.password = none) (hc : s.custom = none) :
    (settingsFormat.write s).length = settingsSize s := by
  change (writeVarint s.maxPlayers.toNat ++ (writeVarint s.minPlayers.toNat ++ (bool.write _ ++
    (string.option.write s.password ++ (bool.write _ ++ customFormat.write s.custom))))).length = _
  have hpass : (string.option.write s.password).length = 1 := by rw [hp]; rfl
  have hcustom : (customFormat.write s.custom).length = 1 := by rw [hc]; rfl
  have hbool : ∀ b, (bool.write b).length = 1 := fun b => by cases b <;> rfl
  simp only [List.length_append, length_writeVarint, hbool, hpass, hcustom, settingsSize]
  omega

theorem length_entry {e : RoomListEntry} (hp : e.settings.password = none)
    (hc : e.settings.custom = none) : (listEntryFormat.write e).length = entrySize e := by
  change (string.write e.roomCode.str ++ (u32.write e.playerCount ++
    settingsFormat.write e.settings)).length = _
  simp only [List.length_append, length_string, length_u32, length_settings hp hc, entrySize]
  omega

theorem size_roomList {rooms : List RoomListEntry}
    (h : ∀ e ∈ rooms, e.settings.password = none ∧ e.settings.custom = none) :
    size (.roomList rooms) = 1 + varintSize rooms.length + (rooms.map entrySize).sum := by
  change (writeVarint 1 ++ (writeVarint rooms.length ++ rooms.flatMap listEntryFormat.write)).length
    = _
  have hsum : (rooms.flatMap listEntryFormat.write).length = (rooms.map entrySize).sum := by
    rw [List.length_flatMap]
    exact congrArg List.sum (List.map_congr_left fun e he => length_entry (h e he).1 (h e he).2)
  rw [List.length_append, List.length_append, hsum, length_writeVarint, length_writeVarint]
  change 1 + _ = _
  omega

theorem size_peerInput (pid : PeerId) (b : Blob) :
    size (.peerInput pid b) = 1 + varintSize pid.toNat + blobSize b := by
  change (writeVarint 4 ++ (u32.write pid ++ blob.write b)).length = _
  rw [List.length_append, List.length_append, length_u32, length_blob, length_writeVarint]
  change 1 + _ = _
  omega

theorem size_stateUpdate (b : Blob) : size (.stateUpdate b) = 1 + blobSize b := by
  change (writeVarint 5 ++ blob.write b).length = _
  rw [List.length_append, length_blob, length_writeVarint]
  rfl

theorem size_joinedMessage {room : Room} (hc : room.settings.custom = none) (code : RoomCode)
    (pid : PeerId) (side : UInt8) : size (room.joinedMessage code pid side) =
      1 + stringSize code.str + varintSize pid.toNat + varintSize room.hostPeerId.toNat + 1 +
        settingsSize room.settings + 1 + if room.state = [] then 0 else blobSize room.state := by
  change (writeVarint 0 ++ (string.write code.str ++ (u32.write pid ++ (u32.write room.hostPeerId ++
    ([side] ++ (settingsFormat.write room.settings.withoutPassword ++
      blob.option.write (if room.state.isEmpty then none else some room.state))))))).length = _
  have hstate : (blob.option.write (if room.state.isEmpty then none else some room.state)).length =
      1 + if room.state = [] then 0 else blobSize room.state := by
    by_cases hs : room.state = []
    · simp [hs, Format.option]
    · have hs' : room.state.isEmpty = false := by simpa using hs
      simp only [hs', Bool.false_eq_true, if_false, hs]
      change (1 :: blob.write room.state).length = _
      rw [List.length_cons, length_blob, Nat.add_comm]
  have hset : (settingsFormat.write room.settings.withoutPassword).length =
      settingsSize room.settings :=
    length_settings (s := room.settings.withoutPassword) rfl hc
  simp only [List.length_append, length_writeVarint, length_string, length_u32, hset, hstate,
    List.length_singleton]
  have hzero : varintSize 0 = 1 := rfl
  omega

theorem stringSize_le {s : String} {n : ℕ} (h : byteLen s ≤ n) : stringSize s ≤ 9 + n := by
  have : varintSize (byteLen s) ≤ 9 := by
    unfold varintSize
    split_ifs <;> omega
  unfold stringSize
  omega

theorem size_peerJoined_le {pid : PeerId} {hash : String} {name : Option String}
    (hh : byteLen hash ≤ maxClientHashLen) (hn : ∀ s, name = some s → byteLen s ≤ maxDisplayNameLen) :
    size (.peerJoined pid hash name) ≤ maxFrameLen := by
  change (writeVarint 2 ++ (u32.write pid ++ (string.write hash ++
    string.option.write name))).length ≤ _
  have hname : (string.option.write name).length ≤ 10 + maxDisplayNameLen := by
    cases name with
    | none => decide
    | some s =>
      have := stringSize_le (hn s rfl)
      change (1 :: string.write s).length ≤ _
      rw [List.length_cons, length_string]
      omega
  have hhash := stringSize_le hh
  have hpid := varintSize_u32 pid
  have htag : varintSize 2 = 1 := rfl
  simp only [List.length_append, length_writeVarint, length_u32, length_string]
  simp only [maxClientHashLen, maxDisplayNameLen, maxFrameLen] at *
  omega

theorem size_text_le {text : String} (h : byteLen text ≤ 100) :
    size (.error text) ≤ maxFrameLen ∧ size (.moveRejected text) ≤ maxFrameLen := by
  have hs := stringSize_le h
  have htext : (string.write text).length ≤ 109 := by
    rw [length_string]
    exact hs
  have htag : varintSize 7 = 1 ∧ varintSize 10 = 1 := ⟨rfl, rfl⟩
  constructor
  · change (writeVarint 10 ++ string.write text).length ≤ _
    rw [List.length_append, length_writeVarint, maxFrameLen]
    omega
  · change (writeVarint 7 ++ string.write text).length ≤ _
    rw [List.length_append, length_writeVarint, maxFrameLen]
    omega

theorem size_hostTransferred_le (p : PeerId) :
    size (.roomEvent (.hostTransferred p)) ≤ maxFrameLen := by
  change (writeVarint 8 ++ (writeVarint 0 ++ u32.write p)).length ≤ _
  have hp := varintSize_u32 p
  have htag : varintSize 8 = 1 ∧ varintSize 0 = 1 := ⟨rfl, rfl⟩
  simp only [List.length_append, length_writeVarint, length_u32, maxFrameLen]
  omega

theorem size_peerLeft_le (p : PeerId) : size (.peerLeft p) ≤ maxFrameLen := by
  change (writeVarint 3 ++ u32.write p).length ≤ _
  have hp := varintSize_u32 p
  have htag : varintSize 3 = 1 := rfl
  simp only [List.length_append, length_writeVarint, length_u32, maxFrameLen]
  omega

theorem settingsSize_le (s : RoomSettings) : settingsSize s ≤ 14 := by
  have hmax := varintSize_u32 s.maxPlayers
  have hmin := varintSize_u32 s.minPlayers
  unfold settingsSize
  omega

theorem size_settingsChanged_le {s : RoomSettings} (hc : s.custom = none) :
    size (.roomEvent (.settingsChanged s.withoutPassword)) ≤ maxFrameLen := by
  change (writeVarint 8 ++ (writeVarint 3 ++ settingsFormat.write s.withoutPassword)).length ≤ _
  have hset := settingsSize_le s.withoutPassword
  have htag : varintSize 8 = 1 ∧ varintSize 3 = 1 := ⟨rfl, rfl⟩
  rw [List.length_append, List.length_append, length_settings (s := s.withoutPassword) rfl hc,
    length_writeVarint, length_writeVarint, maxFrameLen]
  omega

theorem byteLen_le (s : String) : byteLen s ≤ 4 * s.length := by
  have hsum := List.sum_le_card_nsmul (s.toList.map Char.utf8Size) 4 fun k hk => by
    obtain ⟨c, _, rfl⟩ := List.mem_map.mp hk
    exact c.utf8Size_le_four
  rw [← utf8ByteSize_ofList, String.ofList_toList, List.length_map, String.length_toList,
    nsmul_eq_mul, Nat.mul_comm] at hsum
  exact hsum

theorem byteLen_toString_le {n d : ℕ} (hd : 0 < d) (h : n < 10 ^ d) :
    byteLen (toString n) ≤ 4 * d := by
  have hlen : (toString n).length ≤ d := (Nat.length_repr_le_iff hd).mpr h
  have hbytes := byteLen_le (toString n)
  omega

theorem byteLen_rejection {reason : String} (h : IsRejection reason) : byteLen reason ≤ 100 := by
  rcases h with rfl | ⟨n, rfl⟩
  · decide
  · have hn := byteLen_toString_le (by decide) (n.toNat_lt.trans (by decide : 2 ^ 32 < 10 ^ 10))
    have h₁ : byteLen "minimum " = 8 := by decide
    have h₂ : byteLen " players required to start" = 26 := by decide
    simp only [byteLen, String.utf8ByteSize_append] at *
    omega

theorem byteLen_generated {code : RoomCode} (h : RoomPool.Generated code) :
    byteLen code.str ≤ 100 := by
  cases h with
  | random draws =>
    have hbytes := byteLen_le (RoomPool.randomCode draws).str
    simp only [RoomPool.randomCode, String.length_ofList, List.length_map, List.length_range,
      roomCodeLen] at hbytes ⊢
    omega
  | fallback n =>
    have hn := byteLen_toString_le (by decide)
      (n.toNat_lt.trans (by decide : 2 ^ 64 < 10 ^ 20))
    have hr : byteLen "R" = 1 := by decide
    simp only [RoomPool.fallbackCode, byteLen, String.utf8ByteSize_append] at *
    omega

/-! ## What is received, and what rooms keep of it -/

/-- A client message comes in one frame. -/
def Received (a : Action) : Prop :=
  ∀ msg, a.event = .message msg →
    ∃ payload, payload.length ≤ maxFrameLen ∧ ClientMessage.decode payload = some msg

/-- What fits into a frame was sent in one. -/
theorem received_of_fits {env : Env} {conn : ConnId} {m : ClientMessage}
    (hf : clientMessageFormat.Fits m) (hl : (clientMessageFormat.write m).length ≤ maxFrameLen) :
    Received ⟨env, conn, .message m⟩ := by
  rintro _ ⟨⟩
  exact ⟨clientMessageFormat.write m, hl, decode_whole (clientMessageFormat.accepts_write hf) hl⟩

/-- An operation that can come from a received message. -/
def Within : RoomOp → Prop
  | .move _ blob => 1 + blobSize blob ≤ maxFrameLen
  | .control _ (.updateSettings settings) => settings.custom = none
  | _ => True

theorem within_of_received {sys : Sys} {a : Action} (h : Received a) :
    OpGuard (fun _ _ => Within) sys a := by
  rintro s o room hop _
  unfold Action.op at hop
  split at hop
  case h_5 rc s' _ _ event _ =>
    obtain ⟨-, rfl⟩ := Prod.mk.inj (Option.some.inj hop)
    cases rc with
    | updateSettings settings =>
      obtain ⟨payload, _, hd⟩ := h _ event
      obtain ⟨f, hf, hrc⟩ := (decode_spec hd).1
      obtain rfl := Option.some.inj hf
      obtain ⟨_, ⟨⟩, g, hg, hset⟩ := hrc
      obtain rfl := Option.some.inj hg
      obtain ⟨_, ⟨⟩, hset⟩ := hset
      exact hset.1.2.2.2.2.2
    | _ => trivial
  case h_6 blob s' event _ =>
    obtain ⟨-, rfl⟩ := Prod.mk.inj (Option.some.inj hop)
    obtain ⟨payload, _, hd⟩ := h _ event
    have hlen := (decode_spec hd).2.1
    change (writeVarint 1 ++ Bincode.blob.write blob).length ≤ _ at hlen
    rw [List.length_append, length_writeVarint, length_blob] at hlen
    exact hlen
  all_goals
    simp only [Option.some.injEq, Prod.mk.injEq, reduceCtorEq] at hop
    try (obtain ⟨-, rfl⟩ := hop; trivial)

/-- What a room keeps of received messages, and what can be made of it. -/
structure Bounded (room : Room) : Prop where
  state : 1 + blobSize room.state ≤ maxFrameLen
  custom : room.settings.custom = none
  member : ∀ p i, room.HasMember p i → byteLen i.clientHash.value ≤ maxClientHashLen ∧
    ∀ s, i.displayName = some s → byteLen s ≤ maxDisplayNameLen

theorem edit_bounded {room : Room} {o : RoomOp} (h : Bounded room) (hw : Within o) :
    Bounded (o.edit room) := by
  refine ⟨?_, ?_, fun p i hp => h.member p i (RoomOp.edit_hasMember hp)⟩
  · cases o with
    | leave pid => exact h.state
    | move pid blob =>
      simp only [RoomOp.edit]
      split_ifs
      · exact hw
      · exact h.state
    | control pid rc =>
      have hrc : (rc.edit room).state = room.state := by
        cases rc <;> simp only [RoomControl.edit] <;> (try split) <;> rfl
      simp only [RoomOp.edit]
      split_ifs
      · rw [hrc]
        exact h.state
      · exact h.state
  · cases o with
    | leave pid => exact h.custom
    | move pid blob =>
      simp only [RoomOp.edit]
      split_ifs <;> exact h.custom
    | control pid rc =>
      simp only [RoomOp.edit]
      split_ifs
      · cases rc with
        | updateSettings settings => exact hw
        | acceptPeer pid => simp only [RoomControl.edit]; split <;> exact h.custom
        | ban pid => simp only [RoomControl.edit]; split <;> exact h.custom
        | transferHost pid => simp only [RoomControl.edit]; split <;> exact h.custom
        | _ => exact h.custom
      · exact h.custom

theorem bounded_invariant : RoomInvariant (fun _ _ => Within) Bounded where
  create appKey code settings _ := by
    refine ⟨(by decide : 1 + blobSize [] ≤ maxFrameLen), settings.2.custom, fun p i hp => ?_⟩
    exact hp.elim (fun h => absurd h (by simp [Room.new])) fun h => absurd h (by simp [Room.new])
  count room n h := ⟨h.state, h.custom, h.member⟩
  op env room o net h hw := by
    have hs := o.run_shrunkTo env room net
    have he := edit_bounded h hw
    refine ⟨?_, ?_, fun p i hp => he.member p i (hs.hasMember hp)⟩
    · rw [hs.data.state]
      exact he.state
    · rw [hs.data.settings]
      exact he.custom
  admitPeer env me code h room net room' net' pid joined hv hI ha := by
    obtain ⟨hstate, hsettings, _⟩ := ha.data
    refine ⟨?_, ?_, fun p i hp => ?_⟩
    · rw [hstate]
      exact hI.state
    · rw [hsettings]
      exact hI.custom
    · rcases ha.hasMember hp with ⟨_, rfl⟩ | hp
      · exact ⟨hv.clientHash_len, hv.displayName_len⟩
      · exact hI.member p i hp

/-! ## The three messages that can be too long -/

/-- The size of the `Joined` for a peer that gets this id in this room. -/
def joinedSize (room : Room) (code : RoomCode) (pid : PeerId) : ℕ :=
  1 + stringSize code.str + varintSize pid.toNat +
    varintSize (if room.isVacant then pid else room.hostPeerId).toNat + 1 +
    settingsSize room.settings + 1 + if room.state = [] then 0 else blobSize room.state

/-- The size of a list of rooms. -/
def listSize (entries : List RoomListEntry) : ℕ :=
  1 + varintSize entries.length + (entries.map entrySize).sum

/-- The action relays no input, tells no state and gives no list that is too long for a frame:
an input together with the id of the sender, the state of a joined room together with the rest
of `Joined`, and all public rooms together. -/
structure Fit (sys : Sys) (a : Action) : Prop where
  input : ∀ blob s room, a.event = .message (.input blob) → sys.session a.conn = some s →
    sys.roomAt s.appKey s.roomCode.key = some room → room.hostPeerId ≠ s.peerId →
    room.hostPeerId ∈ room.clients →
    1 + varintSize s.peerId.toNat + blobSize blob ≤ maxFrameLen
  joined : ∀ h s₁ room pid, a.event = .message (.hello h) → h.roomCode.str.isEmpty = false →
    helloGate a.env (leaveSession a.env sys.server (sys.session a.conn) []).1 h = .ok s₁ →
    (leaveSession a.env sys.server (sys.session a.conn) []).1.roomAt h.appKey h.roomCode.key =
      some room → ¬ room.Refuses h →
    room.nextPeerId.1 = some pid → joinedSize room h.roomCode pid ≤ maxFrameLen
  list : ∀ appKey pool, a.event = .message (.listRooms appKey) →
    (isRegisteredApp a.env.disk sys.server.cache appKey).1 = true →
    sys.server.registry.lookup appKey = some pool →
    listSize (pool.listPublicRooms a.env) ≤ maxFrameLen

section
variable {sys : Sys} {a : Action}

theorem RoomPool.listEntry_plain {room : Room} {entry : RoomListEntry}
    (h : RoomPool.listEntry room = some entry) (hc : room.settings.custom = none) :
    entry.settings.password = none ∧ entry.settings.custom = none := by
  refine ⟨RoomPool.listEntry_password h, ?_⟩
  unfold RoomPool.listEntry at h
  split_ifs at h
  obtain rfl := Option.some.inj h
  exact hc

theorem size_listPublicRooms {env : Env} {pool : RoomPool}
    (h : ∀ key room, pool.rooms.lookup key = some room → Bounded room) :
    size (.roomList (pool.listPublicRooms env)) = listSize (pool.listPublicRooms env) := by
  refine size_roomList fun e he => ?_
  obtain ⟨⟨key, room⟩, hm, hentry⟩ := List.mem_filterMap.mp he
  exact RoomPool.listEntry_plain hentry (h key room (AList.mem_iter.mp hm)).custom

theorem size_admitted {env : Env} {me : ConnId} {code : RoomCode} {h : Hello} {room room' : Room}
    {net net' : Net} {pid : PeerId} {joined : ServerMessage} (hc : room.settings.custom = none)
    (ha : Room.Admitted env me code h room net room' net' pid joined) :
    size joined = joinedSize room code pid := by
  obtain ⟨hstate, hsettings, _⟩ := ha.data
  have hhost : room'.hostPeerId = if room.isVacant then pid else room.hostPeerId := by
    obtain ⟨n, rfl⟩ := ha.seated
    unfold Room.seat
    split_ifs <;> first | rfl | contradiction
  rw [ha.joined_eq, size_joinedMessage (by rw [hsettings]; exact hc), hstate, hsettings, hhost,
    joinedSize]

theorem joinedSize_new_le {appKey : String} {code : RoomCode} {settings : RoomSettings}
    {pid : PeerId} (h : byteLen code.str ≤ 100) :
    joinedSize (Room.new appKey code settings) code pid ≤ maxFrameLen := by
  have hcode := stringSize_le h
  have hpid := varintSize_u32 pid
  have hhost := varintSize_u32 (if (Room.new appKey code settings).isVacant then pid
    else (Room.new appKey code settings).hostPeerId)
  have hset := settingsSize_le (Room.new appKey code settings).settings
  have hstate : (Room.new appKey code settings).state = [] := rfl
  unfold joinedSize maxFrameLen
  rw [if_pos hstate]
  omega

/-- After the old session's room was left the rooms are as bounded as before. -/
theorem bounded_left (hb : ∀ appKey key room, sys.roomAt appKey key = some room → Bounded room)
    {appKey key : String} {room : Room}
    (hr : (leaveSession a.env sys.server (sys.session a.conn) []).1.roomAt appKey key = some room) :
    Bounded room :=
  @RoomInvariant.change _ _ bounded_invariant a.env _ _
    (leaveSession_change [] (fun _ _ _ _ => trivial) appKey key) (hb appKey key) room hr

/-- An operation of a received message tells nothing that is too long. -/
theorem size_told {room : Room} {o : RoomOp} {m : ServerMessage} (hb : Bounded room)
    (hw : Within o) (ht : o.Tells room m) : size m ≤ maxFrameLen := by
  cases ht with
  | left _ q => exact size_peerLeft_le q
  | host _ q => exact size_hostTransferred_le q
  | kicked => decide
  | banned => decide
  | state pid blob =>
    rw [size_stateUpdate]
    exact hw
  | settings pid settings => exact size_settingsChanged_le hw
  | accepted pid pending =>
    obtain ⟨hhash, hname⟩ := hb.member _ _ (.inr pending)
    exact size_peerJoined_le hhash hname

theorem size_of_fit (hb : ∀ appKey key room, sys.roomAt appKey key = some room → Bounded room)
    (ha : Received a) (hf : Fit sys a) {m : ServerMessage} (he : Emitted sys a m) :
    size m ≤ maxFrameLen := by
  cases he with
  | told performs found tells =>
    exact size_told (hb _ _ _ found) (within_of_received ha _ _ _ performs found) tells
  | input event session found host =>
    rw [size_peerInput]
    exact hf.input _ _ _ event session found host.1 host.2
  | state found =>
    rw [size_stateUpdate]
    exact (hb _ _ _ found).state
  | arrival event valid pid => exact size_peerJoined_le valid.clientHash_len valid.displayName_len
  | @joined h s₁ s₂ code room room' net net' pid joined event gate opened admitted _ =>
    rcases opened.origin with ⟨hcode, rfl, hat⟩ | ⟨_, _, hgen, appKey, settings, rfl⟩
    · rw [(helloGate_ok gate).2] at hat
      rw [size_admitted (bounded_left hb hat).custom admitted]
      exact hf.joined h s₁ room pid event hcode gate hat admitted.not_refuses
        admitted.allocated
    · rw [size_admitted settings.2.custom admitted]
      exact joinedSize_new_le (byteLen_generated hgen)
  | rooms event registered found =>
    rw [size_listPublicRooms fun key room hr =>
      hb _ key room (Server.roomAt_eq_some.mpr ⟨_, found, hr⟩)]
    exact hf.list _ _ event registered found
  | noRooms => decide
  | moveAccepted => decide
  | moveRejected known => exact (size_text_le (byteLen_rejection known)).2
  | pong => decide
  | error known => exact (size_text_le ((byteLen_errorText _ known).trans (by decide))).1

theorem mem_attempts_of_net {x : ConnId × ServerMessage} (h : x ∈ (a.outcome sys).net) :
    x ∈ a.attempts sys := List.mem_append_left _ h

theorem mem_attempts_of_reply {m : ServerMessage} (h : m ∈ (a.outcome sys).replies) :
    (a.conn, m) ∈ a.attempts sys := List.mem_append_right _ (List.mem_map_of_mem h)

/-- A relayed input is among the attempts. -/
theorem input_attempted {blob : Blob} {s : Session} {room : Room}
    (event : a.event = .message (.input blob)) (hs : sys.session a.conn = some s)
    (hr : sys.roomAt s.appKey s.roomCode.key = some room) (hne : room.hostPeerId ≠ s.peerId)
    (hhost : room.hostPeerId ∈ room.clients) :
    ∃ tx, (tx, .peerInput s.peerId blob) ∈ a.attempts sys := by
  obtain ⟨host, hlook⟩ := AList.mem_iff_lookup.mp hhost
  have hout : a.outcome sys = inRoom sys.server s fun room net =>
      (room, room.input a.env s.peerId blob net, []) := by
    simp only [Action.outcome, event, dispatch, hs]
  refine ⟨host.tx, mem_attempts_of_net ?_⟩
  rw [hout, inRoom_some hr]
  simp [Room.input, hne, hlook, trySend]

/-- Who is let in is answered with the `Joined` of the room as it was found. -/
theorem joined_attempted {h : Hello} {s₁ : Server} {room : Room} {pid : PeerId}
    (event : a.event = .message (.hello h)) (hcode : h.roomCode.str.isEmpty = false)
    (gate : helloGate a.env (leaveSession a.env sys.server (sys.session a.conn) []).1 h = .ok s₁)
    (hat : (leaveSession a.env sys.server (sys.session a.conn) []).1.roomAt h.appKey
      h.roomCode.key = some room) (hno : ¬ room.Refuses h) (hpid : room.nextPeerId.1 = some pid) :
    ∃ net room' net' joined, Room.Admitted a.env a.conn h.roomCode h room net room' net' pid joined ∧
      (a.conn, joined) ∈ a.attempts sys := by
  have hout : a.outcome sys = dispatchHello a.env sys.server (sys.session a.conn) a.conn h :=
    Action.outcome_hello event
  rw [← (helloGate_ok gate).2] at hat
  obtain ⟨pool, hpool, hroom⟩ := Server.roomAt_eq_some.mp hat
  have hopen : openRoom a.env s₁ h = (s₁, .ok (h.roomCode, room)) := by
    simp [openRoom, hpool, hcode, RoomPool.getRoom, hroom]
  rcases room.admit_cases a.env a.conn h.roomCode h
      (leaveSession a.env sys.server (sys.session a.conn) []).2 with
    ⟨hr, _⟩ | ⟨_, room', net', pid', joined, hadmit, hadm⟩
  · exact absurd hr hno
  obtain rfl : pid' = pid := Option.some.inj (hadm.allocated.symm.trans hpid)
  refine ⟨_, room', net', joined, hadm, mem_attempts_of_reply ?_⟩
  simp [hout, dispatchHello, gate, hopen, hadmit]

theorem list_attempted {appKey : String} {pool : RoomPool}
    (event : a.event = .message (.listRooms appKey))
    (hreg : (isRegisteredApp a.env.disk sys.server.cache appKey).1 = true)
    (hpool : sys.server.registry.lookup appKey = some pool) :
    (a.conn, .roomList (pool.listPublicRooms a.env)) ∈ a.attempts sys := by
  refine mem_attempts_of_reply ?_
  simp [Action.outcome, event, dispatch, dispatchListRooms, hreg, hpool]

theorem fit_of_size (hb : ∀ appKey key room, sys.roomAt appKey key = some room → Bounded room)
    (h : ∀ x ∈ a.attempts sys, size x.2 ≤ maxFrameLen) : Fit sys a where
  input blob s room event hs hr hne hhost := by
    obtain ⟨tx, hm⟩ := input_attempted event hs hr hne hhost
    have hsize := h _ hm
    rwa [size_peerInput] at hsize
  joined hello s₁ room pid event hcode gate hat hno hpid := by
    obtain ⟨net, room', net', joined, hadm, hm⟩ := joined_attempted event hcode gate hat hno hpid
    have hsize := h _ hm
    rwa [size_admitted (bounded_left hb hat).custom hadm] at hsize
  list appKey pool event hreg hpool := by
    have hsize := h _ (list_attempted event hreg hpool)
    rwa [size_listPublicRooms fun key room hr =>
      hb appKey key room (Server.roomAt_eq_some.mpr ⟨pool, hpool, hr⟩)] at hsize

end

/-- What can be reached when every message comes in one frame. -/
abbrev ReachedByFrames (sys : Sys) : Prop := Reaches step (fun _ a => Received a) .start sys

theorem reached_bounded {sys : Sys} (h : ReachedByFrames sys) :
    ∀ appKey key room, sys.roomAt appKey key = some room → Bounded room :=
  bounded_invariant.reaches (fun _ _ => within_of_received) h

/-- In every state that frames lead to, everything a received message makes the server send
fits into a frame exactly when the relayed input, the told state and the list of rooms do. -/
theorem encodable_iff_fit (sys : Sys) (h : ReachedByFrames sys) (a : Action) (ha : Received a) :
    (∀ x ∈ a.attempts sys, ∃ payload, x.2.encode = some payload) ↔ Fit sys a := by
  have hb := reached_bounded h
  simp only [encode_some]
  exact ⟨fit_of_size hb, fun hf x hx => size_of_fit hb ha hf (Action.emitted sys a x hx)⟩

theorem received_plainHello (conn : ConnId) {code hash : String}
    (hn : RoomCode.normalize code = code) (hc : byteLen code ≤ 100) (hh : byteLen hash ≤ 100) :
    Received (sends conn (plainHello code hash)) := by
  have hsmall : ∀ s : String, byteLen s ≤ 100 → Bincode.string.Fits s := fun s hs =>
    ⟨lt_of_le_of_lt hs (by decide), trivial⟩
  refine received_of_fits ⟨_, rfl, _, rfl, ⟨hsmall "pong" (by decide), ⟨hsmall _ hc, hn⟩, hsmall _ hh,
    by rintro _ ⟨⟩, by rintro _ ⟨⟩, by rintro _ ⟨⟩⟩, trivial⟩ ?_
  change (writeVarint 0 ++ (string.write "pong" ++ (string.write code ++ (string.write hash ++
    [0, 0, 0])))).length ≤ _
  have hcode := stringSize_le hc
  have hhash := stringSize_le hh
  have happ : stringSize "pong" = 5 := by decide
  have htag : varintSize 0 = 1 := rfl
  simp only [List.length_append, length_writeVarint, length_string, maxFrameLen, List.length_cons,
    List.length_nil]
  omega

theorem received_input (conn : ConnId) {blob : Blob} (h : blob.length ≤ 65532) :
    Received (sends conn (.input blob)) := by
  refine received_of_fits ⟨_, rfl, blob, rfl, lt_of_le_of_lt h (by decide)⟩ ?_
  change (writeVarint 2 ++ Bincode.blob.write blob).length ≤ _
  have hv := varintSize_mono h
  have hmax : varintSize 65532 = 3 := rfl
  have htag : varintSize 2 = 1 := rfl
  rw [List.length_append, length_writeVarint, length_blob, maxFrameLen, blobSize]
  omega

/-- A host and a guest. -/
def company : List Action := [sends 0 (plainHello "" "h"), sends 1 (plainHello "aaaaaa" "x")]

theorem company_reached : ReachedByFrames (exec step .start company) :=
  Reaches.exec .refl ⟨received_plainHello 0 (by decide) (by decide) (by decide),
    received_plainHello 1 (by decide) (by decide) (by decide), trivial⟩

theorem company_session : (exec step .start company).session 1 = some ⟨"pong", ⟨"aaaaaa"⟩, 2⟩ := by
  decide

/-- The guest's input of 65531 bytes is still relayed within the limit. -/
theorem input_encodable : ¬ ∃ x ∈ (sends 1 (.input (List.replicate 65531 0))).attempts
    (exec step .start company), x.2.encode = none := by
  have hlen : (List.replicate 65531 (0 : UInt8)).length = 65531 := List.length_replicate
  generalize List.replicate 65531 (0 : UInt8) = blob at hlen
  have hfit : Fit (exec step .start company) (sends 1 (.input blob)) := by
    refine ⟨?_, (fun _ _ _ _ event => by cases event), (fun _ _ event => by cases event)⟩
    rintro _ s room ⟨⟩ hs _ _ _
    obtain rfl := Option.some.inj (company_session.symm.trans hs)
    rw [blobSize, hlen]
    decide
  rintro ⟨x, hx, hnone⟩
  obtain ⟨payload, hsome⟩ := (encodable_iff_fit _ company_reached (sends 1 (.input blob))
    (received_input 1 (by omega))).mpr hfit x hx
  cases hsome.symm.trans hnone

/-- One byte more comes in a full frame, and cannot go out. -/
theorem full_frame_not_relayed : ¬ ∀ sys, ReachedByFrames sys → ∀ a, Received a →
    ∀ x ∈ a.attempts sys, ∃ payload, x.2.encode = some payload := by
  intro hall
  have hlen : (List.replicate 65532 (0 : UInt8)).length = 65532 := List.length_replicate
  generalize List.replicate 65532 (0 : UInt8) = blob at hlen
  have hrun : ((exec step .start company).roomAt "pong" "aaaaaa").any
      (fun room => decide (room.hostPeerId ≠ 2 ∧ room.hostPeerId ∈ room.clients)) = true := by decide
  obtain ⟨room, hr, hhost⟩ := (Option.any_eq_true ..).mp hrun
  obtain ⟨hne, hhost⟩ := of_decide_eq_true hhost
  obtain ⟨tx, hm⟩ := input_attempted (a := sends 1 (.input blob)) rfl company_session hr hne hhost
  have hsize := encode_some.mp (hall _ company_reached _ (received_input 1 (by omega)) _ hm)
  rw [size_peerInput, blobSize, hlen] at hsize
  exact absurd hsize (by decide)

end Roomie.FrameLimits
