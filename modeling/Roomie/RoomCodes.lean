import Roomie.FrameLimits
import Mathlib.Data.List.DropRight

/-!
# Room codes as they are typed, sent and looked up

A code comes in as a string of which only the ASCII letters and digits count. The codes the server
makes up consist of nothing else, so they come back as they went out, and every room is found under
its own code, whatever else is typed in between and in whatever case.
-/

namespace Roomie.RoomCodes
open Bincode HashTables GuardedRuns RoomPool

/-! ## Reading a code -/

/-- The Unicode property `White_Space`. -/
def isWhiteSpace (c : Char) : Bool :=
  [9, 10, 11, 12, 13, 32, 133, 160, 5760, 8192, 8193, 8194, 8195, 8196, 8197, 8198, 8199, 8200, 8201,
    8202, 8232, 8233, 8239, 8287, 12288].contains c.toNat

/-- `str::trim`. -/
def trim (s : List Char) : List Char := (s.dropWhile isWhiteSpace).rdropWhile isWhiteSpace

/-- `RoomCode::deserialize`, once the string has been read. -/
def deserialize (s : String) : RoomCode :=
  ⟨.ofList ((trim s.toList).filter Char.isAlphanum)⟩

theorem not_isAlphanum_of_whiteSpace {c : Char} (h : isWhiteSpace c = true) :
    c.isAlphanum = false := by
  have hc : c.toNat ∈ [9, 10, 11, 12, 13, 32, 133, 160, 5760, 8192, 8193, 8194, 8195, 8196, 8197,
      8198, 8199, 8200, 8201, 8202, 8232, 8233, 8239, 8287, 12288] := by
    simpa [isWhiteSpace] using h
  generalize hn : c.toNat = n at hc
  obtain rfl : c = Char.ofNat n := by rw [← hn, Char.ofNat_toNat]
  revert hc
  clear hn h
  revert n
  decide

/-- Dropping what a filter drops anyway, from the front and from the back. -/
theorem filter_trim {α : Type*} {p q : α → Bool} (h : ∀ a, p a = true → q a = false) (s : List α) :
    ((s.dropWhile p).rdropWhile p).filter q = s.filter q := by
  have hfront : ∀ s : List α, (s.dropWhile p).filter q = s.filter q := by
    intro s
    induction s with
    | nil => rfl
    | cons a s ih =>
      by_cases ha : p a = true
      · rw [List.dropWhile_cons_of_pos ha, ih, List.filter_cons_of_neg (by simp [h a ha])]
      · rw [List.dropWhile_cons_of_neg ha]
  rw [List.rdropWhile, List.filter_reverse, hfront, List.filter_reverse, List.reverse_reverse,
    hfront]

/-- The trimming makes no difference. -/
theorem deserialize_eq (s : String) : deserialize s = ⟨RoomCode.normalize s⟩ := by
  rw [deserialize, trim, filter_trim fun c hc => not_isAlphanum_of_whiteSpace hc]
  rfl

/-- The letters and digits of the string are those of the code, in order and up to case. -/
def Spells (s : String) (code : RoomCode) : Prop :=
  (s.toList.filter Char.isAlphanum).map Char.toLower = code.str.toList.map Char.toLower

instance (s : String) (code : RoomCode) : Decidable (Spells s code) :=
  inferInstanceAs (Decidable (_ = _))

theorem key_deserialize {s : String} {code : RoomCode} :
    (deserialize s).key = code.key ↔ Spells s code := by
  rw [deserialize_eq, RoomCode.key, RoomCode.key, RoomCode.normalize, String.toList_ofList,
    String.ofList_inj]
  rfl

/-! ## Codes of letters and digits -/

/-- Nothing of the code is lost when it is read. -/
def Plain (code : RoomCode) : Prop := ∀ c ∈ code.str.toList, c.isAlphanum = true

theorem Plain.normalize {code : RoomCode} (h : Plain code) :
    RoomCode.normalize code.str = code.str := by
  rw [RoomCode.normalize, List.filter_eq_self.mpr h, String.ofList_toList]

theorem plain_of_normalize {code : RoomCode} (h : RoomCode.normalize code.str = code.str) :
    Plain code := by
  intro c hc
  rw [← h, RoomCode.normalize, String.toList_ofList] at hc
  exact (List.mem_filter.mp hc).2

theorem Plain.deserialize_eq {code : RoomCode} (h : Plain code) : deserialize code.str = code := by
  rw [RoomCodes.deserialize_eq, h.normalize]

theorem plain_of_generated {code : RoomCode} (h : Generated code) : Plain code := by
  have halphabet : ∀ c ∈ roomCodeChars, c.isAlphanum = true := List.all_eq_true.mp (by decide)
  intro c hc
  cases h with
  | random draws =>
    simp only [randomCode, String.toList_ofList, List.mem_map, List.mem_range] at hc
    obtain ⟨i, _, rfl⟩ := hc
    have hlt : (draws i : ℕ) < roomCodeChars.length := (draws i).isLt
    rw [← List.getElem_eq_getD (h := hlt)]
    exact halphabet _ (List.getElem_mem hlt)
  | fallback n =>
    rw [fallbackCode, String.toList_append] at hc
    rcases List.mem_append.mp hc with hc | hc
    · exact List.all_eq_true.mp (by decide : "R".toList.all Char.isAlphanum = true) c hc
    · rw [Nat.toString_eq_repr, Nat.toList_repr] at hc
      have hdigit := Nat.isDigit_of_mem_toDigits (by decide) (by decide) hc
      simp [Char.isAlphanum, hdigit]

/-- The code comes back from the wire as it was sent, whatever follows it. -/
def Survives (code : RoomCode) : Prop := roomCodeFormat.Accepts (roomCodeFormat.write code) code

theorem survives_of_plain {code : RoomCode} (h : Plain code)
    (hlen : byteLen code.str < 18446744073709551616) : Survives code :=
  roomCodeFormat.accepts_write ⟨⟨hlen, trivial⟩, h.normalize⟩

/-! ## Looking a code up -/

/-- The rooms stand under their own codes, which the server has made up. -/
def Coded (pool : RoomPool) : Prop :=
  ∀ key room, pool.rooms.lookup key = some room → room.code.key = key ∧ Generated room.code

/-- Pools whose rooms have all been created without a requested code. Rooms change under their
locks, but not their codes, and those left vacant are removed. -/
inductive Filled : RoomPool → Prop
  | new (appKey : String) : Filled (.new appKey)
  | create {env : Env} {pool pool' : RoomPool} {n : UInt64} {settings : RoomSettings}
      {code : RoomCode} {room : Room} (before : Filled pool)
      (created : (createRoom env pool n settings "").1 = some (code, room, pool')) : Filled pool'
  | change {pool : RoomPool} {key : String} {room room' : Room} (before : Filled pool)
      (there : pool.rooms.lookup key = some room) (same : room'.code = room.code) :
      Filled { pool with rooms := pool.rooms.insert key room' }
  | remove {pool : RoomPool} (before : Filled pool) (code : RoomCode) (locked : Bool) :
      Filled (pool.removeIfEmpty code locked)

theorem Filled.coded {pool : RoomPool} (h : Filled pool) : Coded pool := by
  induction h with
  | new appKey =>
    intro key room hr
    simp [RoomPool.new] at hr
  | create _ created ih =>
    obtain ⟨_, rfl, rfl⟩ := createRoom_some created
    intro key room hr
    rcases AList.lookup_insert_some.mp hr with ⟨rfl, rfl⟩ | ⟨_, hr⟩
    · exact ⟨rfl, createRoom_generated created⟩
    · exact ih key room hr
  | change _ there same ih =>
    intro key room hr
    rcases AList.lookup_insert_some.mp hr with ⟨rfl, rfl⟩ | ⟨_, hr⟩
    · rw [same]
      exact ih key _ there
    · exact ih key room hr
  | remove _ code locked ih =>
    intro key room hr
    unfold RoomPool.removeIfEmpty at hr
    split at hr
    · split_ifs at hr
      · exact ih key room (AList.lookup_erase_some.mp hr).2
      · exact ih key room hr
    · exact ih key room hr

/-- A room is found by the strings that spell its code, and by no others. -/
theorem Coded.getRoom_iff {pool : RoomPool} (h : Coded pool) {key : String} {room : Room}
    (hr : pool.rooms.lookup key = some room) (s : String) :
    pool.getRoom (deserialize s) = some room ↔ Spells s room.code := by
  obtain ⟨rfl, _⟩ := h key room hr
  rw [← key_deserialize]
  constructor
  · intro hget
    exact (h _ room hget).1.symm
  · intro hkey
    rw [getRoom, hkey, hr]

/-- A string does not spell the codes of two rooms. -/
theorem Coded.unique {pool : RoomPool} (h : Coded pool) {s key key' : String} {room room' : Room}
    (hr : pool.rooms.lookup key = some room) (hr' : pool.rooms.lookup key' = some room')
    (hs : Spells s room.code) (hs' : Spells s room'.code) : key = key' := by
  rw [← (h key room hr).1, ← (h key' room' hr').1, ← key_deserialize.mpr hs,
    ← key_deserialize.mpr hs']

/-- What is listed of a room is the code it is found by. -/
theorem Coded.listed {pool : RoomPool} (h : Coded pool) {env : Env} {entry : RoomListEntry}
    (he : entry ∈ pool.listPublicRooms env) : Survives entry.roomCode ∧
      ∃ room, listEntry room = some entry ∧ pool.getRoom (deserialize entry.roomCode.str) = some room := by
  obtain ⟨⟨key, room⟩, hmem, hentry⟩ := List.mem_filterMap.mp he
  have hr := AList.mem_iter.mp hmem
  obtain ⟨rfl, hgen⟩ := h key room hr
  have hcode : entry.roomCode = room.code := by
    unfold listEntry at hentry
    split_ifs at hentry
    rw [← Option.some.inj hentry]
  have hplain := plain_of_generated hgen
  rw [hcode]
  refine ⟨survives_of_plain hplain ?_, room, hentry, ?_⟩
  · have hlen := FrameLimits.byteLen_generated hgen
    omega
  · rw [hplain.deserialize_eq]
    exact hr

/-! ## The codes the server sends -/

/-- A string finds a room exactly when it spells its code, it spells no two codes, and what is
listed of a room comes back as it went out and finds it. -/
structure Exact (pool : RoomPool) : Prop where
  found : ∀ key room, pool.rooms.lookup key = some room →
    ∀ s, pool.getRoom (deserialize s) = some room ↔ Spells s room.code
  unique : ∀ s key key' room room', pool.rooms.lookup key = some room →
    pool.rooms.lookup key' = some room' → Spells s room.code → Spells s room'.code → key = key'
  listed : ∀ env, ∀ entry ∈ pool.listPublicRooms env, Survives entry.roomCode ∧
    ∃ room, listEntry room = some entry ∧ pool.getRoom (deserialize entry.roomCode.str) = some room

theorem Coded.exact {pool : RoomPool} (h : Coded pool) : Exact pool where
  found _ _ hr := h.getRoom_iff hr
  unique _ _ _ _ _ hr hr' := h.unique hr hr'
  listed _ _ := h.listed

/-- Every room of every app stands under its own code. -/
def CodedRooms (s : Server) : Prop :=
  ∀ appKey key room, s.roomAt appKey key = some room → room.code.key = key ∧ Generated room.code

theorem CodedRooms.coded {s : Server} (h : CodedRooms s) {appKey : String} {pool : RoomPool}
    (hp : s.registry.lookup appKey = some pool) : Coded pool :=
  fun key room hr => h appKey key room (Server.roomAt_eq_some.mpr ⟨pool, hp, hr⟩)

theorem CodedRooms.of_same {s s' : Server} (h : CodedRooms s) (same : SameRooms s s') :
    CodedRooms s' := by
  intro appKey key room hr
  exact h appKey key room ((same appKey key).symm.trans hr)

theorem CodedRooms.of_put {s s' : Server} (h : CodedRooms s) {appKey key : String}
    {put : Option Room} (hput : RoomPut s appKey key put s')
    (hroom : ∀ room, put = some room → room.code.key = key ∧ Generated room.code) :
    CodedRooms s' := by
  intro appKey' key' room hr
  by_cases hk : appKey' = appKey ∧ key' = key
  · obtain ⟨rfl, rfl⟩ := hk
    exact hroom room (hput.here.symm.trans hr)
  · exact h appKey' key' room ((hput.elsewhere hk).symm.trans hr)

theorem CodedRooms.left {env : Env} {s : Server} (h : CodedRooms s) (session : Option Session)
    (net : Net) : CodedRooms (leaveSession env s session net).1 := by
  intro appKey key room' hr
  obtain ⟨room, hat, ⟨rfl, _⟩ | ⟨old, _, _, _, rfl, _⟩⟩ := leaveSession_roomAt hr
  · exact h appKey key _ hat
  · rw [((room.removePeer_shrunkTo env old.peerId net).data).code]
    exact h appKey key room hat

theorem CodedRooms.opened {s s' : Server} (h : CodedRooms s) {hello : Hello} {code : RoomCode}
    {room : Room} (ho : Opened s hello s' code room) :
    CodedRooms s' ∧ room.code.key = code.key ∧ Generated room.code := by
  have hroom : room.code.key = code.key ∧ Generated room.code := by
    rcases ho.origin with ⟨_, _, hat⟩ | ⟨_, _, hgen, app, settings, rfl⟩
    · exact h _ _ room hat
    · exact ⟨rfl, hgen⟩
  refine ⟨h.of_put ho.put ?_, hroom⟩
  rintro _ ⟨⟩
  exact hroom

theorem step_coded {sys : Sys} (h : CodedRooms sys.server) (a : Action) :
    CodedRooms (step sys a).server := by
  change CodedRooms (a.outcome sys).server
  have hres := Action.result sys a
  revert hres
  generalize a.outcome sys = out
  intro hres
  cases hres with
  | idle same => exact h.of_same same
  | read _ _ same _ => exact h.of_same same
  | @op s o room s' _ _ _ found put =>
    refine h.of_put put ?_
    rintro _ ⟨⟩
    rw [(o.run_shrunkTo a.env room []).data.code, (o.edit_place room).2]
    exact h _ _ room found
  | left _ => exact h.left _ []
  | @hello hello o _ _ result =>
    have hleft : CodedRooms (leaveSession a.env sys.server (sys.session a.conn) []).1 := h.left _ []
    cases result with
    | refused same => exact hleft.of_same same
    | rejected gate opened _ _ put =>
      obtain ⟨hcoded, hroom⟩ := (hleft.of_same (helloGate_ok gate).2).opened opened
      refine hcoded.of_put put ?_
      rintro _ ⟨⟩
      exact hroom
    | joined gate opened admitted put =>
      obtain ⟨hcoded, hroom⟩ := (hleft.of_same (helloGate_ok gate).2).opened opened
      refine hcoded.of_put put ?_
      rintro _ ⟨⟩
      rw [admitted.data.2.2.2]
      exact hroom

theorem reachable_coded {sys : Sys} (h : Reachable sys) : CodedRooms sys.server := by
  refine h.invariant (I := fun sys => CodedRooms sys.server) ?_ fun sys a hs _ => step_coded hs a
  intro appKey key room hr
  simp [Sys.start, Server.start, Server.roomAt] at hr

/-- The code of a message that was received is one that was read. -/
theorem hello_plain {a : Action} (ha : FrameLimits.Received a) {h : Hello}
    (event : a.event = .message (.hello h)) :
    Plain h.roomCode ∧ byteLen h.roomCode.str < 18446744073709551616 := by
  obtain ⟨payload, _, hd⟩ := ha _ event
  obtain ⟨f, hf, hfits⟩ := (decode_spec hd).1
  obtain rfl := Option.some.inj hf
  obtain ⟨_, ⟨⟩, ⟨_, ⟨hcode, hgood⟩, _⟩, _⟩ := hfits
  exact ⟨plain_of_normalize hgood, hcode.1⟩

/-- The code of a `Joined` comes back as it went out, and names the room of the new session. -/
theorem joined_code {sys : Sys} {a : Action} (ha : FrameLimits.Received a)
    {x : ConnId × ServerMessage} (hx : x ∈ a.attempts sys) {code : RoomCode} {pid host : PeerId}
    {side : UInt8} {settings : RoomSettings} {state : Option Blob}
    (hm : x.2 = .joined code pid host side settings state) : Survives code ∧
      ∃ appKey room i, (step sys a).server.lookupRoom appKey (deserialize code.str) = some room ∧
        room.HasMember pid i ∧ i.tx = a.conn := by
  have hemitted := Action.emitted sys a x hx
  rw [hm] at hemitted
  cases hemitted with
  | told _ _ tells => cases tells
  | @joined hello s₁ s₂ code' room room' net net' pid' _ event gate opened admitted found =>
    obtain ⟨rfl, rfl, _⟩ := ServerMessage.joined.inj admitted.joined_eq
    have hsurvives : Plain code ∧ byteLen code.str < 18446744073709551616 := by
      rcases opened.origin with ⟨_, rfl, _⟩ | ⟨_, _, hgen, _⟩
      · exact hello_plain ha event
      · refine ⟨plain_of_generated hgen, ?_⟩
        have hlen := FrameLimits.byteLen_generated hgen
        omega
    refine ⟨survives_of_plain hsurvives.1 hsurvives.2, hello.appKey, room', _, ?_,
      admitted.member, rfl⟩
    rw [hsurvives.1.deserialize_eq]
    exact found

/-- What is listed, asked of the pool of an app, finds the room it is about. -/
theorem listed_code {sys : Sys} (h : Reachable sys) {a : Action} {x : ConnId × ServerMessage}
    (hx : x ∈ a.attempts sys) {rooms : List RoomListEntry} (hm : x.2 = .roomList rooms)
    {entry : RoomListEntry} (he : entry ∈ rooms) : Survives entry.roomCode ∧
      ∃ appKey room, listEntry room = some entry ∧
        sys.server.lookupRoom appKey (deserialize entry.roomCode.str) = some room := by
  have hemitted := Action.emitted sys a x hx
  rw [hm] at hemitted
  cases hemitted with
  | told _ _ tells => cases tells
  | joined _ _ _ admitted _ => cases admitted.joined_eq
  | noRooms => cases he
  | @rooms appKey pool _ _ found =>
    obtain ⟨hsurvives, room, hentry, hget⟩ := ((reachable_coded h).coded found).listed he
    refine ⟨hsurvives, appKey, room, hentry, ?_⟩
    rw [Server.lookupRoom, found, Option.bind_some, hget]

/-- The codes in what an action sends come back as they went out; the one in a `Joined` finds the
room the receiver is a member of, those in a list the rooms they are listed for. -/
structure SentCodes (sys : Sys) (a : Action) : Prop where
  joined : ∀ x ∈ a.attempts sys, ∀ code pid host side settings state,
    x.2 = .joined code pid host side settings state → Survives code ∧
      ∃ appKey room i, (step sys a).server.lookupRoom appKey (deserialize code.str) = some room ∧
        room.HasMember pid i ∧ i.tx = a.conn
  listed : ∀ x ∈ a.attempts sys, ∀ rooms, x.2 = .roomList rooms → ∀ entry ∈ rooms,
    Survives entry.roomCode ∧ ∃ appKey room, listEntry room = some entry ∧
      sys.server.lookupRoom appKey (deserialize entry.roomCode.str) = some room

/-- Codes are looked up tolerantly but exactly: in every pool that was filled by creating rooms
without a requested code, among them those of every reachable state, and for every code sent. -/
theorem room_codes_exact (pool : RoomPool) (hpool : Filled pool) (sys : Sys) (hsys : Reachable sys)
    (a : Action) (ha : FrameLimits.Received a) : Exact pool ∧
      (∀ appKey p, sys.server.registry.lookup appKey = some p → Exact p) ∧ SentCodes sys a := by
  refine ⟨hpool.coded.exact, fun appKey p hp => ((reachable_coded hsys).coded hp).exact, ?_⟩
  exact
    { joined := fun x hx _ _ _ _ _ _ hm => joined_code ha hx hm
      listed := fun x hx _ hm _ he => listed_code hsys hx hm he }

/-- A room of six drawn letters, typed with what does not count. -/
theorem typed_code_found : ∃ pool room, Filled pool ∧ room.code = ⟨"AAAAAA"⟩ ∧
    pool.getRoom (deserialize " aA-aa aa\n") = some room := by
  obtain ⟨⟨code, room, pool⟩, hcreated⟩ := Option.isSome_iff_exists.mp
    (by decide : (createRoom .quiet (.new "pong") 0 .default "").1.isSome = true)
  have hpool : Filled pool := .create (.new "pong") hcreated
  have hcode : code = ⟨"AAAAAA"⟩ := by
    have hall : (createRoom .quiet (.new "pong") 0 .default "").1.all
        (fun x => x.1 == ⟨"AAAAAA"⟩) = true := by decide
    rw [hcreated] at hall
    simpa using hall
  obtain ⟨_, rfl, rfl⟩ := createRoom_some hcreated
  have hexact := (room_codes_exact _ hpool .start .refl (sends 0 (plainHello "" "h"))
    (FrameLimits.received_plainHello 0 (by decide) (by decide) (by decide))).1
  exact ⟨_, _, hpool, hcode, (hexact.found _ _ (AList.lookup_insert _) _).mpr
    (by rw [Room.new, hcode]; decide)⟩

end Roomie.RoomCodes
