import Roomie.CursorSimulations
import Roomie.CppDecoder
import Roomie.CsharpDecoder

/-!
# The two decoders on arbitrary bytes

Where the C# decoder throws nothing, the C++ decoder reads the same bytes and calls the same
callback, with one exception that it makes itself: an input or a state without a byte is not passed
on. Nothing is supposed of the bytes; they need not come from a server.
-/

namespace Roomie.DecoderAgreement
open Bincode Cursors

variable (rt : Csharp.Runtime)

/-- A string, and the bytes it was decoded from. -/
def SameString (s : String) (b : Bytes) : Prop := s = Csharp.getString rt b

/-- An absent password is null for one client and empty for the other. -/
structure SameSettings (s : Csharp.RoomSettings) (t : Cpp.RoomSettings) : Prop where
  maxPlayers : s.maxPlayers = t.maxPlayers
  minPlayers : s.minPlayers = t.minPlayers
  isPublic : s.isPublic = t.isPublic
  password : SameString rt (s.password.getD "") t.password
  acceptRequired : s.acceptRequired = t.acceptRequired

structure SameRoom (e : ListedRoom String Csharp.RoomSettings)
    (e' : ListedRoom Bytes Cpp.RoomSettings) : Prop where
  roomCode : SameString rt e.roomCode e'.roomCode
  playerCount : e.playerCount = e'.playerCount
  settings : SameSettings rt e.settings e'.settings

/-- The same callback with the same arguments. -/
def SameCall : Csharp.Call → Cpp.Call → Prop
  | .joined code pid host side settings state, .joined code' pid' host' side' settings' state' =>
    SameString rt code code' ∧ pid = pid' ∧ host = host' ∧ side = side' ∧
      SameSettings rt settings settings' ∧ state.getD [] = state'
  | .roomList rooms, .roomList rooms' => List.Forall₂ (SameRoom rt) rooms rooms'
  | .peerJoined pid hash name, .peerJoined pid' hash' name' =>
    pid = pid' ∧ SameString rt hash hash' ∧ name = name'.map (Csharp.getString rt)
  | .peerLeft pid, .peerLeft pid' => pid = pid'
  | .peerInput pid data, .peerInput pid' data' => pid = pid' ∧ data = data'
  | .stateUpdate data, .stateUpdate data' => data = data'
  | .moveAccepted, .moveAccepted => True
  | .moveRejected reason, .moveRejected reason' => SameString rt reason reason'
  | .hostTransferred pid, .hostTransferred pid' => pid = pid'
  | .kicked, .kicked => True
  | .banned, .banned => True
  | .settingsChanged settings, .settingsChanged settings' => SameSettings rt settings settings'
  | .pong, .pong => True
  | .error message, .error message' => SameString rt message message'
  | _, _ => False

/-- An input or a state without a byte. -/
def blank : Csharp.Call → Bool
  | .peerInput _ data => data.isEmpty
  | .stateUpdate data => data.isEmpty
  | _ => false

/-- The C++ client makes the same call, or none where the C# client makes none or a blank one. -/
def Agree (call : Option Csharp.Call) (call' : Option Cpp.Call) : Prop :=
  match call with
  | none => call' = none
  | some c => if blank c then call' = none else ∃ c', call' = some c' ∧ SameCall rt c c'

section
variable {data : Bytes} {lo : ℕ} (hL : data.length ≤ maxFrameLen)
include hL

/-- A sum that did not wrap in 32 bits is within the data. -/
theorem need_in {pos n : ℕ} (hpos : pos ≤ data.length) (hn : n ≤ 65536)
    (h : Csharp.need data pos n = true) : pos + n ≤ data.length := by
  rw [maxFrameLen] at hL
  exact (Csharp.need_iff (by omega)).mp h

theorem cpp_need {pos n : ℕ} (h : pos + n ≤ data.length) : Cpp.need data pos n = true := by
  rw [maxFrameLen] at hL
  exact (Cpp.need_iff (by omega)).mpr h

theorem readByte_precedes (what : String) :
    Precedes data (· = ·) (Csharp.readByte what) Cpp.readU8 := by
  intro pos b p hpos hr
  unfold Csharp.readByte at hr
  split_ifs at hr with hneed
  obtain ⟨rfl, rfl⟩ := Prod.mk.inj (Except.ok.inj hr)
  have hin := need_in hL hpos (by decide) hneed
  exact ⟨Nat.lt_succ_self pos, hin, _, if_pos (cpp_need hL hin), rfl⟩

omit hL in
theorem readLittleEndian_ok {k : ℕ} {what : String} {pos n p : ℕ}
    (h : Csharp.readLittleEndian k what data pos = .ok (n, p)) :
    Csharp.need data pos k = true ∧ n = ofLittleEndian (Cursor.slice data pos k) ∧ p = pos + k := by
  unfold Csharp.readLittleEndian at h
  split_ifs at h with hneed
  obtain ⟨rfl, rfl⟩ := Prod.mk.inj (Except.ok.inj h)
  exact ⟨hneed, rfl, rfl⟩

omit hL in
/-- What a marker that is read makes follow. -/
theorem readVarintTail_ok {b : UInt8} {pos n p : ℕ}
    (h : Csharp.readVarintTail b data pos = .ok (n, p)) :
    (b.toNat < 251 ∧ n = b.toNat ∧ p = pos) ∨
      ∃ k what, (b = 251 ∧ k = 2 ∨ b = 252 ∧ k = 4 ∨ b = 253 ∧ k = 8) ∧
        Csharp.readLittleEndian k what data pos = .ok (n, p) := by
  unfold Csharp.readVarintTail at h
  by_cases hone : b.toNat < 251
  · rw [if_pos hone] at h
    cases h
    exact .inl ⟨hone, rfl, rfl⟩
  right
  rw [if_neg hone] at h
  by_cases htwo : b = 251
  · rw [if_pos htwo] at h
    exact ⟨2, _, .inl ⟨htwo, rfl⟩, h⟩
  rw [if_neg htwo] at h
  by_cases hfour : b = 252
  · rw [if_pos hfour] at h
    exact ⟨4, _, .inr (.inl ⟨hfour, rfl⟩), h⟩
  rw [if_neg hfour] at h
  by_cases height : b = 253
  · exact ⟨8, _, .inr (.inr ⟨height, rfl⟩),
      (congrFun (congrFun (if_pos height) data) pos).symm.trans h⟩
  · cases (congrFun (congrFun (if_neg height) data) pos).symm.trans h

/-- Where one reader finds all bytes of a number the other does not take the marker alone. -/
theorem readVarint_precedes : Precedes data (· = ·) Csharp.readVarint Cpp.readVarint := by
  intro pos n p hpos hr
  obtain ⟨b, q, hbyte, htail⟩ := bind_eq_ok hr
  obtain ⟨-, hin, b', hb', rfl⟩ := readByte_precedes hL "varint" pos b q hpos hbyte
  unfold Csharp.readByte at hbyte
  split_ifs at hbyte
  obtain ⟨rfl, rfl⟩ := Prod.mk.inj (Except.ok.inj hbyte)
  unfold Cpp.readVarint
  rw [if_pos (cpp_need hL hin)]
  dsimp only
  generalize data.getD pos 0 = b at htail ⊢
  obtain ⟨hone, rfl, rfl⟩ | ⟨k, what, hmarker, hmore⟩ := readVarintTail_ok htail
  · exact ⟨Nat.lt_succ_self pos, hin, _, if_pos hone, rfl⟩
  · obtain ⟨hthere, hn, rfl⟩ := readLittleEndian_ok hmore
    have hin' := need_in hL hin (by omega) hthere
    refine ⟨by omega, hin', n, ?_, rfl⟩
    obtain ⟨rfl, rfl⟩ | ⟨rfl, rfl⟩ | ⟨rfl, rfl⟩ := hmarker <;>
    · rw [hn, cpp_need hL hin']
      rfl

omit hL in
/-- What a length lets one reader take it lets the other take. -/
theorem readLength_ok {limit : ℕ} {tooLarge tooShort : String} {len pos : ℕ} {b : Bytes} {p : ℕ}
    (h : Csharp.readLength limit tooLarge tooShort len data pos = .ok (b, p)) :
    len ≤ limit ∧ pos + len ≤ data.length ∧ b = Cursor.slice data pos len ∧ p = pos + len := by
  unfold Csharp.readLength at h
  split_ifs at h with hlimit hneed hlen
  obtain ⟨rfl, rfl⟩ := Prod.mk.inj (Except.ok.inj h)
  exact ⟨by omega, by omega, rfl, rfl⟩

theorem readLength_follows (limit : ℕ) (tooLarge tooShort : String) (len : ℕ) :
    Follows data lo (· = ·) (Csharp.readLength limit tooLarge tooShort len)
      (Cpp.readLength limit len) := by
  intro pos b p _ _ hr
  obtain ⟨hlimit, hin, rfl, rfl⟩ := readLength_ok hr
  refine ⟨Nat.le_add_right _ _, hin, _, ?_, rfl⟩
  rw [Cpp.readLength, cpp_need hL hin, if_neg (by simpa using hlimit)]

theorem skip_follows (n : ℕ) (hn : n ≤ 65536) (message : String) :
    Follows data lo (fun _ _ => True) (Csharp.skip n message) (Cpp.skip n) := by
  intro pos a p _ hpos hr
  unfold Csharp.skip at hr
  split_ifs at hr with hneed
  obtain ⟨rfl, rfl⟩ := Prod.mk.inj (Except.ok.inj hr)
  have hin := need_in hL hpos hn hneed
  refine ⟨Nat.le_add_right _ _, hin, (), ?_, trivial⟩
  rw [Cpp.skip, if_pos (cpp_need hL hin), Nat.mod_eq_of_lt (by rw [maxFrameLen] at hL; omega)]

theorem readU8_precedes : Precedes data (· = ·) Csharp.readU8 Cpp.readU8 :=
  readByte_precedes hL "u8"

theorem readU32Varint_follows :
    Follows data lo (· = ·) Csharp.readU32Varint Cpp.readU32Varint :=
  (readVarint_precedes hL).follows.map fun _ _ h => congrArg UInt32.ofNat h

theorem readBytes_follows : Follows data lo (· = ·) Csharp.readBytes Cpp.readBytes := by
  refine (readVarint_precedes hL).follows.bind fun n m h => ?_
  subst h
  exact readLength_follows hL _ _ _ n

theorem readString_precedes :
    Precedes data (SameString rt) (Csharp.readString rt) Cpp.readStr := by
  intro pos str p hpos hr
  unfold Csharp.readString at hr
  rw [Cursor.map_eq_bind] at hr
  obtain ⟨b, q, hblob, hstr⟩ := bind_eq_ok hr
  obtain ⟨rfl, rfl⟩ := Prod.mk.inj (Except.ok.inj hstr)
  obtain ⟨len, q', hlen, hbytes⟩ := bind_eq_ok hblob
  obtain ⟨hahead, hq', len', hlen', rfl⟩ := readVarint_precedes hL pos len q' hpos hlen
  obtain ⟨hq, hin, b', hb', rfl⟩ :=
    readLength_follows hL _ _ _ len q' b q (Nat.zero_le _) hq' hbytes
  exact ⟨by omega, hin, b, bind_eq_some hlen' hb', rfl⟩

theorem readOptString_follows : Follows data lo
    (fun s t => s = t.map (Csharp.getString rt)) (Csharp.readOptString rt) Cpp.readOptStr := by
  refine (readU8_precedes hL).follows.bind fun tag tag' h => ?_
  subst h
  split_ifs
  · exact .pure rfl
  · exact (readString_precedes rt hL).follows.map fun s b h => congrArg some h

/-- A string that one reads the other steps over. -/
theorem skipString_follows : Follows data lo (fun _ _ => True) (discard (Csharp.readString rt))
    (Cpp.readVarint >>= Cpp.skip) := by
  have hblob : ∀ (limit : ℕ) (tooLarge tooShort : String), Follows data lo (fun _ _ => True)
      (Csharp.readVarint >>= Csharp.readLength limit tooLarge tooShort)
      (Cpp.readVarint >>= Cpp.skip) := by
    intro limit tooLarge tooShort
    refine (readVarint_precedes hL).follows.bind fun n m h => ?_
    subst h
    intro pos b p _ _ hr
    obtain ⟨-, hin, -, rfl⟩ := readLength_ok hr
    refine ⟨Nat.le_add_right _ _, hin, (), ?_, trivial⟩
    rw [Cpp.skip, if_pos (cpp_need hL hin), Nat.mod_eq_of_lt (by rw [maxFrameLen] at hL; omega)]
  have hstring : Follows data lo (fun _ _ => True) (Csharp.readString rt)
      (Cpp.readVarint >>= Cpp.skip) := (hblob _ _ _).map_left fun _ _ _ => trivial
  exact hstring.map_left fun _ _ _ => trivial

/-- A custom value is skipped alike where there is room for as many nested calls, or for as many as
bytes are left. -/
theorem skipBincodeJsonValue_follows {stack depth : ℕ}
    (hroom : stack ≤ depth ∨ data.length < lo + depth) :
    Follows data lo (fun _ _ => True) (Csharp.skipBincodeJsonValue rt stack)
      (Cpp.skipBincodeJsonValue depth) := by
  induction stack generalizing lo depth with
  | zero => exact .error fun pos x => nofun
  | succ stack ih =>
    cases depth with
    | zero =>
      intro pos a p hlo hpos _
      omega
    | succ depth =>
      refine (readVarint_precedes hL).bind fun tag tag' h => ?_
      subst h
      have hnested : Follows data (lo + 1) (fun _ _ => True)
          (Csharp.skipBincodeJsonValue rt stack) (Cpp.skipBincodeJsonValue depth) :=
        ih (by omega)
      have hcount : Follows data (lo + 1) (· = ·) Csharp.readVarint Cpp.readVarint :=
        (readVarint_precedes hL).follows
      match tag with
      | 0 => exact .pure trivial
      | 1 => exact (readU8_precedes hL).follows.discard
      | 2 => exact skip_follows hL 8 (by decide) _
      | 3 => exact skipString_follows rt hL
      | 4 =>
        refine hcount.bind fun n m h => ?_
        subst h
        exact (hnested.collect n).discard
      | 5 =>
        refine hcount.bind fun n m h => ?_
        subst h
        have hentry := (readString_precedes rt hL).follows.discard.bind fun _ _ _ => hnested
        exact (hentry.collect n).discard
      | tag + 6 => exact .error fun pos x => nofun

omit hL in
/-- An absent string is null for one client and empty for the other. -/
theorem sameString_getD {rt : Csharp.Runtime} {s : Option String} {t : Option Bytes}
    (h : s = t.map (Csharp.getString rt)) : SameString rt (s.getD "") (t.getD []) := by
  subst h
  cases t with
  | none => exact (Csharp.getString_utf8 rt "").symm
  | some b => rfl

section
variable {depth : ℕ} (hroom : rt.stack ≤ depth ∨ data.length < depth)
include hroom

theorem readRoomSettings_follows : Follows data lo (SameSettings rt)
    (Csharp.readRoomSettings rt) (Cpp.readRoomSettings depth) := by
  have hnumber : Follows data lo (· = ·) Csharp.readU32Varint Cpp.readU32Varint :=
    readU32Varint_follows hL
  have hflag : Follows data lo (fun b n => b = decide (n ≠ 0)) Csharp.readBool Cpp.readU8 :=
    (readU8_precedes hL).follows.map_left fun b n h => by rw [h]
  refine hnumber.bind fun maxPlayers _ hmax => hnumber.bind fun minPlayers _ hmin =>
    hflag.bind fun isPublic _ hpublic => (readOptString_follows rt hL).bind fun password _ hpass =>
      hflag.bind fun acceptRequired _ haccept =>
        (readU8_precedes hL).follows.bind fun tag tag' htag => ?_
  subst htag
  have hsettings := sameString_getD hpass
  split_ifs
  · exact (skipBincodeJsonValue_follows rt hL (by omega)).bind fun _ _ _ =>
      .pure ⟨hmax, hmin, hpublic, hsettings, haccept⟩
  · exact .pure ⟨hmax, hmin, hpublic, hsettings, haccept⟩

theorem readListedRoom_follows : Follows data lo (SameRoom rt)
    (Csharp.readListedRoom rt) (Cpp.readListedRoom depth) :=
  (readString_precedes rt hL).follows.bind fun _ _ hcode =>
    (readU32Varint_follows hL).bind fun _ _ hcount =>
      (readRoomSettings_follows rt hL hroom).bind fun _ _ hsettings =>
        .pure ⟨hcode, hcount, hsettings⟩

theorem readList_follows : Follows data lo (List.Forall₂ (SameRoom rt))
    (Csharp.readList rt) (Cpp.readList depth) := by
  refine (readVarint_precedes hL).follows.bind fun n m h => ?_
  subst h
  exact (readListedRoom_follows rt hL hroom).collect n

end

theorem readState_follows :
    Follows data lo (fun s t => s.getD [] = t) Csharp.readState Cpp.readState := by
  refine (readU8_precedes hL).follows.bind fun tag tag' h => ?_
  subst h
  split_ifs
  · exact (readBytes_follows hL).map_left fun b c h => h
  · exact .pure rfl

end

section
variable {rt} {handlers : Callback → Bool}

theorem agree_invoke {c : Csharp.Call} {c' : Cpp.Call} (h : SameCall rt c c')
    (hcallback : c.callback = c'.callback) (hblank : blank c = false) :
    Agree rt (c.invoke handlers) (c'.invoke handlers) := by
  unfold Call.invoke
  rw [← hcallback]
  split_ifs
  · unfold Agree
    dsimp only
    rw [if_neg (by simp [hblank])]
    exact ⟨c', rfl, h⟩
  · rfl

/-- Data without a byte is given to one client's callback and not to the other's. -/
theorem agree_invoke_data {c : Csharp.Call} {c' : Cpp.Call} {data : Bytes} (h : SameCall rt c c')
    (hcallback : c.callback = c'.callback) (hblank : blank c = data.isEmpty) :
    Agree rt (c.invoke handlers) (if data.isEmpty then none else c'.invoke handlers) := by
  by_cases hdata : data.isEmpty = true
  · rw [if_pos hdata]
    unfold Call.invoke Agree
    split_ifs
    · dsimp only
      rw [if_pos (hblank.trans hdata)]
    · rfl
  · rw [if_neg hdata]
    exact agree_invoke h hcallback (by rw [hblank]; simpa using hdata)

end

section
variable {data : Bytes} {lo : ℕ} (hL : data.length ≤ maxFrameLen) {depth : ℕ}
  (hroom : rt.stack ≤ depth ∨ data.length < depth) (handlers : Callback → Bool) (su : Cpp.Session)
include hL hroom

theorem dispatchEvent_follows (ev : ℕ) : Follows data lo (fun call x => Agree rt call x.2)
    (Csharp.dispatchEvent rt handlers ev) (Cpp.dispatchEvent handlers depth su ev) :=
  match ev with
  | 0 => (readU32Varint_follows hL).bind fun _ _ hid => .pure (agree_invoke hid rfl rfl)
  | 1 => .pure (agree_invoke trivial rfl rfl)
  | 2 => .pure (agree_invoke trivial rfl rfl)
  | 3 => (readRoomSettings_follows rt hL hroom).bind fun _ _ hsettings =>
      .pure (agree_invoke hsettings rfl rfl)
  | _ + 4 => .pure rfl

theorem dispatchTag_follows (tag : ℕ) : Follows data lo (fun call x => Agree rt call x.2)
    (Csharp.dispatchTag rt handlers tag) (Cpp.dispatchTag handlers depth su tag) :=
  match tag with
  | 0 => (readString_precedes rt hL).follows.bind fun _ _ hcode =>
      (readU32Varint_follows hL).bind fun _ _ hid => (readU32Varint_follows hL).bind fun _ _ hhost =>
        (readU8_precedes hL).follows.bind fun _ _ hside =>
          (readRoomSettings_follows rt hL hroom).bind fun _ _ hsettings =>
            (readState_follows hL).bind fun _ _ hstate =>
              .pure (agree_invoke ⟨hcode, hid, hhost, hside, hsettings, hstate⟩ rfl rfl)
  | 1 => (readList_follows rt hL hroom).bind fun _ _ hlist => .pure (agree_invoke hlist rfl rfl)
  | 2 => (readU32Varint_follows hL).bind fun _ _ hid =>
      (readString_precedes rt hL).follows.bind fun _ _ hhash =>
        (readOptString_follows rt hL).bind fun _ _ hname =>
          .pure (agree_invoke ⟨hid, hhash, hname⟩ rfl rfl)
  | 3 => (readU32Varint_follows hL).bind fun _ _ hid => .pure (agree_invoke hid rfl rfl)
  | 4 => (readU32Varint_follows hL).bind fun _ _ hid => (readBytes_follows hL).bind fun _ _ hdata => by
      subst hdata
      exact .pure (agree_invoke_data ⟨hid, rfl⟩ rfl rfl)
  | 5 => (readBytes_follows hL).bind fun _ _ hdata => by
      subst hdata
      exact .pure (agree_invoke_data rfl rfl rfl)
  | 6 => .pure (agree_invoke trivial rfl rfl)
  | 7 => (readString_precedes rt hL).follows.bind fun _ _ hreason =>
      .pure (agree_invoke hreason rfl rfl)
  | 8 => (readVarint_precedes hL).follows.bind fun _ _ hev => by
      subst hev
      exact dispatchEvent_follows rt hL hroom handlers su _
  | 9 => .pure (agree_invoke trivial rfl rfl)
  | 10 => (readString_precedes rt hL).follows.bind fun _ _ hmsg =>
      .pure (agree_invoke hmsg rfl rfl)
  | _ + 11 => .pure rfl

end

/-- Where the C# decoder ends well, after `p` bytes, so does the C++ decoder if it has room for as
many nested calls, or for more than there are bytes, and their calls agree. -/
theorem decoders_agree (handlers : Callback → Bool) (depth : ℕ) (su : Cpp.Session)
    {payload : Bytes} (hL : payload.length ≤ maxFrameLen)
    (hroom : rt.stack ≤ depth ∨ payload.length < depth) {call : Option Csharp.Call} {p : ℕ}
    (h : Csharp.decodeAndDispatch rt handlers payload = .ok (call, p)) :
    ∃ su' call', Cpp.decodeAndDispatch handlers depth su payload = some ((su', call'), p) ∧
      Agree rt call call' := by
  have hfollows : Follows payload 0 (fun call x => Agree rt call x.2)
      (Csharp.readVarint >>= Csharp.dispatchTag rt handlers) (Cpp.dispatch handlers depth su) := by
    refine (readVarint_precedes hL).follows.bind fun tag _ htag => ?_
    subst htag
    exact dispatchTag_follows rt hL hroom handlers su tag
  obtain ⟨-, -, ⟨su', call'⟩, hcpp, hagree⟩ := hfollows 0 call p le_rfl (Nat.zero_le _) h
  exact ⟨su', call', hcpp, hagree⟩

/-- A peer that left, its id in more bytes than it takes. -/
theorem peerLeft_agrees :
    ∃ su' call', Cpp.decodeAndDispatch (fun _ => true) 1 ⟨[], 0, 0⟩ [3, 251, 7, 0] =
        some ((su', call'), 4) ∧
      Agree ⟨1, fun _ => ""⟩ (some (.peerLeft 7)) call' :=
  decoders_agree ⟨1, fun _ => ""⟩ (fun _ => true) 1 ⟨[], 0, 0⟩ (by decide) (.inl le_rfl) rfl

/-- An update to the empty state is told by one client only. -/
theorem empty_state_told_once : ([5, 0] : Bytes).length ≤ maxFrameLen ∧
    Csharp.decodeAndDispatch ⟨1, fun _ => ""⟩ (fun _ => true) [5, 0] =
      .ok (some (.stateUpdate []), 2) ∧
    ¬ ∃ su' call', Cpp.decodeAndDispatch (fun _ => true) 1 ⟨[], 0, 0⟩ [5, 0] =
        some ((su', some call'), 2) ∧
      SameCall ⟨1, fun _ => ""⟩ (.stateUpdate []) call' := by
  refine ⟨by decide, rfl, ?_⟩
  rintro ⟨su', call', hcpp, -⟩
  have hnone : Cpp.decodeAndDispatch (fun _ => true) 1 ⟨[], 0, 0⟩ [5, 0] =
      some ((⟨[], 0, 0⟩, none), 2) := rfl
  rw [hnone] at hcpp
  cases hcpp

end Roomie.DecoderAgreement
