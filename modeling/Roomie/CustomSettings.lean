import Roomie.CursorGrammars
import Roomie.CsharpTraces
import Roomie.DecoderAgreement

/-!
# Custom settings in the clients

The server writes a custom value without any tag for its type; the clients look for a tag in front
of every value. Both go past exactly the bytes of the value where these happen to be a word of the
layout with tags, nested no deeper than there is room for calls, and nowhere else.
-/

namespace Roomie.CustomSettings
open Bincode Cursors

/-! ## The layout with tags -/

/-- The words for a number; a longer one than necessary will do. -/
inductive Varint : ℕ → Bytes → Prop
  | byte (b : UInt8) : b.toNat < 251 → Varint b.toNat [b]
  | u16 (w : Bytes) : w.length = 2 → Varint (ofLittleEndian w) (251 :: w)
  | u32 (w : Bytes) : w.length = 4 → Varint (ofLittleEndian w) (252 :: w)
  | u64 (w : Bytes) : w.length = 8 → Varint (ofLittleEndian w) (253 :: w)

/-- The length of a string, and so many bytes. -/
def Str (w : Bytes) : Prop := ∃ n b, Varint b.length n ∧ w = n ++ b

/-- The number of entries, and the entries. -/
def Counted (Entry : Bytes → Prop) (w : Bytes) : Prop :=
  ∃ (n : Bytes) (entries : List Bytes), Varint entries.length n ∧ (∀ e ∈ entries, Entry e) ∧
    w = n ++ entries.flatten

/-- A name and a value. -/
def Field (Value : Bytes → Prop) (w : Bytes) : Prop := ∃ name v, Str name ∧ Value v ∧ w = name ++ v

/-- What stands behind a tag. -/
def Content (Value : Bytes → Prop) : ℕ → Bytes → Prop
  | 0, w => w = []
  | 1, w => w.length = 1
  | 2, w => w.length = 8
  | 3, w => Str w
  | 4, w => Counted Value w
  | 5, w => Counted (Field Value) w
  | _, _ => False

/-- The words for a value with its tag, for at most so many calls inside each other. -/
def Tagged : ℕ → Bytes → Prop
  | 0, _ => False
  | room + 1, w => ∃ tag t c, Varint tag t ∧ Content (Tagged room) tag c ∧ w = t ++ c

theorem Varint.ne_nil {n : ℕ} {w : Bytes} (h : Varint n w) : w ≠ [] := by
  cases h <;> exact List.cons_ne_nil _ _

theorem Tagged.ne_nil {room : ℕ} {w : Bytes} (h : Tagged room w) : w ≠ [] := by
  cases room with
  | zero => exact h.elim
  | succ room =>
    obtain ⟨tag, t, c, ht, -, rfl⟩ := h
    exact fun hnil => ht.ne_nil (List.append_eq_nil_iff.mp hnil).1

theorem Field.ne_nil {Value : Bytes → Prop} {w : Bytes} (h : Field Value w) : w ≠ [] := by
  obtain ⟨name, v, ⟨n, b, hn, rfl⟩, -, rfl⟩ := h
  rw [List.append_assoc]
  exact fun hnil => hn.ne_nil (List.append_eq_nil_iff.mp hnil).1

/-! ## The C# client keeps to the layout -/

section
variable {rt : Csharp.Runtime}

theorem readByte_keeps (what : String) :
    KeepsTo maxFrameLen (Csharp.readByte what) fun b w => w = [b] := by
  apply KeepsTo.of_slice
  intro data pos b p hL hpos hr
  unfold Csharp.readByte at hr
  split_ifs at hr with hneed
  cases hr
  have hin := DecoderAgreement.need_in hL hpos (by decide) hneed
  exact ⟨1, rfl, hin, Cursor.slice_one hin⟩

theorem readLittleEndian_keeps {k : ℕ} (hk : k ≤ 65536) (what : String) :
    KeepsTo maxFrameLen (Csharp.readLittleEndian k what)
      fun n w => w.length = k ∧ ofLittleEndian w = n := by
  apply KeepsTo.of_slice
  intro data pos n p hL hpos hr
  obtain ⟨hneed, rfl, rfl⟩ := DecoderAgreement.readLittleEndian_ok hr
  have hin := DecoderAgreement.need_in hL hpos hk hneed
  exact ⟨k, rfl, hin, Cursor.length_slice hin, rfl⟩

theorem readVarintTail_keeps (b : UInt8) :
    KeepsTo maxFrameLen (Csharp.readVarintTail b) fun n w => Varint n (b :: w) := by
  intro data pos n p hL hpos hr
  obtain ⟨hone, rfl, rfl⟩ | ⟨k, what, hmarker, hmore⟩ := DecoderAgreement.readVarintTail_ok hr
  · refine ⟨le_rfl, hpos, fun _ => ?_⟩
    rw [Cursor.slice_self]
    exact .byte b hone
  · obtain ⟨hahead, hin, hword⟩ :=
      readLittleEndian_keeps (by omega) what data pos n p hL hpos hmore
    refine ⟨hahead, hin, fun hlt => ?_⟩
    obtain ⟨hlen, rfl⟩ := hword hlt
    obtain ⟨rfl, rfl⟩ | ⟨rfl, rfl⟩ | ⟨rfl, rfl⟩ := hmarker
    · exact .u16 _ hlen
    · exact .u32 _ hlen
    · exact .u64 _ hlen

theorem readVarint_keeps : KeepsTo maxFrameLen Csharp.readVarint Varint := by
  refine (readByte_keeps "varint").bind fun b => (readVarintTail_keeps b).congr ?_
  rintro n v hv w rfl
  exact hv

theorem readLength_keeps (limit : ℕ) (tooLarge tooShort : String) (len : ℕ) :
    KeepsTo maxFrameLen (Csharp.readLength limit tooLarge tooShort len)
      fun _ w => w.length = len := by
  apply KeepsTo.of_slice
  intro data pos b p hL hpos hr
  obtain ⟨-, hin, -, rfl⟩ := DecoderAgreement.readLength_ok hr
  exact ⟨len, rfl, hin, Cursor.length_slice hin⟩

theorem readString_keeps : KeepsTo maxFrameLen (Csharp.readString rt) fun _ w => Str w := by
  have hblob : ∀ limit tooLarge tooShort, KeepsTo maxFrameLen
      (Csharp.readVarint >>= Csharp.readLength limit tooLarge tooShort) fun _ w => Str w := by
    intro limit tooLarge tooShort
    refine readVarint_keeps.bind fun len => (readLength_keeps _ _ _ len).congr ?_
    rintro _ b rfl n hn
    exact ⟨n, b, hn, rfl⟩
  exact (hblob _ _ _).map fun _ _ h => h

theorem skip_keeps {n : ℕ} (hn : n ≤ 65536) (message : String) :
    KeepsTo maxFrameLen (Csharp.skip n message) fun _ w => w.length = n := by
  apply KeepsTo.of_slice
  intro data pos a p hL hpos hr
  unfold Csharp.skip at hr
  split_ifs at hr with hneed
  cases hr
  have hin := DecoderAgreement.need_in hL hpos hn hneed
  exact ⟨n, rfl, hin, Cursor.length_slice hin⟩

/-- A list that is not cut short has as many entries as announced. -/
theorem counted_keeps {r : Csharp.Reader Unit} {P : Bytes → Prop}
    (h : KeepsTo maxFrameLen r fun _ w => P w) :
    KeepsTo maxFrameLen (Csharp.readVarint >>= fun n => discard (r.collect n))
      fun _ w => Counted P w := by
  refine readVarint_keeps.bind fun n =>
    (KeepsTo.discard (P := fun w => ∃ ws : List Bytes, ws.length = n ∧ (∀ v ∈ ws, P v) ∧
      w = ws.flatten) ((h.collect n).congr ?_)).congr ?_
  · rintro as _ ⟨hlen, ws, hws, rfl⟩
    refine ⟨ws, hws.length_eq.symm.trans hlen, fun v hv => ?_, rfl⟩
    obtain ⟨i, hi, rfl⟩ := List.getElem_of_mem hv
    exact hws.get (by rwa [hws.length_eq]) hi
  · rintro _ v ⟨ws, rfl, hall, rfl⟩ t ht
    exact ⟨t, ws, ht, hall, rfl⟩

theorem skipTagged_keeps {deeper : Csharp.Reader Unit} {Value : Bytes → Prop}
    (h : KeepsTo maxFrameLen deeper fun _ w => Value w) (tag : ℕ) :
    KeepsTo maxFrameLen (Csharp.skipTagged rt deeper tag) fun _ w => Content Value tag w :=
  match tag with
  | 0 => .pure rfl
  | 1 => ((readByte_keeps "u8").congr fun _ _ hw => congrArg List.length hw).discard
  | 2 => skip_keeps (by decide) _
  | 3 => readString_keeps.discard
  | 4 => counted_keeps h
  | 5 => by
    refine counted_keeps (readString_keeps.discard.bind fun _ => h.congr ?_)
    exact fun _ v hv name hname => ⟨name, v, hname, hv, rfl⟩
  | tag + 6 => .error fun data pos x => nofun

/-- Where `SkipBincodeJsonValue` stops before the end of the data it went past a word of the
layout. -/
theorem skipBincodeJsonValue_keeps (room : ℕ) :
    KeepsTo maxFrameLen (Csharp.skipBincodeJsonValue rt room) fun _ w => Tagged room w := by
  induction room with
  | zero => exact .error fun data pos x => nofun
  | succ room ih =>
    rw [Csharp.skipBincodeJsonValue_succ]
    refine readVarint_keeps.bind fun tag => (skipTagged_keeps ih tag).congr ?_
    exact fun _ c hc t ht => ⟨tag, t, c, ht, hc, rfl⟩

end

/-! ## It reads every word of the layout -/

section
variable (rt : Csharp.Runtime)

theorem skip_reads {n : ℕ} (message : String) {w : Bytes} (hn : w.length = n) :
    Reads maxFrameLen (Csharp.skip n message) () w := by
  subst hn
  intro pre post hL
  rw [Csharp.skip, if_pos Csharp.need_at]
  rfl

theorem Varint.read {n : ℕ} {w : Bytes} (h : Varint n w) :
    Reads maxFrameLen Csharp.readVarint n w := by
  have hwide : ∀ (b : UInt8) (k : ℕ) (what : String) (w : Bytes),
      Csharp.readVarintTail b = Csharp.readLittleEndian k what → w.length = k →
      Reads maxFrameLen Csharp.readVarint (ofLittleEndian w) (b :: w) := by
    intro b k what w htail hk
    exact (Csharp.readByte_decodes "varint" b).reads.bind (w := [b])
      (htail ▸ Csharp.readLittleEndian_reads what hk)
  cases h with
  | byte b hb =>
    have htail : Csharp.readVarintTail b = pure b.toNat := if_pos hb
    exact (Csharp.readByte_decodes "varint" b).reads.bind (w := [b]) (htail ▸ .pure b.toNat)
  | u16 w hk => exact hwide _ _ "u16 varint" w (by simp [Csharp.readVarintTail]) hk
  | u32 w hk => exact hwide _ _ "u32 varint" w (by simp [Csharp.readVarintTail]) hk
  | u64 w hk => exact hwide _ _ "u64 varint" w (by simp [Csharp.readVarintTail]) hk

theorem Str.read {w : Bytes} (h : Str w) : ∃ s, Reads maxFrameLen (Csharp.readString rt) s w := by
  obtain ⟨n, b, hn, rfl⟩ := h
  refine ⟨Csharp.getString rt b, .within fun hL => ?_⟩
  have hlimit : b.length ≤ 0x7FFFFFFF := by
    rw [List.length_append, maxFrameLen] at hL
    omega
  exact (hn.read.bind (Csharp.readLength_decodes _ _ hlimit).reads).map (Csharp.getString rt)

theorem Counted.read {r : Csharp.Reader Unit} {Entry : Bytes → Prop} {w : Bytes}
    (hne : ∀ e, Entry e → e ≠ []) (hentry : ∀ e, Entry e → Reads maxFrameLen r () e)
    (h : Counted Entry w) :
    Reads maxFrameLen (Csharp.readVarint >>= fun n => discard (r.collect n)) () w := by
  obtain ⟨n, entries, hn, hall, rfl⟩ := h
  have hentries := Reads.collect (f := fun _ => ()) (w := id)
    (fun e he => hentry e (hall e he)) fun e he => hne e (hall e he)
  rw [List.flatMap_id] at hentries
  exact hn.read.bind hentries.discard

theorem Content.read {deeper : Csharp.Reader Unit} {Value : Bytes → Prop}
    (hne : ∀ v, Value v → v ≠ []) (hvalue : ∀ v, Value v → Reads maxFrameLen deeper () v)
    {tag : ℕ} {w : Bytes} (h : Content Value tag w) :
    Reads maxFrameLen (Csharp.skipTagged rt deeper tag) () w := by
  match tag, h with
  | 0, h =>
    obtain rfl : w = [] := h
    exact .pure ()
  | 1, h =>
    obtain ⟨b, rfl⟩ := List.length_eq_one_iff.mp h
    exact (Csharp.readByte_decodes "u8" b).reads.discard
  | 2, h => exact skip_reads _ h
  | 3, h =>
    obtain ⟨s, hs⟩ := Str.read rt h
    exact hs.discard
  | 4, h => exact Counted.read hne hvalue h
  | 5, h =>
    refine Counted.read (fun e he => he.ne_nil) ?_ h
    rintro _ ⟨name, v, hname, hv, rfl⟩
    obtain ⟨s, hs⟩ := Str.read rt hname
    exact hs.discard.bind (hvalue v hv)
  | tag + 6, h => exact h.elim

theorem Tagged.read {room : ℕ} {w : Bytes} (h : Tagged room w) :
    Reads maxFrameLen (Csharp.skipBincodeJsonValue rt room) () w := by
  induction room generalizing w with
  | zero => exact h.elim
  | succ room ih =>
    obtain ⟨tag, t, c, ht, hc, rfl⟩ := h
    rw [Csharp.skipBincodeJsonValue_succ]
    exact ht.read.bind (hc.read rt (fun v hv => hv.ne_nil) fun v hv => ih hv)

end

/-! ## The C++ client on words of the layout -/

/-- The cases of `skip_bincode_json_value`, given what it does one call deeper. -/
def skipTagged (deeper : Cpp.Reader Unit) : ℕ → Cpp.Reader Unit
  | 0 => pure ()
  | 1 => discard Cpp.readU8
  | 2 => Cpp.skip 8
  | 3 => Cpp.readVarint >>= Cpp.skip
  | 4 => Cpp.readVarint >>= fun n => discard (deeper.collect n)
  | 5 => Cpp.readVarint >>= fun n => discard ((discard Cpp.readStr >>= fun _ => deeper).collect n)
  | _ => pure ()

theorem skipBincodeJsonValue_succ (depth : ℕ) :
    Cpp.skipBincodeJsonValue (depth + 1) =
      Cpp.readVarint >>= skipTagged (Cpp.skipBincodeJsonValue depth) := by
  rw [Cpp.skipBincodeJsonValue]
  congr 1

theorem Varint.cpp_read {n : ℕ} {w : Bytes} (h : Varint n w) :
    Reads maxFrameLen Cpp.readVarint n w :=
  h.read.followed (fun _ hL => (DecoderAgreement.readVarint_precedes hL).follows)
    fun _ hn => hn.symm

theorem Str.cpp_read {w : Bytes} (h : Str w) :
    Reads maxFrameLen (discard Cpp.readStr) () w := by
  let rt : Csharp.Runtime := ⟨0, fun _ => ""⟩
  obtain ⟨s, hs⟩ := Str.read rt h
  exact hs.discard.followed
    (fun _ hL => (DecoderAgreement.readString_precedes rt hL).follows.discard) fun _ _ => rfl

theorem Tagged.cpp_read {depth : ℕ} {w : Bytes} (h : Tagged depth w) :
    Reads maxFrameLen (Cpp.skipBincodeJsonValue depth) () w := by
  let rt : Csharp.Runtime := ⟨0, fun _ => ""⟩
  exact (h.read rt).followed
    (fun _ hL => DecoderAgreement.skipBincodeJsonValue_follows rt hL (.inl le_rfl)) fun _ _ => rfl

/-- The entries of a list that comes to an end are words for as many calls as there is room for. -/
theorem Counted.fits {r : Cpp.Reader Unit} {Entry Entry' : Bytes → Prop} {w : Bytes}
    (hne : ∀ e, Entry e → e ≠ []) (hreads : ∀ e, Entry' e → Reads maxFrameLen r () e)
    (hfits : ∀ e, Entry e → ∀ pre post, (pre ++ (e ++ post)).length ≤ maxFrameLen →
      (r (pre ++ (e ++ post)) pre.length).isSome = true → Entry' e)
    (h : Counted Entry w) {pre post : Bytes} (hL : (pre ++ (w ++ post)).length ≤ maxFrameLen)
    (hend : ((Cpp.readVarint >>= fun n => discard (r.collect n))
      (pre ++ (w ++ post)) pre.length).isSome = true) : Counted Entry' w := by
  obtain ⟨n, entries, hn, hall, rfl⟩ := h
  rw [List.append_assoc] at hL hend
  rw [hn.cpp_read.next hL] at hend
  refine ⟨n, entries, hn, ?_, rfl⟩
  refine collect_isSome (fun e he => hne e (hall e he)) (fun e _ => hreads e)
    (fun e he => hfits e (hall e he)) ?_ (isSome_first hend)
  rwa [List.append_assoc]

theorem Content.fits {deeper : Cpp.Reader Unit} {Value Value' : Bytes → Prop}
    (hne : ∀ v, Value v → v ≠ []) (hreads : ∀ v, Value' v → Reads maxFrameLen deeper () v)
    (hfits : ∀ v, Value v → ∀ pre post, (pre ++ (v ++ post)).length ≤ maxFrameLen →
      (deeper (pre ++ (v ++ post)) pre.length).isSome = true → Value' v)
    {tag : ℕ} {w : Bytes} (h : Content Value tag w) {pre post : Bytes}
    (hL : (pre ++ (w ++ post)).length ≤ maxFrameLen)
    (hend : (skipTagged deeper tag (pre ++ (w ++ post)) pre.length).isSome = true) :
    Content Value' tag w := by
  match tag, h, hend with
  | 0, h, _ => exact h
  | 1, h, _ => exact h
  | 2, h, _ => exact h
  | 3, h, _ => exact h
  | 4, h, hend => exact Counted.fits hne hreads hfits h hL hend
  | 5, h, hend =>
    refine Counted.fits (fun e he => he.ne_nil) ?_ ?_ h hL hend
    · rintro _ ⟨name, v, hname, hv, rfl⟩
      exact hname.cpp_read.bind (hreads v hv)
    · rintro _ ⟨name, v, hname, hv, rfl⟩ pre post hL hend
      rw [List.append_assoc] at hL hend
      rw [hname.cpp_read.next hL] at hend
      exact ⟨name, v, hname, hfits v hv _ _ (by rwa [List.append_assoc]) hend, rfl⟩
  | tag + 6, h, _ => exact h.elim

/-- Where the C++ client comes to an end on a word of the layout it had room for the calls. -/
theorem Tagged.fits {room depth : ℕ} {w : Bytes} (h : Tagged room w) {pre post : Bytes}
    (hL : (pre ++ (w ++ post)).length ≤ maxFrameLen)
    (hend : (Cpp.skipBincodeJsonValue depth (pre ++ (w ++ post)) pre.length).isSome = true) :
    Tagged depth w := by
  induction room generalizing depth w pre post with
  | zero => exact h.elim
  | succ room ih =>
    cases depth with
    | zero => cases hend
    | succ depth =>
      obtain ⟨tag, t, c, ht, hc, rfl⟩ := h
      rw [skipBincodeJsonValue_succ] at hend
      rw [List.append_assoc] at hL hend
      rw [ht.cpp_read.next hL] at hend
      refine ⟨tag, t, c, ht, ?_, rfl⟩
      refine hc.fits (fun v hv => hv.ne_nil) (fun v hv => hv.cpp_read)
        (fun v hv pre post => ih hv) ?_ hend
      rwa [List.append_assoc]

/-! ## Settings with a custom value -/

section
variable (rt : Csharp.Runtime) (depth : ℕ) {s : RoomSettings} {v : Json}

/-- Wherever the settings stand, both clients read them and go past exactly their bytes. -/
def InStep (s : RoomSettings) : Prop :=
  Reads maxFrameLen (Cpp.readRoomSettings depth) (.ofServer s) (settingsFormat.write s) ∧
    Reads maxFrameLen (Csharp.readRoomSettings rt) (.ofServer s) (settingsFormat.write s)

theorem settings_write_custom (hs : s.custom = some v) :
    settingsFormat.write s = u32.write s.maxPlayers ++ (u32.write s.minPlayers ++
      (Bincode.bool.write s.isPublic ++ (string.option.write s.password ++
        (Bincode.bool.write s.acceptRequired ++ ([1] ++ v.write))))) := by
  change _ ++ (_ ++ (_ ++ (_ ++ (_ ++ customFormat.write s.custom)))) = _
  rw [hs]
  rfl

theorem cpp_reads (hs : s.custom = some v) (hv : Tagged depth v.write) :
    Reads maxFrameLen (Cpp.readRoomSettings depth) (.ofServer s) (settingsFormat.write s) := by
  rw [settings_write_custom hs]
  refine (Cpp.readU32Varint_reads _).bind <| (Cpp.readU32Varint_reads _).bind <|
    (Cpp.readFlag_reads _).bind <| (Cpp.readOptStr_reads _).bind <| (Cpp.readFlag_reads _).bind <|
      (Cpp.readU8_reads 1).bind ((hv.cpp_read.last).congr ?_ rfl)
  rw [Cpp.flag_eq, Cpp.flag_eq]
  rfl

theorem csharp_reads (hs : s.custom = some v) (hv : Tagged rt.stack v.write) :
    Reads maxFrameLen (Csharp.readRoomSettings rt) (.ofServer s) (settingsFormat.write s) := by
  rw [settings_write_custom hs]
  exact (Csharp.readU32Varint_decodes _).reads.bind <|
    (Csharp.readU32Varint_decodes _).reads.bind <| (Csharp.readBool_decodes _).reads.bind <|
    (Csharp.readOptString_decodes rt _).reads.bind <|
      (Csharp.readBool_decodes _).reads.bind <| (Csharp.readByte_decodes _ 1).reads.bind (w := [1])
        (hv.read rt).last

/-- The C# client that stops behind the settings stops behind the custom value. -/
theorem csharp_stops (hs : s.custom = some v)
    (h : Stops maxFrameLen (Csharp.readRoomSettings rt) (settingsFormat.write s)) :
    Stops maxFrameLen (Csharp.skipBincodeJsonValue rt rt.stack) v.write := by
  rw [settings_write_custom hs] at h
  have hmin := h.behind (Csharp.readU32Varint_decodes _).reads
  have hpublic := hmin.behind (Csharp.readU32Varint_decodes _).reads
  have hpassword := hpublic.behind (Csharp.readBool_decodes _).reads
  have haccept := hpassword.behind (Csharp.readOptString_decodes rt _).reads
  have htag := haccept.behind (Csharp.readBool_decodes _).reads
  exact (htag.behind (Csharp.readByte_decodes _ 1).reads).last

theorem cpp_stops (hs : s.custom = some v)
    (h : Stops maxFrameLen (Cpp.readRoomSettings depth) (settingsFormat.write s)) :
    ∃ pre post, (pre ++ (v.write ++ post)).length ≤ maxFrameLen ∧
      (Cpp.skipBincodeJsonValue depth (pre ++ (v.write ++ post)) pre.length).isSome = true := by
  rw [settings_write_custom hs] at h
  have hmin := h.behind (Cpp.readU32Varint_reads _)
  have hpublic := hmin.behind (Cpp.readU32Varint_reads _)
  have hpassword := hpublic.behind (Cpp.readFlag_reads _)
  have haccept := hpassword.behind (Cpp.readOptStr_reads _)
  have htag := haccept.behind (Cpp.readFlag_reads _)
  obtain ⟨pre, post, a, -, hL, hend⟩ := htag.behind (Cpp.readU8_reads 1)
  exact ⟨pre, post, hL, isSome_first (Option.isSome_of_eq_some hend)⟩

/-- The clients stay in step with the server where the bytes of the custom value are a word of the
layout with tags, for as many calls inside each other as either has room for, and only there. -/
theorem inStep_iff (hs : s.custom = some v) (hlen : (settingsFormat.write s).length < maxFrameLen) :
    InStep rt depth s ↔ Tagged depth v.write ∧ Tagged rt.stack v.write := by
  constructor
  · rintro ⟨hcpp, hcsharp⟩
    have hword : Tagged rt.stack v.write := by
      obtain ⟨-, hword⟩ :=
        (csharp_stops rt hs (hcsharp.stops hlen)).word (skipBincodeJsonValue_keeps rt.stack)
      exact hword
    obtain ⟨pre, post, hL, hend⟩ := cpp_stops depth hs (hcpp.stops hlen)
    exact ⟨hword.fits hL hend, hword⟩
  · rintro ⟨hcpp, hcsharp⟩
    exact ⟨cpp_reads depth hs hcpp, csharp_reads rt hs hcsharp⟩

end

/-- Settings that are the default ones up to a custom value. -/
def customised (v : Json) : RoomSettings := { RoomSettings.default with custom := some v }

theorem tagged_flag {b : UInt8} : Tagged 1 [1, b] :=
  ⟨1, [1], [b], .byte 1 (by decide), rfl, rfl⟩

/-- The length of a string of one letter passes for the tag of a flag. -/
theorem one_letter_inStep :
    (settingsFormat.write (customised (.string "x"))).length < maxFrameLen ∧
      InStep ⟨1, fun _ => ""⟩ 1 (customised (.string "x")) := by
  have hlen : (settingsFormat.write (customised (.string "x"))).length < maxFrameLen := by decide
  have hword : Tagged 1 (Json.string "x").write := tagged_flag
  exact ⟨hlen, (inStep_iff ⟨1, fun _ => ""⟩ 1 rfl hlen).mpr ⟨hword, hword⟩⟩

/-- Of a flag that is set both clients take the value for a tag, and the next byte for the value. -/
theorem flag_swallows_next : (customised (.bool true)).custom = some (.bool true) ∧
    settingsFormat.write (customised (.bool true)) = [0, 0, 0, 0, 0, 1, 1] ∧
    Cpp.readRoomSettings 128 [0, 0, 0, 0, 0, 1, 1, 9] 0 =
      some (.ofServer (customised (.bool true)), 8) ∧
    Csharp.readRoomSettings ⟨128, fun _ => ""⟩ [0, 0, 0, 0, 0, 1, 1, 9] 0 =
      .ok (.ofServer (customised (.bool true)), 8) ∧
    ¬ InStep ⟨128, fun _ => ""⟩ 128 (customised (.bool true)) := by
  refine ⟨rfl, rfl, rfl, rfl, ?_⟩
  rintro ⟨hcpp, -⟩
  have hread := hcpp [] [9] (by decide)
  cases hread

end Roomie.CustomSettings
