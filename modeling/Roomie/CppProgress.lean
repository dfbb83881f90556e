import Roomie.CppTraces

/-!
# How far the C++ decoder gets

The positions are those of a 64-bit `size_t`. Nearly every length is checked against a limit before
it is added to the position; the one of a string inside a custom value is not, and a length just
below `2 ^ 64` moves the reader back. On all other payloads the reader gets ahead, and each byte
pays for a few entries of the record.
-/

namespace Roomie.Cpp
open Bincode Cursors

namespace Traced
variable {α : Type}

/-! ## The record of a decoder -/

/-- The sum of the position and a length that is skipped does not wrap. -/
def Honest (e : Entry Kind) : Prop := ∀ n, e.kind = .skips n → e.before + n < 2 ^ 64

instance : DecidablePred Honest := fun e =>
  match hkind : e.kind with
  | .skips n => decidable_of_iff (e.before + n < 2 ^ 64) <| by
    constructor
    · rintro hfits m hm
      obtain rfl : n = m := Kind.skips.inj (hkind.symm.trans hm)
      exact hfits
    · exact fun h => h n hkind
  | .call => isTrue fun n hn => by cases hkind.symm.trans hn
  | .turn => isTrue fun n hn => by cases hkind.symm.trans hn

/-- The reader does not go back or past the end, and a turn that starts before the end takes at
least a byte. -/
def Forward (size : ℕ) (e : Entry Kind) : Prop :=
  ∀ p ∈ e.after, e.before ≤ p ∧ p ≤ size ∧ (e.kind = .turn → e.before < size → e.before < p)

/-- Where the sum wraps the reader goes back. -/
def Wraps (_ : ℕ) (e : Entry Kind) : Prop :=
  ∀ n, e.kind = .skips n → 2 ^ 64 ≤ e.before + n →
    e.after = some (e.before + n - 2 ^ 64) ∧ e.before + n - 2 ^ 64 < e.before

def policy : Policy Kind := ⟨Honest, Wraps, Forward⟩

/-- Each byte consumed pays for 24 entries. -/
abbrev Costs (k : ℕ) (a a' : ℤ) (r : Tracer α) : Prop := Pays policy maxFrameLen 24 k a a' r

section
variable {k : ℕ} {a a' : ℤ}

/-- What moves forward in the data, and at the end of them stays there. -/
theorem costs_primitive {r : Reader α} (h : ∀ data pos, data.length ≤ maxFrameLen →
    pos ≤ data.length → ∃ v p, r data pos = some (v, p) ∧ pos ≤ p ∧ p ≤ data.length ∧
      0 ≤ (if pos < data.length then a else a') + 24 * ((p : ℤ) - pos)) :
    Costs k a a' (primitive r) := by
  intro data pos hL hpos
  obtain ⟨v, p, hr, hforward, hinside, hcheap⟩ := h data pos hL hpos
  have hrun : (primitive r : Tracer α) data pos = ([], .ok (v, p)) := by
    change ([], (r data pos).elim (Except.error ()) Except.ok) = _
    rw [hr]
    rfl
  rw [hrun]
  exact ⟨hinside, (fun e he => by cases he), (fun _ e he => by cases he), fun _ => hforward,
    (fun _ e he => by cases he), fun _ => hcheap⟩

theorem costs_call {r : Tracer α} (h : Costs k a a' r) : Costs k (a + 1) (a' + 1) (call r) := by
  refine h.logged (fun size pos q _ n hn => by cases hn) fun size pos q _ hq p hp => ?_
  exact ⟨(hq p hp).1, (hq p hp).2.1, fun hkind => by cases hkind⟩

theorem costs_turn {r : Tracer α} (h : Costs k a a' r) (ha : a < 0) :
    Costs k (a + 1) (a' + 1) (turn r) := by
  refine h.logged (fun size pos q _ n hn => by cases hn) fun size pos q _ hq p hp => ?_
  exact ⟨(hq p hp).1, (hq p hp).2.1, fun _ hlt => (hq p hp).2.2 ha hlt⟩

/-- In a frame the sums with small numbers do not wrap. -/
theorem need_small {data : Bytes} {pos n : ℕ} (hL : data.length ≤ maxFrameLen)
    (hpos : pos ≤ data.length) (hn : n ≤ 0x7FFFFFFF) :
    need data pos n = true ↔ pos + n ≤ data.length := by
  rw [maxFrameLen] at hL
  exact need_iff (by omega)

theorem costs_readU8 : Costs k (-23) 1 readU8 := by
  suffices h : Costs k (-24) 0 (primitive Cpp.readU8) from costs_call h
  refine costs_primitive fun data pos hL hpos => ?_
  have hneed := need_small (n := 1) hL hpos (by decide)
  unfold Cpp.readU8
  by_cases hlt : pos < data.length
  · rw [if_pos (hneed.mpr hlt), if_pos hlt]
    refine ⟨_, _, rfl, Nat.le_succ _, hlt, ?_⟩
    push_cast
    omega
  · rw [if_neg (fun h => hlt (hneed.mp h)), if_neg hlt]
    exact ⟨_, _, rfl, le_rfl, hpos, by simp⟩

theorem readVarint_ahead {data : Bytes} {pos : ℕ} (hL : data.length ≤ maxFrameLen)
    (hlt : pos < data.length) :
    ∃ v p, Cpp.readVarint data pos = some (v, p) ∧ pos < p ∧ p ≤ data.length := by
  have hneed := need_small (n := 1) hL hlt.le (by decide)
  have hmore : ∀ n ≤ 8, need data (pos + 1) n = true → pos + 1 + n ≤ data.length := fun n hn =>
    (need_small hL hlt (by omega)).mp
  unfold Cpp.readVarint
  rw [if_pos (hneed.mpr hlt)]
  dsimp only
  split_ifs with hone htwo hfour height
  · exact ⟨_, _, rfl, Nat.lt_succ_self _, hlt⟩
  · have hin := hmore 2 (by decide) (Bool.and_eq_true_iff.mp htwo).2
    exact ⟨_, _, rfl, by omega, hin⟩
  · have hin := hmore 4 (by decide) (Bool.and_eq_true_iff.mp hfour).2
    exact ⟨_, _, rfl, by omega, hin⟩
  · have hin := hmore 8 (by decide) (Bool.and_eq_true_iff.mp height).2
    exact ⟨_, _, rfl, by omega, hin⟩
  · exact ⟨_, _, rfl, Nat.lt_succ_self _, hlt⟩

theorem slice_lt (data : Bytes) (pos : ℕ) {n : ℕ} (hn : n ≤ 8) :
    ofLittleEndian (Cursor.slice data pos n) < 2 ^ 64 := by
  have hlt := ofLittleEndian_lt (Cursor.slice data pos n)
  have hlen : (Cursor.slice data pos n).length ≤ 8 := Nat.le_trans (List.length_take_le _ _) hn
  calc ofLittleEndian (Cursor.slice data pos n)
      < 256 ^ (Cursor.slice data pos n).length := hlt
    _ ≤ 256 ^ 8 := Nat.pow_le_pow_right (by decide) hlen
    _ = 2 ^ 64 := by norm_num

/-- A varint has at most 64 bits. -/
theorem readVarint_lt {data : Bytes} {pos v p : ℕ} (h : Cpp.readVarint data pos = some (v, p)) :
    v < 2 ^ 64 := by
  unfold Cpp.readVarint at h
  dsimp only at h
  split_ifs at h with hneed hone
  all_goals obtain ⟨rfl, -⟩ := Prod.mk.inj (Option.some.inj h)
  · omega
  · exact slice_lt data _ (by decide)
  · exact slice_lt data _ (by decide)
  · exact slice_lt data _ (by decide)
  · decide
  · decide

theorem costs_readVarint : Costs k (-23) 1 readVarint := by
  suffices h : Costs k (-24) 0 (primitive Cpp.readVarint) from costs_call h
  refine costs_primitive fun data pos hL hpos => ?_
  by_cases hlt : pos < data.length
  · obtain ⟨v, p, hr, hahead, hinside⟩ := readVarint_ahead hL hlt
    refine ⟨v, p, hr, hahead.le, hinside, ?_⟩
    rw [if_pos hlt]
    omega
  · obtain rfl : pos = data.length := by omega
    exact ⟨0, _, readVarint_end hL, le_rfl, le_rfl, by simp⟩

/-- A length within its limit is no danger. -/
theorem costs_readLength {limit len : ℕ} (hlimit : limit ≤ 0x7FFFFFFF) :
    Costs k 0 0 (primitive (readLength limit len)) := by
  refine costs_primitive fun data pos hL hpos => ?_
  rw [ite_self]
  by_cases hbad : (limit < len || !need data pos len) = true
  · exact ⟨_, _, if_pos hbad, le_rfl, hpos, by simp⟩
  · refine ⟨_, _, if_neg hbad, Nat.le_add_right _ _, ?_, by push_cast; omega⟩
    rw [Bool.or_eq_true, decide_eq_true_eq, Bool.not_eq_true', not_or, Bool.not_eq_false] at hbad
    exact (need_small hL hpos (by omega)).mp hbad.2

/-- The reader after `pos += n`. -/
theorem skip_run (n : ℕ) (data : Bytes) (pos : ℕ) :
    (skip n : Tracer Unit) data pos =
      let p := if need data pos n then (pos + n) % 2 ^ 64 else pos
      ([⟨.skips n, pos, some p⟩], .ok ((), p)) := by
  cases hneed : need data pos n
  · simp only [skip, Tracer.logged, primitive, Tracer.silent, crashing, Cpp.skip, hneed]
    rfl
  · simp only [skip, Tracer.logged, primitive, Tracer.silent, crashing, Cpp.skip, hneed]
    rfl

/-- The one sum that may wrap; where it does the reader goes back. -/
theorem costs_skip {n : ℕ} (hn : n < 2 ^ 64) : Costs k 1 1 (skip n) := by
  intro data pos hL hpos
  rw [skip_run]
  have hsmall : data.length ≤ 65536 := hL
  set p := if need data pos n then (pos + n) % 2 ^ 64 else pos with hp
  have hinside : p ≤ data.length := by
    rw [hp]
    split_ifs with hneed
    · exact of_decide_eq_true hneed
    · exact hpos
  have hwraps : 2 ^ 64 ≤ pos + n → p = pos + n - 2 ^ 64 := by
    intro hwrap
    have hmod : (pos + n) % 2 ^ 64 = pos + n - 2 ^ 64 := by omega
    have hneed : need data pos n = true := decide_eq_true (by omega)
    rw [hp, if_pos hneed, hmod]
  have hstays : pos + n < 2 ^ 64 → pos ≤ p := by
    intro hfits
    rw [hp]
    split_ifs
    · rw [Nat.mod_eq_of_lt hfits]
      exact Nat.le_add_right _ _
    · exact le_rfl
  have hfits : (∀ e ∈ [(⟨.skips n, pos, some p⟩ : Entry Kind)], Honest e) → pos + n < 2 ^ 64 :=
    fun h => h _ (List.mem_singleton.mpr rfl) n rfl
  refine ⟨hinside, fun e he => ?_, fun hh e he => ?_, fun hh => hstays (hfits hh),
    (fun _ e he => by cases he), fun hh => ?_⟩
  · rw [List.mem_singleton.mp he]
    rintro _ ⟨⟩ hwrap
    change 2 ^ 64 ≤ pos + n at hwrap
    refine ⟨congrArg some (hwraps hwrap), ?_⟩
    change pos + n - 2 ^ 64 < pos
    omega
  · rw [List.mem_singleton.mp he]
    rintro _ ⟨⟩
    exact ⟨hstays (hfits hh), hinside, fun hkind => by cases hkind⟩
  · have hforward := hstays (hfits hh)
    change (1 : ℤ) ≤ (if pos < data.length then 1 else 1) + 24 * ((p : ℤ) - pos)
    rw [ite_self]
    omega

theorem costs_readU32Varint : Costs k (-22) 2 readU32Varint :=
  costs_call (costs_readVarint.map UInt32.ofNat)

theorem costs_readStr : Costs k (-22) 2 readStr :=
  costs_call (costs_readVarint.bind (fun _ _ => costs_readLength le_rfl) le_rfl le_rfl)

theorem costs_readBytes : Costs k (-22) 2 readBytes :=
  costs_call (costs_readVarint.bind (fun _ _ => costs_readLength (by decide)) le_rfl le_rfl)

theorem costs_readOptStr : Costs k (-20) 4 readOptStr := by
  have hrest : ∀ tag : UInt8, Costs k 2 2 (if tag = 0 then pure none else some <$> readStr) := by
    intro tag
    split_ifs
    · exact (Pays.pure none).weaken (by norm_num) (by norm_num)
    · exact (costs_readStr.map some).weaken (by norm_num) (by norm_num)
  exact costs_call (costs_readU8.bind (fun tag _ => hrest tag) le_rfl (by norm_num))

theorem returns_readVarint {v : ℕ} (h : Returns readVarint v) : v < 2 ^ 64 := by
  obtain ⟨data, pos, p, h⟩ := h
  change (Cpp.readVarint data pos).elim (Except.error ()) Except.ok = .ok (v, p) at h
  cases hr : Cpp.readVarint data pos with
  | none =>
    rw [hr] at h
    cases h
  | some x =>
    rw [hr] at h
    obtain rfl : x = (v, p) := Except.ok.inj h
    exact readVarint_lt hr

theorem readVarint_bind_end {f : ℕ → Tracer α} {data : Bytes} (hL : data.length ≤ maxFrameLen) :
    ((readVarint >>= f) data data.length).2 = (f 0 data data.length).2 := by
  have hrun : readVarint data data.length =
      ([⟨.call, data.length, some data.length⟩], .ok (0, data.length)) := by
    simp only [readVarint, call, Tracer.logged, primitive, Tracer.silent, crashing,
      readVarint_end hL]
    rfl
  rw [Tracer.bind_ok f hrun]

/-- Nested values are paid like the others; a crash means as many bytes as there was room for
calls. -/
theorem costs_skipBincodeJsonValue (depth : ℕ) :
    Costs depth (-20) 4 (skipBincodeJsonValue depth) := by
  induction depth with
  | zero =>
    intro data pos hL hpos
    refine ⟨le_rfl, (fun e he => by cases he), (fun _ e he => by cases he), fun _ => hpos,
      fun _ _ _ => Nat.zero_le _, fun _ => ?_⟩
    change (0 : ℤ) ≤ (if pos < data.length then -20 else 4) + 24 * ((data.length : ℤ) - pos)
    split_ifs <;> omega
  | succ depth ih =>
    have hitem : Costs depth 0 5 (turn (skipBincodeJsonValue depth)) :=
      (costs_turn ih (by norm_num)).weaken (by norm_num) (by norm_num)
    have hentry : Costs depth 0 7 (turn do
        discard readStr
        skipBincodeJsonValue depth) :=
      (costs_turn (costs_readStr.discard.bind (fun _ _ => ih) (by norm_num) (by norm_num))
        (by norm_num)).weaken (by norm_num) (by norm_num)
    suffices h : Costs (depth + 1) (-21) 3 _ from costs_call h
    refine Pays.bind_deeper costs_readVarint (by norm_num) (fun tag _ => ?_) (le_refl 2)
      (by norm_num) fun data e hL => ?_
    · split
      · exact (Pays.pure ()).weaken (by norm_num) (by norm_num)
      · exact costs_readU8.discard.weaken (by norm_num) (by norm_num)
      · exact (costs_skip (by norm_num)).weaken (by norm_num) (by norm_num)
      · exact (costs_readVarint.bind (fun n hn => costs_skip (returns_readVarint hn)) le_rfl
          (by norm_num)).weaken (by norm_num) (by norm_num)
      · exact (costs_readVarint.bind (fun n _ => (hitem.collect n).discard) le_rfl
          le_rfl).weaken (by norm_num) (by norm_num)
      · exact (costs_readVarint.bind (fun n _ => (hentry.collect n).discard) le_rfl
          le_rfl).weaken (by norm_num) (by norm_num)
      · exact (Pays.pure ()).weaken (by norm_num) (by norm_num)
    · -- at the end of the data the tag is that of null
      rw [readVarint_bind_end hL]
      change (Except.ok ((), data.length) : Except Unit (Unit × ℕ)) ≠ .error e
      exact nofun

/-- Wherever it begins. -/
theorem Costs.anywhere {r : Tracer α} (ha : a ≤ a') (h : Costs k a a' r) : Costs k a' a' r :=
  h.weaken ha le_rfl

/-- One field, and what follows it. -/
theorem Costs.followed {β : Type} {r : Tracer α} {f : α → Tracer β} {c d : ℤ} (h : Costs k a a' r)
    (h' : ∀ v, Costs k c c (f v)) (hc : 0 ≤ c) (ha : a + c ≤ d) (ha' : a' + c ≤ d) :
    Costs k d d (r >>= f) :=
  (h.next h' hc).weaken ha ha'

theorem costs_readRoomSettings (depth : ℕ) : Costs depth (-10) 14 (readRoomSettings depth) := by
  have hnumber : Costs depth (-23) 1 (UInt32.ofNat <$> readVarint) := costs_readVarint.map _
  have hcustom : ∀ (custom : UInt8) (s : RoomSettings), Costs depth 4 4
      (if custom ≠ 0 then skipBincodeJsonValue depth >>= fun _ => pure s else pure s) := by
    intro custom s
    split_ifs
    · exact (costs_skipBincodeJsonValue depth).followed (fun _ => .pure s) le_rfl (by norm_num)
        (by norm_num)
    · exact (Pays.pure s).weaken (by norm_num) (by norm_num)
  suffices h : Costs depth (-11) 13 _ from costs_call h
  refine (hnumber.next (c := 12) (fun maxPlayers => ?_) (by norm_num)).weaken (by norm_num)
    (by norm_num)
  refine hnumber.followed (c := 11) (fun minPlayers => ?_) (by norm_num) (by norm_num) (by norm_num)
  refine costs_readU8.followed (c := 10) (fun isPublic => ?_) (by norm_num) (by norm_num)
    (by norm_num)
  refine costs_readOptStr.followed (c := 6) (fun password => ?_) (by norm_num) (by norm_num)
    (by norm_num)
  refine costs_readU8.followed (c := 5) (fun acceptRequired => ?_) (by norm_num) (by norm_num)
    (by norm_num)
  exact costs_readU8.followed (fun custom => hcustom custom _) (by norm_num) (by norm_num)
    (by norm_num)

theorem costs_readListedRoom (depth : ℕ) : Costs depth (-6) 18 (readListedRoom depth) := by
  refine (costs_readStr.next (c := 16) (fun roomCode => ?_) (by norm_num)).weaken (by norm_num)
    (by norm_num)
  refine costs_readU32Varint.followed (c := 14) (fun playerCount => ?_) (by norm_num) (by norm_num)
    (by norm_num)
  exact (costs_readRoomSettings depth).followed (fun _ => .pure _) le_rfl (by norm_num)
    (by norm_num)

theorem costs_readList (depth : ℕ) : Costs depth 1 1 (readList depth) := by
  have hentry : Costs depth 0 19 (turn (readListedRoom depth)) :=
    (costs_turn (costs_readListedRoom depth) (by norm_num)).weaken (by norm_num) (by norm_num)
  exact (costs_readVarint.next (fun n => hentry.collect n) le_rfl).weaken (by norm_num)
    (by norm_num)

theorem costs_readState : Costs k 3 3 readState := by
  have hmore : ∀ tag : UInt8, Costs k 2 2 (if tag ≠ 0 then readBytes else pure []) := by
    intro tag
    split_ifs
    · exact Costs.anywhere (by norm_num) costs_readBytes
    · exact (Pays.pure []).weaken (by norm_num) (by norm_num)
  exact (costs_readU8.next hmore (by norm_num)).weaken (by norm_num) (by norm_num)

end

section
variable (cbs : Callback → Bool) (depth : ℕ) (su : Session)

theorem costs_dispatchEvent (event : ℕ) :
    Costs depth 14 14 (dispatchEvent cbs depth su event) := by
  unfold dispatchEvent
  split
  · exact (costs_readU32Varint.next (fun _ => .pure _) le_rfl).weaken (by norm_num) (by norm_num)
  · exact (Pays.pure _).weaken (by norm_num) (by norm_num)
  · exact (Pays.pure _).weaken (by norm_num) (by norm_num)
  · exact ((costs_readRoomSettings depth).next (fun _ => .pure _) le_rfl).weaken (by norm_num)
      (by norm_num)
  · exact (Pays.pure _).weaken (by norm_num) (by norm_num)

theorem costs_dispatchTag (tag : ℕ) : Costs depth 24 24 (dispatchTag cbs depth su tag) := by
  have hid : Costs depth 2 2 readU32Varint := Costs.anywhere (by norm_num) costs_readU32Varint
  have hstr : Costs depth 2 2 readStr := Costs.anywhere (by norm_num) costs_readStr
  have hbytes : Costs depth 2 2 readBytes := Costs.anywhere (by norm_num) costs_readBytes
  unfold dispatchTag
  split
  · refine hstr.followed (c := 22) (fun roomCode => ?_) (by norm_num) (by norm_num) (by norm_num)
    refine hid.followed (c := 20) (fun peerId => ?_) (by norm_num) (by norm_num) (by norm_num)
    refine hid.followed (c := 18) (fun hostPeerId => ?_) (by norm_num) (by norm_num) (by norm_num)
    refine costs_readU8.followed (c := 17) (fun side => ?_) (by norm_num) (by norm_num)
      (by norm_num)
    refine (costs_readRoomSettings depth).followed (c := 3) (fun settings => ?_) (by norm_num)
      (by norm_num) (by norm_num)
    exact costs_readState.followed (fun _ => .pure _) le_rfl (by norm_num) (by norm_num)
  · exact ((costs_readList depth).next (fun _ => .pure _) le_rfl).weaken (by norm_num)
      (by norm_num)
  · refine hid.followed (c := 6) (fun peerId => ?_) (by norm_num) (by norm_num) (by norm_num)
    refine hstr.followed (c := 4) (fun clientHash => ?_) (by norm_num) (by norm_num) (by norm_num)
    exact costs_readOptStr.followed (fun _ => .pure _) le_rfl (by norm_num) (by norm_num)
  · exact (hid.next (fun _ => .pure _) le_rfl).weaken (by norm_num) (by norm_num)
  · exact (hid.next (fun _ => hbytes.next (fun _ => .pure _) le_rfl) (by norm_num)).weaken
      (by norm_num) (by norm_num)
  · exact (hbytes.next (fun _ => .pure _) le_rfl).weaken (by norm_num) (by norm_num)
  · exact (Pays.pure _).weaken (by norm_num) (by norm_num)
  · exact (hstr.next (fun _ => .pure _) le_rfl).weaken (by norm_num) (by norm_num)
  · exact (costs_readVarint.next (fun event => costs_dispatchEvent cbs depth su event)
      (by norm_num)).weaken (by norm_num) (by norm_num)
  · exact (Pays.pure _).weaken (by norm_num) (by norm_num)
  · exact (hstr.next (fun _ => .pure _) le_rfl).weaken (by norm_num) (by norm_num)
  · exact (Pays.pure _).weaken (by norm_num) (by norm_num)

theorem costs_dispatch : Costs depth 25 25 (dispatch cbs depth su) :=
  (costs_readVarint.next (fun tag => costs_dispatchTag cbs depth su tag) (by norm_num)).weaken
    (by norm_num) (by norm_num)

end

end Traced

/-- The reader never goes back or past the end of the payload, every turn of a loop that starts
before the end takes at least a byte, there are at most `24 * size + 25` calls and turns, and with
room for as many nested calls as there are bytes, and one more, decoding comes to its end. This is so
exactly if no string in a custom value that the decoder comes to has a length that wraps when it is
added to the position. -/
theorem progress_iff (cbs : Callback → Bool) (depth : ℕ) (su : Session) {payload : Bytes}
    (h : payload.length ≤ maxFrameLen) :
    let run := Traced.dispatch cbs depth su payload 0
    run.2.toOption = decodeAndDispatch cbs depth su payload ∧
      (((∀ e ∈ run.1, Traced.Forward payload.length e) ∧
        run.1.length ≤ 24 * payload.length + 25 ∧
        (payload.length < depth → (decodeAndDispatch cbs depth su payload).isSome = true)) ↔
      ∀ e ∈ run.1, Traced.Honest e) := by
  intro run
  have hrun : run.2.toOption = decodeAndDispatch cbs depth su payload :=
    congrFun (congrFun (Traced.untraced_dispatch cbs depth su) payload) 0
  have hpaid := Traced.costs_dispatch cbs depth su payload 0 h (Nat.zero_le _)
  refine ⟨hrun, fun hprogress e he n hn => ?_, fun hh => ⟨hpaid.good hh, ?_, fun hdepth => ?_⟩⟩
  · by_contra hwrap
    obtain ⟨hafter, hback⟩ := hpaid.always e he n hn (Nat.not_lt.mp hwrap)
    have hforward := (hprogress.1 e he _ hafter).1
    omega
  · have hcheap := hpaid.cheap hh
    have hinside : stop payload run.2 ≤ payload.length := hpaid.inside
    rw [ite_self] at hcheap
    change (run.1.length : ℤ) ≤ 25 + 24 * ((stop payload run.2 : ℤ) - (0 : ℕ)) at hcheap
    omega
  · rw [← hrun]
    cases hend : run.2 with
    | ok x => rfl
    | error e =>
      have hdeep := hpaid.deep hh e hend
      omega

/-- Changed settings whose custom value is a string of two bytes. -/
def briefCustom : Bytes := [8, 3, 0, 0, 0, 0, 0, 1, 3, 2, 97, 98]

theorem brief_custom_progress :
    (∀ e ∈ (Traced.dispatch (fun _ => true) 1 ⟨[], 0, 0⟩ briefCustom 0).1,
      Traced.Forward briefCustom.length e) ∧
    (Traced.dispatch (fun _ => true) 1 ⟨[], 0, 0⟩ briefCustom 0).1.length ≤
      24 * briefCustom.length + 25 :=
  have hprogress := (progress_iff (fun _ => true) 1 ⟨[], 0, 0⟩
    (show briefCustom.length ≤ maxFrameLen by decide)).2.mpr (by decide)
  ⟨hprogress.1, hprogress.2.1⟩

/-- Changed settings whose custom value is a string that says it has `2 ^ 64 - 10` bytes. -/
def longCustom : Bytes :=
  [8, 3, 0, 0, 0, 0, 0, 1, 3, 253, 246, 255, 255, 255, 255, 255, 255, 255]

/-- Behind the string the reader is where its tag was. -/
theorem long_custom_goes_back : longCustom.length ≤ maxFrameLen ∧
    ¬ ∀ e ∈ (Traced.dispatch (fun _ => true) 1 ⟨[], 0, 0⟩ longCustom 0).1,
      Traced.Forward longCustom.length e := by
  refine ⟨by decide, fun h => ?_⟩
  have hback : (⟨.skips (2 ^ 64 - 10), 18, some 8⟩ : Entry Kind) ∈
      (Traced.dispatch (fun _ => true) 1 ⟨[], 0, 0⟩ longCustom 0).1 := by decide
  exact absurd (h _ hback 8 rfl).1 (by decide)

end Roomie.Cpp
