import Mathlib.Tactic.IntervalCases
import Mathlib.Data.UInt

/-!
# Binary formats with variable-length integers

A format writes values as bytes and reads them back. It carries its two laws: what was
written is read back, whatever follows it, and reading never takes fewer bytes than writing
the value again would. Formats of records and enumerations are put together from smaller
ones, so the laws hold of every format built here. The integers are those of bincode: one
byte below 251, else a marker and two, four or eight bytes.
-/

namespace Bincode

abbrev Bytes := List UInt8

universe u v

/-- How the values of a type are written and read. `Fits` says which values are in range. -/
structure Format (α : Type u) where
  write : α → Bytes
  read : Bytes → Option (α × Bytes)
  Fits : α → Prop
  read_write : ∀ a rest, Fits a → read (write a ++ rest) = some (a, rest)
  read_spec : ∀ p a rest, read p = some (a, rest) →
    Fits a ∧ (write a).length + rest.length ≤ p.length

/-! ## Integers -/

/-- The lowest `k` bytes, least significant first. -/
def littleEndian : ℕ → ℕ → Bytes
  | 0, _ => []
  | k + 1, n => .ofNat n :: littleEndian k (n / 256)

def ofLittleEndian : Bytes → ℕ
  | [] => 0
  | b :: bs => b.toNat + 256 * ofLittleEndian bs

@[simp] theorem length_littleEndian (k n : ℕ) : (littleEndian k n).length = k := by
  induction k generalizing n with
  | zero => rfl
  | succ k ih => simp [littleEndian, ih]

theorem ofLittleEndian_littleEndian {k n : ℕ} (h : n < 256 ^ k) :
    ofLittleEndian (littleEndian k n) = n := by
  induction k generalizing n with
  | zero =>
    rw [pow_zero] at h
    simp only [littleEndian, ofLittleEndian]
    omega
  | succ k ih =>
    rw [littleEndian, ofLittleEndian, ih (by rw [pow_succ] at h; omega)]
    simp only [UInt8.toNat_ofNat']
    omega

theorem littleEndian_ofLittleEndian (bs : Bytes) :
    littleEndian bs.length (ofLittleEndian bs) = bs := by
  induction bs with
  | nil => rfl
  | cons b bs ih =>
    have hb := b.toNat_lt
    have hfirst : UInt8.ofNat (b.toNat + 256 * ofLittleEndian bs) = b := by
      rw [← UInt8.toNat_inj, UInt8.toNat_ofNat']
      omega
    have hrest : (b.toNat + 256 * ofLittleEndian bs) / 256 = ofLittleEndian bs := by omega
    rw [ofLittleEndian, List.length_cons, littleEndian, hfirst, hrest, ih]

theorem ofLittleEndian_lt (bs : Bytes) : ofLittleEndian bs < 256 ^ bs.length := by
  induction bs with
  | nil => simp [ofLittleEndian]
  | cons b bs ih =>
    have hb := b.toNat_lt
    rw [ofLittleEndian, List.length_cons, pow_succ]
    omega

/-- `k` bytes, as they are. -/
def bytes (k : ℕ) : Format Bytes where
  write b := b
  read p := if k ≤ p.length then some (p.take k, p.drop k) else none
  Fits b := b.length = k
  read_write b rest h := by simp [← h]
  read_spec p b rest h := by
    split_ifs at h with hk
    obtain ⟨rfl, rfl⟩ := Prod.mk.inj (Option.some.inj h)
    simp only [List.length_take, List.length_drop]
    omega

/-- A number of `k` bytes. -/
def fixed (k : ℕ) : Format ℕ where
  write := littleEndian k
  read p := ((bytes k).read p).map fun x => (ofLittleEndian x.1, x.2)
  Fits n := n < 256 ^ k
  read_write n rest h := by
    have hlen : (bytes k).Fits (littleEndian k n) := length_littleEndian k n
    rw [show littleEndian k n ++ rest = (bytes k).write (littleEndian k n) ++ rest from rfl,
      (bytes k).read_write _ rest hlen, Option.map_some, ofLittleEndian_littleEndian h]
  read_spec p n rest h := by
    obtain ⟨⟨b, q⟩, hb, heq⟩ := Option.map_eq_some_iff.mp h
    obtain ⟨rfl, rfl⟩ := Prod.mk.inj heq
    obtain ⟨hfits, hlen⟩ := (bytes k).read_spec p b q hb
    have hk : b.length = k := hfits
    refine ⟨hk ▸ ofLittleEndian_lt b, ?_⟩
    rw [length_littleEndian]
    exact hk ▸ hlen

def writeVarint (n : ℕ) : Bytes :=
  if n < 251 then [.ofNat n]
  else if n < 65536 then 251 :: littleEndian 2 n
  else if n < 4294967296 then 252 :: littleEndian 4 n
  else 253 :: littleEndian 8 n

def readVarint : Bytes → Option (ℕ × Bytes)
  | [] => none
  | b :: p =>
    if b.toNat < 251 then some (b.toNat, p)
    else if b = 251 then (fixed 2).read p
    else if b = 252 then (fixed 4).read p
    else if b = 253 then (fixed 8).read p
    else none

/-- The size of a varint. -/
def varintSize (n : ℕ) : ℕ :=
  if n < 251 then 1 else if n < 65536 then 3 else if n < 4294967296 then 5 else 9

@[simp] theorem length_writeVarint (n : ℕ) : (writeVarint n).length = varintSize n := by
  unfold writeVarint varintSize
  split_ifs <;> simp

theorem varintSize_mono {m n : ℕ} (h : m ≤ n) : varintSize m ≤ varintSize n := by
  unfold varintSize
  split_ifs <;> omega

theorem varintSize_pos (n : ℕ) : 1 ≤ varintSize n := by
  unfold varintSize
  split_ifs <;> omega

/-- A varint of up to 64 bits. Longer forms than necessary are read, too. -/
def varint : Format ℕ where
  write := writeVarint
  read := readVarint
  Fits n := n < 18446744073709551616
  read_write n rest h := by
    unfold writeVarint
    split_ifs with h₁ h₂ h₃
    · have hn : (UInt8.ofNat n).toNat = n := by
        rw [UInt8.toNat_ofNat']
        omega
      simp [readVarint, hn, h₁]
    · exact (fixed 2).read_write n rest h₂
    · exact (fixed 4).read_write n rest h₃
    · exact (fixed 8).read_write n rest h
  read_spec p n rest h := by
    cases p with
    | nil => simp [readVarint] at h
    | cons b p =>
      simp only [length_writeVarint, List.length_cons]
      simp only [readVarint] at h
      split_ifs at h with h₁ h₂ h₃ h₄
      · obtain ⟨rfl, rfl⟩ := Prod.mk.inj (Option.some.inj h)
        rw [varintSize, if_pos h₁]
        omega
      all_goals
        obtain ⟨hn, hlen⟩ := (fixed _).read_spec p n rest h
        simp only [fixed, length_littleEndian] at hn hlen
        norm_num at hn
        refine ⟨by omega, ?_⟩
        unfold varintSize
        split_ifs <;> omega

/-! ## Formats from formats -/

namespace Format
variable {α : Type u} {β : Type v}

/-- Values of another type, written as values of this one; reading may reject or normalise. -/
def conv (f : Format α) (mk : α → Option β) (get : β → α) (good : β → Prop)
    (mk_get : ∀ b, good b → mk (get b) = some b)
    (good_of_mk : ∀ a b, mk a = some b → good b ∧ (f.Fits a → f.Fits (get b)) ∧
      (f.write (get b)).length ≤ (f.write a).length) : Format β where
  write b := f.write (get b)
  read p := (f.read p).bind fun x => (mk x.1).map fun b => (b, x.2)
  Fits b := f.Fits (get b) ∧ good b
  read_write b rest h := by simp [f.read_write _ rest h.1, mk_get b h.2]
  read_spec p b rest h := by
    obtain ⟨⟨a, q⟩, ha, h⟩ := Option.bind_eq_some_iff.mp h
    obtain ⟨b', hb, heq⟩ := Option.map_eq_some_iff.mp h
    obtain ⟨rfl, rfl⟩ := Prod.mk.inj heq
    obtain ⟨hfits, hlen⟩ := f.read_spec p a q ha
    obtain ⟨hgood, hget, hle⟩ := good_of_mk a b' hb
    exact ⟨⟨hget hfits, hgood⟩, by simp only; omega⟩

/-- Values of a type that is the same up to renaming. -/
def iso (f : Format α) (mk : α → β) (get : β → α) (mk_get : ∀ b, mk (get b) = b)
    (get_mk : ∀ a, get (mk a) = a) : Format β :=
  f.conv (fun a => some (mk a)) get (fun _ => True) (fun b _ => by rw [mk_get]) fun a b h => by
    obtain rfl := Option.some.inj h
    rw [get_mk]
    exact ⟨trivial, id, le_rfl⟩

/-- One value after the other. -/
def pair (f : Format α) (g : Format β) : Format (α × β) where
  write x := f.write x.1 ++ g.write x.2
  read p := (f.read p).bind fun x => (g.read x.2).map fun y => ((x.1, y.1), y.2)
  Fits x := f.Fits x.1 ∧ g.Fits x.2
  read_write x rest h := by
    simp [List.append_assoc, f.read_write _ _ h.1, g.read_write _ _ h.2]
  read_spec p x rest h := by
    obtain ⟨⟨a, q⟩, ha, h⟩ := Option.bind_eq_some_iff.mp h
    obtain ⟨⟨b, r⟩, hb, heq⟩ := Option.map_eq_some_iff.mp h
    obtain ⟨rfl, rfl⟩ := Prod.mk.inj heq
    obtain ⟨hfa, hla⟩ := f.read_spec p a q ha
    obtain ⟨hfb, hlb⟩ := g.read_spec q b r hb
    refine ⟨⟨hfa, hfb⟩, ?_⟩
    simp only [List.length_append] at hla hlb ⊢
    omega

/-- A tag byte, and the value if there is one. -/
def option (f : Format α) : Format (Option α) where
  write
    | none => [0]
    | some a => 1 :: f.write a
  read
    | [] => none
    | b :: p =>
      if b = 0 then some (none, p)
      else if b = 1 then (f.read p).map fun x => (some x.1, x.2)
      else none
  Fits x := ∀ a, x = some a → f.Fits a
  read_write x rest h := by
    cases x with
    | none => simp
    | some a => simp [f.read_write a rest (h a rfl)]
  read_spec p x rest h := by
    cases p with
    | nil => simp at h
    | cons b p =>
      simp only at h
      split_ifs at h with h₀ h₁
      · obtain ⟨rfl, rfl⟩ := Prod.mk.inj (Option.some.inj h)
        exact ⟨by simp, by simp [Nat.add_comm]⟩
      · obtain ⟨⟨a, q⟩, ha, heq⟩ := Option.map_eq_some_iff.mp h
        obtain ⟨rfl, rfl⟩ := Prod.mk.inj heq
        obtain ⟨hf, hl⟩ := f.read_spec p a q ha
        refine ⟨by rintro _ ⟨rfl⟩; exact hf, ?_⟩
        simp only [List.length_cons]
        omega

/-- One variant of an enumeration. -/
def variant (f : Format α) (mk : α → β) (get : β → Option α) (get_mk : ∀ a, get (mk a) = some a)
    (mk_get : ∀ b a, get b = some a → mk a = b) : Format β where
  write b := (get b).elim [] f.write
  read p := (f.read p).map fun x => (mk x.1, x.2)
  Fits b := ∃ a, get b = some a ∧ f.Fits a
  read_write b rest := by
    rintro ⟨a, ha, hf⟩
    simp [ha, f.read_write a rest hf, mk_get b a ha]
  read_spec p b rest h := by
    obtain ⟨⟨a, q⟩, ha, heq⟩ := Option.map_eq_some_iff.mp h
    obtain ⟨rfl, rfl⟩ := Prod.mk.inj heq
    obtain ⟨hf, hl⟩ := f.read_spec p a q ha
    rw [get_mk]
    exact ⟨⟨a, rfl, hf⟩, hl⟩

/-- An enumeration: the index of the variant, then its fields. -/
def choice (variants : List (Format β)) (tag : β → ℕ) (few : variants.length < 251)
    (tag_eq : ∀ t f, variants[t]? = some f → ∀ b, f.Fits b → tag b = t) : Format β where
  write b := writeVarint (tag b) ++ (variants[tag b]?).elim [] fun f => f.write b
  read p := (varint.read p).bind fun x => (variants[x.1]?).bind fun f => f.read x.2
  Fits b := ∃ f, variants[tag b]? = some f ∧ f.Fits b
  read_write b rest := by
    rintro ⟨f, hf, hb⟩
    have ht : varint.Fits (tag b) := by
      have := (List.getElem?_eq_some_iff.mp hf).1
      change tag b < 18446744073709551616
      omega
    have hv := varint.read_write (tag b) (f.write b ++ rest) ht
    simp only [hf, Option.elim_some, List.append_assoc]
    rw [show writeVarint (tag b) = varint.write (tag b) from rfl, hv]
    simp [hf, f.read_write b rest hb]
  read_spec p b rest h := by
    obtain ⟨⟨t, q⟩, ht, h⟩ := Option.bind_eq_some_iff.mp h
    obtain ⟨f, hf, hb⟩ := Option.bind_eq_some_iff.mp h
    obtain ⟨_, hl⟩ := varint.read_spec p t q ht
    obtain ⟨hfits, hl'⟩ := f.read_spec q b rest hb
    obtain rfl := tag_eq t f hf b hfits
    refine ⟨⟨f, hf, hfits⟩, ?_⟩
    simp only [hf, Option.elim_some, List.length_append]
    change (writeVarint (tag b)).length + q.length ≤ p.length at hl
    omega

/-- Read so many values. -/
def readMany (f : Format α) : ℕ → Bytes → Option (List α × Bytes)
  | 0, p => some ([], p)
  | n + 1, p => (f.read p).bind fun x => (f.readMany n x.2).map fun y => (x.1 :: y.1, y.2)

theorem readMany_write (f : Format α) {xs : List α} (h : ∀ a ∈ xs, f.Fits a) (rest : Bytes) :
    f.readMany xs.length (xs.flatMap f.write ++ rest) = some (xs, rest) := by
  induction xs with
  | nil => rfl
  | cons a xs ih =>
    rw [List.flatMap_cons, List.append_assoc, List.length_cons, readMany,
      f.read_write a _ (h a List.mem_cons_self)]
    simp [ih fun b hb => h b (List.mem_cons_of_mem _ hb)]

theorem readMany_spec (f : Format α) {n : ℕ} {p rest : Bytes} {xs : List α}
    (h : f.readMany n p = some (xs, rest)) : xs.length = n ∧ (∀ a ∈ xs, f.Fits a) ∧
      (xs.flatMap f.write).length + rest.length ≤ p.length := by
  induction n generalizing p xs with
  | zero =>
    obtain ⟨rfl, rfl⟩ := Prod.mk.inj (Option.some.inj h)
    simp
  | succ n ih =>
    obtain ⟨⟨a, q⟩, ha, h⟩ := Option.bind_eq_some_iff.mp h
    obtain ⟨⟨as, r⟩, has, heq⟩ := Option.map_eq_some_iff.mp h
    obtain ⟨rfl, rfl⟩ := Prod.mk.inj heq
    obtain ⟨hf, hl⟩ := f.read_spec p a q ha
    obtain ⟨hn, hfs, hls⟩ := ih has
    refine ⟨by rw [List.length_cons, hn], ?_, ?_⟩
    · intro b hb
      rcases List.mem_cons.mp hb with rfl | hb
      · exact hf
      · exact hfs b hb
    · simp only [List.flatMap_cons, List.length_append] at hls ⊢
      omega

/-- The number of values, then the values. -/
def list (f : Format α) : Format (List α) where
  write xs := writeVarint xs.length ++ xs.flatMap f.write
  read p := (varint.read p).bind fun x => f.readMany x.1 x.2
  Fits xs := varint.Fits xs.length ∧ ∀ a ∈ xs, f.Fits a
  read_write xs rest h := by
    rw [List.append_assoc, show writeVarint xs.length = varint.write xs.length from rfl,
      varint.read_write _ _ h.1]
    exact f.readMany_write h.2 rest
  read_spec p xs rest h := by
    obtain ⟨⟨n, q⟩, hn, hxs⟩ := Option.bind_eq_some_iff.mp h
    obtain ⟨hfits, hl⟩ := varint.read_spec p n q hn
    obtain ⟨rfl, hall, hl'⟩ := f.readMany_spec hxs
    refine ⟨⟨hfits, hall⟩, ?_⟩
    change (writeVarint xs.length).length + q.length ≤ p.length at hl
    change (xs.flatMap f.write).length + rest.length ≤ q.length at hl'
    rw [List.length_append]
    omega

end Format

/-! ## The basic types -/

/-- Nothing at all. -/
def unit : Format Unit where
  write _ := []
  read p := some ((), p)
  Fits _ := True
  read_write _ _ _ := rfl
  read_spec p _ rest h := by
    obtain ⟨_, rfl⟩ := Prod.mk.inj (Option.some.inj h)
    exact ⟨trivial, by simp⟩

def u8 : Format UInt8 where
  write b := [b]
  read
    | [] => none
    | b :: p => some (b, p)
  Fits _ := True
  read_write _ _ _ := rfl
  read_spec p b rest h := by
    cases p with
    | nil => simp at h
    | cons c p =>
      obtain ⟨rfl, rfl⟩ := Prod.mk.inj (Option.some.inj h)
      exact ⟨trivial, by simp [Nat.add_comm]⟩

/-- `false` and `true` are the bytes 0 and 1. -/
def bool : Format Bool :=
  u8.conv (fun b => if b = 0 then some false else if b = 1 then some true else none)
    (fun x => if x then 1 else 0) (fun _ => True) (by rintro (_ | _) _ <;> rfl) (by
      intro b x h
      exact ⟨trivial, fun _ => trivial, le_rfl⟩)

def u32 : Format UInt32 :=
  varint.conv (fun n => if n < 4294967296 then some (.ofNat n) else none) UInt32.toNat
    (fun _ => True) (fun n _ => by simp [n.toNat_lt]) (by
      intro n m h
      split_ifs at h with hn
      obtain rfl := Option.some.inj h
      have hto : (UInt32.ofNat n).toNat = n := by
        rw [UInt32.toNat_ofNat']
        omega
      rw [hto]
      exact ⟨trivial, id, le_rfl⟩)

/-- A byte string with its length in front. -/
def blob : Format Bytes where
  write b := writeVarint b.length ++ b
  read p := (varint.read p).bind fun x => (bytes x.1).read x.2
  Fits b := varint.Fits b.length
  read_write b rest h := by
    rw [List.append_assoc, show writeVarint b.length = varint.write b.length from rfl,
      varint.read_write _ _ h]
    exact (bytes b.length).read_write b rest rfl
  read_spec p b rest h := by
    obtain ⟨⟨n, q⟩, hn, hb⟩ := Option.bind_eq_some_iff.mp h
    obtain ⟨hfits, hl⟩ := varint.read_spec p n q hn
    obtain ⟨hlen, hl'⟩ := (bytes n).read_spec q b rest hb
    obtain rfl : b.length = n := hlen
    refine ⟨hfits, ?_⟩
    change (writeVarint b.length).length + q.length ≤ p.length at hl
    change b.length + rest.length ≤ q.length at hl'
    rw [List.length_append]
    omega

/-- The UTF-8 bytes of a string. -/
def utf8 (s : String) : Bytes := s.toByteArray.data.toList

@[simp] theorem length_utf8 (s : String) : (utf8 s).length = s.utf8ByteSize := rfl

/-- A string, as its UTF-8 bytes with their number in front. -/
def string : Format String :=
  blob.conv (fun b => String.fromUTF8? ⟨b.toArray⟩) utf8 (fun _ => True)
    (by
      intro s _
      have hs : (⟨(utf8 s).toArray⟩ : ByteArray) = s.toByteArray := rfl
      rw [hs, String.fromUTF8?, dif_pos s.isValidUTF8]
      rfl)
    (by
      intro b s h
      unfold String.fromUTF8? at h
      split_ifs at h with hv
      obtain rfl := Option.some.inj h
      have hb : utf8 (String.fromUTF8 ⟨b.toArray⟩ hv) = b := rfl
      exact ⟨trivial, fun h => by rwa [hb], by rw [hb]⟩)

/-! ## Values written one after the other -/

theorem length_le_flatMap {α : Type u} {xs : List α} {w : α → Bytes} (hne : ∀ a ∈ xs, w a ≠ []) :
    xs.length ≤ (xs.flatMap w).length := by
  induction xs with
  | nil => exact Nat.zero_le _
  | cons a xs ih =>
    have hpos := List.length_pos_iff.mpr (hne a List.mem_cons_self)
    have hrest := ih fun b hb => hne b (List.mem_cons_of_mem _ hb)
    rw [List.flatMap_cons, List.length_append, List.length_cons]
    omega

theorem length_le_length_flatMap {α : Type u} {w : α → Bytes} {xs : List α} {a : α}
    (ha : a ∈ xs) : (w a).length ≤ (xs.flatMap w).length := by
  obtain ⟨pre, post, rfl⟩ := List.append_of_mem ha
  simp only [List.flatMap_append, List.flatMap_cons, List.length_append]
  omega

/-! ## What other writers write -/

namespace Format
variable {α : Type u} {β : Type v}

/-- The bytes `w` are read as `a`, whatever follows them. -/
def Accepts (f : Format α) (w : Bytes) (a : α) : Prop := ∀ rest, f.read (w ++ rest) = some (a, rest)

theorem accepts_write (f : Format α) {a : α} (h : f.Fits a) : f.Accepts (f.write a) a :=
  fun rest => f.read_write a rest h

theorem Accepts.whole {f : Format α} {w : Bytes} {a : α} (h : f.Accepts w a) :
    f.read w = some (a, []) := by
  simpa using h []

theorem Accepts.conv {f : Format α} {mk : α → Option β} {get : β → α} {good : β → Prop}
    {hmk : ∀ b, good b → mk (get b) = some b}
    {hgood : ∀ a b, mk a = some b → good b ∧ (f.Fits a → f.Fits (get b)) ∧
      (f.write (get b)).length ≤ (f.write a).length}
    {w : Bytes} {a : α} {b : β} (h : f.Accepts w a) (hb : mk a = some b) :
    (f.conv mk get good hmk hgood).Accepts w b := by
  intro rest
  change (f.read (w ++ rest)).bind _ = _
  rw [h rest, Option.bind_some, hb]
  rfl

theorem Accepts.iso {f : Format α} {mk : α → β} {get : β → α} {hmk : ∀ b, mk (get b) = b}
    {hget : ∀ a, get (mk a) = a} {w : Bytes} {a : α} (h : f.Accepts w a) :
    (f.iso mk get hmk hget).Accepts w (mk a) :=
  h.conv rfl

theorem Accepts.pair {f : Format α} {g : Format β} {w v : Bytes} {a : α} {b : β}
    (hf : f.Accepts w a) (hg : g.Accepts v b) : (f.pair g).Accepts (w ++ v) (a, b) := by
  intro rest
  change (f.read (w ++ v ++ rest)).bind _ = _
  rw [List.append_assoc, hf (v ++ rest), Option.bind_some, hg rest]
  rfl

theorem accepts_none (f : Format α) : f.option.Accepts [0] none := fun _ => rfl

theorem Accepts.some {f : Format α} {w : Bytes} {a : α} (h : f.Accepts w a) :
    f.option.Accepts (1 :: w) (some a) := by
  intro rest
  change (f.read (w ++ rest)).map _ = _
  rw [h rest]
  rfl

theorem Accepts.variant {f : Format α} {mk : α → β} {get : β → Option α}
    {hget : ∀ a, get (mk a) = .some a} {hmk : ∀ b a, get b = .some a → mk a = b} {w : Bytes} {a : α}
    (h : f.Accepts w a) : (f.variant mk get hget hmk).Accepts w (mk a) := by
  intro rest
  change (f.read (w ++ rest)).map _ = _
  rw [h rest]
  rfl

theorem Accepts.choice {variants : List (Format β)} {tag : β → ℕ} {few : variants.length < 251}
    {htag : ∀ t f, variants[t]? = .some f → ∀ b, f.Fits b → tag b = t} {t : ℕ} {f : Format β}
    {w : Bytes} {b : β} (h : f.Accepts w b) (ht : variants[t]? = .some f) :
    (Format.choice variants tag few htag).Accepts (writeVarint t ++ w) b := by
  intro rest
  have hfits : varint.Fits t := by
    have hlt := (List.getElem?_eq_some_iff.mp ht).1
    change t < 18446744073709551616
    omega
  change (varint.read (varint.write t ++ w ++ rest)).bind _ = _
  rw [List.append_assoc, varint.read_write t _ hfits, Option.bind_some, ht]
  exact h rest

/-! ## What comes back of what was written -/

/-- Values that are written within `L` bytes and are `good` come back as `norm` makes them. -/
def Returns (f : Format α) (L : ℕ) (good : α → Prop) (norm : α → α) : Prop :=
  ∀ a, (f.write a).length ≤ L → good a → f.Accepts (f.write a) (norm a)

variable {L : ℕ}

theorem returns_of_fits {f : Format α} {good : α → Prop}
    (h : ∀ a, (f.write a).length ≤ L → good a → f.Fits a) : f.Returns L good id :=
  fun a hlen ha => f.accepts_write (h a hlen ha)

theorem Returns.conv {f : Format α} {good : α → Prop} {norm : α → α} {mk : α → Option β}
    {get : β → α} {ok : β → Prop} {hmk : ∀ b, ok b → mk (get b) = .some b}
    {hok : ∀ a b, mk a = .some b → ok b ∧ (f.Fits a → f.Fits (get b)) ∧
      (f.write (get b)).length ≤ (f.write a).length}
    (h : f.Returns L good norm) {good' : β → Prop} {norm' : β → β}
    (hgood : ∀ b, good' b → good (get b)) (hnorm : ∀ b, mk (norm (get b)) = .some (norm' b)) :
    (f.conv mk get ok hmk hok).Returns L good' norm' :=
  fun b hlen hb => (h (get b) hlen (hgood b hb)).conv (hnorm b)

theorem Returns.iso {f : Format α} {good : α → Prop} {norm : α → α} {mk : α → β} {get : β → α}
    {hmk : ∀ b, mk (get b) = b} {hget : ∀ a, get (mk a) = a} (h : f.Returns L good norm)
    {good' : β → Prop} {norm' : β → β} (hgood : ∀ b, good' b → good (get b))
    (hnorm : ∀ b, mk (norm (get b)) = norm' b) : (f.iso mk get hmk hget).Returns L good' norm' :=
  h.conv hgood fun b => congrArg Option.some (hnorm b)

theorem Returns.pair {f : Format α} {g : Format β} {good : α → Prop} {good' : β → Prop}
    {norm : α → α} {norm' : β → β} (hf : f.Returns L good norm) (hg : g.Returns L good' norm') :
    (f.pair g).Returns L (fun x => good x.1 ∧ good' x.2) (Prod.map norm norm') := by
  intro x hlen hx
  change (f.write x.1 ++ g.write x.2).length ≤ L at hlen
  rw [List.length_append] at hlen
  exact (hf x.1 (by omega) hx.1).pair (hg x.2 (by omega) hx.2)

theorem Returns.option {f : Format α} (h : f.Returns L (fun _ => True) id) :
    f.option.Returns L (fun _ => True) id := by
  intro x hlen _
  cases x with
  | none => exact f.accepts_none
  | some a =>
    change (1 :: f.write a).length ≤ L at hlen
    rw [List.length_cons] at hlen
    exact (h a (by omega) trivial).some

theorem readMany_accepts {f : Format α} {w : α → Bytes} {norm : α → α} {xs : List α}
    (h : ∀ a ∈ xs, f.Accepts (w a) (norm a)) (rest : Bytes) :
    f.readMany xs.length (xs.flatMap w ++ rest) = some (xs.map norm, rest) := by
  induction xs with
  | nil => rfl
  | cons a xs ih =>
    rw [List.flatMap_cons, List.append_assoc, List.length_cons, readMany,
      h a List.mem_cons_self]
    simp [ih fun b hb => h b (List.mem_cons_of_mem _ hb)]

/-- The values of a list come back one by one. Every one takes a byte, which bounds their number. -/
theorem Returns.list {f : Format α} {good : α → Prop} {norm : α → α} (h : f.Returns L good norm)
    (hne : ∀ a, f.write a ≠ []) (hL : L < 18446744073709551616) :
    f.list.Returns L (fun xs => ∀ a ∈ xs, good a) (List.map norm) := by
  intro xs hlen hxs rest
  change (writeVarint xs.length ++ xs.flatMap f.write).length ≤ L at hlen
  rw [List.length_append] at hlen
  have hcount := length_le_flatMap fun a (_ : a ∈ xs) => hne a
  have hfits : varint.Fits xs.length := show xs.length < 18446744073709551616 by omega
  have hall : ∀ a ∈ xs, f.Accepts (f.write a) (norm a) := fun a ha =>
    h a ((length_le_length_flatMap ha).trans (by omega)) (hxs a ha)
  change (varint.read (varint.write xs.length ++ xs.flatMap f.write ++ rest)).bind _ = _
  rw [List.append_assoc, varint.read_write _ _ hfits, Option.bind_some]
  exact readMany_accepts hall rest

/-- A variant comes back when its fields do. -/
theorem Returns.chosen {f : Format α} {good : α → Prop} {norm : α → α} (h : f.Returns L good norm)
    {variants : List (Format β)} {tag : β → ℕ} {few : variants.length < 251}
    {htag : ∀ t f, variants[t]? = .some f → ∀ b, f.Fits b → tag b = t}
    {mk : α → β} {get : β → Option α} {hget : ∀ a, get (mk a) = .some a}
    {hmk : ∀ b a, get b = .some a → mk a = b} {a : α} {b b' : β}
    (ht : variants[tag b]? = .some (f.variant mk get hget hmk)) (hb : get b = .some a)
    (hb' : mk (norm a) = b') (hlen : ((choice variants tag few htag).write b).length ≤ L)
    (ha : good a) :
    (choice variants tag few htag).Accepts ((choice variants tag few htag).write b) b' := by
  have hwrite : (choice variants tag few htag).write b = writeVarint (tag b) ++ f.write a := by
    change writeVarint (tag b) ++ (variants[tag b]?).elim [] (fun f => f.write b) = _
    rw [ht]
    change writeVarint (tag b) ++ (get b).elim [] f.write = _
    rw [hb]
    rfl
  rw [hwrite, List.length_append] at hlen
  rw [hwrite, ← hb']
  exact ((h a (by omega) ha).variant).choice ht

end Format

/-! ## The basic types come back -/

section
variable {L : ℕ}

theorem unit_returns : unit.Returns L (fun _ => True) id := Format.returns_of_fits fun _ _ _ => trivial

theorem u8_returns : u8.Returns L (fun _ => True) id := Format.returns_of_fits fun _ _ _ => trivial

theorem bool_returns : bool.Returns L (fun _ => True) id :=
  Format.returns_of_fits fun _ _ _ => ⟨trivial, trivial⟩

theorem u32_returns : u32.Returns L (fun _ => True) id := by
  refine Format.returns_of_fits fun n _ _ => ⟨?_, trivial⟩
  have hlt := n.toNat_lt
  change n.toNat < 18446744073709551616
  omega

theorem blob_returns (hL : L < 18446744073709551616) : blob.Returns L (fun _ => True) id := by
  refine Format.returns_of_fits fun b hlen _ => ?_
  change (writeVarint b.length ++ b).length ≤ L at hlen
  rw [List.length_append] at hlen
  change b.length < 18446744073709551616
  omega

theorem string_returns (hL : L < 18446744073709551616) : string.Returns L (fun _ => True) id := by
  refine Format.returns_of_fits fun s hlen _ => ⟨?_, trivial⟩
  change (writeVarint s.utf8ByteSize ++ utf8 s).length ≤ L at hlen
  rw [List.length_append, length_utf8] at hlen
  change s.utf8ByteSize < 18446744073709551616
  omega

end

end Bincode
