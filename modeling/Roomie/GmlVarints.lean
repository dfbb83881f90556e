import Roomie.ByteBuffers
import Roomie.CppDecoder
import Roomie.CsharpDecoder

/-!
# Varints of the three clients

`roomie_varint_write` and `roomie_varint_read` of the GameMaker client, beside the writers and
readers of the C++ and the C# client. The three writers agree wherever GameMaker writes the whole
number, and every reader gives back what any of them wrote, whatever follows it.
-/

namespace Roomie.Gml
open Bincode Cursors ByteBuffers

/-- `roomie_varint_write`, of a whole number: its sign is lost, and so is what exceeds 32 bits. -/
def varintWrite (value : ℤ) (buff : Buffer) : Buffer :=
  let val := value.natAbs &&& 0xFFFFFFFF
  if val < 251 then buff.write (littleEndian 1 val)
  else if val < 65536 then (buff.write (littleEndian 1 251)).write (littleEndian 2 val)
  else (buff.write (littleEndian 1 252)).write (littleEndian 4 val)

/-- What the runner leaves to be known: how many nested calls there is room for, and what comes of a
read of so many bytes, or a seek to a place, that goes past the end of a buffer. It may be an
error. -/
structure Runtime where
  stack : ℕ
  readOutside : Bytes → ℕ → ℕ → Option (ℕ × ℕ)
  seekOutside : Bytes → ℕ → Option ℕ

/-- A number is a double: from 2 ^ 53 on it is rounded, ties to even. -/
def double (n : ℕ) : ℕ :=
  if n < 2 ^ 53 then n
  else
    let ulp := 2 ^ (n.log2 - 52)
    let up := if 2 * (n % ulp) < ulp then 0 else if ulp < 2 * (n % ulp) then 1 else n / ulp % 2
    (n / ulp + up) * ulp

abbrev Reader := Cursor Option

variable (rt : Runtime)

/-- `buffer_read`, of an unsigned number of so many bytes. -/
def bufferRead (k : ℕ) : Reader ℕ := fun data pos =>
  if pos + k ≤ data.length then some (ofLittleEndian (Cursor.slice data pos k), pos + k)
  else rt.readOutside data pos k

/-- What follows the first byte of a varint. -/
def varintReadTail (b : ℕ) : Reader ℕ :=
  if b < 251 then pure b
  else if b = 251 then bufferRead rt 2
  else if b = 252 then bufferRead rt 4
  else if b = 253 then do
    let lo ← bufferRead rt 4
    let hi ← bufferRead rt 4
    pure (double (lo + hi * 4294967296))
  else pure 0

/-- `roomie_varint_read`. -/
def varintRead : Reader ℕ := bufferRead rt 1 >>= varintReadTail rt

/-! ## What is written -/

theorem varintWrite_eq {n : ℕ} (h : n < 4294967296) (buff : Buffer) :
    varintWrite n buff = buff.write (writeVarint n) := by
  have hval : (n : ℤ).natAbs &&& 0xFFFFFFFF = n := by
    rw [Int.natAbs_natCast]
    exact (Nat.and_two_pow_sub_one_eq_mod n 32).trans (Nat.mod_eq_of_lt h)
  unfold varintWrite writeVarint
  rw [hval, if_pos h]
  dsimp only
  split_ifs
  · rfl
  · exact (buff.write_append [251] (littleEndian 2 n)).symm
  · exact (buff.write_append [252] (littleEndian 4 n)).symm

/-! ## What is read -/

variable {L : ℕ}

theorem bufferRead_reads {k : ℕ} {w : Bytes} (hk : w.length = k) :
    Reads L (bufferRead rt k) (ofLittleEndian w) w := by
  subst hk
  intro pre post _
  have hthere : pre.length + w.length ≤ (pre ++ (w ++ post)).length := by
    simp only [List.length_append]
    omega
  rw [bufferRead, if_pos hthere, Cursor.slice_at]
  rfl

theorem varintRead_reads {n : ℕ} (h : n < 4294967296) :
    Reads L (varintRead rt) n (writeVarint n) := by
  have hbyte : ∀ b : UInt8, Reads L (bufferRead rt 1) b.toNat [b] := fun b =>
    bufferRead_reads rt rfl
  have hwide : ∀ {k : ℕ}, n < 256 ^ k → Reads L (bufferRead rt k) n (littleEndian k n) :=
    fun hk => (bufferRead_reads rt (length_littleEndian _ n)).congr
      (ofLittleEndian_littleEndian hk) rfl
  unfold writeVarint
  split_ifs with h₁ h₂
  · have hn : (UInt8.ofNat n).toNat = n := by
      rw [UInt8.toNat_ofNat']
      omega
    have htail : varintReadTail rt (UInt8.ofNat n).toNat = pure n := by
      rw [hn, varintReadTail, if_pos h₁]
    exact (hbyte _).bind (w := [_]) (htail ▸ .pure n)
  · exact (hbyte 251).bind (w := [251]) (hwide h₂)
  · exact (hbyte 252).bind (w := [252]) (hwide h)

end Roomie.Gml

namespace Roomie
open Bincode Cursors ByteBuffers

/-- The clients write every number alike, GameMaker if it has at most 32 bits; each of their readers
gets the number back from anywhere in the data and goes exactly past it; and no number is written
as the beginning of another. -/
theorem varints_agree (rt : Gml.Runtime) :
    (∀ (v : UInt64) (pre rest : Bytes),
      let w := Cpp.writeVarint v.toNat
      Csharp.writeVarint v.toNat = w ∧
        Cpp.readVarint (pre ++ (w ++ rest)) pre.length = some (v.toNat, (pre ++ w).length) ∧
        Csharp.readVarint (pre ++ (w ++ rest)) pre.length = .ok (v.toNat, (pre ++ w).length) ∧
        (pre ++ (w ++ rest)).drop (pre ++ w).length = rest) ∧
    (∀ (v : UInt32) (buff : Buffer) (pre rest : Bytes),
      let w := Cpp.writeVarint v.toNat
      Gml.varintWrite v.toNat buff = buff.write w ∧
        Gml.varintRead rt (pre ++ (w ++ rest)) pre.length = some (v.toNat, (pre ++ w).length)) ∧
    ∀ v v' : UInt64, Cpp.writeVarint v.toNat <+: Cpp.writeVarint v'.toNat → v = v' := by
  refine ⟨fun v pre rest => ?_, fun v buff pre rest => ?_, fun v v' h => ?_⟩
  · have hlt : v.toNat < 18446744073709551616 := v.toNat_lt
    dsimp only
    rw [Cpp.writeVarint_eq, Csharp.writeVarint_eq, List.length_append]
    refine ⟨rfl, Cpp.readVarint_reads hlt pre rest le_rfl, Csharp.readVarint_reads hlt pre rest le_rfl,
      ?_⟩
    rw [← List.append_assoc, ← List.length_append, List.drop_left]
  · have hlt : v.toNat < 4294967296 := v.toNat_lt
    dsimp only
    rw [Cpp.writeVarint_eq, List.length_append]
    exact ⟨Gml.varintWrite_eq hlt buff, Gml.varintRead_reads rt hlt pre rest le_rfl⟩
  · rw [Cpp.writeVarint_eq, Cpp.writeVarint_eq] at h
    have heq := Reads.eq_of_prefix (Cpp.readVarint_reads v.toNat_lt)
      (Cpp.readVarint_reads v'.toNat_lt) h
    exact UInt64.toNat_inj.mp heq

end Roomie
