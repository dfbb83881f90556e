import Roomie.ClientEncoders
import Roomie.GmlPolling

/-!
# Blobs that the GameMaker client sends

`roomie_encode_move`, `roomie_encode_input` and `_roomie_send_frame`. A frame is as long as the
position in the encoded message says. Writing a string moves the position, copying a buffer does not,
so of a buffer only the length is sent.
-/

namespace Roomie.Gml
open Bincode Cursors ByteBuffers Frames

/-- What is passed as a blob. -/
inductive BlobArg where
  | string (s : String)
  | buffer (b : Buffer)
  | other

def BlobArg.bytes : BlobArg → Bytes
  | .string s => utf8 s
  | .buffer b => b.bytes
  | .other => []

/-- `roomie_encode_move` and `roomie_encode_input` differ in the number of the variant. -/
def encodeBlob (variant : ℕ) (blob : BlobArg) : Buffer :=
  let buff := varintWrite variant (.create 64 .grow)
  match blob with
  | .string s =>
    let buff := varintWrite (utf8 s).length buff
    if 0 < (utf8 s).length then buff.write (utf8 s) else buff
  | .buffer b =>
    let buff := varintWrite b.size buff
    b.copy 0 b.size buff buff.pos
  | .other => varintWrite 0 buff

def encodeMove (blob : BlobArg) : Buffer := encodeBlob 1 blob

def encodeInput (blob : BlobArg) : Buffer := encodeBlob 2 blob

section
variable (network : Bytes → ℤ)

/-- `_roomie_send_frame`: the bytes passed to `network_send_raw`, if it is called, and whether the
function returns true. The network says what it returns. -/
def sendFrame (c : Client) (payload : Buffer) : Option Bytes × Bool :=
  if c.socket < 0 || !c.connected then (none, false)
  else
    let plen := payload.pos
    if maxFrameLen < plen then (none, false)
    else
      let frame := ((Buffer.create (4 + plen) .fixed).seek 0).write (littleEndian 4 plen)
      let frame := payload.copy 0 plen frame 4
      let sent := Cursor.slice frame.bytes 0 (4 + plen)
      (some sent, 0 ≤ network sent)

/-- `roomie_client_send_move`. -/
def sendMove (c : Client) (blob : BlobArg) : Option Bytes × Bool :=
  if c.isConnected then sendFrame network c (encodeMove blob) else (none, false)

/-- `roomie_client_send_input`. -/
def sendInput (c : Client) (blob : BlobArg) : Option Bytes × Bool :=
  if c.isConnected then sendFrame network c (encodeInput blob) else (none, false)

end

/-- All of the blob is in front of the position: it is no buffer, or one without a byte. -/
def BlobArg.Written : BlobArg → Prop
  | .buffer b => b.size = 0
  | _ => True

/-! ## What is encoded -/

/-- What of the blob is written, and not copied. -/
def BlobArg.written : BlobArg → Bytes
  | .buffer _ => []
  | blob => blob.bytes

theorem BlobArg.written_eq_iff (blob : BlobArg) : blob.written = blob.bytes ↔ blob.Written := by
  cases blob with
  | string s => exact iff_of_true rfl trivial
  | buffer b => exact eq_comm.trans List.length_eq_zero_iff.symm
  | other => exact iff_of_true rfl trivial

theorem BlobArg.written_prefix (blob : BlobArg) : blob.written <+: blob.bytes := by
  cases blob with
  | string s => exact List.prefix_rfl
  | buffer b => exact List.nil_prefix
  | other => exact List.prefix_rfl

theorem varintWrite_holds {b : Buffer} {w : Bytes} (h : b.Holds w) {n : ℕ} (hn : n < 4294967296) :
    (varintWrite n b).Holds (w ++ writeVarint n) := by
  rw [varintWrite_eq hn]
  exact h.write _

theorem encodeBlob_holds {variant : ℕ} (hvariant : variant < 4294967296) {blob : BlobArg}
    (hsize : blob.bytes.length < 4294967296) :
    (encodeBlob variant blob).Holds
      (writeVarint variant ++ writeVarint blob.bytes.length ++ blob.written) := by
  have hheader := varintWrite_holds (varintWrite_holds (Buffer.holds_create 64) hvariant) hsize
  rw [List.nil_append] at hheader
  cases blob with
  | string s =>
    change (if 0 < (utf8 s).length then _ else _ : Buffer).Holds _
    split_ifs with hlen
    · exact hheader.write (utf8 s)
    · have hnil : (BlobArg.string s).written = [] :=
        List.length_eq_zero_iff.mp (Nat.eq_zero_of_not_pos hlen)
      rw [hnil, List.append_nil]
      exact hheader
  | buffer b =>
    rw [BlobArg.written, List.append_nil]
    exact hheader.copy b 0 b.size
  | other =>
    rw [show BlobArg.other.written = [] from rfl, List.append_nil]
    exact hheader

/-! ## What is sent -/

/-- The frame is filled by the length and what is copied behind it. -/
theorem frame_filled {payload : Buffer} {w : Bytes} (h : payload.Holds w) :
    (payload.copy 0 payload.pos (((Buffer.create (4 + payload.pos) .fixed).seek 0).write
      (littleEndian 4 payload.pos)) 4).bytes = frame w := by
  have hheader : (littleEndian 4 payload.pos).length = 4 := length_littleEndian 4 payload.pos
  calc _ = ((Buffer.create (4 + payload.pos) .fixed).put 0
        (littleEndian 4 payload.pos ++ payload.bytes.take payload.pos)).bytes := by
        rw [Buffer.put_append, hheader]
        rfl
    _ = ((Buffer.create (4 + payload.pos) .fixed).put 0 (frame w)).bytes := by
        rw [h.take, h.pos_eq, frame]
    _ = frame w := by
        apply Buffer.put_all rfl
        rw [length_frame, h.pos_eq]
        exact List.length_replicate.symm

section
variable {network : Bytes → ℤ} {c : Client} (hconnected : c.isConnected = true)
include hconnected

/-- What stands before the position is sent. -/
theorem sendFrame_eq {payload : Buffer} {w : Bytes} (h : payload.Holds w)
    (hlen : w.length ≤ maxFrameLen) : (sendFrame network c payload).1 = some (frame w) := by
  obtain ⟨hup, hsocket⟩ := Bool.and_eq_true_iff.mp hconnected
  have hready : ¬ (decide (c.socket < 0) || !c.connected) = true := by
    simp [hup, of_decide_eq_true hsocket]
  have hlimit : ¬ maxFrameLen < payload.pos := by
    rw [h.pos_eq]
    exact Nat.not_lt.mpr hlen
  unfold sendFrame
  rw [if_neg hready, if_neg hlimit]
  dsimp only
  rw [frame_filled h, h.pos_eq, ← length_frame]
  exact congrArg some List.take_length

/-- Of a buffer the length arrives without the bytes, and the server finds no message there. -/
theorem arrives_iff {variant : ℕ} (hvariant : variant < 4294967296) {msg : Blob → ClientMessage}
    (hwrite : ∀ b, clientMessageFormat.write (msg b) = writeVarint variant ++ blob.write b)
    (haccepts : ∀ b, (blob.write b).length ≤ maxFrameLen →
      clientMessageFormat.Accepts (writeVarint variant ++ blob.write b) (msg b))
    {arg : BlobArg} (hlen : (clientMessageFormat.write (msg arg.bytes)).length ≤ maxFrameLen) :
    Arrives (sendFrame network c (encodeBlob variant arg)).1 (msg arg.bytes) ↔ arg.Written := by
  let header := writeVarint variant ++ writeVarint arg.bytes.length
  have hmessage : clientMessageFormat.write (msg arg.bytes) = header ++ arg.bytes := by
    rw [hwrite, List.append_assoc]
    rfl
  have hshort : (header ++ arg.written).length ≤ maxFrameLen := by
    have hwritten := arg.written_prefix.length_le
    rw [hmessage] at hlen
    rw [List.length_append] at hlen ⊢
    omega
  have hsize : arg.bytes.length < 4294967296 := by
    have hmax := maxFrameLen_lt
    rw [hmessage, List.length_append] at hlen
    omega
  have hsent : (sendFrame network c (encodeBlob variant arg)).1 =
      some (frame (header ++ arg.written)) :=
    sendFrame_eq hconnected (encodeBlob_holds hvariant hsize) hshort
  rw [hsent, arrives_frame hshort, ← arg.written_eq_iff]
  constructor
  · intro hdecode
    have hall := (decode_spec hdecode).2.2
    simp only [hmessage, List.length_append, add_le_add_iff_left] at hall
    exact arg.written_prefix.eq_of_length_le hall
  · intro hwritten
    rw [hwritten] at hshort ⊢
    refine decode_whole ?_ hshort
    have hblob : (blob.write arg.bytes).length ≤ maxFrameLen := by
      rw [hwrite, List.length_append] at hlen
      omega
    rw [← hmessage, hwrite]
    exact haccepts arg.bytes hblob

theorem sendMove_arrives {arg : BlobArg}
    (hlen : (clientMessageFormat.write (.move arg.bytes)).length ≤ maxFrameLen) :
    Arrives (sendMove network c arg).1 (.move arg.bytes) ↔ arg.Written := by
  rw [sendMove, if_pos hconnected]
  apply arrives_iff hconnected (by decide) (fun _ => rfl) ?_ hlen
  exact fun _ h => (blob_accepts h).variant.choice rfl

theorem sendInput_arrives {arg : BlobArg}
    (hlen : (clientMessageFormat.write (.input arg.bytes)).length ≤ maxFrameLen) :
    Arrives (sendInput network c arg).1 (.input arg.bytes) ↔ arg.Written := by
  rw [sendInput, if_pos hconnected]
  apply arrives_iff hconnected (by decide) (fun _ => rfl) ?_ hlen
  exact fun _ h => (blob_accepts h).variant.choice rfl

end

/-- A blob that fits into a frame arrives when it is a string, and of the buffers only one without
a byte does. -/
theorem blobs_arrive_iff (network : Bytes → ℤ) {c : Client} (hconnected : c.isConnected = true)
    (arg : BlobArg) :
    ((clientMessageFormat.write (.move arg.bytes)).length ≤ maxFrameLen →
      (Arrives (sendMove network c arg).1 (.move arg.bytes) ↔ arg.Written)) ∧
    ((clientMessageFormat.write (.input arg.bytes)).length ≤ maxFrameLen →
      (Arrives (sendInput network c arg).1 (.input arg.bytes) ↔ arg.Written)) :=
  ⟨sendMove_arrives hconnected, sendInput_arrives hconnected⟩

/-- A state that is a string. -/
theorem string_arrives :
    Arrives (sendMove (fun _ => 0) (Client.create.connect false 1 0).1 (.string "up")).1
      (.move (utf8 "up")) :=
  ((blobs_arrive_iff (fun _ => 0) (by decide) (.string "up")).1 (by decide)).mpr trivial

/-- A buffer of one byte. -/
def oneByte : BlobArg := .buffer ⟨.fixed, [7], 0⟩

/-- The number of the bytes is sent and not the byte. -/
theorem byte_missing :
    (sendMove (fun _ => 0) (Client.create.connect false 1 0).1 oneByte).1 =
      some [2, 0, 0, 0, 1, 1] ∧
    ¬ Arrives (sendMove (fun _ => 0) (Client.create.connect false 1 0).1 oneByte).1
      (.move oneByte.bytes) ∧
    ¬ Arrives (sendInput (fun _ => 0) (Client.create.connect false 1 0).1 oneByte).1
      (.input oneByte.bytes) := by
  have hwritten : ¬ oneByte.Written := Nat.one_ne_zero
  refine ⟨by decide, fun h => hwritten ?_, fun h => hwritten ?_⟩
  · exact (sendMove_arrives (by decide) (by decide)).mp h
  · exact (sendInput_arrives (by decide) (by decide)).mp h

end Roomie.Gml
