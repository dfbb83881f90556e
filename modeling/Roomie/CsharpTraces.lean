import Roomie.CursorTraces
import Roomie.CsharpDecoder

/-!
# The C# decoder with its reads recorded

`DecodeAndDispatch` once more. Every access to the payload, every length of a string and every call
of `SkipBincodeJsonValue` leaves an entry; without the entries it is the decoder. The sum in `Need`
is one of `int`. It wraps for the length of a string only, and then the framework throws what nobody
has foreseen.
-/

namespace Roomie.Csharp
open Bincode Cursors

/-- What is recorded: an access to so many bytes, to those of a string, and a call of
`SkipBincodeJsonValue` with room for so many calls on the stack. -/
inductive Kind where
  | reads (n : ℕ)
  | string (n : ℕ)
  | nested (room : ℕ)
  deriving DecidableEq

abbrev Tracer := Cursors.Tracer Fault Kind

/-- The cases of `SkipBincodeJsonValue`, given what it does one call deeper. -/
def skipTagged (rt : Runtime) (deeper : Reader Unit) : ℕ → Reader Unit
  | 0 => pure ()
  | 1 => discard readU8
  | 2 => skip 8 "Unexpected end of data reading JSON Number"
  | 3 => discard (readString rt)
  | 4 => readVarint >>= fun n => discard (deeper.collect n)
  | 5 => readVarint >>= fun n => discard ((discard (readString rt) >>= fun _ => deeper).collect n)
  | tag => fun _ _ => .error (.protocol ("Unknown JSON Value variant: " ++ toString tag))

theorem skipBincodeJsonValue_succ (rt : Runtime) (room : ℕ) :
    skipBincodeJsonValue rt (room + 1) =
      readVarint >>= skipTagged rt (skipBincodeJsonValue rt room) := by
  rw [skipBincodeJsonValue]
  congr 1

namespace Traced
variable {α : Type}

def throws (message : String) : Tracer α := .silent fun _ _ => .error (.protocol message)

def readByte (what : String) : Tracer UInt8 := .logged (.reads 1) (.silent (Csharp.readByte what))

def readU8 : Tracer UInt8 := readByte "u8"

def readBool : Tracer Bool := (fun b => decide (b ≠ 0)) <$> readU8

def readLittleEndian (k : ℕ) (what : String) : Tracer ℕ :=
  .logged (.reads k) (.silent (Csharp.readLittleEndian k what))

def readVarintTail (b : UInt8) : Tracer ℕ :=
  if b.toNat < 251 then pure b.toNat
  else if b = 251 then readLittleEndian 2 "u16 varint"
  else if b = 252 then readLittleEndian 4 "u32 varint"
  else if b = 253 then readLittleEndian 8 "u64 varint"
  else throws ("Invalid varint prefix byte: " ++ toString b)

def readVarint : Tracer ℕ := readByte "varint" >>= readVarintTail

def readU32Varint : Tracer UInt32 := UInt32.ofNat <$> readVarint

def readString (rt : Runtime) : Tracer String :=
  getString rt <$> (readVarint >>= fun len => .logged (.string len) (.silent
    (readLength 0x7FFFFFFF "String length too large: " "Unexpected end of data reading string" len)))

def readOptString (rt : Runtime) : Tracer (Option String) := do
  if (← readU8) = 0 then pure none else some <$> readString rt

def readBytes : Tracer Bytes :=
  readVarint >>= fun len => .logged (.reads len) (.silent
    (readLength 65536 "Byte array length too large: " "Unexpected end of data reading bytes" len))

def skip (n : ℕ) (message : String) : Tracer Unit := .silent (Csharp.skip n message)

def skipEntry (rt : Runtime) (deeper : Tracer Unit) : Tracer Unit :=
  discard (readString rt) >>= fun _ => deeper

def skipTagged (rt : Runtime) (deeper : Tracer Unit) : ℕ → Tracer Unit
  | 0 => pure ()
  | 1 => discard readU8
  | 2 => skip 8 "Unexpected end of data reading JSON Number"
  | 3 => discard (readString rt)
  | 4 => readVarint >>= fun n => discard (deeper.collect n)
  | 5 => readVarint >>= fun n => discard ((skipEntry rt deeper).collect n)
  | tag => throws ("Unknown JSON Value variant: " ++ toString tag)

/-- One call, with room for so many more. -/
def skipCall (rt : Runtime) (room : ℕ) (deeper : Tracer Unit) : Tracer Unit :=
  .logged (.nested (room + 1)) (readVarint >>= skipTagged rt deeper)

def skipBincodeJsonValue (rt : Runtime) : ℕ → Tracer Unit :=
  .nest (.logged (.nested 0) (.silent (Csharp.skipBincodeJsonValue rt 0))) (skipCall rt)

def readRoomSettings (rt : Runtime) : Tracer RoomSettings := do
  let maxPlayers ← readU32Varint
  let minPlayers ← readU32Varint
  let isPublic ← readBool
  let password ← readOptString rt
  let acceptRequired ← readBool
  let customTag ← readU8
  if customTag ≠ 0 then skipBincodeJsonValue rt rt.stack
  pure ⟨maxPlayers, minPlayers, isPublic, password, acceptRequired⟩

def readListedRoom (rt : Runtime) : Tracer (ListedRoom String RoomSettings) := do
  let roomCode ← readString rt
  let playerCount ← readU32Varint
  let settings ← readRoomSettings rt
  pure ⟨roomCode, playerCount, settings⟩

def readList (rt : Runtime) : Tracer (List (ListedRoom String RoomSettings)) :=
  readVarint >>= (readListedRoom rt).collect

def readState : Tracer (Option Bytes) := do
  if (← readU8) ≠ 0 then some <$> readBytes else pure none

section
variable (rt : Runtime) (handlers : Callback → Bool)

def dispatchEvent : ℕ → Tracer (Option Call)
  | 0 => do
    let newHost ← readU32Varint
    pure ((Call.hostTransferred newHost).invoke handlers)
  | 1 => pure (Call.kicked.invoke handlers)
  | 2 => pure (Call.banned.invoke handlers)
  | 3 => do
    let settings ← readRoomSettings rt
    pure ((Call.settingsChanged settings).invoke handlers)
  | _ => pure none

def dispatchTag : ℕ → Tracer (Option Call)
  | 0 => do
    let roomCode ← readString rt
    let peerId ← readU32Varint
    let hostPeerId ← readU32Varint
    let side ← readU8
    let settings ← readRoomSettings rt
    let initialState ← readState
    pure ((Call.joined roomCode peerId hostPeerId side settings initialState).invoke handlers)
  | 1 => do
    let list ← readList rt
    pure ((Call.roomList list).invoke handlers)
  | 2 => do
    let peerId ← readU32Varint
    let clientHash ← readString rt
    let displayName ← readOptString rt
    pure ((Call.peerJoined peerId clientHash displayName).invoke handlers)
  | 3 => do
    let peerId ← readU32Varint
    pure ((Call.peerLeft peerId).invoke handlers)
  | 4 => do
    let peerId ← readU32Varint
    let data ← readBytes
    pure ((Call.peerInput peerId data).invoke handlers)
  | 5 => do
    let data ← readBytes
    pure ((Call.stateUpdate data).invoke handlers)
  | 6 => pure (Call.moveAccepted.invoke handlers)
  | 7 => do
    let reason ← readString rt
    pure ((Call.moveRejected reason).invoke handlers)
  | 8 => readVarint >>= dispatchEvent rt handlers
  | 9 => pure (Call.pong.invoke handlers)
  | 10 => do
    let msg ← readString rt
    pure ((Call.error msg).invoke handlers)
  | _ => pure none

def dispatch : Tracer (Option Call) := readVarint >>= dispatchTag rt handlers

end

/-! ## Without the record -/

/-- The record is left out. -/
def untraced (r : Tracer α) : Reader α := r.through outcome

@[simp] theorem untraced_silent (r : Reader α) : untraced (.silent r) = r := rfl

@[simp] theorem untraced_throws (message : String) :
    untraced (throws message : Tracer α) = fun _ _ => .error (.protocol message) := rfl

@[simp] theorem untraced_logged (k : Kind) (r : Tracer α) :
    untraced (.logged k r) = untraced r := rfl

@[simp] theorem untraced_pure (a : α) : untraced (pure a) = pure a := by simp [untraced]

@[simp] theorem untraced_bind {β : Type} (r : Tracer α) (f : α → Tracer β) :
    untraced (r >>= f) = untraced r >>= fun a => untraced (f a) := by simp [untraced]

@[simp] theorem untraced_map {β : Type} (f : α → β) (r : Tracer α) :
    untraced (f <$> r) = f <$> untraced r := by simp [untraced]

@[simp] theorem untraced_discard (r : Tracer α) : untraced (discard r) = discard (untraced r) :=
  untraced_bind r fun _ => pure ()

@[simp] theorem untraced_collect (r : Tracer α) (n : ℕ) :
    untraced (r.collect n) = (untraced r).collect n := by simp [untraced]

@[simp] theorem untraced_ite (p : Prop) [Decidable p] (r r' : Tracer α) :
    untraced (if p then r else r') = if p then untraced r else untraced r' := by
  split_ifs <;> rfl

@[simp] theorem untraced_readByte (what : String) :
    untraced (readByte what) = Csharp.readByte what := by
  rw [readByte, untraced_logged, untraced_silent]

@[simp] theorem untraced_readU8 : untraced readU8 = Csharp.readU8 := untraced_readByte "u8"

@[simp] theorem untraced_readBool : untraced readBool = Csharp.readBool := by
  rw [readBool, untraced_map, untraced_readU8, Csharp.readBool]

@[simp] theorem untraced_readVarintTail (b : UInt8) :
    untraced (readVarintTail b) = Csharp.readVarintTail b := by
  simp only [readVarintTail, readLittleEndian, Csharp.readVarintTail, untraced_ite,
    untraced_logged, untraced_silent, untraced_pure, untraced_throws]

@[simp] theorem untraced_readVarint : untraced readVarint = Csharp.readVarint := by
  simp only [readVarint, Csharp.readVarint, untraced_bind, untraced_readByte,
    untraced_readVarintTail]

@[simp] theorem untraced_readU32Varint : untraced readU32Varint = Csharp.readU32Varint := by
  simp [readU32Varint, Csharp.readU32Varint]

@[simp] theorem untraced_readString (rt : Runtime) :
    untraced (readString rt) = Csharp.readString rt := by
  simp [readString, Csharp.readString]

@[simp] theorem untraced_readOptString (rt : Runtime) :
    untraced (readOptString rt) = Csharp.readOptString rt := by
  simp [readOptString, Csharp.readOptString]

@[simp] theorem untraced_readBytes : untraced readBytes = Csharp.readBytes := by
  simp [readBytes, Csharp.readBytes]

@[simp] theorem untraced_skip (n : ℕ) (message : String) :
    untraced (skip n message) = Csharp.skip n message := untraced_silent _

@[simp] theorem untraced_skipTagged (rt : Runtime) (deeper : Tracer Unit) (tag : ℕ) :
    untraced (skipTagged rt deeper tag) = Csharp.skipTagged rt (untraced deeper) tag := by
  match tag with
  | 0 => exact untraced_pure ()
  | 1 => exact (untraced_discard _).trans (congrArg discard untraced_readU8)
  | 2 => exact untraced_skip _ _
  | 3 => exact (untraced_discard _).trans (congrArg discard (untraced_readString rt))
  | 4 =>
    refine (untraced_bind _ _).trans ?_
    rw [untraced_readVarint]
    simp only [untraced_discard, untraced_collect]
    rfl
  | 5 =>
    refine (untraced_bind _ _).trans ?_
    rw [untraced_readVarint]
    simp only [untraced_discard, untraced_collect, skipEntry, untraced_bind, untraced_readString]
    rfl
  | tag + 6 => exact untraced_throws _

theorem skipBincodeJsonValue_succ (rt : Runtime) (room : ℕ) :
    skipBincodeJsonValue rt (room + 1) = skipCall rt room (skipBincodeJsonValue rt room) :=
  Tracer.nest_succ _ _ room

@[simp] theorem untraced_skipBincodeJsonValue (rt : Runtime) (room : ℕ) :
    untraced (skipBincodeJsonValue rt room) = Csharp.skipBincodeJsonValue rt room := by
  induction room with
  | zero => exact untraced_silent _
  | succ room ih =>
    rw [skipBincodeJsonValue_succ, Csharp.skipBincodeJsonValue_succ, skipCall, untraced_logged,
      untraced_bind, untraced_readVarint]
    simp only [untraced_skipTagged, ih]

@[simp] theorem untraced_readRoomSettings (rt : Runtime) :
    untraced (readRoomSettings rt) = Csharp.readRoomSettings rt := by
  simp [readRoomSettings, Csharp.readRoomSettings]

@[simp] theorem untraced_readList (rt : Runtime) : untraced (readList rt) = Csharp.readList rt := by
  have hentry : untraced (readListedRoom rt) = Csharp.readListedRoom rt := by
    simp [readListedRoom, Csharp.readListedRoom]
  simp [readList, Csharp.readList, hentry]

@[simp] theorem untraced_readState : untraced readState = Csharp.readState := by
  simp [readState, Csharp.readState]

section
variable (rt : Runtime) (handlers : Callback → Bool)

@[simp] theorem untraced_dispatchEvent (ev : ℕ) :
    untraced (dispatchEvent rt handlers ev) = Csharp.dispatchEvent rt handlers ev := by
  unfold dispatchEvent Csharp.dispatchEvent
  split <;> simp

@[simp] theorem untraced_dispatchTag (tag : ℕ) :
    untraced (dispatchTag rt handlers tag) = Csharp.dispatchTag rt handlers tag := by
  unfold dispatchTag Csharp.dispatchTag
  split <;> simp

/-- The recorded decoder does what the decoder does. -/
theorem untraced_dispatch (payload : Bytes) :
    (dispatch rt handlers payload 0).2 = decodeAndDispatch rt handlers payload := by
  have hsame : untraced (dispatch rt handlers) =
      Csharp.readVarint >>= Csharp.dispatchTag rt handlers := by
    simp [dispatch]
  exact congrFun (congrFun hsame payload) 0

end

end Traced
end Roomie.Csharp
