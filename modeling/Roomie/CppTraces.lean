import Roomie.CursorTraces
import Roomie.CppDecoder

/-!
# The C++ decoder with its calls recorded

`decode_and_dispatch` once more. Every call of a reader function, every turn of a loop and every
`pos += n` of `skip_bincode_json_value` leaves an entry with the positions before and after; without
the entries it is the decoder.
-/

namespace Roomie.Cpp
open Bincode Cursors

/-- What is recorded: the call of a reader function, a turn of a loop, and the `pos += n` of
`skip_bincode_json_value`. -/
inductive Kind where
  | call
  | turn
  | skips (n : ℕ)
  deriving DecidableEq

abbrev Tracer := Cursors.Tracer Unit Kind

/-- A crash is the only error. -/
def crashing {α : Type} (r : Reader α) : Cursor (Except Unit) α := fun data pos =>
  (r data pos).elim (.error ()) .ok

namespace Traced
variable {α : Type}

def primitive (r : Reader α) : Tracer α := .silent (crashing r)

def call (r : Tracer α) : Tracer α := .logged .call r

def turn (r : Tracer α) : Tracer α := .logged .turn r

def readU8 : Tracer UInt8 := call (primitive Cpp.readU8)

def readVarint : Tracer ℕ := call (primitive Cpp.readVarint)

def readU32Varint : Tracer UInt32 := call (UInt32.ofNat <$> readVarint)

def readStr : Tracer Bytes := call (readVarint >>= fun len => primitive (readLength 0x7FFFFFFF len))

def readBytes : Tracer Bytes := call (readVarint >>= fun len => primitive (readLength maxFrameLen len))

def readOptStr : Tracer (Option Bytes) := call do
  if (← readU8) = 0 then pure none else some <$> readStr

def skip (n : ℕ) : Tracer Unit := .logged (.skips n) (primitive (Cpp.skip n))

def skipBincodeJsonValue : ℕ → Tracer Unit
  | 0 => primitive (Cpp.skipBincodeJsonValue 0)
  | depth + 1 => call do
    match ← readVarint with
    | 0 => pure ()
    | 1 => discard readU8
    | 2 => skip 8
    | 3 => readVarint >>= skip
    | 4 => discard ((turn (skipBincodeJsonValue depth)).collect (← readVarint))
    | 5 =>
      let entry := turn do
        discard readStr
        skipBincodeJsonValue depth
      discard (entry.collect (← readVarint))
    | _ => pure ()

def readRoomSettings (depth : ℕ) : Tracer RoomSettings := call do
  let maxPlayers ← UInt32.ofNat <$> readVarint
  let minPlayers ← UInt32.ofNat <$> readVarint
  let isPublic ← readU8
  let password ← readOptStr
  let acceptRequired ← readU8
  let custom ← readU8
  if custom ≠ 0 then skipBincodeJsonValue depth
  pure ⟨maxPlayers, minPlayers, isPublic ≠ 0, password.getD [], acceptRequired ≠ 0⟩

def readListedRoom (depth : ℕ) : Tracer (ListedRoom Bytes RoomSettings) := do
  let roomCode ← readStr
  let playerCount ← readU32Varint
  let settings ← readRoomSettings depth
  pure ⟨roomCode, playerCount, settings⟩

def readState : Tracer Bytes := do
  if (← readU8) ≠ 0 then readBytes else pure []

def readList (depth : ℕ) : Tracer (List (ListedRoom Bytes RoomSettings)) :=
  readVarint >>= (turn (readListedRoom depth)).collect

section
variable (cbs : Callback → Bool) (depth : ℕ) (su : Session)

def dispatchEvent : ℕ → Tracer (Session × Option Call)
  | 0 => do
    let id ← readU32Varint
    pure ({ su with hostPeerId := id }, (Call.hostTransferred id).invoke cbs)
  | 1 => pure (su, Call.kicked.invoke cbs)
  | 2 => pure (su, Call.banned.invoke cbs)
  | 3 => do
    let s ← readRoomSettings depth
    pure (su, (Call.settingsChanged s).invoke cbs)
  | _ => pure (su, none)

def dispatchTag : ℕ → Tracer (Session × Option Call)
  | 0 => do
    let roomCode ← readStr
    let peerId ← readU32Varint
    let hostPeerId ← readU32Varint
    let side ← readU8
    let settings ← readRoomSettings depth
    let initialState ← readState
    pure (⟨roomCode, peerId, hostPeerId⟩,
      (Call.joined roomCode peerId hostPeerId side settings initialState).invoke cbs)
  | 1 => do
    let list ← readList depth
    pure (su, (Call.roomList list).invoke cbs)
  | 2 => do
    let peerId ← readU32Varint
    let clientHash ← readStr
    let displayName ← readOptStr
    pure (su, (Call.peerJoined peerId clientHash displayName).invoke cbs)
  | 3 => do
    let peerId ← readU32Varint
    pure (su, (Call.peerLeft peerId).invoke cbs)
  | 4 => do
    let peerId ← readU32Varint
    let data ← readBytes
    pure (su, if data.isEmpty then none else (Call.peerInput peerId data).invoke cbs)
  | 5 => do
    let data ← readBytes
    pure (su, if data.isEmpty then none else (Call.stateUpdate data).invoke cbs)
  | 6 => pure (su, Call.moveAccepted.invoke cbs)
  | 7 => do
    let reason ← readStr
    pure (su, (Call.moveRejected reason).invoke cbs)
  | 8 => readVarint >>= dispatchEvent cbs depth su
  | 9 => pure (su, Call.pong.invoke cbs)
  | 10 => do
    let msg ← readStr
    pure (su, (Call.error msg).invoke cbs)
  | _ => pure (su, none)

def dispatch : Tracer (Session × Option Call) := readVarint >>= dispatchTag cbs depth su

end

/-! ## Without the record -/

/-- The record is left out, and a crash is nothing. -/
def untraced (r : Tracer α) : Reader α := (r.through outcome).through success

@[simp] theorem untraced_primitive (r : Reader α) : untraced (primitive r) = r := by
  funext data pos
  change Except.toOption ((r data pos).elim (.error ()) .ok) = r data pos
  cases r data pos <;> rfl

@[simp] theorem untraced_logged (k : Kind) (r : Tracer α) :
    untraced (Tracer.logged k r) = untraced r := rfl

@[simp] theorem untraced_pure (a : α) : untraced (pure a) = pure a := by simp [untraced]

@[simp] theorem untraced_bind {β : Type} (r : Tracer α) (f : α → Tracer β) :
    untraced (r >>= f) = untraced r >>= fun a => untraced (f a) := by simp [untraced]

@[simp] theorem untraced_map {β : Type} (f : α → β) (r : Tracer α) :
    untraced (f <$> r) = f <$> untraced r := by simp [untraced]

@[simp] theorem untraced_discard (r : Tracer α) : untraced (discard r) = discard (untraced r) :=
  untraced_bind r fun _ => pure ()

@[simp] theorem untraced_collect (r : Tracer α) (n : ℕ) :
    untraced (r.collect n) = (untraced r).collect n := by simp [untraced]

@[simp] theorem untraced_ite (p : Prop) [Decidable p] (r r' : Tracer α) :
    untraced (if p then r else r') = if p then untraced r else untraced r' := by
  split_ifs <;> rfl

@[simp] theorem untraced_readU8 : untraced readU8 = Cpp.readU8 := untraced_primitive _

@[simp] theorem untraced_readVarint : untraced readVarint = Cpp.readVarint := untraced_primitive _

@[simp] theorem untraced_readU32Varint : untraced readU32Varint = Cpp.readU32Varint := by
  simp [readU32Varint, call, Cpp.readU32Varint]

@[simp] theorem untraced_readStr : untraced readStr = Cpp.readStr := by
  simp [readStr, call, Cpp.readStr]

@[simp] theorem untraced_readBytes : untraced readBytes = Cpp.readBytes := by
  simp [readBytes, call, Cpp.readBytes]

@[simp] theorem untraced_readOptStr : untraced readOptStr = Cpp.readOptStr := by
  simp [readOptStr, call, Cpp.readOptStr]

@[simp] theorem untraced_skip (n : ℕ) : untraced (skip n) = Cpp.skip n := untraced_primitive _

@[simp] theorem untraced_skipBincodeJsonValue (depth : ℕ) :
    untraced (skipBincodeJsonValue depth) = Cpp.skipBincodeJsonValue depth := by
  induction depth with
  | zero => exact untraced_primitive _
  | succ depth ih =>
    simp only [skipBincodeJsonValue, Cpp.skipBincodeJsonValue, call, untraced_logged, untraced_bind,
      untraced_readVarint]
    congr 1
    funext tag
    split <;> simp [turn, ih]

@[simp] theorem untraced_readRoomSettings (depth : ℕ) :
    untraced (readRoomSettings depth) = Cpp.readRoomSettings depth := by
  simp [readRoomSettings, call, Cpp.readRoomSettings, Cpp.readU32Varint]

@[simp] theorem untraced_readListedRoom (depth : ℕ) :
    untraced (readListedRoom depth) = Cpp.readListedRoom depth := by
  simp [readListedRoom, Cpp.readListedRoom]

@[simp] theorem untraced_readState : untraced readState = Cpp.readState := by
  simp [readState, Cpp.readState]

@[simp] theorem untraced_readList (depth : ℕ) :
    untraced (readList depth) = Cpp.readList depth := by
  simp [readList, turn, Cpp.readList]

section
variable (cbs : Callback → Bool) (depth : ℕ) (su : Session)

@[simp] theorem untraced_dispatchEvent (event : ℕ) :
    untraced (dispatchEvent cbs depth su event) = Cpp.dispatchEvent cbs depth su event := by
  unfold dispatchEvent Cpp.dispatchEvent
  split <;> simp

@[simp] theorem untraced_dispatchTag (tag : ℕ) :
    untraced (dispatchTag cbs depth su tag) = Cpp.dispatchTag cbs depth su tag := by
  unfold dispatchTag Cpp.dispatchTag
  split <;> simp

/-- The recorded decoder does what the decoder does. -/
theorem untraced_dispatch : untraced (dispatch cbs depth su) = Cpp.dispatch cbs depth su := by
  simp [dispatch, Cpp.dispatch]

end

end Traced
end Roomie.Cpp
