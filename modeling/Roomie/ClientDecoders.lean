import Roomie.CppDecoder
import Roomie.CsharpDecoder

/-!
# What the clients make of the server's messages

Each message that the server encodes is told to the user by exactly one callback, with the
fields that the server wrote, and no byte of the payload is left over. The C++ client keeps
quiet about inputs and states without a byte.
-/

namespace Roomie
open Bincode Cursors

theorem ServerMessage.encode_eq {m : ServerMessage} {payload : Bytes} (h : m.encode = some payload) :
    payload = serverMessageFormat.write m ∧ payload.length ≤ maxFrameLen := by
  unfold ServerMessage.encode at h
  split_ifs at h with hle
  obtain rfl := Option.some.inj h
  exact ⟨rfl, hle⟩

/-- The server can encode the message, and its settings have no custom value. -/
def ServerMessage.Sendable (m : ServerMessage) : Prop :=
  m.encode ≠ none ∧ ∀ s ∈ m.carried, s.custom = none

instance (m : ServerMessage) : Decidable m.Sendable :=
  inferInstanceAs (Decidable (m.encode ≠ none ∧ ∀ s ∈ m.carried, s.custom = none))

/-- Decoding what the server encoded calls the callback of the message, once, with the fields of
the message, and reads all of it. The settings must have no custom value. -/
theorem decoders_invert (rt : Csharp.Runtime) (depth : ℕ) (su : Cpp.Session)
    (handlers : Callback → Bool) (m : ServerMessage) (payload : Bytes)
    (hencode : m.encode = some payload) (hcustom : ∀ s ∈ m.carried, s.custom = none) :
    Csharp.decodeAndDispatch rt handlers payload =
        .ok ((Csharp.callOf m).invoke handlers, payload.length) ∧
      (Cpp.Passed m → Cpp.decodeAndDispatch handlers depth su payload =
        some ((su.after (Cpp.callOf m), (Cpp.callOf m).invoke handlers), payload.length)) := by
  obtain ⟨rfl, hL⟩ := m.encode_eq hencode
  constructor
  · exact (Csharp.dispatch_reads rt handlers hcustom).whole hL
  · intro hpassed
    exact (Cpp.dispatch_reads handlers depth su hcustom hpassed).whole hL

/-- The room goes to the peer 300, whose id takes three bytes. -/
theorem hostTransferred_told :
    Csharp.decodeAndDispatch ⟨64, fun _ => ""⟩ (fun _ => true) [8, 0, 251, 44, 1] =
        .ok (some (.hostTransferred 300), 5) ∧
      Cpp.decodeAndDispatch (fun _ => true) 64 ⟨[], 1, 2⟩ [8, 0, 251, 44, 1] =
        some ((⟨[], 1, 300⟩, some (.hostTransferred 300)), 5) := by
  have htold := decoders_invert ⟨64, fun _ => ""⟩ 64 ⟨[], 1, 2⟩ (fun _ => true)
    (.roomEvent (.hostTransferred 300)) [8, 0, 251, 44, 1] (by rfl) (by
      intro s hs
      cases hs)
  exact ⟨htold.1, htold.2 trivial⟩

end Roomie
