import Roomie.CppClient

/-!
# What one call of `poll` delivers

The loop of `poll` receives once and takes out one frame at most in each turn, and it ends with
the first turn that finds no complete frame. So it keeps up with the socket only while the chunks
it has received hold at least as many frames as there were chunks. Where they do not, the loop
leaves bytes in the socket; and where a chunk holds more, the end of the stream finds frames that
are not taken out yet, and clears them.
-/

namespace Roomie.Cpp
open Bincode Cursors Frames

/-! ## Whether the decoder comes to an end -/

/-- Two readers that break off on the same data. -/
def SameEnd {α β : Type} (r : Reader α) (r' : Reader β) : Prop :=
  ∀ data pos, (r data pos).isSome = (r' data pos).isSome

theorem SameEnd.pure {α β : Type} (a : α) (b : β) :
    SameEnd (Pure.pure a : Reader α) (Pure.pure b : Reader β) := fun _ _ => rfl

theorem SameEnd.bind {α β γ : Type} (r : Reader α) {f : α → Reader β} {g : α → Reader γ}
    (h : ∀ a, SameEnd (f a) (g a)) : SameEnd (r >>= f) (r >>= g) := by
  intro data pos
  rw [Cursor.bind_apply, Cursor.bind_apply]
  cases r data pos with
  | none => rfl
  | some x => exact h x.1 data x.2

section
variable (cbs cbs' : Callback → Bool) (depth : ℕ) (su su' : Session)

theorem dispatchEvent_sameEnd (e : ℕ) :
    SameEnd (dispatchEvent cbs depth su e) (dispatchEvent cbs' depth su' e) := by
  unfold dispatchEvent
  split
  · exact .bind _ fun _ => .pure _ _
  · exact .pure _ _
  · exact .pure _ _
  · exact .bind _ fun _ => .pure _ _
  · exact .pure _ _

theorem dispatchTag_sameEnd (t : ℕ) :
    SameEnd (dispatchTag cbs depth su t) (dispatchTag cbs' depth su' t) := by
  unfold dispatchTag
  split
  · exact .bind _ fun _ => .bind _ fun _ => .bind _ fun _ => .bind _ fun _ => .bind _ fun _ =>
      .bind _ fun _ => .pure _ _
  · exact .bind _ fun _ => .pure _ _
  · exact .bind _ fun _ => .bind _ fun _ => .bind _ fun _ => .pure _ _
  · exact .bind _ fun _ => .pure _ _
  · exact .bind _ fun _ => .bind _ fun _ => .pure _ _
  · exact .bind _ fun _ => .pure _ _
  · exact .pure _ _
  · exact .bind _ fun _ => .pure _ _
  · exact .bind _ fun _ => dispatchEvent_sameEnd cbs cbs' depth su su' _
  · exact .pure _ _
  · exact .bind _ fun _ => .pure _ _
  · exact .pure _ _

/-- The stack is large enough for the values nested in the payload. -/
def Survives (payload : Bytes) : Prop :=
  (decodeAndDispatch (fun _ => false) depth ⟨[], 0, 0⟩ payload).isSome = true

/-- Neither the callbacks nor the session matter for that. -/
theorem survives_iff (payload : Bytes) :
    Survives depth payload ↔ (decodeAndDispatch cbs depth su payload).isSome = true := by
  have hsame := SameEnd.bind readVarint (dispatchTag_sameEnd (fun _ => false) cbs depth ⟨[], 0, 0⟩ su)
  rw [Survives, decodeAndDispatch, dispatch, hsame payload 0]
  rfl

end

/-! ## One turn with quiet callbacks -/

/-- A turn whose callbacks do not call back into the client. -/
def quiet (recv : Recv) : Turn := ⟨recv, [], []⟩

/-- The payloads that the decoder got. -/
def dispatchedIn (events : List Event) : List Bytes :=
  events.filterMap fun | .dispatched payload => some payload | _ => none

theorem dispatchedIn_append (xs ys : List Event) :
    dispatchedIn (xs ++ ys) = dispatchedIn xs ++ dispatchedIn ys :=
  List.filterMap_append

section
variable (cbs : Callback → Bool) (depth : ℕ)

theorem runCall_quiet (call : Option Call) (c : Client) :
    runCall cbs [] call c = (c, call.toList.map .called) := by
  cases call <;> rfl

theorem dispatchedIn_called (call : Option Call) :
    dispatchedIn (call.toList.map .called) = [] := by
  cases call <;> rfl

/-- A complete frame is dispatched and taken out. -/
theorem takeFrame_frame (recv : Recv) {c : Client} {payload rest : Bytes}
    (hsound : Sound maxFrameLen payload) (hbuf : c.recvBuf = frame payload ++ rest)
    (hsurvives : Survives depth payload) :
    ∃ c' events, c.takeFrame cbs depth (quiet recv) = (.again c', events) ∧ c'.sock = c.sock ∧
      c'.recvBuf = rest ∧ dispatchedIn events = [payload] := by
  have hhead : head maxFrameLen c.recvBuf = .frame payload rest := by
    rw [hbuf]
    exact head_frame maxFrameLen_lt hsound.2 rest
  obtain ⟨⟨⟨session, call⟩, pos⟩, hdecode⟩ :=
    Option.isSome_iff_exists.mp ((survives_iff cbs depth c.session payload).mp hsurvives)
  have hlen : ¬ c.recvBuf.length < 4 + payload.length := by
    rw [hbuf, List.length_append, length_frame]
    omega
  have hdrop : c.recvBuf.drop (4 + payload.length) = rest := by
    rw [hbuf]
    exact List.drop_left' (length_frame payload)
  refine ⟨{ c with session := session, recvBuf := rest },
    .dispatched payload :: (call.toList.map .called ++
      [.erasing (c.recvBuf.take (4 + payload.length)) c.recvBuf]), ?_, rfl, rfl, ?_⟩
  · unfold Client.takeFrame
    simp only [hhead, hdecode, quiet, runCall_quiet, if_neg hlen, hdrop]
  · change payload :: dispatchedIn _ = [payload]
    rw [dispatchedIn_append, dispatchedIn_called]
    rfl

/-- A payload that uses up the stack ends the program. -/
theorem takeFrame_breaks (turn : Turn) {c : Client} {payload rest : Bytes}
    (hsound : Sound maxFrameLen payload) (hbuf : c.recvBuf = frame payload ++ rest)
    (hdies : ¬ Survives depth payload) :
    c.takeFrame cbs depth turn = (.broken, [.dispatched payload]) := by
  have hhead : head maxFrameLen c.recvBuf = .frame payload rest := by
    rw [hbuf]
    exact head_frame maxFrameLen_lt hsound.2 rest
  have hdecode : decodeAndDispatch cbs depth c.session payload = none := by
    rw [← Option.not_isSome_iff_eq_none, ← survives_iff]
    exact hdies
  unfold Client.takeFrame
  simp only [hhead, hdecode]

theorem takeFrame_incomplete (turn : Turn) {c : Client}
    (h : head maxFrameLen c.recvBuf = .incomplete) :
    c.takeFrame cbs depth turn = (.idle c, []) := by
  unfold Client.takeFrame
  simp only [h]

/-- The bytes that a successful `recv` appends. -/
def Recv.bytes : Recv → Option Bytes
  | .data chunk => some chunk
  | .wouldBlock => some []
  | .endOfStream | .failed => none

theorem tryRecvFrame_bytes {c : Client} (hsock : c.sock = true) (turn : Turn) {chunk : Bytes}
    (h : turn.recv.bytes = some chunk) :
    c.tryRecvFrame cbs depth turn =
      { c with recvBuf := c.recvBuf ++ chunk }.takeFrame cbs depth turn := by
  unfold Client.tryRecvFrame
  rw [if_pos hsock]
  cases hrecv : turn.recv with
  | data bytes =>
    rw [hrecv] at h
    obtain rfl := Option.some.inj h
    rfl
  | wouldBlock =>
    rw [hrecv] at h
    obtain rfl := Option.some.inj h
    rw [List.append_nil]
  | endOfStream => rw [hrecv] at h; cases h
  | failed => rw [hrecv] at h; cases h

/-- All frames were dispatched, each once and in order, and what is left in the buffer is the
unfinished one; or after them the connection was found lost. -/
def Delivered (frames : List Bytes) (tail : Bytes) (r : Outcome × List Event) : Prop :=
  dispatchedIn r.2 = frames ∧ match r.1 with
    | .idle c => c.sock = true ∧ c.recvBuf = tail
    | .lost _ => True
    | _ => False

section
variable {cbs depth} (recv : Recv) {chunk : Bytes} {c : Client} {tail : Bytes}

/-- A turn that finds a complete frame leaves the rest to the turns that follow. -/
theorem delivered_again (hsock : c.sock = true) (hrecv : recv.bytes = some chunk)
    {payload rest : Bytes} (hsound : Sound maxFrameLen payload)
    (hbuf : c.recvBuf ++ chunk = frame payload ++ rest) (hsurvives : Survives depth payload) :
    ∃ c' : Client, c'.sock = true ∧ c'.recvBuf = rest ∧ ∀ turns frames,
      Delivered (payload :: frames) tail (c.pollLoop cbs depth (quiet recv :: turns)) ↔
        Delivered frames tail (c'.pollLoop cbs depth turns) := by
  obtain ⟨c', events, htake, hsock', hrest, hdispatched⟩ :=
    takeFrame_frame cbs depth recv (c := { c with recvBuf := c.recvBuf ++ chunk }) hsound hbuf
      hsurvives
  refine ⟨c', hsock'.trans hsock, hrest, fun turns frames => ?_⟩
  have hturn := tryRecvFrame_bytes cbs depth hsock (quiet recv) hrecv
  rw [Client.pollLoop, hturn, htake]
  simp only [Delivered, dispatchedIn_append, hdispatched, List.singleton_append,
    List.cons.injEq, true_and]

/-- A turn that finds no complete frame ends the loop. -/
theorem delivered_idle (hsock : c.sock = true) (hrecv : recv.bytes = some chunk)
    (hhead : head maxFrameLen (c.recvBuf ++ chunk) = .incomplete) (turns : List Turn)
    (frames : List Bytes) :
    Delivered frames tail (c.pollLoop cbs depth (quiet recv :: turns)) ↔
      frames = [] ∧ c.recvBuf ++ chunk = tail := by
  have hturn := tryRecvFrame_bytes cbs depth hsock (quiet recv) hrecv
  rw [Client.pollLoop, hturn, takeFrame_incomplete cbs depth _ hhead]
  change [] = frames ∧ c.sock = true ∧ c.recvBuf ++ chunk = tail ↔ _
  rw [eq_comm]
  exact and_congr_right fun _ => and_iff_right hsock

/-- A turn that finds a frame the decoder breaks on delivers nothing more. -/
theorem not_delivered_broken (hsock : c.sock = true) (hrecv : recv.bytes = some chunk)
    {payload rest : Bytes} (hsound : Sound maxFrameLen payload)
    (hbuf : c.recvBuf ++ chunk = frame payload ++ rest) (hdies : ¬ Survives depth payload)
    (turns : List Turn) (frames : List Bytes) :
    ¬ Delivered frames tail (c.pollLoop cbs depth (quiet recv :: turns)) := by
  have hturn := tryRecvFrame_bytes cbs depth hsock (quiet recv) hrecv
  rw [Client.pollLoop, hturn, takeFrame_breaks cbs depth _ hsound hbuf hdies]
  exact fun h => h.2

/-- At the end of the stream the connection is lost, and nothing is dispatched any more. -/
theorem delivered_lost (turns : List Turn) (frames : List Bytes) :
    Delivered frames tail (c.pollLoop cbs depth (quiet .endOfStream :: turns)) ↔ frames = [] := by
  have hturn : c.tryRecvFrame cbs depth (quiet .endOfStream) =
      (.lost (handleDisconnect cbs [] c).1, (handleDisconnect cbs [] c).2) := by
    unfold Client.tryRecvFrame
    cases c.sock <;> rfl
  have hnone : dispatchedIn (handleDisconnect cbs [] c).2 = [] := by
    unfold handleDisconnect
    split_ifs <;> rfl
  rw [Client.pollLoop, hturn]
  change dispatchedIn (handleDisconnect cbs [] c).2 = frames ∧ True ↔ _
  rw [hnone, and_true, eq_comm]

theorem not_delivered_nil (frames : List Bytes) :
    ¬ Delivered frames tail (c.pollLoop cbs depth []) := fun h => h.2

end

end

/-! ## The whole poll -/

/-- What the socket reports once its bytes are gone. -/
inductive Ending where
  | wouldBlock
  | endOfStream

def Ending.recv : Ending → Recv
  | .wouldBlock => .wouldBlock
  | .endOfStream => .endOfStream

/-- The socket returns the chunks one by one and then reports the ending, so many times. -/
def turnsOf (chunks : List Bytes) (ending : Ending) (k : ℕ) : List Turn :=
  chunks.map (fun chunk => quiet (.data chunk)) ++ List.replicate k (quiet ending.recv)

/-- The frames keep up with the chunks: whenever another chunk is there to be received, what was
received before holds at least a frame for each chunk; when the stream ends no frame is left over;
and none breaks the decoder. -/
structure KeepsUp (depth : ℕ) (buf : Bytes) (chunks frames : List Bytes) (ending : Ending) :
    Prop where
  inStep : ∀ j < chunks.length, j ≤ frames.length ∧
    ((frames.take j).flatMap frame).length ≤ (buf ++ (chunks.take j).flatten).length
  atEnd : ending = .endOfStream → frames.length ≤ chunks.length
  survives : ∀ payload ∈ frames, Survives depth payload

section
variable {cbs : Callback → Bool} {depth : ℕ} {tail : Bytes}

/-- Before the last chunk has come nothing is known of the frames; after it the loop runs on
until all are out. -/
theorem drained_iff {c : Client} (hsock : c.sock = true) {frames : List Bytes}
    (hframes : ∀ p ∈ frames, Sound maxFrameLen p) (htail : Unfinished maxFrameLen tail)
    (hbuf : c.recvBuf = frames.flatMap frame ++ tail) :
    (∃ k, Delivered frames tail (c.pollLoop cbs depth (turnsOf [] .wouldBlock k))) ↔
      ∀ p ∈ frames, Survives depth p := by
  induction frames generalizing c with
  | nil =>
    refine iff_of_true ⟨1, ?_⟩ fun p hp => by cases hp
    have hidle : c.recvBuf ++ [] = tail := by rw [List.append_nil, hbuf]; rfl
    exact (delivered_idle .wouldBlock hsock rfl
      (hidle.symm ▸ htail.head_eq maxFrameLen_lt) [] []).mpr ⟨rfl, hidle⟩
  | cons payload frames ih =>
    have hsound := hframes payload List.mem_cons_self
    have hrest : ∀ p ∈ frames, Sound maxFrameLen p :=
      fun p hp => hframes p (List.mem_cons_of_mem _ hp)
    have hhead : c.recvBuf ++ [] = frame payload ++ (frames.flatMap frame ++ tail) := by
      rw [List.append_nil, hbuf, List.flatMap_cons, List.append_assoc]
    rw [List.forall_mem_cons]
    by_cases hsurvives : Survives depth payload
    · obtain ⟨c', hsock', hbuf', hagain⟩ :=
        delivered_again .wouldBlock hsock rfl hsound hhead hsurvives
      rw [and_iff_right hsurvives, ← ih hsock' hrest hbuf']
      constructor
      · rintro ⟨k, hk⟩
        cases k with
        | zero => exact absurd hk (not_delivered_nil _)
        | succ k => exact ⟨k, (hagain _ _).mp hk⟩
      · rintro ⟨k, hk⟩
        exact ⟨k + 1, (hagain _ _).mpr hk⟩
    · refine iff_of_false ?_ fun h => hsurvives h.1
      rintro ⟨k, hk⟩
      cases k with
      | zero => exact absurd hk (not_delivered_nil _)
      | succ k =>
        exact not_delivered_broken .wouldBlock hsock rfl hsound hhead hsurvives _ _ hk

theorem keepsUp_nil {buf : Bytes} {frames : List Bytes} {ending : Ending} :
    KeepsUp depth buf [] frames ending ↔
      (ending = .endOfStream → frames = []) ∧ ∀ p ∈ frames, Survives depth p := by
  constructor
  · rintro ⟨-, hend, hsurvives⟩
    exact ⟨fun h => List.length_eq_zero_iff.mp (Nat.le_zero.mp (hend h)), hsurvives⟩
  · rintro ⟨hend, hsurvives⟩
    refine ⟨fun j hj => absurd hj (Nat.not_lt_zero j), fun h => ?_, hsurvives⟩
    rw [hend h]

/-- Where the first frame is complete with the first chunk, the others must keep up with the
other chunks. -/
theorem keepsUp_cons {buf chunk payload rest : Bytes} {chunks frames : List Bytes}
    {ending : Ending} (hbuf : buf ++ chunk = frame payload ++ rest) :
    KeepsUp depth buf (chunk :: chunks) (payload :: frames) ending ↔
      Survives depth payload ∧ KeepsUp depth rest chunks frames ending := by
  have hlen := congrArg List.length hbuf
  simp only [List.length_append, length_frame] at hlen
  have hstep : ∀ j, ((payload :: frames).take (j + 1)).flatMap frame =
      frame payload ++ (frames.take j).flatMap frame := fun j => rfl
  constructor
  · rintro ⟨hin, hend, hsurvives⟩
    obtain ⟨hfirst, hothers⟩ := List.forall_mem_cons.mp hsurvives
    refine ⟨hfirst, fun j hj => ?_, fun h => ?_, hothers⟩
    · obtain ⟨hj', hle⟩ := hin (j + 1) (Nat.succ_lt_succ hj)
      rw [hstep] at hle
      simp only [List.take_succ_cons, List.flatten_cons, List.length_append, length_frame,
        List.length_cons] at hle hj' ⊢
      omega
    · exact Nat.le_of_succ_le_succ (hend h)
  · rintro ⟨hfirst, hin, hend, hothers⟩
    refine ⟨fun j hj => ?_, fun h => Nat.succ_le_succ (hend h),
      List.forall_mem_cons.mpr ⟨hfirst, hothers⟩⟩
    cases j with
    | zero => exact ⟨Nat.zero_le _, Nat.zero_le _⟩
    | succ j =>
      obtain ⟨hj', hle⟩ := hin j (Nat.lt_of_succ_lt_succ hj)
      rw [hstep]
      simp only [List.take_succ_cons, List.flatten_cons, List.length_append, length_frame,
        List.length_cons] at hle hj' ⊢
      omega

/-- Where even the first frame is not complete with the first chunk, nothing may follow. -/
theorem keepsUp_stuck {buf chunk : Bytes} {chunks frames : List Bytes} {ending : Ending}
    (hstuck : ∀ payload ∈ frames.head?, (buf ++ chunk).length < 4 + payload.length)
    (hmore : chunks = [] → frames = []) :
    KeepsUp depth buf (chunk :: chunks) frames ending ↔ frames = [] ∧ chunks = [] := by
  constructor
  · rintro ⟨hin, -, -⟩
    by_cases hchunks : chunks = []
    · exact ⟨hmore hchunks, hchunks⟩
    · exfalso
      have hpos := List.length_pos_iff.mpr hchunks
      obtain ⟨hle, hlen⟩ := hin 1 (by rw [List.length_cons]; omega)
      cases frames with
      | nil => exact absurd hle (by simp)
      | cons payload frames =>
        have hshort := hstuck payload rfl
        simp only [List.take_succ_cons, List.take_zero, List.flatMap_cons, List.flatMap_nil,
          List.append_nil, List.flatten_cons, List.flatten_nil, length_frame] at hlen
        omega
  · rintro ⟨rfl, rfl⟩
    refine ⟨fun j hj => ?_, fun _ => Nat.zero_le _, fun p hp => by cases hp⟩
    obtain rfl : j = 0 := by
      rw [List.length_singleton] at hj
      omega
    exact ⟨le_rfl, Nat.zero_le _⟩

/-- A piece of the stream that is too short for the first frame has an incomplete head. -/
theorem head_stuck {buf : Bytes} {frames : List Bytes}
    (hframes : ∀ p ∈ frames, Sound maxFrameLen p) (htail : Unfinished maxFrameLen tail)
    (hpre : buf <+: frames.flatMap frame ++ tail)
    (hstuck : ∀ payload ∈ frames.head?, buf.length < 4 + payload.length) :
    head maxFrameLen buf = .incomplete := by
  cases frames with
  | nil => exact (htail.of_prefix hpre).head_eq maxFrameLen_lt
  | cons payload more =>
    have hlt := hstuck payload rfl
    rw [← length_frame] at hlt
    rw [List.flatMap_cons, List.append_assoc] at hpre
    have hcut : buf <+: frame payload :=
      List.prefix_of_prefix_length_le hpre (List.prefix_append _ _) hlt.le
    refine head_prefix maxFrameLen_lt (hframes payload List.mem_cons_self).2 hcut ?_
    rintro rfl
    exact lt_irrefl _ hlt

theorem loop_delivers_iff {c : Client} (hsock : c.sock = true) {chunks frames : List Bytes}
    (hchunks : ∀ chunk ∈ chunks, chunk ≠ []) (hframes : ∀ p ∈ frames, Sound maxFrameLen p)
    (htail : Unfinished maxFrameLen tail) (ending : Ending)
    (hstream : c.recvBuf ++ chunks.flatten = frames.flatMap frame ++ tail) :
    (∃ k, Delivered frames tail (c.pollLoop cbs depth (turnsOf chunks ending k))) ↔
      KeepsUp depth c.recvBuf chunks frames ending := by
  induction chunks generalizing c frames with
  | nil =>
    rw [List.flatten_nil, List.append_nil] at hstream
    rw [keepsUp_nil]
    cases ending with
    | wouldBlock =>
      rw [drained_iff hsock hframes htail hstream]
      exact (and_iff_right fun h => by cases h).symm
    | endOfStream =>
      constructor
      · rintro ⟨k, hk⟩
        cases k with
        | zero => exact absurd hk (not_delivered_nil _)
        | succ k =>
          obtain rfl := (delivered_lost _ _).mp hk
          exact ⟨fun _ => rfl, fun p hp => by cases hp⟩
      · rintro ⟨hnone, -⟩
        exact ⟨1, (delivered_lost _ _).mpr (hnone rfl)⟩
  | cons chunk chunks ih =>
    rw [List.flatten_cons, ← List.append_assoc] at hstream
    have hrest : ∀ ch ∈ chunks, ch ≠ [] := fun ch h => hchunks ch (List.mem_cons_of_mem _ h)
    by_cases hfirst : ∃ payload more, frames = payload :: more ∧
        4 + payload.length ≤ (c.recvBuf ++ chunk).length
    · -- the first frame is complete
      obtain ⟨payload, more, rfl, hlen⟩ := hfirst
      obtain ⟨hsound, hmore⟩ := List.forall_mem_cons.mp hframes
      rw [List.flatMap_cons, List.append_assoc (frame payload)] at hstream
      obtain ⟨rest, hhead⟩ : frame payload <+: c.recvBuf ++ chunk :=
        List.prefix_of_prefix_length_le (List.prefix_append _ _) (hstream ▸ List.prefix_append _ _)
          (by rwa [length_frame])
      rw [← hhead, List.append_assoc] at hstream
      have hstream' := List.append_cancel_left hstream
      rw [keepsUp_cons hhead.symm]
      by_cases hsurvives : Survives depth payload
      · obtain ⟨c', hsock', rfl, hagain⟩ :=
          delivered_again (.data chunk) hsock rfl hsound hhead.symm hsurvives
        rw [and_iff_right hsurvives, ← ih hsock' hrest hmore hstream']
        exact exists_congr fun k => hagain _ _
      · refine iff_of_false ?_ fun h => hsurvives h.1
        rintro ⟨k, hk⟩
        exact not_delivered_broken (.data chunk) hsock rfl hsound hhead.symm hsurvives _ _ hk
    · -- no frame is complete, and the loop ends
      have hstuck : ∀ payload ∈ frames.head?, (c.recvBuf ++ chunk).length < 4 + payload.length := by
        intro payload hp
        obtain ⟨more, rfl⟩ := List.head?_eq_some_iff.mp hp
        by_contra hle
        exact hfirst ⟨payload, more, rfl, Nat.not_lt.mp hle⟩
      have hhead : head maxFrameLen (c.recvBuf ++ chunk) = .incomplete := by
        have hpre : c.recvBuf ++ chunk <+: frames.flatMap frame ++ tail :=
          hstream ▸ List.prefix_append _ _
        exact head_stuck hframes htail hpre hstuck
      have hlast : chunks = [] → frames = [] := by
        rintro rfl
        cases frames with
        | nil => rfl
        | cons payload more =>
          have hshort := hstuck payload rfl
          have hlen := congrArg List.length hstream
          simp only [List.flatten_nil, List.append_nil, List.flatMap_cons, List.length_append,
            length_frame] at hlen hshort
          omega
      rw [keepsUp_stuck hstuck hlast]
      have hidle : ∀ k, Delivered frames tail
          (c.pollLoop cbs depth (turnsOf (chunk :: chunks) ending k)) ↔
            frames = [] ∧ c.recvBuf ++ chunk = tail :=
        fun k => delivered_idle (.data chunk) hsock rfl hhead _ _
      rw [exists_congr hidle, exists_const]
      refine and_congr_right ?_
      rintro rfl
      rw [← hstream.trans (List.nil_append tail), List.self_eq_append_right, List.flatten_eq_nil_iff]
      constructor
      · intro h
        exact List.eq_nil_iff_forall_not_mem.mpr fun ch hch => hrest ch hch (h ch hch)
      · rintro rfl ch hch
        cases hch

/-- One call of `poll` delivers everything that the socket has exactly if the frames keep up with
the chunks in which it is received. -/
theorem poll_delivers_iff {c : Client} (hsock : c.sock = true) {chunks frames : List Bytes}
    (hchunks : ∀ chunk ∈ chunks, chunk ≠ []) (hframes : ∀ p ∈ frames, Sound maxFrameLen p)
    (htail : Unfinished maxFrameLen tail) (ending : Ending)
    (hstream : c.recvBuf ++ chunks.flatten = frames.flatMap frame ++ tail) :
    (∃ k, Delivered frames tail (c.poll cbs depth (turnsOf chunks ending k))) ↔
      KeepsUp depth c.recvBuf chunks frames ending := by
  have hpoll : ∀ turns, c.poll cbs depth turns = c.pollLoop cbs depth turns :=
    fun _ => if_pos hsock
  simp only [hpoll]
  exact loop_delivers_iff hsock hchunks hframes htail ending hstream

end

/-- Of the five bytes of a frame `recv` returns one and then the others: the loop ends after the
first and leaves the frame in the socket. -/
theorem split_frame_delayed :
    ¬ ∀ (frames chunks : List Bytes) (tail : Bytes) (ending : Ending),
      (∀ chunk ∈ chunks, chunk ≠ []) → (∀ p ∈ frames, Sound maxFrameLen p) →
      Unfinished maxFrameLen tail → fresh.recvBuf ++ chunks.flatten = frames.flatMap frame ++ tail →
      ∃ k, Delivered frames tail (fresh.poll (fun _ => true) 64 (turnsOf chunks ending k)) := by
  intro h
  obtain ⟨k, hdispatched, -⟩ := h [[9]] [[1], [0, 0, 0, 9]] [] .wouldBlock (by simp)
    (by simp [Sound, maxFrameLen]) ⟨[9], by simp [Sound, maxFrameLen], by simp, by simp [frame]⟩
    (by decide)
  have hnone : (fresh.poll (fun _ => true) 64 (turnsOf [[1], [0, 0, 0, 9]] .wouldBlock k)).2 = [] :=
    rfl
  rw [hnone] at hdispatched
  cases hdispatched

/-- A pong that comes in one piece is delivered. -/
theorem pong_delivered :
    ∃ k, Delivered [[9]] [] (fresh.poll (fun _ => true) 64 (turnsOf [[1, 0, 0, 0, 9]] .wouldBlock k)) := by
  refine (poll_delivers_iff (c := fresh) rfl (by simp) (by simp [Sound, maxFrameLen])
    ⟨[9], by simp [Sound, maxFrameLen], by simp, by simp [frame]⟩ .wouldBlock (by decide)).mpr ?_
  refine ⟨fun j hj => ?_, (fun h => by cases h), fun p hp => ?_⟩
  · obtain rfl : j = 0 := by simpa using hj
    exact ⟨Nat.zero_le _, Nat.zero_le _⟩
  · obtain rfl := List.mem_singleton.mp hp
    rfl

end Roomie.Cpp
