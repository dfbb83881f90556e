import Roomie.ClientSessions
import Roomie.Frames

/-!
# What the C++ client writes to its socket

The socket does not block. `send` takes some of the bytes it is offered, or none, and `send_frame`
offers the header once and what is left of the payload again and again. A frame that is not taken
whole ends the connection, so what stands on a connection is whole frames and at most a piece of
one behind them.
-/

namespace Roomie.Cpp
open Bincode Frames GuardedRuns ClientSessions

/-- What the calls of `send` return one after the other: how many bytes the socket would take, or
nothing for an error and where it would block. -/
abbrev Answers := ℕ → Option ℕ

/-- What `send` returns if it is offered `n` bytes. -/
def accept (answer : Option ℕ) (n : ℕ) : Option ℕ := answer.map (min · n)

/-- What comes of a frame: whether it was sent, the bytes that the socket has taken, and how often
`send` has been called by then. -/
structure Delivery where
  ok : Bool
  accepted : Bytes
  asked : ℕ

section
variable (answers : Answers)

/-- The loop of `send_frame`, with the bytes that are left. -/
def sendRest (asked : ℕ) (rest : Bytes) : Delivery :=
  if _h : rest = [] then ⟨true, [], asked⟩
  else match accept (answers asked) rest.length with
    | none | some 0 => ⟨false, [], asked + 1⟩
    | some (n + 1) =>
      let d := sendRest (asked + 1) (rest.drop (n + 1))
      { d with accepted := rest.take (n + 1) ++ d.accepted }
termination_by rest.length
decreasing_by
  have hpos := List.length_pos_iff.mpr _h
  rw [List.length_drop]
  omega

/-- `send_frame`. -/
def sendFrame (asked : ℕ) (payload : Bytes) : Delivery :=
  if maxFrameLen < payload.length then ⟨false, [], asked⟩
  else match accept (answers asked) 4 with
    | some 4 =>
      let d := sendRest answers (asked + 1) payload
      { d with accepted := littleEndian 4 payload.length ++ d.accepted }
    | some n => ⟨false, (littleEndian 4 payload.length).take n, asked + 1⟩
    | none => ⟨false, [], asked + 1⟩

/-- A connection: the calls that send, each with its payload and what it returned, and the bytes
that the socket has taken. -/
structure Wire where
  calls : List (Bytes × Bool)
  accepted : Bytes

/-- The client, how often `send` has been called, and its connections, the latest first. -/
structure Sender where
  client : Client
  asked : ℕ
  wires : List Wire

/-- What is done with the client. -/
inductive ApiCall where
  | connect (succeeds : Bool)
  | disconnect
  | send (msg : Sending)
  /-- `poll` comes to a message. -/
  | message (r : Received)
  /-- `poll` finds the connection lost. -/
  | lost

namespace Sender

/-- Before the first call. -/
def start : Sender := ⟨.start, 0, []⟩

/-- A call that sends is entered with the latest connection. -/
def enter (payload : Bytes) (ok : Bool) (accepted : Bytes) : List Wire → List Wire
  | [] => []
  | w :: older => ⟨w.calls ++ [(payload, ok)], w.accepted ++ accepted⟩ :: older

variable (cbs : Callback → Bool) (depth : ℕ)

/-- `send_message` behind `ensure_connected`. -/
def send (s : Sender) (msg : Sending) : Sender :=
  if s.client.ensureConnected then
    let d := sendFrame answers s.asked msg.payload
    ⟨s.client.happen cbs depth (.send msg d.ok), d.asked,
      enter msg.payload d.ok d.accepted s.wires⟩
  else { s with wires := enter msg.payload false [] s.wires }

def step (s : Sender) : ApiCall → Sender
  | .connect succeeds =>
    { s with
      client := s.client.happen cbs depth (.connect succeeds)
      wires := if succeeds then ⟨[], []⟩ :: s.wires else s.wires }
  | .disconnect => { s with client := s.client.happen cbs depth .disconnect }
  | .send msg => s.send answers cbs depth msg
  | .message r => { s with client := s.client.happen cbs depth (.message r) }
  | .lost => { s with client := s.client.happen cbs depth .lost }

/-- `is_connected`. -/
def isConnected (s : Sender) : Bool := s.client.connected && s.client.sock

end Sender
end

/-! ## A frame -/

section
variable {answers : Answers}

theorem accept_le {answer : Option ℕ} {n k : ℕ} (h : accept answer n = some k) : k ≤ n := by
  obtain ⟨a, -, rfl⟩ := Option.map_eq_some_iff.mp h
  exact Nat.min_le_right a n

variable (answers) in
/-- The socket takes bytes from the front, and all of them exactly if the loop succeeds. -/
theorem sendRest_spec (asked : ℕ) (rest : Bytes) :
    (sendRest answers asked rest).accepted <+: rest ∧
      ((sendRest answers asked rest).ok = true ↔ (sendRest answers asked rest).accepted = rest) := by
  induction hlen : rest.length using Nat.strong_induction_on generalizing asked rest with
  | _ len ih =>
    rw [sendRest]
    by_cases hrest : rest = []
    · rw [dif_pos hrest]
      exact ⟨List.nil_prefix, iff_of_true rfl hrest.symm⟩
    · rw [dif_neg hrest]
      have hfail : (false = true ↔ ([] : Bytes) = rest) :=
        iff_of_false Bool.false_ne_true (Ne.symm hrest)
      split
      · exact ⟨List.nil_prefix, hfail⟩
      · exact ⟨List.nil_prefix, hfail⟩
      · rename_i n haccept
        have hle := accept_le haccept
        have hdrop : (rest.drop (n + 1)).length < len := by
          rw [List.length_drop]
          omega
        obtain ⟨hpre, hok⟩ := ih _ hdrop (asked + 1) (rest.drop (n + 1)) rfl
        have hsplit := List.take_append_drop (n + 1) rest
        dsimp only
        refine ⟨?_, hok.trans ⟨fun hall => ?_, fun hall => ?_⟩⟩
        · conv_rhs => rw [← hsplit]
          exact (List.prefix_append_right_inj _).mpr hpre
        · rw [hall, hsplit]
        · exact List.append_cancel_left (hall.trans hsplit.symm)

variable (answers) in
/-- The same of a frame. -/
theorem sendFrame_spec (asked : ℕ) (payload : Bytes) :
    (sendFrame answers asked payload).accepted <+: frame payload ∧
      ((sendFrame answers asked payload).ok = true ↔
        (sendFrame answers asked payload).accepted = frame payload) := by
  have hheader := length_littleEndian 4 payload.length
  have hshort : ∀ b : Bytes, b.length < 4 → b ≠ frame payload := by
    rintro b hb rfl
    rw [length_frame] at hb
    omega
  unfold sendFrame
  by_cases hlong : maxFrameLen < payload.length
  · rw [if_pos hlong]
    exact ⟨List.nil_prefix, iff_of_false Bool.false_ne_true (hshort [] (by decide))⟩
  rw [if_neg hlong]
  split
  · obtain ⟨hpre, hok⟩ := sendRest_spec answers (asked + 1) payload
    refine ⟨(List.prefix_append_right_inj _).mpr hpre, hok.trans ?_⟩
    exact (List.append_right_inj _).symm
  · -- the header is not taken whole
    rename_i n hpart haccept
    have hle := accept_le haccept
    have hne : n ≠ 4 := fun h => hpart h
    refine ⟨(List.take_prefix _ _).trans (List.prefix_append _ _), ?_⟩
    refine iff_of_false Bool.false_ne_true (hshort _ ?_)
    rw [List.length_take]
    omega
  · exact ⟨List.nil_prefix, iff_of_false Bool.false_ne_true (hshort [] (by decide))⟩

/-- A socket that takes something of whatever it is offered takes all of it in the end. -/
theorem sendRest_willing (h : ∀ i, ∃ n, answers i = some (n + 1)) (asked : ℕ) (rest : Bytes) :
    (sendRest answers asked rest).ok = true := by
  induction hlen : rest.length using Nat.strong_induction_on generalizing asked rest with
  | _ len ih =>
    rw [sendRest]
    by_cases hrest : rest = []
    · rw [dif_pos hrest]
    · rw [dif_neg hrest]
      have hpos := List.length_pos_iff.mpr hrest
      obtain ⟨n, hn⟩ := h asked
      have haccept : accept (answers asked) rest.length = some (min n (rest.length - 1) + 1) := by
        rw [hn]
        refine congrArg some (?_ : min (n + 1) rest.length = _)
        omega
      rw [haccept]
      refine ih _ ?_ (asked + 1) _ rfl
      rw [List.length_drop]
      omega

theorem sendFrame_willing (h : ∀ i, ∃ n, answers i = some (n + 4)) (asked : ℕ) {payload : Bytes}
    (hfits : payload.length ≤ maxFrameLen) : (sendFrame answers asked payload).ok = true := by
  obtain ⟨n, hn⟩ := h asked
  have hheader : accept (answers asked) 4 = some 4 := by
    rw [hn]
    exact congrArg some (Nat.min_eq_right (Nat.le_add_left 4 n))
  rw [sendFrame, if_neg (Nat.not_lt.mpr hfits), hheader]
  exact sendRest_willing (fun i => (h i).imp' (· + 3) fun n hn => hn) (asked + 1) payload

/-- What succeeds is not too long. -/
theorem sendFrame_fits (answers : Answers) (asked : ℕ) {payload : Bytes}
    (h : (sendFrame answers asked payload).ok = true) : payload.length ≤ maxFrameLen := by
  by_contra hlong
  have hrefused : sendFrame answers asked payload = ⟨false, [], asked⟩ :=
    if_pos (Nat.not_le.mp hlong)
  rw [hrefused] at h
  cases h

end

/-! ## A connection -/

/-- The frames of the calls that returned true, and behind them less than the frame of the first
call that did not. -/
structure Wire.Whole (w : Wire) (done failed : List Bytes) (tail : Bytes) : Prop where
  calls : w.calls = done.map (·, true) ++ failed.map (·, false)
  accepted : w.accepted = done.flatMap frame ++ tail
  ended : failed = [] → tail = []
  incomplete : ∀ p ∈ failed.head?, tail <+: frame p ∧ tail ≠ frame p

/-- A call returned false. -/
def Wire.Broken (w : Wire) : Prop := ∃ call ∈ w.calls, call.2 = false

theorem Wire.Broken.mono {w w' : Wire} (h : w.Broken) (hcalls : w.calls <+: w'.calls) : w'.Broken := by
  obtain ⟨call, hcall, hfailed⟩ := h
  exact ⟨call, hcalls.subset hcall, hfailed⟩

section
variable {w : Wire} {done failed : List Bytes} {tail : Bytes}

theorem Wire.Whole.new : Wire.Whole ⟨[], []⟩ [] [] [] :=
  ⟨rfl, rfl, fun _ => rfl, fun p hp => by cases hp⟩

/-- Where no call has failed nothing stands behind the whole frames. -/
theorem Wire.Whole.intact (h : w.Whole done failed tail) (hw : ¬ w.Broken) :
    failed = [] ∧ tail = [] := by
  have hnone : failed = [] := by
    cases failed with
    | nil => rfl
    | cons p failed =>
      refine absurd ⟨(p, false), ?_, rfl⟩ hw
      rw [h.calls]
      exact List.mem_append_right _ List.mem_cons_self
  exact ⟨hnone, h.ended hnone⟩

theorem Wire.Whole.sent (h : w.Whole done [] []) (p : Bytes) :
    Wire.Whole ⟨w.calls ++ [(p, true)], w.accepted ++ frame p⟩ (done ++ [p]) [] [] := by
  refine ⟨?_, ?_, fun _ => rfl, fun p hp => by cases hp⟩
  · rw [h.calls, List.map_append, List.map_nil, List.append_nil, List.append_nil]
    rfl
  · rw [h.accepted, List.flatMap_append, List.append_nil, List.flatMap_singleton]
    exact (List.append_nil _).symm

theorem Wire.Whole.cut (h : w.Whole done [] []) {p part : Bytes} (hpre : part <+: frame p)
    (hne : part ≠ frame p) :
    Wire.Whole ⟨w.calls ++ [(p, false)], w.accepted ++ part⟩ done [p] part := by
  refine ⟨?_, ?_, (fun hnil => by cases hnil), fun q hq => ?_⟩
  · rw [h.calls, List.map_nil, List.append_nil]
    rfl
  · rw [h.accepted, List.append_nil]
  · obtain rfl : p = q := Option.some.inj hq
    exact ⟨hpre, hne⟩

/-- A call that does not come to writing. -/
theorem Wire.Whole.refused (h : w.Whole done failed tail) (p : Bytes) :
    Wire.Whole ⟨w.calls ++ [(p, false)], w.accepted ++ []⟩ done (failed ++ [p]) tail := by
  refine ⟨?_, ?_, fun hnil => absurd hnil (List.append_ne_nil_of_right_ne_nil _ (List.cons_ne_nil _ _)),
    fun q hq => ?_⟩
  · rw [h.calls, List.map_append, List.append_assoc]
    rfl
  · rw [h.accepted, List.append_nil]
  · cases failed with
    | nil =>
      obtain rfl : p = q := Option.some.inj hq
      rw [h.ended rfl]
      refine ⟨List.nil_prefix, fun hnil => ?_⟩
      have hlen := length_frame p
      rw [← hnil, List.length_nil] at hlen
      omega
    | cons first failed => exact h.incomplete q hq

end

/-! ## Runs -/

namespace Sender
variable {answers : Answers} {cbs : Callback → Bool} {depth : ℕ} {s : Sender}

/-- Each connection holds whole frames and less than one, and while the client is connected no call
has failed on the latest. -/
structure Sound (s : Sender) : Prop where
  whole : ∀ w ∈ s.wires, ∃ done failed tail, w.Whole done failed tail
  live : s.isConnected = true → ∃ w older, s.wires = w :: older ∧ ¬ w.Broken

theorem isConnected_eq (s : Sender) : s.isConnected = s.client.ensureConnected :=
  Bool.and_comm _ _

theorem Sound.down (h : Sound s) {client : Client} {asked : ℕ}
    (hdown : client.ensureConnected = false) : Sound ⟨client, asked, s.wires⟩ := by
  refine ⟨h.whole, fun hlive => ?_⟩
  rw [isConnected_eq] at hlive
  rw [hdown] at hlive
  cases hlive

/-- What happens to the client when it sends. -/
theorem happen_send (cbs : Callback → Bool) (depth : ℕ) {c : Client} (msg : Sending) {ok : Bool}
    (hup : c.ensureConnected = true)
    (hfits : ok = true → msg.payload.length ≤ maxFrameLen) :
    (c.happen cbs depth (.send msg ok)).ensureConnected = ok := by
  change ((Action.send msg ok []).run cbs c).1.ensureConnected = ok
  rw [run_send]
  cases ok with
  | false =>
    rw [if_pos (by simp [Client.sendFails, hup])]
    rfl
  | true =>
    rw [if_neg (by simp [Client.sendFails, hfits rfl]), if_pos hup]
    cases msg <;> exact hup

theorem Sound.send (h : Sound s) (msg : Sending) : Sound (s.send answers cbs depth msg) := by
  unfold Sender.send
  by_cases hup : s.client.ensureConnected = true
  · rw [if_pos hup]
    obtain ⟨w, older, hwires, hintact⟩ := h.live ((isConnected_eq s).trans hup)
    obtain ⟨done, failed, tail, hwhole⟩ := h.whole w (hwires ▸ List.mem_cons_self)
    obtain ⟨rfl, rfl⟩ := hwhole.intact hintact
    have holder : ∀ v ∈ older, ∃ done failed tail, v.Whole done failed tail :=
      fun v hv => h.whole v (hwires ▸ List.mem_cons_of_mem _ hv)
    obtain ⟨hpre, hok⟩ := sendFrame_spec answers s.asked msg.payload
    have hclient := happen_send cbs depth msg hup (sendFrame_fits answers s.asked)
    dsimp only
    rw [hwires]
    cases hd : (sendFrame answers s.asked msg.payload).ok with
    | true =>
      rw [hok.mp hd]
      refine ⟨List.forall_mem_cons.mpr ⟨⟨_, _, _, hwhole.sent msg.payload⟩, holder⟩, fun _ => ?_⟩
      refine ⟨_, older, rfl, ?_⟩
      rintro ⟨call, hcall, hfailed⟩
      rcases List.mem_append.mp hcall with hcall | hcall
      · exact hintact ⟨call, hcall, hfailed⟩
      · obtain rfl := List.mem_singleton.mp hcall
        cases hfailed
    | false =>
      have hne : (sendFrame answers s.asked msg.payload).accepted ≠ frame msg.payload := by
        intro hall
        rw [hok.mpr hall] at hd
        cases hd
      refine ⟨List.forall_mem_cons.mpr ⟨⟨_, _, _, hwhole.cut hpre hne⟩, holder⟩, fun hlive => ?_⟩
      rw [isConnected_eq] at hlive
      rw [hd] at hclient
      rw [hclient] at hlive
      cases hlive
  · rw [if_neg hup]
    refine ⟨?_, fun hlive => absurd ((isConnected_eq _).symm.trans hlive) hup⟩
    cases hwires : s.wires with
    | nil => exact fun v hv => by cases hv
    | cons w older =>
      obtain ⟨done, failed, tail, hwhole⟩ := h.whole w (hwires ▸ List.mem_cons_self)
      refine List.forall_mem_cons.mpr ⟨⟨_, _, _, hwhole.refused msg.payload⟩, fun v hv => ?_⟩
      exact h.whole v (hwires ▸ List.mem_cons_of_mem _ hv)

/-- Whatever is done with the client, what stands on its connections stays sound. -/
theorem Sound.step (h : Sound s) (call : ApiCall) : Sound (s.step answers cbs depth call) := by
  cases call with
  | connect succeeds =>
    cases succeeds with
    | false => exact h.down rfl
    | true =>
      refine ⟨List.forall_mem_cons.mpr ⟨⟨[], [], [], .new⟩, h.whole⟩, fun _ => ⟨_, _, rfl, ?_⟩⟩
      rintro ⟨call, hcall, -⟩
      cases hcall
  | disconnect => exact h.down rfl
  | send msg => exact h.send msg
  | message r =>
    refine ⟨h.whole, fun hlive => h.live ?_⟩
    rw [isConnected_eq] at hlive ⊢
    have hsame : (s.client.happen cbs depth (.message r)).ensureConnected =
        s.client.ensureConnected := by
      change Client.ensureConnected (if _ then _ else _) = _
      split_ifs
      · split <;> rfl
      · rfl
    exact hsame ▸ hlive
  | lost =>
    refine h.down ?_
    change (handleDisconnect cbs [] s.client).1.ensureConnected = false
    unfold handleDisconnect
    split_ifs <;> rfl

/-- What stands on a connection stays, and a connection on which a call has failed gets no more. -/
def Keeps (s s' : Sender) : Prop :=
  ∀ w older, s.wires = w :: older → ∃ newer w', s'.wires = newer ++ w' :: older ∧
    w.calls <+: w'.calls ∧ w.accepted <+: w'.accepted ∧ (w.Broken → w'.accepted = w.accepted)

theorem Keeps.refl (s : Sender) : Keeps s s :=
  fun w _ hwires => ⟨[], w, hwires, List.prefix_rfl, List.prefix_rfl, fun _ => rfl⟩

theorem Keeps.trans {s' s'' : Sender} (h : Keeps s s') (h' : Keeps s' s'') : Keeps s s'' := by
  intro w older hwires
  obtain ⟨newer, w', hwires', hcalls, haccepted, hbroken⟩ := h w older hwires
  cases newer with
  | nil =>
    obtain ⟨newer', w'', hwires'', hcalls', haccepted', hbroken'⟩ := h' w' older hwires'
    refine ⟨newer', w'', hwires'', hcalls.trans hcalls', haccepted.trans haccepted', fun hw => ?_⟩
    rw [hbroken' (hw.mono hcalls), hbroken hw]
  | cons v newer =>
    obtain ⟨newer', v', hwires'', -⟩ := h' v (newer ++ w' :: older) hwires'
    refine ⟨newer' ++ v' :: newer, w', ?_, hcalls, haccepted, hbroken⟩
    rw [hwires'', List.append_assoc]
    rfl

theorem keeps_enter {client : Client} {asked : ℕ} {payload accepted : Bytes} {ok : Bool}
    (h : ∀ w older, s.wires = w :: older → w.Broken → accepted = []) :
    Keeps s ⟨client, asked, enter payload ok accepted s.wires⟩ := by
  intro w older hwires
  refine ⟨[], ⟨w.calls ++ [(payload, ok)], w.accepted ++ accepted⟩, ?_, List.prefix_append _ _,
    List.prefix_append _ _, fun hw => ?_⟩
  · change enter payload ok accepted s.wires = _
    rw [hwires]
    rfl
  · rw [h w older hwires hw, List.append_nil]

theorem Sound.keeps (h : Sound s) (call : ApiCall) : Keeps s (s.step answers cbs depth call) := by
  cases call with
  | connect succeeds =>
    cases succeeds with
    | false => exact .refl s
    | true =>
      exact fun w older hwires => ⟨[⟨[], []⟩], w, congrArg (_ :: ·) hwires, List.prefix_rfl,
        List.prefix_rfl, fun _ => rfl⟩
  | disconnect => exact .refl s
  | send msg =>
    change Keeps s (s.send answers cbs depth msg)
    unfold Sender.send
    split_ifs with hup
    · refine keeps_enter fun w older hwires hbroken => ?_
      obtain ⟨w', older', hwires', hintact⟩ := h.live ((isConnected_eq s).trans hup)
      rw [hwires] at hwires'
      obtain ⟨rfl, -⟩ := List.cons.inj hwires'
      exact absurd hbroken hintact
    · exact keeps_enter fun _ _ _ _ => rfl
  | message r => exact .refl s
  | lost => exact .refl s

variable (answers cbs depth) in
theorem Sound.run (h : Sound s) (calls : List ApiCall) :
    Sound (exec (Sender.step answers cbs depth) s calls) ∧
      Keeps s (exec (Sender.step answers cbs depth) s calls) := by
  induction calls generalizing s with
  | nil => exact ⟨h, .refl s⟩
  | cons call calls ih =>
    obtain ⟨hsound, hkeeps⟩ := ih (h.step call)
    exact ⟨hsound, (h.keeps call).trans hkeeps⟩

theorem start_sound : Sound start :=
  ⟨fun w hw => (by cases hw), fun hlive => by cases hlive⟩

/-- On every connection stand the frames of the calls that returned true, in their order, and at most
a piece of the frame of the first call that did not. From that call on nothing more is written to
the connection, and the client is not connected until it connects again. -/
theorem whole_frames_or_closed (answers : Answers) (cbs : Callback → Bool) (depth : ℕ)
    (calls : List ApiCall) :
    let run := fun s => exec (step answers cbs depth) s
    let s := run start calls
    (∀ w ∈ s.wires, ∃ done failed tail, w.Whole done failed tail) ∧
      (s.wires = [] → s.isConnected = false) ∧
      ∀ w older, s.wires = w :: older → ∀ more, ∃ newer w',
        (run s more).wires = newer ++ w' :: older ∧ w.calls <+: w'.calls ∧
          w.accepted <+: w'.accepted ∧
          (w.Broken → w'.accepted = w.accepted ∧
            (newer = [] → (run s more).isConnected = false)) := by
  intro run s
  have hsound : Sound s := (start_sound.run answers cbs depth calls).1
  refine ⟨hsound.whole, fun hnone => ?_, fun w older hwires more => ?_⟩
  · rw [Bool.eq_false_iff]
    intro hlive
    obtain ⟨w, older, hwires, -⟩ := hsound.live hlive
    rw [hnone] at hwires
    cases hwires
  · obtain ⟨hlater, hkeeps⟩ := hsound.run answers cbs depth more
    obtain ⟨newer, w', hwires', hcalls, haccepted, hbroken⟩ := hkeeps w older hwires
    refine ⟨newer, w', hwires', hcalls, haccepted, fun hw => ⟨hbroken hw, ?_⟩⟩
    rintro rfl
    rw [Bool.eq_false_iff]
    intro hlive
    obtain ⟨v, older', hv, hintact⟩ := hlater.live hlive
    have hhead : w' :: older = v :: older' := hwires'.symm.trans hv
    obtain ⟨rfl, -⟩ := List.cons.inj hhead
    exact hintact (hw.mono hcalls)

/-- To a socket that takes the header whole, and then something each time, the frame of every call
goes out whole. -/
theorem willing_socket (h : ∀ i, ∃ n, answers i = some (n + 4)) {w : Wire} {older : List Wire}
    (hwires : s.wires = w :: older) (hup : s.client.ensureConnected = true) (msgs : List Sending)
    (hfits : ∀ msg ∈ msgs, msg.payload.length ≤ maxFrameLen) :
    (exec (step answers cbs depth) s (msgs.map .send)).wires =
      ⟨w.calls ++ msgs.map fun msg => (msg.payload, true),
        w.accepted ++ msgs.flatMap fun msg => frame msg.payload⟩ :: older := by
  induction msgs generalizing s w with
  | nil =>
    rw [List.map_nil, exec_nil, hwires, List.map_nil, List.append_nil, List.flatMap_nil,
      List.append_nil]
  | cons msg msgs ih =>
    have hfit := hfits msg List.mem_cons_self
    have hok := sendFrame_willing h s.asked hfit
    have hall := (sendFrame_spec answers s.asked msg.payload).2.mp hok
    have hsend : s.send answers cbs depth msg = ⟨s.client.happen cbs depth (.send msg true),
        (sendFrame answers s.asked msg.payload).asked,
        ⟨w.calls ++ [(msg.payload, true)], w.accepted ++ frame msg.payload⟩ :: older⟩ := by
      rw [Sender.send, if_pos hup, hwires]
      dsimp only
      rw [hok, hall]
      rfl
    rw [List.map_cons, exec_cons]
    change (exec _ (s.send answers cbs depth msg) _).wires = _
    rw [hsend]
    refine (ih rfl (happen_send cbs depth msg hup fun _ => hfit)
      fun m hm => hfits m (List.mem_cons_of_mem _ hm)).trans ?_
    rw [List.append_assoc, List.append_assoc]
    rfl

/-- The header and three bytes are taken of the first frame and then its last one, the second frame
breaks off after its header, and the third is not begun. -/
example : (exec (step (fun i => [some 4, some 3, some 9, some 5, none][i]?.join) (fun _ => false) 0)
    start [.connect true, .send (.move [7, 8]), .send .ping, .send .ping]).wires.map
      (fun w => (w.calls.map (·.2), w.accepted)) =
    [([true, false, false], [4, 0, 0, 0, 1, 2, 7, 8, 1, 0, 0, 0])] := by
  decide +kernel

end Sender

end Roomie.Cpp
