import Roomie.AdmissionCounters
import Roomie.GuardedRuns

/-!
# The cap on connections

`run` accepts TCP connections in one loop and, where an address is given for it, WebSocket
connections in another. Both count a connection before they know whether there is room for it, and
the guard of each task takes one off the same counter when it is dropped. Every atomic operation on
the counter is a step of its own here, in any order.
-/

namespace Roomie.ConnectionCounts
open GuardedRuns AdmissionCounters

/-- `MAX_CONNECTIONS`. -/
def maxConnections : ℕ := 110000

inductive Listener where
  | tcp
  | ws
  deriving DecidableEq

instance : Fintype Listener := ⟨{.tcp, .ws}, fun l => by cases l <;> decide⟩

/-- An accept loop waits for a connection, or has counted one and holds `prev`; or it was left, or
never started. -/
inductive AcceptLoop where
  | accepting
  | counted (prev : ℕ)
  | stopped
  deriving DecidableEq

/-- The counter, the two loops, the tasks whose `ConnectionGuard` is alive, and how many tasks were
spawned. Beside that it is kept whether an operation on the counter ever wrapped. -/
structure Server where
  connCount : ℕ
  loop : Listener → AcceptLoop
  guards : Finset ℕ
  spawned : ℕ
  wrapped : Bool

inductive Event where
  /-- `accept` returns a connection, and `fetch_add` counts it. -/
  | accepts (l : Listener)
  /-- `accept` returns an error, and the loop sleeps for a while. -/
  | acceptFails (l : Listener)
  /-- The loop looks at `prev` and goes on. -/
  | proceeds (l : Listener)
  /-- A task is over, whichever way, and its guard is dropped. -/
  | drops (task : ℕ)
  /-- The loop is left: by `ctrl_c`, or with the runtime. -/
  | stops (l : Listener)

namespace Server

/-- `conn_count.fetch_add(1, Ordering::Relaxed)`, on a `usize` of 64 bits. -/
def fetchAdd (s : Server) : Server :=
  { s with connCount := up (2 ^ 64) s.connCount, wrapped := s.wrapped || s.connCount + 1 = 2 ^ 64 }

/-- `conn_count.fetch_sub(1, Ordering::Relaxed)`. -/
def fetchSub (s : Server) : Server :=
  { s with connCount := down (2 ^ 64) s.connCount, wrapped := s.wrapped || s.connCount = 0 }

def goto (l : Listener) (a : AcceptLoop) (s : Server) : Server :=
  { s with loop := Function.update s.loop l a }

/-- A guard is made and moved into a new task. -/
def spawn (s : Server) : Server :=
  { s with guards := insert s.spawned s.guards, spawned := s.spawned + 1 }

/-- Before the first connection. -/
def start (wsBind : Bool) : Server :=
  ⟨0, fun | .tcp => .accepting | .ws => if wsBind then .accepting else .stopped, ∅, 0, false⟩

def step (s : Server) : Event → Server
  | .accepts l =>
    if s.loop l = .accepting then s.fetchAdd.goto l (.counted s.connCount) else s
  | .acceptFails _ => s
  | .proceeds l =>
    match s.loop l with
    | .counted prev =>
      if prev ≥ maxConnections then s.fetchSub.goto l .accepting else s.spawn.goto l .accepting
    | _ => s
  | .drops task =>
    if task ∈ s.guards then { s.fetchSub with guards := s.guards.erase task } else s
  | .stops l => if s.loop l = .accepting then s.goto l .stopped else s

end Server

/-- A loop that is between its `fetch_add` and what follows has a newcomer counted. -/
def AcceptLoop.phase : AcceptLoop → Phase
  | .counted prev => .counted prev
  | _ => .waiting

namespace Server
variable {s : Server}

/-- The loops as acceptors that share the counter. -/
def view (s : Server) : State Listener := ⟨s.connCount, fun l => (s.loop l).phase, s.guards.card⟩

theorem view_goto (s : Server) (l : Listener) (a : AcceptLoop) :
    (s.goto l a).view = { s.view with phase := Function.update s.view.phase l a.phase } := by
  have hphase : (fun k => (Function.update s.loop l a k).phase) =
      Function.update s.view.phase l a.phase := by
    funext k
    by_cases hk : k = l
    · subst hk
      rw [Function.update_self, Function.update_self]
    · rw [Function.update_of_ne hk, Function.update_of_ne hk]
      rfl
  exact congrArg (fun phase => (⟨s.connCount, phase, s.guards.card⟩ : State Listener)) hphase

/-- A step between two waiting phases changes nothing of what the loops share. -/
theorem view_goto_waiting {l : Listener} {a : AcceptLoop} (hs : (s.loop l).phase = .waiting)
    (ha : a.phase = .waiting) : (s.goto l a).view = s.view := by
  rw [view_goto, ha, ← hs]
  exact congrArg (fun phase => (⟨s.connCount, phase, s.guards.card⟩ : State Listener))
    (Function.update_eq_self l s.view.phase)

/-- The counter is sound, it never wrapped, and the guards are those of tasks spawned. -/
structure Inv (s : Server) : Prop where
  sound : Sound maxConnections s.view
  unwrapped : s.wrapped = false
  fresh : ∀ task ∈ s.guards, task < s.spawned

theorem room : maxConnections + Fintype.card Listener + 1 < 2 ^ 64 := by decide

theorem inv_start (wsBind : Bool) : Inv (start wsBind) := by
  have hview : (start wsBind).view = AdmissionCounters.start := by
    have hphase : (fun l => ((start wsBind).loop l).phase) = fun _ => Phase.waiting := by
      funext l
      cases l <;> cases wsBind <;> rfl
    exact congrArg (fun phase => (⟨0, phase, 0⟩ : State Listener)) hphase
  refine ⟨?_, rfl, fun task htask => absurd htask (Finset.notMem_empty task)⟩
  rw [hview]
  exact sound_start

/-- A count never comes near the end of a `usize`. -/
theorem Inv.fetchAdd_unwrapped (h : Inv s) : s.fetchAdd.wrapped = false := by
  have hle := h.sound.counter_le
  have hroom := room
  have hne : s.connCount + 1 ≠ 2 ^ 64 := by
    change s.connCount ≤ _ at hle
    omega
  rw [fetchAdd, h.unwrapped, decide_eq_false hne]
  rfl

theorem Inv.fetchSub_unwrapped (h : Inv s) (hpos : 0 < s.connCount) : s.fetchSub.wrapped = false := by
  have hne : s.connCount ≠ 0 := Nat.ne_of_gt hpos
  rw [fetchSub, h.unwrapped, decide_eq_false hne]
  rfl

theorem Inv.accepts (h : Inv s) {l : Listener} (hl : s.loop l = .accepting) :
    Inv (s.fetchAdd.goto l (.counted s.connCount)) := by
  have hphase : s.view.phase l = .waiting := congrArg AcceptLoop.phase hl
  refine ⟨?_, h.fetchAdd_unwrapped, h.fresh⟩
  rw [view_goto]
  exact h.sound.count room hphase

theorem Inv.proceeds (h : Inv s) {l : Listener} {prev : ℕ} (hl : s.loop l = .counted prev) :
    Inv (if prev ≥ maxConnections then s.fetchSub.goto l .accepting
      else s.spawn.goto l .accepting) := by
  have hphase : s.view.phase l = .counted prev := congrArg AcceptLoop.phase hl
  have hsound := h.sound.decide hphase (M := 2 ^ 64)
  split_ifs at hsound ⊢ with hprev
  · have hpos : 0 < s.connCount := h.sound.counter_pos (i := l) (by
      rw [hphase]
      exact Phase.noConfusion)
    refine ⟨?_, h.fetchSub_unwrapped hpos, h.fresh⟩
    rw [view_goto]
    exact hsound
  · have hnew : s.spawned ∉ s.guards := fun hmem => Nat.lt_irrefl _ (h.fresh _ hmem)
    refine ⟨?_, h.unwrapped, ?_⟩
    · rw [view_goto]
      have hcard : s.spawn.view.held = s.guards.card + 1 := Finset.card_insert_of_notMem hnew
      change Sound maxConnections ⟨s.connCount, _, s.spawn.view.held⟩
      rw [hcard]
      exact hsound
    · intro task htask
      rcases Finset.mem_insert.mp htask with rfl | hold
      · exact Nat.lt_succ_self _
      · exact Nat.lt_succ_of_lt (h.fresh task hold)

theorem Inv.drops (h : Inv s) {task : ℕ} (htask : task ∈ s.guards) :
    Inv { s.fetchSub with guards := s.guards.erase task } := by
  have hheld : s.view.held ≠ 0 := Finset.card_ne_zero_of_mem htask
  have hpos : 0 < s.connCount := Nat.lt_of_lt_of_le (Nat.pos_of_ne_zero hheld)
    h.sound.held_le_counter
  refine ⟨?_, h.fetchSub_unwrapped hpos, fun k hk => h.fresh k (Finset.mem_of_mem_erase hk)⟩
  have hsound := h.sound.release (M := 2 ^ 64) hheld
  rwa [show s.view.held - 1 = (s.guards.erase task).card from
    (Finset.card_erase_of_mem htask).symm] at hsound

theorem Inv.stops (h : Inv s) {l : Listener} (hl : s.loop l = .accepting) :
    Inv (s.goto l .stopped) := by
  refine ⟨?_, h.unwrapped, h.fresh⟩
  rw [view_goto_waiting (congrArg AcceptLoop.phase hl) rfl]
  exact h.sound

theorem Inv.step (h : Inv s) (e : Event) : Inv (s.step e) := by
  cases e with
  | accepts l =>
    simp only [Server.step]
    split_ifs with hl
    · exact h.accepts hl
    · exact h
  | acceptFails l => exact h
  | proceeds l =>
    simp only [Server.step]
    split
    · rename_i prev hl
      exact h.proceeds hl
    · exact h
  | drops task =>
    simp only [Server.step]
    split_ifs with htask
    · exact h.drops htask
    · exact h
  | stops l =>
    simp only [Server.step]
    split_ifs with hl
    · exact h.stops hl
    · exact h

end Server

/-- Whatever the order of the steps of the two accept loops and of the tasks: at most
`MAX_CONNECTIONS` guards are alive, the counter has never wrapped, it is at least the number of
guards, and while no loop is about to decide it is that number. -/
theorem connections_capped (wsBind : Bool) (events : List Event) :
    let s := exec Server.step (Server.start wsBind) events
    s.guards.card ≤ maxConnections ∧ s.wrapped = false ∧ s.guards.card ≤ s.connCount ∧
      ((∀ l prev, s.loop l ≠ .counted prev) → s.connCount = s.guards.card) := by
  intro s
  have hinv : Server.Inv s :=
    exec_invariant (fun _ e h => h.step e) (Server.inv_start wsBind) events
  refine ⟨hinv.sound.held_le, hinv.unwrapped, hinv.sound.held_le_counter, fun hidle => ?_⟩
  apply hinv.sound.counter_eq_held
  intro l
  change (s.loop l).phase = .waiting
  cases hl : s.loop l with
  | counted prev => exact absurd hl (hidle l prev)
  | accepting => rfl
  | stopped => rfl

end Roomie.ConnectionCounts
