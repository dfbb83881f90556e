import Mathlib.Algebra.Order.BigOperators.Group.Finset
import Mathlib.Algebra.Order.Monoid.Prod
import Mathlib.Data.Prod.Lex
import Mathlib.Data.Nat.Pairing
import Mathlib.Logic.Relation
import Roomie.FairRuns
import Roomie.RoomScans

/-!
# Every event that has begun is completed

A connection may wait for the lock of a room, for a shard of a pool that a walk holds, with the
guard of the registry in its hand, and for a shard of the registry that walks and such
connections hold; a walk waits for locks of rooms with the guards of its shard and of the
registry in its hand. The holder of a lock needs nothing more to get out, walks need only
locks, and who holds the registry needs only shards of pools: whoever is waited for stands
lower, so nobody waits in a circle. With every step the parties come closer to the end of
their events, and so every fair schedule completes all of them.
-/

namespace Roomie.RoomScans
open HashTables GuardedRuns FairRuns Shared

/-- Whose turn it is. -/
def Turn.party : Turn → Party
  | .begins _ conn _ => .conn conn
  | .asks request _ _ => .http request
  | .goesOn _ p => p

/-- A step of an event that has begun. -/
def GoesOn (_ : Hall) (t : Turn) : Prop := ∃ env p, t = .goesOn env p

/-- How much a connection has got hold of. -/
def grasped : Option Grip → ℕ
  | none => 0
  | some .ensured => 1
  | some (.held _) => 2

namespace Hall

def phaseOf (hall : Hall) : Party → Phase
  | .conn conn => hall.st.phase conn
  | .http _ => .idle

/-- The party is in the middle of an event or on a walk. -/
def Busy (hall : Hall) (p : Party) : Prop := hall.phaseOf p ≠ .idle ∨ p ∈ hall.walks

/-- No connection is in the middle of an event, nobody is on a walk, and no lock and no guard is
held. -/
structure Quiet (hall : Hall) : Prop where
  idle : ∀ conn, hall.st.phase conn = .idle
  walks : ∀ p, p ∉ hall.walks
  locks : ∀ ref, hall.st.holder ref = none
  grips : ∀ conn, conn ∉ hall.grips

/-- The apps a walk has still to go through, the shards it has still to open or to finish, and the
rooms it has still to visit. -/
def walkLeft (lay : Layout) : Option Walk → ℕ ×ₗ (ℕ ×ₗ ℕ)
  | none => ⊥
  | some walk =>
    toLex (walk.later.length, toLex (lay.shards - walk.opened + 1, walk.todo.length))

/-- The steps a connection has still to take, those in a pool in up to three parts. -/
def workLeft (hall : Hall) : Party → ℕ
  | .conn conn => 3 * stepsLeft (hall.st.phase conn) - grasped (hall.grips.lookup conn)
  | .http _ => 0

/-- What a party has left to do. -/
def left (lay : Layout) (hall : Hall) (p : Party) : ℕ ×ₗ (ℕ ×ₗ (ℕ ×ₗ ℕ)) :=
  toLex (hall.workLeft p, walkLeft lay (hall.walks.lookup p))

/-- What the parties have left to do altogether. -/
def leftOf (lay : Layout) (parties : Finset Party) (hall : Hall) : ℕ ×ₗ (ℕ ×ₗ (ℕ ×ₗ ℕ)) :=
  ∑ p ∈ parties, hall.left lay p

end Hall

open Hall

variable {lay : Layout} {hall : Hall}

/-! ## Who waits for whom -/

/-- The next step of the first party may need what the second one holds: the lock of a room, a shard
of a pool, or a shard of the registry. -/
inductive Waits (lay : Layout) (hall : Hall) : Party → Party → Prop
  | lock {conn conn' : ConnId} {ref : RoomRef} (waits : waitsFor (hall.st.phase conn) = some ref)
      (held : hall.st.holder ref = some conn') : Waits lay hall (.conn conn) (.conn conn')
  | visit {p : Party} {walk : Walk} {key : String} {ref : RoomRef}
      {rest : List (String × RoomRef)} {conn : ConnId} (walks : hall.walks.lookup p = some walk)
      (todo : walk.todo = (key, ref) :: rest) (held : hall.st.holder ref = some conn) :
      Waits lay hall p (.conn conn)
  | shard {env : Env} {conn : ConnId} {grip : Grip} {key : String × String} {q : Party}
      {walk : Walk} (gripping : hall.grips.lookup conn = some grip)
      (needs : key ∈ entriesOf env hall.st (hall.st.phase conn))
      (walks : hall.walks.lookup q = some walk) (app : walk.appKey = key.1)
      (held : walk.opened = lay.roomShard key.2 + 1) : Waits lay hall (.conn conn) q
  | pool {conn : ConnId} {h : Hello} {q : Party} {walk : Walk}
      (opening : hall.st.phase conn = .opening h) (loose : hall.grips.lookup conn = none)
      (walks : hall.walks.lookup q = some walk)
      (held : lay.appShard walk.appKey = lay.appShard h.appKey) : Waits lay hall (.conn conn) q
  | guard {conn conn' : ConnId} {h : Hello} {appKey : String}
      (opening : hall.st.phase conn = .opening h) (loose : hall.grips.lookup conn = none)
      (gripping : hall.grips.lookup conn' = some (.held appKey))
      (held : lay.appShard appKey = lay.appShard h.appKey) :
      Waits lay hall (.conn conn) (.conn conn')

/-- How high a party stands in the order of the locks: a room, a shard of a pool, the registry. -/
def rank (hall : Hall) (p : Party) : ℕ :=
  if p ∈ hall.walks then 1
  else match p with
    | .http _ => 0
    | .conn conn =>
      match hall.st.phase conn, hall.grips.lookup conn with
      | .opening _, none => 3
      | .opening _, some _ | .removing .., _ => 2
      | .joining .., _ | .leaving .., _ | .acting .., _ => 1
      | .idle, _ | .entering _, _ | .inside .., _ => 0

theorem rank_walk {p : Party} {walk : Walk} (h : hall.walks.lookup p = some walk) :
    rank hall p = 1 := if_pos (AList.mem_of_lookup h)

namespace Ordered

/-- A connection in the middle of an event is on no walk. -/
theorem no_walk (h : Ordered lay hall) {conn : ConnId} (hbusy : hall.st.phase conn ≠ .idle) :
    Party.conn conn ∉ hall.walks := fun hmem => hbusy (h.alone conn hmem)

theorem rank_conn (h : Ordered lay hall) {conn : ConnId} (hbusy : hall.st.phase conn ≠ .idle) :
    rank hall (.conn conn) = match hall.st.phase conn, hall.grips.lookup conn with
      | .opening _, none => 3
      | .opening _, some _ | .removing .., _ => 2
      | .joining .., _ | .leaving .., _ | .acting .., _ => 1
      | .idle, _ | .entering _, _ | .inside .., _ => 0 := if_neg (h.no_walk hbusy)

/-- The holder of a lock is inside, and stands lowest. -/
theorem rank_holder (h : Ordered lay hall) {ref : RoomRef} {conn : ConnId}
    (hheld : hall.st.holder ref = some conn) : rank hall (.conn conn) = 0 := by
  obtain ⟨emptied, next, hin⟩ := h.latched.holders ref conn hheld
  rw [h.rank_conn (by simp [hin]), hin]

/-- Who has got hold of a pool waits for walks only. -/
theorem rank_gripping (h : Ordered lay hall) {conn : ConnId} {grip : Grip}
    (hgrip : hall.grips.lookup conn = some grip) : rank hall (.conn conn) = 2 := by
  have hpool := h.gripping conn (AList.mem_of_lookup hgrip)
  cases hphase : hall.st.phase conn with
  | opening hello => rw [h.rank_conn (by simp [hphase]), hphase, hgrip]
  | removing appKey code next => rw [h.rank_conn (by simp [hphase]), hphase]
  | _ => simp [hphase, poolOf] at hpool

/-- Whoever is waited for stands lower. -/
theorem waits_lower (h : Ordered lay hall) {p q : Party} (hwaits : Waits lay hall p q) :
    rank hall q < rank hall p := by
  cases hwaits with
  | @lock conn conn' ref waits held =>
    have hbusy : hall.st.phase conn ≠ .idle := by
      intro hidle
      simp [hidle, waitsFor] at waits
    rw [h.rank_holder held, h.rank_conn hbusy]
    cases hphase : hall.st.phase conn <;> simp [hphase, waitsFor] at waits ⊢
  | visit walks _ held =>
    rw [h.rank_holder held, rank_walk walks]
    exact Nat.one_pos
  | shard gripping _ walks _ _ =>
    rw [h.rank_gripping gripping, rank_walk walks]
    exact Nat.lt_succ_self 1
  | pool opening loose walks _ =>
    rw [rank_walk walks, h.rank_conn (by simp [opening]), opening, loose]
    exact Nat.lt_of_sub_eq_succ rfl
  | guard opening loose gripping _ =>
    rw [h.rank_gripping gripping, h.rank_conn (by simp [opening]), opening, loose]
    exact Nat.lt_succ_self 2

/-- Nobody waits in a circle. -/
theorem no_circle (h : Ordered lay hall) (p : Party) : ¬ Relation.TransGen (Waits lay hall) p p := by
  have hlower : ∀ {p q : Party}, Relation.TransGen (Waits lay hall) p q →
      rank hall q < rank hall p := by
    intro p q hpath
    induction hpath with
    | single hwaits => exact h.waits_lower hwaits
    | tail _ hwaits ih => exact (h.waits_lower hwaits).trans ih
  exact fun hcircle => (hlower hcircle).false

/-- Whoever is waited for has something to do. -/
theorem waits_busy (h : Ordered lay hall) {p q : Party} (hwaits : Waits lay hall p q) :
    hall.Busy q := by
  have hholds : ∀ {ref : RoomRef} {conn : ConnId}, hall.st.holder ref = some conn →
      hall.Busy (.conn conn) := by
    intro ref conn hheld
    obtain ⟨emptied, next, hin⟩ := h.latched.holders ref conn hheld
    exact .inl (by simp [phaseOf, hin])
  cases hwaits with
  | lock _ held => exact hholds held
  | visit _ _ held => exact hholds held
  | shard _ _ walks _ _ => exact .inr (AList.mem_of_lookup walks)
  | pool _ _ walks _ => exact .inr (AList.mem_of_lookup walks)
  | @guard _ conn' _ _ _ _ gripping _ =>
    refine .inl fun hidle => ?_
    have hpool := h.gripping conn' (AList.mem_of_lookup gripping)
    simp [phaseOf] at hidle
    simp [hidle, poolOf] at hpool

end Ordered

theorem guarded_walk {key : String × String} (h : hall.guarded lay key = true) :
    ∃ q walk, hall.walks.lookup q = some walk ∧ walk.appKey = key.1 ∧
      walk.opened = lay.roomShard key.2 + 1 := by
  obtain ⟨⟨q, walk⟩, hmem, hheld⟩ := List.any_eq_true.mp h
  simp only [Bool.and_eq_true, beq_iff_eq] at hheld
  exact ⟨q, walk, AList.mem_lookup_iff.mpr hmem, hheld.1, hheld.2⟩

/-- A walk that does not go on waits for the lock of a room. -/
theorem stuck_walk {p : Party} {walk : Walk} (hwalk : hall.walks.lookup p = some walk) {env : Env}
    (hstuck : hall.walkOn lay env p walk = hall) : ∃ q, Waits lay hall p q := by
  have hsame := congrArg (fun hall => hall.walks.lookup p) hstuck
  unfold walkOn at hsame
  cases htodo : walk.todo with
  | nil =>
    simp only [htodo] at hsame
    split_ifs at hsame
    · simp only [AList.lookup_insert, hwalk, Option.some.injEq, Walk.openShard] at hsame
      exact absurd (congrArg Walk.opened hsame) (Nat.succ_ne_self _)
    · unfold endWalk at hsame
      cases hlater : walk.later with
      | nil =>
        simp only [hlater, AList.lookup_erase, hwalk] at hsame
        cases hsame
      | cons appKey later =>
        simp only [hlater, AList.lookup_insert, hwalk, Option.some.injEq] at hsame
        have hlength := congrArg (fun walk => walk.later.length) hsame
        simp [Walk.new, hlater] at hlength
  | cons e rest =>
    obtain ⟨key, ref⟩ := e
    cases hheld : hall.st.holder ref with
    | some conn => exact ⟨.conn conn, .visit hwalk htodo hheld⟩
    | none =>
      simp only [htodo, hheld, if_true, AList.lookup_insert, hwalk, Option.some.injEq] at hsame
      have hlength := congrArg (fun walk => walk.todo.length) hsame
      simp [Walk.see, htodo] at hlength

/-- A connection whose step does nothing waits for a lock. -/
theorem stuck_proceed {conn : ConnId} (hbusy : hall.st.phase conn ≠ .idle) {env : Env}
    {grips : Table ConnId Grip}
    (hstuck : { hall with st := hall.st.proceed env conn, grips := grips } = hall) :
    ∃ q, Waits lay hall (.conn conn) q := by
  by_contra hnone
  have hless := proceed_less env hbusy fun ref hwaits => by
    rw [Option.eq_none_iff_forall_ne_some]
    exact fun conn' hheld => hnone ⟨.conn conn', .lock hwaits hheld⟩
  have hsame := congrArg (fun hall => stepsLeft (hall.st.phase conn)) hstuck
  exact hless.ne hsame

theorem stuck_grip {conn : ConnId} {grip : Grip} (hgrip : hall.grips.lookup conn ≠ some grip) :
    { hall with grips := hall.grips.insert conn grip } ≠ hall := by
  intro hstuck
  have hsame := congrArg (fun hall => hall.grips.lookup conn) hstuck
  rw [AList.lookup_insert] at hsame
  exact hgrip hsame.symm

/-- A connection that does not get on with its work in a pool waits for a walk that holds a shard of
it. -/
theorem stuck_inPool {conn : ConnId} {grip : Grip} (hgrip : hall.grips.lookup conn = some grip)
    (hbusy : hall.st.phase conn ≠ .idle) {env : Env}
    (hstuck : hall.inPool lay env conn (entriesOf env hall.st (hall.st.phase conn)) = hall) :
    ∃ q, Waits lay hall (.conn conn) q := by
  unfold inPool at hstuck
  split_ifs at hstuck with hguarded
  · obtain ⟨key, hneeds, hheld⟩ := List.any_eq_true.mp hguarded
    obtain ⟨q, walk, hwalk, happ, hopened⟩ := guarded_walk hheld
    exact ⟨q, .shard hgrip hneeds hwalk happ hopened⟩
  · exact stuck_proceed hbusy hstuck

/-- Who cannot make sure of its pool waits for somebody who holds the registry. -/
theorem stuck_ensurePool {conn : ConnId} {h : Hello} (hphase : hall.st.phase conn = .opening h)
    (hgrip : hall.grips.lookup conn = none)
    (hstuck : hall.ensurePool lay conn h.appKey = hall) : ∃ q, Waits lay hall (.conn conn) q := by
  unfold ensurePool at hstuck
  split_ifs at hstuck with hguarded
  · rcases Bool.or_eq_true_iff.mp hguarded with hwalk | hgripping
    · obtain ⟨⟨q, walk⟩, hmem, hheld⟩ := List.any_eq_true.mp hwalk
      exact ⟨q, .pool hphase hgrip (AList.mem_lookup_iff.mpr hmem) (by simpa using hheld)⟩
    · obtain ⟨⟨conn', grip⟩, hmem, hheld⟩ := List.any_eq_true.mp hgripping
      cases grip with
      | ensured => cases hheld
      | held appKey =>
        refine ⟨.conn conn', .guard hphase hgrip (AList.mem_lookup_iff.mpr hmem) ?_⟩
        simpa [Grip.pool] using hheld
  · exact absurd hstuck (stuck_grip (by simp [hgrip]))

/-- Who has something to do and whose turn does nothing waits for somebody. -/
theorem stuck_waits {p : Party} (hbusy : hall.Busy p) {env : Env}
    (hstuck : hall.step lay (.goesOn env p) = hall) : ∃ q, Waits lay hall p q := by
  simp only [Hall.step] at hstuck
  cases hwalk : hall.walks.lookup p with
  | some walk =>
    simp only [hwalk] at hstuck
    exact stuck_walk hwalk hstuck
  | none =>
    have hphase : hall.phaseOf p ≠ .idle :=
      hbusy.resolve_right (AList.lookup_eq_none.mp hwalk)
    cases p with
    | http request => exact absurd rfl hphase
    | conn conn =>
      simp only [hwalk] at hstuck
      unfold workOn at hstuck
      split at hstuck
      · rename_i hello hopening hgrip
        exact stuck_ensurePool hopening hgrip hstuck
      · rename_i hello hopening hgrip
        exact absurd hstuck (stuck_grip (by simp [hgrip]))
      · rename_i hello appKey hopening hgrip
        have hentries : entriesOf env hall.st (hall.st.phase conn) = tries env hall.st hello := by
          rw [hopening, entriesOf]
        exact stuck_inPool hgrip hphase (hentries.symm ▸ hstuck)
      · rename_i appKey code next hremoving hgrip
        exact absurd hstuck (stuck_grip (by simp [hgrip]))
      · rename_i appKey code next grip hremoving hgrip
        have hentries : entriesOf env hall.st (hall.st.phase conn) = [(appKey, code.key)] := by
          rw [hremoving, entriesOf]
        exact stuck_inPool hgrip hphase (hentries.symm ▸ hstuck)
      · exact stuck_proceed hphase hstuck

/-! ## What is left to do -/

/-- A walk goes on; the others have as much left to do as before. -/
theorem left_walk {p : Party} {walk : Walk} {walks : Table Party Walk}
    {answer : Party → Option (List (String × Room))} (hwalk : hall.walks.lookup p = some walk)
    (hothers : ∀ p', p' ≠ p → walks.lookup p' = hall.walks.lookup p')
    (hless : walkLeft lay (walks.lookup p) < walkLeft lay (some walk)) :
    Hall.left lay ⟨hall.st, hall.grips, walks, answer⟩ p < hall.left lay p ∧
      ∀ p', p' ≠ p → Hall.left lay ⟨hall.st, hall.grips, walks, answer⟩ p' = hall.left lay p' := by
  refine ⟨Prod.Lex.toLex_lt_toLex.mpr (.inr ⟨?_, ?_⟩), fun p' hne => ?_⟩
  · cases p <;> rfl
  · rw [hwalk]
    exact hless
  · unfold Hall.left
    rw [hothers p' hne]
    cases p' <;> rfl

theorem stepsLeft_pos {phase : Phase} (h : (poolOf phase).isSome) : 0 < stepsLeft phase := by
  refine Nat.pos_of_ne_zero fun hzero => ?_
  rw [stepsLeft_eq_zero.mp hzero] at h
  cases h

/-- Work in a pool waits for no lock of a room. -/
theorem proceed_less_inside {conn : ConnId} (env : Env)
    (hinside : (poolOf (hall.st.phase conn)).isSome) :
    stepsLeft ((hall.st.proceed env conn).phase conn) < stepsLeft (hall.st.phase conn) := by
  have hpos := stepsLeft_pos hinside
  refine proceed_less env (fun hidle => ?_) fun ref hwaits => ?_
  · rw [hidle] at hpos
    exact hpos.false
  · cases hphase : hall.st.phase conn <;> simp_all [poolOf, waitsFor]

theorem grasped_le (grip : Option Grip) : grasped grip ≤ 2 := by
  rcases grip with _ | _ | _ <;> simp [grasped]

/-- A connection works, with or without a guard; the others have as much left to do as before. -/
theorem left_work {conn : ConnId} {st' : Shared} {grips : Table ConnId Grip}
    (hprivate : Private hall.st st' conn)
    (hgrips : ∀ conn', conn' ≠ conn → grips.lookup conn' = hall.grips.lookup conn')
    (hless : 3 * stepsLeft (st'.phase conn) - grasped (grips.lookup conn) <
      3 * stepsLeft (hall.st.phase conn) - grasped (hall.grips.lookup conn)) :
    Hall.left lay ⟨st', grips, hall.walks, hall.answer⟩ (.conn conn) < hall.left lay (.conn conn) ∧
      ∀ p', p' ≠ .conn conn →
        Hall.left lay ⟨st', grips, hall.walks, hall.answer⟩ p' = hall.left lay p' := by
  refine ⟨Prod.Lex.toLex_lt_toLex.mpr (.inl hless), fun p' hne => ?_⟩
  cases p' with
  | http request => rfl
  | conn conn' =>
    have hne' : conn' ≠ conn := fun heq => hne (heq ▸ rfl)
    simp only [Hall.left, workLeft, (hprivate conn' hne').2, hgrips conn' hne']

/-- A turn of a party that has begun does nothing, or brings this party closer to the end; what the
others have left to do stays the same. -/
theorem goesOn_less (lay : Layout) (hall : Hall) (env : Env) (p : Party) :
    hall.step lay (.goesOn env p) = hall ∨
    (hall.step lay (.goesOn env p)).left lay p < hall.left lay p ∧
      ∀ p', p' ≠ p → (hall.step lay (.goesOn env p)).left lay p' = hall.left lay p' := by
  have hresult := step_result lay hall (.goesOn env p)
  revert hresult
  generalize hall.step lay (.goesOn env p) = hall'
  intro hresult
  cases hresult with
  | nothing => exact .inl rfl
  | @works _ conn free outside =>
    rcases proceed_same_or_less env hall.st conn with heq | hless
    · left
      rw [heq]
    · refine .inr (left_work (proceed_private env hall.st conn) (fun _ _ => rfl) ?_)
      have hle := grasped_le (hall.grips.lookup conn)
      omega
  | @grips _ conn grip inside closer =>
    refine .inr (left_work (private_refl hall.st conn)
      (fun conn' hne => AList.lookup_insert_ne hne) ?_)
    have hpos := stepsLeft_pos inside
    have hmore : grasped (hall.grips.lookup conn) < grasped (some grip) := by
      rcases closer with hnone | ⟨hensured, hgrip⟩
      · rw [hnone]
        cases grip <;> simp [grasped]
      · rw [hensured]
        cases grip with
        | ensured => exact absurd rfl hgrip
        | held appKey => exact Nat.lt_succ_self 1
    have hle := grasped_le (some grip)
    rw [AList.lookup_insert]
    omega
  | @pools _ conn free inside ready =>
    refine .inr (left_work (proceed_private env hall.st conn)
      (fun conn' hne => AList.lookup_erase_ne hne) ?_)
    have hless := proceed_less_inside env inside
    have hle := grasped_le (hall.grips.lookup conn)
    have hnone : grasped none = 0 := rfl
    rw [AList.lookup_erase, hnone]
    omega
  | @sees _ _ walk key ref rest walks todo free =>
    refine .inr (left_walk walks (fun p' hne => AList.lookup_insert_ne hne) ?_)
    rw [AList.lookup_insert]
    refine Prod.Lex.toLex_lt_toLex.mpr (.inr ⟨rfl, Prod.Lex.toLex_lt_toLex.mpr (.inr ⟨rfl, ?_⟩)⟩)
    simp [todo, Walk.see]
  | @opens _ _ walk walks todo more =>
    refine .inr (left_walk walks (fun p' hne => AList.lookup_insert_ne hne) ?_)
    rw [AList.lookup_insert]
    refine Prod.Lex.toLex_lt_toLex.mpr (.inr ⟨rfl, Prod.Lex.toLex_lt_toLex.mpr (.inl ?_)⟩)
    simp only [Walk.openShard]
    omega
  | @ends _ _ walk walks todo last =>
    unfold endWalk
    cases hlater : walk.later with
    | nil =>
      refine .inr (left_walk walks (fun p' hne => AList.lookup_erase_ne hne) ?_)
      rw [AList.lookup_erase]
      refine Prod.Lex.toLex_lt_toLex.mpr (.inr ⟨?_, Prod.Lex.toLex_lt_toLex.mpr (.inl ?_)⟩)
      · rw [hlater]
        rfl
      · exact Nat.succ_pos _
    | cons appKey later =>
      refine .inr (left_walk walks (fun p' hne => AList.lookup_insert_ne hne) ?_)
      rw [AList.lookup_insert]
      refine Prod.Lex.toLex_lt_toLex.mpr (.inl ?_)
      simp [hlater, Walk.new]

/-- A turn gives nobody but its own party something to do. -/
theorem busy_step {p : Party} {t : Turn} (hp : p ≠ t.party) (h : ¬ hall.Busy p) :
    ¬ (hall.step lay t).Busy p := by
  simp only [Busy, not_or, not_not] at h ⊢
  obtain ⟨hidle, hwalks⟩ := h
  have hresult := step_result lay hall t
  revert hresult
  generalize hall.step lay t = hall'
  intro hresult
  have hother : ∀ {st' : Shared} {me : ConnId} {grips : Table ConnId Grip},
      Private hall.st st' me → p ≠ .conn me →
        Hall.phaseOf ⟨st', grips, hall.walks, hall.answer⟩ p = .idle := by
    intro st' me grips hprivate hne
    cases p with
    | http request => rfl
    | conn conn => exact (hprivate conn fun heq => hne (heq ▸ rfl)).2.trans hidle
  have hsame : ∀ {cache : SettingsCache} {grips : Table ConnId Grip} {walks : Table Party Walk}
      {answer : Party → Option (List (String × Room))},
      Hall.phaseOf ⟨{ hall.st with cache := cache }, grips, walks, answer⟩ p = .idle := by
    intro cache grips walks answer
    cases p with
    | http request => rfl
    | conn conn => exact hidle
  have hinsert : ∀ {walk : Walk} {p' : Party}, p ≠ p' → p ∉ hall.walks.insert p' walk := by
    intro walk p' hne hmem
    rcases (AList.mem_insert _).mp hmem with heq | hmem
    · exact hne heq
    · exact hwalks hmem
  cases hresult with
  | nothing => exact ⟨hidle, hwalks⟩
  | begins free idle => exact ⟨hother (begin_private _ _ _) hp, hwalks⟩
  | cached cache => exact ⟨hsame, hwalks⟩
  | lists free idle cache appKey => exact ⟨hsame, hinsert hp⟩
  | asks free => exact ⟨hsame, hinsert hp⟩
  | works free outside => exact ⟨hother (proceed_private _ _ _) hp, hwalks⟩
  | grips inside closer => exact ⟨hsame, hwalks⟩
  | pools free inside ready => exact ⟨hother (proceed_private _ _ _) hp, hwalks⟩
  | sees walks todo free => exact ⟨hsame, hinsert hp⟩
  | opens walks todo more => exact ⟨hsame, hinsert hp⟩
  | @ends _ _ walk walks todo last =>
    refine ⟨hsame, ?_⟩
    unfold endWalk
    cases walk.later with
    | nil => exact fun hmem => hwalks (AList.mem_erase.mp hmem).2
    | cons appKey later => exact hinsert hp

/-- The invariant of a run to the end: the hall is in order, and all who are at work are among the
parties. -/
structure Engaged (lay : Layout) (parties : Finset Party) (hall : Hall) : Prop where
  ordered : Ordered lay hall
  known : ∀ p, p ∉ parties → ¬ hall.Busy p

theorem left_bot {p : Party} (h : ¬ hall.Busy p) : hall.left lay p = ⊥ := by
  simp only [Busy, not_or, not_not] at h
  rw [Hall.left, AList.lookup_eq_none.mpr h.2]
  cases p with
  | http request => rfl
  | conn conn =>
    have hidle : hall.st.phase conn = .idle := h.1
    simp only [workLeft, hidle, stepsLeft, Nat.mul_zero, Nat.zero_sub]
    rfl

namespace Engaged
variable {parties : Finset Party}

/-- What one party does brings all of them closer to the end. -/
theorem leftOf_less (h : Engaged lay parties hall) {hall' : Hall} {p : Party}
    (hless : hall'.left lay p < hall.left lay p)
    (hsame : ∀ p', p' ≠ p → hall'.left lay p' = hall.left lay p') :
    hall'.leftOf lay parties < hall.leftOf lay parties := by
  have hmem : p ∈ parties := by
    by_contra hmem
    rw [left_bot (h.known p hmem)] at hless
    exact not_lt_bot hless
  refine Finset.sum_lt_sum (fun p' _ => ?_) ⟨p, hmem, hless⟩
  by_cases hp : p' = p
  · exact hp ▸ hless.le
  · exact (hsame p' hp).le

theorem step (h : Engaged lay parties hall) {t : Turn} (ht : GoesOn hall t) :
    Engaged lay parties (hall.step lay t) := by
  obtain ⟨env, p, rfl⟩ := ht
  refine ⟨h.ordered.step _, fun p' hmem => ?_⟩
  have hidle := h.known p' hmem
  rcases goesOn_less lay hall env p with heq | ⟨hless, _⟩
  · rwa [heq]
  · refine busy_step ?_ hidle
    rintro rfl
    exact not_lt_bot (left_bot hidle ▸ hless)

/-- As long as not all is quiet, some party goes on in its next turn: one that stands lowest among
those who have something to do. -/
theorem some_moves (h : Engaged lay parties hall) (hbusy : ¬ hall.Quiet) :
    ∃ p, Moves (Hall.step lay) GoesOn Turn.party (InvImage (· < ·) (leftOf lay parties)) hall p := by
  have hsome : ∃ p, hall.Busy p := by
    by_contra hnone
    simp only [Busy, not_exists, not_or, not_not] at hnone
    refine hbusy ⟨fun conn => (hnone (.conn conn)).1, fun p => (hnone p).2, fun ref => ?_,
      fun conn => h.ordered.no_grip ?_⟩
    · refine Option.eq_none_iff_forall_ne_some.mpr fun conn hheld => ?_
      obtain ⟨emptied, next, hin⟩ := h.ordered.latched.holders ref conn hheld
      exact absurd (hin.symm.trans (hnone (.conn conn)).1) (by simp)
    · rw [show hall.st.phase conn = .idle from (hnone (.conn conn)).1]
      rfl
  obtain ⟨p, hp⟩ := hsome
  -- whoever is waited for stands lower, so the search for one who need not wait comes to an end
  induction hrank : rank hall p using Nat.strong_induction_on generalizing p with
  | _ n ih =>
    by_cases hmoves : Moves (Hall.step lay) GoesOn Turn.party
      (InvImage (· < ·) (leftOf lay parties)) hall p
    · exact ⟨p, hmoves⟩
    · simp only [Moves, not_forall] at hmoves
      obtain ⟨t, ⟨env, p', rfl⟩, rfl, hnot⟩ := hmoves
      have hstuck : hall.step lay (.goesOn env p') = hall := by
        rcases goesOn_less lay hall env p' with heq | ⟨hless, hsame⟩
        · exact heq
        · exact absurd (h.leftOf_less hless hsame) hnot
      obtain ⟨q, hwaits⟩ := stuck_waits hp hstuck
      exact ih (rank hall q) (hrank ▸ h.ordered.waits_lower hwaits) q (h.ordered.waits_busy hwaits) rfl

end Engaged

/-- Only finitely many parties are at work in a reachable state. -/
theorem engaged_reached (h : Reaches (Hall.step lay) (fun _ _ => True) .start hall) :
    ∃ parties, Engaged lay parties hall := by
  have hknown : ∃ parties : Finset Party, ∀ p, p ∉ parties → ¬ hall.Busy p := by
    refine Reaches.invariant (I := fun hall => ∃ parties : Finset Party, ∀ p, p ∉ parties →
      ¬ hall.Busy p) ?_ ?_ h
    · refine ⟨∅, fun p _ hbusy => ?_⟩
      rcases hbusy with hphase | hmem
      · cases p <;> exact hphase rfl
      · exact AList.notMem_empty _ hmem
    · rintro hall t ⟨parties, hparties⟩ _
      refine ⟨insert t.party parties, fun p hp => ?_⟩
      rw [Finset.mem_insert, not_or] at hp
      exact busy_step hp.1 (hparties p hp.2)
  obtain ⟨parties, hparties⟩ := hknown
  exact ⟨parties, ordered_reached h, hparties⟩

/-- In every reachable state a party that is at work and whose turn does nothing waits for another one,
and nobody waits in a circle; and when nothing new begins and every party has its turn again and
again, all events that have begun are completed: no lock and no guard is held, no connection is in
the middle of an event, and no walk is under way. -/
theorem events_complete (hreach : Reaches (Hall.step lay) (fun _ _ => True) .start hall)
    {schedule : ℕ → Turn} (hgoes : ∀ n, ∃ env p, schedule n = .goesOn env p)
    (hfair : Fair Turn.party schedule) :
    (∀ p env, hall.Busy p → hall.step lay (.goesOn env p) = hall → ∃ q, Waits lay hall p q) ∧
      (∀ p, ¬ Relation.TransGen (Waits lay hall) p p) ∧
      ∃ n, (along (Hall.step lay) hall schedule n).Quiet := by
  obtain ⟨parties, hengaged⟩ := engaged_reached hreach
  refine ⟨fun p env hbusy hstuck => stuck_waits hbusy hstuck, hengaged.ordered.no_circle, ?_⟩
  refine fair_finishes (InvImage.wf (leftOf lay parties) wellFounded_lt)
    (fun hall t h ht => h.step ht) (fun hall t h ht => ?_) (fun hall h => h.some_moves) hengaged
    (fun n => hgoes n) hfair
  obtain ⟨env, p, rfl⟩ := ht
  exact (goesOn_less lay hall env p).imp id fun ⟨hless, hsame⟩ => h.leftOf_less hless hsame

/-- The connections and the requests take turns: turn `n` is that of the first half of the pair that
`n` stands for. -/
def inTurn (n : ℕ) : Turn :=
  .goesOn .quiet (if n.unpair.1 % 2 = 0 then .conn (n.unpair.1 / 2) else .http (n.unpair.1 / 2))

theorem inTurn_fair : Fair Turn.party inTurn := by
  intro p n
  cases p with
  | conn conn =>
    refine ⟨Nat.pair (2 * conn) n, Nat.right_le_pair _ _, ?_⟩
    simp [inTurn, Turn.party]
  | http request =>
    refine ⟨Nat.pair (2 * request + 1) n, Nat.right_le_pair _ _, ?_⟩
    have hodd : (2 * request + 1) % 2 = 1 := by omega
    have hhalf : (2 * request + 1) / 2 = request := by omega
    simp [inTurn, Turn.party, hodd, hhalf]

/-- Connection 0 begins to leave, and connection 3 comes to wait for the registry. -/
def leaveAndWait : List Turn :=
  [turnOf 1, hears 0 (.roomControl .leave), turnOf 0, hears 3 (plainHello "" "y"), turnOf 3, turnOf 3]

/-- A room is being left, another one is about to be created, the list of rooms is asked for, and a
third connection waits for the registry: all of them come to an end. -/
theorem list_and_leave_complete :
    ∃ n, (along (Hall.step oneShard) (exec (Hall.step oneShard) listAsked leaveAndWait)
      inTurn n).Quiet := by
  have hreach : Reaches (Hall.step oneShard) (fun _ _ => True) .start listAsked := reaches_exec _ _ _
  have hmore : Reaches (Hall.step oneShard) (fun _ _ => True) .start
      (exec (Hall.step oneShard) listAsked leaveAndWait) :=
    hreach.exec ⟨trivial, trivial, trivial, trivial, trivial, trivial, trivial⟩
  exact (events_complete hmore (fun _ => ⟨_, _, rfl⟩) inTurn_fair).2.2

end Roomie.RoomScans
