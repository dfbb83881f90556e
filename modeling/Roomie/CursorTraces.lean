import Roomie.Cursors
import Mathlib.Tactic.Linarith

/-!
# Cursors that keep a record

A traced cursor reads as a cursor does, and records its calls with the positions before and after.
Without the record it is a plain cursor, so a decoder can be written again with its calls recorded
and compared with the original. A credit argument bounds the record: each byte that is consumed pays
for so many entries, and who consumes a byte for sure may use its pay in advance.
-/

namespace Cursors
open Bincode

/-! ## Cursors as another monad has them -/

/-- A map between two monads that respects what is done in them. -/
structure Hom (m n : Type → Type) [Monad m] [Monad n] where
  app : {α : Type} → m α → n α
  app_pure : ∀ {α : Type} (a : α), app (pure a) = pure a
  app_bind : ∀ {α β : Type} (x : m α) (f : α → m β),
    app (x >>= f) = app x >>= fun a => app (f a)

section
variable {m n : Type → Type} [Monad m] [Monad n] {α β : Type}

def Cursor.through (φ : Hom m n) (r : Cursor m α) : Cursor n α := fun data pos => φ.app (r data pos)

variable (φ : Hom m n)

@[simp] theorem Cursor.through_pure (a : α) : (pure a : Cursor m α).through φ = pure a := by
  funext data pos
  exact φ.app_pure _

@[simp] theorem Cursor.through_bind (r : Cursor m α) (f : α → Cursor m β) :
    (r >>= f).through φ = r.through φ >>= fun a => (f a).through φ := by
  funext data pos
  exact φ.app_bind _ _

@[simp] theorem Cursor.through_map (f : α → β) (r : Cursor m α) :
    (f <$> r).through φ = f <$> r.through φ := by
  rw [map_eq_bind, through_bind, map_eq_bind]
  simp only [through_pure]

@[simp] theorem Cursor.through_collect (r : Cursor m α) (k : ℕ) :
    (r.collect k).through φ = (r.through φ).collect k := by
  induction k with
  | zero => exact through_pure φ _
  | succ k ih =>
    funext data pos
    by_cases hpos : data.length ≤ pos
    · rw [collect_end _ _ hpos]
      change φ.app (r.collect (k + 1) data pos) = _
      rw [collect_end _ _ hpos, φ.app_pure]
    · have hpos := Nat.not_le.mp hpos
      change φ.app (r.collect (k + 1) data pos) = _
      rw [collect_more _ _ hpos, collect_more _ _ hpos, ← ih]
      have hbody : (r >>= fun a => r.collect k >>= fun as =>
          (pure (a :: as) : Cursor m (List α))).through φ =
          r.through φ >>= fun a => (r.collect k).through φ >>= fun as => pure (a :: as) := by
        simp only [through_bind, through_pure]
      exact congrFun (congrFun hbody data) pos

end

/-! ## Traced cursors -/

variable {ε ℓ κ α β : Type}

/-- A record, and how it ended. -/
def Traced (ε ℓ α : Type) : Type := List ℓ × Except ε α

instance : Monad (Traced ε ℓ) where
  pure a := ([], .ok a)
  bind x f := match x.2 with
    | .ok a => (x.1 ++ (f a).1, (f a).2)
    | .error e => (x.1, .error e)

/-- The record is left out. -/
def outcome : Hom (Traced ε ℓ) (Except ε) where
  app x := x.2
  app_pure _ := rfl
  app_bind x f := by
    obtain ⟨log, _ | a⟩ := x <;> rfl

/-- The kind of error is left out. -/
def success : Hom (Except ε) Option where
  app := Except.toOption
  app_pure _ := rfl
  app_bind x f := by
    obtain _ | a := x <;> rfl

/-- A call, where it began and, if it returned, where it ended. -/
structure Entry (κ : Type) where
  kind : κ
  before : ℕ
  after : Option ℕ
  deriving DecidableEq

abbrev Tracer (ε κ : Type) := Cursor (Traced ε (Entry κ))

/-- Where a call ended. -/
def ended : Except ε (α × ℕ) → Option ℕ
  | .ok x => some x.2
  | .error _ => none

namespace Tracer

/-- A plain cursor, without a record. -/
def silent (r : Cursor (Except ε) α) : Tracer ε κ α := fun data pos => ([], r data pos)

/-- The call is recorded behind what it calls itself. -/
def logged (k : κ) (r : Tracer ε κ α) : Tracer ε κ α := fun data pos =>
  ((r data pos).1 ++ [⟨k, pos, ended (r data pos).2⟩], (r data pos).2)

@[simp] theorem through_silent (r : Cursor (Except ε) α) :
    (silent r : Tracer ε κ α).through outcome = r := rfl

@[simp] theorem through_logged (k : κ) (r : Tracer ε κ α) :
    (logged k r).through outcome = r.through outcome := rfl

theorem bind_ok {r : Tracer ε κ α} (f : α → Tracer ε κ β) {data : Bytes} {pos : ℕ}
    {log : List (Entry κ)} {a : α} {p : ℕ} (h : r data pos = (log, .ok (a, p))) :
    (r >>= f) data pos = (log ++ (f a data p).1, (f a data p).2) := by
  rw [Cursor.bind_apply, h]
  rfl

theorem bind_error {r : Tracer ε κ α} (f : α → Tracer ε κ β) {data : Bytes} {pos : ℕ}
    {log : List (Entry κ)} {e : ε} (h : r data pos = (log, .error e)) :
    (r >>= f) data pos = (log, .error e) := by
  rw [Cursor.bind_apply, h]
  rfl

/-- A recursive cursor, by what it does at the bottom and what one call makes of the next deeper. -/
def nest (base : Tracer ε κ α) (call : ℕ → Tracer ε κ α → Tracer ε κ α) : ℕ → Tracer ε κ α
  | 0 => base
  | room + 1 => call room (nest base call room)

theorem nest_succ (base : Tracer ε κ α) (call : ℕ → Tracer ε κ α → Tracer ε κ α) (room : ℕ) :
    nest base call (room + 1) = call room (nest base call room) := rfl

end Tracer

/-! ## What a record costs -/

/-- What is asked of the entries of a record, given the size of the data: something of every entry,
and more of each as long as all of them are honest. -/
structure Policy (κ : Type) where
  honest : Entry κ → Prop
  always : ℕ → Entry κ → Prop
  good : ℕ → Entry κ → Prop

/-- Where reading stopped; after an error nothing is left to be read. -/
def stop (data : Bytes) : Except ε (α × ℕ) → ℕ
  | .ok x => x.2
  | .error _ => data.length

/-- A value that the cursor yields somewhere. -/
def Returns (r : Tracer ε κ α) (v : α) : Prop := ∃ data pos p, (r data pos).2 = .ok (v, p)

/-- One reading that stays in the data and, where it is honest, goes forward, fails only with at
least `k` bytes to come, and has a record paid by `B` for each byte consumed and `a` beside that,
or `a'` at the end of the data. -/
structure Paid (P : Policy κ) (B : ℤ) (k : ℕ) (a a' : ℤ) (data : Bytes) (pos : ℕ)
    (x : Traced ε (Entry κ) (α × ℕ)) : Prop where
  inside : stop data x.2 ≤ data.length
  always : ∀ e ∈ x.1, P.always data.length e
  good : (∀ e ∈ x.1, P.honest e) → ∀ e ∈ x.1, P.good data.length e
  forward : (∀ e ∈ x.1, P.honest e) → pos ≤ stop data x.2
  deep : (∀ e ∈ x.1, P.honest e) → ∀ e, x.2 = .error e → k ≤ data.length - pos
  cheap : (∀ e ∈ x.1, P.honest e) →
    (x.1.length : ℤ) ≤ (if pos < data.length then a else a') + B * (stop data x.2 - pos)

def Pays (P : Policy κ) (L : ℕ) (B : ℤ) (k : ℕ) (a a' : ℤ) (r : Tracer ε κ α) : Prop :=
  ∀ data pos, data.length ≤ L → pos ≤ data.length → Paid P B k a a' data pos (r data pos)

section
variable {P : Policy κ} {L k : ℕ} {B a a' c c' : ℤ} {r : Tracer ε κ α}

theorem Pays.pure (v : α) : Pays P L B k 0 0 (pure v : Tracer ε κ α) := by
  intro data pos _ hpos
  refine ⟨hpos, (fun e he => by cases he), (fun _ e he => by cases he), fun _ => le_rfl,
    (fun _ e he => by cases he), fun _ => ?_⟩
  change (0 : ℤ) ≤ (if pos < data.length then 0 else 0) + B * ((pos : ℤ) - pos)
  split_ifs <;> simp

/-- Who is in debt got ahead: a record is not shorter than nothing. -/
theorem Paid.ahead {data : Bytes} {pos : ℕ} {x : Traced ε (Entry κ) (α × ℕ)} {y : α × ℕ}
    (h : Paid P B k a a' data pos x) (hh : ∀ e ∈ x.1, P.honest e) (ha : a < 0)
    (hlt : pos < data.length) (hx : x.2 = .ok y) : pos < y.2 := by
  have hforward := h.forward hh
  have hcheap := h.cheap hh
  rw [hx] at hforward hcheap
  refine lt_of_le_of_ne hforward fun heq => ?_
  rw [if_pos hlt, show stop data (Except.ok y : Except ε (α × ℕ)) = y.2 from rfl, ← heq,
    sub_self, mul_zero] at hcheap
  omega

theorem Pays.weaken_depth {k' : ℕ} (h : Pays P L B k a a' r) (hk : k' ≤ k) :
    Pays P L B k' a a' r := by
  intro data pos hL hpos
  have hpaid := h data pos hL hpos
  exact ⟨hpaid.inside, hpaid.always, hpaid.good, hpaid.forward,
    fun hh e he => Nat.le_trans hk (hpaid.deep hh e he), hpaid.cheap⟩

theorem Pays.weaken (h : Pays P L B k a a' r) (ha : a ≤ c) (ha' : a' ≤ c') :
    Pays P L B k c c' r := by
  intro data pos hL hpos
  have hpaid := h data pos hL hpos
  refine ⟨hpaid.inside, hpaid.always, hpaid.good, hpaid.forward, hpaid.deep, fun hh => ?_⟩
  have hcheap := hpaid.cheap hh
  split_ifs at hcheap ⊢ <;> linarith

/-- The second part is paid by what the first leaves unread. -/
theorem Pays.bind {f : α → Tracer ε κ β} (h : Pays P L B k a a' r)
    (h' : ∀ v, Returns r v → Pays P L B k c c' (f v)) (hc : c ≤ c') (hc' : 0 ≤ c') :
    Pays P L B k (a + c') (a' + c') (r >>= f) := by
  intro data pos hL hpos
  have hfirst := h data pos hL hpos
  cases hx : r data pos with
  | mk log result =>
    rw [hx] at hfirst
    cases result with
    | error e =>
      rw [Tracer.bind_error f hx]
      refine ⟨hfirst.inside, hfirst.always, hfirst.good, hfirst.forward, ?_, fun hh => ?_⟩
      · rintro hh e ⟨⟩
        exact hfirst.deep hh _ rfl
      · have hcheap := hfirst.cheap hh
        change (log.length : ℤ) ≤ _ + B * ((data.length : ℤ) - pos) at hcheap ⊢
        split_ifs at hcheap ⊢ <;> linarith
    | ok y =>
      obtain ⟨v, p⟩ := y
      have hp : p ≤ data.length := hfirst.inside
      have hsecond := h' v ⟨data, pos, p, by rw [hx]⟩ data p hL hp
      rw [Tracer.bind_ok f hx]
      have hsplit : (∀ e ∈ log ++ (f v data p).1, P.honest e) →
          (∀ e ∈ log, P.honest e) ∧ ∀ e ∈ (f v data p).1, P.honest e :=
        List.forall_mem_append.mp
      refine ⟨hsecond.inside, List.forall_mem_append.mpr ⟨hfirst.always, hsecond.always⟩, ?_, ?_,
        ?_, ?_⟩
      · intro hh
        exact List.forall_mem_append.mpr
          ⟨hfirst.good (hsplit hh).1, hsecond.good (hsplit hh).2⟩
      · intro hh
        exact Nat.le_trans (hfirst.forward (hsplit hh).1) (hsecond.forward (hsplit hh).2)
      · intro hh e he
        have hforward : pos ≤ p := hfirst.forward (hsplit hh).1
        have hdeep := hsecond.deep (hsplit hh).2 e he
        omega
      · intro hh
        have hone := hfirst.cheap (hsplit hh).1
        have htwo := hsecond.cheap (hsplit hh).2
        change (log.length : ℤ) ≤ _ + B * ((p : ℤ) - pos) at hone
        rw [List.length_append]
        push_cast
        split_ifs at hone htwo ⊢ <;> linarith

/-- The second part costs the same wherever it begins. -/
theorem Pays.next {f : α → Tracer ε κ β} (h : Pays P L B k a a' r)
    (h' : ∀ v, Pays P L B k c c (f v)) (hc : 0 ≤ c) : Pays P L B k (a + c) (a' + c) (r >>= f) :=
  h.bind (fun v _ => h' v) le_rfl hc

theorem Pays.map (h : Pays P L B k a a' r) (f : α → β) : Pays P L B k a a' (f <$> r) := by
  rw [Cursor.map_eq_bind]
  exact (h.bind (fun v _ => Pays.pure (f v)) le_rfl le_rfl).weaken (by simp) (by simp)

theorem Pays.discard (h : Pays P L B k a a' r) : Pays P L B k a a' (discard r) :=
  h.map (Function.const α ())

/-- A call that gets ahead leaves less for the second part to fail on. -/
theorem Pays.bind_deeper {f : α → Tracer ε κ β} (h : Pays P L B (k + 1) a a' r) (ha : a < 0)
    (h' : ∀ v, Returns r v → Pays P L B k c c' (f v)) (hc : c ≤ c') (hc' : 0 ≤ c')
    (hend : ∀ data e, data.length ≤ L → ((r >>= f) data data.length).2 ≠ .error e) :
    Pays P L B (k + 1) (a + c') (a' + c') (r >>= f) := by
  intro data pos hL hpos
  have hpaid := (h.weaken_depth (Nat.le_succ k)).bind h' hc hc' data pos hL hpos
  refine ⟨hpaid.inside, hpaid.always, hpaid.good, hpaid.forward, fun hh e he => ?_, hpaid.cheap⟩
  have hlt : pos < data.length := by
    refine lt_of_le_of_ne hpos fun heq => ?_
    subst heq
    exact hend data e hL he
  have hfirst := h data pos hL hpos
  cases hx : r data pos with
  | mk log result =>
    rw [hx] at hfirst
    cases result with
    | error e' =>
      rw [Tracer.bind_error f hx] at hh
      exact hfirst.deep hh e' rfl
    | ok y =>
      obtain ⟨v, p⟩ := y
      rw [Tracer.bind_ok f hx] at hh he
      obtain ⟨hlog, hrest⟩ := List.forall_mem_append.mp hh
      have hp : p ≤ data.length := hfirst.inside
      have hahead := hfirst.ahead hlog ha hlt rfl
      have hdeep := (h' v ⟨data, pos, p, by rw [hx]⟩ data p hL hp).deep hrest e he
      omega

/-- A call is one entry more. It got ahead if it had to be paid by what it consumed. -/
theorem Pays.logged {κ₀ : κ} (h : Pays P L B k a a' r)
    (halways : ∀ size pos q, pos ≤ size → P.always size ⟨κ₀, pos, q⟩)
    (hgood : ∀ size pos q, pos ≤ size →
      (∀ p ∈ q, pos ≤ p ∧ p ≤ size ∧ (a < 0 → pos < size → pos < p)) → P.good size ⟨κ₀, pos, q⟩) :
    Pays P L B k (a + 1) (a' + 1) (Tracer.logged κ₀ r) := by
  intro data pos hL hpos
  have hpaid := h data pos hL hpos
  have hhonest : (∀ e ∈ (Tracer.logged κ₀ r data pos).1, P.honest e) →
      ∀ e ∈ (r data pos).1, P.honest e := fun hh => (List.forall_mem_append.mp hh).1
  refine ⟨hpaid.inside, ?_, fun hh => ?_, fun hh => hpaid.forward (hhonest hh),
    fun hh => hpaid.deep (hhonest hh), fun hh => ?_⟩
  · refine List.forall_mem_append.mpr ⟨hpaid.always, fun e he => ?_⟩
    rw [List.mem_singleton.mp he]
    exact halways _ _ _ hpos
  · refine List.forall_mem_append.mpr ⟨hpaid.good (hhonest hh), fun e he => ?_⟩
    rw [List.mem_singleton.mp he]
    refine hgood _ _ _ hpos fun p hp => ?_
    have hforward := hpaid.forward (hhonest hh)
    have hinside := hpaid.inside
    cases hx : (r data pos).2 with
    | error e =>
      rw [hx] at hp
      cases hp
    | ok y =>
      rw [hx] at hp hforward hinside
      obtain rfl : y.2 = p := Option.some.inj hp
      exact ⟨hforward, hinside, fun ha hlt => hpaid.ahead (hhonest hh) ha hlt hx⟩
  · have hcheap := hpaid.cheap (hhonest hh)
    change (((r data pos).1 ++ [_]).length : ℤ) ≤ _ + B * ((stop data (r data pos).2 : ℤ) - pos)
    rw [List.length_append, List.length_singleton]
    push_cast
    split_ifs at hcheap ⊢ <;> linarith

/-- A list whose entries are paid by what they consume. -/
theorem Pays.collect (h : Pays P L B k 0 c' r) (n : ℕ) :
    Pays P L B k 0 0 (r.collect n) := by
  induction n with
  | zero => exact .pure []
  | succ n ih =>
    intro data pos hL hpos
    by_cases hend : data.length ≤ pos
    · rw [Cursor.collect_end _ _ hend]
      exact Pays.pure [] data pos hL hpos
    · have hmore := Nat.not_le.mp hend
      rw [Cursor.collect_more _ _ hmore]
      have hrest : ∀ v, Pays P L B k 0 0
          (r.collect n >>= fun vs => (Pure.pure (v :: vs) : Tracer ε κ (List α))) := fun v =>
        (ih.bind (fun vs _ => Pays.pure (v :: vs)) le_rfl le_rfl).weaken (by simp) (by simp)
      have hbody := h.bind (fun v _ => hrest v) le_rfl le_rfl data pos hL hpos
      refine ⟨hbody.inside, hbody.always, hbody.good, hbody.forward, hbody.deep, fun hh => ?_⟩
      have hcheap := hbody.cheap hh
      rw [if_pos hmore] at hcheap ⊢
      simpa using hcheap

end

/-! ## What a record tells of a failure -/

/-- What is asked of the entries of a record, given the size of the data: something of every entry,
and that those which are not honest are to blame for the errors which are bad. -/
structure Blame (ε κ : Type) where
  honest : Entry κ → Prop
  always : ℕ → Entry κ → Prop
  bad : ε → Prop

/-- One reading that stays in the data and ends badly exactly if some entry is not honest. -/
structure Blamed (P : Blame ε κ) (data : Bytes) (x : Traced ε (Entry κ) (α × ℕ)) : Prop where
  inside : stop data x.2 ≤ data.length
  always : ∀ e ∈ x.1, P.always data.length e
  blames : (∀ f, x.2 = .error f → ¬ P.bad f) ↔ ∀ e ∈ x.1, P.honest e

def Blames (P : Blame ε κ) (L : ℕ) (r : Tracer ε κ α) : Prop :=
  ∀ data pos, data.length ≤ L → pos ≤ data.length → Blamed P data (r data pos)

section
variable {P : Blame ε κ} {L : ℕ} {r : Tracer ε κ α}

theorem Blames.pure (v : α) : Blames P L (pure v : Tracer ε κ α) := by
  intro data pos _ hpos
  refine ⟨hpos, (fun e he => by cases he), iff_of_true (fun f hf => by cases hf) fun e he => ?_⟩
  cases he

theorem Blames.bind {f : α → Tracer ε κ β} (h : Blames P L r) (h' : ∀ v, Blames P L (f v)) :
    Blames P L (r >>= f) := by
  intro data pos hL hpos
  have hfirst := h data pos hL hpos
  cases hx : r data pos with
  | mk log result =>
    rw [hx] at hfirst
    cases result with
    | error e =>
      rw [Tracer.bind_error f hx]
      refine ⟨hfirst.inside, hfirst.always, Iff.trans ⟨?_, ?_⟩ hfirst.blames⟩
      · rintro hgood _ ⟨⟩
        exact hgood e rfl
      · rintro hgood _ ⟨⟩
        exact hgood e rfl
    | ok y =>
      obtain ⟨v, p⟩ := y
      have hsecond := h' v data p hL hfirst.inside
      have hlog : ∀ e ∈ log, P.honest e := hfirst.blames.mp fun f hf => by cases hf
      rw [Tracer.bind_ok f hx]
      refine ⟨hsecond.inside, List.forall_mem_append.mpr ⟨hfirst.always, hsecond.always⟩, ?_⟩
      rw [hsecond.blames, List.forall_mem_append]
      exact ⟨fun hrest => ⟨hlog, hrest⟩, And.right⟩

theorem Blames.map (h : Blames P L r) (f : α → β) : Blames P L (f <$> r) := by
  rw [Cursor.map_eq_bind]
  exact h.bind fun v => .pure (f v)

theorem Blames.discard (h : Blames P L r) : Blames P L (discard r) :=
  h.map (Function.const α ())

theorem Blames.collect (h : Blames P L r) (n : ℕ) : Blames P L (r.collect n) := by
  induction n with
  | zero => exact .pure []
  | succ n ih =>
    intro data pos hL hpos
    by_cases hend : data.length ≤ pos
    · rw [Cursor.collect_end _ _ hend]
      exact Blames.pure [] data pos hL hpos
    · rw [Cursor.collect_more _ _ (Nat.not_le.mp hend)]
      exact h.bind (fun v => ih.bind fun vs => .pure (v :: vs)) data pos hL hpos

/-- A call that is never to blame itself. -/
theorem Blames.logged {k : κ} (h : Blames P L r) (halways : ∀ size pos q, P.always size ⟨k, pos, q⟩)
    (hhonest : ∀ pos q, P.honest ⟨k, pos, q⟩) : Blames P L (Tracer.logged k r) := by
  intro data pos hL hpos
  have hcall := h data pos hL hpos
  refine ⟨hcall.inside, List.forall_mem_append.mpr ⟨hcall.always, ?_⟩, ?_⟩
  · intro e he
    rw [List.mem_singleton.mp he]
    exact halways _ _ _
  · have hlast : ∀ e ∈ [(⟨k, pos, ended (r data pos).2⟩ : Entry κ)], P.honest e := by
      intro e he
      rw [List.mem_singleton.mp he]
      exact hhonest _ _
    refine hcall.blames.trans ?_
    exact ⟨fun hlog => List.forall_mem_append.mpr ⟨hlog, hlast⟩,
      fun hall => (List.forall_mem_append.mp hall).1⟩

/-- A plain cursor, with one entry for it. -/
theorem Blames.primitive {k : κ} {s : Cursor (Except ε) α}
    (hok : ∀ data pos v p, data.length ≤ L → pos ≤ data.length → s data pos = .ok (v, p) →
      p ≤ data.length ∧ P.always data.length ⟨k, pos, some p⟩ ∧ P.honest ⟨k, pos, some p⟩)
    (herror : ∀ data pos f, data.length ≤ L → pos ≤ data.length → s data pos = .error f →
      P.always data.length ⟨k, pos, none⟩ ∧ (¬ P.bad f ↔ P.honest ⟨k, pos, none⟩)) :
    Blames P L (Tracer.logged k (Tracer.silent s)) := by
  intro data pos hL hpos
  have hrun : Tracer.logged k (Tracer.silent s) data pos =
      ([⟨k, pos, ended (s data pos)⟩], s data pos) := rfl
  rw [hrun]
  cases hs : s data pos with
  | ok y =>
    obtain ⟨v, p⟩ := y
    obtain ⟨hp, halways, hhonest⟩ := hok data pos v p hL hpos hs
    refine ⟨hp, ?_, iff_of_true (fun f hf => by cases hf) ?_⟩
    · exact List.forall_mem_singleton.mpr halways
    · exact List.forall_mem_singleton.mpr hhonest
  | error f =>
    obtain ⟨halways, hblame⟩ := herror data pos f hL hpos hs
    refine ⟨le_rfl, List.forall_mem_singleton.mpr halways, ?_⟩
    refine Iff.trans ?_ (hblame.trans List.forall_mem_singleton.symm)
    exact ⟨fun hgood => hgood f rfl, fun hgood f' hf => by cases hf; exact hgood⟩

end
end Cursors
