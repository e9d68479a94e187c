import Efiks.Lib.RustM

/-!
# More checked operations

Multiplication on a `usize`, arithmetic on a `u32`, indexing with a bound, and the two
ways of going on after a `Result`: looking at it and dropping it. `embed` runs a
computation inside one that must still have its state after a panic.

## Main definitions

* `mulUsize`, `addU32`, `subU32` — checked arithmetic.
* `inBounds` — the check of an index or a range end.
* `attempt`, `ignoreErr` — `match m { .. }` and `let _ = m`.
* `embed` — a computation on a component, whose panics are errors outside.
-/
namespace Efiks.Lib.RustM

variable {σ ε α : Type}

/-- `a * b` on a `usize`, checked. -/
def mulUsize (a b : ℕ) : RustM σ ε ℕ := if a * b < 2 ^ 64 then pure (a * b) else panic .overflow

/-- `a + b` on a `u32`, checked. -/
def addU32 (a b : UInt32) : RustM σ ε UInt32 :=
  if a.toNat + b.toNat < 2 ^ 32 then pure (a + b) else panic .overflow

/-- `a - b` on a `u32`, checked. -/
def subU32 (a b : UInt32) : RustM σ ε UInt32 :=
  if b.toNat ≤ a.toNat then pure (a - b) else panic .overflow

/-- The bounds check of an access that ends at `stop` in a slice of `len` elements. -/
def inBounds (stop len : ℕ) : RustM σ ε Unit :=
  if stop ≤ len then pure () else panic (.explicit "index out of bounds")

/-- The result of `m` as a value. -/
def attempt (m : RustM σ ε α) : RustM σ ε (Except ε α) := fun s =>
  match m s with
  | .ok a s' => .ok (.ok a) s'
  | .err e s' => .ok (.error e) s'
  | .panic p => .panic p

/-- `let _ = m`. -/
def ignoreErr (m : RustM σ ε α) : RustM σ ε Unit := fun s =>
  match m s with
  | .ok _ s' => .ok () s'
  | .err _ s' => .ok () s'
  | .panic p => .panic p

/-- Run a computation on a component of a larger state, inside one with errors of its own.
A panic is one of these errors, and it leaves the larger state as it was. -/
def embed {τ ε' : Type} (get : τ → σ) (set : σ → τ → τ) (onErr : ε → ε') (onPanic : Panic → ε')
    (m : RustM σ ε α) : RustM τ ε' α := fun t =>
  match m (get t) with
  | .ok a s => .ok a (set s t)
  | .err e s => .err (onErr e) (set s t)
  | .panic p => .err (onPanic p) t

section Rules
variable {E : ε → σ → Prop} {N : Panic → Prop} {s : σ}

@[simp] theorem wp_embed {τ ε' : Type} (get : τ → σ) (set : σ → τ → τ) (onErr : ε → ε')
    (onPanic : Panic → ε') (m : RustM σ ε α) {Q : α → τ → Prop} {E : ε' → τ → Prop} {t : τ} :
    wp (embed get set onErr onPanic m) Q E N t ↔
      wp m (fun a s => Q a (set s t)) (fun e s => E (onErr e) (set s t))
        (fun p => E (onPanic p) t) (get t) := by
  unfold wp embed
  cases m (get t) <;> rfl

@[simp] theorem wp_mulUsize {Q : ℕ → σ → Prop} (a b : ℕ) :
    wp (mulUsize a b : RustM σ ε ℕ) Q E N s ↔
      (a * b < 2 ^ 64 → Q (a * b) s) ∧ (2 ^ 64 ≤ a * b → N .overflow) := by
  rw [mulUsize, wp_ite, wp_pure, wp_panic, Nat.not_lt]

@[simp] theorem wp_addU32 {Q : UInt32 → σ → Prop} (a b : UInt32) :
    wp (addU32 a b : RustM σ ε UInt32) Q E N s ↔
      (a.toNat + b.toNat < 2 ^ 32 → Q (a + b) s) ∧ (2 ^ 32 ≤ a.toNat + b.toNat → N .overflow) := by
  rw [addU32, wp_ite, wp_pure, wp_panic, Nat.not_lt]

@[simp] theorem wp_subU32 {Q : UInt32 → σ → Prop} (a b : UInt32) :
    wp (subU32 a b : RustM σ ε UInt32) Q E N s ↔
      (b.toNat ≤ a.toNat → Q (a - b) s) ∧ (a.toNat < b.toNat → N .overflow) := by
  rw [subU32, wp_ite, wp_pure, wp_panic, Nat.not_le]

@[simp] theorem wp_inBounds {Q : Unit → σ → Prop} (stop len : ℕ) :
    wp (inBounds stop len : RustM σ ε Unit) Q E N s ↔
      (stop ≤ len → Q () s) ∧ (len < stop → N (.explicit "index out of bounds")) := by
  rw [inBounds, wp_ite, wp_pure, wp_panic, Nat.not_le]

@[simp] theorem wp_attempt {Q : Except ε α → σ → Prop} (m : RustM σ ε α) :
    wp (attempt m) Q E N s ↔
      wp m (fun a s' => Q (.ok a) s') (fun e s' => Q (.error e) s') N s := by
  unfold wp attempt
  cases m s <;> rfl

@[simp] theorem wp_ignoreErr {Q : Unit → σ → Prop} (m : RustM σ ε α) :
    wp (ignoreErr m) Q E N s ↔ wp m (fun _ s' => Q () s') (fun _ s' => Q () s') N s := by
  unfold wp ignoreErr
  cases m s <;> rfl

/-- A computation that can neither fail nor panic returns. -/
theorem exists_ok_of_wp {Q : α → σ → Prop} {m : RustM σ ε α}
    (h : wp m Q (fun _ _ => False) (fun _ => False) s) : ∃ a s', m s = .ok a s' ∧ Q a s' := by
  unfold wp at h
  cases hm : m s with
  | ok a s' => exact ⟨a, s', rfl, by simpa [hm] using h⟩
  | err e s' => simp [hm] at h
  | panic p => simp [hm] at h

/-- A computation that can neither return nor panic fails. -/
theorem exists_err_of_wp {E : ε → σ → Prop} {m : RustM σ ε α}
    (h : wp m (fun _ _ => False) E (fun _ => False) s) : ∃ e s', m s = .err e s' ∧ E e s' := by
  unfold wp at h
  cases hm : m s with
  | ok a s' => simp [hm] at h
  | err e s' => exact ⟨e, s', rfl, by simpa [hm] using h⟩
  | panic p => simp [hm] at h

/-- A computation that can neither return nor fail panics. -/
theorem exists_panic_of_wp {N : Panic → Prop} {m : RustM σ ε α}
    (h : wp m (fun _ _ => False) (fun _ _ => False) N s) : ∃ p, m s = .panic p ∧ N p := by
  unfold wp at h
  cases hm : m s with
  | ok a s' => simp [hm] at h
  | err e s' => simp [hm] at h
  | panic p => exact ⟨p, rfl, by simpa [hm] using h⟩

end Rules

end Efiks.Lib.RustM
