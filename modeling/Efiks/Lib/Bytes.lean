import Mathlib

/-!
# Byte-addressed memory

A memory is a function from addresses to bytes. `blit` overwrites a range, and
`load`/`store` read and write little-endian integers of a given width. The frame
lemmas say which addresses a write leaves alone; every layout proof about headers,
inode records or directory entries goes through them.

## Main definitions

* `blit m a n f` — bytes `a .. a + n` replaced by `f 0 .. f (n - 1)`.
* `load m a n`, `store m a n v` — the `n`-byte little-endian integer at `a`.
* `overwrite m addr n buf` — the byte at `addr i` replaced by `buf i`, for `i < n`.
-/
namespace Efiks.Lib

/-- A byte-addressed memory. -/
abbrev Mem := ℕ → UInt8

namespace Mem

/-- Overwrite `n` bytes from address `a` on with `f 0, f 1, …`. -/
def blit (m : Mem) (a n : ℕ) (f : ℕ → UInt8) : Mem :=
  fun x => if a ≤ x ∧ x < a + n then f (x - a) else m x

/-- The `n`-byte little-endian integer at address `a`. -/
def load (m : Mem) (a : ℕ) : ℕ → ℕ
  | 0 => 0
  | n + 1 => (m a).toNat + 256 * load m (a + 1) n

/-- The `i`-th little-endian digit of `v`. -/
def digit (v i : ℕ) : UInt8 := UInt8.ofNat (v / 256 ^ i)

/-- Write `v` as an `n`-byte little-endian integer at address `a`. -/
def store (m : Mem) (a n v : ℕ) : Mem := blit m a n (digit v)

variable {m w : Mem} {a b n k v : ℕ}

theorem blit_of_mem {f : ℕ → UInt8} {x : ℕ} (h : a ≤ x) (h' : x < a + n) :
    blit m a n f x = f (x - a) := by simp [blit, h, h']

theorem blit_of_notMem {f : ℕ → UInt8} {x : ℕ} (h : x < a ∨ a + n ≤ x) :
    blit m a n f x = m x := by
  have : ¬ (a ≤ x ∧ x < a + n) := by omega
  simp [blit, this]

theorem store_of_notMem {x : ℕ} (h : x < a ∨ a + n ≤ x) : store m a n v x = m x :=
  blit_of_notMem h

@[simp] theorem toNat_digit (v i : ℕ) : (digit v i).toNat = v / 256 ^ i % 256 := by
  simp [digit]

/-- Two writes that follow each other are one. -/
theorem blit_append {f g : ℕ → UInt8} (h : ∀ i < k, g i = f (n + i)) :
    (blit m a n f).blit (a + n) k g = blit m a (n + k) f := by
  funext x
  by_cases hlow : x < a ∨ a + n + k ≤ x
  · rw [blit_of_notMem (by omega), blit_of_notMem (by omega), blit_of_notMem (by omega)]
  · rw [not_or, not_lt, not_le] at hlow
    rw [blit_of_mem hlow.1 (by omega)]
    by_cases hmid : x < a + n
    · rw [blit_of_notMem (by omega), blit_of_mem hlow.1 hmid]
    · rw [blit_of_mem (by omega) (by omega), h _ (by omega)]
      congr 1
      omega

theorem blit_congr {f g : ℕ → UInt8} (h : ∀ i < n, f i = g i) : blit m a n f = blit m a n g := by
  funext x
  by_cases hx : a ≤ x ∧ x < a + n
  · rw [blit_of_mem hx.1 hx.2, blit_of_mem hx.1 hx.2, h _ (by omega)]
  · rw [blit_of_notMem (by omega), blit_of_notMem (by omega)]

@[simp] theorem blit_zero (m : Mem) (a : ℕ) (f : ℕ → UInt8) : blit m a 0 f = m := by
  funext x
  exact blit_of_notMem (by omega)

/-- Two loads of the same bytes agree. -/
theorem load_eq_load : ∀ {n a b : ℕ}, (∀ i < n, m (a + i) = w (b + i)) → load m a n = load w b n
  | 0, _, _, _ => rfl
  | n + 1, a, b, h => by
    have hhead : m a = w b := by simpa using h 0 (by omega)
    have htail : load m (a + 1) n = load w (b + 1) n := load_eq_load fun i hi => by
      have := h (i + 1) (by omega)
      rwa [Nat.add_assoc, Nat.add_assoc, Nat.add_comm 1 i]
    rw [load, load, hhead, htail]

/-- A load only looks at its own bytes. -/
theorem load_congr (h : ∀ x, a ≤ x → x < a + n → m x = w x) : load m a n = load w a n :=
  load_eq_load fun i hi => h (a + i) (by omega) (by omega)

theorem load_lt (m : Mem) : ∀ n a : ℕ, load m a n < 256 ^ n
  | 0, _ => by simp [load]
  | n + 1, a => by
    have hhead := (m a).toNat_lt
    have htail := load_lt m n (a + 1)
    rw [load, pow_succ]
    omega

theorem load_eq_of_digits : ∀ {n a v : ℕ}, (∀ i < n, m (a + i) = digit v i) →
    load m a n = v % 256 ^ n
  | 0, _, _, _ => by simp [load, Nat.mod_one]
  | n + 1, a, v, h => by
    have hhead : m a = digit v 0 := by simpa using h 0 (by omega)
    have htail : load m (a + 1) n = v / 256 % 256 ^ n := by
      apply load_eq_of_digits
      intro i hi
      have := h (i + 1) (by omega)
      rw [show a + 1 + i = a + (i + 1) by omega, this, digit, digit, pow_succ',
        Nat.div_div_eq_div_mul]
    rw [load, hhead, htail, toNat_digit, pow_zero, Nat.div_one, pow_succ', Nat.mod_mul]

/-- Reading back what was stored. -/
theorem load_store_same (m : Mem) (a n v : ℕ) : load (store m a n v) a n = v % 256 ^ n := by
  apply load_eq_of_digits
  intro i hi
  rw [store, blit_of_mem (by omega) (by omega), Nat.add_sub_cancel_left]

/-- A load outside the stored range does not see the store. -/
theorem load_store_of_disjoint (h : a + n ≤ b ∨ b + k ≤ a) :
    load (store m b k v) a n = load m a n := by
  apply load_congr
  intro x hx hx'
  exact store_of_notMem (by omega)

theorem load_blit_of_disjoint {f : ℕ → UInt8} (h : a + n ≤ b ∨ b + k ≤ a) :
    load (blit m b k f) a n = load m a n := by
  apply load_congr
  intro x hx hx'
  exact blit_of_notMem (by omega)

section Overwrite
variable {buf : ℕ → UInt8} {addr : ℕ → ℕ} {i : ℕ}

/-- The bytes at `addr 0, …, addr (n - 1)` replaced by those of `buf`. -/
def overwrite (m : Mem) (addr : ℕ → ℕ) (n : ℕ) (buf : ℕ → UInt8) : Mem := fun a =>
  match (List.range n).find? (fun i => addr i = a) with
  | some i => buf i
  | none => m a

theorem overwrite_of_ne {a : ℕ} (h : ∀ i < n, addr i ≠ a) :
    overwrite m addr n buf a = m a := by
  have hnone : (List.range n).find? (fun i => addr i = a) = none := by
    rw [List.find?_eq_none]
    intro i hi
    simpa using h i (List.mem_range.mp hi)
  rw [overwrite, hnone]

theorem overwrite_at (hinj : ∀ i < n, ∀ j < n, addr i = addr j → i = j) (hi : i < n) :
    overwrite m addr n buf (addr i) = buf i := by
  have hsome : (List.range n).find? (fun j => addr j = addr i) = some i := by
    cases hfind : (List.range n).find? (fun j => addr j = addr i) with
    | none =>
      rw [List.find?_eq_none] at hfind
      exact absurd (decide_eq_true rfl) (hfind i (List.mem_range.mpr hi))
    | some j =>
      have hj := List.find?_some hfind
      have hjn := List.mem_range.mp (List.mem_of_find?_eq_some hfind)
      rw [hinj j hjn i hi (by simpa using hj)]
  rw [overwrite, hsome]

@[simp] theorem overwrite_zero (m : Mem) (addr : ℕ → ℕ) (buf : ℕ → UInt8) :
    overwrite m addr 0 buf = m := by
  funext a
  exact overwrite_of_ne fun i hi => absurd hi (Nat.not_lt_zero i)

/-- Only the places that are written matter. -/
theorem overwrite_congr {addr' : ℕ → ℕ} (h : ∀ i < n, addr' i = addr i) :
    overwrite m addr' n buf = overwrite m addr n buf := by
  funext a
  have hfind : (List.range n).find? (fun i => addr' i = a) =
      (List.range n).find? (fun i => addr i = a) :=
    List.find?_congr fun i hi => by rw [h i (List.mem_range.mp hi)]
  rw [overwrite, overwrite, hfind]

/-- One more run of consecutive places. -/
theorem blit_overwrite (hinj : ∀ i < n + k, ∀ j < n + k, addr i = addr j → i = j)
    (hrun : ∀ i < k, addr (n + i) = addr n + i) :
    (overwrite m addr n buf).blit (addr n) k (fun i => buf (n + i)) =
      overwrite m addr (n + k) buf := by
  funext a
  by_cases hnew : addr n ≤ a ∧ a < addr n + k
  · obtain ⟨j, rfl⟩ : ∃ j, a = addr n + j := ⟨a - addr n, by omega⟩
    have hj : j < k := by omega
    rw [blit_of_mem hnew.1 hnew.2, Nat.add_sub_cancel_left, ← hrun j hj,
      overwrite_at hinj (by omega)]
  · rw [blit_of_notMem (by omega)]
    by_cases hold : ∃ i < n, addr i = a
    · obtain ⟨i, hi, rfl⟩ := hold
      rw [overwrite_at (fun i hi j hj => hinj i (by omega) j (by omega)) hi,
        overwrite_at hinj (by omega)]
    · have hne : ∀ i < n, addr i ≠ a := fun i hi heq => hold ⟨i, hi, heq⟩
      rw [overwrite_of_ne hne, overwrite_of_ne]
      intro i hi heq
      by_cases hin : i < n
      · exact hne i hin heq
      · have := hrun (i - n) (by omega)
        rw [Nat.add_sub_cancel' (Nat.not_lt.mp hin), heq] at this
        omega

/-- Writes to different places commute. -/
theorem overwrite_comm {addr' : ℕ → ℕ} {n' : ℕ} {buf' : ℕ → UInt8}
    (hinj : ∀ i < n, ∀ j < n, addr i = addr j → i = j)
    (hinj' : ∀ i < n', ∀ j < n', addr' i = addr' j → i = j)
    (happart : ∀ i < n, ∀ j < n', addr i ≠ addr' j) :
    overwrite (overwrite m addr n buf) addr' n' buf' =
      overwrite (overwrite m addr' n' buf') addr n buf := by
  funext a
  by_cases h : ∃ i < n, addr i = a
  · obtain ⟨i, hi, rfl⟩ := h
    rw [overwrite_of_ne fun j hj heq => happart i hi j hj heq.symm, overwrite_at hinj hi,
      overwrite_at hinj hi]
  · have hne : ∀ i < n, addr i ≠ a := fun i hi heq => h ⟨i, hi, heq⟩
    rw [overwrite_of_ne hne]
    by_cases h' : ∃ j < n', addr' j = a
    · obtain ⟨j, hj, rfl⟩ := h'
      rw [overwrite_at hinj' hj, overwrite_at hinj' hj]
    · have hne' : ∀ j < n', addr' j ≠ a := fun j hj heq => h' ⟨j, hj, heq⟩
      rw [overwrite_of_ne hne', overwrite_of_ne hne', overwrite_of_ne hne]

end Overwrite

end Mem
end Efiks.Lib
