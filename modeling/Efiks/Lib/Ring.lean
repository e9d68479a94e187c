import Mathlib.Data.List.Basic
import Mathlib.Logic.Function.Basic
import Mathlib.Tactic

/-!
# Ring buffers without a count

A ring of `n` slots with the position of the first item and the position after the
last one. The two positions say how many items there are only up to `n`, so a ring
that its writer fills looks like an empty one.

## Main definitions

* `Ring.next n i` — the slot after `i`.
* `Ring.items n buf b e` — the items from `b` up to `e`, in order.
-/
namespace Efiks.Lib.Ring

variable {α : Type*} {n b e : ℕ} {buf : ℕ → α}

/-- The slot after `i`. -/
def next (n i : ℕ) : ℕ := if i + 1 ≥ n then 0 else i + 1

/-- How many steps lead from `b` to `e`. -/
def dist (n b e : ℕ) : ℕ := (e + n - b) % n

/-- The items from `b` up to `e`, in order. -/
def items (n : ℕ) (buf : ℕ → α) (b e : ℕ) : List α :=
  (List.range (dist n b e)).map fun i => buf ((b + i) % n)

/-- One wrap at most. -/
theorem mod_eq_ite {i : ℕ} (h : i < 2 * n) : i % n = if i < n then i else i - n := by
  split
  · apply Nat.mod_eq_of_lt
    assumption
  · rw [Nat.mod_eq_sub_mod (by omega), Nat.mod_eq_of_lt (by omega)]

theorem next_lt (hb : b < n) : next n b < n := by
  simp only [next]
  split <;> omega

theorem next_eq_mod (hb : b < n) : next n b = (b + 1) % n := by
  rw [mod_eq_ite (by omega), next]
  split <;> split <;> omega

@[simp] theorem length_items : (items n buf b e).length = dist n b e := by
  simp [items]

theorem dist_lt (hb : b < n) : dist n b e < n := Nat.mod_lt _ (by omega)

theorem dist_eq_ite (hb : b < n) (he : e < n) :
    dist n b e = if b ≤ e then e - b else e + n - b := by
  rw [dist, mod_eq_ite (by omega)]
  split <;> split <;> omega

theorem dist_eq_zero_iff (hb : b < n) (he : e < n) : dist n b e = 0 ↔ b = e := by
  rw [dist_eq_ite hb he]
  split <;> omega

theorem items_eq_nil_iff (hb : b < n) (he : e < n) : items n buf b e = [] ↔ b = e := by
  rw [← List.length_eq_zero_iff, length_items, dist_eq_zero_iff hb he]

theorem dist_next_left (hb : b < n) (he : e < n) (hne : b ≠ e) :
    dist n b e = dist n (next n b) e + 1 := by
  rw [dist_eq_ite hb he, dist_eq_ite (next_lt hb) he, next]
  split <;> split <;> split <;> omega

/-- Taking the first item. -/
theorem items_pop (hb : b < n) (he : e < n) (hne : b ≠ e) :
    items n buf b e = buf b :: items n buf (next n b) e := by
  rw [items, dist_next_left hb he hne, List.range_succ_eq_map, List.map_cons, List.map_map,
    Nat.add_zero, Nat.mod_eq_of_lt hb, items]
  congr 1
  apply List.map_congr_left
  intro i _
  rw [Function.comp_apply, next_eq_mod hb, Nat.mod_add_mod]
  congr 2
  omega

theorem dist_next_right (hb : b < n) (he : e < n) (hroom : dist n b e + 1 < n) :
    dist n b (next n e) = dist n b e + 1 := by
  rw [dist_eq_ite hb he] at hroom ⊢
  rw [dist_eq_ite hb (next_lt he), next]
  split at hroom <;> split <;> split <;> omega

/-- Writing behind the last item of a ring with room. -/
theorem items_push (x : α) (hb : b < n) (he : e < n) (hroom : dist n b e + 1 < n) :
    items n (Function.update buf e x) b (next n e) = items n buf b e ++ [x] := by
  have hlast : (b + dist n b e) % n = e := by
    simp only [dist]
    rw [Nat.add_mod_mod, show b + (e + n - b) = e + n by omega, Nat.add_mod_right,
      Nat.mod_eq_of_lt he]
  rw [items, dist_next_right hb he hroom, List.range_succ, List.map_append, items]
  congr 1
  · apply List.map_congr_left
    intro i hi
    rw [List.mem_range] at hi
    apply Function.update_of_ne
    -- a slot between the two positions is not the one written
    intro heq
    rw [← hlast, mod_eq_ite (by omega), mod_eq_ite (by omega)] at heq
    split at heq <;> split at heq <;> omega
  · simp [hlast]

/-- Writing the last free slot empties the ring. -/
theorem items_push_full (x : α) (hb : b < n) (he : e < n) (hfull : dist n b e + 1 = n) :
    items n (Function.update buf e x) b (next n e) = [] := by
  rw [items_eq_nil_iff hb (next_lt he)]
  rw [dist_eq_ite hb he] at hfull
  rw [next]
  split at hfull <;> split <;> omega

end Efiks.Lib.Ring
