import Mathlib.Data.List.Basic
import Mathlib.Logic.Function.Basic
import Mathlib.Tactic

/-!
# Slabs

A slab hands out keys: `insert` stores a value under a key of its own choice, and the
key leads to the value until it is removed. What a user may rely on is that the chosen
key was vacant and that nothing else changes; which key it is does not matter.

## Main definitions

* `Slab`, `LawfulSlab` — the operations and what they promise.
* `ListSlab` — a slab that takes the first vacant key.
-/
namespace Efiks.Lib

/-- The operations of a slab `S` of values `α`. -/
class Slab (S : Type) (α : outParam Type) where
  /-- An empty slab with room for some values. -/
  withCapacity : ℕ → S
  /-- How many values are stored. -/
  len : S → ℕ
  /-- How many values fit without growing. -/
  capacity : S → ℕ
  /-- The value under a key. -/
  get : S → ℕ → Option α
  /-- Store a value and say under which key. -/
  insert : S → α → ℕ × S
  /-- Take the value under a key, if there is one. -/
  remove : S → ℕ → Option (α × S)

/-- A key chosen by `insert` was vacant, a slab with room does not grow, and the operations
change one key. -/
class LawfulSlab (S : Type) {α : Type} [Slab S α] : Prop where
  le_capacity_withCapacity (n : ℕ) : n ≤ Slab.capacity (Slab.withCapacity n : S)
  len_withCapacity (n : ℕ) : Slab.len (Slab.withCapacity n : S) = 0
  get_insert_vacant (s : S) (a : α) : Slab.get s (Slab.insert s a).1 = none
  get_insert (s : S) (a : α) :
    Slab.get (Slab.insert s a).2 = Function.update (Slab.get s) (Slab.insert s a).1 (some a)
  len_insert (s : S) (a : α) : Slab.len (Slab.insert s a).2 = Slab.len s + 1
  capacity_insert (s : S) (a : α) (h : Slab.len s < Slab.capacity s) :
    Slab.capacity (Slab.insert s a).2 = Slab.capacity s
  remove_of_get (s : S) (k : ℕ) (a : α) (h : Slab.get s k = some a) : ∃ s',
    Slab.remove s k = some (a, s') ∧ Slab.get s' = Function.update (Slab.get s) k none ∧
    Slab.len s' ≤ Slab.len s ∧ Slab.capacity s' = Slab.capacity s

/-- A slab that takes the first vacant key. -/
structure ListSlab (α : Type) where
  entries : List (Option α)
  capacity : ℕ

namespace ListSlab
variable {α : Type}

/-- The first vacant key. -/
def key (s : ListSlab α) : ℕ := s.entries.findIdx (·.isNone)

/-- The entries after storing `a`. -/
def put (s : ListSlab α) (a : α) : List (Option α) :=
  if s.key < s.entries.length then s.entries.set s.key (some a) else s.entries ++ [some a]

instance : Slab (ListSlab α) α where
  withCapacity n := ⟨[], n⟩
  len s := s.entries.countP (·.isSome)
  capacity s := s.capacity
  get s k := s.entries[k]?.join
  insert s a := (s.key, ⟨s.put a, max s.capacity (s.entries.countP (·.isSome) + 1)⟩)
  remove s k := s.entries[k]?.join.map fun a => (a, ⟨s.entries.set k none, s.capacity⟩)

theorem isNone_key {s : ListSlab α} (h : s.key < s.entries.length) : s.entries[s.key] = none := by
  apply Option.isNone_iff_eq_none.mp
  exact List.findIdx_getElem (w := h)

theorem join_key (s : ListSlab α) : s.entries[s.key]?.join = none := by
  by_cases h : s.key < s.entries.length
  · rw [List.getElem?_eq_getElem h, isNone_key h]
    rfl
  · simp [List.getElem?_eq_none (not_lt.mp h)]

theorem key_le (s : ListSlab α) : s.key ≤ s.entries.length := List.findIdx_le_length

theorem join_put (s : ListSlab α) (a : α) (k : ℕ) :
    (s.put a)[k]?.join = Function.update (fun k => s.entries[k]?.join) s.key (some a) k := by
  have hle := s.key_le
  by_cases hk : k = s.key
  · subst hk
    rw [Function.update_self, put]
    split
    · simp [*]
    · have heq : s.key = s.entries.length := by omega
      simp [heq]
  · rw [Function.update_of_ne hk, put]
    split
    · rw [List.getElem?_set_ne (Ne.symm hk)]
    · have hne : k ≠ s.entries.length := by omega
      rw [List.getElem?_append]
      split
      · rfl
      · have hlt : s.entries.length < k := by omega
        rw [List.getElem?_eq_none hlt.le, List.getElem?_eq_none]
        rw [List.length_singleton]
        omega

theorem countP_put (s : ListSlab α) (a : α) :
    (s.put a).countP (·.isSome) = s.entries.countP (·.isSome) + 1 := by
  rw [put]
  split
  · rename_i h
    rw [List.countP_set h, isNone_key h]
    simp
  · simp

instance : LawfulSlab (ListSlab α) where
  le_capacity_withCapacity n := le_refl n
  len_withCapacity n := rfl
  get_insert_vacant s a := s.join_key
  get_insert s a := funext (s.join_put a)
  len_insert s a := s.countP_put a
  capacity_insert s a h := max_eq_left h
  remove_of_get s k a h := by
    refine ⟨⟨s.entries.set k none, s.capacity⟩, ?_, ?_, ?_, rfl⟩
    · change s.entries[k]?.join.map _ = _
      rw [show s.entries[k]?.join = some a from h]
      rfl
    · funext j
      change (s.entries.set k none)[j]?.join = Function.update (fun j => s.entries[j]?.join) k none j
      by_cases hj : j = k
      · subst hj
        by_cases hlt : j < s.entries.length <;> simp [hlt]
      · rw [Function.update_of_ne hj, List.getElem?_set_ne (Ne.symm hj)]
    · change (s.entries.set k none).countP _ ≤ s.entries.countP _
      by_cases hlt : k < s.entries.length
      · rw [List.countP_set hlt]
        simp
      · rw [List.set_eq_of_length_le (not_lt.mp hlt)]

end ListSlab

end Efiks.Lib
