import Mathlib

/-!
# A cursor over a list

A list of fixed length with a position in it. Reading and writing go as far as there is room and
move the position; seeking moves it to any place up to the end. Several reads or writes in a row
are one.

## Main definitions

* `Cursor` — the list, and a position that is not beyond its end.
* `Cursor.read`, `Cursor.write`, `Cursor.seek` — the operations.
* `Cursor.readAll`, `Cursor.writeAll` — several of them in a row.

## Main results

* `Cursor.readAll_eq`, `Cursor.writeAll_eq` — how the data is cut does not matter.
-/
namespace Efiks.Lib

/-- A list with a position in it. -/
@[ext]
structure Cursor (α : Type*) where
  data : List α
  pos : ℕ
  le : pos ≤ data.length

namespace Cursor
variable {α : Type*}

/-- How many of `n` elements there is room for. -/
def room (c : Cursor α) (n : ℕ) : ℕ := min n (c.data.length - c.pos)

theorem pos_add_room (c : Cursor α) (n : ℕ) : c.pos + c.room n ≤ c.data.length := by
  have h := c.le
  unfold room
  omega

theorem room_le (c : Cursor α) (n : ℕ) : c.room n ≤ n := min_le_left _ _

/-- The next `n` elements. -/
def read (c : Cursor α) (n : ℕ) : List α × Cursor α :=
  ((c.data.drop c.pos).take n, ⟨c.data, c.pos + c.room n, c.pos_add_room n⟩)

/-- The data with the elements of `l` from the position on, as far as there is room. -/
def patch (c : Cursor α) (l : List α) : List α :=
  c.data.take c.pos ++ l.take (c.room l.length) ++ c.data.drop (c.pos + c.room l.length)

theorem length_patch (c : Cursor α) (l : List α) : (c.patch l).length = c.data.length := by
  have hpos := c.le
  have hend := c.pos_add_room l.length
  have hroom := c.room_le l.length
  simp only [patch, List.length_append, List.length_take, List.length_drop]
  omega

/-- Write `l`, as far as there is room. -/
def write (c : Cursor α) (l : List α) : ℕ × Cursor α :=
  (c.room l.length, ⟨c.patch l, c.pos + c.room l.length, by
    rw [length_patch]
    exact c.pos_add_room l.length⟩)

/-- Move to `target`, if that is a place of the list. -/
def seek (c : Cursor α) (target : ℤ) : Option (Cursor α) :=
  if h : 0 ≤ target ∧ target ≤ c.data.length then some ⟨c.data, target.toNat, by omega⟩ else none

@[simp] theorem read_data (c : Cursor α) (n : ℕ) : (c.read n).2.data = c.data := rfl

@[simp] theorem read_pos (c : Cursor α) (n : ℕ) : (c.read n).2.pos = c.pos + c.room n := rfl

@[simp] theorem write_data (c : Cursor α) (l : List α) : (c.write l).2.data = c.patch l := rfl

@[simp] theorem write_pos (c : Cursor α) (l : List α) :
    (c.write l).2.pos = c.pos + c.room l.length := rfl

theorem length_read (c : Cursor α) (n : ℕ) : (c.read n).1.length = c.room n := by
  simp only [read, List.length_take, List.length_drop, room]

theorem getElem?_read (c : Cursor α) {n i : ℕ} (h : i < c.room n) :
    (c.read n).1[i]? = c.data[c.pos + i]? := by
  have hn := c.room_le n
  simp only [read]
  rw [List.getElem?_take_of_lt (by omega), List.getElem?_drop]

/-- An element after a write. -/
theorem getElem?_patch (c : Cursor α) (l : List α) (i : ℕ) :
    (c.patch l)[i]? = if c.pos ≤ i ∧ i < c.pos + c.room l.length then l[i - c.pos]?
      else c.data[i]? := by
  have hpos := c.le
  have hend := c.pos_add_room l.length
  have hroom := c.room_le l.length
  have htake : (c.data.take c.pos ++ l.take (c.room l.length)).length = c.pos + c.room l.length := by
    simp only [List.length_append, List.length_take]
    omega
  unfold patch
  by_cases hlow : i < c.pos
  · rw [if_neg (by omega), List.getElem?_append_left (by omega), List.getElem?_append_left
      (by rw [List.length_take]; omega), List.getElem?_take_of_lt hlow]
  · by_cases hmid : i < c.pos + c.room l.length
    · have hlen : (c.data.take c.pos).length = c.pos := by rw [List.length_take]; omega
      rw [if_pos (by omega), List.getElem?_append_left (by omega), List.getElem?_append_right
        (by omega), hlen, List.getElem?_take_of_lt (by omega)]
    · rw [if_neg (by omega), List.getElem?_append_right (by omega), htake, List.getElem?_drop]
      congr 1
      omega

/-- Two reads in a row. -/
theorem read_add (c : Cursor α) (m n : ℕ) :
    c.read (m + n) = ((c.read m).1 ++ ((c.read m).2.read n).1, ((c.read m).2.read n).2) := by
  have hpos := c.le
  refine Prod.ext ?_ (Cursor.ext rfl ?_)
  · simp only [read, room]
    rw [List.take_add, List.drop_drop]
    congr 1
    by_cases hm : m ≤ c.data.length - c.pos
    · rw [Nat.min_eq_left hm]
    · rw [List.drop_eq_nil_of_le (by omega), List.drop_eq_nil_of_le (by omega)]
  · simp only [read_pos, room, read_data]
    omega

/-- Two writes in a row. -/
theorem write_append (c : Cursor α) (l l' : List α) :
    c.write (l ++ l') = ((c.write l).1 + ((c.write l).2.write l').1, ((c.write l).2.write l').2) := by
  have hpos := c.le
  have hroom : c.room (l ++ l').length = c.room l.length + (c.write l).2.room l'.length := by
    simp only [room, write_data, write_pos, length_patch, List.length_append]
    omega
  refine Prod.ext hroom (Cursor.ext (List.ext_getElem? fun i => ?_) ?_)
  · have hl := c.room_le l.length
    have hfull : 0 < (c.write l).2.room l'.length → c.room l.length = l.length := by
      simp only [room, write_data, write_pos, length_patch]
      omega
    simp only [write_data, getElem?_patch, write_pos, hroom]
    by_cases hlow : i < c.pos
    · rw [if_neg (by omega), if_neg (by omega), if_neg (by omega)]
    · by_cases hmid : i < c.pos + c.room l.length
      · rw [if_pos (by omega), if_neg (by omega), if_pos (by omega),
          List.getElem?_append_left (by omega)]
      · by_cases hhigh : i < c.pos + c.room l.length + (c.write l).2.room l'.length
        · have hlen := hfull (by omega)
          rw [if_pos (by omega), if_pos (by omega), List.getElem?_append_right (by omega)]
          congr 1
          omega
        · rw [if_neg (by omega), if_neg (by omega), if_neg (by omega)]
  · simp only [write_pos, hroom]
    omega

theorem read_of_room (c : Cursor α) {n : ℕ} (h : c.room n = 0) : c.read n = ([], c) := by
  refine Prod.ext (List.length_eq_zero_iff.mp ?_) (Cursor.ext rfl ?_)
  · rw [length_read, h]
  · rw [read_pos, h, Nat.add_zero]

theorem write_of_room (c : Cursor α) {l : List α} (h : c.room l.length = 0) :
    c.write l = (0, c) := by
  refine Prod.ext h (Cursor.ext (List.ext_getElem? fun i => ?_) ?_)
  · rw [write_data, getElem?_patch, h, if_neg (by omega)]
  · rw [write_pos, h, Nat.add_zero]

theorem room_zero (c : Cursor α) : c.room 0 = 0 := Nat.zero_min _

theorem room_of_end {c : Cursor α} (h : c.pos = c.data.length) (n : ℕ) : c.room n = 0 := by
  simp [room, h]

/-- Nothing is left after a read that came short. -/
theorem read_read_of_short (c : Cursor α) {n : ℕ} (h : c.room n < n) (m : ℕ) :
    (c.read n).2.read m = ([], (c.read n).2) := by
  have hend : (c.read n).2.pos = (c.read n).2.data.length := by
    have hpos := c.le
    simp only [read_pos, read_data, room] at h ⊢
    omega
  exact read_of_room _ (room_of_end hend m)

theorem read_of_short (c : Cursor α) {n : ℕ} (h : c.room n < n) (m : ℕ) :
    c.read (n + m) = c.read n := by
  rw [read_add, read_read_of_short c h, List.append_nil]

/-- A write that came short has reached the end. -/
theorem write_of_short (c : Cursor α) {l : List α} (h : c.room l.length < l.length)
    (l' : List α) : c.write (l ++ l') = c.write l := by
  have hend : (c.write l).2.pos = (c.write l).2.data.length := by
    have hpos := c.le
    simp only [write_pos, write_data, length_patch, room] at h ⊢
    omega
  rw [write_append, write_of_room _ (room_of_end hend _), Nat.add_zero]

/-- Several reads in a row. -/
def readAll (c : Cursor α) : List ℕ → List α × Cursor α
  | [] => ([], c)
  | n :: ns => ((c.read n).1 ++ ((c.read n).2.readAll ns).1, ((c.read n).2.readAll ns).2)

/-- Several writes in a row. -/
def writeAll (c : Cursor α) : List (List α) → ℕ × Cursor α
  | [] => (0, c)
  | l :: ls => ((c.write l).1 + ((c.write l).2.writeAll ls).1, ((c.write l).2.writeAll ls).2)

theorem readAll_eq (c : Cursor α) (ns : List ℕ) : c.readAll ns = c.read ns.sum := by
  induction ns generalizing c with
  | nil => rw [readAll, List.sum_nil, read_of_room _ c.room_zero]
  | cons n ns ih => rw [readAll, ih, List.sum_cons, read_add]

theorem writeAll_eq (c : Cursor α) (ls : List (List α)) : c.writeAll ls = c.write ls.flatten := by
  induction ls generalizing c with
  | nil => rw [writeAll, List.flatten_nil, write_of_room _ c.room_zero]
  | cons l ls ih => rw [writeAll, ih, List.flatten_cons, write_append]

end Cursor
end Efiks.Lib
