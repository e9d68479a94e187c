import Mathlib.Data.List.MinMax
import Mathlib.Data.Multiset.Filter
import Mathlib.Tactic

/-!
# Priority queues

A queue that hands out a greatest element first, for a comparison that may find
different elements equal. Which of several greatest elements comes first is left open.

## Main definitions

* `PriorityQueue`, `LawfulPriorityQueue` — the operations and what they promise.
* `ListQueue` — a list searched for an element with the least key.
-/
namespace Efiks.Lib

/-- The operations of a queue `H` of elements `α`. -/
class PriorityQueue (H : Type) (α : outParam Type) where
  new : H
  push : H → α → H
  /-- A greatest element, which stays in the queue. -/
  peek : H → Option α
  /-- Take the element that `peek` returns. -/
  pop : H → H

/-- A queue that orders its elements by `cmp`; `items` are the elements. -/
class LawfulPriorityQueue (H : Type) {α : Type} [PriorityQueue H α]
    (cmp : outParam (α → α → Ordering)) where
  items : H → Multiset α
  items_new : items PriorityQueue.new = 0
  items_push (h : H) (a : α) : items (PriorityQueue.push h a) = a ::ₘ items h
  items_of_peek_none {h : H} : PriorityQueue.peek h = none → items h = 0
  items_of_peek {h : H} {a : α} :
    PriorityQueue.peek h = some a → items h = a ::ₘ items (PriorityQueue.pop h)
  peek_greatest {h : H} {a b : α} :
    PriorityQueue.peek h = some a → b ∈ items h → cmp b a ≠ .gt

/-- A list whose first element comes out first among those with the least key. -/
structure ListQueue {α : Type} (key : α → ℕ) where
  list : List α

namespace ListQueue
variable {α : Type} [DecidableEq α] {key : α → ℕ}

instance : PriorityQueue (ListQueue key) α where
  new := ⟨[]⟩
  push h a := ⟨a :: h.list⟩
  peek h := h.list.argmin key
  pop h := ⟨match h.list.argmin key with
    | none => []
    | some a => h.list.erase a⟩

instance : LawfulPriorityQueue (ListQueue key) (fun a b => compare (key b) (key a)) where
  items h := h.list
  items_new := rfl
  items_push _ _ := rfl
  items_of_peek_none hnone := by
    rw [List.argmin_eq_none.mp hnone]
    rfl
  items_of_peek {h a} hpeek := by
    have hmem : a ∈ h.list := List.argmin_mem hpeek
    change (h.list : Multiset α) = a ::ₘ ((match h.list.argmin key with
      | none => []
      | some a => h.list.erase a : List α) : Multiset α)
    rw [show h.list.argmin key = some a from hpeek]
    exact Multiset.coe_eq_coe.mpr (List.perm_cons_erase hmem)
  peek_greatest {h a b} hpeek hb := by
    have hle := List.le_of_mem_argmin (Multiset.mem_coe.mp hb) hpeek
    rw [Ne, compare_gt_iff_gt]
    exact not_lt.mpr hle

end ListQueue

end Efiks.Lib
