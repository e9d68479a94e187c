import Efiks.Lib.PtrTree
import Efiks.Mm.Frames

/-!
# Well-shaped page tables

The tables of an address space form a tree of pointers: `child` reads an entry as
a pointer to a lower table. `Shape` says what the tables of a process look like:
three levels, the kernel's entries in the upper half of the root, and nothing but
user leaves at the bottom. `Extends` is the frame condition of code that works on
one tree: it may add tables in fresh frames and touches no other frame in use.

## Main definitions

* `child`, `tableAt`, `pteAt` — tables and leaf entries by path.
* `leafEntry`, `kernelEntry` — the entries `map_leaf` and `kvm_full_map` write.
* `Shape`, `Extends`.

## Main results

* `wp_getOrCreateNextTable`, `wp_mapVm` — mapping a page changes one leaf.
-/
namespace Efiks.Mm
open Lib Lib.RustM PageTableEntry

/-- The table an entry points to. -/
def child (e : PageTableEntry) : Option ℕ :=
  if e.isValid && !e.isLeaf then some e.ppn else none

/-- The entry `map_leaf` makes out of an empty one. -/
def leafEntry (pa : ℕ) (flags : PteFlags) : PageTableEntry :=
  (PageTableEntry.empty.setPhysicalAddress pa).setFlags
    (flags ||| PteFlags.V ||| PteFlags.A ||| PteFlags.D)

/-- The entry `kvm_full_map` leaves at index `i` of a root table. -/
def kernelEntry (i : Fin 512) : PageTableEntry :=
  if 344 ≤ i.val ∧ i.val < 510 then leafEntry ((i.val - 344) * 2 ^ 30) PteFlags.RW
  else if 510 ≤ i.val then leafEntry (2 ^ 31 + (i.val - 510) * 2 ^ 30) PteFlags.RWX
  else PageTableEntry.empty

section Entries
variable {e : PageTableEntry} {flags : PteFlags} {n : ℕ}

@[simp] theorem child_zero : child 0#64 = none := by decide

theorem child_of_isLeaf (h : e.isLeaf = true) : child e = none := by
  simp [child, h]

theorem child_eq_some (h : child e = some n) : e.isValid = true ∧ e.isLeaf = false ∧ e.ppn = n := by
  unfold child at h
  split at h
  · rename_i hc
    simp only [Bool.and_eq_true, Bool.not_eq_true'] at hc
    exact ⟨hc.1, hc.2, Option.some.inj h⟩
  · cases h

theorem isValid_of_isLeaf (h : e.isLeaf = true) : e.isValid = true := by
  rw [isLeaf, Bool.and_eq_true] at h
  exact h.1

theorem getLsbD_leafEntry (pa : ℕ) (flags : PteFlags) {i : ℕ} (hi : i < 6) :
    (leafEntry pa flags).getLsbD i = (flags.getLsbD i || i == 0) := by
  rw [leafEntry, getLsbD_setFlags, getLsbD_setPhysicalAddress _ _ (by omega)]
  have hVAD : ∀ j < 6, (PteFlags.V ||| PteFlags.A ||| PteFlags.D).getLsbD j = (j == 0) := by decide
  rw [PageTableEntry.empty, BitVec.getLsbD_zero, Bool.false_or, BitVec.or_assoc, BitVec.or_assoc,
    BitVec.getLsbD_or, ← BitVec.or_assoc, hVAD i hi]

theorem leafEntry_isValid (pa : ℕ) (flags : PteFlags) : (leafEntry pa flags).isValid = true := by
  rw [isValid_eq, getLsbD_leafEntry _ _ (by norm_num)]
  simp

theorem and_RWX_ne_zero (flags : PteFlags) :
    flags &&& PteFlags.RWX ≠ 0#8 ↔
      (flags.getLsbD 1 || flags.getLsbD 2 || flags.getLsbD 3) = true := by
  revert flags
  decide +kernel

theorem leafEntry_isLeaf (pa : ℕ) (h : flags &&& PteFlags.RWX ≠ 0#8) :
    (leafEntry pa flags).isLeaf = true := by
  rw [and_RWX_ne_zero] at h
  rw [isLeaf_eq, getLsbD_leafEntry _ _ (by norm_num), getLsbD_leafEntry _ _ (by norm_num),
    getLsbD_leafEntry _ _ (by norm_num), getLsbD_leafEntry _ _ (by norm_num)]
  simpa using h

theorem leafEntry_isUser (pa : ℕ) (flags : PteFlags) :
    (leafEntry pa flags).isUser = flags.getLsbD 4 := by
  rw [isUser_eq, getLsbD_leafEntry _ _ (by norm_num)]
  simp

theorem leafEntry_isWritable (pa : ℕ) (flags : PteFlags) :
    (leafEntry pa flags).isWritable = flags.getLsbD 2 := by
  rw [isWritable_eq, getLsbD_leafEntry _ _ (by norm_num)]
  simp

theorem ppn_leafEntry (hn : n < 2 ^ 44) : (leafEntry (4096 * n) flags).ppn = n := by
  rw [leafEntry, ppn_setFlags, ppn_setPhysicalAddress hn]

/-- A fresh pointer to a table. -/
theorem child_newValid (hn : n < 2 ^ 44) : child (newValid.setPhysicalAddress (4096 * n)) = some n := by
  have hbit : ∀ i < 10, (newValid.setPhysicalAddress (4096 * n)).getLsbD i = newValid.getLsbD i :=
    fun i hi => getLsbD_setPhysicalAddress _ _ hi
  have hv : (newValid.setPhysicalAddress (4096 * n)).isValid = true := by
    rw [isValid_eq, hbit 0 (by norm_num)]
    decide
  have hl : (newValid.setPhysicalAddress (4096 * n)).isLeaf = false := by
    rw [isLeaf_eq, hbit 0 (by norm_num), hbit 1 (by norm_num), hbit 2 (by norm_num),
      hbit 3 (by norm_num)]
    decide
  rw [child, hv, hl, ppn_setPhysicalAddress hn]
  rfl

theorem child_kernelEntry (i : Fin 512) : child (kernelEntry i) = none := by
  unfold kernelEntry
  split
  · exact child_of_isLeaf (leafEntry_isLeaf _ (by decide))
  · split
    · exact child_of_isLeaf (leafEntry_isLeaf _ (by decide))
    · exact child_zero

/-- The kernel's mappings are closed to user mode. -/
theorem isUser_kernelEntry (i : Fin 512) : (kernelEntry i).isUser = false := by
  unfold kernelEntry
  split
  · rw [leafEntry_isUser]; decide
  · split
    · rw [leafEntry_isUser]; decide
    · decide

end Entries

/-- A user page: its three table indices. -/
abbrev Vpn := Fin 512 × Fin 512 × Fin 512

/-- The page of a virtual address. -/
def vpn (va : ℕ) : Vpn := (vpn2 va, vpn1 va, vpn0 va)

/-- The table reached from root frame `r` along a path. -/
def tableAt (s : MemState) (r : ℕ) (path : List (Fin 512)) : Option ℕ := nodeAt child s.mem r path

/-- The bottom-level entry of page `v`, zero when it has no table. -/
def pteAt (s : MemState) (r : ℕ) (v : Vpn) : PageTableEntry :=
  match tableAt s r [v.1, v.2.1] with
  | some n => s.mem n v.2.2
  | none => 0

/-- An entry above the bottom level of the user half: empty or a pointer. -/
def IsPointer (e : PageTableEntry) : Prop := e = 0 ∨ ∃ n, child e = some n

/-- The entry stays a leaf when write permission is taken away. -/
def ReadOrExec (e : PageTableEntry) : Prop := (e.getLsbD 1 || e.getLsbD 3) = true

/-- A bottom-level entry: empty or a user leaf that is not write-only. -/
def IsUserLeaf (e : PageTableEntry) : Prop :=
  e = 0 ∨ (e.isLeaf = true ∧ e.isUser = true ∧ ReadOrExec e)

/-- The page tables of a process. -/
structure Shape (s : MemState) (r : ℕ) : Prop where
  tree : IsTree child s.mem r 2
  used : ∀ p n, tableAt s r p = some n → s.used n
  user : ∀ i : Fin 512, i.val < 256 → IsPointer (s.mem r i)
  kernel : ∀ i : Fin 512, 256 ≤ i.val → s.mem r i = kernelEntry i
  middle : ∀ a n i, tableAt s r [a] = some n → IsPointer (s.mem n i)
  bottom : ∀ a b n i, tableAt s r [a, b] = some n → IsUserLeaf (s.mem n i)

/-- `s'` is `s` after work on the tree of `r`: tables may have been added in fresh
frames, and no other frame in use was touched. -/
structure Extends (s s' : MemState) (r : ℕ) : Prop where
  keep : ∀ p n, tableAt s r p = some n → tableAt s' r p = some n
  new : ∀ p n, tableAt s' r p = some n → tableAt s r p = some n ∨ ¬ s.used n
  used : ∀ n, s'.used n ↔ s.used n ∨ ∃ p, tableAt s' r p = some n
  frame : ∀ n, s.used n → (∀ p, tableAt s r p ≠ some n) → s'.mem n = s.mem n
  meta_eq : s'.pageMeta = s.pageMeta
  addr_eq : s'.frames.startAddr = s.frames.startAddr

section Extends
variable {s s' s'' : MemState} {r n m : ℕ}

theorem Extends.trans (h : Extends s s' r) (h' : Extends s' s'' r) : Extends s s'' r where
  keep p n hp := h'.keep p n (h.keep p n hp)
  new p n hp := by
    rcases h'.new p n hp with hp' | hu
    · exact h.new p n hp'
    · exact Or.inr fun hn => hu ((h.used n).mpr (Or.inl hn))
  used n := by
    rw [h'.used, h.used]
    constructor
    · rintro ((hn | ⟨p, hp⟩) | hp)
      · exact Or.inl hn
      · exact Or.inr ⟨p, h'.keep p n hp⟩
      · exact Or.inr hp
    · rintro (hn | hp)
      · exact Or.inl (Or.inl hn)
      · exact Or.inr hp
  frame n hn hfree := by
    rw [h'.frame n ((h.used n).mpr (Or.inl hn)), h.frame n hn hfree]
    intro p hp
    exact (h.new p n hp).elim (hfree p) fun hu => hu hn
  meta_eq := h'.meta_eq.trans h.meta_eq
  addr_eq := h'.addr_eq.trans h.addr_eq

theorem Extends.refl (h : Shape s r) : Extends s s r where
  keep _ _ hp := hp
  new _ _ hp := Or.inl hp
  used n := ⟨Or.inl, fun hn => hn.elim id fun ⟨p, hp⟩ => h.used p n hp⟩
  frame _ _ _ := rfl
  meta_eq := rfl
  addr_eq := rfl

end Extends

theorem tableAt_concat {s : MemState} {r t : ℕ} {p : List (Fin 512)} {i : Fin 512}
    (ht : tableAt s r p = some t) : tableAt s r (p ++ [i]) = child (s.mem t i) := by
  rw [tableAt, nodeAt_concat, show nodeAt child s.mem r p = some t from ht, Option.bind_some]

section Congr
variable {s s' : MemState} {r : ℕ}
variable (hmem : ∀ p n, tableAt s r p = some n → s'.mem n = s.mem n)
include hmem

/-- Frames that are not tables of the space do not matter to it. -/
theorem tableAt_congr (p : List (Fin 512)) : tableAt s' r p = tableAt s r p :=
  nodeAt_congr (fun q n hq i => by rw [hmem q n hq]) p

theorem pteAt_congr (v : Vpn) : pteAt s' r v = pteAt s r v := by
  unfold pteAt
  rw [tableAt_congr hmem]
  cases hn : tableAt s r [v.1, v.2.1] with
  | none => rfl
  | some n => exact congrFun (hmem _ n hn) _

theorem Shape.congr (hs : Shape s r) (hused : ∀ p n, tableAt s r p = some n → s'.used n) :
    Shape s' r := by
  have htab := tableAt_congr hmem
  refine ⟨hs.tree.congr fun p n hp i => by rw [hmem p n hp],
    fun p n hp => hused p n ((htab p).symm.trans hp), fun i hi => ?_, fun i hi => ?_,
    fun a n i hn => ?_, fun a b n i hn => ?_⟩
  · rw [hmem [] r rfl]
    exact hs.user i hi
  · rw [hmem [] r rfl]
    exact hs.kernel i hi
  · rw [htab] at hn
    rw [hmem _ n hn]
    exact hs.middle a n i hn
  · rw [htab] at hn
    rw [hmem _ n hn]
    exact hs.bottom a b n i hn

end Congr

theorem isCanonical_physToVirt {n : ℕ} (hn : n < 2 ^ 20 + 4096) :
    isCanonical (physToVirt (4096 * n)) = true := by
  have hsign : (physToVirt (4096 * n) >>> 38) % 2 = 1 := by
    rw [Nat.shiftRight_eq_div_pow]
    unfold physToVirt kernelDirectMappingBase
    omega
  have hupper : physToVirt (4096 * n) >>> 39 = 2 ^ 25 - 1 := by
    rw [Nat.shiftRight_eq_div_pow]
    unfold physToVirt kernelDirectMappingBase
    omega
  simp [isCanonical, hsign, hupper]

section Link
variable {s s₁ : MemState} {r t n : ℕ} {i : Fin 512} {path : List (Fin 512)}

/-- The state after a zeroed table in the fresh frame `n` was hung under entry `i`
of table `t`. -/
def linked (s₁ : MemState) (t : ℕ) (i : Fin 512) (n : ℕ) : MemState :=
  (s₁.setFrame n fun _ => 0).setEntry t i (newValid.setPhysicalAddress (4096 * n))

theorem linked_new (htn : t ≠ n) : (linked s₁ t i n).mem n = fun _ => 0 := by
  rw [linked, setEntry_of_ne htn.symm, setFrame_self]

theorem linked_entry : (linked s₁ t i n).mem t i = newValid.setPhysicalAddress (4096 * n) :=
  setEntry_self

theorem linked_row {j : Fin 512} (htn : t ≠ n) (hj : j ≠ i) :
    (linked s₁ t i n).mem t j = s₁.mem t j := by
  rw [linked, setEntry_of_ne_index hj, setFrame_of_ne _ htn]

theorem linked_other {m : ℕ} (hmt : m ≠ t) (hmn : m ≠ n) : (linked s₁ t i n).mem m = s₁.mem m := by
  rw [linked, setEntry_of_ne hmt, setFrame_of_ne _ hmn]

variable (ha : Allocated s n s₁) (hp : s.Placed) (hs : Shape s r)
  (ht : tableAt s r path = some t) (he : s.mem t i = 0)
include ha hp hs ht he

theorem tableAt_linked (q : List (Fin 512)) :
    (q = path ++ [i] → tableAt (linked s₁ t i n) r q = some n) ∧
      (q ≠ path ++ [i] → tableAt (linked s₁ t i n) r q = tableAt s r q) := by
  have htu : s.used t := hs.used path t ht
  have htn : t ≠ n := fun h => ha.fresh (h ▸ htu)
  have hn : n < 2 ^ 44 := by
    have := (ha.placed hp).range ha.used_self
    omega
  have hmem : s₁.mem = s.mem := ha.mem_eq
  refine nodeAt_link hs.tree ht (by rw [he]; exact child_zero) ?_ ?_ ?_ ?_ q
  · rw [linked_entry, child_newValid hn]
  · intro j hj
    rw [linked_row htn hj, hmem]
  · intro j
    rw [linked_new htn]
    exact child_zero
  · intro p x hx hxt j
    have hxn : x ≠ n := fun h => ha.fresh (h ▸ hs.used p x hx)
    rw [linked_other hxt hxn, hmem]

theorem extends_linked : Extends s (linked s₁ t i n) r := by
  have hlink := tableAt_linked ha hp hs ht he
  have hfree : s.mem t i = 0 → tableAt s r (path ++ [i]) = none := by
    intro h
    rw [tableAt, nodeAt_concat, show nodeAt child s.mem r path = some t from ht, Option.bind_some,
      h]
    exact child_zero
  refine ⟨fun p m hpm => ?_, fun p m hpm => ?_, fun m => ?_, fun m hm hno => ?_, ha.meta_eq,
    ha.addr_eq⟩
  · by_cases hpi : p = path ++ [i]
    · rw [hpi, hfree he] at hpm
      cases hpm
    · rw [(hlink p).2 hpi, hpm]
  · by_cases hpi : p = path ++ [i]
    · rw [(hlink p).1 hpi] at hpm
      exact Or.inr (Option.some.inj hpm ▸ ha.fresh)
    · exact Or.inl ((hlink p).2 hpi ▸ hpm)
  · change s₁.used m ↔ _
    rw [ha.used]
    constructor
    · rintro (hm | rfl)
      · exact Or.inl hm
      · exact Or.inr ⟨path ++ [i], (hlink _).1 rfl⟩
    · rintro (hm | ⟨p, hpm⟩)
      · exact Or.inl hm
      · by_cases hpi : p = path ++ [i]
        · rw [(hlink p).1 hpi] at hpm
          exact Or.inr (Option.some.inj hpm).symm
        · rw [(hlink p).2 hpi] at hpm
          exact Or.inl (hs.used p m hpm)
  · have hmt : m ≠ t := fun h => hno path (h ▸ ht)
    have hmn : m ≠ n := fun h => ha.fresh (h ▸ hm)
    rw [linked_other hmt hmn, ha.mem_eq]

variable (hlen : path.length < 2)
include hlen

omit hp he in
/-- A table below the top two levels is not the one that was changed. -/
theorem linked_bottom {a b : Fin 512} {m : ℕ} (hm : tableAt s r [a, b] = some m) :
    (linked s₁ t i n).mem m = s.mem m := by
  have hmt : m ≠ t := by
    rintro rfl
    have := hs.tree.inj _ _ m hm ht
    rw [← this] at hlen
    simp at hlen
  have hmn : m ≠ n := fun h => ha.fresh (h ▸ hs.used _ m hm)
  rw [linked_other hmt hmn, ha.mem_eq]

theorem pteAt_linked (v : Vpn) : pteAt (linked s₁ t i n) r v = pteAt s r v := by
  have hlink := tableAt_linked ha hp hs ht he [v.1, v.2.1]
  unfold pteAt
  by_cases hq : [v.1, v.2.1] = path ++ [i]
  · have hnone : tableAt s r (path ++ [i]) = none := by
      rw [tableAt, nodeAt_concat, show nodeAt child s.mem r path = some t from ht,
        Option.bind_some, he]
      exact child_zero
    have htn : t ≠ n := fun h => ha.fresh (h ▸ hs.used path t ht)
    rw [hlink.1 hq, hq, hnone]
    simp only [linked_new htn]
  · rw [hlink.2 hq]
    cases hm : tableAt s r [v.1, v.2.1] with
    | none => rfl
    | some m => simp only [linked_bottom ha hs ht hlen hm]

theorem shape_linked (hlow : path = [] → i.val < 256) : Shape (linked s₁ t i n) r := by
  have hlink := tableAt_linked ha hp hs ht he
  have htu : s.used t := hs.used path t ht
  have htn : t ≠ n := fun h => ha.fresh (h ▸ htu)
  have hnode : ∀ p, tableAt s r p ≠ some n := fun p hpn => ha.fresh (hs.used p n hpn)
  have hn : n < 2 ^ 44 := by
    have := (ha.placed hp).range ha.used_self
    omega
  have hptr : IsPointer ((linked s₁ t i n).mem t i) :=
    Or.inr ⟨n, by rw [linked_entry, child_newValid hn]⟩
  -- a row of an upper table of the old tree keeps its pointers
  have hupper : ∀ m j, s.used m → IsPointer (s.mem m j) →
      IsPointer ((linked s₁ t i n).mem m j) := by
    intro m j hm hold
    have hmn : m ≠ n := fun h => ha.fresh (h ▸ hm)
    by_cases hmt : m = t
    · subst hmt
      by_cases hji : j = i
      · exact hji ▸ hptr
      · rwa [linked_row htn hji, ha.mem_eq]
    · rwa [linked_other hmt hmn, ha.mem_eq]
  have hroot : s.used r := hs.used [] r rfl
  refine ⟨hs.tree.link hlen hnode hlink, fun p m hpm => ?_, fun j hj => ?_, fun j hj => ?_,
    fun a m j hm => ?_, fun a b m j hm => ?_⟩
  · by_cases hpi : p = path ++ [i]
    · rw [(hlink p).1 hpi] at hpm
      exact Option.some.inj hpm ▸ ha.used_self
    · rw [(hlink p).2 hpi] at hpm
      exact (ha.used m).mpr (Or.inl (hs.used p m hpm))
  · exact hupper r j hroot (hs.user j hj)
  · have hrn : r ≠ n := fun h => ha.fresh (h ▸ hroot)
    by_cases hrt : r = t
    · have hpath : path = [] := hs.tree.inj path [] t ht (by rw [hrt]; rfl)
      have hji : j ≠ i := fun h => by have := hlow hpath; omega
      rw [hrt, linked_row htn hji, ha.mem_eq, ← hrt, hs.kernel j hj]
    · rw [linked_other hrt hrn, ha.mem_eq, hs.kernel j hj]
  · by_cases hq : [a] = path ++ [i]
    · rw [(hlink _).1 hq] at hm
      obtain rfl := Option.some.inj hm
      rw [linked_new htn]
      exact Or.inl rfl
    · rw [(hlink _).2 hq] at hm
      exact hupper m j (hs.used _ m hm) (hs.middle a m j hm)
  · by_cases hq : [a, b] = path ++ [i]
    · rw [(hlink _).1 hq] at hm
      obtain rfl := Option.some.inj hm
      rw [linked_new htn]
      exact Or.inl rfl
    · rw [(hlink _).2 hq] at hm
      rw [linked_bottom ha hs ht hlen hm]
      exact hs.bottom a b m j hm

end Link

section Mapping
variable {s : MemState} {r t : ℕ} {i : Fin 512} {path : List (Fin 512)}
variable {E : Error → MemState → Prop} {N : Panic → Prop}

@[simp] theorem wp_setPhysicalAddress {Q : PageTableEntry → MemState → Prop} (e : PageTableEntry)
    (n : ℕ) : wp (PageTable.setPhysicalAddress e (4096 * n)) Q E N s ↔
      Q (e.setPhysicalAddress (4096 * n)) s := by
  simp [PageTable.setPhysicalAddress]

@[simp] theorem wp_zeroFrame {Q : Unit → MemState → Prop} (n : ℕ) :
    wp (zeroFrame (4096 * n)) Q E N s ↔ Q () (s.setFrame n fun _ => 0) := by
  rw [zeroFrame, wp_modify, pageSize, Nat.mul_div_cancel_left n (by norm_num)]

theorem mul_pageSize_div (n : ℕ) : 4096 * n / pageSize = n :=
  Nat.mul_div_cancel_left n (by norm_num [pageSize])

/-- **Descending one level**: the table is there, or a new one is linked in. -/
theorem wp_getOrCreateNextTable {Q : ℕ → MemState → Prop} (hp : s.Placed) (hs : Shape s r)
    (ht : tableAt s r path = some t) (hlen : path.length < 2) (hptr : IsPointer (s.mem t i))
    (hlow : path = [] → i.val < 256) (hN : ∀ p, OutOfMemory p → N p)
    (h : ∀ n s', Shape s' r → Extends s s' r → (∀ v, pteAt s' r v = pteAt s r v) →
      tableAt s' r (path ++ [i]) = some n → Q n s') :
    wp (PageTable.getOrCreateNextTable t i) Q E N s := by
  simp only [PageTable.getOrCreateNextTable, wp_bind, wp_gets, wp_ite]
  rcases hptr with he | ⟨n, hn⟩
  · refine ⟨fun hv => absurd hv (by rw [he]; decide), fun _ => ?_⟩
    refine wp_allocFrameUnwrap hp hN fun n s₁ ha => ?_
    have hrange := (ha.placed hp).range ha.used_self
    simp only [wp_assert, isCanonical_physToVirt hrange.2, true_implies, wp_zeroFrame,
      wp_setPhysicalAddress, wp_modify, wp_pure, mul_pageSize_div, Bool.true_eq_false,
      false_implies, and_true]
    change Q n (linked s₁ t i n)
    exact h n _ (shape_linked ha hp hs ht he hlen hlow) (extends_linked ha hp hs ht he)
      (pteAt_linked ha hp hs ht he hlen) ((tableAt_linked ha hp hs ht he _).1 rfl)
  · obtain ⟨hv, hl, hppn⟩ := child_eq_some hn
    refine ⟨fun _ => ⟨fun hl' => absurd hl' (by rw [hl]; decide), fun _ => ?_⟩,
      fun hv' => absurd hv hv'⟩
    rw [wp_pure, physicalAddress_eq, mul_pageSize_div, hppn]
    refine h n s hs (Extends.refl hs) (fun _ => rfl) ?_
    rw [tableAt, nodeAt_concat, show nodeAt child s.mem r path = some t from ht, Option.bind_some,
      hn]

end Mapping

section Leaf
variable {s : MemState} {r n : ℕ} {v : Vpn} {e : PageTableEntry}

theorem IsUserLeaf.child_eq_none (h : IsUserLeaf e) : child e = none := by
  rcases h with rfl | ⟨hl, -⟩
  · exact child_zero
  · exact child_of_isLeaf hl

theorem pteAt_of_tableAt (hn : tableAt s r [v.1, v.2.1] = some n) :
    pteAt s r v = s.mem n v.2.2 := by
  simp only [pteAt, hn]

theorem Shape.isUserLeaf (hs : Shape s r) (v : Vpn) : IsUserLeaf (pteAt s r v) := by
  cases hn : tableAt s r [v.1, v.2.1] with
  | none =>
      rw [pteAt, hn]
      exact Or.inl rfl
  | some n =>
      rw [pteAt_of_tableAt hn]
      exact hs.bottom _ _ n v.2.2 hn

variable (hs : Shape s r) (hn : tableAt s r [v.1, v.2.1] = some n) (he : IsUserLeaf e)
include hs hn he

/-- Replacing a bottom entry moves no table. -/
theorem tableAt_setLeaf (p : List (Fin 512)) :
    tableAt (s.setEntry n v.2.2 e) r p = tableAt s r p := by
  refine nodeAt_congr (fun q m _ i => ?_) p
  by_cases hm : m = n
  · subst hm
    by_cases hi : i = v.2.2
    · subst hi
      rw [setEntry_self, he.child_eq_none, (hs.bottom _ _ m _ hn).child_eq_none]
    · rw [setEntry_of_ne_index hi]
  · rw [setEntry_of_ne hm]

theorem extends_setLeaf : Extends s (s.setEntry n v.2.2 e) r := by
  have htab := tableAt_setLeaf hs hn he
  refine ⟨fun p m hp => by rw [htab, hp], fun p m hp => Or.inl (htab p ▸ hp), fun m => ?_,
    fun m _ hno => ?_, rfl, rfl⟩
  · rw [setEntry_used]
    refine ⟨Or.inl, fun h => h.elim id ?_⟩
    rintro ⟨p, hp⟩
    exact hs.used p m (htab p ▸ hp)
  · exact setEntry_of_ne fun h => hno _ (h ▸ hn)

theorem pteAt_setLeaf (w : Vpn) :
    pteAt (s.setEntry n v.2.2 e) r w = if w = v then e else pteAt s r w := by
  have htab := tableAt_setLeaf hs hn he [w.1, w.2.1]
  by_cases hw : w = v
  · subst hw
    rw [if_pos rfl, pteAt_of_tableAt (htab.trans hn), setEntry_self]
  · rw [if_neg hw]
    unfold pteAt
    rw [htab]
    cases hm : tableAt s r [w.1, w.2.1] with
    | none => rfl
    | some m =>
        by_cases hmn : m = n
        · -- the same bottom table, so the pages differ in their last index
          subst hmn
          have hpath := hs.tree.inj _ _ m hm hn
          simp only [List.cons.injEq, and_true] at hpath
          have hlast : w.2.2 ≠ v.2.2 := fun h =>
            hw (Prod.ext hpath.1 (Prod.ext hpath.2 h))
          exact setEntry_of_ne_index hlast
        · exact congrFun (setEntry_of_ne hmn) _

theorem shape_setLeaf : Shape (s.setEntry n v.2.2 e) r := by
  have htab := tableAt_setLeaf hs hn he
  have hne : ∀ p m, tableAt s r p = some m → p ≠ [v.1, v.2.1] → m ≠ n := by
    rintro p m hp hpv rfl
    exact hpv (hs.tree.inj _ _ m hp hn)
  have hroot : r ≠ n := hne [] r rfl (by simp)
  refine ⟨?_, fun p m hp => hs.used p m (htab p ▸ hp), fun i hi => ?_, fun i hi => ?_,
    fun a m i hm => ?_, fun a b m i hm => ?_⟩
  · exact ⟨fun p q m hp hq => hs.tree.inj p q m ((htab p).symm.trans hp) ((htab q).symm.trans hq),
      fun p m hp => hs.tree.depth p m ((htab p).symm.trans hp)⟩
  · rw [setEntry_of_ne hroot]
    exact hs.user i hi
  · rw [setEntry_of_ne hroot]
    exact hs.kernel i hi
  · rw [htab] at hm
    rw [setEntry_of_ne (hne [a] m hm (by simp))]
    exact hs.middle a m i hm
  · rw [htab] at hm
    by_cases hmn : m = n
    · subst hmn
      by_cases hi : i = v.2.2
      · rwa [hi, setEntry_self]
      · rw [setEntry_of_ne_index hi]
        exact hs.bottom a b m i hm
    · rw [setEntry_of_ne hmn]
      exact hs.bottom a b m i hm

end Leaf

section MapVm
variable {s : MemState} {r f va : ℕ} {flags : PteFlags} {Q : Unit → MemState → Prop}
variable {E : Error → MemState → Prop} {N : Panic → Prop}

theorem vpn2_lt_of_lower (hva : va < 2 ^ 38) : (vpn2 va).val < 256 := by
  simp only [vpn2, Nat.shiftRight_eq_div_pow]
  omega

theorem and_RX_ne_zero (flags : PteFlags) :
    flags &&& PteFlags.RX ≠ 0#8 ↔ (flags.getLsbD 1 || flags.getLsbD 3) = true := by
  revert flags
  decide +kernel

/-- `leafEntry` with user permissions is what the bottom level may hold. -/
theorem isUserLeaf_leafEntry (pa : ℕ) (hX : flags &&& PteFlags.RX ≠ 0#8)
    (hU : flags.getLsbD 4 = true) : IsUserLeaf (leafEntry pa flags) := by
  rw [and_RX_ne_zero] at hX
  refine Or.inr ⟨leafEntry_isLeaf pa ?_, by rw [leafEntry_isUser, hU], ?_⟩
  · rw [and_RWX_ne_zero, Bool.or_right_comm, hX, Bool.true_or]
  · rw [ReadOrExec, getLsbD_leafEntry _ _ (by norm_num), getLsbD_leafEntry _ _ (by norm_num)]
    simpa using hX

theorem wp_mapLeaf_empty {t : ℕ} {i : Fin 512} (h0 : s.mem t i = 0) :
    wp (PageTable.mapLeaf t i (some (4096 * f)) flags) Q E N s ↔
      Q () (s.setEntry t i (leafEntry (4096 * f) flags)) := by
  have hv : isValid (0 : PageTableEntry) = false := by decide
  simp only [PageTable.mapLeaf, wp_bind, wp_gets, h0, hv, Bool.false_and, Bool.false_eq_true,
    if_false, Bool.not_false, if_true, wp_setPhysicalAddress, wp_modify]
  rfl

theorem wp_mapLeaf_leaf {t : ℕ} {i : Fin 512} {pa : Option ℕ} (hl : (s.mem t i).isLeaf = true) :
    wp (PageTable.mapLeaf t i pa flags) Q E N s ↔
      Q () (s.setEntry t i ((s.mem t i).setFlags
        (flags ||| PteFlags.V ||| PteFlags.A ||| PteFlags.D))) := by
  simp only [PageTable.mapLeaf, wp_bind, wp_gets, hl, isValid_of_isLeaf hl, Bool.not_true,
    Bool.and_false, Bool.false_eq_true, if_false, wp_modify]

/-- **Mapping a page of the lower half** that is not mapped yet. -/
theorem wp_mapVm (hp : s.Placed) (hs : Shape s r) (hva : va < 2 ^ 38) (hal : va % 4096 = 0)
    (hun : pteAt s r (vpn va) = 0) (hX : flags &&& PteFlags.RX ≠ 0#8)
    (hU : flags.getLsbD 4 = true) (hN : ∀ p, OutOfMemory p → N p)
    (h : ∀ s', Shape s' r → Extends s s' r → (∀ w, pteAt s' r w =
      if w = vpn va then leafEntry (4096 * f) flags else pteAt s r w) → Q () s') :
    wp (PageTable.mapVm (4096 * r) va (4096 * f) flags) Q E N s := by
  rw [PageTable.mapVm, PageTable.mapMemory]
  simp only [PageTable.checkMappingAlignment, PageSize.bytes, wp_bind, wp_assert, hal,
    Nat.mul_mod_right, beq_self_eq_true, true_implies, Bool.true_eq_false, false_implies, and_true,
    mul_pageSize_div]
  have hlow := vpn2_lt_of_lower hva
  refine wp_getOrCreateNextTable hp hs (show tableAt s r [] = some r from rfl) (by simp)
    (hs.user _ hlow) (fun _ => hlow) hN fun l1 s₁ hs₁ he₁ hpte₁ hl1 => ?_
  refine wp_getOrCreateNextTable (hp.congr he₁.addr_eq) hs₁ hl1 (by simp)
    (hs₁.middle _ l1 _ hl1) (by simp) hN fun l0 s₂ hs₂ he₂ hpte₂ hl0 => ?_
  have hl0' : tableAt s₂ r [(vpn va).1, (vpn va).2.1] = some l0 := hl0
  have hzero : s₂.mem l0 (vpn0 va) = 0 := by
    rw [show s₂.mem l0 (vpn0 va) = pteAt s₂ r (vpn va) from (pteAt_of_tableAt hl0').symm, hpte₂,
      hpte₁, hun]
  have hleaf := isUserLeaf_leafEntry (4096 * f) hX hU
  rw [wp_mapLeaf_empty hzero]
  refine h _ (shape_setLeaf hs₂ hl0' hleaf) ((he₁.trans he₂).trans (extends_setLeaf hs₂ hl0' hleaf))
    fun w => ?_
  rw [show vpn0 va = (vpn va).2.2 from rfl, pteAt_setLeaf hs₂ hl0' hleaf, hpte₂, hpte₁]

end MapVm
end Efiks.Mm
