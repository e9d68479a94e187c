import Efiks.Mm.KernelStack

/-!
# Page tables as partial maps

A table that is built from an empty root by mapping pages of 4 KiB, 2 MiB and 1 GiB is
a partial map from virtual to physical addresses: the pages that were mapped, and
nothing else. A page is named by the indices from the root to its leaf entry, one for
each level down to the level its size ends at; two pages are disjoint if neither path
starts with the other.

An entry with none of the flags R, W and X is no leaf, so a page mapped without them is
not translated. The results are about mappings with at least one of the three.

## Main definitions

* `Mapping` — the arguments of a call of `map_vm_with_page_size`.
* `Built r s ms` — the table at frame `r` after the mappings `ms`, newest first.
* `MapsExactly` — translation is the partial map of the mappings.

## Main results

* `wp_mapVmWithPageSize` — one call.
* `mapsExactly_of_built` — every table that can be built.
-/
namespace Efiks.Mm
open Lib Lib.RustM PageTableEntry

/-- The number of table levels to the leaf entry of a page. -/
def PageSize.levels : PageSize → ℕ
  | .size1G => 1
  | .size2M => 2
  | .size4K => 3

/-- The arguments of `map_vm_with_page_size`. -/
structure Mapping where
  va : ℕ
  pa : ℕ
  flags : PteFlags
  size : PageSize

/-- The indices of the entries a translation of `va` reads. -/
def vpnPath (va : ℕ) : List (Fin 512) := [vpn2 va, vpn1 va, vpn0 va]

namespace Mapping

/-- The addresses are a `VirtualAddress` and a `PhysicalAddress`, aligned to the page. -/
structure Ok (m : Mapping) : Prop where
  canonical : isCanonical m.va = true
  va_aligned : m.va % m.size.bytes = 0
  pa_aligned : m.pa % m.size.bytes = 0
  pa_lt : m.pa < 2 ^ 55

/-- `va` lies in the page. -/
def Covers (m : Mapping) (va : ℕ) : Prop := m.va ≤ va ∧ va < m.va + m.size.bytes

/-- The two pages have no address in common. -/
def Apart (m m' : Mapping) : Prop := ∀ va, ¬ (m.Covers va ∧ m'.Covers va)

/-- The flags make the entry a leaf. -/
def Leafy (m : Mapping) : Prop := m.flags &&& PteFlags.RWX ≠ 0#8

instance (m : Mapping) : Decidable m.Leafy :=
  inferInstanceAs (Decidable (m.flags &&& PteFlags.RWX ≠ 0#8))

/-- The indices from the root to the leaf entry of the page. -/
def path (m : Mapping) : List (Fin 512) := (vpnPath m.va).take m.size.levels

/-- The leaf entry of the page. -/
def entry (m : Mapping) : PageTableEntry := leafEntry m.pa m.flags

end Mapping

/-- The entry a translation of `va` ends at, with the size of its page. -/
def entryOf (mem : ℕ → Frame) (rootPt va : ℕ) : Option (PageTableEntry × PageSize) :=
  (PageTable.translateToPtePtr mem rootPt va).map fun (table, i, size) => (mem table i, size)

/-! ## Addresses and paths -/

section Paths
variable {va vb : ℕ} {m m' : Mapping}

/-- The upper bits of a canonical address follow from its top index. -/
theorem isCanonical_div (h : isCanonical va = true) :
    va / 2 ^ 30 = (if (vpn2 va).val < 256 then 0 else (2 ^ 25 - 1) * 512) + (vpn2 va).val := by
  simp only [isCanonical, Nat.shiftRight_eq_div_pow, Bool.or_eq_true, Bool.and_eq_true,
    beq_iff_eq] at h
  simp only [vpn2, Nat.shiftRight_eq_div_pow]
  split <;> omega

theorem div_eq_iff_vpn2 (ha : isCanonical va = true) (hb : isCanonical vb = true) :
    va / 2 ^ 30 = vb / 2 ^ 30 ↔ vpn2 va = vpn2 vb := by
  have ha' := isCanonical_div ha
  have hb' := isCanonical_div hb
  constructor
  · intro h
    simp only [vpn2, Nat.shiftRight_eq_div_pow, h]
  · intro h
    rw [ha', hb', h]

theorem div_eq_iff_vpn1 :
    va / 2 ^ 21 = vb / 2 ^ 21 ↔ va / 2 ^ 30 = vb / 2 ^ 30 ∧ vpn1 va = vpn1 vb := by
  simp only [Fin.ext_iff, vpn1, Nat.shiftRight_eq_div_pow]
  omega

theorem div_eq_iff_vpn0 :
    va / 2 ^ 12 = vb / 2 ^ 12 ↔ va / 2 ^ 21 = vb / 2 ^ 21 ∧ vpn0 va = vpn0 vb := by
  simp only [Fin.ext_iff, vpn0, Nat.shiftRight_eq_div_pow]
  omega

theorem covers_iff_div (hm : m.va % m.size.bytes = 0) :
    m.Covers va ↔ m.va / m.size.bytes = va / m.size.bytes := by
  have hpos : 0 < m.size.bytes := by cases m.size <;> decide
  rw [Mapping.Covers]
  generalize m.size.bytes = b at *
  have ha := Nat.div_add_mod m.va b
  have hb := Nat.div_add_mod va b
  have hlt := Nat.mod_lt va hpos
  rw [hm, Nat.add_zero] at ha
  constructor
  · rintro ⟨hle, hlt⟩
    refine Nat.le_antisymm (Nat.div_le_div_right hle) ?_
    rw [← Nat.lt_add_one_iff, Nat.div_lt_iff_lt_mul hpos, Nat.add_mul, Nat.one_mul,
      Nat.mul_comm, ha]
    exact hlt
  · intro h
    rw [h] at ha
    omega

/-- A canonical address lies in a page exactly if its translation reads the page's entries. -/
theorem covers_iff_path (hm : m.Ok) (hva : isCanonical va = true) :
    m.Covers va ↔ m.path <+: vpnPath va := by
  rw [covers_iff_div hm.va_aligned]
  have htop := div_eq_iff_vpn2 hm.canonical hva
  unfold Mapping.path vpnPath
  cases m.size with
  | size1G =>
    rw [show PageSize.size1G.bytes = 2 ^ 30 from rfl, htop]
    simp [PageSize.levels]
  | size2M =>
    rw [show PageSize.size2M.bytes = 2 ^ 21 from rfl, div_eq_iff_vpn1, htop]
    simp [PageSize.levels]
  | size4K =>
    rw [show PageSize.size4K.bytes = 2 ^ 12 from rfl, div_eq_iff_vpn0, div_eq_iff_vpn1, htop]
    simp [PageSize.levels, and_assoc]

theorem Mapping.Ok.exists_frame (hm : m.Ok) : ∃ f, m.pa = 4096 * f := by
  refine ⟨m.pa / 4096, ?_⟩
  have hpa := hm.pa_aligned
  revert hpa
  cases m.size <;> simp only [PageSize.bytes] <;> omega

theorem covers_self : m.Covers m.va := by
  refine ⟨le_rfl, ?_⟩
  have hpos : 0 < m.size.bytes := by cases m.size <;> decide
  omega

/-- The path of a page of its own is no part of the path of a page apart from it. -/
theorem not_path_of_apart (hm : m.Ok) (hm' : m'.Ok) (h : m.Apart m') : ¬ m.path <+: m'.path := by
  intro hp
  refine h m'.va ⟨?_, covers_self⟩
  rw [covers_iff_path hm hm'.canonical]
  exact hp.trans (List.take_prefix ..)

theorem Mapping.Apart.symm (h : m.Apart m') : m'.Apart m := fun va hva => h va hva.symm

end Paths

/-! ## The tables of a partial map -/

/-- The frame is not one the allocator can hand out. -/
def MemState.Held (s : MemState) (n : ℕ) : Prop :=
  s.used n ∨ n < s.start ∨ s.start + 4096 ≤ n

/-- The tables under `r` hold the entries of `ms` and no other leaf. While a page is being
mapped, tables may stand along its path `q` with nothing below them yet. -/
structure Refines (s : MemState) (r : ℕ) (ms : List Mapping) (q : List (Fin 512)) : Prop where
  placed : s.Placed
  tree : IsTree child s.mem r 2
  held : ∀ p n, tableAt s r p = some n → s.Held n
  entry : ∀ p n i, tableAt s r p = some n → s.mem n i = 0 ∨ (∃ c, child (s.mem n i) = some c) ∨
    ∃ m ∈ ms, m.path = p ++ [i] ∧ s.mem n i = m.entry
  mapped : ∀ m ∈ ms, ∃ p n i, m.path = p ++ [i] ∧ tableAt s r p = some n ∧ s.mem n i = m.entry
  below : ∀ p n, p ≠ [] → tableAt s r p = some n →
    (p <+: q ∧ p ≠ q) ∨ ∃ m ∈ ms, p <+: m.path ∧ p ≠ m.path

section Tables
variable {s s₁ s' : MemState} {r t n : ℕ} {i : Fin 512} {p q : List (Fin 512)}
variable {m : Mapping} {ms : List Mapping}

theorem Allocated.lt (ha : Allocated s n s₁) : n < s.start + 4096 := by
  have hset := FrameAllocator.lt_of_isSet ha.used_self.2
  have hstart : s₁.start = s.start := by rw [MemState.start, MemState.start, ha.addr_eq]
  rw [hstart] at hset
  omega

theorem Allocated.not_held (ha : Allocated s n s₁) : ¬ s.Held n := by
  have hlt := ha.lt
  have hle := ha.start_le
  rintro (hu | h | h)
  · exact ha.fresh hu
  · omega
  · omega

theorem Allocated.held (ha : Allocated s n s₁) {x : ℕ} (hx : s.Held x) : s₁.Held x := by
  have hstart : s₁.start = s.start := by rw [MemState.start, MemState.start, ha.addr_eq]
  rcases hx with hu | h
  · exact Or.inl ((ha.used x).mpr (Or.inl hu))
  · exact Or.inr (hstart ▸ h)

theorem Refines.of_mem {ms : List Mapping} (h : Refines s r ms q)
    (hmem : ∀ p n, tableAt s r p = some n → s'.mem n = s.mem n)
    (hheld : ∀ p n, tableAt s r p = some n → s'.Held n) (hp : s'.Placed) :
    Refines s' r ms q := by
  have htab := tableAt_congr hmem
  refine ⟨hp, h.tree.congr fun p n hp i => by rw [hmem p n hp], fun p n hn => ?_,
    fun p n i hn => ?_, fun m hm => ?_, fun p n hne hn => ?_⟩
  · exact hheld p n ((htab p).symm.trans hn)
  · rw [htab] at hn
    rw [hmem p n hn]
    exact h.entry p n i hn
  · obtain ⟨p, n, i, hpath, hn, he⟩ := h.mapped m hm
    exact ⟨p, n, i, hpath, (htab p).trans hn, by rw [hmem p n hn, he]⟩
  · exact h.below p n hne ((htab p).symm.trans hn)

/-- The tables along `q` are accounted for by another path or by a page. -/
theorem Refines.weaken (h : Refines s r ms q) {q' : List (Fin 512)}
    (hq : ∀ p, p ≠ [] → p <+: q → p ≠ q →
      (p <+: q' ∧ p ≠ q') ∨ ∃ m ∈ ms, p <+: m.path ∧ p ≠ m.path) : Refines s r ms q' where
  placed := h.placed
  tree := h.tree
  held := h.held
  entry := h.entry
  mapped := h.mapped
  below p n hne hn := (h.below p n hne hn).elim (fun hp => hq p hne hp.1 hp.2) Or.inr

theorem Mapping.entry_isValid (m : Mapping) : m.entry.isValid = true := leafEntry_isValid ..

theorem Mapping.entry_ne_zero (m : Mapping) : m.entry ≠ 0 := by
  intro h
  have hv := m.entry_isValid
  rw [h] at hv
  exact absurd hv (by decide)

/-- A table hung under an empty entry along `q`. -/
theorem Refines.link (h : Refines s r ms q) (ha : Allocated s n s₁)
    (ht : tableAt s r p = some t) (hlen : p.length < 2) (he : s.mem t i = 0)
    (hq : p ++ [i] <+: q) (hne : p ++ [i] ≠ q) :
    Refines (linked s₁ t i n) r ms q ∧ tableAt (linked s₁ t i n) r (p ++ [i]) = some n := by
  have hfresh : ∀ p' x, tableAt s r p' = some x → x ≠ n := fun p' x hx hxn =>
    ha.not_held (hxn ▸ h.held p' x hx)
  have htn : t ≠ n := hfresh p t ht
  have hn44 : n < 2 ^ 44 := by
    have := (ha.placed h.placed).range ha.used_self
    omega
  have hlink : ∀ p', (p' = p ++ [i] → tableAt (linked s₁ t i n) r p' = some n) ∧
      (p' ≠ p ++ [i] → tableAt (linked s₁ t i n) r p' = tableAt s r p') := by
    refine nodeAt_link h.tree ht (by rw [he]; exact child_zero) ?_ ?_ ?_ ?_
    · rw [linked_entry, child_newValid hn44]
    · intro j hj
      rw [linked_row htn hj, ha.mem_eq]
    · intro j
      rw [linked_new htn]
      exact child_zero
    · intro p' x hx hxt j
      rw [linked_other hxt (hfresh p' x hx), ha.mem_eq]
  -- The rows of the old tables, but for the entry that was set.
  have hrow : ∀ p' x, tableAt s r p' = some x → ∀ j, (x = t → j ≠ i) →
      (linked s₁ t i n).mem x j = s.mem x j := by
    intro p' x hx j hj
    by_cases hxt : x = t
    · subst hxt
      rw [linked_row htn (hj rfl), ha.mem_eq]
    · rw [linked_other hxt (hfresh p' x hx), ha.mem_eq]
  have hempty : tableAt s r (p ++ [i]) = none := by
    rw [tableAt_concat ht, he]
    exact child_zero
  refine ⟨⟨(ha.placed h.placed).congr rfl, ?_, fun p' x hx => ?_, fun p' x j hx => ?_, fun m hm => ?_,
    fun p' x hp' hx => ?_⟩, (hlink _).1 rfl⟩
  · exact h.tree.link hlen (fun p' hp' => hfresh p' n hp' rfl) hlink
  · by_cases hp' : p' = p ++ [i]
    · rw [(hlink p').1 hp'] at hx
      exact Or.inl (Option.some.inj hx ▸ ha.used_self)
    · rw [(hlink p').2 hp'] at hx
      exact ha.held (h.held p' x hx)
  · by_cases hp' : p' = p ++ [i]
    · rw [(hlink p').1 hp'] at hx
      obtain rfl := Option.some.inj hx
      rw [linked_new htn]
      exact Or.inl rfl
    · rw [(hlink p').2 hp'] at hx
      by_cases hset : x = t ∧ j = i
      · obtain ⟨rfl, rfl⟩ := hset
        rw [linked_entry]
        exact Or.inr (Or.inl ⟨n, child_newValid hn44⟩)
      · rw [hrow p' x hx j fun hxt hji => hset ⟨hxt, hji⟩]
        exact h.entry p' x j hx
  · obtain ⟨p', x, j, hpath, hx, hentry⟩ := h.mapped m hm
    have hp' : p' ≠ p ++ [i] := by
      rintro rfl
      rw [hempty] at hx
      cases hx
    refine ⟨p', x, j, hpath, by rw [(hlink p').2 hp', hx], ?_⟩
    rw [hrow p' x hx j, hentry]
    rintro rfl rfl
    exact m.entry_ne_zero (hentry.symm.trans he)
  · by_cases hpi : p' = p ++ [i]
    · exact Or.inl (hpi ▸ ⟨hq, hne⟩)
    · rw [(hlink p').2 hpi] at hx
      exact h.below p' x hp' hx

/-- Going down one level along the path of a page that no mapped page contains. -/
theorem wp_getOrCreateNextTable_refines {Q : ℕ → MemState → Prop} {E : Error → MemState → Prop}
    {N : Panic → Prop} (h : Refines s r ms q) (ht : tableAt s r p = some t) (hlen : p.length < 2)
    (hq : p ++ [i] <+: q) (hne : p ++ [i] ≠ q) (hno : ∀ m ∈ ms, m.path ≠ p ++ [i])
    (hN : ∀ pn, OutOfMemory pn → s.freeFrames = [] → N pn)
    (hQ : ∀ n s', Refines s' r ms q → tableAt s' r (p ++ [i]) = some n →
      s.freeFrames.length ≤ s'.freeFrames.length + 1 → Q n s') :
    wp (PageTable.getOrCreateNextTable t i) Q E N s := by
  rw [PageTable.getOrCreateNextTable, wp_bind, wp_gets]
  rcases h.entry p t i ht with he | ⟨c, hc⟩ | ⟨m, hm, hpath, -⟩
  · -- An empty entry: a fresh table.
    rw [he, if_neg (by decide), wp_bind, allocFrameUnwrap, wp_expectOk]
    refine wp_mono (wp_allocFrame h.placed) ?_ ?_ (fun _ hf => hf.elim)
    · rintro pa s₁ ⟨n, rfl, ha⟩
      have hrange := (ha.placed h.placed).range ha.used_self
      have hcan := isCanonical_physToVirt hrange.2
      obtain ⟨href, htab⟩ := h.link ha ht hlen he hq hne
      simp only [wp_bind, wp_assert, hcan, wp_zeroFrame, wp_setPhysicalAddress, wp_modify, wp_pure,
        mul_pageSize_div, true_implies, Bool.true_eq_false, false_implies, and_true]
      refine hQ n _ href htab ?_
      rw [ha.taken.free_eq, List.length_append, List.length_singleton, Nat.add_comm]
      exact le_rfl
    · rintro e s' ⟨-, -, hall⟩
      exact hN _ (Or.inl rfl) (freeFrames_eq_nil hall)
  · -- A table is there already.
    obtain ⟨hv, hl, hppn⟩ := child_eq_some hc
    have hdiv : (s.mem t i).physicalAddress / pageSize = c := by
      rw [physicalAddress_eq, hppn, mul_pageSize_div]
    simp only [hv, hl, if_true, Bool.false_eq_true, if_false, wp_pure, hdiv]
    exact hQ c s h ((tableAt_concat ht).trans hc) (Nat.le_succ _)
  · exact absurd hpath (hno m hm)

/-- The leaf entry of a page apart from all others is written into an empty entry. -/
theorem Refines.leaf (h : Refines s r ms m.path) (hm : m.Leafy) (ht : tableAt s r p = some t)
    (hpath : m.path = p ++ [i]) (he : s.mem t i = 0) :
    Refines (s.setEntry t i m.entry) r (m :: ms) [] := by
  have hleaf : child m.entry = none := child_of_isLeaf (leafEntry_isLeaf _ hm)
  have hrow : ∀ x j, (x = t → j ≠ i) → (s.setEntry t i m.entry).mem x j = s.mem x j := by
    intro x j hj
    by_cases hxt : x = t
    · subst hxt
      exact setEntry_of_ne_index (hj rfl)
    · rw [setEntry_of_ne hxt]
  have hchild : ∀ x j, child ((s.setEntry t i m.entry).mem x j) = child (s.mem x j) := by
    intro x j
    by_cases hset : x = t ∧ j = i
    · obtain ⟨rfl, rfl⟩ := hset
      rw [setEntry_self, hleaf, he]
      exact child_zero.symm
    · rw [hrow x j fun hxt hji => hset ⟨hxt, hji⟩]
  have htab : ∀ p', tableAt (s.setEntry t i m.entry) r p' = tableAt s r p' := fun p' =>
    nodeAt_congr (fun _ x _ j => hchild x j) p'
  refine ⟨h.placed.congr rfl, h.tree.congr fun _ x _ j => hchild x j, fun p' x hx => ?_,
    fun p' x j hx => ?_, fun m' hm' => ?_, fun p' x hne hx => ?_⟩
  · exact h.held p' x ((htab p').symm.trans hx)
  · rw [htab] at hx
    by_cases hset : x = t ∧ j = i
    · obtain ⟨rfl, rfl⟩ := hset
      have hpp : p' = p := h.tree.inj p' p x hx ht
      exact Or.inr (Or.inr ⟨m, List.mem_cons_self, by rw [hpath, hpp], setEntry_self⟩)
    · rw [hrow x j fun hxt hji => hset ⟨hxt, hji⟩]
      rcases h.entry p' x j hx with h0 | hc | ⟨m', hm', hrest⟩
      · exact Or.inl h0
      · exact Or.inr (Or.inl hc)
      · exact Or.inr (Or.inr ⟨m', List.mem_cons_of_mem _ hm', hrest⟩)
  · rcases List.mem_cons.mp hm' with rfl | hm'
    · exact ⟨p, t, i, hpath, (htab p).trans ht, setEntry_self⟩
    · obtain ⟨p', x, j, hpath', hx, hentry⟩ := h.mapped m' hm'
      refine ⟨p', x, j, hpath', (htab p').trans hx, ?_⟩
      rw [hrow x j, hentry]
      rintro rfl rfl
      exact m'.entry_ne_zero (hentry.symm.trans he)
  · rcases h.below p' x hne ((htab p').symm.trans hx) with hp' | ⟨m', hm', hp'⟩
    · exact Or.inr ⟨m, List.mem_cons_self, hp'⟩
    · exact Or.inr ⟨m', List.mem_cons_of_mem _ hm', hp'⟩

/-- `map_leaf` at the end of the path of a page apart from all others. -/
theorem wp_mapLeaf_refines {Q : Unit → MemState → Prop} {E : Error → MemState → Prop}
    {N : Panic → Prop} (h : Refines s r ms m.path) (hok : m.Ok) (hm : m.Leafy)
    (ht : tableAt s r p = some t) (hpath : m.path = p ++ [i])
    (hapart : ∀ m' ∈ ms, ¬ m'.path <+: m.path ∧ ¬ m.path <+: m'.path)
    (hQ : Refines (s.setEntry t i m.entry) r (m :: ms) [] → Q () (s.setEntry t i m.entry)) :
    wp (PageTable.mapLeaf t i (some m.pa) m.flags) Q E N s := by
  have he : s.mem t i = 0 := by
    rcases h.entry p t i ht with he | ⟨c, hc⟩ | ⟨m', hm', hpath', -⟩
    · exact he
    · have hx : tableAt s r m.path = some c := by rw [hpath, tableAt_concat ht, hc]
      rcases h.below m.path c (by simp [hpath]) hx with ⟨-, hne⟩ | ⟨m', hm', hp', -⟩
      · exact absurd rfl hne
      · exact absurd hp' (hapart m' hm').2
    · exact absurd (by rw [hpath', ← hpath]) (hapart m' hm').1
  obtain ⟨f, hf⟩ := hok.exists_frame
  have hmap := h.leaf hm ht hpath he
  rw [hf, wp_mapLeaf_empty he, ← hf]
  exact hQ hmap

end Tables

/-! ## One call -/

section Call
variable {s : MemState} {r : ℕ} {m : Mapping} {ms : List Mapping}
variable {Q : Unit → MemState → Prop} {E : Error → MemState → Prop}

theorem wp_checkMappingAlignment {N : Panic → Prop} {va pa : ℕ} {size : PageSize}
    (hva : va % size.bytes = 0) (hpa : pa % size.bytes = 0) :
    wp (PageTable.checkMappingAlignment va pa size) Q E N s ↔ Q () s := by
  have hva' : (va % size.bytes == 0) = true := beq_iff_eq.mpr hva
  have hpa' : (pa % size.bytes == 0) = true := beq_iff_eq.mpr hpa
  simp only [PageTable.checkMappingAlignment, wp_bind, wp_assert, hva', hpa', true_implies,
    Bool.true_eq_false, false_implies, and_true]

/-- The first indices of the path of an address. -/
theorem take_vpnPath (va : ℕ) : (vpnPath va).take 1 = [] ++ [vpn2 va] ∧
    (vpnPath va).take 2 = [vpn2 va] ++ [vpn1 va] ∧
    (vpnPath va).take 3 = [vpn2 va, vpn1 va] ++ [vpn0 va] := ⟨rfl, rfl, rfl⟩

/-- Mapping one more page, apart from those that are mapped. -/
theorem wp_mapVmWithPageSize (h : Refines s r ms []) (hm : m.Ok) (hleafy : m.Leafy)
    (hapart : ∀ m' ∈ ms, ¬ m'.path <+: m.path ∧ ¬ m.path <+: m'.path)
    (hQ : ∀ s', Refines s' r (m :: ms) [] → Q () s') :
    wp (PageTable.mapVmWithPageSize (4096 * r) m.va m.pa m.flags m.size) Q E
      (fun p => OutOfMemory p ∧ s.freeFrames.length < m.size.levels - 1) s := by
  have hq : Refines s r ms m.path := h.weaken fun p hne hp _ =>
    absurd (List.prefix_nil.mp hp) hne
  have hno : ∀ p, p <+: m.path → ∀ m' ∈ ms, m'.path ≠ p := fun p hp m' hm' heq =>
    (hapart m' hm').1 (heq ▸ hp)
  have hroot : tableAt s r [] = some r := rfl
  have hva := hm.va_aligned
  have hpa := hm.pa_aligned
  obtain ⟨h1, h2, h3⟩ := take_vpnPath m.va
  have hpath : m.path = (vpnPath m.va).take m.size.levels := rfl
  rw [PageTable.mapVmWithPageSize]
  cases hs : m.size with
  | size1G =>
    rw [hs] at hva hpa hpath
    rw [PageTable.mapMemory, wp_bind, wp_checkMappingAlignment hva hpa, mul_pageSize_div]
    exact wp_mapLeaf_refines hq hm hleafy hroot (hpath.trans h1) hapart (hQ _)
  | size2M =>
    rw [hs] at hva hpa hpath
    have hsub : [] ++ [vpn2 m.va] <+: m.path := ⟨[vpn1 m.va], (hpath.trans h2).symm⟩
    rw [PageTable.mapMemory, wp_bind, wp_checkMappingAlignment hva hpa, mul_pageSize_div, wp_bind]
    refine wp_getOrCreateNextTable_refines hq hroot (by simp) hsub (by rw [hpath.trans h2]; simp)
      (hno _ hsub) (fun p hp hfree => ⟨hp, by simp [hfree, PageSize.levels]⟩) ?_
    intro n s' hs' hn _
    exact wp_mapLeaf_refines hs' hm hleafy hn (hpath.trans h2) hapart (hQ _)
  | size4K =>
    rw [hs] at hva hpa hpath
    have hsub : [] ++ [vpn2 m.va] <+: m.path := ⟨[vpn1 m.va, vpn0 m.va], (hpath.trans h3).symm⟩
    have hsub' : [vpn2 m.va] ++ [vpn1 m.va] <+: m.path := ⟨[vpn0 m.va], (hpath.trans h3).symm⟩
    rw [PageTable.mapMemory, wp_bind, wp_checkMappingAlignment hva hpa, mul_pageSize_div, wp_bind]
    refine wp_getOrCreateNextTable_refines hq hroot (by simp) hsub (by rw [hpath.trans h3]; simp)
      (hno _ hsub) (fun p hp hfree => ⟨hp, by simp [hfree, PageSize.levels]⟩) ?_
    intro n s₁ hs₁ hn hfree₁
    rw [wp_bind]
    refine wp_getOrCreateNextTable_refines hs₁ hn (by simp) hsub' (by rw [hpath.trans h3]; simp)
      (hno _ hsub') (fun p hp hfree => ⟨hp, by rw [hfree] at hfree₁; simpa [PageSize.levels, Nat.lt_succ_iff] using hfree₁⟩) ?_
    intro n' s₂ hs₂ hn' _
    exact wp_mapLeaf_refines hs₂ hm hleafy hn' (hpath.trans h3) hapart (hQ _)

end Call

/-! ## Translation -/

/-- Translation in the table at frame `r` is the partial map of `ms`, with the flags asked
for. -/
structure MapsExactly (s : MemState) (r : ℕ) (ms : List Mapping) : Prop where
  mapped : ∀ m ∈ ms, ∀ va, isCanonical va = true → m.Covers va →
    PageTable.translate s.mem (4096 * r) va = some (m.pa + va % m.size.bytes) ∧
      ∃ e, entryOf s.mem (4096 * r) va = some (e, m.size) ∧
        e.setWidth 8 = m.flags ||| PteFlags.V ||| PteFlags.A ||| PteFlags.D
  unmapped : ∀ va, isCanonical va = true → (∀ m ∈ ms, ¬ m.Covers va) →
    PageTable.translate s.mem (4096 * r) va = none

section Translate
variable {s : MemState} {r va : ℕ} {m : Mapping} {ms : List Mapping} {q : List (Fin 512)}

theorem translate_eq_entryOf : PageTable.translate s.mem (4096 * r) va =
    (entryOf s.mem (4096 * r) va).map fun (e, size) => e.physicalAddress + va % size.bytes := by
  rw [PageTable.translate, entryOf, Option.map_map]
  rfl

theorem setWidth_leafEntry (pa : ℕ) (flags : PteFlags) :
    (leafEntry pa flags).setWidth 8 = flags ||| PteFlags.V ||| PteFlags.A ||| PteFlags.D := by
  apply BitVec.eq_of_getLsbD_eq
  intro i hi
  rw [BitVec.getLsbD_setWidth, leafEntry, getLsbD_setFlags,
    getLsbD_setPhysicalAddress _ _ (by omega)]
  simp [hi, PageTableEntry.empty]

theorem physicalAddress_entry (hm : m.Ok) : m.entry.physicalAddress = m.pa := by
  obtain ⟨f, hf⟩ : ∃ f, m.pa = 4096 * f := hm.exists_frame
  have hlt := hm.pa_lt
  rw [Mapping.entry, physicalAddress_eq, hf, ppn_leafEntry (by omega)]

/-- A walk follows the tables of its path to a leaf. -/
theorem walk_of_nodeAt {l : List (Fin 512 × PageSize)} {p : List (Fin 512)} {t n : ℕ}
    {i : Fin 512} (hp : nodeAt child s.mem t p = some n) (hleaf : (s.mem n i).isLeaf = true)
    (hl : p ++ [i] <+: l.map Prod.fst) :
    ∃ size, PageTable.walk s.mem l t = some (n, i, size) ∧
      (l.map Prod.snd)[p.length]? = some size := by
  induction p generalizing t l with
  | nil =>
    obtain rfl : t = n := Option.some.inj hp
    obtain ⟨rest, hrest⟩ := hl
    cases l with
    | nil => simp at hrest
    | cons x l =>
      obtain rfl : i = x.1 := (List.cons.inj hrest).1
      exact ⟨x.2, walk_leaf hleaf, rfl⟩
  | cons j p ih =>
    obtain ⟨rest, hrest⟩ := hl
    cases l with
    | nil => simp at hrest
    | cons x l =>
      obtain ⟨hjx, hrest⟩ := List.cons.inj hrest
      rw [nodeAt_cons, Option.bind_eq_some_iff] at hp
      obtain ⟨t', ht', hp⟩ := hp
      obtain ⟨size, hwalk, hsize⟩ := ih hp ⟨rest, hrest⟩
      have hxj : x = (j, x.2) := by rw [hjx]
      refine ⟨size, ?_, hsize⟩
      rw [hxj, walk_pointer ht', hwalk]

/-- The walk of an address of a mapped page ends at the entry of the page. -/
theorem Refines.entryOf_mapped (h : Refines s r ms q) (hm : m ∈ ms) (hleafy : m.Leafy)
    (hva : m.path <+: vpnPath va) : entryOf s.mem (4096 * r) va = some (m.entry, m.size) := by
  obtain ⟨p, n, i, hpath, hn, he⟩ := h.mapped m hm
  have hleaf : (s.mem n i).isLeaf = true := by
    rw [he]
    exact leafEntry_isLeaf _ hleafy
  obtain ⟨size, hwalk, hsize⟩ := walk_of_nodeAt
    (l := [(vpn2 va, .size1G), (vpn1 va, .size2M), (vpn0 va, .size4K)]) hn hleaf (hpath ▸ hva)
  have hlen : p.length = m.size.levels - 1 := by
    have hl := congrArg List.length hpath
    revert hl
    cases hms : m.size <;> simp [Mapping.path, vpnPath, hms, PageSize.levels, eq_comm]
  have hsz : size = m.size := by
    rw [hlen] at hsize
    revert hsize
    cases m.size <;> simp [PageSize.levels, eq_comm]
  rw [entryOf, PageTable.translateToPtePtr, mul_pageSize_div, hwalk, Option.map_some]
  dsimp only
  rw [he, hsz]

/-- The walk of any other address ends at an empty entry. -/
theorem Refines.walk_eq_none (h : Refines s r ms q) (hva : ∀ m ∈ ms, ¬ m.path <+: vpnPath va)
    {l : List (Fin 512 × PageSize)} {p : List (Fin 512)} {t : ℕ} (ht : tableAt s r p = some t)
    (hl : vpnPath va = p ++ l.map Prod.fst) : PageTable.walk s.mem l t = none := by
  induction l generalizing p t with
  | nil => rfl
  | cons x l ih =>
    obtain ⟨i, size⟩ := x
    rw [List.map_cons] at hl
    rcases h.entry p t i ht with he | ⟨c, hc⟩ | ⟨m, hm, hpath, -⟩
    · exact walk_empty he
    · rw [walk_pointer hc]
      exact ih ((tableAt_concat ht).trans hc) (by rw [hl, List.append_assoc]; rfl)
    · refine absurd ⟨l.map Prod.fst, ?_⟩ (hva m hm)
      rw [hpath, hl, List.append_assoc]
      rfl

theorem Refines.entryOf_unmapped (h : Refines s r ms q)
    (hva : ∀ m ∈ ms, ¬ m.path <+: vpnPath va) : entryOf s.mem (4096 * r) va = none := by
  have hroot : tableAt s r [] = some r := rfl
  rw [entryOf, PageTable.translateToPtePtr, mul_pageSize_div, h.walk_eq_none hva hroot rfl,
    Option.map_none]

/-- Tables that hold the entries of `ms` translate as `ms` says. -/
theorem Refines.mapsExactly (h : Refines s r ms q) (hok : ∀ m ∈ ms, m.Ok ∧ m.Leafy) :
    MapsExactly s r ms := by
  constructor
  · intro m hm va hva hcov
    obtain ⟨hmok, hleafy⟩ := hok m hm
    have hentry := h.entryOf_mapped hm hleafy ((covers_iff_path hmok hva).mp hcov)
    refine ⟨?_, m.entry, hentry, setWidth_leafEntry ..⟩
    rw [translate_eq_entryOf, hentry, Option.map_some]
    dsimp only
    rw [physicalAddress_entry hmok]
  · intro va hva hno
    have hentry := h.entryOf_unmapped fun m hm hpath =>
      hno m hm ((covers_iff_path (hok m hm).1 hva).mpr hpath)
    rw [translate_eq_entryOf, hentry, Option.map_none]

end Translate

/-! ## Every table that can be built -/

/-- `Built r s ms`: in state `s` the table at frame `r` was made from an empty one by the
calls `ms`, newest first. Between the calls other code may do anything that keeps its hands
off the frames of the table. -/
inductive Built (r : ℕ) : MemState → List Mapping → Prop
  | empty {s} : s.Placed → s.Held r → s.mem r = (fun _ => 0) → Built r s []
  | map {s s' ms m} : Built r s ms → m.Ok → (∀ m' ∈ ms, m.Apart m') →
      PageTable.mapVmWithPageSize (4096 * r) m.va m.pa m.flags m.size s = .ok () s' →
      Built r s' (m :: ms)
  | other {s s' ms} : Built r s ms → s'.Placed →
      (∀ p n, tableAt s r p = some n → s'.mem n = s.mem n ∧ s'.Held n) → Built r s' ms

section Built
variable {r : ℕ} {s : MemState} {ms : List Mapping}

theorem Refines.empty (hp : s.Placed) (hr : s.Held r) (h0 : s.mem r = fun _ => 0) :
    Refines s r [] [] := by
  have hchild : ∀ i, child (s.mem r i) = none := fun i => by
    rw [h0]
    exact child_zero
  have htab : ∀ p n, tableAt s r p = some n → p = [] ∧ n = r := by
    intro p n hn
    cases p with
    | nil => exact ⟨rfl, (Option.some.inj hn).symm⟩
    | cons i p =>
      rw [tableAt, nodeAt_cons, hchild] at hn
      cases hn
  refine ⟨hp, ⟨fun p q n hpn hqn => ?_, fun p n hn => ?_⟩, fun p n hn => ?_, fun p n i hn => ?_,
    fun m hm => ?_, fun p n hne hn => ?_⟩
  · rw [(htab p n hpn).1, (htab q n hqn).1]
  · rw [(htab p n hn).1]
    exact Nat.zero_le _
  · rw [(htab p n hn).2]
    exact hr
  · rw [(htab p n hn).2, h0]
    exact Or.inl rfl
  · cases hm
  · exact absurd (htab p n hn).1 hne

/-- Neither path starts with the other. -/
theorem paths_of_apart {m : Mapping} (hm : m.Ok) (hok : ∀ m' ∈ ms, m'.Ok)
    (hapart : ∀ m' ∈ ms, m.Apart m') :
    ∀ m' ∈ ms, ¬ m'.path <+: m.path ∧ ¬ m.path <+: m'.path := fun m' hm' =>
  ⟨not_path_of_apart (hok m' hm') hm (hapart m' hm').symm,
    not_path_of_apart hm (hok m' hm') (hapart m' hm')⟩

theorem Built.ok (h : Built r s ms) : ∀ m ∈ ms, m.Ok := by
  induction h with
  | empty => exact fun m hm => nomatch hm
  | map _ hm _ _ ih =>
    intro m' hm'
    rcases List.mem_cons.mp hm' with rfl | hm'
    · exact hm
    · exact ih m' hm'
  | other _ _ _ ih => exact ih

theorem Built.refines (h : Built r s ms) (hleafy : ∀ m ∈ ms, m.Leafy) : Refines s r ms [] := by
  induction h with
  | empty hp hr h0 => exact .empty hp hr h0
  | @map s s' ms m hb hm hapart hrun ih =>
    have href := ih fun m' hm' => hleafy m' (List.mem_cons_of_mem _ hm')
    have hcall := wp_mapVmWithPageSize (E := fun _ _ => True)
      (Q := fun _ s' => Refines s' r (m :: ms) []) href hm (hleafy _ List.mem_cons_self)
      (paths_of_apart hm hb.ok hapart) fun _ hs' => hs'
    have href' := wp_of_ok hcall hrun
    exact href'
  | other _ hp hmem ih =>
    exact (ih hleafy).of_mem (fun p n hn => (hmem p n hn).1) (fun p n hn => (hmem p n hn).2) hp

/-- **Mapping pages refines a partial map**, if every call asks for R, W or X: a table that
was built by mapping pages apart from each other translates exactly their addresses, with
the flags asked for; one more call adds its own page, changes no other entry, and panics
only when the allocator runs out of frames for the levels below the root. -/
theorem mapsExactly_of_built (h : Built r s ms) (hleafy : ∀ m ∈ ms, m.Leafy) :
    MapsExactly s r ms ∧
      ∀ m : Mapping, m.Ok → (∀ m' ∈ ms, m.Apart m') → m.Leafy →
        wp (PageTable.mapVmWithPageSize (4096 * r) m.va m.pa m.flags m.size)
          (fun _ s' => MapsExactly s' r (m :: ms) ∧
            ∀ va, isCanonical va = true → ¬ m.Covers va →
              entryOf s'.mem (4096 * r) va = entryOf s.mem (4096 * r) va)
          (fun _ _ => False)
          (fun p => OutOfMemory p ∧ s.freeFrames.length < m.size.levels - 1) s := by
  have href := h.refines hleafy
  have hok := h.ok
  refine ⟨href.mapsExactly fun m hm => ⟨hok m hm, hleafy m hm⟩, fun m hm hapart hml => ?_⟩
  refine wp_mapVmWithPageSize href hm hml (paths_of_apart hm hok hapart) fun s' href' => ?_
  have hall : ∀ m' ∈ m :: ms, m'.Ok ∧ m'.Leafy :=
    List.forall_mem_cons.mpr ⟨⟨hm, hml⟩, fun m' hm' => ⟨hok m' hm', hleafy m' hm'⟩⟩
  refine ⟨href'.mapsExactly hall, fun va hva hno => ?_⟩
  by_cases hcov : ∃ m' ∈ ms, m'.Covers va
  · obtain ⟨m', hm', hcov⟩ := hcov
    have hpath := (covers_iff_path (hok m' hm') hva).mp hcov
    rw [href.entryOf_mapped hm' (hleafy m' hm') hpath,
      href'.entryOf_mapped (List.mem_cons_of_mem _ hm') (hleafy m' hm') hpath]
  · have hpath : ∀ m' ∈ ms, ¬ m'.path <+: vpnPath va := fun m' hm' hp =>
      hcov ⟨m', hm', (covers_iff_path (hok m' hm') hva).mpr hp⟩
    rw [href.entryOf_unmapped hpath, href'.entryOf_unmapped]
    exact List.forall_mem_cons.mpr ⟨fun hp => hno ((covers_iff_path hm hva).mpr hp), hpath⟩

end Built

/-! ## A page mapped without R, W and X -/

/-- Memory with all frames of the pool free and every word zero. -/
def blankState : MemState :=
  { frames := .new 0x8100_0000
    pageMeta := fun _ => none
    mem := fun _ _ => 0 }

theorem built_blank : Built 0x80200 blankState [] := by
  refine .empty ⟨rfl, by decide, by decide⟩ (Or.inr (Or.inl ?_)) rfl
  decide

/-- The pages of the state above, and the call that maps a 2 MiB page. -/
theorem mapsExactly_blank : Built 0x80200 blankState [] ∧ MapsExactly blankState 0x80200 [] ∧
    wp (PageTable.mapVmWithPageSize (4096 * 0x80200) 0x20_0000 0x40_0000 PteFlags.RW .size2M)
      (fun _ s' => MapsExactly s' 0x80200 [⟨0x20_0000, 0x40_0000, PteFlags.RW, .size2M⟩])
      (fun _ _ => False) (fun _ => blankState.freeFrames.length < 1) blankState := by
  obtain ⟨hmaps, hcall⟩ := mapsExactly_of_built built_blank (fun _ h => nomatch h)
  refine ⟨built_blank, hmaps, ?_⟩
  have h2m := hcall ⟨0x20_0000, 0x40_0000, PteFlags.RW, .size2M⟩
    ⟨by decide, by decide, by decide, by decide⟩ (fun _ h => nomatch h) (by decide)
  exact wp_mono h2m (fun _ _ h => h.1) (fun _ _ h => h) (fun _ h => h.2)

/-- A page mapped with the flag U alone is not translated. -/
theorem userOnly_not_translated : ∃ s ms, Built 0x80200 s ms ∧ ¬ MapsExactly s 0x80200 ms := by
  have hrun : ∃ s', PageTable.mapVmWithPageSize (4096 * 0x80200) 0x1000 0x5000 PteFlags.U .size4K
      blankState = .ok () s' ∧ PageTable.translate s'.mem (4096 * 0x80200) 0x1000 = none := by
    have hcheck : ((PageTable.mapVmWithPageSize (4096 * 0x80200) 0x1000 0x5000 PteFlags.U .size4K
        blankState).toOk.map fun r => PageTable.translate r.2.mem (4096 * 0x80200) 0x1000) =
        some none := by decide +kernel
    obtain ⟨r, hrun, hnone⟩ := Option.map_eq_some_iff.mp hcheck
    exact ⟨r.2, Outcome.toOk_eq_some.mp hrun, hnone⟩
  obtain ⟨s', hok, hnone⟩ := hrun
  refine ⟨s', [⟨0x1000, 0x5000, PteFlags.U, .size4K⟩], .map built_blank
    ⟨by decide, by decide, by decide, by decide⟩ (fun _ h => by cases h) hok, fun hmaps => ?_⟩
  have htr := (hmaps.mapped _ List.mem_cons_self 0x1000 (by decide) covers_self).1
  rw [hnone] at htr
  cases htr

end Efiks.Mm
