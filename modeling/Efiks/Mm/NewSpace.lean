import Efiks.Mm.KernelStack

/-!
# New address spaces

`MemoryManager::new` allocates a root table and fills it with the mappings of the
kernel: the direct mapping of physical memory and the kernel image, in 1 GiB pages.

## Main results

* `wp_kvmFullMap` — the root table ends up holding `kernelEntry`.
* `wp_new`, `shape_new` — a new space is well shaped and maps no user page.
-/
namespace Efiks.Mm
open Lib Lib.RustM PageTableEntry

variable {s : MemState} {n : ℕ} {E : Error → MemState → Prop} {N : Panic → Prop}

theorem setEntry_setFrame (f : Frame) (i : Fin 512) (e : PageTableEntry) :
    (s.setFrame n f).setEntry n i e = s.setFrame n (Function.update f i e) := by
  simp only [MemState.setEntry, MemState.setFrame, Function.update_self, Function.update_idem]

/-- A 1 GiB mapping of an empty root entry. -/
theorem wp_mapVm1g {Q : Unit → MemState → Prop} {f : Frame} {va pa : ℕ} {flags : PteFlags}
    (hva : va % GB = 0) (hpa : pa % GB = 0) (h0 : f (vpn2 va) = 0) :
    wp (PageTable.mapVm1g (4096 * n) va pa flags) Q E N (s.setFrame n f) ↔
      Q () (s.setFrame n (Function.update f (vpn2 va) (leafEntry pa flags))) := by
  have hmem : (s.setFrame n f).mem n (vpn2 va) = 0 := by rw [setFrame_self, h0]
  obtain ⟨q, rfl⟩ : ∃ q, pa = 4096 * q := ⟨pa / 4096, by unfold GB at hpa; omega⟩
  have hva' : (va % PageSize.size1G.bytes == 0) = true := beq_iff_eq.mpr hva
  have hpa' : (4096 * q % PageSize.size1G.bytes == 0) = true := beq_iff_eq.mpr hpa
  simp only [PageTable.mapVm1g, PageTable.mapMemory, PageTable.checkMappingAlignment, wp_bind,
    wp_assert, hva', hpa', true_implies, Bool.true_eq_false, false_implies, and_true,
    mul_pageSize_div, wp_mapLeaf_empty hmem, setEntry_setFrame]

/-- The row `f` with `k` entries from index `j` on mapping the gigabytes after `pa`. -/
def gbRow (f : Frame) (j pa : ℕ) (flags : PteFlags) (k : ℕ) : Frame := fun i =>
  if j ≤ i.val ∧ i.val < j + k then leafEntry (pa + (i.val - j) * GB) flags else f i

theorem gbRow_zero (f : Frame) (j pa : ℕ) (flags : PteFlags) : gbRow f j pa flags 0 = f := by
  funext i
  exact if_neg (by omega)

/-- The next entry of the row. -/
theorem update_gbRow {f : Frame} {j pa k : ℕ} {flags : PteFlags} {i : Fin 512}
    (hi : i.val = j + k) :
    Function.update (gbRow f j pa flags k) i (leafEntry (pa + k * GB) flags) =
      gbRow f j pa flags (k + 1) := by
  funext l
  by_cases hl : l = i
  · subst hl
    rw [Function.update_self, gbRow, if_pos (by omega), hi, Nat.add_sub_cancel_left]
  · have hne : l.val ≠ j + k := fun h => hl (Fin.ext (h.trans hi.symm))
    rw [Function.update_of_ne hl, gbRow, gbRow]
    exact if_congr (by omega) rfl rfl

theorem vpn2_add_gb (va i : ℕ) : (vpn2 (va + i * GB)).val = (va / GB + i) % 512 := by
  simp only [vpn2, Nat.shiftRight_eq_div_pow]
  rw [show (2 : ℕ) ^ 30 = GB from rfl, Nat.add_mul_div_right _ _ (by decide)]

/-- A loop of `kvm_full_map`: `k` gigabytes from `va` on, at entries `j` and up. -/
theorem wp_mapGigabytes (va pa j k : ℕ) (flags : PteFlags) {f : Frame} {body : ℕ → KM Unit}
    (hbody : ∀ i < k, body i = PageTable.mapVm1g (4096 * n) (va + i * GB) (pa + i * GB) flags)
    (hva : va % GB = 0) (hpa : pa % GB = 0) (hj : va / GB % 512 = j) (hk : j + k ≤ 512)
    (h0 : ∀ i : Fin 512, j ≤ i.val → i.val < j + k → f i = 0) :
    wp (foldM (fun _ i => body i) (List.range k) ())
      (fun _ t => t = s.setFrame n (gbRow f j pa flags k)) E N (s.setFrame n f) := by
  refine wp_foldM_range (fun k _ t => t = s.setFrame n (gbRow f j pa flags k)) ?_ () _
    (by rw [gbRow_zero])
  rintro i hi - _ rfl
  have hidx : (vpn2 (va + i * GB)).val = j + i := by
    rw [vpn2_add_gb, Nat.add_mod, hj]
    omega
  have hempty : gbRow f j pa flags i (vpn2 (va + i * GB)) = 0 := by
    rw [gbRow, if_neg (by omega)]
    exact h0 _ (by omega) (by omega)
  rw [hbody i hi, wp_mapVm1g (by rw [Nat.add_mul_mod_self_right, hva])
    (by rw [Nat.add_mul_mod_self_right, hpa]) hempty, update_gbRow hidx]

theorem kernelEntry_eq : kernelEntry =
    gbRow (gbRow (fun _ => 0) 344 0 PteFlags.RW 166) 510 kernelImageStartPa PteFlags.RWX 2 := by
  funext i
  have hi := i.isLt
  simp only [kernelEntry, gbRow, Nat.zero_add]
  by_cases h : 344 ≤ i.val ∧ i.val < 510
  · rw [if_pos h, if_neg (by omega), if_pos (by omega)]
    rfl
  · by_cases h' : 510 ≤ i.val
    · rw [if_neg h, if_pos h', if_pos (by omega)]
      rfl
    · rw [if_neg h, if_neg h', if_neg (by omega), if_neg (by omega)]
      rfl

theorem offsetBy_gb {a i : ℕ} (h : a + i * GB < 2 ^ 64) :
    offsetBy a (i * GB : ℕ) = some (a + i * GB) := offsetBy_natCast h

/-- **The kernel's mappings** fill a zeroed root table. -/
theorem wp_kvmFullMap {Q : Unit → MemState → Prop} (h : Q () (s.setFrame n kernelEntry)) :
    wp (kvmFullMap (4096 * n)) Q E N (s.setFrame n fun _ => 0) := by
  have hsize : kernelImageStartVa - kernelDirectMappingBase = 166 * GB := by decide
  rw [kvmFullMap, hsize, Nat.mul_mod_left, beq_self_eq_true, wp_bind, wp_assert]
  refine ⟨fun _ => ?_, fun hf => by cases hf⟩
  rw [Nat.mul_div_cancel _ (by decide : 0 < GB), wp_bind]
  refine wp_consequence (wp_mapGigabytes kernelDirectMappingBase 0 344 166 PteFlags.RW ?_
    (by decide) (by decide) (by decide) (by omega) fun _ _ _ => rfl) ?_
  · intro i hi
    have hlt : kernelDirectMappingBase + i * GB < 2 ^ 64 := by
      unfold kernelDirectMappingBase GB
      omega
    rw [offsetBy_gb hlt, Nat.zero_add, expect_some_bind]
  · rintro - _ rfl
    refine wp_consequence (wp_mapGigabytes kernelImageStartVa kernelImageStartPa 510 2 PteFlags.RWX
      ?_ (by decide) (by decide) (by decide) (by omega) ?_) ?_
    · intro i hi
      have hlt : kernelImageStartVa + i * GB < 2 ^ 64 := by
        unfold kernelImageStartVa GB
        omega
      have hlt' : kernelImageStartPa + i * GB < 2 ^ 64 := by
        unfold kernelImageStartPa GB
        omega
      rw [offsetBy_gb hlt, offsetBy_gb hlt', expect_some_bind, expect_some_bind]
    · intro i h₁ h₂
      exact if_neg (by omega)
    · rintro - _ rfl
      rwa [← kernelEntry_eq]

/-- **`MemoryManager::new`** takes one frame for a root table with the kernel's mappings. -/
theorem wp_new {Q : MemoryManager → MemState → Prop} (hp : s.Placed)
    (hN : ∀ p, OutOfMemory p → N p)
    (h : ∀ n t, Allocated s n t →
      Q { MemoryManager.empty with rootPt := 4096 * n } (t.setFrame n kernelEntry)) :
    wp MemoryManager.new Q E N s := by
  rw [MemoryManager.new, wp_bind]
  refine wp_allocFrameUnwrap hp hN fun n t ht => ?_
  rw [wp_bind, wp_zeroFrame, wp_bind]
  refine wp_kvmFullMap ?_
  rw [wp_pure]
  exact h n t ht

section Shape
variable {t : MemState}

/-- A root table with the kernel's entries has no table under it. -/
theorem tableAt_kernel (hrow : t.mem n = kernelEntry) (p : List (Fin 512)) :
    tableAt t n p = if p = [] then some n else none := by
  cases p with
  | nil => rfl
  | cons i p => rw [tableAt_cons, hrow, child_kernelEntry, Option.bind_none, if_neg (by simp)]

theorem shape_kernel (hrow : t.mem n = kernelEntry) (hu : t.used n) : Shape t n := by
  have htab := tableAt_kernel hrow
  have hnil : ∀ p m, tableAt t n p = some m → p = [] ∧ m = n := by
    intro p m h
    rw [htab] at h
    split at h
    · exact ⟨‹_›, (Option.some.inj h).symm⟩
    · cases h
  refine ⟨⟨fun p q m hp hq => ?_, fun p m hp => ?_⟩, fun p m hp => ?_, fun i hi => ?_,
    fun i hi => ?_, fun a m i hm => ?_, fun a b m i hm => ?_⟩
  · exact (hnil p m hp).1.trans (hnil q m hq).1.symm
  · rw [(hnil p m hp).1]
    exact Nat.zero_le _
  · rw [(hnil p m hp).2]
    exact hu
  · rw [hrow, kernelEntry, if_neg (by omega), if_neg (by omega)]
    exact Or.inl rfl
  · rw [hrow]
  · cases (hnil _ m hm).1
  · cases (hnil _ m hm).1

theorem pteAt_kernel (hrow : t.mem n = kernelEntry) (v : Vpn) : pteAt t n v = 0 := by
  simp [pteAt, tableAt_kernel hrow]

end Shape
end Efiks.Mm
