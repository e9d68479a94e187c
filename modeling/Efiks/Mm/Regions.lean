import Efiks.Mm.NewSpace

/-!
# Regions and the pages behind them

The regions of a process are single pages, sorted by address; what the break adds
is mapped when it is first touched. `RegionsOk` is that invariant, `regionFlags`
then looks a page up by its address, and `PageMapped` is what mapping one fresh
zero page does, be it by the loader or by a page fault.

## Main definitions

* `RegionsOk`, `PagesOk`, `PageMapped`.

## Main results

* `PagesOk.regionFlags_eq_some_iff`, `PagesOk.insert`.
* `wp_mapAllocatePage`, `wp_handlePageFault`, `wp_doBrk`.
-/
namespace Efiks.Mm
open Lib Lib.RustM PageTableEntry

/-- A region of a process: one page of the lower half that user mode may read or
execute. -/
structure IsPageRegion (x : VmRegion) : Prop where
  aligned : x.start % 4096 = 0
  lower : x.start < 2 ^ 38
  end_eq : x.endAddr = x.start + 4096
  user : x.flags.getLsbD 4 = true
  access : x.flags &&& PteFlags.RX ≠ 0#8

/-- Sorted page regions. -/
structure RegionsOk (regions : List VmRegion) : Prop where
  sorted : regions.Pairwise fun x y => x.start < y.start
  page : ∀ x ∈ regions, IsPageRegion x

/-- Sorted pages, wherever they are and whatever their permissions. -/
structure PagesOk (regions : List VmRegion) : Prop where
  sorted : regions.Pairwise fun x y => x.start < y.start
  aligned : ∀ x ∈ regions, x.start % 4096 = 0
  end_eq : ∀ x ∈ regions, x.endAddr = x.start + 4096

theorem RegionsOk.pages {regions : List VmRegion} (h : RegionsOk regions) : PagesOk regions :=
  ⟨h.sorted, fun x hx => (h.page x hx).aligned, fun x hx => (h.page x hx).end_eq⟩

theorem wp_withMm {α : Type} {m : MmM α} {mm : MemoryManager} {s : MemState}
    {Q : α × MemoryManager → MemState → Prop} {E : Error → MemState → Prop} {N : Panic → Prop}
    (h : wp m (fun a sp => Q (a, sp.mm) sp.sys) (fun e sp => E e sp.sys) N ⟨s, mm⟩) :
    wp (withMm mm m) Q E N s := by
  refine wp_run ⟨fun a s' hm => ?_, fun e s' hm => ?_, fun q hm => ?_⟩
  all_goals
    unfold withMm at hm
    cases hrun : m ⟨s, mm⟩ with
    | ok a sp => ?_
    | err e sp => ?_
    | panic q => ?_
  all_goals
    rw [hrun] at hm
    cases hm
  · have hQ := wp_of_ok h hrun
    exact hQ
  · have hE := wp_of_err h hrun
    exact hE
  · exact wp_of_panic h hrun

section Search
variable {regions : List VmRegion} {a i : ℕ} {x : VmRegion} {flags : PteFlags}

/-- Where the search ends: smaller regions before, the others after. -/
theorem exists_split (hsort : regions.Pairwise fun x y => x.start < y.start) (a : ℕ) :
    ∃ l₁ l₂, regions = l₁ ++ l₂ ∧ (regions.takeWhile fun r => r.start < a) = l₁ ∧
      (∀ y ∈ l₁, y.start < a) ∧ ∀ y ∈ l₂, a ≤ y.start := by
  induction regions with
  | nil => exact ⟨[], [], rfl, rfl, by simp, by simp⟩
  | cons x xs ih =>
      obtain ⟨hx, hxs⟩ := List.pairwise_cons.mp hsort
      by_cases hlt : x.start < a
      · obtain ⟨l₁, l₂, rfl, htake, h₁, h₂⟩ := ih hxs
        refine ⟨x :: l₁, l₂, rfl, ?_, fun y hy => ?_, h₂⟩
        · rw [List.takeWhile_cons_of_pos (by simpa using hlt), htake]
        · rcases List.mem_cons.mp hy with rfl | hy'
          · exact hlt
          · exact h₁ y hy'
      · refine ⟨[], x :: xs, rfl, ?_, by simp, fun y hy => ?_⟩
        · rw [List.takeWhile_cons_of_neg (by simpa using hlt)]
        · rcases List.mem_cons.mp hy with rfl | hy'
          · omega
          · have := hx y hy'
            omega

theorem insertIdx_length_append {α : Type} (l₁ l₂ : List α) (y : α) :
    (l₁ ++ l₂).insertIdx l₁.length y = l₁ ++ y :: l₂ := by
  induction l₁ with
  | nil => rfl
  | cons z l₁ ih => rw [List.cons_append, List.length_cons, List.insertIdx_succ_cons, ih]; rfl

/-- A found region starts at the address. -/
theorem binarySearch_ok (h : binarySearch regions a = .ok i) :
    ∃ x ∈ regions, regions[i]? = some x ∧ x.start = a := by
  simp only [binarySearch] at h
  split at h
  · rename_i hstart
    obtain rfl := Except.ok.inj h
    obtain ⟨x, hx, hxa⟩ := Option.map_eq_some_iff.mp hstart
    exact ⟨x, List.mem_of_getElem? hx, hx, hxa⟩
  · cases h

/-- Where nothing was found, the index splits the regions. -/
theorem binarySearch_error (hsort : regions.Pairwise fun x y => x.start < y.start)
    (h : binarySearch regions a = .error i) :
    ∃ l₁ l₂, regions = l₁ ++ l₂ ∧ i = l₁.length ∧ (∀ y ∈ l₁, y.start < a) ∧
      ∀ y ∈ l₂, a < y.start := by
  obtain ⟨l₁, l₂, rfl, htake, h₁, h₂⟩ := exists_split hsort a
  simp only [binarySearch, htake] at h
  split at h
  · cases h
  · rename_i hstart
    refine ⟨l₁, l₂, rfl, (Except.error.inj h).symm, h₁, ?_⟩
    rw [List.getElem?_append_right le_rfl, Nat.sub_self] at hstart
    cases l₂ with
    | nil => simp
    | cons z l₂ =>
        have hz : z.start ≠ a := fun hz => hstart (by simp [hz])
        have hza := h₂ z List.mem_cons_self
        intro y hy
        rcases List.mem_cons.mp hy with rfl | hy'
        · omega
        · have := (List.pairwise_cons.mp (List.pairwise_append.mp hsort).2.1).1 y hy'
          omega

theorem eq_of_start_eq (hsort : regions.Pairwise fun x y => x.start < y.start) {y : VmRegion}
    (hx : x ∈ regions) (hy : y ∈ regions) (hxy : x.start = y.start) : x = y := by
  by_contra hne
  have hget := List.pairwise_iff_get.mp hsort
  obtain ⟨i, rfl⟩ := List.get_of_mem hx
  obtain ⟨j, rfl⟩ := List.get_of_mem hy
  rcases lt_trichotomy i j with hij | rfl | hij
  · have := hget i j hij
    omega
  · exact hne rfl
  · have := hget j i hij
    omega

/-- Two regions of one page are the same. -/
theorem RegionsOk.eq_of_vpn_eq {y : VmRegion} (h : RegionsOk regions) (hx : x ∈ regions)
    (hy : y ∈ regions) (hxy : vpn x.start = vpn y.start) : x = y :=
  eq_of_start_eq h.sorted hx hy (vpn_inj (h.page x hx).lower (h.page y hy).lower
    (h.page x hx).aligned (h.page y hy).aligned hxy)

section Pages
variable (h : PagesOk regions)
include h

/-- No page reaches over an aligned address it does not start at. -/
theorem PagesOk.regionBefore_eq_none (ha : a % 4096 = 0)
    (hs : binarySearch regions a = .error i) : MemoryManager.regionBefore regions a i = none := by
  obtain ⟨l₁, l₂, rfl, rfl, h₁, -⟩ := binarySearch_error h.sorted hs
  unfold MemoryManager.regionBefore
  split
  · rename_i hpos
    rw [List.getElem?_append_left (by omega)]
    cases hy : l₁[l₁.length - 1]? with
    | none => rfl
    | some y =>
        have hmem : y ∈ l₁ := List.mem_of_getElem? hy
        have hlt := h₁ y hmem
        have := h.aligned y (List.mem_append_left _ hmem)
        have := h.end_eq y (List.mem_append_left _ hmem)
        rw [Option.filter_eq_none_iff]
        intro z hz
        obtain rfl := Option.some.inj hz
        simp only [decide_eq_true_eq]
        omega
  · rfl

/-- **Looking a page up** finds the region that starts there. -/
theorem PagesOk.regionFlags_eq_some_iff (ha : a % 4096 = 0) :
    MemoryManager.regionFlags regions a = some flags ↔
      ∃ x ∈ regions, x.start = a ∧ x.flags = flags := by
  unfold MemoryManager.regionFlags
  cases hb : binarySearch regions a with
  | ok i =>
      obtain ⟨x, hx, hi, hxa⟩ := binarySearch_ok hb
      simp only [hi, Option.map_some, Option.some.injEq]
      refine ⟨fun hf => ⟨x, hx, hxa, hf⟩, ?_⟩
      rintro ⟨y, hy, hya, rfl⟩
      -- two regions with one start are the same region
      rw [eq_of_start_eq h.sorted hx hy (hxa.trans hya.symm)]
  | error i =>
      simp only [h.regionBefore_eq_none ha hb, Option.map_none, reduceCtorEq, false_iff]
      obtain ⟨l₁, l₂, rfl, -, h₁, h₂⟩ := binarySearch_error h.sorted hb
      rintro ⟨y, hy, hya, -⟩
      rcases List.mem_append.mp hy with hy' | hy'
      · have := h₁ y hy'
        omega
      · have := h₂ y hy'
        omega

/-- A page goes in where the search ended. -/
theorem PagesOk.insert (hal : x.start % 4096 = 0) (hend : x.endAddr = x.start + 4096)
    (hb : binarySearch regions x.start = .error i) :
    PagesOk (regions.insertIdx i x) ∧ ∀ y, y ∈ regions.insertIdx i x ↔ y = x ∨ y ∈ regions := by
  obtain ⟨l₁, l₂, rfl, rfl, h₁, h₂⟩ := binarySearch_error h.sorted hb
  rw [insertIdx_length_append]
  have hmem : ∀ y, y ∈ l₁ ++ x :: l₂ ↔ y = x ∨ y ∈ l₁ ++ l₂ := by
    intro y
    simp only [List.mem_append, List.mem_cons]
    tauto
  refine ⟨⟨?_, fun y hy => ?_, fun y hy => ?_⟩, hmem⟩
  · obtain ⟨hs₁, hs₂, hs₁₂⟩ := List.pairwise_append.mp h.sorted
    refine List.pairwise_append.mpr ⟨hs₁, List.pairwise_cons.mpr ⟨h₂, hs₂⟩, fun y hy z hz => ?_⟩
    rcases List.mem_cons.mp hz with rfl | hz'
    · exact h₁ y hy
    · exact hs₁₂ y hy z hz'
  · rcases (hmem y).mp hy with rfl | hy'
    · exact hal
    · exact h.aligned y hy'
  · rcases (hmem y).mp hy with rfl | hy'
    · exact hend
    · exact h.end_eq y hy'

end Pages

variable (h : RegionsOk regions)
include h

/-- A page region goes in where the search ended. -/
theorem RegionsOk.insert (hx : IsPageRegion x) (hb : binarySearch regions x.start = .error i) :
    RegionsOk (regions.insertIdx i x) ∧
      ∀ y, y ∈ regions.insertIdx i x ↔ y = x ∨ y ∈ regions := by
  obtain ⟨hpages, hmem⟩ := h.pages.insert hx.aligned hx.end_eq hb
  refine ⟨⟨hpages.sorted, fun y hy => ?_⟩, hmem⟩
  rcases (hmem y).mp hy with rfl | hy'
  · exact hx
  · exact h.page y hy'

end Search

section Insert
variable {s : MemState} {mm : MemoryManager} {x : VmRegion} {E : Error → Space → Prop}
variable {N : Panic → Prop}

/-- The regions of `mm` with one more. -/
structure Inserted (mm mm' : MemoryManager) (x : VmRegion) : Prop where
  regions : RegionsOk mm'.regions
  mem_iff : ∀ y, y ∈ mm'.regions ↔ y = x ∨ y ∈ mm.regions
  rest : mm' = { mm with regions := mm'.regions }

/-- `insert_mapping` of a page region; it panics when one starts there already. -/
theorem wp_insertMapping {Q : Unit → Space → Prop} (hr : RegionsOk mm.regions)
    (hx : IsPageRegion x)
    (hN : N (.explicit "Mapping an already existing entry again must be handled."))
    (h : ∀ mm', Inserted mm mm' x → Q () ⟨s, mm'⟩) :
    wp (MemoryManager.insertMapping x.start x.endAddr x.flags) Q E N ⟨s, mm⟩ := by
  rw [MemoryManager.insertMapping, wp_bind, wp_gets]
  cases hb : binarySearch mm.regions x.start with
  | ok i => exact (wp_panic _).mpr hN
  | error i =>
      obtain ⟨hok, hmem⟩ := hr.insert hx hb
      exact (wp_modify _).mpr (h _ ⟨hok, hmem, rfl⟩)

end Insert

/-- What mapping page `v` to the fresh zero frame `f` does; tables may be added. -/
structure PageMapped (s s' : MemState) (r : ℕ) (v : Vpn) (f : ℕ) (flags : PteFlags) : Prop where
  fresh : ¬ s.used f
  shape : Shape s' r
  keep : ∀ p n, tableAt s r p = some n → tableAt s' r p = some n
  new : ∀ p n, tableAt s' r p = some n → tableAt s r p = some n ∨ (¬ s.used n ∧ n ≠ f)
  unmapped : pteAt s r v = 0
  pte_self : pteAt s' r v = leafEntry (4096 * f) flags
  pte_other : ∀ w, w ≠ v → pteAt s' r w = pteAt s r w
  used : ∀ n, s'.used n ↔ s.used n ∨ n = f ∨ ∃ p, tableAt s' r p = some n
  frame : ∀ n, s.used n → (∀ p, tableAt s r p ≠ some n) → s'.mem n = s.mem n
  zero : s'.mem f = fun _ => 0
  meta_self : s'.pageMeta (4096 * f) = some (Page.bump (s.pageMeta (4096 * f)))
  meta_other : ∀ a, a ≠ 4096 * f → s'.pageMeta a = s.pageMeta a
  addr_eq : s'.frames.startAddr = s.frames.startAddr
  bound : f < 2 ^ 44

section MapPage
variable {s s₁ s₂ : MemState} {r f va : ℕ} {flags : PteFlags}

/-- The state in which the page is mapped: `f` allocated and zeroed. -/
theorem shape_zeroed (hs : Shape s r) (ha : Allocated s f s₁) :
    Shape (s₁.setFrame f fun _ => 0) r ∧
      (∀ p, tableAt (s₁.setFrame f fun _ => 0) r p = tableAt s r p) ∧
      ∀ v, pteAt (s₁.setFrame f fun _ => 0) r v = pteAt s r v := by
  have hmem : ∀ p n, tableAt s r p = some n → (s₁.setFrame f fun _ => 0).mem n = s.mem n := by
    intro p n hn
    have hnf : n ≠ f := fun h => ha.fresh (h ▸ hs.used p n hn)
    rw [setFrame_of_ne _ hnf, ha.mem_eq]
  refine ⟨hs.congr hmem fun p n hn => ?_, tableAt_congr hmem, pteAt_congr hmem⟩
  exact (ha.used n).mpr (Or.inl (hs.used p n hn))

theorem PageMapped.of_extends (hp : s.Placed) (hs : Shape s r) (ha : Allocated s f s₁)
    (hun : pteAt s r (vpn va) = 0) (hs₂ : Shape s₂ r)
    (he : Extends (s₁.setFrame f fun _ => 0) s₂ r)
    (hpte : ∀ w, pteAt s₂ r w = if w = vpn va then leafEntry (4096 * f) flags
      else pteAt (s₁.setFrame f fun _ => 0) r w) :
    PageMapped s (Page.set (4096 * f) (some (Page.bump (s₂.pageMeta (4096 * f)))) s₂) r (vpn va) f
      flags := by
  obtain ⟨-, htab, hpte₁⟩ := shape_zeroed hs ha
  have hmeta : s₂.pageMeta = s.pageMeta := he.meta_eq.trans ha.meta_eq
  have hfnew : ∀ p n, tableAt s₂ r p = some n →
      tableAt s r p = some n ∨ (¬ s.used n ∧ n ≠ f) := by
    intro p n hn
    rcases he.new p n hn with hold | hnew
    · exact Or.inl ((htab p).symm.trans hold)
    · rw [setFrame_used, ha.used, not_or] at hnew
      exact Or.inr hnew
  have hft : ∀ p, tableAt (s₁.setFrame f fun _ => 0) r p ≠ some f := fun p hf =>
    ha.fresh (hs.used p f ((htab p).symm.trans hf))
  refine
    { fresh := ha.fresh
      shape := Shape.congr (s := s₂) (fun _ _ _ => rfl) hs₂ hs₂.used
      keep := fun p n hn => he.keep p n ((htab p).trans hn)
      new := hfnew
      unmapped := hun
      pte_self := (hpte _).trans (if_pos rfl)
      pte_other := fun w hw => (hpte w).trans ((if_neg hw).trans (hpte₁ w))
      used := fun n => ?_
      frame := fun n hn hno => ?_
      zero := ?_
      meta_self := by rw [pageSet_self, hmeta]
      meta_other := fun a h => by rw [pageSet_of_ne _ h, hmeta]
      addr_eq := he.addr_eq.trans ha.addr_eq
      bound := ?_ }
  · change s₂.used n ↔ _
    rw [he.used, setFrame_used, ha.used, or_assoc]
    rfl
  · have hnf : n ≠ f := fun h => ha.fresh (h ▸ hn)
    change s₂.mem n = _
    rw [he.frame n ((ha.used n).mpr (Or.inl hn)) fun p h => hno p ((htab p).symm.trans h),
      setFrame_of_ne _ hnf, ha.mem_eq]
  · change s₂.mem f = _
    rw [he.frame f ha.used_self hft, setFrame_self]
  · have := (ha.placed hp).range ha.used_self
    omega

variable {mm : MemoryManager} {E : Error → Space → Prop} {N : Panic → Prop}

/-- **`map_allocate_page`** of an unmapped page of the lower half. -/
theorem wp_mapAllocatePage {Q : ℕ → Space → Prop} (hp : s.Placed) (hs : Shape s r)
    (hroot : mm.rootPt = 4096 * r) (hr : RegionsOk mm.regions)
    (hx : IsPageRegion ⟨va, va + 4096, flags⟩) (hun : pteAt s r (vpn va) = 0)
    (hN : ∀ p, OutOfMemory p → N p)
    (hN' : N (.explicit "Mapping an already existing entry again must be handled."))
    (h : ∀ f s' mm', PageMapped s s' r (vpn va) f flags →
      Inserted mm mm' ⟨va, va + 4096, flags⟩ → Q (4096 * f) ⟨s', mm'⟩) :
    wp (MemoryManager.mapAllocatePage va flags) Q E N ⟨s, mm⟩ := by
  have hlow : va < 2 ^ 38 := hx.lower
  have hend : offsetBy va (pageSize : ℤ) = some (va + pageSize) := by
    rw [offsetBy_natCast]
    unfold pageSize
    omega
  rw [MemoryManager.mapAllocatePage, wp_bind, wp_sys]
  refine wp_allocFrameUnwrap hp hN fun f s₁ ha => ?_
  obtain ⟨hs₁, htab, hpte₁⟩ := shape_zeroed hs ha
  rw [wp_bind, wp_sys, wp_zeroFrame, wp_bind, virtualAddress, isCanonical_of_lower hlow, wp_assert]
  refine ⟨fun _ => ?_, fun hf => by cases hf⟩
  rw [wp_bind, wp_gets, wp_bind, wp_sys, hroot]
  refine wp_mapVm ((ha.placed hp).congr rfl) hs₁ hlow hx.aligned ((hpte₁ _).trans hun) hx.access
    hx.user hN fun s₂ hs₂ he hpte => ?_
  rw [wp_bind, hend, wp_okOr_some, wp_bind]
  refine wp_insertMapping (x := ⟨va, va + 4096, flags⟩) hr hx hN' fun mm' hmm' => ?_
  rw [wp_bind, wp_sys, wp_pageAdd, wp_pure]
  exact h f _ mm' (PageMapped.of_extends hp hs ha hun hs₂ he hpte) hmm'

/-- **`handle_page_fault`**: an error that changes nothing, a copy on write, or a
fresh zero page with the permissions of the region. -/
theorem wp_handlePageFault {Q : Unit → Space → Prop} {addr : ℕ} {access : PteFlags}
    (hp : s.Placed) (hs : Shape s r) (hroot : mm.rootPt = 4096 * r) (hr : RegionsOk mm.regions)
    (haddr : addr < 2 ^ 64)
    (hN : (∃ x ∈ mm.regions, x.start = addr / 4096 * 4096 ∧ x.flags.contains access = true ∧
      (access.contains PteFlags.W = true ∨ pteAt s r (vpn x.start) = 0)) →
        ∀ p, OutOfMemory p → N p)
    (herr : ¬ (∃ x ∈ mm.regions, x.start = addr / 4096 * 4096 ∧ x.flags.contains access = true ∧
      (access.contains PteFlags.W = true ∨ pteAt s r (vpn x.start) = 0)) → E .unmapped ⟨s, mm⟩)
    (hcow : ∀ x ∈ mm.regions, x.start = addr / 4096 * 4096 → x.flags.contains access = true →
      access.contains PteFlags.W = true → pteAt s r (vpn x.start) ≠ 0 →
      wp (PageTable.copyOnWrite (4096 * r) x.start) (fun _ s' => Q () ⟨s', mm⟩)
        (fun e s' => E e ⟨s', mm⟩) N s)
    (hmap : ∀ x ∈ mm.regions, x.start = addr / 4096 * 4096 → x.flags.contains access = true →
      ∀ f s', PageMapped s s' r (vpn x.start) f x.flags → Q () ⟨s', mm⟩) :
    wp (MemoryManager.handlePageFault addr access) Q E N ⟨s, mm⟩ := by
  have halign : alignDown addr pageSize = addr / 4096 * 4096 := maskDown_two_pow (k := 12) haddr
    (by norm_num)
  have hmod : addr / 4096 * 4096 % 4096 = 0 := Nat.mul_mod_left _ _
  rw [MemoryManager.handlePageFault, wp_bind, wp_gets, wp_bind, halign]
  cases hflags : MemoryManager.regionFlags mm.regions (addr / 4096 * 4096) with
  | none =>
      rw [wp_okOr_none]
      refine herr ?_
      rintro ⟨x, hx, hstart, -⟩
      rw [(hr.pages.regionFlags_eq_some_iff hmod).mpr ⟨x, hx, hstart, rfl⟩] at hflags
      cases hflags
  | some flags =>
      obtain ⟨x, hx, hstart, rfl⟩ := (hr.pages.regionFlags_eq_some_iff hmod).mp hflags
      have honly : ∀ y ∈ mm.regions, y.start = addr / 4096 * 4096 → y = x := fun y hy hya =>
        eq_of_start_eq hr.sorted hy hx (hya.trans hstart.symm)
      have hpage := hr.page x hx
      rw [wp_okOr_some, ← hstart]
      by_cases hacc : x.flags.contains access = true
      · rw [hacc, Bool.not_true, if_neg Bool.false_ne_true, MemoryManager.translate, wp_bind,
          wp_bind, virtualAddress, isCanonical_of_lower hpage.lower, wp_assert]
        refine ⟨fun _ => ?_, fun hf => by cases hf⟩
        rw [wp_gets, wp_bind, wp_gets, hroot, translate_eq hs hpage.lower]
        by_cases hun : pteAt s r (vpn x.start) = 0
        · rw [if_pos hun, Option.isSome_none, if_neg Bool.false_ne_true, wp_bind, wp_sys]
          have hN := hN ⟨x, hx, hstart, hacc, Or.inr hun⟩
          refine wp_allocFrameUnwrap hp hN fun f s₁ ha => ?_
          obtain ⟨hs₁, htab, hpte₁⟩ := shape_zeroed hs ha
          rw [wp_bind, wp_sys, wp_zeroFrame, wp_bind, wp_sys]
          refine wp_mapVm ((ha.placed hp).congr rfl) hs₁ hpage.lower hpage.aligned
            ((hpte₁ _).trans hun) hpage.access hpage.user hN fun s₂ hs₂ he hpte => ?_
          rw [wp_sys, wp_pageAdd]
          exact hmap x hx hstart hacc f _ (PageMapped.of_extends hp hs ha hun hs₂ he hpte)
        · rw [if_neg hun, Option.isSome_some, if_pos rfl]
          by_cases hw : access.contains PteFlags.W = true
          · rw [if_pos hw, wp_sys]
            exact hcow x hx hstart hacc hw hun
          · rw [if_neg hw, wp_fail]
            refine herr ?_
            rintro ⟨y, hy, hya, -, hyW⟩
            refine hyW.elim hw ?_
            rwa [honly y hy hya]
      · rw [Bool.not_eq_true] at hacc
        rw [hacc, Bool.not_false, if_pos rfl, wp_fail]
        refine herr ?_
        rintro ⟨y, hy, hya, hyacc, -⟩
        rw [honly y hy hya, hacc] at hyacc
        cases hyacc

end MapPage

/-! ### The break -/

/-- The region of a page of the heap. -/
def heapPage (a : ℕ) : VmRegion := ⟨a, a + 4096, PteFlags.RW ||| PteFlags.U⟩

@[simp] theorem heapPage_start (a : ℕ) : (heapPage a).start = a := rfl

@[simp] theorem heapPage_endAddr (a : ℕ) : (heapPage a).endAddr = a + 4096 := rfl

/-- The next multiple of the page size. -/
def pageUp (a : ℕ) : ℕ := (a + 4095) / 4096 * 4096

theorem pageUp_mod (a : ℕ) : pageUp a % 4096 = 0 := Nat.mul_mod_left _ _

theorem le_pageUp (a : ℕ) : a ≤ pageUp a := by
  unfold pageUp
  omega

theorem pageUp_le_iff {a b : ℕ} (hb : b % 4096 = 0) : pageUp a ≤ b ↔ a ≤ b := by
  unfold pageUp
  omega

theorem lt_pageUp_iff {a b : ℕ} (ha : a % 4096 = 0) : a < pageUp b ↔ a < b := by
  rw [← Nat.not_le, pageUp_le_iff ha, Nat.not_le]

section Loop
variable {s : MemState} {mm : MemoryManager} {addr endAddr a : ℕ}

/-- The regions with the pages from `addr` up to `endAddr`, as far as they were missing. -/
structure Filled (regions regions' : List VmRegion) (addr endAddr : ℕ) : Prop where
  pages : PagesOk regions'
  mem_iff : ∀ x, x ∈ regions' ↔ x ∈ regions ∨ (x = heapPage x.start ∧ x.start % 4096 = 0 ∧
    addr ≤ x.start ∧ x.start < endAddr ∧ ∀ y ∈ regions, y.start ≠ x.start)

theorem alignUp_run (ha : a + 4096 < 2 ^ 64) (sp : Space) :
    alignUp a pageSize sp = .ok (pageUp a) sp := by
  have hmask : maskDown (a + pageSize - 1) pageSize = pageUp a :=
    maskDown_two_pow (k := 12) (x := a + 4095) (by omega) (by norm_num)
  have hlt : a + pageSize < 2 ^ 64 := ha
  have hadd : (addUsize a pageSize : MmM ℕ) sp = .ok (a + pageSize) sp := by
    rw [addUsize, if_pos hlt, pure_run]
  have hsub : (subUsize (a + pageSize) 1 : MmM ℕ) sp = .ok (a + pageSize - 1) sp := by
    rw [subUsize, if_pos (by unfold pageSize; omega), pure_run]
  rw [alignUp, bind_run_of_ok hadd, bind_run_of_ok hsub, pure_run, hmask]

theorem alignUp_overflow (ha : 2 ^ 64 ≤ a + 4096) (sp : Space) :
    alignUp a pageSize sp = .panic .overflow := by
  have hadd : (addUsize a pageSize : MmM ℕ) sp = .panic .overflow := by
    rw [addUsize, if_neg (by unfold pageSize; omega), panic_run]
  rw [alignUp, bind_run, hadd]

theorem offsetBy_page (ha : a + 4096 < 2 ^ 64) :
    offsetBy a (pageSize : ℤ) = some (a + 4096) := offsetBy_natCast ha

theorem Filled.refl {regions : List VmRegion} (hp : PagesOk regions) (h : endAddr ≤ addr) :
    Filled regions regions addr endAddr := by
  refine ⟨hp, fun x => ⟨Or.inl, ?_⟩⟩
  rintro (hx | ⟨-, -, hle, hlt, -⟩)
  · exact hx
  · omega

/-- One page of the loop. -/
theorem mapPageIfNotExist_run (hp : PagesOk mm.regions) (hal : addr % 4096 = 0)
    (hlt : addr + 4096 < 2 ^ 64) :
    ∃ b regions', MemoryManager.mapPageIfNotExist addr (PteFlags.RW ||| PteFlags.U) ⟨s, mm⟩ =
      .ok b ⟨s, { mm with regions := regions' }⟩ ∧
        Filled mm.regions regions' addr (addr + 4096) := by
  have honly : ∀ k, k % 4096 = 0 → addr ≤ k → k < addr + 4096 → k = addr := by omega
  cases hb : binarySearch mm.regions addr with
  | ok i =>
      obtain ⟨y, hy, -, hya⟩ := binarySearch_ok hb
      refine ⟨false, mm.regions, ?_, hp, fun x => ⟨Or.inl, ?_⟩⟩
      · simp only [MemoryManager.mapPageIfNotExist, bind_run, gets_run, hb, pure_run]
      · rintro (hx | ⟨-, hx0, hle, hlt, hno⟩)
        · exact hx
        · exact absurd (hya.trans (honly _ hx0 hle hlt).symm) (hno y hy)
  | error i =>
      have hrun : (okOr (offsetBy addr (pageSize : ℤ)) Error.overflow : MmM ℕ) ⟨s, mm⟩ =
          .ok (addr + 4096) ⟨s, mm⟩ := by
        rw [offsetBy_page hlt]
        rfl
      obtain ⟨hpages, hmem⟩ := hp.insert (x := heapPage addr) hal (by simp) hb
      refine ⟨true, mm.regions.insertIdx i (heapPage addr), ?_, hpages, fun x => ?_⟩
      · rw [MemoryManager.mapPageIfNotExist, bind_run, gets_run]
        simp only [hb, hp.regionBefore_eq_none hal hb, Option.isSome_none, Bool.false_eq_true,
          if_false]
        rw [bind_run_of_ok hrun, bind_run, MemoryManager.insertRegion, modify_run]
        rfl
      · rw [hmem]
        constructor
        · rintro (rfl | hx)
          · refine Or.inr ⟨rfl, hal, Nat.le_refl _, by simp, ?_⟩
            intro y hy heq
            obtain ⟨l₁, l₂, hl, -, h₁, h₂⟩ := binarySearch_error hp.sorted hb
            rw [hl, List.mem_append] at hy
            rcases hy with hy | hy
            · exact absurd heq (h₁ y hy).ne
            · exact absurd heq (h₂ y hy).ne'
          · exact Or.inl hx
        · rintro (hx | ⟨hx, hx0, hle, hlt, -⟩)
          · exact Or.inr hx
          · exact Or.inl (hx.trans (congrArg heapPage (honly _ hx0 hle hlt)))

theorem Filled.trans {r₀ r₁ r₂ : List VmRegion} {mid : ℕ} (h : Filled r₀ r₁ addr mid)
    (h' : Filled r₁ r₂ mid endAddr) (hle : addr ≤ mid) (hle' : mid ≤ endAddr) :
    Filled r₀ r₂ addr endAddr := by
  refine ⟨h'.pages, fun x => ?_⟩
  rw [h'.mem_iff, h.mem_iff]
  constructor
  · rintro ((hx | ⟨hx, hx0, hge, hlt, hno⟩) | ⟨hx, hx0, hge, hlt, hno⟩)
    · exact Or.inl hx
    · exact Or.inr ⟨hx, hx0, hge, by omega, hno⟩
    · exact Or.inr ⟨hx, hx0, by omega, hlt, fun y hy => hno y ((h.mem_iff y).mpr (Or.inl hy))⟩
  · rintro (hx | ⟨hx, hx0, hge, hlt, hno⟩)
    · exact Or.inl (Or.inl hx)
    · by_cases hmid : x.start < mid
      · exact Or.inl (Or.inr ⟨hx, hx0, hge, hmid, hno⟩)
      · refine Or.inr ⟨hx, hx0, by omega, hlt, ?_⟩
        intro y hy
        rcases (h.mem_iff y).mp hy with hy | ⟨-, -, -, hylt, -⟩
        · exact hno y hy
        · omega

/-- The loop fills the range. -/
theorem mapPagesUpTo_run (fuel : ℕ) (hp : PagesOk mm.regions) (hal : addr % 4096 = 0)
    (hend : endAddr % 4096 = 0) (hlt : endAddr < 2 ^ 64) (hfuel : (endAddr - addr) / 4096 < fuel) :
    ∃ regions', MemoryManager.mapPagesUpTo fuel addr endAddr ⟨s, mm⟩ =
      .ok () ⟨s, { mm with regions := regions' }⟩ ∧ Filled mm.regions regions' addr endAddr := by
  induction fuel generalizing addr mm with
  | zero => omega
  | succ fuel ih =>
      rw [MemoryManager.mapPagesUpTo]
      by_cases hmore : addr < endAddr
      · have hnext : addr + 4096 ≤ endAddr := by omega
        obtain ⟨b, r₁, hone, h₁⟩ := mapPageIfNotExist_run (s := s) hp hal (by omega)
        have hoff : (okOr (offsetBy addr (pageSize : ℤ)) Error.overflow : MmM ℕ)
            ⟨s, { mm with regions := r₁ }⟩ = .ok (addr + 4096) ⟨s, { mm with regions := r₁ }⟩ := by
          rw [offsetBy_page (by omega)]
          rfl
        have hp₁ : PagesOk ({ mm with regions := r₁ } : MemoryManager).regions := h₁.pages
        obtain ⟨r₂, hrest, h₂⟩ := ih hp₁ (by omega : (addr + 4096) % 4096 = 0) (by omega)
        refine ⟨r₂, ?_, h₁.trans h₂ (by omega) hnext⟩
        rw [if_pos hmore, bind_run_of_ok hone, bind_run_of_ok hoff, hrest]
      · rw [if_neg hmore]
        exact ⟨mm.regions, rfl, Filled.refl hp (Nat.not_lt.mp hmore)⟩

/-! ### What a call does -/

variable {newBrk : ℕ}

/-- A request that is not above `start_brk` is refused. -/
theorem doBrk_refused (h : newBrk ≤ mm.startBrk) :
    MemoryManager.doBrk newBrk ⟨s, mm⟩ = .ok mm.brk ⟨s, mm⟩ := by
  rw [MemoryManager.doBrk, bind_run, gets_run]
  simp only [ge_iff_le, h, if_true, pure_run]

/-- Shrinking moves the break and nothing else. -/
theorem doBrk_shrink (h : mm.startBrk < newBrk) (h' : newBrk ≤ mm.brk) :
    MemoryManager.doBrk newBrk ⟨s, mm⟩ = .ok newBrk ⟨s, { mm with brk := newBrk }⟩ := by
  rw [MemoryManager.doBrk, bind_run, gets_run]
  simp only [ge_iff_le, Nat.not_le.mpr h, if_false]
  by_cases hlt : newBrk < mm.brk
  · rw [if_pos hlt, bind_run, MemoryManager.setBrk, modify_run]
    rfl
  · obtain rfl : newBrk = mm.brk := by omega
    rw [if_neg hlt, if_neg hlt, pure_run]

/-- Growing records the pages in between. -/
theorem doBrk_grow (hp : PagesOk mm.regions) (h : mm.startBrk < newBrk) (h' : mm.brk < newBrk)
    (hlt : newBrk + 4096 < 2 ^ 64) :
    ∃ regions', MemoryManager.doBrk newBrk ⟨s, mm⟩ =
      .ok newBrk ⟨s, { mm with regions := regions', brk := newBrk }⟩ ∧
        Filled mm.regions regions' (pageUp mm.brk) (pageUp newBrk) := by
  have hup : pageUp newBrk < 2 ^ 64 := by
    unfold pageUp
    omega
  obtain ⟨r, hrun, hr⟩ := mapPagesUpTo_run (s := s) (pageUp newBrk / pageSize + 1) hp
    (pageUp_mod mm.brk) (pageUp_mod newBrk) hup
    (by unfold pageSize; omega)
  refine ⟨r, ?_, hr⟩
  rw [MemoryManager.doBrk, bind_run, gets_run]
  simp only [ge_iff_le, Nat.not_le.mpr h, if_false, gt_iff_lt, h', if_true, Nat.lt_asymm h']
  rw [bind_run_of_ok (alignUp_run (by omega) _), bind_run_of_ok (alignUp_run hlt _),
    bind_run_of_ok hrun, bind_run, MemoryManager.setBrk, modify_run]
  rfl

/-- Near the end of the address space growing overflows. -/
theorem doBrk_overflow (h : mm.startBrk < newBrk) (h' : mm.brk < newBrk)
    (hge : 2 ^ 64 ≤ newBrk + 4096) :
    MemoryManager.doBrk newBrk ⟨s, mm⟩ = .panic .overflow := by
  rw [MemoryManager.doBrk, bind_run, gets_run]
  simp only [ge_iff_le, Nat.not_le.mpr h, if_false, gt_iff_lt, h', if_true, Nat.lt_asymm h']
  by_cases hold : mm.brk + 4096 < 2 ^ 64
  · rw [bind_run_of_ok (alignUp_run hold _), bind_run, alignUp_overflow hge]
  · rw [bind_run, alignUp_overflow (Nat.not_lt.mp hold)]

end Loop

/-- What the break may do to a manager: record pages that are readable and writable. -/
structure Grown (mm mm' : MemoryManager) : Prop where
  regions : RegionsOk mm'.regions
  keep : ∀ x ∈ mm.regions, x ∈ mm'.regions
  new : ∀ x ∈ mm'.regions, x ∈ mm.regions ∨ x.flags = PteFlags.RW ||| PteFlags.U
  root_eq : mm'.rootPt = mm.rootPt
  stack_eq : mm'.kernelStack = mm.kernelStack

section Brk
variable {s : MemState} {mm mm' : MemoryManager} {E : Error → Space → Prop} {N : Panic → Prop}
variable {addr endAddr : ℕ}

theorem Grown.refl (hr : RegionsOk mm.regions) : Grown mm mm :=
  ⟨hr, fun _ hx => hx, fun _ hx => Or.inl hx, rfl, rfl⟩

theorem isPageRegion_heapPage (hlow : addr < 2 ^ 38) (hal : addr % 4096 = 0) :
    IsPageRegion (heapPage addr) :=
  have hU : (PteFlags.RW ||| PteFlags.U).getLsbD 4 = true := by decide
  have hX : (PteFlags.RW ||| PteFlags.U) &&& PteFlags.RX ≠ 0#8 := by decide
  ⟨hal, hlow, rfl, hU, hX⟩

/-- Pages filled in the lower half are pages of user memory. -/
theorem Filled.regionsOk {regions regions' : List VmRegion} (h : Filled regions regions' addr endAddr)
    (hr : RegionsOk regions) (hend : endAddr ≤ 2 ^ 38) : RegionsOk regions' := by
  refine ⟨h.pages.sorted, fun x hx => ?_⟩
  rcases (h.mem_iff x).mp hx with hx | ⟨hx, hal, -, hlt, -⟩
  · exact hr.page x hx
  · rw [hx]
    exact isPageRegion_heapPage (hlt.trans_le hend) hal

theorem wp_alignUp {Q : ℕ → Space → Prop} {sp : Space} {a : ℕ} (ha : a ≤ 2 ^ 38)
    (h : ∀ b, a ≤ b → b % 4096 = 0 → b < a + 4096 → Q b sp) :
    wp (alignUp a pageSize) Q E N sp := by
  refine wp_of_eq_ok (alignUp_run (by omega) sp) (h _ (le_pageUp a) (pageUp_mod a) ?_)
  unfold pageUp
  omega

/-- **`brk`** within the lower half touches no memory. -/
theorem wp_doBrk {Q : ℕ → Space → Prop} {newBrk : ℕ} (hr : RegionsOk mm.regions)
    (hbrk : newBrk ≤ 2 ^ 38) (h : ∀ b mm', Grown mm mm' → Q b ⟨s, mm'⟩) :
    wp (MemoryManager.doBrk newBrk) Q E N ⟨s, mm⟩ := by
  by_cases hlow : newBrk ≤ mm.startBrk
  · exact wp_of_eq_ok (doBrk_refused hlow) (h _ _ (Grown.refl hr))
  · have hgt := Nat.not_le.mp hlow
    by_cases hshrink : newBrk ≤ mm.brk
    · refine wp_of_eq_ok (doBrk_shrink hgt hshrink) (h _ _ ?_)
      exact ⟨hr, fun _ hx => hx, fun _ hx => Or.inl hx, rfl, rfl⟩
    · obtain ⟨r, hrun, hf⟩ := doBrk_grow (s := s) hr.pages hgt (Nat.not_le.mp hshrink) (by omega)
      refine wp_of_eq_ok hrun (h _ _ ⟨hf.regionsOk hr ?_, ?_, ?_, rfl, rfl⟩)
      · exact (pageUp_le_iff (by norm_num)).mpr hbrk
      · exact fun x hx => (hf.mem_iff x).mpr (Or.inl hx)
      · intro x hx
        rcases (hf.mem_iff x).mp hx with hx | ⟨hx, -⟩
        · exact Or.inl hx
        · exact Or.inr (congrArg VmRegion.flags hx)

end Brk
end Efiks.Mm
