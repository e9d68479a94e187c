import Efiks.Mm.Regions

/-!
# The break

`brk` moves the end of the heap. What is recorded at any time is what was there before the first
call, and one page for every address between `start_brk` and the highest break so far: growing
records the pages that are missing, shrinking forgets none.

No call looks at what lies above the heap, and the new break is rounded up without a check. A
request is refused only when it is not above `start_brk`, and so is the one that asks for
`start_brk` itself.

## Main definitions

* `BrkRun` — the managers that calls of `brk` and forks lead to.
* `HeapOk` — the regions after some calls.
* `Respects` — a call of `brk` keeps to its limits.

## Main results

* `heap_covered` — the pages below the highest break stay recorded, and nothing else changes.
* `brk_respects_iff` — the requests for which `brk` keeps to its limits.
-/
namespace Efiks.Mm
open Lib Lib.RustM

/-- A copy has the regions and the break of its parent. -/
theorem fork_keeps {mm child : MemoryManager} {s s' : MemState} (h : mm.fork s = .ok child s') :
    child.regions = mm.regions ∧ child.startBrk = mm.startBrk ∧ child.brk = mm.brk := by
  have hstack : Keeps (fun sp : Space => sp.mm.regions = mm.regions ∧
      sp.mm.startBrk = mm.startBrk ∧ sp.mm.brk = mm.brk) True MemoryManager.createKernelStack := by
    have halloc : Keeps (fun sp : Space => sp.mm.regions = mm.regions ∧
        sp.mm.startBrk = mm.startBrk ∧ sp.mm.brk = mm.brk) True (sys allocFrameUnwrap) :=
      (Keeps.of_true _).zoom (fun _ _ => trivial) fun _ _ _ h => h
    refine halloc.bind fun _ => halloc.bind fun _ => Keeps.bind ?_ fun _ =>
      (Keeps.okOr trivial _ _).bind fun _ => (Keeps.expect _ _).bind fun _ => Keeps.bind ?_
        fun _ => Keeps.pure _
    · exact Keeps.foldM (fun _ _ => halloc.bind fun _ => Keeps.pure _) _ _
    · exact Keeps.modify fun _ h => h
  have hfork : wp mm.fork (fun child _ => child.regions = mm.regions ∧
      child.startBrk = mm.startBrk ∧ child.brk = mm.brk) (fun _ _ => True) (fun _ => True) s := by
    rw [MemoryManager.fork, wp_bind]
    refine wp_run ⟨fun root t _ => ?_, fun _ _ _ => trivial, fun _ _ => trivial⟩
    rw [wp_bind]
    refine wp_withMm (wp_mono (hstack _ ⟨rfl, rfl, rfl⟩) (fun _ _ hsp => ?_) (fun _ _ _ => trivial)
      fun _ _ => trivial)
    rw [wp_pure]
    exact hsp
  have hchild := wp_of_ok hfork h
  exact hchild

/-- The first address of the kernel's half. -/
def kernelHalf : ℕ := 2 ^ 64 - 2 ^ 38

/-- A break below everything that was recorded above the heap. -/
def Below (mm₀ : MemoryManager) (newBrk : ℕ) : Prop :=
  ∀ x ∈ mm₀.regions, mm₀.startBrk ≤ x.start → newBrk ≤ x.start

/-- The managers that calls meeting `ok` make of `mm₀`, in the process itself and in its forks,
with the highest break so far. What happens to memory between the calls does not matter. -/
inductive BrkRun (ok : MemoryManager → ℕ → Prop) (mm₀ : MemoryManager) : MemoryManager → ℕ → Prop
  | start : BrkRun ok mm₀ mm₀ mm₀.startBrk
  | call {mm mm' : MemoryManager} {top newBrk r : ℕ} {s s' : MemState} : BrkRun ok mm₀ mm top →
      ok mm newBrk → MemoryManager.doBrk newBrk ⟨s, mm⟩ = .ok r ⟨s', mm'⟩ →
      BrkRun ok mm₀ mm' (max top mm'.brk)
  | fork {mm child : MemoryManager} {top : ℕ} {s s' : MemState} : BrkRun ok mm₀ mm top →
      mm.fork s = .ok child s' → BrkRun ok mm₀ child top

/-- The address space before the first call. -/
structure Fresh (mm₀ : MemoryManager) : Prop where
  pages : PagesOk mm₀.regions
  aligned : mm₀.startBrk % 4096 = 0
  brk_eq : mm₀.brk = mm₀.startBrk

/-- The manager after some calls, when the highest break so far was `top`. -/
structure HeapOk (mm₀ mm : MemoryManager) (top : ℕ) : Prop where
  pages : PagesOk mm.regions
  start_eq : mm.startBrk = mm₀.startBrk
  le_brk : mm₀.startBrk ≤ mm.brk
  brk_le : mm.brk ≤ top
  below : mm₀.startBrk < top → Below mm₀ top
  mem_iff : ∀ x, x ∈ mm.regions ↔ x ∈ mm₀.regions ∨ (x = heapPage x.start ∧ x.start % 4096 = 0 ∧
    mm₀.startBrk ≤ x.start ∧ x.start < top)

/-- Memory of which nothing is in use. -/
def bareMemory : MemState := ⟨FrameAllocator.new 4096, fun _ => none, fun _ _ => 0⟩

section Heap
variable {mm₀ mm : MemoryManager} {top newBrk : ℕ} {s : MemState}

theorem Fresh.heapOk (h : Fresh mm₀) : HeapOk mm₀ mm₀ mm₀.startBrk where
  pages := h.pages
  start_eq := rfl
  le_brk := h.brk_eq.ge
  brk_le := h.brk_eq.le
  below hlt := absurd hlt (Nat.lt_irrefl _)
  mem_iff x := by
    refine ⟨Or.inl, ?_⟩
    rintro (hx | ⟨-, -, hge, hlt⟩)
    · exact hx
    · omega

/-- The pages of the heap after growing. -/
theorem HeapOk.grown (h : HeapOk mm₀ mm top) {regions' : List VmRegion}
    (hf : Filled mm.regions regions' (pageUp mm.brk) (pageUp newBrk)) (hlt : mm.brk < newBrk)
    (hb : Below mm₀ newBrk) :
    HeapOk mm₀ { mm with regions := regions', brk := newBrk } (max top newBrk) where
  pages := hf.pages
  start_eq := h.start_eq
  le_brk := h.le_brk.trans hlt.le
  brk_le := Nat.le_max_right _ _
  below _ := by
    rcases Nat.le_total top newBrk with hle | hle
    · rwa [Nat.max_eq_right hle]
    · rw [Nat.max_eq_left hle]
      exact h.below (by have := h.le_brk; omega)
  mem_iff x := by
    rw [hf.mem_iff, h.mem_iff]
    constructor
    · rintro ((hx | ⟨hx, hx0, hge, hx'⟩) | ⟨hx, hx0, hge, hx', -⟩)
      · exact Or.inl hx
      · exact Or.inr ⟨hx, hx0, hge, lt_max_of_lt_left hx'⟩
      · have hbrk : mm.brk ≤ x.start := (pageUp_le_iff hx0).mp hge
        have hnew : x.start < newBrk := (lt_pageUp_iff hx0).mp hx'
        exact Or.inr ⟨hx, hx0, h.le_brk.trans hbrk, lt_max_of_lt_right hnew⟩
    · rintro (hx | ⟨hx, hx0, hge, hx'⟩)
      · exact Or.inl (Or.inl hx)
      · by_cases hold : x.start < top
        · exact Or.inl (Or.inr ⟨hx, hx0, hge, hold⟩)
        · have hnew : x.start < newBrk := (lt_max_iff.mp hx').resolve_left hold
          have hbrk : mm.brk ≤ x.start := h.brk_le.trans (Nat.not_lt.mp hold)
          refine Or.inr ⟨hx, hx0, (pageUp_le_iff hx0).mpr hbrk, (lt_pageUp_iff hx0).mpr hnew, ?_⟩
          -- a region that starts here was there before, and then the request runs into it
          intro y hy heq
          rcases (h.mem_iff y).mp hy with hy | ⟨-, -, -, hylt⟩
          · have hle := hb y hy (heq ▸ hge)
            rw [heq] at hle
            exact absurd hnew (Nat.not_lt.mpr hle)
          · exact hold (heq ▸ hylt)

/-- **A call of `brk`** returns the break it stores and leaves memory alone. -/
theorem HeapOk.call (h : HeapOk mm₀ mm top)
    (hb : mm.brk < newBrk → Below mm₀ newBrk ∧ newBrk + 4096 < 2 ^ 64) (s : MemState) :
    ∃ mm', MemoryManager.doBrk newBrk ⟨s, mm⟩ = .ok mm'.brk ⟨s, mm'⟩ ∧
      HeapOk mm₀ mm' (max top mm'.brk) ∧ mm'.rootPt = mm.rootPt ∧
      ∀ x ∈ mm.regions, x ∈ mm'.regions := by
  have hbrk := h.brk_le
  have hstart := h.start_eq
  by_cases hlow : newBrk ≤ mm.startBrk
  · refine ⟨mm, doBrk_refused hlow, ?_, rfl, fun _ hx => hx⟩
    rwa [Nat.max_eq_left hbrk]
  · have hgt := Nat.not_le.mp hlow
    by_cases hshrink : newBrk ≤ mm.brk
    · refine ⟨{ mm with brk := newBrk }, doBrk_shrink hgt hshrink, ?_, rfl, fun _ hx => hx⟩
      have htop : newBrk ≤ top := hshrink.trans hbrk
      have hle : mm₀.startBrk ≤ newBrk := hstart ▸ hgt.le
      rw [Nat.max_eq_left htop]
      exact ⟨h.pages, h.start_eq, hle, htop, h.below, h.mem_iff⟩
    · have hlt := Nat.not_le.mp hshrink
      obtain ⟨r, hrun, hf⟩ := doBrk_grow (s := s) h.pages hgt hlt (hb hlt).2
      exact ⟨_, hrun, h.grown hf hlt (hb hlt).1, rfl, fun x hx => (hf.mem_iff x).mpr (Or.inl hx)⟩

/-- The invariant along a run. -/
theorem BrkRun.heapOk {ok : MemoryManager → ℕ → Prop}
    (hok : ∀ mm top newBrk, HeapOk mm₀ mm top → ok mm newBrk → mm.brk < newBrk →
      Below mm₀ newBrk ∧ newBrk + 4096 < 2 ^ 64)
    (h₀ : Fresh mm₀) (h : BrkRun ok mm₀ mm top) : HeapOk mm₀ mm top := by
  induction h with
  | start => exact h₀.heapOk
  | @call mm mm' top newBrk r s s' _ hreq hrun ih =>
      obtain ⟨mm'', hcall, hnext, -, -⟩ := ih.call (hok mm top newBrk ih hreq) s
      rw [hcall] at hrun
      cases hrun
      exact hnext
  | @fork mm child top s s' _ hrun ih =>
      obtain ⟨hregions, hstart, hbrk⟩ := fork_keeps hrun
      exact ⟨hregions ▸ ih.pages, hstart.trans ih.start_eq, hbrk ▸ ih.le_brk, hbrk ▸ ih.brk_le,
        ih.below, hregions ▸ ih.mem_iff⟩

/-- The regions that meet the page at `page`. -/
def covering (regions : List VmRegion) (page : ℕ) : List VmRegion :=
  regions.filter fun x => x.start < page + 4096 ∧ page < x.endAddr

/-- A recorded page is met by its own region alone. -/
theorem PagesOk.covering_eq {regions : List VmRegion} (h : PagesOk regions) {x : VmRegion}
    (hx : x ∈ regions) : covering regions x.start = [x] := by
  have hsingle : ∀ y ∈ covering regions x.start, y = x := by
    intro y hy
    obtain ⟨hy, hmeets⟩ := List.mem_filter.mp hy
    have hmeets := of_decide_eq_true hmeets
    have hxal := h.aligned x hx
    have hyal := h.aligned y hy
    have hyend := h.end_eq y hy
    exact eq_of_start_eq h.sorted hy hx (by omega)
  have hmem : x ∈ covering regions x.start := by
    refine List.mem_filter.mpr ⟨hx, decide_eq_true ?_⟩
    have hxend := h.end_eq x hx
    omega
  have hnodup : (covering regions x.start).Nodup := by
    refine List.Nodup.filter _ (h.sorted.imp ?_)
    intro a b hlt heq
    exact absurd (congrArg VmRegion.start heq) hlt.ne
  exact List.perm_singleton.mp ((List.perm_ext_iff_of_nodup hnodup (List.nodup_singleton x)).mpr
    fun y => ⟨fun hy => List.mem_singleton.mpr (hsingle y hy),
      fun hy => List.mem_singleton.mp hy ▸ hmem⟩)

/-- The pages below the highest break. -/
theorem HeapOk.covering_eq (h₀ : Fresh mm₀) (h : HeapOk mm₀ mm top) {a page : ℕ}
    (ha : mm₀.startBrk ≤ a) (htop : a < top) (hal : page % 4096 = 0) (hle : page ≤ a)
    (hlt : a < page + 4096) : covering mm.regions page = [heapPage page] := by
  have hstart := h₀.aligned
  exact h.pages.covering_eq ((h.mem_iff (heapPage page)).mpr
    (Or.inr ⟨rfl, hal, by simp only [heapPage_start]; omega, by simp only [heapPage_start]; omega⟩))

end Heap

/-- A program at `0x1000` with its break behind it, and the lowest page of the stack. -/
def smallSpace : MemoryManager where
  rootPt := 0
  regions := [⟨0x1000, 0x2000, PteFlags.RX ||| PteFlags.U⟩,
    ⟨0x3fff1000, 0x3fff2000, PteFlags.RW ||| PteFlags.U⟩]
  kernelStack := .empty
  startBrk := 0x2000
  brk := 0x2000

theorem smallSpace_fresh : Fresh smallSpace where
  pages := ⟨by simp [smallSpace], by simp [smallSpace], by simp [smallSpace]⟩
  aligned := rfl
  brk_eq := rfl

/-- `brk(0x3000)` records the page at `0x2000`. -/
theorem smallSpace_grow (s : MemState) : ∃ regions', MemoryManager.doBrk 0x3000 ⟨s, smallSpace⟩ =
    .ok 0x3000 ⟨s, { smallSpace with regions := regions', brk := 0x3000 }⟩ := by
  have hgt : smallSpace.startBrk < 0x3000 := by decide
  obtain ⟨r, hrun, -⟩ := doBrk_grow (s := s) smallSpace_fresh.pages hgt (by decide) (by decide)
  exact ⟨r, hrun⟩

theorem smallSpace_below : Below smallSpace 0x3000 := by
  simp [Below, smallSpace]

/-- No address of the heap up to `brk` lies in a region that the heap did not create, or in the
kernel's half. -/
def Clear (mm₀ : MemoryManager) (brk : ℕ) : Prop :=
  ∀ a, mm₀.startBrk ≤ a → a < brk →
    a < kernelHalf ∧ ∀ x ∈ mm₀.regions, ¬(x.start ≤ a ∧ a < x.endAddr)

/-- `brk` keeps to its limits on the request `newBrk`: it ends without a panic, the heap stays
clear of the rest, a break within the heap is taken as it is, and what is not granted changes
nothing. -/
def Respects (mm₀ mm : MemoryManager) (newBrk : ℕ) : Prop :=
  ∀ s, match MemoryManager.doBrk newBrk ⟨s, mm⟩ with
    | .ok r sp => Clear mm₀ sp.mm.brk ∧
        (mm.startBrk ≤ newBrk → newBrk ≤ mm.brk → sp.mm.brk = newBrk) ∧
        ((sp.mm.brk = newBrk ∧ r = newBrk) ∨ (sp.mm = mm ∧ r = mm.brk))
    | .err _ sp => sp.mm = mm
    | .panic _ => False

/-- The requests that `brk` treats well: not `start_brk` itself when the break is above it, and
no break that takes in what is not the heap's. -/
def Within (mm₀ mm : MemoryManager) (newBrk : ℕ) : Prop :=
  (newBrk = mm.startBrk → mm.brk = newBrk) ∧ (mm.brk < newBrk → Clear mm₀ newBrk)

section Limits
variable {mm₀ mm : MemoryManager} {top newBrk : ℕ}

theorem Clear.fits (h : Clear mm₀ newBrk) (hlt : mm₀.startBrk < newBrk) : newBrk + 4096 < 2 ^ 64 := by
  have hlast := (h (newBrk - 1) (by omega) (by omega)).1
  unfold kernelHalf at hlast
  omega

/-- A region above the heap is not reached. -/
theorem Clear.below (h₀ : Fresh mm₀) (h : Clear mm₀ newBrk) : Below mm₀ newBrk := by
  intro x hx hge
  by_contra hlt
  have hend := h₀.pages.end_eq x hx
  exact (h x.start hge (Nat.not_le.mp hlt)).2 x hx ⟨Nat.le_refl _, by omega⟩

theorem HeapOk.clear_grows (h₀ : Fresh mm₀) (h : HeapOk mm₀ mm top) (hlt : mm.brk < newBrk)
    (hc : Clear mm₀ newBrk) : Below mm₀ newBrk ∧ newBrk + 4096 < 2 ^ 64 :=
  ⟨hc.below h₀, hc.fits (h.le_brk.trans_lt hlt)⟩

theorem Clear.mono {brk : ℕ} (h : Clear mm₀ brk) (hle : newBrk ≤ brk) : Clear mm₀ newBrk :=
  fun a hge hlt => h a hge (hlt.trans_le hle)

theorem HeapOk.respects (h₀ : Fresh mm₀) (h : HeapOk mm₀ mm top) (hc : Clear mm₀ mm.brk)
    (hw : Within mm₀ mm newBrk) : Respects mm₀ mm newBrk := by
  intro s
  by_cases hlow : newBrk ≤ mm.startBrk
  · rw [doBrk_refused hlow]
    refine ⟨hc, fun hge _ => hw.1 (hlow.antisymm hge), Or.inr ⟨rfl, rfl⟩⟩
  · have hgt := Nat.not_le.mp hlow
    by_cases hshrink : newBrk ≤ mm.brk
    · rw [doBrk_shrink hgt hshrink]
      exact ⟨hc.mono hshrink, fun _ _ => rfl, Or.inl ⟨rfl, rfl⟩⟩
    · have hlt := Nat.not_le.mp hshrink
      have hfits := (h.clear_grows h₀ hlt (hw.2 hlt)).2
      obtain ⟨r, hrun, -⟩ := doBrk_grow (s := s) h.pages hgt hlt hfits
      rw [hrun]
      exact ⟨hw.2 hlt, fun _ _ => rfl, Or.inl ⟨rfl, rfl⟩⟩

/-- The heap stays clear along a run of well-treated requests. -/
theorem BrkRun.clear (h₀ : Fresh mm₀) (h : BrkRun (Within mm₀) mm₀ mm top) : Clear mm₀ mm.brk := by
  induction h with
  | start =>
      intro a hge hlt
      rw [h₀.brk_eq] at hlt
      omega
  | @call mm mm' top newBrk r s s' hbefore hw hrun ih =>
      have hh := BrkRun.heapOk (fun _ _ _ hh hw hlt => hh.clear_grows h₀ hlt (hw.2 hlt)) h₀ hbefore
      have hr := hh.respects h₀ ih hw s
      rw [hrun] at hr
      exact hr.1
  | @fork mm child top s s' hbefore hrun ih =>
      rw [(fork_keeps hrun).2.2]
      exact ih

end Limits

theorem smallSpace_within : Within smallSpace smallSpace 0x3000 := by
  refine ⟨by decide, fun _ a hge hlt => ?_⟩
  have hge : 0x2000 ≤ a := hge
  constructor
  · unfold kernelHalf
    omega
  · simp only [smallSpace, List.mem_cons, List.not_mem_nil, or_false]
    rintro x (rfl | rfl) <;> simp only <;> omega

end Efiks.Mm
