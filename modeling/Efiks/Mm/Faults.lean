import Efiks.Mm.Accounting

/-!
# Regions and page faults

The regions of an address space are a sorted partition of what is mapped: every method that adds
one puts it where the binary search ended. A page fault reads the partition back. It is refused
when no region contains the address, when the region lacks the access, or when the page is
present and the access is not a write; otherwise the page is present afterwards, as a zero page or
as a private copy, and no other page moves.

That needs the pages to stay leaf entries of user memory. `fork` clears the flag `W`, and of a
page that is writable and nothing else it leaves an entry that points to a table.

## Main definitions

* `SortedPartition` — sorted, disjoint, page aligned and nonempty regions.
* `FaultOk` — what `handle_page_fault` may do.
* `Laid` — the runs that lay out address spaces.

## Main results

* `faults_decode_regions` — both hold along every run whose pages are readable or executable.
-/
namespace Efiks.Mm
open Lib Lib.RustM PageTableEntry

/-- Sorted regions that are page aligned, not empty, and do not overlap. -/
structure SortedPartition (regions : List VmRegion) : Prop where
  sorted : regions.Pairwise fun x y => x.start < y.start
  disjoint : regions.Pairwise fun x y => x.endAddr ≤ y.start
  aligned : ∀ x ∈ regions, x.start % 4096 = 0 ∧ x.endAddr % 4096 = 0
  nonempty : ∀ x ∈ regions, x.start < x.endAddr

theorem PagesOk.sortedPartition {regions : List VmRegion} (h : PagesOk regions) :
    SortedPartition regions where
  sorted := h.sorted
  disjoint := by
    refine List.Pairwise.imp_of_mem ?_ h.sorted
    intro x y hx hy hlt
    have hxal := h.aligned x hx
    have hyal := h.aligned y hy
    have hend := h.end_eq x hx
    omega
  aligned x hx := by
    have hal := h.aligned x hx
    have hend := h.end_eq x hx
    omega
  nonempty x hx := by
    have hend := h.end_eq x hx
    omega

/-- Where `va` of process `p` is in memory. -/
def Machine.translate (σ : Machine) (p va : ℕ) : Option ℕ :=
  PageTable.translate σ.sys.mem (σ.proc p).mm.rootPt va

/-- The byte process `p` has at `va`. -/
def Machine.byteAt (σ : Machine) (p va : ℕ) : Option UInt8 :=
  (σ.translate p va).map σ.sys.readByte

/-- A fault that cannot be served. -/
def Refused (σ : Machine) (p addr : ℕ) (access : PteFlags) : Prop :=
  (∀ x ∈ (σ.proc p).mm.regions, ¬(x.start ≤ addr ∧ addr < x.endAddr)) ∨
  (∃ x ∈ (σ.proc p).mm.regions, (x.start ≤ addr ∧ addr < x.endAddr) ∧
    x.flags.contains access = false) ∨
  ((σ.translate p addr).isSome = true ∧ access.contains PteFlags.W = false)

/-- The page of `addr` is present after the fault, zero if it was absent and else a private
writable copy, and the other pages are where they were. -/
structure Served (σ σ' : Machine) (p addr : ℕ) : Prop where
  present : ∀ a, a / 4096 = addr / 4096 → (σ'.translate p a).isSome = true
  zero : σ.translate p addr = none → ∀ a, a / 4096 = addr / 4096 → σ'.byteAt p a = some 0
  copy : (σ.translate p addr).isSome = true →
    (∀ a, a / 4096 = addr / 4096 → σ'.byteAt p a = σ.byteAt p a) ∧
    (σ'.userAccess p addr PteFlags.W).isSome = true ∧
    ∀ q ∈ σ.live, ∀ a < 2 ^ 38, ∀ pa pa', σ'.translate p addr = some pa →
      σ'.translate q a = some pa' → pa / 4096 = pa' / 4096 → q = p ∧ a / 4096 = addr / 4096
  others : ∀ q ∈ σ.live, ∀ a < 2 ^ 64, isCanonical a = true →
    ¬(q = p ∧ a / 4096 = addr / 4096) → σ'.translate q a = σ.translate q a

/-- `handle_page_fault` fails with `Unmapped` exactly when the fault cannot be served, and
otherwise serves it, unless memory has run out. -/
def FaultOk (σ : Machine) (p addr : ℕ) (access : PteFlags) : Prop :=
  match MemoryManager.handlePageFault addr access (σ.space p) with
  | .ok _ sp => ¬Refused σ p addr access ∧ sp.mm = (σ.proc p).mm ∧ Served σ (σ.setSpace p sp) p addr
  | .err e sp => e = .unmapped ∧ Refused σ p addr access ∧ sp = σ.space p
  | .panic q => OutOfMemory q ∧ ¬Refused σ p addr access

section Translate
variable {perm : Perm} {track : Bool} {boot boot' : ℕ → Prop} {σ σ' : Machine} {p q a b g : ℕ}
variable {access : PteFlags}

/-- Translation reads the abstract mapping. -/
theorem Inv.translate_eq_map (h : Inv perm track boot σ) (hp : p ∈ σ.live) (ha : a < 2 ^ 38) :
    σ.translate p a = ((σ.abs track).map p (vpn a)).map fun m => 4096 * m.1 + a % 4096 := by
  rw [Machine.translate, (h.space p hp).root, translate_eq (h.space p hp).shape ha, abs_map hp]
  by_cases h0 : pteAt σ.sys (σ.proc p).mm.rootFrame (vpn a) = 0
  · rw [if_pos h0, h0, pageOf_zero, Option.map_none]
  · rw [if_neg h0, pageOf_of_ne h0, Option.map_some]

theorem Inv.translate_isSome (h : Inv perm track boot σ) (hp : p ∈ σ.live) (ha : a < 2 ^ 38) :
    (σ.translate p a).isSome = true ↔ pteAt σ.sys (σ.proc p).mm.rootFrame (vpn a) ≠ 0 :=
  pteAt_of_mapped h hp ha

theorem vpn_eq_iff (ha : a < 2 ^ 38) (hb : b < 2 ^ 38) : vpn a = vpn b ↔ a / 4096 = b / 4096 := by
  simp only [vpn, vpn2, vpn1, vpn0, Prod.mk.injEq, Fin.mk.injEq, Nat.shiftRight_eq_div_pow]
  omega

/-- The kernel's half is the same in every address space. -/
theorem Inv.translate_upper (h : Inv perm track boot σ) (h' : Inv perm track boot' σ')
    (hp : p ∈ σ.live) (hp' : p ∈ σ'.live) (ha : 256 ≤ (vpn2 a).val) :
    σ'.translate p a = σ.translate p a := by
  have hs := (h.space p hp).shape
  have hs' := (h'.space p hp').shape
  rw [Machine.translate, Machine.translate, (h.space p hp).root, (h'.space p hp').root,
    PageTable.translate, PageTable.translate, translateToPtePtr_upper hs ha,
    translateToPtePtr_upper hs' ha]
  by_cases hl : (kernelEntry (vpn2 a)).isLeaf = true
  · rw [if_pos hl, if_pos hl, Option.map_some, Option.map_some]
    simp only [hs.kernel _ ha, hs'.kernel _ ha]
  · rw [if_neg hl, if_neg hl, Option.map_none, Option.map_none]

/-- The byte of a page, from the abstract contents of its frame. -/
theorem Inv.byteAt_eq_data (h : Inv perm track boot σ) (hp : p ∈ σ.live) (ha : a < 2 ^ 38) :
    σ.byteAt p a = ((σ.abs track).map p (vpn a)).map fun m =>
      (σ.abs track).data m.1 (pageOffset a) := by
  rw [Machine.byteAt, h.translate_eq_map hp ha, Option.map_map]
  congr 1
  funext m
  have hdiv : (4096 * m.1 + a % 4096) / 4096 = m.1 := by omega
  have hoff : pageOffset (4096 * m.1 + a % 4096) = pageOffset a := Fin.ext (by
    change (4096 * m.1 + a % 4096) % 4096 = a % 4096
    omega)
  rw [Function.comp_apply, MemState.readByte, hdiv, hoff]
  rfl

/-- A page with the flag `W` can be written. -/
theorem Inv.userAccess_of_writable (h : Inv perm track boot σ) (hp : p ∈ σ.live) (ha : a < 2 ^ 38)
    (hm : (σ.abs track).map p (vpn a) = some (g, true)) :
    (σ.userAccess p a PteFlags.W).isSome = true := by
  obtain ⟨-, hne, -, hw⟩ := abs_map_eq_some.mp hm
  refine userAccess_isSome (h.space p hp).shape (h.space p hp).root ha hne ?_
  rw [contains_W, getLsbD_entryFlags (by norm_num), ← isWritable_eq]
  exact hw

end Translate

section Serve
variable {perm : Perm} {track : Bool} {boot boot' : ℕ → Prop} {σ σ' : Machine} {p addr g : ℕ}
variable {x : Bool}

/-- A page got a frame of its own, and no other page changed. -/
structure OnePage (track : Bool) (σ σ' : Machine) (p addr g : ℕ) (x : Bool) : Prop where
  live_eq : σ'.live = σ.live
  map_self : (σ'.abs track).map p (vpn addr) = some (g, x)
  map_other : ∀ q w, (q, w) ≠ (p, vpn addr) → (σ'.abs track).map q w = (σ.abs track).map q w

theorem OnePage.others (h : Inv perm track boot σ) (h' : Inv perm track boot' σ')
    (haddr : addr < 2 ^ 38) (hm : OnePage track σ σ' p addr g x) :
    ∀ q ∈ σ.live, ∀ a < 2 ^ 64, isCanonical a = true → ¬(q = p ∧ a / 4096 = addr / 4096) →
      σ'.translate q a = σ.translate q a := by
  intro q hq a ha hc hne
  have hq' : q ∈ σ'.live := hm.live_eq ▸ hq
  by_cases hlow : a < 2 ^ 38
  · rw [h'.translate_eq_map hq' hlow, h.translate_eq_map hq hlow, hm.map_other]
    intro heq
    obtain ⟨hqp, hv⟩ := Prod.mk.inj heq
    exact hne ⟨hqp, (vpn_eq_iff hlow haddr).mp hv⟩
  · exact h.translate_upper h' hq hq' (vpn2_of_canonical hc ha hlow)

theorem OnePage.translate_eq (h' : Inv perm track boot' σ') (hp : p ∈ σ.live)
    (haddr : addr < 2 ^ 38) (hm : OnePage track σ σ' p addr g x) {a : ℕ}
    (ha : a / 4096 = addr / 4096) : σ'.translate p a = some (4096 * g + a % 4096) := by
  have hlow : a < 2 ^ 38 := by omega
  rw [h'.translate_eq_map (hm.live_eq ▸ hp) hlow, (vpn_eq_iff hlow haddr).mpr ha, hm.map_self]
  rfl

theorem OnePage.byteAt_eq (h' : Inv perm track boot' σ') (hp : p ∈ σ.live) (haddr : addr < 2 ^ 38)
    (hm : OnePage track σ σ' p addr g x) {a : ℕ} (ha : a / 4096 = addr / 4096) :
    σ'.byteAt p a = some ((σ'.abs track).data g (pageOffset a)) := by
  have hlow : a < 2 ^ 38 := by omega
  rw [h'.byteAt_eq_data (hm.live_eq ▸ hp) hlow, (vpn_eq_iff hlow haddr).mpr ha, hm.map_self]
  rfl

/-- An absent page was filled with zeros. -/
theorem OnePage.served_zero (h : Inv perm track boot σ) (h' : Inv perm track boot' σ')
    (hp : p ∈ σ.live) (haddr : addr < 2 ^ 38) (hm : OnePage track σ σ' p addr g x)
    (habsent : (σ.abs track).map p (vpn addr) = none) (hzero : (σ'.abs track).data g = fun _ => 0) :
    Served σ σ' p addr where
  present a ha := by rw [hm.translate_eq h' hp haddr ha, Option.isSome_some]
  zero _ a ha := by rw [hm.byteAt_eq h' hp haddr ha, hzero]
  copy hsome := by
    rw [h.translate_eq_map hp haddr, habsent] at hsome
    cases hsome
  others := hm.others h h' haddr

/-- A present page was copied. -/
theorem OnePage.served_copy (h : Inv perm track boot σ) (h' : Inv perm track boot' σ')
    (hp : p ∈ σ.live) (haddr : addr < 2 ^ 38) (hm : OnePage track σ σ' p addr g true) {f : ℕ} {y : Bool}
    (hold : (σ.abs track).map p (vpn addr) = some (f, y))
    (hcopy : (σ'.abs track).data g = (σ.abs track).data f) : Served σ σ' p addr where
  present a ha := by rw [hm.translate_eq h' hp haddr ha, Option.isSome_some]
  zero hnone := by
    rw [h.translate_eq_map hp haddr, hold] at hnone
    cases hnone
  copy _ := by
    have hp' : p ∈ σ'.live := hm.live_eq ▸ hp
    refine ⟨fun a ha => ?_, h'.userAccess_of_writable hp' haddr hm.map_self, ?_⟩
    · have hlow : a < 2 ^ 38 := by omega
      rw [hm.byteAt_eq h' hp haddr ha, h.byteAt_eq_data hp hlow, (vpn_eq_iff hlow haddr).mpr ha, hold,
        hcopy]
      rfl
    · -- a writable page is nobody else's
      intro q hq a ha pa pa' hpa hpa' heq
      have hq' : q ∈ σ'.live := hm.live_eq ▸ hq
      rw [hm.translate_eq h' hp haddr rfl] at hpa
      rw [h'.translate_eq_map hq' ha] at hpa'
      obtain ⟨⟨f', z⟩, hmap, hpa'⟩ := Option.map_eq_some_iff.mp hpa'
      obtain rfl : f' = g := by
        have hpa := Option.some.inj hpa
        simp only at hpa'
        omega
      obtain rfl : q = p := h'.sharing.excl hm.map_self ⟨vpn a, z, hmap⟩
      exact ⟨rfl, (vpn_eq_iff ha haddr).mp (h'.sharing.map_inj hmap hm.map_self)⟩
  others := hm.others h h' haddr

/-- A fault is served when a region contains its page, has the access, and the page is absent
or the access is a write. -/
theorem Inv.not_refused_iff (h : Inv perm track boot σ) (hp : p ∈ σ.live) (haddr : addr < 2 ^ 38)
    (access : PteFlags) :
    ¬Refused σ p addr access ↔ ∃ x ∈ (σ.proc p).mm.regions, x.start = addr / 4096 * 4096 ∧
      x.flags.contains access = true ∧ (access.contains PteFlags.W = true ∨
        pteAt σ.sys (σ.proc p).mm.rootFrame (vpn x.start) = 0) := by
  have hr := (h.space p hp).regions
  -- a page region contains `addr` when it is the page of `addr`
  have hin : ∀ x ∈ (σ.proc p).mm.regions,
      (x.start ≤ addr ∧ addr < x.endAddr ↔ x.start = addr / 4096 * 4096) := by
    intro x hx
    have hal := (hr.page x hx).aligned
    have hend := (hr.page x hx).end_eq
    omega
  have hvpn : ∀ {x : VmRegion}, x.start = addr / 4096 * 4096 → vpn x.start = vpn addr := by
    intro x hx
    exact (vpn_eq_iff (by omega) haddr).mpr (by omega)
  unfold Refused
  constructor
  · intro hno
    push Not at hno
    obtain ⟨⟨x, hx, hxin⟩, hacc, hpresent⟩ := hno
    have hstart := (hin x hx).mp hxin
    refine ⟨x, hx, hstart, by simpa using hacc x hx hxin, ?_⟩
    by_cases h0 : pteAt σ.sys (σ.proc p).mm.rootFrame (vpn x.start) = 0
    · exact Or.inr h0
    · rw [hvpn hstart] at h0
      exact Or.inl (by simpa using hpresent ((h.translate_isSome hp haddr).mpr h0))
  · rintro ⟨x, hx, hstart, hacc, hlast⟩ (hnone | ⟨y, hy, hyin, hyacc⟩ | ⟨hsome, hW⟩)
    · exact hnone x hx ((hin x hx).mpr hstart)
    · have hyx : y = x := eq_of_start_eq hr.sorted hy hx (((hin y hy).mp hyin).trans hstart.symm)
      rw [hyx, hacc] at hyacc
      cases hyacc
    · rcases hlast with hlast | hlast
      · rw [hlast] at hW
        cases hW
      · rw [hvpn hstart] at hlast
        exact (h.translate_isSome hp haddr).mp hsome hlast

end Serve

section Fault
variable {track : Bool} {boot : ℕ → Prop} {σ : Machine} {p addr : ℕ}

/-- **A page fault** reads the regions back. -/
theorem Inv.faultOk (h : Inv ⟨False, False⟩ track boot σ) (hp : p ∈ σ.live) (haddr : addr < 2 ^ 38)
    (access : PteFlags) : FaultOk σ p addr access := by
  have hsp := h.space p hp
  have hserve := h.not_refused_iff hp haddr access
  have hwp : wp (MemoryManager.handlePageFault addr access)
      (fun _ sp => ¬Refused σ p addr access ∧ sp.mm = (σ.proc p).mm ∧
        Served σ (σ.setSpace p sp) p addr)
      (fun e sp => e = .unmapped ∧ Refused σ p addr access ∧ sp = σ.space p)
      (fun q => OutOfMemory q ∧ ¬Refused σ p addr access) (σ.space p) := by
    refine wp_handlePageFault h.placed hsp.shape hsp.root hsp.regions (by omega)
      (fun hx q hq => ⟨hq, hserve.mpr hx⟩) (fun hno => ⟨rfl, ?_, rfl⟩)
      (fun x hx hstart hacc hW hne => ?_) fun x hx hstart hacc f s' hmap => ?_
    · by_contra hnot
      exact hno (hserve.mp hnot)
    · have hok := hserve.mpr ⟨x, hx, hstart, hacc, Or.inl hW⟩
      have hv : vpn x.start = vpn addr := (vpn_eq_iff (by omega) haddr).mpr (by omega)
      have hm : (σ.abs track).Maps p (pteAt σ.sys (σ.proc p).mm.rootFrame (vpn x.start)).ppn :=
        Inv.maps_of_pteAt hp hne
      obtain ⟨c, hc, hc0, -⟩ := h.exists_meta hm
      refine wp_copyOnWrite h.placed hsp.shape (by omega) hne rfl (h.sharing.used_of_maps hm)
        (h.maps_not_table hm hp) hc hc0 (fun q hq => ⟨hq, hok⟩) fun g s' hcop => ⟨hok, rfl, ?_⟩
      have hstep := h.copied hp hne rfl hc hcop False.elim False.elim
      have hun := h.unshare hp hne rfl hc hcop
      rw [hv] at hun hne
      exact OnePage.served_copy h hstep.inv hp haddr ⟨hun.live_eq, hun.map_self, hun.map_other⟩
        (abs_map_eq_some.mpr ⟨hp, hne, rfl, rfl⟩) hun.data_new
    · have hok := hserve.mpr ⟨x, hx, hstart, hacc, Or.inr hmap.unmapped⟩
      have hv : vpn x.start = vpn addr := (vpn_eq_iff (by omega) haddr).mpr (by omega)
      have hstep := h.pageMapped hp hmap rfl rfl hsp.regions
        (fun y => ⟨Or.inr, fun hy => hy.elim (fun hy => hy ▸ hx) id⟩) False.elim
      have hfresh := h.mapFresh hp hmap rfl rfl
      rw [hv] at hfresh
      exact ⟨hok, rfl, OnePage.served_zero h hstep.inv hp haddr
        ⟨hfresh.live_eq, hfresh.map_self, hfresh.map_other⟩ hfresh.unmapped hfresh.data_self⟩
  unfold FaultOk
  cases hrun : MemoryManager.handlePageFault addr access (σ.space p) with
  | ok a sp =>
      have hend := wp_of_ok hwp hrun
      exact hend
  | err e sp =>
      have hend := wp_of_err hwp hrun
      exact hend
  | panic q =>
      have hend := wp_of_panic hwp hrun
      exact hend

end Fault

/-! ### Runs -/

/-- Flags of a page that user mode may read or execute. -/
def UserPage (flags : PteFlags) : Prop :=
  flags.contains PteFlags.U = true ∧ flags &&& PteFlags.RX ≠ 0#8

instance (flags : PteFlags) : Decidable (UserPage flags) :=
  inferInstanceAs (Decidable (_ ∧ _))

/-- The steps of a run, with pages whose flags meet `ok`. -/
def Lays (ok : PteFlags → Prop) : Op → Prop
  | .mapAllocatePage _ _ flags => ok flags
  | .free _ => False
  | _ => True

instance (ok : PteFlags → Prop) [DecidablePred ok] : (op : Op) → Decidable (Lays ok op)
  | .mapAllocatePage _ _ flags => inferInstanceAs (Decidable (ok flags))
  | .free _ => isFalse id
  | .new _ | .remapPage .. | .copyIn .. | .setInitialBrk .. | .createKernelStack _ | .fork ..
  | .load .. | .store .. | .brk .. | .handlePageFault .. | .copyOnWrite .. => isTrue trivial

/-- The states that lead from `σ₀` by steps of the machine and calls of `map_page`, at page-aligned
addresses of the lower half that are not mapped. -/
inductive Laid (ok : PteFlags → Prop) (σ₀ : Machine) : Machine → Prop
  | start : Booted σ₀ → Laid ok σ₀ σ₀
  | step {σ σ' : Machine} {op : Op} {ev : Event} : Laid ok σ₀ σ → σ.Enabled op → Lays ok op →
      σ.step op = some (ev, σ') → Laid ok σ₀ σ'
  | mapPage {σ σ' : Machine} {p va : ℕ} {flags : PteFlags} : Laid ok σ₀ σ → p ∈ σ.live →
      va % 4096 = 0 → va < 2 ^ 38 → ¬σ.Mapped p va → ok flags →
      Machine.onSpace p (MemoryManager.mapPage va flags) σ = .ok () σ' → Laid ok σ₀ σ'

section Laid
variable {ok : PteFlags → Prop} {σ₀ σ σ' : Machine} {ref : Ref} {boot : ℕ → Prop} {p va : ℕ}
variable {flags : PteFlags}

theorem Laid.of_reach (h : Reach (fun _ op => Lays ok op) σ₀ σ ref) : Laid ok σ₀ σ := by
  induction h with
  | start hb => exact .start hb
  | step _ hen hok hstep ih => exact ih.step hen hok hstep

/-- A region more changes nothing that is mapped. -/
theorem SpaceOk.inserted {s : MemState} {mm mm' : MemoryManager} {x : VmRegion}
    (h : SpaceOk ⟨False, False⟩ s mm) (hins : Inserted mm mm' x) : SpaceOk ⟨False, False⟩ s mm' := by
  have hroot : mm'.rootFrame = mm.rootFrame := by
    rw [hins.rest]
    rfl
  refine ⟨?_, hroot ▸ h.shape, hins.regions, ?_, ?_, False.elim, False.elim⟩
  · rw [hroot, hins.rest]
    exact h.root
  · intro v hv
    obtain ⟨y, hy, hyv⟩ := h.covered v (hroot ▸ hv)
    exact ⟨y, (hins.mem_iff y).mpr (Or.inr hy), hyv⟩
  · rw [hins.rest]
    exact h.stack

theorem Inv.mapPage (h : Inv ⟨False, False⟩ false boot σ) (hp : p ∈ σ.live) (hal : va % 4096 = 0)
    (hva : va < 2 ^ 38) (hflags : UserPage flags)
    (hrun : Machine.onSpace p (MemoryManager.mapPage va flags) σ = .ok () σ') :
    Inv ⟨False, False⟩ false boot σ' := by
  have hend : offsetBy va (pageSize : ℤ) = some (va + 4096) := offsetBy_page (by omega)
  have hU : flags.getLsbD 4 = true := contains_getLsbD hflags.1 (by decide)
  have hwp : wp (Machine.onSpace p (MemoryManager.mapPage va flags))
      (fun _ σ' => Inv ⟨False, False⟩ false boot σ') (fun _ _ => True) (fun _ => True) σ := by
    rw [wp_onSpace, MemoryManager.mapPage, wp_bind, hend, wp_okOr_some]
    refine wp_insertMapping (x := ⟨va, va + 4096, flags⟩) (h.space p hp).regions
      ⟨hal, hva, rfl, hU, hflags.2⟩ trivial fun mm' hins => ?_
    refine (h.managed ?_ ?_ ((h.space p hp).inserted hins)).inv
    · rw [hins.rest]
    · rw [hins.rest]
  have hinv := wp_of_ok hwp hrun
  exact hinv

/-- The invariant along a run. -/
theorem opOk_of_lays {op : Op} (h : Lays UserPage op) : OpOk ⟨False, False⟩ false σ op := by
  cases op with
  | mapAllocatePage p va flags => exact ⟨h.2, False.elim⟩
  | remapPage p va flags => exact ⟨False.elim, False.elim⟩
  | createKernelStack p => exact fun h => nomatch h
  | fork p q => exact fun h => nomatch h
  | copyOnWrite p va => exact fun h => (h.elim id id).elim
  | free p => exact h.elim
  | _ => trivial

theorem Laid.inv (h : Laid UserPage σ₀ σ) : ∃ boot, Inv ⟨False, False⟩ false boot σ := by
  induction h with
  | start hb => exact ⟨σ₀.sys.used, hb.inv⟩
  | @step σ σ' op ev _ hen hlays hstep ih =>
      obtain ⟨boot, hinv⟩ := ih
      obtain ⟨boot', -, -, hs⟩ := hinv.step hen (opOk_of_lays hlays) hstep
      exact ⟨boot', hs.inv⟩
  | mapPage _ hp hal hva _ hflags hrun ih =>
      obtain ⟨boot, hinv⟩ := ih
      exact ⟨boot, hinv.mapPage hp hal hva hflags hrun⟩

end Laid

/-- **Regions and page faults.** Along every run whose pages are user pages that can be read or
executed, the regions of every process are a sorted partition, and a page fault at an address of
the lower half decodes it. -/
theorem faults_decode_regions {σ₀ σ : Machine} (h : Laid UserPage σ₀ σ) {p : ℕ} (hp : p ∈ σ.live) :
    SortedPartition (σ.proc p).mm.regions ∧
      ∀ addr < 2 ^ 38, ∀ access, FaultOk σ p addr access := by
  obtain ⟨boot, hinv⟩ := h.inv
  exact ⟨(hinv.space p hp).regions.pages.sortedPartition,
    fun addr haddr access => hinv.faultOk hp haddr access⟩

/-- A process with a page, and its fork. -/
def pageFork : List Op :=
  [.new 0, .mapAllocatePage 0 0x1000 (PteFlags.RW ||| PteFlags.U), .fork 0 1]

theorem faults_decode_pageFork : ∃ σ, Laid UserPage bootMachine σ ∧
    SortedPartition (σ.proc 1).mm.regions ∧ FaultOk σ 1 0x1234 PteFlags.W := by
  have hrun : ((runOps (fun _ op => Lays UserPage op) pageFork (bootMachine, fun _ _ => 0)).map
      fun s => decide (1 ∈ s.1.live)) = some true := by decide +kernel
  obtain ⟨s, hs, hlive⟩ := Option.map_eq_some_iff.mp hrun
  have hlaid : Laid UserPage bootMachine s.1 :=
    Laid.of_reach (Reach.of_runOps pageFork (Reach.start booted_bootMachine) hs)
  have h := faults_decode_regions hlaid (of_decide_eq_true hlive)
  exact ⟨s.1, hlaid, h.1, h.2 0x1234 (by norm_num) PteFlags.W⟩

/-- **After the fork of a page that is only writable** a write to it is not served: the entry
without `W` points to a table, and mapping over it panics. -/
theorem writeOnlyFork_fault : ∃ σ, Laid (fun _ => True) bootMachine σ ∧ 0 ∈ σ.live ∧
    (⟨0, 4096, PteFlags.W ||| PteFlags.U⟩ : VmRegion) ∈ (σ.proc 0).mm.regions ∧
    MemoryManager.handlePageFault 0 PteFlags.W (σ.space 0) =
      .panic (.explicit "trying to replace a page table with a leaf mapping") ∧
    ¬FaultOk σ 0 0 PteFlags.W := by
  have hrun : ((runOps (fun _ op => Lays (fun _ => True) op) writeOnlyFork
      (bootMachine, fun _ _ => 0)).map fun s => (decide (0 ∈ s.1.live), (s.1.proc 0).mm.regions,
        (MemoryManager.handlePageFault 0 PteFlags.W (s.1.space 0)).toPanic)) =
      some (true, [⟨0, 4096, PteFlags.W ||| PteFlags.U⟩],
        some (.explicit "trying to replace a page table with a leaf mapping")) := by decide +kernel
  obtain ⟨s, hs, hres⟩ := Option.map_eq_some_iff.mp hrun
  obtain ⟨hlive, hregions, hpanic⟩ : _ ∧ _ ∧ _ := by simpa only [Prod.mk.injEq] using hres
  have hpanic := Outcome.toPanic_eq_some.mp hpanic
  refine ⟨s.1, Laid.of_reach (Reach.of_runOps writeOnlyFork (Reach.start booted_bootMachine) hs),
    of_decide_eq_true hlive, ?_, hpanic, ?_⟩
  · rw [hregions]
    exact List.mem_singleton.mpr rfl
  · unfold FaultOk
    rw [hpanic]
    exact fun h => absurd h.1 (by simp [OutOfMemory])

end Efiks.Mm
