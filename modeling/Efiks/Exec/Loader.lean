import Efiks.Exec.Elf
import Efiks.Mm.Exec
import Efiks.Mm.Growing

/-!
# Loading keeps the invariant

The loader maps a page of a segment or adds flags to it, then writes contents. Each
of these is a step the machine can take, so the invariant of the machine holds
throughout. The pages the loader has recorded are the pages that are mapped.

## Main definitions

* `SegmentOk` — what the invariant needs of a loadable segment.
* `addSegment`, `segmentPages` — the flags of the pages after some segments.
* `Loading` — the state of an address space while it is loaded.

## Main results

* `wp_loadExecutable` — `load_executable` keeps the invariant.
* `wp_createUserStack` — so does `create_user_stack`.
-/
namespace Efiks.Exec
open Lib Lib.RustM Mm PageTableEntry Vfs

/-- The segment is in the lower half, and its flags make its pages readable or
executable, and legal. -/
structure SegmentOk (perm : Perm) (ph : ProgramHeader) : Prop where
  lower : ph.pVaddr + ph.pMemsz ≤ 2 ^ 38
  access : convertElfFlagToPte ph.pFlags &&& PteFlags.RX ≠ 0#8
  legal : perm.legal → LegalFlags (convertElfFlagToPte ph.pFlags)

/-- Add `flags` to the pages from `va` up to `endVa`. -/
def addRange (flags : PteFlags) (va endVa : ℕ) (pages : MappedPages) : MappedPages := fun w =>
  if w % 4096 = 0 ∧ va ≤ w ∧ w < endVa then some ((pages w).elim flags (· ||| flags)) else pages w

/-- The flags of the pages after one more segment. -/
def addSegment (pages : MappedPages) (ph : ProgramHeader) : MappedPages :=
  if ph.pType = PT_LOAD then
    addRange (convertElfFlagToPte ph.pFlags) (ph.pVaddr / 4096 * 4096)
      ((ph.pVaddr + ph.pMemsz + 4095) / 4096 * 4096) pages
  else pages

/-- The flags of the pages of some segments. -/
def segmentPages (phs : List ProgramHeader) : MappedPages := phs.foldl addSegment fun _ => none

/-- A segment that shares a page with earlier ones adds no permission to it. -/
def SharedOk (phs : List ProgramHeader) : Prop :=
  ∀ done ph rest, phs = done ++ ph :: rest → ph.pType = PT_LOAD →
    ∀ va old, va % 4096 = 0 → ph.pVaddr / 4096 * 4096 ≤ va → va < ph.pVaddr + ph.pMemsz →
      segmentPages done va = some old →
      ∀ i, 1 ≤ i → i ≤ 3 → (convertElfFlagToPte ph.pFlags).getLsbD i = true → old.getLsbD i = true

/-- The address space of `p` while it is loaded: the recorded pages are the mapped ones. -/
structure Loading (perm : Perm) (track : Bool) (boot : ℕ → Prop) (σ : Machine) (p : ℕ)
    (pages : MappedPages) (sp : Space) : Prop where
  inv : Inv perm track boot (σ.setSpace p sp)
  mapped : ∀ va, va % 4096 = 0 → va < 2 ^ 38 →
    (pages va ≠ none ↔ pteAt sp.sys sp.mm.rootFrame (vpn va) ≠ 0)
  legal : perm.legal → ∀ va flags, pages va = some flags → LegalFlags flags
  recorded : perm.recorded → ∀ va flags, pages va = some flags → ∃ x ∈ sp.mm.regions,
    x.start = va ∧ ∀ i, 1 ≤ i → i ≤ 3 → flags.getLsbD i = true → x.flags.getLsbD i = true

section Flags

theorem convertElfFlagToPte_user (f : BitVec 32) : (convertElfFlagToPte f).getLsbD 4 = true := by
  unfold convertElfFlagToPte
  split <;> split <;> split <;> decide

theorem legalFlags_or {a b : PteFlags} (ha : LegalFlags a) (hb : LegalFlags b) :
    LegalFlags (a ||| b) := by
  intro hW
  rw [BitVec.getLsbD_or, Bool.or_eq_true] at hW ⊢
  exact hW.imp (fun h => ha h) fun h => hb h

end Flags

section Pages
variable {perm : Perm} {track : Bool} {boot : ℕ → Prop} {σ : Machine} {p va : ℕ}
variable {pages : MappedPages} {sp : Space} {flags : PteFlags}

theorem Loading.mapped_iff (h : Loading perm track boot σ p pages sp) (hp : p ∈ σ.live)
    (hal : va % 4096 = 0) (hva : va < 2 ^ 38) :
    pages va ≠ none ↔ (σ.setSpace p sp).Mapped p va := by
  rw [pteAt_of_mapped h.inv hp hva, setSpace_mm]
  exact h.mapped va hal hva

/-- A page of a segment is mapped, or gets the flags of the segment. -/
theorem wp_mapSegmentPage (h : Loading perm track boot σ p pages sp) (hp : p ∈ σ.live)
    (hsolo : (σ.proc p).loading = true) (hal : va % 4096 = 0) (hva : va < 2 ^ 38)
    (hU : flags.getLsbD 4 = true) (hX : flags &&& PteFlags.RX ≠ 0#8)
    (hlegal : perm.legal → LegalFlags flags)
    (hsub : perm.recorded → ∀ old, pages va = some old →
      ∀ i, 1 ≤ i → i ≤ 3 → flags.getLsbD i = true → old.getLsbD i = true)
    {E : Error → Space → Prop} :
    wp (mapSegmentPage pages va flags)
      (fun pages' sp' => Loading perm track boot σ p pages' sp' ∧
        pages' = Function.update pages va (some ((pages va).elim flags (· ||| flags)))) E
      AllowedPanic sp := by
  have hinv := h.inv
  have hp' : p ∈ (σ.setSpace p sp).live := hp
  have hsolo' : ((σ.setSpace p sp).proc p).loading = true := by rwa [setSpace_loading]
  have hupdate : ∀ {new : PteFlags} {Q : ℕ → PteFlags → Prop}, Q va new →
      (∀ w fl, w ≠ va → pages w = some fl → Q w fl) →
      ∀ w fl, Function.update pages va (some new) w = some fl → Q w fl := by
    intro new Q hnew hold w fl hw
    by_cases hwv : w = va
    · subst hwv
      rw [Function.update_self] at hw
      exact Option.some.inj hw ▸ hnew
    · rw [Function.update_of_ne hwv] at hw
      exact hold w fl hwv hw
  unfold mapSegmentPage
  cases hpg : pages va with
  | none =>
      have hun : ¬ (σ.setSpace p sp).Mapped p va := fun hm =>
        (h.mapped_iff hp hal hva).mpr hm hpg
      have hspec := wp_mapAllocatePage_step (E := E) hinv hp' hva hal hun hU hX hlegal
      rw [space_setSpace] at hspec
      rw [wp_bind]
      refine wp_consequence hspec fun _ sp' hadd => ?_
      rw [wp_pure]
      have hstep := hadd.step
      rw [setSpace_setSpace] at hstep
      have hroot : sp'.mm.rootFrame = sp.mm.rootFrame :=
        rootFrame_congr (by rw [hadd.root_eq, setSpace_mm])
      refine ⟨⟨hstep.inv, fun w hwal hw => ?_, fun hl => hupdate (hlegal hl) fun w fl _ hfl =>
        h.legal hl w fl hfl, fun hr => hupdate ?_ fun w fl _ hfl => ?_⟩, rfl⟩
      · have hpages := hadd.pages (vpn w)
        rw [setSpace_mm] at hpages
        rw [hroot, hpages]
        by_cases hwv : w = va
        · simp [hwv]
        · rw [Function.update_of_ne hwv, h.mapped w hwal hw]
          exact ⟨Or.inr, fun hor => hor.resolve_left fun hv => hwv (vpn_inj hw hva hwal hal hv)⟩
      · exact ⟨_, (hadd.regions _).mpr (Or.inl rfl), rfl, fun i _ _ hi => hi⟩
      · obtain ⟨x, hx, hxw, hxf⟩ := h.recorded hr w fl hfl
        refine ⟨x, (hadd.regions x).mpr (Or.inr ?_), hxw, hxf⟩
        rwa [setSpace_mm]
  | some old =>
      have hm : (σ.setSpace p sp).Mapped p va := (h.mapped_iff hp hal hva).mp (by rw [hpg]; simp)
      have hlegal' : perm.legal → LegalFlags (old ||| flags) := fun hl =>
        legalFlags_or (h.legal hl va old hpg) (hlegal hl)
      have hbits : perm.recorded → ∃ x ∈ sp.mm.regions, x.start = va ∧
          ∀ i, 1 ≤ i → i ≤ 3 → (old ||| flags).getLsbD i = true → x.flags.getLsbD i = true := by
        intro hr
        obtain ⟨x, hx, hxv, hxf⟩ := h.recorded hr va old hpg
        refine ⟨x, hx, hxv, fun i h1 h3 hi => hxf i h1 h3 ?_⟩
        rw [BitVec.getLsbD_or, Bool.or_eq_true] at hi
        exact hi.elim id fun hi => hsub hr old hpg i h1 h3 hi
      -- the region of the page is the recorded one
      have hregion : perm.recorded → ∀ x ∈ ((σ.setSpace p sp).proc p).mm.regions,
          vpn x.start = vpn va → ∀ i, 1 ≤ i → i ≤ 3 → (old ||| flags).getLsbD i = true →
            x.flags.getLsbD i = true := by
        intro hr x hx hxv
        have hregions := (hinv.space p hp').regions
        rw [setSpace_mm] at hx hregions
        obtain ⟨y, hy, hyv, hyf⟩ := hbits hr
        rwa [hregions.eq_of_vpn_eq hx hy (by rw [hxv, hyv])]
      have hspec := wp_remapPage_step (E := E) (N := AllowedPanic) hinv hp' hva hsolo' hm hlegal'
        hregion
      rw [space_setSpace] at hspec
      rw [wp_bind]
      refine wp_consequence hspec fun _ sp' hkept => ?_
      rw [wp_pure]
      have hstep := hkept.step
      rw [setSpace_setSpace] at hstep
      have hmm : sp'.mm = sp.mm := by rw [hkept.mm_eq, setSpace_mm]
      refine ⟨⟨hstep.inv, fun w hwal hw => ?_, fun hl => hupdate (hlegal' hl) fun w fl _ hfl =>
        h.legal hl w fl hfl, fun hr => ?_⟩, rfl⟩
      · have hpages := hkept.pages (vpn w)
        rw [setSpace_mm] at hpages
        rw [hmm, hpages]
        by_cases hwv : w = va
        · subst hwv
          rw [Function.update_self]
          exact ⟨fun _ => (h.mapped w hwal hw).mp (by rw [hpg]; simp), fun _ => by simp⟩
        · rw [Function.update_of_ne hwv]
          exact h.mapped w hwal hw
      · rw [hmm]
        exact hupdate (hbits hr) fun w fl _ hfl => h.recorded hr w fl hfl

theorem addRange_step (hal : va % 4096 = 0) {endVa : ℕ} (hlt : va < endVa) :
    addRange flags va endVa pages = addRange flags (va + 4096) endVa
      (Function.update pages va (some ((pages va).elim flags (· ||| flags)))) := by
  funext w
  unfold addRange
  by_cases hw : w = va
  · subst hw
    rw [if_pos ⟨hal, le_rfl, hlt⟩, if_neg (by omega), Function.update_self]
  · rw [Function.update_of_ne hw]
    refine if_congr ?_ rfl rfl
    omega

/-- The pages of a segment. -/
theorem wp_mapSegment {endVa : ℕ} (fuel : ℕ) (h : Loading perm track boot σ p pages sp)
    (hp : p ∈ σ.live) (hsolo : (σ.proc p).loading = true) (hal : va % 4096 = 0)
    (hend : endVa ≤ 2 ^ 38) (hfuel : (endVa - va + 4095) / 4096 < fuel) (hU : flags.getLsbD 4 = true)
    (hX : flags &&& PteFlags.RX ≠ 0#8) (hlegal : perm.legal → LegalFlags flags)
    (hsub : perm.recorded → ∀ w old, w % 4096 = 0 → va ≤ w → w < endVa → pages w = some old →
      ∀ i, 1 ≤ i → i ≤ 3 → flags.getLsbD i = true → old.getLsbD i = true)
    {E : Error → Space → Prop} :
    wp (mapSegment flags endVa fuel pages va)
      (fun pages' sp' => Loading perm track boot σ p pages' sp' ∧
        pages' = addRange flags va endVa pages) E AllowedPanic sp := by
  induction fuel generalizing pages sp va with
  | zero => omega
  | succ fuel ih =>
      rw [mapSegment]
      split
      · rename_i hlt
        rw [wp_bind]
        refine wp_consequence (wp_mapSegmentPage h hp hsolo hal (by omega) hU hX hlegal
          fun hr old hold => hsub hr va old hal le_rfl hlt hold) fun pages' sp' hpost => ?_
        obtain ⟨hload, rfl⟩ := hpost
        have hoff : offsetBy va pageSize = some (va + 4096) := offsetBy_natCast (k := 4096) (by omega)
        rw [wp_bind, hoff, wp_okOr_some, addRange_step hal hlt]
        refine ih hload (by omega) (by omega) fun hr w old hwal hw hwlt hold => ?_
        rw [Function.update_of_ne (by omega)] at hold
        exact hsub hr w old hwal (by omega) hwlt hold
      · rename_i hge
        rw [wp_pure]
        refine ⟨h, ?_⟩
        funext w
        rw [addRange, if_neg (by omega)]

end Pages

section Contents
variable {perm : Perm} {track : Bool} {boot : ℕ → Prop} {σ : Machine} {p va : ℕ}
variable {pages : MappedPages} {sp : Space}

/-- A byte of a mapped page is written. -/
theorem Loading.writeByte (h : Loading perm track boot σ p pages sp) (hp : p ∈ σ.live)
    (hsolo : (σ.proc p).loading = true) (hva : va < 2 ^ 38)
    (hne : pteAt sp.sys sp.mm.rootFrame (vpn va) ≠ 0) (b : UInt8) :
    Loading perm track boot σ p pages
      ⟨sp.sys.writeByte (4096 * (pteAt sp.sys sp.mm.rootFrame (vpn va)).ppn + va % 4096) b, sp.mm⟩ ∧
    ∀ w, pteAt (sp.sys.writeByte (4096 * (pteAt sp.sys sp.mm.rootFrame (vpn va)).ppn + va % 4096) b)
      sp.mm.rootFrame w = pteAt sp.sys sp.mm.rootFrame w := by
  have hp' : p ∈ (σ.setSpace p sp).live := hp
  have hsolo' : ((σ.setSpace p sp).proc p).loading = true := by rwa [setSpace_loading]
  have hne' : pteAt (σ.setSpace p sp).sys ((σ.setSpace p sp).proc p).mm.rootFrame (vpn va) ≠ 0 := by
    rwa [setSpace_mm]
  have hmaps : ((σ.setSpace p sp).abs track).Maps p
      (pteAt (σ.setSpace p sp).sys ((σ.setSpace p sp).proc p).mm.rootFrame (vpn va)).ppn :=
    Inv.maps_of_pteAt hp' hne'
  have hstep := h.inv.written hp' hva hne' rfl (fun q hq => h.inv.sharing.solo_excl hsolo' hmaps hq) b
  have hpte : ∀ w, pteAt (sp.sys.writeByte
      (4096 * (pteAt sp.sys sp.mm.rootFrame (vpn va)).ppn + va % 4096) b) sp.mm.rootFrame w =
      pteAt sp.sys sp.mm.rootFrame w := by
    refine pteAt_congr fun path n hn => setFrame_of_ne _ fun hnf => ?_
    have htable := h.inv.maps_not_table hmaps hp' path
    rw [setSpace_mm] at htable
    refine htable (hn.trans (congrArg some ?_))
    rw [hnf, setSpace_sys]
    omega
  have hsys : ∀ s' : MemState, ({ σ.setSpace p sp with sys := s' } : Machine) =
      σ.setSpace p ⟨s', sp.mm⟩ := fun s' => by
    rw [← setSpace_mm_self (p := p), setSpace_setSpace, setSpace_mm]
  rw [hsys, setSpace_mm] at hstep
  refine ⟨⟨hstep.inv, fun w hwal hw => ?_, h.legal, h.recorded⟩, hpte⟩
  rw [hpte]
  exact h.mapped w hwal hw

/-- Bytes of one page are written. -/
theorem Loading.writeBytes {pageVa o : ℕ} (h : Loading perm track boot σ p pages sp) (hp : p ∈ σ.live)
    (hsolo : (σ.proc p).loading = true) (hal : pageVa % 4096 = 0) (hva : pageVa < 2 ^ 38)
    (hne : pteAt sp.sys sp.mm.rootFrame (vpn pageVa) ≠ 0) (bytes : List UInt8)
    (hlen : o + bytes.length ≤ 4096) :
    Loading perm track boot σ p pages
      ⟨writeBytes (4096 * (pteAt sp.sys sp.mm.rootFrame (vpn pageVa)).ppn + o) bytes sp.sys, sp.mm⟩ := by
  have hloop : ∀ (l : List UInt8) (n : ℕ) (s : MemState), o + n + l.length ≤ 4096 →
      Loading perm track boot σ p pages ⟨s, sp.mm⟩ →
      pteAt s sp.mm.rootFrame (vpn pageVa) = pteAt sp.sys sp.mm.rootFrame (vpn pageVa) →
      Loading perm track boot σ p pages ⟨(l.zipIdx n).foldl (fun s b =>
        s.writeByte (4096 * (pteAt sp.sys sp.mm.rootFrame (vpn pageVa)).ppn + o + b.2) b.1) s,
        sp.mm⟩ := by
    intro l
    induction l with
    | nil => exact fun n s _ hs _ => hs
    | cons b l ih =>
        intro n s hl hs hpte
        have hvpn : vpn (pageVa + (o + n)) = vpn pageVa := by
          rw [List.length_cons] at hl
          simp only [vpn, vpn2, vpn1, vpn0, Nat.shiftRight_eq_div_pow, Prod.mk.injEq, Fin.mk.injEq]
          omega
        have hoff : (pageVa + (o + n)) % 4096 = o + n := by
          rw [List.length_cons] at hl
          omega
        have hlow : pageVa + (o + n) < 2 ^ 38 := by
          rw [List.length_cons] at hl
          omega
        have hbyte := hs.writeByte hp hsolo hlow (by rw [hvpn, hpte]; exact hne) b
        rw [hvpn, hpte, hoff, ← Nat.add_assoc] at hbyte
        rw [List.zipIdx_cons, List.foldl_cons]
        refine ih (n + 1) _ (by rw [List.length_cons] at hl; omega) hbyte.1 ?_
        rw [hbyte.2, hpte]
  exact hloop bytes 0 sp.sys (by omega) h rfl

theorem alignDown_pageSize {x : ℕ} (hx : x < 2 ^ 64) :
    alignDown x pageSize = x / 4096 * 4096 :=
  maskDown_two_pow (k := 12) hx (by norm_num)

theorem length_readLoop {file : File} {offset len : ℕ} (fuel : ℕ) {buf bytes : List UInt8}
    (hbuf : buf.length ≤ len) (h : readLoop file offset len fuel buf = .ok bytes) :
    bytes.length ≤ len := by
  induction fuel generalizing buf with
  | zero =>
      cases h
      exact hbuf
  | succ fuel ih =>
      rw [readLoop] at h
      split at h
      · split at h
        · cases h
        · simp only at h
          split at h
          · cases h
          · refine ih ?_ h
            rw [List.length_append, List.length_take]
            omega
      · cases h
        exact hbuf

theorem length_readExactAt {file : File} {offset len : ℕ} {bytes : List UInt8}
    (h : readExactAt file offset len = .ok bytes) : bytes.length ≤ len := by
  unfold readExactAt at h
  split at h
  · cases h
  · exact length_readLoop len (Nat.zero_le _) h

theorem wp_liftExcept {τ α : Type} {x : Except Error α} {Q : α → τ → Prop} {E : Error → τ → Prop}
    {N : Panic → Prop} {s : τ} (hok : ∀ a, x = .ok a → Q a s) (herr : ∀ e, x = .error e → E e s) :
    wp (liftExcept x) Q E N s := by
  cases hx : x with
  | ok a =>
      rw [liftExcept, wp_pure]
      exact hok a hx
  | error e =>
      rw [liftExcept, wp_fail]
      exact herr e hx

/-- The contents of a segment. -/
theorem wp_copySegment {file : File} {ph : ProgramHeader} {copied : ℕ} (fuel : ℕ)
    (h : Loading perm track boot σ p pages sp) (hp : p ∈ σ.live)
    (hsolo : (σ.proc p).loading = true) (hlow : ph.pVaddr + ph.pFilesz ≤ 2 ^ 38)
    (hfuel : ph.pFilesz - copied < fuel) :
    wp (copySegment file ph fuel copied) (fun _ sp' => Loading perm track boot σ p pages sp')
      (fun _ sp' => Loading perm track boot σ p pages sp') (fun _ => True) sp := by
  induction fuel generalizing sp copied with
  | zero => omega
  | succ fuel ih =>
      rw [copySegment]
      split
      · rename_i hlt
        have hva : ph.pVaddr + copied < 2 ^ 38 := by omega
        have hps : pageSize = 4096 := rfl
        rw [wp_bind, if_pos (by omega : ph.pVaddr + copied < 2 ^ 64), wp_okOr_some]
        simp only [alignDown_pageSize (x := ph.pVaddr + copied) (by omega)]
        rw [wp_bind, MemoryManager.translate, wp_bind, virtualAddress,
          isCanonical_of_lower (by omega), wp_assert]
        refine ⟨fun _ => ?_, fun h => by cases h⟩
        have hroot : sp.mm.rootPt = 4096 * sp.mm.rootFrame := by
          have := (h.inv.space p hp).root
          rwa [setSpace_mm] at this
        have hshape : Shape sp.sys sp.mm.rootFrame := by
          have := (h.inv.space p hp).shape
          rwa [setSpace_mm] at this
        rw [wp_gets, hroot, translate_eq hshape (by omega)]
        by_cases h0 : pteAt sp.sys sp.mm.rootFrame (vpn ((ph.pVaddr + copied) / 4096 * 4096)) = 0
        · rw [if_pos h0, wp_bind, expect, wp_panic]
          trivial
        · rw [if_neg h0, expect_some_bind, wp_bind]
          refine wp_liftExcept (fun bytes hbytes => ?_) fun e _ => h
          have hlen := length_readExactAt hbytes
          rw [wp_bind, wp_sys, wp_modify]
          have hzero : (ph.pVaddr + copied) / 4096 * 4096 % 4096 = 0 := by omega
          rw [hzero, Nat.add_zero]
          refine ih (h.writeBytes hp hsolo hzero (by omega) h0 bytes (by omega)) (by omega)
      · rw [wp_pure]
        exact h

end Contents

section Load
variable {perm : Perm} {track : Bool} {boot : ℕ → Prop} {σ : Machine} {p : ℕ}
variable {pages : MappedPages} {sp : Space}

/-- The pages and the contents of one segment. -/
theorem wp_loadSegment {file : File} {ph : ProgramHeader} {top : ℕ}
    (h : Loading perm track boot σ p pages sp) (hp : p ∈ σ.live)
    (hsolo : (σ.proc p).loading = true) (hfile : ph.pFilesz ≤ ph.pMemsz)
    (hok : ph.pType = PT_LOAD → SegmentOk perm ph)
    (hsub : perm.recorded → ph.pType = PT_LOAD → ∀ va old, va % 4096 = 0 →
      ph.pVaddr / 4096 * 4096 ≤ va → va < ph.pVaddr + ph.pMemsz → pages va = some old →
      ∀ i, 1 ≤ i → i ≤ 3 → (convertElfFlagToPte ph.pFlags).getLsbD i = true → old.getLsbD i = true) :
    wp (loadSegment file (pages, top) ph)
      (fun acc sp' => Loading perm track boot σ p acc.1 sp' ∧ acc.1 = addSegment pages ph)
      (fun _ sp' => Inv perm track boot (σ.setSpace p sp')) (fun _ => True) sp := by
  unfold loadSegment addSegment
  by_cases htype : ph.pType = PT_LOAD
  · have hseg := hok htype
    have hlow := hseg.lower
    have hps : pageSize = 4096 := rfl
    rw [if_neg (not_not.mpr htype), if_pos htype, wp_bind]
    by_cases hsz : ph.pOffset + ph.pFilesz < 2 ^ 64
    · rw [if_pos hsz, wp_okOr_some]
      split
      · rw [wp_fail]
        exact h.inv
      · have hisize : toIsize ph.pMemsz = (ph.pMemsz : ℤ) := by
          rw [toIsize, if_pos (by omega)]
        rw [wp_bind, hisize, offsetBy_natCast (by omega), wp_okOr_some, wp_bind]
        refine wp_alignUp hlow fun alignedEnd hge hal hlt => ?_
        have hend : alignedEnd = (ph.pVaddr + ph.pMemsz + 4095) / 4096 * 4096 := by omega
        rw [wp_bind, alignDown_pageSize (x := ph.pVaddr) (by omega), hps]
        refine wp_mono (wp_mapSegment (E := fun _ sp' => Inv perm track boot (σ.setSpace p sp'))
          _ h hp hsolo (by omega) (by omega) (by omega) (convertElfFlagToPte_user _) hseg.access
          hseg.legal fun hr w old hwal hw hwlt hold => ?_) (fun pages' sp' hpost => ?_)
          (fun _ _ he => he) fun _ _ => trivial
        · exact hsub hr htype w old hwal hw (by omega) hold
        · obtain ⟨hload, rfl⟩ := hpost
          rw [wp_bind]
          refine wp_mono (wp_copySegment _ hload hp hsolo (by omega) (by omega))
            (fun _ sp'' hload' => ?_) (fun _ _ he => he.inv) fun _ hN => hN
          rw [wp_pure]
          exact ⟨hload', by rw [hend]⟩
    · rw [if_neg hsz, wp_okOr_none]
      exact h.inv
  · rw [if_pos htype, if_neg htype, wp_pure]
    exact ⟨h, rfl⟩

theorem readProgramHeader_filesz {crate : ElfCrate} {phBuf : List UInt8} {k : ℕ}
    {ph : ProgramHeader} (h : Elf.readProgramHeader crate phBuf k = .ok ph) :
    ph.pFilesz ≤ ph.pMemsz := by
  unfold Elf.readProgramHeader at h
  split at h
  · cases h
  · split at h
    · cases h
    · cases h
      omega

theorem mem_of_mapM_ok {α β ε : Type} {f : α → Except ε β} {l : List α} {l' : List β}
    (h : l.mapM f = .ok l') {b : β} (hb : b ∈ l') : ∃ a ∈ l, f a = .ok b := by
  induction l generalizing l' with
  | nil =>
      cases h
      cases hb
  | cons a l ih =>
      rw [List.mapM_cons] at h
      cases ha : f a with
      | error e =>
          rw [ha] at h
          cases h
      | ok c =>
          rw [ha] at h
          cases hl : l.mapM f with
          | error e =>
              rw [hl] at h
              cases h
          | ok cs =>
              rw [hl] at h
              cases h
              rcases List.mem_cons.mp hb with rfl | hb
              · exact ⟨a, List.mem_cons_self, ha⟩
              · obtain ⟨x, hx, hfx⟩ := ih hl hb
                exact ⟨x, List.mem_cons_of_mem _ hx, hfx⟩

theorem bind_eq_ok {ε α β : Type} {x : Except ε α} {f : α → Except ε β} {b : β}
    (h : (x >>= f) = .ok b) : ∃ a, x = .ok a ∧ f a = .ok b := by
  cases x with
  | error e => cases h
  | ok a => exact ⟨a, rfl, h⟩

/-- The loader checks that a segment's part of the file fits the segment. -/
theorem loadFromFile_filesz {crate : ElfCrate} {opened : Except VfsError File} {elf : Elf}
    (h : Elf.loadFromFile crate opened = .ok elf) {ph : ProgramHeader}
    (hph : ph ∈ elf.programHeaders) : ph.pFilesz ≤ ph.pMemsz := by
  unfold Elf.loadFromFile at h
  split at h
  · cases h
  · obtain ⟨header, -, h⟩ := bind_eq_ok h
    split at h
    · cases h
    · obtain ⟨phs, hphs, h⟩ := bind_eq_ok h
      cases h
      unfold Elf.readProgramHeaders at hphs
      split at hphs
      · cases hphs
      · split at hphs
        · cases hphs
        · split at hphs
          · cases hphs
          · obtain ⟨buf, -, hphs⟩ := bind_eq_ok hphs
            obtain ⟨k, -, hk⟩ := mem_of_mapM_ok hphs hph
            exact readProgramHeader_filesz hk

/-- Nothing is mapped in a space without regions. -/
theorem Loading.start (h : Inv perm track boot σ) (hp : p ∈ σ.live)
    (hempty : (σ.proc p).mm.regions = []) :
    Loading perm track boot σ p (fun _ => none) (σ.space p) where
  inv := by rwa [setSpace_space]
  mapped va _ _ := by
    refine ⟨fun hne => absurd rfl hne, fun hne => ?_⟩
    obtain ⟨x, hx, -⟩ := (h.space p hp).covered _ hne
    rw [hempty] at hx
    cases hx
  legal _ _ _ h := nomatch h
  recorded _ _ _ h := nomatch h

/-- **Loading keeps the invariant.** The program may be refused half way: the pages
mapped by then stay. -/
theorem wp_loadExecutable {crate : ElfCrate} {opened : Except VfsError File}
    (h : Inv perm track boot σ) (hp : p ∈ σ.live) (hsolo : (σ.proc p).loading = true)
    (hempty : (σ.proc p).mm.regions = [])
    (hok : ∀ elf, Elf.loadFromFile crate opened = .ok elf →
      ∀ ph ∈ elf.programHeaders, ph.pType = PT_LOAD → SegmentOk perm ph)
    (hshared : perm.recorded → ∀ elf, Elf.loadFromFile crate opened = .ok elf →
      SharedOk elf.programHeaders) :
    wp (loadExecutable crate opened) (fun _ sp => Inv perm track boot (σ.setSpace p sp))
      (fun _ sp => Inv perm track boot (σ.setSpace p sp)) (fun _ => True) (σ.space p) := by
  rw [loadExecutable, wp_bind]
  refine wp_liftExcept (fun elf helf => ?_) fun e _ => by rwa [setSpace_space]
  rw [wp_bind]
  refine wp_consequence (wp_foldM_index (fun k acc sp =>
    Loading perm track boot σ p acc.1 sp ∧ acc.1 = segmentPages (elf.programHeaders.take k))
    elf.programHeaders (fun k hk acc sp hI => ?_) _ _
    ⟨Loading.start h hp hempty, rfl⟩) fun acc sp hpost => ?_
  · obtain ⟨pages, top⟩ := acc
    obtain ⟨hload, rfl⟩ := hI
    have hmem := List.getElem_mem hk
    have hsplit : elf.programHeaders = elf.programHeaders.take k ++
        elf.programHeaders[k] :: elf.programHeaders.drop (k + 1) := by
      rw [← List.drop_eq_getElem_cons hk, List.take_append_drop]
    refine wp_consequence (wp_loadSegment hload hp hsolo (loadFromFile_filesz helf hmem)
      (hok elf helf _ hmem) fun hr htype => hshared hr elf helf _ _ _ hsplit htype)
      fun acc' sp' hpost => ⟨hpost.1, ?_⟩
    rw [hpost.2, segmentPages, segmentPages, ← List.take_concat_get' _ _ hk, List.foldl_append]
    rfl
  · rw [wp_bind, MemoryManager.setInitialBrk, wp_modify, wp_pure]
    have hinv := (hpost.1.inv.setInitialBrk hp acc.2).inv
    rwa [setSpace_setSpace, setSpace_mm] at hinv

/-- A page that is recorded cannot be mapped again. -/
theorem wp_mapAllocatePage_recorded {va : ℕ} {flags : PteFlags} {Q : ℕ → Space → Prop}
    (hrec : ∃ x ∈ sp.mm.regions, x.start = va) (hva : va < 2 ^ 38)
    (hsort : sp.mm.regions.Pairwise fun x y => x.start < y.start) {E : Error → Space → Prop} :
    wp (MemoryManager.mapAllocatePage va flags) Q E (fun _ => True) sp := by
  -- the frame and the tables are allocated first, and the panic comes at the end
  have halloc : Keeps (fun _ => True) False allocFrameUnwrap := growing_true.allocFrameUnwrap
  have hmap : ∀ r pa, Keeps (fun _ => True) False (PageTable.mapVm r va pa flags) :=
    fun r pa => growing_true.mapVm r va pa flags
  rw [MemoryManager.mapAllocatePage, wp_bind, wp_sys]
  refine wp_mono (halloc _ trivial) (fun pa s₁ _ => ?_) (fun _ _ h => h.1.elim) fun _ h => h
  rw [wp_bind, wp_sys, zeroFrame, wp_modify, wp_bind, virtualAddress, wp_assert]
  refine ⟨fun _ => ?_, fun _ => trivial⟩
  rw [wp_bind, wp_gets, wp_bind, wp_sys]
  refine wp_mono (hmap _ _ _ trivial) (fun _ s₂ _ => ?_) (fun _ _ h => h.1.elim) fun _ h => h
  have hoff : offsetBy va pageSize = some (va + 4096) := offsetBy_natCast (k := 4096) (by omega)
  rw [wp_bind, hoff, wp_okOr_some, wp_bind, MemoryManager.insertMapping, wp_bind, wp_gets]
  obtain ⟨x, hx, hxa⟩ := hrec
  cases hb : binarySearch sp.mm.regions va with
  | ok i =>
      rw [wp_panic]
      trivial
  | error i =>
      obtain ⟨l₁, l₂, hl, -, h₁, h₂⟩ := binarySearch_error hsort hb
      rw [hl, List.mem_append] at hx
      rcases hx with hx | hx
      · have := h₁ x hx
        omega
      · have := h₂ x hx
        omega

theorem offsetBy_stackTop : offsetBy (0x3fff_0000 + 4096 * 8) ((pageSize : ℤ) - 0x60) =
    some 0x3fff_8fa0 := by
  decide

/-- The eight pages of the user stack. -/
theorem wp_createUserStack (h : Inv perm track boot σ) (hp : p ∈ σ.live) :
    wp MemoryManager.createUserStack (fun _ sp => Inv perm track boot (σ.setSpace p sp))
      (fun _ sp => Inv perm track boot (σ.setSpace p sp)) (fun _ => True) (σ.space p) := by
  have hps : pageSize = 4096 := rfl
  rw [MemoryManager.createUserStack, wp_bind]
  refine wp_consequence (wp_foldM_range (fun k va sp => va = 0x3fff_0000 + 4096 * k ∧
    Inv perm track boot (σ.setSpace p sp)) (fun k hk va sp hI => ?_) _ _
    ⟨rfl, by rwa [setSpace_space]⟩) fun va sp hpost => ?_
  · obtain ⟨rfl, hinv⟩ := hI
    have hoff : offsetBy (0x3fff_0000 + 4096 * k) pageSize =
        some (0x3fff_0000 + 4096 * k + 4096) := offsetBy_natCast (k := 4096) (by omega)
    have hsp := hinv.space p hp
    rw [wp_bind, hoff, wp_okOr_some, wp_bind]
    by_cases hm : (σ.setSpace p sp).Mapped p (0x3fff_0000 + 4096 * k + 4096)
    · obtain ⟨x, hx, hxv⟩ := hsp.covered _ ((pteAt_of_mapped hinv hp (by omega)).mp hm)
      have hpage := hsp.regions.page x hx
      rw [setSpace_mm] at hx hsp
      refine wp_mapAllocatePage_recorded ⟨x, hx, ?_⟩ (by omega) hsp.regions.sorted
      exact vpn_inj hpage.lower (by omega) hpage.aligned (by omega) hxv
    · have hU : (PteFlags.RW ||| PteFlags.U).getLsbD 4 = true := by decide
      have hspec := wp_mapAllocatePage_step (E := fun _ sp => Inv perm track boot (σ.setSpace p sp))
        hinv hp (by omega) (by omega) hm hU (by decide) fun _ _ => by decide
      rw [space_setSpace] at hspec
      refine wp_mono hspec (fun _ sp' hs => ?_) (fun _ _ hE => hE) fun _ _ => trivial
      rw [wp_pure]
      have hstep := hs.step.inv
      rw [setSpace_setSpace] at hstep
      exact ⟨by omega, hstep⟩
  · obtain ⟨rfl, hinv⟩ := hpost
    rw [offsetBy_stackTop, wp_okOr_some]
    exact hinv

end Load
end Efiks.Exec
