import Efiks.Exec.Loader
import Efiks.Mm.Accounting

/-!
# Address spaces that are built by loading programs

The calls by which an address space comes about and changes: it is created, a program
is loaded into it, it gets its stacks, the break moves, pages fault, are copied on
write and forked. The flags of its pages come from the program headers of a file
nobody has checked, so what holds along such runs depends on these headers.

A segment without any of R, W and X turns a page into an entry that reads as a pointer
to a table. A segment that adds a permission to a page of an earlier segment changes
the entry of the page but not its region, and the next fork takes the permission away.

## Main definitions

* `Call`, `Calls` — the calls, and the states they reach.
* `CallOk` — what the headers must satisfy.
* `LegalTables`, `FollowsTables` — page tables of the shape Sv39 asks for.
* `AccessKept` — an access succeeds, maybe after a page fault.

## Main results

* `tables_legal` — the shape of the tables along runs with legal segments.
* `fork_keeps_permissions` — no permission is lost when no segment adds one to a page.
-/
namespace Efiks.Exec
open Lib Lib.RustM Mm PageTableEntry Vfs

/-- What changes an address space. -/
inductive Call
  | op (o : Op)
  | loadExecutable (p : ℕ) (crate : ElfCrate) (opened : Except VfsError File)
  | createUserStack (p : ℕ)

/-- Pages are mapped and filled by the loader only, and nothing is freed. -/
def Building : Op → Prop
  | .mapAllocatePage .. | .remapPage .. | .copyIn .. | .setInitialBrk .. | .free .. => False
  | .new .. | .createKernelStack .. | .fork .. | .load .. | .store .. | .brk ..
  | .handlePageFault .. | .copyOnWrite .. => True

/-- What the callers promise: a program is loaded into a new address space. -/
def CallEnabled (σ : Machine) : Call → Prop
  | .op o => Building o ∧ σ.Enabled o
  | .loadExecutable p _ _ =>
      p ∈ σ.live ∧ (σ.proc p).loading = true ∧ (σ.proc p).mm.regions = []
  | .createUserStack p => p ∈ σ.live

def call : Call → MachineM Event
  | .op o => Machine.exec o
  | .loadExecutable p crate opened => do
      let _ ← Machine.onSpace p (loadExecutable crate opened)
      pure .done
  | .createUserStack p => do
      let _ ← Machine.onSpace p MemoryManager.createUserStack
      pure .done

/-- The state after a call; an error is reported and the machine goes on. -/
def callStep (c : Call) (σ : Machine) : Option Machine :=
  match call c σ with
  | .ok _ σ' => some σ'
  | .err _ σ' => some σ'
  | .panic _ => none

/-- The states reached from `σ₀` by calls that meet `ok`. -/
inductive Calls (ok : Machine → Call → Prop) (σ₀ : Machine) : Machine → Prop
  | start : Booted σ₀ → Calls ok σ₀ σ₀
  | step {σ σ' : Machine} {c : Call} : Calls ok σ₀ σ → CallEnabled σ c → ok σ c →
      callStep c σ = some σ' → Calls ok σ₀ σ'

/-- What the file that is loaded must satisfy. A page is copied on write only when its
region is writable, as the page-fault handler checks. -/
def CallOk (perm : Perm) (σ : Machine) : Call → Prop
  | .loadExecutable _ crate opened => ∀ elf, Elf.loadFromFile crate opened = .ok elf →
      (∀ ph ∈ elf.programHeaders, ph.pType = PT_LOAD → SegmentOk perm ph) ∧
        (perm.recorded → SharedOk elf.programHeaders)
  | .op (.copyOnWrite p va) =>
      ∀ x ∈ (σ.proc p).mm.regions, vpn x.start = vpn va → x.flags.getLsbD 2 = true
  | _ => True

section Invariant
variable {perm : Perm} {σ₀ σ σ' : Machine} {c : Call}

theorem opOk_of_building {o : Op} (hb : Building o) (hok : CallOk perm σ (.op o)) :
    OpOk perm false σ o := by
  cases o <;> first | exact hb.elim | trivial | exact fun _ => hok | exact fun h => (nomatch h)

/-- Every call keeps the invariant. -/
theorem wp_call {boot : ℕ → Prop} (h : Inv perm false boot σ) (hen : CallEnabled σ c)
    (hok : CallOk perm σ c) :
    wp (call c) (fun _ σ' => ∃ boot, Inv perm false boot σ')
      (fun _ σ' => ∃ boot, Inv perm false boot σ') (fun _ => True) σ := by
  cases c with
  | op o =>
      refine wp_mono (exec_ok h hen.2 (opOk_of_building hen.1 hok)) (fun ev σ' hs => ?_)
        (fun e σ' hs => ?_) fun _ _ => trivial
      · obtain ⟨boot', -, -, hstep⟩ := hs
        exact ⟨boot', hstep.inv⟩
      · obtain ⟨boot', -, -, hstep⟩ := hs
        exact ⟨boot', hstep.inv⟩
  | loadExecutable p crate opened =>
      rw [call, wp_bind, wp_onSpace]
      refine wp_mono (wp_loadExecutable h hen.1 hen.2.1 hen.2.2 (fun elf helf => (hok elf helf).1)
        fun hr elf helf => (hok elf helf).2 hr) (fun _ sp hs => ?_) (fun _ sp hs => ⟨boot, hs⟩)
        fun _ hN => hN
      rw [wp_pure]
      exact ⟨boot, hs⟩
  | createUserStack p =>
      rw [call, wp_bind, wp_onSpace]
      refine wp_mono (wp_createUserStack h hen) (fun _ sp hs => ?_) (fun _ sp hs => ⟨boot, hs⟩)
        fun _ hN => hN
      rw [wp_pure]
      exact ⟨boot, hs⟩

/-- The invariant along every run. -/
theorem Calls.inv (h : Calls (CallOk perm) σ₀ σ) : ∃ boot, Inv perm false boot σ := by
  induction h with
  | start hboot => exact ⟨_, hboot.inv⟩
  | @step σ σ' c _ hen hok hstep ih =>
      obtain ⟨boot, hinv⟩ := ih
      have hspec := wp_call hinv hen hok
      unfold callStep at hstep
      cases hrun : call c σ with
      | ok ev τ =>
          rw [hrun] at hstep
          obtain rfl := Option.some.inj hstep
          exact wp_of_ok hspec hrun
      | err e τ =>
          rw [hrun] at hstep
          obtain rfl := Option.some.inj hstep
          exact wp_of_err hspec hrun
      | panic P =>
          rw [hrun] at hstep
          cases hstep

end Invariant

section Compute

instance : (o : Op) → Decidable (Building o)
  | .mapAllocatePage .. | .remapPage .. | .copyIn .. | .setInitialBrk .. | .free .. =>
      isFalse fun h => h
  | .new .. | .createKernelStack .. | .fork .. | .load .. | .store .. | .brk ..
  | .handlePageFault .. | .copyOnWrite .. => isTrue trivial

instance (σ : Machine) : (c : Call) → Decidable (CallEnabled σ c)
  | .op o => inferInstanceAs (Decidable (Building o ∧ σ.Enabled o))
  | .loadExecutable p _ _ => inferInstanceAs (Decidable (p ∈ σ.live ∧
      (σ.proc p).loading = true ∧ (σ.proc p).mm.regions = []))
  | .createUserStack p => inferInstanceAs (Decidable (p ∈ σ.live))

/-- `callStep`, with a new address space written down instead of mapped entry by entry. -/
def callFast (c : Call) (σ : Machine) : Option Machine :=
  match c with
  | .op o => (σ.stepFast o).map Prod.snd
  | c => callStep c σ

theorem callStep_op (o : Op) (σ : Machine) : callStep (.op o) σ = (σ.step o).map Prod.snd := by
  rw [callStep, call, Machine.step]
  cases Machine.exec o σ <;> rfl

theorem callStep_of_callFast {c : Call} {σ σ' : Machine} (h : callFast c σ = some σ') :
    callStep c σ = some σ' := by
  cases c with
  | op o =>
      obtain ⟨r, hr, rfl⟩ := Option.map_eq_some_iff.mp h
      rw [callStep_op, Machine.step_of_stepFast hr]
      rfl
  | loadExecutable p crate opened => exact h
  | createUserStack p => exact h

/-- Run some calls. -/
def runCalls : List Call → Machine → Option Machine
  | [], σ => some σ
  | c :: cs, σ => if CallEnabled σ c then (callFast c σ).bind (runCalls cs) else none

theorem Calls.of_runCalls {ok : Machine → Call → Prop} {σ₀ : Machine} (cs : List Call)
    (hok : ∀ c ∈ cs, ∀ σ, ok σ c) {σ σ' : Machine} (h : Calls ok σ₀ σ)
    (hrun : runCalls cs σ = some σ') : Calls ok σ₀ σ' := by
  induction cs generalizing σ with
  | nil =>
      obtain rfl := Option.some.inj hrun
      exact h
  | cons c cs ih =>
      rw [runCalls] at hrun
      split at hrun
      · rename_i hen
        obtain ⟨σ₁, h₁, hrun⟩ := Option.bind_eq_some_iff.mp hrun
        exact ih (fun c' hc' => hok c' (List.mem_cons_of_mem _ hc'))
          (h.step hen (hok c List.mem_cons_self σ) (callStep_of_callFast h₁)) hrun
      · cases hrun

/-- Parsers that find the headers `phs` in every file. -/
def crateOf (phs : List ProgramHeader) : ElfCrate where
  parseIdent _ := true
  parseTail _ _ := some ⟨ET_EXEC, 0x1000, 64, 1, phs.length⟩
  parseAt k _ := phs[k]?

/-- A file of one page. -/
def zeroFile : File := ⟨4096, fun _ len => .ok (List.replicate len 0)⟩

/-- A loadable segment of one byte at the page `va`. -/
def segment (va : ℕ) (flags : BitVec 32) : ProgramHeader := ⟨PT_LOAD, 0, va, 1, 1, flags⟩

/-- A new process that loads the segments `phs`. -/
def loaded (phs : List ProgramHeader) : List Call :=
  [.op (.new 0), .loadExecutable 0 (crateOf phs) (.ok zeroFile)]

end Compute

section Shape

/-- **Legal Sv39 tables.** -/
structure LegalTables (σ : Machine) : Prop where
  /-- A tree of three levels in which no table occurs twice. -/
  tree : ∀ p ∈ σ.live, IsTree child σ.sys.mem (σ.proc p).mm.rootFrame 2
  /-- No table is in two address spaces. -/
  apart : ∀ p ∈ σ.live, ∀ q ∈ σ.live, ∀ path path' n,
    tableAt σ.sys (σ.proc p).mm.rootFrame path = some n →
    tableAt σ.sys (σ.proc q).mm.rootFrame path' = some n → p = q ∧ path = path'
  /-- A valid entry of the lowest level is a leaf. -/
  leaf : ∀ p ∈ σ.live, ∀ a b n i, tableAt σ.sys (σ.proc p).mm.rootFrame [a, b] = some n →
    (σ.sys.mem n i).isValid = true → (σ.sys.mem n i).isLeaf = true
  /-- A leaf with `W` has `R`. -/
  readable : ∀ p ∈ σ.live, ∀ path n i, tableAt σ.sys (σ.proc p).mm.rootFrame path = some n →
    (σ.sys.mem n i).isLeaf = true → LegalEntry (σ.sys.mem n i)
  /-- The frame of a page is no table. -/
  data : ∀ p ∈ σ.live, ∀ q ∈ σ.live, ∀ a b n i path,
    tableAt σ.sys (σ.proc p).mm.rootFrame [a, b] = some n → (σ.sys.mem n i).isLeaf = true →
    tableAt σ.sys (σ.proc q).mm.rootFrame path ≠ some (σ.sys.mem n i).ppn

/-- **Only real tables are followed**: they are allocated, `translate` ends in one of
them, `fork` copies them and no others, and `traverse_free` frees them and no others. -/
structure FollowsTables (σ : Machine) : Prop where
  used : ∀ p ∈ σ.live, ∀ path n, tableAt σ.sys (σ.proc p).mm.rootFrame path = some n →
    σ.sys.used n
  translate : ∀ p ∈ σ.live, ∀ va table i size,
    PageTable.translateToPtePtr σ.sys.mem (σ.proc p).mm.rootPt va = some (table, i, size) →
    ∃ path, tableAt σ.sys (σ.proc p).mm.rootFrame path = some table
  fork : ∀ p ∈ σ.live, wp (PageTable.fork tableFuel (σ.proc p).mm.rootPt)
    (fun pa t => ∃ r', pa = 4096 * r' ∧ ForkPost σ.sys t 2 (σ.proc p).mm.rootFrame r')
    (fun _ _ => False) OutOfMemory σ.sys
  traverseFree : ∀ p ∈ σ.live, wp (PageTable.traverseFree tableFuel (σ.proc p).mm.rootPt)
    (fun _ t => FreedAll σ.sys
      (fun n => ∃ path, tableAt σ.sys (σ.proc p).mm.rootFrame path = some n) t)
    (fun _ _ => False) (fun _ => False) σ.sys

variable {perm : Perm} {track : Bool} {boot : ℕ → Prop} {σ₀ σ : Machine} {s : MemState} {r n : ℕ}

theorem legalEntry_kernelEntry (i : Fin 512) : LegalEntry (kernelEntry i) := by
  unfold kernelEntry
  split
  · intro _
    rw [getLsbD_leafEntry _ _ (by decide)]
    decide
  · split
    · intro _
      rw [getLsbD_leafEntry _ _ (by decide)]
      decide
    · intro h
      cases h

/-- The entries of the lowest level are those of the pages. -/
theorem pteAt_eq_mem {a b i : Fin 512} (h : tableAt s r [a, b] = some n) :
    pteAt s r (a, b, i) = s.mem n i := by
  simp only [pteAt, h]

/-- A leaf is in the kernel half of the root or at the lowest level. -/
theorem Shape.leaf_cases (hs : Mm.Shape s r) {path : List (Fin 512)} {i : Fin 512}
    (hn : tableAt s r path = some n) (hl : (s.mem n i).isLeaf = true) :
    s.mem n i = kernelEntry i ∨ ∃ v, s.mem n i = pteAt s r v := by
  have hptr : ∀ {e : PageTableEntry}, IsPointer e → e.isLeaf = true → False := by
    rintro e (rfl | ⟨m, hm⟩) he
    · cases he
    · rw [(child_eq_some hm).2.1] at he
      cases he
  match path, hn with
  | [], hn =>
      obtain rfl := Option.some.inj hn
      by_cases hi : i.val < 256
      · exact (hptr (hs.user i hi) hl).elim
      · exact Or.inl (hs.kernel i (by omega))
  | [a], hn => exact (hptr (hs.middle a n i hn) hl).elim
  | [a, b], hn => exact Or.inr ⟨(a, b, i), (pteAt_eq_mem hn).symm⟩
  | _ :: _ :: _ :: _, hn =>
      have := hs.tree.depth _ _ hn
      simp only [List.length_cons] at this
      omega

theorem Inv.legalTables (h : Inv perm track boot σ) (hlegal : perm.legal) : LegalTables σ where
  tree p hp := (h.space p hp).shape.tree
  apart p hp q hq path path' n hn hn' := h.table_inj hp hq hn hn'
  leaf p hp a b n i hn hv := by
    rcases (h.space p hp).shape.bottom a b n i hn with h0 | hl
    · rw [h0] at hv
      cases hv
    · exact hl.1
  readable p hp path n i hn hl := by
    rcases Shape.leaf_cases (h.space p hp).shape hn hl with hk | ⟨v, hv⟩
    · rw [hk]
      exact legalEntry_kernelEntry i
    · rw [hv]
      exact ((h.space p hp).permissions hlegal).entry v
  data p hp q hq a b n i path hn hl := by
    have hne : pteAt σ.sys (σ.proc p).mm.rootFrame (a, b, i) ≠ 0 := by
      rw [pteAt_eq_mem hn]
      intro h0
      rw [h0] at hl
      cases hl
    have hmaps : (σ.abs track).Maps p _ := Inv.maps_of_pteAt hp hne
    rw [pteAt_eq_mem hn] at hmaps
    exact h.maps_not_table hmaps hq path

/-- A walk ends in a table of the tree. -/
theorem tableAt_of_walk {mem : ℕ → Frame} {i : Fin 512} {size : PageSize} {table : ℕ}
    (l : List (Fin 512 × PageSize)) {r : ℕ} (h : PageTable.walk mem l r = some (table, i, size)) :
    ∃ path, nodeAt child mem r path = some table := by
  induction l generalizing r with
  | nil => cases h
  | cons x l ih =>
      obtain ⟨j, size'⟩ := x
      rw [PageTable.walk] at h
      cases hv : (mem r j).isValid with
      | false =>
          simp only [hv, Bool.not_false, if_true] at h
          cases h
      | true =>
          cases hl : (mem r j).isLeaf with
          | true =>
              simp only [hv, hl, Bool.not_true, Bool.false_eq_true, if_false, if_true] at h
              obtain rfl := congrArg Prod.fst (Option.some.inj h)
              exact ⟨[], rfl⟩
          | false =>
              simp only [hv, hl, Bool.not_true, Bool.false_eq_true, if_false] at h
              rw [physicalAddress_eq, mul_pageSize_div] at h
              obtain ⟨path, hpath⟩ := ih h
              refine ⟨j :: path, ?_⟩
              rw [nodeAt_cons, child, hv, hl]
              exact hpath

theorem Inv.followsTables (h : Inv perm track boot σ) : FollowsTables σ where
  used p hp path n hn := h.table_used hp hn
  translate p hp va table i size htr := tableAt_of_walk _ htr
  fork p hp := by
    have hs := (h.space p hp).shape
    rw [(h.space p hp).root]
    refine wp_fork (fun _ hN => hN) 2 tableFuel σ.sys _ (by decide) h.placed hs.tree hs.used
      fun path n i hn hc => ?_
    rw [hs.child_sharedEntry path n i hn, hc]
  traverseFree p hp := by
    have hs := (h.space p hp).shape
    rw [(h.space p hp).root]
    exact wp_traverseFree 2 tableFuel σ.sys _ (by decide) h.placed hs.tree hs.used

/-- **Page tables keep a legal Sv39 shape** along runs that load legal segments only. -/
theorem tables_legal (h : Calls (CallOk ⟨True, False⟩) σ₀ σ) : LegalTables σ ∧ FollowsTables σ := by
  obtain ⟨boot, hinv⟩ := h.inv
  exact ⟨Inv.legalTables hinv trivial, Inv.followsTables hinv⟩

/-- A process with a data and a code segment and its stacks forks, and the child writes. -/
def forkedLoad : List Call := loaded [segment 0x1000 6, segment 0x2000 5] ++
  [.createUserStack 0, .op (.createKernelStack 0), .op (.fork 0 1), .op (.store 1 0x1000 9)]

theorem callOk_forkedLoad (σ : Machine) : ∀ c ∈ forkedLoad, CallOk ⟨True, False⟩ σ c := by
  have hload : CallOk ⟨True, False⟩ σ
      (.loadExecutable 0 (crateOf [segment 0x1000 6, segment 0x2000 5]) (.ok zeroFile)) := by
    intro elf helf
    have hphs : elf.programHeaders = [segment 0x1000 6, segment 0x2000 5] := by
      cases helf
      rfl
    refine ⟨fun ph hph _ => ?_, fun h => h.elim⟩
    simp only [hphs, List.mem_cons, List.not_mem_nil, or_false] at hph
    rcases hph with rfl | rfl
    · exact ⟨by decide, by decide, fun _ _ => by decide⟩
    · exact ⟨by decide, by decide, fun _ _ => by decide⟩
  intro c hc
  simp only [forkedLoad, loaded, List.mem_append, List.mem_cons, List.not_mem_nil, or_false] at hc
  rcases hc with (rfl | rfl) | rfl | rfl | rfl | rfl
  · trivial
  · exact hload
  · trivial
  · trivial
  · trivial
  · trivial

theorem tables_legal_forkedLoad : ∃ σ, runCalls forkedLoad bootMachine = some σ ∧
    LegalTables σ ∧ FollowsTables σ := by
  obtain ⟨σ, hσ⟩ := Option.isSome_iff_exists.mp
    (by decide +kernel : (runCalls forkedLoad bootMachine).isSome = true)
  exact ⟨σ, hσ, tables_legal (Calls.of_runCalls forkedLoad
    (fun c hc τ => callOk_forkedLoad τ c hc) (Calls.start booted_bootMachine) hσ)⟩

/-- A segment of zeroes that may be neither read, written nor executed. -/
def flagless : ProgramHeader := ⟨PT_LOAD, 0, 0x1000, 0, 1, 0⟩

/-- **A segment without permissions** is mapped by a valid entry of the lowest level that
is not a leaf. -/
theorem flagless_not_leaf : ∃ σ, Calls (fun _ _ => True) bootMachine σ ∧ ¬ LegalTables σ := by
  have hrun : ((runCalls (loaded [flagless]) bootMachine).map fun σ =>
      (decide (0 ∈ σ.live), tableAt σ.sys (σ.proc 0).mm.rootFrame [0, 0],
        (σ.sys.mem 4 1).isValid, (σ.sys.mem 4 1).isLeaf)) = some (true, some 4, true, false) := by
    decide +kernel
  obtain ⟨σ, hσ, hres⟩ := Option.map_eq_some_iff.mp hrun
  obtain ⟨hlive, htable, hvalid, hleaf⟩ : _ ∧ _ ∧ _ ∧ _ := by
    simpa only [Prod.mk.injEq] using hres
  refine ⟨σ, Calls.of_runCalls _ (fun _ _ _ => trivial) (Calls.start booted_bootMachine) hσ,
    fun h => ?_⟩
  rw [h.leaf 0 (of_decide_eq_true hlive) 0 0 4 1 htable hvalid] at hleaf
  cases hleaf

end Shape

section Permissions

/-- The access of `p` to `va` succeeds at once, or after the page fault it raises, which
is handled without an error. -/
def AccessKept (σ : Machine) (p va : ℕ) (access : PteFlags) : Prop :=
  (σ.userAccess p va access).isSome = true ∨
    wp (MemoryManager.handlePageFault va access)
      (fun _ sp => ((σ.setSpace p sp).userAccess p va access).isSome = true) (fun _ _ => False)
      OutOfMemory (σ.space p)

variable {perm : Perm} {track : Bool} {boot : ℕ → Prop} {σ₀ σ σ' : Machine} {p q va : ℕ}
variable {access : PteFlags}

/-- A write to a mapped page whose region is writable succeeds after the page is copied. -/
theorem Inv.write_kept (h : Inv perm track boot σ) (hp : p ∈ σ.live) (hva : va < 2 ^ 38)
    (hne : pteAt σ.sys (σ.proc p).mm.rootFrame (vpn va) ≠ 0)
    (hrec : ∀ x ∈ (σ.proc p).mm.regions, vpn x.start = vpn va → x.flags.getLsbD 2 = true) :
    AccessKept σ p va PteFlags.W := by
  have hsp := h.space p hp
  obtain ⟨x, hx, hxv⟩ := hsp.covered _ hne
  have hpage := hsp.regions.page x hx
  have hpv : vpn (va / 4096 * 4096) = vpn va := by
    simp only [vpn, vpn2, vpn1, vpn0, Nat.shiftRight_eq_div_pow, Prod.mk.injEq, Fin.mk.injEq]
    omega
  have hstart : x.start = va / 4096 * 4096 :=
    vpn_inj hpage.lower (by omega) hpage.aligned (by omega) (hxv.trans hpv.symm)
  have hW : x.flags.contains PteFlags.W = true := (contains_W _).trans (hrec x hx hxv)
  have honly : ∀ y ∈ (σ.proc p).mm.regions, y.start = va / 4096 * 4096 → y = x := fun y hy hya =>
    eq_of_start_eq hsp.regions.sorted hy hx (hya.trans hstart.symm)
  have hm : (σ.abs track).Maps p (pteAt σ.sys (σ.proc p).mm.rootFrame (vpn va)).ppn :=
    Inv.maps_of_pteAt hp hne
  obtain ⟨c, hc, hc0, -⟩ := h.exists_meta hm
  right
  refine wp_handlePageFault h.placed hsp.shape hsp.root hsp.regions (by omega) (fun _ _ hN => hN)
    (fun hno => hno ⟨x, hx, hstart, hW, Or.inl (by decide)⟩) (fun y hy hya _ _ _ => ?_)
    fun y hy hya _ f s' hmap => ?_
  · rw [honly y hy hya]
    have hcow := wp_copyOnWrite (E := fun _ _ => False) (N := OutOfMemory) (Q := fun _ s' =>
      ((σ.setSpace p ⟨s', (σ.proc p).mm⟩).userAccess p va PteFlags.W).isSome = true)
      h.placed hsp.shape hpage.lower (hxv ▸ hne) rfl (by rw [hxv]; exact h.sharing.used_of_maps hm)
      (by rw [hxv]; exact h.maps_not_table hm hp) (by rw [hxv]; exact hc) hc0 (fun _ hN => hN)
      fun g s' hcop => ?_
    · exact hcow
    · have hpte : pteAt s' (σ.proc p).mm.rootFrame (vpn va) ≠ 0 ∧
          (pteAt s' (σ.proc p).mm.rootFrame (vpn va)).getLsbD 2 = true := by
        rw [← hxv, hcop.pte_self, ← isWritable_eq]
        refine ⟨fun h0 => ?_, isWritable_cowEntry _ _⟩
        have := isWritable_cowEntry (pteAt σ.sys (σ.proc p).mm.rootFrame (vpn x.start)) g
        rw [h0] at this
        cases this
      refine userAccess_isSome ?_ ?_ hva ?_ ?_
      · rw [setSpace_mm]
        exact hcop.shape
      · rw [setSpace_mm]
        exact hsp.root
      · rw [setSpace_mm]
        exact hpte.1
      · rw [setSpace_mm, contains_W, getLsbD_entryFlags (by decide)]
        exact hpte.2
  · -- the page is mapped
    exact absurd hmap.unmapped (by rw [honly y hy hya, hxv]; exact hne)

/-- The flags of every mapped page are recorded in its region. -/
def FlagsRecorded (σ : Machine) : Prop :=
  ∀ p ∈ σ.live, ∀ v, pteAt σ.sys (σ.proc p).mm.rootFrame v ≠ 0 →
    ∃ x ∈ (σ.proc p).mm.regions, vpn x.start = v ∧
      Recorded x.flags (pteAt σ.sys (σ.proc p).mm.rootFrame v)

theorem Inv.flagsRecorded (h : Inv perm track boot σ) (hr : perm.recorded) : FlagsRecorded σ := by
  intro p hp v hv
  obtain ⟨x, hx, rfl⟩ := (h.space p hp).covered v hv
  exact ⟨x, hx, rfl, (h.space p hp).recorded hr x hx⟩

/-- What parent and child can do after a fork. -/
theorem Inv.fork_kept {boot' : ℕ → Prop} (h : Inv perm track boot σ) (h' : Inv perm track boot' σ') (hp : p ∈ σ.live)
    (hr : perm.recorded) (hshare : SharesPages σ σ' p q) (hva : va < 2 ^ 64)
    (hacc : access = PteFlags.R ∨ access = PteFlags.W)
    (hu : (σ.userAccess p va access).isSome = true) {x : ℕ} (hx : x = p ∨ x = q) :
    AccessKept σ' x va access := by
  obtain ⟨pa, hpa⟩ := Option.isSome_iff_exists.mp hu
  obtain ⟨hlow, hne, -, hflag⟩ := userAccess_eq_some h hp hva hpa
  obtain ⟨hlive, hregions, hpte⟩ := hshare x hx
  have hleaf := (h.space p hp).shape.isUserLeaf (vpn va)
  have hne' : pteAt σ'.sys (σ'.proc x).mm.rootFrame (vpn va) ≠ 0 := by
    rw [hpte]
    exact fun h0 => hne ((sharedEntry_eq_zero_iff hleaf).mp h0)
  rcases hacc with rfl | rfl
  · left
    refine userAccess_isSome (h'.space x hlive).shape (h'.space x hlive).root hlow hne' ?_
    rw [contains_R, getLsbD_entryFlags (by decide)] at hflag ⊢
    rwa [hpte, getLsbD_sharedEntry (by decide) (by decide)]
  · rw [contains_W, getLsbD_entryFlags (by decide)] at hflag
    refine Inv.write_kept h' hlive hlow hne' fun y hy hyv => ?_
    rw [hregions] at hy
    exact (h.space p hp).recorded hr y hy 2 (by decide) (by decide) (hyv ▸ hflag)

/-- **Fork takes no permission away** when no segment adds one to a page of an earlier
segment: the regions record the flags of the pages, and a page that can be read or written
at the moment of the fork still can be, by parent and child. -/
theorem fork_keeps_permissions (h : Calls (CallOk ⟨False, True⟩) σ₀ σ) :
    FlagsRecorded σ ∧ ∀ p q σ', CallEnabled σ (.op (.fork p q)) →
      callStep (.op (.fork p q)) σ = some σ' → ∀ va < 2 ^ 64, ∀ access,
      access = PteFlags.R ∨ access = PteFlags.W → (σ.userAccess p va access).isSome = true →
      ∀ x, x = p ∨ x = q → AccessKept σ' x va access := by
  obtain ⟨boot, hinv⟩ := h.inv
  refine ⟨Inv.flagsRecorded hinv trivial, fun p q σ' hen hstep va hva access hacc hu x hx => ?_⟩
  have hspec := exec_fork_ok (E := fun _ _ => False) hinv hen.2.1 hen.2.2 fun h => (nomatch h)
  unfold callStep at hstep
  rw [call] at hstep
  cases hrun : Machine.exec (.fork p q) σ with
  | ok ev τ =>
      rw [hrun] at hstep
      obtain rfl := Option.some.inj hstep
      obtain ⟨⟨boot', -, -, hnew⟩, hshare⟩ := wp_of_ok hspec hrun
      exact Inv.fork_kept hinv hnew.inv hen.2.1 trivial hshare hva hacc hu hx
  | err e τ => exact (wp_of_err hspec hrun).elim
  | panic P =>
      rw [hrun] at hstep
      cases hstep

/-- A process with one segment, its user stack and some break. -/
def oneSegment : List Call := loaded [segment 0x1000 6] ++ [.createUserStack 0, .op (.brk 0 0x3000)]

theorem callOk_oneSegment (σ : Machine) : ∀ c ∈ oneSegment, CallOk ⟨False, True⟩ σ c := by
  have hload : CallOk ⟨False, True⟩ σ
      (.loadExecutable 0 (crateOf [segment 0x1000 6]) (.ok zeroFile)) := by
    intro elf helf
    have hphs : elf.programHeaders = [segment 0x1000 6] := by
      cases helf
      rfl
    rw [hphs]
    refine ⟨fun ph hph _ => ?_, fun _ done ph rest hsplit _ va old _ _ _ hold => ?_⟩
    · rw [List.mem_singleton.mp hph]
      exact ⟨by decide, by decide, fun h => h.elim⟩
    · cases done with
      | nil => cases hold
      | cons x done =>
          have hlen := congrArg List.length hsplit
          simp only [List.length_cons, List.length_append, List.length_nil] at hlen
          omega
  intro c hc
  simp only [oneSegment, loaded, List.mem_append, List.mem_cons, List.not_mem_nil, or_false] at hc
  rcases hc with (rfl | rfl) | rfl | rfl
  · trivial
  · exact hload
  · trivial
  · trivial

theorem fork_keeps_permissions_oneSegment : ∃ σ σ', runCalls oneSegment bootMachine = some σ ∧
    callStep (.op (.fork 0 1)) σ = some σ' ∧ AccessKept σ' 1 0x1000 PteFlags.W := by
  have hrun : ((runCalls oneSegment bootMachine).map fun σ =>
      (decide (CallEnabled σ (.op (.fork 0 1))), (callStep (.op (.fork 0 1)) σ).isSome,
        (σ.userAccess 0 0x1000 PteFlags.W).isSome)) = some (true, true, true) := by decide +kernel
  obtain ⟨σ, hσ, hres⟩ := Option.map_eq_some_iff.mp hrun
  obtain ⟨hen, hfork, hacc⟩ : _ ∧ _ ∧ _ := by simpa only [Prod.mk.injEq] using hres
  obtain ⟨σ', hσ'⟩ := Option.isSome_iff_exists.mp hfork
  exact ⟨σ, σ', hσ, hσ', (fork_keeps_permissions (Calls.of_runCalls oneSegment
    (fun c hc τ => callOk_oneSegment τ c hc) (Calls.start booted_bootMachine) hσ)).2 0 1 σ'
    (of_decide_eq_true hen) hσ' 0x1000 (by norm_num) _ (Or.inr rfl) hacc 1 (Or.inr rfl)⟩

/-- A read-only segment, and a writable one in the second half of its page. -/
def sharedPage : List Call := loaded [segment 0x1000 4, segment 0x1800 6]

/-- **After the fork of a page two segments share**, a page that was writable is not, and
the page fault ends in an error. -/
theorem sharedPage_lost : ∃ σ σ', Calls (fun _ _ => True) bootMachine σ ∧
    CallEnabled σ (.op (.fork 0 1)) ∧ callStep (.op (.fork 0 1)) σ = some σ' ∧
    (σ.userAccess 0 0x1000 PteFlags.W).isSome = true ∧ ¬ AccessKept σ' 0 0x1000 PteFlags.W := by
  have hrun : ((runCalls sharedPage bootMachine).map fun σ =>
      (decide (CallEnabled σ (.op (.fork 0 1))), (σ.userAccess 0 0x1000 PteFlags.W).isSome,
        (callStep (.op (.fork 0 1)) σ).map fun σ' => ((σ'.userAccess 0 0x1000 PteFlags.W).isSome,
          (MemoryManager.handlePageFault 0x1000 PteFlags.W (σ'.space 0)).isErr))) =
      some (true, true, some (false, true)) := by decide +kernel
  obtain ⟨σ, hσ, hres⟩ := Option.map_eq_some_iff.mp hrun
  obtain ⟨hen, hacc, hfork⟩ : _ ∧ _ ∧ _ := by simpa only [Prod.mk.injEq] using hres
  obtain ⟨σ', hσ', hres'⟩ := Option.map_eq_some_iff.mp hfork
  obtain ⟨hnone, herr⟩ := Prod.mk.inj hres'
  refine ⟨σ, σ', Calls.of_runCalls _ (fun _ _ _ => trivial) (Calls.start booted_bootMachine) hσ,
    of_decide_eq_true hen, hσ', hacc, fun h => h.elim (fun hs => ?_) fun hwp => ?_⟩
  · rw [hnone] at hs
    cases hs
  · obtain ⟨e, sp, hsp⟩ := Outcome.exists_of_isErr herr
    exact wp_of_err hwp hsp

end Permissions
end Efiks.Exec
