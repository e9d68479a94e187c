import Efiks.Mm.Runs

/-!
# User frames are accounted for

What the invariant says in the terms of the code: the recorded reference count of a
frame is the number of user leaf entries that map it, kernel stacks and tables own
their frames, and a process reads what it wrote. All of it holds along runs whose
pages are readable or executable and whose kernel stacks got consecutive frames,
and fails without either.

A page that is only writable is a leaf until `fork` clears its `W` bit: then its
entry reads as a pointer to a table, and the data of the page as that table.

## Main definitions

* `userCount` — the user leaf entries that map a frame, over all processes.
* `Owns` — the tables and kernel-stack frames of a process.
* `Accounted`, `StepsAccounted` — the accounting of frames.

## Main results

* `frames_accounted`, `kernelStack_owns_frames`, `copyOnWrite_refines_copy`.
-/
namespace Efiks.Mm
open Lib Lib.RustM PageTableEntry

/-- The number of user leaf entries, over all live address spaces, that map frame `f`. -/
def userCount (σ : Machine) (f : ℕ) : ℕ :=
  ∑ p ∈ σ.live, (userFrames σ.sys.mem 3 (σ.proc p).mm.rootFrame).count f

/-- Frame `n` is a table or a kernel-stack frame of process `p`, in slot `x`. -/
def Owns (σ : Machine) (p : ℕ) (x : Slot) (n : ℕ) : Prop :=
  p ∈ σ.live ∧ privFrame true σ.sys (σ.proc p).mm x = some n

/-- **The accounting of frames** in a state reached from `σ₀`. -/
structure Accounted (σ₀ σ : Machine) : Prop where
  refcount : ∀ f, σ.sys.refs f = userCount σ f
  entry : ∀ f, σ.sys.pageMeta (4096 * f) ≠ none ↔ 0 < userCount σ f
  bounded : ∀ f, userCount σ f ≤ 4096
  owner : ∀ p q x y n, Owns σ p x n → Owns σ q y n → p = q ∧ x = y
  apart : ∀ p x n, Owns σ p x n → userCount σ n = 0
  allocated : ∀ n, (0 < userCount σ n ∨ ∃ p x, Owns σ p x n) → σ.sys.used n
  drained : σ.live = ∅ → ∀ n, σ.sys.used n ↔ σ₀.sys.used n

/-- The accounting of the steps from a state: the expects never fail, and a frame is
freed exactly when its last mapping goes away. -/
structure StepsAccounted (ok : Machine → Op → Prop) (σ : Machine) : Prop where
  expects : ∀ op P, σ.Enabled op → ok σ op → Machine.exec op σ = .panic P → AllowedPanic P
  freed : ∀ op ev σ', σ.Enabled op → ok σ op → σ.step op = some (ev, σ') →
    ∀ f, 0 < userCount σ f → (σ'.sys.used f ↔ 0 < userCount σ' f)

section Count
variable {perm : Perm} {track : Bool} {boot : ℕ → Prop} {σ σ' : Machine} {p n f : ℕ}

/-- The user leaf entries of a process map a frame at most once. -/
theorem Inv.count_userFrames (h : Inv perm track boot σ) (hp : p ∈ σ.live) (f : ℕ)
    [Decidable ((σ.abs track).Maps p f)] :
    (userFrames σ.sys.mem 3 (σ.proc p).mm.rootFrame).count f =
      if (σ.abs track).Maps p f then 1 else 0 := by
  have hs := (h.space p hp).shape
  have hmem : f ∈ userFrames σ.sys.mem 3 (σ.proc p).mm.rootFrame ↔ (σ.abs track).Maps p f := by
    rw [hs.mem_userFrames, abs_maps]
    exact ⟨fun hm => ⟨hp, hm⟩, And.right⟩
  split
  · rename_i hm
    exact List.count_eq_one_of_mem (hs.nodup_userFrames fun v w hv hw => h.page_inj hp hv hw)
      (hmem.mpr hm)
  · rename_i hm
    exact List.count_eq_zero_of_not_mem fun hm' => hm (hmem.mp hm')

/-- **The count of a frame is the number of its entries.** -/
theorem Inv.userCount_eq (h : Inv perm track boot σ) (f : ℕ) : userCount σ f = σ.sys.refs f := by
  classical
  have hcard : σ.sys.refs f = ((σ.abs track).mappers f).card := h.sharing.refs_eq f
  rw [hcard, Frames.mappers, Finset.card_filter, userCount]
  exact Finset.sum_congr rfl fun p hp => h.count_userFrames hp f

theorem Inv.userCount_pos (h : Inv perm track boot σ) :
    0 < userCount σ f ↔ ∃ p, (σ.abs track).Maps p f := by
  rw [h.userCount_eq]
  have hcard : σ.sys.refs f = ((σ.abs track).mappers f).card := h.sharing.refs_eq f
  rw [hcard, Finset.card_pos]
  constructor
  · rintro ⟨p, hp⟩
    exact ⟨p, (Frames.mem_mappers.mp hp).2⟩
  · rintro ⟨p, hp⟩
    exact ⟨p, Frames.mem_mappers.mpr ⟨h.sharing.maps_live hp, hp⟩⟩

theorem owns_iff {x : Slot} : Owns σ p x n ↔ (σ.abs true).priv p x = some n := by
  by_cases hp : p ∈ σ.live
  · rw [abs_priv hp, Owns]
    exact and_iff_right hp
  · rw [abs_priv_dead hp, Owns]
    exact ⟨fun h => absurd h.1 hp, fun h => (nomatch h)⟩

theorem Inv.accounted {σ₀ : Machine} (h : Inv perm true σ₀.sys.used σ) : Accounted σ₀ σ where
  refcount f := (h.userCount_eq f).symm
  entry f := by
    rw [h.userCount_pos]
    constructor
    · intro hne
      by_contra hno
      exact hne (h.meta_eq_none fun p hm => hno ⟨p, hm⟩)
    · rintro ⟨p, hm⟩ hnone
      obtain ⟨c, hc, -⟩ := h.exists_meta hm
      rw [hnone] at hc
      cases hc
  bounded f := by
    rw [h.userCount_eq]
    exact h.refs_le f
  owner p q x y n hp hq := h.sharing.priv_inj (owns_iff.mp hp) (owns_iff.mp hq)
  apart p x n hp := by
    by_contra hne
    obtain ⟨q, hq⟩ := h.userCount_pos.mp (Nat.pos_of_ne_zero hne)
    exact h.sharing.priv_map (owns_iff.mp hp) hq
  allocated n hn := by
    rcases hn with hn | ⟨p, x, hp⟩
    · obtain ⟨q, hq⟩ := h.userCount_pos.mp hn
      exact h.sharing.used_of_maps hq
    · exact h.sharing.used_of_priv (owns_iff.mp hp)
  drained hlive n := by
    have hdead : ∀ p, p ∉ σ.live := fun p hp => by
      rw [hlive] at hp
      exact absurd hp (Finset.notMem_empty p)
    refine (h.sharing.used_iff n).trans ⟨fun hu => ?_, Or.inl⟩
    rcases hu with hb | ⟨p, x, hp⟩ | ⟨p, hm⟩
    · exact hb
    · exact absurd (h.sharing.priv_live hp) (hdead p)
    · exact absurd (h.sharing.maps_live hm) (hdead p)

/-- After a step, a frame that was mapped is in use exactly while it is mapped. -/
theorem StepOk.used_iff {g : Ref → Ref} (h : Inv perm true boot σ)
    (hs : StepOk perm true boot σ σ' g) (hf : 0 < userCount σ f) :
    σ'.sys.used f ↔ 0 < userCount σ' f := by
  obtain ⟨q, hq⟩ := h.userCount_pos.mp hf
  rw [hs.inv.userCount_pos]
  constructor
  · intro hu
    rcases (hs.inv.sharing.used_iff f).mp hu with hb | ⟨p, x, hp⟩ | hm
    · exact absurd hq (h.sharing.boot_map hb)
    · -- a private frame was one before, or was not in use
      rcases hs.fresh p x f hp with hp' | hu'
      · exact absurd hq (h.sharing.priv_map hp')
      · exact absurd (h.sharing.used_of_maps hq) hu'
    · exact hm
  · rintro ⟨p, hp⟩
    exact hs.inv.sharing.used_of_maps hp

theorem Inv.stepsAccounted {ok : Machine → Op → Prop} (h : Inv perm true boot σ)
    (hok : ∀ {op}, σ.Enabled op → ok σ op → OpOk perm true σ op) : StepsAccounted ok σ where
  expects op P hen hop hpanic := wp_of_panic (exec_ok h hen (hok hen hop)) hpanic
  freed op ev σ' hen hop hstep f hf := by
    obtain ⟨boot', hboot, -, hs⟩ := h.step hen (hok hen hop) hstep
    rw [hboot rfl] at hs
    exact hs.used_iff h hf

end Count

section Runs

/-- Steps whose kernel stacks are consecutive and whose pages are readable or executable. -/
def FrameOk (σ : Machine) (op : Op) : Prop := StackOk σ op ∧ PageOk op

instance : (op : Op) → Decidable (PageOk op)
  | .mapAllocatePage _ _ flags => inferInstanceAs (Decidable (flags &&& PteFlags.RX ≠ 0#8))
  | .new .. | .remapPage .. | .copyIn .. | .setInitialBrk .. | .createKernelStack .. | .fork ..
  | .load .. | .store .. | .brk .. | .handlePageFault .. | .copyOnWrite .. | .free .. =>
      isTrue trivial

instance (σ : Machine) (op : Op) : Decidable (FrameOk σ op) := inferInstanceAs (Decidable (_ ∧ _))

variable {σ₀ σ σ' : Machine} {ref : Ref} {p va : ℕ} {b : UInt8}

theorem Reach.frameInv (h : Reach FrameOk σ₀ σ ref) :
    Inv ⟨False, False⟩ true σ₀.sys.used σ ∧ Rep true σ ref := by
  obtain ⟨boot, hboot, -, hinv, hrep⟩ :=
    h.inv ⟨False, False⟩ true fun hen hok => opOk_of_stackOk hen hok.1 hok.2
  exact ⟨hboot rfl ▸ hinv, hrep⟩

/-- A machine with memory from 4096 on and nothing in use. -/
def bootMachine : Machine :=
  ⟨⟨FrameAllocator.new 4096, fun _ => none, fun _ _ => 0⟩, ∅, fun _ => ⟨.empty, false, false⟩⟩

theorem booted_bootMachine : Booted bootMachine := ⟨⟨rfl, by decide, by decide⟩, rfl, fun _ => rfl⟩

/-- One process with a kernel stack and a page. -/
def onePage : List Op :=
  [.new 0, .createKernelStack 0, .mapAllocatePage 0 0x1000 (PteFlags.RW ||| PteFlags.U),
    .copyIn 0 0x1000 7]

/-- A page that is only writable, then a fork. -/
def writeOnlyFork : List Op := [.new 0, .mapAllocatePage 0 0 (PteFlags.W ||| PteFlags.U), .fork 0 1]

/-- **Copy-on-write refines copying**: a load that succeeds returns the byte the process
holds in its private memory. -/
theorem copyOnWrite_refines_copy (h : Reach FrameOk σ₀ σ ref) (hen : σ.Enabled (.load p va))
    (hstep : σ.step (.load p va) = some (.loaded b, σ')) : b = ref p va := by
  obtain ⟨hinv, hrep⟩ := h.frameInv
  have hload := exec_load_ok (E := fun _ _ => True) hinv hen.1 hen.2.2
  unfold Machine.step at hstep
  cases hrun : Machine.exec (.load p va) σ with
  | ok ev τ =>
      rw [hrun] at hstep
      obtain ⟨rfl, rfl⟩ := Prod.mk.inj (Option.some.inj hstep)
      obtain ⟨pa, hpa, rfl⟩ := (wp_of_ok hload hrun).2 b rfl
      exact readByte_eq hinv hen.1 hen.2.2 hrep hpa
  | err e τ =>
      rw [hrun] at hstep
      cases hstep
  | panic P =>
      rw [hrun] at hstep
      cases hstep

/-- A forked page is written by the parent and read by the child. -/
def forkStoreLoad : List Op := onePage ++ [.fork 0 1, .store 0 0x1000 9, .store 0 0x1000 9]

theorem copyOnWrite_refines_copy_forked : ∃ s, runOps FrameOk forkStoreLoad
    (bootMachine, fun _ _ => 0) = some s ∧ ∃ σ', s.1.step (.load 1 0x1000) = some (.loaded 7, σ') ∧
      7 = s.2 1 0x1000 := by
  have hrun : ((runOps FrameOk forkStoreLoad (bootMachine, fun _ _ => 0)).map fun s =>
      (decide (s.1.Enabled (.load 1 0x1000)), (s.1.step (.load 1 0x1000)).map Prod.fst)) =
      some (true, some (.loaded 7)) := by decide +kernel
  obtain ⟨s, hs, hres⟩ := Option.map_eq_some_iff.mp hrun
  obtain ⟨hen, hev⟩ := Prod.mk.inj hres
  obtain ⟨⟨ev, σ'⟩, hstep, rfl⟩ := Option.map_eq_some_iff.mp hev
  exact ⟨s, hs, σ', hstep, copyOnWrite_refines_copy
    (Reach.of_runOps forkStoreLoad (Reach.start booted_bootMachine) hs) (of_decide_eq_true hen) hstep⟩

/-- The first word of a write-only page reads as an entry that points to the frame of
another page; the child that is freed takes both frames along, and the next page the
parent touches gets one of them. -/
def writeOnlyFree : List Op := onePage ++
  [.mapAllocatePage 0 0 (PteFlags.W ||| PteFlags.U), .copyIn 0 0 0x01, .copyIn 0 1 0x4c,
    .setInitialBrk 0 0x2000, .fork 0 1, .free 1, .brk 0 0x3000, .load 0 0x2000]

/-- **After the child of a process with a write-only page is freed**, a page of the
parent reads as zero, and nobody has written it. -/
theorem writeOnlyFree_lost : ∃ σ ref σ', Reach StackOk bootMachine σ ref ∧
    σ.Enabled (.load 0 0x1000) ∧ σ.step (.load 0 0x1000) = some (.loaded 0, σ') ∧
    ref 0 0x1000 = 7 := by
  have hrun : ((runOps StackOk writeOnlyFree (bootMachine, fun _ _ => 0)).map fun s =>
      (decide (s.1.Enabled (.load 0 0x1000)), (s.1.step (.load 0 0x1000)).map Prod.fst,
        s.2 0 0x1000)) = some (true, some (.loaded 0), 7) := by decide +kernel
  obtain ⟨s, hs, hres⟩ := Option.map_eq_some_iff.mp hrun
  obtain ⟨hen, hev, href⟩ : _ ∧ _ ∧ _ := by simpa only [Prod.mk.injEq] using hres
  obtain ⟨⟨ev, σ'⟩, hstep, rfl⟩ := Option.map_eq_some_iff.mp hev
  exact ⟨s.1, s.2, σ', Reach.of_runOps writeOnlyFree (Reach.start booted_bootMachine) hs,
    of_decide_eq_true hen, hstep, href⟩

end Runs

section KernelStacks

/-- Frame `n` underlies the virtual range the stack records. -/
def RecordedFrame (stack : KernelStackRegion) (n : ℕ) : Prop :=
  stack.bottom ≤ physToVirt (4096 * n) ∧ physToVirt (4096 * n) < stack.top

theorem recordedFrame_stackRegion {g b n : ℕ} :
    RecordedFrame (stackRegion g b) n ↔ b ≤ n ∧ n < b + kernelStackPages := by
  simp only [RecordedFrame, stackRegion, physToVirt]
  omega

variable {s t : MemState} {g b : ℕ} {ns : List ℕ}

/-- The recorded range is what was allocated exactly when the frames were consecutive. -/
theorem Taken.recorded_iff (h : Taken s (g :: b :: ns) t) (hlen : ns.length = kernelStackPages - 1) :
    (∀ n, RecordedFrame (stackRegion g b) n ↔ t.used n ∧ ¬ s.used n ∧ 4096 * n ≠ 4096 * g) ↔
      Consecutive s := by
  have hpages : kernelStackPages = 16 := rfl
  have hsort := List.pairwise_cons.mp h.sorted
  have hnew : ∀ n, (t.used n ∧ ¬ s.used n ∧ 4096 * n ≠ 4096 * g) ↔ n ∈ b :: ns := by
    intro n
    rw [h.used]
    constructor
    · rintro ⟨hu | hmem, hfree, hne⟩
      · exact absurd hu hfree
      · exact (List.mem_cons.mp hmem).resolve_left (by omega)
    · intro hmem
      have hgn := hsort.1 n hmem
      exact ⟨Or.inr (List.mem_cons_of_mem g hmem), h.fresh (List.mem_cons_of_mem g hmem), by omega⟩
  simp only [recordedFrame_stackRegion, hnew]
  constructor
  · intro hall
    -- two sorted lists with the same elements are equal
    have heq : b :: ns = List.range' b kernelStackPages :=
      eq_of_pairwise_lt hsort.2 List.pairwise_lt_range' fun n => by
        rw [← hall n, List.mem_range'_1]
    intro k hk
    have hlen' : (g :: b :: ns).length = kernelStackPages + 1 := by
      rw [List.length_cons, List.length_cons, hlen]
      omega
    rw [h.getElem? (by omega), h.getElem? (by omega), List.getElem?_cons_succ,
      List.getElem?_cons_succ, heq, List.getElem?_range' (by omega), List.getElem?_range' (by omega)]
    simp
  · intro hc n
    have hmem := h.mem_iff (n := n) hlen hc
    rw [List.mem_cons, StackFrames] at hmem
    constructor
    · intro hn
      refine (hmem.mpr (Or.inr hn)).resolve_left fun hng => ?_
      have := hsort.1 b List.mem_cons_self
      omega
    · intro hn
      refine (hmem.mp (Or.inr hn)).resolve_left fun hng => ?_
      have := hsort.1 n hn
      omega

/-- **A kernel stack owns its frames** exactly when the frames it got are consecutive;
along runs where every stack got such frames no two owners overlap, and freeing a
stack frees its guard and its sixteen frames. -/
theorem kernelStack_owns_frames {mm : MemoryManager} {top : ℕ} {sp : Space} {σ₀ σ : Machine}
    {ref : Ref} (hp : s.Placed) (hrun : MemoryManager.createKernelStack ⟨s, mm⟩ = .ok top sp)
    (h : Reach FrameOk σ₀ σ ref) :
    ((∀ n, RecordedFrame sp.mm.kernelStack n ↔
      sp.sys.used n ∧ ¬ s.used n ∧ 4096 * n ≠ sp.mm.kernelStack.guard) ↔ Consecutive s) ∧
    (∀ p q x y n, Owns σ p x n → Owns σ q y n → p = q ∧ x = y) ∧
    (∀ p x n, Owns σ p x n → userCount σ n = 0) ∧
    ∀ p ∈ σ.live, (σ.proc p).mm.kernelStack ≠ .empty →
      ∃ t, (σ.proc p).mm.freeKernelStack σ.sys = .ok () t ∧ ∀ n, t.used n ↔
        σ.sys.used n ∧ ¬ (4096 * n = (σ.proc p).mm.kernelStack.guard ∨
          RecordedFrame (σ.proc p).mm.kernelStack n) := by
  constructor
  · have hspec : wp MemoryManager.createKernelStack (fun _ sp => ∃ g b ns,
        Taken s (g :: b :: ns) sp.sys ∧ ns.length = kernelStackPages - 1 ∧
        sp.mm.kernelStack = stackRegion g b) (fun _ _ => True) (fun _ => True) ⟨s, mm⟩ :=
      wp_createKernelStack hp (fun _ _ => trivial) fun g b ns t ht hlen =>
        ⟨g, b, ns, ht, hlen, rfl⟩
    obtain ⟨g, b, ns, ht, hlen, hstack⟩ := wp_of_ok hspec hrun
    rw [hstack]
    exact ht.recorded_iff hlen
  · obtain ⟨hinv, -⟩ := h.frameInv
    have hacc := hinv.accounted
    refine ⟨hacc.owner, hacc.apart, fun p hp hne => ?_⟩
    obtain ⟨g, b, hg, hgb, hstack⟩ := (hinv.space p hp).stack.resolve_left hne
    have hused : ∀ n, StackFrames g b n → σ.sys.used n := by
      intro n hn
      obtain ⟨k, hk⟩ := (exists_stackFrame hg).mpr hn
      refine hacc.allocated n (Or.inr ⟨p, .inr k, hp, ?_⟩)
      rw [privFrame, hstack]
      exact hk
    have hwp : wp (σ.proc p).mm.freeKernelStack (fun _ t => FreedAll σ.sys (StackFrames g b) t)
        (fun _ _ => False) (fun _ => False) σ.sys :=
      wp_freeKernelStack hinv.placed hstack hgb hused fun t ht => ht
    have hframes : ∀ n, (4096 * n = (σ.proc p).mm.kernelStack.guard ∨
        RecordedFrame (σ.proc p).mm.kernelStack n) ↔ StackFrames g b n := by
      intro n
      rw [hstack, recordedFrame_stackRegion, StackFrames]
      change 4096 * n = 4096 * g ∨ _ ↔ _
      omega
    cases hrun : (σ.proc p).mm.freeKernelStack σ.sys with
    | ok u t => exact ⟨t, rfl, fun n => by rw [(wp_of_ok hwp hrun).used, hframes]⟩
    | err e t => exact (wp_of_err hwp hrun).elim
    | panic P => exact (wp_of_panic hwp hrun).elim

theorem kernelStack_owns_frames_boot : ∃ top sp s,
    MemoryManager.createKernelStack ⟨bootMachine.sys, .empty⟩ = .ok top sp ∧
    runOps FrameOk onePage (bootMachine, fun _ _ => 0) = some s ∧
    (∀ n, RecordedFrame sp.mm.kernelStack n ↔ sp.sys.used n ∧ ¬ bootMachine.sys.used n ∧
      4096 * n ≠ sp.mm.kernelStack.guard) ∧
    ∀ p q x y n, Owns s.1 p x n → Owns s.1 q y n → p = q ∧ x = y := by
  obtain ⟨top, sp, hrun⟩ := Outcome.exists_of_isOk
    (by decide +kernel : (MemoryManager.createKernelStack ⟨bootMachine.sys, .empty⟩).isOk = true)
  obtain ⟨s, hs⟩ := Option.isSome_iff_exists.mp
    (by decide +kernel : (runOps FrameOk onePage (bootMachine, fun _ _ => 0)).isSome = true)
  obtain ⟨hiff, howner, -⟩ := kernelStack_owns_frames booted_bootMachine.placed hrun
    (Reach.of_runOps onePage (Reach.start booted_bootMachine) hs)
  exact ⟨top, sp, s, hrun, hs, hiff.mpr (by decide +kernel), howner⟩

/-- Process 0 ends between the others, so process 2 gets frames around those of
process 1. -/
def scatteredStack : List Op :=
  [.new 0, .createKernelStack 0,
    .new 1, .mapAllocatePage 1 0 (PteFlags.RW ||| PteFlags.U), .createKernelStack 1, .free 0,
    .new 2, .mapAllocatePage 2 0 (PteFlags.RW ||| PteFlags.U), .createKernelStack 2]

/-- **A kernel stack can record the root table of another process.** -/
theorem scatteredStack_overlaps : ∃ σ ref, Reach (fun _ op => PageOk op) bootMachine σ ref ∧
    1 ∈ σ.live ∧ 2 ∈ σ.live ∧
    RecordedFrame (σ.proc 2).mm.kernelStack (σ.proc 1).mm.rootFrame := by
  have hrun : ((runOps (fun _ op => PageOk op) scatteredStack (bootMachine, fun _ _ => 0)).map
      fun s => (decide (1 ∈ s.1.live ∧ 2 ∈ s.1.live), (s.1.proc 1).mm.rootFrame,
        (s.1.proc 2).mm.kernelStack)) = some (true, 19, stackRegion 5 6) := by decide +kernel
  obtain ⟨s, hs, hres⟩ := Option.map_eq_some_iff.mp hrun
  simp only [Prod.mk.injEq, decide_eq_true_eq] at hres
  obtain ⟨hlive, hroot, hstack⟩ := hres
  refine ⟨s.1, s.2, Reach.of_runOps scatteredStack (Reach.start booted_bootMachine) hs, hlive.1,
    hlive.2, ?_⟩
  rw [hroot, hstack, recordedFrame_stackRegion]
  decide

end KernelStacks
end Efiks.Mm
