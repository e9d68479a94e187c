import Efiks.Kmalloc.LinkedListAllocator

/-!
# Safety of the kernel heap

The invariant is a list of blocks in address order. `Seg` reads the list off the
header chain in memory; `Owns` places a client's data inside its block. An
allocation replaces one free block of the list by one or two blocks, a
deallocation flips one flag, and a client's write touches no header and no back
offset word, so each step restores the invariant by a single frame argument.

## Main definitions

* `Seg m a z next bs` — the header chain from `a` to `z` is the block list `bs`.
* `Owns m x b` — the live allocation `x` lies in block `b`.
* `HeapSafe` — the safety property, in terms of memory alone.
-/
namespace Efiks.Kmalloc
open Lib Lib.RustM Lib.Mem

/-! ## Headers in memory -/

section Headers
variable {m w : Mem} {h : ℕ}

theorem readHeader_congr (heq : ∀ x, h ≤ x → x < h + headerSize → m x = w x) :
    readHeader m h = readHeader w h := by
  have hw : ∀ o, o + 8 ≤ headerSize → m.load (h + o) 8 = w.load (h + o) 8 := by
    intro o ho
    exact load_congr fun x hx hx' => heq x (by omega) (by omega)
  have h0 : m.load h 8 = w.load h 8 := hw 0 (by decide)
  have h8 : m (h + 8) = w (h + 8) := heq (h + 8) (by omega) (by simp [headerSize])
  have h16 := hw 16 (by decide)
  have h24 := hw 24 (by decide)
  simp [readHeader, h0, h8, h16, h24]

theorem writeSz_of_notMem {sz x : ℕ} (hx : x < h ∨ h + headerSize ≤ x) :
    writeSz h sz m x = m x := by
  apply store_of_notMem
  simp only [headerSize] at hx
  omega

theorem writeFree_of_ne {b : Bool} {x : ℕ} (hx : x ≠ h + 8) : writeFree h b m x = m x :=
  store_of_notMem (by omega)

theorem writeNext_of_notMem {next : Option ℕ} {x : ℕ} (hx : x < h ∨ h + headerSize ≤ x) :
    writeNext h next m x = m x := by
  simp only [headerSize] at hx
  cases next with
  | none => exact store_of_notMem (by omega)
  | some p =>
      simp only [writeNext]
      rw [store_of_notMem (by omega), store_of_notMem (by omega)]

theorem writeHeader_of_notMem {hd : Header} {x : ℕ} (hx : x < h ∨ h + headerSize ≤ x) :
    writeHeader h hd m x = m x := by
  have hne : x ≠ h + 8 := by simp only [headerSize] at hx; omega
  rw [writeHeader, writeNext_of_notMem hx, writeFree_of_ne hne, writeSz_of_notMem hx]

theorem readHeader_writeSz {sz : ℕ} (hsz : sz < 2 ^ 64) :
    readHeader (writeSz h sz m) h = { readHeader m h with sz := sz } := by
  have hflag : writeSz h sz m (h + 8) = m (h + 8) := store_of_notMem (by omega)
  have hword : ∀ o, 8 ≤ o → (writeSz h sz m).load (h + o) 8 = m.load (h + o) 8 := by
    intro o ho
    exact load_store_of_disjoint (by omega)
  have hself : (writeSz h sz m).load h 8 = sz := by
    rw [writeSz, load_store_same]; exact Nat.mod_eq_of_lt hsz
  simp only [readHeader, hflag, hself, hword 16 (by omega), hword 24 (by omega)]

theorem readHeader_writeFree {b : Bool} :
    readHeader (writeFree h b m) h = { readHeader m h with free := b } := by
  have hflag : (writeFree h b m (h + 8) != 0) = b := by
    rw [writeFree, store, blit_of_mem (by omega) (by omega)]
    cases b <;> simp [digit]
  have hword : ∀ o, o + 8 ≤ 8 ∨ 9 ≤ o →
      (writeFree h b m).load (h + o) 8 = m.load (h + o) 8 := by
    intro o ho
    exact load_store_of_disjoint (by omega)
  have hself : (writeFree h b m).load h 8 = m.load h 8 := hword 0 (by omega)
  simp only [readHeader, hflag, hself, hword 16 (by omega), hword 24 (by omega)]

theorem readHeader_writeNext {next : Option ℕ} (hnext : ∀ p ∈ next, p < 2 ^ 64) :
    readHeader (writeNext h next m) h = { readHeader m h with next := next } := by
  cases next with
  | none =>
      have hflag : writeNext h none m (h + 8) = m (h + 8) := store_of_notMem (by omega)
      have hsz : (writeNext h none m).load h 8 = m.load h 8 := load_store_of_disjoint (by omega)
      have htag : (writeNext h none m).load (h + 16) 8 = 0 := by
        simp [writeNext, load_store_same]
      simp only [readHeader, hflag, hsz, htag, if_true]
  | some p =>
      have hp : p < 2 ^ 64 := hnext p rfl
      have hflag : writeNext h (some p) m (h + 8) = m (h + 8) := by
        simp only [writeNext]
        rw [store_of_notMem (by omega), store_of_notMem (by omega)]
      have hsz : (writeNext h (some p) m).load h 8 = m.load h 8 := by
        simp only [writeNext]
        rw [load_store_of_disjoint (by omega), load_store_of_disjoint (by omega)]
      have htag : (writeNext h (some p) m).load (h + 16) 8 = 1 := by
        simp only [writeNext]
        rw [load_store_of_disjoint (by omega), load_store_same]
        norm_num
      have hptr : (writeNext h (some p) m).load (h + 24) 8 = p := by
        simp only [writeNext]
        rw [load_store_same]
        exact Nat.mod_eq_of_lt hp
      simp [readHeader, hflag, hsz, htag, hptr]

theorem readHeader_writeHeader {hd : Header} (hsz : hd.sz < 2 ^ 64)
    (hnext : ∀ p ∈ hd.next, p < 2 ^ 64) : readHeader (writeHeader h hd m) h = hd := by
  rw [writeHeader, readHeader_writeNext hnext, readHeader_writeFree, readHeader_writeSz hsz]

/-- Pointers read from memory are 64-bit. -/
theorem readHeader_next_lt : ∀ p ∈ (readHeader m h).next, p < 2 ^ 64 := by
  intro p hp
  simp only [readHeader] at hp
  split at hp
  · simp at hp
  · rw [Option.mem_some_iff] at hp
    rw [← hp]
    exact load_lt m 8 (h + 24)

end Headers

/-! ## The block list -/

/-- A block, as the invariant sees it. -/
structure Block where
  start : ℕ
  sz : ℕ
  free : Bool
  deriving DecidableEq, Repr

/-- The end of a block. -/
def Block.fin (b : Block) : ℕ := b.start + b.sz

/-- Two blocks do not overlap. -/
def Block.Apart (b c : Block) : Prop := b.fin ≤ c.start ∨ c.fin ≤ b.start

instance : Std.Symm Block.Apart := ⟨fun _ _ h => Or.symm h⟩

/-- The chain of headers from `a` covers `[a, z)` with the blocks `bs`: every link
leads to the end of its block, and the last one is `next`. -/
inductive Seg (m : Mem) : ℕ → ℕ → Option ℕ → List Block → Prop
  | one {a sz free next} (h : readHeader m a = ⟨sz, free, next⟩) :
      Seg m a (a + sz) next [⟨a, sz, free⟩]
  | cons {a z sz free next bs} (h : readHeader m a = ⟨sz, free, some (a + sz)⟩)
      (hs : Seg m (a + sz) z next bs) : Seg m a z next (⟨a, sz, free⟩ :: bs)

namespace Seg
variable {m m' : Mem} {a y z : ℕ} {next : Option ℕ} {bs cs : List Block} {b : Block}

theorem ne_nil (h : Seg m a z next bs) : bs ≠ [] := by
  cases h <;> simp

theorem start_eq (h : Seg m a z next (b :: bs)) : b.start = a := by
  cases h <;> rfl

theorem append (h : Seg m a y (some y) bs) (h' : Seg m y z next cs) :
    Seg m a z next (bs ++ cs) := by
  generalize hn : some y = n at h
  induction h with
  | one hr => subst hn; exact .cons hr h'
  | cons hr _ ih => exact .cons hr (ih h' hn)

theorem bounds (h : Seg m a z next bs) : ∀ b ∈ bs, a ≤ b.start ∧ b.fin ≤ z := by
  induction h with
  | one _ =>
      intro b hb
      rw [List.mem_singleton] at hb
      subst hb
      exact ⟨le_refl _, le_refl _⟩
  | @cons a z sz free next bs _ hs ih =>
      intro b hb
      have hle : a + sz ≤ z := by
        obtain ⟨c, cs, rfl⟩ := List.exists_cons_of_ne_nil hs.ne_nil
        have := ih c List.mem_cons_self
        simp only [Block.fin] at this
        omega
      rcases List.mem_cons.mp hb with rfl | hb
      · exact ⟨le_refl _, hle⟩
      · have := ih b hb
        omega

theorem pairwise (h : Seg m a z next bs) : bs.Pairwise fun b c => b.fin ≤ c.start := by
  induction h with
  | one _ => exact List.pairwise_singleton _ _
  | cons _ hs ih => exact List.pairwise_cons.mpr ⟨fun c hc => (hs.bounds c hc).1, ih⟩

/-- Distinct blocks of the list do not meet. -/
theorem apart {c : Block} (h : Seg m a z next bs) (hb : b ∈ bs) (hc : c ∈ bs) (hne : b ≠ c) :
    b.Apart c :=
  (h.pairwise.imp (S := Block.Apart) fun hbc => .inl hbc).forall hb hc hne

theorem header (h : Seg m a z next bs) :
    ∀ b ∈ bs, ∃ nx, readHeader m b.start = ⟨b.sz, b.free, nx⟩ := by
  induction h with
  | one hr =>
      intro b hb
      rw [List.mem_singleton] at hb
      subst hb
      exact ⟨_, hr⟩
  | cons hr _ ih =>
      intro b hb
      rcases List.mem_cons.mp hb with rfl | hb
      · exact ⟨_, hr⟩
      · exact ih b hb

theorem sum_sz (h : Seg m a z next bs) : a + (bs.map Block.sz).sum = z := by
  induction h with
  | one _ => simp
  | cons _ _ ih => rw [← ih]; simp [Nat.add_assoc]

/-- A chain survives any change that spares its headers. -/
theorem frame (h : Seg m a z next bs)
    (heq : ∀ b ∈ bs, readHeader m' b.start = readHeader m b.start) : Seg m' a z next bs := by
  induction h with
  | one hr => exact .one ((heq _ List.mem_cons_self).trans hr)
  | cons hr _ ih =>
      exact .cons ((heq _ List.mem_cons_self).trans hr)
        (ih fun b hb => heq b (List.mem_cons_of_mem _ hb))

/-- Replace one block by a chain over the same range. The blocks around it keep
their headers because the change stays inside the block. -/
theorem replace {pre post new : List Block} (h : Seg m a z next (pre ++ b :: post))
    (hsized : ∀ c ∈ pre ++ b :: post, headerSize ≤ c.sz)
    (hout : ∀ x, x < b.start ∨ b.fin ≤ x → m' x = m x)
    (hnew : ∀ nx, readHeader m b.start = ⟨b.sz, b.free, nx⟩ → Seg m' b.start b.fin nx new) :
    Seg m' a z next (pre ++ (new ++ post)) := by
  induction pre generalizing a with
  | nil =>
      cases h with
      | one hr => simpa [Block.fin] using hnew next hr
      | cons hr hs =>
          refine (hnew _ hr).append (hs.frame fun c hc => ?_)
          have := (hs.bounds c hc).1
          exact readHeader_congr fun x hx _ => hout x (.inr (by simp only [Block.fin]; omega))
  | cons c pre ih =>
      generalize hl : c :: pre ++ b :: post = l at h
      cases h with
      | one hr => simp at hl
      | cons hr hs =>
          obtain ⟨rfl, rfl⟩ : c = _ ∧ pre ++ b :: post = _ := by simpa using hl
          have hb := (hs.bounds b (by simp)).1
          have hc := hsized _ List.mem_cons_self
          refine .cons ?_ (ih hs fun d hd => hsized d (List.mem_cons_of_mem _ hd))
          rw [← hr]
          exact readHeader_congr fun x _ hx => hout x (.inl (by simp only at hc; omega))

end Seg

/-! ## Placement of an allocation -/

/-- Where `alloc` puts the data of a block whose header is at `h`. -/
def dataStart (h : ℕ) (layout : Layout) : ℕ :=
  maskDown (h + headerSize + wordSize + layout.align - 1) layout.align

/-- How much of the block the allocation needs. -/
def allocSize (h : ℕ) (layout : Layout) : ℕ :=
  maskDown (dataStart h layout - h + layout.size + headerAlign - 1) headerAlign

theorem wp_alignUp {x align : ℕ} {Q : ℕ → Mem → Prop} {E : Unit → Mem → Prop}
    {N : Panic → Prop} {m : Mem} (hpos : 0 < align)
    (hok : x + align < 2 ^ 64 → Q (maskDown (x + align - 1) align) m)
    (hover : 2 ^ 64 ≤ x + align → N .overflow) : wp (alignUp x align) Q E N m := by
  simp only [alignUp, wp_bind, wp_addUsize, wp_subUsize, wp_pure]
  exact ⟨fun h => ⟨fun _ => hok h, fun h' => absurd h' (by omega)⟩, hover⟩

theorem Layout.align_pos (layout : Layout) : 0 < layout.align := by
  obtain ⟨k, hk⟩ := layout.align_pow
  rw [hk]
  exact Nat.two_pow_pos k

/-- Rounding up to the alignment of a layout. -/
theorem Layout.maskDown_spec (layout : Layout) {x : ℕ} (hx : x + layout.align < 2 ^ 64) :
    x ≤ maskDown (x + layout.align - 1) layout.align ∧
      maskDown (x + layout.align - 1) layout.align % layout.align = 0 := by
  obtain ⟨k, hk⟩ := layout.align_pow
  have hpos := layout.align_pos
  have hk64 : k ≤ 64 := by
    by_contra hlt
    have : 2 ^ 64 ≤ 2 ^ k := Nat.pow_le_pow_right (by norm_num) (by omega)
    omega
  rw [hk] at hx hpos ⊢
  have h1 := lt_maskDown_two_pow_add (x := x + 2 ^ k - 1) (k := k) (by omega) hk64
  have h2 := maskDown_two_pow_mod (x := x + 2 ^ k - 1) (k := k) (by omega) hk64
  exact ⟨by omega, h2⟩

theorem maskDown_eight {x : ℕ} (hx : x + headerAlign < 2 ^ 64) :
    x ≤ maskDown (x + headerAlign - 1) headerAlign ∧
      maskDown (x + headerAlign - 1) headerAlign % 8 = 0 := by
  have h1 := lt_maskDown_two_pow_add (x := x + headerAlign - 1) (k := 3)
    (by simp only [headerAlign] at *; omega) (by norm_num)
  have h2 := maskDown_two_pow_mod (x := x + headerAlign - 1) (k := 3)
    (by simp only [headerAlign] at *; omega) (by norm_num)
  rw [show (2 ^ 3 : ℕ) = headerAlign from rfl] at h1 h2
  refine ⟨?_, h2⟩
  simp only [headerAlign] at *
  omega

/-- Rounding the first data address of a block up to the layout's alignment stays
below `2 ^ 64`. -/
def Rounds (layout : Layout) (b : Block) : Prop :=
  b.start + headerSize + wordSize + layout.align < 2 ^ 64

/-- A layout is small enough for the second rounding. -/
theorem used_lt (h : ℕ) (layout : Layout) :
    dataStart h layout - h + layout.size + headerAlign < 2 ^ 64 := by
  have hle := maskDown_le (h + headerSize + wordSize + layout.align - 1) layout.align
  have hsize := layout.size_le
  have hpos := layout.align_pos
  simp only [dataStart, headerSize, wordSize, headerAlign] at *
  omega

/-- What `alloc` knows about a block it can use. -/
structure Fits (layout : Layout) (b : Block) : Prop where
  free : b.free = true
  rounded : b.start + headerSize + wordSize + layout.align < 2 ^ 64
  rounded' : dataStart b.start layout - b.start + layout.size + headerAlign < 2 ^ 64
  enough : allocSize b.start layout ≤ b.sz

namespace Fits
variable {layout : Layout} {b : Block}

theorem dataStart_ge (h : Fits layout b) :
    b.start + headerSize + wordSize ≤ dataStart b.start layout :=
  (layout.maskDown_spec h.rounded).1

theorem dataStart_aligned (h : Fits layout b) : dataStart b.start layout % layout.align = 0 :=
  (layout.maskDown_spec h.rounded).2

theorem allocSize_aligned (h : Fits layout b) : allocSize b.start layout % 8 = 0 :=
  (maskDown_eight h.rounded').2

theorem allocSize_ge (h : Fits layout b) :
    dataStart b.start layout + layout.size ≤ b.start + allocSize b.start layout := by
  have h1 := (maskDown_eight h.rounded').1
  have h2 := h.dataStart_ge
  simp only [allocSize] at h1 ⊢
  omega

end Fits

/-- The memory after `alloc` took a block: the back offset is in place, and the
block is either cut in two or handed out whole. -/
def taken (m : Mem) (b : Block) (layout : Layout) : Mem :=
  let size := allocSize b.start layout
  let data := dataStart b.start layout
  if 48 ≤ b.sz - size then
    let m' := (writeFree b.start false (writeSz b.start size m)).store (data - wordSize) wordSize
      (data - b.start)
    writeNext b.start (some (b.start + size))
      (writeHeader (b.start + size) ⟨b.sz - size, true, (readHeader m' b.start).next⟩ m')
  else
    (writeFree b.start false m).store (data - wordSize) wordSize (data - b.start)

/-- The blocks `alloc` leaves in place of the one it took. -/
def takenBlocks (b : Block) (layout : Layout) : List Block :=
  let size := allocSize b.start layout
  if 48 ≤ b.sz - size then
    [⟨b.start, size, false⟩, ⟨b.start + size, b.sz - size, true⟩]
  else [⟨b.start, b.sz, false⟩]

/-- The first of them: the block that holds the new data. -/
def takenBlock (b : Block) (layout : Layout) : Block where
  start := b.start
  sz := if 48 ≤ b.sz - allocSize b.start layout then allocSize b.start layout else b.sz
  free := false

theorem takenBlocks_eq_cons (b : Block) (layout : Layout) :
    ∃ rest, takenBlocks b layout = takenBlock b layout :: rest := by
  simp only [takenBlocks, takenBlock]
  split <;> exact ⟨_, rfl⟩

theorem take_spec {m : Mem} {b : Block} {layout : Layout} (hfit : Fits layout b)
    (hfin : b.fin < 2 ^ 64) {E : Unit → Mem → Prop} {N : Panic → Prop} :
    wp (LinkedListAllocator.take b.start b.sz (allocSize b.start layout)
      (dataStart b.start layout)) (fun _ m' => m' = taken m b layout) E N m := by
  have hdata := hfit.dataStart_ge
  have henough := hfit.enough
  have hsmall : maskDown (headerSize + wordSize + 1 + headerAlign - 1) headerAlign = 48 := by
    decide
  have hsub : wordSize ≤ dataStart b.start layout := by simp only [wordSize, headerSize] at *; omega
  have hsub' : b.start ≤ dataStart b.start layout := by omega
  simp only [Block.fin] at hfin
  simp only [LinkedListAllocator.take, wp_bind, wp_subUsize, wp_ite, wp_modify, wp_gets,
    wp_addUsize]
  refine ⟨fun _ => ⟨fun _ => ⟨fun _ => ?_, fun h => absurd h (by omega)⟩,
    fun h => absurd h (by omega)⟩, fun h => absurd h (by omega)⟩
  simp only [alignUp, wp_bind, wp_addUsize, wp_subUsize, wp_pure, hsmall]
  refine ⟨fun _ => ⟨fun _ => ⟨fun hsplit => ?_, fun hsplit => ?_⟩, fun h => ?_⟩, fun h => ?_⟩
  · refine ⟨fun _ => ?_, fun h => absurd h (by omega)⟩
    simp [taken, hsplit]
  · simp [taken, hsplit]
  · exact absurd h (by decide)
  · exact absurd h (by decide)

section Taken
variable {m : Mem} {b : Block} {layout : Layout}

theorem taken_of_notMem (hfit : Fits layout b) (hsized : headerSize ≤ b.sz) {x : ℕ}
    (hx : x < b.start ∨ b.fin ≤ x) : taken m b layout x = m x := by
  have hdata := hfit.dataStart_ge
  have hend := hfit.allocSize_ge
  have henough := hfit.enough
  simp only [Block.fin, headerSize, wordSize] at *
  have hb : x < b.start ∨ b.start + headerSize ≤ x := by simp only [headerSize]; omega
  have hw : ∀ m' : Mem, m'.store (dataStart b.start layout - 8) 8 (dataStart b.start layout - b.start) x
      = m' x := fun m' => store_of_notMem (by omega)
  by_cases hsplit : 48 ≤ b.sz - allocSize b.start layout
  · have hn : x < b.start + allocSize b.start layout ∨
        b.start + allocSize b.start layout + headerSize ≤ x := by simp only [headerSize]; omega
    simp only [taken, hsplit, if_true, wordSize]
    rw [writeNext_of_notMem hb, writeHeader_of_notMem hn, hw, writeFree_of_ne (by omega),
      writeSz_of_notMem hb]
  · simp only [taken, hsplit, if_false, wordSize]
    rw [hw, writeFree_of_ne (by omega)]

/-- The word in front of the data leads back to the header. -/
theorem load_backOffset_taken (hfit : Fits layout b) (hfin : b.fin < 2 ^ 64) :
    (taken m b layout).load (dataStart b.start layout - wordSize) wordSize
      = dataStart b.start layout - b.start := by
  have hdata := hfit.dataStart_ge
  have hend := hfit.allocSize_ge
  have henough := hfit.enough
  simp only [Block.fin, headerSize, wordSize] at *
  have hmod : (dataStart b.start layout - b.start) % 256 ^ 8 = dataStart b.start layout - b.start :=
    Nat.mod_eq_of_lt (by norm_num; omega)
  by_cases hsplit : 48 ≤ b.sz - allocSize b.start layout
  · simp only [taken, hsplit, if_true, wordSize]
    refine (load_congr (w := Mem.store (writeFree b.start false (writeSz b.start
      (allocSize b.start layout) m)) (dataStart b.start layout - 8) 8
      (dataStart b.start layout - b.start)) ?_).trans ?_
    · intro x hx hx'
      rw [writeNext_of_notMem (.inr (by simp only [headerSize]; omega)),
        writeHeader_of_notMem (.inl (by omega))]
    · rw [load_store_same, hmod]
  · simp only [taken, hsplit, if_false, wordSize]
    rw [load_store_same, hmod]

theorem seg_taken (hfit : Fits layout b) (hfin : b.fin < 2 ^ 64) {nx : Option ℕ}
    (hr : readHeader m b.start = ⟨b.sz, b.free, nx⟩) :
    Seg (taken m b layout) b.start b.fin nx (takenBlocks b layout) := by
  have hdata := hfit.dataStart_ge
  have hend := hfit.allocSize_ge
  have henough := hfit.enough
  -- the back offset word lies behind the header
  have hword : ∀ m' : Mem, readHeader (m'.store (dataStart b.start layout - wordSize) wordSize
      (dataStart b.start layout - b.start)) b.start = readHeader m' b.start := fun m' =>
    readHeader_congr fun x _ hx' => store_of_notMem (.inl (by simp only [wordSize] at *; omega))
  simp only [Block.fin, headerSize, wordSize] at *
  by_cases hsplit : 48 ≤ b.sz - allocSize b.start layout
  · have hsz : allocSize b.start layout < 2 ^ 64 := by omega
    have hnx : ∀ p ∈ nx, p < 2 ^ 64 := by
      have := readHeader_next_lt (m := m) (h := b.start)
      rwa [hr] at this
    have hnext : (readHeader ((writeFree b.start false (writeSz b.start
        (allocSize b.start layout) m)).store (dataStart b.start layout - 8) 8
        (dataStart b.start layout - b.start)) b.start) =
        ⟨allocSize b.start layout, false, nx⟩ := by
      rw [hword, readHeader_writeFree, readHeader_writeSz hsz, hr]
    have hend' : b.start + b.sz
        = b.start + allocSize b.start layout + (b.sz - allocSize b.start layout) := by omega
    simp only [taken, takenBlocks, hsplit, if_true, wordSize, hnext]
    rw [hend']
    refine .cons ?_ (.one ?_)
    · rw [readHeader_writeNext (by intro p hp; rw [Option.mem_some_iff] at hp; omega)]
      rw [readHeader_congr (w := Mem.store (writeFree b.start false (writeSz b.start
        (allocSize b.start layout) m)) (dataStart b.start layout - 8) 8
        (dataStart b.start layout - b.start)), hnext]
      intro x _ hx
      simp only [headerSize] at hx
      exact writeHeader_of_notMem (.inl (by omega))
    · rw [readHeader_congr (w := writeHeader (b.start + allocSize b.start layout)
        ⟨b.sz - allocSize b.start layout, true, nx⟩ (Mem.store (writeFree b.start false
        (writeSz b.start (allocSize b.start layout) m)) (dataStart b.start layout - 8) 8
        (dataStart b.start layout - b.start)))]
      · exact readHeader_writeHeader (by simp only; omega) hnx
      · intro x hx _
        exact writeNext_of_notMem (.inr (by simp only [headerSize]; omega))
  · simp only [taken, takenBlocks, hsplit, if_false, wordSize]
    refine .one ?_
    rw [hword, readHeader_writeFree, hr]

end Taken

/-- **The search.** From a header of the chain, `alloc` takes the first block that
fits and never runs out of fuel. It panics only if no block fits up to and
including the first one where rounding overflows. -/
theorem allocFrom_spec {m : Mem} {e : ℕ} {layout : Layout} :
    ∀ {fuel a : ℕ} {bs : List Block}, Seg m a e none bs → bs.length ≤ fuel → 0 < a → e < 2 ^ 64 →
      wp (LinkedListAllocator.allocFrom layout fuel a)
        (fun p m' => ∃ pre b post, bs = pre ++ b :: post ∧ Fits layout b ∧
          (∀ c ∈ pre, Rounds layout c ∧ ¬ Fits layout c) ∧ p = dataStart b.start layout ∧
          m' = taken m b layout)
        (fun _ _ => False)
        (fun p => (∀ pre b post, bs = pre ++ b :: post → (∀ c ∈ pre, Rounds layout c) →
            ¬ Fits layout b) ∧
          ((∀ c ∈ bs, Rounds layout c) → p = .explicit "kernel ran out of memory") ∧
          p ≠ .diverges) m := by
  intro fuel
  induction fuel with
  | zero =>
      intro a bs hseg hlen _ _
      exact absurd (List.length_eq_zero_iff.mp (Nat.le_zero.mp hlen)) hseg.ne_nil
  | succ fuel ih =>
      intro a bs hseg hlen ha he
      obtain ⟨b, post, rfl⟩ := List.exists_cons_of_ne_nil hseg.ne_nil
      have hbounds := hseg.bounds b List.mem_cons_self
      obtain rfl := hseg.start_eq
      obtain ⟨nx, hr⟩ := hseg.header b List.mem_cons_self
      -- a panic at the head: the search ends here, and the head does not fit
      have hstop : ¬ Rounds layout b →
          (∀ pre c post', b :: post = pre ++ c :: post' → (∀ d ∈ pre, Rounds layout d) →
            ¬ Fits layout c) ∧
          ((∀ c ∈ b :: post, Rounds layout c) →
            Panic.overflow = .explicit "kernel ran out of memory") ∧
          Panic.overflow ≠ .diverges := by
        intro hround
        refine ⟨fun pre c post' heq hpre hfit => ?_, fun hall => ?_, by simp⟩
        · cases pre with
          | nil =>
              obtain ⟨rfl, -⟩ := List.cons.inj heq
              exact hround hfit.rounded
          | cons d pre =>
              obtain ⟨rfl, -⟩ := List.cons.inj heq
              exact hround (hpre b List.mem_cons_self)
        · exact absurd (hall b List.mem_cons_self) hround
      simp only [LinkedListAllocator.allocFrom, wp_bind, wp_assert, wp_gets, wp_addUsize]
      refine ⟨fun _ => ⟨fun h1 => ⟨fun h2 => ?_, fun h2 => ?_⟩, fun h1 => ?_⟩, fun h0 => ?_⟩
      rotate_left
      · exact hstop fun hround => by simp only [Rounds] at hround; omega
      · exact hstop fun hround => by simp only [Rounds] at hround; omega
      · exact absurd h0 (by simp [ha.ne'])
      refine wp_alignUp layout.align_pos (fun h3 => ?_) fun h3 => hstop (not_lt.mpr h3)
      have hround : Rounds layout b := h3
      have hlt := used_lt b.start layout
      have hge := (layout.maskDown_spec h3).1
      rw [wp_subUsize]
      refine ⟨fun _ => ⟨fun _ => ?_, fun h => ?_⟩, fun h => absurd h (by omega)⟩
      rotate_left
      · exact absurd h (by simp only [dataStart] at hlt; omega)
      refine wp_alignUp (by decide) (fun h4 => ?_) (fun h4 => absurd hlt (not_lt.mpr h4))
      change wp (if ((readHeader m b.start).free && decide ((readHeader m b.start).sz ≥
        allocSize b.start layout)) = true then _ else _) _ _ _ m
      rw [hr, wp_ite]
      refine ⟨fun hfound => ?_, fun hnot => ?_⟩
      · have hfit : Fits layout b := by
          simp only [Bool.and_eq_true, decide_eq_true_eq] at hfound
          exact ⟨hfound.1, h3, h4, hfound.2⟩
        rw [wp_bind]
        refine wp_consequence (take_spec hfit (by omega)) fun _ m' hm' => ?_
        rw [wp_pure]
        exact ⟨[], b, post, rfl, hfit, by simp, rfl, hm'⟩
      · have hskip : ¬ Fits layout b := fun hfit => hnot (by simp [hfit.free, hfit.enough])
        obtain ⟨start, sz, free⟩ := b
        cases hseg with
        | one h =>
            rw [h] at hr
            cases hr
            rw [wp_panic]
            refine ⟨fun pre c post' heq _ => ?_, fun _ => rfl, by simp⟩
            cases pre with
            | nil =>
                obtain ⟨rfl, -⟩ := List.cons.inj heq
                exact hskip
            | cons d pre => simp at heq
        | cons h hs =>
            rw [h] at hr
            cases hr
            refine wp_mono (ih hs (by simpa using hlen) (by omega) he) ?_ (fun _ _ h => h) ?_
            · rintro p m' ⟨pre, c, post', rfl, hfit, hpre, hp, hm'⟩
              refine ⟨_ :: pre, c, post', rfl, hfit, ?_, hp, hm'⟩
              intro d hd
              rcases List.mem_cons.mp hd with rfl | hd
              · exact ⟨hround, hskip⟩
              · exact hpre d hd
            · intro p hp
              refine ⟨fun pre c post' heq hpre => ?_, fun hall => ?_, hp.2.2⟩
              · cases pre with
                | nil =>
                    obtain ⟨rfl, -⟩ := List.cons.inj heq
                    exact hskip
                | cons d pre =>
                    obtain ⟨rfl, rfl⟩ := List.cons.inj heq
                    exact hp.1 pre c post' rfl fun d hd => hpre d (List.mem_cons_of_mem _ hd)
              · exact hp.2.1 fun c hc => hall c (List.mem_cons_of_mem _ hc)

/-! ## The invariant -/

/-- The live allocation `x` lies in block `b`, behind the header and the back offset
word, and that word leads back to the header. -/
structure Owns (m : Mem) (x : ℕ × Layout) (b : Block) : Prop where
  used : b.free = false
  behind : b.start + headerSize + wordSize ≤ x.1
  inside : x.1 + x.2.size ≤ b.fin
  aligned : x.1 % x.2.align = 0
  back : m.load (x.1 - wordSize) wordSize = x.1 - b.start

/-- Ownership only depends on the bytes of the block. -/
theorem Owns.frame {m m' : Mem} {x : ℕ × Layout} {b : Block} (h : Owns m x b)
    (heq : ∀ y, b.start + headerSize ≤ y → y < x.1 → m' y = m y) : Owns m' x b := by
  refine ⟨h.used, h.behind, h.inside, h.aligned, ?_⟩
  rw [← h.back]
  have := h.behind
  exact load_congr fun y hy hy' => heq y (by omega) (by simp only [wordSize] at *; omega)

/-- An allocator over an aligned range of 64-bit addresses, as `new` makes it. -/
structure Ready (a : LinkedListAllocator) : Prop where
  head_eq : a.head = a.startAddr
  start_pos : 0 < a.startAddr
  end_lt : a.endAddr < 2 ^ 64

/-- The heap is the block list `bs`, and `own` gives each live allocation its block. -/
structure HeapInv (a : LinkedListAllocator) (s : HeapState) (bs : List Block)
    (own : List ((ℕ × Layout) × Block)) : Prop where
  seg : Seg s.mem a.startAddr a.endAddr none bs
  sized : ∀ b ∈ bs, headerSize ≤ b.sz
  aligned : ∀ b ∈ bs, b.start % 8 = 0
  live : own.map Prod.fst = s.live
  owns : ∀ x ∈ own, x.2 ∈ bs ∧ Owns s.mem x.1 x.2
  distinct : (own.map Prod.snd).Nodup

/-- `b` marked free, in a block list. -/
def freed (b c : Block) : Block := if c = b then { c with free := true } else c

@[simp] theorem freed_start (b c : Block) : (freed b c).start = c.start := by
  rw [freed]; split <;> rfl
@[simp] theorem freed_sz (b c : Block) : (freed b c).sz = c.sz := by
  rw [freed]; split <;> rfl
theorem freed_of_ne {b c : Block} (h : c ≠ b) : freed b c = c := if_neg h

theorem length_le_of_seg {m : Mem} {a z : ℕ} {next : Option ℕ} {bs : List Block}
    (h : Seg m a z next bs) (hsized : ∀ b ∈ bs, headerSize ≤ b.sz) : bs.length ≤ z - a := by
  induction h with
  | one _ =>
      have := hsized _ List.mem_cons_self
      simp only [headerSize, List.length_singleton] at *
      omega
  | cons _ hs ih =>
      have hhead := hsized _ List.mem_cons_self
      have htail := ih fun b hb => hsized b (List.mem_cons_of_mem _ hb)
      obtain ⟨c, cs, rfl⟩ := List.exists_cons_of_ne_nil hs.ne_nil
      have := hs.bounds c List.mem_cons_self
      have := hsized c (by simp)
      simp only [headerSize, Block.fin, List.length_cons] at *
      omega

namespace HeapInv
variable {a : LinkedListAllocator} {s : HeapState} {bs : List Block}
  {own : List ((ℕ × Layout) × Block)}

theorem fin_lt (h : HeapInv a s bs own) (ha : Ready a) {b : Block} (hb : b ∈ bs) :
    b.fin < 2 ^ 64 := lt_of_le_of_lt (h.seg.bounds b hb).2 ha.end_lt

/-- The blocks `alloc` leaves behind are as well formed as the one it took. -/
theorem takenBlocks_wf {b c : Block} {layout : Layout} (hfit : Fits layout b)
    (hal : b.start % 8 = 0) (hsz : headerSize ≤ b.sz) (hc : c ∈ takenBlocks b layout) :
    headerSize ≤ c.sz ∧ c.start % 8 = 0 := by
  have hdata := hfit.dataStart_ge
  have hend := hfit.allocSize_ge
  have hmod := hfit.allocSize_aligned
  simp only [headerSize, wordSize] at *
  by_cases hsplit : 48 ≤ b.sz - allocSize b.start layout
  · simp only [takenBlocks, hsplit, if_true, List.mem_cons, List.not_mem_nil, or_false] at hc
    rcases hc with rfl | rfl <;> simp only <;> omega
  · simp only [takenBlocks, hsplit, if_false, List.mem_singleton] at hc
    subst hc
    exact ⟨hsz, hal⟩

theorem takenBlock_mem (b : Block) (layout : Layout) : takenBlock b layout ∈ takenBlocks b layout := by
  obtain ⟨rest, h⟩ := takenBlocks_eq_cons b layout
  rw [h]
  exact List.mem_cons_self

/-- The first of the blocks `alloc` leaves behind holds the new data. -/
theorem owns_takenBlock {m : Mem} {b : Block} {layout : Layout} (hfit : Fits layout b)
    (hfin : b.fin < 2 ^ 64) :
    Owns (taken m b layout) (dataStart b.start layout, layout) (takenBlock b layout) := by
  have hend := hfit.allocSize_ge
  have henough := hfit.enough
  refine ⟨rfl, hfit.dataStart_ge, le_trans hend ?_, hfit.dataStart_aligned,
    load_backOffset_taken hfit hfin⟩
  simp only [Block.fin, takenBlock]
  split <;> omega

theorem takenBlocks_inside {b c : Block} {layout : Layout} (hfit : Fits layout b)
    (hc : c ∈ takenBlocks b layout) : b.start ≤ c.start ∧ c.fin ≤ b.fin := by
  have henough := hfit.enough
  by_cases hsplit : 48 ≤ b.sz - allocSize b.start layout
  · simp only [takenBlocks, hsplit, if_true, List.mem_cons, List.not_mem_nil, or_false] at hc
    rcases hc with rfl | rfl <;> simp only [Block.fin] <;> omega
  · simp only [takenBlocks, hsplit, if_false, List.mem_singleton] at hc
    subst hc
    exact ⟨le_refl _, le_refl _⟩

/-- Taking a free block keeps the invariant: the block had no owner, so no live
allocation sees the change. -/
theorem take {pre post : List Block} {b : Block} {layout : Layout}
    (h : HeapInv a s (pre ++ b :: post) own) (ha : Ready a) (hfit : Fits layout b) :
    HeapInv a ⟨taken s.mem b layout, (dataStart b.start layout, layout) :: s.live⟩
      (pre ++ (takenBlocks b layout ++ post))
      (((dataStart b.start layout, layout), takenBlock b layout) :: own) := by
  have hbmem : b ∈ pre ++ b :: post := by simp
  have hsz := h.sized b hbmem
  have hfin := h.fin_lt ha hbmem
  have hc := takenBlock_mem b layout
  -- a block with an owner is not the block that was taken
  have hother : ∀ x ∈ own, x.2 ≠ b := by
    intro x hx heq
    have := (h.owns x hx).2.used
    rw [heq, hfit.free] at this
    cases this
  refine ⟨?_, ?_, ?_, ?_, ?_, ?_⟩
  · exact h.seg.replace h.sized (fun x hx => taken_of_notMem hfit hsz hx)
      fun nx hr => seg_taken hfit hfin hr
  · intro d hd
    simp only [List.mem_append] at hd
    rcases hd with hd | hd | hd
    · exact h.sized d (by simp [hd])
    · exact (takenBlocks_wf hfit (h.aligned b hbmem) hsz hd).1
    · exact h.sized d (by simp [hd])
  · intro d hd
    simp only [List.mem_append] at hd
    rcases hd with hd | hd | hd
    · exact h.aligned d (by simp [hd])
    · exact (takenBlocks_wf hfit (h.aligned b hbmem) hsz hd).2
    · exact h.aligned d (by simp [hd])
  · simp [h.live]
  · intro x hx
    rcases List.mem_cons.mp hx with rfl | hx
    · exact ⟨by simp [hc], owns_takenBlock hfit hfin⟩
    · obtain ⟨hxmem, hxown⟩ := h.owns x hx
      have hne := hother x hx
      have hapart := h.seg.apart hxmem hbmem hne
      refine ⟨?_, hxown.frame fun y hy hy' => taken_of_notMem hfit hsz ?_⟩
      · simp only [List.mem_append, List.mem_cons] at hxmem ⊢
        tauto
      · have := hxown.inside
        rcases hapart with hap | hap <;> simp only [Block.fin] at * <;> omega
  · rw [List.map_cons, List.nodup_cons]
    refine ⟨?_, h.distinct⟩
    rw [List.mem_map]
    rintro ⟨x, hx, heq⟩
    obtain ⟨hxmem, -⟩ := h.owns x hx
    have hin := takenBlocks_inside hfit hc
    have hsz' := h.sized x.2 hxmem
    rcases h.seg.apart hxmem hbmem (hother x hx) with hap | hap <;>
      simp only [Block.fin, headerSize, heq] at * <;> omega

/-- `alloc` on a heap with the block list `bs`. -/
theorem wp_alloc (h : HeapInv a s bs own) (ha : Ready a) (layout : Layout) :
    wp (a.alloc layout)
      (fun p m' => ∃ pre b post, bs = pre ++ b :: post ∧ Fits layout b ∧
        (∀ c ∈ pre, Rounds layout c ∧ ¬ Fits layout c) ∧ p = dataStart b.start layout ∧
        m' = taken s.mem b layout)
      (fun _ _ => False)
      (fun p => (∀ pre b post, bs = pre ++ b :: post → (∀ c ∈ pre, Rounds layout c) →
          ¬ Fits layout b) ∧
        ((∀ c ∈ bs, Rounds layout c) → p = .explicit "kernel ran out of memory") ∧
        p ≠ .diverges) s.mem := by
  rw [LinkedListAllocator.alloc, ha.head_eq]
  exact allocFrom_spec h.seg (length_le_of_seg h.seg h.sized) ha.start_pos ha.end_lt

/-- **An allocation keeps the invariant.** -/
theorem alloc (h : HeapInv a s bs own) (ha : Ready a) {layout : Layout} {p : ℕ} {m' : Mem}
    (hok : a.alloc layout s.mem = .ok p m') :
    ∃ bs' own', HeapInv a ⟨m', (p, layout) :: s.live⟩ bs' own' := by
  obtain ⟨pre, b, post, rfl, hfit, -, rfl, rfl⟩ := wp_of_ok (h.wp_alloc ha layout) hok
  exact ⟨_, _, h.take ha hfit⟩

/-- What `dealloc` does to memory: one flag changes. -/
theorem dealloc_eq (h : HeapInv a s bs own) (ha : Ready a) {x : (ℕ × Layout) × Block}
    (hx : x ∈ own) :
    a.dealloc x.1.1 x.1.2 s.mem = .ok () (writeFree x.2.start true s.mem) := by
  obtain ⟨hmem, hown⟩ := h.owns x hx
  have hbehind := hown.behind
  have hinside := hown.inside
  have hfin := h.fin_lt ha hmem
  have hstart := (h.seg.bounds x.2 hmem).1
  have hpos := ha.start_pos
  simp only [headerSize, wordSize] at hbehind
  have hptr : LinkedListAllocator.byteSub x.1.1 wordSize = x.1.1 - wordSize := by
    simp only [LinkedListAllocator.byteSub, wordSize]
    omega
  have hheader : LinkedListAllocator.byteSub x.1.1 (x.1.1 - x.2.start) = x.2.start := by
    simp only [LinkedListAllocator.byteSub]
    omega
  have hne : x.1.1 - wordSize ≠ 0 := by simp only [wordSize]; omega
  have hne' : x.2.start ≠ 0 := by omega
  rw [LinkedListAllocator.dealloc, hptr, if_neg hne, bind_run_of_ok (gets_run _), hown.back,
    hheader, if_neg hne', modify_run]

/-- Marking one block of the list. -/
theorem map_freed {pre post : List Block} {b : Block} (h : HeapInv a s (pre ++ b :: post) own) :
    (pre ++ b :: post).map (freed b) = pre ++ ⟨b.start, b.sz, true⟩ :: post := by
  have hsz := h.sized b (by simp)
  simp only [headerSize] at hsz
  have hpw := List.pairwise_append.mp h.seg.pairwise
  have hpre : ∀ c ∈ pre, freed b c = c := by
    intro c hc
    refine freed_of_ne ?_
    rintro rfl
    have := hpw.2.2 c hc c List.mem_cons_self
    simp only [Block.fin] at this
    omega
  have hpost : ∀ c ∈ post, freed b c = c := by
    intro c hc
    refine freed_of_ne ?_
    rintro rfl
    have := (List.pairwise_cons.mp hpw.2.1).1 c hc
    simp only [Block.fin] at this
    omega
  rw [List.map_append, List.map_cons, List.map_congr_left hpre, List.map_congr_left hpost]
  simp [freed]

theorem seg_freed (h : HeapInv a s bs own) {b : Block} (hb : b ∈ bs) :
    Seg (writeFree b.start true s.mem) a.startAddr a.endAddr none (bs.map (freed b)) := by
  have hsz := h.sized b hb
  simp only [headerSize] at hsz
  obtain ⟨pre, post, rfl⟩ := List.append_of_mem hb
  rw [h.map_freed, ← List.singleton_append]
  refine h.seg.replace h.sized (fun x hx => writeFree_of_ne ?_) fun nx hr => ?_
  · simp only [Block.fin] at hx
    omega
  · exact .one (by rw [readHeader_writeFree, hr])

/-- Giving one live allocation back keeps the invariant: the others sit in other
blocks. -/
theorem give {x : (ℕ × Layout) × Block} (own₁ own₂ : List ((ℕ × Layout) × Block))
    (h : HeapInv a s bs (own₁ ++ x :: own₂)) :
    HeapInv a ⟨writeFree x.2.start true s.mem, (own₁ ++ own₂).map Prod.fst⟩
      (bs.map (freed x.2)) (own₁ ++ own₂) := by
  obtain ⟨hbmem, hown⟩ := h.owns x (by simp)
  have hne : ∀ y ∈ own₁ ++ own₂, y.2 ≠ x.2 := by
    intro y hy heqy
    have hd := h.distinct
    rw [List.map_append, List.map_cons, List.nodup_append, List.nodup_cons] at hd
    rcases List.mem_append.mp hy with hy | hy
    · exact hd.2.2 y.2 (List.mem_map_of_mem hy) x.2 List.mem_cons_self heqy
    · exact hd.2.1.1 (heqy ▸ List.mem_map_of_mem hy)
  have hsub : ∀ y ∈ own₁ ++ own₂, y ∈ own₁ ++ x :: own₂ := by
    intro y hy
    rcases List.mem_append.mp hy with hy | hy
    · exact List.mem_append_left _ hy
    · exact List.mem_append_right _ (List.mem_cons_of_mem _ hy)
  refine ⟨h.seg_freed hbmem, ?_, ?_, rfl, ?_, ?_⟩
  · intro c hc
    obtain ⟨d, hd, rfl⟩ := List.mem_map.mp hc
    simpa using h.sized d hd
  · intro c hc
    obtain ⟨d, hd, rfl⟩ := List.mem_map.mp hc
    simpa using h.aligned d hd
  · intro y hy
    obtain ⟨hymem, hyown⟩ := h.owns y (hsub y hy)
    refine ⟨List.mem_map.mpr ⟨y.2, hymem, freed_of_ne (hne y hy)⟩, hyown.frame fun z hz hz' => ?_⟩
    refine writeFree_of_ne ?_
    have hsz := h.sized x.2 hbmem
    have hin := hyown.inside
    rcases h.seg.apart hymem hbmem (hne y hy) with hap | hap <;>
      simp only [Block.fin, headerSize] at * <;> omega
  · refine h.distinct.sublist ?_
    simp [List.map_append]

/-- **A deallocation keeps the invariant.** -/
theorem dealloc (h : HeapInv a s bs own) (ha : Ready a) {p : ℕ} {layout : Layout}
    {before after : List (ℕ × Layout)} {m' : Mem}
    (hlive : s.live = before ++ (p, layout) :: after)
    (hok : a.dealloc p layout s.mem = .ok () m') :
    ∃ bs' own', HeapInv a ⟨m', before ++ after⟩ bs' own' := by
  obtain ⟨own₁, own₂', rfl, hown₁, hrest⟩ := List.map_eq_append_iff.mp (h.live.trans hlive)
  obtain ⟨x, own₂, rfl, hx, hown₂⟩ := List.map_eq_cons_iff.mp hrest
  have heq := h.dealloc_eq ha (x := x) (by simp)
  rw [hx, hok] at heq
  injection heq with _ heq
  have hgive := give own₁ own₂ h
  rw [← heq, List.map_append, hown₁, hown₂] at hgive
  exact ⟨_, _, hgive⟩

/-- **A client's store keeps the invariant**: it changes no header and no back offset
word. -/
theorem write (h : HeapInv a s bs own) {x : ℕ × Layout} (hx : x ∈ s.live) {y : ℕ} {v : UInt8}
    (hy : x.1 ≤ y) (hy' : y < x.1 + x.2.size) :
    HeapInv a ⟨Function.update s.mem y v, s.live⟩ bs own := by
  obtain ⟨w, hw, rfl⟩ : ∃ w ∈ own, w.1 = x := by
    rw [← h.live] at hx
    simpa using hx
  obtain ⟨hwmem, hwown⟩ := h.owns w hw
  have hbehind := hwown.behind
  have hinside := hwown.inside
  have hupd : ∀ z, z ≠ y → Function.update s.mem y v z = s.mem z :=
    fun z hz => Function.update_of_ne hz _ _
  refine ⟨h.seg.frame fun b hb => ?_, h.sized, h.aligned, h.live, fun z hz => ?_, h.distinct⟩
  · refine readHeader_congr fun z hz hz' => hupd z ?_
    have hsz := h.sized b hb
    by_cases hbw : b = w.2
    · subst hbw
      omega
    · rcases h.seg.apart hb hwmem hbw with hap | hap <;>
        simp only [Block.fin, headerSize, wordSize] at * <;> omega
  · obtain ⟨hzmem, hzown⟩ := h.owns z hz
    refine ⟨hzmem, hzown.frame fun u hu hu' => hupd u ?_⟩
    by_cases hzw : z.2 = w.2
    · have hzw' : z = w := List.inj_on_of_nodup_map h.distinct hz hw hzw
      subst hzw'
      omega
    · have hzin := hzown.inside
      rcases h.seg.apart hzmem hwmem hzw with hap | hap <;>
        simp only [Block.fin, headerSize, wordSize] at * <;> omega

/-- Every step of a heap keeps the invariant. -/
theorem step (h : HeapInv a s bs own) (ha : Ready a) {s' : HeapState} (hs : Step a s s') :
    ∃ bs' own', HeapInv a s' bs' own' := by
  cases hs with
  | alloc hok => exact h.alloc ha hok
  | dealloc hlive hok => exact h.dealloc ha hlive hok
  | write hlive hx hx' => exact ⟨bs, own, h.write hlive hx hx'⟩

end HeapInv

/-- `new` makes a single free block. -/
theorem new_inv {startAddr endAddr : ℕ} {m₀ m : Mem} {a : LinkedListAllocator}
    (hstart : startAddr % 8 = 0) (hend : endAddr < 2 ^ 64)
    (hnew : LinkedListAllocator.new startAddr endAddr m₀ = .ok a m) :
    Ready a ∧ HeapInv a ⟨m, []⟩ [⟨startAddr, endAddr - startAddr, true⟩] [] := by
  have hwp : wp (LinkedListAllocator.new startAddr endAddr)
      (fun a m => Ready a ∧ HeapInv a ⟨m, []⟩ [⟨startAddr, endAddr - startAddr, true⟩] [])
      (fun _ _ => True) (fun _ => True) m₀ := by
    simp only [LinkedListAllocator.new, wp_bind]
    split
    · simp only [okOr, wp_pure, wp_ite, wp_fail, wp_bind, wp_subUsize, wp_modify]
      refine ⟨fun _ => trivial, fun hfit => ⟨fun _ => trivial, fun hne => ⟨fun _ => ?_,
        fun _ => trivial⟩⟩⟩
      have hhead : headerSize ≤ endAddr - startAddr := by omega
      refine ⟨⟨rfl, by simp only; omega, hend⟩, ⟨?_, ?_, ?_, rfl, by simp, by simp⟩⟩
      · have hspan : endAddr = startAddr + (endAddr - startAddr) := by
          simp only [headerSize] at hhead
          omega
        have hr : readHeader (writeNext startAddr none (writeFree startAddr true
            (writeSz startAddr (endAddr - startAddr) m₀))) startAddr
            = ⟨endAddr - startAddr, true, none⟩ := by
          rw [readHeader_writeNext (by simp), readHeader_writeFree, readHeader_writeSz (by omega)]
        have hseg := Seg.one hr
        rwa [← hspan] at hseg
      · simpa using hhead
      · simpa using hstart
    · simp [okOr]
  have := wp_of_ok hwp hnew
  exact this

/-! ## Safety -/

/-- `[x, x + n)` and `[y, y + k)` do not meet. -/
def RangesApart (x n y k : ℕ) : Prop := x + n ≤ y ∨ y + k ≤ x

/-- **Safety of the heap**: `bs` is the header chain in memory and `own` the block of
each live allocation. -/
structure HeapSafe (a : LinkedListAllocator) (s : HeapState) (bs : List Block)
    (own : List ((ℕ × Layout) × Block)) : Prop where
  /-- The chain from `head` tiles the range: each link is its header plus its size. -/
  tiles : a.head = a.startAddr ∧ Seg s.mem a.head a.endAddr none bs
  /-- The sizes add up to the range. -/
  total : (bs.map Block.sz).sum = a.endAddr - a.startAddr
  /-- `own` lists the live allocations. -/
  live : own.map Prod.fst = s.live
  /-- Each lies in a used block, behind its header and back offset word, aligned. -/
  placed : ∀ x ∈ own, x.2 ∈ bs ∧ x.2.free = false ∧
    x.2.start + headerSize + wordSize ≤ x.1.1 ∧ x.1.1 + x.1.2.size ≤ x.2.fin ∧
    x.1.1 % x.1.2.align = 0
  /-- No two share a block. -/
  distinct : (own.map Prod.snd).Nodup
  /-- The data of live allocations do not overlap. -/
  data_apart : s.live.Pairwise fun x y => RangesApart x.1 x.2.size y.1 y.2.size
  /-- No data overlaps a header. -/
  data_header : ∀ x ∈ s.live, ∀ b ∈ bs, RangesApart x.1 x.2.size b.start headerSize
  /-- No data overlaps a back offset word. -/
  data_back : ∀ x ∈ s.live, ∀ y ∈ s.live,
    RangesApart x.1 x.2.size (y.1 - wordSize) wordSize

theorem HeapInv.safe {a : LinkedListAllocator} {s : HeapState} {bs : List Block}
    {own : List ((ℕ × Layout) × Block)} (h : HeapInv a s bs own) (ha : Ready a) :
    HeapSafe a s bs own := by
  have hlive : ∀ x ∈ s.live, ∃ w ∈ own, w.1 = x := by
    intro x hx
    rw [← h.live] at hx
    simpa using hx
  refine ⟨⟨ha.head_eq, ha.head_eq ▸ h.seg⟩, ?_, h.live, ?_, h.distinct, ?_, ?_, ?_⟩
  · have := h.seg.sum_sz
    omega
  · intro x hx
    obtain ⟨hmem, hown⟩ := h.owns x hx
    exact ⟨hmem, hown.used, hown.behind, hown.inside, hown.aligned⟩
  · rw [← h.live, List.pairwise_map]
    refine (List.pairwise_map.mp h.distinct).imp_of_mem fun {x y} hx hy hne => ?_
    obtain ⟨hxmem, hxown⟩ := h.owns x hx
    obtain ⟨hymem, hyown⟩ := h.owns y hy
    have hx1 := hxown.behind
    have hx2 := hxown.inside
    have hy1 := hyown.behind
    have hy2 := hyown.inside
    rcases h.seg.apart hxmem hymem hne with hap | hap <;> simp only [RangesApart] <;> omega
  · intro x hx b hb
    obtain ⟨w, hw, rfl⟩ := hlive x hx
    obtain ⟨hwmem, hwown⟩ := h.owns w hw
    have h1 := hwown.behind
    have h2 := hwown.inside
    have h3 := h.sized b hb
    by_cases hbw : b = w.2
    · subst hbw
      simp only [RangesApart]
      omega
    · rcases h.seg.apart hb hwmem hbw with hap | hap <;>
        simp only [RangesApart, Block.fin] at * <;> omega
  · intro x hx y hy
    obtain ⟨w, hw, rfl⟩ := hlive x hx
    obtain ⟨v, hv, rfl⟩ := hlive y hy
    obtain ⟨hwmem, hwown⟩ := h.owns w hw
    obtain ⟨hvmem, hvown⟩ := h.owns v hv
    have h1 := hwown.behind
    have h2 := hwown.inside
    have h3 := hvown.behind
    have h4 := hvown.inside
    by_cases hwv : w.2 = v.2
    · obtain rfl : w = v := List.inj_on_of_nodup_map h.distinct hw hv hwv
      simp only [RangesApart]
      omega
    · rcases h.seg.apart hwmem hvmem hwv with hap | hap <;> simp only [RangesApart] <;> omega

/-- The invariant holds in every state of every run. -/
theorem Reachable.inv {a : LinkedListAllocator} {m : Mem} {s : HeapState}
    {bs : List Block} (ha : Ready a) (hinit : HeapInv a ⟨m, []⟩ bs []) (hs : Reachable a m s) :
    ∃ bs' own', HeapInv a s bs' own' := by
  induction hs with
  | init => exact ⟨bs, [], hinit⟩
  | step _ hstep ih =>
      obtain ⟨bs', own', hinv⟩ := ih
      exact hinv.step ha hstep

/-- **The kernel heap is safe in every run**, and a deallocation changes the flag of
the block that holds the pointer and nothing else. -/
theorem heap_safe {startAddr endAddr : ℕ} {m₀ m : Mem} {a : LinkedListAllocator}
    {s : HeapState} (hstart : startAddr % 8 = 0) (hend : endAddr < 2 ^ 64)
    (hnew : LinkedListAllocator.new startAddr endAddr m₀ = .ok a m) (hs : Reachable a m s) :
    ∃ bs own, HeapSafe a s bs own ∧ ∀ x ∈ own, ∃ m',
      a.dealloc x.1.1 x.1.2 s.mem = .ok () m' ∧
      Seg m' a.head a.endAddr none (bs.map (freed x.2)) ∧
      ∀ y, y ≠ x.2.start + 8 → m' y = s.mem y := by
  obtain ⟨ha, hinit⟩ := new_inv hstart hend hnew
  obtain ⟨bs, own, hinv⟩ := hs.inv ha hinit
  refine ⟨bs, own, hinv.safe ha, fun x hx => ?_⟩
  refine ⟨writeFree x.2.start true s.mem, hinv.dealloc_eq ha hx, ?_, fun y hy => writeFree_of_ne hy⟩
  rw [ha.head_eq]
  exact hinv.seg_freed (hinv.owns x hx).1

/-- A heap of one page after an allocation of 24 bytes aligned to 16. -/
theorem heap_safe_after_alloc : ∃ a m s, LinkedListAllocator.new 4096 8192 (fun _ => 0) = .ok a m ∧
    Reachable a m s ∧ s.live ≠ [] ∧ ∃ bs own, HeapSafe a s bs own := by
  let layout : Layout := ⟨24, 16, ⟨4, rfl⟩, by norm_num⟩
  obtain ⟨a, m, hnew, p, m', halloc⟩ : ∃ a m, LinkedListAllocator.new 4096 8192 (fun _ => 0)
      = .ok a m ∧ ∃ p m', a.alloc layout m = .ok p m' :=
    ⟨_, _, rfl, Outcome.exists_of_isOk (by decide +kernel)⟩
  have hreach : Reachable a m ⟨m', [(p, layout)]⟩ := .step .init (.alloc halloc)
  obtain ⟨bs, own, hsafe, -⟩ := heap_safe (by norm_num) (by norm_num) hnew hreach
  exact ⟨a, m, _, hnew, hreach, by simp, bs, own, hsafe⟩

end Efiks.Kmalloc
