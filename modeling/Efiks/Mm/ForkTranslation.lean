import Efiks.Lib.Checked
import Efiks.Mm.ForkTables

/-!
# What a forked table translates

`ForkPost` says which entries `fork` leaves in both trees. Here it is read as a user of
the tables sees it: which addresses they translate, which bits of a leaf changed, and how
the reference counts grew. The tables may hold leaves of any size at any level.

A leaf that is writable but neither readable nor executable is no leaf any more once it
has lost its write permission, and a count that is full wraps; these are the only ways
in which `fork` is not a copy.

## Main definitions

* `ForkCopies` — the copy translates as the original did.
* `refcount` — the reference count of a frame.
-/
namespace Efiks.Mm
open Lib Lib.RustM PageTableEntry

/-- The reference count of frame `f`; a frame without metadata has none. -/
def refcount (pageMeta : ℕ → Option UInt16) (f : ℕ) : ℕ :=
  (pageMeta (4096 * f)).elim 0 UInt16.toNat

/-- The tables of `r'` in `t` are a copy of those that `r` had in `s`, and those of `r` still
translate as they did. A leaf maps the frame that its entry names. -/
structure ForkCopies (s t : MemState) (r r' : ℕ) : Prop where
  /-- The tables of the copy are newly allocated. -/
  fresh : ∀ p n', tableAt t r' p = some n' → ¬ s.used n' ∧ t.used n'
  /-- There is one for each table of the original. -/
  shape : ∀ p, (tableAt t r' p).isSome = (tableAt s r p).isSome
  distinct : ∀ p q n', tableAt t r' p = some n' → tableAt t r' q = some n' → p = q
  copy_translate : ∀ va, isCanonical va = true →
    PageTable.translate t.mem (4096 * r') va = PageTable.translate s.mem (4096 * r) va
  old_translate : ∀ va, isCanonical va = true →
    PageTable.translate t.mem (4096 * r) va = PageTable.translate s.mem (4096 * r) va
  /-- User leaves lose `W` and no other bit, other leaves nothing. -/
  leaf : ∀ p n, tableAt s r p = some n → ∃ n', tableAt t r' p = some n' ∧
    ∀ i, (s.mem n i).isLeaf = true →
      let e := if (s.mem n i).isUser then (s.mem n i).unsetFlags PteFlags.W else s.mem n i
      t.mem n i = e ∧ t.mem n' i = e
  /-- Counts grow by the number of user leaves that map the frame. -/
  count : ∀ f, refcount t.pageMeta f = refcount s.pageMeta f + (userFrames s.mem 3 r).count f
  other : ∀ a, (∀ f ∈ userFrames s.mem 3 r, a ≠ 4096 * f) → t.pageMeta a = s.pageMeta a

/-! ## Counts -/

section Counts
variable {fs : List ℕ} {m : ℕ → Option UInt16}

/-- Counting the frames of a list, as long as no count is full. -/
theorem refcount_addAll {f : ℕ} (h : refcount m f + fs.count f < 2 ^ 16) :
    refcount (addAll fs m) f = refcount m f + fs.count f := by
  induction fs generalizing m with
  | nil => rfl
  | cons g fs ih =>
      change refcount (addAll fs (Function.update m (4096 * g) _)) f = _
      by_cases hg : g = f
      · subst hg
        rw [List.count_cons_self] at h ⊢
        have hself : refcount (Function.update m (4096 * g) (some (Page.bump (m (4096 * g))))) g
            = refcount m g + 1 := by
          simp only [refcount, Function.update_self, Option.elim_some] at h ⊢
          apply toNat_bump
          omega
        rw [ih (by rw [hself]; omega), hself]
        omega
      · rw [List.count_cons_of_ne hg] at h ⊢
        have hother : refcount (Function.update m (4096 * g) (some (Page.bump (m (4096 * g))))) f
            = refcount m f := by
          rw [refcount, Function.update_of_ne (by omega), refcount]
        rw [ih (by rw [hother]; exact h), hother]

theorem addAll_of_notMem {a : ℕ} (h : ∀ f ∈ fs, a ≠ 4096 * f) : addAll fs m a = m a := by
  induction fs generalizing m with
  | nil => rfl
  | cons g fs ih =>
      change addAll fs (Function.update m (4096 * g) _) a = _
      rw [ih fun f hf => h f (List.mem_cons_of_mem _ hf),
        Function.update_of_ne (h g List.mem_cons_self)]

end Counts

/-! ## Entries -/

section Entries
variable {e : PageTableEntry}

/-- A user leaf is readable or executable. -/
def StaysLeaf (e : PageTableEntry) : Prop :=
  e.isLeaf = true → e.isUser = true → ReadOrExec e

theorem StaysLeaf.isLeaf (h : StaysLeaf e) (hl : e.isLeaf = true) :
    (sharedEntry e).isLeaf = true := by
  by_cases hu : e.isUser = true
  · have huser : IsUserLeaf e := Or.inr ⟨hl, hu, h hl hu⟩
    rcases huser.sharedEntry with hzero | hleaf
    · rw [sharedEntry_eq_zero_iff huser] at hzero
      subst hzero
      exact absurd hl (by decide)
    · exact hleaf.1
  · rwa [sharedEntry_of_not_user (by simpa using hu)]

theorem StaysLeaf.child_eq (h : StaysLeaf e) : child (sharedEntry e) = child e := by
  by_cases hl : e.isLeaf = true
  · rw [child_of_isLeaf hl, child_of_isLeaf (h.isLeaf hl)]
  · rw [sharedEntry_of_not_leaf (by simpa using hl)]

/-- `sharedEntry` of a leaf. -/
theorem sharedEntry_of_isLeaf (hl : e.isLeaf = true) :
    sharedEntry e = if e.isUser then e.unsetFlags PteFlags.W else e := by
  by_cases hu : e.isUser = true
  · rw [if_pos hu]
    by_cases hw : e.isWritable = true
    · exact unsetFlags_sharedEntry hl hu hw
    · -- without the bit there is nothing to clear
      have hsame : sharedEntry e = e := by simp [sharedEntry, hw]
      rw [hsame]
      apply BitVec.eq_of_getLsbD_eq
      intro i hi
      rw [isWritable_eq, Bool.not_eq_true] at hw
      rw [getLsbD_unsetFlags _ _ hi]
      by_cases h2 : i = 2
      · rw [h2, hw, Bool.false_and]
      · rw [getLsbD_W h2, Bool.not_false, Bool.and_true]
  · rw [if_neg hu, sharedEntry_of_not_user (by simpa using hu)]

end Entries

/-! ## Translation -/

section Walk
variable {s t : MemState} {r r' : ℕ}

/-- Every table of `r` has a counterpart under `r'` whose leaves are the shared ones. -/
def Mirrors (s t : MemState) (r r' : ℕ) : Prop :=
  ∀ p n, tableAt s r p = some n → ∃ n', tableAt t r' p = some n' ∧
    ∀ i, child (s.mem n i) = none → t.mem n' i = sharedEntry (s.mem n i)

theorem walk_invalid {n : ℕ} {i : Fin 512} {size : PageSize} {rest : List (Fin 512 × PageSize)}
    (h : (s.mem n i).isValid = false) : PageTable.walk s.mem ((i, size) :: rest) n = none := by
  simp [PageTable.walk, h]

/-- The address in the leaf that a walk ends at. -/
def leafAddress (mem : ℕ → Frame) (x : ℕ × Fin 512 × PageSize) : ℕ × PageSize :=
  ((mem x.1 x.2.1).physicalAddress, x.2.2)

/-- A walk in the copy ends as it does in the original. -/
theorem Mirrors.walk_eq (h : Mirrors s t r r')
    (hstay : ∀ p n i, tableAt s r p = some n → StaysLeaf (s.mem n i))
    (indices : List (Fin 512 × PageSize)) {p : List (Fin 512)} {n n' : ℕ}
    (hn : tableAt s r p = some n) (hn' : tableAt t r' p = some n') :
    (PageTable.walk t.mem indices n').map (leafAddress t.mem)
      = (PageTable.walk s.mem indices n).map (leafAddress s.mem) := by
  induction indices generalizing p n n' with
  | nil => rfl
  | cons x rest ih =>
      obtain ⟨i, size⟩ := x
      obtain ⟨m', hm', hrow⟩ := h p n hn
      obtain rfl : m' = n' := Option.some.inj (hm'.symm.trans hn')
      cases hc : child (s.mem n i) with
      | some x =>
          have hx : tableAt s r (p ++ [i]) = some x := (tableAt_concat hn).trans hc
          obtain ⟨x', hx', -⟩ := h (p ++ [i]) x hx
          have hc' : child (t.mem m' i) = some x' := (tableAt_concat hn').symm.trans hx'
          rw [walk_pointer hc, walk_pointer hc']
          exact ih hx hx'
      | none =>
          have he := hrow i hc
          by_cases hl : (s.mem n i).isLeaf = true
          · have hl' : (t.mem m' i).isLeaf = true := by
              rw [he]
              exact (hstay p n i hn).isLeaf hl
            rw [walk_leaf hl, walk_leaf hl']
            simp only [Option.map_some, leafAddress]
            rw [he, physicalAddress_eq, physicalAddress_eq, ppn_sharedEntry]
          · rw [Bool.not_eq_true] at hl
            have hv : (s.mem n i).isValid = false := by
              by_contra hv
              rw [Bool.not_eq_false] at hv
              rw [child, hv, hl] at hc
              cases hc
            have hv' : (t.mem m' i).isValid = false := by rw [he, sharedEntry_of_not_leaf hl, hv]
            rw [walk_invalid hv, walk_invalid hv']
            rfl

theorem translate_eq_leafAddress (mem : ℕ → Frame) (root va : ℕ) :
    PageTable.translate mem root va
      = ((PageTable.translateToPtePtr mem root va).map (leafAddress mem)).map
          fun x => x.1 + va % x.2.bytes := by
  simp [PageTable.translate, leafAddress, Function.comp_def]

theorem Mirrors.translate_eq (h : Mirrors s t r r')
    (hstay : ∀ p n i, tableAt s r p = some n → StaysLeaf (s.mem n i)) (va : ℕ) :
    PageTable.translate t.mem (4096 * r') va = PageTable.translate s.mem (4096 * r) va := by
  have hroot : tableAt s r [] = some r := rfl
  have hroot' : tableAt t r' [] = some r' := rfl
  simp only [translate_eq_leafAddress, PageTable.translateToPtePtr, mul_pageSize_div]
  rw [h.walk_eq hstay _ hroot hroot']

end Walk

/-! ## The result -/

section Fork
variable {s t : MemState} {r r' : ℕ}

/-- What `fork` leaves is a copy, if every user leaf stays a leaf and no count is full. -/
theorem ForkPost.copies (h : ForkPost s t 2 r r')
    (hstay : ∀ p n i, tableAt s r p = some n → StaysLeaf (s.mem n i))
    (hcount : ∀ f, refcount s.pageMeta f + (userFrames s.mem 3 r).count f < 2 ^ 16) :
    ForkCopies s t r r' := by
  have htab : ∀ p, tableAt t r p = tableAt s r p := nodeAt_congr fun p n hn i => by
    rw [h.old p n hn i, (hstay p n i hn).child_eq]
  have hold : Mirrors s t r r := fun p n hn =>
    ⟨n, (htab p).trans hn, fun i _ => h.old p n hn i⟩
  refine ⟨h.fresh, fun p => ?_, h.inj, fun va _ => Mirrors.translate_eq h.new hstay va,
    fun va _ => hold.translate_eq hstay va, fun p n hn => ?_, fun f => ?_, fun a ha => ?_⟩
  · cases hp : tableAt s r p with
    | none => rw [h.dom p hp]
    | some n =>
        obtain ⟨n', hn', -⟩ := h.new p n hp
        rw [hn']
        rfl
  · obtain ⟨n', hn', hrow⟩ := h.new p n hn
    refine ⟨n', hn', fun i hl => ?_⟩
    simp only
    rw [h.old p n hn i, hrow i (child_of_isLeaf hl), sharedEntry_of_isLeaf hl]
    exact ⟨rfl, rfl⟩
  · rw [h.meta_eq]
    exact refcount_addAll (hcount f)
  · rw [h.meta_eq]
    exact addAll_of_notMem ha

/-- In a copy no user leaf was write-only: it would have become a pointer. -/
theorem ForkCopies.staysLeaf (h : ForkCopies s t r r') {p : List (Fin 512)} {n : ℕ} {i : Fin 512}
    (hn : tableAt s r p = some n) : StaysLeaf (s.mem n i) := by
  intro hl hu
  obtain ⟨n', hn', hrow⟩ := h.leaf p n hn
  have he : t.mem n' i = (s.mem n i).unsetFlags PteFlags.W := by
    have hboth := (hrow i hl).2
    rwa [if_pos hu] at hboth
  by_contra hno
  have hbits : ((s.mem n i).getLsbD 1 || (s.mem n i).getLsbD 3) = false := by
    simpa [ReadOrExec] using hno
  rw [Bool.or_eq_false_iff] at hbits
  have hvalid : (t.mem n' i).isValid = true := by
    rw [he, isValid_eq, getLsbD_unsetFlags _ _ (by norm_num), getLsbD_W (by norm_num),
      Bool.not_false, Bool.and_true, ← isValid_eq]
    exact isValid_of_isLeaf hl
  have hpointer : (t.mem n' i).isLeaf = false := by
    rw [he, isLeaf_eq, getLsbD_unsetFlags _ _ (by norm_num), getLsbD_unsetFlags _ _ (by norm_num),
      getLsbD_unsetFlags _ _ (by norm_num), getLsbD_unsetFlags _ _ (by norm_num), hbits.1, hbits.2]
    simp [PteFlags.W]
  have hsome := h.shape (p ++ [i])
  rw [tableAt_concat hn', tableAt_concat hn, child_of_isLeaf hl, child, hvalid, hpointer] at hsome
  cases hsome

/-- Counts are 16 bits wide. -/
theorem ForkCopies.count_lt (h : ForkCopies s t r r') (f : ℕ) :
    refcount s.pageMeta f + (userFrames s.mem 3 r).count f < 2 ^ 16 := by
  rw [← h.count f, refcount]
  cases t.pageMeta (4096 * f) with
  | none => decide
  | some c => exact c.toNat_lt

end Fork

/-! ## One page -/

/-- A root table in frame 524288 with one user page, mapped with the given flags. -/
def onePageTables (flags : PteFlags) : MemState where
  frames := ⟨2 ^ 31, fun i => if i = 0 then 0b1111 else 0⟩
  pageMeta := fun _ => none
  mem := fun n i =>
    if i ≠ 0 then 0
    else if n = 524288 then newValid.setPhysicalAddress (4096 * 524289)
    else if n = 524289 then newValid.setPhysicalAddress (4096 * 524290)
    else if n = 524290 then leafEntry (4096 * 524291) flags
    else 0

section OnePage
variable {flags : PteFlags} (hflags : flags &&& PteFlags.RWX ≠ 0#8)
include hflags

theorem child_onePageTables (n : ℕ) (i : Fin 512) : child ((onePageTables flags).mem n i) =
    if i = 0 ∧ n = 524288 then some 524289 else if i = 0 ∧ n = 524289 then some 524290 else none := by
  by_cases hi : i = 0
  · subst hi
    by_cases hr : n = 524288
    · subst hr
      exact child_newValid (by norm_num)
    · by_cases h1 : n = 524289
      · subst h1
        exact child_newValid (by norm_num)
      · by_cases h0 : n = 524290
        · subst h0
          exact child_of_isLeaf (leafEntry_isLeaf _ hflags)
        · simp [onePageTables, hr, h1, h0]
  · simp [onePageTables, hi]

/-- The three tables. -/
theorem tableAt_onePageTables {p : List (Fin 512)} {n : ℕ}
    (h : tableAt (onePageTables flags) 524288 p = some n) :
    p = List.replicate p.length 0 ∧ p.length ≤ 2 ∧ n = 524288 + p.length := by
  have hchild := child_onePageTables hflags
  match p with
  | [] =>
      obtain rfl := Option.some.inj h
      simp
  | [i] =>
      rw [tableAt_cons, hchild] at h
      by_cases hi : i = 0
      · subst hi
        obtain rfl : n = 524289 := by simpa [tableAt] using h.symm
        simp
      · simp [hi] at h
  | i :: j :: p =>
      rw [tableAt_cons, hchild] at h
      by_cases hi : i = 0
      · subst hi
        simp only [true_and, if_true, Option.bind_some] at h
        rw [tableAt_cons, hchild] at h
        by_cases hj : j = 0
        · subst hj
          cases p with
          | nil =>
              obtain rfl : n = 524290 := by simpa [tableAt] using h.symm
              simp
          | cons k p => simp [tableAt_cons, hchild] at h
        · simp [hj] at h
      · simp [hi] at h

theorem isTree_onePageTables : IsTree child (onePageTables flags).mem 524288 2 where
  inj p q n hp hq := by
    obtain ⟨hp0, -, hpn⟩ := tableAt_onePageTables hflags hp
    obtain ⟨hq0, -, hqn⟩ := tableAt_onePageTables hflags hq
    have hlen : p.length = q.length := by omega
    rw [hp0, hq0, hlen]
  depth p n hp := (tableAt_onePageTables hflags hp).2.1

theorem used_onePageTables {p : List (Fin 512)} {n : ℕ}
    (h : tableAt (onePageTables flags) 524288 p = some n) : (onePageTables flags).used n := by
  obtain ⟨-, hlen, rfl⟩ := tableAt_onePageTables hflags h
  have hstart : (onePageTables flags).start = 524288 := by
    simp [MemState.start, onePageTables, pageSize]
  have hset : ∀ k < 3, FrameAllocator.isSet
      (⟨2 ^ 31, fun i => if i = 0 then 0b1111 else 0⟩ : FrameAllocator 64) k = true := by decide
  constructor
  · omega
  · rw [hstart, Nat.add_sub_cancel_left]
    exact hset p.length (by omega)

end OnePage

theorem placed_onePageTables (flags : PteFlags) : (onePageTables flags).Placed :=
  ⟨by simp [onePageTables], by simp [onePageTables], by simp [onePageTables]⟩

/-- **`fork` copies the translation and nothing else**, exactly if every user leaf is readable or
executable and no reference count is full. The table is a tree of three levels in allocated
frames, and there is a free frame for each of its tables. -/
theorem fork_copies_iff {s : MemState} {r : ℕ} (fuel : ℕ) (hfuel : 3 ≤ fuel) (hp : s.Placed)
    (htree : IsTree child s.mem r 2) (hu : ∀ p n, tableAt s r p = some n → s.used n)
    (hfree : tableCount s.mem 3 r ≤ s.freeFrames.length) :
    (∃ r' t, PageTable.fork fuel (4096 * r) s = .ok (4096 * r') t ∧ ForkCopies s t r r') ↔
      (∀ p n i, tableAt s r p = some n → (s.mem n i).isLeaf = true → (s.mem n i).isUser = true →
        ReadOrExec (s.mem n i)) ∧
      ∀ f, refcount s.pageMeta f + (userFrames s.mem 3 r).count f < 2 ^ 16 := by
  constructor
  · rintro ⟨r', t, -, hcopies⟩
    exact ⟨fun p n i hn => hcopies.staysLeaf hn, hcopies.count_lt⟩
  · rintro ⟨hstay, hcount⟩
    have henough : ¬ freeCount s.frames < tableCount s.mem (2 + 1) r := by
      rw [← length_freeFrames]
      exact not_lt.mpr hfree
    have hwp := wp_fork_counted (E := fun _ _ => False) (N := fun _ => False) 2 fuel s r
      (fun hfew => absurd hfew henough) (by omega) hp htree hu
      fun p n i hn hc => (StaysLeaf.child_eq (hstay p n i hn)).trans hc
    obtain ⟨pa, t, hrun, r', rfl, hpost, -⟩ := exists_ok_of_wp hwp
    exact ⟨r', t, hrun, hpost.copies hstay hcount⟩

/-- A readable and writable page is copied. -/
theorem fork_copies_iff_onePage : ∃ r' t,
    PageTable.fork 3 (4096 * 524288) (onePageTables (PteFlags.RW ||| PteFlags.U))
      = .ok (4096 * r') t ∧
    ForkCopies (onePageTables (PteFlags.RW ||| PteFlags.U)) t 524288 r' := by
  have hflags : (PteFlags.RW ||| PteFlags.U) &&& PteFlags.RWX ≠ 0#8 := by decide
  have hiff := fork_copies_iff 3 le_rfl (placed_onePageTables _) (isTree_onePageTables hflags)
    (fun p n hn => used_onePageTables hflags hn) (by decide +kernel)
  apply hiff.mpr
  constructor
  · intro p n i hn hl hu
    obtain ⟨-, hlen, rfl⟩ := tableAt_onePageTables hflags hn
    generalize p.length = k at hlen hl hu
    by_cases hi : i = 0
    · subst hi
      interval_cases k
      · exact absurd hl (by decide)
      · exact absurd hl (by decide)
      · simp only [ReadOrExec]
        decide
    · simp [onePageTables, hi] at hl
      exact absurd hl (by decide)
  · intro f
    have hframes : userFrames (onePageTables (PteFlags.RW ||| PteFlags.U)).mem 3 524288
        = [524291] := by decide +kernel
    have hle := List.count_le_length (a := f) (l := [524291])
    simp only [refcount, onePageTables, Option.elim_none] at *
    rw [hframes]
    simp only [List.length_singleton] at hle
    omega

/-- A page that is only writable is not: it becomes a pointer in both trees. -/
theorem writeOnly_not_copied :
    (onePageTables (PteFlags.W ||| PteFlags.U)).Placed ∧
    IsTree child (onePageTables (PteFlags.W ||| PteFlags.U)).mem 524288 2 ∧
    (∀ p n, tableAt (onePageTables (PteFlags.W ||| PteFlags.U)) 524288 p = some n →
      (onePageTables (PteFlags.W ||| PteFlags.U)).used n) ∧
    tableCount (onePageTables (PteFlags.W ||| PteFlags.U)).mem 3 524288
      ≤ (onePageTables (PteFlags.W ||| PteFlags.U)).freeFrames.length ∧
    ¬ ∃ r' t, PageTable.fork 3 (4096 * 524288) (onePageTables (PteFlags.W ||| PteFlags.U))
        = .ok (4096 * r') t ∧
      ForkCopies (onePageTables (PteFlags.W ||| PteFlags.U)) t 524288 r' := by
  have hflags : (PteFlags.W ||| PteFlags.U) &&& PteFlags.RWX ≠ 0#8 := by decide
  refine ⟨placed_onePageTables _, isTree_onePageTables hflags,
    fun p n hn => used_onePageTables hflags hn, by decide +kernel, ?_⟩
  rintro ⟨r', t, -, hcopies⟩
  have htable : tableAt (onePageTables (PteFlags.W ||| PteFlags.U)) 524288 [0, 0] = some 524290 := by
    simp [tableAt, nodeAt_cons, child_onePageTables hflags]
  have hstays : StaysLeaf ((onePageTables (PteFlags.W ||| PteFlags.U)).mem 524290 0) :=
    hcopies.staysLeaf htable
  exact absurd (hstays (by decide) (by decide)) (by simp only [ReadOrExec]; decide)

end Efiks.Mm
