import Efiks.Mm.Faults
import Efiks.Syscall.UserMemory
import Efiks.Tasks.Spawn

/-!
# The initial stack

`create_initial_stack` puts the arguments of a program on the top page of its stack, through the
direct mapping of the kernel. The strings lie one after the other below the old top, the last one
highest; `argc`, the pointers and the null lie at the new stack pointer, which is rounded down on
its own. Both are read back here through the page table of the process.

## Main definitions

* `StackPage` — the page the stack pointer lies in, as `create_user_stack` leaves it.
* `Encoded` — what a program finds on its stack.

## Main results

* `initialStack_encodes` — every list of arguments that fits is encoded.
-/
namespace Efiks.Tasks
open Lib Lib.RustM Mm Exec

/-- The byte user mode finds at `va`. -/
def userByte (sp : Space) (va : ℕ) : Option UInt8 :=
  (PageTable.translate sp.sys.mem sp.mm.rootPt va).map sp.sys.readByte

/-- The eight-byte word user mode finds at `va`. -/
def userWord (sp : Space) (va : ℕ) : Option ℕ :=
  ((List.range 8).mapM fun i => userByte sp (va + i)).map Syscall.ofBytes

/-- User mode finds these bytes from `va` on. -/
def Reads (sp : Space) (va : ℕ) (bytes : List UInt8) : Prop :=
  ∀ i (h : i < bytes.length), userByte sp (va + i) = some bytes[i]

/-- The length of the arguments with their nulls. -/
def stringsLen (argv : List (List UInt8)) : ℕ := (argv.map fun arg => arg.length + 1).sum

/-- The length that `create_initial_stack` checks. -/
def stackLen (argv : List (List UInt8)) : ℕ := stringsLen argv + (1 + argv.length + 1) * 8

/-- What a program finds on its stack when it starts, at `sp` and below the old `top`. -/
structure Encoded (before after : Space) (top sp : ℕ) (argv : List (List UInt8)) (ptrs : List ℕ) :
    Prop where
  aligned : sp % 16 = 0
  page : top / 4096 * 4096 ≤ sp
  argc : userWord after sp = some argv.length
  argv_ptr : ∀ i (h : i < ptrs.length), userWord after (sp + 8 * (1 + i)) = some ptrs[i]
  null : userWord after (sp + 8 * (1 + argv.length)) = some 0
  /-- Every pointer designates its argument, on the same page. -/
  strings : List.Forall₂ (fun ptr arg => Reads after ptr (arg ++ [0]) ∧
    ptr + arg.length + 1 ≤ top) ptrs argv
  /-- The strings lie above the block of pointers, and in order. -/
  above : ∀ ptr ∈ ptrs, sp + 8 * (1 + argv.length + 1) ≤ ptr
  disjoint : (ptrs.zip argv).Pairwise fun x y => x.1 + x.2.length + 1 ≤ y.1
  /-- Nothing else is written. -/
  bytes : ∀ pa, (∀ va, sp ≤ va → va < top →
      PageTable.translate before.sys.mem before.mm.rootPt va ≠ some pa) →
    after.sys.readByte pa = before.sys.readByte pa
  frames : after.sys.frames = before.sys.frames
  pageMeta : after.sys.pageMeta = before.sys.pageMeta
  mm : after.mm = before.mm

/-! ### Bytes of a frame -/

/-- `bytes` were written at offset `o` of frame `f`. -/
structure Wrote (s s' : MemState) (f o : ℕ) (bytes : List UInt8) : Prop where
  frames : s'.frames = s.frames
  pageMeta : s'.pageMeta = s.pageMeta
  mem : ∀ n, n ≠ f → s'.mem n = s.mem n
  byte : ∀ i (h : i < bytes.length), s'.readByte (4096 * f + o + i) = bytes[i]
  other : ∀ x, (∀ i < bytes.length, x ≠ 4096 * f + o + i) → s'.readByte x = s.readByte x

section Wrote
variable {s s' s'' : MemState} {f o o' : ℕ} {bytes bytes' : List UInt8}

theorem Wrote.nil (s : MemState) (f o : ℕ) : Wrote s s f o [] :=
  ⟨rfl, rfl, fun _ _ => rfl, fun _ h => absurd h (Nat.not_lt_zero _), fun _ _ => rfl⟩

/-- One byte more, in front. -/
theorem Wrote.cons {b : UInt8} (ho : o < 4096)
    (h : Wrote (MemState.writeByte (4096 * f + o) b s) s' f (o + 1) bytes) :
    Wrote s s' f o (b :: bytes) where
  frames := h.frames
  pageMeta := h.pageMeta
  mem n hn := by
    have hdiv : (4096 * f + o) / 4096 = f := by omega
    rw [h.mem n hn, MemState.writeByte, hdiv, setFrame_of_ne _ hn]
  byte i hi := by
    cases i with
    | zero =>
        rw [h.other _ (by omega), MemState.readByte_writeByte, if_pos (Nat.add_zero _)]
        rfl
    | succ i =>
        have hi' : i < bytes.length := Nat.lt_of_succ_lt_succ hi
        have heq : 4096 * f + o + (i + 1) = 4096 * f + (o + 1) + i := by omega
        rw [heq, h.byte i hi']
        rfl
  other x hx := by
    rw [List.length_cons] at hx
    have h0 : x ≠ 4096 * f + o := hx 0 (by omega)
    rw [h.other x fun i hi => by have := hx (i + 1) (by omega); omega,
      MemState.readByte_writeByte, if_neg h0]

theorem wrote_writeBytes (s : MemState) (f o : ℕ) (bytes : List UInt8) (h : o + bytes.length ≤ 4096) :
    Wrote s (writeBytes (4096 * f + o) bytes s) f o bytes := by
  have hloop : ∀ (l : List UInt8) (n : ℕ) (t : MemState), o + n + l.length ≤ 4096 →
      Wrote t ((l.zipIdx n).foldl (fun t b => t.writeByte (4096 * f + o + b.2) b.1) t) f (o + n) l := by
    intro l
    induction l with
    | nil => exact fun n t _ => Wrote.nil t f (o + n)
    | cons b l ih =>
        intro n t hl
        rw [List.length_cons] at hl
        exact Wrote.cons (by omega) (by simpa [Nat.add_assoc] using ih (n + 1) _ (by omega))
  exact hloop bytes 0 s h

/-- Two writes next to each other, the higher one first. -/
theorem Wrote.append (h : Wrote s s' f (o + bytes.length) bytes') (h' : Wrote s' s'' f o bytes) :
    Wrote s s'' f o (bytes ++ bytes') where
  frames := h'.frames.trans h.frames
  pageMeta := h'.pageMeta.trans h.pageMeta
  mem n hn := (h'.mem n hn).trans (h.mem n hn)
  byte i hi := by
    rw [List.length_append] at hi
    by_cases hlt : i < bytes.length
    · rw [h'.byte i hlt, List.getElem_append_left hlt]
    · have heq : 4096 * f + o + i = 4096 * f + (o + bytes.length) + (i - bytes.length) := by omega
      rw [h'.other _ (by omega), heq, h.byte _ (by omega), List.getElem_append_right (by omega)]
  other x hx := by
    rw [List.length_append] at hx
    rw [h'.other x fun i hi => hx i (by omega),
      h.other x fun i hi => by have := hx (bytes.length + i) (by omega); omega]

end Wrote

/-! ### Reading back -/

section Reads
variable {sp : Space} {va : ℕ} {a b : List UInt8}

theorem reads_append : Reads sp va (a ++ b) ↔ Reads sp va a ∧ Reads sp (va + a.length) b := by
  constructor
  · intro h
    refine ⟨fun i hi => ?_, fun i hi => ?_⟩
    · rw [h i (by rw [List.length_append]; omega), List.getElem_append_left hi]
    · have := h (a.length + i) (by rw [List.length_append]; omega)
      rw [List.getElem_append_right (by omega)] at this
      simpa [Nat.add_assoc] using this
  · rintro ⟨ha, hb⟩ i hi
    rw [List.length_append] at hi
    by_cases hlt : i < a.length
    · rw [ha i hlt, List.getElem_append_left hlt]
    · have heq : va + i = va + a.length + (i - a.length) := by omega
      rw [heq, hb _ (by omega), List.getElem_append_right (by omega)]

/-- The bytes of a word, in the order of memory. -/
def wordBytes (w : ℕ) : List UInt8 := (List.range 8).map (wordByte (BitVec.ofNat 64 w))

theorem length_wordBytes (w : ℕ) : (wordBytes w).length = 8 := by simp [wordBytes]

theorem toNat_wordByte (w i : ℕ) : (wordByte (BitVec.ofNat 64 w) i).toNat =
    w % 2 ^ 64 / 2 ^ (8 * i) % 256 := by
  simp [wordByte, Nat.shiftRight_eq_div_pow]

theorem Reads.userWord_eq {w : ℕ} (h : Reads sp va (wordBytes w)) (hw : w < 2 ^ 64) :
    userWord sp va = some w := by
  have hbyte : ∀ i < 8, userByte sp (va + i) = some (wordByte (BitVec.ofNat 64 w) i) := by
    intro i hi
    rw [h i (by rwa [length_wordBytes])]
    simp [wordBytes]
  have hrange : List.range 8 = [0, 1, 2, 3, 4, 5, 6, 7] := rfl
  unfold userWord
  rw [hrange]
  simp only [List.mapM_cons, List.mapM_nil, hbyte _ (by omega : 0 < 8), hbyte _ (by omega : 1 < 8),
    hbyte _ (by omega : 2 < 8), hbyte _ (by omega : 3 < 8), hbyte _ (by omega : 4 < 8),
    hbyte _ (by omega : 5 < 8), hbyte _ (by omega : 6 < 8), hbyte _ (by omega : 7 < 8)]
  simp only [Option.pure_def, Option.bind_eq_bind, Option.bind_some, Option.map_some, Syscall.ofBytes,
    toNat_wordByte]
  congr 1
  omega

/-- Words one after the other. -/
theorem Reads.userWords {words : List ℕ} (h : Reads sp va (words.flatMap wordBytes))
    (hw : ∀ w ∈ words, w < 2 ^ 64) (k : ℕ) (hk : k < words.length) :
    userWord sp (va + 8 * k) = some words[k] := by
  induction words generalizing va k with
  | nil => exact absurd hk (Nat.not_lt_zero _)
  | cons w words ih =>
      rw [List.flatMap_cons, reads_append, length_wordBytes] at h
      cases k with
      | zero => exact h.1.userWord_eq (hw w List.mem_cons_self)
      | succ k =>
          have hrest := ih h.2 (fun x hx => hw x (List.mem_cons_of_mem _ hx)) k
            (Nat.lt_of_succ_lt_succ hk)
          rw [List.getElem_cons_succ, ← hrest]
          congr 1
          omega

end Reads

/-! ### The page of the stack -/

/-- The page of `top` is mapped to frame `f`, which is no table of the space. -/
structure StackPage (sp : Space) (top f : ℕ) : Prop where
  root : sp.mm.rootPt = 4096 * sp.mm.rootFrame
  shape : Shape sp.sys sp.mm.rootFrame
  lower : top < 2 ^ 38
  mapped : pteAt sp.sys sp.mm.rootFrame (vpn top) ≠ 0
  ppn : (pteAt sp.sys sp.mm.rootFrame (vpn top)).ppn = f
  table : ∀ path, tableAt sp.sys sp.mm.rootFrame path ≠ some f
  bound : f < 2 ^ 20 + 4096

section Page
variable {s s' : MemState} {mm : MemoryManager} {top f o va : ℕ} {bytes : List UInt8}

theorem StackPage.translate_eq (h : StackPage ⟨s, mm⟩ top f) (hva : va / 4096 = top / 4096) :
    PageTable.translate s.mem mm.rootPt va = some (4096 * f + va % 4096) := by
  have htop := h.lower
  have hlow : va < 2 ^ 38 := by omega
  have hroot : mm.rootPt = 4096 * mm.rootFrame := h.root
  have hvpn : vpn va = vpn top := (vpn_eq_iff hlow htop).mpr hva
  have hmapped : pteAt s mm.rootFrame (vpn top) ≠ 0 := h.mapped
  have hppn : (pteAt s mm.rootFrame (vpn top)).ppn = f := h.ppn
  rw [hroot, Mm.translate_eq h.shape hlow, hvpn, if_neg hmapped, hppn]

/-- Writing to the stack leaves its page where it is. -/
theorem StackPage.wrote (h : StackPage ⟨s, mm⟩ top f) (hw : Wrote s s' f o bytes) :
    StackPage ⟨s', mm⟩ top f := by
  have hmem : ∀ path n, tableAt s mm.rootFrame path = some n → s'.mem n = s.mem n :=
    fun path n hn => hw.mem n fun hnf => h.table path (hnf ▸ hn)
  have hpte : pteAt s' mm.rootFrame (vpn top) = pteAt s mm.rootFrame (vpn top) := pteAt_congr hmem _
  have hused : ∀ n, s.used n → s'.used n := by
    intro n hn
    unfold MemState.used MemState.start at hn ⊢
    rwa [hw.frames]
  refine ⟨h.root, h.shape.congr hmem fun path n hn => hused n (h.shape.used path n hn), h.lower, ?_, ?_,
    fun path hn => h.table path ((tableAt_congr hmem path).symm.trans hn), h.bound⟩
  · exact fun h0 => h.mapped (hpte.symm.trans h0)
  · exact (congrArg PageTableEntry.ppn hpte).trans h.ppn

theorem StackPage.userByte_eq (h : StackPage ⟨s, mm⟩ top f) (hva : va / 4096 = top / 4096) :
    userByte ⟨s, mm⟩ va = some (s.readByte (4096 * f + va % 4096)) := by
  rw [userByte, h.translate_eq hva]
  rfl

/-- The direct mapping of an address of the page, counted from the top. -/
theorem StackPage.offset_run (h : StackPage ⟨s, mm⟩ top f) (hva : va / 4096 = top / 4096) :
    offsetBy (physToVirt (4096 * f + top % 4096)) ((va : ℤ) - top) =
      some (physToVirt (4096 * f + va % 4096)) := by
  have hb := h.bound
  unfold offsetBy physToVirt kernelDirectMappingBase
  rw [if_pos (by omega)]
  congr 1
  omega

end Page

/-! ### The arguments -/

/-- The addresses of the arguments below `top`. -/
def argPtrs (top : ℕ) : List (List UInt8) → List ℕ
  | [] => []
  | arg :: argv => (top - stringsLen (arg :: argv)) :: argPtrs top argv

/-- The arguments with their nulls, one after the other. -/
def strings (argv : List (List UInt8)) : List UInt8 := argv.flatMap (· ++ [0])

section Args
variable {s : MemState} {mm : MemoryManager} {top f : ℕ} {argv : List (List UInt8)}

theorem stringsLen_cons (arg : List UInt8) (argv : List (List UInt8)) :
    stringsLen (arg :: argv) = arg.length + 1 + stringsLen argv := by
  simp [stringsLen]

theorem length_strings (argv : List (List UInt8)) : (strings argv).length = stringsLen argv := by
  induction argv with
  | nil => rfl
  | cons arg argv ih =>
      have hcons : strings (arg :: argv) = (arg ++ [0]) ++ strings argv := List.flatMap_cons
      rw [hcons, List.length_append, ih, stringsLen_cons, List.length_append, List.length_singleton]

theorem length_argPtrs (top : ℕ) (argv : List (List UInt8)) :
    (argPtrs top argv).length = argv.length := by
  induction argv with
  | nil => rfl
  | cons arg argv ih => rw [argPtrs, List.length_cons, ih, List.length_cons]

theorem argPtrs_ge (h : stringsLen argv ≤ top) :
    ∀ ptr ∈ argPtrs top argv, top - stringsLen argv ≤ ptr ∧ ptr ≤ top := by
  induction argv with
  | nil => exact fun ptr h => absurd h List.not_mem_nil
  | cons arg argv ih =>
      rw [stringsLen_cons] at h ⊢
      intro ptr hptr
      rcases List.mem_cons.mp hptr with rfl | hptr
      · rw [stringsLen_cons]
        omega
      · have := ih (by omega) ptr hptr
        omega

/-- One argument goes below those that are there. -/
theorem pushArg_run (h : StackPage ⟨s, mm⟩ top f) {arg : List UInt8} {cursor : ℕ} (ptrs : List ℕ)
    (hpage : top / 4096 * 4096 + (arg.length + 1) ≤ cursor) (hle : cursor ≤ top) :
    ∃ s', pushArg top (physToVirt (4096 * f + top % 4096)) (cursor, ptrs) arg ⟨s, mm⟩ =
        .ok (cursor - (arg.length + 1), (cursor - (arg.length + 1)) :: ptrs) ⟨s', mm⟩ ∧
      Wrote s s' f ((cursor - (arg.length + 1)) % 4096) (arg ++ [0]) := by
  have htop := h.lower
  have hback : offsetBy cursor (-((arg.length + 1 : ℕ) : ℤ)) = some (cursor - (arg.length + 1)) := by
    unfold offsetBy
    rw [if_pos (by omega)]
    congr 1
    omega
  have hva : (cursor - (arg.length + 1)) / 4096 = top / 4096 := by omega
  have hphys : virtToPhys (physToVirt (4096 * f + (cursor - (arg.length + 1)) % 4096)) =
      4096 * f + (cursor - (arg.length + 1)) % 4096 := by
    unfold virtToPhys physToVirt
    omega
  have hptr : kernelPtr (physToVirt (4096 * f + (cursor - (arg.length + 1)) % 4096)) 1 ⟨s, mm⟩ =
      .ok (physToVirt (4096 * f + (cursor - (arg.length + 1)) % 4096)) ⟨s, mm⟩ := by
    rw [kernelPtr, if_pos ⟨by unfold physToVirt kernelDirectMappingBase; omega, Nat.mod_one _⟩, pure_run]
  refine ⟨writeBytes (4096 * f + (cursor - (arg.length + 1)) % 4096) (arg ++ [0]) s, ?_,
    wrote_writeBytes s f _ _ ?_⟩
  · rw [pushArg, bind_run_of_ok (okOr_run hback _), bind_run_of_ok (okOr_run (h.offset_run hva) _),
      bind_run_of_ok hptr, hphys]
    rfl
  · rw [List.length_append, List.length_singleton]
    omega

/-- The loop writes the strings below `top`, the last one first. -/
theorem pushArgs_run (h : StackPage ⟨s, mm⟩ top f) (argv : List (List UInt8))
    (hfits : top / 4096 * 4096 + stringsLen argv ≤ top) :
    ∃ s', foldM (pushArg top (physToVirt (4096 * f + top % 4096))) argv.reverse (top, []) ⟨s, mm⟩ =
        .ok (top - stringsLen argv, argPtrs top argv) ⟨s', mm⟩ ∧
      Wrote s s' f ((top - stringsLen argv) % 4096) (strings argv) := by
  induction argv with
  | nil => exact ⟨s, rfl, Wrote.nil s f _⟩
  | cons arg argv ih =>
      rw [stringsLen_cons] at hfits
      obtain ⟨s₁, hrun, hw⟩ := ih (by omega)
      have hpage : top / 4096 * 4096 + (arg.length + 1) ≤ top - stringsLen argv := by omega
      obtain ⟨s₂, hpush, hw'⟩ := pushArg_run (h.wrote hw) (argPtrs top argv) hpage (Nat.sub_le _ _)
      have hcur : top - stringsLen argv - (arg.length + 1) = top - stringsLen (arg :: argv) := by
        rw [stringsLen_cons]
        omega
      rw [hcur] at hpush hw'
      refine ⟨s₂, ?_, Wrote.append ?_ hw'⟩
      · rw [List.reverse_cons, foldM_append_run hrun, foldM, bind_run_of_ok hpush]
        rfl
      · have hoff : (top - stringsLen (arg :: argv)) % 4096 + (arg ++ [0]).length =
            (top - stringsLen argv) % 4096 := by
          rw [stringsLen_cons, List.length_append, List.length_singleton]
          omega
        rwa [hoff]

/-- The stack pointer of the program. -/
def finalSp (top : ℕ) (argv : List (List UInt8)) : ℕ := (top - stackLen argv) / 16 * 16

/-- `argc`, the pointers and the null. -/
def frameWords (top : ℕ) (argv : List (List UInt8)) : List ℕ :=
  argv.length :: argPtrs top argv ++ [0]

theorem length_frameWords (top : ℕ) (argv : List (List UInt8)) :
    (frameWords top argv).length = 1 + argv.length + 1 := by
  simp only [frameWords, List.length_append, List.length_cons, length_argPtrs, List.length_nil]
  omega

theorem length_flatMap_wordBytes (words : List ℕ) :
    (words.flatMap wordBytes).length = 8 * words.length := by
  induction words with
  | nil => rfl
  | cons w words ih =>
      rw [List.flatMap_cons, List.length_append, ih, length_wordBytes, List.length_cons]
      omega

/-- **`create_initial_stack`** writes the strings, and then the block at the new stack pointer. -/
theorem createInitialStack_run (h : StackPage ⟨s, mm⟩ top f) (hfits : stackLen argv ≤ top % 4096) :
    ∃ s₁ s', createInitialStack top argv ⟨s, mm⟩ = .ok (finalSp top argv) ⟨s', mm⟩ ∧
      Wrote s s₁ f ((top - stringsLen argv) % 4096) (strings argv) ∧
      Wrote s₁ s' f (finalSp top argv % 4096) ((frameWords top argv).flatMap wordBytes) := by
  have htop := h.lower
  have hlen : stackLen argv = stringsLen argv + (1 + argv.length + 1) * 8 := rfl
  have hfinal : finalSp top argv = (top - stackLen argv) / 16 * 16 := rfl
  have hpage : alignDown top pageSize = top / 4096 * 4096 :=
    maskDown_two_pow (k := 12) (by omega) (by norm_num)
  have hback : offsetBy top (-(stackLen argv : ℤ)) = some (top - stackLen argv) := by
    unfold offsetBy
    rw [if_pos (by omega)]
    congr 1
    omega
  have halign : alignDown (top - stackLen argv) 16 = finalSp top argv :=
    maskDown_two_pow (k := 4) (by omega) (by norm_num)
  have hva : finalSp top argv / 4096 = top / 4096 := by omega
  have hfound : MemoryManager.translate top ⟨s, mm⟩ = .ok (some (4096 * f + top % 4096)) ⟨s, mm⟩ := by
    rw [MemoryManager.translate, virtualAddress,
      bind_run_of_ok (assert_run (isCanonical_of_lower htop) _), gets_run, h.translate_eq rfl]
  obtain ⟨s₁, hargs, hw⟩ := pushArgs_run h argv (by omega)
  have hphys : virtToPhys (physToVirt (4096 * f + finalSp top argv % 4096)) =
      4096 * f + finalSp top argv % 4096 := by
    unfold virtToPhys physToVirt
    omega
  have hptr : kernelPtr (physToVirt (4096 * f + finalSp top argv % 4096)) 8 ⟨s₁, mm⟩ =
      .ok (physToVirt (4096 * f + finalSp top argv % 4096)) ⟨s₁, mm⟩ := by
    have haligned : physToVirt (4096 * f + finalSp top argv % 4096) % 8 = 0 := by
      unfold physToVirt kernelDirectMappingBase
      omega
    rw [kernelPtr, if_pos ⟨by unfold physToVirt kernelDirectMappingBase; omega, haligned⟩, pure_run]
  refine ⟨s₁, writeBytes (4096 * f + finalSp top argv % 4096)
    ((frameWords top argv).flatMap wordBytes) s₁, ?_, hw, wrote_writeBytes s₁ f _ _ ?_⟩
  · have hfits' : decide (stackLen argv ≤ top - top / 4096 * 4096) = true := decide_eq_true (by omega)
    have hstart : decide (top / 4096 * 4096 ≤ finalSp top argv) = true := decide_eq_true (by omega)
    have hsum : (argv.map fun arg => arg.length + 1).sum + (1 + argv.length + 1) * 8 =
        stackLen argv := rfl
    rw [createInitialStack, bind_run_of_ok hfound, bind_run_of_ok (expect_run (Option.map_some ..) _)]
    simp only [hsum, hpage]
    rw [bind_run_of_ok (assert_run hfits' _), bind_run_of_ok (okOr_run hback _), halign,
      bind_run_of_ok (assert_run hstart _), bind_run_of_ok hargs,
      bind_run_of_ok (okOr_run (h.offset_run hva) _), bind_run_of_ok hptr, writeWords, hphys]
    rfl
  · rw [length_flatMap_wordBytes, length_frameWords]
    omega

/-- The pointers designate the strings. -/
theorem forall₂_argPtrs {sp : Space} (hle : stringsLen argv ≤ top)
    (h : Reads sp (top - stringsLen argv) (strings argv)) :
    List.Forall₂ (fun ptr arg => Reads sp ptr (arg ++ [0]) ∧ ptr + arg.length + 1 ≤ top)
      (argPtrs top argv) argv := by
  induction argv with
  | nil => exact List.Forall₂.nil
  | cons arg argv ih =>
      have hcons : strings (arg :: argv) = (arg ++ [0]) ++ strings argv := List.flatMap_cons
      rw [hcons, reads_append] at h
      have hlen := stringsLen_cons arg argv
      have hnext : top - stringsLen (arg :: argv) + (arg ++ [0]).length = top - stringsLen argv := by
        rw [List.length_append, List.length_singleton]
        omega
      rw [hnext] at h
      exact List.Forall₂.cons ⟨h.1, by omega⟩ (ih (by omega) h.2)

theorem pairwise_argPtrs (hle : stringsLen argv ≤ top) :
    ((argPtrs top argv).zip argv).Pairwise fun x y => x.1 + x.2.length + 1 ≤ y.1 := by
  induction argv with
  | nil => exact List.Pairwise.nil
  | cons arg argv ih =>
      have hlen := stringsLen_cons arg argv
      refine List.Pairwise.cons ?_ (ih (by omega))
      intro y hy
      have hge := argPtrs_ge (by omega : stringsLen argv ≤ top) y.1 (List.of_mem_zip hy).1
      dsimp only
      omega

/-- The two writes encode the arguments. -/
theorem StackPage.encoded {s₁ s' : MemState} (h : StackPage ⟨s, mm⟩ top f)
    (hfits : stackLen argv ≤ top % 4096)
    (hw : Wrote s s₁ f ((top - stringsLen argv) % 4096) (strings argv))
    (hw' : Wrote s₁ s' f (finalSp top argv % 4096) ((frameWords top argv).flatMap wordBytes)) :
    Encoded ⟨s, mm⟩ ⟨s', mm⟩ top (finalSp top argv) argv (argPtrs top argv) := by
  have htop := h.lower
  have hlen : stackLen argv = stringsLen argv + (1 + argv.length + 1) * 8 := rfl
  have hfinal : finalSp top argv = (top - stackLen argv) / 16 * 16 := rfl
  have hsize : ((frameWords top argv).flatMap wordBytes).length = 8 * (1 + argv.length + 1) := by
    rw [length_flatMap_wordBytes, length_frameWords]
  have h' := (h.wrote hw).wrote hw'
  have hblock : Reads ⟨s', mm⟩ (finalSp top argv) ((frameWords top argv).flatMap wordBytes) := by
    intro i hi
    have heq : 4096 * f + (finalSp top argv + i) % 4096 = 4096 * f + finalSp top argv % 4096 + i := by
      omega
    rw [h'.userByte_eq (by omega), heq, hw'.byte i hi]
  have hstrings : Reads ⟨s', mm⟩ (top - stringsLen argv) (strings argv) := by
    intro i hi
    have hi' := hi
    rw [length_strings] at hi'
    have heq : 4096 * f + (top - stringsLen argv + i) % 4096 =
        4096 * f + (top - stringsLen argv) % 4096 + i := by omega
    rw [h'.userByte_eq (by omega), heq, hw'.other _ (by omega), hw.byte i hi]
  have hsmall : ∀ w ∈ frameWords top argv, w < 2 ^ 64 := by
    intro w hw
    simp only [frameWords, List.mem_append, List.mem_cons, List.not_mem_nil, or_false] at hw
    rcases hw with (rfl | hw) | rfl
    · omega
    · have := argPtrs_ge (by omega : stringsLen argv ≤ top) w hw
      omega
    · norm_num
  have hwords := hblock.userWords hsmall
  exact
    { aligned := by omega
      page := by omega
      argc := hwords 0 (by rw [length_frameWords]; omega)
      argv_ptr := by
        intro i hi
        have hlt : i < argv.length := by rwa [length_argPtrs] at hi
        rw [hwords (1 + i) (by rw [length_frameWords]; omega)]
        simp [frameWords, length_argPtrs, hlt, Nat.add_comm 1 i]
      null := by
        rw [hwords (1 + argv.length) (by rw [length_frameWords]; omega)]
        simp [frameWords, length_argPtrs, Nat.add_comm 1 argv.length]
      strings := forall₂_argPtrs (by omega) hstrings
      above := by
        intro ptr hptr
        have := argPtrs_ge (by omega : stringsLen argv ≤ top) ptr hptr
        omega
      disjoint := pairwise_argPtrs (by omega)
      bytes := by
        intro pa hpa
        have hother : ∀ va, finalSp top argv ≤ va → va < top → pa ≠ 4096 * f + va % 4096 := by
          intro va hge hlt heq
          exact hpa va hge hlt (by rw [h.translate_eq (by omega), heq])
        have hs' := hw'.other pa fun i hi => by
          have := hother (finalSp top argv + i) (by omega) (by omega)
          omega
        have hs₁ := hw.other pa fun i hi => by
          rw [length_strings] at hi
          have := hother (top - stringsLen argv + i) (by omega) (by omega)
          omega
        exact hs'.trans hs₁
      frames := hw'.frames.trans hw.frames
      pageMeta := hw'.pageMeta.trans hw.pageMeta
      mm := rfl }

end Args

/-! ### The user stack -/

section UserStack
variable {s : MemState} {mm : MemoryManager}

/-- Code of the allocator does not see the manager. -/
theorem wp_sys_of_forall {α : Type} {m : KM α} {Q : α → Space → Prop} (h : ∀ a t, Q a ⟨t, mm⟩) :
    wp (sys m) Q (fun _ _ => True) (fun _ => True) ⟨s, mm⟩ :=
  (wp_zoom ..).mpr (wp_run ⟨fun a t _ => h a t, fun _ _ _ => trivial, fun _ _ => trivial⟩)

/-- A page that is recorded cannot be mapped again. -/
theorem wp_mapAllocatePage_recorded {va : ℕ} {flags : PteFlags} {Q : ℕ → Space → Prop}
    (hr : RegionsOk mm.regions) {x : VmRegion} (hx : x ∈ mm.regions) (hstart : x.start = va) :
    wp (MemoryManager.mapAllocatePage va flags) Q (fun _ _ => True) (fun _ => True) ⟨s, mm⟩ := by
  have hfound : ∃ i, binarySearch mm.regions va = .ok i := by
    cases hb : binarySearch mm.regions va with
    | ok i => exact ⟨i, rfl⟩
    | error i =>
        obtain ⟨l₁, l₂, hl, -, h₁, h₂⟩ := binarySearch_error hr.sorted hb
        rw [hl, List.mem_append] at hx
        rcases hx with hx | hx
        · exact absurd hstart (h₁ x hx).ne
        · exact absurd hstart (h₂ x hx).ne'
  obtain ⟨i, hi⟩ := hfound
  rw [MemoryManager.mapAllocatePage, wp_bind]
  refine wp_sys_of_forall fun pa t => ?_
  rw [wp_bind]
  refine wp_sys_of_forall fun _ t => ?_
  rw [wp_bind, virtualAddress, wp_assert]
  refine ⟨fun _ => ?_, fun _ => trivial⟩
  rw [wp_bind, wp_gets, wp_bind]
  refine wp_sys_of_forall fun _ t => ?_
  rw [wp_bind]
  cases hend : offsetBy va (pageSize : ℤ) with
  | none =>
      rw [wp_okOr_none]
      trivial
  | some endAddr =>
      rw [wp_okOr_some, wp_bind, MemoryManager.insertMapping, wp_bind, wp_gets]
      simp only [hi, wp_panic]

/-- The page that was just mapped. -/
theorem stackPage_of_pageMapped {s' : MemState} {mm' : MemoryManager} {va f : ℕ} {flags : PteFlags}
    (hp : s.Placed) (hs : SpaceOk ⟨False, False⟩ s mm) (hs' : SpaceOk ⟨False, False⟩ s' mm')
    (hroot : mm'.rootPt = mm.rootPt) (hva : va < 2 ^ 38)
    (hm : PageMapped s s' mm.rootFrame (vpn va) f flags) : StackPage ⟨s', mm'⟩ va f := by
  have hframe : mm'.rootFrame = mm.rootFrame := rootFrame_congr hroot
  have hused : s'.used f := (hm.used f).mpr (Or.inr (Or.inl rfl))
  have hpte : pteAt s' mm'.rootFrame (vpn va) = leafEntry (4096 * f) flags := by
    rw [hframe, hm.pte_self]
  refine ⟨hs'.root, hs'.shape, hva, ?_, ?_, ?_, ((hp.congr hm.addr_eq).range hused).2⟩
  · exact fun h0 => leafEntry_ne_zero _ _ (hpte.symm.trans h0)
  · exact (congrArg PageTableEntry.ppn hpte).trans (ppn_leafEntry hm.bound)
  · intro path hpath
    have hpath : tableAt s' mm.rootFrame path = some f := hframe ▸ hpath
    rcases hm.new path f hpath with hold | ⟨-, hne⟩
    · exact hm.fresh (hs.shape.used path f hold)
    · exact hne rfl

theorem StackPage.same_page {sp : Space} {va top f : ℕ} (h : StackPage sp va f)
    (heq : top / 4096 = va / 4096) : StackPage sp top f := by
  have hva := h.lower
  have hlow : top < 2 ^ 38 := by omega
  have hvpn : vpn top = vpn va := (vpn_eq_iff hlow hva).mpr heq
  exact ⟨h.root, h.shape, hlow, hvpn ▸ h.mapped, hvpn ▸ h.ppn, h.table, h.bound⟩

/-- One page of the stack. -/
theorem wp_stackPage {va : ℕ} (hp : s.Placed) (hs : SpaceOk ⟨False, False⟩ s mm)
    (hal : va % 4096 = 0) (hva : va < 2 ^ 38) :
    wp (MemoryManager.mapAllocatePage va (PteFlags.RW ||| PteFlags.U))
      (fun _ sp => sp.sys.Placed ∧ SpaceOk ⟨False, False⟩ sp.sys sp.mm ∧ ∃ f, StackPage sp va f)
      (fun _ _ => True) (fun _ => True) ⟨s, mm⟩ := by
  have hU : (PteFlags.RW ||| PteFlags.U).getLsbD 4 = true := by decide
  have hX : (PteFlags.RW ||| PteFlags.U) &&& PteFlags.RX ≠ 0#8 := by decide
  by_cases hun : pteAt s mm.rootFrame (vpn va) = 0
  · refine wp_mapAllocatePage hp hs.shape hs.root hs.regions ⟨hal, hva, rfl, hU, hX⟩ hun
      (fun _ _ => trivial) trivial fun f s' mm' hm hins => ?_
    have hroot : mm'.rootPt = mm.rootPt := by rw [hins.rest]
    have hstack : mm'.kernelStack = mm.kernelStack := by rw [hins.rest]
    have hs' : SpaceOk ⟨False, False⟩ s' mm' :=
      hs.pageMapped (x := ⟨va, va + 4096, PteFlags.RW ||| PteFlags.U⟩) hm hroot hstack hins.regions
        hins.mem_iff False.elim
    exact ⟨hp.congr hm.addr_eq, hs', f, stackPage_of_pageMapped hp hs hs' hroot hva hm⟩
  · -- the page is mapped, so it is recorded
    obtain ⟨x, hx, hxv⟩ := hs.covered _ hun
    have hpage := hs.regions.page x hx
    exact wp_mapAllocatePage_recorded hs.regions hx
      (vpn_inj hpage.lower hva hpage.aligned hal hxv)

/-- **`create_user_stack`** maps the page its result lies in. -/
theorem wp_createUserStack (hp : s.Placed) (hs : SpaceOk ⟨False, False⟩ s mm) :
    wp MemoryManager.createUserStack (fun top sp => ∃ f, StackPage sp top f)
      (fun _ _ => True) (fun _ => True) ⟨s, mm⟩ := by
  rw [MemoryManager.createUserStack, wp_bind]
  refine wp_consequence (wp_foldM_range (fun k va sp => va = 0x3fff0000 + 4096 * k ∧
    sp.sys.Placed ∧ SpaceOk ⟨False, False⟩ sp.sys sp.mm ∧ (0 < k → ∃ f, StackPage sp va f))
    ?_ _ _ ⟨rfl, hp, hs, fun h => absurd h (Nat.lt_irrefl 0)⟩) ?_
  · rintro k hk va ⟨t, mm'⟩ ⟨rfl, hp', hs', -⟩
    have hoff : offsetBy (0x3fff0000 + 4096 * k) (pageSize : ℤ) = some (0x3fff0000 + 4096 * k + 4096) :=
      offsetBy_page (by omega)
    rw [wp_bind, hoff, wp_okOr_some, wp_bind]
    refine wp_consequence (wp_stackPage hp' hs' (by omega) (by omega)) fun pa sp hsp => ?_
    rw [wp_pure]
    exact ⟨by omega, hsp.1, hsp.2.1, fun _ => hsp.2.2⟩
  · rintro va sp ⟨rfl, -, -, hlast⟩
    obtain ⟨f, hf⟩ := hlast (by norm_num)
    have hoff : offsetBy (0x3fff0000 + 4096 * 8) ((pageSize : ℤ) - 0x60) = some 0x3fff8fa0 := by decide
    rw [hoff, wp_okOr_some]
    exact ⟨f, hf.same_page (by norm_num)⟩

end UserStack

/-- **The initial stack.** When `create_user_stack` has mapped the stack of an address space, every
list of arguments that passes the check of its size is encoded on it. -/
theorem initialStack_encodes {s : MemState} {mm : MemoryManager} {top : ℕ} {sp₁ : Space}
    (hp : s.Placed) (hs : SpaceOk ⟨False, False⟩ s mm)
    (hstack : MemoryManager.createUserStack ⟨s, mm⟩ = .ok top sp₁) (argv : List (List UInt8))
    (hfits : stackLen argv ≤ top - top / 4096 * 4096) :
    ∃ sp sp₂ ptrs, createInitialStack top argv sp₁ = .ok sp sp₂ ∧
      Encoded sp₁ sp₂ top sp argv ptrs := by
  obtain ⟨f, hpage⟩ := wp_of_ok (wp_createUserStack hp hs) hstack
  have hmod : stackLen argv ≤ top % 4096 := by omega
  obtain ⟨s₁, s', hrun, hw, hw'⟩ := createInitialStack_run hpage hmod
  exact ⟨_, _, _, hrun, hpage.encoded hmod hw hw'⟩

/-- A new address space, and two arguments. -/
theorem initialStack_encodes_two : ∃ sp₁ sp sp₂ ptrs,
    createInitialStack 0x3fff8fa0 [[97, 98], []] sp₁ = .ok sp sp₂ ∧
      Encoded sp₁ sp₂ 0x3fff8fa0 sp [[97, 98], []] ptrs := by
  have hrun : ((runOps (fun _ op => Lays UserPage op) [.new 0] (bootMachine, fun _ _ => 0)).map
      fun s => (decide (0 ∈ s.1.live),
        (MemoryManager.createUserStack (s.1.space 0)).toOk.map Prod.fst)) =
          some (true, some 0x3fff8fa0) := by decide +kernel
  obtain ⟨s, hs, hres⟩ := Option.map_eq_some_iff.mp hrun
  obtain ⟨hlive, htop⟩ := Prod.mk.inj hres
  obtain ⟨boot, hinv⟩ :=
    (Laid.of_reach (Reach.of_runOps _ (Reach.start booted_bootMachine) hs)).inv
  obtain ⟨⟨top, sp₁⟩, hok, rfl⟩ := Option.map_eq_some_iff.mp htop
  have hstack := Outcome.toOk_eq_some.mp hok
  exact ⟨sp₁, initialStack_encodes hinv.placed (hinv.space 0 (of_decide_eq_true hlive)) hstack
    [[97, 98], []] (by decide)⟩

end Efiks.Tasks
