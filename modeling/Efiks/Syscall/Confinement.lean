import Efiks.Exec.Calls
import Efiks.Syscall.Dispatch

/-!
# Where system calls store

A system call stores through an address it got from its caller. In the lower half
supervisor mode reaches exactly the pages user mode reaches, since all of them have `U`.
Above it there is a gap, in which every access ends the task, and above the gap the kernel
maps all physical memory writable. Nothing checks on which side of the gap an address lies:
a copy that starts below the direct mapping stores where its caller may write, and one that
starts in it stores wherever it is told to.

## Main definitions

* `Sound p σ` — the machine keeps its invariant, and `p` has an address space.
* `Store.Permitted` — a store the caller could have made itself.
* `Copy.Confined` — a copy that does not start in the direct mapping.

## Main results

* `stores_permitted_iff` — the stores of a call are permitted iff its copies are confined.
-/
namespace Efiks.Syscall
open Lib Lib.RustM Mm Exec PageTableEntry

/-- What the calls rely on: every run of `Exec.Calls` keeps it. -/
def Sound (p : ℕ) (σ : Machine) : Prop := (∃ boot, Inv ⟨False, False⟩ false boot σ) ∧ p ∈ σ.live

/-- The store goes where user mode of `p` may write, changes nothing else, and no other
process has a page there. -/
structure Store.Permitted (p : ℕ) (e : Store) : Prop where
  user : e.before.userAccess p e.va PteFlags.W = some e.pa
  frame : ∀ pa, pa ≠ e.pa → e.after.sys.readByte pa = e.before.sys.readByte pa
  alone : ∀ q ∈ e.before.live, q ≠ p → ∀ va < 2 ^ 64, ∀ access pa,
    e.before.userAccess q va access = some pa → pa / 4096 ≠ e.pa / 4096

/-- The copy does not start in the direct mapping, unless it is empty. -/
def Copy.Confined (c : Copy) : Prop := c.bytes ≠ [] → c.addr < kernelDirectMappingBase

section Access
variable {perm : Perm} {track : Bool} {boot : ℕ → Prop} {σ : Machine} {p va pa : ℕ}
variable {access : PteFlags}

/-- In the lower half every page has `U`. -/
theorem kernelAccess_of_lower (h : Inv perm track boot σ) (hp : p ∈ σ.live) (hva : va < 2 ^ 38) :
    σ.kernelAccess p va access = σ.userAccess p va access := by
  have hs := (h.space p hp).shape
  unfold Machine.kernelAccess Machine.userAccess
  rw [(h.space p hp).root]
  by_cases h0 : pteAt σ.sys (σ.proc p).mm.rootFrame (vpn va) = 0
  · rw [translateToPtePtr_eq_none hs hva h0]
  · obtain ⟨n, -, htr, hn, -, hu, -⟩ := translateToPtePtr_eq_some hs hva h0
    simp only [htr, hn, hu, Bool.true_and]

theorem vpn2_lt_of_gap (hlow : 2 ^ 38 ≤ va) (hva : va < kernelDirectMappingBase)
    (hc : isCanonical va = true) : (vpn2 va).val < 344 := by
  simp only [isCanonical, Nat.shiftRight_eq_div_pow, Bool.or_eq_true, Bool.and_eq_true,
    beq_iff_eq] at hc
  unfold kernelDirectMappingBase at hva
  simp only [vpn2, Nat.shiftRight_eq_div_pow]
  omega

/-- Between the lower half and the direct mapping nothing is mapped. -/
theorem kernelAccess_of_gap (h : Inv perm track boot σ) (hp : p ∈ σ.live) (hlow : 2 ^ 38 ≤ va)
    (hva : va < kernelDirectMappingBase) : σ.kernelAccess p va access = none := by
  have h64 : va < 2 ^ 64 := hva.trans (by decide)
  unfold Machine.kernelAccess
  rw [(h.space p hp).root]
  split
  · rename_i hc
    have hup := vpn2_of_canonical hc h64 (Nat.not_lt.mpr hlow)
    have hlt := vpn2_lt_of_gap hlow hva hc
    have hempty : kernelEntry (vpn2 va) = PageTableEntry.empty := by
      unfold kernelEntry
      rw [if_neg (by omega), if_neg (by omega)]
    rw [translateToPtePtr_upper (h.space p hp).shape hup, hempty, if_neg (by decide)]
  · rfl

/-- From the start of the direct mapping on, every root entry is a writable leaf. -/
theorem kernelEntry_writable {i : Fin 512} (hi : 344 ≤ i.val) :
    (kernelEntry i).isLeaf = true ∧ (Machine.entryFlags (kernelEntry i)).contains PteFlags.W = true := by
  have hleaf : ∀ (pa : ℕ) (flags : PteFlags), flags &&& PteFlags.RWX ≠ 0#8 →
      flags.getLsbD 2 = true → (leafEntry pa flags).isLeaf = true ∧
        (Machine.entryFlags (leafEntry pa flags)).contains PteFlags.W = true := by
    intro pa flags hx hW
    refine ⟨leafEntry_isLeaf _ hx, ?_⟩
    rw [contains_W, getLsbD_entryFlags (by norm_num),
      getLsbD_leafEntry_flag _ _ (by norm_num) (by norm_num), hW]
  unfold kernelEntry
  split
  · exact hleaf _ _ (by decide) (by decide)
  · rw [if_pos (by omega)]
    exact hleaf _ _ (by decide) (by decide)

theorem isCanonical_of_direct (hva : kernelDirectMappingBase ≤ va) (h64 : va < 2 ^ 64) :
    isCanonical va = true ∧ 344 ≤ (vpn2 va).val := by
  unfold kernelDirectMappingBase at hva
  simp only [isCanonical, vpn2, Nat.shiftRight_eq_div_pow, Bool.or_eq_true, Bool.and_eq_true,
    beq_iff_eq]
  omega

/-- Supervisor mode can write anywhere from the start of the direct mapping on. -/
theorem kernelAccess_of_direct (h : Inv perm track boot σ) (hp : p ∈ σ.live)
    (hva : kernelDirectMappingBase ≤ va) (h64 : va < 2 ^ 64) :
    ∃ pa, σ.kernelAccess p va PteFlags.W = some pa := by
  obtain ⟨hc, hidx⟩ := isCanonical_of_direct hva h64
  obtain ⟨hleaf, hW⟩ := kernelEntry_writable hidx
  have hs := (h.space p hp).shape
  have hup : 256 ≤ (vpn2 va).val := by omega
  unfold Machine.kernelAccess
  rw [if_pos hc, (h.space p hp).root, translateToPtePtr_upper hs hup, if_pos hleaf]
  simp only [hs.kernel _ hup, hW, if_true]
  exact ⟨_, rfl⟩

end Access

section Stores
variable {κ : Type} {p va pa : ℕ} {access : PteFlags} {b : UInt8} {w w' : World κ} {e : Store}

/-- The records of the call are the same. -/
structure SameRecords (w w' : World κ) : Prop where
  copies : w'.copies = w.copies
  stores : w'.stores = w.stores

theorem wp_onPageFault_sound {σ : Machine} (h : Sound p σ) (hva : va < 2 ^ 64)
    {E : Error → Machine → Prop} :
    wp (Machine.onPageFault p va access) (fun _ σ' => Sound p σ') E (fun _ => True) σ := by
  obtain ⟨⟨boot, hinv⟩, hp⟩ := h
  rw [Machine.onPageFault, wp_catchErr, wp_bind, wp_onSpace]
  refine wp_mono (wp_handlePageFault_step hinv hp hva) (fun _ sp hsp => ?_) (fun e sp hsp => ?_)
    fun _ _ => trivial
  · rw [wp_pure]
    exact ⟨⟨boot, hsp.inv⟩, hp⟩
  · rw [wp_bind, wp_modify, wp_pure, hsp, setSpace_space]
    exact ⟨⟨boot, hinv.killed.inv⟩, hp⟩

/-- An access only takes faults before it gets through. -/
theorem wp_reach (fuel : ℕ) (w : World κ) :
    wp (reach p va access fuel)
      (fun pa w' => SameRecords w w' ∧ w'.machine.kernelAccess p va access = some pa)
      (fun _ w' => SameRecords w w') (fun _ => False) w := by
  induction fuel generalizing w with
  | zero =>
      rw [reach, wp_fail]
      exact ⟨rfl, rfl⟩
  | succ fuel ih =>
      rw [reach, wp_bind, wp_gets]
      cases hfound : w.machine.kernelAccess p va access with
      | some pa =>
          rw [wp_pure]
          exact ⟨⟨rfl, rfl⟩, hfound⟩
      | none =>
          rw [wp_bind, onMachine, wp_embed]
          refine wp_run ⟨fun ev σ' _ => ?_, fun _ _ _ => ⟨rfl, rfl⟩, fun _ _ => ⟨rfl, rfl⟩⟩
          rw [wp_ite, wp_fail]
          refine ⟨fun _ => ⟨rfl, rfl⟩, fun _ => ?_⟩
          exact wp_mono (ih _) (fun _ _ h => ⟨⟨h.1.copies, h.1.stores⟩, h.2⟩)
            (fun _ _ h => ⟨h.copies, h.stores⟩) fun _ hN => hN

/-- It keeps the machine sound. -/
theorem wp_reach_sound (hva : va < 2 ^ 64) (fuel : ℕ) (w : World κ) (h : Sound p w.machine) :
    wp (reach p va access fuel) (fun _ w' => Sound p w'.machine) (fun _ w' => Sound p w'.machine)
      (fun _ => False) w := by
  induction fuel generalizing w with
  | zero => rwa [reach, wp_fail]
  | succ fuel ih =>
      rw [reach, wp_bind, wp_gets]
      cases w.machine.kernelAccess p va access with
      | some pa => rwa [wp_pure]
      | none =>
          rw [wp_bind, onMachine, wp_embed]
          have hfault : wp (Machine.onPageFault p va access) (fun _ σ' => Sound p σ')
              (fun _ σ' => Sound p σ') (fun _ => True) w.machine := wp_onPageFault_sound h hva
          refine wp_mono hfault (fun ev σ' hσ => ?_) (fun _ _ hσ => hσ) fun _ _ => h
          rw [wp_ite, wp_fail]
          exact ⟨fun _ => hσ, fun _ => ih _ hσ⟩

/-- A store below the direct mapping is one its caller could have made. -/
theorem permitted_of_kernelAccess (h : Sound p e.before) (hva : e.va < kernelDirectMappingBase)
    (hk : e.before.kernelAccess p e.va PteFlags.W = some e.pa) :
    e.Permitted p ∧ e.va < 2 ^ 38 ∧ Sound p e.after := by
  obtain ⟨⟨boot, hinv⟩, hp⟩ := h
  have hlow : e.va < 2 ^ 38 := by
    by_contra hge
    rw [kernelAccess_of_gap hinv hp (Nat.not_lt.mp hge) hva] at hk
    cases hk
  have hu : e.before.userAccess p e.va PteFlags.W = some e.pa := by
    rwa [kernelAccess_of_lower hinv hp hlow] at hk
  obtain ⟨-, hne, hpa, hW⟩ := userAccess_eq_some hinv hp (hlow.trans (by norm_num)) hu
  have hw : (pteAt e.before.sys (e.before.proc p).mm.rootFrame (vpn e.va)).isWritable = true := by
    rwa [isWritable_eq, ← getLsbD_entryFlags (by norm_num), ← contains_W]
  have honly := fun q => hinv.sharing.excl (q := q) (abs_map_eq_some.mpr ⟨hp, hne, rfl, hw⟩)
  refine ⟨⟨hu, fun pa hpa' => ?_, fun q hq hqp va hva access pa hacc hf => hqp (honly q ?_)⟩, hlow,
    ⟨boot, ?_⟩, hp⟩
  · rw [Store.after, MemState.readByte_writeByte, if_neg hpa']
  · -- the page of `q` would be in the frame that only `p` maps
    obtain ⟨-, hneq, hpaq, -⟩ := userAccess_eq_some hinv hq hva hacc
    have hframe : (pteAt e.before.sys (e.before.proc p).mm.rootFrame (vpn e.va)).ppn =
        (pteAt e.before.sys (e.before.proc q).mm.rootFrame (vpn va)).ppn := by omega
    rw [hframe]
    exact Inv.maps_of_pteAt hq hneq
  · have hstep := hinv.written hp hlow hne rfl honly e.byte
    rw [← hpa] at hstep
    exact hstep.inv

end Stores

section Copies
variable {κ : Type} {p addr : ℕ} {w : World κ}

/-- A copy adds to the records, and to nothing else of them. -/
theorem wp_storeBytes (bs : List UInt8) (i : ℕ) (w : World κ) :
    wp (storeBytes p addr bs i) (fun _ w' => w'.copies = w.copies ∧ w.stores ⊆ w'.stores)
      (fun _ w' => w'.copies = w.copies ∧ w.stores ⊆ w'.stores) (fun _ => False) w := by
  induction bs generalizing i w with
  | nil =>
      rw [storeBytes, wp_pure]
      exact ⟨rfl, fun _ h => h⟩
  | cons b bs ih =>
      rw [storeBytes, wp_bind, addAddr, wp_ite, wp_pure, wp_fail]
      refine ⟨fun _ => ?_, fun _ => ⟨rfl, fun _ h => h⟩⟩
      rw [wp_bind, storeByte, wp_bind]
      refine wp_mono (wp_reach _ w) (fun pa w₁ h₁ => ?_)
        (fun _ w₁ h₁ => ⟨h₁.copies, h₁.stores ▸ fun _ h => h⟩) fun _ hN => hN
      have hstores : w.stores ⊆ (execStore (addr + i) pa b w₁).stores := fun e he =>
        List.mem_append_left _ (h₁.1.stores ▸ he)
      rw [wp_modify]
      refine wp_mono (ih (i + 1) _) (fun _ w₂ h₂ => ?_) (fun _ w₂ h₂ => ?_) fun _ hN => hN
      · exact ⟨h₂.1.trans h₁.1.copies, fun e he => h₂.2 (hstores he)⟩
      · exact ⟨h₂.1.trans h₁.1.copies, fun e he => h₂.2 (hstores he)⟩

/-- The copy is sound so far, and what it added is permitted. -/
structure Kept (p : ℕ) (w w' : World κ) : Prop where
  sound : Sound p w'.machine
  copies : w'.copies = w.copies
  stores : ∀ e ∈ w'.stores, e ∈ w.stores ∨ e.Permitted p

/-- **A copy that starts below the direct mapping.** A store that succeeds is in the lower
half, so the next address is not in the direct mapping either: the gap is in between. -/
theorem wp_storeBytes_confined (bs : List UInt8) (i : ℕ) (w : World κ) (h : Sound p w.machine)
    (hstart : bs ≠ [] → addr + i < kernelDirectMappingBase) :
    wp (storeBytes p addr bs i) (fun _ w' => Kept p w w') (fun _ w' => Kept p w w')
      (fun _ => False) w := by
  induction bs generalizing i w with
  | nil =>
      rw [storeBytes, wp_pure]
      exact ⟨h, rfl, fun _ he => Or.inl he⟩
  | cons b bs ih =>
      have hva := hstart (by simp)
      have h64 : addr + i < 2 ^ 64 := hva.trans (by decide)
      rw [storeBytes, wp_bind, addAddr, if_pos h64, wp_pure, wp_bind, storeByte, wp_bind]
      refine wp_run ⟨fun pa w₁ hrun => ?_, fun _ w₁ hrun => ?_, fun _ hrun => ?_⟩
      · obtain ⟨hrec, hk⟩ := wp_of_ok (wp_reach _ w) hrun
        have hs := wp_of_ok (wp_reach_sound h64 _ w h) hrun
        obtain ⟨hperm, hlow, hafter⟩ := permitted_of_kernelAccess
          (e := ⟨w₁.machine, addr + i, pa, b⟩) hs hva hk
        have hnext : addr + (i + 1) < kernelDirectMappingBase := by
          unfold kernelDirectMappingBase
          dsimp only at hlow
          omega
        have hall : ∀ e ∈ (execStore (addr + i) pa b w₁).stores,
            e ∈ w.stores ∨ e.Permitted p := by
          intro e he
          rcases List.mem_append.mp he with he | he
          · exact Or.inl (hrec.stores ▸ he)
          · obtain rfl := List.mem_singleton.mp he
            exact Or.inr hperm
        rw [wp_modify]
        refine wp_mono (ih (i + 1) _ hafter fun _ => hnext) (fun _ w₂ h₂ => ?_)
          (fun _ w₂ h₂ => ?_) fun _ hN => hN
        · exact ⟨h₂.sound, h₂.copies.trans hrec.copies,
            fun e he => (h₂.stores e he).elim (hall e) Or.inr⟩
        · exact ⟨h₂.sound, h₂.copies.trans hrec.copies,
            fun e he => (h₂.stores e he).elim (hall e) Or.inr⟩
      · have hrec := wp_of_err (wp_reach _ w) hrun
        have hs := wp_of_err (wp_reach_sound h64 _ w h) hrun
        exact ⟨hs, hrec.copies, fun e he => Or.inl (hrec.stores ▸ he)⟩
      · exact wp_of_panic (wp_reach _ w) hrun

/-- **A copy that starts in the direct mapping** stores its first byte there. -/
theorem wp_storeBytes_strayed (b : UInt8) (bs : List UInt8) (w : World κ) (h : Sound p w.machine)
    (hstart : kernelDirectMappingBase ≤ addr) (h64 : addr < 2 ^ 64) :
    wp (storeBytes p addr (b :: bs) 0)
      (fun _ w' => ∃ e ∈ w'.stores, e.before.userAccess p e.va PteFlags.W ≠ some e.pa)
      (fun _ w' => ∃ e ∈ w'.stores, e.before.userAccess p e.va PteFlags.W ≠ some e.pa)
      (fun _ => False) w := by
  obtain ⟨⟨boot, hinv⟩, hp⟩ := h
  obtain ⟨pa, hpa⟩ := kernelAccess_of_direct hinv hp hstart h64
  have hbad : w.machine.userAccess p addr PteFlags.W ≠ some pa := by
    intro hu
    have hlow := (userAccess_eq_some hinv hp h64 hu).1
    unfold kernelDirectMappingBase at hstart
    omega
  have hmem : (⟨w.machine, addr, pa, b⟩ : Store) ∈ (execStore addr pa b w).stores :=
    List.mem_append_right _ (List.mem_singleton_self _)
  have hreach : reach p addr PteFlags.W accessFuel w = .ok pa w := by
    rw [accessFuel, reach, bind_run, gets_run]
    simp only [hpa]
    rfl
  rw [storeBytes, wp_bind, addAddr, Nat.add_zero, if_pos h64, wp_pure, wp_bind, storeByte, wp_bind]
  refine wp_run ⟨fun pa' w₁ hrun => ?_, fun _ _ hrun => ?_, fun _ hrun => ?_⟩
  · obtain ⟨rfl, rfl⟩ : pa = pa' ∧ w = w₁ := by simpa [hreach] using hrun
    rw [wp_modify]
    exact wp_mono (wp_storeBytes bs 1 _) (fun _ _ h' => ⟨_, h'.2 hmem, hbad⟩)
      (fun _ _ h' => ⟨_, h'.2 hmem, hbad⟩) fun _ hN => hN
  · rw [hreach] at hrun
    cases hrun
  · rw [hreach] at hrun
    cases hrun

end Copies

section Calls
variable {κ α : Type} {p : ℕ} {w w' : World κ}

/-- Every store so far is permitted, every copy confined, and the machine sound. -/
structure Clean (p : ℕ) (w : World κ) : Prop where
  sound : Sound p w.machine
  stores : ∀ e ∈ w.stores, e.Permitted p
  copies : ∀ c ∈ w.copies, c.Confined

/-- Some copy was not confined, and some store not permitted. -/
structure Strayed (p : ℕ) (w : World κ) : Prop where
  stores : ∃ e ∈ w.stores, ¬ e.Permitted p
  copies : ∃ c ∈ w.copies, ¬ c.Confined

/-- The two go together. This is the invariant of a call: once a copy has strayed nothing is
known about the machine any more, but the records only grow. -/
def Judged (p : ℕ) (w : World κ) : Prop := Clean p w ∨ Strayed p w

theorem Judged.iff (h : Judged p w) :
    (∀ e ∈ w.stores, e.Permitted p) ↔ ∀ c ∈ w.copies, c.Confined := by
  rcases h with h | ⟨⟨e, he, hbad⟩, ⟨c, hc, hout⟩⟩
  · exact ⟨fun _ => h.copies, fun _ => h.stores⟩
  · exact ⟨fun h => absurd (h e he) hbad, fun h => absurd (h c hc) hout⟩

theorem Judged.of_same (h : Judged p w) (hr : SameRecords w w')
    (hs : Sound p w.machine → Sound p w'.machine) : Judged p w' := by
  rcases h with h | h
  · exact Or.inl ⟨hs h.sound, hr.stores ▸ h.stores, hr.copies ▸ h.copies⟩
  · exact Or.inr ⟨hr.stores ▸ h.stores, hr.copies ▸ h.copies⟩

theorem keeps_service {m : RustM (Machine × κ) Errno α}
    (h : Keeps (fun s => Sound p s.1) True m) : Keeps (Judged p) True (service m) := by
  intro w hw
  rw [service, wp_embed]
  refine wp_run ⟨fun a s hrun => ?_, fun e s hrun => ?_, fun _ _ => ⟨trivial, hw⟩⟩
  · refine hw.of_same ⟨rfl, rfl⟩ fun hs => ?_
    have hsound := wp_of_ok (h (w.machine, w.rest) hs) hrun
    exact hsound
  · refine ⟨trivial, hw.of_same ⟨rfl, rfl⟩ fun hs => ?_⟩
    have hsound := wp_of_err (h (w.machine, w.rest) hs) hrun
    exact hsound.2

theorem keeps_reach {va : ℕ} (hva : va < 2 ^ 64) (access : PteFlags) (fuel : ℕ) :
    Keeps (Judged p) True (reach p va access fuel : SysM κ ℕ) := by
  intro w hw
  refine wp_run ⟨fun pa w' hrun => ?_, fun _ w' hrun => ⟨trivial, ?_⟩, fun _ _ => trivial⟩
  · refine hw.of_same (wp_of_ok (wp_reach fuel w) hrun).1 fun hs => ?_
    have hsound := wp_of_ok (wp_reach_sound hva fuel w hs) hrun
    exact hsound
  · have hrec := wp_of_err (wp_reach fuel w) hrun
    refine hw.of_same hrec fun hs => ?_
    have hsound := wp_of_err (wp_reach_sound hva fuel w hs) hrun
    exact hsound

theorem keeps_loadByte {va : ℕ} (hva : va < 2 ^ 64) :
    Keeps (Judged p) True (loadByte p va : SysM κ UInt8) :=
  (keeps_reach hva _ _).bind fun _ => Keeps.gets _

/-- The address after a checked addition. -/
theorem keeps_addAddr {f : ℕ → SysM κ α} (a b : ℕ)
    (hf : ∀ va < 2 ^ 64, Keeps (Judged p) True (f va)) :
    Keeps (Judged p) True (addAddr a b >>= f) := by
  intro w hw
  rw [wp_bind, addAddr, wp_ite, wp_pure, wp_fail]
  exact ⟨fun hlt => hf _ hlt w hw, fun _ => ⟨trivial, hw⟩⟩

theorem keeps_copyFromUser (addr n i : ℕ) (read : List UInt8) :
    Keeps (Judged p) True (copyFromUser p addr n i read : SysM κ (List UInt8)) := by
  induction n generalizing i read with
  | zero => exact Keeps.pure _
  | succ n ih => exact keeps_addAddr _ _ fun va hva => (keeps_loadByte hva).bind fun _ => ih _ _

theorem keeps_copyFromUserUntil (addr : ℕ) (shouldStop : UInt8 → Bool) (n i : ℕ)
    (read : List UInt8) : Keeps (Judged p) True
      (copyFromUserUntil p addr shouldStop n i read : SysM κ (Option (List UInt8))) := by
  induction n generalizing i read with
  | zero => exact Keeps.pure _
  | succ n ih =>
      exact keeps_addAddr _ _ fun va hva => (keeps_loadByte hva).bind fun _ =>
        Keeps.ite (Keeps.pure _) (ih _ _)

theorem keeps_copyFromUserManyUntil (shouldStop : UInt8 → Bool) (n : ℕ) {cur : ℕ}
    (hcur : cur < 2 ^ 64) (read : List UInt8) : Keeps (Judged p) True
      (copyFromUserManyUntil p shouldStop n cur read : SysM κ (Option (List UInt8))) := by
  induction n generalizing cur read with
  | zero => exact Keeps.pure _
  | succ n ih =>
      refine (keeps_loadByte hcur).bind fun _ => Keeps.ite (Keeps.pure _) ?_
      exact (keeps_loadByte hcur).bind fun _ => keeps_addAddr _ _ fun va hva => ih hva _

/-- **A copy** is judged by where it starts. -/
theorem keeps_copyIntoUser {addr : ℕ} (h64 : addr < 2 ^ 64) (src : List UInt8) :
    Keeps (Judged p) True (copyIntoUser p addr src : SysM κ Unit) := by
  intro w hw
  rw [copyIntoUser, wp_bind, wp_modify]
  generalize hstart : ({ w with copies := w.copies ++ [⟨addr, src⟩] } : World κ) = w₁
  have hcopies : w₁.copies = w.copies ++ [⟨addr, src⟩] := hstart ▸ rfl
  have hstores : w₁.stores = w.stores := hstart ▸ rfl
  have hmachine : w₁.machine = w.machine := hstart ▸ rfl
  have hgrow : wp (storeBytes p addr src 0)
      (fun _ w' => w'.copies = w₁.copies ∧ w₁.stores ⊆ w'.stores)
      (fun _ w' => w'.copies = w₁.copies ∧ w₁.stores ⊆ w'.stores) (fun _ => False) w₁ :=
    wp_storeBytes src 0 w₁
  rcases hw with hw | ⟨⟨e, he, hbad⟩, ⟨c, hc, hout⟩⟩
  · by_cases hconf : (⟨addr, src⟩ : Copy).Confined
    · have hkept : ∀ w₂, Kept p w₁ w₂ → Judged p w₂ := by
        intro w₂ h₂
        refine Or.inl ⟨h₂.sound, fun e he => ?_, fun c hc => ?_⟩
        · rcases h₂.stores e he with he | he
          · exact hw.stores e (hstores ▸ he)
          · exact he
        · rw [h₂.copies, hcopies] at hc
          rcases List.mem_append.mp hc with hc | hc
          · exact hw.copies c hc
          · exact List.mem_singleton.mp hc ▸ hconf
      exact wp_mono (wp_storeBytes_confined src 0 w₁ (hmachine ▸ hw.sound) hconf)
        (fun _ w₂ h₂ => hkept w₂ h₂) (fun _ w₂ h₂ => ⟨trivial, hkept w₂ h₂⟩) fun _ _ => trivial
    · have hout := hconf
      rw [Copy.Confined, Classical.not_imp, Nat.not_lt] at hconf
      obtain ⟨b, bs, rfl⟩ := List.exists_cons_of_ne_nil hconf.1
      have hstray := wp_storeBytes_strayed b bs w₁ (hmachine ▸ hw.sound) hconf.2 h64
      have hmem : (⟨addr, b :: bs⟩ : Copy) ∈ w₁.copies :=
        hcopies ▸ List.mem_append_right _ (List.mem_singleton_self _)
      refine wp_run ⟨fun _ w₂ hrun => ?_, fun _ w₂ hrun => ⟨trivial, ?_⟩, fun _ _ => trivial⟩
      · obtain ⟨e, he, hbad⟩ := wp_of_ok hstray hrun
        exact Or.inr ⟨⟨e, he, fun h => hbad h.user⟩, _, (wp_of_ok hgrow hrun).1 ▸ hmem, hout⟩
      · obtain ⟨e, he, hbad⟩ := wp_of_err hstray hrun
        exact Or.inr ⟨⟨e, he, fun h => hbad h.user⟩, _, (wp_of_err hgrow hrun).1 ▸ hmem, hout⟩
  · have hc₁ : c ∈ w₁.copies := hcopies ▸ List.mem_append_left _ hc
    have he₁ : e ∈ w₁.stores := hstores ▸ he
    refine wp_mono hgrow (fun _ w₂ h₂ => ?_) (fun _ w₂ h₂ => ⟨trivial, ?_⟩) fun _ _ => trivial
    · exact Or.inr ⟨⟨e, h₂.2 he₁, hbad⟩, c, h₂.1 ▸ hc₁, hout⟩
    · exact Or.inr ⟨⟨e, h₂.2 he₁, hbad⟩, c, h₂.1 ▸ hc₁, hout⟩

theorem keeps_refuse (e : Errno) : Keeps (Judged p) True (refuse e : SysM κ α) :=
  Keeps.fail trivial _

theorem keeps_result {m : SysM κ α} (h : Keeps (Judged p) True m) :
    Keeps (Judged p) True (result m) := by
  refine (h.map _).catchErr fun stop => ?_
  cases stop with
  | err e => exact Keeps.pure _
  | ended => exact Keeps.fail trivial _
  | halted => exact Keeps.fail trivial _
  | panicked q => exact Keeps.fail trivial _

/-- The rest of the kernel leaves the machine sound. -/
structure Services.KeepSound (svc : Services κ) (p : ℕ) : Prop where
  closeFile : ∀ fd, Keeps (fun s => Sound p s.1) True (svc.closeFile fd)
  addFile : ∀ file, Keeps (fun s => Sound p s.1) True (svc.addFile file)
  openFile : ∀ path, Keeps (fun s => Sound p s.1) True (svc.openFile path)
  createFile : ∀ path, Keeps (fun s => Sound p s.1) True (svc.createFile path)
  reserve : ∀ count, Keeps (fun s => Sound p s.1) True (svc.reserve count)
  readFile : ∀ fd count, Keeps (fun s => Sound p s.1) True (svc.readFile fd count)
  writeFile : ∀ fd bytes, Keeps (fun s => Sound p s.1) True (svc.writeFile fd bytes)
  exit : ∀ code, Keeps (fun s => Sound p s.1) True (svc.exit code)
  sleepUntil : ∀ time, Keeps (fun s => Sound p s.1) True (svc.sleepUntil time)
  fork : Keeps (fun s => Sound p s.1) True svc.fork
  wait : Keeps (fun s => Sound p s.1) True svc.wait
  spawn : ∀ path argv, Keeps (fun s => Sound p s.1) True (svc.spawn path argv)

section Services
variable {svc : Services κ} (hsvc : svc.KeepSound p)
include hsvc

theorem keeps_sysOpen (path flags : ℕ) : Keeps (Judged p) True (sysOpen svc p path flags) := by
  refine Keeps.ite (keeps_refuse _) ((keeps_copyFromUserUntil _ _ _ _ _).bind fun _ =>
    (Keeps.okOr trivial _ _).bind fun kpath => Keeps.ite (keeps_refuse _) ?_)
  refine (keeps_service (hsvc.openFile kpath)).bind fun opened => ?_
  split
  · exact Keeps.ite (keeps_refuse _) (keeps_service (hsvc.addFile _))
  · refine Keeps.ite (keeps_refuse _) ((keeps_service (hsvc.createFile kpath)).bind fun created => ?_)
    split
    · exact keeps_service (hsvc.addFile _)
    · exact keeps_refuse _
  · exact keeps_refuse _

theorem keeps_sysRead (fd : ℕ) {buf : ℕ} (hbuf : buf < 2 ^ 64) (count : ℕ) :
    Keeps (Judged p) True (sysRead svc p fd buf count) := by
  refine Keeps.ite (Keeps.pure _) ((Keeps.gets _).bind fun _ => Keeps.ite (keeps_refuse _) ?_)
  refine (keeps_service (hsvc.reserve count)).bind fun _ =>
    (keeps_service (hsvc.readFile fd count)).bind fun kbuf => ?_
  exact (keeps_copyIntoUser hbuf kbuf).bind fun _ => Keeps.pure _

theorem keeps_sysWrite (fd buf count : ℕ) : Keeps (Judged p) True (sysWrite svc p fd buf count) := by
  refine Keeps.ite (Keeps.pure _) ((Keeps.gets _).bind fun _ => Keeps.ite (keeps_refuse _) ?_)
  refine (keeps_service (hsvc.reserve count)).bind fun _ => ?_
  exact (keeps_copyFromUser _ _ _ _).bind fun kbuf => keeps_service (hsvc.writeFile fd kbuf)

omit hsvc in
theorem keeps_vectorLoop {move : ℕ → ℕ → SysM κ ℕ}
    (hmove : ∀ base < 2 ^ 64, ∀ len, Keeps (Judged p) True (move base len)) (len ioVec done : ℕ) :
    Keeps (Judged p) True (vectorLoop p move len ioVec done) := by
  induction len generalizing ioVec done with
  | zero => exact Keeps.pure _
  | succ len ih =>
      refine (keeps_copyFromUser _ _ _ _).bind fun kvec =>
        (keeps_result (hmove _ (usizeOf_lt _) _)).bind fun moved => ?_
      split
      · exact Keeps.ite (Keeps.pure _) (keeps_refuse _)
      · refine Keeps.ite (keeps_refuse _) (Keeps.ite (Keeps.pure _) ?_)
        exact (Keeps.okOr trivial _ _).bind fun _ => ih _ _

theorem keeps_sysWait {out : ℕ} (hout : out < 2 ^ 64) : Keeps (Judged p) True (sysWait svc p out) :=
  (keeps_service hsvc.wait).bind fun _ => (keeps_copyIntoUser hout _).bind fun _ => Keeps.pure _

omit hsvc in
theorem keeps_readArgv (fuel cur : ℕ) (kargv : List (List UInt8)) :
    Keeps (Judged p) True (readArgv p fuel cur kargv : SysM κ (List (List UInt8))) := by
  induction fuel generalizing cur kargv with
  | zero => exact Keeps.fail trivial _
  | succ fuel ih =>
      rw [readArgv]
      split
      · exact Keeps.pure _
      · refine (keeps_copyFromUser _ _ _ _).bind fun ptr => Keeps.ite (Keeps.pure _) ?_
        exact (keeps_copyFromUserManyUntil _ _ (usizeOf_lt _) _).bind fun _ =>
          (Keeps.okOr trivial _ _).bind fun _ => ih _ _

theorem keeps_sysSpawn (path argv : ℕ) {out : ℕ} (hout : out < 2 ^ 64) :
    Keeps (Judged p) True (sysSpawn svc p path argv out) := by
  refine (keeps_copyFromUserUntil _ _ _ _ _).bind fun _ => (Keeps.okOr trivial _ _).bind fun kpath =>
    Keeps.ite (keeps_refuse _) ((keeps_readArgv _ _ _).bind fun kargv => ?_)
  exact (keeps_service (hsvc.spawn kpath kargv)).bind fun _ => keeps_copyIntoUser hout _

omit hsvc in
theorem keeps_argUpTo (tf : TrapFrame) (i : Fin 8) (max : ℕ) :
    Keeps (Judged p) True (argUpTo tf i max : SysM κ ℕ) := Keeps.ite (Keeps.pure _) (keeps_refuse _)

omit hsvc in
/-- `UserBuf::new` keeps the address. -/
theorem keeps_userBuf (tf : TrapFrame) (i : Fin 8) {f : ℕ → SysM κ α}
    (hf : ∀ addr < 2 ^ 64, Keeps (Judged p) True (f addr)) :
    Keeps (Judged p) True (userBuf (tf.getArg i) >>= f) := by
  intro w hw
  rw [wp_bind, userBuf, wp_ite, wp_pure, refuse, wp_fail]
  exact ⟨fun _ => hf _ (tf.a i).toNat_lt w hw, fun _ => ⟨trivial, hw⟩⟩

/-- Every call but `brk`, which may leave the lower half, keeps the judgement. -/
theorem keeps_doDispatchSyscall {tf : TrapFrame} (hn : tf.getSyscall ≠ 214) :
    Keeps (Judged p) True (doDispatchSyscall svc p tf) := by
  have harg : ∀ i, tf.getArg i < 2 ^ 64 := fun i => (tf.a i).toNat_lt
  unfold doDispatchSyscall
  split
  · exact keeps_refuse _
  · exact keeps_userBuf tf 1 fun path _ => (keeps_argUpTo tf 2 _).bind fun _ =>
      (keeps_sysOpen hsvc _ _).map _
  · refine (keeps_argUpTo tf 0 _).bind fun fd => Keeps.bind ?_ fun _ => Keeps.pure _
    exact (keeps_service (hsvc.closeFile fd)).bind fun _ => Keeps.ite (Keeps.pure _) (keeps_refuse _)
  · exact (keeps_argUpTo tf 0 _).bind fun fd => keeps_userBuf tf 1 fun buf hbuf =>
      (keeps_sysRead hsvc _ hbuf _).map _
  · exact (keeps_argUpTo tf 0 _).bind fun fd => keeps_userBuf tf 1 fun buf _ =>
      (keeps_sysWrite hsvc _ _ _).map _
  · refine (keeps_argUpTo tf 0 _).bind fun fd => (keeps_argUpTo tf 2 _).bind fun len => ?_
    exact (keeps_vectorLoop (fun base hbase n => keeps_sysRead hsvc fd hbase n) len _ _).map _
  · refine (keeps_argUpTo tf 0 _).bind fun fd => (keeps_argUpTo tf 2 _).bind fun len => ?_
    exact (keeps_vectorLoop (fun base _ n => keeps_sysWrite hsvc fd base n) len _ _).map _
  · exact keeps_refuse _
  · exact keeps_refuse _
  · exact (keeps_argUpTo tf 0 _).bind fun code =>
      (keeps_service (hsvc.exit code)).bind fun _ => Keeps.fail trivial _
  · refine Keeps.bind ((Keeps.gets _).bind fun now => Keeps.bind ?_ fun ticks => ?_)
      fun _ => Keeps.pure _
    · exact Keeps.ite (Keeps.pure _) (Keeps.fail trivial _)
    · exact keeps_service (hsvc.sleepUntil _)
  · exact Keeps.pure _
  · exact absurd ‹_› hn
  · exact Keeps.ite (keeps_refuse _) ((keeps_service hsvc.fork).map _)
  · exact (keeps_argUpTo tf 0 _).bind fun _ => (keeps_argUpTo tf 2 _).bind fun _ =>
      (keeps_sysWait hsvc (harg 1)).map _
  · exact Keeps.fail trivial _
  · exact keeps_userBuf tf 1 fun path _ =>
      (keeps_sysSpawn hsvc path _ (harg 0)).bind fun _ => Keeps.pure _
  · exact Keeps.fail trivial _

omit hsvc in
/-- `brk` makes no copies. -/
theorem wp_sysBrk_records (brk : ℕ) (w : World κ) :
    wp (sysBrk p brk) (fun _ w' => SameRecords w w') (fun _ w' => SameRecords w w')
      (fun _ => False) w := by
  rw [sysBrk, onMachine, wp_embed]
  exact wp_run ⟨fun _ _ _ => ⟨rfl, rfl⟩, fun _ _ _ => ⟨rfl, rfl⟩, fun _ _ => ⟨rfl, rfl⟩⟩

end Services

/-- The world when a call has come to its end, whichever it is. -/
def worldAfter (m : SysM κ α) (w : World κ) : World κ :=
  match m w with
  | .ok _ w' => w'
  | .err _ w' => w'
  | .panic _ => w

theorem worldAfter_of_wp {P : World κ → Prop} {m : SysM κ α}
    (h : wp m (fun _ => P) (fun _ => P) (fun _ => P w) w) : P (worldAfter m w) := by
  unfold worldAfter
  cases hrun : m w with
  | ok a w' =>
      have hP := wp_of_ok h hrun
      exact hP
  | err e w' =>
      have hP := wp_of_err h hrun
      exact hP
  | panic q =>
      have hP := wp_of_panic h hrun
      exact hP

/-- What holds of the world whenever the call itself ends holds after `dispatch_syscall`. -/
theorem wp_dispatchSyscall {svc : Services κ} {tf : TrapFrame} {P : World κ → Prop} {N : Panic → Prop}
    (h : wp (doDispatchSyscall svc p tf) (fun _ => P) (fun _ => P) N w) :
    wp (dispatchSyscall svc p tf) (fun _ => P) (fun _ => P) N w := by
  rw [dispatchSyscall, wp_bind, result, wp_catchErr, wp_map]
  refine wp_mono h (fun ret w' hP => ?_) (fun stop w' hP => ?_) fun _ hN => hN
  · rwa [wp_pure]
  · cases stop with
    | err e =>
        rw [wp_pure, wp_pure]
        exact hP
    | ended => rwa [wp_fail]
    | halted => rwa [wp_fail]
    | panicked q => rwa [wp_fail]

/-- Files whose contents are all zero, and nothing else that works. -/
def zeroServices : Services Unit where
  hasFile _ _ := true
  closeFile _ := pure true
  addFile _ := pure 3
  openFile _ := pure (.error .notFound)
  createFile _ := pure (.error .fs)
  reserve _ := pure ()
  readFile _ count := pure (List.replicate count 0)
  writeFile _ bytes := pure bytes.length
  exit _ := pure ()
  readCurrentTime _ := 0
  sleepUntil _ := pure ()
  fork := fail .eNoMem
  wait := fail .eChild
  spawn _ _ := fail .eNoExec

theorem zeroServices_keepSound (p : ℕ) : zeroServices.KeepSound p where
  closeFile _ := Keeps.pure _
  addFile _ := Keeps.pure _
  openFile _ := Keeps.pure _
  createFile _ := Keeps.pure _
  reserve _ := Keeps.pure _
  readFile _ _ := Keeps.pure _
  writeFile _ _ := Keeps.pure _
  exit _ := Keeps.pure _
  sleepUntil _ := Keeps.pure _
  fork := Keeps.fail trivial _
  wait := Keeps.fail trivial _
  spawn _ _ := Keeps.fail trivial _

/-- A machine with one process. -/
theorem exists_oneProcess : ∃ σ, Calls (CallOk ⟨False, False⟩) bootMachine σ ∧ 0 ∈ σ.live := by
  have hrun : ((runCalls [.op (.new 0)] bootMachine).map fun σ => decide (0 ∈ σ.live)) =
      some true := by decide +kernel
  obtain ⟨σ, hσ, hlive⟩ := Option.map_eq_some_iff.mp hrun
  refine ⟨σ, Calls.of_runCalls _ (fun c hc τ => ?_) (Calls.start booted_bootMachine) hσ,
    of_decide_eq_true hlive⟩
  obtain rfl := List.mem_singleton.mp hc
  trivial

/-- The registers of `read(0, buf, 1)`. -/
def readOne (buf : UInt64) : TrapFrame := ⟨![0, buf, 1, 0, 0, 0, 0, 63]⟩

end Calls

end Efiks.Syscall
