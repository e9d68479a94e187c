import Efiks.Vsfs.Create

/-!
# Sessions on a mounted disk

A user mounts a disk and calls `root`, `open`, `create`, `read` and `write` with the handles
that such calls returned, in any order. `Kept` says what one call may change, and from this
what a whole session may change. A disk that is mounted again in the middle of a session shows
the same paths and files as the session itself, so nothing is kept in memory only.

## Main definitions

* `Step W` — one call, which writes to no file outside of `W`.
* `Kept W s s'` — what calls keep.
* `SameFile` — two handles that cannot be told apart by reading.

## Main results

* `session_keeps` — every path and every file that is not written stays as it was.
* `session_remount` — mounting again changes nothing that `open` and `read` can see.
-/
namespace Efiks.Vsfs
open Lib Lib.RustM Vfs

/-- The handle of the call was handed out, and a write is to a file in `W`. -/
def Call.Allowed (W : Set ℕ) (s : Mounted) : Call → Prop
  | .root => True
  | .openPath id _ => ∃ n, s.cache n = some id
  | .create id _ => ∃ n, s.cache n = some id
  | .read id _ _ _ => ∃ n, s.cache n = some id
  | .write id _ _ _ => ∃ n ∈ W, s.cache n = some id

/-- The call has returned, with a value or an error. -/
def Call.Returned (call : Call) (s s' : Mounted) : Prop :=
  (∃ v, call.perform s = .ok v s') ∨ ∃ e, call.perform s = .err e s'

/-- One call, which writes to no file outside of `W`. -/
def Step (W : Set ℕ) (s s' : Mounted) : Prop :=
  ∃ call : Call, call.Allowed W s ∧ call.Returned s s'

/-- Handles and paths stay, and so do the files up to the contents of those in `W`. -/
structure Kept (W : Set ℕ) (s s' : Mounted) : Prop where
  consistent : Consistent s'
  superblock_eq : s'.superblock = s.superblock
  retains : ∀ n id, s.cache n = some id → s'.cache n = some id
  reach : ∀ n, Reach s.disk s.superblock n → Reach s'.disk s.superblock n
  paths : ∀ n, Reach s.disk s.superblock n → ∀ path m,
    (tree s.disk s.superblock).resolve n path = .ok m →
      (tree s'.disk s.superblock).resolve n path = .ok m
  inode : ∀ n, Reach s.disk s.superblock n → (inodeAt s.disk s.superblock n).ty = .file →
    inodeAt s'.disk s.superblock n = inodeAt s.disk s.superblock n
  contents : ∀ n, Reach s.disk s.superblock n → (inodeAt s.disk s.superblock n).ty = .file →
    n ∉ W → ∀ i < (inodeAt s.disk s.superblock n).metadata.sz.toNat,
      fileByte s'.disk (inodeAt s.disk s.superblock n) i =
        fileByte s.disk (inodeAt s.disk s.superblock n) i

namespace Kept
variable {W : Set ℕ} {s s' s'' : Mounted}

theorem refl (h : Consistent s) : Kept W s s :=
  ⟨h, rfl, fun _ _ hid => hid, fun _ hn => hn, fun _ _ _ _ hm => hm, fun _ _ _ => rfl,
    fun _ _ _ _ _ _ => rfl⟩

theorem trans (h : Kept W s s') (h' : Kept W s' s'') : Kept W s s'' := by
  obtain ⟨hcons, hsuper, hretains, hreach, hpaths, hinode, hcontents⟩ := h'
  rw [h.superblock_eq] at hsuper hreach hpaths hinode hcontents
  refine ⟨hcons, hsuper, fun n id hid => hretains n id (h.retains n id hid),
    fun n hn => hreach n (h.reach n hn),
    fun n hn path m hm => hpaths n (h.reach n hn) path m (h.paths n hn path m hm),
    fun n hn hfile => ?_, fun n hn hfile hW i hi => ?_⟩
  · have hsame := h.inode n hn hfile
    rw [hinode n (h.reach n hn) (hsame ▸ hfile), hsame]
  · have hsame := h.inode n hn hfile
    have hlater := hcontents n (h.reach n hn) (hsame ▸ hfile) hW i (hsame ▸ hi)
    rw [hsame] at hlater
    rw [hlater, h.contents n hn hfile hW i hi]

end Kept

section Steps
variable {W : Set ℕ} {s s' : Mounted} {n id : ℕ}

theorem Looked.kept (h : Looked s s') : Kept W s s' := by
  refine ⟨h.consistent, h.superblock_eq, h.retains, ?_, ?_, ?_, ?_⟩ <;> rw [h.disk_eq]
  · exact fun _ hn => hn
  · exact fun _ _ _ _ hm => hm
  · exact fun _ _ _ => rfl
  · exact fun _ _ _ _ _ _ => rfl

/-- A new name leaves the files alone: the only old inode that changes is a directory. -/
theorem Created.kept {p m : ℕ} {name : List UInt8} (h : Created s s' p name m id)
    (hadded : NameAdded s.disk s'.disk s.superblock p name m)
    (hdir : (inodeAt s.disk s.superblock p).ty = .directory) : Kept W s s' := by
  have hne : ∀ n, (inodeAt s.disk s.superblock n).ty = .file → n ≠ p := by
    rintro n hfile rfl
    rw [hdir] at hfile
    cases hfile
  refine ⟨h.consistent, h.superblock_eq, h.retains, fun n hn => (hadded.reach_iff n).mpr (.inl hn),
    hadded.kept, fun n hn hfile => (hadded.contents n hn (hne n hfile)).1,
    fun n hn hfile _ => (hadded.contents n hn (hne n hfile)).2⟩

/-! ## Writing -/

section Contents
variable {disk disk' : Mem} {sb : SuperBlock} {inum : ℕ}
variable (h : OnlyContents disk disk' sb inum) (hwf : WellFormed disk sb)
variable (hfile : (inodeAt disk sb inum).ty = .file)
include h hwf hfile

theorem OnlyContents.lookup_eq (hn : Reach disk sb n) (name : List UInt8) :
    (tree disk' sb).lookup n name = (tree disk sb).lookup n name := by
  have hino := h.inodeAt_eq hwf (hwf.inum_range n hn).2
  have hisDir : (tree disk' sb).isDir n = (tree disk sb).isDir n := by simp only [tree, hino]
  by_cases hni : n = inum
  · -- the file has no names, before and after
    have hnot : (tree disk sb).isDir n = false := by
      rw [Bool.eq_false_iff, Ne, tree_isDir, hni, hfile]
      decide
    rw [NameTree.lookup_of_not_dir hnot, NameTree.lookup_of_not_dir (hisDir.trans hnot)]
  · have hchild := tree_child_congr hino (fun _ hk => h.entryAt_eq hwf hn hni hk) name
    rw [NameTree.lookup, hisDir, hchild, NameTree.lookup]

theorem OnlyContents.resolve_eq (hn : Reach disk sb n) (path : List (List UInt8)) :
    (tree disk' sb).resolve n path = (tree disk sb).resolve n path :=
  (tree_closed disk sb).resolve_congr hn fun _ hk => h.lookup_eq hwf hfile hk

end Contents

theorem OnlyContents.tidy {disk disk' : Mem} {sb : SuperBlock} {inum : ℕ}
    (h : OnlyContents disk disk' sb inum) (ht : Tidy disk sb)
    (hfile : (inodeAt disk sb inum).ty = .file) : Tidy disk' sb := by
  have hwf := ht.toWellFormed
  refine ⟨h.wellFormed hwf hfile, fun n hn hdir k hk => ?_⟩
  have hn' := (h.reach_iff hwf hfile).mp hn
  rw [h.inodeAt_eq hwf (hwf.inum_range n hn').2] at hdir hk ⊢
  have hne : n ≠ inum := by
    rintro rfl
    rw [hdir] at hfile
    cases hfile
  rw [h.entryAt_eq hwf hn' hne hk]
  exact ht.name_len n hn' hdir k hk

/-- Only the contents of one file have changed, and nothing in memory. -/
theorem OnlyContents.kept {disk' : Mem} {inum ops : ℕ}
    (h : OnlyContents s.disk disk' s.superblock inum) (hs : Consistent s)
    (hfile : (inodeAt s.disk s.superblock inum).ty = .file) (hW : inum ∈ W) :
    Kept W s { s with disk := disk', ops := ops } := by
  have hwf := hs.tidy.toWellFormed
  have hino : ∀ n, Reach s.disk s.superblock n →
      inodeAt disk' s.superblock n = inodeAt s.disk s.superblock n := fun n hn =>
    h.inodeAt_eq hwf (hwf.inum_range n hn).2
  have hreach : ∀ n, Reach s.disk s.superblock n → Reach disk' s.superblock n := fun n =>
    (h.reach_iff hwf hfile).mpr
  have hcons : Consistent { s with disk := disk', ops := ops } := by
    refine ⟨hs.noFaults, h.tidy hs.tidy hfile, hs.root,
      fun n id hid => hreach n (hs.reach n id hid), fun n id hid => ?_⟩
    obtain ⟨hlt, hobject⟩ := hs.object n id hid
    exact ⟨hlt, by rw [hino n (hs.reach n id hid)]; exact hobject⟩
  refine ⟨hcons, rfl, fun _ _ hid => hid, hreach, fun n hn path m hm => ?_, fun n hn _ => hino n hn,
    fun n hn _ hnW i hi => ?_⟩
  · rw [← hm]
    exact h.resolve_eq hwf hfile hn path
  · refine h.fileByte_eq hwf hn ?_ hi
    rintro rfl
    exact hnW hW

/-! ## One call -/

/-- A handle of a file. -/
theorem Consistent.opened (h : Consistent s) (hid : s.cache n = some id)
    (hfile : (inodeAt s.disk s.superblock n).ty = .file) : Opened s id n :=
  ⟨h.reach n id hid, (h.object n id hid).2, hfile⟩

/-- Reading a directory fails. -/
theorem Consistent.read_directory (h : Consistent s) (hid : s.cache n = some id)
    (hdir : (inodeAt s.disk s.superblock n).ty ≠ .file) (offset len : ℕ) (buf : Mem) :
    read id offset len (s, buf) = .err .fs (s, buf) := by
  have hwp : wp (read id offset len) (fun _ _ => False) (fun e t => e = .fs ∧ t = (s, buf))
      (fun _ => False) (s, buf) := by
    rw [read, wp_bind, wp_onFs, wp_gets, (h.object n id hid).2, if_pos hdir, wp_fail]
    exact ⟨rfl, rfl⟩
  obtain ⟨e, t, hrun, rfl, rfl⟩ := exists_err_of_wp hwp
  exact hrun

/-- Writing to a directory fails. -/
theorem Consistent.write_directory (h : Consistent s) (hid : s.cache n = some id)
    (hdir : (inodeAt s.disk s.superblock n).ty ≠ .file) (offset len : ℕ) (buf : Mem) :
    write id offset buf len s = .err .fs s := by
  have hwp : wp (write id offset buf len) (fun _ _ => False) (fun e t => e = .fs ∧ t = s)
      (fun _ => False) s := by
    rw [write, wp_bind, wp_gets, (h.object n id hid).2, if_pos hdir, wp_fail]
    exact ⟨rfl, rfl⟩
  obtain ⟨e, t, hrun, rfl, rfl⟩ := exists_err_of_wp hwp
  exact hrun

theorem wp_read_kept (h : Consistent s) (hid : s.cache n = some id) (offset len : ℕ) (buf : Mem) :
    wp (withBuffer buf (read id offset len)) (fun _ s' => Kept W s s') (fun _ s' => Kept W s s')
      (fun _ => False) s := by
  rw [wp_withBuffer]
  by_cases hfile : (inodeAt s.disk s.superblock n).ty = .file
  · obtain ⟨k, hrun⟩ := (h.opened hid hfile).read_run h.noFaults h.tidy.toWellFormed offset len buf
    exact wp_of_eq_ok hrun (h.looked k).kept
  · rw [read, wp_bind, wp_onFs, wp_gets, (h.object n id hid).2, if_pos hfile, wp_fail]
    exact Kept.refl h

theorem wp_write_kept (h : Consistent s) (hid : s.cache n = some id) (hW : n ∈ W)
    (offset len : ℕ) (buf : Mem) :
    wp (write id offset buf len) (fun _ s' => Kept W s s') (fun _ s' => Kept W s s')
      (fun _ => False) s := by
  by_cases hfile : (inodeAt s.disk s.superblock n).ty = .file
  · have ho := h.opened hid hfile
    have hwf := h.tidy.toWellFormed
    obtain ⟨k, hrun⟩ := ho.write_run h.noFaults hwf offset len buf
    have hn : ∀ i < transferred (inodeAt s.disk s.superblock n) offset len,
        offset + i < (inodeAt s.disk s.superblock n).metadata.sz.toNat := add_lt_of_lt_transferred
    have honly := hwf.onlyContents buf ho.reach hn
    exact wp_of_eq_ok hrun (honly.kept h hfile hW)
  · rw [write, wp_bind, wp_gets, (h.object n id hid).2, if_pos hfile, wp_fail]
    exact Kept.refl h

theorem wp_create_kept (h : Consistent s) (hid : s.cache n = some id) (path : List UInt8) :
    wp (create id path) (fun _ s' => Kept W s s') (fun _ s' => Kept W s s') (fun _ => False) s := by
  refine wp_mono (wp_create path h hid) ?_ ?_ fun _ => False.elim
  · rintro id' s' ⟨p, name, m, hvac, hlen, hcreated⟩
    obtain ⟨front, -, hfront, hdir, hnew⟩ := NameTree.vacancy_eq_ok_iff.mp hvac
    obtain ⟨allocated, block, hlinked⟩ := hcreated.linked
    have hp : Reach s.disk s.superblock p :=
      NameTree.Closed.resolve_mem (tree_closed s.disk s.superblock) (h.reach n id hid) hfront
    have hdir' := tree_isDir.mp hdir
    exact hcreated.kept (hlinked.nameAdded h.tidy hp hdir' hlen hnew) hdir'
  · rintro e s' ⟨hlooked, -⟩
    exact hlooked.kept

/-- **What one call keeps**, if it returns a value and if it fails. It does not panic. -/
theorem wp_perform_kept (call : Call) (h : Consistent s) (hcall : call.Allowed W s) :
    wp call.perform (fun _ s' => Kept W s s') (fun _ s' => Kept W s s') (fun _ => False) s := by
  cases call with
  | root =>
    obtain ⟨id, hid⟩ := Option.isSome_iff_exists.mp h.root
    rw [Call.perform, root, wp_bind, wp_gets, hid]
    exact (wp_expect_some ..).mpr (Kept.refl h)
  | openPath id path =>
    obtain ⟨n, hid⟩ := hcall
    refine wp_mono (wp_openPath h hid path) ?_ ?_ fun _ => False.elim
    · rintro id' s' ⟨m, -, -, hlooked⟩
      exact hlooked.kept
    · rintro e s' ⟨e', -, -, hlooked⟩
      exact hlooked.kept
  | create id path =>
    obtain ⟨n, hid⟩ := hcall
    exact wp_create_kept h hid path
  | read id offset buf len =>
    obtain ⟨n, hid⟩ := hcall
    exact wp_read_kept h hid offset len buf
  | write id offset buf len =>
    obtain ⟨n, hW, hid⟩ := hcall
    exact wp_write_kept h hid hW offset len buf

theorem Consistent.returned {call : Call} (h : Consistent s) (hcall : call.Allowed W s) :
    ∃ s', call.Returned s s' := by
  have hwp := wp_perform_kept call h hcall
  cases hrun : call.perform s with
  | ok v s' => exact ⟨s', .inl ⟨v, hrun⟩⟩
  | err e s' => exact ⟨s', .inr ⟨e, hrun⟩⟩
  | panic p => exact (wp_of_panic hwp hrun).elim

theorem Step.kept (h : Consistent s) (hstep : Step W s s') : Kept W s s' := by
  obtain ⟨call, hcall, ⟨v, hrun⟩ | ⟨e, hrun⟩⟩ := hstep
  · have hkept := wp_of_ok (wp_perform_kept call h hcall) hrun
    exact hkept
  · have hkept := wp_of_err (wp_perform_kept call h hcall) hrun
    exact hkept

/-- **What a session keeps**, by induction over its calls. -/
theorem kept_of_session (h : Consistent s) (hrun : Relation.ReflTransGen (Step W) s s') :
    Kept W s s' := by
  induction hrun with
  | refl => exact Kept.refl h
  | tail _ hstep ih => exact ih.trans (Step.kept ih.consistent hstep)

end Steps

/-- **Sessions lose nothing.** From every state of a session on a tidy disk on, handles stay
valid, every path that leads to an inode leads to it ever after, and every file keeps its inode
and, unless it is written, its contents. Every call returns. -/
theorem session_keeps (disk : Mem) (sb : SuperBlock) (ht : Tidy disk sb) (V W : Set ℕ)
    (s s' : Mounted)
    (hbefore : Relation.ReflTransGen (Step V) (device disk fun _ => .none).remounted s)
    (hrun : Relation.ReflTransGen (Step W) s s') :
    Kept W s s' ∧ ∀ call : Call, call.Allowed W s' → ∃ s'', call.Returned s' s'' := by
  have hkept := kept_of_session (kept_of_session ht.mounted hbefore).consistent hrun
  exact ⟨hkept, fun call hcall => hkept.consistent.returned hcall⟩

/-- The call that creates a second file on the small disk. -/
def createSecond : Call := .create 0 [98]

theorem allowed_createSecond :
    createSecond.Allowed ∅ (device smallDisk fun _ => .none).remounted := ⟨1, rfl⟩

/-- The first file of the small disk keeps its name when a second one is created. -/
theorem session_keeps_small :
    ∃ s, createSecond.Returned (device smallDisk fun _ => .none).remounted s ∧
      (tree s.disk smallSuper).resolve 1 [[97]] = .ok 2 := by
  obtain ⟨s, hreturned⟩ := tidy_small.mounted.returned allowed_createSecond
  have hstep : Step ∅ (device smallDisk fun _ => .none).remounted s :=
    ⟨createSecond, allowed_createSecond, hreturned⟩
  have hkept := (session_keeps smallDisk smallSuper tidy_small ∅ ∅ _ s .refl (.single hstep)).1
  have hroot : (device smallDisk fun _ => .none).remounted.superblock = smallSuper :=
    tidy_small.super_eq
  have hpaths := hkept.paths
  rw [hroot] at hpaths
  exact ⟨s, hreturned, hpaths 1 .root [[97]] 2 resolve_small⟩

/-! ## Mounting again -/

/-- Two handles of one inode that read the same. -/
structure SameFile (s₁ s₂ : Mounted) (id₁ id₂ : ℕ) : Prop where
  inode_eq : s₁.inodes id₁ = s₂.inodes id₂
  reads : ∀ offset len buf,
    (∃ r t₁ t₂, read id₁ offset len (s₁, buf) = .ok r t₁ ∧
      read id₂ offset len (s₂, buf) = .ok r t₂ ∧ t₁.2 = t₂.2) ∨
    ∃ e t₁ t₂, read id₁ offset len (s₁, buf) = .err e t₁ ∧
      read id₂ offset len (s₂, buf) = .err e t₂ ∧ t₁.2 = t₂.2

section Remount
variable {s s₁ s₂ : Mounted} {n id id₁ id₂ : ℕ}

/-- What a handle reads depends on its inode and on the disk. -/
theorem Consistent.sameFile (h₁ : Consistent s₁) (h₂ : Consistent s₂) (hdisk : s₂.disk = s₁.disk)
    (hsuper : s₂.superblock = s₁.superblock) (hid₁ : s₁.cache n = some id₁)
    (hid₂ : s₂.cache n = some id₂) : SameFile s₁ s₂ id₁ id₂ := by
  have hino : inodeAt s₂.disk s₂.superblock n = inodeAt s₁.disk s₁.superblock n := by
    rw [hdisk, hsuper]
  refine ⟨?_, fun offset len buf => ?_⟩
  · rw [(h₁.object n id₁ hid₁).2, (h₂.object n id₂ hid₂).2, hino]
  · by_cases hfile : (inodeAt s₁.disk s₁.superblock n).ty = .file
    · obtain ⟨k₁, hrun₁⟩ := (h₁.opened hid₁ hfile).read_run h₁.noFaults h₁.tidy.toWellFormed
        offset len buf
      obtain ⟨k₂, hrun₂⟩ := (h₂.opened hid₂ (hino ▸ hfile)).read_run h₂.noFaults
        h₂.tidy.toWellFormed offset len buf
      rw [hino, hdisk] at hrun₂
      exact .inl ⟨_, _, _, hrun₁, hrun₂, rfl⟩
    · exact .inr ⟨_, _, _, h₁.read_directory hid₁ hfile offset len buf,
        h₂.read_directory hid₂ (hino ▸ hfile) offset len buf, rfl⟩

/-- The state of a session, mounted again. -/
theorem Consistent.remounted (h : Consistent s) :
    Consistent s.remounted ∧ s.remounted.superblock = s.superblock := by
  have hsuper : SuperBlock.decode s.disk 0 = s.superblock := h.tidy.super_eq
  refine ⟨consistent_remounted h.noFaults ?_, hsuper⟩
  rw [hsuper]
  exact h.tidy

end Remount

/-- **Nothing is in memory only.** In every state of a session on a tidy disk, mounting the disk
again succeeds, and from the root every path then opens a file with the same inode and the same
contents as before, or fails with the same error. -/
theorem session_remount (disk : Mem) (sb : SuperBlock) (ht : Tidy disk sb) (W : Set ℕ)
    (s : Mounted)
    (hrun : Relation.ReflTransGen (Step W) (device disk fun _ => .none).remounted s)
    (path : List UInt8) :
    mount s = .ok () s.remounted ∧ ∃ root root', s.cache 1 = some root ∧
      s.remounted.cache 1 = some root' ∧
      ((∃ id₁ s₁ id₂ s₂, openPath root path s = .ok id₁ s₁ ∧
          openPath root' path s.remounted = .ok id₂ s₂ ∧ SameFile s₁ s₂ id₁ id₂) ∨
        ∃ e s₁ s₂, openPath root path s = .err e s₁ ∧
          openPath root' path s.remounted = .err e s₂) := by
  have hs := (kept_of_session ht.mounted hrun).consistent
  obtain ⟨hs', hsuper⟩ := hs.remounted
  have hmagic : (SuperBlock.decode s.disk 0).magic = magic := by
    rw [hs.tidy.super_eq]
    exact hs.tidy.laid.magic_eq
  obtain ⟨root, hroot⟩ := Option.isSome_iff_exists.mp hs.root
  obtain ⟨root', hroot'⟩ := Option.isSome_iff_exists.mp hs'.root
  have hfinds := wp_openPath hs hroot path
  have hfinds' := wp_openPath hs' hroot' path
  have hdisk : s.remounted.disk = s.disk := rfl
  rw [hsuper, hdisk] at hfinds'
  refine ⟨mount_run hs.noFaults hmagic, root, root', hroot, hroot', ?_⟩
  rcases hfinds.run with ⟨k, id₁, s₁, hk, hopen, hid₁, hlooked⟩ | ⟨e, s₁, he, hopen, -⟩
  · rcases hfinds'.run with ⟨k', id₂, s₂, hk', hopen', hid₂, hlooked'⟩ | ⟨e', s₂, he', -, -⟩
    · rw [hk] at hk'
      cases hk'
      have hdisk' : s₂.disk = s₁.disk := by rw [hlooked'.disk_eq, hlooked.disk_eq, hdisk]
      have hsuper' : s₂.superblock = s₁.superblock := by
        rw [hlooked'.superblock_eq, hlooked.superblock_eq, hsuper]
      exact .inl ⟨id₁, s₁, id₂, s₂, hopen, hopen',
        hlooked.consistent.sameFile hlooked'.consistent hdisk' hsuper' hid₁ hid₂⟩
    · rw [hk] at he'
      cases he'
  · rcases hfinds'.run with ⟨k', id₂, s₂, hk', -, -, -⟩ | ⟨e', s₂, he', hopen', -⟩
    · rw [he] at hk'
      cases hk'
    · rw [he] at he'
      cases he'
      exact .inr ⟨_, s₁, s₂, hopen, hopen'⟩

/-- The small disk is mounted again after a second file was created. -/
theorem session_remount_small :
    ∃ s, createSecond.Returned (device smallDisk fun _ => .none).remounted s ∧
      mount s = .ok () s.remounted := by
  obtain ⟨s, hreturned⟩ := tidy_small.mounted.returned allowed_createSecond
  have hstep : Step ∅ (device smallDisk fun _ => .none).remounted s :=
    ⟨createSecond, allowed_createSecond, hreturned⟩
  exact ⟨s, hreturned,
    (session_remount smallDisk smallSuper tidy_small ∅ s (.single hstep) [98]).1⟩

end Efiks.Vsfs
