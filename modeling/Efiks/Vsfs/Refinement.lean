import Efiks.Lib.Trace
import Efiks.Vsfs.Sessions

/-!
# Sessions refine a file system without a disk

`Files` is what a user of the file system has to know: the names, and the bytes of each file.
Its calls have no blocks, no bitmaps and no cache. Every session on a tidy disk returns what
these calls return, one after the other.

## Main definitions

* `Files`, `Files.Does` — the names and the files, and what each call does to them.
* `Acts` — a call on the mounted disk and what it returns.
* `Shows` — the disk has the names and the files.

## Main results

* `session_refines` — every session is one of `Files`.
-/
namespace Efiks.Vsfs
open Lib Lib.RustM Vfs

/-! ## Files without a disk -/

/-- The names of a file system, and the size and the bytes of its files. -/
structure Files where
  names : NameTree ℕ (List UInt8)
  isFile : ℕ → Bool
  size : ℕ → ℕ
  byte : ℕ → ℕ → UInt8

/-- A call on the inode `n`, and what it returned. An inode stands for its handle. -/
inductive Event
  | opened (n : ℕ) (path : List UInt8) (answer : Except VfsError ℕ)
  | created (n : ℕ) (path : List UInt8) (answer : Except VfsError ℕ)
  | read (n offset len : ℕ) (buf : Mem) (answer : Except VfsError (ℕ × Mem))
  | written (n offset len : ℕ) (buf : Mem) (answer : Except VfsError ℕ)

namespace Files

/-- The number of bytes that are there of `len` bytes at `offset`. -/
def count (f : Files) (n offset len : ℕ) : ℕ := min len (f.size n - offset)

/-- The files with `len` new bytes in the file `n`. -/
def patch (f : Files) (n offset len : ℕ) (buf : Mem) : Files :=
  { f with
    byte := Function.update f.byte n fun i =>
      if offset ≤ i ∧ i < offset + len then buf (i - offset) else f.byte n i }

/-- The files with the new, empty file `m`. -/
def add (f : Files) (p : ℕ) (name : List UInt8) (m : ℕ) : Files where
  names := f.names.link p name m
  isFile := Function.update f.isFile m true
  size := Function.update f.size m 0
  byte := f.byte

/-- What the calls do. A file is created under an unused number, or there is no room for it. -/
inductive Does (f : Files) : Event → Files → Prop
  | opened {n m : ℕ} {path : List UInt8} (h : f.names.resolve n (pieces 47 path) = .ok m) :
    Does f (.opened n path (.ok m)) f
  | notOpened {n : ℕ} {path : List UInt8} {e : NameError}
    (h : f.names.resolve n (pieces 47 path) = .error e) :
    Does f (.opened n path (.error (nameError e))) f
  | created {n p m : ℕ} {path name : List UInt8}
    (h : f.names.vacancy n (pieces 47 path) = .ok (p, name)) (hlen : name.length ≤ 27)
    (hfresh : ∀ path', f.names.resolve 1 path' ≠ .ok m) :
    Does f (.created n path (.ok m)) (f.add p name m)
  | noVacancy {n : ℕ} {path : List UInt8} {e : NameError}
    (h : f.names.vacancy n (pieces 47 path) = .error e) :
    Does f (.created n path (.error (nameError e))) f
  | noRoom {n p : ℕ} {path name : List UInt8}
    (h : f.names.vacancy n (pieces 47 path) = .ok (p, name)) :
    Does f (.created n path (.error .fs)) f
  | read {n : ℕ} (offset len : ℕ) (buf : Mem) (h : f.isFile n = true) :
    Does f (.read n offset len buf (.ok (f.count n offset len,
      buf.blit 0 (f.count n offset len) fun i => f.byte n (offset + i)))) f
  | notRead {n : ℕ} (offset len : ℕ) (buf : Mem) (h : f.isFile n = false) :
    Does f (.read n offset len buf (.error .fs)) f
  | written {n : ℕ} (offset len : ℕ) (buf : Mem) (h : f.isFile n = true) :
    Does f (.written n offset len buf (.ok (f.count n offset len)))
      (f.patch n offset (f.count n offset len) buf)
  | notWritten {n : ℕ} (offset len : ℕ) (buf : Mem) (h : f.isFile n = false) :
    Does f (.written n offset len buf (.error .fs)) f

end Files

/-! ## The calls on a mounted disk -/

/-- A call with the handle of an inode. -/
inductive Acts (s : Mounted) : Event → Mounted → Prop
  | opened {n id m id' : ℕ} {path : List UInt8} {s' : Mounted} (hid : s.cache n = some id)
    (hrun : openPath id path s = .ok id' s') (hid' : s'.cache m = some id') :
    Acts s (.opened n path (.ok m)) s'
  | notOpened {n id : ℕ} {path : List UInt8} {e : VfsError} {s' : Mounted}
    (hid : s.cache n = some id) (hrun : openPath id path s = .err e s') :
    Acts s (.opened n path (.error e)) s'
  | created {n id m id' : ℕ} {path : List UInt8} {s' : Mounted} (hid : s.cache n = some id)
    (hrun : create id path s = .ok id' s') (hid' : s'.cache m = some id') :
    Acts s (.created n path (.ok m)) s'
  | notCreated {n id : ℕ} {path : List UInt8} {e : VfsError} {s' : Mounted}
    (hid : s.cache n = some id) (hrun : create id path s = .err e s') :
    Acts s (.created n path (.error e)) s'
  | read {n id offset len r : ℕ} {buf buf' : Mem} {s' : Mounted} (hid : s.cache n = some id)
    (hrun : Vsfs.read id offset len (s, buf) = .ok r (s', buf')) :
    Acts s (.read n offset len buf (.ok (r, buf'))) s'
  | notRead {n id offset len : ℕ} {buf buf' : Mem} {e : VfsError} {s' : Mounted}
    (hid : s.cache n = some id) (hrun : Vsfs.read id offset len (s, buf) = .err e (s', buf')) :
    Acts s (.read n offset len buf (.error e)) s'
  | written {n id offset len r : ℕ} {buf : Mem} {s' : Mounted} (hid : s.cache n = some id)
    (hrun : write id offset buf len s = .ok r s') :
    Acts s (.written n offset len buf (.ok r)) s'
  | notWritten {n id offset len : ℕ} {buf : Mem} {e : VfsError} {s' : Mounted}
    (hid : s.cache n = some id) (hrun : write id offset buf len s = .err e s') :
    Acts s (.written n offset len buf (.error e)) s'

/-- The disk has the names and the files, as far as a path can reach them. -/
structure Shows (s : Mounted) (f : Files) : Prop where
  consistent : Consistent s
  lookup : ∀ n, Reach s.disk s.superblock n → ∀ name,
    f.names.lookup n name = (tree s.disk s.superblock).lookup n name
  isFile : ∀ n, Reach s.disk s.superblock n →
    (f.isFile n = true ↔ (inodeAt s.disk s.superblock n).ty = .file)
  size : ∀ n, Reach s.disk s.superblock n → (inodeAt s.disk s.superblock n).ty = .file →
    f.size n = (inodeAt s.disk s.superblock n).metadata.sz.toNat
  byte : ∀ n, Reach s.disk s.superblock n → (inodeAt s.disk s.superblock n).ty = .file →
    ∀ i < (inodeAt s.disk s.superblock n).metadata.sz.toNat,
      f.byte n i = fileByte s.disk (inodeAt s.disk s.superblock n) i

/-- The names and the files of a disk. -/
def files (disk : Mem) (sb : SuperBlock) : Files where
  names := tree disk sb
  isFile n := (inodeAt disk sb n).ty = .file
  size n := (inodeAt disk sb n).metadata.sz.toNat
  byte n := fileByte disk (inodeAt disk sb n)

theorem Consistent.shows_files {s : Mounted} (h : Consistent s) :
    Shows s (files s.disk s.superblock) :=
  ⟨h, fun _ _ _ => rfl, fun _ _ => decide_eq_true_iff, fun _ _ _ => rfl, fun _ _ _ _ _ => rfl⟩

/-- A handle belongs to one inode. -/
theorem Consistent.cache_inj {s : Mounted} (h : Consistent s) {n m id : ℕ}
    (hn : s.cache n = some id) (hm : s.cache m = some id) : n = m := by
  have hsame := (h.object n id hn).2.symm.trans (h.object m id hm).2
  exact congrArg INode.inum hsame

namespace Shows
variable {s s' : Mounted} {f : Files} {n id : ℕ} (h : Shows s f)
include h

theorem resolve_eq (hn : Reach s.disk s.superblock n) (path : List (List UInt8)) :
    f.names.resolve n path = (tree s.disk s.superblock).resolve n path :=
  (tree_closed s.disk s.superblock).resolve_congr hn h.lookup

theorem vacancy_eq (hn : Reach s.disk s.superblock n) (path : List (List UInt8)) :
    f.names.vacancy n path = (tree s.disk s.superblock).vacancy n path :=
  (tree_closed s.disk s.superblock).vacancy_congr hn h.lookup

/-- Looking something up leaves the files as they are. -/
theorem looked (hlooked : Looked s s') : Shows s' f := by
  refine ⟨hlooked.consistent, ?_, ?_, ?_, ?_⟩ <;> rw [hlooked.disk_eq, hlooked.superblock_eq]
  · exact h.lookup
  · exact h.isFile
  · exact h.size
  · exact h.byte

theorem isFile_eq_false (hn : Reach s.disk s.superblock n)
    (hfile : (inodeAt s.disk s.superblock n).ty ≠ .file) : f.isFile n = false :=
  Bool.eq_false_iff.mpr (mt (h.isFile n hn).mp hfile)

theorem count_eq (hn : Reach s.disk s.superblock n)
    (hfile : (inodeAt s.disk s.superblock n).ty = .file) (offset len : ℕ) :
    transferred (inodeAt s.disk s.superblock n) offset len = f.count n offset len := by
  rw [transferred, Files.count, h.size n hn hfile]

/-- Writing to a file. -/
theorem patch (hid : s.cache n = some id) (hfile : (inodeAt s.disk s.superblock n).ty = .file)
    {offset len k : ℕ} (buf : Mem)
    (hlen : ∀ i < len, offset + i < (inodeAt s.disk s.superblock n).metadata.sz.toNat) :
    Shows { s with
        ops := k
        disk := patchFile s.disk (inodeAt s.disk s.superblock n) offset len buf }
      (f.patch n offset len buf) := by
  have hwf := h.consistent.tidy.toWellFormed
  have ho := h.consistent.opened hid hfile
  have honly := hwf.onlyContents buf ho.reach hlen
  have hwritten := ho.written (k := k) buf hwf hlen
  have hino : ∀ m, Reach s.disk s.superblock m →
      inodeAt (patchFile s.disk (inodeAt s.disk s.superblock n) offset len buf) s.superblock m =
        inodeAt s.disk s.superblock m := fun m hm =>
    honly.inodeAt_eq hwf (hwf.inum_range m hm).2
  refine ⟨(honly.kept h.consistent hfile (Set.mem_univ n)).consistent, fun m hm name => ?_,
    fun m hm => ?_, fun m hm hfile' => ?_, fun m hm hfile' i hi => ?_⟩ <;>
    replace hm := (hwritten.reach m).mp hm
  · exact (h.lookup m hm name).trans (honly.lookup_eq hwf hfile hm name).symm
  · dsimp only
    rw [hino m hm]
    exact h.isFile m hm
  · dsimp only at hfile' ⊢
    rw [hino m hm] at hfile' ⊢
    exact h.size m hm hfile'
  · dsimp only at hfile' hi ⊢
    rw [hino m hm] at hfile' hi
    by_cases hmn : m = n
    · subst hmn
      have hcontents := hwritten.contents i hi
      dsimp only at hcontents
      rw [hcontents, Files.patch]
      dsimp only
      rw [Function.update_self, h.byte m hm hfile' i hi]
    · rw [hwritten.others m hm hmn i hi, Files.patch]
      dsimp only
      rw [Function.update_of_ne hmn]
      exact h.byte m hm hfile' i hi

/-- Creating a file. -/
theorem add {p m : ℕ} {name : List UInt8} (hcreated : Created s s' p name m id)
    (hp : Reach s.disk s.superblock p) (hlen : name.length ≤ 27)
    (hdir : (inodeAt s.disk s.superblock p).ty = .directory) (hdir' : f.names.isDir p = true)
    (hnew : (tree s.disk s.superblock).child p name = none) : Shows s' (f.add p name m) := by
  have ht := h.consistent.tidy
  obtain ⟨allocated, block, hlinked⟩ := hcreated.linked
  have hadded := hlinked.nameAdded ht hp hdir hlen hnew
  have hpm := hlinked.ne_new ht hp
  -- an old inode that is a file afterwards is not the directory
  have hne : ∀ n, (inodeAt s'.disk s.superblock n).ty = .file → n ≠ p := by
    rintro n hfile rfl
    rw [hlinked.ty_parent hdir] at hfile
    cases hfile
  refine ⟨hcreated.consistent, ?_, ?_, ?_, ?_⟩ <;> rw [hcreated.superblock_eq] <;> intro n hn <;>
    rcases (hadded.reach_iff n).mp hn with hold | rfl
  · intro other
    rw [hlinked.lookup_eq ht hp hdir hlen hnew hold, Files.add]
    by_cases hentry : n = p ∧ other = name
    · obtain ⟨rfl, rfl⟩ := hentry
      rw [NameTree.lookup_link_new hdir' hpm, NameTree.lookup_link_new (tree_isDir.mpr hdir) hpm]
    · have hnm := hlinked.ne_new ht hold
      rw [NameTree.lookup_link_of_ne hnm hentry, NameTree.lookup_link_of_ne hnm hentry]
      exact h.lookup n hold other
  · intro other
    rw [NameTree.lookup_of_not_dir (by simp [Files.add, NameTree.link]), NameTree.lookup_of_not_dir]
    rw [Bool.eq_false_iff, Ne, tree_isDir, hadded.empty]
    decide
  · have hisFile : (f.add p name m).isFile n = f.isFile n :=
      Function.update_of_ne (hlinked.ne_new ht hold) ..
    rw [hisFile, h.isFile n hold]
    by_cases hnp : n = p
    · rw [hnp, hlinked.ty_parent hdir, hdir]
    · rw [(hadded.contents n hold hnp).1]
  · simp [Files.add, hadded.empty, emptyFile]
  · intro hfile
    obtain ⟨hino, -⟩ := hadded.contents n hold (hne n hfile)
    have hsize : (f.add p name m).size n = f.size n :=
      Function.update_of_ne (hlinked.ne_new ht hold) ..
    rw [hino] at hfile ⊢
    rw [hsize, h.size n hold hfile]
  · intro _
    rw [hadded.empty]
    exact Function.update_self ..
  · intro hfile i hi
    obtain ⟨hino, hbytes⟩ := hadded.contents n hold (hne n hfile)
    rw [hino] at hfile hi ⊢
    rw [hbytes i hi]
    exact h.byte n hold hfile i hi
  · intro _ i hi
    rw [hadded.empty] at hi
    exact absurd hi (Nat.not_lt_zero i)

/-! ## One call -/

theorem opens (hid : s.cache n = some id) {path : List UInt8} {id' m : ℕ}
    (hrun : openPath id path s = .ok id' s') (hid' : s'.cache m = some id') :
    ∃ f', f.Does (.opened n path (.ok m)) f' ∧ Shows s' f' := by
  rcases (wp_openPath h.consistent hid path).run with
    ⟨k, id₁, s₁, hk, hopen, hcache, hlooked⟩ | ⟨e, s₁, -, hopen, -⟩
  · obtain ⟨rfl, rfl⟩ := Outcome.ok.inj (hrun.symm.trans hopen)
    obtain rfl := hlooked.consistent.cache_inj hcache hid'
    refine ⟨f, .opened ?_, h.looked hlooked⟩
    rw [h.resolve_eq (h.consistent.reach n id hid), hk]
  · rw [hrun] at hopen
    cases hopen

theorem notOpens (hid : s.cache n = some id) {path : List UInt8} {e : VfsError}
    (hrun : openPath id path s = .err e s') :
    ∃ f', f.Does (.opened n path (.error e)) f' ∧ Shows s' f' := by
  rcases (wp_openPath h.consistent hid path).run with
    ⟨k, id₁, s₁, -, hopen, -, -⟩ | ⟨e', s₁, he, hopen, hlooked⟩
  · rw [hrun] at hopen
    cases hopen
  · obtain ⟨rfl, rfl⟩ := Outcome.err.inj (hrun.symm.trans hopen)
    refine ⟨f, .notOpened ?_, h.looked hlooked⟩
    rw [h.resolve_eq (h.consistent.reach n id hid), he]

theorem creates (hid : s.cache n = some id) {path : List UInt8} {id' m : ℕ}
    (hrun : create id path s = .ok id' s') (hid' : s'.cache m = some id') :
    ∃ f', f.Does (.created n path (.ok m)) f' ∧ Shows s' f' := by
  have hn := h.consistent.reach n id hid
  obtain ⟨p, name, m', hvac, hlen, hcreated⟩ := wp_of_ok (wp_create path h.consistent hid) hrun
  obtain rfl := hcreated.consistent.cache_inj hcreated.handle hid'
  have hvac' := (h.vacancy_eq hn (pieces 47 path)).trans hvac
  obtain ⟨front, -, hfront, hdir, hnew⟩ := NameTree.vacancy_eq_ok_iff.mp hvac
  obtain ⟨-, -, -, hdir', -⟩ := NameTree.vacancy_eq_ok_iff.mp hvac'
  have hclosed := tree_closed s.disk s.superblock
  have hp : Reach s.disk s.superblock p := NameTree.Closed.resolve_mem hclosed hn hfront
  refine ⟨f.add p name m', .created hvac' hlen fun path' hpath => ?_,
    h.add hcreated hp hlen (tree_isDir.mp hdir) hdir' hnew⟩
  obtain ⟨allocated, block, hlinked⟩ := hcreated.linked
  rw [h.resolve_eq .root] at hpath
  exact hlinked.not_reach h.consistent.tidy (NameTree.Closed.resolve_mem hclosed .root hpath)

theorem notCreates (hid : s.cache n = some id) {path : List UInt8} {e : VfsError}
    (hrun : create id path s = .err e s') :
    ∃ f', f.Does (.created n path (.error e)) f' ∧ Shows s' f' := by
  have hvacancy := h.vacancy_eq (h.consistent.reach n id hid) (pieces 47 path)
  obtain ⟨hlooked, ⟨e', hvac, rfl⟩ | ⟨p, name, hvac, rfl, -⟩⟩ :=
    wp_of_err (wp_create path h.consistent hid) hrun
  · exact ⟨f, .noVacancy (hvacancy.trans hvac), h.looked hlooked⟩
  · exact ⟨f, .noRoom (hvacancy.trans hvac), h.looked hlooked⟩

/-- A read of `len` bytes, if the inode is a file and if it is not. -/
theorem reads (hid : s.cache n = some id) (offset len : ℕ) (buf : Mem) :
    (∃ s' buf', Vsfs.read id offset len (s, buf) = .ok (f.count n offset len) (s', buf') ∧
      f.Does (.read n offset len buf (.ok (f.count n offset len, buf'))) f ∧ Shows s' f) ∨
    Vsfs.read id offset len (s, buf) = .err .fs (s, buf) ∧
      f.Does (.read n offset len buf (.error .fs)) f := by
  have hn := h.consistent.reach n id hid
  by_cases hfile : (inodeAt s.disk s.superblock n).ty = .file
  · obtain ⟨k, hrun⟩ := (h.consistent.opened hid hfile).read_run h.consistent.noFaults
      h.consistent.tidy.toWellFormed offset len buf
    have hbytes : (buf.blit 0 (transferred (inodeAt s.disk s.superblock n) offset len) fun i =>
        fileByte s.disk (inodeAt s.disk s.superblock n) (offset + i)) =
        buf.blit 0 (f.count n offset len) fun i => f.byte n (offset + i) := by
      rw [h.count_eq hn hfile]
      refine Mem.blit_congr fun i hi => ?_
      rw [← h.count_eq hn hfile] at hi
      exact (h.byte n hn hfile _ (add_lt_of_lt_transferred i hi)).symm
    rw [hbytes, h.count_eq hn hfile] at hrun
    exact .inl ⟨_, _, hrun, .read offset len buf ((h.isFile n hn).mpr hfile),
      h.looked (h.consistent.looked k)⟩
  · exact .inr ⟨h.consistent.read_directory hid hfile offset len buf,
      .notRead offset len buf (h.isFile_eq_false hn hfile)⟩

/-- A write of `len` bytes, if the inode is a file and if it is not. -/
theorem writes (hid : s.cache n = some id) (offset len : ℕ) (buf : Mem) :
    (∃ s' f', write id offset buf len s = .ok (f.count n offset len) s' ∧
      f.Does (.written n offset len buf (.ok (f.count n offset len))) f' ∧ Shows s' f') ∨
    write id offset buf len s = .err .fs s ∧
      f.Does (.written n offset len buf (.error .fs)) f := by
  have hn := h.consistent.reach n id hid
  by_cases hfile : (inodeAt s.disk s.superblock n).ty = .file
  · obtain ⟨k, hrun⟩ := (h.consistent.opened hid hfile).write_run h.consistent.noFaults
      h.consistent.tidy.toWellFormed offset len buf
    have hlen : ∀ i < f.count n offset len,
        offset + i < (inodeAt s.disk s.superblock n).metadata.sz.toNat := by
      rw [← h.count_eq hn hfile]
      exact add_lt_of_lt_transferred
    rw [h.count_eq hn hfile] at hrun
    exact .inl ⟨_, _, hrun, .written offset len buf ((h.isFile n hn).mpr hfile),
      h.patch hid hfile buf hlen⟩
  · exact .inr ⟨h.consistent.write_directory hid hfile offset len buf,
      .notWritten offset len buf (h.isFile_eq_false hn hfile)⟩

/-- **One call** on the disk is one call on the files. -/
theorem acts {event : Event} (hacts : Acts s event s') :
    ∃ f', f.Does event f' ∧ Shows s' f' := by
  cases hacts with
  | opened hid hrun hid' => exact h.opens hid hrun hid'
  | notOpened hid hrun => exact h.notOpens hid hrun
  | created hid hrun hid' => exact h.creates hid hrun hid'
  | notCreated hid hrun => exact h.notCreates hid hrun
  | read hid hrun =>
    rcases h.reads hid _ _ _ with ⟨s₁, buf₁, hread, hdoes, hshows⟩ | ⟨hread, -⟩
    · obtain ⟨rfl, hstate⟩ := Outcome.ok.inj (hrun.symm.trans hread)
      obtain ⟨rfl, rfl⟩ := Prod.mk.inj hstate
      exact ⟨f, hdoes, hshows⟩
    · rw [hrun] at hread
      cases hread
  | notRead hid hrun =>
    rcases h.reads hid _ _ _ with ⟨s₁, buf₁, hread, -, -⟩ | ⟨hread, hdoes⟩
    · rw [hrun] at hread
      cases hread
    · obtain ⟨rfl, hstate⟩ := Outcome.err.inj (hrun.symm.trans hread)
      obtain ⟨rfl, -⟩ := Prod.mk.inj hstate
      exact ⟨f, hdoes, h⟩
  | written hid hrun =>
    rcases h.writes hid _ _ _ with ⟨s₁, f₁, hwrite, hdoes, hshows⟩ | ⟨hwrite, -⟩
    · obtain ⟨rfl, rfl⟩ := Outcome.ok.inj (hrun.symm.trans hwrite)
      exact ⟨f₁, hdoes, hshows⟩
    · rw [hrun] at hwrite
      cases hwrite
  | notWritten hid hrun =>
    rcases h.writes hid _ _ _ with ⟨s₁, f₁, hwrite, -, -⟩ | ⟨hwrite, hdoes⟩
    · rw [hrun] at hwrite
      cases hwrite
    · obtain ⟨rfl, rfl⟩ := Outcome.err.inj (hrun.symm.trans hwrite)
      exact ⟨f, hdoes, h⟩

end Shows

/-- **Sessions refine the files without a disk.** Whatever calls are made on a tidy disk, one
after the other, their answers are those of the names and files that the disk had when it was
mounted, and in the end the disk has the names and files that the calls lead to. -/
theorem session_refines (disk : Mem) (sb : SuperBlock) (ht : Tidy disk sb) (events : List Event)
    (s : Mounted) (hrun : Trace Acts (device disk fun _ => .none).remounted events s) :
    ∃ f, Trace Files.Does (files disk sb) events f ∧ Shows s f := by
  have hstart := ht.mounted.shows_files
  have hsuper : (device disk fun _ => .none).remounted.superblock = sb := ht.super_eq
  rw [hsuper] at hstart
  exact hrun.simulated (fun _ _ _ _ h hacts => h.acts hacts) hstart

/-- A session that opens the file of the small disk. -/
theorem session_refines_small :
    ∃ s f, Trace Acts (device smallDisk fun _ => .none).remounted [.opened 1 [97] (.ok 2)] s ∧
      Trace Files.Does (files smallDisk smallSuper) [.opened 1 [97] (.ok 2)] f ∧ Shows s f := by
  have hroot : (device smallDisk fun _ => .none).remounted.cache 1 = some 0 := rfl
  have hfinds := wp_openPath tidy_small.mounted hroot [97]
  have hsuper : (device smallDisk fun _ => .none).remounted.superblock = smallSuper :=
    tidy_small.super_eq
  have hpieces : pieces 47 [97] = [([97] : List UInt8)] := by decide
  have hdisk : (device smallDisk fun _ => .none).remounted.disk = smallDisk := rfl
  rw [hsuper, hpieces, hdisk, resolve_small] at hfinds
  rcases hfinds.run with ⟨m, id, s, hm, hopen, hid, -⟩ | ⟨e, s, he, -, -⟩
  · cases hm
    have hrun : Trace Acts (device smallDisk fun _ => .none).remounted [.opened 1 [97] (.ok 2)] s :=
      .cons (.opened hroot hopen hid) (.nil s)
    obtain ⟨f, hdoes, hshows⟩ := session_refines smallDisk smallSuper tidy_small _ s hrun
    exact ⟨s, f, hrun, hdoes, hshows⟩
  · cases he

end Efiks.Vsfs
