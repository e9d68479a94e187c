import Efiks.Lib.NameTree
import Efiks.Vsfs.NoPanic

/-!
# The names on a disk

The directory entries of a disk are a tree of names. `open` resolves a path in it: what
it returns depends on the disk only, whatever inodes are in the cache, as long as the
cached inodes are those of the disk.

An inode number has one object. A handle of the inode `n` is an object `id` with
`s.cache n = some id`.

## Main definitions

* `tree` — the names of a disk.
* `Tidy` — a well-formed disk whose names fit into their entries.
* `Consistent` — the cached inodes are those of the disk.
* `Looked` — what a call may change that only looks.

## Main results

* `wp_lookupPathInner` — one name.
* `open_resolves` — `open` resolves the path on the disk.
-/
namespace Efiks.Vsfs
open Lib Lib.RustM Vfs

/-- The first entry with a name. -/
def findEntry (disk : Mem) (inode : INodeInner) (name : List UInt8) : Option ℕ :=
  (List.range inode.entryCount).find? fun k => (entryAt disk inode k).nameBytes = name

/-- The names of a disk. -/
def tree (disk : Mem) (sb : SuperBlock) : NameTree ℕ (List UInt8) where
  isDir n := (inodeAt disk sb n).ty = .directory
  child n name := (findEntry disk (inodeAt disk sb n) name).map fun k =>
    (entryAt disk (inodeAt disk sb n) k).inum.toNat

/-- The error of the file system for a path without a node. -/
def nameError : NameError → VfsError
  | .notDirectory => .fs
  | .notFound => .notFound
  | .taken => .fs

/-- A well-formed disk whose names fit into their entries. -/
structure Tidy (disk : Mem) (sb : SuperBlock) : Prop extends WellFormed disk sb where
  name_len : ∀ n, Reach disk sb n → (inodeAt disk sb n).ty = .directory →
    ∀ k < (inodeAt disk sb n).entryCount, (entryAt disk (inodeAt disk sb n) k).nameLen.toNat ≤ 27

section Tree
variable {disk : Mem} {sb : SuperBlock} {inode : INodeInner} {n m k : ℕ} {name : List UInt8}

@[simp] theorem tree_isDir : (tree disk sb).isDir n = true ↔ (inodeAt disk sb n).ty = .directory :=
  decide_eq_true_iff

theorem findEntry_eq : findEntry disk inode name = (List.range' 0 inode.entryCount).find? fun k =>
    (entryAt disk inode k).nameBytes = name := by rw [findEntry, List.range_eq_range']

theorem findEntry_lt (h : findEntry disk inode name = some k) : k < inode.entryCount :=
  List.mem_range.mp (List.mem_of_find?_eq_some h)

theorem findEntry_name (h : findEntry disk inode name = some k) :
    (entryAt disk inode k).nameBytes = name := by
  rw [findEntry] at h
  simpa using List.find?_some h

theorem findEntry_eq_none_iff : findEntry disk inode name = none ↔
    ∀ k < inode.entryCount, (entryAt disk inode k).nameBytes ≠ name := by
  simp [findEntry]

/-- The names of a directory depend on its entries only. -/
theorem tree_child_congr {disk' : Mem} (hino : inodeAt disk' sb n = inodeAt disk sb n)
    (h : ∀ k < (inodeAt disk sb n).entryCount,
      entryAt disk' (inodeAt disk sb n) k = entryAt disk (inodeAt disk sb n) k)
    (name : List UInt8) : (tree disk' sb).child n name = (tree disk sb).child n name := by
  have hfind : findEntry disk' (inodeAt disk sb n) name =
      findEntry disk (inodeAt disk sb n) name := by
    refine List.find?_congr fun k hk => ?_
    rw [h k (List.mem_range.mp hk)]
  simp only [tree, hino, hfind]
  cases hfound : findEntry disk (inodeAt disk sb n) name with
  | none => rfl
  | some k => rw [Option.map_some, Option.map_some, h k (findEntry_lt hfound)]

theorem tree_lookup_of_ok (h : (tree disk sb).lookup n name = .ok m) :
    (inodeAt disk sb n).ty = .directory ∧ ∃ k < (inodeAt disk sb n).entryCount,
      (entryAt disk (inodeAt disk sb n) k).nameBytes = name ∧
      (entryAt disk (inodeAt disk sb n) k).inum.toNat = m := by
  obtain ⟨hdir, hchild⟩ := NameTree.lookup_eq_ok_iff.mp h
  obtain ⟨k, hk, hinum⟩ := Option.map_eq_some_iff.mp hchild
  exact ⟨tree_isDir.mp hdir, k, findEntry_lt hk, findEntry_name hk, hinum⟩

/-- Names lead to reachable inodes. -/
theorem tree_closed (disk : Mem) (sb : SuperBlock) :
    (tree disk sb).Closed {n | Reach disk sb n} := by
  intro n hn name m hlookup
  obtain ⟨hdir, k, hk, -, rfl⟩ := tree_lookup_of_ok hlookup
  exact .entry hn hdir hk

end Tree

/-! ## The cache -/

/-- The cached inodes are those of the disk, and no sector operation fails. -/
structure Consistent (s : Mounted) : Prop where
  noFaults : s.NoFaults
  tidy : Tidy s.disk s.superblock
  root : (s.cache 1).isSome
  reach : ∀ n id, s.cache n = some id → Reach s.disk s.superblock n
  object : ∀ n id, s.cache n = some id →
    id < s.next ∧ s.inodes id = ⟨n, inodeAt s.disk s.superblock n⟩

/-- A call that only looks may read inodes into the cache. -/
structure Looked (s s' : Mounted) : Prop where
  consistent : Consistent s'
  disk_eq : s'.disk = s.disk
  superblock_eq : s'.superblock = s.superblock
  retains : ∀ n id, s.cache n = some id → s'.cache n = some id

section Cache
variable {s s' s'' : Mounted} {n id : ℕ}

theorem Consistent.ops (h : Consistent s) (ops : ℕ) : Consistent { s with ops := ops } :=
  ⟨h.noFaults, h.tidy, h.root, h.reach, h.object⟩

theorem Consistent.looked (h : Consistent s) (ops : ℕ) : Looked s { s with ops := ops } :=
  ⟨h.ops ops, rfl, rfl, fun _ _ => id⟩

theorem Looked.trans (h : Looked s s') (h' : Looked s' s'') : Looked s s'' :=
  ⟨h'.consistent, h'.disk_eq.trans h.disk_eq, h'.superblock_eq.trans h.superblock_eq,
    fun n id hid => h'.retains n id (h.retains n id hid)⟩

/-- An inode number that can be reached fits into 32 bits. -/
theorem Tidy.inum_lt {disk : Mem} {sb : SuperBlock} (h : Tidy disk sb) (hn : Reach disk sb n) :
    n < 2 ^ 32 := (h.inum_range n hn).2.trans sb.ninodes.toNat_lt

/-- The state with a new object for the inode `n`. -/
def Mounted.withInode (s : Mounted) (n : ℕ) (inner : INodeInner) : Mounted :=
  { s with
    inodes := Function.update s.inodes s.next ⟨n, inner⟩
    cache := Function.update s.cache n (some s.next)
    next := s.next + 1 }

theorem withInode_cache_self (inner : INodeInner) : (s.withInode n inner).cache n = some s.next :=
  Function.update_self ..

theorem withInode_cache_of_ne {k : ℕ} (hk : k ≠ n) (inner : INodeInner) :
    (s.withInode n inner).cache k = s.cache k := Function.update_of_ne hk ..

theorem withInode_inodes_self (inner : INodeInner) :
    (s.withInode n inner).inodes s.next = ⟨n, inner⟩ := Function.update_self ..

theorem withInode_inodes_of_lt (hid : id < s.next) (inner : INodeInner) :
    (s.withInode n inner).inodes id = s.inodes id := Function.update_of_ne hid.ne ..

theorem Consistent.withInode (h : Consistent s) (hn : Reach s.disk s.superblock n) :
    Consistent (s.withInode n (inodeAt s.disk s.superblock n)) := by
  refine ⟨h.noFaults, h.tidy, ?_, fun k id hk => ?_, fun k id hk => ?_⟩
  · by_cases h1 : 1 = n
    · rw [h1, withInode_cache_self]
      rfl
    · rw [withInode_cache_of_ne h1]
      exact h.root
  · by_cases hkn : k = n
    · rw [hkn]
      exact hn
    · rw [withInode_cache_of_ne hkn] at hk
      exact h.reach k id hk
  · have hnext : (s.withInode n (inodeAt s.disk s.superblock n)).next = s.next + 1 := rfl
    rw [hnext]
    by_cases hkn : k = n
    · rw [hkn, withInode_cache_self] at hk
      cases hk
      rw [hkn]
      exact ⟨by omega, withInode_inodes_self ..⟩
    · rw [withInode_cache_of_ne hkn] at hk
      obtain ⟨hlt, hobject⟩ := h.object k id hk
      exact ⟨by omega, by rw [withInode_inodes_of_lt hlt, hobject]; rfl⟩

theorem wp_cacheInode {Q : ℕ → Mounted → Prop} {E : VfsError → Mounted → Prop} {N : Panic → Prop}
    (inner : INodeInner) :
    wp (cacheInode n inner) Q E N s ↔ Q s.next (s.withInode n inner) := by
  rw [cacheInode, wp_bind, wp_gets, wp_bind, wp_modify, wp_pure, Mounted.withInode]

/-- The object of a reachable inode. -/
theorem wp_readInode (h : Consistent s) (hn : Reach s.disk s.superblock n) :
    wp (readInode n) (fun id s' => s'.cache n = some id ∧ Looked s s') (fun _ _ => False)
      (fun _ => False) s := by
  rw [readInode, wp_bind, wp_gets]
  cases hcache : s.cache n with
  | some id =>
    rw [wp_pure]
    exact ⟨hcache, h.looked s.ops⟩
  | none =>
    rw [wp_bind, wp_gets, wp_bind, wp_readInodeFromBlock h.noFaults (h.tidy.inum_lt hn),
      wp_cacheInode]
    have hnew : Consistent (Mounted.withInode { s with ops := s.ops + 1 } n
        (inodeAt s.disk s.superblock n)) := (h.ops (s.ops + 1)).withInode hn
    refine ⟨withInode_cache_self .., hnew, rfl, rfl, fun k id hk => ?_⟩
    have hkn : k ≠ n := by
      rintro rfl
      rw [hcache] at hk
      cases hk
    rw [withInode_cache_of_ne hkn]
    exact hk

/-- Mounting a tidy disk. -/
theorem consistent_remounted (hs : s.NoFaults) (ht : Tidy s.disk (SuperBlock.decode s.disk 0)) :
    Consistent s.remounted := by
  have hcache : ∀ k id, s.remounted.cache k = some id → k = 1 ∧ id = s.next := by
    intro k id hk
    rw [Mounted.remounted] at hk
    dsimp only at hk
    by_cases hk1 : k = 1
    · rw [hk1, Function.update_self] at hk
      exact ⟨hk1, (Option.some.inj hk).symm⟩
    · rw [Function.update_of_ne hk1] at hk
      cases hk
  refine ⟨hs, ht, ?_, fun k id hk => ?_, fun k id hk => ?_⟩
  · rw [Mounted.remounted]
    dsimp only
    rw [Function.update_self]
    rfl
  · rw [(hcache k id hk).1]
    exact .root
  · obtain ⟨rfl, rfl⟩ := hcache k id hk
    exact ⟨Nat.lt_succ_self _, Function.update_self ..⟩

theorem Tidy.mounted {disk : Mem} {sb : SuperBlock} (ht : Tidy disk sb) :
    Consistent (device disk fun _ => .none).remounted := by
  have hsuper : SuperBlock.decode (device disk fun _ => .none).disk 0 = sb := ht.super_eq
  refine consistent_remounted (fun _ => rfl) ?_
  rw [hsuper]
  exact ht

end Cache

/-! ## Looking up names -/

section Lookup
variable {s : Mounted} {n id : ℕ} {name : List UInt8}

/-- The sector of an entry holds the entry. -/
theorem decode_sectorAt_entry (disk : Mem) (inode : INodeInner) (k : ℕ) :
    DirEnt.decode (sectorAt disk ((pointerOf disk inode (k * direntSize / blockSize)).toNat *
        sectorsPerBlock + k * direntSize % blockSize / sectorSize))
      (k * direntSize % blockSize % sectorSize) = entryAt disk inode k := by
  refine DirEnt.decode_congr fun i hi => ?_
  rw [sectorAt, fileAddr, Nat.mul_comm direntSize k]
  unfold direntSize sectorSize sectorsPerBlock blockSize at *
  rw [if_pos (by omega)]
  congr 1
  omega

/-- The entries of a directory are on the disk. -/
theorem WellFormed.blockOf_entry {disk : Mem} {sb : SuperBlock} (h : WellFormed disk sb)
    (hn : Reach disk sb n) {k : ℕ} (hk : k < (inodeAt disk sb n).entryCount) :
    blockOf disk (inodeAt disk sb n) (k * direntSize / blockSize) =
      some (pointerOf disk (inodeAt disk sb n) (k * direntSize / blockSize)) := by
  have hpos := entry_pos_lt hk (i := 0) (by decide)
  rw [Nat.add_zero, Nat.mul_comm] at hpos
  have hrange := (h.ref_range n hn _ (pointerOf_mem_refs (div_lt_blockCount hpos))).1
  have hdata := h.laid.bitmaps_data.1
  refine if_neg fun hzero => ?_
  rw [hzero, UInt32.toNat_zero] at hrange
  omega

/-- The loop over the entries finds the first one with the name. -/
theorem wp_lookupEntries (h : Consistent s) (hn : Reach s.disk s.superblock n)
    (hdir : (inodeAt s.disk s.superblock n).ty = .directory) (name : List UInt8) (count first : ℕ)
    (hcount : first + count = (inodeAt s.disk s.superblock n).entryCount) (ops : ℕ) :
    let inode := inodeAt s.disk s.superblock n
    let found := (List.range' first count).find? fun k => (entryAt s.disk inode k).nameBytes = name
    wp (lookupEntries inode name first count)
      (fun id s' => ∃ k, found = some k ∧
        s'.cache (entryAt s.disk inode k).inum.toNat = some id ∧ Looked s s')
      (fun e s' => found = none ∧ e = .notFound ∧ Looked s s') (fun _ => False)
      { s with ops := ops } := by
  intro inode found
  -- the induction is on the entries that are left
  induction count generalizing first ops with
  | zero =>
    rw [lookupEntries, wp_fail]
    exact ⟨rfl, rfl, h.looked ops⟩
  | succ count ih =>
    have hk : first < (inodeAt s.disk s.superblock n).entryCount := by omega
    have hsz := (inodeAt s.disk s.superblock n).metadata.sz.toNat_lt
    have hmul : first * direntSize < 2 ^ 64 := by
      unfold INodeInner.entryCount direntSize at *
      omega
    have hsec : first * direntSize % blockSize / sectorSize < 2 ^ 32 := by
      unfold blockSize sectorSize
      omega
    have hbound : first * direntSize % blockSize % sectorSize + direntSize ≤ sectorSize := by
      unfold blockSize sectorSize direntSize
      omega
    have hlen := h.tidy.name_len n hn hdir first hk
    rw [lookupEntries, wp_bind, wp_mulUsize]
    refine ⟨fun _ => ?_, fun hover => absurd hmul hover.not_gt⟩
    rw [wp_bind]
    refine wp_dataBlock h.noFaults (fun ops b hb => ?_) fun ops hb => ?_
    · have hblock := h.tidy.blockOf_entry hn hk
      rw [hb] at hblock
      obtain rfl := Option.some.inj hblock
      rw [wp_bind, wp_blockSector _ hsec, wp_bind, wp_readSector (by exact h.noFaults), wp_bind,
        wp_inBounds]
      refine ⟨fun _ => ?_, fun hover => absurd hbound hover.not_ge⟩
      dsimp only
      rw [decode_sectorAt_entry]
      have hfound : found = if (entryAt s.disk inode first).nameBytes = name then some first
          else (List.range' (first + 1) count).find? fun k =>
            (entryAt s.disk inode k).nameBytes = name := by
        simp only [found, List.range'_succ, List.find?_cons]
        by_cases hname : (entryAt s.disk inode first).nameBytes = name <;> simp [hname]
      have hname27 : (entryAt s.disk inode first).name.length = 27 := by
        rw [entryAt, DirEnt.decode, List.length_map, List.length_range]
      rw [if_neg (by rw [hname27]; exact Nat.not_lt.mpr hlen)]
      by_cases hname : (entryAt s.disk inode first).nameBytes = name
      · rw [if_pos hname] at hfound
        rw [DirEnt.nameBytes] at hname
        rw [if_pos hname]
        refine wp_mono (wp_readInode (h.ops (ops + 1)) (.entry hn hdir hk)) ?_
          (fun _ _ => False.elim)
          fun _ => id
        intro id s' hread
        exact ⟨first, hfound, hread.1, (h.looked (ops + 1)).trans hread.2⟩
      · rw [if_neg hname] at hfound
        rw [DirEnt.nameBytes] at hname
        rw [if_neg hname, hfound]
        exact ih (first + 1) (by omega) (ops + 1)
    · rw [h.tidy.blockOf_entry hn hk] at hb
      cases hb

/-- A call that returns a handle of the node that `r` says, or the error. -/
def Finds (m : FM ℕ) (r : Except NameError ℕ) (s : Mounted) : Prop :=
  wp m (fun id s' => ∃ k, r = .ok k ∧ s'.cache k = some id ∧ Looked s s')
    (fun e s' => ∃ e', r = .error e' ∧ e = nameError e' ∧ Looked s s') (fun _ => False) s

/-- **One name in a directory.** -/
theorem wp_lookupPathInner (h : Consistent s) (hn : Reach s.disk s.superblock n)
    (name : List UInt8) :
    Finds (lookupPathInner (inodeAt s.disk s.superblock n) name)
      ((tree s.disk s.superblock).lookup n name) s := by
  rw [Finds, lookupPathInner, wp_ite]
  refine ⟨fun hdir => ?_, fun hdir => ?_⟩
  · rw [wp_fail]
    refine ⟨_, NameTree.lookup_of_not_dir ?_, rfl, h.looked s.ops⟩
    rwa [Bool.eq_false_iff, Ne, tree_isDir]
  · rw [not_not] at hdir
    have hsize := h.tidy.dir_size n hn hdir
    rw [if_neg (not_not.mpr hsize)]
    refine wp_mono (wp_lookupEntries h hn hdir name _ 0 (Nat.zero_add _) s.ops) ?_ ?_ fun _ => id
    · rintro id s' ⟨k, hfound, hcache, hlooked⟩
      refine ⟨_, NameTree.lookup_eq_ok_iff.mpr ⟨tree_isDir.mpr hdir, ?_⟩, hcache, hlooked⟩
      rw [← findEntry_eq] at hfound
      simp only [tree, hfound, Option.map]
    · rintro e s' ⟨hfound, rfl, hlooked⟩
      refine ⟨_, NameTree.lookup_eq_notFound_iff.mpr ⟨tree_isDir.mpr hdir, ?_⟩, rfl, hlooked⟩
      rw [← findEntry_eq] at hfound
      simp only [tree, hfound, Option.map]

/-- Two handles of one inode are the same object, so it does not matter which one is kept. -/
theorem Consistent.follow_eq (h : Consistent s) {current next m : ℕ}
    (hcurrent : s.cache n = some current) (hnext : s.cache m = some next) :
    follow current next s = .ok next s := by
  rw [follow, gets_run, (h.object n current hcurrent).2, (h.object m next hnext).2]
  by_cases hnm : n = m
  · subst hnm
    rw [hcurrent] at hnext
    rw [if_neg (not_not.mpr rfl), Option.some.inj hnext]
  · rw [if_pos hnm]

theorem wp_walk (h : Consistent s) (hid : s.cache n = some id) (name : List UInt8) :
    Finds (walk id name) ((tree s.disk s.superblock).lookup n name) s := by
  have hn := h.reach n id hid
  rw [Finds, walk, wp_bind, wp_gets, wp_bind, (h.object n id hid).2]
  refine wp_consequence (wp_lookupPathInner h hn name) ?_
  rintro next s' ⟨m, hlookup, hcache, hlooked⟩
  exact wp_of_eq_ok (hlooked.consistent.follow_eq (hlooked.retains n id hid) hcache)
    ⟨m, hlookup, hcache, hlooked⟩

/-- The loop of `open`. -/
theorem wp_openLoop (path : List (List UInt8)) (h : Consistent s) (hid : s.cache n = some id) :
    Finds (openLoop id path) ((tree s.disk s.superblock).resolve n path) s := by
  induction path generalizing s n id with
  | nil =>
    rw [Finds, openLoop, wp_pure]
    exact ⟨n, rfl, hid, h.looked s.ops⟩
  | cons name path ih =>
    rw [Finds, openLoop, wp_bind, wp_gets, (h.object n id hid).2, wp_ite]
    refine ⟨fun hfile => ?_, fun _ => ?_⟩
    · rw [wp_fail]
      refine ⟨_, NameTree.resolve_cons_of_error (NameTree.lookup_of_not_dir ?_), rfl,
        h.looked s.ops⟩
      rw [Bool.eq_false_iff, Ne, tree_isDir, hfile]
      decide
    · rw [wp_bind]
      refine wp_mono (wp_walk h hid name) ?_ ?_ fun _ => False.elim
      · rintro next s' ⟨m, hlookup, hcache, hlooked⟩
        refine wp_mono (ih hlooked.consistent hcache) ?_ ?_ fun _ => False.elim
        · rintro last s'' ⟨k, hresolve, hlast, hlooked'⟩
          rw [hlooked.disk_eq, hlooked.superblock_eq] at hresolve
          exact ⟨k, by rw [NameTree.resolve_cons_of_ok hlookup, hresolve], hlast,
            hlooked.trans hlooked'⟩
        · rintro e s'' ⟨e', hresolve, he, hlooked'⟩
          rw [hlooked.disk_eq, hlooked.superblock_eq] at hresolve
          exact ⟨e', by rw [NameTree.resolve_cons_of_ok hlookup, hresolve], he,
            hlooked.trans hlooked'⟩
      · rintro e s' ⟨e', hlookup, he, hlooked⟩
        exact ⟨e', NameTree.resolve_cons_of_error hlookup, he, hlooked⟩

/-- The two ways in which a search of a path returns. -/
theorem Finds.run {m : FM ℕ} {r : Except NameError ℕ} (h : Finds m r s) :
    (∃ k id s', r = .ok k ∧ m s = .ok id s' ∧ s'.cache k = some id ∧ Looked s s') ∨
      ∃ e s', r = .error e ∧ m s = .err (nameError e) s' ∧ Looked s s' := by
  rw [Finds] at h
  cases hrun : m s with
  | ok id s' =>
    obtain ⟨k, hk, hcache, hlooked⟩ := wp_of_ok h hrun
    exact .inl ⟨k, id, s', hk, rfl, hcache, hlooked⟩
  | err e s' =>
    obtain ⟨e', he, rfl, hlooked⟩ := wp_of_err h hrun
    exact .inr ⟨e', s', he, rfl, hlooked⟩
  | panic p => exact (wp_of_panic h hrun).elim

/-- **`open` resolves the path on the disk.** -/
theorem wp_openPath (h : Consistent s) (hid : s.cache n = some id) (path : List UInt8) :
    Finds (openPath id path) ((tree s.disk s.superblock).resolve n (pieces 47 path)) s :=
  wp_openLoop _ h hid

/-- **`open` depends on the disk only**: it returns the handle of the inode that the path has in
the tree of names, or the error that the path has there, whatever is in the cache. -/
theorem open_resolves (s : Mounted) (n id : ℕ) (path : List UInt8) (h : Consistent s)
    (hid : s.cache n = some id) :
    (∀ m, (tree s.disk s.superblock).resolve n (pieces 47 path) = .ok m →
      ∃ id' s', openPath id path s = .ok id' s' ∧ s'.cache m = some id' ∧ Looked s s') ∧
    ∀ e, (tree s.disk s.superblock).resolve n (pieces 47 path) = .error e →
      ∃ s', openPath id path s = .err (nameError e) s' ∧ Looked s s' := by
  rcases (wp_openPath h hid path).run with
    ⟨m, id', s', hresolve, hrun, hcache, hlooked⟩ | ⟨e, s', hresolve, hrun, hlooked⟩
  · refine ⟨fun m' hm' => ?_, fun e he => ?_⟩
    · rw [hresolve] at hm'
      cases hm'
      exact ⟨id', s', hrun, hcache, hlooked⟩
    · rw [hresolve] at he
      cases he
  · refine ⟨fun m hm => ?_, fun e' he' => ?_⟩
    · rw [hresolve] at hm
      cases hm
    · rw [hresolve] at he'
      cases he'
      exact ⟨s', hrun, hlooked⟩

theorem tidy_small : Tidy smallDisk smallSuper := by
  refine ⟨wellFormed_small, fun n hn hty => ?_⟩
  rcases reach_small hn with rfl | rfl
  · decide +kernel
  · exact absurd hty (by decide +kernel)

theorem resolve_small : (tree smallDisk smallSuper).resolve 1 [[97]] = .ok 2 :=
  NameTree.resolve_cons_of_ok
    (NameTree.lookup_eq_ok_iff.mpr ⟨by decide +kernel, by decide +kernel⟩)

/-- The file of the small disk, right after mounting. -/
theorem open_resolves_small :
    ∃ id s', openPath 0 [97] (device smallDisk fun _ => .none).remounted = .ok id s' ∧
      s'.cache 2 = some id := by
  have hopen := open_resolves (device smallDisk fun _ => .none).remounted 1 0 [97]
    tidy_small.mounted rfl
  have hroot : (device smallDisk fun _ => .none).remounted.superblock = smallSuper :=
    tidy_small.super_eq
  rw [hroot] at hopen
  have hpieces : pieces 47 [97] = [([97] : List UInt8)] := by decide
  obtain ⟨id, s', hrun, hcache, -⟩ := hopen.1 2 (by rw [hpieces]; exact resolve_small)
  exact ⟨id, s', hrun, hcache⟩

end Lookup

end Efiks.Vsfs
