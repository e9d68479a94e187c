import Efiks.Lib.Split
import Efiks.Vsfs.Namespace

/-!
# The mount table

An absolute path is handed to the file system mounted at the longest matching path, without
the part that matched. Paths are compared byte by byte, with a test that the match ends at a
slash, while the file systems below split the rest at slashes and ignore empty components.

The two views agree when the mount that covers most components of a path is written out at
its beginning. They differ on `//mnt/a`: its components are those of `/mnt/a`, but `/mnt` is
not found.

## Main definitions

* `FileSystems`, `findMount`, `resolvePath`.
* `Longest` — the mount that covers most components of a path.
* `Resolves` — the path is resolved as its components say.

## Main results

* `resolvePath_iff` — `Resolves` holds iff the longest mount is written out.
-/
namespace Efiks.Vfs
open Lib

/-- `b'/'`. -/
def slash : UInt8 := 47

/-- The mounted file systems, with different paths. -/
structure FileSystems (φ : Type) where
  entries : List (List UInt8 × φ)
  nodup : (entries.map Prod.fst).Nodup

/-- The nonempty components of a path. -/
def components (path : List UInt8) : List (List UInt8) := pieces slash path

def isMountPrefix (mount path : List UInt8) : Bool :=
  if mount = [slash] then [slash].isPrefixOf path
  else path = mount || (mount.isPrefixOf path && path[mount.length]? = some slash)

def stripPrefix (start s : List UInt8) : Option (List UInt8) :=
  if start.isPrefixOf s then some (s.drop start.length) else none

variable {φ : Type}

/-- `max_by_key` with the length of the mount path: the last of the longest. -/
def maxByLength : List (List UInt8 × φ) → Option (List UInt8 × φ)
  | [] => none
  | e :: es =>
      match maxByLength es with
      | some best => if e.1.length ≤ best.1.length then some best else some e
      | none => some e

def findMount (mounts : FileSystems φ) (path : List UInt8) : Option (List UInt8 × φ) :=
  maxByLength (mounts.entries.filter fun m => isMountPrefix m.1 path)

/-- The part of `path` that the file system mounted at `mountPath` is given. -/
def relativePath (mountPath path : List UInt8) : List UInt8 :=
  if mountPath = [slash] then (stripPrefix [slash] path).getD path
  else (stripPrefix [slash] ((stripPrefix mountPath path).getD path)).getD []

def resolvePath (mounts : FileSystems φ) (path : List UInt8) : Except VfsError (φ × List UInt8) :=
  match findMount mounts path with
  | none => .error .fs
  | some (mountPath, fs) => .ok (fs, relativePath mountPath path)

/-- `/` or `/c₁/…/cₙ` with nonempty components. -/
def IsMountPath (key : List UInt8) : Prop :=
  key = [slash] ∨ ∃ cs : List (List UInt8), cs ≠ [] ∧ (∀ c ∈ cs, c ≠ [] ∧ slash ∉ c) ∧
    key = cs.flatMap (slash :: ·)

/-- The components of the mount are the first components of the path. -/
def Covers (mounts : FileSystems φ) (path : List UInt8) (m : List UInt8 × φ) : Prop :=
  m ∈ mounts.entries ∧ components m.1 <+: components path

/-- No mount covers more of the path. -/
def Longest (mounts : FileSystems φ) (path : List UInt8) (m : List UInt8 × φ) : Prop :=
  Covers mounts path m ∧
    ∀ m', Covers mounts path m' → (components m'.1).length ≤ (components m.1).length

/-- The path goes to the longest mount, with the components that are left. -/
def Resolves (mounts : FileSystems φ) (path : List UInt8) : Prop :=
  match resolvePath mounts path with
  | .ok (fs, rel) => ∃ m, Longest mounts path m ∧ m.2 = fs ∧
      components rel = (components path).drop (components m.1).length
  | .error _ => ∀ m, ¬ Covers mounts path m

/-- The longest mount is written out at the beginning of the path. -/
def WrittenOut (mounts : FileSystems φ) (path : List UInt8) : Prop :=
  ∀ m, Longest mounts path m → isMountPrefix m.1 path = true

section Keys
variable {cs cs' : List (List UInt8)} {key key' path t : List UInt8}

theorem components_append (c : List UInt8) (ht : t = [] ∨ ∃ t', t = slash :: t') :
    components (c ++ t) = components c ++ components t := by
  rcases ht with rfl | ⟨t', rfl⟩
  · rw [List.append_nil, show components [] = [] from pieces_nil, List.append_nil]
  · exact (pieces_append_cons c t').trans (congrArg _ (pieces_cons t').symm)

/-- A mount path in front adds its components. -/
theorem components_flatMap (hcs : ∀ c ∈ cs, c ≠ [] ∧ slash ∉ c)
    (ht : t = [] ∨ ∃ t', t = slash :: t') :
    components (cs.flatMap (slash :: ·) ++ t) = cs ++ components t := by
  induction cs with
  | nil => rfl
  | cons c cs ih =>
      obtain ⟨hc, hcs⟩ := List.forall_mem_cons.mp hcs
      have hrest : cs.flatMap (slash :: ·) ++ t = [] ∨
          ∃ t', cs.flatMap (slash :: ·) ++ t = slash :: t' := by
        cases cs with
        | nil => exact ht
        | cons c' cs => exact Or.inr ⟨_, rfl⟩
      have hone : components c = [c] := (pieces_of_not_mem hc.2).trans (if_neg hc.1)
      have hsplit : (c :: cs).flatMap (slash :: ·) ++ t =
          slash :: (c ++ (cs.flatMap (slash :: ·) ++ t)) := by simp
      calc components ((c :: cs).flatMap (slash :: ·) ++ t)
          = components (c ++ (cs.flatMap (slash :: ·) ++ t)) := by
            rw [hsplit]
            exact pieces_cons _
        _ = [c] ++ (cs ++ components t) := by rw [components_append c hrest, hone, ih hcs]
        _ = c :: cs ++ components t := rfl

theorem components_slash : components [slash] = [] := by decide

/-- A mount path is its components. -/
theorem IsMountPath.eq (h : IsMountPath key) :
    key = if components key = [] then [slash] else (components key).flatMap (slash :: ·) := by
  rcases h with rfl | ⟨cs, hne, hcs, rfl⟩
  · rfl
  · have hself : components (cs.flatMap (slash :: ·)) = cs := by
      simpa [show components [] = [] from pieces_nil] using components_flatMap hcs (Or.inl rfl)
    rw [hself, if_neg hne]

theorem IsMountPath.eq_of_components (h : IsMountPath key) (h' : IsMountPath key')
    (heq : components key = components key') : key = key' := by
  rw [h.eq, h'.eq, heq]

theorem ne_nil_of_mem_components {c : List UInt8} (h : c ∈ components path) : c ≠ [] := by
  simpa using (List.mem_filter.mp h).2

/-- More components make a longer path. -/
theorem IsMountPath.length_lt (h : IsMountPath key) (h' : IsMountPath key')
    (hpre : components key <+: components key')
    (hlt : (components key).length < (components key').length) : key.length < key'.length := by
  obtain ⟨rest, hrest⟩ := hpre
  obtain ⟨c, cs, rfl⟩ : ∃ c cs, rest = c :: cs := by
    apply List.exists_cons_of_ne_nil
    intro hnil
    rw [hnil, List.append_nil] at hrest
    simp [hrest] at hlt
  have hmem : c ∈ components key' := by simp [← hrest]
  have hc : 1 ≤ c.length := List.length_pos_iff.mpr (ne_nil_of_mem_components hmem)
  have hlen : key'.length = ((components key ++ c :: cs).flatMap (slash :: ·)).length := by
    conv_lhs => rw [h'.eq]
    rw [hrest, if_neg]
    intro hnil
    simp [hnil] at hlt
  have hself : key.length =
      (if components key = [] then [slash] else (components key).flatMap (slash :: ·)).length :=
    congrArg List.length h.eq
  rw [hlen, hself]
  split
  · simp
    omega
  · simp

/-- What a match by bytes leaves. -/
theorem isMountPrefix_cases (h : IsMountPath key) (hm : isMountPrefix key path = true) :
    ∃ t, path = key ++ t ∧ (key ≠ [slash] → t = [] ∨ ∃ t', t = slash :: t') := by
  unfold isMountPrefix at hm
  split at hm
  · rename_i hkey
    obtain ⟨t, ht⟩ := List.isPrefixOf_iff_prefix.mp hm
    exact ⟨t, by rw [hkey, ht], fun hne => absurd hkey hne⟩
  · simp only [Bool.or_eq_true, decide_eq_true_eq, Bool.and_eq_true] at hm
    rcases hm with rfl | ⟨hpre, hslash⟩
    · exact ⟨[], by simp, fun _ => Or.inl rfl⟩
    · obtain ⟨t, rfl⟩ := List.isPrefixOf_iff_prefix.mp hpre
      refine ⟨t, rfl, fun _ => Or.inr ?_⟩
      cases t with
      | nil => simp at hslash
      | cons c t =>
          simp at hslash
          exact ⟨t, by rw [hslash]⟩

/-- **A match by bytes** splits the components of the path. -/
theorem components_of_isMountPrefix (h : IsMountPath key) (hm : isMountPrefix key path = true) :
    components path = components key ++ components (relativePath key path) := by
  obtain ⟨t, rfl, ht⟩ := isMountPrefix_cases h hm
  unfold relativePath stripPrefix
  by_cases hkey : key = [slash]
  · subst hkey
    simp [components, pieces_cons]
  · rw [if_neg hkey, components_append _ (ht hkey)]
    congr 1
    rcases ht hkey with rfl | ⟨t', rfl⟩
    · simp
    · simp [components, pieces_cons]

end Keys

section Search
variable {path : List UInt8} {l : List (List UInt8 × φ)} {m best : List UInt8 × φ}

theorem maxByLength_eq_none (h : maxByLength l = none) : l = [] := by
  cases l with
  | nil => rfl
  | cons e es =>
      rw [maxByLength] at h
      split at h
      · split at h <;> cases h
      · cases h

/-- The best is in the list, and nothing in it is longer. -/
theorem maxByLength_eq_some (h : maxByLength l = some best) :
    best ∈ l ∧ ∀ m ∈ l, m.1.length ≤ best.1.length := by
  induction l generalizing best with
  | nil => cases h
  | cons e es ih =>
      rw [maxByLength] at h
      split at h
      · rename_i b hb
        obtain ⟨hmem, hmax⟩ := ih hb
        split at h
        · rename_i hle
          obtain rfl := Option.some.inj h
          refine ⟨List.mem_cons_of_mem _ hmem, ?_⟩
          simpa using ⟨hle, fun a b hab => hmax (a, b) hab⟩
        · rename_i hlt
          obtain rfl := Option.some.inj h
          refine ⟨List.mem_cons_self, ?_⟩
          intro m hm
          rcases List.mem_cons.mp hm with rfl | hm
          · exact Nat.le_refl _
          · have := hmax m hm
            omega
      · rename_i hnone
        obtain rfl := Option.some.inj h
        simp [maxByLength_eq_none hnone]

end Search

section Resolution
variable {mounts : FileSystems φ} {path path' : List UInt8} {m m' : List UInt8 × φ}

/-- A mount that covers the path has a longest one beside it. -/
theorem exists_longest (h : Covers mounts path m) : ∃ m', Longest mounts path m' := by
  have hiff : ∀ x, x ∈ mounts.entries.filter (fun x => components x.1 <+: components path) ↔
      Covers mounts path x := by simp [Covers]
  cases hbest : (mounts.entries.filter fun x => components x.1 <+: components path).argmax
      fun x => (components x.1).length with
  | none =>
      rw [List.argmax_eq_none] at hbest
      have hm := (hiff m).mpr h
      simp [hbest] at hm
  | some best =>
      refine ⟨best, (hiff best).mp (List.argmax_mem hbest), ?_⟩
      intro m' hm'
      have hle := List.le_of_mem_argmax ((hiff m').mpr hm') hbest
      exact hle

variable (hkeys : ∀ m ∈ mounts.entries, IsMountPath m.1)
include hkeys

theorem covers_of_isMountPrefix (hm : m ∈ mounts.entries) (hp : isMountPrefix m.1 path = true) :
    Covers mounts path m :=
  ⟨hm, components_of_isMountPrefix (hkeys m hm) hp ▸ List.prefix_append _ _⟩

/-- Mounts that cover as many components of the path are the same. -/
theorem eq_of_length_eq (h : Covers mounts path m) (h' : Covers mounts path m')
    (hlen : (components m.1).length = (components m'.1).length) : m = m' := by
  have hcomp : components m.1 = components m'.1 := by
    apply List.IsPrefix.eq_of_length _ hlen
    exact List.prefix_of_prefix_length_le h.2 h'.2 hlen.le
  have hkey : m.1 = m'.1 :=
    (hkeys m h.1).eq_of_components (hkeys m' h'.1) hcomp
  exact List.inj_on_of_nodup_map mounts.nodup h.1 h'.1 hkey

theorem longest_unique (h : Longest mounts path m) (h' : Longest mounts path m') : m = m' :=
  eq_of_length_eq hkeys h.1 h'.1 (Nat.le_antisymm (h'.2 m h.1) (h.2 m' h'.1))

/-- What the search finds. -/
theorem findMount_eq_some (h : findMount mounts path = some m) :
    Covers mounts path m ∧ isMountPrefix m.1 path = true ∧
      ∀ m' ∈ mounts.entries, isMountPrefix m'.1 path = true → m'.1.length ≤ m.1.length := by
  obtain ⟨hmem, hmax⟩ := maxByLength_eq_some h
  obtain ⟨hm, hp⟩ := List.mem_filter.mp hmem
  refine ⟨covers_of_isMountPrefix hkeys hm hp, hp, ?_⟩
  intro m' hm' hp'
  exact hmax m' (List.mem_filter.mpr ⟨hm', hp'⟩)

/-- A longest mount that is written out is found. -/
theorem findMount_of_longest (hl : Longest mounts path m) (hp : isMountPrefix m.1 path = true) :
    findMount mounts path = some m := by
  cases hfind : findMount mounts path with
  | none =>
      have hnil := maxByLength_eq_none hfind
      have hmem : m ∈ mounts.entries.filter fun m => isMountPrefix m.1 path :=
        List.mem_filter.mpr ⟨hl.1.1, hp⟩
      simp [hnil] at hmem
  | some best =>
      obtain ⟨hcov, -, hmax⟩ := findMount_eq_some hkeys hfind
      have hle := hl.2 best hcov
      -- a shorter list of components would be a shorter path
      have hge : (components m.1).length ≤ (components best.1).length := by
        by_contra hlt
        have hpre := List.prefix_of_prefix_length_le hcov.2 hl.1.2 hle
        have hlen := (hkeys best hcov.1).length_lt (hkeys m hl.1.1) hpre (Nat.not_le.mp hlt)
        have := hmax m hl.1.1 hp
        omega
      rw [eq_of_length_eq hkeys hcov hl.1 (Nat.le_antisymm hle hge)]

theorem resolvePath_of_longest (hl : Longest mounts path m) (hp : isMountPrefix m.1 path = true) :
    resolvePath mounts path = .ok (m.2, relativePath m.1 path) := by
  rw [resolvePath, findMount_of_longest hkeys hl hp]

theorem components_relativePath (hl : Covers mounts path m) (hp : isMountPrefix m.1 path = true) :
    components (relativePath m.1 path) = (components path).drop (components m.1).length := by
  rw [components_of_isMountPrefix (hkeys m hl.1) hp, List.drop_left]

/-- Without a mount that covers the path nothing is found. -/
theorem resolvePath_of_not_covers (h : ∀ m, ¬ Covers mounts path m) :
    resolvePath mounts path = .error .fs := by
  rw [resolvePath]
  cases hfind : findMount mounts path with
  | none => rfl
  | some m => exact absurd (findMount_eq_some hkeys hfind).1 (h m)

theorem resolves_of_writtenOut (h : WrittenOut mounts path) : Resolves mounts path := by
  by_cases hcov : ∃ m, Covers mounts path m
  · obtain ⟨m, hl⟩ := exists_longest hcov.choose_spec
    rw [Resolves, resolvePath_of_longest hkeys hl (h m hl)]
    exact ⟨m, hl, rfl, components_relativePath hkeys hl.1 (h m hl)⟩
  · have hnone : ∀ m, ¬ Covers mounts path m := fun m hm => hcov ⟨m, hm⟩
    rw [Resolves, resolvePath_of_not_covers hkeys hnone]
    exact hnone

theorem writtenOut_of_resolves (h : Resolves mounts path) : WrittenOut mounts path := by
  intro m hl
  rw [Resolves, resolvePath] at h
  cases hfind : findMount mounts path with
  | none =>
      simp only [hfind] at h
      exact absurd hl.1 (h m)
  | some best =>
      obtain ⟨hcov, hp, -⟩ := findMount_eq_some hkeys hfind
      simp only [hfind] at h
      obtain ⟨m', hl', -, hdrop⟩ := h
      obtain rfl := longest_unique hkeys hl hl'
      -- both leave the same components, so both take as many away
      rw [components_relativePath hkeys hcov hp] at hdrop
      have hlen := congrArg List.length hdrop
      have h₁ := hcov.2.length_le
      have h₂ := hl.1.2.length_le
      simp only [List.length_drop] at hlen
      rw [eq_of_length_eq hkeys hl.1 hcov (by omega)]
      exact hp

omit hkeys in
theorem longest_congr (h : components path' = components path) :
    Longest mounts path' m ↔ Longest mounts path m := by
  simp only [Longest, Covers, h]

/-- Both paths lead to the same file system, with the same components left for it: `open` of
VSFS finds the same file. Or neither leads anywhere. -/
def SameTarget (mounts : FileSystems φ) (path path' : List UInt8) : Prop :=
  match resolvePath mounts path, resolvePath mounts path' with
  | .ok (fs, rel), .ok (fs', rel') => fs = fs' ∧ components rel = components rel' ∧
      ∀ inode, Vsfs.openPath inode rel = Vsfs.openPath inode rel'
  | .error e, .error e' => e = e'
  | _, _ => False

/-- Paths with the same components lead to the same place when both are written out. -/
theorem sameTarget_of_writtenOut (hcomp : components path' = components path)
    (h : WrittenOut mounts path) (h' : WrittenOut mounts path') : SameTarget mounts path path' := by
  by_cases hcov : ∃ m, Covers mounts path m
  · obtain ⟨m, hl⟩ := exists_longest hcov.choose_spec
    have hl' := (longest_congr hcomp).mpr hl
    have hrel : components (relativePath m.1 path) = components (relativePath m.1 path') := by
      rw [components_relativePath hkeys hl.1 (h m hl),
        components_relativePath hkeys hl'.1 (h' m hl'), hcomp]
    rw [SameTarget, resolvePath_of_longest hkeys hl (h m hl),
      resolvePath_of_longest hkeys hl' (h' m hl')]
    refine ⟨rfl, hrel, ?_⟩
    intro inode
    exact congrArg (Vsfs.openLoop inode) hrel
  · have hnone : ∀ m, ¬ Covers mounts path m := fun m hm => hcov ⟨m, hm⟩
    have hnone' : ∀ m, ¬ Covers mounts path' m := fun m hm => hnone m ⟨hm.1, hcomp ▸ hm.2⟩
    rw [SameTarget, resolvePath_of_not_covers hkeys hnone, resolvePath_of_not_covers hkeys hnone']

end Resolution

/-- **Resolving a path.** It goes to the longest mount, with the components that are left,
exactly when that mount is written out at its beginning; and paths with the same components for
which this is so lead to the same file. -/
theorem resolvePath_iff (mounts : FileSystems φ) (hkeys : ∀ m ∈ mounts.entries, IsMountPath m.1)
    (path : List UInt8) :
    (Resolves mounts path ↔ WrittenOut mounts path) ∧
      ∀ path', components path' = components path → WrittenOut mounts path →
        WrittenOut mounts path' → SameTarget mounts path path' :=
  ⟨⟨writtenOut_of_resolves hkeys, resolves_of_writtenOut hkeys⟩,
    fun _ hcomp h h' => sameTarget_of_writtenOut hkeys hcomp h h'⟩

/-- A root file system, and another one at `/mnt`. -/
def rootAndMnt : FileSystems ℕ where
  entries := [([47], 0), ([47, 109, 110, 116], 1)]
  nodup := by decide

theorem isMountPath_rootAndMnt : ∀ m ∈ rootAndMnt.entries, IsMountPath m.1 := by
  intro m hm
  simp only [rootAndMnt, List.mem_cons, List.not_mem_nil, or_false] at hm
  rcases hm with rfl | rfl
  · exact Or.inl rfl
  · exact Or.inr ⟨[[109, 110, 116]], by decide, by decide, by decide⟩

/-- `/mnt/a`. -/
theorem resolvePath_mnt_a :
    (Resolves rootAndMnt [47, 109, 110, 116, 47, 97] ↔
      WrittenOut rootAndMnt [47, 109, 110, 116, 47, 97]) ∧
    ∀ path', components path' = components [47, 109, 110, 116, 47, 97] →
      WrittenOut rootAndMnt [47, 109, 110, 116, 47, 97] → WrittenOut rootAndMnt path' →
        SameTarget rootAndMnt [47, 109, 110, 116, 47, 97] path' :=
  resolvePath_iff rootAndMnt isMountPath_rootAndMnt _

/-- **`//mnt/a` goes to the root file system**, although `/mnt` covers it. -/
theorem slashes_miss_mount : ¬ Resolves rootAndMnt [47, 47, 109, 110, 116, 47, 97] := by
  have hrun : resolvePath rootAndMnt [47, 47, 109, 110, 116, 47, 97] =
      .ok (0, [47, 109, 110, 116, 47, 97]) := by rfl
  rw [Resolves, hrun]
  rintro ⟨m, hl, hfs, -⟩
  have hcov : Covers rootAndMnt [47, 47, 109, 110, 116, 47, 97] ([47, 109, 110, 116], 1) :=
    ⟨by decide, by decide⟩
  have hle := hl.2 _ hcov
  have hm := hl.1.1
  simp only [rootAndMnt, List.mem_cons, List.not_mem_nil, or_false] at hm
  rcases hm with rfl | rfl
  · exact absurd hle (by decide)
  · cases hfs

end Efiks.Vfs
