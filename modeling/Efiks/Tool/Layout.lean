import Mathlib
import Efiks.Lib.Split

/-!
# Layout files of the image tool

`vsfs-tool` builds the tree it writes to an image from a JSON file. A node of the
JSON tree has a path, absolute or relative to the node that contains it; the tool
checks the path, cuts the node's name from it and builds a tree of names.

Strings are lists of characters. What `fs::read` returns for the `source` of a file is
a parameter.

## Main definitions

* `JsonLayoutNode`, `LayoutNode` — the two trees.
* `normalizePath`, `absoluteParent`, `layoutFromJson` — as in the tool.
* `At` — a node of the result with its JSON node, its normalized path and its names.
* `AsWritten` — every node is where its path puts it.
-/
namespace Efiks.Tool
open Lib

/-- A string. -/
abbrev Str := List Char

/-- `s.as_bytes().len()`. -/
def byteLen (s : Str) : ℕ := (s.map Char.utf8Size).sum

/-- A node of the layout file. -/
structure JsonLayoutNode where
  ty : Str
  path : Option Str
  contains : List JsonLayoutNode
  content : Option Str
  contents : Option Str
  source : Option Str

mutual

inductive LayoutKind
  | directory (children : List LayoutNode)
  | file (data : List UInt8)

/-- A node of the tree that is written to the image. -/
inductive LayoutNode
  | mk (name : Str) (kind : LayoutKind)

end

def LayoutNode.name : LayoutNode → Str
  | ⟨name, _⟩ => name

def LayoutNode.kind : LayoutNode → LayoutKind
  | ⟨_, kind⟩ => kind

/-- A text with a quoted part. -/
def quoted (before : String) (s : Str) (after : String) : Str :=
  before.toList ++ '`' :: s ++ '`' :: after.toList

/-- The path of a child: as given if it is absolute, below the parent's otherwise. -/
def joinPath (parentPath rawPath : Str) : Str :=
  if rawPath.head? = some '/' then rawPath
  else if parentPath = ['/'] then '/' :: rawPath
  else parentPath ++ '/' :: rawPath

def normalizePath (parentPath rawPath : Str) (isRoot : Bool) : Except Str Str :=
  if isRoot then
    if rawPath ≠ ['/'] then .error (quoted "root layout node must have path " ['/'] "")
    else .ok ['/']
  else if rawPath = [] ∨ rawPath.getLast? = some '/' then
    .error (quoted "invalid path " rawPath "")
  else
    let path := joinPath parentPath rawPath
    if (path.splitOn '/').any fun component => component = ['.'] ∨ component = ['.', '.'] then
      .error (quoted "path " path " must not contain `.` or `..`")
    else .ok path

def absoluteParent (normalizedPath : Str) : Str :=
  match rsplitOnce '/' normalizedPath with
  | some ([], _) => ['/']
  | some (parent, _) => parent
  | none => []

/-- The name of a node: none for the root, else the last component of its path. -/
def nameOf (isRoot : Bool) (path : Str) : Except Str Str :=
  if isRoot then .ok []
  else match (path.splitOn '/').getLast?.filter (· ≠ []) with
  | some name => .ok name
  | none => .error (quoted "invalid non-root path " path "")

/-- `source_base.join(source)`, or `source` itself if it is absolute. -/
def sourcePath (sourceBase source : Str) : Str :=
  if source.head? = some '/' then source
  else if sourceBase = [] ∨ sourceBase.getLast? = some '/' then sourceBase ++ source
  else sourceBase ++ '/' :: source

/-- The bytes of a file node. -/
def fileData (read : Str → Except Str (List UInt8)) (sourceBase : Str) (json : JsonLayoutNode) :
    Except Str (List UInt8) :=
  match json.content, json.contents, json.source with
  | some content, _, _ => .ok (content.flatMap String.utf8EncodeChar)
  | none, some contents, _ => .ok (contents.flatMap String.utf8EncodeChar)
  | none, none, some source =>
    match read (sourcePath sourceBase source) with
    | .ok data => .ok data
    | .error err =>
      .error (quoted "failed to read source file " (sourcePath sourceBase source) ": " ++ err)
  | none, none, none => .ok []

def JsonLayoutNode.isDirectory (json : JsonLayoutNode) : Bool :=
  json.ty = "directory".toList ∨ json.ty = "dir".toList

def JsonLayoutNode.rawPath (json : JsonLayoutNode) (isRoot : Bool) : Str :=
  json.path.getD (if isRoot then ['/'] else [])

section
variable (read : Str → Except Str (List UInt8)) (sourceBase : Str)

mutual

def layoutFromJson (parentPath : Str) (isRoot : Bool) : JsonLayoutNode → Except Str LayoutNode
  | ⟨ty, jsonPath, contains, content, contents, source⟩ => do
    let json : JsonLayoutNode := ⟨ty, jsonPath, contains, content, contents, source⟩
    let rawPath := json.rawPath isRoot
    let path ← normalizePath parentPath rawPath isRoot
    if !isRoot ∧ rawPath.head? = some '/' ∧ absoluteParent path ≠ parentPath then
      .error (quoted "absolute child path " path " is not contained by " ++
        quoted "" parentPath "")
    else
      let name ← nameOf isRoot path
      if byteLen name > 27 then
        .error (quoted "path component " name " is longer than 27 bytes")
      else if json.isDirectory then do
        let children ← layoutChildren path [] contains
        .ok ⟨name, .directory children⟩
      else if ty = "file".toList then do
        let data ← fileData read sourceBase json
        .ok ⟨name, .file data⟩
      else .error (quoted "unknown node type " ty "")

/-- The loop over `contains`; `names` are those of the children already built. -/
def layoutChildren (path : Str) (names : List Str) :
    List JsonLayoutNode → Except Str (List LayoutNode)
  | [] => .ok []
  | child :: rest => do
    let child ← layoutFromJson path false child
    if child.name ∈ names then
      .error (quoted "duplicate child name " child.name " in directory " ++ quoted "" path "")
    else
      let children ← layoutChildren path (child.name :: names) rest
      .ok (child :: children)

end

/-- `parse_layout_file` after the JSON is parsed. -/
def parseLayout (json : JsonLayoutNode) : Except Str LayoutNode :=
  layoutFromJson read sourceBase [] true json

end

/-! ## Where the nodes are -/

/-- `At json root j n path names`: the node `n` of the tree built from `json` comes from `j`,
`path` is the path `normalizePath` computed for it, `names` are the names from the root. -/
inductive At (json : JsonLayoutNode) (root : LayoutNode) :
    JsonLayoutNode → LayoutNode → Str → List Str → Prop
  | root {path} : normalizePath [] (json.rawPath true) true = .ok path →
      At json root json root path []
  | child {j n path names children jc c childPath} :
      At json root j n path names → n.kind = .directory children →
      (jc, c) ∈ j.contains.zip children →
      normalizePath path (jc.rawPath false) false = .ok childPath →
      At json root jc c childPath (names ++ [c.name])

/-- Every node is where its path puts it, and the names are names of directory entries. -/
structure AsWritten (json : JsonLayoutNode) (root : LayoutNode) : Prop where
  names : ∀ j n path names, At json root j n path names → names = pieces '/' path
  rootDirectory : ∃ children, root.kind = .directory children
  siblings : ∀ j n path names children, At json root j n path names →
    n.kind = .directory children → (children.map LayoutNode.name).Nodup ∧
      ∀ c ∈ children, c.name ≠ [] ∧ byteLen c.name ≤ 27 ∧ c.name ≠ ['.'] ∧ c.name ≠ ['.', '.']

/-- The JSON nodes the tool looks at: the children of files are ignored. -/
inductive Visited (json : JsonLayoutNode) : JsonLayoutNode → Prop
  | root : Visited json json
  | child {j c} : Visited json j → j.isDirectory → c ∈ j.contains → Visited json c

/-- The paths relative to a directory are single components. -/
def PlainRelative (json : JsonLayoutNode) : Prop :=
  ∀ j, Visited json j → j.isDirectory → ∀ c ∈ j.contains,
    (c.rawPath false).head? = some '/' ∨ '/' ∉ c.rawPath false

/-! ## What the tool accepts -/

section
variable {read : Str → Except Str (List UInt8)} {sourceBase : Str}

theorem bind_eq_ok {ε α β : Type} {x : Except ε α} {f : α → Except ε β} {b : β} :
    (x >>= f) = .ok b ↔ ∃ a, x = .ok a ∧ f a = .ok b := by
  cases x <;> simp [bind, Except.bind]

/-- An accepted path of a child does not end with a slash, and neither `.` nor `..` is one
of its components. -/
theorem normalizePath_child {parentPath rawPath path : Str}
    (h : normalizePath parentPath rawPath false = .ok path) :
    rawPath ≠ [] ∧ rawPath.getLast? ≠ some '/' ∧
      path = joinPath parentPath rawPath ∧
      ∀ c ∈ path.splitOn '/', c ≠ ['.'] ∧ c ≠ ['.', '.'] := by
  simp only [normalizePath, Bool.false_eq_true, if_false] at h
  split at h
  · simp at h
  · next hraw =>
    split at h
    · simp at h
    · next hdots =>
      simp only [Except.ok.injEq] at h
      rw [not_or] at hraw
      rw [List.any_eq_true, not_exists] at hdots
      refine ⟨hraw.1, hraw.2, h.symm, fun c hc => ?_⟩
      have hnot := hdots c
      rw [h] at hnot
      simpa [hc, not_or] using hnot

theorem nameOf_ok {path name : Str} (h : nameOf false path = .ok name) :
    (path.splitOn '/').getLast? = some name ∧ name ≠ [] := by
  simp only [nameOf, Bool.false_eq_true, if_false] at h
  split at h
  · next name' heq =>
    simp only [Except.ok.injEq] at h
    subst h
    rw [Option.filter_eq_some_iff] at heq
    simpa using heq
  · simp at h

/-- What an accepted node is: its path passed the checks, its name is cut from the path, and
a directory has the children the loop built. -/
theorem layoutFromJson_ok {parentPath : Str} {isRoot : Bool} {json : JsonLayoutNode}
    {node : LayoutNode} (h : layoutFromJson read sourceBase parentPath isRoot json = .ok node) :
    ∃ path, normalizePath parentPath (json.rawPath isRoot) isRoot = .ok path ∧
      (isRoot = false → (json.rawPath false).head? = some '/' →
        absoluteParent path = parentPath) ∧
      nameOf isRoot path = .ok node.name ∧ byteLen node.name ≤ 27 ∧
      (json.isDirectory ↔ ∃ children, node.kind = .directory children) ∧
      ∀ children, node.kind = .directory children →
        layoutChildren read sourceBase path [] json.contains = .ok children := by
  obtain ⟨ty, jsonPath, contains, content, contents, source⟩ := json
  rw [layoutFromJson] at h
  obtain ⟨path, hpath, h⟩ := bind_eq_ok.mp h
  refine ⟨path, hpath, ?_⟩
  split at h
  · simp at h
  · next habs =>
    obtain ⟨name, hname, h⟩ := bind_eq_ok.mp h
    split at h
    · simp at h
    · next hlen =>
      have hparent : isRoot = false →
          (JsonLayoutNode.rawPath ⟨ty, jsonPath, contains, content, contents, source⟩
            false).head? = some '/' → absoluteParent path = parentPath := by
        rintro rfl hslash
        by_contra hne
        exact habs ⟨rfl, hslash, hne⟩
      split at h
      · next hdir =>
        obtain ⟨children, hchildren, h⟩ := bind_eq_ok.mp h
        simp only [Except.ok.injEq] at h
        subst h
        refine ⟨hparent, hname, Nat.le_of_not_lt hlen, ⟨fun _ => ⟨children, rfl⟩, fun _ => hdir⟩, ?_⟩
        rintro children' heq
        obtain rfl : children = children' := by simpa [LayoutNode.kind] using heq
        exact hchildren
      · next hdir =>
        split at h
        · obtain ⟨data, -, h⟩ := bind_eq_ok.mp h
          simp only [Except.ok.injEq] at h
          subst h
          refine ⟨hparent, hname, Nat.le_of_not_lt hlen, ?_, ?_⟩
          · simp [hdir, LayoutNode.kind]
          · simp [LayoutNode.kind]
        · simp at h

/-- What the loop over `contains` builds. -/
theorem layoutChildren_ok {path : Str} {names : List Str} {jsons : List JsonLayoutNode}
    {children : List LayoutNode}
    (h : layoutChildren read sourceBase path names jsons = .ok children) :
    List.Forall₂ (fun jc c => layoutFromJson read sourceBase path false jc = .ok c)
        jsons children ∧
      (children.map LayoutNode.name).Nodup ∧ ∀ c ∈ children, c.name ∉ names := by
  induction jsons generalizing names children with
  | nil =>
    simp only [layoutChildren, Except.ok.injEq] at h
    subst h
    simp
  | cons jc rest ih =>
    rw [layoutChildren] at h
    obtain ⟨c, hc, h⟩ := bind_eq_ok.mp h
    split at h
    · simp at h
    · next hfresh =>
      obtain ⟨cs, hcs, h⟩ := bind_eq_ok.mp h
      simp only [Except.ok.injEq] at h
      subst h
      obtain ⟨hall, hnodup, hnames⟩ := ih hcs
      refine ⟨.cons hc hall, ?_, ?_⟩
      · rw [List.map_cons, List.nodup_cons]
        refine ⟨fun hmem => ?_, hnodup⟩
        obtain ⟨c', hc', heq⟩ := List.mem_map.mp hmem
        exact hnames c' hc' (by simp [heq])
      · rintro c' hc'
        rcases List.mem_cons.mp hc' with rfl | hc'
        · exact hfresh
        · exact fun hmem => hnames c' hc' (List.mem_cons_of_mem _ hmem)

/-- A relative path adds its components to those of the parent. -/
theorem pieces_joinPath {parentPath rawPath : Str} (h : rawPath.head? ≠ some '/') :
    pieces '/' (joinPath parentPath rawPath) = pieces '/' parentPath ++ pieces '/' rawPath := by
  rw [joinPath, if_neg h]
  split
  · next hroot => rw [hroot, pieces_cons, pieces_cons, pieces_nil, List.nil_append]
  · rw [pieces_append_cons]

/-- A relative path of one component is the name. -/
theorem name_joinPath {parentPath rawPath name : Str} (h : '/' ∉ rawPath)
    (hname : nameOf false (joinPath parentPath rawPath) = .ok name) :
    name = rawPath := by
  have hhead : rawPath.head? ≠ some '/' := fun hhead => h (List.mem_of_mem_head? hhead)
  have hlast := (nameOf_ok hname).1
  rw [joinPath, if_neg hhead] at hlast
  split at hlast
  · rw [← List.nil_append ('/' :: rawPath), getLast?_splitOn _ h] at hlast
    exact (Option.some.inj hlast).symm
  · rw [getLast?_splitOn _ h] at hlast
    exact (Option.some.inj hlast).symm

/-- An absolute path whose parent is the path of the directory adds the name to it. -/
theorem pieces_of_absoluteParent {path parentPath name : Str} (hslash : '/' ∈ path)
    (hparent : absoluteParent path = parentPath) (hname : nameOf false path = .ok name) :
    pieces '/' path = pieces '/' parentPath ++ [name] := by
  cases h : rsplitOnce '/' path with
  | none => exact absurd hslash (rsplitOnce_eq_none.mp h)
  | some p =>
    obtain ⟨a, b⟩ := p
    obtain ⟨heq, hb⟩ := rsplitOnce_eq_some h
    obtain ⟨hlast, hne⟩ := nameOf_ok hname
    rw [heq, getLast?_splitOn _ hb] at hlast
    obtain rfl : b = name := Option.some.inj hlast
    have ha : pieces '/' parentPath = pieces '/' a := by
      rw [← hparent, absoluteParent, h]
      cases a with
      | nil => simp [pieces_cons]
      | cons _ _ => rfl
    rw [heq, pieces_append_cons, pieces_of_not_mem hb, if_neg hne, ha]

/-- The name of an accepted child is neither empty nor a dot name. -/
theorem name_ok {parentPath rawPath path name : Str}
    (hpath : normalizePath parentPath rawPath false = .ok path)
    (hname : nameOf false path = .ok name) :
    name ≠ [] ∧ name ≠ ['.'] ∧ name ≠ ['.', '.'] := by
  obtain ⟨hlast, hne⟩ := nameOf_ok hname
  obtain ⟨-, -, -, hdots⟩ := normalizePath_child hpath
  exact ⟨hne, hdots name (List.mem_of_getLast? hlast)⟩

/-- The children of a directory with the nodes they come from. -/
theorem zip_children {path : Str} {jsons : List JsonLayoutNode} {children : List LayoutNode}
    (h : layoutChildren read sourceBase path [] jsons = .ok children) :
    jsons.length = children.length ∧ ∀ {jc c}, (jc, c) ∈ jsons.zip children →
      layoutFromJson read sourceBase path false jc = .ok c :=
  List.forall₂_iff_zip.mp (layoutChildren_ok h).1

variable {json : JsonLayoutNode} {root : LayoutNode}

/-- Every node of the result was built by a call of `layoutFromJson`, with the path of `At`. -/
theorem At.built (h : parseLayout read sourceBase json = .ok root) {j n path names}
    (hat : At json root j n path names) :
    ∃ parentPath isRoot, layoutFromJson read sourceBase parentPath isRoot j = .ok n ∧
      normalizePath parentPath (j.rawPath isRoot) isRoot = .ok path := by
  induction hat with
  | root hpath => exact ⟨[], true, h, hpath⟩
  | child _ hkind hzip hpath ih =>
    obtain ⟨parentPath, isRoot, hn, hp⟩ := ih
    obtain ⟨path', hp', -, -, -, -, hchildren⟩ := layoutFromJson_ok hn
    obtain rfl := Except.ok.inj (hp.symm.trans hp')
    exact ⟨_, false, (zip_children (hchildren _ hkind)).2 hzip, hpath⟩

/-- The loop that built the children of a directory of the result. -/
theorem At.children (h : parseLayout read sourceBase json = .ok root) {j n path names children}
    (hat : At json root j n path names) (hkind : n.kind = .directory children) :
    j.isDirectory ∧ layoutChildren read sourceBase path [] j.contains = .ok children := by
  obtain ⟨parentPath, isRoot, hn, hp⟩ := hat.built h
  obtain ⟨path', hp', -, -, -, hdir, hchildren⟩ := layoutFromJson_ok hn
  obtain rfl := Except.ok.inj (hp.symm.trans hp')
  exact ⟨hdir.mpr ⟨_, hkind⟩, hchildren _ hkind⟩

/-- A child of a directory of the JSON tree has a node of the result. -/
theorem At.exists_child (h : parseLayout read sourceBase json = .ok root) {j n path names jc}
    (hat : At json root j n path names) (hdir : j.isDirectory) (hjc : jc ∈ j.contains) :
    ∃ c childPath, At json root jc c childPath (names ++ [c.name]) ∧
      normalizePath path (jc.rawPath false) false = .ok childPath := by
  obtain ⟨parentPath, isRoot, hn, hp⟩ := hat.built h
  obtain ⟨path', hp', -, -, -, hkind, -⟩ := layoutFromJson_ok hn
  obtain ⟨children, hkind⟩ := hkind.mp hdir
  obtain ⟨hlen, hall⟩ := zip_children (hat.children h hkind).2
  rw [← List.map_fst_zip (Nat.le_of_eq hlen)] at hjc
  obtain ⟨⟨jc, c⟩, hzip, rfl⟩ := List.mem_map.mp hjc
  obtain ⟨childPath, hchild, -⟩ := layoutFromJson_ok (hall hzip)
  exact ⟨c, childPath, .child hat hkind hzip hchild, hchild⟩

/-- A JSON node the tool looks at has a node of the result. -/
theorem Visited.at (h : parseLayout read sourceBase json = .ok root) {j}
    (hj : Visited json j) : ∃ n path names, At json root j n path names := by
  induction hj with
  | root =>
    obtain ⟨path, hpath, -⟩ := layoutFromJson_ok h
    exact ⟨root, path, [], .root hpath⟩
  | child _ hdir hc ih =>
    obtain ⟨n, path, names, hat⟩ := ih
    obtain ⟨c, childPath, hchild, -⟩ := hat.exists_child h hdir hc
    exact ⟨c, childPath, _, hchild⟩

theorem At.visited (h : parseLayout read sourceBase json = .ok root) {j n path names}
    (hat : At json root j n path names) : Visited json j := by
  induction hat with
  | root => exact .root
  | child hat hkind hzip _ ih =>
    exact .child ih (hat.children h hkind).1 (List.of_mem_zip hzip).1

/-- The names of the children of a directory of the result. -/
theorem siblings_ok (h : parseLayout read sourceBase json = .ok root) {j n path names children}
    (hat : At json root j n path names) (hkind : n.kind = .directory children) :
    (children.map LayoutNode.name).Nodup ∧ ∀ c ∈ children,
      c.name ≠ [] ∧ byteLen c.name ≤ 27 ∧ c.name ≠ ['.'] ∧ c.name ≠ ['.', '.'] := by
  obtain ⟨-, hchildren⟩ := hat.children h hkind
  refine ⟨(layoutChildren_ok hchildren).2.1, fun c hc => ?_⟩
  obtain ⟨hlen, hall⟩ := zip_children hchildren
  rw [← List.map_snd_zip (Nat.le_of_eq hlen.symm)] at hc
  obtain ⟨⟨jc, c⟩, hzip, rfl⟩ := List.mem_map.mp hc
  obtain ⟨childPath, hpath, -, hname, hbytes, -⟩ := layoutFromJson_ok (hall hzip)
  obtain ⟨hne, hdot, hdots⟩ := name_ok hpath hname
  exact ⟨hne, hbytes, hdot, hdots⟩

/-- With plain relative paths the names are the components of the path. -/
theorem names_eq_pieces (h : parseLayout read sourceBase json = .ok root)
    (hplain : PlainRelative json) {j n path names} (hat : At json root j n path names) :
    names = pieces '/' path := by
  induction hat with
  | root hpath =>
    simp only [normalizePath, if_true] at hpath
    split at hpath
    · simp at hpath
    · obtain rfl := Except.ok.inj hpath
      decide
  | @child j n path names children jc c childPath hat hkind hzip hpath ih =>
    obtain ⟨hdir, hchildren⟩ := hat.children h hkind
    obtain ⟨path', hpath', habs, hname, -⟩ := layoutFromJson_ok ((zip_children hchildren).2 hzip)
    obtain rfl := Except.ok.inj (hpath.symm.trans hpath')
    obtain ⟨hne, -, hjoin, -⟩ := normalizePath_child hpath
    rw [ih]
    by_cases hslash : (jc.rawPath false).head? = some '/'
    · have hmem : '/' ∈ childPath := by
        rw [hjoin, joinPath, if_pos hslash]
        exact List.mem_of_mem_head? hslash
      exact (pieces_of_absoluteParent hmem (habs rfl hslash) hname).symm
    · have hmem : '/' ∉ jc.rawPath false :=
        (hplain j (hat.visited h) hdir jc (List.of_mem_zip hzip).1).resolve_left hslash
      rw [hjoin] at hname
      rw [hjoin, pieces_joinPath hslash, pieces_of_not_mem hmem, if_neg hne,
        name_joinPath hmem hname]

/-- If the names are the components of the paths, relative paths are plain: a slash inside
one would add two components for one name. -/
theorem plainRelative_of_names (h : parseLayout read sourceBase json = .ok root)
    (hnames : ∀ j n path names, At json root j n path names → names = pieces '/' path) :
    PlainRelative json := by
  intro j hj hdir jc hjc
  by_contra hnot
  rw [not_or, not_not] at hnot
  obtain ⟨n, path, names, hat⟩ := hj.at h
  obtain ⟨c, childPath, hat', hchild⟩ := hat.exists_child h hdir hjc
  have hc := hnames _ _ _ _ hat'
  obtain ⟨-, hlast, hjoin, -⟩ := normalizePath_child hchild
  rw [hjoin, pieces_joinPath hnot.1, ← hnames _ _ _ _ hat, List.append_cancel_left_eq] at hc
  have htwo := two_le_length_pieces hnot.2 hnot.1 hlast
  rw [← hc] at htwo
  simp at htwo

/-- **An accepted layout puts every node where its path says exactly if the root is a
directory and no relative path has a slash inside.** -/
theorem asWritten_iff_plainRelative (h : parseLayout read sourceBase json = .ok root) :
    AsWritten json root ↔ json.isDirectory ∧ PlainRelative json := by
  obtain ⟨path, hpath, -, -, -, hdir, -⟩ := layoutFromJson_ok h
  constructor
  · intro hwritten
    exact ⟨hdir.mpr hwritten.rootDirectory, plainRelative_of_names h hwritten.names⟩
  · rintro ⟨hroot, hplain⟩
    exact ⟨fun _ _ _ _ hat => names_eq_pieces h hplain hat, hdir.mp hroot,
      fun _ _ _ _ _ hat hkind => siblings_ok h hat hkind⟩

end

/-! ## Two layouts -/

/-- No source file can be read. -/
def noSources : Str → Except Str (List UInt8) := fun _ => .error []

def jsonFile (path : String) : JsonLayoutNode :=
  ⟨"file".toList, some path.toList, [], none, none, none⟩

def jsonDir (path : String) (contains : List JsonLayoutNode) : JsonLayoutNode :=
  ⟨"dir".toList, some path.toList, contains, none, none, none⟩

/-- A directory with a relative path that holds a file with an absolute one. -/
theorem asWritten_iff_bin :
    parseLayout noSources [] (jsonDir "/" [jsonDir "bin" [jsonFile "/bin/sh"]]) =
        .ok ⟨[], .directory [⟨"bin".toList, .directory [⟨"sh".toList, .file []⟩]⟩]⟩ ∧
      (AsWritten (jsonDir "/" [jsonDir "bin" [jsonFile "/bin/sh"]])
          ⟨[], .directory [⟨"bin".toList, .directory [⟨"sh".toList, .file []⟩]⟩]⟩ ↔
        (jsonDir "/" [jsonDir "bin" [jsonFile "/bin/sh"]]).isDirectory ∧
          PlainRelative (jsonDir "/" [jsonDir "bin" [jsonFile "/bin/sh"]])) :=
  ⟨by rfl, @asWritten_iff_plainRelative noSources [] _ _ (by rfl)⟩

/-- The file `a/b` of the root becomes the entry `b` of the root. -/
theorem slash_in_relative_path :
    parseLayout noSources [] (jsonDir "/" [jsonFile "a/b"]) =
        .ok ⟨[], .directory [⟨"b".toList, .file []⟩]⟩ ∧
      ¬ AsWritten (jsonDir "/" [jsonFile "a/b"]) ⟨[], .directory [⟨"b".toList, .file []⟩]⟩ := by
  refine ⟨by rfl, fun h => ?_⟩
  have hroot : At (jsonDir "/" [jsonFile "a/b"]) ⟨[], .directory [⟨"b".toList, .file []⟩]⟩
      (jsonDir "/" [jsonFile "a/b"]) ⟨[], .directory [⟨"b".toList, .file []⟩]⟩ "/".toList [] :=
    .root (by rfl)
  have hpath : normalizePath "/".toList ((jsonFile "a/b").rawPath false) false =
      .ok "/a/b".toList := by rfl
  have hchild := h.names _ _ _ _ (.child hroot rfl (List.mem_singleton.mpr rfl) hpath)
  exact absurd hchild (by decide)

end Efiks.Tool
