import Pigeon.Library.Text

/-! # A tree of directories and files

Paths are lists of names below a root that always exists. The operations are the ones of a
standard library: a write needs its directory, a recursive removal takes a directory with
everything under it, and each operation is described by what `lookup` gives afterwards.
-/
namespace Pigeon.Library

set_option autoImplicit false

abbrev Path := List Text

theorem Path.child_inj {dir other : Path} {name otherName : Text} :
    dir ++ [name] = other ++ [otherName] ↔ dir = other ∧ name = otherName := by
  constructor
  · intro h
    obtain ⟨hDir, hName⟩ := List.append_inj' h rfl
    exact ⟨hDir, List.singleton_inj.mp hName⟩
  · rintro ⟨rfl, rfl⟩
    rfl

inductive Node (β : Type*) where
  | dir
  | file (content : β)
deriving DecidableEq, Repr

structure FileTree (β : Type*) where
  entries : List (Path × Node β)

namespace FileTree

variable {β : Type*}

def empty : FileTree β := ⟨[]⟩

def lookup (tree : FileTree β) (path : Path) : Option (Node β) :=
  if path = [] then some .dir else tree.entries.lookup path

/-- `Path::exists` -/
def contains (tree : FileTree β) (path : Path) : Bool := (tree.lookup path).isSome

def put (tree : FileTree β) (path : Path) (node : Node β) : FileTree β := ⟨(path, node) :: tree.entries⟩

/-- No system call takes a path with a null character. -/
def hasNul (path : Path) : Bool := path.any fun name => name.contains '\x00'

/-- `fs::write` -/
def write (tree : FileTree β) (path : Path) (content : β) : Option (FileTree β) :=
  match tree.lookup path.dropLast, tree.lookup path with
  | some .dir, none | some .dir, some (.file _) =>
    if hasNul path then none else some (tree.put path (.file content))
  | _, _ => none

def createDirsUnder (tree : FileTree β) (made : Path) : Path → Option (FileTree β)
  | [] => some tree
  | name :: rest =>
    match tree.lookup (made ++ [name]) with
    | some .dir => createDirsUnder tree (made ++ [name]) rest
    | some (.file _) => none
    | none =>
      if hasNul [name] then none
      else createDirsUnder (tree.put (made ++ [name]) .dir) (made ++ [name]) rest

/-- `fs::create_dir_all` -/
def createDirAll (tree : FileTree β) (path : Path) : Option (FileTree β) := createDirsUnder tree [] path

def discard (tree : FileTree β) (gone : Path → Bool) : FileTree β :=
  ⟨tree.entries.filter fun entry => !gone entry.1⟩

/-- `fs::remove_file`, an error ignored -/
def removeFile (tree : FileTree β) (path : Path) : FileTree β :=
  match tree.lookup path with
  | some (.file _) => tree.discard fun other => other == path
  | _ => tree

/-- `fs::remove_dir_all`, an error ignored; on a file it is one -/
def removeDirAll (tree : FileTree β) (path : Path) : FileTree β :=
  match tree.lookup path with
  | some .dir => tree.discard fun other => path.isPrefixOf other
  | _ => tree

@[simp] theorem lookup_empty (path : Path) (h : path ≠ []) : (empty : FileTree β).lookup path = none :=
  if_neg h

@[simp] theorem lookup_root (tree : FileTree β) : tree.lookup [] = some .dir := if_pos rfl

theorem contains_empty (path : Path) (h : path ≠ []) : (empty : FileTree β).contains path = false := by
  rw [contains, lookup_empty path h]
  rfl

theorem empty_noFile (path : Path) (content : β) : (empty : FileTree β).lookup path ≠ some (.file content) := by
  by_cases hRoot : path = []
  · simp [hRoot]
  · simp [hRoot]

theorem lookup_put (tree : FileTree β) {path : Path} (node : Node β) (hPath : path ≠ []) (other : Path) :
    (tree.put path node).lookup other = if other = path then some node else tree.lookup other := by
  by_cases hOther : other = path
  · subst other
    rw [lookup, if_neg hPath, if_pos rfl, put, List.lookup_cons_self]
  · rw [if_neg hOther, lookup, lookup, put]
    congr 1
    rw [List.lookup_cons, beq_eq_false_iff_ne.mpr hOther]

theorem lookup_discard (tree : FileTree β) (gone : Path → Bool) (path : Path) (hPath : path ≠ []) :
    (tree.discard gone).lookup path = if gone path then none else tree.lookup path := by
  rw [lookup, lookup, if_neg hPath, if_neg hPath, discard]
  induction tree.entries with
  | nil => simp
  | cons entry entries ih =>
    rw [List.filter_cons, List.lookup_cons]
    by_cases hEq : path = entry.1
    · subst hEq
      cases hGone : gone entry.1 with
      | true => simpa [hGone] using ih
      | false =>
        rw [if_pos (by simp), if_neg (by simp), List.lookup_cons_self]
        simp
    · rw [beq_eq_false_iff_ne.mpr hEq]
      split
      · rw [List.lookup_cons, beq_eq_false_iff_ne.mpr hEq]
        exact ih
      · exact ih

theorem write_eq_some {tree next : FileTree β} {path : Path} {content : β} :
    tree.write path content = some next ↔
      tree.lookup path.dropLast = some .dir ∧ tree.lookup path ≠ some .dir ∧ hasNul path = false ∧
        next = tree.put path (.file content) := by
  rw [write]
  constructor
  · intro h
    split at h
    · split at h
      · cases h
      · simp_all
    · split at h
      · cases h
      · simp_all
    · cases h
  · rintro ⟨hParent, hFree, hName, rfl⟩
    cases hPath : tree.lookup path with
    | none => simp [hParent, hName]
    | some node =>
      cases node with
      | dir => exact absurd hPath hFree
      | file _ => simp [hParent, hName]

theorem ne_nil_of_write {tree next : FileTree β} {path : Path} {content : β}
    (h : tree.write path content = some next) : path ≠ [] := by
  rintro rfl
  exact (write_eq_some.mp h).2.1 tree.lookup_root

theorem lookup_write {tree next : FileTree β} {path : Path} {content : β}
    (h : tree.write path content = some next) (other : Path) :
    next.lookup other = if other = path then some (.file content) else tree.lookup other := by
  have hPath := ne_nil_of_write h
  obtain ⟨_, _, _, rfl⟩ := write_eq_some.mp h
  exact lookup_put tree _ hPath other

theorem lookup_createDirsUnder {tree next : FileTree β} {made path : Path}
    (h : createDirsUnder tree made path = some next) (other : Path) :
    next.lookup other =
      if made <+: other ∧ other ≠ made ∧ other <+: made ++ path then some .dir else tree.lookup other := by
  induction path generalizing tree made with
  | nil =>
    cases h
    rw [if_neg]
    rintro ⟨hMade, hNe, hOther⟩
    rw [List.append_nil] at hOther
    exact hNe (hOther.eq_of_length_le hMade.length_le)
  | cons name rest ih =>
    have hNil : made ++ [name] ≠ [] := List.append_ne_nil_of_right_ne_nil _ (List.cons_ne_nil _ _)
    have hSplit : made ++ name :: rest = made ++ [name] ++ rest := by simp
    -- The new directories are the first one and the ones below it.
    have hCases : (made <+: other ∧ other ≠ made ∧ other <+: made ++ name :: rest) ↔
        other = made ++ [name] ∨
          (made ++ [name] <+: other ∧ other ≠ made ++ [name] ∧ other <+: made ++ [name] ++ rest) := by
      rw [hSplit]
      constructor
      · rintro ⟨⟨suffix, rfl⟩, hNe, hOther⟩
        cases suffix with
        | nil => simp at hNe
        | cons first suffix =>
          obtain ⟨rfl, -⟩ : first = name ∧ suffix <+: rest := by simpa using hOther
          by_cases hLast : suffix = []
          · exact .inl (by rw [hLast])
          · exact .inr ⟨⟨suffix, by simp⟩, by simpa using hLast, hOther⟩
      · rintro (rfl | ⟨hMade, hNe, hOther⟩)
        · exact ⟨List.prefix_append _ _, by simp, List.prefix_append _ _⟩
        · refine ⟨(List.prefix_append _ _).trans hMade, ?_, hOther⟩
          rintro rfl
          have hLength := hMade.length_le
          simp only [List.length_append, List.length_singleton] at hLength
          omega
    rw [createDirsUnder] at h
    split at h
    · rename_i hDir
      rw [ih h, if_congr hCases rfl rfl]
      by_cases hOther : other = made ++ [name]
      · subst other
        simp [hDir]
      · simp [hOther]
    · cases h
    · split at h
      · cases h
      · rw [ih h, if_congr hCases rfl rfl, lookup_put _ _ hNil]
        by_cases hOther : other = made ++ [name]
        · subst other
          simp
        · simp [hOther]

theorem lookup_createDirAll {tree next : FileTree β} {path : Path}
    (h : tree.createDirAll path = some next) (other : Path) :
    next.lookup other = if other <+: path then some .dir else tree.lookup other := by
  rw [lookup_createDirsUnder h]
  by_cases hRoot : other = []
  · subst other
    simp
  · simp [hRoot]

theorem createDirsUnder_isSome (tree : FileTree β) (made path : Path)
    (hFiles : ∀ other content, made <+: other → other <+: made ++ path → tree.lookup other ≠ some (.file content))
    (hNames : ∀ name ∈ path, hasNul [name] = false) :
    ∃ next, createDirsUnder tree made path = some next := by
  induction path generalizing tree made with
  | nil => exact ⟨tree, rfl⟩
  | cons name rest ih =>
    have hNil : made ++ [name] ≠ [] := List.append_ne_nil_of_right_ne_nil _ (List.cons_ne_nil _ _)
    have hSplit : made ++ name :: rest = made ++ [name] ++ rest := by simp
    have hRest : ∀ later ∈ rest, hasNul [later] = false :=
      fun later hLater => hNames later (List.mem_cons_of_mem name hLater)
    rw [createDirsUnder]
    cases hLookup : tree.lookup (made ++ [name]) with
    | none =>
      simp only [hNames name List.mem_cons_self]
      refine ih _ _ (fun other content hMade hOther => ?_) hRest
      rw [lookup_put _ _ hNil]
      split
      · simp
      · exact hFiles other content ((List.prefix_append _ _).trans hMade) (hSplit ▸ hOther)
    | some node =>
      cases node with
      | dir =>
        refine ih _ _ (fun other content hMade hOther => ?_) hRest
        exact hFiles other content ((List.prefix_append _ _).trans hMade) (hSplit ▸ hOther)
      | file content =>
        exact absurd hLookup (hFiles _ content (List.prefix_append _ _) (hSplit ▸ List.prefix_append _ _))

theorem createDirAll_isSome (tree : FileTree β) (path : Path)
    (hFiles : ∀ other content, other <+: path → tree.lookup other ≠ some (.file content))
    (hNames : ∀ name ∈ path, hasNul [name] = false) : ∃ next, tree.createDirAll path = some next :=
  createDirsUnder_isSome tree [] path (fun other content _ hOther => hFiles other content hOther) hNames

theorem createDirsUnder_eq_none {tree : FileTree β} {made path other : Path} {content : β}
    (hMade : made <+: other) (hNe : other ≠ made) (hOther : other <+: made ++ path)
    (hFile : tree.lookup other = some (.file content)) : createDirsUnder tree made path = none := by
  cases h : createDirsUnder tree made path with
  | none => rfl
  | some next =>
    induction path generalizing tree made with
    | nil =>
      rw [List.append_nil] at hOther
      exact absurd (hOther.eq_of_length_le hMade.length_le) hNe
    | cons name rest ih =>
      have hNil : made ++ [name] ≠ [] := List.append_ne_nil_of_right_ne_nil _ (List.cons_ne_nil _ _)
      obtain ⟨suffix, rfl⟩ := hMade
      cases suffix with
      | nil => simp at hNe
      | cons first suffix =>
        obtain ⟨rfl, -⟩ : first = name ∧ suffix <+: rest := by simpa using hOther
        have hMade' : made ++ [first] <+: made ++ first :: suffix := ⟨suffix, by simp⟩
        have hOther' : made ++ first :: suffix <+: made ++ [first] ++ rest := by simpa using hOther
        rw [createDirsUnder] at h
        split at h
        · rename_i hDir
          by_cases hLast : suffix = []
          · subst suffix
            rw [hDir] at hFile
            cases hFile
          · exact ih hMade' (by simpa using hLast) hOther' hFile h
        · cases h
        · rename_i hFree
          split at h
          · cases h
          · by_cases hLast : suffix = []
            · subst suffix
              rw [hFree] at hFile
              cases hFile
            · refine ih hMade' (by simpa using hLast) hOther' ?_ h
              rw [lookup_put _ _ hNil, if_neg (by simpa using hLast)]
              exact hFile

theorem createDirAll_eq_none {tree : FileTree β} {path other : Path} {content : β} (hOther : other <+: path)
    (hFile : tree.lookup other = some (.file content)) : tree.createDirAll path = none := by
  refine createDirsUnder_eq_none (List.nil_prefix) ?_ hOther hFile
  rintro rfl
  rw [lookup_root] at hFile
  cases hFile

theorem createDirAll_keeps {tree made : FileTree β} {dir path : Path} {node : Node β}
    (hMade : tree.createDirAll dir = some made) (hNode : tree.lookup path = some node) :
    made.lookup path = some node := by
  rw [lookup_createDirAll hMade]
  split
  · rename_i hOnTheWay
    cases node with
    | dir => rfl
    | file content =>
      rw [createDirAll_eq_none hOnTheWay hNode] at hMade
      cases hMade
  · exact hNode

theorem lookup_removeFile (tree : FileTree β) {path other : Path} (hOther : other ≠ path) :
    (tree.removeFile path).lookup other = tree.lookup other := by
  rw [removeFile]
  split
  · by_cases hRoot : other = []
    · rw [hRoot, lookup_root, lookup_root]
    · rw [lookup_discard _ _ _ hRoot, beq_eq_false_iff_ne.mpr hOther]
      rfl
  · rfl

theorem lookup_removeFile_self (tree : FileTree β) {path : Path} {content : β}
    (hFile : tree.lookup path = some (.file content)) : (tree.removeFile path).lookup path = none := by
  have hRoot : path ≠ [] := by
    rintro rfl
    rw [lookup_root] at hFile
    cases hFile
  rw [removeFile, hFile]
  exact (lookup_discard tree _ path hRoot).trans (by simp)

theorem lookup_removeDirAll (tree : FileTree β) {path other : Path}
    (hOther : ¬ path <+: other ∨ ∃ content, other = path ∧ tree.lookup path = some (.file content)) :
    (tree.removeDirAll path).lookup other = tree.lookup other := by
  rw [removeDirAll]
  split
  · rename_i hDir
    obtain hOther | ⟨content, -, hFile⟩ := hOther
    · by_cases hRoot : other = []
      · rw [hRoot, lookup_root, lookup_root]
      · rw [lookup_discard _ _ _ hRoot, if_neg (by simpa using hOther)]
    · rw [hDir] at hFile
      cases hFile
  · rfl

theorem lookup_removeDirAll_below (tree : FileTree β) {path other : Path} (hDir : tree.lookup path = some .dir)
    (hBelow : path <+: other) (hRoot : other ≠ []) : (tree.removeDirAll path).lookup other = none := by
  rw [removeDirAll, hDir]
  exact (lookup_discard tree _ other hRoot).trans (if_pos (by simpa using hBelow))

theorem exists_not_contains (tree : FileTree β) (candidate : Nat → Path)
    (hInjective : ∀ i j, candidate i = candidate j → i = j) (hRoot : ∀ i, candidate i ≠ []) :
    ∃ i ≤ tree.entries.length, tree.contains (candidate i) = false := by
  by_contra hTaken
  have hAll : ∀ i ≤ tree.entries.length, candidate i ∈ tree.entries.map Prod.fst := by
    intro i hi
    have hContains : tree.contains (candidate i) = true := by
      by_contra hFree
      exact hTaken ⟨i, hi, Bool.eq_false_iff.mpr hFree⟩
    rw [contains, lookup, if_neg (hRoot i)] at hContains
    by_contra hMem
    have hNone : tree.entries.lookup (candidate i) = none := by
      rw [List.lookup_eq_none_iff]
      intro entry hEntry
      rw [bne_iff_ne]
      exact fun hEq => hMem (List.mem_map.mpr ⟨entry, hEntry, hEq.symm⟩)
    rw [hNone] at hContains
    cases hContains
  have hNodup : ((List.range (tree.entries.length + 1)).map candidate).Nodup :=
    List.Nodup.map (fun i j h => hInjective i j h) List.nodup_range
  have hSubset : (List.range (tree.entries.length + 1)).map candidate ⊆ tree.entries.map Prod.fst := by
    intro path hPath
    obtain ⟨i, hi, rfl⟩ := List.mem_map.mp hPath
    exact hAll i (Nat.lt_succ_iff.mp (List.mem_range.mp hi))
  have hLength := (hNodup.subperm hSubset).length_le
  simp only [List.length_map, List.length_range] at hLength
  omega

end FileTree

end Pigeon.Library
