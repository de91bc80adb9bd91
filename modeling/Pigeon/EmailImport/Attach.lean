import Pigeon.Core.Data

/-! # Unpacking the attachments of a message

Each part is written under a name that is free in the attachments directory. A part that
cannot be written is skipped. Staging only ever adds to the scratch tree.
-/
namespace Pigeon.EmailImport

open Library Pigeon.Core

set_option autoImplicit false

abbrev Bytes := List UInt8

/-- An attachment part as the mail parser gives it. -/
structure MessagePart where
  name : Option Text
  contents : Bytes
deriving DecidableEq, Repr

structure StagedAttachment where
  path : Path
  name : Text
deriving DecidableEq, Repr

/-- A trailing part with neither headers nor content is not an attachment. -/
def MessagePart.Skipped (part : MessagePart) : Prop := part.contents = [] ∧ part.name = none

instance (part : MessagePart) : Decidable part.Skipped := by unfold MessagePart.Skipped; infer_instance

def MessagePart.sanitizedName (part : MessagePart) : Text :=
  sanitizeFilename (part.name.getD "attachment".toList)

/-- One round of the loop in `extract_attachments`. -/
def stagePart (scratch : FileTree Bytes) (attachmentsDir : Path) (part : MessagePart) :
    FileTree Bytes × Option StagedAttachment :=
  if part.Skipped then (scratch, none)
  else
    match scratch.createDirAll attachmentsDir with
    | none => (scratch, none)
    | some made =>
      let name := uniqueName made attachmentsDir part.sanitizedName
      match made.write (attachmentsDir ++ [name]) part.contents with
      | none => (made, none)
      | some written => (written, some { path := attachmentsDir ++ [name], name })

def stageParts (scratch : FileTree Bytes) (attachmentsDir : Path) :
    List MessagePart → FileTree Bytes × List StagedAttachment
  | [] => (scratch, [])
  | part :: parts =>
    let (scratch, staged) := stagePart scratch attachmentsDir part
    let (scratch, rest) := stageParts scratch attachmentsDir parts
    (scratch, staged.toList ++ rest)

/-- `parse` is the mail parser: the attachment parts of a message, or `none` where it cannot
be parsed. -/
def extractAttachments (parse : Bytes → Option (List MessagePart)) (scratch : FileTree Bytes)
    (emlPath attachmentsDir : Path) : FileTree Bytes × Option (List StagedAttachment) :=
  match scratch.lookup emlPath with
  | some (.file bytes) =>
    match parse bytes with
    | some parts =>
      let (scratch, staged) := stageParts scratch attachmentsDir parts
      (scratch, some staged)
    | none => (scratch, none)
  | _ => (scratch, none)

/-- Nothing but directories on the way to `dir`. -/
structure Passable (scratch : FileTree Bytes) (dir : Path) : Prop where
  noFile : ∀ other content, other <+: dir → scratch.lookup other ≠ some (.file content)
  noNul : ∀ name ∈ dir, FileTree.hasNul [name] = false

theorem Passable.createDirAll {scratch : FileTree Bytes} {dir : Path} (h : Passable scratch dir) :
    ∃ made, scratch.createDirAll dir = some made :=
  scratch.createDirAll_isSome dir h.noFile h.noNul

/-- What one part does: nothing, or its directory is made, or a file is added to it under a
free name. -/
inductive StagesPart (scratch : FileTree Bytes) (dir : Path) (part : MessagePart) :
    FileTree Bytes → Option StagedAttachment → Prop
  | skipped (hSkipped : part.Skipped) : StagesPart scratch dir part scratch none
  | blocked (hBlocked : scratch.createDirAll dir = none) : StagesPart scratch dir part scratch none
  | unwritten (made : FileTree Bytes) (name : Text) (hPart : ¬ part.Skipped)
      (hMade : scratch.createDirAll dir = some made)
      (hName : IsUniqueName (fun name => made.contains (dir ++ [name])) part.sanitizedName name)
      (hNul : FileTree.hasNul (dir ++ [name]) = true) : StagesPart scratch dir part made none
  | written (made next : FileTree Bytes) (name : Text) (hPart : ¬ part.Skipped)
      (hMade : scratch.createDirAll dir = some made)
      (hName : IsUniqueName (fun name => made.contains (dir ++ [name])) part.sanitizedName name)
      (hWrite : made.write (dir ++ [name]) part.contents = some next) :
      StagesPart scratch dir part next (some { path := dir ++ [name], name })

theorem write_unique {scratch made : FileTree Bytes} {dir : Path} (hMade : scratch.createDirAll dir = some made)
    {desired name : Text} (hName : IsUniqueName (fun name => made.contains (dir ++ [name])) desired name)
    (contents : Bytes) (hNul : FileTree.hasNul (dir ++ [name]) = false) :
    made.write (dir ++ [name]) contents = some (made.put (dir ++ [name]) (.file contents)) := by
  rw [FileTree.write_eq_some]
  refine ⟨?_, ?_, hNul, rfl⟩
  · rw [List.dropLast_concat, FileTree.lookup_createDirAll hMade, if_pos (List.prefix_refl dir)]
  · intro hDir
    have hFree : made.contains (dir ++ [name]) = false := hName.1
    rw [FileTree.contains, hDir] at hFree
    cases hFree

theorem stagePart_spec (scratch : FileTree Bytes) (dir : Path) (part : MessagePart) :
    StagesPart scratch dir part (stagePart scratch dir part).1 (stagePart scratch dir part).2 := by
  rw [stagePart]
  by_cases hPart : part.Skipped
  · rw [if_pos hPart]
    exact .skipped hPart
  rw [if_neg hPart]
  cases hMade : scratch.createDirAll dir with
  | none => exact .blocked hMade
  | some made =>
    have hName := uniqueName_spec made dir part.sanitizedName
    cases hWrite : made.write (dir ++ [uniqueName made dir part.sanitizedName]) part.contents with
    | some next => simpa [hWrite] using StagesPart.written made next _ hPart hMade hName hWrite
    | none =>
      have hNul : FileTree.hasNul (dir ++ [uniqueName made dir part.sanitizedName]) = true := by
        by_contra hNul
        rw [write_unique hMade hName part.contents (Bool.eq_false_iff.mpr hNul)] at hWrite
        cases hWrite
      simpa [hWrite] using StagesPart.unwritten made _ hPart hMade hName hNul

section Spec

variable {scratch next : FileTree Bytes} {dir : Path} {part : MessagePart} {staged : Option StagedAttachment}

theorem StagesPart.keeps (h : StagesPart scratch dir part next staged) {path : Path} {node : Node Bytes}
    (hNode : scratch.lookup path = some node) : next.lookup path = some node := by
  cases h with
  | skipped => exact hNode
  | blocked => exact hNode
  | unwritten _ _ _ hMade => exact FileTree.createDirAll_keeps hMade hNode
  | written made _ name _ hMade hName hWrite =>
    have hKept := FileTree.createDirAll_keeps hMade hNode
    rw [FileTree.lookup_write hWrite, if_neg]
    · exact hKept
    · rintro rfl
      have hFree : made.contains (dir ++ [name]) = false := hName.1
      rw [FileTree.contains, hKept] at hFree
      cases hFree

theorem StagesPart.staged_spec {attachment : StagedAttachment}
    (h : StagesPart scratch dir part next (some attachment)) :
    attachment.path = dir ++ [attachment.name] ∧ scratch.contains attachment.path = false ∧
      next.lookup attachment.path = some (.file part.contents) ∧
      (attachment.name = part.sanitizedName ∨ '-' ∈ attachment.name) ∧ '/' ∉ attachment.name ∧
      ∃ made, scratch.createDirAll dir = some made := by
  cases h with
  | written made _ name hPart hMade hName hWrite =>
    refine ⟨rfl, ?_, ?_, hName.eq_or_hyphen, ?_, made, hMade⟩
    · by_contra hTaken
      obtain ⟨node, hNode⟩ := Option.isSome_iff_exists.mp (Bool.not_eq_false _ ▸ hTaken)
      have hFree : made.contains (dir ++ [name]) = false := hName.1
      rw [FileTree.contains, FileTree.createDirAll_keeps hMade hNode] at hFree
      cases hFree
    · rw [FileTree.lookup_write hWrite, if_pos rfl]
    · exact hName.not_mem (not_mem_sanitizeFilename _) (by decide) (by decide) (by decide)

theorem StagesPart.not_skipped {attachment : StagedAttachment}
    (h : StagesPart scratch dir part next (some attachment)) : ¬ part.Skipped := by
  cases h with
  | written _ _ _ hPart => exact hPart

theorem StagesPart.no_nul {attachment : StagedAttachment}
    (h : StagesPart scratch dir part next (some attachment)) : '\x00' ∉ part.sanitizedName := by
  cases h with
  | written made _ name _ hMade hName hWrite =>
    obtain ⟨-, -, hNul, -⟩ := FileTree.write_eq_some.mp hWrite
    intro hMem
    have hGiven : name.contains '\x00' = true := List.contains_iff_mem.mpr (hName.mem hMem (by decide))
    rw [FileTree.hasNul, List.any_append, List.any_cons, hGiven] at hNul
    simp at hNul

theorem StagesPart.open_before (h : StagesPart scratch dir part next staged)
    (hOpen : ∃ made, next.createDirAll dir = some made) : ∃ made, scratch.createDirAll dir = some made := by
  cases h with
  | skipped => exact hOpen
  | blocked => exact hOpen
  | unwritten _ _ _ hMade => exact ⟨_, hMade⟩
  | written made _ _ _ hMade => exact ⟨made, hMade⟩

theorem not_prefix_of_name (dir : Path) (name : Text) : ¬ dir ++ [name] <+: dir := by
  intro hPrefix
  have hLength := hPrefix.length_le
  rw [List.length_append, List.length_singleton] at hLength
  omega

theorem createDirAll_contains {made : FileTree Bytes} (hMade : scratch.createDirAll dir = some made) (name : Text) :
    made.contains (dir ++ [name]) = scratch.contains (dir ++ [name]) := by
  rw [FileTree.contains, FileTree.lookup_createDirAll hMade, if_neg (not_prefix_of_name dir name)]
  rfl

theorem StagesPart.contains (h : StagesPart scratch dir part next staged) (name : Text) :
    next.contains (dir ++ [name]) = true ↔
      scratch.contains (dir ++ [name]) = true ∨ ∃ attachment, staged = some attachment ∧ attachment.name = name := by
  cases h with
  | skipped => simp
  | blocked => simp
  | unwritten _ _ _ hMade => simp [createDirAll_contains hMade]
  | written made _ given _ hMade _ hWrite =>
    by_cases hSame : name = given
    · subst name
      simp [FileTree.contains, FileTree.lookup_write hWrite]
    · rw [FileTree.contains, FileTree.lookup_write hWrite, if_neg (by simpa using hSame), ← FileTree.contains,
        createDirAll_contains hMade]
      simp [Ne.symm hSame]

theorem StagesPart.dirs (h : StagesPart scratch dir part next staged) {path : Path}
    (hNode : next.lookup path = some .dir) : scratch.lookup path = some .dir ∨ path <+: dir := by
  have hMadeDir {made : FileTree Bytes} (hMade : scratch.createDirAll dir = some made)
      (hNow : made.lookup path = some .dir) : scratch.lookup path = some .dir ∨ path <+: dir := by
    rw [FileTree.lookup_createDirAll hMade] at hNow
    split at hNow
    · exact .inr (by assumption)
    · exact .inl hNow
  cases h with
  | skipped => exact .inl hNode
  | blocked => exact .inl hNode
  | unwritten _ _ _ hMade => exact hMadeDir hMade hNode
  | written made _ name _ hMade _ hWrite =>
    rw [FileTree.lookup_write hWrite] at hNode
    split at hNode
    · cases hNode
    · exact hMadeDir hMade hNode

theorem StagesPart.passable (h : StagesPart scratch dir part next staged) (hDir : Passable scratch dir) :
    Passable next dir := by
  have hMadeDir {made : FileTree Bytes} (hMade : scratch.createDirAll dir = some made) : Passable made dir := by
    refine ⟨fun other content hOther => ?_, hDir.noNul⟩
    rw [FileTree.lookup_createDirAll hMade, if_pos hOther]
    simp
  cases h with
  | skipped => exact hDir
  | blocked => exact hDir
  | unwritten _ _ _ hMade => exact hMadeDir hMade
  | written made _ name _ hMade _ hWrite =>
    refine ⟨fun other content hOther => ?_, hDir.noNul⟩
    rw [FileTree.lookup_write hWrite, if_neg]
    · exact (hMadeDir hMade).noFile other content hOther
    · rintro rfl
      exact not_prefix_of_name dir name hOther

theorem Passable.hasNul (h : Passable scratch dir) (name : Text) :
    FileTree.hasNul (dir ++ [name]) = name.contains '\x00' := by
  have hDir : FileTree.hasNul dir = false := by
    rw [FileTree.hasNul, List.any_eq_false]
    intro other hOther
    simpa [FileTree.hasNul] using h.noNul other hOther
  rw [FileTree.hasNul, List.any_append, ← FileTree.hasNul, hDir]
  simp

theorem StagesPart.staged_iff (h : StagesPart scratch dir part next staged) (hDir : Passable scratch dir) :
    staged.isSome ↔ ¬ part.Skipped ∧ '\x00' ∉ part.sanitizedName := by
  cases h with
  | skipped hSkipped => simp [hSkipped]
  | blocked hBlocked =>
    obtain ⟨made, hMade⟩ := hDir.createDirAll
    rw [hBlocked] at hMade
    cases hMade
  | unwritten made name hPart hMade hName hNul =>
    rw [hDir.hasNul, List.contains_iff_mem] at hNul
    refine ⟨nofun, fun ⟨_, hSanitized⟩ => ?_⟩
    exact absurd hNul (hName.not_mem hSanitized (by decide) (by decide) (by decide))
  | written made next name hPart hMade hName hWrite =>
    obtain ⟨_, _, hNul, _⟩ := FileTree.write_eq_some.mp hWrite
    rw [hDir.hasNul, ← Bool.not_eq_true, List.contains_iff_mem] at hNul
    refine ⟨fun _ => ⟨hPart, fun hSanitized => hNul (hName.mem hSanitized (by decide))⟩, fun _ => rfl⟩

theorem StagesPart.unique {attachment : StagedAttachment} (h : StagesPart scratch dir part next (some attachment)) :
    IsUniqueName (fun name => scratch.contains (dir ++ [name])) part.sanitizedName attachment.name := by
  cases h with
  | written made _ name _ hMade hName _ =>
    have hSame : (fun name => made.contains (dir ++ [name])) = fun name => scratch.contains (dir ++ [name]) :=
      funext fun name => createDirAll_contains hMade name
    rw [← hSame]
    exact hName

end Spec

section Parts

variable {scratch : FileTree Bytes} {dir : Path}

theorem stageParts_cons (part : MessagePart) (parts : List MessagePart) :
    stageParts scratch dir (part :: parts) =
      ((stageParts (stagePart scratch dir part).1 dir parts).1,
        (stagePart scratch dir part).2.toList ++ (stageParts (stagePart scratch dir part).1 dir parts).2) := rfl

theorem stageParts_keeps (parts : List MessagePart) {path : Path} {node : Node Bytes}
    (hNode : scratch.lookup path = some node) : (stageParts scratch dir parts).1.lookup path = some node := by
  induction parts generalizing scratch with
  | nil => exact hNode
  | cons part parts ih => exact ih ((stagePart_spec scratch dir part).keeps hNode)

theorem stageParts_passable (parts : List MessagePart) (hDir : Passable scratch dir) :
    Passable (stageParts scratch dir parts).1 dir := by
  induction parts generalizing scratch with
  | nil => exact hDir
  | cons part parts ih => exact ih ((stagePart_spec scratch dir part).passable hDir)

theorem stageParts_dirs (parts : List MessagePart) {path : Path}
    (hNode : (stageParts scratch dir parts).1.lookup path = some .dir) :
    scratch.lookup path = some .dir ∨ path <+: dir := by
  induction parts generalizing scratch with
  | nil => exact .inl hNode
  | cons part parts ih =>
    obtain hNow | hPrefix := ih hNode
    · exact (stagePart_spec scratch dir part).dirs hNow
    · exact .inr hPrefix

theorem contains_of_keeps {next : FileTree Bytes} {path : Path}
    (hKeeps : ∀ node, scratch.lookup path = some node → next.lookup path = some node)
    (hContains : scratch.contains path = true) : next.contains path = true := by
  obtain ⟨node, hNode⟩ := Option.isSome_iff_exists.mp hContains
  rw [FileTree.contains, hKeeps node hNode]
  rfl

theorem mem_stageParts {parts : List MessagePart} {attachment : StagedAttachment}
    (h : attachment ∈ (stageParts scratch dir parts).2) :
    attachment.path = dir ++ [attachment.name] ∧ scratch.contains attachment.path = false ∧
      '/' ∉ attachment.name ∧ (∃ made, scratch.createDirAll dir = some made) ∧
      ∃ part ∈ parts, (¬ part.Skipped ∧ '\x00' ∉ part.sanitizedName) ∧
        (attachment.name = part.sanitizedName ∨ '-' ∈ attachment.name) ∧
        (stageParts scratch dir parts).1.lookup attachment.path = some (.file part.contents) := by
  induction parts generalizing scratch with
  | nil => cases h
  | cons part parts ih =>
    rw [stageParts_cons] at h ⊢
    have hSpec := stagePart_spec scratch dir part
    obtain hHere | hLater := List.mem_append.mp h
    · rw [Option.mem_toList] at hHere
      rw [hHere] at hSpec
      obtain ⟨hPath, hFree, hContents, hName, hSlash, hMade⟩ := hSpec.staged_spec
      exact ⟨hPath, hFree, hSlash, hMade, part, List.mem_cons_self, ⟨hSpec.not_skipped, hSpec.no_nul⟩, hName,
        stageParts_keeps parts hContents⟩
    · obtain ⟨hPath, hFree, hSlash, hMade, other, hOther, hPart, hName, hContents⟩ := ih hLater
      refine ⟨hPath, ?_, hSlash, hSpec.open_before hMade, other, List.mem_cons_of_mem part hOther, hPart, hName, hContents⟩
      by_contra hTaken
      rw [contains_of_keeps (fun _ => hSpec.keeps) (Bool.not_eq_false _ ▸ hTaken)] at hFree
      cases hFree

theorem nodup_stageParts (parts : List MessagePart) :
    ((stageParts scratch dir parts).2.map StagedAttachment.name).Nodup := by
  induction parts generalizing scratch with
  | nil => exact .nil
  | cons part parts ih =>
    rw [stageParts_cons, List.map_append]
    have hSpec := stagePart_spec scratch dir part
    cases hStaged : (stagePart scratch dir part).2 with
    | none => simpa using ih
    | some attachment =>
      rw [hStaged] at hSpec
      obtain ⟨hPath, -, hContents, -⟩ := hSpec.staged_spec
      refine List.nodup_cons.mpr ⟨fun hAgain => ?_, ih⟩
      obtain ⟨other, hOther, hName⟩ := List.mem_map.mp hAgain
      obtain ⟨hOtherPath, hFree, -⟩ := mem_stageParts hOther
      rw [hOtherPath, hName, ← hPath, FileTree.contains, hContents] at hFree
      cases hFree

theorem exists_staged {parts : List MessagePart} {part : MessagePart} (hDir : Passable scratch dir)
    (hPart : part ∈ parts) (hSkipped : ¬ part.Skipped) (hNul : '\x00' ∉ part.sanitizedName)
    (hFree : scratch.contains (dir ++ [part.sanitizedName]) = false) :
    ∃ attachment ∈ (stageParts scratch dir parts).2, attachment.name = part.sanitizedName := by
  induction parts generalizing scratch with
  | nil => cases hPart
  | cons first parts ih =>
    rw [stageParts_cons]
    have hSpec := stagePart_spec scratch dir first
    by_cases hHere : ∃ attachment, (stagePart scratch dir first).2 = some attachment ∧
        attachment.name = part.sanitizedName
    · obtain ⟨attachment, hStaged, hName⟩ := hHere
      exact ⟨attachment, by simp [hStaged], hName⟩
    · have hStillFree : (stagePart scratch dir first).1.contains (dir ++ [part.sanitizedName]) = false := by
        rw [← Bool.not_eq_true, hSpec.contains, hFree]
        simpa using hHere
      obtain rfl | hLater := List.mem_cons.mp hPart
      · obtain ⟨attachment, hStaged⟩ := Option.isSome_iff_exists.mp ((hSpec.staged_iff hDir).mpr ⟨hSkipped, hNul⟩)
        rw [hStaged] at hSpec
        exact absurd ⟨attachment, hStaged, hSpec.unique.unique ⟨hFree, .inl rfl⟩⟩ hHere
      · obtain ⟨attachment, hAttachment, hName⟩ := ih (hSpec.passable hDir) hLater hStillFree
        exact ⟨attachment, List.mem_append_right _ hAttachment, hName⟩

def stagedFiles (scratch : FileTree Bytes) (dir : Path) (parts : List MessagePart) : List (Text × Option (Node Bytes)) :=
  let (final, staged) := stageParts scratch dir parts
  staged.map fun attachment => (attachment.name, final.lookup attachment.path)

theorem stagedFiles_cons (part : MessagePart) (parts : List MessagePart) :
    stagedFiles scratch dir (part :: parts) =
      (stagePart scratch dir part).2.toList.map (fun attachment => (attachment.name, some (.file part.contents))) ++
        stagedFiles (stagePart scratch dir part).1 dir parts := by
  have hSpec := stagePart_spec scratch dir part
  simp only [stagedFiles, stageParts_cons, List.map_append]
  congr 1
  apply List.map_congr_left
  intro attachment hAttachment
  rw [Option.mem_toList] at hAttachment
  rw [hAttachment] at hSpec
  rw [stageParts_keeps parts hSpec.staged_spec.2.2.1]

/-- Two directories stage the same files where the first one has all names of the second
and none that the second is about to give. -/
theorem stagedFiles_agree {left clean : FileTree Bytes} {leftDir cleanDir : Path} (parts : List MessagePart)
    (hLeft : Passable left leftDir) (hClean : Passable clean cleanDir)
    (hMore : ∀ name, clean.contains (cleanDir ++ [name]) = true → left.contains (leftDir ++ [name]) = true)
    (hFree : ∀ file ∈ stagedFiles clean cleanDir parts, left.contains (leftDir ++ [file.1]) = false) :
    stagedFiles left leftDir parts = stagedFiles clean cleanDir parts := by
  induction parts generalizing left clean with
  | nil => rfl
  | cons part parts ih =>
    rw [stagedFiles_cons] at hFree ⊢
    rw [stagedFiles_cons]
    have hLeftSpec := stagePart_spec left leftDir part
    have hCleanSpec := stagePart_spec clean cleanDir part
    have hBoth : (stagePart left leftDir part).2.isSome ↔ (stagePart clean cleanDir part).2.isSome := by
      rw [hLeftSpec.staged_iff hLeft, hCleanSpec.staged_iff hClean]
    have hNames : ∀ attachment, (stagePart clean cleanDir part).2 = some attachment →
        ∃ twin, (stagePart left leftDir part).2 = some twin ∧ twin.name = attachment.name := by
      intro attachment hStaged
      obtain ⟨twin, hTwin⟩ := Option.isSome_iff_exists.mp (hBoth.mpr (by rw [hStaged]; rfl))
      rw [hStaged] at hCleanSpec hFree
      rw [hTwin] at hLeftSpec
      have hMoved := hCleanSpec.unique.mono hMore (hFree (attachment.name, some (.file part.contents)) (by simp))
      exact ⟨twin, hTwin, hLeftSpec.unique.unique hMoved⟩
    congr 1
    · cases hStaged : (stagePart clean cleanDir part).2 with
      | none =>
        have hNone : (stagePart left leftDir part).2 = none := by
          rw [← Option.not_isSome_iff_eq_none, hBoth, hStaged]
          simp
        rw [hNone]
      | some attachment =>
        obtain ⟨twin, hTwin, hName⟩ := hNames attachment hStaged
        simp [hTwin, hName]
    · apply ih (hLeftSpec.passable hLeft) (hCleanSpec.passable hClean)
      · intro name hName
        rw [hCleanSpec.contains] at hName
        rw [hLeftSpec.contains]
        obtain hOld | ⟨attachment, hStaged, rfl⟩ := hName
        · exact .inl (hMore name hOld)
        · exact .inr (hNames attachment hStaged)
      · intro file hFile
        rw [← Bool.not_eq_true, hLeftSpec.contains]
        rintro (hTaken | ⟨twin, hTwin, hName⟩)
        · rw [hFree file (List.mem_append_right _ hFile)] at hTaken
          cases hTaken
        · -- The clean run gave this name already, so it gives it to no later part.
          obtain ⟨attachment, hStaged⟩ := Option.isSome_iff_exists.mp (hBoth.mp (by rw [hTwin]; rfl))
          obtain ⟨_, hSame, hTwinName⟩ := hNames attachment hStaged
          obtain rfl := Option.some.inj (hTwin.symm.trans hSame)
          obtain ⟨later, hLater, rfl⟩ := List.mem_map.mp hFile
          obtain ⟨hPath, hLaterFree, -⟩ := mem_stageParts hLater
          have hHeld := (hCleanSpec.contains later.name).mpr (.inr ⟨attachment, hStaged, by rw [← hTwinName, hName]⟩)
          rw [hPath, hHeld] at hLaterFree
          cases hLaterFree

end Parts

end Pigeon.EmailImport
