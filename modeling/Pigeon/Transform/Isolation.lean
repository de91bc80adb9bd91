import Pigeon.Transform.Groups

/-! # When the outputs of one input pass for outputs of another

Group keys of different inputs differ in their digest, but an output carries every group that its beginning
spells, and a file name or a sheet name can spell the group of another input.
-/
namespace Pigeon.Transform

open Library
open Pigeon.Core (sheetSlug)

set_option autoImplicit false

structure SourceFile where
  sourcePath : Text
  relativePath : Text
  kind : InputFileType
  workbook : Workbook

namespace SourceFile

variable (digest : Text → Digest)

def hashInput (file : SourceFile) : Text := Transform.hashInput file.sourcePath file.relativePath

def group (file : SourceFile) : GroupKey := groupKey digest file.sourcePath file.relativePath file.kind

def outputs (file : SourceFile) : List Text :=
  let singleName := computeDestinationName digest file.sourcePath file.relativePath file.kind
  if file.kind.isSpreadsheet then convertSpreadsheet file.kind (file.group digest).text singleName file.workbook
  else [singleName]

/-- Whatever of `a` is there, `b` is not taken for done and finds nothing that it takes for its own. -/
def Isolated (a b : SourceFile) : Prop :=
  ∀ names ⊆ a.outputs digest, (DestinationGroups.index names).isComplete (b.group digest).text = false ∧
    ∀ resultDir, existingGroupOutputs resultDir names (b.group digest).text = []

end SourceFile

/-- What follows the group in a name that belongs to it. -/
def Boundary (rest : Text) : Prop := rest.head? = some '.' ∨ rest.head? = some '-'

namespace SourceFile

variable (digest : Text → Digest)

def HasMembers (file : SourceFile) : Prop :=
  file.kind.isSpreadsheet ∧ file.kind ≠ .csv ∧ file.workbook.sheets.length ≠ 1

/-- The file name of `a` begins with the group of `b`. -/
def SpellsInStem (a b : SourceFile) : Prop :=
  ∃ rest, (a.group digest).stem = (b.group digest).text ++ rest ∧ (rest = [] ∨ Boundary rest)

/-- The file name of `b` begins with the group of `a` and the marker of a sheet of `a`, and the name of that
sheet goes on with the rest of the group of `b`. -/
def SpellsInSheet (a b : SourceFile) : Prop :=
  a.HasMembers ∧
    ∃ entry ∈ a.workbook.entries, ∃ lead rest,
      '-' :: sheetSlug entry.1 = lead ++ '-' :: (b.group digest).digest.val ++ rest ∧ (rest = [] ∨ Boundary rest) ∧
        (b.group digest).stem =
          (a.group digest).text ++ '-' :: sheetMarker (entry.2 + 1) a.workbook.sheets.length ++ lead

end SourceFile

/-! ## Where a group can end in a name -/

def Belongs (group name : Text) : Prop := ∃ rest, name = group ++ rest ∧ Boundary rest

theorem belongs_append_iff {group first second : Text} :
    Belongs group (first ++ second) ↔ (∃ rest, first = group ++ rest ∧ Boundary (rest ++ second)) ∨
      ∃ more, more ≠ [] ∧ group = first ++ more ∧ Belongs more second := by
  constructor
  · rintro ⟨rest, hSplit, hRest⟩
    obtain ⟨more, rfl, rfl⟩ | ⟨more, rfl, rfl⟩ := List.append_eq_append_iff.mp hSplit
    · cases more with
      | nil => exact .inl ⟨[], by simp, hRest⟩
      | cons c more => exact .inr ⟨c :: more, List.cons_ne_nil _ _, rfl, rest, rfl, hRest⟩
    · exact .inl ⟨more, rfl, hRest⟩
  · rintro (⟨rest, rfl, hRest⟩ | ⟨more, -, rfl, rest, rfl, hRest⟩)
    · exact ⟨rest ++ second, List.append_assoc _ _ _, hRest⟩
    · exact ⟨rest, (List.append_assoc _ _ _).symm, hRest⟩

theorem Boundary.append {rest : Text} (h : rest = [] ∨ Boundary rest) {second : Text} (hSecond : Boundary second) :
    Boundary (rest ++ second) := by
  obtain rfl | hRest := h
  · exact hSecond
  · cases rest with
    | nil => cases hRest <;> contradiction
    | cons c rest => exact hRest

theorem Boundary.of_append {rest second : Text} (h : Boundary (rest ++ second)) : rest = [] ∨ Boundary rest := by
  cases rest with
  | nil => exact .inl rfl
  | cons c rest => exact .inr h

theorem Boundary.mem {rest : Text} (h : Boundary rest) : '.' ∈ rest ∨ '-' ∈ rest :=
  h.imp List.mem_of_head? List.mem_of_head?

theorem not_mem_digest {c : Char} (h : c.isHexDigit = false) (digest : Digest) : c ∉ digest.val := by
  intro hMem
  rw [List.all_eq_true.mp digest.property.2 c hMem] at h
  cases h

theorem GroupKey.eq_of_text {group : GroupKey} {before digest : Text} (h : group.text = before ++ '-' :: digest)
    (hDigest : '-' ∉ digest) : group.stem = before ∧ group.digest.val = digest := by
  have hSplit : Text.rsplitOnce '-' group.text = some (group.stem, group.digest.val) :=
    Text.rsplitOnce_append group.stem (not_mem_digest (by decide) group.digest)
  rw [h, Text.rsplitOnce_append before hDigest] at hSplit
  obtain ⟨rfl, rfl⟩ := Prod.mk.inj (Option.some.inj hSplit)
  exact ⟨rfl, rfl⟩

theorem not_belongs_extension {more : Text} (hMore : more ≠ []) (kind : InputFileType) :
    ¬ Belongs more ('.' :: kind.outputExtension) := by
  rintro ⟨rest, hSplit, hRest⟩
  cases more with
  | nil => exact hMore rfl
  | cons c more =>
    obtain ⟨-, hExtension⟩ := List.cons.inj hSplit
    have hFree : '.' ∉ kind.outputExtension ∧ '-' ∉ kind.outputExtension := by cases kind <;> decide
    rw [hExtension] at hFree
    obtain hDot | hHyphen := hRest.mem
    · exact hFree.1 (List.mem_append_right more hDot)
    · exact hFree.2 (List.mem_append_right more hHyphen)

theorem belongs_group_append_iff {group other : GroupKey} (hApart : group.digest ≠ other.digest) (tail : Text) :
    Belongs other.text (group.text ++ tail) ↔
      (∃ rest, group.stem = other.text ++ rest ∧ (rest = [] ∨ Boundary rest)) ∨
        ∃ more, more ≠ [] ∧ other.text = group.text ++ more ∧ Belongs more tail := by
  have hSplit : group.text ++ tail = group.stem ++ (('-' :: group.digest.val) ++ tail) := List.append_assoc _ _ _
  rw [hSplit, belongs_append_iff]
  apply or_congr
  · constructor
    · rintro ⟨rest, hStem, hRest⟩
      exact ⟨rest, hStem, hRest.of_append⟩
    · rintro ⟨rest, hStem, hRest⟩
      exact ⟨rest, hStem, Boundary.append hRest (.inr rfl)⟩
  · constructor
    · rintro ⟨more, hMore, hOther, hBelongs⟩
      obtain ⟨rest, hDigest, hRest⟩ | ⟨later, hLater, rfl, hTail⟩ := belongs_append_iff.mp hBelongs
      · cases more with
        | nil => exact absurd rfl hMore
        | cons c more =>
          obtain ⟨rfl, hVal⟩ : '-' = c ∧ group.digest.val = more ++ rest := List.cons.inj hDigest
          have hHyphen := not_mem_digest (show '-'.isHexDigit = false by decide) group.digest
          have hDot := not_mem_digest (show '.'.isHexDigit = false by decide) group.digest
          rw [hVal, List.mem_append, not_or] at hHyphen hDot
          obtain rfl | hInside := hRest.of_append
          · have hSame := (GroupKey.eq_of_text hOther hHyphen.1).2
            rw [List.append_nil] at hVal
            exact absurd (Subtype.ext (hVal.trans hSame.symm)) hApart
          · obtain hMem | hMem := hInside.mem
            · exact absurd hMem hDot.2
            · exact absurd hMem hHyphen.2
      · exact ⟨later, hLater, hOther.trans (List.append_assoc _ _ _).symm, hTail⟩
    · rintro ⟨more, hMore, hOther, rest, rfl, hRest⟩
      refine ⟨'-' :: group.digest.val ++ more, List.cons_ne_nil _ _, ?_, rest, (List.append_assoc _ _ _).symm, hRest⟩
      rw [hOther, GroupKey.text, List.append_assoc]

theorem belongs_member_iff {group other : GroupKey} (index total : Nat) (slug : Text) (kind : InputFileType) :
    (∃ more, more ≠ [] ∧ other.text = group.text ++ more ∧
        Belongs more (('-' :: sheetMarker index total) ++ (('-' :: slug) ++ '.' :: kind.outputExtension))) ↔
      ∃ lead rest, '-' :: slug = lead ++ '-' :: other.digest.val ++ rest ∧ (rest = [] ∨ Boundary rest) ∧
        other.stem = group.text ++ '-' :: sheetMarker index total ++ lead := by
  have hHyphen := not_mem_sheetMarker (show '-'.isDigit = false by decide) (by decide) index total
  have hDot := not_mem_sheetMarker (show '.'.isDigit = false by decide) (by decide) index total
  have hLetter : 'o' ∈ sheetMarker index total := List.mem_append_left _ (List.mem_append_right _ (by decide))
  constructor
  · rintro ⟨more, hMore, hOther, hBelongs⟩
    obtain ⟨rest, hMarker, hRest⟩ | ⟨later, hLater, rfl, hName⟩ := belongs_append_iff.mp hBelongs
    · cases more with
      | nil => exact absurd rfl hMore
      | cons c more =>
        obtain ⟨rfl, hSame⟩ : '-' = c ∧ sheetMarker index total = more ++ rest := List.cons.inj hMarker
        rw [hSame, List.mem_append, not_or] at hHyphen hDot
        obtain rfl | hInside := hRest.of_append
        · have hDigest := (GroupKey.eq_of_text hOther hHyphen.1).2
          rw [List.append_nil] at hSame
          rw [hSame, ← hDigest] at hLetter
          exact absurd hLetter (not_mem_digest (by decide) other.digest)
        · obtain hMem | hMem := hInside.mem
          · exact absurd hMem hDot.2
          · exact absurd hMem hHyphen.2
    · obtain ⟨rest, hSlug, hRest⟩ | ⟨last, hLast, -, hExtension⟩ := belongs_append_iff.mp hName
      · cases hSplit : Text.rsplitOnce '-' later with
        | none =>
          cases later with
          | nil => exact absurd rfl hLater
          | cons c later =>
            obtain ⟨rfl, -⟩ := List.cons.inj hSlug
            exact absurd List.mem_cons_self (Text.not_mem_of_rsplitOnce hSplit)
        | some pieces =>
          obtain ⟨lead, digest⟩ := pieces
          obtain ⟨rfl, hDigest⟩ := Text.rsplitOnce_eq_some hSplit
          have hText : other.text = group.text ++ '-' :: sheetMarker index total ++ lead ++ '-' :: digest := by
            rw [hOther]
            simp
          obtain ⟨hStem, rfl⟩ := GroupKey.eq_of_text hText hDigest
          exact ⟨lead, rest, hSlug, hRest.of_append, hStem⟩
      · exact absurd hExtension (not_belongs_extension hLast kind)
  · rintro ⟨lead, rest, hSlug, hRest, hStem⟩
    refine ⟨('-' :: sheetMarker index total) ++ (lead ++ '-' :: other.digest.val), List.cons_ne_nil _ _, ?_, ?_⟩
    · rw [GroupKey.text, hStem]
      simp
    · refine ⟨rest ++ '.' :: kind.outputExtension, ?_, Boundary.append hRest (.inl rfl)⟩
      rw [hSlug]
      simp

/-! ## Belonging is what both filters see -/

theorem mem_existingGroupOutputs {resultDir path : Path} {names : List Text} {group : Text} :
    path ∈ existingGroupOutputs resultDir names group ↔
      ∃ name ∈ names, Belongs group name ∧ path = resultDir ++ [name] := by
  have hBelongs (name : Text) :
      ((group ++ ['.']).isPrefixOf name || (group ++ ['-']).isPrefixOf name) = true ↔ Belongs group name := by
    rw [Bool.or_eq_true, List.isPrefixOf_iff_prefix, List.isPrefixOf_iff_prefix]
    constructor
    · rintro (⟨rest, rfl⟩ | ⟨rest, rfl⟩)
      · exact ⟨'.' :: rest, by simp, .inl rfl⟩
      · exact ⟨'-' :: rest, by simp, .inr rfl⟩
    · rintro ⟨rest, rfl, hHead⟩
      cases rest with
      | nil => cases hHead <;> contradiction
      | cons c rest =>
        obtain hHead | hHead := hHead
        · cases hHead
          exact .inl ⟨rest, by simp⟩
        · cases hHead
          exact .inr ⟨rest, by simp⟩
  simp only [existingGroupOutputs, List.mem_map, List.mem_mergeSort, List.mem_filter, hBelongs]
  constructor
  · rintro ⟨name, ⟨hName, hGroup⟩, rfl⟩
    exact ⟨name, hName, hGroup, rfl⟩
  · rintro ⟨name, hName, hGroup, rfl⟩
    exact ⟨name, ⟨hName, hGroup⟩, rfl⟩

theorem exists_belongs_of_complete {group : GroupKey} {names : List Text}
    (hDot : ∀ name ∈ names, ∃ stem kind, name = stem ++ '.' :: InputFileType.outputExtension kind)
    (h : (DestinationGroups.index names).isComplete group.text = true) : ∃ name ∈ names, Belongs group.text name := by
  cases hRemainders : DestinationGroups.remainders group.text names with
  | nil =>
    rw [DestinationGroups.not_complete_of_nil hRemainders] at h
    cases h
  | cons remainder rest =>
    have hMem : remainder ∈ DestinationGroups.remainders group.text names := by
      rw [hRemainders]
      exact List.mem_cons_self
    obtain ⟨name, hName, hCandidate⟩ := DestinationGroups.mem_remainders.mp hMem
    obtain ⟨stem, kind, rfl⟩ := hDot name hName
    rw [nameStem_append, mem_candidateGroups] at hCandidate
    obtain ⟨rfl, hEnds⟩ := hCandidate
    refine ⟨_, hName, remainder ++ '.' :: kind.outputExtension, List.append_assoc _ _ _, ?_⟩
    exact Boundary.append (hEnds.imp_right .inr) (.inl rfl)

namespace SourceFile

variable {digest : Text → Digest} {a b : SourceFile}

theorem outputs_single (h : ¬ a.HasMembers) :
    a.outputs digest = [(a.group digest).text ++ '.' :: a.kind.outputExtension] := by
  rw [outputs]
  split
  · rename_i hSpreadsheet
    have hSingle : a.kind = .csv ∨ a.workbook.sheets.length = 1 := by
      by_contra hMany
      obtain ⟨hKind, hLength⟩ := not_or.mp hMany
      exact h ⟨hSpreadsheet, hKind, hLength⟩
    exact Workbook.convertSpreadsheet_single hSingle _
  · rfl

theorem outputs_members (h : a.HasMembers) :
    a.outputs digest = a.workbook.entries.map fun entry =>
      (a.group digest).text ++ memberRemainder a.workbook.sheets.length entry ++ '.' :: a.kind.outputExtension := by
  rw [outputs, if_pos h.1]
  exact Workbook.convertSpreadsheet_members h.2.1 h.2.2 _

theorem dot_outputs {name : Text} (h : name ∈ a.outputs digest) :
    ∃ stem kind, name = stem ++ '.' :: InputFileType.outputExtension kind := by
  by_cases hMembers : a.HasMembers
  · rw [outputs_members hMembers] at h
    obtain ⟨entry, -, rfl⟩ := List.mem_map.mp h
    exact ⟨_, a.kind, rfl⟩
  · rw [outputs_single hMembers, List.mem_singleton] at h
    exact ⟨_, a.kind, h⟩

theorem isolated_iff_not_belongs :
    Isolated digest a b ↔ ∀ name ∈ a.outputs digest, ¬ Belongs (b.group digest).text name := by
  constructor
  · intro h name hName hBelongs
    have hMem : [name] ∈ existingGroupOutputs [] (a.outputs digest) (b.group digest).text :=
      mem_existingGroupOutputs.mpr ⟨name, hName, hBelongs, rfl⟩
    rw [(h _ fun _ hMem => hMem).2 []] at hMem
    cases hMem
  · intro h names hNames
    constructor
    · rw [Bool.eq_false_iff]
      intro hComplete
      obtain ⟨name, hName, hBelongs⟩ :=
        exists_belongs_of_complete (fun name hName => dot_outputs (hNames hName)) hComplete
      exact h name (hNames hName) hBelongs
    · intro resultDir
      rw [List.eq_nil_iff_forall_not_mem]
      intro path hPath
      obtain ⟨name, hName, hBelongs, -⟩ := mem_existingGroupOutputs.mp hPath
      exact h name (hNames hName) hBelongs

theorem belongs_single_iff (hApart : digest a.hashInput ≠ digest b.hashInput) :
    Belongs (b.group digest).text ((a.group digest).text ++ '.' :: a.kind.outputExtension) ↔
      SpellsInStem digest a b := by
  rw [belongs_group_append_iff hApart]
  apply or_iff_left
  rintro ⟨more, hMore, -, hExtension⟩
  exact not_belongs_extension hMore a.kind hExtension

theorem exists_belongs_members_iff (hApart : digest a.hashInput ≠ digest b.hashInput) (h : a.HasMembers) :
    (∃ name ∈ a.outputs digest, Belongs (b.group digest).text name) ↔
      SpellsInStem digest a b ∨ SpellsInSheet digest a b := by
  have hMember (entry : Text × Nat) :
      Belongs (b.group digest).text ((a.group digest).text ++ memberRemainder a.workbook.sheets.length entry ++
          '.' :: a.kind.outputExtension) ↔
        SpellsInStem digest a b ∨ ∃ lead rest,
          '-' :: sheetSlug entry.1 = lead ++ '-' :: (b.group digest).digest.val ++ rest ∧
            (rest = [] ∨ Boundary rest) ∧ (b.group digest).stem =
              (a.group digest).text ++ '-' :: sheetMarker (entry.2 + 1) a.workbook.sheets.length ++ lead := by
    have hTail : memberRemainder a.workbook.sheets.length entry ++ '.' :: a.kind.outputExtension =
        ('-' :: sheetMarker (entry.2 + 1) a.workbook.sheets.length) ++
          (('-' :: sheetSlug entry.1) ++ '.' :: a.kind.outputExtension) := List.append_assoc _ _ _
    rw [List.append_assoc, hTail, belongs_group_append_iff hApart, belongs_member_iff]
    rfl
  rw [outputs_members h]
  constructor
  · rintro ⟨name, hName, hBelongs⟩
    obtain ⟨entry, hEntry, rfl⟩ := List.mem_map.mp hName
    obtain hStem | hSheet := (hMember entry).mp hBelongs
    · exact .inl hStem
    · exact .inr ⟨h, entry, hEntry, hSheet⟩
  · rintro (hStem | ⟨-, entry, hEntry, hSheet⟩)
    · obtain ⟨sheet, hSheet⟩ := List.exists_mem_of_ne_nil _ a.workbook.nonempty
      obtain ⟨position, hPosition⟩ := List.mem_iff_getElem?.mp hSheet
      have hEntry : (sheet, position) ∈ a.workbook.entries := List.mem_zipIdx_iff_getElem?.mpr hPosition
      exact ⟨_, List.mem_map_of_mem hEntry, (hMember _).mpr (.inl hStem)⟩
    · exact ⟨_, List.mem_map_of_mem hEntry, (hMember _).mpr (.inr hSheet)⟩

/-- The outputs of one input are kept apart from another input exactly where neither its file name nor the
names of its sheets spell the other's group. -/
theorem isolated_iff (hApart : digest a.hashInput ≠ digest b.hashInput) :
    Isolated digest a b ↔ ¬ SpellsInStem digest a b ∧ ¬ SpellsInSheet digest a b := by
  rw [isolated_iff_not_belongs, ← not_or]
  by_cases hMembers : a.HasMembers
  · rw [← exists_belongs_members_iff hApart hMembers]
    simp only [not_exists, not_and]
  · have hSheet : ¬ SpellsInSheet digest a b := fun h => hMembers h.1
    rw [outputs_single hMembers, or_iff_left hSheet, ← belongs_single_iff hApart]
    simp only [List.mem_singleton, forall_eq]

def singleSheet : Workbook where
  sheets := ["x".toList]
  nonempty := by decide
  length_lt := by decide

def budget : SourceFile where
  sourcePath := "source:xlsx/".toList
  relativePath := "Budget (Normal, Reduced, Crisis).xlsx".toList
  kind := .xlsx
  workbook := singleSheet

def lookalike : SourceFile where
  sourcePath := "source:xlsx/".toList
  relativePath := "Budget-Normal-Reduced-Crisis-ee7a9c8a4c2e5342-01of01-x.xlsx".toList
  kind := .xlsx
  workbook := singleSheet

/-- The digests of the two keys. -/
def budgetDigests (key : Text) : Digest :=
  if key = budget.hashInput then ⟨"ee7a9c8a4c2e5342".toList, by decide⟩ else ⟨"8cfd8c767b8ebf28".toList, by decide⟩

theorem isolated_iff_budget : Isolated budgetDigests budget lookalike ↔
    ¬ SpellsInStem budgetDigests budget lookalike ∧ ¬ SpellsInSheet budgetDigests budget lookalike :=
  isolated_iff (by decide +kernel)

/-- A file named after a member of the other file's group completes that group. -/
theorem lookalike_completes_budget :
    budgetDigests lookalike.hashInput ≠ budgetDigests budget.hashInput ∧
      (DestinationGroups.index (lookalike.outputs budgetDigests)).isComplete (budget.group budgetDigests).text = true ∧
      existingGroupOutputs ["result".toList] (lookalike.outputs budgetDigests) (budget.group budgetDigests).text =
        [["result".toList, "Budget-Normal-Reduced-Crisis-ee7a9c8a4c2e5342-01of01-x-8cfd8c767b8ebf28.csv".toList]] ∧
      ¬ Isolated budgetDigests lookalike budget := by
  have hComplete : (DestinationGroups.index (lookalike.outputs budgetDigests)).isComplete
      (budget.group budgetDigests).text = true := by decide +kernel
  refine ⟨by decide +kernel, hComplete, by decide +kernel, fun hIsolated => ?_⟩
  rw [(hIsolated _ fun _ hMem => hMem).1] at hComplete
  cases hComplete

end SourceFile

end Pigeon.Transform
