import Pigeon.Transform.Isolation
import Pigeon.Transform.Reconcile

/-! # Whether a finished input is skipped by the run after it

The index of a destination is read off the remainders behind the group: what it has seen of them decides
each of its fields. A member that declares another number of sheets stays at the destination for good.
-/
namespace Pigeon.Transform

open Library

set_option autoImplicit false

theorem parseSheetMarker_range {remainder : Text} {index total : Nat}
    (h : parseSheetMarker remainder = some (index, total)) : 0 < index ∧ index ≤ total := by
  rw [parseSheetMarker.eq_def] at h
  split at h
  · split at h
    · split at h
      · split_ifs at h
        split at h
        · split_ifs at h with hRange
          obtain ⟨rfl, rfl⟩ := Prod.mk.inj (Option.some.inj h)
          omega
        · cases h
      · cases h
    · cases h
  · cases h

/-- What the state of a group says of the remainders gone through. -/
structure Recorded (seen : List Text) (state : GroupState) : Prop where
  plain : state.plain = true ↔ [] ∈ seen
  members : ∀ index, index ∈ state.members ↔ ∃ remainder ∈ seen, ∃ total, parseSheetMarker remainder = some (index, total)
  declared : ∀ total, state.declaredTotal = some total →
    ∃ remainder ∈ seen, ∃ index, parseSheetMarker remainder = some (index, total)
  undeclared : state.declaredTotal = none → ∀ remainder ∈ seen, parseSheetMarker remainder = none
  consistent : state.inconsistent = false ↔
    ∀ remainder ∈ seen, ∀ index total, parseSheetMarker remainder = some (index, total) →
      state.declaredTotal = some total

namespace Recorded

theorem nil : Recorded [] {} where
  plain := by simp
  members := by simp
  declared := by simp
  undeclared := by simp
  consistent := by simp

variable {seen : List Text} {state : GroupState}

theorem record (h : Recorded seen state) (remainder : Text) :
    Recorded (seen ++ [remainder]) (state.record remainder) := by
  rw [GroupState.record]
  split
  · rename_i hNil
    subst hNil
    have hUnmarked : parseSheetMarker [] = none := rfl
    exact
      { plain := by simp
        members := fun index => (h.members index).trans (by simp [hUnmarked])
        declared := fun total hTotal => by simpa [hUnmarked] using h.declared total hTotal
        undeclared := fun hNone => by simpa [hUnmarked, or_imp, forall_and] using h.undeclared hNone
        consistent := h.consistent.trans (by simp [hUnmarked, or_imp, forall_and]) }
  · rename_i hRemainder
    have hPlain : [] ∈ seen ++ [remainder] ↔ [] ∈ seen := by
      rw [List.mem_append, List.mem_singleton, or_iff_left (Ne.symm hRemainder)]
    split
    · rename_i index total hMarked
      refine ⟨h.plain.trans hPlain.symm, fun other => ?_, fun other hOther => ?_, fun hNone => ?_, ?_⟩
      · have hMembers := h.members other
        simp only [Finset.mem_insert, List.mem_append, List.mem_singleton, or_and_right, exists_or, exists_eq_left,
          hMarked, Option.some.injEq, Prod.mk.injEq, exists_and_left, exists_eq', and_true, hMembers]
        rw [or_comm, eq_comm]
      · cases hDeclared : state.declaredTotal with
        | none =>
          rw [hDeclared] at hOther
          obtain rfl : total = other := Option.some.inj hOther
          exact ⟨remainder, by simp, index, hMarked⟩
        | some declared =>
          rw [hDeclared] at hOther
          obtain rfl : declared = other := Option.some.inj hOther
          obtain ⟨earlier, hEarlier, hParse⟩ := h.declared declared hDeclared
          exact ⟨earlier, List.mem_append_left _ hEarlier, hParse⟩
      · cases hNone
      · have hHere (declared : Option Nat) : (∀ earlier ∈ seen ++ [remainder], ∀ index total,
            parseSheetMarker earlier = some (index, total) → declared = some total) ↔
            (∀ earlier ∈ seen, ∀ index total, parseSheetMarker earlier = some (index, total) →
              declared = some total) ∧ declared = some total := by
          simp [or_imp, forall_and, hMarked]
        rw [hHere, Bool.or_eq_false_iff]
        cases hDeclared : state.declaredTotal with
        | none =>
          have hNone := h.undeclared hDeclared
          have hBefore : state.inconsistent = false :=
            h.consistent.mpr fun earlier hEarlier index total hParse => by simp [hNone earlier hEarlier] at hParse
          refine iff_of_true ⟨hBefore, rfl⟩ ⟨fun earlier hEarlier index total hParse => ?_, rfl⟩
          simp [hNone earlier hEarlier] at hParse
        | some declared =>
          rw [h.consistent, hDeclared]
          simp
    · rename_i hMarked
      exact
        { plain := h.plain.trans hPlain.symm
          members := fun index => (h.members index).trans (by simp [hMarked])
          declared := fun total hTotal => by simpa [hMarked] using h.declared total hTotal
          undeclared := fun hNone => by simpa [hMarked, or_imp, forall_and] using h.undeclared hNone
          consistent := h.consistent.trans (by simp [hMarked, or_imp, forall_and]) }

theorem foldl (h : Recorded seen state) (remainders : List Text) :
    Recorded (seen ++ remainders) (remainders.foldl GroupState.record state) := by
  induction remainders generalizing seen state with
  | nil =>
    rw [List.append_nil]
    exact h
  | cons remainder remainders ih =>
    rw [List.append_cons]
    exact ih (h.record remainder)

end Recorded

namespace DestinationGroups

theorem recorded_index {group : Text} {names : List Text} {state : GroupState} (h : index names group = some state) :
    Recorded (remainders group names) state := by
  cases hRemainders : remainders group names with
  | nil =>
    rw [index_eq, hRemainders] at h
    cases h
  | cons remainder rest =>
    rw [index_cons hRemainders] at h
    obtain rfl := Option.some.inj h
    exact Recorded.nil.foldl (remainder :: rest)

theorem ends_of_parse {remainder : Text} {marked : Nat × Nat} (h : parseSheetMarker remainder = some marked) :
    EndsGroup remainder := by
  rw [parseSheetMarker.eq_def] at h
  split at h
  · exact .inr rfl
  · cases h

theorem mem_remainders_iff {group : GroupKey} {names : List Text} {remainder : Text} :
    remainder ∈ remainders group.text names ↔
      EndsGroup remainder ∧ ∃ name ∈ names, nameStem name = group.text ++ remainder := by
  rw [mem_remainders]
  constructor
  · rintro ⟨name, hName, hCandidate⟩
    obtain ⟨hStem, hEnds⟩ := mem_candidateGroups.mp hCandidate
    exact ⟨hEnds, name, hName, hStem⟩
  · rintro ⟨hEnds, name, hName, hStem⟩
    exact ⟨name, hName, mem_candidateGroups.mpr ⟨hStem, hEnds⟩⟩

theorem isComplete_eq_true_iff {groups : DestinationGroups} {group : Text} {state : GroupState}
    (h : groups group = some state) :
    groups.isComplete group = true ↔
      state.plain = true ∨ state.inconsistent = false ∧ state.declaredTotal = some state.members.card := by
  simp [isComplete, h]

end DestinationGroups

namespace SourceFile

variable {digest : Text → Digest} {file : SourceFile}

/-- The names at the destination that have the group of the file and its marker declare its number of sheets. -/
def TotalsAgree (digest : Text → Digest) (file : SourceFile) (names : List Text) : Prop :=
  ∀ name ∈ names, ∀ remainder index total,
    DestinationGroups.nameStem name = (file.group digest).text ++ remainder →
      parseSheetMarker remainder = some (index, total) → total = file.workbook.sheets.length

def HasPlain (digest : Text → Digest) (file : SourceFile) (names : List Text) : Prop :=
  ∃ name ∈ names, DestinationGroups.nameStem name = (file.group digest).text

theorem mem_outputs_iff (h : file.HasMembers) {name : Text} :
    name ∈ file.outputs digest ↔ ∃ entry ∈ file.workbook.entries,
      (file.group digest).text ++ memberRemainder file.workbook.sheets.length entry ++ '.' :: file.kind.outputExtension =
        name := by
  rw [outputs_members h, List.mem_map]

section Rerun

variable {prior listing : List Text} {state : GroupState}

theorem hasPlain_iff (h : file.HasMembers)
    (hListing : ∀ name, name ∈ listing ↔ name ∈ prior ∨ name ∈ file.outputs digest) :
    [] ∈ DestinationGroups.remainders (file.group digest).text listing ↔ file.HasPlain digest prior := by
  have hEnds : EndsGroup [] := .inl rfl
  rw [DestinationGroups.mem_remainders_iff, and_iff_right hEnds, List.append_nil]
  constructor
  · rintro ⟨name, hName, hStem⟩
    obtain hPrior | hOutput := (hListing name).mp hName
    · exact ⟨name, hPrior, hStem⟩
    · obtain ⟨entry, -, rfl⟩ := (mem_outputs_iff h).mp hOutput
      rw [nameStem_append, List.append_right_eq_self] at hStem
      cases hStem
  · rintro ⟨name, hPrior, hStem⟩
    exact ⟨name, (hListing name).mpr (.inl hPrior), hStem⟩

theorem totalsAgree_iff (h : file.HasMembers)
    (hListing : ∀ name, name ∈ listing ↔ name ∈ prior ∨ name ∈ file.outputs digest) :
    (∀ remainder ∈ DestinationGroups.remainders (file.group digest).text listing, ∀ index total,
      parseSheetMarker remainder = some (index, total) → total = file.workbook.sheets.length) ↔
        file.TotalsAgree digest prior := by
  constructor
  · intro hAll name hName remainder index total hStem hParse
    refine hAll remainder ?_ index total hParse
    exact DestinationGroups.mem_remainders_iff.mpr
      ⟨DestinationGroups.ends_of_parse hParse, name, (hListing name).mpr (.inl hName), hStem⟩
  · intro hAgree remainder hRemainder index total hParse
    obtain ⟨-, name, hName, hStem⟩ := DestinationGroups.mem_remainders_iff.mp hRemainder
    obtain hPrior | hOutput := (hListing name).mp hName
    · exact hAgree name hPrior remainder index total hStem hParse
    · obtain ⟨entry, hEntry, rfl⟩ := (mem_outputs_iff h).mp hOutput
      rw [nameStem_append, List.append_cancel_left_eq] at hStem
      rw [← hStem, Workbook.parse_memberRemainder hEntry] at hParse
      exact (Prod.mk.inj (Option.some.inj hParse)).2.symm

theorem memberRemainder_mem (h : file.HasMembers)
    (hListing : ∀ name, name ∈ listing ↔ name ∈ prior ∨ name ∈ file.outputs digest) {entry : Text × Nat}
    (hEntry : entry ∈ file.workbook.entries) :
    memberRemainder file.workbook.sheets.length entry ∈
      DestinationGroups.remainders (file.group digest).text listing := by
  refine DestinationGroups.mem_remainders_iff.mpr ⟨.inr rfl, _, (hListing _).mpr (.inr ?_), nameStem_append _ file.kind⟩
  exact (mem_outputs_iff h).mpr ⟨entry, hEntry, rfl⟩

theorem card_members (h : file.HasMembers)
    (hListing : ∀ name, name ∈ listing ↔ name ∈ prior ∨ name ∈ file.outputs digest)
    (hRecorded : Recorded (DestinationGroups.remainders (file.group digest).text listing) state)
    (hAgree : file.TotalsAgree digest prior) : state.members.card = file.workbook.sheets.length := by
  have hFull : state.members = Finset.Icc 1 file.workbook.sheets.length := by
    ext index
    rw [hRecorded.members, Finset.mem_Icc]
    constructor
    · rintro ⟨remainder, hRemainder, total, hParse⟩
      obtain rfl := (totalsAgree_iff h hListing).mpr hAgree remainder hRemainder index total hParse
      have hRange := parseSheetMarker_range hParse
      omega
    · rintro ⟨hPos, hLe⟩
      obtain ⟨position, rfl⟩ : ∃ position, index = position + 1 := ⟨index - 1, by omega⟩
      have hEntry : (file.workbook.sheets[position], position) ∈ file.workbook.entries :=
        List.mem_zipIdx_iff_getElem?.mpr (List.getElem?_eq_getElem _)
      exact ⟨_, memberRemainder_mem h hListing hEntry, _, Workbook.parse_memberRemainder hEntry⟩
  rw [hFull, Nat.card_Icc, Nat.add_sub_cancel]

theorem isComplete_iff (h : file.HasMembers)
    (hListing : ∀ name, name ∈ listing ↔ name ∈ prior ∨ name ∈ file.outputs digest) :
    (DestinationGroups.index listing).isComplete (file.group digest).text = true ↔
      file.HasPlain digest prior ∨ file.TotalsAgree digest prior := by
  obtain ⟨sheet, hSheet⟩ := List.exists_mem_of_ne_nil _ file.workbook.nonempty
  obtain ⟨position, hPosition⟩ := List.mem_iff_getElem?.mp hSheet
  have hEntry : (sheet, position) ∈ file.workbook.entries := List.mem_zipIdx_iff_getElem?.mpr hPosition
  have hMember := memberRemainder_mem h hListing hEntry
  have hParse := Workbook.parse_memberRemainder hEntry
  cases hState : DestinationGroups.index listing (file.group digest).text with
  | none =>
    cases hRemainders : DestinationGroups.remainders (file.group digest).text listing with
    | nil =>
      rw [hRemainders] at hMember
      cases hMember
    | cons remainder rest =>
      rw [DestinationGroups.index_cons hRemainders] at hState
      cases hState
  | some state =>
    have hRecorded := DestinationGroups.recorded_index hState
    rw [DestinationGroups.isComplete_eq_true_iff hState, hRecorded.plain, hasPlain_iff h hListing]
    apply or_congr_right
    rw [hRecorded.consistent]
    constructor
    · rintro ⟨hConsistent, -⟩
      refine (totalsAgree_iff h hListing).mp fun remainder hRemainder index total hMarked => ?_
      have hDeclared := hConsistent remainder hRemainder index total hMarked
      rw [hConsistent _ hMember _ _ hParse] at hDeclared
      exact (Option.some.inj hDeclared).symm
    · intro hAgree
      have hAll := (totalsAgree_iff h hListing).mpr hAgree
      have hDeclared : state.declaredTotal = some file.workbook.sheets.length := by
        cases hTotal : state.declaredTotal with
        | none =>
          have hUnmarked := hRecorded.undeclared hTotal _ hMember
          rw [hParse] at hUnmarked
          cases hUnmarked
        | some total =>
          obtain ⟨remainder, hRemainder, index, hMarked⟩ := hRecorded.declared total hTotal
          rw [hAll remainder hRemainder index total hMarked]
      refine ⟨fun remainder hRemainder index total hMarked => ?_, ?_⟩
      · rw [hDeclared, hAll remainder hRemainder index total hMarked]
      · rw [hDeclared, card_members h hListing hRecorded hAgree]

end Rerun

/-- When all outputs of a file with several have been pushed, the next run skips the file exactly where its plain
name was there already or no member of its group from before declares another number of sheets. -/
theorem rerun_skips_iff (hMany : file.HasMembers) {prior listing : List Text}
    (hListing : ∀ name, name ∈ listing ↔ name ∈ prior ∨ name ∈ file.outputs digest) :
    ((DestinationGroups.index listing).isComplete (file.group digest).text = true ∧
        ∀ job : TransformJob, job.digest = digest → job.plan.sourcePath = file.sourcePath →
          job.plan.inputFileType = file.kind → job.existingDestinationFilenames = listing →
            file.relativePath ∉ job.filesToPull) ↔
      file.HasPlain digest prior ∨ file.TotalsAgree digest prior := by
  rw [← isComplete_iff hMany hListing]
  apply and_iff_left_of_imp
  intro hComplete job hDigest hSource hKind hThere hPull
  have hOpen : job.loopPlan.isComplete file.relativePath = false := (job.mem_filesToPull.mp hPull).2.2.2
  have hSame : job.loopPlan.isComplete file.relativePath =
      (DestinationGroups.index listing).isComplete (file.group digest).text := by
    rw [group, ← hDigest, ← hSource, ← hKind, ← hThere]
    rfl
  rw [← hSame, hOpen] at hComplete
  cases hComplete

def sheetsOfBudget (sheets : List Text) (hNonempty : sheets ≠ []) (hFew : sheets.length < 2 ^ 64) : SourceFile :=
  { budget with workbook := ⟨sheets, hNonempty, hFew⟩ }

def twoSheets : SourceFile := sheetsOfBudget ["Jan".toList, "Feb".toList] (by decide) (by decide)

def threeSheets : SourceFile := sheetsOfBudget ["Jan".toList, "Feb".toList, "Mar".toList] (by decide) (by decide)

theorem rerun_skips_iff_three_sheets :
    ((DestinationGroups.index (threeSheets.outputs budgetDigests)).isComplete
          (threeSheets.group budgetDigests).text = true ∧
        ∀ job : TransformJob, job.digest = budgetDigests → job.plan.sourcePath = threeSheets.sourcePath →
          job.plan.inputFileType = threeSheets.kind →
            job.existingDestinationFilenames = threeSheets.outputs budgetDigests →
              threeSheets.relativePath ∉ job.filesToPull) ↔
      threeSheets.HasPlain budgetDigests [] ∨ threeSheets.TotalsAgree budgetDigests [] :=
  rerun_skips_iff ⟨rfl, by decide, by decide⟩ fun name => by simp

/-- The run after a sheet has been added to a workbook. -/
def budgetJob : TransformJob where
  plan := ⟨budget.sourcePath, "/work".toList, .xlsx, 8, by decide⟩
  concurrency := 1
  digest := budgetDigests
  localFold := List.map Char.toLower
  existingDestinationFilenames := twoSheets.outputs budgetDigests ++ threeSheets.outputs budgetDigests
  alreadyOnDisk := []
  sourceRelativePaths := [budget.relativePath]
  slotPull := fun _ _ => .error "rclone copy exited with status 1".toList
  isFile := fun _ => false

/-- The members of the two-sheet workbook stay, and the three-sheet workbook is pulled again on every run. -/
theorem added_sheet_pulled_again :
    threeSheets.HasMembers ∧ threeSheets.outputs budgetDigests ⊆ budgetJob.existingDestinationFilenames ∧
      (DestinationGroups.index budgetJob.existingDestinationFilenames).isComplete
        (threeSheets.group budgetDigests).text = false ∧
        threeSheets.relativePath ∈ budgetJob.filesToPull := by
  refine ⟨⟨rfl, by decide, by decide⟩, List.subset_append_right _ _, by decide +kernel, by decide +kernel⟩

end SourceFile

end Pigeon.Transform
