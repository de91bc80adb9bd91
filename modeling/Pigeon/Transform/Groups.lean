import Pigeon.Transform.Placement

/-! # A group is complete exactly when all its members are there

The beginning of a name that is a given group key is found at one place only, so what the index knows of
the group are the remainders of the names behind it, whatever else the names look like.
-/
namespace Pigeon.Transform

open Library
open Pigeon.Core (sheetSlug)

set_option autoImplicit false

/-! ## The candidates of a stem -/

/-- The digest ends the group: nothing follows it, or a separator. -/
def EndsGroup (remainder : Text) : Prop := remainder = [] ∨ remainder.head? = some '-'

theorem eq_append_digest_iff {s digest remainder : Text} (hDigest : IsDigest digest) :
    s = digest ++ remainder ↔ s.take nameHashHexLen = digest ∧ s.drop nameHashHexLen = remainder := by
  constructor
  · rintro rfl
    rw [← hDigest.1]
    exact ⟨List.take_left, List.drop_left⟩
  · rintro ⟨rfl, rfl⟩
    exact (List.take_append_drop _ s).symm

theorem nameHashHexLen_le {lead digest remainder : Text} (hDigest : IsDigest digest) :
    nameHashHexLen ≤ Text.byteLength (lead ++ (digest ++ remainder)) := by
  refine Nat.le_trans ?_ (Text.length_le_byteLength _)
  rw [List.length_append, List.length_append, hDigest.1]
  omega

theorem mem_candidateGroupsFrom {before s group remainder : Text} :
    (group, remainder) ∈ candidateGroupsFrom before s ↔ ∃ lead digest,
      s = lead ++ '-' :: (digest ++ remainder) ∧ IsDigest digest ∧ EndsGroup remainder ∧
        group = before ++ (lead ++ '-' :: digest) := by
  induction s generalizing before with
  | nil =>
    constructor
    · intro h
      cases h
    · rintro ⟨lead, digest, hSplit, -⟩
      simp at hSplit
  | cons c rest ih =>
    have hCases : (∃ lead digest, c :: rest = lead ++ '-' :: (digest ++ remainder) ∧ IsDigest digest ∧
          EndsGroup remainder ∧ group = before ++ (lead ++ '-' :: digest)) ↔
        (c = '-' ∧ ∃ digest, rest = digest ++ remainder ∧ IsDigest digest ∧ EndsGroup remainder ∧
          group = before ++ c :: digest) ∨
        (group, remainder) ∈ candidateGroupsFrom (before ++ [c]) rest := by
      rw [ih]
      constructor
      · rintro ⟨lead, digest, hSplit, hDigest, hEnds, rfl⟩
        cases lead with
        | nil =>
          obtain ⟨rfl, rfl⟩ := List.cons.inj hSplit
          exact .inl ⟨rfl, digest, rfl, hDigest, hEnds, rfl⟩
        | cons first lead =>
          obtain ⟨rfl, rfl⟩ := List.cons.inj hSplit
          exact .inr ⟨lead, digest, rfl, hDigest, hEnds, by simp⟩
      · rintro (⟨rfl, digest, rfl, hDigest, hEnds, rfl⟩ | ⟨lead, digest, rfl, hDigest, hEnds, rfl⟩)
        · exact ⟨[], digest, rfl, hDigest, hEnds, rfl⟩
        · exact ⟨c :: lead, digest, rfl, hDigest, hEnds, by simp⟩
    rw [hCases, candidateGroupsFrom]
    split
    · rename_i hDash
      split
      · rename_i hShort
        rw [iff_false_intro List.not_mem_nil, false_iff, ih]
        rintro (⟨-, digest, rfl, hDigest, -⟩ | ⟨lead, digest, rfl, hDigest, -⟩)
        · have hLong : nameHashHexLen ≤ Text.byteLength ([] ++ (digest ++ remainder)) := nameHashHexLen_le hDigest
          exact hLong.not_gt hShort
        · rw [List.append_cons] at hShort
          exact (nameHashHexLen_le hDigest).not_gt hShort
      · dsimp only
        split
        · rename_i hShape
          rw [List.mem_cons, Prod.mk.injEq]
          refine or_congr_left ⟨?_, ?_⟩
          · rintro ⟨rfl, rfl⟩
            exact ⟨hDash, _, (List.take_append_drop _ rest).symm, hShape.1, hShape.2, rfl⟩
          · rintro ⟨-, digest, hRest, hDigest, -, rfl⟩
            obtain ⟨rfl, rfl⟩ := (eq_append_digest_iff hDigest).mp hRest
            exact ⟨rfl, rfl⟩
        · rename_i hShape
          refine (or_iff_right ?_).symm
          rintro ⟨-, digest, hRest, hDigest, hEnds, -⟩
          obtain ⟨rfl, rfl⟩ := (eq_append_digest_iff hDigest).mp hRest
          exact hShape ⟨hDigest, hEnds⟩
    · rename_i hDash
      rw [or_iff_right fun hHere => hDash hHere.1]

theorem mem_candidateGroups {group : GroupKey} {stem remainder : Text} :
    (group.text, remainder) ∈ candidateGroups stem ↔ stem = group.text ++ remainder ∧ EndsGroup remainder := by
  rw [candidateGroups, mem_candidateGroupsFrom]
  constructor
  · rintro ⟨lead, digest, rfl, -, hEnds, hGroup⟩
    rw [hGroup]
    exact ⟨by simp, hEnds⟩
  · rintro ⟨rfl, hEnds⟩
    exact ⟨group.stem, group.digest.val, by simp [GroupKey.text], group.digest.property, hEnds, rfl⟩

namespace DestinationGroups

def remainders (group : Text) (names : List Text) : List Text :=
  (names.flatMap fun name => (candidateGroups (nameStem name)).filter fun candidate => candidate.1 = group).map
    Prod.snd

theorem mem_remainders {group remainder : Text} {names : List Text} :
    remainder ∈ remainders group names ↔ ∃ name ∈ names, (group, remainder) ∈ candidateGroups (nameStem name) := by
  simp only [remainders, List.mem_map, List.mem_flatMap, List.mem_filter, decide_eq_true_eq]
  constructor
  · rintro ⟨⟨_, _⟩, ⟨name, hName, hMem, rfl⟩, rfl⟩
    exact ⟨name, hName, hMem⟩
  · rintro ⟨name, hName, hMem⟩
    exact ⟨(group, remainder), ⟨name, hName, hMem, rfl⟩, rfl⟩

theorem foldl_register (candidates : List (Text × Text)) (groups : DestinationGroups) (group : Text) :
    candidates.foldl register groups group =
      ((candidates.filter fun candidate => candidate.1 = group).map Prod.snd).foldl
        (fun state remainder => some ((state.getD {}).record remainder)) (groups group) := by
  induction candidates generalizing groups with
  | nil => rfl
  | cons candidate candidates ih =>
    rw [List.foldl_cons, ih, List.filter_cons]
    by_cases hGroup : candidate.1 = group
    · subst hGroup
      rw [register, Function.update_self, if_pos (decide_eq_true rfl), List.map_cons, List.foldl_cons]
    · rw [register, Function.update_of_ne (Ne.symm hGroup), if_neg (by simpa using hGroup)]

theorem index_eq (names : List Text) (group : Text) :
    index names group = (remainders group names).foldl
      (fun state remainder => some ((state.getD {}).record remainder)) none := by
  have hFold : index names = (names.flatMap fun name => candidateGroups (nameStem name)).foldl register fun _ => none := by
    rw [index, List.foldl_flatMap]
  rw [hFold, foldl_register, remainders, List.filter_flatMap]

theorem foldl_some (remainders : List Text) (state : GroupState) :
    remainders.foldl (fun state remainder => some ((state.getD {}).record remainder)) (some state) =
      some (remainders.foldl GroupState.record state) := by
  induction remainders generalizing state with
  | nil => rfl
  | cons remainder remainders ih => exact ih _

theorem index_cons {names : List Text} {group remainder : Text} {rest : List Text}
    (h : remainders group names = remainder :: rest) :
    index names group = some ((remainder :: rest).foldl GroupState.record {}) := by
  rw [index_eq, h]
  exact foldl_some rest _

theorem plain_foldl_record (remainders : List Text) (state : GroupState) (h : [] ∈ remainders) :
    (remainders.foldl GroupState.record state).plain = true := by
  have hKept (remainders : List Text) (state : GroupState) (hPlain : state.plain = true) :
      (remainders.foldl GroupState.record state).plain = true := by
    induction remainders generalizing state with
    | nil => exact hPlain
    | cons remainder remainders ih =>
      apply ih
      rw [GroupState.record]
      split
      · rfl
      · split <;> exact hPlain
  induction remainders generalizing state with
  | nil => cases h
  | cons remainder remainders ih =>
    obtain rfl | hRest := List.mem_cons.mp h
    · exact hKept remainders _ rfl
    · exact ih _ hRest

def markedIndex (remainder : Text) : Nat := ((parseSheetMarker remainder).map Prod.fst).getD 0

theorem foldl_record_of_agree {total : Nat} {remainders : List Text}
    (hMarked : ∀ remainder ∈ remainders,
      remainder ≠ [] ∧ parseSheetMarker remainder = some (markedIndex remainder, total))
    (members : Finset Nat) (declaredTotal : Option Nat) (hDeclared : declaredTotal = none ∨ declaredTotal = some total) :
    remainders.foldl GroupState.record { members, declaredTotal } =
      { members := members ∪ (remainders.map markedIndex).toFinset
        declaredTotal := if remainders = [] then declaredTotal else some total } := by
  induction remainders generalizing members declaredTotal with
  | nil => simp
  | cons remainder remainders ih =>
    obtain ⟨hNonempty, hParse⟩ := hMarked remainder List.mem_cons_self
    have hRecord : GroupState.record { members, declaredTotal } remainder =
        { members := insert (markedIndex remainder) members, declaredTotal := some total } := by
      rw [GroupState.record, if_neg hNonempty, hParse]
      obtain rfl | rfl := hDeclared
      · rfl
      · simp
    rw [List.foldl_cons, hRecord, ih (fun other hOther => hMarked other (List.mem_cons_of_mem _ hOther)) _ _ (.inr rfl)]
    have hTotal : (if remainders = [] then some total else some total) = some total := ite_self _
    rw [hTotal, if_neg (List.cons_ne_nil _ _), List.map_cons, List.toFinset_cons, Finset.insert_union,
      Finset.union_insert]

end DestinationGroups

/-! ## The names of the members -/

theorem not_mem_sheetMarker {c : Char} (hDigit : c.isDigit = false) (hLetters : c ∉ "of".toList) (index total : Nat) :
    c ∉ sheetMarker index total := by
  rw [sheetMarker, List.mem_append, List.mem_append]
  rintro ((hMem | hMem) | hMem)
  · exact Text.not_mem_showPadded hDigit 2 index hMem
  · exact hLetters hMem
  · exact Text.not_mem_showPadded hDigit 2 total hMem

theorem parse_sheetMarker {index total : Nat} (hIndex : 0 < index) (hLe : index ≤ total) (hTotal : total < 2 ^ 64)
    (slug : Text) : parseSheetMarker ('-' :: sheetMarker index total ++ '-' :: slug) = some (index, total) := by
  have hMarker : Text.splitOnce ['-'] (sheetMarker index total ++ '-' :: slug) = some (sheetMarker index total, slug) :=
    Text.splitOnce_append (not_mem_sheetMarker (by decide) (by decide) index total) slug
  have hOf : Text.splitOnce "of".toList (sheetMarker index total) =
      some (Text.showPadded 2 index, Text.showPadded 2 total) := by
    rw [sheetMarker, List.append_assoc]
    exact Text.splitOnce_append (Text.not_mem_showPadded (by decide) 2 index) _
  have hDigits (n : Nat) : (Text.showPadded 2 n).all Char.isDigit = true :=
    List.all_eq_true.mpr fun c => Text.isDigit_of_mem_showPadded
  simp only [List.cons_append, parseSheetMarker, hMarker, hOf, hDigits, Text.showPadded_ne_nil, or_self, if_false,
    Bool.not_true, Text.parseUsize_showPadded hTotal,
    Text.parseUsize_showPadded (hLe.trans_lt hTotal)]
  have hRange : ¬ (index = 0 ∨ total = 0 ∨ total < index) := by omega
  exact if_neg hRange

theorem dot_not_mem_outputExtension (kind : InputFileType) : '.' ∉ kind.outputExtension := by
  cases kind <;> decide

theorem nameStem_append (stem : Text) (kind : InputFileType) :
    DestinationGroups.nameStem (stem ++ '.' :: kind.outputExtension) = stem := by
  rw [DestinationGroups.nameStem, Text.rsplitOnce_append stem (dot_not_mem_outputExtension kind)]

def memberRemainder (total : Nat) (entry : Text × Nat) : Text :=
  '-' :: sheetMarker (entry.2 + 1) total ++ '-' :: sheetSlug entry.1

namespace Workbook

variable {workbook : Workbook} {kind : InputFileType} {group : GroupKey}

def entries (workbook : Workbook) : List (Text × Nat) := workbook.sheets.zipIdx

theorem lt_of_mem_entries {entry : Text × Nat} (h : entry ∈ workbook.entries) : entry.2 < workbook.sheets.length := by
  have hBound := List.snd_lt_of_mem_zipIdx h
  omega

theorem nodup_entries (workbook : Workbook) : workbook.entries.Nodup := by
  apply List.Nodup.of_map Prod.snd
  rw [entries, List.zipIdx_map_snd]
  exact List.nodup_range'

theorem eq_of_mem_entries {entry other : Text × Nat} (hEntry : entry ∈ workbook.entries)
    (hOther : other ∈ workbook.entries) (hSame : entry.2 = other.2) : entry = other := by
  have hFirst := List.mem_zipIdx_iff_getElem?.mp hEntry
  have hSecond := List.mem_zipIdx_iff_getElem?.mp hOther
  rw [hSame, hSecond] at hFirst
  exact Prod.ext (Option.some.inj hFirst).symm hSame

theorem parse_memberRemainder {entry : Text × Nat} (h : entry ∈ workbook.entries) :
    parseSheetMarker (memberRemainder workbook.sheets.length entry) = some (entry.2 + 1, workbook.sheets.length) :=
  parse_sheetMarker (Nat.succ_pos _) (lt_of_mem_entries h) workbook.length_lt _

theorem convertSpreadsheet_single (h : kind = .csv ∨ workbook.sheets.length = 1) (single : Text) :
    convertSpreadsheet kind group.text single workbook = [single] := by
  rw [convertSpreadsheet]
  split
  · rfl
  · rename_i hKind
    have hOne := h.resolve_left hKind
    obtain ⟨sheet, hSheet⟩ := List.length_eq_one_iff.mp hOne
    rw [hSheet]
    rfl

theorem convertSpreadsheet_members (hKind : kind ≠ .csv) (hMany : workbook.sheets.length ≠ 1) (single : Text) :
    convertSpreadsheet kind group.text single workbook = workbook.entries.map fun entry =>
      group.text ++ memberRemainder workbook.sheets.length entry ++ '.' :: kind.outputExtension := by
  rw [convertSpreadsheet, if_neg hKind]
  apply List.map_congr_left
  intro entry _
  rw [if_neg hMany]
  rfl

end Workbook

namespace DestinationGroups

variable {group : GroupKey} {listing : List Text}

/-- No candidate of the name is this group. -/
def Foreign (group : GroupKey) (name : Text) : Prop :=
  ∀ remainder, (group.text, remainder) ∉ candidateGroups (nameStem name)

theorem not_complete_of_nil (h : remainders group.text listing = []) :
    (index listing).isComplete group.text = false := by
  rw [isComplete, index_eq, h]
  rfl

theorem complete_single_iff (kind : InputFileType)
    (hListing : ∀ name ∈ listing, name = group.text ++ '.' :: kind.outputExtension ∨ Foreign group name) :
    (index listing).isComplete group.text = true ↔ group.text ++ '.' :: kind.outputExtension ∈ listing := by
  have hMem {remainder : Text} (hRemainder : remainder ∈ remainders group.text listing) :
      remainder = [] ∧ group.text ++ '.' :: kind.outputExtension ∈ listing := by
    obtain ⟨name, hName, hCandidate⟩ := mem_remainders.mp hRemainder
    obtain rfl | hForeign := hListing name hName
    · rw [nameStem_append, mem_candidateGroups] at hCandidate
      exact ⟨List.self_eq_append_right.mp hCandidate.1, hName⟩
    · exact absurd hCandidate (hForeign remainder)
  constructor
  · intro hComplete
    cases hRemainders : remainders group.text listing with
    | nil =>
      rw [not_complete_of_nil hRemainders] at hComplete
      cases hComplete
    | cons remainder rest => exact (hMem (by rw [hRemainders]; exact List.mem_cons_self)).2
  · intro hThere
    have hNil : [] ∈ remainders group.text listing := by
      refine mem_remainders.mpr ⟨_, hThere, ?_⟩
      rw [nameStem_append, mem_candidateGroups]
      exact ⟨(List.append_nil _).symm, .inl rfl⟩
    cases hRemainders : remainders group.text listing with
    | nil =>
      rw [hRemainders] at hNil
      cases hNil
    | cons remainder rest =>
      rw [isComplete, index_cons hRemainders]
      dsimp only
      rw [plain_foldl_record _ _ (hRemainders ▸ hNil), Bool.true_or]

section Members

variable {workbook : Workbook}

theorem markedIndex_memberRemainder {entry : Text × Nat} (hEntry : entry ∈ workbook.entries) :
    markedIndex (memberRemainder workbook.sheets.length entry) = entry.2 + 1 := by
  rw [markedIndex, Workbook.parse_memberRemainder hEntry]
  rfl

theorem card_markedIndex_iff {there : Text × Nat → Prop} {found : List Text}
    (hFound : ∀ remainder, remainder ∈ found ↔ ∃ entry ∈ workbook.entries,
      there entry ∧ remainder = memberRemainder workbook.sheets.length entry) :
    (found.map markedIndex).toFinset.card = workbook.sheets.length ↔ ∀ entry ∈ workbook.entries, there entry := by
  have hSubset : (found.map markedIndex).toFinset ⊆ Finset.Icc 1 workbook.sheets.length := by
    intro number hNumber
    obtain ⟨remainder, hRemainder, rfl⟩ := List.mem_map.mp (List.mem_toFinset.mp hNumber)
    obtain ⟨entry, hEntry, -, rfl⟩ := (hFound remainder).mp hRemainder
    have hBound := Workbook.lt_of_mem_entries hEntry
    rw [markedIndex_memberRemainder hEntry, Finset.mem_Icc]
    omega
  constructor
  · intro hCard entry hEntry
    have hAll := Finset.eq_of_subset_of_card_le hSubset (by rw [hCard, Nat.card_Icc, Nat.add_sub_cancel])
    have hNumber : entry.2 + 1 ∈ (found.map markedIndex).toFinset := by
      have hBound := Workbook.lt_of_mem_entries hEntry
      rw [hAll, Finset.mem_Icc]
      omega
    obtain ⟨remainder, hRemainder, hSame⟩ := List.mem_map.mp (List.mem_toFinset.mp hNumber)
    obtain ⟨other, hOther, hThere, rfl⟩ := (hFound remainder).mp hRemainder
    rw [markedIndex_memberRemainder hOther] at hSame
    rw [Workbook.eq_of_mem_entries hEntry hOther (by omega)]
    exact hThere
  · intro hAll
    have hFull : (found.map markedIndex).toFinset = Finset.Icc 1 workbook.sheets.length := by
      apply hSubset.antisymm
      intro number hNumber
      obtain ⟨hPos, hLe⟩ := Finset.mem_Icc.mp hNumber
      obtain ⟨position, rfl⟩ : ∃ position, number = position + 1 := ⟨number - 1, by omega⟩
      have hEntry : (workbook.sheets[position], position) ∈ workbook.entries :=
        List.mem_zipIdx_iff_getElem?.mpr (List.getElem?_eq_getElem _)
      rw [List.mem_toFinset, ← markedIndex_memberRemainder hEntry]
      exact List.mem_map_of_mem ((hFound _).mpr ⟨_, hEntry, hAll _ hEntry, rfl⟩)
    rw [hFull, Nat.card_Icc, Nat.add_sub_cancel]

variable {nameOf : Text × Nat → Text}

theorem mem_remainders_members
    (hStem : ∀ entry, nameStem (nameOf entry) = group.text ++ memberRemainder workbook.sheets.length entry)
    (hListing : ∀ name ∈ listing, (∃ entry ∈ workbook.entries, name = nameOf entry) ∨ Foreign group name)
    (remainder : Text) :
    remainder ∈ remainders group.text listing ↔ ∃ entry ∈ workbook.entries,
      nameOf entry ∈ listing ∧ remainder = memberRemainder workbook.sheets.length entry := by
  rw [mem_remainders]
  constructor
  · rintro ⟨name, hName, hCandidate⟩
    obtain ⟨entry, hEntry, rfl⟩ | hForeign := hListing name hName
    · rw [hStem, mem_candidateGroups] at hCandidate
      exact ⟨entry, hEntry, hName, (List.append_cancel_left hCandidate.1).symm⟩
    · exact absurd hCandidate (hForeign remainder)
  · rintro ⟨entry, hEntry, hName, rfl⟩
    refine ⟨nameOf entry, hName, ?_⟩
    rw [hStem, mem_candidateGroups]
    exact ⟨rfl, .inr rfl⟩

theorem complete_members_iff
    (hStem : ∀ entry, nameStem (nameOf entry) = group.text ++ memberRemainder workbook.sheets.length entry)
    (hListing : ∀ name ∈ listing, name ∈ workbook.entries.map nameOf ∨ Foreign group name) :
    (index listing).isComplete group.text = true ↔ ∀ name ∈ workbook.entries.map nameOf, name ∈ listing := by
  have hMember : ∀ name ∈ listing, (∃ entry ∈ workbook.entries, name = nameOf entry) ∨ Foreign group name := by
    intro name hName
    refine (hListing name hName).imp_left fun hMap => ?_
    obtain ⟨entry, hEntry, hSame⟩ := List.mem_map.mp hMap
    exact ⟨entry, hEntry, hSame.symm⟩
  have hFound := mem_remainders_members hStem hMember
  rw [List.forall_mem_map, ← card_markedIndex_iff hFound]
  cases hRemainders : remainders group.text listing with
  | nil =>
    rw [not_complete_of_nil hRemainders]
    have hPositive := List.length_pos_of_ne_nil workbook.nonempty
    constructor
    · intro hComplete
      cases hComplete
    · intro hCard
      rw [List.map_nil, List.toFinset_nil, Finset.card_empty] at hCard
      omega
  | cons remainder rest =>
    have hMarked : ∀ remainder ∈ remainders group.text listing,
        remainder ≠ [] ∧ parseSheetMarker remainder = some (markedIndex remainder, workbook.sheets.length) := by
      intro remainder hRemainder
      obtain ⟨entry, hEntry, -, rfl⟩ := (hFound remainder).mp hRemainder
      rw [markedIndex_memberRemainder hEntry]
      exact ⟨List.cons_ne_nil _ _, Workbook.parse_memberRemainder hEntry⟩
    rw [hRemainders] at hMarked
    rw [isComplete, index_cons hRemainders, foldl_record_of_agree hMarked ∅ none (.inl rfl),
      if_neg (List.cons_ne_nil _ _)]
    dsimp only
    rw [Bool.false_or, Bool.not_false, Bool.true_and, beq_iff_eq, Option.some.injEq, Finset.empty_union]
    exact eq_comm

theorem nodup_members (hStem : ∀ entry, nameStem (nameOf entry) = group.text ++ memberRemainder workbook.sheets.length entry) :
    (workbook.entries.map nameOf).Nodup := by
  refine List.Nodup.map_on (fun entry hEntry other hOther hSame => ?_) workbook.nodup_entries
  have hStems := congrArg nameStem hSame
  rw [hStem, hStem, List.append_cancel_left_eq] at hStems
  have hParse := Workbook.parse_memberRemainder hEntry
  rw [hStems, Workbook.parse_memberRemainder hOther] at hParse
  exact Workbook.eq_of_mem_entries hEntry hOther (Nat.succ.inj (Prod.mk.inj (Option.some.inj hParse)).1).symm

end Members

end DestinationGroups

/-- The names of one input are apart, and a listing with some of them, among names that have nothing to do
with the group, says that the group is complete when it has all of them. -/
theorem complete_iff_all_present (group : GroupKey) (workbook : Workbook) (kind : InputFileType) :
    (convertSpreadsheet kind group.text (group.text ++ '.' :: kind.outputExtension) workbook).Nodup ∧
      ∀ listing : List Text,
        (∀ name ∈ listing,
          name ∈ convertSpreadsheet kind group.text (group.text ++ '.' :: kind.outputExtension) workbook ∨
            DestinationGroups.Foreign group name) →
        ((DestinationGroups.index listing).isComplete group.text = true ↔
          ∀ name ∈ convertSpreadsheet kind group.text (group.text ++ '.' :: kind.outputExtension) workbook,
            name ∈ listing) := by
  by_cases hSingle : kind = .csv ∨ workbook.sheets.length = 1
  · rw [Workbook.convertSpreadsheet_single hSingle]
    simp only [List.mem_singleton, forall_eq]
    exact ⟨List.nodup_singleton _, fun listing => DestinationGroups.complete_single_iff kind⟩
  · obtain ⟨hKind, hMany⟩ := not_or.mp hSingle
    rw [Workbook.convertSpreadsheet_members hKind hMany]
    have hStem (entry : Text × Nat) := nameStem_append
      (group.text ++ memberRemainder workbook.sheets.length entry) kind
    constructor
    · exact DestinationGroups.nodup_members hStem
    · intro listing hListing
      exact DestinationGroups.complete_members_iff hStem hListing

end Pigeon.Transform
