import Pigeon.Library.Runs
import Pigeon.Transform.Process

/-! # A stop at any point loses no output

What carries the group of an input in the two folders are outputs of the input with their bytes. That
holds over every run, stops and failed pushes included, while other tasks keep away from names that carry
the group, and it decides what the names say, when the source goes, and how a rerun ends.
-/
namespace Pigeon.Transform

open Library
open Pigeon.Gate (GateDecision)

set_option autoImplicit false

namespace SourceFile

variable {digest : Text → Digest} {file : SourceFile}

theorem exists_mem_entries (file : SourceFile) : ∃ entry, entry ∈ file.workbook.entries := by
  obtain ⟨sheet, hSheet⟩ := List.exists_mem_of_ne_nil _ file.workbook.nonempty
  obtain ⟨position, hPosition⟩ := List.mem_iff_getElem?.mp hSheet
  exact ⟨(sheet, position), List.mem_zipIdx_iff_getElem?.mpr hPosition⟩

theorem outputs_ne_nil : file.outputs digest ≠ [] := by
  by_cases hMembers : file.HasMembers
  · obtain ⟨entry, hEntry⟩ := file.exists_mem_entries
    rw [outputs_members hMembers]
    exact List.ne_nil_of_mem (List.mem_map_of_mem hEntry)
  · rw [outputs_single hMembers]
    exact List.cons_ne_nil _ _

theorem not_foreign_of_mem_outputs {name : Text} (h : name ∈ file.outputs digest) :
    ¬ DestinationGroups.Foreign (file.group digest) name := by
  intro hForeign
  by_cases hMembers : file.HasMembers
  · rw [outputs_members hMembers] at h
    obtain ⟨entry, -, rfl⟩ := List.mem_map.mp h
    apply hForeign (memberRemainder file.workbook.sheets.length entry)
    rw [nameStem_append, mem_candidateGroups]
    exact ⟨rfl, .inr rfl⟩
  · rw [outputs_single hMembers, List.mem_singleton] at h
    subst h
    apply hForeign []
    rw [nameStem_append, mem_candidateGroups]
    exact ⟨(List.append_nil _).symm, .inl rfl⟩

theorem belongs_of_mem_outputs {name : Text} (h : name ∈ file.outputs digest) :
    Belongs (file.group digest).text name := by
  by_cases hMembers : file.HasMembers
  · rw [outputs_members hMembers] at h
    obtain ⟨entry, -, rfl⟩ := List.mem_map.mp h
    exact ⟨_, List.append_assoc _ _ _, .inr rfl⟩
  · rw [outputs_single hMembers, List.mem_singleton] at h
    exact ⟨_, h, .inl rfl⟩

theorem nodup_outputs : (file.outputs digest).Nodup := by
  by_cases hMembers : file.HasMembers
  · rw [outputs_members hMembers]
    exact DestinationGroups.nodup_members fun entry => nameStem_append _ file.kind
  · rw [outputs_single hMembers]
    exact List.nodup_singleton _

theorem complete_iff_outputs {listing : List Text}
    (hListing : ∀ name ∈ listing, name ∈ file.outputs digest ∨ DestinationGroups.Foreign (file.group digest) name) :
    (DestinationGroups.index listing).isComplete (file.group digest).text = true ↔
      ∀ name ∈ file.outputs digest, name ∈ listing := by
  by_cases hMembers : file.HasMembers
  · rw [outputs_members hMembers] at hListing ⊢
    exact DestinationGroups.complete_members_iff (fun entry => nameStem_append _ file.kind) hListing
  · rw [outputs_single hMembers] at hListing ⊢
    simp only [List.mem_singleton, forall_eq] at hListing ⊢
    exact DestinationGroups.complete_single_iff file.kind hListing

end SourceFile

namespace Input

variable {β : Type*} {input : Input β} {s t : Attempt β} {event : ProcessEvent β}

/-! ## What a step can do -/

inductive Moves (input : Input β) (s : Attempt β) : ProcessEvent β → Attempt β → Prop where
  | stopped : Moves input s .stopped { s with phase := .idle }
  | elsewhere (result destination : Folder β) :
      Moves input s (.elsewhere result destination) { s with result, destination }
  | pulled (hPhase : s.phase = .idle) : Moves input s .pulled { s with source := true }
  | begin (hPhase : s.phase = .idle) : Moves input s .begin { s with phase := input.begin s.result.names }
  | prepared (hPhase : s.phase = .preparing) : Moves input s (.prepared none) { s with phase := .converting }
  | unprepared (err : Text) (hPhase : s.phase = .preparing) :
      Moves input s (.prepared (some err)) { s with phase := .ended (.error (.transcode, err)) }
  | converted (hPhase : s.phase = .converting) : Moves input s .converted { s with phase := input.afterConversion }
  | misdirected (gone : Bool) (err : Text) (hPhase : s.phase = .misdirected err) :
      Moves input s (.removed gone)
        { s with phase := .ended (.error (.transcode, err)), source := s.source && !gone }
  | skipped (gone : Bool) (signals : Text) (hPhase : s.phase = .skipping signals) :
      Moves input s (.removed gone)
        { s with phase := .ended (.ok (.skippedEmailShaped signals)), source := s.source && !gone }
  | placed (scratch : Text → β) (name : Text) (todo before : List Text)
      (hPhase : s.phase = .placing scratch (name :: todo) before) :
      Moves input s (.placed none) (input.place s scratch name todo before)
  | unplaced (err : Text) : Moves input s (.placed (some err)) { s with phase := .ended (.error (.place, err)) }
  | pushed (name : Text) (todo finalPaths : List Text) (content : β)
      (hPhase : s.phase = .pushing (name :: todo) finalPaths) (hContent : s.result.lookup name = some content) :
      Moves input s .pushed
        { s with phase := .pushed name todo finalPaths, destination := s.destination.put name content }
  | pushFailed (landed : Bool) (err : Text) (decision : GateDecision) (phase : Phase β) (destination : Folder β)
      (name : Text) (todo finalPaths : List Text) (hBefore : s.phase = .pushing todo finalPaths)
      (hPhase : phase = .pushing todo finalPaths ∨ phase = .ended (.error (.push, err)))
      (hDestination : destination = s.destination ∨ destination = s.uploaded name) :
      Moves input s (.pushFailed landed err decision) { s with phase, destination }
  | cleared (gone : Bool) (name : Text) (todo finalPaths : List Text)
      (hPhase : s.phase = .pushed name todo finalPaths) :
      Moves input s (.removed gone)
        { s with
          phase := pushFrom todo finalPaths
          result := if gone then s.result.remove name else s.result }
  | finished (gone : Bool) (finalPaths : List Text) (hPhase : s.phase = .finishing finalPaths) :
      Moves input s (.removed gone)
        { s with phase := .ended (.ok (.pushed finalPaths)), source := s.source && !gone }

theorem step_moves (h : input.step s event = some t) : Moves input s event t := by
  rw [step.eq_def] at h
  split at h
  · exact Option.some.inj h ▸ .stopped
  · exact Option.some.inj h ▸ .elsewhere _ _
  · exact Option.some.inj h ▸ .pulled ‹_›
  · split_ifs at h
    exact Option.some.inj h ▸ .begin ‹_›
  · exact Option.some.inj h ▸ .prepared ‹_›
  · exact Option.some.inj h ▸ .unprepared _ ‹_›
  · exact Option.some.inj h ▸ .converted ‹_›
  · exact Option.some.inj h ▸ .misdirected _ _ ‹_›
  · exact Option.some.inj h ▸ .skipped _ _ ‹_›
  · exact Option.some.inj h ▸ .placed _ _ _ _ ‹_›
  · exact Option.some.inj h ▸ .unplaced _
  · obtain ⟨content, hContent, rfl⟩ := Option.map_eq_some_iff.mp h
    exact .pushed _ _ _ content ‹_› hContent
  · rename_i landed err decision name todo finalPaths hPhase
    have hDestination : (if landed then s.uploaded name else s.destination) = s.destination ∨
        (if landed then s.uploaded name else s.destination) = s.uploaded name := by
      cases landed
      · exact .inl rfl
      · exact .inr rfl
    dsimp only at h
    generalize (if landed then s.uploaded name else s.destination) = destination at h hDestination
    split_ifs at h
    · exact Option.some.inj h ▸ .pushFailed landed err decision _ _ name _ _ hPhase (.inl rfl) hDestination
    · exact Option.some.inj h ▸ .pushFailed landed err decision _ _ name _ _ hPhase (.inr rfl) hDestination
  · exact Option.some.inj h ▸ .cleared _ _ _ _ ‹_›
  · exact Option.some.inj h ▸ .finished _ _ ‹_›
  · cases h

/-! ## What holds over a run -/

def AllThere (input : Input β) (destination : Folder β) : Prop :=
  ∃ content, input.converted = .ok content ∧ ∀ name ∈ input.outputs, destination.lookup name = some (content name)

/-- What carries the group is an output with its bytes. -/
def OwnOnly (input : Input β) (folder : Folder β) : Prop :=
  ∀ name found, ¬ DestinationGroups.Foreign input.group name → folder.lookup name = some found →
    ∃ content, input.converted = .ok content ∧ name ∈ input.outputs ∧ found = content name

/-- The local copy of the source has served its purpose. -/
def SourceSpent (input : Input β) (destination : Folder β) : Prop :=
  input.AllThere destination ∨ input.emailShape.isSome = true ∨
    ∃ err, input.converted = .error err ∧ isWrongInputKindError err = true

/-- Each output is at the destination, or still to be pushed and in the result directory. -/
def Remaining (input : Input β) (todo : List Text) (result destination : Folder β) : Prop :=
  ∃ content, input.converted = .ok content ∧ ∀ name ∈ input.outputs,
    destination.lookup name = some (content name) ∨ name ∈ todo ∧ result.lookup name = some (content name)

/-- `place_one` finds no file under the name of an output that is still to be placed. -/
def Unplaced (input : Input β) (todo : List Text) (result : Folder β) : Prop :=
  input.file.kind.isSpreadsheet = false → ∀ name ∈ input.outputs, name ∈ todo → result.lookup name = none

def PhaseSound (input : Input β) (result destination : Folder β) : Phase β → Prop
  | .idle => True
  | .preparing | .converting => input.Unplaced input.outputs result
  | .misdirected err => input.converted = .error err ∧ isWrongInputKindError err = true
  | .skipping _ => input.emailShape.isSome = true
  | .placing scratch todo placed =>
    input.converted = .ok scratch ∧ input.outputs = placed ++ todo ∧
      (∀ name ∈ input.outputs, name ∈ placed → result.lookup name = some (scratch name)) ∧ input.Unplaced todo result
  | .pushing todo _ => input.Remaining todo result destination
  | .pushed name todo _ => input.Remaining todo result destination ∧
      ∀ content, input.converted = .ok content → name ∈ input.outputs → destination.lookup name = some (content name)
  | .finishing _ => input.AllThere destination
  | .ended (.ok (.pushed _)) => input.AllThere destination
  | .ended (.ok (.skippedEmailShaped _)) => input.emailShape.isSome = true
  | .ended (.error _) => True

structure Sound (input : Input β) (s : Attempt β) : Prop where
  result : input.OwnOnly s.result
  destination : input.OwnOnly s.destination
  source : s.source = false → input.SourceSpent s.destination
  phase : input.PhaseSound s.result s.destination s.phase

/-- Nothing is known of the input yet: its source is there, and no name in the folders carries its group. -/
def Fresh (input : Input β) (s : Attempt β) : Prop :=
  s.phase = .idle ∧ s.source = true ∧ ∀ name, ¬ DestinationGroups.Foreign input.group name →
    s.result.lookup name = none ∧ s.destination.lookup name = none

def KeepsGroup (input : Input β) (before after : Folder β) : Prop :=
  ∀ name, ¬ DestinationGroups.Foreign input.group name → after.lookup name = before.lookup name

/-- Other tasks add and remove only files whose names do not carry the group. -/
def KeepsAway (input : Input β) (s : Attempt β) (event : ProcessEvent β) : Prop :=
  ∀ result destination, event = .elsewhere result destination →
    input.KeepsGroup s.result result ∧ input.KeepsGroup s.destination destination

theorem Fresh.sound (h : input.Fresh s) : input.Sound s where
  result name found hOwn hFound := by
    rw [(h.2.2 name hOwn).1] at hFound
    cases hFound
  destination name found hOwn hFound := by
    rw [(h.2.2 name hOwn).2] at hFound
    cases hFound
  source hGone := by
    rw [h.2.1] at hGone
    cases hGone
  phase := by
    rw [h.1]
    trivial

theorem not_foreign_output {name : Text} (h : name ∈ input.outputs) :
    ¬ DestinationGroups.Foreign input.group name := SourceFile.not_foreign_of_mem_outputs h

namespace OwnOnly

variable {folder : Folder β}

theorem mem_outputs_or_foreign (h : input.OwnOnly folder) {name : Text} (hName : name ∈ folder.names) :
    name ∈ input.outputs ∨ DestinationGroups.Foreign input.group name := by
  apply or_iff_not_imp_right.mpr
  intro hOwn
  obtain ⟨found, hFound⟩ := Folder.mem_names.mp hName
  obtain ⟨-, -, hOutput, -⟩ := h name found hOwn hFound
  exact hOutput

theorem complete_iff (h : input.OwnOnly folder) {listing : List Text} (hListing : listing ⊆ folder.names) :
    (DestinationGroups.index listing).isComplete input.group.text = true ↔ ∀ name ∈ input.outputs, name ∈ listing :=
  SourceFile.complete_iff_outputs fun _ hName => h.mem_outputs_or_foreign (hListing hName)

theorem lookup_output (h : input.OwnOnly folder) {content : Text → β} (hContent : input.converted = .ok content)
    {name : Text} (hOutput : name ∈ input.outputs) (hName : name ∈ folder.names) :
    folder.lookup name = some (content name) := by
  obtain ⟨found, hFound⟩ := Folder.mem_names.mp hName
  obtain ⟨other, hOther, -, rfl⟩ := h name found (not_foreign_output hOutput) hFound
  rw [hContent] at hOther
  obtain rfl := Except.ok.inj hOther
  exact hFound

theorem allThere (h : input.OwnOnly folder) (hAll : ∀ name ∈ input.outputs, name ∈ folder.names) :
    input.AllThere folder := by
  obtain ⟨first, hFirst⟩ : ∃ first, first ∈ input.outputs := List.exists_mem_of_ne_nil _ SourceFile.outputs_ne_nil
  obtain ⟨found, hFound⟩ := Folder.mem_names.mp (hAll first hFirst)
  obtain ⟨content, hContent, -, -⟩ := h first found (not_foreign_output hFirst) hFound
  exact ⟨content, hContent, fun name hName => h.lookup_output hContent hName (hAll name hName)⟩

theorem put (h : input.OwnOnly folder) {name : Text} {bytes : β}
    (hBytes : ¬ DestinationGroups.Foreign input.group name →
      ∃ content, input.converted = .ok content ∧ name ∈ input.outputs ∧ bytes = content name) :
    input.OwnOnly (folder.put name bytes) := by
  intro other found hOwn hFound
  obtain ⟨rfl, rfl⟩ | ⟨-, hBefore⟩ := Folder.lookup_of_put hFound
  · exact hBytes hOwn
  · exact h other found hOwn hBefore

theorem remove (h : input.OwnOnly folder) (name : Text) : input.OwnOnly (folder.remove name) :=
  fun other found hOwn hFound => h other found hOwn (Folder.lookup_of_remove hFound).2

theorem congr {after : Folder β} (h : input.OwnOnly folder) (hKeeps : input.KeepsGroup folder after) :
    input.OwnOnly after := by
  intro name found hOwn hFound
  rw [hKeeps name hOwn] at hFound
  exact h name found hOwn hFound

end OwnOnly

theorem AllThere.spent {destination : Folder β} (h : input.AllThere destination) : input.SourceSpent destination := .inl h

theorem AllThere.congr {before after : Folder β} (h : input.AllThere before) (hKeeps : input.KeepsGroup before after) :
    input.AllThere after := by
  obtain ⟨content, hContent, hAll⟩ := h
  refine ⟨content, hContent, fun name hName => ?_⟩
  rw [hKeeps name (not_foreign_output hName)]
  exact hAll name hName

theorem PhaseSound.congr {result destination result' destination' : Folder β} {phase : Phase β}
    (h : input.PhaseSound result destination phase) (hResult : input.KeepsGroup result result')
    (hDestination : input.KeepsGroup destination destination') : input.PhaseSound result' destination' phase := by
  have hUnplaced {todo : List Text} (hBefore : input.Unplaced todo result) : input.Unplaced todo result' := by
    intro hKind name hName hTodo
    rw [hResult name (not_foreign_output hName)]
    exact hBefore hKind name hName hTodo
  have hRemaining {todo : List Text} (hBefore : input.Remaining todo result destination) :
      input.Remaining todo result' destination' := by
    obtain ⟨content, hContent, hEach⟩ := hBefore
    refine ⟨content, hContent, fun name hName => ?_⟩
    rw [hResult name (not_foreign_output hName), hDestination name (not_foreign_output hName)]
    exact hEach name hName
  cases phase with
  | idle => trivial
  | preparing => exact hUnplaced h
  | converting => exact hUnplaced h
  | misdirected err => exact h
  | skipping signals => exact h
  | placing scratch todo placed =>
    obtain ⟨hContent, hSplit, hPlaced, hTodo⟩ := h
    refine ⟨hContent, hSplit, fun name hName hMem => ?_, hUnplaced hTodo⟩
    rw [hResult name (not_foreign_output hName)]
    exact hPlaced name hName hMem
  | pushing todo finalPaths => exact hRemaining h
  | pushed name todo finalPaths =>
    refine ⟨hRemaining h.1, fun content hContent hName => ?_⟩
    rw [hDestination name (not_foreign_output hName)]
    exact h.2 content hContent hName
  | finishing finalPaths => exact AllThere.congr h hDestination
  | ended result =>
    rcases result with err | ⟨finalPaths | signals⟩
    · trivial
    · exact AllThere.congr h hDestination
    · exact h

theorem Remaining.allThere {todo : List Text} {result destination : Folder β}
    (h : input.Remaining todo result destination) (hTodo : todo = []) : input.AllThere destination := by
  obtain ⟨content, hContent, hEach⟩ := h
  refine ⟨content, hContent, fun name hName => (hEach name hName).resolve_right fun hLeft => ?_⟩
  rw [hTodo] at hLeft
  exact List.not_mem_nil hLeft.1

theorem Remaining.pushFrom {todo : List Text} {result destination : Folder β}
    (h : input.Remaining todo result destination) (finalPaths : List Text) :
    input.PhaseSound result destination (pushFrom todo finalPaths) := by
  rw [Input.pushFrom]
  split
  · exact h.allThere ‹_›
  · exact h

theorem placeFrom_sound {scratch : Text → β} {todo placed : List Text} {result destination : Folder β}
    (h : input.PhaseSound result destination (.placing scratch todo placed)) :
    input.PhaseSound result destination (placeFrom scratch todo placed) := by
  rw [placeFrom]
  split
  · rename_i hTodo
    obtain ⟨hContent, hSplit, hPlaced, -⟩ := h
    rw [hTodo, List.append_nil] at hSplit
    refine Remaining.pushFrom ⟨scratch, hContent, fun name hName => .inr ⟨hSplit ▸ hName, ?_⟩⟩ placed
    exact hPlaced name hName (hSplit ▸ hName)
  · exact h

theorem existing_eq (names : List Text) : input.existing names =
    (names.filter fun name => (input.group.text ++ ['.']).isPrefixOf name ||
      (input.group.text ++ ['-']).isPrefixOf name).mergeSort fun name other => decide (name ≤ other) := by
  rw [existing, existingGroupOutputs, List.filterMap_map]
  have hName : (fun name => List.getLast? (input.resultDir ++ [name])) = some := funext fun _ => List.getLast?_concat
  exact (congrArg (List.filterMap · _) hName).trans List.filterMap_some

theorem existing_subset (names : List Text) : input.existing names ⊆ names := by
  intro name hName
  rw [existing_eq, List.mem_mergeSort] at hName
  exact (List.mem_filter.mp hName).1

theorem nodup_existing {names : List Text} (h : names.Nodup) : (input.existing names).Nodup := by
  rw [existing_eq]
  exact (List.mergeSort_perm _ _).nodup_iff.mpr (h.filter _)

theorem mem_existing_of_output {name : Text} {names : List Text} (hOutput : name ∈ input.outputs) (hName : name ∈ names) :
    name ∈ input.existing names := by
  have hPath : input.resultDir ++ [name] ∈ existingGroupOutputs input.resultDir names input.group.text :=
    mem_existingGroupOutputs.mpr ⟨name, hName, SourceFile.belongs_of_mem_outputs hOutput, rfl⟩
  exact List.mem_filterMap.mpr ⟨_, hPath, List.getLast?_concat⟩

theorem begin_sound (h : input.OwnOnly s.result) :
    input.PhaseSound s.result s.destination (input.begin s.result.names) := by
  rw [begin]
  split
  · rename_i hExisting
    have hComplete := (h.complete_iff (existing_subset _)).mp (Bool.and_eq_true_iff.mp hExisting).2
    obtain ⟨content, hContent, hThere⟩ := h.allThere fun name hName => existing_subset _ (hComplete name hName)
    exact Remaining.pushFrom ⟨content, hContent, fun name hName => .inr ⟨hComplete name hName, hThere name hName⟩⟩ _
  · rename_i hExisting
    split
    · rename_i signals hShape
      exact Option.isSome_iff_exists.mpr ⟨signals, hShape⟩
    · intro hKind name hName _
      have hSingle : ¬ input.file.HasMembers := fun hMembers => by
        rw [hMembers.1] at hKind
        cases hKind
      rw [← Option.not_isSome_iff_eq_none, Option.isSome_iff_exists, ← Folder.mem_names]
      intro hThere
      have hMem := mem_existing_of_output hName hThere
      refine hExisting (Bool.and_eq_true_iff.mpr ⟨?_, (h.complete_iff (existing_subset _)).mpr fun other hOther => ?_⟩)
      · rw [Bool.not_eq_true', List.isEmpty_eq_false_iff]
        exact List.ne_nil_of_mem hMem
      · rw [outputs, SourceFile.outputs_single hSingle, List.mem_singleton] at hName hOther
        rw [hOther, ← hName]
        exact hMem

theorem place_sound {scratch : Text → β} {name : Text} {todo placed : List Text} (hOwn : input.OwnOnly s.result)
    (h : input.PhaseSound s.result s.destination (.placing scratch (name :: todo) placed)) :
    input.OwnOnly (input.place s scratch name todo placed).result ∧
      input.PhaseSound (input.place s scratch name todo placed).result s.destination
        (input.place s scratch name todo placed).phase := by
  obtain ⟨hContent, hSplit, hPlaced, hTodo⟩ := h
  have hName : name ∈ input.outputs := by
    rw [hSplit]
    exact List.mem_append_right _ List.mem_cons_self
  have hFresh : name ∉ todo := by
    have hNodup : input.outputs.Nodup := SourceFile.nodup_outputs
    rw [hSplit] at hNodup
    exact (List.nodup_cons.mp hNodup.of_append_right).1
  have hAssoc : input.outputs = (placed ++ [name]) ++ todo := hSplit.trans (List.append_cons placed name todo)
  rw [place]
  split
  · rename_i hThere
    split
    · refine ⟨hOwn, placeFrom_sound ⟨hContent, hAssoc, fun other hOther hMem => ?_, ?_⟩⟩
      · obtain hBefore | hHere := List.mem_append.mp hMem
        · exact hPlaced other hOther hBefore
        · obtain rfl := List.mem_singleton.mp hHere
          exact hOwn.lookup_output hContent hOther (Folder.mem_names.mpr (Option.isSome_iff_exists.mp hThere))
      · exact fun hKind other hOther hMem => hTodo hKind other hOther (List.mem_cons_of_mem _ hMem)
    · exact ⟨hOwn, trivial⟩
  · refine ⟨hOwn.put fun _ => ⟨scratch, hContent, hName, rfl⟩, placeFrom_sound ⟨hContent, hAssoc, ?_, ?_⟩⟩
    · intro other hOther hMem
      obtain rfl | hApart := eq_or_ne other name
      · exact Folder.lookup_put_self _ _ _
      · rw [Folder.lookup_put_of_ne _ _ hApart]
        refine hPlaced other hOther ((List.mem_append.mp hMem).resolve_right fun hHere => ?_)
        exact hApart (List.mem_singleton.mp hHere)
    · intro hKind other hOther hMem
      have hApart : other ≠ name := fun hSame => hFresh (hSame ▸ hMem)
      rw [Folder.lookup_put_of_ne _ _ hApart]
      exact hTodo hKind other hOther (List.mem_cons_of_mem _ hMem)

theorem afterConversion_sound {result destination : Folder β} (h : input.Unplaced input.outputs result) :
    input.PhaseSound result destination input.afterConversion := by
  rw [afterConversion]
  split
  · rename_i err hError
    split
    · exact ⟨hError, ‹_›⟩
    · trivial
  · rename_i scratch hContent
    exact placeFrom_sound ⟨hContent, rfl, fun _ _ hMem => absurd hMem List.not_mem_nil, h⟩

theorem uploaded_own (h : input.Sound s) (name : Text) : input.OwnOnly (s.uploaded name) := by
  rw [Attempt.uploaded]
  split
  · exact h.destination.put fun hOwn => h.result name _ hOwn ‹_›
  · exact h.destination

theorem lookup_uploaded (h : input.Sound s) {name other : Text} {content : Text → β}
    (hContent : input.converted = .ok content) (hOther : other ∈ input.outputs)
    (hThere : s.destination.lookup other = some (content other)) :
    (s.uploaded name).lookup other = some (content other) := by
  rw [Attempt.uploaded]
  split
  · rename_i bytes hBytes
    obtain rfl | hApart := eq_or_ne other name
    · obtain ⟨same, hSame, -, rfl⟩ := h.result other bytes (not_foreign_output hOther) hBytes
      rw [hContent] at hSame
      obtain rfl := Except.ok.inj hSame
      exact Folder.lookup_put_self _ _ _
    · rw [Folder.lookup_put_of_ne _ _ hApart]
      exact hThere
  · exact hThere

theorem AllThere.uploaded (h : input.Sound s) (hAll : input.AllThere s.destination) (name : Text) :
    input.AllThere (s.uploaded name) := by
  obtain ⟨content, hContent, hThere⟩ := hAll
  exact ⟨content, hContent, fun other hOther => lookup_uploaded h hContent hOther (hThere other hOther)⟩

theorem SourceSpent.uploaded (h : input.Sound s) (hSpent : input.SourceSpent s.destination) (name : Text) :
    input.SourceSpent (s.uploaded name) := hSpent.imp_left fun hAll => hAll.uploaded h name

theorem Remaining.uploaded (h : input.Sound s) {todo : List Text}
    (hLeft : input.Remaining todo s.result s.destination) (name : Text) :
    input.Remaining todo s.result (s.uploaded name) := by
  obtain ⟨content, hContent, hEach⟩ := hLeft
  refine ⟨content, hContent, fun other hOther => (hEach other hOther).imp_left fun hThere => ?_⟩
  exact lookup_uploaded h hContent hOther hThere

theorem Remaining.pushed (h : input.Sound s) {name : Text} {todo finalPaths : List Text} {bytes : β}
    (hBytes : s.result.lookup name = some bytes) (hLeft : input.Remaining (name :: todo) s.result s.destination) :
    input.PhaseSound s.result (s.destination.put name bytes) (.pushed name todo finalPaths) := by
  have hUploaded : s.uploaded name = s.destination.put name bytes := by rw [Attempt.uploaded, hBytes]
  have hHere (content : Text → β) (hContent : input.converted = .ok content) (hName : name ∈ input.outputs) :
      (s.destination.put name bytes).lookup name = some (content name) := by
    obtain ⟨same, hSame, -, rfl⟩ := h.result name bytes (not_foreign_output hName) hBytes
    rw [hContent] at hSame
    obtain rfl := Except.ok.inj hSame
    exact Folder.lookup_put_self _ _ _
  obtain ⟨content, hContent, hEach⟩ := hLeft
  refine ⟨⟨content, hContent, fun other hOther => ?_⟩, hHere⟩
  obtain hThere | ⟨hTodo, hResult⟩ := hEach other hOther
  · rw [← hUploaded]
    exact .inl (lookup_uploaded h hContent hOther hThere)
  · obtain rfl | hLater := List.mem_cons.mp hTodo
    · exact .inl (hHere content hContent hOther)
    · exact .inr ⟨hLater, hResult⟩

theorem Remaining.cleared {name : Text} {todo finalPaths : List Text} {result destination : Folder β}
    (h : input.PhaseSound result destination (.pushed name todo finalPaths)) (gone : Bool) :
    input.Remaining todo (if gone then result.remove name else result) destination := by
  obtain ⟨⟨content, hContent, hEach⟩, hHere⟩ := h
  refine ⟨content, hContent, fun other hOther => ?_⟩
  obtain hThere | ⟨hTodo, hResult⟩ := hEach other hOther
  · exact .inl hThere
  · obtain rfl | hApart := eq_or_ne other name
    · exact .inl (hHere content hContent hOther)
    · refine .inr ⟨hTodo, ?_⟩
      cases gone with
      | false => exact hResult
      | true =>
        rw [if_pos rfl, Folder.lookup_remove_of_ne _ hApart]
        exact hResult

theorem Sound.step (h : input.Sound s) (hAway : input.KeepsAway s event) (hStep : input.step s event = some t) :
    input.Sound t := by
  cases step_moves hStep with
  | stopped => exact ⟨h.result, h.destination, h.source, trivial⟩
  | elsewhere result destination =>
    obtain ⟨hResult, hDestination⟩ := hAway result destination rfl
    refine ⟨h.result.congr hResult, h.destination.congr hDestination, fun hGone => ?_, h.phase.congr hResult hDestination⟩
    exact (h.source hGone).imp_left fun hAll => hAll.congr hDestination
  | pulled hPhase =>
    refine ⟨h.result, h.destination, fun hGone => ?_, h.phase⟩
    cases hGone
  | begin hPhase => exact ⟨h.result, h.destination, h.source, begin_sound h.result⟩
  | prepared hPhase =>
    have hSound := h.phase
    rw [hPhase] at hSound
    exact ⟨h.result, h.destination, h.source, hSound⟩
  | unprepared err hPhase => exact ⟨h.result, h.destination, h.source, trivial⟩
  | converted hPhase =>
    have hSound := h.phase
    rw [hPhase] at hSound
    exact ⟨h.result, h.destination, h.source, afterConversion_sound hSound⟩
  | misdirected gone err hPhase =>
    have hSound := h.phase
    rw [hPhase] at hSound
    exact ⟨h.result, h.destination, fun _ => .inr (.inr ⟨err, hSound⟩), trivial⟩
  | skipped gone signals hPhase =>
    have hSound := h.phase
    rw [hPhase] at hSound
    exact ⟨h.result, h.destination, fun _ => .inr (.inl hSound), hSound⟩
  | placed scratch name todo before hPhase =>
    have hSound := h.phase
    rw [hPhase] at hSound
    obtain ⟨hResult, hNext⟩ := place_sound h.result hSound
    have hSame : (input.place s scratch name todo before).destination = s.destination ∧
        (input.place s scratch name todo before).source = s.source := by
      rw [place]
      split_ifs <;> exact ⟨rfl, rfl⟩
    rw [← hSame.1] at hNext
    refine ⟨hResult, ?_, ?_, hNext⟩
    · rw [hSame.1]
      exact h.destination
    · rw [hSame.1, hSame.2]
      exact h.source
  | unplaced err => exact ⟨h.result, h.destination, h.source, trivial⟩
  | pushed name todo finalPaths content hPhase hContent =>
    have hSound := h.phase
    rw [hPhase] at hSound
    have hUploaded : s.uploaded name = s.destination.put name content := by rw [Attempt.uploaded, hContent]
    refine ⟨h.result, ?_, fun hGone => ?_, Remaining.pushed h hContent hSound⟩
    · rw [← hUploaded]
      exact uploaded_own h name
    · rw [← hUploaded]
      exact (h.source hGone).uploaded h name
  | pushFailed landed err decision phase destination name todo finalPaths hBefore hPhase hDestination =>
    have hSound := h.phase
    rw [hBefore] at hSound
    have hKept : input.OwnOnly destination ∧ (s.source = false → input.SourceSpent destination) ∧
        input.Remaining todo s.result destination := by
      obtain rfl | rfl := hDestination
      · exact ⟨h.destination, h.source, hSound⟩
      · exact ⟨uploaded_own h name, fun hGone => (h.source hGone).uploaded h name, Remaining.uploaded h hSound name⟩
    refine ⟨h.result, hKept.1, hKept.2.1, ?_⟩
    obtain rfl | rfl := hPhase
    · exact hKept.2.2
    · trivial
  | cleared gone name todo finalPaths hPhase =>
    have hSound := h.phase
    rw [hPhase] at hSound
    refine ⟨?_, h.destination, h.source, Remaining.pushFrom (Remaining.cleared hSound gone) finalPaths⟩
    cases gone with
    | false => exact h.result
    | true => exact h.result.remove name
  | finished gone finalPaths hPhase =>
    have hSound := h.phase
    rw [hPhase] at hSound
    exact ⟨h.result, h.destination, fun _ => .inl hSound, hSound⟩

theorem Sound.run {events : List (ProcessEvent β)} (h : input.Sound s)
    (hAway : Within input.step input.KeepsAway s events) (hRun : run input.step s events = some t) : input.Sound t :=
  run_invariant input.Sound (fun _ _ _ hSound hEvent hStep => Sound.step hSound hEvent hStep) hAway hRun h

/-! ## A rerun comes to its end -/

def Converts (input : Input β) : Prop := input.emailShape = none ∧ ∃ content, input.converted = .ok content

/-- A step of the task itself in which nothing fails. -/
def Succeeds : ProcessEvent β → Prop
  | .begin | .prepared none | .converted | .placed none | .pushed | .removed _ => True
  | _ => False

def OnCourse : Phase β → Prop
  | .misdirected _ | .skipping _ | .ended (.error _) | .ended (.ok (.skippedEmailShaped _)) => False
  | _ => True

theorem onCourse_pushFrom (todo finalPaths : List Text) : OnCourse (pushFrom todo finalPaths : Phase β) := by
  rw [pushFrom]
  split <;> trivial

theorem onCourse_placeFrom (scratch : Text → β) (todo placed : List Text) : OnCourse (placeFrom scratch todo placed) := by
  rw [placeFrom]
  split
  · exact onCourse_pushFrom placed placed
  · trivial

theorem onCourse_step (hConverts : input.Converts) (h : input.Sound s) (hCourse : OnCourse s.phase)
    (hEvent : Succeeds event ∨ ∃ result destination, event = .elsewhere result destination)
    (hStep : input.step s event = some t) : OnCourse t.phase := by
  cases step_moves hStep with
  | stopped => trivial
  | elsewhere result destination => exact hCourse
  | pulled hPhase => exact hCourse
  | begin hPhase =>
    rw [begin]
    dsimp only
    split
    · exact onCourse_pushFrom _ _
    · rw [hConverts.1]
      trivial
  | prepared hPhase => trivial
  | unprepared err hPhase => simp [Succeeds] at hEvent
  | converted hPhase =>
    obtain ⟨content, hContent⟩ := hConverts.2
    rw [afterConversion, hContent]
    exact onCourse_placeFrom content _ _
  | misdirected gone err hPhase =>
    rw [hPhase] at hCourse
    cases hCourse
  | skipped gone signals hPhase =>
    rw [hPhase] at hCourse
    cases hCourse
  | placed scratch name todo before hPhase =>
    have hSound := h.phase
    rw [hPhase] at hSound
    obtain ⟨-, hSplit, -, hTodo⟩ := hSound
    rw [place]
    split
    · rename_i hThere
      split
      · exact onCourse_placeFrom _ _ _
      · rename_i hKind
        have hName : name ∈ input.outputs := by
          rw [hSplit]
          exact List.mem_append_right _ List.mem_cons_self
        rw [hTodo (Bool.not_eq_true _ ▸ hKind) name hName List.mem_cons_self] at hThere
        cases hThere
    · exact onCourse_placeFrom _ _ _
  | unplaced err => simp [Succeeds] at hEvent
  | pushed name todo finalPaths content hPhase hContent => trivial
  | pushFailed landed err decision phase destination name todo finalPaths hBefore hPhase hDestination =>
    simp [Succeeds] at hEvent
  | cleared gone name todo finalPaths hPhase => exact onCourse_pushFrom _ _
  | finished gone finalPaths hPhase => trivial

theorem away_of_alone {events : List (ProcessEvent β)} (h : ∀ event ∈ events, event.fromElsewhere = false)
    (s : Attempt β) : Within input.step input.KeepsAway s events := by
  induction events generalizing s with
  | nil => trivial
  | cons event events ih =>
    obtain ⟨hEvent, hLater⟩ := List.forall_mem_cons.mp h
    refine ⟨fun result destination hElsewhere => ?_, fun next _ => ih hLater next⟩
    rw [hElsewhere] at hEvent
    cases hEvent

theorem Succeeds.alone (h : Succeeds event) : event.fromElsewhere = false := by
  cases event with
  | elsewhere result destination => cases h
  | _ => rfl

theorem onCourse_run {events : List (ProcessEvent β)} (hConverts : input.Converts) (h : input.Sound s)
    (hCourse : OnCourse s.phase)
    (hEvents : ∀ event ∈ events, Succeeds event ∨ ∃ result destination, event = .elsewhere result destination)
    (hAway : Within input.step input.KeepsAway s events) (hRun : run input.step s events = some t) :
    OnCourse t.phase := by
  induction events generalizing s with
  | nil =>
    cases hRun
    exact hCourse
  | cons event events ih =>
    obtain ⟨next, hNext, hRest⟩ := run_cons_eq_some.mp hRun
    obtain ⟨hEvent, hLater⟩ := List.forall_mem_cons.mp hEvents
    exact ih (Sound.step h hAway.1 hNext) (onCourse_step hConverts h hCourse hEvent hNext) hLater (hAway.2 next hNext) hRest

/-- Steps of the task alone, none of which fails, bring it to the end of its pushes. -/
def Finishes (input : Input β) (s : Attempt β) : Prop :=
  ∃ events t finalPaths, (∀ event ∈ events, Succeeds event) ∧ run input.step s events = some t ∧
    t.phase = .ended (.ok (.pushed finalPaths))

theorem Finishes.of_step (h : input.Finishes t) (hEvent : Succeeds event) (hStep : input.step s event = some t) :
    input.Finishes s := by
  obtain ⟨events, u, finalPaths, hEvents, hRun, hEnd⟩ := h
  refine ⟨event :: events, u, finalPaths, List.forall_mem_cons.mpr ⟨hEvent, hEvents⟩, ?_, hEnd⟩
  exact run_cons_eq_some.mpr ⟨t, hStep, hRun⟩

theorem finishes_pushFrom {todo finalPaths : List Text} (hPhase : s.phase = pushFrom todo finalPaths)
    (hNodup : todo.Nodup) (hThere : todo ⊆ s.result.names) : input.Finishes s := by
  induction todo generalizing s with
  | nil =>
    have hStep : input.step s (.removed true) =
        some { s with phase := .ended (.ok (.pushed finalPaths)), source := s.source && !true } := by
      rw [step.eq_def, hPhase]
      rfl
    have hRemoved : Succeeds (.removed true : ProcessEvent β) := trivial
    refine ⟨[.removed true], _, finalPaths, fun event hEvent => ?_, run_cons_eq_some.mpr ⟨_, hStep, rfl⟩, rfl⟩
    rw [List.mem_singleton.mp hEvent]
    exact hRemoved
  | cons name todo ih =>
    obtain ⟨content, hContent⟩ := Folder.mem_names.mp (hThere List.mem_cons_self)
    obtain ⟨hFresh, hRest⟩ := List.nodup_cons.mp hNodup
    have hPush : input.step s .pushed = some
        { s with phase := .pushed name todo finalPaths, destination := s.destination.put name content } := by
      rw [step.eq_def, hPhase]
      simp [pushFrom, hContent]
    have hPushed : Succeeds (.pushed : ProcessEvent β) := trivial
    have hRemoved : Succeeds (.removed true : ProcessEvent β) := trivial
    refine Finishes.of_step (Finishes.of_step (ih ?_ hRest ?_) hRemoved rfl) hPushed hPush
    · rfl
    · intro other hOther
      obtain ⟨bytes, hBytes⟩ := Folder.mem_names.mp (hThere (List.mem_cons_of_mem _ hOther))
      have hApart : other ≠ name := fun hSame => hFresh (hSame ▸ hOther)
      exact Folder.mem_names.mpr ⟨bytes, (Folder.lookup_remove_of_ne _ hApart).trans hBytes⟩

theorem finishes_placeFrom {scratch : Text → β} {todo placed : List Text}
    (hPhase : s.phase = placeFrom scratch todo placed) (hNodup : (placed ++ todo).Nodup)
    (hPlaced : placed ⊆ s.result.names)
    (hTodo : input.file.kind.isSpreadsheet = true ∨ ∀ name ∈ todo, s.result.lookup name = none) :
    input.Finishes s := by
  induction todo generalizing s placed with
  | nil =>
    rw [List.append_nil] at hNodup
    exact finishes_pushFrom hPhase hNodup hPlaced
  | cons name todo ih =>
    have hStep : input.step s (.placed none) = some (input.place s scratch name todo placed) := by
      rw [step.eq_def, hPhase]
      simp [placeFrom]
    have hGo : Succeeds (.placed none : ProcessEvent β) := trivial
    have hNext := hNodup
    rw [List.append_cons] at hNext
    refine Finishes.of_step ?_ hGo hStep
    rw [place]
    split
    · rename_i hThere
      have hKind : input.file.kind.isSpreadsheet = true := by
        apply hTodo.resolve_right
        intro hNone
        rw [hNone name List.mem_cons_self] at hThere
        cases hThere
      rw [if_pos hKind]
      refine ih rfl hNext (List.append_subset.mpr ⟨hPlaced, ?_⟩) (.inl hKind)
      intro other hOther
      rw [List.mem_singleton.mp hOther]
      exact Folder.mem_names.mpr (Option.isSome_iff_exists.mp hThere)
    · refine ih rfl hNext (fun other hOther => ?_) (hTodo.imp_right fun hNone other hOther => ?_)
      · obtain rfl | hApart := eq_or_ne other name
        · exact Folder.mem_names.mpr ⟨_, Folder.lookup_put_self _ _ _⟩
        · have hBefore : other ∈ placed :=
            (List.mem_append.mp hOther).resolve_right fun hHere => hApart (List.mem_singleton.mp hHere)
          obtain ⟨bytes, hBytes⟩ := Folder.mem_names.mp (hPlaced hBefore)
          exact Folder.mem_names.mpr ⟨bytes, (Folder.lookup_put_of_ne _ _ hApart).trans hBytes⟩
      · have hApart : other ≠ name := fun hSame =>
          (List.nodup_cons.mp hNodup.of_append_right).1 (hSame ▸ hOther)
        exact (Folder.lookup_put_of_ne _ _ hApart).trans (hNone other (List.mem_cons_of_mem _ hOther))

theorem finishes_idle (hConverts : input.Converts) (h : input.Sound s) (hPhase : s.phase = .idle)
    (hSource : s.source = true) : input.Finishes s := by
  have hBegin : input.step s .begin = some { s with phase := input.begin s.result.names } := by
    rw [step.eq_def, hPhase]
    simp [hSource]
  have hBegun : Succeeds (.begin : ProcessEvent β) := trivial
  refine Finishes.of_step ?_ hBegun hBegin
  have hSound := begin_sound h.result
  rw [begin] at hSound ⊢
  split
  · exact finishes_pushFrom rfl (nodup_existing s.result.nodup_names) (existing_subset _)
  · rename_i hExisting
    rw [if_neg hExisting, hConverts.1] at hSound
    rw [hConverts.1]
    obtain ⟨content, hContent⟩ := hConverts.2
    have hPrepared : Succeeds (.prepared none : ProcessEvent β) := trivial
    have hConverted : Succeeds (.converted : ProcessEvent β) := trivial
    refine Finishes.of_step (Finishes.of_step ?_ hConverted rfl) hPrepared rfl
    have hPlace : input.afterConversion = placeFrom content input.outputs [] := by rw [afterConversion, hContent]
    refine finishes_placeFrom hPlace SourceFile.nodup_outputs (List.nil_subset _) ?_
    cases hKind : input.file.kind.isSpreadsheet with
    | true => exact .inl rfl
    | false => exact .inr fun name hName => hSound hKind name hName hName

/-- In every run from a fresh input during which other tasks bring no name with its group into the two folders, and
at every point at which it stops: the destination reads as complete only with all outputs there, the source is gone
only for a reason, and a rerun of an input that converts, in which nothing fails, ends with all outputs there. -/
theorem crash_safe_of_kept_away (input : Input β) {start s : Attempt β} {events : List (ProcessEvent β)}
    (hFresh : input.Fresh start) (hAway : Within input.step input.KeepsAway start events)
    (hRun : run input.step start events = some s) :
    ((DestinationGroups.index s.destination.names).isComplete input.group.text = true →
        input.AllThere s.destination) ∧
      (s.source = false → input.AllThere s.destination ∨ input.emailShape.isSome = true ∨
        ∃ err, input.converted = .error err ∧ isWrongInputKindError err = true) ∧
      (input.Converts →
        (∃ rerun t finalPaths, (∀ event ∈ rerun, Succeeds event) ∧
          run input.step s (.stopped :: .pulled :: rerun) = some t ∧ t.phase = .ended (.ok (.pushed finalPaths)) ∧
            input.AllThere t.destination) ∧
        ∀ rerun t result,
          (∀ event ∈ rerun, Succeeds event ∨ ∃ result destination, event = .elsewhere result destination) →
            Within input.step input.KeepsAway s (.stopped :: .pulled :: rerun) →
              run input.step s (.stopped :: .pulled :: rerun) = some t → t.phase = .ended result →
                (∃ finalPaths, result = .ok (.pushed finalPaths)) ∧ input.AllThere t.destination) := by
  have hSound := hFresh.sound.run hAway hRun
  have hIdle : input.Sound { s with phase := .idle, source := true } :=
    ⟨hSound.result, hSound.destination, fun hGone => Bool.noConfusion hGone, trivial⟩
  refine ⟨fun hComplete => ?_, hSound.source, fun hConverts => ⟨?_, ?_⟩⟩
  · exact hSound.destination.allThere ((hSound.destination.complete_iff (List.Subset.refl _)).mp hComplete)
  · obtain ⟨rerun, t, finalPaths, hEvents, hFinish, hEnd⟩ := finishes_idle hConverts hIdle rfl rfl
    refine ⟨rerun, t, finalPaths, hEvents, hFinish, hEnd, ?_⟩
    have hEndSound := (hIdle.run (away_of_alone (fun event hEvent => (hEvents event hEvent).alone) _) hFinish).phase
    rw [hEnd] at hEndSound
    exact hEndSound
  · intro rerun t result hEvents hQuiet hRerun hEnd
    obtain ⟨idle, hStop, hRest⟩ := run_cons_eq_some.mp hRerun
    obtain rfl := Option.some.inj hStop
    obtain ⟨pulled, hPull, hRest⟩ := run_cons_eq_some.mp hRest
    obtain rfl := Option.some.inj hPull
    have hLast := hSound.run hQuiet hRerun
    have hCourse := onCourse_run hConverts hIdle trivial hEvents ((hQuiet.2 _ rfl).2 _ rfl) hRest
    have hEndSound := hLast.phase
    rw [hEnd] at hCourse hEndSound
    rcases result with err | ⟨finalPaths | signals⟩
    · cases hCourse
    · exact ⟨⟨finalPaths, rfl⟩, hEndSound⟩
    · cases hCourse

def fresh (β : Type*) : Attempt β := ⟨.idle, true, Folder.empty, Folder.empty⟩

theorem fresh_fresh : input.Fresh (fresh β) := ⟨rfl, rfl, fun name _ => ⟨Folder.lookup_empty name, Folder.lookup_empty name⟩⟩

def budgetInput : Input Nat where
  digest := SourceFile.budgetDigests
  file := SourceFile.budget
  resultDir := ["result".toList]
  signals := none
  converted := .ok fun _ => 1

/-- The task is stopped behind the placing of its output. -/
theorem crash_safe_of_kept_away_budget :
    ∃ s, run budgetInput.step (fresh Nat) [.begin, .prepared none, .converted, .placed none, .stopped] = some s ∧
      (s.source = false → budgetInput.AllThere s.destination ∨ budgetInput.emailShape.isSome = true ∨
        ∃ err, budgetInput.converted = .error err ∧ isWrongInputKindError err = true) ∧
      ∃ rerun t finalPaths, (∀ event ∈ rerun, Succeeds event) ∧
        run budgetInput.step s (.stopped :: .pulled :: rerun) = some t ∧ t.phase = .ended (.ok (.pushed finalPaths)) ∧
          budgetInput.AllThere t.destination := by
  have hRuns : (run budgetInput.step (fresh Nat) [.begin, .prepared none, .converted, .placed none, .stopped]).isSome := by
    decide +kernel
  obtain ⟨s, hRun⟩ := Option.isSome_iff_exists.mp hRuns
  have hAway : Within budgetInput.step budgetInput.KeepsAway (fresh Nat)
      [.begin, .prepared none, .converted, .placed none, .stopped] := away_of_alone (by decide) _
  obtain ⟨-, hSource, hRerun⟩ := crash_safe_of_kept_away budgetInput fresh_fresh hAway hRun
  exact ⟨s, hRun, hSource, (hRerun ⟨rfl, _, rfl⟩).1⟩

def lookalikeName : Text := "Budget-Normal-Reduced-Crisis-ee7a9c8a4c2e5342-01of01-x-8cfd8c767b8ebf28.csv".toList

/-- An output of another file that spells the group is pushed in place of the conversion: the destination reads as
complete and the source is deleted, with no output there. -/
theorem lookalike_ends_conversion :
    lookalikeName ∈ SourceFile.lookalike.outputs SourceFile.budgetDigests ∧ budgetInput.Fresh (fresh Nat) ∧
      budgetInput.Converts ∧
        ∃ s, run budgetInput.step (fresh Nat)
            [.elsewhere (Folder.empty.put lookalikeName 2) Folder.empty, .begin, .pushed, .removed true, .removed true] =
              some s ∧
          s.source = false ∧
            (DestinationGroups.index s.destination.names).isComplete budgetInput.group.text = true ∧
              ∀ name ∈ budgetInput.outputs, s.destination.lookup name = none := by
  have hEnds : (run budgetInput.step (fresh Nat)
      [.elsewhere (Folder.empty.put lookalikeName 2) Folder.empty, .begin, .pushed, .removed true, .removed true]).map
        (fun s => decide (s.source = false ∧
          (DestinationGroups.index s.destination.names).isComplete budgetInput.group.text = true ∧
            ∀ name ∈ budgetInput.outputs, s.destination.lookup name = none)) = some true := by
    decide +kernel
  obtain ⟨s, hRun, hCheck⟩ := Option.map_eq_some_iff.mp hEnds
  exact ⟨by decide +kernel, fresh_fresh, ⟨rfl, _, rfl⟩, s, hRun, of_decide_eq_true hCheck⟩

end Input

end Pigeon.Transform
