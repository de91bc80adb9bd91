import Pigeon.Library.Tables
import Pigeon.Transform.Reconcile

/-! # The report of a run

A table with a row for each outcome, an empty line, and the counts of the run. The fields are written as they are,
and a destination name, a source key or an error of a tool can hold any character.
-/
namespace Pigeon.Transform

open Library Pigeon.Core

set_option autoImplicit false

namespace Outcome

def asStr : Outcome → Text
  | .transcoded => "transcoded".toList
  | .copiedThrough => "copied_through".toList
  | .failed => "failed".toList
  | .skippedEmailShaped => "skipped_email_shaped".toList

def ofStr (s : Text) : Option Outcome :=
  [transcoded, copiedThrough, failed, skippedEmailShaped].find? fun outcome => outcome.asStr == s

theorem ofStr_asStr (outcome : Outcome) : ofStr outcome.asStr = some outcome := by
  cases outcome with
  | transcoded | copiedThrough | failed | skippedEmailShaped => rfl

end Outcome

namespace FailureStage

def asStr : FailureStage → Text
  | .pull => "pull".toList
  | .transcode => "transcode".toList
  | .place => "place".toList
  | .push => "push".toList

/-- The field is empty for an outcome without a stage. -/
def ofField (s : Text) : Option (Option FailureStage) :=
  if s = [] then some none else ([pull, transcode, place, push].find? fun stage => stage.asStr == s).map some

theorem ofField_asStr (stage : Option FailureStage) : ofField ((stage.map asStr).getD []) = some stage := by
  cases stage with
  | none => rfl
  | some stage =>
    cases stage with
    | pull | transcode | place | push => rfl

end FailureStage

namespace FileOutcome

def fields (outcome : FileOutcome) : List Text :=
  [outcome.relativePath,
    outcome.outcome.asStr,
    (outcome.stage.map FailureStage.asStr).getD [],
    [','].intercalate outcome.destinationFilenames,
    outcome.detail]

/-- What a reader makes of the fields of a row. -/
def ofFields : List Text → Option FileOutcome
  | [relativePath, outcome, stage, destinationFilenames, detail] =>
    (Outcome.ofStr outcome).bind fun outcome =>
      (FailureStage.ofField stage).map fun stage =>
        ⟨relativePath, Text.splitList ',' destinationFilenames, outcome, stage, detail⟩
  | _ => none

/-- No text of the outcome reaches beyond its field, and none of its names beyond its place in the list. -/
structure Tabular (outcome : FileOutcome) : Prop where
  relativePath : '\t' ∉ outcome.relativePath ∧ '\n' ∉ outcome.relativePath
  filenames : ∀ name ∈ outcome.destinationFilenames, '\t' ∉ name ∧ '\n' ∉ name
  listed : outcome.destinationFilenames ≠ [[]] ∧ ∀ name ∈ outcome.destinationFilenames, ',' ∉ name
  detail : '\t' ∉ outcome.detail ∧ '\n' ∉ outcome.detail

end FileOutcome

/-! ## The report -/

structure Tally where
  transcoded : Nat
  copiedThrough : Nat
  failed : Nat

def Tally.count (tally : Tally) (outcome : FileOutcome) : Tally :=
  match outcome.outcome with
  | .transcoded => { tally with transcoded := tally.transcoded + 1 }
  | .copiedThrough => { tally with copiedThrough := tally.copiedThrough + 1 }
  | .failed => { tally with failed := tally.failed + 1 }
  | .skippedEmailShaped => tally

def reportHeader : Text := "source_relative_path\toutcome\tstage\tdestination_filenames\tdetail".toList

namespace TransformSummary

variable (summary : TransformSummary)

def tally : Tally := summary.outcomes.foldl Tally.count ⟨0, 0, 0⟩

/-- The lines below the table. -/
def countLines : List Text :=
  [Nat.toDigits 10 summary.tally.transcoded ++ " transcoded, ".toList ++
      Nat.toDigits 10 summary.tally.copiedThrough ++ " copied through, ".toList ++
      Nat.toDigits 10 summary.tally.failed ++ " failed; ".toList ++
      Nat.toDigits 10 summary.pushed ++ " output file(s) pushed.".toList,
    "failures by stage: ".toList ++ Nat.toDigits 10 summary.failures.pull ++ " pull, ".toList ++
      Nat.toDigits 10 summary.failures.transcode ++ " transcode, ".toList ++
      Nat.toDigits 10 summary.failures.place ++ " place, ".toList ++
      Nat.toDigits 10 summary.failures.push ++ " push.".toList,
    "skipped: ".toList ++ Nat.toDigits 10 summary.skippedAlreadyDone ++ " already done at the destination, ".toList ++
      Nat.toDigits 10 summary.skippedAppleDouble ++ " AppleDouble sidecar(s), ".toList ++
      Nat.toDigits 10 summary.skippedLockFile ++ " Excel lock stub(s), ".toList ++
      Nat.toDigits 10 summary.skippedEmailShaped ++ " email-shaped Markdown file(s).".toList,
    "pull: ".toList ++ Nat.toDigits 10 summary.pulled ++ " transferred, ".toList ++
      Nat.toDigits 10 summary.pullErrors ++ " rclone error(s) reported.".toList]

def collisionLines : List Text :=
  if summary.caseCollisionGroups = [] then []
  else
    ("case-colliding source keys, each pulled separately (".toList ++
        Nat.toDigits 10 summary.caseCollisionGroups.length ++ " group(s)):".toList) ::
      summary.caseCollisionGroups.map fun group => "  ".toList ++ " | ".toList.intercalate group

/-- What is written to `transform-report.txt`. -/
def writeReport : Text :=
  Text.unlines (reportHeader :: summary.outcomes.map fun outcome => ['\t'].intercalate outcome.fields) ++
    '\n' :: Text.unlines (summary.countLines ++ summary.collisionLines)

/-- The table has a line for each outcome, whose fields are what was written, and the outcome is read from them. -/
structure MachineReadable : Prop where
  rows : (Text.tableLines summary.writeReport).map (List.splitOn '\t') = summary.outcomes.map FileOutcome.fields
  recovered : ∀ outcome ∈ summary.outcomes, FileOutcome.ofFields outcome.fields = some outcome

end TransformSummary

/-! ## Reading it back -/

namespace FileOutcome

theorem ofFields_fields_iff {outcome : FileOutcome} : ofFields outcome.fields = some outcome ↔
    outcome.destinationFilenames ≠ [[]] ∧ ∀ name ∈ outcome.destinationFilenames, ',' ∉ name := by
  rw [← Text.splitList_intercalate_iff, fields, ofFields, Outcome.ofStr_asStr, Option.bind_some,
    FailureStage.ofField_asStr, Option.map_some, Option.some_inj]
  obtain ⟨relativePath, destinationFilenames, status, stage, detail⟩ := outcome
  simp

theorem asStr_plain (outcome : Outcome) : '\t' ∉ outcome.asStr ∧ '\n' ∉ outcome.asStr := by
  cases outcome with
  | transcoded | copiedThrough | failed | skippedEmailShaped => decide

theorem stage_plain (stage : Option FailureStage) :
    '\t' ∉ (stage.map FailureStage.asStr).getD [] ∧ '\n' ∉ (stage.map FailureStage.asStr).getD [] := by
  cases stage with
  | none => decide
  | some stage =>
    cases stage with
    | pull | transcode | place | push => decide

theorem plain_fields_iff {outcome : FileOutcome} : (∀ field ∈ outcome.fields, '\t' ∉ field ∧ '\n' ∉ field) ↔
    ('\t' ∉ outcome.relativePath ∧ '\n' ∉ outcome.relativePath) ∧
      (∀ name ∈ outcome.destinationFilenames, '\t' ∉ name ∧ '\n' ∉ name) ∧
        '\t' ∉ outcome.detail ∧ '\n' ∉ outcome.detail := by
  simp only [fields, List.forall_mem_cons]
  rw [and_iff_right (asStr_plain outcome.outcome), and_iff_right (stage_plain outcome.stage),
    and_iff_left (List.forall_mem_nil _), Text.not_mem_intercalate_iff (by decide),
    Text.not_mem_intercalate_iff (by decide), forall₂_and]

theorem tabular_iff {outcome : FileOutcome} : outcome.Tabular ↔
    (∀ field ∈ outcome.fields, '\t' ∉ field ∧ '\n' ∉ field) ∧ ofFields outcome.fields = some outcome := by
  rw [plain_fields_iff, ofFields_fields_iff]
  constructor
  · rintro ⟨hPath, hNames, hListed, hDetail⟩
    exact ⟨⟨hPath, hNames, hDetail⟩, hListed⟩
  · rintro ⟨⟨hPath, hNames, hDetail⟩, hListed⟩
    exact ⟨hPath, hNames, hListed, hDetail⟩

end FileOutcome

namespace TransformSummary

theorem writeReport_eq (summary : TransformSummary) : summary.writeReport =
    Text.table '\t' reportHeader (summary.outcomes.map FileOutcome.fields)
      (Text.unlines (summary.countLines ++ summary.collisionLines)) := by
  rw [writeReport, Text.table, List.map_map]
  rfl

theorem rows_iff (summary : TransformSummary) :
    (Text.tableLines summary.writeReport).map (List.splitOn '\t') = summary.outcomes.map FileOutcome.fields ↔
      ∀ outcome ∈ summary.outcomes, ∀ field ∈ outcome.fields, '\t' ∉ field ∧ '\n' ∉ field := by
  have hHeader : '\n' ∉ reportHeader := by
    decide +kernel
  have hWide : ∀ record ∈ summary.outcomes.map FileOutcome.fields, 2 ≤ record.length := by
    rw [List.forall_mem_map]
    intro outcome _
    exact Nat.le_add_left 2 3
  rw [writeReport_eq, Text.splitOn_tableLines_iff hHeader (by decide) _ hWide, List.forall_mem_map]

/-- The report is read back exactly when every text in it stays within its field. -/
theorem machineReadable_iff (summary : TransformSummary) :
    summary.MachineReadable ↔ ∀ outcome ∈ summary.outcomes, outcome.Tabular := by
  constructor
  · intro h outcome hOutcome
    exact FileOutcome.tabular_iff.mpr ⟨summary.rows_iff.mp h.rows outcome hOutcome, h.recovered outcome hOutcome⟩
  · intro h
    exact ⟨summary.rows_iff.mpr fun outcome hOutcome => (FileOutcome.tabular_iff.mp (h outcome hOutcome)).1,
      fun outcome hOutcome => (FileOutcome.tabular_iff.mp (h outcome hOutcome)).2⟩

def twoLineError : Text :=
  ("ffmpeg failed to transcode /work/source/a.png: [png @ 0x55d8] Invalid PNG signature\n" ++
    "Error opening input file /work/source/a.png.").toList

def twoLineEvents : List Event :=
  [.pullExited [], .joined 0 (.error (.transcode, twoLineError)),
    .joined 0 (.ok (.pushed ["/work/result/Note-47a761c040d7551a.jpg".toList]))]

/-- One conversion ends with an error of two lines, and the report of the run is no table of its outcomes. -/
theorem two_line_error_splits_row :
    ∃ s summary, run (Pipeline.step TransformJob.pngJob.loopPlan) TransformJob.pngJob.intake.pipeline twoLineEvents = some s ∧
      (s.dispatch TransformJob.pngJob.loopPlan).Finished ∧
        TransformJob.pngJob.finish (s.dispatch TransformJob.pngJob.loopPlan) (.ok ⟨0, 0, 0, 0⟩) = .ok summary ∧
          ¬ summary.MachineReadable := by
  have hEnds : (run (Pipeline.step TransformJob.pngJob.loopPlan) TransformJob.pngJob.intake.pipeline twoLineEvents).map
      (fun s => (decide (s.dispatch TransformJob.pngJob.loopPlan).Finished,
        (TransformJob.pngJob.finish (s.dispatch TransformJob.pngJob.loopPlan) (.ok ⟨0, 0, 0, 0⟩)).toOption.map fun summary =>
          summary.outcomes.any fun outcome => outcome.detail.contains '\n')) = some (true, some true) := by
    decide +kernel
  obtain ⟨s, hRun, hCheck⟩ := Option.map_eq_some_iff.mp hEnds
  obtain ⟨hFinished, hSummary⟩ := Prod.mk.inj hCheck
  obtain ⟨summary, hFinish, hDetail⟩ := TransformJob.pngJob.exists_of_finish_map hSummary
  refine ⟨s, summary, hRun, of_decide_eq_true hFinished, hFinish, fun hReadable => ?_⟩
  obtain ⟨outcome, hOutcome, hContains⟩ := List.any_eq_true.mp hDetail
  obtain ⟨-, -, -, hFree⟩ := FileOutcome.plain_fields_iff.mp (summary.rows_iff.mp hReadable.rows outcome hOutcome)
  exact hFree (List.contains_iff_mem.mp hContains)

end TransformSummary

end Pigeon.Transform
