import Pigeon.Transform.Convert.Course

/-! # What has to be known before a tool runs

A file that is not what its kind says never gets as far as the tool.
-/
namespace Pigeon.Transform

open Library Failing

set_option autoImplicit false

open Converter

theorem guarded_retryFrom {α : Type} {opens : Exchange → Prop} {guarded : Action → Prop} {f : Converter α} (h : Guarded opens guarded f)
    (hPause : ∀ secs, ¬ guarded (.sleep secs)) (fatal : Failure → Bool) (backoff number left : Nat) :
    Guarded opens guarded (retryFrom fatal backoff f number left) := by
  induction left generalizing number with
  | zero =>
    rw [retryFrom]
    split
    · exact guarded_ask_bind (hPause _) fun _ _ => h
    · exact h
  | succ left ih =>
    have hAttempt : Guarded opens guarded
        (tryCatch f fun failure => if fatal failure then throw failure else retryFrom fatal backoff f (number + 1) left) := by
      refine h.tryCatch fun failure => ?_
      split
      · exact trivial
      · exact ih (number + 1)
    rw [retryFrom]
    split
    · exact guarded_ask_bind (hPause _) fun _ _ => hAttempt
    · exact hAttempt

def UsesTool (action : Action) : Prop := action.tool.isSome

/-- A film is looked at for a picture before it is converted. -/
theorem guarded_transcodeVideo (quality : VideoQuality) (threads : Nat) :
    Guarded (· = ⟨.hasVideoStream, true⟩) UsesTool (transcodeVideo quality threads) := by
  rw [transcodeVideo]
  refine guarded_ask_bind nofun fun hasVideoStream hClosed => guarded_unless fun hStream => ?_
  rw [Bool.not_eq_true, Bool.not_eq_false'] at hStream
  exact absurd (hStream ▸ rfl) hClosed

/-- A sound must not have one. -/
theorem guarded_transcodeAudio (quality : AudioQuality) :
    Guarded (· = ⟨.hasVideoStream, false⟩) UsesTool (transcodeAudio quality) := by
  rw [transcodeAudio]
  refine guarded_ask_bind nofun fun hasVideoStream hClosed => guarded_unless fun hStream => ?_
  rw [Bool.not_eq_true] at hStream
  exact absurd (hStream ▸ rfl) hClosed

theorem guarded_toPdf (key : SourceKey) : Guarded (· = ⟨.readHeader, .ok zipMagic⟩) UsesTool (toPdf key .key) := by
  rw [toPdf, if_pos rfl, ensureKeynote]
  refine guarded_ask_bind nofun fun reply hClosed => ?_
  cases reply with
  | error err => exact trivial
  | ok header =>
    have hOther : header ≠ zipMagic := by
      rintro rfl
      exact hClosed rfl
    show Guarded _ _ ((if header ≠ zipMagic then throw .notKeynote else pure ()) >>= fun _ => convert key .input _ _)
    rw [if_pos hOther]
    exact trivial

/-- Ghostscript came to a good end. -/
def Interpreted (exchange : Exchange) : Prop :=
  ∃ args finished, finished.success = true ∧ exchange = ⟨.runWithin ghostscriptTimeoutSecs .gs args, .ok (some finished)⟩

theorem guarded_epsToSvg (key : SourceKey) : Guarded Interpreted (fun action => action.tool = some .soffice) (epsToSvg key) := by
  rw [epsToSvg]
  refine guarded_ask_bind nofun fun created _ => guarded_orFail_bind fun _ _ => guarded_unless fun _ => ?_
  refine guarded_ask_bind nofun fun reply hClosed => guarded_orFail_bind fun finished hReply => ?_
  subst hReply
  cases finished with
  | none => exact trivial
  | some finished =>
    refine guarded_ask_bind nofun fun found _ => guarded_unless fun hFound => ?_
    simp only [Bool.or_eq_true, not_or, Bool.not_eq_true, Bool.not_eq_false'] at hFound
    exact absurd ⟨_, finished, hFound.1, rfl⟩ hClosed

/-- The PDF of an EPS is there and not empty before it is converted. -/
theorem guarded_epsToSvg_filled (key : SourceKey) :
    Guarded (fun exchange => ∃ size > 0, exchange = ⟨.stat (.produced "pdf".toList), .ok size⟩) (fun action => action.tool = some .soffice)
      (epsToSvg key) := by
  rw [epsToSvg]
  refine guarded_ask_bind nofun fun created _ => guarded_orFail_bind fun _ _ => guarded_unless fun _ => ?_
  refine guarded_ask_bind nofun fun reply _ => guarded_orFail_bind fun finished _ => ?_
  cases finished with
  | none => exact trivial
  | some finished =>
    refine guarded_ask_bind nofun fun found hClosed => guarded_unless fun hFound => ?_
    simp only [Bool.or_eq_true, beq_iff_eq, not_or] at hFound
    cases found with
    | ok size => exact absurd ⟨size, Nat.pos_of_ne_zero hFound.2, rfl⟩ hClosed
    | error err => exact absurd rfl hFound.2

/-- A workbook is not opened when it is too large. -/
theorem guarded_splitWorkbook (file : Part) :
    Guarded (fun exchange => ∃ size ≤ maxWorkbookBytes, exchange = ⟨.stat file, .ok size⟩) (· = .openWorkbook file) (splitWorkbook file) := by
  rw [splitWorkbook]
  refine guarded_ask_bind nofun fun stat hClosed => guarded_orFail_bind fun size hStat => guarded_unless fun hSmall => ?_
  exact absurd ⟨size, Nat.le_of_not_gt hSmall, hStat ▸ rfl⟩ hClosed

namespace Run

variable (run : Run) (key : SourceKey) (settings : Settings)

theorem guarded_transcoded {f : Converter Part} {opens : Exchange → Prop} (h : Guarded opens UsesTool f) :
    Guarded opens UsesTool (run.transcoded key f) := guarded_retryFrom h nofun _ _ _ _

theorem guarded_convertOne {opens : Exchange → Prop} {guarded : Action → Prop} (hKind : run.kind.isSpreadsheet = false)
    (h : Guarded opens guarded (run.produce key settings run.kind)) : Guarded opens guarded (run.convertOne key settings) := by
  rw [convertOne, if_neg (Bool.eq_false_iff.mp hKind)]
  exact h.bind fun _ => trivial

theorem guarded_film (hKind : run.kind.isVideo) : Guarded (· = ⟨.hasVideoStream, true⟩) UsesTool (run.convertOne key settings) := by
  have hSingle : run.kind.isSpreadsheet = false := by
    revert hKind
    cases run.kind <;> decide
  refine run.guarded_convertOne key settings hSingle ?_
  generalize run.kind = kind at hKind
  cases kind
  case mov | m4v | mp4 => exact run.guarded_transcoded key (guarded_transcodeVideo _ _)
  all_goals cases hKind

theorem guarded_sound (hKind : run.kind.isAudio) : Guarded (· = ⟨.hasVideoStream, false⟩) UsesTool (run.convertOne key settings) := by
  have hSingle : run.kind.isSpreadsheet = false := by
    revert hKind
    cases run.kind <;> decide
  refine run.guarded_convertOne key settings hSingle ?_
  generalize run.kind = kind at hKind
  cases kind
  case mp4Audio | m4a | mp3 | aac | wav | opus => exact run.guarded_transcoded key (guarded_transcodeAudio _)
  all_goals cases hKind

theorem guarded_keynote (hKind : run.kind = .key) :
    Guarded (· = ⟨.readHeader, .ok zipMagic⟩) UsesTool (run.convertOne key settings) := by
  refine run.guarded_convertOne key settings (by rw [hKind]; rfl) ?_
  rw [hKind, produce]
  exact guarded_toPdf key

theorem guarded_eps (hKind : run.kind = .eps) {opens : Exchange → Prop}
    (h : Guarded opens (fun action => action.tool = some .soffice) (epsToSvg key)) :
    Guarded opens (fun action => action.tool = some .soffice) (run.convertOne key settings) := by
  refine run.guarded_convertOne key settings (by rw [hKind]; rfl) ?_
  rw [hKind, produce]
  exact h

theorem guarded_workbook (hKind : run.kind = .xlsx ∨ run.kind = .xls) :
    Guarded (fun exchange => ∃ size ≤ maxWorkbookBytes, exchange = ⟨.stat .input, .ok size⟩) (· = .openWorkbook .input)
      (run.convertOne key settings) := by
  have hSplit : run.convertOne key settings = splitWorkbook .input >>= fun outputs => pure (outputs.map fun sheet =>
      ⟨if sheet.total = 1 then run.singleName key
        else sheetDestinationName (run.group key) sheet.index sheet.total sheet.sheetName run.kind, sheet.path⟩) := by
    obtain hXlsx | hXls := hKind <;> simp only [convertOne, convertSpreadsheet, *] <;> rfl
  rw [hSplit]
  exact (guarded_splitWorkbook .input).bind fun _ => trivial

end Run

end Pigeon.Transform
