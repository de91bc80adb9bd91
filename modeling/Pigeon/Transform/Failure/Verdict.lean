import Pigeon.Core.Slug
import Pigeon.Transform.Failure

/-! # What is read off the error of a failed conversion

Whether the input was of the wrong kind, and whether trying again is of use, is searched for in the text of the error. A
path in it that carries the name of the input is searched as well.
-/
namespace Pigeon.Transform

open Library Template

set_option autoImplicit false

/-- What becomes of two inputs is alike: the local copy is removed, or the error counts for the breaker, of both or of
neither. -/
structure SameFate (err other : Text) : Prop where
  wrongInputKind : isWrongInputKindError err = isWrongInputKindError other
  nonRetryable : isNonRetryableTranscodeError err = isNonRetryableTranscodeError other
  removed : ∀ input another : Input Unit, input.converted = .error err → another.converted = .error other →
    (input.afterConversion = .misdirected err ↔ another.afterConversion = .misdirected other)
  counted : breakerHit (.error (.transcode, err)) = some err ↔ breakerHit (.error (.transcode, other)) = some other

theorem afterConversion_eq_misdirected_iff {β : Type*} (input : Input β) {err : Text} (h : input.converted = .error err) :
    input.afterConversion = .misdirected err ↔ isWrongInputKindError err := by
  rw [Input.afterConversion, h]
  simp only
  split
  · rename_i hWrong
    simp [hWrong]
  · rename_i hOther
    simp [hOther]

theorem breakerHit_eq_some_iff (err : Text) :
    breakerHit (.error (.transcode, err)) = some err ↔ isNonRetryableTranscodeError err := by
  rw [breakerHit]
  split
  · rename_i hHit
    simp [hHit]
  · rename_i hOther
    simp [hOther]

theorem SameFate.of_eq {err other : Text} (hWrong : isWrongInputKindError err = isWrongInputKindError other)
    (hFatal : isNonRetryableTranscodeError err = isNonRetryableTranscodeError other) : SameFate err other where
  wrongInputKind := hWrong
  nonRetryable := hFatal
  removed input another hErr hOther := by
    rw [afterConversion_eq_misdirected_iff input hErr, afterConversion_eq_misdirected_iff another hOther, hWrong]
  counted := by rw [breakerHit_eq_some_iff, breakerHit_eq_some_iff, hFatal]

/-! ## Messages as fixed text and holes -/

/-- What depends on the input, with the marks it stands between. -/
inductive Hole where
  | relative
  | output
  | scratch
  | scratchColon
  | produced
deriving DecidableEq, Repr

def Hole.value (run : Run) (key : SourceKey) : Hole → Text
  | .relative => '/' :: key.text
  | .output => '/' :: (run.group key ++ '/' :: (run.singleName key ++ ['.']))
  | .scratch => '/' :: (run.group key ++ ['/'])
  | .scratchColon => '/' :: (run.group key ++ [':'])
  | .produced => '/' :: (run.group key ++ '/' :: (Run.stem key ++ ['.']))

def Part.segments (run : Run) : Part → List (Segment Hole)
  | .text s => [.fixed s]
  | .input => [.fixed run.sourceDir, .hole .relative]
  | .output => [.fixed run.scratchDir, .hole .output, .fixed "scratch".toList]
  | .scratchFile name => [.fixed run.scratchDir, .hole .scratch, .fixed name]
  | .produced ext => [.fixed run.scratchDir, .hole .produced, .fixed ext]
  | .scratchColon => [.fixed run.scratchDir, .hole .scratchColon]

def Failure.segments (run : Run) (failure : Failure) : List (Segment Hole) := failure.parts.flatMap (Part.segments run)

/-- The name of the input can be read there: in full, or as the stem that `sanitize_filename` leaves as it is. The stem of
a spreadsheet is spelled without blanks. -/
def Hole.spells (kind : InputFileType) : Hole → Bool
  | .relative | .produced => true
  | .output | .scratch | .scratchColon => !kind.isSpreadsheet

theorem SourceKey.head?_ne (key : SourceKey) : key.text.head? ≠ some '/' := by
  intro h
  obtain ⟨rest, hText⟩ := List.head?_eq_some_iff.mp h
  have hNone : '/' ∉ ([] : Text) := List.not_mem_nil
  have hSplit : ('/' :: rest).splitOn '/' = [] :: rest.splitOn '/' := List.splitOn_append_cons_self_of_not_mem hNone rest
  have hValid := key.valid
  rw [hText, hSplit, List.all_cons] at hValid
  contradiction

theorem Part.fill_segments (run : Run) (key : SourceKey) (part : Part) :
    fill (Hole.value run key) (part.segments run) = part.write run key := by
  cases part with
  | input => simp [segments, write, fill, Segment.fill, Hole.value, Text.joinPath, key.head?_ne]
  | text s => simp [segments, write, fill, Segment.fill]
  | output => simp [segments, write, fill, Segment.fill, Hole.value, Run.scratch]
  | scratchFile name => simp [segments, write, fill, Segment.fill, Hole.value, Run.scratch]
  | produced ext => simp [segments, write, fill, Segment.fill, Hole.value, Run.scratch]
  | scratchColon => simp [segments, write, fill, Segment.fill, Hole.value, Run.scratch]

theorem Failure.fill_segments (run : Run) (key : SourceKey) (failure : Failure) :
    fill (Hole.value run key) (failure.segments run) = failure.message run key := by
  rw [segments, message]
  induction failure.parts with
  | nil => rfl
  | cons part parts ih => rw [List.flatMap_cons, List.flatMap_cons, fill_append, ih, part.fill_segments]

theorem infix_message_of_runs {run : Run} {failure : Failure} {text signature : Text}
    (hText : text ∈ runs (failure.segments run)) (hSignature : signature <:+: text) (key : SourceKey) :
    signature <:+: failure.message run key := by
  rw [← failure.fill_segments]
  exact hSignature.trans (infix_fill_of_runs hText)

theorem infix_message_of_holes {run : Run} {key : SourceKey} {failure : Failure} {hole : Hole} {signature : Text}
    (hHole : hole ∈ holes (failure.segments run)) (hSignature : signature <:+: hole.value run key) :
    signature <:+: failure.message run key := by
  rw [← failure.fill_segments]
  exact hSignature.trans (infix_fill_of_holes hHole)

/-! ## Names in which no signature can be read -/

theorem signatures_sublist : wrongInputKindSignatures.Sublist nonRetryableSignatures :=
  .cons _ <| .cons _ <| .cons _ <| .cons _ <| .cons _ <| .cons _ <|
    .cons_cons _ <| .cons_cons _ <| .cons_cons _ <| .cons_cons _ <| .cons_cons _ <| .cons_cons _ <|
      .cons _ <| .cons_cons _ <| .cons_cons _ <| .cons _ <| .cons_cons _ <| .cons_cons _ <| .cons _ <| .slnil

theorem mem_nonRetryableSignatures {signature : Text} (h : signature ∈ wrongInputKindSignatures) :
    signature ∈ nonRetryableSignatures := signatures_sublist.subset h

theorem marks_of_mem {signature : Text} (h : signature ∈ nonRetryableSignatures) :
    ' ' ∈ signature ∧ '/' ∉ signature ∧ '.' ∉ signature ∧ ':' ∉ signature ∧ '~' ∉ signature := by
  have hAll : ∀ signature ∈ nonRetryableSignatures,
      ' ' ∈ signature ∧ '/' ∉ signature ∧ '.' ∉ signature ∧ ':' ∉ signature ∧ '~' ∉ signature := by decide +kernel
  exact hAll signature h

/-- What fills the hole has no blank, and it ends with a mark. -/
structure Quiet (s : Text) : Prop where
  blank : ' ' ∉ s
  first : s.head? = some '/'
  last : ∃ c, s.getLast? = some c ∧ (c = '/' ∨ c = '.' ∨ c = ':' ∨ c = '~')

theorem Quiet.not_found {s signature : Text} (h : Quiet s) (hSignature : signature ∈ nonRetryableSignatures) :
    ¬signature <:+: s :=
  fun hFound => h.blank (hFound.subset (marks_of_mem hSignature).1)

theorem Quiet.sealed {s signature : Text} (h : Quiet s) (hSignature : signature ∈ nonRetryableSignatures) :
    Sealed signature s := by
  obtain ⟨-, hSlash, hDot, hColon, hTilde⟩ := marks_of_mem hSignature
  obtain ⟨last, hLast, hMark⟩ := h.last
  refine ⟨?_, ?_, ?_⟩
  · rintro rfl
    exact absurd h.first (by simp)
  · intro c hHead
    obtain rfl : '/' = c := Option.some.inj (h.first.symm.trans hHead)
    exact hSlash
  · intro c hEnd
    obtain rfl : last = c := Option.some.inj (hLast.symm.trans hEnd)
    obtain rfl | rfl | rfl | rfl := hMark
    · exact hSlash
    · exact hDot
    · exact hColon
    · exact hTilde

theorem infix_message_iff {run : Run} {key : SourceKey} {failure : Failure} {signature : Text}
    (hQuiet : ∀ hole ∈ holes (failure.segments run), Quiet (hole.value run key))
    (hSignature : signature ∈ nonRetryableSignatures) :
    signature <:+: failure.message run key ↔ ∃ text ∈ runs (failure.segments run), signature <:+: text := by
  rw [← failure.fill_segments, infix_fill_iff fun hole hMem => (hQuiet hole hMem).sealed hSignature]
  constructor
  · rintro (hRun | ⟨hole, hMem, hFound⟩)
    · exact hRun
    · exact absurd hFound ((hQuiet hole hMem).not_found hSignature)
  · intro hRun
    exact .inl hRun

section Blanks

variable {run : Run} {key : SourceKey}

theorem blank_not_mem_group (h : ' ' ∉ groupStem key.text run.kind) : ' ' ∉ run.group key := by
  have hDigest : ' ' ∉ (run.digest (hashInput run.sourcePath key.text)).val := by
    intro hMem
    have hHex := List.all_eq_true.mp (run.digest (hashInput run.sourcePath key.text)).property.2 _ hMem
    contradiction
  simp only [Run.group, groupKey, GroupKey.text, List.mem_append, List.mem_cons, not_or]
  exact ⟨h, by decide, hDigest⟩

theorem blank_not_mem_singleName (h : ' ' ∉ run.group key) : ' ' ∉ run.singleName key := by
  have hExtension : ' ' ∉ run.kind.outputExtension := by
    cases run.kind
    all_goals decide
  simp only [Run.singleName, computeDestinationName, List.mem_append, List.mem_cons, not_or]
  exact ⟨h, by decide, hExtension⟩

theorem quiet_of_group (hBlank : ' ' ∉ run.group key) {hole : Hole}
    (hHole : hole = .output ∨ hole = .scratch ∨ hole = .scratchColon) : Quiet (hole.value run key) := by
  have hSingle := blank_not_mem_singleName hBlank
  obtain rfl | rfl | rfl := hHole
  · refine ⟨?_, rfl, '.', ?_, by simp⟩
    · simp [Hole.value, hBlank, hSingle]
    · simp [Hole.value, List.getLast?_cons]
  · refine ⟨?_, rfl, '/', ?_, by simp⟩
    · simp [Hole.value, hBlank]
    · simp [Hole.value, List.getLast?_cons]
  · refine ⟨?_, rfl, ':', ?_, by simp⟩
    · simp [Hole.value, hBlank]
    · simp [Hole.value, List.getLast?_cons]

/-- The group of a spreadsheet is spelled without blanks. -/
theorem quiet_of_not_spells {hole : Hole} (h : hole.spells run.kind = false) : Quiet (hole.value run key) := by
  have hKind : hole ≠ .relative ∧ hole ≠ .produced ∧ run.kind.isSpreadsheet = true := by
    cases hole
    all_goals simp_all [Hole.spells]
  have hStem : ' ' ∉ groupStem key.text run.kind := by
    rw [groupStem, if_pos hKind.2.2]
    intro hMem
    have hKept := (Core.isSlug_strictStem _).kept _ hMem
    contradiction
  apply quiet_of_group (blank_not_mem_group hStem)
  cases hole
  all_goals simp_all

end Blanks

/-! ## Two names that tell the verdicts apart -/

/-- A name in which a signature can be read. -/
def loudKey : SourceKey := ⟨noVideoStreamSignature, Eq.refl true⟩

def quietKey : SourceKey := ⟨['~'], Eq.refl true⟩

theorem quiet_quietKey (run : Run) (hole : Hole) : Quiet (hole.value run quietKey) := by
  have hStem : ' ' ∉ groupStem quietKey.text run.kind := by
    rw [groupStem]
    split
    · decide
    · decide
  have hBlank := blank_not_mem_group hStem
  cases hole with
  | relative => exact ⟨by simp [Hole.value, quietKey], rfl, '~', rfl, by simp⟩
  | output => exact quiet_of_group hBlank (by simp)
  | scratch => exact quiet_of_group hBlank (by simp)
  | scratchColon => exact quiet_of_group hBlank (by simp)
  | produced =>
    refine ⟨?_, rfl, '.', ?_, by simp⟩
    · have hOwn : ' ' ∉ Run.stem quietKey := by decide
      simp [Hole.value, hBlank, hOwn]
    · simp [Hole.value, List.getLast?_cons]

theorem infix_loudKey {run : Run} {hole : Hole} (h : hole.spells run.kind = true) :
    noVideoStreamSignature <:+: hole.value run loudKey := by
  have hGroup : run.kind.isSpreadsheet = false → noVideoStreamSignature <:+: run.group loudKey := by
    intro hKind
    have hStem : groupStem loudKey.text run.kind = noVideoStreamSignature := by
      rw [groupStem, hKind]
      decide
    rw [Run.group, groupKey, GroupKey.text, hStem]
    exact List.infix_append_left
  cases hole with
  | relative => exact List.infix_cons (List.infix_refl _)
  | output => exact List.infix_cons (List.infix_append_of_infix_left (hGroup (by simpa [Hole.spells] using h)))
  | scratch => exact List.infix_cons (List.infix_append_of_infix_left (hGroup (by simpa [Hole.spells] using h)))
  | scratchColon => exact List.infix_cons (List.infix_append_of_infix_left (hGroup (by simpa [Hole.spells] using h)))
  | produced =>
    have hStem : Run.stem loudKey = noVideoStreamSignature := by decide
    rw [Hole.value, hStem]
    exact List.infix_cons (List.infix_append_of_infix_right (List.infix_cons List.infix_append_left))

theorem isWrongInputKindError_iff (err : Text) :
    isWrongInputKindError err ↔ ∃ signature ∈ wrongInputKindSignatures, signature <:+: err := by
  simp [isWrongInputKindError]

theorem isNonRetryableTranscodeError_iff (err : Text) :
    isNonRetryableTranscodeError err ↔ ∃ signature ∈ nonRetryableSignatures, signature <:+: err := by
  simp [isNonRetryableTranscodeError]

theorem isNonRetryableTranscodeError_of_wrongInputKind {err : Text} (h : isWrongInputKindError err) :
    isNonRetryableTranscodeError err := by
  obtain ⟨signature, hSignature, hFound⟩ := (isWrongInputKindError_iff err).mp h
  exact (isNonRetryableTranscodeError_iff err).mpr ⟨signature, mem_nonRetryableSignatures hSignature, hFound⟩

/-- The fixed text of the message says that the input is of the wrong kind. -/
def Failure.SpeaksForItself (run : Run) (failure : Failure) : Prop :=
  ∃ text ∈ runs (failure.segments run), ∃ signature ∈ wrongInputKindSignatures, signature <:+: text

/-- Nothing in the message spells the name of the input. -/
def Failure.Nameless (run : Run) (failure : Failure) : Prop :=
  ∀ hole ∈ holes (failure.segments run), hole.spells run.kind = false

theorem verdicts_of_quiet {run : Run} {failure : Failure} {key : SourceKey}
    (hQuiet : ∀ hole ∈ holes (failure.segments run), Quiet (hole.value run key)) :
    (isWrongInputKindError (failure.message run key) ↔ failure.SpeaksForItself run) ∧
      (isNonRetryableTranscodeError (failure.message run key) ↔
        ∃ signature ∈ nonRetryableSignatures, ∃ text ∈ runs (failure.segments run), signature <:+: text) := by
  rw [isWrongInputKindError_iff, isNonRetryableTranscodeError_iff]
  constructor
  · constructor
    · rintro ⟨signature, hSignature, hFound⟩
      obtain ⟨text, hText, hInfix⟩ := (infix_message_iff hQuiet (mem_nonRetryableSignatures hSignature)).mp hFound
      exact ⟨text, hText, signature, hSignature, hInfix⟩
    · rintro ⟨text, hText, signature, hSignature, hInfix⟩
      exact ⟨signature, hSignature, infix_message_of_runs hText hInfix key⟩
  · apply exists_congr
    intro signature
    apply and_congr_right
    intro hSignature
    exact infix_message_iff hQuiet hSignature

/-- Whatever the input is called, the same becomes of it: as long as the message does not spell its name, or says by itself
that the input is of the wrong kind. -/
theorem Failure.sameFate_iff (run : Run) (failure : Failure) :
    (∀ p q : SourceKey, SameFate (failure.message run p) (failure.message run q)) ↔
      failure.Nameless run ∨ failure.SpeaksForItself run := by
  constructor
  · intro hSame
    refine or_iff_not_imp_right.mpr ?_
    intro hSilent hole hHole
    rw [← Bool.not_eq_true]
    intro hSpells
    have hLoud : isWrongInputKindError (failure.message run loudKey) := by
      rw [isWrongInputKindError_iff]
      exact ⟨noVideoStreamSignature, by decide, infix_message_of_holes hHole (infix_loudKey hSpells)⟩
    have hQuiet : isWrongInputKindError (failure.message run quietKey) ↔ failure.SpeaksForItself run :=
      (verdicts_of_quiet fun hole _ => quiet_quietKey run hole).1
    rw [← (hSame loudKey quietKey).wrongInputKind] at hQuiet
    exact hSilent (hQuiet.mp hLoud)
  · rintro (hNameless | hSpeaks) p q
    · have hQuiet : ∀ key : SourceKey, ∀ hole ∈ holes (failure.segments run), Quiet (hole.value run key) :=
        fun key hole hHole => quiet_of_not_spells (hNameless hole hHole)
      obtain ⟨hWrongP, hFatalP⟩ := verdicts_of_quiet (hQuiet p)
      obtain ⟨hWrongQ, hFatalQ⟩ := verdicts_of_quiet (hQuiet q)
      apply SameFate.of_eq
      · rw [Bool.eq_iff_iff, hWrongP, hWrongQ]
      · rw [Bool.eq_iff_iff, hFatalP, hFatalQ]
    · obtain ⟨text, hText, signature, hSignature, hInfix⟩ := hSpeaks
      have hWrong : ∀ key : SourceKey, isWrongInputKindError (failure.message run key) := by
        intro key
        rw [isWrongInputKindError_iff]
        exact ⟨signature, hSignature, infix_message_of_runs hText hInfix key⟩
      have hFatal : ∀ key : SourceKey, isNonRetryableTranscodeError (failure.message run key) :=
        fun key => isNonRetryableTranscodeError_of_wrongInputKind (hWrong key)
      apply SameFate.of_eq
      · rw [hWrong p, hWrong q]
      · rw [hFatal p, hFatal q]

def videoRun : Run where
  sourceDir := "/srv/pigeon/source".toList
  scratchDir := "/srv/pigeon/scratch".toList
  sourcePath := "photos:".toList
  kind := .mp4
  digest := SourceFile.budgetDigests

/-- The disk fills up while `ffmpeg` writes. -/
def diskFull : Failure := .transcode .input [lit "No space left on device"]

def summerKey : SourceKey := ⟨"summer.mp4".toList, Eq.refl true⟩

def questionKey : SourceKey := ⟨"what if it is not a readable document.mp4".toList, Eq.refl true⟩

theorem not_sameFate_diskFull :
    diskFull.message videoRun questionKey =
        ("ffmpeg failed to transcode /srv/pigeon/source/what if it is not a readable document.mp4: ".toList ++
          "No space left on device".toList) ∧
      isWrongInputKindError (diskFull.message videoRun summerKey) = false ∧
      isNonRetryableTranscodeError (diskFull.message videoRun summerKey) = false ∧
      isWrongInputKindError (diskFull.message videoRun questionKey) = true ∧
      isNonRetryableTranscodeError (diskFull.message videoRun questionKey) = true ∧
      ¬SameFate (diskFull.message videoRun summerKey) (diskFull.message videoRun questionKey) := by
  have hSummer : isNonRetryableTranscodeError (diskFull.message videoRun summerKey) = false := by decide +kernel
  have hRelative : Hole.relative ∈ holes (diskFull.segments videoRun) := by decide
  have hQuestion : isWrongInputKindError (diskFull.message videoRun questionKey) = true := by
    rw [isWrongInputKindError_iff]
    exact ⟨notADocumentSignature, by decide, infix_message_of_holes hRelative (by decide +kernel)⟩
  have hFatal := isNonRetryableTranscodeError_of_wrongInputKind hQuestion
  refine ⟨by decide +kernel, ?_, hSummer, hQuestion, hFatal, ?_⟩
  · rw [← Bool.not_eq_true]
    intro hWrong
    rw [isNonRetryableTranscodeError_of_wrongInputKind hWrong] at hSummer
    contradiction
  · intro hSame
    rw [hSame.nonRetryable, hFatal] at hSummer
    contradiction

end Pigeon.Transform
