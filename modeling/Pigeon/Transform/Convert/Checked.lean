import Pigeon.Transform.Convert.Converters
import Pigeon.Transform.Convert.Guards
import Pigeon.Transform.Isolation

/-! # What a conversion does and never does

Whatever the tools answer: which of them run and how often, what has to be known before one runs, and what is known of the outputs
that are accepted.
-/
namespace Pigeon.Transform

open Library Failing

set_option autoImplicit false

/-! ## Two attempts -/

theorem append_prefix_pair {α : Type} {a : α} {first second : List α} (hFirst : first <+: [a]) (hSecond : second <+: [a]) :
    first ++ second <+: [a, a] := by
  rw [List.prefix_cons_iff] at hFirst
  obtain rfl | ⟨rest, rfl, hRest⟩ := hFirst
  · exact hSecond.trans ⟨[a], rfl⟩
  · rw [List.prefix_nil.mp hRest]
    exact (List.prefix_cons_inj a).mpr hSecond

/-- A success is that of the last attempt; a failure that another attempt may mend comes behind the second one. -/
structure Retried {α : Type} (fatal : Failure → Bool) (backoff : Nat) (good : α → List Exchange → Prop) (exchanges : List Exchange)
    (result : Except Failure α) : Prop where
  inOrder : toolsRun exchanges <+: [.ffmpeg, .ffmpeg]
  paused : pauses exchanges <+: [backoff]
  good : ∀ value, result = .ok value → ∃ earlier last, exchanges = earlier ++ last ∧ toolsRun last = [.ffmpeg] ∧ good value last
  repeated : ∀ failure, result = .error failure → fatal failure = true ∨ pauses exchanges = [backoff]

theorem Attempts.retried {α : Type} {fatal : Failure → Bool} {backoff : Nat} {good : α → List Exchange → Prop}
    {exchanges : List Exchange} {result : Except Failure α} (h : Attempts fatal backoff (Course [.ffmpeg] good) 0 1 exchanges result) :
    Retried fatal backoff good exchanges result := by
  cases h with
  | last h hLast =>
    rename_i last
    rw [show pause backoff 0 ++ last = last from rfl]
    constructor
    · exact h.inOrder.trans ⟨[.ffmpeg], rfl⟩
    · rw [h.steady]
      exact List.nil_prefix
    · exact fun value hValue => ⟨[], last, rfl, h.complete value hValue, h.good value hValue⟩
    · exact fun failure hFailure => (hLast failure hFailure).imp_right (absurd · Nat.one_ne_zero)
  | again h hAgain hLater =>
    rename_i first later failure
    cases hLater with
    | last hSecond hLast =>
      rename_i second
      have hTools : toolsRun (first ++ (pause backoff 1 ++ second)) = toolsRun first ++ toolsRun second := by
        rw [toolsRun_append, toolsRun_append]
        rfl
      have hPauses : pauses (first ++ (pause backoff 1 ++ second)) = [backoff] := by
        rw [pauses_append, pauses_append, h.steady, hSecond.steady]
        exact congrArg (fun secs => [secs]) (Nat.mul_one backoff)
      constructor
      · rw [show pause backoff 0 ++ (first ++ (pause backoff 1 ++ second)) = first ++ (pause backoff 1 ++ second) from rfl, hTools]
        exact append_prefix_pair h.inOrder hSecond.inOrder
      · exact hPauses ▸ List.prefix_rfl
      · intro value hValue
        refine ⟨first ++ pause backoff 1, second, ?_, hSecond.complete value hValue, hSecond.good value hValue⟩
        rw [List.append_assoc]
        rfl
      · exact fun _ _ => .inr hPauses

/-! ## One input -/

namespace InputFileType

/-- The kinds that `ffmpeg` converts, and that are tried twice. -/
def isTranscoded : InputFileType → Bool
  | .avif | .tif | .tiff | .webp | .bmp | .ico | .icns | .png | .heic => true
  | kind => kind.isVideo || kind.isAudio

/-- The tools in the order in which they may be run. -/
def tools : InputFileType → List Tool
  | .eps => [.gs, .soffice]
  | .ai | .emz | .doc | .docx | .pages | .rtf | .pptx | .key | .numbers => [.soffice]
  | .epub => [.ebookConvert]
  | .md | .rst => [.pandoc]
  | kind => if kind.isTranscoded then [.ffmpeg, .ffmpeg] else []

end InputFileType

/-- The last attempt is such. -/
def LastAttempt (good : List Exchange → Prop) (exchanges : List Exchange) : Prop :=
  ∃ earlier last, exchanges = earlier ++ last ∧ toolsRun last = [.ffmpeg] ∧ Succeeds .ffmpeg last ∧ good last

/-- What is known of the output of a kind that has one. -/
def Verified (produced : Part) (exchanges : List Exchange) : InputFileType → Prop
  | .jpeg | .pdf | .txt | .svg => produced = .output ∧ exchanges = [⟨.copy, .ok ()⟩]
  | .avif | .tif | .tiff | .webp | .bmp | .ico | .png | .heic => produced = .output ∧ LastAttempt (FullSize .input) exchanges
  | .icns => produced = .output ∧ ∃ entry, ⟨.extractLargest, .ok entry⟩ ∈ exchanges ∧
      LastAttempt (FullSize (.scratchFile entry)) exchanges
  | .mov | .m4v | .mp4 => produced = .output ∧ LastAttempt (fun last => FullSize .input last ∧ Unshortened last) exchanges
  | .mp4Audio | .m4a | .mp3 | .aac | .wav | .opus => produced = .output ∧ LastAttempt Unshortened exchanges
  | .procreate | .procreate2 => produced = .output ∧ exchanges = [⟨.inProcess .exportPng, .ok ()⟩]
  | .ics => produced = .output ∧ exchanges = [⟨.inProcess .icsToText, .ok ()⟩]
  | .vcf => produced = .output ∧ exchanges = [⟨.inProcess .vcfToText, .ok ()⟩]
  | .textclipping => produced = .output ∧ exchanges = [⟨.inProcess .clippingToText, .ok ()⟩]
  | .tsv => produced = .output ∧ exchanges = [⟨.inProcess .tsvToCsv, .ok ()⟩]
  | .ai | .emz => FilledWith "svg".toList produced exchanges
  | .eps => FilledWith "svg".toList produced exchanges ∧ Filled (.produced "pdf".toList) exchanges ∧
      ∃ text, Svg.svgDrawsSomething text ∧ ⟨.readText produced, .ok text⟩ ∈ exchanges
  | .doc | .docx | .pages | .rtf | .pptx | .key | .epub => FilledWith "pdf".toList produced exchanges
  | .md | .rst => produced = .output ∧ Succeeds .pandoc exchanges ∧ ∃ size, ⟨.stat .output, .ok size⟩ ∈ exchanges
  | .numbers | .xlsx | .xls | .csv => produced = .output ∧ exchanges = [⟨.copy, .ok ()⟩]

/-- Only what may succeed a second time is tried a second time, behind one pause. -/
structure Orderly {α : Type} (kind : InputFileType) (fatal : Failure → Bool) (good : α → List Exchange → Prop)
    (exchanges : List Exchange) (result : Except Failure α) : Prop where
  inOrder : toolsRun exchanges <+: kind.tools
  complete : kind.isTranscoded = false → ∀ value, result = .ok value → toolsRun exchanges = kind.tools
  paused : pauses exchanges <+: if kind.isTranscoded then [transcodeRetryBackoff] else []
  repeated : kind.isTranscoded → ∀ failure, result = .error failure →
    fatal failure ∨ pauses exchanges = [transcodeRetryBackoff] ∨ exchanges = [⟨.extractLargest, .error failure⟩]
  good : ∀ value, result = .ok value → good value exchanges

section Orderly

variable {α β : Type} {kind : InputFileType} {fatal : Failure → Bool} {good : α → List Exchange → Prop} {exchanges : List Exchange}
  {result : Except Failure α}

theorem Course.orderly (h : Course kind.tools good exchanges result) (hKind : kind.isTranscoded = false) :
    Orderly kind fatal good exchanges result where
  inOrder := h.inOrder
  complete _ := h.complete
  paused := by
    rw [h.steady]
    exact List.nil_prefix
  repeated hTranscoded := absurd hTranscoded (Bool.eq_false_iff.mp hKind)
  good := h.good

theorem Retried.orderly {lastGood : α → List Exchange → Prop} (h : Retried fatal transcodeRetryBackoff lastGood exchanges result)
    (hKind : kind.isTranscoded) (hTools : kind.tools = [.ffmpeg, .ffmpeg])
    (hGood : ∀ value earlier last, toolsRun last = [.ffmpeg] → lastGood value last → good value (earlier ++ last)) :
    Orderly kind fatal good exchanges result where
  inOrder := hTools ▸ h.inOrder
  complete hOnce := absurd hKind (Bool.eq_false_iff.mp hOnce)
  paused := by
    rw [if_pos hKind]
    exact h.paused
  repeated _ failure hFailure := (h.repeated failure hFailure).imp_right .inl
  good value hValue := by
    obtain ⟨earlier, last, rfl, hLast, hLastGood⟩ := h.good value hValue
    exact hGood value earlier last hLast hLastGood

theorem Orderly.bind_pure {f : Converter β} {g : β → α} {middleGood : β → List Exchange → Prop}
    (h : f.Ensures (Orderly kind fatal middleGood)) (hGood : ∀ middle exchanges, middleGood middle exchanges → good (g middle) exchanges) :
    (f >>= fun middle => pure (g middle)).Ensures (Orderly kind fatal good) := by
  refine .bind (h.mono fun exchanges result hOrderly => ?_)
  cases result with
  | error failure =>
    refine ⟨hOrderly.inOrder, fun _ => nofun, hOrderly.paused, fun hKind other hOther => ?_, nofun⟩
    exact hOrderly.repeated hKind other (congrArg _ (Except.error.inj hOther))
  | ok middle =>
    show Orderly kind fatal good (exchanges ++ []) (.ok (g middle))
    rw [List.append_nil]
    refine ⟨hOrderly.inOrder, fun hOnce _ _ => hOrderly.complete hOnce middle rfl, hOrderly.paused, fun _ => nofun, ?_⟩
    exact fun value hValue => Except.ok.inj hValue ▸ hGood middle exchanges (hOrderly.good middle rfl)

end Orderly

namespace Run

variable (run : Run) (key : SourceKey)

theorem ensures_transcoded {f : Converter Part} {good : Part → List Exchange → Prop} (h : f.Ensures (Course [.ffmpeg] good)) :
    (run.transcoded key f).Ensures (Retried (run.isFatal key) transcodeRetryBackoff good) :=
  (ensures_retryFrom h 0 1).mono fun _ _ hAttempts => hAttempts.retried

theorem ensures_inProcess (task : Task) :
    (inProcess task).Ensures (Course [] fun produced exchanges => produced = .output ∧ exchanges = [⟨.inProcess task, .ok ()⟩]) := by
  rw [inProcess, ensures_ask_bind]
  intro reply
  rw [ensures_orFail_bind]
  refine ⟨fun _ hReply => ?_, fun failure _ => .failed List.nil_prefix rfl⟩
  subst hReply
  exact .succeeded rfl rfl ⟨rfl, rfl⟩

theorem ensures_copyThrough :
    Converter.copyThrough.Ensures (Course [] fun produced exchanges => produced = .output ∧ exchanges = [⟨.copy, .ok ()⟩]) := by
  rw [Converter.copyThrough, ensures_ask_bind]
  intro reply
  rw [ensures_orFail_bind]
  refine ⟨fun _ hReply => ?_, fun failure _ => .failed List.nil_prefix rfl⟩
  subst hReply
  exact .succeeded rfl rfl ⟨rfl, rfl⟩

theorem ensures_still (file : Part) (encodeArgs : List Text) {kind : InputFileType} (hKind : kind.isTranscoded)
    (hTools : kind.tools = [.ffmpeg, .ffmpeg]) :
    (run.transcoded key (Converter.transcodeStill file encodeArgs)).Ensures (Orderly kind (run.isFatal key)
      fun produced exchanges => produced = .output ∧ LastAttempt (FullSize file) exchanges) := by
  refine (run.ensures_transcoded key (Converter.ensures_transcodeStill file encodeArgs)).mono fun exchanges result hRetried => ?_
  refine hRetried.orderly hKind hTools ?_
  rintro produced earlier last hLast ⟨hProduced, hSucceeds, hFull⟩
  exact ⟨hProduced, earlier, last, rfl, hLast, hSucceeds, hFull⟩

theorem ensures_film (settings : Settings) {kind : InputFileType} (hKind : kind.isTranscoded)
    (hTools : kind.tools = [.ffmpeg, .ffmpeg]) :
    (run.transcoded key (Converter.transcodeVideo settings.videoQuality settings.transcodeThreads)).Ensures
      (Orderly kind (run.isFatal key) fun produced exchanges =>
        produced = .output ∧ LastAttempt (fun last => FullSize .input last ∧ Unshortened last) exchanges) := by
  refine (run.ensures_transcoded key (Converter.ensures_transcodeVideo _ _)).mono fun exchanges result hRetried => ?_
  refine hRetried.orderly hKind hTools ?_
  rintro produced earlier last hLast ⟨hProduced, hSucceeds, hKept⟩
  exact ⟨hProduced, earlier, last, rfl, hLast, hSucceeds, hKept⟩

theorem ensures_sound (settings : Settings) {kind : InputFileType} (hKind : kind.isTranscoded)
    (hTools : kind.tools = [.ffmpeg, .ffmpeg]) :
    (run.transcoded key (Converter.transcodeAudio settings.audioQuality)).Ensures
      (Orderly kind (run.isFatal key) fun produced exchanges => produced = .output ∧ LastAttempt Unshortened exchanges) := by
  refine (run.ensures_transcoded key (Converter.ensures_transcodeAudio _)).mono fun exchanges result hRetried => ?_
  refine hRetried.orderly hKind hTools ?_
  rintro produced earlier last hLast ⟨hProduced, hSucceeds, hKept⟩
  exact ⟨hProduced, earlier, last, rfl, hLast, hSucceeds, hKept⟩

theorem ensures_icon (settings : Settings) :
    (run.produce key settings .icns).Ensures
      (Orderly .icns (run.isFatal key) fun produced exchanges => Verified produced exchanges .icns) := by
  rw [produce, ensures_ask_bind]
  intro reply
  rw [ensures_orFail_bind]
  constructor
  · rintro entry rfl
    refine (run.ensures_transcoded key (Converter.ensures_transcodeStill (.scratchFile entry) _)).mono fun exchanges result hRetried => ?_
    constructor
    · exact hRetried.inOrder
    · intro hOnce
      cases hOnce
    · exact hRetried.paused
    · exact fun _ failure hFailure => (hRetried.repeated failure hFailure).imp_right .inl
    · intro produced hProduced
      obtain ⟨earlier, last, rfl, hLast, hOutput, hSucceeds, hFull⟩ := hRetried.good produced hProduced
      exact ⟨hOutput, entry, List.mem_cons_self, _ :: earlier, last, rfl, hLast, hSucceeds, hFull⟩
  · rintro failure rfl
    constructor
    · exact List.nil_prefix
    · intro hOnce
      cases hOnce
    · exact List.nil_prefix
    · intro _ other hSame
      rw [← Except.error.inj hSame]
      exact .inr (.inr rfl)
    · intro produced hProduced
      cases hProduced

theorem ensures_produce (settings : Settings) (kind : InputFileType) (hKind : kind.isSpreadsheet = false) :
    (run.produce key settings kind).Ensures
      (Orderly kind (run.isFatal key) fun produced exchanges => Verified produced exchanges kind) := by
  have hOnce {f : Converter Part} {good : Part → List Exchange → Prop} (h : f.Ensures (Course kind.tools good))
      (hOnce : kind.isTranscoded = false) : f.Ensures (Orderly kind (run.isFatal key) good) :=
    h.mono fun _ _ hCourse => hCourse.orderly hOnce
  cases kind
  case jpeg | pdf | txt | svg => exact hOnce ensures_copyThrough rfl
  case avif | tif | tiff | webp | bmp | ico | png | heic => exact ensures_still run key .input _ rfl rfl
  case icns => exact ensures_icon run key settings
  case procreate | procreate2 | ics | vcf | textclipping | tsv => exact hOnce (ensures_inProcess _) rfl
  case ai | emz => exact hOnce (Converter.ensures_converted _ _ _) rfl
  case eps => exact hOnce (Converter.ensures_epsToSvg _) rfl
  case mov | m4v | mp4 => exact ensures_film run key settings rfl rfl
  case mp4Audio | m4a | mp3 | aac | wav | opus => exact ensures_sound run key settings rfl rfl
  case doc | docx | pages | rtf | pptx | key =>
    rw [produce]
    exact hOnce (Converter.ensures_toPdf key _) rfl
  case epub => exact hOnce (Converter.ensures_epubToPdf _) rfl
  case md | rst => exact hOnce (Converter.ensures_markupToText _) rfl
  case numbers | xlsx | xls | csv => cases hKind

end Run

namespace Run

variable (run : Run) (key : SourceKey)

def sheetDestination (sheet : Converter.SheetOutput) : Text :=
  if sheet.total = 1 then run.singleName key
  else sheetDestinationName (run.group key) sheet.index sheet.total sheet.sheetName run.kind

inductive Accepted (exchanges : List Exchange) : List PendingOutput → Prop where
  | single {produced : Part} (hKind : run.kind.isSpreadsheet = false ∨ run.kind = .csv) (h : Verified produced exchanges run.kind) :
    Accepted exchanges [⟨run.singleName key, produced⟩]
  | workbook {file : Part} {sheets : List Converter.SheetOutput}
    (hFile : run.kind = .numbers ∧ FilledWith "xlsx".toList file exchanges ∨ (run.kind = .xlsx ∨ run.kind = .xls) ∧ file = .input)
    (hSplit : Split file sheets exchanges) :
    Accepted exchanges (sheets.map fun sheet => ⟨run.sheetDestination key sheet, sheet.path⟩)

theorem ensures_convertSpreadsheet (hKind : run.kind.isSpreadsheet) :
    (run.convertSpreadsheet key).Ensures (Course run.kind.tools fun outputs exchanges => run.Accepted key exchanges outputs) := by
  rw [convertSpreadsheet]
  split
  · rename_i hCsv
    rw [show run.kind.tools = [] by rw [hCsv]; rfl]
    refine Course.result ensures_copyThrough fun copied exchanges hCopied => ?_
    refine .single (.inr hCsv) ?_
    rw [hCsv]
    exact hCopied
  · rename_i hNotCsv
    dsimp only
    split
    · rename_i hNumbers
      rw [show run.kind.tools = [.soffice] ++ [] by rw [hNumbers]; rfl]
      refine Course.bind (Converter.ensures_convert _ _ _ _) fun workbook => ?_
      refine Course.result (Converter.ensures_splitWorkbook workbook) ?_
      rintro sheets later hSplit earlier ⟨hFilled, hAsked, hRead⟩
      refine .workbook (.inl ⟨hNumbers, hFilled.1, hFilled.2.mono (List.subset_append_left _ _)⟩) ?_
      exact hSplit.append hAsked hRead
    · rename_i hNotNumbers
      have hWorkbook : run.kind = .xlsx ∨ run.kind = .xls := by
        revert hKind hNotCsv hNotNumbers
        cases run.kind <;> decide
      rw [show run.kind.tools = [] by obtain hXlsx | hXls := hWorkbook <;> simp only [*] <;> rfl]
      refine Course.result (Converter.ensures_splitWorkbook .input) fun sheets exchanges hSplit => ?_
      exact .workbook (.inr ⟨hWorkbook, rfl⟩) hSplit

/-- The order of the tools, the second attempt and what is known of the outputs, all in one. -/
theorem ensures_convertOne (settings : Settings) :
    (run.convertOne key settings).Ensures
      (Orderly run.kind (run.isFatal key) fun outputs exchanges => run.Accepted key exchanges outputs) := by
  rw [convertOne]
  split
  · rename_i hKind
    refine (run.ensures_convertSpreadsheet key hKind).mono fun _ _ hCourse => hCourse.orderly ?_
    revert hKind
    cases run.kind <;> decide
  · rename_i hKind
    rw [Bool.not_eq_true] at hKind
    refine Orderly.bind_pure (run.ensures_produce key settings run.kind hKind) fun produced exchanges hVerified => ?_
    exact .single (.inl hKind) hVerified

/-- The file that the run converts, with the sheets that were read. -/
structure Converts (file : SourceFile) (exchanges : List Exchange) : Prop where
  sourcePath : file.sourcePath = run.sourcePath
  relativePath : file.relativePath = key.text
  kind : file.kind = run.kind
  sheets : file.workbook.sheets = (sheetsRead exchanges).map Prod.fst

theorem Accepted.names {run : Run} {key : SourceKey} {exchanges : List Exchange} {outputs : List PendingOutput}
    (h : run.Accepted key exchanges outputs) {file : SourceFile} (hFile : run.Converts key file exchanges) :
    outputs.map PendingOutput.destinationName = file.outputs run.digest := by
  have hSingle : computeDestinationName run.digest file.sourcePath file.relativePath file.kind = run.singleName key := by
    rw [hFile.sourcePath, hFile.relativePath, hFile.kind, singleName]
  have hGroup : (file.group run.digest).text = run.group key := by
    rw [SourceFile.group, hFile.sourcePath, hFile.relativePath, hFile.kind, group]
  rw [SourceFile.outputs, hSingle, hGroup, hFile.kind]
  cases h with
  | single hKind hVerified =>
    obtain hKind | hCsv := hKind
    · rw [if_neg (Bool.eq_false_iff.mp hKind)]
      rfl
    · rw [hCsv]
      rfl
  | workbook hWorkbook hSplit =>
    have hSpreadsheet : run.kind.isSpreadsheet ∧ run.kind ≠ .csv := by
      obtain ⟨hNumbers, -⟩ | ⟨hXlsx | hXls, -⟩ := hWorkbook <;> simp only [*] <;> decide
    rw [if_pos hSpreadsheet.1, Transform.convertSpreadsheet, if_neg hSpreadsheet.2, hFile.sheets, hSplit.outputs, List.length_map,
      List.zipIdx_map, List.map_map, List.map_map, List.map_map]
    rfl

/-- What holds of a conversion, whatever the tools answer. -/
structure Safe (exchanges : List Exchange) (result : Except Failure (List PendingOutput)) : Prop extends
    Orderly run.kind (run.isFatal key) (fun outputs exchanges => run.Accepted key exchanges outputs) exchanges result where
  named : ∀ outputs, result = .ok outputs → ∀ file, run.Converts key file exchanges →
    outputs.map PendingOutput.destinationName = file.outputs run.digest
  filmed : run.kind.isVideo → Talk.SaidBehind (· = ⟨.hasVideoStream, true⟩) UsesTool exchanges
  recorded : run.kind.isAudio → Talk.SaidBehind (· = ⟨.hasVideoStream, false⟩) UsesTool exchanges
  sniffed : run.kind = .key → Talk.SaidBehind (· = ⟨.readHeader, .ok Converter.zipMagic⟩) UsesTool exchanges
  interpreted : run.kind = .eps → Talk.SaidBehind Interpreted (fun action => action.tool = some .soffice) exchanges
  drawn : run.kind = .eps → Talk.SaidBehind (fun exchange => ∃ size > 0, exchange = ⟨.stat (.produced "pdf".toList), .ok size⟩)
    (fun action => action.tool = some .soffice) exchanges
  bounded : run.kind = .xlsx ∨ run.kind = .xls →
    Talk.SaidBehind (fun exchange => ∃ size ≤ maxWorkbookBytes, exchange = ⟨.stat .input, .ok size⟩) (· = .openWorkbook .input) exchanges

end Run

end Pigeon.Transform
