import Pigeon.Transform.Convert.Course

/-! # The converters in their course

A converter accepts an output only when it has looked at it: its size, its number of pixels, its length, its rows.
-/
namespace Pigeon.Transform

open Library Failing

set_option autoImplicit false

/-- A run of the tool came to a good end. -/
def Succeeds (tool : Tool) (exchanges : List Exchange) : Prop :=
  ∃ args finished, finished.success = true ∧ ⟨.run tool args, .ok finished⟩ ∈ exchanges

/-- The sizes of both were asked for, and are as many pixels where both are known. -/
def FullSize (file : Part) (exchanges : List Exchange) : Prop :=
  ∃ before after, ⟨.probeDimensions file, before⟩ ∈ exchanges ∧ ⟨.probeDimensions .output, after⟩ ∈ exchanges ∧
    ∀ size outputSize, before = some size → after = some outputSize → size.1 * size.2 = outputSize.1 * outputSize.2

/-- The same of the durations. -/
def Unshortened (exchanges : List Exchange) : Prop :=
  ∃ before after, ⟨.probeDuration .input, before⟩ ∈ exchanges ∧ ⟨.probeDuration .output, after⟩ ∈ exchanges ∧
    ∀ duration outputDuration, before = some duration → after = some outputDuration →
      Converter.isTruncatedEncode duration.seconds outputDuration.seconds = false

/-- The file was there and was not empty. -/
def Filled (file : Part) (exchanges : List Exchange) : Prop := ∃ size > 0, ⟨.stat file, .ok size⟩ ∈ exchanges

def FilledWith (ext : Text) (produced : Part) (exchanges : List Exchange) : Prop :=
  produced = .produced ext ∧ Filled produced exchanges

section Kept

variable {exchanges later : List Exchange} (hLater : exchanges ⊆ later)

include hLater

theorem Succeeds.mono {tool : Tool} (h : Succeeds tool exchanges) : Succeeds tool later := by
  obtain ⟨args, finished, hSuccess, hRun⟩ := h
  exact ⟨args, finished, hSuccess, hLater hRun⟩

theorem FullSize.mono {file : Part} (h : FullSize file exchanges) : FullSize file later := by
  obtain ⟨before, after, hBefore, hAfter, hSame⟩ := h
  exact ⟨before, after, hLater hBefore, hLater hAfter, hSame⟩

theorem Unshortened.mono (h : Unshortened exchanges) : Unshortened later := by
  obtain ⟨before, after, hBefore, hAfter, hSame⟩ := h
  exact ⟨before, after, hLater hBefore, hLater hAfter, hSame⟩

theorem Filled.mono {file : Part} (h : Filled file exchanges) : Filled file later := by
  obtain ⟨size, hSize, hStat⟩ := h
  exact ⟨size, hSize, hLater hStat⟩

end Kept

/-! ## What is seen of a workbook -/

def Action.sheet : Action → Option Text
  | .worksheetRange _ name => some name
  | _ => none

def sheetsAsked (exchanges : List Exchange) : List Text := exchanges.filterMap (·.1.sheet)

/-- What is known of a sheet that is not empty. -/
def sheetRead : Exchange → Option (Text × SheetRange)
  | ⟨.worksheetRange _ name, .ok range⟩ => if range.isEmpty then none else some (name, range)
  | _ => none

def sheetsRead (exchanges : List Exchange) : List (Text × SheetRange) := exchanges.filterMap sheetRead

theorem sheetsRead_cons (file : Part) (name : Text) (range : SheetRange) (exchanges : List Exchange) :
    sheetsRead (⟨.worksheetRange file name, .ok range⟩ :: exchanges) =
      if range.isEmpty then sheetsRead exchanges else (name, range) :: sheetsRead exchanges := by
  rw [sheetsRead, List.filterMap_cons, sheetRead]
  cases range.isEmpty
  · rfl
  · rfl

theorem sheetsRead_append (exchanges later : List Exchange) :
    sheetsRead (exchanges ++ later) = sheetsRead exchanges ++ sheetsRead later := List.filterMap_append

theorem sheetsAsked_append (exchanges later : List Exchange) :
    sheetsAsked (exchanges ++ later) = sheetsAsked exchanges ++ sheetsAsked later := List.filterMap_append

def sheetOutput (total : Nat) (entry : (Text × SheetRange) × Nat) : Converter.SheetOutput :=
  ⟨entry.2 + 1, total, entry.1.1, sheetFile (entry.2 + 1)⟩

/-- All rows of the sheet were written, and its file is not empty. -/
def SheetWritten (exchanges : List Exchange) (entry : (Text × SheetRange) × Nat) : Prop :=
  ⟨.writeRangeCsv (entry.2 + 1), .ok entry.1.2.rows⟩ ∈ exchanges ∧ Filled (sheetFile (entry.2 + 1)) exchanges

theorem SheetWritten.mono {exchanges later : List Exchange} {entry : (Text × SheetRange) × Nat} (hLater : exchanges ⊆ later)
    (h : SheetWritten exchanges entry) : SheetWritten later entry := ⟨hLater h.1, h.2.mono hLater⟩

/-- One output for each sheet that is not empty, in the order of the workbook and none left out. -/
structure Split (file : Part) (outputs : List Converter.SheetOutput) (exchanges : List Exchange) : Prop where
  small : ∃ size ≤ maxWorkbookBytes, ⟨.stat file, .ok size⟩ ∈ exchanges
  opened : ⟨.openWorkbook file, .ok (sheetsAsked exchanges)⟩ ∈ exchanges
  nonempty : sheetsRead exchanges ≠ []
  outputs : outputs = (sheetsRead exchanges).zipIdx.map (sheetOutput (sheetsRead exchanges).length)
  bounded : ∀ sheet ∈ sheetsRead exchanges, sheet.2.rows * sheet.2.columns ≤ maxSheetCells
  written : ∀ entry ∈ (sheetsRead exchanges).zipIdx, SheetWritten exchanges entry

theorem Split.of_read {file : Part} {outputs : List Converter.SheetOutput} {exchanges : List Exchange} {names : List Text}
    {ranges : List (Text × SheetRange)} (hAsked : sheetsAsked exchanges = names) (hRead : sheetsRead exchanges = ranges)
    (hSmall : ∃ size ≤ maxWorkbookBytes, ⟨.stat file, .ok size⟩ ∈ exchanges) (hOpened : ⟨.openWorkbook file, .ok names⟩ ∈ exchanges)
    (hRanges : ranges ≠ []) (hOutputs : outputs = ranges.zipIdx.map (sheetOutput ranges.length))
    (hCells : ∀ sheet ∈ ranges, sheet.2.rows * sheet.2.columns ≤ maxSheetCells)
    (hWritten : ∀ entry ∈ ranges.zipIdx, SheetWritten exchanges entry) : Split file outputs exchanges := by
  subst hAsked hRead
  exact ⟨hSmall, hOpened, hRanges, hOutputs, hCells, hWritten⟩

/-- Behind actions that look at no sheet. -/
theorem Split.append {file : Part} {outputs : List Converter.SheetOutput} {earlier later : List Exchange}
    (h : Split file outputs later) (hAsked : sheetsAsked earlier = []) (hRead : sheetsRead earlier = []) :
    Split file outputs (earlier ++ later) := by
  have hLater : later ⊆ earlier ++ later := List.subset_append_right _ _
  have hAllAsked : sheetsAsked (earlier ++ later) = sheetsAsked later := by
    rw [sheetsAsked_append, hAsked]
    rfl
  have hAllRead : sheetsRead (earlier ++ later) = sheetsRead later := by
    rw [sheetsRead_append, hRead]
    rfl
  obtain ⟨size, hSmall, hStat⟩ := h.small
  exact .of_read hAllAsked hAllRead ⟨size, hSmall, hLater hStat⟩ (hLater h.opened) h.nonempty h.outputs h.bounded
    fun entry hEntry => (h.written entry hEntry).mono hLater

/-! ## One attempt of ffmpeg -/

namespace Converter

theorem ensures_ffmpeg (file : Part) (args : List Part) :
    (ffmpeg file args).Ensures (Course [.ffmpeg] fun _ exchanges => Succeeds .ffmpeg exchanges) := by
  rw [ffmpeg, ensures_ask_bind]
  intro reply
  rw [ensures_orFail_bind]
  refine ⟨fun finished hReply => ?_, fun err _ => .failed List.prefix_rfl rfl⟩
  split
  · exact .failed List.prefix_rfl rfl
  · rename_i hSuccess
    rw [Bool.not_eq_true, Bool.not_eq_false'] at hSuccess
    exact .succeeded rfl rfl ⟨args, finished, hSuccess, hReply ▸ List.mem_singleton_self _⟩

theorem ensures_checkPixelArea (file : Part) {diagnostics : Converter Report}
    (h : diagnostics.Ensures (Course [] fun _ _ => True)) :
    (checkPixelArea file diagnostics).Ensures (Course [] fun _ exchanges => FullSize file exchanges) := by
  rw [checkPixelArea, ensures_ask_bind]
  intro before
  rw [ensures_ask_bind]
  intro after
  have hFull (hSame : ∀ size outputSize, before = some size → after = some outputSize →
      size.1 * size.2 = outputSize.1 * outputSize.2) :
      FullSize file [⟨.probeDimensions file, before⟩, ⟨.probeDimensions .output, after⟩] :=
    ⟨before, after, List.mem_cons_self, List.mem_cons_of_mem _ List.mem_cons_self, hSame⟩
  split
  · split
    · refine .bind (h.mono fun exchanges result hDiagnostics => ?_)
      cases result with
      | ok report =>
        dsimp only
        rw [ensures_throw, List.append_nil]
        exact .failed hDiagnostics.inOrder hDiagnostics.steady
      | error failure => exact .failed hDiagnostics.inOrder hDiagnostics.steady
    · rename_i size outputSize hSame
      refine .succeeded rfl rfl (hFull ?_)
      intro other otherOutput hBefore hAfter
      rw [← Option.some.inj hBefore, ← Option.some.inj hAfter]
      exact not_not.mp hSame
  · rename_i hUnknown
    refine .succeeded rfl rfl (hFull ?_)
    intro size outputSize hBefore hAfter
    exact absurd hAfter (hUnknown size outputSize hBefore)

theorem ensures_checkDuration : checkDuration.Ensures (Course [] fun _ exchanges => Unshortened exchanges) := by
  rw [checkDuration, ensures_ask_bind]
  intro before
  rw [ensures_ask_bind]
  intro after
  have hKept (hSame : ∀ duration outputDuration, before = some duration → after = some outputDuration →
      isTruncatedEncode duration.seconds outputDuration.seconds = false) :
      Unshortened [⟨.probeDuration .input, before⟩, ⟨.probeDuration .output, after⟩] :=
    ⟨before, after, List.mem_cons_self, List.mem_cons_of_mem _ List.mem_cons_self, hSame⟩
  split
  · split
    · exact .failed List.prefix_rfl rfl
    · rename_i duration outputDuration hSame
      refine .succeeded rfl rfl (hKept ?_)
      intro other otherOutput hBefore hAfter
      rw [← Option.some.inj hBefore, ← Option.some.inj hAfter]
      exact Bool.eq_false_iff.mpr hSame
  · rename_i hUnknown
    refine .succeeded rfl rfl (hKept ?_)
    intro duration outputDuration hBefore hAfter
    exact absurd hAfter (hUnknown duration outputDuration hBefore)

theorem ensures_transcodeStill (file : Part) (encodeArgs : List Text) :
    (transcodeStill file encodeArgs).Ensures
      (Course [.ffmpeg] fun produced exchanges => produced = .output ∧ Succeeds .ffmpeg exchanges ∧ FullSize file exchanges) := by
  refine Course.bind (ensures_ffmpeg _ _) fun _ => ?_
  refine Course.result (ensures_checkPixelArea file (.succeeded rfl rfl trivial)) ?_
  intro _ later hFull earlier hSucceeds
  exact ⟨rfl, hSucceeds.mono (List.subset_append_left _ _), hFull.mono (List.subset_append_right _ _)⟩

theorem ensures_transcodeVideo (quality : VideoQuality) (threads : Nat) :
    (transcodeVideo quality threads).Ensures (Course [.ffmpeg] fun produced exchanges =>
      produced = .output ∧ Succeeds .ffmpeg exchanges ∧ FullSize .input exchanges ∧ Unshortened exchanges) := by
  rw [transcodeVideo, ensures_ask_bind]
  intro hasVideoStream
  rw [ensures_unless]
  refine ⟨fun _ => .failed List.nil_prefix rfl, fun _ => ?_⟩
  refine Course.after [_] [] rfl rfl (Course.bind (ensures_ffmpeg _ _) fun _ => ?_)
  refine Course.bind (ensures_checkPixelArea .input fun report => .succeeded rfl rfl trivial) fun _ => ?_
  refine Course.result ensures_checkDuration ?_
  intro _ later hKept middle hFull earlier hSucceeds
  refine ⟨rfl, hSucceeds.mono ?_, hFull.mono ?_, hKept.mono ?_⟩
  all_goals
    intro exchange hExchange
    simp [hExchange]

theorem ensures_transcodeAudio (quality : AudioQuality) :
    (transcodeAudio quality).Ensures
      (Course [.ffmpeg] fun produced exchanges => produced = .output ∧ Succeeds .ffmpeg exchanges ∧ Unshortened exchanges) := by
  rw [transcodeAudio, ensures_ask_bind]
  intro hasVideoStream
  rw [ensures_unless]
  refine ⟨fun _ => .failed List.nil_prefix rfl, fun _ => ?_⟩
  refine Course.after [_] [] rfl rfl (Course.bind (ensures_ffmpeg _ _) fun _ => ?_)
  refine Course.result ensures_checkDuration ?_
  intro _ later hKept earlier hSucceeds
  refine ⟨rfl, hSucceeds.mono ?_, hKept.mono ?_⟩
  all_goals
    intro exchange hExchange
    simp [hExchange]

/-! ## Documents -/

/-- So many bytes of the file were found, if it was there. -/
theorem filled_of_size {file : Part} {reply : Except Report Nat} {exchanges : List Exchange} (h : 0 < reply.toOption.getD 0)
    (hStat : ⟨.stat file, reply⟩ ∈ exchanges) : Filled file exchanges := by
  cases reply with
  | ok size => exact ⟨size, h, hStat⟩
  | error err => exact absurd h (Nat.lt_irrefl 0)

theorem ensures_convert (key : SourceKey) (file : Part) (targetExt signature : Text) :
    (convert key file targetExt signature).Ensures (Course [.soffice] fun produced exchanges =>
      FilledWith targetExt produced exchanges ∧ sheetsAsked exchanges = [] ∧ sheetsRead exchanges = []) := by
  rw [convert, ensures_ask_bind]
  intro created
  rw [ensures_orFail_bind]
  refine ⟨fun _ _ => ?_, fun err _ => .failed List.nil_prefix rfl⟩
  rw [ensures_ask_bind]
  intro reply
  rw [ensures_orFail_bind]
  refine ⟨fun finished hReply => ?_, fun err _ => .failed List.prefix_rfl rfl⟩
  split
  · exact .failed List.prefix_rfl rfl
  · dsimp only
    rw [ensures_unless]
    refine ⟨fun _ => .failed List.prefix_rfl rfl, fun _ => ?_⟩
    rw [ensures_size_bind]
    intro found
    split
    · rename_i hFound
      exact .succeeded rfl rfl ⟨⟨rfl, filled_of_size hFound (by simp)⟩, rfl, rfl⟩
    · rw [ensures_unless]
      exact ⟨fun _ => .failed List.prefix_rfl rfl, fun _ => .failed List.prefix_rfl rfl⟩

theorem ensures_converted (key : SourceKey) (file : Part) (targetExt : Text) :
    (convert key file targetExt notADocumentSignature).Ensures (Course [.soffice] (FilledWith targetExt)) :=
  (ensures_convert key file targetExt notADocumentSignature).mono fun _ _ hCourse => hCourse.mono fun _ hGood => hGood.1

theorem ensures_ensureKeynote :
    ensureKeynote.Ensures (Course [] fun _ exchanges => exchanges = [⟨.readHeader, .ok zipMagic⟩]) := by
  rw [ensureKeynote, ensures_ask_bind]
  intro reply
  rw [ensures_orFail_bind]
  refine ⟨fun header hReply => ?_, fun err _ => .failed List.nil_prefix rfl⟩
  split
  · exact .failed List.nil_prefix rfl
  · rename_i hMagic
    rw [hReply, not_not.mp hMagic]
    exact .succeeded rfl rfl rfl

theorem ensures_toPdf (key : SourceKey) (kind : InputFileType) :
    (toPdf key kind).Ensures (Course [.soffice] (FilledWith "pdf".toList)) := by
  rw [toPdf]
  split
  · refine Course.bind ensures_ensureKeynote fun _ => ?_
    refine (ensures_converted _ _ _).mono fun later result hCourse => hCourse.mono ?_
    intro produced hProduced earlier _
    exact ⟨hProduced.1, hProduced.2.mono (List.subset_append_right _ _)⟩
  · exact ensures_converted _ _ _

theorem ensures_epsToSvg (key : SourceKey) :
    (epsToSvg key).Ensures (Course [.gs, .soffice] fun produced exchanges =>
      FilledWith "svg".toList produced exchanges ∧ Filled (.produced "pdf".toList) exchanges ∧
        ∃ text, Svg.svgDrawsSomething text ∧ ⟨.readText produced, .ok text⟩ ∈ exchanges) := by
  rw [epsToSvg, ensures_ask_bind]
  intro created
  rw [ensures_orFail_bind]
  refine ⟨fun _ _ => ?_, fun err _ => .failed List.nil_prefix rfl⟩
  dsimp only
  rw [ensures_unless]
  refine ⟨fun _ => .failed List.nil_prefix rfl, fun _ => ?_⟩
  rw [ensures_ask_bind]
  intro reply
  rw [ensures_orFail_bind]
  refine ⟨fun finished hReply => ?_, fun err _ => .failed ⟨[.soffice], rfl⟩ rfl⟩
  split
  · exact .failed ⟨[.soffice], rfl⟩ rfl
  · rw [ensures_size_bind]
    intro found
    rw [ensures_unless]
    refine ⟨fun _ => .failed ⟨[.soffice], rfl⟩ rfl, fun hFound => ?_⟩
    have hSize : 0 < found.toOption.getD 0 := by
      simp only [Bool.or_eq_true, beq_iff_eq, not_or] at hFound
      exact Nat.pos_of_ne_zero hFound.2
    refine Course.after [_, _, _] [.gs] rfl rfl ?_
    rw [← List.append_nil [Tool.soffice]]
    refine Course.bind (ensures_converted _ _ _) fun svg => ?_
    rw [ensures_ask_bind]
    intro read
    rw [ensures_orFail_bind]
    refine ⟨fun text hRead => ?_, fun err _ => .failed List.nil_prefix rfl⟩
    rw [ensures_unless]
    refine ⟨fun _ => .failed List.nil_prefix rfl, fun hDraws => .succeeded rfl rfl fun earlier hSvg => ?_⟩
    rw [Bool.not_eq_true, Bool.not_eq_false'] at hDraws
    refine ⟨⟨hSvg.1, hSvg.2.mono ?_⟩, ?_, text, hDraws, ?_⟩
    · intro exchange hExchange
      simp [hExchange]
    · exact filled_of_size hSize (by simp)
    · simp [hRead]

theorem ensures_epubToPdf (key : SourceKey) : (epubToPdf key).Ensures (Course [.ebookConvert] (FilledWith "pdf".toList)) := by
  rw [epubToPdf, ensures_ask_bind]
  intro created
  rw [ensures_orFail_bind]
  refine ⟨fun _ _ => ?_, fun err _ => .failed List.nil_prefix rfl⟩
  dsimp only
  rw [ensures_unless]
  refine ⟨fun _ => .failed List.nil_prefix rfl, fun _ => ?_⟩
  rw [ensures_ask_bind]
  intro reply
  rw [ensures_orFail_bind]
  refine ⟨fun finished _ => ?_, fun err _ => .failed List.prefix_rfl rfl⟩
  rw [ensures_size_bind]
  intro found
  split
  · rename_i hFound
    exact .succeeded rfl rfl ⟨rfl, filled_of_size hFound (by simp)⟩
  · exact .failed List.prefix_rfl rfl

theorem ensures_markupToText (reader : Text) : (markupToText reader).Ensures (Course [.pandoc] fun produced exchanges =>
    produced = .output ∧ Succeeds .pandoc exchanges ∧ ∃ size, ⟨.stat .output, .ok size⟩ ∈ exchanges) := by
  rw [markupToText, ensures_ask_bind]
  intro reply
  rw [ensures_orFail_bind]
  refine ⟨fun finished hReply => ?_, fun err _ => .failed List.prefix_rfl rfl⟩
  dsimp only
  rw [ensures_unless]
  refine ⟨fun _ => .failed List.prefix_rfl rfl, fun hSuccess => ?_⟩
  rw [Bool.not_eq_true, Bool.not_eq_false'] at hSuccess
  rw [ensures_size_bind]
  intro found
  rw [ensures_unless]
  refine ⟨fun _ => .failed List.prefix_rfl rfl, fun hFound => .succeeded rfl rfl ⟨rfl, ?_, ?_⟩⟩
  · subst hReply
    exact ⟨_, finished, hSuccess, List.mem_cons_self⟩
  · cases found with
    | ok size => exact ⟨size, by simp⟩
    | error err => exact absurd rfl hFound

end Converter

/-! ## Workbooks -/

namespace Converter

theorem ensures_readSheets (file : Part) (names : List Text) :
    (readSheets file names).Ensures (Course [] fun kept exchanges =>
      sheetsAsked exchanges = names ∧ sheetsRead exchanges = kept ∧ ∀ sheet ∈ kept, sheet.2.rows * sheet.2.columns ≤ maxSheetCells) := by
  induction names with
  | nil => exact .succeeded rfl rfl ⟨rfl, rfl, nofun⟩
  | cons name names ih =>
    rw [readSheets, ensures_ask_bind]
    intro reply
    rw [ensures_orFail_bind]
    refine ⟨fun range hReply => ?_, fun err _ => .failed List.nil_prefix rfl⟩
    subst hReply
    split
    · rename_i hEmpty
      refine Course.after [_] [] rfl rfl (ih.mono fun exchanges result hCourse => hCourse.mono ?_)
      rintro kept ⟨hAsked, hRead, hCells⟩
      refine ⟨congrArg _ hAsked, ?_, hCells⟩
      rw [List.singleton_append, sheetsRead_cons, if_pos hEmpty, hRead]
    · rename_i hFilled
      dsimp only
      rw [ensures_unless]
      refine ⟨fun _ => .failed List.nil_prefix rfl, fun hBound => ?_⟩
      refine Course.after [_] [] rfl rfl (Course.result ih ?_)
      rintro kept exchanges ⟨hAsked, hRead, hCells⟩
      refine ⟨congrArg _ hAsked, ?_, ?_⟩
      · rw [List.singleton_append, sheetsRead_cons, if_neg hFilled, hRead]
      · exact List.forall_mem_cons.mpr ⟨Nat.le_of_not_gt hBound, hCells⟩

theorem ensures_writeSheets (file : Part) (total position : Nat) (ranges : List (Text × SheetRange)) :
    (writeSheets file total position ranges).Ensures (Course [] fun outputs exchanges =>
      sheetsAsked exchanges = [] ∧ sheetsRead exchanges = [] ∧ outputs = (ranges.zipIdx position).map (sheetOutput total) ∧
        ∀ entry ∈ ranges.zipIdx position, SheetWritten exchanges entry) := by
  induction ranges generalizing position with
  | nil => exact .succeeded rfl rfl ⟨rfl, rfl, rfl, nofun⟩
  | cons sheet ranges ih =>
    rw [writeSheets, ensures_ask_bind]
    intro reply
    rw [ensures_orFail_bind]
    refine ⟨fun writtenRows hReply => ?_, fun err _ => .failed List.nil_prefix rfl⟩
    subst hReply
    dsimp only
    rw [ensures_unless]
    refine ⟨fun _ => .failed List.nil_prefix rfl, fun hRows => ?_⟩
    rw [ensures_size_bind]
    intro found
    rw [ensures_unless]
    refine ⟨fun _ => .failed List.nil_prefix rfl, fun hFound => ?_⟩
    refine Course.after [_, _] [] rfl rfl (Course.result (ih (position + 1)) ?_)
    rintro outputs exchanges ⟨hAsked, hRead, hOutputs, hWritten⟩
    refine ⟨hAsked, hRead, congrArg _ hOutputs, ?_⟩
    rw [List.zipIdx_cons, List.forall_mem_cons]
    constructor
    · refine ⟨?_, filled_of_size (Nat.pos_of_ne_zero hFound) ?_⟩
      · rw [not_not.mp hRows]
        exact List.mem_cons_self
      · exact List.mem_cons_of_mem _ List.mem_cons_self
    · exact fun entry hEntry => (hWritten entry hEntry).mono (List.subset_append_right _ _)

theorem ensures_splitWorkbook (file : Part) : (splitWorkbook file).Ensures (Course [] (Split file)) := by
  rw [splitWorkbook, ensures_ask_bind]
  intro stat
  rw [ensures_orFail_bind]
  refine ⟨fun size hStat => ?_, fun err _ => .failed List.nil_prefix rfl⟩
  dsimp only
  rw [ensures_unless]
  refine ⟨fun _ => .failed List.nil_prefix rfl, fun hSmall => ?_⟩
  rw [ensures_ask_bind]
  intro created
  rw [ensures_orFail_bind]
  refine ⟨fun _ _ => ?_, fun err _ => .failed List.nil_prefix rfl⟩
  rw [ensures_ask_bind]
  intro opened
  rw [ensures_orFail_bind]
  refine ⟨fun names hOpened => ?_, fun err _ => .failed List.nil_prefix rfl⟩
  subst hStat hOpened
  refine Course.after [_, _, _] [] rfl rfl (Course.bind (ensures_readSheets file names) fun ranges => ?_)
  rw [ensures_unless]
  refine ⟨fun _ => .failed List.nil_prefix rfl, fun hRanges => ?_⟩
  rw [← List.append_nil []]
  refine Course.bind (ensures_writeSheets file _ 0 ranges) fun outputs => ?_
  rw [ensures_unless]
  refine ⟨fun _ => .failed List.nil_prefix rfl, fun _ => .succeeded rfl rfl ?_⟩
  rintro writing ⟨hNoneAsked, hNoneRead, hOutputs, hWritten⟩ reading ⟨hAsked, hRead, hCells⟩
  rw [Bool.not_eq_true, List.isEmpty_eq_false_iff] at hRanges
  have hAllAsked : sheetsAsked (reading ++ (writing ++ [])) = names := by
    rw [sheetsAsked_append, sheetsAsked_append, hAsked, hNoneAsked]
    exact List.append_nil names
  have hAllRead : sheetsRead (reading ++ (writing ++ [])) = ranges := by
    rw [sheetsRead_append, sheetsRead_append, hRead, hNoneRead]
    exact List.append_nil ranges
  refine .of_read hAllAsked hAllRead ?_ ?_ hRanges hOutputs hCells ?_
  · exact ⟨size, Nat.le_of_not_gt hSmall, List.mem_cons_self⟩
  · simp
  · intro entry hEntry
    refine (hWritten entry hEntry).mono ?_
    intro exchange hExchange
    simp [hExchange]

end Converter

end Pigeon.Transform
