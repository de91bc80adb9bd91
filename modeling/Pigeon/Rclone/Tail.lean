import Pigeon.Rclone.Log

/-! # Polling says what one read of the log says

Each poll handles a batch of lines that are ended, and the batches make up the log, wherever its growth was
cut. What a tailer reports is a sum over the lines of a batch, so it is a sum over the lines of the log.
-/
namespace Pigeon.Rclone

open Library

set_option autoImplicit false

/-- What a raw line of the log says, if it can be read. -/
def readLine (parse : Text → Option RcloneLogLine) (line : Text) : Option RcloneLogLine :=
  if Text.trim line = [] then none else parse (Text.trim line)

def isErrorLine (parse : Text → Option RcloneLogLine) (line : Text) : Bool :=
  (readLine parse line).any fun parsed => eqIgnoreAsciiCase parsed.level "error".toList

def totals (parse : Text → Option RcloneLogLine) (cumulative : RcloneLogSummary) (lines : List Text) : RcloneLogSummary :=
  (lines.filterMap (readLine parse)).foldl RcloneLogTailer.countLine cumulative

def copied (parse : Text → Option RcloneLogLine) (lines : List Text) : List Text :=
  (lines.filterMap (readLine parse)).filterMap RcloneLogTailer.copiedObject

def errorLines (parse : Text → Option RcloneLogLine) (lines : List Text) : Nat := lines.countP (isErrorLine parse)

def repeats (collapsed : List CollapsedErrorSummary) : Nat := (collapsed.map CollapsedErrorSummary.repeated).sum

/-- The counters of a delta, with the totals they belong to. -/
def counters : List ((TailDelta → Nat) × (RcloneLogSummary → Nat)) :=
  [(TailDelta.transferred, RcloneLogSummary.transferred), (TailDelta.errors, RcloneLogSummary.errors),
    (TailDelta.bytes, RcloneLogSummary.bytes), (TailDelta.deletes, RcloneLogSummary.deletes)]

def logStats (parse : Text → Option RcloneLogLine) (lines : List Text) : List RcloneStats :=
  (lines.filterMap (readLine parse)).filterMap RcloneLogLine.stats

def RcloneStats.le (stats later : RcloneStats) : Prop :=
  stats.transfers ≤ later.transfers ∧ stats.errors ≤ later.errors ∧ stats.bytes ≤ later.bytes ∧
    stats.deletes ≤ later.deletes

section Sums

variable {parse : Text → Option RcloneLogLine} {first second : List Text} {cumulative : RcloneLogSummary}

theorem totals_append (first second : List Text) (cumulative : RcloneLogSummary) :
    totals parse cumulative (first ++ second) = totals parse (totals parse cumulative first) second := by
  rw [totals, List.filterMap_append, List.foldl_append]
  rfl

theorem copied_append (first second : List Text) :
    copied parse (first ++ second) = copied parse first ++ copied parse second := by
  rw [copied, List.filterMap_append, List.filterMap_append]
  rfl

theorem errorLines_append (first second : List Text) :
    errorLines parse (first ++ second) = errorLines parse first + errorLines parse second := List.countP_append

theorem repeats_append (first second : List CollapsedErrorSummary) :
    repeats (first ++ second) = repeats first + repeats second := by
  rw [repeats, List.map_append, List.sum_append]
  rfl

/-- The totals do not fall anywhere on the way through the lines. -/
def Rises (parse : Text → Option RcloneLogLine) (cumulative : RcloneLogSummary) (lines : List Text) : Prop :=
  ∀ first middle last, lines = first ++ (middle ++ last) → ∀ counter ∈ counters,
    counter.2 (totals parse cumulative first) ≤ counter.2 (totals parse cumulative (first ++ middle))

theorem Rises.le (h : Rises parse cumulative first) :
    ∀ counter ∈ counters, counter.2 cumulative ≤ counter.2 (totals parse cumulative first) :=
  h [] first [] (List.append_nil first).symm

theorem Rises.left (h : Rises parse cumulative (first ++ second)) : Rises parse cumulative first := by
  intro before middle last hSplit
  apply h before middle (last ++ second)
  rw [hSplit, List.append_assoc, List.append_assoc]

theorem Rises.right (h : Rises parse cumulative (first ++ second)) :
    Rises parse (totals parse cumulative first) second := by
  intro before middle last hSplit
  rw [← totals_append, ← totals_append, ← List.append_assoc]
  apply h (first ++ before) middle last
  rw [hSplit, List.append_assoc]

end Sums

namespace RcloneLogTailer

variable {parse : Text → Option RcloneLogLine} {t : RcloneLogTailer}

/-- The error lines that are taken into account: passed on, or counted in the streak that is still running. -/
def accounted (t : RcloneLogTailer) : Nat :=
  t.logged.length + (t.currentStreak.map fun streak => streak.count - 1).getD 0

theorem flushErrorStreak_spec (t : RcloneLogTailer) :
    t.flushErrorStreak.1 = { t with currentStreak := none } ∧
      t.flushErrorStreak.1.logged.length + repeats t.flushErrorStreak.2.toList = t.accounted := by
  rw [flushErrorStreak.eq_def, accounted]
  cases hStreak : t.currentStreak with
  | none =>
    refine ⟨?_, rfl⟩
    change t = { t with currentStreak := none }
    rw [← hStreak]
  | some streak =>
    refine ⟨rfl, ?_⟩
    dsimp only
    split
    · rename_i hOnce
      have hNone : streak.count - 1 = 0 := by omega
      rw [Option.map_some, Option.getD_some, hNone]
      rfl
    · rfl

theorem recordError_spec (t : RcloneLogTailer) (key : Option Text) (cause : Text) :
    (t.recordError key cause).1 =
        { t with currentStreak := (t.recordError key cause).1.currentStreak
                 logged := (t.recordError key cause).1.logged } ∧
      (t.recordError key cause).1.accounted + repeats (t.recordError key cause).2.toList = t.accounted + 1 := by
  rw [recordError.eq_def]
  cases hStreak : t.currentStreak with
  | none =>
    refine ⟨rfl, ?_⟩
    simp [accounted, hStreak, repeats]
  | some streak =>
    dsimp only
    split
    · refine ⟨rfl, ?_⟩
      have hPos := streak.count_pos
      simp only [accounted, hStreak, Option.map_some, Option.getD_some, repeats, Option.toList_none, List.map_nil,
        List.sum_nil]
      omega
    · obtain ⟨hFlushed, hCount⟩ := t.flushErrorStreak_spec
      rw [hFlushed] at hCount ⊢
      refine ⟨rfl, ?_⟩
      simp only [accounted, Option.map_some, Option.getD_some, List.length_append, List.length_singleton] at hCount ⊢
      omega

/-- What a tailer comes to over some lines. -/
structure Handles (parse : Text → Option RcloneLogLine) (t s : RcloneLogTailer) (collapsed : List CollapsedErrorSummary)
    (lines : List Text) : Prop where
  cumulative : s.cumulative = totals parse t.cumulative lines
  pendingCopied : s.pendingCopied = t.pendingCopied ++ copied parse lines
  accounted : s.accounted + repeats collapsed = t.accounted + errorLines parse lines
  offset : s.offset = t.offset
  partialLine : s.partialLine = t.partialLine

theorem processLine_handles (parse : Text → Option RcloneLogLine) (t : RcloneLogTailer) (line : Text) :
    Handles parse t (t.processLine parse (Text.trim line)).1 (t.processLine parse (Text.trim line)).2.toList [line] := by
  have hLine : readLine parse line = if Text.trim line = [] then none else parse (Text.trim line) := rfl
  rw [processLine.eq_def]
  split
  · rename_i hEmpty
    rw [if_pos hEmpty] at hLine
    exact ⟨by simp [totals, hLine], by simp [copied, hLine], by simp [errorLines, isErrorLine, hLine, repeats], rfl, rfl⟩
  · rename_i hInk
    rw [if_neg hInk] at hLine
    cases hParse : parse (Text.trim line) with
    | none =>
      rw [hParse] at hLine
      exact ⟨by simp [totals, hLine], by simp [copied, hLine], by simp [errorLines, isErrorLine, hLine, repeats], rfl, rfl⟩
    | some parsed =>
      rw [hParse] at hLine
      have hTotals : totals parse t.cumulative [line] = countLine t.cumulative parsed := by simp [totals, hLine]
      have hCopied : copied parse [line] = (copiedObject parsed).toList := by
        cases hObject : copiedObject parsed <;> simp [copied, hLine, hObject]
      have hErrors : errorLines parse [line] = if eqIgnoreAsciiCase parsed.level "error".toList then 1 else 0 := by
        simp [errorLines, isErrorLine, hLine, List.countP_singleton]
      dsimp only
      split
      · rename_i hError
        obtain ⟨hSame, hCount⟩ := recordError_spec
          { t with cumulative := countLine t.cumulative parsed
                   pendingCopied := t.pendingCopied ++ (copiedObject parsed).toList } parsed.object parsed.msg
        rw [if_pos hError] at hErrors
        refine ⟨?_, ?_, ?_, ?_, ?_⟩
        · rw [hSame, hTotals]
        · rw [hSame, hCopied]
        · rw [hCount, hErrors]
          rfl
        · rw [hSame]
        · rw [hSame]
      · rename_i hOther
        rw [if_neg hOther] at hErrors
        exact ⟨hTotals.symm, by rw [hCopied], by rw [hErrors]; rfl, rfl, rfl⟩

theorem processLines_handles (parse : Text → Option RcloneLogLine) (t : RcloneLogTailer) (lines : List Text) :
    Handles parse t (t.processLines parse lines).1 (t.processLines parse lines).2 lines := by
  rw [processLines]
  induction lines using List.reverseRecOn with
  | nil => exact ⟨rfl, (List.append_nil _).symm, rfl, rfl, rfl⟩
  | append_singleton lines line ih =>
    rw [List.foldl_append, List.foldl_cons, List.foldl_nil]
    generalize lines.foldl _ _ = before at ih ⊢
    have hLine := processLine_handles parse before.1 line
    dsimp only at ih hLine ⊢
    refine ⟨?_, ?_, ?_, ?_, ?_⟩
    · rw [hLine.cumulative, ih.cumulative, totals_append]
    · rw [hLine.pendingCopied, ih.pendingCopied, copied_append, List.append_assoc]
    · have hHere := hLine.accounted
      have hBefore := ih.accounted
      rw [repeats_append, errorLines_append]
      omega
    · rw [hLine.offset, ih.offset]
    · rw [hLine.partialLine, ih.partialLine]

/-- The tailer has read the text, has nothing to report, and carries its open line. -/
structure Tracks (t : RcloneLogTailer) (text : Text) : Prop where
  offset : t.offset = (Utf8.encode text).length
  partialLine : t.partialLine = Text.openLine text
  settled : t.currentStreak = none
  reported : t.pendingCopied = []

/-- What a tailer reports over some lines, in any number of polls. -/
structure Reports (parse : Text → Option RcloneLogLine) (t s : RcloneLogTailer) (deltas : List TailDelta)
    (lines : List Text) : Prop where
  cumulative : s.cumulative = totals parse t.cumulative lines
  copied : deltas.flatMap TailDelta.copiedObjects = copied parse lines
  errors : s.logged.length + repeats (deltas.flatMap TailDelta.collapsedRepeats) =
    t.logged.length + errorLines parse lines
  sums : Rises parse t.cumulative lines → ∀ counter ∈ counters,
    (deltas.map counter.1).sum + counter.2 t.cumulative = counter.2 s.cumulative

theorem Reports.append {s u : RcloneLogTailer} {first second : List TailDelta} {lines later : List Text}
    (h : Reports parse t s first lines) (hLater : Reports parse s u second later) :
    Reports parse t u (first ++ second) (lines ++ later) where
  cumulative := by rw [hLater.cumulative, h.cumulative, totals_append]
  copied := by rw [List.flatMap_append, h.copied, hLater.copied, copied_append]
  errors := by
    have hFirst := h.errors
    have hSecond := hLater.errors
    rw [List.flatMap_append, repeats_append, errorLines_append]
    omega
  sums hRises counter hCounter := by
    have hFirst := h.sums hRises.left counter hCounter
    have hSecond := hLater.sums (h.cumulative ▸ hRises.right) counter hCounter
    rw [List.map_append, List.sum_append]
    omega

theorem flushOnlyDelta_of_tracks {text : Text} (h : Tracks t text) : t.flushOnlyDelta = (t, {}) := by
  obtain ⟨offset, partialLine, cumulative, currentStreak, step, pendingCopied, logged⟩ := t
  obtain ⟨-, -, rfl, rfl⟩ := h
  rfl

theorem reports_nothing : Reports parse t t [{}] [] where
  cumulative := rfl
  copied := rfl
  errors := rfl
  sums _ counter hCounter := by
    simp only [counters, List.mem_cons, List.not_mem_nil, or_false] at hCounter
    obtain rfl | rfl | rfl | rfl := hCounter <;> simp

theorem poll_spec (parse : Text → Option RcloneLogLine) {text : Text} (rest : List UInt8) (h : Tracks t text) :
    Tracks (t.poll parse (some (Utf8.encode text ++ rest))).1 (text ++ (Utf8.decode rest).getD []) ∧
      Reports parse t (t.poll parse (some (Utf8.encode text ++ rest))).1 [(t.poll parse (some (Utf8.encode text ++ rest))).2]
        (Text.completeLines (Text.openLine text ++ (Utf8.decode rest).getD [])) := by
  have hDrop : (Utf8.encode text ++ rest).drop t.offset = rest := by rw [h.offset, List.drop_left]
  have hQuiet : Tracks t (text ++ []) ∧ Reports parse t t [{}] (Text.completeLines (Text.openLine text ++ [])) := by
    rw [List.append_nil, List.append_nil, Text.completeLines_openLine]
    exact ⟨h, reports_nothing⟩
  rw [poll.eq_def, Option.bind_some, hDrop]
  cases hDecode : Utf8.decode rest with
  | none =>
    dsimp only
    rw [flushOnlyDelta_of_tracks h]
    exact hQuiet
  | some buf =>
    dsimp only
    rw [Option.getD_some]
    split
    · rename_i hEmpty
      rw [hEmpty, flushOnlyDelta_of_tracks h]
      exact hQuiet
    · have hPartial : (if (t.partialLine ++ buf).getLast? = some '\n' then []
          else ((t.partialLine ++ buf).splitOn '\n').getLastD []) = Text.openLine (text ++ buf) := by
        rw [h.partialLine, Text.openLine_append]
        split
        · rename_i hEnded
          exact (Text.openLine_of_getLast? hEnded).symm
        · rfl
      have hLines : ((t.partialLine ++ buf).splitOn '\n').dropLast = Text.completeLines (Text.openLine text ++ buf) := by
        rw [h.partialLine]
        rfl
      rw [hPartial, hLines]
      have hHandles := processLines_handles parse { t with partialLine := Text.openLine (text ++ buf) }
        (Text.completeLines (Text.openLine text ++ buf))
      generalize processLines parse { t with partialLine := Text.openLine (text ++ buf) }
        (Text.completeLines (Text.openLine text ++ buf)) = handled at hHandles ⊢
      obtain ⟨s, collapsed⟩ := handled
      obtain ⟨hFlushed, hCount⟩ := flushErrorStreak_spec { s with offset := s.offset + Text.byteLength buf }
      dsimp only at hHandles ⊢
      rw [hFlushed] at hCount ⊢
      refine ⟨⟨?_, hHandles.partialLine, rfl, rfl⟩, ⟨hHandles.cumulative, ?_, ?_, ?_⟩⟩
      · dsimp only
        rw [hHandles.offset, Utf8.encode_append, List.length_append, Utf8.length_encode buf, ← h.offset]
      · rw [List.flatMap_singleton, hHandles.pendingCopied, h.reported, List.nil_append]
      · have hTaken := hHandles.accounted
        have hBefore : accounted { t with partialLine := Text.openLine (text ++ buf) } = t.logged.length := by
          simp [accounted, h.settled]
        have hSame : accounted { s with offset := s.offset + Text.byteLength buf } = s.accounted := rfl
        dsimp only at hCount
        rw [List.flatMap_singleton, repeats_append]
        dsimp only
        omega
      · intro hRises counter hCounter
        have hUp := hRises.le counter hCounter
        rw [← hHandles.cumulative] at hUp
        simp only [counters, List.mem_cons, List.not_mem_nil, or_false] at hCounter
        obtain rfl | rfl | rfl | rfl := hCounter <;> simpa using Nat.sub_add_cancel hUp

theorem pollAll_cons (t : RcloneLogTailer) (file growth : List UInt8) (readable : Bool)
    (later : List (List UInt8 × Bool)) :
    t.pollAll parse file ((growth, readable) :: later) =
      (((t.poll parse (if readable then some (file ++ growth) else none)).1.pollAll parse (file ++ growth) later).1,
        (t.poll parse (if readable then some (file ++ growth) else none)).2 ::
          ((t.poll parse (if readable then some (file ++ growth) else none)).1.pollAll parse (file ++ growth) later).2) :=
  rfl

theorem pollAll_concat (t : RcloneLogTailer) (file : List UInt8) (growths : List (List UInt8 × Bool))
    (last : List UInt8) :
    t.pollAll parse file (growths ++ [(last, true)]) =
      (((t.pollAll parse file growths).1.poll parse (some (file ++ growths.flatMap Prod.fst ++ last))).1,
        (t.pollAll parse file growths).2 ++
          [((t.pollAll parse file growths).1.poll parse (some (file ++ growths.flatMap Prod.fst ++ last))).2]) := by
  induction growths generalizing t file with
  | nil => simp [pollAll]
  | cons growth growths ih =>
    obtain ⟨new, readable⟩ := growth
    rw [List.cons_append, pollAll_cons, pollAll_cons, ih, List.flatMap_cons]
    simp only [List.append_assoc, List.cons_append]

theorem poll_any (parse : Text → Option RcloneLogLine) {text : Text} {bytes : List UInt8} (h : Tracks t text)
    (hBytes : Utf8.encode text <+: bytes)
    (readable : Bool) :
    ∃ buf, Utf8.encode (text ++ buf) <+: bytes ∧
      Tracks (t.poll parse (if readable then some bytes else none)).1 (text ++ buf) ∧
        Reports parse t (t.poll parse (if readable then some bytes else none)).1
          [(t.poll parse (if readable then some bytes else none)).2]
          (Text.completeLines (Text.openLine text ++ buf)) := by
  obtain ⟨rest, rfl⟩ := hBytes
  cases readable with
  | false =>
    have hQuiet : t.poll parse none = (t, {}) := flushOnlyDelta_of_tracks h
    rw [if_neg Bool.false_ne_true, hQuiet]
    refine ⟨[], ?_, ?_, ?_⟩
    · rw [List.append_nil]
      exact List.prefix_append _ _
    · rw [List.append_nil]
      exact h
    · rw [List.append_nil, Text.completeLines_openLine]
      exact reports_nothing
  | true =>
    refine ⟨(Utf8.decode rest).getD [], ?_, poll_spec parse rest h⟩
    rw [Utf8.encode_append, List.prefix_append_right_inj]
    cases hDecode : Utf8.decode rest with
    | none => exact List.nil_prefix
    | some buf =>
      rw [Option.getD_some, Utf8.encode_of_decode hDecode]

theorem pollAll_spec (parse : Text → Option RcloneLogLine) {text : Text} {file : List UInt8} (h : Tracks t text)
    (hFile : Utf8.encode text <+: file)
    (growths : List (List UInt8 × Bool)) :
    ∃ more, Utf8.encode (text ++ more) <+: file ++ growths.flatMap Prod.fst ∧
      Tracks (t.pollAll parse file growths).1 (text ++ more) ∧
        Reports parse t (t.pollAll parse file growths).1 (t.pollAll parse file growths).2
          (Text.completeLines (Text.openLine text ++ more)) := by
  induction growths generalizing t text file with
  | nil =>
    refine ⟨[], by simpa using hFile, by simpa [pollAll] using h, ?_⟩
    rw [List.append_nil, Text.completeLines_openLine]
    exact ⟨rfl, rfl, rfl, fun _ counter _ => Nat.zero_add _⟩
  | cons growth growths ih =>
    obtain ⟨new, readable⟩ := growth
    obtain ⟨buf, hRead, hTracks, hReports⟩ := poll_any parse h (hFile.trans (List.prefix_append file new)) readable
    obtain ⟨more, hMore, hLast, hLater⟩ := ih hTracks hRead
    refine ⟨buf ++ more, ?_, ?_, ?_⟩
    · rw [← List.append_assoc, List.flatMap_cons, ← List.append_assoc]
      exact hMore
    · rw [← List.append_assoc]
      exact hLast
    · rw [← List.append_assoc, Text.completeLines_append, ← Text.openLine_append]
      exact hReports.append hLater

theorem new_tracks (step : Text) : Tracks (new step) [] := ⟨rfl, rfl, rfl, rfl⟩

theorem pollAll_whole (parse : Text → Option RcloneLogLine) {log : Text} {growths : List (List UInt8 × Bool)} {last : List UInt8}
    (step : Text) (hLog : growths.flatMap Prod.fst ++ last = Utf8.encode log) :
    Reports parse (new step) ((new step).pollAll parse [] (growths ++ [(last, true)])).1
      ((new step).pollAll parse [] (growths ++ [(last, true)])).2 (Text.completeLines log) := by
  have hNothing : Utf8.encode [] <+: ([] : List UInt8) := List.nil_prefix
  obtain ⟨text, ⟨rest, hRead⟩, hTracks, hReports⟩ := pollAll_spec parse (new_tracks step) hNothing growths
  rw [List.nil_append, List.nil_append] at hRead
  rw [← hRead, List.append_assoc] at hLog
  obtain ⟨unread, rfl, hUnread⟩ := Utf8.exists_rest hLog
  have hPoll := (poll_spec parse (rest ++ last) hTracks).2
  rw [hUnread, Utf8.decode_encode, Option.getD_some] at hPoll
  have hBytes : [] ++ growths.flatMap Prod.fst ++ last = Utf8.encode ([] ++ text) ++ Utf8.encode unread := by
    rw [List.nil_append, List.nil_append, ← hRead, List.append_assoc, hUnread]
  rw [pollAll_concat, hBytes, Text.completeLines_append]
  exact hReports.append hPoll

theorem once_whole (parse : Text → Option RcloneLogLine) (log step : Text) :
    Reports parse (new step) ((new step).poll parse (some (Utf8.encode log))).1
      [((new step).poll parse (some (Utf8.encode log))).2] (Text.completeLines log) := by
  have hPoll := (poll_spec parse (Utf8.encode log) (new_tracks step)).2
  rw [Utf8.decode_encode] at hPoll
  exact hPoll

/-! ## Stats that do not fall -/

def counts (cumulative : RcloneLogSummary) : RcloneStats where
  bytes := cumulative.bytes
  transfers := cumulative.transferred
  errors := cumulative.errors
  deletes := cumulative.deletes

theorem counts_countLine (cumulative : RcloneLogSummary) (parsed : RcloneLogLine) :
    counts (countLine cumulative parsed) = parsed.stats.getD (counts cumulative) := by
  rw [countLine]
  cases parsed.stats <;> dsimp only <;> split <;> rfl

theorem counts_totals (parse : Text → Option RcloneLogLine) (cumulative : RcloneLogSummary) (lines : List Text) :
    counts (totals parse cumulative lines) ∈ counts cumulative :: logStats parse lines := by
  rw [totals, logStats]
  generalize lines.filterMap (readLine parse) = parsed
  induction parsed generalizing cumulative with
  | nil => exact List.mem_cons_self
  | cons line parsed ih =>
    have hRest := ih (countLine cumulative line)
    rw [counts_countLine] at hRest
    rw [List.foldl_cons]
    cases hStats : line.stats with
    | none =>
      rw [List.filterMap_cons_none hStats]
      rwa [hStats] at hRest
    | some stats =>
      rw [List.filterMap_cons_some hStats]
      rw [hStats] at hRest
      exact List.mem_cons_of_mem _ hRest

theorem le_counters {cumulative later : RcloneLogSummary} (h : (counts cumulative).le (counts later)) :
    ∀ counter ∈ counters, counter.2 cumulative ≤ counter.2 later := by
  obtain ⟨hTransferred, hErrors, hBytes, hDeletes⟩ := h
  simp only [counters, List.forall_mem_cons]
  exact ⟨hTransferred, hErrors, hBytes, hDeletes, fun _ hMem => absurd hMem List.not_mem_nil⟩

theorem rises_of_pairwise {lines : List Text} (h : (logStats parse lines).Pairwise RcloneStats.le) :
    Rises parse {} lines := by
  intro first middle last hSplit
  have hStart : ∀ stats : RcloneStats, (counts {}).le stats := fun stats =>
    ⟨Nat.zero_le _, Nat.zero_le _, Nat.zero_le _, Nat.zero_le _⟩
  have hParts : logStats parse lines = logStats parse first ++ (logStats parse middle ++ logStats parse last) := by
    rw [hSplit]
    simp only [logStats, List.filterMap_append]
  rw [hParts] at h
  rw [totals_append]
  apply le_counters
  obtain hKept | hRead := List.mem_cons.mp (counts_totals parse (totals parse {} first) middle)
  · rw [hKept]
    exact ⟨le_rfl, le_rfl, le_rfl, le_rfl⟩
  · obtain hZero | hBefore := List.mem_cons.mp (counts_totals parse {} first)
    · rw [hZero]
      exact hStart _
    · exact (List.pairwise_append.mp h).2.2 _ hBefore _ (List.mem_append_left _ hRead)

/-- However the log of rclone grows between the polls, and whether a poll can read it or not: with a last poll
behind the growth the reports are those of one poll over the whole log. -/
theorem polls_agree (parse : Text → Option RcloneLogLine) (step : Text) {log : Text}
    {growths : List (List UInt8 × Bool)} {last : List UInt8}
    (hLog : growths.flatMap Prod.fst ++ last = Utf8.encode log) :
    let polled := (new step).pollAll parse [] (growths ++ [(last, true)])
    let once := (new step).poll parse (some (Utf8.encode log))
    polled.2.flatMap TailDelta.copiedObjects = once.2.copiedObjects ∧ polled.1.summary = once.1.summary ∧
      ((logStats parse (Text.completeLines log)).Pairwise RcloneStats.le →
        ∀ counter ∈ counters, (polled.2.map counter.1).sum = counter.2 polled.1.summary) ∧
      polled.1.logged.length + repeats (polled.2.flatMap TailDelta.collapsedRepeats) =
        errorLines parse (Text.completeLines log) := by
  intro polled once
  have hPolled : Reports parse (new step) polled.1 polled.2 (Text.completeLines log) := pollAll_whole parse step hLog
  have hOnce : Reports parse (new step) once.1 [once.2] (Text.completeLines log) := once_whole parse log step
  refine ⟨?_, ?_, fun hStats counter hCounter => ?_, ?_⟩
  · rw [hPolled.copied, ← hOnce.copied, List.flatMap_singleton]
  · rw [summary, hPolled.cumulative, summary, hOnce.cumulative]
  · have hZero : counter.2 (new step).cumulative = 0 := by
      simp only [counters, List.mem_cons, List.not_mem_nil, or_false] at hCounter
      obtain rfl | rfl | rfl | rfl := hCounter <;> rfl
    rw [summary, ← hPolled.sums (rises_of_pairwise hStats) counter hCounter, hZero, Nat.add_zero]
  · rw [hPolled.errors]
    exact Nat.zero_add _

def copiedLine : Text := "\x7b\"level\":\"info\",\"msg\":\"Copied (new)\",\"object\":\"é.png\"\x7d".toList

def parseCopiedLine (line : Text) : Option RcloneLogLine :=
  if line = copiedLine then some ⟨"info".toList, "Copied (new)".toList, some "é.png".toList, none⟩ else none

/-- The log is cut between the two bytes of a character. -/
theorem polls_agree_copied_line :
    let log := copiedLine ++ ['\n']
    let growths := [((Utf8.encode log).take 48, true), ([], false)]
    Utf8.decode ((Utf8.encode log).take 48) = none ∧
      ((new "transfer".toList).pollAll parseCopiedLine [] (growths ++ [((Utf8.encode log).drop 48, true)])).2.flatMap
          TailDelta.copiedObjects =
        ((new "transfer".toList).poll parseCopiedLine (some (Utf8.encode log))).2.copiedObjects := by
  intro log growths
  refine ⟨by decide +kernel, (polls_agree parseCopiedLine "transfer".toList ?_).1⟩
  simp [growths]

end RcloneLogTailer

end Pigeon.Rclone
