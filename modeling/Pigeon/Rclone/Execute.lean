import Mathlib.Order.Basic
import Pigeon.Rclone.Command
import Pigeon.Rclone.Tail

/-! # A streamed run of rclone

While rclone runs its log is polled at every tick; each delta goes to the counters and to whoever listens for copied
objects, and now and then the totals are logged. After the exit the log is polled once more. What the counters,
the listener, the progress lines and the result say is the same account of the log.
-/
namespace Pigeon.Rclone

open Library

set_option autoImplicit false

/-- The totals of a progress line: transferred, errors, bytes. -/
abbrev Progress := Nat × Nat × Nat

def progressEveryPolls : Nat := 6

inductive StreamEvent where
  | grow (bytes : List UInt8)
  | tick (readable : Bool)
  /-- The listener drops its end of the channel. -/
  | hangUp
deriving DecidableEq, Repr

namespace StreamEvent

def growth : StreamEvent → List UInt8
  | grow bytes => bytes
  | tick _ | hangUp => []

def isTick : StreamEvent → Bool
  | tick _ => true
  | grow _ | hangUp => false

end StreamEvent

/-- What a subprocess does after its start. -/
structure Child where
  events : List StreamEvent := []
  status : Except Text ExitStatus
  /-- Whether the poll after the exit can read the log. -/
  lastReadable : Bool := true
  stdout : List UInt8 := []
  stderr : Text := []

/-- What an invocation depends on apart from its command. -/
structure Host where
  /-- On failure the directory and the cause. -/
  createLogDir : Except (Text × Text) Unit := .ok ()
  rcloneConfigPath : Except Text Text
  /-- What the subprocess does that is called with these arguments. -/
  rclone : List Text → Except Text Child

def TailDelta.isEmpty (delta : TailDelta) : Bool :=
  delta.transferred == 0 && delta.errors == 0 && delta.bytes == 0 && delta.deletes == 0

def emitDeltaMetrics (labels : Labels) (delta : TailDelta) : List Increment :=
  if delta.isEmpty then []
  else
    (if delta.transferred > 0 then [(.phase labels.job labels.step labels.successOutcome, delta.transferred)] else []) ++
      (if delta.deletes > 0 then [(.phase labels.job labels.step labels.successOutcome, delta.deletes)] else []) ++
      (if delta.errors > 0 then [(.phase labels.job labels.step "failed".toList, delta.errors)] else []) ++
      (if !labels.uploadMetrics then []
      else
        (if delta.bytes > 0 then [(.uploadBytes labels.job, delta.bytes)] else []) ++
          (if delta.transferred > 0 then [(.uploadOutcomes labels.job "uploaded".toList, delta.transferred)] else []) ++
          (if delta.errors > 0 then [(.uploadOutcomes labels.job "failed".toList, delta.errors)] else []))

def RcloneLogSummary.progress (summary : RcloneLogSummary) : Progress :=
  (summary.transferred, summary.errors, summary.bytes)

/-- A streamed run that is under way. -/
structure Streamed where
  file : List UInt8 := []
  tailer : RcloneLogTailer
  listening : Bool
  increments : List Increment := []
  received : List Text := []
  collapsed : List CollapsedErrorSummary := []
  pollsSinceProgress : Nat := 0
  lastProgress : Option Progress := none
  progress : List Progress := []

namespace Streamed

def start (labels : Labels) (hooks : StreamHooks) : Streamed where
  tailer := .new labels.step
  listening := hooks.onCopied

/-- One poll, its metrics and the objects it forwards. -/
def poll (parse : Text → Option RcloneLogLine) (labels : Labels) (s : Streamed) (readable : Bool) : Streamed :=
  let (tailer, delta) := s.tailer.poll parse (if readable then some s.file else none)
  { s with
    tailer
    increments := s.increments ++ emitDeltaMetrics labels delta
    received := if s.listening then s.received ++ delta.copiedObjects else s.received
    collapsed := s.collapsed ++ delta.collapsedRepeats }

def reportProgress (s : Streamed) : Streamed :=
  if s.pollsSinceProgress + 1 ≥ progressEveryPolls then
    if s.lastProgress ≠ some s.tailer.summary.progress then
      { s with
        pollsSinceProgress := 0
        lastProgress := some s.tailer.summary.progress
        progress := s.progress ++ [s.tailer.summary.progress] }
    else { s with pollsSinceProgress := 0 }
  else { s with pollsSinceProgress := s.pollsSinceProgress + 1 }

def step (parse : Text → Option RcloneLogLine) (labels : Labels) (s : Streamed) : StreamEvent → Streamed
  | .grow bytes => { s with file := s.file ++ bytes }
  | .tick readable => (s.poll parse labels readable).reportProgress
  | .hangUp => { s with listening := false }

def after (parse : Text → Option RcloneLogLine) (labels : Labels) (hooks : StreamHooks) (events : List StreamEvent) : Streamed :=
  events.foldl (step parse labels) (start labels hooks)

end Streamed

/-- What an invocation leaves behind. -/
structure Executed (Output : Type) where
  increments : List Increment := []
  received : List Text := []
  progress : List Progress := []
  result : Except Text Output

variable {Output : Type}

def executeStreamed (parse : Text → Option RcloneLogLine) (command : RcloneCommand Output) (hooks : StreamHooks)
    (spawned : Except Text Child) : Executed Output :=
  match spawned with
  | .error err => { result := .error ("failed to run rclone: ".toList ++ err) }
  | .ok child =>
    let s := Streamed.after parse command.labels hooks child.events
    match child.status with
    | .error err =>
      { increments := s.increments, received := s.received, progress := s.progress
        result := .error ("failed to run rclone: ".toList ++ err) }
    | .ok status =>
      let last := s.poll parse command.labels child.lastReadable
      let finished := command.finish
        { exitCode := status, success := status.success, stdout := [], stderr := child.stderr, log := last.tailer.summary }
      { increments := last.increments ++ finished.1, received := last.received, progress := last.progress
        result := finished.2 }

def executeOneShot (command : RcloneCommand Output) (spawned : Except Text Child) : Executed Output :=
  match spawned.bind fun child => child.status.map fun status => (child, status) with
  | .error err => { result := .error ("failed to run rclone: ".toList ++ err) }
  | .ok (child, status) =>
    let finished := command.finish
      { exitCode := status, success := status.success, stdout := child.stdout, stderr := child.stderr, log := {} }
    { increments :=
        (.phase command.labels.job command.labels.step (if status.success then command.labels.successOutcome else "failed".toList), 1) ::
          finished.1
      result := finished.2 }

def argv (command : RcloneCommand Output) (config : Text) : List Text :=
  command.args ++ ["--retries".toList, "5".toList, "--low-level-retries".toList, "20".toList] ++
    (command.logPath.elim [] fun logPath =>
      (if command.observe = .oneShot then [] else ["--stats".toList, "30s".toList]) ++
        ["--use-json-log".toList, "--log-level".toList, "INFO".toList, "--log-file".toList, logPath]) ++
    ["--config".toList, config]

def execute (parse : Text → Option RcloneLogLine) (command : RcloneCommand Output) (host : Host) : Executed Output :=
  match if command.logPath.isSome then host.createLogDir else .ok () with
  | .error (parent, err) => { result := .error ("failed to create ".toList ++ parent ++ ": ".toList ++ err) }
  | .ok () =>
    match command.configPath.elim host.rcloneConfigPath .ok with
    | .error err => { result := .error err }
    | .ok config =>
      let spawned := host.rclone (command.subcommand :: argv command config)
      match command.observe with
      | .streamed hooks => executeStreamed parse command hooks spawned
      | .oneShot => executeOneShot command spawned

/-! ## What the counters owe -/

/-- All that the totals say, as one increment for each figure. -/
def owed (labels : Labels) (totals : RcloneLogSummary) : List Increment :=
  [(.phase labels.job labels.step labels.successOutcome, totals.transferred),
    (.phase labels.job labels.step labels.successOutcome, totals.deletes),
    (.phase labels.job labels.step "failed".toList, totals.errors)] ++
  if labels.uploadMetrics then
    [(.uploadBytes labels.job, totals.bytes), (.uploadOutcomes labels.job "uploaded".toList, totals.transferred),
      (.uploadOutcomes labels.job "failed".toList, totals.errors)]
  else []

namespace Series

theorem total_nil (series : Series) : series.total [] = 0 := rfl

theorem total_append (series : Series) (first second : List Increment) :
    series.total (first ++ second) = series.total first + series.total second := by
  rw [total, List.filter_append, List.map_append, List.sum_append]
  rfl

theorem total_cons (series other : Series) (amount : Nat) (increments : List Increment) :
    series.total ((other, amount) :: increments) = (if other = series then amount else 0) + series.total increments := by
  rw [total, List.filter_cons]
  by_cases hSame : other = series
  · rw [if_pos (decide_eq_true hSame), if_pos hSame]
    rfl
  · rw [if_neg (by simpa using hSame), if_neg hSame, Nat.zero_add]
    rfl

/-- An increment by zero can as well be left out. -/
theorem total_counted (series other : Series) (amount : Nat) (increments : List Increment) :
    series.total ((if amount > 0 then [(other, amount)] else []) ++ increments) = series.total ((other, amount) :: increments) := by
  rw [total_cons, total_append]
  split
  · rw [total_cons]
    rfl
  · rename_i hZero
    rw [Nat.eq_zero_of_not_pos hZero, ite_self]
    rfl

end Series

theorem total_owed_zero (labels : Labels) (series : Series) : series.total (owed labels {}) = 0 := by
  rw [owed]
  cases labels.uploadMetrics <;>
    simp only [List.cons_append, List.nil_append, Bool.false_eq_true, if_false, if_true, Series.total_cons, Series.total_nil,
      ite_self]

theorem total_emitDeltaMetrics (labels : Labels) (series : Series) (delta : TailDelta) :
    series.total (emitDeltaMetrics labels delta) =
      series.total (owed labels ⟨delta.transferred, delta.errors, delta.bytes, delta.deletes, 0⟩) := by
  rw [emitDeltaMetrics]
  split
  · rename_i hEmpty
    simp only [TailDelta.isEmpty, Bool.and_eq_true, beq_iff_eq] at hEmpty
    obtain ⟨⟨⟨hTransferred, hErrors⟩, hBytes⟩, hDeletes⟩ := hEmpty
    rw [hTransferred, hErrors, hBytes, hDeletes]
    exact (total_owed_zero labels series).symm
  · rw [owed, List.append_assoc, List.append_assoc, Series.total_counted, Series.total_cons, Series.total_counted,
      Series.total_cons, Series.total_counted, Series.total_cons, List.cons_append, Series.total_cons, List.cons_append,
      Series.total_cons, List.cons_append, Series.total_cons, List.nil_append]
    cases labels.uploadMetrics with
    | false => rfl
    | true =>
      simp only [Bool.not_true, Bool.false_eq_true, if_false, if_true]
      rw [List.append_assoc, Series.total_counted, Series.total_cons, Series.total_counted,
        Series.total_cons, ← List.append_nil (if delta.errors > 0 then _ else _), Series.total_counted,
        Series.total_cons, Series.total_cons, Series.total_cons, Series.total_cons]

/-- The counters owe a sum what they owe its parts. -/
theorem total_owed_add (labels : Labels) (series : Series) {delta before after : RcloneLogSummary}
    (hTransferred : delta.transferred + before.transferred = after.transferred)
    (hErrors : delta.errors + before.errors = after.errors) (hBytes : delta.bytes + before.bytes = after.bytes)
    (hDeletes : delta.deletes + before.deletes = after.deletes) :
    series.total (owed labels before) + series.total (owed labels delta) = series.total (owed labels after) := by
  have hSplit : ∀ (condition : Prop) [Decidable condition] (first second : Nat),
      (if condition then first + second else 0) = (if condition then first else 0) + (if condition then second else 0) := by
    intro condition _ first second
    split <;> rfl
  rw [owed, owed, owed, ← hTransferred, ← hErrors, ← hBytes, ← hDeletes]
  cases labels.uploadMetrics with
  | false =>
    simp only [List.cons_append, List.nil_append, Bool.false_eq_true, if_false, Series.total_cons, Series.total_nil, hSplit]
    omega
  | true =>
    simp only [List.cons_append, List.nil_append, if_true, Series.total_cons, Series.total_nil, hSplit]
    omega

/-! ## What a run has done with the log -/

open RcloneLogTailer (Tracks Reports)

namespace Streamed

variable {parse : Text → Option RcloneLogLine} {labels : Labels} {s : Streamed} {text : Text}

/-- The run has accounted for the lines of a beginning of the log. -/
structure Follows (parse : Text → Option RcloneLogLine) (labels : Labels) (s : Streamed) (text : Text) : Prop where
  read : Utf8.encode text <+: s.file
  tracks : Tracks s.tailer text
  cumulative : s.tailer.cumulative = totals parse {} (Text.completeLines text)
  received : s.received <+: copied parse (Text.completeLines text)
  heard : s.listening = true → s.received = copied parse (Text.completeLines text)
  increments : Rises parse {} (Text.completeLines text) → ∀ series : Series,
    series.total s.increments = series.total (owed labels s.tailer.cumulative)

/-- The progress lines rise with the totals, and there are at least six polls to each. -/
structure Paced (s : Streamed) (polls : Nat) : Prop where
  rising : s.progress.Pairwise (· < ·)
  last : s.progress.getLast? = s.lastProgress
  below : ∀ progress ∈ s.progress, progress ≤ s.tailer.summary.progress
  seldom : progressEveryPolls * s.progress.length + s.pollsSinceProgress ≤ polls

theorem follows_start (parse : Text → Option RcloneLogLine) (labels : Labels) (hooks : StreamHooks) :
    Follows parse labels (start labels hooks) [] where
  read := List.nil_prefix
  tracks := RcloneLogTailer.new_tracks labels.step
  cumulative := rfl
  received := List.nil_prefix
  heard _ := rfl
  increments _ series := (total_owed_zero labels series).symm

theorem paced_start (labels : Labels) (hooks : StreamHooks) : Paced (start labels hooks) 0 where
  rising := .nil
  last := rfl
  below _ hMem := absurd hMem List.not_mem_nil
  seldom := le_rfl

theorem poll_eq (parse : Text → Option RcloneLogLine) (labels : Labels) (s : Streamed) (readable : Bool) :
    s.poll parse labels readable =
      { s with
        tailer := (s.tailer.poll parse (if readable then some s.file else none)).1
        increments := s.increments ++ emitDeltaMetrics labels (s.tailer.poll parse (if readable then some s.file else none)).2
        received :=
          if s.listening then s.received ++ (s.tailer.poll parse (if readable then some s.file else none)).2.copiedObjects
          else s.received
        collapsed := s.collapsed ++ (s.tailer.poll parse (if readable then some s.file else none)).2.collapsedRepeats } := rfl

/-- The step of a poll, from what its tailer reports. -/
theorem Follows.poll (h : Follows parse labels s text) {buf : Text} {readable : Bool}
    (hRead : Utf8.encode (text ++ buf) <+: s.file)
    (hTracks : Tracks (s.tailer.poll parse (if readable then some s.file else none)).1 (text ++ buf))
    (hReports : Reports parse s.tailer (s.tailer.poll parse (if readable then some s.file else none)).1
      [(s.tailer.poll parse (if readable then some s.file else none)).2] (Text.completeLines (Text.openLine text ++ buf))) :
    Follows parse labels (s.poll parse labels readable) (text ++ buf) := by
  rw [poll_eq]
  generalize s.tailer.poll parse (if readable then some s.file else none) = polled at hTracks hReports ⊢
  obtain ⟨t, delta⟩ := polled
  have hCopied : delta.copiedObjects = copied parse (Text.completeLines (Text.openLine text ++ buf)) := by
    rw [← hReports.copied, List.flatMap_singleton]
  have hLines := Text.completeLines_append text buf
  refine ⟨hRead, hTracks, ?_, ?_, fun hListening => ?_, fun hRises series => ?_⟩
  · rw [hReports.cumulative, h.cumulative, hLines, totals_append]
  · dsimp only
    rw [hLines, copied_append, hCopied]
    split
    · rename_i hListening
      rw [h.heard hListening]
    · exact h.received.trans (List.prefix_append _ _)
  · dsimp only at hListening ⊢
    rw [if_pos hListening, h.heard hListening, hCopied, hLines, copied_append]
  · rw [hLines] at hRises
    have hSums := hReports.sums (h.cumulative ▸ hRises.right)
    simp only [counters, List.forall_mem_cons, List.map_cons, List.map_nil, List.sum_cons, List.sum_nil, Nat.add_zero] at hSums
    dsimp only at hSums ⊢
    rw [Series.total_append, h.increments hRises.left series, total_emitDeltaMetrics]
    exact total_owed_add labels series hSums.1 hSums.2.1 hSums.2.2.1 hSums.2.2.2.1

theorem rises_of_read {log : Text} (hRead : text <+: log) (hRises : Rises parse {} (Text.completeLines log)) :
    Rises parse {} (Text.completeLines text) := by
  obtain ⟨rest, rfl⟩ := hRead
  rw [Text.completeLines_append] at hRises
  exact hRises.left

theorem progress_le {before after : RcloneLogSummary} (h : ∀ counter ∈ counters, counter.2 before ≤ counter.2 after) :
    before.progress ≤ after.progress := by
  simp only [counters, List.forall_mem_cons] at h
  exact ⟨h.1, h.2.1, h.2.2.1⟩

theorem Follows.progress_le {later : Streamed} {buf : Text} (h : Follows parse labels s text)
    (hLater : Follows parse labels later (text ++ buf)) (hRises : Rises parse {} (Text.completeLines (text ++ buf))) :
    s.tailer.summary.progress ≤ later.tailer.summary.progress := by
  rw [Text.completeLines_append] at hRises
  rw [RcloneLogTailer.summary, RcloneLogTailer.summary, h.cumulative, hLater.cumulative, Text.completeLines_append, totals_append]
  exact Streamed.progress_le hRises.right.le

/-- The greatest member of a list that rises is its last one. -/
theorem getLast?_of_rising {α : Type*} [PartialOrder α] {members : List α} {greatest : α} (hRising : members.Pairwise (· < ·))
    (hBelow : ∀ member ∈ members, member ≤ greatest) (hMem : greatest ∈ members) : members.getLast? = some greatest := by
  induction members using List.reverseRecOn with
  | nil => exact absurd hMem List.not_mem_nil
  | append_singleton members last =>
    rw [List.getLast?_concat, Option.some.injEq]
    obtain hEarlier | hLast := List.mem_append.mp hMem
    · have hUnder := (List.pairwise_append.mp hRising).2.2 greatest hEarlier last List.mem_cons_self
      exact absurd (hBelow last (List.mem_append_right members List.mem_cons_self)) (not_le_of_gt hUnder)
    · exact (List.mem_singleton.mp hLast).symm

theorem Follows.reportProgress (h : Follows parse labels s text) : Follows parse labels s.reportProgress text := by
  rw [Streamed.reportProgress]
  split
  · split
    · exact ⟨h.read, h.tracks, h.cumulative, h.received, h.heard, h.increments⟩
    · exact ⟨h.read, h.tracks, h.cumulative, h.received, h.heard, h.increments⟩
  · exact ⟨h.read, h.tracks, h.cumulative, h.received, h.heard, h.increments⟩

/-- Totals that are those of the last line are not logged again, and others are above all lines. -/
theorem Paced.reportProgress {polls : Nat} (h : Paced s polls) : Paced s.reportProgress (polls + 1) := by
  have hSeldom := h.seldom
  rw [Streamed.reportProgress]
  split
  · rename_i hDue
    split
    · rename_i hMoved
      have hNew : ∀ progress ∈ s.progress, progress < s.tailer.summary.progress := by
        intro progress hMem
        refine lt_of_le_of_ne (h.below progress hMem) fun hSame => hMoved ?_
        rw [← h.last]
        exact getLast?_of_rising h.rising h.below (hSame ▸ hMem)
      refine ⟨?_, List.getLast?_concat, ?_, ?_⟩
      · refine List.pairwise_append.mpr ⟨h.rising, List.pairwise_singleton _ _, fun progress hMem other hOther => ?_⟩
        rw [List.mem_singleton.mp hOther]
        exact hNew progress hMem
      · intro progress hMem
        obtain hOld | hLast := List.mem_append.mp hMem
        · exact h.below progress hOld
        · rw [List.mem_singleton.mp hLast]
      · dsimp only
        rw [List.length_append, List.length_singleton, Nat.mul_succ]
        omega
    · refine ⟨h.rising, h.last, h.below, ?_⟩
      dsimp only
      omega
  · refine ⟨h.rising, h.last, h.below, ?_⟩
    dsimp only
    omega

theorem Follows.step (h : Follows parse labels s text) (event : StreamEvent) :
    ∃ buf, Follows parse labels (s.step parse labels event) (text ++ buf) := by
  cases event with
  | grow bytes =>
    refine ⟨[], ?_⟩
    rw [List.append_nil]
    exact ⟨h.read.trans (List.prefix_append _ _), h.tracks, h.cumulative, h.received, h.heard, h.increments⟩
  | tick readable =>
    obtain ⟨buf, hRead, hTracks, hReports⟩ := RcloneLogTailer.poll_any parse h.tracks h.read readable
    exact ⟨buf, (h.poll hRead hTracks hReports).reportProgress⟩
  | hangUp =>
    refine ⟨[], ?_⟩
    rw [List.append_nil]
    exact ⟨h.read, h.tracks, h.cumulative, h.received, nofun, h.increments⟩

theorem Paced.step {polls : Nat} {buf : Text} {event : StreamEvent} (hPaced : Paced s polls) (h : Follows parse labels s text)
    (hLater : Follows parse labels (s.step parse labels event) (text ++ buf))
    (hRises : Rises parse {} (Text.completeLines (text ++ buf))) :
    Paced (s.step parse labels event) (polls + if event.isTick then 1 else 0) := by
  cases event with
  | grow bytes => exact ⟨hPaced.rising, hPaced.last, hPaced.below, hPaced.seldom⟩
  | hangUp => exact ⟨hPaced.rising, hPaced.last, hPaced.below, hPaced.seldom⟩
  | tick readable =>
    have hUp : s.tailer.summary.progress ≤ (s.poll parse labels readable).tailer.summary.progress := by
      have hSame : (s.step parse labels (.tick readable)).tailer = (s.poll parse labels readable).tailer := by
        rw [Streamed.step, Streamed.reportProgress]
        split
        · split <;> rfl
        · rfl
      rw [← hSame]
      exact h.progress_le hLater hRises
    have hPoll : Paced (s.poll parse labels readable) polls :=
      ⟨hPaced.rising, hPaced.last, fun progress hMem => (hPaced.below progress hMem).trans hUp, hPaced.seldom⟩
    exact hPoll.reportProgress

theorem file_step (event : StreamEvent) : (s.step parse labels event).file = s.file ++ event.growth := by
  cases event with
  | grow bytes => rfl
  | hangUp => exact (List.append_nil _).symm
  | tick readable =>
    rw [step, reportProgress, StreamEvent.growth, List.append_nil]
    split
    · split <;> rfl
    · rfl

theorem listening_step {event : StreamEvent} (hStays : event ≠ .hangUp) : (s.step parse labels event).listening = s.listening := by
  cases event with
  | grow bytes => rfl
  | hangUp => exact absurd rfl hStays
  | tick readable =>
    rw [step, reportProgress]
    split
    · split <;> rfl
    · rfl

theorem after_concat (hooks : StreamHooks) (events : List StreamEvent) (event : StreamEvent) :
    after parse labels hooks (events ++ [event]) = (after parse labels hooks events).step parse labels event := by
  rw [after, List.foldl_append]
  rfl

theorem file_after (hooks : StreamHooks) (events : List StreamEvent) :
    (after parse labels hooks events).file = events.flatMap StreamEvent.growth := by
  induction events using List.reverseRecOn with
  | nil => rfl
  | append_singleton events event ih => rw [after_concat, file_step, ih, List.flatMap_append, List.flatMap_singleton]

theorem listening_after {hooks : StreamHooks} {events : List StreamEvent} (hListens : hooks.onCopied = true)
    (hStays : StreamEvent.hangUp ∉ events) : (after parse labels hooks events).listening = true := by
  induction events using List.reverseRecOn with
  | nil => exact hListens
  | append_singleton events event ih =>
    rw [List.mem_append, List.mem_singleton, not_or] at hStays
    rw [after_concat, listening_step (Ne.symm hStays.2), ih hStays.1]

/-- In every run there is a beginning of the log that it has accounted for. -/
theorem follows_after (parse : Text → Option RcloneLogLine) (labels : Labels) (hooks : StreamHooks) {log : Text}
    {events : List StreamEvent} (hLog : events.flatMap StreamEvent.growth <+: Utf8.encode log) :
    ∃ text, text <+: log ∧ Follows parse labels (after parse labels hooks events) text ∧
      (Rises parse {} (Text.completeLines log) →
        Paced (after parse labels hooks events) (events.countP StreamEvent.isTick)) := by
  induction events using List.reverseRecOn with
  | nil => exact ⟨[], List.nil_prefix, follows_start parse labels hooks, fun _ => paced_start labels hooks⟩
  | append_singleton events event ih =>
    have hEarlier := hLog
    rw [List.flatMap_append] at hEarlier
    obtain ⟨text, -, hFollows, hPaced⟩ := ih ((List.prefix_append _ _).trans hEarlier)
    obtain ⟨buf, hLater⟩ := hFollows.step event
    rw [after_concat]
    have hBytes := hLater.read
    rw [← after_concat, file_after] at hBytes
    obtain ⟨rest, hRest⟩ := hBytes.trans hLog
    obtain ⟨unread, hUnread, -⟩ := Utf8.exists_rest hRest
    have hRead : text ++ buf <+: log := ⟨unread, hUnread.symm⟩
    refine ⟨text ++ buf, hRead, hLater, fun hRises => ?_⟩
    rw [List.countP_append, List.countP_singleton]
    exact (hPaced hRises).step hFollows hLater (rises_of_read hRead hRises)

/-- The poll after the exit reads the log to its end. -/
theorem follows_last (parse : Text → Option RcloneLogLine) (labels : Labels) (hooks : StreamHooks) {log : Text}
    {events : List StreamEvent} (hLog : events.flatMap StreamEvent.growth = Utf8.encode log) :
    Follows parse labels ((after parse labels hooks events).poll parse labels true) log := by
  obtain ⟨text, -, hFollows, -⟩ := follows_after parse labels hooks ⟨[], (List.append_nil _).trans hLog⟩
  have hFile : (after parse labels hooks events).file = Utf8.encode log := (file_after hooks events).trans hLog
  obtain ⟨rest, hRest⟩ := hFollows.read
  rw [hFile] at hRest
  obtain ⟨unread, rfl, rfl⟩ := Utf8.exists_rest hRest
  have hPoll := RcloneLogTailer.poll_spec parse (Utf8.encode unread) hFollows.tracks
  rw [Utf8.decode_encode, Option.getD_some, ← Utf8.encode_append, ← hFile] at hPoll
  exact hFollows.poll (hFile ▸ List.prefix_rfl) hPoll.1 hPoll.2

end Streamed

theorem execute_streamed {parse : Text → Option RcloneLogLine} {command : RcloneCommand Output} {host : Host} {hooks : StreamHooks}
    {config : Text} {child : Child} (hObserve : command.observe = .streamed hooks) (hDir : host.createLogDir = .ok ())
    (hConfig : command.configPath.elim host.rcloneConfigPath .ok = .ok config)
    (hSpawned : host.rclone (command.subcommand :: argv command config) = .ok child) :
    execute parse command host = executeStreamed parse command hooks (.ok child) := by
  rw [execute, hDir, ite_self]
  dsimp only
  rw [hConfig]
  dsimp only
  rw [hObserve, hSpawned]

instance (stats later : RcloneStats) : Decidable (stats.le later) :=
  inferInstanceAs (Decidable (_ ∧ _ ∧ _ ∧ _))

def uploadCopy : Copy where
  source := "/data".toList
  destination := "photos:2024/".toList
  logPath := "/tmp/copy.jsonl".toList
  transfers := 4
  checkers := 8
  job := "rclone-copy".toList
  step := "transfer".toList
  uploadMetrics := true
  hooks := { onCopied := true }

def parseShortLine (line : Text) : Option RcloneLogLine :=
  if line = "c".toList then some ⟨"info".toList, "Copied (new)".toList, some "a.png".toList, none⟩
  else if line = "1".toList then some ⟨"info".toList, [], none, some ⟨10, 1, 0, 0⟩⟩
  else if line = "2".toList then some ⟨"info".toList, [], none, some ⟨30, 2, 1, 0⟩⟩
  else none

/-- Two objects are transferred; the stats of the second come behind the last tick. -/
def shortChild : Child where
  events := .grow (Utf8.encode "c\n1\n".toList) :: List.replicate 7 (.tick true) ++ [.grow (Utf8.encode "2\n".toList)]
  status := .ok (some 0)

def shortHost : Host where
  rcloneConfigPath := .ok "/home/rclone.conf".toList
  rclone _ := .ok shortChild

end Pigeon.Rclone
