import Pigeon.Deduplicate.Manifest
import Pigeon.Deduplicate.Summary
import Pigeon.Library.Fallible
import Pigeon.Rclone.Command

/-! # Runs on one output directory

A run takes up what the source buckets list and the checkpoint does not have, and appends to the checkpoint what it finished.
The directory is left to later runs: what they find pending is what no run before them has finished.
-/
namespace Pigeon.Deduplicate

open Library Pigeon.Core
open Pigeon.Rclone (LsjsonEntry RcloneLogSummary)

set_option autoImplicit false

/-! ## Gathering -/

structure TypeSummary where
  extension : Text
  count : Nat
  totalBytes : Nat
deriving DecidableEq, Repr

structure DeduplicatePlan where
  tasks : List DeduplicateTask
  typeSummary : List TypeSummary
deriving DecidableEq, Repr

/-- One object more in the ordered map of the extensions. -/
def addToSummary (extension : Text) (size : Nat) : List TypeSummary → List TypeSummary
  | [] => [⟨extension, 1, size⟩]
  | summary :: summaries =>
    if extension = summary.extension then ⟨extension, summary.count + 1, summary.totalBytes + size⟩ :: summaries
    else if extension < summary.extension then ⟨extension, 1, size⟩ :: summary :: summaries
    else summary :: addToSummary extension size summaries

/-- The entries of one bucket, into the plan so far. -/
def gatherEntries (done : List (Text × Text)) (bucketAlias : Text) (plan : DeduplicatePlan) (entries : List LsjsonEntry) :
    DeduplicatePlan :=
  entries.foldl (fun plan entry =>
    if isCheckpointed done bucketAlias entry.path then plan
    else ⟨plan.tasks ++ [⟨bucketAlias, entry.path, entry.size⟩], addToSummary (extensionOf entry.path) entry.size plan.typeSummary⟩)
    plan

/-- The alias of a source bucket, and what listing it gives. -/
abbrev Listing := Text × Except Text (List LsjsonEntry)

def gatherListings (done : List (Text × Text)) : DeduplicatePlan → List Listing → Except Text DeduplicatePlan
  | plan, [] => .ok plan
  | plan, (bucketAlias, listed) :: listings => do
    let entries ← listed
    gatherListings done (gatherEntries done bucketAlias plan entries) listings

def gatherPending (checkpoint : Except Text (Option Text)) (listings : List Listing) : Except Text DeduplicatePlan := do
  let contents ← checkpoint
  gatherListings (loadCheckpoint contents) ⟨[], []⟩ listings

/-! ## The end of a run -/

/-- What a run meets once its workers are done. -/
structure Ending where
  loadsIndex : Except Text Unit := .ok ()
  writesReport : Except Text Unit := .ok ()
  /-- The error of an append to the checkpoint, by its number. -/
  appendError : Nat → Option Text := fun _ => none
  /-- What the upload comes to, where there is a destination. -/
  upload : Option (Except Text RcloneLogSummary) := none

/-- The appends up to the first that fails. -/
def appendRoots (appendError : Nat → Option Text) : Nat → List (Text × Text) → List (Text × Text) × Except Text Unit
  | _, [] => ([], .ok ())
  | n, root :: roots =>
    match appendError n with
    | some err => ([], .error err)
    | none => ((appendRoots appendError (n + 1) roots).map (root :: ·) id)

def uploadInto (summary : DeduplicateSummary) : Option (Except Text RcloneLogSummary) → Except Text DeduplicateSummary
  | none => .ok summary
  | some upload => upload.map fun uploaded => { summary with uploaded := uploaded.transferred, uploadFailed := uploaded.errors }

/-- The rows that `run_deduplicate_job` appends to the checkpoint, and its result. -/
def JobRun.finish {w : World} {tasks : List DeduplicateTask} (job : JobRun w tasks) (ending : Ending) :
    List (Text × Text) × Except Text DeduplicateSummary :=
  match ending.loadsIndex, ending.writesReport with
  | .error err, _ | .ok _, .error err => ([], .error err)
  | .ok _, .ok _ =>
    let appended := appendRoots ending.appendError 0 job.roots
    (appended.1, appended.2.bind fun _ => uploadInto job.summary ending.upload)

def failureExitCode : Nat := 1

def exitCode : Except Text DeduplicateSummary → Nat
  | .ok summary => if summary.failed > 0 || summary.uploadFailed > 0 then failureExitCode else 0
  | .error _ => failureExitCode

/-- A run of the job that gathers on this checkpoint. -/
structure Dispatch (contents : Option Text) where
  listings : List Listing
  plan : DeduplicatePlan
  hPlan : gatherPending (.ok contents) listings = .ok plan
  w : World
  job : JobRun w plan.tasks
  ending : Ending

namespace Dispatch

variable {contents : Option Text} (d : Dispatch contents)

/-- The job is not run where nothing is pending. -/
def rows : List (Text × Text) := if d.plan.tasks = [] then [] else (d.job.finish d.ending).1

def exit : Nat := if d.plan.tasks = [] then 0 else exitCode (d.job.finish d.ending).2

/-- The checkpoint file that the run leaves. -/
def after : Option Text := d.rows.foldl (fun file root => appendCheckpoint file root.1 root.2) contents

end Dispatch

/-! ## What is gathered -/

def entriesOf : Except Text (List LsjsonEntry) → List LsjsonEntry
  | .ok entries => entries
  | .error _ => []

/-- All that the buckets list, pending or not. -/
def listedTasks (listings : List Listing) : List DeduplicateTask :=
  listings.flatMap fun listing => (entriesOf listing.2).map fun entry => ⟨listing.1, entry.path, entry.size⟩

def isPending (done : List (Text × Text)) (task : DeduplicateTask) : Bool := !isCheckpointed done task.bucketAlias task.key

def summarizeTypes (summaries : List TypeSummary) (tasks : List DeduplicateTask) : List TypeSummary :=
  tasks.foldl (fun summaries task => addToSummary (extensionOf task.key) task.size summaries) summaries

theorem gatherEntries_eq (done : List (Text × Text)) (bucketAlias : Text) (plan : DeduplicatePlan) (entries : List LsjsonEntry) :
    let pending : List DeduplicateTask := (entries.map fun entry => ⟨bucketAlias, entry.path, entry.size⟩).filter (isPending done)
    gatherEntries done bucketAlias plan entries = ⟨plan.tasks ++ pending, summarizeTypes plan.typeSummary pending⟩ := by
  induction entries generalizing plan with
  | nil => simp [gatherEntries, summarizeTypes]
  | cons entry entries ih =>
    rw [gatherEntries, List.foldl_cons, ← gatherEntries, ih, List.map_cons, List.filter_cons]
    cases hDone : isCheckpointed done bucketAlias entry.path with
    | true => simp [isPending, hDone]
    | false => simp [isPending, hDone, summarizeTypes]

theorem gatherListings_eq {done : List (Text × Text)} {plan gathered : DeduplicatePlan} {listings : List Listing}
    (h : gatherListings done plan listings = .ok gathered) :
    let pending := (listedTasks listings).filter (isPending done)
    gathered = ⟨plan.tasks ++ pending, summarizeTypes plan.typeSummary pending⟩ := by
  induction listings generalizing plan with
  | nil =>
    cases h
    simp [listedTasks, summarizeTypes]
  | cons listing listings ih =>
    obtain ⟨entries, hListed, hRest⟩ := Fallible.bind_eq_ok h
    rw [ih hRest, gatherEntries_eq, listedTasks, List.flatMap_cons, ← listedTasks, hListed, List.filter_append]
    simp [entriesOf, summarizeTypes, List.foldl_append]

theorem gatherPending_eq {contents : Option Text} {plan : DeduplicatePlan} {listings : List Listing}
    (h : gatherPending (.ok contents) listings = .ok plan) :
    plan.tasks = (listedTasks listings).filter (isPending (loadCheckpoint contents)) ∧
      plan.typeSummary = summarizeTypes [] plan.tasks := by
  obtain rfl := gatherListings_eq h
  exact ⟨rfl, rfl⟩

/-! ## The table of the extensions -/

/-- The table has a row for every extension there is, in order, with the number of its objects and their bytes. -/
structure Tallies (tasks : List DeduplicateTask) (summaries : List TypeSummary) : Prop where
  ordered : summaries.Pairwise fun first second => first.extension < second.extension
  complete : ∀ task ∈ tasks, ∃ summary ∈ summaries, summary.extension = extensionOf task.key
  count : ∀ summary ∈ summaries, summary.count = tasks.countP fun task => extensionOf task.key = summary.extension
  totalBytes : ∀ summary ∈ summaries,
    summary.totalBytes = ((tasks.filter fun task => extensionOf task.key = summary.extension).map DeduplicateTask.size).sum
  nonempty : ∀ summary ∈ summaries, summary.count ≠ 0

theorem extension_addToSummary (extension : Text) (size : Nat) (summaries : List TypeSummary) (other : Text) :
    (∃ summary ∈ addToSummary extension size summaries, summary.extension = other) ↔
      other = extension ∨ ∃ summary ∈ summaries, summary.extension = other := by
  induction summaries with
  | nil => simp [addToSummary, eq_comm]
  | cons first summaries ih =>
    rw [addToSummary]
    split_ifs with hSame hBelow
    · subst hSame
      simp [eq_comm]
    · simp [eq_comm]
    · simp only [List.mem_cons, exists_eq_or_imp, ih]
      exact or_left_comm

theorem addToSummary_ordered (extension : Text) (size : Nat) {summaries : List TypeSummary}
    (h : summaries.Pairwise fun first second => first.extension < second.extension) :
    (addToSummary extension size summaries).Pairwise fun first second => first.extension < second.extension := by
  induction summaries with
  | nil => exact List.pairwise_singleton _ _
  | cons first summaries ih =>
    obtain ⟨hFirst, hRest⟩ := List.pairwise_cons.mp h
    rw [addToSummary]
    split_ifs with hSame hBelow
    · subst hSame
      exact List.pairwise_cons.mpr ⟨hFirst, hRest⟩
    · refine List.pairwise_cons.mpr ⟨fun second hSecond => ?_, h⟩
      obtain rfl | hSecond := List.mem_cons.mp hSecond
      · exact hBelow
      · exact lt_trans hBelow (hFirst second hSecond)
    · have hAbove : first.extension < extension := lt_of_le_of_ne (not_lt.mp hBelow) (Ne.symm hSame)
      refine List.pairwise_cons.mpr ⟨fun second hSecond => ?_, ih hRest⟩
      obtain hNew | ⟨old, hOld, hExtension⟩ :=
        (extension_addToSummary extension size summaries second.extension).mp ⟨second, hSecond, rfl⟩
      · exact hNew ▸ hAbove
      · exact hExtension ▸ hFirst old hOld

/-- A row of the new table is an old one of another extension, or the one of the new object. -/
theorem mem_addToSummary {extension : Text} {size : Nat} {summaries : List TypeSummary}
    (hOrdered : summaries.Pairwise fun first second => first.extension < second.extension) {summary : TypeSummary}
    (h : summary ∈ addToSummary extension size summaries) :
    summary ∈ summaries ∧ summary.extension ≠ extension ∨
      (∃ old ∈ summaries, old.extension = extension ∧ summary = ⟨extension, old.count + 1, old.totalBytes + size⟩) ∨
      (∀ old ∈ summaries, old.extension ≠ extension) ∧ summary = ⟨extension, 1, size⟩ := by
  induction summaries with
  | nil => exact .inr (.inr ⟨List.forall_mem_nil _, List.mem_singleton.mp h⟩)
  | cons first summaries ih =>
    obtain ⟨hFirst, hRest⟩ := List.pairwise_cons.mp hOrdered
    rw [addToSummary] at h
    split_ifs at h with hSame hBelow
    · obtain rfl | hLater := List.mem_cons.mp h
      · exact .inr (.inl ⟨first, List.mem_cons_self, hSame.symm, rfl⟩)
      · exact .inl ⟨List.mem_cons_of_mem _ hLater, hSame ▸ (hFirst summary hLater).ne'⟩
    · have hAll (old : TypeSummary) (hOld : old ∈ first :: summaries) : extension < old.extension := by
        obtain rfl | hOld := List.mem_cons.mp hOld
        · exact hBelow
        · exact lt_trans hBelow (hFirst old hOld)
      obtain rfl | hLater := List.mem_cons.mp h
      · exact .inr (.inr ⟨fun old hOld => (hAll old hOld).ne', rfl⟩)
      · exact .inl ⟨hLater, (hAll summary hLater).ne'⟩
    · obtain rfl | hLater := List.mem_cons.mp h
      · exact .inl ⟨List.mem_cons_self, Ne.symm hSame⟩
      · obtain ⟨hOld, hOther⟩ | ⟨old, hOld, hExtension, hNew⟩ | ⟨hNone, hNew⟩ := ih hRest hLater
        · exact .inl ⟨List.mem_cons_of_mem _ hOld, hOther⟩
        · exact .inr (.inl ⟨old, List.mem_cons_of_mem _ hOld, hExtension, hNew⟩)
        · exact .inr (.inr ⟨List.forall_mem_cons.mpr ⟨Ne.symm hSame, hNone⟩, hNew⟩)

theorem Tallies.concat {tasks : List DeduplicateTask} {summaries : List TypeSummary} (h : Tallies tasks summaries)
    (task : DeduplicateTask) :
    Tallies (tasks ++ [task]) (addToSummary (extensionOf task.key) task.size summaries) := by
  have hNone (hFree : ∀ old ∈ summaries, old.extension ≠ extensionOf task.key) :
      tasks.filter (fun other => extensionOf other.key = extensionOf task.key) = [] := by
    rw [List.filter_eq_nil_iff]
    intro other hOther hSame
    obtain ⟨old, hOld, hExtension⟩ := h.complete other hOther
    exact hFree old hOld (hExtension.trans (of_decide_eq_true hSame))
  refine ⟨addToSummary_ordered _ _ h.ordered, fun other hOther => ?_, fun summary hSummary => ?_, fun summary hSummary => ?_,
    fun summary hSummary => ?_⟩
  · rw [extension_addToSummary]
    obtain hOld | hNew := List.mem_append.mp hOther
    · exact .inr (h.complete other hOld)
    · exact .inl (List.mem_singleton.mp hNew ▸ rfl)
  · rw [List.countP_append, List.countP_singleton]
    obtain ⟨hOld, hOther⟩ | ⟨old, hOld, hExtension, rfl⟩ | ⟨hFree, rfl⟩ := mem_addToSummary h.ordered hSummary
    · rw [h.count summary hOld]
      simp [hOther.symm]
    · rw [h.count old hOld, hExtension]
      simp
    · rw [List.countP_eq_length_filter, hNone hFree]
      simp
  · rw [List.filter_append, List.map_append, List.sum_append, List.filter_singleton]
    obtain ⟨hOld, hOther⟩ | ⟨old, hOld, hExtension, rfl⟩ | ⟨hFree, rfl⟩ := mem_addToSummary h.ordered hSummary
    · rw [h.totalBytes summary hOld]
      simp [hOther.symm]
    · rw [h.totalBytes old hOld, hExtension]
      simp
    · rw [hNone hFree]
      simp
  · obtain ⟨hOld, -⟩ | ⟨old, -, -, rfl⟩ | ⟨-, rfl⟩ := mem_addToSummary h.ordered hSummary
    · exact h.nonempty summary hOld
    · exact Nat.succ_ne_zero _
    · exact Nat.one_ne_zero

theorem tallies_summarizeTypes (tasks : List DeduplicateTask) : Tallies tasks (summarizeTypes [] tasks) := by
  induction tasks using List.reverseRecOn with
  | nil =>
    exact ⟨List.Pairwise.nil, List.forall_mem_nil _, List.forall_mem_nil _, List.forall_mem_nil _, List.forall_mem_nil _⟩
  | append_singleton tasks task ih =>
    rw [summarizeTypes, List.foldl_append, ← summarizeTypes]
    exact ih.concat task

/-! ## What a run appends -/

theorem appendRoots_spec (appendError : Nat → Option Text) (n : Nat) (roots : List (Text × Text)) :
    (appendRoots appendError n roots).1 <+: roots ∧
      ((appendRoots appendError n roots).2 = .ok () → (appendRoots appendError n roots).1 = roots) := by
  induction roots generalizing n with
  | nil => exact ⟨List.prefix_rfl, fun _ => rfl⟩
  | cons root roots ih =>
    rw [appendRoots]
    cases appendError n with
    | some err => exact ⟨List.nil_prefix, fun h => by cases h⟩
    | none =>
      obtain ⟨hPrefix, hAll⟩ := ih (n + 1)
      exact ⟨List.cons_prefix_cons.mpr ⟨rfl, hPrefix⟩, fun h => congrArg (root :: ·) (hAll h)⟩

namespace JobRun

variable {w : World} {tasks : List DeduplicateTask} (job : JobRun w tasks)

theorem exists_task_of_mem_roots {root : Text × Text} (h : root ∈ job.roots) :
    ∃ task ∈ tasks, root = (task.bucketAlias, task.key) := by
  have hTask {top : QueueItem} (hTop : top ∈ rootItems tasks) : ∃ task ∈ tasks, top.root = (task.bucketAlias, task.key) := by
    obtain ⟨i, hi, rfl⟩ := List.mem_mapIdx.mp hTop
    exact ⟨tasks[i], List.getElem_mem hi, rfl⟩
  have hAtTop {item : QueueItem} (hDone : item ∈ job.pool.done) (hDepth : item.depth = 0) : item ∈ rootItems tasks := by
    obtain ⟨top, hTop, hBelow⟩ := (job.mem_done item).mp hDone
    obtain rfl | hLower := (descends_of_below hBelow).depth
    · exact hTop
    · omega
  obtain ⟨hFinished, -⟩ | hSkipped := (job.mem_roots root).mp h
  · obtain ⟨item, hDone, hItem⟩ := (job.mem_finishedRootKeys root).mp hFinished
    have hShape := processItem_cases w item
    rw [finishedBy] at hItem
    generalize processItem w item = outcome at hItem hShape
    cases hShape with
    | expanded _ _ _ =>
      dsimp only at hItem
      split_ifs at hItem with hDepth
      · have hTop := hAtTop hDone hDepth
        rw [List.mem_singleton.mp hItem, (mem_rootItems hTop).2]
        exact hTask hTop
      · cases hItem
    | hashed _ =>
      dsimp only at hItem
      split_ifs at hItem with hDepth
      · have hTop := hAtTop hDone hDepth
        rw [List.mem_singleton.mp hItem, (mem_rootItems hTop).2]
        exact hTask hTop
      · cases hItem
    | skipped _ | openFailed _ | failed _ => cases hItem
  · obtain ⟨item, hDone, hItem⟩ := (job.mem_appleDoubleSkippedRoots root).mp hSkipped
    rw [skippedBy_eq] at hItem
    split_ifs at hItem with hTop
    · rw [Bool.and_eq_true, decide_eq_true_iff] at hTop
      rw [List.mem_singleton.mp hItem]
      exact hTask (hAtTop hDone hTop.2)
    · cases hItem

theorem finish_rows (ending : Ending) : (job.finish ending).1 <+: job.roots := by
  rw [finish]
  split
  · exact List.nil_prefix
  · exact List.nil_prefix
  · exact (appendRoots_spec _ 0 job.roots).1

theorem uploadInto_ok {summary result : DeduplicateSummary} {upload : Option (Except Text RcloneLogSummary)}
    (h : uploadInto summary upload = .ok result) :
    result.failed = summary.failed ∧ result.failureBreakdown = summary.failureBreakdown := by
  cases upload with
  | none =>
    cases h
    exact ⟨rfl, rfl⟩
  | some upload =>
    cases upload with
    | error err => cases h
    | ok uploaded =>
      cases h
      exact ⟨rfl, rfl⟩

/-- Nothing fails behind the workers, and there is no destination. -/
theorem finish_plain : job.finish {} = (job.roots, .ok job.summary) := by
  have hAppended (n : Nat) (roots : List (Text × Text)) : appendRoots (fun _ => none) n roots = (roots, .ok ()) := by
    induction roots generalizing n with
    | nil => rfl
    | cons root roots ih => exact congrArg (Prod.map (root :: ·) id) (ih (n + 1))
  rw [finish]
  dsimp only
  rw [hAppended]
  rfl

/-- A run that comes to a summary has appended all its roots. -/
theorem finish_ok {ending : Ending} {result : DeduplicateSummary} (h : (job.finish ending).2 = .ok result) :
    (job.finish ending).1 = job.roots ∧ result.failed = job.summary.failed ∧
      result.failureBreakdown = job.summary.failureBreakdown := by
  rw [finish] at h ⊢
  split at h
  · cases h
  · cases h
  · obtain ⟨⟨⟩, hAppended, hUpload⟩ := Fallible.bind_eq_ok h
    exact ⟨(appendRoots_spec _ 0 job.roots).2 hAppended, uploadInto_ok hUpload⟩

/-- A failure before the placement leaves a root out of the checkpoint. -/
theorem exists_left_out (h : job.summary.failed ≠ job.summary.failureBreakdown.placement) :
    ∃ top ∈ rootItems tasks, top.root ∉ job.roots := by
  by_contra hAll
  push Not at hAll
  apply h
  rw [job.failed_eq, total_of_not_loses (job.not_loses_of_mem_roots hAll), Nat.zero_add, job.failureBreakdown_summary]

end JobRun

/-! ## Run after run -/

/-- Every listed object has an alias and a key that a row of the checkpoint can hold. -/
def Sourced (listings : List Listing) : Prop :=
  ∀ task ∈ listedTasks listings, ∃ object : SourceObject, object.Rowable ∧ object.entry = (task.bucketAlias, task.key)

/-- The rows that the runs on a directory have appended, and the checkpoint file that they left. -/
inductive Resumed : List (Text × Text) → Option Text → Prop where
  | fresh : Resumed [] none
  | run {rows : List (Text × Text)} {contents : Option Text} (h : Resumed rows contents) (d : Dispatch contents)
    (hSourced : Sourced d.listings) : Resumed (rows ++ d.rows) d.after

namespace Dispatch

variable {contents : Option Text} (d : Dispatch contents)

theorem mem_tasks (task : DeduplicateTask) :
    task ∈ d.plan.tasks ↔
      task ∈ listedTasks d.listings ∧ isCheckpointed (loadCheckpoint contents) task.bucketAlias task.key = false := by
  rw [(gatherPending_eq d.hPlan).1, List.mem_filter, isPending, Bool.not_eq_true']

theorem exists_task_of_mem_rows {root : Text × Text} (h : root ∈ d.rows) :
    ∃ task ∈ d.plan.tasks, root = (task.bucketAlias, task.key) := by
  rw [rows] at h
  split at h
  · cases h
  · exact d.job.exists_task_of_mem_roots ((d.job.finish_rows d.ending).subset h)

theorem task_root {top : QueueItem} {tasks : List DeduplicateTask} (h : top ∈ rootItems tasks) :
    ∃ task ∈ tasks, top.root = (task.bucketAlias, task.key) := by
  obtain ⟨i, hi, rfl⟩ := List.mem_mapIdx.mp h
  exact ⟨tasks[i], List.getElem_mem hi, rfl⟩

theorem exists_rootItem {tasks : List DeduplicateTask} {task : DeduplicateTask} (h : task ∈ tasks) :
    ∃ top ∈ rootItems tasks, top.root = (task.bucketAlias, task.key) := by
  obtain ⟨i, hi, rfl⟩ := List.mem_iff_getElem.mp h
  exact ⟨rootItem i tasks[i], List.mem_mapIdx.mpr ⟨i, hi, rfl⟩, rfl⟩

/-- The run ends without a failure that is reported for its files. -/
def Clean : Prop := d.plan.tasks = [] ∨ ∃ summary, (d.job.finish d.ending).2 = .ok summary ∧ summary.failed = 0

theorem clean_of_exit (h : d.exit = 0) : d.Clean := by
  rw [exit] at h
  split at h
  · rename_i hNone
    exact .inl hNone
  · cases hResult : (d.job.finish d.ending).2 with
    | error err =>
      rw [hResult] at h
      cases h
    | ok summary =>
      rw [hResult] at h
      refine .inr ⟨summary, hResult, ?_⟩
      dsimp only [exitCode] at h
      split_ifs at h with hFailed
      · cases h
      · simp only [Bool.or_eq_true, decide_eq_true_eq, not_or, gt_iff_lt, Nat.pos_iff_ne_zero, not_not] at hFailed
        exact hFailed.1

theorem mem_rows_of_clean (h : d.Clean) {task : DeduplicateTask} (hTask : task ∈ d.plan.tasks) :
    (task.bucketAlias, task.key) ∈ d.rows := by
  obtain hNone | ⟨summary, hResult, hFailed⟩ := h
  · rw [hNone] at hTask
    cases hTask
  · obtain ⟨hRows, hSame, -⟩ := d.job.finish_ok hResult
    obtain ⟨top, hTop, hRoot⟩ := exists_rootItem hTask
    rw [rows, if_neg (List.ne_nil_of_mem hTask), hRows, ← hRoot]
    exact (d.job.failed_eq_zero_iff.mp (hSame.symm.trans hFailed)).2 top hTop

theorem left_out {summary : DeduplicateSummary} (hResult : (d.job.finish d.ending).2 = .ok summary)
    (hFailed : summary.failed ≠ summary.failureBreakdown.placement) :
    ∃ task ∈ d.plan.tasks, (task.bucketAlias, task.key) ∉ d.rows := by
  obtain ⟨hRows, hSame, hBreakdown⟩ := d.job.finish_ok hResult
  rw [hSame, hBreakdown] at hFailed
  obtain ⟨top, hTop, hOut⟩ := d.job.exists_left_out hFailed
  obtain ⟨task, hTask, hRoot⟩ := task_root hTop
  refine ⟨task, hTask, ?_⟩
  rwa [rows, if_neg (List.ne_nil_of_mem hTask), hRows, ← hRoot]

end Dispatch

theorem exists_objects {roots : List (Text × Text)}
    (h : ∀ root ∈ roots, ∃ object : SourceObject, object.Rowable ∧ object.entry = root) :
    ∃ objects : List SourceObject, (∀ object ∈ objects, object.Rowable) ∧ objects.map SourceObject.entry = roots := by
  induction roots with
  | nil => exact ⟨[], List.forall_mem_nil _, rfl⟩
  | cons root roots ih =>
    obtain ⟨⟨object, hObject, hEntry⟩, hRest⟩ := List.forall_mem_cons.mp h
    obtain ⟨objects, hObjects, hEntries⟩ := ih hRest
    exact ⟨object :: objects, List.forall_mem_cons.mpr ⟨hObject, hObjects⟩, congrArg₂ List.cons hEntry hEntries⟩

/-- The checkpoint file is the one of the objects whose rows were appended. -/
theorem Resumed.objects {rows : List (Text × Text)} {contents : Option Text} (h : Resumed rows contents) :
    ∃ appended : List SourceObject, (∀ object ∈ appended, object.Rowable) ∧ appended.map SourceObject.entry = rows ∧
      checkpointFile appended = contents := by
  induction h with
  | fresh => exact ⟨[], List.forall_mem_nil _, rfl, rfl⟩
  | @run rows contents h d hSourced ih =>
    obtain ⟨appended, hRowable, hRows, hContents⟩ := ih
    have hAdded : ∀ root ∈ d.rows, ∃ object : SourceObject, object.Rowable ∧ object.entry = root := by
      intro root hRoot
      obtain ⟨task, hTask, rfl⟩ := d.exists_task_of_mem_rows hRoot
      exact hSourced task ((d.mem_tasks task).mp hTask).1
    obtain ⟨added, hAddedRowable, hAddedRows⟩ := exists_objects hAdded
    refine ⟨appended ++ added, List.forall_mem_append.mpr ⟨hRowable, hAddedRowable⟩, ?_, ?_⟩
    · rw [List.map_append, hRows, hAddedRows]
    · rw [checkpointFile, List.foldl_append, ← checkpointFile, hContents, Dispatch.after, ← hAddedRows, List.foldl_map]
      rfl

theorem Resumed.isCheckpointed_iff {rows : List (Text × Text)} {contents : Option Text} (h : Resumed rows contents)
    {task : DeduplicateTask} (hTask : ∃ object : SourceObject, object.Rowable ∧ object.entry = (task.bucketAlias, task.key)) :
    isCheckpointed (loadCheckpoint contents) task.bucketAlias task.key = true ↔ (task.bucketAlias, task.key) ∈ rows := by
  obtain ⟨appended, hRowable, hRows, hContents⟩ := h.objects
  obtain ⟨object, -, hEntry⟩ := hTask
  obtain ⟨hAlias, hKey⟩ := Prod.mk.inj hEntry
  rw [← hContents, ← hAlias, ← hKey, ← checkpointed, exactAfter_of_rowable hRowable object, ← hRows, List.mem_map]
  constructor
  · exact fun hMem => ⟨object, hMem, rfl⟩
  · rintro ⟨other, hMem, hSame⟩
    exact SourceObject.ext_entry hSame ▸ hMem

def pictureListings : List Listing := [("photos".toList, .ok [⟨"a.zip".toList, "a.zip".toList, 1⟩])]

def movingWorld : World := { pictureWorld with moves := fun _ => true }

end Pigeon.Deduplicate
