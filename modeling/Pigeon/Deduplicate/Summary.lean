import Pigeon.Deduplicate.Checkpoint
import Pigeon.Deduplicate.Outcome
import Pigeon.Deduplicate.Queue
import Pigeon.Rclone.Log

/-! # What a run reports

The summary counts files, archives and dropped members, in the order in which the workers come to them. Its numbers
account for every item of the queue, and but for the placement none of them depends on that order.
-/
namespace Pigeon.Deduplicate

open Library Pigeon.Core

set_option autoImplicit false

/-! ## Failures -/

attribute [ext] FailureBreakdown

namespace FailureBreakdown

def merge (failures other : FailureBreakdown) : FailureBreakdown where
  download := failures.download + other.download
  archive := failures.archive + other.archive
  hash := failures.hash + other.hash
  placement := failures.placement + other.placement

def total (failures : FailureBreakdown) : Nat :=
  failures.download + failures.archive + failures.hash + failures.placement

instance : Zero FailureBreakdown := ⟨⟨0, 0, 0, 0⟩⟩

instance : Add FailureBreakdown := ⟨merge⟩

@[simp] theorem zero_def : (0 : FailureBreakdown) = ⟨0, 0, 0, 0⟩ := rfl

@[simp] theorem add_def (failures other : FailureBreakdown) : failures + other = failures.merge other := rfl

@[simp] theorem merge_nothing (failures : FailureBreakdown) : failures.merge ⟨0, 0, 0, 0⟩ = failures := rfl

instance : AddCommMonoid FailureBreakdown where
  add_assoc a b c := by ext <;> simp [merge, Nat.add_assoc]
  zero_add a := by ext <;> simp [merge]
  add_zero a := by ext <;> simp [merge]
  add_comm a b := by ext <;> simp [merge, Nat.add_comm]
  nsmul := nsmulRec

theorem total_add (failures other : FailureBreakdown) : (failures + other).total = failures.total + other.total := by
  simp only [add_def, merge, total]
  omega

theorem total_sum (parts : List FailureBreakdown) : parts.sum.total = (parts.map total).sum := by
  induction parts with
  | nil => rfl
  | cons first parts ih => rw [List.sum_cons, total_add, ih, List.map_cons, List.sum_cons]

end FailureBreakdown

/-! ## What is counted for one item -/

def failuresOf (w : World) (item : QueueItem) : FailureBreakdown :=
  match processItem w item with
  | .zipExpanded _ _ _ dropped => ⟨0, dropped, 0, 0⟩
  | .archiveOpenFailed _ _ => FailureBreakdown.record 0 .archive
  | .failed category => FailureBreakdown.record 0 category
  | .hashed _ _ | .skippedAppleDouble _ => 0

def droppedOf (w : World) (item : QueueItem) : Nat :=
  match processItem w item with
  | .zipExpanded _ _ _ dropped => dropped
  | _ => 0

def unopenedBy (w : World) (item : QueueItem) : List ArchiveFailure :=
  match processItem w item with
  | .archiveOpenFailed key error => [⟨key, error⟩]
  | _ => []

namespace ItemOutcome

def isExpanded : ItemOutcome → Bool
  | .zipExpanded _ _ _ _ => true
  | _ => false

def isSkipped : ItemOutcome → Bool
  | .skippedAppleDouble _ => true
  | _ => false

end ItemOutcome

theorem failureBreakdown_record (w : World) (acc : Gathered) (item : QueueItem) :
    (record w acc item).failureBreakdown = acc.failureBreakdown + failuresOf w item := by
  rw [record, failuresOf]
  cases processItem w item with
  | zipExpanded displayKey depth members dropped =>
    dsimp only
    split_ifs with hDepth hDropped hDropped <;> ext <;> simp [FailureBreakdown.merge]
    all_goals omega
  | hashed depth file => dsimp only; split_ifs <;> simp
  | skippedAppleDouble depth => dsimp only; split_ifs <;> simp
  | archiveOpenFailed key error => ext <;> simp [FailureBreakdown.merge, FailureBreakdown.record]
  | failed category => cases category <;> ext <;> simp [FailureBreakdown.merge, FailureBreakdown.record]

theorem droppedMembers_record (w : World) (acc : Gathered) (item : QueueItem) :
    (record w acc item).droppedMembers = acc.droppedMembers + droppedOf w item := by
  rw [record, droppedOf]
  cases processItem w item with
  | zipExpanded displayKey depth members dropped => dsimp only; split_ifs <;> simp; all_goals omega
  | hashed depth file => dsimp only; split_ifs <;> rfl
  | skippedAppleDouble depth => dsimp only; split_ifs <;> rfl
  | archiveOpenFailed key error => rfl
  | failed category => rfl

theorem archiveFailures_record (w : World) (acc : Gathered) (item : QueueItem) :
    (record w acc item).archiveFailures = acc.archiveFailures ++ unopenedBy w item := by
  rw [record, unopenedBy]
  cases processItem w item with
  | zipExpanded displayKey depth members dropped => dsimp only; split_ifs <;> simp
  | hashed depth file => dsimp only; split_ifs <;> simp
  | skippedAppleDouble depth => dsimp only; split_ifs <;> simp
  | archiveOpenFailed key error => rfl
  | failed category => simp

/-- An item is hashed, skipped, expanded or a failure; an expanded archive may count failures beside. -/
theorem one_outcome (w : World) (item : QueueItem) :
    (hashedBy w item).length + (failuresOf w item).total + (if (processItem w item).isSkipped then 1 else 0) +
      (if (processItem w item).isExpanded then 1 else 0) = 1 + droppedOf w item := by
  rw [hashedBy, failuresOf, droppedOf]
  cases processItem w item with
  | zipExpanded displayKey depth members dropped => simp [FailureBreakdown.total, ItemOutcome.isSkipped, ItemOutcome.isExpanded]; omega
  | hashed depth file => simp [FailureBreakdown.total, ItemOutcome.isSkipped, ItemOutcome.isExpanded]
  | skippedAppleDouble depth => simp [FailureBreakdown.total, ItemOutcome.isSkipped, ItemOutcome.isExpanded]
  | archiveOpenFailed key error =>
    simp [FailureBreakdown.total, FailureBreakdown.record, ItemOutcome.isSkipped, ItemOutcome.isExpanded]
  | failed category =>
    cases category <;>
      simp [FailureBreakdown.total, FailureBreakdown.record, ItemOutcome.isSkipped, ItemOutcome.isExpanded]

theorem loses_iff (w : World) (item : QueueItem) : (processItem w item).loses = true ↔ (failuresOf w item).total ≠ 0 := by
  rw [failuresOf]
  cases processItem w item with
  | zipExpanded displayKey depth members dropped => simp [ItemOutcome.loses, FailureBreakdown.total, Nat.pos_iff_ne_zero]
  | hashed depth file => simp [ItemOutcome.loses, FailureBreakdown.total]
  | skippedAppleDouble depth => simp [ItemOutcome.loses, FailureBreakdown.total]
  | archiveOpenFailed key error => simp [ItemOutcome.loses, FailureBreakdown.total, FailureBreakdown.record]
  | failed category => cases category <;> simp [ItemOutcome.loses, FailureBreakdown.total, FailureBreakdown.record]

/-! ## The summary -/

structure DeduplicateSummary where
  processed : Nat
  failed : Nat
  failureBreakdown : FailureBreakdown
  duplicatesSkipped : Nat
  droppedMembers : Nat
  skippedAppleDouble : Nat
  archiveFailures : List ArchiveFailure
  uploaded : Nat := 0
  uploadFailed : Nat := 0
deriving DecidableEq, Repr

/-- The summary before the upload. -/
def summarize (gathered : Gathered) (placement : Placement) : DeduplicateSummary where
  processed := placement.placed.length
  failed := gathered.failureBreakdown.download + gathered.failureBreakdown.archive + gathered.failureBreakdown.hash +
    placement.failed.length
  failureBreakdown := { FailureBreakdown.merge 0 gathered.failureBreakdown with placement := placement.failed.length }
  duplicatesSkipped := placement.duplicatesSkipped.length
  droppedMembers := gathered.droppedMembers
  skippedAppleDouble := gathered.appleDoubleSkippedRoots.length
  archiveFailures := gathered.archiveFailures

namespace JobRun

variable {w : World} {tasks : List DeduplicateTask} (job : JobRun w tasks)

def summary : DeduplicateSummary := summarize job.pool.gathered job.placement

/-! ## The numbers of a run -/

theorem exact : Exact w tasks job.pool := exact_of_run job.hRun

theorem done_perm (other : JobRun w tasks) : job.pool.done.Perm other.pool.done := by
  refine (List.perm_ext_iff_of_nodup job.exact.once other.exact.once).mpr fun item => ?_
  rw [job.mem_done, other.mem_done]

theorem failureBreakdown_eq : job.pool.gathered.failureBreakdown = (job.pool.done.map (failuresOf w)).sum := by
  rw [job.gathered_eq, foldl_add_part (failureBreakdown_record w)]
  exact zero_add _

theorem droppedMembers_eq : job.pool.gathered.droppedMembers = (job.pool.done.map (droppedOf w)).sum := by
  rw [job.gathered_eq, foldl_add_part (droppedMembers_record w)]
  exact Nat.zero_add _

theorem archiveFailures_eq : job.pool.gathered.archiveFailures = job.pool.done.flatMap (unopenedBy w) := by
  rw [job.gathered_eq, foldl_append_part (archiveFailures_record w)]
  rfl

theorem hashedFiles_eq : job.pool.gathered.hashedFiles = job.pool.done.flatMap (hashedBy w) := by
  rw [job.gathered_eq, foldl_append_part (hashedFiles_record w)]
  rfl

theorem appleDoubleSkippedRoots_eq : job.pool.gathered.appleDoubleSkippedRoots = job.pool.done.flatMap (skippedBy w) := by
  rw [job.gathered_eq, foldl_append_part (appleDoubleSkippedRoots_record w)]
  rfl

theorem placement_failure_zero : job.pool.gathered.failureBreakdown.placement = 0 := by
  have hNone (item : QueueItem) : (failuresOf w item).placement = 0 := by
    rw [failuresOf]
    split <;> try rfl
    rename_i category _
    cases category <;> rfl
  rw [job.failureBreakdown_eq]
  induction job.pool.done with
  | nil => rfl
  | cons item items ih =>
    rw [List.map_cons, List.sum_cons, FailureBreakdown.add_def]
    exact (congrArg₂ (· + ·) (hNone item) ih).trans (Nat.zero_add 0)

theorem counted_items (items : List QueueItem) :
    (items.flatMap (hashedBy w)).length + (items.map (failuresOf w)).sum.total +
        items.countP (fun item => (processItem w item).isSkipped) + items.countP (fun item => (processItem w item).isExpanded) =
      items.length + (items.map (droppedOf w)).sum := by
  induction items with
  | nil => rfl
  | cons item items ih =>
    have hOne := one_outcome w item
    rw [List.flatMap_cons, List.length_append, List.map_cons, List.sum_cons, FailureBreakdown.total_add, List.countP_cons,
      List.countP_cons, List.length_cons, List.map_cons, List.sum_cons]
    omega

theorem rootItems_keys (tasks : List DeduplicateTask) :
    (rootItems tasks).map (fun item => isAppleDoubleBasename item.displayKey) =
      tasks.map fun task => isAppleDoubleBasename task.key := by
  apply List.ext_getElem?
  intro i
  rw [rootItems, List.getElem?_map, List.getElem?_mapIdx, List.getElem?_map, Option.map_map]
  rfl

theorem rootItems_distinct (tasks : List DeduplicateTask) : (rootItems tasks).Nodup := by
  rw [List.Nodup, List.pairwise_iff_getElem]
  intro i j hi hj hLess hSame
  have hPlace := congrArg QueueItem.place hSame
  simp only [rootItems, List.getElem_mapIdx, rootItem] at hPlace
  exact Nat.ne_of_lt hLess (List.singleton_inj.mp hPlace)

theorem skippedBy_eq (w : World) (item : QueueItem) :
    skippedBy w item = if isAppleDoubleBasename item.displayKey && decide (item.depth = 0) then [item.root] else [] := by
  rw [skippedBy]
  by_cases hKey : isAppleDoubleBasename item.displayKey = true
  · rw [processItem, if_pos hKey, hKey]
    simp
  · have hShape := processItem_cases w item
    rw [Bool.not_eq_true] at hKey
    rw [hKey, Bool.false_and, if_neg Bool.false_ne_true]
    split
    · rename_i hOutcome
      rw [hOutcome] at hShape
      cases hShape with
      | skipped hSkipped => rw [hKey] at hSkipped; cases hSkipped
    · rfl

/-- The skipped objects that are counted are those of the listing. -/
theorem length_skipped : job.pool.gathered.appleDoubleSkippedRoots.length = tasks.countP fun task => isAppleDoubleBasename task.key := by
  have hLength (items : List QueueItem) : (items.flatMap (skippedBy w)).length =
      (items.filter fun item => isAppleDoubleBasename item.displayKey && decide (item.depth = 0)).length := by
    induction items with
    | nil => rfl
    | cons item items ih =>
      rw [List.flatMap_cons, List.length_append, ih, skippedBy_eq, List.filter_cons]
      split <;> simp [Nat.add_comm]
  have hRoots : (job.pool.done.filter fun item => isAppleDoubleBasename item.displayKey && decide (item.depth = 0)).Perm
      ((rootItems tasks).filter fun item => isAppleDoubleBasename item.displayKey) := by
    refine (List.perm_ext_iff_of_nodup (job.exact.once.filter _) ((rootItems_distinct tasks).filter _)).mpr fun item => ?_
    rw [List.mem_filter, List.mem_filter, Bool.and_eq_true, decide_eq_true_iff, job.mem_done]
    constructor
    · rintro ⟨⟨top, hTop, hBelow⟩, hKey, hDepth⟩
      obtain rfl | hBelowTop := (descends_of_below hBelow).depth
      · exact ⟨hTop, hKey⟩
      · omega
    · exact fun ⟨hTop, hKey⟩ => ⟨⟨item, hTop, .refl⟩, hKey, (mem_rootItems hTop).1⟩
  rw [job.appleDoubleSkippedRoots_eq, hLength, hRoots.length_eq, ← List.countP_eq_length_filter]
  have hKeys := congrArg (List.countP id) (rootItems_keys tasks)
  rwa [List.countP_map, List.countP_map] at hKeys

/-! ## The account -/

/-- What the summary of a run says about the items of its queue. -/
structure Accounts : Prop where
  /-- Every item is placed, a duplicate, failed, skipped or expanded, and the dropped members come on top. -/
  items : job.summary.processed + job.summary.duplicatesSkipped + job.summary.failed +
      job.pool.done.countP (fun item => (processItem w item).isSkipped) +
        job.pool.done.countP (fun item => (processItem w item).isExpanded) =
      job.pool.done.length + job.summary.droppedMembers
  failed : job.summary.failed = job.summary.failureBreakdown.total
  archives : job.summary.droppedMembers + job.summary.archiveFailures.length ≤ job.summary.failureBreakdown.archive
  named : ∀ failure ∈ job.summary.archiveFailures, ∃ item, Pool.Reaches (membersOf w) (rootItems tasks) item ∧
    item.displayKey = failure.key ∧ processItem w item = .archiveOpenFailed failure.key failure.error
  skipped : job.summary.skippedAppleDouble = tasks.countP fun task => isAppleDoubleBasename task.key

/-- The parts of the summaries of two runs that do not depend on the order of the workers. -/
structure SameAccount (other : JobRun w tasks) : Prop where
  download : job.summary.failureBreakdown.download = other.summary.failureBreakdown.download
  archive : job.summary.failureBreakdown.archive = other.summary.failureBreakdown.archive
  hash : job.summary.failureBreakdown.hash = other.summary.failureBreakdown.hash
  droppedMembers : job.summary.droppedMembers = other.summary.droppedMembers
  skippedAppleDouble : job.summary.skippedAppleDouble = other.summary.skippedAppleDouble
  archiveFailures : job.summary.archiveFailures.Perm other.summary.archiveFailures
  hashed : job.summary.processed + job.summary.duplicatesSkipped + job.summary.failureBreakdown.placement =
    other.summary.processed + other.summary.duplicatesSkipped + other.summary.failureBreakdown.placement

theorem failureBreakdown_summary :
    job.summary.failureBreakdown = { job.pool.gathered.failureBreakdown with placement := job.placement.failed.length } := by
  have hMerge : FailureBreakdown.merge 0 job.pool.gathered.failureBreakdown = job.pool.gathered.failureBreakdown := zero_add _
  rw [summary, summarize, hMerge]

theorem placed_length : job.placement.placed.length + job.placement.duplicatesSkipped.length + job.placement.failed.length =
    job.pool.gathered.hashedFiles.length :=
  (placeAndReport_correct w job.tree job.index job.pool.gathered.hashedFiles).2.counts

theorem dropped_le_archive (items : List QueueItem) :
    (items.map (droppedOf w)).sum + (items.flatMap (unopenedBy w)).length ≤ (items.map (failuresOf w)).sum.archive := by
  have hOne (item : QueueItem) : droppedOf w item + (unopenedBy w item).length ≤ (failuresOf w item).archive := by
    rw [droppedOf, unopenedBy, failuresOf]
    cases processItem w item with
    | zipExpanded _ _ _ _ | hashed _ _ | skippedAppleDouble _ | archiveOpenFailed _ _ => simp [FailureBreakdown.record]
    | failed category => exact Nat.zero_le _
  induction items with
  | nil => exact Nat.zero_le _
  | cons item items ih =>
    have hItem := hOne item
    rw [List.map_cons, List.sum_cons, List.flatMap_cons, List.length_append, List.map_cons, List.sum_cons, FailureBreakdown.add_def,
      FailureBreakdown.merge]
    dsimp only
    omega

theorem accounts : job.Accounts where
  items := by
    have hAll := counted_items (w := w) job.pool.done
    have hPlaced := job.placed_length
    have hNone := job.placement_failure_zero
    rw [← job.failureBreakdown_eq, ← job.hashedFiles_eq, ← job.droppedMembers_eq, FailureBreakdown.total] at hAll
    dsimp only [summary, summarize]
    omega
  failed := by
    rw [job.failureBreakdown_summary]
    rfl
  archives := by
    rw [job.failureBreakdown_summary]
    show job.pool.gathered.droppedMembers + job.pool.gathered.archiveFailures.length ≤ job.pool.gathered.failureBreakdown.archive
    rw [job.droppedMembers_eq, job.archiveFailures_eq, job.failureBreakdown_eq]
    exact dropped_le_archive _
  named failure hFailure := by
    have hMem : failure ∈ job.pool.done.flatMap (unopenedBy w) := job.archiveFailures_eq ▸ hFailure
    obtain ⟨item, hDone, hItem⟩ := List.mem_flatMap.mp hMem
    refine ⟨item, (job.mem_done item).mp hDone, ?_⟩
    have hShape := processItem_cases w item
    rw [unopenedBy] at hItem
    split at hItem
    · rename_i hOutcome
      rw [hOutcome] at hShape
      obtain rfl := List.mem_singleton.mp hItem
      cases hShape with
      | openFailed error => exact ⟨rfl, hOutcome⟩
    · cases hItem
  skipped := job.length_skipped

theorem sameAccount (other : JobRun w tasks) : job.SameAccount other := by
  have hPerm := job.done_perm other
  have hFailures : job.pool.gathered.failureBreakdown = other.pool.gathered.failureBreakdown := by
    rw [job.failureBreakdown_eq, other.failureBreakdown_eq]
    exact (hPerm.map _).sum_eq
  have hHashed : job.pool.gathered.hashedFiles.length = other.pool.gathered.hashedFiles.length := by
    rw [job.hashedFiles_eq, other.hashedFiles_eq]
    exact (hPerm.flatMap_right _).length_eq
  have hPlaced := job.placed_length
  have hOtherPlaced := other.placed_length
  refine ⟨?_, ?_, ?_, ?_, ?_, ?_, ?_⟩
  · rw [job.failureBreakdown_summary, other.failureBreakdown_summary, hFailures]
  · rw [job.failureBreakdown_summary, other.failureBreakdown_summary, hFailures]
  · rw [job.failureBreakdown_summary, other.failureBreakdown_summary, hFailures]
  · show job.pool.gathered.droppedMembers = other.pool.gathered.droppedMembers
    rw [job.droppedMembers_eq, other.droppedMembers_eq]
    exact (hPerm.map _).sum_eq
  · exact job.length_skipped.trans other.length_skipped.symm
  · show job.pool.gathered.archiveFailures.Perm other.pool.gathered.archiveFailures
    rw [job.archiveFailures_eq, other.archiveFailures_eq]
    exact hPerm.flatMap_right _
  · rw [job.failureBreakdown_summary, other.failureBreakdown_summary]
    dsimp only [summary, summarize]
    omega

/-! ## A run without failures -/

theorem not_loses_of_total {items : List QueueItem} (h : (items.map (failuresOf w)).sum.total = 0) {item : QueueItem}
    (hItem : item ∈ items) : (processItem w item).loses = false := by
  rw [FailureBreakdown.total_sum, List.map_map] at h
  have hZero := List.sum_eq_zero_iff.mp h _ (List.mem_map_of_mem hItem)
  rw [← Bool.not_eq_true, loses_iff]
  exact fun hSome => hSome hZero

theorem total_of_not_loses {items : List QueueItem} (h : ∀ item ∈ items, (processItem w item).loses = false) :
    (items.map (failuresOf w)).sum.total = 0 := by
  rw [FailureBreakdown.total_sum, List.map_map, List.sum_eq_zero_iff, List.forall_mem_map]
  intro item hItem
  by_contra hSome
  have hLoses := (loses_iff w item).mpr hSome
  rw [h item hItem] at hLoses
  cases hLoses

theorem failed_eq : job.summary.failed = (job.pool.done.map (failuresOf w)).sum.total + job.placement.failed.length := by
  have hNone := job.placement_failure_zero
  rw [← job.failureBreakdown_eq, FailureBreakdown.total]
  dsimp only [summary, summarize]
  omega

theorem settles_of_placed (hPlaced : job.placement.failed = []) {file : HashedFile}
    (hFile : file ∈ job.pool.gathered.hashedFiles) : job.Settles file := by
  obtain ⟨before, after, hSplit⟩ := List.append_of_mem ((List.mem_insertionSort PlacedBefore).mpr hFile)
  refine ⟨before, after, hSplit, fun hFails => ?_⟩
  have hFailed := (job.mem_failed_iff file).mpr ⟨before, after, hSplit, hFails⟩
  rw [hPlaced] at hFailed
  cases hFailed

theorem mem_roots_of_not_loses (hLoses : ∀ item ∈ job.pool.done, (processItem w item).loses = false)
    (hPlaced : job.placement.failed = []) {top : QueueItem} (hTop : top ∈ rootItems tasks) : top.root ∈ job.roots := by
  have hDone : top ∈ job.pool.done := (job.mem_done top).mpr ⟨top, hTop, .refl⟩
  have hRootKey := (mem_rootItems hTop).2
  rw [job.mem_roots]
  cases hKey : isAppleDoubleBasename top.displayKey with
  | true =>
    refine .inr ((job.mem_appleDoubleSkippedRoots _).mpr ⟨top, hDone, ?_⟩)
    rw [skippedBy_eq, hKey, (mem_rootItems hTop).1]
    exact List.mem_singleton_self _
  | false =>
    refine .inl ⟨job.finished_of_not_loses hTop (hLoses top hDone) hKey, fun hTainted => ?_, ?_⟩
    · obtain ⟨other, hOther, -, item, hBelow, hLost⟩ := (job.mem_taintedRoots_iff _).mp hTainted
      rw [hLoses item ((job.mem_done item).mpr ⟨other, hOther, hBelow⟩)] at hLost
      cases hLost
    · have hNone := hLoses top hDone
      have hShape := processItem_cases w top
      cases hOutcome : processItem w top with
      | zipExpanded displayKey depth members dropped =>
        rw [hOutcome] at hShape
        cases hShape with
        | expanded hZip _ _ => exact .inr (hRootKey.symm ▸ hZip : isZipKey top.rootKey = true)
      | hashed depth file =>
        have hSettles := job.settles_of_placed hPlaced (job.hashed_mem ⟨top, hTop, .refl⟩ hOutcome)
        refine .inl ((job.mem_finishedKeys_iff _).mpr ⟨file, hSettles, ?_⟩)
        rw [hOutcome] at hShape
        cases hShape with
        | hashed _ => rw [QueueItem.root, ← hRootKey]; rfl
      | skippedAppleDouble depth =>
        rw [hOutcome] at hShape
        cases hShape with
        | skipped hSkipped => rw [hKey] at hSkipped; cases hSkipped
      | archiveOpenFailed key error => rw [hOutcome] at hNone; cases hNone
      | failed category => rw [hOutcome] at hNone; cases hNone

theorem not_loses_of_mem_roots (hRoots : ∀ top ∈ rootItems tasks, top.root ∈ job.roots) :
    ∀ item ∈ job.pool.done, (processItem w item).loses = false := by
  intro item hItem
  obtain ⟨top, hTop, hBelow⟩ := (job.mem_done item).mp hItem
  rw [← Bool.not_eq_true]
  intro hLoses
  obtain ⟨-, hClean, -⟩ | hSkipped := (job.mem_roots _).mp (hRoots top hTop)
  · exact hClean ((job.mem_taintedRoots_iff _).mpr ⟨top, hTop, rfl, item, hBelow, hLoses⟩)
  · have hKey : isAppleDoubleBasename top.displayKey = true := (mem_rootItems hTop).2 ▸ job.skipped_root hSkipped
    obtain ⟨rfl, hOutcome⟩ := eq_of_below_skipped hKey hBelow
    rw [hOutcome] at hLoses
    cases hLoses

/-- A run reports no failure exactly when it places what it hashed and checkpoints all its roots. -/
theorem failed_eq_zero_iff :
    job.summary.failed = 0 ↔ job.placement.failed = [] ∧ ∀ top ∈ rootItems tasks, top.root ∈ job.roots := by
  rw [job.failed_eq, Nat.add_eq_zero_iff, List.length_eq_zero_iff]
  constructor
  · rintro ⟨hTotal, hPlaced⟩
    exact ⟨hPlaced, fun top => job.mem_roots_of_not_loses (fun item => not_loses_of_total hTotal) hPlaced⟩
  · rintro ⟨hPlaced, hRoots⟩
    exact ⟨total_of_not_loses (job.not_loses_of_mem_roots hRoots), hPlaced⟩

theorem kept_of_failed_eq_zero (h : job.summary.failed = 0) {item : QueueItem} (hItem : item ∈ job.pool.done) : job.Kept item := by
  obtain ⟨hPlaced, hRoots⟩ := job.failed_eq_zero_iff.mp h
  refine job.kept_of_not_loses ((job.mem_done item).mp hItem) (job.not_loses_of_mem_roots hRoots item hItem) ?_
  intro depth file hHashed hFails
  have hFailed := (job.mem_failed_iff file).mpr hFails
  rw [hPlaced] at hFailed
  cases hFailed

end JobRun

end Pigeon.Deduplicate
