import Pigeon.Deduplicate.Placement

/-! # Which roots are checkpointed

The filter of the checkpoint asks of a plain file whether some file of its alias and key was
placed, and of a zip only whether a worker tainted it. A file that cannot be placed taints
nothing, so the filter leaves its root out only when something else does.
-/
namespace Pigeon.Deduplicate

open Library Pigeon.Core

set_option autoImplicit false

/-! ## One item -/

theorem exists_of_map_eq_ok {ε α β : Type} {f : α → β} {x : Except ε α} {y : β} (h : x.map f = .ok y) :
    ∃ a, x = .ok a ∧ f a = y := by
  cases x with
  | error error => cases h
  | ok a => exact ⟨a, rfl, Except.ok.inj h⟩

inductive Processes (w : World) (item : QueueItem) : ItemOutcome → Prop where
  | skipped (hKey : isAppleDoubleBasename item.displayKey = true) :
    Processes w item (.skippedAppleDouble item.depth)
  | expanded {compressedSize dropped : Nat} {entries : List (Except Text ZipEntry)} {members : List ExtractedMember}
    (hZip : isZipKey item.displayKey = true) (hArchive : w.archive item.place = .opened compressedSize entries)
    (hExpand : expandToDir compressedSize entries = .ok (members, dropped)) :
    Processes w item (.zipExpanded item.displayKey item.depth (members.map item.member) dropped)
  | hashed {contentHash : Text} (hHash : w.sha256File item.place = some contentHash) :
    Processes w item (.hashed item.depth
      ⟨item.displayKey, item.bucketAlias, item.place, extensionOf item.displayKey, contentHash⟩)
  | openFailed (error : Text) : Processes w item (.archiveOpenFailed item.displayKey error)
  | failed (category : FailureCategory) : Processes w item (.failed category)

theorem processItem_cases (w : World) (item : QueueItem) : Processes w item (processItem w item) := by
  rw [processItem]
  split
  · rename_i hKey
    exact .skipped hKey
  · split
    · split
      · rename_i hZip
        rw [QueueItem.expand]
        split
        · exact .failed _
        · split
          · split
            · exact .failed _
            · exact .openFailed _
            · rename_i hArchive
              split
              · rename_i hExpand
                exact .expanded hZip hArchive hExpand
              · exact .openFailed _
          · exact .failed _
      · rw [QueueItem.hashFile]
        split
        · rename_i hHash
          exact .hashed hHash
        · exact .failed _
    · exact .failed _

theorem mem_expandEntries {budget start total : Nat} {entries : List (Except Text ZipEntry)}
    {members : List ExtractedMember} (hExpand : expandEntries budget entries start total = .ok (members, 0)) {i : Nat}
    {entry : ZipEntry} (hEntry : entries[i]? = some (.ok entry)) (hFile : entry.isDir = false)
    (hData : isSkippableZipEntry entry.name = false) : ∃ size, ⟨entry.name, start + i, size⟩ ∈ members := by
  induction entries generalizing start total members i with
  | nil => simp at hEntry
  | cons first entries ih =>
    have hLater {total members} (hRest : expandEntries budget entries (start + 1) total = .ok (members, 0)) {j : Nat}
        (hj : i = j + 1) : ∃ size, ⟨entry.name, start + i, size⟩ ∈ members := by
      subst hj
      obtain ⟨size, hMem⟩ := ih hRest (by simpa using hEntry)
      exact ⟨size, by rwa [show start + (j + 1) = start + 1 + j by omega]⟩
    cases first with
    | error error => simp [expandEntries] at hExpand
    | ok head =>
      rw [expandEntries] at hExpand
      split at hExpand
      · rename_i hSkipped
        cases i with
        | zero =>
          obtain rfl : head = entry := by simpa using hEntry
          simp [hFile, hData] at hSkipped
        | succ j => exact hLater hExpand rfl
      · split at hExpand
        · cases hExpand
        · split at hExpand
          · obtain ⟨⟨rest, dropped⟩, hRest, hResult⟩ := exists_of_map_eq_ok hExpand
            obtain ⟨rfl, rfl⟩ : _ :: rest = members ∧ dropped = 0 := by simpa using hResult
            cases i with
            | zero =>
              obtain rfl : head = entry := by simpa using hEntry
              exact ⟨_, List.mem_cons_self⟩
            | succ j =>
              obtain ⟨size, hMem⟩ := hLater hRest rfl
              exact ⟨size, List.mem_cons_of_mem _ hMem⟩
          · obtain ⟨⟨rest, dropped⟩, -, hResult⟩ := exists_of_map_eq_ok hExpand
            simp at hResult

def ItemOutcome.loses : ItemOutcome → Bool
  | .zipExpanded _ _ _ dropped => decide (0 < dropped)
  | .archiveOpenFailed _ _ | .failed _ => true
  | .hashed _ _ | .skippedAppleDouble _ => false

/-- The bucket alias and the root key that an item is accounted to. -/
def QueueItem.root (item : QueueItem) : Text × Text := (item.bucketAlias, item.rootKey)

/-! ## What is gathered from one item -/

def finishedBy (w : World) (item : QueueItem) : List (Text × Text) :=
  match processItem w item with
  | .zipExpanded displayKey depth _ _ => if depth = 0 then [(item.bucketAlias, displayKey)] else []
  | .hashed depth file => if depth = 0 then [(item.bucketAlias, file.originalKey)] else []
  | _ => []

def hashedBy (w : World) (item : QueueItem) : List HashedFile :=
  match processItem w item with
  | .hashed _ file => [file]
  | _ => []

def skippedBy (w : World) (item : QueueItem) : List (Text × Text) :=
  match processItem w item with
  | .skippedAppleDouble depth => if depth = 0 then [item.root] else []
  | _ => []

def taintedBy (w : World) (item : QueueItem) : List (Text × Text) :=
  if (processItem w item).loses then [item.root] else []

theorem finishedRootKeys_record (w : World) (acc : Gathered) (item : QueueItem) :
    (record w acc item).finishedRootKeys = acc.finishedRootKeys ++ finishedBy w item := by
  rw [record, finishedBy]
  cases processItem w item with
  | zipExpanded displayKey depth members dropped => dsimp only; split_ifs <;> simp
  | hashed depth file => dsimp only; split_ifs <;> simp
  | skippedAppleDouble depth => dsimp only; split_ifs <;> simp
  | archiveOpenFailed key error => simp
  | failed category => simp

theorem hashedFiles_record (w : World) (acc : Gathered) (item : QueueItem) :
    (record w acc item).hashedFiles = acc.hashedFiles ++ hashedBy w item := by
  rw [record, hashedBy]
  cases processItem w item with
  | zipExpanded displayKey depth members dropped => dsimp only; split_ifs <;> simp
  | hashed depth file => dsimp only; split_ifs <;> simp
  | skippedAppleDouble depth => dsimp only; split_ifs <;> simp
  | archiveOpenFailed key error => simp
  | failed category => simp

theorem taintedRoots_record (w : World) (acc : Gathered) (item : QueueItem) :
    (record w acc item).taintedRoots = acc.taintedRoots ++ taintedBy w item := by
  rw [record, taintedBy]
  cases processItem w item with
  | zipExpanded displayKey depth members dropped =>
    dsimp only [ItemOutcome.loses]
    split_ifs <;> simp_all [QueueItem.root]
  | hashed depth file => dsimp only; split_ifs <;> simp_all [ItemOutcome.loses]
  | skippedAppleDouble depth => dsimp only; split_ifs <;> simp_all [ItemOutcome.loses]
  | archiveOpenFailed key error => rfl
  | failed category => rfl

theorem appleDoubleSkippedRoots_record (w : World) (acc : Gathered) (item : QueueItem) :
    (record w acc item).appleDoubleSkippedRoots = acc.appleDoubleSkippedRoots ++ skippedBy w item := by
  rw [record, skippedBy]
  cases processItem w item with
  | zipExpanded displayKey depth members dropped => dsimp only; split_ifs <;> simp
  | hashed depth file => dsimp only; split_ifs <;> simp
  | skippedAppleDouble depth => dsimp only; split_ifs <;> simp [QueueItem.root]
  | archiveOpenFailed key error => simp
  | failed category => simp

/-! ## The items below a root -/

/-- An item below a root is accounted to it, and only the root has depth 0. -/
structure Descends (top item : QueueItem) : Prop where
  root : item.root = top.root
  depth : item = top ∨ 0 < item.depth

theorem descends_of_mem {w : World} {parent child : QueueItem} (h : child ∈ membersOf w parent) :
    child.root = parent.root ∧ 0 < child.depth := by
  rw [membersOf] at h
  cases hOutcome : processItem w parent with
  | zipExpanded displayKey depth members dropped =>
    rw [hOutcome] at h
    have hShape := processItem_cases w parent
    rw [hOutcome] at hShape
    cases hShape with
    | expanded _ _ _ =>
      obtain ⟨extracted, -, rfl⟩ := List.mem_map.mp h
      exact ⟨rfl, Nat.succ_pos _⟩
  | hashed _ _ | skippedAppleDouble _ | archiveOpenFailed _ _ | failed _ =>
    rw [hOutcome] at h
    cases h

theorem descends_of_below {w : World} {top item : QueueItem} (h : Pool.Below (membersOf w) top item) :
    Descends top item := by
  induction h with
  | refl => exact ⟨rfl, .inl rfl⟩
  | tail _ hChild ih =>
    obtain ⟨hRoot, hDepth⟩ := descends_of_mem hChild
    exact ⟨hRoot.trans ih.root, .inr hDepth⟩

theorem mem_rootItems {tasks : List DeduplicateTask} {top : QueueItem} (h : top ∈ rootItems tasks) :
    top.depth = 0 ∧ top.displayKey = top.rootKey := by
  obtain ⟨i, hi, rfl⟩ := List.mem_mapIdx.mp h
  exact ⟨rfl, rfl⟩

/-! ## A run of the job -/

/-- A run whose workers have all stopped, with the result tree and the index that the pass
starts from. -/
structure JobRun (w : World) (tasks : List DeduplicateTask) where
  concurrency : Nat
  schedule : List Nat
  pool : Pool QueueItem Gathered
  hRun : run (Pool.advance (membersOf w) (record w))
    (Pool.start (max concurrency 1) (rootItems tasks) Gathered.nothing) schedule = some pool
  hStopped : pool.Stopped
  tree : FileTree Place
  index : ContentIndex

namespace JobRun

variable {w : World} {tasks : List DeduplicateTask} (job : JobRun w tasks)

def placement : Placement := placeAndReport w job.tree job.index job.pool.gathered.hashedFiles

def roots : List (Text × Text) := checkpointRoots job.pool.gathered job.placement.finishedKeys

/-- The roots appended to the checkpoint when that many appends succeed. -/
def checkpointed (appends : Nat) : List (Text × Text) := job.roots.take appends

/-- Nothing of the item itself is lost: an archive gave all its files that are not metadata,
a file is in the result tree or a duplicate of a committed hash. -/
def Kept (item : QueueItem) : Prop :=
  match processItem w item with
  | .zipExpanded _ _ members dropped =>
    dropped = 0 ∧ ∀ compressedSize entries, w.archive item.place = .opened compressedSize entries →
      ∀ (i : Nat) (entry : ZipEntry), entries[i]? = some (.ok entry) → entry.isDir = false →
        isSkippableZipEntry entry.name = false →
          ∃ member ∈ members, member.place = item.place ++ [i] ∧ member.displayKey = item.displayKey ++ '!' :: entry.name
  | .hashed _ file =>
    file ∉ job.placement.failed ∧
      ((∃ path, job.placement.tree.lookup path = some (.file file.scratchPath)) ∨
        file ∈ job.placement.duplicatesSkipped ∧ (job.placement.index.lookup file.contentHash).isSome)
  | .skippedAppleDouble _ => True
  | .archiveOpenFailed _ _ | .failed _ => False

/-- A checkpointed root has nothing below it that is lost. -/
def Safe : Prop :=
  ∀ appends, ∀ root ∈ job.checkpointed appends, ∀ top ∈ rootItems tasks, top.root = root →
    ∀ item, Pool.Below (membersOf w) top item → job.Kept item

/-- The pass takes its error branch for the file. -/
def FailsToPlace (file : HashedFile) : Prop :=
  MeetsIn (placeFile w) (PlaceFails w) (.start job.tree job.index)
    (job.pool.gathered.hashedFiles.insertionSort PlacedBefore) file

def Settles (file : HashedFile) : Prop :=
  MeetsIn (placeFile w) (fun p file => ¬ PlaceFails w p file) (.start job.tree job.index)
    (job.pool.gathered.hashedFiles.insertionSort PlacedBefore) file

/-- The root stays out of the checkpoint whatever becomes of the file: an item below it is
lost on the way, or it is no zip and no file of its alias and key is settled. -/
def Excluded (root : Text × Text) : Prop :=
  (∃ top ∈ rootItems tasks, top.root = root ∧
      ∃ item, Pool.Below (membersOf w) top item ∧ (processItem w item).loses = true) ∨
    isZipKey root.2 = false ∧ ∀ file, job.Settles file → file.pair ≠ root

/-- Every file that fails to be placed belongs to a root that is left out anyway. -/
def FailuresExcluded : Prop :=
  ∀ top ∈ rootItems tasks, ∀ item, Pool.Below (membersOf w) top item → ∀ depth file,
    processItem w item = .hashed depth file → job.FailsToPlace file → job.Excluded top.root

/-! ## What the workers leave behind -/

theorem mem_done (item : QueueItem) : item ∈ job.pool.done ↔ Pool.Reaches (membersOf w) (rootItems tasks) item :=
  (Pool.run_stopped (by omega) job.hRun job.hStopped).1 item

theorem gathered_eq : job.pool.gathered = job.pool.done.foldl (record w) .nothing :=
  (Pool.run_stopped (by omega) job.hRun job.hStopped).2

theorem mem_hashedFiles (file : HashedFile) :
    file ∈ job.pool.gathered.hashedFiles ↔ ∃ item ∈ job.pool.done, file ∈ hashedBy w item := by
  rw [job.gathered_eq, foldl_append_part (hashedFiles_record w)]
  exact List.mem_flatMap

theorem mem_finishedRootKeys (root : Text × Text) :
    root ∈ job.pool.gathered.finishedRootKeys ↔ ∃ item ∈ job.pool.done, root ∈ finishedBy w item := by
  rw [job.gathered_eq, foldl_append_part (finishedRootKeys_record w)]
  exact List.mem_flatMap

theorem mem_taintedRoots (root : Text × Text) :
    root ∈ job.pool.gathered.taintedRoots ↔ ∃ item ∈ job.pool.done, root ∈ taintedBy w item := by
  rw [job.gathered_eq, foldl_append_part (taintedRoots_record w)]
  exact List.mem_flatMap

theorem mem_appleDoubleSkippedRoots (root : Text × Text) :
    root ∈ job.pool.gathered.appleDoubleSkippedRoots ↔ ∃ item ∈ job.pool.done, root ∈ skippedBy w item := by
  rw [job.gathered_eq, foldl_append_part (appleDoubleSkippedRoots_record w)]
  exact List.mem_flatMap

theorem mem_taintedRoots_iff (root : Text × Text) :
    root ∈ job.pool.gathered.taintedRoots ↔
      ∃ top ∈ rootItems tasks, top.root = root ∧
        ∃ item, Pool.Below (membersOf w) top item ∧ (processItem w item).loses = true := by
  rw [job.mem_taintedRoots]
  constructor
  · rintro ⟨item, hDone, hTainted⟩
    obtain ⟨top, hTop, hBelow⟩ := (job.mem_done item).mp hDone
    rw [taintedBy] at hTainted
    split at hTainted
    · rename_i hLoses
      rw [List.mem_singleton.mp hTainted]
      exact ⟨top, hTop, (descends_of_below hBelow).root.symm, item, hBelow, hLoses⟩
    · cases hTainted
  · rintro ⟨top, hTop, rfl, item, hBelow, hLoses⟩
    refine ⟨item, (job.mem_done item).mpr ⟨top, hTop, hBelow⟩, ?_⟩
    rw [taintedBy, if_pos hLoses]
    exact List.mem_singleton.mpr (descends_of_below hBelow).root.symm

theorem skipped_root {root : Text × Text} (hRoot : root ∈ job.pool.gathered.appleDoubleSkippedRoots) :
    isAppleDoubleBasename root.2 = true := by
  obtain ⟨item, hDone, hSkipped⟩ := (job.mem_appleDoubleSkippedRoots root).mp hRoot
  obtain ⟨top, hTop, hBelow⟩ := (job.mem_done item).mp hDone
  rw [skippedBy] at hSkipped
  have hShape := processItem_cases w item
  cases hOutcome : processItem w item with
  | skippedAppleDouble depth =>
    rw [hOutcome] at hSkipped hShape
    cases hShape with
    | skipped hKey =>
      dsimp only at hSkipped
      split at hSkipped
      · rename_i hDepth
        obtain rfl | hBelowTop := (descends_of_below hBelow).depth
        · rw [List.mem_singleton.mp hSkipped, QueueItem.root, ← (mem_rootItems hTop).2]
          exact hKey
        · omega
      · cases hSkipped
  | zipExpanded _ _ _ _ | hashed _ _ | archiveOpenFailed _ _ | failed _ =>
    rw [hOutcome] at hSkipped
    cases hSkipped

/-! ## What the pass leaves behind -/

theorem mem_failed_iff (file : HashedFile) : file ∈ job.placement.failed ↔ job.FailsToPlace file := by
  have hPass := mem_foldl_iff Placement.failed id
    (fun p first other => (placeFile_cases w p first).mem_failed other) (.start job.tree job.index)
    (job.pool.gathered.hashedFiles.insertionSort PlacedBefore) file
  refine hPass.trans ⟨?_, fun hFails => .inr ⟨file, hFails, rfl⟩⟩
  rintro (hStart | ⟨_, hFails, rfl⟩)
  · cases hStart
  · exact hFails

theorem mem_finishedKeys_iff (root : Text × Text) :
    root ∈ job.placement.finishedKeys ↔ ∃ file, job.Settles file ∧ file.pair = root := by
  have hPass := mem_foldl_iff Placement.finishedKeys HashedFile.pair
    (fun p first root => (placeFile_cases w p first).mem_finishedKeys root) (.start job.tree job.index)
    (job.pool.gathered.hashedFiles.insertionSort PlacedBefore) root
  refine hPass.trans ⟨?_, fun ⟨file, hSettles, hPair⟩ => .inr ⟨file, hSettles, hPair.symm⟩⟩
  rintro (hStart | ⟨file, hSettles, rfl⟩)
  · cases hStart
  · exact ⟨file, hSettles, rfl⟩

theorem mem_roots (root : Text × Text) :
    root ∈ job.roots ↔
      (root ∈ job.pool.gathered.finishedRootKeys ∧ root ∉ job.pool.gathered.taintedRoots ∧
        (root ∈ job.placement.finishedKeys ∨ isZipKey root.2 = true)) ∨
        root ∈ job.pool.gathered.appleDoubleSkippedRoots := by
  rw [roots, checkpointRoots]
  simp

theorem mem_roots_of_checkpointed {job : JobRun w tasks} {appends : Nat} {root : Text × Text}
    (h : root ∈ job.checkpointed appends) : root ∈ job.roots := (List.take_sublist appends _).subset h

theorem hashed_mem {item : QueueItem} (hItem : Pool.Reaches (membersOf w) (rootItems tasks) item) {depth : Nat}
    {file : HashedFile} (hHashed : processItem w item = .hashed depth file) :
    file ∈ job.pool.gathered.hashedFiles := by
  refine (job.mem_hashedFiles file).mpr ⟨item, (job.mem_done item).mpr hItem, ?_⟩
  rw [hashedBy, hHashed]
  exact List.mem_singleton_self file

theorem finished_of_not_loses {top : QueueItem} (hTop : top ∈ rootItems tasks)
    (hLoses : (processItem w top).loses = false) (hKey : isAppleDoubleBasename top.displayKey = false) :
    top.root ∈ job.pool.gathered.finishedRootKeys := by
  refine (job.mem_finishedRootKeys top.root).mpr ⟨top, (job.mem_done top).mpr ⟨top, hTop, .refl⟩, ?_⟩
  obtain ⟨hDepth, hRootKey⟩ := mem_rootItems hTop
  rw [finishedBy]
  have hShape := processItem_cases w top
  generalize processItem w top = outcome at hLoses hShape
  cases hShape with
  | skipped hSkipped =>
    rw [hKey] at hSkipped
    cases hSkipped
  | expanded _ _ _ => simp [hDepth, hRootKey, QueueItem.root]
  | hashed _ => simp [hDepth, hRootKey, QueueItem.root]
  | openFailed _ => cases hLoses
  | failed _ => cases hLoses

theorem eq_of_below_skipped {top item : QueueItem} (hKey : isAppleDoubleBasename top.displayKey = true)
    (hBelow : Pool.Below (membersOf w) top item) :
    item = top ∧ processItem w item = .skippedAppleDouble item.depth := by
  have hSkipped : processItem w top = .skippedAppleDouble top.depth := by rw [processItem, if_pos hKey]
  obtain rfl | ⟨child, hChild, -⟩ := Relation.ReflTransGen.cases_head hBelow
  · exact ⟨rfl, hSkipped⟩
  · rw [membersOf, hSkipped] at hChild
    cases hChild

/-! ## The checkpoint -/

theorem kept_of_not_loses {item : QueueItem} (hItem : Pool.Reaches (membersOf w) (rootItems tasks) item)
    (hLoses : (processItem w item).loses = false)
    (hPlaced : ∀ depth file, processItem w item = .hashed depth file → ¬ job.FailsToPlace file) : job.Kept item := by
  have hShape := processItem_cases w item
  rw [Kept]
  cases hOutcome : processItem w item with
  | zipExpanded displayKey depth members dropped =>
    rw [hOutcome] at hShape hLoses
    cases hShape with
    | @expanded size _ entries extracted hZip hArchive hExpand =>
      obtain rfl : dropped = 0 := by simpa [ItemOutcome.loses] using hLoses
      refine ⟨rfl, fun size' entries' hSame i entry hEntry hFile hData => ?_⟩
      obtain ⟨rfl, rfl⟩ : size = size' ∧ entries = entries' := by simpa using hArchive.symm.trans hSame
      obtain ⟨bytes, hMem⟩ := mem_expandEntries hExpand hEntry hFile hData
      rw [Nat.zero_add] at hMem
      exact ⟨_, List.mem_map_of_mem hMem, rfl, rfl⟩
  | hashed depth file =>
    have hFails : file ∉ job.placement.failed :=
      fun hFailed => hPlaced depth file hOutcome ((job.mem_failed_iff file).mp hFailed)
    have hSettled := mem_settled w job.tree job.index (job.hashed_mem hItem hOutcome)
    have hAccounted := placeAndReport_accounted w job.tree job.index job.pool.gathered.hashedFiles
    refine ⟨hFails, ?_⟩
    obtain hKept | hFailed := List.mem_append.mp hSettled
    · obtain hMoved | hDuplicate := List.mem_append.mp hKept
      · exact .inl (hAccounted.placed file hMoved)
      · exact .inr ⟨hDuplicate, hAccounted.duplicate file hDuplicate⟩
    · exact absurd hFailed hFails
  | skippedAppleDouble depth => trivial
  | archiveOpenFailed key error =>
    rw [hOutcome] at hLoses
    cases hLoses
  | failed category =>
    rw [hOutcome] at hLoses
    cases hLoses

theorem not_failed_of_kept {item : QueueItem} (hKept : job.Kept item) {depth : Nat} {file : HashedFile}
    (hHashed : processItem w item = .hashed depth file) : ¬ job.FailsToPlace file := by
  rw [Kept, hHashed] at hKept
  exact fun hFails => hKept.1 ((job.mem_failed_iff file).mpr hFails)

theorem excluded_iff (root : Text × Text) :
    job.Excluded root ↔
      root ∈ job.pool.gathered.taintedRoots ∨ isZipKey root.2 = false ∧ root ∉ job.placement.finishedKeys := by
  rw [Excluded, job.mem_taintedRoots_iff, job.mem_finishedKeys_iff]
  simp only [not_exists, not_and]

theorem safe_of_failuresExcluded (hExcluded : job.FailuresExcluded) : job.Safe := by
  rintro appends _ hCheckpointed top hTop rfl item hBelow
  obtain ⟨hFinished, hClean, hKept⟩ | hSkipped := (job.mem_roots top.root).mp (mem_roots_of_checkpointed hCheckpointed)
  · apply job.kept_of_not_loses ⟨top, hTop, hBelow⟩
    · rw [← Bool.not_eq_true]
      exact fun hLoses => hClean ((job.mem_taintedRoots_iff top.root).mpr ⟨top, hTop, rfl, item, hBelow, hLoses⟩)
    · intro depth file hHashed hFails
      obtain hTainted | ⟨hPlain, hUnsettled⟩ :=
        (job.excluded_iff top.root).mp (hExcluded top hTop item hBelow depth file hHashed hFails)
      · exact hClean hTainted
      · obtain hPlaced | hZip := hKept
        · exact hUnsettled hPlaced
        · rw [hPlain] at hZip
          cases hZip
  · have hKey := job.skipped_root hSkipped
    rw [QueueItem.root, ← (mem_rootItems hTop).2] at hKey
    obtain ⟨-, hOutcome⟩ := eq_of_below_skipped hKey hBelow
    rw [Kept, hOutcome]
    trivial

theorem failuresExcluded_of_safe (hSafe : job.Safe) : job.FailuresExcluded := by
  intro top hTop item hBelow depth file hHashed hFails
  by_contra hIncluded
  rw [job.excluded_iff, not_or, not_and, not_not] at hIncluded
  obtain ⟨hClean, hPlaced⟩ := hIncluded
  have hKey : isAppleDoubleBasename top.displayKey = false := by
    rw [← Bool.not_eq_true]
    intro hKey
    rw [(eq_of_below_skipped hKey hBelow).2] at hHashed
    cases hHashed
  have hLoses : (processItem w top).loses = false := by
    rw [← Bool.not_eq_true]
    exact fun hLoses => hClean ((job.mem_taintedRoots_iff top.root).mpr ⟨top, hTop, rfl, top, .refl, hLoses⟩)
  have hRoot : top.root ∈ job.roots := by
    refine (job.mem_roots top.root).mpr (.inl ⟨job.finished_of_not_loses hTop hLoses hKey, hClean, ?_⟩)
    cases hZip : isZipKey top.root.2 with
    | true => exact .inr rfl
    | false => exact .inl (hPlaced hZip)
  have hAll : top.root ∈ job.checkpointed job.roots.length := by
    rw [checkpointed, List.take_length]
    exact hRoot
  exact job.not_failed_of_kept (hSafe _ _ hAll top hTop rfl item hBelow) hHashed hFails

/-- For every forest of archives, every outcome of each item and every order of the workers:
checkpointed roots lose nothing exactly when every file that fails to be placed belongs to a
root that is left out for another reason. -/
theorem checkpoint_safe_iff : job.Safe ↔ job.FailuresExcluded :=
  ⟨job.failuresExcluded_of_safe, job.safe_of_failuresExcluded⟩

end JobRun

/-! ## A member that cannot be moved -/

/-- One bucket with one archive of one picture; everything succeeds except moving the picture. -/
def pictureWorld : World where
  buckets := ["photos".toList]
  spaceToDownload _ := none
  spaceToExpand _ := none
  allocates _ := true
  pulls _ _ _ := true
  archive _ := .opened 1 [.ok ⟨"b.jpg".toList, false, none, [.copied 1]⟩]
  sha256File _ := some "hash".toList
  makesDir _ := true
  moves _ := false
  commits _ := true

def pictureTask : DeduplicateTask := ⟨"photos".toList, "a.zip".toList, 1⟩

def pictureItem : QueueItem := (rootItem 0 pictureTask).member ⟨"b.jpg".toList, 0, 1⟩

def pictureFile : HashedFile := ⟨"a.zip!b.jpg".toList, "photos".toList, [0, 0], "jpg".toList, "hash".toList⟩

/-- The archive is checkpointed although its picture is neither in the result tree nor a
duplicate. -/
theorem unplaced_member_checkpointed :
    ∃ job : JobRun pictureWorld [pictureTask],
      ("photos".toList, "a.zip".toList) ∈ job.checkpointed 1 ∧
        Pool.Below (membersOf pictureWorld) (rootItem 0 pictureTask) pictureItem ∧ ¬ job.Kept pictureItem := by
  have hEval : (run (Pool.advance (membersOf pictureWorld) (record pictureWorld))
      (Pool.start (max 1 1) (rootItems [pictureTask]) Gathered.nothing) (List.replicate 10 0)).map (fun pool =>
        let placement := placeAndReport pictureWorld .empty [] pool.gathered.hashedFiles
        decide ((∀ worker ∈ pool.workers, worker = .stopped) ∧
          ("photos".toList, "a.zip".toList) ∈ (checkpointRoots pool.gathered placement.finishedKeys).take 1 ∧
            pictureFile ∈ placement.failed)) = some true := by
    decide +kernel
  obtain ⟨pool, hRun, hCheck⟩ := Option.map_eq_some_iff.mp hEval
  obtain ⟨hStopped, hRoot, hFailed⟩ := of_decide_eq_true hCheck
  have hMember : pictureItem ∈ membersOf pictureWorld (rootItem 0 pictureTask) := by decide +kernel
  have hHashed : processItem pictureWorld pictureItem = .hashed 1 pictureFile := by decide +kernel
  refine ⟨⟨1, _, pool, hRun, hStopped, .empty, []⟩, hRoot, .single hMember, ?_⟩
  rw [JobRun.Kept, hHashed]
  exact fun hKept => hKept.1 hFailed

end Pigeon.Deduplicate
