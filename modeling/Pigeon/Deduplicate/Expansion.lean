import Pigeon.Library.Folder
import Pigeon.Deduplicate.Model

/-! # Expanding an archive into the scratch directory

`expand_to_dir` writes every member to a raw file of its own, named by the counter that the whole job draws from. What
is copied counts against a budget of the archive; a member that goes over it is dropped and its file removed.
-/
namespace Pigeon.Deduplicate

open Library Pigeon.Core

set_option autoImplicit false

/-! ## The loop -/

structure StreamedEntry extends ZipEntry where
  /-- How many numbers the rest of the job draws between the entry before this one and this one. -/
  drawnBefore : Nat
  /-- The bytes that stay of a dropped member whose file cannot be removed. -/
  stays : Option Nat
deriving DecidableEq, Repr

structure StreamedMember where
  name : Text
  path : Text
  size : Nat
deriving DecidableEq, Repr

def memberPath (number : Nat) : Text := Text.showPadded 12 number ++ ".member".toList

/-- The local variables of `expand_to_dir`, with the counter and the sizes of the files in `raw_dir`. -/
structure Extraction where
  rawDir : Folder Nat
  counter : Nat
  members : List StreamedMember
  dropped : Nat
  runningTotal : Nat

def Extraction.start (rawDir : Folder Nat) (counter : Nat) : Extraction := ⟨rawDir, counter, [], 0, 0⟩

def StreamedEntry.skipped (entry : StreamedEntry) : Bool := entry.isDir || isSkippableZipEntry entry.name

/-- One round of the loop, and the error it returns with. -/
def Extraction.next (budget index : Nat) (e : Extraction) : Except Text StreamedEntry → Extraction × Option Text
  | .error error => (e, some ("failed to read zip entry ".toList ++ Nat.toDigits 10 index ++ ": ".toList ++ error))
  | .ok entry =>
    if entry.skipped then (e, none)
    else
      let path := memberPath (e.counter + entry.drawnBefore)
      let e := { e with counter := e.counter + entry.drawnBefore + 1 }
      match entry.createError with
      | some error => (e, some error)
      | none =>
        match copyCapped budget entry.chunks 0 e.runningTotal with
        | (.ok size, total) =>
          ({ e with
            rawDir := e.rawDir.put path size
            members := e.members ++ [⟨entry.name, path, size⟩]
            runningTotal := total }, none)
        | (.error _, total) =>
          ({ e with
            rawDir := match entry.stays with
              | none => e.rawDir.remove path
              | some bytes => e.rawDir.put path bytes
            dropped := e.dropped + 1
            runningTotal := total }, none)

def Extraction.run (budget : Nat) : List (Except Text StreamedEntry) → Nat → Extraction → Extraction × Option Text
  | [], _, e => (e, none)
  | entry :: entries, index, e =>
    match e.next budget index entry with
    | (e, some error) => (e, some error)
    | (e, none) => Extraction.run budget entries (index + 1) e

/-- What `expand_to_dir` finds at the path of the archive. -/
structure ZipFile where
  createDirError : Option Text
  openError : Option Text
  /-- Nothing if the metadata cannot be read. -/
  length : Option Nat
  archive : Except Text (List (Except Text StreamedEntry))

namespace ZipFile

def compressedSize (zip : ZipFile) : Nat := zip.length.getD 0

/-- The product saturates. -/
def budget (zip : ZipFile) : Nat := min (zip.compressedSize * extractionRatioLimit) (2 ^ 64 - 1)

/-- The entries the loop runs over. -/
def entries (zip : ZipFile) : List (Except Text StreamedEntry) :=
  match zip.createDirError, zip.openError, zip.archive with
  | none, none, .ok entries => entries
  | _, _, _ => []

/-- The members and the number of dropped ones, with the state in which the function leaves. -/
def expandToDir (zip : ZipFile) (rawDir : Folder Nat) (counter : Nat) :
    Extraction × Except Text (List StreamedMember × Nat) :=
  let start := Extraction.start rawDir counter
  match zip.createDirError, zip.openError, zip.archive with
  | some error, _, _ => (start, .error error)
  | none, some error, _ => (start, .error error)
  | none, none, .error error => (start, .error ("invalid zip archive: ".toList ++ error))
  | none, none, .ok entries =>
    match start.run zip.budget entries 0 with
    | (e, some error) => (e, .error error)
    | (e, none) => (e, .ok (e.members, e.dropped))

end ZipFile

/-- The entry, unless it is a directory, a skipped one or one that cannot be read. -/
def memberEntry? : Except Text StreamedEntry → Option StreamedEntry
  | .ok entry => if entry.skipped then none else some entry
  | .error _ => none

def memberEntries (entries : List (Except Text StreamedEntry)) : List StreamedEntry := entries.filterMap memberEntry?

/-! ## Copying -/

/-- The bytes in front of the first chunk that cannot be read or written. -/
def streamedBytes : List Chunk → Nat
  | .copied bytes :: chunks => bytes + streamedBytes chunks
  | _ => 0

def Chunk.Broken : Chunk → Prop
  | .copied _ => False
  | .unreadable _ => True
  | .unwritable _ => True

theorem copyCapped_ok {budget : Nat} {chunks : List Chunk} {written total size after : Nat}
    (hCopy : copyCapped budget chunks written total = (.ok size, after)) :
    size + total = written + after ∧ (size = written ∨ after ≤ budget) := by
  induction chunks generalizing written total with
  | nil =>
    cases hCopy
    exact ⟨rfl, .inl rfl⟩
  | cons chunk chunks ih =>
    cases chunk with
    | unreadable error => cases hCopy
    | unwritable error => cases hCopy
    | copied bytes =>
      rw [copyCapped] at hCopy
      split at hCopy
      · cases hCopy
      · rename_i hBudget
        obtain ⟨hSum, hBound⟩ := ih hCopy
        refine ⟨by omega, ?_⟩
        right
        obtain hSize | hAfter := hBound
        · omega
        · exact hAfter

theorem le_copyCapped (budget : Nat) (chunks : List Chunk) (written total : Nat) :
    total ≤ (copyCapped budget chunks written total).2 := by
  induction chunks generalizing written total with
  | nil => exact Nat.le_refl total
  | cons chunk chunks ih =>
    cases chunk with
    | unreadable error => exact Nat.le_refl total
    | unwritable error => exact Nat.le_refl total
    | copied bytes =>
      rw [copyCapped]
      split
      · exact Nat.le_add_right total bytes
      · exact (Nat.le_add_right total bytes).trans (ih _ _)

/-! ## One entry -/

namespace Extraction

/-- The number is drawn before the file is created. -/
def draw (e : Extraction) (entry : StreamedEntry) : Extraction := { e with counter := e.counter + entry.drawnBefore + 1 }

@[simp]
theorem draw_members (e : Extraction) (entry : StreamedEntry) : (e.draw entry).members = e.members := rfl

@[simp]
theorem draw_dropped (e : Extraction) (entry : StreamedEntry) : (e.draw entry).dropped = e.dropped := rfl

def pathOf (e : Extraction) (entry : StreamedEntry) : Text := memberPath (e.counter + entry.drawnBefore)

def keep (e : Extraction) (entry : StreamedEntry) (size total : Nat) : Extraction :=
  { e.draw entry with
    rawDir := e.rawDir.put (e.pathOf entry) size
    members := e.members ++ [⟨entry.name, e.pathOf entry, size⟩]
    runningTotal := total }

def drop (e : Extraction) (entry : StreamedEntry) (total : Nat) : Extraction :=
  { e.draw entry with
    rawDir := match entry.stays with
      | none => e.rawDir.remove (e.pathOf entry)
      | some bytes => e.rawDir.put (e.pathOf entry) bytes
    dropped := e.dropped + 1
    runningTotal := total }

inductive Next (budget index : Nat) (e : Extraction) : Except Text StreamedEntry → Extraction → Option Text → Prop
  | unreadable (error : Text) : Next budget index e (.error error) e
      (some ("failed to read zip entry ".toList ++ Nat.toDigits 10 index ++ ": ".toList ++ error))
  | skipped (entry : StreamedEntry) (hSkipped : entry.skipped = true) : Next budget index e (.ok entry) e none
  | uncreated (entry : StreamedEntry) (error : Text) (hMember : entry.skipped = false)
      (hCreate : entry.createError = some error) : Next budget index e (.ok entry) (e.draw entry) (some error)
  | extracted (entry : StreamedEntry) (size total : Nat) (hMember : entry.skipped = false)
      (hCreate : entry.createError = none)
      (hCopy : copyCapped budget entry.chunks 0 e.runningTotal = (.ok size, total)) :
      Next budget index e (.ok entry) (e.keep entry size total) none
  | dropped (entry : StreamedEntry) (error : Text) (total : Nat) (hMember : entry.skipped = false)
      (hCreate : entry.createError = none)
      (hCopy : copyCapped budget entry.chunks 0 e.runningTotal = (.error error, total)) :
      Next budget index e (.ok entry) (e.drop entry total) none

theorem next_spec (budget index : Nat) (e : Extraction) (entry : Except Text StreamedEntry) :
    Next budget index e entry (e.next budget index entry).1 (e.next budget index entry).2 := by
  cases entry with
  | error error => exact .unreadable error
  | ok entry =>
    rw [next]
    cases hSkipped : entry.skipped with
    | true => exact .skipped entry hSkipped
    | false =>
      cases hCreate : entry.createError with
      | some error => exact .uncreated entry error hSkipped hCreate
      | none =>
        cases hCopy : copyCapped budget entry.chunks 0 e.runningTotal with
        | mk outcome total =>
          cases outcome with
          | ok size =>
            simp only [Bool.false_eq_true, if_false, hCopy]
            exact .extracted entry size total hSkipped hCreate hCopy
          | error error =>
            simp only [Bool.false_eq_true, if_false, hCopy]
            exact .dropped entry error total hSkipped hCreate hCopy

/-- What holds of the loop's variables: every member has a file of its own, and together they are within the budget. -/
structure Sound (budget : Nat) (e : Extraction) : Prop where
  withinBudget : (e.members.map (·.size)).sum ≤ budget
  withinTotal : (e.members.map (·.size)).sum ≤ e.runningTotal
  numbered : ∀ member ∈ e.members, ∃ number < e.counter, member.path = memberPath number
  onDisk : ∀ member ∈ e.members, e.rawDir.lookup member.path = some member.size
  distinct : (e.members.map (·.path)).Nodup

theorem memberPath_injective {m n : Nat} (h : memberPath m = memberPath n) : m = n :=
  Text.showPadded_injective (List.append_cancel_right h)

theorem pathOf_ne {e : Extraction} {entry : StreamedEntry} {number : Nat} (hNumber : number < e.counter) :
    memberPath number ≠ e.pathOf entry := by
  intro hPath
  have hEq := memberPath_injective hPath
  omega

theorem Sound.draw {budget : Nat} {e : Extraction} (hSound : e.Sound budget) (entry : StreamedEntry) :
    (e.draw entry).Sound budget where
  withinBudget := hSound.withinBudget
  withinTotal := hSound.withinTotal
  numbered member hMember := by
    obtain ⟨number, hNumber, hPath⟩ := hSound.numbered member hMember
    exact ⟨number, Nat.lt_succ_of_lt (Nat.lt_add_right entry.drawnBefore hNumber), hPath⟩
  onDisk := hSound.onDisk
  distinct := hSound.distinct

theorem Sound.path_ne {budget : Nat} {e : Extraction} (hSound : e.Sound budget) (entry : StreamedEntry)
    {member : StreamedMember} (hMember : member ∈ e.members) : member.path ≠ e.pathOf entry := by
  obtain ⟨number, hNumber, hPath⟩ := hSound.numbered member hMember
  rw [hPath]
  exact pathOf_ne hNumber

theorem Sound.keep {budget : Nat} {e : Extraction} (hSound : e.Sound budget) {entry : StreamedEntry} {size total : Nat}
    (hCopy : copyCapped budget entry.chunks 0 e.runningTotal = (.ok size, total)) :
    (e.keep entry size total).Sound budget := by
  obtain ⟨hTotal, hBound⟩ := copyCapped_ok hCopy
  have hBudget := hSound.withinBudget
  have hRunning := hSound.withinTotal
  have hSum : ((e.keep entry size total).members.map (·.size)).sum = (e.members.map (·.size)).sum + size := by
    rw [Extraction.keep, List.map_append, List.sum_append, List.map_singleton, List.sum_singleton]
  constructor
  · rw [hSum]
    omega
  · have hAfter : (e.keep entry size total).runningTotal = total := rfl
    rw [hSum, hAfter]
    omega
  · intro member hMember
    obtain hOld | hNew := List.mem_append.mp hMember
    · exact (hSound.draw entry).numbered member hOld
    · rw [List.mem_singleton.mp hNew]
      exact ⟨e.counter + entry.drawnBefore, Nat.lt_succ_self _, rfl⟩
  · intro member hMember
    obtain hOld | hNew := List.mem_append.mp hMember
    · exact (Folder.lookup_put_of_ne _ _ (hSound.path_ne entry hOld)).trans (hSound.onDisk member hOld)
    · rw [List.mem_singleton.mp hNew]
      exact Folder.lookup_put_self _ _ _
  · rw [Extraction.keep, List.map_append, List.map_singleton, List.nodup_append]
    refine ⟨hSound.distinct, List.nodup_singleton _, ?_⟩
    intro path hPath other hOther
    obtain ⟨member, hMember, rfl⟩ := List.mem_map.mp hPath
    rw [List.mem_singleton.mp hOther]
    exact hSound.path_ne entry hMember

theorem Sound.drop {budget : Nat} {e : Extraction} (hSound : e.Sound budget) {entry : StreamedEntry} {total : Nat}
    (hTotal : e.runningTotal ≤ total) : (e.drop entry total).Sound budget where
  withinBudget := hSound.withinBudget
  withinTotal := hSound.withinTotal.trans hTotal
  numbered := (hSound.draw entry).numbered
  onDisk member hMember := by
    have hNe := hSound.path_ne entry hMember
    rw [← hSound.onDisk member hMember, Extraction.drop]
    cases entry.stays with
    | none => exact Folder.lookup_remove_of_ne _ hNe
    | some bytes => exact Folder.lookup_put_of_ne _ _ hNe
  distinct := hSound.distinct

section Step

variable {budget index : Nat} {e after : Extraction} {entry : Except Text StreamedEntry} {error : Option Text}

theorem Next.sound (hNext : Next budget index e entry after error) (hSound : e.Sound budget) : after.Sound budget := by
  cases hNext with
  | unreadable | skipped => exact hSound
  | uncreated entry => exact hSound.draw entry
  | extracted entry size total hMember hCreate hCopy => exact hSound.keep hCopy
  | dropped entry error total hMember hCreate hCopy =>
    have hTotal := le_copyCapped budget entry.chunks 0 e.runningTotal
    rw [hCopy] at hTotal
    exact hSound.drop hTotal

/-- What an entry adds to the members, and that it is counted if it is one. -/
theorem Next.gathered (hNext : Next budget index e entry after error) :
    ∃ new, after.members = e.members ++ new ∧
      (new.map (·.name)).Sublist ((memberEntries [entry]).map (·.name)) ∧
      (error = none → new.length + after.dropped = e.dropped + (memberEntries [entry]).length) := by
  cases hNext with
  | unreadable error => exact ⟨[], (List.append_nil _).symm, List.nil_sublist _, fun hNone => absurd hNone (Option.some_ne_none _)⟩
  | uncreated entry error hMember hCreate => exact ⟨[], (List.append_nil _).symm, List.nil_sublist _, fun hNone => absurd hNone (Option.some_ne_none _)⟩
  | skipped entry hSkipped =>
    refine ⟨[], (List.append_nil _).symm, List.nil_sublist _, fun _ => ?_⟩
    simp [memberEntries, memberEntry?, hSkipped]
  | extracted entry size total hMember hCreate hCopy =>
    refine ⟨[⟨entry.name, e.pathOf entry, size⟩], rfl, ?_, fun _ => ?_⟩
    · simp [memberEntries, memberEntry?, hMember]
    · simp [memberEntries, memberEntry?, hMember, keep, draw, Nat.add_comm]
  | dropped entry error total hMember hCreate hCopy =>
    refine ⟨[], (List.append_nil _).symm, List.nil_sublist _, fun _ => ?_⟩
    simp [memberEntries, memberEntry?, hMember, drop]

theorem Next.lookup (hNext : Next budget index e entry after error) (hStays : ∀ other ∈ memberEntries [entry], other.stays = none)
    {path : Text} {size : Nat} (hFile : after.rawDir.lookup path = some size) :
    e.rawDir.lookup path = some size ∨ ∃ member ∈ after.members, member.path = path := by
  cases hNext with
  | unreadable | skipped | uncreated => exact .inl hFile
  | extracted entry size total hMember hCreate hCopy =>
    obtain ⟨rfl, -⟩ | ⟨-, hOld⟩ := Folder.lookup_of_put hFile
    · exact .inr ⟨⟨entry.name, e.pathOf entry, size⟩, List.mem_append_right _ List.mem_cons_self, rfl⟩
    · exact .inl hOld
  | dropped entry error total hMember hCreate hCopy =>
    have hGone : entry.stays = none := hStays entry (by simp [memberEntries, memberEntry?, hMember])
    rw [drop, hGone] at hFile
    exact .inl (Folder.lookup_of_remove hFile).2

end Step

theorem run_cons (budget index : Nat) (e : Extraction) (entry : Except Text StreamedEntry)
    (entries : List (Except Text StreamedEntry)) :
    (∃ after error, Next budget index e entry after (some error) ∧
      e.run budget (entry :: entries) index = (after, some error)) ∨
    ∃ after, Next budget index e entry after none ∧
      e.run budget (entry :: entries) index = after.run budget entries (index + 1) := by
  have hNext := next_spec budget index e entry
  rw [run]
  cases hStep : e.next budget index entry with
  | mk after error =>
    rw [hStep] at hNext
    cases error with
    | none => exact .inr ⟨after, hNext, rfl⟩
    | some error => exact .inl ⟨after, error, hNext, rfl⟩

theorem memberEntries_cons (entry : Except Text StreamedEntry) (entries : List (Except Text StreamedEntry)) :
    memberEntries (entry :: entries) = memberEntries [entry] ++ memberEntries entries := by
  rw [memberEntries, memberEntries, memberEntries, ← List.filterMap_append, List.singleton_append]

theorem Sound.run {budget : Nat} (entries : List (Except Text StreamedEntry)) {e : Extraction} (hSound : e.Sound budget)
    (index : Nat) : (e.run budget entries index).1.Sound budget := by
  induction entries generalizing e index with
  | nil => exact hSound
  | cons entry entries ih =>
    obtain ⟨after, error, hNext, hRun⟩ | ⟨after, hNext, hRun⟩ := run_cons budget index e entry entries
    · rw [hRun]
      exact hNext.sound hSound
    · rw [hRun]
      exact ih (hNext.sound hSound) (index + 1)

theorem run_gathered (budget : Nat) (entries : List (Except Text StreamedEntry)) (index : Nat) (e : Extraction) :
    ∃ new, (e.run budget entries index).1.members = e.members ++ new ∧
      (new.map (·.name)).Sublist ((memberEntries entries).map (·.name)) ∧
      ((e.run budget entries index).2 = none →
        new.length + (e.run budget entries index).1.dropped = e.dropped + (memberEntries entries).length) := by
  induction entries generalizing e index with
  | nil => exact ⟨[], (List.append_nil _).symm, List.nil_sublist _, fun _ => Nat.add_comm _ _⟩
  | cons entry entries ih =>
    rw [memberEntries_cons]
    obtain ⟨after, error, hNext, hRun⟩ | ⟨after, hNext, hRun⟩ := run_cons budget index e entry entries
    · obtain ⟨new, hMembers, hOrder, -⟩ := hNext.gathered
      rw [hRun, List.map_append]
      exact ⟨new, hMembers, hOrder.trans (List.sublist_append_left _ _), fun hNone => absurd hNone (Option.some_ne_none _)⟩
    · obtain ⟨first, hFirst, hFirstOrder, hFirstCount⟩ := hNext.gathered
      obtain ⟨rest, hRest, hRestOrder, hRestCount⟩ := ih (index + 1) after
      rw [hRun, List.map_append, List.length_append]
      refine ⟨first ++ rest, ?_, ?_, ?_⟩
      · rw [hRest, hFirst, List.append_assoc]
      · rw [List.map_append]
        exact hFirstOrder.append hRestOrder
      · intro hDone
        have hOne := hFirstCount rfl
        have hMore := hRestCount hDone
        rw [List.length_append]
        omega

theorem run_lookup (budget : Nat) (entries : List (Except Text StreamedEntry)) (index : Nat) (e : Extraction)
    (hStays : ∀ entry ∈ memberEntries entries, entry.stays = none) {path : Text} {size : Nat}
    (hFile : (e.run budget entries index).1.rawDir.lookup path = some size) :
    e.rawDir.lookup path = some size ∨ ∃ member ∈ (e.run budget entries index).1.members, member.path = path := by
  induction entries generalizing e index with
  | nil => exact .inl hFile
  | cons entry entries ih =>
    rw [memberEntries_cons] at hStays
    have hStaysEntry := fun other hOther => hStays other (List.mem_append_left _ hOther)
    obtain ⟨after, error, hNext, hRun⟩ | ⟨after, hNext, hRun⟩ := run_cons budget index e entry entries
    · rw [hRun] at hFile ⊢
      exact hNext.lookup hStaysEntry hFile
    · rw [hRun] at hFile ⊢
      obtain hBefore | hNew := ih (index + 1) after (fun other hOther => hStays other (List.mem_append_right _ hOther)) hFile
      · obtain hOld | ⟨member, hMember, hPath⟩ := hNext.lookup hStaysEntry hBefore
        · exact .inl hOld
        · obtain ⟨new, hMembers, -⟩ := run_gathered budget entries (index + 1) after
          exact .inr ⟨member, hMembers ▸ List.mem_append_left new hMember, hPath⟩
      · exact .inr hNew

end Extraction

/-! ## The archive -/

/-- The members that an expansion leaves, whether it returns them or an error. -/
structure MembersAccounted (zip : ZipFile) (rawDir : Folder Nat)
    (result : Extraction × Except Text (List StreamedMember × Nat)) : Prop where
  withinBudget : (result.1.members.map (·.size)).sum ≤ extractionRatioLimit * zip.compressedSize
  onDisk : ∀ member ∈ result.1.members, result.1.rawDir.lookup member.path = some member.size
  distinct : (result.1.members.map (·.path)).Nodup
  inOrder : (result.1.members.map (·.name)).Sublist ((memberEntries zip.entries).map (·.name))
  counted : ∀ members dropped, result.2 = .ok (members, dropped) →
    members = result.1.members ∧ members.length + dropped = (memberEntries zip.entries).length
  nothingElse : (∀ entry ∈ memberEntries zip.entries, entry.stays = none) →
    ∀ path size, result.1.rawDir.lookup path = some size →
      rawDir.lookup path = some size ∨ ∃ member ∈ result.1.members, member.path = path

theorem sound_start (budget : Nat) (rawDir : Folder Nat) (counter : Nat) :
    (Extraction.start rawDir counter).Sound budget where
  withinBudget := Nat.zero_le budget
  withinTotal := Nat.le_refl 0
  numbered _ hMember := absurd hMember List.not_mem_nil
  onDisk _ hMember := absurd hMember List.not_mem_nil
  distinct := List.nodup_nil

theorem ZipFile.expandToDir_cases (zip : ZipFile) (rawDir : Folder Nat) (counter : Nat) :
    (zip.entries = [] ∧ ∃ error, zip.expandToDir rawDir counter = (.start rawDir counter, .error error)) ∨
      (∃ e error, (Extraction.start rawDir counter).run zip.budget zip.entries 0 = (e, some error) ∧
        zip.expandToDir rawDir counter = (e, .error error)) ∨
      ∃ e, (Extraction.start rawDir counter).run zip.budget zip.entries 0 = (e, none) ∧
        zip.expandToDir rawDir counter = (e, .ok (e.members, e.dropped)) := by
  rw [ZipFile.entries, ZipFile.expandToDir]
  cases zip.createDirError with
  | some error => exact .inl ⟨rfl, error, rfl⟩
  | none =>
    cases zip.openError with
    | some error => exact .inl ⟨rfl, error, rfl⟩
    | none =>
      cases zip.archive with
      | error error => exact .inl ⟨rfl, _, rfl⟩
      | ok entries =>
        right
        dsimp only
        cases hRun : (Extraction.start rawDir counter).run zip.budget entries 0 with
        | mk e error =>
          cases error with
          | some error => exact .inl ⟨e, error, rfl, rfl⟩
          | none => exact .inr ⟨e, rfl, rfl⟩

theorem ZipFile.expandToDir_state (zip : ZipFile) (rawDir : Folder Nat) (counter : Nat) :
    (zip.expandToDir rawDir counter).1 = ((Extraction.start rawDir counter).run zip.budget zip.entries 0).1 := by
  obtain ⟨hEntries, error, hResult⟩ | ⟨e, error, hRun, hResult⟩ | ⟨e, hRun, hResult⟩ :=
    zip.expandToDir_cases rawDir counter
  · rw [hResult, hEntries]
    rfl
  · rw [hResult, hRun]
  · rw [hResult, hRun]

/-- The members of an archive are within its budget, on disk under names of their own, and all accounted for. -/
theorem expandToDir_accounted (zip : ZipFile) (rawDir : Folder Nat) (counter : Nat) :
    MembersAccounted zip rawDir (zip.expandToDir rawDir counter) := by
  have hSound := (sound_start zip.budget rawDir counter).run zip.entries 0
  have hState := zip.expandToDir_state rawDir counter
  obtain ⟨new, hMembers, hOrder, hCount⟩ :=
    Extraction.run_gathered zip.budget zip.entries 0 (Extraction.start rawDir counter)
  have hNew : ((Extraction.start rawDir counter).run zip.budget zip.entries 0).1.members = new := hMembers
  refine ⟨?_, ?_, ?_, ?_, ?_, ?_⟩
  · have hBudget : zip.budget ≤ extractionRatioLimit * zip.compressedSize := by
      rw [Nat.mul_comm]
      exact Nat.min_le_left _ _
    rw [hState]
    exact hSound.withinBudget.trans hBudget
  · rw [hState]
    exact hSound.onDisk
  · rw [hState]
    exact hSound.distinct
  · rw [hState, hNew]
    exact hOrder
  · intro members dropped hReturned
    obtain ⟨-, error, hResult⟩ | ⟨e, error, -, hResult⟩ | ⟨e, hRun, hResult⟩ := zip.expandToDir_cases rawDir counter
    · rw [hResult] at hReturned
      cases hReturned
    · rw [hResult] at hReturned
      cases hReturned
    · rw [hResult] at hReturned ⊢
      cases hReturned
      rw [hRun] at hNew hCount
      refine ⟨rfl, ?_⟩
      rw [hNew, hCount rfl]
      exact Nat.zero_add _
  · intro hStays path size hFile
    rw [hState] at hFile ⊢
    exact Extraction.run_lookup zip.budget zip.entries 0 (.start rawDir counter) hStays hFile

/-! ## The two readings of the loop -/

/-- What the loop without the disk knows of the members. -/
def Extraction.outcome : Extraction × Option Text → Except Text (List (Text × Nat) × Nat)
  | (_, some error) => .error error
  | (e, none) => .ok (e.members.map fun member => (member.name, member.size), e.dropped)

def addTo (e : Extraction) (found : List ExtractedMember × Nat) : List (Text × Nat) × Nat :=
  (e.members.map (fun member => (member.name, member.size)) ++ found.1.map (fun member => (member.name, member.size)),
    e.dropped + found.2)

/-- The loop without the disk finds the same members, drops as many and fails with the same error. -/
theorem run_refines_expandEntries (budget : Nat) (entries : List (Except Text StreamedEntry)) (index : Nat)
    (e : Extraction) :
    Extraction.outcome (e.run budget entries index) =
      (expandEntries budget (entries.map (·.map StreamedEntry.toZipEntry)) index e.runningTotal).map (addTo e) := by
  induction entries generalizing e index with
  | nil => simp [Extraction.run, Extraction.outcome, expandEntries, Except.map, addTo]
  | cons entry entries ih =>
    rw [List.map_cons]
    obtain ⟨after, error, hNext, hRun⟩ | ⟨after, hNext, hRun⟩ := Extraction.run_cons budget index e entry entries
    · rw [hRun]
      cases hNext with
      | unreadable error => rfl
      | uncreated entry error hMember hCreate =>
        have hPlain : (entry.toZipEntry.isDir || isSkippableZipEntry entry.toZipEntry.name) = false := hMember
        simp only [Except.map, expandEntries, hPlain, hCreate]
        rfl
    · rw [hRun, ih]
      generalize entries.map (·.map StreamedEntry.toZipEntry) = plain
      cases hNext with
      | skipped entry hSkipped =>
        have hPlain : (entry.toZipEntry.isDir || isSkippableZipEntry entry.toZipEntry.name) = true := hSkipped
        simp only [Except.map, expandEntries, hPlain]
        rfl
      | extracted entry size total hMember hCreate hCopy =>
        have hPlain : (entry.toZipEntry.isDir || isSkippableZipEntry entry.toZipEntry.name) = false := hMember
        simp only [Except.map, expandEntries, hPlain, hCreate, hCopy, Extraction.keep, Bool.false_eq_true, if_false]
        cases expandEntries budget plain (index + 1) total with
        | error error => rfl
        | ok found => simp [addTo]
      | dropped entry error total hMember hCreate hCopy =>
        have hPlain : (entry.toZipEntry.isDir || isSkippableZipEntry entry.toZipEntry.name) = false := hMember
        simp only [Except.map, expandEntries, hPlain, hCreate, hCopy, Extraction.drop, Bool.false_eq_true, if_false]
        cases expandEntries budget plain (index + 1) total with
        | error error => rfl
        | ok found => simp [addTo, Nat.add_assoc, Nat.add_comm 1]

theorem expandToDir_refines (zip : ZipFile) (rawDir : Folder Nat) (counter : Nat)
    {entries : List (Except Text StreamedEntry)} (hDir : zip.createDirError = none) (hOpen : zip.openError = none)
    (hArchive : zip.archive = .ok entries) :
    (zip.expandToDir rawDir counter).2.map (fun found =>
        (found.1.map (fun member => (member.name, member.size)), found.2)) =
      (expandToDir zip.compressedSize (entries.map (·.map StreamedEntry.toZipEntry))).map fun found =>
        (found.1.map (fun member => (member.name, member.size)), found.2) := by
  have hRefines := run_refines_expandEntries zip.budget entries 0 (Extraction.start rawDir counter)
  have hAdd : addTo (Extraction.start rawDir counter) = fun found =>
      (found.1.map (fun member => (member.name, member.size)), found.2) := by
    funext found
    simp [addTo, Extraction.start]
  rw [hAdd] at hRefines
  refine Eq.trans ?_ hRefines
  rw [ZipFile.expandToDir, hDir, hOpen, hArchive]
  dsimp only
  cases (Extraction.start rawDir counter).run zip.budget entries 0 with
  | mk e error => cases error <;> rfl

/-! ## What a failed expansion leaves -/

def Fails : Except Text StreamedEntry → Bool
  | .ok entry => !entry.skipped && entry.createError.isSome
  | .error _ => true

/-- A member is dropped if it cannot be copied to its end, or if it has data and the archive is over its budget with
it; `before` is what the members in front of it hold. -/
def Overrun (budget before : Nat) (chunks : List Chunk) : Prop :=
  (∃ chunk ∈ chunks, chunk.Broken) ∨ (chunks ≠ [] ∧ budget < before + streamedBytes chunks)

def AllOverrun (budget : Nat) : Nat → List StreamedEntry → Prop
  | _, [] => True
  | before, entry :: entries =>
    Overrun budget before entry.chunks ∧ AllOverrun budget (before + streamedBytes entry.chunks) entries

/-- Every member in front of the first entry that fails is dropped. -/
def ZipFile.DropsBeforeFailure (zip : ZipFile) : Prop :=
  (∃ entry ∈ zip.entries, Fails entry) →
    AllOverrun zip.budget 0 (memberEntries (zip.entries.takeWhile fun entry => !Fails entry))

/-- An error comes with none of the members that were extracted before it. -/
def LeavesNothing (result : Extraction × Except Text (List StreamedMember × Nat)) : Prop :=
  ∀ error, result.2 = .error error → ∀ member ∈ result.1.members, result.1.rawDir.lookup member.path = none

/-- The running total against the bytes of the members so far, each counted whole. -/
def Tally (budget before total : Nat) : Prop := (total = before ∧ total ≤ budget) ∨ (budget < total ∧ budget < before)

theorem overrun_of_broken {budget before : Nat} (chunk : Chunk) (chunks : List Chunk) (hBroken : chunk.Broken) :
    Overrun budget before (chunk :: chunks) := .inl ⟨chunk, List.mem_cons_self, hBroken⟩

theorem overrun_copied_iff {budget before bytes : Nat} (hFits : before + bytes ≤ budget) (chunks : List Chunk) :
    Overrun budget before (.copied bytes :: chunks) ↔ Overrun budget (before + bytes) chunks := by
  have hSum : before + streamedBytes (.copied bytes :: chunks) = before + bytes + streamedBytes chunks :=
    (Nat.add_assoc before bytes (streamedBytes chunks)).symm
  rw [Overrun, Overrun, hSum]
  constructor
  · rintro (⟨chunk, hChunk, hBroken⟩ | ⟨-, hOver⟩)
    · obtain rfl | hRest := List.mem_cons.mp hChunk
      · exact hBroken.elim
      · exact .inl ⟨chunk, hRest, hBroken⟩
    · refine .inr ⟨?_, hOver⟩
      rintro rfl
      exact absurd hOver (Nat.not_lt.mpr hFits)
  · rintro (⟨chunk, hChunk, hBroken⟩ | ⟨-, hOver⟩)
    · exact .inl ⟨chunk, List.mem_cons_of_mem _ hChunk, hBroken⟩
    · exact .inr ⟨List.cons_ne_nil _ _, hOver⟩

/-- Copying fails exactly on an overrun, and the tally goes on behind it. -/
theorem copyCapped_tally {budget before total : Nat} (chunks : List Chunk) (written : Nat)
    (hTally : Tally budget before total) :
    (∃ size after, copyCapped budget chunks written total = (.ok size, after) ∧ ¬ Overrun budget before chunks) ∨
      ∃ error after, copyCapped budget chunks written total = (.error error, after) ∧ Overrun budget before chunks ∧
        Tally budget (before + streamedBytes chunks) after := by
  induction chunks generalizing before written total with
  | nil =>
    refine .inl ⟨written, total, rfl, ?_⟩
    rintro (⟨chunk, hChunk, -⟩ | ⟨hNonempty, -⟩)
    · exact absurd hChunk List.not_mem_nil
    · exact hNonempty rfl
  | cons chunk chunks ih =>
    cases chunk with
    | unreadable error => exact .inr ⟨_, total, rfl, overrun_of_broken (.unreadable error) chunks trivial, hTally⟩
    | unwritable error => exact .inr ⟨_, total, rfl, overrun_of_broken (.unwritable error) chunks trivial, hTally⟩
    | copied bytes =>
      have hSum : before + streamedBytes (.copied bytes :: chunks) = before + bytes + streamedBytes chunks :=
        (Nat.add_assoc before bytes (streamedBytes chunks)).symm
      rw [copyCapped]
      split
      · rename_i hOver
        have hBefore : budget < before + bytes := by
          obtain ⟨rfl, -⟩ | ⟨-, hBefore⟩ := hTally
          · exact hOver
          · omega
        have hAll : budget < before + bytes + streamedBytes chunks := Nat.lt_add_right _ hBefore
        refine .inr ⟨_, _, rfl, .inr ⟨List.cons_ne_nil _ _, ?_⟩, ?_⟩
        · rw [hSum]
          exact hAll
        · rw [hSum]
          exact .inr ⟨hOver, hAll⟩
      · rename_i hFits
        obtain ⟨rfl, -⟩ | ⟨hOver, -⟩ := hTally
        · rw [overrun_copied_iff (Nat.le_of_not_lt hFits), hSum]
          exact ih (written + bytes) (.inl ⟨rfl, Nat.le_of_not_lt hFits⟩)
        · omega

theorem run_members_prefix (budget : Nat) (entries : List (Except Text StreamedEntry)) (index : Nat) (e : Extraction) :
    e.members <+: (e.run budget entries index).1.members := by
  obtain ⟨new, hMembers, -⟩ := Extraction.run_gathered budget entries index e
  exact ⟨new, hMembers.symm⟩

theorem Extraction.Next.fails {budget index : Nat} {e after : Extraction} {entry : Except Text StreamedEntry}
    {error : Option Text} (hNext : Next budget index e entry after error) : Fails entry = error.isSome := by
  cases hNext with
  | unreadable => rfl
  | skipped entry hSkipped => simp [Fails, hSkipped]
  | uncreated entry error hMember hCreate => simp [Fails, hMember, hCreate]
  | extracted entry size total hMember hCreate => simp [Fails, hCreate]
  | dropped entry error total hMember hCreate => simp [Fails, hCreate]

theorem run_fails_iff (budget : Nat) (entries : List (Except Text StreamedEntry)) (index : Nat) (e : Extraction) :
    (e.run budget entries index).2.isSome ↔ ∃ entry ∈ entries, Fails entry := by
  induction entries generalizing e index with
  | nil => simp [Extraction.run]
  | cons entry entries ih =>
    simp only [List.mem_cons, exists_eq_or_imp]
    obtain ⟨after, error, hNext, hRun⟩ | ⟨after, hNext, hRun⟩ := Extraction.run_cons budget index e entry entries
    · rw [hRun, hNext.fails]
      exact ⟨.inl, fun _ => rfl⟩
    · rw [hRun, hNext.fails, ih]
      exact ⟨.inr, fun hFails => hFails.resolve_left Bool.false_ne_true⟩

theorem run_members_eq_nil_iff {budget before : Nat} (entries : List (Except Text StreamedEntry)) (index : Nat)
    {e : Extraction} (hTally : Tally budget before e.runningTotal) (hNone : e.members = []) :
    (e.run budget entries index).1.members = [] ↔
      AllOverrun budget before (memberEntries (entries.takeWhile fun entry => !Fails entry)) := by
  induction entries generalizing before e index with
  | nil => exact ⟨fun _ => trivial, fun _ => hNone⟩
  | cons entry entries ih =>
    rw [List.takeWhile_cons]
    obtain ⟨after, error, hNext, hRun⟩ | ⟨after, hNext, hRun⟩ := Extraction.run_cons budget index e entry entries
    · have hSame : after.members = e.members := by cases hNext <;> rfl
      rw [hRun, hNext.fails]
      exact ⟨fun _ => trivial, fun _ => hSame.trans hNone⟩
    · rw [hRun, hNext.fails]
      simp only [Option.isSome_none, Bool.not_false, if_true]
      rw [Extraction.memberEntries_cons]
      cases hNext with
      | skipped entry hSkipped =>
        have hNoMember : memberEntries [.ok entry] = [] := by simp [memberEntries, memberEntry?, hSkipped]
        rw [hNoMember, List.nil_append]
        exact ih (index + 1) hTally hNone
      | extracted entry size total hMember hCreate hCopy =>
        have hOne : memberEntries [.ok entry] = [entry] := by simp [memberEntries, memberEntry?, hMember]
        rw [hOne]
        constructor
        · intro hEmpty
          have hPrefix := run_members_prefix budget entries (index + 1) (e.keep entry size total)
          rw [hEmpty, List.prefix_nil] at hPrefix
          exact absurd hPrefix (List.append_ne_nil_of_right_ne_nil _ (List.cons_ne_nil _ _))
        · rintro ⟨hOverrun, -⟩
          obtain ⟨-, -, -, hNot⟩ | ⟨error, after, hError, -⟩ := copyCapped_tally entry.chunks 0 hTally
          · exact absurd hOverrun hNot
          · rw [hCopy] at hError
            cases hError
      | dropped entry error total hMember hCreate hCopy =>
        have hOne : memberEntries [.ok entry] = [entry] := by simp [memberEntries, memberEntry?, hMember]
        rw [hOne]
        obtain ⟨size, after, hOk, -⟩ | ⟨_, after, hError, hOverrun, hAfter⟩ :=
          copyCapped_tally entry.chunks 0 hTally
        · rw [hCopy] at hOk
          cases hOk
        · rw [hCopy] at hError
          cases hError
          exact (ih (e := e.drop entry total) (index + 1) hAfter hNone).trans (and_iff_right hOverrun).symm

/-- An expansion that fails leaves none of its members behind exactly if it had dropped them all. -/
theorem leavesNothing_iff (zip : ZipFile) (rawDir : Folder Nat) (counter : Nat) :
    LeavesNothing (zip.expandToDir rawDir counter) ↔ zip.DropsBeforeFailure := by
  have hFails := run_fails_iff zip.budget zip.entries 0 (.start rawDir counter)
  have hTally : Tally zip.budget 0 (Extraction.start rawDir counter).runningTotal := .inl ⟨rfl, Nat.zero_le _⟩
  have hNil := run_members_eq_nil_iff zip.entries 0 hTally rfl
  have hDisk := ((sound_start zip.budget rawDir counter).run zip.entries 0).onDisk
  rw [← zip.expandToDir_state] at hDisk
  rw [LeavesNothing, ZipFile.DropsBeforeFailure, ← hNil, ← hFails, ← zip.expandToDir_state]
  obtain ⟨hEntries, error, hResult⟩ | ⟨e, error, hRun, hResult⟩ | ⟨e, hRun, hResult⟩ :=
    zip.expandToDir_cases rawDir counter
  · rw [hResult, hEntries]
    constructor
    · rintro - -
      rfl
    · intro _ _ _ member hMember
      exact absurd hMember List.not_mem_nil
  · rw [hResult] at hDisk ⊢
    rw [hRun]
    constructor
    · rintro hGone -
      apply List.eq_nil_iff_forall_not_mem.mpr
      intro member hMember
      have hLookup := hGone error rfl member hMember
      rw [hDisk member hMember] at hLookup
      cases hLookup
    · intro hEmpty _ _ member hMember
      have hNone := hEmpty rfl
      dsimp only at hNone hMember
      rw [hNone] at hMember
      exact absurd hMember List.not_mem_nil
  · rw [hResult, hRun]
    constructor
    · intro _ hSome
      cases hSome
    · intro _ error hError
      cases hError

/-- The first member stays in the directory when the second entry cannot be read. -/
theorem extracted_member_left_behind :
    ¬ LeavesNothing (ZipFile.expandToDir ⟨none, none, some 1,
      .ok [.ok ⟨⟨"a.jpg".toList, false, none, [.copied 3]⟩, 0, none⟩, .error "Password required".toList]⟩ .empty 0) := by
  intro hNothing
  have hGone := hNothing _ rfl ⟨"a.jpg".toList, memberPath 0, 3⟩ List.mem_cons_self
  revert hGone
  decide

end Pigeon.Deduplicate
