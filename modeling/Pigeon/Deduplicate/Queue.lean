import Pigeon.Library.Forest
import Pigeon.Deduplicate.Checkpoint

/-! # The work queue

An archive at the greatest depth is not expanded, so the archives below a root form a tree that ends, also where
one contains itself. The place of an item tells it from all others, and the workers share the items of these trees
among them.
-/
namespace Pigeon.Deduplicate

open Library Pigeon.Core

set_option autoImplicit false

/-! ## The members of an archive -/

theorem expandEntries_index {budget start total dropped : Nat} {entries : List (Except Text ZipEntry)}
    {members : List ExtractedMember} (hExpand : expandEntries budget entries start total = .ok (members, dropped)) :
    (∀ member ∈ members, start ≤ member.index) ∧ members.Pairwise fun a b => a.index ≠ b.index := by
  induction entries generalizing start total dropped members with
  | nil =>
    obtain ⟨rfl, -⟩ := Prod.mk.inj (Except.ok.inj hExpand)
    exact ⟨nofun, .nil⟩
  | cons first entries ih =>
    have hLater {total dropped members}
        (hRest : expandEntries budget entries (start + 1) total = .ok (members, dropped)) :
        (∀ member ∈ members, start ≤ member.index) ∧ members.Pairwise fun a b => a.index ≠ b.index :=
      ⟨fun member hMember => Nat.le_of_succ_le ((ih hRest).1 member hMember), (ih hRest).2⟩
    cases first with
    | error error => cases hExpand
    | ok head =>
      rw [expandEntries] at hExpand
      split at hExpand
      · exact hLater hExpand
      · split at hExpand
        · cases hExpand
        · split at hExpand
          · obtain ⟨⟨rest, others⟩, hRest, hResult⟩ := exists_of_map_eq_ok hExpand
            obtain ⟨rfl, -⟩ := Prod.mk.inj hResult
            refine ⟨?_, List.pairwise_cons.mpr ⟨?_, (ih hRest).2⟩⟩
            · intro member hMember
              obtain rfl | hIn := List.mem_cons.mp hMember
              · exact Nat.le_refl start
              · exact (hLater hRest).1 member hIn
            · intro member hMember
              exact Nat.ne_of_lt ((ih hRest).1 member hMember)
          · obtain ⟨⟨rest, others⟩, hRest, hResult⟩ := exists_of_map_eq_ok hExpand
            obtain ⟨rfl, -⟩ := Prod.mk.inj hResult
            exact hLater hRest

theorem QueueItem.expand_zipExpanded {w : World} {item : QueueItem} {displayKey : Text} {depth dropped : Nat}
    {members : List QueueItem} (h : item.expand w = .zipExpanded displayKey depth members dropped) :
    item.depth < maxZipDepth ∧ ∃ extracted : List ExtractedMember,
      members = extracted.map item.member ∧ extracted.Pairwise fun a b => a.index ≠ b.index := by
  rw [QueueItem.expand] at h
  split at h
  · cases h
  · rename_i hDepth
    split at h
    · split at h
      · cases h
      · cases h
      · split at h
        · rename_i hExpand
          cases h
          exact ⟨Nat.lt_of_not_le hDepth, _, rfl, (expandEntries_index hExpand).2⟩
        · cases h
    · cases h

theorem membersOf_cases (w : World) (item : QueueItem) :
    membersOf w item = [] ∨ item.depth < maxZipDepth ∧ ∃ extracted : List ExtractedMember,
      membersOf w item = extracted.map item.member ∧ extracted.Pairwise fun a b => a.index ≠ b.index := by
  rw [membersOf]
  split
  · rename_i hOutcome
    right
    rw [processItem] at hOutcome
    split at hOutcome
    · cases hOutcome
    · split at hOutcome
      · split at hOutcome
        · exact QueueItem.expand_zipExpanded hOutcome
        · rw [QueueItem.hashFile] at hOutcome
          split at hOutcome <;> cases hOutcome
      · cases hOutcome
  · exact .inl rfl

theorem membersOf_depth {w : World} {parent child : QueueItem} (h : child ∈ membersOf w parent) :
    parent.depth < maxZipDepth ∧ child.depth = parent.depth + 1 := by
  obtain hNone | ⟨hDepth, extracted, hMembers, -⟩ := membersOf_cases w parent
  · rw [hNone] at h
    cases h
  · rw [hMembers] at h
    obtain ⟨member, -, rfl⟩ := List.mem_map.mp h
    exact ⟨hDepth, rfl⟩

/-! ## The forest of archives -/

/-- The item and what is below it on so many levels. -/
def forestTo (w : World) : Nat → QueueItem → List QueueItem
  | 0, item => [item]
  | levels + 1, item => item :: (membersOf w item).flatMap (forestTo w levels)

def forestOf (w : World) (item : QueueItem) : List QueueItem := forestTo w (maxZipDepth - item.depth) item

theorem isForest (w : World) : Pool.IsForest (membersOf w) (forestOf w) := by
  intro item
  rw [forestOf]
  obtain hNone | ⟨hDepth, -⟩ := membersOf_cases w item
  · rw [hNone, List.flatMap_nil]
    cases maxZipDepth - item.depth with
    | zero => rfl
    | succ levels => rw [forestTo, hNone, List.flatMap_nil]
  · obtain ⟨levels, hLevels⟩ := Nat.exists_eq_succ_of_ne_zero (Nat.sub_ne_zero_of_lt hDepth)
    rw [hLevels, forestTo]
    congr 1
    apply List.flatMap_congr
    intro child hChild
    rw [forestOf, (membersOf_depth hChild).2, Nat.sub_add_eq, hLevels, Nat.succ_sub_one]

theorem prefix_of_mem_forestTo {w : World} {levels : Nat} {top item : QueueItem} (h : item ∈ forestTo w levels top) :
    top.place <+: item.place := by
  induction levels generalizing top with
  | zero =>
    obtain rfl := List.mem_singleton.mp h
    exact List.prefix_rfl
  | succ levels ih =>
    obtain rfl | hLower := List.mem_cons.mp h
    · exact List.prefix_rfl
    · obtain ⟨child, hChild, hIn⟩ := List.mem_flatMap.mp hLower
      obtain hNone | ⟨-, extracted, hMembers, -⟩ := membersOf_cases w top
      · rw [hNone] at hChild
        cases hChild
      · rw [hMembers] at hChild
        obtain ⟨member, -, rfl⟩ := List.mem_map.mp hChild
        exact (List.prefix_append _ _).trans (ih hIn)

theorem prefix_of_mem_forestOf {w : World} {top item : QueueItem} (h : item ∈ forestOf w top) :
    top.place <+: item.place := prefix_of_mem_forestTo h

theorem disjoint_forestOf {w : World} {a b : QueueItem} {base : Place} {i j : Nat} (hA : a.place = base ++ [i])
    (hB : b.place = base ++ [j]) (hNe : i ≠ j) : List.Disjoint (forestOf w a) (forestOf w b) := by
  intro item hInA hInB
  have hPlace : a.place = b.place :=
    (List.prefix_of_prefix_length_le (prefix_of_mem_forestOf hInA) (prefix_of_mem_forestOf hInB)
      (by rw [hA, hB, List.length_append, List.length_append]; rfl)).eq_of_length
      (by rw [hA, hB, List.length_append, List.length_append]; rfl)
  rw [hA, hB] at hPlace
  exact hNe (List.singleton_inj.mp (List.append_cancel_left hPlace))

theorem forestTo_nodup (w : World) (levels : Nat) (item : QueueItem) (hLevels : levels = maxZipDepth - item.depth) :
    (forestOf w item).Nodup := by
  induction levels generalizing item with
  | zero =>
    rw [forestOf, ← hLevels]
    exact List.nodup_singleton item
  | succ levels ih =>
    rw [isForest w item, List.nodup_cons]
    obtain hNone | ⟨-, extracted, hMembers, hApart⟩ := membersOf_cases w item
    · rw [hNone]
      exact ⟨List.not_mem_nil, List.nodup_nil⟩
    · constructor
      · intro hLower
        obtain ⟨child, hChild, hIn⟩ := List.mem_flatMap.mp hLower
        rw [hMembers] at hChild
        obtain ⟨member, -, rfl⟩ := List.mem_map.mp hChild
        have hLength := (prefix_of_mem_forestOf hIn).length_le
        rw [QueueItem.member, List.length_append, List.length_singleton] at hLength
        exact Nat.not_succ_le_self _ hLength
      · rw [List.nodup_flatMap]
        constructor
        · intro child hChild
          apply ih child
          rw [(membersOf_depth hChild).2]
          omega
        · rw [hMembers, List.pairwise_map]
          exact hApart.imp fun hNe => disjoint_forestOf rfl rfl hNe

theorem forestOf_nodup (w : World) (item : QueueItem) : (forestOf w item).Nodup := forestTo_nodup w _ item rfl

theorem rootItems_nodup (w : World) (tasks : List DeduplicateTask) : ((rootItems tasks).flatMap (forestOf w)).Nodup := by
  rw [List.nodup_flatMap]
  refine ⟨fun item _ => forestOf_nodup w item, ?_⟩
  rw [List.pairwise_iff_getElem]
  intro i j hi hj hLess
  have hPlace (k : Nat) (hk : k < (rootItems tasks).length) : (rootItems tasks)[k].place = [] ++ [k] := by
    simp only [rootItems, List.getElem_mapIdx]
    rfl
  exact disjoint_forestOf (hPlace i hi) (hPlace j hj) (Nat.ne_of_lt hLess)

theorem reaches_depth {w : World} {tasks : List DeduplicateTask} {item : QueueItem}
    (h : Pool.Reaches (membersOf w) (rootItems tasks) item) : item.depth ≤ maxZipDepth := by
  obtain ⟨top, hTop, hBelow⟩ := h
  cases hBelow with
  | refl =>
    rw [(mem_rootItems hTop).1]
    exact Nat.zero_le _
  | tail _ hChild =>
    obtain ⟨hDepth, hChildDepth⟩ := membersOf_depth hChild
    rw [hChildDepth]
    exact hDepth

/-! ## The workers -/

def workersStart (tasks : List DeduplicateTask) (concurrency : Nat) : Pool QueueItem Gathered :=
  Pool.start (max concurrency 1) (rootItems tasks) Gathered.nothing

/-- Every item is processed at most once, and below the depth limit; once the workers have stopped, each item that
was reached is processed exactly once and nothing waits. -/
structure Exact (w : World) (tasks : List DeduplicateTask) (pool : Pool QueueItem Gathered) : Prop where
  once : pool.done.Nodup
  reached : ∀ item ∈ pool.done, Pool.Reaches (membersOf w) (rootItems tasks) item
  depth : ∀ item ∈ pool.done, item.depth ≤ maxZipDepth
  empty : pool.Stopped → pool.queue = []
  all : pool.Stopped → ∀ item, Pool.Reaches (membersOf w) (rootItems tasks) item → pool.done.count item = 1

theorem exact_of_run {w : World} {tasks : List DeduplicateTask} {concurrency : Nat} {schedule : List Nat}
    {pool : Pool QueueItem Gathered}
    (hRun : run (Pool.advance (membersOf w) (record w)) (workersStart tasks concurrency) schedule = some pool) :
    Exact w tasks pool := by
  obtain ⟨hAll, hEnd⟩ := Pool.run_accounted (isForest w) (by omega) hRun
  have hOnce : pool.done.Nodup := (List.nodup_append.mp (hAll.nodup_iff.mpr (rootItems_nodup w tasks))).1
  have hReached (item : QueueItem) (hDone : item ∈ pool.done) : Pool.Reaches (membersOf w) (rootItems tasks) item :=
    ((isForest w).mem_flatMap_iff _ item).mp (hAll.mem_iff.mp (List.mem_append_left _ hDone))
  refine ⟨hOnce, hReached, fun item hDone => reaches_depth (hReached item hDone), fun h => (hEnd h).1, ?_⟩
  intro hStopped item hItem
  apply List.count_eq_one_of_mem hOnce
  exact (hEnd hStopped).2.2.mem_iff.mpr (((isForest w).mem_flatMap_iff _ item).mpr hItem)

theorem ends_of_fair (w : World) (tasks : List DeduplicateTask) (concurrency : Nat) {schedule : Nat → Nat}
    (hFair : Fair (· < max concurrency 1) schedule) : ∃ n,
      let pool := stateAt (Pool.turn (membersOf w) (record w)) schedule (workersStart tasks concurrency) n
      pool.Stopped ∧ Exact w tasks pool := by
  have hEnd : ∃ n, (stateAt (Pool.turn (membersOf w) (record w)) schedule (workersStart tasks concurrency) n).Stopped :=
    Pool.stops_of_fair (isForest w) _ _ (by omega) hFair
  obtain ⟨n, hStopped⟩ := hEnd
  obtain ⟨taken, hTaken⟩ := Pool.exists_run (membersOf w) (record w) schedule (workersStart tasks concurrency) n
  exact ⟨n, hStopped, exact_of_run hTaken⟩

/-- Whatever the tasks, the nesting of the archives and the number of workers: under every order of the workers'
steps the items are processed exactly, and every fair order brings the workers to their end. -/
theorem workers_exact (w : World) (tasks : List DeduplicateTask) (concurrency : Nat) :
    (∀ schedule pool,
        run (Pool.advance (membersOf w) (record w)) (workersStart tasks concurrency) schedule = some pool →
          Exact w tasks pool) ∧
      ∀ schedule, Fair (· < max concurrency 1) schedule → ∃ n,
        let pool := stateAt (Pool.turn (membersOf w) (record w)) schedule (workersStart tasks concurrency) n
        pool.Stopped ∧ Exact w tasks pool :=
  ⟨fun _ _ => exact_of_run, fun _ => ends_of_fair w tasks concurrency⟩

theorem roundRobin_exact (w : World) (tasks : List DeduplicateTask) (concurrency : Nat) : ∃ n,
    let pool := stateAt (Pool.turn (membersOf w) (record w)) (· % max concurrency 1) (workersStart tasks concurrency) n
    pool.Stopped ∧ Exact w tasks pool :=
  ends_of_fair w tasks concurrency (fair_mod _)

end Pigeon.Deduplicate
