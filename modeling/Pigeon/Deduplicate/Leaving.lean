import Pigeon.Library.Leaving
import Pigeon.Deduplicate.Queue

/-! # Workers that leave early

The exit test of a worker reads the queue and then `in_flight`. A worker that has popped an item raises `in_flight`
by a step of its own, and one that is done lowers it after its members are in the queue; a worker that looks in
between leaves, and the rest of the job has one worker less.
-/
namespace Pigeon.Deduplicate

open Library Pigeon.Core

set_option autoImplicit false

/-- In every run the workers stay available if and only if `in_flight` is read at zero only while no item is popped
and not counted, and while no archive with members waits. -/
theorem workers_stay_iff (w : World) (tasks : List DeduplicateTask) (concurrency : Nat) (schedule : List Nat) :
    Within (Pool.advance (membersOf w) (record w)) (Pool.StaysAvailable (membersOf w) (record w))
        (workersStart tasks concurrency) schedule ↔
      Within (Pool.advance (membersOf w) (record w)) (Pool.CountTells (membersOf w))
        (workersStart tasks concurrency) schedule :=
  Pool.within_staysAvailable_iff _ _ _ schedule

/-- The second worker finds the queue empty and `in_flight` at zero after the first one has popped the only archive. -/
theorem second_worker_leaves_popped_archive :
    ¬ Within (Pool.advance (membersOf pictureWorld) (record pictureWorld))
        (Pool.StaysAvailable (membersOf pictureWorld) (record pictureWorld)) (workersStart [pictureTask] 2) [0, 1, 1] := by
  intro hStays
  obtain ⟨hLeaves, -⟩ := ((hStays.2 _ rfl).2 _ rfl).1 _ rfl
  exact hLeaves rfl (.holding (rootItem 0 pictureTask)) List.mem_cons_self trivial

end Pigeon.Deduplicate
