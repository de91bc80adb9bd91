import Pigeon.Library.Forest

/-! # When a worker of a pool leaves

A worker stops once it found the queue empty and the count at zero. An item that was taken is counted only by the
next step of its worker, so for a moment it is neither in the queue nor in the count.
-/
namespace Pigeon.Library

set_option autoImplicit false

/-- It has taken an item and not finished with it. -/
def Worker.Busy {ι : Type*} : Worker ι → Prop
  | .holding _ | .working _ | .leaving => True
  | _ => False

namespace Pool

variable {ι α : Type*} (children : ι → List ι) (record : α → ι → α)

/-- Processing what waits or what a worker holds can bring new items. -/
def CanProduce (s : Pool ι α) : Prop :=
  ∃ item, (item ∈ s.queue ∨ ∃ worker ∈ s.workers, worker.item? = some item) ∧ children item ≠ []

/-- The worker leaves only when no worker is busy, and while new items can come none has left. -/
def StaysAvailable (s : Pool ι α) (k : Nat) : Prop :=
  ∀ next, advance children record s k = some next →
    (next.workers[k]? = some .stopped → ∀ worker ∈ s.workers, ¬ worker.Busy) ∧
      (CanProduce children next → ∀ worker ∈ next.workers, worker ≠ .stopped)

/-- The count is read at zero only when no item is between being taken and being counted, and none has come in that
brings others. -/
def CountTells (s : Pool ι α) (k : Nat) : Prop :=
  s.workers[k]? = some .idle → s.inFlight = 0 →
    (∀ worker ∈ s.workers, ∀ item, worker ≠ .holding item) ∧ ∀ item ∈ s.queue, children item = []

variable {children record}

theorem Moves.canProduce {s next : Pool ι α} {k : Nat} (h : Moves children record s k next)
    (hNext : CanProduce children next) : CanProduce children s := by
  obtain ⟨item, hItem, hChildren⟩ := hNext
  have hSame {t : Pool ι α} {old worker : Worker ι} (hWorker : s.workers[k]? = some old) (hQueue : t.queue = s.queue)
      (hWorkers : t.workers = s.workers) (hOld : worker.item? = none ∨ worker.item? = old.item?)
      (hIn : item ∈ (t.moveTo k worker).queue ∨
        ∃ other ∈ (t.moveTo k worker).workers, other.item? = some item) : CanProduce children s := by
    obtain hWaits | hHeld := hIn
    · exact ⟨item, .inl (hQueue ▸ hWaits), hChildren⟩
    · obtain hOwn | hOther := held_of_moveTo hHeld
      · obtain hNone | hKeeps := hOld
        · rw [hNone] at hOwn
          cases hOwn
        · exact ⟨item, .inr ⟨old, List.mem_of_getElem? hWorker, hKeeps ▸ hOwn⟩, hChildren⟩
      · exact ⟨item, .inr (hWorkers ▸ hOther), hChildren⟩
  cases h with
  | findsNothing hWorker _ => exact hSame hWorker rfl rfl (.inl rfl) hItem
  | takes hWorker hQueue =>
    obtain hWaits | hHeld := hItem
    · exact ⟨item, .inl (hQueue ▸ List.mem_cons_of_mem _ hWaits), hChildren⟩
    · obtain hOwn | hOther := held_of_moveTo hHeld
      · obtain rfl := Option.some.inj hOwn
        exact ⟨_, .inl (hQueue ▸ List.mem_cons_self), hChildren⟩
      · exact ⟨item, .inr hOther, hChildren⟩
  | countsIn hWorker => exact hSame hWorker (by rfl) (by rfl) (.inr (by rfl)) hItem
  | @processes parent hWorker =>
    have hParent : ∃ worker ∈ s.workers, worker.item? = some parent := ⟨_, List.mem_of_getElem? hWorker, rfl⟩
    obtain hWaits | hHeld := hItem
    · obtain hBefore | hChild := List.mem_append.mp hWaits
      · exact ⟨item, .inl hBefore, hChildren⟩
      · exact ⟨parent, .inr hParent, List.ne_nil_of_mem hChild⟩
    · exact ⟨item, .inr ((held_of_moveTo hHeld).resolve_left (by simp [Worker.item?])), hChildren⟩
  | countsOut hWorker => exact hSame hWorker rfl rfl (.inl rfl) hItem
  | readsCount hWorker => exact hSame hWorker rfl rfl (.inl (by split <;> rfl)) hItem

/-- A worker leaves by the step in which it reads the count at zero. -/
theorem Moves.exists_set {s next : Pool ι α} {k : Nat} (h : Moves children record s k next) :
    ∃ old worker, s.workers[k]? = some old ∧ next.workers = s.workers.set k worker ∧
      (worker = .stopped → old = .idle ∧ s.inFlight = 0 ∧ next = s.moveTo k .stopped) := by
  cases h with
  | findsNothing hWorker _ => exact ⟨_, _, hWorker, rfl, fun hStopped => by cases hStopped⟩
  | takes hWorker _ => exact ⟨_, _, hWorker, rfl, fun hStopped => by cases hStopped⟩
  | countsIn hWorker => exact ⟨_, _, hWorker, rfl, fun hStopped => by cases hStopped⟩
  | processes hWorker => exact ⟨_, _, hWorker, rfl, fun hStopped => by cases hStopped⟩
  | countsOut hWorker => exact ⟨_, _, hWorker, rfl, fun hStopped => by cases hStopped⟩
  | readsCount hWorker =>
    refine ⟨_, _, hWorker, rfl, fun hStopped => ?_⟩
    split at hStopped
    · rename_i hZero
      exact ⟨rfl, hZero, by rw [if_pos hZero]⟩
    · cases hStopped

/-- What holds while no worker has left early. -/
structure Unhurried (children : ι → List ι) (s : Pool ι α) : Prop where
  counted : s.Counted
  available : CanProduce children s → ∀ worker ∈ s.workers, worker ≠ .stopped

theorem start_unhurried (workers : Nat) (items : List ι) (nothing : α) :
    Unhurried children (start workers items nothing) where
  counted := by
    rw [Counted, start, List.countP_replicate]
    rfl
  available _ worker hWorker := by
    rw [List.eq_of_mem_replicate hWorker]
    simp

theorem not_busy_of_uncounted {s : Pool ι α} (hCounted : s.Counted) (hZero : s.inFlight = 0)
    (hHolding : ∀ worker ∈ s.workers, ∀ item, worker ≠ .holding item) : ∀ worker ∈ s.workers, ¬ worker.Busy := by
  intro worker hWorker hBusy
  rw [Counted, hZero, eq_comm, List.countP_eq_zero] at hCounted
  have hOut := hCounted worker hWorker
  cases worker with
  | holding item => exact hHolding _ hWorker item rfl
  | working item => exact hOut rfl
  | leaving => exact hOut rfl
  | _ => exact hBusy

theorem staysAvailable_iff {s : Pool ι α} (h : Unhurried children s) (k : Nat) :
    StaysAvailable children record s k ↔ CountTells children s k := by
  constructor
  · intro hStays hIdle hZero
    have hStep : advance children record s k = some (s.moveTo k .stopped) := by
      rw [advance, hIdle]
      dsimp only
      rw [if_pos hZero]
    obtain ⟨hBusy, hAvailable⟩ := hStays _ hStep
    have hStopped : .stopped ∈ (s.moveTo k .stopped).workers := mem_set_of_getElem? hIdle .stopped
    obtain ⟨hBound, -⟩ := List.getElem?_eq_some_iff.mp hIdle
    constructor
    · rintro worker hWorker item rfl
      exact hBusy (List.getElem?_set_self hBound) _ hWorker trivial
    · intro item hItem
      by_contra hChildren
      exact hAvailable ⟨item, .inl hItem, hChildren⟩ _ hStopped rfl
  · intro hTells next hStep
    have hMoves := advance_moves hStep
    obtain ⟨old, moved, hWorker, hNext, hLeaves⟩ := hMoves.exists_set
    have hIdle (hStopped : moved = .stopped) : s.workers[k]? = some .idle := by
      rw [hWorker, (hLeaves hStopped).1]
    have hQuiet (hStopped : moved = .stopped) : ∀ worker ∈ s.workers, ¬ worker.Busy :=
      not_busy_of_uncounted h.counted (hLeaves hStopped).2.1 (hTells (hIdle hStopped) (hLeaves hStopped).2.1).1
    obtain ⟨hBound, -⟩ := List.getElem?_eq_some_iff.mp hWorker
    constructor
    · intro hLeft
      rw [hNext, List.getElem?_set_self hBound] at hLeft
      exact hQuiet (Option.some.inj hLeft)
    · intro hProduce worker hMem hStopped
      rw [hNext] at hMem
      obtain hOld | hMoved := List.mem_or_eq_of_mem_set hMem
      · exact h.available (hMoves.canProduce hProduce) worker hOld hStopped
      · have hLast : moved = .stopped := hMoved.symm.trans hStopped
        obtain ⟨item, hItem, hChildren⟩ := hProduce
        rw [(hLeaves hLast).2.2] at hItem
        obtain hWaits | hHeld := hItem
        · exact hChildren ((hTells (hIdle hLast) (hLeaves hLast).2.1).2 item hWaits)
        · obtain ⟨other, hOther, hHolds⟩ := (held_of_moveTo hHeld).resolve_left (by simp [Worker.item?])
          apply hQuiet hLast other hOther
          cases other with
          | holding _ | working _ | leaving => trivial
          | _ => cases hHolds

theorem Unhurried.step {s next : Pool ι α} {k : Nat} (h : Unhurried children s)
    (hStays : StaysAvailable children record s k) (hStep : advance children record s k = some next) :
    Unhurried children next where
  counted := (advance_moves hStep).counted h.counted
  available := (hStays next hStep).2

/-- In any run the workers stay available as long as the count tells. -/
theorem within_staysAvailable_iff (workers : Nat) (items : List ι) (nothing : α) (schedule : List Nat) :
    Within (advance children record) (StaysAvailable children record) (start workers items nothing) schedule ↔
      Within (advance children record) (CountTells children) (start workers items nothing) schedule :=
  Within.iff_of_invariant (Unhurried children) (fun _ k h => staysAvailable_iff h k)
    (fun _ _ _ h hStays hStep => h.step hStays hStep) (start_unhurried workers items nothing) schedule

end Pool

end Pigeon.Library
