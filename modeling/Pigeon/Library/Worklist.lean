import Pigeon.Library.Runs

/-! # A pool of workers on one growing queue

A worker takes an item, counts itself in, processes the item, puts the item's children on the
queue, and counts itself out. It stops once it has found the queue empty and then the count
at zero; these are two separate reads. Every step of a worker is determined by what it did
last, so a schedule is a list of worker numbers.
-/
namespace Pigeon.Library

set_option autoImplicit false

inductive Worker (ι : Type*) where
  | ready
  /-- Taken, not counted in yet. -/
  | holding (item : ι)
  | working (item : ι)
  /-- Processed, still counted in. -/
  | leaving
  /-- The queue was empty, the count is not read yet. -/
  | idle
  | stopped
deriving DecidableEq, Repr

namespace Worker

variable {ι : Type*}

def item? : Worker ι → Option ι
  | holding item | working item => some item
  | _ => none

/-- It looks at the queue again before it stops. -/
def Active : Worker ι → Prop
  | idle | stopped => False
  | _ => True

end Worker

structure Pool (ι α : Type*) where
  queue : List ι
  workers : List (Worker ι)
  inFlight : Nat
  /-- What was processed so far, oldest first. -/
  done : List ι
  gathered : α

namespace Pool

variable {ι α : Type*} (children : ι → List ι) (record : α → ι → α)

def start (workers : Nat) (items : List ι) (nothing : α) : Pool ι α :=
  ⟨items, List.replicate workers .ready, 0, [], nothing⟩

def moveTo (s : Pool ι α) (k : Nat) (worker : Worker ι) : Pool ι α :=
  { s with workers := s.workers.set k worker }

/-- The next step of worker `k`. -/
def advance (s : Pool ι α) (k : Nat) : Option (Pool ι α) :=
  match s.workers[k]? with
  | some .ready =>
    match s.queue with
    | [] => some (s.moveTo k .idle)
    | item :: rest => some ({ s with queue := rest }.moveTo k (.holding item))
  | some (.holding item) => some ({ s with inFlight := s.inFlight + 1 }.moveTo k (.working item))
  | some (.working item) =>
    some ({ s with
      queue := s.queue ++ children item
      done := s.done ++ [item]
      gathered := record s.gathered item }.moveTo k .leaving)
  | some .leaving => some ({ s with inFlight := s.inFlight - 1 }.moveTo k .ready)
  | some .idle => some (s.moveTo k (if s.inFlight = 0 then .stopped else .ready))
  | some .stopped | none => none

def Stopped (s : Pool ι α) : Prop := ∀ worker ∈ s.workers, worker = .stopped

/-- The item itself, its children, and what is below these. -/
def Below : ι → ι → Prop := Relation.ReflTransGen fun parent child => child ∈ children parent

def Reaches (items : List ι) (item : ι) : Prop := ∃ root ∈ items, Below children root item

/-- Waiting, with a worker, or processed. -/
def Known (s : Pool ι α) (item : ι) : Prop :=
  item ∈ s.queue ∨ (∃ worker ∈ s.workers, worker.item? = some item) ∨ item ∈ s.done

/-! ## The moves of a step -/

variable {children record}

inductive Moves (children : ι → List ι) (record : α → ι → α) (s : Pool ι α) (k : Nat) : Pool ι α → Prop where
  | findsNothing (hWorker : s.workers[k]? = some .ready) (hQueue : s.queue = []) :
    Moves children record s k (s.moveTo k .idle)
  | takes {item : ι} {rest : List ι} (hWorker : s.workers[k]? = some .ready) (hQueue : s.queue = item :: rest) :
    Moves children record s k ({ s with queue := rest }.moveTo k (.holding item))
  | countsIn {item : ι} (hWorker : s.workers[k]? = some (.holding item)) :
    Moves children record s k ({ s with inFlight := s.inFlight + 1 }.moveTo k (.working item))
  | processes {item : ι} (hWorker : s.workers[k]? = some (.working item)) :
    Moves children record s k ({ s with
      queue := s.queue ++ children item
      done := s.done ++ [item]
      gathered := record s.gathered item }.moveTo k .leaving)
  | countsOut (hWorker : s.workers[k]? = some .leaving) :
    Moves children record s k ({ s with inFlight := s.inFlight - 1 }.moveTo k .ready)
  | readsCount (hWorker : s.workers[k]? = some .idle) :
    Moves children record s k (s.moveTo k (if s.inFlight = 0 then .stopped else .ready))

theorem advance_moves {s next : Pool ι α} {k : Nat} (h : advance children record s k = some next) :
    Moves children record s k next := by
  unfold advance at h
  split at h
  · rename_i hWorker
    split at h
    · rename_i hQueue
      cases h
      exact .findsNothing hWorker hQueue
    · rename_i hQueue
      cases h
      exact .takes hWorker hQueue
  · rename_i hWorker
    cases h
    exact .countsIn hWorker
  · rename_i hWorker
    cases h
    exact .processes hWorker
  · rename_i hWorker
    cases h
    exact .countsOut hWorker
  · rename_i hWorker
    cases h
    exact .readsCount hWorker
  · cases h
  · cases h

/-! ## The workers after a step -/

theorem mem_set_of_getElem? {workers : List (Worker ι)} {k : Nat} {old : Worker ι} (h : workers[k]? = some old)
    (worker : Worker ι) : worker ∈ workers.set k worker := by
  obtain ⟨hBound, -⟩ := List.getElem?_eq_some_iff.mp h
  exact List.mem_set hBound worker

theorem mem_set_of_ne {workers : List (Worker ι)} {k : Nat} {old other : Worker ι} (h : workers[k]? = some old)
    (hOther : other ∈ workers) (hNe : other ≠ old) (worker : Worker ι) : other ∈ workers.set k worker := by
  obtain ⟨j, hj⟩ := List.getElem?_of_mem hOther
  have hIndex : k ≠ j := by
    rintro rfl
    rw [h] at hj
    exact hNe (Option.some.inj hj).symm
  apply List.mem_of_getElem? (i := j)
  rw [List.getElem?_set_ne hIndex]
  exact hj

theorem held_moveTo {s : Pool ι α} {k : Nat} {old : Worker ι} {item : ι} (hWorker : s.workers[k]? = some old)
    (hHeld : ∃ worker ∈ s.workers, worker.item? = some item) (worker : Worker ι) :
    old.item? = some item ∨ ∃ other ∈ (s.moveTo k worker).workers, other.item? = some item := by
  obtain ⟨other, hOther, hItem⟩ := hHeld
  by_cases hSame : other = old
  · exact .inl (hSame ▸ hItem)
  · exact .inr ⟨other, mem_set_of_ne hWorker hOther hSame worker, hItem⟩

theorem held_of_moveTo {s : Pool ι α} {k : Nat} {worker : Worker ι} {item : ι}
    (h : ∃ other ∈ (s.moveTo k worker).workers, other.item? = some item) :
    worker.item? = some item ∨ ∃ other ∈ s.workers, other.item? = some item := by
  obtain ⟨other, hOther, hItem⟩ := h
  obtain hOld | rfl := List.mem_or_eq_of_mem_set hOther
  · exact .inr ⟨other, hOld, hItem⟩
  · exact .inl hItem

theorem known_moveTo {s t : Pool ι α} {k : Nat} {old worker : Worker ι} (hWorker : s.workers[k]? = some old)
    (hOld : old.item? = none) (hNew : worker.item? = none) (hQueue : t.queue = s.queue)
    (hWorkers : t.workers = s.workers) (hDone : t.done = s.done) (item : ι) :
    (t.moveTo k worker).Known item ↔ s.Known item := by
  constructor
  · rintro (hWaits | hHeld | hPast)
    · exact .inl (hQueue ▸ hWaits)
    · have hOther := (held_of_moveTo hHeld).resolve_left (by simp [hNew])
      exact .inr (.inl (hWorkers ▸ hOther))
    · exact .inr (.inr (hDone ▸ hPast))
  · rintro (hWaits | hHeld | hPast)
    · exact .inl (hQueue ▸ hWaits)
    · have hOther := (held_moveTo (s := t) (hWorkers ▸ hWorker) (hWorkers ▸ hHeld) worker).resolve_left (by simp [hOld])
      exact .inr (.inl hOther)
    · exact .inr (.inr (hDone ▸ hPast))

/-! ## Nothing is forgotten -/

theorem Moves.known {s next : Pool ι α} {k : Nat} (h : Moves children record s k next) {item : ι}
    (hKnown : s.Known item) : next.Known item := by
  cases h with
  | findsNothing hWorker _ => exact (known_moveTo hWorker rfl rfl rfl rfl rfl item).mpr hKnown
  | takes hWorker hQueue =>
    obtain hWaits | hHeld | hDone := hKnown
    · rw [hQueue] at hWaits
      obtain rfl | hLater := List.mem_cons.mp hWaits
      · exact .inr (.inl ⟨_, mem_set_of_getElem? hWorker _, rfl⟩)
      · exact .inl hLater
    · exact .inr (.inl ((held_moveTo hWorker hHeld _).resolve_left (by simp [Worker.item?])))
    · exact .inr (.inr hDone)
  | countsIn hWorker =>
    obtain hWaits | hHeld | hDone := hKnown
    · exact .inl hWaits
    · obtain hOwn | hOther := held_moveTo hWorker hHeld (.working _)
      · exact .inr (.inl ⟨_, mem_set_of_getElem? hWorker _, hOwn⟩)
      · exact .inr (.inl hOther)
    · exact .inr (.inr hDone)
  | processes hWorker =>
    obtain hWaits | hHeld | hDone := hKnown
    · exact .inl (List.mem_append_left _ hWaits)
    · obtain hOwn | hOther := held_moveTo hWorker hHeld .leaving
      · obtain rfl := Option.some.inj hOwn
        exact .inr (.inr (List.mem_append_right _ List.mem_cons_self))
      · exact .inr (.inl hOther)
    · exact .inr (.inr (List.mem_append_left _ hDone))
  | countsOut hWorker => exact (known_moveTo hWorker rfl rfl rfl rfl rfl item).mpr hKnown
  | readsCount hWorker => exact (known_moveTo hWorker rfl (by split <;> rfl) rfl rfl rfl item).mpr hKnown

theorem Moves.known_inv {s next : Pool ι α} {k : Nat} (h : Moves children record s k next) {item : ι}
    (hKnown : next.Known item) : s.Known item ∨ ∃ parent, s.Known parent ∧ item ∈ children parent := by
  cases h with
  | findsNothing hWorker _ => exact .inl ((known_moveTo hWorker rfl rfl rfl rfl rfl item).mp hKnown)
  | takes hWorker hQueue =>
    refine .inl ?_
    obtain hWaits | hHeld | hDone := hKnown
    · exact .inl (hQueue ▸ List.mem_cons_of_mem _ hWaits)
    · obtain hOwn | hOther := held_of_moveTo hHeld
      · obtain rfl := Option.some.inj hOwn
        exact .inl (hQueue ▸ List.mem_cons_self)
      · exact .inr (.inl hOther)
    · exact .inr (.inr hDone)
  | countsIn hWorker =>
    refine .inl ?_
    obtain hWaits | hHeld | hDone := hKnown
    · exact .inl hWaits
    · obtain hOwn | hOther := held_of_moveTo hHeld
      · exact .inr (.inl ⟨_, List.mem_of_getElem? hWorker, hOwn⟩)
      · exact .inr (.inl hOther)
    · exact .inr (.inr hDone)
  | @processes parent hWorker =>
    have hParent : s.Known parent := .inr (.inl ⟨_, List.mem_of_getElem? hWorker, rfl⟩)
    obtain hWaits | hHeld | hDone := hKnown
    · obtain hBefore | hChild := List.mem_append.mp hWaits
      · exact .inl (.inl hBefore)
      · exact .inr ⟨parent, hParent, hChild⟩
    · exact .inl (.inr (.inl ((held_of_moveTo hHeld).resolve_left (by simp [Worker.item?]))))
    · obtain hBefore | hNow := List.mem_append.mp hDone
      · exact .inl (.inr (.inr hBefore))
      · exact .inl (List.mem_singleton.mp hNow ▸ hParent)
  | countsOut hWorker => exact .inl ((known_moveTo hWorker rfl rfl rfl rfl rfl item).mp hKnown)
  | readsCount hWorker => exact .inl ((known_moveTo hWorker rfl (by split <;> rfl) rfl rfl rfl item).mp hKnown)

/-! ## The invariant -/

/-- What holds while the pool runs on `items`. A queue that is not empty has a worker that
will look at it: an idle worker may stop although items came in after it looked, but the one
that put them there goes on. -/
structure Sound (children : ι → List ι) (record : α → ι → α) (items : List ι) (nothing : α) (s : Pool ι α) :
    Prop where
  roots : ∀ root ∈ items, s.Known root
  below : ∀ parent ∈ s.done, ∀ child ∈ children parent, s.Known child
  reached : ∀ item, s.Known item → Reaches children items item
  attended : s.queue ≠ [] → ∃ worker ∈ s.workers, worker.Active
  gathered : s.gathered = s.done.foldl record nothing

theorem start_sound (items : List ι) (nothing : α) {workers : Nat} (hWorkers : 0 < workers) :
    Sound children record items nothing (start workers items nothing) where
  roots root hRoot := .inl hRoot
  below parent hParent := by cases hParent
  reached item hKnown := by
    obtain hWaits | ⟨worker, hWorker, hItem⟩ | hDone := hKnown
    · exact ⟨item, hWaits, .refl⟩
    · obtain rfl := List.eq_of_mem_replicate hWorker
      cases hItem
    · cases hDone
  attended _ := ⟨.ready, List.mem_replicate.mpr ⟨by omega, rfl⟩, trivial⟩
  gathered := rfl

theorem attended_moveTo {s t : Pool ι α} {k : Nat} {old worker : Worker ι} (hWorker : s.workers[k]? = some old)
    (hWorkers : t.workers = s.workers) (hActive : worker.Active) : ∃ other ∈ (t.moveTo k worker).workers, other.Active :=
  ⟨worker, mem_set_of_getElem? (hWorkers ▸ hWorker) worker, hActive⟩

theorem Moves.attended {s next : Pool ι α} {k : Nat} (h : Moves children record s k next)
    (hBefore : s.queue ≠ [] → ∃ worker ∈ s.workers, worker.Active) (hQueue : next.queue ≠ []) :
    ∃ worker ∈ next.workers, worker.Active := by
  cases h with
  | findsNothing _ hEmpty => exact absurd hEmpty hQueue
  | takes hWorker _ => exact attended_moveTo hWorker rfl trivial
  | countsIn hWorker => exact attended_moveTo hWorker rfl trivial
  | processes hWorker => exact attended_moveTo hWorker rfl trivial
  | countsOut hWorker => exact attended_moveTo hWorker rfl trivial
  | readsCount hWorker =>
    obtain ⟨other, hOther, hActive⟩ := hBefore hQueue
    refine ⟨other, mem_set_of_ne hWorker hOther ?_ _, hActive⟩
    rintro rfl
    exact hActive

theorem Moves.below {s next : Pool ι α} {k : Nat} (h : Moves children record s k next)
    (hBefore : ∀ parent ∈ s.done, ∀ child ∈ children parent, s.Known child) :
    ∀ parent ∈ next.done, ∀ child ∈ children parent, next.Known child := by
  have hKept : ∀ parent ∈ s.done, ∀ child ∈ children parent, next.Known child :=
    fun parent hParent child hChild => h.known (hBefore parent hParent child hChild)
  cases h with
  | processes _ =>
    intro parent hParent child hChild
    obtain hPast | hNow := List.mem_append.mp hParent
    · exact hKept parent hPast child hChild
    · obtain rfl := List.mem_singleton.mp hNow
      exact .inl (List.mem_append_right _ hChild)
  | findsNothing _ _ | takes _ _ | countsIn _ | countsOut _ | readsCount _ => exact hKept

theorem Moves.gathered {s next : Pool ι α} {k : Nat} (h : Moves children record s k next) {nothing : α}
    (hBefore : s.gathered = s.done.foldl record nothing) : next.gathered = next.done.foldl record nothing := by
  cases h with
  | @processes item _ =>
    show record s.gathered item = (s.done ++ [item]).foldl record nothing
    rw [List.foldl_append, ← hBefore]
    rfl
  | findsNothing _ _ | takes _ _ | countsIn _ | countsOut _ | readsCount _ => exact hBefore

theorem Sound.step {items : List ι} {nothing : α} {s next : Pool ι α} {k : Nat}
    (hSound : Sound children record items nothing s) (hStep : advance children record s k = some next) :
    Sound children record items nothing next where
  roots root hRoot := (advance_moves hStep).known (hSound.roots root hRoot)
  below := (advance_moves hStep).below hSound.below
  reached item hKnown := by
    obtain hOld | ⟨parent, hParent, hChild⟩ := (advance_moves hStep).known_inv hKnown
    · exact hSound.reached item hOld
    · obtain ⟨root, hRoot, hPath⟩ := hSound.reached parent hParent
      exact ⟨root, hRoot, hPath.tail hChild⟩
  attended := (advance_moves hStep).attended hSound.attended
  gathered := (advance_moves hStep).gathered hSound.gathered

theorem Sound.done_of_known {items : List ι} {nothing : α} {s : Pool ι α}
    (hSound : Sound children record items nothing s) (hStopped : s.Stopped) {item : ι} (hKnown : s.Known item) :
    item ∈ s.done := by
  obtain hWaits | ⟨worker, hWorker, hItem⟩ | hDone := hKnown
  · obtain ⟨worker, hWorker, hActive⟩ := hSound.attended (List.ne_nil_of_mem hWaits)
    rw [hStopped worker hWorker] at hActive
    exact hActive.elim
  · rw [hStopped worker hWorker] at hItem
    cases hItem
  · exact hDone

theorem Sound.mem_done {items : List ι} {nothing : α} {s : Pool ι α}
    (hSound : Sound children record items nothing s) (hStopped : s.Stopped) (item : ι) :
    item ∈ s.done ↔ Reaches children items item := by
  constructor
  · exact fun hDone => hSound.reached item (.inr (.inr hDone))
  · rintro ⟨root, hRoot, hPath⟩
    induction hPath with
    | refl => exact hSound.done_of_known hStopped (hSound.roots root hRoot)
    | tail _ hChild ih => exact hSound.done_of_known hStopped (hSound.below _ ih _ hChild)

/-- Whatever the order of the workers' steps: when all have stopped, the items processed are
the ones reached, and what was gathered is what processing them one by one gathers. -/
theorem run_stopped {workers : Nat} {items : List ι} {nothing : α} {schedule : List Nat} {s : Pool ι α}
    (hWorkers : 0 < workers) (hRun : run (advance children record) (start workers items nothing) schedule = some s)
    (hStopped : s.Stopped) :
    (∀ item, item ∈ s.done ↔ Reaches children items item) ∧ s.gathered = s.done.foldl record nothing := by
  have hSound : Sound children record items nothing s :=
    run_preserves (Sound children record items nothing) (fun _ _ _ h hStep => h.step hStep) hRun
      (start_sound items nothing hWorkers)
  exact ⟨hSound.mem_done hStopped, hSound.gathered⟩

end Pool

end Pigeon.Library
