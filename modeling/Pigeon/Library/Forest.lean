import Pigeon.Library.Fair
import Pigeon.Library.Worklist

/-! # A pool on a forest

Where the children of the items form trees that end, each item lists what is below it. Then the pool processes
every item of the forest exactly once, and all its workers stop under every fair schedule.
-/
namespace Pigeon.Library

set_option autoImplicit false

namespace Worker

variable {ι : Type*}

def countedIn : Worker ι → Bool
  | working _ | leaving => true
  | _ => false

/-- Steps that the worker has still to take for its item, of four for each item below it. -/
def load (forest : ι → List ι) : Worker ι → Nat
  | holding item => 4 * (forest item).length - 1
  | working item => 4 * (forest item).length - 2
  | leaving => 1
  | _ => 0

/-- Steps from here to the end where nothing is left to do. -/
def turns : Worker ι → Nat
  | ready => 2
  | idle => 1
  | _ => 0

end Worker

namespace Pool

variable {ι α : Type*} {children : ι → List ι} {record : α → ι → α}

/-- The item and what is below it, as a list. -/
def IsForest (children : ι → List ι) (forest : ι → List ι) : Prop :=
  ∀ item, forest item = item :: (children item).flatMap forest

def held (s : Pool ι α) : List ι := s.workers.filterMap Worker.item?

/-- What is processed, and what is to come of the queue and the workers' items. -/
def accounted (forest : ι → List ι) (s : Pool ι α) : List ι := s.done ++ (s.queue ++ s.held).flatMap forest

def work (forest : ι → List ι) (s : Pool ι α) : Nat :=
  (s.queue.map fun item => 4 * (forest item).length).sum + (s.workers.map (Worker.load forest)).sum

def restTurns (s : Pool ι α) : Nat := (s.workers.map Worker.turns).sum

theorem IsForest.mem_iff {forest : ι → List ι} (hForest : IsForest children forest) (top item : ι) :
    item ∈ forest top ↔ Below children top item := by
  constructor
  · intro hItem
    induction hLength : (forest top).length using Nat.strongRecOn generalizing top with
    | _ length ih =>
      rw [hForest top, List.length_cons] at hLength
      rw [hForest top] at hItem
      obtain rfl | hLower := List.mem_cons.mp hItem
      · exact .refl
      · obtain ⟨child, hChild, hIn⟩ := List.mem_flatMap.mp hLower
        have hShorter : (forest child).length < length := by
          obtain ⟨before, after, hParts⟩ := List.append_of_mem hChild
          rw [hParts, List.flatMap_append, List.flatMap_cons, List.length_append, List.length_append] at hLength
          omega
        exact .head hChild (ih _ hShorter child hIn rfl)
  · intro hBelow
    induction hBelow using Relation.ReflTransGen.head_induction_on with
    | refl =>
      rw [hForest item]
      exact List.mem_cons_self
    | @head parent child hChild _ ih =>
      rw [hForest parent]
      exact List.mem_cons_of_mem _ (List.mem_flatMap.mpr ⟨child, hChild, ih⟩)

theorem IsForest.mem_flatMap_iff {forest : ι → List ι} (hForest : IsForest children forest) (items : List ι)
    (item : ι) : item ∈ items.flatMap forest ↔ Reaches children items item := by
  simp only [List.mem_flatMap, hForest.mem_iff, Reaches]

/-! ## One worker among the others -/

theorem exists_split {workers : List (Worker ι)} {k : Nat} {old : Worker ι} (h : workers[k]? = some old) :
    ∃ before after, workers = before ++ old :: after ∧ ∀ worker, workers.set k worker = before ++ worker :: after := by
  obtain ⟨hBound, rfl⟩ := List.getElem?_eq_some_iff.mp h
  refine ⟨workers.take k, workers.drop (k + 1), ?_, fun worker => List.set_eq_take_append_cons_drop.trans (if_pos hBound)⟩
  rw [List.cons_getElem_drop_succ, List.take_append_drop]

theorem sum_set {workers : List (Worker ι)} {k : Nat} {old : Worker ι} (h : workers[k]? = some old)
    (size : Worker ι → Nat) (worker : Worker ι) :
    ((workers.set k worker).map size).sum + size old = (workers.map size).sum + size worker := by
  obtain ⟨before, after, hWorkers, hSet⟩ := exists_split h
  rw [hSet, hWorkers]
  simp only [List.map_append, List.map_cons, List.sum_append, List.sum_cons]
  omega

theorem countP_set {workers : List (Worker ι)} {k : Nat} {old : Worker ι} (h : workers[k]? = some old)
    (p : Worker ι → Bool) (worker : Worker ι) :
    (workers.set k worker).countP p + (if p old then 1 else 0) = workers.countP p + if p worker then 1 else 0 := by
  obtain ⟨before, after, hWorkers, hSet⟩ := exists_split h
  rw [hSet, hWorkers]
  simp only [List.countP_append, List.countP_cons]
  omega

theorem count_held [DecidableEq ι] {s : Pool ι α} {k : Nat} {old : Worker ι} (h : s.workers[k]? = some old)
    (forest : ι → List ι) (worker : Worker ι) (item : ι) :
    (((s.workers.set k worker).filterMap Worker.item?).flatMap forest).count item +
        (old.item?.toList.flatMap forest).count item =
      (s.held.flatMap forest).count item + (worker.item?.toList.flatMap forest).count item := by
  obtain ⟨before, after, hWorkers, hSet⟩ := exists_split h
  have hPart (other : Worker ι) : (before ++ other :: after).filterMap Worker.item? =
      before.filterMap Worker.item? ++ (other.item?.toList ++ after.filterMap Worker.item?) := by
    rw [List.filterMap_append]
    cases hItem : other.item? <;> simp [hItem]
  rw [held, hSet, hWorkers, hPart, hPart]
  simp only [List.flatMap_append, List.count_append]
  omega

/-! ## Every item once -/

theorem Moves.accounted_perm {forest : ι → List ι} (hForest : IsForest children forest) {s next : Pool ι α} {k : Nat}
    (h : Moves children record s k next) : (next.accounted forest).Perm (s.accounted forest) := by
  classical
  rw [List.perm_iff_count]
  intro item
  simp only [accounted, List.flatMap_append, List.count_append]
  cases h with
  | findsNothing hWorker hQueue =>
    have hHeld := count_held hWorker forest .idle item
    simp only [Worker.item?, Option.toList_none, List.flatMap_nil, List.count_nil] at hHeld
    simp only [moveTo, held] at hHeld ⊢
    omega
  | @takes first rest hWorker hQueue =>
    have hHeld := count_held hWorker forest (.holding first) item
    simp only [Worker.item?, Option.toList_none, Option.toList_some, List.flatMap_nil, List.count_nil,
      List.flatMap_singleton] at hHeld
    simp only [moveTo, held, hQueue, List.flatMap_cons, List.count_append] at hHeld ⊢
    omega
  | @countsIn first hWorker =>
    have hHeld := count_held hWorker forest (.working first) item
    simp only [Worker.item?] at hHeld
    simp only [moveTo, held] at hHeld ⊢
    omega
  | @processes parent hWorker =>
    have hHeld := count_held hWorker forest .leaving item
    simp only [Worker.item?, Option.toList_none, Option.toList_some, List.flatMap_nil, List.count_nil,
      List.flatMap_singleton, hForest parent, List.count_cons] at hHeld
    simp only [moveTo, held, List.flatMap_append, List.count_append, List.count_cons, List.count_nil] at hHeld ⊢
    omega
  | countsOut hWorker =>
    have hHeld := count_held hWorker forest .ready item
    simp only [Worker.item?, Option.toList_none, List.flatMap_nil, List.count_nil] at hHeld
    simp only [moveTo, held] at hHeld ⊢
    omega
  | readsCount hWorker =>
    have hHeld := count_held hWorker forest (if s.inFlight = 0 then .stopped else .ready) item
    have hNone : (if s.inFlight = 0 then Worker.stopped else .ready : Worker ι).item? = none := by
      split <;> rfl
    rw [hNone] at hHeld
    simp only [Worker.item?, Option.toList_none, List.flatMap_nil, List.count_nil] at hHeld
    simp only [moveTo, held] at hHeld ⊢
    omega

/-- The workers that are counted in are those between counting in and counting out. -/
def Counted (s : Pool ι α) : Prop := s.inFlight = s.workers.countP Worker.countedIn

theorem Moves.counted {s next : Pool ι α} {k : Nat} (h : Moves children record s k next) (hBefore : s.Counted) :
    next.Counted := by
  rw [Counted] at hBefore ⊢
  cases h with
  | findsNothing hWorker hQueue =>
    have hCount := countP_set hWorker Worker.countedIn .idle
    simp only [Worker.countedIn, Bool.false_eq_true, if_false] at hCount
    simp only [moveTo]
    omega
  | @takes item rest hWorker hQueue =>
    have hCount := countP_set hWorker Worker.countedIn (.holding item)
    simp only [Worker.countedIn, Bool.false_eq_true, if_false] at hCount
    simp only [moveTo]
    omega
  | @countsIn item hWorker =>
    have hCount := countP_set hWorker Worker.countedIn (.working item)
    simp only [Worker.countedIn, Bool.false_eq_true, if_false, if_true] at hCount
    simp only [moveTo]
    omega
  | processes hWorker =>
    have hCount := countP_set hWorker Worker.countedIn .leaving
    simp only [Worker.countedIn, if_true] at hCount
    simp only [moveTo]
    omega
  | countsOut hWorker =>
    have hCount := countP_set hWorker Worker.countedIn .ready
    simp only [Worker.countedIn, Bool.false_eq_true, if_false, if_true] at hCount
    simp only [moveTo]
    omega
  | readsCount hWorker =>
    have hCount := countP_set hWorker Worker.countedIn (if s.inFlight = 0 then .stopped else .ready)
    have hOut : (if s.inFlight = 0 then Worker.stopped else .ready : Worker ι).countedIn = false := by
      split <;> rfl
    rw [hOut] at hCount
    simp only [Worker.countedIn, Bool.false_eq_true, if_false] at hCount
    simp only [moveTo]
    omega

/-! ## The end -/

theorem sum_forest (forest : ι → List ι) (items : List ι) :
    (items.map fun item => 4 * (forest item).length).sum = 4 * (items.flatMap forest).length := by
  induction items with
  | nil => rfl
  | cons item items ih =>
    rw [List.map_cons, List.sum_cons, ih, List.flatMap_cons, List.length_append]
    omega

/-- A step without work is a look at the empty queue, or at the count. -/
def Looks (s next : Pool ι α) (k : Nat) : Prop :=
  s.workers[k]? = some .ready ∧ s.queue = [] ∧ next = s.moveTo k .idle ∨
    s.workers[k]? = some .idle ∧ next = s.moveTo k (if s.inFlight = 0 then .stopped else .ready)

theorem Moves.work_falls {forest : ι → List ι} (hForest : IsForest children forest) {s next : Pool ι α} {k : Nat}
    (h : Moves children record s k next) : work forest next < work forest s ∨ Looks s next k := by
  have hLength (item : ι) : 0 < (forest item).length := by
    rw [hForest item]
    exact Nat.succ_pos _
  cases h with
  | findsNothing hWorker hQueue => exact .inr (.inl ⟨hWorker, hQueue, rfl⟩)
  | @takes item rest hWorker hQueue =>
    have hSum := sum_set hWorker (Worker.load forest) (.holding item)
    have hPos := hLength item
    simp only [Worker.load] at hSum
    left
    simp only [work, moveTo, hQueue, List.map_cons, List.sum_cons]
    omega
  | @countsIn item hWorker =>
    have hSum := sum_set hWorker (Worker.load forest) (.working item)
    have hPos := hLength item
    simp only [Worker.load] at hSum
    left
    simp only [work, moveTo]
    omega
  | @processes item hWorker =>
    have hSum := sum_set hWorker (Worker.load forest) .leaving
    have hParts : (forest item).length = ((children item).flatMap forest).length + 1 := by
      rw [hForest item, List.length_cons]
    have hBelow := sum_forest forest (children item)
    simp only [Worker.load] at hSum
    left
    simp only [work, moveTo, List.map_append, List.sum_append]
    omega
  | countsOut hWorker =>
    have hSum := sum_set hWorker (Worker.load forest) .ready
    simp only [Worker.load] at hSum
    left
    simp only [work, moveTo]
    omega
  | readsCount hWorker => exact .inr (.inr ⟨hWorker, rfl⟩)

/-- One turn of a worker, and none of one that has stopped. -/
def turn (children : ι → List ι) (record : α → ι → α) (s : Pool ι α) (k : Nat) : Pool ι α :=
  (advance children record s k).getD s

theorem turn_cases (children : ι → List ι) (record : α → ι → α) (s : Pool ι α) (k : Nat) :
    advance children record s k = some (turn children record s k) ∨
      turn children record s k = s ∧ (s.workers[k]? = some .stopped ∨ s.workers[k]? = none) := by
  rw [turn]
  cases hStep : advance children record s k with
  | some next => exact .inl rfl
  | none =>
    refine .inr ⟨rfl, ?_⟩
    rw [advance.eq_def] at hStep
    split at hStep
    · split at hStep <;> cases hStep
    · cases hStep
    · cases hStep
    · cases hStep
    · cases hStep
    · exact .inl ‹_›
    · exact .inr ‹_›

theorem exists_run (children : ι → List ι) (record : α → ι → α) (schedule : Nat → Nat) (s : Pool ι α) (n : Nat) :
    ∃ taken, run (advance children record) s taken = some (stateAt (turn children record) schedule s n) := by
  induction n with
  | zero => exact ⟨[], rfl⟩
  | succ n ih =>
    obtain ⟨taken, hTaken⟩ := ih
    obtain hStep | ⟨hSame, -⟩ := turn_cases children record (stateAt (turn children record) schedule s n) (schedule n)
    · exact ⟨taken ++ [schedule n], run_append_eq_some hTaken (run_cons_eq_some.mpr ⟨_, hStep, rfl⟩)⟩
    · exact ⟨taken, hTaken.trans (congrArg some hSame.symm)⟩

/-- Its next step is work, or brings it nearer to its stop where there is none. -/
def Helpful (forest : ι → List ι) (s : Pool ι α) (k : Nat) : Prop :=
  ∃ worker, s.workers[k]? = some worker ∧
    if work forest s = 0 then worker = .ready ∨ worker = .idle
    else worker ≠ .stopped ∧ worker ≠ .idle ∧ (worker = .ready → s.queue ≠ [])

def measure (forest : ι → List ι) (s : Pool ι α) : Nat :=
  if work forest s = 0 then restTurns s else work forest s + 2 * s.workers.length

/-- The invariant of a pool with so many workers. -/
def Runs (children : ι → List ι) (record : α → ι → α) (items : List ι) (nothing : α) (workers : Nat)
    (s : Pool ι α) : Prop :=
  Sound children record items nothing s ∧ s.Counted ∧ s.workers.length = workers

theorem restTurns_le (s : Pool ι α) : restTurns s ≤ 2 * s.workers.length := by
  rw [restTurns]
  induction s.workers with
  | nil => exact Nat.le_refl 0
  | cons worker workers ih =>
    have hTurns : worker.turns ≤ 2 := by cases worker <;> simp [Worker.turns]
    rw [List.map_cons, List.sum_cons, List.length_cons]
    omega

theorem length_moves {s next : Pool ι α} {k : Nat} (h : Moves children record s k next) :
    next.workers.length = s.workers.length := by
  cases h <;> exact List.length_set

theorem inFlight_eq_zero {forest : ι → List ι} (hForest : IsForest children forest) {s : Pool ι α}
    (hCounted : s.Counted) (hWork : work forest s = 0) : s.inFlight = 0 := by
  rw [hCounted, List.countP_eq_zero]
  intro worker hWorker hIn
  have hLoad : worker.load forest = 0 :=
    List.sum_eq_zero_iff.mp (Nat.eq_zero_of_add_eq_zero_left hWork) _ (List.mem_map_of_mem hWorker)
  cases worker with
  | working item =>
    rw [Worker.load, hForest item, List.length_cons] at hLoad
    omega
  | leaving => cases hLoad
  | _ => cases hIn

theorem workers_of_work_eq_zero {forest : ι → List ι} (hForest : IsForest children forest) {s : Pool ι α}
    (hWork : work forest s = 0) :
    s.queue = [] ∧ ∀ worker ∈ s.workers, worker = .ready ∨ worker = .idle ∨ worker = .stopped := by
  constructor
  · apply List.eq_nil_iff_forall_not_mem.mpr
    intro item hItem
    have hCost : 4 * (forest item).length = 0 :=
      List.sum_eq_zero_iff.mp (Nat.eq_zero_of_add_eq_zero_right hWork) _ (List.mem_map_of_mem hItem)
    rw [hForest item, List.length_cons] at hCost
    omega
  · intro worker hWorker
    have hLoad : worker.load forest = 0 :=
      List.sum_eq_zero_iff.mp (Nat.eq_zero_of_add_eq_zero_left hWork) _ (List.mem_map_of_mem hWorker)
    cases worker with
    | ready => exact .inl rfl
    | idle => exact .inr (.inl rfl)
    | stopped => exact .inr (.inr rfl)
    | holding item =>
      rw [Worker.load, hForest item, List.length_cons] at hLoad
      omega
    | working item =>
      rw [Worker.load, hForest item, List.length_cons] at hLoad
      omega
    | leaving => cases hLoad

theorem looks_same {s next : Pool ι α} {k : Nat} (h : Looks s next k) (forest : ι → List ι) :
    work forest next = work forest s ∧ next.queue = s.queue ∧ ∃ worker, next = s.moveTo k worker := by
  obtain ⟨hWorker, -, rfl⟩ | ⟨hWorker, rfl⟩ := h
  · have hSum := sum_set hWorker (Worker.load forest) .idle
    simp only [Worker.load, Nat.add_zero] at hSum
    refine ⟨?_, rfl, _, rfl⟩
    simp only [work, moveTo]
    omega
  · have hSum := sum_set hWorker (Worker.load forest) (if s.inFlight = 0 then .stopped else .ready)
    have hOut : (if s.inFlight = 0 then Worker.stopped else .ready : Worker ι).load forest = 0 := by split <;> rfl
    rw [hOut] at hSum
    simp only [Worker.load, Nat.add_zero] at hSum
    refine ⟨?_, rfl, _, rfl⟩
    simp only [work, moveTo]
    omega

theorem measure_falls_of_work {forest : ι → List ι} {s next : Pool ι α}
    (hLength : next.workers.length = s.workers.length) (hWork : work forest next < work forest s) :
    measure forest next < measure forest s := by
  have hTurns := restTurns_le next
  rw [measure, measure, if_neg (Nat.ne_of_gt (Nat.zero_lt_of_lt hWork))]
  split <;> omega

theorem measure_falls_of_looks {forest : ι → List ι} (hForest : IsForest children forest) {s next : Pool ι α} {k : Nat}
    (hCounted : s.Counted) (h : Looks s next k) (hWork : work forest s = 0) :
    measure forest next < measure forest s := by
  have hNext : work forest next = 0 := (looks_same h forest).1.trans hWork
  rw [measure, measure, if_pos hNext, if_pos hWork, restTurns, restTurns]
  obtain ⟨hWorker, -, rfl⟩ | ⟨hWorker, rfl⟩ := h
  · have hSum := sum_set hWorker Worker.turns .idle
    simp only [Worker.turns] at hSum
    simp only [moveTo]
    omega
  · rw [if_pos (inFlight_eq_zero hForest hCounted hWork)]
    have hSum := sum_set hWorker Worker.turns .stopped
    simp only [Worker.turns] at hSum
    simp only [moveTo]
    omega

theorem queue_ne_nil {forest : ι → List ι} {s : Pool ι α} (hWork : work forest s ≠ 0)
    (hWorkers : ∀ worker ∈ s.workers, worker ≠ .stopped → worker ≠ .idle → worker = .ready) : s.queue ≠ [] := by
  intro hEmpty
  apply hWork
  rw [work, hEmpty, List.map_nil, List.sum_nil, Nat.zero_add]
  apply List.sum_eq_zero_iff.mpr
  intro load hLoad
  obtain ⟨worker, hWorker, rfl⟩ := List.mem_map.mp hLoad
  have hRest := hWorkers worker hWorker
  cases worker <;> simp_all [Worker.load]

/-- A pool that runs has a worker that helps: any that is still there, when no work is left; one that has an item, or
one that finds the queue. -/
theorem exists_helpful {forest : ι → List ι} (hForest : IsForest children forest) {items : List ι} {nothing : α}
    {workers : Nat} {s : Pool ι α} (h : Runs children record items nothing workers s) (hRunning : ¬ s.Stopped) :
    ∃ k, k < workers ∧ Helpful forest s k := by
  obtain ⟨hSound, hCounted, hLength⟩ := h
  have hFrom {worker : Worker ι} (hWorker : worker ∈ s.workers)
      (hGoes : if work forest s = 0 then worker = .ready ∨ worker = .idle
        else worker ≠ .stopped ∧ worker ≠ .idle ∧ (worker = .ready → s.queue ≠ [])) :
      ∃ k, k < workers ∧ Helpful forest s k := by
    obtain ⟨k, hk⟩ := List.getElem?_of_mem hWorker
    obtain ⟨hBound, -⟩ := List.getElem?_eq_some_iff.mp hk
    exact ⟨k, hLength ▸ hBound, worker, hk, hGoes⟩
  by_cases hWork : work forest s = 0
  · rw [Stopped] at hRunning
    push Not at hRunning
    obtain ⟨worker, hWorker, hGoes⟩ := hRunning
    apply hFrom hWorker
    rw [if_pos hWork]
    obtain hReady | hIdle | hStopped := (workers_of_work_eq_zero hForest hWork).2 worker hWorker
    · exact .inl hReady
    · exact .inr hIdle
    · exact absurd hStopped hGoes
  · by_cases hBusy : ∃ worker ∈ s.workers, worker ≠ .stopped ∧ worker ≠ .idle ∧ worker ≠ .ready
    · obtain ⟨worker, hWorker, hStopped, hIdle, hReady⟩ := hBusy
      apply hFrom hWorker
      rw [if_neg hWork]
      exact ⟨hStopped, hIdle, fun hSame => absurd hSame hReady⟩
    · push Not at hBusy
      have hQueue := queue_ne_nil hWork hBusy
      obtain ⟨worker, hWorker, hActive⟩ := hSound.attended hQueue
      apply hFrom hWorker
      rw [if_neg hWork]
      refine ⟨?_, ?_, fun _ => hQueue⟩
      · rintro rfl
        exact hActive
      · rintro rfl
        exact hActive

theorem helps {forest : ι → List ι} (hForest : IsForest children forest) (items : List ι) (nothing : α)
    (workers : Nat) :
    Helps (turn children record) (· < workers) (Runs children record items nothing workers) Stopped (measure forest)
      (Helpful forest) where
  keeps s k h := by
    obtain hStep | ⟨hSame, -⟩ := turn_cases children record s k
    · have hMoves := advance_moves hStep
      exact ⟨h.1.step hStep, hMoves.counted h.2.1, (length_moves hMoves).trans h.2.2⟩
    · rw [hSame]
      exact h
  found s h hRunning := exists_helpful hForest h hRunning
  falls s k h hHelpful := by
    obtain ⟨worker, hWorker, hGoes⟩ := hHelpful
    obtain hStep | ⟨-, hStopped | hNone⟩ := turn_cases children record s k
    · have hMoves := advance_moves hStep
      obtain hWork | hLooks := hMoves.work_falls hForest
      · exact measure_falls_of_work (length_moves hMoves) hWork
      · apply measure_falls_of_looks hForest h.2.1 hLooks
        by_contra hWork
        rw [if_neg hWork] at hGoes
        obtain ⟨hReady, hEmpty, -⟩ | ⟨hIdle, -⟩ := hLooks
        · rw [hWorker] at hReady
          exact hGoes.2.2 (Option.some.inj hReady) hEmpty
        · rw [hWorker] at hIdle
          exact hGoes.2.1 (Option.some.inj hIdle)
    · rw [hWorker] at hStopped
      obtain rfl := Option.some.inj hStopped
      split at hGoes
      · cases hGoes <;> contradiction
      · exact absurd rfl hGoes.1
    · rw [hWorker] at hNone
      cases hNone
  waits s k other h hHelpful hOther := by
    obtain hStep | ⟨hSame, -⟩ := turn_cases children record s other
    · have hMoves := advance_moves hStep
      obtain hWork | hLooks := hMoves.work_falls hForest
      · exact .inl (measure_falls_of_work (length_moves hMoves) hWork)
      · by_cases hWork : work forest s = 0
        · exact .inl (measure_falls_of_looks hForest h.2.1 hLooks hWork)
        · obtain ⟨hSameWork, hQueue, worker, hNext⟩ := looks_same hLooks forest
          refine .inr ⟨?_, ?_⟩
          · rw [measure, measure, hSameWork, length_moves hMoves, if_neg hWork, if_neg hWork]
          · obtain ⟨old, hOld, hGoes⟩ := hHelpful
            refine ⟨old, ?_, ?_⟩
            · rw [hNext, moveTo, List.getElem?_set_ne hOther]
              exact hOld
            · rw [hSameWork, hQueue]
              exact hGoes
    · rw [hSame]
      exact .inr ⟨rfl, hHelpful⟩

theorem start_runs (items : List ι) (nothing : α) {workers : Nat} (hWorkers : 0 < workers) :
    Runs children record items nothing workers (start workers items nothing) := by
  refine ⟨start_sound items nothing hWorkers, ?_, List.length_replicate⟩
  rw [Counted, start, List.countP_replicate]
  rfl

theorem stops_of_fair {forest : ι → List ι} (hForest : IsForest children forest) (items : List ι) (nothing : α)
    {workers : Nat} (hWorkers : 0 < workers) {schedule : Nat → Nat} (hFair : Fair (· < workers) schedule) :
    ∃ n, (stateAt (turn children record) schedule (start workers items nothing) n).Stopped :=
  (helps hForest items nothing workers).ends (start_runs items nothing hWorkers) hFair

/-- In any run what is processed is part of the forest, item by item, and all of it once the workers have
stopped. -/
theorem run_accounted {forest : ι → List ι} (hForest : IsForest children forest) {items : List ι} {nothing : α}
    {workers : Nat} (hWorkers : 0 < workers) {schedule : List Nat} {s : Pool ι α}
    (hRun : run (advance children record) (start workers items nothing) schedule = some s) :
    (s.accounted forest).Perm (items.flatMap forest) ∧
      (s.Stopped → s.queue = [] ∧ s.held = [] ∧ s.done.Perm (items.flatMap forest)) := by
  have hStart : (accounted forest (start workers items nothing)).Perm (items.flatMap forest) := by
    have hNone : held (start workers items nothing) = [] := by
      rw [held, start, List.filterMap_eq_nil_iff]
      intro worker hWorker
      rw [List.eq_of_mem_replicate hWorker]
      rfl
    rw [accounted, hNone, List.append_nil]
    exact List.Perm.refl _
  have hAll : (s.accounted forest).Perm (items.flatMap forest) :=
    run_preserves (fun t => (t.accounted forest).Perm (items.flatMap forest))
      (fun _ _ _ h hStep => ((advance_moves hStep).accounted_perm hForest).trans h) hRun hStart
  refine ⟨hAll, fun hStopped => ?_⟩
  have hSound : Sound children record items nothing s :=
    run_preserves (Sound children record items nothing) (fun _ _ _ h hStep => h.step hStep) hRun
      (start_sound items nothing hWorkers)
  have hQueue : s.queue = [] := by
    by_contra hWaits
    obtain ⟨worker, hWorker, hActive⟩ := hSound.attended hWaits
    rw [hStopped worker hWorker] at hActive
    exact hActive
  have hHeld : s.held = [] := by
    rw [held, List.filterMap_eq_nil_iff]
    intro worker hWorker
    rw [hStopped worker hWorker]
    rfl
  rw [accounted, hQueue, hHeld, List.append_nil, List.flatMap_nil, List.append_nil] at hAll
  exact ⟨hQueue, hHeld, hAll⟩

end Pool

end Pigeon.Library
