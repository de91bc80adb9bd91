import Mathlib

/-! # Bisecting what fails

A stack of batches is attempted from the top. A batch that fails is split in two halves, the first of them on top, until it
fails with one item alone. The attempts may answer differently each time.
-/
namespace Pigeon.Library

set_option autoImplicit false

variable {ι ρ : Type}

theorem flatten_toChunks (n : Nat) (items : List ι) : (items.toChunks n).flatten = items := by
  have hGo (rest : List ι) (last : Array ι) (full : Array (List ι)) :
      (List.toChunks.go n rest last full).flatten = full.toList.flatten ++ last.toList ++ rest := by
    induction rest generalizing last full with
    | nil => simp [List.toChunks.go]
    | cons item rest ih =>
      rw [List.toChunks.go]
      split
      · rw [ih]
        simp
      · rw [ih]
        simp
  cases items with
  | nil => cases n <;> rfl
  | cons item items =>
    cases n with
    | zero => exact List.flatten_singleton
    | succ n => exact hGo items #[item] #[]

/-- The batches that have been attempted, oldest first, those that are left, and those that are settled: with their answer, or
with none. -/
structure Bisection (ι ρ : Type) where
  asked : List (List ι)
  work : List (List ι)
  settled : List (List ι × Option ρ)

namespace Bisection

def start (work : List (List ι)) : Bisection ι ρ := ⟨[], work, []⟩

def halves (batch : List ι) : List (List ι) := [batch.take (batch.length / 2), batch.drop (batch.length / 2)]

/-- One attempt. `answer` is what comes back for a batch after the earlier ones. -/
def step (answer : List (List ι) → List ι → Option ρ) (s : Bisection ι ρ) : Option (Bisection ι ρ) :=
  match s.work with
  | [] => none
  | batch :: rest =>
    match answer s.asked batch with
    | some result => some ⟨s.asked ++ [batch], rest, s.settled ++ [(batch, some result)]⟩
    | none =>
      if batch.length ≤ 1 then some ⟨s.asked ++ [batch], rest, s.settled ++ [(batch, none)]⟩
      else some ⟨s.asked ++ [batch], halves batch ++ rest, s.settled⟩

def run (answer : List (List ι) → List ι → Option ρ) : Nat → Bisection ι ρ → Bisection ι ρ
  | 0, s => s
  | fuel + 1, s =>
    match step answer s with
    | none => s
    | some next => run answer fuel next

/-- No batch needs more attempts than this. -/
def weight (work : List (List ι)) : Nat := (work.map fun batch => max 1 (2 * batch.length - 1)).sum

/-! ## Steps -/

variable {answer : List (List ι) → List ι → Option ρ} {s next : Bisection ι ρ}

theorem flatten_halves (batch : List ι) : (halves batch).flatten = batch := by
  rw [halves, List.flatten_cons, List.flatten_singleton, List.take_append_drop]

theorem weight_halves {batch : List ι} (h : 1 < batch.length) : weight (halves batch) < 2 * batch.length - 1 := by
  simp only [weight, halves, List.map_cons, List.map_nil, List.sum_cons, List.sum_nil, List.length_take, List.length_drop]
  omega

theorem weight_append (work more : List (List ι)) : weight (work ++ more) = weight work + weight more := by
  rw [weight, List.map_append, List.sum_append]
  rfl

theorem weight_cons (batch : List ι) (rest : List (List ι)) :
    weight (batch :: rest) = max 1 (2 * batch.length - 1) + weight rest := by
  rw [weight, List.map_cons, List.sum_cons]
  rfl

/-- A step settles the batch on top, or splits it. -/
theorem step_cases (h : step answer s = some next) :
    ∃ batch rest, s.work = batch :: rest ∧ next.asked = s.asked ++ [batch] ∧
      ((next.work = rest ∧ next.settled = s.settled ++ [(batch, answer s.asked batch)] ∧
          (answer s.asked batch = none → batch.length ≤ 1)) ∨
        (next.work = halves batch ++ rest ∧ next.settled = s.settled ∧ 1 < batch.length)) := by
  rw [step] at h
  split at h
  · cases h
  · rename_i batch rest hWork
    refine ⟨batch, rest, hWork, ?_⟩
    split at h
    · rename_i result hAnswer
      cases h
      exact ⟨rfl, .inl ⟨rfl, by rw [hAnswer], fun hNone => by rw [hNone] at hAnswer; cases hAnswer⟩⟩
    · rename_i hAnswer
      split at h
      · rename_i hShort
        cases h
        exact ⟨rfl, .inl ⟨rfl, by rw [hAnswer], fun _ => hShort⟩⟩
      · rename_i hLong
        cases h
        exact ⟨rfl, .inr ⟨rfl, rfl, by omega⟩⟩

theorem weight_lt (h : step answer s = some next) : weight next.work < weight s.work := by
  obtain ⟨batch, rest, hWork, -, ⟨hNext, -, -⟩ | ⟨hNext, -, hLong⟩⟩ := step_cases h
  · rw [hWork, hNext, weight_cons]
    omega
  · have hHalves := weight_halves hLong
    rw [hWork, hNext, weight_cons, weight_append]
    omega

theorem step_eq_none : step answer s = none ↔ s.work = [] := by
  constructor
  · intro h
    rw [step] at h
    split at h
    · assumption
    · split at h
      · cases h
      · split at h
        · cases h
        · cases h
  · intro hWork
    rw [step, hWork]

/-- However the attempts end, nothing is left once there have been enough of them. -/
theorem run_work {fuel : Nat} (h : weight s.work ≤ fuel) : (run answer fuel s).work = [] := by
  induction fuel generalizing s with
  | zero =>
    cases hWork : s.work with
    | nil => exact hWork
    | cons batch rest =>
      rw [hWork, weight_cons] at h
      omega
  | succ fuel ih =>
    rw [run]
    cases hStep : step answer s with
    | none => exact step_eq_none.mp hStep
    | some next =>
      have hLess := weight_lt hStep
      exact ih (by omega)

/-! ## What is settled -/

/-- The items are settled in their order, each by an answer, and without one only where they stand alone. -/
structure Settles (answer : List (List ι) → List ι → Option ρ) (items : List ι) (s : Bisection ι ρ) : Prop where
  whole : s.settled.flatMap Prod.fst ++ s.work.flatten = items
  answered : ∀ entry ∈ s.settled, ∃ asked, answer asked entry.1 = entry.2
  lone : ∀ entry ∈ s.settled, entry.2 = none → entry.1.length ≤ 1

theorem settles_start (work : List (List ι)) : Settles answer work.flatten (start work) where
  whole := List.nil_append _
  answered := fun _ hNone => absurd hNone List.not_mem_nil
  lone := fun _ hNone => absurd hNone List.not_mem_nil

theorem Settles.step {items : List ι} (h : Settles answer items s) (hStep : step answer s = some next) :
    Settles answer items next := by
  obtain ⟨batch, rest, hWork, -, ⟨hNext, hSettled, hLone⟩ | ⟨hNext, hSettled, -⟩⟩ := step_cases hStep
  · refine ⟨?_, ?_, ?_⟩
    · rw [hNext, hSettled, List.flatMap_append, List.flatMap_singleton, List.append_assoc, ← h.whole, hWork, List.flatten_cons]
    · rw [hSettled]
      intro entry hEntry
      rcases List.mem_append.mp hEntry with hOld | hNew
      · exact h.answered entry hOld
      · rw [List.mem_singleton.mp hNew]
        exact ⟨s.asked, rfl⟩
    · rw [hSettled]
      intro entry hEntry hNone
      rcases List.mem_append.mp hEntry with hOld | hNew
      · exact h.lone entry hOld hNone
      · rw [List.mem_singleton.mp hNew] at hNone ⊢
        exact hLone hNone
  · refine ⟨?_, by rw [hSettled]; exact h.answered, by rw [hSettled]; exact h.lone⟩
    rw [hNext, hSettled, List.flatten_append, flatten_halves, ← h.whole, hWork, List.flatten_cons]

theorem Settles.run {items : List ι} (h : Settles answer items s) (fuel : Nat) : Settles answer items (run answer fuel s) := by
  induction fuel generalizing s with
  | zero => exact h
  | succ fuel ih =>
    rw [Bisection.run]
    cases hStep : Bisection.step answer s with
    | none => exact h
    | some next => exact ih (h.step hStep)

/-- Where a batch fails for the items it has that fail alone, the batches without an answer are just these items. -/
theorem Settles.lone_of_poison {items : List ι} (h : Settles answer items s) {poison : ι → Prop}
    (hPoison : ∀ asked batch, answer asked batch = none ↔ ∃ item ∈ batch, poison item) {entry : List ι × Option ρ}
    (hEntry : entry ∈ s.settled) :
    (entry.2 = none → ∃ item, entry.1 = [item] ∧ poison item) ∧ (entry.2 ≠ none → ∀ item ∈ entry.1, ¬ poison item) := by
  obtain ⟨asked, hAnswer⟩ := h.answered entry hEntry
  have hFails := hPoison asked entry.1
  rw [hAnswer] at hFails
  constructor
  · intro hNone
    obtain ⟨item, hItem, hPoisoned⟩ := hFails.mp hNone
    have hShort := h.lone entry hEntry hNone
    have hLength : entry.1.length = 1 := Nat.le_antisymm hShort (List.length_pos_of_mem hItem)
    obtain ⟨only, hOnly⟩ := List.length_eq_one_iff.mp hLength
    rw [hOnly, List.mem_singleton] at hItem
    exact ⟨only, hOnly, hItem ▸ hPoisoned⟩
  · exact fun hSome item hItem hPoisoned => hSome (hFails.mpr ⟨item, hItem, hPoisoned⟩)

end Bisection

end Pigeon.Library
