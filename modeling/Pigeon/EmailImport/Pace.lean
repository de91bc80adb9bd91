import Pigeon.Library.Windows

/-! # The pace of the import

Times and durations are whole nanoseconds. Every batch reserves the window of its messages when it is called for, and
the next slot moves behind that window.
-/
namespace Pigeon.EmailImport

open Library

set_option autoImplicit false

def minute : Nat := 60 * 10 ^ 9

/-- The cast `as u32`. -/
def asU32 (n : Nat) : Nat := n % 2 ^ 32

/-- Nothing where the division by zero panics. -/
def intervalFor (messagesPerMinute : Nat) : Option Nat :=
  let rate := asU32 (max messagesPerMinute 1)
  if rate = 0 then none else some (minute / rate)

def reserve (nextAllowed now count interval : Nat) : Nat × Nat :=
  let start := if now < nextAllowed then nextAllowed else now
  (start, start + interval * count)

structure Pacer where
  nextAllowed : Nat
  interval : Nat
deriving DecidableEq, Repr

def Pacer.new (now messagesPerMinute : Nat) : Option Pacer :=
  (intervalFor messagesPerMinute).map fun interval => ⟨now, interval⟩

/-- The time until which the caller sleeps, with what it leaves behind. -/
def Pacer.acquire (pacer : Pacer) (now count : Nat) : Nat × Pacer :=
  let (waitUntil, updated) := reserve pacer.nextAllowed now (asU32 (max count 1)) pacer.interval
  (waitUntil, { pacer with nextAllowed := updated })

structure Grant where
  now : Nat
  count : Nat
  start : Nat
deriving DecidableEq, Repr

/-- The calls in the order in which they take the lock, each with its time and its count. -/
def Pacer.acquireAll : Pacer → List (Nat × Nat) → List Grant
  | _, [] => []
  | pacer, (now, count) :: calls => ⟨now, count, (pacer.acquire now count).1⟩ :: (pacer.acquire now count).2.acquireAll calls

/-- The numbers of the wizard, from the flag or from the prompt. -/
def numericInput (value : Nat) : Nat := max value 1

/-! ## The interval -/

theorem asU32_of_lt {n : Nat} (h : n < 2 ^ 32) : asU32 n = n := Nat.mod_eq_of_lt h

theorem intervalFor_of_lt {rate : Nat} (hPos : 0 < rate) (hRate : rate < 2 ^ 32) : intervalFor rate = some (minute / rate) := by
  simp only [intervalFor, Nat.max_eq_left hPos, asU32_of_lt hRate, if_neg (Nat.ne_of_gt hPos)]

theorem interval_pos {rate : Nat} (hPos : 0 < rate) (hRate : rate < 2 ^ 32) : 0 < minute / rate := by
  refine Nat.div_pos ?_ hPos
  rw [minute]
  omega

/-! ## The windows -/

namespace Grant

/-- A call for nothing is charged as one message. -/
def charged (grant : Grant) : Nat := max grant.count 1

def window (interval : Nat) (grant : Grant) : Window Nat := ⟨grant.now, grant.start, interval * grant.charged⟩

end Grant

theorem reserve_start (nextAllowed now count interval : Nat) :
    reserve nextAllowed now count interval = (max nextAllowed now, max nextAllowed now + interval * count) := by
  have hStart : (if now < nextAllowed then nextAllowed else now) = max nextAllowed now := by
    split
    · rename_i hLater
      exact (Nat.max_eq_left hLater.le).symm
    · rename_i hNow
      exact (Nat.max_eq_right (Nat.le_of_not_lt hNow)).symm
  rw [reserve, hStart]

theorem acquire_eq (pacer : Pacer) (now count : Nat) : pacer.acquire now count =
    (max pacer.nextAllowed now,
      ⟨max pacer.nextAllowed now + pacer.interval * asU32 (max count 1), pacer.interval⟩) := by
  rw [Pacer.acquire, reserve_start]

/-- The pacer hands out the windows of the requests. -/
theorem acquireAll_windows (pacer : Pacer) {calls : List (Nat × Nat)} (hCounts : ∀ call ∈ calls, call.2 < 2 ^ 32) :
    (pacer.acquireAll calls).map (Grant.window pacer.interval) =
      Window.placeAll pacer.nextAllowed (calls.map fun call => (call.1, pacer.interval * max call.2 1)) := by
  induction calls generalizing pacer with
  | nil => rfl
  | cons call calls ih =>
    obtain ⟨now, count⟩ := call
    obtain ⟨hCount, hRest⟩ := List.forall_mem_cons.mp hCounts
    have hCast : asU32 (max count 1) = max count 1 := asU32_of_lt (max_lt hCount (by decide))
    have hLater := ih (pacer.acquire now count).2 hRest
    rw [acquire_eq, hCast] at hLater
    rw [Pacer.acquireAll, List.map_cons, List.map_cons, Window.placeAll, acquire_eq, hCast, hLater]
    rfl

theorem acquireAll_calls (pacer : Pacer) (calls : List (Nat × Nat)) :
    (pacer.acquireAll calls).map (fun grant => (grant.now, grant.count)) = calls := by
  induction calls generalizing pacer with
  | nil => rfl
  | cons call calls ih => rw [Pacer.acquireAll, List.map_cons, ih]

/-- What the windows of a sequence of calls have to satisfy; `opened` is when the pacer was made. -/
structure Paced (interval opened : Nat) (calls : List (Nat × Nat)) (grants : List Grant) : Prop where
  inCallOrder : grants.map (fun grant => (grant.now, grant.count)) = calls
  disjoint : grants.Pairwise fun grant later => grant.start + interval * grant.charged ≤ later.start
  notEarly : ∀ grant ∈ grants, grant.now ≤ grant.start
  firstStart : ∀ grant later, grants = grant :: later → grant.start = max opened grant.now
  noCredit : ∀ earlier grant next later, grants = earlier ++ grant :: next :: later →
    next.start = max (grant.start + interval * grant.charged) next.now
  rateBound : ∀ s length, ((grants.filter fun grant => s ≤ grant.start ∧ grant.start ≤ s + length).dropLast.map
    (·.charged)).sum ≤ length / interval

theorem paced_of_windows {interval opened : Nat} {calls : List (Nat × Nat)} {grants : List Grant} (hInterval : 0 < interval)
    (hCalls : grants.map (fun grant => (grant.now, grant.count)) = calls)
    (hWindows : grants.map (Grant.window interval) =
      Window.placeAll opened (calls.map fun call => (call.1, interval * max call.2 1))) :
    Paced interval opened calls grants := by
  have hDisjoint : grants.Pairwise fun grant later => grant.start + interval * grant.charged ≤ later.start := by
    have hOrder := Window.placeAll_inOrder opened (calls.map fun call => (call.1, interval * max call.2 1))
    rw [← hWindows] at hOrder
    exact List.pairwise_map.mp hOrder
  refine ⟨hCalls, hDisjoint, ?_, ?_, ?_, ?_⟩
  · intro grant hGrant
    have hWindow := List.mem_map_of_mem (f := Grant.window interval) hGrant
    rw [hWindows] at hWindow
    exact Window.asked_le_start hWindow
  · rintro grant later rfl
    exact Window.start_of_placeAll_cons hWindows.symm
  · rintro earlier grant next later rfl
    rw [List.map_append] at hWindows
    exact Window.start_of_placeAll hWindows.symm
  · intro s length
    have hInside := hDisjoint.filter (p := fun grant => s ≤ grant.start ∧ grant.start ≤ s + length)
    have hBounds : ∀ grant ∈ grants.filter fun grant => s ≤ grant.start ∧ grant.start ≤ s + length,
        s ≤ grant.start ∧ grant.start ≤ s + length := fun grant hGrant => by simpa using (List.mem_filter.mp hGrant).2
    cases hFilter : grants.filter fun grant => s ≤ grant.start ∧ grant.start ≤ s + length with
    | nil => exact Nat.zero_le _
    | cons first rest =>
      rw [hFilter] at hInside hBounds
      have hOrder : Window.InOrder ((first :: rest).map (Grant.window interval)) := List.pairwise_map.mpr hInside
      have hSum : first.start + (((first :: rest).dropLast.map (Grant.window interval)).map (·.length)).sum ≤
          ((first :: rest).getLast (List.cons_ne_nil first rest)).start := by
        have hEnd := List.getLast_map (f := Grant.window interval) (l := first :: rest) (List.cons_ne_nil _ _)
        rw [List.map_dropLast]
        exact hOrder.start_add_sum_le.trans (congrArg Window.start hEnd).le
      have hFirst := (hBounds first List.mem_cons_self).1
      have hLast := (hBounds _ (List.getLast_mem (List.cons_ne_nil first rest))).2
      rw [Nat.le_div_iff_mul_le hInterval, Nat.mul_comm, ← List.sum_map_mul_left]
      rw [List.map_map] at hSum
      exact Nat.le_of_add_le_add_left (hSum.trans (hLast.trans (Nat.add_le_add_right hFirst length)))

/-- A pacer of any rate that fits 32 bits paces every sequence of calls. -/
theorem pacer_paces {rate : Nat} (hPos : 0 < rate) (hRate : rate < 2 ^ 32) (opened : Nat) {calls : List (Nat × Nat)}
    (hCounts : ∀ call ∈ calls, call.2 < 2 ^ 32) :
    ∃ pacer, Pacer.new opened rate = some pacer ∧ pacer.interval = minute / rate ∧
      Paced (minute / rate) opened calls (pacer.acquireAll calls) := by
  refine ⟨⟨opened, minute / rate⟩, ?_, rfl, ?_⟩
  · rw [Pacer.new, intervalFor_of_lt hPos hRate]
    rfl
  · exact paced_of_windows (interval_pos hPos hRate) (acquireAll_calls _ calls) (acquireAll_windows ⟨opened, minute / rate⟩ hCounts)

theorem two_a_second_paces : ∃ pacer, Pacer.new 5 120 = some pacer ∧ pacer.interval = minute / 120 ∧
    Paced (minute / 120) 5 [(7, 20), (7, 0), (9, 3)] (pacer.acquireAll [(7, 20), (7, 0), (9, 3)]) :=
  pacer_paces (by decide) (by decide) 5 (by decide)

/-! ## The casts -/

/-- The pace that the wizard's two numbers stand for. -/
structure ExactPace (rate batchSize : Nat) : Prop where
  interval : intervalFor rate = some (minute / rate)
  advance : ∀ opened pacer, Pacer.new opened rate = some pacer → ∀ nextAllowed now count, count ≤ batchSize →
    (Pacer.acquire ⟨nextAllowed, pacer.interval⟩ now count).2.nextAllowed =
      max nextAllowed now + pacer.interval * max count 1

theorem numericInput_pos (value : Nat) : 0 < numericInput value := Nat.le_max_right value 1

/-- A rate beyond 32 bits panics or gives a longer interval. -/
theorem lt_of_intervalFor {rate : Nat} (hPos : 0 < rate) (h : intervalFor rate = some (minute / rate)) : rate < 2 ^ 32 := by
  apply Nat.lt_of_not_le
  intro hLarge
  have hLow : asU32 rate < 2 ^ 32 := Nat.mod_lt rate (by decide)
  have hTwice : 2 * asU32 rate ≤ rate := by
    have hSplit := Nat.div_add_mod rate (2 ^ 32)
    have hQuotient : 1 ≤ rate / 2 ^ 32 := Nat.div_pos hLarge (by decide)
    rw [asU32] at hLow ⊢
    omega
  simp only [intervalFor, Nat.max_eq_left hPos] at h
  split at h
  · cases h
  · rename_i hNonzero
    have hSame : minute / asU32 rate = minute / rate := Option.some.inj h
    have hQuotient : 1 ≤ minute / asU32 rate := by
      refine Nat.div_pos ?_ (Nat.pos_of_ne_zero hNonzero)
      rw [minute]
      omega
    have hBelow : minute < (minute / asU32 rate + 1) * asU32 rate :=
      (Nat.div_lt_iff_lt_mul (Nat.pos_of_ne_zero hNonzero)).mp (Nat.lt_succ_self _)
    have hAbove : minute / asU32 rate * rate ≤ minute := by
      rw [hSame]
      exact Nat.div_mul_le_self minute rate
    have hDouble : minute / asU32 rate * (2 * asU32 rate) ≤ minute :=
      (Nat.mul_le_mul_left _ hTwice).trans hAbove
    have hOnce : asU32 rate ≤ minute / asU32 rate * asU32 rate := Nat.le_mul_of_pos_left _ hQuotient
    rw [Nat.mul_left_comm] at hDouble
    rw [Nat.succ_mul] at hBelow
    omega

/-- The wizard's numbers give the pace they stand for exactly if both fit 32 bits. -/
theorem exactPace_iff (rate batchSize : Nat) : ExactPace (numericInput rate) (numericInput batchSize) ↔
    numericInput rate < 2 ^ 32 ∧ numericInput batchSize < 2 ^ 32 := by
  have hRatePos := numericInput_pos rate
  constructor
  · intro hExact
    have hRate := lt_of_intervalFor hRatePos hExact.interval
    have hNew : Pacer.new 0 (numericInput rate) = some ⟨0, minute / numericInput rate⟩ := by
      rw [Pacer.new, hExact.interval]
      rfl
    have hAdvance := hExact.advance 0 _ hNew 0 0 (numericInput batchSize) le_rfl
    rw [acquire_eq, Nat.max_eq_left (numericInput_pos batchSize)] at hAdvance
    have hCast : asU32 (numericInput batchSize) = numericInput batchSize :=
      Nat.eq_of_mul_eq_mul_left (interval_pos hRatePos hRate) (Nat.add_left_cancel hAdvance)
    refine ⟨hRate, ?_⟩
    rw [← hCast]
    exact Nat.mod_lt _ (by decide)
  · rintro ⟨hRate, hBatch⟩
    refine ⟨intervalFor_of_lt hRatePos hRate, ?_⟩
    intro opened pacer hPacer nextAllowed now count hCount
    have hCast : asU32 (max count 1) = max count 1 :=
      asU32_of_lt (max_lt (hCount.trans_lt hBatch) (by decide))
    rw [acquire_eq, hCast]

/-- The wizard takes 4294967296 messages a minute, and the interval is a division by zero. -/
theorem rate_beyond_32_bits_panics : ¬ ExactPace (numericInput 4294967296) (numericInput 20) := by
  intro hExact
  have hInterval := hExact.interval
  revert hInterval
  decide

end Pigeon.EmailImport
