import Pigeon.Library.Runs
import Pigeon.EmailImport.Gather

/-! # One import and any number of scans over one ledger object

Every process that finds no ledger seeds one and uploads it whole, a scan as well as the import. The
run of the job goes on to append to its working copy and uploads snapshots of it. Processes can share a local
directory, so one can replace the file that another one works on.
-/
namespace Pigeon.EmailImport

open Library
open Text (AppendOutcome)

set_option autoImplicit false

/-- Where a process stands in `load_or_seed`, and the import behind it. -/
inductive ScanPhase where
  | idle
  | found
  | missing
  | seeded (ledger : Ledger)
  | written (ledger : Ledger)
  | loaded (ledger : Ledger)
  | working
  | ended

structure SharedLedger (ι δ : Type*) where
  remote : Option Text
  file : δ → Text
  phase : ι → ScanPhase
  /-- The snapshots on their way, numbered as they were taken. -/
  inFlight : List (Nat × Text)
  taken : Nat
  /-- The number of the snapshot that landed last. -/
  landed : Nat

inductive ScanEvent (ι : Type*) where
  | check (process : ι)
  | load (process : ι)
  | seed (process : ι) (listing : List Text) (states : List MailboxState) (now : UtcTime)
  | write (process : ι)
  | upload (process : ι) (ok : Bool)
  /-- `gather_pending` writes the working copy and sets up the `LedgerSync`. -/
  | begin
  | append (entry : LedgerEntry) (outcome : AppendOutcome)
  | snapshot
  | uploaded (index : Nat) (ok : Bool)

namespace SharedLedger

variable {ι δ : Type*}

def start (remote : Option Text) (file : δ → Text) : SharedLedger ι δ where
  remote := remote
  file := file
  phase _ := .idle
  inFlight := []
  taken := 0
  landed := 0

def goto [DecidableEq ι] (s : SharedLedger ι δ) (p : ι) (phase : ScanPhase) : SharedLedger ι δ :=
  { s with phase := Function.update s.phase p phase }

def store [DecidableEq δ] (s : SharedLedger ι δ) (d : δ) (contents : Text) : SharedLedger ι δ :=
  { s with file := Function.update s.file d contents }

@[simp] theorem phase_goto_self [DecidableEq ι] (s : SharedLedger ι δ) (p : ι) (phase : ScanPhase) :
    (s.goto p phase).phase p = phase := by
  simp [goto]

theorem phase_goto_of_ne [DecidableEq ι] (s : SharedLedger ι δ) {p other : ι} (phase : ScanPhase) (hNe : other ≠ p) :
    (s.goto p phase).phase other = s.phase other := by
  simp [goto, hNe]

@[simp] theorem file_store_self [DecidableEq δ] (s : SharedLedger ι δ) (d : δ) (contents : Text) :
    (s.store d contents).file d = contents := by
  simp [SharedLedger.store]

theorem file_store_of_ne [DecidableEq δ] (s : SharedLedger ι δ) {d other : δ} (contents : Text) (hNe : other ≠ d) :
    (s.store d contents).file other = s.file other := by
  simp [SharedLedger.store, hNe]

/-- A scan only reads on; the import keeps the ledger for its working copy. -/
def afterLoad [DecidableEq ι] (importer p : ι) (ledger : Ledger) : ScanPhase :=
  if p = importer then .loaded ledger else .ended

def step [DecidableEq ι] [DecidableEq δ] (dir : ι → δ) (importer : ι) (s : SharedLedger ι δ) :
    ScanEvent ι → Option (SharedLedger ι δ)
  | .check p =>
    match s.phase p with
    | .idle => some (s.goto p (if s.remote.isSome then .found else .missing))
    | _ => none
  | .load p =>
    match s.phase p, s.remote with
    | .found, some contents =>
      some ((s.store (dir p) contents).goto p (afterLoad importer p (Ledger.parse contents)))
    | _, _ => none
  | .seed p listing states now =>
    match s.phase p with
    | .missing =>
      some (s.goto p (.seeded (seedFromListing listing (states.map MailboxState.seedMailbox) (utcTimestamp now)).1))
    | _ => none
  | .write p =>
    match s.phase p with
    | .seeded ledger => some ((s.store (dir p) ledger.serialize).goto p (.written ledger))
    | _ => none
  | .upload p ok =>
    match s.phase p with
    | .written ledger =>
      if ok then some { s.goto p (afterLoad importer p ledger) with remote := some (s.file (dir p)) }
      else some (s.goto p .ended)
    | _ => none
  | .begin =>
    match s.phase importer with
    | .loaded ledger => some ((s.store (dir importer) ledger.serialize).goto importer .working)
    | _ => none
  | .append entry outcome =>
    match s.phase importer with
    | .working => some (s.store (dir importer) (Ledger.appendWith (s.file (dir importer)) entry outcome))
    | _ => none
  | .snapshot =>
    match s.phase importer with
    | .working =>
      some { s with inFlight := (s.taken, s.file (dir importer)) :: s.inFlight, taken := s.taken + 1 }
    | _ => none
  | .uploaded index ok =>
    match s.inFlight[index]? with
    | some (number, contents) =>
      let s := { s with inFlight := s.inFlight.eraseIdx index }
      some (if ok then { s with remote := some contents, landed := number } else s)
    | none => none

def Present (s : SharedLedger ι δ) (key : LedgerKey) : Prop :=
  ∃ contents, s.remote = some contents ∧ key ∈ Ledger.parse contents

end SharedLedger

def RowsIn (contents other : Text) : Prop := ∀ key ∈ Ledger.parse contents, key ∈ Ledger.parse other

theorem RowsIn.trans {first second third : Text} (h : RowsIn first second) (hNext : RowsIn second third) :
    RowsIn first third := fun key hKey => hNext key (h key hKey)

theorem rowsIn_appendWith {contents : Text} (hLast : Ledger.parseLine (Text.lastLine contents) = none)
    (entry : LedgerEntry) (outcome : AppendOutcome) : RowsIn contents (Ledger.appendWith contents entry outcome) := by
  intro key hKey
  obtain ⟨line, hLine, loaded, hRead, rfl⟩ := (Ledger.mem_parse _ _).mp hKey
  obtain ⟨more, hMore⟩ : ∃ more, Ledger.appendWith contents entry outcome = contents ++ more := by
    cases outcome with
    | ok => exact ⟨_, rfl⟩
    | failed written => exact ⟨_, rfl⟩
  rw [hMore]
  obtain hKept | rfl := Text.mem_lines_of_append more hLine
  · exact (Ledger.mem_parse _ _).mpr ⟨line, hKept, loaded, hRead, rfl⟩
  · rw [hLast] at hRead
    cases hRead

namespace SharedLedger

variable {ι δ : Type*}

/-- What the import's next snapshots are made of. -/
def workingCopy (dir : ι → δ) (importer : ι) (s : SharedLedger ι δ) : Option Text :=
  match s.phase importer with
  | .loaded ledger => some ledger.serialize
  | .working => some (s.file (dir importer))
  | _ => none

/-- The text has the rows of the ledger object and of every snapshot that may still land. -/
def Covers (s : SharedLedger ι δ) (contents : Text) : Prop :=
  (∀ remote, s.remote = some remote → RowsIn remote contents) ∧
    ∀ flight ∈ s.inFlight, s.landed ≤ flight.1 → RowsIn flight.2 contents

def MayStore (dir : ι → δ) (importer p : ι) (s : SharedLedger ι δ) (contents : Text) : Prop :=
  s.phase importer = .working → dir p = dir importer → s.Covers contents

/-- A seed replaces no ledger that has other rows and brings no row that the import does not know; the
job's file is not replaced by one with fewer rows; an append follows no row without a line feed;
and snapshots land in the order in which they were taken. -/
def Kept [DecidableEq ι] (dir : ι → δ) (importer : ι) (s : SharedLedger ι δ) : ScanEvent ι → Prop
  | .load p => ∀ contents, s.remote = some contents → s.MayStore dir importer p contents
  | .write p => ∀ ledger, s.phase p = .seeded ledger → s.MayStore dir importer p ledger.serialize
  | .upload p true => ∀ ledger, s.phase p = .written ledger →
    (∀ remote, s.remote = some remote → RowsIn remote (s.file (dir p))) ∧
      (∀ flight ∈ s.inFlight, s.landed ≤ flight.1 → RowsIn (s.file (dir p)) flight.2) ∧
      ∀ copy, (s.goto p (afterLoad importer p ledger)).workingCopy dir importer = some copy → RowsIn (s.file (dir p)) copy
  | .append _ _ => Ledger.parseLine (Text.lastLine (s.file (dir importer))) = none
  | .uploaded index true => ∀ flight, s.inFlight[index]? = some flight → s.landed ≤ flight.1
  | _ => True

/-! ## Moves -/

/-- Everything a step can do, by the event that does it. -/
inductive Move [DecidableEq ι] [DecidableEq δ] (dir : ι → δ) (importer : ι) (s : SharedLedger ι δ) :
    ScanEvent ι → SharedLedger ι δ → Prop
  | check (p : ι) (hPhase : s.phase p = .idle) :
      Move dir importer s (.check p) (s.goto p (if s.remote.isSome then .found else .missing))
  | load (p : ι) (contents : Text) (hPhase : s.phase p = .found) (hRemote : s.remote = some contents) :
      Move dir importer s (.load p)
        ((s.store (dir p) contents).goto p (afterLoad importer p (Ledger.parse contents)))
  | seed (p : ι) (listing : List Text) (states : List MailboxState) (now : UtcTime) (ledger : Ledger)
      (hPhase : s.phase p = .missing) : Move dir importer s (.seed p listing states now) (s.goto p (.seeded ledger))
  | write (p : ι) (ledger : Ledger) (hPhase : s.phase p = .seeded ledger) :
      Move dir importer s (.write p) ((s.store (dir p) ledger.serialize).goto p (.written ledger))
  | replace (p : ι) (ledger : Ledger) (hPhase : s.phase p = .written ledger) :
      Move dir importer s (.upload p true)
        { s.goto p (afterLoad importer p ledger) with remote := some (s.file (dir p)) }
  | fail (p : ι) (ledger : Ledger) (hPhase : s.phase p = .written ledger) :
      Move dir importer s (.upload p false) (s.goto p .ended)
  | begin (ledger : Ledger) (hPhase : s.phase importer = .loaded ledger) :
      Move dir importer s .begin ((s.store (dir importer) ledger.serialize).goto importer .working)
  | append (entry : LedgerEntry) (outcome : AppendOutcome) (hPhase : s.phase importer = .working) :
      Move dir importer s (.append entry outcome)
        (s.store (dir importer) (Ledger.appendWith (s.file (dir importer)) entry outcome))
  | snapshot (hPhase : s.phase importer = .working) :
      Move dir importer s .snapshot
        { s with inFlight := (s.taken, s.file (dir importer)) :: s.inFlight, taken := s.taken + 1 }
  | land (index number : Nat) (contents : Text) (hFlight : s.inFlight[index]? = some (number, contents)) :
      Move dir importer s (.uploaded index true)
        { s with inFlight := s.inFlight.eraseIdx index, remote := some contents, landed := number }
  | drop (index : Nat) : Move dir importer s (.uploaded index false) { s with inFlight := s.inFlight.eraseIdx index }

theorem step_move [DecidableEq ι] [DecidableEq δ] {dir : ι → δ} {importer : ι} {s next : SharedLedger ι δ}
    {event : ScanEvent ι} (h : step dir importer s event = some next) : Move dir importer s event next := by
  cases event with
  | check p =>
    rw [step] at h
    split at h
    · rename_i hPhase
      cases h
      exact .check p hPhase
    · cases h
  | load p =>
    rw [step] at h
    split at h
    · rename_i contents hPhase hRemote
      cases h
      exact .load p contents hPhase hRemote
    · cases h
  | seed p listing states now =>
    rw [step] at h
    split at h
    · rename_i hPhase
      cases h
      exact .seed p listing states now _ hPhase
    · cases h
  | write p =>
    rw [step] at h
    split at h
    · rename_i ledger hPhase
      cases h
      exact .write p ledger hPhase
    · cases h
  | upload p ok =>
    rw [step] at h
    split at h
    · rename_i ledger hPhase
      cases ok with
      | true =>
        cases h
        exact .replace p ledger hPhase
      | false =>
        cases h
        exact .fail p ledger hPhase
    · cases h
  | begin =>
    rw [step] at h
    split at h
    · rename_i ledger hPhase
      cases h
      exact .begin ledger hPhase
    · cases h
  | append entry outcome =>
    rw [step] at h
    split at h
    · rename_i hPhase
      cases h
      exact .append entry outcome hPhase
    · cases h
  | snapshot =>
    rw [step] at h
    split at h
    · rename_i hPhase
      cases h
      exact .snapshot hPhase
    · cases h
  | uploaded index ok =>
    rw [step] at h
    split at h
    · rename_i number contents hFlight
      cases ok with
      | true =>
        cases h
        exact .land index number contents hFlight
      | false =>
        cases h
        exact .drop index
    · cases h

/-! ## The invariant -/

/-- What may still land is ordered: the ledger object, the snapshots, the working copy. -/
structure Inv (dir : ι → δ) (importer : ι) (s : SharedLedger ι δ) : Prop where
  quiet : s.phase importer ≠ .working → s.inFlight = []
  copy : ∀ copy, s.workingCopy dir importer = some copy → s.Covers copy
  ahead : ∀ flight ∈ s.inFlight, s.landed ≤ flight.1 → ∀ remote, s.remote = some remote → RowsIn remote flight.2
  order : ∀ flight ∈ s.inFlight, ∀ later ∈ s.inFlight, s.landed ≤ flight.1 → flight.1 ≤ later.1 → RowsIn flight.2 later.2
  numbers : ∀ flight ∈ s.inFlight, flight.1 < s.taken

theorem inv_start (dir : ι → δ) (importer : ι) (remote : Option Text) (file : δ → Text) :
    Inv dir importer (start remote file : SharedLedger ι δ) where
  quiet _ := rfl
  copy _ h := nomatch h
  ahead _ h := nomatch h
  order _ h := nomatch h
  numbers _ h := nomatch h

section Moves

variable {dir : ι → δ} {importer : ι} {s next : SharedLedger ι δ} {event : ScanEvent ι}

theorem workingCopy_goto [DecidableEq ι] {p : ι} {phase : ScanPhase} (hLoaded : ∀ ledger, phase ≠ .loaded ledger)
    (hWorking : phase ≠ .working) {copy : Text} (h : (s.goto p phase).workingCopy dir importer = some copy) :
    importer ≠ p ∧ s.workingCopy dir importer = some copy := by
  have hNe : importer ≠ p := by
    rintro rfl
    rw [workingCopy, phase_goto_self] at h
    split at h
    · exact hLoaded _ rfl
    · exact hWorking rfl
    · cases h
  rw [workingCopy, phase_goto_of_ne s phase hNe] at h
  exact ⟨hNe, h⟩

theorem Inv.goto [DecidableEq ι] (h : Inv dir importer s) {p : ι} {phase : ScanPhase} (hBefore : s.phase p ≠ .working)
    (hLoaded : ∀ ledger, phase ≠ .loaded ledger) (hWorking : phase ≠ .working) : Inv dir importer (s.goto p phase) where
  quiet hPhase := by
    by_cases hSelf : importer = p
    · subst p
      exact h.quiet hBefore
    · rw [phase_goto_of_ne s phase hSelf] at hPhase
      exact h.quiet hPhase
  copy copy hCopy := h.copy copy (workingCopy_goto hLoaded hWorking hCopy).2
  ahead := h.ahead
  order := h.order
  numbers := h.numbers

theorem Inv.hold [DecidableEq ι] (h : Inv dir importer s) {ledger : Ledger} (hBefore : s.phase importer ≠ .working)
    (hRemote : ∀ remote, s.remote = some remote → RowsIn remote ledger.serialize) :
    Inv dir importer (s.goto importer (.loaded ledger)) := by
  have hNone := h.quiet hBefore
  refine ⟨fun _ => hNone, fun copy hCopy => ?_, h.ahead, h.order, h.numbers⟩
  rw [workingCopy, phase_goto_self] at hCopy
  cases hCopy
  refine ⟨hRemote, fun flight hFlight => ?_⟩
  have hMem : flight ∈ s.inFlight := hFlight
  rw [hNone] at hMem
  cases hMem

theorem Inv.store [DecidableEq δ] (h : Inv dir importer s) {d : δ} {contents : Text}
    (hCovers : s.phase importer = .working → d = dir importer → s.Covers contents) :
    Inv dir importer (s.store d contents) where
  quiet := h.quiet
  copy copy hCopy := by
    rw [workingCopy] at hCopy
    split at hCopy
    · rename_i ledger hPhase
      have hLoaded : s.phase importer = .loaded ledger := hPhase
      exact h.copy copy (by rw [workingCopy, hLoaded, ← hCopy])
    · rename_i hPhase
      have hWorking : s.phase importer = .working := hPhase
      cases hCopy
      by_cases hDir : dir importer = d
      · rw [hDir, file_store_self]
        exact hCovers hWorking hDir.symm
      · rw [file_store_of_ne s contents hDir]
        exact h.copy _ (by rw [workingCopy, hWorking])
    · cases hCopy
  ahead := h.ahead
  order := h.order
  numbers := h.numbers

theorem Inv.begin [DecidableEq ι] [DecidableEq δ] (h : Inv dir importer s) {ledger : Ledger}
    (hPhase : s.phase importer = .loaded ledger) :
    Inv dir importer ((s.store (dir importer) ledger.serialize).goto importer .working) := by
  have hCovers := h.copy ledger.serialize (by rw [workingCopy, hPhase])
  refine ⟨fun hIdle => ?_, fun copy hCopy => ?_, h.ahead, h.order, h.numbers⟩
  · exact absurd (phase_goto_self _ importer .working) hIdle
  · rw [workingCopy, phase_goto_self] at hCopy
    obtain rfl : ledger.serialize = copy := (file_store_self s _ _).symm.trans (Option.some.inj hCopy)
    exact hCovers

theorem Inv.append [DecidableEq δ] (h : Inv dir importer s) (hWorking : s.phase importer = .working)
    (hLast : Ledger.parseLine (Text.lastLine (s.file (dir importer))) = none) (entry : LedgerEntry)
    (outcome : AppendOutcome) :
    Inv dir importer (s.store (dir importer) (Ledger.appendWith (s.file (dir importer)) entry outcome)) := by
  apply h.store
  intro _ _
  have hGrows := rowsIn_appendWith hLast entry outcome
  obtain ⟨hRemote, hFlights⟩ := h.copy (s.file (dir importer)) (by rw [workingCopy, hWorking])
  constructor
  · intro remote hFound
    exact (hRemote remote hFound).trans hGrows
  · intro flight hFlight hLands
    exact (hFlights flight hFlight hLands).trans hGrows

theorem Inv.snapshot (h : Inv dir importer s) (hWorking : s.phase importer = .working) :
    Inv dir importer { s with inFlight := (s.taken, s.file (dir importer)) :: s.inFlight, taken := s.taken + 1 } := by
  have hCopy := h.copy (s.file (dir importer)) (by rw [workingCopy, hWorking])
  refine ⟨fun hIdle => absurd hWorking hIdle, fun copy hFound => ?_, ?_, ?_, ?_⟩
  · have hSame : s.workingCopy dir importer = some copy := hFound
    rw [workingCopy, hWorking] at hSame
    cases hSame
    refine ⟨hCopy.1, List.forall_mem_cons.mpr ⟨fun _ _ hKey => hKey, hCopy.2⟩⟩
  · exact List.forall_mem_cons.mpr ⟨fun _ => hCopy.1, h.ahead⟩
  · intro flight hFlight later hLater hLands hLe
    obtain rfl | hOld := List.mem_cons.mp hFlight
    · obtain rfl | hLaterOld := List.mem_cons.mp hLater
      · exact fun _ hKey => hKey
      · exact absurd hLe (Nat.not_le.mpr (h.numbers later hLaterOld))
    · obtain rfl | hLaterOld := List.mem_cons.mp hLater
      · exact hCopy.2 flight hOld hLands
      · exact h.order flight hOld later hLaterOld hLands hLe
  · refine List.forall_mem_cons.mpr ⟨Nat.lt_succ_self _, fun flight hFlight => ?_⟩
    exact Nat.lt_succ_of_lt (h.numbers flight hFlight)

theorem Inv.erase (h : Inv dir importer s) (index : Nat) :
    Inv dir importer { s with inFlight := s.inFlight.eraseIdx index } where
  quiet hPhase := by
    rw [h.quiet hPhase]
    rfl
  copy copy hCopy :=
    ⟨(h.copy copy hCopy).1, fun flight hFlight => (h.copy copy hCopy).2 flight (List.eraseIdx_subset hFlight)⟩
  ahead flight hFlight := h.ahead flight (List.eraseIdx_subset hFlight)
  order flight hFlight later hLater := h.order flight (List.eraseIdx_subset hFlight) later (List.eraseIdx_subset hLater)
  numbers flight hFlight := h.numbers flight (List.eraseIdx_subset hFlight)

theorem Inv.land (h : Inv dir importer s) {index number : Nat} {contents : Text}
    (hFlight : s.inFlight[index]? = some (number, contents)) (hLands : s.landed ≤ number) :
    Inv dir importer { s with inFlight := s.inFlight.eraseIdx index, remote := some contents, landed := number } := by
  have hMem : (number, contents) ∈ s.inFlight := List.mem_of_getElem? hFlight
  have hErased := h.erase index
  refine ⟨hErased.quiet, fun copy hCopy => ?_, ?_, ?_, hErased.numbers⟩
  · have hBefore := h.copy copy hCopy
    refine ⟨?_, fun flight hOther hNumber => ?_⟩
    · rintro _ ⟨⟩
      exact hBefore.2 _ hMem hLands
    · exact hBefore.2 flight (List.eraseIdx_subset hOther) (Nat.le_trans hLands hNumber)
  · rintro flight hOther hNumber _ ⟨⟩
    exact h.order _ hMem flight (List.eraseIdx_subset hOther) hLands hNumber
  · intro flight hOther later hLater hNumber hLe
    exact hErased.order flight hOther later hLater (Nat.le_trans hLands hNumber) hLe

theorem Inv.replace [DecidableEq ι] (h : Inv dir importer s) {p : ι} {ledger : Ledger}
    (hPhase : s.phase p = .written ledger)
    (hFlights : ∀ flight ∈ s.inFlight, s.landed ≤ flight.1 → RowsIn (s.file (dir p)) flight.2)
    (hCopy : ∀ copy, (s.goto p (afterLoad importer p ledger)).workingCopy dir importer = some copy →
      RowsIn (s.file (dir p)) copy) :
    Inv dir importer { s.goto p (afterLoad importer p ledger) with remote := some (s.file (dir p)) } := by
  have hBefore : s.phase p ≠ .working := by
    rw [hPhase]
    nofun
  have hOther (hNe : importer ≠ p) (phase : ScanPhase) : (s.goto p phase).phase importer = s.phase importer :=
    phase_goto_of_ne s phase hNe
  refine ⟨fun hIdle => ?_, fun copy hFound => ⟨?_, fun flight hFlight hLands => ?_⟩, ?_, h.order, h.numbers⟩
  · by_cases hSelf : importer = p
    · subst p
      exact h.quiet hBefore
    · exact h.quiet (hOther hSelf _ ▸ hIdle)
  · rintro _ ⟨⟩
    exact hCopy copy hFound
  · by_cases hSelf : importer = p
    · subst p
      have hMem : flight ∈ s.inFlight := hFlight
      rw [h.quiet hBefore] at hMem
      cases hMem
    · have hSame : s.workingCopy dir importer = some copy := by
        rw [← hFound, workingCopy, workingCopy]
        simp only [hOther hSelf]
        rfl
      exact (h.copy copy hSame).2 flight hFlight hLands
  · rintro flight hFlight hLands _ ⟨⟩
    exact hFlights flight hFlight hLands

theorem Inv.move [DecidableEq ι] [DecidableEq δ] (h : Inv dir importer s) (hKept : s.Kept dir importer event)
    (hMove : Move dir importer s event next) : Inv dir importer next := by
  cases hMove with
  | check p hPhase =>
    apply h.goto
    · rw [hPhase]
      nofun
    · intro ledger
      split <;> nofun
    · split <;> nofun
  | load p contents hPhase hRemote =>
    have hStored : Inv dir importer (s.store (dir p) contents) := h.store (hKept contents hRemote)
    have hBefore : (s.store (dir p) contents).phase p ≠ .working := by
      change s.phase p ≠ _
      rw [hPhase]
      nofun
    rw [afterLoad]
    split
    · subst p
      apply hStored.hold hBefore
      intro remote hFound
      obtain rfl : contents = remote := Option.some.inj (hRemote.symm.trans hFound)
      exact fun key hKey => Ledger.mem_parse_serialize_parse hKey
    · exact hStored.goto hBefore nofun nofun
  | seed p listing states now ledger hPhase =>
    apply h.goto
    · rw [hPhase]
      nofun
    · nofun
    · nofun
  | write p ledger hPhase =>
    have hStored : Inv dir importer (s.store (dir p) ledger.serialize) := h.store (hKept ledger hPhase)
    apply hStored.goto
    · change s.phase p ≠ _
      rw [hPhase]
      nofun
    · nofun
    · nofun
  | replace p ledger hPhase =>
    obtain ⟨-, hFlights, hCopy⟩ := hKept ledger hPhase
    exact h.replace hPhase hFlights hCopy
  | fail p ledger hPhase =>
    apply h.goto
    · rw [hPhase]
      nofun
    · nofun
    · nofun
  | begin ledger hPhase => exact h.begin hPhase
  | append entry outcome hPhase => exact h.append hPhase hKept entry outcome
  | snapshot hPhase => exact h.snapshot hPhase
  | land index number contents hFlight => exact h.land hFlight (hKept _ hFlight)
  | drop index => exact h.erase index

theorem Present.move [DecidableEq ι] [DecidableEq δ] {key : LedgerKey} (hPresent : s.Present key) (h : Inv dir importer s)
    (hKept : s.Kept dir importer event) (hMove : Move dir importer s event next) : next.Present key := by
  obtain ⟨remote, hRemote, hKey⟩ := hPresent
  cases hMove with
  | replace p ledger hPhase => exact ⟨_, rfl, (hKept ledger hPhase).1 remote hRemote key hKey⟩
  | land index number contents hFlight =>
    have hMem : (number, contents) ∈ s.inFlight := List.mem_of_getElem? hFlight
    exact ⟨contents, rfl, h.ahead _ hMem (hKept _ hFlight) remote hRemote key hKey⟩
  | check | load | seed | write | fail | begin | append | snapshot | drop => exact ⟨remote, hRemote, hKey⟩

end Moves

/-! ## Runs -/

variable [DecidableEq ι] [DecidableEq δ]

instance (s : SharedLedger ι δ) (key : LedgerKey) : Decidable (s.Present key) :=
  decidable_of_iff (∃ contents ∈ s.remote.toList, key ∈ Ledger.parse contents) (by simp [Present])

/-- In any run whose steps are kept, a row that has been in the ledger object is in every later
version of it. -/
theorem present_of_kept (dir : ι → δ) (importer : ι) (remote : Option Text) (file : δ → Text)
    (schedule more : List (ScanEvent ι)) (s t : SharedLedger ι δ)
    (hKept : Within (step dir importer) (Kept dir importer) (start remote file) (schedule ++ more))
    (hRun : run (step dir importer) (start remote file) schedule = some s)
    (hMore : run (step dir importer) s more = some t) : ∀ key, s.Present key → t.Present key := by
  obtain ⟨hFirst, hSecond⟩ := hKept.append hRun
  have hInv : Inv dir importer s :=
    run_invariant (Inv dir importer) (fun _ _ _ h hKept hStep => h.move hKept (step_move hStep)) hFirst hRun
      (inv_start dir importer remote file)
  intro key hPresent
  exact (run_invariant (fun s => Inv dir importer s ∧ s.Present key)
    (fun _ _ _ h hKept hStep => ⟨h.1.move hKept (step_move hStep), h.2.move h.1 hKept (step_move hStep)⟩) hSecond hMore
    ⟨hInv, hPresent⟩).2

/-- The import loads a ledger of one row, appends a second one and pushes both. -/
theorem present_of_kept_inbox :
    ∃ t : SharedLedger Nat Nat, t.Present ("INBOX".toList, 7, 1) ∧ t.Present ("INBOX".toList, 7, 2) := by
  let remote : Text := "INBOX\t7\t1\t2026-10-19\n".toList
  let schedule : List (ScanEvent Nat) := [.check 0, .load 0, .begin]
  let more : List (ScanEvent Nat) := [.append ⟨"INBOX".toList, 7, 2, "2026-10-20".toList⟩ .ok, .snapshot, .uploaded 0 true]
  have hKept : Within (step id 0) (Kept id 0) (start (some remote) fun _ => [] : SharedLedger Nat Nat)
      (schedule ++ more) := by
    refine ⟨trivial, ?_⟩
    rintro _ ⟨⟩
    refine ⟨fun _ _ hWorking => (nomatch hWorking), ?_⟩
    rintro _ ⟨⟩
    refine ⟨trivial, ?_⟩
    rintro _ ⟨⟩
    have hLast : Ledger.parseLine (Text.lastLine (Ledger.parse remote).serialize) = none := by decide +kernel
    refine ⟨hLast, ?_⟩
    rintro _ ⟨⟩
    refine ⟨trivial, ?_⟩
    rintro _ ⟨⟩
    exact ⟨fun _ _ => Nat.zero_le _, fun _ _ => trivial⟩
  have hEnds : ((run (step id 0) (start (some remote) fun _ => [] : SharedLedger Nat Nat) schedule).bind fun s =>
      (run (step id 0) s more).map fun t => (s, t)).map (fun ends =>
        decide (ends.1.Present ("INBOX".toList, 7, 1) ∧ ends.2.Present ("INBOX".toList, 7, 2))) = some true := by
    decide +kernel
  obtain ⟨⟨s, t⟩, hBoth, hCheck⟩ := Option.map_eq_some_iff.mp hEnds
  obtain ⟨_, hRun, hLater⟩ := Option.bind_eq_some_iff.mp hBoth
  obtain ⟨_, hMore, ⟨⟩⟩ := Option.map_eq_some_iff.mp hLater
  obtain ⟨hPresent, hNew⟩ := of_decide_eq_true hCheck
  exact ⟨t, present_of_kept id 0 (some remote) (fun _ => []) schedule more s t hKept hRun hMore _ hPresent, hNew⟩

/-- The scan listed the destination before the import delivered, and uploads its seed afterwards. -/
theorem late_seed_loses_row :
    ∃ (schedule more : List (ScanEvent Nat)) (s t : SharedLedger Nat Nat) (key : LedgerKey),
      run (step id 0) (start none fun _ => []) schedule = some s ∧ run (step id 0) s more = some t ∧
        s.Present key ∧ ¬ t.Present key := by
  let states : List MailboxState := [⟨"INBOX".toList, some ['/'], 7, [1]⟩]
  let now : UtcTime := ⟨2026, 10, 20, 0, 0, 0⟩
  let schedule : List (ScanEvent Nat) :=
    [.check 1, .seed 1 [] states now, .check 0, .seed 0 [] states now, .write 0, .upload 0 true, .begin,
      .append ⟨"INBOX".toList, 7, 1, utcTimestamp now⟩ .ok, .snapshot, .uploaded 0 true]
  let more : List (ScanEvent Nat) := [.write 1, .upload 1 true]
  have hEnds : ((run (step id 0) (start none fun _ => [] : SharedLedger Nat Nat) schedule).bind fun s =>
      (run (step id 0) s more).map fun t => (s, t)).map (fun ends =>
        decide (ends.1.Present ("INBOX".toList, 7, 1) ∧ ¬ ends.2.Present ("INBOX".toList, 7, 1))) = some true := by
    decide +kernel
  obtain ⟨⟨s, t⟩, hBoth, hCheck⟩ := Option.map_eq_some_iff.mp hEnds
  obtain ⟨_, hRun, hLater⟩ := Option.bind_eq_some_iff.mp hBoth
  obtain ⟨_, hMore, ⟨⟩⟩ := Option.map_eq_some_iff.mp hLater
  obtain ⟨hPresent, hLost⟩ := of_decide_eq_true hCheck
  exact ⟨schedule, more, s, t, _, hRun, hMore, hPresent, hLost⟩

end SharedLedger

end Pigeon.EmailImport
