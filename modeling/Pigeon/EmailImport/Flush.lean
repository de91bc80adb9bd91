import Pigeon.Library.Runs
import Pigeon.Keyring.Identity
import Pigeon.EmailImport.Ledger

/-! # Flushing the ledgers of a run

Deliveries append to the working copies while a background task pushes every copy now and
then. When the workers are done the task is aborted and every copy is pushed once more. An
upload that the abort orphaned still completes, whenever it likes.
-/
namespace Pigeon.EmailImport

open Library
open Text (AppendOutcome)

set_option autoImplicit false

structure ImportContext where
  aliasName : Text
  email : Text
deriving DecidableEq, Repr

/-- Where `flush_ledgers` stands: before the contexts still to push, or awaiting an upload of
a snapshot. -/
inductive FlushLoop where
  | next (rest : List ImportContext)
  | uploading (ctx : ImportContext) (snapshot : Text) (rest : List ImportContext)
deriving DecidableEq, Repr

def FlushLoop.left : FlushLoop → List ImportContext
  | .next rest => rest
  | .uploading ctx _ rest => ctx :: rest

structure ImportRun where
  workingCopy : ImportContext → Text
  /-- The ledger objects by address. -/
  remote : Text → Text
  delivered : List (ImportContext × LedgerEntry)
  periodic : FlushLoop
  /-- The upload that was in flight when the background task was aborted. -/
  orphan : Option (ImportContext × Text)
  final : Option FlushLoop
  pushed : List ImportContext
  finalLedgerFlushFailed : Bool

inductive FlushEvent where
  | deliver (ctx : ImportContext) (entry : LedgerEntry) (outcome : AppendOutcome)
  | tick
  | snapshot (ok : Bool)
  | uploaded (ok : Bool)
  /-- The workers are done: `flusher.abort()` and the start of the final push. -/
  | drain
  | finalSnapshot (ok : Bool)
  | finalUploaded (ok : Bool)
  | orphanUploaded (ok : Bool)
deriving DecidableEq, Repr

namespace ImportRun

/-- `identity_dir_address` in the ledger bucket `target`. -/
def dirAddress (target : Text) (ctx : ImportContext) : Text := target ++ Keyring.sanitizeSegment ctx.email ++ ['/']

def start (ledger : ImportContext → Ledger) (remote : Text → Text) : ImportRun where
  workingCopy ctx := (ledger ctx).serialize
  remote := remote
  delivered := []
  periodic := .next []
  orphan := none
  final := none
  pushed := []
  finalLedgerFlushFailed := false

def store (s : ImportRun) (target : Text) (ctx : ImportContext) (contents : Text) (ok : Bool) : ImportRun :=
  if ok then { s with remote := Function.update s.remote (dirAddress target ctx) contents } else s

def step (target : Text) (contexts : List ImportContext) (s : ImportRun) : FlushEvent → Option ImportRun
  | .deliver ctx entry outcome =>
    if s.final = none ∧ ctx ∈ contexts then
      some { s with
        workingCopy := Function.update s.workingCopy ctx (Ledger.appendWith (s.workingCopy ctx) entry outcome)
        -- A failed append is a warning, the message counts all the same.
        delivered := (ctx, entry) :: s.delivered }
    else none
  | .tick =>
    if s.final = none ∧ s.periodic = .next [] then some { s with periodic := .next contexts } else none
  | .snapshot ok =>
    match s.final, s.periodic with
    | none, .next (ctx :: rest) =>
      some { s with periodic := if ok then .uploading ctx (s.workingCopy ctx) rest else .next rest }
    | _, _ => none
  | .uploaded ok =>
    match s.final, s.periodic with
    | none, .uploading ctx contents rest => some { s.store target ctx contents ok with periodic := .next rest }
    | _, _ => none
  | .drain =>
    match s.final with
    | none =>
      some { s with
        orphan := match s.periodic with
          | .uploading ctx contents _ => some (ctx, contents)
          | .next _ => none
        periodic := .next []
        final := some (.next contexts) }
    | some _ => none
  | .finalSnapshot ok =>
    match s.final with
    | some (.next (ctx :: rest)) =>
      if ok then some { s with final := some (.uploading ctx (s.workingCopy ctx) rest) }
      else some { s with final := some (.next rest), finalLedgerFlushFailed := true }
    | _ => none
  | .finalUploaded ok =>
    match s.final with
    | some (.uploading ctx contents rest) =>
      some { s.store target ctx contents ok with
        final := some (.next rest)
        pushed := if ok then ctx :: s.pushed else s.pushed
        finalLedgerFlushFailed := s.finalLedgerFlushFailed || !ok }
    | _ => none
  | .orphanUploaded ok =>
    match s.orphan with
    | some (ctx, contents) => some { s.store target ctx contents ok with orphan := none }
    | none => none

def Ended (s : ImportRun) : Prop :=
  s.final = some (.next []) ∧ s.orphan = none ∧ s.finalLedgerFlushFailed = false

instance (s : ImportRun) : Decidable s.Ended := by unfold Ended; infer_instance

def HasRow (contents : Text) (entry : LedgerEntry) : Prop := Text.HasLine contents (Ledger.row entry)

/-- Every message that counts as delivered has its row in the remote ledger. -/
def Durable (target : Text) (s : ImportRun) : Prop :=
  ∀ ctx entry, (ctx, entry) ∈ s.delivered → HasRow (s.remote (dirAddress target ctx)) entry

def arriving (s : ImportRun) : FlushEvent → Option (ImportContext × Text)
  | .uploaded true =>
    match s.periodic with
    | .uploading ctx contents _ => some (ctx, contents)
    | .next _ => none
  | .finalUploaded true =>
    match s.final with
    | some (.uploading ctx contents _) => some (ctx, contents)
    | _ => none
  | .orphanUploaded true => s.orphan
  | _ => none

/-- The append of a delivered message succeeds; an upload that completes after the final
push of a ledger at the same address brings what that push brought. -/
def Kept (target : Text) (s : ImportRun) (event : FlushEvent) : Prop :=
  (∀ ctx entry outcome, event = .deliver ctx entry outcome → outcome = .ok) ∧
    ∀ ctx contents, s.arriving event = some (ctx, contents) →
      ∀ other ∈ s.pushed, dirAddress target other = dirAddress target ctx → contents = s.workingCopy other

/-! ## Rows of a text -/

theorem terminated_append (contents : Text) (entry : LedgerEntry) : Text.Terminated (Ledger.append contents entry) := by
  rw [Ledger.append, Ledger.writtenRow, ← List.append_assoc]
  exact Text.terminated_append_newline _

theorem terminated_serialize (ledger : Ledger) : Text.Terminated ledger.serialize := by
  have hText : ledger.serialize = (Ledger.header ++ ['\n']) ++ (ledger.entries.map Ledger.row).flatMap (· ++ ['\n']) := by
    rw [Ledger.serialize, List.append_assoc, List.singleton_append, List.flatMap_map]
    rfl
  rw [hText]
  exact Text.terminated_flatMap (Text.terminated_append_newline _) _

theorem hasRow_append {contents : Text} (h : Text.Terminated contents) (entry : LedgerEntry) :
    HasRow (Ledger.append contents entry) entry := h.hasLine (Ledger.row entry) []

/-! ## Runs -/

variable {target : Text} {contexts : List ImportContext}

/-- What holds at every point of a run whose events are all kept. -/
structure Inv (target : Text) (contexts : List ImportContext) (s : ImportRun) : Prop where
  terminated : ∀ ctx, Text.Terminated (s.workingCopy ctx)
  rows : ∀ ctx entry, (ctx, entry) ∈ s.delivered → ctx ∈ contexts ∧ HasRow (s.workingCopy ctx) entry
  running : s.final = none → s.pushed = [] ∧ s.orphan = none
  uploading : ∀ ctx contents rest, s.final = some (.uploading ctx contents rest) → contents = s.workingCopy ctx
  pushed : ∀ ctx ∈ s.pushed, s.remote (dirAddress target ctx) = s.workingCopy ctx
  left : ∀ loop, s.final = some loop → s.finalLedgerFlushFailed = false →
    ∀ ctx ∈ contexts, ctx ∈ s.pushed ∨ ctx ∈ loop.left

theorem inv_start (ledger : ImportContext → Ledger) (remote : Text → Text) : Inv target contexts (start ledger remote) where
  terminated ctx := terminated_serialize (ledger ctx)
  rows _ _ h := nomatch h
  running _ := ⟨rfl, rfl⟩
  uploading _ _ _ h := nomatch h
  pushed _ h := nomatch h
  left _ h := nomatch h

@[simp] theorem store_false (s : ImportRun) (ctx : ImportContext) (contents : Text) :
    s.store target ctx contents false = s := rfl

theorem remote_store (s : ImportRun) (ctx : ImportContext) (contents : Text) (address : Text) :
    (s.store target ctx contents true).remote address =
      if address = dirAddress target ctx then contents else s.remote address :=
  Function.update_apply s.remote (dirAddress target ctx) contents address

@[simp] theorem workingCopy_store (s : ImportRun) (ctx : ImportContext) (contents : Text) (ok : Bool) :
    (s.store target ctx contents ok).workingCopy = s.workingCopy := by cases ok <;> rfl

@[simp] theorem delivered_store (s : ImportRun) (ctx : ImportContext) (contents : Text) (ok : Bool) :
    (s.store target ctx contents ok).delivered = s.delivered := by cases ok <;> rfl

@[simp] theorem pushed_store (s : ImportRun) (ctx : ImportContext) (contents : Text) (ok : Bool) :
    (s.store target ctx contents ok).pushed = s.pushed := by cases ok <;> rfl

@[simp] theorem final_store (s : ImportRun) (ctx : ImportContext) (contents : Text) (ok : Bool) :
    (s.store target ctx contents ok).final = s.final := by cases ok <;> rfl

@[simp] theorem orphan_store (s : ImportRun) (ctx : ImportContext) (contents : Text) (ok : Bool) :
    (s.store target ctx contents ok).orphan = s.orphan := by cases ok <;> rfl

@[simp] theorem flag_store (s : ImportRun) (ctx : ImportContext) (contents : Text) (ok : Bool) :
    (s.store target ctx contents ok).finalLedgerFlushFailed = s.finalLedgerFlushFailed := by cases ok <;> rfl

/-- Everything an event can do. -/
inductive Move (target : Text) (contexts : List ImportContext) (s : ImportRun) : FlushEvent → ImportRun → Prop
  | deliver (ctx : ImportContext) (entry : LedgerEntry) (outcome : AppendOutcome) (hRunning : s.final = none)
      (hCtx : ctx ∈ contexts) :
      Move target contexts s (.deliver ctx entry outcome) { s with
        workingCopy := Function.update s.workingCopy ctx (Ledger.appendWith (s.workingCopy ctx) entry outcome)
        delivered := (ctx, entry) :: s.delivered }
  /-- The background task moves without reaching the bucket. -/
  | background (event : FlushEvent) (loop : FlushLoop) (hRunning : s.final = none) :
      Move target contexts s event { s with periodic := loop }
  | uploaded (ok : Bool) (ctx : ImportContext) (contents : Text) (rest : List ImportContext) (hRunning : s.final = none)
      (hPeriodic : s.periodic = .uploading ctx contents rest) :
      Move target contexts s (.uploaded ok) { s.store target ctx contents ok with periodic := .next rest }
  | drain (orphan : Option (ImportContext × Text)) (hRunning : s.final = none) :
      Move target contexts s .drain { s with orphan, periodic := .next [], final := some (.next contexts) }
  | finalSnapshot (ctx : ImportContext) (rest : List ImportContext) (hFinal : s.final = some (.next (ctx :: rest))) :
      Move target contexts s (.finalSnapshot true) { s with final := some (.uploading ctx (s.workingCopy ctx) rest) }
  | finalSnapshotFailed (ctx : ImportContext) (rest : List ImportContext)
      (hFinal : s.final = some (.next (ctx :: rest))) :
      Move target contexts s (.finalSnapshot false) { s with final := some (.next rest), finalLedgerFlushFailed := true }
  | finalUploaded (ctx : ImportContext) (contents : Text) (rest : List ImportContext)
      (hFinal : s.final = some (.uploading ctx contents rest)) :
      Move target contexts s (.finalUploaded true) { s.store target ctx contents true with
        final := some (.next rest), pushed := ctx :: s.pushed }
  | finalUploadFailed (ctx : ImportContext) (contents : Text) (rest : List ImportContext)
      (hFinal : s.final = some (.uploading ctx contents rest)) :
      Move target contexts s (.finalUploaded false) { s with final := some (.next rest), finalLedgerFlushFailed := true }
  | orphanUploaded (ok : Bool) (ctx : ImportContext) (contents : Text) (hOrphan : s.orphan = some (ctx, contents)) :
      Move target contexts s (.orphanUploaded ok) { s.store target ctx contents ok with orphan := none }

theorem step_move {s next : ImportRun} {event : FlushEvent} (h : step target contexts s event = some next) :
    Move target contexts s event next := by
  cases event with
  | deliver ctx entry outcome =>
    rw [step] at h
    split at h
    · rename_i hGuard
      cases h
      exact .deliver ctx entry outcome hGuard.1 hGuard.2
    · cases h
  | tick =>
    rw [step] at h
    split at h
    · rename_i hGuard
      cases h
      exact .background .tick _ hGuard.1
    · cases h
  | snapshot ok =>
    rw [step] at h
    split at h
    · rename_i hRunning _
      cases h
      exact .background (.snapshot ok) _ hRunning
    · cases h
  | uploaded ok =>
    rw [step] at h
    split at h
    · rename_i ctx contents rest hRunning hPeriodic
      cases h
      exact .uploaded ok ctx contents rest hRunning hPeriodic
    · cases h
  | drain =>
    rw [step] at h
    split at h
    · rename_i hRunning
      cases h
      exact .drain _ hRunning
    · cases h
  | finalSnapshot ok =>
    rw [step] at h
    split at h
    · rename_i ctx rest hFinal
      cases ok with
      | true =>
        cases h
        exact .finalSnapshot ctx rest hFinal
      | false =>
        cases h
        exact .finalSnapshotFailed ctx rest hFinal
    · cases h
  | finalUploaded ok =>
    rw [step] at h
    split at h
    · rename_i ctx contents rest hFinal
      cases ok with
      | true =>
        simp only [Bool.not_true, Bool.or_false, if_true, Option.some.injEq] at h
        exact h ▸ .finalUploaded ctx contents rest hFinal
      | false =>
        simp only [store_false, Bool.not_false, Bool.or_true, Option.some.injEq] at h
        exact h ▸ .finalUploadFailed ctx contents rest hFinal
    · cases h
  | orphanUploaded ok =>
    rw [step] at h
    split at h
    · rename_i ctx contents hOrphan
      cases h
      exact .orphanUploaded ok ctx contents hOrphan
    · cases h

section Preserved

variable {s next : ImportRun} {event : FlushEvent}

theorem Inv.terminated_move (h : Inv target contexts s) (hKept : Kept target s event)
    (hMove : Move target contexts s event next) (ctx : ImportContext) : Text.Terminated (next.workingCopy ctx) := by
  cases hMove with
  | deliver current entry outcome =>
    obtain rfl := hKept.1 current entry outcome rfl
    by_cases hSame : ctx = current
    · subst ctx
      simpa using terminated_append (s.workingCopy current) entry
    · simpa [hSame] using h.terminated ctx
  | uploaded | finalUploaded | orphanUploaded => simpa using h.terminated ctx
  | background | drain | finalSnapshot | finalSnapshotFailed | finalUploadFailed => exact h.terminated ctx

theorem Inv.rows_move (h : Inv target contexts s) (hKept : Kept target s event)
    (hMove : Move target contexts s event next) (ctx : ImportContext) (entry : LedgerEntry)
    (hDelivered : (ctx, entry) ∈ next.delivered) : ctx ∈ contexts ∧ HasRow (next.workingCopy ctx) entry := by
  cases hMove with
  | deliver current other outcome hRunning hCtx =>
    obtain rfl := hKept.1 current other outcome rfl
    obtain hNew | hOld := List.mem_cons.mp hDelivered
    · cases hNew
      exact ⟨hCtx, by simpa using hasRow_append (h.terminated ctx) entry⟩
    · obtain ⟨hMem, hRow⟩ := h.rows ctx entry hOld
      refine ⟨hMem, ?_⟩
      change HasRow (Function.update s.workingCopy current _ ctx) entry
      obtain rfl | hOther := eq_or_ne ctx current
      · rw [Function.update_self]
        exact hRow.append (Ledger.writtenRow other)
      · rwa [Function.update_of_ne hOther]
  | uploaded | finalUploaded | orphanUploaded => simpa using h.rows ctx entry (by simpa using hDelivered)
  | background | drain | finalSnapshot | finalSnapshotFailed | finalUploadFailed => exact h.rows ctx entry hDelivered

theorem Inv.running_move (h : Inv target contexts s) (hMove : Move target contexts s event next)
    (hRunning : next.final = none) : next.pushed = [] ∧ next.orphan = none := by
  cases hMove with
  | deliver | background => exact h.running hRunning
  | uploaded => simpa using h.running (by simpa using hRunning)
  | orphanUploaded _ _ _ hOrphan =>
    have hNone := (h.running (by simpa using hRunning)).2
    rw [hOrphan] at hNone
    cases hNone
  | drain | finalSnapshot | finalSnapshotFailed | finalUploaded | finalUploadFailed => cases hRunning

theorem Inv.uploading_move (h : Inv target contexts s) (hMove : Move target contexts s event next)
    (ctx : ImportContext) (contents : Text) (rest : List ImportContext)
    (hFinal : next.final = some (.uploading ctx contents rest)) : contents = next.workingCopy ctx := by
  cases hMove with
  | deliver _ _ _ hRunning => simp [hRunning] at hFinal
  | background _ _ hRunning => simp [hRunning] at hFinal
  | uploaded _ _ _ _ hRunning => simp [hRunning] at hFinal
  | drain | finalSnapshotFailed | finalUploaded | finalUploadFailed => cases hFinal
  | finalSnapshot =>
    cases hFinal
    rfl
  | orphanUploaded => simpa using h.uploading ctx contents rest (by simpa using hFinal)

theorem Inv.remote_store (h : Inv target contexts s) {ctx : ImportContext} {contents : Text} {ok : Bool}
    (hArriving : ok = true → ∀ other ∈ s.pushed, dirAddress target other = dirAddress target ctx →
      contents = s.workingCopy other) (other : ImportContext) (hOther : other ∈ s.pushed) :
    (s.store target ctx contents ok).remote (dirAddress target other) = s.workingCopy other := by
  cases ok with
  | false => exact h.pushed other hOther
  | true =>
    rw [ImportRun.remote_store]
    split
    · rename_i hAddress
      exact hArriving rfl other hOther hAddress
    · exact h.pushed other hOther

theorem Inv.pushed_move (h : Inv target contexts s) (hKept : Kept target s event)
    (hMove : Move target contexts s event next) (other : ImportContext) (hOther : other ∈ next.pushed) :
    next.remote (dirAddress target other) = next.workingCopy other := by
  cases hMove with
  | deliver _ _ _ hRunning =>
    rw [(h.running hRunning).1] at hOther
    cases hOther
  | background | drain | finalSnapshot | finalSnapshotFailed | finalUploadFailed => exact h.pushed other hOther
  | uploaded ok ctx contents rest hRunning =>
    have hNone : other ∈ s.pushed := by simpa using hOther
    rw [(h.running hRunning).1] at hNone
    cases hNone
  | finalUploaded ctx contents rest hFinal =>
    have hArriving := hKept.2 ctx contents (by simp [arriving, hFinal])
    change (s.store target ctx contents true).remote _ = _
    obtain rfl | hBefore := List.mem_cons.mp hOther
    · rw [ImportRun.remote_store, if_pos rfl]
      simpa using h.uploading other contents rest hFinal
    · simpa using h.remote_store (fun _ => hArriving) other hBefore
  | orphanUploaded ok ctx contents hOrphan =>
    change (s.store target ctx contents ok).remote _ = _
    have hBefore : other ∈ s.pushed := by simpa using hOther
    simpa using h.remote_store (fun hOk => hKept.2 ctx contents (by subst hOk; exact hOrphan)) other hBefore

theorem Inv.left_move (h : Inv target contexts s) (hMove : Move target contexts s event next) (loop : FlushLoop)
    (hFinal : next.final = some loop) (hFlag : next.finalLedgerFlushFailed = false) (ctx : ImportContext)
    (hCtx : ctx ∈ contexts) : ctx ∈ next.pushed ∨ ctx ∈ loop.left := by
  cases hMove with
  | deliver _ _ _ hRunning => simp [hRunning] at hFinal
  | background _ _ hRunning => simp [hRunning] at hFinal
  | uploaded _ _ _ _ hRunning => simp [hRunning] at hFinal
  | drain =>
    cases hFinal
    exact .inr hCtx
  | finalSnapshot current rest hBefore =>
    cases hFinal
    exact h.left _ hBefore hFlag ctx hCtx
  | finalSnapshotFailed | finalUploadFailed => cases hFlag
  | finalUploaded current contents rest hBefore =>
    cases hFinal
    obtain hPushed | hLeft := h.left _ hBefore (by simpa using hFlag) ctx hCtx
    · exact .inl (List.mem_cons_of_mem current hPushed)
    · obtain rfl | hRest := List.mem_cons.mp hLeft
      · exact .inl List.mem_cons_self
      · exact .inr hRest
  | orphanUploaded => simpa using h.left loop (by simpa using hFinal) (by simpa using hFlag) ctx hCtx

theorem Inv.move (h : Inv target contexts s) (hKept : Kept target s event)
    (hMove : Move target contexts s event next) : Inv target contexts next where
  terminated := h.terminated_move hKept hMove
  rows := h.rows_move hKept hMove
  running := h.running_move hMove
  uploading := h.uploading_move hMove
  pushed := h.pushed_move hKept hMove
  left := h.left_move hMove

end Preserved

/-- Over a whole run: when every append of a delivered message succeeds and no upload undoes
a final push, a run that ends without a report leaves a row for each delivered message. -/
theorem durable_of_kept (target : Text) (contexts : List ImportContext) (ledger : ImportContext → Ledger)
    (remote : Text → Text) (schedule : List FlushEvent) (s : ImportRun)
    (hKept : Within (step target contexts) (Kept target) (start ledger remote) schedule)
    (hRun : run (step target contexts) (start ledger remote) schedule = some s) (hEnded : s.Ended) :
    s.Durable target := by
  have hInv : Inv target contexts s :=
    run_invariant (Inv target contexts) (fun _ _ _ h hKept hStep => h.move hKept (step_move hStep)) hKept hRun
      (inv_start ledger remote)
  intro ctx entry hDelivered
  obtain ⟨hCtx, hRow⟩ := hInv.rows ctx entry hDelivered
  obtain hPushed | hLeft := hInv.left (.next []) hEnded.1 hEnded.2.2 ctx hCtx
  · rw [hInv.pushed ctx hPushed]
    exact hRow
  · cases hLeft

theorem durable_of_kept_inbox :
    ∃ s : ImportRun, s.delivered ≠ [] ∧ s.Durable "ledger/".toList := by
  let ctx : ImportContext := ⟨"a".toList, "a@example.com".toList⟩
  let schedule : List FlushEvent := [.deliver ctx ⟨"INBOX".toList, 7, 1, "t".toList⟩ .ok, .drain, .finalSnapshot true,
    .finalUploaded true]
  have hKept : Within (step "ledger/".toList [ctx]) (Kept "ledger/".toList) (start (fun _ => ∅) fun _ => []) schedule := by
    refine ⟨⟨?_, nofun⟩, ?_⟩
    · rintro _ _ _ ⟨⟩
      rfl
    rintro _ ⟨⟩
    refine ⟨⟨nofun, nofun⟩, ?_⟩
    rintro _ ⟨⟩
    refine ⟨⟨nofun, nofun⟩, ?_⟩
    rintro _ ⟨⟩
    exact ⟨⟨nofun, fun _ _ _ _ hOther => nomatch hOther⟩, fun _ _ => trivial⟩
  have hEnds : (run (step "ledger/".toList [ctx]) (start (fun _ => ∅) fun _ => []) schedule).map
      (fun s => decide (s.Ended ∧ s.delivered ≠ [])) = some true := by decide +kernel
  obtain ⟨s, hRun, hCheck⟩ := Option.map_eq_some_iff.mp hEnds
  obtain ⟨hEnded, hSome⟩ := of_decide_eq_true hCheck
  exact ⟨s, hSome, durable_of_kept _ [ctx] _ _ schedule s hKept hRun hEnded⟩

theorem lost_of_missing {ledger : ImportContext → Ledger} {remote : Text → Text} {schedule : List FlushEvent}
    (ctx : ImportContext) (entry : LedgerEntry)
    (h : (run (step target contexts) (start ledger remote) schedule).map (fun s => decide (s.Ended ∧
      (ctx, entry) ∈ s.delivered ∧ ¬ Ledger.writtenRow entry <:+: s.remote (dirAddress target ctx))) = some true) :
    ∃ s, run (step target contexts) (start ledger remote) schedule = some s ∧ s.Ended ∧ ¬ s.Durable target := by
  obtain ⟨s, hRun, hCheck⟩ := Option.map_eq_some_iff.mp h
  obtain ⟨hEnded, hDelivered, hMissing⟩ := of_decide_eq_true hCheck
  refine ⟨s, hRun, hEnded, fun hDurable => ?_⟩
  obtain ⟨before, after, hText, -⟩ := hDurable ctx entry hDelivered
  exact hMissing ⟨before, after, by simp [hText, Ledger.writtenRow]⟩

/-- A failed append, an upload that the abort orphaned, and two identities with one ledger
address each lose a row of a run that ends without a report. -/
theorem delivered_row_lost :
    ∃ (first second : ImportContext) (lost : List (List ImportContext × List FlushEvent)), lost.length = 3 ∧
      ∀ run' ∈ lost, run'.1 ⊆ [first, second] ∧
        ∃ s, run (step "ledger/".toList run'.1) (start (fun _ => ∅) fun _ => []) run'.2 = some s ∧ s.Ended ∧
          ¬ s.Durable "ledger/".toList := by
  let first : ImportContext := ⟨"a".toList, "a.b@example.com".toList⟩
  let second : ImportContext := ⟨"b".toList, "a-b@example.com".toList⟩
  let entry : LedgerEntry := ⟨"INBOX".toList, 7, 1, "t".toList⟩
  let later : LedgerEntry := ⟨"INBOX".toList, 7, 2, "t".toList⟩
  refine ⟨first, second, [
    ([first], [.deliver first entry (.failed 0), .drain, .finalSnapshot true, .finalUploaded true]),
    ([first], [.deliver first entry .ok, .tick, .snapshot true, .deliver first later .ok, .drain, .finalSnapshot true,
      .finalUploaded true, .orphanUploaded true]),
    ([first, second], [.deliver first entry .ok, .drain, .finalSnapshot true, .finalUploaded true, .finalSnapshot true,
      .finalUploaded true])], rfl, ?_⟩
  rintro _ (_ | ⟨_, _ | ⟨_, _ | ⟨_, ⟨⟩⟩⟩⟩)
  · exact ⟨by decide, lost_of_missing first entry (by decide +kernel)⟩
  · exact ⟨by decide, lost_of_missing first later (by decide +kernel)⟩
  · exact ⟨by decide, lost_of_missing first entry (by decide +kernel)⟩

end ImportRun

end Pigeon.EmailImport
