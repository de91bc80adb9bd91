import Pigeon.Library.Bisection
import Pigeon.Library.Text

/-! # Counting attachments without fetching them

The structures of new messages are fetched in batches. One that cannot be parsed fails its whole batch, which is then split
until that message stands alone.
-/
namespace Pigeon.EmailScan.Bodystructure

open Library

set_option autoImplicit false

def attachmentCountCap : Nat := 5000

def fetchBatchSize : Nat := 50

structure AttachmentCount where
  attachments : Nat
  unparsed : Nat
deriving DecidableEq, Repr

def withinCap (totalNew : Nat) : Bool := totalNew ≤ attachmentCountCap

/-- What is read of a `BodyStructure`: a part is a multipart, or a leaf with its disposition and the parameters of its
type. -/
inductive BodyStructure where
  | multipart (bodies : List BodyStructure)
  | leaf (disposition : Option Text) (params : Option (List (Text × Text)))

def eqIgnoreAsciiCase (first second : Text) : Bool := first.map Char.toLower == second.map Char.toLower

def countAttachments : BodyStructure → Nat
  | .multipart bodies => (bodies.map countAttachments).sum
  | .leaf disposition params =>
    let hasAttachmentDisposition := disposition.any fun ty => eqIgnoreAsciiCase ty "attachment".toList
    let hasContentTypeName := params.any fun params => params.any fun param => eqIgnoreAsciiCase param.1 "name".toList
    if hasAttachmentDisposition || hasContentTypeName then 1 else 0

/-- What the server answers to a fetch: an error, or messages until the stream ends or breaks off. -/
abbrev Response : Type := Except String (List (Except String (Option BodyStructure)))

/-- How the session answers a batch after those it was asked for before. -/
abbrev Session : Type := List (List UInt32) → List UInt32 → Response

def fetchError (mailbox err : String) : String := s!"failed to fetch BODYSTRUCTURE in '{mailbox}': {err}"

/-- The body of the loop over the messages of a response. -/
def addFetch (mailbox : String) (attachments : Nat) (fetch : Except String (Option BodyStructure)) : Except String Nat :=
  match fetch with
  | .error err => .error (fetchError mailbox err)
  | .ok structure? => .ok (attachments + (structure?.map countAttachments).getD 0)

def fetchBatch (mailbox : String) (response : Response) : Except String Nat :=
  match response with
  | .error err => .error (fetchError mailbox err)
  | .ok fetches => fetches.foldlM (addFetch mailbox) 0

inductive BisectOutcome where
  | fetched (attachments : Nat)
  | poisoned
  | retry (left right : List UInt32)
deriving DecidableEq, Repr

def bisectStep (batch : List UInt32) (result : Except String Nat) : BisectOutcome :=
  match result with
  | .ok attachments => .fetched attachments
  | .error _ =>
    if batch.length ≤ 1 then .poisoned
    else .retry (batch.take (batch.length / 2)) (batch.drop (batch.length / 2))

/-- The state of the loop: the batches asked for so far, the batches that are left with the next one first, and the count. -/
structure Counting where
  asked : List (List UInt32)
  work : List (List UInt32)
  count : AttachmentCount

namespace Counting

def start (uids : List UInt32) : Counting := ⟨[], uids.toChunks fetchBatchSize, ⟨0, 0⟩⟩

/-- The body of the loop. -/
def step (session : Session) (mailbox : String) (s : Counting) : Option Counting :=
  match s.work with
  | [] => none
  | batch :: rest =>
    match bisectStep batch (fetchBatch mailbox (session s.asked batch)) with
    | .fetched attachments =>
      some ⟨s.asked ++ [batch], rest, {s.count with attachments := s.count.attachments + attachments}⟩
    | .poisoned => some ⟨s.asked ++ [batch], rest, {s.count with unparsed := s.count.unparsed + batch.length}⟩
    | .retry left right => some ⟨s.asked ++ [batch], left :: right :: rest, s.count⟩

/-- At most so many rounds of the loop. -/
def loop (session : Session) (mailbox : String) : Nat → Counting → Counting
  | 0, s => s
  | rounds + 1, s =>
    match step session mailbox s with
    | none => s
    | some next => loop session mailbox rounds next

end Counting

/-- `count_new_attachments`, cut off after so many rounds: the count, if no batch is left by then. -/
def countNewAttachments (session : Session) (mailbox : String) (uids : List UInt32) (rounds : Nat) : Option AttachmentCount :=
  let last := Counting.loop session mailbox rounds (Counting.start uids)
  if last.work = [] then some last.count else none

/-! ## The loop bisects -/

/-- What a batch is answered with, if it can be parsed. -/
def answer (session : Session) (mailbox : String) (asked : List (List UInt32)) (batch : List UInt32) : Option Nat :=
  (fetchBatch mailbox (session asked batch)).toOption

/-- The count of the batches that are settled. -/
def settledCount (settled : List (List UInt32 × Option Nat)) : AttachmentCount where
  attachments := (settled.map fun entry => entry.2.getD 0).sum
  unparsed := (settled.map fun entry => if entry.2 = none then entry.1.length else 0).sum

structure Refines (s : Counting) (t : Bisection UInt32 Nat) : Prop where
  asked : s.asked = t.asked
  work : s.work = t.work
  count : s.count = settledCount t.settled

theorem settledCount_concat (settled : List (List UInt32 × Option Nat)) (entry : List UInt32 × Option Nat) :
    settledCount (settled ++ [entry]) =
      ⟨(settledCount settled).attachments + entry.2.getD 0,
        (settledCount settled).unparsed + if entry.2 = none then entry.1.length else 0⟩ := by
  simp only [settledCount, List.map_append, List.sum_append, List.map_singleton, List.sum_singleton]

section Loop

variable {session : Session} {mailbox : String} {s : Counting} {t : Bisection UInt32 Nat}

theorem refines_start (uids : List UInt32) : Refines (Counting.start uids) (Bisection.start (uids.toChunks fetchBatchSize)) :=
  ⟨rfl, rfl, rfl⟩

/-- A round of the loop is an attempt of the bisection. -/
theorem Refines.step (h : Refines s t) :
    Option.Rel Refines (s.step session mailbox) (t.step (answer session mailbox)) := by
  obtain ⟨asked, work, settled⟩ := t
  obtain ⟨sAsked, sWork, sCount⟩ := s
  obtain ⟨rfl, rfl, rfl⟩ : sAsked = asked ∧ sWork = work ∧ sCount = settledCount settled := ⟨h.asked, h.work, h.count⟩
  cases sWork with
  | nil => exact .none
  | cons batch rest =>
    rw [Counting.step, Bisection.step]
    cases hFetch : fetchBatch mailbox (session sAsked batch) with
    | ok attachments =>
      have hAnswer : answer session mailbox sAsked batch = some attachments := by rw [answer, hFetch]; rfl
      simp only [hFetch, hAnswer, bisectStep]
      refine .some ⟨rfl, rfl, ?_⟩
      rw [settledCount_concat]
      rfl
    | error err =>
      have hAnswer : answer session mailbox sAsked batch = none := by rw [answer, hFetch]; rfl
      rcases Nat.lt_or_ge 1 batch.length with hLong | hShort
      · simp only [hFetch, hAnswer, bisectStep, if_neg (Nat.not_le.mpr hLong)]
        exact .some ⟨rfl, rfl, rfl⟩
      · simp only [hFetch, hAnswer, bisectStep, if_pos hShort]
        refine .some ⟨rfl, rfl, ?_⟩
        rw [settledCount_concat]
        rfl

theorem Refines.loop (h : Refines s t) (rounds : Nat) :
    Refines (Counting.loop session mailbox rounds s) (Bisection.run (answer session mailbox) rounds t) := by
  induction rounds generalizing s t with
  | zero => exact h
  | succ rounds ih =>
    have hStep : Option.Rel Refines (s.step session mailbox) (t.step (answer session mailbox)) := h.step
    rw [Counting.loop, Bisection.run]
    cases hS : s.step session mailbox with
    | none =>
      cases hT : t.step (answer session mailbox) with
      | none => exact h
      | some other =>
        rw [hS, hT] at hStep
        cases hStep
    | some next =>
      cases hT : t.step (answer session mailbox) with
      | none =>
        rw [hS, hT] at hStep
        cases hStep
      | some other =>
        rw [hS, hT] at hStep
        cases hStep with
        | some hNext => exact ih hNext

end Loop

/-! ## What is counted -/

/-- The batches that were settled hold every UID once and in order. Each either was answered with its attachments or failed
as a UID alone. -/
structure Accounts (session : Session) (mailbox : String) (uids : List UInt32) (settled : List (List UInt32 × Option Nat))
    (count : AttachmentCount) : Prop where
  whole : settled.flatMap Prod.fst = uids
  answered : ∀ entry ∈ settled, ∃ asked, answer session mailbox asked entry.1 = entry.2
  lone : ∀ entry ∈ settled, entry.2 = none → entry.1.length ≤ 1
  attachments : count.attachments = (settled.map fun entry => entry.2.getD 0).sum
  unparsed : count.unparsed = (settled.map fun entry => if entry.2 = none then entry.1.length else 0).sum

/-- A batch fails if and only if it holds a poison UID, and is otherwise answered with the attachments of its messages. -/
structure Poisons (session : Session) (mailbox : String) (poison : UInt32 → Prop) (attachments : UInt32 → Nat) : Prop where
  fails : ∀ asked batch, (∃ uid ∈ batch, poison uid) → answer session mailbox asked batch = none
  counts : ∀ asked batch, (∀ uid ∈ batch, ¬ poison uid) → answer session mailbox asked batch = some (batch.map attachments).sum

/-- With enough rounds the loop ends, whatever the answers, and its count is that of the batches it settled. -/
theorem exists_settled (session : Session) (mailbox : String) (uids : List UInt32) {rounds : Nat}
    (hRounds : Bisection.weight (uids.toChunks fetchBatchSize) ≤ rounds) :
    ∃ t : Bisection UInt32 Nat, t.work = [] ∧ Bisection.Settles (answer session mailbox) uids t ∧
      countNewAttachments session mailbox uids rounds = some (settledCount t.settled) := by
  have hLoop : Refines (Counting.loop session mailbox rounds (Counting.start uids))
      (Bisection.run (answer session mailbox) rounds (Bisection.start (uids.toChunks fetchBatchSize))) :=
    (refines_start uids).loop rounds
  have hWork : (Bisection.run (answer session mailbox) rounds (Bisection.start (uids.toChunks fetchBatchSize))).work = [] :=
    Bisection.run_work hRounds
  have hSettles : Bisection.Settles (answer session mailbox) (uids.toChunks fetchBatchSize).flatten
      (Bisection.run (answer session mailbox) rounds (Bisection.start (uids.toChunks fetchBatchSize))) :=
    (Bisection.settles_start _).run rounds
  rw [flatten_toChunks] at hSettles
  refine ⟨_, hWork, hSettles, ?_⟩
  change (if _ = [] then some _ else none) = _
  rw [hLoop.work, if_pos hWork, hLoop.count]

theorem accounts_of_settles {session : Session} {mailbox : String} {uids : List UInt32} {t : Bisection UInt32 Nat}
    (hWork : t.work = []) (h : Bisection.Settles (answer session mailbox) uids t) :
    Accounts session mailbox uids t.settled (settledCount t.settled) where
  whole := by
    have hWhole := h.whole
    rwa [hWork, List.flatten_nil, List.append_nil] at hWhole
  answered := h.answered
  lone := h.lone
  attachments := rfl
  unparsed := rfl

/-- What is settled, where batches fail for their poison UIDs alone. -/
structure Told (poison : UInt32 → Prop) (attachments : UInt32 → Nat) (entry : List UInt32 × Option Nat) : Prop where
  unparsed : entry.2 = none → ∃ uid, entry.1 = [uid] ∧ poison uid
  counted : ∀ result, entry.2 = some result → (∀ uid ∈ entry.1, ¬ poison uid) ∧ result = (entry.1.map attachments).sum

theorem Poisons.told {session : Session} {mailbox : String} {poison : UInt32 → Prop} {attachments : UInt32 → Nat}
    (h : Poisons session mailbox poison attachments) {uids : List UInt32} {t : Bisection UInt32 Nat}
    (hSettles : Bisection.Settles (answer session mailbox) uids t) {entry : List UInt32 × Option Nat}
    (hEntry : entry ∈ t.settled) : Told poison attachments entry := by
  have hFails (asked : List (List UInt32)) (batch : List UInt32) :
      answer session mailbox asked batch = none ↔ ∃ uid ∈ batch, poison uid := by
    constructor
    · intro hNone
      by_contra hClean
      rw [h.counts asked batch fun uid hUid hPoison => hClean ⟨uid, hUid, hPoison⟩] at hNone
      cases hNone
    · exact h.fails asked batch
  obtain ⟨hLone, hClean⟩ := hSettles.lone_of_poison hFails hEntry
  refine ⟨hLone, ?_⟩
  intro result hResult
  have hNoPoison := hClean (by rw [hResult]; exact Option.some_ne_none result)
  obtain ⟨asked, hAnswer⟩ := hSettles.answered entry hEntry
  rw [h.counts asked entry.1 hNoPoison, hResult] at hAnswer
  exact ⟨hNoPoison, (Option.some.inj hAnswer).symm⟩

/-- Of settled batches that fail for their poison UIDs, the count is that of the UIDs one by one. -/
theorem settledCount_of_told {poison : UInt32 → Prop} [DecidablePred poison] {attachments : UInt32 → Nat}
    {settled : List (List UInt32 × Option Nat)} (h : ∀ entry ∈ settled, Told poison attachments entry) :
    (settledCount settled).attachments =
        (((settled.flatMap Prod.fst).filter fun uid => ¬ poison uid).map attachments).sum ∧
      (settledCount settled).unparsed = (settled.flatMap Prod.fst).countP fun uid => poison uid := by
  induction settled with
  | nil => exact ⟨rfl, rfl⟩
  | cons entry settled ih =>
    obtain ⟨hEntry, hRest⟩ := List.forall_mem_cons.mp h
    obtain ⟨hAttachments, hUnparsed⟩ := ih hRest
    have hAttachmentsCons : (settledCount (entry :: settled)).attachments =
        entry.2.getD 0 + (settledCount settled).attachments := List.sum_cons
    have hUnparsedCons : (settledCount (entry :: settled)).unparsed =
        (if entry.2 = none then entry.1.length else 0) + (settledCount settled).unparsed := List.sum_cons
    rw [hAttachmentsCons, hUnparsedCons, hAttachments, hUnparsed, List.flatMap_cons, List.filter_append, List.map_append,
      List.sum_append, List.countP_append]
    obtain ⟨batch, result⟩ := entry
    cases result with
    | none =>
      obtain ⟨uid, rfl, hPoison⟩ := hEntry.unparsed rfl
      simp [hPoison]
    | some result =>
      obtain ⟨hClean, hResult⟩ := hEntry.counted result rfl
      have hFilter : (batch.filter fun uid => ¬ poison uid) = batch := List.filter_eq_self.mpr (by simpa using hClean)
      have hCount : (batch.countP fun uid => poison uid) = 0 := List.countP_eq_zero.mpr (by simpa using hClean)
      rw [hFilter, hCount, hResult]
      exact ⟨rfl, rfl⟩

/-- For every mailbox and however its batches fail, the count comes to an end and accounts for every UID once; where they
fail for poison UIDs alone, these are the unparsed ones and the attachments are those of the others. -/
theorem countNewAttachments_spec (session : Session) (mailbox : String) (uids : List UInt32) {rounds : Nat}
    (hRounds : Bisection.weight (uids.toChunks fetchBatchSize) ≤ rounds) :
    ∃ count settled, countNewAttachments session mailbox uids rounds = some count ∧
      Accounts session mailbox uids settled count ∧
      ∀ (poison : UInt32 → Prop) [DecidablePred poison] (attachments : UInt32 → Nat),
        Poisons session mailbox poison attachments →
          count.attachments = ((uids.filter fun uid => ¬ poison uid).map attachments).sum ∧
            count.unparsed = uids.countP fun uid => poison uid := by
  obtain ⟨t, hWork, hSettles, hCount⟩ := exists_settled session mailbox uids hRounds
  have hAccounts := accounts_of_settles hWork hSettles
  refine ⟨settledCount t.settled, t.settled, hCount, hAccounts, ?_⟩
  intro poison _ attachments hPoison
  have hUids := settledCount_of_told fun entry hEntry => hPoison.told hSettles hEntry
  rwa [hAccounts.whole] at hUids

/-! ## A mailbox with messages that cannot be parsed -/

theorem foldlM_addFetch (mailbox : String) (structures : List BodyStructure) (sum : Nat) :
    (structures.map fun found => Except.ok (some found)).foldlM (addFetch mailbox) sum =
      .ok (sum + (structures.map countAttachments).sum) := by
  induction structures generalizing sum with
  | nil => rfl
  | cons found structures ih =>
    rw [List.map_cons, List.foldlM_cons, List.map_cons, List.sum_cons, ← Nat.add_assoc]
    exact ih (sum + countAttachments found)

/-- The messages of a mailbox, of which some break every response they are part of. -/
def mailboxSession (poison : UInt32 → Bool) (messages : UInt32 → BodyStructure) : Session := fun _ batch =>
  if batch.any poison then .error "unparseable" else .ok ((batch.map messages).map fun found => .ok (some found))

theorem poisons_mailboxSession (poison : UInt32 → Bool) (messages : UInt32 → BodyStructure) (mailbox : String) :
    Poisons (mailboxSession poison messages) mailbox (poison · = true) fun uid => countAttachments (messages uid) where
  fails := by
    intro asked batch hPoison
    rw [answer, mailboxSession, if_pos (List.any_eq_true.mpr hPoison)]
    rfl
  counts := by
    intro asked batch hClean
    have hNone : ¬ batch.any poison = true := by
      rw [List.any_eq_true]
      rintro ⟨uid, hUid, hPoison⟩
      exact hClean uid hUid hPoison
    rw [answer, mailboxSession, if_neg hNone, fetchBatch, foldlM_addFetch, List.map_map, Nat.zero_add]
    rfl

theorem countNewAttachments_spec_bounce :
    ∃ count, countNewAttachments (mailboxSession (· == 3) fun _ => .leaf (some "attachment".toList) none) "INBOX"
        [1, 2, 3, 4, 5] 9 = some count ∧
      count.attachments = (([1, 2, 3, 4, 5].filter fun uid : UInt32 => ¬ (uid == 3) = true).map fun _ =>
        countAttachments (.leaf (some "attachment".toList) none)).sum ∧
      count.unparsed = [1, 2, 3, 4, 5].countP fun uid : UInt32 => (uid == 3) = true := by
  have hRounds : Bisection.weight (([1, 2, 3, 4, 5] : List UInt32).toChunks fetchBatchSize) ≤ 9 := by decide
  obtain ⟨count, -, hCount, -, hPoisoned⟩ := countNewAttachments_spec
    (mailboxSession (· == 3) fun _ => .leaf (some "attachment".toList) none) "INBOX" [1, 2, 3, 4, 5] hRounds
  exact ⟨count, hCount, hPoisoned _ _ (poisons_mailboxSession _ _ _)⟩

end Pigeon.EmailScan.Bodystructure
