import Pigeon.EmailImport.Sink
import Pigeon.EmailImport.Ledger

/-! # What the server has, what counts as delivered and what is left to do

A mailbox is read as its UIDVALIDITY and its UIDs. What is pending of it is every UID that
does not count as delivered: by the ledger, which is seeded from the destination's listing
the first time, or by the local checkpoint.
-/
namespace Pigeon.EmailImport

open Library

set_option autoImplicit false

structure MailboxState where
  mailbox : Text
  delimiter : Option Text
  uidvalidity : UInt32
  serverUids : List UInt32
deriving DecidableEq, Repr

structure PendingMailbox where
  mailbox : Text
  mailboxRelpath : Path
  uidvalidity : UInt32
  uids : List UInt32
deriving DecidableEq, Repr

structure SeedMailbox where
  mailbox : Text
  relpathKey : Text
  uidvalidity : UInt32
deriving DecidableEq, Repr

namespace MailboxState

def mailboxRelpath (state : MailboxState) : Path := sanitizeMailboxPath state.mailbox state.delimiter

def seedMailbox (state : MailboxState) : SeedMailbox where
  mailbox := state.mailbox
  relpathKey := ['/'].intercalate state.mailboxRelpath
  uidvalidity := state.uidvalidity

def keys (state : MailboxState) : List LedgerKey :=
  state.serverUids.map fun uid => (state.mailbox, state.uidvalidity, uid)

end MailboxState

def PendingMailbox.keys (pending : PendingMailbox) : List LedgerKey :=
  pending.uids.map fun uid => (pending.mailbox, pending.uidvalidity, uid)

/-- The loop at the end of `gather_pending`; `uidsFor` is what counts as delivered. -/
def pendingMailboxes (uidsFor : MailboxState → List UInt32) (states : List MailboxState) : List PendingMailbox :=
  states.filterMap fun state =>
    let pendingUids := missingUids state.serverUids (uidsFor state)
    if pendingUids.isEmpty then none
    else some { mailbox := state.mailbox, mailboxRelpath := state.mailboxRelpath, uidvalidity := state.uidvalidity,
                uids := pendingUids }

/-- The server's messages that the run leaves out of its pending work. -/
def excludedKeys (states : List MailboxState) (pending : List PendingMailbox) : List LedgerKey :=
  (states.flatMap MailboxState.keys).filter fun key => key ∉ pending.flatMap PendingMailbox.keys

theorem mem_pendingMailboxes {uidsFor : MailboxState → List UInt32} {states : List MailboxState}
    {pending : PendingMailbox} :
    pending ∈ pendingMailboxes uidsFor states ↔
      ∃ state ∈ states, missingUids state.serverUids (uidsFor state) ≠ [] ∧
        pending = { mailbox := state.mailbox, mailboxRelpath := state.mailboxRelpath, uidvalidity := state.uidvalidity,
                    uids := missingUids state.serverUids (uidsFor state) } := by
  rw [pendingMailboxes, List.mem_filterMap]
  constructor
  · rintro ⟨state, hState, hPending⟩
    dsimp only at hPending
    split at hPending
    · cases hPending
    · rename_i hSome
      cases hPending
      exact ⟨state, hState, by simpa using hSome, rfl⟩
  · rintro ⟨state, hState, hSome, rfl⟩
    exact ⟨state, hState, if_neg (by simpa using hSome)⟩

theorem mem_excludedKeys {uidsFor : MailboxState → List UInt32} {states : List MailboxState} {key : LedgerKey}
    (h : key ∈ excludedKeys states (pendingMailboxes uidsFor states)) :
    ∃ state ∈ states, ∃ uid ∈ uidsFor state, key = (state.mailbox, state.uidvalidity, uid) := by
  obtain ⟨hServer, hLeft⟩ := List.mem_filter.mp h
  obtain ⟨state, hState, hKey⟩ := List.mem_flatMap.mp hServer
  obtain ⟨uid, hUid, rfl⟩ := List.mem_map.mp hKey
  refine ⟨state, hState, uid, ?_, rfl⟩
  by_contra hMissing
  have hPending : uid ∈ missingUids state.serverUids (uidsFor state) :=
    (mem_missingUids _ _ _).mpr ⟨hUid, hMissing⟩
  have hMem := mem_pendingMailboxes.mpr ⟨state, hState, List.ne_nil_of_mem hPending, rfl⟩
  have hCovered : (state.mailbox, state.uidvalidity, uid) ∈
      (pendingMailboxes uidsFor states).flatMap PendingMailbox.keys :=
    List.mem_flatMap.mpr ⟨_, hMem, List.mem_map_of_mem hPending⟩
  simp [hCovered] at hLeft

/-! ## The seed -/

structure UtcTime where
  year : Nat
  month : Nat
  day : Nat
  hour : Nat
  minute : Nat
  second : Nat
deriving DecidableEq, Repr

/-- `YYYY-MM-DDTHH:MM:SSZ` -/
def utcTimestamp (now : UtcTime) : Text :=
  let padded (width n : Nat) : Text := (Nat.toDigits 10 n).leftpad width '0'
  padded 4 now.year ++ '-' :: padded 2 now.month ++ '-' :: padded 2 now.day ++
    'T' :: padded 2 now.hour ++ ':' :: padded 2 now.minute ++ ':' :: padded 2 now.second ++ ['Z']

/-- The row of one listed object: an `.eml` in the folder of exactly one mailbox. -/
def seedEntry (mailboxes : List SeedMailbox) (ingestedAt path : Text) : Option LedgerEntry :=
  let (dir, file) := (Text.rsplitOnce '/' path).getD ([], path)
  match (Text.stripSuffix ".eml".toList file).bind Text.parseU32,
    mailboxes.filter fun mailbox => mailbox.relpathKey = dir with
  | some uid, [owner] => some { mailbox := owner.mailbox, uidvalidity := owner.uidvalidity, uid, ingestedAt }
  | _, _ => none

/-- The first ledger, and the folders that more than one mailbox sanitizes to. -/
def seedFromListing (listing : List Text) (mailboxes : List SeedMailbox) (ingestedAt : Text) : Ledger × List Text :=
  let relpaths := mailboxes.map SeedMailbox.relpathKey
  (Ledger.insertAll ∅ (listing.filterMap (seedEntry mailboxes ingestedAt)),
    (relpaths.dedup.filter fun relpath => 1 < relpaths.count relpath).mergeSort fun a b => decide (a ≤ b))

theorem mem_utcTimestamp {now : UtcTime} {c : Char} (h : c ∈ utcTimestamp now) :
    c.isDigit ∨ c ∈ "-T:Z".toList := by
  have hPadded (width n : Nat) (hMem : c ∈ (Nat.toDigits 10 n).leftpad width '0') : c.isDigit := by
    obtain hZero | hDigit := List.mem_append.mp hMem
    · rw [List.eq_of_mem_replicate hZero]
      decide
    · exact Nat.isDigit_of_mem_toDigits (by decide) (by decide) hDigit
  simp only [utcTimestamp, List.mem_append, List.mem_cons, List.not_mem_nil, or_false] at h
  grind

theorem not_mem_utcTimestamp (now : UtcTime) {c : Char} (hDigit : c.isDigit = false) (hSign : c ∉ "-T:Z".toList) :
    c ∉ utcTimestamp now :=
  Text.not_mem_of_digits (fun _ hMem => mem_utcTimestamp hMem) hDigit hSign

theorem getLast?_utcTimestamp (now : UtcTime) : (utcTimestamp now).getLast? = some 'Z' := by
  rw [utcTimestamp, List.getLast?_concat]

theorem mem_seedEntry {mailboxes : List SeedMailbox} {ingestedAt path : Text} {entry : LedgerEntry}
    (h : seedEntry mailboxes ingestedAt path = some entry) :
    entry.ingestedAt = ingestedAt ∧ ∃ owner ∈ mailboxes, owner.mailbox = entry.mailbox ∧
      owner.uidvalidity = entry.uidvalidity := by
  simp only [seedEntry] at h
  split at h
  · rename_i uid owner _ hOwners
    cases h
    refine ⟨rfl, owner, ?_, rfl, rfl⟩
    exact (List.mem_filter.mp (hOwners ▸ List.mem_cons_self)).1
  · cases h

end Pigeon.EmailImport
