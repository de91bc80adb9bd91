import Pigeon.EmailImport.Deliver
import Pigeon.EmailImport.Gather

/-! # What a seeded ledger says about the destination

The seed reads the keys below the identity's prefix back into messages. The reader accepts every
spelling of a number, the writer has one, and a mailbox whose path ends like an attachment
directory has other messages' attachments in its folder.
-/
namespace Pigeon.EmailImport

open Library Keyring

set_option autoImplicit false

namespace MailboxState

/-- A message of the mailbox as it is now; no key depends on the body. -/
def message (state : MailboxState) (uid : UInt32) : Message where
  mailbox := state.mailbox
  delimiter := state.delimiter
  uidvalidity := state.uidvalidity
  uid := uid
  body := []

def Alone (states : List MailboxState) (state : MailboxState) : Prop :=
  (states.filter fun other => other.mailboxRelpath = state.mailboxRelpath) = [state]

/-- The listed path is in the folder of the mailbox and its name is read as this UID. -/
def NamesUid (state : MailboxState) (path : Text) (uid : UInt32) : Prop :=
  ∃ stem, Text.parseU32 stem = some uid ∧
    (path = relativeKey state.mailboxRelpath ++ (stem ++ ".eml".toList) ∨
      state.mailboxRelpath = [] ∧ path = '/' :: (stem ++ ".eml".toList))

end MailboxState

def listedKey (email path : Text) : Text := sanitizeSegment email ++ '/' :: path

def AttachmentKey (email key : Text) : Prop := ∃ (m : Message) (name : Text), '/' ∉ name ∧ key = m.attachmentKey email name

/-- The seed has the rows of the listed messages, and no other object makes a row. -/
structure SeedExact (email : Text) (listing : List Text) (states : List MailboxState) (ingestedAt : Text) : Prop where
  rows : ∀ key, key ∈ (seedFromListing listing (states.map MailboxState.seedMailbox) ingestedAt).1 ↔
    ∃ state ∈ states, ∃ uid, key = (state.mailbox, state.uidvalidity, uid) ∧ state.Alone states ∧
      (state.message uid).emlKey email ∈ listing.map (listedKey email)
  attachments : ∀ path ∈ listing, AttachmentKey email (listedKey email path) →
    seedEntry (states.map MailboxState.seedMailbox) ingestedAt path = none
  nested : ∀ path ∈ listing, ∀ m : Message, listedKey email path = m.emlKey email → ∀ entry,
    seedEntry (states.map MailboxState.seedMailbox) ingestedAt path = some entry →
      ∃ state ∈ states, state.mailbox = entry.mailbox ∧ state.mailboxRelpath = m.relpath

/-- Every listed path that names a UID in the folder of one mailbox is no attachment and is listed
in the writer's spelling too. -/
def SpelledAsWritten (email : Text) (listing : List Text) (states : List MailboxState) : Prop :=
  ∀ path ∈ listing, ∀ state ∈ states, state.Alone states → ∀ uid, state.NamesUid path uid →
    (state.message uid).emlKey email ∈ listing.map (listedKey email) ∧ ¬ AttachmentKey email (listedKey email path)

/-! ## Folders -/

section Folders

variable {states : List MailboxState} {state other : MailboxState} {path ingestedAt : Text} {uid : UInt32}

theorem ne_nil_of_mem_mailboxRelpath {segment : Text} (h : segment ∈ state.mailboxRelpath) : segment ≠ [] :=
  (state.message 0).ne_nil_of_mem_relpath h

theorem relpathKey_eq_nil (state : MailboxState) : state.seedMailbox.relpathKey = [] ↔ state.mailboxRelpath = [] := by
  constructor
  · intro h
    cases hPath : state.mailboxRelpath with
    | nil => rfl
    | cons segment rest =>
      have hSegment : segment ≠ [] := ne_nil_of_mem_mailboxRelpath (hPath ▸ List.mem_cons_self)
      rw [MailboxState.seedMailbox, hPath] at h
      cases rest with
      | nil => exact absurd (by simpa using h) hSegment
      | cons next rest => simp at h
  · intro h
    rw [MailboxState.seedMailbox, h]
    rfl

theorem relativeKey_of_ne_nil (h : state.mailboxRelpath ≠ []) :
    relativeKey state.mailboxRelpath = state.seedMailbox.relpathKey ++ ['/'] := by
  rw [relativeKey]
  exact if_neg fun hNil => h ((relpathKey_eq_nil state).mp hNil)

theorem relpathKey_inj :
    state.seedMailbox.relpathKey = other.seedMailbox.relpathKey ↔ state.mailboxRelpath = other.mailboxRelpath := by
  constructor
  · intro h
    by_cases hNil : state.mailboxRelpath = []
    · rw [(relpathKey_eq_nil state).mpr hNil] at h
      rw [hNil, (relpathKey_eq_nil other).mp h.symm]
    · have hOther : other.mailboxRelpath ≠ [] := by
        intro hOther
        rw [(relpathKey_eq_nil other).mpr hOther] at h
        exact hNil ((relpathKey_eq_nil state).mp h)
      have hFree (state : MailboxState) : ∀ segment ∈ state.mailboxRelpath, '/' ∉ segment :=
        (state.message 0).not_mem_relpath (by decide) (by decide)
      exact Text.intercalate_injective hNil hOther (hFree state) (hFree other) h
  · intro h
    rw [MailboxState.seedMailbox, MailboxState.seedMailbox, h]

theorem not_mem_emlStem {stem : Text} (hUid : Text.parseU32 stem = some uid) : '/' ∉ stem ++ ".eml".toList := by
  intro hMem
  obtain hStem | hSuffix := List.mem_append.mp hMem
  · exact Text.not_mem_of_parseU32 hUid (by decide) (by decide) hStem
  · revert hSuffix
    decide

theorem namesUid_iff : state.NamesUid path uid ↔ ∃ stem, Text.parseU32 stem = some uid ∧
    (Text.rsplitOnce '/' path).getD ([], path) = (state.seedMailbox.relpathKey, stem ++ ".eml".toList) := by
  constructor
  · rintro ⟨stem, hUid, rfl | ⟨hRoot, rfl⟩⟩
    · refine ⟨stem, hUid, (Text.getD_rsplitOnce_iff (not_mem_emlStem hUid)).mpr ?_⟩
      by_cases hRoot : state.mailboxRelpath = []
      · rw [hRoot]
        exact .inl ⟨(relpathKey_eq_nil state).mpr hRoot, rfl⟩
      · rw [relativeKey_of_ne_nil hRoot, List.append_assoc]
        exact .inr rfl
    · refine ⟨stem, hUid, (Text.getD_rsplitOnce_iff (not_mem_emlStem hUid)).mpr (.inr ?_)⟩
      rw [(relpathKey_eq_nil state).mpr hRoot]
      rfl
  · rintro ⟨stem, hUid, hPieces⟩
    refine ⟨stem, hUid, ?_⟩
    obtain ⟨hNil, rfl⟩ | rfl := (Text.getD_rsplitOnce_iff (not_mem_emlStem hUid)).mp hPieces
    · rw [(relpathKey_eq_nil state).mp hNil]
      exact .inl rfl
    · by_cases hRoot : state.mailboxRelpath = []
      · rw [(relpathKey_eq_nil state).mpr hRoot]
        exact .inr ⟨hRoot, rfl⟩
      · rw [relativeKey_of_ne_nil hRoot, List.append_assoc]
        exact .inl rfl

theorem filter_seedMailbox (states : List MailboxState) (state : MailboxState) :
    (states.map MailboxState.seedMailbox).filter (fun mailbox => mailbox.relpathKey = state.seedMailbox.relpathKey) =
      (states.filter fun other => other.mailboxRelpath = state.mailboxRelpath).map MailboxState.seedMailbox := by
  rw [List.filter_map]
  simp only [Function.comp_def, relpathKey_inj]

theorem seedEntry_eq_some {entry : LedgerEntry} :
    seedEntry (states.map MailboxState.seedMailbox) ingestedAt path = some entry ↔
      ∃ state ∈ states, state.Alone states ∧ ∃ uid, state.NamesUid path uid ∧
        entry = ⟨state.mailbox, state.uidvalidity, uid, ingestedAt⟩ := by
  constructor
  · intro h
    simp only [seedEntry] at h
    split at h
    · rename_i uid owner hUid hOwners
      cases h
      obtain ⟨stem, hStem, hUid⟩ := Option.bind_eq_some_iff.mp hUid
      rw [Text.stripSuffix_eq_some] at hStem
      have hOwner := List.mem_filter.mp (hOwners ▸ List.mem_cons_self)
      obtain ⟨state, hState, rfl⟩ := List.mem_map.mp hOwner.1
      have hDir := of_decide_eq_true hOwner.2
      rw [← hDir, filter_seedMailbox] at hOwners
      obtain ⟨only, hOnly, -⟩ := List.map_eq_singleton_iff.mp hOwners
      have hMem : state ∈ states.filter fun other => other.mailboxRelpath = state.mailboxRelpath :=
        List.mem_filter.mpr ⟨hState, decide_eq_true rfl⟩
      rw [hOnly, List.mem_singleton] at hMem
      subst hMem
      refine ⟨state, hState, hOnly, uid, namesUid_iff.mpr ⟨stem, hUid, ?_⟩, rfl⟩
      rw [hDir, ← hStem]
    · cases h
  · rintro ⟨state, hState, hAlone, uid, hNames, rfl⟩
    obtain ⟨stem, hUid, hPieces⟩ := namesUid_iff.mp hNames
    have hStem := Text.stripSuffix_eq_some.mpr (rfl : stem ++ ".eml".toList = _)
    simp only [seedEntry, hPieces, hStem, filter_seedMailbox, Option.bind_some, hUid]
    rw [hAlone]
    rfl

theorem mem_seed {listing : List Text} {mailboxes : List SeedMailbox} {key : LedgerKey} :
    key ∈ (seedFromListing listing mailboxes ingestedAt).1 ↔
      ∃ path ∈ listing, ∃ entry, seedEntry mailboxes ingestedAt path = some entry ∧ entry.key = key := by
  simp only [seedFromListing, Ledger.mem_insertAll, List.mem_filterMap, Std.ExtTreeMap.not_mem_empty, or_false]
  constructor
  · rintro ⟨entry, ⟨path, hPath, hEntry⟩, hKey⟩
    exact ⟨path, hPath, entry, hEntry, hKey⟩
  · rintro ⟨path, hPath, entry, hEntry, hKey⟩
    exact ⟨entry, ⟨path, hPath, hEntry⟩, hKey⟩

/-! ## Keys -/

theorem listedKey_inj {email other : Text} : listedKey email path = listedKey email other ↔ path = other := by
  simp [listedKey]

theorem emlKey_message (email : Text) (state : MailboxState) (uid : UInt32) :
    (state.message uid).emlKey email =
      listedKey email (relativeKey state.mailboxRelpath ++ (Text.showU32 uid ++ ".eml".toList)) := rfl

theorem namesUid_of_emlKey {email : Text} (h : listedKey email path = (state.message uid).emlKey email) :
    state.NamesUid path uid := by
  rw [emlKey_message, listedKey_inj] at h
  exact ⟨Text.showU32 uid, Text.parseU32_showU32 uid, .inl h⟩

theorem relpath_eq_of_namesUid {otherUid : UInt32} (h : state.NamesUid path uid) (hOther : other.NamesUid path otherUid) :
    state.mailboxRelpath = other.mailboxRelpath := by
  obtain ⟨stem, -, hPieces⟩ := namesUid_iff.mp h
  obtain ⟨otherStem, -, hOtherPieces⟩ := namesUid_iff.mp hOther
  rw [hPieces] at hOtherPieces
  exact relpathKey_inj.mp (congrArg Prod.fst hOtherPieces)

end Folders

/-- The seed is exact on distinct mailboxes exactly when every listed path that names a UID in the
folder of one of them is spelled as written, or comes with the path that is, and is no attachment. -/
theorem seedExact_iff (email : Text) (listing : List Text) (states : List MailboxState) (ingestedAt : Text)
    (hNames : (states.map MailboxState.mailbox).Nodup) :
    SeedExact email listing states ingestedAt ↔ SpelledAsWritten email listing states := by
  constructor
  · intro hExact path hPath state hState hAlone uid hUid
    have hEntry : seedEntry (states.map MailboxState.seedMailbox) ingestedAt path =
        some ⟨state.mailbox, state.uidvalidity, uid, ingestedAt⟩ :=
      seedEntry_eq_some.mpr ⟨state, hState, hAlone, uid, hUid, rfl⟩
    constructor
    · obtain ⟨other, hOther, otherUid, hKey, -, hListed⟩ :=
        (hExact.rows _).mp (mem_seed.mpr ⟨path, hPath, _, hEntry, rfl⟩)
      obtain ⟨hMailbox, -, rfl⟩ : state.mailbox = other.mailbox ∧ state.uidvalidity = other.uidvalidity ∧ uid = otherUid := by
        simpa [LedgerEntry.key] using hKey
      obtain rfl := List.inj_on_of_nodup_map hNames hState hOther hMailbox
      exact hListed
    · intro hAttachment
      rw [hExact.attachments path hPath hAttachment] at hEntry
      cases hEntry
  · intro hSpelled
    refine ⟨fun key => ⟨?_, ?_⟩, ?_, ?_⟩
    · intro hKey
      obtain ⟨path, hPath, entry, hEntry, rfl⟩ := mem_seed.mp hKey
      obtain ⟨state, hState, hAlone, uid, hUid, rfl⟩ := seedEntry_eq_some.mp hEntry
      exact ⟨state, hState, uid, rfl, hAlone, (hSpelled path hPath state hState hAlone uid hUid).1⟩
    · rintro ⟨state, hState, uid, rfl, hAlone, hListed⟩
      obtain ⟨path, hPath, hWritten⟩ := List.mem_map.mp hListed
      have hUid := namesUid_of_emlKey hWritten
      exact mem_seed.mpr ⟨path, hPath, _, seedEntry_eq_some.mpr ⟨state, hState, hAlone, uid, hUid, rfl⟩, rfl⟩
    · intro path hPath hAttachment
      by_contra hSome
      obtain ⟨entry, hEntry⟩ := Option.ne_none_iff_exists'.mp hSome
      obtain ⟨state, hState, hAlone, uid, hUid, rfl⟩ := seedEntry_eq_some.mp hEntry
      exact (hSpelled path hPath state hState hAlone uid hUid).2 hAttachment
    · intro path hPath m hWritten entry hEntry
      obtain ⟨state, hState, hAlone, uid, hUid, rfl⟩ := seedEntry_eq_some.mp hEntry
      have hOwn : MailboxState.NamesUid ⟨m.mailbox, m.delimiter, m.uidvalidity, []⟩ path m.uid :=
        namesUid_of_emlKey hWritten
      exact ⟨state, hState, rfl, relpath_eq_of_namesUid hUid hOwn⟩

/-- The attachment directory of a message of `INBOX` is the folder of a third mailbox. -/
theorem seedExact_iff_inbox :
    ¬ SpelledAsWritten "a@b.c".toList ["inbox/7.eml".toList, "inbox/7/attachments/3.eml".toList]
      [⟨"INBOX".toList, some ['/'], 7, [7]⟩, ⟨"INBOX/7/attachments".toList, some ['/'], 8, [3]⟩] := by
  intro hSpelled
  have hExact := (seedExact_iff _ _ _ "2026-10-20T00:00:00Z".toList (by decide +kernel)).mpr hSpelled
  have hNone := hExact.attachments "inbox/7/attachments/3.eml".toList (by simp)
    ⟨⟨"INBOX".toList, some ['/'], 7, 7, []⟩, "3.eml".toList, by decide, by decide +kernel⟩
  revert hNone
  decide +kernel

/-- An object that was put there by another program is taken for the message of UID 7. -/
theorem seed_takes_padded_number :
    ¬ SeedExact "a@b.c".toList ["inbox/007.eml".toList] [⟨"INBOX".toList, some ['/'], 7, [7]⟩] "2026-10-20".toList := by
  intro hExact
  have hRow := (hExact.rows ("INBOX".toList, 7, 7)).mp (by decide +kernel)
  obtain ⟨state, hState, uid, hKey, -, hListed⟩ := hRow
  obtain rfl := List.mem_singleton.mp hState
  obtain rfl : 7 = uid := by simpa using hKey
  revert hListed
  decide +kernel

end Pigeon.EmailImport
