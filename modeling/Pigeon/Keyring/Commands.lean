import Pigeon.Library.Runs
import Pigeon.Library.Fallible
import Pigeon.Keyring.Identity
import Pigeon.Keyring.Store
import Pigeon.Keyring.Login

/-! # The keyring commands, run by any number of processes

A command loads the file, asks the operator, tries the settings out and writes the whole file back. Nothing locks the file, so the
commands of several processes interleave, and a write may fail in the middle.
-/
namespace Pigeon.Keyring

open Library

set_option autoImplicit false

structure EmailIdentity where
  aliasName : Text
  email : Text
  provider : Provider
  host : Text
  port : UInt16
  secret : Text
  maxImapConnections : Option UInt32
  security : Option ImapSecurity
deriving DecidableEq, Repr

inductive KeyringEntry where
  | email (identity : EmailIdentity)
  | bucket (bucketConfig : BucketConfig)
deriving DecidableEq, Repr

structure LoginSettings where
  host : Text
  port : UInt16
  email : Text
  secret : Text
  security : ImapSecurity
  acceptInvalidCerts : Bool
deriving DecidableEq, Repr

/-- What a command finds outside: the server it logs in to, and whether the bucket can be listed. -/
structure World where
  server : List Exchange → Request → Option Reply
  checkBucketReachable : BucketConfig → Except Text Unit

def World.verifyLogin (world : World) (settings : LoginSettings) : Except Text Unit :=
  (Keyring.verifyLogin settings.host settings.port settings.email settings.secret settings.security settings.acceptInvalidCerts).result
    world.server []

namespace EmailIdentity

/-- The settings that a job connects with. -/
def settings (identity : EmailIdentity) : LoginSettings where
  host := identity.host
  port := identity.port
  email := identity.email
  secret := identity.secret
  security := effectiveSecurity identity.provider identity.port identity.security
  acceptInvalidCerts := identity.provider.acceptsInvalidCerts

end EmailIdentity

namespace KeyringEntry

def aliasName : KeyringEntry → Text
  | .email identity => identity.aliasName
  | .bucket bucketConfig => bucketConfig.aliasName

/-- What the generated config and the secret overrides use of an entry. -/
def entry : KeyringEntry → Entry
  | .email identity => .email { aliasName := identity.aliasName, secret := identity.secret }
  | .bucket bucketConfig => .bucket bucketConfig

/-- The entry was tried out as it is stored. -/
def VerifiedIn (world : World) : KeyringEntry → Prop
  | .email identity => world.verifyLogin identity.settings = .ok ()
  | .bucket bucketConfig => world.checkBucketReachable bucketConfig = .ok ()

/-- A stored cap leaves room for one connection. -/
def CapOk : KeyringEntry → Prop
  | .email identity => ∀ cap ∈ identity.maxImapConnections, 1 ≤ cap
  | .bucket _ => True

end KeyringEntry

/-- What the file holds; a missing file holds nothing. -/
structure KeyringFile where
  entries : List KeyringEntry
deriving DecidableEq, Repr

namespace KeyringFile

def empty : KeyringFile := ⟨[]⟩

def containsAlias (file : KeyringFile) (aliasName : Text) : Bool := file.entries.any fun entry => entry.aliasName == aliasName

def push (file : KeyringFile) (entry : KeyringEntry) : KeyringFile := ⟨file.entries ++ [entry]⟩

def find (file : KeyringFile) (aliasName : Text) : Option KeyringEntry :=
  file.entries.find? fun entry => entry.aliasName == aliasName

def remove (file : KeyringFile) (aliasName : Text) : KeyringFile :=
  ⟨file.entries.filter fun entry => entry.aliasName != aliasName⟩

/-- `prompt_select`; the index is the operator's, out of the labels shown. -/
def promptSelect (file : KeyringFile) (selection : Except Text Nat) : Except Text KeyringEntry :=
  match file.entries with
  | [] => .error "no keyring entries configured; run 'pigeon keyring add' first".toList
  | [only] => .ok only
  | entries => do
    let index ← selection
    match entries[index]? with
    | some entry => return entry
    | none => .error "failed to read selection".toList

def store (file : KeyringFile) : Store := ⟨file.entries.map KeyringEntry.entry⟩

end KeyringFile

def sanitizeAlias (email : Text) : Text := sanitizeSegment ((email.splitOn '@').headD email)

/-- What the operator passes and types for `keyring add email`; a prompt may fail. -/
structure AddEmail where
  email : Except Text Text
  aliasName : Option Text
  provider : Option Provider
  host : Option Text
  port : Option UInt16
  security : Option ImapSecurity
  promptSelect : Except Text Provider
  secret : Except Text Text
  maxImapConnections : Except Text (Option UInt32)

structure AddBucket where
  aliasName : Except Text Text
  bucket : Except Text Text
  endpoint : Except Text Text
  accessKeyId : Except Text Text
  secretKey : Except Text Text

/-- The answers of `keyring modify`; an empty secret keeps the one there is. -/
structure ModifyEmail where
  provider : Except Text Provider
  host : Except Text Text
  port : Except Text UInt16
  security : Except Text ImapSecurity
  secret : Except Text Text
  maxImapConnections : Except Text (Option UInt32)

structure ModifyBucket where
  bucket : Except Text Text
  endpoint : Except Text Text
  accessKeyId : Except Text Text
  secretKey : Except Text Text

inductive Command where
  | addEmail (answers : AddEmail)
  | addBucket (answers : AddBucket)
  | modify (aliasName : Option Text) (selection : Except Text Nat) (email : ModifyEmail) (bucket : ModifyBucket)
  | delete (aliasName : Text) (confirm : Except Text Bool)

def alreadyExists (aliasName : Text) : Text := "an entry named '".toList ++ aliasName ++ "' already exists".toList

def noEntryNamed (aliasName : Text) : Text := "no entry named '".toList ++ aliasName ++ "'".toList

def addEmail (world : World) (answers : AddEmail) (file : KeyringFile) : Except Text KeyringFile := do
  let email ← answers.email
  let aliasName := answers.aliasName.getD (sanitizeAlias email)
  if file.containsAlias aliasName then throw (alreadyExists aliasName)
  let provider ← ((answers.provider.or (Provider.detect email)).map Except.ok).getD answers.promptSelect
  let hostPort ← resolveHostPort provider answers.host answers.port
  let security := answers.security.getD (provider.defaultSecurity hostPort.2)
  let secret ← answers.secret
  world.verifyLogin
    { host := hostPort.1, port := hostPort.2, email, secret, security, acceptInvalidCerts := provider.acceptsInvalidCerts }
  let maxImapConnections ← answers.maxImapConnections
  return file.push (.email
    { aliasName, email, provider, host := hostPort.1, port := hostPort.2, secret, maxImapConnections := maxImapConnections.map (max · 1),
      security := storedSecurity provider hostPort.2 security })

def verifyBucket (world : World) (candidate : BucketConfig) : Except Text Unit :=
  (world.checkBucketReachable candidate).mapError fun err => "failed to verify bucket '".toList ++ candidate.bucket ++ "': ".toList ++ err

def addBucket (world : World) (answers : AddBucket) (file : KeyringFile) : Except Text KeyringFile := do
  let aliasName ← answers.aliasName
  if file.containsAlias aliasName then throw (alreadyExists aliasName)
  let bucket ← answers.bucket
  let endpoint ← answers.endpoint
  let accessKeyId ← answers.accessKeyId
  let secretKey ← answers.secretKey
  let candidate : BucketConfig := { aliasName, endpoint, bucket, accessKeyId, secretKey }
  verifyBucket world candidate
  return file.push (.bucket candidate)

def keepIfEmpty (typed current : Text) : Text := if typed = [] then current else typed

def modifyEmail (world : World) (answers : ModifyEmail) (current : EmailIdentity) (file : KeyringFile) : Except Text KeyringFile := do
  let provider ← answers.provider
  let host ← answers.host
  let port ← answers.port
  let security ← answers.security
  let typed ← answers.secret
  let secret := keepIfEmpty typed current.secret
  world.verifyLogin { host, port, email := current.email, secret, security, acceptInvalidCerts := provider.acceptsInvalidCerts }
  let maxImapConnections ← answers.maxImapConnections
  return (file.remove current.aliasName).push (.email
    { current with
      provider, host, port, secret, maxImapConnections := maxImapConnections.map (max · 1), security := storedSecurity provider port security })

def modifyBucket (world : World) (answers : ModifyBucket) (current : BucketConfig) (file : KeyringFile) : Except Text KeyringFile := do
  let bucket ← answers.bucket
  let endpoint ← answers.endpoint
  let accessKeyId ← answers.accessKeyId
  let typed ← answers.secretKey
  let candidate : BucketConfig :=
    { aliasName := current.aliasName, endpoint, bucket, accessKeyId, secretKey := keepIfEmpty typed current.secretKey }
  verifyBucket world candidate
  return (file.remove current.aliasName).push (.bucket candidate)

def resolveExistingAlias (file : KeyringFile) (aliasName : Option Text) (selection : Except Text Nat) : Except Text Text :=
  match aliasName with
  | some aliasName => if file.containsAlias aliasName then .ok aliasName else .error (noEntryNamed aliasName)
  | none => (file.promptSelect selection).map KeyringEntry.aliasName

/-- What there is to save at the end of a command, if anything. -/
def Command.run (world : World) (file : KeyringFile) : Command → Except Text (Option KeyringFile)
  | .addEmail answers => some <$> Keyring.addEmail world answers file
  | .addBucket answers => some <$> Keyring.addBucket world answers file
  | .modify aliasName selection email bucket => do
    let aliasName ← resolveExistingAlias file aliasName selection
    match file.find aliasName with
    | none => .error []  -- the `unwrap`, which is never reached
    | some (.email identity) => some <$> modifyEmail world email identity file
    | some (.bucket bucketConfig) => some <$> modifyBucket world bucket bucketConfig file
  | .delete aliasName confirm =>
    if file.containsAlias aliasName then do
      let confirmed ← confirm
      return if confirmed then some (file.remove aliasName) else none
    else .error (noEntryNamed aliasName)

/-- All that a command does to the file: the entry of one name is put at the end as it was tried out, or taken out. -/
inductive Edited (world : World) (file : KeyringFile) (named : Text) : KeyringFile → Prop
  | put (entry : KeyringEntry) (hAlias : entry.aliasName = named) (hVerified : entry.VerifiedIn world) (hCap : entry.CapOk) :
      Edited world file named ((file.remove named).push entry)
  | removed : Edited world file named (file.remove named)

namespace KeyringFile

variable {file : KeyringFile} {aliasName : Text}

theorem containsAlias_iff : file.containsAlias aliasName = true ↔ ∃ entry ∈ file.entries, entry.aliasName = aliasName := by
  rw [containsAlias, List.any_eq_true]
  simp only [beq_iff_eq]

theorem remove_of_not_contains (h : file.containsAlias aliasName = false) : file.remove aliasName = file := by
  have hOthers : ∀ entry ∈ file.entries, (entry.aliasName != aliasName) = true := by
    intro entry hEntry
    rw [bne_iff_ne]
    intro hSame
    have hContains := containsAlias_iff.mpr ⟨entry, hEntry, hSame⟩
    rw [h] at hContains
    cases hContains
  rw [remove, List.filter_eq_self.mpr hOthers]

theorem map_aliasName_store (file : KeyringFile) :
    file.store.entries.map Entry.aliasName = file.entries.map KeyringEntry.aliasName := by
  rw [store, List.map_map]
  apply List.map_congr_left
  intro entry _
  cases entry <;> rfl

end KeyringFile

theorem one_le_cap {typed : Option UInt32} : ∀ cap ∈ typed.map (max · 1), (1 : UInt32) ≤ cap := by
  intro cap hCap
  obtain ⟨value, -, rfl⟩ := Option.mem_map.mp hCap
  change (1 : UInt32) ≤ if value ≤ 1 then 1 else value
  split
  · exact UInt32.le_refl 1
  · rename_i hMore
    exact UInt32.le_of_lt (UInt32.not_le.mp hMore)

theorem ok_of_verifyBucket {world : World} {candidate : BucketConfig} (h : verifyBucket world candidate = .ok ()) :
    world.checkBucketReachable candidate = .ok () := by
  rw [verifyBucket] at h
  cases hCheck : world.checkBucketReachable candidate with
  | error err =>
    rw [hCheck] at h
    cases h
  | ok value => rfl

section Edited

variable {world : World} {file next : KeyringFile}

theorem Edited.push {named : Text} {entry : KeyringEntry} (hFree : file.containsAlias named = false) (hAlias : entry.aliasName = named)
    (hVerified : entry.VerifiedIn world) (hCap : entry.CapOk) : Edited world file named (file.push entry) := by
  have hPut : Edited world file named ((file.remove named).push entry) := .put entry hAlias hVerified hCap
  rwa [KeyringFile.remove_of_not_contains hFree] at hPut

theorem addEmail_edited {answers : AddEmail} (h : addEmail world answers file = .ok next) : ∃ named, Edited world file named next := by
  rw [addEmail] at h
  obtain ⟨email, -, h⟩ := Fallible.bind_eq_ok h
  dsimp only at h
  split at h
  · cases h
  · rename_i hFree
    obtain ⟨-, -, h⟩ := Fallible.bind_eq_ok h
    obtain ⟨provider, -, h⟩ := Fallible.bind_eq_ok h
    obtain ⟨hostPort, -, h⟩ := Fallible.bind_eq_ok h
    obtain ⟨secret, -, h⟩ := Fallible.bind_eq_ok h
    obtain ⟨⟨⟩, hVerified, h⟩ := Fallible.bind_eq_ok h
    obtain ⟨maxImapConnections, -, h⟩ := Fallible.bind_eq_ok h
    cases h
    refine ⟨answers.aliasName.getD (sanitizeAlias email), ?_⟩
    refine .push (Bool.eq_false_iff.mpr hFree) rfl ?_ ?_
    · rw [KeyringEntry.VerifiedIn, EmailIdentity.settings]
      dsimp only
      rw [effectiveSecurity_storedSecurity]
      exact hVerified
    · exact one_le_cap

theorem addBucket_edited {answers : AddBucket} (h : addBucket world answers file = .ok next) : ∃ named, Edited world file named next := by
  rw [addBucket] at h
  obtain ⟨aliasName, -, h⟩ := Fallible.bind_eq_ok h
  dsimp only at h
  split at h
  · cases h
  · rename_i hFree
    obtain ⟨-, -, h⟩ := Fallible.bind_eq_ok h
    obtain ⟨bucket, -, h⟩ := Fallible.bind_eq_ok h
    obtain ⟨endpoint, -, h⟩ := Fallible.bind_eq_ok h
    obtain ⟨accessKeyId, -, h⟩ := Fallible.bind_eq_ok h
    obtain ⟨secretKey, -, h⟩ := Fallible.bind_eq_ok h
    obtain ⟨⟨⟩, hVerified, h⟩ := Fallible.bind_eq_ok h
    cases h
    refine ⟨aliasName, ?_⟩
    exact .push (Bool.eq_false_iff.mpr hFree) rfl (ok_of_verifyBucket hVerified) trivial

theorem modifyEmail_edited {answers : ModifyEmail} {current : EmailIdentity} (h : modifyEmail world answers current file = .ok next) :
    Edited world file current.aliasName next := by
  rw [modifyEmail] at h
  obtain ⟨provider, -, h⟩ := Fallible.bind_eq_ok h
  obtain ⟨host, -, h⟩ := Fallible.bind_eq_ok h
  obtain ⟨port, -, h⟩ := Fallible.bind_eq_ok h
  obtain ⟨security, -, h⟩ := Fallible.bind_eq_ok h
  obtain ⟨typed, -, h⟩ := Fallible.bind_eq_ok h
  obtain ⟨⟨⟩, hVerified, h⟩ := Fallible.bind_eq_ok h
  obtain ⟨maxImapConnections, -, h⟩ := Fallible.bind_eq_ok h
  cases h
  refine .put _ rfl ?_ ?_
  · rw [KeyringEntry.VerifiedIn, EmailIdentity.settings]
    dsimp only
    rw [effectiveSecurity_storedSecurity]
    exact hVerified
  · exact one_le_cap

theorem modifyBucket_edited {answers : ModifyBucket} {current : BucketConfig} (h : modifyBucket world answers current file = .ok next) :
    Edited world file current.aliasName next := by
  rw [modifyBucket] at h
  obtain ⟨bucket, -, h⟩ := Fallible.bind_eq_ok h
  obtain ⟨endpoint, -, h⟩ := Fallible.bind_eq_ok h
  obtain ⟨accessKeyId, -, h⟩ := Fallible.bind_eq_ok h
  obtain ⟨typed, -, h⟩ := Fallible.bind_eq_ok h
  obtain ⟨⟨⟩, hVerified, h⟩ := Fallible.bind_eq_ok h
  cases h
  exact .put _ rfl (ok_of_verifyBucket hVerified) trivial

theorem map_some_eq_ok {α : Type} {result : Except Text α} {value : α} (h : (some <$> result) = Except.ok (some value)) : result = .ok value := by
  cases result with
  | error err => cases h
  | ok other =>
    cases h
    rfl

theorem run_edited {command : Command} (h : command.run world file = .ok (some next)) : ∃ named, Edited world file named next := by
  cases command with
  | addEmail answers => exact addEmail_edited (map_some_eq_ok h)
  | addBucket answers => exact addBucket_edited (map_some_eq_ok h)
  | modify aliasName selection email bucket =>
    rw [Command.run] at h
    obtain ⟨aliasName, -, h⟩ := Fallible.bind_eq_ok h
    split at h
    · cases h
    · exact ⟨_, modifyEmail_edited (map_some_eq_ok h)⟩
    · exact ⟨_, modifyBucket_edited (map_some_eq_ok h)⟩
  | delete aliasName confirm =>
    rw [Command.run] at h
    split at h
    · obtain ⟨confirmed, -, h⟩ := Fallible.bind_eq_ok h
      cases confirmed with
      | false => cases h
      | true =>
        cases h
        exact ⟨aliasName, .removed⟩
    · cases h

end Edited

/-- The entries of the other names stay as they are, in their order. -/
theorem Edited.others {world : World} {file next : KeyringFile} {named : Text} (h : Edited world file named next) :
    (next.remove named).entries = (file.remove named).entries := by
  have hTwice : ((file.remove named).remove named).entries = (file.remove named).entries := by
    rw [KeyringFile.remove, KeyringFile.remove, List.filter_filter]
    simp only [Bool.and_self]
  cases h with
  | removed => exact hTwice
  | put entry hAlias hVerified hCap =>
    have hGone : [entry].filter (fun entry => entry.aliasName != named) = [] := by
      rw [List.filter_cons_of_neg (by rw [hAlias, bne_self_eq_false]; exact Bool.false_ne_true), List.filter_nil]
    refine (List.filter_append _ _).trans ?_
    rw [hGone, List.append_nil]
    exact hTwice

/-! ## Any number of processes on one file -/

/-- A command that has tried everything out and is about to write: the file it had loaded, the name it works on, and what it writes. -/
structure Pending where
  loaded : KeyringFile
  next : KeyringFile

/-- `worlds` records what the commands of the run met, in any order. -/
structure SharedKeyring where
  file : KeyringFile
  pending : Nat → Option Pending
  worlds : List World

/-- A process loads the file and runs its command up to the write; it writes; or its write fails after some entries. -/
inductive KeyringEvent where
  | run (process : Nat) (command : Command) (world : World)
  | save (process : Nat)
  | saveFails (process : Nat) (written : Option Nat)

namespace SharedKeyring

def start : SharedKeyring := { file := .empty, pending := fun _ => none, worlds := [] }

def step (s : SharedKeyring) : KeyringEvent → Option SharedKeyring
  | .run process command world =>
    if (s.pending process).isSome then none
    else
      match command.run world s.file with
      | .ok (some next) =>
        some { s with pending := Function.update s.pending process (some { loaded := s.file, next }), worlds := world :: s.worlds }
      | _ => some { s with worlds := world :: s.worlds }
  | .save process =>
    (s.pending process).map fun pending => { s with file := pending.next, pending := Function.update s.pending process none }
  | .saveFails process written =>
    (s.pending process).map fun pending =>
      { s with
        file := match written with
          | none => s.file
          | some count => ⟨pending.next.entries.take count⟩
        pending := Function.update s.pending process none }

/-- What holds of every file that the processes have loaded or are about to write. -/
structure Sound (worlds : List World) (file : KeyringFile) : Prop where
  distinct : (file.entries.map KeyringEntry.aliasName).Nodup
  verified : ∀ entry ∈ file.entries, ∃ world ∈ worlds, entry.VerifiedIn world
  caps : ∀ entry ∈ file.entries, entry.CapOk

structure Inv (s : SharedKeyring) : Prop where
  file : Sound s.worlds s.file
  pending : ∀ process pending, s.pending process = some pending →
    Sound s.worlds pending.next ∧ ∃ named world, Edited world pending.loaded named pending.next

variable {worlds : List World} {file next : KeyringFile} {world : World} {named : Text}

theorem Sound.mono {more : List World} (h : Sound worlds file) (hMore : worlds ⊆ more) : Sound more file where
  distinct := h.distinct
  verified entry hEntry := by
    obtain ⟨world, hWorld, hVerified⟩ := h.verified entry hEntry
    exact ⟨world, hMore hWorld, hVerified⟩
  caps := h.caps

theorem Sound.sublist (h : Sound worlds file) (hSublist : next.entries.Sublist file.entries) : Sound worlds next where
  distinct := h.distinct.sublist (hSublist.map _)
  verified entry hEntry := h.verified entry (hSublist.subset hEntry)
  caps entry hEntry := h.caps entry (hSublist.subset hEntry)

theorem Sound.edited (h : Sound worlds file) (hEdited : Edited world file named next) : Sound (world :: worlds) next := by
  have hRemoved : Sound (world :: worlds) (file.remove named) := (h.sublist List.filter_sublist).mono (List.subset_cons_self _ _)
  cases hEdited with
  | removed => exact hRemoved
  | put entry hAlias hVerified hCap =>
    constructor
    · rw [KeyringFile.push, List.map_append, List.map_singleton]
      refine List.Nodup.append hRemoved.distinct (List.nodup_singleton _) ?_
      rw [List.disjoint_singleton]
      intro hMem
      obtain ⟨other, hOther, hSame⟩ := List.mem_map.mp hMem
      have hKept := (List.mem_filter.mp hOther).2
      rw [hSame, hAlias, bne_self_eq_false] at hKept
      cases hKept
    · intro other hOther
      obtain hOld | hNew := List.mem_append.mp hOther
      · exact hRemoved.verified other hOld
      · cases List.mem_singleton.mp hNew
        exact ⟨world, List.mem_cons_self, hVerified⟩
    · intro other hOther
      obtain hOld | hNew := List.mem_append.mp hOther
      · exact hRemoved.caps other hOld
      · cases List.mem_singleton.mp hNew
        exact hCap

theorem pending_of_update {pending : Nat → Option Pending} {process other : Nat} {later : Pending}
    (h : Function.update pending process none other = some later) : pending other = some later := by
  by_cases hSame : other = process
  · subst hSame
    rw [Function.update_self] at h
    cases h
  · rwa [Function.update_of_ne hSame] at h

theorem Inv.step {s t : SharedKeyring} {event : KeyringEvent} (hInv : Inv s) (h : s.step event = some t) : Inv t := by
  cases event with
  | run process command world =>
    rw [SharedKeyring.step] at h
    split at h
    · cases h
    · have hPending : ∀ other pending, s.pending other = some pending →
          Sound (world :: s.worlds) pending.next ∧ ∃ named world, Edited world pending.loaded named pending.next :=
        fun other pending hOther => ⟨(hInv.pending other pending hOther).1.mono (List.subset_cons_self _ _), (hInv.pending other pending hOther).2⟩
      split at h
      · rename_i next hRun
        cases h
        obtain ⟨named, hEdited⟩ := run_edited hRun
        refine ⟨hInv.file.mono (List.subset_cons_self _ _), fun other pending hOther => ?_⟩
        dsimp only at hOther
        by_cases hSame : other = process
        · subst hSame
          rw [Function.update_self] at hOther
          cases hOther
          exact ⟨hInv.file.edited hEdited, named, world, hEdited⟩
        · rw [Function.update_of_ne hSame] at hOther
          exact hPending other pending hOther
      · cases h
        exact ⟨hInv.file.mono (List.subset_cons_self _ _), hPending⟩
  | save process =>
    obtain ⟨pending, hProcess, rfl⟩ := Option.map_eq_some_iff.mp h
    exact ⟨(hInv.pending process pending hProcess).1, fun other later hOther => hInv.pending other later (pending_of_update hOther)⟩
  | saveFails process written =>
    obtain ⟨pending, hProcess, rfl⟩ := Option.map_eq_some_iff.mp h
    refine ⟨?_, fun other later hOther => hInv.pending other later (pending_of_update hOther)⟩
    cases written with
    | none => exact hInv.file
    | some count => exact (hInv.pending process pending hProcess).1.sublist (List.take_sublist _ _)

theorem world_of_run {s t : SharedKeyring} {events : List KeyringEvent} (hRun : Library.run SharedKeyring.step s events = some t) :
    ∀ world ∈ t.worlds, world ∈ s.worlds ∨ ∃ process command, .run process command world ∈ events := by
  induction events generalizing s with
  | nil =>
    cases hRun
    exact fun world hWorld => .inl hWorld
  | cons event events ih =>
    obtain ⟨next, hNext, hRest⟩ := run_cons_eq_some.mp hRun
    intro world hWorld
    obtain hEarlier | ⟨process, command, hLater⟩ := ih hRest world hWorld
    · cases event with
      | run process command met =>
        rw [SharedKeyring.step] at hNext
        have hMet : next.worlds = met :: s.worlds := by
          split at hNext
          · cases hNext
          · split at hNext
            all_goals
              cases hNext
              rfl
        rw [hMet] at hEarlier
        obtain rfl | hOld := List.mem_cons.mp hEarlier
        · exact .inr ⟨process, command, List.mem_cons_self⟩
        · exact .inl hOld
      | save process =>
        obtain ⟨pending, -, rfl⟩ := Option.map_eq_some_iff.mp hNext
        exact .inl hEarlier
      | saveFails process written =>
        obtain ⟨pending, -, rfl⟩ := Option.map_eq_some_iff.mp hNext
        exact .inl hEarlier
    · exact .inr ⟨process, command, List.mem_cons_of_mem _ hLater⟩

theorem inv_start : Inv start where
  file := ⟨List.nodup_nil, nofun, nofun⟩
  pending process pending hPending := by cases hPending

def openWorld : World where
  server _ _ := some (.ok (some .other))
  checkBucketReachable _ := .ok ()

def addBackup : Command := .addBucket
  { aliasName := .ok "backup".toList, bucket := .ok "b".toList, endpoint := .ok "https://s3".toList, accessKeyId := .ok "k".toList,
    secretKey := .ok "s".toList }

def addMail : Command := .addEmail
  { email := .ok "first.last@gmail.com".toList, aliasName := none, provider := none, host := none, port := none, security := none,
    promptSelect := .error [], secret := .ok "app".toList, maxImapConnections := .ok (some 0) }

/-- Both load the empty file, the second write fails, and its command is run once more. -/
def crossedCommands : List KeyringEvent :=
  [.run 0 addBackup openWorld, .run 1 addMail openWorld, .save 0, .saveFails 1 none, .run 1 addMail openWorld, .save 1]

end SharedKeyring

end Pigeon.Keyring
