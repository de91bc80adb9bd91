import Pigeon.Library.FileTree
import Pigeon.Keyring.Identity

/-! # The mailbox path, the UIDVALIDITY marker and the pending UIDs -/
namespace Pigeon.EmailImport

open Library Keyring

set_option autoImplicit false

def sanitizeMailboxPath (name : Text) (delimiter : Option Text) : Path :=
  let segments :=
    match delimiter with
    | some delimiter => if delimiter ≠ [] then Text.splitText delimiter name else [name]
    | none => [name]
  (segments.map sanitizeSegment).filter fun segment => !segment.isEmpty

/-- The UIDs of `server` that are not in `held`, sorted. -/
def missingUids (server held : List UInt32) : List UInt32 :=
  (server.filter fun uid => !held.contains uid).mergeSort fun a b => decide (a ≤ b)

def isStale (onDiskValidity : Option UInt32) (currentValidity : UInt32) : Bool :=
  match onDiskValidity with
  | some value => value != currentValidity
  | none => false

/-- UIDVALIDITY_FILE_NAME -/
def uidvalidityFileName : Text := ".uidvalidity".toList

def readUidvalidity (staging : FileTree Text) (mailboxDir : Path) : Option UInt32 :=
  match staging.lookup (mailboxDir ++ [uidvalidityFileName]) with
  | some (.file contents) => Text.parseU32 (Text.trim contents)
  | _ => none

def writeUidvalidity (staging : FileTree Text) (mailboxDir : Path) (value : UInt32) : Option (FileTree Text) :=
  staging.write (mailboxDir ++ [uidvalidityFileName]) (Text.showU32 value)

theorem not_mem_sanitizeMailboxPath {c : Char} (hAlphanum : c.isAlphanum = false) (hHyphen : c ≠ '-')
    {name : Text} {delimiter : Option Text} {segment : Text} (h : segment ∈ sanitizeMailboxPath name delimiter) :
    c ∉ segment := by
  obtain ⟨raw, -, rfl⟩ := List.mem_map.mp (List.mem_filter.mp h).1
  exact not_mem_sanitizeSegment hAlphanum hHyphen raw

theorem mem_missingUids (server held : List UInt32) (uid : UInt32) :
    uid ∈ missingUids server held ↔ uid ∈ server ∧ uid ∉ held := by
  rw [missingUids, List.mem_mergeSort, List.mem_filter]
  simp

end Pigeon.EmailImport
