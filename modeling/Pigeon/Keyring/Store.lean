import Pigeon.Library.Text

/-! # The keyring

One file holds the email identities and the bucket-configs. `keyring add` refuses an alias that either kind of entry has.
-/
namespace Pigeon.Keyring

open Library

set_option autoImplicit false

structure Identity where
  aliasName : Text
  secret : Text
deriving DecidableEq, Repr

structure BucketConfig where
  aliasName : Text
  endpoint : Text
  bucket : Text
  accessKeyId : Text
  secretKey : Text
deriving DecidableEq, Repr

inductive Entry where
  | email (identity : Identity)
  | bucket (bucketConfig : BucketConfig)
deriving DecidableEq, Repr

def Entry.aliasName : Entry → Text
  | .email identity => identity.aliasName
  | .bucket bucketConfig => bucketConfig.aliasName

structure Store where
  entries : List Entry
deriving DecidableEq, Repr

namespace Store

def empty : Store := ⟨[]⟩

def containsAlias (store : Store) (aliasName : Text) : Bool := store.entries.any fun entry => entry.aliasName == aliasName

def push (store : Store) (entry : Entry) : Store := ⟨store.entries ++ [entry]⟩

def bucketConfigs (store : Store) : List BucketConfig :=
  store.entries.filterMap fun
    | .bucket bucketConfig => some bucketConfig
    | .email _ => none

/-- What `add_email` and `add_bucket` share: `verify` is the login, or the attempt to reach the bucket. -/
def add (verify : Entry → Except String Unit) (store : Store) (entry : Entry) : Except String Store :=
  if store.containsAlias entry.aliasName then .error s!"an entry named '{String.ofList entry.aliasName}' already exists"
  else do
    verify entry
    return store.push entry

/-- The aliases are distinct across both kinds of entries. -/
def Distinct (store : Store) : Prop := (store.entries.map Entry.aliasName).Nodup

instance (store : Store) : Decidable store.Distinct := inferInstanceAs (Decidable (List.Nodup _))

/-- A store that was filled by `keyring add` alone. -/
inductive Added (verify : Entry → Except String Unit) : Store → Prop where
  | empty : Added verify empty
  | add {store next : Store} {entry : Entry} (h : Added verify store) (hNext : store.add verify entry = .ok next) :
      Added verify next

variable {store : Store}

theorem containsAlias_iff {aliasName : Text} : store.containsAlias aliasName = true ↔ ∃ entry ∈ store.entries, entry.aliasName = aliasName := by
  rw [containsAlias, List.any_eq_true]
  simp only [beq_iff_eq]

theorem mem_bucketConfigs {config : BucketConfig} : config ∈ store.bucketConfigs ↔ .bucket config ∈ store.entries := by
  rw [bucketConfigs, List.mem_filterMap]
  constructor
  · rintro ⟨entry, hEntry, hConfig⟩
    cases entry with
    | email identity => cases hConfig
    | bucket other =>
      cases hConfig
      exact hEntry
  · exact fun hEntry => ⟨.bucket config, hEntry, rfl⟩

theorem add_eq_ok {verify : Entry → Except String Unit} {entry : Entry} {next : Store}
    (h : store.add verify entry = .ok next) : store.containsAlias entry.aliasName = false ∧ next = store.push entry := by
  rw [add] at h
  split at h
  · cases h
  · rename_i hFree
    refine ⟨Bool.eq_false_iff.mpr hFree, ?_⟩
    cases hVerified : verify entry with
    | error message =>
      rw [hVerified] at h
      cases h
    | ok value =>
      rw [hVerified] at h
      cases h
      rfl

theorem Distinct.push {entry : Entry} (h : store.Distinct) (hFree : store.containsAlias entry.aliasName = false) :
    (store.push entry).Distinct := by
  rw [Distinct, Store.push, List.map_append, List.nodup_append]
  refine ⟨h, List.nodup_singleton _, ?_⟩
  intro aliasName hAlias other hOther hSame
  obtain ⟨old, hOld, rfl⟩ := List.mem_map.mp hAlias
  rw [List.map_singleton, List.mem_singleton] at hOther
  have hContains : store.containsAlias entry.aliasName = true := containsAlias_iff.mpr ⟨old, hOld, hSame.trans hOther⟩
  rw [hFree] at hContains
  cases hContains

/-- Whatever is added in whatever order, no two entries share an alias. -/
theorem Added.distinct {verify : Entry → Except String Unit} (h : Added verify store) : store.Distinct := by
  induction h with
  | empty => exact List.nodup_nil
  | add hStore hNext ih =>
    obtain ⟨hFree, rfl⟩ := add_eq_ok hNext
    exact ih.push hFree

theorem Distinct.bucketConfigs (h : store.Distinct) : (store.bucketConfigs.map BucketConfig.aliasName).Nodup := by
  have hSublist : (store.bucketConfigs.map BucketConfig.aliasName).Sublist (store.entries.map Entry.aliasName) := by
    rw [Store.bucketConfigs]
    induction store.entries with
    | nil => exact List.Sublist.refl _
    | cons entry entries ih =>
      cases entry with
      | email identity => exact ih.cons _
      | bucket config => exact ih.cons_cons _
  exact List.Sublist.nodup hSublist h

end Store

end Pigeon.Keyring
