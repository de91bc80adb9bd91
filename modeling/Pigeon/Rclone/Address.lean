import Pigeon.Library.Rows
import Pigeon.Rclone.Config

/-! # Addresses of remote targets

What a target is parsed to is in its canonical form, and the address of a target in canonical form is parsed to it again.
-/
namespace Pigeon.Rclone

open Library Text Keyring

set_option autoImplicit false

/-- No slash before it, one after it, and none of its segments is `..`. -/
structure Normalized (keyPrefix : Text) : Prop where
  first : keyPrefix.head? ≠ some '/'
  last : ∃ stem, keyPrefix = stem ++ ['/'] ∧ stem ≠ [] ∧ stem.getLast? ≠ some '/'
  segments : ['.', '.'] ∉ keyPrefix.splitOn '/'

structure RemoteTarget.Canonical (store : Store) (target : RemoteTarget) : Prop where
  known : store.containsAlias target.aliasName = true
  addressable : ':' ∉ target.aliasName
  normalized : ∀ keyPrefix, target.keyPrefix = some keyPrefix → Normalized keyPrefix

/-! ## Prefixes -/

theorem splitOn_concat (sep : Char) (s : Text) : (s ++ [sep]).splitOn sep = s.splitOn sep ++ [[]] := by
  rw [List.splitOn_append_cons_self, List.splitOn_nil]

theorem mem_splitOn_concat {sep : Char} {s piece : Text} (hPiece : piece ≠ []) :
    piece ∈ (s ++ [sep]).splitOn sep ↔ piece ∈ s.splitOn sep := by
  rw [splitOn_concat, List.mem_append, List.mem_singleton, or_iff_left hPiece]

/-- What is left between the slashes of a raw prefix. -/
theorem normalizePrefix_eq_some {raw keyPrefix : Text} :
    normalizePrefix raw = .ok (some keyPrefix) ↔
      trimMatches (· == '/') raw ≠ [] ∧ ['.', '.'] ∉ (trimMatches (· == '/') raw).splitOn '/' ∧
        keyPrefix = trimMatches (· == '/') raw ++ ['/'] := by
  rw [normalizePrefix]
  split
  · rename_i hNone
    exact ⟨nofun, fun h => absurd hNone h.1⟩
  · rename_i hSome
    split
    · rename_i hParent
      exact ⟨nofun, fun h => absurd (List.contains_iff_mem.mp hParent) h.2.1⟩
    · rename_i hParent
      constructor
      · rintro h
        cases h
        exact ⟨hSome, fun hMem => hParent (List.contains_iff_mem.mpr hMem), rfl⟩
      · rintro ⟨-, -, rfl⟩
        rfl

theorem trimMatches_slash_ne_nil {raw : Text} (h : ∃ c ∈ raw, c ≠ '/') : trimMatches (· == '/') raw ≠ [] := by
  obtain ⟨c, hMem, hSlash⟩ := h
  exact List.ne_nil_of_mem (mem_trimMatches hMem (beq_false_of_ne hSlash))

theorem normalized_normalizePrefix {raw keyPrefix : Text} (h : normalizePrefix raw = .ok (some keyPrefix)) :
    Normalized keyPrefix := by
  obtain ⟨hSome, hSegments, rfl⟩ := normalizePrefix_eq_some.mp h
  refine ⟨?_, ⟨_, rfl, hSome, ?_⟩, ?_⟩
  · rw [List.head?_append_of_ne_nil _ hSome]
    exact fun hSlash => absurd (head?_trimMatches hSlash) (by decide)
  · exact fun hSlash => absurd (getLast?_trimMatches hSlash) (by decide)
  · rwa [mem_splitOn_concat (by decide)]

theorem normalizePrefix_of_normalized {keyPrefix : Text} (h : Normalized keyPrefix) :
    normalizePrefix keyPrefix = .ok (some keyPrefix) := by
  obtain ⟨stem, rfl, hSome, hLast⟩ := h.last
  have hTrim : trimMatches (· == '/') (stem ++ ['/']) = stem := by
    rw [trimMatches_concat (by decide)]
    apply trimMatches_eq_self
    · intro c hHead
      have hFirst := h.first
      rw [List.head?_append_of_ne_nil _ hSome] at hFirst
      exact beq_false_of_ne fun hSlash => hFirst (hSlash ▸ hHead)
    · intro c hEnd
      exact beq_false_of_ne fun hSlash => hLast (hSlash ▸ hEnd)
  rw [normalizePrefix_eq_some, hTrim]
  exact ⟨hSome, fun hMem => h.segments ((mem_splitOn_concat (by decide)).mpr hMem), rfl⟩

/-! ## Targets -/

namespace RemoteTarget

variable {store : Store} {target : RemoteTarget}

/-- A value with a prefix of its own, and not with slashes alone. -/
def Explicit (value raw : Text) : Prop :=
  ∃ aliasName, value = aliasName ++ ':' :: raw ∧ ':' ∉ aliasName ∧ ∃ c ∈ raw, c ≠ '/'

theorem parse_eq {value aliasName rawPrefix : Text} (h : (splitOnce [':'] value).getD (value, []) = (aliasName, rawPrefix)) :
    parse value store =
      if store.containsAlias aliasName then do return ⟨aliasName, ← normalizePrefix rawPrefix⟩
      else .error s!"no bucket-config named '{String.ofList aliasName}'" := by
  rw [parse, h]

theorem parse_eq_ok {value aliasName rawPrefix : Text}
    (h : (splitOnce [':'] value).getD (value, []) = (aliasName, rawPrefix)) :
    parse value store = .ok target ↔ store.containsAlias aliasName = true ∧ target.aliasName = aliasName ∧
      normalizePrefix rawPrefix = .ok target.keyPrefix := by
  rw [parse_eq h]
  split
  · rename_i hKnown
    cases hPrefix : normalizePrefix rawPrefix with
    | error message => exact ⟨nofun, nofun⟩
    | ok keyPrefix =>
      constructor
      · rintro hTarget
        cases hTarget
        exact ⟨hKnown, rfl, rfl⟩
      · rintro ⟨-, rfl, hSame⟩
        cases hSame
        rfl
  · rename_i hUnknown
    exact ⟨nofun, fun hTarget => absurd hTarget.1 hUnknown⟩

/-- The split is made at the first colon. -/
theorem exists_split (value : Text) :
    ∃ aliasName rawPrefix, (splitOnce [':'] value).getD (value, []) = (aliasName, rawPrefix) ∧ ':' ∉ aliasName := by
  cases hSplit : splitOnce [':'] value with
  | none => exact ⟨value, [], rfl, splitOnce_eq_none.mp hSplit⟩
  | some pieces => exact ⟨pieces.1, pieces.2, rfl, (splitOnce_eq_some.mp hSplit).2⟩

theorem canonical_of_normalizePrefix {rawPrefix : Text} (hKnown : store.containsAlias target.aliasName = true)
    (hAddressable : ':' ∉ target.aliasName) (hPrefix : normalizePrefix rawPrefix = .ok target.keyPrefix) :
    target.Canonical store := by
  refine ⟨hKnown, hAddressable, ?_⟩
  intro keyPrefix hSome
  rw [hSome] at hPrefix
  exact normalized_normalizePrefix hPrefix

theorem canonical_of_parse {value : Text} (h : parse value store = .ok target) : target.Canonical store := by
  obtain ⟨aliasName, rawPrefix, hSplit, hColon⟩ := exists_split value
  obtain ⟨hKnown, rfl, hPrefix⟩ := (parse_eq_ok hSplit).mp h
  exact canonical_of_normalizePrefix hKnown hColon hPrefix

theorem Canonical.withDefaultPrefix {result : RemoteTarget} {defaultPrefix : Text} (h : target.Canonical store)
    (hResult : target.withDefaultPrefix defaultPrefix = .ok result) : result.Canonical store := by
  rw [RemoteTarget.withDefaultPrefix] at hResult
  split at hResult
  · cases hPrefix : normalizePrefix defaultPrefix with
    | error message =>
      rw [hPrefix] at hResult
      cases hResult
    | ok keyPrefix =>
      rw [hPrefix] at hResult
      cases hResult
      exact canonical_of_normalizePrefix h.known h.addressable hPrefix
  · cases hResult
    exact h

/-- The canonical form is a fixed point. -/
theorem Canonical.parse_address (h : target.Canonical store) : parse target.address store = .ok target := by
  obtain ⟨rawPrefix, hAddress, hPrefix⟩ :
      ∃ rawPrefix, target.address = target.aliasName ++ ':' :: rawPrefix ∧
        normalizePrefix rawPrefix = .ok target.keyPrefix := by
    cases hSome : target.keyPrefix with
    | none => exact ⟨[], by rw [address, hSome], rfl⟩
    | some keyPrefix =>
      exact ⟨keyPrefix, by rw [address, hSome], normalizePrefix_of_normalized (h.normalized keyPrefix hSome)⟩
  have hSplit : (splitOnce [':'] target.address).getD (target.address, []) = (target.aliasName, rawPrefix) := by
    rw [splitOnce_eq_some.mpr ⟨hAddress, h.addressable⟩]
    rfl
  exact (parse_eq_ok hSplit).mpr ⟨h.known, rfl, hPrefix⟩

theorem keyPrefix_of_explicit {value raw : Text} (hExplicit : Explicit value raw) (h : parse value store = .ok target) :
    target.keyPrefix = some (trimMatches (· == '/') raw ++ ['/']) := by
  obtain ⟨aliasName, rfl, hColon, hRaw⟩ := hExplicit
  have hSplit : (splitOnce [':'] (aliasName ++ ':' :: raw)).getD (aliasName ++ ':' :: raw, []) = (aliasName, raw) := by
    rw [splitOnce_eq_some.mpr ⟨rfl, hColon⟩]
    rfl
  obtain ⟨-, -, hPrefix⟩ := (parse_eq_ok hSplit).mp h
  cases hSome : target.keyPrefix with
  | none =>
    rw [hSome, normalizePrefix, if_neg (trimMatches_slash_ne_nil hRaw)] at hPrefix
    split at hPrefix
    · cases hPrefix
    · cases hPrefix
  | some keyPrefix =>
    rw [hSome] at hPrefix
    rw [(normalizePrefix_eq_some.mp hPrefix).2.2]

theorem withDefaultPrefix_of_some {keyPrefix : Text} (h : target.keyPrefix = some keyPrefix) (defaultPrefix : Text) :
    target.withDefaultPrefix defaultPrefix = .ok target := by
  rw [withDefaultPrefix, h]

/-- What is parsed is in its canonical form and its address is parsed to it again, also once a default prefix has been
filled in, which never takes the place of an explicit one. -/
theorem parse_spec {value : Text} (h : parse value store = .ok target) :
    target.Canonical store ∧ parse target.address store = .ok target ∧
      (∀ defaultPrefix result, target.withDefaultPrefix defaultPrefix = .ok result →
        result.Canonical store ∧ parse result.address store = .ok result) ∧
      (∀ raw, Explicit value raw → target.keyPrefix = some (trimMatches (· == '/') raw ++ ['/'])) ∧
      ∀ defaultPrefix, target.keyPrefix ≠ none → target.withDefaultPrefix defaultPrefix = .ok target := by
  have hCanonical := canonical_of_parse h
  refine ⟨hCanonical, hCanonical.parse_address, ?_, ?_, ?_⟩
  · intro defaultPrefix result hResult
    have hFilled := hCanonical.withDefaultPrefix hResult
    exact ⟨hFilled, hFilled.parse_address⟩
  · exact fun raw hExplicit => keyPrefix_of_explicit hExplicit h
  · intro defaultPrefix hSome
    obtain ⟨keyPrefix, hKeyPrefix⟩ := Option.ne_none_iff_exists'.mp hSome
    exact withDefaultPrefix_of_some hKeyPrefix defaultPrefix

def sourceStore : Store := ⟨[.bucket ⟨"source".toList, [], [], [], []⟩]⟩

theorem parse_spec_source :
    parse "source:/jpg//2024/".toList sourceStore = .ok ⟨"source".toList, some "jpg//2024/".toList⟩ ∧
      parse (address ⟨"source".toList, some "jpg//2024/".toList⟩) sourceStore =
        .ok ⟨"source".toList, some "jpg//2024/".toList⟩ := by
  have hParse : parse "source:/jpg//2024/".toList sourceStore = .ok ⟨"source".toList, some "jpg//2024/".toList⟩ := by decide
  exact ⟨hParse, (parse_spec hParse).2.1⟩

end RemoteTarget

end Pigeon.Rclone
