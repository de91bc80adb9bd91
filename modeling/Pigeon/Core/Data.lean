import Pigeon.Library.AlikeTrees

/-! # File names: sanitizing an untrusted one, finding a free one

`sanitize_filename` reduces a name to one bounded path component. `unique_path` keeps a
name that is free and otherwise takes the first free one of `stem-2.ext`, `stem-3.ext`, …;
its loop ends since a directory holds finitely many names.
-/
namespace Pigeon.Core

open Library

set_option autoImplicit false

def maxFilenameLength : Nat := 100

def truncatePreservingExtension (name : Text) (maxLen : Nat) : Text :=
  if Text.byteLength name ≤ maxLen then name
  else
    match Text.rsplitOnce '.' name with
    | some (stem, ext) =>
      if ext ≠ [] ∧ Text.byteLength ext + 1 < maxLen then
        Text.takeBytes (maxLen - Text.byteLength ext - 1) stem ++ '.' :: ext
      else Text.takeBytes maxLen name
    | none => Text.takeBytes maxLen name

def sanitizeFilename (name : Text) : Text :=
  match Text.fileName name with
  | some base => if base ≠ [] then truncatePreservingExtension base maxFilenameLength else "file".toList
  | none => "file".toList

/-- The loop of `slugify`: the slug so far, and whether a separator is due. -/
def slugifyFrom (maxLen : Nat) (slug : Text) (pendingSeparator : Bool) : Text → Text
  | [] => slug
  | ch :: name =>
    if ch.isAlphanum || ch == '.' || ch == '_' || ch == '-' then
      let slug := if pendingSeparator && slug ≠ [] then slug ++ ['-'] else slug
      if maxLen ≤ slug.length then slug else slugifyFrom maxLen (slug ++ [ch]) false name
    else slugifyFrom maxLen slug true name

def slugify (name : Text) (maxLen : Nat) (fallback : Text) : Text :=
  let trimmed := ((slugifyFrom maxLen [] false name).dropWhile (· == '-')).reverse.dropWhile (· == '-') |>.reverse
  if trimmed = [] then fallback else trimmed

def maxSheetSlugLength : Nat := 40

def sheetSlug (name : Text) : Text := slugify name maxSheetSlugLength "sheet".toList

def strictStem (name : Text) : Text :=
  match Text.fileName name with
  | some base => if base ≠ [] then slugify base maxFilenameLength "file".toList else "file".toList
  | none => "file".toList

/-- The last `/`-separated segment of an object key. -/
def basename (key : Text) : Text := ((key.splitOn '/').getLast?).getD key

def isAppleDoubleBasename (key : Text) : Bool := ['.', '_'].isPrefixOf (basename key)

def isExcelLockBasename (key : Text) : Bool := ['~', '$'].isPrefixOf (basename key)

def candidateName (desired : Text) (n : Nat) : Text :=
  match Text.stemExtension desired with
  | (stem, some ext) => stem ++ '-' :: (Nat.toDigits 10 n ++ '.' :: ext)
  | (stem, none) => stem ++ '-' :: Nat.toDigits 10 n

/-- The loop of `unique_path`, from the suffix `n` on. -/
def firstFree (taken : Text → Bool) (desired : Text) : Nat → Nat → Text
  | 0, n => candidateName desired n
  | fuel + 1, n =>
    if taken (candidateName desired n) then firstFree taken desired fuel (n + 1) else candidateName desired n

/-- `unique_path` of `dir/desired`; the result is a name in the same directory. -/
def uniqueName {β : Type*} (tree : FileTree β) (dir : Path) (desired : Text) : Text :=
  let taken name := tree.contains (dir ++ [name])
  if taken desired then firstFree taken desired tree.entries.length 2 else desired

/-! ## The characters of a name -/

theorem mem_truncatePreservingExtension {name : Text} {maxLen : Nat} {c : Char}
    (h : c ∈ truncatePreservingExtension name maxLen) : c ∈ name := by
  rw [truncatePreservingExtension] at h
  split at h
  · exact h
  · split at h
    · rename_i stem ext hSplit
      split at h
      · rw [(Text.rsplitOnce_eq_some hSplit).1]
        obtain hStem | hExt := List.mem_append.mp h
        · exact List.mem_append_left _ ((Text.takeBytes_prefix _ stem).subset hStem)
        · exact List.mem_append_right _ hExt
      · exact (Text.takeBytes_prefix _ name).subset h
    · exact (Text.takeBytes_prefix _ name).subset h

theorem not_mem_sanitizeFilename (name : Text) : '/' ∉ sanitizeFilename name := by
  rw [sanitizeFilename]
  split
  · rename_i base hBase
    split
    · exact fun h => Text.not_mem_fileName hBase (mem_truncatePreservingExtension h)
    · decide
  · decide

theorem hyphen_mem_candidateName (desired : Text) (n : Nat) : '-' ∈ candidateName desired n := by
  rw [candidateName]
  split <;> simp

theorem not_mem_candidateName {desired : Text} {c : Char} (hDesired : c ∉ desired) (hDigit : c.isDigit = false)
    (hHyphen : c ≠ '-') (hDot : c ≠ '.') (n : Nat) : c ∉ candidateName desired n := by
  have hDigits : c ∉ Nat.toDigits 10 n := Text.not_mem_toDigits hDigit n
  rw [candidateName]
  split
  · rename_i stem ext hSplit
    have hStem : c ∉ stem := fun h => hDesired (Text.mem_stemExtension (.inl (by rw [hSplit]; exact h)))
    have hExt : c ∉ ext := fun h => hDesired (Text.mem_stemExtension (.inr ⟨ext, by rw [hSplit], h⟩))
    simp [hStem, hExt, hDigits, hHyphen, hDot]
  · rename_i stem hSplit
    have hStem : c ∉ stem := fun h => hDesired (Text.mem_stemExtension (.inl (by rw [hSplit]; exact h)))
    simp [hStem, hDigits, hHyphen]

theorem mem_candidateName {desired : Text} {c : Char} (hDesired : c ∈ desired) (hDot : c ≠ '.') (n : Nat) :
    c ∈ candidateName desired n := by
  rw [candidateName, Text.stemExtension]
  split
  · rename_i stem ext hSplit
    split at hSplit
    · cases hSplit
    · cases hSplit
    · rename_i hRsplit
      cases hSplit
      rw [(Text.rsplitOnce_eq_some hRsplit).1] at hDesired
      simp only [List.mem_append, List.mem_cons, hDot, false_or] at hDesired ⊢
      obtain hStem | hExt := hDesired
      · exact .inl hStem
      · exact .inr (.inr (.inr hExt))
  · rename_i stem hSplit
    split at hSplit
    · cases hSplit
      exact List.mem_append_left _ hDesired
    · cases hSplit
      exact List.mem_append_left _ hDesired
    · cases hSplit

theorem toDigits_injective {m n : Nat} (h : Nat.toDigits 10 m = Nat.toDigits 10 n) : m = n := by
  rw [← Nat.ofDigitChars_ten_toDigits (n := m), h, Nat.ofDigitChars_ten_toDigits]

theorem candidateName_injective (desired : Text) {m n : Nat}
    (h : candidateName desired m = candidateName desired n) : m = n := by
  rw [candidateName, candidateName] at h
  split at h
  · exact toDigits_injective (by simpa using h)
  · exact toDigits_injective (by simpa using h)

/-! ## The first free name -/

/-- The name that `unique_path` settles on, whatever the number of rounds its loop takes. -/
def IsUniqueName (taken : Text → Bool) (desired name : Text) : Prop :=
  taken name = false ∧
    (name = desired ∨
      taken desired = true ∧ ∃ n, 2 ≤ n ∧ name = candidateName desired n ∧
        ∀ m, 2 ≤ m → m < n → taken (candidateName desired m) = true)

theorem firstFree_spec (taken : Text → Bool) (desired : Text) (fuel start : Nat)
    (hFree : ∃ n, start ≤ n ∧ n ≤ start + fuel ∧ taken (candidateName desired n) = false) :
    taken (firstFree taken desired fuel start) = false ∧
      ∃ n, start ≤ n ∧ firstFree taken desired fuel start = candidateName desired n ∧
        ∀ m, start ≤ m → m < n → taken (candidateName desired m) = true := by
  induction fuel generalizing start with
  | zero =>
    obtain ⟨n, hStart, hEnd, hFree⟩ := hFree
    obtain rfl : n = start := by omega
    exact ⟨hFree, n, hStart, rfl, fun m hm hn => by omega⟩
  | succ fuel ih =>
    rw [firstFree]
    split
    · rename_i hTaken
      have hLater : ∃ n, start + 1 ≤ n ∧ n ≤ start + 1 + fuel ∧ taken (candidateName desired n) = false := by
        obtain ⟨n, hStart, hEnd, hFree⟩ := hFree
        have hNe : n ≠ start := by
          rintro rfl
          rw [hTaken] at hFree
          cases hFree
        exact ⟨n, by omega, by omega, hFree⟩
      obtain ⟨hResult, n, hStart, hName, hBefore⟩ := ih (start + 1) hLater
      refine ⟨hResult, n, by omega, hName, fun m hm hn => ?_⟩
      by_cases hFirst : m = start
      · rw [hFirst]
        exact hTaken
      · exact hBefore m (by omega) hn
    · rename_i hHere
      exact ⟨Bool.eq_false_iff.mpr hHere, start, Nat.le_refl _, rfl, fun m hm hn => by omega⟩

/-- The loop ends on a free name: a finite tree cannot take every candidate. -/
theorem uniqueName_spec {β : Type*} (tree : FileTree β) (dir : Path) (desired : Text) :
    IsUniqueName (fun name => tree.contains (dir ++ [name])) desired (uniqueName tree dir desired) := by
  rw [uniqueName]
  split
  · rename_i hTaken
    obtain ⟨i, hi, hFree⟩ := tree.exists_not_contains (fun i => dir ++ [candidateName desired (i + 2)])
      (fun i j hEq => by
        have hNames := List.singleton_inj.mp (List.append_cancel_left hEq)
        exact Nat.add_right_cancel (candidateName_injective desired hNames))
      (fun i => by simp)
    obtain ⟨hResult, hRest⟩ := firstFree_spec (fun name => tree.contains (dir ++ [name])) desired
      tree.entries.length 2 ⟨i + 2, by omega, by omega, hFree⟩
    exact ⟨hResult, .inr ⟨hTaken, hRest⟩⟩
  · rename_i hFree
    exact ⟨Bool.eq_false_iff.mpr hFree, .inl rfl⟩

theorem IsUniqueName.unique {taken : Text → Bool} {desired name other : Text}
    (hName : IsUniqueName taken desired name) (hOther : IsUniqueName taken desired other) : name = other := by
  obtain ⟨hFree, rfl | ⟨hTaken, m, hm, rfl, hBefore⟩⟩ := hName
  · obtain ⟨-, rfl | ⟨hTaken, -⟩⟩ := hOther
    · rfl
    · rw [hFree] at hTaken
      cases hTaken
  · obtain ⟨hFree', rfl | ⟨-, n, hn, rfl, hBefore'⟩⟩ := hOther
    · rw [hTaken] at hFree'
      cases hFree'
    · obtain hLt | hEq | hGt := Nat.lt_trichotomy m n
      · rw [hBefore' m hm hLt] at hFree
        cases hFree
      · rw [hEq]
      · rw [hBefore n hn hGt] at hFree'
        cases hFree'

theorem lookup_uniqueName {β : Type*} (tree : FileTree β) (dir : Path) (desired : Text) :
    tree.lookup (dir ++ [uniqueName tree dir desired]) = none := by
  have hFree : tree.contains (dir ++ [uniqueName tree dir desired]) = false := (uniqueName_spec tree dir desired).1
  rwa [FileTree.contains, Option.isSome_eq_false_iff, Option.isNone_iff_eq_none] at hFree

theorem uniqueName_alike {β γ : Type*} {same : β → γ → Prop} {s : FileTree β} {t : FileTree γ}
    (h : FileTree.Alike same s t) (dir : Path) (desired : Text) : uniqueName s dir desired = uniqueName t dir desired := by
  have hTaken : (fun name => s.contains (dir ++ [name])) = fun name => t.contains (dir ++ [name]) :=
    funext fun name => h.contains _
  have hName := uniqueName_spec s dir desired
  rw [hTaken] at hName
  exact hName.unique (uniqueName_spec t dir desired)

theorem IsUniqueName.mono {taken more : Text → Bool} {desired name : Text}
    (h : IsUniqueName taken desired name) (hMore : ∀ other, taken other = true → more other = true)
    (hFree : more name = false) : IsUniqueName more desired name := by
  obtain ⟨-, hSame | ⟨hTaken, n, hn, hName, hBefore⟩⟩ := h
  · exact ⟨hFree, .inl hSame⟩
  · exact ⟨hFree, .inr ⟨hMore _ hTaken, n, hn, hName, fun m hm hmn => hMore _ (hBefore m hm hmn)⟩⟩

theorem IsUniqueName.eq_or_hyphen {taken : Text → Bool} {desired name : Text}
    (h : IsUniqueName taken desired name) : name = desired ∨ '-' ∈ name := by
  obtain ⟨-, hSame | ⟨-, n, -, rfl, -⟩⟩ := h
  · exact .inl hSame
  · exact .inr (hyphen_mem_candidateName desired n)

theorem IsUniqueName.mem {taken : Text → Bool} {desired name : Text} {c : Char}
    (h : IsUniqueName taken desired name) (hDesired : c ∈ desired) (hDot : c ≠ '.') : c ∈ name := by
  obtain ⟨-, rfl | ⟨-, n, -, rfl, -⟩⟩ := h
  · exact hDesired
  · exact mem_candidateName hDesired hDot n

theorem IsUniqueName.not_mem {taken : Text → Bool} {desired name : Text} {c : Char}
    (h : IsUniqueName taken desired name) (hDesired : c ∉ desired) (hDigit : c.isDigit = false)
    (hHyphen : c ≠ '-') (hDot : c ≠ '.') : c ∉ name := by
  obtain ⟨-, rfl | ⟨-, n, -, rfl, -⟩⟩ := h
  · exact hDesired
  · exact not_mem_candidateName hDesired hDigit hHyphen hDot n

end Pigeon.Core
