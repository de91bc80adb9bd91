import Pigeon.Library.Rows

/-! # Escaped text

A backslash escapes the character behind it. Splitting leaves every escape in place, and each piece is unescaped by
itself.
-/
namespace Pigeon.Transform.VObject

open Library

set_option autoImplicit false

/-- `piece` is the last part so far. -/
def splitUnescapedFrom (separator : Char) (piece : Text) : Text → List Text
  | [] => [piece]
  | ['\\'] => [piece ++ ['\\']]
  | '\\' :: next :: text => splitUnescapedFrom separator (piece ++ ['\\', next]) text
  | c :: text =>
    if c = separator then piece :: splitUnescapedFrom separator [] text
    else splitUnescapedFrom separator (piece ++ [c]) text

def splitUnescaped (separator : Char) (text : Text) : List Text := splitUnescapedFrom separator [] text

/-- What a backslash and the character behind it stand for. -/
def unescapeNext : Char → Text
  | 'n' | 'N' => ['\n']
  | ',' => [',']
  | ';' => [';']
  | ':' => [':']
  | '\\' => ['\\']
  | other => ['\\', other]

def unescape : Text → Text
  | [] => []
  | ['\\'] => ['\\']
  | '\\' :: next :: text => unescapeNext next ++ unescape text
  | c :: text => c :: unescape text

/-- The second text is the first with its backslashes, semicolons, commas and line feeds escaped. -/
inductive Escapes : Text → Text → Prop
  | nil : Escapes [] []
  | plain (c : Char) {s t : Text} (hPlain : c ∉ ['\\', ';', ',', '\n']) (h : Escapes s t) : Escapes (c :: s) (c :: t)
  | mark (c : Char) {s t : Text} (hMark : c ∈ ['\\', ';', ',']) (h : Escapes s t) : Escapes (c :: s) ('\\' :: c :: t)
  | newline (c : Char) {s t : Text} (hNewline : c ∈ ['n', 'N']) (h : Escapes s t) : Escapes ('\n' :: s) ('\\' :: c :: t)

def escapeChar (c : Char) : Text :=
  if c = '\n' then ['\\', 'n'] else if c ∈ ['\\', ';', ','] then ['\\', c] else [c]

def escape (s : Text) : Text := s.flatMap escapeChar

theorem escapes_escape (s : Text) : Escapes s (escape s) := by
  induction s with
  | nil => exact .nil
  | cons c s ih =>
    rw [escape, List.flatMap_cons, ← escape, escapeChar]
    split
    · rename_i hNewline
      rw [hNewline]
      exact .newline 'n' List.mem_cons_self ih
    · rename_i hOther
      split
      · rename_i hMark
        exact .mark c hMark ih
      · rename_i hPlain
        refine .plain c ?_ ih
        simp only [List.mem_cons, List.not_mem_nil, or_false, not_or] at hPlain ⊢
        exact ⟨hPlain.1, hPlain.2.1, hPlain.2.2, hOther⟩

theorem unescape_cons {c : Char} (hPlain : c ≠ '\\') (text : Text) : unescape (c :: text) = c :: unescape text := by
  rw [unescape]
  · rintro rfl
    exact absurd rfl hPlain
  · rintro next rest rfl
    exact absurd rfl hPlain

theorem Escapes.unescape {s t : Text} (h : Escapes s t) : unescape t = s := by
  induction h with
  | nil => rfl
  | plain c hPlain _ ih =>
    have hBackslash : c ≠ '\\' := fun hEq => hPlain (hEq ▸ List.mem_cons_self)
    rw [unescape_cons hBackslash, ih]
  | @mark c s t hMark _ ih =>
    have hNext : unescapeNext c = [c] := by
      simp only [List.mem_cons, List.not_mem_nil, or_false] at hMark
      obtain rfl | rfl | rfl := hMark
      · rfl
      · rfl
      · rfl
    rw [VObject.unescape, hNext, ih]
    rfl
  | @newline c s t hNewline _ ih =>
    have hNext : unescapeNext c = ['\n'] := by
      simp only [List.mem_cons, List.not_mem_nil, or_false] at hNewline
      obtain rfl | rfl := hNewline
      · rfl
      · rfl
    rw [VObject.unescape, hNext, ih]
    rfl

/-! ## Splitting -/

theorem splitUnescapedFrom_cons {separator c : Char} (hPlain : c ≠ '\\') (piece text : Text) :
    splitUnescapedFrom separator piece (c :: text) =
      if c = separator then piece :: splitUnescapedFrom separator [] text
      else splitUnescapedFrom separator (piece ++ [c]) text := by
  rw [splitUnescapedFrom]
  · rintro rfl
    exact absurd rfl hPlain
  · rintro next rest rfl
    exact absurd rfl hPlain

/-- An escaped text is gone through to its end. -/
theorem Escapes.splitUnescapedFrom_append {s t : Text} (h : Escapes s t) (piece rest : Text) :
    splitUnescapedFrom ';' piece (t ++ rest) = splitUnescapedFrom ';' (piece ++ t) rest := by
  induction h generalizing piece with
  | nil => rw [List.nil_append, List.append_nil]
  | plain c hPlain _ ih =>
    simp only [List.mem_cons, List.not_mem_nil, or_false, not_or] at hPlain
    rw [List.cons_append, splitUnescapedFrom_cons hPlain.1, if_neg hPlain.2.1, ih, List.append_assoc]
    rfl
  | mark c _ _ ih =>
    rw [List.cons_append, List.cons_append, splitUnescapedFrom, ih, List.append_assoc]
    rfl
  | newline c _ _ ih =>
    rw [List.cons_append, List.cons_append, splitUnescapedFrom, ih, List.append_assoc]
    rfl

theorem splitUnescapedFrom_semicolon (piece rest : Text) :
    splitUnescapedFrom ';' piece (';' :: rest) = piece :: splitUnescapedFrom ';' [] rest := by
  rw [splitUnescapedFrom_cons (by decide), if_pos rfl]

/-- The pieces are found again, however often backslashes stand before a separator. -/
theorem splitUnescaped_intercalate {strings pieces : List Text} (hStrings : strings ≠ [])
    (h : List.Forall₂ Escapes strings pieces) : splitUnescaped ';' ([';'].intercalate pieces) = pieces := by
  induction h with
  | nil => exact absurd rfl hStrings
  | @cons s t strings pieces hFirst hRest ih =>
    cases hRest with
    | nil =>
      have hSplit := hFirst.splitUnescapedFrom_append [] []
      rw [List.append_nil, List.nil_append] at hSplit
      rw [List.intercalate_singleton, splitUnescaped, hSplit]
      rfl
    | cons hNext hMore =>
      rw [List.intercalate_cons_cons, splitUnescaped, List.append_assoc, hFirst.splitUnescapedFrom_append, List.singleton_append,
        splitUnescapedFrom_semicolon, List.nil_append]
      exact congrArg (t :: ·) (ih (List.cons_ne_nil _ _))

theorem map_unescape_of_escapes {strings pieces : List Text} (h : List.Forall₂ Escapes strings pieces) :
    pieces.map unescape = strings := by
  induction h with
  | nil => rfl
  | cons hFirst _ ih => rw [List.map_cons, hFirst.unescape, ih]

end Pigeon.Transform.VObject
