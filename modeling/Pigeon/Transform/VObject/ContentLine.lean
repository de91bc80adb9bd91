import Pigeon.Library.Rows
import Pigeon.Transform.VObject.Property

/-! # Content lines

A colon, a semicolon or a comma within double quotes is part of a parameter value. A line is rendered from its parts
with a choice of quotes, and parsed to the same parts.
-/
namespace Pigeon.Transform.VObject

open Library

set_option autoImplicit false

/-- The text before the first colon outside quotes and the text behind it. -/
def splitColon : Bool → Text → Option (Text × Text)
  | _, [] => none
  | inQuotes, c :: line =>
    if c = '"' then (splitColon (!inQuotes) line).map fun pieces => (c :: pieces.1, pieces.2)
    else if c = ':' ∧ inQuotes = false then some ([], line)
    else (splitColon inQuotes line).map fun pieces => (c :: pieces.1, pieces.2)

/-- `piece` is the last part so far. -/
def splitQuotedFrom (separator : Char) : Bool → Text → Text → List Text
  | _, piece, [] => [piece]
  | inQuotes, piece, c :: text =>
    if c = '"' then splitQuotedFrom separator (!inQuotes) (piece ++ [c]) text
    else if c = separator ∧ inQuotes = false then piece :: splitQuotedFrom separator inQuotes [] text
    else splitQuotedFrom separator inQuotes (piece ++ [c]) text

def splitQuoted (separator : Char) (text : Text) : List Text := splitQuotedFrom separator false [] text

/-- `trim_matches('"')` -/
def trimQuotes (s : Text) : Text := ((s.dropWhile (· == '"')).reverse.dropWhile (· == '"')).reverse

def parseParam (param : Text) : Text × Text :=
  match Text.splitOnce ['='] param with
  | some (key, value) => ((Text.trim key).map Char.toUpper, trimQuotes (Text.trim value))
  | none =>
    let bare := Text.trim param
    if ["QUOTED-PRINTABLE".toList, "BASE64".toList, "B".toList].contains (bare.map Char.toUpper) then ("ENCODING".toList, bare)
    else ("TYPE".toList, bare)

def parseLine (line : Text) : Option Property :=
  match splitColon false line with
  | none => none
  | some (head, value) =>
    match splitQuoted ';' head with
    | [] => none
    | first :: parts =>
      let fullName := Text.trim first
      let (group, name) :=
        match Text.rsplitOnce '.' fullName with
        | some (group, name) => (some group, name)
        | none => (none, fullName)
      some ⟨group, name.map Char.toUpper, parts.map parseParam, value⟩

/-! ## Rendered lines -/

def isTokenChar (c : Char) : Bool := !Text.isWhitespace c && !List.contains ['"', ':', ';', ',', '=', '.'] c

structure Token where
  text : Text
  ne_nil : text ≠ []
  chars : ∀ c ∈ text, isTokenChar c

structure Parameter where
  name : Token
  value : Text
  quoted : Bool
  unquotable : '"' ∉ value
  needsQuotes : (∃ c ∈ value, c ∈ [';', ':', ',']) ∨ Text.trim value ≠ value → quoted = true

/-- The parts of a content line. -/
structure ContentParts where
  group : Option Token
  name : Token
  params : List Parameter
  value : Text

def Parameter.render (param : Parameter) : Text :=
  param.name.text ++ '=' :: if param.quoted then '"' :: param.value ++ ['"'] else param.value

namespace ContentParts

def fullName (parts : ContentParts) : Text :=
  match parts.group with
  | some group => group.text ++ '.' :: parts.name.text
  | none => parts.name.text

def head (parts : ContentParts) : Text := parts.fullName ++ parts.params.flatMap fun param => ';' :: param.render

def render (parts : ContentParts) : Text := parts.head ++ ':' :: parts.value

/-- The parts as a property, the names upper-cased. -/
def property (parts : ContentParts) : Property where
  group := parts.group.map Token.text
  name := parts.name.text.map Char.toUpper
  params := parts.params.map fun param => (param.name.text.map Char.toUpper, param.value)
  value := parts.value

end ContentParts

/-- Letters, digits and hyphens can stand in a name. -/
theorem isTokenChar_of_alphanum {c : Char} (h : c.isAlphanum ∨ c = '-') : isTokenChar c := by
  obtain hAlphanum | rfl := h
  · have hMark : c ∉ ['"', ':', ';', ',', '=', '.'] := by
      intro hMem
      have hNone : ∀ mark ∈ ['"', ':', ';', ',', '=', '.'], ¬ mark.isAlphanum := by simp
      exact hNone c hMem hAlphanum
    rw [isTokenChar, Text.isWhitespace_of_isAlphanum hAlphanum, Bool.not_false, Bool.true_and, Bool.not_eq_true',
      ← Bool.not_eq_true, List.contains_iff_mem]
    exact hMark
  · decide

/-! ## Passing over quotes -/

/-- The separator stands within quotes only, and all quotes are closed. -/
inductive Passed (separator : Char) : Text → Prop
  | nil : Passed separator []
  | plain {c : Char} {s : Text} (hPlain : c ≠ '"' ∧ c ≠ separator) (h : Passed separator s) : Passed separator (c :: s)
  | quoted {value s : Text} (hValue : '"' ∉ value) (h : Passed separator s) :
      Passed separator ('"' :: value ++ '"' :: s)

variable {separator : Char}

theorem Passed.of_not_mem {s : Text} (h : ∀ c ∈ s, c ≠ '"' ∧ c ≠ separator) : Passed separator s := by
  induction s with
  | nil => exact .nil
  | cons c s ih =>
    obtain ⟨hFirst, hRest⟩ := List.forall_mem_cons.mp h
    exact .plain hFirst (ih hRest)

theorem Passed.append {s t : Text} (hFirst : Passed separator s) (hSecond : Passed separator t) :
    Passed separator (s ++ t) := by
  induction hFirst with
  | nil => exact hSecond
  | plain hPlain _ ih => exact .plain hPlain ih
  | quoted hValue _ ih =>
    rw [List.append_assoc, List.cons_append]
    exact .quoted hValue ih

theorem splitColon_quoted {value : Text} (hValue : '"' ∉ value) (rest : Text) :
    splitColon true (value ++ '"' :: rest) =
      (splitColon false rest).map fun pieces => (value ++ '"' :: pieces.1, pieces.2) := by
  induction value with
  | nil => rw [List.nil_append, splitColon, if_pos rfl]; rfl
  | cons c value ih =>
    obtain ⟨hQuote, hRest⟩ := not_or.mp (mt List.mem_cons.mpr hValue)
    rw [List.cons_append, splitColon, if_neg (Ne.symm hQuote), if_neg (by simp), ih hRest, Option.map_map]
    rfl

theorem Passed.splitColon_append {s : Text} (h : Passed ':' s) (rest : Text) :
    splitColon false (s ++ rest) = (splitColon false rest).map fun pieces => (s ++ pieces.1, pieces.2) := by
  induction h with
  | nil => exact Option.map_id'.symm
  | plain hPlain _ ih =>
    rw [List.cons_append, splitColon, if_neg hPlain.1, if_neg (fun hColon => hPlain.2 hColon.1), ih, Option.map_map]
    rfl
  | quoted hValue _ ih =>
    rw [List.append_assoc, List.cons_append, List.cons_append, splitColon, if_pos rfl, Bool.not_false,
      splitColon_quoted hValue, ih, Option.map_map, Option.map_map]
    simp [Function.comp_def]

theorem splitQuotedFrom_quoted {value : Text} (hValue : '"' ∉ value) (piece rest : Text) :
    splitQuotedFrom separator true piece (value ++ '"' :: rest) =
      splitQuotedFrom separator false (piece ++ value ++ ['"']) rest := by
  induction value generalizing piece with
  | nil => rw [List.nil_append, splitQuotedFrom, if_pos rfl, List.append_nil]; rfl
  | cons c value ih =>
    obtain ⟨hQuote, hRest⟩ := not_or.mp (mt List.mem_cons.mpr hValue)
    rw [List.cons_append, splitQuotedFrom, if_neg (Ne.symm hQuote), if_neg (by simp), ih hRest]
    simp

theorem Passed.splitQuotedFrom_append {s : Text} (h : Passed separator s) (piece rest : Text) :
    splitQuotedFrom separator false piece (s ++ rest) = splitQuotedFrom separator false (piece ++ s) rest := by
  induction h generalizing piece with
  | nil => rw [List.nil_append, List.append_nil]
  | plain hPlain _ ih =>
    rw [List.cons_append, splitQuotedFrom, if_neg hPlain.1, if_neg (fun hSeparator => hPlain.2 hSeparator.1), ih]
    simp
  | quoted hValue _ ih =>
    rw [List.append_assoc, List.cons_append, List.cons_append, splitQuotedFrom, if_pos rfl, Bool.not_false,
      splitQuotedFrom_quoted hValue, ih]
    simp

theorem splitQuoted_flatMap (hSeparator : separator ≠ '"') {first : Text} (hFirst : Passed separator first)
    {pieces : List Text} (hPieces : ∀ piece ∈ pieces, Passed separator piece) :
    splitQuoted separator (first ++ pieces.flatMap fun piece => separator :: piece) = first :: pieces := by
  induction pieces generalizing first with
  | nil =>
    rw [List.flatMap_nil, splitQuoted, hFirst.splitQuotedFrom_append]
    rfl
  | cons piece pieces ih =>
    obtain ⟨hPiece, hRest⟩ := List.forall_mem_cons.mp hPieces
    rw [List.flatMap_cons, splitQuoted, hFirst.splitQuotedFrom_append, List.cons_append, splitQuotedFrom, if_neg hSeparator,
      if_pos ⟨rfl, rfl⟩, List.nil_append]
    exact congrArg (first :: ·) (ih hPiece hRest)

/-! ## The parts of a line -/

theorem Token.not_mem (token : Token) {c : Char} (h : isTokenChar c = false) : c ∉ token.text := by
  intro hMem
  have hChar := token.chars c hMem
  rw [h] at hChar
  cases hChar

theorem Token.trim (token : Token) : Text.trim token.text = token.text := by
  apply Text.trim_eq_self
  intro c hMem
  have hChar := token.chars c hMem
  rw [isTokenChar, Bool.and_eq_true, Bool.not_eq_true'] at hChar
  exact hChar.1

theorem Token.passed (token : Token) (hSeparator : isTokenChar separator = false) : Passed separator token.text := by
  refine .of_not_mem fun c hMem => ⟨?_, ?_⟩
  · rintro rfl
    exact token.not_mem (by decide) hMem
  · rintro rfl
    exact token.not_mem hSeparator hMem

theorem trimQuotes_of_not_mem {value : Text} (h : '"' ∉ value) : trimQuotes value = value := by
  have hKept {s : Text} (hFree : '"' ∉ s) : s.dropWhile (· == '"') = s := by
    cases s with
    | nil => rfl
    | cons c s =>
      have hOther : (c == '"') = false := beq_false_of_ne (Ne.symm (List.ne_of_not_mem_cons hFree))
      rw [List.dropWhile_cons, hOther, if_neg Bool.false_ne_true]
  have hReverse : '"' ∉ value.reverse := fun hMem => h (List.mem_reverse.mp hMem)
  rw [trimQuotes, hKept h, hKept hReverse, List.reverse_reverse]

theorem trimQuotes_quoted {value : Text} (h : '"' ∉ value) : trimQuotes ('"' :: value ++ ['"']) = value := by
  cases value with
  | nil => rfl
  | cons c value =>
    have hFree := trimQuotes_of_not_mem h
    have hOther : (c == '"') = false := beq_false_of_ne (Ne.symm (List.ne_of_not_mem_cons h))
    rw [trimQuotes, List.dropWhile_cons, hOther, if_neg Bool.false_ne_true] at hFree
    simpa [trimQuotes, List.dropWhile_cons, hOther] using hFree

namespace Parameter

theorem passed (param : Parameter) (hSeparator : separator ∈ [';', ':']) : Passed separator param.render := by
  have hName : isTokenChar separator = false ∧ '=' ≠ separator := by
    simp only [List.mem_cons, List.not_mem_nil, or_false] at hSeparator
    obtain rfl | rfl := hSeparator
    · decide
    · decide
  refine (param.name.passed hName.1).append (.plain ⟨by decide, hName.2⟩ ?_)
  split
  · exact .quoted param.unquotable .nil
  · rename_i hBare
    refine .of_not_mem fun c hMem => ⟨?_, ?_⟩
    · rintro rfl
      exact param.unquotable hMem
    · rintro rfl
      refine hBare (param.needsQuotes (.inl ⟨c, hMem, ?_⟩))
      exact List.mem_of_mem_dropLast hSeparator

theorem trim_quoted (value : Text) : Text.trim ('"' :: value ++ ['"']) = '"' :: value ++ ['"'] := by
  refine Text.trim_of_ends (fun c hFirst => ?_) fun c hLast => ?_
  · obtain rfl := Option.some.inj hFirst
    decide
  · rw [List.getLast?_concat] at hLast
    obtain rfl := Option.some.inj hLast
    decide

theorem parseParam_append {key : Text} (hKey : '=' ∉ key) (value : Text) :
    parseParam (key ++ '=' :: value) = ((Text.trim key).map Char.toUpper, trimQuotes (Text.trim value)) := by
  have hSplit : Text.splitOnce ['='] (key ++ '=' :: value) = some (key, value) := Text.splitOnce_append hKey value
  rw [parseParam, hSplit]

theorem parseParam_render (param : Parameter) :
    parseParam param.render = (param.name.text.map Char.toUpper, param.value) := by
  rw [render, parseParam_append (param.name.not_mem (by decide)), param.name.trim]
  cases hQuoted : param.quoted with
  | true => rw [if_pos rfl, trim_quoted, trimQuotes_quoted param.unquotable]
  | false =>
    have hTrim : Text.trim param.value = param.value := by
      apply Classical.byContradiction
      intro hOuter
      exact absurd (param.needsQuotes (.inr hOuter)) (Bool.eq_false_iff.mp hQuoted)
    rw [if_neg Bool.false_ne_true, hTrim, trimQuotes_of_not_mem param.unquotable]

end Parameter

namespace ContentParts

theorem passed_fullName (parts : ContentParts) (hSeparator : separator ∈ [';', ':']) : Passed separator parts.fullName := by
  have hMark : isTokenChar separator = false ∧ '.' ≠ separator := by
    simp only [List.mem_cons, List.not_mem_nil, or_false] at hSeparator
    obtain rfl | rfl := hSeparator
    · decide
    · decide
  rw [fullName]
  cases parts.group with
  | none => exact parts.name.passed hMark.1
  | some group => exact (group.passed hMark.1).append (.plain ⟨by decide, hMark.2⟩ (parts.name.passed hMark.1))

theorem passed_head (parts : ContentParts) : Passed ':' parts.head := by
  refine (parts.passed_fullName (by decide)).append ?_
  induction parts.params with
  | nil => exact .nil
  | cons param params ih => exact .plain (by decide) ((param.passed (by decide)).append ih)

theorem trim_fullName (parts : ContentParts) : Text.trim parts.fullName = parts.fullName := by
  apply Text.trim_eq_self
  intro c hMem
  have hToken (token : Token) (hIn : c ∈ token.text) : Text.isWhitespace c = false := by
    have hChar := token.chars c hIn
    rw [isTokenChar, Bool.and_eq_true, Bool.not_eq_true'] at hChar
    exact hChar.1
  rw [fullName] at hMem
  cases hGroup : parts.group with
  | none =>
    rw [hGroup] at hMem
    exact hToken parts.name hMem
  | some group =>
    rw [hGroup] at hMem
    obtain hIn | hIn := List.mem_append.mp hMem
    · exact hToken group hIn
    · obtain rfl | hIn := List.mem_cons.mp hIn
      · decide
      · exact hToken parts.name hIn

theorem rsplitOnce_fullName (parts : ContentParts) :
    Text.rsplitOnce '.' parts.fullName = parts.group.map fun group => (group.text, parts.name.text) := by
  have hName : '.' ∉ parts.name.text := parts.name.not_mem (by decide)
  rw [fullName]
  cases parts.group with
  | none => exact Text.rsplitOnce_of_not_mem hName
  | some group => exact Text.rsplitOnce_append group.text hName

end ContentParts

/-- A rendered line is parsed to its parts, whatever stands within quotes and in the value. -/
theorem parseLine_render (parts : ContentParts) : parseLine parts.render = some parts.property := by
  have hColon : splitColon false parts.render = some (parts.head, parts.value) := by
    rw [ContentParts.render, parts.passed_head.splitColon_append, splitColon, if_neg (by decide), if_pos ⟨rfl, rfl⟩,
      Option.map_some, List.append_nil]
  have hPieces : ∀ piece ∈ parts.params.map Parameter.render, Passed ';' piece := by
    intro piece hMem
    obtain ⟨param, -, rfl⟩ := List.mem_map.mp hMem
    exact param.passed (by decide)
  have hParts : splitQuoted ';' parts.head = parts.fullName :: parts.params.map Parameter.render := by
    rw [← splitQuoted_flatMap (by decide) (parts.passed_fullName (by decide)) hPieces, ContentParts.head, List.flatMap_map]
  have hParams : (parts.params.map Parameter.render).map parseParam = parts.property.params := by
    rw [List.map_map]
    exact List.map_congr_left fun param _ => param.parseParam_render
  simp only [parseLine, hColon, hParts, parts.trim_fullName, parts.rsplitOnce_fullName, hParams]
  cases hGroup : parts.group with
  | none => simp [ContentParts.property, ContentParts.fullName, hGroup]
  | some group => simp [ContentParts.property, hGroup]

/-- A colon within quotes, and quotes in the value. -/
example : parseLine "item1.tel;Type=\"a;b:\";x=:+1:\"2".toList =
    some ⟨some "item1".toList, "TEL".toList, [("TYPE".toList, "a;b:".toList), ("X".toList, [])], "+1:\"2".toList⟩ := by
  decide +kernel

end Pigeon.Transform.VObject
