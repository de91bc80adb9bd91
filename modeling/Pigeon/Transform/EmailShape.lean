import Pigeon.Library.LineEnds

/-! # Markdown that was rendered from an email

Four families of signals are read off the lines of a text, and two of them make it email-shaped. None of them depends on how
the lines end, nor on a byte order mark.
-/
namespace Pigeon.Transform.EmailShape

open Library Text

set_option autoImplicit false

def headerTableLines : Nat := 100

def rawHeaderNames : List Text := [
  "message-id:".toList, "received:".toList, "return-path:".toList, "mime-version:".toList, "dkim-signature:".toList,
  "delivered-to:".toList, "arc-seal:".toList, "x-gmail-labels:".toList]

/-- Which families matched. -/
structure EmailSignals where
  frontmatterHeaders : Bool
  provenance : Bool
  headerTable : Bool
  rawHeaders : Bool
deriving DecidableEq, Repr

def EmailSignals.count (found : EmailSignals) : Nat :=
  ([found.frontmatterHeaders, found.provenance, found.headerTable, found.rawHeaders].filter id).length

def toAsciiLowercase (s : Text) : Text := s.map Char.toLower

/-- The loop of `split_frontmatter` behind the opening line. -/
def closeFrontmatter (text : Text) (consumed : Nat) (frontmatter : List Text) : List Text → Option (List Text × Text)
  | [] => none
  | line :: more =>
    if trim line = "---".toList then some (frontmatter, text.drop (consumed + line.length))
    else
      closeFrontmatter text (consumed + line.length) (frontmatter ++ [trimEndMatches (['\r', '\n'].contains ·) line]) more

def splitFrontmatter (text : Text) : Option (List Text) × Text :=
  match splitInclusive text with
  | [] => (none, text)
  | first :: more =>
    if trim first = "---".toList then
      match closeFrontmatter text first.length [] more with
      | some (frontmatter, body) => (some frontmatter, body)
      | none => (none, text)
    else (none, text)

def keyValue (line : Text) : Option (Text × Text) :=
  if line.head?.any ([' ', '\t', '-', '#'].contains ·) then none
  else (splitOnce [':'] line).map fun pieces => (trim pieces.1, trim pieces.2)

def unquote (value : Text) : Text := trimMatches (['"', '\''].contains ·) value

def hasTaxonomyTag (line : Text) : Bool :=
  (line.splitOnP fun c => isWhitespace c || [',', '[', ']', '"', '\''].contains c).any fun token =>
    "mailbox/".toList.isPrefixOf token || "identity/".toList.isPrefixOf token

def isHeaderLabelLine (lower label : Text) : Bool :=
  if ['|'].isPrefixOf lower then
    let firstCell := ((lower.dropWhile (· == '|')).splitOn '|').head?.getD []
    trim firstCell == "**".toList ++ label ++ "**".toList
  else
    ("**".toList ++ label ++ ":**".toList).isPrefixOf lower || ("**".toList ++ label ++ "**:".toList).isPrefixOf lower

def hasKey (frontmatter : List Text) (name : Text) : Bool :=
  (frontmatter.filterMap keyValue).any fun entry => entry.1 == name

def frontmatterHeaders (frontmatter : List Text) : Bool :=
  hasKey frontmatter "sender_domain".toList ||
    2 ≤ (["from".toList, "to".toList, "cc".toList, "subject".toList].filter (hasKey frontmatter)).length

def frontmatterProvenance (frontmatter : List Text) : Bool :=
  hasKey frontmatter "has_attachments".toList || hasKey frontmatter "uid".toList || hasKey frontmatter "also-in".toList ||
    (frontmatter.filterMap keyValue).any (fun entry =>
      entry.1 == "source".toList && ".eml".toList.isSuffixOf (toAsciiLowercase (unquote entry.2))) ||
    frontmatter.any hasTaxonomyTag

def bodyProvenance (bodyLines : List Text) : Bool :=
  bodyLines.any fun line =>
    let lower := toAsciiLowercase line
    "original file".toList <:+: lower && ".eml".toList <:+: lower

/-- Which of the four labels some line of the table has. -/
def labelsSeen (bodyLines : List Text) : List Bool :=
  bodyLines.foldl
    (fun seen line => List.zipWith (fun seen label => seen || isHeaderLabelLine (toAsciiLowercase (trim line)) label) seen
      ["from".toList, "to".toList, "subject".toList, "date".toList])
    [false, false, false, false]

def rawNamesSeen (textLines : List Text) : Nat :=
  (rawHeaderNames.filter fun name => textLines.any fun line => name.isPrefixOf (toAsciiLowercase line)).length

def byteOrderMark : Char := '\uFEFF'

def stripMark (text : Text) : Text := if text.head? = some byteOrderMark then text.tail else text

/-- Every family's verdict, regardless of the threshold. -/
def signals (text : Text) : EmailSignals :=
  let text := stripMark text
  let (frontmatter, body) := splitFrontmatter text
  { frontmatterHeaders := frontmatter.any frontmatterHeaders
    provenance := frontmatter.any frontmatterProvenance || bodyProvenance (lines body)
    headerTable := 3 ≤ ((labelsSeen ((lines body).take headerTableLines)).filter id).length
    rawHeaders := 3 ≤ rawNamesSeen (lines text) }

def classify (text : Text) : Option EmailSignals := if 2 ≤ (signals text).count then some (signals text) else none

/-! ## The frontmatter -/

theorem closeFrontmatter_crlf {more : List Text} (before : Text) (frontmatter : List Text)
    (hMore : ∀ line ∈ more, ∃ content, '\n' ∉ content ∧ (line = content ∨ line = content ++ ['\n'])) :
    closeFrontmatter (crlf (before ++ more.flatten)) (crlf before).length frontmatter (more.map crlf) =
      (closeFrontmatter (before ++ more.flatten) before.length frontmatter more).map fun found => (found.1, crlf found.2) := by
  induction more generalizing before frontmatter with
  | nil => rfl
  | cons line more ih =>
    obtain ⟨⟨content, hContent, hLine⟩, hRest⟩ := List.forall_mem_cons.mp hMore
    have hTrim : trim (crlf line) = trim line := (trimMatches_crlf (by decide) (by decide) hContent hLine).1
    have hEnd := (trimMatches_crlf (p := (['\r', '\n'].contains ·)) (by decide) (by decide) hContent hLine).2
    have hLength : (crlf before).length + (crlf line).length = (crlf (before ++ line)).length := by
      rw [crlf_append, List.length_append]
    rw [List.map_cons, closeFrontmatter, closeFrontmatter, hTrim, hEnd, hLength, ← List.length_append, List.flatten_cons,
      ← List.append_assoc]
    split
    · rw [Option.map_some, crlf_append (before ++ line), List.drop_left, List.drop_left]
    · exact ih (before ++ line) _ hRest

/-- Carriage returns change nothing in the frontmatter, and stay in the body. -/
theorem splitFrontmatter_crlf (text : Text) :
    splitFrontmatter (crlf text) = ((splitFrontmatter text).1, crlf (splitFrontmatter text).2) := by
  have hFlatten := flatten_splitInclusive text
  have hLines : ∀ line ∈ splitInclusive text, ∃ content, '\n' ∉ content ∧ (line = content ∨ line = content ++ ['\n']) :=
    fun line hLine => mem_splitInclusive hLine
  rw [splitFrontmatter, splitFrontmatter, splitInclusive_crlf]
  cases hSplit : splitInclusive text with
  | nil => rfl
  | cons first more =>
    rw [hSplit] at hFlatten hLines
    obtain ⟨⟨content, hContent, hFirst⟩, hMore⟩ := List.forall_mem_cons.mp hLines
    have hTrim : trim (crlf first) = trim first := (trimMatches_crlf (by decide) (by decide) hContent hFirst).1
    have hClose := closeFrontmatter_crlf first [] hMore
    rw [← List.flatten_cons, hFlatten] at hClose
    rw [List.map_cons]
    simp only [hTrim, hClose]
    split
    · cases closeFrontmatter text first.length [] more with
      | none => rfl
      | some found => rfl
    · rfl

theorem closeFrontmatter_subset {text : Text} {consumed : Nat} {frontmatter more : List Text} {found : List Text × Text}
    (h : closeFrontmatter text consumed frontmatter more = some found) : found.2 ⊆ text := by
  induction more generalizing consumed frontmatter with
  | nil => cases h
  | cons line more ih =>
    rw [closeFrontmatter] at h
    split at h
    · cases h
      exact List.drop_subset _ text
    · exact ih h

theorem splitFrontmatter_subset (text : Text) : (splitFrontmatter text).2 ⊆ text := by
  rw [splitFrontmatter]
  split
  · exact List.Subset.refl text
  · split
    · split
      · rename_i hClose
        exact closeFrontmatter_subset hClose
      · exact List.Subset.refl text
    · exact List.Subset.refl text

/-! ## The signals -/

theorem head?_crlf {text : Text} (h : text.head? ≠ some byteOrderMark) : (crlf text).head? ≠ some byteOrderMark := by
  cases text with
  | nil => exact h
  | cons c rest =>
    rw [crlf, List.flatMap_cons]
    split
    · exact fun hHead => absurd (Option.some.inj hHead) (by decide)
    · exact h

theorem stripMark_of_ne {text : Text} (h : text.head? ≠ some byteOrderMark) : stripMark text = text := if_neg h

theorem stripMark_cons (text : Text) : stripMark (byteOrderMark :: text) = text := rfl

/-- The signals of a text are read off its frontmatter, the lines of its body and its own lines. -/
theorem signals_congr {text other : Text}
    (hFrontmatter : (splitFrontmatter (stripMark other)).1 = (splitFrontmatter (stripMark text)).1)
    (hBody : lines (splitFrontmatter (stripMark other)).2 = lines (splitFrontmatter (stripMark text)).2)
    (hLines : lines (stripMark other) = lines (stripMark text)) : signals other = signals text := by
  simp only [signals, hFrontmatter, hBody, hLines]

theorem signals_of_stripMark {text other : Text} (h : stripMark other = stripMark text) : signals other = signals text :=
  signals_congr (by rw [h]) (by rw [h]) (by rw [h])

theorem signals_crlf {text : Text} (hReturn : '\r' ∉ text) (hMark : text.head? ≠ some byteOrderMark) :
    signals (crlf text) = signals text := by
  have hBody : '\r' ∉ (splitFrontmatter text).2 := fun hMem => hReturn (splitFrontmatter_subset text hMem)
  apply signals_congr
  · rw [stripMark_of_ne hMark, stripMark_of_ne (head?_crlf hMark), splitFrontmatter_crlf]
  · rw [stripMark_of_ne hMark, stripMark_of_ne (head?_crlf hMark), splitFrontmatter_crlf]
    exact lines_crlf hBody
  · rw [stripMark_of_ne hMark, stripMark_of_ne (head?_crlf hMark), lines_crlf hReturn]

theorem signals_mark {text : Text} (hMark : text.head? ≠ some byteOrderMark) :
    signals (byteOrderMark :: text) = signals text :=
  signals_of_stripMark (by rw [stripMark_cons, stripMark_of_ne hMark])

theorem classify_congr {text other : Text} (h : signals other = signals text) : classify other = classify text := by
  rw [classify, classify, h]

/-- A text without carriage returns or a mark, the same with carriage returns, and either with a mark are classified alike,
family by family. -/
theorem signals_lineEnds {text : Text} (hReturn : '\r' ∉ text) (hMark : text.head? ≠ some byteOrderMark) :
    ∀ other ∈ [crlf text, byteOrderMark :: text, byteOrderMark :: crlf text],
      signals other = signals text ∧ classify other = classify text := by
  have hCrlf := signals_crlf hReturn hMark
  have hBoth := (signals_mark (head?_crlf hMark)).trans hCrlf
  intro other hOther
  rw [List.mem_cons, List.mem_pair] at hOther
  rcases hOther with rfl | rfl | rfl
  · exact ⟨hCrlf, classify_congr hCrlf⟩
  · exact ⟨signals_mark hMark, classify_congr (signals_mark hMark)⟩
  · exact ⟨hBoth, classify_congr hBoth⟩

theorem signals_lineEnds_note :
    signals (byteOrderMark :: crlf "---\nfrom: a\nuid: 7\n---\n\nHi.\n".toList) =
      signals "---\nfrom: a\nuid: 7\n---\n\nHi.\n".toList :=
  (signals_lineEnds (by decide) (by decide) _ (List.mem_cons_of_mem _ (List.mem_cons_of_mem _ List.mem_cons_self))).1

end Pigeon.Transform.EmailShape
