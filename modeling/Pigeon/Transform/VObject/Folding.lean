import Pigeon.Library.Lossy

/-! # Folded lines

A content line is folded by a line end and a space or a tab at any byte, within a character too. The physical lines
are joined as bytes and read as text when the logical line is whole.
-/
namespace Pigeon.Transform.VObject

open Library

set_option autoImplicit false

def byteOrderMark : List UInt8 := [0xEF, 0xBB, 0xBF]

def stripCarriageReturn (raw : List UInt8) : List UInt8 :=
  if raw.getLast? = some 0x0D then raw.dropLast else raw

def quotedPrintable : Text := "QUOTED-PRINTABLE".toList

/-- Whether the parameters of a raw logical line declare quoted-printable. -/
def isQpLine (line : List UInt8) : Bool :=
  decide (quotedPrintable <:+: (Utf8.lossy (line.takeWhile (· != 0x3A))).map Char.toUpper)

structure Unfolding where
  logical : List (List UInt8)
  inSoftBreak : Bool

namespace Unfolding

/-- The state behind a line that has been joined or begun. -/
def resume (logical : List (List UInt8)) : Unfolding where
  logical := logical
  inSoftBreak := logical.getLast?.any fun last => last.getLast? == some 0x3D && isQpLine last

/-- The body of the loop of `unfold`. -/
def read (u : Unfolding) (raw : List UInt8) : Unfolding :=
  match u.logical.getLast?, u.inSoftBreak, stripCarriageReturn raw with
  | some last, true, line => resume (u.logical.dropLast ++ [last.dropLast ++ line])
  | some last, false, b :: rest =>
    if b = 0x20 ∨ b = 0x09 then resume (u.logical.dropLast ++ [last ++ rest]) else resume (u.logical ++ [b :: rest])
  | none, _, b :: rest => resume (u.logical ++ [b :: rest])
  | _, _, [] => { u with inSoftBreak := false }

end Unfolding

/-- `unfold` -/
def unfoldLines (bytes : List UInt8) : List Text :=
  let bytes := if byteOrderMark.isPrefixOf bytes then bytes.drop byteOrderMark.length else bytes
  ((bytes.splitOn 0x0A).foldl Unfolding.read ⟨[], false⟩).logical.map Utf8.lossy

/-! ## Folding -/

inductive LineEnd where
  | crlf
  | lf
deriving DecidableEq, Repr

def LineEnd.bytes : LineEnd → List UInt8
  | .crlf => [0x0D, 0x0A]
  | .lf => [0x0A]

inductive Indent where
  | space
  | tab
deriving DecidableEq, Repr

def Indent.byte : Indent → UInt8
  | .space => 0x20
  | .tab => 0x09

structure Fold where
  indent : Indent
  piece : List UInt8
  ending : LineEnd
deriving DecidableEq, Repr

/-- The bytes of a logical line, cut at any places behind the first byte. -/
structure FoldedLine where
  first : List UInt8
  first_ne_nil : first ≠ []
  ending : LineEnd
  folds : List Fold

namespace FoldedLine

def content (line : FoldedLine) : List UInt8 := line.first ++ line.folds.flatMap Fold.piece

def physical (line : FoldedLine) : List (List UInt8 × LineEnd) :=
  (line.first, line.ending) :: line.folds.map fun fold => (fold.indent.byte :: fold.piece, fold.ending)

end FoldedLine

/-- The physical lines of a file, whose last need not be ended. -/
def writeLines (closed : Bool) : List (List UInt8 × LineEnd) → List UInt8
  | [] => []
  | [(line, ending)] => if closed then line ++ ending.bytes else line
  | (line, ending) :: next :: lines => line ++ ending.bytes ++ writeLines closed (next :: lines)

/-- What a line has to be for its physical lines to be told apart from others. -/
structure ContentLine (line : Text) : Prop where
  ne_nil : line ≠ []
  unbroken : '\r' ∉ line ∧ '\n' ∉ line
  outdented : line.head? ≠ some ' ' ∧ line.head? ≠ some '\t'
  unencoded : ¬ quotedPrintable <:+: (line.takeWhile (· != ':')).map Char.toUpper

/-! ## Physical lines -/

theorem stripCarriageReturn_append {line : List UInt8} (hLine : (0x0D : UInt8) ∉ line) (cr : Bool) :
    stripCarriageReturn (line ++ if cr then [0x0D] else []) = line := by
  cases cr with
  | true => rw [stripCarriageReturn, if_pos rfl, if_pos (List.getLast?_concat ..), List.dropLast_concat]
  | false =>
    rw [stripCarriageReturn, if_neg, if_neg Bool.false_ne_true, List.append_nil]
    rw [if_neg Bool.false_ne_true, List.append_nil]
    exact fun hLast => hLine (List.mem_of_getLast? hLast)

/-- The line end leaves at most a carriage return behind its line. -/
theorem splitOn_ended {line : List UInt8} (hLine : (0x0A : UInt8) ∉ line) (ending : LineEnd) (rest : List UInt8) :
    ∃ cr : Bool, (line ++ ending.bytes ++ rest).splitOn 0x0A = (line ++ if cr then [0x0D] else []) :: rest.splitOn 0x0A := by
  cases ending with
  | crlf =>
    have hRaw : (0x0A : UInt8) ∉ line ++ [0x0D] := by
      rw [List.mem_append, not_or]
      exact ⟨hLine, by decide⟩
    refine ⟨true, ?_⟩
    have hSplit := List.splitOn_append_cons_self_of_not_mem hRaw rest
    rw [if_pos rfl, ← hSplit]
    simp [LineEnd.bytes]
  | lf =>
    refine ⟨false, ?_⟩
    have hSplit := List.splitOn_append_cons_self_of_not_mem hLine rest
    rw [if_neg Bool.false_ne_true, List.append_nil, ← hSplit]
    simp [LineEnd.bytes]

namespace Unfolding

theorem read_ended {line : List UInt8} (hLine : (0x0D : UInt8) ∉ line) (cr : Bool) (u : Unfolding) :
    u.read (line ++ if cr then [0x0D] else []) = u.read line := by
  have hBare := stripCarriageReturn_append hLine false
  rw [if_neg Bool.false_ne_true, List.append_nil] at hBare
  rw [read, read, stripCarriageReturn_append hLine, hBare]

theorem read_nil (logical : List (List UInt8)) : read ⟨logical, false⟩ [] = ⟨logical, false⟩ := by
  rw [read]
  cases logical.getLast? with
  | none => rfl
  | some last => rfl

/-- Reading the file is reading its physical lines, and an empty one at the end. -/
theorem foldl_read_writeLines (closed : Bool) {lines : List (List UInt8 × LineEnd)}
    (hLines : ∀ line ∈ lines, (0x0A : UInt8) ∉ line.1 ∧ (0x0D : UInt8) ∉ line.1) (u : Unfolding) :
    ∃ tail, (tail = [] ∨ tail = [[]]) ∧
      ((writeLines closed lines).splitOn 0x0A).foldl read u = (lines.map Prod.fst ++ tail).foldl read u := by
  induction lines generalizing u with
  | nil => exact ⟨[[]], .inr rfl, rfl⟩
  | cons first rest ih =>
    obtain ⟨line, ending⟩ := first
    obtain ⟨hFeed, hReturn⟩ := hLines _ List.mem_cons_self
    cases rest with
    | nil =>
      cases closed with
      | true =>
        obtain ⟨cr, hSplit⟩ := splitOn_ended hFeed ending []
        rw [List.append_nil] at hSplit
        refine ⟨[[]], .inr rfl, ?_⟩
        rw [writeLines, if_pos rfl, hSplit, List.foldl_cons, read_ended hReturn]
        rfl
      | false =>
        refine ⟨[], .inl rfl, ?_⟩
        rw [writeLines, if_neg Bool.false_ne_true, List.splitOn_eq_singleton hFeed]
        rfl
    | cons next rest =>
      obtain ⟨cr, hSplit⟩ := splitOn_ended hFeed ending (writeLines closed (next :: rest))
      obtain ⟨tail, hTail, hRest⟩ := ih (fun line hMem => hLines line (List.mem_cons_of_mem _ hMem)) (u.read line)
      refine ⟨tail, hTail, ?_⟩
      rw [writeLines, hSplit, List.foldl_cons, read_ended hReturn, hRest]
      rfl

end Unfolding

/-! ## Logical lines -/

theorem quotedPrintable_ascii : ∀ c ∈ quotedPrintable, c.toNat < 128 := by
  have hAll : (quotedPrintable.all fun c => decide (c.toNat < 128)) = true := by
    decide +kernel
  exact fun c hMem => of_decide_eq_true (List.all_eq_true.mp hAll c hMem)

/-- A text that some characters are not in does not help to find what consists of them. -/
theorem infix_of_infix_append {pattern s junk : Text} (hPattern : pattern ≠ []) (hJunk : ∀ c ∈ pattern, c ∉ junk)
    (h : pattern <:+: s ++ junk) : pattern <:+: s := by
  obtain ⟨before, after, hSplit⟩ := h
  obtain ⟨middle, hBefore, rfl⟩ | ⟨middle, rfl, -⟩ := List.append_eq_append_iff.mp hSplit.symm
  · obtain ⟨start, rfl, rfl⟩ | ⟨rest, -, rfl⟩ := List.append_eq_append_iff.mp hBefore
    · have hNil : middle = [] := by
        apply List.eq_nil_iff_forall_not_mem.mpr
        intro c hMem
        exact hJunk c (List.mem_append_right start hMem) (List.mem_append_left after hMem)
      rw [hNil, List.append_nil]
      exact (List.suffix_append before start).isInfix
    · obtain ⟨c, hMem⟩ := List.exists_mem_of_ne_nil pattern hPattern
      exact absurd (List.mem_append_left after (List.mem_append_right rest hMem)) (hJunk c hMem)
  · exact ⟨before, middle, rfl⟩

theorem takeWhile_prefix_takeWhile {bytes whole : List UInt8} {keep : UInt8 → Bool} (h : bytes <+: whole) :
    bytes.takeWhile keep <+: whole.takeWhile keep := by
  obtain ⟨rest, rfl⟩ := h
  rw [List.takeWhile_append]
  split
  · exact (List.takeWhile_prefix keep).trans (List.prefix_append bytes _)
  · exact List.prefix_rfl

theorem toNat_of_toUpper {c : Char} (h : c.toUpper.toNat < 128) : c.toNat < 128 := by
  rw [Char.toUpper] at h
  split at h
  · rename_i hLower
    exact Nat.lt_of_le_of_lt hLower.2 (by decide)
  · exact h

theorem isQpLine_of_prefix {line : Text} (hLine : ContentLine line) {bytes : List UInt8} (h : bytes <+: Utf8.encode line) :
    isQpLine bytes = false := by
  have hHead : bytes.takeWhile (· != 0x3A) <+: Utf8.encode (line.takeWhile (· != ':')) := by
    rw [← Utf8.takeWhile_encode (by decide) line]
    exact takeWhile_prefix_takeWhile h
  obtain ⟨read, part, hBytes, hRead, hPart⟩ := Utf8.exists_of_prefix_encode hHead
  rw [isQpLine, decide_eq_false_iff_not, hBytes, Utf8.lossy_encode_append, List.map_append]
  intro hFound
  have hWithin : quotedPrintable <:+: read.map Char.toUpper := by
    refine infix_of_infix_append (by decide) (fun c hMem hJunk => ?_) hFound
    obtain ⟨d, hLossy, rfl⟩ := List.mem_map.mp hJunk
    have hAscii := toNat_of_toUpper (quotedPrintable_ascii _ hMem)
    have hHigh := hPart _ (Utf8.mem_lossyFrom hLossy hAscii)
    rw [UInt8.toNat_ofNat'] at hHigh
    omega
  exact hLine.unencoded (hWithin.trans (hRead.map _).isInfix)

theorem resume_of_prefix {line : Text} (hLine : ContentLine line) {bytes : List UInt8} (h : bytes <+: Utf8.encode line)
    (logical : List (List UInt8)) : Unfolding.resume (logical ++ [bytes]) = ⟨logical ++ [bytes], false⟩ := by
  rw [Unfolding.resume, List.getLast?_concat, Option.any_some, isQpLine_of_prefix hLine h, Bool.and_false]

theorem Unfolding.read_begin {b : UInt8} {rest : List UInt8} (hBreak : (0x0D : UInt8) ∉ b :: rest)
    (hIndent : ¬ (b = 0x20 ∨ b = 0x09)) (logical : List (List UInt8)) :
    Unfolding.read ⟨logical, false⟩ (b :: rest) = resume (logical ++ [b :: rest]) := by
  have hBare := stripCarriageReturn_append hBreak false
  rw [if_neg Bool.false_ne_true, List.append_nil] at hBare
  rw [read, hBare]
  cases logical.getLast? with
  | none => rfl
  | some last => exact if_neg hIndent

theorem Unfolding.read_fold {fold : Fold} (hBreak : (0x0D : UInt8) ∉ fold.piece) (logical : List (List UInt8))
    (last : List UInt8) : Unfolding.read ⟨logical ++ [last], false⟩ (fold.indent.byte :: fold.piece) =
      resume (logical ++ [last ++ fold.piece]) := by
  have hIndent : fold.indent.byte = 0x20 ∨ fold.indent.byte = 0x09 := by
    cases fold.indent with
    | space => exact .inl rfl
    | tab => exact .inr rfl
  have hFree : (0x0D : UInt8) ∉ fold.indent.byte :: fold.piece := by
    refine List.not_mem_cons_of_ne_of_not_mem ?_ hBreak
    obtain hByte | hByte := hIndent
    · rw [hByte]
      decide
    · rw [hByte]
      decide
  have hBare := stripCarriageReturn_append hFree false
  rw [if_neg Bool.false_ne_true, List.append_nil] at hBare
  rw [read, hBare, List.getLast?_concat, List.dropLast_concat]
  exact if_pos hIndent

/-- The folds of a line are joined one by one, and what has been joined never looks like the end of a soft line. -/
theorem foldl_read_folds {line : Text} (hLine : ContentLine line) (logical : List (List UInt8)) {folds : List Fold}
    {last : List UInt8} (hContent : last ++ folds.flatMap Fold.piece = Utf8.encode line) :
    (folds.map fun fold => fold.indent.byte :: fold.piece).foldl Unfolding.read ⟨logical ++ [last], false⟩ =
      ⟨logical ++ [Utf8.encode line], false⟩ := by
  induction folds generalizing last with
  | nil =>
    rw [List.flatMap_nil, List.append_nil] at hContent
    rw [hContent]
    rfl
  | cons fold folds ih =>
    rw [List.flatMap_cons, ← List.append_assoc] at hContent
    have hPrefix : last ++ fold.piece <+: Utf8.encode line := ⟨_, hContent⟩
    have hBreak : (0x0D : UInt8) ∉ fold.piece := by
      intro hMem
      exact hLine.unbroken.1 ((Utf8.mem_encode_iff (by decide)).mp (hPrefix.subset (List.mem_append_right last hMem)))
    rw [List.map_cons, List.foldl_cons, Unfolding.read_fold hBreak, resume_of_prefix hLine hPrefix]
    exact ih hContent

theorem foldl_read_physical {line : Text} (hLine : ContentLine line) (logical : List (List UInt8)) {folded : FoldedLine}
    (hContent : folded.content = Utf8.encode line) :
    (folded.physical.map Prod.fst).foldl Unfolding.read ⟨logical, false⟩ = ⟨logical ++ [Utf8.encode line], false⟩ := by
  have hPrefix : folded.first <+: Utf8.encode line := ⟨_, hContent⟩
  obtain ⟨b, rest, hFirst⟩ := List.exists_cons_of_ne_nil folded.first_ne_nil
  have hBreak : (0x0D : UInt8) ∉ b :: rest := by
    rw [← hFirst]
    exact fun hMem => hLine.unbroken.1 ((Utf8.mem_encode_iff (by decide)).mp (hPrefix.subset hMem))
  have hIndent : ¬ (b = 0x20 ∨ b = 0x09) := by
    obtain ⟨c, hHead, hMem⟩ := Utf8.exists_head_of_prefix_encode (hFirst ▸ hPrefix)
    rintro (rfl | rfl)
    · obtain rfl : c = ' ' := Utf8.ofNat_toNat_inj (by decide) hMem
      exact hLine.outdented.1 hHead
    · obtain rfl : c = '\t' := Utf8.ofNat_toNat_inj (by decide) hMem
      exact hLine.outdented.2 hHead
  rw [FoldedLine.physical, List.map_cons, List.foldl_cons, List.map_map, hFirst, Unfolding.read_begin hBreak hIndent, ← hFirst,
    resume_of_prefix hLine hPrefix]
  exact foldl_read_folds hLine logical hContent

theorem unbroken_of_mem_physical {line : Text} (hLine : ContentLine line) {folded : FoldedLine}
    (hContent : folded.content = Utf8.encode line) :
    ∀ physical ∈ folded.physical, (0x0A : UInt8) ∉ physical.1 ∧ (0x0D : UInt8) ∉ physical.1 := by
  have hWithin {piece : List UInt8} (hSubset : piece ⊆ folded.content) : (0x0A : UInt8) ∉ piece ∧ (0x0D : UInt8) ∉ piece := by
    rw [hContent] at hSubset
    exact ⟨fun hMem => hLine.unbroken.2 ((Utf8.mem_encode_iff (by decide)).mp (hSubset hMem)),
      fun hMem => hLine.unbroken.1 ((Utf8.mem_encode_iff (by decide)).mp (hSubset hMem))⟩
  intro physical hMem
  obtain rfl | hLater := List.mem_cons.mp hMem
  · exact hWithin (List.subset_append_left _ _)
  · obtain ⟨fold, hFold, rfl⟩ := List.mem_map.mp hLater
    have hPiece : fold.piece ⊆ folded.content := fun b hByte =>
      List.mem_append_right _ (List.mem_flatMap.mpr ⟨fold, hFold, hByte⟩)
    obtain ⟨hFeed, hReturn⟩ := hWithin hPiece
    have hIndent : (0x0A : UInt8) ≠ fold.indent.byte ∧ (0x0D : UInt8) ≠ fold.indent.byte := by
      cases fold.indent with
      | space | tab => decide
    exact ⟨List.not_mem_cons_of_ne_of_not_mem hIndent.1 hFeed, List.not_mem_cons_of_ne_of_not_mem hIndent.2 hReturn⟩

theorem foldl_read_lines {lines : List Text} (hLines : ∀ line ∈ lines, ContentLine line) {folded : List FoldedLine}
    (hFolded : folded.map FoldedLine.content = lines.map Utf8.encode) (logical : List (List UInt8)) :
    ((folded.flatMap FoldedLine.physical).map Prod.fst).foldl Unfolding.read ⟨logical, false⟩ =
      ⟨logical ++ lines.map Utf8.encode, false⟩ := by
  induction folded generalizing lines logical with
  | nil =>
    obtain rfl := List.map_eq_nil_iff.mp hFolded.symm
    rw [List.map_nil, List.append_nil]
    rfl
  | cons first folded ih =>
    obtain ⟨line, rest, rfl, hFirst, hRest⟩ := List.map_eq_cons_iff.mp hFolded.symm
    rw [List.flatMap_cons, List.map_append, List.foldl_append,
      foldl_read_physical (hLines line List.mem_cons_self) logical hFirst.symm,
      ih (fun other hMem => hLines other (List.mem_cons_of_mem line hMem)) hRest.symm, List.append_assoc]
    rfl

theorem writeLines_cons (closed : Bool) (line : List UInt8) (ending : LineEnd) (more : List (List UInt8 × LineEnd)) :
    ∃ rest, writeLines closed ((line, ending) :: more) = line ++ rest ∧ ∀ b, rest.head? = some b → b ∉ byteOrderMark := by
  have hEnding (after : List UInt8) (b : UInt8) (hHead : (ending.bytes ++ after).head? = some b) : b ∉ byteOrderMark := by
    cases ending with
    | crlf =>
      obtain rfl : 0x0D = b := Option.some.inj hHead
      decide
    | lf =>
      obtain rfl : 0x0A = b := Option.some.inj hHead
      decide
  cases more with
  | nil =>
    cases closed with
    | true => exact ⟨ending.bytes, rfl, fun b hHead => hEnding [] b (by rwa [List.append_nil])⟩
    | false => exact ⟨[], (List.append_nil line).symm, fun b hHead => by cases hHead⟩
  | cons next more => exact ⟨ending.bytes ++ writeLines closed (next :: more), List.append_assoc .., hEnding _⟩

/-- The file begins with a byte order mark only where its first line does. -/
theorem not_prefix_writeLines {lines : List Text} (hLines : ∀ line ∈ lines, ContentLine line)
    (hMark : (lines.head?.bind List.head?) ≠ some '\uFEFF') {folded : List FoldedLine}
    (hFolded : folded.map FoldedLine.content = lines.map Utf8.encode) (closed : Bool) :
    byteOrderMark.isPrefixOf (writeLines closed (folded.flatMap FoldedLine.physical)) = false := by
  rw [← Bool.not_eq_true, List.isPrefixOf_iff_prefix]
  intro hPrefix
  cases folded with
  | nil => exact absurd (List.prefix_nil.mp hPrefix) (by decide)
  | cons first folded =>
    obtain ⟨line, rest, rfl, hFirst, -⟩ := List.map_eq_cons_iff.mp hFolded.symm
    obtain ⟨after, hWrite, hAfter⟩ := writeLines_cons closed first.first first.ending
      (first.folds.map (fun fold => (fold.indent.byte :: fold.piece, fold.ending)) ++ folded.flatMap FoldedLine.physical)
    have hFile : byteOrderMark <+: first.first ++ after := hWrite ▸ hPrefix
    have hWithin : byteOrderMark <+: first.first := by
      obtain hBegins | ⟨left, hSplit⟩ := List.prefix_or_prefix_of_prefix hFile (List.prefix_append first.first after)
      · exact hBegins
      · rw [← hSplit, List.prefix_append_right_inj] at hFile
        cases left with
        | nil => rw [← hSplit, List.append_nil]
        | cons b left =>
          obtain ⟨more, rfl⟩ := hFile
          exact absurd (hSplit ▸ List.mem_append_right first.first List.mem_cons_self) (hAfter b rfl)
    obtain ⟨more, hMore⟩ : Utf8.encode ['\uFEFF'] <+: Utf8.encode line :=
      hFirst ▸ hWithin.trans (List.prefix_append first.first _)
    obtain ⟨tail, rfl, -⟩ := Utf8.exists_rest hMore
    exact hMark rfl

/-- However the lines are folded, and with either line end, they are read back. -/
theorem unfoldLines_writeLines {lines : List Text} (hLines : ∀ line ∈ lines, ContentLine line)
    (hMark : (lines.head?.bind List.head?) ≠ some '\uFEFF') {folded : List FoldedLine}
    (hFolded : folded.map FoldedLine.content = lines.map Utf8.encode) (closed : Bool) :
    unfoldLines (writeLines closed (folded.flatMap FoldedLine.physical)) = lines := by
  have hBare : ∀ physical ∈ folded.flatMap FoldedLine.physical, (0x0A : UInt8) ∉ physical.1 ∧ (0x0D : UInt8) ∉ physical.1 := by
    intro physical hMem
    obtain ⟨line, hLine, hPhysical⟩ := List.mem_flatMap.mp hMem
    have hContent := List.mem_map_of_mem (f := FoldedLine.content) hLine
    rw [hFolded] at hContent
    obtain ⟨text, hText, hEq⟩ := List.mem_map.mp hContent
    exact unbroken_of_mem_physical (hLines text hText) hEq.symm physical hPhysical
  obtain ⟨tail, hTail, hRead⟩ := Unfolding.foldl_read_writeLines closed hBare ⟨[], false⟩
  have hLogical := foldl_read_lines hLines hFolded []
  simp only [unfoldLines]
  rw [not_prefix_writeLines hLines hMark hFolded, if_neg Bool.false_ne_true, hRead, List.foldl_append, hLogical,
    List.nil_append]
  have hEnd : (tail.foldl Unfolding.read ⟨lines.map Utf8.encode, false⟩).logical = lines.map Utf8.encode := by
    obtain rfl | rfl := hTail
    · rfl
    · exact congrArg Unfolding.logical (Unfolding.read_nil _)
  rw [hEnd, List.map_map]
  refine (List.map_congr_left (g := id) fun line _ => ?_).trans (List.map_id lines)
  exact Utf8.lossy_encode line

/-- A fold within the two bytes of one character, and one before the last byte. -/
def foldedStreet : FoldedLine where
  first := [0x53, 0x3A, 0xC3]
  first_ne_nil := List.cons_ne_nil _ _
  ending := .crlf
  folds := [⟨.space, [0x9F], .lf⟩, ⟨.tab, [0x65], .crlf⟩]

theorem foldedStreet_unfolds :
    unfoldLines (writeLines false ([foldedStreet].flatMap FoldedLine.physical)) = ["S:ße".toList] := by
  have hLine : ContentLine "S:ße".toList := ⟨by decide, by decide, by decide, by decide +kernel⟩
  exact unfoldLines_writeLines (List.forall_mem_singleton.mpr hLine) (by decide) (by decide +kernel) false

end Pigeon.Transform.VObject
