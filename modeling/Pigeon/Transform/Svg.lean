import Pigeon.Library.Markup

/-! # Whether an SVG draws anything

The scan reads the text; what it finds is said of the tags the text is written from.
-/
namespace Pigeon.Transform.Svg

open Library Text Markup

set_option autoImplicit false

def drawing : List Text := [
  "path".toList, "image".toList, "text".toList, "polygon".toList, "polyline".toList, "rect".toList, "circle".toList,
  "ellipse".toList, "line".toList]

def defsOpen : Text := "<defs".toList

def defsClose : Text := "</defs>".toList

def boundingBoxClass : Text := "class=\"BoundingBox\"".toList

/-- What stands behind the first end tag of definitions. -/
def afterClose (after : Text) : Text :=
  match splitOnce defsClose after with
  | some pieces => pieces.2
  | none => []

/-- What follows the definitions that `after` opens with. -/
def skipDefs (after : Text) : Text :=
  match splitOnce ['>'] after with
  | some pieces => if ['/', '>'].isSuffixOf (pieces.1 ++ ['>']) then pieces.2 else afterClose after
  | none => if ['/', '>'].isSuffixOf after then [] else afterClose after

/-- The loop of `strip_defs`; each turn takes at least the mark it found. -/
def stripDefsFrom : Nat → Text → Text
  | 0, rest => rest
  | fuel + 1, rest =>
    match splitOnce defsOpen rest with
    | some pieces => pieces.1 ++ stripDefsFrom fuel (skipDefs (defsOpen ++ pieces.2))
    | none => rest

def stripDefs (svg : Text) : Text := stripDefsFrom svg.length svg

def endsElementName (c : Char) : Bool := isWhitespace c || c == '/' || c == '>'

/-- The loop of `svg_draws_something` over what is left of the body. -/
def drawsFrom : Text → Bool
  | [] => false
  | c :: rest =>
    if c = '<' then
      let name := rest.takeWhile fun c => !endsElementName c
      let tag := rest.takeWhile fun c => c != '>'
      if drawing.contains name && !(name == "rect".toList && decide (boundingBoxClass <:+: tag)) then true
      else drawsFrom rest
    else drawsFrom rest

def svgDrawsSomething (svg : Text) : Bool := drawsFrom (stripDefs svg)

/-! ## What is said of the tags -/

def defsName : Name := ⟨"defs".toList, Eq.refl true⟩

def className : Name := ⟨"class".toList, Eq.refl true⟩

def boundingBoxName : Name := ⟨"BoundingBox".toList, Eq.refl true⟩

/-- The scan takes a tag whose name begins so for definitions. -/
def looksLikeDefs (tag : Tag) : Bool := defsName.text.isPrefixOf tag.name.text

/-- The start of definitions hides what follows it, their end shows it again. -/
def turns : Token → Option Bool
  | .start tag => if looksLikeDefs tag then some true else none
  | .finish name gap => if name = defsName && gap.text == [] then some false else none
  | .chars _ | .empty _ => none

def isDefs : Token → Bool
  | .start tag | .empty tag => looksLikeDefs tag
  | .finish _ _ | .chars _ => false

def stripTokens : Bool → List Token → List Token
  | _, [] => []
  | hidden, token :: rest =>
    if hidden || isDefs token then stripTokens ((turns token).getD hidden) rest
    else token :: stripTokens ((turns token).getD hidden) rest

def readName (tag : Tag) : Text := tag.name.text.takeWhile fun c => !endsElementName c

def looksDrawn (tag : Tag) : Bool :=
  drawing.contains (readName tag) &&
    !(readName tag == "rect".toList && tag.attributes.any fun a => a.Says className boundingBoxName)

def tokenDraws : Token → Bool
  | .start tag | .empty tag => looksDrawn tag
  | .finish _ _ | .chars _ => false

/-! ## The scan, tag by tag -/

theorem prefix_of_head {α : Type} {key lead rest : List α} (h : key <+: lead ++ rest)
    (hHead : ∀ c, rest.head? = some c → c ∉ key) : key <+: lead := by
  obtain hKey | ⟨more, rfl⟩ := List.prefix_or_prefix_of_prefix h (List.prefix_append lead rest)
  · exact hKey
  · rw [List.prefix_append_right_inj] at h
    cases more with
    | nil => simp
    | cons c more =>
      obtain ⟨behind, rfl⟩ := h
      exact absurd (by simp) (hHead c rfl)

theorem looksLikeDefs_of_prefix {tag : Tag} {c : Char} {more : Text} (hEnd : isNameChar c = false)
    (h : defsName.text <+: tag.write ++ c :: more) : looksLikeDefs tag := by
  rw [Tag.write, List.append_assoc] at h
  rw [looksLikeDefs, List.isPrefixOf_iff_prefix]
  apply prefix_of_head h
  intro first hFirst
  rw [List.head?_append, Option.or_eq_some_iff] at hFirst
  obtain hTail | ⟨-, hMark⟩ := hFirst
  · exact defsName.not_mem_of_isBlank (tag.head?_tail hTail)
  · obtain rfl : c = first := Option.some.inj hMark
    exact defsName.not_mem hEnd

theorem splitOnce_write (token : Token) {mark more : Text} (hMark : mark.head? = some '<')
    (h : '<' ∈ token.write → ¬mark <+: token.write ++ more) :
    splitOnce mark (token.write ++ more) =
      (splitOnce mark more).map fun pieces => (token.write ++ pieces.1, pieces.2) := by
  obtain ⟨key, rfl⟩ := List.head?_eq_some_iff.mp hMark
  obtain hNone | ⟨body, hBody, hRest⟩ := token.write_cases
  · exact splitOnce_append_left hNone more
  · rw [hBody] at h ⊢
    have hHead : ¬ '<' :: key <+: '<' :: (body ++ more) := h List.mem_cons_self
    rw [List.cons_append, splitOnce_cons_of_not_prefix hHead, splitOnce_append_left hRest, Option.map_map]
    rfl

theorem not_defsOpen_starts {token : Token} (h : isDefs token = false) {more : Text} (hMark : '<' ∈ token.write) :
    ¬defsOpen <+: token.write ++ more := by
  intro hPrefix
  cases token with
  | chars data => exact data.not_mem hMark
  | start tag =>
    rw [Token.write, List.cons_append, List.append_assoc, List.singleton_append] at hPrefix
    have hDefs := looksLikeDefs_of_prefix (by decide) (List.cons_prefix_cons.mp hPrefix).2
    exact absurd (h.symm.trans hDefs) (by decide)
  | empty tag =>
    rw [Token.write, List.cons_append, List.append_assoc, List.cons_append] at hPrefix
    have hDefs := looksLikeDefs_of_prefix (by decide) (List.cons_prefix_cons.mp hPrefix).2
    exact absurd (h.symm.trans hDefs) (by decide)
  | finish name gap =>
    have hSlash := (List.cons_prefix_cons.mp (List.cons_prefix_cons.mp hPrefix).2).1
    contradiction

theorem not_slash_starts (tag : Tag) {key more : Text} : ¬ '/' :: key <+: tag.write ++ more := by
  obtain ⟨c, name, hName⟩ := List.exists_cons_of_ne_nil tag.name.nonempty
  rw [Tag.write, hName, List.cons_append, List.cons_append, List.cons_prefix_cons]
  rintro ⟨rfl, -⟩
  exact tag.name.not_mem (c := '/') (by decide) (hName ▸ List.mem_cons_self)

theorem not_defsClose_starts {token : Token} (h : turns token ≠ some false) {more : Text} (hMark : '<' ∈ token.write) :
    ¬defsClose <+: token.write ++ more := by
  intro hPrefix
  cases token with
  | chars data => exact data.not_mem hMark
  | start tag =>
    rw [Token.write, List.cons_append, List.append_assoc] at hPrefix
    exact not_slash_starts tag (List.cons_prefix_cons.mp hPrefix).2
  | empty tag =>
    rw [Token.write, List.cons_append, List.append_assoc] at hPrefix
    exact not_slash_starts tag (List.cons_prefix_cons.mp hPrefix).2
  | finish name gap =>
    have hRest : defsName.text ++ ['>'] <+: (name.text ++ (gap.text ++ ['>'])) ++ more :=
      (List.cons_prefix_cons.mp (List.cons_prefix_cons.mp hPrefix).2).2
    have hMarks : '>' ∉ name.text ++ gap.text := by
      rw [List.mem_append, not_or]
      exact ⟨name.not_mem (by decide), gap.not_mem (by decide)⟩
    rw [← List.append_assoc, List.append_assoc, List.singleton_append,
      prefix_mark_iff (defsName.not_mem (by decide)) hMarks] at hRest
    have hGap : gap.text = [] := by
      apply gap.eq_nil_of_suffix defsName.text name.text
      · rw [hRest.1]
      · exact defsName.nonempty
      · intro c hBlank
        exact defsName.not_mem_of_isBlank hBlank
    have hName : name = defsName := by
      apply Name.ext
      rw [hRest.1, hGap, List.append_nil]
    apply h
    rw [turns, if_pos]
    simp [hName, hGap]

theorem stripDefsFrom_shown {token : Token} (h : isDefs token = false) (fuel : Nat) (more : Text) :
    stripDefsFrom fuel (token.write ++ more) = token.write ++ stripDefsFrom fuel more := by
  cases fuel with
  | zero => rfl
  | succ fuel =>
    rw [stripDefsFrom, splitOnce_write token (by decide) (not_defsOpen_starts h), stripDefsFrom]
    cases splitOnce defsOpen more with
    | none => rfl
    | some pieces => exact List.append_assoc _ _ _

theorem afterClose_write {token : Token} (h : turns token ≠ some false) (more : Text) :
    afterClose (token.write ++ more) = afterClose more := by
  rw [afterClose, splitOnce_write token (by decide) (not_defsClose_starts h), afterClose]
  cases splitOnce defsClose more with
  | none => rfl
  | some pieces => rfl

theorem afterClose_close {token : Token} (h : turns token = some false) (more : Text) :
    afterClose (token.write ++ more) = more := by
  cases token with
  | chars data => contradiction
  | empty tag => contradiction
  | start tag =>
    rw [turns] at h
    split at h
    all_goals contradiction
  | finish name gap =>
    rw [turns] at h
    split at h
    · rename_i hDefs
      rw [Bool.and_eq_true, decide_eq_true_eq, beq_iff_eq] at hDefs
      have hWrite : (Token.finish name gap).write = defsClose := by
        rw [Token.write, hDefs.1, hDefs.2]
        rfl
      rw [hWrite, afterClose, splitOnce_of_prefix (List.prefix_append _ _), List.drop_left]
    · contradiction

theorem not_slash_ends (tag : Tag) : ¬['/'] <:+ '<' :: tag.write := by
  rw [List.singleton_suffix_iff_getLast?_eq_some, List.getLast?_cons, Option.some_inj]
  intro hSlash
  cases hLast : tag.write.getLast? with
  | none =>
    rw [hLast] at hSlash
    contradiction
  | some c =>
    rw [hLast] at hSlash
    exact tag.getLast?_write hLast hSlash

theorem skipDefs_write {token : Token} (h : isDefs token) (more : Text) :
    skipDefs (token.write ++ more) = if turns token = some true then afterClose more else more := by
  cases token with
  | chars data => contradiction
  | finish name gap => contradiction
  | start tag =>
    have hTag : '>' ∉ '<' :: tag.write := by
      rw [List.mem_cons, not_or]
      exact ⟨by decide, tag.not_mem_write (.inr rfl)⟩
    have hText : (Token.start tag).write ++ more = ('<' :: tag.write) ++ (['>'] ++ more) := by simp [Token.write]
    have hTurns : turns (.start tag) = some true := if_pos h
    have hOpen : ¬['/', '>'].isSuffixOf (('<' :: tag.write) ++ ['>']) = true := by
      rw [List.isSuffixOf_iff_suffix]
      intro hSlash
      have hEnds : ['/'] ++ ['>'] <:+ ('<' :: tag.write) ++ ['>'] := hSlash
      exact not_slash_ends tag (List.suffix_append_self_iff.mp hEnds)
    rw [skipDefs, hText, splitOnce_append hTag]
    simp only
    rw [if_neg hOpen, if_pos hTurns, ← hText, afterClose_write (by simp [hTurns])]
  | empty tag =>
    have hTag : '>' ∉ '<' :: (tag.write ++ ['/']) := by
      simp only [List.mem_cons, List.mem_append, List.not_mem_nil, or_false, not_or]
      exact ⟨by decide, tag.not_mem_write (.inr rfl), by decide⟩
    have hText : (Token.empty tag).write ++ more = ('<' :: (tag.write ++ ['/'])) ++ (['>'] ++ more) := by simp [Token.write]
    rw [skipDefs, hText, splitOnce_append hTag]
    simp only
    rw [if_pos, if_neg (by simp [turns])]
    rw [List.isSuffixOf_iff_suffix, List.cons_append, List.append_assoc]
    exact List.suffix_append ('<' :: tag.write) _

theorem defsOpen_starts {token : Token} (h : isDefs token) : defsOpen <+: token.write := by
  have hTag : ∀ (tag : Tag) (close : Text), looksLikeDefs tag → defsOpen <+: '<' :: (tag.write ++ close) := by
    intro tag close hDefs
    have hName : defsName.text <+: tag.name.text := List.isPrefixOf_iff_prefix.mp hDefs
    rw [Tag.write, List.append_assoc]
    exact List.cons_prefix_cons.mpr ⟨rfl, hName.trans (List.prefix_append _ _)⟩
  cases token with
  | chars data => contradiction
  | finish name gap => contradiction
  | start tag => exact hTag tag ['>'] h
  | empty tag => exact hTag tag ['/', '>'] h

theorem stripDefsFrom_defs {token : Token} (h : isDefs token) (fuel : Nat) (more : Text) :
    stripDefsFrom (fuel + 1) (token.write ++ more) =
      stripDefsFrom fuel (if turns token = some true then afterClose more else more) := by
  have hPrefix : defsOpen <+: token.write ++ more := (defsOpen_starts h).trans (List.prefix_append _ _)
  rw [stripDefsFrom, splitOnce_of_prefix hPrefix]
  simp only
  rw [List.prefix_iff_eq_append.mp hPrefix, List.nil_append, skipDefs_write h]

theorem write_ne_nil {token : Token} (h : isDefs token) : token.write ≠ [] := by
  intro hNil
  have hPrefix := defsOpen_starts h
  rw [hNil, List.prefix_nil] at hPrefix
  contradiction

theorem getD_turns_of_shown {token : Token} (h : isDefs token = false) : (turns token).getD false = false := by
  cases token with
  | chars data => rfl
  | empty tag => rfl
  | start tag =>
    rw [turns, if_neg]
    · rfl
    · rw [Bool.not_eq_true]
      exact h
  | finish name gap =>
    rw [turns]
    split
    all_goals rfl

/-- Outside definitions and within them: the text that is left is written from the tokens that are left. -/
theorem stripDefsFrom_tokens (tokens : List Token) {fuel : Nat} (hFuel : (tokens.flatMap Token.write).length ≤ fuel) :
    stripDefsFrom fuel (tokens.flatMap Token.write) = (stripTokens false tokens).flatMap Token.write ∧
      stripDefsFrom fuel (afterClose (tokens.flatMap Token.write)) = (stripTokens true tokens).flatMap Token.write := by
  induction tokens generalizing fuel with
  | nil =>
    constructor
    · cases fuel <;> rfl
    · cases fuel <;> rfl
  | cons token tokens ih =>
    rw [List.flatMap_cons, List.length_append] at hFuel
    rw [List.flatMap_cons, stripTokens, stripTokens, Bool.false_or, Bool.true_or, if_pos rfl]
    have hEnough : (tokens.flatMap Token.write).length ≤ fuel := by omega
    obtain ⟨hShown, hHidden⟩ := ih hEnough
    constructor
    · cases hDefs : isDefs token with
      | false =>
        rw [stripDefsFrom_shown hDefs, hShown, getD_turns_of_shown hDefs, if_neg (by decide), List.flatMap_cons]
      | true =>
        have hLength : 0 < token.write.length := List.length_pos_iff.mpr (write_ne_nil hDefs)
        obtain ⟨less, rfl⟩ : ∃ less, fuel = less + 1 := ⟨fuel - 1, by omega⟩
        have hEnough : (tokens.flatMap Token.write).length ≤ less := by omega
        obtain ⟨hShown, hHidden⟩ := ih hEnough
        rw [stripDefsFrom_defs hDefs, if_pos rfl]
        cases token with
        | chars data => contradiction
        | finish name gap => contradiction
        | empty tag => exact hShown
        | start tag =>
          have hTurns : turns (.start tag) = some true := if_pos hDefs
          rw [hTurns, if_pos rfl, hHidden]
          rfl
    · cases hTurns : turns token with
      | none =>
        rw [afterClose_write (by simp [hTurns]), hHidden]
        rfl
      | some turned =>
        cases turned with
        | true =>
          rw [afterClose_write (by simp [hTurns]), hHidden]
          rfl
        | false =>
          rw [afterClose_close hTurns, hShown]
          rfl

theorem stripDefs_tokens (tokens : List Token) :
    stripDefs (tokens.flatMap Token.write) = (stripTokens false tokens).flatMap Token.write :=
  (stripDefsFrom_tokens tokens (Nat.le_refl _)).1

/-! ## The names the scan reads -/

theorem drawsFrom_append {before : Text} (h : '<' ∉ before) (more : Text) : drawsFrom (before ++ more) = drawsFrom more := by
  induction before with
  | nil => rfl
  | cons c before ih =>
    obtain ⟨hMark, hBefore⟩ := not_or.mp (mt List.mem_cons.mpr h)
    rw [List.cons_append, drawsFrom, if_neg (Ne.symm hMark), ih hBefore]

theorem takeWhile_name (tag : Tag) {c : Char} (h : endsElementName c) (more : Text) :
    (tag.write ++ c :: more).takeWhile (fun c => !endsElementName c) = readName tag := by
  have hTail : (tag.tail ++ c :: more).takeWhile (fun c => !endsElementName c) = [] := by
    cases hTail : tag.tail with
    | nil => rw [List.nil_append, List.takeWhile_cons_of_neg (by simp [h])]
    | cons first tail =>
      have hBlank : isBlank first := tag.head?_tail (by rw [hTail]; rfl)
      have hEnds : endsElementName first := by simp [endsElementName, isWhitespace_of_isBlank hBlank]
      rw [List.cons_append, List.takeWhile_cons_of_neg (by simp [hEnds])]
  rw [Tag.write, List.append_assoc, List.takeWhile_append, hTail, List.append_nil, readName]
  split
  · rename_i hLength
    exact ((List.takeWhile_prefix _).eq_of_length hLength).symm
  · rfl

theorem takeWhile_tag {s : Text} (h : '>' ∉ s) (more : Text) : (s ++ '>' :: more).takeWhile (fun c => c != '>') = s := by
  rw [List.takeWhile_append_of_pos]
  · simp
  · intro c hMem
    simp only [bne_iff_ne, ne_eq]
    rintro rfl
    exact h hMem

theorem boundingBoxClass_infix_iff (tag : Tag) {close : Text} (hQuote : '"' ∉ close)
    (hClose : ∀ c ∈ close, isNameChar c = false) :
    boundingBoxClass <:+: tag.write ++ close ↔ ∃ a ∈ tag.attributes, a.Says className boundingBoxName := by
  rw [← tag.infix_write_iff className boundingBoxName hQuote hClose]
  rfl

theorem drawsFrom_tag (tag : Tag) {close : Text} (hClose : close = [] ∨ close = ['/']) (more : Text) :
    drawsFrom ('<' :: (tag.write ++ (close ++ '>' :: more))) = (looksDrawn tag || drawsFrom more) := by
  have hMarks : ∀ c, c = '<' ∨ c = '>' → c ∉ tag.write ++ close := by
    intro c hMark
    rw [List.mem_append, not_or]
    refine ⟨tag.not_mem_write hMark, ?_⟩
    obtain rfl | rfl := hClose
    · exact List.not_mem_nil
    · obtain rfl | rfl := hMark
      all_goals decide
  have hName : (tag.write ++ (close ++ '>' :: more)).takeWhile (fun c => !endsElementName c) = readName tag := by
    obtain rfl | rfl := hClose
    · exact takeWhile_name tag (by decide) more
    · exact takeWhile_name tag (by decide) ('>' :: more)
  have hTag : (tag.write ++ (close ++ '>' :: more)).takeWhile (fun c => c != '>') = tag.write ++ close := by
    rw [← List.append_assoc]
    exact takeWhile_tag (hMarks '>' (.inr rfl)) more
  have hRest : drawsFrom (tag.write ++ (close ++ '>' :: more)) = drawsFrom more := by
    rw [← List.append_assoc, drawsFrom_append (hMarks '<' (.inl rfl)), drawsFrom, if_neg (by decide)]
  have hClass : decide (boundingBoxClass <:+: tag.write ++ close) =
      tag.attributes.any fun a => a.Says className boundingBoxName := by
    rw [Bool.eq_iff_iff, decide_eq_true_eq, boundingBoxClass_infix_iff, List.any_eq_true]
    · simp only [decide_eq_true_eq]
    · obtain rfl | rfl := hClose
      all_goals decide
    · obtain rfl | rfl := hClose
      all_goals simp [isNameChar]
  rw [drawsFrom, if_pos rfl]
  simp only [hName, hTag, hRest, hClass]
  rw [Bool.if_true_left, Bool.decide_eq_true, looksDrawn]

theorem drawsFrom_token (token : Token) (more : Text) :
    drawsFrom (token.write ++ more) = (tokenDraws token || drawsFrom more) := by
  cases token with
  | chars data => exact drawsFrom_append data.not_mem more
  | start tag =>
    rw [Token.write, List.cons_append, List.append_assoc]
    exact drawsFrom_tag tag (.inl rfl) more
  | empty tag =>
    rw [Token.write, List.cons_append, List.append_assoc]
    exact drawsFrom_tag tag (.inr rfl) more
  | finish name gap =>
    have hMarks : '<' ∉ '/' :: (name.text ++ (gap.text ++ ['>'])) := by
      simp only [List.mem_cons, List.mem_append, List.not_mem_nil, or_false, not_or]
      exact ⟨by decide, name.not_mem (by decide), gap.not_mem (by decide), by decide⟩
    have hName : (('/' :: (name.text ++ (gap.text ++ ['>']))) ++ more).takeWhile (fun c => !endsElementName c) = [] := by
      rw [List.cons_append, List.takeWhile_cons_of_neg (by decide)]
    rw [Token.write, List.cons_append, drawsFrom, if_pos rfl]
    simp only [hName]
    rw [if_neg, drawsFrom_append hMarks]
    · rfl
    · simp [drawing]

theorem drawsFrom_tokens (tokens : List Token) : drawsFrom (tokens.flatMap Token.write) = tokens.any tokenDraws := by
  induction tokens with
  | nil => rfl
  | cons token tokens ih => rw [List.flatMap_cons, drawsFrom_token, ih, List.any_cons]

/-- The scan of a written document, said of its tags. -/
theorem svgDrawsSomething_write (content : Content) :
    svgDrawsSomething content.write = (stripTokens false content.tokens).any tokenDraws := by
  rw [svgDrawsSomething, ← content.flatMap_tokens, stripDefs_tokens, drawsFrom_tokens]

end Pigeon.Transform.Svg
