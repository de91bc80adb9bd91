import Pigeon.Library.Text

/-! # Markup: elements, their attributes, and the text they are written as

A name, a value or a piece of character data carries the proof that it can be told from the marks around it, so what is
written has one reading.
-/
namespace Pigeon.Library.Markup

open Text

set_option autoImplicit false

def isBlank (c : Char) : Bool := [' ', '\t', '\n', '\r'].contains c

def isNameChar (c : Char) : Bool := !(isBlank c || ['<', '>', '/', '=', '"'].contains c)

@[ext]
structure Name where
  text : Text
  valid : (!text.isEmpty && text.all isNameChar) = true
deriving DecidableEq

structure Blank where
  text : Text
  valid : text.all isBlank = true
deriving DecidableEq

def isValueChar (c : Char) : Bool := !(['<', '>', '"'].contains c)

/-- What stands between double quotes. -/
structure Value where
  text : Text
  valid : text.all isValueChar = true
deriving DecidableEq

structure CharData where
  text : Text
  valid : text.contains '<' = false
deriving DecidableEq

structure Attribute where
  gap : Blank
  apart : gap.text.isEmpty = false
  name : Name
  beforeEquals : Blank
  afterEquals : Blank
  value : Value
deriving DecidableEq

structure Tag where
  name : Name
  attributes : List Attribute
  gap : Blank
deriving DecidableEq

/-- A sequence of siblings. -/
inductive Content where
  | done
  | chars (data : CharData) (rest : Content)
  | empty (tag : Tag) (rest : Content)
  | element (tag : Tag) (inner : Content) (gap : Blank) (rest : Content)

inductive Token where
  | chars (data : CharData)
  | start (tag : Tag)
  | empty (tag : Tag)
  | finish (name : Name) (gap : Blank)

/-! ## Writing -/

def Attribute.lead (a : Attribute) : Text :=
  a.gap.text ++ (a.name.text ++ (a.beforeEquals.text ++ '=' :: a.afterEquals.text))

def Attribute.write (a : Attribute) : Text := a.lead ++ '"' :: (a.value.text ++ ['"'])

/-- What stands behind the name. -/
def Tag.tail (tag : Tag) : Text := tag.attributes.flatMap Attribute.write ++ tag.gap.text

def Tag.write (tag : Tag) : Text := tag.name.text ++ tag.tail

def Token.write : Token → Text
  | .chars data => data.text
  | .start tag => '<' :: (tag.write ++ ['>'])
  | .empty tag => '<' :: (tag.write ++ ['/', '>'])
  | .finish name gap => '<' :: '/' :: (name.text ++ (gap.text ++ ['>']))

def Content.write : Content → Text
  | .done => []
  | .chars data rest => data.text ++ rest.write
  | .empty tag rest => '<' :: (tag.write ++ '/' :: '>' :: rest.write)
  | .element tag inner gap rest =>
    '<' :: (tag.write ++ '>' :: (inner.write ++ '<' :: '/' :: (tag.name.text ++ (gap.text ++ '>' :: rest.write))))

def Content.tokens : Content → List Token
  | .done => []
  | .chars data rest => .chars data :: rest.tokens
  | .empty tag rest => .empty tag :: rest.tokens
  | .element tag inner gap rest => .start tag :: (inner.tokens ++ .finish tag.name gap :: rest.tokens)

/-- An element of a document: what it stands in, and what stands before it. -/
structure Occurrence where
  ancestors : List Name
  before : List Token
  tag : Tag

def Content.occurrencesFrom (ancestors : List Name) (before : List Token) : Content → List Occurrence
  | .done => []
  | .chars data rest => rest.occurrencesFrom ancestors (before ++ [.chars data])
  | .empty tag rest => ⟨ancestors, before, tag⟩ :: rest.occurrencesFrom ancestors (before ++ [.empty tag])
  | .element tag inner gap rest =>
    ⟨ancestors, before, tag⟩ :: (inner.occurrencesFrom (tag.name :: ancestors) (before ++ [.start tag]) ++
      rest.occurrencesFrom ancestors (before ++ .start tag :: (inner.tokens ++ [.finish tag.name gap])))

def Content.occurrences (content : Content) : List Occurrence := content.occurrencesFrom [] []

theorem Content.flatMap_tokens (content : Content) : content.tokens.flatMap Token.write = content.write := by
  induction content with
  | done => rfl
  | chars data rest ih => rw [tokens, List.flatMap_cons, ih, write, Token.write]
  | empty tag rest ih =>
    rw [tokens, List.flatMap_cons, ih, write, Token.write]
    simp
  | element tag inner gap rest ihInner ihRest =>
    rw [tokens, List.flatMap_cons, List.flatMap_append, List.flatMap_cons, ihInner, ihRest, write, Token.write,
      Token.write]
    simp

/-! ## The marks are outside -/

theorem isBlank_of_not_isNameChar {c : Char} (h : isBlank c) : isNameChar c = false := by
  simp [isNameChar, h]

theorem isWhitespace_of_isBlank {c : Char} (h : isBlank c) : isWhitespace c := by
  simp only [isBlank, List.contains_eq_mem, List.mem_cons, List.not_mem_nil, or_false, decide_eq_true_eq] at h
  obtain rfl | rfl | rfl | rfl := h
  all_goals decide

theorem Name.nonempty (name : Name) : name.text ≠ [] := by
  have h := name.valid
  rw [Bool.and_eq_true, Bool.not_eq_true', List.isEmpty_eq_false_iff] at h
  exact h.1

theorem Name.isNameChar_of_mem (name : Name) {c : Char} (h : c ∈ name.text) : isNameChar c = true := by
  have hAll := name.valid
  rw [Bool.and_eq_true] at hAll
  exact List.all_eq_true.mp hAll.2 c h

theorem Blank.isBlank_of_mem (gap : Blank) {c : Char} (h : c ∈ gap.text) : isBlank c = true :=
  List.all_eq_true.mp gap.valid c h

theorem Attribute.gap_ne_nil (a : Attribute) : a.gap.text ≠ [] := List.isEmpty_eq_false_iff.mp a.apart

theorem Name.not_mem (name : Name) {c : Char} (h : isNameChar c = false) : c ∉ name.text := by
  intro hMem
  rw [name.isNameChar_of_mem hMem] at h
  contradiction

theorem Blank.not_mem (gap : Blank) {c : Char} (h : isBlank c = false) : c ∉ gap.text := by
  intro hMem
  rw [gap.isBlank_of_mem hMem] at h
  contradiction

theorem Value.not_mem (value : Value) {c : Char} (h : isValueChar c = false) : c ∉ value.text := by
  intro hMem
  rw [List.all_eq_true.mp value.valid c hMem] at h
  contradiction

theorem CharData.not_mem (data : CharData) : '<' ∉ data.text := by
  intro hMem
  have h := data.valid
  rw [List.contains_eq_mem, decide_eq_false_iff_not] at h
  exact h hMem

theorem Attribute.not_mem_lead (a : Attribute) {c : Char} (hName : isNameChar c = false) (hBlank : isBlank c = false)
    (hEquals : c ≠ '=') : c ∉ a.lead := by
  simp only [lead, List.mem_append, List.mem_cons, not_or]
  exact ⟨a.gap.not_mem hBlank, a.name.not_mem hName, a.beforeEquals.not_mem hBlank, hEquals,
    a.afterEquals.not_mem hBlank⟩

theorem Attribute.not_mem_write (a : Attribute) {c : Char} (hName : isNameChar c = false) (hBlank : isBlank c = false)
    (hEquals : c ≠ '=') (hQuote : c ≠ '"') (hValue : isValueChar c = false) : c ∉ a.write := by
  simp only [write, List.mem_append, List.mem_cons, List.not_mem_nil, or_false, not_or]
  exact ⟨a.not_mem_lead hName hBlank hEquals, hQuote, a.value.not_mem hValue, hQuote⟩

theorem Tag.not_mem_write (tag : Tag) {c : Char} (h : c = '<' ∨ c = '>') : c ∉ tag.write := by
  have hName : isNameChar c = false := by obtain rfl | rfl := h <;> decide
  have hBlank : isBlank c = false := by obtain rfl | rfl := h <;> decide
  simp only [write, tail, List.mem_append, List.mem_flatMap, not_or, not_exists, not_and]
  refine ⟨tag.name.not_mem hName, ?_, tag.gap.not_mem hBlank⟩
  intro a _
  apply a.not_mem_write hName hBlank
  · obtain rfl | rfl := h <;> decide
  · obtain rfl | rfl := h <;> decide
  · obtain rfl | rfl := h <;> decide

theorem Tag.head?_tail (tag : Tag) {c : Char} (h : tag.tail.head? = some c) : isBlank c := by
  rw [tail] at h
  cases hAttributes : tag.attributes with
  | nil =>
    rw [hAttributes] at h
    exact tag.gap.isBlank_of_mem (List.mem_of_head? h)
  | cons a more =>
    obtain ⟨first, gap, hGap⟩ := List.exists_cons_of_ne_nil a.gap_ne_nil
    rw [hAttributes, List.flatMap_cons, Attribute.write, Attribute.lead, hGap] at h
    obtain rfl : first = c := Option.some.inj h
    exact a.gap.isBlank_of_mem (hGap ▸ List.mem_cons_self)

theorem Tag.getLast?_write (tag : Tag) {c : Char} (h : tag.write.getLast? = some c) : c ≠ '/' := by
  rw [write, tail, List.getLast?_append, List.getLast?_append, Option.or_eq_some_iff, Option.or_eq_some_iff] at h
  obtain (hGap | ⟨-, hAttributes⟩) | ⟨-, hName⟩ := h
  · rintro rfl
    exact tag.gap.not_mem (by decide) (List.mem_of_getLast? hGap)
  · obtain hNil | ⟨before, a, hLast⟩ := List.eq_nil_or_concat tag.attributes
    · rw [hNil] at hAttributes
      contradiction
    · rw [hLast, List.concat_eq_append, List.flatMap_append, List.flatMap_singleton, Attribute.write, ← List.cons_append,
        ← List.append_assoc, ← List.append_assoc, List.getLast?_concat] at hAttributes
      obtain rfl : '"' = c := Option.some.inj hAttributes
      decide
  · rintro rfl
    exact tag.name.not_mem (by decide) (List.mem_of_getLast? hName)

/-- An opening mark stands at the front of a token or nowhere in it. -/
theorem Token.write_cases (token : Token) :
    '<' ∉ token.write ∨ ∃ body, token.write = '<' :: body ∧ '<' ∉ body := by
  cases token with
  | chars data => exact .inl data.not_mem
  | start tag =>
    refine .inr ⟨_, rfl, ?_⟩
    rw [List.mem_append, not_or]
    exact ⟨tag.not_mem_write (.inl rfl), by decide⟩
  | empty tag =>
    refine .inr ⟨_, rfl, ?_⟩
    rw [List.mem_append, not_or]
    exact ⟨tag.not_mem_write (.inl rfl), by decide⟩
  | finish name gap =>
    refine .inr ⟨_, rfl, ?_⟩
    simp only [List.mem_cons, List.mem_append, List.not_mem_nil, or_false, not_or]
    exact ⟨by decide, name.not_mem (by decide), gap.not_mem (by decide), by decide⟩

/-! ## Searching between quotes -/

theorem suffix_of_not_mem {α : Type} {key before after : List α} {c : α} (h : key <:+ before ++ c :: after)
    (hMark : c ∉ key) : key <:+ after := by
  obtain hKey | hMarked := List.suffix_or_suffix_of_suffix h (List.suffix_append before (c :: after))
  · obtain rfl | hAfter := List.suffix_cons_iff.mp hKey
    · exact absurd List.mem_cons_self hMark
    · exact hAfter
  · exact absurd (hMarked.subset List.mem_cons_self) hMark

theorem prefix_mark_iff {α : Type} {mark : α} {key lead : List α} (hKey : mark ∉ key) (hLead : mark ∉ lead)
    (more rest : List α) :
    key ++ mark :: more <+: lead ++ mark :: rest ↔ key = lead ∧ more <+: rest := by
  induction key generalizing lead with
  | nil =>
    cases lead with
    | nil => simp
    | cons c lead =>
      have hNe : ¬mark = c := fun hEq => hLead (hEq ▸ List.mem_cons_self)
      simp [hNe]
  | cons k key ih =>
    cases lead with
    | nil =>
      have hNe : ¬k = mark := fun hEq => hKey (hEq ▸ List.mem_cons_self)
      simp [hNe]
    | cons c lead =>
      rw [List.cons_append, List.cons_append, List.cons_prefix_cons,
        ih (List.not_mem_of_not_mem_cons hKey) (List.not_mem_of_not_mem_cons hLead), List.cons.injEq, and_assoc]

/-- A pattern that has a mark in it is found where the first mark of the text stands, or behind it. -/
theorem infix_mark_iff {α : Type} {mark : α} {key lead more rest : List α} (hKey : mark ∉ key) (hSome : key ≠ [])
    (hLead : mark ∉ lead) :
    key ++ mark :: more <:+: lead ++ mark :: rest ↔ (key <:+ lead ∧ more <+: rest) ∨ key ++ mark :: more <:+: rest := by
  induction lead with
  | nil =>
    have hHead : ¬key ++ mark :: more <+: [] ++ mark :: rest := by
      rw [prefix_mark_iff hKey (List.not_mem_nil)]
      exact fun hBoth => hSome hBoth.1
    rw [List.nil_append] at hHead ⊢
    rw [List.infix_cons_iff, List.suffix_nil]
    simp [hHead, hSome]
  | cons c lead ih =>
    have hHere := prefix_mark_iff hKey hLead more rest
    rw [List.cons_append] at hHere ⊢
    rw [List.infix_cons_iff, hHere, ih (List.not_mem_of_not_mem_cons hLead), List.suffix_cons_iff, or_and_right, or_assoc]

/-- The search for `key="value"` in a tag finds this attribute. -/
def Attribute.Says (key value : Name) (a : Attribute) : Prop :=
  key.text <:+ a.name.text ∧ a.beforeEquals.text = [] ∧ a.afterEquals.text = [] ∧ a.value.text = value.text

instance (key value : Name) (a : Attribute) : Decidable (a.Says key value) := by unfold Attribute.Says; infer_instance

theorem Name.not_mem_of_isBlank (name : Name) {c : Char} (h : isBlank c) : c ∉ name.text :=
  name.not_mem (isBlank_of_not_isNameChar h)

theorem Blank.eq_nil_of_suffix (gap : Blank) (key before : Text) (h : key <:+ before ++ gap.text) (hSome : key ≠ [])
    (hKey : ∀ c, isBlank c → c ∉ key) : gap.text = [] := by
  obtain hNil | ⟨more, c, hLast⟩ := List.eq_nil_or_concat gap.text
  · exact hNil
  · have hBlank : isBlank c := gap.isBlank_of_mem (by rw [hLast]; simp)
    rw [hLast, List.concat_eq_append, ← List.append_assoc] at h
    exact absurd (List.suffix_nil.mp (suffix_of_not_mem h (hKey c hBlank))) hSome

theorem Attribute.suffix_lead_iff (a : Attribute) (key : Name) (before : Text) :
    key.text ++ ['='] <:+ before ++ a.lead ↔
      key.text <:+ a.name.text ∧ a.beforeEquals.text = [] ∧ a.afterEquals.text = [] := by
  constructor
  · intro h
    have hAfter : a.afterEquals.text = [] := by
      apply a.afterEquals.eq_nil_of_suffix (key.text ++ ['='])
        (before ++ (a.gap.text ++ (a.name.text ++ (a.beforeEquals.text ++ ['=']))))
      · simpa [lead] using h
      · simp
      · intro c hBlank hMem
        obtain hMem | hMem := List.mem_append.mp hMem
        · exact key.not_mem_of_isBlank hBlank hMem
        · obtain rfl := List.mem_singleton.mp hMem
          contradiction
    have hFront : key.text <:+ before ++ (a.gap.text ++ (a.name.text ++ a.beforeEquals.text)) := by
      rw [lead, hAfter, ← List.append_assoc, ← List.append_assoc, ← List.append_assoc, List.suffix_append_self_iff] at h
      simpa using h
    have hBefore : a.beforeEquals.text = [] := by
      apply a.beforeEquals.eq_nil_of_suffix key.text (before ++ (a.gap.text ++ a.name.text))
      · simpa using hFront
      · exact key.nonempty
      · intro c hBlank
        exact key.not_mem_of_isBlank hBlank
    refine ⟨?_, hBefore, hAfter⟩
    obtain hNil | ⟨more, c, hLast⟩ := List.eq_nil_or_concat a.gap.text
    · exact absurd hNil a.gap_ne_nil
    · have hBlank : isBlank c := a.gap.isBlank_of_mem (by rw [hLast]; simp)
      rw [hBefore, List.append_nil, hLast, List.concat_eq_append, List.append_assoc, List.singleton_append,
        ← List.append_assoc] at hFront
      exact suffix_of_not_mem hFront (key.not_mem_of_isBlank hBlank)
  · rintro ⟨hName, hBefore, hAfter⟩
    rw [lead, hBefore, hAfter, List.nil_append, ← List.append_assoc, ← List.append_assoc, List.suffix_append_self_iff]
    exact hName.trans (List.suffix_append _ _)

/-- Behind the quotes of a value stands no name character. -/
theorem not_prefix_attributes (value : Name) (attributes : List Attribute) {close : Text}
    (hClose : ∀ c ∈ close, isNameChar c = false) :
    ¬value.text ++ ['"'] <+: attributes.flatMap Attribute.write ++ close := by
  obtain ⟨first, more, hValue⟩ := List.exists_cons_of_ne_nil value.nonempty
  have hFirst : isNameChar first = true := value.isNameChar_of_mem (hValue ▸ List.mem_cons_self)
  rw [hValue]
  intro h
  cases attributes with
  | nil =>
    have hMem : first ∈ close := h.subset (by simp)
    rw [hClose first hMem] at hFirst
    contradiction
  | cons a attributes =>
    obtain ⟨blank, gap, hGap⟩ := List.exists_cons_of_ne_nil a.gap_ne_nil
    have hBlank : isBlank blank := a.gap.isBlank_of_mem (hGap ▸ List.mem_cons_self)
    rw [List.flatMap_cons, Attribute.write, Attribute.lead, hGap, List.cons_append, List.cons_append, List.cons_append,
      List.cons_append, List.cons_append, List.cons_prefix_cons] at h
    rw [h.1, isBlank_of_not_isNameChar hBlank] at hFirst
    contradiction

theorem infix_attributes_iff (key value : Name) (attributes : List Attribute) {before close : Text}
    (hBefore : '"' ∉ before) (hQuote : '"' ∉ close) (hClose : ∀ c ∈ close, isNameChar c = false) :
    (key.text ++ ['=']) ++ '"' :: (value.text ++ ['"']) <:+: before ++ (attributes.flatMap Attribute.write ++ close) ↔
      ∃ a ∈ attributes, a.Says key value := by
  have hKey : '"' ∉ key.text ++ ['='] := by
    rw [List.mem_append, not_or]
    exact ⟨key.not_mem (by decide), by decide⟩
  have hValue : '"' ∉ value.text := value.not_mem (by decide)
  induction attributes generalizing before with
  | nil =>
    simp only [List.not_mem_nil, false_and, exists_false, iff_false]
    intro h
    have hMem : '"' ∈ before ++ close := h.subset (by simp)
    exact (List.mem_append.mp hMem).elim hBefore hQuote
  | cons a attributes ih =>
    have hLead : '"' ∉ before ++ a.lead := by
      rw [List.mem_append, not_or]
      exact ⟨hBefore, a.not_mem_lead (by decide) (by decide) (by decide)⟩
    have hText : before ++ ((a :: attributes).flatMap Attribute.write ++ close) =
        (before ++ a.lead) ++ '"' :: (a.value.text ++ '"' :: (attributes.flatMap Attribute.write ++ close)) := by
      rw [List.flatMap_cons, Attribute.write]
      simp
    have hRest : (key.text ++ ['=']) ++ '"' :: (value.text ++ ['"']) <:+:
        attributes.flatMap Attribute.write ++ close ↔ ∃ b ∈ attributes, b.Says key value :=
      ih List.not_mem_nil
    have hBehind := not_prefix_attributes value attributes hClose
    rw [hText, infix_mark_iff hKey (by simp) hLead, infix_mark_iff hKey (by simp) (a.value.not_mem (by decide)), hRest,
      prefix_mark_iff hValue (a.value.not_mem (by decide)), a.suffix_lead_iff key before, List.exists_mem_cons_iff,
      Attribute.Says]
    simp [hBehind, and_assoc, eq_comm]

theorem Tag.infix_write_iff (tag : Tag) (key value : Name) {close : Text} (hQuote : '"' ∉ close)
    (hClose : ∀ c ∈ close, isNameChar c = false) :
    (key.text ++ ['=']) ++ '"' :: (value.text ++ ['"']) <:+: tag.write ++ close ↔
      ∃ a ∈ tag.attributes, a.Says key value := by
  have hText : tag.write ++ close = tag.name.text ++ (tag.attributes.flatMap Attribute.write ++ (tag.gap.text ++ close)) := by
    simp [write, tail]
  rw [hText, infix_attributes_iff key value tag.attributes (tag.name.not_mem (by decide))]
  · rw [List.mem_append, not_or]
    exact ⟨tag.gap.not_mem (by decide), hQuote⟩
  · intro c hMem
    obtain hMem | hMem := List.mem_append.mp hMem
    · exact isBlank_of_not_isNameChar (tag.gap.isBlank_of_mem hMem)
    · exact hClose c hMem

end Pigeon.Library.Markup
