import Pigeon.Transform.Svg

/-! # What the scan of an SVG makes of the tree

An element counts when no ancestor of it is a `defs`. The scan takes it for shown when the last tag of definitions before it
is no start tag, which is the same as long as definitions are not nested.
-/
namespace Pigeon.Transform.Svg

open Library Markup

set_option autoImplicit false

def isBoundingBox (tag : Tag) : Bool :=
  tag.name.text == "rect".toList &&
    tag.attributes.any fun a => a.name.text == className.text && a.value.text == boundingBoxName.text

def draws (tag : Tag) : Bool := drawing.contains tag.name.text && !isBoundingBox tag

def Counts (o : Occurrence) : Prop := defsName ∉ o.ancestors ∧ draws o.tag

instance (o : Occurrence) : Decidable (Counts o) := by unfold Counts; infer_instance

/-- The last tag of definitions hides what follows it. -/
def hiddenFrom (hidden : Bool) (before : List Token) : Bool := (before.filterMap turns).getLast?.getD hidden

def Seen (o : Occurrence) : Prop := hiddenFrom false o.before = false ∧ looksDrawn o.tag

instance (o : Occurrence) : Decidable (Seen o) := by unfold Seen; infer_instance

/-- It counts, but it stands behind a start tag that only looks like definitions or was closed with blanks, or the scan
reads its name or its class otherwise. -/
def Missed (o : Occurrence) : Prop := Counts o ∧ (hiddenFrom false o.before = true ∨ looksDrawn o.tag = false)

/-- It is seen, but within definitions, behind the end of definitions within them, or under a name it does not have. -/
def Leaked (o : Occurrence) : Prop := Seen o ∧ (defsName ∈ o.ancestors ∨ draws o.tag = false)

instance (o : Occurrence) : Decidable (Missed o) := by unfold Missed; infer_instance

instance (o : Occurrence) : Decidable (Leaked o) := by unfold Leaked; infer_instance

theorem hiddenFrom_append (hidden : Bool) (before more : List Token) :
    hiddenFrom hidden (before ++ more) = hiddenFrom (hiddenFrom hidden before) more := by
  rw [hiddenFrom, List.filterMap_append, List.getLast?_append, Option.getD_or]
  rfl

theorem hiddenFrom_cons (hidden : Bool) (token : Token) (more : List Token) :
    hiddenFrom hidden (token :: more) = hiddenFrom ((turns token).getD hidden) more := by
  rw [← List.singleton_append, hiddenFrom_append]
  cases hTurns : turns token with
  | none => simp [hiddenFrom, hTurns]
  | some turned => simp [hiddenFrom, hTurns]

theorem stripTokens_append (hidden : Bool) (before more : List Token) :
    stripTokens hidden (before ++ more) = stripTokens hidden before ++ stripTokens (hiddenFrom hidden before) more := by
  induction before generalizing hidden with
  | nil => rfl
  | cons token before ih =>
    rw [List.cons_append, stripTokens, stripTokens, hiddenFrom_cons, ih]
    split
    · rfl
    · rfl

/-- No name of a drawing element begins like definitions. -/
theorem looksLikeDefs_of_looksDrawn {tag : Tag} (h : looksDrawn tag) : looksLikeDefs tag = false := by
  rw [looksDrawn, Bool.and_eq_true] at h
  rw [← Bool.not_eq_true, looksLikeDefs, List.isPrefixOf_iff_prefix]
  rintro ⟨more, hName⟩
  have hRead : defsName.text <+: readName tag := by
    rw [readName, ← hName, List.takeWhile_append_of_pos]
    · exact List.prefix_append _ _
    · exact List.all_eq_true.mp rfl
  have hNone : ∀ name ∈ drawing, ¬defsName.text <+: name := by decide
  exact hNone _ (List.contains_iff_mem.mp h.1) hRead

theorem any_stripTokens_cons (hidden : Bool) (token : Token) (rest : List Token) :
    (stripTokens hidden (token :: rest)).any tokenDraws =
      ((!hidden && tokenDraws token) || (stripTokens ((turns token).getD hidden) rest).any tokenDraws) := by
  have hDefs : tokenDraws token → isDefs token = false := by
    intro h
    cases token with
    | chars data => rfl
    | finish name gap => rfl
    | start tag => exact looksLikeDefs_of_looksDrawn h
    | empty tag => exact looksLikeDefs_of_looksDrawn h
  rw [stripTokens]
  cases hDraws : tokenDraws token with
  | true =>
    rw [hDefs hDraws]
    cases hidden with
    | true => rfl
    | false => simp [hDraws]
  | false =>
    split
    · simp
    · simp [hDraws]

theorem hiddenFrom_concat (before : List Token) (token : Token) :
    hiddenFrom false (before ++ [token]) = (turns token).getD (hiddenFrom false before) := by
  rw [hiddenFrom_append, hiddenFrom_cons]
  rfl

theorem decide_seen (ancestors : List Name) (before : List Token) (tag : Tag) :
    decide (Seen ⟨ancestors, before, tag⟩) = (!hiddenFrom false before && looksDrawn tag) := by
  cases hHidden : hiddenFrom false before with
  | false => simp [Seen, hHidden]
  | true => simp [Seen, hHidden]

/-- What the scan finds in a part of a document are the elements of the part that are seen. -/
theorem any_occurrencesFrom (content : Content) (ancestors : List Name) (before : List Token) :
    (stripTokens (hiddenFrom false before) content.tokens).any tokenDraws =
      (content.occurrencesFrom ancestors before).any fun o => decide (Seen o) := by
  induction content generalizing ancestors before with
  | done => rfl
  | chars data rest ih =>
    rw [Content.tokens, Content.occurrencesFrom, any_stripTokens_cons, ← hiddenFrom_concat, ih ancestors, tokenDraws,
      Bool.and_false, Bool.false_or]
  | empty tag rest ih =>
    rw [Content.tokens, Content.occurrencesFrom, any_stripTokens_cons, ← hiddenFrom_concat, ih ancestors, tokenDraws,
      List.any_cons, decide_seen]
  | element tag inner gap rest ihInner ihRest =>
    have hRest : hiddenFrom false (before ++ .start tag :: (inner.tokens ++ [.finish tag.name gap])) =
        (turns (.finish tag.name gap)).getD (hiddenFrom (hiddenFrom false (before ++ [.start tag])) inner.tokens) := by
      rw [← List.singleton_append, ← List.append_assoc, ← List.append_assoc, hiddenFrom_concat, hiddenFrom_append]
    rw [Content.tokens, Content.occurrencesFrom, any_stripTokens_cons, ← hiddenFrom_concat, tokenDraws, stripTokens_append,
      List.any_append, any_stripTokens_cons, ← hRest, ihInner (tag.name :: ancestors), ihRest ancestors, tokenDraws,
      Bool.and_false, Bool.false_or, List.any_cons, List.any_append, decide_seen]

theorem svgDrawsSomething_iff (content : Content) :
    svgDrawsSomething content.write = true ↔ ∃ o ∈ content.occurrences, Seen o := by
  rw [svgDrawsSomething_write, show false = hiddenFrom false [] from rfl, any_occurrencesFrom content [], List.any_eq_true]
  simp only [decide_eq_true_eq]
  rfl

theorem missed_iff (o : Occurrence) : Missed o ↔ Counts o ∧ ¬Seen o := by
  rw [Missed, Seen, not_and_or, Bool.not_eq_false, Bool.not_eq_true]

theorem leaked_iff (o : Occurrence) : Leaked o ↔ Seen o ∧ ¬Counts o := by
  rw [Leaked, Counts, not_and_or, not_not, Bool.not_eq_true]

/-- A tag without attributes. -/
def bare (name : Name) : Tag := ⟨name, [], ⟨[], Eq.refl true⟩⟩

def wrap (name : Name) (inner rest : Content) : Content := .element (bare name) inner ⟨[], Eq.refl true⟩ rest

/-- `<svg><defs><defs></defs><path/></defs></svg>` -/
def nestedDefs : Content :=
  wrap ⟨"svg".toList, Eq.refl true⟩
    (wrap defsName (wrap defsName .done (.empty (bare ⟨"path".toList, Eq.refl true⟩) .done)) .done) .done

/-- Definitions stand in no definitions, only they are named so, and their end tags are closed without blanks. -/
structure Flat (ancestors : List Name) (before : List Token) (content : Content) : Prop where
  defs : ∀ o ∈ content.occurrencesFrom ancestors before, looksLikeDefs o.tag → o.tag.name = defsName ∧ defsName ∉ o.ancestors
  closed : ∀ gap, .finish defsName gap ∈ content.tokens → gap.text = []

theorem turns_finish_of_ne {name : Name} (h : name ≠ defsName) (gap : Blank) : turns (.finish name gap) = none := by
  rw [turns, if_neg]
  simp [h]

section Element

variable {ancestors : List Name} {before : List Token} {tag : Tag} {inner rest : Content} {gap : Blank}

theorem Flat.within (h : Flat ancestors before (.element tag inner gap rest)) :
    Flat (tag.name :: ancestors) (before ++ [.start tag]) inner where
  defs o hMem := h.defs o (List.mem_cons_of_mem _ (List.mem_append_left _ hMem))
  closed gap hMem := h.closed gap (List.mem_cons_of_mem _ (List.mem_append_left _ hMem))

theorem Flat.behind (h : Flat ancestors before (.element tag inner gap rest)) :
    Flat ancestors (before ++ .start tag :: (inner.tokens ++ [.finish tag.name gap])) rest where
  defs o hMem := h.defs o (List.mem_cons_of_mem _ (List.mem_append_right _ hMem))
  closed gap hMem := h.closed gap (List.mem_cons_of_mem _ (List.mem_append_right _ (List.mem_cons_of_mem _ hMem)))

/-- The start tag of an element of a flat document hides what is in it if the element is definitions. -/
theorem Flat.start (h : Flat ancestors before (.element tag inner gap rest))
    (hHere : hiddenFrom false before = decide (defsName ∈ ancestors)) :
    hiddenFrom false (before ++ [.start tag]) = decide (defsName ∈ tag.name :: ancestors) := by
  rw [hiddenFrom_concat, hHere, turns]
  split
  · rename_i hDefs
    have hName : tag.name = defsName := (h.defs _ List.mem_cons_self hDefs).1
    simp [hName]
  · rename_i hOther
    have hName : tag.name ≠ defsName := by
      intro hEq
      rw [looksLikeDefs, hEq] at hOther
      exact hOther (by decide)
    simp [hName.symm]

theorem Flat.finish (h : Flat ancestors before (.element tag inner gap rest)) :
    (turns (.finish tag.name gap)).getD (decide (defsName ∈ tag.name :: ancestors)) = decide (defsName ∈ ancestors) := by
  obtain hName | hName := eq_or_ne tag.name defsName
  · obtain ⟨-, hOutside⟩ := h.defs _ List.mem_cons_self (by rw [looksLikeDefs, hName]; decide)
    have hGap : gap.text = [] := h.closed gap (by rw [Content.tokens, hName]; simp)
    have hTurns : turns (.finish tag.name gap) = some false := by
      rw [turns, if_pos]
      simp [hName, hGap]
    rw [hTurns, Option.getD_some, decide_eq_false hOutside]
  · rw [turns_finish_of_ne hName]
    simp [hName.symm]

end Element

/-- Within definitions and nowhere else is a flat document hidden, and it leaves the scan as it found it. -/
theorem hiddenFrom_of_flat (content : Content) {ancestors : List Name} {before : List Token}
    (h : Flat ancestors before content) (hHere : hiddenFrom false before = decide (defsName ∈ ancestors)) :
    (∀ o ∈ content.occurrencesFrom ancestors before, hiddenFrom false o.before = decide (defsName ∈ o.ancestors)) ∧
      hiddenFrom false (before ++ content.tokens) = decide (defsName ∈ ancestors) := by
  induction content generalizing ancestors before with
  | done =>
    constructor
    · intro o hMem
      contradiction
    · rw [Content.tokens, List.append_nil, hHere]
  | chars data rest ih =>
    have hRest : Flat ancestors (before ++ [.chars data]) rest :=
      ⟨h.defs, fun gap hMem => h.closed gap (List.mem_cons_of_mem _ hMem)⟩
    obtain ⟨hInner, hLeft⟩ := ih hRest (by rw [hiddenFrom_concat, hHere]; rfl)
    rw [List.append_assoc, List.singleton_append] at hLeft
    exact ⟨hInner, hLeft⟩
  | empty tag rest ih =>
    have hRest : Flat ancestors (before ++ [.empty tag]) rest :=
      ⟨fun o hMem => h.defs o (List.mem_cons_of_mem _ hMem), fun gap hMem => h.closed gap (List.mem_cons_of_mem _ hMem)⟩
    obtain ⟨hInner, hLeft⟩ := ih hRest (by rw [hiddenFrom_concat, hHere]; rfl)
    rw [List.append_assoc, List.singleton_append] at hLeft
    exact ⟨List.forall_mem_cons.mpr ⟨hHere, hInner⟩, hLeft⟩
  | element tag inner gap rest ihInner ihRest =>
    obtain ⟨hInner, hLeave⟩ := ihInner h.within (h.start hHere)
    have hBehind : hiddenFrom false (before ++ .start tag :: (inner.tokens ++ [.finish tag.name gap])) =
        decide (defsName ∈ ancestors) := by
      rw [← List.singleton_append, ← List.append_assoc, ← List.append_assoc, hiddenFrom_concat, hLeave, h.finish]
    obtain ⟨hAfter, hLeft⟩ := ihRest h.behind hBehind
    constructor
    · exact List.forall_mem_cons.mpr ⟨hHere, List.forall_mem_append.mpr ⟨hInner, hAfter⟩⟩
    · rw [Content.tokens, ← hLeft]
      simp

/-- In a flat document whose drawing elements are read under their names, the scan tells the blank from the drawn. -/
theorem svgDrawsSomething_of_flat {content : Content} (h : Flat [] [] content)
    (hRead : ∀ o ∈ content.occurrences, looksDrawn o.tag = draws o.tag) :
    svgDrawsSomething content.write = true ↔ ∃ o ∈ content.occurrences, Counts o := by
  obtain ⟨hHidden, -⟩ := hiddenFrom_of_flat content h rfl
  rw [svgDrawsSomething_iff]
  apply exists_congr
  intro o
  apply and_congr_right
  intro hMem
  rw [Seen, Counts, hHidden o hMem, hRead o hMem, decide_eq_false_iff_not]

end Pigeon.Transform.Svg
