import Pigeon.Transform.VObject.Blocks

/-! # Forged blocks

Every field is a block of lines of its own, but for the label of a contact's field, which is written as it is.
-/
namespace Pigeon.Transform.VObject

open Library

set_option autoImplicit false

section
variable {format : Format}

theorem pushNoun_blocks {noun : String} (hNoun : noun.toList ∈ format.nouns) (value : Text) :
    format.Blocks [] (pushField [word noun] value) := Format.pushField_blocks hNoun (List.forall_mem_nil _) value

theorem pushSome_blocks {noun : String} (hNoun : noun.toList ∈ format.nouns) (value : Option Text) :
    format.Blocks [] (pushSome noun value) := by
  cases value with
  | none => exact format.blocks_nil
  | some value => exact pushNoun_blocks hNoun value

theorem pushFirst_blocks {noun : String} (hNoun : noun.toList ∈ format.nouns) (props : List Property) (name : String) :
    format.Blocks [] (pushFirst props name noun) := pushSome_blocks hNoun _

theorem heading_blocks {kind : Text} (hKind : kind ∈ format.kinds) (index total : Nat) :
    format.Blocks [heading kind index total] [.own (heading kind index total ++ ['\n'])] := by
  have hRow := Format.blocks_own (Format.rows_heading hKind index total)
  rwa [Text.unlines, List.flatMap_singleton] at hRow

theorem blank_blocks (format : Format) : format.Blocks [] [word "\n"] := by
  have hRow : format.Rows [] [[]] := Format.rows_quiet List.not_mem_nil (.inl rfl)
  exact Format.blocks_own hRow

theorem noun_blocks {noun : Text} (hNoun : noun ∈ format.nouns) : format.Blocks [] [.own (noun ++ ['\n'])] := by
  have hStart := List.mem_cons_of_mem indent hNoun
  have hRow := Format.blocks_own (Format.rows_quiet (format.apart noun hStart).2.1 (.inr ⟨noun, hStart, List.prefix_rfl⟩))
  rwa [Text.unlines, List.flatMap_singleton] at hRow

end

/-! ## Calendars -/

theorem renderItem_blocks (props : List Property) : calendarFormat.Blocks [] (renderItem props) := by
  rw [renderItem]
  refine .quiet ?_ (pushFirst_blocks (by decide) props "DESCRIPTION")
  refine .quiet ?_ (pushFirst_blocks (by decide) props "URL")
  refine .quiet ?_ (Format.blocks_flatMap_quiet fun rule _ => pushNoun_blocks (by decide) rule.value)
  refine .quiet ?_ (pushFirst_blocks (by decide) props "STATUS")
  refine .quiet ?_ (Format.blocks_flatMap_quiet fun attendee _ => pushNoun_blocks (by decide) (renderPerson attendee))
  refine .quiet ?_ (pushSome_blocks (by decide) ((first props "ORGANIZER").map renderPerson))
  refine .quiet ?_ (pushFirst_blocks (by decide) props "LOCATION")
  refine .quiet ?_ (pushSome_blocks (by decide) (renderWhen props))
  exact pushNoun_blocks (by decide) _

theorem renderCalendarHead_blocks (properties : List Property) : calendarFormat.Blocks [] (renderCalendarHead properties) := by
  refine .quiet ?_ (pushFirst_blocks (by decide) _ "METHOD")
  split
  · exact pushNoun_blocks (by decide) _
  · have hLine : calendarFormat.Blocks [] [.own ("Calendar".toList ++ ['\n'])] := noun_blocks (by decide)
    exact hLine

theorem renderCalendar_blocks (properties : List Property) :
    calendarFormat.Blocks (calendarHeadings properties) (renderCalendar properties) := by
  simp only [renderCalendar, calendarHeadings]
  split
  · rename_i hNone
    have hEmpty : calendarFormat.Rows [] [[], "No events.".toList] :=
      (Format.rows_quiet List.not_mem_nil (.inl rfl)).append (Format.rows_quiet (by decide)
        (.inr ⟨"No events.".toList, by decide, List.prefix_rfl⟩))
    rw [hNone]
    exact (renderCalendarHead_blocks properties).append (Format.blocks_own hEmpty)
  · rw [List.map_eq_flatMap]
    refine (renderCalendarHead_blocks properties).append (Format.blocks_flatMap fun item _ => ?_)
    have hKind : kindNoun item.1.1 ∈ calendarFormat.kinds := by
      rw [kindNoun]
      split
      · decide
      · decide
    exact (blank_blocks calendarFormat).append ((heading_blocks hKind _ _).append (renderItem_blocks item.1.2))

/-! ## Contacts -/

theorem renderContact_blocks {labels : List (Text × Text)} {noun : String} (hNoun : noun.toList ∈ contactFormat.nouns)
    {prop : Property} (hLabel : isBlank (Text.trimEnd (replaceFeeds (contactValue prop))) = false →
      ∀ label, cardLabel prop labels = some label → '\n' ∉ label) :
    contactFormat.Blocks [] (renderContact labels noun prop) := by
  rw [renderContact]
  cases hBlank : isBlank (Text.trimEnd (replaceFeeds (contactValue prop))) with
  | true =>
    rw [pushField, if_pos hBlank]
    exact contactFormat.blocks_nil
  | false =>
    cases hFound : cardLabel prop labels with
    | none => exact pushNoun_blocks hNoun _
    | some label =>
      refine Format.pushField_blocks hNoun ?_ _
      refine List.forall_mem_cons.mpr ⟨by decide, List.forall_mem_cons.mpr ⟨hLabel hBlank label hFound, ?_⟩⟩
      exact List.forall_mem_singleton.mpr (by decide)

/-! ## Labels -/

theorem feed_appleLabel_iff (raw : Text) : '\n' ∈ appleLabel raw ↔ '\n' ∈ Text.trim raw := by
  simp only [appleLabel]
  split
  · rename_i hOpens
    obtain ⟨rest, hRest⟩ := List.isPrefixOf_iff_prefix.mp hOpens
    cases hCloses : Text.stripSuffix ">!$_".toList ((Text.trim raw).drop 4) with
    | none => rfl
    | some inner =>
      rw [Text.stripSuffix_eq_some, ← hRest] at hCloses
      have hInner : rest = inner ++ ">!$_".toList := hCloses
      rw [← hRest, hInner, Option.getD_some, List.mem_append, List.mem_append, or_iff_right (by decide),
        or_iff_left (by decide)]
  · rfl

theorem toLower_eq_feed_iff (c : Char) : c.toLower = '\n' ↔ c = '\n' := by
  rw [Char.toLower]
  split
  · rename_i hUpper
    have hLow : 65 ≤ c.toNat := UInt32.le_iff_toNat_le.mp hUpper.1
    have hHigh : c.toNat ≤ 90 := UInt32.le_iff_toNat_le.mp hUpper.2
    refine iff_of_false (fun hFeed => ?_) ?_
    · have hValue : (c.val + ('a'.val - 'A'.val)).toNat = 10 := congrArg Char.toNat hFeed
      have hSum : (c.val + ('a'.val - 'A'.val)).toNat = c.toNat + 32 := by
        rw [UInt32.toNat_add]
        exact Nat.mod_eq_of_lt (by change c.toNat + 32 < 2 ^ 32; omega)
      omega
    · rintro rfl
      exact absurd hLow (by decide)
  · rfl

theorem feed_typeLabels_iff (prop : Property) : (∃ label ∈ typeLabels prop, '\n' ∈ label) ↔
    ∃ kind ∈ prop.paramValues "TYPE".toList, kind.map Char.toUpper ∉ uninformativeTypes ∧ '\n' ∈ kind := by
  have hLower (kind : Text) : '\n' ∈ kind.map Char.toLower ↔ '\n' ∈ kind := by
    simp [List.mem_map, toLower_eq_feed_iff]
  simp [typeLabels, hLower, and_assoc]

theorem find?_groupLabels (props : List Property) (group : Text) :
    ((groupLabels props).find? fun entry => entry.1 == group).map Prod.snd =
      ((named props "X-ABLABEL").find? fun owner => owner.group == some group).map fun owner => appleLabel owner.text := by
  rw [groupLabels]
  induction named props "X-ABLABEL" with
  | nil => rfl
  | cons owner owners ih =>
    cases hGroup : owner.group with
    | none => simpa [hGroup] using ih
    | some other =>
      obtain rfl | hOther := eq_or_ne other group
      · simp [hGroup]
      · simpa [hGroup, hOther] using ih

theorem groupLabel_groupLabels (props : List Property) (prop : Property) : groupLabel prop (groupLabels props) =
    ((labelOwner props prop).filter fun owner => !(appleLabel owner.text).isEmpty).map fun owner => appleLabel owner.text := by
  rw [groupLabel, labelOwner]
  cases prop.group with
  | none => rfl
  | some group =>
    rw [Option.bind_some, Option.bind_some, find?_groupLabels, Option.filter_map]
    rfl

theorem breaksLabel_iff (props : List Property) (prop : Property) :
    BreaksLabel props prop ↔ ∃ label, cardLabel prop (groupLabels props) = some label ∧ '\n' ∈ label := by
  rw [BreaksLabel, cardLabel, groupLabel_groupLabels]
  cases (labelOwner props prop).filter fun owner => !(appleLabel owner.text).isEmpty with
  | some owner => simp [feed_appleLabel_iff]
  | none =>
    simp only [Option.map_none]
    rw [← feed_typeLabels_iff, ← not_iff_not]
    have hJoined : '\n' ∉ ", ".toList.intercalate (typeLabels prop) ↔ ∀ label ∈ typeLabels prop, '\n' ∉ label :=
      Text.not_mem_intercalate_iff (by decide)
    split
    · rename_i hNone
      simp [hNone]
    · simpa using hJoined.symm

/-! ## Cards -/

theorem renderCard_blocks {props : List Property} (hLabels : ∀ prop ∈ keptProperties props,
    prop.name ∈ ["TEL", "EMAIL", "ADR", "URL"].map String.toList →
      isBlank (Text.trimEnd (replaceFeeds (contactValue prop))) = false → ¬ BreaksLabel props prop) :
    contactFormat.Blocks [] (renderCard props) := by
  simp only [renderCard]
  refine .quiet ?_ (pushFirst_blocks (by decide) _ "NOTE")
  refine .quiet ?_ (pushFirst_blocks (by decide) _ "CATEGORIES")
  refine .quiet ?_ (pushFirst_blocks (by decide) _ "BDAY")
  refine .quiet ?_ (Format.blocks_flatMap_quiet fun field hField => Format.blocks_flatMap_quiet fun prop hProp => ?_)
  · refine .quiet ?_ (pushFirst_blocks (by decide) _ "TITLE")
    exact .quiet (pushSome_blocks (by decide) _) (pushSome_blocks (by decide) _)
  · obtain ⟨hKept, hName⟩ := List.mem_filter.mp hProp
    have hNoun : field.2.toList ∈ contactFormat.nouns ∧
        field.1.toList ∈ ["TEL", "EMAIL", "ADR", "URL"].map String.toList := by
      simp only [labelledFields, List.mem_cons, List.not_mem_nil, or_false] at hField
      obtain rfl | rfl | rfl | rfl := hField
      · decide
      · decide
      · decide
      · decide
    apply renderContact_blocks hNoun.1
    intro hShown label hLabel hFeed
    refine hLabels prop hKept ?_ hShown ((breaksLabel_iff props prop).mpr ⟨label, hLabel, hFeed⟩)
    rw [eq_of_beq hName]
    exact hNoun.2

theorem renderCards_blocks {properties : List Property} (hLabels : ¬ BrokenLabels properties) :
    contactFormat.Blocks (cardHeadings properties) (renderCards properties) := by
  simp only [renderCards, cardHeadings]
  rw [List.map_eq_flatMap]
  apply Format.blocks_flatMap
  intro card hCard
  have hMem : card.1 ∈ components properties ["VCARD".toList] := List.fst_mem_of_mem_zipIdx hCard
  have hGap : contactFormat.Blocks [] (if 0 < card.2 then [word "\n"] else []) := by
    split
    · exact blank_blocks contactFormat
    · exact contactFormat.blocks_nil
  have hCardBlocks : contactFormat.Blocks [] (renderCard card.1.2) :=
    renderCard_blocks fun prop hKept hName hShown hBreaks => hLabels ⟨card.1, hMem, prop, hKept, hName, hShown, hBreaks⟩
  have hBlock : contactFormat.Blocks [] (renderBlock card.1.2) := by
    rw [renderBlock]
    split
    · have hLine : contactFormat.Blocks [] [.own ("(no details)".toList ++ ['\n'])] := noun_blocks (by decide)
      exact hLine
    · exact hCardBlocks
  exact (hGap.append (heading_blocks (by decide) _ _)).append hBlock

theorem head?_of_isPrefix {start line : Text} {c : Char} (hStart : start ≠ []) (h : start <+: c :: line) :
    start.head? = some c := by
  cases start with
  | nil => exact absurd rfl hStart
  | cons first start => rw [List.head?_cons, (List.cons_prefix_cons.mp h).1]

/-- No line of a contact begins with the end of a label. -/
theorem not_unforged_of_parenthesis {headings : List Text} {pieces : List Piece} (before after : Text)
    (hWritten : written pieces = before ++ '\n' :: ')' :: after) : ¬ contactFormat.Unforged headings pieces := by
  intro h
  obtain ⟨line, lines, hLine⟩ := List.exists_cons_of_ne_nil (List.splitOn_ne_nil '\n' after)
  have hMem : ')' :: line ∈ (written pieces).splitOn '\n' := by
    rw [hWritten, List.splitOn_append_cons_self, List.splitOn_cons_eq_if_modifyHead, if_neg (by decide), hLine]
    exact List.mem_append_right _ List.mem_cons_self
  have hOther : ¬ contactFormat.IsHeading (')' :: line) := by
    rintro ⟨kind, hKind, index, total, hHeading⟩
    obtain rfl := List.mem_singleton.mp hKind
    exact absurd (List.cons.inj hHeading).1 (by decide)
  have hInk : isBlank (')' :: line) = false := by
    rw [isBlank, List.isEmpty_eq_false_iff]
    exact Text.trim_ne_nil_of_mem List.mem_cons_self (by decide)
  have hStarts : ∀ start ∈ indent :: contactFormat.nouns, start.head? ≠ some ')' := by
    decide
  obtain hIndent | ⟨noun, hNoun, hPrefix⟩ := h.others _ hMem hOther hInk
  · exact hStarts indent List.mem_cons_self (head?_of_isPrefix (by decide) hIndent)
  · have hStart := List.mem_cons_of_mem indent hNoun
    exact hStarts noun hStart (head?_of_isPrefix (contactFormat.apart noun hStart).1 hPrefix)

/-- A label with a line feed ends its line, and the rest of it begins another. -/
theorem not_unforged_of_feed {before after : List Piece} {noun : String} {label : Text} (hFeed : '\n' ∈ label)
    (headings : List Text) :
    ¬ contactFormat.Unforged headings (before ++ (fieldLabel noun (some label) ++ after)) := by
  intro h
  obtain ⟨line, rest, hSplit⟩ : ∃ line rest, Text.rsplitOnce '\n' label = some (line, rest) := by
    cases hFound : Text.rsplitOnce '\n' label with
    | none => exact absurd hFeed (Text.not_mem_of_rsplitOnce hFound)
    | some parts => exact ⟨parts.1, parts.2, rfl⟩
  obtain ⟨hLabel, hRest⟩ := Text.rsplitOnce_eq_some hSplit
  cases rest with
  | nil =>
    refine not_unforged_of_parenthesis (written before ++ (noun.toList ++ " (".toList ++ line)) (written after) ?_ h
    rw [written_append, written_append]
    simp [written, fieldLabel, Piece.text, word, hLabel]
  | cons c rest =>
    have hFirst := h.inside (before ++ [word noun, word " ("]) label (word ")" :: after) (line ++ ['\n']) c rest
      (by simp [fieldLabel]) (by rw [hLabel, List.append_assoc]; rfl) (.inr (by simp))
    exact hRest (hFirst ▸ List.mem_cons_self)

theorem isInfix_flatMap {α β : Type} {items : List α} {item : α} (hItem : item ∈ items) (f : α → List β) :
    f item <:+: items.flatMap f := by
  obtain ⟨before, after, rfl⟩ := List.append_of_mem hItem
  refine ⟨before.flatMap f, after.flatMap f, ?_⟩
  rw [List.flatMap_append, List.flatMap_cons, List.append_assoc]

theorem label_prefix_pushField {label : List Piece} {value : Text} (hShown : isBlank (Text.trimEnd value) = false) :
    label <+: pushField label value := by
  simp only [pushField, hShown]
  split
  · contradiction
  · split
    · rw [List.append_assoc]
      exact List.prefix_append ..
    · exact List.prefix_append ..

theorem renderContact_isInfix {props : List Property} {prop : Property} (hKept : prop ∈ keptProperties props) {field : String × String}
    (hField : field ∈ labelledFields) (hName : prop.name = field.1.toList) :
    renderContact (groupLabels props) field.2 prop <:+: renderCard props := by
  have hNamed : prop ∈ named (keptProperties props) field.1 := List.mem_filter.mpr ⟨hKept, beq_of_eq hName⟩
  have hContact := isInfix_flatMap hNamed (renderContact (groupLabels props) field.2)
  have hFields := hContact.trans (isInfix_flatMap hField fun field =>
    (named (keptProperties props) field.1).flatMap (renderContact (groupLabels props) field.2))
  apply hFields.trans
  simp only [renderCard]
  refine .trans ?_ (List.prefix_append _ (pushFirst _ "NOTE" "Note")).isInfix
  refine .trans ?_ (List.prefix_append _ (pushFirst _ "CATEGORIES" "Categories")).isInfix
  refine .trans ?_ (List.prefix_append _ (pushFirst _ "BDAY" "Birthday")).isInfix
  exact (List.suffix_append ..).isInfix

/-- The block of each card is part of what is rendered. -/
theorem renderBlock_isInfix {properties : List Property} {card : Text × List Property}
    (hCard : card ∈ components properties ["VCARD".toList]) : renderBlock card.2 <:+: renderCards properties := by
  obtain ⟨index, hIndex⟩ := List.getElem?_of_mem hCard
  have hMem : (card, index) ∈ (components properties ["VCARD".toList]).zipIdx := List.mk_mem_zipIdx_iff_getElem?.mpr hIndex
  refine .trans ?_ (isInfix_flatMap hMem _)
  exact (List.suffix_append ..).isInfix

/-- Contacts are forged by broken labels only, calendars never. -/
theorem unforged_iff (properties : List Property) :
    (contactFormat.Unforged (cardHeadings properties) (renderCards properties) ↔ ¬ BrokenLabels properties) ∧
      calendarFormat.Unforged (calendarHeadings properties) (renderCalendar properties) := by
  refine ⟨⟨fun h => ?_, fun hLabels => (renderCards_blocks hLabels).unforged⟩, (renderCalendar_blocks properties).unforged⟩
  rintro ⟨card, hCard, prop, hKept, hName, hShown, hBreaks⟩
  obtain ⟨label, hLabel, hFeed⟩ := (breaksLabel_iff card.2 prop).mp hBreaks
  obtain ⟨field, hField, hProperty⟩ : ∃ field ∈ labelledFields, prop.name = field.1.toList := by
    have hNames : ∀ name ∈ ["TEL", "EMAIL", "ADR", "URL"].map String.toList, ∃ field ∈ labelledFields, name = field.1.toList := by
      decide
    exact hNames prop.name hName
  have hContact : fieldLabel field.2 (some label) <:+: renderContact (groupLabels card.2) field.2 prop := by
    rw [renderContact, hLabel]
    exact (label_prefix_pushField hShown).isInfix
  obtain ⟨front, back, hInCard⟩ := hContact.trans (renderContact_isInfix hKept hField hProperty)
  have hWritten : written (renderCard card.2) ≠ [] := by
    rw [← hInCard]
    simp [written, fieldLabel, Piece.text, word]
  obtain ⟨before, after, hPieces⟩ := renderBlock_isInfix hCard
  rw [renderBlock, if_neg hWritten, ← hInCard] at hPieces
  have hForged : ¬ contactFormat.Unforged (cardHeadings properties)
      (before ++ front ++ (fieldLabel field.2 (some label) ++ (back ++ after))) := not_unforged_of_feed hFeed _
  have hWhole : before ++ front ++ (fieldLabel field.2 (some label) ++ (back ++ after)) = renderCards properties := by
    rw [← hPieces]
    simp
  rw [hWhole] at hForged
  exact hForged h

/-- A custom label of two lines, the second of which looks like a heading. -/
def forgedCard : List Property := [
  ⟨none, "BEGIN".toList, [], "VCARD".toList⟩,
  ⟨some "item1".toList, "TEL".toList, [], "1".toList⟩,
  ⟨some "item1".toList, "X-ABLABEL".toList, [], "x\\nContact 1 of 1".toList⟩,
  ⟨none, "END".toList, [], "VCARD".toList⟩]

theorem forgedCard_forged :
    written (renderCards forgedCard) = "Contact 1 of 1\nPhone (x\nContact 1 of 1): 1\n".toList ∧
      ¬ contactFormat.Unforged (cardHeadings forgedCard) (renderCards forgedCard) := by
  have hPieces : renderCards forgedCard = [word "Contact 1 of 1\n"] ++
      (fieldLabel "Phone" (some "x\nContact 1 of 1".toList) ++ [word ": ", .content ['1'], word "\n"]) := by
    decide +kernel
  rw [hPieces]
  exact ⟨by decide, not_unforged_of_feed (by decide) _⟩

end Pigeon.Transform.VObject
