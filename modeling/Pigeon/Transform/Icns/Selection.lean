import Pigeon.Transform.Icns

/-! # The selected image

A container is its header, chunks whose declared lengths are those they have, and a tail that is no chunk. The walk takes
the chunks one by one and stops at the tail.
-/
namespace Pigeon.Transform.Icns

open Library

set_option autoImplicit false

/-- An entry as it stands in the file. -/
structure Chunk where
  kind : List UInt8
  field : List UInt8
  payload : List UInt8
  kind_length : kind.length = 4
  field_length : field.length = 4
  declared : fromBeBytes field = payload.length + 8

namespace Chunk

def bytes (chunk : Chunk) : List UInt8 := chunk.kind ++ chunk.field ++ chunk.payload

/-- The PNG or JPEG 2000 entry that the chunk is, behind its nominal size. -/
def image (chunk : Chunk) : Option (Nat × Entry) :=
  (nominalSize chunk.kind).bind fun size =>
    (encodingOf chunk.payload).map fun encoding => (size, ⟨chunk.kind, encoding, chunk.payload⟩)

end Chunk

def images (chunks : List Chunk) : List (Nat × Entry) := chunks.filterMap Chunk.image

def rank (image : Nat × Entry) : ℕ ×ₗ ℕ := toLex (image.1, image.2.data.length)

def Headed (bytes : List UInt8) : Prop := 8 ≤ bytes.length ∧ bytes.take 4 = ascii "icns"

instance (bytes : List UInt8) : Decidable (Headed bytes) := inferInstanceAs (Decidable (_ ∧ _))

/-- Behind the header stand the chunks and then the tail. -/
def Laid (bytes : List UInt8) (chunks : List Chunk) (tail : List UInt8) : Prop :=
  Headed bytes ∧ bytes.drop 8 = chunks.flatMap Chunk.bytes ++ tail

/-- The length that the entry at the front declares. -/
def declared (rest : List UInt8) : Nat := fromBeBytes ((rest.drop 4).take 4)

/-- The tail begins with an entry that declares less than its header or more than is left. -/
def Malformed (tail : List UInt8) : Prop := 8 ≤ tail.length ∧ (declared tail < 8 ∨ tail.length < declared tail)

/-! ## Containers -/

theorem Chunk.length_bytes (chunk : Chunk) : chunk.bytes.length = fromBeBytes chunk.field := by
  rw [Chunk.bytes, List.length_append, List.length_append, chunk.kind_length, chunk.field_length, chunk.declared]
  omega

theorem Chunk.eight_le (chunk : Chunk) : 8 ≤ chunk.bytes.length := by
  rw [chunk.length_bytes, chunk.declared]
  omega

theorem fromBeBytes_lt {field : List UInt8} (h : field.length = 4) : fromBeBytes field < 2 ^ 32 := by
  have hDigits : ∀ d ∈ field.reverse.map UInt8.toNat, d < 254 + 2 := by
    intro d hMem
    obtain ⟨b, -, rfl⟩ := List.mem_map.mp hMem
    exact b.toNat_lt
  have hLt := Nat.ofDigits_lt_base_pow_length' hDigits
  rw [List.length_map, List.length_reverse, h] at hLt
  exact hLt

theorem declared_lt {rest : List UInt8} (h : 8 ≤ rest.length) : declared rest < 2 ^ 32 := by
  apply fromBeBytes_lt
  rw [List.length_take, List.length_drop]
  omega

theorem declared_append (chunk : Chunk) (behind : List UInt8) :
    declared (chunk.bytes ++ behind) = chunk.bytes.length := by
  rw [declared, Chunk.bytes, List.append_assoc, List.append_assoc, List.drop_left' chunk.kind_length,
    List.take_left' chunk.field_length, chunk.declared, List.length_append, List.length_append, chunk.kind_length,
    chunk.field_length]
  omega

/-- What is no malformed entry begins with a chunk. -/
theorem exists_chunk {rest : List UInt8} (hLength : 8 ≤ rest.length) (h : ¬ Malformed rest) :
    ∃ (chunk : Chunk) (behind : List UInt8), rest = chunk.bytes ++ behind := by
  have hSize : 8 ≤ declared rest ∧ declared rest ≤ rest.length := by
    rw [Malformed] at h
    omega
  have hPayload : ((rest.take (declared rest)).drop 8).length + 8 = declared rest := by
    rw [List.length_drop, List.length_take]
    omega
  refine ⟨⟨rest.take 4, (rest.drop 4).take 4, (rest.take (declared rest)).drop 8, ?_, ?_, hPayload.symm⟩,
    rest.drop (declared rest), ?_⟩
  · rw [List.length_take]
    omega
  · rw [List.length_take, List.length_drop]
    omega
  · have hHeader : rest.take 4 ++ (rest.drop 4).take 4 = (rest.take (declared rest)).take 8 := by
      rw [← List.take_add, List.take_take, Nat.min_eq_left hSize.1]
    rw [Chunk.bytes, hHeader, List.take_append_drop, List.take_append_drop]

/-- Any bytes are chunks up to a tail that is cut off or malformed. -/
theorem exists_chunks (rest : List UInt8) :
    ∃ (chunks : List Chunk) (tail : List UInt8),
      rest = chunks.flatMap Chunk.bytes ++ tail ∧ (tail.length < 8 ∨ Malformed tail) := by
  induction rest using (measure List.length).wf.induction with
  | h rest ih =>
    rcases Nat.lt_or_ge rest.length 8 with hShort | hLength
    · exact ⟨[], rest, rfl, .inl hShort⟩
    · rcases Classical.em (Malformed rest) with hMalformed | hFormed
      · exact ⟨[], rest, rfl, .inr hMalformed⟩
      · obtain ⟨chunk, behind, hRest⟩ := exists_chunk hLength hFormed
        have hShorter : behind.length < rest.length := by
          have hEight := chunk.eight_le
          rw [hRest, List.length_append]
          omega
        obtain ⟨chunks, tail, hBehind, hTail⟩ := ih behind hShorter
        refine ⟨chunk :: chunks, tail, ?_, hTail⟩
        rw [hRest, hBehind, List.flatMap_cons, List.append_assoc]

/-! ## The walk -/

theorem better_eq_true {best : Nat × Entry} {size : Nat} {entry : Entry} :
    better (some best) size entry.data = true ↔ rank best < rank (size, entry) := by
  rw [better, decide_eq_true_iff, rank, rank, Prod.Lex.toLex_lt_toLex]

/-- The best image so far is the first largest of those that were passed. -/
theorem updated_eq (seen : List (Nat × Entry)) (chunk : Chunk) :
    updated (seen.argmax rank) chunk.kind chunk.payload = (seen ++ images [chunk]).argmax rank := by
  rw [images, List.filterMap_cons, updated, Chunk.image]
  cases nominalSize chunk.kind with
  | none => simp
  | some size =>
    cases encodingOf chunk.payload with
    | none => simp
    | some encoding =>
      simp only [Option.bind_some, Option.map_some, List.filterMap_nil, List.argmax_concat]
      cases seen.argmax rank with
      | none => rfl
      | some best =>
        dsimp only
        split
        · rename_i hBetter
          rw [if_pos (better_eq_true.mp hBetter)]
        · rename_i hNot
          rw [if_neg fun hLess => hNot (better_eq_true.mpr hLess)]

variable {bytes before rest : List UInt8}

theorem overruns_eq {offset length : Nat} (hLength : length < 2 ^ 32) (hOffset : offset < 2 ^ 63) :
    overruns bytes offset length = .ok (decide (length < 8 ∨ bytes.length < offset + length)) := by
  rw [overruns]
  split
  · rename_i hSmall
    rw [decide_eq_true (.inl hSmall)]
    rfl
  · rename_i hNotSmall
    have hIff : bytes.length < offset + length ↔ length < 8 ∨ bytes.length < offset + length :=
      ⟨.inr, fun h => h.resolve_left hNotSmall⟩
    rw [bind_of_ok (word_ok (by rw [wordSize]; omega)), ← decide_eq_decide.mpr hIff]
    rfl

/-- Where eight bytes are left an entry is read. -/
theorem walk_header (hBytes : bytes = before ++ rest) (hBound : bytes.length < 2 ^ 63) (hRest : 8 ≤ rest.length)
    (fuel : Nat) (best : Option (Nat × Entry)) :
    walk bytes (fuel + 1) before.length best =
      if declared rest < 8 ∨ rest.length < declared rest then .error (overrunError (rest.take 4) before.length)
      else slice bytes (before.length + 8) (before.length + declared rest) >>= fun data =>
        walk bytes fuel (before.length + declared rest) (updated best (rest.take 4) data) := by
  have hLength : bytes.length = before.length + rest.length := by rw [hBytes, List.length_append]
  have hKind : slice bytes before.length (before.length + 4) = .ok (rest.take 4) := by
    have hSplit : bytes = before ++ rest.take 4 ++ rest.drop 4 := by
      rw [List.append_assoc, List.take_append_drop, hBytes]
    apply slice_append hSplit rfl
    rw [List.length_take]
    omega
  have hField : slice bytes (before.length + 4) (before.length + 8) = .ok ((rest.drop 4).take 4) := by
    have hSplit : bytes = before ++ rest.take 4 ++ (rest.drop 4).take 4 ++ (rest.drop 4).drop 4 := by
      rw [List.append_assoc, List.append_assoc, List.take_append_drop, List.take_append_drop, hBytes]
    apply slice_append hSplit
    · rw [List.length_append, List.length_take]
      omega
    · rw [List.length_take, List.length_drop]
      omega
  have hOverruns : overruns bytes before.length (fromBeBytes ((rest.drop 4).take 4)) =
      .ok (decide (declared rest < 8 ∨ rest.length < declared rest)) := by
    have hDeclared : fromBeBytes ((rest.drop 4).take 4) = declared rest := rfl
    have hIff : declared rest < 8 ∨ bytes.length < before.length + declared rest ↔
        declared rest < 8 ∨ rest.length < declared rest := by
      rw [hLength, Nat.add_lt_add_iff_left]
    rw [hDeclared, overruns_eq (declared_lt hRest) (by omega), decide_eq_decide.mpr hIff]
  rw [walk, bind_of_ok (word_ok (by rw [wordSize]; omega)), if_neg (by omega), bind_of_ok hKind, bind_of_ok hField,
    bind_of_ok hOverruns]
  simp only [decide_eq_true_eq]
  rfl

theorem walk_chunk {chunk : Chunk} {behind : List UInt8} (hBytes : bytes = before ++ (chunk.bytes ++ behind))
    (hBound : bytes.length < 2 ^ 63) (fuel : Nat) (best : Option (Nat × Entry)) :
    walk bytes (fuel + 1) before.length best =
      walk bytes fuel (before ++ chunk.bytes).length (updated best chunk.kind chunk.payload) := by
  have hEight := chunk.eight_le
  have hDeclared := declared_append chunk behind
  have hKind : (chunk.bytes ++ behind).take 4 = chunk.kind := by
    rw [Chunk.bytes, List.append_assoc, List.append_assoc, List.take_left' chunk.kind_length]
  have hData : slice bytes (before.length + 8) (before.length + chunk.bytes.length) = .ok chunk.payload := by
    have hSplit : bytes = before ++ (chunk.kind ++ chunk.field) ++ chunk.payload ++ behind := by
      rw [hBytes, Chunk.bytes]
      simp only [List.append_assoc]
    apply slice_append hSplit
    · rw [List.length_append, List.length_append, chunk.kind_length, chunk.field_length]
    · rw [chunk.length_bytes, chunk.declared]
      omega
  rw [walk_header hBytes hBound (by rw [List.length_append]; omega), hDeclared,
    if_neg (by rw [List.length_append]; omega), bind_of_ok hData, hKind, List.length_append]

theorem walk_chunks {chunks : List Chunk} {tail : List UInt8}
    (hBytes : bytes = before ++ (chunks.flatMap Chunk.bytes ++ tail)) (hBound : bytes.length < 2 ^ 63) (fuel : Nat) (seen : List (Nat × Entry)) :
    walk bytes (chunks.length + fuel) before.length (seen.argmax rank) =
      walk bytes fuel (before ++ chunks.flatMap Chunk.bytes).length ((seen ++ images chunks).argmax rank) := by
  induction chunks generalizing before seen with
  | nil =>
    rw [images, List.filterMap_nil, List.append_nil, List.flatMap_nil, List.append_nil, List.length_nil, Nat.zero_add]
  | cons chunk chunks ih =>
    rw [List.flatMap_cons, List.append_assoc] at hBytes
    have hImages : images (chunk :: chunks) = images [chunk] ++ images chunks := List.filterMap_append (l := [chunk])
    rw [List.length_cons, Nat.add_right_comm, walk_chunk hBytes hBound, updated_eq,
      ih (by rw [hBytes, List.append_assoc]), hImages, List.flatMap_cons, List.append_assoc, List.append_assoc]

theorem walk_short {tail : List UInt8} (hBytes : bytes = before ++ tail) (hBound : bytes.length < 2 ^ 63)
    (hTail : tail.length < 8) (fuel : Nat) (best : Option (Nat × Entry)) :
    walk bytes (fuel + 1) before.length best = .ok best := by
  have hLength : bytes.length = before.length + tail.length := by rw [hBytes, List.length_append]
  rw [walk, bind_of_ok (word_ok (by rw [wordSize]; omega)), if_pos (by omega)]
  rfl

theorem walk_malformed {tail : List UInt8} (hBytes : bytes = before ++ tail) (hBound : bytes.length < 2 ^ 63)
    (hTail : Malformed tail) (fuel : Nat) (best : Option (Nat × Entry)) :
    walk bytes (fuel + 1) before.length best = .error (overrunError (tail.take 4) before.length) := by
  rw [walk_header hBytes hBound hTail.1, if_pos hTail.2]

/-! ## The outcome -/

theorem headed_eq (bytes : List UInt8) : headed bytes = .ok (decide (Headed bytes)) := by
  rw [headed]
  split
  · rename_i hShort
    rw [decide_eq_false fun hHeaded => Nat.not_le_of_lt hShort hHeaded.1]
    rfl
  · rename_i hLong
    have hIff : (bytes.take 4).drop 0 = ascii "icns" ↔ Headed bytes := ⟨fun h => ⟨by omega, h⟩, fun h => h.2⟩
    rw [bind_of_ok (slice_ok (Nat.zero_le 4) (by omega)), ← decide_eq_decide.mpr hIff]
    rfl

theorem length_le_flatMap (chunks : List Chunk) : chunks.length ≤ (chunks.flatMap Chunk.bytes).length := by
  induction chunks with
  | nil => exact Nat.le_refl _
  | cons chunk chunks ih =>
    have hEight := chunk.eight_le
    rw [List.length_cons, List.flatMap_cons, List.length_append]
    omega

theorem largestEntry_of_not_headed (h : ¬ Headed bytes) : largestEntry bytes = .error headerError := by
  rw [largestEntry, bind_of_ok (headed_eq bytes), decide_eq_false h]
  rfl

/-- The walk over the chunks of a container, up to its tail. -/
theorem largestEntry_of_laid {chunks : List Chunk} {tail : List UInt8} (hBound : bytes.length < 2 ^ 63)
    (h : Laid bytes chunks tail) : ∃ (fuel : Nat) (front : List UInt8), bytes = front ++ tail ∧
      largestEntry bytes = walk bytes (fuel + 1) front.length ((images chunks).argmax rank) >>= fun best =>
        match best with
        | some (_, entry) => .ok entry
        | none => .error noImageError := by
  obtain ⟨hHeaded, hBody⟩ := h
  have hBytes : bytes = bytes.take 8 ++ (chunks.flatMap Chunk.bytes ++ tail) := by
    rw [← hBody, List.take_append_drop]
  have hFuel : chunks.length ≤ bytes.length := by
    have hChunks := length_le_flatMap chunks
    rw [hBytes, List.length_append, List.length_append]
    omega
  have hWalk := walk_chunks hBytes hBound (bytes.length - chunks.length + 1) []
  rw [List.length_take_of_le hHeaded.1, List.nil_append, ← Nat.add_assoc, Nat.add_sub_cancel' hFuel] at hWalk
  refine ⟨bytes.length - chunks.length, bytes.take 8 ++ chunks.flatMap Chunk.bytes, ?_, ?_⟩
  · rw [List.append_assoc]
    exact hBytes
  · rw [← hWalk, largestEntry, bind_of_ok (headed_eq bytes), decide_eq_true hHeaded]
    rfl

theorem largestEntry_of_malformed {chunks : List Chunk} {tail : List UInt8} (hBound : bytes.length < 2 ^ 63)
    (h : Laid bytes chunks tail) (hTail : Malformed tail) :
    ∃ offset, largestEntry bytes = .error (overrunError (tail.take 4) offset) := by
  obtain ⟨fuel, front, hBytes, hLargest⟩ := largestEntry_of_laid hBound h
  rw [walk_malformed hBytes hBound hTail] at hLargest
  exact ⟨front.length, hLargest⟩

theorem largestEntry_of_short {chunks : List Chunk} {tail : List UInt8} (hBound : bytes.length < 2 ^ 63)
    (h : Laid bytes chunks tail) (hTail : tail.length < 8) :
    largestEntry bytes = match (images chunks).argmax rank with
      | some (_, entry) => .ok entry
      | none => .error noImageError := by
  obtain ⟨fuel, front, hBytes, hLargest⟩ := largestEntry_of_laid hBound h
  rw [walk_short hBytes hBound hTail] at hLargest
  exact hLargest

/-- The four ways in which a file is read. -/
inductive Outcome (bytes : List UInt8) : Except Halt Entry → Prop where
  | header (hHeader : ¬ Headed bytes) : Outcome bytes (.error headerError)
  | overrun (chunks : List Chunk) (tail : List UInt8) (offset : Nat) (hLaid : Laid bytes chunks tail)
      (hTail : Malformed tail) : Outcome bytes (.error (overrunError (tail.take 4) offset))
  | noImage (chunks : List Chunk) (tail : List UInt8) (hLaid : Laid bytes chunks tail) (hTail : tail.length < 8)
      (hImages : images chunks = []) : Outcome bytes (.error noImageError)
  | found (chunks : List Chunk) (tail : List UInt8) (size : Nat) (entry : Entry) (front behind : List (Nat × Entry))
      (hLaid : Laid bytes chunks tail) (hTail : tail.length < 8)
      (hLargest : FirstMax rank (images chunks) (size, entry) front behind) : Outcome bytes (.ok entry)

theorem outcome_largestEntry (hBound : bytes.length < 2 ^ 63) : Outcome bytes (largestEntry bytes) := by
  rcases Classical.em (Headed bytes) with hHeaded | hHeader
  · obtain ⟨chunks, tail, hBody, hTail⟩ := exists_chunks (bytes.drop 8)
    have hLaid : Laid bytes chunks tail := ⟨hHeaded, hBody⟩
    rcases hTail with hShort | hMalformed
    · rw [largestEntry_of_short hBound hLaid hShort]
      cases hBest : (images chunks).argmax rank with
      | none => exact .noImage chunks tail hLaid hShort (List.argmax_eq_none.mp hBest)
      | some best =>
        obtain ⟨front, behind, hLargest⟩ := exists_firstMax hBest
        exact .found chunks tail best.1 best.2 front behind hLaid hShort hLargest
    · obtain ⟨offset, hError⟩ := largestEntry_of_malformed hBound hLaid hMalformed
      rw [hError]
      exact .overrun chunks tail offset hLaid hMalformed
  · rw [largestEntry_of_not_headed hHeader]
    exact .header hHeader

/-- A file is refused for its header, for an entry that overruns, or for want of an image, and otherwise the first of its
largest images is taken. -/
theorem largestEntry_selects (bytes : Slice UInt8) :
    (∀ e, largestEntry bytes.val = .error e → ∃ message, e = .error message) ∧
      ((∃ e, largestEntry bytes.val = .error e) ↔
        ¬ Headed bytes.val ∨ (∃ chunks tail, Laid bytes.val chunks tail ∧ Malformed tail) ∨
          ∃ chunks tail, Laid bytes.val chunks tail ∧ tail.length < 8 ∧ images chunks = []) ∧
      ∀ entry, largestEntry bytes.val = .ok entry →
        ∃ chunks tail size front behind, Laid bytes.val chunks tail ∧ tail.length < 8 ∧
          FirstMax rank (images chunks) (size, entry) front behind := by
  have hOutcome := outcome_largestEntry bytes.property
  refine ⟨?_, ⟨?_, ?_⟩, ?_⟩
  · rintro e hError
    rw [hError] at hOutcome
    cases hOutcome with
    | header _ => exact ⟨_, rfl⟩
    | overrun _ _ _ _ _ => exact ⟨_, rfl⟩
    | noImage _ _ _ _ _ => exact ⟨_, rfl⟩
  · rintro ⟨e, hError⟩
    rw [hError] at hOutcome
    cases hOutcome with
    | header hHeader => exact .inl hHeader
    | overrun chunks tail _ hLaid hTail => exact .inr (.inl ⟨chunks, tail, hLaid, hTail⟩)
    | noImage chunks tail hLaid hTail hImages => exact .inr (.inr ⟨chunks, tail, hLaid, hTail, hImages⟩)
  · rintro (hHeader | ⟨chunks, tail, hLaid, hTail⟩ | ⟨chunks, tail, hLaid, hTail, hImages⟩)
    · exact ⟨_, largestEntry_of_not_headed hHeader⟩
    · obtain ⟨offset, hError⟩ := largestEntry_of_malformed bytes.property hLaid hTail
      exact ⟨_, hError⟩
    · rw [largestEntry_of_short bytes.property hLaid hTail, hImages]
      exact ⟨_, rfl⟩
  · rintro entry hFound
    rw [hFound] at hOutcome
    cases hOutcome with
    | found chunks tail size _ front behind hLaid hTail hLargest =>
      exact ⟨chunks, tail, size, front, behind, hLaid, hTail, hLargest⟩

end Pigeon.Transform.Icns
