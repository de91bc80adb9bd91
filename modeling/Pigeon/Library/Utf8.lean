import Pigeon.Library.Text

/-! # Text as bytes, and text that is cut

A text is written as UTF-8 and read back from any of its bytes that are whole characters. What is read so
far splits into the lines that are ended and the one that is still open.
-/
namespace Pigeon.Library

set_option autoImplicit false

namespace Utf8

def encode (s : Text) : List UInt8 := s.flatMap String.utf8EncodeChar

/-- The text that the bytes are the encoding of, if there is one. -/
def decode (bytes : List UInt8) : Option Text := bytes.toByteArray.utf8Decode?.map Array.toList

theorem encode_append (s t : Text) : encode (s ++ t) = encode s ++ encode t := List.flatMap_append

theorem encode_cons (c : Char) (s : Text) : encode (c :: s) = String.utf8EncodeChar c ++ encode s := by
  rw [encode, List.flatMap_cons, encode]

theorem toByteArray_encode (s : Text) : (encode s).toByteArray = s.utf8Encode := rfl

theorem toByteArray_inj {bytes other : List UInt8} (h : bytes.toByteArray = other.toByteArray) : bytes = other := by
  have hData := congrArg ByteArray.data h
  rwa [List.data_toByteArray, List.data_toByteArray, Array.mk.injEq] at hData

theorem decode_encode (s : Text) : decode (encode s) = some s := by
  rw [decode, toByteArray_encode, List.utf8Decode?_utf8Encode]
  rfl

theorem encode_of_decode {bytes : List UInt8} {s : Text} (h : decode bytes = some s) : encode s = bytes := by
  obtain ⟨chars, hChars, rfl⟩ := Option.map_eq_some_iff.mp h
  apply toByteArray_inj
  obtain ⟨hSome, rfl⟩ := Option.eq_some_iff_get_eq.mp hChars
  exact ByteArray.utf8Encode_get_utf8Decode?

theorem length_encode (s : Text) : (encode s).length = Text.byteLength s := by
  rw [encode, List.length_flatMap, Text.byteLength]
  simp

theorem exists_rest {s t : Text} {rest : List UInt8} (h : encode s ++ rest = encode t) :
    ∃ u, t = s ++ u ∧ rest = encode u := by
  have hArrays : s.utf8Encode ++ rest.toByteArray = t.utf8Encode := by
    rw [← toByteArray_encode, ← toByteArray_encode, ← h, List.toByteArray_append]
  obtain ⟨u, rfl⟩ := List.isPrefix_of_utf8Encode_append_eq_utf8Encode _ hArrays
  rw [encode_append] at h
  exact ⟨u, rfl, List.append_cancel_left h⟩

end Utf8

namespace Text

/-- The lines that are ended. -/
def completeLines (s : Text) : List Text := (s.splitOn '\n').dropLast

/-- The line that is still open. -/
def openLine (s : Text) : Text := (s.splitOn '\n').getLastD []

theorem splitOn_eq_append (s : Text) : s.splitOn '\n' = completeLines s ++ [openLine s] := by
  rw [completeLines, openLine, List.getLastD_eq_getLast?, List.getLast?_eq_some_getLast (List.splitOn_ne_nil _ _),
    Option.getD_some, List.dropLast_append_getLast]

theorem splitOn_of_append (s t : Text) : (s ++ t).splitOn '\n' = completeLines s ++ (openLine s ++ t).splitOn '\n' := by
  cases hSplit : rsplitOnce '\n' s with
  | none =>
    rw [completeLines, openLine, List.splitOn_eq_singleton (not_mem_of_rsplitOnce hSplit)]
    rfl
  | some pieces =>
    obtain ⟨before, last⟩ := pieces
    obtain ⟨rfl, hLast⟩ := rsplitOnce_eq_some hSplit
    rw [completeLines, openLine, List.splitOn_append_cons_self, List.splitOn_eq_singleton hLast,
      List.dropLast_concat, List.append_assoc, List.cons_append, List.splitOn_append_cons_self]
    simp

theorem not_mem_openLine (s : Text) : '\n' ∉ openLine s := by
  have hMem : openLine s ∈ s.splitOn '\n' := by
    rw [splitOn_eq_append]
    exact List.mem_append_right _ List.mem_cons_self
  exact not_mem_of_mem_splitOn hMem

theorem completeLines_openLine (s : Text) : completeLines (openLine s) = [] := by
  rw [completeLines, List.splitOn_eq_singleton (not_mem_openLine s)]
  rfl

theorem openLine_of_getLast? {s : Text} (h : s.getLast? = some '\n') : openLine s = [] := by
  obtain ⟨before, rfl⟩ := List.getLast?_eq_some_iff.mp h
  rw [openLine, List.splitOn_append_cons_self, List.splitOn_nil]
  simp

theorem completeLines_append (s t : Text) :
    completeLines (s ++ t) = completeLines s ++ completeLines (openLine s ++ t) := by
  rw [completeLines, splitOn_of_append, List.dropLast_append_of_ne_nil (List.splitOn_ne_nil _ _)]
  rfl

theorem openLine_append (s t : Text) : openLine (s ++ t) = openLine (openLine s ++ t) := by
  have hSplit := splitOn_of_append s t
  rw [splitOn_eq_append, splitOn_eq_append (openLine s ++ t), ← List.append_assoc] at hSplit
  exact List.singleton_inj.mp (List.append_inj_right' hSplit rfl)

end Text

end Pigeon.Library
