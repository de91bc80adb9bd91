import Pigeon.Library.Text
import Pigeon.Library.Trim

/-! # Line endings

A text cut behind each of its line feeds, and the same text with a carriage return before each of them.
-/
namespace Pigeon.Library.Text

set_option autoImplicit false

/-- `str::split_inclusive` at line feeds. -/
def splitInclusive : Text → List Text
  | [] => []
  | c :: rest =>
    if c = '\n' then [c] :: splitInclusive rest
    else
      match splitInclusive rest with
      | [] => [[c]]
      | line :: more => (c :: line) :: more

def crlf (s : Text) : Text := s.flatMap fun c => if c = '\n' then ['\r', c] else [c]

/-- A text is a last line without a line feed, or a line with one before another text. -/
theorem line_induction {motive : Text → Prop} (last : ∀ line, '\n' ∉ line → motive line)
    (line : ∀ line rest, '\n' ∉ line → motive rest → motive (line ++ '\n' :: rest)) (s : Text) : motive s := by
  obtain ⟨n, hLength⟩ : ∃ n, s.length ≤ n := ⟨_, le_rfl⟩
  induction n generalizing s with
  | zero =>
    rw [List.length_eq_zero_iff.mp (Nat.le_zero.mp hLength)]
    exact last [] List.not_mem_nil
  | succ n ih =>
    rcases Decidable.em ('\n' ∈ s) with hFeed | hNone
    · obtain ⟨before, after, rfl, hBefore⟩ := List.eq_append_cons_of_mem hFeed
      rw [List.length_append, List.length_cons] at hLength
      exact line before after hBefore (ih after (by omega))
    · exact last s hNone

/-! ## Cutting behind the line feeds -/

theorem splitInclusive_feed (line rest : Text) (h : '\n' ∉ line) :
    splitInclusive (line ++ '\n' :: rest) = (line ++ ['\n']) :: splitInclusive rest := by
  induction line with
  | nil => rfl
  | cons c line ih =>
    obtain ⟨hFirst, hLine⟩ := not_or.mp (mt List.mem_cons.mpr h)
    rw [List.cons_append, splitInclusive, if_neg (Ne.symm hFirst), ih hLine]
    rfl

theorem splitInclusive_last {line : Text} (h : '\n' ∉ line) (hSome : line ≠ []) : splitInclusive line = [line] := by
  induction line with
  | nil => exact absurd rfl hSome
  | cons c line ih =>
    obtain ⟨hFirst, hLine⟩ := not_or.mp (mt List.mem_cons.mpr h)
    rw [splitInclusive, if_neg (Ne.symm hFirst)]
    cases line with
    | nil => rfl
    | cons d line => rw [ih hLine (List.cons_ne_nil d line)]

theorem flatten_splitInclusive (s : Text) : (splitInclusive s).flatten = s := by
  induction s using line_induction with
  | last line hLine =>
    cases line with
    | nil => rfl
    | cons c line => rw [splitInclusive_last hLine (List.cons_ne_nil c line), List.flatten_singleton]
  | line line rest hLine ih =>
    rw [splitInclusive_feed line rest hLine, List.flatten_cons, ih, List.append_assoc, List.singleton_append]

/-- The content of a line that was cut off, and its line feed, if it has one. -/
theorem mem_splitInclusive {s line : Text} (h : line ∈ splitInclusive s) :
    ∃ content, '\n' ∉ content ∧ (line = content ∨ line = content ++ ['\n']) := by
  induction s using line_induction with
  | last last hLast =>
    cases last with
    | nil => cases h
    | cons c rest =>
      rw [splitInclusive_last hLast (List.cons_ne_nil c rest), List.mem_singleton] at h
      exact ⟨line, h ▸ hLast, .inl rfl⟩
  | line content rest hContent ih =>
    rw [splitInclusive_feed content rest hContent, List.mem_cons] at h
    rcases h with rfl | hRest
    · exact ⟨content, hContent, .inr rfl⟩
    · exact ih hRest

/-! ## Carriage returns before the line feeds -/

theorem crlf_append (s t : Text) : crlf (s ++ t) = crlf s ++ crlf t := List.flatMap_append

theorem crlf_of_not_mem {line : Text} (h : '\n' ∉ line) : crlf line = line := by
  induction line with
  | nil => rfl
  | cons c line ih =>
    obtain ⟨hFirst, hLine⟩ := not_or.mp (mt List.mem_cons.mpr h)
    rw [crlf, List.flatMap_cons, if_neg (Ne.symm hFirst)]
    exact congrArg (c :: ·) (ih hLine)

theorem crlf_feed {line : Text} (h : '\n' ∉ line) (rest : Text) :
    crlf (line ++ '\n' :: rest) = (line ++ ['\r']) ++ '\n' :: crlf rest := by
  rw [crlf_append, crlf_of_not_mem h, List.append_assoc]
  rfl

theorem splitInclusive_crlf (s : Text) : splitInclusive (crlf s) = (splitInclusive s).map crlf := by
  induction s using line_induction with
  | last line hLine =>
    rw [crlf_of_not_mem hLine]
    cases line with
    | nil => rfl
    | cons c line =>
      rw [splitInclusive_last hLine (List.cons_ne_nil c line), List.map_singleton, crlf_of_not_mem hLine]
  | line line rest hLine ih =>
    have hReturn : '\n' ∉ line ++ ['\r'] := by
      rw [List.mem_append, not_or]
      exact ⟨hLine, by decide⟩
    rw [crlf_feed hLine, splitInclusive_feed _ _ hReturn, splitInclusive_feed line rest hLine, List.map_cons, ih,
      crlf_feed hLine]
    rfl

theorem lines_crlf {s : Text} (h : '\r' ∉ s) : lines (crlf s) = lines s := by
  induction s using line_induction with
  | last line hLine => rw [crlf_of_not_mem hLine]
  | line line rest hLine ih =>
    obtain ⟨hReturn, hRest⟩ := not_or.mp (mt List.mem_append.mpr h)
    have hLine' : '\n' ∉ line ++ ['\r'] := by
      rw [List.mem_append, not_or]
      exact ⟨hLine, by decide⟩
    have hStrip : stripCr (line ++ ['\r']) = line := by rw [stripCr, if_pos List.getLast?_concat, List.dropLast_concat]
    have hPlain : stripCr line = line := stripCr_of_getLast_ne line fun hLast => hReturn (List.mem_of_getLast? hLast)
    rw [crlf_feed hLine, lines_append_newline _ _ hLine', lines_append_newline _ _ hLine, hStrip, hPlain,
      ih (mt (List.mem_cons_of_mem _) hRest)]

/-- Trimming does not tell the endings of a line apart, where it takes both of their characters. -/
theorem trimMatches_crlf {p : Char → Bool} (hReturn : p '\r') (hFeed : p '\n') {line content : Text}
    (hContent : '\n' ∉ content) (hLine : line = content ∨ line = content ++ ['\n']) :
    trimMatches p (crlf line) = trimMatches p line ∧ trimEndMatches p (crlf line) = trimEndMatches p line := by
  rcases hLine with rfl | rfl
  · rw [crlf_of_not_mem hContent]
    exact ⟨rfl, rfl⟩
  · have hEnding : crlf (content ++ ['\n']) = content ++ ['\r'] ++ ['\n'] := crlf_feed hContent []
    rw [hEnding, trimMatches_concat hFeed, trimMatches_concat hReturn, trimMatches_concat hFeed, trimEndMatches_concat hFeed,
      trimEndMatches_concat hReturn, trimEndMatches_concat hFeed]
    exact ⟨rfl, rfl⟩

end Pigeon.Library.Text
