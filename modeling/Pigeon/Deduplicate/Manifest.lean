import Pigeon.Library.Rows

/-! # The checkpoint file

`.processed` gets a row with bucket alias and key for every object that is done. A line without a tab is from a
time when rows had no alias, and counts for every bucket.
-/
namespace Pigeon.Deduplicate

open Library

set_option autoImplicit false

structure SourceObject where
  bucketAlias : Text
  key : Text
  alias_ne_nil : bucketAlias ≠ []
  tab_not_mem_alias : '\t' ∉ bucketAlias
  newline_not_mem_alias : '\n' ∉ bucketAlias
  key_ne_nil : key ≠ []

def readCheckpointLine (line : Text) : Text × Text :=
  match Text.splitOnce ['\t'] line with
  | some (bucketAlias, key) => (bucketAlias, key)
  | none => ([], line)

/-- The set of `load_checkpoint`; nothing stands for a missing file. -/
def loadCheckpoint : Option Text → List (Text × Text)
  | none => []
  | some contents => (Text.lines contents).map readCheckpointLine

def isCheckpointed (done : List (Text × Text)) (bucketAlias key : Text) : Bool :=
  done.contains (bucketAlias, key) || done.contains ([], key)

def checkpointRow (bucketAlias key : Text) : Text := bucketAlias ++ '\t' :: key

def appendCheckpoint (file : Option Text) (bucketAlias key : Text) : Option Text :=
  some (file.getD [] ++ (checkpointRow bucketAlias key ++ ['\n']))

namespace SourceObject

def row (object : SourceObject) : Text := checkpointRow object.bucketAlias object.key

def entry (object : SourceObject) : Text × Text := (object.bucketAlias, object.key)

theorem ext_entry {object other : SourceObject} (h : object.entry = other.entry) : object = other := by
  cases object
  cases other
  obtain ⟨rfl, rfl⟩ := Prod.mk.inj h
  rfl

/-- The key stays within its row and keeps its end. -/
def Rowable (object : SourceObject) : Prop := '\n' ∉ object.key ∧ object.key.getLast? ≠ some '\r'

end SourceObject

def checkpointFile (appended : List SourceObject) : Option Text :=
  appended.foldl (fun file object => appendCheckpoint file object.bucketAlias object.key) none

def checkpointed (appended : List SourceObject) : List (Text × Text) := loadCheckpoint (checkpointFile appended)

/-! ## What is read back -/

theorem foldl_appendCheckpoint (file : Option Text) (appended : List SourceObject) :
    (appended.foldl (fun file object => appendCheckpoint file object.bucketAlias object.key) file).getD [] =
      file.getD [] ++ Text.unlines (appended.map SourceObject.row) := by
  induction appended generalizing file with
  | nil => exact (List.append_nil _).symm
  | cons object appended ih =>
    rw [List.foldl_cons, ih, List.map_cons, Text.unlines_cons]
    simp [appendCheckpoint, SourceObject.row]

theorem loadCheckpoint_eq (file : Option Text) :
    loadCheckpoint file = (Text.lines (file.getD [])).map readCheckpointLine := by
  cases file with
  | none => exact (congrArg (List.map readCheckpointLine) Text.lines_nil).symm
  | some contents => rfl

theorem checkpointed_eq (appended : List SourceObject) :
    checkpointed appended =
      (Text.lines (Text.unlines (appended.map SourceObject.row))).map readCheckpointLine := by
  rw [checkpointed, loadCheckpoint_eq, checkpointFile, foldl_appendCheckpoint]
  rfl

theorem readCheckpointLine_row (object : SourceObject) (key : Text) :
    readCheckpointLine (checkpointRow object.bucketAlias key) = (object.bucketAlias, key) := by
  rw [readCheckpointLine, checkpointRow, Text.splitOnce_eq_some.mpr ⟨rfl, object.tab_not_mem_alias⟩]

theorem SourceObject.newline_mem_row (object : SourceObject) : '\n' ∈ object.row ↔ '\n' ∈ object.key := by
  simp [SourceObject.row, checkpointRow, object.newline_not_mem_alias]

theorem newline_not_mem_of_mem_checkpointed {appended : List SourceObject} {entry : Text × Text}
    (h : entry ∈ checkpointed appended) : '\n' ∉ entry.2 := by
  rw [checkpointed_eq] at h
  obtain ⟨line, hLine, rfl⟩ := List.mem_map.mp h
  have hPlain := Text.not_mem_of_mem_lines hLine
  rw [readCheckpointLine]
  split
  · rename_i hSplit
    rw [(Text.splitOnce_eq_some.mp hSplit).1] at hPlain
    exact fun hKey => hPlain (List.mem_append_right _ (List.mem_cons_of_mem _ hKey))
  · exact hPlain

theorem checkpointed_of_newline_not_mem {appended : List SourceObject} (h : ∀ object ∈ appended, '\n' ∉ object.key) :
    checkpointed appended = appended.map fun object => (object.bucketAlias, Text.stripCr object.key) := by
  have hRows : ∀ row ∈ appended.map SourceObject.row, '\n' ∉ row := by
    intro row hRow
    obtain ⟨object, hObject, rfl⟩ := List.mem_map.mp hRow
    exact mt object.newline_mem_row.mp (h object hObject)
  rw [checkpointed_eq, Text.lines_unlines_of_not_mem hRows, List.map_map, List.map_map]
  apply List.map_congr_left
  intro object _
  show readCheckpointLine (Text.stripCr (object.bucketAlias ++ '\t' :: object.key)) = _
  rw [Text.stripCr_append_cons _ (by decide)]
  exact readCheckpointLine_row object _

theorem isCheckpointed_iff (done : List (Text × Text)) (object : SourceObject) :
    isCheckpointed done object.bucketAlias object.key = true ↔ object.entry ∈ done ∨ ([], object.key) ∈ done := by
  rw [isCheckpointed, Bool.or_eq_true, List.contains_iff_mem, List.contains_iff_mem]
  rfl

/-! ## The checkpoint is exact -/

/-- An object is found done exactly when it was appended. -/
def ExactAfter (appended : List SourceObject) : Prop :=
  ∀ object : SourceObject,
    isCheckpointed (checkpointed appended) object.bucketAlias object.key = true ↔ object ∈ appended

theorem exactAfter_of_rowable {appended : List SourceObject} (h : ∀ object ∈ appended, object.Rowable) :
    ExactAfter appended := by
  have hRead : checkpointed appended = appended.map SourceObject.entry := by
    rw [checkpointed_of_newline_not_mem fun object hObject => (h object hObject).1]
    apply List.map_congr_left
    intro object hObject
    rw [Text.stripCr_of_getLast_ne _ (h object hObject).2]
    rfl
  intro object
  rw [isCheckpointed_iff, hRead]
  constructor
  · rintro (hOwn | hAny)
    · obtain ⟨other, hOther, hEntry⟩ := List.mem_map.mp hOwn
      exact SourceObject.ext_entry hEntry ▸ hOther
    · obtain ⟨other, -, hEntry⟩ := List.mem_map.mp hAny
      exact absurd (congrArg Prod.fst hEntry) other.alias_ne_nil
  · exact fun hObject => .inl (List.mem_map_of_mem hObject)

theorem newline_not_mem_of_exactAfter {appended : List SourceObject} (hExact : ExactAfter appended)
    {object : SourceObject} (hObject : object ∈ appended) : '\n' ∉ object.key := by
  obtain hOwn | hAny := (isCheckpointed_iff _ object).mp ((hExact object).mpr hObject)
  · exact newline_not_mem_of_mem_checkpointed hOwn
  · exact newline_not_mem_of_mem_checkpointed hAny

/-- A key that ends in a carriage return is found only through one that has another behind it. -/
theorem exists_longer_of_exactAfter {appended : List SourceObject} (hExact : ExactAfter appended)
    {object : SourceObject} (hObject : object ∈ appended) (hCr : object.key.getLast? = some '\r') :
    ∃ other ∈ appended, other.key.getLast? = some '\r' ∧ object.key.length < other.key.length := by
  have hRead := checkpointed_of_newline_not_mem fun other hOther => newline_not_mem_of_exactAfter hExact hOther
  have hFound := (isCheckpointed_iff _ object).mp ((hExact object).mpr hObject)
  rw [hRead] at hFound
  obtain hOwn | hAny := hFound
  · obtain ⟨other, hOther, hEntry⟩ := List.mem_map.mp hOwn
    have hKey : Text.stripCr other.key = object.key := congrArg Prod.snd hEntry
    have hLast : other.key.getLast? = some '\r' := by
      by_contra hNot
      rw [Text.stripCr_of_getLast_ne _ hNot] at hKey
      exact hNot (hKey ▸ hCr)
    refine ⟨other, hOther, hLast, ?_⟩
    rw [← hKey, Text.stripCr, if_pos hLast, List.length_dropLast]
    exact Nat.sub_one_lt (mt List.length_eq_zero_iff.mp other.key_ne_nil)
  · obtain ⟨other, -, hEntry⟩ := List.mem_map.mp hAny
    exact absurd (congrArg Prod.fst hEntry) other.alias_ne_nil

theorem getLast_ne_of_exactAfter {appended : List SourceObject} (hExact : ExactAfter appended)
    {object : SourceObject} (hObject : object ∈ appended) : object.key.getLast? ≠ some '\r' := by
  intro hCr
  have hLonger (bound : Nat) :
      ∃ other ∈ appended, other.key.getLast? = some '\r' ∧ bound ≤ other.key.length := by
    induction bound with
    | zero => exact ⟨object, hObject, hCr, Nat.zero_le _⟩
    | succ bound ih =>
      obtain ⟨other, hOther, hLast, hBound⟩ := ih
      obtain ⟨next, hNext, hNextLast, hLess⟩ := exists_longer_of_exactAfter hExact hOther hLast
      exact ⟨next, hNext, hNextLast, Nat.lt_of_le_of_lt hBound hLess⟩
  obtain ⟨other, hOther, -, hBound⟩ := hLonger ((appended.map fun object => object.key.length).sum + 1)
  have hSum : other.key.length ≤ (appended.map fun object => object.key.length).sum :=
    List.le_sum_of_mem (List.mem_map_of_mem hOther)
  omega

/-- Whatever was appended: the checkpoint that is read back is exact if and only if no key holds a line feed or
ends in a carriage return. -/
theorem exactAfter_iff (appended : List SourceObject) :
    ExactAfter appended ↔ ∀ object ∈ appended, '\n' ∉ object.key ∧ object.key.getLast? ≠ some '\r' :=
  ⟨fun hExact _ hObject => ⟨newline_not_mem_of_exactAfter hExact hObject, getLast_ne_of_exactAfter hExact hObject⟩,
    exactAfter_of_rowable⟩

/-! ## A key with a line feed -/

def holidayObject : SourceObject where
  bucketAlias := "photos".toList
  key := "2020\na.jpg".toList
  alias_ne_nil := by decide
  tab_not_mem_alias := by decide
  newline_not_mem_alias := by decide
  key_ne_nil := by decide

def otherObject : SourceObject where
  bucketAlias := "videos".toList
  key := "a.jpg".toList
  alias_ne_nil := by decide
  tab_not_mem_alias := by decide
  newline_not_mem_alias := by decide
  key_ne_nil := by decide

/-- The second half of the key is taken for a row without alias: an object of another bucket counts as done, and
the one that was appended does not. -/
theorem broken_row_counts_for_every_bucket :
    ¬ ExactAfter [holidayObject] ∧
      isCheckpointed (checkpointed [holidayObject]) otherObject.bucketAlias otherObject.key = true ∧
        otherObject ∉ [holidayObject] ∧
          isCheckpointed (checkpointed [holidayObject]) holidayObject.bucketAlias holidayObject.key = false := by
  have hOther : isCheckpointed (checkpointed [holidayObject]) otherObject.bucketAlias otherObject.key = true := by
    decide +kernel
  have hAbsent : otherObject ∉ [holidayObject] := by
    intro hMem
    have hAlias : otherObject.bucketAlias = holidayObject.bucketAlias := by rw [List.mem_singleton.mp hMem]
    exact absurd hAlias (by decide)
  exact ⟨fun hExact => hAbsent ((hExact otherObject).mp hOther), hOther, hAbsent, by decide +kernel⟩

end Pigeon.Deduplicate
