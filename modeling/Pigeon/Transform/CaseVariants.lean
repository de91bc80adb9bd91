import Pigeon.Library.FirstFit
import Pigeon.Transform.Reconcile

/-! # Case variants

Keys that are one name on the local volume are pulled into slots, each into the first one where every beginning of the
key is unclaimed or claimed by the same spelling. The claims of a slot are a table; what they stand for is that no two
keys of a slot have beginnings that are one name on the volume and differently spelled.
-/
namespace Pigeon.Transform

open Library

set_option autoImplicit false

/-- Two keys with beginnings that fold equal and are spelled differently. -/
def SpellingConflict (localFold : Text → Text) (key other : Text) : Prop :=
  ∃ path ∈ pathPrefixes key, ∃ otherPath ∈ pathPrefixes other, localFold path = localFold otherPath ∧ path ≠ otherPath

/-! ## Beginnings of a key -/

/-- The loop of `path_prefixes` behind what is accumulated. -/
def prefixesFrom : Text → List Text → List Text
  | _, [] => []
  | accumulated, component :: components =>
    let accumulated := (if accumulated = [] then [] else accumulated ++ ['/']) ++ component
    accumulated :: prefixesFrom accumulated components

theorem foldl_pathPrefixes (components : List Text) (accumulated : Text) (before : List Text) :
    (components.foldl (fun (before : Text × List Text) component =>
      let accumulated := (if before.1 = [] then [] else before.1 ++ ['/']) ++ component
      (accumulated, before.2 ++ [accumulated])) (accumulated, before)).2 = before ++ prefixesFrom accumulated components := by
  induction components generalizing accumulated before with
  | nil => exact (List.append_nil before).symm
  | cons component components ih =>
    rw [List.foldl_cons, ih, prefixesFrom, List.append_assoc]
    rfl

theorem pathPrefixes_eq (key : Text) : pathPrefixes key = prefixesFrom [] (key.splitOn '/') := by
  rw [pathPrefixes, foldl_pathPrefixes, List.nil_append]

/-- Each beginning has one separator more than the one before it. -/
theorem pairwise_prefixesFrom {accumulated : Text} (hAccumulated : accumulated ≠ []) {components : List Text}
    (hComponents : ∀ component ∈ components, '/' ∉ component) :
    (accumulated :: prefixesFrom accumulated components).Pairwise fun path longer => path.count '/' < longer.count '/' := by
  induction components generalizing accumulated with
  | nil => exact List.pairwise_singleton _ accumulated
  | cons component components ih =>
    obtain ⟨hComponent, hRest⟩ := List.forall_mem_cons.mp hComponents
    rw [prefixesFrom, if_neg hAccumulated]
    have hNext : accumulated ++ ['/'] ++ component ≠ [] := by simp
    have hMore : accumulated.count '/' < (accumulated ++ ['/'] ++ component).count '/' := by
      rw [List.count_append, List.count_append, List.count_eq_zero_of_not_mem hComponent]
      exact Nat.lt_succ_self _
    have hTail := ih hNext hRest
    refine List.pairwise_cons.mpr ⟨List.forall_mem_cons.mpr ⟨hMore, fun path hPath => ?_⟩, hTail⟩
    exact hMore.trans ((List.pairwise_cons.mp hTail).1 path hPath)

theorem pathPrefixes_count_injective {key : Text} (hKey : ∀ component ∈ key.splitOn '/', component ≠ [])
    {path other : Text} (hPath : path ∈ pathPrefixes key) (hOther : other ∈ pathPrefixes key)
    (hCount : path.count '/' = other.count '/') : path = other := by
  have hPairwise : (pathPrefixes key).Pairwise fun path longer => path.count '/' < longer.count '/' := by
    obtain ⟨component, components, hSplit⟩ := List.exists_cons_of_ne_nil (List.splitOn_ne_nil '/' key)
    rw [hSplit] at hKey
    rw [pathPrefixes_eq, hSplit]
    have hFree : ∀ other ∈ components, '/' ∉ other := fun other hOther =>
      Text.not_mem_of_mem_splitOn (hSplit ▸ List.mem_cons_of_mem component hOther)
    exact pairwise_prefixesFrom (hKey component List.mem_cons_self) hFree
  have hNodup : ((pathPrefixes key).map (List.count '/')).Nodup :=
    List.pairwise_map.mpr (hPairwise.imp fun hLess => hLess.ne)
  exact List.inj_on_of_nodup_map hNodup hPath hOther hCount

theorem pathPrefixes_flat {key : Text} (hFlat : '/' ∉ key) : pathPrefixes key = [key] := by
  rw [pathPrefixes_eq, List.splitOn_eq_singleton hFlat]
  rfl

/-! ## The table of a slot -/

section Slots

variable {localFold : Text → Text}

/-- The beginnings of the key are different names on the volume. -/
def FoldsApart (localFold : Text → Text) (key : Text) : Prop :=
  ∀ path ∈ pathPrefixes key, ∀ other ∈ pathPrefixes key, localFold path = localFold other → path = other

theorem foldsApart_of_components (hFold : ∀ s, (localFold s).count '/' = s.count '/') {key : Text}
    (hKey : ∀ component ∈ key.splitOn '/', component ≠ []) : FoldsApart localFold key := by
  intro path hPath other hOther hEq
  apply pathPrefixes_count_injective hKey hPath hOther
  rw [← hFold path, hEq, hFold other]

theorem foldl_update_eq_some {paths : List Text}
    (hApart : ∀ path ∈ paths, ∀ other ∈ paths, localFold path = localFold other → path = other)
    (claimed : Text → Option Text) (folded spelling : Text) :
    paths.foldl (fun claimed path => Function.update claimed (localFold path) (some path)) claimed folded = some spelling ↔
      (spelling ∈ paths ∧ localFold spelling = folded) ∨
        ((∀ path ∈ paths, localFold path ≠ folded) ∧ claimed folded = some spelling) := by
  induction paths using List.reverseRecOn with
  | nil => simp
  | append_singleton paths last ih =>
    have hStep := ih fun path hPath other hOther =>
      hApart path (List.mem_append_left _ hPath) other (List.mem_append_left _ hOther)
    rw [List.foldl_concat, Function.update_apply]
    simp only [List.mem_append, List.mem_singleton, or_imp, forall_and, forall_eq]
    split
    · rename_i hFolded
      constructor
      · intro hSpelling
        obtain rfl := Option.some.inj hSpelling
        exact .inl ⟨.inr rfl, hFolded.symm⟩
      · rintro (⟨hMem, hSame⟩ | ⟨⟨-, hNe⟩, -⟩)
        · refine congrArg some (hApart last (List.mem_append_right _ List.mem_cons_self) spelling ?_ ?_)
          · simpa using hMem
          · rw [hSame, hFolded]
        · exact absurd hFolded.symm hNe
    · rename_i hFolded
      rw [hStep]
      constructor
      · rintro (⟨hMem, hSame⟩ | ⟨hOthers, hOld⟩)
        · exact .inl ⟨.inl hMem, hSame⟩
        · exact .inr ⟨⟨hOthers, fun hSame => hFolded hSame.symm⟩, hOld⟩
      · rintro (⟨hMem | rfl, hSame⟩ | ⟨⟨hOthers, -⟩, hOld⟩)
        · exact .inl ⟨hMem, hSame⟩
        · exact absurd hSame.symm hFolded
        · exact .inr ⟨hOthers, hOld⟩

namespace Slot

/-- The table holds the beginnings of the slot's keys, each under its folded name. -/
def Claims (localFold : Text → Text) (slot : Slot) : Prop :=
  ∀ folded spelling, slot.claimed folded = some spelling ↔
    localFold spelling = folded ∧ ∃ key ∈ slot.keys, spelling ∈ pathPrefixes key

theorem claims_nil : Claims localFold ⟨[], fun _ => none⟩ := by
  intro folded spelling
  simp

theorem fits_iff {slot : Slot} (hClaims : slot.Claims localFold) (key : Text) :
    slot.fits localFold key = true ↔ ∀ member ∈ slot.keys, ¬ SpellingConflict localFold member key := by
  rw [fits, List.all_eq_true]
  constructor
  · rintro hFits member hMember ⟨path, hPath, other, hOther, hFolded, hNe⟩
    have hClaimed := (hClaims (localFold other) path).mpr ⟨hFolded, member, hMember, hPath⟩
    have hSame := hFits other hOther
    rw [hClaimed, Option.all_some, beq_iff_eq] at hSame
    exact hNe hSame
  · intro hFree path hPath
    cases hClaimed : slot.claimed (localFold path) with
    | none => rfl
    | some spelling =>
      obtain ⟨hFolded, member, hMember, hSpelling⟩ := (hClaims _ _).mp hClaimed
      rw [Option.all_some, beq_iff_eq]
      by_contra hNe
      exact hFree member hMember ⟨spelling, hSpelling, path, hPath, hFolded, hNe⟩

theorem Claims.insert {slot : Slot} (hClaims : slot.Claims localFold) {key : Text} (hApart : FoldsApart localFold key)
    (hFits : slot.fits localFold key = true) : (slot.insert localFold key).Claims localFold := by
  intro folded spelling
  have hFree := (fits_iff hClaims key).mp hFits
  rw [Slot.insert]
  dsimp only
  rw [foldl_update_eq_some hApart, hClaims]
  constructor
  · rintro (⟨hSpelling, hFolded⟩ | ⟨-, hFolded, member, hMember, hSpelling⟩)
    · exact ⟨hFolded, key, List.mem_append_right _ List.mem_cons_self, hSpelling⟩
    · exact ⟨hFolded, member, List.mem_append_left _ hMember, hSpelling⟩
  · rintro ⟨rfl, member, hMember, hSpelling⟩
    obtain hOld | hNew := List.mem_append.mp hMember
    · obtain ⟨path, hPath, hSame⟩ | hNone :=
        Classical.em (∃ path ∈ pathPrefixes key, localFold path = localFold spelling)
      · have hEq : spelling = path := by
          by_contra hNe
          exact hFree member hOld ⟨spelling, hSpelling, path, hPath, hSame.symm, hNe⟩
        exact .inl ⟨hEq ▸ hPath, rfl⟩
      · exact .inr ⟨fun path hPath hSame => hNone ⟨path, hPath, hSame⟩, rfl, member, hOld, hSpelling⟩
    · rw [List.mem_singleton.mp hNew] at hSpelling
      exact .inl ⟨hSpelling, rfl⟩

end Slot

/-- Greedy over the tables is first fit over the conflicts. -/
theorem assignCaseVariant_place {slots : List Slot} (hClaims : ∀ slot ∈ slots, slot.Claims localFold) {key : Text}
    (hApart : FoldsApart localFold key) :
    (∀ slot ∈ assignCaseVariant localFold key slots, slot.Claims localFold) ∧
      (assignCaseVariant localFold key slots).map Slot.keys =
        FirstFit.place (SpellingConflict localFold) key (slots.map Slot.keys) := by
  induction slots with
  | nil =>
    refine ⟨fun slot hSlot => ?_, rfl⟩
    rw [List.mem_singleton.mp hSlot]
    exact Slot.claims_nil.insert hApart (List.all_eq_true.mpr fun path _ => rfl)
  | cons slot slots ih =>
    obtain ⟨hSlot, hRest⟩ := List.forall_mem_cons.mp hClaims
    obtain ⟨hTail, hKeys⟩ := ih hRest
    rw [assignCaseVariant, List.map_cons, FirstFit.place]
    cases hFits : slot.fits localFold key with
    | true =>
      rw [if_pos rfl, if_pos ((Slot.fits_iff hSlot key).mp hFits)]
      exact ⟨List.forall_mem_cons.mpr ⟨hSlot.insert hApart hFits, hRest⟩, rfl⟩
    | false =>
      have hFull : ¬ ∀ member ∈ slot.keys, ¬ SpellingConflict localFold member key := by
        rw [← Slot.fits_iff hSlot, hFits]
        exact Bool.false_ne_true
      rw [if_neg Bool.false_ne_true, if_neg hFull]
      exact ⟨List.forall_mem_cons.mpr ⟨hSlot, hTail⟩, congrArg _ hKeys⟩

theorem assignCaseVariantSlots_eq_firstFit {variants : List Text} (hApart : ∀ key ∈ variants, FoldsApart localFold key) :
    assignCaseVariantSlots localFold variants = FirstFit.assign (SpellingConflict localFold) variants := by
  have hFold : (∀ slot ∈ variants.foldl (fun slots key => assignCaseVariant localFold key slots) [], slot.Claims localFold) ∧
      (variants.foldl (fun slots key => assignCaseVariant localFold key slots) []).map Slot.keys =
        FirstFit.assign (SpellingConflict localFold) variants := by
    induction variants using List.reverseRecOn with
    | nil => exact ⟨fun slot hSlot => absurd hSlot List.not_mem_nil, rfl⟩
    | append_singleton variants last ih =>
      obtain ⟨hClaims, hKeys⟩ := ih fun key hKey => hApart key (List.mem_append_left _ hKey)
      rw [List.foldl_concat, FirstFit.assign_concat, ← hKeys]
      exact assignCaseVariant_place hClaims (hApart last (List.mem_append_right _ List.mem_cons_self))
  exact hFold.2

/-! ## The pull set -/

/-- How the pull set is divided: the keys of the bulk pull and the slots of the case variants. -/
structure CaseSplit (localFold : Text → Text) (filesToPull bulk variants : List Text) (slots : List (List Text)) : Prop where
  partition : (bulk ++ variants).Perm filesToPull
  bulkApart : ∀ key ∈ bulk, ∀ other ∈ bulk, localFold key = localFold other → key = other
  oneSlot : slots.flatten.Nodup ∧ ∀ key, key ∈ slots.flatten ↔ key ∈ variants
  slotApart : ∀ slot ∈ slots, ∀ key ∈ slot, ∀ other ∈ slot, ∀ path ∈ pathPrefixes key, ∀ otherPath ∈ pathPrefixes other,
    localFold path = localFold otherPath → path = otherPath
  slotCount : (∀ key ∈ filesToPull, '/' ∉ key) → variants ≠ [] →
    IsGreatest {size | ∃ key ∈ filesToPull, size = filesToPull.countP fun other => localFold other = localFold key}
      slots.length

theorem mem_caseInsensitiveCollisions {filesToPull : List Text} {key : Text} :
    key ∈ caseInsensitiveCollisions localFold filesToPull ↔
      key ∈ filesToPull ∧ 1 < filesToPull.countP fun other => localFold other = localFold key := by
  simp only [caseInsensitiveCollisions, List.mem_dedup, List.mem_filter, decide_eq_true_eq, beq_eq_decide]

/-- A key of the pull set that shares its folded name with another key collides. -/
theorem mem_collisions_of_ne {filesToPull : List Text} {key other : Text} (hKey : key ∈ filesToPull)
    (hOther : other ∈ filesToPull) (hNe : key ≠ other) (hFolded : localFold key = localFold other) :
    key ∈ caseInsensitiveCollisions localFold filesToPull := by
  refine mem_caseInsensitiveCollisions.mpr ⟨hKey, ?_⟩
  rw [List.countP_eq_length_filter]
  have hFirst : key ∈ filesToPull.filter fun file => localFold file = localFold key :=
    List.mem_filter.mpr ⟨hKey, decide_eq_true rfl⟩
  have hSecond : other ∈ filesToPull.filter fun file => localFold file = localFold key :=
    List.mem_filter.mpr ⟨hOther, decide_eq_true hFolded.symm⟩
  cases hClass : filesToPull.filter fun file => localFold file = localFold key with
  | nil =>
    rw [hClass] at hFirst
    cases hFirst
  | cons file files =>
    cases files with
    | nil =>
      rw [hClass, List.mem_singleton] at hFirst hSecond
      exact absurd (hFirst.trans hSecond.symm) hNe
    | cons next files => exact Nat.succ_lt_succ (Nat.succ_pos _)

theorem spellingConflict_symm {key other : Text} (h : SpellingConflict localFold key other) :
    SpellingConflict localFold other key := by
  obtain ⟨path, hPath, otherPath, hOther, hFolded, hNe⟩ := h
  exact ⟨otherPath, hOther, path, hPath, hFolded.symm, hNe.symm⟩

theorem spellingConflict_flat {key other : Text} (hKey : '/' ∉ key) (hOther : '/' ∉ other) :
    SpellingConflict localFold key other ↔ localFold key = localFold other ∧ key ≠ other := by
  rw [SpellingConflict, pathPrefixes_flat hKey, pathPrefixes_flat hOther]
  simp

theorem slot_apart {variants : List Text} (hApart : ∀ key ∈ variants, FoldsApart localFold key) {slot : List Text}
    (hSlot : slot ∈ assignCaseVariantSlots localFold variants) {key other : Text} (hKey : key ∈ slot) (hOther : other ∈ slot) :
    ¬ SpellingConflict localFold key other := by
  have hMem : ∀ member ∈ slot, member ∈ variants := fun member hMember =>
    (assignCaseVariantSlots_perm localFold variants).mem_iff.mp (List.mem_flatten_of_mem hSlot hMember)
  have hSelf : ∀ member ∈ slot, ¬ SpellingConflict localFold member member := by
    rintro member hMember ⟨path, hPath, otherPath, hOtherPath, hFolded, hNe⟩
    exact hNe (hApart member (hMem member hMember) path hPath otherPath hOtherPath hFolded)
  rw [assignCaseVariantSlots_eq_firstFit hApart] at hSlot
  have hSymmetric : Std.Symm fun member item => ¬ SpellingConflict localFold member item :=
    ⟨fun member item hFree hConflict => hFree (spellingConflict_symm hConflict)⟩
  exact (FirstFit.assign_apart variants slot hSlot).forall_of_forall hSelf hKey hOther

/-- A slot takes one key of each class, and a slot is opened only for a class that is in all of them. -/
theorem length_slots_flat (localFold : Text → Text) {variants : List Text} (hDistinct : variants.Nodup) (hFlat : ∀ key ∈ variants, '/' ∉ key) :
    (∀ folded, variants.countP (fun other => localFold other = folded) ≤
      (assignCaseVariantSlots localFold variants).length) ∧
    (variants ≠ [] → ∃ key ∈ variants, (assignCaseVariantSlots localFold variants).length ≤
      variants.countP fun other => localFold other = localFold key) := by
  have hApart : ∀ key ∈ variants, FoldsApart localFold key := by
    intro key hKey path hPath other hOther _
    rw [pathPrefixes_flat (hFlat key hKey), List.mem_singleton] at hPath hOther
    exact hPath.trans hOther.symm
  rw [assignCaseVariantSlots_eq_firstFit hApart]
  constructor
  · intro folded
    refine FirstFit.countP_le_length (fun key hKey other hOther hNe hFolded => ?_) hDistinct folded
    exact (spellingConflict_flat (hFlat key hKey) (hFlat other hOther)).mpr ⟨hFolded, hNe⟩
  · apply FirstFit.exists_length_le
    intro key hKey other hOther hConflict
    exact ((spellingConflict_flat (hFlat key hKey) (hFlat other hOther)).mp hConflict).1

theorem splitPullSet_perm (localFold : Text → Text) {filesToPull : List Text} (hDistinct : filesToPull.Nodup) :
    ((splitPullSet filesToPull (caseInsensitiveCollisions localFold filesToPull)).1 ++
      (splitPullSet filesToPull (caseInsensitiveCollisions localFold filesToPull)).2).Perm filesToPull := by
  have hCollisions : (caseInsensitiveCollisions localFold filesToPull).Perm
      (filesToPull.filter (caseInsensitiveCollisions localFold filesToPull).contains) := by
    refine (List.perm_ext_iff_of_nodup (List.nodup_dedup _) (hDistinct.filter _)).mpr fun key => ?_
    rw [List.mem_filter, List.contains_iff_mem]
    exact ⟨fun hKey => ⟨(mem_caseInsensitiveCollisions.mp hKey).1, hKey⟩, fun hKey => hKey.2⟩
  have hVariants := (List.perm_insertionSort (· ≤ ·) (caseInsensitiveCollisions localFold filesToPull)).trans hCollisions
  rw [splitPullSet]
  exact ((hVariants.append_left _).trans List.perm_append_comm).trans (List.filter_append_perm _ filesToPull)

theorem mem_variants (localFold : Text → Text) (filesToPull : List Text) (key : Text) :
    key ∈ (splitPullSet filesToPull (caseInsensitiveCollisions localFold filesToPull)).2 ↔
      key ∈ filesToPull ∧ 1 < filesToPull.countP fun other => localFold other = localFold key := by
  rw [← mem_caseInsensitiveCollisions, splitPullSet]
  exact List.mem_insertionSort _

theorem countP_variants {filesToPull bulk variants : List Text} (hPartition : (bulk ++ variants).Perm filesToPull)
    {folded : Text} (hBulk : ∀ key ∈ bulk, localFold key ≠ folded) :
    filesToPull.countP (fun other => localFold other = folded) = variants.countP (fun other => localFold other = folded) := by
  have hNone : bulk.countP (fun other => localFold other = folded) = 0 :=
    List.countP_eq_zero.mpr fun key hKey hFolded => hBulk key hKey (of_decide_eq_true hFolded)
  rw [← hPartition.countP_eq, List.countP_append, hNone, Nat.zero_add]

/-- The pull set of distinct keys is divided into keys that are names of their own on the volume and slots without a
conflict of spelling, and flat keys take as few slots as their largest class needs. -/
theorem splitPullSet_caseSplit {filesToPull : List Text} (hDistinct : filesToPull.Nodup)
    (hComponents : ∀ key ∈ filesToPull, ∀ component ∈ key.splitOn '/', component ≠ [])
    (hFold : ∀ s, (localFold s).count '/' = s.count '/') :
    CaseSplit localFold filesToPull
      (splitPullSet filesToPull (caseInsensitiveCollisions localFold filesToPull)).1
      (splitPullSet filesToPull (caseInsensitiveCollisions localFold filesToPull)).2
      (assignCaseVariantSlots localFold (splitPullSet filesToPull (caseInsensitiveCollisions localFold filesToPull)).2) := by
  have hPartition := splitPullSet_perm localFold hDistinct
  have hMem := mem_variants localFold filesToPull
  generalize splitPullSet filesToPull (caseInsensitiveCollisions localFold filesToPull) = split at hPartition hMem ⊢
  obtain ⟨bulk, variants⟩ := split
  dsimp only at hPartition hMem ⊢
  have hBoth := hPartition.nodup_iff.mpr hDistinct
  have hNodup : variants.Nodup := (List.nodup_append'.mp hBoth).2.1
  have hOut : ∀ key ∈ bulk, key ∉ variants := fun key hKey hVariant => (List.nodup_append'.mp hBoth).2.2 hKey hVariant
  have hFiles : ∀ key ∈ bulk, key ∈ filesToPull := fun key hKey =>
    hPartition.mem_iff.mp (List.mem_append_left variants hKey)
  have hSlots := assignCaseVariantSlots_perm localFold variants
  have hApart : ∀ key ∈ variants, FoldsApart localFold key := fun key hKey =>
    foldsApart_of_components hFold (hComponents key ((hMem key).mp hKey).1)
  refine ⟨hPartition, ?_, ⟨hSlots.nodup_iff.mpr hNodup, fun key => hSlots.mem_iff⟩, ?_, ?_⟩
  · intro key hKey other hOther hFolded
    by_contra hNe
    have hCollides := mem_collisions_of_ne (hFiles key hKey) (hFiles other hOther) hNe hFolded
    exact hOut key hKey ((hMem key).mpr (mem_caseInsensitiveCollisions.mp hCollides))
  · intro slot hSlot key hKey other hOther path hPath otherPath hOtherPath hFolded
    by_contra hNe
    exact slot_apart hApart hSlot hKey hOther ⟨path, hPath, otherPath, hOtherPath, hFolded, hNe⟩
  · intro hFlat hVariants
    obtain ⟨hUpper, hSome⟩ := length_slots_flat localFold hNodup fun key hKey =>
      hFlat key ((hMem key).mp hKey).1
    obtain ⟨key, hKey, hLength⟩ := hSome hVariants
    have hClass (member : Text) (hMember : member ∈ variants) :
        filesToPull.countP (fun other => localFold other = localFold member) =
          variants.countP fun other => localFold other = localFold member := by
      apply countP_variants hPartition
      intro other hOther hFolded
      have hNe : other ≠ member := fun hEq => hOut other hOther (hEq ▸ hMember)
      have hCollides := mem_collisions_of_ne (hFiles other hOther) ((hMem member).mp hMember).1 hNe hFolded
      exact hOut other hOther ((hMem other).mpr (mem_caseInsensitiveCollisions.mp hCollides))
    constructor
    · refine ⟨key, ((hMem key).mp hKey).1, ?_⟩
      rw [hClass key hKey]
      exact Nat.le_antisymm hLength (hUpper _)
    · rintro size ⟨other, hOther, rfl⟩
      obtain hVariant | hAlone := Classical.em (other ∈ variants)
      · rw [hClass other hVariant]
        exact hUpper _
      · rw [hMem, not_and, Nat.not_lt] at hAlone
        have hTwo := ((hMem key).mp hKey).2
        rw [hClass key hKey] at hTwo
        exact (hAlone hOther).trans (hTwo.le.trans (hUpper _))

end Slots

/-- A volume that knows only one letter without its case. -/
def foldLetterA (key : Text) : Text := key.map fun c => if c = 'A' then 'a' else c

theorem count_foldLetterA (key : Text) : (foldLetterA key).count '/' = key.count '/' := by
  induction key with
  | nil => rfl
  | cons c key ih =>
    have hChar : ((if c = 'A' then 'a' else c) == '/') = (c == '/') := by
      split
      · rename_i hLetter
        rw [hLetter]
        rfl
      · rfl
    rw [foldLetterA, List.map_cons, List.count_cons, hChar, List.count_cons]
    exact congrArg (· + _) ih

theorem two_spellings_caseSplit : CaseSplit foldLetterA ["a".toList, "A".toList, "b".toList]
    (splitPullSet ["a".toList, "A".toList, "b".toList]
      (caseInsensitiveCollisions foldLetterA ["a".toList, "A".toList, "b".toList])).1
    (splitPullSet ["a".toList, "A".toList, "b".toList]
      (caseInsensitiveCollisions foldLetterA ["a".toList, "A".toList, "b".toList])).2
    (assignCaseVariantSlots foldLetterA (splitPullSet ["a".toList, "A".toList, "b".toList]
      (caseInsensitiveCollisions foldLetterA ["a".toList, "A".toList, "b".toList])).2) :=
  splitPullSet_caseSplit (by decide) (by decide) count_foldLetterA

end Pigeon.Transform
