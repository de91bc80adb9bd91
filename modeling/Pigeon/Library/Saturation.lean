import Mathlib

/-! # Sweeping a list of edges until nothing is new

A sweep goes through the edges once and takes in the target of every edge whose source it has by then, also a source that the same
sweep took in. The sweeps are repeated until one of them leaves the set as it is.
-/
namespace Pigeon.Library

set_option autoImplicit false

variable {α : Type*} [DecidableEq α]

def absorb (known : Finset α) (edge : α × α) : Finset α :=
  if edge.2 ∉ known ∧ edge.1 ∈ known then insert edge.2 known else known

def sweep (edges : List (α × α)) (known : Finset α) : Finset α := edges.foldl absorb known

/-- The sweeps until one adds nothing, with their number; `none` when the fuel runs out before. -/
def saturate (edges : List (α × α)) : Nat → Finset α → Option (Finset α × Nat)
  | 0, _ => none
  | fuel + 1, known =>
    if (sweep edges known).card = known.card then some (sweep edges known, 1)
    else (saturate edges fuel (sweep edges known)).map fun result => (result.1, result.2 + 1)

/-- What can be reached from the set along the edges. -/
def Reaches (edges : List (α × α)) (known : Finset α) (x : α) : Prop :=
  ∃ start ∈ known, Relation.ReflTransGen (fun source target => (source, target) ∈ edges) start x

def targets (edges : List (α × α)) : Finset α := (edges.map Prod.snd).toFinset

variable {edges : List (α × α)} {known : Finset α} {edge : α × α}

theorem mem_absorb {x : α} : x ∈ absorb known edge ↔ x ∈ known ∨ x = edge.2 ∧ edge.1 ∈ known := by
  rw [absorb]
  split
  · rename_i hNew
    rw [Finset.mem_insert, or_comm]
    exact or_congr_right (iff_self_and.mpr fun _ => hNew.2)
  · rename_i hOld
    refine ⟨.inl, ?_⟩
    rintro (hKnown | ⟨rfl, hSource⟩)
    · exact hKnown
    · by_contra hMissing
      exact hOld ⟨hMissing, hSource⟩

theorem subset_absorb (known : Finset α) (edge : α × α) : known ⊆ absorb known edge := fun _ hx => mem_absorb.mpr (.inl hx)

theorem subset_sweep (edges : List (α × α)) (known : Finset α) : known ⊆ sweep edges known := by
  induction edges generalizing known with
  | nil => exact Finset.Subset.refl _
  | cons edge edges ih => exact (subset_absorb known edge).trans (ih _)

/-- The edge finds its source in the set and leaves its target in it. -/
theorem target_mem_sweep {edges : List (α × α)} {known : Finset α} {edge : α × α} (hEdge : edge ∈ edges) (hSource : edge.1 ∈ known) :
    edge.2 ∈ sweep edges known := by
  induction edges generalizing known with
  | nil => cases hEdge
  | cons first edges ih =>
    obtain rfl | hRest := List.mem_cons.mp hEdge
    · exact subset_sweep edges _ (mem_absorb.mpr (.inr ⟨rfl, hSource⟩))
    · exact ih hRest (subset_absorb known first hSource)

theorem sweep_subset_union_targets (edges : List (α × α)) (known : Finset α) : sweep edges known ⊆ known ∪ targets edges := by
  induction edges generalizing known with
  | nil =>
    intro x hx
    exact Finset.mem_union_left _ hx
  | cons edge edges ih =>
    intro x hx
    obtain hAbsorbed | hTarget := Finset.mem_union.mp (ih (absorb known edge) hx)
    · obtain hKnown | ⟨rfl, -⟩ := mem_absorb.mp hAbsorbed
      · exact Finset.mem_union_left _ hKnown
      · exact Finset.mem_union_right _ (List.mem_toFinset.mpr List.mem_cons_self)
    · refine Finset.mem_union_right _ (List.mem_toFinset.mpr ?_)
      exact List.mem_cons_of_mem _ (List.mem_toFinset.mp hTarget)

theorem reaches_of_mem_sweep {all : List (α × α)} (hAll : edges ⊆ all) {start : Finset α} (hKnown : ∀ x ∈ known, Reaches all start x) :
    ∀ x ∈ sweep edges known, Reaches all start x := by
  induction edges generalizing known with
  | nil => exact hKnown
  | cons edge edges ih =>
    apply ih (fun _ hEdge => hAll (List.mem_cons_of_mem _ hEdge))
    intro x hx
    obtain hOld | ⟨rfl, hSource⟩ := mem_absorb.mp hx
    · exact hKnown x hOld
    · obtain ⟨origin, hOrigin, hPath⟩ := hKnown _ hSource
      exact ⟨origin, hOrigin, hPath.tail (hAll List.mem_cons_self)⟩

theorem sweep_eq_of_card (h : (sweep edges known).card = known.card) : sweep edges known = known :=
  (Finset.eq_of_subset_of_card_le (subset_sweep edges known) h.le).symm

theorem mem_of_reaches_of_sweep_eq (h : sweep edges known = known) {x : α} (hx : Reaches edges known x) : x ∈ known := by
  obtain ⟨start, hStart, hPath⟩ := hx
  induction hPath with
  | refl => exact hStart
  | tail _ hEdge ih =>
    rw [← h]
    exact target_mem_sweep hEdge ih

/-- Every sweep but the last takes in one of the targets that were missing. -/
theorem card_sweep_missing (h : (sweep edges known).card ≠ known.card) :
    (targets edges \ sweep edges known).card < (targets edges \ known).card := by
  apply Finset.card_lt_card
  have hGrows : known ⊂ sweep edges known :=
    Finset.ssubset_iff_subset_ne.mpr ⟨subset_sweep edges known, fun hSame => h (congrArg Finset.card hSame.symm)⟩
  obtain ⟨x, hx, hNew⟩ := Finset.exists_of_ssubset hGrows
  have hTarget : x ∈ targets edges := (Finset.mem_union.mp (sweep_subset_union_targets edges known hx)).resolve_left hNew
  refine Finset.ssubset_iff_subset_ne.mpr ⟨Finset.sdiff_subset_sdiff (Finset.Subset.refl _) hGrows.subset, fun hSame => ?_⟩
  have hMissing : x ∈ targets edges \ known := Finset.mem_sdiff.mpr ⟨hTarget, hNew⟩
  rw [← hSame] at hMissing
  exact (Finset.mem_sdiff.mp hMissing).2 hx

/-- With fuel for the missing targets the sweeps end, and what they leave is what can be reached. -/
theorem saturate_spec {fuel : Nat} (hFuel : (targets edges \ known).card < fuel) :
    ∃ result, saturate edges fuel known = some result ∧ result.2 ≤ (targets edges \ known).card + 1 ∧
      ∀ x, x ∈ result.1 ↔ Reaches edges known x := by
  induction fuel generalizing known with
  | zero => omega
  | succ fuel ih =>
    rw [saturate]
    by_cases hCard : (sweep edges known).card = known.card
    · rw [if_pos hCard]
      have hFixed := sweep_eq_of_card hCard
      refine ⟨_, rfl, by omega, fun x => ?_⟩
      rw [hFixed]
      exact ⟨fun hx => ⟨x, hx, .refl⟩, mem_of_reaches_of_sweep_eq hFixed⟩
    · rw [if_neg hCard]
      have hFewer := card_sweep_missing hCard
      have hLeft : (targets edges \ sweep edges known).card < fuel := by omega
      obtain ⟨result, hResult, hRounds, hMem⟩ := ih hLeft
      refine ⟨(result.1, result.2 + 1), by rw [hResult, Option.map_some], by omega, fun x => ?_⟩
      rw [hMem]
      constructor
      · rintro ⟨start, hStart, hPath⟩
        have hBefore : Reaches edges known start :=
          reaches_of_mem_sweep (List.Subset.refl _) (fun y hy => ⟨y, hy, .refl⟩) start hStart
        obtain ⟨origin, hOrigin, hFirst⟩ := hBefore
        exact ⟨origin, hOrigin, hFirst.trans hPath⟩
      · rintro ⟨start, hStart, hPath⟩
        exact ⟨start, subset_sweep edges known hStart, hPath⟩

theorem card_targets_sdiff_le (edges : List (α × α)) (known : Finset α) : (targets edges \ known).card ≤ edges.length := by
  refine (Finset.card_le_card Finset.sdiff_subset).trans ?_
  refine (List.toFinset_card_le _).trans (List.length_map _).le

end Pigeon.Library
