import Mathlib

/-! # First fit

Each item joins the first slot none of whose members it is in conflict with, and opens a slot of its own where there is
none. Where the conflicts are those of a partition into classes, no assignment needs fewer slots.
-/
namespace Pigeon.Library.FirstFit

set_option autoImplicit false

variable {α γ : Type*} (conflict : α → α → Prop)

open Classical in
noncomputable def place (item : α) : List (List α) → List (List α)
  | [] => [[item]]
  | slot :: slots =>
    if ∀ member ∈ slot, ¬ conflict member item then (slot ++ [item]) :: slots else slot :: place item slots

noncomputable def assign (items : List α) : List (List α) := items.foldl (fun slots item => place conflict item slots) []

theorem assign_concat (items : List α) (item : α) :
    assign conflict (items ++ [item]) = place conflict item (assign conflict items) := List.foldl_concat ..

theorem place_perm (item : α) (slots : List (List α)) : (place conflict item slots).flatten.Perm (item :: slots.flatten) := by
  induction slots with
  | nil => exact .refl [item]
  | cons slot slots ih =>
    rw [place]
    split
    · rw [List.flatten_cons, List.flatten_cons, List.append_assoc]
      exact List.perm_middle
    · rw [List.flatten_cons, List.flatten_cons]
      exact (ih.append_left slot).trans List.perm_middle

theorem assign_perm (items : List α) : (assign conflict items).flatten.Perm items := by
  induction items using List.reverseRecOn with
  | nil => exact .refl []
  | append_singleton items item ih =>
    rw [assign_concat]
    exact ((place_perm conflict item _).trans (ih.cons item)).trans (List.perm_append_singleton item items).symm

/-- A slot is opened only for an item that is in conflict with a member of each slot there is. -/
theorem length_place (item : α) (slots : List (List α)) :
    (place conflict item slots).length = slots.length ∨
      (place conflict item slots).length = slots.length + 1 ∧ ∀ slot ∈ slots, ∃ member ∈ slot, conflict member item := by
  induction slots with
  | nil => exact .inr ⟨rfl, fun slot hSlot => absurd hSlot List.not_mem_nil⟩
  | cons slot slots ih =>
    rw [place]
    split
    · exact .inl rfl
    · rename_i hFull
      rw [List.length_cons, List.length_cons]
      obtain hSame | ⟨hMore, hAll⟩ := ih
      · exact .inl (congrArg (· + 1) hSame)
      · refine .inr ⟨congrArg (· + 1) hMore, List.forall_mem_cons.mpr ⟨?_, hAll⟩⟩
        push Not at hFull
        exact hFull

/-- Members of a slot were put there without a conflict. -/
def Apart (slots : List (List α)) : Prop := ∀ slot ∈ slots, slot.Pairwise fun member item => ¬ conflict member item

variable {conflict}

theorem Apart.place {slots : List (List α)} (h : Apart conflict slots) (item : α) :
    Apart conflict (place conflict item slots) := by
  induction slots with
  | nil =>
    intro slot hSlot
    rw [List.mem_singleton.mp hSlot]
    exact List.pairwise_singleton _ item
  | cons first slots ih =>
    obtain ⟨hFirst, hRest⟩ := List.forall_mem_cons.mp h
    rw [FirstFit.place]
    split
    · rename_i hFits
      refine List.forall_mem_cons.mpr ⟨?_, hRest⟩
      refine List.pairwise_append.mpr ⟨hFirst, List.pairwise_singleton _ item, ?_⟩
      intro member hMember other hOther
      rw [List.mem_singleton.mp hOther]
      exact hFits member hMember
    · exact List.forall_mem_cons.mpr ⟨hFirst, ih hRest⟩

theorem assign_apart (items : List α) : Apart conflict (assign conflict items) := by
  induction items using List.reverseRecOn with
  | nil => exact fun slot hSlot => absurd hSlot List.not_mem_nil
  | append_singleton items item ih =>
    rw [assign_concat]
    exact ih.place item

section Classes

variable [DecidableEq γ] {kind : α → γ}

theorem countP_flatten_le {slots : List (List α)} {p : α → Bool} (h : ∀ slot ∈ slots, slot.countP p ≤ 1) :
    slots.flatten.countP p ≤ slots.length := by
  rw [List.countP_flatten]
  refine (List.sum_le_card_nsmul _ 1 ?_).trans (by simp)
  intro count hCount
  obtain ⟨slot, hSlot, rfl⟩ := List.mem_map.mp hCount
  exact h slot hSlot

theorem length_le_countP_flatten {slots : List (List α)} {p : α → Bool} (h : ∀ slot ∈ slots, ∃ item ∈ slot, p item) :
    slots.length ≤ slots.flatten.countP p := by
  rw [List.countP_flatten]
  refine le_trans (by simp) (List.card_nsmul_le_sum _ 1 ?_)
  intro count hCount
  obtain ⟨slot, hSlot, rfl⟩ := List.mem_map.mp hCount
  exact List.countP_pos_iff.mpr (h slot hSlot)

theorem countP_le_one {slot : List α} (h : slot.Pairwise fun a b => kind a ≠ kind b) (c : γ) :
    slot.countP (fun item => kind item = c) ≤ 1 := by
  rw [List.countP_eq_length_filter]
  have hKept := h.filter (p := fun item => kind item = c)
  have hKind : ∀ item ∈ slot.filter fun item => kind item = c, kind item = c :=
    fun item hItem => of_decide_eq_true (List.mem_filter.mp hItem).2
  cases hFilter : slot.filter fun item => kind item = c with
  | nil => exact Nat.zero_le 1
  | cons first rest =>
    rw [hFilter] at hKept hKind
    cases rest with
    | nil => exact Nat.le_refl 1
    | cons second rest =>
      have hNe := (List.pairwise_cons.mp hKept).1 second List.mem_cons_self
      have hFirst := hKind first List.mem_cons_self
      have hSecond := hKind second (List.mem_cons_of_mem first List.mem_cons_self)
      exact absurd (hFirst.trans hSecond.symm) hNe

/-- No class has more members than there are slots, since a slot takes one of each. -/
theorem countP_le_length {items : List α}
    (hConflict : ∀ a ∈ items, ∀ b ∈ items, a ≠ b → kind a = kind b → conflict a b) (hDistinct : items.Nodup) (c : γ) : items.countP (fun item => kind item = c) ≤ (assign conflict items).length := by
  have hPerm := assign_perm conflict items
  rw [← hPerm.countP_eq]
  refine countP_flatten_le fun slot hSlot => countP_le_one ?_ c
  have hNodup : slot.Nodup := List.nodup_flatten.mp (hPerm.nodup_iff.mpr hDistinct) |>.1 slot hSlot
  have hItems : ∀ member ∈ slot, member ∈ items := fun member hMember =>
    hPerm.mem_iff.mp (List.mem_flatten_of_mem hSlot hMember)
  refine ((assign_apart items slot hSlot).and hNodup).imp_of_mem ?_
  rintro member item hMember hItem ⟨hApart, hNe⟩ hKind
  exact hApart (hConflict member (hItems member hMember) item (hItems item hItem) hNe hKind)

/-- Some class has a member for every slot. -/
theorem exists_length_le {items : List α} (hConflict : ∀ a ∈ items, ∀ b ∈ items, conflict a b → kind a = kind b)
    (hItems : items ≠ []) :
    ∃ item ∈ items, (assign conflict items).length ≤ items.countP (fun other => kind other = kind item) := by
  induction items using List.reverseRecOn with
  | nil => exact absurd rfl hItems
  | append_singleton items last ih =>
    rw [assign_concat]
    have hLast : last ∈ items ++ [last] := List.mem_append_right items List.mem_cons_self
    obtain hSame | ⟨hMore, hAll⟩ := length_place conflict last (assign conflict items)
    · rw [hSame]
      cases items with
      | nil => exact ⟨last, hLast, Nat.zero_le _⟩
      | cons first items =>
        obtain ⟨item, hItem, hLength⟩ := ih
          (fun a ha b hb => hConflict a (List.mem_append_left _ ha) b (List.mem_append_left _ hb))
          (List.cons_ne_nil first items)
        refine ⟨item, List.mem_append_left _ hItem, hLength.trans ?_⟩
        rw [List.countP_append]
        exact Nat.le_add_right _ _
    · refine ⟨last, hLast, ?_⟩
      have hMembers : ∀ slot ∈ assign conflict items, ∃ member ∈ slot, decide (kind member = kind last) = true := by
        intro slot hSlot
        obtain ⟨member, hMember, hIs⟩ := hAll slot hSlot
        have hItem := (assign_perm conflict items).mem_iff.mp (List.mem_flatten_of_mem hSlot hMember)
        exact ⟨member, hMember, decide_eq_true (hConflict member (List.mem_append_left _ hItem) last hLast hIs)⟩
      have hCount := length_le_countP_flatten hMembers
      rw [(assign_perm conflict items).countP_eq] at hCount
      rw [hMore, List.countP_append, List.countP_singleton, if_pos (decide_eq_true rfl)]
      exact Nat.succ_le_succ hCount

end Classes

end Pigeon.Library.FirstFit
