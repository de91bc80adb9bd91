import Mathlib

/-! # Work that is cut up, dealt out in turn and shared by a pool

A list is cut into chunks, and lists are interleaved round robin into one queue. A pool of workers takes items from the queue and
puts them back, and what queue and pool hold together is a sum that one step changes at one place.
-/
namespace Pigeon.Library

set_option autoImplicit false

section Chunks

variable {α : Type*}

def chunksFrom (size : Nat) : Nat → List α → List (List α)
  | 0, _ => []
  | _ + 1, [] => []
  | fuel + 1, item :: items => (item :: items).take size :: chunksFrom size fuel ((item :: items).drop size)

/-- Pieces of the given size, the last of which can be shorter. -/
def chunks (size : Nat) (items : List α) : List (List α) := chunksFrom size items.length items

theorem flatten_chunksFrom {size fuel : Nat} (hSize : 0 < size) {items : List α} (hFuel : items.length ≤ fuel) :
    (chunksFrom size fuel items).flatten = items := by
  induction fuel generalizing items with
  | zero => rw [List.length_eq_zero_iff.mp (Nat.le_zero.mp hFuel), chunksFrom, List.flatten_nil]
  | succ fuel ih =>
    cases items with
    | nil => rfl
    | cons item items =>
      have hRest : ((item :: items).drop size).length ≤ fuel := by
        rw [List.length_drop]
        rw [List.length_cons] at hFuel ⊢
        omega
      rw [chunksFrom, List.flatten_cons, ih hRest, List.take_append_drop]

theorem flatten_chunks {size : Nat} (hSize : 0 < size) (items : List α) : (chunks size items).flatten = items :=
  flatten_chunksFrom hSize le_rfl

theorem ne_nil_of_mem_chunksFrom {size fuel : Nat} (hSize : 0 < size) {items chunk : List α}
    (h : chunk ∈ chunksFrom size fuel items) : chunk ≠ [] := by
  induction fuel generalizing items with
  | zero => cases h
  | succ fuel ih =>
    cases items with
    | nil => cases h
    | cons item items =>
      obtain rfl | hRest := List.mem_cons.mp h
      · rw [Ne, List.take_eq_nil_iff]
        rintro (hZero | hNil)
        · omega
        · cases hNil
      · exact ih hRest

theorem ne_nil_of_mem_chunks {size : Nat} (hSize : 0 < size) {items chunk : List α} (h : chunk ∈ chunks size items) :
    chunk ≠ [] := ne_nil_of_mem_chunksFrom hSize h

end Chunks

section RoundRobin

variable {α : Type*}

/-- One pass: the first element of every list that has one, with the index of its list. -/
def fronts (lists : List (List α)) : List (Nat × α) :=
  lists.zipIdx.flatMap fun entry => entry.1.head?.toList.map (Prod.mk entry.2)

def roundRobin : Nat → List (List α) → List (Nat × α)
  | 0, _ => []
  | fuel + 1, lists =>
    match fronts lists with
    | [] => []
    | front :: rest => front :: rest ++ roundRobin fuel (lists.map List.tail)

def indexed (lists : List (List α)) : List (Nat × α) :=
  lists.zipIdx.flatMap fun entry => entry.1.map (Prod.mk entry.2)

theorem fronts_append_perm (lists : List (List α)) :
    (fronts lists ++ indexed (lists.map List.tail)).Perm (indexed lists) := by
  have hTails : indexed (lists.map List.tail) =
      lists.zipIdx.flatMap fun entry => entry.1.tail.map (Prod.mk entry.2) := by
    rw [indexed, List.zipIdx_map, List.flatMap_map]
    rfl
  rw [hTails]
  refine (List.flatMap_append_perm _ _ _).trans (List.Perm.of_eq ?_)
  rw [indexed]
  congr 1
  funext entry
  cases entry with
  | mk list index => cases list <;> rfl

theorem indexed_eq_nil {lists : List (List α)} (h : ∀ list ∈ lists, list = []) : indexed lists = [] := by
  rw [indexed, List.flatMap_eq_nil_iff]
  rintro ⟨list, index⟩ hEntry
  rw [h list (List.fst_mem_of_mem_zipIdx hEntry), List.map_nil]

theorem eq_nil_of_fronts {lists : List (List α)} (h : fronts lists = []) : ∀ list ∈ lists, list = [] := by
  intro list hList
  obtain ⟨index, hIndex⟩ := List.mem_iff_getElem?.mp hList
  have hEntry : (list, index) ∈ lists.zipIdx := List.mem_zipIdx_iff_getElem?.mpr hIndex
  rw [fronts, List.flatMap_eq_nil_iff] at h
  have hFront := h _ hEntry
  cases list with
  | nil => rfl
  | cons item rest => cases hFront

theorem roundRobin_perm {fuel : Nat} {lists : List (List α)} (hFuel : ∀ list ∈ lists, list.length ≤ fuel) :
    (roundRobin fuel lists).Perm (indexed lists) := by
  induction fuel generalizing lists with
  | zero =>
    rw [roundRobin, indexed_eq_nil fun list hList => List.length_eq_zero_iff.mp (Nat.le_zero.mp (hFuel list hList))]
  | succ fuel ih =>
    rw [roundRobin]
    cases hFronts : fronts lists with
    | nil => rw [indexed_eq_nil (eq_nil_of_fronts hFronts)]
    | cons front rest =>
      have hTails : ∀ list ∈ lists.map List.tail, list.length ≤ fuel := by
        intro tail hTail
        obtain ⟨list, hList, rfl⟩ := List.mem_map.mp hTail
        have hLength := hFuel list hList
        rw [List.length_tail]
        omega
      have hPerm := (ih hTails).append_left (fronts lists)
      rw [hFronts] at hPerm
      exact hPerm.trans (hFronts ▸ fronts_append_perm lists)

end RoundRobin

section Pool

variable {α β ι M : Type*} [Fintype ι] [AddCommMonoid M] {queued : α → M} {held : β → M}

def weight (queued : α → M) (held : β → M) (queue : List α) (pool : ι → β) : M :=
  (queue.map queued).sum + ∑ i, held (pool i)

theorem sum_held_update [DecidableEq ι] (held : β → M) (pool : ι → β) (i : ι) (b : β) :
    ∑ j, held (Function.update pool i b j) + held (pool i) = ∑ j, held (pool j) + held b := by
  have hUpdate := fun j : ι => Function.apply_update (fun _ => held) pool i b j
  simp only [hUpdate]
  rw [Finset.sum_update_of_mem (Finset.mem_univ i), add_assoc, add_comm, Finset.sdiff_singleton_eq_erase,
    Finset.sum_erase_add _ _ (Finset.mem_univ i)]

theorem weight_update [DecidableEq ι] (queue : List α) (pool : ι → β) (i : ι) (b : β) :
    weight queued held queue (Function.update pool i b) + held (pool i) = weight queued held queue pool + held b := by
  rw [weight, weight, add_assoc, sum_held_update, add_assoc]

theorem weight_cons (item : α) (queue : List α) (pool : ι → β) :
    weight queued held (item :: queue) pool = weight queued held queue pool + queued item := by
  rw [weight, weight, List.map_cons, List.sum_cons, add_assoc, add_comm]

theorem weight_concat (item : α) (queue : List α) (pool : ι → β) :
    weight queued held (queue ++ [item]) pool = weight queued held queue pool + queued item := by
  rw [weight, weight, List.map_append, List.sum_append, List.map_singleton, List.sum_singleton, add_right_comm]

theorem weight_of_empty (queue : List α) {pool : ι → β} (h : ∀ i, held (pool i) = 0) :
    weight queued held queue pool = (queue.map queued).sum := by
  rw [weight, Finset.sum_eq_zero fun i _ => h i, add_zero]

end Pool

end Pigeon.Library
