import Mathlib.Data.List.Sort
import Mathlib.Order.Defs.LinearOrder

/-!
# Heaps on ranges

The standard heap algorithms rearrange a range of elements compared by a key. Which heap they
leave is not specified, so an implementation is a value of `HeapRange`: three rearrangements with
the guarantees that the standard gives for them. A development quantifies over it.

## Main definitions

* `IsHeap` : every element of the range has a key at least that of its parent.
* `HeapRange` : `push_heap`, `pop_heap` and `make_heap` with their guarantees.
* `HeapRange.sorting` : the implementation that keeps the range sorted.
-/

variable {ι κ : Type*} [LinearOrder κ]

/-- The list is a heap for `key`, smallest key first: no element is below its parent. -/
def IsHeap (key : ι → κ) (l : List ι) : Prop :=
  ∀ (i : ℕ) (hi : i < l.length), key (l[(i - 1) / 2]) ≤ key l[i]

namespace IsHeap

open List

variable {key : ι → κ} {l : List ι}

theorem nil : IsHeap key [] := fun i hi => absurd hi (Nat.not_lt_zero i)

/-- The front of a heap has the smallest key. -/
theorem front_le {a : ι} (h : IsHeap key (a :: l)) {x : ι} (hx : x ∈ a :: l) : key a ≤ key x := by
  obtain ⟨i, hi, rfl⟩ := getElem_of_mem hx
  induction i using Nat.strong_induction_on with
  | _ i ih =>
    rcases Nat.eq_zero_or_pos i with rfl | hpos
    · exact le_rfl
    · have hlt : (i - 1) / 2 < i := by omega
      exact (ih _ hlt (hlt.trans hi) (getElem_mem _)).trans (h i hi)

theorem congr {key' : ι → κ} (h : IsHeap key l) (hkey : ∀ x ∈ l, key' x = key x) :
    IsHeap key' l := by
  intro i hi
  rw [hkey _ (getElem_mem _), hkey _ (getElem_mem _)]
  exact h i hi

theorem of_pairwise (h : l.Pairwise fun a b => key a ≤ key b) : IsHeap key l := by
  intro i hi
  rcases Nat.eq_zero_or_pos i with rfl | hpos
  · exact le_rfl
  · exact pairwise_iff_getElem.mp h _ _ (by omega) hi (by omega)

end IsHeap

/-- An implementation of the heap algorithms on ranges. `push` sees the new element at the end of
the range; `pop` moves the front to the end and leaves a heap before it. -/
structure HeapRange (ι κ : Type*) [LinearOrder κ] where
  push : (ι → κ) → List ι → List ι
  pop : (ι → κ) → List ι → List ι
  make : (ι → κ) → List ι → List ι
  push_perm : ∀ key l, (push key l).Perm l
  push_isHeap : ∀ key l a, IsHeap key l → IsHeap key (push key (l ++ [a]))
  pop_perm : ∀ key l, (pop key l).Perm l
  pop_spec : ∀ key a l, IsHeap key (a :: l) →
    ∃ rest, pop key (a :: l) = rest ++ [a] ∧ rest.Perm l ∧ IsHeap key rest
  make_perm : ∀ key l, (make key l).Perm l
  make_isHeap : ∀ key l, IsHeap key (make key l)

namespace HeapRange

open List

/-- `pop_heap` followed by `pop_back` brings no new element. -/
theorem mem_of_mem_pop_dropLast (H : HeapRange ι κ) {key : ι → κ} {l : List ι} {x : ι}
    (h : x ∈ (H.pop key l).dropLast) : x ∈ l :=
  (H.pop_perm key l).mem_iff.mp ((dropLast_sublist _).subset h)

theorem mem_make (H : HeapRange ι κ) {key : ι → κ} {l : List ι} {x : ι} :
    x ∈ H.make key l ↔ x ∈ l :=
  (H.make_perm key l).mem_iff

/-- What `pop_heap` followed by `pop_back` leaves is a heap of the other elements. -/
theorem pop_dropLast (H : HeapRange ι κ) {key : ι → κ} {a : ι} {l : List ι}
    (h : IsHeap key (a :: l)) :
    (H.pop key (a :: l)).dropLast.Perm l ∧ IsHeap key (H.pop key (a :: l)).dropLast := by
  obtain ⟨rest, hpop, hperm, hheap⟩ := H.pop_spec key a l h
  rw [hpop, dropLast_concat]
  exact ⟨hperm, hheap⟩

/-- The order by key. -/
private abbrev byKey (key : ι → κ) (a b : ι) : Prop := key a ≤ key b

private theorem sort_pairwise (key : ι → κ) (l : List ι) :
    (l.insertionSort (byKey key)).Pairwise (byKey key) := by
  have : Std.Total (byKey key) := ⟨fun a b => le_total (key a) (key b)⟩
  have : IsTrans ι (byKey key) := ⟨fun _ _ _ => le_trans⟩
  exact pairwise_insertionSort _ l

/-- The implementation that sorts the range by key: a sorted range is a heap. -/
def sorting : HeapRange ι κ where
  push key l := l.insertionSort (byKey key)
  pop key l :=
    match l with
    | [] => []
    | a :: l => l.insertionSort (byKey key) ++ [a]
  make key l := l.insertionSort (byKey key)
  push_perm _ l := perm_insertionSort _ l
  push_isHeap key l a _ := .of_pairwise (sort_pairwise key (l ++ [a]))
  pop_perm key l := by
    cases l with
    | nil => exact .refl _
    | cons a l =>
      exact (perm_append_singleton a _).trans ((perm_insertionSort _ l).cons a)
  pop_spec key _ l _ :=
    ⟨_, rfl, perm_insertionSort _ l, .of_pairwise (sort_pairwise key l)⟩
  make_perm _ l := perm_insertionSort _ l
  make_isHeap key l := .of_pairwise (sort_pairwise key l)

end HeapRange
