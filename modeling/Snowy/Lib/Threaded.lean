import Mathlib.Data.List.Chain
import Mathlib.Data.List.Nodup
import Mathlib.Logic.Function.Basic

/-!
# Queues threaded through a successor function

A queue of distinct elements can be kept in an array of successors: appending `x` to the queue
stores `x` as the successor of the last element that was appended, the *tail*, and makes `x` the new
tail. What is taken off the front of the queue keeps its links, so that a segment of the queue can
still be traversed after it was taken off. The links go stale only when an element is appended
again.

The links of a list are right when each element is linked to the next one. They stay right when
another element is appended as long as the tail, whose link is overwritten, is at most the last
element of the list.

## Main definitions

* `Threaded next tail l` : the links of `l` are right, and the tail is not before its end.

## Main results

* `Threaded.append_other` : appending an element to the queue keeps the links of other lists.
* `Threaded.append` : appending an element to the queue itself.
* `Threaded.take`, `Threaded.drop` : segments.
-/

variable {ι : Type*} {next : ι → ι} {tail x y : ι} {l : List ι}

/-- Each element of `l` is linked to the one after it, and only the last can be the tail. -/
def Threaded (next : ι → ι) (tail : ι) (l : List ι) : Prop :=
  l.IsChain (fun x y => next x = y) ∧ tail ∉ l.dropLast

namespace Threaded

open Function List

/-- The link of an element that is not the last. -/
theorem next_eq (h : Threaded next tail l) {i : ℕ} (hx : l[i]? = some x) (hy : l[i + 1]? = some y) :
    next x = y := by
  obtain ⟨hi, rfl⟩ := List.getElem?_eq_some_iff.mp hy
  have hx' : l[i] = x := by
    rw [List.getElem?_eq_getElem (Nat.lt_of_succ_lt hi)] at hx
    exact Option.some.inj hx
  rw [← hx']
  exact isChain_iff_getElem.mp h.1 i hi

theorem drop (h : Threaded next tail l) (n : ℕ) : Threaded next tail (l.drop n) := by
  refine ⟨h.1.drop n, fun hmem => h.2 ?_⟩
  have heq : (l.drop n).dropLast = l.dropLast.drop n := by
    rw [dropLast_eq_take, dropLast_eq_take, length_drop, drop_take]
    congr 1
    omega
  rw [heq] at hmem
  exact mem_of_mem_drop hmem

theorem take (h : Threaded next tail l) (n : ℕ) : Threaded next tail (l.take n) := by
  refine ⟨h.1.take n, fun hmem => h.2 ?_⟩
  rw [dropLast_eq_take, take_take] at hmem
  rw [dropLast_eq_take]
  refine take_subset_take_left l ?_ hmem
  rw [length_take]
  omega

variable [DecidableEq ι]

/-- The link of the tail is not one of the links of the list. -/
theorem isChain_update (h : Threaded next tail l) :
    l.IsChain (fun a b => Function.update next tail x a = b) := by
  rw [isChain_iff_getElem]
  intro i hi
  have hne : l[i] ≠ tail := by
    intro heq
    refine h.2 (heq ▸ ?_)
    rw [dropLast_eq_take]
    exact mem_take_iff_getElem.mpr ⟨i, by omega, rfl⟩
  rw [update_of_ne hne]
  exact isChain_iff_getElem.mp h.1 i hi

/-- Another element is appended to the queue. -/
theorem append_other (h : Threaded next tail l) (hx : x ∉ l) :
    Threaded (Function.update next tail x) x l :=
  ⟨h.isChain_update, fun hmem => hx (l.dropLast_sublist.subset hmem)⟩

/-- An element is appended to the list that has the tail as its last element. -/
theorem append (h : Threaded next tail l) (hlast : ∀ z ∈ l.getLast?, z = tail) (hx : x ∉ l) :
    Threaded (Function.update next tail x) x (l ++ [x]) := by
  refine ⟨isChain_append.mpr ⟨h.isChain_update, .singleton x, ?_⟩, ?_⟩
  · rintro z hz y hy
    rw [hlast z hz, update_self]
    exact Option.some.inj hy
  · rw [dropLast_concat]
    exact hx

end Threaded
