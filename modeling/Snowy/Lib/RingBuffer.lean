import Mathlib.Data.List.Basic
import Mathlib.Data.Nat.ModEq

/-!
# Ring buffers

A vector of optional slots, the index of the first engaged slot and the number of engaged slots. The
operations are total: they reduce indices modulo the number of slots and write to whatever slot they
reach. `RingBuffer.Valid` says when this is right, and it is kept by the operations under the guards
of a bounded queue.

## Main definitions

* `RingBuffer` : the buffer, with `RingBuffer.push` and `RingBuffer.pop`.
* `RingBuffer.Valid` : the engaged slots are the `size` slots from `head` on.
* `RingBuffer.toList` : the contents, first in first out.

## Main results

* `RingBuffer.Valid.push`, `RingBuffer.Valid.pop` : the operations keep the buffer valid.
* `RingBuffer.toList_push`, `RingBuffer.Valid.toList_pop` : they refine a queue.
-/

variable {α : Type*}

/-- A buffer of optional slots. -/
structure RingBuffer (α : Type*) where
  slots : List (Option α)
  head : ℕ := 0
  size : ℕ := 0
  deriving DecidableEq, Repr

namespace RingBuffer

open List

variable {r : RingBuffer α} {v : α}

/-- An empty buffer. -/
def empty (capacity : ℕ) : RingBuffer α := { slots := List.replicate capacity none }

/-- The number of slots. -/
def capacity (r : RingBuffer α) : ℕ := r.slots.length

/-- The index of the slot at distance `i` from the first one. -/
def index (r : RingBuffer α) (i : ℕ) : ℕ := (r.head + i) % r.capacity

/-- The slot at distance `i` from the first one, empty when there is no slot at all. -/
def slot (r : RingBuffer α) (i : ℕ) : Option α := (r.slots[r.index i]?).join

/-- Engage the slot after the last one. -/
def push (r : RingBuffer α) (v : α) : RingBuffer α :=
  { r with slots := r.slots.set (r.index r.size) (some v), size := r.size + 1 }

/-- Disengage the first slot. -/
def pop (r : RingBuffer α) : RingBuffer α :=
  { slots := r.slots.set r.head none
    head := (r.head + 1) % r.capacity
    size := r.size - 1 }

/-- The engaged slots are exactly the `size` slots from `head` on. -/
structure Valid (r : RingBuffer α) : Prop where
  size_le : r.size ≤ r.capacity
  head_lt : 0 < r.capacity → r.head < r.capacity
  engaged : ∀ i < r.capacity, (r.slot i).isSome ↔ i < r.size

/-- The contents, first in first out. -/
def toList (r : RingBuffer α) : List α := (List.range r.size).filterMap r.slot

@[simp] theorem capacity_push : (r.push v).capacity = r.capacity := length_set ..

@[simp] theorem capacity_pop : r.pop.capacity = r.capacity := length_set ..

@[simp] theorem capacity_empty (n : ℕ) : (empty n : RingBuffer α).capacity = n :=
  length_replicate ..

theorem valid_empty (n : ℕ) : (empty n : RingBuffer α).Valid where
  size_le := Nat.zero_le _
  head_lt := id
  engaged i _ := by
    have hslot : (empty n : RingBuffer α).slot i = none := by
      simp only [slot, empty, List.getElem?_replicate]
      split <;> rfl
    rw [hslot]
    simp [empty]

theorem index_lt (h : 0 < r.capacity) (i : ℕ) : r.index i < r.capacity := Nat.mod_lt _ h

/-- Different distances below the capacity are different slots. -/
theorem index_inj {i j : ℕ} (hi : i < r.capacity) (hj : j < r.capacity)
    (h : r.index i = r.index j) : i = j := by
  have hmod : i ≡ j [MOD r.capacity] := Nat.ModEq.add_left_cancel' r.head h
  exact Nat.ModEq.eq_of_lt_of_lt hmod hi hj

theorem slot_push {i : ℕ} (hi : i < r.capacity) (hsize : r.size < r.capacity) :
    (r.push v).slot i = if i = r.size then some v else r.slot i := by
  have hindex : (r.push v).index i = r.index i := by simp [index, push, capacity]
  have hlt : r.index r.size < r.slots.length := r.index_lt (by omega) _
  simp only [slot, hindex]
  simp only [push, List.getElem?_set]
  by_cases h : i = r.size
  · simp [h, hlt]
  · have hne : r.index r.size ≠ r.index i := fun he => h (index_inj hsize hi he).symm
    simp [h, hne]

/-- The slots after a `pop` are one nearer; the last one is the slot that has been disengaged. -/
theorem slot_pop {i : ℕ} (hi : i + 1 < r.capacity) (hhead : r.head < r.capacity) :
    r.pop.slot i = r.slot (i + 1) := by
  have hindex : r.pop.index i = r.index (i + 1) := by
    simp only [index, capacity_pop]
    simp only [pop, Nat.mod_add_mod]
    congr 1
    omega
  have hne : r.head ≠ r.index (i + 1) := by
    intro h
    have h0 : r.index 0 = r.index (i + 1) := by
      rw [← h, index, Nat.add_zero, Nat.mod_eq_of_lt hhead]
    have := index_inj (by omega) hi h0
    omega
  simp only [slot, hindex]
  simp only [pop, List.getElem?_set, hne, if_false]

theorem slot_pop_last (hhead : r.head < r.capacity) : r.pop.slot (r.capacity - 1) = none := by
  have hindex : r.pop.index (r.capacity - 1) = r.head := by
    simp only [index, capacity_pop]
    simp only [pop, Nat.mod_add_mod]
    have : r.head + 1 + (r.capacity - 1) = r.head + r.capacity := by omega
    rw [this, Nat.add_mod_right, Nat.mod_eq_of_lt hhead]
  simp only [slot, hindex]
  simp only [pop, List.getElem?_set, if_true]
  split <;> rfl

/-- A push appends. -/
theorem toList_push (hsize : r.size < r.capacity) : (r.push v).toList = r.toList ++ [v] := by
  have hold : ∀ i ∈ List.range r.size, (r.push v).slot i = r.slot i := by
    intro i hi
    have hi := mem_range.mp hi
    rw [slot_push (hi.trans hsize) hsize, if_neg (by omega)]
  have hnew : (r.push v).slot r.size = some v := by
    rw [slot_push hsize hsize, if_pos rfl]
  change (List.range (r.size + 1)).filterMap (r.push v).slot = _
  rw [range_succ, filterMap_append, filterMap_congr hold,
    filterMap_cons_some hnew]
  rfl

namespace Valid

/-- A push finds its slot disengaged. -/
theorem slot_size (h : r.Valid) (hsize : r.size < r.capacity) : r.slot r.size = none := by
  have := (h.engaged r.size hsize).not.mpr (lt_irrefl _)
  simpa using this

/-- A pop finds its slot engaged. -/
theorem slot_zero (h : r.Valid) (hsize : 0 < r.size) : ∃ v, r.slot 0 = some v :=
  Option.isSome_iff_exists.mp ((h.engaged 0 (hsize.trans_le h.size_le)).mpr hsize)

theorem push (h : r.Valid) (hsize : r.size < r.capacity) : (r.push v).Valid where
  size_le := by
    rw [capacity_push]
    exact hsize
  head_lt := by
    rw [capacity_push]
    exact h.head_lt
  engaged i hi := by
    rw [capacity_push] at hi
    rw [slot_push hi hsize]
    have hold := h.engaged i hi
    change _ ↔ i < r.size + 1
    split_ifs with he
    · simp [he]
    · rw [hold]
      omega

theorem pop (h : r.Valid) (hsize : 0 < r.size) : r.pop.Valid := by
  have hcap : 0 < r.capacity := hsize.trans_le h.size_le
  have hhead := h.head_lt hcap
  have hsize' : r.pop.size = r.size - 1 := rfl
  have hle := h.size_le
  refine ⟨?_, ?_, fun i hi => ?_⟩
  · rw [capacity_pop, hsize']
    omega
  · rw [capacity_pop]
    exact fun _ => Nat.mod_lt _ hcap
  · rw [capacity_pop] at hi
    rw [hsize']
    by_cases hlast : i + 1 < r.capacity
    · rw [slot_pop hlast hhead, h.engaged (i + 1) hlast]
      omega
    · have hi' : i = r.capacity - 1 := by omega
      subst hi'
      rw [slot_pop_last hhead]
      simp only [Option.isSome_none, Bool.false_eq_true, false_iff]
      omega

theorem length_toList (h : r.Valid) : r.toList.length = r.size := by
  have hall : ∀ i ∈ List.range r.size, (r.slot i).isSome := by
    intro i hi
    have hi := mem_range.mp hi
    exact (h.engaged i (hi.trans_le h.size_le)).mpr hi
  have hlen : ∀ l : List ℕ, (∀ i ∈ l, (r.slot i).isSome) →
      (l.filterMap r.slot).length = l.length := by
    intro l hl
    induction l with
    | nil => rfl
    | cons i l ih =>
      obtain ⟨v, hv⟩ := Option.isSome_iff_exists.mp (hl i mem_cons_self)
      rw [filterMap_cons_some hv, length_cons, length_cons,
        ih fun j hj => hl j (mem_cons_of_mem _ hj)]
  rw [toList, hlen _ hall, length_range]

/-- A pop removes the head. -/
theorem toList_pop (h : r.Valid) (hsize : 0 < r.size) (hv : r.slot 0 = some v) :
    r.toList = v :: r.pop.toList := by
  obtain ⟨n, hn⟩ : ∃ n, r.size = n + 1 := ⟨r.size - 1, by omega⟩
  have hle := h.size_le
  have hhead := h.head_lt (by omega)
  have hrest : ∀ i ∈ List.range n, r.pop.slot i = (r.slot ∘ Nat.succ) i := by
    intro i hi
    have hi := mem_range.mp hi
    exact slot_pop (by omega) hhead
  have hsize' : r.pop.size = n := by simp [RingBuffer.pop, hn]
  rw [toList, hn, range_succ_eq_map, filterMap_cons_some hv, filterMap_map,
    toList, hsize', filterMap_congr hrest]

end Valid

end RingBuffer
