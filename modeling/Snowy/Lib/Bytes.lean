import Mathlib.Algebra.Group.Nat.Defs
import Mathlib.Data.Set.BooleanAlgebra
import Mathlib.Logic.Basic
import Mathlib.Order.CompletePartialOrder
import Mathlib.Order.Interval.Set.Basic

/-!
# Bytes in memory

A span is a range of addresses, and a word of 32 bits is stored in four bytes, in the order of the
machine.

## Main definitions

* `Span`, `Span.read`, `Span.sub` : a range of addresses, what it holds, and a part of it.
* `ByteOrder` : how words are stored.

## Main results

* `Span.read_sub_of_append` : a part of a span holds the part of its content.
* `ByteOrder.load_of_words` : the words at the beginning of a span.
-/

/-- A range of addresses. -/
structure Span where
  start : ℕ
  length : ℕ
  deriving DecidableEq, Repr

namespace Span

open List

variable {β : Type*} (memory : ℕ → β) (s : Span)

/-- The addresses. -/
def addresses : Set ℕ := Set.Ico s.start (s.start + s.length)

/-- What the memory holds at the addresses. -/
def read : List β := (List.range s.length).map fun i => memory (s.start + i)

/-- The part of a span at an offset. -/
def sub (offset length : ℕ) : Span := ⟨s.start + offset, length⟩

@[simp]
theorem length_read : (s.read memory).length = s.length := by
  rw [read, length_map, length_range]

/-- A memory that holds a list. -/
theorem read_getD (l : List β) (b : β) : (Span.mk 0 l.length).read (fun i => l.getD i b) = l := by
  refine ext_getElem (length_read ..) fun i hi hl => ?_
  simp only [read, getElem_map, getElem_range, Nat.zero_add]
  rw [getD_eq_getElem?_getD, List.getElem?_eq_getElem hl, Option.getD_some]

variable {memory s}

theorem addresses_sub_subset {offset length : ℕ} (h : offset + length ≤ s.length) :
    (s.sub offset length).addresses ⊆ s.addresses := by
  refine Set.Ico_subset_Ico (Nat.le_add_right ..) ?_
  rw [sub, Nat.add_assoc]
  exact Nat.add_le_add_left h s.start

theorem disjoint_sub {offset length offset' length' : ℕ} (h : offset + length ≤ offset') :
    Disjoint (s.sub offset length).addresses (s.sub offset' length').addresses := by
  refine Set.disjoint_left.mpr fun i hi hi' => ?_
  have hend : i < s.start + offset + length := hi.2
  have hstart : s.start + offset' ≤ i := hi'.1
  omega

/-- A part of a span holds the part of its content. -/
theorem read_sub_of_append {a b c : List β} {offset length : ℕ} (h : s.read memory = a ++ b ++ c)
    (ha : a.length = offset) (hb : b.length = length) : (s.sub offset length).read memory = b := by
  subst ha hb
  have hlength : s.length = a.length + b.length + c.length := by
    rw [← length_read memory, h, length_append, length_append]
  refine ext_getElem (length_read ..) fun i hi hib => ?_
  have hi' : a.length + i < (s.read memory).length := by
    rw [length_read]
    omega
  calc ((s.sub a.length b.length).read memory)[i]
      = memory (s.start + a.length + i) := by
        simp only [read, sub, getElem_map, getElem_range]
    _ = (s.read memory)[a.length + i] := by
        simp only [read, getElem_map, getElem_range, Nat.add_assoc]
    _ = b[i] := by
      simp only [h, append_assoc]
      rw [getElem_append_right (Nat.le_add_right ..), getElem_append_left (by omega)]
      simp only [Nat.add_sub_cancel_left]

end Span

/-- The order of the four bytes of a word in memory. -/
structure ByteOrder where
  encode : UInt32 → List UInt8
  decode : List UInt8 → UInt32
  length_encode : ∀ x, (encode x).length = 4
  decode_encode : ∀ x, decode (encode x) = x

namespace ByteOrder

open List

/-- The word at an address. -/
def load (order : ByteOrder) (memory : ℕ → UInt8) (address : ℕ) : UInt32 :=
  order.decode ((Span.mk address 4).read memory)

theorem length_flatMap_encode (order : ByteOrder) (words : List UInt32) :
    (words.flatMap order.encode).length = 4 * words.length := by
  induction words with
  | nil => rfl
  | cons x words ih =>
    rw [flatMap_cons, length_append, order.length_encode, ih, length_cons]
    omega

/-- The words at the beginning of a span. -/
theorem load_of_words {order : ByteOrder} {memory : ℕ → UInt8} {s : Span} {words : List UInt32}
    {rest : List UInt8} (h : s.read memory = words.flatMap order.encode ++ rest) {i : ℕ}
    (hi : i < words.length) : order.load memory (s.start + 4 * i) = words[i] := by
  have hwords : words = words.take i ++ words[i] :: words.drop (i + 1) := by
    rw [← drop_eq_getElem_cons hi, take_append_drop]
  have hsplit : s.read memory = (words.take i).flatMap order.encode ++ order.encode words[i] ++
      ((words.drop (i + 1)).flatMap order.encode ++ rest) := by
    rw [h]
    conv_lhs => rw [hwords]
    rw [flatMap_append, flatMap_cons, append_assoc, append_assoc,
      append_assoc]
  have hoffset : ((words.take i).flatMap order.encode).length = 4 * i := by
    rw [length_flatMap_encode, length_take_of_le hi.le]
  have hread := Span.read_sub_of_append hsplit hoffset (order.length_encode _)
  exact (congrArg order.decode hread).trans (order.decode_encode _)

/-- The least significant byte comes first. -/
def littleEndian : ByteOrder where
  encode x := [.ofNat x.toNat, .ofNat (x.toNat / 256), .ofNat (x.toNat / 65536),
    .ofNat (x.toNat / 16777216)]
  decode
    | [a, b, c, d] =>
      .ofNat (a.toNat + 256 * b.toNat + 65536 * c.toNat + 16777216 * d.toNat)
    | _ => 0
  length_encode _ := rfl
  decode_encode x := by
    have hlt := x.toNat_lt
    rw [← UInt32.toNat_inj]
    simp only [UInt32.toNat_ofNat', UInt8.toNat_ofNat']
    omega

end ByteOrder
