import Mathlib.Data.Set.BooleanAlgebra
import Mathlib.Order.CompletePartialOrder
import Mathlib.Order.Interval.Set.Basic
import Mathlib.Order.Interval.Set.Disjoint
import Snowy.Lib.Unsigned

/-!
# Storage of a coroutine frame

A coroutine with an allocator argument gets the storage of its frame from this allocator, and keeps
a copy of the allocator behind the frame, to free the storage with. The storage is a number of
blocks, whose size is their alignment: the frame is rounded up to whole blocks, and so is the copy.

All sizes are unsigned numbers of 64 bits. A frame that is too large is refused, before anything is
calculated that could wrap. The guard leaves room for one block besides the frame and the copy, but
two sizes are rounded up: it lets through frames for which the storage would have `2 ^ 64` bytes,
one more than `SIZE_MAX`.

## Main definitions

* `Snowy.FrameStorage.Layout` : the sizes of a block and of an allocator.
* `Snowy.FrameStorage.operatorNew`, `Snowy.FrameStorage.operatorDelete` : `frame<A>::operator new`
  and `frame<A>::operator delete`.
* `Snowy.FrameStorage.Layout.HasRoom` : the frames whose storage has at most `SIZE_MAX` bytes.

## Main results

* `Snowy.FrameStorage.exists_storage_of_size_max` : a frame that is let through and has no room.
* `Snowy.FrameStorage.storage_holds_frame` : everything else is right.
-/

namespace Snowy.FrameStorage

open Unsigned

/-- The sizes for an allocator: `sizeof(block)`, `sizeof(A)` and `alignof(A)`. A block is aligned as
the allocator and as `std::max_align_t` are, and its size is its alignment. -/
structure Layout where
  block : UInt64
  saved : UInt64
  align : ℕ
  block_eq : ∃ k, block.toNat = 2 ^ k
  le_block : 16 ≤ block.toNat
  saved_pos : 1 ≤ saved.toNat
  align_dvd : align ∣ block.toNat

/-- What `operator new` throws, `std::bad_alloc`. -/
inductive BadAlloc where
  | badAlloc
  deriving DecidableEq, Repr

/-- Storage for a frame, in blocks: where the copy of the allocator is, and the number of blocks. -/
@[ext]
structure Storage where
  offset : UInt64
  count : UInt64
  deriving DecidableEq, Repr

/-- `SIZE_MAX`. -/
def sizeMax : UInt64 := .ofNat (2 ^ 64 - 1)

variable (L : Layout)

/-- `slots`. -/
def slots (size : UInt64) : Calc BadAlloc UInt64 := do
  let n ← Calc.add size L.block
  let n ← Calc.sub n 1
  pure (n / L.block)

/-- `frame<A>::operator new`: the storage that is allocated. -/
def operatorNew (size : UInt64) : Calc BadAlloc Storage := do
  let limit ← Calc.sub sizeMax L.block
  let limit ← Calc.sub limit L.saved
  if limit < size then throw .badAlloc
  else
    let offset ← slots L size
    let saved ← slots L L.saved
    let count ← Calc.add offset saved
    pure { offset, count }

/-- `frame<A>::operator delete`: the storage that is freed. -/
def operatorDelete (size : UInt64) : Calc BadAlloc Storage := do
  let offset ← slots L size
  let front ← slots L size
  let saved ← slots L L.saved
  let count ← Calc.add front saved
  pure { offset, count }

/-! ### Whole blocks -/

namespace Layout

/-- The number of blocks that so many bytes need. -/
def blocks (n : ℕ) : ℕ := (n + L.block.toNat - 1) / L.block.toNat

/-- The bytes of the last block that are not used. -/
def padding (n : ℕ) : ℕ := L.blocks n * L.block.toNat - n

/-- The frame and the copy leave room for two blocks, or their paddings together are less than
one. -/
def HasRoom (size : ℕ) : Prop :=
  size + L.saved.toNat + 2 * L.block.toNat ≤ 2 ^ 64 + 1 ∨
    L.padding size + L.padding L.saved.toNat < L.block.toNat

instance (size : ℕ) : Decidable (L.HasRoom size) := inferInstanceAs (Decidable (_ ∨ _))

theorem blocks_mul (n : ℕ) :
    L.blocks n * L.block.toNat = n + L.padding n ∧ L.padding n < L.block.toNat := by
  have hpos := L.le_block
  have hdiv := Nat.div_add_mod' (n + L.block.toNat - 1) L.block.toNat
  have hmod := Nat.mod_lt (n + L.block.toNat - 1) (by omega : L.block.toNat > 0)
  unfold padding blocks
  omega

theorem dvd_two_pow : L.block.toNat ∣ 2 ^ 64 := by
  obtain ⟨k, hk⟩ := L.block_eq
  have hlt : 2 ^ k < 2 ^ 64 := hk ▸ L.block.toNat_lt
  rw [hk]
  exact Nat.pow_dvd_pow 2 ((Nat.pow_lt_pow_iff_right Nat.one_lt_two).mp hlt).le

/-- What rounding up costs: the bytes of the storage exceed `SIZE_MAX` by at most one, and this is
so for the frames without room. -/
theorem bytes_lt_iff {size : ℕ} (h : size + L.saved.toNat + L.block.toNat < 2 ^ 64) :
    (L.blocks size + L.blocks L.saved.toNat) * L.block.toNat < 2 ^ 64 ↔ L.HasRoom size := by
  obtain ⟨hsize, hsize'⟩ := L.blocks_mul size
  obtain ⟨hsaved, hsaved'⟩ := L.blocks_mul L.saved.toNat
  rw [Nat.add_mul, hsize, hsaved]
  constructor
  · intro hlt
    -- the sum is a multiple of the size of a block, as `2 ^ 64` is, so it leaves a whole block
    obtain ⟨c, hc⟩ := L.dvd_two_pow
    have hmul : (L.blocks size + L.blocks L.saved.toNat + 1) * L.block.toNat ≤ 2 ^ 64 := by
      rw [hc, Nat.mul_comm L.block.toNat c]
      refine Nat.mul_le_mul_right _ (Nat.lt_of_mul_lt_mul_right (a := L.block.toNat) ?_)
      rw [Nat.mul_comm c, ← hc, Nat.add_mul, hsize, hsaved]
      exact hlt
    rw [Nat.add_mul, Nat.add_mul, hsize, hsaved, Nat.one_mul] at hmul
    unfold HasRoom
    omega
  · rintro (hroom | hroom) <;> omega

/-- The number of blocks is small. -/
theorem blocks_add_lt {size : ℕ} (h : size + L.saved.toNat + L.block.toNat < 2 ^ 64) :
    L.blocks size + L.blocks L.saved.toNat < 2 ^ 64 := by
  obtain ⟨hsize, hsize'⟩ := L.blocks_mul size
  obtain ⟨hsaved, hsaved'⟩ := L.blocks_mul L.saved.toNat
  have hmul := Nat.mul_le_mul_left (L.blocks size + L.blocks L.saved.toNat) L.le_block
  rw [Nat.add_mul _ _ L.block.toNat, hsize, hsaved] at hmul
  omega

end Layout

/-! ### The functions -/

variable {L} {β : Type}

theorem meets_slots {n : UInt64} (h : n.toNat + L.block.toNat < 2 ^ 64) :
    (slots L n).Meets fun r => ∃ q : UInt64, r = .ok q ∧ q.toNat = L.blocks n.toNat := by
  have hpos := L.le_block
  refine Calc.meets_add_bind h fun x hx => Calc.meets_sub_bind ?_ fun y hy => ?_
  · rw [hx]
    exact Nat.le_add_left_of_le (Nat.le_trans (by decide) hpos)
  · refine Calc.meets_pure ⟨_, rfl, ?_⟩
    rw [UInt64.toNat_div, hy, hx]
    rfl

/-- The two sums of blocks that `operator new` and `operator delete` calculate. -/
theorem meets_count {size : UInt64} (h : size.toNat + L.saved.toNat + L.block.toNat < 2 ^ 64)
    {offset : UInt64} (hoffset : offset.toNat = L.blocks size.toNat) {f : UInt64 → Calc BadAlloc β}
    {Q : Except BadAlloc β → Prop}
    (hf : ∀ count : UInt64, count.toNat = L.blocks size.toNat + L.blocks L.saved.toNat →
      (f count).Meets Q) :
    (do
      let saved ← slots L L.saved
      let count ← Calc.add offset saved
      f count).Meets Q := by
  refine (meets_slots (n := L.saved) (by omega)).bind ?_ nofun
  rintro _ ⟨saved, ⟨⟩, hsaved⟩
  refine Calc.meets_add_bind ?_ fun count hcount => hf count ?_
  · rw [hoffset, hsaved]
    exact L.blocks_add_lt h
  · rw [hcount, hoffset, hsaved]

/-- The frames that are let through, and their storage. -/
theorem meets_operatorNew (h : L.block.toNat + L.saved.toNat < 2 ^ 64) (size : UInt64) :
    (operatorNew L size).Meets fun r =>
      ∀ m, r = .ok m → size.toNat + L.saved.toNat + L.block.toNat < 2 ^ 64 ∧
        m.offset.toNat = L.blocks size.toNat ∧
        m.count.toNat = L.blocks size.toNat + L.blocks L.saved.toNat := by
  have hmax : sizeMax.toNat = 2 ^ 64 - 1 := rfl
  refine Calc.meets_sub_bind (by omega) fun limit hlimit => ?_
  refine Calc.meets_sub_bind (by omega) fun limit' hlimit' => ?_
  split_ifs with hguard
  · exact Calc.meets_throw nofun
  · rw [UInt64.lt_iff_toNat_lt] at hguard
    have hlt : size.toNat + L.saved.toNat + L.block.toNat < 2 ^ 64 := by omega
    refine (meets_slots (n := size) (by omega)).bind ?_ nofun
    rintro _ ⟨offset, ⟨⟩, hoffset⟩
    refine meets_count hlt hoffset fun count hcount => Calc.meets_pure ?_
    rintro m ⟨⟩
    exact ⟨hlt, hoffset, hcount⟩

/-- `operator delete` finds the same storage. -/
theorem meets_operatorDelete {size : UInt64}
    (h : size.toNat + L.saved.toNat + L.block.toNat < 2 ^ 64) :
    (operatorDelete L size).Meets fun r => ∃ m, r = .ok m ∧
      m.offset.toNat = L.blocks size.toNat ∧
      m.count.toNat = L.blocks size.toNat + L.blocks L.saved.toNat := by
  refine (meets_slots (n := size) (by omega)).bind ?_ nofun
  rintro _ ⟨offset, ⟨⟩, hoffset⟩
  refine (meets_slots (n := size) (by omega)).bind ?_ nofun
  rintro _ ⟨front, ⟨⟩, hfront⟩
  exact meets_count h hfront fun count hcount => Calc.meets_pure ⟨_, rfl, hoffset, hcount⟩

/-! ### The storage -/

/-- `std::pmr::polymorphic_allocator`, which is one pointer. -/
def pmrLayout : Layout where
  block := 16
  saved := 8
  align := 8
  block_eq := ⟨4, rfl⟩
  le_block := le_rfl
  saved_pos := by decide
  align_dvd := by decide

/-- The largest frame that is let through for an allocator with eight bytes: its storage has
`2 ^ 60` blocks of 16 bytes. -/
theorem exists_storage_of_size_max :
    ∃ (L : Layout) (size : UInt64) (m : Storage),
      (operatorNew L size).result = .ok m ∧
        sizeMax.toNat < m.count.toNat * L.block.toNat :=
  ⟨pmrLayout, .ofNat (2 ^ 64 - 25), ⟨.ofNat (2 ^ 60 - 1), .ofNat (2 ^ 60)⟩, rfl, by decide⟩

/-- **The storage holds the frame and the allocator.** Let the sizes of a block and of the allocator
together be less than `2 ^ 64`, as they are for every type, and let `operator new` not throw. Then
nothing wraps, neither in `operator new` nor in `operator delete`. The bytes of the frame and of the
saved allocator are disjoint and in the storage, the allocator is aligned if the storage is, and
`operator delete` finds it at the same place and frees as many blocks. The storage has at most
`SIZE_MAX` bytes if and only if the frame has room. -/
theorem storage_holds_frame (L : Layout) (size : UInt64) (m : Storage)
    (hsum : L.block.toNat + L.saved.toNat < 2 ^ 64) (hnew : (operatorNew L size).result = .ok m) :
    (operatorNew L size).Exact ∧
    (m.count.toNat * L.block.toNat ≤ sizeMax.toNat ↔ L.HasRoom size.toNat) ∧
    Disjoint (Set.Ico 0 size.toNat) (Set.Ico (m.offset.toNat * L.block.toNat)
      (m.offset.toNat * L.block.toNat + L.saved.toNat)) ∧
    Set.Ico 0 size.toNat ⊆ Set.Ico 0 (m.count.toNat * L.block.toNat) ∧
    Set.Ico (m.offset.toNat * L.block.toNat) (m.offset.toNat * L.block.toNat + L.saved.toNat) ⊆
      Set.Ico 0 (m.count.toNat * L.block.toNat) ∧
    (∀ base, L.block.toNat ∣ base → L.align ∣ base + m.offset.toNat * L.block.toNat) ∧
    (operatorDelete L size).Exact ∧ (operatorDelete L size).result = .ok m := by
  obtain ⟨hlt, hoffset, hcount⟩ := (meets_operatorNew hsum size).post m hnew
  obtain ⟨m', hdelete, hoffset', hcount'⟩ := (meets_operatorDelete hlt).post
  obtain ⟨hsize, -⟩ := L.blocks_mul size.toNat
  obtain ⟨hsaved, -⟩ := L.blocks_mul L.saved.toNat
  have hbytes : m.count.toNat * L.block.toNat =
      m.offset.toNat * L.block.toNat + L.blocks L.saved.toNat * L.block.toNat := by
    rw [hcount, hoffset, Nat.add_mul]
  rw [← hoffset] at hsize
  refine ⟨(meets_operatorNew hsum size).exact, ?_, ?_, ?_, ?_, ?_, (meets_operatorDelete hlt).exact,
    ?_⟩
  · rw [← L.bytes_lt_iff hlt, hcount]
    exact Nat.lt_succ_iff.symm
  · refine Set.disjoint_left.mpr fun i hframe hcopy => ?_
    have := hframe.2
    have := hcopy.1
    omega
  · exact Set.Ico_subset_Ico_right (by omega)
  · exact Set.Ico_subset_Ico (Nat.zero_le _) (by omega)
  · intro base hbase
    exact Nat.dvd_trans L.align_dvd (Nat.dvd_add hbase (Nat.dvd_mul_left ..))
  · have heq : m' = m := Storage.ext (UInt64.toNat_inj.mp (hoffset'.trans hoffset.symm))
      (UInt64.toNat_inj.mp (hcount'.trans hcount.symm))
    rw [hdelete, heq]

/-- A frame of 100 bytes. -/
theorem storage_holds_frame_hundred :
    (operatorNew pmrLayout 100).result = .ok ⟨7, 8⟩ ∧ pmrLayout.HasRoom 100 ∧
      8 * 16 ≤ sizeMax.toNat ∧ (operatorDelete pmrLayout 100).result = .ok ⟨7, 8⟩ := by
  have h := storage_holds_frame pmrLayout 100 ⟨7, 8⟩ (by decide) rfl
  have hroom : pmrLayout.HasRoom 100 := by decide
  exact ⟨rfl, hroom, h.2.1.mpr hroom, h.2.2.2.2.2.2.2⟩

end Snowy.FrameStorage
