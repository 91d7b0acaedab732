import Mathlib.Algebra.GroupWithZero.Nat
import Snowy.Lib.Unsigned
import Snowy.WriteAll

/-!
# Checking the range of a positional request

A positional read or write names a range of a file: an offset with 64 bits, and a number of bytes.
Three functions check such a range before a request is made. `vectors` is for a list of buffers,
whose lengths it adds up; `bounds` is for one buffer that is transferred as a whole, and the check
of `file::transfer` for one buffer of which at most `INT_MAX` bytes are transferred. All of them
calculate with unsigned numbers of 64 bits, `int` and `unsigned` operands being converted.

Each calculation is a `Unsigned.Calc`, which records the additions and subtractions that the code
carries out: a condition on the right of `||` is not evaluated if the one on the left holds.

## Main definitions

* `Snowy.Uring.vectors`, `Snowy.Uring.bounds`, `Snowy.File.checkRange` : the three checks.

## Main results

* `Snowy.File.transfer_eq_checkRange` : `file::transfer` makes its check before the request.
* `Snowy.Uring.vectors_accepts_exactly` : what is accepted, that nothing wraps, and that the checks
  agree.
-/

namespace Snowy

open Unsigned

/-- What the checks throw, `std::invalid_argument`. -/
structure InvalidArgument where
  what : String
  deriving DecidableEq, Repr

/-- `IOV_MAX`. -/
def iovMax : ℕ := 1024

theorem toNat_intMax : (UInt64.ofNat intMax).toNat = intMax := rfl

theorem toNat_int64Max : (UInt64.ofNat int64Max).toNat = int64Max := rfl

namespace Uring

/-- `iovec`: the address of a buffer, which may be null, and its length. -/
structure Iovec where
  base : UInt64
  len : UInt64
  deriving DecidableEq, Repr

/-- The loop of `vectors`, with the sum of the lengths so far. -/
def accumulate : List Iovec → UInt64 → Calc InvalidArgument UInt64
  | [], total => pure total
  | v :: data, total => do
    let room ← Calc.sub (.ofNat intMax) total
    if room < v.len ∨ v.base = 0 ∧ v.len ≠ 0 then throw ⟨"invalid I/O vector"⟩
    else
      let total ← Calc.add total v.len
      accumulate data total

/-- `vectors`. -/
def vectors (data : List Iovec) (offset : UInt64) : Calc InvalidArgument Unit :=
  if iovMax < data.length ∨ .ofNat int64Max < offset then throw ⟨"invalid vector range"⟩
  else do
    let total ← accumulate data 0
    let room ← Calc.sub (.ofNat int64Max) offset
    if room < total then throw ⟨"vector offset overflow"⟩ else pure ()

/-- `bounds`. -/
def bounds (size offset : UInt64) : Calc InvalidArgument Unit :=
  if .ofNat intMax < size ∨ .ofNat int64Max < offset then throw ⟨"uring I/O range overflow"⟩
  else do
    let room ← Calc.sub (.ofNat int64Max) offset
    if room < size then throw ⟨"uring I/O range overflow"⟩ else pure ()

end Uring

/-- The check of `file::transfer`, which returns the length of the request. -/
def File.checkRange (size offset : UInt64) : Calc InvalidArgument UInt64 :=
  let length := min size (.ofNat intMax)
  if .ofNat int64Max < offset then throw ⟨"file offset overflow"⟩
  else do
    let room ← Calc.sub (.ofNat int64Max) offset
    if room < length then throw ⟨"file offset overflow"⟩ else pure length

/-! ### The sum of the lengths -/

namespace Uring

/-- The length of a list of buffers, as an integer. -/
def totalLength (data : List Iovec) : ℕ := (data.map fun v => v.len.toNat).sum

/-- A null pointer comes without bytes. -/
def Iovec.Valid (v : Iovec) : Prop := ¬(v.base = 0 ∧ v.len ≠ 0)

/-- The loop accepts the lists of valid buffers with a sum of at most `INT_MAX`, and returns the
sum. As long as it runs the sum so far is at most `INT_MAX`, so that nothing wraps. -/
theorem meets_accumulate (data : List Iovec) {total : UInt64} (h : total.toNat ≤ intMax) :
    (accumulate data total).Meets fun r =>
      match r with
      | .ok t => (∀ v ∈ data, v.Valid) ∧ t.toNat = total.toNat + totalLength data ∧
          t.toNat ≤ intMax
      | .error _ => ¬((∀ v ∈ data, v.Valid) ∧ total.toNat + totalLength data ≤ intMax) := by
  induction data generalizing total with
  | nil => exact Calc.meets_pure ⟨nofun, rfl, h⟩
  | cons v data ih =>
    have htotal : totalLength (v :: data) = v.len.toNat + totalLength data := List.sum_cons
    refine Calc.meets_sub_bind (by rwa [toNat_intMax]) fun room hroom => ?_
    rw [toNat_intMax] at hroom
    split_ifs with hbad
    · refine Calc.meets_throw fun ⟨hvalid, hle⟩ => ?_
      rcases hbad with hlt | hnull
      · have := UInt64.lt_iff_toNat_lt.mp hlt
        omega
      · exact hvalid v List.mem_cons_self hnull
    · rw [not_or, UInt64.lt_iff_toNat_lt] at hbad
      have hfits : total.toNat + v.len.toNat ≤ intMax := by omega
      refine Calc.meets_add_bind (hfits.trans_lt (by decide)) fun t ht => ?_
      refine (ih (ht.le.trans hfits)).mono fun r hr => ?_
      cases r with
      | ok t' =>
        obtain ⟨hvalid, hsum, hle⟩ := hr
        exact ⟨List.forall_mem_cons.mpr ⟨hbad.2, hvalid⟩, by omega, hle⟩
      | error e =>
        refine fun ⟨hvalid, hle⟩ => hr ⟨(List.forall_mem_cons.mp hvalid).2, ?_⟩
        omega

/-! ### The offset -/

/-- The last part of each check: the range ends below `INT64_MAX`. -/
theorem meets_room {α : Type} {offset : UInt64} (h : ¬.ofNat int64Max < offset) (size : UInt64)
    (e : InvalidArgument) (a : α) :
    (do
      let room ← Calc.sub (.ofNat int64Max) offset
      if room < size then throw e else pure a : Calc InvalidArgument α).Meets fun r =>
        r = if offset.toNat + size.toNat ≤ int64Max then .ok a else .error e := by
  have hoffset : offset.toNat ≤ int64Max := by
    rwa [UInt64.lt_iff_toNat_lt, toNat_int64Max, Nat.not_lt] at h
  refine Calc.meets_sub_bind (by rwa [toNat_int64Max]) fun room hroom => ?_
  rw [toNat_int64Max] at hroom
  split_ifs with hlt hle hle
  · rw [UInt64.lt_iff_toNat_lt] at hlt
    omega
  · exact Calc.meets_throw rfl
  · exact Calc.meets_pure rfl
  · rw [UInt64.lt_iff_toNat_lt] at hlt
    omega

/-- What `vectors` accepts. -/
theorem meets_vectors (data : List Iovec) (offset : UInt64) :
    (vectors data offset).Meets fun r => (∃ a, r = .ok a) ↔
      data.length ≤ iovMax ∧ (∀ v ∈ data, v.Valid) ∧ totalLength data ≤ intMax ∧
        offset.toNat + totalLength data ≤ int64Max := by
  unfold vectors
  split_ifs with hrange
  · refine Calc.meets_throw ⟨nofun, fun ⟨hlength, _, _, hle⟩ => ?_⟩
    rw [UInt64.lt_iff_toNat_lt, toNat_int64Max] at hrange
    omega
  · obtain ⟨hlength, hoffset⟩ := not_or.mp hrange
    have hzero : (0 : UInt64).toNat ≤ intMax := Nat.zero_le _
    refine (meets_accumulate data hzero).bind (fun total ⟨hvalid, htotal, hle⟩ => ?_) ?_
    · rw [show (0 : UInt64).toNat = 0 from rfl, Nat.zero_add] at htotal
      refine (meets_room hoffset ..).mono ?_
      rintro r rfl
      rw [htotal] at hle ⊢
      split_ifs with hend
      · exact ⟨fun _ => ⟨Nat.not_lt.mp hlength, hvalid, hle, hend⟩, fun _ => ⟨(), rfl⟩⟩
      · exact ⟨nofun, fun h => absurd h.2.2.2 hend⟩
    · intro e hbad
      refine ⟨nofun, fun ⟨_, hvalid, hle, _⟩ => absurd ⟨hvalid, ?_⟩ hbad⟩
      exact (Nat.zero_add _).trans_le hle

/-- What `bounds` accepts. -/
theorem meets_bounds (size offset : UInt64) :
    (bounds size offset).Meets fun r => (∃ a, r = .ok a) ↔
      size.toNat ≤ intMax ∧ offset.toNat + size.toNat ≤ int64Max := by
  unfold bounds
  split_ifs with hrange
  · refine Calc.meets_throw ⟨nofun, fun ⟨hsize, hle⟩ => ?_⟩
    rw [UInt64.lt_iff_toNat_lt, UInt64.lt_iff_toNat_lt, toNat_intMax, toNat_int64Max] at hrange
    omega
  · obtain ⟨hsize, hoffset⟩ := not_or.mp hrange
    rw [UInt64.lt_iff_toNat_lt, toNat_intMax, Nat.not_lt] at hsize
    refine (meets_room hoffset ..).mono ?_
    rintro r rfl
    split_ifs with hend
    · exact ⟨fun _ => ⟨hsize, hend⟩, fun _ => ⟨(), rfl⟩⟩
    · exact ⟨nofun, fun h => absurd h.2 hend⟩

/-- A list with one buffer that is not null. -/
theorem accepts_vectors_singleton {base : UInt64} (hbase : base ≠ 0) (size offset : UInt64) :
    (vectors [⟨base, size⟩] offset).Accepts ↔
      size.toNat ≤ intMax ∧ offset.toNat + size.toNat ≤ int64Max := by
  have htotal : totalLength [⟨base, size⟩] = size.toNat := List.sum_singleton
  have hvalid : ∀ v ∈ [(⟨base, size⟩ : Iovec)], v.Valid :=
    List.forall_mem_singleton.mpr fun h => hbase h.1
  refine (meets_vectors _ offset).post.trans ?_
  rw [htotal]
  exact ⟨fun h => h.2.2, fun h => ⟨(by decide : 1 ≤ iovMax), hvalid, h⟩⟩

end Uring

/-! ### Files -/

namespace File

theorem toNat_min_intMax (size : UInt64) :
    (min size (.ofNat intMax)).toNat = requestLength size.toNat := by
  have hmin : min size (.ofNat intMax) =
      if size ≤ .ofNat intMax then size else .ofNat intMax := rfl
  rw [hmin, requestLength, Nat.min_def]
  split_ifs with hle hle' hle'
  · rfl
  · exact absurd (UInt64.le_iff_toNat_le.mp hle) hle'
  · exact absurd (UInt64.le_iff_toNat_le.mpr hle') hle
  · rfl

/-- The check of `file::transfer` is about the request, which may be shorter than the buffer. -/
theorem meets_checkRange (size offset : UInt64) :
    (checkRange size offset).Meets fun r =>
      r = if offset.toNat + requestLength size.toNat ≤ int64Max then
          .ok (min size (.ofNat intMax))
        else .error ⟨"file offset overflow"⟩ := by
  rw [← toNat_min_intMax]
  unfold checkRange
  by_cases hoffset : .ofNat int64Max < offset
  · rw [if_pos hoffset]
    rw [UInt64.lt_iff_toNat_lt, toNat_int64Max] at hoffset
    exact Calc.meets_throw (if_neg (by omega)).symm
  · rw [if_neg hoffset]
    exact Uring.meets_room hoffset ..

/-- `file::transfer`, if it is not refused before, makes the check and then the request. -/
theorem transfer_eq_checkRange {t : Turn} (h : t.refusal = none) (size offset : UInt64) :
    transfer t size.toNat offset.toNat =
      match (checkRange size offset).result with
      | .ok _ => t.request size.toNat
      | .error e => .error (.invalidArgument e.what) := by
  rw [(meets_checkRange size offset).post, transfer, h]
  dsimp only
  split_ifs with hbad hle hle
  · omega
  · rfl
  · rfl
  · omega

end File

/-! ### The checks draw one boundary -/

namespace Uring

/-- **The checks of a range are exact.** For all buffers and every offset, `vectors` accepts if and
only if there are at most `IOV_MAX` buffers, no null pointer comes with bytes, the sum of the
lengths is at most `INT_MAX`, and the offset plus this sum is at most `INT64_MAX`; these sums are
sums of integers. No addition and no subtraction wraps, whatever the input. On one buffer that is
not null, `bounds` accepts what `vectors` does, and so does the check of `file::transfer` for the
part of the buffer that it transfers. -/
theorem vectors_accepts_exactly (data : List Iovec) (offset : UInt64) :
    ((vectors data offset).Accepts ↔
      data.length ≤ iovMax ∧ (∀ v ∈ data, ¬(v.base = 0 ∧ v.len ≠ 0)) ∧
        totalLength data ≤ intMax ∧ offset.toNat + totalLength data ≤ int64Max) ∧
    (vectors data offset).Exact ∧
    ∀ base size : UInt64, base ≠ 0 →
      ((bounds size offset).Accepts ↔ (vectors [⟨base, size⟩] offset).Accepts) ∧
      ((File.checkRange size offset).Accepts ↔
        (vectors [⟨base, min size (.ofNat intMax)⟩] offset).Accepts) ∧
      (bounds size offset).Exact ∧ (File.checkRange size offset).Exact := by
  refine ⟨(meets_vectors data offset).post, (meets_vectors data offset).exact,
    fun base size hbase => ⟨?_, ?_, (meets_bounds ..).exact, (File.meets_checkRange ..).exact⟩⟩
  · rw [accepts_vectors_singleton hbase]
    exact (meets_bounds size offset).post
  · have hle : requestLength size.toNat ≤ intMax := Nat.min_le_right ..
    rw [accepts_vectors_singleton hbase, File.toNat_min_intMax, Calc.Accepts,
      (File.meets_checkRange size offset).post]
    split_ifs with hend
    · exact ⟨fun _ => ⟨hle, hend⟩, fun _ => ⟨_, rfl⟩⟩
    · exact ⟨nofun, fun h => absurd h.2 hend⟩

/-- Two buffers, one of them null and empty, at the last offset that leaves room for them. -/
theorem vectors_accepts_exactly_at_limit :
    (vectors [⟨16, 7⟩, ⟨0, 0⟩] (.ofNat (int64Max - 7))).Accepts ∧
      ((bounds 7 (.ofNat (int64Max - 7))).Accepts ↔
        (vectors [⟨16, 7⟩] (.ofNat (int64Max - 7))).Accepts) :=
  ⟨(vectors_accepts_exactly [⟨16, 7⟩, ⟨0, 0⟩] (.ofNat (int64Max - 7))).1.mpr (by decide),
    ((vectors_accepts_exactly [⟨16, 7⟩, ⟨0, 0⟩] (.ofNat (int64Max - 7))).2.2 16 7
      (by decide)).1⟩

end Uring

end Snowy
