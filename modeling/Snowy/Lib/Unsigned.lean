import Mathlib.Algebra.Group.Nat.Defs
import Mathlib.Logic.Basic

/-!
# Unsigned arithmetic that may wrap

The additions and subtractions of a machine are those of the numbers below `2 ^ 64`, which wrap. A
calculation keeps the list of those it has carried out, so that one can say that none of them
wraps, whatever the calculation ends with.

## Main definitions

* `Unsigned.Op`, `Unsigned.Op.Exact` : an addition or subtraction, and that it does not wrap.
* `Unsigned.Calc` : a calculation, which returns a value or throws.
* `Unsigned.Calc.Meets` : nothing wraps, and the end of the calculation has a property.

## Main results

* `Unsigned.Calc.Meets.bind`, `Unsigned.Calc.meets_add_bind`, `Unsigned.Calc.meets_sub_bind` : the
  rules for compositions.
-/

namespace Unsigned

/-- An addition or subtraction of unsigned numbers. -/
inductive Op where
  | add (x y : UInt64)
  | sub (x y : UInt64)
  deriving DecidableEq

/-- What the machine computes. -/
def Op.value : Op → UInt64
  | .add x y => x + y
  | .sub x y => x - y

/-- The result is that of the integers. -/
def Op.Exact : Op → Prop
  | .add x y => x.toNat + y.toNat < 2 ^ 64
  | .sub x y => y.toNat ≤ x.toNat

instance : DecidablePred Op.Exact
  | .add x y => inferInstanceAs (Decidable (x.toNat + y.toNat < 2 ^ 64))
  | .sub x y => inferInstanceAs (Decidable (y.toNat ≤ x.toNat))

theorem toNat_add {x y : UInt64} (h : x.toNat + y.toNat < 2 ^ 64) :
    (x + y).toNat = x.toNat + y.toNat := by
  rw [UInt64.toNat_add, Nat.mod_eq_of_lt h]

theorem toNat_sub {x y : UInt64} (h : y.toNat ≤ x.toNat) : (x - y).toNat = x.toNat - y.toNat :=
  UInt64.toNat_sub_of_le x y (UInt64.le_iff_toNat_le.mpr h)

/-- A calculation: the operations it has carried out, and what it returns or throws. -/
structure Calc (ε α : Type) where
  ops : List Op := []
  result : Except ε α

namespace Calc

variable {ε α β : Type} {c : Calc ε α} {f : α → Calc ε β} {Q : Except ε β → Prop}

/-- One calculation after another, unless the first one throws. -/
def andThen (c : Calc ε α) (f : α → Calc ε β) : Calc ε β :=
  match c.result with
  | .ok a => { ops := c.ops ++ (f a).ops, result := (f a).result }
  | .error e => { ops := c.ops, result := .error e }

instance : Monad (Calc ε) where
  pure a := { result := .ok a }
  bind := andThen

instance : MonadExcept ε (Calc ε) where
  throw e := { result := .error e }
  tryCatch c h :=
    match c.result with
    | .ok _ => c
    | .error e => { ops := c.ops ++ (h e).ops, result := (h e).result }

/-- The calculation that carries out one operation. -/
def perform (op : Op) : Calc ε UInt64 := { ops := [op], result := .ok op.value }

/-- Addition. -/
def add (x y : UInt64) : Calc ε UInt64 := perform (.add x y)

/-- Subtraction. -/
def sub (x y : UInt64) : Calc ε UInt64 := perform (.sub x y)

/-- No operation wraps, whatever the calculation ends with. -/
def Exact (c : Calc ε α) : Prop := ∀ op ∈ c.ops, op.Exact

/-- The calculation does not throw. -/
def Accepts (c : Calc ε α) : Prop := ∃ a, c.result = .ok a

/-- No operation wraps, and the end of the calculation has the property. -/
structure Meets (c : Calc ε α) (Q : Except ε α → Prop) : Prop where
  exact : c.Exact
  post : Q c.result

/-! ### Rules -/

theorem meets_pure {a : β} (h : Q (.ok a)) : (pure a : Calc ε β).Meets Q := ⟨nofun, h⟩

theorem meets_throw {e : ε} (h : Q (.error e)) : (throw e : Calc ε β).Meets Q := ⟨nofun, h⟩

theorem Meets.mono {Q' : Except ε α → Prop} {Q : Except ε α → Prop} (h : c.Meets Q)
    (hQ : ∀ r, Q r → Q' r) : c.Meets Q' :=
  ⟨h.exact, hQ _ h.post⟩

/-- A composition meets what its second part meets, and what is left if the first one throws. -/
theorem Meets.bind {P : Except ε α → Prop} (h : c.Meets P) (hok : ∀ a, P (.ok a) → (f a).Meets Q)
    (herror : ∀ e, P (.error e) → Q (.error e)) : (c >>= f).Meets Q := by
  change (c.andThen f).Meets Q
  have hpost := h.post
  unfold andThen
  cases hr : c.result with
  | error e => exact ⟨h.exact, herror e (hr ▸ hpost)⟩
  | ok a =>
    have hf := hok a (hr ▸ hpost)
    refine ⟨fun op hop => ?_, hf.post⟩
    exact (List.mem_append.mp hop).elim (h.exact op) (hf.exact op)

theorem meets_perform (op : Op) (h : op.Exact) :
    (perform op : Calc ε UInt64).Meets fun r => r = .ok op.value := by
  refine ⟨fun op' hop => ?_, rfl⟩
  rw [List.mem_singleton.mp hop]
  exact h

theorem meets_add_bind {x y : UInt64} {f : UInt64 → Calc ε β} (h : x.toNat + y.toNat < 2 ^ 64)
    (hf : ∀ z : UInt64, z.toNat = x.toNat + y.toNat → (f z).Meets Q) : (add x y >>= f).Meets Q :=
  (meets_perform (.add x y) h).bind
    (fun _ hz => hf _ ((congrArg UInt64.toNat (Except.ok.inj hz)).trans (toNat_add h))) nofun

theorem meets_sub_bind {x y : UInt64} {f : UInt64 → Calc ε β} (h : y.toNat ≤ x.toNat)
    (hf : ∀ z : UInt64, z.toNat = x.toNat - y.toNat → (f z).Meets Q) : (sub x y >>= f).Meets Q :=
  (meets_perform (.sub x y) h).bind
    (fun _ hz => hf _ ((congrArg UInt64.toNat (Except.ok.inj hz)).trans (toNat_sub h))) nofun

end Calc

end Unsigned
