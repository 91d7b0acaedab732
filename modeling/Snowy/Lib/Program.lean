import Mathlib.Data.Nat.Notation
import Mathlib.Logic.Basic
import Mathlib.Tactic.SplitIfs

/-!
# Programs with exceptions and state

A program over a state may return a value, throw an exception, which leaves the state as it is at
the throw, or wait for something that does not happen. This is the monad `ExceptT ε (StateT σ
Option)`; what a handler runs on is the state at the throw.

A run is taken apart by `Program.exec_bind_eq_some` and `Program.exec_tryCatch_eq_some`. That a
program keeps an invariant, whatever it ends with, is `Program.Keeps`; its rules follow the
constructs.

## Main definitions

* `Program`, `Program.exec` : a program, and the end of its run.
* `Program.wait`, `Program.on`, `Program.reject`, `Program.loop` : waiting, a program over a part of
  the state, a check, and a loop.
* `Program.Keeps` : the program keeps an invariant.

## Main results

* `Program.exec_bind_eq_some`, `Program.exec_tryCatch_eq_some` : the runs of a composition.
* `Program.Keeps.bind`, `Program.Keeps.on`, `Program.Keeps.loop` : the rules for invariants.
-/

/-- A program over a state `σ` that may throw an `ε`. -/
abbrev Program (σ ε : Type) : Type → Type := ExceptT ε (StateT σ Option)

namespace Program

variable {σ τ ε α β : Type}

/-- The end of a run: what it returns or throws, and the state. There is none if it waits. -/
def exec (x : Program σ ε α) (s : σ) : Option (Except ε α × σ) := (ExceptT.run x).run s

/-- The program waits for ever. -/
def wait : Program σ ε α := ExceptT.mk fun _ => none

/-- A program over a part of the state. -/
def on (get : σ → τ) (set : σ → τ → σ) (x : Program τ ε α) : Program σ ε α :=
  ExceptT.mk fun s => (x.exec (get s)).map fun p => (p.1, set s p.2)

/-- `if (c) throw e;`. -/
def reject (c : Prop) [Decidable c] (e : ε) : Program σ ε Unit := if c then throw e else pure ()

/-- `while (c) x`, which waits after too many rounds. -/
def loop (c : σ → Bool) (x : Program σ ε Unit) : ℕ → Program σ ε Unit
  | 0 => wait
  | n + 1 => do
    if c (← get) then
      x
      loop c x n

/-! ### The runs of the constructs -/

variable {x : Program σ ε α} {f : α → Program σ ε β} {s s' s₁ : σ} {e : ε} {a : α} {b : β}

@[simp] theorem exec_pure : (pure a : Program σ ε α).exec s = some (.ok a, s) := rfl

@[simp] theorem exec_throw : (throw e : Program σ ε α).exec s = some (.error e, s) := rfl

@[simp] theorem exec_get : (get : Program σ ε σ).exec s = some (.ok s, s) := rfl

@[simp] theorem exec_set : (set s' : Program σ ε PUnit).exec s = some (.ok ⟨⟩, s') := rfl

@[simp] theorem exec_modify (g : σ → σ) :
    (modify g : Program σ ε PUnit).exec s = some (.ok ⟨⟩, g s) := rfl

theorem exec_bind_of_ok (h : x.exec s = some (.ok a, s₁)) : (x >>= f).exec s = (f a).exec s₁ := by
  change (x.exec s).bind _ = _
  rw [h]
  rfl

theorem exec_bind_of_error (h : x.exec s = some (.error e, s₁)) :
    (x >>= f).exec s = some (.error e, s₁) := by
  change (x.exec s).bind _ = _
  rw [h]
  rfl

theorem exec_bind_of_none (h : x.exec s = none) : (x >>= f).exec s = none := by
  change (x.exec s).bind _ = _
  rw [h]
  rfl

@[simp] theorem exec_get_bind {f : σ → Program σ ε β} : (get >>= f).exec s = (f s).exec s :=
  exec_bind_of_ok exec_get

@[simp] theorem exec_modify_bind {g : σ → σ} {f : PUnit → Program σ ε β} :
    (modify g >>= f).exec s = (f ⟨⟩).exec (g s) :=
  exec_bind_of_ok (exec_modify g)

/-- A check throws and leaves the state as it is, or what follows is run. -/
theorem exec_reject_bind {c : Prop} [Decidable c] {f : Unit → Program σ ε β} {r : Except ε β}
    (h : (reject c e >>= f).exec s = some (r, s')) :
    (c ∧ r = .error e ∧ s' = s) ∨ (¬c ∧ (f ()).exec s = some (r, s')) := by
  unfold reject at h
  split_ifs at h with hc
  · rw [exec_bind_of_error exec_throw] at h
    obtain ⟨hr, hs⟩ := Prod.mk.inj (Option.some.inj h)
    exact .inl ⟨hc, hr.symm, hs.symm⟩
  · rw [exec_bind_of_ok exec_pure] at h
    exact .inr ⟨hc, h⟩

/-- A composition ends with the exception of its first part, or as its second part does. -/
theorem exec_bind_eq_some {r : Except ε β} : (x >>= f).exec s = some (r, s') ↔
    (∃ e, x.exec s = some (.error e, s') ∧ r = .error e) ∨
      ∃ a s₁, x.exec s = some (.ok a, s₁) ∧ (f a).exec s₁ = some (r, s') := by
  rcases hx : x.exec s with - | ⟨e | a, s₁⟩
  · rw [exec_bind_of_none hx]
    simp
  · rw [exec_bind_of_error hx]
    constructor
    · intro h
      cases h
      exact .inl ⟨e, rfl, rfl⟩
    · rintro (⟨e', he, rfl⟩ | ⟨a, s₂, ha, -⟩)
      · obtain ⟨rfl, rfl⟩ : e = e' ∧ s₁ = s' := by simpa using he
        rfl
      · cases ha
  · rw [exec_bind_of_ok hx]
    constructor
    · exact fun h => .inr ⟨a, s₁, rfl, h⟩
    · rintro (⟨e', he, -⟩ | ⟨a', s₂, ha, h⟩)
      · cases he
      · obtain ⟨rfl, rfl⟩ : a = a' ∧ s₁ = s₂ := by simpa using ha
        exact h

/-- A handler runs on the state at the throw. -/
theorem exec_tryCatch_eq_some {handler : ε → Program σ ε α} {r : Except ε α} :
    (tryCatch x handler).exec s = some (r, s') ↔
      (∃ a, x.exec s = some (.ok a, s') ∧ r = .ok a) ∨
        ∃ e s₁, x.exec s = some (.error e, s₁) ∧ (handler e).exec s₁ = some (r, s') := by
  have hrun : (tryCatch x handler).exec s = (x.exec s).bind fun p =>
      match p.1 with
      | .ok a => some (.ok a, p.2)
      | .error e => (handler e).exec p.2 := by
    change (x.exec s).bind _ = _
    rcases x.exec s with - | ⟨e | a, s₁⟩ <;> rfl
  rw [hrun]
  rcases x.exec s with - | ⟨e | a, s₁⟩
  · simp
  · simp [and_assoc]
  · simp only [Option.bind_some, Option.some.injEq, Prod.mk.injEq, Except.ok.injEq, reduceCtorEq,
      false_and, exists_false, or_false]
    exact ⟨fun ⟨hr, hs⟩ => ⟨a, ⟨rfl, hs⟩, hr.symm⟩, fun ⟨_, ⟨ha, hs⟩, hr⟩ => ⟨ha ▸ hr.symm, hs⟩⟩

theorem exec_on_eq_some {get : σ → τ} {set : σ → τ → σ} {x : Program τ ε α} {r : Except ε α} :
    (on get set x).exec s = some (r, s') ↔ ∃ t, x.exec (get s) = some (r, t) ∧ s' = set s t := by
  change (x.exec (get s)).map _ = _ ↔ _
  rcases x.exec (get s) with - | ⟨q, t⟩
  · simp
  · simp only [Option.map_some, Option.some.injEq, Prod.mk.injEq]
    exact ⟨fun ⟨hr, hs⟩ => ⟨t, ⟨hr, rfl⟩, hs.symm⟩, fun ⟨_, ⟨hr, ht⟩, hs⟩ => ⟨hr, ht ▸ hs.symm⟩⟩

/-! ### Invariants -/

/-- However the program ends, it keeps the invariant. -/
def Keeps (P : σ → Prop) (x : Program σ ε α) : Prop :=
  ∀ ⦃s r s'⦄, x.exec s = some (r, s') → P s → P s'

variable {P : σ → Prop}

theorem Keeps.pure (a : α) : Keeps P (Pure.pure a : Program σ ε α) := by
  intro s r s' h hP
  cases h
  exact hP

theorem Keeps.throw (e : ε) : Keeps P (MonadExcept.throw e : Program σ ε α) := by
  intro s r s' h hP
  cases h
  exact hP

theorem Keeps.wait : Keeps P (Program.wait : Program σ ε α) := nofun

theorem Keeps.assign {g : σ → σ} (hg : ∀ s, P s → P (g s)) :
    Keeps P (modify g : Program σ ε PUnit) := by
  intro s r s' h hP
  cases h
  exact hg s hP

theorem Keeps.bind (hx : Keeps P x) (hf : ∀ a, Keeps P (f a)) : Keeps P (x >>= f) := by
  intro s r s' h hP
  rcases exec_bind_eq_some.mp h with ⟨e, he, -⟩ | ⟨a, s₁, ha, hrest⟩
  · exact hx he hP
  · exact hf a hrest (hx ha hP)

/-- What follows a read of the state may depend on it. -/
theorem Keeps.read {f : σ → Program σ ε β} (hf : ∀ s, Keeps P (f s)) : Keeps P (get >>= f) := by
  intro s r s' h hP
  rw [exec_get_bind] at h
  exact hf s h hP

theorem Keeps.cond {c : Prop} [Decidable c] {y : Program σ ε α} (hx : Keeps P x)
    (hy : Keeps P y) : Keeps P (if c then x else y) := by
  split_ifs
  · exact hx
  · exact hy

theorem Keeps.on {get : σ → τ} {set : σ → τ → σ} (h : ∀ s t, P s → P (set s t))
    (x : Program τ ε α) : Keeps P (on get set x) := by
  intro s r s' hrun hP
  obtain ⟨t, -, rfl⟩ := exec_on_eq_some.mp hrun
  exact h s t hP

theorem Keeps.loop {c : σ → Bool} {x : Program σ ε Unit} (hx : Keeps P x) (n : ℕ) :
    Keeps P (loop c x n) := by
  induction n with
  | zero => exact .wait
  | succ n ih => exact .read fun s => .cond (hx.bind fun _ => ih) (.pure _)

/-- A loop returns when its condition is false. -/
theorem eq_false_of_exec_loop {c : σ → Bool} {x : Program σ ε Unit} {n : ℕ} {u : Unit}
    (h : (loop c x n).exec s = some (.ok u, s')) : c s' = false := by
  induction n generalizing s with
  | zero => cases h
  | succ n ih =>
    rw [loop, exec_get_bind] at h
    split_ifs at h with hc
    · rcases exec_bind_eq_some.mp h with ⟨e, -, he⟩ | ⟨-, s₁, -, hrest⟩
      · cases he
      · exact ih hrest
    · cases h
      exact Bool.eq_false_iff.mpr hc

/-- The exceptions of a loop are those of its body. -/
theorem exists_of_exec_loop_eq_error {c : σ → Bool} {x : Program σ ε Unit} {n : ℕ}
    (h : (loop c x n).exec s = some (.error e, s')) : ∃ s₁, x.exec s₁ = some (.error e, s') := by
  induction n generalizing s with
  | zero => cases h
  | succ n ih =>
    rw [loop, exec_get_bind] at h
    split_ifs at h with hc
    · rcases exec_bind_eq_some.mp h with ⟨e', he, heq⟩ | ⟨-, s₁, -, hrest⟩
      · exact ⟨s, by rw [he, Except.error.inj heq]⟩
      · exact ih hrest
    · cases h

end Program
