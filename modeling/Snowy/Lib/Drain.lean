import Mathlib.Data.List.Infix

/-!
# Writing a buffer piece by piece

A sink accepts some leading part of what it is offered, or fails. The usual loop around it offers
the rest of a buffer until nothing is left, and gives up when a piece is not accepted at all. The
loop may carry a state, such as the position of the next piece.

## Main definitions

* `Sink` : what the loop writes to.
* `Sink.drain` : the loop, with a record of what it has done.
* `place` : the elements of a list, each with its position.

## Main results

* `Sink.accepted_drain` : what is accepted is a prefix, and all of it exactly if the loop succeeds.
* `Sink.drain_calls_le` : the loop ends after at most one call per element.
* `Sink.drain_placed` : if each piece is put behind the one before it, the elements get consecutive
  positions.
-/

variable {ε σ β : Type*}

/-- A sink: the `i`-th offer of `size` elements in a state, the error of the loop when nothing is
accepted, and the change of the state when some elements are. -/
structure Sink (ε σ : Type*) where
  offer : ℕ → σ → (size : ℕ) → Except ε {n : ℕ // n ≤ size}
  stalled : ε
  advance : σ → ℕ → σ

namespace Sink

open List

/-- What a run of the loop has done: the pieces that were accepted with the states in which they
were, the states at the head of the loop, and the number of offers. -/
structure Trace (ε σ β : Type*) where
  outcome : Except ε Unit
  writes : List (σ × List β) := []
  states : List σ
  calls : ℕ := 0

/-- All elements that were accepted. -/
def Trace.accepted (t : Trace ε σ β) : List β := (t.writes.map Prod.snd).flatten

/-- A run that goes on after a piece was accepted. -/
def Trace.after (t : Trace ε σ β) (s : σ) (piece : List β) : Trace ε σ β where
  outcome := t.outcome
  writes := (s, piece) :: t.writes
  states := s :: t.states
  calls := t.calls + 1

@[simp] theorem Trace.accepted_after (t : Trace ε σ β) (s : σ) (piece : List β) :
    (t.after s piece).accepted = piece ++ t.accepted := rfl

variable (k : Sink ε σ)

/-- The loop, from its `i`-th offer on. -/
def drain (i : ℕ) (s : σ) (buffer : List β) : Trace ε σ β :=
  if _ : buffer = [] then { outcome := .ok (), states := [s] }
  else
    match k.offer i s buffer.length with
    | .error e => { outcome := .error e, states := [s], calls := 1 }
    | .ok n =>
      if _ : n.1 = 0 then { outcome := .error k.stalled, states := [s], calls := 1 }
      else (drain (i + 1) (k.advance s n) (buffer.drop n)).after s (buffer.take n)
termination_by buffer.length
decreasing_by
  have := length_pos_iff.mpr ‹_›
  rw [length_drop]
  omega

variable {k} {i : ℕ} {s : σ} {buffer : List β}

/-- **The loop by cases.** What holds when it ends at once, and of a step before what it does
afterwards, holds of it. -/
theorem drain_induction {P : ℕ → σ → List β → Trace ε σ β → Prop}
    (done : ∀ i s, P i s [] { outcome := .ok (), states := [s] })
    (failed : ∀ i s (buffer : List β) e, buffer ≠ [] →
      P i s buffer { outcome := .error e, states := [s], calls := 1 })
    (step : ∀ i s (buffer : List β) (n : {n : ℕ // n ≤ buffer.length}) t,
      k.offer i s buffer.length = .ok n → n.1 ≠ 0 →
      P (i + 1) (k.advance s n) (buffer.drop n) t → P i s buffer (t.after s (buffer.take n)))
    (i : ℕ) (s : σ) (buffer : List β) : P i s buffer (k.drain i s buffer) := by
  fun_induction drain k i s buffer with
  | case1 i s => exact done i s
  | case2 i s buffer hne e => exact failed i s buffer e hne
  | case3 i s buffer hne => exact failed i s buffer k.stalled hne
  | case4 i s buffer hne n hn h0 ih => exact step i s buffer n _ hn h0 ih

/-- **What is accepted.** It is a prefix of the buffer, and all of it exactly if the loop
succeeds. -/
theorem accepted_drain (i : ℕ) (s : σ) (buffer : List β) :
    (k.drain i s buffer).accepted <+: buffer ∧
      ((k.drain i s buffer).outcome = .ok () ↔ (k.drain i s buffer).accepted = buffer) := by
  refine drain_induction (P := fun _ _ buffer t =>
    t.accepted <+: buffer ∧ (t.outcome = .ok () ↔ t.accepted = buffer)) ?_ ?_ ?_ i s buffer
  · exact fun _ _ => ⟨List.nil_prefix, iff_of_true rfl rfl⟩
  · intro _ _ buffer e hne
    exact ⟨List.nil_prefix, iff_of_false (by simp) hne.symm⟩
  · rintro _ s buffer ⟨n, hn⟩ t - - ⟨hpre, hok⟩
    have hsplit := buffer.take_append_drop n
    have hall : buffer.take n ++ t.accepted = buffer ↔ t.accepted = buffer.drop n := by
      conv_lhs => rhs; rw [← hsplit]
      exact append_right_inj _
    rw [Trace.accepted_after, hall]
    refine ⟨?_, hok⟩
    conv_rhs => rw [← hsplit]
    exact (prefix_append_right_inj _).mpr hpre

/-- **The loop ends.** There is at most one offer per element. -/
theorem drain_calls_le (i : ℕ) (s : σ) (buffer : List β) :
    (k.drain i s buffer).calls ≤ buffer.length := by
  refine drain_induction (P := fun _ _ buffer t => t.calls ≤ buffer.length) ?_ ?_ ?_ i s buffer
  · exact fun _ _ => Nat.le_refl 0
  · exact fun _ _ buffer _ hne => length_pos_iff.mpr hne
  · intro _ s buffer n t _ hn ht
    rw [length_drop] at ht
    have hle := n.2
    simp only [Trace.after]
    omega

/-- What every step establishes holds of all states after the first. -/
theorem drain_states {Q : σ → Prop}
    (advance : ∀ i s size n, k.offer i s size = .ok n → n.1 ≠ 0 → Q (k.advance s n)) (i : ℕ) (s : σ)
    (buffer : List β) : ∃ later, (k.drain i s buffer).states = s :: later ∧ ∀ x ∈ later, Q x := by
  refine drain_induction
    (P := fun _ s _ t => ∃ later, t.states = s :: later ∧ ∀ x ∈ later, Q x) ?_ ?_ ?_ i s buffer
  · exact fun _ s => ⟨[], rfl, nofun⟩
  · exact fun _ s _ _ _ => ⟨[], rfl, nofun⟩
  · rintro i s buffer n t hoffer hn ⟨later, hlater, hQ⟩
    refine ⟨_, congrArg (s :: ·) hlater, fun x hx => ?_⟩
    rcases mem_cons.mp hx with rfl | hx
    · exact advance i s _ n hoffer hn
    · exact hQ x hx

end Sink

/-! ### Positions -/

/-- The elements of a list with consecutive positions. -/
def place (start : ℕ) (l : List β) : List (ℕ × β) := (List.range' start l.length).zip l

theorem place_append (start : ℕ) (l l' : List β) :
    place start (l ++ l') = place start l ++ place (start + l.length) l' := by
  have hrange : List.range' start (l ++ l').length =
      List.range' start l.length ++ List.range' (start + l.length) l'.length := by
    rw [List.length_append, ← List.range'_append, Nat.one_mul]
  rw [place, hrange, List.zip_append List.length_range']
  rfl

namespace Sink

open List

variable {k : Sink ε σ} {pos : σ → ℕ}

/-- The accepted elements with their positions, in the order in which they were accepted. -/
def Trace.placed (t : Trace ε σ β) (pos : σ → ℕ) : List (ℕ × β) :=
  t.writes.flatMap fun w => place (pos w.1) w.2

/-- **Positions.** If the state says where the next piece goes, and moves by the length of what was
accepted, then the accepted elements get consecutive positions, and the loop is always at the end of
what was accepted so far. -/
theorem drain_placed
    (advance : ∀ i s size n, k.offer i s size = .ok n → n.1 ≠ 0 → pos (k.advance s n) = pos s + n)
    (i : ℕ) (s : σ) (buffer : List β) :
    (k.drain i s buffer).placed pos = place (pos s) (k.drain i s buffer).accepted ∧
      ∀ x ∈ (k.drain i s buffer).states,
        ∃ p, p <+: (k.drain i s buffer).accepted ∧ pos x = pos s + p.length := by
  refine drain_induction (P := fun _ s _ t => t.placed pos = place (pos s) t.accepted ∧
    ∀ x ∈ t.states, ∃ p, p <+: t.accepted ∧ pos x = pos s + p.length) ?_ ?_ ?_ i s buffer
  · exact fun _ s => ⟨rfl, fun x hx => ⟨[], nil_prefix, by rw [mem_singleton.mp hx]; rfl⟩⟩
  · exact fun _ s _ _ _ =>
      ⟨rfl, fun x hx => ⟨[], nil_prefix, by rw [mem_singleton.mp hx]; rfl⟩⟩
  · rintro i s buffer n t hoffer hn ⟨hplaced, hstates⟩
    have hlen : (buffer.take n).length = n := length_take_of_le n.2
    have hpos : pos (k.advance s n) = pos s + (buffer.take n).length := by
      rw [hlen]
      exact advance i s _ n hoffer hn
    rw [hpos] at hplaced hstates
    constructor
    · rw [Trace.accepted_after, place_append, ← hplaced]
      rfl
    · intro x hx
      rcases mem_cons.mp hx with rfl | hx
      · exact ⟨[], nil_prefix, rfl⟩
      · obtain ⟨p, hp, hx⟩ := hstates x hx
        refine ⟨buffer.take n ++ p, (prefix_append_right_inj _).mpr hp, ?_⟩
        rw [hx, List.length_append, Nat.add_assoc]

end Sink
