import Snowy.Loop.Machine

/-!
# What the steps of the loop thread leave alone

The invariants of `Snowy.Loop` are about few fields each. The lemmas of this file say once what
user code and `expire()` can do to the fields that the other threads share with the loop, so that
an invariant about these fields is proved without looking at the steps one by one.

## Main results

* `Snowy.Loop.UserStep.sameQueues`, `Snowy.Loop.ExpireStep.sameQueues` : queues, guards and their
  histories are untouched.
* `Snowy.Loop.Reachable.user_eq_none` : the loop thread is inside a suspension only where user
  code runs.
* `Snowy.Loop.Reachable.holds_eq` : `holds_` counts the live guards.
-/

namespace Snowy.Loop

variable {cfg : Config} {s t : State}

/-- The fields that user code and `expire()` leave alone. -/
structure SameQueues (s t : State) : Prop where
  posts : t.loop.posts = s.loop.posts
  messages : t.loop.messages = s.loop.messages
  holds : t.loop.holds = s.loop.holds
  guards : t.guards = s.guards
  posted : t.posted = s.posted
  sent : t.sent = s.sent
  dropped : t.dropped = s.dropped

/-! ### User code -/

theorem UserStep.sameQueues (h : UserStep cfg s t) : SameQueues s t := by
  cases h
  case notify => constructor <;> simp
  case complete => split <;> constructor <;> rfl
  all_goals constructor <;> rfl

theorem UserStep.pc_eq (h : UserStep cfg s t) : t.pc = s.pc := by
  cases h <;> rfl

theorem UserStep.event_le (h : UserStep cfg s t) : s.loop.event ≤ t.loop.event := by
  cases h
  case notify => simp
  case complete => split <;> exact le_rfl
  case inlineWake => exact Nat.le_succ _
  all_goals exact le_rfl

theorem UserStep.calls_subset (h : UserStep cfg s t) : s.calls ⊆ t.calls := by
  cases h
  case streamStop | rootFails => exact List.subset_append_left ..
  all_goals exact List.Subset.refl _

/-! ### The scans of `expire()` -/

theorem ExpireStep.sameQueues (h : ExpireStep cfg s t) : SameQueues s t := by
  cases h
  case interrupt | cancelWait => constructor <;> simp
  all_goals constructor <;> rfl

theorem ExpireStep.calls_eq (h : ExpireStep cfg s t) : t.calls = s.calls := by
  cases h <;> rfl

theorem ExpireStep.user_eq (h : ExpireStep cfg s t) : t.user = s.user := by
  cases h <;> rfl

theorem ExpireStep.stopping_eq (h : ExpireStep cfg s t) : t.loop.stopping = s.loop.stopping := by
  cases h
  case interrupt | cancelWait => simp
  all_goals rfl

/-- `expire()` stays in `expire()` or goes on to the ready queue. -/
theorem ExpireStep.pc_eq (h : ExpireStep cfg s t) :
    ∃ p, s.pc = .expire p ∧ ((∃ q, t.pc = .expire q) ∨ t.pc = .resume cfg.budget) := by
  cases h
  case dueTimer h _ _ _ => exact ⟨_, h, .inl ⟨_, h⟩⟩
  case dueDone h _ => exact ⟨_, h, .inr rfl⟩
  all_goals exact ⟨_, by assumption, .inl ⟨_, rfl⟩⟩

/-! ### The loop thread and its guards -/

/-- The loop thread is in the middle of a suspension only where user code runs. -/
theorem Reachable.user_eq_none (h : Reachable cfg s) : s.pc.isUser = false → s.user = .none := by
  refine h.induction (P := fun s => s.pc.isUser = false → s.user = .none) (fun _ => rfl) ?_
  intro s t a _ hs hstep
  cases hstep with
  | thread h => cases h <;> exact hs
  | user h =>
    rw [h.pc_eq]
    intro hpc
    have hnone := hs hpc
    cases h <;> simp_all
  | run h =>
    cases h
    case expire h =>
      obtain ⟨p, hp, ⟨q, hq⟩ | hq⟩ := h.pc_eq
      · exact fun _ => h.user_eq.trans (hs (by rw [hp]; rfl))
      · simp [hq, Pc.isUser]
    all_goals simp_all [Pc.isUser, State.leave]

/-- `holds_` is the number of live guards. -/
theorem Reachable.holds_eq (h : Reachable cfg s) : s.loop.holds = s.guards.length := by
  refine h.induction (P := fun s => s.loop.holds = s.guards.length) rfl ?_
  intro s t a _ hs hstep
  cases hstep with
  | user h => rw [h.sameQueues.holds, h.sameQueues.guards, hs]
  | thread h =>
    cases h
    case post | send | deliver => simpa only [LoopState.post_eq, LoopState.send_eq] using hs
    case acquire => exact congrArg (· + 1) hs
    case release g hg =>
      change s.loop.holds - 1 = (s.guards.erase g).length
      rw [List.length_erase_of_mem hg, hs]
    all_goals exact hs
  | run h =>
    cases h
    case expire h => rw [h.sameQueues.holds, h.sameQueues.guards, hs]
    case delivery => simpa using hs
    all_goals exact hs

end Snowy.Loop
