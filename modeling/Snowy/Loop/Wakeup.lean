import Snowy.Loop.Frame

/-!
# No lost wakeup

`post` and `message::send` call `wake()` only when they find their queue empty, and the counter
is consumed in `poll`, far from the place where the queues are drained. What makes this right is
the order of one iteration of `run()`: the exchange of `cancel_`, the sample of the queues and the
exit test all come before the wait, and the counter is consumed only after it. So whatever was
published since, say, the sample has left its trace on the counter when the loop waits.

Each kind of publication has its own point of no return and its own invariant.

## Main definitions

* `Snowy.Loop.Pc.clear` : the loop thread has found both queues empty and has not yet waited.
* `Snowy.Loop.Pc.exchanged` : it has exchanged `cancel_` in this iteration and has not yet waited.
* `Snowy.Loop.Pc.tested` : it has decided to go on in this iteration and has not yet waited.

## Main results

* `Snowy.Loop.no_lost_wakeup` : a loop about to wait for ever, or waiting, has a positive counter
  or a publisher that has still to call `wake()`.
-/

namespace Snowy.Loop

open List

variable {cfg : Config} {s t : State}

/-- The loop thread has sampled both queues and found them empty, and has not yet waited. -/
def Pc.clear : Pc → Prop
  | .test posted => posted = false
  | .holds | .stopped => True
  | .branch posted => posted = false
  | .poll delay => delay < 0
  | _ => False

/-- The loop thread is between the exchange of `cancel_` and the wait of the same iteration. -/
def Pc.exchanged : Pc → Prop
  | .expire phase => phase ≠ .exchange
  | .resume _ | .sample | .test _ | .holds | .stopped | .branch _ | .poll _ => True
  | _ => False

/-- The loop thread is between the exit test and the wait of the same iteration. -/
def Pc.tested : Pc → Prop
  | .stopped | .branch _ | .poll _ => True
  | _ => False

/-- The wait is without a bound only when nothing was posted, also where the delay overflows. -/
theorem State.posted_eq_false_of_bound_neg {posted : Bool} {now delay : ℤ} {due : ℕ → ℤ}
    (hd : ∀ d, s.loop.pollDelay due posted now = some d → delay = d) (h : s.bound delay < 0) :
    posted = false := by
  cases posted with
  | false => rfl
  | true =>
    obtain rfl := hd 0 (if_pos (.inr rfl))
    simp [State.bound] at h

/-! ### Posts and messages -/

/-- What has been queued since the sample has left the counter positive. -/
def QueuesSignaled (s : State) : Prop :=
  s.pc.clear → s.loop.posts ≠ [] ∨ s.loop.messages ≠ [] → 0 < s.loop.event

theorem QueuesSignaled.thread {a : ThreadAct} (hs : QueuesSignaled s) (h : ThreadStep s a t) :
    QueuesSignaled t := by
  cases h
  case post | send | deliver =>
    intro hpc _
    have hold := hs hpc
    simp only [LoopState.event_post, LoopState.event_send]
    split
    · exact Nat.succ_pos _
    · exact hold (by tauto)
  case wake | wakeReleased => exact fun _ _ => Nat.succ_pos _
  all_goals exact hs

theorem QueuesSignaled.user (hs : QueuesSignaled s) (h : UserStep cfg s t) : QueuesSignaled t := by
  intro hpc hqueue
  rw [h.pc_eq] at hpc
  rw [h.sameQueues.posts, h.sameQueues.messages] at hqueue
  exact (hs hpc hqueue).trans_le h.event_le

theorem QueuesSignaled.run {a : RunAct} (hs : QueuesSignaled s) (h : RunStep cfg s a t) :
    QueuesSignaled t := by
  cases h
  case expire h =>
    obtain ⟨p, -, ⟨q, hq⟩ | hq⟩ := h.pc_eq <;> simp [QueuesSignaled, Pc.clear, hq]
  case sample hpc =>
    -- The sample itself: it read `false` because both queues were empty.
    intro hclear hqueue
    simp only [Pc.clear, Bool.or_eq_false_iff, Bool.not_eq_false', List.isEmpty_iff] at hclear
    simp [hclear] at hqueue
  case testIdle posted hpc hidle =>
    have hposted : posted = false := by simp_all [State.idle]
    exact fun _ => hs (by rw [hpc]; exact hposted)
  case testBusy hpc _ => exact fun hclear => hs (by rw [hpc]; exact hclear)
  case held hpc _ => exact fun _ => hs (by rw [hpc]; trivial)
  case running hpc _ => exact fun _ => hs (by rw [hpc]; trivial)
  case poll hpc _ hd =>
    exact fun hneg => hs (by rw [hpc]; exact State.posted_eq_false_of_bound_neg hd hneg)
  all_goals exact False.elim

theorem Reachable.queuesSignaled (h : Reachable cfg s) : QueuesSignaled s := by
  refine h.induction (P := QueuesSignaled) False.elim ?_
  intro s t a _ hs hstep
  cases hstep with
  | thread h => exact hs.thread h
  | run h => exact hs.run h
  | user h => exact hs.user h

/-! ### Cancellation -/

/-- A setter of `cancel_` that runs inside the registration of its callback, and has stored. -/
def User.storing : User → Setter → Prop
  | .suspend _ _ (.inline id true _), p => p = .fire id
  | _, _ => False

/-- Each setter of `cancel_` since the exchange has left the counter positive or has still to
call `wake()`. -/
def CancelSignaled (s : State) : Prop :=
  s.pc.exchanged → ∀ p ∈ s.setters, 0 < s.loop.event ∨ .wake p ∈ s.calls ∨ s.user.storing p

theorem CancelSignaled.thread {a : ThreadAct} (hs : CancelSignaled s) (h : ThreadStep s a t) :
    CancelSignaled t := by
  intro hpc p hp
  cases h
  case post | send | deliver =>
    rcases hs hpc p hp with h | h
    · simp only [LoopState.event_post, LoopState.event_send]
      split <;> exact .inl (by omega)
    · exact .inr h
  case stop | fire | release => exact (hs hpc p hp).imp_right (.imp_left (mem_append_left _))
  case store q _ =>
    rcases mem_append.mp hp with hp | hp
    · refine (hs hpc p hp).imp_right (.imp_left fun h => mem_append_left _ ?_)
      exact (mem_erase_of_ne (by simp)).mpr h
    · rw [mem_singleton.mp hp]
      exact .inr (.inl (by simp))
  case wake | wakeReleased => exact .inl (Nat.succ_pos _)
  all_goals exact hs hpc p hp

theorem CancelSignaled.user (hs : CancelSignaled s) (h : UserStep cfg s t) : CancelSignaled t := by
  intro hpc p hp
  rw [h.pc_eq] at hpc
  -- The disjuncts about the counter and the other threads survive every step of user code.
  have keep (hold : 0 < s.loop.event ∨ .wake p ∈ s.calls) :
      0 < t.loop.event ∨ .wake p ∈ t.calls ∨ t.user.storing p :=
    hold.imp (fun h' => h'.trans_le h.event_le) fun h' => .inl (h.calls_subset h')
  cases h
  case inlineStore kind ids id todo huser =>
    rcases mem_append.mp hp with hp | hp
    · rcases hs hpc p hp with h | h | h
      · exact keep (.inl h)
      · exact keep (.inr h)
      · simp [huser, User.storing] at h
    · exact .inr (.inr (mem_singleton.mp hp))
  case inlineWake => exact .inl (Nat.succ_pos _)
  case refuse kind ids stage huser refused =>
    rcases hs hpc p hp with h | h | h
    · exact keep (.inl h)
    · exact keep (.inr h)
    · rcases refused with ⟨rfl, -⟩ | ⟨rfl, -⟩ <;> simp [huser, User.storing] at h
  all_goals
    rcases hs hpc p hp with h | h | h
    · exact keep (.inl h)
    · exact keep (.inr h)
    · simp_all [User.storing]

/-- `cancel_` is set exactly when somebody has set it since the last exchange. -/
theorem Reachable.cancel_eq (h : Reachable cfg s) : s.loop.cancel = !s.setters.isEmpty := by
  refine h.induction (P := fun s => s.loop.cancel = !s.setters.isEmpty) rfl ?_
  intro s t a _ hs hstep
  cases hstep with
  | thread h =>
    cases h
    case post | send | deliver => simpa only [LoopState.post_eq, LoopState.send_eq] using hs
    case store => simp
    all_goals exact hs
  | user h =>
    cases h
    case inlineStore => simp
    case notify => simpa using hs
    case complete => split <;> exact hs
    all_goals exact hs
  | run h =>
    cases h
    case expire h =>
      cases h
      case exchange => rfl
      case interrupt | cancelWait => simpa using hs
      all_goals exact hs
    case failCancel => simp
    case delivery => simpa using hs
    all_goals exact hs

theorem CancelSignaled.run {a : RunAct} (hr : Reachable cfg s) (hs : CancelSignaled s)
    (h : RunStep cfg s a t) : CancelSignaled t := by
  cases h
  case expire h =>
    intro hpc p hp
    cases h
    case exchange => exact absurd hp not_mem_nil
    case clear hunset =>
      have hnone : s.setters = [] := by simpa [hunset] using hr.cancel_eq
      exact absurd (hnone ▸ hp) not_mem_nil
    case dueTimer hs' _ _ _ => exact hs (by rw [hs']; simp [Pc.exchanged]) p hp
    all_goals simpa using hs (by simp_all [Pc.exchanged]) p hp
  case resume hpc _ _ => exact fun _ => hs (by rw [hpc]; trivial)
  case resumed hpc _ _ => exact fun _ => hs (by rw [hpc]; trivial)
  case sample hpc => exact fun _ => hs (by rw [hpc]; trivial)
  case testIdle hpc _ => exact fun _ => hs (by rw [hpc]; trivial)
  case testBusy hpc _ => exact fun _ => hs (by rw [hpc]; trivial)
  case held hpc _ => exact fun _ => hs (by rw [hpc]; trivial)
  case running hpc _ => exact fun _ => hs (by rw [hpc]; trivial)
  case poll hpc _ _ => exact fun _ => hs (by rw [hpc]; trivial)
  all_goals exact fun hpc => absurd hpc (by simp [Pc.exchanged, State.leave])

theorem Reachable.cancelSignaled (h : Reachable cfg s) : CancelSignaled s := by
  refine h.induction (P := CancelSignaled) False.elim ?_
  intro s t a hr hs hstep
  cases hstep with
  | thread h => exact hs.thread h
  | run h => exact hs.run hr h
  | user h => exact hs.user h

/-! ### Guards -/

/-- Each release that has brought `holds_` to zero since the exit test has left the counter
positive or has still to call `wake()`. -/
def ReleaseSignaled (s : State) : Prop :=
  s.pc.tested → ∀ g ∈ s.dropped, 0 < s.loop.event ∨ .released g ∈ s.calls

theorem ReleaseSignaled.thread {a : ThreadAct} (hs : ReleaseSignaled s) (h : ThreadStep s a t) :
    ReleaseSignaled t := by
  intro hpc g hg
  cases h
  case post | send | deliver =>
    rcases hs hpc g hg with h | h
    · simp only [LoopState.event_post, LoopState.event_send]
      split <;> exact .inl (by omega)
    · exact .inr h
  case stop | fire => exact (hs hpc g hg).imp_right (mem_append_left _)
  case store =>
    refine (hs hpc g hg).imp_right fun h => mem_append_left _ ?_
    exact (mem_erase_of_ne (by simp)).mpr h
  case wake | wakeReleased => exact .inl (Nat.succ_pos _)
  case release g' _ =>
    have hmem : g ∈ s.dropped ∨ g = g' := by
      dsimp only at hg
      split at hg
      · simpa using hg
      · exact .inl hg
    rcases hmem with hmem | rfl
    · exact (hs hpc g hmem).imp_right (mem_append_left _)
    · exact .inr (by simp)
  all_goals exact hs hpc g hg

theorem ReleaseSignaled.user (hs : ReleaseSignaled s) (h : UserStep cfg s t) :
    ReleaseSignaled t := by
  intro hpc g hg
  rw [h.pc_eq] at hpc
  rw [h.sameQueues.dropped] at hg
  exact (hs hpc g hg).imp (·.trans_le h.event_le) (h.calls_subset ·)

theorem ReleaseSignaled.run {a : RunAct} (hs : ReleaseSignaled s) (h : RunStep cfg s a t) :
    ReleaseSignaled t := by
  cases h
  case expire h =>
    obtain ⟨p, -, ⟨q, hq⟩ | hq⟩ := h.pc_eq <;> simp [ReleaseSignaled, Pc.tested, hq]
  case testBusy => exact fun _ g hg => absurd hg not_mem_nil
  case held => exact fun _ g hg => absurd hg not_mem_nil
  case running hpc _ => exact fun _ => hs (by rw [hpc]; trivial)
  case poll hpc _ _ => exact fun _ => hs (by rw [hpc]; trivial)
  all_goals exact False.elim

theorem Reachable.releaseSignaled (h : Reachable cfg s) : ReleaseSignaled s := by
  refine h.induction (P := ReleaseSignaled) False.elim ?_
  intro s t a _ hs hstep
  cases hstep with
  | thread h => exact hs.thread h
  | run h => exact hs.run h
  | user h => exact hs.user h

/-! ### The wait -/

/-- **No lost wakeup.** In every interleaving, when the loop thread is about to wait in `poll`
without a bound, or waits there:

* a queued function or message has left the counter positive;
* if `cancel_` is set, somebody has set it since the exchange of this iteration, and each such
  setter has left the counter positive or has still to call `wake()`;
* each release that has brought `holds_` to zero since the exit test has left the counter
  positive or has still to call `wake()`. -/
theorem no_lost_wakeup (h : Reachable cfg s) {delay : ℤ} (hpc : s.pc = .poll delay)
    (hneg : delay < 0) :
    (s.loop.posts ≠ [] ∨ s.loop.messages ≠ [] → 0 < s.loop.event) ∧
    (s.loop.cancel = true →
      s.setters ≠ [] ∧ ∀ p ∈ s.setters, 0 < s.loop.event ∨ .wake p ∈ s.calls) ∧
    ∀ g ∈ s.dropped, 0 < s.loop.event ∨ .released g ∈ s.calls := by
  refine ⟨h.queuesSignaled (by rw [hpc]; exact hneg), fun hcancel => ⟨?_, fun p hp => ?_⟩,
    h.releaseSignaled (by rw [hpc]; trivial)⟩
  · rintro hnone
    simp [h.cancel_eq, hnone] at hcancel
  · have huser : s.user = .none := h.user_eq_none (by rw [hpc]; rfl)
    rcases h.cancelSignaled (by rw [hpc]; trivial) p hp with hp | hp | hp
    · exact .inl hp
    · exact .inr hp
    · simp [huser, User.storing] at hp

/-- An idle loop kept by a guard, waiting without a bound when a function is posted and the guard
is destroyed. -/
def waitingState : State :=
  { loop := { posts := [7], event := 1 }, posted := [7], calls := [.released 0], dropped := [0],
    pc := .poll (-1) }

theorem reachable_waitingState : Reachable {} waitingState := by
  refine reachable_leavingState.trans ?_
  refine .head ⟨_, trivial, .run (.held rfl (by decide))⟩ ?_
  refine .head ⟨_, trivial, .run (.running rfl rfl)⟩ ?_
  refine .head ⟨_, trivial, .run (.poll 0 (-1) false rfl (by decide) fun _ => Option.some.inj)⟩ ?_
  refine .head ⟨_, trivial, .thread (.post 7 not_mem_nil)⟩ ?_
  exact .single ⟨_, trivial, .thread (.release 0 (mem_singleton_self 0))⟩

theorem no_lost_wakeup_waitingState :
    Reachable {} waitingState ∧ waitingState.pc = .poll (-1) ∧ 0 < waitingState.loop.event ∧
      ∀ g ∈ waitingState.dropped,
        0 < waitingState.loop.event ∨ .released g ∈ waitingState.calls := by
  have h := no_lost_wakeup reachable_waitingState rfl (by decide)
  exact ⟨reachable_waitingState, rfl, h.1 (.inl (by decide)), h.2.2⟩

end Snowy.Loop
