import Snowy.Loop.WellFormed

/-!
# Guards and the exit test

A guard made by `keep_alive` should keep `run()` from returning until the guard is destroyed, so
that a thread which posts under a guard can rely on its function being run. The exit test of
`run()` reads two things at two instants: whether something is queued, under the mutex, and then
`holds_`. A thread that posts between the two reads and destroys the last guard before the second
one is overlooked by both, and `run()` returns with the function queued.

This is the only way: when no guard is the last one to go in that window while something is
queued, what was posted or sent under a guard is never left behind.

## Main definitions

* `Snowy.Loop.State.Leaving` : the window between the two reads.
* `Snowy.Loop.ReleasedInTime` : the condition on the destruction of guards.
* `Snowy.Loop.ThreadAct.Queued` : what the action has published is still queued.

## Main results

* `Snowy.Loop.exists_exit_with_post_queued` : a run that returns with a guarded post queued.
* `Snowy.Loop.not_queued_of_exit` : under the condition on guards this never happens.
* `Snowy.Loop.exists_exit_of_release` : every violation of the condition lets `run()` return.
-/

namespace Snowy.Loop

open List

variable {cfg : Config} {s t : State}

/-- What the step has published is still in `posts_` or `messages_`. -/
def ThreadAct.Queued : ThreadAct → State → Prop
  | .post fn, s => fn ∈ s.loop.posts
  | .send m, s => m ∈ s.loop.messages
  | .deliver id _, s => .wait id ∈ s.loop.messages
  | _, _ => False

/-- The loop thread has sampled the queues and found them empty, nothing else keeps it in `run()`,
and it has still to read `holds_`. -/
def State.Leaving (s : State) : Prop :=
  s.pc = .holds ∨ s.pc = .test false ∧ s.idle false = true

/-- No guard brings `holds_` to zero while the loop thread is leaving with something queued. -/
def ReleasedInTime (s : State) (act : Act) : Prop :=
  ∀ g, act = .thread (.release g) → s.Leaving → s.loop.holds = 1 →
    s.loop.posts = [] ∧ s.loop.messages = []

/-! ### A post that is left behind -/

/-- No stop is requested and no exception leaves `run()`. -/
def Undisturbed (_ : State) (act : Act) : Prop :=
  act ≠ .thread .stop ∧ act ≠ .run .pollThrows ∧ act ≠ .run .cancelThrows

/-- **A guarded post can be left behind.** A thread holds its guard from before `run()` starts
until after its post has returned, nobody requests a stop and nothing throws, and yet `run()`
returns with the function queued. -/
theorem exists_exit_with_post_queued :
    ∃ s₀ s₁ s₂ s₃ s₄ : State, Reachable {} s₀ ∧ s₀.pc = .outside ∧ 0 ∈ s₀.guards ∧
      Steps {} (fun s act => Undisturbed s act ∧ act ≠ .thread (.release 0)) s₀ s₁ ∧
      ThreadStep s₁ (.post 7) s₂ ∧ Steps {} Undisturbed s₂ s₃ ∧
      s₃.loop.stopping = false ∧ RunStep {} s₃ .exit s₄ ∧ 7 ∈ s₄.loop.posts := by
  exact ⟨guardedState, leavingState, _, _, _, reachable_guardedState, rfl,
    mem_singleton_self 0, steps_leavingState (by simp [Undisturbed]),
    .post 7 not_mem_nil,
    .single ⟨.thread (.release 0), by simp [Undisturbed],
      .thread (.release 0 (mem_singleton_self 0))⟩,
    rfl, .released rfl rfl, mem_singleton_self 7⟩

/-! ### What is published once is queued once

A function and a message object are published by one step. The message of a `remote_wait` is
published by the step that unlinks it, and it is linked once in its life.
-/

/-- A linked operation is not being suspended on. -/
theorem Reachable.not_mem_unlinked (h : Reachable cfg s) {id : ℕ}
    (hl : (s.op id).linked = true) : id ∉ s.user.unlinked := by
  intro hun
  cases hu : s.user with
  | none => simp [hu, User.unlinked] at hun
  | suspend kind ids stage =>
    have hfresh := h.wellFormed.unlinked kind (by rw [hu]; rfl) id hun
    simp [hfresh.linked] at hl

/-- The object that the step publishes cannot be published again. -/
def ThreadAct.Published : ThreadAct → State → Prop
  | .post fn, s => fn ∈ s.posted
  | .send m, s => m ∈ s.sent ∧ ∃ n, m = .hop n
  | .deliver id _, s => (s.op id).linked = false ∧ id < s.next ∧ id ∉ s.user.unlinked
  | _, _ => True

theorem ThreadStep.published {a : ThreadAct} (hr : Reachable cfg s) (h : ThreadStep s a t) :
    a.Published t := by
  cases h
  case post | send => simp_all [ThreadAct.Published]
  case deliver id error linked =>
    exact ⟨by simp, hr.wellFormed.linked id linked, hr.not_mem_unlinked linked⟩
  all_goals trivial

/-- The histories grow. -/
theorem Step.histories {a : Act} (h : Step cfg s a t) : s.posted ⊆ t.posted ∧ s.sent ⊆ t.sent := by
  cases h with
  | thread h =>
    cases h
    case post | send | deliver => simp
    all_goals exact ⟨List.Subset.refl _, List.Subset.refl _⟩
  | user h => rw [h.sameQueues.posted, h.sameQueues.sent]; simp
  | run h =>
    cases h
    case expire h => rw [h.sameQueues.posted, h.sameQueues.sent]; simp
    all_goals exact ⟨List.Subset.refl _, List.Subset.refl _⟩

theorem ThreadAct.Published.step {a : ThreadAct} {b : Act} (hr : Reachable cfg s)
    (hs : a.Published s) (h : Step cfg s b t) : a.Published t := by
  cases a
  case post fn => exact h.histories.1 hs
  case send m => exact ⟨h.histories.2 hs.1, hs.2⟩
  case deliver id error =>
    obtain ⟨hl, hnext, hun⟩ := hs
    have hlink := h.relinks hr id
    refine ⟨Bool.eq_false_iff.mpr fun hl' => ?_, hnext.trans_le hlink.next, fun hun' => ?_⟩
    · rcases hlink.linked hl' with hl' | ⟨hun', -⟩
      · simp [hl] at hl'
      · exact hun hun'
    · rcases hlink.unlinked hun' with hun' | hun'
      · exact hun hun'
      · omega
  all_goals trivial

theorem ThreadAct.Queued.mono {a : ThreadAct} (ht : a.Queued t)
    (hposts : t.loop.posts ⊆ s.loop.posts) (hmessages : t.loop.messages ⊆ s.loop.messages) :
    a.Queued s := by
  cases a
  case post fn => exact hposts ht
  case send m => exact hmessages ht
  case deliver id error => exact hmessages ht
  all_goals exact ht

/-- The loop thread only takes from the queues. -/
theorem RunStep.queues_subset {a : RunAct} (h : RunStep cfg s a t) :
    t.loop.posts ⊆ s.loop.posts ∧ t.loop.messages ⊆ s.loop.messages := by
  cases h
  case expire h => rw [h.sameQueues.posts, h.sameQueues.messages]; simp
  case drain => exact ⟨nil_subset _, (drop_sublist ..).subset⟩
  case delivery => simp
  all_goals exact ⟨List.Subset.refl _, List.Subset.refl _⟩

/-- What has been published does not enter the queues a second time. -/
theorem ThreadAct.Published.queued {a : ThreadAct} {b : Act} (hs : a.Published s)
    (h : Step cfg s b t) (ht : a.Queued t) : a.Queued s := by
  cases h with
  | thread h =>
    cases h
    case post fn fresh =>
      rw [LoopState.post_eq] at ht
      cases a
      case post fn' =>
        have hne : fn' ≠ fn := fun h => fresh (h ▸ hs)
        simpa [ThreadAct.Queued, hne] using ht
      all_goals exact ht
    case send m fresh hop =>
      rw [LoopState.send_eq] at ht
      cases a
      case send m' =>
        have hne : m' ≠ m := fun h => fresh (h ▸ hs.1)
        simpa [ThreadAct.Queued, hne] using ht
      case deliver id error =>
        obtain ⟨n, rfl⟩ := hop
        simpa [ThreadAct.Queued] using ht
      all_goals exact ht
    case deliver id error linked =>
      rw [LoopState.send_eq] at ht
      cases a
      case send m' =>
        obtain ⟨-, n, rfl⟩ := hs
        simpa [ThreadAct.Queued] using ht
      case deliver id' error' =>
        have hne : id' ≠ id := by
          rintro rfl
          simp [hs.1] at linked
        simpa [ThreadAct.Queued, hne] using ht
      all_goals exact ht
    all_goals exact ht.mono (List.Subset.refl _) (List.Subset.refl _)
  | user h =>
    refine ht.mono ?_ ?_
    · rw [h.sameQueues.posts]
      exact List.Subset.refl _
    · rw [h.sameQueues.messages]
      exact List.Subset.refl _
  | run h => exact ht.mono h.queues_subset.1 h.queues_subset.2

/-! ### The window of the exit test -/

/-- While the loop thread is leaving with the published object queued, some guard is alive. -/
def Held (a : ThreadAct) (s : State) : Prop := s.Leaving → a.Queued s → 0 < s.loop.holds

/-- The other threads do not change what the exit test looks at. -/
theorem ThreadStep.leaving {a : ThreadAct} (h : ThreadStep s a t) (ht : t.Leaving) : s.Leaving := by
  cases h
  case post | send | deliver =>
    simp only [LoopState.post_eq, LoopState.send_eq] at ht
    exact ht
  all_goals exact ht

theorem Held.thread {a b : ThreadAct} (hpub : a.Published s) (hs : Held a s)
    (hb : ReleasedInTime s (.thread b)) (h : ThreadStep s b t) : Held a t := by
  intro hleave hqueue
  have hleave := h.leaving hleave
  have hstep : Step {} s (.thread b) t := .thread h
  have hqueue := hpub.queued hstep hqueue
  have hpos := hs hleave hqueue
  cases h
  case post | send | deliver => simpa only [LoopState.post_eq, LoopState.send_eq] using hpos
  case acquire => exact Nat.succ_pos _
  case release g hg =>
    -- Otherwise this is the last guard, and the condition says that nothing is queued.
    change 0 < s.loop.holds - 1
    by_contra hlast
    obtain ⟨hposts, hmessages⟩ := hb g rfl hleave (by omega)
    cases a <;> simp_all [ThreadAct.Queued]
  all_goals exact hpos

theorem Held.run {a : ThreadAct} {b : RunAct} (hpub : a.Published s) (hs : Held a s)
    (h : RunStep cfg s b t) : Held a t := by
  intro hleave hqueue
  have hold := hpub.queued (.run h) hqueue
  cases h
  case expire h =>
    obtain ⟨p, -, ⟨q, hq⟩ | hq⟩ := h.pc_eq <;> simp [State.Leaving, hq] at hleave
  case sample hpc =>
    -- The sample has found both queues empty.
    have hempty : s.loop.posts = [] ∧ s.loop.messages = [] := by
      simpa [State.Leaving] using hleave.resolve_left (by simp) |>.1
    cases a <;> simp_all [ThreadAct.Queued]
  case testIdle posted hpc hidle =>
    have hposted : posted = false := by simp_all [State.idle]
    subst hposted
    exact hs (.inr ⟨hpc, hidle⟩) hold
  all_goals simp [State.Leaving, State.leave] at hleave

theorem Held.step {a : ThreadAct} {b : Act} (hr : Reachable cfg s) (hpub : a.Published s)
    (hs : Held a s) (hb : ReleasedInTime s b) (h : Step cfg s b t) : Held a t := by
  cases h with
  | thread h => exact hs.thread hpub hb h
  | run h => exact hs.run hpub h
  | user h =>
    intro hleave
    have huser := h.isUser hr
    rw [← h.pc_eq] at huser
    rcases hleave with hpc | ⟨hpc, -⟩ <;> simp [hpc, Pc.isUser] at huser

theorem Held.steps {a : ThreadAct} (hr : Reachable cfg s) (hpub : a.Published s) (hs : Held a s)
    (h : Steps cfg ReleasedInTime s t) : Held a t := by
  suffices a.Published t ∧ Held a t from this.2
  induction h with
  | refl => exact ⟨hpub, hs⟩
  | tail hsteps hstep ih =>
    obtain ⟨b, hb, hstep⟩ := hstep
    have hr := Steps.reachable hsteps hr
    exact ⟨ih.1.step hr hstep, ih.2.step hr ih.1 hb hstep⟩

/-! ### The exit -/

/-- **A guarded post is not left behind**, when the guards are released in time. A thread publishes
a function or a message while a guard is alive, in any state of any interleaving. In every run
from there in which no guard brings `holds_` to zero while the loop thread is leaving with
something queued, a normal return of `run()` without a stop finds the published object gone from
the queues. -/
theorem not_queued_of_exit {a : ThreadAct} {g : ℕ} {s₁ s₂ s₃ s₄ : State} (hr : Reachable cfg s₁)
    (hguard : g ∈ s₁.guards) (hpost : ThreadStep s₁ a s₂) (hsteps : Steps cfg ReleasedInTime s₂ s₃)
    (hrun : s₃.loop.stopping = false) (hexit : RunStep cfg s₃ .exit s₄) : ¬ a.Queued s₄ := by
  have hr₂ : Reachable cfg s₂ := hr.tail ⟨_, trivial, .thread hpost⟩
  have hpub : a.Published s₂ := hpost.published hr
  have hheld : Held a s₂ := by
    intro _ hqueue
    -- A publication is not a release: the guard is still alive after it.
    have hguards : g ∈ s₂.guards := by
      cases hpost
      case release => exact hqueue.elim
      case acquire => exact mem_cons_of_mem _ hguard
      all_goals exact hguard
    rw [hr₂.holds_eq]
    exact length_pos_of_mem hguards
  have hheld₃ := hheld.steps hr₂ hpub hsteps
  cases hexit with
  | released hpc zero =>
    intro hqueue
    have hpos := hheld₃ (.inl hpc) (hqueue.mono (List.Subset.refl _) (List.Subset.refl _))
    omega
  | stopExit _ stop => simp [hrun] at stop

/-- The state after a post to the idle loop that was leaving. -/
def postedState : State := { leavingState with loop := leavingState.loop.post 7, posted := [7] }

/-- The state in which the loop has run the function, its guard is gone, and it is leaving. -/
def servedState : State :=
  { calls := [.released 0], dropped := [0], posted := [7], ran := [7], pc := .holds }

theorem steps_servedState : Steps {} ReleasedInTime postedState servedState := by
  have next {s : State} : ReleasedInTime s (.run .next) := fun _ h => by cases h
  refine .head ⟨_, next, .run (.held rfl (by decide))⟩ ?_
  refine .head ⟨_, next, .run (.running rfl rfl)⟩ ?_
  refine .head ⟨_, next, .run (.poll 0 (-1) false rfl (by decide) fun _ => Option.some.inj)⟩ ?_
  refine .head ⟨_, next, .run (.waited _ true rfl rfl fun _ => by decide)⟩ ?_
  refine .head ⟨_, next, .run (.retired true rfl rfl)⟩ ?_
  refine .head ⟨_, next, .run (.drain rfl)⟩ ?_
  refine .head ⟨_, next, .run (.function 7 [] [] rfl rfl)⟩ ?_
  refine .head ⟨.thread (.release 0), fun _ _ h => by simp [State.Leaving] at h,
    .thread (.release 0 (mem_singleton_self 0))⟩ ?_
  refine .head ⟨_, next, .run (.batchDone [] rfl rfl)⟩ ?_
  refine .head ⟨_, next, .run (.messagesDone rfl rfl)⟩ ?_
  refine .head ⟨_, next, .run (.expire _ (.clear 0 rfl rfl))⟩ ?_
  refine .head ⟨_, next, .run (.expire _ (.dueDone 0 rfl fun _ h => by cases h))⟩ ?_
  refine .head ⟨_, next, .run (.resumed 64 rfl rfl (.inr rfl))⟩ ?_
  refine .head ⟨_, next, .run (.sample rfl)⟩ ?_
  exact .single ⟨_, next, .run (.testIdle false rfl rfl)⟩

/-- The condition at work: the post comes when the loop thread is leaving, and the guard goes
while the function runs. -/
theorem not_queued_of_exit_servedState :
    Reachable {} leavingState ∧ 0 ∈ leavingState.guards ∧
      ThreadStep leavingState (.post 7) postedState ∧
      Steps {} ReleasedInTime postedState servedState ∧ servedState.loop.stopping = false ∧
      RunStep {} servedState .exit servedState.leave ∧
      ¬ (ThreadAct.post 7).Queued servedState.leave := by
  have hr : Reachable {} leavingState := reachable_leavingState
  have hguard : 0 ∈ leavingState.guards := mem_singleton_self 0
  have hpost : ThreadStep leavingState (.post 7) postedState := .post 7 not_mem_nil
  have hexit : RunStep {} servedState .exit servedState.leave := .released rfl rfl
  exact ⟨hr, hguard, hpost, steps_servedState, rfl, hexit,
    not_queued_of_exit hr hguard hpost steps_servedState rfl hexit⟩

/-- The condition excludes nothing else: whenever the last guard goes while the loop thread is
leaving with something queued, `run()` can return at once and leave it behind. -/
theorem exists_exit_of_release {g : ℕ} {s : State} (hleave : s.Leaving) (hlast : s.loop.holds = 1)
    (h : ThreadStep s (.release g) t) :
    ∃ u v, Steps cfg (fun _ act => act = .run .next) t u ∧ RunStep cfg u .exit v ∧
      v.loop.posts = s.loop.posts ∧ v.loop.messages = s.loop.messages := by
  cases h
  rcases hleave with hpc | ⟨hpc, hidle⟩
  · exact ⟨_, _, .refl, .released hpc (by simp [hlast]), rfl, rfl⟩
  · exact ⟨_, _, .single ⟨_, rfl, .run (.testIdle false hpc hidle)⟩,
      .released rfl (by simp [hlast]), rfl, rfl⟩

end Snowy.Loop
