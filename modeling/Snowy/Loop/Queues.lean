import Snowy.Loop.Frame

/-!
# Posts and messages run exactly once and in order

`run()` swaps the vector `posts_` with a local batch and detaches a bounded number of messages into
a local queue. Both are worked off before anything else can end `run()`: functions that throw are
caught one by one, and messages do not throw. So what has been posted is at every moment what has
been run, followed by the local batch, followed by `posts_`; and outside that part of an iteration
there is no local batch. Functions and messages that are queued meanwhile, by any thread or by the
functions themselves, go to the ends of `posts_` and `messages_`.

## Main definitions

* `Snowy.Loop.Pc.batch` : the functions of the local batch that have not run.
* `Snowy.Loop.Accounted` : the invariant.

## Main results

* `Snowy.Loop.Reachable.accounted` : the invariant holds in every state of every interleaving.
* `Snowy.Loop.steps_batch` : the loop thread runs its whole batch, whichever functions throw.
* `Snowy.Loop.queues_run_in_order` : exactly-once execution, in order, and the errors of `run()`.
-/

namespace Snowy.Loop

open List

variable {cfg : Config} {s t : State}

/-- The functions of the local batch that have not run. -/
def Pc.batch : Pc → List ℕ
  | .posts batch _ | .fail _ batch _ => batch
  | _ => []

/-- Nothing that was posted or sent is lost or run twice, and `error_` is the first failure since
`run()` has last returned normally. -/
structure Accounted (s : State) : Prop where
  posts : s.posted = s.ran ++ s.pc.batch ++ s.loop.posts
  messages : s.sent = s.delivered ++ s.pc.detached ++ s.loop.messages
  error : s.error = s.failures.head?

/-! ### The steps -/

theorem UserStep.ran_eq (h : UserStep cfg s t) : t.ran = s.ran ∧ t.delivered = s.delivered := by
  cases h <;> exact ⟨rfl, rfl⟩

/-- Of the steps of user code only the failure of a root is recorded. -/
theorem UserStep.error_eq (h : UserStep cfg s t) : t.error = s.error ∧ t.failures = s.failures ∨
    ∃ e, t.error = s.error.or (some e) ∧ t.failures = s.failures ++ [e] := by
  cases h
  case rootFails e _ _ => exact .inr ⟨e, rfl, rfl⟩
  all_goals exact .inl ⟨rfl, rfl⟩

theorem ExpireStep.records_eq (h : ExpireStep cfg s t) : t.ran = s.ran ∧ t.delivered = s.delivered ∧
    t.error = s.error ∧ t.failures = s.failures := by
  cases h <;> exact ⟨rfl, rfl, rfl, rfl⟩

theorem ExpireStep.batch_eq (h : ExpireStep cfg s t) : s.pc.batch = [] ∧ s.pc.detached = [] ∧
    t.pc.batch = [] ∧ t.pc.detached = [] := by
  obtain ⟨p, hp, ⟨q, hq⟩ | hq⟩ := h.pc_eq
  · rw [hp, hq]
    exact ⟨rfl, rfl, rfl, rfl⟩
  · rw [hp, hq]
    exact ⟨rfl, rfl, rfl, rfl⟩

/-- Recording a failure keeps `error_` the first of them. -/
theorem head?_append_of_error {error : Option ℕ} {failures : List ℕ} (h : error = failures.head?)
    (e : ℕ) : error.or (some e) = (failures ++ [e]).head? := by
  cases failures with
  | nil => rw [h]; rfl
  | cons e' failures => rw [h]; rfl

theorem Accounted.thread {a : ThreadAct} (hs : Accounted s) (h : ThreadStep s a t) :
    Accounted t := by
  obtain ⟨hposts, hmessages, herror⟩ := hs
  cases h
  case post fn fresh =>
    refine ⟨?_, ?_, herror⟩
    · simp [LoopState.post_eq, hposts]
    · simpa [LoopState.post_eq] using hmessages
  case send m fresh hop =>
    refine ⟨?_, ?_, herror⟩
    · simpa [LoopState.send_eq] using hposts
    · simp [LoopState.send_eq, hmessages]
  case deliver id error linked =>
    refine ⟨?_, ?_, herror⟩
    · simpa [LoopState.send_eq] using hposts
    · simp [LoopState.send_eq, hmessages]
  all_goals exact ⟨hposts, hmessages, herror⟩

theorem Accounted.user (hs : Accounted s) (h : UserStep cfg s t) : Accounted t := by
  have hq := h.sameQueues
  obtain ⟨hran, hdelivered⟩ := h.ran_eq
  refine ⟨?_, ?_, ?_⟩
  · rw [hq.posted, hq.posts, h.pc_eq, hran, hs.posts]
  · rw [hq.sent, hq.messages, h.pc_eq, hdelivered, hs.messages]
  · rcases h.error_eq with ⟨herror, hfailures⟩ | ⟨e, herror, hfailures⟩
    · rw [herror, hfailures, hs.error]
    · rw [herror, hfailures]
      exact head?_append_of_error hs.error e

theorem Accounted.expire (hs : Accounted s) (h : ExpireStep cfg s t) : Accounted t := by
  have hq := h.sameQueues
  obtain ⟨hran, hdelivered, herror, hfailures⟩ := h.records_eq
  obtain ⟨hbatch, hdetached, hbatch', hdetached'⟩ := h.batch_eq
  refine ⟨?_, ?_, ?_⟩
  · rw [hq.posted, hq.posts, hran, hbatch', ← hbatch, hs.posts]
  · rw [hq.sent, hq.messages, hdelivered, hdetached', ← hdetached, hs.messages]
  · rw [herror, hfailures, hs.error]

/-- The steps of `run()`: each one moves the head of a local queue to its history, moves the queues
into local ones, or leaves all of them alone. -/
theorem Accounted.run {a : RunAct} (hs : Accounted s) (h : RunStep cfg s a t) : Accounted t := by
  obtain ⟨hposts, hmessages, herror⟩ := id hs
  cases h
  case expire h => exact hs.expire h
  case functionThrows e fn batch msgs h idle =>
    rw [h] at hposts hmessages
    refine ⟨?_, ?_, head?_append_of_error herror e⟩
    · simpa [Pc.batch] using hposts
    · simpa [Pc.detached] using hmessages
  case pollThrows h idle =>
    rcases h with ⟨delay, h⟩ | ⟨wake, h⟩
    all_goals
      rw [h] at hposts hmessages
      exact ⟨hposts, hmessages, herror⟩
  case released h _ | stopExit h _ =>
    rw [h] at hposts hmessages
    exact ⟨hposts, hmessages, rfl⟩
  all_goals
    have hpc := ‹s.pc = _›
    rw [hpc] at hposts hmessages
    refine ⟨?_, ?_, herror⟩
    · simpa [Pc.batch, LoopState.wake] using hposts
    · simpa [Pc.detached, LoopState.wake] using hmessages

/-- The invariant holds in every state of every interleaving. -/
theorem Reachable.accounted (h : Reachable cfg s) : Accounted s := by
  refine h.induction ⟨rfl, rfl, rfl⟩ ?_
  intro s t a _ hs hstep
  cases hstep with
  | thread h => exact hs.thread h
  | run h => exact hs.run h
  | user h => exact hs.user h

/-! ### Batches -/

/-- The batch is worked off from its head, whatever the threads and the functions do. -/
theorem Step.batch_eq {a : Act} (h : Step cfg s a t) (hbatch : s.pc.batch ≠ []) :
    t.pc.batch = s.pc.batch ∧ t.ran = s.ran ∨
      ∃ fn, s.pc.batch = fn :: t.pc.batch ∧ t.ran = s.ran ++ [fn] := by
  cases h with
  | thread h => cases h <;> exact .inl ⟨rfl, rfl⟩
  | user h =>
    rw [h.pc_eq]
    exact .inl ⟨rfl, h.ran_eq.1⟩
  | run h =>
    cases h
    case expire h => exact absurd h.batch_eq.1 hbatch
    case function fn batch msgs h idle | functionThrows e fn batch msgs h idle =>
      rw [h]
      exact .inr ⟨fn, rfl, rfl⟩
    case pollThrows h idle =>
      rcases h with ⟨delay, h⟩ | ⟨wake, h⟩
      all_goals
        rw [h] at hbatch
        exact absurd rfl hbatch
    case failStop h | failCancel h | failWake h =>
      rw [h]
      exact .inl ⟨rfl, rfl⟩
    all_goals
      have hpc := ‹s.pc = _›
      rw [hpc] at hbatch
      exact absurd rfl hbatch

/-- The loop thread runs the functions of its batch, whichever of them throw, and is then at the end
of the batch. -/
theorem steps_batch (throws : ℕ → Option ℕ) {batch : List ℕ} {msgs : List Message}
    (hpc : s.pc = .posts batch msgs) (huser : s.user = .none) :
    ∃ t, Steps cfg (fun _ a => a = .run .next) s t ∧ t.pc = .posts [] msgs ∧
      t.ran = s.ran ++ batch ∧ t.failures = s.failures ++ batch.filterMap throws := by
  induction batch generalizing s with
  | nil => exact ⟨s, .refl, hpc, (append_nil _).symm, (append_nil _).symm⟩
  | cons fn batch ih =>
    cases hthrow : throws fn with
    | none =>
      have hstep : RunStep cfg s .next { s with pc := .posts batch msgs, ran := s.ran ++ [fn] } :=
        .function fn batch msgs hpc huser
      obtain ⟨t, hsteps, ht, hran, hfailures⟩ :=
        ih (s := { s with pc := .posts batch msgs, ran := s.ran ++ [fn] }) rfl huser
      refine ⟨t, .head ⟨_, rfl, .run hstep⟩ hsteps, ht, ?_, ?_⟩
      · rw [hran, append_assoc]
        rfl
      · rw [hfailures, filterMap_cons_none hthrow]
    | some e =>
      -- after the throw the loop thread stops the loop, and goes on with the batch
      let s₁ : State :=
        { s with
          pc := .fail .stopping batch msgs
          error := s.error.or (some e)
          ran := s.ran ++ [fn]
          failures := s.failures ++ [e] }
      let s₂ : State :=
        { s₁ with loop := { s₁.loop with stopping := true }, pc := .fail .cancel batch msgs }
      let s₃ : State :=
        { s₂ with
          loop := { s₂.loop with cancel := true }
          pc := .fail .wake batch msgs
          setters := s₂.setters ++ [.stop] }
      let s₄ : State := { s₃ with loop := s₃.loop.wake, pc := .posts batch msgs }
      have h₁ : RunStep cfg s .next s₁ := .functionThrows e fn batch msgs hpc huser
      have h₂ : RunStep cfg s₁ .next s₂ := .failStop batch msgs rfl
      have h₃ : RunStep cfg s₂ .next s₃ := .failCancel batch msgs rfl
      have h₄ : RunStep cfg s₃ .next s₄ := .failWake batch msgs rfl
      obtain ⟨t, hsteps, ht, hran, hfailures⟩ := ih (s := s₄) rfl huser
      refine ⟨t, ?_, ht, ?_, ?_⟩
      · exact .head ⟨_, rfl, .run h₁⟩ (.head ⟨_, rfl, .run h₂⟩
          (.head ⟨_, rfl, .run h₃⟩ (.head ⟨_, rfl, .run h₄⟩ hsteps)))
      · rw [hran]
        exact (append_assoc ..)
      · rw [hfailures, filterMap_cons_some hthrow]
        exact (append_assoc ..)

/-! ### Results -/

/-- **Posts and messages run exactly once and in order.** In every state of every interleaving, the
functions that have run, those of the local batch that have not, and `posts_` are together the
posted functions in the order of their posts, and the same holds for messages. Outside the part of
an iteration in which `run()` works off its local batch there is none, in particular whenever
`run()` has ended, by an exception or not. A batch is worked off from its head, whatever happens
meanwhile, and a function that throws does not keep the loop thread from running the others. A
normal return of `run()` throws the first failure since the last such return. -/
theorem queues_run_in_order (h : Reachable cfg s) :
    s.posted = s.ran ++ s.pc.batch ++ s.loop.posts ∧
    s.sent = s.delivered ++ s.pc.detached ++ s.loop.messages ∧
    ((∀ batch msgs, s.pc ≠ .posts batch msgs) →
      (∀ stage batch msgs, s.pc ≠ .fail stage batch msgs) →
      (∀ msgs, s.pc ≠ .messages msgs) →
      s.posted = s.ran ++ s.loop.posts ∧ s.sent = s.delivered ++ s.loop.messages) ∧
    (∀ a t, Step cfg s a t → s.pc.batch ≠ [] → t.pc.batch = s.pc.batch ∧ t.ran = s.ran ∨
      ∃ fn, s.pc.batch = fn :: t.pc.batch ∧ t.ran = s.ran ++ [fn]) ∧
    (∀ batch msgs, s.pc = .posts batch msgs → s.user = .none → ∀ throws : ℕ → Option ℕ,
      ∃ t, Steps cfg (fun _ a => a = .run .next) s t ∧ t.pc = .posts [] msgs ∧
        t.ran = s.ran ++ batch ∧ t.failures = s.failures ++ batch.filterMap throws) ∧
    ∀ t, Step cfg s (.run .exit) t →
      t.raised = s.raised ++ [s.failures.head?] ∧ t.failures = [] := by
  have hs := h.accounted
  refine ⟨hs.posts, hs.messages, fun hposts hfail hmessages => ?_, fun a t ht => ht.batch_eq,
    fun batch msgs hpc huser throws => steps_batch throws hpc huser, fun t ht => ?_⟩
  · have hbatch : s.pc.batch = [] := by
      cases hpc : s.pc with
      | posts batch msgs => exact absurd hpc (hposts batch msgs)
      | fail stage batch msgs => exact absurd hpc (hfail stage batch msgs)
      | _ => rfl
    have hdetached : s.pc.detached = [] := by
      cases hpc : s.pc with
      | posts batch msgs => exact absurd hpc (hposts batch msgs)
      | fail stage batch msgs => exact absurd hpc (hfail stage batch msgs)
      | messages msgs => exact absurd hpc (hmessages msgs)
      | _ => rfl
    refine ⟨?_, ?_⟩
    · rw [hs.posts, hbatch, append_nil]
    · rw [hs.messages, hdetached, append_nil]
  · cases ht with
    | run ht =>
      cases ht with
      | released _ _ => exact ⟨by rw [← hs.error]; rfl, rfl⟩
      | stopExit _ _ => exact ⟨by rw [← hs.error]; rfl, rfl⟩

/-- A loop at the head of a batch of two functions. -/
def batchState : State := { posted := [0, 1], loop := { event := 1 }, pc := .posts [0, 1] [] }

theorem reachable_batchState : Reachable {} batchState := by
  refine .head ⟨.thread (.post 0), trivial, .thread (.post 0 not_mem_nil)⟩ ?_
  refine .head ⟨.thread (.post 1), trivial, .thread (.post 1 (by decide))⟩ ?_
  refine .head ⟨.run .next, trivial, .run (.enter rfl rfl)⟩ ?_
  exact .single ⟨.run .next, trivial, .run (.drain rfl)⟩

/-- In the batch of two functions both run when the first of them throws. -/
theorem queues_run_in_order_batchState : ∃ t,
    Steps {} (fun _ a => a = .run .next) batchState t ∧ t.pc = .posts [] [] ∧ t.ran = [0, 1] ∧
      t.failures = [7] :=
  (queues_run_in_order reachable_batchState).2.2.2.2.1 [0, 1] [] rfl rfl
    fun fn => if fn = 0 then some 7 else none

end Snowy.Loop
