import Snowy.Pool.Workers

/-!
# `pool::run`

A coroutine of some loop enqueues a job and waits for an event. A worker runs the job: it looks at
the stop states of the token and of the loop, invokes the function unless one of them is set, writes
the result into the frame of the coroutine and posts the setting of the event to the loop. The loop
runs the post and resumes the coroutine, which looks at the stop states again and takes the result.
So the worker and the coroutine look at the flags at different times, in different threads.

The model has any number of loops, each with the call that its thread is executing, over the pool of
`Snowy.Pool.Core`. A look at the flags loads two atomics in one step: flags are only raised, so the
two loads give what one look at both gives at the time of the first or of the second load. An
exception of `value.emplace` counts as one of the function. The number of a call is also the name of
its job.

## Main definitions

* `Snowy.Pool.Call` : the frame of a call of `run`.
* `Snowy.Pool.State` : the pool, the loops and the calls.
* `Snowy.Pool.Step` : one step of a coroutine, of a loop, of a worker or of `close()`.
* `Snowy.Pool.Call.Sound`, `Snowy.Pool.Threads` : the invariant of a call, and of the lists of the
  loops.

## Main results

* `Snowy.Pool.Reachable.sound` : the invariant holds in all runs.
* `Snowy.Pool.pool_runs_every_job` : accepted jobs run once and in order, and how `run` ends.
* `Snowy.Pool.exists_late_stop` : a stop after the coroutine is resumed hides the exception of the
  function.
-/

namespace Snowy.Pool

open Function List

/-- How a call of `run` ends whose job was accepted. It returns `*value`, so `returned none` is the
use of an empty optional. -/
inductive Outcome (α ε : Type*) where
  | returned (value : Option α)
  | threw (e : ε)
  | canceled
  deriving DecidableEq, Repr

/-- What a call throws before its job is accepted: `operation_canceled`, or a `logic_error`. -/
inductive Refusal where
  | canceled
  | logicError (what : String)
  deriving DecidableEq, Repr

/-- The place of a call: not begun, at its first look at the flags, in `enqueue` before and after
its mutex section, at `co_await done.join()`, parked there, in the list of operations to be resumed,
at its second look at the flags, or at its end. -/
inductive Pc (α ε : Type*) where
  | absent
  | start
  | enqueue
  | notify
  | suspend
  | parked
  | ready
  | resumed
  | refused (r : Refusal)
  | done (o : Outcome α ε)
  deriving DecidableEq, Repr

/-- The job of the call has been accepted. -/
def Pc.Entered {α ε : Type*} : Pc α ε → Prop
  | .notify | .suspend | .parked | .ready | .resumed | .done _ => True
  | _ => False

/-- The thread of the loop is executing the call. -/
def Pc.Executing {α ε : Type*} : Pc α ε → Prop
  | .start | .enqueue | .notify | .suspend | .resumed => True
  | _ => False

/-- The event has been set and the call is, or was, to be resumed. -/
def Pc.Passed {α ε : Type*} : Pc α ε → Prop
  | .ready | .resumed | .done _ => True
  | _ => False

/-- The place of a worker in a job: at its look at the flags, in the function, at `loop.post`, or
behind it. It does not access the frame of the call at the last of these. -/
inductive Stage where
  | check
  | invoke
  | post
  | posted
  deriving DecidableEq, Repr

/-- The frame of a call: its loop and token, its place, the place of its job, the state of the event
`done`, and the variables `value` and `error`. The last three fields are histories: how often the
function was invoked, what it has returned or thrown, and whether a stop had been requested at the
second look at the flags. -/
structure Call (α ε : Type*) where
  home : ℕ := 0
  token : Option ℕ := none
  pc : Pc α ε := .absent
  stage : Stage := .check
  set : Bool := false
  value : Option α := none
  error : Option ε := none
  invocations : ℕ := 0
  result : Option (Except ε α) := none
  late : Bool := false

namespace Call

variable {α ε : Type*} (k : Call α ε)

/-- A call goes on. -/
def goto (pc : Pc α ε) : Call α ε := { k with pc := pc }

/-- The worker goes on in the job. -/
def goStage (stage : Stage) : Call α ε := { k with stage := stage }

/-- `std::invoke(fn)` begins. -/
def invoke : Call α ε := { k with stage := .invoke, invocations := k.invocations + 1 }

/-- The function has returned or thrown, and the worker has written `value` or `error`. -/
def store : Except ε α → Call α ε
  | .ok v => { k with stage := .post, value := some v, result := some (.ok v) }
  | .error e => { k with stage := .post, error := some e, result := some (.error e) }

/-- `set_ = true` in `done.set()`. -/
def signal : Call α ε := { k with set := true }

/-- What the statements behind the second look at the flags do. -/
def outcome (flagged : Bool) : Outcome α ε :=
  if flagged then .canceled
  else
    match k.error with
    | some e => .threw e
    | none => .returned k.value

/-- The call looks at the flags and runs to its end. -/
def complete (flagged : Bool) : Call α ε :=
  { k with pc := .done (k.outcome flagged), late := flagged }

end Call

/-- The pool, the calls and the loops. `busy` is the call that the thread of a loop is executing,
`posts` are the calls whose event is to be set by the loop, and `ready` those to be resumed. -/
structure State (α ε : Type*) extends Core where
  call : ℕ → Call α ε := fun _ => {}
  requested : ℕ → Bool := fun _ => false
  stopped : ℕ → Bool := fun _ => false
  busy : ℕ → Option ℕ := fun _ => none
  posts : ℕ → List ℕ := fun _ => []
  ready : ℕ → List ℕ := fun _ => []

namespace State

variable {α ε : Type*} (s : State α ε) (c l : ℕ)

/-- `token.stop_requested() || loop.stopped()`. -/
def flagged : Bool :=
  (match (s.call c).token with
    | none => false
    | some t => s.requested t) || s.stopped (s.call c).home

/-- Another state of the pool. -/
def withCore (core : Core) : State α ε := { s with toCore := core }

/-- A call changes. -/
def modify (f : Call α ε → Call α ε) : State α ε :=
  { s with call := update s.call c (f (s.call c)) }

/-- The thread of a loop goes on with the given call, or with none. -/
def setBusy (call : Option ℕ) : State α ε := { s with busy := update s.busy l call }

/-- The list of the posts of a loop. -/
def setPosts (calls : List ℕ) : State α ε := { s with posts := update s.posts l calls }

/-- The list of the operations that a loop is to resume. -/
def setReady (calls : List ℕ) : State α ε := { s with ready := update s.ready l calls }

/-- `detail::wait::notify` for the awaiter of a call, which does nothing unless it is parked. -/
def wake : State α ε :=
  match (s.call c).pc with
  | .parked =>
    (s.modify c (·.goto .ready)).setReady (s.call c).home (s.ready (s.call c).home ++ [c])
  | _ => s

/-- A call of `run` begins on the loop `l`. -/
def begin (token : Option ℕ) : State α ε :=
  (s.modify c fun _ => { home := l, token := token, pc := .start }).setBusy l (some c)

/-- A call throws before it is suspended. -/
def refuse (r : Refusal) : State α ε :=
  (s.modify c (·.goto (.refused r))).setBusy (s.call c).home none

/-- The awaiter of `done.join()` is parked. -/
def park : State α ε := (s.modify c (·.goto .parked)).setBusy (s.call c).home none

/-- `await_suspend` of `done.join()`. -/
def suspend : State α ε := if (s.call c).set then (s.park c).wake c else s.park c

/-- The loop `l` runs the post of a call, `done.set()`. -/
def signal (rest : List ℕ) : State α ε := ((s.modify c Call.signal).setPosts l rest).wake c

/-- The loop `l` resumes a call. -/
def resume (rest : List ℕ) : State α ε :=
  ((s.modify c (·.goto .resumed)).setReady l rest).setBusy l (some c)

/-- A call that was resumed runs to its end. -/
def complete : State α ε :=
  (s.modify c (·.complete (s.flagged c))).setBusy (s.call c).home none

/-- `loop.post([&done] { done.set(); })`. -/
def post : State α ε :=
  (s.modify c (·.goStage .posted)).setPosts (s.call c).home (s.posts (s.call c).home ++ [c])

/-- A stop is requested for a token. -/
def request (t : ℕ) : State α ε := { s with requested := update s.requested t true }

/-- `loop.stop()`. -/
def stop : State α ε := { s with stopped := update s.stopped l true }

end State

/-- One step of a pool with `n` workers and any number of loops. -/
inductive Step {α ε : Type*} (n : ℕ) (s : State α ε) : State α ε → Prop
  -- a call, on the thread of its loop
  | begin (c l : ℕ) (token : Option ℕ) (free : s.busy l = none)
      (absent : (s.call c).pc = .absent) : Step n s (s.begin c l token)
  | cancel (c : ℕ) (start : (s.call c).pc = .start) (flagged : s.flagged c = true) :
      Step n s (s.refuse c .canceled)
  | enter (c : ℕ) (start : (s.call c).pc = .start) (unflagged : s.flagged c = false) :
      Step n s (s.modify c (·.goto .enqueue))
  | refuse (c : ℕ) (enqueue : (s.call c).pc = .enqueue) (stopping : s.stopping = true) :
      Step n s (s.refuse c (.logicError "closed pool"))
  | push (c : ℕ) (enqueue : (s.call c).pc = .enqueue) (running : s.stopping = false) :
      Step n s ((s.withCore (s.toCore.push c)).modify c (·.goto .notify))
  | notify {core : Core} (c : ℕ) (notify : (s.call c).pc = .notify)
      (one : Core.Step n s.toCore (.notifyOne c) core) :
      Step n s ((s.withCore core).modify c (·.goto .suspend))
  | suspend (c : ℕ) (suspend : (s.call c).pc = .suspend) : Step n s (s.suspend c)
  | complete (c : ℕ) (resumed : (s.call c).pc = .resumed) : Step n s (s.complete c)
  -- the thread of a loop
  | signal (c l : ℕ) (rest : List ℕ) (free : s.busy l = none) (next : s.posts l = c :: rest) :
      Step n s (s.signal c l rest)
  | resume (c l : ℕ) (rest : List ℕ) (free : s.busy l = none) (next : s.ready l = c :: rest) :
      Step n s (s.resume c l rest)
  -- a worker in a job
  | skip (w c : ℕ) (running : s.worker w = .running c) (check : (s.call c).stage = .check)
      (flagged : s.flagged c = true) : Step n s (s.modify c (·.goStage .post))
  | invoke (w c : ℕ) (running : s.worker w = .running c) (check : (s.call c).stage = .check)
      (unflagged : s.flagged c = false) : Step n s (s.modify c Call.invoke)
  | store (w c : ℕ) (r : Except ε α) (running : s.worker w = .running c)
      (invoke : (s.call c).stage = .invoke) : Step n s (s.modify c (·.store r))
  | post (w c : ℕ) (running : s.worker w = .running c) (post : (s.call c).stage = .post) :
      Step n s (s.post c)
  | finish {core : Core} (w c : ℕ) (posted : (s.call c).stage = .posted)
      (finish : Core.Step n s.toCore (.finish w c) core) : Step n s (s.withCore core)
  -- a worker outside of its jobs, and the thread that closes the pool
  | core {core : Core} {a : Core.Act} (other : a.IsOther) (step : Core.Step n s.toCore a core) :
      Step n s (s.withCore core)
  -- any thread
  | request (t : ℕ) : Step n s (s.request t)
  | stop (l : ℕ) : Step n s (s.stop l)

/-- A state of some run of a new pool. -/
def Reachable {α ε : Type*} (n : ℕ) (s : State α ε) : Prop :=
  Relation.ReflTransGen (Step n) {} s

variable {α ε : Type*} {n : ℕ} {s s' : State α ε} {k : Call α ε} {c l : ℕ}

/-! ### The invariant -/

/-- How a call ends after the function has returned or thrown, when no stop was requested. -/
def Outcome.ofResult : Except ε α → Outcome α ε
  | .ok v => .returned (some v)
  | .error e => .threw e

/-- What is known of the job of a call. Behind the function its result is in the frame; if the job
was skipped, a stop has been requested. -/
structure Call.Job (k : Call α ε) (flagged : Bool) : Prop where
  value_iff : ∀ v, k.value = some v ↔ k.result = some (.ok v)
  error_iff : ∀ e, k.error = some e ↔ k.result = some (.error e)
  pending : k.stage = .check ∨ k.stage = .invoke → k.result = none
  skipped : k.stage = .post ∨ k.stage = .posted → k.result = none → flagged = true
  untouched : k.stage = .check → k.invocations = 0
  once : k.invocations ≤ 1
  invoked : k.stage = .invoke ∨ k.result ≠ none → k.invocations = 1

/-- What is known of the place of a call: its event is set behind its job, and it is resumed behind
the setting of its event. -/
structure Call.Place (k : Call α ε) (accepted : Prop) : Prop where
  entered : accepted ↔ k.pc.Entered
  set_iff : k.set = true ↔ k.pc.Passed
  posted : k.set = true → k.stage = .posted
  ended : ∀ o, k.pc = .done o → (k.late = true ∧ o = .canceled) ∨
    k.late = false ∧ ∃ r, k.result = some r ∧ o = .ofResult r

/-- What is known of the loops: a call is executed by the thread of its own loop only, and the lists
of a loop hold calls whose jobs are over and whose event is not set, and calls to be resumed. -/
structure Threads (s : State α ε) : Prop where
  executing : ∀ c, (s.call c).pc.Executing → s.busy (s.call c).home = some c
  nodup_posts : ∀ l, (s.posts l).Nodup
  posts : ∀ l, ∀ c ∈ s.posts l,
    (s.call c).home = l ∧ (s.call c).stage = .posted ∧ (s.call c).set = false
  nodup_ready : ∀ l, (s.ready l).Nodup
  ready : ∀ l, ∀ c ∈ s.ready l, (s.call c).home = l ∧ (s.call c).pc = .ready

/-- The invariant. -/
structure Sound (n : ℕ) (s : State α ε) : Prop where
  core : Core.Sound n s.toCore
  job : ∀ c, (s.call c).Job (s.flagged c)
  place : ∀ c, (s.call c).Place (c ∈ s.accepted)
  taken : ∀ c, (s.call c).stage ≠ .check → c ∈ s.dequeued
  threads : Threads s

theorem call_modify_self (f : Call α ε → Call α ε) : (s.modify c f).call c = f (s.call c) :=
  update_self ..

theorem call_modify_of_ne (f : Call α ε → Call α ε) {i : ℕ} (hi : i ≠ c) :
    (s.modify c f).call i = s.call i :=
  update_of_ne hi ..

/-- A step that changes one call keeps what is known of the others. -/
theorem Sound.of_call (h : Sound n s) (hcore : Core.Sound n s'.toCore)
    (hcall : s'.call = update s.call c k)
    (haccepted : ∀ i, i ≠ c → (i ∈ s'.accepted ↔ i ∈ s.accepted))
    (hrequested : s'.requested = s.requested) (hstopped : s'.stopped = s.stopped)
    (hjob : k.Job (s'.flagged c)) (hplace : k.Place (c ∈ s'.accepted))
    (hdequeued : s'.dequeued = s.dequeued) (htaken : k.stage ≠ .check → c ∈ s.dequeued)
    (hthreads : Threads s') : Sound n s' := by
  have hself : s'.call c = k := hcall ▸ update_self ..
  have hother : ∀ i, i ≠ c → s'.call i = s.call i := fun i hi => hcall ▸ update_of_ne hi ..
  refine ⟨hcore, fun i => ?_, fun i => ?_, fun i => ?_, hthreads⟩
  · by_cases hi : i = c
    · rw [hi, hself]
      exact hjob
    · have hflagged : s'.flagged i = s.flagged i := by
        rw [State.flagged, State.flagged, hother i hi, hrequested, hstopped]
      rw [hother i hi, hflagged]
      exact h.job i
  · by_cases hi : i = c
    · rw [hi, hself]
      exact hplace
    · rw [hother i hi, haccepted i hi]
      exact h.place i
  · by_cases hi : i = c
    · rw [hi, hself, hdequeued]
      exact htaken
    · rw [hother i hi, hdequeued]
      exact h.taken i

/-- A step that changes one call, which keeps its loop and its token. -/
theorem Sound.of_same (h : Sound n s) (hcore : Core.Sound n s'.toCore)
    (hcall : s'.call = update s.call c k) (hhome : k.home = (s.call c).home)
    (htoken : k.token = (s.call c).token)
    (haccepted : ∀ i, i ≠ c → (i ∈ s'.accepted ↔ i ∈ s.accepted))
    (hrequested : s'.requested = s.requested) (hstopped : s'.stopped = s.stopped)
    (hjob : k.Job (s.flagged c)) (hplace : k.Place (c ∈ s'.accepted))
    (hdequeued : s'.dequeued = s.dequeued) (htaken : k.stage ≠ .check → c ∈ s.dequeued)
    (hthreads : Threads s') : Sound n s' := by
  have hflagged : s'.flagged c = s.flagged c := by
    rw [State.flagged, State.flagged, hcall, hrequested, hstopped, update_self, hhome,
      htoken]
  refine h.of_call hcore hcall haccepted hrequested hstopped ?_ hplace hdequeued htaken hthreads
  rw [hflagged]
  exact hjob

/-- The job of a call in which a worker is or was has been accepted. -/
theorem Sound.entered_of_stage (h : Sound n s) (hc : (s.call c).stage ≠ .check) :
    (s.call c).pc.Entered := by
  refine (h.place c).entered.mp ?_
  rw [h.core.split]
  exact mem_append_left _ (h.taken c hc)

/-! ### A call goes on -/

theorem Call.Job.goto {flagged : Bool} (h : k.Job flagged) (pc : Pc α ε) :
    (k.goto pc).Job flagged :=
  ⟨h.value_iff, h.error_iff, h.pending, h.skipped, h.untouched, h.once, h.invoked⟩

/-- A call goes on to a place before its end at which its event is in the same state. -/
theorem Call.Place.goto {accepted accepted' : Prop} {pc : Pc α ε} (h : k.Place accepted)
    (hentered : accepted' ↔ pc.Entered) (hpassed : pc.Passed ↔ k.pc.Passed)
    (hdone : ∀ o, pc ≠ .done o) : (k.goto pc).Place accepted' where
  entered := hentered
  set_iff := h.set_iff.trans hpassed.symm
  posted := h.posted
  ended o ho := absurd ho (hdone o)

/-- A call changes: the lists that it is in and the thread that executes it fit to its new state. -/
theorem Threads.modify (h : Threads s) {f : Call α ε → Call α ε}
    (hexecuting : (f (s.call c)).pc.Executing → s.busy (f (s.call c)).home = some c)
    (hposts : ∀ l, c ∈ s.posts l → (f (s.call c)).home = l ∧ (f (s.call c)).stage = .posted ∧
      (f (s.call c)).set = false)
    (hready : ∀ l, c ∈ s.ready l → (f (s.call c)).home = l ∧ (f (s.call c)).pc = .ready) :
    Threads (s.modify c f) := by
  refine ⟨fun i hi => ?_, h.nodup_posts, fun l i hi => ?_, h.nodup_ready, fun l i hi => ?_⟩
  all_goals by_cases hic : i = c
  · subst hic
    rw [call_modify_self] at hi ⊢
    exact hexecuting hi
  · rw [call_modify_of_ne f hic] at hi ⊢
    exact h.executing i hi
  · subst hic
    rw [call_modify_self]
    exact hposts l hi
  · rw [call_modify_of_ne f hic]
    exact h.posts l i hi
  · subst hic
    rw [call_modify_self]
    exact hready l hi
  · rw [call_modify_of_ne f hic]
    exact h.ready l i hi

/-- The thread of a loop goes on in the call that it is executing. -/
theorem Threads.goto (h : Threads s) (hc : (s.call c).pc.Executing) {f : Call α ε → Call α ε}
    (hhome : (f (s.call c)).home = (s.call c).home)
    (hstage : (f (s.call c)).stage = (s.call c).stage)
    (hset : (f (s.call c)).set = (s.call c).set) : Threads (s.modify c f) := by
  refine h.modify (fun _ => hhome ▸ h.executing c hc) (fun l hl => ?_) fun l hl => ?_
  · rw [hhome, hstage, hset]
    exact h.posts l c hl
  · rw [(h.ready l c hl).2] at hc
    exact False.elim hc

/-- The thread of a loop leaves the call that it has been executing. -/
theorem Threads.leave (h : Threads s) (hc : ¬ (s.call c).pc.Executing) (hl : s.busy l = some c) :
    Threads (s.setBusy l none) := by
  refine ⟨fun i hi => ?_, h.nodup_posts, h.posts, h.nodup_ready, h.ready⟩
  change (s.call i).pc.Executing at hi
  have hbusy := h.executing i hi
  have hhome : (s.call i).home ≠ l := by
    rintro rfl
    cases hl.symm.trans hbusy
    exact hc hi
  exact (update_of_ne hhome ..).trans hbusy

/-- A free thread of a loop goes on with a call. -/
theorem Threads.enter (h : Threads s) (hl : s.busy l = none) {f : Call α ε → Call α ε}
    (hhome : (f (s.call c)).home = l)
    (hposts : ∀ l, c ∈ s.posts l → (f (s.call c)).home = l ∧ (f (s.call c)).stage = .posted ∧
      (f (s.call c)).set = false)
    (hready : ∀ l, c ∉ s.ready l) : Threads ((s.modify c f).setBusy l (some c)) := by
  have hbusy : Threads (s.setBusy l (some c)) := by
    refine ⟨fun i hi => ?_, h.nodup_posts, h.posts, h.nodup_ready, h.ready⟩
    have hold := h.executing i hi
    have hne : (s.call i).home ≠ l := by
      rintro rfl
      cases hl.symm.trans hold
    exact (update_of_ne hne ..).trans hold
  exact hbusy.modify (fun _ => hhome ▸ update_self ..) hposts fun l hc => absurd hc (hready l)

section

variable (h : Sound n s)
include h

/-- A thread of a loop goes on in the call that it is executing. -/
theorem Sound.goto (pc : Pc α ε) (hc : (s.call c).pc.Executing)
    (hentered : pc.Entered ↔ (s.call c).pc.Entered) (hpassed : pc.Passed ↔ (s.call c).pc.Passed)
    (hdone : ∀ o, pc ≠ .done o) : Sound n (s.modify c (·.goto pc)) :=
  h.of_same h.core rfl rfl rfl (fun _ _ => Iff.rfl) rfl rfl ((h.job c).goto pc)
    ((h.place c).goto ((h.place c).entered.trans hentered.symm) hpassed hdone) rfl (h.taken c)
    (h.threads.goto hc rfl rfl rfl)

/-- The thread of a loop leaves a call. -/
theorem Sound.leave (hc : ¬ (s.call c).pc.Executing) (hl : s.busy l = some c) :
    Sound n (s.setBusy l none) :=
  ⟨h.core, h.job, h.place, h.taken, h.threads.leave hc hl⟩

theorem Sound.refuse (hc : (s.call c).pc = .start ∨ (s.call c).pc = .enqueue)
    (r : Refusal) : Sound n (s.refuse c r) := by
  have hexecuting : (s.call c).pc.Executing := by
    rcases hc with hc | hc <;> rw [hc] <;> trivial
  have hgoto := h.goto (.refused r) hexecuting (by rcases hc with hc | hc <;> rw [hc] <;> rfl)
    (by rcases hc with hc | hc <;> rw [hc] <;> rfl) nofun
  refine hgoto.leave (c := c) ?_ (h.threads.executing c hexecuting)
  rw [call_modify_self]
  exact id

theorem Sound.park (hc : (s.call c).pc = .suspend) : Sound n (s.park c) := by
  have hexecuting : (s.call c).pc.Executing := by
    rw [hc]
    trivial
  refine (h.goto .parked hexecuting (by rw [hc]; rfl) (by rw [hc]; rfl) nofun).leave (c := c) ?_
    (h.threads.executing c hexecuting)
  rw [call_modify_self]
  exact id

/-- The event is not set yet when the call is suspended, so the call is parked. -/
theorem Sound.suspend_eq (hc : (s.call c).pc = .suspend) : s.suspend c = s.park c := by
  have hset : ¬ (s.call c).set = true := fun hset => by
    have hpassed := (h.place c).set_iff.mp hset
    rw [hc] at hpassed
    exact hpassed
  rw [State.suspend, if_neg hset]

theorem Sound.suspend (hc : (s.call c).pc = .suspend) : Sound n (s.suspend c) := by
  rw [h.suspend_eq hc]
  exact h.park hc

theorem Sound.begin (hl : s.busy l = none) (hc : (s.call c).pc = .absent)
    (token : Option ℕ) : Sound n (s.begin c l token) := by
  have hentered : ¬ (s.call c).pc.Entered := by
    rw [hc]
    exact id
  refine h.of_call h.core rfl (fun _ _ => Iff.rfl) rfl rfl ?_ ?_ rfl (fun hk => absurd rfl hk)
    (h.threads.enter hl rfl (fun l hl => ?_) fun l hl => ?_)
  · exact ⟨fun _ => iff_of_false nofun nofun, fun _ => iff_of_false nofun nofun, fun _ => rfl,
      fun hk => hk.elim nofun nofun, fun _ => rfl, Nat.zero_le 1,
      fun hk => hk.elim nofun fun hk => absurd rfl hk⟩
  · exact ⟨iff_of_false (mt (h.place c).entered.mp hentered) id, iff_of_false nofun id, nofun,
      nofun⟩
  · refine absurd (h.entered_of_stage ?_) hentered
    rw [(h.threads.posts l c hl).2.1]
    exact nofun
  · cases hc.symm.trans (h.threads.ready l c hl).2

theorem Sound.push (hc : (s.call c).pc = .enqueue) (hrunning : s.stopping = false) :
    Sound n ((s.withCore (s.toCore.push c)).modify c (·.goto .notify)) := by
  have hentered : ¬ (s.call c).pc.Entered := by
    rw [hc]
    exact id
  have hexecuting : (s.call c).pc.Executing := by
    rw [hc]
    trivial
  -- the job is a new one
  have hnew := mt (h.place c).entered.mp hentered
  have hthreads : Threads (s.withCore (s.toCore.push c)) :=
    ⟨h.threads.executing, h.threads.nodup_posts, h.threads.posts, h.threads.nodup_ready,
      h.threads.ready⟩
  refine h.of_same (h.core.push hrunning hnew) rfl rfl rfl (fun i hi => ?_) rfl rfl
    ((h.job c).goto .notify) ?_ rfl (h.taken c) (hthreads.goto hexecuting rfl rfl rfl)
  · change i ∈ s.accepted ++ [c] ↔ _
    rw [mem_append, mem_singleton, or_iff_left hi]
  · refine (h.place c).goto (iff_of_true ?_ trivial) (by rw [hc]; rfl) nofun
    exact mem_append_right _ (mem_singleton_self c)

/-- A step of the pool that accepts no job. -/
theorem Sound.withCore {core : Core} {a : Core.Act}
    (hstep : Core.Step n s.toCore a core) (ha : ∀ c, a ≠ .push c) : Sound n (s.withCore core) where
  core := h.core.step hstep
  job := h.job
  place c := by
    change (s.call c).Place (c ∈ core.accepted)
    rw [hstep.accepted_eq ha]
    exact h.place c
  taken c hc := hstep.dequeued_subset (h.taken c hc)
  threads := ⟨h.threads.executing, h.threads.nodup_posts, h.threads.posts, h.threads.nodup_ready,
    h.threads.ready⟩

/-! ### The end of a call -/

/-- A call that is resumed and has no result sees the stop that its job has seen. -/
theorem Sound.outcome_eq (hc : (s.call c).pc = .resumed) :
    (s.flagged c = true ∧ (s.call c).outcome (s.flagged c) = .canceled) ∨
      s.flagged c = false ∧ ∃ r, (s.call c).result = some r ∧
        (s.call c).outcome (s.flagged c) = .ofResult r := by
  have hset : (s.call c).set = true := (h.place c).set_iff.mpr (by rw [hc]; trivial)
  have hposted := (h.place c).posted hset
  have hjob := h.job c
  cases hflagged : s.flagged c with
  | true => exact .inl ⟨rfl, rfl⟩
  | false =>
    refine .inr ⟨rfl, ?_⟩
    cases hresult : (s.call c).result with
    | none =>
      have hskipped := hjob.skipped (.inr hposted) hresult
      rw [hflagged] at hskipped
      cases hskipped
    | some r =>
      refine ⟨r, rfl, ?_⟩
      cases r with
      | ok v =>
        have hvalue := (hjob.value_iff v).mpr hresult
        have herror : (s.call c).error = none :=
          Option.eq_none_iff_forall_ne_some.mpr fun e he => by
            cases hresult.symm.trans ((hjob.error_iff e).mp he)
        change (match (s.call c).error with
          | some e => Outcome.threw e
          | none => .returned (s.call c).value) = .returned (some v)
        rw [herror, hvalue]
      | error e =>
        have herror := (hjob.error_iff e).mpr hresult
        change (match (s.call c).error with
          | some e => Outcome.threw e
          | none => .returned (s.call c).value) = .threw e
        rw [herror]

theorem Sound.complete (hc : (s.call c).pc = .resumed) : Sound n (s.complete c) := by
  have hexecuting : (s.call c).pc.Executing := by
    rw [hc]
    trivial
  have hset : (s.call c).set = true := (h.place c).set_iff.mpr (by rw [hc]; trivial)
  have hjob := h.job c
  refine h.of_same h.core rfl rfl rfl (fun _ _ => Iff.rfl) rfl rfl ?_ ?_ rfl (h.taken c) ?_
  · exact ⟨hjob.value_iff, hjob.error_iff, hjob.pending, hjob.skipped, hjob.untouched, hjob.once,
      hjob.invoked⟩
  · refine ⟨iff_of_true ((h.place c).entered.mpr (by rw [hc]; trivial)) trivial,
      iff_of_true hset trivial, (h.place c).posted, fun o ho => ?_⟩
    cases ho
    exact h.outcome_eq hc
  · refine (h.threads.goto hexecuting rfl rfl rfl).leave (c := c) ?_
      (h.threads.executing c hexecuting)
    rw [call_modify_self]
    exact id

/-! ### The loop -/

/-- A call whose event is to be set is parked. -/
theorem Sound.parked (hl : s.busy l = none) (hc : c ∈ s.posts l) : (s.call c).pc = .parked := by
  obtain ⟨hhome, hstage, hset⟩ := h.threads.posts l c hc
  have hentered : (s.call c).pc.Entered := h.entered_of_stage (by rw [hstage]; exact nofun)
  have hpassed : ¬ (s.call c).pc.Passed := fun hpassed => by
    cases hset.symm.trans ((h.place c).set_iff.mpr hpassed)
  have hexecuting : ¬ (s.call c).pc.Executing := fun hexecuting => by
    have hbusy := h.threads.executing c hexecuting
    rw [hhome, hl] at hbusy
    cases hbusy
  cases hpc : (s.call c).pc with
  | parked => rfl
  | absent | start | enqueue | refused =>
    rw [hpc] at hentered
    exact False.elim hentered
  | notify | suspend => exact absurd (hpc ▸ trivial) hexecuting
  | ready | resumed | done => exact absurd (hpc ▸ trivial) hpassed

end

/-- The elements of the list of one loop, when the list of a loop is replaced. -/
theorem mem_update {f : ℕ → List ℕ} {l' i : ℕ} {calls : List ℕ}
    (h : i ∈ update f l calls l') : l' = l ∧ i ∈ calls ∨ l' ≠ l ∧ i ∈ f l' := by
  rw [update_apply] at h
  split_ifs at h with hl
  · exact .inl ⟨hl, h⟩
  · exact .inr ⟨hl, h⟩

theorem nodup_update {f : ℕ → List ℕ} {calls : List ℕ} (h : ∀ l, (f l).Nodup)
    (hcalls : calls.Nodup) (l' : ℕ) : (update f l calls l').Nodup := by
  rw [update_apply]
  split_ifs
  · exact hcalls
  · exact h l'

/-- What a post does for a call that is parked. -/
theorem signal_eq (hparked : (s.call c).pc = .parked) (hhome : (s.call c).home = l)
    (rest : List ℕ) : s.signal c l rest =
      ((s.modify c (·.signal.goto .ready)).setPosts l rest).setReady l (s.ready l ++ [c]) := by
  have hself : ((s.modify c Call.signal).setPosts l rest).call c = (s.call c).signal :=
    update_self ..
  have hpc : (((s.modify c Call.signal).setPosts l rest).call c).pc = .parked := by
    rw [hself]
    exact hparked
  have hcall : update (update s.call c (s.call c).signal) c
      ((update s.call c (s.call c).signal c).goto .ready) =
      update s.call c ((s.call c).signal.goto .ready) := by
    rw [update_idem, update_self]
  rw [State.signal, State.wake, hpc, hself]
  change State.setReady _ (s.call c).home (s.ready (s.call c).home ++ [c]) = _
  rw [hhome]
  exact congrArg (fun call => (State.setReady { s.setPosts l rest with call := call } l
    (s.ready l ++ [c]) : State α ε)) hcall

/-- The list of a loop without the first call, which is in no other list. -/
theorem mem_pop {f : ℕ → List ℕ} {rest : List ℕ} {l' i : ℕ} (hnodup : (f l).Nodup)
    (hnext : f l = c :: rest) (honce : c ∈ f l' → l' = l) (hi : i ∈ update f l rest l') :
    i ∈ f l' ∧ i ≠ c := by
  rw [hnext] at hnodup
  rcases mem_update hi with ⟨rfl, hin⟩ | ⟨hne, hi⟩
  · refine ⟨hnext ▸ mem_cons_of_mem c hin, ?_⟩
    rintro rfl
    exact (nodup_cons.mp hnodup).1 hin
  · refine ⟨hi, ?_⟩
    rintro rfl
    exact hne (honce hi)

theorem Threads.signal (h : Threads s) {rest : List ℕ} (hnext : s.posts l = c :: rest)
    (hparked : (s.call c).pc = .parked) : Threads
      (((s.modify c (·.signal.goto .ready)).setPosts l rest).setReady l (s.ready l ++ [c])) := by
  have hhome := (h.posts l c (hnext ▸ mem_cons_self)).1
  have hready : ∀ l, c ∉ s.ready l := fun l hc => by cases hparked.symm.trans (h.ready l c hc).2
  have hpop : ∀ l' i, i ∈ update s.posts l rest l' → i ∈ s.posts l' ∧ i ≠ c := fun l' i =>
    mem_pop (h.nodup_posts l) hnext fun hc => (h.posts l' c hc).1.symm.trans hhome
  have hposts : Threads (s.setPosts l rest) :=
    ⟨h.executing, nodup_update h.nodup_posts (hnext ▸ h.nodup_posts l).of_cons,
      fun l' i hi => h.posts l' i (hpop l' i hi).1, h.nodup_ready, h.ready⟩
  have hmoved : Threads ((s.setPosts l rest).modify c (·.signal.goto .ready)) :=
    hposts.modify False.elim (fun l' hc => absurd rfl (hpop l' c hc).2)
      fun l' hc => absurd hc (hready l')
  refine ⟨hmoved.executing, hmoved.nodup_posts, hmoved.posts, nodup_update h.nodup_ready ?_,
    fun l' i hi => ?_⟩
  · exact (h.nodup_ready l).append (nodup_singleton c) (disjoint_singleton.mpr (hready l))
  · rcases mem_update hi with ⟨rfl, hin⟩ | ⟨-, hi⟩
    · rcases mem_append.mp hin with hold | hnew
      · exact hmoved.ready l' i hold
      · obtain rfl := mem_singleton.mp hnew
        change ((s.modify i (·.signal.goto .ready)).call i).home = l' ∧
          ((s.modify i (·.signal.goto .ready)).call i).pc = .ready
        rw [call_modify_self]
        exact ⟨hhome, rfl⟩
    · exact hmoved.ready l' i hi

/-- A loop runs a post: the event is set, and the call is to be resumed. -/
theorem Sound.signal (h : Sound n s) (hl : s.busy l = none) {rest : List ℕ}
    (hnext : s.posts l = c :: rest) : Sound n (s.signal c l rest) := by
  have hmem : c ∈ s.posts l := hnext ▸ mem_cons_self
  have hparked := h.parked hl hmem
  obtain ⟨hhome, hstage, -⟩ := h.threads.posts l c hmem
  have hjob := h.job c
  rw [signal_eq hparked hhome]
  refine h.of_same h.core rfl rfl rfl (fun _ _ => Iff.rfl) rfl rfl ?_ ?_ rfl (h.taken c)
    (h.threads.signal hnext hparked)
  · exact ⟨hjob.value_iff, hjob.error_iff, hjob.pending, hjob.skipped, hjob.untouched, hjob.once,
      hjob.invoked⟩
  · have hentered : c ∈ s.accepted := (h.place c).entered.mpr (by rw [hparked]; trivial)
    exact ⟨iff_of_true hentered trivial, iff_of_true rfl trivial, fun _ => hstage, nofun⟩

/-- A loop takes a call from its list and resumes it. -/
theorem Sound.resume (h : Sound n s) (hl : s.busy l = none) {rest : List ℕ}
    (hnext : s.ready l = c :: rest) : Sound n (s.resume c l rest) := by
  have hmem : c ∈ s.ready l := hnext ▸ mem_cons_self
  obtain ⟨hhome, hpc⟩ := h.threads.ready l c hmem
  have hpop : ∀ l' i, i ∈ update s.ready l rest l' → i ∈ s.ready l' ∧ i ≠ c := fun l' i =>
    mem_pop (h.threads.nodup_ready l) hnext fun hc =>
      (h.threads.ready l' c hc).1.symm.trans hhome
  have hthreads : Threads (s.setReady l rest) :=
    ⟨h.threads.executing, h.threads.nodup_posts, h.threads.posts,
      nodup_update h.threads.nodup_ready (hnext ▸ h.threads.nodup_ready l).of_cons,
      fun l' i hi => h.threads.ready l' i (hpop l' i hi).1⟩
  refine h.of_same h.core rfl rfl rfl (fun _ _ => Iff.rfl) rfl rfl ((h.job c).goto .resumed) ?_
    rfl (h.taken c) (hthreads.enter (c := c) (f := (·.goto .resumed)) hl hhome
      (fun l' => h.threads.posts l' c) fun l' hl' => (hpop l' c hl').2 rfl)
  · refine (h.place c).goto ((h.place c).entered.trans ?_) ?_ nofun
    · rw [hpc]
      rfl
    · rw [hpc]
      rfl

/-! ### The worker -/

/-- The worker goes on in a job before its post. -/
theorem Threads.stage (h : Threads s) (hc : (s.call c).stage ≠ .posted) {f : Call α ε → Call α ε}
    (hhome : (f (s.call c)).home = (s.call c).home) (hpc : (f (s.call c)).pc = (s.call c).pc) :
    Threads (s.modify c f) := by
  refine h.modify (fun hi => hhome ▸ h.executing c (hpc ▸ hi))
    (fun l hl => absurd (h.posts l c hl).2.1 hc) fun l hl => ?_
  rw [hhome, hpc]
  exact h.ready l c hl

/-- A worker that is in a job goes on in it. -/
theorem Sound.stage (h : Sound n s) {w : ℕ} (hw : s.worker w = .running c)
    (hc : (s.call c).stage ≠ .posted) {f : Call α ε → Call α ε}
    (hhome : (f (s.call c)).home = (s.call c).home)
    (htoken : (f (s.call c)).token = (s.call c).token)
    (hpc : (f (s.call c)).pc = (s.call c).pc) (hset : (f (s.call c)).set = (s.call c).set)
    (hjob : (f (s.call c)).Job (s.flagged c)) : Sound n (s.modify c f) := by
  have hplace := h.place c
  have hunset : ¬ (s.call c).set = true := mt hplace.posted hc
  refine h.of_same h.core rfl hhome htoken (fun _ _ => Iff.rfl) rfl rfl hjob ?_ rfl
    (fun _ => (h.core.running.mem w c hw).2.1) (h.threads.stage hc hhome hpc)
  refine ⟨hpc.symm ▸ hplace.entered, ?_, ?_, ?_⟩
  · rw [hset, hpc]
    exact hplace.set_iff
  · rw [hset]
    exact fun hs => absurd hs hunset
  · intro o ho
    rw [hpc] at ho
    exact absurd (hplace.set_iff.mpr (by rw [ho]; trivial)) hunset

theorem Sound.skip (h : Sound n s) {w : ℕ} (hw : s.worker w = .running c)
    (hc : (s.call c).stage = .check) (hflagged : s.flagged c = true) :
    Sound n (s.modify c (·.goStage .post)) := by
  have hjob := h.job c
  have hresult := hjob.pending (.inl hc)
  refine h.stage hw (by rw [hc]; exact nofun) rfl rfl rfl rfl ?_
  exact ⟨hjob.value_iff, hjob.error_iff, fun _ => hresult, fun _ _ => hflagged, nofun, hjob.once,
    fun hk => hk.elim nofun fun hk => absurd hresult hk⟩

theorem Sound.invoke (h : Sound n s) {w : ℕ} (hw : s.worker w = .running c)
    (hc : (s.call c).stage = .check) : Sound n (s.modify c Call.invoke) := by
  have hjob := h.job c
  have hresult := hjob.pending (.inl hc)
  have hone : (s.call c).invoke.invocations = 1 := congrArg (· + 1) (hjob.untouched hc)
  refine h.stage hw (by rw [hc]; exact nofun) rfl rfl rfl rfl ?_
  exact ⟨hjob.value_iff, hjob.error_iff, fun _ => hresult, fun hk => hk.elim nofun nofun, nofun,
    hone.le, fun _ => hone⟩

theorem Sound.store (h : Sound n s) {w : ℕ} (hw : s.worker w = .running c)
    (hc : (s.call c).stage = .invoke) (r : Except ε α) : Sound n (s.modify c (·.store r)) := by
  have hjob := h.job c
  have hresult := hjob.pending (.inr hc)
  have hone := hjob.invoked (.inl hc)
  have hvalue : ∀ v, (s.call c).value ≠ some v := fun v hv => by
    cases hresult.symm.trans ((hjob.value_iff v).mp hv)
  have herror : ∀ e, (s.call c).error ≠ some e := fun e he => by
    cases hresult.symm.trans ((hjob.error_iff e).mp he)
  have hposted : (s.call c).stage ≠ .posted := by
    rw [hc]
    exact nofun
  cases r with
  | ok v =>
    refine h.stage hw hposted rfl rfl rfl rfl ⟨fun v' => ?_, fun e => iff_of_false (herror e) nofun,
      fun hk => hk.elim nofun nofun, fun _ => nofun, nofun, hone.le, fun _ => hone⟩
    exact ⟨fun hv => congrArg _ (congrArg _ (Option.some.inj hv)), fun hv =>
      congrArg _ (Except.ok.inj (Option.some.inj hv))⟩
  | error e =>
    refine h.stage hw hposted rfl rfl rfl rfl ⟨fun v => iff_of_false (hvalue v) nofun, fun e' => ?_,
      fun hk => hk.elim nofun nofun, fun _ => nofun, nofun, hone.le, fun _ => hone⟩
    exact ⟨fun hv => congrArg _ (congrArg _ (Option.some.inj hv)), fun hv =>
      congrArg _ (Except.error.inj (Option.some.inj hv))⟩

/-- The worker posts the setting of the event. -/
theorem Sound.post (h : Sound n s) {w : ℕ} (hw : s.worker w = .running c)
    (hc : (s.call c).stage = .post) : Sound n (s.post c) := by
  have hjob := h.job c
  have hplace := h.place c
  have hposted : (s.call c).stage ≠ .posted := by
    rw [hc]
    exact nofun
  have hs : Sound n (s.modify c (·.goStage .posted)) := by
    refine h.stage hw hposted rfl rfl rfl rfl ⟨hjob.value_iff, hjob.error_iff,
      fun hk => hk.elim nofun nofun, fun _ => hjob.skipped (.inl hc), nofun, hjob.once,
      fun hk => ?_⟩
    exact hjob.invoked (hk.imp_left nofun)
  have hnew : c ∉ s.posts (s.call c).home := fun hmem => hposted (h.threads.posts _ c hmem).2.1
  refine ⟨hs.core, hs.job, hs.place, hs.taken, hs.threads.executing,
    nodup_update hs.threads.nodup_posts ?_, fun l i hi => ?_, hs.threads.nodup_ready,
    hs.threads.ready⟩
  · exact (h.threads.nodup_posts _).append (nodup_singleton c)
      (disjoint_singleton.mpr hnew)
  · rcases mem_update hi with ⟨rfl, hmem⟩ | ⟨-, hmem⟩
    · rcases mem_append.mp hmem with hmem | hmem
      · exact hs.threads.posts _ i hmem
      · obtain rfl := mem_singleton.mp hmem
        change ((s.modify i (·.goStage .posted)).call i).home = _ ∧
          ((s.modify i (·.goStage .posted)).call i).stage = _ ∧
          ((s.modify i (·.goStage .posted)).call i).set = _
        rw [call_modify_self]
        exact ⟨rfl, rfl, Bool.eq_false_iff.mpr (mt hplace.posted hposted)⟩
    · exact hs.threads.posts l i hmem

/-! ### All runs -/

/-- Raising a flag keeps the invariant. -/
theorem Sound.raise (h : Sound n s) {requested stopped : ℕ → Bool}
    (hrequested : ∀ t, s.requested t = true → requested t = true)
    (hstopped : ∀ l, s.stopped l = true → stopped l = true) :
    Sound n { s with requested := requested, stopped := stopped } := by
  refine ⟨h.core, fun c => ?_, h.place, h.taken, ⟨h.threads.executing, h.threads.nodup_posts,
    h.threads.posts, h.threads.nodup_ready, h.threads.ready⟩⟩
  have hjob := h.job c
  refine ⟨hjob.value_iff, hjob.error_iff, hjob.pending, fun hk hr => ?_, hjob.untouched, hjob.once,
    hjob.invoked⟩
  have hold := hjob.skipped hk hr
  rw [State.flagged, Bool.or_eq_true] at hold ⊢
  refine hold.imp (fun hold => ?_) (hstopped _)
  change (match (s.call c).token with
    | none => false
    | some t => requested t) = true
  cases htoken : (s.call c).token with
  | none =>
    rw [htoken] at hold
    cases hold
  | some t =>
    rw [htoken] at hold
    exact hrequested t hold

/-- A flag that is raised stays raised. -/
theorem update_true {f : ℕ → Bool} {i : ℕ} (j : ℕ) (hj : f j = true) :
    update f i true j = true := by
  rw [update_apply]
  split_ifs
  · rfl
  · exact hj

/-- Every step keeps the invariant. -/
theorem Sound.step (h : Sound n s) (hstep : Step n s s') : Sound n s' := by
  cases hstep with
  | begin c l token free absent => exact h.begin free absent token
  | cancel c start flagged => exact h.refuse (.inl start) _
  | enter c start unflagged =>
    exact h.goto .enqueue (by rw [start]; trivial) (by rw [start]; rfl) (by rw [start]; rfl) nofun
  | refuse c enqueue stopping => exact h.refuse (.inr enqueue) _
  | push c enqueue running => exact h.push enqueue running
  | notify c notify one =>
    have hs := h.withCore one nofun
    exact hs.goto .suspend (by rw [State.withCore, notify]; trivial)
      (by rw [State.withCore, notify]; rfl) (by rw [State.withCore, notify]; rfl) nofun
  | suspend c suspend => exact h.suspend suspend
  | complete c resumed => exact h.complete resumed
  | signal c l rest free next => exact h.signal free next
  | resume c l rest free next => exact h.resume free next
  | skip w c running check flagged => exact h.skip running check flagged
  | invoke w c running check unflagged => exact h.invoke running check
  | store w c r running invoke => exact h.store running invoke r
  | post w c running post => exact h.post running post
  | finish w c posted finish => exact h.withCore finish nofun
  | core other step =>
    refine h.withCore step ?_
    rintro c rfl
    exact other
  | request t => exact h.raise update_true fun _ => id
  | stop l => exact h.raise (fun _ => id) update_true

theorem sound_empty (n : ℕ) : Sound n ({} : State α ε) where
  core := Core.sound_empty n
  job _ := ⟨fun _ => iff_of_false nofun nofun, fun _ => iff_of_false nofun nofun, fun _ => rfl,
    fun hk => hk.elim nofun nofun, fun _ => rfl, Nat.zero_le 1,
    fun hk => hk.elim nofun fun hk => absurd rfl hk⟩
  place _ := ⟨iff_of_false not_mem_nil id, iff_of_false nofun id, nofun, nofun⟩
  taken _ hk := absurd rfl hk
  threads := ⟨fun _ hc => False.elim hc, fun _ => nodup_nil, nofun, fun _ => nodup_nil,
    nofun⟩

theorem Reachable.sound (h : Reachable n s) : Sound n s := by
  induction h with
  | refl => exact sound_empty n
  | tail _ hstep ih => exact ih.step hstep

/-! ### Results -/

/-- A worker that is in the job of a call and has still to post. -/
def Accesses (s : State α ε) (w c : ℕ) : Prop :=
  s.worker w = .running c ∧ (s.call c).stage ≠ .posted

/-- How a call leaves the mutex section of `enqueue`. -/
theorem Sound.enqueue (h : Sound n s) (hstep : Step n s s') (hc : (s.call c).pc = .enqueue) :
    (s'.call c).pc = .enqueue ∨
      (s.stopping = true ∧ (s'.call c).pc = .refused (.logicError "closed pool")) ∨
      s.stopping = false ∧ (s'.call c).pc = .notify := by
  -- a step of another call
  have hother : ∀ (i : ℕ) (k : Call α ε), (s.call i).pc ≠ .enqueue →
      (update s.call i k c).pc = .enqueue := by
    intro i k hi
    have hci : c ≠ i := by
      rintro rfl
      exact hi hc
    rw [update_of_ne hci, hc]
  -- a step of a worker in the job of some call
  have hjob : ∀ (i : ℕ) (k : Call α ε), k.pc = (s.call i).pc →
      (update s.call i k c).pc = .enqueue := by
    intro i k hi
    rw [update_apply]
    split_ifs with hci
    · rw [hi, ← hci, hc]
    · exact hc
  cases hstep with
  | begin i l token free absent => exact .inl (hother i _ (by rw [absent]; exact nofun))
  | cancel i start flagged => exact .inl (hother i _ (by rw [start]; exact nofun))
  | enter i start unflagged => exact .inl (hother i _ (by rw [start]; exact nofun))
  | refuse i enqueue stopping =>
    by_cases hci : c = i
    · subst hci
      exact .inr (.inl ⟨stopping, congrArg Call.pc (update_self c _ s.call)⟩)
    · exact .inl ((congrArg Call.pc (update_of_ne hci _ s.call)).trans hc)
  | push i enqueue running =>
    by_cases hci : c = i
    · subst hci
      exact .inr (.inr ⟨running, congrArg Call.pc (update_self c _ s.call)⟩)
    · exact .inl ((congrArg Call.pc (update_of_ne hci _ s.call)).trans hc)
  | notify i notify one => exact .inl (hother i _ (by rw [notify]; exact nofun))
  | suspend i suspend =>
    rw [h.suspend_eq suspend]
    exact .inl (hother i _ (by rw [suspend]; exact nofun))
  | complete i resumed => exact .inl (hother i _ (by rw [resumed]; exact nofun))
  | signal i l rest free next =>
    have hmem : i ∈ s.posts l := next ▸ mem_cons_self
    have hparked := h.parked free hmem
    rw [signal_eq hparked (h.threads.posts l i hmem).1]
    exact .inl (hother i _ (by rw [hparked]; exact nofun))
  | resume i l rest free next =>
    have hready := (h.threads.ready l i (next ▸ mem_cons_self)).2
    exact .inl (hother i _ (by rw [hready]; exact nofun))
  | skip w i running check flagged => exact .inl (hjob i _ rfl)
  | invoke w i running check unflagged => exact .inl (hjob i _ rfl)
  | store w i r running invoke => exact .inl (hjob i _ (by cases r <;> rfl))
  | post w i running post => exact .inl (hjob i _ rfl)
  | finish | core | request | stop => exact .inl hc

/-- After the mutex section of `close()` no job is accepted. -/
theorem Sound.closed (h : Sound n s) (hstep : Step n s s') (hstopping : s.stopping = true) :
    s'.stopping = true ∧ s'.accepted = s.accepted := by
  cases hstep with
  | push i enqueue running => cases running.symm.trans hstopping
  | notify i notify one => exact ⟨one.stopping hstopping, one.accepted_eq nofun⟩
  | finish w i posted finish => exact ⟨finish.stopping hstopping, finish.accepted_eq nofun⟩
  | core other step =>
    refine ⟨step.stopping hstopping, step.accepted_eq ?_⟩
    rintro i rfl
    exact other
  | suspend i suspend =>
    rw [h.suspend_eq suspend]
    exact ⟨hstopping, rfl⟩
  | signal i l rest free next =>
    have hmem : i ∈ s.posts l := next ▸ mem_cons_self
    rw [signal_eq (h.parked free hmem) (h.threads.posts l i hmem).1]
    exact ⟨hstopping, rfl⟩
  | _ => exact ⟨hstopping, rfl⟩

/-- How a call ends that was accepted. -/
theorem Sound.ended (h : Sound n s) {o : Outcome α ε} (hc : (s.call c).pc = .done o) :
    (∀ v, o = .returned v ↔
      ∃ a, v = some a ∧ (s.call c).result = some (.ok a) ∧ (s.call c).late = false) ∧
    (∀ e, o = .threw e ↔ (s.call c).result = some (.error e) ∧ (s.call c).late = false) ∧
    (o = .canceled ↔ (s.call c).late = true) := by
  rcases (h.place c).ended o hc with ⟨hlate, rfl⟩ | ⟨hlate, r, hresult, rfl⟩
  · rw [hlate]
    refine ⟨fun v => iff_of_false nofun ?_, fun e => iff_of_false nofun nofun,
      iff_of_true rfl rfl⟩
    rintro ⟨a, -, -, ha⟩
    cases ha
  · rw [hlate, hresult]
    cases r with
    | ok a =>
      refine ⟨fun v => ?_, fun e => iff_of_false nofun nofun, iff_of_false nofun nofun⟩
      constructor
      · intro hv
        exact ⟨a, (Outcome.returned.inj hv).symm, rfl, rfl⟩
      · rintro ⟨b, rfl, hb, -⟩
        cases hb
        rfl
    | error e =>
      refine ⟨fun v => iff_of_false nofun ?_, fun e' => ?_, iff_of_false nofun nofun⟩
      · rintro ⟨a, -, ha, -⟩
        cases ha
      · constructor
        · intro he
          exact ⟨congrArg _ (congrArg _ (Outcome.threw.inj he)), rfl⟩
        · rintro ⟨he, -⟩
          cases he
          rfl

/-- The function of the call 0 has thrown, and the loop 0 is to resume the call. -/
def thrownState : State ℕ ℕ :=
  let s := (({} : State ℕ ℕ).begin 0 0 (some 0)).modify 0 (·.goto .enqueue)
  let s := (s.withCore (s.toCore.push 0)).modify 0 (·.goto .notify)
  let s := (s.withCore (s.toCore.notified 0)).modify 0 (·.goto .suspend)
  let s := s.suspend 0
  let s := s.withCore (s.toCore.take 0 0 [])
  let s := (s.modify 0 Call.invoke).modify 0 (·.store (.error 7))
  (s.post 0).signal 0 0 []

theorem reachable_thrownState : Reachable 1 thrownState := by
  have h₁ : Reachable 1 (({} : State ℕ ℕ).begin 0 0 (some 0)) := .tail .refl (.begin 0 0 _ rfl rfl)
  have h₂ := h₁.tail (.enter 0 rfl rfl)
  have h₃ := h₂.tail (.push 0 rfl rfl)
  have h₄ := h₃.tail (.notify 0 rfl (.notifyNone 0 mem_cons_self nofun))
  have h₅ := h₄.tail (.suspend 0 rfl)
  have h₆ := h₅.tail (.core (a := .take 0 0) trivial (.take 0 0 [] Nat.one_pos rfl rfl))
  have h₇ := h₆.tail (.invoke 0 0 rfl rfl rfl)
  have h₈ := h₇.tail (.store 0 0 (.error 7) rfl rfl)
  have h₉ := h₈.tail (.post 0 0 rfl rfl)
  exact h₉.tail (.signal 0 0 [] rfl rfl)

/-- **A stop after the resumption.** The function of a call has thrown and no stop was requested
before the call is resumed. A stop that is requested before the call looks at the flags makes it
throw `operation_canceled`. -/
theorem exists_late_stop : ∃ s₀ s s' : State ℕ ℕ, Reachable 1 s₀ ∧ (s₀.call 0).pc = .ready ∧
    (s₀.call 0).result = some (.error 7) ∧ Step 1 s₀ s ∧ (s.call 0).pc = .resumed ∧
    s.flagged 0 = false ∧ Relation.ReflTransGen (Step 1) s s' ∧
    (s'.call 0).pc = .done .canceled := by
  refine ⟨thrownState, thrownState.resume 0 0 [],
    ((thrownState.resume 0 0 []).request 0).complete 0, reachable_thrownState, rfl, rfl,
    .resume 0 0 [] rfl rfl, rfl, rfl, ?_, rfl⟩
  exact .tail (.tail .refl (.request 0)) (.complete 0 rfl)

/-- **The jobs of a pool.** Accepted jobs are taken once, in the order in which they were accepted,
and have run when `close()` returns. After `close()` a call throws and queues nothing. No wakeup is
lost. A call is resumed when no worker accesses its frame any more. It invokes the function at most
once, and it ends by the flags at its second look at them: it throws `operation_canceled` if a stop
was requested before, and otherwise it returns or throws what the function has. -/
theorem pool_runs_every_job (hn : 0 < n) (h : Reachable n s) :
    (s.accepted = s.dequeued ++ s.jobs ∧ s.accepted.Nodup) ∧
    (s.ran.Nodup ∧ s.ran ⊆ s.dequeued ∧
      (s.closer = .returned → s.jobs = [] ∧ ∀ c ∈ s.accepted, c ∈ s.ran)) ∧
    ((s.closer ≠ .idle ↔ s.stopping = true) ∧
      (s.stopping = true → ∀ s', Step n s s' → s'.stopping = true ∧ s'.accepted = s.accepted ∧
        ∀ c, (s.call c).pc = .enqueue → (s'.call c).pc = .enqueue ∨
          (s'.call c).pc = .refused (.logicError "closed pool"))) ∧
    ((s.jobs ≠ [] → (∃ w < n, s.worker w = .test ∨ ∃ c, s.worker w = .running c) ∨
        s.notifying ≠ []) ∧
      ∀ k, s.closer = .joining k → ∀ w, s.worker w ≠ .asleep) ∧
    ∀ c, ((s.call c).pc.Passed → c ∈ s.dequeued ∧ ∀ w, ¬ Accesses s w c) ∧
      (s.call c).invocations ≤ 1 ∧
      ((s.call c).result ≠ none → (s.call c).invocations = 1) ∧
      ∀ o, (s.call c).pc = .done o →
        (∀ v, o = .returned v ↔
          ∃ a, v = some a ∧ (s.call c).result = some (.ok a) ∧ (s.call c).late = false) ∧
        (∀ e, o = .threw e ↔ (s.call c).result = some (.error e) ∧ (s.call c).late = false) ∧
        (o = .canceled ↔ (s.call c).late = true) := by
  have hs := h.sound
  refine ⟨⟨hs.core.split, hs.core.nodup⟩, ⟨hs.core.running.ran_nodup, hs.core.running.ran_subset,
    hs.core.ran_of_returned hn⟩, ⟨hs.core.closing.idle.symm, fun hstopping s' hstep => ?_⟩,
    ⟨hs.core.exists_awake hn, fun k => hs.core.not_asleep_of_joining⟩, fun c => ⟨fun hc => ?_,
      (hs.job c).once, fun hr => (hs.job c).invoked (.inr hr), fun o => hs.ended⟩⟩
  · obtain ⟨hstop, haccepted⟩ := hs.closed hstep hstopping
    refine ⟨hstop, haccepted, fun c hc => (hs.enqueue hstep hc).imp_right ?_⟩
    rintro (⟨-, hrefused⟩ | ⟨hrunning, -⟩)
    · exact hrefused
    · cases hrunning.symm.trans hstopping
  · have hposted := (hs.place c).posted ((hs.place c).set_iff.mpr hc)
    exact ⟨hs.taken c (by rw [hposted]; exact nofun), fun w haccess => haccess.2 hposted⟩

/-- The call ends with the exception of its function, and the pool is closed. -/
def closedState : State ℕ ℕ :=
  let s := (thrownState.resume 0 0 []).complete 0
  let s := s.withCore (s.toCore.finish 0 0)
  let s := s.withCore s.toCore.close
  let s := s.withCore s.toCore.notifyAll
  let s := s.withCore (s.toCore.setWorker 0 .exited)
  let s := s.withCore (s.toCore.setCloser (.joining 1))
  s.withCore (s.toCore.setCloser .returned)

theorem reachable_closedState : Reachable 1 closedState := by
  have h₁ := reachable_thrownState.tail (.resume 0 0 [] rfl rfl)
  have h₂ := h₁.tail (.complete 0 rfl)
  have h₃ := h₂.tail (.finish 0 0 rfl (.finish 0 0 rfl))
  have h₄ := h₃.tail (.core (a := .close) trivial (.close rfl))
  have h₅ := h₄.tail (.core (a := .notifyAll) trivial (.notifyAll rfl))
  have h₆ := h₅.tail (.core (a := .exit 0) trivial (.exit 0 Nat.one_pos rfl rfl rfl))
  have h₇ := h₆.tail (.core (a := .join 0) trivial (.join 0 rfl Nat.one_pos rfl))
  exact h₇.tail (.core (a := .closed) trivial (.closed rfl))

theorem pool_runs_every_job_closedState :
    closedState.closer = .returned ∧ 0 ∈ closedState.accepted ∧ 0 ∈ closedState.ran ∧
      (closedState.call 0).pc = .done (.threw 7) ∧ (closedState.call 0).invocations = 1 := by
  obtain ⟨-, ⟨-, -, hran⟩, -, -, hcalls⟩ := pool_runs_every_job Nat.one_pos reachable_closedState
  have hresult : (closedState.call 0).result ≠ none := nofun
  exact ⟨rfl, mem_singleton_self 0, (hran rfl).2 0 (mem_singleton_self 0), rfl,
    (hcalls 0).2.2.1 hresult⟩

end Snowy.Pool
