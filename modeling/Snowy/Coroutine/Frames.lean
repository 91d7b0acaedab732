import Mathlib.Data.Nat.Notation
import Mathlib.Logic.Function.Basic

/-!
# Tasks, awaiters and coroutine frames

A call of a coroutine function that returns a `task` allocates a frame, moves the arguments into it
and returns the task, which owns the frame; the body has not begun. `co_await` of the task moves the
handle into an awaiter, which lives in the frame of the awaiting coroutine, records that coroutine
as the continuation and transfers to the child. At its end the child transfers back, the awaiting
coroutine takes the result, and the destructor of the awaiter destroys the child. A coroutine that
returns `detached` begins at once, and its frame goes away with its end.

The state holds the frames and the task objects. Every thread may take a step at any time, and a
coroutine that is suspended in an operation of a loop may be resumed at any time, but once for each
suspension. The destructor of a frame leaves the task objects that live in it without a home; they
are destroyed by steps of their own, between which other threads may run. Task objects outside of
frames and those in frames whose body has begun can be used by every step, since a coroutine may
have passed references to them on; nobody knows those in a frame whose body has not begun.

What C++ leaves undefined, and what the destructors of pending operations answer with
`std::terminate`, sets `fault`: a handle is resumed whose coroutine is not suspended, a frame is
used after its destruction, a coroutine is destroyed between its first and its last suspension
point, or an empty optional is read.

## Main definitions

* `Snowy.Coroutine.Promise` : `task_promise`, and the functions of the source on it.
* `Snowy.Coroutine.Frame`, `Snowy.Coroutine.State` : frames, task objects and what has been handed
  to the awaiting coroutines.
* `Snowy.Coroutine.State.coAwait`, `State.finalSuspend`, `State.awaitResume`, `State.endAwait` : the
  life of an await.
* `Snowy.Coroutine.Act`, `Snowy.Coroutine.State.act` : what the threads can do.
-/

namespace Snowy.Coroutine

open Function

/-- An exception: one that a body throws, or the `std::logic_error` of an await of an empty task. -/
inductive Exn (ε : Type*) where
  | user (e : ε)
  | emptyTask
  deriving DecidableEq, Repr

/-- How a body ends: with `co_return` of a value, with `co_return` of a `task<void>`, or with an
exception. -/
inductive Outcome (α ε : Type*) where
  | value (v : α)
  | void
  | exception (e : Exn ε)
  deriving DecidableEq, Repr

/-- What an await yields of the outcome of a body: a value is moved to the awaiting coroutine, which
may throw. -/
def Outcome.moved {α ε : Type*} (throws : Option ε) : Outcome α ε → Outcome α ε
  | .value v =>
    match throws with
    | some e => .exception (.user e)
    | none => .value v
  | .void => .void
  | .exception e => .exception e

/-- The fields of `task_promise`. A `continuation` of `none` is `std::noop_coroutine()`, and
`isVoid` tells the specialisation `task_promise<void, A>` from the general class. -/
structure Promise (α ε : Type*) where
  isVoid : Bool := false
  continuation : Option ℕ := none
  exception : Option (Exn ε) := none
  value : Option α := none
  deriving DecidableEq, Repr

namespace Promise

variable {α ε : Type*} (p : Promise α ε)

/-- `task_promise_base::set_continuation`. -/
def setContinuation (f : ℕ) : Promise α ε := { p with continuation := some f }

/-- `task_promise_base::unhandled_exception`. -/
def unhandledException (e : Exn ε) : Promise α ε := { p with exception := some e }

/-- `task_promise::return_value`. -/
def returnValue (v : α) : Promise α ε := { p with value := some v }

/-- The end of the body: `return_value`, `return_void` or `unhandled_exception`. -/
def finish : Outcome α ε → Promise α ε
  | .value v => p.returnValue v
  | .void => p
  | .exception e => p.unhandledException e

/-- `task_promise::take_result` of both classes, where moving the value throws `throws` if that is
not `none`. The result `none` is the use of an empty optional. -/
def takeResult (throws : Option ε) : Option (Outcome α ε) :=
  match p.exception with
  | some e => some (.exception e)
  | none => if p.isVoid then some .void else p.value.map fun v => (Outcome.value v).moved throws

@[simp] theorem continuation_finish (o : Outcome α ε) :
    (p.finish o).continuation = p.continuation := by
  cases o <;> rfl

end Promise

/-- The outcomes that the type of a coroutine allows: `co_return` of a value exactly if the task is
not a `task<void>`. -/
def Outcome.Fits {α ε : Type*} (isVoid : Bool) : Outcome α ε → Prop
  | .value _ => isVoid = false
  | .void => isVoid = true
  | .exception _ => True

instance {α ε : Type*} (isVoid : Bool) (o : Outcome α ε) : Decidable (o.Fits isVoid) := by
  cases o <;> unfold Outcome.Fits <;> infer_instance

/-- Where a coroutine is: not allocated, at its initial suspension, executed by a thread, suspended
in an operation of a loop, suspended in `co_await` of a task whose frame is `child`, resumed from
there but not yet in `await_resume`, at its final suspension, or destroyed. -/
inductive Point where
  | absent
  | initial
  | running
  | suspended
  | awaiting (child : ℕ)
  | resumed (child : ℕ)
  | final
  | destroyed
  deriving DecidableEq, Repr

/-- The body has begun and has not ended. -/
def Point.Active : Point → Prop
  | .running | .suspended | .awaiting _ | .resumed _ => True
  | .absent | .initial | .final | .destroyed => False

instance (p : Point) : Decidable p.Active := by
  cases p <;> unfold Point.Active <;> infer_instance

/-- A frame. `spent` are the children whose awaiters have returned from `await_resume` and live
until the end of the full expression. `outcome` and `destroyed` are histories: how the body has
ended, and how often the frame was destroyed. -/
structure Frame (α ε : Type*) where
  detached : Bool := false
  promise : Promise α ε := {}
  point : Point := .absent
  spent : List ℕ := []
  outcome : Option (Outcome α ε) := none
  destroyed : ℕ := 0

/-- A `task` object. It is a parameter or a local variable of the coroutine `home`, or belongs to no
coroutine. -/
structure Object where
  handle : Option ℕ
  home : Option ℕ
  deriving DecidableEq, Repr

/-- What an await has handed to the awaiting coroutine; an empty task has no `child`. `throws` is
the exception of moving the value, if there was one. -/
structure Answer (α ε : Type*) where
  parent : ℕ
  child : Option ℕ := none
  throws : Option ε := none
  outcome : Outcome α ε
  deriving DecidableEq, Repr

/-- The frames, the task objects that are alive, and the results that were handed out. -/
structure State (α ε : Type*) where
  frames : ℕ → Frame α ε := fun _ => {}
  frameCount : ℕ := 0
  objects : ℕ → Option Object := fun _ => none
  objectCount : ℕ := 0
  answers : List (Answer α ε) := []
  terminated : Bool := false
  fault : Bool := false

namespace State

variable {α ε : Type*} (s : State α ε)

/-- A frame changes. -/
def modify (f : ℕ) (g : Frame α ε → Frame α ε) : State α ε :=
  { s with frames := update s.frames f (g (s.frames f)) }

/-- A coroutine goes on. -/
def goto (f : ℕ) (point : Point) : State α ε := s.modify f fun q => { q with point }

/-- Undefined behaviour. -/
def failed : State α ε := { s with fault := true }

/-! ### Coroutine handles -/

/-- `std::coroutine_handle::resume`, and symmetric transfer to the handle. -/
def resume (f : ℕ) : State α ε :=
  match (s.frames f).point with
  | .initial | .suspended => s.goto f .running
  | .awaiting c => s.goto f (.resumed c)
  | _ => s.failed

/-- `std::coroutine_handle::destroy`. -/
def destroy (f : ℕ) : State α ε :=
  match (s.frames f).point with
  | .initial | .final =>
    s.modify f fun q => { q with point := .destroyed, destroyed := q.destroyed + 1 }
  | _ => s.failed

/-! ### Task objects -/

/-- The field `handle_` of a task object. -/
def handle (x : ℕ) : Option ℕ := (s.objects x).bind Object.handle

/-- An assignment to `handle_`. -/
def setHandle (x : ℕ) (h : Option ℕ) : State α ε :=
  { s with objects := update s.objects x ((s.objects x).map ({ · with handle := h })) }

/-- A new task object. -/
def construct (h home : Option ℕ) : State α ε :=
  { s with
    objects := update s.objects s.objectCount (some { handle := h, home })
    objectCount := s.objectCount + 1 }

/-- `if (handle_) handle_.destroy();` -/
def destroyHandle : Option ℕ → State α ε
  | some f => s.destroy f
  | none => s

/-- `task::task(task&&)`. -/
def moveConstruct (x : ℕ) (home : Option ℕ) : State α ε :=
  (s.setHandle x none).construct (s.handle x) home

/-- `task::operator=(task&&)` of the object `x`. -/
def moveAssign (x y : ℕ) : State α ε :=
  if x = y then s
  else ((s.destroyHandle (s.handle x)).setHandle y none).setHandle x (s.handle y)

/-- `task::~task`. -/
def destroyTask (x : ℕ) : State α ε :=
  let s' := s.destroyHandle (s.handle x)
  { s' with objects := update s'.objects x none }

/-- The arguments of a coroutine are moved into the parameters of its frame. -/
def moveParams (f : ℕ) : List ℕ → State α ε → State α ε
  | [], s => s
  | x :: xs, s => moveParams f xs (s.moveConstruct x (some f))

/-- The allocation of a frame. -/
def allocate (q : Frame α ε) : State α ε :=
  { s with
    frames := update s.frames s.frameCount q
    frameCount := s.frameCount + 1 }

/-- A call of a coroutine function that returns a `task`: `get_return_object` makes the task, and
`initial_suspend` suspends before the body. -/
def call (isVoid : Bool) (params : List ℕ) (home : Option ℕ) : State α ε :=
  moveParams s.frameCount params
    ((s.allocate { point := .initial, promise := { isVoid } }).construct (some s.frameCount) home)

/-- A call of a coroutine function that returns `detached`, such as `wait_task` or `loop::start`:
the body begins at once. -/
def detach (params : List ℕ) : State α ε :=
  moveParams s.frameCount params
    (s.allocate { point := .running, detached := true, promise := { isVoid := true } })

/-! ### The life of an await -/

/-- A result, or an exception, is handed to a coroutine. -/
def answer (a : Answer α ε) : State α ε := { s with answers := a :: s.answers }

/-- `task::awaiter::await_suspend`: the coroutine `f` becomes the continuation of the child, and the
child is entered. -/
def awaitSuspend (f c : ℕ) : State α ε :=
  ((s.modify c fun q => { q with promise := q.promise.setContinuation f }).goto f
    (.awaiting c)).resume c

/-- `co_await std::move(x)` in the coroutine `f`. `await_ready` is true of an empty task only, and
then `await_resume` throws. -/
def coAwait (f x : ℕ) : State α ε :=
  match s.handle x with
  | none => s.answer { parent := f, outcome := .exception .emptyTask }
  | some c => (s.setHandle x none).awaitSuspend f c

/-- `task_promise_base::final_suspend`: `final_awaiter` transfers to the continuation. -/
def finalSuspend (f : ℕ) : State α ε :=
  match (s.frames f).promise.continuation with
  | some p => (s.goto f .final).resume p
  | none => s.goto f .final

/-- The end of the body of a task: the result is stored in the promise. -/
def finishTask (f : ℕ) (o : Outcome α ε) : State α ε :=
  (s.modify f fun q =>
    { q with promise := q.promise.finish o, outcome := some o }).finalSuspend f

/-- The end of the body of a `detached`: its frame goes away, and an exception that leaves the body
terminates the program. -/
def finishDetached (f : ℕ) : Outcome α ε → State α ε
  | .exception _ => { s with terminated := true }
  | .value _ | .void =>
    s.modify f fun q =>
      { q with point := .destroyed, outcome := some .void, destroyed := q.destroyed + 1 }

/-- The end of the body of `f`. -/
def complete (f : ℕ) (o : Outcome α ε) : State α ε :=
  if (s.frames f).detached then s.finishDetached f o else s.finishTask f o

/-- The promise of a frame that has not been destroyed. -/
def promise (f : ℕ) : Option (Promise α ε) :=
  match (s.frames f).point with
  | .absent | .destroyed => none
  | _ => some (s.frames f).promise

/-- `task::awaiter::await_resume` in the coroutine `f`, whose awaiter owns the frame `c`. -/
def awaitResume (f c : ℕ) (throws : Option ε) : State α ε :=
  match (s.promise c).bind (·.takeResult throws) with
  | some outcome =>
    (s.modify f fun q => { q with point := .running, spent := c :: q.spent }).answer
      { parent := f, child := some c, throws, outcome }
  | none => s.failed

/-- `task::awaiter::~awaiter` at the end of the full expression of the await. -/
def endAwait (f c : ℕ) : State α ε :=
  (s.modify f fun q => { q with spent := q.spent.erase c }).destroy c

/-! ### Steps -/

/-- Code can name what lives in the given home: it belongs to no coroutine, or to one whose body has
begun and that still exists. -/
def Open : Option ℕ → Prop
  | none => True
  | some f => (s.frames f).point.Active ∨ (s.frames f).point = .final

instance (home : Option ℕ) : Decidable (s.Open home) := by
  cases home <;> unfold Open <;> infer_instance

/-- The task object `x` is alive, and code can name it. -/
def Accessible (x : ℕ) : Prop := ∃ o, s.objects x = some o ∧ s.Open o.home

/-- The destructor of the task object `x` may run: where code can name it, and after the
destruction of the frame in which it lives. -/
def Expires (x : ℕ) : Prop :=
  ∃ o, s.objects x = some o ∧
    (s.Open o.home ∨ ∃ f, o.home = some f ∧ (s.frames f).point = .destroyed)

end State

/-- What a thread can do next: call a coroutine function, use a task object, go on with the
coroutine that it executes, or resume one from an operation of a loop. -/
inductive Act (α ε : Type*) where
  | call (isVoid : Bool) (params : List ℕ) (home : Option ℕ)
  | detach (params : List ℕ)
  | moveConstruct (x : ℕ) (home : Option ℕ)
  | moveAssign (x y : ℕ)
  | destroyTask (x : ℕ)
  | coAwait (f x : ℕ)
  | suspend (f : ℕ)
  | resume (f : ℕ)
  | awaitResume (f c : ℕ) (throws : Option ε)
  | endAwait (f c : ℕ)
  | complete (f : ℕ) (o : Outcome α ε)
  deriving DecidableEq, Repr

namespace State

variable {α ε : Type*} (s : State α ε)

/-- When a thread can do so. The temporaries of an expression are gone when the body ends. -/
def Enabled : Act α ε → Prop
  | .call _ params home => (∀ x ∈ params, s.Accessible x) ∧ s.Open home
  | .detach params => ∀ x ∈ params, s.Accessible x
  | .moveConstruct x home => s.Accessible x ∧ s.Open home
  | .moveAssign x y => s.Accessible x ∧ s.Accessible y
  | .destroyTask x => s.Expires x
  | .coAwait f x => (s.frames f).point = .running ∧ s.Accessible x
  | .suspend f => (s.frames f).point = .running
  | .resume f => (s.frames f).point = .suspended
  | .awaitResume f c _ => (s.frames f).point = .resumed c
  | .endAwait f c => (s.frames f).point = .running ∧ c ∈ (s.frames f).spent
  | .complete f o => (s.frames f).point = .running ∧ (s.frames f).spent = [] ∧
      o.Fits (s.frames f).promise.isVoid

/-- What happens then. -/
def act : Act α ε → State α ε
  | .call isVoid params home => s.call isVoid params home
  | .detach params => s.detach params
  | .moveConstruct x home => s.moveConstruct x home
  | .moveAssign x y => s.moveAssign x y
  | .destroyTask x => s.destroyTask x
  | .coAwait f x => s.coAwait f x
  | .suspend f => s.goto f .suspended
  | .resume f => s.resume f
  | .awaitResume f c throws => s.awaitResume f c throws
  | .endAwait f c => s.endAwait f c
  | .complete f o => s.complete f o

end State

variable {α ε : Type*}

/-- The states that are reached before the program terminates. -/
inductive Reachable : State α ε → Prop
  | init : Reachable {}
  | step {s : State α ε} (h : Reachable s) (a : Act α ε) (ht : s.terminated = false)
      (ha : s.Enabled a) : Reachable (s.act a)

end Snowy.Coroutine
