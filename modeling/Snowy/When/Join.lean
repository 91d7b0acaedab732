import Mathlib.Data.List.Perm.Basic
import Mathlib.Data.List.Nodup
import Mathlib.Logic.Function.Basic
import Mathlib.Logic.Relation

/-!
# Joins: `when_all` and `when_any`

A join starts one coroutine `collect` for every input and suspends until all of them have finished.
`collect` first yields to the owner loop, then runs its input, which may move to other loops, hops
back to the owner, and there publishes its result in one uninterrupted step. The parent runs on the
owner loop as well, so that no child runs while the parent is in its launch loop.

The model has the two forms of `when_all` (over a vector, and `detail::all` over a pack) and the
three forms of `when_any` (over a vector, typed, and with a variant as its result). They share the
state of `detail::join` and `collect`, and differ in the loop that launches the children. An
exception is a value of `ε`, a result a value of `α`; for a pack, `α` is the sum of the types of its
results. Results are taken not to throw when they are moved out of their slots at the end of a join.

## Main definitions

* `Snowy.When.Join` : `detail::join` with the slots of the results.
* `Snowy.When.Join.publish` : the completion step of `collect`.
* `Snowy.When.Form` : the forms of a join, with `Form.launch` and `Form.conclude`.
* `Snowy.When.State`, `Snowy.When.Step` : the parent, its children, and their steps.
-/

namespace Snowy.When

variable {ε α : Type*}

/-! ### The shared state -/

/-- `detail::join`, with the slots for the results of the children. `done` and `stop` are the flags
of the event and of the stop source. -/
structure Join (ε α : Type*) where
  done : Bool := false
  error : Option ε := none
  stop : Bool := false
  pending : ℕ := 0
  winner : Option ℕ := none
  values : List (Option α) := []

/-- The exception of a child, if it has failed. -/
def errorOf : Except ε α → Option ε
  | .error e => some e
  | .ok _ => none

@[simp]
theorem errorOf_error (e : ε) : errorOf (.error e : Except ε α) = some e := rfl

@[simp]
theorem errorOf_ok (v : α) : errorOf (.ok v : Except ε α) = none := rfl

/-- `value.emplace(std::move(*local))`, which may throw: the result of a child from that of its
input. -/
def emplace (r : Except ε α) (fault : Option ε) : Except ε α :=
  match r, fault with
  | .ok _, some e => .error e
  | r, _ => r

namespace Join

variable (j : Join ε α)

/-- The slot of a child that has not failed is engaged. -/
def store (value : ℕ) : Except ε α → Join ε α
  | .ok v => { j with values := j.values.set value (some v) }
  | .error _ => j

/-- The first completion of a race decides it and requests the others to stop; a join without a race
keeps the first exception. -/
def record (index : ℕ) (race : Bool) (r : Except ε α) : Join ε α :=
  if race then
    if j.winner.isNone then { j with winner := some index, error := errorOf r, stop := true } else j
  else if (errorOf r).isSome ∧ j.error.isNone then { j with error := errorOf r }
  else j

/-- `if (!--state.pending) state.done.set()`. -/
def retire : Join ε α :=
  { j with pending := j.pending - 1, done := j.done || j.pending - 1 == 0 }

/-- The end of `collect`, from `value.emplace` on. -/
def publish (value index : ℕ) (race : Bool) (r : Except ε α) : Join ε α :=
  ((j.store value r).record index race r).retire

end Join

/-! ### Children and parent -/

/-- Where a child is: in `ready_` of the owner, in its input on a loop (the owner is `0`), in
`messages_` of the owner with the result of its input, or finished. -/
inductive Phase (ε α : Type*) where
  | scheduled
  | running (l : ℕ)
  | hopping (r : Except ε α)
  | finished

/-- The frame of `collect`: its slot, its index, and whether it takes part in a race. -/
structure Frame (ε α : Type*) where
  value : ℕ
  index : ℕ
  race : Bool
  phase : Phase ε α := .scheduled

/-- How a join ends. `undefined` is the use of an empty `std::optional`. -/
inductive Outcome (ε α : Type*) where
  | all (values : List α)
  | any (index : ℕ) (value : α)
  | throws (e : ε)
  | invalidArgument
  | undefined

/-- The parent: at its first line, in the launch loop before the given input, suspended in
`done.join()`, in `ready_` of the owner, or at its end. -/
inductive Parent (ε α : Type*) where
  | start
  | launching (i : ℕ)
  | parked
  | ready
  | finished (o : Outcome ε α)

/-- The parent is suspended, so that the owner loop can run its children. -/
def Parent.Suspended (p : Parent ε α) : Prop := p = .parked ∨ p = .ready

/-- The state of a join. `startup` and `index` are variables of `when_any`. The last four fields are
histories: the children that were started, the input whose launch failed with its exception, the
children that have finished in the order of their completion steps, and their results. -/
structure State (ε α : Type*) where
  join : Join ε α := {}
  startup : Option ε := none
  index : ℕ := 0
  parent : Parent ε α := .start
  child : ℕ → Option (Frame ε α) := fun _ => none
  started : List ℕ := []
  refused : Option (ℕ × ε) := none
  order : List ℕ := []
  own : ℕ → Option (Except ε α) := fun _ => none

namespace State

/-- A join of `n` inputs before its first line, with the slots it is going to have. -/
def init (n : ℕ) : State ε α := { join := { values := List.replicate n none } }

variable (s : State ε α)

/-- The parent moves on. -/
def goto (p : Parent ε α) : State ε α := { s with parent := p }

/-- An assignment to the variable `index`. -/
def setIndex (index : ℕ) : State ε α := { s with index }

/-- A call of `collect` that does not throw: the child of the input `i` waits in `ready_`. -/
def collect (i value index : ℕ) (race : Bool) : State ε α :=
  { s with
    join := { s.join with pending := s.join.pending + 1 }
    child := Function.update s.child i (some { value, index, race })
    started := s.started ++ [i] }

/-- A call of `collect` that throws, in `when_all`. `pending` is incremented before the call, and
decremented by the handler. -/
def failAll (i : ℕ) (e : ε) : State ε α :=
  { s with
    join := { s.join with pending := s.join.pending + 1 - 1, error := some e }
    refused := some (i, e) }

/-- A call of `collect`, or of a factory, that throws in `when_any`. -/
def failAny (i : ℕ) (e : ε) : State ε α :=
  { s with
    join := { s.join with pending := s.join.pending + 1 - 1, stop := true }
    startup := some e
    refused := some (i, e) }

/-- A child moves on before its completion step. -/
def move (i : ℕ) (f : Frame ε α) (p : Phase ε α) : State ε α :=
  { s with child := Function.update s.child i (some { f with phase := p }) }

/-- The completion step of a child. When nothing is pending, `done.set()` notifies the parent if it
is suspended. -/
def complete (i : ℕ) (f : Frame ε α) (r : Except ε α) : State ε α :=
  { s with
    join := s.join.publish f.value f.index f.race r
    parent := match s.parent with
      | .parked => if s.join.pending - 1 = 0 then .ready else .parked
      | p => p
    child := Function.update s.child i (some { f with phase := .finished })
    order := s.order ++ [i]
    own := Function.update s.own i (some r) }

/-- The exception of a child that has failed. -/
def failure (i : ℕ) : Option ε := (s.own i).bind errorOf

end State

/-! ### The forms -/

/-- The overloads of `when_all` and `when_any`. -/
inductive Form where
  | allVector
  | allPack
  | anyVector
  | anyTyped
  | anyVariant
  deriving DecidableEq, Repr

namespace Form

/-- Whether the first completion ends the join. -/
def race : Form → Bool
  | allVector | allPack => false
  | anyVector | anyTyped | anyVariant => true

/-- The launch loop at the input `i` of `n`; `fault` is the exception of the launch, if it throws.
The loops over vectors are left by `break`, the others skip the inputs that are left. -/
def launch (n : ℕ) (s : State ε α) (i : ℕ) (fault : Option ε) : Form → State ε α
  | allVector =>
    match fault with
    | none => (s.collect i i i false).goto (.launching (i + 1))
    | some e => (s.failAll i e).goto (.launching n)
  | allPack =>
    if s.join.error.isSome then s.goto (.launching (i + 1))
    else match fault with
      | none => (s.collect i i 0 false).goto (.launching (i + 1))
      | some e => (s.failAll i e).goto (.launching (i + 1))
  | anyVector =>
    match fault with
    | none => (s.collect i i i true).goto (.launching (i + 1))
    | some e => (s.failAny i e).goto (.launching n)
  | anyTyped =>
    if s.startup.isSome then s.goto (.launching (i + 1))
    else match fault with
      | none =>
        ((s.collect i s.index s.index true).setIndex (s.index + 1)).goto (.launching (i + 1))
      | some e => (s.failAny i e).goto (.launching (i + 1))
  | anyVariant =>
    if s.startup.isSome then s.goto (.launching (i + 1))
    else match fault with
      | none => ((s.collect i i s.index true).setIndex (s.index + 1)).goto (.launching (i + 1))
      | some e => ((s.failAny i e).setIndex (s.index + 1)).goto (.launching (i + 1))

/-- The last lines of a join, after its children have finished. -/
def conclude (s : State ε α) (form : Form) : Outcome ε α :=
  if form.race then
    match s.startup, s.join.error, s.join.winner with
    | some e, _, _ => .throws e
    | none, some e, _ => .throws e
    | none, none, none => .undefined
    | none, none, some w =>
      match s.join.values[w]? with
      | some (some v) => .any w v
      | _ => .undefined
  else
    match s.join.error with
    | some e => .throws e
    | none =>
      match s.join.values.mapM id with
      | some vs => .all vs
      | none => .undefined

/-- The first line of a join of `n` inputs: only the form of `when_any` over a vector can be called
with none. -/
def enter (n : ℕ) (s : State ε α) (form : Form) : State ε α :=
  if form = .anyVector ∧ n = 0 then s.goto (.finished .invalidArgument)
  else s.goto (.launching 0)

/-- `if (state.pending) co_await state.done.join();` and, if nothing is pending, the end of the
join. The awaiter is notified at once if the event is set. -/
def drain (s : State ε α) (form : Form) : State ε α :=
  if s.join.pending ≠ 0 then s.goto (if s.join.done then .ready else .parked)
  else s.goto (.finished (form.conclude s))

end Form

/-! ### Steps -/

/-- The steps of a join: those of the parent, and those of the child of an input. -/
inductive Act (ε α : Type*) where
  | enter
  | launch (fault : Option ε)
  | join
  | wake
  | resume (i : ℕ)
  | migrate (i l : ℕ)
  | leave (i : ℕ) (r : Except ε α)
  | finish (i : ℕ) (r : Except ε α) (fault : Option ε)
  | deliver (i : ℕ) (fault : Option ε)

/-- A step of a join of `n` inputs. The owner loop resumes a child, runs a message, or continues a
child only while the parent is suspended, since they share its thread. Children on other loops go on
at any time. The completion step follows the end of the input if that is on the owner loop
(`finish`), and otherwise the delivery of the hop. -/
inductive Step (form : Form) (n : ℕ) (s : State ε α) : Act ε α → State ε α → Prop where
  | enter (h : s.parent = .start) : Step form n s .enter (form.enter n s)
  | launch (i : ℕ) (fault : Option ε) (h : s.parent = .launching i) (hi : i < n) :
      Step form n s (.launch fault) (form.launch n s i fault)
  | join (h : s.parent = .launching n) : Step form n s .join (form.drain s)
  | wake (h : s.parent = .ready) :
      Step form n s .wake (s.goto (.finished (form.conclude s)))
  | resume (i : ℕ) (f : Frame ε α) (free : s.parent.Suspended) (h : s.child i = some f)
      (at_yield : f.phase = .scheduled) : Step form n s (.resume i) (s.move i f (.running 0))
  | migrate (i l : ℕ) (f : Frame ε α) (l₀ : ℕ) (h : s.child i = some f)
      (at_input : f.phase = .running l₀) : Step form n s (.migrate i l) (s.move i f (.running l))
  | leave (i : ℕ) (r : Except ε α) (f : Frame ε α) (l : ℕ) (h : s.child i = some f)
      (at_input : f.phase = .running l) (away : l ≠ 0) :
      Step form n s (.leave i r) (s.move i f (.hopping r))
  | finish (i : ℕ) (r : Except ε α) (fault : Option ε) (f : Frame ε α) (free : s.parent.Suspended)
      (h : s.child i = some f) (at_input : f.phase = .running 0) :
      Step form n s (.finish i r fault) (s.complete i f (emplace r fault))
  | deliver (i : ℕ) (r : Except ε α) (fault : Option ε) (f : Frame ε α)
      (free : s.parent.Suspended) (h : s.child i = some f) (at_hop : f.phase = .hopping r) :
      Step form n s (.deliver i fault) (s.complete i f (emplace r fault))

/-- The states of the runs of a join of `n` inputs. -/
def Reachable (form : Form) (n : ℕ) (s : State ε α) : Prop :=
  Relation.ReflTransGen (fun s t => ∃ a, Step form n s a t) (.init n) s

/-- **Invariants.** What holds at the start of a join and is kept by every step holds in every state
of every run. -/
theorem Reachable.induction {form : Form} {n : ℕ} {P : State ε α → Prop} (init : P (.init n))
    (step : ∀ {s t a}, P s → Step form n s a t → P t) {s : State ε α} (h : Reachable form n s) :
    P s := by
  induction h with
  | refl => exact init
  | tail _ hstep ih =>
    obtain ⟨a, ha⟩ := hstep
    exact step ih ha

/-- A run that begins with a given step. -/
theorem exists_run_of_step {form : Form} {n : ℕ} {P : State ε α → Prop} {s t : State ε α}
    {a : Act ε α} (h : Step form n s a t)
    (ht : ∃ u, Relation.ReflTransGen (fun s t => ∃ a, Step form n s a t) t u ∧ P u) :
    ∃ u, Relation.ReflTransGen (fun s t => ∃ a, Step form n s a t) s u ∧ P u := by
  obtain ⟨u, hu, hP⟩ := ht
  exact ⟨u, .head ⟨a, h⟩ hu, hP⟩

end Snowy.When
