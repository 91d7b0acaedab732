import Snowy.Basic
import Snowy.Lib.HeapRange
import Mathlib.Logic.Relation

/-!
# `loop::run` interleaved with other threads

The loop thread executes `run()`; any number of other threads call `post`, `message::send`,
`stop`, stop callbacks and guards. A mutex section is one step, and so is every access to an
atomic. The stores of `stop()`, of `op::cancel_fn` and of a guard's destructor are therefore
separate steps: a call that has begun and not ended is an element of `State.calls`.

`Pc` gives the place of the loop thread in `run()`, with the local variables of that place.
Posted functions, messages, resumed coroutines and completion handlers are user code on the loop
thread. User code may suspend a coroutine at any time: the steps of `await_suspend` and of
`uring::submit` are `User`. What user code does with the other threads' functions (posting,
stopping, guards) is covered by their steps, which are enabled at every place.

## Main definitions

* `Snowy.Loop.State` : the loop, its operations, the loop thread and the calls in progress.
* `Snowy.Loop.ThreadStep`, `Snowy.Loop.RunStep`, `Snowy.Loop.UserStep` : the steps of the other
  threads, of `run()` itself, and of user code on the loop thread.
* `Snowy.Loop.Reachable` : the states of all interleavings, from a loop that has just been built.
-/

namespace Snowy.Loop

/-- What is fixed when a loop is built: `budget_`, the IOPOLL flag of the ring, and the heap
algorithms of the standard library. -/
structure Config where
  budget : ℕ := 64
  iopoll : Bool := false
  heap : HeapRange ℕ ℤ := .sorting

/-- Who sets `cancel_`: `loop::stop`, or the `cancel_fn` of an operation. -/
inductive Setter where
  | stop
  | fire (id : ℕ)
  deriving DecidableEq, Repr

/-- A call in progress, named after its next step: the store to `cancel_` of a setter, the
`wake()` of a setter, or the `wake()` in the destructor of a guard. -/
inductive Call where
  | store (p : Setter)
  | wake (p : Setter)
  | released (g : ℕ)
  deriving DecidableEq, Repr

/-- The operations a coroutine can suspend on. A `batch` is a list of entries of `uring::submit`,
a `remote` wait is a `remote_wait`. -/
inductive Kind where
  | timer (due : ℤ)
  | io (draining : Bool)
  | batch (draining : Bool)
  | wait (interruptible : Bool)
  | remote (interruptible : Bool)
  deriving DecidableEq, Repr

/-- The operation as its constructor leaves it. -/
def Kind.make (token : Option ℕ) : Kind → Op
  | .timer due => { cls := .timer, token, due }
  | .io draining => { cls := .io, token, draining }
  | .batch draining => { cls := .io, token, draining, retire := true }
  | .wait interruptible => { cls := .wait, token, interruptible }
  | .remote interruptible => { cls := .wait, token, interruptible, interrupt := true }

/-- The class of the operations of a kind. -/
def Kind.cls : Kind → OpClass
  | .timer _ => .timer
  | .io _ | .batch _ => .io
  | .wait _ | .remote _ => .wait

/-- `arm` is skipped by a wait that is not interruptible. -/
def Kind.arms : Kind → Bool
  | .wait interruptible => interruptible
  | .remote interruptible => interruptible
  | _ => true

/-- The place of a suspending coroutine: at the two checks of `arm` (or of `uring::submit`), at
the registration of the callbacks in `todo`, inside the callback of `id` that runs at once
(`stored` after its store to `cancel_`), or at the linking of the operations in `todo`. -/
inductive Stage where
  | stopping
  | token
  | register (todo : List ℕ)
  | inline (id : ℕ) (stored : Bool) (todo : List ℕ)
  | link (todo : List ℕ)
  deriving DecidableEq, Repr

/-- The operations of a suspension that are not yet linked. -/
def Stage.unlinked (ids : List ℕ) : Stage → List ℕ
  | .link todo => todo
  | _ => ids

/-- User code on the loop thread: between suspensions, or suspending on the operations `ids`. -/
inductive User where
  | none
  | suspend (kind : Kind) (ids : List ℕ) (stage : Stage)
  deriving DecidableEq, Repr

/-- The kind of the operations that user code is suspending on. -/
def User.kind : User → Option Kind
  | .none => Option.none
  | .suspend kind _ _ => some kind

/-- The operations that user code is suspending on and has not linked. -/
def User.unlinked : User → List ℕ
  | .none => []
  | .suspend _ ids stage => stage.unlinked ids

/-- The place of the loop thread in `expire()`. A scan keeps the operations it has not reached. -/
inductive Phase where
  | exchange
  | load
  | timers (all : Bool) (kept rest : List ℕ)
  | io (all : Bool) (rest : List ℕ)
  | waits (all : Bool) (rest : List ℕ)
  | due (now : ℤ)
  deriving DecidableEq, Repr

/-- The three stores of `stop()` when the loop thread runs it in `fail()`. -/
inductive FailStage where
  | stopping
  | cancel
  | wake
  deriving DecidableEq, Repr

/-- The place of the loop thread in `run()`. -/
inductive Pc where
  | outside
  | drain
  | posts (batch : List ℕ) (msgs : List Message)
  | fail (stage : FailStage) (batch : List ℕ) (msgs : List Message)
  | messages (msgs : List Message)
  | expire (phase : Phase)
  | resume (left : ℕ)
  | sample
  | test (posted : Bool)
  | holds
  | stopped
  | branch (posted : Bool)
  | poll (delay : ℤ)
  | retire (wake : Bool)
  deriving DecidableEq, Repr

/-- The places where user code runs. -/
def Pc.isUser : Pc → Bool
  | .outside | .posts _ _ | .messages _ | .resume _ | .retire _ => true
  | _ => false

/-- The messages detached from `messages_` that have not run. -/
def Pc.detached : Pc → List Message
  | .posts _ msgs | .fail _ _ msgs | .messages msgs => msgs
  | _ => []

/-- The whole system. `guards` are the live guards and `next` is the next unused pointer. The
fields from `setters` on are histories, which no step reads: who has set `cancel_` since the last
exchange of `expire()`, whose release has brought `holds_` to zero since the last exit test, the
functions posted and run, the messages sent and run, the failures since the last normal return of
`run()`, and what each such return has thrown. -/
structure State extends Owner where
  pc : Pc := .outside
  user : User := .none
  calls : List Call := []
  guards : List ℕ := []
  drains : ℕ := 0
  next : ℕ := 0
  error : Option ℕ := none
  setters : List Setter := []
  dropped : List ℕ := []
  posted : List ℕ := []
  ran : List ℕ := []
  sent : List Message := []
  delivered : List Message := []
  failures : List ℕ := []
  raised : List (Option ℕ) := []

namespace State

variable (s : State)

/-- No callback of the operation is in flight, so that `callback.reset()` does not block. -/
def Quiet (id : ℕ) : Prop :=
  Call.store (.fire id) ∉ s.calls ∧ Call.wake (.fire id) ∉ s.calls

instance (id : ℕ) : Decidable (s.Quiet id) := inferInstanceAs (Decidable (_ ∧ _))

/-- The exit test of `run()` up to its read of `holds_`. -/
def idle (posted : Bool) : Bool :=
  s.loop.roots == 0 && s.loop.io.isEmpty && s.loop.waits.isEmpty && s.loop.timers.isEmpty &&
    s.loop.ready.isEmpty && !posted

/-- How long `poll` waits: its argument, bounded by one millisecond while a DRAIN request suppresses
the wake poll. -/
def bound (delay : ℤ) : ℤ :=
  if s.drains ≠ 0 ∧ (delay < 0 ∨ 1000000 < delay) then 1000000 else delay

end State

/-! ### The other threads -/

/-- The steps that any thread can take at any time. -/
inductive ThreadAct where
  | post (fn : ℕ)
  | send (m : Message)
  | deliver (id : ℕ) (error : Option Errc)
  | stop
  | request (token : ℕ)
  | fire (id : ℕ)
  | store (p : Setter)
  | wake (p : Setter)
  | acquire (g : ℕ)
  | release (g : ℕ)
  | wakeReleased (g : ℕ)
  deriving DecidableEq, Repr

/-- The steps of threads other than the loop thread. A function object is named by the call of
`post` that queued it, and a message by the node that is queued, so both are fresh. `deliver` is
`remote_wait::deliver`, called with the mutex of the waiter's queue held; `fire` is the first
store of `cancel_fn`, run by the thread that requested the stop. -/
inductive ThreadStep (s : State) : ThreadAct → State → Prop where
  | post (fn : ℕ) (fresh : fn ∉ s.posted) :
      ThreadStep s (.post fn)
        { s with loop := s.loop.post fn, posted := s.posted ++ [fn] }
  | send (m : Message) (fresh : m ∉ s.sent) (hop : ∃ n, m = .hop n) :
      ThreadStep s (.send m)
        { s with loop := s.loop.send m, sent := s.sent ++ [m] }
  | deliver (id : ℕ) (error : Option Errc) (linked : (s.op id).linked = true) :
      ThreadStep s (.deliver id error)
        { s with
          toOwner := { s.setOp id (fun o => { o with linked := false, error }) with
            loop := s.loop.send (.wait id) }
          sent := s.sent ++ [.wait id] }
  | stop :
      ThreadStep s .stop
        { s with
          loop := { s.loop with stopping := true }
          calls := s.calls ++ [.store .stop] }
  | request (token : ℕ) :
      ThreadStep s (.request token)
        { s with requested := Function.update s.requested token true }
  | fire (id : ℕ) (registered : (s.op id).callback = true)
      (requested : s.stopRequested id = true) :
      ThreadStep s (.fire id)
        { s with
          toOwner := s.setOp id fun o => { o with canceled := true }
          calls := s.calls ++ [.store (.fire id)] }
  | store (p : Setter) (h : .store p ∈ s.calls) :
      ThreadStep s (.store p)
        { s with
          loop := { s.loop with cancel := true }
          calls := s.calls.erase (.store p) ++ [.wake p]
          setters := s.setters ++ [p] }
  | wake (p : Setter) (h : .wake p ∈ s.calls) :
      ThreadStep s (.wake p)
        { s with loop := s.loop.wake, calls := s.calls.erase (.wake p) }
  | acquire (g : ℕ) (h : g ∉ s.guards) :
      ThreadStep s (.acquire g)
        { s with
          loop := { s.loop with holds := s.loop.holds + 1 }
          guards := g :: s.guards }
  | release (g : ℕ) (h : g ∈ s.guards) :
      ThreadStep s (.release g)
        { s with
          loop := { s.loop with holds := s.loop.holds - 1 }
          guards := s.guards.erase g
          calls := s.calls ++ [.released g]
          dropped := if s.loop.holds - 1 = 0 then s.dropped ++ [g] else s.dropped }
  | wakeReleased (g : ℕ) (h : .released g ∈ s.calls) :
      ThreadStep s (.wakeReleased g)
        { s with loop := s.loop.wake, calls := s.calls.erase (.released g) }

/-! ### User code on the loop thread -/

/-- The state after a coroutine has begun to suspend on `n` new operations: they are constructed,
and a timer has reserved its place in `timers_`. -/
def State.begin (s : State) (kind : Kind) (n : ℕ) (token : Option ℕ) : State :=
  { s with
    op := fun i => if s.next ≤ i ∧ i < s.next + n then kind.make token else s.op i
    loop := { s.loop with
      timers := match kind with
        | .timer _ => s.loop.timers ++ [s.next]
        | _ => s.loop.timers }
    user := .suspend kind (List.range' s.next n)
      (if kind.arms then .stopping else .link (List.range' s.next n))
    next := s.next + n }

/-- The steps of user code. The first group is a coroutine suspending on operations, in the order
of `arm`, `await_suspend` and `uring::submit`; the second completes operations or changes the
roots of the loop. -/
inductive UserStep (cfg : Config) (s : State) : State → Prop where
  | begin (kind : Kind) (n : ℕ) (token : Option ℕ) (at_user : s.pc.isUser = true)
      (idle : s.user = .none) (single : n = 1 ∨ ∃ draining, kind = .batch draining) :
      UserStep cfg s (s.begin kind n token)
  | refuse (kind : Kind) (ids : List ℕ) (stage : Stage)
      (h : s.user = .suspend kind ids stage)
      (refused : stage = .stopping ∧ s.loop.stopping = true ∨
        stage = .token ∧ ∃ id ∈ ids, s.stopRequested id = true) :
      UserStep cfg s
        { s with
          op := fun i => if i ∈ ids then { s.op i with error := some .operationCanceled }
            else s.op i
          loop := { s.loop with
            timers := match kind with
              | .timer _ => s.loop.timers.dropLast
              | _ => s.loop.timers }
          user := .none }
  | notStopping (kind : Kind) (ids : List ℕ) (h : s.user = .suspend kind ids .stopping)
      (running : s.loop.stopping = false) :
      UserStep cfg s { s with user := .suspend kind ids .token }
  | notRequested (kind : Kind) (ids : List ℕ) (h : s.user = .suspend kind ids .token)
      (running : ∀ id ∈ ids, s.stopRequested id = false) :
      UserStep cfg s { s with user := .suspend kind ids (.register ids) }
  | register (kind : Kind) (ids : List ℕ) (id : ℕ) (todo : List ℕ)
      (h : s.user = .suspend kind ids (.register (id :: todo)))
      (quiet : s.stopRequested id = false) :
      UserStep cfg s
        { s with
          toOwner := s.setOp id fun o => { o with callback := o.token.isSome }
          user := .suspend kind ids (.register todo) }
  | registerFires (kind : Kind) (ids : List ℕ) (id : ℕ) (todo : List ℕ)
      (h : s.user = .suspend kind ids (.register (id :: todo)))
      (requested : s.stopRequested id = true) :
      UserStep cfg s
        { s with
          toOwner := s.setOp id fun o => { o with callback := true, canceled := true }
          user := .suspend kind ids (.inline id false todo) }
  | inlineStore (kind : Kind) (ids : List ℕ) (id : ℕ) (todo : List ℕ)
      (h : s.user = .suspend kind ids (.inline id false todo)) :
      UserStep cfg s
        { s with
          loop := { s.loop with cancel := true }
          user := .suspend kind ids (.inline id true todo)
          setters := s.setters ++ [.fire id] }
  | inlineWake (kind : Kind) (ids : List ℕ) (id : ℕ) (todo : List ℕ)
      (h : s.user = .suspend kind ids (.inline id true todo)) :
      UserStep cfg s
        { s with loop := s.loop.wake, user := .suspend kind ids (.register todo) }
  | registered (kind : Kind) (ids : List ℕ) (h : s.user = .suspend kind ids (.register [])) :
      UserStep cfg s { s with user := .suspend kind ids (.link ids) }
  | linkTimer (due : ℤ) (ids : List ℕ) (id : ℕ) (todo : List ℕ)
      (h : s.user = .suspend (.timer due) ids (.link (id :: todo))) :
      UserStep cfg s
        { s with
          toOwner := { s.setOp id (fun o => { o with active := true }) with
            loop := { s.loop with
              timers := cfg.heap.push (fun i => (s.op i).due) s.loop.timers } }
          user := .suspend (.timer due) ids (.link todo) }
  | linkIo (kind : Kind) (ids : List ℕ) (id : ℕ) (todo : List ℕ)
      (h : s.user = .suspend kind ids (.link (id :: todo)))
      (isIo : ∃ draining, kind = .io draining ∨ kind = .batch draining) :
      UserStep cfg s
        { s with
          toOwner := { s.setOp id (fun o => { o with active := true }) with
            loop := { s.loop with io := id :: s.loop.io } }
          drains := s.drains + (s.op id).draining.toNat
          user := .suspend kind ids (.link todo) }
  | linkEmpty (draining : Bool) (ids : List ℕ) (id : ℕ) (todo : List ℕ)
      (h : s.user = .suspend (.io draining) ids (.link (id :: todo))) (quiet : s.Quiet id) :
      UserStep cfg s
        { s with
          toOwner := s.finish id
          user := .suspend (.io draining) ids (.link todo) }
  | linkThrows (draining : Bool) (ids : List ℕ) (id : ℕ) (todo : List ℕ)
      (h : s.user = .suspend (.io draining) ids (.link (id :: todo))) (quiet : s.Quiet id) :
      UserStep cfg s
        { s with
          toOwner := s.setOp id fun o => { o with callback := false, active := false }
          user := .none }
  | linkWait (kind : Kind) (ids : List ℕ) (id : ℕ) (todo : List ℕ)
      (h : s.user = .suspend kind ids (.link (id :: todo)))
      (isWait : ∃ b, kind = .wait b) :
      UserStep cfg s
        { s with
          toOwner := s.enlist id
          user := .suspend kind ids (.link todo) }
  | linkRemote (kind : Kind) (ids : List ℕ) (id : ℕ) (todo : List ℕ)
      (h : s.user = .suspend kind ids (.link (id :: todo)))
      (isRemote : ∃ b, kind = .remote b) :
      UserStep cfg s
        { s with
          toOwner := (s.enlist id).setOp id fun o => { o with linked := true }
          user := .suspend kind ids (.link todo) }
  | suspended (kind : Kind) (ids : List ℕ) (h : s.user = .suspend kind ids (.link [])) :
      UserStep cfg s { s with user := .none }
  | notify (id : ℕ) (error : Option Errc) (at_user : s.pc.isUser = true) (idle : s.user = .none)
      (plain : (s.op id).interrupt = false) (waiting : id ∈ s.loop.waits) (quiet : s.Quiet id) :
      UserStep cfg s
        { s with toOwner := (s.setOp id fun o => { o with error }).notify id }
  | complete (wake : Bool) (id : ℕ) (h : s.pc = .retire wake) (idle : s.user = .none)
      (pending : id ∈ s.loop.io) (quiet : s.Quiet id) :
      UserStep cfg s
        { s with
          toOwner :=
            let t : Owner := { s.toOwner with loop := { s.loop with io := s.loop.io.erase id } }
            if (s.op id).retire then
              t.setOp id fun o => { o with callback := false, active := false }
            else t.finish id
          drains := s.drains - (s.op id).draining.toNat }
  | streamStop (wake : Bool) (id : ℕ) (h : s.pc = .retire wake) (idle : s.user = .none)
      (pending : id ∈ s.loop.io) :
      UserStep cfg s
        { s with
          toOwner := s.setOp id fun o => { o with canceled := true }
          calls := s.calls ++ [.store (.fire id)] }
  | schedule (root : Bool) (at_user : s.pc.isUser = true) (idle : s.user = .none) :
      UserStep cfg s
        { s with
          loop := { s.loop with
            ready := s.loop.ready ++ [s.next]
            roots := s.loop.roots + root.toNat }
          next := s.next + 1 }
  | rootDone (at_user : s.pc.isUser = true) (idle : s.user = .none) :
      UserStep cfg s { s with loop := { s.loop with roots := s.loop.roots - 1 } }
  | rootFails (e : ℕ) (at_user : s.pc.isUser = true) (idle : s.user = .none) :
      UserStep cfg s
        { s with
          loop := { s.loop with roots := s.loop.roots - 1, stopping := true }
          calls := s.calls ++ [.store .stop]
          error := s.error.or (some e)
          failures := s.failures ++ [e] }

/-! ### The loop thread in `run()` -/

/-- A step inside `run()`, its normal return, or its exit by an exception: out of `poll()`, or
out of `expire()` when a cancellation cannot be submitted. -/
inductive RunAct where
  | next
  | exit
  | pollThrows
  | cancelThrows
  deriving DecidableEq, Repr

/-- The state after `run()` has left its loop by `break`: `error_` is thrown and cleared. -/
def State.leave (s : State) : State :=
  { s with
    pc := .outside
    error := none
    failures := []
    raised := s.raised ++ [s.error] }

/-- The steps of `expire()`. A scan looks at one operation a step; it reads the flag of the
operation at that time, and `all` is what `stopping_` was after the exchange. -/
inductive ExpireStep (cfg : Config) (s : State) : State → Prop where
  | exchange (h : s.pc = .expire .exchange) (set : s.loop.cancel = true) :
      ExpireStep cfg s
        { s with
          loop := { s.loop with cancel := false }
          pc := .expire .load
          setters := [] }
  | clear (now : ℤ) (h : s.pc = .expire .exchange) (unset : s.loop.cancel = false) :
      ExpireStep cfg s { s with pc := .expire (.due now) }
  | load (h : s.pc = .expire .load) :
      ExpireStep cfg s { s with pc := .expire (.timers s.loop.stopping [] s.loop.timers) }
  | cancelTimer (all : Bool) (kept : List ℕ) (id : ℕ) (rest : List ℕ)
      (h : s.pc = .expire (.timers all kept (id :: rest)))
      (dead : all = true ∨ (s.op id).canceled = true) (quiet : s.Quiet id) :
      ExpireStep cfg s
        { s with
          toOwner := (s.fail id .operationCanceled).finish id
          pc := .expire (.timers all kept rest) }
  | keepTimer (all : Bool) (kept : List ℕ) (id : ℕ) (rest : List ℕ)
      (h : s.pc = .expire (.timers all kept (id :: rest)))
      (live : all = false ∧ (s.op id).canceled = false) :
      ExpireStep cfg s { s with pc := .expire (.timers all (kept ++ [id]) rest) }
  | eraseTimers (all : Bool) (kept : List ℕ) (h : s.pc = .expire (.timers all kept [])) :
      ExpireStep cfg s
        { s with
          loop := { s.loop with timers := cfg.heap.make (fun i => (s.op i).due) kept }
          pc := .expire (.io all s.loop.io) }
  | cancelIo (all : Bool) (id : ℕ) (rest : List ℕ) (h : s.pc = .expire (.io all (id :: rest)))
      (unsent : (s.op id).cancelSent = false) (dead : all = true ∨ (s.op id).canceled = true) :
      ExpireStep cfg s
        { s with
          toOwner := s.setOp id fun o => { o with cancelSent := true }
          pc := .expire (.io all rest) }
  | keepIo (all : Bool) (id : ℕ) (rest : List ℕ) (h : s.pc = .expire (.io all (id :: rest)))
      (keep : (s.op id).cancelSent = true ∨ all = false ∧ (s.op id).canceled = false) :
      ExpireStep cfg s { s with pc := .expire (.io all rest) }
  | ioDone (all : Bool) (h : s.pc = .expire (.io all [])) :
      ExpireStep cfg s { s with pc := .expire (.waits all s.loop.waits) }
  | interrupt (all : Bool) (id : ℕ) (rest : List ℕ)
      (h : s.pc = .expire (.waits all (id :: rest)))
      (dead : (s.op id).interruptible = true ∧ (all = true ∨ (s.op id).canceled = true))
      (hook : (s.op id).interrupt = true) (linked : (s.op id).linked = true)
      (quiet : s.Quiet id) :
      ExpireStep cfg s
        { s with
          toOwner := (s.setOp id fun o =>
            { o with linked := false, error := some .operationCanceled }).notify id
          pc := .expire (.waits all rest) }
  | interruptLate (all : Bool) (id : ℕ) (rest : List ℕ)
      (h : s.pc = .expire (.waits all (id :: rest)))
      (hook : (s.op id).interrupt = true) (unlinked : (s.op id).linked = false) :
      ExpireStep cfg s { s with pc := .expire (.waits all rest) }
  | cancelWait (all : Bool) (id : ℕ) (rest : List ℕ)
      (h : s.pc = .expire (.waits all (id :: rest)))
      (dead : (s.op id).interruptible = true ∧ (all = true ∨ (s.op id).canceled = true))
      (plain : (s.op id).interrupt = false) (quiet : s.Quiet id) :
      ExpireStep cfg s
        { s with
          toOwner := (s.fail id .operationCanceled).notify id
          pc := .expire (.waits all rest) }
  | keepWait (all : Bool) (id : ℕ) (rest : List ℕ)
      (h : s.pc = .expire (.waits all (id :: rest)))
      (live : (s.op id).interruptible = false ∨ all = false ∧ (s.op id).canceled = false) :
      ExpireStep cfg s { s with pc := .expire (.waits all rest) }
  | waitsDone (now : ℤ) (all : Bool) (h : s.pc = .expire (.waits all [])) :
      ExpireStep cfg s { s with pc := .expire (.due now) }
  | dueTimer (now : ℤ) (id : ℕ) (rest : List ℕ) (h : s.pc = .expire (.due now))
      (front : s.loop.timers = id :: rest) (due : (s.op id).due ≤ now) (quiet : s.Quiet id) :
      ExpireStep cfg s
        { s with
          toOwner := { s.toOwner with
            loop := { s.loop with
              timers :=
                (cfg.heap.pop (fun i => (s.op i).due) s.loop.timers).dropLast } }.finish id }
  | dueDone (now : ℤ) (h : s.pc = .expire (.due now))
      (none : ∀ id ∈ s.loop.timers.head?, now < (s.op id).due) :
      ExpireStep cfg s { s with pc := .resume cfg.budget }

/-- The steps of `run()` outside `expire()`. -/
inductive RunStep (cfg : Config) (s : State) : RunAct → State → Prop where
  | enter (h : s.pc = .outside) (idle : s.user = .none) :
      RunStep cfg s .next { s with pc := .drain }
  | drain (h : s.pc = .drain) :
      RunStep cfg s .next
        { s with
          loop := { s.loop with posts := [], messages := s.loop.messages.drop cfg.budget }
          pc := .posts s.loop.posts (s.loop.messages.take cfg.budget) }
  | function (fn : ℕ) (batch : List ℕ) (msgs : List Message)
      (h : s.pc = .posts (fn :: batch) msgs) (idle : s.user = .none) :
      RunStep cfg s .next { s with pc := .posts batch msgs, ran := s.ran ++ [fn] }
  | functionThrows (e : ℕ) (fn : ℕ) (batch : List ℕ) (msgs : List Message)
      (h : s.pc = .posts (fn :: batch) msgs) (idle : s.user = .none) :
      RunStep cfg s .next
        { s with
          pc := .fail .stopping batch msgs
          error := s.error.or (some e)
          ran := s.ran ++ [fn]
          failures := s.failures ++ [e] }
  | failStop (batch : List ℕ) (msgs : List Message) (h : s.pc = .fail .stopping batch msgs) :
      RunStep cfg s .next
        { s with loop := { s.loop with stopping := true }, pc := .fail .cancel batch msgs }
  | failCancel (batch : List ℕ) (msgs : List Message) (h : s.pc = .fail .cancel batch msgs) :
      RunStep cfg s .next
        { s with
          loop := { s.loop with cancel := true }
          pc := .fail .wake batch msgs
          setters := s.setters ++ [.stop] }
  | failWake (batch : List ℕ) (msgs : List Message) (h : s.pc = .fail .wake batch msgs) :
      RunStep cfg s .next { s with loop := s.loop.wake, pc := .posts batch msgs }
  | batchDone (msgs : List Message) (h : s.pc = .posts [] msgs) (idle : s.user = .none) :
      RunStep cfg s .next { s with pc := .messages msgs }
  | hop (n : ℕ) (msgs : List Message) (h : s.pc = .messages (.hop n :: msgs))
      (idle : s.user = .none) :
      RunStep cfg s .next
        { s with pc := .messages msgs, delivered := s.delivered ++ [.hop n] }
  | delivery (id : ℕ) (msgs : List Message) (h : s.pc = .messages (.wait id :: msgs))
      (idle : s.user = .none) (quiet : (s.op id).active = true → s.Quiet id) :
      RunStep cfg s .next
        { s with
          toOwner := s.notify id
          pc := .messages msgs
          delivered := s.delivered ++ [.wait id] }
  | messagesDone (h : s.pc = .messages []) (idle : s.user = .none) :
      RunStep cfg s .next { s with pc := .expire .exchange }
  | expire (t : State) (h : ExpireStep cfg s t) : RunStep cfg s .next t
  | resume (left : ℕ) (id : ℕ) (rest : List ℕ) (h : s.pc = .resume (left + 1))
      (front : s.loop.ready = id :: rest) (idle : s.user = .none) :
      RunStep cfg s .next
        { s with loop := { s.loop with ready := rest }, pc := .resume left }
  | resumed (left : ℕ) (h : s.pc = .resume left) (idle : s.user = .none)
      (done : left = 0 ∨ s.loop.ready = []) :
      RunStep cfg s .next { s with pc := .sample }
  | sample (h : s.pc = .sample) :
      RunStep cfg s .next
        { s with pc := .test (!s.loop.posts.isEmpty || !s.loop.messages.isEmpty) }
  | testIdle (posted : Bool) (h : s.pc = .test posted) (idle : s.idle posted = true) :
      RunStep cfg s .next { s with pc := .holds }
  | testBusy (posted : Bool) (h : s.pc = .test posted) (busy : s.idle posted = false) :
      RunStep cfg s .next { s with pc := .branch posted, dropped := [] }
  | released (h : s.pc = .holds) (zero : s.loop.holds = 0) :
      RunStep cfg s .exit s.leave
  | held (h : s.pc = .holds) (pos : s.loop.holds ≠ 0) :
      RunStep cfg s .next { s with pc := .stopped, dropped := [] }
  | stopExit (h : s.pc = .stopped) (stop : s.loop.stopping = true) :
      RunStep cfg s .exit s.leave
  | running (h : s.pc = .stopped) (run : s.loop.stopping = false) :
      RunStep cfg s .next { s with pc := .branch false }
  | again (posted : Bool) (h : s.pc = .branch posted)
      (skip : s.loop.io = [] ∧ (s.loop.ready ≠ [] ∨ posted = true)) :
      RunStep cfg s .next { s with pc := .drain }
  -- where the argument overflows, it is any number
  | poll (now delay : ℤ) (posted : Bool) (h : s.pc = .branch posted)
      (wait : ¬ (s.loop.io = [] ∧ (s.loop.ready ≠ [] ∨ posted = true)))
      (argument : ∀ d, s.loop.pollDelay (fun i => (s.op i).due) posted now = some d → delay = d) :
      RunStep cfg s .next { s with pc := .poll (s.bound delay) }
  | waited (delay : ℤ) (wake : Bool) (h : s.pc = .poll delay) (ring : cfg.iopoll = false)
      (armed : wake = true → 0 < s.loop.event) :
      RunStep cfg s .next { s with pc := .retire wake }
  | waitedIopoll (delay : ℤ) (h : s.pc = .poll delay) (ring : cfg.iopoll = true) :
      RunStep cfg s .next
        { s with loop := { s.loop with event := 0 }, pc := .retire false }
  | retired (wake : Bool) (h : s.pc = .retire wake) (idle : s.user = .none) :
      RunStep cfg s .next
        { s with
          loop := { s.loop with event := if wake then 0 else s.loop.event }
          pc := .drain }
  | pollThrows (h : (∃ delay, s.pc = .poll delay) ∨ ∃ wake, s.pc = .retire wake)
      (idle : s.user = .none) :
      RunStep cfg s .pollThrows { s with pc := .outside }
  | cancelThrows (all : Bool) (rest : List ℕ) (h : s.pc = .expire (.io all rest)) :
      RunStep cfg s .cancelThrows { s with pc := .outside }

/-! ### Interleavings -/

/-- The steps of the whole system. -/
inductive Act where
  | thread (a : ThreadAct)
  | run (a : RunAct)
  | user
  deriving DecidableEq, Repr

/-- One step of the whole system. -/
inductive Step (cfg : Config) (s : State) : Act → State → Prop where
  | thread {a : ThreadAct} {t : State} (h : ThreadStep s a t) : Step cfg s (.thread a) t
  | run {a : RunAct} {t : State} (h : RunStep cfg s a t) : Step cfg s (.run a) t
  | user {t : State} (h : UserStep cfg s t) : Step cfg s .user t

/-- The runs whose steps all satisfy `p`, a condition on the state before the step and its name. -/
abbrev Steps (cfg : Config) (p : State → Act → Prop) : State → State → Prop :=
  Relation.ReflTransGen fun s t => ∃ a, p s a ∧ Step cfg s a t

/-- A state of some interleaving, from a loop that has just been built. -/
def Reachable (cfg : Config) (s : State) : Prop := Steps cfg (fun _ _ => True) {} s

/-- The states of a run satisfying `p` are reachable. -/
theorem Steps.reachable {cfg : Config} {p : State → Act → Prop} {s t : State}
    (h : Steps cfg p s t) (hs : Reachable cfg s) : Reachable cfg t :=
  hs.trans (Relation.ReflTransGen.mono (fun _ _ ⟨a, _, ha⟩ => ⟨a, trivial, ha⟩) _ _ h)

/-- **Invariants.** What holds of a new loop and is kept by every step holds in every state of
every interleaving. -/
theorem Reachable.induction {cfg : Config} {P : State → Prop} (init : P {})
    (step : ∀ {s t a}, Reachable cfg s → P s → Step cfg s a t → P t) {s : State}
    (h : Reachable cfg s) : P s := by
  induction h with
  | refl => exact init
  | tail hs hstep ih =>
    obtain ⟨a, -, ha⟩ := hstep
    exact step hs ih ha

/-! ### An idle loop -/

/-- A new loop with one guard. -/
def guardedState : State := { loop := { holds := 1 }, guards := [0] }

/-- The same loop at its read of `holds_`. -/
def leavingState : State := { guardedState with pc := .holds }

theorem reachable_guardedState : Reachable {} guardedState :=
  .single ⟨.thread (.acquire 0), trivial, .thread (.acquire 0 List.not_mem_nil)⟩

/-- A loop without work goes through one iteration undisturbed. -/
theorem steps_leavingState {p : State → Act → Prop} (next : ∀ {s}, p s (.run .next)) :
    Steps {} p guardedState leavingState := by
  refine .head ⟨_, next, .run (.enter rfl rfl)⟩ ?_
  refine .head ⟨_, next, .run (.drain rfl)⟩ ?_
  refine .head ⟨_, next, .run (.batchDone [] rfl rfl)⟩ ?_
  refine .head ⟨_, next, .run (.messagesDone rfl rfl)⟩ ?_
  refine .head ⟨_, next, .run (.expire _ (.clear 0 rfl rfl))⟩ ?_
  refine .head ⟨_, next, .run (.expire _ (.dueDone 0 rfl fun _ h => by cases h))⟩ ?_
  refine .head ⟨_, next, .run (.resumed 64 rfl rfl (.inr rfl))⟩ ?_
  refine .head ⟨_, next, .run (.sample rfl)⟩ ?_
  exact .single ⟨_, next, .run (.testIdle false rfl rfl)⟩

theorem reachable_leavingState : Reachable {} leavingState :=
  reachable_guardedState.trans (steps_leavingState trivial)

end Snowy.Loop
