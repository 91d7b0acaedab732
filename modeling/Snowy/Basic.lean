import Mathlib.Data.Int.Notation
import Mathlib.Data.List.Nodup
import Mathlib.Logic.Function.Basic
import Snowy.Lib.Signed

/-!
# Operations and the state of one loop

`loop` owns no operation: a timer, an I/O request or a wait lives in the frame of the coroutine
that awaits it, and the loop keeps pointers to it. Here a pointer is a natural number, the frames
are a function from pointers to records (`Owner.op`), and an intrusive list or a vector of
pointers is the list of the pointers it holds, head first.

The functions of this file are the steps of `loop.cpp` that touch one operation and its loop.
They are shared by the three models built on them: the interleaving of `run()` with other threads
(`Snowy.Loop`), the operations of one owner thread (`Snowy.Owner`) and the waiters of queues
shared by several loops (`Snowy.Remote`).

## Main definitions

* `Snowy.Op` : `detail::op` with the fields of `loop::timer`, `detail::io`, `detail::wait` and
  `detail::remote_wait` that decide how it completes.
* `Snowy.LoopState` : the fields of `loop`, and the eventfd counter behind `wake()`.
* `Snowy.Owner` : a loop, the operations and the stop states it reads.
* `Snowy.Owner.register`, `Snowy.Owner.finish`, `Snowy.Owner.notify` : the functions of these names.
-/

namespace Snowy

/-- The values of `std::errc` that the library itself stores in `op::error`. -/
inductive Errc where
  | operationCanceled
  | brokenPipe
  deriving DecidableEq, Repr

/-- What `run()` finds in `messages_`: the delivery of a `remote_wait`, or any other message,
such as a `hop` that resumes a coroutine. -/
inductive Message where
  | wait (id : ℕ)
  | hop (n : ℕ)
  deriving DecidableEq, Repr

/-- The class of an operation, which decides the list of the loop that holds it. -/
inductive OpClass where
  | timer
  | io
  | wait
  deriving DecidableEq, Repr

/-- One operation. `callback` says whether the optional `stop_callback` is engaged, `token` is the
stop state it was built from (`none` for a default token), `interrupt` whether the wait has a
synchronized cancellation hook, and `linked` whether it is linked in the queue it waits on. -/
structure Op where
  cls : OpClass := .wait
  error : Option Errc := none
  canceled : Bool := false
  active : Bool := false
  callback : Bool := false
  token : Option ℕ := none
  interruptible : Bool := true
  interrupt : Bool := false
  linked : Bool := false
  due : ℤ := 0
  cancelSent : Bool := false
  retire : Bool := false
  draining : Bool := false
  deriving DecidableEq, Repr

/-- The fields of `loop`. `event` is the counter of the eventfd that `wake()` writes to; `waits`
and `io` are the intrusive lists from their heads, `timers` the vector from its front. -/
structure LoopState where
  ready : List ℕ := []
  timers : List ℕ := []
  posts : List ℕ := []
  messages : List Message := []
  holds : ℕ := 0
  stopping : Bool := false
  cancel : Bool := false
  roots : ℕ := 0
  io : List ℕ := []
  waits : List ℕ := []
  event : ℕ := 0
  deriving DecidableEq, Repr

namespace LoopState

variable (l : LoopState)

/-- `loop::wake`: one more on the eventfd counter. -/
def wake : LoopState := { l with event := l.event + 1 }

/-- The mutex section of `loop::post`. -/
def post (fn : ℕ) : LoopState :=
  let l := { l with posts := l.posts ++ [fn] }
  if l.posts.length = 1 then l.wake else l

/-- The mutex section of `detail::message::send`. -/
def send (m : Message) : LoopState :=
  let empty := l.messages.isEmpty
  let l := { l with messages := l.messages ++ [m] }
  if empty then l.wake else l

/-- The argument of `poll` in `loop::run`, without a value if the time until the earliest deadline
cannot be represented. Times are nanoseconds. -/
def pollDelay (due : ℕ → ℤ) (posted : Bool) (now : ℤ) : Option ℤ :=
  if l.ready ≠ [] ∨ posted then some 0
  else
    match l.timers with
    | [] => some (-1)
    | id :: _ => (Signed.sub 64 (due id) now).map (max 0)

@[simp] theorem event_wake : l.wake.event = l.event + 1 := rfl

/-- A post leaves the counter positive when it is the first of its batch. -/
theorem event_post (fn : ℕ) :
    (l.post fn).event = if l.posts = [] then l.event + 1 else l.event := by
  cases h : l.posts <;> simp [post, wake, h]

theorem event_send (m : Message) :
    (l.send m).event = if l.messages = [] then l.event + 1 else l.event := by
  cases h : l.messages <;> simp [send, wake, h]

theorem post_eq (fn : ℕ) :
    l.post fn = { l with
      posts := l.posts ++ [fn]
      event := if l.posts = [] then l.event + 1 else l.event } := by
  cases h : l.posts <;> simp [post, wake, h]

theorem send_eq (m : Message) :
    l.send m = { l with
      messages := l.messages ++ [m]
      event := if l.messages = [] then l.event + 1 else l.event } := by
  cases h : l.messages <;> simp [send, wake, h]

end LoopState

/-- A loop with the operations its owner thread can reach. `requested` is the flag of each stop
state, set by `request_stop`. -/
structure Owner where
  loop : LoopState := {}
  op : ℕ → Op := fun _ => {}
  requested : ℕ → Bool := fun _ => false

namespace Owner

variable (s : Owner) (id : ℕ)

/-- Change one operation. -/
def setOp (f : Op → Op) : Owner := { s with op := Function.update s.op id (f (s.op id)) }

@[simp] theorem loop_setOp (f : Op → Op) : (s.setOp id f).loop = s.loop := rfl

@[simp] theorem requested_setOp (f : Op → Op) : (s.setOp id f).requested = s.requested := rfl

theorem op_setOp (f : Op → Op) (i : ℕ) :
    (s.setOp id f).op i = if i = id then f (s.op id) else s.op i :=
  Function.update_apply ..

@[simp] theorem op_setOp_self (f : Op → Op) : (s.setOp id f).op id = f (s.op id) :=
  Function.update_self ..

@[simp] theorem op_setOp_of_ne (f : Op → Op) {i : ℕ} (h : i ≠ id) : (s.setOp id f).op i = s.op i :=
  Function.update_of_ne h ..

/-- `token.stop_requested()` for the token of an operation. -/
def stopRequested : Bool :=
  match (s.op id).token with
  | none => false
  | some t => s.requested t

/-- Store a terminal error. -/
def fail (e : Errc) : Owner := s.setOp id fun o => { o with error := some e }

/-- `op::cancel_fn::operator()`, all three of its effects at once. -/
def cancelFn : Owner :=
  let s := s.setOp id fun o => { o with canceled := true }
  { s with loop := { s.loop with cancel := true }.wake }

/-- `callback.emplace(token, cancel_fn{&op})` when the token can be stopped. The constructor of a
stop callback runs it at once when the stop has been requested. -/
def register : Owner :=
  match (s.op id).token with
  | none => s
  | some t =>
    let s := s.setOp id fun o => { o with callback := true }
    if s.requested t then s.cancelFn id else s

/-- `loop::finish`. -/
def finish : Owner :=
  let s := s.setOp id fun o => { o with callback := false, active := false }
  { s with loop := { s.loop with ready := s.loop.ready ++ [id] } }

/-- `detail::wait::notify`. -/
def notify : Owner :=
  if (s.op id).active then
    { s with loop := { s.loop with waits := s.loop.waits.erase id } }.finish id
  else s

/-- The registration at the end of `detail::wait::park`: active, and at the head of `waits_`. -/
def enlist : Owner :=
  let s := s.setOp id fun o => { o with active := true }
  { s with loop := { s.loop with waits := id :: s.loop.waits } }

/-- `loop::stop`, all three of its effects at once. -/
def stop : Owner :=
  { s with loop := { s.loop with stopping := true, cancel := true }.wake }

@[simp] theorem loop_fail (e : Errc) : (s.fail id e).loop = s.loop := rfl

theorem op_fail (e : Errc) (i : ℕ) :
    (s.fail id e).op i = if i = id then { s.op id with error := some e } else s.op i := by
  simp only [fail, op_setOp]

theorem stopRequested_fail (e : Errc) (i : ℕ) :
    (s.fail id e).stopRequested i = s.stopRequested i := by
  have htoken : ((s.fail id e).op i).token = (s.op i).token := by
    rw [op_fail]
    split_ifs with h
    · rw [h]
    · rfl
  have hrequested : (s.fail id e).requested = s.requested := rfl
  rw [stopRequested, htoken, hrequested, stopRequested]

@[simp] theorem loop_finish :
    (s.finish id).loop = { s.loop with ready := s.loop.ready ++ [id] } := rfl

theorem op_finish (i : ℕ) : (s.finish id).op i =
    if i = id then { s.op id with callback := false, active := false } else s.op i := by
  simp only [finish, op_setOp]

@[simp] theorem loop_enlist :
    (s.enlist id).loop = { s.loop with waits := id :: s.loop.waits } := rfl

theorem op_enlist (i : ℕ) :
    (s.enlist id).op i = if i = id then { s.op id with active := true } else s.op i := by
  simp only [enlist, op_setOp]

/-- A notification moves an active wait from `waits_` to `ready_`, and does nothing to others. -/
@[simp] theorem loop_notify : (s.notify id).loop = { s.loop with
    ready := if (s.op id).active then s.loop.ready ++ [id] else s.loop.ready
    waits := if (s.op id).active then s.loop.waits.erase id else s.loop.waits } := by
  unfold notify
  split <;> simp [*]

@[simp] theorem requested_notify : (s.notify id).requested = s.requested := by
  unfold notify
  split <;> rfl

theorem op_notify (i : ℕ) : (s.notify id).op i =
    if i = id ∧ (s.op id).active then { s.op id with callback := false, active := false }
    else s.op i := by
  unfold notify
  split <;> simp [op_finish, *]

end Owner

end Snowy
