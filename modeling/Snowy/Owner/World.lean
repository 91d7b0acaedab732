import Snowy.Basic
import Snowy.Ledger
import Snowy.Lib.HeapRange

/-!
# The operations of one owner thread

Timers, events and channels belong to one loop and are used on its thread only. What other threads
can do to them is to raise flags: request a stop, run the stop callback of an operation, stop the
loop. They can do so at any time, in particular between two reads of flags in one function. So a
function here takes the flags that are raised meanwhile from a schedule: before each read of a
flag it applies the next entry (`World.interfere`). A statement about all schedules is a statement
about all interleavings.

A run is a sequence of calls on the owner thread (`Call`), each with its schedule. Nothing in
between is atomic except what the owner thread does between two reads of flags.

## Main definitions

* `Snowy.World` : a loop with its operations, events and channels.
* `Snowy.World.expire`, `Snowy.World.set`, `Snowy.World.push`, `Snowy.World.pop`,
  `Snowy.World.close` : the functions of these names.
* `Snowy.World.sleep`, `Snowy.World.wait`, `Snowy.World.send`, `Snowy.World.recv` : the construction
  of an awaiter and its `await_suspend`.
* `Snowy.World.run` : the state after a sequence of calls.
-/

namespace Snowy

open Function

/-- The fields of `event`: `set_` and the list of the linked awaiters from `head_`. -/
structure Event where
  set : Bool := false
  waiters : List ℕ := []
  deriving DecidableEq, Repr

/-- A store by another thread: `request_stop` on a stop state, the first store of the `cancel_fn`
of an operation, the first store of `loop::stop`, or the store to `cancel_` that follows either. -/
inductive Async where
  | request (token : ℕ)
  | fire (id : ℕ)
  | stop
  | raise
  deriving DecidableEq, Repr

/-- A loop with the operations, events and channels of its owner thread. `next` is the next unused
pointer and `sched` the flags that are still to be raised during the present call. The histories
`suspended` and `resumed` are the operations whose `await_suspend` has returned true and those
taken from `ready_`. -/
structure World (α : Type*) extends Owner where
  node : ℕ → Node α := fun _ => {}
  event : ℕ → Event := fun _ => {}
  channel : ℕ → Channel α := fun _ => {}
  next : ℕ := 0
  sched : List (List Async) := []
  suspended : List ℕ := []
  resumed : List ℕ := []

namespace World

variable {α : Type*} (H : HeapRange ℕ ℤ) (w : World α) (id e c : ℕ)

/-! ### Flags -/

/-- A store by another thread. A stop callback runs when it is registered and its stop has been
requested. -/
def async : Async → World α
  | .request token => { w with requested := update w.requested token true }
  | .fire id =>
    if (w.op id).callback && w.stopRequested id then
      { w with toOwner := w.toOwner.setOp id fun o => { o with canceled := true } }
    else w
  | .stop => { w with loop := { w.loop with stopping := true } }
  | .raise => { w with loop := { w.loop with cancel := true }.wake }

/-- What the other threads do before the next read of a flag. -/
def interfere : World α :=
  match w.sched with
  | [] => w
  | batch :: rest => batch.foldl async { w with sched := rest }

/-! ### Operations -/

/-- Change one operation. -/
def setOp (f : Op → Op) : World α := { w with toOwner := w.toOwner.setOp id f }

/-- Store a terminal error. -/
def fail (error : Errc) : World α := { w with toOwner := w.toOwner.fail id error }

/-- `detail::wait::notify`. -/
def notify : World α := { w with toOwner := w.toOwner.notify id }

/-- `loop::finish`. -/
def finish : World α := { w with toOwner := w.toOwner.finish id }

/-- The end of `loop::arm`. -/
def activate : World α := w.setOp id fun o => { o with active := true }

/-- The construction of the `stop_callback` in `loop::arm`. -/
def register : World α := { w with toOwner := w.toOwner.register id }

/-- The end of `detail::wait::park`, after which `await_suspend` returns true. -/
def enlist : World α :=
  { w with toOwner := w.toOwner.enlist id, suspended := w.suspended ++ [id] }

/-- A new operation. -/
def alloc (op : Op) (node : Node α) : World α :=
  { w with
    op := update w.op w.next op
    node := update w.node w.next node
    next := w.next + 1 }

/-- Change one node. -/
def setNode (f : Node α → Node α) : World α :=
  { w with node := update w.node id (f (w.node id)) }

theorem op_setOp (f : Op → Op) (i : ℕ) :
    (w.setOp id f).op i = if i = id then f (w.op id) else w.op i :=
  Owner.op_setOp ..

theorem op_fail (error : Errc) (i : ℕ) :
    (w.fail id error).op i = if i = id then { w.op id with error := some error } else w.op i :=
  Owner.op_fail ..

theorem op_finish (i : ℕ) : (w.finish id).op i =
    if i = id then { w.op id with callback := false, active := false } else w.op i :=
  Owner.op_finish ..

theorem op_notify (i : ℕ) : (w.notify id).op i =
    if i = id ∧ (w.op id).active then { w.op id with callback := false, active := false }
    else w.op i :=
  Owner.op_notify ..

theorem op_activate (i : ℕ) :
    (w.activate id).op i = if i = id then { w.op id with active := true } else w.op i := by
  rw [activate, op_setOp]

theorem op_enlist (i : ℕ) :
    (w.enlist id).op i = if i = id then { w.op id with active := true } else w.op i :=
  Owner.op_enlist ..

theorem op_alloc (op : Op) (node : Node α) (i : ℕ) :
    (w.alloc op node).op i = if i = w.next then op else w.op i :=
  update_apply ..

theorem node_alloc (op : Op) (node : Node α) (i : ℕ) :
    (w.alloc op node).node i = if i = w.next then node else w.node i :=
  update_apply ..

theorem node_setNode (f : Node α → Node α) (i : ℕ) :
    (w.setNode id f).node i = if i = id then f (w.node id) else w.node i :=
  update_apply ..

/-- How `loop::arm` ends: it returns true or false, or the registration of the callback throws. -/
inductive Armed where
  | yes
  | no
  | thrown
  deriving DecidableEq, Repr

/-- `loop::arm`. -/
def arm (fault : Bool) : World α × Armed :=
  let w := w.interfere
  if w.loop.stopping then (w.fail id .operationCanceled, .no)
  else
    let w := w.interfere
    if w.stopRequested id then (w.fail id .operationCanceled, .no)
    else if fault && (w.op id).token.isSome then (w, .thrown)
    else ((w.interfere.register id).activate id, .yes)

/-- `detail::wait::park`. -/
def park : World α × Bool :=
  if (w.op id).interruptible then
    match w.arm id false with
    | (w, .yes) => (w.enlist id, true)
    | (w, _) => (w, false)
  else (w.enlist id, true)

/-! ### Timers -/

/-- The key of the heap `timers_`. -/
def due (w : World α) (id : ℕ) : ℤ := (w.op id).due

theorem due_activate : (w.activate id).due = w.due := by
  funext i
  simp only [due, op_activate]
  split_ifs with h
  · exact h ▸ rfl
  · rfl

/-- Change the vector `timers_`. -/
def setTimers (timers : List ℕ) : World α :=
  { w with loop := { w.loop with timers } }

/-- The end of `timer::await_suspend` when the timer is armed. -/
def pushTimer : World α :=
  { w with
    loop := { w.loop with timers := H.push w.due w.loop.timers }
    suspended := w.suspended ++ [id] }

/-- The end of `timer::await_suspend` when the timer is not armed. -/
def popTimer : World α := w.setTimers w.loop.timers.dropLast

/-- A timer with `timer::await_suspend`; `fault` when the registration of its callback throws. -/
def sleep (due : ℤ) (token : Option ℕ) (fault : Bool) : World α :=
  let id := w.next
  let w := w.alloc { cls := .timer, token, due } {}
  match (w.setTimers (w.loop.timers ++ [id])).arm id fault with
  | (w, .yes) => w.pushTimer H id
  | (w, _) => w.popTimer

/-- The scan of `timers_` in `expire()`: the timers that stay, in their order. -/
def scanTimers (all : Bool) : World α → List ℕ → World α × List ℕ
  | w, [] => (w, [])
  | w, id :: rest =>
    let w := w.interfere
    if all || (w.op id).canceled then
      scanTimers all ((w.fail id .operationCanceled).finish id) rest
    else
      let (w, kept) := scanTimers all w rest
      (w, id :: kept)

/-- The scan of `waits_` in `expire()`. -/
def scanWaits (all : Bool) : World α → List ℕ → World α
  | w, [] => w
  | w, id :: rest =>
    let w := w.interfere
    if (w.op id).interruptible && (all || (w.op id).canceled) then
      scanWaits all ((w.fail id .operationCanceled).notify id) rest
    else scanWaits all w rest

/-- The loop at the end of `expire()`, which completes the timers that are due. -/
def expireDue (now : ℤ) : ℕ → World α → World α
  | 0, w => w
  | fuel + 1, w =>
    match w.loop.timers with
    | [] => w
    | id :: _ =>
      if w.due id ≤ now then
        expireDue now fuel ((w.setTimers (H.pop w.due w.loop.timers).dropLast).finish id)
      else w

/-- The part of `expire()` that runs when `cancel_` was set. -/
def cancelPending : World α :=
  let w := w.interfere
  let all := w.loop.stopping
  let (w, kept) := scanTimers all w w.loop.timers
  let w := w.setTimers (H.make w.due kept)
  scanWaits all w w.loop.waits

/-- `loop::expire`. -/
def expire (now : ℤ) : World α :=
  let w := w.interfere
  let w :=
    if w.loop.cancel then cancelPending H { w with loop := { w.loop with cancel := false } }
    else w
  expireDue H now w.loop.timers.length w

/-! ### Events -/

/-- Change one event. -/
def setEvent (f : Event → Event) : World α :=
  { w with event := update w.event e (f (w.event e)) }

/-- Put an awaiter at the head of the list of an event. -/
def linkEvent : World α :=
  let w := w.setEvent e fun ev => { ev with waiters := id :: ev.waiters }
  w.setOp id fun o => { o with linked := true }

theorem event_setEvent (f : Event → Event) (i : ℕ) :
    (w.setEvent e f).event i = if i = e then f (w.event e) else w.event i :=
  update_apply ..

/-- An event awaiter with `event::awaiter::await_suspend`. -/
def wait (token : Option ℕ) (interruptible : Bool) : World α :=
  let id := w.next
  let w := w.alloc { cls := .wait, token, interruptible } { home := .event e }
  match w.park id with
  | (w, false) => w
  | (w, true) =>
    let w := w.linkEvent id e
    if (w.event e).set then w.notify id else w

/-- `event::set`. -/
def set : World α :=
  let w := w.setEvent e fun ev => { ev with set := true }
  (w.event e).waiters.foldl notify w

/-- `event::reset`. -/
def reset : World α := w.setEvent e fun ev => { ev with set := false }

/-! ### Channels -/

/-- Change one channel. -/
def setChannel (f : Channel α → Channel α) : World α :=
  { w with channel := update w.channel c (f (w.channel c)) }

theorem channel_setChannel (f : Channel α → Channel α) (i : ℕ) :
    (w.setChannel c f).channel i = if i = c then f (w.channel c) else w.channel i :=
  update_apply ..

/-- `channel::unlink`. -/
def unlink : World α :=
  let w := w.setChannel c fun ch => { ch with waiters := ch.waiters.erase id }
  w.setOp id fun o => { o with linked := false }

/-- The condition of `channel::take` on its first waiter. -/
def live : World α × Bool :=
  if (w.op id).active then
    let w := w.interfere
    if (w.op id).canceled then (w, false)
    else
      let w := w.interfere
      (w, !w.loop.stopping)
  else (w, false)

/-- What `channel::take` does with a dead waiter. -/
def discard : World α :=
  let w := w.unlink id c
  if (w.op id).active then (w.fail id .operationCanceled).notify id else w

/-- `channel::take`, on the list of the linked nodes. -/
def take (sending : Bool) : World α → List ℕ → World α × Option ℕ
  | w, [] => (w, none)
  | w, id :: rest =>
    match w.live id with
    | (w, true) =>
      if (w.node id).sending = sending then (w.unlink id c, some id) else (w, none)
    | (w, false) => take sending (w.discard id c) rest

theorem take_cons_live {sending : Bool} {w w' : World α} {id : ℕ} (rest : List ℕ)
    (h : w.live id = (w', true)) : take c sending w (id :: rest) =
      if (w'.node id).sending = sending then (w'.unlink id c, some id) else (w', none) := by
  rw [take, h]

theorem take_cons_dead {sending : Bool} {w w' : World α} {id : ℕ} (rest : List ℕ)
    (h : w.live id = (w', false)) :
    take c sending w (id :: rest) = take c sending (w'.discard id c) rest := by
  rw [take, h]

/-- Record a call of `send` or `try_send`. -/
def issue (value : α) : World α :=
  w.setChannel c fun ch => { ch with issued := ch.issued ++ [(id, value)] }

/-- Record that the value of a send is taken over. -/
def accept (value : α) : World α :=
  w.setChannel c fun ch => { ch with accepted := ch.accepted ++ [(id, value)] }

/-- Record that a receive gets a value. -/
def hand (value : α) : World α :=
  w.setChannel c fun ch => { ch with handed := ch.handed ++ [(id, value)] }

/-- Record a receiver that begins to wait. -/
def arrive : World α :=
  w.setChannel c fun ch => { ch with arrived := ch.arrived ++ [id] }

/-- Record that a waiting receiver gets a value. -/
def serve : World α :=
  w.setChannel c fun ch => { ch with served := ch.served ++ [id] }

/-- Put a value into the slot behind the last one. -/
def fill (value : α) : World α :=
  w.setChannel c fun ch => { ch with ring := ch.ring.push value }

/-- Take the front value out of its slot. -/
def dropFront : World α :=
  w.setChannel c fun ch => { ch with ring := ch.ring.pop }

/-- The direct transfer in `channel::push`. -/
def give (receiver : ℕ) (value : α) : World α :=
  let w := w.setNode receiver fun n => { n with value := some value }
  let w := (w.issue id c value).accept id c value
  let w := (w.hand receiver c value).serve receiver c
  w.notify receiver

/-- The end of `channel::push`, which buffers the value. -/
def store (value : α) : World α :=
  ((w.issue id c value).accept id c value).fill c value

/-- `channel::push`, called by the send `id`. -/
def push (value : α) : World α × Bool :=
  match take c false w (w.channel c).waiters with
  | (w, some receiver) => (w.give id c receiver value, true)
  | (w, none) =>
    let ring := (w.channel c).ring
    if ring.size = ring.capacity then (w, false) else (w.store id c value, true)

/-- The first half of `channel::pop`: the first buffered value. -/
def popBuffered : World α × Option α :=
  let ring := (w.channel c).ring
  if ring.size = 0 then (w, none)
  else (w.dropFront c, ring.slot 0)

/-- The value of a blocked sender goes to the slot that has become free. -/
def refill (sender : ℕ) (value : α) : World α :=
  ((w.accept sender c value).fill c value).notify sender

/-- The value of a blocked sender goes to the receiver that calls `pop`. -/
def rendezvous (sender : ℕ) (value : α) : World α :=
  (w.accept sender c value).notify sender

/-- The second half of `channel::pop`: match one blocked sender. A sender has a value. -/
def popSender (value : Option α) : World α × Option α :=
  match take c true w (w.channel c).waiters with
  | (w, none) => (w, value)
  | (w, some sender) =>
    match (w.node sender).value, value with
    | none, _ => (w, value)
    | some sent, some _ => (w.refill c sender sent, value)
    | some sent, none => (w.rendezvous c sender sent, some sent)

/-- `channel::pop`, called by the receive `id`. -/
def pop : World α × Option α :=
  let (w, value) := w.popBuffered c
  match w.popSender c value with
  | (w, none) => (w, none)
  | (w, some v) => (w.hand id c v, some v)

/-- Append a node to the list of a channel. -/
def link : World α :=
  let w := w.setOp id fun o => { o with linked := true }
  w.setChannel c fun ch => { ch with waiters := ch.waiters ++ [id] }

/-- The end of `channel::node::await_suspend`: park and append to the list. -/
def enqueue : World α × Bool :=
  match w.park id with
  | (w, false) => (w, false)
  | (w, true) => (w.link id c, true)

/-- The check at the beginning of `channel::node::await_suspend`. -/
def canceledNow : World α × Bool :=
  let w := w.interfere
  if w.loop.stopping then (w.fail id .operationCanceled, true)
  else
    let w := w.interfere
    if w.stopRequested id then (w.fail id .operationCanceled, true) else (w, false)

/-- `channel::send` with `node::await_suspend`. -/
def send (value : α) (token : Option ℕ) : World α :=
  let id := w.next
  let w := w.alloc { cls := .wait, token } (.call c (some value))
  match w.canceledNow id with
  | (w, true) => w.issue id c value
  | (w, false) =>
    if (w.channel c).closed then (w.fail id .brokenPipe).issue id c value
    else
      match w.push id c value with
      | (w, true) => w
      | (w, false) => (w.enqueue id c).1.issue id c value

/-- `channel::recv` with `node::await_suspend`. -/
def recv (token : Option ℕ) : World α :=
  let id := w.next
  let w := w.alloc { cls := .wait, token } (.call c none)
  match w.canceledNow id with
  | (w, true) => w
  | (w, false) =>
    match w.pop id c with
    | (w, some v) => w.setNode id fun n => { n with value := some v }
    | (w, none) =>
      if (w.channel c).closed then w
      else
        match w.enqueue id c with
        | (w, true) => w.arrive id c
        | (w, false) => w

/-- Record a call of `try_send` that returns false. -/
def refuse (value : α) : World α :=
  (w.setNode id fun n => { n with refused := true }).issue id c value

/-- `channel::try_send`. -/
def trySend (value : α) : World α :=
  let id := w.next
  let w := w.alloc {} (.call c (some value))
  if (w.channel c).closed then w.refuse id c value
  else
    let w := w.interfere
    if w.loop.stopping then w.refuse id c value
    else
      match w.push id c value with
      | (w, true) => w
      | (w, false) => w.refuse id c value

/-- `channel::try_recv`. -/
def tryRecv : World α :=
  let id := w.next
  let w := w.alloc {} (.call c none)
  let w := w.interfere
  if w.loop.stopping then w
  else
    match w.pop id c with
    | (w, none) => w
    | (w, some v) => w.setNode id fun n => { n with value := some v }

/-- The body of the loop of `channel::close`. -/
def reject : World α :=
  let w := w.unlink id c
  if (w.op id).active then
    let w := if (w.node id).sending then w.fail id .brokenPipe else w
    w.notify id
  else w

/-- The loop of `channel::close`. -/
def closeAll (w : World α) (waiters : List ℕ) : World α :=
  waiters.foldl (fun w id => w.reject id c) w

/-- `channel::close`. -/
def close : World α :=
  let w := w.setChannel c fun ch => { ch with closed := true }
  closeAll c w (w.channel c).waiters

/-! ### Runs -/

/-- `loop::yield::await_suspend`: the coroutine goes straight to `ready_`. -/
def yield : World α :=
  let id := w.next
  let w := w.alloc {} {}
  { w with
    loop := { w.loop with ready := w.loop.ready ++ [id] }
    suspended := w.suspended ++ [id] }

/-- Take the next coroutine from `ready_` and resume it. -/
def resume : World α :=
  match w.loop.ready with
  | [] => w
  | id :: rest => { w with loop := { w.loop with ready := rest }, resumed := w.resumed ++ [id] }

/-- The destructor of an awaiter, after its coroutine has been resumed or was not suspended. -/
def destroy : World α :=
  if (w.op id).active = false ∧ (id ∈ w.resumed ∨ id ∉ w.suspended) ∧ (w.op id).linked then
    match (w.node id).home with
    | .timers => w
    | .event e =>
      let w := w.setEvent e fun ev => { ev with waiters := ev.waiters.erase id }
      w.setOp id fun o => { o with linked := false }
    | .channel c => w.unlink id c
  else w

/-- What the owner thread can do. -/
inductive Call (α : Type*) where
  | sleep (due : ℤ) (token : Option ℕ) (fault : Bool)
  | wait (e : ℕ) (token : Option ℕ) (interruptible : Bool)
  | set (e : ℕ)
  | reset (e : ℕ)
  | send (c : ℕ) (value : α) (token : Option ℕ)
  | recv (c : ℕ) (token : Option ℕ)
  | trySend (c : ℕ) (value : α)
  | tryRecv (c : ℕ)
  | close (c : ℕ)
  | expire (now : ℤ)
  | yield
  | resume
  | destroy (id : ℕ)
  deriving DecidableEq, Repr

/-- One call. -/
def call : Call α → World α
  | .sleep due token fault => w.sleep H due token fault
  | .wait e token interruptible => w.wait e token interruptible
  | .set e => w.set e
  | .reset e => w.reset e
  | .send c value token => w.send c value token
  | .recv c token => w.recv c token
  | .trySend c value => w.trySend c value
  | .tryRecv c => w.tryRecv c
  | .close c => w.close c
  | .expire now => w.expire H now
  | .yield => w.yield
  | .resume => w.resume
  | .destroy id => w.destroy id

/-- A call with the flags that other threads raise before it (the first entry) and during it. -/
def step (w : World α) (l : Call α × List (List Async)) : World α :=
  call H (interfere { w with sched := l.2 }) l.1

/-- The state after a sequence of calls. -/
def run (w : World α) (ls : List (Call α × List (List Async))) : World α := ls.foldl (step H) w

/-- A new loop with channels of the given capacities. -/
def init (capacity : ℕ → ℕ) : World α :=
  { channel := fun c => { ring := .empty (capacity c) } }

/-- A state of some run. -/
def Reachable (w : World α) : Prop := ∃ capacity ls, w = run H (init capacity) ls

end World

end Snowy
