import Snowy.Ledger
import Snowy.Remote.WaitQueue

/-!
# The mailbox

A mailbox is a channel whose operations may be called on any loop. Its waiters are linked in a
`wait_queue`, and everything it does it does under the mutex of that queue. An `await_suspend` has
two steps: first it looks for a cancellation, without the mutex, and then it takes the mutex. In
between other threads go on, so an operation that has passed the first step is kept in a list until
some later step takes it up (`Mail.entering`). The owner thread of the operation does nothing else
in this time, which the model does not enforce: it has all runs of the code and more. Pointers are
given out in the order in which the operations take the mutex, or fail before.

## Main definitions

* `Snowy.Mail` : any number of mailboxes, on any number of loops.
* `Snowy.Mail.push`, `Snowy.Mail.pop`, `Snowy.Mail.close` : the functions of these names.
* `Snowy.Mail.begin`, `Snowy.Mail.commit` : the two steps of `node::await_suspend`.
* `Snowy.Mail.Reachable` : the states of all runs.
-/

namespace Snowy

open Function

/-- A `send` (with its value) or a `recv` on the mailbox `box`, to be resumed on the loop
`owner`. -/
structure Entry (α : Type*) where
  box : ℕ
  owner : ℕ
  token : Option ℕ := none
  value : Option α := none
  deriving DecidableEq, Repr

/-- The record of the node of an operation. -/
def Entry.node {α : Type*} (e : Entry α) : Node α :=
  .call e.box e.value

/-- Mailboxes. The list of the waiters of the mailbox `b` is the queue `b` of the waits; the field
`waiters` of the record of a mailbox is not used. -/
structure Mail (α : Type*) extends Remote where
  node : ℕ → Node α := fun _ => {}
  box : ℕ → Channel α := fun _ => {}
  entering : List (Entry α) := []

namespace Mail

variable {α : Type*} (m : Mail α) (id b : ℕ)

/-! ### Parts -/

/-- The same mailboxes with other waits. -/
def withRemote (s : Remote) : Mail α := { m with toRemote := s }

/-- Change one node. -/
def setNode (f : Node α → Node α) : Mail α :=
  { m with node := update m.node id (f (m.node id)) }

/-- Change one mailbox. -/
def setBox (f : Channel α → Channel α) : Mail α :=
  { m with box := update m.box b (f (m.box b)) }

theorem node_setNode (f : Node α → Node α) (i : ℕ) :
    (m.setNode id f).node i = if i = id then f (m.node id) else m.node i :=
  update_apply ..

theorem box_setBox (f : Channel α → Channel α) (i : ℕ) :
    (m.setBox b f).box i = if i = b then f (m.box b) else m.box i :=
  update_apply ..

/-- A new operation. -/
def alloc (l : ℕ) (op : Op) (node : Node α) : Mail α :=
  { m.withRemote (m.make l b op) with node := update m.node m.next node }

theorem node_alloc (l : ℕ) (op : Op) (node : Node α) (i : ℕ) :
    (m.alloc b l op node).node i = if i = m.next then node else m.node i :=
  update_apply ..

/-- Store a terminal error. -/
def fail (error : Errc) : Mail α := m.withRemote (m.toRemote.fail id error)

/-- `remote_wait::deliver`. -/
def deliver (failure : Option Errc) : Mail α := m.withRemote (m.toRemote.deliver id failure)

/-- `remote_wait::enqueue`. -/
def enqueue : Mail α × Bool :=
  (m.withRemote (m.toRemote.enqueue id).1, (m.toRemote.enqueue id).2)

/-! ### Histories -/

/-- Record a call of `send` or `try_send`. -/
def issue (value : α) : Mail α :=
  m.setBox b fun ch => { ch with issued := ch.issued ++ [(id, value)] }

/-- Record that the value of a send is taken over. -/
def accept (value : α) : Mail α :=
  m.setBox b fun ch => { ch with accepted := ch.accepted ++ [(id, value)] }

/-- Record that a receive gets a value. -/
def hand (value : α) : Mail α :=
  m.setBox b fun ch => { ch with handed := ch.handed ++ [(id, value)] }

/-- Record a receiver that begins to wait. -/
def arrive : Mail α := m.setBox b fun ch => { ch with arrived := ch.arrived ++ [id] }

/-- Record that a waiting receiver gets a value. -/
def serve : Mail α := m.setBox b fun ch => { ch with served := ch.served ++ [id] }

/-! ### The functions of `mailbox` -/

/-- `mailbox::front`. -/
def front (sending : Bool) : Mail α × Option ℕ :=
  match m.toRemote.front (m.queue b) with
  | (s, none) => (m.withRemote s, none)
  | (s, some w) => (m.withRemote s, if (m.node w).sending = sending then some w else none)

/-- Put a value into the slot behind the last one. -/
def fill (value : α) : Mail α := m.setBox b fun ch => { ch with ring := ch.ring.push value }

/-- Take the front value out of its slot. -/
def dropFront : Mail α := m.setBox b fun ch => { ch with ring := ch.ring.pop }

/-- The direct transfer in `mailbox::push`. -/
def give (receiver : ℕ) (value : α) : Mail α :=
  let m := m.setNode receiver fun n => { n with value := some value }
  let m := (m.issue id b value).accept id b value
  let m := (m.hand receiver b value).serve receiver b
  m.deliver receiver none

/-- The end of `mailbox::push`, which buffers the value. -/
def store (value : α) : Mail α :=
  ((m.issue id b value).accept id b value).fill b value

/-- `mailbox::push`, called by the send `id`. -/
def push (value : α) : Mail α × Bool :=
  match m.front b false with
  | (m, some receiver) => (m.give id b receiver value, true)
  | (m, none) =>
    let ring := (m.box b).ring
    if ring.size = ring.capacity then (m, false) else (m.store id b value, true)

/-- The first half of `mailbox::pop`: the first buffered value. -/
def popBuffered : Mail α × Option α :=
  let ring := (m.box b).ring
  if ring.size = 0 then (m, none)
  else (m.dropFront b, ring.slot 0)

/-- The value of a blocked sender goes to the slot that has become free. -/
def refill (sender : ℕ) (value : α) : Mail α :=
  ((m.accept sender b value).fill b value).deliver sender none

/-- The value of a blocked sender goes to the receiver that calls `pop`. -/
def rendezvous (sender : ℕ) (value : α) : Mail α :=
  (m.accept sender b value).deliver sender none

/-- The second half of `mailbox::pop`: match one blocked sender. A sender has a value. -/
def popSender (value : Option α) : Mail α × Option α :=
  match m.front b true with
  | (m, none) => (m, value)
  | (m, some sender) =>
    match (m.node sender).value, value with
    | none, _ => (m, value)
    | some sent, some _ => (m.refill b sender sent, value)
    | some sent, none => (m.rendezvous b sender sent, some sent)

/-- `mailbox::pop`, called by the receive `id`. -/
def pop : Mail α × Option α :=
  let (m, value) := m.popBuffered b
  match m.popSender b value with
  | (m, none) => (m, none)
  | (m, some v) => (m.hand id b v, some v)

/-- A new node of `send` or `recv`. -/
def allocEntry (e : Entry α) : Mail α :=
  m.alloc e.box e.owner { token := e.token, interrupt := true } e.node

/-- The part of `node::await_suspend` before the mutex: the check `canceled_now()`. -/
def begin (e : Entry α) : Mail α :=
  let id := m.next
  match m.toRemote.halted e.owner e.token with
  | (s, true) =>
    let m := ((m.withRemote s).allocEntry e).fail id .operationCanceled
    match e.value with
    | some value => m.issue id e.box value
    | none => m
  | (s, false) => { m.withRemote s with entering := m.entering ++ [e] }

/-- The part of `node::await_suspend` under the mutex, for a send. -/
def commitSend (value : α) : Mail α :=
  if (m.box b).closed then (m.fail id .brokenPipe).issue id b value
  else
    match m.push id b value with
    | (m, true) => m
    | (m, false) => (m.enqueue id).1.issue id b value

/-- The part of `node::await_suspend` under the mutex, for a receive. -/
def commitRecv : Mail α :=
  match m.pop id b with
  | (m, some v) => m.setNode id fun n => { n with value := some v }
  | (m, none) =>
    if (m.box b).closed then m
    else
      match m.enqueue id with
      | (m, true) => m.arrive id b
      | (m, false) => m

/-- The part of `node::await_suspend` under the mutex. -/
def commit (e : Entry α) : Mail α :=
  let id := m.next
  let m := m.allocEntry e
  match e.value with
  | some value => m.commitSend id e.box value
  | none => m.commitRecv id e.box

/-- One of the operations that have passed `canceled_now()` takes the mutex. -/
def enter (n : ℕ) : Mail α :=
  match m.entering[n]? with
  | none => m
  | some e => { m with entering := m.entering.eraseIdx n }.commit e

/-- Record a call of `try_send` that returns false. -/
def refuse (value : α) : Mail α :=
  (m.setNode id fun n => { n with refused := true }).issue id b value

/-- `mailbox::try_send`. -/
def trySend (value : α) : Mail α :=
  let id := m.next
  let m := m.alloc b 0 {} (.call b (some value))
  if (m.box b).closed then m.refuse id b value
  else
    match m.push id b value with
    | (m, true) => m
    | (m, false) => m.refuse id b value

/-- `mailbox::try_recv`. -/
def tryRecv : Mail α :=
  let id := m.next
  let m := m.alloc b 0 {} (.call b none)
  match m.pop id b with
  | (m, none) => m
  | (m, some v) => m.setNode id fun n => { n with value := some v }

/-- The error that `mailbox::close` delivers to a waiter. -/
def verdict (i : ℕ) : Option Errc := if (m.node i).sending then some .brokenPipe else none

/-- Set `closed_`. -/
def shut : Mail α := m.setBox b fun ch => { ch with closed := true }

/-- `mailbox::close`. -/
def close : Mail α :=
  let m := m.shut b
  m.withRemote (m.toRemote.drain m.verdict (m.queue b))

/-! ### Runs -/

/-- What the threads can do. -/
inductive Act (α : Type*) where
  | begin (e : Entry α)
  | enter (n : ℕ)
  | trySend (b : ℕ) (value : α)
  | tryRecv (b : ℕ)
  | close (b : ℕ)
  | owner (a : Remote.OwnerAct)
  deriving DecidableEq, Repr

/-- One step. -/
def act : Act α → Mail α
  | .begin e => m.begin e
  | .enter n => m.enter n
  | .trySend b value => m.trySend b value
  | .tryRecv b => m.tryRecv b
  | .close b => m.close b
  | .owner a => m.withRemote (m.ownerAct a)

/-- The flags that are raised before a step. -/
def interfere (sched : List (List Remote.Async)) : Mail α :=
  m.withRemote (Remote.interfere { m.toRemote with sched })

/-- A step with the flags that are raised before it (the first entry) and during it. -/
def step (m : Mail α) (a : Act α × List (List Remote.Async)) : Mail α := (m.interfere a.2).act a.1

/-- The state after a sequence of steps. -/
def run (m : Mail α) (as : List (Act α × List (List Remote.Async))) : Mail α := as.foldl step m

/-- New mailboxes of the given capacities. -/
def init (capacity : ℕ → ℕ) : Mail α := { box := fun b => { ring := .empty (capacity b) } }

/-- A state of some run. -/
def Reachable (m : Mail α) : Prop := ∃ capacity as, m = run (init capacity) as

end Mail

end Snowy
