import Snowy.Basic

/-!
# Waiters that other threads complete

A `remote_wait` is linked in a queue that any thread may lock, and belongs to a loop whose thread
alone may complete it. Whoever unlinks it decides its result: a thread that holds the mutex of the
queue (`deliver`) sends it as a message to its loop, and the loop itself (the hook `interrupt`, run
by `expire()`) completes it at once.

A step is a section under the mutex of a queue, or one thing that an owner thread does outside. All
orders of steps are runs. Flags are raised at any time, also between two reads of flags in one step,
so as in `Snowy.World` a step takes the flags that are raised meanwhile from a schedule.

## Main definitions

* `Snowy.Remote` : any number of loops and queues with their waits.
* `Snowy.Remote.enqueue`, `Snowy.Remote.deliver`, `Snowy.Remote.front`, `Snowy.Remote.interrupt` :
  the functions of these names.
* `Snowy.Remote.Act` : what the threads can do.
* `Snowy.Remote.Reachable` : the states of all runs.
-/

namespace Snowy

open Function

/-- A store to a flag: `request_stop` on a stop state, the first store of the `cancel_fn` of an
operation, the first store of `loop::stop`, or the store to `cancel_` that follows either. -/
inductive Remote.Async where
  | request (token : ℕ)
  | fire (id : ℕ)
  | stop (l : ℕ)
  | raise (l : ℕ)
  deriving DecidableEq, Repr

/-- Any number of loops and queues. The list `batch` of a loop has the messages that `run()` has
detached and not yet run. `owner` and `home` are the loop and the queue of a wait, `queue` has the
linked waits from `first` to `last`, `next` is the next unused pointer and `sched` the flags that
are still to be raised during the present step.

The fields from `suspended` on are histories: the waits that have been enqueued, the results with
which waits have been unlinked, the notifications that have taken effect with the loop that has run
them, the coroutines that have been resumed, and the waits that have been destroyed. -/
structure Remote where
  loop : ℕ → LoopState := fun _ => {}
  batch : ℕ → List Message := fun _ => []
  op : ℕ → Op := fun _ => {}
  requested : ℕ → Bool := fun _ => false
  owner : ℕ → ℕ := fun _ => 0
  home : ℕ → ℕ := fun _ => 0
  queue : ℕ → List ℕ := fun _ => []
  next : ℕ := 0
  sched : List (List Remote.Async) := []
  suspended : List ℕ := []
  settled : List (ℕ × Option Errc) := []
  notified : List (ℕ × ℕ) := []
  resumed : List ℕ := []
  destroyed : List ℕ := []

namespace Remote

variable (s : Remote) (id l q : ℕ)

/-! ### One loop, one operation -/

/-- What the functions of one loop see. -/
def part : Owner := { loop := s.loop l, op := s.op, requested := s.requested }

/-- Let a function of one loop act. -/
def onLoop (f : Owner → Owner) : Remote :=
  { s with
    loop := update s.loop l (f (s.part l)).loop
    op := (f (s.part l)).op
    requested := (f (s.part l)).requested }

/-- Change the state of one loop. -/
def setLoop (f : LoopState → LoopState) : Remote :=
  { s with loop := update s.loop l (f (s.loop l)) }

/-- Change one operation. -/
def setOp (f : Op → Op) : Remote := { s with op := update s.op id (f (s.op id)) }

theorem loop_onLoop (f : Owner → Owner) (i : ℕ) :
    (s.onLoop l f).loop i = if i = l then (f (s.part l)).loop else s.loop i :=
  update_apply ..

theorem loop_setLoop (f : LoopState → LoopState) (i : ℕ) :
    (s.setLoop l f).loop i = if i = l then f (s.loop l) else s.loop i :=
  update_apply ..

theorem op_setOp (f : Op → Op) (i : ℕ) :
    (s.setOp id f).op i = if i = id then f (s.op id) else s.op i :=
  update_apply ..

/-! ### Flags -/

/-- `token.stop_requested()`. -/
def stopRequested : Option ℕ → Bool
  | none => false
  | some token => s.requested token

/-- A store to a flag. A stop callback runs when it is registered and its stop has been
requested. -/
def async : Async → Remote
  | .request token => { s with requested := update s.requested token true }
  | .fire id =>
    if (s.op id).callback && s.stopRequested (s.op id).token then
      s.setOp id fun o => { o with canceled := true }
    else s
  | .stop l => s.setLoop l fun loop => { loop with stopping := true }
  | .raise l => s.setLoop l fun loop => { loop with cancel := true }.wake

/-- The flags that are raised before the next read of a flag. -/
def interfere : Remote :=
  match s.sched with
  | [] => s
  | stores :: rest => stores.foldl async { s with sched := rest }

/-- The condition `owner.stopped() || token.stop_requested()`, which `canceled_now` and `arm`
check. -/
def halted (token : Option ℕ) : Remote × Bool :=
  let s := s.interfere
  if (s.loop l).stopping then (s, true)
  else
    let s := s.interfere
    (s, s.stopRequested token)

/-! ### The functions of `remote_wait` -/

/-- A new wait. -/
def make (op : Op) : Remote :=
  { s with
    op := update s.op s.next op
    owner := update s.owner s.next l
    home := update s.home s.next q
    next := s.next + 1 }

theorem op_make (op : Op) (i : ℕ) : (s.make l q op).op i = if i = s.next then op else s.op i :=
  update_apply ..

theorem owner_make (op : Op) (i : ℕ) :
    (s.make l q op).owner i = if i = s.next then l else s.owner i :=
  update_apply ..

theorem home_make (op : Op) (i : ℕ) : (s.make l q op).home i = if i = s.next then q else s.home i :=
  update_apply ..

/-- Store a terminal error. -/
def fail (error : Errc) : Remote := s.setOp id fun o => { o with error := some error }

theorem op_fail (error : Errc) (i : ℕ) :
    (s.fail id error).op i = if i = id then { s.op id with error := some error } else s.op i := by
  rw [fail, op_setOp]

/-- `remote_wait::canceled_now`. -/
def canceledNow : Remote × Bool :=
  match s.halted (s.owner id) (s.op id).token with
  | (s, true) => (s.fail id .operationCanceled, true)
  | (s, false) => (s, false)

/-- The construction of the `stop_callback` in `loop::arm`. -/
def register : Remote := s.onLoop (s.owner id) (·.register id)

/-- The end of `loop::arm`. -/
def activate : Remote := s.setOp id fun o => { o with active := true }

/-- `loop::arm`. -/
def arm : Remote × Bool :=
  match s.halted (s.owner id) (s.op id).token with
  | (s, true) => (s.fail id .operationCanceled, false)
  | (s, false) => ((s.interfere.register id).activate id, true)

/-- The end of `wait::park`. -/
def enlist : Remote :=
  { s.onLoop (s.owner id) (·.enlist id) with suspended := s.suspended ++ [id] }

/-- `wait::park`. -/
def park : Remote × Bool :=
  if (s.op id).interruptible then
    match s.arm id with
    | (s, true) => (s.enlist id, true)
    | (s, false) => (s, false)
  else (s.enlist id, true)

/-- Change one queue. -/
def setQueue (f : List ℕ → List ℕ) : Remote :=
  { s with queue := update s.queue q (f (s.queue q)) }

theorem queue_setQueue (f : List ℕ → List ℕ) (i : ℕ) :
    (s.setQueue q f).queue i = if i = q then f (s.queue q) else s.queue i :=
  update_apply ..

/-- Append a wait to its queue. -/
def link : Remote :=
  (s.setQueue (s.home id) (· ++ [id])).setOp id fun o => { o with linked := true }

/-- `remote_wait::enqueue`. -/
def enqueue : Remote × Bool :=
  match s.park id with
  | (s, false) => (s, false)
  | (s, true) => (s.link id, true)

/-- `remote_wait::unlink`. -/
def unlink : Remote :=
  (s.setQueue (s.home id) (·.erase id)).setOp id fun o => { o with linked := false }

/-- Unlink a wait and store its result. -/
def settle (result : Option Errc) : Remote :=
  let s := s.unlink id
  { s.setOp id fun o => { o with error := result } with settled := s.settled ++ [(id, result)] }

/-- `message::send`. -/
def send (m : Message) : Remote := s.setLoop l (·.send m)

/-- `remote_wait::deliver`. -/
def deliver (failure : Option Errc) : Remote :=
  (s.settle id failure).send (s.owner id) (.wait id)

/-- `wait::notify`, run by the loop `l`. -/
def notify : Remote :=
  { s.onLoop (s.owner id) (·.notify id) with
    notified := if (s.op id).active then s.notified ++ [(l, id)] else s.notified }

/-- The hook `remote_wait::interrupt`, run by the loop `l`. -/
def interrupt : Remote :=
  if (s.op id).linked then (s.settle id (some .operationCanceled)).notify id l else s

/-- The condition of the loop in `remote_wait::front`. -/
def dead : Remote × Bool :=
  if (s.op id).interruptible then
    let s := s.interfere
    if (s.op id).canceled then (s, true)
    else
      let s := s.interfere
      (s, (s.loop (s.owner id)).stopping)
  else (s, false)

/-- `remote_wait::front`, on the list of the linked waits. -/
def front : Remote → List ℕ → Remote × Option ℕ
  | s, [] => (s, none)
  | s, id :: rest =>
    match s.dead id with
    | (s, true) => front (s.deliver id (some .operationCanceled)) rest
    | (s, false) => (s, some id)

/-- The loop `while (auto* w = front(q)) w->deliver(verdict(w))`, on the list of the linked
waits. -/
def drain (verdict : ℕ → Option Errc) : Remote → List ℕ → Remote
  | s, [] => s
  | s, id :: rest =>
    match s.dead id with
    | (s, true) => drain verdict (s.deliver id (some .operationCanceled)) rest
    | (s, false) => drain verdict (s.deliver id (verdict id)) rest

/-! ### The owner threads -/

/-- What the scan of `waits_` in `expire()` does with one wait. It reaches the waits of the loop one
after the other, while other threads go on with their steps. -/
def scan : Remote :=
  if id ∈ (s.loop l).waits ∧ (s.op id).interruptible = true ∧
      ((s.loop l).stopping = true ∨ (s.op id).canceled = true) then s.interrupt id l
  else s

/-- The mutex section of `run()`, which detaches at most `budget` messages. -/
def detach (budget : ℕ) : Remote :=
  if s.batch l = [] then
    { s.setLoop l fun loop => { loop with messages := loop.messages.drop budget } with
      batch := update s.batch l ((s.loop l).messages.take budget) }
  else s

/-- Take the first detached message. -/
def dropMessage : Remote := { s with batch := update s.batch l (s.batch l).tail }

/-- Run the next detached message. -/
def message : Remote :=
  match s.batch l with
  | [] => s
  | .wait id :: _ => (s.dropMessage l).notify id l
  | .hop _ :: _ => s.dropMessage l

/-- Take the next coroutine from `ready_` and resume it. -/
def resume : Remote :=
  match (s.loop l).ready with
  | [] => s
  | id :: rest =>
    { s.setLoop l fun loop => { loop with ready := rest } with resumed := s.resumed ++ [id] }

/-- A wait can be destroyed when its coroutine runs: it has been resumed, or not been suspended. -/
def Destroyable : Prop := id ∈ s.resumed ∨ id ∉ s.suspended

instance : Decidable (s.Destroyable id) := inferInstanceAs (Decidable (_ ∨ _))

/-- `remote_wait::~remote_wait`. -/
def destroy : Remote :=
  if id < s.next ∧ s.Destroyable id then { s with destroyed := s.destroyed ++ [id] } else s

/-! ### Runs -/

/-- The wait exists and its coroutine is in `await_suspend`. -/
structure Idle : Prop where
  lt_next : id < s.next
  suspended : id ∉ s.suspended
  destroyed : id ∉ s.destroyed
  error : (s.op id).error = none

instance : Decidable (s.Idle id) :=
  decidable_of_iff
    (id < s.next ∧ id ∉ s.suspended ∧ id ∉ s.destroyed ∧ (s.op id).error = none)
    ⟨fun ⟨h₁, h₂, h₃, h₄⟩ => ⟨h₁, h₂, h₃, h₄⟩, fun ⟨h₁, h₂, h₃, h₄⟩ => ⟨h₁, h₂, h₃, h₄⟩⟩

/-- What an owner thread does. -/
inductive OwnerAct where
  | send (l : ℕ) (n : ℕ)
  | scan (id l : ℕ)
  | detach (l budget : ℕ)
  | message (l : ℕ)
  | resume (l : ℕ)
  | destroy (id : ℕ)
  deriving DecidableEq, Repr

/-- One step of an owner thread. -/
def ownerAct : OwnerAct → Remote
  | .send l n => s.send l (.hop n)
  | .scan id l => s.scan id l
  | .detach l budget => s.detach l budget
  | .message l => s.message l
  | .resume l => s.resume l
  | .destroy id => s.destroy id

/-- What the threads can do: the calls by the code that uses a queue, and the steps of the owner
threads. -/
inductive Act where
  | make (q l : ℕ) (token : Option ℕ) (interruptible : Bool)
  | canceledNow (id : ℕ)
  | enqueue (id : ℕ)
  | deliver (id : ℕ) (failure : Option Errc)
  | front (q : ℕ)
  | owner (a : OwnerAct)
  deriving DecidableEq, Repr

/-- One step. A wait is enqueued at most once, and only a linked wait is delivered. -/
def act : Act → Remote
  | .make q l token interruptible => s.make l q { token, interruptible, interrupt := true }
  | .canceledNow id => if s.Idle id then (s.canceledNow id).1 else s
  | .enqueue id => if s.Idle id then (s.enqueue id).1 else s
  | .deliver id failure => if (s.op id).linked then s.deliver id failure else s
  | .front q => (s.front (s.queue q)).1
  | .owner a => s.ownerAct a

/-- A step with the flags that are raised before it (the first entry) and during it. -/
def step (s : Remote) (a : Act × List (List Async)) : Remote :=
  (interfere { s with sched := a.2 }).act a.1

/-- The state after a sequence of steps. -/
def run (s : Remote) (as : List (Act × List (List Async))) : Remote := as.foldl step s

/-- A state of some run. -/
def Reachable (s : Remote) : Prop := ∃ as, s = run {} as

end Remote

end Snowy
