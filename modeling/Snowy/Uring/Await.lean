import Snowy.Lib.Intrusive
import Snowy.Uring.Flush

/-!
# Submissions that fail

`io::await_suspend` reserves the direction of the socket, registers the callback of the stop token,
links the request in front of `io_` and only then submits it. The submission may throw: on a ring
with `IORING_SETUP_IOPOLL`, or when a flush fails. The handler takes the request off the list again,
drops the callback and clears `active`.

It does not clear the flag of the direction, which stays set until the request is destroyed, and it
does not take back the increment of `drains` for a request with `IOSQE_IO_DRAIN`, which stays for
ever. The links of the list, the other requests and the submission queue are as they were.

This file models `io::await_suspend`, `loop::submit`, `access::start`, `loop::complete` and
`io::~io` over the links of `io_`. A request is awaited once; a call that throws or is refused may
be repeated. All other steps of the loop, of other threads and of the kernel only change the
submission queue, and which change it is is left open. The calls are made by the owner thread.

## Main definitions

* `Snowy.Uring.Await.Node`, `Snowy.Uring.Await.State` : requests, the list and the flags.
* `Snowy.Uring.Await.submit`, `Snowy.Uring.Await.awaitSuspend`, `Snowy.Uring.Await.start` : the
  functions.
* `Snowy.Uring.Await.Undone` : what every exception leaves as it was.

## Main results

* `Snowy.Uring.Await.Reachable.sound` : the links of `io_` are right and hold the pending requests.
* `Snowy.Uring.Await.await_suspend_undoes` : what is undone by an exception.
-/

namespace Snowy.Uring.Await

open Function

/-! ### The state -/

/-- The fields of `detail::io`. `stopPossible` belongs to the token, `busy` is the direction, and
`canceled` says that `error` is `operation_canceled`. `linked` is a history: the request has been
put into `io_`. -/
structure Node extends Request where
  code := .nop
  size : ℕ := 0
  stopPossible : Bool := false
  busy : Option ℕ := none
  alive : Bool := false
  active : Bool := false
  callback : Bool := false
  reserved : Bool := false
  draining : Bool := false
  canceled : Bool := false
  linked : Bool := false

/-- The requests, the list `io_`, the flags of the directions, and the driver. -/
structure State where
  node : ℕ → Node := fun _ => {}
  links : Links ℕ := {}
  flag : ℕ → Bool := fun _ => false
  drains : ℕ := 0
  queue : Queue := {}

namespace State

variable (s : State) (r : ℕ)

/-- An update of the request `r`. -/
def modify (f : Node → Node) : State := { s with node := update s.node r (f (s.node r)) }

/-- An assignment to `*busy` of the request `r`. -/
def setBusy (b : Bool) : State :=
  match (s.node r).busy with
  | some d => { s with flag := update s.flag d b }
  | none => s

/-- The branch of `loop::arm` that refuses the request. -/
def refuse : State := s.modify r fun x => { x with canceled := true }

/-- `loop::arm`. -/
def arm : State :=
  s.modify r fun x => { x with callback := x.callback || x.stopPossible, active := true }

/-- `if (busy) { *busy = true; reserved = true; }` -/
def takeDirection : State :=
  (s.setBusy r true).modify r fun x => { x with reserved := x.reserved || x.busy.isSome }

/-- The request is put in front of `io_`. -/
def link : State :=
  { s.modify r fun x => { x with active := true, linked := true } with
    links := s.links.pushFront r }

/-- What `io::await_suspend` does before the submission. -/
def begin : State := ((s.arm r).takeDirection r).link r

/-- The handler in `io::await_suspend`. -/
def undo : State :=
  { s.modify r fun x => { x with callback := false, active := false, linked := false } with
    links := s.links.popFront r }

/-- `op.draining = true; ++driver_->drains;` -/
def drain : State := { s.modify r fun x => { x with draining := true } with drains := s.drains + 1 }

/-- `loop::complete`. -/
def complete : State :=
  { s.modify r fun x => { x with callback := false, active := false } with
    links := s.links.erase r }

/-- The retirement of a request in `loop::poll`. -/
def retire : State :=
  { s.complete r with drains := if (s.node r).draining then s.drains - 1 else s.drains }

/-- `if (reserved) { *busy = false; reserved = false; }` -/
def release : State :=
  if (s.node r).reserved then (s.setBusy r false).modify r fun x => { x with reserved := false }
  else s

/-- `io::~io`. -/
def destroy : State :=
  (if (s.node r).reserved then s.setBusy r false else s).modify r fun x => { x with alive := false }

/-- The constructor of a request. -/
def construct (x : Request) (size : ℕ) (stopPossible : Bool) (busy : Option ℕ) : State :=
  { s.modify r fun _ => { toRequest := x, size, stopPossible, busy, alive := true } with
    links := s.links.clear r }

end State

/-! ### The functions -/

section Functions

variable (o : Options) (r : ℕ)

/-- A function of the submission queue. -/
def onQueue (x : Program Queue Thrown Unit) : Program State Thrown Unit :=
  x.on State.queue fun s queue => { s with queue }

/-- A draining request makes the poll of the eventfd complete. -/
def reserveDrain : Program State Thrown Unit := do
  let s ← get
  if s.queue.watching && !s.queue.watchWaking then
    onQueue (Queue.reserve o 1 true)

/-- The branch of `loop::submit` for `IOSQE_IO_DRAIN`. -/
def countDrain : Program State Thrown Unit := do
  if ((← get).node r).flags.drain then
    reserveDrain o
    modify fun s => s.drain r

/-- The slot for the request is taken and filled in. -/
def fill : Program State Thrown Unit := do
  let s ← get
  onQueue (Queue.sqe o (!(s.node r).retire) { tag := .request r, flags := (s.node r).flags })

/-- The ring polls for completions, and the request is not one of those it supports. -/
def unsupported (x : Request) : Bool :=
  o.iopoll && x.code != .fileRead && x.code != .fileWrite && x.code != .native

/-- `loop::submit`. -/
def submit : Program State Thrown Unit := do
  if unsupported o ((← get).node r).toRequest then
    throw .storageOnly
  else
    countDrain o r
    fill o r

/-- The submission in `io::await_suspend`. A read or write of no bytes is completed at once. -/
def launch : Program State Thrown Unit := do
  let s ← get
  if (s.node r).size = 0 ∧ ((s.node r).code = .read ∨ (s.node r).code = .write) then
    modify fun s => s.complete r
  else
    submit o r

/-- `io::await_suspend`. `stopped` says that the loop or the token of the request is. -/
def awaitSuspend (stopped : Bool) : Program State Thrown Bool := do
  let s ← get
  if (s.node r).busy.any s.flag then
    throw .direction
  else if stopped then
    modify fun s => s.refuse r
    return false
  else
    modify fun s => s.begin r
    try
      launch o r
    catch e =>
      modify fun s => s.undo r
      throw e
    return true

/-- `access::start`. -/
def start : Program State Thrown Unit := do
  modify fun s => s.link r
  submit o r

end Functions

/-! ### Runs -/

section Runs

variable (o : Options)

/-- One step. -/
inductive Step (s : State) : State → Prop
  | construct (r : ℕ) (x : Request) (size : ℕ) (stopPossible : Bool) (busy : Option ℕ)
      (dead : (s.node r).alive = false) : Step s (s.construct r x size stopPossible busy)
  | await (r : ℕ) (stopped : Bool) {v : Except Thrown Bool} {s' : State}
      (alive : (s.node r).alive = true) (first : (s.node r).linked = false)
      (run : (awaitSuspend o r stopped).exec s = some (v, s')) : Step s s'
  | start (r : ℕ) {s' : State} (alive : (s.node r).alive = true)
      (first : (s.node r).linked = false) (run : (start o r).exec s = some (.ok (), s')) : Step s s'
  -- The last CQE of the request has been seen.
  | retire (r : ℕ) (active : (s.node r).active = true) : Step s (s.retire r)
  -- `io::await_resume`, or the handler of the first CQE of a `zc_send`.
  | release (r : ℕ) (alive : (s.node r).alive = true) : Step s (s.release r)
  | destroy (r : ℕ) (alive : (s.node r).alive = true) (idle : (s.node r).active = false) :
      Step s (s.destroy r)
  | queue (queue : Queue) : Step s { s with queue }

/-- A new loop. The poll of the eventfd is queued, except on a ring that polls for completions. -/
def init : State :=
  { queue := if o.iopoll then {} else { sq := [{ tag := .wake }], watching := true } }

/-- A state of some run of a new loop. -/
def Reachable (s : State) : Prop := Relation.ReflTransGen (Step o) (init o) s

end Runs

/-! ### Why a submission throws -/

variable {o : Options} {s s' : State} {r : ℕ} {e : Thrown}

/-- The request drains, and the poll of the eventfd has to be made to complete. -/
def Wakes (x : Request) (q : Queue) : Prop :=
  x.flags.drain = true ∧ (q.watching && !q.watchWaking) = true

instance (x : Request) (q : Queue) : Decidable (Wakes x q) := inferInstanceAs (Decidable (_ ∧ _))

/-- The queue `q'` with which `driver::sqe` is called. -/
def Reserved (o : Options) (x : Request) (q q' : Queue) : Prop :=
  if Wakes x q then (Queue.reserve o 1 true).exec q = some (.ok (), q') else q' = q

/-- Why `loop::submit` throws, in terms of the request and the queue before the call: the ring is
not for the request, the flush for a draining request fails in `access::reserve`, or a flush fails
in `driver::sqe`. -/
inductive Fails (o : Options) (r : ℕ) (x : Request) (q : Queue) : Thrown → Prop
  | storageOnly (ring : unsupported o x = true) : Fails o r x q .storageOnly
  | reserve {e : Thrown} {q' : Queue} (ring : unsupported o x = false) (wakes : Wakes x q)
      (run : (Queue.reserve o 1 true).exec q = some (.error e, q')) : Fails o r x q e
  | sqe {e : Thrown} {q₁ q' : Queue} (ring : unsupported o x = false)
      (reserved : Reserved o x q q₁)
      (run : (Queue.sqe o (!x.retire) { tag := .request r, flags := x.flags }).exec q₁ =
        some (.error e, q')) : Fails o r x q e

theorem Reserved.published {x : Request} {q q' : Queue} (h : Reserved o x q q') :
    q'.published = q.published := by
  unfold Reserved at h
  split_ifs at h
  · exact Queue.published_reserve h
  · rw [h]

theorem Fails.ne_direction {x : Request} {q : Queue} (h : Fails o r x q e) : e ≠ .direction := by
  cases h with
  | storageOnly => exact nofun
  | reserve _ _ run => exact (Queue.inReserve_of_exec_reserve run).ne_direction
  | sqe _ _ run => exact (Queue.inSqe_of_exec_sqe run).ne_direction

/-! ### What a submission touches -/

/-- All that a submission of the request `r` leaves alone. -/
def State.rest (s : State) (r : ℕ) : State :=
  { s.modify r fun x => { x with draining := false } with drains := 0, queue := {} }

theorem State.rest_drain : (s.drain r).rest r = s.rest r := by
  simp only [State.rest, State.drain, State.modify, update_self, update_idem]

theorem keeps_onQueue (x : Program Queue Thrown Unit) (s₀ : State) :
    (onQueue x).Keeps fun s => s.rest r = s₀ := by
  refine .on ?_ x
  exact fun s queue h => h

theorem keeps_submit (s₀ : State) : (submit o r).Keeps fun s => s.rest r = s₀ := by
  refine .read fun s => .cond (.throw _) (.bind ?_ fun _ => ?_)
  · exact .read fun s => .cond
      (.bind (.read fun s => .cond (keeps_onQueue _ s₀) (.pure _)) fun _ =>
        .assign fun s h => State.rest_drain.trans h)
      (.pure _)
  · exact .read fun s => keeps_onQueue _ s₀

/-- `loop::submit` touches the counter, the submission queue and the field `draining`. -/
theorem rest_submit {v : Except Thrown Unit} (h : (submit o r).exec s = some (v, s')) :
    s'.rest r = s.rest r :=
  keeps_submit (s.rest r) h rfl

theorem links_of_rest (h : s'.rest r = s.rest r) : s'.links = s.links :=
  (congrArg State.links h :)

theorem flag_of_rest (h : s'.rest r = s.rest r) : s'.flag = s.flag :=
  (congrArg State.flag h :)

theorem node_of_rest (h : s'.rest r = s.rest r) {b : ℕ} (hb : b ≠ r) : s'.node b = s.node b := by
  have hnode := congrFun (congrArg State.node h) b
  simpa only [State.rest, State.modify, update_of_ne hb] using hnode

theorem self_of_rest (h : s'.rest r = s.rest r) :
    { s'.node r with draining := false } = { s.node r with draining := false } := by
  have hnode := congrFun (congrArg State.node h) r
  simpa only [State.rest, State.modify, update_self] using hnode

/-- The entry is queued only if the submission returns. -/
theorem published_onQueue {x : Program Queue Thrown Unit} {v : Except Thrown Unit}
    (h : (onQueue x).exec s = some (v, s')) :
    ∃ q, x.exec s.queue = some (v, q) ∧ s' = { s with queue := q } :=
  Program.exec_on_eq_some.mp h

/-- The branch for `IOSQE_IO_DRAIN` counts the request if it returns. -/
theorem countDrain_ok {u : Unit} (h : (countDrain o r).exec s = some (.ok u, s')) :
    Reserved o (s.node r).toRequest s.queue s'.queue ∧
      (s'.node r).toRequest = (s.node r).toRequest ∧
      s'.drains = s.drains + if (s.node r).flags.drain then 1 else 0 := by
  rw [countDrain, Program.exec_get_bind] at h
  split_ifs at h with hdrain
  · rcases Program.exec_bind_eq_some.mp h with ⟨_, -, he⟩ | ⟨_, s₁, h₁, hlast⟩
    · cases he
    cases hlast
    have hnode : ∀ s₁ : State, ((s₁.drain r).node r).toRequest = (s₁.node r).toRequest := by
      simp [State.drain, State.modify]
    rw [reserveDrain, Program.exec_get_bind] at h₁
    rw [hnode, if_pos hdrain]
    split_ifs at h₁ with hwatch
    · obtain ⟨q, hq, rfl⟩ := published_onQueue h₁
      exact ⟨(if_pos ⟨hdrain, hwatch⟩).mpr hq, rfl, rfl⟩
    · cases h₁
      exact ⟨(if_neg fun hwakes => hwatch hwakes.2).mpr rfl, rfl, rfl⟩
  · cases h
    rw [if_neg hdrain]
    exact ⟨(if_neg fun hwakes => hdrain hwakes.1).mpr rfl, rfl, rfl⟩

/-- It throws before it counts the request. -/
theorem countDrain_error (h : (countDrain o r).exec s = some (.error e, s')) :
    Wakes (s.node r).toRequest s.queue ∧ s'.drains = s.drains ∧
      (Queue.reserve o 1 true).exec s.queue = some (.error e, s'.queue) := by
  rw [countDrain, Program.exec_get_bind] at h
  split_ifs at h with hdrain
  · rcases Program.exec_bind_eq_some.mp h with ⟨e', h₁, he⟩ | ⟨_, s₁, -, hlast⟩
    · cases he
      rw [reserveDrain, Program.exec_get_bind] at h₁
      split_ifs at h₁ with hwatch
      · obtain ⟨q, hq, rfl⟩ := published_onQueue h₁
        exact ⟨⟨hdrain, hwatch⟩, rfl, hq⟩
      · cases h₁
    · cases hlast
  · cases h

/-- A submission that throws in `driver::sqe` has counted the request. -/
theorem submit_error (h : (submit o r).exec s = some (.error e, s')) :
    Fails o r (s.node r).toRequest s.queue e ∧ s'.queue.published = s.queue.published ∧
      ((¬e.InSqe ∧ s'.drains = s.drains) ∨
        (e.InSqe ∧ s'.drains = s.drains + if (s.node r).flags.drain then 1 else 0)) := by
  rw [submit, Program.exec_get_bind] at h
  split_ifs at h with hiopoll
  · cases h
    exact ⟨.storageOnly hiopoll, rfl, .inl ⟨id, rfl⟩⟩
  have hring : unsupported o (s.node r).toRequest = false := Bool.eq_false_iff.mpr hiopoll
  rcases Program.exec_bind_eq_some.mp h with ⟨e', h₁, he⟩ | ⟨_, s₁, h₁, hfill⟩
  · cases he
    obtain ⟨hwakes, hdrains, hreserve⟩ := countDrain_error h₁
    exact ⟨.reserve hring hwakes hreserve, Queue.published_reserve hreserve,
      .inl ⟨(Queue.inReserve_of_exec_reserve hreserve).not_inSqe, hdrains⟩⟩
  · obtain ⟨hreserved, hrequest, hdrains⟩ := countDrain_ok h₁
    rw [fill, Program.exec_get_bind, hrequest] at hfill
    obtain ⟨q, hq, rfl⟩ := published_onQueue hfill
    refine ⟨.sqe hring hreserved hq, ?_, .inr ⟨Queue.inSqe_of_exec_sqe hq, hdrains⟩⟩
    rcases Queue.published_sqe hq with ⟨hok, -⟩ | ⟨_, -, hpub⟩
    · cases hok
    · exact hpub.trans hreserved.published

/-! ### What `await_suspend` does -/

/-- A call that throws: the direction is in use, or the submission throws and is undone. -/
theorem awaitSuspend_error {stopped : Bool}
    (h : (awaitSuspend o r stopped).exec s = some (.error e, s')) :
    ((s.node r).busy.any s.flag = true ∧ e = .direction ∧ s' = s) ∨
      ((s.node r).busy.any s.flag = false ∧
        ∃ s₁, (submit o r).exec (s.begin r) = some (.error e, s₁) ∧ s' = s₁.undo r) := by
  rw [awaitSuspend, Program.exec_get_bind] at h
  split_ifs at h with hbusy
  · cases h
    exact .inl ⟨hbusy, rfl, rfl⟩
  · cases h
  · rw [Program.exec_modify_bind] at h
    rcases Program.exec_bind_eq_some.mp h with ⟨e', h₁, he⟩ | ⟨_, _, -, hlast⟩
    swap
    · cases hlast
    cases he
    rcases Program.exec_tryCatch_eq_some.mp h₁ with ⟨_, -, ha⟩ | ⟨e₁, s₁, hlaunch, hundo⟩
    · cases ha
    cases hundo
    rw [launch, Program.exec_get_bind] at hlaunch
    split_ifs at hlaunch
    · cases hlaunch
    · exact .inr ⟨Bool.eq_false_iff.mpr hbusy, s₁, hlaunch, rfl⟩

/-- A call that returns: it is refused, or the request is completed at once or submitted. -/
theorem awaitSuspend_ok {stopped v : Bool}
    (h : (awaitSuspend o r stopped).exec s = some (.ok v, s')) :
    s' = s.refuse r ∨ s' = (s.begin r).complete r ∨ s'.rest r = (s.begin r).rest r := by
  rw [awaitSuspend, Program.exec_get_bind] at h
  split_ifs at h with hbusy
  · cases h
  · cases h
    exact .inl rfl
  · rw [Program.exec_modify_bind] at h
    rcases Program.exec_bind_eq_some.mp h with ⟨_, -, he⟩ | ⟨_, s₁, h₁, hlast⟩
    · cases he
    cases hlast
    rcases Program.exec_tryCatch_eq_some.mp h₁ with ⟨_, hlaunch, -⟩ | ⟨_, _, -, hundo⟩
    swap
    · cases hundo
    rw [launch, Program.exec_get_bind] at hlaunch
    split_ifs at hlaunch
    · cases hlaunch
      exact .inr (.inl rfl)
    · exact .inr (.inr (rest_submit hlaunch))

/-! ### The fields after the parts of `await_suspend` -/

namespace State

theorem node_modify_of_ne {f : Node → Node} {b : ℕ} (hb : b ≠ r) :
    (s.modify r f).node b = s.node b :=
  update_of_ne hb ..

theorem node_modify (f : Node → Node) : (s.modify r f).node r = f (s.node r) :=
  update_self ..

theorem node_setBusy (b : Bool) : (s.setBusy r b).node = s.node := by
  unfold setBusy
  split <;> rfl

theorem links_setBusy (b : Bool) : (s.setBusy r b).links = s.links := by
  unfold setBusy
  split <;> rfl

theorem drains_setBusy (b : Bool) : (s.setBusy r b).drains = s.drains := by
  unfold setBusy
  split <;> rfl

theorem queue_setBusy (b : Bool) : (s.setBusy r b).queue = s.queue := by
  unfold setBusy
  split <;> rfl

theorem node_link_of_ne {b : ℕ} (hb : b ≠ r) : (s.link r).node b = s.node b :=
  update_of_ne hb ..

theorem node_link : (s.link r).node r = { s.node r with active := true, linked := true } :=
  update_self ..

theorem node_begin_of_ne {b : ℕ} (hb : b ≠ r) : (s.begin r).node b = s.node b := by
  rw [begin, node_link_of_ne hb, takeDirection, node_modify_of_ne hb, node_setBusy, arm,
    node_modify_of_ne hb]

theorem node_begin : (s.begin r).node r =
    { s.node r with
      callback := (s.node r).callback || (s.node r).stopPossible
      active := true
      reserved := (s.node r).reserved || (s.node r).busy.isSome
      linked := true } := by
  rw [begin, node_link, takeDirection, node_modify, node_setBusy, arm, node_modify]

theorem links_begin : (s.begin r).links = s.links.pushFront r := by
  change ((s.arm r).setBusy r true).links.pushFront r = _
  rw [links_setBusy]
  rfl

theorem drains_begin : (s.begin r).drains = s.drains := drains_setBusy (s := s.arm r) true

theorem queue_begin : (s.begin r).queue = s.queue := queue_setBusy (s := s.arm r) true

/-- The direction is set. -/
theorem flag_begin : (s.begin r).flag =
    match (s.node r).busy with
    | some d => update s.flag d true
    | none => s.flag := by
  change ((s.arm r).setBusy r true).flag = _
  rw [setBusy, arm, node_modify]
  dsimp only
  split <;> rfl

end State

/-! ### What an exception undoes -/

/-- What every exception of `await_suspend` leaves as it was: the list, the other requests with
their links, the fields `active` and `callback`, and the submission queue up to flushes. -/
structure Undone (r : ℕ) (s s' : State) : Prop where
  head : s'.links.head = s.links.head
  prev : ∀ b, s'.links.prev b = s.links.prev b
  next : ∀ b, b ≠ r → s'.links.next b = s.links.next b
  other : ∀ b, b ≠ r → s'.node b = s.node b
  active : (s'.node r).active = (s.node r).active
  callback : (s'.node r).callback = (s.node r).callback
  published : s'.queue.published = s.queue.published

theorem Undone.refl (r : ℕ) (s : State) : Undone r s s :=
  ⟨rfl, fun _ => rfl, fun _ _ => rfl, fun _ _ => rfl, rfl, rfl, rfl⟩

theorem undone_undo {l : List ℕ} {s₁ : State} (hl : s.links.Lists l)
    (hactive : (s.node r).active = false) (hcallback : (s.node r).callback = false)
    (h : (submit o r).exec (s.begin r) = some (.error e, s₁)) : Undone r s (s₁.undo r) := by
  have hrest := rest_submit h
  have hlinks : (s₁.undo r).links = (s.links.pushFront r).popFront r :=
    congrArg (Links.popFront · r) ((links_of_rest hrest).trans State.links_begin)
  have hself : ((s₁.undo r).node r).active = false ∧ ((s₁.undo r).node r).callback = false := by
    rw [State.undo, State.node_modify]
    exact ⟨rfl, rfl⟩
  constructor
  case head => rw [hlinks, Links.head_popFront]
  case prev => exact fun b => by rw [hlinks, hl.prev_popFront]
  case next => exact fun b hb => by rw [hlinks, Links.next_popFront hb]
  case other =>
    intro b hb
    have hundo : (s₁.undo r).node b = s₁.node b := update_of_ne hb ..
    rw [hundo, node_of_rest hrest hb, State.node_begin_of_ne hb]
  case active => exact hself.1.trans hactive.symm
  case callback => exact hself.2.trans hcallback.symm
  case published =>
    exact (submit_error h).2.1.trans (congrArg Queue.published State.queue_begin)

/-! ### The links in every run -/

/-- The fields that belong to the list. -/
def Node.core (x : Node) : Bool × Bool × Bool := (x.active, x.callback, x.linked)

/-- The links of `io_` are right, and its nodes are the pending requests. A request that has not
been in the list has no link back, and one that is not pending has no callback. -/
structure Sound (s : State) : Prop where
  lists : ∃ l, s.links.Lists l ∧ ∀ r, r ∈ l ↔ (s.node r).active = true
  linked : ∀ r, (s.node r).active = true → (s.node r).linked = true
  alive : ∀ r, (s.node r).active = true → (s.node r).alive = true
  prev : ∀ r, (s.node r).linked = false → s.links.prev r = none
  callback : ∀ r, (s.node r).active = false → (s.node r).callback = false

namespace Sound

theorem init : Sound (init o) where
  lists := ⟨[], Links.Lists.nil (L := {}), fun _ => ⟨nofun, nofun⟩⟩
  linked _ h := by cases h
  alive _ h := by cases h
  prev _ _ := rfl
  callback _ _ := rfl

section

variable (hs : Sound s)
include hs

/-- The rest of the state does not matter. -/
theorem congr (hlinks : s'.links = s.links) (hcore : ∀ b, (s'.node b).core = (s.node b).core)
    (halive : ∀ b, (s.node b).active = true → (s'.node b).alive = (s.node b).alive) : Sound s' := by
  have hactive : ∀ b, (s'.node b).active = (s.node b).active := fun b =>
    congrArg (·.1) (hcore b)
  have hcallback : ∀ b, (s'.node b).callback = (s.node b).callback := fun b =>
    congrArg (·.2.1) (hcore b)
  have hlinked : ∀ b, (s'.node b).linked = (s.node b).linked := fun b =>
    congrArg (·.2.2) (hcore b)
  obtain ⟨l, hl, hmem⟩ := hs.lists
  refine ⟨⟨l, hlinks ▸ hl, fun b => by rw [hactive, hmem]⟩, fun b hb => ?_, fun b hb => ?_,
    fun b hb => ?_, fun b hb => ?_⟩
  · rw [hactive] at hb
    rw [hlinked, hs.linked b hb]
  · rw [hactive] at hb
    rw [halive b hb, hs.alive b hb]
  · rw [hlinked] at hb
    rw [hlinks, hs.prev b hb]
  · rw [hactive] at hb
    rw [hcallback, hs.callback b hb]

/-- A change of one request that leaves the list and the fields that belong to it alone. -/
theorem modify {f : Node → Node} (hcore : (f (s.node r)).core = (s.node r).core)
    (halive : (s.node r).active = true → (f (s.node r)).alive = (s.node r).alive) :
    Sound (s.modify r f) := by
  refine hs.congr rfl (fun b => ?_) fun b hb => ?_
  · by_cases hbr : b = r
    · rw [hbr, State.node_modify, hcore]
    · rw [State.node_modify_of_ne hbr]
  · by_cases hbr : b = r
    · rw [hbr, State.node_modify, halive (hbr ▸ hb)]
    · rw [State.node_modify_of_ne hbr]

theorem setBusy (v : Bool) : Sound (s.setBusy r v) :=
  hs.congr (State.links_setBusy v) (fun b => by rw [State.node_setBusy])
    fun b _ => by rw [State.node_setBusy]

theorem of_rest (h : s'.rest r = s.rest r) : Sound s' := by
  refine hs.congr (links_of_rest h) (fun b => ?_) fun b _ => ?_
  · by_cases hb : b = r
    · rw [hb]
      exact (congrArg Node.core (self_of_rest h) :)
    · rw [node_of_rest h hb]
  · by_cases hb : b = r
    · rw [hb]
      exact (congrArg Node.alive (self_of_rest h) :)
    · rw [node_of_rest h hb]

/-- Only the request `r` and the list are changed. -/
theorem of_self (hother : ∀ b, b ≠ r → s'.node b = s.node b)
    (lists : ∃ l, s'.links.Lists l ∧ ∀ r, r ∈ l ↔ (s'.node r).active = true)
    (hself : (s'.node r).active = true → (s'.node r).linked = true ∧ (s'.node r).alive = true)
    (hprev : ∀ b, (s'.node b).linked = false → s'.links.prev b = none)
    (hcallback : (s'.node r).active = false → (s'.node r).callback = false) : Sound s' := by
  refine ⟨lists, fun b hb => ?_, fun b hb => ?_, hprev, fun b hb => ?_⟩ <;>
    by_cases hbr : b = r
  · rw [hbr] at hb ⊢
    exact (hself hb).1
  · rw [hother b hbr] at hb ⊢
    exact hs.linked b hb
  · rw [hbr] at hb ⊢
    exact (hself hb).2
  · rw [hother b hbr] at hb ⊢
    exact hs.alive b hb
  · rw [hbr] at hb ⊢
    exact hcallback hb
  · rw [hother b hbr] at hb ⊢
    exact hs.callback b hb

/-- A request that has not been linked is not in the list. -/
theorem not_mem_of_not_linked {l : List ℕ} (hmem : ∀ r, r ∈ l ↔ (s.node r).active = true) {b : ℕ}
    (hb : (s.node b).linked = false) : b ∉ l := by
  intro hbl
  rw [hs.linked b ((hmem b).mp hbl)] at hb
  cases hb

theorem idle_of_not_linked (hr : (s.node r).linked = false) : (s.node r).active = false := by
  by_contra hactive
  rw [hs.linked r (Bool.of_not_eq_false hactive)] at hr
  cases hr

/-- A new request is put into the list. -/
theorem link (first : (s.node r).linked = false) (hlinks : s'.links = s.links.pushFront r)
    (hother : ∀ b, b ≠ r → s'.node b = s.node b) (hactive : (s'.node r).active = true)
    (hlinked : (s'.node r).linked = true) (halive : (s'.node r).alive = true) : Sound s' := by
  obtain ⟨l, hl, hmem⟩ := hs.lists
  refine hs.of_self hother ?_ (fun _ => ⟨hlinked, halive⟩) (fun b hb => ?_) fun hidle => ?_
  · have hout := hs.not_mem_of_not_linked hmem first
    refine ⟨r :: l, hlinks ▸ hl.pushFront hout (hs.prev r first), fun b => ?_⟩
    by_cases hb : b = r
    · simp [hb, hactive]
    · simp [hb, hother b hb, hmem]
  · have hbr : b ≠ r := by
      rintro rfl
      rw [hlinked] at hb
      cases hb
    rw [hother b hbr] at hb
    have hout := hs.not_mem_of_not_linked hmem hb
    rw [hlinks, Links.prev_pushFront_of_ne fun h => hout (hl.mem_of_head h), hs.prev b hb]
  · rw [hactive] at hidle
    cases hidle

/-- A pending request is completed. -/
theorem complete (hr : (s.node r).active = true) : Sound (s.complete r) := by
  obtain ⟨l, hl, hmem⟩ := hs.lists
  have hrl := (hmem r).mpr hr
  have hself : (s.complete r).node r = { s.node r with callback := false, active := false } :=
    update_self ..
  have hother : ∀ b, b ≠ r → (s.complete r).node b = s.node b := fun b hb =>
    update_of_ne hb ..
  refine hs.of_self hother ⟨l.erase r, hl.erase hrl, fun b => ?_⟩ (fun hactive => ?_)
    (fun b hb => ?_) fun _ => congrArg Node.callback hself
  · rw [hl.nodup.mem_erase_iff]
    by_cases hb : b = r
    · simp [hb, hself]
    · simp [hb, hother b hb, hmem]
  · rw [hself] at hactive
    cases hactive
  · have hbl : (s.node b).linked = false := by
      by_cases hbr : b = r
      · rw [hbr, hself] at hb
        rw [hbr]
        exact hb
      · rwa [hother b hbr] at hb
    refine (Links.prev_erase_of_ne ?_).trans (hs.prev b hbl)
    rintro c hc rfl
    exact hs.not_mem_of_not_linked hmem hbl (hl.mem_of_next hrl hc)

/-- A request that has not been in the list is still not in it after an exception. -/
theorem of_undone (first : (s.node r).linked = false) (h : Undone r s s') : Sound s' := by
  obtain ⟨l, hl, hmem⟩ := hs.lists
  have hidle := hs.idle_of_not_linked first
  have hrl := hs.not_mem_of_not_linked hmem first
  refine hs.of_self h.other ⟨l, ?_, fun b => ?_⟩ (fun hactive => ?_) (fun b hb => ?_) fun _ => ?_
  · exact hl.congr h.head (fun b hb => h.next b (ne_of_mem_of_not_mem hb hrl)) fun b _ => h.prev b
  · by_cases hb : b = r
    · rw [hb, h.active, hmem]
    · rw [h.other b hb, hmem]
  · rw [h.active, hidle] at hactive
    cases hactive
  · rw [h.prev]
    by_cases hbr : b = r
    · rw [hbr, hs.prev r first]
    · rw [h.other b hbr] at hb
      exact hs.prev b hb
  · rw [h.callback, hs.callback r hidle]

/-- A request is constructed at an address that is not in use. -/
theorem construct (dead : (s.node r).alive = false) (x : Request) (size : ℕ)
    (stopPossible : Bool) (busy : Option ℕ) : Sound (s.construct r x size stopPossible busy) := by
  obtain ⟨l, hl, hmem⟩ := hs.lists
  have hidle : ¬(s.node r).active = true := by
    intro hr
    rw [hs.alive r hr] at dead
    cases dead
  have hself : (s.construct r x size stopPossible busy).node r =
      { toRequest := x, size, stopPossible, busy, alive := true } :=
    update_self ..
  have hother : ∀ b, b ≠ r → (s.construct r x size stopPossible busy).node b = s.node b :=
    fun b hb => update_of_ne hb ..
  refine hs.of_self hother ⟨l, hl.clear (mt (hmem r).mp hidle), fun b => ?_⟩ (fun hactive => ?_)
    (fun b hb => ?_) fun _ => congrArg Node.callback hself
  · by_cases hb : b = r
    · simp [hb, hself, hmem, hidle]
    · rw [hother b hb, hmem]
  · rw [hself] at hactive
    cases hactive
  · by_cases hbr : b = r
    · rw [hbr]
      exact Links.prev_clear
    · rw [hother b hbr] at hb
      exact (Links.prev_clear_of_ne hbr).trans (hs.prev b hb)

theorem begin (alive : (s.node r).alive = true)
    (first : (s.node r).linked = false) : Sound (s.begin r) := by
  refine hs.link first State.links_begin (fun b hb => State.node_begin_of_ne hb) ?_ ?_ ?_ <;>
    rw [State.node_begin]
  exact alive

/-- Whatever `await_suspend` ends with, the list is right. -/
theorem awaitSuspend {stopped : Bool} {v : Except Thrown Bool}
    (alive : (s.node r).alive = true) (first : (s.node r).linked = false)
    (run : (awaitSuspend o r stopped).exec s = some (v, s')) : Sound s' := by
  cases v with
  | error e =>
    rcases awaitSuspend_error run with ⟨-, -, rfl⟩ | ⟨-, s₁, hsubmit, rfl⟩
    · exact hs
    · obtain ⟨l, hl, -⟩ := hs.lists
      have hidle := hs.idle_of_not_linked first
      exact hs.of_undone first (undone_undo hl hidle (hs.callback r hidle) hsubmit)
  | ok v =>
    rcases awaitSuspend_ok run with rfl | rfl | hrest
    · exact hs.modify rfl fun _ => rfl
    · exact (hs.begin alive first).complete (by rw [State.node_begin])
    · exact (hs.begin alive first).of_rest hrest

theorem start (alive : (s.node r).alive = true) (first : (s.node r).linked = false)
    {v : Except Thrown Unit} (run : (start o r).exec s = some (v, s')) : Sound s' := by
  rw [Await.start, Program.exec_modify_bind] at run
  have hlink : Sound (s.link r) := by
    refine hs.link first rfl (fun b hb => State.node_link_of_ne hb) ?_ ?_ ?_ <;>
      rw [State.node_link]
    exact alive
  exact hlink.of_rest (rest_submit run)

theorem step (h : Step o s s') : Sound s' := by
  cases h with
  | construct r x size stopPossible busy dead => exact hs.construct dead ..
  | await r stopped alive first run => exact hs.awaitSuspend alive first run
  | start r alive first run => exact hs.start alive first run
  | retire r active => exact (hs.complete active).congr rfl (fun _ => rfl) fun _ _ => rfl
  | release r alive =>
    unfold State.release
    split_ifs
    · exact (hs.setBusy false).modify rfl fun _ => rfl
    · exact hs
  | destroy r alive idle =>
    have hbusy : Sound (if (s.node r).reserved then s.setBusy r false else s) := by
      split_ifs
      · exact hs.setBusy false
      · exact hs
    refine hbusy.modify rfl fun hr => ?_
    split_ifs at hr with hres
    · rw [State.node_setBusy, idle] at hr
      cases hr
    · rw [idle] at hr
      cases hr
  | queue queue => exact hs.congr rfl (fun _ => rfl) fun _ _ => rfl

end

end Sound

/-- **In every reachable state the links of `io_` are right, and its nodes are the pending
requests.** -/
theorem Reachable.sound (h : Reachable o s) : Sound s := by
  induction h with
  | refl => exact .init
  | tail _ h ih => exact ih.step h

/-! ### What stays after an exception -/

/-- The flag of the direction is set before the submission and not cleared by the handler. -/
theorem flag_begin_eq_iff (h : (s.node r).busy.any s.flag = false) :
    (s.begin r).flag = s.flag ↔ (s.node r).busy = none := by
  rw [State.flag_begin]
  cases hbusy : (s.node r).busy with
  | none => simp
  | some d =>
    rw [hbusy] at h
    have hflag : s.flag d = false := h
    refine ⟨fun heq => ?_, nofun⟩
    have hd : update s.flag d true d = s.flag d := congrFun heq d
    rw [update_self, hflag] at hd
    cases hd

/-- **When `await_suspend` throws, the direction was in use, or it was free and the submission
fails: the ring is not for the request, or a flush fails in `access::reserve` or in `driver::sqe`.
The list `io_`, the other requests with their links, `active`, `callback` and the submission queue
are as they were. The flag of the direction is as it was if and only if the request has no direction
or the exception says that it is in use, and the number of draining requests is as it was if and
only if the request does not drain or the exception does not come from `driver::sqe`.** -/
theorem await_suspend_undoes (h : Reachable o s) (hidle : (s.node r).active = false)
    (stopped : Bool) (hthrow : (awaitSuspend o r stopped).exec s = some (.error e, s')) :
    ((s.node r).busy.any s.flag = true ∧ e = .direction ∨
      (s.node r).busy.any s.flag = false ∧ Fails o r (s.node r).toRequest s.queue e) ∧
      Undone r s s' ∧
      (s'.flag = s.flag ↔ (s.node r).busy = none ∨ e = .direction) ∧
      (s'.drains = s.drains ↔ (s.node r).flags.drain = false ∨ ¬e.InSqe) := by
  rcases awaitSuspend_error hthrow with ⟨hused, rfl, rfl⟩ | ⟨hfree, s₁, hsubmit, rfl⟩
  · exact ⟨.inl ⟨hused, rfl⟩, .refl r s', by simp, by simp [Thrown.InSqe]⟩
  obtain ⟨l, hl, -⟩ := h.sound.lists
  obtain ⟨hfails, -, hdrains⟩ := submit_error hsubmit
  rw [State.node_begin, State.queue_begin] at hfails
  refine ⟨.inr ⟨hfree, hfails⟩, undone_undo hl hidle (h.sound.callback r hidle) hsubmit, ?_, ?_⟩
  · have hne := hfails.ne_direction
    have hflag := flag_of_rest (rest_submit hsubmit)
    change s₁.flag = s.flag ↔ _
    rw [hflag, flag_begin_eq_iff hfree]
    simp [hne]
  · rw [State.drains_begin, State.node_begin] at hdrains
    change s₁.drains = s.drains ↔ _
    rcases hdrains with ⟨hsqe, hdrains⟩ | ⟨hsqe, hdrains⟩
    · simp [hsqe, hdrains]
    · rw [hdrains]
      cases hdrain : (s.node r).flags.drain <;> simp [hsqe]

/-- A small ring that submits every entry at once. -/
def eagerOptions : Options := { entries := 2, entries_pos := Nat.two_pos, submitBatch := 1 }

/-- On a new loop, a request is about to be awaited, and the next flush fails with `EAGAIN`. -/
def flushState (flags : Flags) : State :=
  { (init eagerOptions).construct 0 { code := .native, flags, handler := true } 1 false none with
    queue := { sq := [{ tag := .wake }], watching := true, replies := [.failed 11] } }

theorem reachable_flushState (flags : Flags) : Reachable eagerOptions (flushState flags) :=
  (Relation.ReflTransGen.single (.construct 0 _ 1 false none rfl)).tail (.queue _)

theorem await_suspend_undoes_flushState : ∃ s',
    (awaitSuspend eagerOptions 0 false).exec (flushState {}) = some (.error (.threshold 11), s') ∧
      Fails eagerOptions 0 ((flushState {}).node 0).toRequest (flushState {}).queue
        (.threshold 11) ∧
      Undone 0 (flushState {}) s' ∧
      (s'.flag = (flushState {}).flag ↔ ((flushState {}).node 0).busy = none ∨
        Thrown.threshold 11 = .direction) ∧
      (s'.drains = (flushState {}).drains ↔ ((flushState {}).node 0).flags.drain = false ∨
        ¬(Thrown.threshold 11).InSqe) :=
  ⟨_, rfl, And.imp_left (fun h => (h.resolve_left nofun).2)
    (await_suspend_undoes (reachable_flushState {}) rfl false rfl)⟩

/-- A ring that polls for completions. -/
def pollingOptions : Options := { entries := 1, entries_pos := by decide, iopoll := true }

/-- A read of one byte from a socket is about to be awaited. -/
def socketState : State :=
  (init pollingOptions).construct 0 { code := .read } 1 false (some 0)

/-- A read from a socket on a ring that polls for completions leaves the direction in use, and a
draining request whose flush in `driver::sqe` fails is counted for ever. -/
theorem exists_trace_of_throw :
    (∃ (o : Options) (s s' : State) (r d : ℕ) (e : Thrown), Reachable o s ∧
      (s.node r).active = false ∧ (s.node r).busy = some d ∧
      (awaitSuspend o r false).exec s = some (.error e, s') ∧
      s.flag d = false ∧ s'.flag d = true) ∧
    ∃ (o : Options) (s s' : State) (r : ℕ) (e : Thrown), Reachable o s ∧
      (s.node r).active = false ∧
      (awaitSuspend o r false).exec s = some (.error e, s') ∧ s.drains = 0 ∧ s'.drains = 1 := by
  refine ⟨⟨pollingOptions, socketState, _, 0, 0, .storageOnly, ?_, rfl, rfl, rfl, rfl, rfl⟩,
    ⟨eagerOptions, flushState { drain := true }, _, 0, .threshold 11,
      reachable_flushState _, rfl, rfl, rfl, rfl⟩⟩
  exact Relation.ReflTransGen.single (.construct 0 _ 1 false (some 0) rfl)

end Snowy.Uring.Await
