import Snowy.Remote.Futex

/-!
# Spawned tasks and their handles

`publish` owns a child and shares a `spawn_state` with a handle. When the child has ended, it writes
the result, sets `done` and `complete` under the mutex of the state and notifies its condition
variable there, and then notifies the waits of the futex on `complete`. The owner of the handle
awaits it on a loop, which waits at the futex and takes no notice of stops, or calls `get()`, which
waits at the condition variable, or discards it.

The states and their futexes have the same numbers. A step is one store, one section under a mutex
or one step of `Snowy.Futex`; `complete` is read without the mutex of the state, so the section of
`publish` is three steps, during which `get()` waits for the mutex. The flags of the loops are
raised before and during every step, as in `Snowy.Futex`. A writer to the atomic of a futex is named
by the number of the state.

## Main definitions

* `Snowy.Spawn.Cell` : a `spawn_state` with its producer and its consumer.
* `Snowy.Spawn.State` : any number of spawned tasks and any number of loops.
* `Snowy.Spawn.Act` : what the threads can do.
* `Snowy.Spawn.Reads` : the consumer reads the result next.
* `Snowy.Spawn.Sound` : the invariant.

## Main results

* `Snowy.Spawn.join_handle_publishes_once` : what a consumer obtains, and that it is woken.
-/

namespace Snowy.Spawn

open Function

/-- The place of `publish`: not spawned, before the end of the child, before the mutex section,
after each of its two stores, behind it, and at its end. -/
inductive Producer where
  | absent
  | running
  | written
  | marked
  | stored
  | unlocked
  | finished
  deriving DecidableEq, Repr

/-- How a consumer ends: `take()` returns `*value`, where `none` is the use of an empty optional, or
rethrows the exception; or `await_resume` throws the error of the wait. -/
inductive Outcome (α ε : Type*) where
  | returned (value : Option α)
  | threw (e : ε)
  | failed (e : Errc)
  deriving DecidableEq, Repr

/-- The place of the owner of a handle. With an awaiter `id`: it is constructed, has passed the
check of `await_suspend`, holds the mutex of the futex and has found the expected value, is
suspended, or has returned from `await_suspend` without suspension. In `get()`: about to lock the
mutex, or asleep at the condition variable. -/
inductive Consumer (α ε : Type*) where
  | absent
  | held
  | constructed (id : ℕ)
  | checked (id : ℕ)
  | locked (id : ℕ)
  | suspended (id : ℕ)
  | passed (id : ℕ)
  | testing
  | asleep
  | dropped
  | ended (o : Outcome α ε)
  deriving DecidableEq, Repr

/-- The awaiter of a consumer. -/
def Consumer.wait {α ε : Type*} : Consumer α ε → Option ℕ
  | .constructed id | .checked id | .locked id | .suspended id | .passed id => some id
  | _ => none

/-- A `spawn_state` without its futex. `result` is a history: what the child has returned or
thrown. -/
structure Cell (α ε : Type*) where
  value : Option α := none
  error : Option ε := none
  done : Bool := false
  producer : Producer := .absent
  consumer : Consumer α ε := .absent
  result : Option (Except ε α) := none

namespace Cell

variable {α ε : Type*} (c : Cell α ε)

/-- The owner of the handle goes on. -/
def goto (consumer : Consumer α ε) : Cell α ε := { c with consumer }

/-- The producer goes on. -/
def advance (producer : Producer) : Cell α ε := { c with producer }

/-- A task is spawned, and its handle is returned. -/
def spawn : Cell α ε := { c with producer := .running, consumer := .held }

/-- The child has ended, and its result is written. -/
def write : Except ε α → Cell α ε
  | .ok v => { c with producer := .written, value := some v, result := some (.ok v) }
  | .error e => { c with producer := .written, error := some e, result := some (.error e) }

/-- `done = true`, with the mutex locked. -/
def mark : Cell α ε := { c with producer := .marked, done := true }

/-- The mutex of the state is held by the producer. -/
def isLocked : Bool := c.producer = .marked || c.producer = .stored

/-- `ready.notify_one()`, and the mutex is unlocked. -/
def unlock : Cell α ε :=
  match c.consumer with
  | .asleep => (c.goto .testing).advance .unlocked
  | _ => c.advance .unlocked

/-- `spawn_state::take`. -/
def take : Outcome α ε :=
  match c.error with
  | some e => .threw e
  | none => .returned c.value

/-- One look of `get()` at its predicate, under the mutex. -/
def test : Cell α ε := if c.done then c.goto (.ended c.take) else c.goto .asleep

end Cell

/-- Spawned tasks. `published` is a history: the states whose `complete` has been set. -/
structure State (α ε : Type*) extends Futex Bool where
  cell : ℕ → Cell α ε := fun _ => {}
  published : List ℕ := []

namespace State

variable {α ε : Type*} (s : State α ε) (q l : ℕ)

/-- The same tasks with other futexes. -/
def withFutex (futex : Futex Bool) : State α ε := { s with toFutex := futex }

/-- A state changes. -/
def modify (f : Cell α ε → Cell α ε) : State α ε :=
  { s with cell := update s.cell q (f (s.cell q)) }

/-! ### The producer -/

/-- `spawn`, for a task that is not empty. -/
def spawn : State α ε :=
  match (s.cell q).producer with
  | .absent => s.modify q Cell.spawn
  | _ => s

/-- The child ends, and its result is written. -/
def write (r : Except ε α) : State α ε :=
  match (s.cell q).producer with
  | .running => s.modify q (·.write r)
  | _ => s

/-- `publish` locks the mutex and sets `done`. -/
def mark : State α ε :=
  match (s.cell q).producer with
  | .written => s.modify q Cell.mark
  | _ => s

/-- `publish` stores to `complete`. -/
def store : State α ε :=
  match (s.cell q).producer with
  | .marked =>
    { (s.withFutex (s.toFutex.store q q true)).modify q (·.advance .stored) with
      published := s.published ++ [q] }
  | _ => s

/-- `publish` notifies the condition variable and unlocks the mutex. -/
def unlock : State α ε :=
  match (s.cell q).producer with
  | .stored => s.modify q Cell.unlock
  | _ => s

/-- `publish` notifies the waits of the futex. -/
def notifyAll : State α ε :=
  match (s.cell q).producer with
  | .unlocked =>
    if s.holder q = none then
      (s.withFutex (s.toFutex.notifyAll q q)).modify q (·.advance .finished)
    else s
  | _ => s

/-! ### The consumer -/

/-- `join_handle::release`, which leaves the owner of the handle at the given place. -/
def release (next : Consumer α ε) : Except String (State α ε) :=
  match (s.cell q).consumer with
  | .held => .ok (s.modify q (·.goto next))
  | _ => .error "empty join handle"

/-- `join_handle::join`, which constructs an awaiter. -/
def join : Except String (State α ε) :=
  (s.withFutex (s.toFutex.construct q l false none false)).release q (.constructed s.next)

/-- `operator co_await`, on a thread that is running the given loop, if any. -/
def coAwait (current : Option ℕ) : Except String (State α ε) :=
  match current with
  | some l => s.join q l
  | none => .error "join requires a running loop"

/-- The beginning of `get()`. -/
def get (current : Option ℕ) : Except String (State α ε) :=
  match current with
  | some _ => .error "blocking join on a loop"
  | none => s.release q .testing

/-- The beginning of `await_suspend`. -/
def check : State α ε :=
  match (s.cell q).consumer with
  | .constructed id =>
    (s.withFutex (s.toFutex.check id)).modify q
      (·.goto (if id ∈ (s.toFutex.check id).passed then .checked id else .passed id))
  | _ => s

/-- `await_suspend` locks the mutex of the futex and loads `complete`. -/
def load : State α ε :=
  match (s.cell q).consumer with
  | .checked id =>
    if s.holder q = none then
      (s.withFutex (s.toFutex.load id)).modify q
        (·.goto (if s.value q = s.old id then .locked id else .passed id))
    else s
  | _ => s

/-- The end of `await_suspend`. -/
def commit : State α ε :=
  match (s.cell q).consumer with
  | .locked id =>
    (s.withFutex (s.toFutex.commit id)).modify q
      (·.goto (if (s.toRemote.enqueue id).2 then .suspended id else .passed id))
  | _ => s

/-- `await_resume` of the awaiter `id`. -/
def outcome (id : ℕ) : Outcome α ε :=
  match (s.op id).error with
  | some e => .failed e
  | none => (s.cell q).take

/-- The coroutine of an awaiter goes on with `await_resume`. -/
def finish : State α ε :=
  match (s.cell q).consumer with
  | .passed id => s.modify q (·.goto (.ended (s.outcome q id)))
  | .suspended id =>
    if id ∈ s.resumed then s.modify q (·.goto (.ended (s.outcome q id))) else s
  | _ => s

/-- `get()` locks the mutex and looks at its predicate. -/
def test : State α ε :=
  match (s.cell q).consumer with
  | .testing => if (s.cell q).isLocked then s else s.modify q Cell.test
  | _ => s

/-- The condition variable wakes up for no reason. -/
def wake : State α ε :=
  match (s.cell q).consumer with
  | .asleep => s.modify q (·.goto .testing)
  | _ => s

/-- The handle is detached or destroyed, or an awaiter is destroyed before its `await_suspend`, as
when `await_suspend` finds that it is on the thread of another loop. -/
def drop : State α ε :=
  match (s.cell q).consumer with
  | .held | .constructed _ => s.modify q (·.goto .dropped)
  | _ => s

/-- The awaiter of a consumer exists until the consumer has read the result. -/
def keeps : Remote.OwnerAct → Bool
  | .destroy id => (s.cell (s.home id)).consumer.wait = some id
  | _ => false

end State

/-- What the threads can do. -/
inductive Act (α ε : Type*) where
  | spawn (q : ℕ)
  | write (q : ℕ) (r : Except ε α)
  | mark (q : ℕ)
  | store (q : ℕ)
  | unlock (q : ℕ)
  | notifyAll (q : ℕ)
  | join (q l : ℕ)
  | coAwait (q : ℕ) (current : Option ℕ)
  | get (q : ℕ) (current : Option ℕ)
  | check (q : ℕ)
  | load (q : ℕ)
  | commit (q : ℕ)
  | finish (q : ℕ)
  | test (q : ℕ)
  | wake (q : ℕ)
  | drop (q : ℕ)
  | owner (a : Remote.OwnerAct)

namespace State

variable {α ε : Type*} (s : State α ε)

/-- A call that throws changes nothing. -/
def call : Except String (State α ε) → State α ε
  | .ok s' => s'
  | .error _ => s

/-- One step. A constructor waits while the mutex of its queue is held. -/
def act : Act α ε → State α ε
  | .spawn q => s.spawn q
  | .write q r => s.write q r
  | .mark q => s.mark q
  | .store q => s.store q
  | .unlock q => s.unlock q
  | .notifyAll q => s.notifyAll q
  | .join q l => if s.holder q = none then s.call (s.join q l) else s
  | .coAwait q current => if s.holder q = none then s.call (s.coAwait q current) else s
  | .get q current => s.call (s.get q current)
  | .check q => s.check q
  | .load q => s.load q
  | .commit q => s.commit q
  | .finish q => s.finish q
  | .test q => s.test q
  | .wake q => s.wake q
  | .drop q => s.drop q
  | .owner a => if s.keeps a then s else s.withFutex (s.toFutex.act (.owner a))

/-- A step with the flags that are raised before it (the first entry) and during it. -/
def step (s : State α ε) (a : Act α ε × List (List Remote.Async)) : State α ε :=
  (s.withFutex (s.toFutex.interfere a.2)).act a.1

/-- The state after a sequence of steps. -/
def run (s : State α ε) (as : List (Act α ε × List (List Remote.Async))) : State α ε :=
  as.foldl step s

/-- Before any task is spawned. -/
def init : State α ε := { Futex.init fun _ => false with }

/-- A state of some run. -/
def Reachable (s : State α ε) : Prop := ∃ as, s = run init as

end State

end Snowy.Spawn

namespace Snowy.Remote

open List

variable {s s' s₁ : Remote} {id q : ℕ}

/-! ### Waits that take no notice of stops -/

/-- Waits are delivered without error, and nothing else happens to them but notifications. -/
structure Calm (s s' : Remote) : Prop where
  next : s'.next = s.next := by rfl
  home : s'.home = s.home := by rfl
  suspended : s'.suspended = s.suspended := by rfl
  destroyed : s'.destroyed = s.destroyed := by rfl
  interruptible : ∀ i, (s'.op i).interruptible = (s.op i).interruptible := by exact fun _ => rfl
  error : ∀ i, (s.op i).error = none → (s'.op i).error = none := by exact fun _ h => h

theorem Calm.trans (h : Calm s s₁) (h' : Calm s₁ s') : Calm s s' where
  next := h'.next.trans h.next
  home := h'.home.trans h.home
  suspended := h'.suspended.trans h.suspended
  destroyed := h'.destroyed.trans h.destroyed
  interruptible i := (h'.interruptible i).trans (h.interruptible i)
  error i hi := h'.error i (h.error i hi)

theorem Calm.idle (h : Calm s s') (hid : s.Idle id) : s'.Idle id where
  lt_next := h.next ▸ hid.lt_next
  suspended := h.suspended ▸ hid.suspended
  destroyed := h.destroyed ▸ hid.destroyed
  error := h.error id hid.error

theorem calm_interfere (s : Remote) : Calm s s.interfere := by
  have hq := Quiet.interfere s
  exact ⟨hq.next, hq.home, hq.suspended, hq.destroyed, fun i => ((raises_interfere s).op i).1,
    fun i hi => (hq.error i).trans hi⟩

theorem calm_deliver (s : Remote) (id : ℕ) : Calm s (s.deliver id none) where
  interruptible i := ((raises_deliver s id none).op i).1
  error i hi := by
    change ((s.settle id none).op i).error = none
    rw [op_settle]
    split_ifs
    · rfl
    · exact hi

theorem calm_notify (s : Remote) (id l : ℕ) : Calm s (s.notify id l) where
  interruptible i := by
    rw [op_notify]
    split_ifs with h
    · rw [h.1]
    · rfl
  error i hi := (error_notify s id l i).trans hi

/-- `notify_all` delivers the waits of the queue. -/
theorem drain_calm {ids : List ℕ} (hids : ∀ i ∈ ids, (s.op i).interruptible = false) :
    Calm s (s.drain (fun _ => none) ids) ∧
      (s.drain (fun _ => none) ids).settled = s.settled ++ ids.map (·, none) := by
  induction ids generalizing s with
  | nil => exact ⟨{}, (append_nil _).symm⟩
  | cons id ids ih =>
    have hdead : s.dead id = (s, false) := by
      have hne : ¬ (s.op id).interruptible = true := by
        rw [hids id mem_cons_self]
        exact Bool.false_ne_true
      rw [dead, if_neg hne]
    have hcalm := calm_deliver s id
    obtain ⟨hrest, hsettled⟩ := ih (s := s.deliver id none) fun i hi =>
      (hcalm.interruptible i).trans (hids i (mem_cons_of_mem id hi))
    rw [drain, hdead]
    refine ⟨hcalm.trans hrest, hsettled.trans ?_⟩
    change (s.settled ++ [(id, none)]) ++ _ = _
    rw [append_assoc]
    rfl

/-- A wait in the list of a loop has been suspended. -/
theorem Wired.lt_of_mem_waits (hs : Wired s) {l : ℕ} (h : id ∈ (s.loop l).waits) : id < s.next := by
  obtain ⟨p, hp⟩ := hs.phase id
  have hwaiting : 0 < (s.tally id).waiting := count_pos_iff.mpr (hs.waits l id h ▸ h)
  refine hs.suspended id (count_pos_iff.mp ?_)
  change 0 < (s.tally id).suspended
  rw [hp] at hwaiting ⊢
  cases p with
  | idle | done => exact absurd hwaiting (Nat.lt_irrefl 0)
  | linked | sent => exact Nat.one_pos

/-- An owner thread that destroys no wait completes only those that have been delivered. -/
theorem ownerAct_calm (hs : Wired s) (hint : ∀ i < s.next, (s.op i).interruptible = false)
    {a : OwnerAct} (ha : ∀ id, a ≠ .destroy id) :
    Calm s (s.ownerAct a) ∧ (s.ownerAct a).settled = s.settled := by
  cases a with
  | send l n => exact ⟨{}, rfl⟩
  | scan id l =>
    have hscan : ¬ (id ∈ (s.loop l).waits ∧ (s.op id).interruptible = true ∧
        ((s.loop l).stopping = true ∨ (s.op id).canceled = true)) := fun h =>
      Bool.false_ne_true ((hint id (hs.lt_of_mem_waits h.1)).symm.trans h.2.1)
    rw [ownerAct, scan, if_neg hscan]
    exact ⟨{}, rfl⟩
  | detach l budget =>
    rw [ownerAct, detach]
    split_ifs
    · exact ⟨{}, rfl⟩
    · exact ⟨{}, rfl⟩
  | message l =>
    rw [ownerAct, message]
    split
    · exact ⟨{}, rfl⟩
    · have hdrop : Calm s (s.dropMessage l) := {}
      exact ⟨hdrop.trans (calm_notify _ _ l), rfl⟩
    · exact ⟨{}, rfl⟩
  | resume l =>
    rw [ownerAct, resume]
    split
    · exact ⟨{}, rfl⟩
    · exact ⟨{}, rfl⟩
  | destroy id => exact absurd rfl (ha id)

/-- A wait that was resumed has been delivered. -/
theorem Wired.exists_settled (hs : Wired s) (hid : id ∈ s.resumed) : ∃ p ∈ s.settled, p.1 = id := by
  obtain ⟨p, hp⟩ := hs.phase id
  have hcompleted : 0 < (s.tally id).completed :=
    count_pos_iff.mpr (mem_append_left _ hid)
  have hsettled : 0 < (s.tally id).settled := by
    rw [hp] at hcompleted ⊢
    cases p with
    | idle | linked | sent => exact absurd hcompleted (Nat.lt_irrefl 0)
    | done => exact Nat.one_pos
  exact mem_map.mp (count_pos_iff.mp hsettled)

/-- The wait of a `join` is enqueued whatever the flags are. -/
theorem enqueue_eq (h : (s.op id).interruptible = false) :
    s.enqueue id = ((s.enlist id).link id, true) := by
  have hne : ¬ (s.op id).interruptible = true := by
    rw [h]
    exact Bool.false_ne_true
  rw [enqueue, park, if_neg hne]

theorem op_enqueue (s : Remote) (id i : ℕ) : ((s.enlist id).link id).op i =
    if i = id then { s.op id with active := true, linked := true } else s.op i := by
  have henlist : ∀ j, (s.enlist id).op j = if j = id then { s.op id with active := true }
      else s.op j := Owner.op_enlist (s.part (s.owner id)) id
  rw [link, op_setOp]
  change (if i = id then { (s.enlist id).op id with linked := true } else (s.enlist id).op i) = _
  rw [henlist, henlist, if_pos rfl]
  split_ifs
  · rfl
  · rfl

end Snowy.Remote

namespace Snowy.Spawn

open Function List

variable {α ε : Type*}

/-! ### The invariant -/

/-- The number of steps of `publish` that are done. -/
def Producer.rank : Producer → ℕ
  | .absent => 0
  | .running => 1
  | .written => 2
  | .marked => 3
  | .stored => 4
  | .unlocked => 5
  | .finished => 6

/-- What a consumer obtains from the result of the child. -/
def Outcome.ofResult : Except ε α → Outcome α ε
  | .ok v => .returned (some v)
  | .error e => .threw e

/-- What is known of a state: its result is the one of the child, and is there before `done` is set;
nobody is asleep at the condition variable after it was notified; and a consumer ends with the
result of the child. -/
structure Cell.Sound (c : Cell α ε) : Prop where
  value_iff : ∀ v, c.value = some v ↔ c.result = some (.ok v)
  error_iff : ∀ e, c.error = some e ↔ c.result = some (.error e)
  written_iff : c.result ≠ none ↔ 2 ≤ c.producer.rank
  done_iff : c.done = true ↔ 3 ≤ c.producer.rank
  asleep : c.consumer = .asleep → c.producer.rank ≤ 4
  ended : ∀ o, c.consumer = .ended o → ∃ r, c.result = some r ∧ o = .ofResult r

/-- Where the awaiter of a consumer is. -/
def Awaits (s : Futex Bool) (q : ℕ) : Consumer α ε → Prop
  | .constructed id => s.Idle id ∧ s.home id = q ∧ id ∉ s.passed ∧ s.holder q ≠ some id
  | .checked id => s.Idle id ∧ s.home id = q ∧ id ∈ s.passed
  | .locked id => s.Idle id ∧ s.home id = q ∧ s.holder q = some id
  | .suspended id => id < s.next ∧ s.home id = q ∧ id ∈ s.suspended
  | .passed id => id < s.next ∧ s.home id = q ∧ s.value q = true
  | _ => True

/-- All waits expect `false`, take no notice of stops and have no error. -/
def Steady (s : Futex Bool) : Prop :=
  ∀ i < s.next, s.old i = false ∧ (s.op i).interruptible = false ∧ (s.op i).error = none

/-- The state `q` and its futex. A store to `complete` for which `notify_all` is still to come is
the one of a producer in front of it. -/
structure Task (s : Futex Bool) (published : List ℕ) (q : ℕ) (c : Cell α ε) : Prop where
  value_iff : s.value q = true ↔ 4 ≤ c.producer.rank
  stored : ∀ w ∈ s.stored q, w = q ∧ (c.producer.rank = 4 ∨ c.producer.rank = 5)
  published_iff : q ∈ published ↔ 4 ≤ c.producer.rank
  cell : c.Sound
  awaits : Awaits s q c.consumer

/-- The invariant. A wait is delivered only after `complete` is set. -/
structure Sound (s : State α ε) : Prop where
  watched : s.toFutex.Watched
  steady : Steady s.toFutex
  settled : ∀ p ∈ s.settled, p.1 < s.next ∧ s.value (s.home p.1) = true
  published : s.published.Nodup
  task : ∀ q, Task s.toFutex s.published q (s.cell q)

/-! ### Steps of the futex -/

variable {K : ℕ → Prop} {f f' : Futex Bool} {s : State α ε} {q : ℕ}

/-- A step of the futex that is not a store to the atomic. It leaves alone the places of the waits
in `K`. -/
structure Tends (K : ℕ → Prop) (f f' : Futex Bool) : Prop where
  watched : f'.Watched
  steady : Steady f'
  next : f.next ≤ f'.next
  home : ∀ i < f.next, f'.home i = f.home i
  idle : ∀ i, K i → f.Idle i → f'.Idle i
  passed : ∀ i < f.next, K i → (i ∈ f'.passed ↔ i ∈ f.passed)
  holder : ∀ q i, K i → (f'.holder q = some i ↔ f.holder q = some i)
  suspended : f.suspended ⊆ f'.suspended
  settled : ∀ p ∈ f'.settled, p ∈ f.settled ∨ p.1 < f.next ∧ f.value (f.home p.1) = true
  value : f'.value = f.value
  stored : ∀ q, f'.stored q ⊆ f.stored q

theorem Awaits.tends {k : Consumer α ε} (h : Awaits f q k) (ht : Tends K f f')
    (hk : ∀ id, k.wait = some id → K id) : Awaits f' q k := by
  cases k with
  | constructed id =>
    obtain ⟨hidle, hhome, hpassed, hholder⟩ := h
    have hid := hk id rfl
    have hlt := hidle.lt_next
    exact ⟨ht.idle id hid hidle, (ht.home id hlt).trans hhome, mt (ht.passed id hlt hid).mp hpassed,
      mt (ht.holder q id hid).mp hholder⟩
  | checked id =>
    obtain ⟨hidle, hhome, hpassed⟩ := h
    have hid := hk id rfl
    have hlt := hidle.lt_next
    exact ⟨ht.idle id hid hidle, (ht.home id hlt).trans hhome, (ht.passed id hlt hid).mpr hpassed⟩
  | locked id =>
    obtain ⟨hidle, hhome, hholder⟩ := h
    have hid := hk id rfl
    exact ⟨ht.idle id hid hidle, (ht.home id hidle.lt_next).trans hhome,
      (ht.holder q id hid).mpr hholder⟩
  | suspended id =>
    obtain ⟨hlt, hhome, hsuspended⟩ := h
    exact ⟨hlt.trans_le ht.next, (ht.home id hlt).trans hhome, ht.suspended hsuspended⟩
  | passed id =>
    obtain ⟨hlt, hhome, hvalue⟩ := h
    refine ⟨hlt.trans_le ht.next, (ht.home id hlt).trans hhome, ?_⟩
    rw [ht.value]
    exact hvalue
  | absent | held | testing | asleep | dropped | ended => trivial

/-- The awaiter of a consumer is a wait of its own futex. -/
theorem Awaits.home {k : Consumer α ε} {id : ℕ} (h : Awaits f q k) (hk : k.wait = some id) :
    f.home id = q := by
  cases k with
  | constructed i | checked i | locked i | suspended i | passed i =>
    exact Option.some.inj hk ▸ h.2.1
  | absent | held | testing | asleep | dropped | ended => cases hk

theorem tends_refl (hw : f.Watched) (hs : Steady f) : Tends K f f where
  watched := hw
  steady := hs
  next := Nat.le_refl _
  home _ _ := rfl
  idle _ _ := id
  passed _ _ _ := Iff.rfl
  holder _ _ _ := Iff.rfl
  suspended := List.Subset.refl _
  settled _ := .inl
  value := rfl
  stored _ := List.Subset.refl _

/-- Waits are delivered, and the rest of the futex does not change. -/
theorem tends_of_calm (hs : Steady f) (hw : f'.Watched) (hr : Remote.Calm f.toRemote f'.toRemote)
    (hold : f'.old = f.old) (hpassed : f'.passed = f.passed) (hholder : f'.holder = f.holder)
    (hvalue : f'.value = f.value) (hstored : ∀ q, f'.stored q ⊆ f.stored q)
    (hsettled : ∀ p ∈ f'.settled, p ∈ f.settled ∨ p.1 < f.next ∧ f.value (f.home p.1) = true) :
    Tends K f f' where
  watched := hw
  steady i hi := by
    obtain ⟨hold', hint, herror⟩ := hs i (hr.next ▸ hi)
    exact ⟨(congrFun hold i).trans hold', (hr.interruptible i).trans hint, hr.error i herror⟩
  next := hr.next.ge
  home i _ := congrFun hr.home i
  idle _ _ := hr.idle
  passed _ _ _ := by rw [hpassed]
  holder _ _ _ := by rw [hholder]
  suspended := hr.suspended.symm ▸ List.Subset.refl _
  settled := hsettled
  value := hvalue
  stored := hstored

theorem tends_interfere (hw : f.Watched) (hs : Steady f) (sched : List (List Remote.Async)) :
    Tends K f (f.interfere sched) := by
  have hsched : Remote.Calm f.toRemote { f.toRemote with sched } := {}
  refine tends_of_calm hs (hw.interfere sched) (hsched.trans (Remote.calm_interfere _)) rfl rfl rfl
    rfl (fun _ => List.Subset.refl _) fun p hp => ?_
  have hq := Remote.Quiet.interfere { f.toRemote with sched }
  exact .inl (hq.settled ▸ hp)

theorem tends_destroy (hs : Steady f) {id : ℕ} (hid : ¬ K id)
    (hw : (f.withRemote (f.toRemote.destroy id)).Watched) :
    Tends K f (f.withRemote (f.toRemote.destroy id)) := by
  rw [Remote.destroy] at hw ⊢
  split_ifs at hw ⊢
  · refine { tends_refl (K := K) hw hs with idle := fun i hi hidle => ?_ }
    refine ⟨hidle.lt_next, hidle.suspended, fun hmem => ?_, hidle.error⟩
    rcases mem_append.mp hmem with hmem | hmem
    · exact hidle.destroyed hmem
    · exact hid (mem_singleton.mp hmem ▸ hi)
  · exact tends_refl hw hs

/-- A step of an owner thread. -/
theorem tends_owner (hw : f.Watched) (hs : Steady f) {a : Remote.OwnerAct}
    (ha : ∀ id, a = .destroy id → ¬ K id) : Tends K f (f.act (.owner a)) := by
  have hact := hw.act (.owner a)
  rw [Futex.act] at hact ⊢
  split_ifs at hact ⊢ with hblocked
  · exact tends_refl hw hs
  · by_cases hdestroy : ∃ id, a = .destroy id
    · obtain ⟨id, rfl⟩ := hdestroy
      exact tends_destroy hs (ha id rfl) hact
    · obtain ⟨hcalm, hsettled⟩ := Remote.ownerAct_calm hw.wired (fun i hi => (hs i hi).2.1)
        fun id h => hdestroy ⟨id, h⟩
      exact tends_of_calm hs hact hcalm rfl rfl rfl rfl (fun _ => List.Subset.refl _)
        fun p hp => .inl (hsettled ▸ hp)

/-- `notify_all` after the store to `complete`. -/
theorem tends_notifyAll (hw : f.Watched) (hs : Steady f) (hfree : f.holder q = none)
    (hvalue : f.value q = true) : Tends K f (f.notifyAll q q) := by
  have hact := hw.notifyAll q q
  have hsteady : ∀ i ∈ f.queue q, (f.op i).interruptible = false := fun i hi =>
    (hs i (hw.wired.lt_of_mem hi)).2.1
  obtain ⟨hcalm, hsettled⟩ := Remote.drain_calm hsteady
  rw [Futex.notifyAll, if_pos hfree] at hact ⊢
  refine tends_of_calm hs hact hcalm rfl rfl rfl rfl (fun q' => ?_) fun p hp => ?_
  · change update f.stored q ((f.stored q).filter (· ≠ q)) q' ⊆ f.stored q'
    rw [update_apply]
    split_ifs with h
    · rw [h]
      exact filter_subset_self _
    · exact List.Subset.refl _
  · have hp' : p ∈ f.settled ++ (f.queue q).map (·, none) := hsettled ▸ hp
    rcases mem_append.mp hp' with hp' | hp'
    · exact .inl hp'
    · obtain ⟨i, hi, rfl⟩ := mem_map.mp hp'
      refine .inr ⟨hw.wired.lt_of_mem hi, ?_⟩
      rw [hw.wired.queue q i hi]
      exact hvalue

/-- An awaiter is constructed. -/
theorem tends_construct (hw : f.Watched) (hs : Steady f) (l : ℕ) (hfree : f.holder q = none) :
    Tends K f (f.construct q l false none false) ∧
      (f.construct q l false none false).Idle f.next ∧
      (f.construct q l false none false).home f.next = q := by
  have hact := hw.construct q l false none false
  rw [Futex.construct, if_pos hfree] at hact ⊢
  have hop : ∀ i, (f.make l q { interruptible := false, interrupt := true }).op i =
      if i = f.next then { interruptible := false, interrupt := true } else f.op i :=
    Remote.op_make f.toRemote l q _
  have hhome : ∀ i, (f.make l q { interruptible := false, interrupt := true }).home i =
      if i = f.next then q else f.home i := Remote.home_make f.toRemote l q _
  refine ⟨⟨hact, fun i hi => ?_, Nat.le_succ _, fun i hi => ?_, fun i _ hidle => ?_,
    fun _ _ _ => Iff.rfl, fun _ _ _ => Iff.rfl, List.Subset.refl _, fun _ => .inl, rfl,
    fun _ => List.Subset.refl _⟩, ?_, ?_⟩
  · by_cases hnew : i = f.next
    · have hself := (hop i).trans (if_pos hnew)
      exact ⟨hnew ▸ update_self .., congrArg Op.interruptible hself,
        congrArg Op.error hself⟩
    · have hother := (hop i).trans (if_neg hnew)
      obtain ⟨hold, hint, herror⟩ := hs i (Nat.lt_of_le_of_ne (Nat.lt_succ_iff.mp hi) hnew)
      exact ⟨(update_of_ne hnew ..).trans hold,
        (congrArg Op.interruptible hother).trans hint, (congrArg Op.error hother).trans herror⟩
  · exact (hhome i).trans (if_neg hi.ne)
  · refine ⟨Nat.lt_succ_of_lt hidle.lt_next, hidle.suspended, hidle.destroyed, ?_⟩
    exact (congrArg Op.error ((hop i).trans (if_neg hidle.lt_next.ne))).trans hidle.error
  · refine ⟨Nat.lt_succ_self _, fun hmem => ?_, fun hmem => ?_, ?_⟩
    · exact Nat.lt_irrefl _ (hw.wired.suspended f.next hmem)
    · exact Nat.lt_irrefl _ (hw.wired.destroyed f.next hmem).1
    · exact congrArg Op.error ((hop f.next).trans (if_pos rfl))
  · exact (hhome f.next).trans (if_pos rfl)

/-- The awaiter `id` passes the check of `await_suspend`. -/
theorem tends_check (hw : f.Watched) (hs : Steady f) {id : ℕ} (hidle : f.Idle id)
    (hpassed : id ∉ f.passed) (hholder : f.holder (f.home id) ≠ some id) :
    f.check id = f.pass id ∧ Tends (· ≠ id) f (f.pass id) := by
  have hint : ¬ (f.op id).interruptible = true := by
    rw [(hs id hidle.lt_next).2.1]
    exact Bool.false_ne_true
  have hcheck : f.check id = f.pass id := by
    rw [Futex.check, if_pos ⟨hidle, hpassed, hholder⟩, if_neg hint]
  refine ⟨hcheck, { tends_refl (hw.pass hidle.lt_next) hs with passed := fun i _ hi => ?_ }⟩
  change i ∈ f.passed ++ [id] ↔ i ∈ f.passed
  rw [mem_append, mem_singleton, or_iff_left hi]

/-- The awaiter `id` locks the mutex and loads `complete`. -/
theorem tends_load (hw : f.Watched) (hs : Steady f) {id : ℕ} (hpassed : id ∈ f.passed)
    (hfree : f.holder (f.home id) = none) : Tends (· ≠ id) f (f.load id) := by
  have hact := hw.load id
  rw [Futex.load, if_pos ⟨hpassed, hfree⟩] at hact ⊢
  refine { tends_refl (K := (· ≠ id)) hact hs with
    passed := fun i _ hi => ?_
    holder := fun q i hi => ?_ }
  · exact mem_erase_of_ne hi
  · change (if f.value (f.home id) = f.old id then update f.holder (f.home id) (some id)
      else f.holder) q = some i ↔ _
    split_ifs
    · rw [update_apply]
      split_ifs with hq
      · rw [hq, hfree]
        exact iff_of_false (fun h => hi (Option.some.inj h).symm) nofun
      · exact Iff.rfl
    · exact Iff.rfl

/-- The awaiter `id` is enqueued and unlocks the mutex. -/
theorem tends_commit (hw : f.Watched) (hs : Steady f) {id : ℕ} (hidle : f.Idle id)
    (hholder : f.holder (f.home id) = some id) :
    Tends (· ≠ id) f (f.commit id) ∧ (f.toRemote.enqueue id).2 = true ∧
      id ∈ (f.commit id).suspended := by
  have hact := hw.commit id
  have henqueue := Remote.enqueue_eq (hs id hidle.lt_next).2.1
  have hop := Remote.op_enqueue f.toRemote id
  rw [Futex.commit, if_pos hholder, if_pos hidle, henqueue] at hact ⊢
  refine ⟨⟨hact, fun i hi => ?_, Nat.le_refl _, fun _ _ => rfl, fun i hi hold => ?_,
    fun _ _ _ => Iff.rfl, fun q i hi => ?_, subset_append_left _ _, fun _ => .inl, rfl,
    fun _ => List.Subset.refl _⟩, rfl, mem_append_right _ (mem_singleton_self id)⟩
  · obtain ⟨hold, hint, herror⟩ := hs i hi
    refine ⟨hold, ?_⟩
    change (((f.enlist id).link id).op i).interruptible = false ∧
      (((f.enlist id).link id).op i).error = none
    rw [hop]
    split_ifs with h
    · rw [← h]
      exact ⟨hint, herror⟩
    · exact ⟨hint, herror⟩
  · refine ⟨hold.lt_next, fun hmem => ?_, hold.destroyed, ?_⟩
    · rcases mem_append.mp hmem with hmem | hmem
      · exact hold.suspended hmem
      · exact hi (mem_singleton.mp hmem)
    · exact (congrArg Op.error ((hop i).trans (if_neg hi))).trans hold.error
  · change update f.holder (f.home id) none q = some i ↔ _
    rw [update_apply]
    split_ifs with hq
    · rw [hq, hholder]
      exact iff_of_false nofun fun h => hi (Option.some.inj h).symm
    · exact Iff.rfl

/-! ### Steps of the tasks -/

theorem Cell.Sound.goto {c : Cell α ε} (h : c.Sound) {k : Consumer α ε} (hasleep : k ≠ .asleep)
    (hended : ∀ o, k ≠ .ended o) : (c.goto k).Sound :=
  ⟨h.value_iff, h.error_iff, h.written_iff, h.done_iff, fun hk => absurd hk hasleep,
    fun o ho => absurd ho (hended o)⟩

theorem Sound.cell (h : Sound s) (q : ℕ) : (s.cell q).Sound := (h.task q).cell

theorem Sound.stored (h : Sound s) (q : ℕ) : ∀ w ∈ s.stored q,
    w = q ∧ ((s.cell q).producer.rank = 4 ∨ (s.cell q).producer.rank = 5) :=
  (h.task q).stored

theorem Sound.awaits (h : Sound s) {k : Consumer α ε} (hk : (s.cell q).consumer = k) :
    Awaits s.toFutex q k :=
  hk ▸ (h.task q).awaits

/-- One state changes, and the others are as they were. -/
theorem Sound.move (h : Sound s) {s' : State α ε} {c : Cell α ε}
    (hcell : s'.cell = update s.cell q c) (hwatched : s'.toFutex.Watched)
    (hsteady : Steady s'.toFutex)
    (hsettled : ∀ p ∈ s'.settled, p.1 < s'.next ∧ s'.value (s'.home p.1) = true)
    (hpublished : s'.published.Nodup)
    (hother : ∀ q', q' ≠ q → Task s.toFutex s.published q' (s.cell q') →
      Task s'.toFutex s'.published q' (s.cell q'))
    (hself : Task s'.toFutex s'.published q c) : Sound s' := by
  refine ⟨hwatched, hsteady, hsettled, hpublished, fun q' => ?_⟩
  by_cases hq : q' = q
  · rw [hcell, hq, update_self]
    exact hself
  · rw [hcell, update_of_ne hq]
    exact hother q' hq (h.task q')

/-- A step of the futex together with a step of one task. -/
theorem Sound.advance (h : Sound s) (ht : Tends K s.toFutex f)
    (hK : ∀ q', q' ≠ q → ∀ id, (s.cell q').consumer.wait = some id → K id)
    {g : Cell α ε → Cell α ε} (hcell : (g (s.cell q)).Sound)
    (hrank : 4 ≤ (g (s.cell q)).producer.rank ↔ 4 ≤ (s.cell q).producer.rank)
    (hstored : ∀ w ∈ f.stored q,
      w = q ∧ ((g (s.cell q)).producer.rank = 4 ∨ (g (s.cell q)).producer.rank = 5))
    (hawaits : Awaits f q (g (s.cell q)).consumer) : Sound ((s.withFutex f).modify q g) := by
  have hvalue : ∀ q', f.value q' = s.value q' := congrFun ht.value
  refine h.move rfl ht.watched ht.steady (fun p hp => ?_) h.published (fun q' hq hold => ?_) ?_
  · change p.1 < f.next ∧ f.value (f.home p.1) = true
    obtain ⟨hlt, hset⟩ : p.1 < s.next ∧ s.value (s.home p.1) = true :=
      (ht.settled p hp).elim (h.settled p) id
    rw [hvalue, ht.home p.1 hlt]
    exact ⟨hlt.trans_le ht.next, hset⟩
  · exact ⟨hvalue q' ▸ hold.value_iff, fun w hw => hold.stored w (ht.stored q' hw),
      hold.published_iff, hold.cell, hold.awaits.tends ht (hK q' hq)⟩
  · exact ⟨hvalue q ▸ (h.task q).value_iff.trans hrank.symm, hstored,
      (h.task q).published_iff.trans hrank.symm, hcell, hawaits⟩

/-- A step of one task. -/
theorem Sound.modify (h : Sound s) {g : Cell α ε → Cell α ε} (hcell : (g (s.cell q)).Sound)
    (hrank : 4 ≤ (g (s.cell q)).producer.rank ↔ 4 ≤ (s.cell q).producer.rank)
    (hstored : ∀ w ∈ s.stored q,
      w = q ∧ ((g (s.cell q)).producer.rank = 4 ∨ (g (s.cell q)).producer.rank = 5))
    (hawaits : Awaits s.toFutex q (g (s.cell q)).consumer) : Sound (s.modify q g) :=
  h.advance (f := s.toFutex) (K := fun _ => True) (tends_refl h.watched h.steady)
    (fun _ _ _ _ => trivial) hcell hrank hstored hawaits

/-- A step of the futex. -/
theorem Sound.withFutex (h : Sound s) (ht : Tends K s.toFutex f)
    (hK : ∀ q id, (s.cell q).consumer.wait = some id → K id) : Sound (s.withFutex f) := by
  have hsound := h.advance (q := 0) (g := id) ht (fun q' _ => hK q') (h.cell 0) Iff.rfl
    (fun w hw => h.stored 0 w (ht.stored 0 hw)) ((h.awaits rfl).tends ht (hK 0))
  have heq : (s.withFutex f).modify 0 id = s.withFutex f := by
    rw [State.modify]
    change ({ s.withFutex f with cell := update s.cell 0 (s.cell 0) } : State α ε) = _
    rw [update_eq_self]
    rfl
  rw [heq] at hsound
  exact hsound

/-! ### The producer keeps the invariant -/

theorem Cell.Sound.of {c : Cell α ε} {p : Producer} (hp : c.producer = p)
    (hvalue : ∀ v, c.value = some v ↔ c.result = some (.ok v))
    (herror : ∀ e, c.error = some e ↔ c.result = some (.error e))
    (hwritten : c.result ≠ none ↔ 2 ≤ p.rank) (hdone : c.done = true ↔ 3 ≤ p.rank)
    (hasleep : c.consumer = .asleep → p.rank ≤ 4)
    (hended : ∀ o, c.consumer = .ended o → ∃ r, c.result = some r ∧ o = .ofResult r) : c.Sound := by
  subst hp
  exact ⟨hvalue, herror, hwritten, hdone, hasleep, hended⟩

/-- The producer goes on from `p` to `p'` and writes neither the result nor `done`. -/
theorem Cell.Sound.advance {c : Cell α ε} (h : c.Sound) {p : Producer} (p' : Producer)
    (hp : c.producer = p) (hwritten : 2 ≤ p.rank ↔ 2 ≤ p'.rank) (hdone : 3 ≤ p.rank ↔ 3 ≤ p'.rank)
    (hasleep : c.consumer = .asleep → p'.rank ≤ 4) : (c.advance p').Sound := by
  subst hp
  exact ⟨h.value_iff, h.error_iff, h.written_iff.trans hwritten, h.done_iff.trans hdone, hasleep,
    h.ended⟩

/-- The producer goes on from `p` to `p'`, and neither is at the store to `complete`. -/
theorem Sound.produce (h : Sound s) {g : Cell α ε → Cell α ε} {p : Producer} (p' : Producer)
    (hp : (s.cell q).producer = p) (hp' : (g (s.cell q)).producer = p')
    (hrank : 4 ≤ p'.rank ↔ 4 ≤ p.rank)
    (hstored : p.rank = 4 ∨ p.rank = 5 → p'.rank = 4 ∨ p'.rank = 5) (hcell : (g (s.cell q)).Sound)
    (hawaits : Awaits s.toFutex q (g (s.cell q)).consumer) : Sound (s.modify q g) := by
  subst hp hp'
  exact h.modify hcell hrank (fun w hw => (h.stored q w hw).imp_right hstored) hawaits

theorem Sound.spawn (h : Sound s) (q : ℕ) : Sound (s.spawn q) := by
  rw [State.spawn]
  split
  · rename_i hp
    have hheld : ((s.cell q).goto .held).Sound := (h.cell q).goto nofun nofun
    exact h.produce .running hp rfl (by decide) (by decide)
      (hheld.advance .running hp (by decide) (by decide) nofun) trivial
  · exact h

theorem Cell.Sound.write {c : Cell α ε} (h : c.Sound) (hp : c.producer = .running)
    (r : Except ε α) : (c.write r).Sound := by
  have hwritten := h.written_iff
  have hdone := h.done_iff
  rw [hp] at hwritten hdone
  have hnone : c.result = none := not_not.mp (mt hwritten.mp (by decide))
  have hvalue : ∀ v, c.value ≠ some v := fun v hv => by
    cases hnone.symm.trans ((h.value_iff v).mp hv)
  have herror : ∀ e, c.error ≠ some e := fun e he => by
    cases hnone.symm.trans ((h.error_iff e).mp he)
  have hended : ∀ o, c.consumer ≠ .ended o := fun o ho => by
    obtain ⟨r, hr, -⟩ := h.ended o ho
    cases hnone.symm.trans hr
  cases r with
  | ok v =>
    refine .of (p := .written) rfl (fun v' => ?_) (fun e => iff_of_false (herror e) nofun)
      (iff_of_true nofun (by decide)) (hdone.trans (by decide)) (fun _ => by decide)
      fun o ho => absurd ho (hended o)
    exact ⟨fun hv => congrArg _ (congrArg _ (Option.some.inj hv)),
      fun hv => congrArg _ (Except.ok.inj (Option.some.inj hv))⟩
  | error e =>
    refine .of (p := .written) rfl (fun v => iff_of_false (hvalue v) nofun) (fun e' => ?_)
      (iff_of_true nofun (by decide)) (hdone.trans (by decide)) (fun _ => by decide)
      fun o ho => absurd ho (hended o)
    exact ⟨fun hv => congrArg _ (congrArg _ (Option.some.inj hv)),
      fun hv => congrArg _ (Except.error.inj (Option.some.inj hv))⟩

theorem Sound.write (h : Sound s) (q : ℕ) (r : Except ε α) : Sound (s.write q r) := by
  rw [State.write]
  split
  · rename_i hp
    have hproducer : ((s.cell q).write r).producer = .written := by cases r <;> rfl
    have hconsumer : ((s.cell q).write r).consumer = (s.cell q).consumer := by cases r <;> rfl
    exact h.produce .written hp hproducer (by decide) (by decide) ((h.cell q).write hp r)
      (hconsumer ▸ h.awaits rfl)
  · exact h

theorem Sound.mark (h : Sound s) (q : ℕ) : Sound (s.mark q) := by
  rw [State.mark]
  split
  · rename_i hp
    have hc := h.cell q
    have hwritten := hc.written_iff
    rw [hp] at hwritten
    exact h.produce .marked hp rfl (by decide) (by decide)
      (.of (p := .marked) rfl hc.value_iff hc.error_iff (hwritten.trans (by decide))
        (iff_of_true rfl (by decide)) (fun _ => by decide) hc.ended) (h.awaits rfl)
  · exact h

theorem Cell.unlock_cases (c : Cell α ε) :
    c.consumer = .asleep ∧ c.unlock = (c.goto .testing).advance .unlocked ∨
      c.consumer ≠ .asleep ∧ c.unlock = c.advance .unlocked := by
  rw [Cell.unlock]
  split
  · rename_i hk
    exact .inl ⟨hk, rfl⟩
  · rename_i hk
    exact .inr ⟨hk, rfl⟩

/-- `ready.notify_one()` leaves nobody asleep. -/
theorem Sound.unlock (h : Sound s) (q : ℕ) : Sound (s.unlock q) := by
  rw [State.unlock]
  split
  · rename_i hp
    have hc := h.cell q
    rcases (s.cell q).unlock_cases with ⟨-, hunlock⟩ | ⟨hk, hunlock⟩
    · have htesting : ((s.cell q).goto .testing).Sound := hc.goto nofun nofun
      exact h.produce .unlocked hp (by rw [hunlock, Cell.advance]) (by decide) (by decide)
        (hunlock ▸ htesting.advance .unlocked hp (by decide) (by decide) nofun)
        (by rw [hunlock]; trivial)
    · exact h.produce .unlocked hp (by rw [hunlock, Cell.advance]) (by decide) (by decide)
        (hunlock ▸ hc.advance .unlocked hp (by decide) (by decide) fun h => absurd h hk)
        (by rw [hunlock]; exact h.awaits rfl)
  · exact h

/-- After `notify_all` no store is pending. -/
theorem Sound.notifyAll (h : Sound s) (q : ℕ) : Sound (s.notifyAll q) := by
  rw [State.notifyAll]
  split
  · rename_i hp
    split_ifs with hfree
    · have hc := h.cell q
      have hvalue := (h.task q).value_iff
      rw [hp] at hvalue
      have ht : Tends (fun _ => True) s.toFutex (s.toFutex.notifyAll q q) :=
        tends_notifyAll h.watched h.steady hfree (hvalue.mpr (by decide))
      have hasleep : (s.cell q).consumer ≠ .asleep := fun hk => by
        have hle := hc.asleep hk
        rw [hp] at hle
        exact absurd hle (by decide)
      refine h.advance ht (fun _ _ _ _ => trivial) ?_ ?_ (fun w hw => ?_)
        ((h.awaits rfl).tends ht fun _ _ => trivial)
      · exact hc.advance .finished hp (by decide) (by decide) fun hk => absurd hk hasleep
      · rw [hp]
        exact iff_of_true (by show 4 ≤ 6; decide) (by decide)
      · rw [Futex.notifyAll, if_pos hfree] at hw
        change w ∈ update s.stored q ((s.stored q).filter (· ≠ q)) q at hw
        rw [update_self, mem_filter] at hw
        exact absurd (h.stored q w hw.1).1 (of_decide_eq_true hw.2)
    · exact h
  · exact h

/-- What the store to `complete` does. -/
theorem Sound.of_store (h : Sound s) {s' : State α ε} (hp : (s.cell q).producer = .marked)
    (hfutex : s'.toFutex = s.toFutex.store q q true)
    (hcell : s'.cell = update s.cell q ((s.cell q).advance .stored))
    (hpublished : s'.published = s.published ++ [q]) : Sound s' := by
  have hold := (h.task q).published_iff
  rw [hp] at hold
  have hnew : q ∉ s.published := mt hold.mp (by decide)
  have hmono : ∀ q', s.value q' = true → s'.value q' = true := fun q' hq' => by
    rw [hfutex]
    change update s.value q true q' = true
    rw [update_apply, hq', ite_self]
  -- the waits are where they were, and no state is less complete than before
  have hkeep : ∀ q', ∀ k : Consumer α ε, Awaits s.toFutex q' k → Awaits s'.toFutex q' k := by
    intro q' k hk
    have hset := hmono q'
    rw [hfutex] at hset ⊢
    cases k with
    | passed id => exact ⟨hk.1, hk.2.1, hset hk.2.2⟩
    | absent | held | constructed | checked | locked | suspended | testing | asleep | dropped
    | ended => exact hk
  refine h.move hcell (hfutex ▸ h.watched.store q q true) (hfutex ▸ h.steady) (fun p hp => ?_) ?_
    (fun q' hq hold => ⟨?_, fun w hw => hold.stored w ?_, ?_, hold.cell, hkeep q' _ hold.awaits⟩)
    ⟨?_, fun w hw => ⟨?_, .inl rfl⟩, ?_, ?_, hkeep q _ (h.awaits rfl)⟩
  · rw [hfutex] at hp
    obtain ⟨hlt, hset⟩ := h.settled p hp
    have hset' := hmono _ hset
    rw [hfutex] at hset' ⊢
    exact ⟨hlt, hset'⟩
  · rw [hpublished]
    exact h.published.append (nodup_singleton q) (disjoint_singleton.mpr hnew)
  · rw [hfutex]
    change update s.value q true q' = true ↔ _
    rw [update_of_ne hq]
    exact hold.value_iff
  · rw [hfutex] at hw
    change w ∈ update s.stored q (q :: s.stored q) q' at hw
    rwa [update_of_ne hq] at hw
  · rw [hpublished, mem_append, mem_singleton, or_iff_left hq]
    exact hold.published_iff
  · rw [hfutex]
    exact iff_of_true (update_self ..) (Nat.le_refl 4)
  · rw [hfutex] at hw
    change w ∈ update s.stored q (q :: s.stored q) q at hw
    rw [update_self] at hw
    exact (mem_cons.mp hw).elim id fun hw => (h.stored q w hw).1
  · rw [hpublished]
    exact iff_of_true (mem_append_right _ mem_cons_self) (Nat.le_refl 4)
  · exact (h.cell q).advance .stored hp (by decide) (by decide) fun _ => by decide

theorem Sound.store (h : Sound s) (q : ℕ) : Sound (s.store q) := by
  rw [State.store]
  split
  · rename_i hp
    exact h.of_store hp rfl rfl rfl
  · exact h

/-! ### The consumer keeps the invariant -/

/-- The owner of a handle goes on to a place where it waits for nothing and takes nothing. -/
theorem Sound.goto (h : Sound s) {k : Consumer α ε} (hasleep : k ≠ .asleep)
    (hended : ∀ o, k ≠ .ended o) (hawaits : Awaits s.toFutex q k) : Sound (s.modify q (·.goto k)) :=
  h.modify ((h.cell q).goto hasleep hended) Iff.rfl (h.stored q) hawaits

/-- What a consumer takes after the result is written. -/
theorem Cell.Sound.take_eq {c : Cell α ε} (h : c.Sound) (hp : 2 ≤ c.producer.rank) :
    ∃ r, c.result = some r ∧ c.take = .ofResult r := by
  obtain ⟨r, hr⟩ := Option.ne_none_iff_exists'.mp (h.written_iff.mpr hp)
  refine ⟨r, hr, ?_⟩
  rw [Cell.take]
  cases r with
  | ok v =>
    have herror : c.error = none := Option.eq_none_iff_forall_ne_some.mpr fun e he => by
      cases hr.symm.trans ((h.error_iff e).mp he)
    rw [herror, (h.value_iff v).mpr hr]
    rfl
  | error e =>
    rw [(h.error_iff e).mpr hr]
    rfl

section

variable (h : Sound s)
include h

/-- A consumer takes the result. -/
theorem Sound.take {o : Outcome α ε} (ho : o = (s.cell q).take)
    (hp : 2 ≤ (s.cell q).producer.rank) : Sound (s.modify q (·.goto (.ended o))) := by
  have hc := h.cell q
  refine h.modify ⟨hc.value_iff, hc.error_iff, hc.written_iff, hc.done_iff, nofun, fun o' ho' => ?_⟩
    Iff.rfl (h.stored q) trivial
  cases ho'
  rw [ho]
  exact hc.take_eq hp

theorem Sound.release {k : Consumer α ε} {s' : State α ε} (hasleep : k ≠ .asleep)
    (hended : ∀ o, k ≠ .ended o) (hawaits : Awaits s.toFutex q k)
    (hs' : s.release q k = .ok s') : Sound s' := by
  rw [State.release] at hs'
  split at hs'
  · cases hs'
    exact h.goto hasleep hended hawaits
  · cases hs'

theorem Sound.join (hfree : s.holder q = none) {l : ℕ} {s' : State α ε}
    (hs' : s.join q l = .ok s') : Sound s' := by
  obtain ⟨ht, hidle, hhome⟩ := tends_construct (K := fun _ => True) h.watched h.steady l hfree
  have hawaits : Awaits (s.toFutex.construct q l false none false) q
      (.constructed s.next : Consumer α ε) := ⟨hidle, hhome, ?_, ?_⟩
  · exact (h.withFutex ht fun _ _ _ => trivial).release (q := q) (k := .constructed s.next)
      nofun nofun hawaits hs'
  · -- the awaiter is a new one
    rw [Futex.construct, if_pos hfree]
    exact fun hmem => Nat.lt_irrefl _ (h.watched.passed s.next hmem)
  · rw [Futex.construct, if_pos hfree]
    exact fun hmem => Nat.lt_irrefl _ (h.watched.holder q s.next hmem)

theorem Sound.call {r : Except String (State α ε)}
    (hr : ∀ s', r = .ok s' → Sound s') : Sound (s.call r) := by
  cases r with
  | ok s' => exact hr s' rfl
  | error e => exact h

/-- The awaiters of other consumers are other waits. -/
theorem Sound.ne_of_wait {id : ℕ} (hhome : s.home id = q) (q' : ℕ) (hq' : q' ≠ q)
    (i : ℕ) (hi : (s.cell q').consumer.wait = some i) : i ≠ id := by
  rintro rfl
  exact hq' (((h.awaits rfl).home hi).symm.trans hhome)

/-- The awaiter `id` of the consumer goes on. -/
theorem Sound.wait {id : ℕ} (ht : Tends (· ≠ id) s.toFutex f) (hhome : s.home id = q)
    {k : Consumer α ε} (hasleep : k ≠ .asleep) (hended : ∀ o, k ≠ .ended o)
    (hawaits : Awaits f q k) : Sound ((s.withFutex f).modify q (·.goto k)) :=
  h.advance ht (h.ne_of_wait hhome) ((h.cell q).goto hasleep hended) Iff.rfl
    (fun w hw => h.stored q w (ht.stored q hw)) hawaits

theorem Sound.check (q : ℕ) : Sound (s.check q) := by
  rw [State.check]
  split
  · rename_i id hk
    obtain ⟨hidle, hhome, hpassed, hholder⟩ := h.awaits hk
    obtain ⟨hcheck, ht⟩ := tends_check h.watched h.steady hidle hpassed (hhome ▸ hholder)
    have hmem : id ∈ (s.toFutex.pass id).passed :=
      mem_append_right _ (mem_singleton_self id)
    rw [hcheck, if_pos hmem]
    exact h.wait ht hhome nofun nofun ⟨hidle, hhome, hmem⟩
  · exact h

theorem Sound.load (q : ℕ) : Sound (s.load q) := by
  rw [State.load]
  split
  · rename_i id hk
    obtain ⟨hidle, hhome, hpassed⟩ := h.awaits hk
    have hlt := hidle.lt_next
    split_ifs with hfree hvalue
    · refine h.wait (tends_load h.watched h.steady hpassed (hhome.symm ▸ hfree)) hhome nofun
        nofun ?_
      rw [Futex.load, if_pos ⟨hpassed, hhome.symm ▸ hfree⟩, if_pos (hhome.symm ▸ hvalue)]
      exact ⟨hidle, hhome, hhome ▸ update_self ..⟩
    · have ht := tends_load h.watched h.steady hpassed (hhome.symm ▸ hfree)
      refine h.wait ht hhome nofun nofun
        ⟨hlt.trans_le ht.next, (ht.home id hlt).trans hhome, ?_⟩
      -- the wait expects that the value is false
      rw [(h.steady id hlt).1] at hvalue
      rw [ht.value]
      exact Bool.eq_true_of_not_eq_false hvalue
    · exact h
  · exact h

theorem Sound.commit (q : ℕ) : Sound (s.commit q) := by
  rw [State.commit]
  split
  · rename_i id hk
    obtain ⟨hidle, hhome, hholder⟩ := h.awaits hk
    obtain ⟨ht, henqueue, hsuspended⟩ :=
      tends_commit h.watched h.steady hidle (hhome.symm ▸ hholder)
    rw [if_pos henqueue]
    exact h.wait ht hhome nofun nofun
      ⟨hidle.lt_next.trans_le ht.next, (ht.home id hidle.lt_next).trans hhome, hsuspended⟩
  · exact h

end

/-- The consumer reads the result in its next step: `await_resume` is next, or `get()` has the mutex
and finds that `done` is set. -/
def Reads (s : State α ε) (q : ℕ) : Prop :=
  match (s.cell q).consumer with
  | .passed _ => True
  | .suspended id => id ∈ s.resumed
  | .testing => (s.cell q).isLocked = false ∧ (s.cell q).done = true
  | _ => False

section

variable (h : Sound s)
include h

/-- A consumer reads the result when it has been published. -/
theorem Sound.complete_of_reads (hreads : Reads s q) : 4 ≤ (s.cell q).producer.rank := by
  rw [Reads] at hreads
  split at hreads
  · rename_i id hk
    exact (h.task q).value_iff.mp (h.awaits hk).2.2
  · rename_i id hk
    obtain ⟨p, hp, rfl⟩ := h.watched.wired.exists_settled hreads
    have hvalue := (h.settled p hp).2
    rw [(h.awaits hk).2.1] at hvalue
    exact (h.task q).value_iff.mp hvalue
  · obtain ⟨hlocked, hdone⟩ := hreads
    have hrank := (h.cell q).done_iff.mp hdone
    rw [Cell.isLocked] at hlocked
    cases hp : (s.cell q).producer with
    | absent | running | written =>
      rw [hp] at hrank
      exact absurd hrank (by decide)
    | marked =>
      rw [hp] at hlocked
      exact absurd hlocked (by decide)
    | stored | unlocked | finished => decide
  · exact hreads.elim

/-- `await_resume` throws no error of the wait. -/
theorem Sound.outcome_eq {id : ℕ} (hid : id < s.next) : s.outcome q id = (s.cell q).take := by
  rw [State.outcome, (h.steady id hid).2.2]

/-- `await_resume` takes the result. -/
theorem Sound.resume {id : ℕ} (hid : id < s.next) (hreads : Reads s q) :
    Sound (s.modify q (·.goto (.ended (s.outcome q id)))) :=
  h.take (h.outcome_eq hid) (le_trans (by decide) (h.complete_of_reads hreads))

theorem Sound.finish (q : ℕ) : Sound (s.finish q) := by
  rw [State.finish]
  split
  · rename_i id hk
    exact h.resume (h.awaits hk).1 (by rw [Reads, hk]; trivial)
  · rename_i id hk
    split_ifs with hresumed
    · exact h.resume (h.awaits hk).1 (by rw [Reads, hk]; exact hresumed)
    · exact h
  · exact h

theorem Sound.test (q : ℕ) : Sound (s.test q) := by
  rw [State.test]
  split
  · rename_i hk
    split_ifs with hlocked
    · exact h
    · by_cases hdone : (s.cell q).done = true
      · have hreads : Reads s q := by
          rw [Reads, hk]
          exact ⟨Bool.eq_false_iff.mpr hlocked, hdone⟩
        have htake := h.take (q := q) rfl (le_trans (by decide) (h.complete_of_reads hreads))
        have htest : (s.cell q).test = (s.cell q).goto (.ended (s.cell q).take) := if_pos hdone
        rw [State.modify, htest]
        exact htake
      · have hc := h.cell q
        have htest : (s.cell q).test = (s.cell q).goto .asleep := if_neg hdone
        have hrank : ¬ 3 ≤ (s.cell q).producer.rank := mt hc.done_iff.mpr hdone
        rw [State.modify, htest]
        exact h.modify (g := (·.goto .asleep)) ⟨hc.value_iff, hc.error_iff, hc.written_iff,
          hc.done_iff, fun _ => by change (s.cell q).producer.rank ≤ 4; omega, nofun⟩ Iff.rfl
          (h.stored q) trivial
  · exact h

theorem Sound.wake (q : ℕ) : Sound (s.wake q) := by
  rw [State.wake]
  split
  · exact h.goto nofun nofun trivial
  · exact h

theorem Sound.drop (q : ℕ) : Sound (s.drop q) := by
  rw [State.drop]
  split
  · exact h.goto nofun nofun trivial
  · exact h.goto nofun nofun trivial
  · exact h

/-! ### All runs -/

theorem Sound.act (a : Act α ε) : Sound (s.act a) := by
  cases a with
  | spawn q => exact h.spawn q
  | write q r => exact h.write q r
  | mark q => exact h.mark q
  | store q => exact h.store q
  | unlock q => exact h.unlock q
  | notifyAll q => exact h.notifyAll q
  | join q l =>
    rw [State.act]
    split_ifs with hfree
    · exact h.call fun s' hs' => h.join hfree hs'
    · exact h
  | coAwait q current =>
    rw [State.act]
    split_ifs with hfree
    · cases current with
      | none => exact h
      | some l => exact h.call fun s' hs' => h.join hfree hs'
    · exact h
  | get q current =>
    cases current with
    | none => exact h.call fun s' hs' => h.release (k := .testing) nofun nofun trivial hs'
    | some l => exact h
  | check q => exact h.check q
  | load q => exact h.load q
  | commit q => exact h.commit q
  | finish q => exact h.finish q
  | test q => exact h.test q
  | wake q => exact h.wake q
  | drop q => exact h.drop q
  | owner a =>
    rw [State.act]
    split_ifs with hkeeps
    · exact h
    · refine h.withFutex (K := fun i => a ≠ .destroy i) (tends_owner h.watched h.steady ?_) ?_
      · exact fun id ha hne => hne ha
      · rintro q id hid rfl
        have hhome := (h.awaits rfl).home hid
        refine hkeeps (decide_eq_true ?_)
        rw [hhome]
        exact hid

theorem Sound.run (as : List (Act α ε × List (List Remote.Async))) : Sound (s.run as) := by
  induction as generalizing s with
  | nil => exact h
  | cons a as ih =>
    have hinterfere := h.withFutex (K := fun _ => True) (tends_interfere h.watched h.steady a.2)
      fun _ _ _ => trivial
    exact ih (hinterfere.act a.1)

end

theorem sound_init : Sound (State.init : State α ε) where
  watched := Futex.watched_init _
  steady _ hi := absurd hi (Nat.not_lt_zero _)
  settled _ hp := absurd hp not_mem_nil
  published := nodup_nil
  task _ :=
    { value_iff := iff_of_false Bool.false_ne_true (by show ¬ 4 ≤ 0; decide)
      stored := fun _ hw => absurd hw not_mem_nil
      published_iff := iff_of_false not_mem_nil (by show ¬ 4 ≤ 0; decide)
      cell := .of (p := .absent) rfl (fun _ => iff_of_false nofun nofun)
        (fun _ => iff_of_false nofun nofun) (iff_of_false (fun h => h rfl) (by decide))
        (iff_of_false Bool.false_ne_true (by decide)) nofun nofun
      awaits := trivial }

theorem State.Reachable.sound (h : s.Reachable) : Sound s := by
  obtain ⟨as, rfl⟩ := h
  exact sound_init.run as

/-! ### Results -/

/-- A joiner that is suspended when `publish` has ended is to be resumed by its loop, or has been
resumed. -/
theorem Sound.delivered (h : Sound s) {id : ℕ} (hk : (s.cell q).consumer = .suspended id)
    (hqueue : s.queue q = []) :
    0 < s.inFlight id ∨ id ∈ (s.loop (s.owner id)).ready ∨ id ∈ s.resumed := by
  obtain ⟨-, hhome, hsuspended⟩ := h.awaits hk
  obtain ⟨p, hp⟩ := h.watched.wired.phase id
  have hpos : 0 < (s.tally id).suspended := count_pos_iff.mpr hsuspended
  have hqueued : (s.tally id).queued = 0 := by
    change (s.queue (s.home id)).count id = 0
    rw [hhome, hqueue]
    rfl
  rw [hp] at hpos hqueued
  cases p with
  | idle => exact absurd hpos (Nat.lt_irrefl 0)
  | linked => exact absurd hqueued Nat.one_ne_zero
  | sent =>
    have hflight : s.inFlight id = 1 := congrArg Remote.Tally.inFlight hp
    exact .inl (hflight ▸ Nat.one_pos)
  | done =>
    have hcompleted : (s.resumed ++ (s.loop (s.owner id)).ready).count id = 1 :=
      congrArg Remote.Tally.completed hp
    have hmem := count_pos_iff.mp (hcompleted ▸ Nat.one_pos)
    exact .inr (mem_append.mp hmem).symm

end Snowy.Spawn
