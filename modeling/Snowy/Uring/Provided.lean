import Mathlib.Algebra.GroupWithZero.Nat
import Mathlib.Algebra.Order.Group.Nat
import Mathlib.Data.List.Nodup
import Mathlib.Logic.Function.Basic
import Mathlib.Logic.Relation

/-!
# Provided buffers

A `provided` object owns a fixed number of buffers of one size. The kernel has a ring of buffers
that were published to it; it selects buffers from the front of the ring and reports them in a
completion queue entry (CQE), which names the first of them and the number of bytes received. `take`
turns a selected buffer into a `chunk`, a lease that can be moved and that publishes the buffer
again when it is destroyed. `each` decodes a CQE for several buffers, a bundle: it follows the array
`next_`, in which `put` links each published buffer to the one published after it, and passes a
chunk for every buffer to a callback. The callback may do anything a user can do, including
returning the chunk or others, and decoding other CQEs.

The machine below has the variables of the code, the variables of type `chunk`, the stack of calls
of `each` that are in their loops, and the kernel. The kernel consumes buffers in the order of their
publication and fills every buffer of a bundle except the last one.

## Main definitions

* `Snowy.Provided.Config` : the arguments that the constructor accepts.
* `Snowy.Provided.State`, with `State.take`, `State.put`, `State.release`, `State.moveInto`,
  `State.moveAssign`, `State.destroy`, `State.call`, `State.iterate` and `State.finish`.
* `Snowy.Provided.Step` : a step of the user, of `each`, or of the kernel.
-/

namespace Snowy.Provided

open Function

/-- The arguments of the constructor, with the checks of `capacity`. -/
structure Config where
  count : ℕ
  size : ℕ
  single_bit : ∃ k, count = 2 ^ k
  count_le : count ≤ 32768
  size_pos : 0 < size
  size_le : size ≤ 2147483647

/-- `provided::chunk`: whether `owner_` is set, and the buffer with the bytes that were received. -/
structure Chunk where
  owner : Bool := false
  id : ℕ := 0
  offset : ℕ := 0
  length : ℕ := 0
  deriving DecidableEq, Repr

/-- A CQE: its flags, the number of bytes received, and the buffers that the kernel has selected.
The code sees the first buffer only, in the flags. -/
structure Cqe where
  flags : ℕ
  size : ℕ
  ids : List ℕ
  deriving DecidableEq, Repr

/-- A buffer visited by `each`: its number and length, whether the callback was called for it and
has kept it, and how many publications there were when it was taken. -/
structure Visit where
  id : ℕ
  bytes : ℕ
  called : Bool
  kept : Bool
  since : ℕ
  deriving DecidableEq, Repr

/-- Where a call of `each` is: at the head of its loop, or in the callback. In the callback the
local variable `value` is the chunk `v`, and the other locals have been computed. -/
inductive Stage where
  | head
  | call (v next bytes since : ℕ)
  deriving DecidableEq, Repr

/-- A call of `each` in its loop, with the CQE it decodes and the buffers it has visited. -/
structure Frame where
  cqe : Cqe
  flags : ℕ
  size : ℕ
  parts : ℕ
  id : ℕ
  i : ℕ := 0
  failure : Option ℕ := none
  stage : Stage := .head
  visited : List Visit := []
  deriving DecidableEq, Repr

/-- The exceptions that report an invalid CQE. -/
inductive Fault where
  | bundleSize
  | bundleId
  | completion
  deriving DecidableEq, Repr

/-- The state. The fields are those of `provided`, the variables of type `chunk`, the stack of calls
of `each`, the buffers in the ring of the kernel, and the CQEs that were not decoded. The last four
fields are histories: the publications, the selections, the exceptions thrown, and the calls of
`each` that have ended. -/
structure State where
  held : ℕ → Bool := fun _ => false
  leases : ℕ := 0
  next : ℕ → ℕ
  tail : ℕ
  chunk : ℕ → Option Chunk := fun _ => none
  frames : List Frame := []
  ring : List ℕ
  cqes : List Cqe := []
  published : List ℕ
  consumed : List ℕ := []
  faults : List Fault := []
  ended : List Frame := []

/-- `std::vector<unsigned short>` stores the low 16 bits. -/
def toShort (n : ℕ) : ℕ := n % 65536

/-- The number of the buffer in the flags of a CQE. -/
def idOf (flags : ℕ) : ℕ := flags >>> 16

/-- The flags of a CQE for the buffer `id`, with the low bits of `flags`. -/
def withId (flags id : ℕ) : ℕ := (flags &&& 0xffff) ||| (id <<< 16)

/-- The number of buffers that hold `size` bytes. -/
def Config.parts (cfg : Config) (size : ℕ) : ℕ :=
  if size ≠ 0 then (size - 1) / cfg.size + 1 else 1

namespace Frame

variable (f : Frame)

/-- A call of `each` before its loop. -/
def start (cfg : Config) (e : Cqe) : Frame where
  cqe := e
  flags := e.flags
  size := e.size
  parts := cfg.parts e.size
  id := idOf e.flags

/-- `size -= bytes`. -/
def shrink (bytes : ℕ) : Frame := { f with size := f.size - bytes }

/-- The callback is called. -/
def enter (v next bytes since : ℕ) : Frame :=
  { f.shrink bytes with stage := .call v next bytes since }

/-- The next iteration, after a visit. -/
def visit (next : ℕ) (x : Visit) (failure : Option ℕ) : Frame :=
  { f with id := next, i := f.i + 1, failure, stage := .head, visited := f.visited ++ [x] }

end Frame

namespace State

variable (cfg : Config) (s : State)

/-- The constructor: all buffers are published in the order of their numbers. -/
def init : State where
  next i := toShort ((i + 1) % cfg.count)
  tail := cfg.count - 1
  ring := List.range cfg.count
  published := List.range cfg.count

/-- `provided::put`. -/
def put (id : ℕ) : State :=
  { s with
    held := update s.held id false
    leases := s.leases - 1
    next := update s.next s.tail (toShort id)
    tail := id
    ring := s.ring ++ [id]
    published := s.published ++ [id] }

/-- An assignment to the variable `v`; `none` ends its lifetime. -/
def setChunk (v : ℕ) (c : Option Chunk) : State :=
  { s with chunk := update s.chunk v c }

/-- The variable `v` becomes the chunk for `size` bytes in the buffer `id`. -/
def lend (id size v : ℕ) : State :=
  { s with
    held := update s.held id true
    leases := s.leases + 1
    chunk := update s.chunk v
      (some { owner := true, id, offset := id * cfg.size, length := size }) }

/-- `provided::take` into the new variable `v`, unless it throws. -/
def take (flags size v : ℕ) : Option State :=
  if ¬flags.testBit 0 ∨ cfg.count ≤ idOf flags ∨ s.held (idOf flags) ∨ cfg.size < size then none
  else some (s.lend cfg (idOf flags) size v)

/-- `chunk::release`. -/
def release (v : ℕ) : State :=
  match s.chunk v with
  | some c => if c.owner then (s.setChunk v (some { c with owner := false })).put c.id else s
  | none => s

/-- The members of `w` are moved to `v`, which leaves `w` without an owner. -/
def moveInto (v w : ℕ) : State :=
  match s.chunk w with
  | some c => (s.setChunk v (some c)).setChunk w (some { c with owner := false })
  | none => s

/-- `chunk::operator=(chunk&&)`. -/
def moveAssign (v w : ℕ) : State := if v ≠ w then (s.release v).moveInto v w else s

/-- `chunk::~chunk`. -/
def destroy (v : ℕ) : State := (s.release v).setChunk v none

/-- The exception of an invalid CQE. -/
def throw (fault : Fault) : State := { s with faults := s.faults ++ [fault] }

/-- A change of the CQEs that were not decoded. -/
def setCqes (cqes : List Cqe) : State := { s with cqes }

/-- A change of the stack of calls. -/
def setFrames (frames : List Frame) : State := { s with frames }

/-- The first lines of `each`, up to its loop. -/
def call (e : Cqe) : State :=
  if cfg.count < cfg.parts e.size then s.throw .bundleSize
  else s.setFrames (Frame.start cfg e :: s.frames)

/-- Whether the callback has moved the chunk of the buffer `id` out of the variable `v`. -/
def kept (v id : ℕ) : Bool :=
  match s.chunk v with
  | some c => !(c.owner && c.id == id)
  | none => true

/-- The end of an iteration of `each`, with the destructor of its local variable `value`. -/
def endIteration (f : Frame) (frames : List Frame) (v next bytes since : ℕ) (called : Bool)
    (failure : Option ℕ) : State :=
  (s.destroy v).setFrames
    (f.visit next { id := f.id, bytes, called, kept := s.kept v f.id, since } failure :: frames)

/-- An iteration of `each` up to the callback, with the variable `v` for its local variable `value`.
After a failure the callback is not called any more. -/
def iterate (f : Frame) (frames : List Frame) (v : ℕ) : State :=
  if cfg.count ≤ f.id then (s.setFrames frames).throw .bundleId
  else
    match s.take cfg (withId f.flags f.id) (min f.size cfg.size) v with
    | none => (s.setFrames frames).throw .completion
    | some t =>
      if f.failure.isNone then
        t.setFrames (f.enter v (s.next f.id) (min f.size cfg.size) s.published.length :: frames)
      else
        t.endIteration (f.shrink (min f.size cfg.size)) frames v (s.next f.id) (min f.size cfg.size)
          s.published.length false f.failure

/-- `each` returns, or throws the failure of its callback. -/
def finish (f : Frame) (frames : List Frame) : State :=
  { s.setFrames frames with ended := s.ended ++ [f] }

/-- The kernel selects `n` buffers, the first of which is `id`, and writes a CQE with the given low
bits in its flags. -/
def select (n size low id : ℕ) : State :=
  { s with
    ring := s.ring.drop n
    cqes := s.cqes ++ [{ flags := withId low id, size, ids := s.ring.take n }]
    consumed := s.consumed ++ s.ring.take n }

/-- Control is with the user: outside any call of `each`, or in the callback of the innermost. -/
def User : Prop := ∀ f ∈ s.frames.head?, f.stage ≠ .head

/-- The local variables `value` of the calls of `each`. -/
def locals : List ℕ :=
  s.frames.filterMap fun f =>
    match f.stage with
    | .head => none
    | .call v _ _ _ => some v

end State

/-! ### Steps -/

/-- The steps. In an act, `v` and `w` are variables of type `chunk`. -/
inductive Act where
  | select (n size low : ℕ)
  | take (e : Cqe) (v : ℕ)
  | each (e : Cqe)
  | iterate (v : ℕ)
  | callbackEnds (fault : Option ℕ)
  | finish
  | construct (v : ℕ)
  | moveConstruct (v w : ℕ)
  | moveAssign (v w : ℕ)
  | destroy (v : ℕ)
  deriving DecidableEq, Repr

/-- A step. The kernel selects `n` buffers from the front of its ring at any time, and fills all of
them but the last. A CQE is decoded once, by `take` if it is for one buffer, or by `each`. The user
can create, move and destroy chunks whenever control is with the user; the destructor of the local
variable of `each` is not called by the user. -/
inductive Step (cfg : Config) (s : State) : Act → State → Prop where
  | select (n size low id : ℕ) (rest : List ℕ) (ring : s.ring = id :: rest) (pos : 0 < n)
      (le : n ≤ s.ring.length)
      (filled : (n - 1) * cfg.size < size ∧ size ≤ n * cfg.size ∨ n = 1 ∧ size = 0)
      (buffer : low.testBit 0 = true) :
      Step cfg s (.select n size low) (s.select n size low id)
  | take (before : List Cqe) (e : Cqe) (after : List Cqe) (v : ℕ) (user : s.User)
      (pending : s.cqes = before ++ e :: after) (single : e.ids.length = 1)
      (fresh : s.chunk v = none) :
      Step cfg s (.take e v)
        (((s.setCqes (before ++ after)).take cfg e.flags e.size v).getD
          ((s.setCqes (before ++ after)).throw .completion))
  | each (before : List Cqe) (e : Cqe) (after : List Cqe) (user : s.User)
      (pending : s.cqes = before ++ e :: after) :
      Step cfg s (.each e) ((s.setCqes (before ++ after)).call cfg e)
  | iterate (f : Frame) (frames : List Frame) (v : ℕ) (top : s.frames = f :: frames)
      (at_head : f.stage = .head) (more : f.i < f.parts) (fresh : s.chunk v = none) :
      Step cfg s (.iterate v) (s.iterate cfg f frames v)
  | callbackEnds (f : Frame) (frames : List Frame) (v next bytes since : ℕ) (fault : Option ℕ)
      (top : s.frames = f :: frames) (at_call : f.stage = .call v next bytes since) :
      Step cfg s (.callbackEnds fault) (s.endIteration f frames v next bytes since true fault)
  | finish (f : Frame) (frames : List Frame) (top : s.frames = f :: frames)
      (at_head : f.stage = .head) (all : f.i = f.parts) :
      Step cfg s .finish (s.finish f frames)
  | construct (v : ℕ) (user : s.User) (fresh : s.chunk v = none) :
      Step cfg s (.construct v) (s.setChunk v (some {}))
  | moveConstruct (v w : ℕ) (user : s.User) (fresh : s.chunk v = none)
      (alive : (s.chunk w).isSome) :
      Step cfg s (.moveConstruct v w) (s.moveInto v w)
  | moveAssign (v w : ℕ) (user : s.User) (target : (s.chunk v).isSome)
      (alive : (s.chunk w).isSome) :
      Step cfg s (.moveAssign v w) (s.moveAssign v w)
  | destroy (v : ℕ) (user : s.User) (alive : (s.chunk v).isSome) (own : v ∉ s.locals) :
      Step cfg s (.destroy v) (s.destroy v)

/-- The states of the runs of a new object. -/
def Reachable (cfg : Config) (s : State) : Prop :=
  Relation.ReflTransGen (fun s t => ∃ a, Step cfg s a t) (.init cfg) s

/-- **Invariants.** What holds of a new object and is kept by every step holds in every state of
every run. -/
theorem Reachable.induction {cfg : Config} {P : State → Prop} (init : P (.init cfg))
    (step : ∀ {s t a}, P s → Step cfg s a t → P t) {s : State} (h : Reachable cfg s) : P s := by
  induction h with
  | refl => exact init
  | tail _ hstep ih =>
    obtain ⟨a, ha⟩ := hstep
    exact step ih ha

/-- A run that begins with a given step. -/
theorem exists_run_of_step {cfg : Config} {P : State → Prop} {s t : State} {a : Act}
    (h : Step cfg s a t)
    (ht : ∃ u, Relation.ReflTransGen (fun s t => ∃ a, Step cfg s a t) t u ∧ P u) :
    ∃ u, Relation.ReflTransGen (fun s t => ∃ a, Step cfg s a t) s u ∧ P u := by
  obtain ⟨u, hu, hP⟩ := ht
  exact ⟨u, .head ⟨a, h⟩ hu, hP⟩

end Snowy.Provided
