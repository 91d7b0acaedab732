import Mathlib.Data.Int.Notation
import Mathlib.Data.List.Nodup
import Mathlib.Logic.Function.Basic
import Mathlib.Logic.Relation

/-!
# Requests of the io_uring backend

A request is owned by the coroutine that awaits it while the kernel holds its address, as the tag
of the submission and, with the lowest bit set, as the tag of a cancellation. So it must not be
completed before the last completion queue entry (CQE) that carries its address has been seen:
there may be several of its own, all but the last with the flag `F_MORE`, and one for the
cancellation, in any order.

This file models `loop::submit`, `loop::cancel`, the scan of `io_` in `expire()` and `loop::poll`
with a kernel that keeps this contract and is free otherwise. Submissions reach the kernel at any
time after they are prepared. A request is submitted once; requests that are not submitted (a read
or a write of length zero) and failing submissions are not modelled.

## Main definitions

* `Snowy.Uring.Io` : the fields of `detail::io` that `poll` reads or writes.
* `Snowy.Uring.Driver` : the loop and the kernel side of its ring.
* `Snowy.Uring.Driver.cancel`, `Snowy.Uring.Driver.expire`, `Snowy.Uring.Driver.handle` : the
  functions.
* `Snowy.Uring.Step` : one step of the loop or of the kernel.
-/

namespace Snowy.Uring

open Function List

/-- `detail::opcode`. -/
inductive Opcode where
  | nop
  | read
  | write
  | accept
  | connect
  | recvFrom
  | sendTo
  | fileRead
  | fileWrite
  | fileSync
  | native
  deriving DecidableEq, Repr

/-- The errors that `poll` stores: the one of the kernel, or `errc::message_size`. -/
inductive Error where
  | errno (n : ℤ)
  | messageSize
  deriving DecidableEq, Repr

/-- The tag of a CQE: the internal poll of the eventfd, a request, or its cancellation. -/
inductive Tag where
  | wake
  | request (r : ℕ)
  | cancel (r : ℕ)
  deriving DecidableEq, Repr

/-- A completion queue entry. `truncated` is `MSG_TRUNC` in the message header, which the kernel
writes with the completion. -/
structure Cqe where
  tag : Tag
  res : ℤ := 0
  flags : ℕ := 0
  truncated : Bool := false
  deriving DecidableEq, Repr

/-- `cqe->flags & IORING_CQE_F_MORE`. -/
def Cqe.more (e : Cqe) : Bool := e.flags.testBit 1

/-- The fields of `detail::io`. `handler` says whether `result` is set and `batched` whether
`retire` is; `handled` are the calls of `result`. -/
structure Io where
  code : Opcode := .nop
  handler : Bool := false
  batched : Bool := false
  draining : Bool := false
  canceling : Bool := false
  cancelSent : Bool := false
  done : Bool := false
  error : Option Error := none
  bytes : ℕ := 0
  accepted : Option ℤ := none
  handled : List (ℤ × ℕ) := []
  deriving DecidableEq, Repr

/-- What `poll` stores in a request from one of its CQEs. -/
def Io.record (op : Io) (e : Cqe) : Io :=
  let op := { op with done := !e.more }
  let op :=
    if op.handler then { op with handled := op.handled ++ [(e.res, e.flags)] }
    else if e.res < 0 then { op with error := some (.errno (-e.res)) }
    else if op.code = .accept then { op with accepted := some e.res }
    else { op with bytes := e.res.toNat }
  if op.code = .recvFrom ∧ 0 ≤ e.res ∧ e.truncated then { op with error := some .messageSize }
  else op

@[simp] theorem Io.done_record (op : Io) (e : Cqe) : (op.record e).done = !e.more := by
  unfold record
  dsimp only
  split_ifs <;> rfl

@[simp] theorem Io.canceling_record (op : Io) (e : Cqe) :
    (op.record e).canceling = op.canceling := by
  unfold record
  dsimp only
  split_ifs <;> rfl

@[simp] theorem Io.cancelSent_record (op : Io) (e : Cqe) :
    (op.record e).cancelSent = op.cancelSent := by
  unfold record
  dsimp only
  split_ifs <;> rfl

@[simp] theorem Io.draining_record (op : Io) (e : Cqe) : (op.record e).draining = op.draining := by
  unfold record
  dsimp only
  split_ifs <;> rfl

/-- The loop with its driver and the kernel. `batch` is what `poll` still has to look at of the
entries it has peeked, and `cq` the entries behind them. On the side of the kernel, `running` are
the requests whose last CQE has not been written and `unanswered` counts the cancellations without
a CQE. The last three fields are histories: the requests submitted, the cancellations prepared,
and the requests completed. -/
structure Driver where
  io : List ℕ := []
  request : ℕ → Io := fun _ => {}
  batch : List Cqe := []
  cq : List Cqe := []
  ready : List ℕ := []
  drains : ℕ := 0
  running : ℕ → Bool := fun _ => false
  unanswered : ℕ → ℕ := fun _ => 0
  submitted : List ℕ := []
  sent : List ℕ := []
  retired : List ℕ := []

namespace Driver

variable (s : Driver) (r : ℕ)

/-- Change one request. -/
def setRequest (f : Io → Io) : Driver :=
  { s with request := update s.request r (f (s.request r)) }

/-- `detail::io::await_suspend` or `uring::access::start`, with `loop::submit`. -/
def submit (code : Opcode) (handler batched draining : Bool) : Driver :=
  { s with
    io := r :: s.io
    request := update s.request r { code, handler, batched, draining }
    drains := if draining then s.drains + 1 else s.drains
    running := update s.running r true
    submitted := s.submitted ++ [r] }

/-- `loop::cancel`. -/
def cancel : Driver :=
  let s := s.setRequest r fun op => { op with canceling := true, cancelSent := true }
  { s with
    unanswered := update s.unanswered r (s.unanswered r + 1)
    sent := s.sent ++ [r] }

/-- The scan of `io_` in `loop::expire`: the requests whose cancellation is due. -/
def expire (flagged : ℕ → Bool) : Driver :=
  s.io.foldl (fun s r => if !(s.request r).cancelSent && flagged r then s.cancel r else s) s

/-- `loop::complete`. -/
def complete : Driver :=
  { s with
    io := s.io.erase r
    ready := if (s.request r).batched then s.ready else s.ready ++ [r]
    retired := s.retired ++ [r] }

/-- The lambda `retire` of `loop::poll`. -/
def retire : Driver :=
  let s := if (s.request r).draining then { s with drains := s.drains - 1 } else s
  s.complete r

/-- The body of the loop of `loop::poll`. -/
def handle (e : Cqe) : Driver :=
  match e.tag with
  | .wake => s
  | .cancel r =>
    let s := s.setRequest r fun op => { op with canceling := false }
    if (s.request r).done then s.retire r else s
  | .request r =>
    let s := s.setRequest r fun op => op.record e
    if (s.request r).done && !(s.request r).canceling then s.retire r else s

/-- `io_uring_peek_batch_cqe` for at most `n` entries. -/
def peek (n : ℕ) : Driver := { s with batch := s.cq.take n, cq := s.cq.drop n }

/-- The kernel writes an entry. -/
def write (e : Cqe) : Driver := { s with cq := s.cq ++ [e] }

end Driver

/-- What can happen: a step of the owner thread, or the kernel writes a CQE. -/
inductive Act where
  | submit (r : ℕ)
  | cancel (r : ℕ)
  | peek
  | handle (e : Cqe)
  | write (e : Cqe)
  deriving DecidableEq, Repr

/-- One step. While `poll` goes through its batch no coroutine runs, so nothing is submitted and
`expire()` does not run. -/
inductive Step (s : Driver) : Act → Driver → Prop
  | submit {r : ℕ} (code : Opcode) (handler batched draining : Bool) (fresh : r ∉ s.submitted)
      (idle : s.batch = []) : Step s (.submit r) (s.submit r code handler batched draining)
  | cancel {r : ℕ} (mem : r ∈ s.io) (unsent : (s.request r).cancelSent = false)
      (idle : s.batch = []) : Step s (.cancel r) (s.cancel r)
  | peek (n : ℕ) (idle : s.batch = []) : Step s .peek (s.peek n)
  | handle {e : Cqe} {rest : List Cqe} (next : s.batch = e :: rest) :
      Step s (.handle e) (Driver.handle { s with batch := rest } e)
  | more {e : Cqe} {r : ℕ} (tag : e.tag = .request r) (more : e.more = true)
      (running : s.running r = true) : Step s (.write e) (s.write e)
  | last {e : Cqe} {r : ℕ} (tag : e.tag = .request r) (more : e.more = false)
      (running : s.running r = true) :
      Step s (.write e) { s.write e with running := update s.running r false }
  | answer {e : Cqe} {r : ℕ} (tag : e.tag = .cancel r) (unanswered : 0 < s.unanswered r) :
      Step s (.write e)
        { s.write e with unanswered := update s.unanswered r (s.unanswered r - 1) }
  | wake {e : Cqe} (tag : e.tag = .wake) : Step s (.write e) (s.write e)

/-- Any number of steps. -/
def Steps : Driver → Driver → Prop := Relation.ReflTransGen fun s s' => ∃ a, Step s a s'

/-- A state of some run of a new loop. -/
def Reachable (s : Driver) : Prop := Steps {} s

/-- The scan of `io_` is made of steps that prepare one cancellation each. -/
theorem steps_expire (s : Driver) (flagged : ℕ → Bool) (idle : s.batch = []) :
    Steps s (s.expire flagged) := by
  suffices h : ∀ (l : List ℕ) (s' : Driver), l ⊆ s'.io → s'.batch = [] → Steps s s' →
      Steps s (l.foldl (fun s r =>
        if !(s.request r).cancelSent && flagged r then s.cancel r else s) s') from
    h s.io s (List.Subset.refl _) idle .refl
  intro l
  induction l with
  | nil => exact fun s' _ _ h => h
  | cons r rest ih =>
    intro s' hl hidle h
    rw [foldl_cons]
    have hrest : rest ⊆ s'.io := fun i hi => hl (mem_cons_of_mem _ hi)
    split_ifs with hflag
    · have hunsent : (s'.request r).cancelSent = false := by
        simpa using (Bool.and_eq_true_iff.mp hflag).1
      exact ih (s'.cancel r) hrest hidle
        (h.tail ⟨_, .cancel (hl mem_cons_self) hunsent hidle⟩)
    · exact ih s' hrest hidle h

end Snowy.Uring
