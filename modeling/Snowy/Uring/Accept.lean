import Snowy.Uring.Multishot

/-!
# Multishot accept

`uring::accept` makes a socket of each descriptor that the kernel accepts and passes it to a
consumer `fn`. The constructor of `socket` closes the descriptor and throws if it cannot set its
flags. The socket of the callback is closed when the callback ends, unless the consumer has moved
it. After `stop()` more descriptors may come until the request is retired; they are adopted and
closed, too. The coroutine returns only if `fn` has returned `false`, and starts another request
after a shot that has ended without an error.

The kernel may write any CQEs. A consumer may move the socket or leave it, whatever it answers.

## Main definitions

* `Snowy.Uring.Accept.Files` : the accepted descriptors.
* `Snowy.Uring.Accept.accept` : the operation.

## Main results

* `Snowy.Uring.Accept.accept_closes_once` : what `accept` guarantees.
-/

namespace Snowy.Uring.Accept

open Function List

open Multishot

variable {ε : Type} (adopts takes : ℕ → Bool) (answer : ℕ → Answer ε)

/-! ### The operation -/

/-- The descriptors accepted so far. The `i`th of them is one open file, whatever its number;
`given` are the files that were moved to the consumer, `closed` those that the library has closed,
once for each call of `close`. The consumer has been called `calls` times. -/
structure Files where
  fds : List ℤ := []
  given : List ℕ := []
  closed : List ℕ := []
  calls : ℕ := 0
  deriving DecidableEq, Repr

namespace Files

variable (x : Files)

/-- The kernel has accepted a connection. -/
def add (fd : ℤ) : Files := { x with fds := x.fds ++ [fd] }

/-- `detail::close`, where `none` is `invalid_socket`. -/
def close : Option ℕ → Files
  | none => x
  | some i => { x with closed := x.closed ++ [i] }

/-- The consumer is called and moves the socket or not. -/
def call (moved : Option ℕ) : Files :=
  { x with given := x.given ++ moved.toList, calls := x.calls + 1 }

end Files

/-- The callback. `adopts i` says whether the constructor of the socket for the `i`th descriptor
succeeds, and `takes n` whether the consumer moves the socket when it is called for the `n`th time.
The destructor of `peer` closes what was not moved. -/
def consume (_ : Unit) (stopped : Bool) (res : ℤ) (_flags : ℕ) (x : Files) :
    Consumed Files (Failure ε) :=
  if res < 0 then { client := x }
  else
    let peer := x.fds.length
    let y := x.add res
    if adopts peer then
      if stopped then { client := y.close (some peer) }
      else
        let moved := if takes x.calls then some peer else none
        let left := if takes x.calls then none else some peer
        { client := (y.call moved).close left
          stop := (answer x.calls).stop
          thrown := (answer x.calls).thrown }
    else { client := y.close (some peer), thrown := some .library }

/-- What follows the await: no code is ignored. -/
def after (x : Option (Exn (Failure ε))) (f : Fields (Failure ε)) : Next (Failure ε) :=
  f.after f.stopped none x

/-- `uring::accept`. -/
def accept : Operation Unit Files (Failure ε) where
  consume := consume adopts takes answer
  after := after
  pauses := false
  payload _ _ := ()
  contract _ := True
  open_of_again x f h := (h ▸ Fields.ends_after : f.Ends f.stopped none x .again)
  after_canceled := Fields.after_thrown rfl rfl nofun
  after_submission _ _ := Fields.after_thrown rfl rfl nofun

/-! ### The descriptors -/

variable {adopts takes answer}

/-- Each accepted descriptor was moved to the consumer or closed by the library, once. -/
def Files.Once (x : Files) : Prop :=
  ∀ i, x.given.count i + x.closed.count i = if i < x.fds.length then 1 else 0

/-- One descriptor is accepted, and moved or closed. -/
theorem Files.Once.concat {x y : Files} (h : x.Once) {fd : ℤ} (hfds : y.fds = x.fds ++ [fd])
    (hcount : ∀ i, y.given.count i + y.closed.count i =
      x.given.count i + x.closed.count i + if x.fds.length = i then 1 else 0) : y.Once := by
  intro i
  rw [hcount, h i, hfds, length_append, length_singleton]
  split_ifs <;> omega

/-- What the CQEs `l` have made of the consumer. -/
structure Tidy (answer : ℕ → Answer ε) (l : List (ℤ × ℕ)) (x : Files) (stopped : Bool)
    (failure : Option (Failure ε)) : Prop where
  fds : x.fds = (l.map Prod.fst).filter (0 ≤ ·)
  once : x.Once
  answered : Answered answer x.calls stopped failure

/-- The callback for any CQE. -/
theorem Tidy.consume {l : List (ℤ × ℕ)} {x : Files} {stopped : Bool} {failure : Option (Failure ε)}
    (h : Tidy answer l x stopped failure) (p : ℤ × ℕ) :
    let c := Accept.consume adopts takes answer () stopped p.1 p.2 x
    Tidy answer (l ++ [p]) c.client (stopped || c.stop || c.thrown.isSome)
      (failure.or c.thrown) := by
  intro c
  by_cases hres : p.1 < 0
  · have hc : c = { client := x } := if_pos hres
    rw [hc]
    refine ⟨?_, h.once, ?_⟩
    · simpa [filter_append, Int.not_le.mpr hres] using h.fds
    · simpa using h.answered
  have hfds : ((l ++ [p]).map Prod.fst).filter (0 ≤ ·) = x.fds ++ [p.1] := by
    simp [filter_append, h.fds, Int.not_lt.mp hres]
  cases hadopts : adopts x.fds.length with
  | false =>
    have hc : c = { client := (x.add p.1).close (some x.fds.length), thrown := some .library } := by
      simp [c, Accept.consume, hres, hadopts]
    rw [hc]
    refine ⟨hfds.symm, h.once.concat rfl fun i => ?_, ?_⟩
    · simp [Files.close, Files.add, count_append, count_singleton, Nat.add_assoc]
    · rw [Option.isSome_some, Bool.or_true]
      exact h.answered.fail
  | true =>
    cases stopped with
    | true =>
      have hc : c = { client := (x.add p.1).close (some x.fds.length) } := by
        simp [c, Accept.consume, hres, hadopts]
      rw [hc]
      refine ⟨hfds.symm, h.once.concat rfl fun i => ?_, ?_⟩
      · simp [Files.close, Files.add, count_append, count_singleton, Nat.add_assoc]
      · simpa [Files.close, Files.add] using h.answered
    | false =>
      obtain rfl := h.answered.failure_eq_none
      have hc : c =
          { client := ((x.add p.1).call (if takes x.calls then some x.fds.length else none)).close
              (if takes x.calls then none else some x.fds.length)
            stop := (answer x.calls).stop
            thrown := (answer x.calls).thrown } := by
        simp [c, Accept.consume, hres, hadopts]
      rw [hc, Bool.false_or, Option.none_or]
      cases takes x.calls with
      | true =>
        refine ⟨hfds.symm, h.once.concat rfl fun i => ?_, h.answered.call⟩
        simp [Files.close, Files.call, Files.add, count_append, count_singleton,
          Nat.add_right_comm]
      | false =>
        refine ⟨hfds.symm, h.once.concat rfl fun i => ?_, h.answered.call⟩
        simp [Files.close, Files.call, Files.add, count_append, count_singleton,
          Nat.add_assoc]

variable (adopts takes answer) in
/-- **The consumer has been called as long as it returned `true`, and no descriptor was lost.** -/
theorem tidy_run (l : List (ℤ × ℕ)) : let x := (accept adopts takes answer).run {} l
    Tidy answer l x.client x.stopped x.failure := by
  induction l using List.reverseRecOn with
  | nil => exact ⟨rfl, fun _ => rfl, .going nofun⟩
  | append_singleton l p ih =>
    rw [Operation.run_append]
    exact ih.consume p

/-! ### The end of a shot -/

theorem eq_of_after_finish {x : Option (Exn (Failure ε))} {f : Fields (Failure ε)}
    (h : after x f = .finish) : f.stopped = true ∧ f.failure = none := by
  have hends : f.Ends f.stopped none x .finish := h ▸ Fields.ends_after
  exact hends.imp_left (·.elim id id)

variable (adopts takes answer) in
/-- **Multishot accept neither leaks nor closes a descriptor twice.** The kernel may write any CQEs
and end each shot with any of them, the consumer may answer in any way at each call and move the
socket or not, the adoption of a descriptor may fail, and the token may be canceled at any time. In
every state of every run, with any number of shots:
* each CQE with a result that is not negative has been adopted, in order, and each descriptor was
  either moved to the consumer or closed by the library, exactly once;
* the consumer is not called after it has returned `false` or thrown;
* the operation has returned only if the consumer has returned `false`;
* when the coroutine is resumed after a shot, an exception of the consumer is thrown again, whatever
  the error of the shot;
* the operation ends, with an exception or not, only when all its shots are retired. -/
theorem accept_closes_once {s : State Unit Files (Failure ε)}
    (h : Multishot.Reachable (accept adopts takes answer) {} s) :
    s.client.fds = (s.results.map Prod.fst).filter (0 ≤ ·) ∧
    (∀ i, s.client.given.count i + s.client.closed.count i =
      if i < s.client.fds.length then 1 else 0) ∧
    (∀ i, i + 1 < s.client.calls → answer i = .more) ∧
    (s.phase = .returned → ∃ i < s.client.calls, answer i = .enough) ∧
    (∀ r, s.phase = .shooting r → r ∈ s.driver.retired →
      ∀ i < s.client.calls, ∀ e, answer i = .throws e →
        (s.resume (accept adopts takes answer)).phase = .threw (.failure (.consumer e))) ∧
    (s.phase = .returned ∨ (∃ y, s.phase = .threw y) →
      ∀ q ∈ s.shots, q ∈ s.driver.retired ∧ ¬s.driver.Outstanding q) := by
  have hs := h.sound
  obtain ⟨hfds, honce, hanswered⟩ := tidy_run adopts takes answer s.results
  rw [← hs.follows.client] at hfds honce hanswered
  rw [← hs.follows.stopped, ← hs.follows.failure] at hanswered
  refine ⟨hfds, honce, fun i hi => hanswered.eq_more hi, ?_, ?_, hs.retired_of_ended⟩
  · intro hphase
    have hsettled := hs.settled
    rw [State.Settled, hphase] at hsettled
    obtain ⟨hstopped, hfailure⟩ := eq_of_after_finish hsettled.2
    rw [hstopped, hfailure] at hanswered
    exact hanswered.exists_enough
  · intro r _ _ i hi e he
    have hnext : s.next (accept adopts takes answer) = .fail (.failure (.consumer e)) :=
      Fields.after_of_failure ((hanswered.throws_iff e).mpr ⟨i, hi, he⟩)
    rw [phase_resume, hnext]

/-- A consumer that moves the first socket and returns `false` when it is called again. -/
def oneSocket : Operation Unit Files (Failure Unit) :=
  accept (fun _ => true) (fun n => n == 0) fun n => if n = 0 then .more else .enough

/-- A CQE of the first request, with or without `F_MORE`. -/
def acceptCqe (fd : ℤ) (more : Bool) : Cqe :=
  { tag := .request 0, res := fd, flags := if more then 2 else 0 }

/-- The kernel has accepted three connections in one shot, and `poll` has peeked the CQEs. -/
def acceptingState : State Unit Files (Failure Unit) :=
  let s := State.submit { client := {} } 0
  let s := s.post oneSocket (5, 2) (s.driver.write (acceptCqe 5 true))
  let s := s.post oneSocket (6, 2) (s.driver.write (acceptCqe 6 true))
  let s := s.post oneSocket (7, 0) { s.driver.write (acceptCqe 7 false) with
    running := update s.driver.running 0 false }
  { s with driver := s.driver.peek 3 }

/-- The coroutine has returned. -/
def acceptedState : State Unit Files (Failure Unit) :=
  let s := acceptingState.handle oneSocket (acceptCqe 5 true) [acceptCqe 6 true, acceptCqe 7 false]
  ((s.handle oneSocket (acceptCqe 6 true) [acceptCqe 7 false]).handle oneSocket (acceptCqe 7 false)
    []).resume oneSocket

theorem reachable_acceptedState : Multishot.Reachable oneSocket {} acceptedState := by
  have hsubmit : Multishot.Reachable oneSocket {} _ :=
    .single (.submit (r := 0) rfl rfl (by simp) rfl)
  have hfirst := hsubmit.tail (.post (e := acceptCqe 5 true) rfl rfl (.more rfl rfl rfl) trivial)
  have hsecond := hfirst.tail (.post (e := acceptCqe 6 true) rfl rfl (.more rfl rfl rfl) trivial)
  have hlast := hsecond.tail (.post (e := acceptCqe 7 false) rfl rfl (.last rfl rfl rfl) trivial)
  have hpeek : Multishot.Reachable oneSocket {} acceptingState :=
    hlast.tail (.other (.peek 3 rfl) (fun _ => nofun) fun _ _ => rfl)
  have hhandle := ((hpeek.tail (.handle (e := acceptCqe 5 true) rfl)).tail
    (.handle (e := acceptCqe 6 true) rfl)).tail (.handle (e := acceptCqe 7 false) rfl)
  exact hhandle.tail (.resume (r := 0) rfl (by decide))

theorem accept_closes_once_acceptedState : acceptedState.phase = .returned ∧
    acceptedState.client = { fds := [5, 6, 7], given := [0], closed := [1, 2], calls := 2 } ∧
    acceptedState.client.fds = (acceptedState.results.map Prod.fst).filter (0 ≤ ·) ∧
    ∀ i, acceptedState.client.given.count i + acceptedState.client.closed.count i =
      if i < acceptedState.client.fds.length then 1 else 0 :=
  have h := accept_closes_once _ _ _ reachable_acceptedState
  ⟨rfl, rfl, h.1, h.2.1⟩

end Snowy.Uring.Accept
