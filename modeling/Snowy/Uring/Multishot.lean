import Mathlib.Data.List.Induction
import Snowy.Uring.Flush
import Snowy.Uring.Hooks

/-!
# Multishot operations

`uring::receive` and `uring::accept` await one multishot request after another. Each CQE of a
request is stored in its fields `error` and `bytes` and passed to a callback, which may call
`stop()` or throw; an exception is kept in `failure` and calls `stop()`, too. `stop()` only asks for
the cancellation of the request, so that more CQEs may come. When the request is retired the
coroutine looks at its fields and returns, throws or goes on with a new request.

This file models `uring::stream` and the loop around it, for any callback and any decision after a
shot, over the requests of `Snowy.Uring.Driver` and among any other requests. The token may be
canceled at any time, and the driver may cancel a request at any time. The kernel may give each CQE
a payload, which depends on the CQEs that it has written before. A submission does not fail with
`ENOBUFS`, which `io_uring_enter` does not return.

The shots do not matter to the consumer: it has been called as if the CQEs of all shots had come
from one request.

## Main definitions

* `Snowy.Uring.Multishot.Fields` : the fields of a request that the loop looks at.
* `Snowy.Uring.Multishot.Fields.after` : what follows the await of a request, for all operations.
* `Snowy.Uring.Multishot.Operation` : what an operation does with its CQEs and after each shot.
* `Snowy.Uring.Multishot.State`, `Snowy.Uring.Multishot.Step` : the loop with one operation.
* `Snowy.Uring.Multishot.Operation.run` : the callback for one CQE after another.
* `Snowy.Uring.Multishot.Answered` : the calls of a consumer that ends at a call.

## Main results

* `Snowy.Uring.Multishot.Reachable.sound` : the consumer is that of `run` for the CQEs of all shots,
  the fields are those of the last shot, and all shots before it are retired.
* `Snowy.Uring.Multishot.Sound.retired_of_ended` : at its end the operation has no request.
-/

namespace Snowy.Uring.Multishot

open List

/-! ### The fields of a request -/

/-- What a coroutine throws: the exception kept in `failure`, a `std::system_error` with the error
of a request, or the exception of a submission. -/
inductive Exn (ε : Type) where
  | failure (e : ε)
  | code (errno : ℕ)
  | submission (x : Thrown)
  deriving DecidableEq, Repr

/-- The code of an exception of `co_await` if it is a `std::system_error`. -/
def Exn.errno {ε : Type} : Exn ε → Option ℕ
  | failure _ => none
  | code errno => some errno
  | submission x => x.code

/-- The fields of `uring::stream` that the callback and the loop look at. -/
structure Fields (ε : Type) where
  error : Option ℕ := none
  bytes : ℕ := 0
  stopped : Bool := false
  failure : Option ε := none
  deriving DecidableEq, Repr

namespace Fields

variable {ε : Type} (f : Fields ε)

/-- What the hook `result` stores before it calls the callback. -/
def record (res : ℤ) : Fields ε :=
  if res < 0 then { f with error := some (-res).toNat } else { f with bytes := res.toNat }

/-- `stream::stop`; the cancellation that it asks for is a step of the driver. -/
def stop : Fields ε := { f with stopped := true }

/-- The handler of the exceptions of the callback: the first one is kept. -/
def fail (e : ε) : Fields ε := stop { f with failure := f.failure.or (some e) }

/-- The fields after a callback that may have called `stop()`, and what it has thrown. -/
def called (stop : Bool) (thrown : Option ε) : Fields ε :=
  let f := if stop then f.stop else f
  thrown.elim f f.fail

end Fields

/-- What a callback has done: the new state of the consumer, whether it has called `stop()`, and
what it has thrown. -/
structure Consumed (σ ε : Type) where
  client : σ
  stop : Bool := false
  thrown : Option ε := none

/-- What the coroutine does after a shot. -/
inductive Next (ε : Type) where
  | finish
  | fail (x : Exn ε)
  | again
  deriving DecidableEq, Repr

namespace Fields

variable {ε : Type} (f : Fields ε)

/-- What follows the `try` block: `failure` is thrown again, or the coroutine returns, if it is
`done`, or goes on. -/
def proceed (done : Bool) : Next ε :=
  match f.failure with
  | some e => .fail (.failure e)
  | none => if done then .finish else .again

/-- What follows the await, which has thrown `x`. Only a `std::system_error` is caught, and it is
thrown again unless it has the code `ignored`. -/
def after (done : Bool) (ignored : Option ℕ) (x : Option (Exn ε)) : Next ε :=
  match x with
  | none => f.proceed done
  | some y =>
    match y.errno with
    | none => .fail y
    | some errno =>
      match f.failure with
      | some e => .fail (.failure e)
      | none =>
        if f.stopped && errno == ecanceled then .finish
        else if ignored ≠ some errno then .fail y
        else f.proceed done

/-- What is known of a shot from where the coroutine goes. -/
def Ends (done : Bool) (ignored : Option ℕ) (x : Option (Exn ε)) : Next ε → Prop
  | .again => done = false ∧ f.failure = none
  | .finish => (done = true ∨ f.stopped = true) ∧ f.failure = none
  | .fail y => (∃ e, y = .failure e) ∨ x = some y ∧ ∀ errno, ignored = some errno →
      y.errno ≠ some errno

variable {f} {done : Bool} {ignored : Option ℕ} {x : Option (Exn ε)} {y : Exn ε}

theorem ends_proceed : f.Ends done ignored x (f.proceed done) := by
  unfold proceed
  split
  · exact .inl ⟨_, rfl⟩
  · rename_i hfailure
    split_ifs with hdone
    · exact ⟨.inl hdone, hfailure⟩
    · exact ⟨Bool.eq_false_iff.mpr hdone, hfailure⟩

theorem ends_after : f.Ends done ignored x (f.after done ignored x) := by
  unfold after
  split
  · exact ends_proceed
  · split
    · -- another exception than a `std::system_error`
      rename_i y _ herrno
      exact .inr ⟨rfl, fun _ _ => herrno ▸ nofun⟩
    · rename_i y _ errno herrno
      split
      · exact .inl ⟨_, rfl⟩
      · rename_i hfailure
        split_ifs with hstopped hne
        · exact ⟨.inr (Bool.and_eq_true_iff.mp hstopped).1, hfailure⟩
        · refine .inr ⟨rfl, fun _ h h' => hne (h.trans ?_)⟩
          exact h'.symm.trans herrno
        · exact ends_proceed

theorem after_thrown (hfailure : f.failure = none) (hstopped : f.stopped = false)
    (h : ∀ errno, ignored = some errno → y.errno ≠ some errno) :
    f.after done ignored (some y) = .fail y := by
  unfold after
  dsimp only
  split
  · rfl
  · rename_i errno herrno
    have hne : ignored ≠ some errno := fun h' => h errno h' herrno
    simp [hfailure, hstopped, hne]

theorem after_of_failure {e : ε} (hfailure : f.failure = some e) :
    f.after done ignored (f.error.map .code) = .fail (.failure e) := by
  cases f.error <;> simp [after, proceed, hfailure, Exn.errno]

end Fields

/-- An operation for consumers with states `σ` whose CQEs have payloads `δ`. The callback `consume`
is given the payload, `stopped`, the result and the flags; `after` is what follows the await, given
the exception of the await and the fields; `pauses` says whether the coroutine waits for a buffer
before the next shot. The kernel chooses the payload by the CQEs that it has written before, and
keeps to the contract.

A consumer that has ended the operation gets no other shot. A request that was canceled before its
submission and a failed submission end the operation. -/
structure Operation (δ σ ε : Type) where
  consume : δ → Bool → ℤ → ℕ → σ → Consumed σ ε
  after : Option (Exn ε) → Fields ε → Next ε
  pauses : Bool
  payload : List (ℤ × ℕ) → ℤ × ℕ → δ
  contract : ℤ × ℕ → Prop
  open_of_again : ∀ x f, after x f = .again → f.stopped = false ∧ f.failure = none
  after_canceled :
    after (some (.code ecanceled)) { error := some ecanceled } = .fail (.code ecanceled)
  after_submission : ∀ x : Thrown, x.code ≠ some enobufs →
    after (some (.submission x)) {} = .fail (.submission x)

/-- Where the coroutine is: before the next await, suspended by the await of a request, waiting for
a buffer, or at its end. -/
inductive Phase (ε : Type) where
  | arming
  | shooting (r : ℕ)
  | pausing
  | returned
  | threw (x : Exn ε)
  deriving DecidableEq, Repr

/-- Where the coroutine goes from `co_await request`, by the exception and the fields. -/
def Operation.settle {δ σ ε : Type} (P : Operation δ σ ε) (x : Option (Exn ε)) (f : Fields ε) :
    Phase ε :=
  match P.after x f with
  | .finish => .returned
  | .fail y => .threw y
  | .again => if P.pauses then .pausing else .arming

/-! ### The loop -/

/-- The loop with one operation: the requests of the driver, whether the token is canceled, the
coroutine with the fields of the last request it has submitted, the consumer, the requests it has
submitted, the last one first, and the payloads of the CQEs that `poll` has not looked at. -/
structure State (δ σ ε : Type) where
  driver : Driver := {}
  canceled : Bool := false
  phase : Phase ε := .arming
  fields : Fields ε := {}
  client : σ
  shots : List ℕ := []
  data : List δ := []

variable {δ σ ε : Type} (P : Operation δ σ ε)

namespace State

variable (s : State δ σ ε)

/-- The CQEs of all shots for which `result` has been called. -/
def results : List (ℤ × ℕ) := s.shots.reverse.flatMap fun r => (s.driver.request r).handled

/-- The CQEs of the last shot that `poll` has not looked at. -/
def unread : List (ℤ × ℕ) := s.shots.head?.elim [] s.driver.unseen

/-- The CQEs of all shots that the kernel has written. -/
def written : List (ℤ × ℕ) := s.results ++ s.unread

/-- A new request is constructed and submitted. -/
def submit (r : ℕ) : State δ σ ε :=
  { s with
    driver := s.driver.submit r .native true false false
    phase := .shooting r
    fields := {}
    shots := r :: s.shots }

/-- The driver makes a step. -/
def setDriver (d : Driver) : State δ σ ε := { s with driver := d }

/-- The kernel writes a CQE of the last shot. -/
def post (p : ℤ × ℕ) (d : Driver) : State δ σ ε :=
  { s with driver := d, data := s.data ++ [P.payload s.written p] }

/-- The hook `result`; there is a payload for each CQE. -/
def result (res : ℤ) (flags : ℕ) : State δ σ ε :=
  match s.data with
  | [] => s
  | d :: rest =>
    let f := s.fields.record res
    let c := P.consume d f.stopped res flags s.client
    { s with fields := f.called c.stop c.thrown, client := c.client, data := rest }

/-- `poll` looks at an entry. -/
def handle (e : Cqe) (rest : List Cqe) : State δ σ ε :=
  { if ∃ r ∈ s.shots.head?, e.tag = .request r then s.result P e.res e.flags else s with
    driver := Driver.handle { s.driver with batch := rest } e }

/-- The decision after the last shot; the await throws if its request has an error. -/
def next : Next ε := P.after (s.fields.error.map .code) s.fields

/-- The coroutine goes to another place. -/
def goto (p : Phase ε) : State δ σ ε := { s with phase := p }

/-- The coroutine is resumed after a shot. -/
def resume : State δ σ ε := s.goto (P.settle (s.fields.error.map .code) s.fields)

end State

/-- A step: the token is canceled; the await of a new request submits it, ends at once because the
token is canceled, or throws because the submission fails; the coroutine is resumed when the request
is retired; its wait for a buffer ends or is canceled; or the driver makes a step, with the kernel
writing a CQE for the last shot or not. -/
inductive Step (s : State δ σ ε) : State δ σ ε → Prop
  | cancel : Step s { s with canceled := true }
  | submit {r : ℕ} (phase : s.phase = .arming) (token : s.canceled = false)
      (fresh : r ∉ s.driver.submitted) (idle : s.driver.batch = []) : Step s (s.submit r)
  | refuse (phase : s.phase = .arming) (token : s.canceled = true) :
      Step s (s.goto (P.settle (some (.code ecanceled)) { error := some ecanceled }))
  | fail {x : Thrown} (phase : s.phase = .arming) (errno : x.code ≠ some enobufs) :
      Step s (s.goto (P.settle (some (.submission x)) {}))
  | resume {r : ℕ} (phase : s.phase = .shooting r) (done : r ∈ s.driver.retired) :
      Step s (s.resume P)
  | available (phase : s.phase = .pausing) : Step s (s.goto .arming)
  | interrupt (phase : s.phase = .pausing) (token : s.canceled = true) :
      Step s (s.goto (.threw (.code ecanceled)))
  | other {a : Act} {d : Driver} (step : Uring.Step s.driver a d) (ha : ∀ e, a ≠ .handle e)
      (silent : ∀ r ∈ s.shots.head?, a.posts r = []) : Step s (s.setDriver d)
  | post {e : Cqe} {r : ℕ} {d : Driver} (head : s.shots.head? = some r) (tag : e.tag = .request r)
      (step : Uring.Step s.driver (.write e) d) (contract : P.contract (e.res, e.flags)) :
      Step s (s.post P (e.res, e.flags) d)
  | handle {e : Cqe} {rest : List Cqe} (next : s.driver.batch = e :: rest) :
      Step s (s.handle P e rest)

/-- A state of some run of the operation with a consumer that starts in the state `x`. -/
def Reachable (x : σ) (s : State δ σ ε) : Prop :=
  Relation.ReflTransGen (Step P) { client := x } s

/-! ### The operation without shots -/

/-- A consumer with the CQEs for which the callback was called. -/
structure Run (σ ε : Type) where
  client : σ
  stopped : Bool := false
  failure : Option ε := none
  seen : List (ℤ × ℕ) := []

/-- The callback is called for a CQE. -/
def Run.next (x : Run σ ε) (p : ℤ × ℕ) : Run σ ε :=
  let c := P.consume (P.payload x.seen p) x.stopped p.1 p.2 x.client
  { client := c.client
    stopped := x.stopped || c.stop || c.thrown.isSome
    failure := x.failure.or c.thrown
    seen := x.seen ++ [p] }

namespace Operation

/-- The callback is called for one CQE after another. -/
def run (x : σ) (l : List (ℤ × ℕ)) : Run σ ε := l.foldl (Run.next P) { client := x }

/-- The payloads of the CQEs `l` if the kernel has written the CQEs `seen` before. -/
def payloads (seen : List (ℤ × ℕ)) : List (ℤ × ℕ) → List δ
  | [] => []
  | p :: l => P.payload seen p :: payloads (seen ++ [p]) l

theorem run_append (x : σ) (l : List (ℤ × ℕ)) (p : ℤ × ℕ) :
    P.run x (l ++ [p]) = (P.run x l).next P p := by
  rw [run, run, foldl_append]
  rfl

@[simp] theorem seen_run (x : σ) (l : List (ℤ × ℕ)) : (P.run x l).seen = l := by
  induction l using List.reverseRecOn with
  | nil => rfl
  | append_singleton l p ih =>
    rw [run_append]
    exact congrArg (· ++ [p]) ih

theorem payloads_append (seen l : List (ℤ × ℕ)) (p : ℤ × ℕ) :
    P.payloads seen (l ++ [p]) = P.payloads seen l ++ [P.payload (seen ++ l) p] := by
  induction l generalizing seen with
  | nil => rw [append_nil]; rfl
  | cons q l ih =>
    rw [cons_append, payloads, payloads, ih, append_assoc]
    rfl

end Operation

/-! ### The invariant -/

/-- The fields of a request after the CQEs `l`, as far as the callback does not change them. -/
def Fields.recorded (l : List (ℤ × ℕ)) : Fields ε := l.foldl (fun f p => f.record p.1) {}

/-- The consumer, and the fields that the callback changes, are those that the CQEs `l` make of the
consumer `x`. -/
structure Follows (x : σ) (l : List (ℤ × ℕ)) (client : σ) (f : Fields ε) : Prop where
  client : client = (P.run x l).client
  stopped : f.stopped = (P.run x l).stopped
  failure : f.failure = (P.run x l).failure

/-- What the fields of the last shot have to do with the place of the coroutine. -/
def State.Settled (s : State δ σ ε) : Prop :=
  match s.phase with
  | .arming => s.shots = [] ∨ s.next P = .again
  | .shooting _ => True
  | .pausing => s.shots ≠ [] ∧ s.next P = .again
  | .returned => s.shots ≠ [] ∧ s.next P = .finish
  | .threw x => x = .code ecanceled ∧ s.canceled = true ∨ (∃ y, x = .submission y) ∨
      s.shots ≠ [] ∧ s.next P = .fail x

/-- The invariant: all shots but the one that the coroutine awaits are retired, the fields are those
of the last shot, and the consumer is the one that the CQEs of all shots make. -/
structure Sound (x : σ) (s : State δ σ ε) : Prop where
  driver : Uring.Reachable s.driver
  submitted : ∀ q ∈ s.shots, q ∈ s.driver.submitted ∧ (s.driver.request q).handler = true
  nodup : s.shots.Nodup
  shot : ∀ r, s.phase = .shooting r → s.shots.head? = some r
  retired : ∀ q ∈ s.shots, s.phase = .shooting q ∨ q ∈ s.driver.retired
  data : s.data = P.payloads s.results s.unread
  contract : ∀ p ∈ s.written, P.contract p
  fields : ∀ r, s.shots.head? = some r →
    s.fields.error = (Fields.recorded (s.driver.request r).handled : Fields ε).error ∧
    s.fields.bytes = (Fields.recorded (s.driver.request r).handled : Fields ε).bytes
  follows : Follows P x s.results s.client s.fields
  settled : s.Settled P

variable {P} {s t : State δ σ ε} {x : σ} {d : Driver}

theorem results_congr {shots : List ℕ} {d' : Driver}
    (h : ∀ q ∈ shots, (d'.request q).handled = (d.request q).handled) :
    (shots.reverse.flatMap fun r => (d'.request r).handled) =
      shots.reverse.flatMap fun r => (d.request r).handled :=
  flatMap_congr fun q hq => h q (mem_reverse.mp hq)

theorem results_of_shots {r : ℕ} {old : List ℕ} (h : s.shots = r :: old) : s.results =
    (old.reverse.flatMap fun q => (s.driver.request q).handled) ++
      (s.driver.request r).handled := by
  simp [State.results, h]

theorem unread_of_head {r : ℕ} (h : s.shots.head? = some r) : s.unread = s.driver.unseen r := by
  rw [State.unread, h]
  rfl

theorem unread_setDriver (h : ∀ r ∈ s.shots.head?, d.unseen r = s.driver.unseen r) :
    (s.setDriver d).unread = s.unread := by
  cases hhead : s.shots.head? with
  | none => simp [State.unread, State.setDriver, hhead]
  | some r => simp [State.unread, State.setDriver, hhead, h r hhead]

section

variable (hs : Sound P x s)
include hs

/-- The coroutine goes from one place to another, without an await. -/
theorem Sound.goto {p : Phase ε} (hp : ∀ r, p ≠ .shooting r)
    (hretired : ∀ q ∈ s.shots, q ∈ s.driver.retired) (hsettled : (s.goto p).Settled P) :
    Sound P x (s.goto p) :=
  { hs with
    shot := fun r h => absurd h (hp r)
    retired := fun q hq => .inr (hretired q hq)
    settled := hsettled }

/-- While the coroutine is not suspended by an await, all shots are retired. -/
theorem Sound.mem_retired (h : ∀ r, s.phase ≠ .shooting r) : ∀ q ∈ s.shots, q ∈ s.driver.retired :=
  fun q hq => (hs.retired q hq).resolve_left (h q)

theorem Sound.unread_eq_nil (h : ∀ r, s.phase ≠ .shooting r) : s.unread = [] := by
  cases hhead : s.shots.head? with
  | none =>
    rw [State.unread, hhead]
    rfl
  | some r =>
    rw [unread_of_head hhead]
    exact unseen_eq_nil_of_mem_retired hs.driver (hs.mem_retired h r (mem_of_mem_head? hhead))

/-- A consumer that waits for the next shot has not ended the operation. -/
theorem Sound.open_of_arming (h : s.phase = .arming) :
    (P.run x s.results).stopped = false ∧ (P.run x s.results).failure = none := by
  have hsettled := hs.settled
  rw [State.Settled, h] at hsettled
  rcases hsettled with hnil | hagain
  · simp [State.results, hnil, Operation.run]
  · rw [← hs.follows.stopped, ← hs.follows.failure]
    exact P.open_of_again _ _ hagain

theorem Sound.submit {r : ℕ} (phase : s.phase = .arming)
    (fresh : r ∉ s.driver.submitted) (idle : s.driver.batch = []) : Sound P x (s.submit r) := by
  have hstep : Uring.Step s.driver _ (s.submit r).driver :=
    .submit .native true false false fresh idle
  have hawait : ∀ q, s.phase ≠ .shooting q := fun q h => nomatch phase.symm.trans h
  have hshots : r ∉ s.shots := fun h => fresh (hs.submitted r h).1
  have hrequest : ∀ q ∈ s.shots, ((s.submit r).driver.request q).handler = true ∧
      ((s.submit r).driver.request q).handled = (s.driver.request q).handled := by
    intro q hq
    obtain ⟨hsub, hhandler⟩ := hs.submitted q hq
    obtain ⟨h₁, h₂, -⟩ := hstep.request_eq (fun _ => nofun) hsub
    exact ⟨h₁.trans hhandler, h₂⟩
  have hposted : (s.submit r).driver.posted r = [] := posted_submit hs.driver fresh ..
  obtain ⟨hhandled, hunseen⟩ := append_eq_nil_iff.mp hposted
  have hresults : (s.submit r).results = s.results := by
    rw [results_of_shots (s := s.submit r) rfl, hhandled, append_nil]
    exact results_congr fun q hq => (hrequest q hq).2
  have hunread : (s.submit r).unread = [] := hunseen
  have hopen := hs.open_of_arming phase
  exact
  { driver := hs.driver.tail ⟨_, hstep⟩
    submitted := by
      intro q hq
      rcases mem_cons.mp hq with rfl | hq
      · exact ⟨by simp [State.submit, Driver.submit], by simp [State.submit, Driver.submit]⟩
      · exact ⟨hstep.mem_submitted (hs.submitted q hq).1, (hrequest q hq).1⟩
    nodup := nodup_cons.mpr ⟨hshots, hs.nodup⟩
    shot := by
      rintro q ⟨⟩
      rfl
    retired := by
      intro q hq
      rcases mem_cons.mp hq with rfl | hq
      · exact .inl rfl
      · exact .inr (hstep.mem_retired (hs.mem_retired hawait q hq))
    data := by
      rw [hresults, hunread]
      refine hs.data.trans ?_
      rw [hs.unread_eq_nil hawait]
    contract := by
      intro p hp
      rw [State.written, hresults, hunread, append_nil] at hp
      exact hs.contract p (mem_append_left _ hp)
    fields := by
      rintro q ⟨⟩
      rw [hhandled]
      exact ⟨rfl, rfl⟩
    follows := by
      rw [hresults]
      exact ⟨hs.follows.client, hopen.1.symm, hopen.2.symm⟩
    settled := trivial }

/-- Steps of the driver that process no CQE of the operation. -/
theorem Sound.setDriver {a : Act} {data : List δ} (step : Uring.Step s.driver a d)
    (hhandled : ∀ q ∈ s.shots, (d.request q).handled = (s.driver.request q).handled)
    (hdata : data = P.payloads s.results (s.setDriver d).unread)
    (hcontract : ∀ p ∈ (s.setDriver d).unread, P.contract p) :
    Sound P x { s with driver := d, data := data } := by
  have hresults : ({ s with driver := d, data := data } : State δ σ ε).results = s.results :=
    results_congr hhandled
  exact
  { hs with
    driver := hs.driver.tail ⟨_, step⟩
    submitted := by
      intro q hq
      obtain ⟨hsub, hhandler⟩ := hs.submitted q hq
      exact ⟨step.mem_submitted hsub, (step.handler_eq hsub).trans hhandler⟩
    retired := fun q hq => (hs.retired q hq).imp_right step.mem_retired
    data := by
      rw [hresults]
      exact hdata
    contract := by
      intro p hp
      rw [State.written, hresults] at hp
      rcases mem_append.mp hp with hp | hp
      · exact hs.contract p (mem_append_left _ hp)
      · exact hcontract p hp
    fields := by
      intro r hr
      rw [hhandled r (mem_of_mem_head? hr)]
      exact hs.fields r hr
    follows := by
      rw [hresults]
      exact hs.follows
    settled := hs.settled }

theorem Sound.handled_eq {a : Act} (step : Uring.Step s.driver a d) (ha : ∀ e, a ≠ .handle e) :
    ∀ q ∈ s.shots, (d.request q).handled = (s.driver.request q).handled :=
  fun q hq => (step.request_eq ha (hs.submitted q hq).1).2.1

theorem Sound.other {a : Act} (step : Uring.Step s.driver a d) (ha : ∀ e, a ≠ .handle e)
    (silent : ∀ r ∈ s.shots.head?, a.posts r = []) : Sound P x (s.setDriver d) := by
  have hunread : (s.setDriver d).unread = s.unread :=
    unread_setDriver fun r hr => by rw [step.unseen_eq ha, silent r hr, append_nil]
  refine hs.setDriver step (hs.handled_eq step ha) ?_ ?_ <;> rw [hunread]
  · exact hs.data
  · exact fun p hp => hs.contract p (mem_append_right _ hp)

theorem Sound.post {e : Cqe} {r : ℕ} (head : s.shots.head? = some r)
    (tag : e.tag = .request r) (step : Uring.Step s.driver (.write e) d)
    (contract : P.contract (e.res, e.flags)) : Sound P x (s.post P (e.res, e.flags) d) := by
  have hunread : (s.setDriver d).unread = s.unread ++ [(e.res, e.flags)] := by
    rw [unread_of_head head, unread_of_head (s := s.setDriver d) head]
    refine (step.unseen_eq (fun _ => nofun) r).trans ?_
    rw [Act.posts, if_pos tag]
  refine hs.setDriver step (hs.handled_eq step fun _ => nofun) ?_ ?_ <;> rw [hunread]
  · rw [P.payloads_append, ← hs.data]
    rfl
  · intro p hp
    rcases mem_append.mp hp with hp | hp
    · exact hs.contract p (mem_append_right _ hp)
    · rw [mem_singleton.mp hp]
      exact contract

/-- The entry belongs to the last shot, and the coroutine is suspended. -/
theorem Sound.phase_of_next {e : Cqe} {rest : List Cqe} {r : ℕ} (next : s.driver.batch = e :: rest)
    (head : s.shots.head? = some r) (tag : e.tag = .request r) : s.phase = .shooting r :=
  (hs.retired r (mem_of_mem_head? head)).resolve_right
    (not_mem_retired_of_next hs.driver next (.inl tag))

end

/-! ### The hook -/

theorem Fields.called_spec (f : Fields ε) (stop : Bool) (thrown : Option ε) :
    (f.called stop thrown).error = f.error ∧ (f.called stop thrown).bytes = f.bytes ∧
    (f.called stop thrown).stopped = (f.stopped || stop || thrown.isSome) ∧
    (f.called stop thrown).failure = f.failure.or thrown := by
  cases thrown <;> cases stop <;> simp [called, fail, Fields.stop]

theorem Fields.stopped_record (f : Fields ε) (res : ℤ) : (f.record res).stopped = f.stopped := by
  rw [record]
  split_ifs <;> rfl

theorem Fields.failure_record (f : Fields ε) (res : ℤ) : (f.record res).failure = f.failure := by
  rw [record]
  split_ifs <;> rfl

theorem Fields.record_congr {f g : Fields ε} (h : f.error = g.error ∧ f.bytes = g.bytes) (res : ℤ) :
    (f.record res).error = (g.record res).error ∧ (f.record res).bytes = (g.record res).bytes := by
  rw [record, record]
  split_ifs
  · exact ⟨rfl, h.2⟩
  · exact ⟨h.1, rfl⟩

theorem Fields.recorded_append (l : List (ℤ × ℕ)) (p : ℤ × ℕ) :
    (recorded (l ++ [p]) : Fields ε) = (recorded l).record p.1 := by
  rw [recorded, foldl_append]
  rfl

theorem phase_handle (s : State δ σ ε) (e : Cqe) (rest : List Cqe) :
    (s.handle P e rest).phase = s.phase := by
  unfold State.handle State.result
  dsimp only
  split_ifs
  · split <;> rfl
  · rfl

/-- The error and the bytes of a request are those of its last CQE if the others had no error. -/
theorem Fields.recorded_concat {l : List (ℤ × ℕ)} (hl : ∀ q ∈ l, 0 ≤ q.1) (p : ℤ × ℕ) :
    (recorded (l ++ [p]) : Fields ε).error = (if p.1 < 0 then some (-p.1).toNat else none) ∧
    (0 ≤ p.1 → (recorded (l ++ [p]) : Fields ε).bytes = p.1.toNat) := by
  have herror : (recorded l : Fields ε).error = none := by
    induction l using List.reverseRecOn with
    | nil => rfl
    | append_singleton l q ih =>
      rw [recorded_append, record, if_neg (Int.not_lt.mpr (hl q mem_concat_self))]
      exact ih fun q hq => hl q (mem_append_left _ hq)
  rw [recorded_append, record]
  split_ifs with hp
  · exact ⟨rfl, fun h => absurd hp (Int.not_lt.mpr h)⟩
  · exact ⟨herror, fun _ => rfl⟩

/-- The state after the hook has been called for a CQE with the payload `y`. -/
theorem handle_eq {e : Cqe} (rest : List Cqe) {r : ℕ} {y : δ} {data : List δ}
    (head : s.shots.head? = some r) (tag : e.tag = .request r) (hdata : s.data = y :: data) :
    s.handle P e rest =
      let c := P.consume y s.fields.stopped e.res e.flags s.client
      { s with
        driver := Driver.handle { s.driver with batch := rest } e
        fields := (s.fields.record e.res).called c.stop c.thrown
        client := c.client
        data := data } := by
  rw [State.handle, if_pos ⟨r, head, tag⟩, State.result, hdata]
  dsimp only
  rw [Fields.stopped_record]

/-- The callback is called for the next CQE. -/
theorem Follows.result {l : List (ℤ × ℕ)} {client : σ} {f : Fields ε} (h : Follows P x l client f)
    (p : ℤ × ℕ) : let c := P.consume (P.payload l p) f.stopped p.1 p.2 client
    Follows P x (l ++ [p]) c.client ((f.record p.1).called c.stop c.thrown) := by
  intro c
  have hrun : P.run x (l ++ [p]) = _ := P.run_append ..
  rw [Run.next, Operation.seen_run, ← h.client, ← h.stopped, ← h.failure] at hrun
  obtain ⟨-, -, hstopped, hfailure⟩ := Fields.called_spec (f.record p.1) c.stop c.thrown
  rw [Fields.stopped_record] at hstopped
  rw [Fields.failure_record] at hfailure
  exact ⟨by rw [hrun], by rw [hrun, hstopped], by rw [hrun, hfailure]⟩

/-- The CQE moves from those that have been written to those that have been processed. -/
theorem Sound.results_handle (hs : Sound P x s) {e : Cqe} {rest : List Cqe} {r : ℕ}
    (next : s.driver.batch = e :: rest) (head : s.shots.head? = some r) (tag : e.tag = .request r) :
    let t := s.setDriver (Driver.handle { s.driver with batch := rest } e)
    (t.driver.request r).handled = (s.driver.request r).handled ++ [(e.res, e.flags)] ∧
    t.results = s.results ++ [(e.res, e.flags)] ∧ s.unread = (e.res, e.flags) :: t.unread := by
  intro t
  obtain ⟨old, hshots⟩ := List.head?_eq_some_iff.mp head
  have hhandled : ∀ q ∈ s.shots, (t.driver.request q).handled =
      (s.driver.request q).handled ++ if e.tag = .request q then [(e.res, e.flags)] else [] :=
    fun q hq => (request_handle { s.driver with batch := rest } e q).2.1 (hs.submitted q hq).2
  have hlast := hhandled r (mem_of_mem_head? head)
  rw [if_pos tag] at hlast
  refine ⟨hlast, ?_, ?_⟩
  · rw [results_of_shots (s := t) hshots, results_of_shots hshots, hlast, ← append_assoc]
    refine congrArg (· ++ _ ++ _) (results_congr fun q hq => ?_)
    have hne : r ≠ q := by
      rintro rfl
      exact (nodup_cons.mp (hshots ▸ hs.nodup)).1 hq
    rw [hhandled q (hshots ▸ mem_cons_of_mem _ hq), tag, if_neg (by simpa using hne),
      append_nil]
  · rw [unread_of_head head, unread_of_head (s := t) head, unseen_handle next, if_pos tag]
    rfl

theorem Sound.result (hs : Sound P x s) {e : Cqe} {rest : List Cqe} {r : ℕ}
    (next : s.driver.batch = e :: rest) (head : s.shots.head? = some r)
    (tag : e.tag = .request r) : Sound P x (s.handle P e rest) := by
  obtain ⟨hlast, hresults, hunread⟩ := hs.results_handle next head tag
  have hphase := hs.phase_of_next next head tag
  have hstep := Uring.Step.handle next
  have hdata := hs.data
  rw [hunread, Operation.payloads, ← hresults] at hdata
  have hfollows := hs.follows.result (e.res, e.flags)
  rw [← hresults] at hfollows
  rw [handle_eq (P := P) rest head tag hdata]
  exact
  { driver := hs.driver.tail ⟨_, hstep⟩
    submitted := by
      intro q hq
      obtain ⟨hsub, hhandler⟩ := hs.submitted q hq
      exact ⟨hstep.mem_submitted hsub, (hstep.handler_eq hsub).trans hhandler⟩
    nodup := hs.nodup
    shot := hs.shot
    retired := fun q hq => (hs.retired q hq).imp_right hstep.mem_retired
    data := rfl
    contract := by
      intro p hp
      refine hs.contract p ?_
      rw [State.written, hunread, append_cons, ← hresults]
      exact hp
    fields := by
      intro q hq
      cases head.symm.trans hq
      obtain ⟨herror, hbytes, -, -⟩ := Fields.called_spec (s.fields.record e.res)
        (P.consume _ s.fields.stopped e.res e.flags s.client).stop
        (P.consume _ s.fields.stopped e.res e.flags s.client).thrown
      rw [herror, hbytes]
      refine hlast.symm ▸ ?_
      rw [Fields.recorded_append]
      exact Fields.record_congr (hs.fields r head) e.res
    follows := hfollows
    settled := by
      rw [State.Settled, hphase]
      trivial }

theorem Sound.handle (hs : Sound P x s) {e : Cqe} {rest : List Cqe}
    (next : s.driver.batch = e :: rest) : Sound P x (s.handle P e rest) := by
  by_cases htag : ∃ r ∈ s.shots.head?, e.tag = .request r
  · obtain ⟨r, head, tag⟩ := htag
    exact hs.result next head tag
  · have hstep := Uring.Step.handle next
    have hother : ∀ q ∈ s.shots, e.tag ≠ .request q := by
      intro q hq tag
      have hphase := (hs.retired q hq).resolve_right
        (not_mem_retired_of_next hs.driver next (.inl tag))
      exact htag ⟨q, hs.shot q hphase, tag⟩
    have hunread := unread_setDriver (s := s) (d := Driver.handle { s.driver with batch := rest } e)
      fun r hr => by
        rw [unseen_handle next, if_neg (hother r (mem_of_mem_head? hr)), nil_append]
    rw [State.handle, if_neg htag]
    refine hs.setDriver hstep (fun q hq => ?_) ?_ ?_
    · rw [(request_handle { s.driver with batch := rest } e q).2.1 (hs.submitted q hq).2,
        if_neg (hother q hq), append_nil]
    · rw [hunread]
      exact hs.data
    · rw [hunread]
      exact fun p hp => hs.contract p (mem_append_right _ hp)

/-! ### Runs -/

theorem phase_resume (s : State δ σ ε) : (s.resume P).phase =
    match s.next P with
    | .finish => .returned
    | .fail y => .threw y
    | .again => if P.pauses then .pausing else .arming :=
  rfl

theorem phase_resume_eq_returned_iff : (s.resume P).phase = .returned ↔ s.next P = .finish := by
  rw [phase_resume]
  split
  · rename_i h
    exact ⟨fun _ => h, fun _ => rfl⟩
  · rename_i h
    exact ⟨nofun, fun h' => nomatch h.symm.trans h'⟩
  · rename_i h
    refine ⟨fun h' => ?_, fun h' => nomatch h.symm.trans h'⟩
    split_ifs at h'

theorem Sound.resume (hs : Sound P x s) {r : ℕ} (phase : s.phase = .shooting r)
    (done : r ∈ s.driver.retired) : Sound P x (s.resume P) := by
  have hhead := hs.shot r phase
  have hshots : s.shots ≠ [] := by
    rintro h
    rw [h] at hhead
    cases hhead
  have hretired : ∀ q ∈ s.shots, q ∈ s.driver.retired := by
    intro q hq
    rcases hs.retired q hq with h | h
    · rw [phase] at h
      cases h
      exact done
    · exact h
  refine hs.goto ?_ hretired ?_
  · intro q
    rw [Operation.settle]
    split
    · exact nofun
    · exact nofun
    · split_ifs <;> exact nofun
  · change State.Settled P { s with phase := P.settle _ _ }
    rw [Operation.settle]
    split
    · rename_i h
      exact ⟨hshots, h⟩
    · rename_i h
      exact .inr (.inr ⟨hshots, h⟩)
    · rename_i h
      split_ifs
      · exact ⟨hshots, h⟩
      · exact .inr h

theorem Sound.cancel (hs : Sound P x s) : Sound P x { s with canceled := true } := by
  have hsettled := hs.settled
  refine { hs with settled := ?_ }
  unfold State.Settled at hsettled ⊢
  dsimp only
  split at hsettled
  all_goals try exact hsettled
  exact hsettled.imp_left fun h => ⟨h.1, rfl⟩

theorem Sound.step (hs : Sound P x s) (h : Step P s t) : Sound P x t := by
  have hwait {p : Phase ε} (phase : s.phase = p) (hp : ∀ r, p ≠ .shooting r) :
      ∀ q ∈ s.shots, q ∈ s.driver.retired :=
    hs.mem_retired fun r h => hp r (phase.symm.trans h)
  cases h with
  | cancel => exact hs.cancel
  | submit phase token fresh idle => exact hs.submit phase fresh idle
  | refuse phase token =>
    rw [Operation.settle, P.after_canceled]
    exact hs.goto (fun _ => nofun) (hwait phase fun _ => nofun) (.inl ⟨rfl, token⟩)
  | @fail y phase errno =>
    rw [Operation.settle, P.after_submission y errno]
    exact hs.goto (fun _ => nofun) (hwait phase fun _ => nofun) (.inr (.inl ⟨y, rfl⟩))
  | resume phase done => exact hs.resume phase done
  | available phase =>
    have hsettled := hs.settled
    rw [State.Settled, phase] at hsettled
    exact hs.goto (fun _ => nofun) (hwait phase fun _ => nofun) (.inr hsettled.2)
  | interrupt phase token =>
    exact hs.goto (fun _ => nofun) (hwait phase fun _ => nofun) (.inl ⟨rfl, token⟩)
  | other step ha silent => exact hs.other step ha silent
  | post head tag step contract => exact hs.post head tag step contract
  | handle next => exact hs.handle next

theorem sound_init (x : σ) : Sound P x { client := x } where
  driver := .refl
  submitted := nofun
  nodup := .nil
  shot := nofun
  retired := nofun
  data := rfl
  contract := nofun
  fields := nofun
  follows := ⟨rfl, rfl, rfl⟩
  settled := .inl rfl

/-- **The invariant holds in every run.** -/
theorem Reachable.sound (h : Reachable P x s) : Sound P x s := by
  induction h with
  | refl => exact sound_init x
  | tail _ h ih => exact ih.step h

/-- **The operation ends only when no shot is left.** -/
theorem Sound.retired_of_ended (hs : Sound P x s)
    (h : s.phase = .returned ∨ ∃ y, s.phase = .threw y) :
    ∀ q ∈ s.shots, q ∈ s.driver.retired ∧ ¬s.driver.Outstanding q := by
  intro q hq
  have hretired := hs.mem_retired (fun r hr => by rcases h with h | ⟨y, h⟩ <;> cases hr ▸ h) q hq
  exact ⟨hretired, (mem_retired_iff hs.driver (hs.submitted q hq).1).mp hretired⟩

/-- From its wait for a buffer the coroutine goes on to the next await, or it was canceled. -/
theorem Step.phase_of_pausing (h : Step P s t) (phase : s.phase = .pausing) :
    t.phase = .pausing ∨ t.phase = .arming ∨
      t.phase = .threw (.code ecanceled) ∧ s.canceled = true := by
  cases h with
  | submit phase' | refuse phase' | fail phase' | resume phase' =>
    exact nomatch phase.symm.trans phase'
  | available _ => exact .inr (.inl rfl)
  | interrupt _ token => exact .inr (.inr ⟨rfl, token⟩)
  | handle next => exact .inl ((phase_handle ..).trans phase)
  | _ => exact .inl phase

/-- The next await submits a request, unless the token is canceled or the submission fails. -/
theorem Step.phase_of_arming (h : Step P s t) (phase : s.phase = .arming) :
    t.phase = .arming ∨ (∃ r, t.phase = .shooting r ∧ t.shots = r :: s.shots) ∨
      t.phase = .threw (.code ecanceled) ∧ s.canceled = true ∨
      ∃ y, t.phase = .threw (.submission y) := by
  cases h with
  | submit _ token fresh idle => exact .inr (.inl ⟨_, rfl, rfl⟩)
  | refuse _ token =>
    rw [Operation.settle, P.after_canceled]
    exact .inr (.inr (.inl ⟨rfl, token⟩))
  | @fail y _ errno =>
    rw [Operation.settle, P.after_submission y errno]
    exact .inr (.inr (.inr ⟨y, rfl⟩))
  | resume phase' | available phase' | interrupt phase' => exact nomatch phase.symm.trans phase'
  | handle next => exact .inl ((phase_handle ..).trans phase)
  | _ => exact .inl phase

/-- The last CQE of a retired shot, with what the kernel says about the others. -/
theorem Sound.exists_terminal (hs : Sound P x s) {r : ℕ} (head : s.shots.head? = some r)
    (done : r ∈ s.driver.retired) : ∃ l p, (s.driver.request r).handled = l ++ [p] ∧
      more p = false ∧ P.contract p ∧ ∀ q ∈ l, more q = true ∧ P.contract q := by
  obtain ⟨old, hshots⟩ := List.head?_eq_some_iff.mp head
  obtain ⟨l, p, hhandled, hp, hl⟩ := exists_handled_of_mem_retired hs.driver done
    (hs.submitted r (mem_of_mem_head? head)).2
  have hcontract : ∀ q ∈ l ++ [p], P.contract q := by
    intro q hq
    refine hs.contract q (mem_append_left _ ?_)
    rw [results_of_shots hshots, hhandled]
    exact mem_append_right _ hq
  exact ⟨l, p, hhandled, hp, hcontract p mem_concat_self,
    fun q hq => ⟨hl q hq, hcontract q (mem_append_left _ hq)⟩⟩

/-! ### Consumers -/

/-- What a consumer does when it is called: it returns `true` or `false`, or throws. -/
inductive Answer (ε : Type) where
  | more
  | enough
  | throws (e : ε)
  deriving DecidableEq, Repr

/-- What is kept in `failure`: an exception of the consumer, or one that the library throws before
it calls the consumer. -/
inductive Failure (ε : Type) where
  | consumer (e : ε)
  | library
  deriving DecidableEq, Repr

namespace Answer

/-- The callback calls `stop()`. -/
def stop : Answer ε → Bool
  | enough => true
  | _ => false

/-- The callback throws. -/
def thrown : Answer ε → Option (Failure ε)
  | throws e => some (.consumer e)
  | _ => none

end Answer

/-- The calls of a consumer that gives the `i`th answer when it is called for the `i`th time. After
`n` calls they go on, or they have ended with one that did not return `true`, or with an exception
of the library. The latter may come after the consumer has returned `false`, but not after it has
thrown. -/
inductive Answered (answer : ℕ → Answer ε) : ℕ → Bool → Option (Failure ε) → Prop
  | going {n : ℕ} (more : ∀ i < n, answer i = .more) : Answered answer n false none
  | ended {n : ℕ} (more : ∀ i < n, answer i = .more) (last : answer n ≠ .more) :
      Answered answer (n + 1) true (answer n).thrown
  | failed {n : ℕ} (more : ∀ i, i + 1 < n → answer i = .more)
      (quiet : ∀ i < n, ∀ e, answer i ≠ .throws e) : Answered answer n true (some .library)

namespace Answered

variable {answer : ℕ → Answer ε} {n : ℕ} {stopped : Bool} {failure : Option (Failure ε)}

/-- The consumer is called again. -/
theorem call (h : Answered answer n false none) :
    Answered answer (n + 1) ((answer n).stop || (answer n).thrown.isSome) (answer n).thrown := by
  cases h with
  | going more =>
    cases hlast : answer n with
    | more =>
      refine .going fun i hi => ?_
      rcases Nat.lt_succ_iff_lt_or_eq.mp hi with hi | rfl
      · exact more i hi
      · exact hlast
    | enough | throws e =>
      have hended := Answered.ended more (fun h => nomatch hlast.symm.trans h)
      rwa [hlast] at hended

/-- The library throws; an exception of the consumer is kept. -/
theorem fail (h : Answered answer n stopped failure) :
    Answered answer n true (failure.or (some .library)) := by
  cases h with
  | going more =>
    exact .failed (fun i hi => more i (Nat.lt_of_succ_lt hi))
      fun i hi e h => nomatch (more i hi).symm.trans h
  | @ended n more last =>
    cases hlast : answer n with
    | more => exact absurd hlast last
    | enough =>
      refine .failed (fun i hi => more i (Nat.lt_of_succ_lt_succ hi)) fun i hi e h => ?_
      rcases Nat.lt_succ_iff_lt_or_eq.mp hi with hi | rfl
      · exact nomatch (more i hi).symm.trans h
      · exact nomatch hlast.symm.trans h
    | throws e =>
      have hended := Answered.ended more last
      rwa [hlast] at hended
  | failed more quiet => exact .failed more quiet

/-- Only the last call did not return `true`. -/
theorem eq_more (h : Answered answer n stopped failure) {i : ℕ} (hi : i + 1 < n) :
    answer i = .more := by
  cases h with
  | going more => exact more i (Nat.lt_of_succ_lt hi)
  | ended more last => exact more i (Nat.lt_of_succ_lt_succ hi)
  | failed more quiet => exact more i hi

theorem failure_eq_none (h : Answered answer n false failure) : failure = none := by
  cases h
  rfl

theorem stopped_eq_false_iff (h : Answered answer n stopped failure)
    (hf : failure ≠ some .library) : stopped = false ↔ ∀ i < n, answer i = .more := by
  cases h with
  | going more => exact ⟨fun _ => more, fun _ => rfl⟩
  | ended more last => exact ⟨nofun, fun h => absurd (h _ (Nat.lt_succ_self _)) last⟩
  | failed more quiet => exact absurd rfl hf

/-- An answer other than `true` is the last one and has ended the calls, unless the library has
failed. -/
theorem of_ne_more (h : Answered answer n stopped failure) {i : ℕ} (hi : i < n)
    (hne : answer i ≠ .more) (hf : failure ≠ some .library) :
    stopped = true ∧ failure = (answer i).thrown := by
  cases h with
  | going more => exact absurd (more i hi) hne
  | ended more last =>
    rcases Nat.lt_succ_iff_lt_or_eq.mp hi with hi | rfl
    · exact absurd (more i hi) hne
    · exact ⟨rfl, rfl⟩
  | failed more quiet => exact absurd rfl hf

/-- Calls that were not ended by the library were ended by the last answer. -/
theorem exists_of_stopped (h : Answered answer n true failure) (hf : failure ≠ some .library) :
    ∃ i < n, answer i ≠ .more ∧ failure = (answer i).thrown := by
  cases h with
  | ended more last => exact ⟨_, Nat.lt_succ_self _, last, rfl⟩
  | failed more quiet => exact absurd rfl hf

/-- The consumer has returned `false`. -/
theorem exists_enough (h : Answered answer n true none) : ∃ i < n, answer i = .enough := by
  obtain ⟨i, hi, hne, hthrown⟩ := h.exists_of_stopped nofun
  refine ⟨i, hi, ?_⟩
  cases hanswer : answer i with
  | more => exact absurd hanswer hne
  | enough => rfl
  | throws e => simp [hanswer, Answer.thrown] at hthrown

theorem enough_iff (h : Answered answer n stopped failure) (hf : failure ≠ some .library) :
    stopped = true ∧ failure = none ↔ ∃ i < n, answer i = .enough := by
  constructor
  · rintro ⟨rfl, rfl⟩
    exact h.exists_enough
  · rintro ⟨i, hi, hanswer⟩
    have hlast := h.of_ne_more hi (fun h => nomatch hanswer.symm.trans h) hf
    rwa [hanswer] at hlast

/-- If the library has failed, the consumer has not thrown. -/
theorem ne_throws (h : Answered answer n stopped failure) (hf : failure = some .library) :
    ∀ i < n, ∀ e, answer i ≠ .throws e := by
  cases h with
  | going more => cases hf
  | @ended m more last => cases hlast : answer m <;> simp [hlast, Answer.thrown] at hf
  | failed more quiet => exact quiet

/-- The consumer has thrown. -/
theorem throws_iff (h : Answered answer n stopped failure) (e : ε) :
    failure = some (.consumer e) ↔ ∃ i < n, answer i = .throws e := by
  constructor
  · rintro rfl
    have hstopped : stopped = true := Bool.of_not_eq_false fun hs =>
      nomatch (hs ▸ h).failure_eq_none
    obtain ⟨i, hi, hne, hthrown⟩ := (hstopped ▸ h).exists_of_stopped nofun
    refine ⟨i, hi, ?_⟩
    cases hanswer : answer i with
    | more => exact absurd hanswer hne
    | enough => simp [hanswer, Answer.thrown] at hthrown
    | throws e' =>
      rw [hanswer] at hthrown
      cases hthrown
      rfl
  · rintro ⟨i, hi, hanswer⟩
    have hf : failure ≠ some .library := fun hf => h.ne_throws hf i hi e hanswer
    have hlast := h.of_ne_more hi (fun h => nomatch hanswer.symm.trans h) hf
    rw [hanswer] at hlast
    exact hlast.2

end Answered

end Snowy.Uring.Multishot
