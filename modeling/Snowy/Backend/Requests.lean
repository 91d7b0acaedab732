import Mathlib.Data.List.Nodup
import Mathlib.Logic.Function.Basic

/-!
# Native requests on one loop

The part of the life of a `detail::io` that all operating systems share. `await_suspend` refuses a
second request for a direction of a socket, registers the cancellation, puts the request into the
list of the loop and hands it to the operating system; `loop::complete` takes it out of the list and
queues its coroutine; `await_resume` frees the direction and reports the result; the destructor
closes an accepted descriptor that nobody has taken. What the operating system keeps is a parameter.

A request is named by a number. What C++ leaves undefined sets `fault`: a request that is not in the
list is completed, or one that is still active is destroyed.

## Main definitions

* `Snowy.Backend.Request`, `Snowy.Backend.State` : requests, and a loop with its operating system.
* `Snowy.Backend.State.enter` : `io::await_suspend` up to the submission.
* `Snowy.Backend.State.complete`, `State.awaitResume`, `State.destroy` : functions of the source.
* `Snowy.Backend.Core` : the invariant of this part.
-/

namespace Snowy.Backend

open Function List

/-- `detail::opcode`, without the requests that only Linux has. -/
inductive Opcode where
  | nop
  | read
  | write
  | accept
  | connect
  | recvFrom
  | sendTo
  | fileRead
  | fileWrite
  | fileSync
  deriving DecidableEq, Repr

/-- The directions of a socket. -/
inductive Direction where
  | reading
  | writing
  deriving DecidableEq, Repr

/-- The direction of a request. -/
def Opcode.direction : Opcode → Direction
  | .read | .accept | .recvFrom => .reading
  | _ => .writing

/-- The requests for which `socket` and `udp` pass a pointer to the flag of a direction. A
connecting socket belongs to `socket::connect` alone, and files have no directions. -/
def Opcode.reserves : Opcode → Bool
  | .read | .write | .accept | .recvFrom | .sendTo => true
  | .nop | .connect | .fileRead | .fileWrite | .fileSync => false

/-- The errors that a request reports. -/
inductive Error where
  | canceled
  | messageSize
  | notSupported
  | system (code : ℕ)
  deriving DecidableEq, Repr

/-- Where a request is: not constructed, constructed, in the list of the loop, queued, and resumed;
or `await_suspend` has refused it, because of a stop, or has thrown; or it is destroyed. -/
inductive Stage where
  | absent
  | idle
  | pending
  | ready
  | resumed
  | refused
  | thrown
  | destroyed
  deriving DecidableEq, Repr

/-- What the life of a request depends on. `completions` is a history: it counts the calls of
`loop::complete`. -/
structure Life where
  code : Opcode := .nop
  fd : ℕ := 0
  stage : Stage := .absent
  active : Bool := false
  reserved : Bool := false
  completions : ℕ := 0
  deriving DecidableEq, Repr

/-- The direction that a request uses. -/
def Life.key (q : Life) : ℕ × Direction := (q.fd, q.code.direction)

/-- The other fields of `detail::io`; `stopRequested` is the state of its token. Histories:
`effects` has the results of the system calls that succeeded for this request, and `adopted` and
`closed` say what became of an accepted descriptor. -/
structure Request extends Life where
  size : ℕ := 0
  stopRequested : Bool := false
  canceled : Bool := false
  cancelSent : Bool := false
  started : Bool := false
  error : Option Error := none
  bytes : ℕ := 0
  accepted : Option ℕ := none
  effects : List ℕ := []
  adopted : Option ℕ := none
  closed : Option ℕ := none
  deriving DecidableEq, Repr

namespace Request

variable (q : Request)

/-- The request is armed and in the list. -/
def arm : Request := { q with active := true, stage := .pending }

/-- The request is completed, and its coroutine queued. -/
def finish : Request :=
  { q with active := false, stage := .ready, completions := q.completions + 1 }

/-- The submission of the request has thrown. -/
def abandon : Request := { q with active := false, stage := .thrown }

/-- The coroutine takes the accepted descriptor. -/
def take : Request := { q with accepted := none, adopted := q.accepted }

/-- The destructor closes an accepted descriptor. -/
def destroy : Request := { q with stage := .destroyed, accepted := none, closed := q.accepted }

/-- The stop callback, if it is registered. -/
def cancel : Request := { q with stopRequested := true, canceled := q.canceled || q.active }

end Request

/-- A loop with its requests: the list `io_`, the queue of coroutines, the flags of the directions,
the flags `stopping_` and `cancel_`, and what the operating system keeps. -/
structure State (κ : Type*) where
  requests : ℕ → Request := fun _ => {}
  io : List ℕ := []
  ready : List ℕ := []
  flags : ℕ × Direction → Bool := fun _ => false
  stopping : Bool := false
  cancel : Bool := false
  fault : Bool := false
  kernel : κ

/-- How `io::await_suspend` ends: the coroutine is suspended, goes on at once, or an exception is
thrown because the direction is in use or because the submission has failed. -/
inductive Verdict where
  | suspended
  | resumed
  | inUse
  | failed
  deriving DecidableEq, Repr

namespace State

variable {κ : Type*} (s : State κ) (r : ℕ)

/-- A request changes. -/
def modify (f : Request → Request) : State κ :=
  { s with requests := update s.requests r (f (s.requests r)) }

/-- What the operating system keeps changes. -/
def setKernel (kernel : κ) : State κ := { s with kernel }

/-- An assignment to `*busy`. -/
def setFlag (k : ℕ × Direction) (b : Bool) : State κ :=
  { s with flags := update s.flags k b }

/-- The constructor of `detail::io`. -/
def construct (code : Opcode) (fd size : ℕ) : State κ :=
  s.modify r fun _ => { code, fd, size, stage := .idle }

/-- `loop::arm` refuses the request: the loop or its token is stopped. -/
def refuse : State κ :=
  s.modify r fun q => { q with error := some .canceled, stage := .refused }

/-- `if (busy) { *busy = true; reserved = true; }` -/
def reserve : State κ :=
  if (s.requests r).code.reserves then
    (s.setFlag (s.requests r).key true).modify r fun q => { q with reserved := true }
  else s

/-- `if (reserved) { *busy = false; reserved = false; }` -/
def release : State κ :=
  if (s.requests r).reserved then
    (s.setFlag (s.requests r).key false).modify r fun q => { q with reserved := false }
  else s

/-- The request is armed and put at the head of the list. -/
def link : State κ :=
  { (s.modify r Request.arm).reserve r with io := r :: s.io }

/-- `io::await_suspend` up to the submission: it ends there, or the request is in the list. -/
def enter : Except (Verdict × State κ) (State κ) :=
  if (s.requests r).code.reserves && s.flags (s.requests r).key then .error (.inUse, s)
  else if s.stopping || (s.requests r).stopRequested then .error (.resumed, s.refuse r)
  else .ok (s.link r)

/-- A read or write of no bytes is not submitted. -/
def isEmpty : Bool :=
  (s.requests r).size == 0 && ((s.requests r).code == .read || (s.requests r).code == .write)

/-- `loop::complete`. -/
def complete : State κ :=
  if r ∈ s.io then
    { s.modify r Request.finish with io := s.io.erase r, ready := s.ready ++ [r] }
  else { s with fault := true }

/-- The request ends with an error. -/
def fail (e : Error) : State κ := (s.modify r fun q => { q with error := some e }).complete r

/-- The handler in `io::await_suspend` for a submission that throws: the request is at the head of
the list. -/
def abandon : State κ :=
  { s.modify r Request.abandon with io := s.io.tail }

/-- `io::await_suspend` with the function that submits the request, whose result is an error if it
throws. -/
def awaitSuspend (submit : State κ → Option (Except (State κ) (State κ))) :
    Option (Verdict × State κ) :=
  match s.enter r with
  | .error v => some v
  | .ok t =>
    if t.isEmpty r then some (.suspended, t.complete r)
    else match submit t with
      | none => none
      | some (.error u) => some (.failed, u.abandon r)
      | some (.ok u) => some (.suspended, u)

/-- The loop over the list in `loop::expire`, with the function that cancels a request. The next
request is read before the function is called. -/
def scan (cancel : State κ → ℕ → Option (Except (State κ) (State κ))) (all : Bool) :
    List ℕ → State κ → Option (Except (State κ) (State κ))
  | [], s => some (.ok s)
  | r :: rs, s =>
    if !(s.requests r).cancelSent && (all || (s.requests r).canceled) then
      match cancel s r with
      | none => none
      | some (.error t) => some (.error t)
      | some (.ok t) => scan cancel all rs t
    else scan cancel all rs s

/-- The part of `loop::expire` that concerns the requests. -/
def expire (cancel : State κ → ℕ → Option (Except (State κ) (State κ))) :
    Option (Except (State κ) (State κ)) :=
  if s.cancel then scan cancel s.stopping s.io { s with cancel := false } else some (.ok s)

/-- A coroutine is taken from the queue, and `io::await_resume` runs in it. -/
def awaitResume : State κ :=
  { (s.release r).modify r fun q => { q with stage := .resumed } with ready := s.ready.erase r }

/-- `std::exchange(op.accepted, invalid_socket)` in `socket::accept`, after an await that
succeeds. -/
def takeAccepted : State κ := s.modify r Request.take

/-- `io::~io`, and `op::~op` after it. -/
def destroy : State κ :=
  if (s.requests r).active then { s with fault := true }
  else (s.release r).modify r Request.destroy

/-- `cancel_fn`, which runs if the request has registered its callback. -/
def requestStop : State κ :=
  { s.modify r Request.cancel with cancel := s.cancel || (s.requests r).active }

/-- `loop::stop`. -/
def stop : State κ := { s with stopping := true, cancel := true }

end State

/-- The steps in which the operating system takes no part: of the code that runs on the loop, and of
the threads that request a stop. A coroutine keeps the request alive while it is suspended in it, so
that `destroy` finds the request neither in the list nor in the queue: this is an assumption about
the users of `detail::io`, on which it rests that no request is destroyed while it is active. -/
inductive Move {κ : Type*} (s : State κ) : State κ → Prop
  | construct (r : ℕ) (code : Opcode) (fd size : ℕ) (hr : (s.requests r).stage = .absent) :
      Move s (s.construct r code fd size)
  | awaitResume {r : ℕ} {l : List ℕ} (hr : s.ready = r :: l) : Move s (s.awaitResume r)
  | takeAccepted {r : ℕ} (hr : (s.requests r).stage = .resumed) (he : (s.requests r).error = none)
      (ha : (s.requests r).accepted.isSome) : Move s (s.takeAccepted r)
  | destroy {r : ℕ} (hr : (s.requests r).stage = .idle ∨ (s.requests r).stage = .refused ∨
      (s.requests r).stage = .thrown ∨ (s.requests r).stage = .resumed) : Move s (s.destroy r)
  | requestStop (r : ℕ) : Move s (s.requestStop r)
  | stop : Move s s.stop

/-! ### The invariant -/

/-- The shapes of the life of a request: it is active while it is in the list, its direction is
reserved until it is resumed, and it was completed once if its coroutine was queued. -/
inductive Life.Sound : Life → Prop
  | unused (code : Opcode) (fd : ℕ) {stage : Stage}
      (hs : stage = .absent ∨ stage = .idle ∨ stage = .refused) : Sound { code, fd, stage }
  | pending (code : Opcode) (fd : ℕ) :
      Sound { code, fd, stage := .pending, active := true, reserved := code.reserves }
  | ready (code : Opcode) (fd : ℕ) :
      Sound { code, fd, stage := .ready, reserved := code.reserves, completions := 1 }
  | resumed (code : Opcode) (fd : ℕ) : Sound { code, fd, stage := .resumed, completions := 1 }
  | thrown (code : Opcode) (fd : ℕ) (reserved : Bool) :
      Sound { code, fd, stage := .thrown, reserved }
  | destroyed (code : Opcode) (fd : ℕ) {n : ℕ} (hn : n ≤ 1) :
      Sound { code, fd, stage := .destroyed, completions := n }

/-- The list has the requests that are pending, the queue those that are ready, and a direction is
reserved by one request at a time. -/
structure Core {κ : Type*} (s : State κ) : Prop where
  fault : s.fault = false
  io : s.io.Nodup
  ready : s.ready.Nodup
  pending : ∀ r, r ∈ s.io ↔ (s.requests r).stage = .pending
  queued : ∀ r, r ∈ s.ready ↔ (s.requests r).stage = .ready
  life : ∀ r, (s.requests r).Sound
  flag : ∀ r, (s.requests r).reserved = true → s.flags (s.requests r).key = true
  alone : ∀ r r', (s.requests r).reserved = true → (s.requests r').reserved = true →
    (s.requests r).key = (s.requests r').key → r = r'

variable {κ : Type*} {s s' : State κ} {r : ℕ}

namespace State

@[simp] theorem requests_modify (f : Request → Request) (i : ℕ) :
    (s.modify r f).requests i = if i = r then f (s.requests r) else s.requests i := by
  simp [modify, update_apply]

theorem toLife_modify (f : Request → Request) (i : ℕ) :
    ((s.modify r f).requests i).toLife =
      if i = r then (f (s.requests r)).toLife else (s.requests i).toLife := by
  rw [requests_modify]
  split_ifs <;> rfl

@[simp] theorem flags_setFlag (k : ℕ × Direction) (b : Bool) (i : ℕ × Direction) :
    (s.setFlag k b).flags i = if i = k then b else s.flags i := by
  simp [setFlag, update_apply]

@[simp] theorem requests_setFlag (k : ℕ × Direction) (b : Bool) :
    (s.setFlag k b).requests = s.requests := rfl

@[simp] theorem flags_modify (f : Request → Request) : (s.modify r f).flags = s.flags := rfl

theorem requests_reserve (i : ℕ) :
    (s.reserve r).requests i =
      if i = r then
        { s.requests r with reserved := (s.requests r).code.reserves || (s.requests r).reserved }
      else s.requests i := by
  unfold reserve
  cases hc : (s.requests r).code.reserves <;> simp
  rintro rfl
  rfl

theorem flags_reserve (k : ℕ × Direction) :
    (s.reserve r).flags k =
      if (s.requests r).code.reserves = true ∧ k = (s.requests r).key then true
      else s.flags k := by
  unfold reserve
  cases hc : (s.requests r).code.reserves <;> simp

theorem requests_release (i : ℕ) :
    (s.release r).requests i =
      if i = r then { s.requests r with reserved := false } else s.requests i := by
  unfold release
  cases hc : (s.requests r).reserved <;> simp
  rintro rfl
  rw [← hc]

theorem flags_release (k : ℕ × Direction) :
    (s.release r).flags k =
      if (s.requests r).reserved = true ∧ k = (s.requests r).key then false
      else s.flags k := by
  unfold release
  cases hc : (s.requests r).reserved <;> simp

/-- `reserve` and `release` leave the queues alone. -/
theorem reserve_rest : (s.reserve r).io = s.io ∧ (s.reserve r).ready = s.ready ∧
    (s.reserve r).fault = s.fault ∧ (s.reserve r).kernel = s.kernel := by
  unfold reserve
  split_ifs <;> exact ⟨rfl, rfl, rfl, rfl⟩

theorem release_rest : (s.release r).io = s.io ∧ (s.release r).ready = s.ready ∧
    (s.release r).fault = s.fault ∧ (s.release r).kernel = s.kernel := by
  unfold release
  split_ifs <;> exact ⟨rfl, rfl, rfl, rfl⟩

theorem requests_link (i : ℕ) :
    (s.link r).requests i =
      if i = r then
        { (s.requests r).arm with
          reserved := (s.requests r).code.reserves || (s.requests r).reserved }
      else s.requests i := by
  have hi : (s.link r).requests i = _ := (s.modify r Request.arm).requests_reserve (r := r) i
  rw [hi, requests_modify, requests_modify, if_pos rfl]
  split_ifs <;> rfl

theorem kernel_link : (s.link r).kernel = s.kernel :=
  ((s.modify r Request.arm).reserve_rest (r := r)).2.2.2

theorem requests_awaitResume (i : ℕ) :
    (s.awaitResume r).requests i =
      if i = r then { s.requests r with reserved := false, stage := .resumed }
      else s.requests i := by
  change ((s.release r).modify r fun q => { q with stage := .resumed }).requests i = _
  rw [requests_modify, requests_release, requests_release, if_pos rfl]
  split_ifs <;> rfl

theorem requests_destroy (ha : (s.requests r).active = false) (i : ℕ) :
    (s.destroy r).requests i =
      if i = r then { (s.requests r).destroy with reserved := false } else s.requests i := by
  rw [destroy, if_neg (by simp [ha]), requests_modify, requests_release, requests_release,
    if_pos rfl]
  split_ifs <;> rfl

theorem destroy_rest (ha : (s.requests r).active = false) :
    (s.destroy r).io = s.io ∧ (s.destroy r).ready = s.ready ∧ (s.destroy r).fault = s.fault ∧
      (s.destroy r).kernel = s.kernel := by
  rw [destroy, if_neg (by simp [ha])]
  exact s.release_rest

theorem requests_complete (hr : r ∈ s.io) (i : ℕ) :
    (s.complete r).requests i = if i = r then (s.requests r).finish else s.requests i := by
  rw [complete, if_pos hr]
  exact s.requests_modify Request.finish i

theorem kernel_complete (hr : r ∈ s.io) : (s.complete r).kernel = s.kernel := by
  rw [complete, if_pos hr]
  rfl

theorem io_complete (hr : r ∈ s.io) : (s.complete r).io = s.io.erase r := by
  rw [complete, if_pos hr]

end State

namespace Life.Sound

variable {q : Life}

section

variable (h : q.Sound)
include h

theorem active_eq_false (hq : q.stage ≠ .pending) : q.active = false := by
  cases h with
  | pending => exact absurd rfl hq
  | _ => rfl

theorem reserved_eq_false (hq : q.stage = .idle) : q.reserved = false := by
  cases h with
  | unused => rfl
  | _ => cases hq

theorem reserved_of_pending (hq : q.stage = .pending) : q.reserved = q.code.reserves := by
  cases h with
  | unused _ _ hs => rcases hs with rfl | rfl | rfl <;> cases hq
  | pending => rfl
  | _ => cases hq

theorem completions_le : q.completions ≤ 1 := by
  cases h with
  | ready | resumed => exact Nat.le_refl 1
  | destroyed _ _ hn => exact hn
  | _ => exact Nat.zero_le 1

theorem completions_eq_one (hq : q.stage = .ready ∨ q.stage = .resumed) : q.completions = 1 := by
  cases h with
  | unused _ _ hs => rcases hs with rfl | rfl | rfl <;> rcases hq with hq | hq <;> cases hq
  | ready | resumed => rfl
  | _ => rcases hq with hq | hq <;> cases hq

theorem refuse (hq : q.stage = .idle) : Life.Sound { q with stage := .refused } := by
  cases h with
  | unused code fd _ => exact .unused code fd (.inr (.inr rfl))
  | _ => cases hq

theorem link (hq : q.stage = .idle) : Life.Sound
    { q with active := true, stage := .pending, reserved := q.code.reserves } := by
  cases h with
  | unused code fd _ => exact .pending code fd
  | _ => cases hq

theorem finish (hq : q.stage = .pending) : Life.Sound
    { q with active := false, stage := .ready, completions := q.completions + 1 } := by
  cases h with
  | unused _ _ hs => rcases hs with rfl | rfl | rfl <;> cases hq
  | pending code fd => exact .ready code fd
  | _ => cases hq

theorem resume (hq : q.stage = .ready) :
    Life.Sound { q with reserved := false, stage := .resumed } := by
  cases h with
  | unused _ _ hs => rcases hs with rfl | rfl | rfl <;> cases hq
  | ready code fd => exact .resumed code fd
  | _ => cases hq

theorem destroy (hq : q.stage ≠ .pending) :
    Life.Sound { q with reserved := false, stage := .destroyed } := by
  have hle := h.completions_le
  cases h with
  | pending => exact absurd rfl hq
  | _ => exact .destroyed _ _ hle

end

end Life.Sound

theorem mem_ite {l : List ℕ} {P : Prop} (hr : r ∉ l) (hP : ¬P) (i : ℕ) :
    i ∈ l ↔ if i = r then P else i ∈ l := by
  split_ifs with hi
  · exact iff_of_false (hi ▸ hr) hP
  · rfl

namespace Core

section

variable (h : Core s)
include h

theorem not_mem_io (hr : (s.requests r).stage ≠ .pending) : r ∉ s.io :=
  fun hmem => hr ((h.pending r).mp hmem)

theorem not_mem_ready (hr : (s.requests r).stage ≠ .ready) : r ∉ s.ready :=
  fun hmem => hr ((h.queued r).mp hmem)

/-- A step that leaves the lives of the requests alone. -/
theorem congr (hf : s'.fault = s.fault) (hi : s'.io = s.io) (hr : s'.ready = s.ready)
    (hg : s'.flags = s.flags) (hl : ∀ i, (s'.requests i).toLife = (s.requests i).toLife) :
    Core s' where
  fault := hf.trans h.fault
  io := hi ▸ h.io
  ready := hr ▸ h.ready
  pending i := by rw [hi, h.pending, hl]
  queued i := by rw [hr, h.queued, hl]
  life i := by rw [hl]; exact h.life i
  flag i := by rw [hg, hl]; exact h.flag i
  alone i j := by rw [hl, hl]; exact h.alone i j

/-- A request changes in fields that its life does not depend on. -/
theorem modify {f : Request → Request} (hf : ∀ q, (f q).toLife = q.toLife) :
    Core (s.modify r f) := by
  refine h.congr rfl rfl rfl rfl fun i => ?_
  rw [State.requests_modify]
  split_ifs with hi
  · rw [hi, hf]
  · rfl

/-- One request changes its life, and gets no reservation that it did not have. -/
theorem of_life {q : Life} (hq : q.Sound) (hf : s'.fault = s.fault)
    (hl : ∀ i, (s'.requests i).toLife = if i = r then q else (s.requests i).toLife)
    (hio : s'.io.Nodup) (hready : s'.ready.Nodup)
    (hp : ∀ i, i ∈ s'.io ↔ if i = r then q.stage = .pending else i ∈ s.io)
    (hd : ∀ i, i ∈ s'.ready ↔ if i = r then q.stage = .ready else i ∈ s.ready)
    (hres : q.reserved = true → (s.requests r).reserved = true ∧ q.key = (s.requests r).key)
    (hg : ∀ i, i ≠ r ∨ q.reserved = true → (s.requests i).reserved = true →
      s'.flags (s.requests i).key = true) : Core s' where
  fault := hf.trans h.fault
  io := hio
  ready := hready
  pending i := by
    rw [hp, hl]
    split_ifs
    · rfl
    · exact h.pending i
  queued i := by
    rw [hd, hl]
    split_ifs
    · rfl
    · exact h.queued i
  life i := by
    rw [hl]
    split_ifs
    · exact hq
    · exact h.life i
  flag i := by
    rw [hl]
    split_ifs with hi
    · intro hv
      rw [(hres hv).2]
      exact hg r (.inr hv) (hres hv).1
    · exact hg i (.inl hi)
  alone i j := by
    -- a reservation of the changed request is one that it had
    have hold : ∀ i, (s'.requests i).reserved = true →
        (s.requests i).reserved = true ∧ (s'.requests i).key = (s.requests i).key := by
      intro i
      rw [hl]
      split_ifs with hi
      · rw [hi]; exact hres
      · exact fun hv => ⟨hv, rfl⟩
    intro hi hj hij
    obtain ⟨hi, hki⟩ := hold i hi
    obtain ⟨hj, hkj⟩ := hold j hj
    exact h.alone i j hi hj (hki.symm.trans (hij.trans hkj))

theorem construct (hr : (s.requests r).stage = .absent) (code : Opcode)
    (fd size : ℕ) : Core (s.construct r code fd size) := by
  refine h.of_life (r := r) (q := { code, fd, stage := .idle }) (.unused code fd (.inr (.inl rfl)))
    rfl (fun i => ?_) h.io h.ready (mem_ite (h.not_mem_io (by simp [hr])) nofun)
    (mem_ite (h.not_mem_ready (by simp [hr])) nofun) nofun fun i _ hi => h.flag i hi
  rw [State.construct, State.requests_modify]
  split_ifs <;> rfl

theorem refuse (hr : (s.requests r).stage = .idle) : Core (s.refuse r) := by
  refine h.of_life (r := r) (q := { (s.requests r).toLife with stage := .refused })
    ((h.life r).refuse hr) rfl (fun i => ?_) h.io h.ready
    (mem_ite (h.not_mem_io (by simp [hr])) nofun)
    (mem_ite (h.not_mem_ready (by simp [hr])) nofun) (fun hv => ⟨hv, rfl⟩)
    fun i _ hi => h.flag i hi
  rw [State.refuse, State.requests_modify]
  split_ifs <;> rfl

/-- The request is put into the list. Its direction was free. -/
theorem link (hr : (s.requests r).stage = .idle)
    (hk : (s.requests r).code.reserves = true → s.flags (s.requests r).key = false) :
    Core (s.link r) := by
  have hlife := h.life r
  obtain ⟨-, hready, hfault, -⟩ := (s.modify r Request.arm).reserve_rest (r := r)
  have hI : (s.link r).io = r :: s.io := rfl
  have hL : ∀ i, ((s.link r).requests i).toLife = if i = r then
      { (s.requests r).toLife with
        active := true, stage := .pending, reserved := (s.requests r).code.reserves }
      else (s.requests i).toLife := fun i => by
    rw [State.requests_link, hlife.reserved_eq_false hr, Bool.or_false]
    split_ifs <;> rfl
  have hF : ∀ k, (s.link r).flags k =
      if (s.requests r).code.reserves = true ∧ k = (s.requests r).key then true else s.flags k :=
    fun k => by
      have hflags := (s.modify r Request.arm).flags_reserve (r := r) k
      rw [State.requests_modify, if_pos rfl] at hflags
      exact hflags
  -- a request with the same direction would have set its flag
  have hfree : ∀ i, (s.requests i).reserved = true → (s.requests r).code.reserves = true →
      (s.requests i).key ≠ (s.requests r).key := by
    intro i hi hc hkey
    have hflag := h.flag i hi
    rw [hkey, hk hc] at hflag
    cases hflag
  constructor
  case fault => exact hfault.trans h.fault
  case io => exact nodup_cons.mpr ⟨h.not_mem_io (by simp [hr]), h.io⟩
  case ready => exact hready ▸ h.ready
  case pending =>
    intro i
    rw [hI, hL, mem_cons]
    split_ifs with hi
    · exact iff_of_true (.inl hi) rfl
    · rw [or_iff_right hi, h.pending]
  case queued =>
    intro i
    change i ∈ ((s.modify r Request.arm).reserve r).ready ↔ _
    rw [hready, hL]
    change i ∈ s.ready ↔ _
    rw [h.queued]
    split_ifs with hi
    · rw [hi, hr]
      exact iff_of_false nofun nofun
    · rfl
  case life =>
    intro i
    rw [hL]
    split_ifs
    · exact hlife.link hr
    · exact h.life i
  case flag =>
    intro i hi
    rw [hL] at hi ⊢
    rw [hF]
    split_ifs at hi ⊢ with hir hkey hkey
    · rfl
    · exact absurd ⟨hi, rfl⟩ hkey
    · rfl
    · exact h.flag i hi
  case alone =>
    intro i j hi hj hij
    rw [hL] at hi hj
    rw [hL, hL] at hij
    split_ifs at hi hj hij with hir hjr hjr
    · rw [hir, hjr]
    · exact absurd hij.symm (hfree j hj hi)
    · exact absurd hij (hfree i hi hj)
    · exact h.alone i j hi hj hij

/-- `loop::complete` of a request in the list. -/
theorem complete (hr : r ∈ s.io) : Core (s.complete r) := by
  have hp := (h.pending r).mp hr
  have hno : r ∉ s.ready := h.not_mem_ready (by simp [hp])
  rw [State.complete, if_pos hr]
  refine h.of_life (q := (s.requests r).finish.toLife) ((h.life r).finish hp) rfl
    (s.toLife_modify Request.finish) (h.io.erase r) ?_ (fun i => ?_) (fun i => ?_)
    (fun hv => ⟨hv, rfl⟩) fun i _ hi => h.flag i hi
  · exact List.Nodup.append h.ready (nodup_singleton r) (by simpa using hno)
  · rw [h.io.mem_erase_iff]
    split_ifs with hi
    · exact iff_of_false (fun hne => hne.1 hi) nofun
    · exact and_iff_right hi
  · rw [mem_append, mem_singleton]
    split_ifs with hi
    · exact iff_of_true (.inr hi) rfl
    · exact or_iff_left hi

/-- The direction of a request is released with a change of its stage. -/
theorem release {f : Request → Request} {l : List ℕ}
    (hr : (s.requests r).stage ≠ .pending) (hq : (f { s.requests r with reserved := false }).Sound)
    (hv : ∀ q, (f q).reserved = q.reserved)
    (hs : (f { s.requests r with reserved := false }).stage ≠ .pending ∧
      (f { s.requests r with reserved := false }).stage ≠ .ready)
    (hd : l.Nodup) (hm : ∀ i, i ∈ l ↔ i ≠ r ∧ i ∈ s.ready) :
    Core { (s.release r).modify r f with ready := l } := by
  obtain ⟨hio, -, hfault, -⟩ := s.release_rest (r := r)
  refine h.of_life (r := r) hq hfault (fun i => ?_) ?_ hd (fun i => ?_) (fun i => ?_) ?_ ?_
  · change (((s.release r).modify r f).requests i).toLife = _
    rw [State.requests_modify, State.requests_release, State.requests_release, if_pos rfl]
    split_ifs <;> rfl
  · change (s.release r).io.Nodup
    rw [hio]
    exact h.io
  · change i ∈ (s.release r).io ↔ _
    rw [hio]
    exact mem_ite (h.not_mem_io hr) hs.1 i
  · rw [hm]
    split_ifs with hi
    · exact iff_of_false (fun hne => hne.1 hi) hs.2
    · exact and_iff_right hi
  · rw [hv]
    simp
  · intro i hi hvi
    change (s.release r).flags _ = true
    rw [State.flags_release, if_neg]
    · exact h.flag i hvi
    · rintro ⟨hvr, hk⟩
      rcases hi with hi | hi
      · exact hi (h.alone i r hvi hvr hk)
      · rw [hv] at hi
        cases hi

/-- A coroutine is taken from the queue. -/
theorem awaitResume (hr : r ∈ s.ready) : Core (s.awaitResume r) := by
  have hp := (h.queued r).mp hr
  exact h.release (by simp [hp]) ((h.life r).resume hp) (fun _ => rfl) (by simp) (h.ready.erase r)
    fun i => h.ready.mem_erase_iff

/-- A request is destroyed before its await or after it. -/
theorem destroy (hr : (s.requests r).stage ≠ .pending ∧ (s.requests r).stage ≠ .ready) :
    Core (s.destroy r) := by
  have ha := (h.life r).active_eq_false hr.1
  have hno : r ∉ s.ready := h.not_mem_ready hr.2
  rw [State.destroy, if_neg (by simp [ha])]
  have hd := h.release (r := r) (f := Request.destroy) (l := s.ready) hr.1
    ((h.life r).destroy hr.1) (fun _ => rfl) (by simp [Request.destroy]) h.ready fun i =>
      ⟨fun hi => ⟨fun he => hno (he ▸ hi), hi⟩, And.right⟩
  refine hd.congr rfl rfl ?_ rfl fun _ => rfl
  exact (s.release_rest (r := r)).2.1

theorem requestStop : Core (s.requestStop r) :=
  (h.modify (r := r) (f := Request.cancel) fun _ => rfl).congr rfl rfl rfl rfl fun _ => rfl

theorem stop : Core s.stop := h.congr rfl rfl rfl rfl fun _ => rfl

theorem setKernel (k : κ) : Core (s.setKernel k) :=
  h.congr rfl rfl rfl rfl fun _ => rfl

end

theorem init (k : κ) : Core ({ kernel := k } : State κ) where
  fault := rfl
  io := nodup_nil
  ready := nodup_nil
  pending _ := by simp
  queued _ := by simp
  life _ := .unused _ _ (.inl rfl)
  flag _ := by simp
  alone _ _ := by simp

end Core

/-! ### What the shared steps do to one request -/

/-- What a request may become in a step in which the operating system takes no part. -/
inductive Request.Moves (q : Request) : Request → Prop
  | refl : Moves q q
  | construct (code : Opcode) (fd size : ℕ) (hq : q.stage = .absent) :
      Moves q { code, fd, size, stage := .idle }
  | resume (hq : q.stage = .ready) : Moves q { q with reserved := false, stage := .resumed }
  | take (hq : q.stage = .resumed) (ha : q.accepted.isSome) : Moves q q.take
  | destroy (hq : q.stage = .idle ∨ q.stage = .refused ∨ q.stage = .thrown ∨ q.stage = .resumed) :
      Moves q { q.destroy with reserved := false }
  | cancel : Moves q q.cancel

/-- A pending request can only be marked. -/
theorem Request.Moves.pending {q q' : Request} (h : q.Moves q') (hq : q.stage = .pending) :
    q' = q ∨ q' = q.cancel := by
  cases h with
  | refl => exact .inl rfl
  | cancel => exact .inr rfl
  | construct _ _ _ h | resume h | take h _ | destroy h => rw [hq] at h; simp at h

theorem Request.Moves.ite {q : Request} {i : ℕ} (h : (s.requests r).Moves q)
    (hi : s'.requests i = if i = r then q else s.requests i) :
    (s.requests i).Moves (s'.requests i) := by
  rw [hi]
  split_ifs with he
  · rw [he]; exact h
  · exact .refl

/-- A step in which the operating system takes no part leaves the list and the operating system
alone. -/
theorem Move.spec (hm : Move s s') (h : Core s) :
    Core s' ∧ s'.io = s.io ∧ s'.kernel = s.kernel ∧ ∀ i, (s.requests i).Moves (s'.requests i) := by
  cases hm with
  | construct r code fd size hr =>
    exact ⟨h.construct hr code fd size, rfl, rfl, fun i =>
      .ite (.construct code fd size hr) (State.requests_modify _ i)⟩
  | @awaitResume r l hr =>
    have hmem : r ∈ s.ready := by rw [hr]; exact mem_cons_self
    obtain ⟨hio, -, -, hk⟩ := s.release_rest (r := r)
    exact ⟨h.awaitResume hmem, hio, hk, fun i =>
      .ite (.resume ((h.queued r).mp hmem)) (s.requests_awaitResume i)⟩
  | takeAccepted hr _ ha =>
    exact ⟨h.modify fun _ => rfl, rfl, rfl, fun i =>
      .ite (.take hr ha) (State.requests_modify Request.take i)⟩
  | @destroy r hr =>
    have hne : (s.requests r).stage ≠ .pending ∧ (s.requests r).stage ≠ .ready := by
      rcases hr with hr | hr | hr | hr <;> simp [hr]
    have ha := (h.life r).active_eq_false hne.1
    obtain ⟨hio, -, -, hk⟩ := State.destroy_rest ha
    exact ⟨h.destroy hne, hio, hk, fun i => .ite (.destroy hr) (State.requests_destroy ha i)⟩
  | requestStop r =>
    exact ⟨h.requestStop, rfl, rfl, fun i => .ite .cancel (State.requests_modify Request.cancel i)⟩
  | stop => exact ⟨h.stop, rfl, rfl, fun _ => .refl⟩

/-- What became of an accepted descriptor: it is kept, taken or closed, and it is one of the last
two when the request is destroyed. -/
structure Request.Descriptors (q : Request) : Prop where
  kept : q.code = .accept →
    q.effects = q.accepted.toList ++ q.adopted.toList ++ q.closed.toList
  others : q.code ≠ .accept → q.accepted = none
  once : q.effects.length ≤ 1
  unclosed : q.stage ≠ .destroyed → q.closed = none
  gone : q.stage = .destroyed → q.accepted = none

namespace Request.Descriptors

variable {q q' : Request}

/-- The descriptors depend on these fields only. -/
theorem congr (h : q.Descriptors) (hc : q'.code = q.code) (he : q'.effects = q.effects)
    (ha : q'.accepted = q.accepted) (hb : q'.adopted = q.adopted) (hd : q'.closed = q.closed)
    (hs : q.stage ≠ .destroyed ∧ q'.stage ≠ .destroyed) : q'.Descriptors where
  kept := by rw [hc, he, ha, hb, hd]; exact h.kept
  others := by rw [hc, ha]; exact h.others
  once := by rw [he]; exact h.once
  unclosed _ := by rw [hd]; exact h.unclosed hs.1
  gone hg := (hs.2 hg).elim

/-- A request with nothing to its name gets the first descriptor. -/
theorem store (h : q.Descriptors) (he : q.effects = []) (hs : q.stage ≠ .destroyed) (n : ℕ)
    (hc : q'.code = q.code) (hn : q'.effects = [n])
    (ha : q'.accepted = if q.code = .accept then some n else q.accepted)
    (hb : q'.adopted = q.adopted) (hd : q'.closed = q.closed) (hs' : q'.stage ≠ .destroyed) :
    q'.Descriptors where
  kept hq := by
    rw [hc] at hq
    have hk := h.kept hq
    have hb' : q.adopted = none := by
      cases hb' : q.adopted with
      | none => rfl
      | some m => simp [he, hb'] at hk
    rw [hn, ha, if_pos hq, hb, hd, hb', h.unclosed hs]
    rfl
  others hq := by
    rw [hc] at hq
    rw [ha, if_neg hq]
    exact h.others hq
  once := by rw [hn]; simp
  unclosed _ := by rw [hd]; exact h.unclosed hs
  gone hg := (hs' hg).elim

theorem take (h : q.Descriptors) (hq : q.stage = .resumed) (ha : q.accepted.isSome) :
    q.take.Descriptors := by
  obtain ⟨n, hn⟩ := Option.isSome_iff_exists.mp ha
  have hcl := h.unclosed (by simp [hq])
  refine ⟨fun hc => ?_, fun _ => rfl, h.once, fun _ => hcl, fun _ => rfl⟩
  have hk := h.kept hc
  rw [hn, hcl] at hk
  have hb : q.adopted = none := by
    cases hb : q.adopted with
    | none => rfl
    | some m =>
      have := h.once
      simp [hk, hb] at this
  change q.effects = [] ++ q.accepted.toList ++ q.closed.toList
  rw [hk, hn, hcl, hb]
  rfl

theorem destroy (h : q.Descriptors) (hq : q.stage ≠ .destroyed) (v : Bool) :
    Request.Descriptors { q.destroy with reserved := v } := by
  refine ⟨fun hc => ?_, fun _ => rfl, h.once, fun hd => (hd rfl).elim, fun _ => rfl⟩
  have hk := h.kept hc
  rw [h.unclosed hq] at hk
  have honce := h.once
  change q.effects = [] ++ q.adopted.toList ++ q.accepted.toList
  rw [hk]
  cases ha : q.accepted <;> cases hb : q.adopted <;> simp [ha, hb, hk] at honce ⊢

/-- The shared steps keep the descriptors. -/
theorem move (h : q.Descriptors) (hm : q.Moves q') : q'.Descriptors := by
  cases hm with
  | refl => exact h
  | construct code fd size _ => constructor <;> simp
  | resume hq => exact h.congr rfl rfl rfl rfl rfl ⟨by simp [hq], by simp⟩
  | take hq ha => exact h.take hq ha
  | destroy hq => exact h.destroy (by rcases hq with hq | hq | hq | hq <;> simp [hq]) false
  | cancel => exact ⟨h.kept, h.others, h.once, h.unclosed, h.gone⟩

end Request.Descriptors

/-! ### The functions that call the operating system -/

/-- `io::await_suspend` up to the submission, by cases. -/
theorem State.enter_cases (s : State κ) (r : ℕ) :
    s.enter r = .error (.inUse, s) ∨ s.enter r = .error (.resumed, s.refuse r) ∨
      s.enter r = .ok (s.link r) ∧
        ((s.requests r).code.reserves = true → s.flags (s.requests r).key = false) := by
  unfold State.enter
  split_ifs with hk hs
  · exact .inl rfl
  · exact .inr (.inl rfl)
  · exact .inr (.inr ⟨rfl, fun hc => by simpa [hc] using hk⟩)

/-- `io::await_suspend` by cases. -/
theorem State.awaitSuspend_cases {submit : State κ → Option (Except (State κ) (State κ))}
    {v : Verdict × State κ} (hv : s.awaitSuspend r submit = some v) :
    v.2 = s ∨ v.2 = s.refuse r ∨
      ((s.requests r).code.reserves = true → s.flags (s.requests r).key = false) ∧
        ((s.link r).isEmpty r = true ∧ v.2 = (s.link r).complete r ∨
          (∃ u, submit (s.link r) = some (.error u) ∧ v.2 = u.abandon r) ∨
          submit (s.link r) = some (.ok v.2)) := by
  unfold State.awaitSuspend at hv
  obtain he | he | ⟨he, hk⟩ := s.enter_cases r
  · rw [he] at hv
    cases hv
    exact .inl rfl
  · rw [he] at hv
    cases hv
    exact .inr (.inl rfl)
  · rw [he] at hv
    refine .inr (.inr ⟨hk, ?_⟩)
    simp only at hv
    split_ifs at hv with hempty
    · cases hv
      exact .inl ⟨hempty, rfl⟩
    · split at hv
      · cases hv
      · cases hv
        exact .inr (.inl ⟨_, ‹_›, rfl⟩)
      · cases hv
        exact .inr (.inr ‹_›)

/-- A property that the cancellation of a request in the list keeps, and that takes no other request
out of the list, holds after the scan: each request is still in the list when the scan reaches
it. -/
theorem State.scan_induction {P : State κ → Prop}
    {cancel : State κ → ℕ → Option (Except (State κ) (State κ))} {all : Bool}
    (hcancel : ∀ s r v, P s → r ∈ s.io → cancel s r = some v →
      (∀ t, v = .error t → P t) ∧ ∀ t, v = .ok t → P t ∧ ∀ i, i ≠ r → i ∈ s.io → i ∈ t.io)
    {l : List ℕ} {v : Except (State κ) (State κ)} (h : P s) (hn : l.Nodup)
    (hmem : ∀ i ∈ l, i ∈ s.io) (hv : State.scan cancel all l s = some v) :
    ∀ t, v = .ok t ∨ v = .error t → P t := by
  induction l generalizing s with
  | nil =>
    intro t ht
    cases hv
    rcases ht with ht | ht <;> cases ht
    exact h
  | cons r rs ih =>
    obtain ⟨hr, hn⟩ := nodup_cons.mp hn
    rw [State.scan] at hv
    split_ifs at hv
    · cases hc : cancel s r with
      | none => rw [hc] at hv; cases hv
      | some w =>
        rw [hc] at hv
        obtain ⟨herror, hok⟩ := hcancel s r w h (hmem r mem_cons_self) hc
        cases w with
        | error u =>
          intro t ht
          cases hv
          rcases ht with ht | ht <;> cases ht
          exact herror u rfl
        | ok u =>
          obtain ⟨hu, hrest⟩ := hok u rfl
          refine ih hu hn (fun i hi => ?_) hv
          exact hrest i (fun he => hr (he ▸ hi)) (hmem i (mem_cons_of_mem r hi))
    · exact ih h hn (fun i hi => hmem i (mem_cons_of_mem r hi)) hv

/-- The same of `loop::expire`, whether it throws or not. -/
theorem State.expire_induction {P : State κ → Prop}
    {cancel : State κ → ℕ → Option (Except (State κ) (State κ))}
    (hcancel : ∀ s r v, P s → r ∈ s.io → cancel s r = some v →
      (∀ t, v = .error t → P t) ∧ ∀ t, v = .ok t → P t ∧ ∀ i, i ≠ r → i ∈ s.io → i ∈ t.io)
    (h : P s) (hflag : P { s with cancel := false }) (hn : s.io.Nodup)
    {v : Except (State κ) (State κ)} (hv : s.expire cancel = some v) :
    ∀ t, v = .ok t ∨ v = .error t → P t := by
  unfold State.expire at hv
  split_ifs at hv
  · exact scan_induction hcancel hflag hn (fun _ hi => hi) hv
  · intro t ht
    cases hv
    rcases ht with ht | ht <;> cases ht
    exact h

end Snowy.Backend
