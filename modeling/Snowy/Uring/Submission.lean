import Mathlib.Algebra.Group.Nat.Defs
import Snowy.Uring.Driver

/-!
# The submission queue of the io_uring backend

Requests, cancellations and the internal poll of the eventfd reach the kernel through one submission
queue (SQ), which the loop flushes when a threshold is reached, when it is full, when a batch needs
room, and in `poll`. Two things depend on where it flushes and on the order of the entries (SQEs).
A linked chain must not be cut. And an entry with the flag `IOSQE_IO_DRAIN` holds back every entry
behind it, the poll of the eventfd among them, so the loop wakes that poll before it queues one and
does not arm it again until the last of them is completed.

This file models `driver::sqe`, `driver::watch`, `access::reserve`, `access::start`, `loop::wake`,
`loop::submit`, `loop::cancel`, `uring::submit` and `loop::poll` over the requests of
`Snowy.Uring.Driver`. Each flush hands over everything that is queued; that it fails is not
modelled. A read of the eventfd returns the counter or `EAGAIN`. As in `Snowy.Uring.Driver`, the
kernel may write the CQEs of a request at any time after the request is prepared, in any order, but
it writes one CQE for each poll of the eventfd that has been handed over.

## Main definitions

* `Snowy.Uring.Sqe`, `Snowy.Uring.Standalone`, `Snowy.Uring.Batch` : the entries, the requests that
  are submitted on their own, and the batches.
* `Snowy.Uring.Ring` : the driver with its submission queue.
* `Snowy.Uring.Ring.sqe`, `Snowy.Uring.Ring.reserve`, `Snowy.Uring.Ring.submit`,
  `Snowy.Uring.Ring.submitEntries` : the functions.
* `Snowy.Uring.Ring.Step` : one step of the loop, of another thread or of the kernel.

## Main results

* `Snowy.Uring.Ring.eq_of_submit` : what `loop::submit` does.
* `Snowy.Uring.Ring.submitEntries_eq` : a batch makes room first and is then queued as a whole.
-/

namespace Snowy.Uring

open List

/-- A computation that does not throw: neither does its first part, nor what follows. -/
theorem exists_of_bind_eq_ok {ε α β : Type} {x : Except ε α} {f : α → Except ε β} {b : β}
    (h : (x >>= f) = .ok b) : ∃ a, x = .ok a ∧ f a = .ok b := by
  cases x with
  | error => cases h
  | ok a => exact ⟨a, rfl, h⟩

/-! ### Entries and requests -/

/-- The bits of `sqe->flags` that the library looks at. -/
structure Flags where
  drain : Bool := false
  link : Bool := false
  hardlink : Bool := false
  bufferSelect : Bool := false
  skipSuccess : Bool := false
  deriving DecidableEq, Repr

/-- A submission queue entry. The tag is its `user_data`. -/
structure Sqe where
  tag : Tag
  flags : Flags := {}
  deriving DecidableEq, Repr

/-- The kernel starts the next entry only after this one. -/
def Sqe.linked (e : Sqe) : Bool := e.flags.link || e.flags.hardlink

/-- The entry polls the eventfd. -/
def Sqe.isWake (e : Sqe) : Bool := e.tag = .wake

/-- What the functions throw. -/
inductive SubmitError where
  | canceled
  | notSupported (what : String)
  | invalidArgument (what : String)
  deriving DecidableEq, Repr

/-- The fields of `detail::io` that `loop::submit` reads; `flags` are those of the SQE that the hook
`prepare` returns, none without the hook. -/
structure Request where
  code : Opcode
  flags : Flags := {}
  handler : Bool := false
  retire : Bool := false
  deriving DecidableEq, Repr

/-- A request that is submitted on its own. -/
structure Standalone extends Request where
  unlinked : flags.link = false ∧ flags.hardlink = false

namespace Standalone

/-- `detail::io`. -/
def io (code : Opcode) : Standalone := { code, unlinked := ⟨rfl, rfl⟩ }

/-- `uring::op`. -/
def op (flags : Flags) : Except SubmitError Standalone :=
  if h : flags.skipSuccess = true ∨ flags.link = true ∨ flags.hardlink = true then
    .error (.invalidArgument "standalone operation cannot skip or link completions")
  else
    .ok { code := .native, flags, handler := true, unlinked := by simp_all }

/-- `uring::zc_send`. It has a hook `retire`, so its submission skips the threshold. -/
def zcSend : Standalone :=
  { code := .native, handler := true, retire := true, unlinked := ⟨rfl, rfl⟩ }

/-- `uring::stream`, as the multishot operations prepare it. -/
def stream (bufferSelect : Bool) : Standalone :=
  { code := .native, flags := { bufferSelect }, handler := true, unlinked := ⟨rfl, rfl⟩ }

end Standalone

/-! ### Batches -/

/-- `uring::link`. -/
inductive Link where
  | none
  | soft
  | hard
  deriving DecidableEq, Repr

/-- The operations `IORING_OP_*` that a batch may hold, and the rest. -/
inductive Op where
  | nop
  | read
  | write
  | readv
  | writev
  | readFixed
  | writeFixed
  | fsync
  | fallocate
  | splice
  | other (code : ℕ)
  deriving DecidableEq, Repr

/-- The operation is one of those that a batch may hold. -/
def Op.batchable : Op → Bool
  | .other _ => false
  | _ => true

/-- An entry of a batch. `address` is that of the node allocated for it. -/
structure Entry where
  address : ℕ
  opcode : Op := .nop
  flags : Flags := {}
  deriving DecidableEq, Repr

namespace Entry

/-- The link flag of the mode is added. -/
def chain (e : Entry) : Link → Entry
  | .none => e
  | .soft => { e with flags := { e.flags with link := true } }
  | .hard => { e with flags := { e.flags with hardlink := true } }

/-- The node `entry` of `uring::submit`. -/
def request (e : Entry) : Request :=
  { code := .native, flags := e.flags, handler := true, retire := true }

/-- The SQE that is queued for the node. -/
def sqe (e : Entry) : Sqe := { tag := .request e.address, flags := e.flags }

/-- The body of the first loop of `uring::submit`. -/
def prepare (e : Entry) (order : Link) (last : Bool) : Except SubmitError Entry :=
  if !e.opcode.batchable then
    .error (.invalidArgument "batch requires supported single-shot operations")
  else if e.flags.skipSuccess || e.flags.bufferSelect || e.flags.link || e.flags.hardlink then
    .error (.invalidArgument "invalid batch SQE flags")
  else .ok (if last then e else e.chain order)

/-- The first loop of `uring::submit`: check every entry and link all but the last. -/
def prepareAll (order : Link) : List Entry → Except SubmitError (List Entry)
  | [] => .ok []
  | e :: rest => do
    let e ← e.prepare order rest.isEmpty
    let rest ← prepareAll order rest
    return e :: rest

theorem address_prepare {e e' : Entry} {order : Link} {last : Bool}
    (h : e.prepare order last = .ok e') : e'.address = e.address := by
  unfold prepare at h
  split_ifs at h
  · rw [← Except.ok.inj h]
  · rw [← Except.ok.inj h]
    cases order <;> rfl

theorem map_address_prepareAll {order : Link} {entries prepared : List Entry}
    (h : prepareAll order entries = .ok prepared) :
    prepared.map Entry.address = entries.map Entry.address := by
  induction entries generalizing prepared with
  | nil => rw [← Except.ok.inj h]
  | cons e rest ih =>
    obtain ⟨e', he, h⟩ := exists_of_bind_eq_ok h
    obtain ⟨rest', hrest, h⟩ := exists_of_bind_eq_ok h
    rw [← Except.ok.inj h, map_cons, map_cons, address_prepare he, ih hrest]

theorem length_prepareAll {order : Link} {entries prepared : List Entry}
    (h : prepareAll order entries = .ok prepared) : prepared.length = entries.length := by
  simpa using congrArg List.length (map_address_prepareAll h)

end Entry

/-- A batch as the caller gives it. -/
structure Batch where
  order : Link
  entries : List Entry
  deriving DecidableEq, Repr

/-! ### The state -/

/-- Where the owner thread is: outside `poll`, waiting for completions in it for the given time in
nanoseconds (without limit if it is negative), going through the batch it has peeked, about to read
the eventfd, or about to return. -/
inductive Phase where
  | idle
  | waiting (delay : ℤ)
  | scanning (wakeSeen : Bool)
  | reading
  | rearming
  deriving DecidableEq, Repr

/-- What the functions read of the options: the number of the entries of the ring, the threshold,
and whether the ring has the flag `IORING_SETUP_IOPOLL`. -/
structure Options where
  entries : ℕ
  entries_pos : 0 < entries
  submitBatch : ℕ := 0
  iopoll : Bool := false

/-- The driver. `base` are the requests and the completion queue, `sq` what has been queued since
the last flush, and `event` the counter of the eventfd. On the side of the kernel, `groups` is what
each flush has handed over and `polls` counts the polls of the eventfd among it without a CQE.
`batches` is a history. -/
structure Ring where
  base : Driver := {}
  sq : List Sqe := []
  watching : Bool := false
  watchWaking : Bool := false
  event : ℕ := 0
  phase : Phase := .idle
  groups : List (List Sqe) := []
  polls : ℕ := 0
  batches : List Batch := []

namespace Ring

variable (o : Options) (s : Ring) {s' : Ring}

/-- The owner thread goes on. -/
def goto (p : Phase) : Ring := { s with phase := p }

/-- `io_uring_submit`. -/
def flush : Ring :=
  { s with
    sq := []
    groups := s.groups ++ [s.sq]
    polls := s.polls + s.sq.countP Sqe.isWake }

/-- An entry is filled in. -/
def append (e : Sqe) : Ring := { s with sq := s.sq ++ [e] }

/-- Flush until there is room for `count` entries, at most the size of the ring. -/
def makeRoom (count : ℕ) : Ring := if o.entries - s.sq.length < count then s.flush else s

/-- The flush at the threshold. -/
def threshold (flush : Bool) : Ring :=
  if flush ∧ o.submitBatch ≠ 0 ∧ o.submitBatch ≤ s.sq.length then s.flush else s

/-- `driver::sqe` and the filling of the slot it returns. -/
def sqe (flush : Bool) (e : Sqe) : Ring := ((s.threshold o flush).makeRoom o 1).append e

/-- `driver::watch`. -/
def watch : Ring := { s.sqe o true { tag := .wake } with watching := true }

/-- `loop::wake`. A counter that would overflow keeps its value. -/
def wake : Ring := { s with event := if s.event < 2 ^ 64 - 2 then s.event + 1 else s.event }

/-- The second half of `access::reserve`: make the poll of the eventfd complete. -/
def wakePoll (drain : Bool) : Ring :=
  if drain && s.watching && !s.watchWaking then { s.wake with watchWaking := true } else s

/-- `access::reserve`. -/
def reserve (count : ℕ) (drain : Bool) : Except SubmitError Ring :=
  if o.entries < count then .error (.invalidArgument "batch exceeds ring capacity")
  else .ok ((s.makeRoom o count).wakePoll drain)

/-- The request is linked into `io_` and counted if it drains. -/
def enter (r : ℕ) (x : Request) : Ring :=
  { s with base := s.base.submit r x.code x.handler x.retire x.flags.drain }

/-- The branch of `loop::submit` for `IOSQE_IO_DRAIN`. -/
def reserveDrain (drain : Bool) : Except SubmitError Ring :=
  if drain && s.watching && !s.watchWaking then s.reserve o 1 true else .ok s

/-- `loop::submit`, with the linking that precedes it. -/
def submit (r : ℕ) (x : Request) : Except SubmitError Ring :=
  if o.iopoll && x.code != .fileRead && x.code != .fileWrite && x.code != .native then
    .error (.notSupported "IOPOLL is storage-only")
  else do
    let s ← s.reserveDrain o x.flags.drain
    -- Linked batches reserve their whole chain; never flush a partial chain.
    return (s.sqe o (!x.retire) { tag := .request r, flags := x.flags }).enter r x

/-- `access::start`. -/
def start (e : Entry) : Except SubmitError Ring := s.submit o e.address e.request

/-- The request is marked as canceled. -/
def mark (r : ℕ) : Ring := { s with base := s.base.cancel r }

/-- `loop::cancel`. -/
def cancel (r : ℕ) : Ring := (s.sqe o true { tag := .cancel r }).mark r

/-- A batch goes into the history. -/
def record (b : Batch) : Ring := { s with batches := s.batches ++ [b] }

/-- `uring::submit`; `stopped` says whether the loop or the token is. -/
def submitEntries (stopped : Bool) (order : Link) (entries : List Entry) :
    Except SubmitError Ring :=
  if stopped then .error .canceled
  else if entries = [] then .ok s
  else if 32768 < entries.length then
    .error (.invalidArgument "batch exceeds maximum ring size")
  else do
    let prepared ← Entry.prepareAll order entries
    let s ← s.reserve o entries.length (prepared.any fun e => e.flags.drain)
    let s ← prepared.foldlM (fun s e => s.start o e) s
    return s.record ⟨order, entries⟩

/-- `poll` waits for at most a millisecond while a draining request is pending. -/
def clamp (drains : ℕ) (delay : ℤ) : ℤ :=
  if drains ≠ 0 ∧ (delay < 0 ∨ 1000000 < delay) then 1000000 else delay

/-- The beginning of `loop::poll`: what is queued is submitted before the wait. -/
def poll (delay : ℤ) : Ring := s.flush.goto (.waiting (clamp s.base.drains delay))

/-- The end of the wait. A ring with `IORING_SETUP_IOPOLL` reads the eventfd here. -/
def peek : Ring :=
  { s with
    base := s.base.peek 128
    event := if o.iopoll then 0 else s.event
    phase := .scanning false }

/-- The body of the loop of `loop::poll` for the next entry of the batch. -/
def handle (wakeSeen : Bool) (e : Cqe) (rest : List Cqe) : Ring :=
  { s with
    base := Driver.handle { s.base with batch := rest } e
    phase := .scanning (wakeSeen || e.tag = .wake) }

/-- The poll of the eventfd has completed. -/
def clear : Ring := { s with watching := false, watchWaking := false, phase := .reading }

/-- The counter of the eventfd is read. -/
def read : Ring := { s with event := 0, phase := .rearming }

/-- The end of `loop::poll`. -/
def rearm : Ring :=
  if !o.iopoll ∧ !s.watching ∧ s.base.drains = 0 then (s.watch o).goto .idle else s.goto .idle

/-- The constructor of the loop. -/
def init : Ring := if o.iopoll then {} else watch o {}

/-! ### Runs -/

/-- One step. While `poll` runs, nothing is submitted or canceled; `wake` may be called from another
thread at any time. -/
inductive Step : Ring → Prop
  | submit {s' : Ring} (r : ℕ) (x : Standalone) (idle : s.phase = .idle)
      (fresh : r ∉ s.base.submitted) (ok : s.submit o r x.toRequest = .ok s') : Step s'
  | cancel (r : ℕ) (idle : s.phase = .idle) (mem : r ∈ s.base.io)
      (unsent : (s.base.request r).cancelSent = false) : Step (s.cancel o r)
  | submitEntries {s' : Ring} (stopped : Bool) (order : Link) (entries : List Entry)
      (idle : s.phase = .idle) (fresh : ∀ e ∈ entries, e.address ∉ s.base.submitted)
      (nodup : (entries.map Entry.address).Nodup)
      (ok : s.submitEntries o stopped order entries = .ok s') : Step s'
  | wake : Step s.wake
  | poll (delay : ℤ) (idle : s.phase = .idle) : Step (s.poll delay)
  -- The wait fails and `poll` throws.
  | throw (delay : ℤ) (waiting : s.phase = .waiting delay) : Step (s.goto .idle)
  | peek (delay : ℤ) (waiting : s.phase = .waiting delay) : Step (s.peek o)
  | handle {e : Cqe} {rest : List Cqe} {wakeSeen : Bool} (scanning : s.phase = .scanning wakeSeen)
      (next : s.base.batch = e :: rest) : Step (s.handle wakeSeen e rest)
  | clear (scanning : s.phase = .scanning true) (done : s.base.batch = []) : Step s.clear
  | unseen (scanning : s.phase = .scanning false) (done : s.base.batch = []) :
      Step (s.goto .rearming)
  | read (reading : s.phase = .reading) : Step s.read
  | rearm (rearming : s.phase = .rearming) : Step (s.rearm o)
  -- The kernel writes a CQE of a request or of a cancellation.
  | write {e : Cqe} {base : Driver} (write : Uring.Step s.base (.write e) base)
      (tag : e.tag ≠ .wake) : Step { s with base }
  -- The kernel writes the CQE of a poll of the eventfd.
  | answer {e : Cqe} (tag : e.tag = .wake) (polled : 0 < s.polls) :
      Step { s with base := s.base.write e, polls := s.polls - 1 }

/-- A state of some run of a new loop. -/
def Reachable (s : Ring) : Prop := Relation.ReflTransGen (Step o) (init o) s

variable {o s}

/-- What holds for a new loop and is kept by every step holds in every reachable state. -/
theorem Reachable.induction {P : Ring → Prop} (h : Reachable o s) (init : P (init o))
    (step : ∀ {s s'}, Reachable o s → P s → Step o s s' → P s') : P s := by
  induction h with
  | refl => exact init
  | tail hs h ih => exact step hs ih h

/-! ### What the functions do -/

/-- What is kept by every flush is kept by the flushes that make room. -/
theorem makeRoom_induction {P : Ring → Prop} (h : P s) (flush : ∀ s, P s → P s.flush) (count : ℕ) :
    P (s.makeRoom o count) := by
  unfold makeRoom
  split_ifs
  · exact flush s h
  · exact h

/-- An entry is queued after some flushes. -/
theorem sqe_induction {P : Ring → Prop} (h : P s) (flush : ∀ s, P s → P s.flush) (f : Bool)
    (e : Sqe) : ∃ s', P s' ∧ s.sqe o f e = s'.append e := by
  refine ⟨(s.threshold o f).makeRoom o 1, makeRoom_induction ?_ flush 1, rfl⟩
  unfold threshold
  split_ifs
  · exact flush s h
  · exact h

/-- There is room after it. -/
theorem length_sq_makeRoom {count : ℕ} (hpos : 0 < count) (h : count ≤ o.entries) :
    (s.makeRoom o count).sq.length + count ≤ o.entries := by
  unfold makeRoom
  split_ifs
  · simpa [flush] using h
  · omega

theorem makeRoom_of_le {count : ℕ} (h : s.sq.length + count ≤ o.entries) :
    s.makeRoom o count = s := if_neg (by omega)

/-- The state in which `loop::submit` takes a slot. -/
def wakeFirst (o : Options) (s : Ring) (drain : Bool) : Ring :=
  if drain && s.watching && !s.watchWaking then (s.makeRoom o 1).wakePoll true else s

theorem reserveDrain_eq (s : Ring) (drain : Bool) :
    s.reserveDrain o drain = .ok (s.wakeFirst o drain) := by
  unfold reserveDrain wakeFirst
  split_ifs
  · exact if_neg (Nat.not_lt.mpr o.entries_pos)
  · rfl

/-- Nothing is done if the poll of the eventfd is not armed or is being woken. -/
theorem wakeFirst_of_waking (drain : Bool)
    (h : drain = true → s.watching = true → s.watchWaking = true) : s.wakeFirst o drain = s := by
  refine if_neg fun hd => ?_
  simp only [Bool.and_eq_true, Bool.not_eq_true'] at hd
  exact Bool.false_ne_true (hd.2.symm.trans (h hd.1.1 hd.1.2))

/-- **`loop::submit`.** If it does not throw, it wakes the poll of the eventfd where that is needed,
queues one entry, and links the request. -/
theorem eq_of_submit {r : ℕ} {x : Request} (h : s.submit o r x = .ok s') :
    s' = ((s.wakeFirst o x.flags.drain).sqe o (!x.retire)
      { tag := .request r, flags := x.flags }).enter r x := by
  unfold submit at h
  rw [reserveDrain_eq] at h
  split_ifs at h with hcode
  exact (Except.ok.inj h).symm

/-- All entries of a batch are queued and linked. -/
def publish (s : Ring) (entries : List Entry) : Ring :=
  { s with
    sq := s.sq ++ entries.map Entry.sqe
    base := entries.foldl (fun b e => b.submit e.address .native true true e.flags.drain) s.base }

theorem publish_cons (s : Ring) (e : Entry) (rest : List Entry) :
    s.publish (e :: rest) = ((s.append e.sqe).enter e.address e.request).publish rest := by
  simp [publish, append, enter, Entry.request]

/-- An entry of a batch is queued without a flush where there is room and no need to wake. -/
theorem start_eq {e : Entry} (hroom : s.sq.length + 1 ≤ o.entries)
    (hwaking : e.flags.drain = true → s.watching = true → s.watchWaking = true) :
    s.start o e = .ok ((s.append e.sqe).enter e.address e.request) := by
  have hthreshold : s.threshold o false = s := if_neg fun h => Bool.false_ne_true h.1
  have hsqe : s.sqe o false e.sqe = s.append e.sqe := by
    rw [sqe, hthreshold, makeRoom_of_le hroom]
  unfold start submit
  rw [if_neg (by simp [Entry.request]), reserveDrain_eq,
    wakeFirst_of_waking e.request.flags.drain hwaking, ← hsqe]
  rfl

/-- The second loop over the entries of a batch, after the reservation. -/
theorem foldlM_start {entries : List Entry} (hroom : s.sq.length + entries.length ≤ o.entries)
    (hwaking : ∀ e ∈ entries, e.flags.drain = true → s.watching = true → s.watchWaking = true) :
    entries.foldlM (fun s e => s.start o e) s = .ok (s.publish entries) := by
  induction entries generalizing s with
  | nil =>
    have hnil : s.publish [] = s := by simp [publish]
    rw [hnil]
    rfl
  | cons e rest ih =>
    rw [length_cons] at hroom
    have hrest : (s.append e.sqe).sq.length + rest.length ≤ o.entries := by
      simp only [append, length_append, length_singleton]
      omega
    rw [foldlM_cons, start_eq (by omega) (hwaking e mem_cons_self), publish_cons,
      ← ih (s := (s.append e.sqe).enter e.address e.request) hrest
        fun e' he' => hwaking e' (mem_cons_of_mem _ he')]
    rfl

/-- The poll of the eventfd is woken if it is armed. -/
theorem watchWaking_wakePoll {drain : Bool} (hdrain : drain = true)
    (h : (s.wakePoll drain).watching = true) : (s.wakePoll drain).watchWaking = true := by
  unfold wakePoll at h ⊢
  split_ifs at h ⊢ with hwake
  · rfl
  · simpa [hdrain, h] using hwake

theorem watchWaking_wakeFirst {drain : Bool} (hdrain : drain = true)
    (h : (s.wakeFirst o drain).watching = true) : (s.wakeFirst o drain).watchWaking = true := by
  unfold wakeFirst at h ⊢
  split_ifs at h ⊢ with hwake
  · exact watchWaking_wakePoll rfl h
  · simpa [hdrain, h] using hwake

@[simp] theorem sq_wakePoll (drain : Bool) : (s.wakePoll drain).sq = s.sq := by
  unfold wakePoll
  split_ifs <;> rfl

@[simp] theorem groups_wakePoll (drain : Bool) : (s.wakePoll drain).groups = s.groups := by
  unfold wakePoll
  split_ifs <;> rfl

@[simp] theorem batches_wakePoll (drain : Bool) : (s.wakePoll drain).batches = s.batches := by
  unfold wakePoll
  split_ifs <;> rfl

/-- The state after a batch: room is made for all of it, the poll of the eventfd is woken if an
entry drains, and then the entries are queued one after another without a flush. -/
def submitted (o : Options) (s : Ring) (b : Batch) (prepared : List Entry) : Ring :=
  (((s.makeRoom o b.entries.length).wakePoll
    (prepared.any fun e => e.flags.drain)).publish prepared).record b

/-- **`uring::submit`.** A batch that passes the checks and fits the ring is queued as a whole. -/
theorem submitEntries_eq {order : Link} {entries prepared : List Entry} (hne : entries ≠ [])
    (hlong : entries.length ≤ 32768) (hprepared : Entry.prepareAll order entries = .ok prepared)
    (hfits : entries.length ≤ o.entries) :
    s.submitEntries o false order entries = .ok (s.submitted o ⟨order, entries⟩ prepared) := by
  let drain := prepared.any fun e => e.flags.drain
  let s₁ := (s.makeRoom o entries.length).wakePoll drain
  have hreserve : s.reserve o entries.length drain = .ok s₁ := if_neg (Nat.not_lt.mpr hfits)
  -- The reservation leaves room for every entry, and wakes the poll if one of them drains.
  have hroom : s₁.sq.length + prepared.length ≤ o.entries := by
    rw [sq_wakePoll, Entry.length_prepareAll hprepared]
    exact length_sq_makeRoom (length_pos_iff.mpr hne) hfits
  have hwaking : ∀ e ∈ prepared, e.flags.drain = true → s₁.watching = true →
      s₁.watchWaking = true := fun e he hdrain hwatching =>
    watchWaking_wakePoll (any_eq_true.mpr ⟨e, he, hdrain⟩) hwatching
  rw [submitEntries, if_neg Bool.false_ne_true, if_neg hne, if_neg (Nat.not_lt.mpr hlong),
    hprepared]
  change (s.reserve o entries.length drain >>= fun s =>
    prepared.foldlM (fun s e => s.start o e) s >>= fun s => pure (s.record ⟨order, entries⟩)) = _
  rw [hreserve]
  change (prepared.foldlM (fun s e => s.start o e) s₁ >>= fun s =>
    pure (s.record ⟨order, entries⟩)) = _
  rw [foldlM_start hroom hwaking]
  rfl

/-- If `uring::submit` does not throw, there was nothing to submit, or the whole batch is queued. -/
theorem eq_of_submitEntries {stopped : Bool} {order : Link} {entries : List Entry}
    (h : s.submitEntries o stopped order entries = .ok s') :
    entries = [] ∧ s' = s ∨
    entries ≠ [] ∧ ∃ prepared, Entry.prepareAll order entries = .ok prepared ∧
      s' = s.submitted o ⟨order, entries⟩ prepared := by
  cases stopped with
  | true => cases h
  | false =>
    by_cases hnil : entries = []
    · rw [submitEntries, if_neg Bool.false_ne_true, if_pos hnil] at h
      exact .inl ⟨hnil, (Except.ok.inj h).symm⟩
    · have hchecks := h
      rw [submitEntries, if_neg Bool.false_ne_true, if_neg hnil] at hchecks
      split_ifs at hchecks with hlong
      obtain ⟨prepared, hprepared, hchecks⟩ := exists_of_bind_eq_ok hchecks
      obtain ⟨s₁, hreserve, -⟩ := exists_of_bind_eq_ok hchecks
      unfold reserve at hreserve
      split_ifs at hreserve with hfits
      rw [submitEntries_eq hnil (Nat.not_lt.mp hlong) hprepared (Nat.not_lt.mp hfits)] at h
      exact .inr ⟨hnil, prepared, hprepared, (Except.ok.inj h).symm⟩

end Ring

end Snowy.Uring
