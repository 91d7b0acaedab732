import Snowy.Uring.Flush
import Snowy.Uring.Hooks

/-!
# Batches of requests

`uring::submit` submits several entries at once and returns the results of all of them. It checks
every entry and makes room for the whole batch before the first entry is queued, so that nothing can
fail once it has begun to queue them. The nodes of the batch share a counter, which the hook
`retire` of each of them decrements, and an event that the last one sets; the hook `result` stores
the result in the slot of the node.

This file models the call over the requests of `Snowy.Uring.Driver`, among any other requests, with
flushes that may fail.

## Main definitions

* `Snowy.Uring.SubmitBatch.submit` : the part of `uring::submit` before its suspension.
* `Snowy.Uring.SubmitBatch.State`, `Snowy.Uring.SubmitBatch.Step` : the loop with one call.

## Main results

* `Snowy.Uring.SubmitBatch.exec_startAll` : after the reservation, nothing is flushed or thrown.
* `Snowy.Uring.SubmitBatch.submit_all_or_nothing` : what the call publishes and returns.
-/

namespace Snowy.Uring.SubmitBatch

open Function List

/-! ### The submission -/

/-- The requests and the submission queue. -/
structure Desk where
  driver : Driver := {}
  queue : Queue := {}

namespace Desk

/-- A node of the batch is put into `io_`. -/
def link (d : Desk) (e : Entry) : Desk :=
  { d with driver := d.driver.submit e.address .native true true e.flags.drain }

/-- All entries are queued and put into `io_`. -/
def publish (d : Desk) (entries : List Entry) : Desk where
  driver := entries.foldl (fun b e => b.submit e.address .native true true e.flags.drain) d.driver
  queue := { d.queue with sq := d.queue.sq ++ entries.map Entry.sqe }

end Desk

section Functions

variable (o : Options)

/-- A function of the submission queue. -/
def onQueue (x : Program Queue Thrown Unit) : Program Desk Thrown Unit :=
  x.on Desk.queue fun d queue => { d with queue }

/-- A draining request makes the poll of the eventfd complete. -/
def reserveDrain (drain : Bool) : Program Desk Thrown Unit := do
  let d ← get
  if drain && d.queue.watching && !d.queue.watchWaking then
    onQueue (Queue.reserve o 1 true)

/-- `access::start` with `loop::submit`, which accepts a native request on every ring. -/
def start (e : Entry) : Program Desk Thrown Unit := do
  modify fun d => d.link e
  reserveDrain o e.flags.drain
  onQueue (Queue.sqe o false e.sqe)

/-- The second loop of `uring::submit`. -/
def startAll : List Entry → Program Desk Thrown Unit
  | [] => pure ()
  | e :: rest => do
    start o e
    startAll rest

/-- `uring::submit` before its suspension; `stopped` says whether the loop or the token is. -/
def submit (stopped : Bool) (order : Link) (entries : List Entry) : Program Desk Thrown Unit :=
  if stopped then throw (.refused .canceled)
  else if entries = [] then pure ()
  else if 32768 < entries.length then
    throw (.refused (.invalidArgument "batch exceeds maximum ring size"))
  else
    match Entry.prepareAll order entries with
    | .error x => throw (.refused x)
    | .ok prepared => do
      onQueue (Queue.reserve o entries.length (prepared.any fun e => e.flags.drain))
      startAll o prepared

end Functions

variable {o : Options} {d d' : Desk} {entries prepared : List Entry} {order : Link} {e : Entry}

theorem exec_onQueue {x : Program Queue Thrown Unit} {v : Except Thrown Unit} {q : Queue}
    (h : x.exec d.queue = some (v, q)) : (onQueue x).exec d = some (v, { d with queue := q }) :=
  Program.exec_on_eq_some.mpr ⟨q, h, rfl⟩

/-- An entry is queued without a flush where there is room and no need to wake. -/
theorem exec_start (hroom : d.queue.sq.length + 1 ≤ o.entries)
    (hwaking : e.flags.drain = true → d.queue.watching = true → d.queue.watchWaking = true) :
    (start o e).exec d = some (.ok (), { d.link e with queue := d.queue.append e.sqe }) := by
  have hdrain : (reserveDrain o e.flags.drain).exec (d.link e) = some (.ok (), d.link e) := by
    rw [reserveDrain, Program.exec_get_bind, if_neg]
    · rfl
    · intro hneeds
      simp only [Bool.and_eq_true, Bool.not_eq_true'] at hneeds
      exact Bool.false_ne_true (hneeds.2.symm.trans (hwaking hneeds.1.1 hneeds.1.2))
  have hlacks : Queue.lacks o 1 d.queue = false := decide_eq_false (by omega)
  have hsqe : (Queue.sqe o false e.sqe).exec d.queue = some (.ok (), d.queue.append e.sqe) := by
    have hthreshold : (Queue.threshold o false).exec d.queue = some (.ok (), d.queue) := rfl
    rw [Queue.sqe, Program.exec_bind_of_ok hthreshold,
      Program.exec_bind_of_ok (Queue.exec_makeRoom_of_room hlacks)]
    rfl
  rw [start, Program.exec_modify_bind, Program.exec_bind_of_ok hdrain]
  exact exec_onQueue (d := d.link e) hsqe

/-- **After the reservation the entries are queued one after another, without a flush and without an
exception.** -/
theorem exec_startAll (hroom : d.queue.sq.length + entries.length ≤ o.entries)
    (hwaking : ∀ e ∈ entries, e.flags.drain = true → d.queue.watching = true →
      d.queue.watchWaking = true) :
    (startAll o entries).exec d = some (.ok (), d.publish entries) := by
  induction entries generalizing d with
  | nil =>
    have hnil : d.publish [] = d := by simp [Desk.publish]
    rw [hnil]
    rfl
  | cons e rest ih =>
    rw [length_cons] at hroom
    have hpublish : d.publish (e :: rest) =
        Desk.publish { d.link e with queue := d.queue.append e.sqe } rest := by
      simp [Desk.publish, Desk.link, Queue.append]
    have hstart := exec_start (o := o) (d := d) (by omega) (hwaking e mem_cons_self)
    rw [startAll, Program.exec_bind_of_ok hstart, hpublish]
    refine ih ?_ fun e' he' => hwaking e' (mem_cons_of_mem _ he')
    simp only [Queue.append, length_append, length_singleton]
    omega

theorem published_publish (d : Desk) (entries : List Entry) :
    (d.publish entries).queue.published = d.queue.published ++ entries.map Entry.sqe :=
  (append_assoc ..).symm

/-- **The call throws before anything is queued or put into `io_`, or it queues the whole
batch.** -/
theorem submit_spec {stopped : Bool} {v : Except Thrown Unit}
    (h : (submit o stopped order entries).exec d = some (v, d')) :
    (∃ x, v = .error x ∧ d'.driver = d.driver ∧ d'.queue.published = d.queue.published) ∨
    (v = .ok () ∧ entries = [] ∧ d' = d) ∨
    (v = .ok () ∧ entries ≠ [] ∧ ∃ prepared, Entry.prepareAll order entries = .ok prepared ∧
      d'.driver = (d.publish prepared).driver ∧
      d'.queue.published = d.queue.published ++ prepared.map Entry.sqe) := by
  unfold submit at h
  split_ifs at h with hstopped hnil hlong
  · cases h
    exact .inl ⟨_, rfl, rfl, rfl⟩
  · cases h
    exact .inr (.inl ⟨rfl, hnil, rfl⟩)
  · cases h
    exact .inl ⟨_, rfl, rfl, rfl⟩
  · cases hprepared : Entry.prepareAll order entries with
    | error x =>
      rw [hprepared] at h
      cases h
      exact .inl ⟨_, rfl, rfl, rfl⟩
    | ok prepared =>
      rw [hprepared] at h
      rcases Program.exec_bind_eq_some.mp h with ⟨x, hreserve, rfl⟩ | ⟨_, d₁, hreserve, hstart⟩
      · obtain ⟨q, hq, rfl⟩ := Program.exec_on_eq_some.mp hreserve
        exact .inl ⟨x, rfl, rfl, Queue.published_reserve hq⟩
      · obtain ⟨q, hq, rfl⟩ := Program.exec_on_eq_some.mp hreserve
        obtain ⟨hlacks, hwaking⟩ := Queue.lacks_of_exec_reserve hq
        have hlacks := of_decide_eq_false hlacks
        have hlen := Entry.length_prepareAll hprepared
        have hpos := length_pos_iff.mpr hnil
        rw [exec_startAll] at hstart
        · cases hstart
          refine .inr (.inr ⟨rfl, hnil, prepared, rfl, rfl, ?_⟩)
          rw [published_publish]
          exact congrArg (· ++ _) (Queue.published_reserve hq)
        · change q.sq.length + prepared.length ≤ o.entries
          omega
        · intro e he hdrain
          exact hwaking (any_eq_true.mpr ⟨e, he, hdrain⟩)

/-! ### The call -/

/-- Where the coroutine that calls `uring::submit` is. -/
inductive Phase where
  | idle
  | waiting
  | returned (results : List ℤ)
  | threw (x : Thrown)

/-- The loop with one call. `nodes` are the addresses of `requests`, `output` their result slots,
and `pending` and `done` the counter and the event that they share. -/
structure State where
  desk : Desk := {}
  phase : Phase := .idle
  nodes : List ℕ := []
  pending : ℕ := 0
  done : Bool := false
  output : ℕ → ℤ := fun _ => 0

/-- The request to which an entry refers. -/
def target (e : Cqe) : Option ℕ :=
  match e.tag with
  | .wake => none
  | .cancel r => some r
  | .request r => some r

namespace State

variable (s : State)

/-- The call up to its suspension or its end. -/
def begin (entries : List Entry) (v : Except Thrown Unit) (desk : Desk) : State :=
  match v with
  | .error x => { s with desk, phase := .threw x }
  | .ok () =>
    if entries = [] then { s with desk, phase := .returned [] }
    else
      { desk
        phase := .waiting
        nodes := entries.map Entry.address
        pending := entries.length
        done := false
        output := fun _ => 0 }

/-- A call of a hook of the node `r`. -/
def hook (r : ℕ) (s : State) : Hook → State
  | .result res _ => { s with output := Function.update s.output r res }
  | .retire => { s with pending := s.pending - 1, done := s.done || s.pending - 1 == 0 }

/-- The hooks that `poll` calls for an entry. -/
def callHooks (e : Cqe) : State :=
  match target e with
  | none => s
  | some r => if r ∈ s.nodes then (s.desk.driver.hooks e r).foldl (hook r) s else s

/-- `poll` looks at an entry. -/
def handle (e : Cqe) (rest : List Cqe) : State :=
  { s.callHooks e with
    desk := { s.desk with driver := Driver.handle { s.desk.driver with batch := rest } e } }

/-- The coroutine is resumed and returns. -/
def resume : State := { s with phase := .returned (s.nodes.map s.output) }

end State

/-- One step. The nodes of the batch are allocated by the call; the rest of the loop and the kernel
may do anything with other requests and with the submission queue. -/
inductive Step (o : Options) (s : State) : State → Prop
  | call (stopped : Bool) (order : Link) (entries : List Entry) {v : Except Thrown Unit}
      {desk : Desk} (idle : s.phase = .idle) (quiet : s.desk.driver.batch = [])
      (fresh : ∀ e ∈ entries, e.address ∉ s.desk.driver.submitted)
      (nodup : (entries.map Entry.address).Nodup)
      (run : (submit o stopped order entries).exec s.desk = some (v, desk)) :
      Step o s (s.begin entries v desk)
  | queue (queue : Queue) : Step o s { s with desk := { s.desk with queue } }
  | other {a : Act} {driver : Driver} (step : Uring.Step s.desk.driver a driver)
      (other : ∀ e, a ≠ .handle e) : Step o s { s with desk := { s.desk with driver } }
  | handle {e : Cqe} {rest : List Cqe} (next : s.desk.driver.batch = e :: rest) :
      Step o s (s.handle e rest)
  | resume (waiting : s.phase = .waiting) (done : s.done = true) : Step o s s.resume

/-- A state of some run of a new loop. -/
def Reachable (o : Options) (s : State) : Prop := Relation.ReflTransGen (Step o) {} s

/-! ### The nodes of the batch -/

/-- The result that is stored last. -/
def lastResult (handled : List (ℤ × ℕ)) : ℤ := (handled.getLast?.map Prod.fst).getD 0

theorem lastResult_append (l : List (ℤ × ℕ)) (p : ℤ × ℕ) : lastResult (l ++ [p]) = p.1 := by
  simp [lastResult]

/-- Submitting the nodes is a run of the driver. -/
theorem steps_publish (quiet : d.driver.batch = [])
    (fresh : ∀ e ∈ entries, e.address ∉ d.driver.submitted)
    (nodup : (entries.map Entry.address).Nodup) : Steps d.driver (d.publish entries).driver := by
  induction entries generalizing d with
  | nil => exact .refl
  | cons e rest ih =>
    obtain ⟨he, hrest⟩ := nodup_cons.mp nodup
    refine .head ⟨_, .submit .native true true e.flags.drain (fresh e mem_cons_self) quiet⟩
      (ih (d := d.link e) quiet (fun e' he' hmem => ?_) hrest)
    rcases mem_append.mp hmem with hmem | hmem
    · exact fresh e' (mem_cons_of_mem _ he') hmem
    · exact he (mem_singleton.mp hmem ▸ mem_map_of_mem he')

/-- The lists of the driver after the nodes are submitted. -/
theorem publish_fields (d : Desk) (entries : List Entry) :
    (d.publish entries).driver.submitted =
      d.driver.submitted ++ entries.map Entry.address ∧
    (d.publish entries).driver.io = (entries.map Entry.address).reverse ++ d.driver.io ∧
    (d.publish entries).driver.retired = d.driver.retired := by
  induction entries generalizing d with
  | nil => simp [Desk.publish]
  | cons e rest ih =>
    obtain ⟨hsub, hio, hretired⟩ := ih (d.link e)
    refine ⟨hsub.trans ?_, hio.trans ?_, hretired⟩ <;> simp [Desk.link, Driver.submit]

/-- The nodes have hooks, which have not been called. -/
theorem request_publish {r : ℕ} (d : Desk)
    (hr : ((d.driver.request r).handler = true ∧ (d.driver.request r).handled = []) ∨
      r ∈ entries.map Entry.address) :
    ((d.publish entries).driver.request r).handler = true ∧
      ((d.publish entries).driver.request r).handled = [] := by
  induction entries generalizing d with
  | nil => exact hr.resolve_right nofun
  | cons e rest ih =>
    refine ih (d.link e) ?_
    by_cases he : r = e.address
    · subst he
      exact .inl (by simp [Desk.link, Driver.submit])
    · rcases hr with hr | hr
      · exact .inl (by simpa [Desk.link, Driver.submit, he] using hr)
      · exact .inr ((mem_cons.mp hr).resolve_left he)

/-! ### The invariant -/

/-- The nodes of the batch that have not been retired. -/
def unretired (nodes retired : List ℕ) : ℕ := nodes.countP fun r => r ∉ retired

theorem unretired_append_of_not_mem {nodes : List ℕ} (retired : List ℕ) {r : ℕ}
    (hr : r ∉ nodes) : unretired nodes (retired ++ [r]) = unretired nodes retired := by
  refine countP_congr fun q hq => ?_
  have hne : q ≠ r := ne_of_mem_of_not_mem hq hr
  simp [hne]

/-- The retirement of a node of the batch. -/
theorem unretired_append {nodes retired : List ℕ} {r : ℕ} (hnodup : nodes.Nodup) (hr : r ∈ nodes)
    (hretired : r ∉ retired) : unretired nodes retired = unretired nodes (retired ++ [r]) + 1 := by
  have hperm := perm_cons_erase hr
  have herase : r ∉ nodes.erase r := fun h => (hnodup.mem_erase_iff.mp h).1 rfl
  have hrest := unretired_append_of_not_mem retired herase
  unfold unretired at hrest ⊢
  rw [hperm.countP_eq, hperm.countP_eq, countP_cons, countP_cons, hrest]
  simp [hretired]

theorem mem_of_unretired_eq_zero {nodes retired : List ℕ} (h : unretired nodes retired = 0) {r : ℕ}
    (hr : r ∈ nodes) : r ∈ retired := by
  have hnone := countP_eq_zero.mp h r hr
  simpa using hnone

/-- The nodes are submitted requests with hooks. Each slot has the result of the last CQE of its
node, and the counter is the number of the nodes that are not retired. -/
structure Sound (s : State) : Prop where
  driver : Uring.Reachable s.desk.driver
  nodup : s.nodes.Nodup
  submitted : ∀ r ∈ s.nodes, r ∈ s.desk.driver.submitted ∧
    (s.desk.driver.request r).handler = true
  output : ∀ r ∈ s.nodes, s.output r = lastResult (s.desk.driver.request r).handled
  pending : s.pending = unretired s.nodes s.desk.driver.retired
  done : s.done = true → s.pending = 0
  idle : s.phase = .idle → s.nodes = []
  returned : ∀ results, s.phase = .returned results →
    s.pending = 0 ∧ results = s.nodes.map s.output

variable {s s' : State} {c : Cqe} {rest : List Cqe}

/-- An entry completes only the request to which it refers. -/
theorem target_of_retires {b : Driver} {r : ℕ} (h : b.retires c = some r) : target c = some r := by
  unfold Driver.retires at h
  unfold target
  cases htag : c.tag with
  | wake =>
    rw [htag] at h
    cases h
  | cancel q =>
    rw [htag] at h
    dsimp only at h
    split_ifs at h
    exact h
  | request q =>
    rw [htag] at h
    dsimp only at h
    split_ifs at h
    exact h

theorem refersTo_of_target {r : ℕ} (h : target c = some r) : c.RefersTo r := by
  unfold target at h
  split at h
  · cases h
  · rename_i q htag
    exact .inr (htag.trans (congrArg Tag.cancel (Option.some.inj h)))
  · rename_i q htag
    exact .inl (htag.trans (congrArg Tag.request (Option.some.inj h)))

theorem target_of_tag {r : ℕ} (h : c.tag = .request r) : target c = some r := by
  rw [target, h]

/-- What the hooks of a node do for an entry. -/
theorem callHooks_fields {r : ℕ} (ht : target c = some r) (hr : r ∈ s.nodes) :
    (s.callHooks c).nodes = s.nodes ∧ (s.callHooks c).phase = s.phase ∧
    (s.callHooks c).output =
      (if c.tag = .request r then Function.update s.output r c.res else s.output) ∧
    (s.callHooks c).pending =
      (if s.desk.driver.retires c = some r then s.pending - 1 else s.pending) ∧
    (s.callHooks c).done =
      (if s.desk.driver.retires c = some r then s.done || s.pending - 1 == 0 else s.done) := by
  have heq : s.callHooks c = (s.desk.driver.hooks c r).foldl (State.hook r) s := by
    rw [State.callHooks, ht]
    exact if_pos hr
  rw [heq, Driver.hooks]
  split_ifs <;> exact ⟨rfl, rfl, rfl, rfl, rfl⟩

theorem callHooks_eq_self (h : ∀ r, target c = some r → r ∉ s.nodes) : s.callHooks c = s := by
  unfold State.callHooks
  split
  · rfl
  · rename_i r ht
    exact if_neg (h r ht)

namespace Sound

theorem other (hs : Sound s) {a : Act} {driver : Driver} (h : Uring.Step s.desk.driver a driver)
    (ha : ∀ e, a ≠ .handle e) : Sound { s with desk := { s.desk with driver } } where
  driver := hs.driver.tail ⟨a, h⟩
  nodup := hs.nodup
  submitted r hr := by
    obtain ⟨hsub, handler⟩ := hs.submitted r hr
    exact ⟨h.mem_submitted hsub, (h.handler_eq hsub).trans handler⟩
  output r hr := by
    refine (hs.output r hr).trans (congrArg lastResult ?_)
    exact (h.request_eq ha (hs.submitted r hr).1).2.1.symm
  pending := hs.pending.trans (congrArg (unretired s.nodes) (h.retired_eq ha).symm)
  done := hs.done
  idle := hs.idle
  returned := hs.returned

/-- An entry is processed that does not refer to a node. -/
theorem handle_of_not_mem (hs : Sound s) (next : s.desk.driver.batch = c :: rest)
    (hnot : ∀ r, target c = some r → r ∉ s.nodes) : Sound (s.handle c rest) := by
  have hstep : Uring.Step s.desk.driver (.handle c) _ := .handle next
  have heq : s.handle c rest =
      { s with desk := { s.desk with
        driver := Driver.handle { s.desk.driver with batch := rest } c } } := by
    rw [State.handle, callHooks_eq_self hnot]
  rw [heq]
  refine ⟨hs.driver.tail ⟨_, hstep⟩, hs.nodup, fun r hr => ?_, fun r hr => ?_, ?_, hs.done, hs.idle,
    hs.returned⟩
  · obtain ⟨hsub, handler⟩ := hs.submitted r hr
    exact ⟨hstep.mem_submitted hsub, (hstep.handler_eq hsub).trans handler⟩
  · have hhandled := (request_handle { s.desk.driver with batch := rest } c r).2.1
      (hs.submitted r hr).2
    rw [if_neg fun htag => hnot r (target_of_tag htag) hr, append_nil] at hhandled
    exact (hs.output r hr).trans (congrArg lastResult hhandled.symm)
  · refine hs.pending.trans ?_
    change _ = unretired s.nodes (Driver.handle { s.desk.driver with batch := rest } c).retired
    rw [retired_handle]
    change _ = unretired s.nodes (s.desk.driver.retired ++ (s.desk.driver.retires c).toList)
    cases hretires : s.desk.driver.retires c with
    | none => rw [Option.toList_none, append_nil]
    | some q =>
      exact (unretired_append_of_not_mem _ (hnot q (target_of_retires hretires))).symm

/-- An entry of a node is processed: the node is not retired, so that the call has not returned. -/
theorem handle_of_mem (hs : Sound s) (next : s.desk.driver.batch = c :: rest) {r : ℕ}
    (ht : target c = some r) (hr : r ∈ s.nodes) : Sound (s.handle c rest) := by
  have hstep : Uring.Step s.desk.driver (.handle c) _ := .handle next
  have hretired := not_mem_retired_of_next hs.driver next (refersTo_of_target ht)
  have hpos : s.pending ≠ 0 := fun hzero =>
    hretired (mem_of_unretired_eq_zero (hs.pending.symm.trans hzero) hr)
  obtain ⟨hnodes, hphase, houtput, hpending, hdone⟩ := callHooks_fields ht hr
  have hretires : ∀ q, s.desk.driver.retires c = some q → q = r := fun q hq =>
    Option.some.inj ((target_of_retires hq).symm.trans ht)
  constructor
  case driver => exact hs.driver.tail ⟨_, hstep⟩
  case nodup => exact hnodes.symm ▸ hs.nodup
  case submitted =>
    intro q hq
    change q ∈ (s.callHooks c).nodes at hq
    rw [hnodes] at hq
    obtain ⟨hsub, handler⟩ := hs.submitted q hq
    exact ⟨hstep.mem_submitted hsub, (hstep.handler_eq hsub).trans handler⟩
  case output =>
    intro q hq
    change q ∈ (s.callHooks c).nodes at hq
    rw [hnodes] at hq
    have hhandled := (request_handle { s.desk.driver with batch := rest } c q).2.1
      (hs.submitted q hq).2
    change (s.callHooks c).output q =
      lastResult ((Driver.handle { s.desk.driver with batch := rest } c).request q).handled
    rw [houtput, hhandled]
    by_cases htag : c.tag = .request q
    · cases (target_of_tag htag).symm.trans ht
      rw [if_pos htag, if_pos htag, update_self, lastResult_append]
    · rw [if_neg htag, append_nil]
      refine Eq.trans ?_ (hs.output q hq)
      split_ifs with htag'
      · refine update_of_ne ?_ ..
        rintro rfl
        exact htag htag'
      · rfl
  case pending =>
    change (s.callHooks c).pending = unretired (s.callHooks c).nodes
      (Driver.handle { s.desk.driver with batch := rest } c).retired
    rw [hnodes, hpending, retired_handle]
    change _ = unretired s.nodes (s.desk.driver.retired ++ (s.desk.driver.retires c).toList)
    cases hq : s.desk.driver.retires c with
    | none => rw [if_neg nofun, Option.toList_none, append_nil, hs.pending]
    | some q =>
      obtain rfl := hretires q hq
      rw [if_pos rfl, hs.pending, unretired_append hs.nodup hr hretired]
      exact Nat.add_sub_cancel ..
  case done =>
    intro hset
    change (s.callHooks c).done = true at hset
    change (s.callHooks c).pending = 0
    rw [hdone] at hset
    rw [hpending]
    split_ifs at hset ⊢
    · rcases Bool.or_eq_true_iff.mp hset with hset | hset
      · exact absurd (hs.done hset) hpos
      · exact beq_iff_eq.mp hset
    · exact hs.done hset
  case idle => exact fun hidle => hnodes.trans (hs.idle (hphase.symm.trans hidle))
  case returned =>
    exact fun results hresults =>
      absurd (hs.returned results (hphase.symm.trans hresults)).1 hpos

theorem handle (hs : Sound s) (next : s.desk.driver.batch = c :: rest) :
    Sound (s.handle c rest) := by
  by_cases hmem : ∃ r, target c = some r ∧ r ∈ s.nodes
  · obtain ⟨r, ht, hr⟩ := hmem
    exact hs.handle_of_mem next ht hr
  · exact hs.handle_of_not_mem next fun r ht hr => hmem ⟨r, ht, hr⟩

/-- The call throws or returns at once, or its nodes are submitted. -/
theorem call (hs : Sound s) {stopped : Bool} {v : Except Thrown Unit} {desk : Desk}
    (idle : s.phase = .idle) (quiet : s.desk.driver.batch = [])
    (fresh : ∀ e ∈ entries, e.address ∉ s.desk.driver.submitted)
    (nodup : (entries.map Entry.address).Nodup)
    (run : (submit o stopped order entries).exec s.desk = some (v, desk)) :
    Sound (s.begin entries v desk) := by
  have hnodes := hs.idle idle
  have hpending : s.pending = 0 := by
    rw [hs.pending, hnodes]
    rfl
  rcases submit_spec run with ⟨x, rfl, hdriver, -⟩ | ⟨rfl, rfl, rfl⟩ |
    ⟨rfl, hne, prepared, hprepared, hdriver, -⟩
  · refine ⟨?_, hs.nodup, ?_, ?_, ?_, hs.done, nofun, nofun⟩ <;>
      simp only [State.begin, hdriver]
    · exact hs.driver
    · exact hs.submitted
    · exact hs.output
    · exact hs.pending
  · refine ⟨hs.driver, hs.nodup, hs.submitted, hs.output, hs.pending, hs.done, nofun,
      fun results h => ⟨hpending, ?_⟩⟩
    cases h
    exact congrArg (List.map s.output) hnodes.symm
  · have haddress := Entry.map_address_prepareAll hprepared
    have hbegin : s.begin entries (.ok ()) desk =
        { desk, phase := .waiting, nodes := entries.map Entry.address, pending := entries.length,
          done := false, output := fun _ => 0 } := if_neg hne
    have hnew : ∀ e ∈ prepared, e.address ∉ s.desk.driver.submitted := by
      intro e he
      have hmem : e.address ∈ entries.map Entry.address := haddress ▸ mem_map_of_mem he
      obtain ⟨e', he', heq⟩ := mem_map.mp hmem
      exact heq ▸ fresh e' he'
    obtain ⟨hsub, -, hretired⟩ := publish_fields s.desk prepared
    have hfresh : ∀ r ∈ entries.map Entry.address, r ∉ s.desk.driver.retired := by
      intro r hr hmem
      obtain ⟨e, he, rfl⟩ := mem_map.mp hr
      exact fresh e he (mem_submitted_of_mem_retired hs.driver hmem)
    rw [hbegin]
    refine ⟨?_, nodup, fun r hr => ?_, fun r hr => ?_, ?_, nofun, nofun, nofun⟩
    · rw [hdriver]
      exact hs.driver.trans (steps_publish quiet hnew (haddress.symm ▸ nodup))
    · rw [hdriver]
      refine ⟨hsub.symm ▸ mem_append_right _ (haddress.symm ▸ hr), ?_⟩
      exact (request_publish _ (.inr (haddress.symm ▸ hr))).1
    · rw [hdriver]
      change 0 = lastResult _
      rw [(request_publish _ (.inr (haddress.symm ▸ hr))).2]
      rfl
    · rw [hdriver]
      change entries.length = unretired (entries.map Entry.address) _
      rw [hretired, unretired, countP_eq_length.mpr fun r hr => ?_, length_map]
      simpa using hfresh r hr

theorem step (hs : Sound s) (h : Step o s s') : Sound s' := by
  cases h with
  | call stopped order entries idle quiet fresh nodup run =>
    exact hs.call idle quiet fresh nodup run
  | queue queue =>
    exact ⟨hs.driver, hs.nodup, hs.submitted, hs.output, hs.pending, hs.done, hs.idle, hs.returned⟩
  | other step other => exact hs.other step other
  | handle next => exact hs.handle next
  | resume waiting done =>
    refine ⟨hs.driver, hs.nodup, hs.submitted, hs.output, hs.pending, hs.done, nofun,
      fun results h => ⟨hs.done done, ?_⟩⟩
    cases h
    rfl

end Sound

theorem Reachable.sound (h : Reachable o s) : Sound s := by
  induction h with
  | refl =>
    exact ⟨.refl, nodup_nil, nofun, nofun, rfl, nofun, fun _ => rfl, nofun⟩
  | tail _ h ih => exact ih.step h

/-- The hooks of an entry change neither the nodes nor where the coroutine is. -/
theorem callHooks_nodes (s : State) (c : Cqe) :
    (s.callHooks c).nodes = s.nodes ∧ (s.callHooks c).phase = s.phase := by
  by_cases hmem : ∃ r, target c = some r ∧ r ∈ s.nodes
  · obtain ⟨r, ht, hr⟩ := hmem
    obtain ⟨hnodes, hphase, -⟩ := callHooks_fields ht hr
    exact ⟨hnodes, hphase⟩
  · rw [callHooks_eq_self fun r ht hr => hmem ⟨r, ht, hr⟩]
    exact ⟨rfl, rfl⟩

/-- After the call its nodes stay the same, and a call that has thrown does not return. -/
theorem nodes_eq_of_run {s₀ : State} (h : Relation.ReflTransGen (Step o) s₀ s)
    (hphase : s₀.phase ≠ .idle) : s.phase ≠ .idle ∧ s.nodes = s₀.nodes ∧
      ∀ x, s₀.phase = .threw x → s.phase = .threw x := by
  induction h with
  | refl => exact ⟨hphase, rfl, fun _ => id⟩
  | @tail s s' _ hstep ih =>
    obtain ⟨hne, hnodes, hthrew⟩ := ih
    cases hstep with
    | call stopped order entries idle quiet fresh nodup run => exact absurd idle hne
    | queue queue => exact ⟨hne, hnodes, hthrew⟩
    | other step other => exact ⟨hne, hnodes, hthrew⟩
    | @handle e rest next =>
      obtain ⟨hn, hp⟩ := callHooks_nodes s e
      exact ⟨fun h => hne (hp.symm.trans h), hn.trans hnodes, fun x h => hp.trans (hthrew x h)⟩
    | resume waiting done =>
      exact ⟨nofun, hnodes, fun x h => nomatch (hthrew x h).symm.trans waiting⟩

/-- The call may return `x` for the request `r`: the request is retired, no CQE of it or of its
cancellation is outstanding, and `x` is the result of its last CQE. -/
structure Reports (b : Driver) (r : ℕ) (x : ℤ) : Prop where
  retired : r ∈ b.retired
  settled : ¬b.Outstanding r
  last : ∃ l p, (b.request r).handled = l ++ [p] ∧ more p = false ∧ (∀ q ∈ l, more q = true) ∧
    p.1 = x

/-- When the call has returned, it reports every node in its place. -/
theorem Sound.reports (hs : Sound s) {results : List ℤ} (hresults : s.phase = .returned results) :
    List.Forall₂ (Reports s.desk.driver) s.nodes results := by
  obtain ⟨hzero, rfl⟩ := hs.returned results hresults
  refine List.forall₂_map_right_iff.mpr (List.forall₂_same.mpr fun r hr => ?_)
  obtain ⟨hsub, handler⟩ := hs.submitted r hr
  have hretired := mem_of_unretired_eq_zero (hs.pending.symm.trans hzero) hr
  obtain ⟨l, p, hhandled, hlast, hmore⟩ :=
    exists_handled_of_mem_retired hs.driver hretired handler
  refine ⟨hretired, (mem_retired_iff hs.driver hsub).mp hretired, l, p, hhandled, hlast, hmore, ?_⟩
  rw [hs.output r hr, hhandled, lastResult_append]

/-- The nodes that the call waits for are those of the entries. -/
theorem Sound.nodes_begin (hs : Sound s) (idle : s.phase = .idle) :
    (s.begin entries (.ok ()) d).nodes = entries.map Entry.address := by
  by_cases hnil : entries = []
  · subst hnil
    exact hs.idle idle
  · exact congrArg State.nodes (if_neg hnil)

/-- **If `uring::submit` throws, no entry has been queued or put into `io_`; otherwise every entry
has been queued once, in order. When the call has returned, there is one result for each entry, in
the order of the entries: that of the last CQE of its node, which is retired, with no CQE of it or
of its cancellation outstanding.** -/
theorem submit_all_or_nothing (h : Reachable o s) (stopped : Bool) (order : Link)
    (entries : List Entry) (v : Except Thrown Unit) (d : Desk)
    (hrun : (submit o stopped order entries).exec s.desk = some (v, d)) :
    (∀ x, v = .error x →
      d.driver = s.desk.driver ∧ d.queue.published = s.desk.queue.published) ∧
    (v = .ok () → ∃ prepared, Entry.prepareAll order entries = .ok prepared ∧
      d.queue.published = s.desk.queue.published ++ prepared.map Entry.sqe ∧
      d.driver.io = (entries.map Entry.address).reverse ++ s.desk.driver.io) ∧
    (s.phase = .idle → s.desk.driver.batch = [] →
      (∀ e ∈ entries, e.address ∉ s.desk.driver.submitted) →
      (entries.map Entry.address).Nodup →
      ∀ s' results, Relation.ReflTransGen (Step o) (s.begin entries v d) s' →
        s'.phase = .returned results →
        List.Forall₂ (fun e x => Reports s'.desk.driver e.address x) entries results) := by
  refine ⟨?_, ?_, fun idle quiet fresh nodup s' results hsteps hresults => ?_⟩
  · rintro x rfl
    rcases submit_spec hrun with ⟨_, -, hdriver, hpublished⟩ | ⟨hv, -⟩ | ⟨hv, -⟩
    · exact ⟨hdriver, hpublished⟩
    · cases hv
    · cases hv
  · rintro rfl
    rcases submit_spec hrun with ⟨x, hv, -⟩ | ⟨-, rfl, rfl⟩ |
      ⟨-, -, prepared, hprepared, hdriver, hpublished⟩
    · cases hv
    · exact ⟨[], rfl, (append_nil _).symm, rfl⟩
    · refine ⟨prepared, hprepared, hpublished, ?_⟩
      rw [hdriver, (publish_fields ..).2.1, Entry.map_address_prepareAll hprepared]
  · have hbegin : Reachable o (s.begin entries v d) :=
      h.tail (.call stopped order entries idle quiet fresh nodup hrun)
    have hreports := Sound.reports (Reachable.sound (hbegin.trans hsteps)) hresults
    have hphase : (s.begin entries v d).phase ≠ .idle := by
      unfold State.begin
      split
      · nofun
      · split_ifs <;> nofun
    obtain ⟨-, hnodes, hthrew⟩ := nodes_eq_of_run hsteps hphase
    cases v with
    | error x => exact nomatch hresults.symm.trans (hthrew x rfl)
    | ok v =>
      rw [hnodes, h.sound.nodes_begin idle] at hreports
      exact List.forall₂_map_left_iff.mp hreports

/-- A ring with two entries. -/
def pairOptions : Options := { entries := 2, entries_pos := Nat.two_pos }

/-- A batch of two entries. -/
def pair : List Entry := [{ address := 0 }, { address := 1 }]

/-- The batch has been submitted. -/
def waitingState : State := ({} : State).begin pair (.ok ()) (({} : Desk).publish pair)

/-- The first request is canceled. Its last CQE comes after that of the second request and after
that of its cancellation. -/
theorem exists_returned : ∃ s, Relation.ReflTransGen (Step pairOptions) waitingState s ∧
    s.phase = .returned [-125, 5] := by
  have hcancel : Relation.ReflTransGen (Step pairOptions) waitingState _ :=
    .single (.other (.cancel (r := 0) (by decide) rfl rfl) nofun)
  have hsecond := hcancel.tail
    (.other (.last (e := { tag := .request 1, res := 5 }) (r := 1) rfl rfl rfl) nofun)
  have hanswer := hsecond.tail
    (.other (.answer (e := { tag := .cancel 0 }) (r := 0) rfl (by decide)) nofun)
  have hfirst := hanswer.tail
    (.other (.last (e := { tag := .request 0, res := -125 }) (r := 0) rfl rfl rfl) nofun)
  have hpeek := hfirst.tail (.other (.peek 3 rfl) nofun)
  have hhandled := ((hpeek.tail (.handle rfl)).tail (.handle rfl)).tail (.handle rfl)
  exact ⟨_, hhandled.tail (.resume rfl rfl), rfl⟩

theorem submit_all_or_nothing_pair : ∃ s : State, s.phase = .returned [-125, 5] ∧
    List.Forall₂ (fun e x => Reports s.desk.driver e.address x) pair [-125, 5] := by
  obtain ⟨s, hsteps, hresults⟩ := exists_returned
  have hall := submit_all_or_nothing (o := pairOptions) (s := {}) .refl false .none pair (.ok ())
    (({} : Desk).publish pair) rfl
  exact ⟨s, hresults, hall.2.2 rfl rfl (by simp) (by decide) s _ hsteps hresults⟩

end Snowy.Uring.SubmitBatch
