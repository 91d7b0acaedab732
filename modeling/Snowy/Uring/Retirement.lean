import Snowy.Uring.Driver

/-!
# Retirement of io_uring requests

What concerns one request is its *lifecycle*: the flags, the CQEs that carry its address and have
not been looked at, and how often it was canceled and completed. Each step of the driver is a step
of the lifecycle of at most one request (`Step.lifecycle`), so the invariant of a lifecycle
(`Lifecycle.Valid`) holds for all requests of all runs.

## Main results

* `Snowy.Uring.Lifecycle.Valid.step` : the invariant of one lifecycle.
* `Snowy.Uring.Reachable.drains_eq` : `drains` counts the pending draining requests.
* `Snowy.Uring.mem_retired_iff` : a request is completed exactly when the last CQE
  that carries its address has been processed.
-/

namespace Snowy.Uring

open Function List

/-! ### The lifecycle of one request -/

/-- What concerns one request: whether the kernel still works on it, its flags, the `F_MORE` flags
of its CQEs that have not been processed, in order, the number of CQEs of its cancellation still to
come or to be processed, and how often it has been canceled, completed and linked. -/
structure Lifecycle where
  submitted : Bool := false
  running : Bool := false
  done : Bool := false
  canceling : Bool := false
  cancelSent : Bool := false
  own : List Bool := []
  owed : ℕ := 0
  sent : ℕ := 0
  retired : ℕ := 0
  linked : ℕ := 0
  deriving DecidableEq, Repr

namespace Lifecycle

variable {v v' : Lifecycle}

/-- The request is completed and unlinked. -/
def retire (v : Lifecycle) : Lifecycle :=
  { v with retired := v.retired + 1, linked := v.linked - 1 }

/-- A CQE of the request is processed. -/
def receive (v : Lifecycle) (more : Bool) (rest : List Bool) : Lifecycle :=
  let v := { v with own := rest, done := !more }
  if v.done && !v.canceling then v.retire else v

/-- The CQE of its cancellation is processed. -/
def answer (v : Lifecycle) : Lifecycle :=
  let v := { v with owed := v.owed - 1, canceling := false }
  if v.done then v.retire else v

/-- One step of a lifecycle. -/
inductive Step : Lifecycle → Lifecycle → Prop
  | submit : Step {} { submitted := true, running := true, linked := 1 }
  | cancel {v : Lifecycle} (linked : 0 < v.linked) (unsent : v.cancelSent = false) :
      Step v { v with
        canceling := true, cancelSent := true, owed := v.owed + 1, sent := v.sent + 1 }
  | more {v : Lifecycle} (running : v.running = true) :
      Step v { v with own := v.own ++ [true] }
  | last {v : Lifecycle} (running : v.running = true) :
      Step v { v with running := false, own := v.own ++ [false] }
  | receive {v : Lifecycle} {more : Bool} {rest : List Bool} (own : v.own = more :: rest) :
      Step v (v.receive more rest)
  | answer {v : Lifecycle} (owed : 0 < v.owed) : Step v v.answer

/-- The invariant of a submitted request. Its CQEs that are still to be processed are any number
with `F_MORE`, followed by the last one when the kernel has written it, and none once that has been
processed. It is completed once both its last CQE and that of its cancellation have been processed,
and it is linked until then. -/
structure Valid (v : Lifecycle) : Prop where
  submitted : v.submitted = true
  running : v.running = true → v.done = false ∧ false ∉ v.own
  last : v.running = false → v.done = false → ∃ l, v.own = l ++ [false] ∧ false ∉ l
  done : v.done = true → v.own = []
  owed : v.owed = if v.canceling then 1 else 0
  sent : v.sent = if v.cancelSent then 1 else 0
  cancelSent : v.canceling = true → v.cancelSent = true
  retired : v.retired = if v.done && !v.canceling then 1 else 0
  linked : v.linked = if v.done && !v.canceling then 0 else 1

namespace Valid

theorem cancel (hv : Valid v) (linked : 0 < v.linked) (unsent : v.cancelSent = false) :
    Valid { v with
      canceling := true, cancelSent := true, owed := v.owed + 1, sent := v.sent + 1 } := by
  have hcanceling : v.canceling = false := by
    by_contra h
    exact Bool.false_ne_true (unsent.symm.trans (hv.cancelSent (by simpa using h)))
  have hdone : v.done = false := by
    by_contra h
    have hdone : v.done = true := by simpa using h
    simp [hv.linked, hcanceling, hdone] at linked
  exact
  { hv with
    owed := by simp [hv.owed, hcanceling]
    sent := by simp [hv.sent, unsent]
    cancelSent := fun _ => rfl
    retired := by simp [hv.retired, hdone]
    linked := by simp [hv.linked, hdone] }

theorem more (hv : Valid v) (running : v.running = true) :
    Valid { v with own := v.own ++ [true] } := by
  obtain ⟨hdone, hown⟩ := hv.running running
  exact
  { hv with
    running := fun _ => ⟨hdone, by simpa using hown⟩
    last := fun h => by simp [running] at h
    done := fun h => absurd (hdone.symm.trans h) Bool.false_ne_true }

theorem write_last (hv : Valid v) (running : v.running = true) :
    Valid { v with running := false, own := v.own ++ [false] } := by
  obtain ⟨hdone, hown⟩ := hv.running running
  exact
  { hv with
    running := fun h => absurd h Bool.false_ne_true
    last := fun _ _ => ⟨v.own, rfl, hown⟩
    done := fun h => absurd (hdone.symm.trans h) Bool.false_ne_true }

/-- A CQE of the request is processed. Only the last one can complete it. -/
theorem receive (hv : Valid v) {more : Bool} {rest : List Bool} (own : v.own = more :: rest) :
    Valid (v.receive more rest) := by
  have hdone : v.done = false := by
    by_contra h
    simp [hv.done (by simpa using h)] at own
  have hretired : v.retired = 0 := by simp [hv.retired, hdone]
  have hlinked : v.linked = 1 := by simp [hv.linked, hdone]
  cases more with
  | true =>
    have heq : v.receive true rest = { v with own := rest, done := false } := by
      simp [Lifecycle.receive]
    rw [heq]
    exact
    { hv with
      running := fun h => ⟨rfl, fun hmem => (hv.running h).2 (own ▸ mem_cons_of_mem _ hmem)⟩
      last := fun h _ => by
        obtain ⟨l, hl, hl'⟩ := hv.last h hdone
        cases l with
        | nil => simp [hl] at own
        | cons b l =>
          rw [own, cons_append, List.cons.injEq] at hl
          exact ⟨l, hl.2, fun hmem => hl' (mem_cons_of_mem _ hmem)⟩
      done := fun h => absurd h Bool.false_ne_true
      retired := by simp [hretired]
      linked := by simp [hlinked] }
  | false =>
    have hrunning : v.running = false := by
      by_contra h
      exact (hv.running (by simpa using h)).2 (own ▸ mem_cons_self)
    have hrest : rest = [] := by
      obtain ⟨l, hl, hl'⟩ := hv.last hrunning hdone
      cases l with
      | nil => simpa [own] using hl
      | cons b l =>
        rw [own, cons_append, List.cons.injEq] at hl
        exact absurd (hl.1 ▸ mem_cons_self) hl'
    have heq : v.receive false rest =
        if v.canceling then { v with own := [], done := true }
        else { v with own := [], done := true, retired := 1, linked := 0 } := by
      cases h : v.canceling <;> simp [Lifecycle.receive, retire, hrest, h, hretired, hlinked]
    rw [heq]
    split_ifs with hcanceling
    · exact
      { hv with
        running := fun h => by simp [hrunning] at h
        last := fun _ h => by simp at h
        done := fun _ => rfl
        retired := by simp [hretired, hcanceling]
        linked := by simp [hlinked, hcanceling] }
    · exact
      { hv with
        running := fun h => by simp [hrunning] at h
        last := fun _ h => by simp at h
        done := fun _ => rfl
        retired := by simp [hcanceling]
        linked := by simp [hcanceling] }

/-- The CQE of the cancellation is processed. It completes the request when the last CQE of the
request itself has been processed before. -/
theorem answer (hv : Valid v) (owed : 0 < v.owed) : Valid v.answer := by
  have hcanceling : v.canceling = true := by
    by_contra h
    simp [hv.owed, h] at owed
  have howed : v.owed = 1 := by simp [hv.owed, hcanceling]
  have hretired : v.retired = 0 := by simp [hv.retired, hcanceling]
  have hlinked : v.linked = 1 := by simp [hv.linked, hcanceling]
  have heq : v.answer =
      if v.done then { v with owed := 0, canceling := false, retired := 1, linked := 0 }
      else { v with owed := 0, canceling := false } := by
    cases h : v.done <;> simp [Lifecycle.answer, retire, h, howed, hretired, hlinked]
  rw [heq]
  split_ifs with hdone
  · exact
    { hv with
      owed := rfl
      cancelSent := fun h => absurd h Bool.false_ne_true
      retired := by simp [hdone]
      linked := by simp [hdone] }
  · exact
    { hv with
      owed := rfl
      cancelSent := fun h => absurd h Bool.false_ne_true
      retired := by simp [hdone, hretired]
      linked := by simp [hdone, hlinked] }

/-- A request is over when nothing that refers to it is left. -/
theorem over_iff (hv : Valid v) : (v.done && !v.canceling) = true ↔
    ¬ (v.running = true ∨ v.own ≠ [] ∨ 0 < v.owed) := by
  rw [Bool.and_eq_true_iff, Bool.not_eq_true', not_or, not_or]
  constructor
  · rintro ⟨hdone, hcanceling⟩
    refine ⟨fun h => ?_, fun h => h (hv.done hdone), ?_⟩
    · exact Bool.false_ne_true ((hv.running h).1.symm.trans hdone)
    · simp [hv.owed, hcanceling]
  · rintro ⟨hrunning, hown, howed⟩
    constructor
    · by_contra hdone
      obtain ⟨l, hl, -⟩ := hv.last (by simpa using hrunning) (by simpa using hdone)
      exact hown (by simp [hl])
    · by_contra hcanceling
      exact howed (by simp [hv.owed, hcanceling])

end Valid

/-- A step from a lifecycle that is new or valid gives a valid one. -/
theorem Step.valid (h : Step v v') (hv : v = {} ∨ Valid v) : Valid v' := by
  rcases hv with rfl | hv
  · -- nothing but the submission is possible
    cases h with
    | submit =>
      exact
      { submitted := rfl
        running := fun _ => ⟨rfl, not_mem_nil⟩
        last := fun h => nomatch h
        done := fun h => nomatch h
        owed := rfl
        sent := rfl
        cancelSent := fun h => h
        retired := rfl
        linked := rfl }
    | cancel linked => exact absurd linked (Nat.lt_irrefl 0)
    | more running => cases running
    | last running => cases running
    | receive own => cases own
    | answer owed => exact absurd owed (Nat.lt_irrefl 0)
  · cases h with
    | submit => exact absurd hv.submitted Bool.false_ne_true
    | cancel linked unsent => exact hv.cancel linked unsent
    | more running => exact hv.more running
    | last running => exact hv.write_last running
    | receive own => exact hv.receive own
    | answer owed => exact hv.answer owed

end Lifecycle

/-! ### The driver follows the lifecycles -/

namespace Driver

variable (s : Driver) (r : ℕ)

/-- The entries that `poll` has not looked at. -/
def queue : List Cqe := s.batch ++ s.cq

/-- What concerns the request `r`. -/
def lifecycle : Lifecycle where
  submitted := s.submitted.contains r
  running := s.running r
  done := (s.request r).done
  canceling := (s.request r).canceling
  cancelSent := (s.request r).cancelSent
  own := (s.queue.filter (·.tag = .request r)).map Cqe.more
  owed := s.unanswered r + s.queue.countP (·.tag = .cancel r)
  sent := s.sent.count r
  retired := s.retired.count r
  linked := s.io.count r

variable {s r} {r' : ℕ}

theorem lifecycle_retire : (s.retire r).lifecycle r = (s.lifecycle r).retire := by
  unfold retire
  dsimp only
  split_ifs <;> simp [complete, lifecycle, Lifecycle.retire, queue]

theorem lifecycle_retire_of_ne (h : r' ≠ r) : (s.retire r).lifecycle r' = s.lifecycle r' := by
  have hcount : [r].count r' = 0 := count_eq_zero.mpr (by simpa using h)
  unfold retire
  dsimp only
  split_ifs <;>
    simp [complete, lifecycle, queue, hcount, count_erase_of_ne h]

theorem lifecycle_setRequest (f : Io → Io) : (s.setRequest r f).lifecycle r =
    { s.lifecycle r with
      done := (f (s.request r)).done
      canceling := (f (s.request r)).canceling
      cancelSent := (f (s.request r)).cancelSent } := by
  simp [setRequest, lifecycle, queue]

theorem lifecycle_setRequest_of_ne (f : Io → Io) (h : r' ≠ r) :
    (s.setRequest r f).lifecycle r' = s.lifecycle r' := by
  simp [setRequest, lifecycle, queue, h]

end Driver

variable {s s' : Driver} {a : Act} {e : Cqe} {r : ℕ}

/-- The lifecycle before an entry is processed, from the state in which it is taken from the
batch. -/
theorem lifecycle_of_batch {rest : List Cqe} (next : s.batch = e :: rest) (r : ℕ) :
    s.lifecycle r =
      let v := Driver.lifecycle { s with batch := rest } r
      { v with
        own := if e.tag = .request r then e.more :: v.own else v.own
        owed := if e.tag = .cancel r then v.owed + 1 else v.owed } := by
  simp only [Driver.lifecycle, Driver.queue, next, cons_append, filter_cons,
    countP_cons, decide_eq_true_eq]
  split_ifs <;> simp_all [Nat.add_assoc]

theorem lifecycle_write (e : Cqe) (r : ℕ) : (s.write e).lifecycle r =
    { s.lifecycle r with
      own := if e.tag = .request r then (s.lifecycle r).own ++ [e.more] else (s.lifecycle r).own
      owed := if e.tag = .cancel r then (s.lifecycle r).owed + 1 else (s.lifecycle r).owed } := by
  simp only [Driver.lifecycle, Driver.queue, Driver.write, ← append_assoc,
    filter_append _ [e], countP_append, map_append]
  split_ifs <;> simp_all [Nat.add_assoc]

theorem lifecycle_handle_cancel {q : ℕ} (tag : e.tag = .cancel q) :
    (s.handle e).lifecycle q =
      Lifecycle.answer { s.lifecycle q with owed := (s.lifecycle q).owed + 1 } := by
  have hset := Driver.lifecycle_setRequest (s := s) (r := q) fun op =>
    { op with canceling := false }
  have hdone : (s.lifecycle q).done = (s.request q).done := rfl
  simp only [Driver.handle, tag, Lifecycle.answer, hdone, Driver.setRequest, update_self,
    Nat.add_sub_cancel] at hset ⊢
  split_ifs
  · rw [Driver.lifecycle_retire, hset]
    rfl
  · exact hset

theorem lifecycle_handle_request {q : ℕ} (tag : e.tag = .request q) :
    (s.handle e).lifecycle q = (s.lifecycle q).receive e.more (s.lifecycle q).own := by
  have hset := Driver.lifecycle_setRequest (s := s) (r := q) fun op => op.record e
  have hcanceling : (s.lifecycle q).canceling = (s.request q).canceling := rfl
  simp only [Driver.handle, tag, Lifecycle.receive, hcanceling, Driver.setRequest,
    update_self, Io.done_record, Io.canceling_record, Io.cancelSent_record] at hset ⊢
  split_ifs
  · rw [Driver.lifecycle_retire, hset]
    rfl
  · exact hset

theorem lifecycle_handle_of_ne (hrequest : e.tag ≠ .request r) (hcancel : e.tag ≠ .cancel r) :
    (s.handle e).lifecycle r = s.lifecycle r := by
  unfold Driver.handle
  split
  · rfl
  all_goals
    rename_i q tag
    have hne : r ≠ q := fun h => by simp_all
    dsimp only
    split_ifs
    · rw [Driver.lifecycle_retire_of_ne hne, Driver.lifecycle_setRequest_of_ne _ hne]
    · exact Driver.lifecycle_setRequest_of_ne _ hne

/-- Processing an entry is a step of the lifecycle of the request that it refers to. -/
theorem handle_lifecycle {rest : List Cqe} (next : s.batch = e :: rest) (r : ℕ) :
    (Driver.handle { s with batch := rest } e).lifecycle r = s.lifecycle r ∨
      Lifecycle.Step (s.lifecycle r) ((Driver.handle { s with batch := rest } e).lifecycle r) := by
  have hbatch := lifecycle_of_batch next r
  by_cases hrequest : e.tag = .request r
  · right
    rw [lifecycle_handle_request hrequest, hbatch]
    simp only [hrequest, reduceCtorEq, if_true, if_false]
    exact .receive rfl
  · by_cases hcancel : e.tag = .cancel r
    · right
      rw [lifecycle_handle_cancel hcancel, hbatch]
      simp only [hcancel, reduceCtorEq, if_true, if_false]
      exact .answer (Nat.succ_pos _)
    · left
      rw [lifecycle_handle_of_ne hrequest hcancel, hbatch]
      simp only [hrequest, hcancel, if_false]

/-- Each step is a step of the lifecycle of at most one request. -/
theorem Step.lifecycle (h : Step s a s') (hnew : r ∉ s.submitted → s.lifecycle r = {}) :
    s'.lifecycle r = s.lifecycle r ∨ Lifecycle.Step (s.lifecycle r) (s'.lifecycle r) := by
  cases h with
  | @submit q code handler batched draining fresh idle =>
    by_cases hr : r = q
    · subst hr
      right
      have hsubmit : (s.submit r code handler batched draining).lifecycle r =
          { s.lifecycle r with
            submitted := true, running := true, done := false, canceling := false,
            cancelSent := false, linked := (s.lifecycle r).linked + 1 } := by
        simp [Driver.lifecycle, Driver.queue, Driver.submit]
      rw [hsubmit, hnew fresh]
      exact .submit
    · left
      simp [Driver.lifecycle, Driver.queue, Driver.submit, hr, count_cons_of_ne (Ne.symm hr)]
  | @cancel q mem unsent idle =>
    by_cases hr : r = q
    · subst hr
      right
      have hstep : Lifecycle.Step (s.lifecycle r) _ :=
        .cancel (count_pos_iff.mpr mem) unsent
      convert hstep using 1
      simp [Driver.lifecycle, Driver.queue, Driver.cancel, Driver.setRequest, Nat.add_right_comm]
    · left
      have hcount : [q].count r = 0 := count_eq_zero.mpr (by simpa using hr)
      simp [Driver.lifecycle, Driver.queue, Driver.cancel, Driver.setRequest, hr, hcount]
  | peek n idle =>
    left
    simp [Driver.lifecycle, Driver.queue, Driver.peek, idle]
  | handle next => exact handle_lifecycle next r
  | @more e q tag more running =>
    rw [lifecycle_write]
    by_cases hr : q = r
    · subst hr
      right
      simp only [tag, more, reduceCtorEq, if_true, if_false]
      exact .more running
    · left
      simp [tag, hr]
  | @last e q tag more running =>
    have hlast :
        Driver.lifecycle { s.write e with running := update s.running q false } r =
        { (s.write e).lifecycle r with running := update s.running q false r } := rfl
    rw [hlast, lifecycle_write]
    by_cases hr : q = r
    · subst hr
      right
      simp only [tag, more, reduceCtorEq, if_true, if_false, update_self]
      exact .last running
    · left
      simp [tag, hr, update_of_ne (Ne.symm hr), Driver.lifecycle]
  | @answer e q tag unanswered =>
    left
    have hanswer : Driver.lifecycle { s.write e with
          unanswered := update s.unanswered q (s.unanswered q - 1) } r =
        { (s.write e).lifecycle r with
          owed := update s.unanswered q (s.unanswered q - 1) r +
            (s.write e).queue.countP (·.tag = .cancel r) } := rfl
    rw [hanswer, lifecycle_write]
    have hqueue : (s.write e).queue.countP (·.tag = .cancel r) =
        s.queue.countP (·.tag = .cancel r) + if q = r then 1 else 0 := by
      simp [Driver.write, Driver.queue, tag, ← append_assoc, countP_append]
    by_cases hr : q = r
    · subst hr
      have hsum : ∀ n, s.unanswered q - 1 + (n + 1) = s.unanswered q + n := by omega
      simp [tag, hqueue, hsum, Driver.lifecycle]
    · simp [tag, hr, hqueue, update_of_ne (Ne.symm hr), Driver.lifecycle]
  | wake tag =>
    left
    simp [lifecycle_write, tag]

/-- Every request is new or in a valid state of its lifecycle. -/
theorem Reachable.lifecycle (hs : Reachable s) (r : ℕ) :
    s.lifecycle r = {} ∨ (s.lifecycle r).Valid := by
  induction hs with
  | refl => exact .inl rfl
  | @tail s s' _ h ih =>
    obtain ⟨a, h⟩ := h
    have hnew : r ∉ s.submitted → s.lifecycle r = {} := fun hr =>
      ih.resolve_right fun hv => hr (by simpa [Driver.lifecycle] using hv.submitted)
    rcases h.lifecycle hnew with heq | hstep
    · exact heq ▸ ih
    · exact .inr (hstep.valid ih)

/-- A request that was submitted is in a valid state. -/
theorem Reachable.valid (hs : Reachable s) (h : r ∈ s.submitted) : (s.lifecycle r).Valid := by
  refine (hs.lifecycle r).resolve_left fun hnew => ?_
  have hsub := congrArg Lifecycle.submitted hnew
  simp [Driver.lifecycle, h] at hsub

/-! ### Outstanding entries -/

/-- The entry carries the address of the request. -/
def Cqe.RefersTo (e : Cqe) (r : ℕ) : Prop := e.tag = .request r ∨ e.tag = .cancel r

/-- Some CQE that carries the address of the request has not been processed: it is still to be
written by the kernel, or it is in the completion queue or in the present batch. -/
def Driver.Outstanding (s : Driver) (r : ℕ) : Prop :=
  s.running r = true ∨ 0 < s.unanswered r ∨ ∃ e ∈ s.queue, e.RefersTo r

theorem outstanding_iff : s.Outstanding r ↔
    (s.lifecycle r).running = true ∨ (s.lifecycle r).own ≠ [] ∨ 0 < (s.lifecycle r).owed := by
  have hown : (s.lifecycle r).own ≠ [] ↔ ∃ e ∈ s.queue, e.tag = .request r := by
    simp [Driver.lifecycle]
  have hcount : 0 < s.queue.countP (·.tag = .cancel r) ↔ ∃ e ∈ s.queue, e.tag = .cancel r := by
    simp only [countP_pos_iff, decide_eq_true_eq]
  have howed : 0 < (s.lifecycle r).owed ↔
      0 < s.unanswered r ∨ ∃ e ∈ s.queue, e.tag = .cancel r := by
    rw [← hcount]
    exact Nat.add_pos_iff_pos_or_pos
  rw [hown, howed, Driver.Outstanding]
  simp only [Cqe.RefersTo, and_or_left, exists_or]
  exact or_congr Iff.rfl or_left_comm

/-- A submitted request is completed exactly when no CQE is outstanding. -/
theorem mem_retired_iff (hs : Reachable s) (h : r ∈ s.submitted) :
    r ∈ s.retired ↔ ¬ s.Outstanding r := by
  have hv := hs.valid h
  have hretired : r ∈ s.retired ↔ ((s.lifecycle r).done && !(s.lifecycle r).canceling) = true := by
    have hcount : (s.lifecycle r).retired = s.retired.count r := rfl
    rw [← count_pos_iff, ← hcount, hv.retired]
    split_ifs <;> simp_all
  rw [hretired, outstanding_iff]
  exact hv.over_iff

theorem mem_submitted_of_mem_retired (hs : Reachable s) (h : r ∈ s.retired) : r ∈ s.submitted := by
  have hcount : 0 < (s.lifecycle r).retired := count_pos_iff.mpr h
  rcases hs.lifecycle r with hnew | hv
  · simp [hnew] at hcount
  · simpa [Driver.lifecycle] using hv.submitted

theorem nodup_retired (hs : Reachable s) : s.retired.Nodup := by
  refine nodup_iff_count_le_one.mpr fun r => ?_
  change (s.lifecycle r).retired ≤ 1
  rcases hs.lifecycle r with hnew | hv
  · simp [hnew]
  · rw [hv.retired]
    split_ifs <;> simp

theorem nodup_sent (hs : Reachable s) : s.sent.Nodup := by
  refine nodup_iff_count_le_one.mpr fun r => ?_
  change (s.lifecycle r).sent ≤ 1
  rcases hs.lifecycle r with hnew | hv
  · simp [hnew]
  · rw [hv.sent]
    split_ifs <;> simp

/-- A linked request is not completed. -/
theorem not_mem_retired_of_mem_io (hs : Reachable s) (h : r ∈ s.io) : r ∉ s.retired := by
  intro hr
  have hlinked : 0 < (s.lifecycle r).linked := count_pos_iff.mpr h
  have hretired : 0 < (s.lifecycle r).retired := count_pos_iff.mpr hr
  have hv := hs.valid (mem_submitted_of_mem_retired hs hr)
  rw [hv.linked] at hlinked
  rw [hv.retired] at hretired
  split_ifs at hlinked hretired <;> simp_all

/-- Only the processing of an entry that refers to a request completes it. -/
theorem Step.retires (h : Step s a s') (hr : r ∈ s'.retired) (hr' : r ∉ s.retired) :
    ∃ e, a = .handle e ∧ e.RefersTo r := by
  cases h with
  | @handle e rest next =>
    refine ⟨e, rfl, ?_⟩
    by_contra hne
    rw [Cqe.RefersTo, not_or] at hne
    have hcount : (Driver.handle { s with batch := rest } e).retired.count r = s.retired.count r :=
      congrArg Lifecycle.retired (lifecycle_handle_of_ne hne.1 hne.2)
    rw [← count_pos_iff, hcount, count_pos_iff] at hr
    exact hr' hr
  | _ => exact absurd hr hr'

/-! ### Drains -/

/-- A request to which an entry refers is linked. -/
theorem mem_io_of_refersTo (hs : Reachable s) (he : e ∈ s.queue) (h : e.RefersTo r) : r ∈ s.io := by
  have hout : s.Outstanding r := .inr (.inr ⟨e, he, h⟩)
  rcases hs.lifecycle r with hnew | hv
  · rw [outstanding_iff, hnew] at hout
    simp at hout
  · have hover := mt hv.over_iff.mp (not_not.mpr (outstanding_iff.mp hout))
    have hlinked : 0 < s.io.count r := by
      change 0 < (s.lifecycle r).linked
      simp [hv.linked, hover]
    exact count_pos_iff.mp hlinked

/-- The number of the linked draining requests. -/
def Driver.draining (s : Driver) : ℕ := s.io.countP fun r => (s.request r).draining

theorem draining_setRequest {f : Io → Io} (hf : ∀ op, (f op).draining = op.draining) :
    (s.setRequest r f).draining = s.draining := by
  refine countP_congr fun i _ => ?_
  by_cases hi : i = r
  · subst hi
    simp [Driver.setRequest, hf]
  · simp [Driver.setRequest, update_of_ne hi]

/-- A completion takes a draining request out of the count and out of the list. -/
theorem drains_retire (h : s.drains = s.draining) (hr : r ∈ s.io) :
    (s.retire r).drains = (s.retire r).draining := by
  have herase := (perm_cons_erase hr).countP_eq fun i => (s.request i).draining
  rw [countP_cons] at herase
  unfold Driver.retire
  dsimp only
  split_ifs with hdraining
  · simp [Driver.complete, Driver.draining, h, herase, hdraining]
  · simp [Driver.complete, Driver.draining, h, herase, hdraining]

theorem drains_handle (h : s.drains = s.draining) (hr : ∀ r, e.RefersTo r → r ∈ s.io) :
    (s.handle e).drains = (s.handle e).draining := by
  unfold Driver.handle
  split
  · exact h
  all_goals
    rename_i r tag
    dsimp only
    split_ifs
    · refine drains_retire (h.trans (draining_setRequest fun op => by simp).symm) (hr r ?_)
      simp [Cqe.RefersTo, tag]
    · exact h.trans (draining_setRequest fun op => by simp).symm

/-- `drains` is the number of the draining requests that are not completed. -/
theorem Reachable.drains_eq (hs : Reachable s) : s.drains = s.draining := by
  induction hs with
  | refl => rfl
  | @tail s s' hs h ih =>
    obtain ⟨a, h⟩ := h
    cases h with
    | @submit r code handler batched draining fresh idle =>
      have hr : r ∉ s.io := fun hmem => by
        have hlinked : 0 < (s.lifecycle r).linked := count_pos_iff.mpr hmem
        rcases Reachable.lifecycle hs r with hnew | hv
        · simp [hnew] at hlinked
        · exact fresh (by simpa [Driver.lifecycle] using hv.submitted)
      have hio : s.io.countP (fun i =>
          ((s.submit r code handler batched draining).request i).draining) = s.draining := by
        refine countP_congr fun i hi => ?_
        have hne : i ≠ r := fun h => hr (h ▸ hi)
        simp [Driver.submit, update_of_ne hne]
      change (if draining then s.drains + 1 else s.drains) = List.countP _ (r :: s.io)
      rw [countP_cons, hio, ih]
      cases draining <;> simp [Driver.submit]
    | @cancel r mem unsent idle =>
      have hcancel : (s.cancel r).draining = s.draining := draining_setRequest
        (f := fun op => { op with canceling := true, cancelSent := true }) fun _ => rfl
      exact ih.trans hcancel.symm
    | @handle e rest next =>
      refine drains_handle ih fun r hr => ?_
      exact mem_io_of_refersTo (s := s) hs (by simp [Driver.queue, next]) hr
    | _ => exact ih

/-! ### Main result -/

/-- **Retirement of io_uring requests.** In every state of every run, with a kernel that writes for
each request any number of CQEs with `F_MORE` and then one without, and one CQE for each
cancellation, in any order and split over any batches:

* no request is completed twice, and a submitted request is completed exactly when no CQE that
  carries its address is outstanding;
* the step that completes a request is the processing of such a CQE, the last one;
* a request is canceled at most once, and not after its completion;
* no CQE that is still to be processed carries the address of a completed request. -/
theorem retires_exactly_once (hs : Reachable s) :
    s.retired.Nodup ∧
    (∀ r ∈ s.submitted, r ∈ s.retired ↔ ¬ s.Outstanding r) ∧
    (∀ a s' r, Step s a s' → r ∈ s'.retired → r ∉ s.retired →
      ∃ e, a = .handle e ∧ e.RefersTo r ∧ ¬ s'.Outstanding r) ∧
    s.sent.Nodup ∧
    (∀ s' r, Step s (.cancel r) s' → r ∉ s.retired) ∧
    ∀ r ∈ s.retired, r ∈ s.submitted ∧ ∀ e ∈ s.queue, ¬ e.RefersTo r := by
  refine ⟨nodup_retired hs, fun r hr => mem_retired_iff hs hr, fun a s' r h hr hr' => ?_,
    nodup_sent hs, fun s' r h => ?_, fun r hr => ?_⟩
  · have hs' : Reachable s' := hs.tail ⟨a, h⟩
    obtain ⟨e, ha, he⟩ := h.retires hr hr'
    exact ⟨e, ha, he, (mem_retired_iff hs' (mem_submitted_of_mem_retired hs' hr)).mp hr⟩
  · cases h with
    | cancel mem => exact not_mem_retired_of_mem_io hs mem
  · have hsub := mem_submitted_of_mem_retired hs hr
    exact ⟨hsub, fun e he href => (mem_retired_iff hs hsub).mp hr (.inr (.inr ⟨e, he, href⟩))⟩

/-- A request that is canceled: the CQE of the cancellation comes first. -/
theorem exists_retired_of_cancel : ∃ s : Driver, Reachable s ∧ s.sent = [0] ∧ s.retired = [0] := by
  refine ⟨_, .head ⟨_, .submit (r := 0) .read false false false not_mem_nil rfl⟩ <|
    .head ⟨_, .cancel mem_cons_self rfl rfl⟩ <|
    .head ⟨_, .answer (e := { tag := .cancel 0 }) rfl (by decide)⟩ <|
    .head ⟨_, .last (e := { tag := .request 0, res := -125 }) rfl rfl rfl⟩ <|
    .head ⟨_, .peek 128 rfl⟩ <| .head ⟨_, .handle rfl⟩ <| .single ⟨_, .handle rfl⟩, rfl, rfl⟩

theorem retires_exactly_once_of_cancel :
    ∃ s : Driver, Reachable s ∧ s.retired = [0] ∧ ¬ s.Outstanding 0 := by
  obtain ⟨s, hs, -, hr⟩ := exists_retired_of_cancel
  obtain ⟨-, hiff, -, -, -, hsub⟩ := retires_exactly_once hs
  have hmem : 0 ∈ s.retired := by simp [hr]
  exact ⟨s, hs, hr, (hiff 0 (hsub 0 hmem).1).mp hmem⟩

end Snowy.Uring
