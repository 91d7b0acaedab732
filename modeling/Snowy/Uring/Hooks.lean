import Snowy.Uring.Retirement

/-!
# Hooks of io_uring requests

A request may have the hooks `result`, which `poll` calls for each of its CQEs, and `retire`, which
it calls instead of resuming a coroutine. What an operation of the library does with its CQEs is
what its hooks do, so that its state is determined by the calls: the history of the request. This
file says what the history is. The calls of `result` are those for the CQEs that the kernel has
written, in order; all but the last carry `F_MORE`. The request is completed once, and it is the
last thing that happens to it.

## Main definitions

* `Snowy.Uring.Hook`, `Snowy.Uring.Driver.hooks` : the calls that `poll` makes for an entry.
* `Snowy.Uring.Driver.history` : the calls that have been made for a request.
* `Snowy.Uring.Driver.posted`, `Snowy.Uring.Driver.unseen` : the CQEs of a request that the kernel
  has written, and those of them that `poll` has not looked at.

## Main results

* `Snowy.Uring.history_handle`, `Snowy.Uring.Step.history_eq` : how the history grows.
* `Snowy.Uring.Step.posted_eq` : how the written CQEs grow.
* `Snowy.Uring.Reachable.handled` : `F_MORE` in the history.
-/

namespace Snowy.Uring

open Function List

/-- A call of a hook of a request; without the hook `retire` its coroutine is resumed. -/
inductive Hook where
  | result (res : ℤ) (flags : ℕ)
  | retire
  deriving DecidableEq, Repr

/-- The flag `F_MORE` of the result and the flags of a CQE. -/
def more (p : ℤ × ℕ) : Bool := p.2.testBit 1

namespace Driver

variable (s : Driver) (e : Cqe) (r : ℕ)

/-- The request that `poll` completes when it looks at the entry. -/
def retires : Option ℕ :=
  match e.tag with
  | .wake => none
  | .cancel r => if (s.request r).done then some r else none
  | .request r => if !e.more && !(s.request r).canceling then some r else none

/-- The calls for the request `r` that `poll` makes for the entry. -/
def hooks : List Hook :=
  (if e.tag = .request r then [.result e.res e.flags] else []) ++
    if s.retires e = some r then [.retire] else []

/-- The calls that have been made for the request `r`. -/
def history : List Hook :=
  (s.request r).handled.map (fun p => .result p.1 p.2) ++ if r ∈ s.retired then [.retire] else []

/-- The results and flags of the CQEs of the request `r` that `poll` has not looked at. -/
def unseen : List (ℤ × ℕ) :=
  (s.queue.filter (·.tag = .request r)).map fun e => (e.res, e.flags)

/-- The results and flags of the CQEs of the request `r` that the kernel has written. -/
def posted : List (ℤ × ℕ) := (s.request r).handled ++ s.unseen r

end Driver

/-- What the kernel writes for the request `r` in a step. -/
def Act.posts (a : Act) (r : ℕ) : List (ℤ × ℕ) :=
  match a with
  | .write e => if e.tag = .request r then [(e.res, e.flags)] else []
  | _ => []

variable {s s' : Driver} {a : Act} {e : Cqe} {r : ℕ} {rest : List Cqe}

/-! ### The fields of a request after an entry -/

theorem Io.handler_record (op : Io) (e : Cqe) : (op.record e).handler = op.handler := by
  unfold record
  dsimp only
  split_ifs <;> rfl

theorem Io.handled_record {op : Io} (h : op.handler = true) (e : Cqe) :
    (op.record e).handled = op.handled ++ [(e.res, e.flags)] := by
  unfold record
  dsimp only
  rw [if_pos h]
  split_ifs <;> rfl

theorem request_retire (s : Driver) (r : ℕ) : (s.retire r).request = s.request := by
  unfold Driver.retire
  dsimp only
  split_ifs <;> rfl

theorem retired_retire (s : Driver) (r : ℕ) : (s.retire r).retired = s.retired ++ [r] := by
  unfold Driver.retire
  dsimp only
  split_ifs <;> rfl

theorem queue_retire (s : Driver) (r : ℕ) : (s.retire r).queue = s.queue := by
  unfold Driver.retire
  dsimp only
  split_ifs <;> rfl

theorem submitted_retire (s : Driver) (r : ℕ) : (s.retire r).submitted = s.submitted := by
  unfold Driver.retire
  dsimp only
  split_ifs <;> rfl

/-- Processing an entry changes the request it refers to, and completes it or not. -/
theorem handle_spec (s : Driver) (e : Cqe) :
    (s.handle e).queue = s.queue ∧ (s.handle e).submitted = s.submitted ∧
    (s.handle e).retired = s.retired ++ (s.retires e).toList ∧
    (s.handle e).request = match e.tag with
      | .wake => s.request
      | .cancel q => (s.setRequest q fun op => { op with canceling := false }).request
      | .request q => (s.setRequest q fun op => op.record e).request := by
  unfold Driver.handle Driver.retires
  cases htag : e.tag with
  | wake => exact ⟨rfl, rfl, (append_nil _).symm, rfl⟩
  | cancel q =>
    simp only [Driver.setRequest, update_self]
    split_ifs
    · exact ⟨queue_retire .., submitted_retire .., retired_retire .., request_retire ..⟩
    · exact ⟨rfl, rfl, (append_nil _).symm, rfl⟩
  | request q =>
    simp only [Driver.setRequest, update_self, Io.done_record, Io.canceling_record]
    split_ifs
    · exact ⟨queue_retire .., submitted_retire .., retired_retire .., request_retire ..⟩
    · exact ⟨rfl, rfl, (append_nil _).symm, rfl⟩

theorem submitted_handle (s : Driver) (e : Cqe) : (s.handle e).submitted = s.submitted :=
  (handle_spec s e).2.1

theorem retired_handle (s : Driver) (e : Cqe) :
    (s.handle e).retired = s.retired ++ (s.retires e).toList :=
  (handle_spec s e).2.2.1

/-- A request after the entry: `result` is called for the CQEs of the request itself. -/
theorem request_handle (s : Driver) (e : Cqe) (r : ℕ) :
    ((s.handle e).request r).handler = (s.request r).handler ∧
    ((s.request r).handler = true → ((s.handle e).request r).handled =
      (s.request r).handled ++ if e.tag = .request r then [(e.res, e.flags)] else []) ∧
    ((s.handle e).request r).done =
      if e.tag = .request r then !e.more else (s.request r).done := by
  rw [(handle_spec s e).2.2.2]
  cases htag : e.tag with
  | wake => simp
  | cancel q =>
    by_cases hr : r = q
    · subst hr
      simp [Driver.setRequest]
    · simp [Driver.setRequest, hr]
  | request q =>
    by_cases hr : r = q
    · subst hr
      refine ⟨?_, fun h => ?_, ?_⟩ <;> simp only [Driver.setRequest, update_self, if_true]
      · exact Io.handler_record ..
      · exact Io.handled_record h e
      · exact Io.done_record ..
    · simp [Driver.setRequest, hr, Ne.symm hr]

/-! ### The history -/

/-- Only entries that refer to a request cause calls for it. -/
theorem hooks_eq_nil (h : ¬e.RefersTo r) : s.hooks e r = [] := by
  rw [Cqe.RefersTo, not_or] at h
  have hretires : s.retires e ≠ some r := by
    unfold Driver.retires
    split
    · exact (Option.some_ne_none r).symm
    · rename_i q htag
      split_ifs
      · rintro ⟨rfl⟩
        exact h.2 htag
      · exact (Option.some_ne_none r).symm
    · rename_i q htag
      split_ifs
      · rintro ⟨rfl⟩
        exact h.1 htag
      · exact (Option.some_ne_none r).symm
  rw [Driver.hooks, if_neg h.1, if_neg hretires, append_nil]

theorem mem_submitted_of_outstanding (hs : Reachable s) (h : s.Outstanding r) :
    r ∈ s.submitted := by
  rcases hs.lifecycle r with hnew | hv
  · rw [outstanding_iff, hnew] at h
    simp at h
  · simpa [Driver.lifecycle] using hv.submitted

theorem not_mem_retired_of_next (hs : Reachable s) (next : s.batch = e :: rest)
    (h : e.RefersTo r) : r ∉ s.retired := by
  refine not_mem_retired_of_mem_io hs (mem_io_of_refersTo hs ?_ h)
  rw [Driver.queue, next]
  exact mem_append_left _ mem_cons_self

/-- **Processing an entry adds the calls for it to the history.** -/
theorem history_handle (hs : Reachable s) (next : s.batch = e :: rest)
    (handler : (s.request r).handler = true) :
    (Driver.handle { s with batch := rest } e).history r = s.history r ++ s.hooks e r := by
  obtain ⟨-, hhandled, -⟩ := request_handle { s with batch := rest } e r
  rw [Driver.history, hhandled handler, retired_handle]
  change _ ++ (if r ∈ s.retired ++ (s.retires e).toList then [Hook.retire] else []) = _
  by_cases hrefers : e.RefersTo r
  · have hretired := not_mem_retired_of_next hs next hrefers
    rw [Driver.history, Driver.hooks, if_neg hretired, append_nil, map_append,
      append_assoc]
    congr 2
    · split_ifs <;> rfl
    · simp [hretired]
  · have hnone := hooks_eq_nil (s := s) hrefers
    have hhooks := append_eq_nil_iff.mp hnone
    have hretires : s.retires e ≠ some r := fun h => by simp [h] at hhooks
    rw [hnone, append_nil, if_neg fun h => hrefers (.inl h), append_nil, Driver.history]
    simp [hretires]

theorem Step.mem_submitted (h : Step s a s') (hr : r ∈ s.submitted) : r ∈ s'.submitted := by
  cases h with
  | submit code handler batched draining fresh idle => exact mem_append_left _ hr
  | handle next => exact (submitted_handle ..).symm ▸ hr
  | _ => exact hr

/-- What a step does to a request, unless it processes an entry or submits the request. -/
theorem Step.request_eq (h : Step s a s') (ha : ∀ e, a ≠ .handle e) (hr : r ∈ s.submitted) :
    (s'.request r).handler = (s.request r).handler ∧
      (s'.request r).handled = (s.request r).handled ∧
      (s'.request r).done = (s.request r).done := by
  cases h with
  | @submit q code handler batched draining fresh idle =>
    have hq : r ≠ q := fun h => fresh (h ▸ hr)
    simp [Driver.submit, update_of_ne hq]
  | @cancel q mem unsent idle =>
    by_cases hq : r = q
    · subst hq
      simp [Driver.cancel, Driver.setRequest]
    · simp [Driver.cancel, Driver.setRequest, hq]
  | handle next => exact absurd rfl (ha _)
  | _ => exact ⟨rfl, rfl, rfl⟩

/-- Only the processing of an entry completes requests. -/
theorem Step.retired_eq (h : Step s a s') (ha : ∀ e, a ≠ .handle e) : s'.retired = s.retired := by
  cases h with
  | handle next => exact absurd rfl (ha _)
  | _ => rfl

theorem Step.history_eq (h : Step s a s') (ha : ∀ e, a ≠ .handle e) (hr : r ∈ s.submitted) :
    s'.history r = s.history r := by
  rw [Driver.history, Driver.history, (h.request_eq ha hr).2.1, h.retired_eq ha]

/-- Whether the request has a hook does not change. -/
theorem Step.handler_eq (h : Step s a s') (hr : r ∈ s.submitted) :
    (s'.request r).handler = (s.request r).handler := by
  by_cases ha : ∀ e, a ≠ .handle e
  · exact (h.request_eq ha hr).1
  · push Not at ha
    obtain ⟨e, rfl⟩ := ha
    cases h with
    | handle next => exact (request_handle _ e r).1

/-- A request that has just been submitted has no history. -/
theorem history_submit (hs : Reachable s) (fresh : r ∉ s.submitted) (code : Opcode)
    (handler batched draining : Bool) :
    (s.submit r code handler batched draining).history r = [] := by
  have hretired : r ∉ s.retired := fun h => fresh (mem_submitted_of_mem_retired hs h)
  simp [Driver.history, Driver.submit, hretired]

/-! ### `F_MORE` -/

/-- The CQEs for which `result` has been called: all but the last carry `F_MORE`, and `done` says
whether the last one has been processed. -/
def Handled (handled : List (ℤ × ℕ)) (done : Bool) : Prop :=
  if done then ∃ l p, handled = l ++ [p] ∧ more p = false ∧ ∀ q ∈ l, more q = true
  else ∀ q ∈ handled, more q = true

theorem Handled.append {l : List (ℤ × ℕ)} (h : Handled l false) (e : Cqe) :
    Handled (l ++ [(e.res, e.flags)]) (!e.more) := by
  have hall : ∀ q ∈ l, more q = true := h
  cases hmore : e.more with
  | false => exact ⟨l, _, rfl, hmore, hall⟩
  | true =>
    intro q hq
    rcases mem_append.mp hq with hq | hq
    · exact hall q hq
    · rw [mem_singleton.mp hq]
      exact hmore

theorem done_eq_false_of_next (hs : Reachable s) (next : s.batch = e :: rest)
    (tag : e.tag = .request r) (hr : r ∈ s.submitted) : (s.request r).done = false := by
  have hv := hs.valid hr
  by_contra hdone
  have hown := hv.done (Bool.of_not_eq_false hdone)
  simp [Driver.lifecycle, Driver.queue, next, tag] at hown

theorem Reachable.handled (hs : Reachable s) (hr : r ∈ s.submitted)
    (handler : (s.request r).handler = true) :
    Handled (s.request r).handled (s.request r).done := by
  induction hs with
  | refl => cases hr
  | @tail s s' hs h ih =>
    obtain ⟨a, h⟩ := h
    by_cases hsub : r ∈ s.submitted
    · rw [h.handler_eq hsub] at handler
      have hih := ih hsub handler
      by_cases ha : ∀ e, a ≠ .handle e
      · obtain ⟨-, hhandled, hdone⟩ := h.request_eq ha hsub
        rwa [hhandled, hdone]
      push Not at ha
      obtain ⟨e, rfl⟩ := ha
      cases h with
      | @handle _ rest next =>
        obtain ⟨-, hhandled, hdone⟩ := request_handle { s with batch := rest } e r
        rw [hhandled handler, hdone]
        split_ifs with htag
        · have hfalse := done_eq_false_of_next hs next htag hsub
          exact Handled.append (hfalse ▸ hih) e
        · rw [append_nil]
          exact hih
    · -- the step submits the request
      cases h with
      | @submit q code handler batched draining fresh idle =>
        have hq : r = q := by simpa [Driver.submit, hsub] using hr
        subst hq
        simp [Driver.submit, Handled]
      | handle next =>
        rw [submitted_handle] at hr
        exact absurd hr hsub
      | _ => exact absurd hr hsub

/-- The last CQE of a completed request has been processed. -/
theorem done_of_mem_retired (hs : Reachable s) (hr : r ∈ s.retired) :
    (s.request r).done = true := by
  have hv := hs.valid (mem_submitted_of_mem_retired hs hr)
  have hpos : 0 < (s.lifecycle r).retired := count_pos_iff.mpr hr
  rw [hv.retired] at hpos
  split_ifs at hpos with hover
  · exact (Bool.and_eq_true_iff.mp hover).1
  · exact absurd hpos (Nat.lt_irrefl 0)

/-- The CQEs of a completed request: the last one is the only one without `F_MORE`. -/
theorem exists_handled_of_mem_retired (hs : Reachable s) (hr : r ∈ s.retired)
    (handler : (s.request r).handler = true) : ∃ l p, (s.request r).handled = l ++ [p] ∧
      more p = false ∧ ∀ q ∈ l, more q = true := by
  have hhandled := hs.handled (mem_submitted_of_mem_retired hs hr) handler
  rw [done_of_mem_retired hs hr] at hhandled
  exact hhandled

/-! ### What the kernel has written -/

theorem unseen_write (e : Cqe) (r : ℕ) : (s.write e).unseen r =
    s.unseen r ++ if e.tag = .request r then [(e.res, e.flags)] else [] := by
  have hqueue : (s.write e).queue = s.queue ++ [e] := (append_assoc ..).symm
  rw [Driver.unseen, hqueue, filter_append, map_append]
  congr 1
  split_ifs with htag <;> simp [htag]

/-- An entry leaves the CQEs that `poll` has not looked at when it is processed. -/
theorem unseen_handle (next : s.batch = e :: rest) (r : ℕ) : s.unseen r =
    (if e.tag = .request r then [(e.res, e.flags)] else []) ++
      (Driver.handle { s with batch := rest } e).unseen r := by
  rw [Driver.unseen, Driver.unseen, (handle_spec _ e).1]
  simp only [Driver.queue, next, cons_append, filter_cons]
  split_ifs <;> simp_all

/-- Otherwise only the kernel changes them. -/
theorem Step.unseen_eq (h : Step s a s') (ha : ∀ e, a ≠ .handle e) (r : ℕ) :
    s'.unseen r = s.unseen r ++ a.posts r := by
  cases h with
  | handle next => exact absurd rfl (ha _)
  | submit code handler batched draining fresh idle => exact (append_nil _).symm
  | cancel mem unsent idle => exact (append_nil _).symm
  | peek n idle =>
    have hqueue : (s.peek n).queue = s.queue := by simp [Driver.queue, Driver.peek, idle]
    rw [Driver.unseen, hqueue]
    exact (append_nil _).symm
  | more tag more running => exact unseen_write ..
  | @last e q tag more running => exact unseen_write (s := s) e r
  | @answer e q tag unanswered => exact unseen_write (s := s) e r
  | wake tag => exact unseen_write ..

/-- **The kernel adds to what it has written; processing an entry does not change it.** -/
theorem Step.posted_eq (h : Step s a s') (hr : r ∈ s.submitted)
    (handler : (s.request r).handler = true) : s'.posted r = s.posted r ++ a.posts r := by
  by_cases ha : ∀ e, a ≠ .handle e
  · rw [Driver.posted, Driver.posted, (h.request_eq ha hr).2.1, h.unseen_eq ha r,
      append_assoc]
  · push Not at ha
    obtain ⟨e, rfl⟩ := ha
    cases h with
    | @handle _ rest next =>
      obtain ⟨-, hhandled, -⟩ := request_handle { s with batch := rest } e r
      rw [Driver.posted, Driver.posted, hhandled handler, unseen_handle next, append_assoc]
      exact (append_nil _).symm

/-- A completed request stays completed. -/
theorem Step.mem_retired (h : Step s a s') (hr : r ∈ s.retired) : r ∈ s'.retired := by
  by_cases ha : ∀ e, a ≠ .handle e
  · rwa [h.retired_eq ha]
  · push Not at ha
    obtain ⟨e, rfl⟩ := ha
    cases h with
    | handle next =>
      rw [retired_handle]
      exact mem_append_left _ hr

/-- All CQEs of a completed request have been processed. -/
theorem unseen_eq_nil_of_mem_retired (hs : Reachable s) (hr : r ∈ s.retired) : s.unseen r = [] := by
  have hv := hs.valid (mem_submitted_of_mem_retired hs hr)
  have hown := hv.done (done_of_mem_retired hs hr)
  simp only [Driver.lifecycle, map_eq_nil_iff] at hown
  rw [Driver.unseen, hown, map_nil]

/-- What `result` has been called for comes first among what the kernel has written. -/
theorem handled_isPrefix_posted (s : Driver) (r : ℕ) : (s.request r).handled <+: s.posted r :=
  prefix_append ..

theorem posted_submit (hs : Reachable s) (fresh : r ∉ s.submitted) (code : Opcode)
    (handler batched draining : Bool) :
    (s.submit r code handler batched draining).posted r = [] := by
  have hnew := (hs.lifecycle r).resolve_right fun hv =>
    fresh (by simpa [Driver.lifecycle] using hv.submitted)
  have hown := congrArg Lifecycle.own hnew
  simp only [Driver.lifecycle, map_eq_nil_iff] at hown
  simp only [Driver.posted, Driver.unseen, Driver.submit, update_self, nil_append,
    map_eq_nil_iff]
  exact hown

end Snowy.Uring
