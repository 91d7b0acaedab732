import Snowy.Uring.Retirement
import Snowy.Uring.Submission

/-!
# Draining requests and the poll of the eventfd

While a request with `IOSQE_IO_DRAIN` is pending, the kernel starts nothing that was queued behind
it, and does not start the request itself before everything ahead of it has completed, the poll of
the eventfd included. So a poll of the eventfd that is ahead of it must complete for sure, and none
may be queued behind it. The loop makes the counter of the eventfd positive before it queues a
draining request, and leaves the poll unarmed until the last of them is completed; meanwhile `poll`
returns after a millisecond.

There are two invariants. `Ring.Armed` relates the flags of the driver, the counter of the eventfd
and the polls that are outstanding. `Ring.Ordered` says that no poll of the eventfd is queued behind
a pending draining request.

## Main definitions

* `Snowy.Uring.Ring.outstanding` : the number of the polls of the eventfd that are queued, with the
  kernel, or answered by a CQE that has not been processed.
* `Snowy.Uring.Ring.Owed` : the kernel has to complete the poll of the eventfd.

## Main results

* `Snowy.Uring.Ring.drain_wakeup` : a draining request does not block the poll of the eventfd, and
  `poll` waits long only while it is armed.
-/

namespace Snowy.Uring

open Function List

/-! ### What the driver keeps -/

namespace Driver

variable (s : Driver) (e : Cqe) (r : ℕ)

/-- What does not change while `poll` goes through its batch, or only shrinks. -/
structure Shrinks (s s' : Driver) : Prop where
  queue : s'.queue = s.queue
  submitted : s'.submitted = s.submitted
  draining : ∀ r, (s'.request r).draining = (s.request r).draining
  io : s'.io ⊆ s.io
  drains : s'.drains ≤ s.drains

theorem Shrinks.trans {s₁ s₂ s₃ : Driver} (h : Shrinks s₁ s₂) (h' : Shrinks s₂ s₃) :
    Shrinks s₁ s₃ where
  queue := h'.queue.trans h.queue
  submitted := h'.submitted.trans h.submitted
  draining r := (h'.draining r).trans (h.draining r)
  io := List.Subset.trans h'.io h.io
  drains := Nat.le_trans h'.drains h.drains

theorem shrinks_setRequest {f : Io → Io} (hf : ∀ op, (f op).draining = op.draining) :
    Shrinks s (s.setRequest r f) := by
  refine ⟨rfl, rfl, fun i => ?_, List.Subset.refl _, Nat.le_refl _⟩
  by_cases hi : i = r
  · subst hi
    simp [setRequest, hf]
  · simp [setRequest, update_of_ne hi]

theorem shrinks_retire : Shrinks s (s.retire r) := by
  unfold retire
  dsimp only
  split_ifs
  · exact ⟨rfl, rfl, fun _ => rfl, erase_subset, Nat.sub_le _ _⟩
  · exact ⟨rfl, rfl, fun _ => rfl, erase_subset, Nat.le_refl _⟩

theorem shrinks_handle : Shrinks s (s.handle e) := by
  unfold handle
  split
  · exact ⟨rfl, rfl, fun _ => rfl, List.Subset.refl _, Nat.le_refl _⟩
  all_goals
    rename_i r tag
    dsimp only
    split_ifs
    · exact (s.shrinks_setRequest r fun op => by simp).trans (shrinks_retire _ r)
    · exact s.shrinks_setRequest r fun op => by simp

end Driver

/-! ### The flags, the counter and the polls -/

/-- The CQE answers a poll of the eventfd. -/
def Cqe.isWake (e : Cqe) : Bool := e.tag = .wake

/-- `wake_seen`. -/
def Phase.wakeSeen : Phase → Bool
  | .scanning wakeSeen => wakeSeen
  | _ => false

/-- Outside of the part of `poll` that processes completions. -/
def Phase.settled : Phase → Bool
  | .idle => true
  | .waiting _ => true
  | _ => false

namespace Ring

variable {o : Options} {s s' : Ring}

/-- The polls of the eventfd that are queued, with the kernel, or answered by a CQE that `poll` has
not processed. -/
def outstanding (s : Ring) : ℕ :=
  s.sq.countP Sqe.isWake + s.polls + s.base.queue.countP Cqe.isWake

/-- The flags of the driver agree with the polls of the eventfd and its counter. -/
structure Armed (s : Ring) : Prop where
  outstanding : s.outstanding + s.phase.wakeSeen.toNat = s.watching.toNat
  waking : s.watchWaking = true → s.watching = true ∧ 0 < s.event
  drains : 0 < s.base.drains → s.watching = true → s.watchWaking = true
  settled : s.phase.settled = true → s.base.drains = 0 → s.watching = true
  reading : s.phase = .reading → s.watching = false

/-- What `Armed` speaks about is the same. -/
structure Quiet (s s' : Ring) : Prop where
  watching : s'.watching = s.watching
  watchWaking : s'.watchWaking = s.watchWaking
  event : s'.event = s.event
  phase : s'.phase = s.phase
  drains : s'.base.drains = s.base.drains
  outstanding : s'.outstanding = s.outstanding

theorem Quiet.refl (s : Ring) : Quiet s s := ⟨rfl, rfl, rfl, rfl, rfl, rfl⟩

theorem Quiet.trans {s₁ s₂ s₃ : Ring} (h : Quiet s₁ s₂) (h' : Quiet s₂ s₃) : Quiet s₁ s₃ where
  watching := h'.watching.trans h.watching
  watchWaking := h'.watchWaking.trans h.watchWaking
  event := h'.event.trans h.event
  phase := h'.phase.trans h.phase
  drains := h'.drains.trans h.drains
  outstanding := h'.outstanding.trans h.outstanding

theorem Armed.congr (hs : s.Armed) (h : Quiet s s') : s'.Armed := by
  obtain ⟨h₁, h₂, h₃, h₄, h₅⟩ := hs
  refine ⟨?_, ?_, ?_, ?_, ?_⟩
  · rwa [h.outstanding, h.phase, h.watching]
  · rwa [h.watchWaking, h.watching, h.event]
  · rwa [h.drains, h.watching, h.watchWaking]
  · rwa [h.phase, h.drains, h.watching]
  · rwa [h.phase, h.watching]

theorem outstanding_flush (s : Ring) : s.flush.outstanding = s.outstanding := by
  simp only [outstanding, flush, countP_nil]
  omega

theorem quiet_flush (s : Ring) : Quiet s s.flush :=
  ⟨rfl, rfl, rfl, rfl, rfl, outstanding_flush s⟩

theorem quiet_makeRoom (s : Ring) (count : ℕ) : Quiet s (s.makeRoom o count) :=
  makeRoom_induction (Quiet.refl s) (fun s₁ h => h.trans (quiet_flush s₁)) count

theorem outstanding_append (s : Ring) (e : Sqe) :
    (s.append e).outstanding = s.outstanding + e.isWake.toNat := by
  cases h : e.isWake <;> simp [outstanding, append, countP_append, h]; omega

/-- An entry is queued that does not poll the eventfd. -/
theorem quiet_append {e : Sqe} (he : e.tag ≠ .wake) : Quiet s (s.append e) :=
  ⟨rfl, rfl, rfl, rfl, rfl, by simp [outstanding_append, Sqe.isWake, he]⟩

theorem exists_quiet_append (s : Ring) (f : Bool) (e : Sqe) :
    ∃ s₁, Quiet s s₁ ∧ s.sqe o f e = s₁.append e :=
  sqe_induction (Quiet.refl s) (fun s₁ h => h.trans (quiet_flush s₁)) f e

theorem quiet_sqe (s : Ring) (f : Bool) {e : Sqe} (he : e.tag ≠ .wake) : Quiet s (s.sqe o f e) := by
  obtain ⟨s₁, h, hsqe⟩ := s.exists_quiet_append (o := o) f e
  rw [hsqe]
  exact h.trans (quiet_append he)

theorem event_wake_pos (s : Ring) : 0 < s.wake.event := by
  show 0 < if s.event < 2 ^ 64 - 2 then s.event + 1 else s.event
  split_ifs <;> omega

namespace Armed

/-- The counter of the eventfd is raised. -/
theorem wake (hs : s.Armed) : s.wake.Armed :=
  ⟨hs.outstanding, fun h => ⟨(hs.waking h).1, s.event_wake_pos⟩, hs.drains, hs.settled, hs.reading⟩

theorem wakePoll (hs : s.Armed) (drain : Bool) : (s.wakePoll drain).Armed := by
  unfold Ring.wakePoll
  split_ifs with h
  · have hwatching : s.watching = true := by
      simp only [Bool.and_eq_true] at h
      exact h.1.2
    exact ⟨hs.outstanding, fun _ => ⟨hwatching, s.event_wake_pos⟩, fun _ _ => rfl, hs.settled,
      hs.reading⟩
  · exact hs

theorem wakeFirst (hs : s.Armed) (drain : Bool) : (s.wakeFirst o drain).Armed := by
  unfold Ring.wakeFirst
  split_ifs
  · exact (hs.congr (s.quiet_makeRoom 1)).wakePoll true
  · exact hs

/-- A request is linked, with the poll of the eventfd woken if it drains. -/
theorem enter (hs : s.Armed) {r : ℕ} {x : Request}
    (hwaking : x.flags.drain = true → s.watching = true → s.watchWaking = true) :
    (s.enter r x).Armed := by
  refine ⟨hs.outstanding, hs.waking, fun hdrains hwatching => ?_, fun hsettled hdrains => ?_,
    hs.reading⟩
  · cases hdrain : x.flags.drain with
    | true => exact hwaking hdrain hwatching
    | false =>
      have hsame : (s.enter r x).base.drains = s.base.drains := by
        simp [Ring.enter, Driver.submit, hdrain]
      exact hs.drains (hsame ▸ hdrains) hwatching
  · have hle : s.base.drains ≤ (s.enter r x).base.drains := by
      simp only [Ring.enter, Driver.submit]
      split_ifs <;> omega
    exact hs.settled hsettled (Nat.le_zero.mp (hdrains ▸ hle))

theorem publish (hs : s.Armed) {entries : List Entry}
    (hwaking : ∀ e ∈ entries, e.flags.drain = true → s.watching = true → s.watchWaking = true) :
    (s.publish entries).Armed := by
  induction entries generalizing s with
  | nil =>
    have hnil : s.publish [] = s := by simp [Ring.publish]
    rwa [hnil]
  | cons e rest ih =>
    rw [publish_cons]
    have hquiet : Quiet s (s.append e.sqe) := quiet_append (e := e.sqe) (by simp [Entry.sqe])
    refine ih ((hs.congr hquiet).enter (hwaking e mem_cons_self)) fun e' he' => ?_
    exact hwaking e' (mem_cons_of_mem _ he')

/-- The poll of the eventfd is armed. -/
theorem watch (hnone : s.outstanding = 0) (hseen : s.phase.wakeSeen = false)
    (hdrains : s.base.drains = 0) (hwaking : s.watchWaking = false) (hphase : s.phase ≠ .reading) :
    (s.watch o).Armed := by
  obtain ⟨s₁, h, hsqe⟩ := s.exists_quiet_append (o := o) true { tag := .wake }
  have hcount := s₁.outstanding_append { tag := .wake }
  rw [← hsqe, h.outstanding, hnone] at hcount
  have hquiet : (s.sqe o true { tag := .wake }).watchWaking = s.watchWaking ∧
      (s.sqe o true { tag := .wake }).phase = s.phase ∧
      (s.sqe o true { tag := .wake }).base.drains = s.base.drains := by
    rw [hsqe]
    exact ⟨h.watchWaking, h.phase, h.drains⟩
  refine ⟨?_, fun hw => ?_, fun hd => ?_, fun _ _ => rfl, fun hr => ?_⟩
  · show (s.sqe o true { tag := .wake }).outstanding +
      (s.sqe o true { tag := .wake }).phase.wakeSeen.toNat = 1
    rw [hcount, hquiet.2.1, hseen]
    rfl
  · exact absurd (hw.symm.trans (hquiet.1.trans hwaking)) (by decide)
  · exact absurd (hquiet.2.2.trans hdrains) (Nat.ne_of_gt hd)
  · exact absurd (hquiet.2.1.symm.trans hr) hphase

section

variable (hs : s.Armed)
include hs

/-- The owner thread goes on without processing a completion. -/
theorem goto {p : Phase} (hseen : p.wakeSeen = s.phase.wakeSeen)
    (hsettled : p.settled = true → s.base.drains = 0 → s.watching = true)
    (hreading : p = .reading → s.watching = false) : (s.goto p).Armed := by
  refine ⟨?_, hs.waking, hs.drains, hsettled, hreading⟩
  show s.outstanding + p.wakeSeen.toNat = s.watching.toNat
  rw [hseen, hs.outstanding]

theorem handle {e : Cqe} {rest : List Cqe} {w : Bool} (scanning : s.phase = .scanning w)
    (next : s.base.batch = e :: rest) : (s.handle w e rest).Armed := by
  have hshrinks := Driver.shrinks_handle { s.base with batch := rest } e
  have hone := hs.outstanding
  have hqueue : s.base.queue = e :: (rest ++ s.base.cq) := by simp [Driver.queue, next]
  have hcount : s.outstanding = (s.handle w e rest).outstanding + e.isWake.toNat := by
    have hrest : (s.handle w e rest).base.queue = rest ++ s.base.cq := hshrinks.queue
    show _ = s.sq.countP Sqe.isWake + s.polls + (s.handle w e rest).base.queue.countP Cqe.isWake + _
    rw [Ring.outstanding, hqueue, hrest, countP_cons]
    cases e.isWake <;> simp [Nat.add_assoc]
  rw [scanning, hcount] at hone
  refine ⟨?_, hs.waking, fun hd => hs.drains (Nat.lt_of_lt_of_le hd hshrinks.drains),
    fun h => absurd h Bool.false_ne_true, fun h => absurd h (by simp [Ring.handle])⟩
  -- The poll has one CQE, so the flag was not set before.
  show (s.handle w e rest).outstanding + (w || e.isWake).toNat = s.watching.toNat
  have hle := s.watching.toNat_le
  simp only [Phase.wakeSeen] at hone
  cases w <;> cases he : e.isWake <;> simp [he] at hone ⊢ <;> omega

theorem clear (scanning : s.phase = .scanning true) : s.clear.Armed := by
  have hone := hs.outstanding
  have hle := s.watching.toNat_le
  simp only [scanning, Phase.wakeSeen, Bool.toNat_true] at hone
  have hnone : s.outstanding = 0 := by omega
  exact ⟨hnone, fun h => absurd h Bool.false_ne_true, fun _ h => absurd h Bool.false_ne_true,
    fun h => absurd h Bool.false_ne_true, fun _ => rfl⟩

theorem read (reading : s.phase = .reading) : s.read.Armed := by
  have hone := hs.outstanding
  have hwatching := hs.reading reading
  refine ⟨?_, fun h => ?_, hs.drains, fun h => absurd h Bool.false_ne_true, fun h => ?_⟩
  · rw [reading] at hone
    exact hone
  · exact absurd (hs.waking h).1 (by simp [hwatching])
  · exact hwatching

theorem rearm (hiopoll : o.iopoll = false) (rearming : s.phase = .rearming) :
    (s.rearm o).Armed := by
  have hone := hs.outstanding
  unfold Ring.rearm
  split_ifs with h
  · simp only [Bool.not_eq_true'] at h
    rw [rearming, h.2.1] at hone
    have hwaking : s.watchWaking = false := by
      by_contra hw
      exact absurd (hs.waking (by simpa using hw)).1 (by simp [h.2.1])
    have hwatch : (s.watch o).Armed :=
      watch hone (by rw [rearming]; rfl) h.2.2 hwaking (by simp [rearming])
    refine hwatch.goto ?_ (fun _ _ => rfl) (fun h => by cases h)
    obtain ⟨s₁, hquiet, hsqe⟩ := s.exists_quiet_append (o := o) true { tag := .wake }
    have hphase : (s.watch o).phase = s.phase := by
      rw [Ring.watch, hsqe]
      exact hquiet.phase
    rw [hphase, rearming]
    rfl
  · refine hs.goto (by rw [rearming]; rfl) (fun _ hd => ?_) (fun h => by cases h)
    by_contra hw
    exact h ⟨by simp [hiopoll], by simpa using hw, hd⟩

/-- The kernel writes a CQE. -/
theorem write {e : Cqe} {base : Driver} (h : Uring.Step s.base (.write e) base)
    (tag : e.tag ≠ .wake) : Armed { s with base } := by
  have hbase : base.drains = s.base.drains ∧ base.queue = s.base.queue ++ [e] := by
    cases h <;> exact ⟨rfl, by simp [Driver.queue, Driver.write]⟩
  refine hs.congr ⟨rfl, rfl, rfl, rfl, hbase.1, ?_⟩
  simp [Ring.outstanding, hbase.2, Cqe.isWake, tag]

theorem answer {e : Cqe} (tag : e.tag = .wake) (polled : 0 < s.polls) :
    Armed { s with base := s.base.write e, polls := s.polls - 1 } := by
  refine hs.congr ⟨rfl, rfl, rfl, rfl, rfl, ?_⟩
  have hqueue : (s.base.write e).queue = s.base.queue ++ [e] := by simp [Driver.queue, Driver.write]
  simp only [Ring.outstanding, hqueue, countP_append, countP_singleton, Cqe.isWake, tag]
  simp only [decide_true, if_true]
  omega

/-- One step of a ring without `IORING_SETUP_IOPOLL`. -/
theorem step (hiopoll : o.iopoll = false)
    (hbatch : s.phase.settled = true → s.base.batch = []) (h : Step o s s') : s'.Armed := by
  cases h with
  | submit r x idle fresh ok =>
    have hquiet := quiet_sqe (o := o) (s.wakeFirst o x.flags.drain) (!x.retire)
      (e := { tag := .request r, flags := x.flags }) (by simp)
    rw [eq_of_submit ok]
    refine ((hs.wakeFirst (o := o) _).congr hquiet).enter fun hdrain hwatching => ?_
    rw [hquiet.watching] at hwatching
    rw [hquiet.watchWaking]
    exact watchWaking_wakeFirst hdrain hwatching
  | cancel r =>
    have hquiet := quiet_sqe (o := o) s true (e := { tag := .cancel r }) (by simp)
    exact hs.congr (hquiet.trans ⟨rfl, rfl, rfl, rfl, rfl, rfl⟩)
  | submitEntries stopped order entries idle fresh nodup ok =>
    rcases eq_of_submitEntries ok with ⟨-, rfl⟩ | ⟨hne, prepared, hprepared, rfl⟩
    · exact hs
    · have hreserve := (hs.congr (quiet_makeRoom (o := o) s entries.length)).wakePoll
        (prepared.any fun e => e.flags.drain)
      refine (hreserve.publish fun e he hdrain hwatching => ?_).congr ⟨rfl, rfl, rfl, rfl, rfl, rfl⟩
      exact watchWaking_wakePoll (any_eq_true.mpr ⟨e, he, hdrain⟩) hwatching
  | wake => exact hs.wake
  | poll delay idle =>
    refine (hs.congr s.quiet_flush).goto (by rw [s.quiet_flush.phase, idle]; rfl) (fun _ => ?_)
      (fun h => by cases h)
    exact hs.settled (by rw [idle]; rfl)
  | throw delay waiting =>
    exact hs.goto (by rw [waiting]; rfl) (fun _ => hs.settled (by rw [waiting]; rfl))
      (fun h => by cases h)
  | peek delay waiting =>
    have hbatch := hbatch (by rw [waiting]; rfl)
    have hqueue : (s.base.peek 128).queue = s.base.queue := by
      simp [Driver.queue, Driver.peek, hbatch]
    have hevent : (s.peek o).event = s.event := by simp [Ring.peek, hiopoll]
    have hone := hs.outstanding
    rw [waiting] at hone
    refine ⟨?_, ?_, hs.drains, fun h => absurd h Bool.false_ne_true, fun h => by cases h⟩
    · show s.sq.countP Sqe.isWake + s.polls + (s.base.peek 128).queue.countP Cqe.isWake + 0 = _
      rw [hqueue]
      exact hone
    · rw [hevent]
      exact hs.waking
  | handle scanning next => exact hs.handle scanning next
  | clear scanning => exact hs.clear scanning
  | unseen scanning =>
    exact hs.goto (by rw [scanning]; rfl) (fun h => absurd h Bool.false_ne_true)
      (fun h => by cases h)
  | read reading => exact hs.read reading
  | rearm rearming => exact hs.rearm hiopoll rearming
  | write h tag => exact hs.write h tag
  | answer tag polled => exact hs.answer tag polled

end

theorem init (hiopoll : o.iopoll = false) : (Ring.init o).Armed := by
  rw [Ring.init, if_neg (by simp [hiopoll])]
  exact watch rfl rfl rfl rfl (by simp)

end Armed

/-! ### The order of the queue -/

/-- Everything that has been queued, in order. -/
def order (s : Ring) : List Sqe := s.groups.flatten ++ s.sq

/-- The entry is that of a draining request that is not completed. -/
def DrainPending (s : Ring) (e : Sqe) : Prop :=
  e.flags.drain = true ∧ ∃ r ∈ s.base.io, e.tag = .request r

/-- No poll of the eventfd is queued behind a pending draining request. -/
def Ahead (s : Ring) : Prop :=
  s.order.Pairwise fun e e' => s.DrainPending e → e'.tag ≠ .wake

/-- The driver is in a state of one of its runs, the entries in the queue are those of its requests,
and no poll of the eventfd is queued behind a pending draining request. -/
structure Ordered (s : Ring) : Prop where
  base : Uring.Reachable s.base
  batch : (∀ w, s.phase ≠ .scanning w) → s.base.batch = []
  request : ∀ e ∈ s.order, ∀ r, e.tag = .request r →
    r ∈ s.base.submitted ∧ (s.base.request r).draining = e.flags.drain
  ahead : s.Ahead

/-- The driver and the queue are the same. -/
structure SameQueue (s s' : Ring) : Prop where
  base : s'.base = s.base
  order : s'.order = s.order
  phase : s'.phase = s.phase

theorem SameQueue.refl (s : Ring) : SameQueue s s := ⟨rfl, rfl, rfl⟩

theorem SameQueue.flush (h : SameQueue s s') : SameQueue s s'.flush :=
  ⟨h.base, (by simp [Ring.order, Ring.flush] : s'.flush.order = s'.order).trans h.order, h.phase⟩

theorem SameQueue.makeRoom (h : SameQueue s s') (count : ℕ) : SameQueue s (s'.makeRoom o count) :=
  makeRoom_induction h (fun _ h => h.flush) count

theorem SameQueue.wakePoll (h : SameQueue s s') (drain : Bool) :
    SameQueue s (s'.wakePoll drain) := by
  unfold Ring.wakePoll
  split_ifs
  · exact ⟨h.base, h.order, h.phase⟩
  · exact h

theorem SameQueue.wakeFirst (h : SameQueue s s') (drain : Bool) :
    SameQueue s (s'.wakeFirst o drain) := by
  unfold Ring.wakeFirst
  split_ifs
  · exact (h.makeRoom 1).wakePoll true
  · exact h

theorem SameQueue.exists_append (h : SameQueue s s') (f : Bool) (e : Sqe) :
    ∃ s₁, SameQueue s s₁ ∧ s'.sqe o f e = s₁.append e :=
  sqe_induction h (fun _ h => h.flush) f e

theorem order_append (s : Ring) (e : Sqe) : (s.append e).order = s.order ++ [e] :=
  (append_assoc _ _ _).symm

namespace Ordered

section

variable (hs : s.Ordered)
include hs

/-- The driver makes steps that link no request, and nothing is queued. -/
theorem driver (horder : s'.order = s.order)
    (hsteps : Uring.Steps s.base s'.base) (hsubmitted : s'.base.submitted = s.base.submitted)
    (hdraining : ∀ r, (s'.base.request r).draining = (s.base.request r).draining)
    (hio : s'.base.io ⊆ s.base.io) (hbatch : (∀ w, s'.phase ≠ .scanning w) → s'.base.batch = []) :
    s'.Ordered := by
  refine ⟨hs.base.trans hsteps, hbatch, fun e he r htag => ?_, ?_⟩
  · rw [hsubmitted, hdraining]
    exact hs.request e (horder ▸ he) r htag
  · unfold Ahead
    rw [horder]
    refine hs.ahead.imp fun hahead hpending => hahead ?_
    obtain ⟨hdrain, r, hr, htag⟩ := hpending
    exact ⟨hdrain, r, hio hr, htag⟩

theorem congr (h : SameQueue s s') : s'.Ordered := by
  refine hs.driver h.order ?_ ?_ ?_ ?_ ?_
  · rw [h.base]
    exact .refl
  · rw [h.base]
  · rw [h.base]
    exact fun _ => rfl
  · rw [h.base]
    exact List.Subset.refl _
  · rw [h.base, h.phase]
    exact hs.batch

/-- The owner thread goes on. -/
theorem goto {p : Phase} (hbatch : s.base.batch = []) : (s.goto p).Ordered :=
  hs.driver rfl .refl rfl (fun _ => rfl) (List.Subset.refl _) fun _ => hbatch

/-- A request is queued and linked. -/
theorem queue (hbatch : s.base.batch = []) {r : ℕ} (x : Request) (fresh : r ∉ s.base.submitted) :
    ((s.append { tag := .request r, flags := x.flags }).enter r x).Ordered := by
  have horder := order_append s { tag := .request r, flags := x.flags }
  -- The requests that were queued before are other ones.
  have hne : ∀ e ∈ s.order, ∀ r', e.tag = .request r' → r' ≠ r := fun e he r' htag heq =>
    fresh (heq ▸ (hs.request e he r' htag).1)
  refine ⟨hs.base.tail ⟨_, .submit x.code x.handler x.retire x.flags.drain fresh hbatch⟩,
    fun _ => hbatch, fun e he r' htag => ?_, ?_⟩
  · rcases mem_append.mp (horder ▸ he) with he | he
    · obtain ⟨hmem, hdraining⟩ := hs.request e he r' htag
      refine ⟨mem_append_left _ hmem, ?_⟩
      simp only [enter, append, Driver.submit, update_of_ne (hne e he r' htag), hdraining]
    · rw [mem_singleton.mp he] at htag ⊢
      rw [← Tag.request.inj htag]
      exact ⟨mem_append_right _ mem_cons_self, by simp [enter, append, Driver.submit]⟩
  · show List.Pairwise _ (s.append { tag := .request r, flags := x.flags }).order
    rw [horder, pairwise_append]
    refine ⟨hs.ahead.imp_of_mem ?_, pairwise_singleton _ _, fun e _ e' he' _ => ?_⟩
    · rintro e e' he - hahead ⟨hdrain, r', hr', htag⟩
      exact hahead ⟨hdrain, r', (mem_cons.mp hr').resolve_left (hne e he r' htag), htag⟩
    · rw [mem_singleton.mp he']
      exact fun h => by cases h

/-- An entry is queued that is not that of a request. -/
theorem append {e : Sqe} (hrequest : ∀ r, e.tag ≠ .request r)
    (hwake : ∀ e' ∈ s.order, s.DrainPending e' → e.tag ≠ .wake) : (s.append e).Ordered := by
  refine ⟨hs.base, hs.batch, fun e' he' r htag => ?_, ?_⟩
  · rcases mem_append.mp (order_append s e ▸ he') with he' | he'
    · exact hs.request e' he' r htag
    · rw [mem_singleton.mp he'] at htag
      exact absurd htag (hrequest r)
  · show List.Pairwise _ (s.append e).order
    rw [order_append, pairwise_append]
    refine ⟨hs.ahead, pairwise_singleton _ _, fun e' he' e'' he'' hpending => ?_⟩
    rw [mem_singleton.mp he'']
    exact hwake e' he' hpending

/-- A cancellation is queued. -/
theorem cancel (hbatch : s.base.batch = []) {r : ℕ} (mem : r ∈ s.base.io)
    (unsent : (s.base.request r).cancelSent = false) :
    ((s.append { tag := .cancel r }).mark r).Ordered := by
  have hshrinks := s.base.shrinks_setRequest r
    (f := fun op => { op with canceling := true, cancelSent := true }) fun _ => rfl
  have happend : (s.append { tag := .cancel r }).Ordered :=
    hs.append (fun _ h => by cases h) fun _ _ _ h => by cases h
  exact happend.driver rfl (.single ⟨_, .cancel mem unsent hbatch⟩) rfl hshrinks.draining
    (List.Subset.refl _) fun _ => hbatch

/-- The poll of the eventfd is queued when no draining request is pending. -/
theorem watch (hdrains : s.base.drains = 0) : (s.append { tag := .wake }).Ordered := by
  have hnone : ∀ r ∈ s.base.io, (s.base.request r).draining = false := by
    have hcount := Reachable.drains_eq hs.base
    rw [hdrains] at hcount
    simpa using countP_eq_zero.mp hcount.symm
  refine hs.append (fun _ h => by cases h) ?_
  rintro e he ⟨hdrain, r, hr, htag⟩
  have hdraining := (hs.request e he r htag).2
  rw [hnone r hr, hdrain] at hdraining
  cases hdraining

/-- All entries of a batch are queued and linked. -/
theorem publish (hbatch : s.base.batch = []) {entries : List Entry}
    (fresh : ∀ e ∈ entries, e.address ∉ s.base.submitted)
    (nodup : (entries.map Entry.address).Nodup) : (s.publish entries).Ordered := by
  induction entries generalizing s with
  | nil =>
    have hnil : s.publish [] = s := by simp [Ring.publish]
    rwa [hnil]
  | cons e rest ih =>
    rw [map_cons, nodup_cons] at nodup
    rw [publish_cons]
    refine ih (hs.queue hbatch e.request (fresh e mem_cons_self)) hbatch (fun e' he' => ?_)
      nodup.2
    rw [show ((s.append e.sqe).enter e.address e.request).base.submitted =
      s.base.submitted ++ [e.address] from rfl, mem_append, mem_singleton, not_or]
    refine ⟨fresh e' (mem_cons_of_mem _ he'), fun heq => nodup.1 ?_⟩
    exact heq ▸ mem_map_of_mem he'

/-- One step. -/
theorem step (h : Step o s s') : s'.Ordered := by
  cases h with
  | submit r x idle fresh ok =>
    obtain ⟨s₁, h, hsqe⟩ := ((SameQueue.refl s).wakeFirst (o := o) x.flags.drain).exists_append
      (o := o) (!x.retire) { tag := .request r, flags := x.flags }
    have hbatch : s₁.base.batch = [] := by
      rw [h.base]
      exact hs.batch (by simp [idle])
    rw [eq_of_submit ok, hsqe]
    exact (hs.congr h).queue hbatch x.toRequest (by rwa [h.base])
  | cancel r idle mem unsent =>
    obtain ⟨s₁, h, hsqe⟩ := (SameQueue.refl s).exists_append (o := o) true { tag := .cancel r }
    have hbatch : s₁.base.batch = [] := by
      rw [h.base]
      exact hs.batch (by simp [idle])
    rw [Ring.cancel, hsqe]
    exact (hs.congr h).cancel hbatch (by rwa [h.base]) (by rwa [h.base])
  | submitEntries stopped order entries idle fresh nodup ok =>
    rcases eq_of_submitEntries ok with ⟨-, rfl⟩ | ⟨hne, prepared, hprepared, rfl⟩
    · exact hs
    · have h := ((SameQueue.refl s).makeRoom (o := o) entries.length).wakePoll
        (prepared.any fun e => e.flags.drain)
      have haddress := Entry.map_address_prepareAll hprepared
      have hbatch : ((s.makeRoom o entries.length).wakePoll
          (prepared.any fun e => e.flags.drain)).base.batch = [] := by
        rw [h.base]
        exact hs.batch (by simp [idle])
      refine Ordered.congr ((hs.congr h).publish hbatch ?_ ?_) ⟨rfl, rfl, rfl⟩
      · intro e he
        obtain ⟨e', he', heq⟩ := mem_map.mp (haddress ▸ mem_map_of_mem he)
        rw [h.base, ← heq]
        exact fresh e' he'
      · rwa [haddress]
  | wake => exact hs.congr ⟨rfl, rfl, rfl⟩
  | poll delay idle =>
    exact (hs.congr (SameQueue.refl s).flush).goto (hs.batch (by simp [idle]))
  | throw delay waiting => exact hs.goto (hs.batch (by simp [waiting]))
  | peek delay waiting =>
    exact hs.driver rfl (.single ⟨_, .peek 128 (hs.batch (by simp [waiting]))⟩) rfl (fun _ => rfl)
      (List.Subset.refl _) fun h => absurd rfl (h false)
  | @handle e rest w scanning next =>
    have hshrinks := Driver.shrinks_handle { s.base with batch := rest } e
    exact hs.driver rfl (.single ⟨_, .handle next⟩) hshrinks.submitted hshrinks.draining hshrinks.io
      fun h => absurd rfl (h _)
  | clear scanning done => exact (hs.goto (p := .reading) done).congr ⟨rfl, rfl, rfl⟩
  | unseen scanning done => exact hs.goto done
  | read reading =>
    exact (hs.goto (p := .rearming) (hs.batch (by simp [reading]))).congr ⟨rfl, rfl, rfl⟩
  | rearm rearming =>
    have hbatch := hs.batch (by simp [rearming])
    unfold rearm
    split_ifs with hcond
    · obtain ⟨s₁, h, hsqe⟩ := (SameQueue.refl s).exists_append (o := o) true { tag := .wake }
      have hwatch := (hs.congr h).watch (by rw [h.base]; exact hcond.2.2)
      rw [Ring.watch, hsqe]
      refine (hwatch.goto (p := .idle) ?_).congr ⟨rfl, rfl, rfl⟩
      show s₁.base.batch = []
      rw [h.base, hbatch]
    · exact hs.goto hbatch
  | write h tag =>
    refine hs.driver rfl (.single ⟨_, h⟩) ?_ ?_ ?_ ?_
    all_goals cases h
    all_goals first | rfl | exact fun _ => rfl | exact List.Subset.refl _ | exact hs.batch
  | answer tag polled =>
    exact hs.driver rfl (.single ⟨_, .wake tag⟩) rfl (fun _ => rfl) (List.Subset.refl _) hs.batch

end

theorem init : (Ring.init o).Ordered := by
  have hnew : Ordered {} := ⟨.refl, fun _ => rfl, fun e he => absurd he not_mem_nil, .nil⟩
  unfold Ring.init
  split_ifs
  · exact hnew
  · obtain ⟨s₁, h, hsqe⟩ := (SameQueue.refl {}).exists_append (o := o) true { tag := .wake }
    rw [Ring.watch, hsqe]
    exact ((hnew.congr h).watch (by rw [h.base])).congr ⟨rfl, rfl, rfl⟩

end Ordered

/-! ### The wait of `poll` -/

/-- A wait without limit, or for more than a millisecond. -/
def Long (delay : ℤ) : Prop := delay < 0 ∨ 1000000 < delay

/-- While `poll` waits nothing is queued, and it waits long only if no draining request is
pending. -/
def Waits (s : Ring) : Prop :=
  ∀ d, s.phase = .waiting d → s.sq = [] ∧ (Long d → s.base.drains = 0)

theorem drains_eq_zero_of_long {drains : ℕ} {delay : ℤ} (h : Long (clamp drains delay)) :
    drains = 0 := by
  by_contra hdrains
  unfold clamp Long at h
  split_ifs at h with hlong
  · omega
  · exact hlong ⟨hdrains, h⟩

theorem Waits.of_ne (h : ∀ d, s.phase ≠ .waiting d) : s.Waits := fun d hd => absurd hd (h d)

theorem Waits.step (hs : s.Waits) (h : Step o s s') : s'.Waits := by
  cases h with
  | submit r x idle fresh ok =>
    obtain ⟨s₁, h, hsqe⟩ := ((SameQueue.refl s).wakeFirst (o := o) x.flags.drain).exists_append
      (o := o) (!x.retire) { tag := .request r, flags := x.flags }
    rw [eq_of_submit ok, hsqe]
    exact .of_ne fun d hd => by cases (h.phase.trans idle).symm.trans hd
  | cancel r idle =>
    obtain ⟨s₁, h, hsqe⟩ := (SameQueue.refl s).exists_append (o := o) true { tag := .cancel r }
    rw [Ring.cancel, hsqe]
    exact .of_ne fun d hd => by cases (h.phase.trans idle).symm.trans hd
  | submitEntries stopped order entries idle fresh nodup ok =>
    rcases eq_of_submitEntries ok with ⟨-, rfl⟩ | ⟨hne, prepared, hprepared, rfl⟩
    · exact hs
    · have h := ((SameQueue.refl s).makeRoom (o := o) entries.length).wakePoll
        (prepared.any fun e => e.flags.drain)
      exact .of_ne fun d hd => by cases (h.phase.trans idle).symm.trans hd
  | poll delay idle =>
    intro d hd
    have hclamp : clamp s.base.drains delay = d := Phase.waiting.inj hd
    rw [← hclamp]
    exact ⟨rfl, drains_eq_zero_of_long⟩
  | rearm rearming =>
    refine .of_ne fun d hd => ?_
    unfold rearm at hd
    split_ifs at hd <;> cases hd
  | wake => exact hs
  | write h tag => cases h <;> exact hs
  | answer => exact hs
  | throw | peek | handle | clear | unseen | read => exact .of_ne fun d hd => by cases hd

theorem Waits.init : (init o).Waits := by
  obtain ⟨s₁, h, hsqe⟩ := (SameQueue.refl {}).exists_append (o := o) true { tag := .wake }
  unfold Ring.init watch
  rw [hsqe]
  split_ifs
  · exact .of_ne fun d hd => by cases hd
  · exact .of_ne fun d hd => by cases h.phase.symm.trans hd

/-! ### Main result -/

/-- The kernel has to complete the poll of the eventfd: it has been handed over, the counter is
positive, and no pending draining request holds it back. -/
def Owed (s : Ring) : Prop := 0 < s.polls ∧ 0 < s.event ∧ s.Ahead

/-- While `poll` waits, the poll of the eventfd is with the kernel or has been answered. -/
theorem Armed.handed_over (hs : s.Armed) (hwaits : s.Waits) {d : ℤ} (waiting : s.phase = .waiting d)
    (hwatching : s.watching = true) : 0 < s.polls ∨ ∃ e ∈ s.base.queue, e.tag = .wake := by
  have hone := hs.outstanding
  rw [waiting, hwatching, Ring.outstanding, (hwaits d waiting).1] at hone
  rcases Nat.eq_zero_or_pos s.polls with hpolls | hpolls
  · have hpos : 0 < s.base.queue.countP Cqe.isWake := by
      simp only [countP_nil, hpolls, Phase.wakeSeen, Bool.toNat_false, Bool.toNat_true] at hone
      omega
    obtain ⟨e, he, htag⟩ := countP_pos_iff.mp hpos
    exact .inr ⟨e, he, of_decide_eq_true htag⟩
  · exact .inl hpolls

/-- **Draining requests and the poll of the eventfd.** In every state of every run of a ring without
`IORING_SETUP_IOPOLL`, with requests and batches submitted and canceled in any order, `wake` called
at any time, and `poll` processing the completions that the kernel has written by then:

* at most one poll of the eventfd is outstanding, and `watching` counts it, up to the completion
  that `poll` has just seen;
* `watch_waking` implies `watching` and a positive counter of the eventfd;
* `drains` counts the pending draining requests, and while there are any, an armed poll of the
  eventfd is being woken; no poll of the eventfd is queued behind one of them;
* while `poll` waits with an armed poll of the eventfd and a positive counter, the kernel has to
  complete that poll, or has done so;
* when `poll` is entered without a pending draining request, the poll of the eventfd is armed, so
  `poll` waits for more than a millisecond only while it is armed. -/
theorem drain_wakeup (hiopoll : o.iopoll = false) (hs : Reachable o s) :
    (s.outstanding ≤ 1 ∧ s.outstanding + s.phase.wakeSeen.toNat = s.watching.toNat) ∧
    (s.watchWaking = true → s.watching = true ∧ 0 < s.event) ∧
    (s.base.drains = s.base.draining ∧
      (0 < s.base.drains → s.watching = true → s.watchWaking = true) ∧ s.Ahead) ∧
    (∀ d, s.phase = .waiting d → s.watching = true → 0 < s.event →
      s.Owed ∨ ∃ e ∈ s.base.queue, e.tag = .wake) ∧
    (s.phase = .idle → s.base.drains = 0 → s.watching = true) ∧
    ∀ d, s.phase = .waiting d → Long d → s.watching = true := by
  obtain ⟨harmed, hordered, hwaits⟩ : s.Armed ∧ s.Ordered ∧ s.Waits := by
    refine hs.induction (P := fun s => s.Armed ∧ s.Ordered ∧ s.Waits)
      ⟨.init hiopoll, .init, .init⟩ ?_
    rintro s s' - ⟨harmed, hordered, hwaits⟩ h
    refine ⟨harmed.step hiopoll (fun hsettled => hordered.batch fun w hw => ?_) h, hordered.step h,
      hwaits.step h⟩
    rw [hw] at hsettled
    cases hsettled
  have hone := harmed.outstanding
  have hle := s.watching.toNat_le
  refine ⟨⟨by omega, hone⟩, harmed.waking,
    ⟨Reachable.drains_eq hordered.base, harmed.drains, hordered.ahead⟩,
    fun d hd hwatching hevent => ?_, fun hidle => harmed.settled (by rw [hidle]; rfl),
    fun d hd hlong => harmed.settled (by rw [hd]; rfl) ((hwaits d hd).2 hlong)⟩
  rcases harmed.handed_over hwaits hd hwatching with hpolls | hqueue
  · exact .inl ⟨hpolls, hevent, hordered.ahead⟩
  · exact .inr hqueue

theorem four_entries_pos : 0 < 4 := by decide

/-- A ring of four entries. -/
def smallOptions : Options := { entries := 4, entries_pos := four_entries_pos }

/-- A draining operation. -/
def drainingOp : Standalone :=
  { code := .native, flags := { drain := true }, handler := true, unlinked := ⟨rfl, rfl⟩ }

example : Standalone.op { drain := true } = .ok drainingOp := rfl

/-- After a draining operation has been submitted, a call of `poll` without limit waits for one
millisecond. -/
theorem exists_waiting_draining : ∃ s, Reachable smallOptions s ∧ s.base.drains = 1 ∧
    s.watching = true ∧ s.phase = .waiting 1000000 ∧ s.base.queue = [] :=
  ⟨_, .tail (.tail .refl (.submit 0 drainingOp rfl not_mem_nil rfl)) (.poll (-1) rfl),
    rfl, rfl, rfl, rfl⟩

theorem drain_wakeup_draining : ∃ s, Reachable smallOptions s ∧ s.base.drains = 1 ∧
    s.watchWaking = true ∧ s.phase = .waiting 1000000 ∧ s.Owed := by
  obtain ⟨s, hs, hdrains, hwatching, hphase, hqueue⟩ := exists_waiting_draining
  obtain ⟨-, hwaking, ⟨-, hdrain, -⟩, howed, -⟩ := drain_wakeup rfl hs
  have hwake := hdrain (by omega) hwatching
  refine ⟨s, hs, hdrains, hwake, hphase, ?_⟩
  rcases howed _ hphase hwatching (hwaking hwake).2 with howed | ⟨e, he, -⟩
  · exact howed
  · rw [hqueue] at he
    cases he

end Ring

end Snowy.Uring
