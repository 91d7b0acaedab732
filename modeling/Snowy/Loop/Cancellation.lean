import Snowy.Loop.KeepAlive

/-!
# No lost cancellation

A cancellation is two stores and a wake: the flag (`canceled` of an operation, or `stopping_`),
then `cancel_`. The loop thread takes `cancel_` with an exchange and scans its three lists. A flag
may be raised at any moment, before, during or after the scan, and even before the operation it
concerns is linked anywhere. What makes this right is that `cancel_` is stored after the flag and
exchanged before the scan, and that a suspension looks at `stopping_` and at its token before it
registers its callback.

Both kinds of flags are treated as one: a `Setter` raises a flag (`State.Raised`), and the flag
concerns one operation or all of them (`Setter.Concerns`).

## Main definitions

* `Snowy.Loop.State.Pending` : an armed timer, a linked I/O request, or an interruptible wait.
* `Snowy.Loop.Covered` : a pending operation whose flag is raised will be looked at.

## Main results

* `Snowy.Loop.no_lost_cancellation` : a pending operation whose flag is raised is covered.
-/

namespace Snowy.Loop

open List

variable {cfg : Config} {s t : State} {id : ℕ} {p : Setter}

/-- An armed timer, a linked I/O request, or an interruptible wait in `waits_`. -/
def State.Pending (s : State) (id : ℕ) : Prop :=
  id ∈ s.loop.timers ∧ (s.op id).active = true ∨ id ∈ s.loop.io ∨
    id ∈ s.loop.waits ∧ (s.op id).interruptible = true

/-- `loop::stop` concerns every operation, a `cancel_fn` its own. -/
def Setter.Concerns (p : Setter) (id : ℕ) : Prop := p = .stop ∨ p = .fire id

/-- The flag that the setter raises before it stores to `cancel_`. -/
def State.Raised (s : State) : Setter → Prop
  | .stop => s.loop.stopping = true
  | .fire id => (s.op id).canceled = true

/-- The setter has raised its flag and has not yet stored to `cancel_`. -/
def State.Storing (s : State) (p : Setter) : Prop :=
  .store p ∈ s.calls ∨ p = .stop ∧ ∃ batch msgs, s.pc = .fail .cancel batch msgs

/-- The scan of `expire()` has not reached the operation. -/
def Phase.Ahead (io waits : List ℕ) (id : ℕ) : Phase → Prop
  | .load => True
  | .timers _ _ rest => id ∈ rest ∨ id ∈ io ∨ id ∈ waits
  | .io _ rest => id ∈ rest ∨ id ∈ waits
  | .waits _ rest => id ∈ rest
  | _ => False

/-- The scan cancels whatever it reaches, because it has found, or will find, `stopping_` set. -/
def Phase.All : Phase → Prop
  | .load => True
  | .timers all _ _ | .io all _ | .waits all _ => all = true
  | _ => False

/-- The scan will come to the operation and cancel it. -/
def State.Scanning (s : State) (id : ℕ) (p : Setter) : Prop :=
  ∃ phase, s.pc = .expire phase ∧ phase.Ahead s.loop.io s.loop.waits id ∧ (p = .stop → phase.All)

/-- Nothing is left to do for the cancellation: the request has its cancellation, or the delivery
that completes the `remote_wait` is in flight. -/
def State.Settled (s : State) (id : ℕ) : Prop :=
  (s.op id).cls = .io ∧ (s.op id).cancelSent = true ∨
    (s.op id).cls = .wait ∧ (s.op id).interrupt = true ∧ (s.op id).linked = false

/-- What is known of a pending operation whose flag is raised. -/
def Covered (s : State) (id : ℕ) (p : Setter) : Prop :=
  s.loop.cancel = true ∨ s.Storing p ∨ s.Scanning id p ∨ s.Settled id

/-- The `cancel_fn` of the operation runs inside the registration of its callback and has not yet
stored to `cancel_`. -/
def User.Inline (u : User) (p : Setter) : Prop :=
  ∃ kind ids id todo, p = .fire id ∧ u = .suspend kind ids (.inline id false todo)

/-! ### The two stores -/

theorem ThreadStep.raised {a : ThreadAct} (h : ThreadStep s a t) (ht : t.Raised p) :
    s.Raised p ∨ t.Storing p := by
  cases p with
  | stop =>
    cases h
    case stop => exact .inr (.inl (by simp))
    case post | send | deliver =>
      simp only [LoopState.post_eq, LoopState.send_eq] at ht
      exact .inl ht
    all_goals exact .inl ht
  | fire id =>
    cases h
    case fire i _ _ =>
      by_cases hi : id = i
      · exact .inr (.inl (by simp [hi]))
      · exact .inl (by simpa [State.Raised, hi] using ht)
    case deliver i _ _ =>
      refine .inl ?_
      by_cases hi : id = i <;> simpa [State.Raised, hi] using ht
    all_goals exact .inl ht

theorem UserStep.raised (h : UserStep cfg s t) (ht : t.Raised p) :
    s.Raised p ∨ t.Storing p ∨ t.user.Inline p := by
  cases p with
  | stop =>
    cases h
    case rootFails => exact .inr (.inl (.inl (by simp)))
    case notify => exact .inl (by simpa [State.Raised] using ht)
    case complete =>
      refine .inl ?_
      simp only [State.Raised] at ht
      split at ht <;> exact ht
    all_goals exact .inl ht
  | fire id =>
    cases h
    case streamStop i _ _ _ =>
      by_cases hi : id = i
      · exact .inr (.inl (.inl (by simp [hi])))
      · exact .inl (by simpa [State.Raised, hi] using ht)
    case registerFires kind ids i todo h _ =>
      by_cases hi : id = i
      · exact .inr (.inr ⟨kind, ids, i, todo, by rw [hi], rfl⟩)
      · exact .inl (by simpa [State.Raised, hi] using ht)
    case begin kind n token _ _ _ =>
      refine .inl ?_
      simp only [State.Raised, State.begin] at ht
      split_ifs at ht
      · simp [Kind.canceled_make] at ht
      · exact ht
    case refuse =>
      refine .inl ?_
      simp only [State.Raised] at ht
      split_ifs at ht <;> exact ht
    case complete =>
      refine .inl ?_
      simp only [State.Raised] at ht
      split at ht <;> simp only [Owner.op_setOp, Owner.op_finish] at ht <;>
        split_ifs at ht <;> simp_all [State.Raised]
    case register | linkTimer | linkIo | linkEmpty | linkThrows | linkWait | linkRemote | notify =>
      refine .inl ?_
      simp only [State.Raised, Owner.op_setOp, Owner.op_finish, Owner.op_enlist,
        Owner.op_notify] at ht
      split_ifs at ht <;> simp_all [State.Raised]
    all_goals exact .inl ht

theorem RunStep.raised {a : RunAct} (h : RunStep cfg s a t) (ht : t.Raised p) :
    s.Raised p ∨ t.Storing p := by
  cases p with
  | stop =>
    cases h
    case failStop batch msgs _ => exact .inr (.inr ⟨rfl, batch, msgs, rfl⟩)
    case expire h => exact .inl (h.stopping_eq.symm.trans ht)
    case delivery => exact .inl (by simpa [State.Raised] using ht)
    all_goals exact .inl ht
  | fire id =>
    refine .inl ?_
    cases h
    case delivery =>
      simp only [State.Raised, Owner.op_notify] at ht
      split_ifs at ht <;> simp_all [State.Raised]
    case expire h =>
      cases h
      case cancelTimer | cancelIo | interrupt | cancelWait | dueTimer =>
        simp only [State.Raised, Owner.fail, Owner.op_setOp, Owner.op_finish,
          Owner.op_notify] at ht
        split_ifs at ht <;> simp_all [State.Raised]
      all_goals exact ht
    all_goals exact ht

/-- A flag that is up was up before, or its setter has still to store to `cancel_`. -/
theorem Step.raised {a : Act} (h : Step cfg s a t) (ht : t.Raised p) :
    s.Raised p ∨ t.Storing p ∨ t.user.Inline p := by
  cases h with
  | thread h => exact (h.raised ht).imp_right .inl
  | user h => exact h.raised ht
  | run h => exact (h.raised ht).imp_right .inl

/-- A setter leaves its window by storing to `cancel_`. -/
theorem Step.storing {a : Act} (h : Step cfg s a t) (hs : s.Storing p) :
    t.loop.cancel = true ∨ t.Storing p := by
  cases h with
  | thread h =>
    cases h
    case store q hq => exact .inl rfl
    case stop | fire | release => exact .inr (hs.imp_left (mem_append_left _))
    case wake | wakeReleased =>
      exact .inr (hs.imp_left fun hm => (mem_erase_of_ne (by simp)).mpr hm)
    all_goals exact .inr hs
  | user h =>
    refine .inr (hs.imp (fun hm => h.calls_subset hm) ?_)
    rw [h.pc_eq]
    exact fun hm => hm
  | run h =>
    rcases hs with hs | ⟨rfl, batch, msgs, hpc⟩
    · refine .inr (.inl ?_)
      cases h
      case expire h => exact h.calls_eq ▸ hs
      all_goals exact hs
    · cases h
      case failCancel => exact .inl rfl
      case expire h =>
        obtain ⟨q, hq, -⟩ := h.pc_eq
        simp [hpc] at hq
      all_goals simp_all

/-! Only the exchange of `expire()` clears `cancel_`. -/

theorem ThreadStep.cancel {a : ThreadAct} (h : ThreadStep s a t) (hs : s.loop.cancel = true) :
    t.loop.cancel = true := by
  cases h
  case post | send | deliver => simpa only [LoopState.post_eq, LoopState.send_eq] using hs
  case store => rfl
  all_goals exact hs

theorem UserStep.cancel (h : UserStep cfg s t) (hs : s.loop.cancel = true) :
    t.loop.cancel = true := by
  cases h
  case notify => simpa using hs
  case complete => split <;> exact hs
  case inlineStore => rfl
  all_goals exact hs

theorem RunStep.cancel {a : RunAct} (h : RunStep cfg s a t) (hs : s.loop.cancel = true) :
    t.loop.cancel = true ∨ t.pc = .expire .load := by
  cases h
  case delivery => exact .inl (by simpa using hs)
  case failCancel => exact .inl rfl
  case expire h =>
    cases h
    case exchange => exact .inr rfl
    case interrupt | cancelWait => exact .inl (by simpa using hs)
    all_goals exact .inl hs
  all_goals exact .inl hs

/-! ### Operations that are not yet linked -/

/-- The suspension has seen `stopping_` clear. -/
def User.Checked : User → Prop
  | .suspend kind _ stage => kind.arms = true ∧ stage ≠ .stopping
  | .none => False

/-- A flag that was raised during a suspension is followed by its store to `cancel_`, which no
exchange can undo before the operation is linked. -/
def Armed (s : State) : Prop :=
  ∀ id ∈ s.user.unlinked, ∀ p : Setter, p.Concerns id → s.Raised p →
    (p = .stop → s.user.Checked) → s.loop.cancel = true ∨ s.Storing p ∨ s.user.Inline p

/-- The loop thread runs a step of `run()` only outside a suspension. -/
theorem RunStep.user_eq_none {a : RunAct} (hr : Reachable cfg s) (h : RunStep cfg s a t) :
    t.user = .none := by
  have hnone := hr.user_eq_none
  cases h
  case expire h =>
    obtain ⟨p, hp, -⟩ := h.pc_eq
    rw [h.user_eq]
    exact hnone (by rw [hp]; rfl)
  case pollThrows idle => exact idle
  all_goals simp_all [Pc.isUser, State.leave]

theorem Armed.thread {a : ThreadAct} (hs : Armed s) (h : ThreadStep s a t) : Armed t := by
  have huser : t.user = s.user := by cases h <;> rfl
  intro id hid p hp hraised hchecked
  rw [huser] at hid hchecked
  rcases h.raised hraised with hraised | hstoring
  · have hstep : Step {} s (.thread a) t := .thread h
    rcases hs id hid p hp hraised hchecked with hcancel | hstoring | hinline
    · exact .inl (h.cancel hcancel)
    · exact (hstep.storing hstoring).imp_right .inl
    · exact .inr (.inr (huser ▸ hinline))
  · exact .inr (.inl hstoring)

theorem Armed.user (hs : Armed s) (h : UserStep cfg s t) : Armed t := by
  intro id hid p hp hraised hchecked
  rcases h.raised hraised with hold | hnew
  case inr => exact .inr hnew
  -- What is known before the step stays known, unless the flag is raised inside the callback.
  have keep (hid : id ∈ s.user.unlinked) (hchecked : p = .stop → s.user.Checked)
      (hinline : s.user.Inline p → t.loop.cancel = true) :
      t.loop.cancel = true ∨ t.Storing p ∨ t.user.Inline p := by
    rcases hs id hid p hp hold hchecked with hcancel | hstoring | hin
    · exact .inl (h.cancel hcancel)
    · exact (Step.storing (.user h) hstoring).imp_right .inl
    · exact .inl (hinline hin)
  cases h
  case begin kind n token _ _ _ =>
    rw [s.unlinked_begin] at hid
    rcases hp with rfl | rfl
    · obtain ⟨harms, hstage⟩ := hchecked rfl
      exact absurd (if_pos harms) hstage
    · rw [State.Raised, s.op_begin_of_mem hid, Kind.canceled_make] at hraised
      cases hraised
  case notStopping kind ids h running =>
    rcases hp with rfl | rfl
    · rw [State.Raised, running] at hold
      cases hold
    · exact keep (by rw [h]; exact hid) (by simp) (by simp [h, User.Inline])
  case inlineStore => exact .inl rfl
  case refuse | linkThrows | suspended => exact absurd hid not_mem_nil
  case notRequested h _ | register h _ | registerFires h _ | inlineWake h | registered h |
      linkTimer h | linkIo h _ | linkEmpty h _ | linkWait h _ | linkRemote h _ =>
    refine keep ?_ (fun hstop => ?_) (by simp [h, User.Inline])
    · rw [h]
      first
      | exact hid
      | exact mem_cons_of_mem _ hid
    · rw [h]
      exact ⟨(hchecked hstop).1, by simp⟩
  all_goals simp_all [User.unlinked]

theorem Reachable.armed (h : Reachable cfg s) : Armed s := by
  refine h.induction (P := Armed) (fun _ hid => absurd hid not_mem_nil) ?_
  intro s t a hr hs hstep
  cases hstep with
  | thread h => exact hs.thread h
  | user h => exact hs.user h
  | run h =>
    intro id hid
    rw [h.user_eq_none hr] at hid
    exact absurd hid not_mem_nil

/-- The operations whose callbacks are still to be registered, or being registered. -/
def User.registering : User → List ℕ
  | .suspend _ _ (.register todo) => todo
  | .suspend _ _ (.inline id _ todo) => id :: todo
  | _ => []

/-- Callbacks are registered for operations that are not yet linked. -/
theorem Reachable.registering_subset (h : Reachable cfg s) :
    s.user.registering ⊆ s.user.unlinked := by
  refine h.induction (P := fun s => s.user.registering ⊆ s.user.unlinked)
    (List.Subset.refl _) ?_
  intro s t a hr hs hstep
  cases hstep with
  | thread h =>
    have huser : t.user = s.user := by cases h <;> rfl
    rw [huser]
    exact hs
  | run h =>
    rw [h.user_eq_none hr]
    exact List.Subset.refl _
  | user h =>
    cases h
    case begin kind n token _ _ _ =>
      simp only [State.begin]
      split <;> exact nil_subset _
    case notRequested => exact List.Subset.refl _
    case register h _ | registerFires h _ | inlineStore h | inlineWake h =>
      rw [h] at hs
      first
      | exact hs
      | exact List.Subset.trans (subset_cons_self ..) hs
    case notify | complete | streamStop | schedule | rootDone | rootFails => exact hs
    all_goals exact nil_subset _

/-! ### Pending operations -/

namespace WellFormed

/-- A pending operation has been linked. -/
theorem lt_of_pending (hs : WellFormed s) (h : s.Pending id) : id < s.next := by
  rcases h with ⟨h, -⟩ | h | ⟨h, -⟩
  · exact (hs.timers id h).1
  · exact (hs.io id h).1
  · exact (hs.waits id h).1

theorem not_mem_unlinked_of_pending (hs : WellFormed s) (h : s.Pending id) :
    id ∉ s.user.unlinked := by
  intro hun
  cases hu : s.user with
  | none => simp [hu, User.unlinked] at hun
  | suspend kind ids stage =>
    have hfresh := hs.unlinked kind (by rw [hu]; rfl) id hun
    rcases h with ⟨-, h⟩ | h | ⟨h, -⟩
    · simp [hfresh.inactive] at h
    · exact hfresh.not_mem_io h
    · exact hfresh.not_mem_waits h

theorem mem_io_of_pending (hs : WellFormed s) (h : s.Pending id) (hcls : (s.op id).cls = .io) :
    id ∈ s.loop.io := by
  rcases h with ⟨h, -⟩ | h | ⟨h, -⟩
  · simp [(hs.timers id h).2] at hcls
  · exact h
  · simp [(hs.waits id h).2.1] at hcls

theorem mem_waits_of_pending (hs : WellFormed s) (h : s.Pending id)
    (hcls : (s.op id).cls = .wait) : id ∈ s.loop.waits := by
  rcases h with ⟨h, -⟩ | h | ⟨h, -⟩
  · simp [(hs.timers id h).2] at hcls
  · simp [(hs.io id h).2] at hcls
  · exact h

end WellFormed

theorem Shrinks.pending (h : Shrinks s t) (ht : t.Pending id) : s.Pending id := by
  rcases ht with ⟨hmem, hactive⟩ | hmem | ⟨hmem, hint⟩
  · refine .inl ⟨h.timers hmem, ?_⟩
    rcases (h.op id).active with heq | ⟨hout, -⟩
    · exact heq ▸ hactive
    · simp [hout] at hactive
  · exact .inr (.inl (h.io hmem))
  · exact .inr (.inr ⟨h.waits.subset hmem, (h.op id).interruptible ▸ hint⟩)

/-- A kind that does not arm is a wait. -/
theorem Kind.arms_of_cls_ne {kind : Kind} (h : kind.cls ≠ .wait) : kind.arms = true := by
  cases kind
  case wait | remote => exact absurd rfl h
  all_goals rfl

/-- An operation becomes pending when its suspension links it, with its flags checked. -/
theorem Step.pending {a : Act} (hr : Reachable cfg s) (h : Step cfg s a t) (ht : t.Pending id) :
    s.Pending id ∨ id ∈ s.user.unlinked ∧ s.user.Checked ∧ ∀ p, ¬ s.user.Inline p := by
  have hs := hr.wellFormed
  cases h.shape hr with
  | shrinks h => exact .inl (h.pending ht)
  | links kind ids i todo huser htodo hlink =>
    by_cases hi : id = i
    · subst hi
      have hfresh := (hs.of_link huser).1
      refine .inr ⟨by rw [huser]; exact mem_cons_self, ?_, by simp [huser, User.Inline]⟩
      rw [huser]
      refine ⟨?_, by simp⟩
      -- A kind that does not arm is a wait that is not interruptible, so it does not pend.
      rcases ht with ⟨hmem, -⟩ | hmem | ⟨-, hint⟩
      · refine Kind.arms_of_cls_ne ?_
        rw [← hfresh.cls, (hs.timers id (hlink.timers hmem)).2]
        simp
      · refine Kind.arms_of_cls_ne ?_
        rcases hlink.io with hio | ⟨-, hcls⟩
        · exact absurd (hio ▸ hmem) hfresh.not_mem_io
        · simp [hcls]
      · obtain ⟨_, -, hop⟩ := hlink.op
        rw [hop, Function.update_self] at hint
        exact hfresh.interruptible.symm.trans hint
    · refine .inl ?_
      rw [State.Pending, hlink.others id hi] at ht
      refine ht.imp (.imp_left (hlink.timers ·)) (.imp ?_ (.imp_left ?_))
      · rcases hlink.io with hio | ⟨hio, -⟩ <;> simp [hio, hi]
      · rcases hlink.waits with hw | ⟨hw, -⟩ <;> simp [hw, hi]
  | begins kind n token idle single h =>
    subst h
    rcases ht with ⟨hmem, hactive⟩ | hmem | ⟨hmem, hint⟩
    · rcases s.mem_timers_begin single hmem with hmem | ⟨hmem, -⟩
      · rw [s.op_begin_of_lt (hs.timers id hmem).1] at hactive
        exact .inl (.inl ⟨hmem, hactive⟩)
      · rw [s.op_begin_of_mem hmem, Kind.active_make] at hactive
        cases hactive
    · exact .inl (.inr (.inl hmem))
    · rw [s.op_begin_of_lt (hs.waits id hmem).1] at hint
      exact .inl (.inr (.inr ⟨hmem, hint⟩))

/-- What is settled stays settled. -/
theorem Step.settled {a : Act} (hr : Reachable cfg s) (h : Step cfg s a t) (hs : s.Pending id)
    (hsettled : s.Settled id) : t.Settled id := by
  have hwf := hr.wellFormed
  cases h.shape hr with
  | shrinks h =>
    have hop := h.op id
    refine hsettled.imp (fun ⟨hcls, hsent⟩ => ⟨hop.cls ▸ hcls, hop.cancelSent hsent⟩)
      fun ⟨hcls, hhook, hlinked⟩ => ⟨hop.cls ▸ hcls, hop.interrupt ▸ hhook, ?_⟩
    exact hop.linked.elim (·.trans hlinked) And.left
  | links kind ids i todo huser htodo hlink =>
    have hi : id ≠ i := by
      rintro rfl
      exact hwf.not_mem_unlinked_of_pending hs (by rw [huser]; exact mem_cons_self)
    rw [State.Settled, hlink.others id hi]
    exact hsettled
  | begins kind n token idle single h =>
    rw [State.Settled, h, s.op_begin_of_lt (hwf.lt_of_pending hs)]
    exact hsettled

/-! ### The scan -/

/-- A scan does not pass over an operation whose flag it can see. -/
theorem State.Raised.seen {all : Bool} (hraised : s.Raised p) (hp : p.Concerns id)
    (hall : p = .stop → all = true) : ¬ (all = false ∧ (s.op id).canceled = false) := by
  rintro ⟨hnone, hflag⟩
  rcases hp with rfl | rfl
  · simp [hall rfl] at hnone
  · simp [State.Raised, hflag] at hraised

/-- Only an I/O request can be pending without being active. -/
theorem WellFormed.cls_of_pending (hs : WellFormed s) (h : s.Pending id)
    (hactive : (s.op id).active = false) : (s.op id).cls = .io := by
  rcases h with ⟨-, h⟩ | h | ⟨h, -⟩
  · simp [hactive] at h
  · exact (hs.io id h).2
  · simp [(hs.waits id h).2.2] at hactive

/-- The scan comes nearer to the operation, or reaches it and settles it. -/
theorem ExpireStep.scanning (hr : Reachable cfg s) (h : ExpireStep cfg s t)
    (hp : p.Concerns id) (hraised : s.Raised p) (hpend : s.Pending id) (ht : t.Pending id)
    (hs : s.Scanning id p) : t.Scanning id p ∨ t.Settled id := by
  have hwf := hr.wellFormed
  have hcls : (t.op id).active = false → (s.op id).cls = .io := by
    rw [← ((h.shrinks hwf).op id).cls]
    exact (hwf.expire h).cls_of_pending ht
  obtain ⟨phase, hpc, hahead, hall⟩ := hs
  cases h
  case exchange h _ | clear h _ | dueTimer h _ _ _ | dueDone h _ =>
    cases hpc.symm.trans h
    exact hahead.elim
  case load h =>
    cases hpc.symm.trans h
    refine .inl ⟨_, rfl, ?_, ?_⟩
    · exact hpend.imp And.left (.imp_right And.left)
    · rintro rfl
      exact hraised
  case cancelTimer all kept i rest h dead quiet =>
    cases hpc.symm.trans h
    refine .inl ⟨_, rfl, ?_, hall⟩
    rcases hahead with hmem | hmem
    · rcases mem_cons.mp hmem with rfl | hmem
      · rw [(hwf.timers id ((hwf.inside _ h).2 mem_cons_self)).2] at hcls
        cases hcls (by simp [Owner.op_finish])
      · exact .inl hmem
    · exact .inr hmem
  case keepTimer all kept i rest h live =>
    cases hpc.symm.trans h
    refine .inl ⟨_, rfl, ?_, hall⟩
    rcases hahead with hmem | hmem
    · rcases mem_cons.mp hmem with rfl | hmem
      · exact absurd live (hraised.seen hp hall)
      · exact .inl hmem
    · exact .inr hmem
  case eraseTimers all kept h =>
    cases hpc.symm.trans h
    exact .inl ⟨_, rfl, hahead.resolve_left not_mem_nil, hall⟩
  case cancelIo all i rest h unsent dead =>
    cases hpc.symm.trans h
    rcases hahead with hmem | hmem
    · rcases mem_cons.mp hmem with rfl | hmem
      · have hcls := (hwf.io id (hwf.inside _ h mem_cons_self)).2
        exact .inr (.inl ⟨by simpa using hcls, by simp⟩)
      · exact .inl ⟨_, rfl, .inl hmem, hall⟩
    · exact .inl ⟨_, rfl, .inr hmem, hall⟩
  case keepIo all i rest h keep =>
    cases hpc.symm.trans h
    rcases hahead with hmem | hmem
    · rcases mem_cons.mp hmem with rfl | hmem
      · have hcls := (hwf.io id (hwf.inside _ h mem_cons_self)).2
        rcases keep with hsent | live
        · exact .inr (.inl ⟨hcls, hsent⟩)
        · exact absurd live (hraised.seen hp hall)
      · exact .inl ⟨_, rfl, .inl hmem, hall⟩
    · exact .inl ⟨_, rfl, .inr hmem, hall⟩
  case ioDone all h =>
    cases hpc.symm.trans h
    exact .inl ⟨_, rfl, hahead.resolve_left not_mem_nil, hall⟩
  case interrupt all i rest h dead hook linked quiet =>
    cases hpc.symm.trans h
    rcases mem_cons.mp hahead with rfl | hmem
    · obtain ⟨-, hwait, hactive⟩ := hwf.waits id ((hwf.inside _ h).1 mem_cons_self)
      rw [hwait] at hcls
      cases hcls (by simp [Owner.op_notify, hactive])
    · exact .inl ⟨_, rfl, hmem, hall⟩
  case cancelWait all i rest h dead plain quiet =>
    cases hpc.symm.trans h
    rcases mem_cons.mp hahead with rfl | hmem
    · obtain ⟨-, hwait, hactive⟩ := hwf.waits id ((hwf.inside _ h).1 mem_cons_self)
      rw [hwait] at hcls
      cases hcls (by simp [Owner.op_notify, Owner.fail, hactive])
    · exact .inl ⟨_, rfl, hmem, hall⟩
  case interruptLate all i rest h hook unlinked =>
    cases hpc.symm.trans h
    rcases mem_cons.mp hahead with rfl | hmem
    · have hwait := (hwf.waits id ((hwf.inside _ h).1 mem_cons_self)).2.1
      exact .inr (.inr ⟨hwait, hook, unlinked⟩)
    · exact .inl ⟨_, rfl, hmem, hall⟩
  case keepWait all i rest h live =>
    cases hpc.symm.trans h
    rcases mem_cons.mp hahead with rfl | hmem
    · rcases live with hnever | live
      · -- The wait is not interruptible, so it is not pending.
        have hwait := (hwf.waits id ((hwf.inside _ h).1 mem_cons_self)).2.1
        rcases hpend with ⟨hmem, -⟩ | hmem | ⟨-, hint⟩
        · simp [(hwf.timers id hmem).2] at hwait
        · simp [(hwf.io id hmem).2] at hwait
        · simp [hnever] at hint
      · exact absurd live (hraised.seen hp hall)
    · exact .inl ⟨_, rfl, hmem, hall⟩
  case waitsDone all h =>
    cases hpc.symm.trans h
    exact absurd hahead not_mem_nil

/-! ### Whole runs -/

/-- The cancellation of a request can always be submitted. -/
def CancelWorks (_ : State) (act : Act) : Prop := act ≠ .run .cancelThrows

/-- Before the exchange of `cancel_` every list is ahead of the scan. -/
theorem Step.covered_of_cancel {a : Act} (h : Step cfg s a t) (hs : s.loop.cancel = true) :
    Covered t id p := by
  cases h with
  | thread h => exact .inl (h.cancel hs)
  | user h => exact .inl (h.cancel hs)
  | run h =>
    refine (h.cancel hs).imp_right fun hpc => ?_
    exact .inr (.inl ⟨.load, hpc, trivial, fun _ => trivial⟩)

/-- What covers a pending operation goes on covering it while it is pending. -/
theorem Step.covered {a : Act} (hr : Reachable cfg s) (ha : CancelWorks s a)
    (h : Step cfg s a t) (hp : p.Concerns id) (hraised : s.Raised p) (hpend : s.Pending id)
    (ht : t.Pending id) (hs : Covered s id p) : Covered t id p := by
  rcases hs with hcancel | hstoring | hscan | hsettled
  · exact h.covered_of_cancel hcancel
  · exact (h.storing hstoring).imp_right .inl
  · refine .inr (.inr ?_)
    cases h with
    | thread h =>
      obtain ⟨hpc, -, hio, hwaits⟩ := h.lists_eq
      rw [State.Scanning, hpc, hio, hwaits]
      exact .inl hscan
    | user h =>
      obtain ⟨phase, hpc, -⟩ := hscan
      have huser := h.isUser hr
      simp [hpc, Pc.isUser] at huser
    | run h =>
      obtain ⟨phase, hpc, hahead⟩ := hscan
      cases h
      case expire h => exact h.scanning hr hp hraised hpend ht ⟨phase, hpc, hahead⟩
      case cancelThrows => exact absurd rfl ha
      all_goals simp_all
  · exact .inr (.inr (.inr (h.settled hr hpend hsettled)))

theorem Step.covered_of_raised {a : Act} (hr : Reachable cfg s) (ha : CancelWorks s a)
    (h : Step cfg s a t) (hp : p.Concerns id) (hs : s.Pending id → s.Raised p → Covered s id p)
    (ht : t.Pending id) (hraised : t.Raised p) : Covered t id p := by
  rcases h.raised hraised with hold | hstoring | ⟨kind, ids, i, todo, rfl, huser⟩
  · rcases h.pending hr ht with hpend | ⟨hun, hchecked, hinline⟩
    · exact h.covered hr ha hp hold hpend ht (hs hpend hold)
    · rcases hr.armed id hun p hp hold fun _ => hchecked with hcancel | hstoring | hin
      · exact h.covered_of_cancel hcancel
      · exact (h.storing hstoring).imp_right .inl
      · exact absurd hin (hinline p)
  · exact .inr (.inl hstoring)
  · -- The callback runs inside a suspension, on an operation that is not yet linked.
    have hr' : Reachable cfg t := hr.tail ⟨a, trivial, h⟩
    obtain rfl : i = id := by simpa [Setter.Concerns] using hp
    refine absurd (hr'.registering_subset ?_) (hr'.wellFormed.not_mem_unlinked_of_pending ht)
    rw [huser]
    exact mem_cons_self

/-- In every run, a pending operation whose flag is raised is covered. -/
theorem Steps.covered (h : Steps cfg CancelWorks {} s) (hp : p.Concerns id) (hs : s.Pending id)
    (hraised : s.Raised p) : Covered s id p := by
  induction h with
  | refl => rcases hs with ⟨h, -⟩ | h | ⟨h, -⟩ <;> exact absurd h not_mem_nil
  | tail hsteps hstep ih =>
    obtain ⟨a, ha, hstep⟩ := hstep
    exact hstep.covered_of_raised (Steps.reachable hsteps .refl) ha hp ih hs hraised

/-- **No lost cancellation.** In every interleaving in which the cancellation of a request can be
submitted, a pending operation whose `canceled` flag is set, or whose loop has `stopping_` set, is
in one of these situations: `cancel_` is set; the setter of the flag has still to store to
`cancel_`; `expire()` is scanning, has not reached the operation and will cancel it when it does;
it is an I/O request with `cancel_sent`; it is a `remote_wait` that is unlinked, with its delivery
in flight.

So it does not stay parked: once no setter is between its stores and no scan is going on, either
`cancel_` is set or the completion of the operation is under way. -/
theorem no_lost_cancellation (h : Steps cfg CancelWorks {} s) (hs : s.Pending id)
    (hp : p.Concerns id) (hraised : s.Raised p) :
    (s.loop.cancel = true ∨ s.Storing p ∨ s.Scanning id p ∨
      (id ∈ s.loop.io ∧ (s.op id).cancelSent = true) ∨
      ((s.op id).interrupt = true ∧ (s.op id).linked = false ∧ s.InFlight id)) ∧
    ((∀ q, ¬ s.Storing q) → (∀ phase, s.pc ≠ .expire phase) → s.loop.cancel = false →
      (id ∈ s.loop.io ∧ (s.op id).cancelSent = true) ∨
      ((s.op id).interrupt = true ∧ (s.op id).linked = false ∧ s.InFlight id)) := by
  have hwf : WellFormed s := (Steps.reachable h .refl).wellFormed
  have hmain : s.loop.cancel = true ∨ s.Storing p ∨ s.Scanning id p ∨
      (id ∈ s.loop.io ∧ (s.op id).cancelSent = true) ∨
      ((s.op id).interrupt = true ∧ (s.op id).linked = false ∧ s.InFlight id) := by
    refine (h.covered hp hs hraised).imp_right (.imp_right (.imp_right (.imp ?_ ?_)))
    · rintro ⟨hcls, hsent⟩
      exact ⟨hwf.mem_io_of_pending hs hcls, hsent⟩
    · rintro ⟨hcls, hhook, hlinked⟩
      exact ⟨hhook, hlinked, hwf.inFlight id (hwf.mem_waits_of_pending hs hcls) hhook hlinked⟩
  refine ⟨hmain, fun hstored hscan hcancel => ?_⟩
  rcases hmain with hset | hstoring | ⟨phase, hpc, -⟩ | hsettled
  · simp [hcancel] at hset
  · exact absurd hstoring (hstored p)
  · exact absurd hpc (hscan phase)
  · exact hsettled

/-- A wait that is armed while another thread stops the loop: `stopping_` is set after the check of
`arm` and before the wait is linked. -/
theorem exists_pending_of_stop :
    ∃ s : State, Steps {} CancelWorks {} s ∧ s.Pending 0 ∧ s.Raised .stop := by
  have user {s : State} : CancelWorks s .user := by simp [CancelWorks]
  have stop {s : State} : CancelWorks s (.thread .stop) := by simp [CancelWorks]
  refine ⟨_,
    .head ⟨_, user, .user (.begin (.wait true) 1 none rfl rfl (.inl rfl))⟩ <|
    .head ⟨_, user, .user (.notStopping (.wait true) [0] rfl rfl)⟩ <|
    .head ⟨_, stop, .thread .stop⟩ <|
    .head ⟨_, user, .user (.notRequested (.wait true) [0] rfl
      (by simp [Owner.stopRequested, State.begin, Kind.make]))⟩ <|
    .head ⟨_, user, .user (.register (.wait true) [0] 0 [] rfl rfl)⟩ <|
    .head ⟨_, user, .user (.registered (.wait true) [0] rfl)⟩ <|
    .single ⟨_, user, .user (.linkWait (.wait true) [0] 0 [] rfl ⟨true, rfl⟩)⟩, ?_, ?_⟩
  · exact .inr (.inr ⟨mem_singleton_self 0, rfl⟩)
  · rfl

theorem no_lost_cancellation_of_stop :
    ∃ s : State, Steps {} CancelWorks {} s ∧ s.Pending 0 ∧ s.Raised .stop ∧
      (s.loop.cancel = true ∨ s.Storing .stop ∨ s.Scanning 0 .stop ∨
        (0 ∈ s.loop.io ∧ (s.op 0).cancelSent = true) ∨
        ((s.op 0).interrupt = true ∧ (s.op 0).linked = false ∧ s.InFlight 0)) := by
  obtain ⟨s, hsteps, hpend, hraised⟩ := exists_pending_of_stop
  exact ⟨s, hsteps, hpend, hraised, (no_lost_cancellation hsteps hpend (.inl rfl) hraised).1⟩

end Snowy.Loop
