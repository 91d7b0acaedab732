import Snowy.Uring.Hooks

/-!
# Zero-copy sends

A `zc_send` is submitted once, by the first await of `sent()`. Its first CQE has the result and, if
it carries `F_MORE`, a notification follows when the kernel does not use the buffer any more. The
coroutine of `sent()` waits for the event `sent_`, which a successful result sets at once; a failed
one becomes visible only when the request is retired. `join()` waits for the event `released_`,
which is set when the request is retired. Neither wait can be interrupted. A request that is not
submitted, because it is canceled or `await_suspend` throws, sets both events.

This file models the hooks of `zc_send`, `zc_send::start`, `sent()` and `join()` over the requests
of `Snowy.Uring.Driver`, among any other requests. The release of the direction by the first CQE is
in `Snowy.Direction`. The kernel writes one CQE that is not a notification and, if it carries
`F_MORE`, one notification.

## Main definitions

* `Snowy.Uring.ZcSend.Send` : the fields of `zc_send`, with its hooks.
* `Snowy.Uring.ZcSend.Cqes` : the CQEs of a zero-copy send.
* `Snowy.Uring.ZcSend.State`, `Snowy.Uring.ZcSend.Step` : the loop with its sends and the coroutines
  that wait for them.

## Main results

* `Snowy.Uring.ZcSend.zc_send_barrier` : what `sent()` and `join()` wait for.
-/

namespace Snowy.Uring.ZcSend

open Function List

/-! ### The hooks -/

/-- `cqe->flags & IORING_CQE_F_NOTIF`, for the result and the flags of a CQE. -/
def notif (p : ℤ × ℕ) : Bool := p.2.testBit 3

/-- The errors of a send: it was canceled before the submission, or the kernel returned one. -/
inductive Error where
  | canceled
  | errno (n : ℤ)
  deriving DecidableEq, Repr

/-- The fields of `zc_send`. `constructed` says that there is one at the address. -/
structure Send where
  constructed : Bool := false
  started : Bool := false
  error : Option Error := none
  bytes : ℕ := 0
  sent : Bool := false
  released : Bool := false
  deriving DecidableEq, Repr

namespace Send

/-- The hook `result`. -/
def result (x : Send) (res : ℤ) (flags : ℕ) : Send :=
  if notif (res, flags) then x
  else if res < 0 then { x with error := some (.errno (-res)) }
  else { x with bytes := res.toNat, sent := true }

/-- The hook `retire`. Errors become observable only here. -/
def retire (x : Send) : Send := { x with sent := true, released := true }

/-- A call of a hook. -/
def call (x : Send) : Hook → Send
  | .result res flags => x.result res flags
  | .retire => x.retire

end Send

/-- The CQEs of a zero-copy send: one with the result and, if it carries `F_MORE`, a
notification. -/
def Cqes : List (ℤ × ℕ) → Prop
  | [] => True
  | [p] => notif p = false
  | [p, n] => notif p = false ∧ more p = true ∧ notif n = true ∧ more n = false
  | _ => False

/-! ### The state -/

/-- A coroutine that calls `sent()` or `join()` of a send, and what has come of it. -/
inductive Call where
  | idle
  | sending (r : ℕ)
  | sentOk (r n : ℕ)
  | sentFailed (r : ℕ) (error : Error)
  | joining (r : ℕ)
  | joined (r : ℕ)
  | threw (r : ℕ)
  deriving DecidableEq, Repr

/-- How `io::await_suspend` ends. -/
inductive Start where
  | submitted
  | refused
  | thrown
  deriving DecidableEq, Repr

/-- The loop with its sends and the coroutines. -/
structure State where
  driver : Driver := {}
  send : ℕ → Send := fun _ => {}
  call : ℕ → Call := fun _ => .idle

namespace State

variable (s : State) (c r : ℕ)

/-- An update of the send `r`. -/
def modify (f : Send → Send) : State := { s with send := update s.send r (f (s.send r)) }

/-- The coroutine `c` goes on. -/
def setCall (k : Call) : State := { s with call := update s.call c k }

/-- `zc_send::start` when it is called for the first time. -/
def start : Start → State
  | .submitted =>
    { s.modify r fun x => { x with started := true } with
      driver := s.driver.submit r .native true true false }
  | .refused => s.modify r fun x =>
      { x with started := true, error := some .canceled, sent := true, released := true }
  | .thrown => s.modify r fun x => { x with started := true, sent := true, released := true }

/-- The await of `sent()` up to its suspension. The second call throws
`"zero-copy send already started"`. -/
def beginSent (how : Start) : State :=
  if (s.send r).started then s.setCall c (.threw r)
  else
    match how with
    | .thrown => (s.start r how).setCall c (.threw r)
    | _ => (s.start r how).setCall c (.sending r)

/-- `sent()` returns the number of bytes or throws. -/
def endSent : State :=
  match (s.send r).error with
  | some e => s.setCall c (.sentFailed r e)
  | none => s.setCall c (.sentOk r (s.send r).bytes)

/-- The await of `join()` up to its suspension. It throws `"zero-copy send not started"` before. -/
def beginJoin : State :=
  if (s.send r).started then s.setCall c (.joining r) else s.setCall c (.threw r)

/-- `poll` looks at an entry and calls the hooks of the sends. -/
def handle (e : Cqe) (rest : List Cqe) : State :=
  { s with
    driver := Driver.handle { s.driver with batch := rest } e
    send := fun r =>
      if (s.send r).constructed then (s.driver.hooks e r).foldl Send.call (s.send r)
      else s.send r }

end State

/-! ### Runs -/

/-- What the rest of the loop and the kernel may do: the addresses of the sends are not used for
other requests, and the kernel writes the CQEs of a zero-copy send. -/
def State.Allows (s : State) : Act → Prop
  | .submit r => (s.send r).constructed = false
  | .write e => ∀ r, e.tag = .request r → (s.send r).constructed = true →
      Cqes (s.driver.posted r ++ [(e.res, e.flags)])
  | .handle _ => False
  | _ => True

/-- One step. -/
inductive Step (s : State) : State → Prop
  | construct (r : ℕ) (fresh : r ∉ s.driver.submitted) (unused : (s.send r).constructed = false) :
      Step s (s.modify r fun _ => { constructed := true })
  | other {a : Act} {driver : Driver} (step : Uring.Step s.driver a driver) (allows : s.Allows a) :
      Step s { s with driver }
  | handle {e : Cqe} {rest : List Cqe} (next : s.driver.batch = e :: rest) :
      Step s (s.handle e rest)
  | beginSent (c r : ℕ) (how : Start) (idle : s.call c = .idle)
      (constructed : (s.send r).constructed = true) (quiet : s.driver.batch = []) :
      Step s (s.beginSent c r how)
  | endSent (c r : ℕ) (sending : s.call c = .sending r) (set : (s.send r).sent = true) :
      Step s (s.endSent c r)
  | beginJoin (c r : ℕ) (idle : s.call c = .idle) (constructed : (s.send r).constructed = true) :
      Step s (s.beginJoin c r)
  | endJoin (c r : ℕ) (joining : s.call c = .joining r) (set : (s.send r).released = true) :
      Step s (s.setCall c (.joined r))

/-- A state of some run of a new loop. -/
def Reachable (s : State) : Prop := Relation.ReflTransGen Step {} s

/-! ### What the hooks do -/

namespace Send

variable (x : Send) (h : Hook) (l : List Hook)

/-- The fields that the hook `result` does not touch. -/
theorem result_keeps (res : ℤ) (flags : ℕ) :
    (x.result res flags).constructed = x.constructed ∧
      (x.result res flags).started = x.started ∧
      (x.result res flags).released = x.released := by
  unfold result
  split_ifs <;> exact ⟨rfl, rfl, rfl⟩

theorem constructed_call : (x.call h).constructed = x.constructed := by
  cases h with
  | result res flags => exact (x.result_keeps res flags).1
  | retire => rfl

theorem started_call : (x.call h).started = x.started := by
  cases h with
  | result res flags => exact (x.result_keeps res flags).2.1
  | retire => rfl

theorem released_call (hx : x.released = true) : (x.call h).released = true := by
  cases h with
  | result res flags => exact (x.result_keeps res flags).2.2.trans hx
  | retire => rfl

theorem constructed_foldl : (l.foldl call x).constructed = x.constructed := by
  induction l generalizing x with
  | nil => rfl
  | cons h l ih => rw [foldl_cons, ih, constructed_call]

theorem started_foldl : (l.foldl call x).started = x.started := by
  induction l generalizing x with
  | nil => rfl
  | cons h l ih => rw [foldl_cons, ih, started_call]

theorem released_foldl (hx : x.released = true) : (l.foldl call x).released = true := by
  induction l generalizing x with
  | nil => exact hx
  | cons h l ih => exact ih (x.call h) (released_call x h hx)

/-- A send that has been submitted, before its first CQE. -/
def launched : Send := { constructed := true, started := true }

end Send

theorem Cqes.of_isPrefix {l l' : List (ℤ × ℕ)} (h : Cqes l') (hl : l <+: l') : Cqes l := by
  obtain ⟨t, rfl⟩ := hl
  match l, t with
  | [], _ => trivial
  | [_], [] => exact h
  | [_], [_] => exact h.1
  | [_], _ :: _ :: _ => exact h.elim
  | [_, _], [] => exact h
  | [_, _], _ :: _ => exact h.elim
  | _ :: _ :: _ :: _, _ => exact h.elim

theorem Cqes.notif_head {l : List (ℤ × ℕ)} {p : ℤ × ℕ} (h : Cqes (p :: l)) : notif p = false := by
  match l with
  | [] => exact h
  | [_] => exact h.1
  | _ :: _ :: _ => exact h.elim

/-- The first CQE decides; the notification is ignored. -/
theorem foldl_result {l : List (ℤ × ℕ)} {p : ℤ × ℕ} (h : Cqes (p :: l)) (x : Send) :
    ((p :: l).map fun p => Hook.result p.1 p.2).foldl Send.call x = x.result p.1 p.2 := by
  match l with
  | [] => rfl
  | [n] =>
    change (x.result p.1 p.2).result n.1 n.2 = _
    rw [Send.result, if_pos]
    exact h.2.2.1
  | _ :: _ :: _ => exact h.elim

/-! ### The invariant -/

variable {s s' : State} {c r n : ℕ} {e : Cqe} {rest : List Cqe}

/-- The first CQE of the send has been processed, and its result is `n`. -/
def Primary (s : State) (r n : ℕ) : Prop :=
  r ∈ s.driver.submitted ∧ (s.send r).constructed = true ∧
    ∃ p ∈ (s.driver.request r).handled, (s.driver.posted r).head? = some p ∧
      notif p = false ∧ p.1 = n

/-- What holds for a coroutine. -/
def Good (s : State) : Call → Prop
  | .sending r => (s.send r).constructed = true ∧ (s.send r).started = true ∧
      (r ∈ s.driver.submitted ∨ (s.send r).error ≠ none)
  | .sentOk r n => Primary s r n
  | .sentFailed r _ => (s.send r).constructed = true ∧ (s.send r).released = true
  | .joining r => (s.send r).constructed = true ∧ (s.send r).started = true
  | .joined r => (s.send r).constructed = true ∧ (s.send r).released = true
  | _ => True

/-- A send that was not started is new. One that was submitted is in the state to which the calls of
its hooks have led, and one that was not has both events set. -/
structure Sound (s : State) : Prop where
  driver : Uring.Reachable s.driver
  fresh : ∀ r, (s.send r).constructed = true → (s.send r).started = false →
    r ∉ s.driver.submitted ∧ s.send r = { constructed := true }
  submitted : ∀ r, (s.send r).constructed = true → r ∈ s.driver.submitted →
    (s.driver.request r).handler = true ∧ Cqes (s.driver.posted r) ∧
      s.send r = (s.driver.history r).foldl Send.call .launched
  unsubmitted : ∀ r, (s.send r).constructed = true → (s.send r).started = true →
    r ∉ s.driver.submitted → (s.send r).sent = true ∧ (s.send r).released = true
  call : ∀ c, Good s (s.call c)

/-- What a step does not take back. -/
structure Grows (s s' : State) : Prop where
  submitted : s.driver.submitted ⊆ s'.driver.submitted
  constructed : ∀ r, (s.send r).constructed = true → (s'.send r).constructed = true
  started : ∀ r, (s.send r).constructed = true → (s.send r).started = true →
    (s'.send r).started = true
  released : ∀ r, (s.send r).constructed = true → (s.send r).released = true →
    (s'.send r).released = true
  error : ∀ r, (s.send r).constructed = true → (s.send r).started = true →
    (s.send r).error ≠ none → r ∈ s'.driver.submitted ∨ (s'.send r).error ≠ none
  primary : ∀ r n, Primary s r n → Primary s' r n

theorem Good.mono (h : Grows s s') {k : Call} (hk : Good s k) : Good s' k := by
  cases k with
  | sending r =>
    obtain ⟨hc, hs, hr⟩ := hk
    refine ⟨h.constructed r hc, h.started r hc hs, ?_⟩
    rcases hr with hr | hr
    · exact .inl (h.submitted hr)
    · exact h.error r hc hs hr
  | sentOk r n => exact h.primary r n hk
  | sentFailed r e => exact ⟨h.constructed r hk.1, h.released r hk.1 hk.2⟩
  | joining r => exact ⟨h.constructed r hk.1, h.started r hk.1 hk.2⟩
  | joined r => exact ⟨h.constructed r hk.1, h.released r hk.1 hk.2⟩
  | idle => trivial
  | threw r => trivial

/-- A submitted send: nothing has been processed, or the first CQE has, and then the request has
been retired or not. -/
theorem Sound.cases (hs : Sound s) (hc : (s.send r).constructed = true)
    (hr : r ∈ s.driver.submitted) :
    (r ∉ s.driver.retired ∧ s.send r = .launched) ∨
    ∃ p ∈ (s.driver.request r).handled, (s.driver.posted r).head? = some p ∧ notif p = false ∧
      ((r ∉ s.driver.retired ∧ s.send r = Send.launched.result p.1 p.2) ∨
        (r ∈ s.driver.retired ∧ s.send r = (Send.launched.result p.1 p.2).retire)) := by
  obtain ⟨handler, hposted, hsend⟩ := hs.submitted r hc hr
  have hpre := handled_isPrefix_posted s.driver r
  have hcqes := hposted.of_isPrefix hpre
  rw [Driver.history, foldl_append] at hsend
  cases hhandled : (s.driver.request r).handled with
  | nil =>
    have hretired : r ∉ s.driver.retired := by
      intro hmem
      obtain ⟨l, p, heq, -⟩ := exists_handled_of_mem_retired hs.driver hmem handler
      simp [hhandled] at heq
    refine .inl ⟨hretired, ?_⟩
    rw [hsend, hhandled, if_neg hretired]
    rfl
  | cons p l =>
    rw [hhandled] at hpre hcqes hsend
    obtain ⟨t, ht⟩ := hpre
    refine .inr ⟨p, mem_cons_self, by rw [← ht]; rfl, hcqes.notif_head, ?_⟩
    rw [foldl_result hcqes] at hsend
    by_cases hretired : r ∈ s.driver.retired
    · rw [if_pos hretired] at hsend
      exact .inr ⟨hretired, hsend⟩
    · rw [if_neg hretired] at hsend
      exact .inl ⟨hretired, hsend⟩

/-- The event `released_` of a submitted send is set when the request is retired. -/
theorem Sound.released_iff (hs : Sound s) (hc : (s.send r).constructed = true)
    (hr : r ∈ s.driver.submitted) : (s.send r).released = true ↔ r ∈ s.driver.retired := by
  rcases hs.cases hc hr with ⟨hretired, hsend⟩ | ⟨p, -, -, -, hcase⟩
  · simp [hretired, hsend, Send.launched]
  · rcases hcase with ⟨hretired, hsend⟩ | ⟨hretired, hsend⟩
    · simp [hretired, hsend, Send.result_keeps, Send.launched]
    · simp [hretired, hsend, Send.retire]

/-! ### The steps keep the invariant -/

namespace Sound

/-- A coroutine goes on. -/
theorem setCall (hs : Sound s) {k : Call} (hk : Good s k) : Sound (s.setCall c k) := by
  have hgrows : Grows s (s.setCall c k) :=
    ⟨List.Subset.refl _, fun _ h => h, fun _ _ h => h, fun _ _ h => h, fun _ _ _ h => .inr h,
      fun _ _ h => h⟩
  refine ⟨hs.driver, hs.fresh, hs.submitted, hs.unsubmitted, fun c' => ?_⟩
  by_cases hc : c' = c
  · subst hc
    change Good _ (update s.call c' k c')
    rw [update_self]
    exact hk.mono hgrows
  · change Good _ (update s.call c k c')
    rw [update_of_ne hc]
    exact (hs.call c').mono hgrows

/-- A submitted send in a step of the rest of the loop or of the kernel. -/
theorem keep (hs : Sound s) {a : Act} {driver : Driver} (h : Uring.Step s.driver a driver)
    (ha : ∀ e, a ≠ .handle e) (hwrite : ∀ e, a = .write e → e.tag = .request r →
      Cqes (s.driver.posted r ++ [(e.res, e.flags)])) (hc : (s.send r).constructed = true)
    (hr : r ∈ s.driver.submitted) :
    ((driver.request r).handler = true ∧ Cqes (driver.posted r) ∧
      s.send r = (driver.history r).foldl Send.call .launched) ∧
    ∀ n, Primary s r n → Primary { s with driver } r n := by
  obtain ⟨handler, hcqes, hsend⟩ := hs.submitted r hc hr
  have hposted : s.driver.posted r <+: driver.posted r ∧ Cqes (driver.posted r) := by
    rw [h.posted_eq hr handler]
    refine ⟨prefix_append .., ?_⟩
    cases a with
    | write e =>
      rw [Act.posts]
      split_ifs with htag
      · exact hwrite e rfl htag
      · rwa [append_nil]
    | _ => exact (append_nil _).symm ▸ hcqes
  refine ⟨⟨(h.handler_eq hr).trans handler, hposted.2, ?_⟩, fun n hp => ?_⟩
  · rw [h.history_eq ha hr, hsend]
  · obtain ⟨-, -, p, hmem, hhead, hnotif, hn⟩ := hp
    refine ⟨h.mem_submitted hr, hc, p, (h.request_eq ha hr).2.1.symm ▸ hmem, ?_, hnotif, hn⟩
    obtain ⟨t, ht⟩ := hposted.1
    change (driver.posted r).head? = some p
    rw [← ht, List.head?_append, hhead]
    rfl

/-- The rest of the loop or the kernel takes a step. -/
theorem other (hs : Sound s) {a : Act} {driver : Driver} (h : Uring.Step s.driver a driver)
    (allows : s.Allows a) : Sound { s with driver } := by
  have ha : ∀ e, a ≠ .handle e := by
    rintro e rfl
    exact allows
  have hwrite : ∀ r, (s.send r).constructed = true → ∀ e, a = .write e → e.tag = .request r →
      Cqes (s.driver.posted r ++ [(e.res, e.flags)]) := by
    rintro r hc e rfl htag
    exact allows r htag hc
  have hsub : ∀ r, (s.send r).constructed = true → r ∈ driver.submitted →
      r ∈ s.driver.submitted := by
    intro r hc hr
    cases h with
    | @submit q code handler batched draining fresh idle =>
      have hq : r ≠ q := by
        rintro rfl
        exact Bool.false_ne_true ((allows : _ = false).symm.trans hc)
      simpa [Driver.submit, hq] using hr
    | handle next => exact absurd rfl (ha _)
    | _ => exact hr
  have hgrows : Grows s { s with driver } :=
    ⟨fun r hr => h.mem_submitted hr, fun _ h => h, fun _ _ h => h, fun _ _ h => h,
      fun _ _ _ h => .inr h, fun r n hp => (hs.keep h ha (hwrite r hp.2.1) hp.2.1 hp.1).2 n hp⟩
  refine ⟨hs.driver.tail ⟨a, h⟩, fun r hc hst => ?_, fun r hc hr => ?_, fun r hc hst hr => ?_,
    fun c => (hs.call c).mono hgrows⟩
  · exact ⟨fun hr => (hs.fresh r hc hst).1 (hsub r hc hr), (hs.fresh r hc hst).2⟩
  · exact (hs.keep h ha (hwrite r hc) hc (hsub r hc hr)).1
  · exact hs.unsubmitted r hc hst fun hr' => hr (h.mem_submitted hr')

theorem send_handle (hc : (s.send r).constructed = true) :
    (s.handle e rest).send r = (s.driver.hooks e r).foldl Send.call (s.send r) :=
  if_pos hc

theorem constructed_handle (r : ℕ) :
    ((s.handle e rest).send r).constructed = (s.send r).constructed := by
  by_cases hc : (s.send r).constructed = true
  · rw [send_handle hc, Send.constructed_foldl]
  · exact congrArg Send.constructed (if_neg hc)

/-- `poll` looks at an entry. -/
theorem handle (hs : Sound s) (next : s.driver.batch = e :: rest) : Sound (s.handle e rest) := by
  have hstep : Uring.Step s.driver (.handle e) _ := .handle next
  have hsub : (s.handle e rest).driver.submitted = s.driver.submitted := submitted_handle ..
  -- there are no calls for a send that was not submitted
  have hnone : ∀ r, r ∉ s.driver.submitted → s.driver.hooks e r = [] := by
    intro r hr
    refine hooks_eq_nil fun hrefers => hr ?_
    have hmem : e ∈ s.driver.queue := by
      rw [Driver.queue, next]
      exact mem_append_left _ mem_cons_self
    exact mem_submitted_of_outstanding hs.driver (.inr (.inr ⟨e, hmem, hrefers⟩))
  have hposted : ∀ r, (s.send r).constructed = true → r ∈ s.driver.submitted →
      (s.handle e rest).driver.posted r = s.driver.posted r := fun r hc hr =>
    (hstep.posted_eq hr (hs.submitted r hc hr).1).trans (append_nil _)
  have hgrows : Grows s (s.handle e rest) := by
    refine ⟨fun r hr => hsub ▸ hr, fun r hc => (constructed_handle r).trans hc, fun r hc hst => ?_,
      fun r hc hrel => ?_, fun r hc hst herr => ?_, fun r n hp => ?_⟩
    · rw [send_handle hc, Send.started_foldl, hst]
    · rw [send_handle hc]
      exact Send.released_foldl _ _ hrel
    · rw [hsub]
      by_cases hr : r ∈ s.driver.submitted
      · exact .inl hr
      · rw [send_handle hc, hnone r hr]
        exact .inr herr
    · obtain ⟨hr, hc, p, hmem, hhead, hnotif, hn⟩ := hp
      refine ⟨hsub ▸ hr, (constructed_handle r).trans hc, p, ?_, ?_, hnotif, hn⟩
      · have hhandled := (request_handle { s.driver with batch := rest } e r).2.1
          (hs.submitted r hc hr).1
        exact hhandled ▸ mem_append_left _ hmem
      · rw [hposted r hc hr, hhead]
  refine ⟨hs.driver.tail ⟨_, hstep⟩, fun r hc hst => ?_, fun r hc hr => ?_, fun r hc hst hr => ?_,
    fun c => (hs.call c).mono hgrows⟩ <;> rw [constructed_handle] at hc
  · rw [send_handle hc, Send.started_foldl] at hst
    obtain ⟨hr, hsend⟩ := hs.fresh r hc hst
    rw [hsub, send_handle hc, hnone r hr]
    exact ⟨hr, hsend⟩
  · rw [hsub] at hr
    obtain ⟨handler, hcqes, hsend⟩ := hs.submitted r hc hr
    refine ⟨(hstep.handler_eq hr).trans handler, (hposted r hc hr).symm ▸ hcqes, ?_⟩
    have hhistory : (s.handle e rest).driver.history r =
        s.driver.history r ++ s.driver.hooks e r := history_handle hs.driver next handler
    rw [send_handle hc, hsend, hhistory, foldl_append]
  · rw [hsub] at hr
    rw [send_handle hc, Send.started_foldl] at hst
    rw [send_handle hc, hnone r hr]
    exact hs.unsubmitted r hc hst hr

/-- No coroutine relies on a send that was not started. -/
theorem grows (hs : Sound s) (hr : r ∉ s.driver.submitted)
    (hnew : (s.send r).constructed = true → (s.send r).started = false)
    (hsub : s.driver.submitted ⊆ s'.driver.submitted) (hself : (s'.send r).constructed = true)
    (hother : ∀ q, q ≠ r → s'.send q = s.send q)
    (hprimary : ∀ q n, q ≠ r → Primary s q n → Primary s' q n) : Grows s s' := by
  have hne : ∀ q, (s.send q).constructed = true → (s.send q).started = true → q ≠ r := by
    rintro q hc hst rfl
    exact Bool.false_ne_true ((hnew hc).symm.trans hst)
  refine ⟨hsub, fun q hc => ?_, fun q hc hst => ?_, fun q hc hrel => ?_, fun q hc hst herr => ?_,
    fun q n hp => hprimary q n (fun h => hr (h ▸ hp.1)) hp⟩
  · by_cases hq : q = r
    · rw [hq, hself]
    · rw [hother q hq, hc]
  · rw [hother q (hne q hc hst), hst]
  · have hq : q ≠ r := by
      rintro rfl
      rw [(hs.fresh q hc (hnew hc)).2] at hrel
      cases hrel
    rw [hother q hq, hrel]
  · rw [hother q (hne q hc hst)]
    exact .inr herr

/-- A send that was not started changes: it is constructed, or it ends without a submission. -/
theorem modify (hs : Sound s) {x : Send} (hr : r ∉ s.driver.submitted)
    (hnew : (s.send r).constructed = true → (s.send r).started = false)
    (hx : x = { constructed := true } ∨
      x.constructed = true ∧ x.started = true ∧ x.sent = true ∧ x.released = true) :
    Sound (s.modify r fun _ => x) := by
  have hself : (s.modify r fun _ => x).send r = x := update_self ..
  have hother : ∀ q, q ≠ r → (s.modify r fun _ => x).send q = s.send q := fun q hq =>
    update_of_ne hq ..
  have hxc : x.constructed = true := by
    rcases hx with rfl | hx
    · rfl
    · exact hx.1
  have hgrows : Grows s (s.modify r fun _ => x) :=
    hs.grows hr hnew (List.Subset.refl _) (hself.symm ▸ hxc) hother fun q n hq hp =>
      ⟨hp.1, (hother q hq).symm ▸ hp.2.1, hp.2.2⟩
  refine ⟨hs.driver, fun q hc hst => ?_, fun q hc hsub => ?_, fun q hc hst hsub => ?_,
    fun c => (hs.call c).mono hgrows⟩ <;> by_cases hq : q = r
  · subst hq
    rw [hself] at hst ⊢
    rcases hx with hx | hx
    · exact ⟨hr, hx⟩
    · exact absurd (hst.symm.trans hx.2.1) Bool.false_ne_true
  · rw [hother q hq] at hc hst ⊢
    exact hs.fresh q hc hst
  · exact absurd (hq ▸ hsub) hr
  · rw [hother q hq] at hc ⊢
    exact hs.submitted q hc hsub
  · subst hq
    rw [hself] at hst ⊢
    rcases hx with rfl | hx
    · cases hst
    · exact hx.2.2
  · rw [hother q hq] at hc hst ⊢
    exact hs.unsubmitted q hc hst hsub

/-- A send is submitted. -/
theorem launch (hs : Sound s) (hc : (s.send r).constructed = true)
    (hst : (s.send r).started = false) (quiet : s.driver.batch = []) :
    Sound (s.start r .submitted) := by
  obtain ⟨hr, hsend⟩ := hs.fresh r hc hst
  have hstep : Uring.Step s.driver (.submit r) (s.driver.submit r .native true true false) :=
    .submit _ _ _ _ hr quiet
  have hself : (s.start r .submitted).send r = .launched := by
    refine (update_self ..).trans ?_
    rw [hsend]
    rfl
  have hother : ∀ q, q ≠ r → (s.start r .submitted).send q = s.send q := fun q hq =>
    update_of_ne hq ..
  have hsub : (s.start r .submitted).driver.submitted = s.driver.submitted ++ [r] := rfl
  have hkeep : ∀ q, q ≠ r → (s.send q).constructed = true → q ∈ s.driver.submitted → _ :=
    fun q _ hcq hq => hs.keep hstep nofun nofun hcq hq
  have hgrows : Grows s (s.start r .submitted) := by
    refine hs.grows hr (fun _ => hst) (fun q hq => hstep.mem_submitted hq) (hself.symm ▸ rfl) hother
      fun q n hq hp => ?_
    obtain ⟨hsubq, -, hfirst⟩ := (hkeep q hq hp.2.1 hp.1).2 n hp
    exact ⟨hsubq, (hother q hq).symm ▸ hp.2.1, hfirst⟩
  refine ⟨hs.driver.tail ⟨_, hstep⟩, fun q hcq hstq => ?_, fun q hcq hsubq => ?_,
    fun q hcq hstq hsubq => ?_, fun c => (hs.call c).mono hgrows⟩ <;> by_cases hq : q = r
  · rw [hq, hself] at hstq
    cases hstq
  · rw [hother q hq] at hcq hstq ⊢
    rw [hsub]
    exact ⟨by simpa [hq] using (hs.fresh q hcq hstq).1, (hs.fresh q hcq hstq).2⟩
  · subst hq
    refine ⟨?_, ?_, ?_⟩
    · simp [State.start, Driver.submit]
    · have hposted : (s.start q .submitted).driver.posted q = [] := posted_submit hs.driver hr ..
      rw [hposted]
      trivial
    · have hhistory : (s.start q .submitted).driver.history q = [] :=
        history_submit hs.driver hr ..
      rw [hself, hhistory]
      rfl
  · rw [hother q hq] at hcq ⊢
    have hq' : q ∈ s.driver.submitted := by simpa [hsub, hq] using hsubq
    exact (hkeep q hq hcq hq').1
  · rw [hq, hsub] at hsubq
    exact absurd (mem_append_right _ mem_cons_self) hsubq
  · rw [hother q hq] at hcq hstq ⊢
    exact hs.unsubmitted q hcq hstq fun hq' => hsubq (hstep.mem_submitted hq')

theorem send_start (how : Start) :
    ((s.start r how).send r).constructed = (s.send r).constructed ∧
      ((s.start r how).send r).started = true := by
  cases how <;> simp [State.start, State.modify]

/-- The await of `sent()` up to its suspension. -/
theorem beginSent (hs : Sound s) (how : Start) (hc : (s.send r).constructed = true)
    (quiet : s.driver.batch = []) : Sound (s.beginSent c r how) := by
  unfold State.beginSent
  split_ifs with hst
  · exact hs.setCall (k := .threw r) trivial
  · have hst' := Bool.eq_false_iff.mpr hst
    have hr := (hs.fresh r hc hst').1
    obtain ⟨hconstructed, hstarted⟩ := send_start (s := s) (r := r) how
    cases how with
    | submitted =>
      refine (hs.launch hc hst' quiet).setCall (k := .sending r)
        ⟨hconstructed.trans hc, hstarted, .inl ?_⟩
      exact mem_append_right _ mem_cons_self
    | refused =>
      have hend : Sound (s.start r .refused) :=
        hs.modify hr (fun _ => hst') (.inr ⟨hc, rfl, rfl, rfl⟩)
      refine hend.setCall (k := .sending r) ⟨hconstructed.trans hc, hstarted, .inr ?_⟩
      simp [State.start, State.modify]
    | thrown =>
      have hend : Sound (s.start r .thrown) :=
        hs.modify hr (fun _ => hst') (.inr ⟨hc, rfl, rfl, rfl⟩)
      exact hend.setCall (k := .threw r) trivial

/-- The end of `sent()`: an error is visible only when the request was retired or not submitted, and
the number of bytes is the result of the first CQE. -/
theorem endSent (hs : Sound s) (sending : s.call c = .sending r) (set : (s.send r).sent = true) :
    Sound (s.endSent c r) := by
  have hgood := hs.call c
  rw [sending] at hgood
  obtain ⟨hc, hst, hr⟩ := hgood
  unfold State.endSent
  by_cases hsub : r ∈ s.driver.submitted
  · rcases hs.cases hc hsub with ⟨-, hsend⟩ | ⟨p, hmem, hhead, hnotif, hcase⟩
    · rw [hsend] at set
      cases set
    -- the first CQE has failed or not
    have hresult : Send.launched.result p.1 p.2 =
        if p.1 < 0 then { Send.launched with error := some (.errno (-p.1)) }
        else { Send.launched with bytes := p.1.toNat, sent := true } :=
      if_neg (Bool.eq_false_iff.mp hnotif)
    by_cases hneg : p.1 < 0
    · rw [if_pos hneg] at hresult
      rcases hcase with ⟨-, hsend⟩ | ⟨-, hsend⟩
      · rw [hsend, hresult] at set
        cases set
      · have hreleased : (s.send r).released = true := by rw [hsend, Send.retire]
        have herror : (s.send r).error = some (.errno (-p.1)) := by
          rw [hsend, hresult, Send.retire]
        rw [herror]
        exact hs.setCall (k := .sentFailed r _) ⟨hc, hreleased⟩
    · rw [if_neg hneg] at hresult
      have hfields : (s.send r).error = none ∧ (s.send r).bytes = p.1.toNat := by
        rcases hcase with ⟨-, hsend⟩ | ⟨-, hsend⟩ <;> rw [hsend, hresult] <;> exact ⟨rfl, rfl⟩
      rw [hfields.1, hfields.2]
      refine hs.setCall (k := .sentOk r _) ⟨hsub, hc, p, hmem, hhead, hnotif, ?_⟩
      exact (Int.toNat_of_nonneg (Int.not_lt.mp hneg)).symm
  · obtain ⟨error, herror⟩ := Option.ne_none_iff_exists'.mp (hr.resolve_left hsub)
    rw [herror]
    exact hs.setCall (k := .sentFailed r error) ⟨hc, (hs.unsubmitted r hc hst hsub).2⟩

theorem step (hs : Sound s) (h : Step s s') : Sound s' := by
  cases h with
  | construct r fresh unused =>
    exact hs.modify fresh (fun hc => absurd (unused.symm.trans hc) Bool.false_ne_true) (.inl rfl)
  | other step allows => exact hs.other step allows
  | handle next => exact hs.handle next
  | beginSent c r how idle constructed quiet => exact hs.beginSent how constructed quiet
  | endSent c r sending set => exact hs.endSent sending set
  | beginJoin c r idle constructed =>
    unfold State.beginJoin
    split_ifs with hst
    · exact hs.setCall (k := .joining r) ⟨constructed, hst⟩
    · exact hs.setCall (k := .threw r) trivial
  | endJoin c r joining set =>
    have hgood := hs.call c
    rw [joining] at hgood
    exact hs.setCall (k := .joined r) ⟨hgood.1, set⟩

end Sound

theorem Reachable.sound (h : Reachable s) : Sound s := by
  induction h with
  | refl => exact ⟨.refl, nofun, nofun, nofun, fun _ => trivial⟩
  | tail _ h ih => exact ih.step h

/-- When the event `released_` is set, the request was retired or not submitted. -/
theorem Sound.not_outstanding (hs : Sound s) (hc : (s.send r).constructed = true)
    (hrel : (s.send r).released = true) :
    ¬s.driver.Outstanding r ∧ (r ∈ s.driver.retired ∨ r ∉ s.driver.submitted) := by
  by_cases hr : r ∈ s.driver.submitted
  · have hretired := (hs.released_iff hc hr).mp hrel
    exact ⟨(mem_retired_iff hs.driver hr).mp hretired, .inl hretired⟩
  · exact ⟨fun hout => hr (mem_submitted_of_outstanding hs.driver hout), .inr hr⟩

/-- **`join()` completes only after the request is retired, or if it was not submitted. `sent()`
returns the result of the first CQE, after that CQE, and throws an error only when no CQE of the
request or of its cancellation is outstanding. A send that was started and has no outstanding CQE,
or was not submitted, has both events set.** -/
theorem zc_send_barrier (h : Reachable s) :
    (∀ c r, s.call c = .joined r →
      ¬s.driver.Outstanding r ∧ (r ∈ s.driver.retired ∨ r ∉ s.driver.submitted)) ∧
    (∀ c r n, s.call c = .sentOk r n → ∃ p ∈ (s.driver.request r).handled,
      (s.driver.posted r).head? = some p ∧ notif p = false ∧ p.1 = n) ∧
    (∀ c r error, s.call c = .sentFailed r error → ¬s.driver.Outstanding r) ∧
    (∀ r, (s.send r).constructed = true → (s.send r).started = true →
      (r ∉ s.driver.submitted ∨ ¬s.driver.Outstanding r) →
      (s.send r).sent = true ∧ (s.send r).released = true) := by
  have hs := h.sound
  refine ⟨fun c r hcall => ?_, fun c r n hcall => ?_, fun c r error hcall => ?_,
    fun r hc hst hdone => ?_⟩
  · have hgood := hs.call c
    rw [hcall] at hgood
    exact hs.not_outstanding hgood.1 hgood.2
  · have hgood := hs.call c
    rw [hcall] at hgood
    exact hgood.2.2
  · have hgood := hs.call c
    rw [hcall] at hgood
    exact (hs.not_outstanding hgood.1 hgood.2).1
  · by_cases hr : r ∈ s.driver.submitted
    · have hretired := (mem_retired_iff hs.driver hr).mpr (hdone.resolve_left (not_not.mpr hr))
      rcases hs.cases hc hr with ⟨hnot, -⟩ | ⟨p, -, -, -, hcase⟩
      · exact absurd hretired hnot
      · rcases hcase with ⟨hnot, -⟩ | ⟨-, hsend⟩
        · exact absurd hretired hnot
        · rw [hsend]
          exact ⟨rfl, rfl⟩
    · exact hs.unsubmitted r hc hst hr

/-- The first CQE of a send of five bytes. -/
def primaryCqe : Cqe := { tag := .request 0, res := 5, flags := 2 }

/-- `sent()` waits for the first CQE, which has been peeked. -/
def sendingState : State :=
  let s := (({} : State).modify 0 fun _ => { constructed := true }).beginSent 0 0 .submitted
  { s with driver := (s.driver.write primaryCqe).peek 1 }

/-- `sent()` has returned; the notification is still to come. -/
def sentState : State := (sendingState.handle primaryCqe []).endSent 0 0

theorem reachable_sentState : Reachable sentState := by
  have hnew : Reachable _ := .single (.construct 0 (by simp) rfl)
  have hsubmit := hnew.tail (.beginSent 0 0 .submitted rfl rfl rfl)
  have hwrite := hsubmit.tail (.other (.more (e := primaryCqe) (r := 0) rfl rfl rfl) ?_)
  · have hpeek : Reachable sendingState := hwrite.tail (.other (.peek 1 rfl) trivial)
    exact (hpeek.tail (.handle (e := primaryCqe) rfl)).tail (.endSent 0 0 rfl rfl)
  · intro r htag hc
    cases htag
    exact rfl

theorem zc_send_barrier_sentState : ∃ p ∈ (sentState.driver.request 0).handled,
    (sentState.driver.posted 0).head? = some p ∧ notif p = false ∧ p.1 = (5 : ℕ) :=
  (zc_send_barrier reachable_sentState).2.1 0 0 5 rfl

end Snowy.Uring.ZcSend
