import Mathlib.Logic.Relation
import Snowy.Basic

/-!
# One request per socket direction

A socket has a flag for each direction, and a request for a direction borrows a pointer to its flag.
`io::await_suspend` refuses a second request while the flag is set, and otherwise sets it and
remembers in `reserved` that it did. The flag is cleared from four places: `await_resume`, the
destructor, the handler of the first CQE of a `zc_send`, and `await_resume` of the same `zc_send`
later on. Each of them looks at `reserved` first, so that a request clears a flag only if it is the
one that has set it.

## Main definitions

* `Snowy.Direction.Request`, `Snowy.Direction.State` : requests and the flags they are bound to.
* `Snowy.Direction.State.suspend`, `State.start`, `State.resume`, `State.primary`, `State.destroy` :
  the functions of the source.
* `Snowy.Direction.Change` : what a step can do to the flags.

## Main results

* `Snowy.Direction.direction_exclusive` : the flag of a direction is set exactly while one request
  has reserved it.
-/

namespace Snowy.Direction

open Function

/-- The requests that are bound to a direction. -/
inductive Kind where
  | io
  | op
  | stream
  | zcSend
  deriving DecidableEq, Repr

/-- The fields of `detail::io` and `zc_send` that the direction depends on. `empty` says that a read
or write has no bytes to transfer, `started`, `sent` and `released` are the fields of `zc_send`, and
`waiting` says that a coroutine is suspended on the request. -/
structure Request where
  kind : Kind := .io
  busy : Option ℕ := none
  empty : Bool := false
  alive : Bool := false
  reserved : Bool := false
  active : Bool := false
  error : Option Errc := none
  started : Bool := false
  sent : Bool := false
  released : Bool := false
  waiting : Bool := false
  deriving DecidableEq, Repr

/-- The flags of the directions, and the requests. -/
structure State where
  flag : ℕ → Bool := fun _ => false
  request : ℕ → Request := fun _ => {}

/-- How a call of `await_suspend` ends: the coroutine is suspended, resumed at once, or an exception
is thrown. -/
inductive Verdict where
  | suspended
  | resumed
  | logicError
  | systemError
  deriving DecidableEq, Repr

namespace State

variable (s : State) (r : ℕ)

/-- An update of the request `r`. -/
def modify (f : Request → Request) : State :=
  { s with request := update s.request r (f (s.request r)) }

/-- An assignment to `*busy` of the request `r`. -/
def setBusy (b : Bool) : State :=
  match (s.request r).busy with
  | some d => { s with flag := update s.flag d b }
  | none => s

/-- `if (busy) { *busy = true; reserved = true; }` -/
def reserve : State :=
  if (s.request r).busy.isSome then (s.setBusy r true).modify r fun q => { q with reserved := true }
  else s

/-- `if (reserved) { *busy = false; reserved = false; }` -/
def release : State :=
  if (s.request r).reserved then (s.setBusy r false).modify r fun q => { q with reserved := false }
  else s

/-- `loop::complete`; the hook `retire` of a `zc_send` sets its events. -/
def complete : State :=
  s.modify r fun q =>
    if q.kind = .zcSend then { q with active := false, sent := true, released := true }
    else { q with active := false }

/-- The submission in `io::await_suspend`; `fault` says that it throws. A read or write of no bytes
is completed at once. -/
def submit (fault : Bool) : Verdict × State :=
  if (s.request r).empty then (.suspended, s.complete r)
  else if fault then (.systemError, s.modify r fun q => { q with active := false })
  else (.suspended, s)

/-- `io::await_suspend`. `refuse` says that the loop or the token of the request is stopped. -/
def suspend (refuse fault : Bool) : Verdict × State :=
  if (s.request r).busy.any s.flag then (.logicError, s)
  else if refuse then
    (.resumed, s.modify r fun q => { q with error := some .operationCanceled })
  else ((s.modify r fun q => { q with active := true }).reserve r).submit r fault

/-- `zc_send::start`. -/
def start (refuse fault : Bool) : Verdict × State :=
  if (s.request r).started then (.logicError, s)
  else
    match (s.modify r fun q => { q with started := true }).suspend r refuse fault with
    | (.suspended, s) => (.suspended, s)
    | (.resumed, s) => (.suspended, s.modify r fun q => { q with sent := true, released := true })
    | (v, s) => (v, s.modify r fun q => { q with sent := true, released := true })

/-- The start of an await on the request `r`; a `zc_send` is awaited through `sent()`. -/
def await (refuse fault : Bool) : Verdict × State :=
  match if (s.request r).kind = .zcSend then s.start r refuse fault
      else s.suspend r refuse fault with
  | (.suspended, s) => (.suspended, s.modify r fun q => { q with waiting := true })
  | (.resumed, s) => (.resumed, s.modify r fun q => { q with waiting := true })
  | (v, s) => (v, s)

/-- The handler of a CQE that is not a notification. That of a `zc_send` releases the direction. -/
def primary (error : Option Errc) : State :=
  if (s.request r).kind = .zcSend then
    let s := (s.modify r fun q => { q with error }).release r
    if error.isNone then s.modify r fun q => { q with sent := true } else s
  else s.modify r fun q => { q with error }

/-- `io::await_resume`. -/
def resume : State := (s.release r).modify r fun q => { q with waiting := false }

/-- `io::~io`. -/
def destroy : State :=
  (if (s.request r).reserved then s.setBusy r false else s).modify r fun q =>
    { q with alive := false }

/-- The request `r` has reserved the direction `d`. -/
def Holds (d : ℕ) : Prop :=
  (s.request r).alive = true ∧ (s.request r).reserved = true ∧ (s.request r).busy = some d

end State

/-- The steps of the owner thread that concern a request. -/
inductive Act where
  | construct (r : ℕ) (kind : Kind) (busy : Option ℕ) (empty : Bool)
  | await (r : ℕ) (refuse fault : Bool)
  | primary (r : ℕ) (error : Option Errc)
  | complete (r : ℕ)
  | resume (r : ℕ)
  | destroy (r : ℕ)
  deriving DecidableEq, Repr

/-- The request of a step. -/
def Act.request : Act → ℕ
  | construct r _ _ _ | await r _ _ | primary r _ | complete r | resume r | destroy r => r

/-- The steps. Awaits begin at any time; CQEs and completions are those of active requests. A
coroutine is resumed when its request has completed, or when `sent_` is set. The destructor of an
active request terminates the program. -/
inductive Step (s : State) : Act → State → Prop where
  | construct (r : ℕ) (kind : Kind) (busy : Option ℕ) (empty : Bool)
      (h : (s.request r).alive = false) :
      Step s (.construct r kind busy empty)
        (s.modify r fun _ => { kind, busy, empty, alive := true })
  | await (r : ℕ) (refuse fault : Bool) (h : (s.request r).alive = true) :
      Step s (.await r refuse fault) (s.await r refuse fault).2
  | primary (r : ℕ) (error : Option Errc) (h : (s.request r).alive = true)
      (active : (s.request r).active = true) : Step s (.primary r error) (s.primary r error)
  | complete (r : ℕ) (h : (s.request r).alive = true) (active : (s.request r).active = true) :
      Step s (.complete r) (s.complete r)
  | resume (r : ℕ) (h : (s.request r).alive = true) (waiting : (s.request r).waiting = true)
      (due : (s.request r).active = false ∨
        (s.request r).kind = .zcSend ∧ (s.request r).sent = true) :
      Step s (.resume r) (s.resume r)
  | destroy (r : ℕ) (h : (s.request r).alive = true) (retired : (s.request r).active = false) :
      Step s (.destroy r) (s.destroy r)

/-- The states of the runs that begin without requests. -/
def Reachable (s : State) : Prop := Relation.ReflTransGen (fun s t => ∃ a, Step s a t) {} s

/-! ### What a step does to the flags -/

variable {s t u : State} {r : ℕ}

/-- The state has the same flags and reservations. -/
def Same (s t : State) (r : ℕ) : Prop :=
  t.flag = s.flag ∧ (∀ p, p ≠ r → t.request p = s.request p) ∧ ∀ d, t.Holds r d ↔ s.Holds r d

/-- A step of the request `r` leaves the other requests alone, and either leaves the flags and its
own reservation alone, or reserves a direction whose flag is not set, or gives up the direction it
has reserved. -/
def Change (s t : State) (r : ℕ) : Prop :=
  (∀ p, p ≠ r → t.request p = s.request p) ∧
    ((t.flag = s.flag ∧ ∀ d, t.Holds r d ↔ s.Holds r d) ∨
      (∃ d, s.flag d = false ∧ (∀ e, s.Holds r e → e = d) ∧
        t.flag = update s.flag d true ∧ ∀ e, t.Holds r e ↔ e = d) ∨
      ∃ d, s.Holds r d ∧ t.flag = update s.flag d false ∧ ∀ e, ¬t.Holds r e)

theorem Same.refl : Same s s r := ⟨rfl, fun _ _ => rfl, fun _ => Iff.rfl⟩

theorem Same.trans (h : Same s t r) (h' : Same t u r) : Same s u r :=
  ⟨h'.1.trans h.1, fun p hp => (h'.2.1 p hp).trans (h.2.1 p hp),
    fun d => (h'.2.2 d).trans (h.2.2 d)⟩

theorem Same.change (h : Same s t r) : Change s t r := ⟨h.2.1, .inl ⟨h.1, h.2.2⟩⟩

theorem Change.after (h : Change s t r) (h' : Same t u r) : Change s u r := by
  obtain ⟨hflag, hothers, hholds⟩ := h'
  refine ⟨fun p hp => (hothers p hp).trans (h.1 p hp), ?_⟩
  rcases h.2 with ⟨hf, hh⟩ | ⟨d, hd, hs, hf, hh⟩ | ⟨d, hd, hf, hh⟩
  · exact .inl ⟨hflag.trans hf, fun d => (hholds d).trans (hh d)⟩
  · exact .inr (.inl ⟨d, hd, hs, hflag.trans hf, fun e => (hholds e).trans (hh e)⟩)
  · exact .inr (.inr ⟨d, hd, hflag.trans hf, fun e h => hh e ((hholds e).mp h)⟩)

theorem Same.before (h : Same s t r) (h' : Change t u r) : Change s u r := by
  obtain ⟨hflag, hothers, hholds⟩ := h
  refine ⟨fun p hp => (h'.1 p hp).trans (hothers p hp), ?_⟩
  rcases h'.2 with ⟨hf, hh⟩ | ⟨d, hd, ht, hf, hh⟩ | ⟨d, hd, hf, hh⟩
  · exact .inl ⟨hf.trans hflag, fun d => (hh d).trans (hholds d)⟩
  · exact .inr (.inl ⟨d, hflag ▸ hd, fun e he => ht e ((hholds e).mpr he), hflag ▸ hf, hh⟩)
  · exact .inr (.inr ⟨d, (hholds d).mp hd, hflag ▸ hf, hh⟩)

@[simp]
theorem request_modify_self (f : Request → Request) :
    (s.modify r f).request r = f (s.request r) := update_self ..

theorem request_modify_of_ne (f : Request → Request) {p : ℕ} (hp : p ≠ r) :
    (s.modify r f).request p = s.request p := update_of_ne hp ..

@[simp]
theorem request_setBusy (b : Bool) : (s.setBusy r b).request = s.request := by
  unfold State.setBusy
  split <;> rfl

/-- An update that keeps the three fields on which a reservation depends. -/
theorem same_modify {f : Request → Request} (halive : (f (s.request r)).alive = (s.request r).alive)
    (hreserved : (f (s.request r)).reserved = (s.request r).reserved)
    (hbusy : (f (s.request r)).busy = (s.request r).busy) : Same s (s.modify r f) r := by
  refine ⟨rfl, fun p hp => request_modify_of_ne f hp, fun d => ?_⟩
  rw [State.Holds, request_modify_self, halive, hreserved, hbusy, State.Holds]

theorem same_complete : Same s (s.complete r) r := by
  refine same_modify ?_ ?_ ?_ <;> split_ifs <;> rfl

/-- A request that sets its flag has found it cleared. -/
theorem change_reserve (halive : (s.request r).alive = true)
    (hfree : (s.request r).busy.any s.flag = false) : Change s (s.reserve r) r := by
  unfold State.reserve
  split_ifs with hbusy
  · obtain ⟨d, hd⟩ := Option.isSome_iff_exists.mp hbusy
    have hset : s.setBusy r true = { s with flag := update s.flag d true } := by
      rw [State.setBusy, hd]
    have hflag : s.flag d = false := by simpa [hd] using hfree
    have hbound : ∀ e, s.Holds r e → e = d := fun e he =>
      (Option.some.inj (hd.symm.trans he.2.2)).symm
    rw [hset]
    refine ⟨fun p hp => request_modify_of_ne _ hp, .inr (.inl ⟨d, hflag, hbound, rfl, fun e => ?_⟩)⟩
    rw [State.Holds, request_modify_self]
    exact ⟨fun h => (Option.some.inj (hd.symm.trans h.2.2)).symm, fun h => ⟨halive, rfl, h ▸ hd⟩⟩
  · exact Same.refl.change

/-- A request clears a flag only if it has reserved it, and then has no reservation. -/
theorem change_clear {f : Request → Request} (halive : (s.request r).alive = true)
    (hreserved : (s.request r).reserved = true)
    (hf : (f (s.request r)).alive = false ∨ (f (s.request r)).reserved = false) :
    Change s ((s.setBusy r false).modify r f) r := by
  have hothers : ∀ p, p ≠ r → ((s.setBusy r false).modify r f).request p = s.request p := by
    intro p hp
    rw [request_modify_of_ne _ hp, request_setBusy]
  have hnone : ∀ e, ¬((s.setBusy r false).modify r f).Holds r e := by
    rintro e ⟨h₁, h₂, -⟩
    rw [request_modify_self, request_setBusy] at h₁ h₂
    rcases hf with h | h
    · exact nomatch h.symm.trans h₁
    · exact nomatch h.symm.trans h₂
  cases hd : (s.request r).busy with
  | none =>
    have hset : s.setBusy r false = s := by rw [State.setBusy, hd]
    refine ⟨hothers, .inl ⟨by rw [hset]; rfl, fun e => ⟨fun h => absurd h (hnone e), fun h => ?_⟩⟩⟩
    exact nomatch hd.symm.trans h.2.2
  | some d =>
    have hset : s.setBusy r false = { s with flag := update s.flag d false } := by
      rw [State.setBusy, hd]
    exact ⟨hothers, .inr (.inr ⟨d, ⟨halive, hreserved, hd⟩, by rw [hset]; rfl, hnone⟩)⟩

theorem change_release (halive : (s.request r).alive = true) : Change s (s.release r) r := by
  unfold State.release
  split_ifs with hreserved
  · exact change_clear halive hreserved (.inr rfl)
  · exact Same.refl.change

theorem same_submit (fault : Bool) : Same s (s.submit r fault).2 r := by
  unfold State.submit
  split_ifs
  · exact same_complete
  · exact same_modify rfl rfl rfl
  · exact Same.refl

section

variable (halive : (s.request r).alive = true)
include halive

theorem change_suspend (refuse fault : Bool) : Change s (s.suspend r refuse fault).2 r := by
  unfold State.suspend
  by_cases hbusy : (s.request r).busy.any s.flag
  · rw [if_pos hbusy]
    exact Same.refl.change
  rw [if_neg hbusy]
  split_ifs with hrefuse
  · exact Same.change (same_modify rfl rfl rfl)
  · have hactive : Same s (s.modify r fun q => { q with active := true }) r :=
      same_modify rfl rfl rfl
    have hreserve : Change s ((s.modify r fun q => { q with active := true }).reserve r) r := by
      refine hactive.before (change_reserve ?_ ?_)
      · rw [request_modify_self]
        exact halive
      · rw [request_modify_self]
        exact Bool.eq_false_iff.mpr hbusy
    exact hreserve.after (same_submit fault)

theorem change_start (refuse fault : Bool) : Change s (s.start r refuse fault).2 r := by
  unfold State.start
  split_ifs
  · exact Same.refl.change
  · have hstarted : Same s (s.modify r fun q => { q with started := true }) r :=
      same_modify rfl rfl rfl
    have hsuspend := hstarted.before (change_suspend (by rw [request_modify_self]; exact halive)
      refuse fault)
    split
    · rename_i heq
      rwa [heq] at hsuspend
    · rename_i heq
      rw [heq] at hsuspend
      exact hsuspend.after (same_modify rfl rfl rfl)
    · rename_i heq
      rw [heq] at hsuspend
      exact hsuspend.after (same_modify rfl rfl rfl)

theorem change_await (refuse fault : Bool) : Change s (s.await r refuse fault).2 r := by
  have hcall : Change s (if (s.request r).kind = .zcSend then s.start r refuse fault
      else s.suspend r refuse fault).2 r := by
    split_ifs
    · exact change_start halive refuse fault
    · exact change_suspend halive refuse fault
  unfold State.await
  split
  · rename_i heq
    rw [heq] at hcall
    exact hcall.after (same_modify rfl rfl rfl)
  · rename_i heq
    rw [heq] at hcall
    exact hcall.after (same_modify rfl rfl rfl)
  · rename_i heq
    rwa [heq] at hcall

theorem change_primary (error : Option Errc) : Change s (s.primary r error) r := by
  have herror : Same s (s.modify r fun q => { q with error }) r := same_modify rfl rfl rfl
  have hrelease : Change s ((s.modify r fun q => { q with error }).release r) r :=
    herror.before (change_release (by rw [request_modify_self]; exact halive))
  unfold State.primary
  split_ifs
  · exact hrelease.after (same_modify rfl rfl rfl)
  · exact hrelease
  · exact herror.change

theorem change_destroy : Change s (s.destroy r) r := by
  unfold State.destroy
  split_ifs with hreserved
  · exact change_clear halive hreserved (.inl rfl)
  · refine ⟨fun p hp => request_modify_of_ne _ hp, .inl ⟨rfl, fun d => ⟨fun h => ?_, fun h => ?_⟩⟩⟩
    · rw [State.Holds, request_modify_self] at h
      exact nomatch h.1
    · exact absurd h.2.1 hreserved

end

/-- **What a step does to the flags.** -/
theorem Step.change {a : Act} (h : Step s a t) : Change s t a.request := by
  cases h with
  | construct r kind busy empty h =>
    refine ⟨fun p hp => request_modify_of_ne _ hp,
      .inl ⟨rfl, fun d => ⟨fun hd => ?_, fun hd => ?_⟩⟩⟩
    · rw [State.Holds, Act.request, request_modify_self] at hd
      exact nomatch hd.2.1
    · exact nomatch h.symm.trans hd.1
  | await r refuse fault h => exact change_await h refuse fault
  | primary r error h active => exact change_primary h error
  | complete r h active => exact same_complete.change
  | resume r h waiting due => exact (change_release h).after (same_modify rfl rfl rfl)
  | destroy r h retired => exact change_destroy h

/-! ### Exclusion -/

/-- The flag of a direction is set exactly while a request has reserved it, and this is only one. -/
def Exclusive (s : State) : Prop :=
  ∀ d, (s.flag d = true ↔ ∃ r, s.Holds r d) ∧ ∀ r q, s.Holds r d → s.Holds q d → r = q

/-- A request that was left alone holds what it has held. -/
theorem holds_congr {p : ℕ} (h : t.request p = s.request p) (d : ℕ) :
    t.Holds p d ↔ s.Holds p d := by
  rw [State.Holds, h, State.Holds]

/-- A direction whose flag and holders are what they were. -/
theorem Exclusive.congr (hs : Exclusive s) {d : ℕ} (hflag : t.flag d = s.flag d)
    (hholds : ∀ p, t.Holds p d ↔ s.Holds p d) :
    (t.flag d = true ↔ ∃ r, t.Holds r d) ∧ ∀ r q, t.Holds r d → t.Holds q d → r = q := by
  simp only [hflag, hholds]
  exact hs d

theorem Exclusive.change (hs : Exclusive s) (h : Change s t r) : Exclusive t := by
  obtain ⟨hothers, hflags⟩ := h
  intro e
  -- only the holding of `r` is in question
  have hiff : (t.Holds r e ↔ s.Holds r e) → ∀ p, t.Holds p e ↔ s.Holds p e := by
    intro hr p
    by_cases hp : p = r
    · exact hp ▸ hr
    · exact holds_congr (hothers p hp) e
  rcases hflags with ⟨hflag, hholds⟩ | ⟨d, hd, hbound, hflag, hholds⟩ | ⟨d, hd, hflag, hholds⟩
  · exact hs.congr (congrFun hflag e) (hiff (hholds e))
  · by_cases he : e = d
    · subst he
      -- the direction that is reserved now was not reserved by any request
      have honly : ∀ p, t.Holds p e → p = r := by
        intro p hp
        by_contra hne
        have hset := (hs e).1.mpr ⟨p, (holds_congr (hothers p hne) e).mp hp⟩
        exact Bool.false_ne_true (hd.symm.trans hset)
      refine ⟨⟨fun _ => ⟨r, (hholds e).mpr rfl⟩, fun _ => ?_⟩, fun p q hp hq => ?_⟩
      · rw [hflag, update_self]
      · rw [honly p hp, honly q hq]
    · refine hs.congr ?_ (hiff ⟨fun h => absurd ((hholds e).mp h) he,
        fun h => absurd (hbound e h) he⟩)
      rw [hflag, update_of_ne he]
  · by_cases he : e = d
    · subst he
      -- the only request that had reserved it has given it up
      have hnone : ∀ p, ¬t.Holds p e := by
        intro p hp
        by_cases hpr : p = r
        · exact hholds e (hpr ▸ hp)
        · exact hpr ((hs e).2 p r ((holds_congr (hothers p hpr) e).mp hp) hd)
      refine ⟨⟨fun h => ?_, fun ⟨p, hp⟩ => absurd hp (hnone p)⟩, fun p q hp => absurd hp (hnone p)⟩
      rw [hflag, update_self] at h
      exact nomatch h
    · have hbound : ¬s.Holds r e := fun h =>
        he (Option.some.inj (h.2.2.symm.trans hd.2.2))
      refine hs.congr ?_ (hiff ⟨fun h => absurd h (hholds e), fun h => absurd h hbound⟩)
      rw [hflag, update_of_ne he]

theorem Reachable.exclusive (h : Reachable s) : Exclusive s := by
  induction h with
  | refl =>
    intro d
    have hnone : ∀ p, ¬({} : State).Holds p d := fun p h => Bool.false_ne_true h.1
    exact ⟨⟨fun h => absurd h Bool.false_ne_true, fun ⟨p, h⟩ => absurd h (hnone p)⟩,
      fun p _ h => absurd h (hnone p)⟩
  | tail _ hstep ih =>
    obtain ⟨a, ha⟩ := hstep
    exact ih.change ha.change

/-- An await on a direction whose flag is set throws, and leaves the flags, the reservations and the
other requests as they are. -/
theorem await_eq_of_flag {d : ℕ} (hbusy : (s.request r).busy = some d) (hflag : s.flag d = true)
    (refuse fault : Bool) :
    (s.await r refuse fault).1 = .logicError ∧ Same s (s.await r refuse fault).2 r := by
  have hsuspend : ∀ t : State, (t.request r).busy = some d → t.flag d = true →
      t.suspend r refuse fault = (.logicError, t) := by
    intro t hbusy hflag
    rw [State.suspend, if_pos (by rw [hbusy]; exact hflag)]
  have hstart : (s.start r refuse fault).1 = .logicError ∧ Same s (s.start r refuse fault).2 r := by
    unfold State.start
    split_ifs
    · exact ⟨rfl, Same.refl⟩
    · have hcall := hsuspend (s.modify r fun q => { q with started := true })
        (by rw [request_modify_self]; exact hbusy) hflag
      rw [hcall]
      exact ⟨rfl, Same.trans (same_modify rfl rfl rfl) (same_modify rfl rfl rfl)⟩
  have hcall : ∀ x : Verdict × State, x.1 = .logicError ∧ Same s x.2 r →
      (match x with
        | (.suspended, s) => (Verdict.suspended, s.modify r fun q => { q with waiting := true })
        | (.resumed, s) => (.resumed, s.modify r fun q => { q with waiting := true })
        | (v, s) => (v, s)) = x := by
    rintro ⟨v, t⟩ ⟨rfl, -⟩
    rfl
  unfold State.await
  by_cases hkind : (s.request r).kind = .zcSend
  · rw [if_pos hkind, hcall _ hstart]
    exact hstart
  · rw [if_neg hkind, hsuspend s hbusy hflag]
    exact ⟨rfl, Same.refl⟩

/-- **One request per direction.** In every state of every run:
* at most one request has reserved a direction, and the flag of the direction is set exactly when
  one has;
* an await of any request on a direction that is reserved throws `logic_error`, and leaves the
  flags, all reservations and all other requests as they are;
* a flag is cleared only by a step of the request that has reserved it;
* a step of another request leaves the request that has reserved a direction, and its flag,
  alone. -/
theorem direction_exclusive (h : Reachable s) (d : ℕ) :
    (∀ r q, s.Holds r d → s.Holds q d → r = q) ∧
    (s.flag d = true ↔ ∃ r, s.Holds r d) ∧
    (∀ r q refuse fault, s.Holds r d → (s.request q).alive = true → (s.request q).busy = some d →
      (s.await q refuse fault).1 = .logicError ∧ (s.await q refuse fault).2.flag = s.flag ∧
      (∀ p, p ≠ q → (s.await q refuse fault).2.request p = s.request p) ∧
      ∀ p e, (s.await q refuse fault).2.Holds p e ↔ s.Holds p e) ∧
    (∀ a t, Step s a t → s.flag d = true → t.flag d = false → s.Holds a.request d) ∧
    ∀ a t r, Step s a t → s.Holds r d → a.request ≠ r →
      t.flag d = true ∧ t.request r = s.request r := by
  have hs := h.exclusive
  refine ⟨(hs d).2, (hs d).1, fun r q refuse fault hr _ hbusy => ?_, fun a t ht hset hclear => ?_,
    fun a t r ht hr hne => ?_⟩
  · obtain ⟨hthrow, hflag, hothers, hholds⟩ :=
      await_eq_of_flag hbusy ((hs d).1.mpr ⟨r, hr⟩) refuse fault
    refine ⟨hthrow, hflag, hothers, fun p e => ?_⟩
    by_cases hp : p = q
    · exact hp ▸ hholds e
    · exact holds_congr (hothers p hp) e
  · rcases ht.change.2 with ⟨hflag, -⟩ | ⟨e, -, -, hflag, -⟩ | ⟨e, he, hflag, -⟩
    · rw [hflag, hset] at hclear
      exact nomatch hclear
    · rw [hflag] at hclear
      by_cases hde : d = e
      · rw [hde, update_self] at hclear
        exact nomatch hclear
      · rw [update_of_ne hde, hset] at hclear
        exact nomatch hclear
    · by_cases hde : d = e
      · exact hde ▸ he
      · rw [hflag, update_of_ne hde, hset] at hclear
        exact nomatch hclear
  · have hrequest := ht.change.1 r (Ne.symm hne)
    have ht' := hs.change ht.change
    exact ⟨(ht' d).1.mpr ⟨r, (holds_congr hrequest d).mpr hr⟩, hrequest⟩

/-- A `zc_send` whose first CQE has released the direction, and a write that has reserved it
since. -/
def pipelinedState : State :=
  let s := ({} : State).modify 0 fun _ => { kind := .zcSend, busy := some 0, alive := true }
  let s := s.modify 1 fun _ => { kind := .io, busy := some 0, alive := true }
  let s := (s.await 0 false false).2
  ((s.primary 0 none).await 1 false false).2

theorem reachable_pipelinedState : Reachable pipelinedState := by
  refine .head ⟨_, .construct 0 .zcSend (some 0) false rfl⟩ ?_
  refine .head ⟨_, .construct 1 .io (some 0) false rfl⟩ ?_
  refine .head ⟨_, .await 0 false false rfl⟩ ?_
  refine .head ⟨_, .primary 0 none rfl rfl⟩ ?_
  exact .single ⟨_, .await 1 false false rfl⟩

/-- The `zc_send` that is resumed late does not clear the flag of the write. -/
theorem direction_exclusive_pipelinedState :
    pipelinedState.Holds 1 0 ∧ (pipelinedState.resume 0).flag 0 = true := by
  have hholds : pipelinedState.Holds 1 0 := ⟨rfl, rfl, rfl⟩
  have hstep : Step pipelinedState (.resume 0) (pipelinedState.resume 0) :=
    .resume 0 rfl rfl (.inr ⟨rfl, rfl⟩)
  exact ⟨hholds, ((direction_exclusive reachable_pipelinedState 0).2.2.2.2 _ _ 1 hstep hholds
    (by decide)).1⟩

end Snowy.Direction
