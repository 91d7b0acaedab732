import Snowy.Ranges
import Snowy.Uring.Multishot

/-!
# Periodic timers

`uring::ticks` awaits one multishot timeout after another and calls a consumer `fn` for each tick.
The kernel reports a tick with the result `-ETIME`, which sets the error of the request, so that the
await of a shot with a tick always throws; `ticks` goes on if the code is `ETIME`. The kernel may
end a shot early. Then the next one is armed with the number of ticks that are left, where zero
would mean that there is no limit. The numbers are 32-bit unsigned integers.

The requests are those of `Snowy.Uring.Multishot`, whose loop leaves its decision to the fields of
the last shot. The loop of `ticks` moreover counts: its steps from one shot to the next are added
here, together with what the kernel guarantees for a timeout that is armed with a count.

## Main definitions

* `Snowy.Uring.Ticks.consume`, `Snowy.Uring.Ticks.after` : the callback, and what follows the await.
* `Snowy.Uring.Ticks.State`, `Snowy.Uring.Ticks.Step` : the loop.
* `Snowy.Uring.Ticks.State.Limited` : what the kernel guarantees.

## Main results

* `Snowy.Uring.Ticks.Reachable.kept` : the invariant.
* `Snowy.Uring.Ticks.ticks_honours_count` : what `ticks` guarantees.
-/

namespace Snowy.Uring.Ticks

open Function List

open Multishot

variable {ε : Type}

/-! ### The operation -/

/-- `ETIME`. -/
def etime : ℕ := 62

/-- The variable `received`, and the number of calls of the consumer. -/
structure Counter where
  received : UInt32 := 0
  calls : ℕ := 0
  deriving DecidableEq, Repr

/-- A tick has come. -/
def Counter.tick (x : Counter) : Counter := ⟨x.received + 1, x.calls + 1⟩

/-- The callback. -/
def consume (answer : ℕ → Multishot.Answer ε) (_ : Unit) (stopped : Bool) (res : ℤ) (_flags : ℕ)
    (x : Counter) : Consumed Counter (Failure ε) :=
  if res = -(etime : ℤ) ∧ stopped = false then
    { client := x.tick, stop := (answer x.calls).stop, thrown := (answer x.calls).thrown }
  else { client := x }

/-- What follows the await, up to the condition of the loop: `ETIME` is ignored. -/
def after (x : Option (Exn (Failure ε))) (f : Fields (Failure ε)) : Next (Failure ε) :=
  f.after f.stopped (some etime) x

/-- What follows the await of a request that was submitted. -/
def afterShot (x : Option (Exn (Failure ε))) (f : Fields (Failure ε)) : Next (Failure ε) :=
  match x with
  | some (.submission y) => .fail (.submission y)
  | x => after x f

theorem open_of_afterShot {x : Option (Exn (Failure ε))} {f : Fields (Failure ε)}
    (h : afterShot x f = .again) : f.stopped = false ∧ f.failure = none := by
  unfold afterShot at h
  split at h
  · cases h
  · exact (h ▸ Fields.ends_after : f.Ends f.stopped (some etime) x .again)

/-- The requests of `uring::ticks`. -/
def operation (answer : ℕ → Multishot.Answer ε) : Operation Unit Counter (Failure ε) where
  consume := consume answer
  after := afterShot
  pauses := false
  payload _ _ := ()
  contract _ := True
  open_of_again _ _ := open_of_afterShot
  after_canceled := rfl
  after_submission _ _ := rfl

/-! ### The loop -/

/-- A timeout that the kernel was given: the argument `count`, and how often the consumer had been
called before. -/
structure Timeout where
  calls : ℕ
  count : UInt32
  deriving DecidableEq, Repr

/-- The coroutine with its requests, and the timeouts that were armed, the last one first. -/
structure State (ε : Type) where
  shot : Multishot.State Unit Counter (Failure ε) := { client := {} }
  armed : List Timeout := []

/-- Where the coroutine goes. A coroutine that goes on is at the condition of the loop. -/
def settle : Next (Failure ε) → Multishot.Phase (Failure ε)
  | .finish => .returned
  | .fail y => .threw y
  | .again => .arming

/-- The number of CQEs that are ticks. -/
def ticksOf (l : List (ℤ × ℕ)) : ℕ := l.countP fun p => p.1 = -(etime : ℤ)

namespace State

variable (s : State ε) (count : UInt32)

/-- The condition of the loop, `!count || received < count`. It holds before the first iteration,
too. -/
def Continues : Prop := count = 0 ∨ s.shot.client.received < count

instance : Decidable (s.Continues count) := inferInstanceAs (Decidable (_ ∨ _))

/-- `ticks` has returned: after a shot that the consumer has stopped, or as the condition of the
loop does not hold. -/
def Returned : Prop := s.shot.phase = .returned ∨ s.shot.phase = .arming ∧ ¬s.Continues count

/-- `count ? count - received : 0`. -/
def remaining : UInt32 := if count ≠ 0 then count - s.shot.client.received else 0

/-- A timeout is armed. -/
def arm (r : ℕ) : State ε where
  shot := s.shot.submit r
  armed := ⟨s.shot.client.calls, s.remaining count⟩ :: s.armed

/-- The coroutine goes to another place. -/
def goto (p : Multishot.Phase (Failure ε)) : State ε := { s with shot := s.shot.goto p }

/-- The kernel writes at most `c` ticks for a timeout that was armed with a count `c` other than
zero. -/
def Limited : Prop :=
  ∀ p ∈ s.shot.shots.zip s.armed, p.2.count ≠ 0 →
    ticksOf (s.shot.driver.posted p.1) ≤ p.2.count.toNat

instance : Decidable s.Limited :=
  inferInstanceAs (Decidable (∀ p ∈ s.shot.shots.zip s.armed, _ → _))

end State

/-- The beginning of `uring::ticks`. -/
def start (interval : ℤ) : Except InvalidArgument (State ε) :=
  if interval ≤ 0 then throw ⟨"nonpositive timer interval"⟩ else pure {}

/-- A step: one of the requests, which starts no shot, or one of the loop, which arms a timeout, is
refused because the token is canceled, or fails to submit the request. -/
inductive Step (count : UInt32) (answer : ℕ → Multishot.Answer ε) (s : State ε) : State ε → Prop
  | shot {t : Multishot.State Unit Counter (Failure ε)}
      (step : Multishot.Step (operation answer) s.shot t)
      (stays : s.shot.phase = .arming → t.phase = .arming)
      (limited : State.Limited { s with shot := t }) : Step count answer s { s with shot := t }
  | arm {r : ℕ} (phase : s.shot.phase = .arming) (loop : s.Continues count)
      (token : s.shot.canceled = false) (fresh : r ∉ s.shot.driver.submitted)
      (idle : s.shot.driver.batch = []) : Step count answer s (s.arm count r)
  | refuse (phase : s.shot.phase = .arming) (loop : s.Continues count)
      (token : s.shot.canceled = true) :
      Step count answer s
        (s.goto (settle (after (some (.code ecanceled)) { error := some ecanceled })))
  | fail {x : Thrown} (phase : s.shot.phase = .arming) (loop : s.Continues count) :
      Step count answer s (s.goto (settle (after (some (.submission x)) {})))

/-- A state of some run. -/
def Reachable (interval : ℤ) (count : UInt32) (answer : ℕ → Multishot.Answer ε) (s : State ε) :
    Prop :=
  ∃ s₀, start interval = .ok s₀ ∧ Relation.ReflTransGen (Step count answer) s₀ s

/-! ### The consumer -/

section Consumer

variable {answer : ℕ → Multishot.Answer ε} {x : Counter} {stopped : Bool}
  {failure : Option (Failure ε)}

/-- The consumer has been called as long as it returned `true`. -/
structure Tidy (answer : ℕ → Multishot.Answer ε) (x : Counter) (stopped : Bool)
    (failure : Option (Failure ε)) : Prop where
  received : x.received.toNat = x.calls % 2 ^ 32
  answered : Answered answer x.calls stopped failure
  consumer : failure ≠ some .library

theorem ne_library_thrown (a : Multishot.Answer ε) : a.thrown ≠ some .library := by
  cases a <;> exact nofun

/-- The callback for any CQE. -/
theorem Tidy.consume (h : Tidy answer x stopped failure) (p : ℤ × ℕ) :
    let c := Ticks.consume answer () stopped p.1 p.2 x
    Tidy answer c.client (stopped || c.stop || c.thrown.isSome) (failure.or c.thrown) := by
  intro c
  by_cases htick : p.1 = -(etime : ℤ) ∧ stopped = false
  · obtain rfl := htick.2
    obtain rfl := h.answered.failure_eq_none
    have hc : c =
        { client := x.tick
          stop := (answer x.calls).stop
          thrown := (answer x.calls).thrown } := if_pos htick
    rw [hc, Bool.false_or, Option.none_or]
    refine ⟨?_, h.answered.call, ne_library_thrown _⟩
    change (x.received + 1).toNat = (x.calls + 1) % 2 ^ 32
    rw [UInt32.toNat_add, h.received, UInt32.toNat_one, Nat.mod_add_mod]
  · have hc : c = { client := x } := if_neg htick
    rw [hc]
    simpa using h

/-- **The consumer has been called as long as it returned `true`.** -/
theorem tidy_run (answer : ℕ → Multishot.Answer ε) (l : List (ℤ × ℕ)) :
    let x := (operation answer).run {} l
    Tidy answer x.client x.stopped x.failure := by
  induction l using List.reverseRecOn with
  | nil => exact ⟨rfl, .going nofun, nofun⟩
  | append_singleton l p ih =>
    rw [Operation.run_append]
    exact ih.consume p

/-- Each call is for a tick. -/
theorem calls_consume (answer : ℕ → Multishot.Answer ε) (y : Unit) (stopped : Bool) (p : ℤ × ℕ)
    (x : Counter) : (consume answer y stopped p.1 p.2 x).client.calls ≤ x.calls + ticksOf [p] := by
  rw [consume]
  split_ifs with h
  · rw [ticksOf, countP_singleton, if_pos (decide_eq_true h.1)]
    exact Nat.le_refl _
  · exact Nat.le_add_right ..

end Consumer

/-! ### The requests -/

section Requests

variable {answer : ℕ → Multishot.Answer ε} {s t : Multishot.State Unit Counter (Failure ε)}

theorem shots_handle (s : Multishot.State Unit Counter (Failure ε)) (e : Cqe) (rest : List Cqe) :
    (s.handle (operation answer) e rest).shots = s.shots := by
  unfold State.handle State.result
  dsimp only
  split_ifs
  · split <;> rfl
  · rfl

/-- A step of the requests that does not leave the condition of the loop starts no shot. -/
theorem shots_eq (h : Multishot.Step (operation answer) s t)
    (stays : s.phase = .arming → t.phase = .arming) : t.shots = s.shots := by
  cases h with
  | submit phase token fresh idle => exact nomatch stays phase
  | handle next => exact shots_handle ..
  | _ => rfl

/-- The calls in a step of the requests are for the ticks of the last shot. -/
theorem calls_step (hs : Sound (operation answer) {} s) (h : Multishot.Step (operation answer) s t)
    (stays : s.phase = .arming → t.phase = .arming) {r n : ℕ} (head : s.shots.head? = some r)
    (hn : s.client.calls ≤ n + ticksOf (s.driver.request r).handled) :
    t.client.calls ≤ n + ticksOf (t.driver.request r).handled := by
  have hr : r ∈ s.shots := mem_of_mem_head? head
  cases h with
  | submit phase token fresh idle => cases stays phase
  | other step ha silent =>
    rw [State.setDriver]
    dsimp only
    rwa [hs.handled_eq step ha r hr]
  | post _ tag step contract =>
    rw [State.post]
    dsimp only
    rwa [hs.handled_eq step (fun _ h => by cases h) r hr]
  | @handle e rest next =>
    by_cases tag : e.tag = .request r
    · obtain ⟨hlast, -, hunread⟩ := hs.results_handle next head tag
      have hdata := hs.data
      rw [hunread, Operation.payloads] at hdata
      rw [handle_eq rest head tag hdata]
      dsimp only
      have hcalls := calls_consume answer ((operation answer).payload s.results (e.res, e.flags))
        s.fields.stopped (e.res, e.flags) s.client
      have hticks : ticksOf ((s.driver.request r).handled ++ [(e.res, e.flags)]) =
          ticksOf (s.driver.request r).handled + ticksOf [(e.res, e.flags)] := countP_append
      refine hlast.symm ▸ ?_
      rw [hticks]
      exact Nat.le_trans hcalls (by omega)
    · have htag : ¬∃ q ∈ s.shots.head?, e.tag = .request q := by
        rintro ⟨q, hq, htag⟩
        cases head.symm.trans hq
        exact tag htag
      have hhandled := (request_handle { s.driver with batch := rest } e r).2.1
        (hs.submitted r hr).2
      rw [if_neg tag, append_nil] at hhandled
      rw [State.handle, if_neg htag]
      dsimp only
      rwa [hhandled]
  | _ => exact hn

end Requests

/-! ### The end of a shot -/

section After

variable {answer : ℕ → Multishot.Answer ε} {f : Fields (Failure ε)} {y : Exn (Failure ε)}

theorem next_eq (s : Multishot.State Unit Counter (Failure ε)) :
    s.next (operation answer) = after (s.fields.error.map .code) s.fields := by
  change afterShot _ _ = _
  cases s.fields.error <;> rfl

/-- What is thrown after a shot is an exception of the callback, or the error of the request if it
is not `ETIME`. -/
theorem of_after_fail {error : Option ℕ} (h : after (error.map .code) f = .fail y) :
    (∃ e, y = .failure e) ∨ ∃ errno, y = .code errno ∧ errno ≠ etime := by
  have hends : f.Ends f.stopped (some etime) (error.map .code) (.fail y) := h ▸ Fields.ends_after
  refine hends.imp_right ?_
  rintro ⟨herror, hne⟩
  obtain ⟨errno, -, rfl⟩ := Option.map_eq_some_iff.mp herror
  exact ⟨errno, rfl, fun h => hne etime rfl (congrArg some h)⟩

/-- A shot after which the coroutine returns was stopped. -/
theorem stopped_of_after_finish {x : Option (Exn (Failure ε))} (h : after x f = .finish) :
    f.stopped = true := by
  have hends : f.Ends f.stopped (some etime) x .finish := h ▸ Fields.ends_after
  exact hends.1.elim id id

theorem after_submission {x : Thrown} : after (some (.submission x)) {} =
    if x.code = some etime then .again else .fail (.submission x : Exn (Failure ε)) := by
  have herrno : (Exn.submission x : Exn (Failure ε)).errno = x.code := rfl
  unfold after Fields.after
  dsimp only
  rw [herrno]
  cases x.code with
  | none => rfl
  | some errno => by_cases h : errno = etime <;> simp [h, Ne.symm, Fields.proceed]

end After

/-! ### The invariant -/

section Kept

variable {answer : ℕ → Multishot.Answer ε} {count : UInt32} {s t : State ε}

/-- A timeout was armed with the ticks that were left. -/
def Timeout.Fits (count : UInt32) (a : Timeout) : Prop :=
  (count = 0 → a.count = 0) ∧
    (count ≠ 0 → 0 < a.count.toNat ∧ a.calls + a.count.toNat = count.toNat)

/-- The invariant: the consumer has been called for ticks of the last shot since the shot was
armed. -/
structure Kept (count : UInt32) (answer : ℕ → Multishot.Answer ε) (s : State ε) : Prop where
  sound : Sound (operation answer) {} s.shot
  length : s.armed.length = s.shot.shots.length
  limited : s.Limited
  fits : ∀ a ∈ s.armed, a.Fits count
  calls : ∀ {r a}, s.shot.shots.head? = some r → s.armed.head? = some a →
    s.shot.client.calls ≤ a.calls + ticksOf (s.shot.driver.request r).handled
  submission : ∀ {x}, s.shot.phase = .threw (.submission x) → x.code ≠ some etime

namespace Kept

theorem init : Kept count answer ({} : State ε) where
  sound := sound_init _
  length := rfl
  limited := nofun
  fits := nofun
  calls := nofun
  submission := nofun

section

variable (hs : Kept count answer s)
include hs

theorem tidy : Tidy answer s.shot.client s.shot.fields.stopped s.shot.fields.failure := by
  have htidy := tidy_run answer s.shot.results
  dsimp only at htidy
  rwa [← hs.sound.follows.client, ← hs.sound.follows.stopped, ← hs.sound.follows.failure] at htidy

/-- The consumer has been called at most `count` times. -/
theorem calls_le (hcount : count ≠ 0) : s.shot.client.calls ≤ count.toNat := by
  cases hshots : s.shot.shots with
  | nil =>
    have hclient := hs.sound.follows.client
    rw [State.results, hshots] at hclient
    rw [hclient]
    exact Nat.zero_le _
  | cons r old =>
    obtain ⟨a, rest, harmed⟩ : ∃ a rest, s.armed = a :: rest :=
      exists_cons_of_length_eq_add_one (hs.length.trans (congrArg List.length hshots))
    have hcalls : s.shot.client.calls ≤ a.calls + ticksOf (s.shot.driver.request r).handled :=
      hs.calls (by rw [hshots]; rfl) (by rw [harmed]; rfl)
    obtain ⟨hpos, hsum⟩ := (hs.fits a (harmed ▸ mem_cons_self)).2 hcount
    have hne : a.count ≠ 0 := by
      rintro hzero
      rw [hzero] at hpos
      exact absurd hpos (Nat.lt_irrefl 0)
    have hlimited : ticksOf (s.shot.driver.posted r) ≤ a.count.toNat := by
      refine hs.limited (r, a) ?_ hne
      rw [hshots, harmed]
      exact mem_cons_self
    have hprefix : ticksOf (s.shot.driver.request r).handled ≤ ticksOf (s.shot.driver.posted r) :=
      (handled_isPrefix_posted s.shot.driver r).sublist.countP_le
    omega

/-- The variable `received` is the number of calls. -/
theorem received_eq (hcount : count ≠ 0) : s.shot.client.received.toNat = s.shot.client.calls := by
  have hlt : s.shot.client.calls < 2 ^ 32 :=
    Nat.lt_of_le_of_lt (hs.calls_le hcount) count.toNat_lt
  rw [hs.tidy.received, Nat.mod_eq_of_lt hlt]

/-- The count of a timeout is the number of ticks that are left. -/
theorem fits_remaining (h : s.Continues count) :
    Timeout.Fits count ⟨s.shot.client.calls, s.remaining count⟩ := by
  refine ⟨fun hcount => if_neg (not_not.mpr hcount), fun hcount => ?_⟩
  have hlt : s.shot.client.received < count := h.resolve_left hcount
  have hremaining : s.remaining count = count - s.shot.client.received := if_pos hcount
  have hsub := UInt32.toNat_sub_of_le _ _ (UInt32.le_of_lt hlt)
  have hlt' : s.shot.client.received.toNat < count.toNat := hlt
  dsimp only
  rw [hremaining, hsub, ← hs.received_eq hcount]
  omega

/-- A step of the requests. -/
theorem shot {t : Multishot.State Unit Counter (Failure ε)}
    (step : Multishot.Step (operation answer) s.shot t)
    (stays : s.shot.phase = .arming → t.phase = .arming)
    (limited : State.Limited { s with shot := t }) : Kept count answer { s with shot := t } where
  sound := hs.sound.step step
  length := by
    dsimp only
    rw [shots_eq step stays]
    exact hs.length
  limited := limited
  fits := hs.fits
  calls {r a} hr ha := by
    dsimp only at hr
    rw [shots_eq step stays] at hr
    exact calls_step hs.sound step stays hr (hs.calls hr ha)
  submission {x} hphase := by
    dsimp only at hphase
    cases step with
    | submit phase | available phase => cases hphase
    | refuse phase | fail phase => exact nomatch (stays phase).symm.trans hphase
    | resume phase done =>
      rw [phase_resume, next_eq] at hphase
      split at hphase
      · cases hphase
      · rename_i y hfail
        cases hphase
        obtain ⟨e, h⟩ | ⟨errno, h, -⟩ := of_after_fail hfail <;> cases h
      · cases hphase
    | interrupt phase => cases hphase
    | handle next => exact hs.submission ((phase_handle ..).symm.trans hphase)
    | _ => exact hs.submission hphase

/-- A timeout is armed. -/
theorem arm {r : ℕ} (phase : s.shot.phase = .arming)
    (loop : s.Continues count) (fresh : r ∉ s.shot.driver.submitted)
    (idle : s.shot.driver.batch = []) : Kept count answer (s.arm count r) where
  sound := hs.sound.submit phase fresh idle
  length := congrArg (· + 1) hs.length
  limited := by
    have hstep : Uring.Step s.shot.driver _ (s.arm count r).shot.driver :=
      .submit .native true false false fresh idle
    intro p hp hne
    rcases mem_cons.mp hp with rfl | hp
    · have hposted : (s.arm count r).shot.driver.posted r = [] :=
        posted_submit hs.sound.driver fresh ..
      dsimp only
      rw [hposted]
      exact Nat.zero_le _
    · have hmem := (hs.sound.submitted p.1 (of_mem_zip hp).1)
      rw [hstep.posted_eq hmem.1 hmem.2]
      exact (congrArg ticksOf (append_nil _)).trans_le (hs.limited p hp hne)
  fits a ha := by
    rcases mem_cons.mp ha with rfl | ha
    · exact hs.fits_remaining loop
    · exact hs.fits a ha
  calls {q a} _ ha := by
    cases ha
    exact Nat.le_add_right ..
  submission := nofun

/-- The coroutine ends without another shot. -/
theorem threw {y : Exn (Failure ε)} (phase : s.shot.phase = .arming)
    (h : y = .code ecanceled ∧ s.shot.canceled = true ∨
      ∃ x : Thrown, y = .submission x ∧ x.code ≠ some etime) :
    Kept count answer (s.goto (.threw y)) where
  sound := by
    refine hs.sound.goto (fun _ => nofun) (hs.sound.mem_retired fun r hr => ?_) ?_
    · exact nomatch phase.symm.trans hr
    · rcases h with ⟨rfl, token⟩ | ⟨x, rfl, -⟩
      · exact .inl ⟨rfl, token⟩
      · exact .inr (.inl ⟨x, rfl⟩)
  length := hs.length
  limited := hs.limited
  fits := hs.fits
  calls := hs.calls
  submission {x} hphase := by
    cases hphase
    rcases h with ⟨h, -⟩ | ⟨x, h, hx⟩ <;> cases h
    exact hx

/-- Each step keeps the invariant. -/
theorem step (h : Step count answer s t) : Kept count answer t := by
  cases h with
  | shot step stays limited => exact hs.shot step stays limited
  | arm phase loop token fresh idle => exact hs.arm phase loop fresh idle
  | refuse phase loop token => exact hs.threw phase (.inl ⟨rfl, token⟩)
  | @fail x phase loop =>
    rw [after_submission]
    split_ifs with hx
    · -- the condition of the loop is looked at again
      have hgoto : s.goto (settle .again) = s := by
        cases s
        simp only [State.goto, Multishot.State.goto, settle]
        rw [← phase]
      rwa [hgoto]
    · exact hs.threw phase (.inr ⟨x, rfl, hx⟩)

end

end Kept

/-- The invariant holds in every run. -/
theorem Reachable.kept {interval : ℤ} (h : Reachable interval count answer s) :
    Kept count answer s := by
  obtain ⟨s₀, hstart, h⟩ := h
  have hinit : s₀ = {} := by
    rw [start] at hstart
    split_ifs at hstart
    exact (Except.ok.inj hstart).symm
  induction h with
  | refl => exact hinit ▸ Kept.init
  | tail _ h ih => exact ih.step h

/-- If `ticks` has returned and the consumer has always returned `true`, it was called `count`
times. -/
theorem Kept.calls_eq (hs : Kept count answer s) (hcount : count ≠ 0) (h : s.Returned count)
    (hmore : ∀ i < s.shot.client.calls, answer i = .more) : s.shot.client.calls = count.toNat := by
  rcases h with hphase | ⟨-, hloop⟩
  · have hsettled := hs.sound.settled
    rw [State.Settled, hphase] at hsettled
    have hstopped := stopped_of_after_finish ((next_eq _).symm.trans hsettled.2)
    have hgoing := (hs.tidy.answered.stopped_eq_false_iff hs.tidy.consumer).mpr hmore
    exact absurd (hgoing.symm.trans hstopped) Bool.false_ne_true
  · have hge : count.toNat ≤ s.shot.client.received.toNat :=
      Nat.le_of_not_lt fun hlt => hloop (.inr hlt)
    rw [hs.received_eq hcount] at hge
    exact Nat.le_antisymm (hs.calls_le hcount) hge

/-- `ETIME` is not thrown. -/
theorem Kept.errno_ne (hs : Kept count answer s) {y : Exn (Failure ε)}
    (h : s.shot.phase = .threw y) : y.errno ≠ some etime := by
  have hsettled := hs.sound.settled
  rw [State.Settled, h] at hsettled
  rcases hsettled with ⟨rfl, -⟩ | ⟨x, rfl⟩ | ⟨-, hfail⟩
  · exact fun h => absurd (Option.some.inj h) (by decide : ecanceled ≠ etime)
  · exact hs.submission h
  · rw [next_eq] at hfail
    obtain ⟨e, rfl⟩ | ⟨errno, rfl, herrno⟩ := of_after_fail hfail
    · exact (Option.some_ne_none etime).symm
    · exact fun h => herrno (Option.some.inj h)

/-- A shot that was canceled but not stopped by the consumer. -/
theorem Kept.threw_of_canceled (hs : Kept count answer s) {r : ℕ} {l : List (ℤ × ℕ)} {p : ℤ × ℕ}
    (phase : s.shot.phase = .shooting r) (hhandled : (s.shot.driver.request r).handled = l ++ [p])
    (hp : p.1 = -(ecanceled : ℤ)) (hmore : ∀ i < s.shot.client.calls, answer i = .more) :
    (s.shot.resume (operation answer)).phase = .threw (.code ecanceled) := by
  have hstopped := (hs.tidy.answered.stopped_eq_false_iff hs.tidy.consumer).mpr hmore
  have hfailure : s.shot.fields.failure = none :=
    (hstopped ▸ hs.tidy.answered).failure_eq_none
  have herror : s.shot.fields.error = some ecanceled := by
    rw [(hs.sound.fields r (hs.sound.shot r phase)).1, hhandled, Fields.recorded_append,
      Fields.record, hp]
    rfl
  have hnext : s.shot.next (operation answer) = .fail (.code ecanceled) := by
    rw [next_eq, herror]
    simp [after, Fields.after, Exn.errno, hfailure, hstopped, ecanceled, etime]
  rw [phase_resume, hnext]

/-- **`ticks` keeps to its count across shots.** The kernel may write any CQEs and end a shot with
any of them, but writes at most `c` ticks for a timeout that is armed with a count `c` other than
zero; the consumer may answer in any way at each call, and the token may be canceled at any time. In
every state of every run, with any number of shots:
* if there is a count, the consumer has been called at most that many times, and exactly that many
  times if `ticks` has returned and the consumer has always returned `true`;
* each timeout was armed with the number of ticks that were left, which was not zero;
* the consumer is not called after it has returned `false` or thrown;
* `ETIME` is not thrown, and when the coroutine is resumed after a shot that has ended with
  `ECANCELED` and was not stopped by the consumer, `ECANCELED` is thrown. -/
theorem ticks_honours_count (interval : ℤ) (count : UInt32) (answer : ℕ → Multishot.Answer ε)
    {s : State ε} (h : Reachable interval count answer s) :
    (count ≠ 0 → s.shot.client.calls ≤ count.toNat) ∧
    (count ≠ 0 → s.Returned count → (∀ i < s.shot.client.calls, answer i = .more) →
      s.shot.client.calls = count.toNat) ∧
    (∀ a ∈ s.armed, (count = 0 → a.count = 0) ∧
      (count ≠ 0 → 0 < a.count.toNat ∧ a.calls + a.count.toNat = count.toNat)) ∧
    (∀ i, i + 1 < s.shot.client.calls → answer i = .more) ∧
    (∀ y, s.shot.phase = .threw y → y.errno ≠ some etime) ∧
    (∀ r l p, s.shot.phase = .shooting r → r ∈ s.shot.driver.retired →
      (s.shot.driver.request r).handled = l ++ [p] → p.1 = -(ecanceled : ℤ) →
      (∀ i < s.shot.client.calls, answer i = .more) →
      (s.shot.resume (operation answer)).phase = .threw (.code ecanceled)) := by
  have hs := h.kept
  exact ⟨hs.calls_le, hs.calls_eq, hs.fits, fun i hi => hs.tidy.answered.eq_more hi,
    fun y => hs.errno_ne, fun r l p phase _ => hs.threw_of_canceled phase⟩

end Kept

/-- The last CQE of a request, which is a tick. -/
def tickCqe (r : ℕ) : Cqe := { tag := .request r, res := -62, flags := 0 }

/-- A consumer that always returns `true`. -/
def always : ℕ → Multishot.Answer Unit := fun _ => .more

/-- The kernel has ended a shot early with a tick, and `poll` has looked at it. -/
def State.tick (s : State Unit) (r : ℕ) : State Unit :=
  let t := s.shot.post (operation always) (-62, 0)
    { s.shot.driver.write (tickCqe r) with
      running := update s.shot.driver.running r false }
  { s with shot := (t.setDriver (t.driver.peek 1)).handle (operation always) (tickCqe r) [] }

/-- The coroutine is resumed. -/
def State.resume (s : State Unit) : State Unit :=
  { s with shot := s.shot.resume (operation always) }

/-- There were two ticks in two shots. -/
def tickedState : State Unit :=
  ((((({} : State Unit).arm 2 0).tick 0).resume.arm 2 1).tick 1).resume

theorem reachable_tickedState : Reachable 1 2 always tickedState := by
  have h₀ : Relation.ReflTransGen (Step 2 always) {} _ :=
    .single (.arm (r := 0) rfl (.inr (by decide)) rfl (by simp) rfl)
  have h₁ := h₀.tail (.shot (.post (e := tickCqe 0) rfl rfl (.last rfl rfl rfl) trivial) nofun
    (by decide))
  have h₂ := h₁.tail (.shot (.other (.peek 1 rfl) (fun _ => nofun) fun _ _ => rfl) nofun
    (by decide))
  have h₃ : Relation.ReflTransGen (Step 2 always) {} ((({} : State Unit).arm 2 0).tick 0) :=
    h₂.tail (.shot (.handle (e := tickCqe 0) rfl) nofun (by decide))
  have h₄ := h₃.tail (.shot (.resume (r := 0) rfl (by decide)) nofun
    (by decide))
  have h₅ := h₄.tail (.arm (r := 1) rfl (.inr (by decide)) rfl (by decide) rfl)
  have h₆ := h₅.tail (.shot (.post (e := tickCqe 1) rfl rfl (.last rfl rfl rfl) trivial) nofun
    (by decide))
  have h₇ := h₆.tail (.shot (.other (.peek 1 rfl) (fun _ => nofun) fun _ _ => rfl) nofun
    (by decide))
  have h₈ := h₇.tail (.shot (.handle (e := tickCqe 1) rfl) nofun
    (by decide))
  exact ⟨{}, rfl, h₈.tail (.shot (.resume (r := 1) rfl (by decide)) nofun
    (by decide))⟩

/-- The second shot was armed with one tick, and `ticks` has returned after two calls. -/
theorem ticks_honours_count_tickedState : tickedState.Returned 2 ∧
    tickedState.shot.client.calls = 2 ∧ tickedState.armed = [⟨1, 1⟩, ⟨0, 2⟩] := by
  have hreturned : tickedState.Returned 2 := .inr ⟨rfl, by decide⟩
  obtain ⟨-, hcalls, -⟩ := ticks_honours_count 1 2 always reachable_tickedState
  exact ⟨hreturned, hcalls (by decide) hreturned fun _ _ => rfl, rfl⟩

end Snowy.Uring.Ticks
