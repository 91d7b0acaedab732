import Snowy.Owner.Timers

/-!
# How long `run()` waits

Time points and durations are signed numbers of nanoseconds with 64 bits. `sleep` computes a
deadline from a duration, saturating at the largest time point, and `run()` computes the time until
the earliest deadline from `timers_.front()` and the clock. The deadlines of `sleep_until` are
chosen by the caller, so the second difference may overflow: a coroutine that `run()` resumes after
`expire()` may wait for a time point in the distant past.

## Main definitions

* `Snowy.World.sleepDeadline` : the deadline that `sleep` computes.
* `Snowy.World.pollDelay` : the argument of `poll` in `run()`.
* `Snowy.World.Clocked` : the states of runs with a steady clock that is never negative.

## Main results

* `Snowy.World.exists_delay_overflow` : a run in which the delay overflows.
* `Snowy.World.poll_delay_exact` : the delay is exact wherever the difference can be represented.
-/

namespace Snowy.World

open List

variable {α : Type*} {H : HeapRange ℕ ℤ} {w w' : World α} {now now' : ℤ} {capacity : ℕ → ℕ}

/-- `clock::time_point::max()`. -/
def timeMax : ℤ := 2 ^ 63 - 1

/-- `clock::time_point::min()`. -/
def timeMin : ℤ := -2 ^ 63

/-- The deadline of `loop::sleep`, without a value if the computation overflows. -/
def sleepDeadline (now delay : ℤ) : Option ℤ := do
  let room ← Signed.sub 64 timeMax now
  if delay ≤ 0 then some now
  else if room ≤ delay then some timeMax
  else Signed.add 64 now delay

/-- The argument of `poll` in `loop::run`, without a value if the computation overflows. -/
def pollDelay (w : World α) (posted : Bool) (now : ℤ) : Option ℤ :=
  w.loop.pollDelay w.due posted now

/-- The deadline of an await at the time `now` comes from `sleep`, or from `sleep_until` and is any
time point. -/
def Call.Deadline (now : ℤ) : Call α → Prop
  | .sleep due _ _ => Signed.Fits 64 due ∨
      ∃ delay, Signed.Fits 64 delay ∧ sleepDeadline now delay = some due
  | _ => True

/-- The states of runs, with the time. The clock is steady and never negative. -/
inductive Clocked (H : HeapRange ℕ ℤ) (capacity : ℕ → ℕ) : ℤ → World α → Prop
  | init {now : ℤ} (nonneg : 0 ≤ now) (fits : Signed.Fits 64 now) :
      Clocked H capacity now (.init capacity)
  | step {now now' : ℤ} {w : World α} (l : Call α) (sched : List (List Async))
      (h : Clocked H capacity now w) (le : now ≤ now') (fits : Signed.Fits 64 now')
      (reading : ∀ n ∈ l.reading, n = now') (deadline : l.Deadline now') :
      Clocked H capacity now' (w.step H (l, sched))

/-! ### The deadline of `sleep` -/

/-- The range of time points. -/
theorem fits_iff {x : ℤ} : Signed.Fits 64 x ↔ timeMin ≤ x ∧ x ≤ timeMax := by
  show -2 ^ 63 ≤ x ∧ x < 2 ^ 63 ↔ -2 ^ 63 ≤ x ∧ x ≤ 2 ^ 63 - 1
  omega

theorem timeMin_lt_zero : timeMin < 0 := by decide

theorem zero_lt_timeMax : 0 < timeMax := by decide

/-- `sleep` saturates and does not overflow. -/
theorem sleepDeadline_eq (hnow : 0 ≤ now) (hfits : Signed.Fits 64 now) (delay : ℤ) :
    sleepDeadline now delay = some (if delay ≤ 0 then now else min (now + delay) timeMax) := by
  have hmin := timeMin_lt_zero
  obtain ⟨-, hle⟩ := fits_iff.mp hfits
  have hroom : Signed.sub 64 timeMax now = some (timeMax - now) :=
    Signed.sub_eq_some (fits_iff.mpr (by omega))
  rw [sleepDeadline, hroom]
  change (if delay ≤ 0 then some now
    else if timeMax - now ≤ delay then some timeMax else Signed.add 64 now delay) = _
  split_ifs with hdelay hroom
  · rfl
  · rw [min_eq_right (by omega)]
  · rw [min_eq_left (by omega)]
    exact Signed.add_eq_some (fits_iff.mpr (by omega))

/-- So its deadline is a time point, and not negative. -/
theorem fits_of_sleepDeadline (hnow : 0 ≤ now) (hfits : Signed.Fits 64 now) {delay due : ℤ}
    (h : sleepDeadline now delay = some due) : Signed.Fits 64 due := by
  have hmin := timeMin_lt_zero
  have hmax := zero_lt_timeMax
  obtain ⟨-, hle⟩ := fits_iff.mp hfits
  rw [sleepDeadline_eq hnow hfits] at h
  have heq := Option.some.inj h
  refine fits_iff.mpr ?_
  split_ifs at heq <;> omega

/-! ### The deadlines of pending timers -/

theorem Clocked.nonneg (h : Clocked H capacity now w) : 0 ≤ now := by
  induction h with
  | init nonneg _ => exact nonneg
  | step _ _ _ le _ _ _ ih => exact ih.trans le

theorem Clocked.regular (h : Clocked H capacity now w) : Regular .univ w w := by
  have hr : Regular .univ (.init capacity) w := by
    induction h with
    | init => exact regular_init capacity
    | step l sched _ _ _ _ _ ih => exact (ih.interfere sched).call l fun _ _ => trivial
  exact ⟨hr.sound.rebase, hr.heap⟩

/-- A timer that is pending after a call was pending before, or the call has armed it. -/
theorem mem_timers_of_call (hr : Regular .univ w w) (l : Call α) {id : ℕ}
    (hid : id ∈ (w.call H l).loop.timers) :
    id ∈ w.loop.timers ∧ (w.call H l).due id = w.due id ∨
      ∃ due token fault, l = .sleep due token fault ∧ (w.call H l).due id = due := by
  have hr' : Regular .univ w (w.call H l) := hr.call l fun _ _ => trivial
  have hkey : ∀ i ∈ w.loop.timers, (w.call H l).due i = w.due i := fun i hi =>
    hr'.sound.due_eq (hr.sound.lt_next (hr.sound.timer i hi).2)
  cases htimed : l.timed with
  | false =>
    have hs := hr.sound_call (H := H) l (fun _ _ => trivial) htimed
    have hmem : id ∈ w.loop.timers := hs.store ▸ hid
    exact .inl ⟨hmem, hkey id hmem⟩
  | true =>
    cases l with
    | sleep due token fault =>
      obtain ⟨T, hs, -, -, hnew⟩ := hr.sound.sleep (H := H) hr.heap due token fault
      rcases hnew id (hs.store ▸ hid) with hmem | hdue
      · exact .inl ⟨hmem, hkey id hmem⟩
      · exact .inr ⟨due, token, fault, rfl, hdue⟩
    | expire n =>
      obtain ⟨gone, due, h⟩ := expires_expire (H := H) hr.queued hr.heap n
      have hmem := h.perm.subset (mem_append_right _ hid)
      exact .inl ⟨hmem, hkey id hmem⟩
    | _ => cases htimed

/-- The deadline of every pending timer is a time point. -/
theorem Clocked.fits (h : Clocked H capacity now w) :
    ∀ id ∈ w.loop.timers, Signed.Fits 64 (w.due id) := by
  induction h with
  | init => exact fun id hid => absurd hid not_mem_nil
  | @step now now' w l sched h le fits reading deadline ih =>
    intro id hid
    have hr := h.regular.interfere sched
    have hquiet : Quiet .univ w (World.interfere { w with sched }) :=
      Quiet.trans {} (.interfere _)
    rcases mem_timers_of_call ⟨hr.sound.rebase, hr.heap⟩ l hid with
      ⟨hmem, hkey⟩ | ⟨due, token, fault, rfl, hdue⟩
    · have hold := ih id (hquiet.timers ▸ hmem)
      rw [← show (World.interfere { w with sched }).due id = w.due id from (hquiet.op id).due,
        ← hkey] at hold
      exact hold
    · change Signed.Fits 64 ((call H _ (.sleep due token fault)).due id)
      rw [hdue]
      rcases deadline with hfits | ⟨delay, -, hdeadline⟩
      · exact hfits
      · exact fits_of_sleepDeadline (h.nonneg.trans le) fits hdeadline

/-! ### The delay -/

theorem pollDelay_nil (hready : w.loop.ready = []) (htimers : w.loop.timers = []) :
    w.pollDelay false now = some (-1) := by
  rw [pollDelay, LoopState.pollDelay, htimers, if_neg (by simp [hready])]

theorem pollDelay_cons {id : ℕ} {rest : List ℕ} (hready : w.loop.ready = [])
    (htimers : w.loop.timers = id :: rest) :
    w.pollDelay false now = (Signed.sub 64 (w.due id) now).map (max 0) := by
  rw [pollDelay, LoopState.pollDelay, htimers, if_neg (by simp [hready])]

/-- The difference overflows only below the range: the clock is not negative. -/
theorem Clocked.pollDelay_eq_none_iff (hw : Clocked H capacity now w) (hready : w.loop.ready = [])
    (hle : now ≤ now') :
    w.pollDelay false now' = none ↔ ∃ id ∈ w.loop.timers, w.due id - now' < -2 ^ 63 := by
  cases htimers : w.loop.timers with
  | nil =>
    rw [pollDelay_nil hready htimers]
    exact iff_of_false nofun fun ⟨_, hid, _⟩ => nomatch hid
  | cons id rest =>
    have hheap := hw.regular.heap
    rw [htimers] at hheap
    rw [pollDelay_cons hready htimers, Option.map_eq_none_iff, Signed.sub_eq_none_iff]
    constructor
    · intro hfits
      refine ⟨id, mem_cons_self, lt_of_not_ge fun hge => hfits ?_⟩
      exact Signed.fits_sub (hw.fits id (htimers ▸ mem_cons_self)) (hw.nonneg.trans hle) hge
    · rintro ⟨i, hi, hlt⟩ hfits
      have hge : -2 ^ 63 ≤ w.due id - now' := hfits.1
      have hfront := hheap.front_le hi
      omega

/-- A coroutine is resumed after `expire()` and waits for the smallest time point. -/
def pastState : World ℕ :=
  run .sorting (init fun _ => 1)
    [(.yield, []), (.expire 1, []), (.resume, []), (.sleep timeMin none false, [])]

theorem clocked_pastState : Clocked .sorting (fun _ => 1) 1 pastState := by
  have hinit : Clocked .sorting (fun _ => 1) 1 (init fun _ => 1 : World ℕ) :=
    .init (by decide) (by decide)
  have hyield := hinit.step .yield [] (Int.le_refl 1) (by decide) nofun trivial
  have hexpire := hyield.step (.expire 1) [] (Int.le_refl 1) (by decide)
    (fun n hn => (Option.some.inj hn).symm) trivial
  have hresume := hexpire.step .resume [] (Int.le_refl 1) (by decide) nofun trivial
  exact hresume.step (.sleep timeMin none false) [] (Int.le_refl 1) (by decide) nofun
    (.inl (by decide))

/-- **The delay can overflow.** A coroutine that `run()` resumes after `expire()`, at the time 1,
calls `sleep_until` with the smallest time point. No other work is ready, and the difference of the
earliest deadline and the clock cannot be represented. -/
theorem exists_delay_overflow : Clocked .sorting (fun _ => 1) 1 pastState ∧
    pastState.loop.ready = [] ∧ pastState.pollDelay false 1 = none := by
  refine ⟨clocked_pastState, by decide, by decide⟩

/-- **The delay of `run()`.** The deadline that `sleep` computes is exact, up to saturation at the
largest time point, and its computation does not overflow. In every run with deadlines over the
whole range of time points, for every later reading of the clock at which no work is ready: the
computation of the delay overflows if and only if some pending timer is due more than `2 ^ 63`
nanoseconds before the reading. Otherwise the delay is the time until the earliest pending deadline,
or zero if that has passed, so that `run()` does not wait beyond any pending deadline. -/
theorem poll_delay_exact :
    (∀ now delay, 0 ≤ now → Signed.Fits 64 now → Signed.Fits 64 delay →
      sleepDeadline now delay = some (if delay ≤ 0 then now else min (now + delay) timeMax)) ∧
    ∀ now (w : World α), Clocked H capacity now w → w.loop.ready = [] →
      ∀ now', now ≤ now' → Signed.Fits 64 now' →
      (w.pollDelay false now' = none ↔ ∃ id ∈ w.loop.timers, w.due id - now' < -2 ^ 63) ∧
      ((∀ id ∈ w.loop.timers, -2 ^ 63 ≤ w.due id - now') →
        w.loop.timers = [] ∧ w.pollDelay false now' = some (-1) ∨
        ∃ id ∈ w.loop.timers, (∀ i ∈ w.loop.timers, w.due id ≤ w.due i) ∧
          w.pollDelay false now' = some (max 0 (w.due id - now')) ∧
          ∀ i ∈ w.loop.timers, now' + max 0 (w.due id - now') ≤ max now' (w.due i)) := by
  refine ⟨fun now delay hnow hfits _ => sleepDeadline_eq hnow hfits delay, ?_⟩
  intro now w hw hready now' hle _
  refine ⟨hw.pollDelay_eq_none_iff hready hle, fun hrepresentable => ?_⟩
  cases htimers : w.loop.timers with
  | nil => exact .inl ⟨rfl, pollDelay_nil hready htimers⟩
  | cons id rest =>
    have hmem : id ∈ w.loop.timers := htimers ▸ mem_cons_self
    have hheap := hw.regular.heap
    rw [htimers] at hheap
    have hfits : Signed.Fits 64 (w.due id - now') :=
      Signed.fits_sub (hw.fits id hmem) (hw.nonneg.trans hle) (hrepresentable id hmem)
    refine .inr ⟨id, mem_cons_self, fun i hi => hheap.front_le hi, ?_, fun i hi => ?_⟩
    · rw [pollDelay_cons hready htimers, Signed.sub_eq_some hfits, Option.map_some]
    have hfront := hheap.front_le hi
    omega

/-- A timer that is due at the time 9. -/
theorem poll_delay_exact_sleepingState : sleepingState.loop.timers = [1, 0] ∧
    sleepingState.pollDelay false 3 = some 2 := by
  have hinit : Clocked .sorting (fun _ => 1) 0 (init fun _ => 1 : World ℕ) :=
    .init (by decide) (by decide)
  have hfirst := hinit.step (.sleep 9 none false) [] (Int.le_refl 0) (by decide) nofun
    (.inl (by decide))
  have hsecond : Clocked .sorting (fun _ => 1) 0 sleepingState :=
    hfirst.step (.sleep 5 none false) [] (Int.le_refl 0) (by decide) nofun (.inl (by decide))
  have htimers : sleepingState.loop.timers = [1, 0] := by decide
  refine ⟨htimers, ?_⟩
  rcases (poll_delay_exact.2 0 sleepingState hsecond (by decide) 3 (by decide) (by decide)).2
    (by decide) with ⟨h, -⟩ | ⟨id, hid, hle, h, -⟩
  · exact absurd (htimers.symm.trans h) (by decide)
  · have hone : sleepingState.due id ≤ 5 := hle 1 (by decide)
    rw [htimers] at hid
    rcases mem_cons.mp hid with rfl | hid
    · exact h
    · obtain rfl := mem_singleton.mp hid
      exact absurd hone (by decide)

end Snowy.World
