import Mathlib.Algebra.Order.Group.Nat
import Mathlib.Data.List.Nodup
import Mathlib.Logic.Function.Basic
import Mathlib.Logic.Relation

/-!
# The workers of a pool

The members of `pool` and the functions of `pool.cpp`: a queue of jobs and a flag under one mutex, a
condition variable, and workers that take jobs until the pool is closed and the queue is empty.

A step is a section under the mutex or a notification. The condition variable is the one of the
standard: a worker whose predicate is false releases the mutex and falls asleep in one step, it
wakes up when it is notified or for no reason, and then locks the mutex and looks at the predicate
again. `notify_one` wakes any one of the workers that are asleep. Notifications are made without the
mutex, so there may be any steps between a push and its notification.

## Main definitions

* `Snowy.Pool.Core` : the members of `pool`, its workers, and the thread that closes it.
* `Snowy.Pool.Core.Step` : one step of a worker, of a thread that enqueues a job, or of `close()`.
* `Snowy.Pool.Core.Sound` : the invariant.

## Main results

* `Snowy.Pool.Core.Reachable.sound` : the invariant holds in all runs.
* `Snowy.Pool.Core.Sound.ran_of_returned` : all accepted jobs have run when `close()` returns.
* `Snowy.Pool.Core.Sound.exists_awake` : no wakeup is lost.
-/

namespace Snowy.Pool

open Function List

/-- The place of a worker in `work()`: about to lock the mutex, asleep in `ready_.wait`, running a
job, or at its end. -/
inductive Worker where
  | test
  | asleep
  | running (c : ℕ)
  | exited
  deriving DecidableEq, Repr

/-- The place of the thread that calls `close()`: not there yet, between its mutex section and
`notify_all`, joining the worker `k`, or at its end. -/
inductive Closer where
  | idle
  | notify
  | joining (k : ℕ)
  | returned
  deriving DecidableEq, Repr

/-- The members of `pool`. The calls of `enqueue` in `notifying` have pushed their jobs and have
still to call `notify_one`. The last three fields are histories: the jobs accepted by `enqueue`,
those taken by workers, and those that have run. -/
structure Core where
  jobs : List ℕ := []
  stopping : Bool := false
  worker : ℕ → Worker := fun _ => .test
  notifying : List ℕ := []
  closer : Closer := .idle
  accepted : List ℕ := []
  dequeued : List ℕ := []
  ran : List ℕ := []

namespace Core

variable (n : ℕ) (s : Core)

/-- A worker goes on. -/
def setWorker (w : ℕ) (x : Worker) : Core := { s with worker := Function.update s.worker w x }

/-- The mutex section of `pool::enqueue` when the pool is not closed. -/
def push (c : ℕ) : Core :=
  { s with
    jobs := s.jobs ++ [c]
    notifying := s.notifying ++ [c]
    accepted := s.accepted ++ [c] }

/-- The call of `enqueue` for the job `c` ends. -/
def notified (c : ℕ) : Core := { s with notifying := s.notifying.erase c }

/-- A worker takes the first job. -/
def take (w c : ℕ) (rest : List ℕ) : Core :=
  { s.setWorker w (.running c) with jobs := rest, dequeued := s.dequeued ++ [c] }

/-- The job of a worker returns. -/
def finish (w c : ℕ) : Core := { s.setWorker w .test with ran := s.ran ++ [c] }

/-- The mutex section of `pool::close`. -/
def close : Core := { s with stopping := true, closer := .notify }

/-- `ready_.notify_all()`. -/
def notifyAll : Core :=
  { s with
    worker := fun w => if s.worker w = .asleep then .test else s.worker w
    closer := .joining 0 }

/-- The thread in `close()` goes on. -/
def setCloser (x : Closer) : Core := { s with closer := x }

/-- What can happen. -/
inductive Act where
  | push (c : ℕ)
  | notifyOne (c : ℕ)
  | sleep (w : ℕ)
  | wake (w : ℕ)
  | take (w c : ℕ)
  | finish (w c : ℕ)
  | exit (w : ℕ)
  | close
  | notifyAll
  | join (k : ℕ)
  | closed
  deriving DecidableEq, Repr

/-- What is neither a part of `enqueue` nor the end of a job. -/
def Act.IsOther : Act → Prop
  | .push _ | .notifyOne _ | .finish _ _ => False
  | _ => True

/-- One step of a pool with `n` workers. A job is pushed once. -/
inductive Step : Act → Core → Prop
  | push (c : ℕ) (running : s.stopping = false) (fresh : c ∉ s.accepted) : Step (.push c) (s.push c)
  | notifyOne (c w : ℕ) (notifying : c ∈ s.notifying) (lt : w < n) (asleep : s.worker w = .asleep) :
      Step (.notifyOne c) ((s.notified c).setWorker w .test)
  | notifyNone (c : ℕ) (notifying : c ∈ s.notifying) (none : ∀ w < n, s.worker w ≠ .asleep) :
      Step (.notifyOne c) (s.notified c)
  | sleep (w : ℕ) (lt : w < n) (test : s.worker w = .test) (running : s.stopping = false)
      (empty : s.jobs = []) : Step (.sleep w) (s.setWorker w .asleep)
  | wake (w : ℕ) (lt : w < n) (asleep : s.worker w = .asleep) :
      Step (.wake w) (s.setWorker w .test)
  | take (w c : ℕ) (rest : List ℕ) (lt : w < n) (test : s.worker w = .test)
      (front : s.jobs = c :: rest) : Step (.take w c) (s.take w c rest)
  | finish (w c : ℕ) (running : s.worker w = .running c) : Step (.finish w c) (s.finish w c)
  | exit (w : ℕ) (lt : w < n) (test : s.worker w = .test) (stopping : s.stopping = true)
      (empty : s.jobs = []) : Step (.exit w) (s.setWorker w .exited)
  | close (idle : s.closer = .idle) : Step .close s.close
  | notifyAll (notify : s.closer = .notify) : Step .notifyAll s.notifyAll
  | join (k : ℕ) (joining : s.closer = .joining k) (lt : k < n) (exited : s.worker k = .exited) :
      Step (.join k) (s.setCloser (.joining (k + 1)))
  | closed (joining : s.closer = .joining n) : Step .closed (s.setCloser .returned)

/-- A state of some run of a new pool. -/
def Reachable (s : Core) : Prop := Relation.ReflTransGen (fun s s' => ∃ a, Step n s a s') {} s

variable {n s}

theorem worker_setWorker (w : ℕ) (x : Worker) (i : ℕ) :
    (s.setWorker w x).worker i = if i = w then x else s.worker i :=
  update_apply ..

variable {s' : Core} {a : Act}

theorem Step.accepted_eq (h : Step n s a s') (ha : ∀ c, a ≠ .push c) :
    s'.accepted = s.accepted := by
  cases h with
  | push c => exact absurd rfl (ha c)
  | _ => rfl

theorem Step.dequeued_subset (h : Step n s a s') : s.dequeued ⊆ s'.dequeued := by
  cases h with
  | take w c rest => exact subset_append_left ..
  | _ => exact List.Subset.refl _

theorem Step.stopping (h : Step n s a s') (hs : s.stopping = true) : s'.stopping = true := by
  cases h with
  | close => rfl
  | _ => exact hs

/-! ### The invariant -/

/-- The number of workers that are about to look at the predicate. -/
def awake (n : ℕ) (s : Core) : ℕ := (List.range n).countP fun w => s.worker w = .test

/-- A worker has a job from the queue that has not run, and no other worker has it; a job that was
taken has run or is run by a worker. -/
structure Running (n : ℕ) (s : Core) : Prop where
  mem : ∀ w c, s.worker w = .running c → w < n ∧ c ∈ s.dequeued ∧ c ∉ s.ran
  unique : ∀ w w' c, s.worker w = .running c → s.worker w' = .running c → w = w'
  covered : ∀ c ∈ s.dequeued, c ∈ s.ran ∨ ∃ w < n, s.worker w = .running c
  ran_subset : s.ran ⊆ s.dequeued
  ran_nodup : s.ran.Nodup

/-- What is known of `close()`: where its thread is, and that workers leave only afterwards. -/
structure Closing (n : ℕ) (s : Core) : Prop where
  idle : s.stopping = true ↔ s.closer ≠ .idle
  exited : ∀ w, s.worker w = .exited → s.stopping = true ∧ s.jobs = []
  joined : ∀ k, s.closer = .joining k → ∀ w < k, s.worker w = .exited
  returned : s.closer = .returned → ∀ w < n, s.worker w = .exited
  awake : s.closer ≠ .idle → s.closer ≠ .notify → ∀ w, s.worker w ≠ .asleep

/-- The invariant: jobs are taken in the order in which they are accepted, and while a worker is
asleep there are at least as many workers about to look at the queue, or notifications to come, as
there are jobs in it. -/
structure Sound (n : ℕ) (s : Core) : Prop where
  split : s.accepted = s.dequeued ++ s.jobs
  nodup : s.accepted.Nodup
  running : Running n s
  closing : Closing n s
  woken : (∃ w < n, s.worker w = .asleep) → s.jobs.length ≤ s.awake n + s.notifying.length

/-! ### Workers and their jobs -/

variable {w c : ℕ} {x : Worker}

theorem Running.congr (h : Running n s)
    (hworker : ∀ i c, s'.worker i = .running c ↔ s.worker i = .running c)
    (hdequeued : s'.dequeued = s.dequeued) (hran : s'.ran = s.ran) : Running n s' where
  mem i c hi := by
    rw [hdequeued, hran]
    exact h.mem i c ((hworker i c).mp hi)
  unique i j c hi hj := h.unique i j c ((hworker i c).mp hi) ((hworker j c).mp hj)
  covered c hc := by
    rw [hran]
    refine (h.covered c (hdequeued ▸ hc)).imp_right ?_
    rintro ⟨i, hi, hrunning⟩
    exact ⟨i, hi, (hworker i c).mpr hrunning⟩
  ran_subset := by
    rw [hran, hdequeued]
    exact h.ran_subset
  ran_nodup := hran ▸ h.ran_nodup

/-- A worker without a job does not get one by changing its place. -/
theorem running_setWorker_iff (hw : ∀ c, s.worker w ≠ .running c) (hx : ∀ c, x ≠ .running c)
    (i c : ℕ) : (s.setWorker w x).worker i = .running c ↔ s.worker i = .running c := by
  rw [worker_setWorker]
  split_ifs with h
  · exact iff_of_false (hx c) (h ▸ hw c)
  · exact Iff.rfl

/-- A worker takes a job that no worker has had. -/
theorem Running.take (h : Running n s) (hlt : w < n) (hw : ∀ c, s.worker w ≠ .running c)
    (hc : c ∉ s.dequeued) (rest : List ℕ) : Running n (s.take w c rest) := by
  have hworker : ∀ i d, (s.take w c rest).worker i = .running d →
      i = w ∧ d = c ∨ i ≠ w ∧ s.worker i = .running d := by
    intro i d hi
    change (s.setWorker w (.running c)).worker i = .running d at hi
    rw [worker_setWorker] at hi
    split_ifs at hi with hiw
    · exact .inl ⟨hiw, (Worker.running.inj hi).symm⟩
    · exact .inr ⟨hiw, hi⟩
  -- no other worker has the job that is taken
  have hne : ∀ i, s.worker i ≠ .running c := fun i hi => hc (h.mem i c hi).2.1
  refine ⟨fun i d hi => ?_, fun i j d hi hj => ?_, fun d hd => ?_, fun d hd => ?_, h.ran_nodup⟩
  · rcases hworker i d hi with ⟨rfl, rfl⟩ | ⟨-, hi⟩
    · exact ⟨hlt, mem_append_right _ (mem_singleton_self _),
        fun hran => hc (h.ran_subset hran)⟩
    · obtain ⟨hin, hmem, hran⟩ := h.mem i d hi
      exact ⟨hin, mem_append_left _ hmem, hran⟩
  · rcases hworker i d hi with ⟨hiw, hd⟩ | ⟨-, hi'⟩
    · rcases hworker j d hj with ⟨hjw, -⟩ | ⟨-, hj'⟩
      · exact hiw.trans hjw.symm
      · exact absurd (hd ▸ hj') (hne j)
    · rcases hworker j d hj with ⟨-, hd⟩ | ⟨-, hj'⟩
      · exact absurd (hd ▸ hi') (hne i)
      · exact h.unique i j d hi' hj'
  · rcases mem_append.mp hd with hd | hd
    · refine (h.covered d hd).imp_right ?_
      rintro ⟨i, hi, hrunning⟩
      have hiw : i ≠ w := by
        rintro rfl
        exact hw d hrunning
      refine ⟨i, hi, ?_⟩
      change (s.setWorker w (.running c)).worker i = _
      rw [worker_setWorker, if_neg hiw, hrunning]
    · refine .inr ⟨w, hlt, ?_⟩
      change (s.setWorker w (.running c)).worker w = _
      rw [worker_setWorker, if_pos rfl, mem_singleton.mp hd]
  · exact mem_append_left _ (h.ran_subset hd)

/-- The job of a worker returns. -/
theorem Running.finish (h : Running n s) (hw : s.worker w = .running c) :
    Running n (s.finish w c) := by
  have hworker : ∀ i d, (s.finish w c).worker i = .running d ↔
      i ≠ w ∧ s.worker i = .running d := by
    intro i d
    change (s.setWorker w .test).worker i = .running d ↔ _
    rw [worker_setWorker]
    split_ifs with hiw
    · exact iff_of_false nofun fun hi => hi.1 hiw
    · exact ⟨fun hi => ⟨hiw, hi⟩, And.right⟩
  obtain ⟨hlt, hmem, hran⟩ := h.mem w c hw
  refine ⟨fun i d hi => ?_, fun i j d hi hj => ?_, fun d hd => ?_, fun d hd => ?_, ?_⟩
  · obtain ⟨hne, hi⟩ := (hworker i d).mp hi
    obtain ⟨hin, hd, hrand⟩ := h.mem i d hi
    refine ⟨hin, hd, fun hd' => ?_⟩
    rcases mem_append.mp hd' with hd' | hd'
    · exact hrand hd'
    · exact hne (h.unique i w c (mem_singleton.mp hd' ▸ hi) hw)
  · exact h.unique i j d ((hworker i d).mp hi).2 ((hworker j d).mp hj).2
  · rcases h.covered d hd with hd | ⟨i, hi, hrunning⟩
    · exact .inl (mem_append_left _ hd)
    · by_cases hiw : i = w
      · cases hw.symm.trans (hiw ▸ hrunning)
        exact .inl (mem_append_right _ (mem_singleton_self _))
      · exact .inr ⟨i, hi, (hworker i d).mpr ⟨hiw, hrunning⟩⟩
  · rcases mem_append.mp hd with hd | hd
    · exact h.ran_subset hd
    · exact mem_singleton.mp hd ▸ hmem
  · exact h.ran_nodup.append (nodup_singleton c) (disjoint_singleton.mpr hran)

/-! ### Counting the workers that are awake -/

/-- A count over a list without repetitions, when the predicate changes for one element. -/
theorem countP_of_forall_ne {l : List ℕ} {p q : ℕ → Bool} (hl : l.Nodup) (hw : w ∈ l)
    (h : ∀ i, i ≠ w → q i = p i) :
    l.countP q + (if p w then 1 else 0) = l.countP p + (if q w then 1 else 0) := by
  have hperm := perm_cons_erase hw
  have herase : (l.erase w).countP q = (l.erase w).countP p := countP_congr fun i hi => by
    rw [h i (hl.mem_erase_iff.mp hi).1]
  rw [hperm.countP_eq q, hperm.countP_eq p, countP_cons, countP_cons, herase]
  omega

theorem awake_setWorker (hlt : w < n) (x : Worker) :
    (s.setWorker w x).awake n + (if s.worker w = .test then 1 else 0) =
      s.awake n + (if x = .test then 1 else 0) := by
  have h := countP_of_forall_ne (w := w) (p := fun i => s.worker i = .test)
    (q := fun i => (s.setWorker w x).worker i = .test) nodup_range (mem_range.mpr hlt)
    fun i hi => by rw [worker_setWorker, if_neg hi]
  simpa [awake, worker_setWorker] using h

theorem asleep_of_setWorker {i : ℕ} (hx : x ≠ .asleep)
    (h : (s.setWorker w x).worker i = .asleep) : s.worker i = .asleep := by
  rw [worker_setWorker] at h
  split_ifs at h
  · exact absurd h hx
  · exact h

/-- A worker that is about to look at the predicate does no harm to the others. -/
theorem Sound.woken_setWorker (h : Sound n s) (hlt : w < n)
    (hasleep : ∃ i < n, (s.setWorker w .test).worker i = .asleep) :
    s.jobs.length ≤ (s.setWorker w .test).awake n + s.notifying.length := by
  obtain ⟨i, hi, hasleep⟩ := hasleep
  have hle := h.woken ⟨i, hi, asleep_of_setWorker (x := .test) nofun hasleep⟩
  have hcount := awake_setWorker (s := s) hlt .test
  rw [if_pos rfl] at hcount
  split_ifs at hcount <;> omega

/-! ### The steps keep the invariant -/

theorem Closing.setWorker (h : Closing n s) (hexited : s.worker w ≠ .exited) (hx : x ≠ .exited)
    (hasleep : x = .asleep → s.stopping = false) : Closing n (s.setWorker w x) := by
  have hkeep : ∀ i, s.worker i = .exited → (s.setWorker w x).worker i = .exited := fun i hi => by
    have hiw : i ≠ w := by
      rintro rfl
      exact hexited hi
    rw [worker_setWorker, if_neg hiw, hi]
  refine ⟨h.idle, fun i hi => ?_, fun k hk i hi => hkeep i (h.joined k hk i hi),
    fun hr i hi => hkeep i (h.returned hr i hi), fun hidle hnotify i => ?_⟩
  · rw [worker_setWorker] at hi
    split_ifs at hi
    · exact absurd hi hx
    · exact h.exited i hi
  · rw [worker_setWorker]
    split_ifs
    · exact fun hi => Bool.false_ne_true ((hasleep hi).symm.trans (h.idle.mpr hidle))
    · exact h.awake hidle hnotify i

/-- A worker changes its place in `ready_.wait`. -/
theorem Sound.setWorker (h : Sound n s) (hlt : w < n) (hw : s.worker w = .test ∨
    s.worker w = .asleep) (hx : x = .test ∨ x = .asleep ∧ s.stopping = false ∧ s.jobs = []) :
    Sound n (s.setWorker w x) := by
  have hrunning : ∀ c, s.worker w ≠ .running c := fun c hc => by
    rcases hw with hw | hw <;> cases hw.symm.trans hc
  have hexited : s.worker w ≠ .exited := fun hc => by
    rcases hw with hw | hw <;> cases hw.symm.trans hc
  refine ⟨h.split, h.nodup, h.running.congr (running_setWorker_iff hrunning ?_) rfl rfl,
    h.closing.setWorker hexited ?_ ?_, ?_⟩
  · rintro c rfl
    rcases hx with hx | hx
    · cases hx
    · cases hx.1
  · rintro rfl
    rcases hx with hx | hx
    · cases hx
    · cases hx.1
  · rintro rfl
    rcases hx with hx | hx
    · cases hx
    · exact hx.2.1
  · intro hasleep
    rcases hx with rfl | ⟨rfl, -, hjobs⟩
    · exact h.woken_setWorker hlt hasleep
    · change s.jobs.length ≤ _
      rw [hjobs]
      exact Nat.zero_le _

theorem Sound.push (h : Sound n s) (hrunning : s.stopping = false) (hc : c ∉ s.accepted) :
    Sound n (s.push c) where
  split := by
    change s.accepted ++ [c] = s.dequeued ++ (s.jobs ++ [c])
    rw [h.split, append_assoc]
  nodup := h.nodup.append (nodup_singleton c) (disjoint_singleton.mpr hc)
  running := h.running.congr (fun _ _ => Iff.rfl) rfl rfl
  closing :=
    { h.closing with
      exited := fun i hi =>
        absurd ((h.closing.exited i hi).1) (by rw [hrunning]; exact Bool.false_ne_true) }
  woken hi := by
    have hle := h.woken hi
    change (s.jobs ++ [c]).length ≤ s.awake n + (s.notifying ++ [c]).length
    rw [length_append, length_append]
    exact Nat.add_le_add_right hle 1

theorem Sound.take (h : Sound n s) (hlt : w < n) (hw : s.worker w = .test) {rest : List ℕ}
    (hfront : s.jobs = c :: rest) : Sound n (s.take w c rest) := by
  have hsplit : s.accepted = s.dequeued ++ c :: rest := hfront ▸ h.split
  have hdisjoint := disjoint_of_nodup_append (hsplit ▸ h.nodup)
  have hc : c ∉ s.dequeued := fun hc => hdisjoint hc mem_cons_self
  have hrunning : ∀ d, s.worker w ≠ .running d := fun d hd => by cases hw.symm.trans hd
  have hexited : s.worker w ≠ .exited := fun hd => by cases hw.symm.trans hd
  have hclosing := h.closing.setWorker (x := .running c) hexited nofun nofun
  -- a worker leaves only when the queue is empty
  have hnone : ∀ i, s.worker i ≠ .exited := fun i hi => by
    rw [(h.closing.exited i hi).2] at hfront
    cases hfront
  refine ⟨?_, h.nodup, h.running.take hlt hrunning hc rest, { hclosing with exited := ?_ }, ?_⟩
  · change s.accepted = s.dequeued ++ [c] ++ rest
    rw [hsplit, append_assoc]
    rfl
  · intro i hi
    change (s.setWorker w (.running c)).worker i = .exited at hi
    rw [worker_setWorker] at hi
    split_ifs at hi
    exact absurd hi (hnone i)
  · rintro ⟨i, hi, hasleep⟩
    have hcount := awake_setWorker (s := s) hlt (.running c)
    have hle := h.woken ⟨i, hi, asleep_of_setWorker (x := .running c) nofun hasleep⟩
    rw [hfront, length_cons] at hle
    rw [if_pos hw, if_neg nofun] at hcount
    change rest.length ≤ (s.setWorker w (.running c)).awake n + s.notifying.length
    omega

theorem Sound.finish (h : Sound n s) (hw : s.worker w = .running c) : Sound n (s.finish w c) := by
  have hlt := (h.running.mem w c hw).1
  have hexited : s.worker w ≠ .exited := fun hd => by cases hw.symm.trans hd
  have hclosing := h.closing.setWorker (x := .test) hexited nofun nofun
  exact ⟨h.split, h.nodup, h.running.finish hw,
    ⟨hclosing.idle, hclosing.exited, hclosing.joined, hclosing.returned, hclosing.awake⟩,
    h.woken_setWorker hlt⟩

theorem Sound.exit (h : Sound n s) (hw : s.worker w = .test) (hstopping : s.stopping = true)
    (hempty : s.jobs = []) : Sound n (s.setWorker w .exited) := by
  have hrunning : ∀ c, s.worker w ≠ .running c := fun c hc => by cases hw.symm.trans hc
  have hkeep : ∀ i, s.worker i = .exited → (s.setWorker w .exited).worker i = .exited :=
    fun i hi => by
      rw [worker_setWorker]
      split_ifs
      · rfl
      · exact hi
  refine ⟨h.split, h.nodup, h.running.congr (running_setWorker_iff hrunning nofun) rfl rfl,
    ⟨h.closing.idle, fun _ _ => ⟨hstopping, hempty⟩,
      fun k hk i hi => hkeep i (h.closing.joined k hk i hi),
      fun hr i hi => hkeep i (h.closing.returned hr i hi), fun hidle hnotify i => ?_⟩, ?_⟩
  · rw [worker_setWorker]
    split_ifs
    · exact nofun
    · exact h.closing.awake hidle hnotify i
  · intro _
    change s.jobs.length ≤ _
    rw [hempty]
    exact Nat.zero_le _

theorem Sound.notifyAll (h : Sound n s) (hnotify : s.closer = .notify) : Sound n s.notifyAll := by
  have hworker : ∀ i, s.notifyAll.worker i = if s.worker i = .asleep then .test else s.worker i :=
    fun i => rfl
  have hnone : ∀ i, s.notifyAll.worker i ≠ .asleep := fun i => by
    rw [hworker]
    split_ifs with hi
    · exact nofun
    · exact hi
  have hsame : ∀ i x, x ≠ .test → x ≠ .asleep → (s.notifyAll.worker i = x ↔ s.worker i = x) := by
    intro i x hx hx'
    rw [hworker]
    split_ifs with hi
    · exact iff_of_false hx.symm fun h => hx' (h ▸ hi)
    · exact Iff.rfl
  refine ⟨h.split, h.nodup, h.running.congr (fun i c => hsame i _ nofun nofun) rfl rfl,
    ⟨?_, fun i hi => ?_, fun k hk i hi => ?_, nofun, fun _ _ => hnone⟩, ?_⟩
  · refine iff_of_true (h.closing.idle.mpr ?_) nofun
    rw [hnotify]
    exact nofun
  · exact h.closing.exited i ((hsame i .exited nofun nofun).mp hi)
  · cases hk
    exact absurd hi (Nat.not_lt_zero i)
  · rintro ⟨i, -, hi⟩
    exact absurd hi (hnone i)

/-- Every step keeps the invariant. -/
theorem Sound.step (h : Sound n s) (hstep : Step n s a s') : Sound n s' := by
  cases hstep with
  | push c running fresh => exact h.push running fresh
  | notifyOne c w notifying lt asleep =>
    have hs := h.setWorker lt (.inr asleep) (.inl rfl)
    refine ⟨hs.split, hs.nodup, hs.running.congr (fun _ _ => Iff.rfl) rfl rfl,
      ⟨hs.closing.idle, hs.closing.exited, hs.closing.joined, hs.closing.returned,
        hs.closing.awake⟩, ?_⟩
    -- the worker that wakes up makes up for the notification
    intro _
    have hle := h.woken ⟨w, lt, asleep⟩
    have hcount := awake_setWorker (s := s) lt .test
    have herase := length_erase_add_one notifying
    rw [if_neg (by rw [asleep]; exact nofun), if_pos rfl] at hcount
    change s.jobs.length ≤ (s.setWorker w .test).awake n + (s.notifying.erase c).length
    omega
  | notifyNone c notifying none =>
    refine ⟨h.split, h.nodup, h.running.congr (fun _ _ => Iff.rfl) rfl rfl,
      ⟨h.closing.idle, h.closing.exited, h.closing.joined, h.closing.returned, h.closing.awake⟩, ?_⟩
    rintro ⟨i, hi, hasleep⟩
    exact absurd hasleep (none i hi)
  | sleep w lt test running empty => exact h.setWorker lt (.inl test) (.inr ⟨rfl, running, empty⟩)
  | wake w lt asleep => exact h.setWorker lt (.inr asleep) (.inl rfl)
  | take w c rest lt test front => exact h.take lt test front
  | finish w c running => exact h.finish running
  | exit w lt test stopping empty => exact h.exit test stopping empty
  | close idle =>
    refine ⟨h.split, h.nodup, h.running.congr (fun _ _ => Iff.rfl) rfl rfl,
      ⟨iff_of_true rfl nofun, fun i hi => ⟨rfl, (h.closing.exited i hi).2⟩, nofun, nofun,
        fun _ hne => absurd rfl hne⟩, h.woken⟩
  | notifyAll notify => exact h.notifyAll notify
  | join k joining lt exited =>
    have hne : s.closer ≠ .idle := by rw [joining]; exact nofun
    have hnone := h.closing.awake hne (by rw [joining]; exact nofun)
    refine ⟨h.split, h.nodup, h.running.congr (fun _ _ => Iff.rfl) rfl rfl,
      ⟨iff_of_true (h.closing.idle.mpr hne) nofun, h.closing.exited, fun k' hk i hi => ?_, nofun,
        fun _ _ => hnone⟩, h.woken⟩
    cases hk
    rcases Nat.lt_succ_iff_lt_or_eq.mp hi with hi | rfl
    · exact h.closing.joined k joining i hi
    · exact exited
  | closed joining =>
    have hne : s.closer ≠ .idle := by rw [joining]; exact nofun
    have hnone := h.closing.awake hne (by rw [joining]; exact nofun)
    exact ⟨h.split, h.nodup, h.running.congr (fun _ _ => Iff.rfl) rfl rfl,
      ⟨iff_of_true (h.closing.idle.mpr hne) nofun, h.closing.exited, nofun,
        fun _ => h.closing.joined n joining, fun _ _ => hnone⟩, h.woken⟩

theorem sound_empty (n : ℕ) : Sound n {} where
  split := rfl
  nodup := nodup_nil
  running := ⟨nofun, nofun, nofun, List.Subset.refl _, nodup_nil⟩
  closing := ⟨iff_of_false nofun fun h => h rfl, nofun, nofun, nofun, nofun⟩
  woken _ := Nat.zero_le _

theorem Reachable.sound (h : Reachable n s) : Sound n s := by
  induction h with
  | refl => exact sound_empty n
  | tail _ hstep ih =>
    obtain ⟨a, hstep⟩ := hstep
    exact ih.step hstep

/-! ### Results -/

/-- **Draining.** When `close()` has returned, all accepted jobs have run. -/
theorem Sound.ran_of_returned (h : Sound n s) (hn : 0 < n) (hreturned : s.closer = .returned) :
    s.jobs = [] ∧ ∀ c ∈ s.accepted, c ∈ s.ran := by
  have hexited := h.closing.returned hreturned
  have hjobs := (h.closing.exited 0 (hexited 0 hn)).2
  refine ⟨hjobs, fun c hc => ?_⟩
  rw [h.split, hjobs, append_nil] at hc
  refine (h.running.covered c hc).resolve_right ?_
  rintro ⟨w, hw, hrunning⟩
  cases (hexited w hw).symm.trans hrunning

/-- **No lost wakeup.** While a job is in the queue, some worker is about to look at the queue or
runs another job, or a notification is still to come. -/
theorem Sound.exists_awake (h : Sound n s) (hn : 0 < n) (hjobs : s.jobs ≠ []) :
    (∃ w < n, s.worker w = .test ∨ ∃ c, s.worker w = .running c) ∨ s.notifying ≠ [] := by
  have hpos := length_pos_iff.mpr hjobs
  have hnone : ∀ i, s.worker i ≠ .exited := fun i hi => hjobs (h.closing.exited i hi).2
  by_cases hasleep : ∃ w < n, s.worker w = .asleep
  · have hle := h.woken hasleep
    by_cases hnotifying : s.notifying = []
    · have hcount : 0 < s.awake n := by
        rw [hnotifying, length_nil] at hle
        omega
      obtain ⟨w, hw, htest⟩ := countP_pos_iff.mp hcount
      exact .inl ⟨w, mem_range.mp hw, .inl (of_decide_eq_true htest)⟩
    · exact .inr hnotifying
  · refine .inl ⟨0, hn, ?_⟩
    cases hw : s.worker 0 with
    | test => exact .inl rfl
    | asleep => exact absurd ⟨0, hn, hw⟩ hasleep
    | running c => exact .inr ⟨c, rfl⟩
    | exited => exact absurd hw (hnone 0)

/-- After the notification of `close()` no worker is asleep, so the join does not wait for one. -/
theorem Sound.not_asleep_of_joining (h : Sound n s) {k : ℕ} (hjoining : s.closer = .joining k)
    (w : ℕ) : s.worker w ≠ .asleep :=
  h.closing.awake (by rw [hjoining]; exact nofun) (by rw [hjoining]; exact nofun) w

end Core

end Snowy.Pool
