import Snowy.Lib.CallStack
import Snowy.Coroutine.Ownership

/-!
# Awaiting a task is calling it

Symmetric transfer enters a child without a call on the stack of the thread, and leaves it without a
return. What it amounts to is nevertheless a call: the coroutines that are in progress form stacks,
one for each detached coroutine, on which `co_await` puts the child above the awaiting coroutine and
the final suspension takes it off. Only the uppermost coroutine of a stack runs or waits for a loop.
The result of a child goes to the coroutine below it, once.

## Main definitions

* `Snowy.Coroutine.State.callStacks` : the call stacks.
* `Snowy.Coroutine.State.event` : what a step means for them.
* `Snowy.Coroutine.Told` : what has been handed to the awaiting coroutines.

## Main results

* `Snowy.Coroutine.co_await_is_a_call` : every step is a step of the call stacks.
* `Snowy.Coroutine.result_handed_out_once` : what an await yields.
-/

namespace Snowy.Coroutine

open List

open CallStack (Event)

variable {α ε : Type*} {s s' : State α ε}

/-- The links of a coroutine that is in progress: its continuation, and the child that it awaits. -/
def Frame.record (q : Frame α ε) : Option (CallStack.Record ℕ) :=
  match q.point with
  | .awaiting c => some { caller := q.promise.continuation, callee := some c }
  | .running | .suspended | .resumed _ => some { caller := q.promise.continuation, callee := none }
  | .absent | .initial | .final | .destroyed => none

namespace State

variable (s)

/-- The links of all coroutines. -/
def records (f : ℕ) : Option (CallStack.Record ℕ) := (s.frames f).record

/-- The call stacks of the coroutines that are in progress. -/
def callStacks : Set (List ℕ) := CallStack.stacksOf s.records

/-- What a step means for the call stacks. -/
def event : Act α ε → Event ℕ
  | .detach _ => .spawn s.frameCount
  | .coAwait f x =>
    match s.handle x with
    | some c => .call c f
    | none => .idle
  | .complete f o =>
    match (s.frames f).promise.continuation with
    | some p => .ret f p
    | none =>
      match o with
      | .value _ | .void => .exit f
      | .exception _ => .idle
  | _ => .idle

end State

theorem record_eq_none {q : Frame α ε} : q.record = none ↔ ¬q.point.Active := by
  unfold Frame.record
  cases q.point <;> simp [Point.Active]

theorem isSome_record {q : Frame α ε} : q.record.isSome ↔ q.point.Active := by
  unfold Frame.record
  cases q.point <;> simp [Point.Active]

theorem caller_record {q : Frame α ε} (hq : q.point.Active) :
    q.record.map CallStack.Record.caller = some q.promise.continuation := by
  unfold Frame.record
  cases h : q.point <;> simp_all [Point.Active]

theorem record_of_top {q : Frame α ε} (hq : q.point.Active) (hw : ∀ c, q.point ≠ .awaiting c) :
    q.record = some { caller := q.promise.continuation, callee := none } := by
  unfold Frame.record
  cases h : q.point <;> simp_all [Point.Active]

theorem record_of_running {q : Frame α ε} (hq : q.point = .running) :
    q.record = some { caller := q.promise.continuation, callee := none } := by
  simp [Frame.record, hq]

theorem record_of_awaiting {q : Frame α ε} {c : ℕ} (hq : q.point = .awaiting c) :
    q.record = some { caller := q.promise.continuation, callee := some c } := by
  simp [Frame.record, hq]

/-- What a step does to the call stacks, and that none of them loses its ground. -/
def Follows (s s' : State α ε) (e : Event ℕ) : Prop :=
  CallStack.Step s.callStacks e s'.callStacks ∧ CallStack.Grounded s'.records

/-- A step that leaves the links alone. -/
theorem follows_idle (hg : CallStack.Grounded s.records) (h : ∀ f, s'.records f = s.records f) :
    Follows s s' .idle := by
  have he : s'.records = s.records := funext h
  rw [Follows, State.callStacks, State.callStacks, he]
  exact ⟨.idle, hg⟩

/-- `detached` begins a stack. -/
theorem follows_detach (h : Sound s) (hg : CallStack.Grounded s.records) (params : List ℕ) :
    Follows s (s.detach params) (.spawn s.frameCount) := by
  have hF : ∀ f, (s.detach params).records f = _ := fun f => by
    rw [State.records, State.detach, State.frames_moveParams, State.frames_allocate]
  have ha : s.records s.frameCount = none := by
    rw [State.records, h.absent_frameCount]
    rfl
  have hb : (s.detach params).records s.frameCount = some { caller := none, callee := none } := by
    rw [hF, if_pos rfl]; rfl
  have ho : ∀ f, f ≠ s.frameCount → (s.detach params).records f = s.records f := fun f hf => by
    rw [hF, if_neg hf]; rfl
  refine ⟨?_, CallStack.grounded_spawn ha hb ho hg⟩
  rw [State.callStacks, State.callStacks, CallStack.stacksOf_spawn ha hb ho]
  exact .spawn (CallStack.not_mem_of_none ha)

/-- `co_await` of a task that is not empty enters the child. -/
theorem follows_coAwait (h : Sound s) (hg : CallStack.Grounded s.records) {f x c : ℕ}
    (hf : (s.frames f).point = .running) (hx : s.handle x = some c) :
    Follows s (s.coAwait f x) (.call c f) := by
  have hc := h.custody.handle x c hx
  have hne : f ≠ c := s.ne_of_points hf hc nofun
  have he : s.coAwait f x = (s.setHandle x none).awaitSuspend f c := by simp [State.coAwait, hx]
  have hF := (s.setHandle x none).frames_awaitSuspend hf hc
  rw [← he] at hF
  have ha : s.records f = some { caller := (s.frames f).promise.continuation, callee := none } :=
    record_of_running hf
  have hca : s.records c = none := by
    rw [State.records, record_eq_none, hc]
    exact id
  have hp : (s.coAwait f x).records f =
      some { caller := (s.frames f).promise.continuation, callee := some c } := by
    rw [State.records, hF, if_neg hne, if_pos rfl]; rfl
  have hb : (s.coAwait f x).records c = some { caller := some f, callee := none } := by
    rw [State.records, hF, if_pos rfl]; rfl
  have ho : ∀ i, i ≠ f → i ≠ c → (s.coAwait f x).records i = s.records i := fun i hif hic => by
    rw [State.records, hF, if_neg hic, if_neg hif]; rfl
  obtain ⟨l, hl⟩ := hg f (by rw [ha]; rfl)
  have htop : f :: l ∈ CallStack.stacksOf s.records :=
    CallStack.cons_mem_stacksOf.mpr ⟨by rw [ha]; rfl, hl⟩
  refine ⟨?_, CallStack.grounded_call ha hca hp hb ho hg⟩
  rw [State.callStacks, State.callStacks, CallStack.stacksOf_call ha hca hp hb ho htop]
  exact .call htop (CallStack.not_mem_of_none hca)

/-- The final suspension of a task returns to the coroutine that awaits it. -/
theorem follows_finishTask (hg : CallStack.Grounded s.records) {f p : ℕ} {o : Outcome α ε}
    (hf : (s.frames f).point = .running) (hp : (s.frames f).promise.continuation = some p)
    (hw : (s.frames p).point = .awaiting f) : Follows s (s.finishTask f o) (.ret f p) := by
  have hne : p ≠ f := s.ne_of_points hw hf nofun
  have hF := s.frames_finishTask o hf hp hw
  have ha : (s.finishTask f o).records p =
      some { caller := (s.frames p).promise.continuation, callee := none } := by
    rw [State.records, hF, if_pos rfl]; rfl
  have hca : (s.finishTask f o).records f = none := by
    rw [State.records, hF, if_neg (Ne.symm hne), if_pos rfl]; rfl
  have hpb : s.records p =
      some { caller := (s.frames p).promise.continuation, callee := some f } :=
    record_of_awaiting hw
  have hb : s.records f = some { caller := some p, callee := none } := by
    rw [State.records, record_of_running hf, hp]
  have ho : ∀ i, i ≠ p → i ≠ f → s.records i = (s.finishTask f o).records i := fun i hip hif => by
    rw [State.records, State.records, hF, if_neg hip, if_neg hif]
  have hg' := CallStack.grounded_ret ha hca hpb hb ho hg
  obtain ⟨l, hl⟩ := hg' p (by rw [ha]; rfl)
  obtain ⟨hmem, hst⟩ := CallStack.stacksOf_ret ha hca hpb hb ho
    (CallStack.cons_mem_stacksOf.mpr ⟨by rw [ha]; rfl, hl⟩)
  refine ⟨?_, hg'⟩
  rw [State.callStacks, State.callStacks, hst]
  exact .ret hmem

/-- The end of a detached coroutine ends its stack. -/
theorem follows_exit (h : Sound s) (hg : CallStack.Grounded s.records) {f : ℕ}
    (hf : (s.frames f).point = .running) (hd : (s.frames f).detached = true)
    {g : Frame α ε → Frame α ε} (hgp : ∀ q, (g q).point = .destroyed) :
    Follows s (s.modify f g) (.exit f) := by
  have ha : (s.modify f g).records f = none := by
    rw [State.records, State.frames_modify, if_pos rfl, record_eq_none, hgp]
    exact id
  have hb : s.records f = some { caller := none, callee := none } := by
    rw [State.records, record_of_running hf, (h.frames f).root hd]
  have ho : ∀ i, i ≠ f → s.records i = (s.modify f g).records i := fun i hi => by
    rw [State.records, State.records, State.frames_modify, if_neg hi]
  obtain ⟨hmem, hst⟩ := CallStack.stacksOf_exit ha hb ho
  refine ⟨?_, CallStack.grounded_exit ha hb ho hg⟩
  rw [State.callStacks, State.callStacks, hst]
  exact .exit hmem

/-- A coroutine that does not await a task goes on and does not await one then. -/
theorem records_goto {f : ℕ} {p : Point} (hf : (s.frames f).point.Active)
    (hw : ∀ c, (s.frames f).point ≠ .awaiting c) (hp : p.Active) (hpw : ∀ c, p ≠ .awaiting c)
    (i : ℕ) : (s.goto f p).records i = s.records i := by
  rw [State.records, State.frames_goto]
  split_ifs with hi
  · rw [hi, State.records, record_of_top hp hpw, record_of_top hf hw]
  · rfl

/-- The destruction of a frame whose body is not in progress. -/
theorem records_destroyHandle (h : Sound s) (x i : ℕ) :
    ((s.destroyHandle (s.handle x)).frames i).record = s.records i := by
  cases hx : s.handle x with
  | none => rfl
  | some c =>
    have hc := h.custody.handle x c hx
    rw [State.destroyHandle, State.destroy_of_suspended _ (.inl hc), State.frames_modify]
    split_ifs with hi
    · rw [hi, State.records, record_eq_none.mpr id, record_eq_none.mpr (by rw [hc]; exact id)]
    · rfl

/-- **A step of the coroutines is a step of the call stacks.** -/
theorem follows (h : Sound s) (hg : CallStack.Grounded s.records) {a : Act α ε}
    (ha : s.Enabled a) : Follows s (s.act a) (s.event a) := by
  cases a with
  | call isVoid params home =>
    refine follows_idle hg fun f => ?_
    change ((s.call isVoid params home).frames f).record = _
    rw [State.call, State.frames_moveParams]
    change ((s.allocate _).frames f).record = _
    rw [State.frames_allocate]
    split_ifs with hf
    · rw [hf, State.records, h.absent_frameCount]
      rfl
    · rfl
  | detach params => exact follows_detach h hg params
  | moveConstruct x home => exact follows_idle hg fun _ => rfl
  | moveAssign x y =>
    refine follows_idle hg fun f => ?_
    change ((s.moveAssign x y).frames f).record = _
    unfold State.moveAssign
    split_ifs
    · rfl
    · exact records_destroyHandle h x f
  | destroyTask x => exact follows_idle hg (records_destroyHandle h x)
  | coAwait f x =>
    cases hx : s.handle x with
    | none =>
      have he : s.event (.coAwait f x) = .idle := by simp [State.event, hx]
      rw [he]
      refine follows_idle hg fun i => ?_
      change ((s.coAwait f x).frames i).record = _
      rw [State.coAwait, hx]
      rfl
    | some c =>
      have he : s.event (.coAwait f x) = .call c f := by simp [State.event, hx]
      rw [he]
      exact follows_coAwait h hg ha.1 hx
  | suspend f =>
    exact follows_idle hg (records_goto (by rw [ha]; trivial) (by rw [ha]; simp) trivial (by simp))
  | resume f =>
    change Follows s (s.resume f) .idle
    rw [State.resume_of_suspended _ ha]
    exact follows_idle hg (records_goto (by rw [ha]; trivial) (by rw [ha]; simp) trivial (by simp))
  | awaitResume f c throws =>
    have hs := (h.awaits.of_resumed ha).1
    obtain ⟨o, -, ho⟩ := (h.frames c).takeResult hs
    refine follows_idle hg fun i => ?_
    change ((s.awaitResume f c throws).frames i).record = _
    rw [State.awaitResume_of_final s hs (ho throws), State.frames_answer, State.frames_modify]
    split_ifs with hi
    · rw [hi, State.records,
        record_of_top (q := s.frames f) (by rw [ha]; trivial) (by rw [ha]; simp)]
      rfl
    · rfl
  | endAwait f c =>
    obtain ⟨hf, hc⟩ := ha
    obtain ⟨hfin, -⟩ := h.awaits.of_spent hc
    refine follows_idle hg fun i => ?_
    change ((s.endAwait f c).frames i).record = _
    rw [s.frames_endAwait hf hfin]
    split_ifs with hi hif
    · rw [hi, State.records, record_eq_none.mpr id, record_eq_none.mpr (by rw [hfin]; exact id)]
    · rw [hif]; rfl
    · rfl
  | complete f o =>
    obtain ⟨hf, -, -⟩ := ha
    change Follows s (s.complete f o) _
    unfold State.complete
    split_ifs with hd
    · have hroot := (h.frames f).root hd
      cases o with
      | exception e =>
        have he : s.event (.complete f (.exception e)) = .idle := by simp [State.event, hroot]
        rw [he]
        exact follows_idle hg fun _ => rfl
      | value v =>
        have he : s.event (.complete f (.value v)) = .exit f := by simp [State.event, hroot]
        rw [he, State.finishDetached]
        exact follows_exit h hg hf hd fun _ => rfl
      | void =>
        have he : s.event (.complete f .void) = .exit f := by simp [State.event, hroot]
        rw [he, State.finishDetached]
        exact follows_exit h hg hf hd fun _ => rfl
    · obtain ⟨p, hp, hw⟩ := h.awaits.exists_awaiting (c := f) (by rw [hf]; trivial)
        (by simpa using hd)
      have he : s.event (.complete f o) = .ret f p := by simp [State.event, hp]
      rw [he]
      exact follows_finishTask hg hf hp hw

/-- The call stacks stand on their ground in every state that is reached. -/
theorem Reachable.grounded (h : Reachable s) : CallStack.Grounded s.records := by
  induction h with
  | init => exact fun f hf => by cases hf
  | step hr a _ ha ih => exact (follows hr.sound ih ha).2

/-- No coroutine is in two call stacks. -/
theorem Reachable.proper (h : Reachable s) : CallStack.Proper s.callStacks := by
  induction h with
  | init =>
    have he : ∀ l, l ∉ ({} : State α ε).callStacks := by
      rintro _ ⟨c, l, rfl, hc, -⟩
      cases hc
    exact ⟨fun l hl => absurd hl (he l), fun l hl => absurd hl (he l)⟩
  | step hr a _ ha ih => exact (follows hr.sound hr.grounded ha).1.proper ih

/-- Every coroutine that is in progress is in a call stack. -/
theorem Reachable.exists_stack (h : Reachable s) {f : ℕ} (hf : (s.frames f).point.Active) :
    ∃ l ∈ s.callStacks, f ∈ l := by
  have hs := h.sound
  have hlt : ∀ i, (s.records i).isSome → i ∈ List.range s.frameCount := fun i hi => by
    rw [State.records, isSome_record] at hi
    by_contra hn
    rw [(hs.custody.absent i).mpr (by simpa using hn)] at hi
    exact hi
  refine h.grounded.exists_stack hlt (fun p c hpc => ?_) (by rwa [State.records, isSome_record])
  have hp : (s.frames p).point = .awaiting c := by
    simp only [State.records, Frame.record] at hpc
    split at hpc <;> simp_all
  obtain ⟨hc, -, hcont⟩ := hs.awaits.of_awaiting hp
  rw [State.records, caller_record hc, hcont]

/-- The lowest coroutines of the stacks are those that nobody awaits. -/
theorem Reachable.getLast_iff (h : Reachable s) (f : ℕ) :
    (∃ l ∈ s.callStacks, l.getLast? = some f) ↔
      (s.frames f).detached = true ∧ (s.frames f).point.Active := by
  have hs := h.sound
  have hcaller : (s.frames f).point.Active →
      ((s.records f).map CallStack.Record.caller = some none ↔ (s.frames f).detached = true) := by
    intro hf
    rw [State.records, caller_record hf, Option.some_inj]
    refine ⟨fun hnone => ?_, (hs.frames f).root⟩
    by_contra hd
    obtain ⟨p, hp, -⟩ := hs.awaits.exists_awaiting hf (by simpa using hd)
    exact nomatch hp.symm.trans hnone
  constructor
  · rintro ⟨l, hl, hlast⟩
    have hmem : f ∈ l := mem_of_getLast? hlast
    have hf : (s.frames f).point.Active := by
      by_contra hf
      exact CallStack.not_mem_of_none (record_eq_none.mpr hf) l hl hmem
    obtain ⟨c, l, rfl, -, hcallers⟩ := hl
    exact ⟨(hcaller hf).mp ((hcallers.getLast?_eq_some hmem).mp hlast), hf⟩
  · rintro ⟨hd, hf⟩
    obtain ⟨_, ⟨c, l, rfl, hc, hcallers⟩, hmem⟩ := h.exists_stack hf
    exact ⟨c :: l, ⟨c, l, rfl, hc, hcallers⟩,
      (hcallers.getLast?_eq_some hmem).mpr ((hcaller hf).mpr hd)⟩

/-- **Awaiting a task is calling it.** The coroutines in progress form stacks, whose lowest elements
are the detached ones, and every step is a step of the stacks. -/
theorem co_await_is_a_call (h : Reachable s) :
    CallStack.Proper s.callStacks ∧
      (∀ f, (s.frames f).point.Active ↔ ∃ l ∈ s.callStacks, f ∈ l) ∧
      (∀ f, (∃ l ∈ s.callStacks, l.getLast? = some f) ↔
        (s.frames f).detached = true ∧ (s.frames f).point.Active) ∧
      ∀ a, s.Enabled a → CallStack.Step s.callStacks (s.event a) (s.act a).callStacks := by
  refine ⟨h.proper, fun f => ⟨h.exists_stack, ?_⟩, h.getLast_iff,
    fun a ha => (follows h.sound h.grounded ha).1⟩
  rintro ⟨l, hl, hfl⟩
  by_contra hf
  exact CallStack.not_mem_of_none (record_eq_none.mpr hf) l hl hfl

theorem spawnedState_calls :
    CallStack.Step spawnedState.callStacks (.call 0 1)
      (spawnedState.act (.coAwait 1 1)).callStacks :=
  (co_await_is_a_call spawnedState_reachable).2.2.2 (.coAwait 1 1) ⟨rfl, _, rfl, .inl trivial⟩

/-! ### Results -/

/-- What has been handed to the awaiting coroutines: of every child its own outcome, to its own
continuation, once, and before its frame is destroyed. -/
structure Told (s : State α ε) : Prop where
  answer : ∀ a ∈ s.answers, ∀ c, a.child = some c →
    (∃ o, (s.frames c).outcome = some o ∧ a.outcome = o.moved a.throws) ∧
      (s.frames c).promise.continuation = some a.parent ∧
      ((s.frames c).point = .destroyed ∨ c ∈ (s.frames a.parent).spent)
  empty : ∀ a ∈ s.answers, a.child = none → a.outcome = .exception .emptyTask
  nodup : (s.answers.filterMap Answer.child).Nodup
  told : ∀ c, (s.frames c).detached = false →
    (s.frames c).point = .destroyed ∧ (s.frames c).outcome ≠ none ∨ (∃ p, c ∈ (s.frames p).spent) →
      c ∈ s.answers.filterMap Answer.child

/-- The frame does not change, or has no outcome yet and is not destroyed with one. -/
def Unheard (q q' : Frame α ε) : Prop :=
  q' = q ∨ q'.spent = q.spent ∧ q.outcome = none ∧
    (q'.detached = false → q.detached = false ∧ (q'.point = .destroyed → q'.outcome = none))

namespace Told

/-- A step that hands out nothing and destroys no frame whose body has ended. -/
theorem congr (h : Told s) (ha : s'.answers = s.answers)
    (hf : ∀ f, Unheard (s.frames f) (s'.frames f)) : Told s' := by
  have hspent : ∀ f, (s'.frames f).spent = (s.frames f).spent := fun f => by
    rcases hf f with heq | ⟨heq, -⟩
    · rw [heq]
    · exact heq
  refine ⟨fun a hmem c hc => ?_, fun a hmem => h.empty a (ha ▸ hmem), ha ▸ h.nodup,
    fun c hd hc => ?_⟩
  · obtain ⟨⟨o, ho, hout⟩, hp, hcs⟩ := h.answer a (ha ▸ hmem) c hc
    rw [hspent]
    rcases hf c with heq | ⟨-, hnone, -⟩
    · rw [heq]
      exact ⟨⟨o, ho, hout⟩, hp, hcs⟩
    · exact nomatch ho.symm.trans hnone
  · rw [ha]
    simp only [hspent] at hc
    rcases hf c with heq | ⟨-, -, hq⟩
    · rw [heq] at hd hc
      exact h.told c hd hc
    · obtain ⟨hd', hdes⟩ := hq hd
      exact h.told c hd' (.inr (hc.resolve_left fun hc => hc.2 (hdes hc.1)))

/-- An await that hands out the result of the child `c`. -/
theorem awaitResume (h : Told s) (hs : Sound s) {f c : ℕ} (hf : (s.frames f).point = .resumed c)
    (throws : Option ε) : Told (s.awaitResume f c throws) := by
  obtain ⟨hfin, hcont, hnot⟩ := hs.awaits.of_resumed hf
  obtain ⟨o, hout, ho⟩ := (hs.frames c).takeResult hfin
  have hcf : c ≠ f := s.ne_of_points hfin hf nofun
  have hnew : c ∉ s.answers.filterMap Answer.child := fun hmem => by
    obtain ⟨a, ha, hac⟩ := mem_filterMap.mp hmem
    obtain ⟨-, hp, hdes | hsp⟩ := h.answer a ha c hac
    · exact nomatch hfin.symm.trans hdes
    · rw [hcont] at hp
      cases hp
      exact hnot hsp
  have he := State.awaitResume_of_final (f := f) s hfin (ho throws)
  have hkeep : ∀ i, ((s.awaitResume f c throws).frames i).outcome = (s.frames i).outcome ∧
      ((s.awaitResume f c throws).frames i).promise = (s.frames i).promise ∧
      ((s.awaitResume f c throws).frames i).detached = (s.frames i).detached ∧
      (((s.awaitResume f c throws).frames i).point = .destroyed ↔
        (s.frames i).point = .destroyed) ∧
      ∀ d, d ∈ ((s.awaitResume f c throws).frames i).spent ↔
        i = f ∧ d = c ∨ d ∈ (s.frames i).spent := by
    intro i
    rw [he, State.frames_answer, State.frames_modify]
    split_ifs with hi
    · subst hi
      exact ⟨rfl, rfl, rfl, by simp [hf], fun d => by simp⟩
    · exact ⟨rfl, rfl, rfl, .rfl, fun d => by simp [hi]⟩
  have hA : (s.awaitResume f c throws).answers =
      { parent := f, child := some c, throws, outcome := o.moved throws } :: s.answers := by
    rw [he]
    rfl
  constructor
  case answer =>
    intro a ha d hd
    obtain ⟨hout', hpromise, -, hdes, -⟩ := hkeep d
    rw [hout', hpromise, hdes, (hkeep a.parent).2.2.2.2]
    rcases mem_cons.mp (hA ▸ ha) with rfl | ha
    · cases hd
      exact ⟨⟨o, hout, rfl⟩, hcont, .inr (.inl ⟨rfl, rfl⟩)⟩
    · obtain ⟨houts, hp, hcs⟩ := h.answer a ha d hd
      exact ⟨houts, hp, hcs.imp_right .inr⟩
  case empty =>
    intro a ha hd
    rcases mem_cons.mp (hA ▸ ha) with rfl | ha
    · cases hd
    · exact h.empty a ha hd
  case nodup =>
    rw [hA]
    exact nodup_cons.mpr ⟨hnew, h.nodup⟩
  case told =>
    intro d hd hds
    obtain ⟨hout', -, hdetached, hdes, -⟩ := hkeep d
    rw [hdetached] at hd
    rw [hout', hdes] at hds
    rw [hA]
    refine mem_cons.mpr ?_
    rcases hds with hds | ⟨p, hp⟩
    · exact .inr (h.told d hd (.inl hds))
    · rcases ((hkeep p).2.2.2.2 d).mp hp with ⟨-, rfl⟩ | hp
      · exact .inl rfl
      · exact .inr (h.told d hd (.inr ⟨p, hp⟩))

/-- The end of an await destroys a frame whose result was handed out. -/
theorem endAwait (h : Told s) (hs : Sound s) {f c : ℕ} (hf : (s.frames f).point = .running)
    (hc : c ∈ (s.frames f).spent) : Told (s.endAwait f c) := by
  obtain ⟨hfin, -⟩ := hs.awaits.of_spent hc
  have hcf : c ≠ f := s.ne_of_points hfin hf nofun
  have hkeep : ∀ i, ((s.endAwait f c).frames i).outcome = (s.frames i).outcome ∧
      ((s.endAwait f c).frames i).promise = (s.frames i).promise ∧
      ((s.endAwait f c).frames i).detached = (s.frames i).detached ∧
      (((s.endAwait f c).frames i).point = .destroyed ↔ i = c ∨ (s.frames i).point = .destroyed) ∧
      ∀ d, d ∈ ((s.endAwait f c).frames i).spent ↔ d ∈ (s.frames i).spent ∧ (i = f → d ≠ c) := by
    intro i
    rw [s.frames_endAwait hf hfin]
    split_ifs with hic hif
    · subst hic
      exact ⟨rfl, rfl, rfl, by simp, fun d => by simp [hcf]⟩
    · subst hif
      refine ⟨rfl, rfl, rfl, by simp [hic], fun d => ?_⟩
      rw [(hs.awaits.nodup_spent i).mem_erase_iff, and_comm]
      simp
    · exact ⟨rfl, rfl, rfl, by simp [hic], fun d => by simp [hif]⟩
  have hA : (s.endAwait f c).answers = s.answers := by
    rw [State.endAwait, State.destroy]
    split <;> rfl
  refine ⟨fun a ha d hd => ?_, fun a ha => h.empty a (hA ▸ ha), hA ▸ h.nodup, fun d hd hds => ?_⟩
  · obtain ⟨hout, hpromise, -, hdes, -⟩ := hkeep d
    obtain ⟨houts, hp, hcs⟩ := h.answer a (hA ▸ ha) d hd
    rw [hout, hpromise, hdes, (hkeep a.parent).2.2.2.2]
    by_cases hdc : d = c
    · exact ⟨houts, hp, .inl (.inl hdc)⟩
    · exact ⟨houts, hp, hcs.imp .inr fun hmem => ⟨hmem, fun _ => hdc⟩⟩
  · obtain ⟨hout, -, hdetached, hdes, -⟩ := hkeep d
    rw [hdetached] at hd
    rw [hout, hdes] at hds
    rw [hA]
    refine h.told d hd ?_
    rcases hds with ⟨rfl | hds, hne⟩ | ⟨p, hp⟩
    · exact .inr ⟨f, hc⟩
    · exact .inl ⟨hds, hne⟩
    · exact .inr ⟨p, (((hkeep p).2.2.2.2 d).mp hp).1⟩

/-- A step that destroys at most the frame of a task object, whose body has not begun. -/
theorem destroyHandle (h : Told s) (hs : Sound s) {x : ℕ} (ha : s'.answers = s.answers)
    (hf : s'.frames = (s.destroyHandle (s.handle x)).frames) : Told s' := by
  refine h.congr ha fun i => ?_
  rw [hf]
  cases hx : s.handle x with
  | none => exact .inl rfl
  | some c =>
    have hi := hs.custody.handle x c hx
    have hnone := (hs.frames c).outcome_eq_none (.inl hi)
    rw [State.destroyHandle, State.destroy_of_suspended _ (.inl hi), State.frames_modify]
    split_ifs with hic
    · rw [hic]
      exact .inr ⟨rfl, hnone, fun hd => ⟨hd, fun _ => hnone⟩⟩
    · exact .inl rfl

/-- A step that makes a frame whose body has not ended. -/
theorem allocate (h : Told s) (hs : Sound s) {q : Frame α ε} (hq : q.point ≠ .destroyed)
    (hsp : q.spent = []) (ha : s'.answers = s.answers)
    (hf : s'.frames = (s.allocate q).frames) : Told s' := by
  refine h.congr ha fun i => ?_
  rw [hf, State.frames_allocate]
  split_ifs with hi
  · rw [hi, hs.absent_frameCount]
    exact .inr ⟨hsp, rfl, fun _ => ⟨rfl, fun hdes => absurd hdes hq⟩⟩
  · exact .inl rfl

theorem answers_moveParams (f : ℕ) (xs : List ℕ) :
    (State.moveParams f xs s).answers = s.answers := by
  induction xs generalizing s with
  | nil => rfl
  | cons x xs ih => exact ih

theorem answers_destroyHandle (x : Option ℕ) : (s.destroyHandle x).answers = s.answers := by
  cases x with
  | none => rfl
  | some f =>
    simp only [State.destroyHandle, State.destroy]
    split <;> rfl

/-- A coroutine whose body has not ended goes on. -/
theorem goto (h : Told s) (hs : Sound s) {f : ℕ} (p : Point) (hf : (s.frames f).point.Active) :
    Told (s.goto f p) := by
  have hnone := (hs.frames f).outcome_eq_none (.inr hf)
  refine h.congr rfl fun i => ?_
  rw [State.frames_goto]
  split_ifs with hi
  · rw [hi]
    exact .inr ⟨rfl, hnone, fun hd => ⟨hd, fun _ => hnone⟩⟩
  · exact .inl rfl

/-- `co_await` in a coroutine whose body is in progress. -/
theorem coAwait (h : Told s) (hs : Sound s) {f x : ℕ} (hf : (s.frames f).point = .running) :
    Told (s.coAwait f x) := by
  cases hx : s.handle x with
  | none =>
    have he : s.coAwait f x = s.answer { parent := f, outcome := .exception .emptyTask } := by
      simp [State.coAwait, hx]
    rw [he]
    constructor
    case answer =>
      intro a ha c hc
      rcases mem_cons.mp ha with rfl | ha
      · cases hc
      · exact h.answer a ha c hc
    case empty =>
      intro a ha hc
      rcases mem_cons.mp ha with rfl | ha
      · rfl
      · exact h.empty a ha hc
    case nodup => exact h.nodup
    case told => exact h.told
  | some c =>
    have hc := hs.custody.handle x c hx
    have hbf := (hs.frames f).outcome_eq_none (.inr (by rw [hf]; trivial))
    have hbc := (hs.frames c).outcome_eq_none (.inl hc)
    have he : s.coAwait f x = (s.setHandle x none).awaitSuspend f c := by simp [State.coAwait, hx]
    have hF := (s.setHandle x none).frames_awaitSuspend hf hc
    have hA : (s.coAwait f x).answers = s.answers := by
      rw [he, State.awaitSuspend_of_initial (s.setHandle x none) hf hc]
      rfl
    rw [← he] at hF
    refine h.congr hA fun i => ?_
    rw [hF]
    split_ifs with hic hif
    · rw [hic]
      exact .inr ⟨rfl, hbc, fun hd => ⟨hd, fun h => by cases h⟩⟩
    · rw [hif]
      exact .inr ⟨rfl, hbf, fun hd => ⟨hd, fun h => by cases h⟩⟩
    · exact .inl rfl

/-- The end of a body hands nothing out. -/
theorem complete (h : Told s) (hs : Sound s) {f : ℕ} {o : Outcome α ε}
    (hf : (s.frames f).point = .running) : Told (s.complete f o) := by
  have hbf := (hs.frames f).outcome_eq_none (.inr (by rw [hf]; trivial))
  unfold State.complete
  split_ifs with hd
  · cases o with
    | exception e => exact h.congr rfl fun _ => .inl rfl
    | value v | void =>
      refine h.congr rfl fun i => ?_
      rw [State.finishDetached, State.frames_modify]
      split_ifs with hi
      · rw [hi]
        exact .inr ⟨rfl, hbf, fun hd' => absurd (hd'.symm.trans hd) Bool.false_ne_true⟩
      · exact .inl rfl
  · obtain ⟨p, hp, hw⟩ := hs.awaits.exists_awaiting (c := f) (by rw [hf]; trivial)
      (by simpa using hd)
    have hbp := (hs.frames p).outcome_eq_none (.inr (by rw [hw]; trivial))
    have hA : (s.finishTask f o).answers = s.answers := by
      rw [State.finishTask_of_awaiting s o hf hp hw]
      rfl
    refine h.congr hA fun i => ?_
    rw [s.frames_finishTask o hf hp hw]
    split_ifs with hip hif
    · rw [hip]
      exact .inr ⟨rfl, hbp, fun hd => ⟨hd, fun h => by cases h⟩⟩
    · rw [hif]
      exact .inr ⟨rfl, hbf, fun hd => ⟨hd, fun h => by cases h⟩⟩
    · exact .inl rfl

/-- Every step keeps the record of what was handed out. -/
theorem act (h : Told s) (hs : Sound s) {a : Act α ε} (ha : s.Enabled a) : Told (s.act a) := by
  cases a with
  | call isVoid params home =>
    exact h.allocate hs (q := { point := .initial, promise := { isVoid } }) (by simp) rfl
      (answers_moveParams ..) (State.frames_moveParams ..)
  | detach params =>
    exact h.allocate hs (by simp) rfl (answers_moveParams ..) (State.frames_moveParams ..)
  | moveConstruct x home => exact h.congr rfl fun _ => .inl rfl
  | moveAssign x y =>
    change Told (s.moveAssign x y)
    unfold State.moveAssign
    split_ifs
    · exact h
    · exact h.destroyHandle hs (x := x) (answers_destroyHandle _) rfl
  | destroyTask x => exact h.destroyHandle hs (x := x) (answers_destroyHandle _) rfl
  | coAwait f x => exact h.coAwait hs ha.1
  | suspend f => exact h.goto hs _ (by rw [ha]; trivial)
  | resume f =>
    change Told (s.resume f)
    rw [State.resume_of_suspended _ ha]
    exact h.goto hs _ (by rw [ha]; trivial)
  | awaitResume f c throws => exact h.awaitResume hs ha throws
  | endAwait f c => exact h.endAwait hs ha.1 ha.2
  | complete f o => exact h.complete hs ha.1

end Told

/-- The record of what was handed out is right in every state that is reached. -/
theorem Reachable.told (h : Reachable s) : Told s := by
  induction h with
  | init =>
    constructor
    case nodup => exact nodup_nil
    case told => simp
    all_goals simp
  | step hr a _ ha ih => exact ih.act hr.sound ha

/-- **A result is handed out once, to the coroutine that awaits it.** It is the outcome of the body;
only if moving the value throws, the exception takes its place. -/
theorem result_handed_out_once (h : Reachable s) :
    (∀ a ∈ s.answers, ∀ c, a.child = some c →
      (∃ o, (s.frames c).outcome = some o ∧ a.outcome = o.moved a.throws) ∧
      (s.frames c).promise.continuation = some a.parent) ∧
    (∀ a ∈ s.answers, a.child = none → a.outcome = .exception .emptyTask) ∧
    (s.answers.filterMap Answer.child).Nodup ∧
    ∀ c, (s.frames c).detached = false → (s.frames c).destroyed = 1 →
      (s.frames c).outcome = none ∧ (s.frames c).promise.continuation = none ∨
        ∃ a ∈ s.answers, a.child = some c := by
  have ht := h.told
  refine ⟨fun a ha c hc => ?_, ht.empty, ht.nodup, fun c hd hdes => ?_⟩
  · obtain ⟨ho, hp, -⟩ := ht.answer a ha c hc
    exact ⟨ho, hp⟩
  · have hq := h.sound.frames c
    have hpt : (s.frames c).point = .destroyed := by
      by_contra hne
      exact nomatch hdes.symm.trans (hq.once.trans (if_neg hne))
    by_cases ho : (s.frames c).outcome = none
    · exact .inl ⟨ho, hq.continuation_eq_none hpt ho⟩
    · exact .inr (mem_filterMap.mp (ht.told c hd (.inl ⟨hpt, ho⟩)))

/-- The child has returned a value, and moving it out has thrown. -/
def thrownState : State ℕ Unit :=
  (((spawnedState.act (.coAwait 1 1)).act (.complete 0 (.value 7))).act
    (.awaitResume 1 0 (some ()))).act (.endAwait 1 0)

theorem thrownState_reachable : Reachable thrownState :=
  (((spawnedState_reachable.step (.coAwait 1 1) rfl ⟨rfl, _, rfl, .inl trivial⟩).step
    (.complete 0 (.value 7)) rfl ⟨rfl, rfl, rfl⟩).step (.awaitResume 1 0 (some ())) rfl rfl).step
      (.endAwait 1 0) rfl ⟨rfl, mem_cons_self⟩

theorem thrownState_told : ∃ a ∈ thrownState.answers, a.child = some 0 ∧ a.throws = some () ∧
    a.outcome = .exception (.user ()) := by
  obtain ⟨hsame, -, -, htold⟩ := result_handed_out_once thrownState_reachable
  rcases htold 0 rfl (by decide) with ⟨h, -⟩ | ⟨a, ha, hc⟩
  · cases h
  · obtain ⟨⟨o, ho, hout⟩, -⟩ := hsame a ha 0 hc
    have hthrows : a.throws = some () := by
      rw [mem_singleton.mp ha]
    cases ho
    rw [hthrows] at hout
    exact ⟨a, ha, hc, hthrows, hout⟩

end Snowy.Coroutine
