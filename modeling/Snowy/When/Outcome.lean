import Snowy.When.Drain

/-!
# The results of `when_any` and `when_all`

A race is decided by the child that is the first to execute its completion step. A join without a
race has the results of its children in the order of its inputs, whatever the order of their
completions, or the exception of the child that was the first to fail. An input that cannot be
launched ends the launch loop, and its exception is thrown after the children before it have
finished.

## Main results

* `Snowy.When.Sound.race_stable` : later completions do not change what a race has decided.
* `Snowy.When.whenAny_first_completion` : `when_any` drains and reports the first completion.
* `Snowy.When.whenAll_input_order` : `when_all` drains, keeps the order of its inputs, and reports
  the first failure.
-/

namespace Snowy.When

open Function List

variable {ε α : Type*} {form : Form} {n : ℕ} {s t : State ε α} {a : Act ε α}

/-! ### Races -/

/-- The winner of a race that has not failed has its value in its slot. -/
theorem Sound.winner_engaged (hs : Sound form n s) (hform : form.race = true) {w : ℕ}
    (hw : s.join.winner = some w) (herror : s.join.error = none) :
    ∃ v, s.own w = some (.ok v) ∧ s.join.values[w]? = some (some v) := by
  obtain ⟨hwinner, herr, -⟩ := hs.race hform
  have hhead : s.order.head? = some w := hwinner.symm.trans hw
  have hmem : w ∈ s.order := List.mem_of_head? hhead
  obtain ⟨r, hown⟩ := hs.exists_own hmem
  cases r with
  | ok v => exact ⟨v, hown, hs.values_own (hs.lt_of_mem_order hmem) hown⟩
  | error e =>
    rw [hhead, Option.bind_some, failure_of_own hown, herror] at herr
    exact nomatch herr

/-- What a race has decided stays as it is. -/
theorem Sound.race_stable (hs : Sound form n s) (hform : form.race = true) (h : Step form n s a t)
    (horder : s.order ≠ []) : t.join.winner = s.join.winner ∧ t.join.error = s.join.error ∧
      ∀ w, s.join.winner = some w → t.own w = s.own w ∧ t.join.values[w]? = s.join.values[w]? := by
  have ht := hs.step h
  obtain ⟨hwinner, herror, -⟩ := hs.race hform
  obtain ⟨hwinner', herror', -⟩ := ht.race hform
  obtain ⟨w, rest, hw⟩ := exists_cons_of_ne_nil horder
  have hhead : s.order.head? = some w := by rw [hw]; rfl
  have hlt : w < n := hs.lt_of_mem_order (hw ▸ mem_cons_self)
  have hkept : t.order.head? = some w ∧ t.own w = s.own w := by
    rcases h.order_eq with ⟨ho, hown⟩ | ⟨i, r, ho, hown⟩
    · exact ⟨ho ▸ hhead, hown ▸ rfl⟩
    · refine ⟨by rw [ho, hw]; rfl, ?_⟩
      -- the child that completes now is not the one that has won
      have hnodup := ht.nodup
      rw [ho] at hnodup
      have hne : w ≠ i := by
        rintro rfl
        exact (nodup_append.mp hnodup).2.2 w (hw ▸ mem_cons_self) w mem_cons_self rfl
      rw [hown, update_of_ne hne]
  obtain ⟨hhead', hown⟩ := hkept
  have hfailure : t.failure w = s.failure w := by rw [State.failure, hown, State.failure]
  refine ⟨?_, ?_, ?_⟩
  · rw [hwinner', hwinner, hhead', hhead]
  · rw [herror', herror, hhead', hhead, Option.bind_some, Option.bind_some, hfailure]
  · intro w' hw'
    cases hhead.symm.trans (hwinner.symm.trans hw')
    exact ⟨hown, by rw [ht.values w hlt, hs.values w hlt, hown]⟩

/-- **`when_any` drains and reports the first completion.** In every run of any of its forms over a
nonempty list of inputs:
* the winner is the first child to execute its completion step, `state.error` is the exception of
  this child, and its slot is engaged if there is none;
* this is decided, and the stop requested, in that completion step, and no later step changes it;
* when the call ends, nothing is pending and every started child has finished. Without a startup
  failure it returns the index and the value of the winner, or throws the exception of the winner.
  With a startup failure at the input `k` exactly the inputs before `k` were started, stop was
  requested, and the exception of the startup is thrown;
* when all started children have finished, the call ends as soon as the loop resumes it. -/
theorem whenAny_first_completion (hform : form.race = true) (hn : 0 < n) (h : Reachable form n s) :
    s.join.winner = s.order.head? ∧ s.join.error = s.order.head?.bind s.failure ∧
    (∀ w, s.join.winner = some w → s.join.error = none →
      ∃ v, s.own w = some (.ok v) ∧ s.join.values[w]? = some (some v)) ∧
    (∀ a t i, Step form n s a t → s.order = [] → t.order = [i] →
      t.join.winner = some i ∧ t.join.error = t.failure i ∧ t.join.stop = true) ∧
    (∀ a t, Step form n s a t → s.order ≠ [] →
      t.join.winner = s.join.winner ∧ t.join.error = s.join.error ∧
      ∀ w, s.join.winner = some w → t.own w = s.own w ∧ t.join.values[w]? = s.join.values[w]?) ∧
    (∀ o, s.parent = .finished o →
      s.join.pending = 0 ∧ (∀ i f, s.child i = some f → f.phase = .finished) ∧
      (s.refused = none → s.started = List.range n ∧ s.order.Perm (List.range n) ∧
        ∃ i, s.order.head? = some i ∧
          ((∃ v, s.own i = some (.ok v) ∧ o = .any i v) ∨
            ∃ e, s.own i = some (.error e) ∧ o = .throws e)) ∧
      ∀ k e, s.refused = some (k, e) → k < n ∧ s.started = List.range k ∧
        s.order.Perm (List.range k) ∧ s.join.stop = true ∧ o = .throws e) ∧
    (s.parent ≠ .start → (∀ i, s.parent ≠ .launching i) →
      (∀ i f, s.child i = some f → f.phase = .finished) →
      (∃ o, s.parent = .finished o) ∨ ∃ t o, Step form n s .wake t ∧ t.parent = .finished o) := by
  have hs := h.sound
  obtain ⟨hwinner, herror, hstartup, hstop⟩ := hs.race hform
  refine ⟨hwinner, herror, fun w hw he => hs.winner_engaged hform hw he, fun a t i ht _ ho => ?_,
    fun a t ht => hs.race_stable hform ht, fun o ho => ?_, hs.progress⟩
  · obtain ⟨hwinner', herror', -, hstop'⟩ := (hs.step ht).race hform
    rw [ho] at hwinner' herror' hstop'
    exact ⟨hwinner', herror', hstop'.trans (Bool.or_true _)⟩
  · obtain ⟨hpending, hfinished⟩ := hs.drained ho
    have hend := hs.outcome_eq ho (.inl (Nat.ne_of_gt hn))
    simp only [Form.conclude, hform, if_true] at hend
    refine ⟨hpending, hfinished, fun href => ?_, fun k e href => ?_⟩
    · obtain ⟨hstarted, hperm⟩ := hs.order_perm_range ho href
      refine ⟨hstarted, hperm, ?_⟩
      rw [href] at hstartup
      -- the inputs are not none, so one of the children was the first
      have hne : s.order ≠ [] := by
        intro hnil
        have hlen := hperm.length_eq
        rw [hnil, length_range] at hlen
        exact Nat.ne_of_gt hn hlen.symm
      obtain ⟨w, rest, hw⟩ := exists_cons_of_ne_nil hne
      have hmem : w ∈ s.order := hw ▸ mem_cons_self
      obtain ⟨r, hown⟩ := hs.exists_own hmem
      refine ⟨w, by rw [hw]; rfl, ?_⟩
      rw [hw] at hwinner herror
      cases r with
      | ok v =>
        have herror : s.join.error = none := herror.trans (failure_of_own hown)
        have hslot := hs.values_own (hs.lt_of_mem_order hmem) hown
        refine .inl ⟨v, hown, ?_⟩
        rw [hend, hstartup, herror, hwinner]
        simp [hslot]
      | error e =>
        have herror : s.join.error = some e := herror.trans (failure_of_own hown)
        refine .inr ⟨e, hown, ?_⟩
        rw [hend, hstartup, herror]
        rfl
    · obtain ⟨hk, hstarted, hperm⟩ := hs.order_perm_of_refused ho href
      rw [href] at hstartup hstop
      refine ⟨hk, hstarted, hperm, hstop, ?_⟩
      rw [hend, hstartup]
      rfl

/-- A race of two inputs: the first one moves to another loop and fails there, after the second one
has won. -/
theorem exists_raced : ∃ s : State ℕ ℕ, Reachable .anyVector 2 s ∧
    s.parent = .finished (.any 1 7) ∧ s.refused = none ∧ s.own 0 = some (.error 5) := by
  refine exists_run_of_step (.enter rfl) ?_
  refine exists_run_of_step (.launch 0 none rfl (by decide)) ?_
  refine exists_run_of_step (.launch 1 none rfl (by decide)) ?_
  refine exists_run_of_step (.join rfl) ?_
  refine exists_run_of_step (.resume 0 _ (.inl rfl) rfl rfl) ?_
  refine exists_run_of_step (.migrate 0 3 _ 0 rfl rfl) ?_
  refine exists_run_of_step (.resume 1 _ (.inl rfl) rfl rfl) ?_
  refine exists_run_of_step (.finish 1 (.ok 7) none _ (.inl rfl) rfl rfl) ?_
  refine exists_run_of_step (.leave 0 (.error 5) _ 3 rfl rfl (by decide)) ?_
  refine exists_run_of_step (.deliver 0 (.error 5) none _ (.inl rfl) rfl rfl) ?_
  exact exists_run_of_step (.wake rfl) ⟨_, .refl, rfl, rfl, rfl⟩

/-- In this race the first child to complete is one that has succeeded. -/
theorem whenAny_first_completion_raced : ∃ s : State ℕ ℕ, Reachable .anyVector 2 s ∧
    s.parent = .finished (.any 1 7) ∧ s.own 0 = some (.error 5) ∧ s.join.pending = 0 ∧
      s.order.head? = some 1 ∧ s.own 1 = some (.ok 7) := by
  obtain ⟨s, hs, ho, href, hown⟩ := exists_raced
  have hrace := (whenAny_first_completion rfl (by decide) hs).2.2.2.2.2.1 _ ho
  obtain ⟨-, -, i, hhead, ⟨v, hv, hpair⟩ | ⟨e, -, hthrow⟩⟩ := hrace.2.2.1 href
  · cases hpair
    exact ⟨s, hs, ho, hown, hrace.1, hhead, hv⟩
  · exact nomatch hthrow

/-! ### Joins without a race -/

/-- The results of children that have all succeeded are read out of their slots. -/
theorem mapM_values {values : List (Option α)} (h : ∀ x ∈ values, x.isSome) :
    ∃ vs, values = vs.map some ∧ values.mapM id = some vs := by
  induction values with
  | nil => exact ⟨[], rfl, rfl⟩
  | cons x values ih =>
    obtain ⟨vs, hvs, hmap⟩ := ih fun y hy => h y (mem_cons_of_mem x hy)
    obtain ⟨v, rfl⟩ := Option.isSome_iff_exists.mp (h x mem_cons_self)
    exact ⟨v :: vs, by rw [hvs]; rfl, by rw [mapM_cons, hmap]; rfl⟩

/-- Children without a failure have their values in the slots, in the order of the inputs. -/
theorem Sound.exists_values (hs : Sound form n s) (horder : s.order.Perm (List.range n))
    (hfail : ∀ i < n, s.failure i = none) :
    ∃ vs, s.join.values.mapM id = some vs ∧ vs.length = n ∧
      ∀ i < n, ∃ v, vs[i]? = some v ∧ s.own i = some (.ok v) := by
  have hok : ∀ i < n, ∃ v, s.own i = some (.ok v) := by
    intro i hi
    obtain ⟨r, hr⟩ := hs.exists_own (horder.mem_iff.mpr (mem_range.mpr hi))
    cases r with
    | ok v => exact ⟨v, hr⟩
    | error e => exact nomatch (hfail i hi).symm.trans (failure_of_own hr)
  have hsome : ∀ x ∈ s.join.values, x.isSome := by
    intro x hx
    obtain ⟨i, hi, rfl⟩ := mem_iff_getElem.mp hx
    obtain ⟨v, hv⟩ := hok i (hs.length_values ▸ hi)
    have hslot := hs.values_own (hs.length_values ▸ hi) hv
    rw [List.getElem?_eq_getElem hi] at hslot
    rw [Option.some.inj hslot]
    rfl
  obtain ⟨vs, hvs, hmap⟩ := mapM_values hsome
  refine ⟨vs, hmap, ?_, fun i hi => ?_⟩
  · rw [← hs.length_values, hvs, length_map]
  · obtain ⟨v, hv⟩ := hok i hi
    refine ⟨v, ?_, hv⟩
    have hslot := hs.values_own hi hv
    rw [hvs, List.getElem?_map] at hslot
    simpa using hslot

/-- The outcome of a join without a race in which no child and no launch fails. -/
theorem Sound.outcome_all (hs : Sound form n s) (hform : form.race = false) {o : Outcome ε α}
    (ho : s.parent = .finished o) (href : s.refused = none) (hfail : ∀ i < n, s.failure i = none) :
    ∃ vs, o = .all vs ∧ vs.length = n ∧
      ∀ i < n, ∃ v, vs[i]? = some v ∧ s.own i = some (.ok v) := by
  have hperm := (hs.order_perm_range ho href).2
  obtain ⟨vs, hmap, hlen, hvs⟩ := hs.exists_values hperm hfail
  have hend := hs.outcome_eq ho (.inr (by rintro rfl; exact nomatch hform))
  have herror : s.join.error = none := by
    rw [hs.error hform, href]
    refine List.findSome?_eq_none_iff.mpr fun i hi => ?_
    exact hfail i (mem_range.mp (hperm.mem_iff.mp hi))
  simp only [Form.conclude, hform, herror, hmap, Bool.false_eq_true, if_false] at hend
  exact ⟨vs, hend, hlen, hvs⟩

/-- **`when_all` drains, keeps the order of its inputs, and reports the first failure.** In every
run of any of its forms over any number of inputs:
* when the call ends, nothing is pending and every started child has finished. Without a failed
  launch every input was started; if no child fails, the result is the list of the results of the
  children in the order of the inputs, and it is the same in every other run with the same results,
  in whichever order the children complete; otherwise the exception of the child that was the first
  to fail is thrown. With a failed launch of the input `k` exactly the inputs before `k` were
  started, and the exception of the launch is thrown;
* when all started children have finished, the call ends as soon as the loop resumes it. -/
theorem whenAll_input_order (hform : form.race = false) (h : Reachable form n s) :
    (∀ o, s.parent = .finished o →
      s.join.pending = 0 ∧ (∀ i f, s.child i = some f → f.phase = .finished) ∧
      (s.refused = none → s.started = List.range n ∧ s.order.Perm (List.range n) ∧
        ((∀ i < n, s.failure i = none) →
          (∃ vs, o = .all vs ∧ vs.length = n ∧
            ∀ i < n, ∃ v, vs[i]? = some v ∧ s.own i = some (.ok v)) ∧
          ∀ form' t o', form'.race = false → Reachable form' n t → t.parent = .finished o' →
            t.refused = none → (∀ i < n, t.own i = s.own i) → o' = o) ∧
        ∀ before i after e, s.order = before ++ i :: after → (∀ j ∈ before, s.failure j = none) →
          s.own i = some (.error e) → o = .throws e) ∧
      ∀ k e, s.refused = some (k, e) → k < n ∧ s.started = List.range k ∧
        s.order.Perm (List.range k) ∧ o = .throws e) ∧
    (s.parent ≠ .start → (∀ i, s.parent ≠ .launching i) →
      (∀ i f, s.child i = some f → f.phase = .finished) →
      (∃ o, s.parent = .finished o) ∨ ∃ t o, Step form n s .wake t ∧ t.parent = .finished o) := by
  have hs := h.sound
  refine ⟨fun o ho => ?_, hs.progress⟩
  obtain ⟨hpending, hfinished⟩ := hs.drained ho
  have herror := hs.error hform
  have hend := hs.outcome_eq ho (.inr (by rintro rfl; exact nomatch hform))
  simp only [Form.conclude, hform, Bool.false_eq_true, if_false] at hend
  refine ⟨hpending, hfinished, fun href => ?_, fun k e href => ?_⟩
  · obtain ⟨hstarted, hperm⟩ := hs.order_perm_range ho href
    refine ⟨hstarted, hperm, fun hfail => ⟨hs.outcome_all hform ho href hfail, ?_⟩, ?_⟩
    · intro form' t o' hform' ht ho' href' hown
      have hfail' : ∀ i < n, t.failure i = none := by
        intro i hi
        rw [State.failure, hown i hi]
        exact hfail i hi
      obtain ⟨vs, rfl, hlen, hvs⟩ := hs.outcome_all hform ho href hfail
      obtain ⟨vs', rfl, hlen', hvs'⟩ := ht.sound.outcome_all hform' ho' href' hfail'
      -- both lists have the results of the children at the same places
      refine congrArg Outcome.all (ext_getElem? fun i => ?_)
      by_cases hi : i < n
      · obtain ⟨v, hv, hr⟩ := hvs i hi
        obtain ⟨v', hv', hr'⟩ := hvs' i hi
        rw [hown i hi, hr] at hr'
        rw [hv, hv', Except.ok.inj (Option.some.inj hr')]
      · rw [List.getElem?_eq_none (by omega), List.getElem?_eq_none (by omega)]
    · intro before i after e horder hbefore hi
      have hfirst : s.order.findSome? s.failure = some e := by
        rw [horder, List.findSome?_append, List.findSome?_eq_none_iff.mpr hbefore,
          List.findSome?_cons, failure_of_own hi]
        rfl
      rw [hend, herror, href, hfirst]
      rfl
  · obtain ⟨hk, hstarted, hperm⟩ := hs.order_perm_of_refused ho href
    refine ⟨hk, hstarted, hperm, ?_⟩
    rw [hend, herror, href]
    rfl

/-- A join of three inputs whose third launch fails, and then the first child as well. -/
theorem exists_refused : ∃ s : State ℕ ℕ, Reachable .allPack 3 s ∧
    s.parent = .finished (.throws 9) ∧
    s.refused = some (2, 9) ∧ s.own 0 = some (.error 5) := by
  refine exists_run_of_step (.enter rfl) ?_
  refine exists_run_of_step (.launch 0 none rfl (by decide)) ?_
  refine exists_run_of_step (.launch 1 none rfl (by decide)) ?_
  refine exists_run_of_step (.launch 2 (some 9) rfl (by decide)) ?_
  refine exists_run_of_step (.join rfl) ?_
  refine exists_run_of_step (.resume 1 _ (.inl rfl) rfl rfl) ?_
  refine exists_run_of_step (.resume 0 _ (.inl rfl) rfl rfl) ?_
  refine exists_run_of_step (.finish 0 (.ok 7) (some 5) _ (.inl rfl) rfl rfl) ?_
  refine exists_run_of_step (.finish 1 (.ok 8) none _ (.inl rfl) rfl rfl) ?_
  exact exists_run_of_step (.wake rfl) ⟨_, .refl, rfl, rfl, rfl⟩

/-- In this join the two children that were started are waited for. -/
theorem whenAll_input_order_refused : ∃ s : State ℕ ℕ, Reachable .allPack 3 s ∧
    s.parent = .finished (.throws 9) ∧ s.own 0 = some (.error 5) ∧ s.join.pending = 0 ∧
      s.started = [0, 1] ∧ s.order.Perm [0, 1] := by
  obtain ⟨s, hs, ho, href, hown⟩ := exists_refused
  have hjoin := (whenAll_input_order rfl hs).1 _ ho
  obtain ⟨-, hstarted, hperm, -⟩ := hjoin.2.2.2 2 9 href
  exact ⟨s, hs, ho, hown, hjoin.1, hstarted, hperm⟩

end Snowy.When
