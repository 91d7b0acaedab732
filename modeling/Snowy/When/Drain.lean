import Snowy.When.Join

/-!
# Joins wait for their children

The invariant of a join relates its shared state to the histories: `pending` is the number of
started children that have not finished, each slot holds the result of its own child, and `winner`
and `error` are decided by the first completion of a race, or by the first failure of a join without
a race. While the parent is in its launch loop all children wait in `ready_`, so none of this can
change before the parent has counted all of them.

## Main definitions

* `Snowy.When.Sound` : the invariant.

## Main results

* `Snowy.When.Sound.order_eq_nil` : no child completes while the parent launches.
* `Snowy.When.Reachable.sound` : the invariant holds in every state of every run.
* `Snowy.When.Sound.drained` : a finished join has waited for its children.
* `Snowy.When.Sound.progress` : the last child to finish wakes the parent.
-/

namespace Snowy.When

open Function List

variable {ε α : Type*}

/-- `findSome?` depends on the values of its function in the list. -/
theorem findSome?_congr {β γ : Type*} {f g : β → Option γ} {l : List β}
    (h : ∀ x ∈ l, f x = g x) : l.findSome? f = l.findSome? g := by
  induction l with
  | nil => rfl
  | cons x l ih =>
    rw [List.findSome?_cons, List.findSome?_cons, h x mem_cons_self,
      ih fun y hy => h y (mem_cons_of_mem x hy)]

/-! ### The completion step -/

namespace Join

variable (j : Join ε α) (value index : ℕ) (race : Bool) (r : Except ε α)

@[simp]
theorem pending_store : (j.store value r).pending = j.pending := by
  cases r <;> rfl

@[simp]
theorem done_store : (j.store value r).done = j.done := by
  cases r <;> rfl

@[simp]
theorem error_store : (j.store value r).error = j.error := by
  cases r <;> rfl

@[simp]
theorem stop_store : (j.store value r).stop = j.stop := by
  cases r <;> rfl

@[simp]
theorem winner_store : (j.store value r).winner = j.winner := by
  cases r <;> rfl

@[simp]
theorem pending_record : (j.record index race r).pending = j.pending := by
  unfold record
  split_ifs <;> rfl

@[simp]
theorem done_record : (j.record index race r).done = j.done := by
  unfold record
  split_ifs <;> rfl

@[simp]
theorem values_record : (j.record index race r).values = j.values := by
  unfold record
  split_ifs <;> rfl

@[simp]
theorem pending_publish : (j.publish value index race r).pending = j.pending - 1 := by
  simp [publish, retire]

@[simp]
theorem done_publish : (j.publish value index race r).done = (j.done || j.pending - 1 == 0) := by
  simp [publish, retire]

@[simp]
theorem length_values_publish : (j.publish value index race r).values.length = j.values.length := by
  cases r <;> simp [publish, retire, store]

/-- The result of a child is stored in its slot, and nowhere else. -/
theorem values_publish (h : j.values[value]? = some none) (i : ℕ) :
    (j.publish value index race r).values[i]? =
      if i = value then some r.toOption else j.values[i]? := by
  have hvalues : (j.publish value index race r).values = (j.store value r).values := by
    simp [publish, retire]
  rw [hvalues]
  by_cases hi : i = value
  · subst hi
    rw [if_pos rfl]
    cases r with
    | error e => exact h
    | ok v =>
      have hlt : i < j.values.length := List.getElem?_eq_some_iff.mp h |>.1
      exact List.getElem?_set_self hlt
  · rw [if_neg hi]
    cases r with
    | error e => rfl
    | ok v => exact List.getElem?_set_ne (Ne.symm hi)

/-- In a race the first completion decides. -/
theorem publish_race :
    (j.publish value index true r).winner = j.winner.or (some index) ∧
    (j.publish value index true r).error = (if j.winner.isNone then errorOf r else j.error) ∧
    (j.publish value index true r).stop = (j.stop || j.winner.isNone) := by
  cases hw : j.winner with
  | none => simp [publish, retire, record, hw]
  | some w => simp [publish, retire, record, hw]

/-- Without a race the first failure is kept. -/
theorem error_publish : (j.publish value index false r).error = j.error.or (errorOf r) := by
  cases he : j.error with
  | none => cases r <;> simp [publish, retire, record, he]
  | some e => simp [publish, retire, record, he]

end Join

/-! ### The invariant -/

/-- Where the parent is, with what it has found there. -/
def Place (form : Form) (n : ℕ) (s : State ε α) : Prop :=
  match s.parent with
  | .start => s.started = [] ∧ s.refused = none
  | .launching i => i ≤ n ∧ (s.refused = none → s.started.length = i) ∧
      (s.refused ≠ none → form = .allVector ∨ form = .anyVector → i = n) ∧
      ∀ j f, s.child j = some f → f.phase = .scheduled
  | .parked => s.join.pending ≠ 0 ∧ (s.refused = none → s.started.length = n)
  | .ready => s.join.pending = 0 ∧ (s.refused = none → s.started.length = n)
  | .finished o => s.join.pending = 0 ∧ (s.refused = none → s.started.length = n) ∧
      (n ≠ 0 ∨ form ≠ .anyVector → o = form.conclude s)

/-- The invariant of a join of `n` inputs. -/
structure Sound (form : Form) (n : ℕ) (s : State ε α) : Prop where
  frame : ∀ i f, s.child i = some f → f.value = i ∧ f.race = form.race ∧
    (form.race = true → f.index = i)
  started : s.started = List.range s.started.length
  length_le : s.started.length ≤ n
  child : ∀ i, (s.child i).isSome ↔ i ∈ s.started
  nodup : s.order.Nodup
  order : ∀ i, i ∈ s.order ↔ ∃ f, s.child i = some f ∧ f.phase = .finished
  own : ∀ i, (s.own i).isSome ↔ i ∈ s.order
  pending : s.join.pending + s.order.length = s.started.length
  done : s.join.done = true ↔ s.order ≠ [] ∧ s.join.pending = 0
  length_values : s.join.values.length = n
  values : ∀ i < n, s.join.values[i]? = some ((s.own i).bind Except.toOption)
  race : form.race = true → s.join.winner = s.order.head? ∧
    s.join.error = s.order.head?.bind s.failure ∧ s.startup = s.refused.map Prod.snd ∧
    s.join.stop = (s.refused.isSome || !s.order.isEmpty)
  error : form.race = false →
    s.join.error = (s.refused.map Prod.snd).or (s.order.findSome? s.failure)
  index : form = .anyTyped ∨ form = .anyVariant → s.refused = none → s.index = s.started.length
  refused : ∀ k e, s.refused = some (k, e) → k = s.started.length ∧ k < n
  place : Place form n s

variable {form : Form} {n : ℕ} {s : State ε α}

theorem sound_init : Sound form n (.init n : State ε α) where
  frame _ _ h := nomatch h
  started := rfl
  length_le := Nat.zero_le n
  child _ := by simp [State.init]
  nodup := nodup_nil
  order _ := by simp [State.init]
  own _ := by simp [State.init]
  pending := rfl
  done := by simp [State.init]
  length_values := length_replicate
  values i hi := by simp [State.init, hi]
  race _ := ⟨rfl, rfl, rfl, rfl⟩
  error _ := rfl
  index _ _ := rfl
  refused _ _ h := nomatch h
  place := ⟨rfl, rfl⟩

namespace Sound

/-- The launch loop at the input `i`. -/
theorem launching (hs : Sound form n s) {i : ℕ} (hp : s.parent = .launching i) :
    i ≤ n ∧ (s.refused = none → s.started.length = i) ∧
      (s.refused ≠ none → form = .allVector ∨ form = .anyVector → i = n) ∧
      ∀ j f, s.child j = some f → f.phase = .scheduled := by
  have hplace := hs.place
  rwa [Place, hp] at hplace

/-- **No child completes while the parent launches.** The children that were started are still in
`ready_`. -/
theorem order_eq_nil (hs : Sound form n s) {i : ℕ} (hp : s.parent = .launching i) :
    s.order = [] := by
  obtain ⟨-, -, -, hphase⟩ := hs.launching hp
  refine eq_nil_iff_forall_not_mem.mpr fun j hj => ?_
  obtain ⟨f, hf, hfinished⟩ := (hs.order j).mp hj
  exact nomatch (hphase j f hf).symm.trans hfinished

/-! ### The parent -/

/-- The frame of one child changes. -/
theorem child_update {i j : ℕ} {f g : Frame ε α} {child : ℕ → Option (Frame ε α)}
    (h : update child i (some f) j = some g) : j = i ∧ g = f ∨ j ≠ i ∧ child j = some g := by
  by_cases hj : j = i
  · subst hj
    rw [update_self] at h
    exact .inl ⟨rfl, (Option.some.inj h).symm⟩
  · rw [update_of_ne hj] at h
    exact .inr ⟨hj, h⟩

section

variable (hs : Sound form n s)
include hs

/-- The launch of a child. -/
theorem collect {i value index : ℕ} (idx : ℕ) (hp : s.parent = .launching i) (hi : i < n)
    (href : s.refused = none) (hvalue : value = i) (hindex : form.race = true → index = i)
    (hidx : form = .anyTyped ∨ form = .anyVariant → idx = i + 1) :
    Sound form n
      (((s.collect i value index form.race).setIndex idx).goto (.launching (i + 1))) := by
  obtain ⟨-, hlen, -, hphase⟩ := hs.launching hp
  have hlen := hlen href
  have hnew : i ∉ s.started := by
    rw [hs.started, hlen, mem_range]
    exact Nat.lt_irrefl i
  have hchild : s.child i = none :=
    Option.not_isSome_iff_eq_none.mp fun h => hnew ((hs.child i).mp h)
  have hne : ∀ j f, s.child j = some f → j ≠ i := by
    rintro j f hf rfl
    exact nomatch hf.symm.trans hchild
  exact
    { frame := by
        intro j f hf
        rcases child_update hf with ⟨rfl, rfl⟩ | ⟨-, hf⟩
        · exact ⟨hvalue, rfl, hindex⟩
        · exact hs.frame j f hf
      started := by
        change s.started ++ [i] = List.range (s.started ++ [i]).length
        rw [length_append, length_singleton, range_succ, ← hs.started, hlen]
      length_le := by
        change (s.started ++ [i]).length ≤ n
        rw [length_append, hlen]
        exact hi
      child := by
        intro j
        change (update s.child i _ j).isSome ↔ j ∈ s.started ++ [i]
        by_cases hj : j = i
        · subst hj
          simp
        · simp [hj, hs.child j]
      nodup := hs.nodup
      order := by
        intro j
        refine (hs.order j).trans ⟨fun ⟨f, hf, hfin⟩ => ⟨f, ?_, hfin⟩, fun ⟨f, hf, hfin⟩ => ?_⟩
        · exact (update_of_ne (hne j f hf) _ _).trans hf
        · rcases child_update hf with ⟨rfl, rfl⟩ | ⟨-, hf⟩
          · exact nomatch hfin
          · exact ⟨f, hf, hfin⟩
      own := hs.own
      pending := by
        have := hs.pending
        change s.join.pending + 1 + s.order.length = (s.started ++ [i]).length
        rw [length_append, length_singleton]
        omega
      done := by
        have hdone := hs.done
        rw [hs.order_eq_nil hp] at hdone
        change s.join.done = true ↔ s.order ≠ [] ∧ s.join.pending + 1 = 0
        rw [hdone, hs.order_eq_nil hp]
        simp
      length_values := hs.length_values
      values := hs.values
      race := hs.race
      error := hs.error
      index := by
        intro hform _
        change idx = (s.started ++ [i]).length
        rw [hidx hform, length_append, hlen, length_singleton]
      refused := by
        intro k e h
        exact nomatch h.symm.trans href
      place := by
        refine ⟨hi, fun _ => ?_, fun h => absurd href h, fun j f hf => ?_⟩
        · change (s.started ++ [i]).length = i + 1
          rw [length_append, hlen, length_singleton]
        · rcases child_update hf with ⟨rfl, rfl⟩ | ⟨-, hf⟩
          · rfl
          · exact hphase j f hf }

/-- The parent skips an input after a failed launch. -/
theorem skip {i : ℕ} (hp : s.parent = .launching i) (hi : i < n)
    (href : s.refused ≠ none) : Sound form n (s.goto (.launching (i + 1))) := by
  obtain ⟨-, -, hbreak, hphase⟩ := hs.launching hp
  exact
    { hs with
      place := ⟨hi, fun h => absurd h href, fun _ h => absurd (hbreak href h) (Nat.ne_of_lt hi),
        hphase⟩ }

/-- A failed launch in `when_all`. -/
theorem failAll {i m : ℕ} {e : ε} (hp : s.parent = .launching i) (hi : i < n) (hm : m ≤ n)
    (hbreak : form = .allVector ∨ form = .anyVector → m = n) (href : s.refused = none)
    (hform : form.race = false) : Sound form n ((s.failAll i e).goto (.launching m)) := by
  obtain ⟨-, hlen, -, hphase⟩ := hs.launching hp
  exact
    { hs with
      race := fun h => absurd (h.symm.trans hform) Bool.noConfusion
      error := fun _ => rfl
      index := fun _ h => nomatch h
      refused := by
        rintro k e' h
        cases h
        exact ⟨(hlen href).symm, hi⟩
      place := ⟨hm, fun h => absurd h (Option.some_ne_none (i, e)), fun _ => hbreak, hphase⟩ }

/-- A failed launch in `when_any`, with any change of the variable `index`. -/
theorem failAny {i m : ℕ} (idx : ℕ) {e : ε} (hp : s.parent = .launching i)
    (hi : i < n) (hm : m ≤ n) (hbreak : form = .allVector ∨ form = .anyVector → m = n)
    (href : s.refused = none) (hform : form.race = true) :
    Sound form n (((s.failAny i e).setIndex idx).goto (.launching m)) := by
  obtain ⟨-, hlen, -, hphase⟩ := hs.launching hp
  exact
    { hs with
      race := fun h => ⟨(hs.race h).1, (hs.race h).2.1, rfl, rfl⟩
      error := fun h => absurd (h.symm.trans hform) Bool.noConfusion
      index := fun _ h => nomatch h
      refused := by
        rintro k e' h
        cases h
        exact ⟨(hlen href).symm, hi⟩
      place := ⟨hm, fun h => absurd h (Option.some_ne_none (i, e)), fun _ => hbreak, hphase⟩ }

/-- The condition under which a pack skips an input: its launch loop has seen a failure. -/
theorem error_isSome {i : ℕ} (hp : s.parent = .launching i)
    (hform : form.race = false) : s.join.error.isSome = s.refused.isSome := by
  rw [hs.error hform, hs.order_eq_nil hp]
  cases s.refused <;> rfl

theorem startup_isSome (hform : form.race = true) : s.startup.isSome = s.refused.isSome := by
  rw [(hs.race hform).2.2.1]
  cases s.refused <;> rfl

/-- The launch loop at one input. -/
theorem launch {i : ℕ} (fault : Option ε) (hp : s.parent = .launching i)
    (hi : i < n) : Sound form n (form.launch n s i fault) := by
  obtain ⟨-, hlen, hbreak, -⟩ := hs.launching hp
  -- the loops over vectors do not go on after a failed launch
  have hvector : form = .allVector ∨ form = .anyVector → s.refused = none := by
    intro hform
    by_contra href
    exact Nat.ne_of_lt hi (hbreak href hform)
  cases form with
  | allVector =>
    have href := hvector (.inl rfl)
    cases fault with
    | none => exact hs.collect s.index hp hi href rfl nofun nofun
    | some e => exact hs.failAll hp hi (Nat.le_refl n) (fun _ => rfl) href rfl
  | allPack =>
    have herror := hs.error_isSome hp rfl
    simp only [Form.launch]
    split_ifs with h
    · exact hs.skip hp hi (Option.isSome_iff_ne_none.mp (herror.symm.trans h))
    · have href : s.refused = none := by simpa [herror] using h
      cases fault with
      | none => exact hs.collect s.index hp hi href rfl nofun nofun
      | some e => exact hs.failAll hp hi hi nofun href rfl
  | anyVector =>
    have href := hvector (.inr rfl)
    cases fault with
    | none => exact hs.collect s.index hp hi href rfl (fun _ => rfl) nofun
    | some e => exact hs.failAny s.index hp hi (Nat.le_refl n) (fun _ => rfl) href rfl
  | anyTyped =>
    have hstartup := hs.startup_isSome rfl
    simp only [Form.launch]
    split_ifs with h
    · exact hs.skip hp hi (Option.isSome_iff_ne_none.mp (hstartup.symm.trans h))
    · have href : s.refused = none := by simpa [hstartup] using h
      have hindex : s.index = i := (hs.index (.inl rfl) href).trans (hlen href)
      cases fault with
      | none =>
        exact hs.collect _ hp hi href hindex (fun _ => hindex) (fun _ => congrArg (· + 1) hindex)
      | some e => exact hs.failAny s.index hp hi hi nofun href rfl
  | anyVariant =>
    have hstartup := hs.startup_isSome rfl
    simp only [Form.launch]
    split_ifs with h
    · exact hs.skip hp hi (Option.isSome_iff_ne_none.mp (hstartup.symm.trans h))
    · have href : s.refused = none := by simpa [hstartup] using h
      have hindex : s.index = i := (hs.index (.inr rfl) href).trans (hlen href)
      cases fault with
      | none =>
        exact hs.collect _ hp hi href rfl (fun _ => hindex) (fun _ => congrArg (· + 1) hindex)
      | some e => exact hs.failAny _ hp hi hi nofun href rfl

/-- The end of the launch loop. -/
theorem drain (hp : s.parent = .launching n) : Sound form n (form.drain s) := by
  obtain ⟨-, hlen, -⟩ := hs.launching hp
  unfold Form.drain
  split_ifs with hpending hdone
  · exact absurd (hs.done.mp hdone).2 hpending
  · exact { hs with place := ⟨hpending, hlen⟩ }
  · exact { hs with place := ⟨not_not.mp hpending, hlen, fun _ => rfl⟩ }

theorem wake (hp : s.parent = .ready) : Sound form n (s.goto (.finished (form.conclude s))) := by
  have hplace := hs.place
  simp only [Place, hp] at hplace
  exact { hs with place := ⟨hplace.1, hplace.2, fun _ => rfl⟩ }

/-! ### The children -/

/-- When nothing is pending, the started children have finished in some order. -/
theorem order_perm (h : s.join.pending = 0) : s.order.Perm s.started := by
  have hsub : s.order ⊆ s.started := by
    intro i hi
    obtain ⟨f, hf, -⟩ := (hs.order i).mp hi
    exact (hs.child i).mp (hf ▸ rfl)
  have hlen := hs.pending
  exact (subperm_of_subset hs.nodup hsub).perm_of_length_le (by omega)

/-- When nothing is pending, every started child has finished. -/
theorem finished_of_pending (h : s.join.pending = 0) {i : ℕ} {f : Frame ε α}
    (hf : s.child i = some f) : f.phase = .finished := by
  have hi : i ∈ s.order := (hs.order_perm h).mem_iff.mpr ((hs.child i).mp (hf ▸ rfl))
  obtain ⟨f', hf', hfinished⟩ := (hs.order i).mp hi
  rwa [Option.some.inj (hf.symm.trans hf')]

section

variable {i : ℕ} {f : Frame ε α} (hf : s.child i = some f)
include hf

/-- The input of a child is under way only while the parent is suspended. -/
theorem suspended
    (hyield : f.phase ≠ .scheduled) (hfrom : f.phase ≠ .finished) : s.parent.Suspended := by
  have hplace := hs.place
  unfold Place at hplace
  cases hp : s.parent with
  | start =>
    simp only [hp] at hplace
    have hi : i ∈ s.started := (hs.child i).mp (hf ▸ rfl)
    rw [hplace.1] at hi
    exact absurd hi not_mem_nil
  | launching j =>
    simp only [hp] at hplace
    exact absurd (hplace.2.2.2 i f hf) hyield
  | parked => exact .inl rfl
  | ready => exact .inr rfl
  | finished o =>
    simp only [hp] at hplace
    exact absurd (hs.finished_of_pending hplace.1 hf) hfrom

/-- A child that has not finished moves on. -/
theorem move {p : Phase ε α} (hsuspended : s.parent.Suspended) (hfrom : f.phase ≠ .finished)
    (hto : p ≠ .finished) : Sound form n (s.move i f p) := by
  exact
    { hs with
      frame := by
        intro j g hg
        rcases child_update hg with ⟨rfl, rfl⟩ | ⟨-, hg⟩
        · exact hs.frame j f hf
        · exact hs.frame j g hg
      child := by
        intro j
        change (update s.child i _ j).isSome ↔ j ∈ s.started
        by_cases hj : j = i
        · subst hj
          simp [← hs.child, hf]
        · simp [hj, hs.child j]
      order := by
        intro j
        refine (hs.order j).trans ⟨fun ⟨g, hg, hfin⟩ => ⟨g, ?_, hfin⟩, fun ⟨g, hg, hfin⟩ => ?_⟩
        · refine (update_of_ne ?_ _ _).trans hg
          rintro rfl
          exact hfrom (Option.some.inj (hf.symm.trans hg) ▸ hfin)
        · rcases child_update hg with ⟨rfl, rfl⟩ | ⟨-, hg⟩
          · exact absurd hfin hto
          · exact ⟨g, hg, hfin⟩
      place := by
        have hplace := hs.place
        unfold Place at hplace ⊢
        rcases hsuspended with hp | hp
        · simpa only [State.move, hp] using hplace
        · simpa only [State.move, hp] using hplace }

/-- A child that has not finished is pending. -/
theorem pending_pos (hfrom : f.phase ≠ .finished) : 0 < s.join.pending := by
  by_contra h
  exact hfrom (hs.finished_of_pending (by omega) hf)

/-- A child that has not finished is not among those that have. -/
theorem not_mem_order (hfrom : f.phase ≠ .finished) : i ∉ s.order := by
  intro hi
  obtain ⟨g, hg, hfin⟩ := (hs.order i).mp hi
  exact hfrom (Option.some.inj (hf.symm.trans hg) ▸ hfin)

theorem mem_started : i ∈ s.started := (hs.child i).mp (hf ▸ rfl)

theorem lt_of_child : i < n := by
  have hstarted := hs.mem_started hf
  rw [hs.started, mem_range] at hstarted
  exact Nat.lt_of_lt_of_le hstarted hs.length_le

end

end

section complete

variable (hs : Sound form n s) {i : ℕ} {f : Frame ε α} (r : Except ε α) (hf : s.child i = some f)

/-- The results of the children that have finished before stay what they are. -/
theorem failure_complete_of_ne {j : ℕ} (hj : j ≠ i) : (s.complete i f r).failure j = s.failure j :=
  congrArg (Option.bind · errorOf) (update_of_ne hj _ _)

theorem failure_complete_self : (s.complete i f r).failure i = errorOf r := by
  change (update s.own i (some r) i).bind errorOf = errorOf r
  rw [update_self]
  rfl

include hs hf

/-- The child fills its own slot. -/
theorem values_complete (hfrom : f.phase ≠ .finished) (j : ℕ) (hj : j < n) :
    (s.complete i f r).join.values[j]? =
      some (((s.complete i f r).own j).bind Except.toOption) := by
  have hown : s.own i = none :=
    Option.not_isSome_iff_eq_none.mp fun h => hs.not_mem_order hf hfrom ((hs.own i).mp h)
  have hslot : s.join.values[f.value]? = some none := by
    rw [(hs.frame i f hf).1, hs.values i (hs.lt_of_child hf), hown]
    rfl
  change (s.join.publish ..).values[j]? =
    some ((update s.own i (some r) j).bind Except.toOption)
  rw [Join.values_publish _ _ _ _ _ hslot, (hs.frame i f hf).1]
  by_cases hji : j = i
  · subst hji
    rw [if_pos rfl, update_self]
    rfl
  · rw [if_neg hji, update_of_ne hji, hs.values j hj]

/-- In a race only the first completion counts. -/
theorem race_complete (hfrom : f.phase ≠ .finished) (hform : form.race = true) :
    (s.complete i f r).join.winner = (s.order ++ [i]).head? ∧
      (s.complete i f r).join.error =
        (s.order ++ [i]).head?.bind (s.complete i f r).failure ∧
      s.startup = s.refused.map Prod.snd ∧
      (s.complete i f r).join.stop = (s.refused.isSome || !(s.order ++ [i]).isEmpty) := by
  obtain ⟨hwinner, herror, hstartup, hstop⟩ := hs.race hform
  obtain ⟨-, hrace, hindex⟩ := hs.frame i f hf
  have hpublish := s.join.publish_race f.value f.index r
  rw [hindex hform] at hpublish
  change (s.join.publish f.value f.index f.race r).winner = _ ∧
    (s.join.publish f.value f.index f.race r).error = _ ∧ _ ∧
    (s.join.publish f.value f.index f.race r).stop = _
  rw [hrace, hform, hindex hform, hpublish.1, hpublish.2.1, hpublish.2.2, hwinner, herror,
    hstartup, hstop]
  cases horder : s.order with
  | nil => simp [failure_complete_self]
  | cons w rest =>
    have hw : w ≠ i := by
      rintro rfl
      exact hs.not_mem_order hf hfrom (horder ▸ mem_cons_self)
    simp [failure_complete_of_ne r hw]

/-- Otherwise the first failure is kept. -/
theorem error_complete (hfrom : f.phase ≠ .finished) (hform : form.race = false) :
    (s.complete i f r).join.error =
      (s.refused.map Prod.snd).or ((s.order ++ [i]).findSome? (s.complete i f r).failure) := by
  have hrace := (hs.frame i f hf).2.1
  have hfind : s.order.findSome? (s.complete i f r).failure = s.order.findSome? s.failure :=
    findSome?_congr fun j hj =>
      failure_complete_of_ne r fun h => hs.not_mem_order hf hfrom (h ▸ hj)
  change (s.join.publish f.value f.index f.race r).error = _
  rw [hrace, hform, Join.error_publish, hs.error hform, List.findSome?_append, hfind]
  simp [failure_complete_self, Option.or_assoc]

/-- The last completion wakes the parent. -/
theorem place_complete (hsuspended : s.parent.Suspended) (hfrom : f.phase ≠ .finished) :
    Place form n (s.complete i f r) := by
  have hpos := hs.pending_pos hf hfrom
  have hplace := hs.place
  unfold Place at hplace ⊢
  rcases hsuspended with hp | hp
  · simp only [hp] at hplace
    by_cases hlast : s.join.pending - 1 = 0
    · simp only [State.complete, hp, hlast]
      exact ⟨by simp [hlast], hplace.2⟩
    · simp only [State.complete, hp, hlast]
      exact ⟨by simpa using hlast, hplace.2⟩
  · simp only [hp] at hplace
    omega

/-- The completion step of a child. -/
theorem complete (hsuspended : s.parent.Suspended) (hfrom : f.phase ≠ .finished) :
    Sound form n (s.complete i f r) := by
  have hpos := hs.pending_pos hf hfrom
  have hnew := hs.not_mem_order hf hfrom
  exact
    { frame := by
        intro j g hg
        rcases child_update hg with ⟨rfl, rfl⟩ | ⟨-, hg⟩
        · exact hs.frame j f hf
        · exact hs.frame j g hg
      started := hs.started
      length_le := hs.length_le
      child := by
        intro j
        change (update s.child i _ j).isSome ↔ j ∈ s.started
        by_cases hj : j = i
        · subst hj
          simp [hs.mem_started hf]
        · simp [hj, hs.child j]
      nodup := nodup_append.mpr ⟨hs.nodup, nodup_singleton i, by
        rintro j hj k hk rfl
        exact hnew (mem_singleton.mp hk ▸ hj)⟩
      order := by
        intro j
        change j ∈ s.order ++ [i] ↔ ∃ g, update s.child i _ j = some g ∧ _
        by_cases hj : j = i
        · subst hj
          simp
        · simp [hj, hs.order j]
      own := by
        intro j
        change (update s.own i _ j).isSome ↔ j ∈ s.order ++ [i]
        by_cases hj : j = i
        · subst hj
          simp
        · simp [hj, hs.own j]
      pending := by
        have hpending := hs.pending
        change (s.join.publish ..).pending + (s.order ++ [i]).length = s.started.length
        rw [Join.pending_publish, length_append, length_singleton]
        omega
      done := by
        have hdone : s.join.done = false := by
          by_contra h
          have := (hs.done.mp (Bool.of_not_eq_false h)).2
          omega
        change (s.join.publish ..).done = true ↔
          s.order ++ [i] ≠ [] ∧ (s.join.publish ..).pending = 0
        simp [hdone]
      length_values := by
        change (s.join.publish ..).values.length = n
        rw [Join.length_values_publish, hs.length_values]
      values := hs.values_complete r hf hfrom
      race := hs.race_complete r hf hfrom
      error := hs.error_complete r hf hfrom
      index := hs.index
      refused := hs.refused
      place := hs.place_complete r hf hsuspended hfrom }

end complete

theorem enter (hs : Sound form n s) (hp : s.parent = .start) : Sound form n (form.enter n s) := by
  have hplace := hs.place
  simp only [Place, hp] at hplace
  obtain ⟨hstarted, href⟩ := hplace
  have hlen : s.started.length = 0 := congrArg List.length hstarted
  unfold Form.enter
  split_ifs with hempty
  · obtain ⟨rfl, rfl⟩ := hempty
    have hpending := hs.pending
    refine { hs with place := ⟨?_, fun _ => hlen, fun h => ?_⟩ }
    · change s.join.pending = 0
      omega
    · exact absurd h (by simp)
  · refine { hs with place := ⟨Nat.zero_le n, fun _ => hlen, fun h => absurd href h, ?_⟩ }
    intro j f hf
    have hj : j ∈ s.started := (hs.child j).mp (by rw [show s.child j = some f from hf]; rfl)
    rw [hstarted] at hj
    exact absurd hj not_mem_nil

/-- Every step keeps the invariant. -/
theorem step {t : State ε α} {a : Act ε α} (hs : Sound form n s) (h : Step form n s a t) :
    Sound form n t := by
  cases h with
  | enter h => exact hs.enter h
  | launch i fault h hi => exact hs.launch fault h hi
  | join h => exact hs.drain h
  | wake h => exact hs.wake h
  | resume i f free h at_yield => exact hs.move h free (at_yield ▸ nofun) nofun
  | migrate i l f l₀ h at_input =>
    exact hs.move h (hs.suspended h (at_input ▸ nofun) (at_input ▸ nofun)) (at_input ▸ nofun) nofun
  | leave i r f l h at_input away =>
    exact hs.move h (hs.suspended h (at_input ▸ nofun) (at_input ▸ nofun)) (at_input ▸ nofun) nofun
  | finish i r fault f free h at_input => exact hs.complete _ h free (at_input ▸ nofun)
  | deliver i r fault f free h at_hop => exact hs.complete _ h free (at_hop ▸ nofun)

end Sound

/-- The invariant holds in every state of every run. -/
theorem Reachable.sound (h : Reachable form n s) : Sound form n s :=
  h.induction sound_init fun hs hstep => hs.step hstep

/-! ### Histories -/

variable {t : State ε α} {a : Act ε α}

theorem order_launch (i : ℕ) (fault : Option ε) :
    (form.launch n s i fault).order = s.order ∧ (form.launch n s i fault).own = s.own := by
  cases form with
  | allVector | anyVector => cases fault <;> exact ⟨rfl, rfl⟩
  | allPack | anyTyped | anyVariant =>
    simp only [Form.launch]
    cases fault <;> split_ifs <;> exact ⟨rfl, rfl⟩

/-- The histories grow by one completion at a time. -/
theorem Step.order_eq (h : Step form n s a t) :
    t.order = s.order ∧ t.own = s.own ∨
      ∃ i r, t.order = s.order ++ [i] ∧ t.own = update s.own i (some r) := by
  cases h with
  | enter _ =>
    unfold Form.enter
    split_ifs <;> exact .inl ⟨rfl, rfl⟩
  | launch i fault _ _ => exact .inl (order_launch i fault)
  | join _ =>
    unfold Form.drain
    split_ifs <;> exact .inl ⟨rfl, rfl⟩
  | finish i r fault f _ _ _ => exact .inr ⟨i, _, rfl, rfl⟩
  | deliver i r fault f _ _ _ => exact .inr ⟨i, _, rfl, rfl⟩
  | _ => exact .inl ⟨rfl, rfl⟩

/-! ### The end of a join -/

namespace Sound

section

variable (hs : Sound form n s)
include hs

/-- A finished join has waited for all its children. -/
theorem drained {o : Outcome ε α} (ho : s.parent = .finished o) :
    s.join.pending = 0 ∧ ∀ i f, s.child i = some f → f.phase = .finished := by
  have hplace := hs.place
  simp only [Place, ho] at hplace
  exact ⟨hplace.1, fun i f hf => hs.finished_of_pending hplace.1 hf⟩

theorem outcome_eq {o : Outcome ε α} (ho : s.parent = .finished o)
    (hn : n ≠ 0 ∨ form ≠ .anyVector) : o = form.conclude s := by
  have hplace := hs.place
  simp only [Place, ho] at hplace
  exact hplace.2.2 hn

/-- Without a failed launch all inputs were started, and their children have finished. -/
theorem order_perm_range {o : Outcome ε α} (ho : s.parent = .finished o)
    (href : s.refused = none) : s.started = List.range n ∧ s.order.Perm (List.range n) := by
  have hplace := hs.place
  simp only [Place, ho] at hplace
  have hstarted : s.started = List.range n := by
    rw [hs.started, hplace.2.1 href]
  exact ⟨hstarted, hstarted ▸ hs.order_perm hplace.1⟩

/-- With a failed launch the inputs before it were started, and their children have finished. -/
theorem order_perm_of_refused {o : Outcome ε α}
    (ho : s.parent = .finished o) {k : ℕ} {e : ε} (href : s.refused = some (k, e)) :
    k < n ∧ s.started = List.range k ∧ s.order.Perm (List.range k) := by
  obtain ⟨hk, hlt⟩ := hs.refused k e href
  have hstarted : s.started = List.range k := by
    rw [hs.started, ← hk]
  exact ⟨hlt, hstarted, hstarted ▸ hs.order_perm (hs.drained ho).1⟩

/-- **No lost wake-up.** When the children have finished, the parent has ended, or it is in `ready_`
and ends when it is resumed. -/
theorem progress (hstart : s.parent ≠ .start) (hlaunch : ∀ i, s.parent ≠ .launching i)
    (hfinished : ∀ i f, s.child i = some f → f.phase = .finished) :
    (∃ o, s.parent = .finished o) ∨ ∃ t o, Step form n s .wake t ∧ t.parent = .finished o := by
  have hplace := hs.place
  unfold Place at hplace
  cases hp : s.parent with
  | start => exact absurd hp hstart
  | launching i => exact absurd hp (hlaunch i)
  | parked =>
    simp only [hp] at hplace
    -- every started child is in the list of those that have finished
    have hsub : s.started ⊆ s.order := by
      intro i hi
      obtain ⟨f, hf⟩ := Option.isSome_iff_exists.mp ((hs.child i).mpr hi)
      exact (hs.order i).mpr ⟨f, hf, hfinished i f hf⟩
    have hnodup : s.started.Nodup := hs.started ▸ nodup_range
    have hle := (subperm_of_subset hnodup hsub).length_le
    have hpending := hs.pending
    omega
  | ready => exact .inr ⟨_, _, .wake hp, rfl⟩
  | finished o => exact .inl ⟨o, rfl⟩

/-- The slot of a child holds its result. -/
theorem values_own {i : ℕ} {v : α} (hi : i < n)
    (hown : s.own i = some (.ok v)) : s.join.values[i]? = some (some v) := by
  rw [hs.values i hi, hown]
  rfl

/-- A child that has finished has a result. -/
theorem exists_own {i : ℕ} (hi : i ∈ s.order) : ∃ r, s.own i = some r :=
  Option.isSome_iff_exists.mp ((hs.own i).mpr hi)

theorem lt_of_mem_order {i : ℕ} (hi : i ∈ s.order) : i < n := by
  obtain ⟨f, hf, -⟩ := (hs.order i).mp hi
  have hstarted : i ∈ s.started := (hs.child i).mp (hf ▸ rfl)
  rw [hs.started, mem_range] at hstarted
  exact Nat.lt_of_lt_of_le hstarted hs.length_le

end

end Sound

theorem failure_of_own {i : ℕ} {r : Except ε α} (h : s.own i = some r) :
    s.failure i = errorOf r := by
  rw [State.failure, h]
  rfl

end Snowy.When
