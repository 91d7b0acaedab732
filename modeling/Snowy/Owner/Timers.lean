import Snowy.Owner.Completion

/-!
# The queue of timers

`timers_` is a vector that the standard heap algorithms keep ordered by deadline. A timer is
appended before it is armed and taken off again if `arm` refuses or throws; `expire()` removes
canceled timers in bulk, which destroys the order, and rebuilds the heap before it takes off the
timers that are due.

The functions are those of `Snowy.World`. What this file adds is a clock, which never goes back, and
the account of what one call of `expire()` completes, in which order and with which results.

## Main definitions

* `Snowy.World.Later` : a later state of a run, with the readings of the clock.
* `Snowy.World.FinishesAll` : some operations are completed, one after another.
* `Snowy.World.Expires` : what a call of `expire()` does to the timers.

## Main results

* `Snowy.World.expires_expire` : the account of `expire()`.
* `Snowy.World.timers_in_order` : the queue of timers in all runs.
-/

namespace Snowy.World

open List

variable {α : Type*} {H : HeapRange ℕ ℤ} {w w₁ w' : World α} {id : ℕ} {e : Option Errc}
  {ids ids' l : List ℕ} {now now' : ℤ}

/-! ### Completion of several operations -/

/-- The operations `ids` are completed in this order with the result `e`, and no other is. -/
structure FinishesAll (e : Option Errc) (ids : List ℕ) (w w' : World α) : Prop where
  ready : w'.loop.ready = w.loop.ready ++ ids
  waits : w'.loop.waits = w.loop.waits
  same : ∀ i, (w.op i).Same (w'.op i)
  done : ∀ i ∈ ids, (w'.op i).active = false ∧ (w'.op i).error = e
  calm : ∀ i ∉ ids, (w'.op i).active = (w.op i).active ∧ (w'.op i).error = (w.op i).error

theorem Quiet.finishesAll {t : Set ℕ} (h : Quiet t w w') : FinishesAll e [] w w' where
  ready := by rw [h.ready, append_nil]
  waits := h.waits
  same i := (h.op i).toSame
  done := nofun
  calm i _ := ⟨(h.op i).active, (h.op i).error⟩

theorem FinishesAll.trans (h : FinishesAll e ids w w₁) (h' : FinishesAll e ids' w₁ w')
    (hdisjoint : ids.Disjoint ids') : FinishesAll e (ids ++ ids') w w' where
  ready := by rw [h'.ready, h.ready, append_assoc]
  waits := h'.waits.trans h.waits
  same i := (h.same i).trans (h'.same i)
  done i hi := by
    rcases mem_append.mp hi with hi | hi
    · obtain ⟨hactive, herror⟩ := h'.calm i (hdisjoint hi)
      rw [hactive, herror]
      exact h.done i hi
    · exact h'.done i hi
  calm i hi := by
    rw [mem_append, not_or] at hi
    obtain ⟨hactive, herror⟩ := h.calm i hi.1
    obtain ⟨hactive', herror'⟩ := h'.calm i hi.2
    exact ⟨hactive'.trans hactive, herror'.trans herror⟩

theorem finishesAll_finish (w : World α) (id : ℕ) :
    FinishesAll (w.op id).error [id] w (w.finish id) where
  ready := rfl
  waits := rfl
  same i := by
    rw [op_finish]
    split_ifs with h
    · exact h ▸ {}
    · exact {}
  done i hi := by
    rw [mem_singleton.mp hi, op_finish, if_pos rfl]
    exact ⟨rfl, rfl⟩
  calm i hi := by
    rw [op_finish, if_neg (mt mem_singleton.mpr hi)]
    exact ⟨rfl, rfl⟩

theorem finishesAll_fail_finish (w : World α) (id : ℕ) (error : Errc) :
    FinishesAll (some error) [id] w ((w.fail id error).finish id) where
  ready := rfl
  waits := rfl
  same i := by
    rw [op_finish]
    split_ifs with h
    · rw [h, op_fail, if_pos rfl]
      exact {}
    · rw [op_fail, if_neg h]
      exact {}
  done i hi := by
    rw [mem_singleton.mp hi, op_finish, if_pos rfl, op_fail, if_pos rfl]
    exact ⟨rfl, rfl⟩
  calm i hi := by
    have hne := mt mem_singleton.mpr hi
    rw [op_finish, if_neg hne, op_fail, if_neg hne]
    exact ⟨rfl, rfl⟩

/-! ### The parts of `expire()` -/

/-- The scan of the timers completes those that it does not keep, in their order. -/
theorem finishesAll_scanTimers (all : Bool) (w : World α) (hl : l.Nodup) : ∃ gone,
    FinishesAll (some .operationCanceled) gone w (scanTimers all w l).1 ∧
      (gone ++ (scanTimers all w l).2).Perm l := by
  induction l generalizing w with
  | nil => exact ⟨[], Quiet.finishesAll (t := ∅) {}, .refl _⟩
  | cons id rest ih =>
    obtain ⟨hid, hrest⟩ := nodup_cons.mp hl
    have hi := Quiet.interfere (t := ∅) w
    unfold scanTimers
    dsimp only
    split_ifs
    · obtain ⟨gone, hgone, hperm⟩ := ih ((w.interfere.fail id .operationCanceled).finish id) hrest
      have hfirst := hi.finishesAll.trans
        (finishesAll_fail_finish w.interfere id .operationCanceled) (disjoint_nil_left _)
      have hnot : id ∉ gone := fun h => hid (hperm.subset (mem_append_left _ h))
      exact ⟨id :: gone, hfirst.trans hgone (singleton_disjoint.mpr hnot), hperm.cons id⟩
    · obtain ⟨gone, hgone, hperm⟩ := ih w.interfere hrest
      exact ⟨gone, hi.finishesAll.trans hgone (disjoint_nil_left _),
        perm_middle.trans (hperm.cons id)⟩

/-- The scan of the waits completes some of them, and no timer. -/
theorem scanWaits_frame (all : Bool) (w : World α) (l : List ℕ) : ∃ woken, woken ⊆ l ∧
    (scanWaits all w l).loop.ready = w.loop.ready ++ woken ∧
    (scanWaits all w l).loop.timers = w.loop.timers ∧
    ∀ i ∉ l, (w.op i).Calm ((scanWaits all w l).op i) := by
  induction l generalizing w with
  | nil => exact ⟨[], List.Subset.refl _, (append_nil _).symm, rfl, fun _ _ => {}⟩
  | cons id rest ih =>
    have hi := Quiet.interfere (t := ∅) w
    unfold scanWaits
    dsimp only
    split_ifs
    · obtain ⟨woken, hsub, hready, htimers, hcalm⟩ :=
        ih ((w.interfere.fail id .operationCanceled).notify id)
      have hnotify := Owner.loop_notify (w.interfere.fail id .operationCanceled).toOwner id
      have hready₁ : ∃ first ⊆ [id],
          ((w.interfere.fail id .operationCanceled).notify id).loop.ready =
            w.loop.ready ++ first := by
        rw [World.notify, hnotify]
        dsimp only
        split_ifs
        · exact ⟨[id], List.Subset.refl _, congrArg (· ++ [id]) hi.ready⟩
        · exact ⟨[], nil_subset _, hi.ready.trans (append_nil _).symm⟩
      obtain ⟨first, hfirst, hready₁⟩ := hready₁
      refine ⟨first ++ woken, ?_, ?_, ?_, fun i hi' => ?_⟩
      · exact append_subset.mpr ⟨fun i h => mem_singleton.mp (hfirst h) ▸
          mem_cons_self, fun i h => mem_cons_of_mem _ (hsub h)⟩
      · rw [hready, hready₁, append_assoc]
      · rw [htimers, World.notify, hnotify]
        exact hi.timers
      · obtain ⟨hne, hrest⟩ := not_or.mp (mt mem_cons.mpr hi')
        have hop : ((w.interfere.fail id .operationCanceled).notify id).op i =
            w.interfere.op i := by
          rw [op_notify, if_neg fun h => hne h.1, op_fail, if_neg hne]
        exact (hi.op i).trans (hop ▸ hcalm i hrest)
    · obtain ⟨woken, hsub, hready, htimers, hcalm⟩ := ih w.interfere
      refine ⟨woken, fun i h => mem_cons_of_mem _ (hsub h), ?_, htimers.trans hi.timers, ?_⟩
      · rw [hready, hi.ready]
      · exact fun i hi' => (hi.op i).trans (hcalm i (not_or.mp (mt mem_cons.mpr hi')).2)

/-- The end of `expire()` completes exactly the timers that are due, the earliest first. -/
theorem finishesAll_expireDue (now : ℤ) {fuel : ℕ} (hheap : IsHeap w.due w.loop.timers)
    (hnodup : w.loop.timers.Nodup) (herror : ∀ i ∈ w.loop.timers, (w.op i).error = none)
    (hfuel : w.loop.timers.length ≤ fuel) : ∃ due, FinishesAll none due w (expireDue H now fuel w) ∧
      (due ++ (expireDue H now fuel w).loop.timers).Perm w.loop.timers ∧
      (due.Pairwise fun i j => w.due i ≤ w.due j) ∧ (∀ i ∈ due, w.due i ≤ now) ∧
      ∀ i ∈ (expireDue H now fuel w).loop.timers, now < w.due i := by
  induction fuel generalizing w with
  | zero =>
    have hnil := length_eq_zero_iff.mp (Nat.le_zero.mp hfuel)
    refine ⟨[], Quiet.finishesAll (t := ∅) {}, .refl _, .nil, nofun, fun i hi => ?_⟩
    exact absurd (hnil ▸ hi) not_mem_nil
  | succ fuel ih =>
    unfold expireDue
    cases htimers : w.loop.timers with
    | nil =>
      rw [htimers]
      exact ⟨[], Quiet.finishesAll (t := ∅) {}, .refl _, .nil, nofun, nofun⟩
    | cons id rest =>
      rw [htimers] at hheap hnodup herror hfuel
      dsimp only
      split_ifs with hdue
      · obtain ⟨hperm, hheap'⟩ := H.pop_dropLast hheap
        let w₁ := (w.setTimers (H.pop w.due (id :: rest)).dropLast).finish id
        have hfirst : FinishesAll none [id] w w₁ := by
          have h := finishesAll_finish (w.setTimers (H.pop w.due (id :: rest)).dropLast) id
          rw [show ((w.setTimers (H.pop w.due (id :: rest)).dropLast).op id).error = none from
            herror id mem_cons_self] at h
          exact ⟨h.ready, h.waits, h.same, h.done, h.calm⟩
        have hkey : w₁.due = w.due := funext fun i => (hfirst.same i).due
        have hstore : w₁.loop.timers = (H.pop w.due (id :: rest)).dropLast := rfl
        have hnodup' := nodup_cons.mp hnodup
        obtain ⟨due, hfinishes, hperm', hsorted, hle, hlt⟩ := ih (w := w₁)
          (by rw [hkey, hstore]; exact hheap')
          (by rw [hstore]; exact hperm.nodup_iff.mpr hnodup'.2)
          (fun i hi => by
            have hmem : i ∈ rest := hperm.subset (hstore ▸ hi)
            rw [(hfirst.calm i (mt mem_singleton.mp ?_)).2]
            · exact herror i (mem_cons_of_mem _ hmem)
            · rintro rfl
              exact hnodup'.1 hmem)
          (by
            rw [hstore, hperm.length_eq]
            exact Nat.le_of_succ_le_succ hfuel)
        rw [hkey] at hsorted hle hlt
        have hsub : ∀ i ∈ due, i ∈ rest := fun i hi =>
          hperm.subset (hstore ▸ hperm'.subset (mem_append_left _ hi))
        refine ⟨id :: due, hfirst.trans hfinishes (singleton_disjoint.mpr fun h =>
          hnodup'.1 (hsub id h)), (hperm'.trans (hstore ▸ hperm)).cons id, ?_, ?_, hlt⟩
        · exact .cons (fun i hi => hheap.front_le (mem_cons_of_mem _ (hsub i hi))) hsorted
        · intro i hi
          rcases mem_cons.mp hi with rfl | hi
          · exact hdue
          · exact hle i hi
      · refine ⟨[], Quiet.finishesAll (t := ∅) {}, htimers ▸ .refl _, .nil, nofun, fun i hi => ?_⟩
        exact lt_of_lt_of_le (not_le.mp hdue) (hheap.front_le (htimers ▸ hi))

/-- What `expire()` relies on: the timers are in no other list, and none of them has a result. -/
structure Queued (w : World α) : Prop where
  nodup : w.loop.timers.Nodup
  error : ∀ i ∈ w.loop.timers, (w.op i).error = none
  waits : ∀ i ∈ w.loop.timers, i ∉ w.loop.waits

theorem Regular.queued {t : Set ℕ} {w₀ : World α} (hr : Regular t w₀ w) : Queued w where
  nodup := hr.sound.timers_nodup
  error i hi := (hr.sound.pending i (hr.sound.timer i hi).2).2.2
  waits i hi := hr.sound.not_mem_waits (hr.sound.timer i hi).1

theorem Queued.quiet {t : Set ℕ} (hw : Queued w) (h : Quiet t w w') : Queued w' where
  nodup := h.timers ▸ hw.nodup
  error i hi := (h.op i).error.trans (hw.error i (h.timers ▸ hi))
  waits i hi := h.waits ▸ hw.waits i (h.timers ▸ hi)

/-- The timers `gone` were completed with an error, and then the waits `woken`; the other timers are
a heap. -/
structure Cleared (w w' : World α) (gone woken : List ℕ) : Prop where
  ready : w'.loop.ready = w.loop.ready ++ gone ++ woken
  perm : (gone ++ w'.loop.timers).Perm w.loop.timers
  heap : IsHeap w'.due w'.loop.timers
  gone_done : ∀ i ∈ gone,
    (w'.op i).active = false ∧ (w'.op i).error = some .operationCanceled
  error : ∀ i ∈ w'.loop.timers, (w'.op i).error = none
  due : ∀ i ∈ w.loop.timers, w'.due i = w.due i

/-- What `expire()` does when `cancel_` was set: it completes all timers that had been canceled, and
leaves a heap of the others. -/
theorem cancelPending_timers (hw : Queued w) :
    ∃ gone woken, Cleared w (w.cancelPending H) gone woken ∧
      ∀ i ∈ w.loop.timers, (w.op i).canceled = true ∨ w.loop.stopping = true → i ∈ gone := by
  have hi := Quiet.interfere (t := ∅) w
  let all := w.interfere.loop.stopping
  let kept := (scanTimers all w.interfere w.interfere.loop.timers).2
  let w₂ := (scanTimers all w.interfere w.interfere.loop.timers).1
  let w₃ := w₂.setTimers (H.make w₂.due kept)
  obtain ⟨gone, hgone, hperm⟩ := finishesAll_scanTimers all w.interfere (hw.quiet hi).nodup
  replace hperm : (gone ++ kept).Perm w.loop.timers := hperm.trans (.of_eq hi.timers)
  obtain ⟨woken, -, hready, htimers, hcalm⟩ := scanWaits_frame all w₃ w₃.loop.waits
  have hmake : ∀ i, i ∈ H.make w₂.due kept ↔ i ∈ kept := fun i => H.mem_make
  -- a timer is in no list of the waits, so the second scan does not touch it
  have htimer : ∀ i ∈ w.loop.timers, (w₂.op i).Calm ((w.cancelPending H).op i) := fun i hmem => by
    refine hcalm i ?_
    change i ∉ w₂.loop.waits
    rw [hgone.waits, hi.waits]
    exact hw.waits i hmem
  have hdue : ∀ i ∈ w.loop.timers, (w.cancelPending H).due i = w₂.due i := fun i hmem =>
    (htimer i hmem).due
  have hstore : (w.cancelPending H).loop.timers = H.make w₂.due kept := htimers
  have hkept : ∀ i ∈ kept, i ∈ w.loop.timers ∧ i ∉ gone := fun i hmem =>
    ⟨hperm.subset (mem_append_right _ hmem), fun h =>
      disjoint_of_nodup_append (hperm.nodup_iff.mpr hw.nodup) h hmem⟩
  refine ⟨gone, woken, ⟨?_, ?_, ?_, fun i h => ?_, fun i h => ?_, fun i h => ?_⟩,
    fun i h hflag => ?_⟩
  · refine hready.trans (congrArg (· ++ woken) ?_)
    rw [← hi.ready]
    exact hgone.ready
  · rw [hstore]
    exact ((H.make_perm _ _).append_left _).trans hperm
  · rw [hstore]
    exact (H.make_isHeap w₂.due kept).congr fun i h => hdue i (hkept i ((hmake i).mp h)).1
  · have hcalm := htimer i (hperm.subset (mem_append_left _ h))
    rw [hcalm.active, hcalm.error]
    exact hgone.done i h
  · obtain ⟨hmem, hnot⟩ := hkept i ((hmake i).mp (hstore ▸ h))
    rw [(htimer i hmem).error, (hgone.calm i hnot).2, (hi.op i).error]
    exact hw.error i hmem
  · rw [hdue i h]
    exact (hgone.same i).due.trans (hi.op i).due
  · by_contra hnot
    have hmem : i ∈ kept :=
      (mem_append.mp (hperm.symm.subset h)).resolve_left hnot
    obtain ⟨hall, hcanceled⟩ := not_canceled_of_mem_scanTimers hmem
    rcases hflag with hflag | hflag
    · exact Bool.false_ne_true (hcanceled.symm.trans ((hi.op i).canceled hflag))
    · exact Bool.false_ne_true (hall.symm.trans (hi.stopping hflag))

/-- What a call of `expire()` at the time `now` does to the timers. First it completes the timers
`gone` with an error, then some waits, then the timers `due` without an error. The state `x` is the
one in which `cancel_` is exchanged. -/
structure Expires (now : ℤ) (w x w' : World α) (gone due : List ℕ) : Prop where
  ready : ∃ woken, w'.loop.ready = w.loop.ready ++ gone ++ woken ++ due
  perm : (gone ++ due ++ w'.loop.timers).Perm w.loop.timers
  unset : x.loop.cancel = false → gone = []
  canceled : x.loop.cancel = true → ∀ i ∈ w.loop.timers,
    (x.op i).canceled = true ∨ x.loop.stopping = true → i ∈ gone
  gone_done : ∀ i ∈ gone,
    (w'.op i).active = false ∧ (w'.op i).error = some .operationCanceled
  due_done : ∀ i ∈ due, (w'.op i).active = false ∧ (w'.op i).error = none
  due_le : ∀ i ∈ due, w.due i ≤ now
  sorted : due.Pairwise fun i j => w.due i ≤ w.due j
  lt_left : ∀ i ∈ w'.loop.timers, now < w.due i

/-- The first part of `expire()`, up to the state in which the clock is read. -/
theorem expire_eq_expireDue (hw : Queued w) (hheap : IsHeap w.due w.loop.timers) (now : ℤ) :
    ∃ (w₂ : World α) (gone woken : List ℕ),
      w.expire H now = expireDue H now w₂.loop.timers.length w₂ ∧ Cleared w w₂ gone woken ∧
      (w.interfere.loop.cancel = false → gone = []) ∧
      (w.interfere.loop.cancel = true → ∀ i ∈ w.loop.timers,
        (w.interfere.op i).canceled = true ∨ w.interfere.loop.stopping = true → i ∈ gone) := by
  have hi := Quiet.interfere (t := ∅) w
  have hw₁ := hw.quiet hi
  have hdue₁ : ∀ i, w.interfere.due i = w.due i := fun i => (hi.op i).due
  unfold World.expire
  dsimp only
  split_ifs with hcancel
  · have hw₂ : Queued { w.interfere with loop := { w.interfere.loop with cancel := false } } :=
      ⟨hw₁.nodup, hw₁.error, hw₁.waits⟩
    obtain ⟨gone, woken, h, hset⟩ := cancelPending_timers (H := H) hw₂
    have hmem : ∀ i ∈ w.loop.timers, i ∈ w.interfere.loop.timers := fun i h => hi.timers ▸ h
    refine ⟨_, gone, woken, rfl, { h with ready := ?_, perm := ?_, due := fun i hmem' => ?_ },
      fun h => absurd (h.symm.trans hcancel) Bool.false_ne_true, fun _ i h => hset i (hmem i h)⟩
    · exact h.ready.trans (congrArg (· ++ gone ++ woken) hi.ready)
    · exact h.perm.trans (.of_eq hi.timers)
    · exact (h.due i (hmem i hmem')).trans (hdue₁ i)
  · refine ⟨_, [], [], rfl, ⟨?_, hi.timers ▸ .refl _, ?_, nofun, hw₁.error, fun i _ => hdue₁ i⟩,
      fun _ => rfl, fun h => absurd h hcancel⟩
    · rw [hi.ready, append_nil, append_nil]
    · rw [hi.timers]
      exact hheap.congr fun i _ => hdue₁ i

/-- **`expire()`.** If `cancel_` was set it completes every canceled timer, and all of them when the
loop is stopped; then it completes the timers that are due, the earliest first. -/
theorem expires_expire (hw : Queued w) (hheap : IsHeap w.due w.loop.timers) (now : ℤ) :
    ∃ gone due, Expires now w w.interfere (w.expire H now) gone due := by
  obtain ⟨w₂, gone, woken, heq, ⟨hready, hperm, hheap₂, hgone, herror, hdue₂⟩, hunset, hset⟩ :=
    expire_eq_expireDue (H := H) hw hheap now
  have hnodup := hperm.nodup_iff.mpr hw.nodup
  obtain ⟨due, hfinishes, hperm', hsorted, hle, hlt⟩ :=
    finishesAll_expireDue (H := H) now hheap₂ (nodup_append.mp hnodup).2.1 herror
      (Nat.le_refl _)
  have hmem : ∀ i ∈ w₂.loop.timers, i ∈ w.loop.timers := fun i h =>
    hperm.subset (mem_append_right _ h)
  have hkey : ∀ i ∈ due ++ (w.expire H now).loop.timers, w₂.due i = w.due i := fun i h =>
    hdue₂ i (hmem i (hperm'.subset (heq ▸ h)))
  rw [← heq] at hfinishes hperm' hlt
  refine ⟨gone, due,
    { ready := ⟨woken, by rw [hfinishes.ready, hready]⟩
      perm := ?_
      unset := hunset
      canceled := hset
      gone_done := fun i h => ?_
      due_done := hfinishes.done
      due_le := fun i h => ?_
      sorted := ?_
      lt_left := fun i h => ?_ }⟩
  · rw [append_assoc]
    exact (hperm'.append_left gone).trans hperm
  · have hnot : i ∉ due := fun h' => disjoint_of_nodup_append hnodup h
      (hperm'.subset (mem_append_left _ h'))
    obtain ⟨hactive, herror⟩ := hfinishes.calm i hnot
    rw [hactive, herror]
    exact hgone i h
  · rw [← hkey i (mem_append_left _ h)]
    exact hle i h
  · exact hsorted.imp_of_mem fun hi hj h => by
      rwa [hkey _ (mem_append_left _ hi), hkey _ (mem_append_left _ hj)] at h
  · rw [← hkey i (mem_append_right _ h)]
    exact hlt i h

/-! ### Runs with a clock -/

/-- The reading of the clock in a call. -/
def Call.reading : Call α → Option ℤ
  | .expire now => some now
  | _ => none

/-- The state `w'` at the time `now'` is a later one of a run that is in the state `w` at the time
`now`. Time does not go back, and `expire()` reads it. -/
inductive Later (H : HeapRange ℕ ℤ) (now : ℤ) (w : World α) : ℤ → World α → Prop
  | refl : Later H now w now w
  | step {now₁ now' : ℤ} {w₁ : World α} (l : Call α) (sched : List (List Async))
      (h : Later H now w now₁ w₁) (le : now₁ ≤ now') (reading : ∀ n ∈ l.reading, n = now') :
      Later H now w now' (w₁.step H (l, sched))

theorem Later.regular {t : Set ℕ} {w₀ : World α} (h : Later H now w now' w')
    (hr : Regular .univ w₀ w) : Regular t w' w' := by
  have hr' : Regular .univ w₀ w' := by
    induction h with
    | refl => exact hr
    | step l sched _ _ _ ih => exact (ih.interfere sched).call l fun _ _ => trivial
  exact ⟨hr'.sound.rebase, hr'.heap⟩

/-- The timer has been completed: it was due, or it was canceled. -/
structure TimedOut (now : ℤ) (id : ℕ) (w : World α) : Prop where
  active : (w.op id).active = false
  result : (w.op id).error = none ∧ w.due id ≤ now ∨
    (w.op id).error = some .operationCanceled ∧
      ((w.op id).canceled = true ∨ w.loop.stopping = true)

/-- A completed timer stays completed, with its result. -/
theorem TimedOut.kept {t : Set ℕ} {T S : List ℕ} (h : TimedOut now id w) (hs : Sound t T S w w')
    (hid : id ∈ w.suspended) (hlt : id < w.next) (hle : now ≤ now') : TimedOut now' id w' := by
  obtain ⟨hactive, herror, -⟩ := hs.kept id hid h.active
  have hsame := hs.same id hlt
  refine ⟨hactive, ?_⟩
  rw [herror]
  refine h.result.imp (And.imp_right fun hdue => ?_)
    (And.imp_right (Or.imp hsame.canceled hs.stop))
  exact (hs.due_eq hlt).trans_le (hdue.trans hle)

/-- A pending timer stays pending in a call, or the call completes it. -/
theorem timer_call (hr : Regular .univ w w) (l : Call α) (hreading : ∀ n ∈ l.reading, n = now)
    (hid : id ∈ w.loop.timers) : id ∈ (w.call H l).loop.timers ∨ TimedOut now id (w.call H l) := by
  cases htimed : l.timed with
  | false =>
    have hs := hr.sound_call (H := H) l (fun _ _ => trivial) htimed
    exact .inl (hs.store ▸ hid)
  | true =>
    have hr' : Regular .univ w (w.call H l) := hr.call l fun _ _ => trivial
    have hsuspended := (hr.sound.pending id (hr.sound.timer id hid).2).2.1
    cases l with
    | sleep due token fault =>
      obtain ⟨T, hs, -, hsub, -⟩ := hr.sound.sleep (H := H) hr.heap due token fault
      exact .inl (hs.store ▸ hsub hid)
    | expire n =>
      obtain rfl := hreading n rfl
      obtain ⟨gone, due, h⟩ := expires_expire (H := H) hr.queued hr.heap n
      have hmem := h.perm.symm.subset hid
      rw [append_assoc, mem_append, mem_append] at hmem
      rcases hmem with hgone | hdue | hleft
      · obtain ⟨hactive, herror⟩ := h.gone_done id hgone
        refine .inr ⟨hactive, .inr ⟨herror, ?_⟩⟩
        exact hr'.sound.canceled id (hr'.sound.suspended_subset hsuspended) herror
      · obtain ⟨hactive, herror⟩ := h.due_done id hdue
        have hkey := hr'.sound.due_eq (hr.sound.suspended_lt id hsuspended)
        exact .inr ⟨hactive, .inl ⟨herror, hkey.trans_le (h.due_le id hdue)⟩⟩
      · exact .inl hleft
    | _ => cases htimed

/-- **A pending timer in a run.** It is pending, or it has been completed because it was due or
canceled. -/
theorem Later.timer (h : Later H now w now' w') (hr : Regular .univ w w)
    (hid : id ∈ w.loop.timers) : id ∈ w'.loop.timers ∨ TimedOut now' id w' := by
  have hsuspended := (hr.sound.pending id (hr.sound.timer id hid).2).2.1
  -- a completed timer stays suspended in the history of the run
  suffices hinv : (id ∈ w'.loop.timers ∨ TimedOut now' id w') ∧ id ∈ w'.suspended from hinv.1
  induction h with
  | refl => exact ⟨.inl hid, hsuspended⟩
  | @step now₁ now' w₁ l sched h hle hreading ih =>
    have hr₁ : Regular .univ w₁ w₁ := h.regular hr
    have hr₂ := hr₁.interfere sched
    have hr₃ : Regular .univ w₁ (w₁.step H (l, sched)) := hr₂.call l fun _ _ => trivial
    obtain ⟨htimer, hmem⟩ := ih
    refine ⟨?_, hr₃.sound.suspended_subset hmem⟩
    rcases htimer with htimer | hout
    · have hquiet : Quiet .univ w₁ (World.interfere { w₁ with sched }) :=
        Quiet.trans {} (.interfere _)
      exact timer_call ⟨hr₂.sound.rebase, hr₂.heap⟩ l hreading (hquiet.timers ▸ htimer)
    · exact .inr (hout.kept hr₃.sound hmem (hr₁.sound.suspended_lt id hmem) hle)

/-- **The queue of timers.** In every state of every run, with any calls before it (among them
awaits of timers that are refused or fail) and whatever flags other threads raise:
* `timers_` is a heap with the earliest deadline at its front, and has exactly the timers that have
  been armed and not completed, each once;
* a call of `expire()` completes, if `cancel_` is set when it exchanges that flag, every canceled
  timer with `operation_canceled`, and all timers if the loop is stopped, and then without an error
  exactly the remaining timers that are due, in the order of their deadlines;
* a timer that has been completed later was due by then, or was canceled or its loop stopped. -/
theorem timers_in_order {capacity : ℕ → ℕ} {start : ℤ} (hw : Later H start (init capacity) now w) :
    IsHeap w.due w.loop.timers ∧ w.loop.timers.Nodup ∧
    (∀ id, id ∈ w.loop.timers ↔
      (w.op id).cls = .timer ∧ id ∈ w.suspended ∧ id ∉ w.resumed ∧ id ∉ w.loop.ready) ∧
    (∀ sched now', now ≤ now' → ∃ gone due,
      Expires now' w (interfere { w with sched }) (expire H { w with sched } now') gone due) ∧
    ∀ now' w', Later H now w now' w' → ∀ id ∈ w.loop.timers, id ∉ w'.loop.timers →
      TimedOut now' id w' := by
  have hr : Regular .univ w w := hw.regular (regular_init capacity)
  refine ⟨hr.heap, hr.sound.timers_nodup, fun id => ?_, fun sched now' _ => ?_,
    fun now' w' h id hid hnot => (h.timer hr hid).resolve_left hnot⟩
  · have hcount := hr.sound.completed id
    constructor
    · intro hid
      obtain ⟨hcls, hactive⟩ := hr.sound.timer id hid
      rw [if_neg (by simp [hactive]), count_eq_zero, mem_append, not_or] at hcount
      exact ⟨hcls, (hr.sound.pending id hactive).2.1, hcount⟩
    · rintro ⟨hcls, hsuspended, hresumed, hready⟩
      have hactive : (w.op id).active = true := by
        by_contra hne
        rw [if_pos ⟨hsuspended, by simpa using hne⟩] at hcount
        have hmem : id ∈ w.resumed ++ w.loop.ready := count_pos_iff.mp (by omega)
        exact (mem_append.mp hmem).elim hresumed hready
      exact (hr.sound.pending id hactive).1.resolve_right (hr.sound.not_mem_waits hcls)
  · have hsched : Quiet .univ w { w with sched } := .sched ..
    obtain ⟨gone, due, h⟩ := expires_expire (H := H) (hr.queued.quiet hsched) hr.heap now'
    exact ⟨gone, due, h.ready, h.perm, h.unset, h.canceled, h.gone_done, h.due_done, h.due_le,
      h.sorted, h.lt_left⟩

/-- Two timers, the later one first, and a clock that has reached the earlier one. -/
def sleepingState : World ℕ :=
  run .sorting (init fun _ => 1) [(.sleep 9 none false, []), (.sleep 5 none false, [])]

theorem later_sleepingState : Later .sorting 0 (init fun _ => 1) 0 sleepingState := by
  have hnew : Later (α := ℕ) .sorting 0 (init fun _ => 1) 0 (init fun _ => 1) := .refl
  have hfirst := hnew.step (.sleep 9 none false) [] (Int.le_refl 0) nofun
  have hsecond := hfirst.step (.sleep 5 none false) [] (Int.le_refl 0) nofun
  exact hsecond

theorem timers_in_order_sleepingState : sleepingState.loop.timers = [1, 0] ∧
    ∀ w' : World ℕ, Later .sorting 0 sleepingState 7 w' → 0 ∉ w'.loop.timers →
      TimedOut 7 0 w' := by
  have h := timers_in_order later_sleepingState
  exact ⟨by decide, fun w' hw' => h.2.2.2.2 7 w' hw' 0 (by decide)⟩

end Snowy.World
