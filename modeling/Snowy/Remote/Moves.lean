import Mathlib.Data.Set.Basic
import Mathlib.Logic.Relation
import Snowy.Remote.WaitQueue

/-!
# Small steps of waits

Every step of the threads is a sequence of a few kinds of changes, in which the reads of flags no
longer occur: what a read decides is which change comes next. Invariants of waits are proved for the
changes.

## Main definitions

* `Snowy.Remote.Quiet` : nothing changes but flags.
* `Snowy.Remote.Micro` : the kinds of changes.
* `Snowy.Remote.Moves` : a sequence of changes.

## Main results

* `Snowy.Remote.canceledNow_cases`, `Snowy.Remote.enqueue_cases` : what these functions change.
-/

namespace Snowy.Remote

variable {s s' : Remote} {id l q : ℕ} {t : Set ℕ}

/-! ### Small steps -/

/-- Nothing changes but flags. -/
structure Quiet (s s' : Remote) : Prop where
  ready : ∀ l, (s'.loop l).ready = (s.loop l).ready := by exact fun _ => rfl
  waits : ∀ l, (s'.loop l).waits = (s.loop l).waits := by exact fun _ => rfl
  messages : ∀ l, (s'.loop l).messages = (s.loop l).messages := by exact fun _ => rfl
  batch : s'.batch = s.batch := by rfl
  active : ∀ i, (s'.op i).active = (s.op i).active := by exact fun _ => rfl
  linked : ∀ i, (s'.op i).linked = (s.op i).linked := by exact fun _ => rfl
  error : ∀ i, (s'.op i).error = (s.op i).error := by exact fun _ => rfl
  owner : s'.owner = s.owner := by rfl
  home : s'.home = s.home := by rfl
  queue : s'.queue = s.queue := by rfl
  next : s'.next = s.next := by rfl
  suspended : s'.suspended = s.suspended := by rfl
  settled : s'.settled = s.settled := by rfl
  notified : s'.notified = s.notified := by rfl
  resumed : s'.resumed = s.resumed := by rfl
  destroyed : s'.destroyed = s.destroyed := by rfl

theorem Quiet.refl (s : Remote) : Quiet s s := {}

theorem Quiet.trans {s₁ s₂ s₃ : Remote} (h : Quiet s₁ s₂) (h' : Quiet s₂ s₃) : Quiet s₁ s₃ where
  ready l := (h'.ready l).trans (h.ready l)
  waits l := (h'.waits l).trans (h.waits l)
  messages l := (h'.messages l).trans (h.messages l)
  batch := h'.batch.trans h.batch
  active i := (h'.active i).trans (h.active i)
  linked i := (h'.linked i).trans (h.linked i)
  error i := (h'.error i).trans (h.error i)
  owner := h'.owner.trans h.owner
  home := h'.home.trans h.home
  queue := h'.queue.trans h.queue
  next := h'.next.trans h.next
  suspended := h'.suspended.trans h.suspended
  settled := h'.settled.trans h.settled
  notified := h'.notified.trans h.notified
  resumed := h'.resumed.trans h.resumed
  destroyed := h'.destroyed.trans h.destroyed

theorem Quiet.sched (s : Remote) (sched : List (List Async)) : Quiet s { s with sched } :=
  { Quiet.refl s with }

theorem Quiet.setOp (s : Remote) (id : ℕ) {f : Op → Op}
    (hf : ∀ o : Op, (f o).active = o.active ∧ (f o).linked = o.linked ∧ (f o).error = o.error) :
    Quiet s (s.setOp id f) where
  __ := Quiet.refl s
  active i := by
    rw [op_setOp]
    split_ifs with h
    · exact h ▸ (hf _).1
    · rfl
  linked i := by
    rw [op_setOp]
    split_ifs with h
    · exact h ▸ (hf _).2.1
    · rfl
  error i := by
    rw [op_setOp]
    split_ifs with h
    · exact h ▸ (hf _).2.2
    · rfl

theorem Quiet.setLoop (s : Remote) (l : ℕ) {f : LoopState → LoopState}
    (hf : ∀ o : LoopState, (f o).ready = o.ready ∧ (f o).waits = o.waits ∧
      (f o).messages = o.messages) : Quiet s (s.setLoop l f) where
  __ := Quiet.refl s
  ready i := by
    rw [loop_setLoop]
    split_ifs with h
    · exact h ▸ (hf _).1
    · rfl
  waits i := by
    rw [loop_setLoop]
    split_ifs with h
    · exact h ▸ (hf _).2.1
    · rfl
  messages i := by
    rw [loop_setLoop]
    split_ifs with h
    · exact h ▸ (hf _).2.2
    · rfl

theorem Quiet.async (s : Remote) (a : Async) : Quiet s (s.async a) := by
  cases a with
  | request token => exact { Quiet.refl s with }
  | fire id =>
    simp only [Remote.async]
    split_ifs
    · refine .setOp s id ?_
      exact fun _ => ⟨rfl, rfl, rfl⟩
    · exact .refl s
  | stop l =>
    refine .setLoop s l (f := fun loop => { loop with stopping := true }) ?_
    exact fun _ => ⟨rfl, rfl, rfl⟩
  | raise l =>
    refine .setLoop s l (f := fun loop => LoopState.wake { loop with cancel := true }) ?_
    exact fun _ => ⟨rfl, rfl, rfl⟩

theorem Quiet.foldl_async (s : Remote) (stores : List Async) :
    Quiet s (stores.foldl Remote.async s) := by
  induction stores generalizing s with
  | nil => exact .refl s
  | cons a stores ih => exact (Quiet.async s a).trans (ih (s.async a))

theorem Quiet.interfere (s : Remote) : Quiet s s.interfere := by
  unfold Remote.interfere
  split
  · exact .refl s
  · exact (Quiet.sched s _).trans (.foldl_async _ _)

theorem Quiet.halted (s : Remote) (l : ℕ) (token : Option ℕ) : Quiet s (s.halted l token).1 := by
  unfold Remote.halted
  dsimp only
  split_ifs
  · exact .interfere s
  · exact (Quiet.interfere s).trans (.interfere _)

theorem Quiet.dead (s : Remote) (id : ℕ) : Quiet s (s.dead id).1 := by
  unfold Remote.dead
  dsimp only
  split_ifs
  · exact .interfere s
  · exact (Quiet.interfere s).trans (.interfere _)
  · exact .refl s

theorem Quiet.register (s : Remote) (id : ℕ) : Quiet s (s.register id) := by
  have hloop : ((s.part (s.owner id)).register id).loop = s.loop (s.owner id) ∨
      ((s.part (s.owner id)).register id).loop =
        LoopState.wake { s.loop (s.owner id) with cancel := true } := by
    unfold Owner.register
    split
    · exact .inl rfl
    · dsimp only
      split_ifs
      · exact .inr rfl
      · exact .inl rfl
  have hop : ∀ i, (((s.part (s.owner id)).register id).op i).active = (s.op i).active ∧
      (((s.part (s.owner id)).register id).op i).linked = (s.op i).linked ∧
      (((s.part (s.owner id)).register id).op i).error = (s.op i).error := by
    intro i
    unfold Owner.register
    split
    · exact ⟨rfl, rfl, rfl⟩
    · dsimp only
      split_ifs <;> by_cases h : i = id <;> simp [Owner.cancelFn, h, part]
  have hfields : ∀ l, ((s.register id).loop l).ready = (s.loop l).ready ∧
      ((s.register id).loop l).waits = (s.loop l).waits ∧
      ((s.register id).loop l).messages = (s.loop l).messages := by
    intro l
    rw [Remote.register, loop_onLoop]
    split_ifs with h
    · rw [h]
      rcases hloop with h' | h' <;> rw [h'] <;> exact ⟨rfl, rfl, rfl⟩
    · exact ⟨rfl, rfl, rfl⟩
  exact
  { ready := fun l => (hfields l).1
    waits := fun l => (hfields l).2.1
    messages := fun l => (hfields l).2.2
    active := fun i => (hop i).1
    linked := fun i => (hop i).2.1
    error := fun i => (hop i).2.2 }

theorem Quiet.idle (h : Quiet s s') (hid : s.Idle id) : s'.Idle id where
  lt_next := h.next ▸ hid.lt_next
  suspended := h.suspended ▸ hid.suspended
  destroyed := h.destroyed ▸ hid.destroyed
  error := (h.error id).trans hid.error

/-- What can happen in a step. A step that touches the queues in `t` only leaves the waits of the
other queues alone, except that it may complete them with an error. -/
inductive Micro (t : Set ℕ) : Remote → Remote → Prop where
  | quiet {s s' : Remote} (h : Quiet s s') : Micro t s s'
  | make {s : Remote} {l q : ℕ} {op : Op} (hq : q ∈ t) (hactive : op.active = false)
      (hlinked : op.linked = false) (herror : op.error = none) : Micro t s (s.make l q op)
  | fail {s : Remote} {id : ℕ} (hid : id < s.next) (hs : id ∉ s.suspended) (ht : s.home id ∈ t)
      (error : Errc) : Micro t s (s.fail id error)
  | enqueue {s : Remote} {id : ℕ} (hid : s.Idle id) (ht : s.home id ∈ t) :
      Micro t s ((s.enlist id).link id)
  | deliver {s : Remote} {id : ℕ} {failure : Option Errc} (hlinked : (s.op id).linked = true)
      (ht : failure = none → s.home id ∈ t) : Micro t s (s.deliver id failure)
  | interrupt {s : Remote} {id l : ℕ} (hlinked : (s.op id).linked = true)
      (hwaits : id ∈ (s.loop l).waits) : Micro t s (s.interrupt id l)
  | send {s : Remote} (l n : ℕ) : Micro t s (s.send l (.hop n))
  | detach {s : Remote} (l budget : ℕ) : Micro t s (s.detach l budget)
  | message {s : Remote} (l : ℕ) : Micro t s (s.message l)
  | resume {s : Remote} (l : ℕ) : Micro t s (s.resume l)
  | destroy {s : Remote} (id : ℕ) : Micro t s (s.destroy id)

theorem Micro.mono {t' : Set ℕ} (h : Micro t s s') (ht : t ⊆ t') : Micro t' s s' := by
  cases h with
  | quiet h => exact .quiet h
  | make hq hactive hlinked herror => exact .make (ht hq) hactive hlinked herror
  | fail hid hs hhome error => exact .fail hid hs (ht hhome) error
  | enqueue hid hhome => exact .enqueue hid (ht hhome)
  | deliver hlinked hhome => exact .deliver hlinked fun h => ht (hhome h)
  | interrupt hlinked hwaits => exact .interrupt hlinked hwaits
  | send l n => exact .send l n
  | detach l budget => exact .detach l budget
  | message l => exact .message l
  | resume l => exact .resume l
  | destroy id => exact .destroy id

/-- Waits keep their loop and their queue. -/
theorem Micro.frame (h : Micro t s s') :
    s'.next = s.next ∧ s'.home = s.home ∧ s'.owner = s.owner ∨
      ∃ l, ∃ q ∈ t, ∃ op, s' = s.make l q op := by
  cases h with
  | quiet h => exact .inl ⟨h.next, h.home, h.owner⟩
  | @make l q op hq hactive hlinked herror => exact .inr ⟨l, q, hq, op, rfl⟩
  | fail hid hs ht error => exact .inl ⟨rfl, rfl, rfl⟩
  | enqueue hid ht => exact .inl ⟨rfl, rfl, rfl⟩
  | deliver hlinked ht => exact .inl ⟨rfl, rfl, rfl⟩
  | interrupt hlinked hwaits =>
    rw [Remote.interrupt, if_pos hlinked]
    exact .inl ⟨rfl, rfl, rfl⟩
  | send l n => exact .inl ⟨rfl, rfl, rfl⟩
  | detach l budget =>
    rw [Remote.detach]
    split_ifs <;> exact .inl ⟨rfl, rfl, rfl⟩
  | message l =>
    rw [Remote.message]
    split <;> exact .inl ⟨rfl, rfl, rfl⟩
  | resume l =>
    rw [Remote.resume]
    split <;> exact .inl ⟨rfl, rfl, rfl⟩
  | destroy id =>
    rw [Remote.destroy]
    split_ifs <;> exact .inl ⟨rfl, rfl, rfl⟩

/-- A sequence of such changes. -/
def Moves (t : Set ℕ) : Remote → Remote → Prop := Relation.ReflTransGen (Micro t)

theorem Moves.refl : Moves t s s := Relation.ReflTransGen.refl

theorem Moves.trans {s₁ : Remote} (hm : Moves t s s₁) (hm' : Moves t s₁ s') : Moves t s s' :=
  Relation.ReflTransGen.trans hm hm'

theorem Micro.moves (h : Micro t s s') : Moves t s s' := Relation.ReflTransGen.single h

theorem Moves.mono {t' : Set ℕ} (hm : Moves t s s') (ht : t ⊆ t') : Moves t' s s' :=
  Relation.ReflTransGen.mono (fun _ _ h => Micro.mono h ht) _ _ hm

/-- New waits are those of the queues in `t`. -/
theorem Moves.frame (hm : Moves t s s') : s.next ≤ s'.next ∧
    (∀ i < s.next, s'.home i = s.home i ∧ s'.owner i = s.owner i) ∧
    ∀ i < s'.next, s'.home i ∉ t → i < s.next := by
  induction hm with
  | refl => exact ⟨Nat.le_refl _, fun _ _ => ⟨rfl, rfl⟩, fun _ hi _ => hi⟩
  | tail _ h ih =>
    obtain ⟨hle, hkept, hnew⟩ := ih
    rcases h.frame with ⟨hnext, hhome, howner⟩ | ⟨l, q, hq, op, rfl⟩
    · rw [hnext, hhome, howner]
      exact ⟨hle, hkept, hnew⟩
    · refine ⟨Nat.le_succ_of_le hle, fun i hi => ?_, fun i hi ht => ?_⟩
      · rw [home_make, owner_make, if_neg (by omega), if_neg (by omega)]
        exact hkept i hi
      · rw [home_make] at ht
        split_ifs at ht with h
        · exact absurd hq ht
        · exact hnew i (Nat.lt_of_le_of_ne (Nat.lt_succ_iff.mp hi) h) ht

theorem Quiet.moves (h : Quiet s s') : Moves t s s' := (Micro.quiet h).moves

/-! ### What the functions do -/

theorem enlist_activate (s : Remote) (id : ℕ) : (s.activate id).enlist id = s.enlist id := by
  simp [activate, enlist, onLoop, setOp, part, Owner.enlist, Owner.setOp]

/-- `canceled_now` stores an error, or changes nothing but flags. -/
theorem canceledNow_cases (s : Remote) (id : ℕ) : ∃ s', Quiet s s' ∧
    (s.canceledNow id = (s'.fail id .operationCanceled, true) ∨
      s.canceledNow id = (s', false)) := by
  have hq := Quiet.halted s (s.owner id) (s.op id).token
  unfold canceledNow
  split
  · rename_i s' h
    rw [h] at hq
    exact ⟨s', hq, .inl rfl⟩
  · rename_i s' h
    rw [h] at hq
    exact ⟨s', hq, .inr rfl⟩

/-- `park` stores an error, or makes the wait one of its loop. -/
theorem park_cases (s : Remote) (id : ℕ) : ∃ s', Quiet s s' ∧
    (s.park id = (s'.fail id .operationCanceled, false) ∨ s.park id = (s'.enlist id, true)) := by
  unfold park
  split_ifs
  · have hq := Quiet.halted s (s.owner id) (s.op id).token
    unfold arm
    generalize s.halted (s.owner id) (s.op id).token = r at hq
    obtain ⟨s₁, _ | _⟩ := r
    · refine ⟨s₁.interfere.register id, (hq.trans (.interfere s₁)).trans (.register _ id), .inr ?_⟩
      dsimp only
      rw [enlist_activate]
    · exact ⟨s₁, hq, .inl rfl⟩
  · exact ⟨s, .refl s, .inr rfl⟩

/-- `enqueue` stores an error, or makes the wait one of its loop and of its queue. -/
theorem enqueue_cases (s : Remote) (id : ℕ) : ∃ s', Quiet s s' ∧
    (s.enqueue id = (s'.fail id .operationCanceled, false) ∨
      s.enqueue id = ((s'.enlist id).link id, true)) := by
  obtain ⟨s', hq, h | h⟩ := park_cases s id
  all_goals
    refine ⟨s', hq, ?_⟩
    rw [enqueue, h]
  · exact .inl rfl
  · exact .inr rfl

end Snowy.Remote
