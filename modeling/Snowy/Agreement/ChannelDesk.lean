import Snowy.Agreement.Desk
import Snowy.Owner.Channel

/-!
# The channel as a desk

A channel whose loop is not stopped, and whose flags are raised between calls only, is a desk. The
nodes that `expire()` has completed stay in the list of the channel until they are destroyed; the
desk does not see them. What the proofs need to know about a call is whether it changes values only
(`Alters`), completes one waiter (`Finishes`) or makes a new operation wait (`Parks`). This file is
about the parts that the calls are made of.

## Main definitions

* `Snowy.World.desk` : what the channel `0` is as a desk.
* `Snowy.World.Tame` : the states in which nothing but the calls on the channel happens.

## Main results

* `Snowy.World.Tame.take` : `take` prunes the desk.
* `Snowy.World.Tame.push`, `Snowy.World.Tame.pop` : values are transferred as on the desk.
-/

namespace Snowy.World

open List

variable {α : Type*} {H : HeapRange ℕ ℤ} {w w' w₁ : World α} {id r : ℕ} {e : Option Errc} {x y : α}
  {b c : Bool} {token : Option ℕ}

/-- What the channel `0` and its operations are as a desk. A node that is linked but not active has
been completed by `expire()`. -/
def desk (w : World α) : Desk α :=
  .ofOps Op.active w.op (w.channel 0) ((w.channel 0).waiters.filter fun i => (w.op i).active) w.node
    w.next w.suspended w.requested

/-- No flag is raised during calls, the loop is not stopped and has no timers, the active operations
are the armed waiters of the channel `0`, and those whose flag is set are announced by `b`. -/
structure Tame (b c : Bool) (w : World α) : Prop where
  sched : w.sched = []
  stopping : w.loop.stopping = false
  timers : w.loop.timers = []
  cancel : w.loop.cancel = c
  nodup : (w.channel 0).waiters.Nodup
  linked_lt : ∀ i ∈ (w.channel 0).waiters, i < w.next
  waits_nodup : w.loop.waits.Nodup
  waits : ∀ i, i ∈ w.loop.waits ↔ (w.op i).active = true
  home : ∀ i, (w.op i).linked = true → (w.node i).home = .channel 0
  value : ∀ i, (w.node i).sending = true → (w.node i).value ≠ none
  linked : ∀ i, (w.op i).active = true → i ∈ (w.channel 0).waiters
  armed : ∀ i, (w.op i).active = true → (w.op i).Armed b

theorem interfere_of_sched (h : w.sched = []) : w.interfere = w := by
  rw [interfere, h]

theorem Tame.lt (ht : Tame b c w) (h : (w.op id).active = true) : id < w.next :=
  ht.linked_lt id (ht.linked id h)

theorem Tame.erase_waits (ht : Tame b c w) (hinactive : (w.op id).active = false) :
    w.loop.waits.erase id = w.loop.waits :=
  erase_of_not_mem fun h => by simp [(ht.waits id).mp h] at hinactive

/-- What the completion of waiters and the transfer of values leave alone. -/
structure Frame (w w' : World α) : Prop where
  closed : (w'.channel 0).closed = (w.channel 0).closed := by rfl
  next : w'.next = w.next := by rfl
  suspended : w'.suspended = w.suspended := by rfl
  requested : w'.requested = w.requested := by rfl
  sched : w'.sched = w.sched := by rfl
  node : ∀ i, (w.node i).Keeps (w'.node i) := by intro i; exact {}
  stopping : w'.loop.stopping = w.loop.stopping := by rfl
  timers : w'.loop.timers = w.loop.timers := by rfl
  cancel : w'.loop.cancel = w.loop.cancel := by rfl

theorem Frame.trans (h : Frame w w₁) (h' : Frame w₁ w') : Frame w w' where
  closed := h'.closed.trans h.closed
  next := h'.next.trans h.next
  suspended := h'.suspended.trans h.suspended
  requested := h'.requested.trans h.requested
  sched := h'.sched.trans h.sched
  node i := (h.node i).trans (h'.node i)
  stopping := h'.stopping.trans h.stopping
  timers := h'.timers.trans h.timers
  cancel := h'.cancel.trans h.cancel

/-! ### Changes of values -/

/-- Only the buffer, the values of nodes and the histories change. -/
structure Alters (w w' : World α) : Prop extends Frame w w' where
  waiters : (w'.channel 0).waiters = (w.channel 0).waiters
  op : w'.op = w.op := by rfl
  waits : w'.loop.waits = w.loop.waits := by rfl

theorem Alters.trans (h : Alters w w₁) (h' : Alters w₁ w') : Alters w w' :=
  { h.toFrame.trans h'.toFrame with
    waiters := h'.waiters.trans h.waiters
    op := h'.op.trans h.op
    waits := h'.waits.trans h.waits }

theorem Alters.desk (h : Alters w w') :
    w'.desk = { w.desk with ring := (w'.channel 0).ring, node := w'.node } := by
  simp only [World.desk, Desk.ofOps, h.closed, h.waiters, h.op, h.next, h.suspended, h.requested]

/-- A sender keeps its value. -/
theorem Tame.value_of_frame (ht : Tame b c w) (h : Frame w w') {i : ℕ}
    (hi : (w'.node i).sending = true) : (w'.node i).value ≠ none :=
  (h.node i).value (ht.value i ((h.node i).sending ▸ hi))

theorem Alters.tame (h : Alters w w') (ht : Tame b c w) : Tame b c w' where
  sched := h.sched.trans ht.sched
  stopping := h.stopping.trans ht.stopping
  timers := h.timers.trans ht.timers
  cancel := h.cancel.trans ht.cancel
  nodup := h.waiters ▸ ht.nodup
  linked_lt := by
    rw [h.waiters, h.next]
    exact ht.linked_lt
  waits_nodup := h.waits ▸ ht.waits_nodup
  waits := by
    rw [h.waits, h.op]
    exact ht.waits
  home i hi := by
    rw [(h.node i).home]
    rw [h.op] at hi
    exact ht.home i hi
  value _ := ht.value_of_frame h.toFrame
  linked := by
    rw [h.op, h.waiters]
    exact ht.linked
  armed := h.op ▸ ht.armed

/-- A change of the buffer or of the histories. -/
theorem alters_setChannel {f : Channel α → Channel α} (w : World α)
    (hwaiters : (f (w.channel 0)).waiters = (w.channel 0).waiters)
    (hclosed : (f (w.channel 0)).closed = (w.channel 0).closed) : Alters w (w.setChannel 0 f) where
  closed := by rw [channel_setChannel, if_pos rfl, hclosed]
  waiters := by rw [channel_setChannel, if_pos rfl, hwaiters]

/-- A change of the histories. -/
theorem desk_setChannel {f : Channel α → Channel α} (w : World α)
    (hwaiters : (f (w.channel 0)).waiters = (w.channel 0).waiters)
    (hclosed : (f (w.channel 0)).closed = (w.channel 0).closed)
    (hring : (f (w.channel 0)).ring = (w.channel 0).ring) : (w.setChannel 0 f).desk = w.desk := by
  rw [(alters_setChannel w hwaiters hclosed).desk, channel_setChannel, if_pos rfl, hring]
  rfl

theorem alters_setNode {f : Node α → Node α} (w : World α) (id : ℕ)
    (hf : (w.node id).Keeps (f (w.node id))) : Alters w (w.setNode id f) where
  node i := by
    rw [node_setNode]
    split_ifs with h
    · exact h ▸ hf
    · exact {}
  waiters := rfl

section

variable (w : World α) (id : ℕ) (x : α)

theorem alters_issue : Alters w (w.issue id 0 x) := alters_setChannel w rfl rfl

theorem alters_accept : Alters w (w.accept id 0 x) := alters_setChannel w rfl rfl

theorem alters_hand : Alters w (w.hand id 0 x) := alters_setChannel w rfl rfl

theorem alters_serve : Alters w (w.serve id 0) := alters_setChannel w rfl rfl

theorem alters_arrive : Alters w (w.arrive id 0) := alters_setChannel w rfl rfl

theorem alters_fill : Alters w (w.fill 0 x) := alters_setChannel w rfl rfl

theorem desk_issue : (w.issue id 0 x).desk = w.desk := desk_setChannel w rfl rfl rfl

theorem desk_accept : (w.accept id 0 x).desk = w.desk := desk_setChannel w rfl rfl rfl

theorem desk_hand : (w.hand id 0 x).desk = w.desk := desk_setChannel w rfl rfl rfl

theorem desk_arrive : (w.arrive id 0).desk = w.desk := desk_setChannel w rfl rfl rfl

theorem desk_fill : (w.fill 0 x).desk = w.desk.fill x := by
  rw [(alters_fill w x).desk, fill, channel_setChannel, if_pos rfl]
  rfl

end

/-! ### Completion of one waiter -/

/-- Nothing is lost by erasing what is filtered out. -/
theorem filter_erase_eq {p : ℕ → Bool} {a : ℕ} (ha : p a = false) (l : List ℕ) :
    (l.erase a).filter p = l.filter p := by
  induction l with
  | nil => rfl
  | cons b l ih =>
    by_cases hb : b = a
    · subst hb
      rw [erase_cons_head, filter_cons_of_neg (by simp [ha])]
    · rw [erase_cons_tail (by simpa using hb), filter_cons, filter_cons, ih]

/-- The operation `id` is not active any more, and may have been unlinked. -/
structure Finishes (id : ℕ) (e : Option Errc) (w w' : World α) : Prop extends Frame w w' where
  waiters : (w'.channel 0).waiters = (w.channel 0).waiters ∨
    (w'.channel 0).waiters = (w.channel 0).waiters.erase id
  op : ∀ i ≠ id, w'.op i = w.op i
  inactive : (w'.op id).active = false
  linked : (w'.op id).linked = true → (w.op id).linked = true
  error : (w'.op id).error = e
  waits : w'.loop.waits = w.loop.waits.erase id

theorem Finishes.desk (h : Finishes id e w w') : w'.desk =
    { w.desk.finish id e with ring := (w'.channel 0).ring, node := w'.node } := by
  have hwaiting : (w'.channel 0).waiters.filter (fun i => (w'.op i).active) =
      ((w.channel 0).waiters.filter fun i => (w.op i).active).filter fun i => !(i == id) := by
    have herase : (w'.channel 0).waiters.filter (fun i => (w'.op i).active) =
        (w.channel 0).waiters.filter fun i => (w'.op i).active := by
      rcases h.waiters with hws | hws
      · rw [hws]
      · rw [hws, filter_erase_eq h.inactive]
    rw [herase, filter_filter]
    refine filter_congr fun i _ => ?_
    by_cases hi : i = id
    · simp [hi, h.inactive]
    · simp [h.op i hi, hi]
  rw [World.desk, Desk.ofOps_finish h.op h.inactive h.error hwaiting]
  simp only [World.desk, Desk.ofOps, Desk.finish, Desk.settle, h.closed, h.next, h.suspended,
    h.requested]

theorem Finishes.ne (h : Finishes id e w w') {i : ℕ} (hi : (w'.op i).active = true) : i ≠ id := by
  rintro rfl
  exact Bool.false_ne_true (h.inactive.symm.trans hi)

theorem Finishes.active (h : Finishes id e w w') {i : ℕ} (hi : (w'.op i).active = true) :
    w'.op i = w.op i ∧ (w.op i).active = true := by
  have hop := h.op i (h.ne hi)
  exact ⟨hop, hop ▸ hi⟩

theorem Finishes.sublist (h : Finishes id e w w') :
    (w'.channel 0).waiters.Sublist (w.channel 0).waiters := by
  rcases h.waiters with hws | hws
  · rw [hws]
  · rw [hws]
    exact erase_sublist

theorem Finishes.tame (h : Finishes id e w w') (ht : Tame b c w) : Tame b c w' where
  sched := h.sched.trans ht.sched
  stopping := h.stopping.trans ht.stopping
  timers := h.timers.trans ht.timers
  cancel := h.cancel.trans ht.cancel
  nodup := ht.nodup.sublist h.sublist
  linked_lt i hi := h.next ▸ ht.linked_lt i (h.sublist.subset hi)
  waits_nodup := h.waits ▸ ht.waits_nodup.erase id
  waits i := by
    rw [h.waits]
    by_cases hi : i = id
    · subst hi
      simp [h.inactive, ht.waits_nodup.not_mem_erase]
    · rw [mem_erase_of_ne hi, ht.waits, h.op i hi]
  value _ := ht.value_of_frame h.toFrame
  home i hi := by
    rw [(h.node i).home]
    by_cases hne : i = id
    · subst hne
      exact ht.home i (h.linked hi)
    · exact ht.home i (h.op i hne ▸ hi)
  linked i hi := by
    have hmem := ht.linked i (h.active hi).2
    rcases h.waiters with hws | hws
    · rwa [hws]
    · rw [hws]
      exact (mem_erase_of_ne (h.ne hi)).mpr hmem
  armed i hi := by
    rw [(h.active hi).1]
    exact ht.armed i (h.active hi).2

theorem loop_notify (w : World α) (id : ℕ) : (w.notify id).loop = { w.loop with
    ready := if (w.op id).active then w.loop.ready ++ [id] else w.loop.ready
    waits := if (w.op id).active then w.loop.waits.erase id else w.loop.waits } :=
  Owner.loop_notify w.toOwner id

/-- An active operation is notified. -/
theorem finishes_notify (hactive : (w.op id).active = true) :
    Finishes id (w.op id).error w (w.notify id) where
  waiters := .inl rfl
  op i hi := by rw [op_notify, if_neg fun h => hi h.1]
  inactive := by rw [op_notify, if_pos ⟨rfl, hactive⟩]
  linked h := by
    rw [op_notify, if_pos ⟨rfl, hactive⟩] at h
    exact h
  error := by rw [op_notify, if_pos ⟨rfl, hactive⟩]
  waits := by
    rw [loop_notify]
    exact if_pos hactive
  requested := Owner.requested_notify w.toOwner id
  stopping := by rw [loop_notify]
  timers := by rw [loop_notify]
  cancel := by rw [loop_notify]

/-- An active operation is notified with an error. -/
theorem finishes_fail_notify (hactive : (w.op id).active = true) (error : Errc) :
    Finishes id (some error) w ((w.fail id error).notify id) := by
  have hactive' : ((w.fail id error).op id).active = true := by
    rw [op_fail, if_pos rfl]
    exact hactive
  have h := finishes_notify hactive'
  exact
  { h with
    op := fun i hi => by rw [h.op i hi, op_fail, if_neg hi]
    linked := fun hl => by
      have hl' := h.linked hl
      rw [op_fail, if_pos rfl] at hl'
      exact hl'
    error := by rw [h.error, op_fail, if_pos rfl] }

/-- A waiter is unlinked and completed. -/
theorem Finishes.of_unlink (h : Finishes id e (w.unlink id 0) w')
    (hws : (w'.channel 0).waiters = ((w.unlink id 0).channel 0).waiters) : Finishes id e w w' :=
  { h with
    closed := h.closed.trans (by rw [channel_unlink, if_pos rfl])
    waiters := .inr (hws.trans (by rw [channel_unlink, if_pos rfl]))
    op := fun i hi => by rw [h.op i hi, op_unlink, if_neg hi]
    linked := fun hl => by
      have hl' := h.linked hl
      rw [op_unlink, if_pos rfl] at hl'
      cases hl'
    waits := h.waits }

/-- A transfer of values, then a completion. -/
theorem Alters.finishes (h : Alters w w₁) (h' : Finishes id e w₁ w') : Finishes id e w w' :=
  { h.toFrame.trans h'.toFrame with
    waiters := h.waiters ▸ h'.waiters
    op := fun i hi => by rw [h'.op i hi, h.op]
    inactive := h'.inactive
    linked := h.op ▸ h'.linked
    error := h'.error
    waits := h.waits ▸ h'.waits }

theorem active_unlink (w : World α) (id i : ℕ) : ((w.unlink id 0).op i).active = (w.op i).active :=
  (calm_unlink w id 0 i).active

/-- A waiter that has been completed is unlinked. -/
theorem Tame.finishes_unlink (ht : Tame b c w) (hinactive : (w.op id).active = false) :
    Finishes id (w.op id).error w (w.unlink id 0) where
  closed := by rw [channel_unlink, if_pos rfl]
  waiters := .inr (by rw [channel_unlink, if_pos rfl])
  op i hi := by rw [op_unlink, if_neg hi]
  inactive := (active_unlink w id id).trans hinactive
  linked h := by
    rw [op_unlink, if_pos rfl] at h
    cases h
  error := by rw [op_unlink, if_pos rfl]
  waits := (ht.erase_waits hinactive).symm

theorem ring_unlink (w : World α) (id : ℕ) :
    ((w.unlink id 0).channel 0).ring = (w.channel 0).ring := by
  rw [channel_unlink, if_pos rfl]

theorem not_mem_waiting (hinactive : (w.op id).active = false) : id ∉ w.desk.waiting := fun h =>
  Bool.false_ne_true (hinactive.symm.trans (mem_filter.mp h).2)

/-- A waiter that has been completed does not count. -/
theorem Tame.desk_unlink (ht : Tame b c w) (hinactive : (w.op id).active = false) :
    (w.unlink id 0).desk = w.desk := by
  have hself : w.desk.finish id (w.op id).error = w.desk := by
    refine (Desk.ofOps_finish (fun _ _ => rfl) hinactive rfl ?_).symm
    refine (filter_eq_self.mpr fun i hi => ?_).symm
    have hne : i ≠ id := fun h => not_mem_waiting hinactive (h ▸ hi)
    simp [hne]
  rw [(ht.finishes_unlink hinactive).desk, ring_unlink, hself]
  rfl

/-- What `take` does with a waiter whose cancellation flag is set. -/
theorem finishes_discard (hactive : (w.op id).active = true) :
    Finishes id (some .operationCanceled) w (w.discard id 0) := by
  have hactive' : ((w.unlink id 0).op id).active = true := (active_unlink w id id).trans hactive
  have hdiscard : w.discard id 0 = ((w.unlink id 0).fail id .operationCanceled).notify id := by
    rw [discard, if_pos hactive']
  rw [hdiscard]
  exact (finishes_fail_notify hactive' _).of_unlink rfl

theorem desk_discard (hactive : (w.op id).active = true) :
    (w.discard id 0).desk = w.desk.finish id (some .operationCanceled) := by
  have hring : ((w.discard id 0).channel 0).ring = (w.channel 0).ring := by
    rw [channel_discard, ring_unlink]
  have hnode : (w.discard id 0).node = w.node := by
    rw [discard]
    split_ifs <;> rfl
  rw [(finishes_discard hactive).desk, hring, hnode]
  rfl

/-! ### Operations that begin -/

/-- The operation `id` has begun and does not wait yet. -/
structure New (id : ℕ) (token : Option ℕ) (w : World α) : Prop where
  lt : id < w.next
  op : w.op id = { cls := .wait, token }
  waiters : id ∉ (w.channel 0).waiters
  home : (w.node id).home = .channel 0
  requested : w.stopRequested id = false

theorem New.finishes (hn : New id token w) (h : Finishes r e w w') (hne : id ≠ r) :
    New id token w' where
  lt := h.next ▸ hn.lt
  op := (h.op id hne).trans hn.op
  waiters hmem := hn.waiters (h.sublist.subset hmem)
  home := (h.node id).home.trans hn.home
  requested := by
    have hreq := hn.requested
    unfold Owner.stopRequested at hreq ⊢
    rw [h.op id hne, h.requested]
    exact hreq

theorem New.alters (hn : New id token w) (h : Alters w w') : New id token w' where
  lt := h.next ▸ hn.lt
  op := h.op ▸ hn.op
  waiters := h.waiters ▸ hn.waiters
  home := (h.node id).home.trans hn.home
  requested := by
    have hreq := hn.requested
    unfold Owner.stopRequested at hreq ⊢
    rw [h.op, h.requested]
    exact hreq

theorem New.ne_of_active (hn : New id token w) (h : (w.op r).active = true) : id ≠ r := by
  rintro rfl
  rw [hn.op] at h
  cases h

/-! ### Pruning -/

section

variable (ht : Tame b c w)
include ht

/-- In a tame state nothing happens between two reads of flags. -/
theorem Tame.live (id : ℕ) : w.live id = (w, (w.op id).active && !(w.op id).canceled) := by
  simp only [World.live, interfere_of_sched ht.sched, ht.stopping]
  cases (w.op id).active <;> cases (w.op id).canceled <;> rfl

/-- `channel::take` prunes, and unlinks the first waiter if it has the direction. -/
theorem Tame.take (sending : Bool) {ws : List ℕ} (hws : (w.channel 0).waiters = ws) :
    ∃ w₁, Tame b c w₁ ∧ (∀ id token, New id token w → New id token w₁) ∧
      w₁.desk = w.desk.prune w.desk.waiting ∧
      (take 0 sending w ws = (w₁, none) ∧ w₁.desk.first sending = none ∨
        ∃ r, take 0 sending w ws = (w₁.unlink r 0, some r) ∧ w₁.desk.first sending = some r ∧
          (w₁.op r).active = true) := by
  induction ws generalizing w with
  | nil =>
    refine ⟨w, ht, fun _ _ h => h, ?_, .inl ⟨rfl, ?_⟩⟩
    · simp [World.desk, Desk.ofOps, hws, Desk.prune]
    · simp [World.desk, Desk.ofOps, hws, Desk.first]
  | cons id rest ih =>
    have hlive := ht.live id
    have hrest : ((w.discard id 0).channel 0).waiters = rest := by
      rw [channel_discard, channel_unlink, if_pos rfl]
      change (w.channel 0).waiters.erase id = rest
      rw [hws, erase_cons_head]
    have hne : ∀ i token, New i token w → i ≠ id := by
      rintro i _ hn rfl
      exact hn.waiters (hws ▸ mem_cons_self)
    cases hactive : (w.op id).active with
    | false =>
      have hfinishes := ht.finishes_unlink hactive
      have hdiscard : w.discard id 0 = w.unlink id 0 := by
        rw [discard, op_unlink, if_pos rfl, if_neg (by simp [hactive])]
      rw [hactive, Bool.false_and] at hlive
      rw [hdiscard] at hrest
      rw [take_cons_dead 0 rest hlive, hdiscard]
      obtain ⟨w₁, ht₁, hnew, hdesk₁, htake⟩ := ih (hfinishes.tame ht) hrest
      rw [ht.desk_unlink hactive] at hdesk₁
      exact ⟨w₁, ht₁, fun i t hn => hnew i t (hn.finishes hfinishes (hne i t hn)), hdesk₁, htake⟩
    | true =>
      have hwaiting : w.desk.waiting = id :: rest.filter fun i => (w.op i).active := by
        simp [World.desk, Desk.ofOps, hws, hactive]
      cases hcanceled : (w.op id).canceled with
      | false =>
        rw [hactive, hcanceled] at hlive
        have hflag : w.desk.flagged id = false := by simp [World.desk, Desk.ofOps, hcanceled]
        have hprune : w.desk.prune w.desk.waiting = w.desk := by
          rw [hwaiting, Desk.prune, if_neg (by simp [hflag])]
        have hfirst : w.desk.first sending =
            if (w.node id).sending = sending then some id else none := by
          rw [Desk.first, hwaiting]
          by_cases h : (w.node id).sending = sending <;> simp [World.desk, Desk.ofOps, h]
        refine ⟨w, ht, fun _ _ h => h, hprune.symm, ?_⟩
        rw [take_cons_live 0 rest hlive, hfirst]
        split_ifs with h
        · exact .inr ⟨id, rfl, rfl, hactive⟩
        · exact .inl ⟨rfl, rfl⟩
      | true =>
        have hfinishes := finishes_discard hactive
        rw [hactive, hcanceled] at hlive
        have hflag : w.desk.flagged id = true := by
          simp [World.desk, Desk.ofOps, hactive, hcanceled]
        have hnot : id ∉ rest := (nodup_cons.mp (hws ▸ ht.nodup)).1
        have hnext : (w.desk.finish id (some .operationCanceled)).waiting =
            rest.filter fun i => (w.op i).active := by
          change w.desk.waiting.filter _ = _
          rw [hwaiting, filter_cons_of_neg (by simp), filter_eq_self]
          intro i hi
          have hne : i ≠ id := fun h => hnot (h ▸ (mem_filter.mp hi).1)
          simp [hne]
        rw [take_cons_dead 0 rest hlive]
        obtain ⟨w₁, ht₁, hnew, hdesk₁, htake⟩ := ih (hfinishes.tame ht) hrest
        refine ⟨w₁, ht₁, fun i t hn => hnew i t (hn.finishes hfinishes (hne i t hn)), ?_, htake⟩
        rw [hdesk₁, desk_discard hactive, hnext, hwaiting, Desk.prune, if_pos hflag]

/-! ### Transfers -/

/-- The waiter `r` is matched; the transfer of its value comes first. -/
theorem Tame.finishes_matched (hactive : (w.op r).active = true)
    (h : Alters (w.unlink r 0) w₁) : Finishes r none w (w₁.notify r) := by
  have hactive₁ : (w₁.op r).active = true := by
    rw [h.op]
    exact (active_unlink w r r).trans hactive
  have herror : (w₁.op r).error = none := by
    rw [h.op, op_unlink, if_pos rfl]
    exact (ht.armed r hactive).error
  exact (h.finishes (herror ▸ finishes_notify hactive₁)).of_unlink h.waiters

/-- `channel::push`. -/
theorem Tame.push (id : ℕ) (x : α) :
    ∃ w₁, Tame b c w₁ ∧ (∀ i token, New i token w → New i token w₁) ∧
      ∃ ok, w.push id 0 x = (w₁, ok) ∧ w.desk.push x = (w₁.desk, ok) := by
  obtain ⟨w₁, ht₁, hnew, hdesk, ⟨htake, hfirst⟩ | ⟨r, htake, hfirst, hactive⟩⟩ := ht.take false rfl
  · simp only [World.push, htake, Desk.push, ← hdesk, hfirst]
    have hring : w₁.desk.ring = (w₁.channel 0).ring := rfl
    rw [hring]
    split_ifs with hfull
    · exact ⟨w₁, ht₁, hnew, false, rfl, rfl⟩
    · have hstore : Alters w₁ (w₁.store id 0 x) :=
        ((alters_issue w₁ id x).trans (alters_accept _ id x)).trans (alters_fill _ x)
      refine ⟨w₁.store id 0 x, hstore.tame ht₁, fun i t hn => (hnew i t hn).alters hstore, true,
        rfl, ?_⟩
      rw [store, desk_fill, desk_accept, desk_issue]
  · have hgive : Alters (w₁.unlink r 0) _ :=
      ((((alters_setNode (f := fun n => { n with value := some x }) _ r
        { value := fun _ => Option.some_ne_none x }).trans
        (alters_issue _ id x)).trans (alters_accept _ id x)).trans (alters_hand _ r x)).trans
          (alters_serve _ r)
    have hfinishes : Finishes r none w₁ ((w₁.unlink r 0).give id 0 r x) :=
      ht₁.finishes_matched hactive hgive
    have hring : (((w₁.unlink r 0).give id 0 r x).channel 0).ring = (w₁.channel 0).ring := by
      rw [channel_give]
      rfl
    simp only [World.push, htake, Desk.push, ← hdesk, hfirst]
    refine ⟨_, hfinishes.tame ht₁,
      fun i t hn => (hnew i t hn).finishes hfinishes ((hnew i t hn).ne_of_active hactive), true,
      rfl, ?_⟩
    rw [hfinishes.desk, hring]
    rfl

/-- The first half of `channel::pop`. -/
theorem Tame.popBuffered : ∃ w₁, Tame b c w₁ ∧ (∀ i token, New i token w → New i token w₁) ∧
      ∃ v, w.popBuffered 0 = (w₁, v) ∧ w.desk.popBuffered = (w₁.desk, v) := by
  have hring : w.desk.ring = (w.channel 0).ring := rfl
  simp only [World.popBuffered, Desk.popBuffered, hring]
  split_ifs with hempty
  · exact ⟨w, ht, fun _ _ h => h, none, rfl, rfl⟩
  · have hdrop : Alters w (w.dropFront 0) := alters_setChannel w rfl rfl
    refine ⟨_, hdrop.tame ht, fun i t hn => hn.alters hdrop, _, rfl, ?_⟩
    rw [hdrop.desk, dropFront, channel_setChannel, if_pos rfl]
    rfl

/-- The second half of `channel::pop`. -/
theorem Tame.popSender (v : Option α) :
    ∃ w₁, Tame b c w₁ ∧ (∀ i token, New i token w → New i token w₁) ∧
      ∃ v', w.popSender 0 v = (w₁, v') ∧ w.desk.popSender v = (w₁.desk, v') := by
  obtain ⟨w₁, ht₁, hnew, hdesk, ⟨htake, hfirst⟩ | ⟨r, htake, hfirst, hactive⟩⟩ := ht.take true rfl
  · simp only [World.popSender, htake, Desk.popSender, ← hdesk, hfirst]
    exact ⟨w₁, ht₁, hnew, v, rfl, rfl⟩
  · have hnode : ((w₁.unlink r 0).node r).value = (w₁.desk.node r).value := rfl
    simp only [World.popSender, htake, Desk.popSender, ← hdesk, hfirst, hnode]
    have hsending : (w₁.node r).sending = true := by
      obtain ⟨-, hi⟩ := Option.filter_eq_some_iff.mp hfirst
      exact (beq_iff_eq (a := (w₁.desk.node r).sending)).mp hi
    cases hvalue : (w₁.desk.node r).value with
    | none => exact absurd hvalue (ht₁.value r hsending)
    | some sent =>
      cases v with
      | none =>
        have hfinishes : Finishes r none w₁ ((w₁.unlink r 0).rendezvous 0 r sent) :=
          ht₁.finishes_matched hactive (alters_accept _ r sent)
        refine ⟨_, hfinishes.tame ht₁,
          fun i t hn => (hnew i t hn).finishes hfinishes ((hnew i t hn).ne_of_active hactive), _,
          rfl, ?_⟩
        have hring : (((w₁.unlink r 0).rendezvous 0 r sent).channel 0).ring =
            (w₁.channel 0).ring := by
          change (((w₁.unlink r 0).accept r 0 sent).channel 0).ring = _
          rw [accept, channel_setChannel, if_pos rfl]
          exact ring_unlink w₁ r
        rw [hfinishes.desk, hring]
        rfl
      | some x =>
        have hfinishes : Finishes r none w₁ ((w₁.unlink r 0).refill 0 r sent) :=
          ht₁.finishes_matched hactive ((alters_accept _ r sent).trans (alters_fill _ sent))
        refine ⟨_, hfinishes.tame ht₁,
          fun i t hn => (hnew i t hn).finishes hfinishes ((hnew i t hn).ne_of_active hactive), _,
          rfl, ?_⟩
        have hring : (((w₁.unlink r 0).refill 0 r sent).channel 0).ring =
            (w₁.channel 0).ring.push sent := by
          change ((((w₁.unlink r 0).accept r 0 sent).fill 0 sent).channel 0).ring = _
          rw [fill, channel_setChannel, if_pos rfl, accept, channel_setChannel, if_pos rfl]
          exact congrArg (RingBuffer.push · sent) (ring_unlink w₁ r)
        rw [hfinishes.desk, hring]
        rfl

/-- `channel::pop`. -/
theorem Tame.pop (id : ℕ) : ∃ w₁, Tame b c w₁ ∧ (∀ i token, New i token w → New i token w₁) ∧
      ∃ v, w.pop id 0 = (w₁, v) ∧ w.desk.pop = (w₁.desk, v) := by
  obtain ⟨w₁, ht₁, hnew₁, v, hbuffered, hdesk₁⟩ := ht.popBuffered
  obtain ⟨w₂, ht₂, hnew₂, v', hsender, hdesk₂⟩ := ht₁.popSender v
  simp only [World.pop, hbuffered, hsender, Desk.pop, hdesk₁, hdesk₂]
  cases v' with
  | none => exact ⟨w₂, ht₂, fun i t hn => hnew₂ i t (hnew₁ i t hn), none, rfl, rfl⟩
  | some x =>
    have hhand := alters_hand w₂ id x
    exact ⟨_, hhand.tame ht₂, fun i t hn => (hnew₂ i t (hnew₁ i t hn)).alters hhand, some x, rfl,
      by rw [desk_hand]⟩

end

end Snowy.World
