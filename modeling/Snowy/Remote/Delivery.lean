import Snowy.Remote.Moves

/-!
# Waits complete exactly once

A wait goes through four phases. Before it is enqueued it is nowhere. Then it is linked, until one
party unlinks it: a thread that delivers it, or the cancellation hook of its loop. A delivered wait
is in the messages of its loop until the loop notifies it; the hook notifies it at once. How often a
wait occurs in the lists and in the histories depends on its phase only, and this is the invariant:
a late interrupt finds the wait unlinked, and a late delivery does not find it in the queue.

## Main definitions

* `Snowy.Remote.Tally` : how often a wait occurs in each list and history.
* `Snowy.Remote.Phase` : the four phases with their tallies.
* `Snowy.Remote.Wired` : the invariant.

## Main results

* `Snowy.Remote.Wired.moves` : all changes keep the invariant.
* `Snowy.Remote.remote_wait_completes_once` : exactly-once completion.
-/

namespace Snowy.Remote

open Function List

variable {s s' : Remote} {id l q : ℕ} {t : Set ℕ}

/-! ### Tallies -/

/-- The flags `active` and `linked` of a wait, and how often it occurs in its queue, in the list
`waits_` of its loop, in the messages of its loop, and in the histories; `completed` counts it in
`ready_` and among the resumed. -/
@[ext]
structure Tally where
  active : Bool := false
  linked : Bool := false
  queued : ℕ := 0
  waiting : ℕ := 0
  inFlight : ℕ := 0
  suspended : ℕ := 0
  settled : ℕ := 0
  notified : ℕ := 0
  completed : ℕ := 0
  deriving DecidableEq, Repr

/-- The number of messages of a wait that its loop has not yet run. -/
def inFlight (s : Remote) (id : ℕ) : ℕ :=
  ((s.loop (s.owner id)).messages ++ s.batch (s.owner id)).count (.wait id)

/-- The tally of a wait. -/
def tally (s : Remote) (id : ℕ) : Tally where
  active := (s.op id).active
  linked := (s.op id).linked
  queued := (s.queue (s.home id)).count id
  waiting := (s.loop (s.owner id)).waits.count id
  inFlight := s.inFlight id
  suspended := s.suspended.count id
  settled := (s.settled.map Prod.fst).count id
  notified := (s.notified.map Prod.snd).count id
  completed := (s.resumed ++ (s.loop (s.owner id)).ready).count id

theorem Quiet.tally (h : Quiet s s') : s'.tally = s.tally := by
  funext i
  simp only [Remote.tally, inFlight, h.active, h.linked, h.queue, h.home, h.owner, h.waits,
    h.messages, h.batch, h.suspended, h.settled, h.notified, h.resumed, h.ready]

theorem tally_fail (s : Remote) (id : ℕ) (error : Errc) : (s.fail id error).tally = s.tally := by
  funext i
  by_cases h : i = id <;> simp [tally, inFlight, fail, setOp, h]

theorem tally_settle (s : Remote) (id : ℕ) (result : Option Errc) (i : ℕ) :
    (s.settle id result).tally i = if i = id then { s.tally id with
      linked := false
      queued := (s.tally id).queued - 1
      settled := (s.tally id).settled + 1 } else s.tally i := by
  split_ifs with h
  · subst h
    ext <;> simp [tally, inFlight, settle, unlink, setOp, setQueue]
  · by_cases hq : s.home i = s.home id <;> ext <;>
      simp [tally, inFlight, settle, unlink, setOp, setQueue, count_erase_of_ne, h, Ne.symm h,
        hq]

theorem tally_send (s : Remote) (id i : ℕ) :
    (s.send (s.owner id) (.wait id)).tally i = if i = id then { s.tally id with
      inFlight := (s.tally id).inFlight + 1 } else s.tally i := by
  split_ifs with h
  · subst h
    ext <;> simp [tally, inFlight, send, setLoop, LoopState.send_eq]
    omega
  · by_cases hl : s.owner i = s.owner id <;> ext <;>
      simp [tally, inFlight, send, setLoop, LoopState.send_eq, Ne.symm h, hl]

theorem tally_link (s : Remote) (id i : ℕ) :
    (s.link id).tally i = if i = id then { s.tally id with
      linked := true
      queued := (s.tally id).queued + 1 } else s.tally i := by
  split_ifs with h
  · subst h
    ext <;> simp [tally, inFlight, link, setOp, setQueue]
  · by_cases hq : s.home i = s.home id <;> ext <;>
      simp [tally, inFlight, link, setOp, setQueue, h, Ne.symm h, hq]

theorem tally_enlist (s : Remote) (id i : ℕ) :
    (s.enlist id).tally i = if i = id then { s.tally id with
      active := true
      waiting := (s.tally id).waiting + 1
      suspended := (s.tally id).suspended + 1 } else s.tally i := by
  split_ifs with h
  · subst h
    ext <;> simp [tally, inFlight, enlist, onLoop, Owner.op_enlist, part]
  · by_cases hl : s.owner i = s.owner id <;> ext <;>
      simp [tally, inFlight, enlist, onLoop, Owner.op_enlist, part, h, Ne.symm h, hl]

theorem tally_notify (s : Remote) (hactive : (s.op id).active = true) (l i : ℕ) :
    (s.notify id l).tally i = if i = id then { s.tally id with
      active := false
      waiting := (s.tally id).waiting - 1
      notified := (s.tally id).notified + 1
      completed := (s.tally id).completed + 1 } else s.tally i := by
  split_ifs with h
  · subst h
    ext <;> simp [tally, inFlight, notify, onLoop, Owner.op_notify, part, hactive]
    omega
  · by_cases hl : s.owner i = s.owner id <;> ext <;>
      simp [tally, inFlight, notify, onLoop, Owner.op_notify, part, count_erase_of_ne, hactive,
        h, Ne.symm h, hl]

theorem tally_dropMessage (s : Remote) {m : Message} {rest : List Message}
    (hm : s.batch l = m :: rest) (hl : ∀ i, m = .wait i → s.owner i = l) (i : ℕ) :
    (s.dropMessage l).tally i = if m = .wait i then { s.tally i with
      inFlight := (s.tally i).inFlight - 1 } else s.tally i := by
  split_ifs with h
  · subst h
    ext <;> simp [tally, inFlight, dropMessage, hm, hl]
  · by_cases hi : s.owner i = l <;> ext <;>
      simp [tally, inFlight, dropMessage, hm, h, hi]

theorem tally_send_hop (s : Remote) (l n : ℕ) : (s.send l (.hop n)).tally = s.tally := by
  funext i
  by_cases hl : s.owner i = l <;> ext <;>
    simp [tally, inFlight, send, setLoop, LoopState.send_eq, hl]

theorem tally_detach (s : Remote) (l budget : ℕ) : (s.detach l budget).tally = s.tally := by
  funext i
  unfold detach
  split_ifs with h
  · by_cases hl : s.owner i = l
    · subst hl
      ext <;> simp [tally, inFlight, setLoop, h]
      rw [Nat.add_comm, ← count_append, take_append_drop]
    · ext <;> simp [tally, inFlight, setLoop, hl]
  · rfl

theorem tally_resume (s : Remote) (hready : ∀ i ∈ (s.loop l).ready, s.owner i = l) :
    (s.resume l).tally = s.tally := by
  funext i
  unfold resume
  split
  · rfl
  · rename_i id rest h
    by_cases hl : s.owner i = l
    · ext <;> simp [tally, inFlight, setLoop, hl, h, count_cons]
    · have hne : id ≠ i := by
        rintro rfl
        exact hl (hready id (h ▸ mem_cons_self))
      ext <;> simp [tally, inFlight, setLoop, hl, hne]

/-! ### Phases -/

/-- The phases of a wait: not enqueued, linked, delivered and not yet notified, notified. -/
inductive Phase where
  | idle
  | linked
  | sent
  | done
  deriving DecidableEq, Repr

/-- The tally of a wait in each phase. -/
def Phase.tally : Phase → Tally
  | .idle => {}
  | .linked => { active := true, linked := true, queued := 1, waiting := 1, suspended := 1 }
  | .sent => { active := true, waiting := 1, inFlight := 1, suspended := 1, settled := 1 }
  | .done => { suspended := 1, settled := 1, notified := 1, completed := 1 }

/-- Each wait has the tally of a phase, it is in the lists of its own queue and loop only, it was
notified by its own loop, and its error is the result with which it was unlinked. -/
structure Wired (s : Remote) : Prop where
  phase : ∀ i, ∃ p : Phase, s.tally i = p.tally
  queue : ∀ q, ∀ i ∈ s.queue q, s.home i = q
  waits : ∀ l, ∀ i ∈ (s.loop l).waits, s.owner i = l
  messages : ∀ l i, .wait i ∈ (s.loop l).messages ++ s.batch l → s.owner i = l
  ready : ∀ l, ∀ i ∈ (s.loop l).ready, s.owner i = l
  suspended : ∀ i ∈ s.suspended, i < s.next
  settled : ∀ p ∈ s.settled, (s.op p.1).error = p.2
  notified : ∀ p ∈ s.notified, p.1 = s.owner p.2
  destroyed : ∀ i ∈ s.destroyed, i < s.next ∧ s.Destroyable i

namespace Wired

theorem init : Wired {} where
  phase _ := ⟨.idle, rfl⟩
  queue _ _ hi := absurd hi not_mem_nil
  waits _ _ hi := absurd hi not_mem_nil
  messages _ _ hi := absurd hi not_mem_nil
  ready _ _ hi := absurd hi not_mem_nil
  suspended _ hi := absurd hi not_mem_nil
  settled _ hp := absurd hp not_mem_nil
  notified _ hp := absurd hp not_mem_nil
  destroyed _ hi := absurd hi not_mem_nil

/-! ### Where a wait is -/

theorem tally_eq_linked (hs : Wired s) (h : (s.op id).linked = true) :
    s.tally id = Phase.linked.tally := by
  obtain ⟨p, hp⟩ := hs.phase id
  have hlinked : (s.tally id).linked = true := h
  rw [hp] at hlinked ⊢
  cases p <;> first | rfl | exact absurd hlinked Bool.false_ne_true

theorem tally_eq_idle (hs : Wired s) (h : id ∉ s.suspended) : s.tally id = Phase.idle.tally := by
  obtain ⟨p, hp⟩ := hs.phase id
  have hsuspended : (s.tally id).suspended = 0 := count_eq_zero.mpr h
  rw [hp] at hsuspended ⊢
  cases p <;> first | rfl | exact absurd hsuspended Nat.one_ne_zero

theorem tally_eq_sent (hs : Wired s) (h : 0 < s.inFlight id) : s.tally id = Phase.sent.tally := by
  obtain ⟨p, hp⟩ := hs.phase id
  have hflight : 0 < (s.tally id).inFlight := h
  rw [hp] at hflight ⊢
  cases p <;> first | rfl | exact absurd hflight (Nat.lt_irrefl 0)

/-- A wait that is delivered and still registered has its message. -/
theorem inFlight_eq_one (hs : Wired s) (hactive : (s.op id).active = true) {failure : Option Errc}
    (h : (id, failure) ∈ s.settled) : s.inFlight id = 1 := by
  obtain ⟨p, hp⟩ := hs.phase id
  have hsettled : 0 < (s.tally id).settled := count_pos_iff.mpr (mem_map_of_mem h)
  change (s.tally id).active = true at hactive
  change (s.tally id).inFlight = 1
  rw [hp] at hactive hsettled ⊢
  cases p with
  | idle | linked => exact absurd hsettled (Nat.lt_irrefl 0)
  | sent => rfl
  | done => exact absurd hactive Bool.false_ne_true

/-- The wait is linked if it is in a queue. -/
theorem linked_of_mem (hs : Wired s) (h : id ∈ s.queue q) : (s.op id).linked = true := by
  obtain ⟨p, hp⟩ := hs.phase id
  have hqueued : 0 < (s.tally id).queued := count_pos_iff.mpr (hs.queue q id h ▸ h)
  change (s.tally id).linked = true
  rw [hp] at hqueued ⊢
  cases p <;> first | rfl | exact absurd hqueued (Nat.lt_irrefl 0)

end Wired

theorem Wired.lt_of_mem (hs : Wired s) (h : id ∈ s.queue q) : id < s.next := by
  have hphase := hs.tally_eq_linked (hs.linked_of_mem h)
  have hsuspended : s.suspended.count id = 1 := congrArg Tally.suspended hphase
  exact hs.suspended id (count_pos_iff.mp (hsuspended ▸ Nat.one_pos))

/-- The wait is in no queue and in no list of a loop. -/
structure Absent (s : Remote) (id : ℕ) : Prop where
  queue : ∀ q, id ∉ s.queue q
  waits : ∀ l, id ∉ (s.loop l).waits
  messages : ∀ l, .wait id ∉ (s.loop l).messages ++ s.batch l
  ready : ∀ l, id ∉ (s.loop l).ready

/-- No list has a wait that can be destroyed. -/
theorem Wired.absent (hs : Wired s) (hid : s.Destroyable id) :
    s.Absent id ∧ (s.op id).active = false ∧ (s.op id).linked = false := by
  obtain ⟨hready, p, hp, hcases⟩ : (s.loop (s.owner id)).ready.count id = 0 ∧
      ∃ p : Phase, s.tally id = p.tally ∧ (p = .idle ∨ p = .done) := by
    obtain ⟨p, hp⟩ := hs.phase id
    have hcompleted : s.resumed.count id + (s.loop (s.owner id)).ready.count id =
        p.tally.completed := by
      rw [← hp, ← count_append]
      rfl
    rcases hid with hid | hid
    · have hpos := count_pos_iff.mpr hid
      cases p with
      | done =>
        have : Phase.done.tally.completed = 1 := rfl
        exact ⟨by omega, .done, hp, .inr rfl⟩
      | _ =>
        have : s.resumed.count id + (s.loop (s.owner id)).ready.count id = 0 := hcompleted
        omega
    · obtain rfl : p = .idle := by
        have hsuspended : p.tally.suspended = 0 := by
          rw [← hp]
          exact count_eq_zero.mpr hid
        cases p <;> first | rfl | exact absurd hsuspended Nat.one_ne_zero
      have : s.resumed.count id + (s.loop (s.owner id)).ready.count id = 0 := hcompleted
      exact ⟨by omega, .idle, hp, .inl rfl⟩
  have hqueued : (s.tally id).queued = 0 := by rcases hcases with rfl | rfl <;> rw [hp] <;> rfl
  have hwaiting : (s.tally id).waiting = 0 := by rcases hcases with rfl | rfl <;> rw [hp] <;> rfl
  have hflight : (s.tally id).inFlight = 0 := by rcases hcases with rfl | rfl <;> rw [hp] <;> rfl
  refine ⟨⟨fun q h => ?_, fun l h => ?_, fun l h => ?_, fun l h => ?_⟩, ?_, ?_⟩
  · exact count_eq_zero.mp hqueued (hs.queue q id h ▸ h)
  · exact count_eq_zero.mp hwaiting (hs.waits l id h ▸ h)
  · exact count_eq_zero.mp hflight (hs.messages l id h ▸ h)
  · exact count_eq_zero.mp hready (hs.ready l id h ▸ h)
  · change (s.tally id).active = false
    rcases hcases with rfl | rfl <;> rw [hp] <;> rfl
  · change (s.tally id).linked = false
    rcases hcases with rfl | rfl <;> rw [hp] <;> rfl

theorem not_mem_settled (h : (s.tally id).settled = 0) : ∀ p ∈ s.settled, p.1 ≠ id := by
  rintro p hp rfl
  exact count_eq_zero.mp h (mem_map_of_mem hp)

/-! ### The changes -/

/-- What is new in the lists of `s'` is where it belongs. -/
structure Places (s s' : Remote) : Prop where
  owner : s'.owner = s.owner := by rfl
  home : s'.home = s.home := by rfl
  next : s'.next = s.next := by rfl
  queue : ∀ q, ∀ i ∈ s'.queue q, i ∈ s.queue q ∨ s.home i = q := by exact fun _ _ h => .inl h
  waits : ∀ l, ∀ i ∈ (s'.loop l).waits, i ∈ (s.loop l).waits ∨ s.owner i = l := by
    exact fun _ _ h => .inl h
  messages : ∀ l i, .wait i ∈ (s'.loop l).messages ++ s'.batch l →
    .wait i ∈ (s.loop l).messages ++ s.batch l ∨ s.owner i = l := by exact fun _ _ h => .inl h
  ready : ∀ l, ∀ i ∈ (s'.loop l).ready, i ∈ (s.loop l).ready ∨ s.owner i = l := by
    exact fun _ _ h => .inl h
  suspended : ∀ i ∈ s'.suspended, i ∈ s.suspended ∨ i < s.next := by exact fun _ h => .inl h
  notified : ∀ p ∈ s'.notified, p ∈ s.notified ∨ p.1 = s.owner p.2 := by exact fun _ h => .inl h

theorem Places.refl (s : Remote) : Places s s := {}

theorem Places.wired (h : Places s s') (hs : Wired s)
    (hphase : ∀ i, ∃ p : Phase, s'.tally i = p.tally)
    (hsettled : ∀ p ∈ s'.settled, (s'.op p.1).error = p.2)
    (hdestroyed : ∀ i ∈ s'.destroyed, i < s.next ∧ s'.Destroyable i) : Wired s' where
  phase := hphase
  queue q i hi := by
    rw [h.home]
    exact (h.queue q i hi).elim (hs.queue q i) fun h => h
  waits l i hi := by
    rw [h.owner]
    exact (h.waits l i hi).elim (hs.waits l i) fun h => h
  messages l i hi := by
    rw [h.owner]
    exact (h.messages l i hi).elim (hs.messages l i) fun h => h
  ready l i hi := by
    rw [h.owner]
    exact (h.ready l i hi).elim (hs.ready l i) fun h => h
  suspended i hi := by
    rw [h.next]
    exact (h.suspended i hi).elim (hs.suspended i) fun h => h
  settled := hsettled
  notified p hp := by
    rw [h.owner]
    exact (h.notified p hp).elim (hs.notified p) fun h => h
  destroyed := by rwa [h.next]

theorem Places.trans {s₁ s₂ s₃ : Remote} (h : Places s₁ s₂) (h' : Places s₂ s₃) : Places s₁ s₃ where
  owner := h'.owner.trans h.owner
  home := h'.home.trans h.home
  next := h'.next.trans h.next
  queue q i hi := (h'.queue q i hi).elim (h.queue q i) fun hi' => .inr (h.home ▸ hi')
  waits l i hi := (h'.waits l i hi).elim (h.waits l i) fun hi' => .inr (h.owner ▸ hi')
  messages l i hi := (h'.messages l i hi).elim (h.messages l i) fun hi' => .inr (h.owner ▸ hi')
  ready l i hi := (h'.ready l i hi).elim (h.ready l i) fun hi' => .inr (h.owner ▸ hi')
  suspended i hi := (h'.suspended i hi).elim (h.suspended i) fun hi' => .inr (h.next ▸ hi')
  notified p hp := (h'.notified p hp).elim (h.notified p) fun hp' => .inr (h.owner ▸ hp')

theorem Quiet.places (h : Quiet s s') : Places s s' where
  owner := h.owner
  home := h.home
  next := h.next
  queue q i hi := .inl (h.queue ▸ hi)
  waits l i hi := .inl (h.waits l ▸ hi)
  messages l i hi := .inl (by rwa [h.messages l, h.batch] at hi)
  ready l i hi := .inl (h.ready l ▸ hi)
  suspended i hi := .inl (h.suspended ▸ hi)
  notified p hp := .inl (h.notified ▸ hp)

theorem places_settle (s : Remote) (id : ℕ) (result : Option Errc) :
    Places s (s.settle id result) where
  __ := Places.refl s
  queue q i hi := by
    simp only [settle, unlink, setOp, queue_setQueue] at hi
    split_ifs at hi with h
    · exact .inl (h ▸ mem_of_mem_erase hi)
    · exact .inl hi

theorem loop_send (s : Remote) (l i : ℕ) (m : Message) :
    ((s.send l m).loop i).waits = (s.loop i).waits ∧
      ((s.send l m).loop i).ready = (s.loop i).ready ∧
      ((s.send l m).loop i).messages =
        if i = l then (s.loop i).messages ++ [m] else (s.loop i).messages := by
  by_cases h : i = l <;> simp [send, loop_setLoop, LoopState.send_eq, h]

theorem flags_send (s : Remote) (l i : ℕ) (m : Message) :
    ((s.send l m).loop i).stopping = (s.loop i).stopping ∧
      ((s.send l m).loop i).cancel = (s.loop i).cancel := by
  by_cases h : i = l <;> simp [send, loop_setLoop, LoopState.send_eq, h]

theorem places_send (s : Remote) (l : ℕ) {m : Message} (hm : ∀ i, m = .wait i → s.owner i = l) :
    Places s (s.send l m) where
  __ := Places.refl s
  waits i j hj := .inl ((loop_send s l i m).1 ▸ hj)
  messages i j hj := by
    rw [(loop_send s l i m).2.2] at hj
    split_ifs at hj with h
    · subst h
      by_cases hj' : m = .wait j
      · exact .inr (hm j hj')
      · refine .inl ?_
        simpa [send, setLoop, Ne.symm hj'] using hj
    · exact .inl hj
  ready i j hj := .inl ((loop_send s l i m).2.1 ▸ hj)

theorem loop_notify (s : Remote) (id l i : ℕ) : (s.notify id l).loop i =
    if i = s.owner id then (Owner.notify (s.part (s.owner id)) id).loop else s.loop i :=
  loop_onLoop ..

theorem places_notify (s : Remote) {id l : ℕ} (hl : s.owner id = l) : Places s (s.notify id l) where
  __ := Places.refl s
  waits i j hj := by
    rw [loop_notify] at hj
    split_ifs at hj with h
    · subst h
      simp only [Owner.loop_notify, part] at hj
      split_ifs at hj
      · exact .inl (mem_of_mem_erase hj)
      · exact .inl hj
    · exact .inl hj
  messages i j hj := by
    rw [loop_notify] at hj
    split_ifs at hj with h
    · subst h
      rw [Owner.loop_notify] at hj
      exact .inl hj
    · exact .inl hj
  ready i j hj := by
    rw [loop_notify] at hj
    split_ifs at hj with h
    · subst h
      simp only [Owner.loop_notify, part] at hj
      split_ifs at hj
      · rcases mem_append.mp hj with hj | hj
        · exact .inl hj
        · exact .inr (mem_singleton.mp hj ▸ rfl)
      · exact .inl hj
    · exact .inl hj
  notified p hp := by
    simp only [notify] at hp
    split_ifs at hp
    · rcases mem_append.mp hp with hp | hp
      · exact .inl hp
      · rw [mem_singleton] at hp
        exact .inr (hp ▸ hl.symm)
    · exact .inl hp

theorem places_enqueue (s : Remote) (hid : id < s.next) : Places s ((s.enlist id).link id) where
  __ := Places.refl s
  queue q i hi := by
    simp only [link, setOp, queue_setQueue] at hi
    split_ifs at hi with h
    · rcases mem_append.mp hi with hi | hi
      · exact .inl (h ▸ hi)
      · exact .inr (mem_singleton.mp hi ▸ h.symm)
    · exact .inl hi
  waits l i hi := by
    simp only [link, setOp, setQueue, enlist, loop_onLoop, Owner.loop_enlist] at hi
    split_ifs at hi with h
    · subst h
      rcases mem_cons.mp hi with hi | hi
      · exact .inr (hi ▸ rfl)
      · exact .inl hi
    · exact .inl hi
  messages l i hi := by
    simp only [link, setOp, setQueue, enlist, loop_onLoop, Owner.loop_enlist] at hi
    split_ifs at hi with h
    · exact .inl (h ▸ hi)
    · exact .inl hi
  ready l i hi := by
    simp only [link, setOp, setQueue, enlist, loop_onLoop, Owner.loop_enlist] at hi
    split_ifs at hi with h
    · exact .inl (h ▸ hi)
    · exact .inl hi
  suspended i hi := (mem_append.mp hi).imp_right fun hi => by
    rwa [mem_singleton.mp hi]

namespace Wired

theorem quiet (hs : Wired s) (h : Quiet s s') : Wired s' := by
  refine h.places.wired hs (h.tally ▸ hs.phase) (fun p hp => ?_) fun i hi => ?_
  · rw [h.error]
    exact hs.settled p (h.settled ▸ hp)
  · rw [h.destroyed] at hi
    rw [Destroyable, h.resumed, h.suspended]
    exact hs.destroyed i hi

theorem make (hs : Wired s) {op : Op} (hactive : op.active = false) (hlinked : op.linked = false) :
    Wired (s.make l q op) := by
  have hnew : s.next ∉ s.suspended := fun h => Nat.lt_irrefl _ (hs.suspended _ h)
  have hidle := hs.tally_eq_idle hnew
  obtain ⟨habsent, -, -⟩ := hs.absent (.inr hnew)
  have howner : ∀ i ≠ s.next, (s.make l q op).owner i = s.owner i := fun i hi => by
    rw [owner_make, if_neg hi]
  have hhome : ∀ i ≠ s.next, (s.make l q op).home i = s.home i := fun i hi => by
    rw [home_make, if_neg hi]
  have hop : ∀ i ≠ s.next, (s.make l q op).op i = s.op i := fun i hi => by
    rw [op_make, if_neg hi]
  have hsettled : ∀ p ∈ s.settled, p.1 ≠ s.next := not_mem_settled (by rw [hidle]; rfl)
  have hnotified : ∀ p ∈ s.notified, p.2 ≠ s.next := by
    intro p hp h
    have hzero : (s.tally s.next).notified = 0 := by rw [hidle]; rfl
    exact count_eq_zero.mp hzero (h ▸ mem_map_of_mem hp)
  refine
  { phase := fun i => ?_
    queue := fun q' i hi => ?_
    waits := fun l' i hi => ?_
    messages := fun l' i hi => ?_
    ready := fun l' i hi => ?_
    suspended := fun i hi => Nat.lt_succ_of_lt (hs.suspended i hi)
    settled := fun p hp => ?_
    notified := fun p hp => ?_
    destroyed := fun i hi => ⟨Nat.lt_succ_of_lt (hs.destroyed i hi).1, (hs.destroyed i hi).2⟩ }
  · by_cases hi : i = s.next
    · subst hi
      refine ⟨.idle, ?_⟩
      rw [← hidle]
      have hflight := count_eq_zero.mpr (habsent.messages l)
      have hflight' := count_eq_zero.mpr (habsent.messages (s.owner s.next))
      have hlinked' : (s.op s.next).linked = false := congrArg Tally.linked hidle
      have hactive' : (s.op s.next).active = false := congrArg Tally.active hidle
      ext <;> simp [tally, inFlight, Remote.make, hactive, hlinked, hactive', hlinked',
        count_eq_zero.mpr (habsent.queue _), count_eq_zero.mpr (habsent.waits _),
        count_eq_zero.mpr (habsent.ready _)]
      rw [← count_append, ← count_append, hflight, hflight']
    · obtain ⟨p, hp⟩ := hs.phase i
      refine ⟨p, ?_⟩
      rw [← hp, tally, howner i hi, hhome i hi, hop i hi, inFlight, howner i hi]
      rfl
  · rw [hhome i fun h => habsent.queue q' (h ▸ hi)]
    exact hs.queue q' i hi
  · rw [howner i fun h => habsent.waits l' (h ▸ hi)]
    exact hs.waits l' i hi
  · rw [howner i fun h => habsent.messages l' (h ▸ hi)]
    exact hs.messages l' i hi
  · rw [howner i fun h => habsent.ready l' (h ▸ hi)]
    exact hs.ready l' i hi
  · rw [hop p.1 (hsettled p hp)]
    exact hs.settled p hp
  · rw [howner p.2 (hnotified p hp)]
    exact hs.notified p hp

theorem fail (hs : Wired s) (hid : id ∉ s.suspended) (error : Errc) : Wired (s.fail id error) := by
  have hplaces : Places s (s.fail id error) := { Places.refl s with }
  have hsettled : (s.tally id).settled = 0 := by rw [hs.tally_eq_idle hid]; rfl
  refine hplaces.wired hs (tally_fail s id error ▸ hs.phase) (fun p hp => ?_) hs.destroyed
  rw [Remote.fail, op_setOp, if_neg (not_mem_settled hsettled p hp)]
  exact hs.settled p hp

theorem enqueue (hs : Wired s) (hid : s.Idle id) : Wired ((s.enlist id).link id) := by
  have hidle := hs.tally_eq_idle hid.suspended
  have hsettled : (s.tally id).settled = 0 := by rw [hidle]; rfl
  refine (places_enqueue s hid.lt_next).wired hs (fun i => ?_) (fun p hp => ?_) fun i hi => ?_
  · rw [tally_link]
    split_ifs with h
    · refine ⟨.linked, ?_⟩
      rw [tally_enlist, if_pos rfl, hidle]
      rfl
    · rw [tally_enlist, if_neg h]
      exact hs.phase i
  · have hne := not_mem_settled hsettled p hp
    rw [link, op_setOp, if_neg hne]
    exact (congrArg Op.error (Owner.op_enlist ..)).trans (by rw [if_neg hne]; exact hs.settled p hp)
  · obtain ⟨hlt, hdestroyable⟩ := hs.destroyed i hi
    refine ⟨hlt, hdestroyable.imp_right fun h hmem => ?_⟩
    rcases mem_append.mp hmem with hmem | hmem
    · exact h hmem
    · exact hid.destroyed (mem_singleton.mp hmem ▸ hi)

end Wired

theorem op_settle (s : Remote) (id : ℕ) (result : Option Errc) (i : ℕ) : (s.settle id result).op i =
    if i = id then { s.op id with linked := false, error := result } else s.op i := by
  by_cases h : i = id <;> simp [settle, unlink, setOp, setQueue, h]

theorem op_notify (s : Remote) (id l i : ℕ) : (s.notify id l).op i =
    if i = id ∧ (s.op id).active then { s.op id with callback := false, active := false }
    else s.op i :=
  Owner.op_notify ..

theorem error_notify (s : Remote) (id l i : ℕ) : ((s.notify id l).op i).error = (s.op i).error := by
  rw [op_notify]
  split_ifs with h
  · rw [h.1]
  · rfl

/-- The wait that is unlinked gets the result. -/
theorem error_settle (hs : Wired s) (hlinked : (s.op id).linked = true) {result : Option Errc} :
    ∀ p ∈ (s.settle id result).settled, ((s.settle id result).op p.1).error = p.2 := by
  intro p hp
  have hsettled : (s.tally id).settled = 0 := by rw [hs.tally_eq_linked hlinked]; rfl
  rw [op_settle]
  rcases mem_append.mp hp with hp | hp
  · rw [if_neg (not_mem_settled hsettled p hp)]
    exact hs.settled p hp
  · rw [mem_singleton] at hp
    rw [hp, if_pos rfl]

namespace Wired

theorem deliver (hs : Wired s) (hlinked : (s.op id).linked = true) (failure : Option Errc) :
    Wired (s.deliver id failure) := by
  have hplaces : Places s (s.deliver id failure) :=
    (places_settle s id failure).trans (places_send _ (s.owner id) fun i hi => by cases hi; rfl)
  refine hplaces.wired hs (fun i => ?_) (error_settle hs hlinked) hs.destroyed
  have hsend := tally_send (s.settle id failure) id i
  rw [tally_settle, tally_settle, if_pos rfl] at hsend
  change ∃ p : Phase,
    ((s.settle id failure).send ((s.settle id failure).owner id) (.wait id)).tally i =
    p.tally
  rw [hsend]
  split_ifs with h
  · refine ⟨.sent, ?_⟩
    rw [hs.tally_eq_linked hlinked]
    rfl
  · exact hs.phase i

theorem interrupt (hs : Wired s) (hlinked : (s.op id).linked = true)
    (hwaits : id ∈ (s.loop l).waits) : Wired (s.interrupt id l) := by
  have hphase := hs.tally_eq_linked hlinked
  have hactive : (s.op id).active = true := congrArg Tally.active hphase
  have hactive' : ((s.settle id (some .operationCanceled)).op id).active = true := by
    rw [op_settle, if_pos rfl]
    exact hactive
  rw [Remote.interrupt, if_pos hlinked]
  have hplaces := (places_settle s id (some .operationCanceled)).trans
    (places_notify _ (hs.waits l id hwaits))
  refine hplaces.wired hs (fun i => ?_) (fun p hp => ?_) hs.destroyed
  · rw [tally_notify _ hactive', tally_settle, tally_settle, if_pos rfl]
    split_ifs with h
    · refine ⟨.done, ?_⟩
      rw [hphase]
      rfl
    · exact hs.phase i
  · rw [error_notify]
    exact error_settle hs hlinked p hp

theorem send (hs : Wired s) (l n : ℕ) : Wired (s.send l (.hop n)) := by
  refine (places_send s l fun i hi => by cases hi).wired hs (fun i => ?_) hs.settled hs.destroyed
  rw [tally_send_hop]
  exact hs.phase i

theorem detach (hs : Wired s) (l budget : ℕ) : Wired (s.detach l budget) := by
  have hplaces : Places s (s.detach l budget) := by
    unfold Remote.detach
    split_ifs with hbatch
    · refine
        { Places.refl s with
          waits := fun i j hj => ?_
          messages := fun i j hj => ?_
          ready := fun i j hj => ?_ }
      all_goals
        simp only [loop_setLoop] at hj
        refine .inl ?_
      · split_ifs at hj with h
        · exact h ▸ hj
        · exact hj
      · by_cases h : i = l
        · subst h
          simp only [if_pos, update_self] at hj
          rw [mem_append, or_comm, ← mem_append, take_append_drop] at hj
          exact mem_append_left _ hj
        · simpa [h] using hj
      · split_ifs at hj with h
        · exact h ▸ hj
        · exact hj
    · exact .refl s
  refine hplaces.wired hs (tally_detach s l budget ▸ hs.phase) ?_ ?_
  · unfold Remote.detach
    split_ifs <;> exact hs.settled
  · unfold Remote.detach
    split_ifs <;> exact hs.destroyed

theorem dropMessage_places (s : Remote) (l : ℕ) : Places s (s.dropMessage l) where
  __ := Places.refl s
  messages i j hj := by
    refine .inl ?_
    simp only [dropMessage, update_apply] at hj
    split_ifs at hj with h
    · subst h
      exact mem_append.mpr ((mem_append.mp hj).imp_right mem_of_mem_tail)
    · exact hj

theorem message (hs : Wired s) (l : ℕ) : Wired (s.message l) := by
  unfold Remote.message
  split
  · exact hs
  · rename_i id rest hbatch
    have hmem : .wait id ∈ (s.loop l).messages ++ s.batch l :=
      mem_append_right _ (hbatch ▸ mem_cons_self)
    have howner := hs.messages l id hmem
    have hflight : 0 < s.inFlight id := count_pos_iff.mpr (howner ▸ hmem)
    have hphase := hs.tally_eq_sent hflight
    have hactive : ((s.dropMessage l).op id).active = true := congrArg Tally.active hphase
    have hdrop := tally_dropMessage s hbatch fun i hi => by cases hi; exact howner
    refine ((dropMessage_places s l).trans (places_notify _ howner)).wired hs (fun i => ?_)
      (fun p hp => ?_) hs.destroyed
    · rw [tally_notify _ hactive, hdrop, if_pos rfl, hdrop]
      split_ifs with h h'
      · refine ⟨.done, ?_⟩
        rw [hphase]
        rfl
      · cases h'
        exact absurd rfl h
      · exact hs.phase i
    · rw [error_notify]
      exact hs.settled p hp
  · rename_i n rest hbatch
    have hdrop := tally_dropMessage s hbatch fun i hi => by cases hi
    refine (dropMessage_places s l).wired hs (fun i => ?_) hs.settled hs.destroyed
    rw [hdrop, if_neg (by simp)]
    exact hs.phase i

theorem resume (hs : Wired s) (l : ℕ) : Wired (s.resume l) := by
  have htally := tally_resume s (hs.ready l)
  revert htally
  unfold Remote.resume
  split
  · exact fun _ => hs
  · rename_i id rest hready
    intro htally
    have hplaces : Places s { s.setLoop l fun loop => { loop with ready := rest } with
        resumed := s.resumed ++ [id] } := by
      refine
        { Places.refl s with
          waits := fun i j hj => ?_
          messages := fun i j hj => ?_
          ready := fun i j hj => ?_ }
      all_goals
        simp only [loop_setLoop] at hj
        refine .inl ?_
        split_ifs at hj with h
      · exact h ▸ hj
      · exact hj
      · exact h ▸ hj
      · exact hj
      · subst h
        exact hready ▸ mem_cons_of_mem _ hj
      · exact hj
    refine hplaces.wired hs (htally ▸ hs.phase) hs.settled fun i hi => ?_
    obtain ⟨hlt, hd⟩ := hs.destroyed i hi
    exact ⟨hlt, hd.imp_left (mem_append_left _)⟩

theorem destroy (hs : Wired s) (id : ℕ) : Wired (s.destroy id) := by
  unfold Remote.destroy
  split_ifs with h
  · have hplaces : Places s { s with destroyed := s.destroyed ++ [id] } := { Places.refl s with }
    refine hplaces.wired hs hs.phase hs.settled fun i hi => ?_
    rcases mem_append.mp hi with hi | hi
    · exact hs.destroyed i hi
    · rw [mem_singleton.mp hi]
      exact h
  · exact hs

theorem micro (hs : Wired s) (h : Micro t s s') : Wired s' := by
  cases h with
  | quiet h => exact hs.quiet h
  | make hq hactive hlinked herror => exact hs.make hactive hlinked
  | fail hid hsuspended ht error => exact hs.fail hsuspended error
  | enqueue hid ht => exact hs.enqueue hid
  | deliver hlinked ht => exact hs.deliver hlinked _
  | interrupt hlinked hwaits => exact hs.interrupt hlinked hwaits
  | send l n => exact hs.send l n
  | detach l budget => exact hs.detach l budget
  | message l => exact hs.message l
  | resume l => exact hs.resume l
  | destroy id => exact hs.destroy id

theorem moves (hs : Wired s) (hm : Moves t s s') : Wired s' := by
  induction hm with
  | refl => exact hs
  | tail _ h ih => exact ih.micro h

end Wired

/-! ### Runs -/

/-- Some waits are delivered with an error. -/
structure Sheds (s s' : Remote) : Prop where
  moves : Moves ∅ s s'
  suspended : s'.suspended = s.suspended
  destroyed : s'.destroyed = s.destroyed

theorem Quiet.sheds (h : Quiet s s') : Sheds s s' := ⟨h.moves, h.suspended, h.destroyed⟩

theorem Sheds.trans {s₁ s₂ s₃ : Remote} (h : Sheds s₁ s₂) (h' : Sheds s₂ s₃) : Sheds s₁ s₃ :=
  ⟨h.moves.trans h'.moves, h'.suspended.trans h.suspended, h'.destroyed.trans h.destroyed⟩

theorem sheds_deliver (hlinked : (s.op id).linked = true) (error : Errc) :
    Sheds s (s.deliver id (some error)) := by
  have h : Micro ∅ s (s.deliver id (some error)) := .deliver hlinked nofun
  exact ⟨h.moves, rfl, rfl⟩

theorem queue_deliver (s : Remote) (id : ℕ) (failure : Option Errc) (hhome : s.home id = q) :
    (s.deliver id failure).queue q = (s.queue q).erase id := by
  change (s.setQueue (s.home id) (·.erase id)).queue q = _
  rw [hhome, queue_setQueue, if_pos rfl]

/-- `front` prunes the queue up to its first live wait, which it returns. -/
theorem front_cases (hs : Wired s) {ids : List ℕ} (hids : s.queue q = ids) : ∃ s', Sheds s s' ∧
    (s.front ids = (s', none) ∧ s'.queue q = [] ∨
      ∃ id rest, s.front ids = (s', some id) ∧ s'.queue q = id :: rest) := by
  induction ids generalizing s with
  | nil => exact ⟨s, ⟨.refl, rfl, rfl⟩, .inl ⟨rfl, hids⟩⟩
  | cons id rest ih =>
    have hquiet := Quiet.dead s id
    unfold front
    generalize s.dead id = r at hquiet
    obtain ⟨s₁, _ | _⟩ := r
    · exact ⟨s₁, hquiet.sheds, .inr ⟨id, rest, rfl, hquiet.queue ▸ hids⟩⟩
    · have hs₁ := hs.quiet hquiet
      have hids₁ : s₁.queue q = id :: rest := hquiet.queue ▸ hids
      have hmem : id ∈ s₁.queue q := hids₁ ▸ mem_cons_self
      have hdeliver := sheds_deliver (hs₁.linked_of_mem hmem) .operationCanceled
      have hids₂ : (s₁.deliver id (some .operationCanceled)).queue q = rest := by
        rw [queue_deliver s₁ id _ (hs₁.queue q id hmem), hids₁, erase_cons_head]
      obtain ⟨s₂, hm, h⟩ := ih (hs₁.moves hdeliver.moves) hids₂
      exact ⟨s₂, hquiet.sheds.trans (hdeliver.trans hm), h⟩

/-- One round of the loop `drain`: the first wait is delivered with the verdict, or as canceled. -/
theorem drain_cons (s : Remote) (verdict : ℕ → Option Errc) (id : ℕ) (ids : List ℕ) :
    ∃ s₁ failure, Quiet s s₁ ∧ (failure = verdict id ∨ failure = some .operationCanceled) ∧
      s.drain verdict (id :: ids) = (s₁.deliver id failure).drain verdict ids := by
  have hq := Quiet.dead s id
  rw [drain]
  generalize s.dead id = r at hq ⊢
  obtain ⟨s₁, _ | _⟩ := r
  · exact ⟨s₁, verdict id, hq, .inl rfl, rfl⟩
  · exact ⟨s₁, some .operationCanceled, hq, .inr rfl, rfl⟩

/-- The first wait of a queue is delivered. -/
theorem micro_deliver_head (hs : Wired s) {ids : List ℕ} (hids : s.queue q = id :: ids)
    (failure : Option Errc) :
    Micro {q} s (s.deliver id failure) ∧ (s.deliver id failure).queue q = ids := by
  have hmem : id ∈ s.queue q := hids ▸ mem_cons_self
  have hhome := hs.queue q id hmem
  refine ⟨.deliver (hs.linked_of_mem hmem) fun _ => hhome, ?_⟩
  rw [queue_deliver s id _ hhome, hids, erase_cons_head]

/-- The loop `drain` leaves no wait in the queue. -/
theorem moves_drain (hs : Wired s) (verdict : ℕ → Option Errc) {ids : List ℕ}
    (hids : s.queue q = ids) :
    Moves {q} s (s.drain verdict ids) ∧ (s.drain verdict ids).queue q = [] := by
  induction ids generalizing s with
  | nil => exact ⟨.refl, hids⟩
  | cons id ids ih =>
    obtain ⟨s₁, failure, hq, -, hdrain⟩ := drain_cons s verdict id ids
    have hs₁ := hs.quiet hq
    obtain ⟨hmicro, hqueue⟩ := micro_deliver_head hs₁ (hq.queue ▸ hids) failure
    obtain ⟨hmoves, hempty⟩ := ih (hs₁.micro hmicro) hqueue
    rw [hdrain]
    exact ⟨hq.moves.trans (hmicro.moves.trans hmoves), hempty⟩

/-- An owner thread completes waits with an error only. -/
theorem moves_ownerAct (s : Remote) (a : OwnerAct) : Moves ∅ s (s.ownerAct a) := by
  cases a with
  | send l n => exact (Micro.send l n).moves
  | scan id l =>
    simp only [ownerAct, scan]
    split_ifs with h
    · by_cases hlinked : (s.op id).linked = true
      · exact (Micro.interrupt hlinked h.1).moves
      · rw [interrupt, if_neg hlinked]
        exact .refl
    · exact .refl
  | detach l budget => exact (Micro.detach l budget).moves
  | message l => exact (Micro.message l).moves
  | resume l => exact (Micro.resume l).moves
  | destroy id => exact (Micro.destroy id).moves

/-- An idle wait stores an error. -/
theorem Idle.moves_fail (hid : s.Idle id) (hq : Quiet s s') (ht : s.home id ∈ t) (error : Errc) :
    Moves t s (s'.fail id error) :=
  hq.moves.trans (Micro.fail (hq.idle hid).lt_next (hq.idle hid).suspended
    (hq.home ▸ ht) error).moves

theorem moves_canceledNow (hid : s.Idle id) (ht : s.home id ∈ t) :
    Moves t s (s.canceledNow id).1 := by
  obtain ⟨s', hq, h | h⟩ := canceledNow_cases s id
  all_goals rw [h]
  · exact hid.moves_fail hq ht _
  · exact hq.moves

theorem moves_enqueue (hid : s.Idle id) (ht : s.home id ∈ t) : Moves t s (s.enqueue id).1 := by
  obtain ⟨s', hq, h | h⟩ := enqueue_cases s id
  all_goals rw [h]
  · exact hid.moves_fail hq ht _
  · exact hq.moves.trans (Micro.enqueue (hq.idle hid) (hq.home ▸ ht)).moves

theorem moves_act (hs : Wired s) (a : Act) : Moves .univ s (s.act a) := by
  cases a with
  | make q l token interruptible => exact (Micro.make (Set.mem_univ _) rfl rfl rfl).moves
  | canceledNow id =>
    simp only [act]
    split_ifs with hid
    · exact moves_canceledNow hid (Set.mem_univ _)
    · exact .refl
  | enqueue id =>
    simp only [act]
    split_ifs with hid
    · exact moves_enqueue hid (Set.mem_univ _)
    · exact .refl
  | deliver id failure =>
    simp only [act]
    split_ifs with hlinked
    · exact (Micro.deliver hlinked fun _ => Set.mem_univ _).moves
    · exact .refl
  | front q =>
    obtain ⟨s', hm, ⟨h, -⟩ | ⟨id, rest, h, -⟩⟩ := front_cases hs (q := q) rfl
    all_goals
      simp only [act, h]
      exact hm.moves.mono (Set.empty_subset _)
  | owner a => exact (moves_ownerAct s a).mono (Set.empty_subset _)

theorem Wired.step (hs : Wired s) (a : Act × List (List Async)) : Wired (step s a) := by
  have hs₁ := (hs.quiet (.sched s a.2)).quiet (.interfere _)
  exact hs₁.moves (moves_act hs₁ a.1)

theorem Wired.run (hs : Wired s) (as : List (Act × List (List Async))) : Wired (run s as) := by
  induction as generalizing s with
  | nil => exact hs
  | cons a as ih => exact ih (hs.step a)

theorem Reachable.wired (hs : Reachable s) : Wired s := by
  obtain ⟨as, rfl⟩ := hs
  exact Wired.init.run as

/-! ### Completion -/

/-- The loop of the wait `id` notifies it. -/
structure Notifies (id : ℕ) (s s' : Remote) : Prop where
  active : (s'.op id).active = false
  ready : (s'.loop (s.owner id)).ready = (s.loop (s.owner id)).ready ++ [id]
  notified : s'.notified = s.notified ++ [(s.owner id, id)]

theorem notifies_notify (hactive : (s.op id).active = true) :
    Notifies id s (s.notify id (s.owner id)) where
  active := by simp [op_notify, hactive]
  ready := by simp [loop_notify, Owner.loop_notify, part, hactive]
  notified := if_pos hactive

/-- A linked wait that is delivered has a message. -/
theorem Wired.deliver_spec (hs : Wired s) (hlinked : (s.op id).linked = true)
    (failure : Option Errc) : ((s.deliver id failure).op id).linked = false ∧
      ((s.deliver id failure).op id).error = failure ∧ (s.deliver id failure).inFlight id = 1 := by
  have hop : (s.deliver id failure).op id = (s.settle id failure).op id := rfl
  have htally := tally_send (s.settle id failure) id id
  rw [if_pos rfl, tally_settle, if_pos rfl, hs.tally_eq_linked hlinked] at htally
  rw [hop, op_settle, if_pos rfl]
  exact ⟨rfl, rfl, congrArg Tally.inFlight htally⟩

/-- The message of a wait notifies it. -/
theorem Wired.notifies_message (hs : Wired s) {rest : List Message}
    (hbatch : s.batch l = .wait id :: rest) :
    Notifies id s (s.message l) ∧ (s.message l).batch l = rest := by
  have hmem : .wait id ∈ (s.loop l).messages ++ s.batch l :=
    mem_append_right _ (hbatch ▸ mem_cons_self)
  obtain rfl := hs.messages l id hmem
  have hphase := hs.tally_eq_sent (count_pos_iff.mpr hmem)
  have hactive : ((s.dropMessage (s.owner id)).op id).active = true := congrArg Tally.active hphase
  have hnotifies := notifies_notify hactive
  rw [Remote.message, hbatch]
  refine ⟨⟨hnotifies.active, hnotifies.ready, hnotifies.notified⟩, ?_⟩
  change Function.update s.batch (s.owner id) (s.batch (s.owner id)).tail (s.owner id) = rest
  rw [update_self, hbatch, tail_cons]

/-- The scan notifies a linked wait that is canceled or whose loop is stopped. -/
theorem Wired.notifies_scan (hs : Wired s) (hlinked : (s.op id).linked = true)
    (hinterruptible : (s.op id).interruptible = true)
    (hdead : (s.loop (s.owner id)).stopping = true ∨ (s.op id).canceled = true) :
    Notifies id s (s.scan id (s.owner id)) ∧ ((s.scan id (s.owner id)).op id).linked = false ∧
      ((s.scan id (s.owner id)).op id).error = some .operationCanceled := by
  have hphase := hs.tally_eq_linked hlinked
  have hwaits : (s.loop (s.owner id)).waits.count id = 1 := congrArg Tally.waiting hphase
  have hmem : id ∈ (s.loop (s.owner id)).waits := count_pos_iff.mp (hwaits ▸ Nat.one_pos)
  have hop : (s.settle id (some .operationCanceled)).op id =
      { s.op id with linked := false, error := some .operationCanceled } := by
    rw [op_settle, if_pos rfl]
  have hactive : ((s.settle id (some .operationCanceled)).op id).active = true := by
    rw [hop]
    exact congrArg Tally.active hphase
  have hnotifies := notifies_notify hactive
  rw [scan, if_pos ⟨hmem, hinterruptible, hdead⟩, Remote.interrupt, if_pos hlinked]
  refine ⟨⟨hnotifies.active, hnotifies.ready, hnotifies.notified⟩, ?_⟩
  rw [op_notify, if_pos ⟨rfl, hactive⟩, hop]
  exact ⟨rfl, rfl⟩

/-- **A wait completes exactly once, on its own loop, with the result of the one who unlinks it.**
In every reachable state:

* an active wait is linked, once and in its own queue, or has exactly one message in flight, and not
  both; an inactive one is neither linked nor in flight; and all its messages are at its own loop;
* of each wait that has been enqueued, one notification has taken effect as soon as it is inactive,
  and none before, and it was the own loop of the wait that ran it;
* a wait that can be destroyed has its destructor's condition, and no queue and no list of a loop
  refers to it, in particular no message;
* exactly one result was recorded for an enqueued wait that is no longer linked, none before, and
  its error is that result;
* `deliver` gives a linked wait its result and sends its message; the own loop of the wait notifies
  it when it runs the message, and when its scan reaches a linked wait that is canceled or whose
  loop is stopped. -/
theorem remote_wait_completes_once (hs : Reachable s) :
    (∀ id, (s.op id).active = true →
      (s.op id).linked = true ∧ (s.queue (s.home id)).count id = 1 ∧ s.inFlight id = 0 ∨
      (s.op id).linked = false ∧ (s.queue (s.home id)).count id = 0 ∧ s.inFlight id = 1) ∧
    (∀ id, (s.op id).active = false → (s.op id).linked = false ∧ (∀ q, id ∉ s.queue q) ∧
      ∀ l, .wait id ∉ (s.loop l).messages ++ s.batch l) ∧
    (∀ q, ∀ id ∈ s.queue q, s.home id = q) ∧
    (∀ l id, .wait id ∈ (s.loop l).messages ++ s.batch l → s.owner id = l) ∧
    (∀ id ∈ s.suspended, (s.notified.map Prod.snd).count id =
      if (s.op id).active then 0 else 1) ∧
    (∀ p ∈ s.notified, p.2 ∈ s.suspended ∧ p.1 = s.owner p.2) ∧
    (∀ id, s.Destroyable id → s.Absent id ∧ (s.op id).active = false ∧ (s.op id).linked = false) ∧
    (∀ id ∈ s.destroyed, s.Absent id) ∧
    (∀ id ∈ s.suspended, (s.settled.map Prod.fst).count id = if (s.op id).linked then 0 else 1) ∧
    (∀ p ∈ s.settled, p.1 ∈ s.suspended ∧ (s.op p.1).error = p.2) ∧
    (∀ id failure, (s.op id).linked = true → ((s.deliver id failure).op id).linked = false ∧
      ((s.deliver id failure).op id).error = failure ∧ (s.deliver id failure).inFlight id = 1) ∧
    (∀ l id rest, s.batch l = .wait id :: rest →
      Notifies id s (s.message l) ∧ (s.message l).batch l = rest) ∧
    ∀ id, (s.op id).linked = true → (s.op id).interruptible = true →
      (s.loop (s.owner id)).stopping = true ∨ (s.op id).canceled = true →
      Notifies id s (s.scan id (s.owner id)) ∧ ((s.scan id (s.owner id)).op id).linked = false ∧
        ((s.scan id (s.owner id)).op id).error = some .operationCanceled := by
  have hw := hs.wired
  refine ⟨fun id hactive => ?_, fun id hactive => ?_, hw.queue, hw.messages, fun id hid => ?_,
    fun p hp => ⟨?_, hw.notified p hp⟩, fun id => hw.absent,
    fun id hid => (hw.absent (hw.destroyed id hid).2).1, fun id hid => ?_,
    fun p hp => ⟨?_, hw.settled p hp⟩, fun id failure h => hw.deliver_spec h failure,
    fun l id rest => hw.notifies_message, fun id => hw.notifies_scan⟩
  · obtain ⟨p, hp⟩ := hw.phase id
    have hactive' : p.tally.active = true := hp ▸ hactive
    have hlinked : (s.op id).linked = p.tally.linked := congrArg Tally.linked hp
    have hqueued : (s.queue (s.home id)).count id = p.tally.queued := congrArg Tally.queued hp
    have hflight : s.inFlight id = p.tally.inFlight := congrArg Tally.inFlight hp
    rw [hlinked, hqueued, hflight]
    cases p with
    | linked => exact .inl ⟨rfl, rfl, rfl⟩
    | sent => exact .inr ⟨rfl, rfl, rfl⟩
    | _ => exact absurd hactive' Bool.false_ne_true
  · obtain ⟨p, hp⟩ := hw.phase id
    have hactive' : p.tally.active = false := hp ▸ hactive
    have hzero : p.tally.linked = false ∧ p.tally.queued = 0 ∧ p.tally.inFlight = 0 := by
      cases p with
      | linked | sent => exact absurd hactive'.symm Bool.false_ne_true
      | _ => exact ⟨rfl, rfl, rfl⟩
    rw [← hp] at hzero
    exact ⟨hzero.1, fun q h => count_eq_zero.mp hzero.2.1 (hw.queue q id h ▸ h),
      fun l h => count_eq_zero.mp hzero.2.2 (hw.messages l id h ▸ h)⟩
  · obtain ⟨p, hp⟩ := hw.phase id
    have hsuspended : 0 < p.tally.suspended := hp ▸ count_pos_iff.mpr hid
    have hactive : (s.op id).active = p.tally.active := congrArg Tally.active hp
    have hnotified : (s.notified.map Prod.snd).count id = p.tally.notified :=
      congrArg Tally.notified hp
    rw [hactive, hnotified]
    cases p with
    | idle => exact absurd hsuspended (Nat.lt_irrefl 0)
    | _ => rfl
  · refine Classical.byContradiction fun h => ?_
    have hzero : (s.tally p.2).notified = 0 := by rw [hw.tally_eq_idle h]; rfl
    exact count_eq_zero.mp hzero (mem_map_of_mem hp)
  · obtain ⟨p, hp⟩ := hw.phase id
    have hsuspended : 0 < p.tally.suspended := hp ▸ count_pos_iff.mpr hid
    have hlinked : (s.op id).linked = p.tally.linked := congrArg Tally.linked hp
    have hsettled : (s.settled.map Prod.fst).count id = p.tally.settled :=
      congrArg Tally.settled hp
    rw [hlinked, hsettled]
    cases p with
    | idle => exact absurd hsuspended (Nat.lt_irrefl 0)
    | _ => rfl
  · refine Classical.byContradiction fun h => ?_
    have hzero : (s.tally p.1).settled = 0 := by rw [hw.tally_eq_idle h]; rfl
    exact count_eq_zero.mp hzero (mem_map_of_mem hp)

/-- A wait has been delivered and its token canceled after that, and the loop has detached the
message; another wait is linked, and its token is canceled too. -/
def deliveredState : Remote :=
  run {} [(.make 0 1 (some 0) true, []), (.enqueue 0, []), (.make 0 1 (some 1) true, []),
    (.enqueue 1, []), (.deliver 0 none, []),
    (.owner (.scan 0 1), [[.request 0, .fire 0, .request 1, .fire 1, .raise 1]]),
    (.owner (.detach 1 64), [])]

theorem remote_wait_completes_once_deliveredState : Reachable deliveredState ∧
    (deliveredState.op 0).canceled = true ∧ deliveredState.inFlight 0 = 1 ∧
    (deliveredState.op 0).error = none ∧ Notifies 0 deliveredState (deliveredState.message 1) ∧
    Notifies 1 deliveredState (deliveredState.scan 1 1) := by
  have hs : Reachable deliveredState := ⟨_, rfl⟩
  have hstate : (deliveredState.op 0).active = true ∧ (deliveredState.op 0).linked = false ∧
      (deliveredState.op 0).canceled = true ∧ (0, none) ∈ deliveredState.settled ∧
      deliveredState.batch 1 = [.wait 0] ∧ (deliveredState.op 1).linked = true ∧
      (deliveredState.op 1).interruptible = true ∧ (deliveredState.op 1).canceled = true := by
    decide
  obtain ⟨hactive, hunlinked, hcanceled, hmem, hbatch, hlinked, hinterruptible, hdead⟩ := hstate
  obtain ⟨hphase, -, -, -, -, -, -, -, -, hsettled, -, hmessage, hscan⟩ :=
    remote_wait_completes_once hs
  obtain ⟨hlinked', -⟩ | ⟨-, -, hflight⟩ := hphase 0 hactive
  · exact absurd (hunlinked.symm.trans hlinked') Bool.false_ne_true
  · exact ⟨hs, hcanceled, hflight, (hsettled _ hmem).2, (hmessage 1 0 [] hbatch).1,
      (hscan 1 hlinked hinterruptible (.inr hdead)).1⟩

end Snowy.Remote
