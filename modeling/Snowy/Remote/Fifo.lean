import Snowy.Remote.Exchange

/-!
# Delivery by mailboxes

The contracts of `mailbox` for every interleaving of the threads: no match is missed, and values are
delivered once and in order. Nothing comes into a closed mailbox, so the receives drain it; but a
`recv` that finds its loop stopped or its token canceled before it takes the mutex throws and takes
nothing.

## Main results

* `Snowy.Mail.mailbox_never_misses` : the waiters match the contents of the buffer.
* `Snowy.Mail.mailbox_fifo` : exactly-once delivery in order.
* `Snowy.Mail.recv_throws_of_stop` : a receive on a stopped loop does not yield `nullopt`.
-/

namespace Snowy.Mail

open List

open Remote

variable {α : Type*} {m m' : Mail α} {id b : ℕ} {x : α}

/-! ### Matching -/

/-- **A mailbox never misses a match.** In every state in which the mutex is free: all linked
waiters have the same direction; senders are linked only when the buffer is full and receivers only
when it is empty; nobody is linked once the mailbox is closed; and the engaged slots are exactly the
`size_` slots from `head_` on. -/
theorem mailbox_never_misses (hm : Reachable m) (b : ℕ) :
    (∀ i ∈ m.queue b, ∀ j ∈ m.queue b, (m.node i).sending = (m.node j).sending) ∧
    (∀ i ∈ m.queue b, (m.node i).sending = true →
      (m.box b).ring.size = (m.box b).ring.capacity) ∧
    (∀ i ∈ m.queue b, (m.node i).sending = false → (m.box b).ring.size = 0) ∧
    ((m.box b).closed = true → m.queue b = []) ∧
    (m.box b).ring.size ≤ (m.box b).ring.capacity ∧
    (0 < (m.box b).ring.capacity → (m.box b).ring.head < (m.box b).ring.capacity) ∧
    (∀ i < (m.box b).ring.capacity,
      ((m.box b).ring.slots[((m.box b).ring.head + i) % (m.box b).ring.capacity]?).join.isSome ↔
        i < (m.box b).ring.size) ∧
    (∀ i, (m.op i).linked = true ↔ i ∈ m.queue (m.home i)) := by
  have hs := hm.sound
  obtain ⟨hsides, hfull, hempty, hidle, hvalid⟩ := (hs.booked b).ledger.matching
  change (m.box b).ring.Valid at hvalid
  refine ⟨hsides, hfull, hempty, hidle, hvalid.size_le, hvalid.head_lt, hvalid.engaged,
    fun i => ⟨fun hlinked => ?_, hs.wired.linked_of_mem⟩⟩
  have hqueued : (m.queue (m.home i)).count i = 1 :=
    congrArg Tally.queued (hs.wired.tally_eq_linked hlinked)
  exact count_pos_iff.mp (hqueued ▸ Nat.one_pos)

/-- Two senders wait at a full mailbox, and the hook of a stopped loop takes out the first. -/
def blockedState : Mail ℕ :=
  run (init fun _ => 1) [(.trySend 0 5, []), (.begin ⟨0, 1, none, some 6⟩, []), (.enter 0, []),
    (.begin ⟨0, 2, none, some 7⟩, []), (.enter 0, []), (.owner (.scan 1 1), [[.stop 1]])]

theorem mailbox_never_misses_blockedState : Reachable blockedState ∧
    blockedState.queue 0 = [2] ∧ (blockedState.box 0).ring.size = 1 := by
  have hm : Reachable blockedState := ⟨_, _, rfl⟩
  have hstate : blockedState.queue 0 = [2] ∧ (blockedState.node 2).sending = true := by decide
  refine ⟨hm, hstate.1, (mailbox_never_misses hm 0).2.1 2 ?_ hstate.2⟩
  rw [hstate.1]
  exact mem_singleton_self 2

/-! ### Closed mailboxes -/

/-- A receive with the operation `id` takes the first buffered value at once, or yields `nullopt` if
there is none. -/
structure Drains (b id : ℕ) (m m' : Mail α) : Prop where
  value : (m'.node id).value = (m.box b).ring.toList.head?
  error : (m'.op id).error = none
  suspended : id ∉ m'.suspended
  buffer : (m'.box b).ring.toList = (m.box b).ring.toList.tail
  handed : (m'.box b).handed.map Prod.snd =
    (m.box b).handed.map Prod.snd ++ (m.box b).ring.toList.head?.toList

/-- Without waiters, `mailbox::pop` takes the first buffered value. -/
theorem pop_of_queue_nil (hws : m.queue b = []) (hvalid : (m.box b).ring.Valid) (id : ℕ) :
    (m.box b).ring.toList = [] ∧ m.pop id b = (m, none) ∨
      ∃ x, (m.box b).ring.toList = x :: (m.box b).ring.pop.toList ∧
        m.pop id b = ((m.dropFront b).hand id b x, some x) := by
  have hsender : ∀ (m' : Mail α) (value : Option α), m'.queue b = [] →
      m'.popSender b value = (m', value) := fun m' value h => by
    rw [popSender, front, h]
    rfl
  unfold pop popBuffered
  dsimp only
  split_ifs with hsize
  · refine .inl ⟨?_, ?_⟩
    · rw [← length_eq_zero_iff, hvalid.length_toList, hsize]
    · rw [hsender m none hws]
  · have hpos := Nat.pos_of_ne_zero hsize
    obtain ⟨x, hx⟩ := hvalid.slot_zero hpos
    refine .inr ⟨x, hvalid.toList_pop hpos hx, ?_⟩
    rw [hx, hsender (m.dropFront b) _ hws]

/-- A receive drains a closed mailbox. -/
theorem drains_pop (hs : Sound m) (hclosed : (m.box b).closed = true) {l : ℕ} {op : Op}
    {m₁ : Mail α} (hm₁ : m.alloc b l op (.call b none) = m₁) (herror : op.error = none) :
    m₁.pop m.next b = (m₁, none) ∧ Drains b m.next m m₁ ∨
      ∃ m₂ x, m₁.pop m.next b = (m₂, some x) ∧
        Drains b m.next m (m₂.setNode m.next fun n => { n with value := some x }) := by
  obtain ⟨-, -, -, hidle, hvalid⟩ := (hs.booked b).ledger.matching
  have hws : m₁.queue b = [] := hm₁ ▸ hidle hclosed
  have hbox : m₁.box b = m.box b := hm₁ ▸ rfl
  have hid : m₁.Idle m.next := hm₁ ▸ idle_alloc hs.wired _ _ herror
  have hvalue : (m₁.node m.next).value = none :=
    hm₁ ▸ congrArg Node.value ((node_alloc ..).trans (if_pos rfl))
  replace hvalid : (m₁.box b).ring.Valid := hbox ▸ hvalid
  rcases pop_of_queue_nil hws hvalid m.next with ⟨hnil, h⟩ | ⟨x, hcons, h⟩
  · refine .inl ⟨h, ⟨?_, hid.error, hid.suspended, ?_, ?_⟩⟩ <;> rw [hbox] at hnil
    · rw [hvalue, hnil, List.head?_nil]
    · rw [hbox, hnil, tail_nil]
    · rw [hbox, hnil, List.head?_nil, Option.toList_none, append_nil]
  · refine .inr ⟨_, x, h, ?_⟩
    have hbox' : (((m₁.dropFront b).hand m.next b x).setNode m.next
        fun n => { n with value := some x }).box b = { m₁.box b with
          ring := (m₁.box b).ring.pop
          handed := (m₁.box b).handed ++ [(m.next, x)] } := by
      simp [setNode, hand, dropFront, setBox]
    refine ⟨?_, hid.error, hid.suspended, ?_, ?_⟩
    · rw [node_setNode, if_pos rfl, ← hbox, hcons]
      rfl
    · rw [hbox', ← hbox, hcons]
      rfl
    · rw [hbox', ← hbox, hcons]
      simp

/-- What a receive does under the mutex of a closed mailbox. -/
theorem drains_commit (hs : Sound m) (e : Entry α) (hclosed : (m.box e.box).closed = true)
    (he : e.value = none) : Drains e.box m.next m (m.commit e) := by
  have hclosed' : ((m.allocEntry e).box e.box).closed = true := hclosed
  have halloc : m.alloc e.box e.owner { token := e.token, interrupt := true } (.call e.box none) =
      m.allocEntry e := by rw [allocEntry, Entry.node, he]
  unfold commit
  dsimp only
  rw [he]
  dsimp only
  unfold commitRecv
  rcases drains_pop hs hclosed halloc rfl with ⟨h, hdrains⟩ | ⟨m₂, x, h, hdrains⟩
  · rw [h]
    dsimp only
    rwa [if_pos hclosed']
  · rwa [h]

/-- What `try_recv()` does on a closed mailbox. -/
theorem drains_tryRecv (hs : Sound m) (hclosed : (m.box b).closed = true) :
    Drains b m.next m (m.tryRecv b) := by
  unfold tryRecv
  dsimp only
  rcases drains_pop hs hclosed (rfl : m.alloc b 0 {} _ = _) rfl with
    ⟨h, hdrains⟩ | ⟨m₂, x, h, hdrains⟩
  · rwa [h]
  · rwa [h]

/-- The check before the mutex: the receive fails and takes nothing, or it goes on to the mutex. -/
theorem begin_recv (hw : m.Wired) (e : Entry α) (he : e.value = none) :
    (m.begin e).box = m.box ∧
    ((m.begin e).entering = m.entering ++ [e] ∧ (m.begin e).next = m.next ∨
      ((m.begin e).op m.next).error = some .operationCanceled ∧
      ((m.begin e).node m.next).value = none ∧
      m.next ∉ (m.begin e).suspended ∧
      (((m.begin e).loop e.owner).stopping = true ∨ (m.begin e).stopRequested e.token = true)) := by
  have hq := Quiet.halted m.toRemote e.owner e.token
  have hflag : (m.toRemote.halted e.owner e.token).2 = true →
      ((m.toRemote.halted e.owner e.token).1.loop e.owner).stopping = true ∨
        (m.toRemote.halted e.owner e.token).1.stopRequested e.token = true := by
    unfold halted
    dsimp only
    split_ifs with h
    · exact fun _ => .inl h
    · exact fun h => .inr h
  unfold begin
  dsimp only
  generalize m.toRemote.halted e.owner e.token = r at hq hflag
  obtain ⟨s', _ | _⟩ := r
  · exact ⟨rfl, .inl ⟨rfl, hq.next⟩⟩
  · rw [he]
    have hnext : s'.next = m.next := hq.next
    refine ⟨rfl, .inr ⟨?_, ?_, ?_, hflag rfl⟩⟩
    · exact congrArg Op.error ((op_fail ..).trans (if_pos rfl))
    · have hnode : ((m.withRemote s').allocEntry e).node m.next = e.node :=
        (node_alloc ..).trans (if_pos hnext.symm)
      exact (congrArg Node.value hnode).trans he
    · intro hmem
      have hmem' : m.next ∈ s'.suspended := hmem
      rw [hq.suspended] at hmem'
      exact Nat.lt_irrefl _ (hw.suspended _ hmem')

/-- What has been delivered and what is left. -/
def stock (m : Mail α) (b : ℕ) : List α := (m.box b).handed.map Prod.snd ++ (m.box b).ring.toList

theorem Drains.stock_eq (hd : Drains b id m m') : m'.stock b = m.stock b := by
  rw [stock, hd.handed, hd.buffer, stock]
  cases (m.box b).ring.toList <;> simp

/-- Only the history of the sends changes. -/
theorem stock_issue (m : Mail α) (id b : ℕ) (x : α) : (m.issue id b x).stock b = m.stock b := by
  simp only [stock, issue, box_setBox, if_pos]

theorem stock_begin (m : Mail α) (e : Entry α) : (m.begin e).stock e.box = m.stock e.box := by
  unfold begin
  dsimp only
  split
  · split
    · exact stock_issue ..
    · rfl
  · rfl

theorem stock_commit (hs : Sound m) (e : Entry α) (hclosed : (m.box e.box).closed = true) :
    (m.commit e).stock e.box = m.stock e.box := by
  cases he : e.value with
  | none => exact (drains_commit hs e hclosed he).stock_eq
  | some x =>
    have hclosed' : ((m.allocEntry e).box e.box).closed = true := hclosed
    unfold commit
    dsimp only
    rw [he]
    dsimp only
    rw [commitSend, if_pos hclosed']
    exact stock_issue ..

/-- Nothing is added to a closed mailbox or lost from it. -/
theorem stock_act (hs : Sound m) (hclosed : (m.box b).closed = true) (a : Act α) :
    (m.act a).stock b = m.stock b := by
  rcases books_act hs.wired hs.booked a with ⟨c, hc, h⟩ | ⟨-, s', -, h⟩
  · by_cases hbc : b = c
    · subst hbc
      cases a with
      | begin e =>
        cases hc
        exact stock_begin m e
      | enter n =>
        simp only [act, enter]
        simp only [Act.box] at hc
        split
        · rfl
        · rename_i e he
          rw [he] at hc
          cases hc
          have hs' : Sound { m with entering := m.entering.eraseIdx n } := ⟨hs.wired, hs.booked⟩
          exact stock_commit hs' e hclosed
      | trySend b' x =>
        obtain rfl : b' = b := Option.some.inj hc
        simp only [act, trySend]
        rw [if_pos (show ((m.alloc b' 0 {} _).box b').closed = true from hclosed)]
        exact stock_issue ..
      | tryRecv b' =>
        cases hc
        exact (drains_tryRecv hs hclosed).stock_eq
      | close b' =>
        cases hc
        simp only [act, close, shut, stock, withRemote, box_setBox, if_pos]
      | owner a => cases hc
    · rw [stock, h.within.box b hbc, stock]
  · rw [h]
    rfl

/-- Values are never taken back, and a closed mailbox stays closed. -/
theorem handed_act (hs : Sound m) (a : Act α) (b : ℕ) :
    (m.box b).handed <+: ((m.act a).box b).handed ∧
      ((m.box b).closed = true → ((m.act a).box b).closed = true) := by
  rcases books_act hs.wired hs.booked a with ⟨c, -, h⟩ | ⟨-, s', -, h⟩
  · by_cases hbc : b = c
    · subst hbc
      exact ⟨h.within.handed, h.within.closed⟩
    · rw [h.within.box b hbc]
      exact ⟨prefix_rfl, fun h => h⟩
  · rw [h]
    exact ⟨prefix_rfl, fun h => h⟩

theorem handed_run (hs : Sound m) (as : List (Act α × List (List Remote.Async))) (b : ℕ) :
    (m.box b).handed <+: ((m.run as).box b).handed ∧
      ((m.box b).closed = true →
        ((m.run as).box b).closed = true ∧ (m.run as).stock b = m.stock b) := by
  induction as generalizing m with
  | nil => exact ⟨prefix_rfl, fun h => ⟨h, rfl⟩⟩
  | cons a as ih =>
    have hs₁ := hs.interfere a.2
    obtain ⟨hgrows, hclosed⟩ := handed_act hs₁ a.1 b
    obtain ⟨hgrows', hclosed'⟩ := ih (hs₁.act a.1)
    refine ⟨hgrows.trans hgrows', fun h => ?_⟩
    obtain ⟨h₁, h₂⟩ := hclosed' (hclosed h)
    exact ⟨h₁, h₂.trans (stock_act hs₁ h a.1)⟩

/-! ### Delivery -/

/-- The operation is a `send` on the mailbox `b` that has got through without an error, or a
`try_send` that has returned true. -/
def Sent (m : Mail α) (b i : ℕ) : Prop :=
  m.home i = b ∧ (m.node i).sending = true ∧ (m.op i).linked = false ∧ (m.op i).error = none ∧
    (m.node i).refused = false
  deriving Decidable

theorem sent_view (m : Mail α) (b : ℕ) : (m.view b).sent b = fun i => decide (m.Sent b i) := by
  funext i
  rw [Bool.eq_iff_iff, decide_eq_true_iff, View.sent, View.succeeded, Bool.and_eq_true_iff,
    Bool.and_eq_true_iff, View.isSend_iff, view, home_view, ok_iff, Bool.not_eq_true']
  constructor
  · rintro ⟨⟨⟨hlinked, herror⟩, hrefused⟩, hhome, hsending⟩
    exact ⟨hhome, hsending, hlinked, herror, hrefused⟩
  · rintro ⟨hhome, hsending, hlinked, herror, hrefused⟩
    exact ⟨⟨⟨hlinked, herror⟩, hrefused⟩, hhome, hsending⟩

/-- **A mailbox delivers exactly once and in order.** In every state in which the mutex is free, for
every capacity and any number of loops:

* the values handed to receivers, in the order of the mutex, followed by the buffered values, are
  the values of the successful sends, in the order in which these took the mutex; so a send that
  ends with an error, or is refused, transfers nothing;
* a receive has a value if and only if one was handed to it, which happens at most once;
* in all later states a receive that was handed a value has this value, no error, and is not linked,
  whatever flags are raised meanwhile;
* a closed mailbox stays closed and takes nothing over. A receive that gets to the mutex, and every
  `try_recv`, yields the first buffered value, or `nullopt` if there is none, without waiting. A
  `recv` that does not get to the mutex ends with `operation_canceled` and takes nothing, and then
  its loop is stopped or the stop of its token has been requested. -/
theorem mailbox_fifo (hm : Reachable m) (b : ℕ) :
    (m.box b).handed.map Prod.snd ++ (m.box b).ring.toList =
      ((List.range m.next).filter fun i => m.Sent b i).filterMap (fun i => (m.node i).value) ∧
    (∀ i x, (i, x) ∈ (m.box b).handed ↔ i < m.next ∧ m.home i = b ∧ (m.node i).sending = false ∧
      (m.node i).value = some x) ∧
    ((m.box b).handed.map Prod.fst).Nodup ∧
    (∀ as i x, (i, x) ∈ (m.box b).handed → ((m.run as).node i).value = some x ∧
      ((m.run as).op i).error = none ∧ ((m.run as).op i).linked = false) ∧
    ((m.box b).closed = true →
      (∀ as, ((m.run as).box b).closed = true ∧
        ((m.run as).box b).handed.map Prod.snd ++ ((m.run as).box b).ring.toList =
          (m.box b).handed.map Prod.snd ++ (m.box b).ring.toList) ∧
      (∀ sched n e, m.entering[n]? = some e → e.box = b → e.value = none →
        Drains b m.next m (step m (.enter n, sched))) ∧
      (∀ sched, Drains b m.next m (step m (.tryRecv b, sched))) ∧
      (∀ sched e m', e.box = b → e.value = none → step m (.begin e, sched) = m' →
        m'.box = m.box ∧ (m'.entering = m.entering ++ [e] ∧ m'.next = m.next ∨
          (m'.op m.next).error = some .operationCanceled ∧ (m'.node m.next).value = none ∧
          m.next ∉ m'.suspended ∧
          ((m'.loop e.owner).stopping = true ∨ m'.stopRequested e.token = true)))) := by
  have hs := hm.sound
  have hb := hs.booked b
  refine ⟨?_, fun i x => ?_, hb.ledger.handed_nodup, fun as i x hix => ?_,
    fun hclosed => ⟨fun as => (handed_run hs as b).2 hclosed, fun sched n e he hbox hvalue => ?_,
      fun sched => ?_, ?_⟩⟩
  · have hfifo := hb.ledger.fifo hb.complete
    rw [sent_view] at hfifo
    exact hfifo
  · have hiff := hb.ledger.mem_handed_iff i x
    rw [view, home_view] at hiff
    exact hiff
  · have hs' := hs.run as
    obtain ⟨-, -, -, hvalue, hok⟩ :=
      (hs'.booked b).ledger.handed (i, x) ((handed_run hs as b).1.subset hix)
    exact ⟨hvalue, (ok_iff.mp hok).2, (ok_iff.mp hok).1⟩
  · have hs' : Sound { m.interfere sched with entering := m.entering.eraseIdx n } :=
      ⟨(hs.interfere sched).wired, (hs.interfere sched).booked⟩
    have hstep : step m (.enter n, sched) =
        ({ m.interfere sched with entering := m.entering.eraseIdx n } : Mail α).commit e := by
      have he' : (m.interfere sched).entering[n]? = some e := he
      simp only [step, act, enter, he']
      rfl
    subst hbox
    obtain ⟨h₁, h₂, h₃, h₄, h₅⟩ := drains_commit hs' e hclosed hvalue
    have hnext : (m.interfere sched).next = m.next := (quiet_interfere m sched).next
    rw [hstep]
    dsimp only at h₁ h₂ h₃
    rw [hnext] at h₁ h₂ h₃
    exact ⟨h₁, h₂, h₃, h₄, h₅⟩
  · obtain ⟨h₁, h₂, h₃, h₄, h₅⟩ := drains_tryRecv (hs.interfere sched) hclosed
    have hnext : (m.interfere sched).next = m.next := (quiet_interfere m sched).next
    rw [hnext] at h₁ h₂ h₃
    exact ⟨h₁, h₂, h₃, h₄, h₅⟩
  · rintro sched e m' rfl he rfl
    have h := begin_recv (hs.interfere sched).wired e he
    have hnext : (m.interfere sched).next = m.next := (quiet_interfere m sched).next
    rw [hnext] at h
    exact h

/-- A mailbox that was closed with one value in it. -/
def closedState : Mail ℕ :=
  run (init fun _ => 1) [(.trySend 0 7, []), (.close 0, []), (.begin ⟨0, 1, none, none⟩, [])]

theorem mailbox_fifo_closedState : Reachable closedState ∧
    ((step closedState (.enter 0, [[.stop 1]])).node closedState.next).value = some 7 := by
  have hm : Reachable closedState := ⟨_, _, rfl⟩
  have hstate : (closedState.box 0).closed = true ∧
      closedState.entering = [⟨0, 1, none, none⟩] ∧
      (closedState.box 0).ring.toList = [7] := by decide
  have hdrains := ((mailbox_fifo hm 0).2.2.2.2 hstate.1).2.1 [[.stop 1]] 0 ⟨0, 1, none, none⟩
    (by rw [hstate.2.1]; rfl) rfl rfl
  refine ⟨hm, hdrains.value.trans ?_⟩
  rw [hstate.2.2]
  rfl

/-- A mailbox that was closed and drained. -/
def drainedState : Mail ℕ := run (init fun _ => 1) [(.close 0, [])]

/-- On a stopped loop, `recv()` throws although the mailbox is closed and empty. -/
theorem recv_throws_of_stop : Reachable drainedState ∧ (drainedState.box 0).closed = true ∧
    (drainedState.box 0).ring.toList = [] ∧
    ((step drainedState (.begin ⟨0, 1, none, none⟩, [[.stop 1]])).op drainedState.next).error =
      some .operationCanceled :=
  ⟨⟨_, _, rfl⟩, by decide, by decide, by decide⟩

end Snowy.Mail
