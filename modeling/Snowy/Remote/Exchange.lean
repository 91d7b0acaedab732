import Mathlib.Data.Set.Insert
import Snowy.Remote.Delivery
import Snowy.Remote.Mailbox

/-!
# The exchange of values in mailboxes

A mailbox follows the abstract bounded queue, whatever the other threads do. What is not done to the
mailbox under its mutex is pruning: waiters are completed with an error by the hooks of their loops.
What a call does under the mutex is pruning up to one last step, which is one of the steps of the
abstract queue; so the proofs are those of the channel, with another way to complete a waiter.

## Main definitions

* `Snowy.Mail.view` : what the ledger of a mailbox sees.
* `Snowy.Mail.Within` : a step on one mailbox.
* `Snowy.Mail.Sound` : the waits are wired and all ledgers are kept.

## Main results

* `Snowy.Mail.books_commit`, `Snowy.Mail.books_trySend`, `Snowy.Mail.books_tryRecv`,
  `Snowy.Mail.books_close` : the calls keep the ledger.
* `Snowy.Mail.Reachable.sound` : the ledgers are kept in every state of a run.
-/

namespace Snowy

open Function List

/-! ### What the ledger sees -/

/-- A node of the queue `b`. -/
def Node.onQueue {α : Type*} (n : Node α) (b : ℕ) : Node α := { n with home := .channel b }

/-- What the ledger of the queue `b` sees of the waits, given the nodes and the record of the
queue. -/
def Remote.view {α : Type*} (s : Remote) (node : ℕ → Node α) (ch : Channel α) (b : ℕ) : View α where
  ch := { ch with waiters := s.queue b }
  node i := (node i).onQueue (s.home i)
  next := s.next
  suspended i := s.suspended.contains i
  ok i := !(s.op i).linked && (s.op i).error.isNone
  pending i := (s.op i).linked
  excl i h := by simp [h]

namespace Remote

variable {α : Type*} {s s' : Remote} {node node' : ℕ → Node α} {ch : Channel α} {id b l : ℕ}
  {t : Set ℕ} {sent held : Option α}

theorem ok_iff {i : ℕ} :
    (s.view node ch b).ok i = true ↔ (s.op i).linked = false ∧ (s.op i).error = none := by
  simp [view]

theorem home_view {i c : ℕ} : ((s.view node ch b).node i).home = .channel c ↔ s.home i = c := by
  simp [view, Node.onQueue]

/-- What the ledger of the queue `b` does not see. -/
theorem view_congr (hqueue : s'.queue b = s.queue b) (hhome : s'.home = s.home)
    (hnext : s'.next = s.next) (hsuspended : s'.suspended = s.suspended)
    (hlinked : ∀ i, (s'.op i).linked = (s.op i).linked)
    (herror : ∀ i, (s'.op i).error = (s.op i).error) : s'.view node ch b = s.view node ch b := by
  simp only [view, hqueue, hhome, hnext, hsuspended, hlinked, herror]

theorem Quiet.view (h : Quiet s s') : s'.view node ch b = s.view node ch b :=
  view_congr (by rw [h.queue]) h.home h.next h.suspended h.linked h.error

/-! ### What happens to a queue from outside -/

/-- A wait that is unlinked is pruned, unless a sender is told that it has succeeded. -/
theorem prunes_settle {result : Option Errc} (hlinked : (s.op id).linked = true)
    (hresult : s.home id = b → (node id).sending = true → result ≠ none) :
    View.Prunes b (s.view node ch b) ((s.settle id result).view node ch b) := by
  have hqueue : (s.settle id result).queue b =
      if b = s.home id then (s.queue b).erase id else s.queue b := by
    simp only [settle, unlink, setOp, queue_setQueue]
    split_ifs with h
    · rw [h]
    · rfl
  refine
  { channel := ⟨(s.settle id result).queue b, ?_, rfl, fun i hi hpending => ?_⟩
    next_le := Nat.le_refl _
    node := fun _ _ _ => rfl
    home := fun _ hi hhome => ⟨hi, hhome⟩
    suspended := fun _ _ _ => rfl
    settles := fun i _ hhome => ?_ }
  · rw [hqueue]
    split_ifs
    · exact erase_sublist
    · exact List.Sublist.refl _
  · have hne : i ≠ id := by
      rintro rfl
      simp [view, op_settle] at hpending
    rw [hqueue]
    split_ifs
    · exact (mem_erase_of_ne hne).mpr hi
    · exact hi
  · by_cases hne : i = id
    · subst hne
      refine .inr ⟨hlinked, by simp [view, op_settle], fun hsending => ?_⟩
      have hsome := hresult (home_view.mp hhome) hsending
      cases result with
      | none => exact absurd rfl hsome
      | some e => simp [view, op_settle]
    · exact .inl (by simp [view, op_settle, hne])

theorem view_deliver (s : Remote) (id : ℕ) (failure : Option Errc) :
    (s.deliver id failure).view node ch b = (s.settle id failure).view node ch b := rfl

theorem linked_notify (s : Remote) (id l i : ℕ) :
    ((s.notify id l).op i).linked = (s.op i).linked := by
  rw [op_notify]
  split_ifs with h
  · rw [h.1]
  · rfl

theorem view_notify (s : Remote) (id l : ℕ) : (s.notify id l).view node ch b = s.view node ch b :=
  view_congr rfl rfl rfl rfl (linked_notify s id l) (error_notify s id l)

/-- Nothing happens to the waits of the queue `b`. -/
theorem prunes_elsewhere (hqueue : s'.queue b = s.queue b) (hnext : s.next ≤ s'.next)
    (hhome : ∀ i < s.next, s'.home i = s.home i) (hnew : ∀ i < s'.next, s'.home i = b → i < s.next)
    (hop : ∀ i < s.next, s.home i = b → (s'.op i).linked = (s.op i).linked ∧
      (s'.op i).error = (s.op i).error ∧ (i ∈ s'.suspended ↔ i ∈ s.suspended)) :
    View.Prunes b (s.view node ch b) (s'.view node ch b) where
  channel := by
    refine ⟨s.queue b, List.Sublist.refl _, ?_, fun i hi _ => hi⟩
    simp only [view, hqueue]
  next_le := hnext
  node i hi _ := by simp only [view, hhome i hi]
  home i hi hi' := by
    have hlt := hnew i hi (home_view.mp hi')
    exact ⟨hlt, home_view.mpr ((hhome i hlt).symm.trans (home_view.mp hi'))⟩
  suspended i hi hi' := Bool.eq_iff_iff.mpr
    (by simpa [view] using (hop i hi (home_view.mp hi')).2.2)
  settles i hi hi' := by
    obtain ⟨hlinked, herror, -⟩ := hop i hi (home_view.mp hi')
    exact .inl ⟨hlinked, by simp only [view, hlinked, herror]⟩

/-- Steps that touch other queues do nothing but prune. -/
theorem prunes_micro (h : Micro t s s') (hb : b ∉ t) :
    View.Prunes b (s.view node ch b) (s'.view node ch b) := by
  have hrefl : ∀ {s' : Remote}, s'.view node ch b = s.view node ch b →
      View.Prunes b (s.view node ch b) (s'.view node ch b) := fun h => by
    rw [h]
    exact .refl _ _
  cases h with
  | quiet h => exact hrefl h.view
  | @make l q op hq hactive hlinked herror =>
    refine prunes_elsewhere rfl (Nat.le_succ _) (fun i hi => ?_) (fun i hi hhome => ?_)
      fun i hi _ => ?_
    · rw [home_make, if_neg hi.ne]
    · have hne : i ≠ s.next := by
        rintro rfl
        rw [home_make, if_pos rfl] at hhome
        exact hb (hhome ▸ hq)
      exact Nat.lt_of_le_of_ne (Nat.lt_succ_iff.mp hi) hne
    · rw [op_make, if_neg hi.ne]
      exact ⟨rfl, rfl, Iff.rfl⟩
  | @fail id hid hs ht error =>
    refine prunes_elsewhere rfl (Nat.le_refl _) (fun _ _ => rfl) (fun _ hi _ => hi)
      fun i _ hhome => ?_
    have hne : i ≠ id := fun h => hb (hhome ▸ h ▸ ht)
    rw [fail, op_setOp, if_neg hne]
    exact ⟨rfl, rfl, Iff.rfl⟩
  | @enqueue id hid ht =>
    have hne : b ≠ s.home id := fun h => hb (h ▸ ht)
    refine prunes_elsewhere ?_ (Nat.le_refl _) (fun _ _ => rfl) (fun _ hi _ => hi)
      fun i _ hhome => ?_
    · rw [link, setOp, queue_setQueue]
      exact if_neg hne
    · have hne' : i ≠ id := fun h => hne (h ▸ hhome.symm)
      have hop : ((s.enlist id).link id).op i = s.op i := by
        rw [link, op_setOp, if_neg hne']
        exact (Owner.op_enlist ..).trans (if_neg hne')
      rw [hop]
      exact ⟨rfl, rfl, by simp [link, setOp, setQueue, enlist, hne']⟩
  | deliver hlinked ht =>
    rw [view_deliver]
    exact prunes_settle hlinked fun hhome _ hnone => hb (hhome ▸ ht hnone)
  | interrupt hlinked hwaits =>
    rw [interrupt, if_pos hlinked, view_notify]
    exact prunes_settle hlinked fun _ _ h => by cases h
  | send l n => exact hrefl rfl
  | detach l budget =>
    refine hrefl ?_
    unfold detach
    split_ifs <;> rfl
  | message l =>
    refine hrefl ?_
    unfold message
    split
    · rfl
    · exact view_notify _ _ l
    · rfl
  | resume l =>
    refine hrefl ?_
    unfold resume
    split <;> rfl
  | destroy id =>
    refine hrefl ?_
    unfold destroy
    split_ifs <;> rfl

theorem booked_moves (hb : Booked b (s.view node ch b)) (hm : Moves t s s') (ht : b ∉ t) :
    Booked b (s'.view node ch b) := by
  induction hm with
  | refl => exact hb
  | tail _ h ih => exact ih.prune (prunes_micro h ht)

theorem during_moves (hd : During b id sent held (s.view node ch b)) (hm : Moves t s s')
    (ht : b ∉ t) : During b id sent held (s'.view node ch b) := by
  induction hm with
  | refl => exact hd
  | tail _ h ih => exact ih.prune (prunes_micro h ht)

theorem Idle.sheds (hid : s.Idle id) (h : Sheds s s') (herror : (s'.op id).error = none) :
    s'.Idle id where
  lt_next := Nat.lt_of_lt_of_le hid.lt_next h.moves.frame.1
  suspended := h.suspended ▸ hid.suspended
  destroyed := h.destroyed ▸ hid.destroyed
  error := herror

end Remote

namespace Mail

open Remote

variable {α : Type*} {m m' : Mail α} {s' : Remote} {id b c r s l : ℕ} {rest : List ℕ}
  {sent held : Option α} {x y : α}

/-- What the ledger of the mailbox `b` sees. -/
def view (m : Mail α) (b : ℕ) : View α := m.toRemote.view m.node (m.box b) b

/-! ### Other mailboxes -/

/-- The step is one on the mailbox `b`, which hands out nothing that it has handed out before and
stays closed. -/
structure Within (b : ℕ) (m m' : Mail α) : Prop where
  moves : Moves {b} m.toRemote m'.toRemote
  box : ∀ c ≠ b, m'.box c = m.box c
  node : ∀ i < m.next, m.home i ≠ b → m'.node i = m.node i
  handed : (m.box b).handed <+: (m'.box b).handed
  closed : (m.box b).closed = true → (m'.box b).closed = true

theorem Within.trans {m₁ m₂ m₃ : Mail α} (h : Within b m₁ m₂) (h' : Within b m₂ m₃) :
    Within b m₁ m₃ where
  moves := h.moves.trans h'.moves
  box c hc := (h'.box c hc).trans (h.box c hc)
  node i hi hhome := by
    obtain ⟨hle, hkept, -⟩ := h.moves.frame
    rw [h'.node i (Nat.lt_of_lt_of_le hi hle) (by rwa [(hkept i hi).1]), h.node i hi hhome]
  handed := h.handed.trans h'.handed
  closed hclosed := h'.closed (h.closed hclosed)

/-- Only the waits change. -/
theorem Within.remote {s' : Remote} (hm : Moves {b} m.toRemote s') :
    Within b m (m.withRemote s') where
  moves := hm
  box _ _ := rfl
  node _ _ _ := rfl
  handed := prefix_rfl
  closed h := h

/-- Only a node of the mailbox changes. -/
theorem Within.setNode (hid : m.home id = b) (f : Node α → Node α) :
    Within b m (m.setNode id f) where
  moves := .refl
  box _ _ := rfl
  node i _ hhome := by
    have hne : i ≠ id := fun h => hhome (h ▸ hid)
    rw [node_setNode, if_neg hne]
  handed := prefix_rfl
  closed h := h

/-- Only the record of the mailbox changes. -/
theorem Within.setBox (f : Channel α → Channel α)
    (hhanded : (m.box b).handed <+: (f (m.box b)).handed)
    (hclosed : (m.box b).closed = true → (f (m.box b)).closed = true) :
    Within b m (m.setBox b f) where
  moves := .refl
  box c hc := by rw [box_setBox, if_neg hc]
  node _ _ _ := rfl
  handed := by rwa [box_setBox, if_pos rfl]
  closed h := by
    rw [box_setBox, if_pos rfl]
    exact hclosed h

/-- A new operation on the mailbox. -/
theorem Within.alloc (m : Mail α) (b l : ℕ) {op : Op} (nd : Node α) (hactive : op.active = false)
    (hlinked : op.linked = false) (herror : op.error = none) : Within b m (m.alloc b l op nd) where
  moves := (Micro.make (Set.mem_singleton b) hactive hlinked herror).moves
  box _ _ := rfl
  node i hi _ := by rw [node_alloc, if_neg hi.ne]
  handed := prefix_rfl
  closed h := h

/-- The ledger of another mailbox is kept. -/
theorem booked_within (hb : Booked c (m.view c)) (h : Within b m m') (hc : c ≠ b) :
    Booked c (m'.view c) := by
  have hb' : Booked c (m'.toRemote.view m.node (m.box c) c) := booked_moves hb h.moves hc
  obtain ⟨-, hkept, hnew⟩ := h.moves.frame
  have hnode : ∀ i < m'.next, m'.home i = c → m'.node i = m.node i := fun i hi hhome => by
    have hlt := hnew i hi (hhome ▸ hc)
    exact h.node i hlt ((hkept i hlt).1 ▸ hhome ▸ hc)
  refine hb'.prune ⟨⟨m'.queue c, List.Sublist.refl _, ?_, fun i hi _ => hi⟩, Nat.le_refl _,
    fun i hi hhome => ?_, fun i hi hhome => ⟨hi, hhome⟩, fun _ _ _ => rfl,
    fun _ _ _ => .inl ⟨rfl, rfl⟩⟩
  · simp only [view, Remote.view, h.box c hc]
  · simp only [view, Remote.view, hnode i hi (home_view.mp hhome)]

/-! ### The last steps -/

/-- A call begins with a new operation. -/
theorem during_begin (hb : Booked b (m.view b)) (hw : m.Wired) (l : ℕ) (op : Op)
    (sent : Option α) (hlinked : op.linked = false) (herror : op.error = none) :
    During b m.next sent none ((m.alloc b l op (.call b sent)).view b) := by
  have hop : ∀ i < m.next, (m.alloc b l op (.call b sent)).op i = m.op i := fun i hi =>
    (op_make ..).trans (if_neg hi.ne)
  have hself : (m.alloc b l op (.call b sent)).op m.next = op := (op_make ..).trans (if_pos rfl)
  have hhome : ∀ i, (m.alloc b l op (.call b sent)).home i = if i = m.next then b else m.home i :=
    home_make m.toRemote l b op
  refine hb.begin rfl rfl (fun i hi => ?_) (fun i => ?_) (fun i hi => ?_) (fun i hi => ?_) ?_ ?_
  · have hne : i ≠ m.next := hi.ne
    simp only [view, Remote.view, hhome, node_alloc, if_neg hne]
  · have hne : i ∈ m.suspended → i ≠ m.next := fun h => (hw.suspended i h).ne
    simpa [view, Remote.view, Mail.alloc, withRemote, make] using hne
  · simp only [view, Remote.view, hop i hi]
  · simp only [view, Remote.view, hop i hi]
  · change ((m.alloc b l op (.call b sent)).node m.next).onQueue
      ((m.alloc b l op (.call b sent)).home m.next) = _
    rw [node_alloc, hhome, if_pos rfl, if_pos rfl]
    rfl
  · exact ok_iff.mpr ⟨(congrArg Op.linked hself).trans hlinked,
      (congrArg Op.error hself).trans herror⟩

theorem op_deliver (s : Remote) (id : ℕ) (failure : Option Errc) (i : ℕ) :
    (s.deliver id failure).op i =
    if i = id then { s.op id with linked := false, error := failure } else s.op i :=
  op_settle ..

/-- An operation that is delivered without an error. -/
theorem ok_deliver (m' : Mail α) (hop : ∀ i, m'.op i = (m.toRemote.deliver r none).op i) :
    (m'.view b).ok r = true ∧ ∀ i ≠ r, (m'.view b).ok i = (m.view b).ok i ∧
      (m'.view b).pending i = (m.view b).pending i := by
  refine ⟨?_, fun i hi => ?_⟩
  · simp [view, Remote.view, hop, op_deliver]
  · simp [view, Remote.view, hop, op_deliver, hi]

theorem node_view_setNode (f : Node α → Node α)
    (hf : ∀ (n : Node α) (c : ℕ), f (n.onQueue c) = (f n).onQueue c)
    (hnode : m'.node = (m.setNode r f).node) (hhome : m'.home = m.home) :
    (m'.view b).node = Function.update (m.view b).node r (f ((m.view b).node r)) := by
  funext i
  simp only [view, Remote.view, hnode, hhome, node_setNode, update_apply]
  split_ifs with h
  · rw [h, hf]
  · rfl

theorem ch_give (m : Mail α) (id b r : ℕ) (x : α) (hhome : m.home r = b) :
    ((m.give id b r x).view b).ch = (m.view b).ch.give id x r := by
  have hbox : (m.give id b r x).box b = { m.box b with
      issued := (m.box b).issued ++ [(id, x)]
      accepted := (m.box b).accepted ++ [(id, x)]
      handed := (m.box b).handed ++ [(r, x)]
      served := (m.box b).served ++ [r] } := by
    simp [give, deliver, withRemote, serve, hand, accept, issue, setNode, setBox]
  have hqueue : (m.give id b r x).queue b = (m.queue b).erase r :=
    queue_deliver _ r none hhome
  change { (m.give id b r x).box b with waiters := (m.give id b r x).queue b } = _
  rw [hbox, hqueue]
  rfl

/-- The send hands its value to the first waiter. -/
theorem booked_give (hd : During b id (some x) none (m.view b)) (hw : m.Wired)
    (hws : m.queue b = r :: rest) (hr : (m.node r).sending = false) :
    Booked b ((m.give id b r x).view b) := by
  have hmem : r ∈ m.queue b := hws ▸ mem_cons_self
  obtain ⟨hok, hother⟩ := ok_deliver (m := m) (b := b) (m.give id b r x) fun _ => rfl
  exact hd.give hws hr (hw.linked_of_mem hmem) (.of_update hr (mem_singleton_self r) hok
    (node_view_setNode (fun n => { n with value := some x }) (fun _ _ => rfl) rfl rfl) rfl rfl
    fun i hi => hother i (by simpa using hi)) (ch_give m id b r x (hw.queue b r hmem))

theorem ch_store (m : Mail α) (id b : ℕ) (x : α) :
    ((m.store id b x).view b).ch = (m.view b).ch.store id x := by
  have hbox : (m.store id b x).box b = (m.box b).store id x := by
    simp [store, fill, accept, issue, setBox, Channel.store]
  change { (m.store id b x).box b with waiters := m.queue b } = _
  rw [hbox]
  rfl

theorem ch_issue (m : Mail α) (id b : ℕ) (x : α) :
    ((m.issue id b x).view b).ch = (m.view b).ch.refuse id x := by
  change { (m.issue id b x).box b with waiters := m.queue b } = _
  rw [issue, box_setBox, if_pos rfl]
  rfl

/-- An operation ends with an error. -/
theorem touches_fail (m m' : Mail α) (id b : ℕ) (error : Errc) (hop : m'.op = (m.fail id error).op)
    (hnode : m'.node = m.node) (hhome : m'.home = m.home) (hnext : m'.next = m.next)
    (hsuspended : m'.suspended = m.suspended) :
    View.Touches [id] (m.view b) (m'.view b) ∧ (m'.view b).ok id = false ∧
      (m'.view b).pending id = (m.view b).pending id := by
  have hop' : ∀ i, m'.op i = if i = id then { m.op id with error := some error } else m.op i :=
    fun i => hop ▸ op_fail ..
  refine ⟨.of_node ?_ hnext (fun i _ => congrArg (List.contains · i) hsuspended) fun i hi => ?_, ?_,
    ?_⟩
  · simp only [view, Remote.view, hnode, hhome]
  · have hne : i ≠ id := by simpa using hi
    simp [view, Remote.view, hop', hne]
  · simp [view, Remote.view, hop']
  · simp [view, Remote.view, hop']

/-- The send ends with an error. -/
theorem booked_fail_issue (hd : During b id (some x) none (m.view b)) (error : Errc) :
    Booked b (((m.fail id error).issue id b x).view b) := by
  obtain ⟨ht, hfail, hidle⟩ := touches_fail m
    ((m.fail id error).issue id b x) id b error rfl rfl rfl rfl rfl
  exact hd.refuse ht (.inl hfail) hidle (ch_issue (m.fail id error) id b x)

/-- The receive ends with an error. -/
theorem booked_fail (hd : During b id none none (m.view b)) (error : Errc) :
    Booked b ((m.fail id error).view b) := by
  obtain ⟨ht, -, hidle⟩ := touches_fail m (m.fail id error) id b error rfl rfl rfl rfl rfl
  exact hd.skip ht rfl rfl hidle rfl

/-- The receive ends without a value. -/
theorem booked_skip (hd : During b id none none (m.view b)) : Booked b (m.view b) :=
  hd.skip {} rfl rfl rfl rfl

/-- A call of `try_send` returns false. -/
theorem booked_refuse (hd : During b id (some x) none (m.view b)) :
    Booked b ((m.refuse id b x).view b) := by
  obtain ⟨ht, hrefused⟩ := View.Touches.setRefused ((m.refuse id b x).view b)
    (hd.ledger.not_mem_waiters hd.new)
    (node_view_setNode (fun n => { n with refused := true }) (fun _ _ => rfl) rfl rfl)
    rfl rfl rfl rfl
  exact hd.refuse ht (.inr hrefused) rfl (ch_issue _ id b x)

/-- The waits after an operation is parked and linked. -/
def linkedWaits (s : Remote) (id : ℕ) : Remote := (s.enlist id).link id

theorem queue_linkedWaits (s : Remote) (hhome : s.home id = b) :
    (linkedWaits s id).queue b = s.queue b ++ [id] := by
  change ((s.enlist id).setQueue (s.home id) (· ++ [id])).queue b = _
  rw [hhome, queue_setQueue, if_pos rfl]
  rfl

theorem op_linkedWaits (s : Remote) (id i : ℕ) : (linkedWaits s id).op i =
    if i = id then { s.op id with active := true, linked := true } else s.op i := by
  by_cases h : i = id <;>
    simp [linkedWaits, link, enlist, onLoop, setOp, setQueue, Owner.op_enlist, part, h]

/-- An operation is parked and linked. -/
theorem touches_link (m m' : Mail α) (id b : ℕ) (hop : m'.op = (linkedWaits m.toRemote id).op)
    (hnode : m'.node = m.node) (hhome : m'.home = m.home) (hnext : m'.next = m.next)
    (hsuspended : m'.suspended = m.suspended ++ [id]) :
    View.Touches [id] (m.view b) (m'.view b) ∧ (m'.view b).pending id = true ∧
      (m'.view b).suspended id = true ∧ (m'.view b).node = (m.view b).node := by
  have hview : (m'.view b).node = (m.view b).node := by
    simp only [view, Remote.view, hnode, hhome]
  refine ⟨.of_node hview hnext (fun i hi => ?_) fun i hi => ?_, ?_, ?_, hview⟩
  · have hne : i ≠ id := by simpa using hi
    simp [view, Remote.view, hsuspended, hne]
  · have hne : i ≠ id := by simpa using hi
    simp [view, Remote.view, hop, op_linkedWaits, hne]
  · simp [view, Remote.view, hop, op_linkedWaits]
  · simp [view, Remote.view, hsuspended]

/-- The send waits. -/
theorem booked_block (hd : During b id (some x) none (m.view b)) (hhome : m.home id = b)
    (hhead : ∀ i ∈ (m.queue b).head?, (m.node i).sending ≠ false)
    (hsize : (m.box b).ring.size = (m.box b).ring.capacity) (hopen : (m.box b).closed = false) :
    Booked b (((m.withRemote (linkedWaits m.toRemote id)).issue id b x).view b) := by
  obtain ⟨ht, hpending, -, hnode⟩ := touches_link m
    ((m.withRemote (linkedWaits m.toRemote id)).issue id b x) id b rfl rfl rfl rfl rfl
  refine hd.block hhead hsize hopen ht (congrFun hnode id) hpending ?_
  rw [ch_issue]
  change Channel.refuse { m.box b with waiters := (linkedWaits m.toRemote id).queue b } id x = _
  rw [queue_linkedWaits _ hhome]
  rfl

/-- The receive waits. -/
theorem booked_await (hd : During b id none none (m.view b)) (hhome : m.home id = b)
    (hhead : ∀ i ∈ (m.queue b).head?, (m.node i).sending ≠ true)
    (hsize : (m.box b).ring.size = 0) (hopen : (m.box b).closed = false) :
    Booked b (((m.withRemote (linkedWaits m.toRemote id)).arrive id b).view b) := by
  obtain ⟨ht, -, hsuspended, hnode⟩ := touches_link m
    ((m.withRemote (linkedWaits m.toRemote id)).arrive id b) id b rfl rfl rfl rfl rfl
  refine hd.await hhead hsize hopen ht (congrFun hnode id) hsuspended ?_
  change { (((m.withRemote (linkedWaits m.toRemote id)).arrive id b).box b) with
    waiters := (linkedWaits m.toRemote id).queue b } = _
  rw [queue_linkedWaits _ hhome, arrive, box_setBox, if_pos rfl]
  rfl

/-- The receive takes the first buffered value. -/
theorem popBuffered_cases (hd : During b id sent none (m.view b)) :
    (m.box b).ring.size = 0 ∧ m.popBuffered b = (m, none) ∨
      ∃ x, m.popBuffered b = (m.dropFront b, some x) ∧
        During b id sent (some x) ((m.dropFront b).view b) := by
  unfold popBuffered
  dsimp only
  split_ifs with hsize
  · exact .inl ⟨hsize, rfl⟩
  · obtain ⟨x, hx, hd'⟩ := hd.dropFront hsize
    refine .inr ⟨x, congrArg (Prod.mk _) hx, ?_⟩
    have hview : (m.dropFront b).view b =
        (m.view b).put { (m.view b).ch with ring := (m.view b).ch.ring.pop } := by
      simp only [view, Remote.view, View.put, dropFront, box_setBox, if_pos]
      rfl
    rw [hview]
    exact hd'

/-- The receive that holds a value gets it. -/
theorem booked_fetch (hd : During b id none (some x) (m.view b))
    (hhead : ∀ i ∈ (m.queue b).head?, (m.node i).sending ≠ true) :
    Booked b (((m.hand id b x).setNode id fun n => { n with value := some x }).view b) := by
  refine hd.fetch hhead (.of_update hd.sending (mem_singleton_self id) hd.ok
    (node_view_setNode (fun n => { n with value := some x }) (fun _ _ => rfl) rfl rfl) rfl rfl
    fun _ _ => ⟨rfl, rfl⟩) ?_
  change { ((m.hand id b x).box b) with waiters := m.queue b } = _
  rw [hand, box_setBox, if_pos rfl]
  rfl

/-- The receive matches the first waiter. Whichever way the value of the sender goes, the operations
end in the same way. -/
theorem gets_matched (m' : Mail α) (hd : During b id none held (m.view b))
    (hs : (m.view b).Offers s y) (hop : ∀ i, m'.op i = (m.toRemote.deliver s none).op i)
    (hnode : m'.node = (m.setNode id fun n => { n with value := some x }).node)
    (hhome : m'.home = m.home) (hnext : m'.next = m.next)
    (hsuspended : m'.suspended = m.suspended) :
    View.Gets [id, s] id x (m.view b) (m'.view b) ∧ (m'.view b).ok s = true := by
  obtain ⟨hok, hother⟩ := ok_deliver (b := b) m' hop
  have hne : id ≠ s := by
    rintro rfl
    exact Bool.false_ne_true (hd.sending.symm.trans hs.sending)
  refine ⟨.of_update hd.sending mem_cons_self ((hother id hne).1.trans hd.ok)
    (node_view_setNode (fun n => { n with value := some x }) (fun _ _ => rfl) hnode hhome) hnext ?_
    fun i hi => hother i (by simp_all), hok⟩
  funext i
  exact congrArg (List.contains · i) hsuspended

theorem mem_of_offers (hs : (m.view b).Offers s y) : s ∈ m.queue b := by
  obtain ⟨rest, hws⟩ := hs.head
  exact (congrArg (s ∈ ·) hws).mpr mem_cons_self

/-- The first waiter puts its value into the slot that the receive has freed. -/
theorem booked_refill (hd : During b id none (some x) (m.view b)) (hw : m.Wired)
    (hs : (m.view b).Offers s y) :
    Booked b ((((m.refill b s y).hand id b x).setNode id
      fun n => { n with value := some x }).view b) := by
  obtain ⟨ht, hok⟩ := gets_matched (x := x) (((m.refill b s y).hand id b x).setNode id
    fun n => { n with value := some x }) hd hs (fun _ => rfl) rfl rfl rfl rfl
  refine hd.refill hs ht hok ?_
  change { ((m.refill b s y).hand id b x).box b with
    waiters := (m.toRemote.deliver s none).queue b } = _
  rw [queue_deliver _ s none (hw.queue b s (mem_of_offers hs))]
  simp [refill, deliver, withRemote, hand, fill, accept, setBox, Channel.refill, view, Remote.view]

/-- The receive gets the value of the first waiter. -/
theorem booked_rendezvous (hd : During b id none none (m.view b)) (hw : m.Wired)
    (hsize : (m.box b).ring.size = 0) (hs : (m.view b).Offers s y) :
    Booked b ((((m.rendezvous b s y).hand id b y).setNode id
      fun n => { n with value := some y }).view b) := by
  obtain ⟨ht, hok⟩ := gets_matched (x := y) (((m.rendezvous b s y).hand id b y).setNode id
    fun n => { n with value := some y }) hd hs (fun _ => rfl) rfl rfl rfl rfl
  refine hd.rendezvous hsize hs ht hok ?_
  change { ((m.rendezvous b s y).hand id b y).box b with
    waiters := (m.toRemote.deliver s none).queue b } = _
  rw [queue_deliver _ s none (hw.queue b s (mem_of_offers hs))]
  simp [rendezvous, deliver, withRemote, hand, accept, setBox, Channel.rendezvous, view,
    Remote.view]

/-! ### The calls -/

/-- `mailbox::front` prunes, and finds the first waiter if it has the direction. -/
theorem front_cases (hw : m.Wired) (b : ℕ) (sending : Bool) : ∃ s', Sheds m.toRemote s' ∧
    (m.front b sending = (m.withRemote s', none) ∧
      (∀ i ∈ (s'.queue b).head?, (m.node i).sending ≠ sending) ∨
    ∃ r rest, m.front b sending = (m.withRemote s', some r) ∧ s'.queue b = r :: rest ∧
      (m.node r).sending = sending) := by
  obtain ⟨s', hm, ⟨h, hqueue⟩ | ⟨r, rest, h, hqueue⟩⟩ := Remote.front_cases hw (q := b) rfl
  all_goals
    refine ⟨s', hm, ?_⟩
    rw [front, h]
    dsimp only
  · exact .inl ⟨rfl, by simp [hqueue]⟩
  · split_ifs with hsending
    · exact .inr ⟨r, rest, rfl, hqueue, hsending⟩
    · exact .inl ⟨rfl, by simpa [hqueue] using hsending⟩

theorem Within.prune (hm : Sheds m.toRemote s') : Within b m (m.withRemote s') :=
  .remote (hm.moves.mono (Set.empty_subset _))

/-- Records and a delivery on the mailbox. -/
theorem Within.deliver (hw : m.Wired) (hr : r ∈ m.queue b) (h : Within b m m')
    (hremote : m'.toRemote = m.toRemote) (failure : Option Errc) :
    Within b m (m'.deliver r failure) := by
  refine h.trans (.remote (Micro.deliver ?_ fun _ => ?_).moves)
  · rw [hremote]
    exact hw.linked_of_mem hr
  · rw [hremote, hw.queue b r hr]
    exact Set.mem_singleton b

theorem within_issue (m : Mail α) (id b : ℕ) (x : α) : Within b m (m.issue id b x) :=
  .setBox _ prefix_rfl fun h => h

theorem within_accept (m : Mail α) (id b : ℕ) (x : α) : Within b m (m.accept id b x) :=
  .setBox _ prefix_rfl fun h => h

theorem within_fill (m : Mail α) (b : ℕ) (x : α) : Within b m (m.fill b x) :=
  .setBox _ prefix_rfl fun h => h

theorem within_hand (m : Mail α) (id b : ℕ) (x : α) : Within b m (m.hand id b x) :=
  .setBox _ (prefix_append _ _) fun h => h

theorem within_give (hw : m.Wired) (hr : r ∈ m.queue b) (id : ℕ) (x : α) :
    Within b m (m.give id b r x) := by
  have h₁ : Within b m (m.setNode r fun n => { n with value := some x }) :=
    .setNode (hw.queue b r hr) _
  have h₂ := (h₁.trans (within_issue _ id b x)).trans (within_accept _ id b x)
  have h₃ := h₂.trans (within_hand _ r b x)
  exact .deliver hw hr (h₃.trans (.setBox _ prefix_rfl fun h => h)) rfl none

theorem within_refill (hw : m.Wired) (hs : s ∈ m.queue b) (y : α) : Within b m (m.refill b s y) :=
  .deliver hw hs ((within_accept m s b y).trans (within_fill _ b y)) rfl none

theorem within_rendezvous (hw : m.Wired) (hs : s ∈ m.queue b) (y : α) :
    Within b m (m.rendezvous b s y) :=
  .deliver hw hs (within_accept m s b y) rfl none

theorem within_store (m : Mail α) (id b : ℕ) (x : α) : Within b m (m.store id b x) :=
  ((within_issue m id b x).trans (within_accept _ id b x)).trans (within_fill _ b x)

/-- `mailbox::push` transfers the value, or changes nothing but dead waiters. -/
theorem booked_push (hd : During b id (some x) none (m.view b)) (hw : m.Wired) :
    (∃ m', m.push id b x = (m', true) ∧ Booked b (m'.view b) ∧ Within b m m') ∨
      ∃ s', m.push id b x = (m.withRemote s', false) ∧ Sheds m.toRemote s' ∧
        (∀ i ∈ (s'.queue b).head?, (m.node i).sending ≠ false) ∧
        (m.box b).ring.size = (m.box b).ring.capacity := by
  obtain ⟨s', hm, ⟨h, hhead⟩ | ⟨r, rest, h, hws, hr⟩⟩ := front_cases hw b false
  all_goals
    have hd' : During b id (some x) none ((m.withRemote s').view b) :=
      during_moves hd hm.moves (Set.notMem_empty b)
    have hw' : Wired (m.withRemote s').toRemote := hw.moves hm.moves
    rw [push, h]
    dsimp only
  · split_ifs with hsize
    · exact .inr ⟨s', rfl, hm, hhead, hsize⟩
    · exact .inl ⟨_, rfl, hd'.store hhead hsize {} (ch_store _ id b x),
        (Within.prune hm).trans (within_store _ id b x)⟩
  · have hmem : r ∈ s'.queue b := hws ▸ mem_cons_self
    exact .inl ⟨_, rfl, booked_give hd' hw' hws hr,
      (Within.prune hm).trans (within_give hw' hmem id x)⟩

/-- The second half of `mailbox::pop`, after the first one has taken out `held`. -/
theorem popSender_cases (hd : During b id sent held (m.view b)) (hw : m.Wired) :
    ∃ s', Sheds m.toRemote s' ∧ During b id sent held ((m.withRemote s').view b) ∧ s'.Wired ∧
      (m.popSender b held = (m.withRemote s', held) ∧
        (∀ i ∈ (s'.queue b).head?, (m.node i).sending ≠ true) ∨
      ∃ s y, ((m.withRemote s').view b).Offers s y ∧
        (∀ x, held = some x → m.popSender b held = ((m.withRemote s').refill b s y, some x)) ∧
        (held = none → m.popSender b held = ((m.withRemote s').rendezvous b s y, some y))) := by
  obtain ⟨s', hm, ⟨h, hhead⟩ | ⟨s, rest, h, hws, hs⟩⟩ := front_cases hw b true
  all_goals
    have hd' : During b id sent held ((m.withRemote s').view b) :=
      during_moves hd hm.moves (Set.notMem_empty b)
    refine ⟨s', hm, hd', hw.moves hm.moves, ?_⟩
    rw [popSender, h]
    dsimp only
  · exact .inl ⟨rfl, hhead⟩
  · have hmem : s ∈ s'.queue b := hws ▸ mem_cons_self
    have hne : (m.node s).value ≠ none := hd'.value_ne_none (s := s) hmem hs
    obtain ⟨y, hy⟩ := Option.ne_none_iff_exists'.mp hne
    have hy' : ((m.withRemote s').node s).value = some y := hy
    refine .inr ⟨s, y, ⟨⟨rest, hws⟩, hs, hy⟩, ?_, ?_⟩
    · rintro x rfl
      rw [hy']
    · rintro rfl
      rw [hy']

/-- `mailbox::pop` yields a value, or changes nothing but dead waiters. -/
theorem booked_pop (hd : During b id none none (m.view b)) (hw : m.Wired) (hid : m.home id = b) :
    (∃ m' x, m.pop id b = (m', some x) ∧
        Booked b ((m'.setNode id fun n => { n with value := some x }).view b) ∧
        Within b m (m'.setNode id fun n => { n with value := some x })) ∨
      ∃ s', m.pop id b = (m.withRemote s', none) ∧ Sheds m.toRemote s' ∧
        (∀ i ∈ (s'.queue b).head?, (m.node i).sending ≠ true) ∧ (m.box b).ring.size = 0 := by
  -- at the end, the value goes into the node
  have hwithin : ∀ {m₁ : Mail α}, Within b m m₁ → ∀ x : α,
      Within b m (m₁.setNode id fun n => { n with value := some x }) := fun h x => by
    obtain ⟨-, hkept, -⟩ := h.moves.frame
    exact h.trans (.setNode ((hkept id hd.new.lt_next).1.trans hid) _)
  unfold pop
  rcases popBuffered_cases hd with ⟨hsize, h⟩ | ⟨x, h, hd₁⟩
  · rw [h]
    dsimp only
    obtain ⟨s', hm, hd', hw', ⟨h, hhead⟩ | ⟨s, y, hs, -, h⟩⟩ := popSender_cases hd hw
    · rw [h]
      exact .inr ⟨s', rfl, hm, hhead, hsize⟩
    · rw [h rfl]
      have h₁ := (Within.prune hm).trans (within_rendezvous hw' (mem_of_offers hs) y)
      exact .inl ⟨_, y, rfl, booked_rendezvous hd' hw' hsize hs,
        hwithin (h₁.trans (within_hand _ id b y)) y⟩
  · rw [h]
    dsimp only
    have hdrop : Within b m (m.dropFront b) := .setBox _ prefix_rfl fun h => h
    obtain ⟨s', hm, hd', hw', ⟨h, hhead⟩ | ⟨s, y, hs, h, -⟩⟩ := popSender_cases hd₁ hw
    all_goals have h₁ := hdrop.trans (Within.prune hm)
    · rw [h]
      exact .inl ⟨_, x, rfl, booked_fetch hd' hhead,
        hwithin (h₁.trans (within_hand _ id b x)) x⟩
    · rw [h x rfl]
      have h₂ := h₁.trans (within_refill hw' (mem_of_offers hs) y)
      exact .inl ⟨_, x, rfl, booked_refill hd' hw' hs,
        hwithin (h₂.trans (within_hand _ id b x)) x⟩

/-- The ledger of the mailbox `b` holds after a step on it. -/
structure Books (b : ℕ) (m m' : Mail α) : Prop where
  within : Within b m m'
  booked : Booked b (m'.view b)

theorem Books.of_within {m₁ : Mail α} (h : Within b m m₁) (h' : Books b m₁ m') : Books b m m' :=
  ⟨h.trans h'.within, h'.booked⟩

/-- The last step of a call that has to wait. -/
theorem enqueue_cases (m : Mail α) (id : ℕ) : ∃ s', Quiet m.toRemote s' ∧
    (m.enqueue id = ((m.withRemote s').fail id .operationCanceled, false) ∨
      m.enqueue id = ((m.withRemote s').withRemote (linkedWaits s' id), true)) := by
  obtain ⟨s', hq, h | h⟩ := Remote.enqueue_cases m.toRemote id
  all_goals
    refine ⟨s', hq, ?_⟩
    rw [enqueue, h]
  · exact .inl rfl
  · exact .inr rfl

theorem Within.fail (hid : m.Idle id) (hhome : m.home id = b) (error : Errc) :
    Within b m (m.fail id error) :=
  .remote (Micro.fail hid.lt_next hid.suspended (hhome ▸ Set.mem_singleton _) error).moves

theorem Within.link (hid : m.Idle id) (hhome : m.home id = b) :
    Within b m (m.withRemote (linkedWaits m.toRemote id)) :=
  .remote (Micro.enqueue hid (hhome ▸ Set.mem_singleton _)).moves

/-- What is known in a call that has to wait, when the waits that are gone were shed. -/
theorem enqueue_of_sheds {s' : Remote} (hd : During b id sent none (m.view b)) (hid : m.Idle id)
    (hhome : m.home id = b) (hm : Sheds m.toRemote s') : ∃ s₂,
      During b id sent none ((m.withRemote s₂).view b) ∧ Within b m (m.withRemote s₂) ∧
      Idle s₂ id ∧ s₂.home id = b ∧ s₂.queue = s'.queue ∧
      ((m.withRemote s').enqueue id = ((m.withRemote s₂).fail id .operationCanceled, false) ∨
        (m.withRemote s').enqueue id =
          ((m.withRemote s₂).withRemote (linkedWaits s₂ id), true)) := by
  obtain ⟨s₂, hq, h⟩ := enqueue_cases (m.withRemote s') id
  have hd₁ : During b id sent none ((m.withRemote s').view b) :=
    during_moves hd hm.moves (Set.notMem_empty b)
  have hid₁ : Idle s' id := hid.sheds hm (ok_iff.mp hd₁.ok).2
  have hin : Within b m (m.withRemote s₂) := (Within.prune hm).trans (.prune hq.sheds)
  exact ⟨s₂, during_moves hd₁ (hq.moves (t := ∅)) (Set.notMem_empty b), hin, hq.idle hid₁,
    (hin.moves.frame.2.1 id hid.lt_next).1.trans hhome, hq.queue, h⟩

theorem books_commitSend (hd : During b id (some x) none (m.view b)) (hw : m.Wired)
    (hid : m.Idle id) (hhome : m.home id = b) : Books b m (m.commitSend id b x) := by
  unfold commitSend
  split_ifs with hclosed
  · exact ⟨(Within.fail hid hhome _).trans (within_issue _ id b x), booked_fail_issue hd _⟩
  · rcases booked_push hd hw with ⟨m', h, hb, hin⟩ | ⟨s', h, hm, hhead, hsize⟩
    · rw [h]
      exact ⟨hin, hb⟩
    · rw [h]
      dsimp only
      obtain ⟨s₂, hd₂, hin, hid₂, hhome₂, hqueue, h | h⟩ := enqueue_of_sheds hd hid hhome hm
      · rw [h]
        exact ⟨hin.trans ((Within.fail hid₂ hhome₂ _).trans (within_issue _ id b x)),
          booked_fail_issue hd₂ _⟩
      · rw [h]
        rw [← hqueue] at hhead
        exact ⟨hin.trans ((Within.link hid₂ hhome₂).trans (within_issue _ id b x)),
          booked_block hd₂ hhome₂ hhead hsize (Bool.eq_false_iff.mpr hclosed)⟩

theorem books_commitRecv (hd : During b id none none (m.view b)) (hw : m.Wired) (hid : m.Idle id)
    (hhome : m.home id = b) : Books b m (m.commitRecv id b) := by
  unfold commitRecv
  rcases booked_pop hd hw hhome with ⟨m', x, h, hb, hin⟩ | ⟨s', h, hm, hhead, hsize⟩
  · rw [h]
    exact ⟨hin, hb⟩
  · rw [h]
    dsimp only
    split_ifs with hclosed
    · exact ⟨.prune hm, booked_skip (during_moves hd hm.moves (Set.notMem_empty b))⟩
    · obtain ⟨s₂, hd₂, hin, hid₂, hhome₂, hqueue, h | h⟩ := enqueue_of_sheds hd hid hhome hm
      · rw [h]
        exact ⟨hin.trans (Within.fail hid₂ hhome₂ _), booked_fail hd₂ _⟩
      · rw [h]
        rw [← hqueue] at hhead
        exact ⟨hin.trans ((Within.link hid₂ hhome₂).trans (.setBox _ prefix_rfl fun h => h)),
          booked_await hd₂ hhome₂ hhead hsize (Bool.eq_false_iff.mpr hclosed)⟩

/-- A new operation is idle. -/
theorem idle_alloc (hw : m.Wired) (b l : ℕ) {op : Op} {nd : Node α} (herror : op.error = none) :
    (m.alloc b l op nd).Idle m.next where
  lt_next := Nat.lt_succ_self _
  suspended h := Nat.lt_irrefl _ (hw.suspended _ h)
  destroyed h := Nat.lt_irrefl _ (hw.destroyed _ h).1
  error := (congrArg Op.error ((op_make ..).trans (if_pos rfl))).trans herror

theorem home_alloc (m : Mail α) (b l : ℕ) (op : Op) (nd : Node α) :
    (m.alloc b l op nd).home m.next = b :=
  (home_make ..).trans (if_pos rfl)

theorem books_commit (hw : m.Wired) (e : Entry α) (hb : Booked e.box (m.view e.box)) :
    Books e.box m (m.commit e) := by
  have hin : Within e.box m (m.allocEntry e) := .alloc m _ _ _ rfl rfl rfl
  have hw' : (m.allocEntry e).Wired := hw.moves hin.moves
  have hid : (m.allocEntry e).Idle m.next := idle_alloc hw _ _ rfl
  have hd : During e.box m.next e.value none ((m.allocEntry e).view e.box) :=
    during_begin hb hw _ _ _ rfl rfl
  unfold commit
  dsimp only
  split
  · rename_i x hx
    exact .of_within hin (books_commitSend (hx ▸ hd) hw' hid (home_alloc ..))
  · rename_i hx
    exact .of_within hin (books_commitRecv (hx ▸ hd) hw' hid (home_alloc ..))

/-- The flags that are raised, and the list of those who wait for the mutex, say nothing to the
ledger. -/
theorem booked_quiet (hb : Booked b (m.view b)) (hq : Quiet m.toRemote s') (es : List (Entry α)) :
    Booked b (({ m.withRemote s' with entering := es } : Mail α).view b) :=
  booked_moves hb (hq.moves (t := ∅)) (Set.notMem_empty b)

theorem books_trySend (hw : m.Wired) (hb : Booked b (m.view b)) (x : α) :
    Books b m (m.trySend b x) := by
  have hin : Within b m (m.alloc b 0 {} (.call b (some x))) := .alloc m b 0 _ rfl rfl rfl
  have hd := during_begin hb hw 0 {} (some x) rfl rfl
  have hw' := hw.moves hin.moves
  have hhome := home_alloc m b 0 {} (.call b (some x))
  unfold trySend
  dsimp only
  refine .of_within hin ?_
  generalize m.alloc b 0 {} (.call b (some x)) = m₁ at hd hw' hhome
  -- a call that is refused
  have hrefuse : ∀ {m₂ : Mail α}, During b m.next (some x) none (m₂.view b) →
      m₂.home m.next = b → Books b m₂ (m₂.refuse m.next b x) := fun hd₂ hhome₂ =>
    ⟨(Within.setNode hhome₂ _).trans (within_issue _ m.next b x), booked_refuse hd₂⟩
  split_ifs
  · exact hrefuse hd hhome
  · rcases booked_push hd hw' with ⟨m', h, hb', hin'⟩ | ⟨s', h, hm, -⟩
    · rw [h]
      exact ⟨hin', hb'⟩
    · rw [h]
      refine .of_within (.prune hm) (hrefuse ?_ ?_)
      · exact during_moves hd hm.moves (Set.notMem_empty b)
      · exact (hm.moves.frame.2.1 _ hd.new.lt_next).1.trans hhome

theorem books_tryRecv (hw : m.Wired) (hb : Booked b (m.view b)) : Books b m (m.tryRecv b) := by
  have hin : Within b m (m.alloc b 0 {} (.call b none)) := .alloc m b 0 _ rfl rfl rfl
  have hd := during_begin hb hw 0 {} none rfl rfl
  have hw' := hw.moves hin.moves
  have hhome := home_alloc m b 0 {} (.call b none)
  unfold tryRecv
  dsimp only
  refine .of_within hin ?_
  generalize m.alloc b 0 {} (.call b none) = m₁ at hd hw' hhome
  rcases booked_pop hd hw' hhome with ⟨m', x, h, hb', hin'⟩ | ⟨s', h, hm, -⟩
  · rw [h]
    exact ⟨hin', hb'⟩
  · rw [h]
    exact ⟨.prune hm, booked_skip (during_moves hd hm.moves (Set.notMem_empty b))⟩

/-- The check before the mutex ends the operation, or lets it wait for the mutex. -/
theorem books_begin (hw : m.Wired) (e : Entry α) (hb : Booked e.box (m.view e.box)) :
    Books e.box m (m.begin e) := by
  have hq := Quiet.halted m.toRemote e.owner e.token
  unfold begin
  dsimp only
  generalize m.toRemote.halted e.owner e.token = r at hq
  obtain ⟨s', _ | _⟩ := r
  · refine ⟨⟨hq.moves, fun _ _ => rfl, fun _ _ _ => rfl, prefix_rfl, fun h => h⟩, ?_⟩
    exact booked_quiet hb hq _
  · have hw' : Wired (m.withRemote s').toRemote := hw.quiet hq
    have hb' : Booked e.box ((m.withRemote s').view e.box) := booked_quiet hb hq m.entering
    have hnext : (m.withRemote s').next = m.next := hq.next
    have hin : Within e.box m (m.withRemote s') := .prune hq.sheds
    refine .of_within hin ?_
    dsimp only
    rw [← hnext]
    generalize m.withRemote s' = m₁ at hw' hb' ⊢
    have hin₁ : Within e.box m₁ (m₁.allocEntry e) := .alloc m₁ _ _ _ rfl rfl rfl
    have hid : (m₁.allocEntry e).Idle m₁.next := idle_alloc hw' _ _ rfl
    have hd : During e.box m₁.next e.value none ((m₁.allocEntry e).view e.box) :=
      during_begin hb' hw' _ _ _ rfl rfl
    have hfail := hin₁.trans (Within.fail hid (home_alloc ..) .operationCanceled)
    split
    · rename_i x hx
      exact ⟨hfail.trans (within_issue _ _ _ x), booked_fail_issue (hx ▸ hd) _⟩
    · rename_i hx
      exact ⟨hfail, booked_fail (hx ▸ hd) _⟩

/-- The loop of `close()` prunes all waiters, if its verdict on a sender is an error. -/
theorem prunes_drain {s : Remote} {ids : List ℕ} {node : ℕ → Node α} (ch : Channel α)
    {verdict : ℕ → Option Errc} (hs : s.Wired) (hids : s.queue b = ids)
    (hverdict : ∀ i, (node i).sending = true → verdict i ≠ none) :
    View.Prunes b (s.view node ch b) ((s.drain verdict ids).view node ch b) := by
  induction ids generalizing s with
  | nil => exact .refl _ _
  | cons id ids ih =>
    obtain ⟨s₁, failure, hq, hfailure, hdrain⟩ := drain_cons s verdict id ids
    have hs₁ := hs.quiet hq
    have hids₁ : s₁.queue b = id :: ids := hq.queue ▸ hids
    obtain ⟨hmicro, hqueue⟩ := micro_deliver_head hs₁ hids₁ failure
    have hlinked := hs₁.linked_of_mem (hids₁ ▸ mem_cons_self : id ∈ s₁.queue b)
    have herror : (node id).sending = true → failure ≠ none := by
      rcases hfailure with rfl | rfl
      · exact hverdict id
      · exact fun _ => nofun
    rw [hdrain, ← hq.view]
    exact .trans (fun i hi => ⟨hs₁.lt_of_mem hi, home_view.mpr (hs₁.queue b i hi)⟩)
      (prunes_settle hlinked fun _ => herror) (ih (hs₁.micro hmicro) hqueue)

theorem books_close (hw : m.Wired) (hb : Booked b (m.view b)) : Books b m (m.close b) := by
  have hshut : Within b m (m.shut b) := .setBox _ prefix_rfl fun _ => rfl
  have hverdict : ∀ i, ((m.shut b).node i).sending = true → (m.shut b).verdict i ≠ none := by
    intro i hi
    simp [verdict, hi]
  have hw' : (m.shut b).Wired := hw
  have hp := prunes_drain (b := b) ((m.shut b).box b) hw' rfl hverdict
  obtain ⟨hm, hqueue⟩ := moves_drain (q := b) hw' (m.shut b).verdict rfl
  refine ⟨hshut.trans (.remote hm), hb.close ?_ hqueue⟩
  have hview : (m.shut b).view b = (m.view b).put { (m.view b).ch with closed := true } := by
    simp only [view, Remote.view, View.put, shut, box_setBox, if_pos]
    rfl
  rw [← hview]
  exact hp

/-! ### Runs -/

/-- The mailbox on which a step is. -/
def Act.box (m : Mail α) : Act α → Option ℕ
  | .begin e => some e.box
  | .enter n => m.entering[n]?.map Entry.box
  | .trySend b _ => some b
  | .tryRecv b => some b
  | .close b => some b
  | .owner _ => none

/-- A step on a mailbox keeps its ledger, and a step of an owner thread those of all. -/
theorem books_act (hw : m.Wired) (hb : ∀ b, Booked b (m.view b)) (a : Act α) :
    (∃ b, a.box m = some b ∧ Books b m (m.act a)) ∨
      a.box m = none ∧ ∃ s', Moves ∅ m.toRemote s' ∧ m.act a = m.withRemote s' := by
  cases a with
  | begin e => exact .inl ⟨_, rfl, books_begin hw e (hb _)⟩
  | enter n =>
    simp only [act, enter, Act.box]
    cases he : m.entering[n]? with
    | none => exact .inr ⟨rfl, m.toRemote, .refl, rfl⟩
    | some e =>
      obtain ⟨hin, hb'⟩ := books_commit (m := { m with entering := m.entering.eraseIdx n }) hw e
        (hb _)
      exact .inl ⟨_, rfl, ⟨hin.moves, hin.box, hin.node, hin.handed, hin.closed⟩, hb'⟩
  | trySend b x => exact .inl ⟨_, rfl, books_trySend hw (hb b) x⟩
  | tryRecv b => exact .inl ⟨_, rfl, books_tryRecv hw (hb b)⟩
  | close b => exact .inl ⟨_, rfl, books_close hw (hb b)⟩
  | owner a => exact .inr ⟨rfl, _, moves_ownerAct m.toRemote a, rfl⟩

/-- The waits are wired and all ledgers are kept. -/
structure Sound (m : Mail α) : Prop where
  wired : m.Wired
  booked : ∀ b, Booked b (m.view b)

theorem Sound.act (hm : Sound m) (a : Act α) : Sound (m.act a) := by
  rcases books_act hm.wired hm.booked a with ⟨b, -, h⟩ | ⟨-, s', hmoves, h⟩
  · refine ⟨hm.wired.moves h.within.moves, fun c => ?_⟩
    by_cases hc : c = b
    · exact hc ▸ h.booked
    · exact booked_within (hm.booked c) h.within hc
  · rw [h]
    exact ⟨hm.wired.moves hmoves, fun c => booked_moves (hm.booked c) hmoves (Set.notMem_empty c)⟩

theorem quiet_interfere (m : Mail α) (sched : List (List Remote.Async)) :
    Quiet m.toRemote (m.interfere sched).toRemote := by
  have hsched : Quiet m.toRemote { m.toRemote with sched } := .sched ..
  exact hsched.trans (.interfere _)

theorem Sound.interfere (hm : Sound m) (sched : List (List Remote.Async)) :
    Sound (m.interfere sched) :=
  ⟨hm.wired.quiet (quiet_interfere m sched),
    fun b => booked_quiet (hm.booked b) (quiet_interfere m sched) m.entering⟩

theorem Sound.run (hm : Sound m) (as : List (Act α × List (List Remote.Async))) :
    Sound (m.run as) := by
  induction as generalizing m with
  | nil => exact hm
  | cons a as ih => exact ih ((hm.interfere a.2).act a.1)

theorem sound_init (capacity : ℕ → ℕ) : Sound (init capacity : Mail α) :=
  ⟨Wired.init, fun _ => .init rfl rfl⟩

theorem Reachable.sound (hm : Reachable m) : Sound m := by
  obtain ⟨capacity, as, rfl⟩ := hm
  exact (sound_init capacity).run as

end Mail

end Snowy
