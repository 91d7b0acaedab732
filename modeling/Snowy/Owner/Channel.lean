import Snowy.Owner.Completion

/-!
# The channel

A channel follows the abstract bounded queue, whatever other threads do and whatever else the owner
thread does between the calls. Everything that is not done to the channel itself is pruning: waiters
are completed by `expire()`, and unlinked by their destructors. What a call on the channel does is
pruning up to one last step, which is one of the steps of the abstract queue.

## Main definitions

* `Snowy.World.view` : what the ledger of a channel sees.

## Main results

* `Snowy.World.booked_send`, `Snowy.World.booked_recv`, `Snowy.World.booked_close` : the calls keep
  the ledger.
* `Snowy.World.Reachable.booked` : the ledger holds in every state of a run.
* `Snowy.World.completes_exactly_once` : exactly-once completion of the operations of all kinds.
-/

namespace Snowy.World

variable {α : Type*} {H : HeapRange ℕ ℤ} {w₀ w w' : World α} {id c r s : ℕ} {T S rest : List ℕ}
  {t : Set ℕ} {sent held : Option α} {x y : α}

/-- What the ledger of the channel `c` sees. -/
def view (w : World α) (c : ℕ) : View α where
  ch := w.channel c
  node := w.node
  next := w.next
  suspended i := w.suspended.contains i
  ok i := !(w.op i).active && (w.op i).error.isNone
  pending i := (w.op i).active
  excl i h := by simp [h]

theorem ok_iff {i : ℕ} :
    (w.view c).ok i = true ↔ (w.op i).active = false ∧ (w.op i).error = none := by
  simp [view]

/-! ### What happens to a channel from outside -/

/-- Nothing but pruning happens to a channel that is not in `t`. -/
theorem Sound.prunes_view (hs : Sound t T S w₀ w) (hc : c ∉ t) :
    View.Prunes c (w₀.view c) (w.view c) := by
  have hp := hs.prunes c hc
  refine ⟨hp.channel, hs.next_le, hp.node, hp.home, fun i hi hhome => ?_, fun i hi hhome => ?_⟩
  · have hmem : i ∈ w.suspended ↔ i ∈ w₀.suspended := by
      refine ⟨fun h => (hs.suspended_home i h).resolve_right fun ht => hc (ht c ?_),
        fun h => hs.suspended_subset h⟩
      rw [hp.node i hi hhome]
      exact hhome
    exact Bool.eq_iff_iff.mpr (by simpa [view] using hmem)
  · rcases hp.op i hi hhome with ⟨hactive, herror⟩ | ⟨hactive, hinactive, herror⟩
    · exact .inl ⟨hactive, by simp [view, hactive, herror]⟩
    · refine .inr ⟨hactive, hinactive, fun hsending => ?_⟩
      have := herror hsending
      cases hw : (w.op i).error with
      | none => exact absurd hw this
      | some _ => simp [view, hw]

/-- An operation of a channel that has begun and holds `held`. -/
structure Calling (T S : List ℕ) (c id : ℕ) (sent held : Option α) (w : World α) : Prop where
  during : During c id sent held (w.view c)
  sound : Sound ∅ T S w w

/-- The operation goes on after steps that only prune the channel. -/
theorem Calling.moves (h : Calling T S c id sent held w) (hm : Moves ∅ w w') :
    Calling T S c id sent held w' ∧ ∃ ws, w'.channel c = { w.channel c with waiters := ws } := by
  have hs := h.sound.moves hm
  obtain ⟨ws, -, hch, -⟩ := (hs.prunes c (Set.notMem_empty c)).channel
  exact ⟨⟨h.during.prune (hs.prunes_view (Set.notMem_empty c)), hs.rebase⟩, ws, hch⟩

theorem Calling.quiet (h : Calling T S c id sent held w) (hq : Quiet ∅ w w') :
    Calling T S c id sent held w' :=
  (h.moves (Moves.refl.quiet hq)).1

/-- A call begins with a new operation. -/
theorem booked_begin (hb : Booked c (w.view c)) (hs : Sound t T S w₀ w) (op : Op) (sent : Option α)
    (hcls : op.cls = .wait) (hactive : op.active = false) (herror : op.error = none) :
    Calling T S c w.next sent none (w.alloc op (.call c sent)) := by
  have hop : ∀ i < w.next, (w.alloc op (.call c sent)).op i = w.op i := fun i hi => by
    rw [op_alloc, if_neg hi.ne]
  have hself : (w.alloc op (.call c sent)).op w.next = op := by rw [op_alloc, if_pos rfl]
  have hs' : Sound .univ T S w w := hs.rebase
  refine ⟨hb.begin rfl rfl (fun i hi => ?_) (fun i => ?_) (fun i hi => ?_) (fun i hi => ?_)
    ((node_alloc w op _ w.next).trans (if_pos rfl)) ?_,
    (hs'.alloc hactive fun _ _ => ⟨hcls, trivial⟩).rebase⟩
  · exact (node_alloc w op _ i).trans (if_neg hi.ne)
  · have hne : i ∈ w.suspended → i ≠ w.next := fun h => (hs.suspended_lt i h).ne
    simpa [view, World.alloc] using hne
  · simp [view, hop i hi]
  · simp [view, hop i hi]
  · exact ok_iff.mpr
      ⟨(congrArg Op.active hself).trans hactive, (congrArg Op.error hself).trans herror⟩

/-! ### The last steps -/

/-- An operation that is completed without an error. -/
theorem ok_unlink_notify (w' : World α) (hactive : (w.op r).active = true)
    (herror : (w.op r).error = none) (hop : ∀ i, w'.op i = ((w.unlink r c).notify r).op i) :
    (w'.view c).ok r = true ∧ ∀ i ≠ r, (w'.view c).ok i = (w.view c).ok i ∧
      (w'.view c).pending i = (w.view c).pending i := by
  have hcalm := calm_unlink w r c
  refine ⟨?_, fun i hi => ?_⟩
  · simp [view, hop, op_notify, (hcalm r).active, (hcalm r).error, hactive, herror]
  · simp [view, hop, op_notify, hi, (hcalm i).active, (hcalm i).error]

theorem channel_give (w : World α) (id c r : ℕ) (x : α) :
    ((w.unlink r c).give id c r x).channel c = (w.channel c).give id x r := by
  simp only [World.give, notify, serve, hand, accept, issue, setNode, channel_setChannel, if_pos]
  rw [channel_unlink, if_pos rfl]
  rfl

/-- The send hands its value to the first waiter. -/
theorem booked_give (hd : During c id (some x) none (w.view c))
    (hws : (w.channel c).waiters = r :: rest) (hr : (w.node r).sending = false)
    (hactive : (w.op r).active = true) (herror : (w.op r).error = none) :
    Booked c (((w.unlink r c).give id c r x).view c) := by
  obtain ⟨hok, hother⟩ := ok_unlink_notify ((w.unlink r c).give id c r x) (c := c) hactive
    herror fun _ => rfl
  exact hd.give hws hr hactive (.of_update hr (List.mem_singleton_self r) hok rfl rfl rfl
    fun i hi => hother i (by simpa using hi)) (channel_give w id c r x)

theorem channel_store (w : World α) (id c : ℕ) (x : α) :
    (w.store id c x).channel c = (w.channel c).store id x := by
  simp only [World.store, fill, accept, issue, channel_setChannel, if_pos]
  rfl

theorem channel_issue (w : World α) (id c : ℕ) (x : α) :
    (w.issue id c x).channel c = (w.channel c).refuse id x := by
  simp only [issue, channel_setChannel, if_pos]
  rfl

/-- An operation ends with an error. -/
theorem touches_fail (w w' : World α) (id c : ℕ) (error : Errc) (hop : w'.op = (w.fail id error).op)
    (hnode : w'.node = w.node) (hnext : w'.next = w.next)
    (hsuspended : w'.suspended = w.suspended) :
    View.Touches [id] (w.view c) (w'.view c) ∧ (w'.view c).ok id = false ∧
      (w'.view c).pending id = (w.view c).pending id := by
  refine ⟨.of_node hnode hnext (fun i _ => congrArg (List.contains · i) hsuspended)
    fun i hi => ?_, ?_, ?_⟩
  · have hne : i ≠ id := by simpa using hi
    simp [view, hop, op_fail, hne]
  · simp [view, hop, op_fail]
  · simp [view, hop, op_fail]

/-- The send ends with an error. -/
theorem booked_fail_issue (hd : During c id (some x) none (w.view c)) (error : Errc) :
    Booked c (((w.fail id error).issue id c x).view c) := by
  obtain ⟨ht, hfail, hidle⟩ :=
    touches_fail w ((w.fail id error).issue id c x) id c error rfl rfl rfl rfl
  exact hd.refuse ht (.inl hfail) hidle (channel_issue (w.fail id error) id c x)

/-- A call of `try_send` returns false. -/
theorem booked_refuse (hd : During c id (some x) none (w.view c)) :
    Booked c ((w.refuse id c x).view c) := by
  obtain ⟨ht, hrefused⟩ := View.Touches.setRefused ((w.refuse id c x).view c)
    (hd.ledger.not_mem_waiters hd.new) rfl rfl rfl rfl rfl
  exact hd.refuse ht (.inr hrefused) rfl (channel_issue _ id c x)

/-- An operation is parked and linked. -/
theorem touches_link (w w' : World α) (id c : ℕ) (hop : w'.op = ((w.enlist id).link id c).op)
    (hnode : w'.node = w.node) (hnext : w'.next = w.next)
    (hsuspended : w'.suspended = w.suspended ++ [id]) :
    View.Touches [id] (w.view c) (w'.view c) ∧ (w'.view c).pending id = true ∧
      (w'.view c).suspended id = true := by
  refine ⟨.of_node hnode hnext (fun i hi => ?_) fun i hi => ?_, ?_, ?_⟩
  · have hne : i ≠ id := by simpa using hi
    simp [view, hsuspended, hne]
  · have hne : i ≠ id := by simpa using hi
    simp [view, hop, op_link, op_enlist, hne]
  · simp [view, hop, op_link, op_enlist]
  · simp [view, hsuspended]

theorem channel_block (w : World α) (id c : ℕ) (x : α) :
    (((w.enlist id).link id c).issue id c x).channel c = (w.channel c).block id x := by
  rw [channel_issue, channel_link, if_pos rfl]
  rfl

theorem channel_await (w : World α) (id c : ℕ) :
    (((w.enlist id).link id c).arrive id c).channel c = (w.channel c).await id := by
  rw [arrive, channel_setChannel, if_pos rfl, channel_link, if_pos rfl]
  rfl

/-- The receive ends with an error. -/
theorem booked_fail (hd : During c id none none (w.view c)) (error : Errc) :
    Booked c ((w.fail id error).view c) := by
  obtain ⟨ht, -, hidle⟩ := touches_fail w (w.fail id error) id c error rfl rfl rfl rfl
  exact hd.skip ht rfl rfl hidle rfl

/-- The receive ends without a value. -/
theorem booked_skip (hd : During c id none none (w.view c)) : Booked c (w.view c) :=
  hd.skip {} rfl rfl rfl rfl

theorem channel_dropFront (w : World α) (c : ℕ) :
    (w.dropFront c).channel c = { w.channel c with ring := (w.channel c).ring.pop } := by
  rw [World.dropFront, channel_setChannel, if_pos rfl]

/-- The receive takes the first buffered value. -/
theorem popBuffered_cases (hd : During c id sent none (w.view c)) :
    (w.channel c).ring.size = 0 ∧ w.popBuffered c = (w, none) ∨
      ∃ x, w.popBuffered c = (w.dropFront c, some x) ∧
        During c id sent (some x) ((w.dropFront c).view c) := by
  unfold popBuffered
  dsimp only
  split_ifs with hsize
  · exact .inl ⟨hsize, rfl⟩
  · obtain ⟨x, hx, hd'⟩ := hd.dropFront hsize
    refine .inr ⟨x, congrArg (Prod.mk _) hx, ?_⟩
    have hview : (w.dropFront c).view c =
        (w.view c).put { w.channel c with ring := (w.channel c).ring.pop } := by
      simp only [view, View.put, channel_dropFront]
      rfl
    rw [hview]
    exact hd'

theorem channel_hand (w : World α) (id c : ℕ) (x : α) :
    (w.hand id c x).channel c = (w.channel c).fetch id x := by
  rw [hand, channel_setChannel, if_pos rfl]
  rfl

theorem channel_refill (w : World α) (id c s : ℕ) (x y : α) :
    (((w.unlink s c).refill c s y).hand id c x).channel c = (w.channel c).refill id x s y := by
  simp only [hand, World.refill, notify, fill, accept, channel_setChannel, if_pos]
  rw [channel_unlink, if_pos rfl]
  rfl

theorem channel_rendezvous (w : World α) (id c s : ℕ) (y : α) :
    (((w.unlink s c).rendezvous c s y).hand id c y).channel c =
      (w.channel c).rendezvous id s y := by
  simp only [hand, World.rendezvous, notify, accept, channel_setChannel, if_pos]
  rw [channel_unlink, if_pos rfl]
  rfl

/-- The receive that holds a value gets it. -/
theorem booked_fetch (hd : During c id none (some x) (w.view c))
    (hhead : ∀ i ∈ (w.channel c).waiters.head?, (w.node i).sending ≠ true) :
    Booked c (((w.hand id c x).setNode id fun n => { n with value := some x }).view c) :=
  hd.fetch hhead (.of_update hd.sending (List.mem_singleton_self id) hd.ok rfl rfl rfl
    fun _ _ => ⟨rfl, rfl⟩) (channel_hand w id c x)

/-- The receive matches the first waiter. Whichever way the value of the sender goes, the operations
end in the same way. -/
theorem gets_matched (w' : World α) (hd : During c id none held (w.view c))
    (hs : (w.view c).Offers s y) (hactive : (w.op s).active = true)
    (herror : (w.op s).error = none) (hop : ∀ i, w'.op i = ((w.unlink s c).notify s).op i)
    (hnode : w'.node = (w.setNode id fun n => { n with value := some x }).node)
    (hnext : w'.next = w.next) (hsuspended : w'.suspended = w.suspended) :
    View.Gets [id, s] id x (w.view c) (w'.view c) ∧ (w'.view c).ok s = true := by
  obtain ⟨hok, hother⟩ := ok_unlink_notify w' (c := c) hactive herror hop
  have hne : id ≠ s := by
    rintro rfl
    exact Bool.false_ne_true (hd.sending.symm.trans hs.sending)
  refine ⟨.of_update hd.sending List.mem_cons_self ((hother id hne).1.trans hd.ok) hnode hnext ?_
    fun i hi => hother i (by simp_all), hok⟩
  funext i
  exact congrArg (List.contains · i) hsuspended

/-- The first waiter puts its value into the slot that the receive has freed. -/
theorem booked_refill (hd : During c id none (some x) (w.view c)) (hs : (w.view c).Offers s y)
    (hactive : (w.op s).active = true) (herror : (w.op s).error = none) :
    Booked c (((((w.unlink s c).refill c s y).hand id c x).setNode id
      fun n => { n with value := some x }).view c) := by
  obtain ⟨ht, hok⟩ := gets_matched (x := x) ((((w.unlink s c).refill c s y).hand id c x).setNode id
    fun n => { n with value := some x }) hd hs hactive herror (fun _ => rfl) rfl rfl rfl
  exact hd.refill hs ht hok (channel_refill w id c s x y)

/-- The receive gets the value of the first waiter. -/
theorem booked_rendezvous (hd : During c id none none (w.view c))
    (hsize : (w.channel c).ring.size = 0) (hs : (w.view c).Offers s y)
    (hactive : (w.op s).active = true) (herror : (w.op s).error = none) :
    Booked c (((((w.unlink s c).rendezvous c s y).hand id c y).setNode id
      fun n => { n with value := some y }).view c) := by
  obtain ⟨ht, hok⟩ := gets_matched (x := y) ((((w.unlink s c).rendezvous c s y).hand id c y).setNode
    id fun n => { n with value := some y }) hd hs hactive herror (fun _ => rfl) rfl rfl rfl
  exact hd.rendezvous hsize hs ht hok (channel_rendezvous w id c s y)

/-! ### The calls -/

/-- The node is refused, or parked and linked. -/
theorem Calling.enqueue (h : Calling T S c id sent held w) : ∃ w', Calling T S c id sent held w' ∧
    (w.enqueue id c = (w'.fail id .operationCanceled, false) ∨
      (w'.channel = w.channel ∧ w'.node = w.node) ∧
        w.enqueue id c = ((w'.enlist id).link id c, true)) := by
  obtain ⟨w', hw, hframe, hpark | hpark⟩ := park_cases (t := ∅) w id
  all_goals
    refine ⟨w', h.quiet hw, ?_⟩
    rw [World.enqueue, hpark]
  · exact .inl rfl
  · exact .inr ⟨hframe, rfl⟩

/-- `channel::push` transfers the value, or changes nothing but dead waiters. -/
theorem booked_push (hc : Calling T S c id (some x) none w) :
    (∃ w', w.push id c x = (w', true) ∧ Booked c (w'.view c)) ∨
      ∃ w', w.push id c x = (w', false) ∧ Calling T S c id (some x) none w' ∧
        (w'.channel c).closed = (w.channel c).closed ∧
        (∀ i ∈ (w'.channel c).waiters.head?, (w'.node i).sending ≠ false) ∧
        (w'.channel c).ring.size = (w'.channel c).ring.capacity := by
  obtain ⟨w', hm, ⟨hhead, ⟨hsize, h⟩ | ⟨hsize, h⟩⟩ | ⟨r, rest, hws, hr, hactive, h⟩⟩ :=
    push_cases (t := ∅) (fun i hi => (hc.sound.channel c i hi).2.1) id x
  all_goals obtain ⟨hc', ws, hch⟩ := hc.moves hm
  · exact .inr ⟨w', h, hc', hch ▸ rfl, hhead, hsize⟩
  · exact .inl ⟨_, h, hc'.during.store hhead hsize {} (channel_store w' id c x)⟩
  · exact .inl ⟨_, h, booked_give hc'.during hws hr hactive (hc'.sound.pending r hactive).2.2⟩

/-- `channel::pop` yields a value, or changes nothing but dead waiters. -/
theorem booked_pop (hc : Calling T S c id none none w) :
    (∃ w' x, w.pop id c = (w', some x) ∧
        Booked c ((w'.setNode id fun n => { n with value := some x }).view c)) ∨
      ∃ w', w.pop id c = (w', none) ∧ Calling T S c id none none w' ∧
        (∀ i ∈ (w'.channel c).waiters.head?, (w'.node i).sending ≠ true) ∧
        (w'.channel c).ring.size = 0 := by
  unfold World.pop
  rcases popBuffered_cases hc.during with ⟨hsize, h⟩ | ⟨x, h, hd₁⟩
  · rw [h]
    dsimp only
    obtain ⟨w', hm, ⟨hhead, h⟩ | ⟨s, rest, hws, hs', hactive, ⟨hnone, -⟩ | ⟨y, hy, h⟩⟩⟩ :=
      popSender_cases (t := ∅) (fun i hi => (hc.sound.channel c i hi).2.1) (none : Option α)
    all_goals
      obtain ⟨hc', ws, hch⟩ := hc.moves hm
      have hsize' : (w'.channel c).ring.size = 0 := by rw [hch]; exact hsize
    · rw [h]
      exact .inr ⟨w', rfl, hc', hhead, hsize'⟩
    · exact absurd hnone (hc'.during.value_ne_none (s := s) (hws ▸ List.mem_cons_self) hs')
    · rw [h]
      exact .inl ⟨_, y, rfl, booked_rendezvous hc'.during hsize' ⟨⟨rest, hws⟩, hs', hy⟩ hactive
        (hc'.sound.pending s hactive).2.2⟩
  · rw [h]
    dsimp only
    have hc₁ : Calling T S c id none (some x) (w.dropFront c) :=
      ⟨hd₁, ((hc.sound.mono (Set.empty_subset {c})).quiet
        (quiet_dropFront w (Set.mem_singleton c))).rebase⟩
    obtain ⟨w', hm, ⟨hhead, h⟩ | ⟨s, rest, hws, hs', hactive, ⟨hnone, -⟩ | ⟨y, hy, h⟩⟩⟩ :=
      popSender_cases (t := ∅) (fun i hi => (hc₁.sound.channel c i hi).2.1) (some x)
    all_goals obtain ⟨hc', -⟩ := hc₁.moves hm
    · rw [h]
      exact .inl ⟨_, x, rfl, booked_fetch hc'.during hhead⟩
    · exact absurd hnone (hc'.during.value_ne_none (s := s) (hws ▸ List.mem_cons_self) hs')
    · rw [h]
      exact .inl ⟨_, x, rfl, booked_refill hc'.during ⟨⟨rest, hws⟩, hs', hy⟩ hactive
        (hc'.sound.pending s hactive).2.2⟩

theorem booked_send (hb : Booked c (w.view c)) (hs : Sound t T S w₀ w) (x : α)
    (token : Option ℕ) : Booked c ((w.send c x token).view c) := by
  have h₁ := booked_begin hb hs { cls := .wait, token } (some x) rfl rfl rfl
  unfold World.send
  dsimp only
  generalize w.alloc _ _ = w₁ at h₁ ⊢
  obtain ⟨w₂, hw₂, -, ⟨h, -⟩ | h⟩ := canceledNow_cases (t := ∅) w₁ w.next
  all_goals
    have h₂ := h₁.quiet hw₂
    rw [h]
    dsimp only
  · exact booked_fail_issue h₂.during _
  · split_ifs with hclosed
    · exact booked_fail_issue h₂.during _
    · rcases booked_push h₂ with ⟨w₃, h, hb₃⟩ | ⟨w₃, h, h₃, hopen, hhead, hsize⟩
      · rw [h]
        exact hb₃
      · rw [h]
        dsimp only
        obtain ⟨w₄, h₄, h | ⟨⟨hchannel, hnode⟩, h⟩⟩ := h₃.enqueue
        · rw [h]
          exact booked_fail_issue h₄.during _
        · rw [h]
          rw [← hchannel] at hhead hsize hopen
          rw [← hnode] at hhead
          obtain ⟨ht, hpending, -⟩ := touches_link w₄
            (((w₄.enlist w.next).link w.next c).issue w.next c x) w.next c rfl rfl rfl rfl
          exact h₄.during.block hhead hsize (hopen.trans (Bool.eq_false_iff.mpr hclosed)) ht rfl
            hpending (channel_block w₄ w.next c x)

theorem booked_recv (hb : Booked c (w.view c)) (hs : Sound t T S w₀ w) (token : Option ℕ) :
    Booked c ((w.recv c token).view c) := by
  have h₁ := booked_begin hb hs { cls := .wait, token } none rfl rfl rfl
  unfold World.recv
  dsimp only
  generalize w.alloc _ _ = w₁ at h₁ ⊢
  obtain ⟨w₂, hw₂, -, ⟨h, -⟩ | h⟩ := canceledNow_cases (t := ∅) w₁ w.next
  all_goals
    have h₂ := h₁.quiet hw₂
    rw [h]
    dsimp only
  · exact booked_fail h₂.during _
  · rcases booked_pop h₂ with ⟨w₃, x, h, hb₃⟩ | ⟨w₃, h, h₃, hhead, hsize⟩
    · rw [h]
      exact hb₃
    · rw [h]
      dsimp only
      split_ifs with hclosed
      · exact booked_skip h₃.during
      · obtain ⟨w₄, h₄, h | ⟨⟨hchannel, hnode⟩, h⟩⟩ := h₃.enqueue
        · rw [h]
          exact booked_fail h₄.during _
        · rw [h]
          rw [← hchannel] at hhead hsize hclosed
          rw [← hnode] at hhead
          obtain ⟨ht, -, hsuspended⟩ := touches_link w₄
            (((w₄.enlist w.next).link w.next c).arrive w.next c) w.next c rfl rfl rfl rfl
          exact h₄.during.await hhead hsize (Bool.eq_false_iff.mpr hclosed) ht rfl hsuspended
            (channel_await w₄ w.next c)

theorem booked_trySend (hb : Booked c (w.view c)) (hs : Sound t T S w₀ w) (x : α) :
    Booked c ((w.trySend c x).view c) := by
  have h₁ := booked_begin hb hs {} (some x) rfl rfl rfl
  unfold World.trySend
  dsimp only
  generalize w.alloc _ _ = w₁ at h₁ ⊢
  have h₂ := h₁.quiet (.interfere w₁)
  split_ifs
  · exact booked_refuse h₁.during
  · exact booked_refuse h₂.during
  · rcases booked_push h₂ with ⟨w₃, h, hb₃⟩ | ⟨w₃, h, h₃, -⟩
    · rw [h]
      exact hb₃
    · rw [h]
      exact booked_refuse h₃.during

theorem booked_tryRecv (hb : Booked c (w.view c)) (hs : Sound t T S w₀ w) :
    Booked c ((w.tryRecv c).view c) := by
  have h₁ := booked_begin hb hs {} none rfl rfl rfl
  unfold World.tryRecv
  dsimp only
  generalize w.alloc _ _ = w₁ at h₁ ⊢
  have h₂ := h₁.quiet (.interfere w₁)
  split_ifs
  · exact booked_skip h₂.during
  · rcases booked_pop h₂ with ⟨w₃, x, h, hb₃⟩ | ⟨w₃, h, h₃, -⟩
    · rw [h]
      exact hb₃
    · rw [h]
      exact booked_skip h₃.during

theorem channel_reject (w : World α) (id c : ℕ) : (w.reject id c).channel c =
    { w.channel c with waiters := (w.channel c).waiters.erase id } := by
  have hunlink : (w.unlink id c).channel c =
      { w.channel c with waiters := (w.channel c).waiters.erase id } := by
    rw [channel_unlink, if_pos rfl]
  rw [← hunlink]
  unfold reject
  dsimp only
  split_ifs <;> rfl

/-- The loop of `close()` ends with the list of waiters empty. -/
theorem waiters_closeAll {l : List ℕ} (hl : (w.channel c).waiters = l) :
    ((closeAll c w l).channel c).waiters = [] := by
  induction l generalizing w with
  | nil => exact hl
  | cons id l ih =>
    refine ih (w := w.reject id c) ?_
    rw [channel_reject, hl, List.erase_cons_head]

/-- After `closed_` is set, `close()` does nothing but prune. -/
theorem Sound.close_prunes (hs : Sound t T S w₀ w) (c : ℕ) :
    Sound ∅ T S (w.setChannel c fun ch => { ch with closed := true }) (w.close c) := by
  have hs₀ : Sound .univ T S w w := hs.rebase
  have hs₁ := hs₀.quiet
    (.setChannel w c (f := fun ch => { ch with closed := true }) rfl trivial)
  exact hs₁.rebase.moves (hs₁.rebase.moves_closeAll c fun id hid => (hs₁.channel c id hid).2.1)

theorem booked_close (hb : Booked c (w.view c)) (hs : Sound t T S w₀ w) :
    Booked c ((w.close c).view c) := by
  have hview : (w.setChannel c fun ch => { ch with closed := true }).view c =
      (w.view c).put { w.channel c with closed := true } := by
    simp only [view, View.put, channel_setChannel, if_pos]
    rfl
  have hp := (hs.close_prunes c).prunes_view (Set.notMem_empty c)
  rw [hview] at hp
  exact hb.close hp (waiters_closeAll rfl)

/-! ### Runs -/

/-- Every call keeps the ledger of every channel. -/
theorem booked_call (hb : Booked c (w.view c)) (hr : Regular t w w) (l : Call α) :
    Booked c ((w.call H l).view c) := by
  by_cases hl : l.channel = some c
  · cases l with
    | send c' x token =>
      cases hl
      exact booked_send hb hr.sound x token
    | recv c' token =>
      cases hl
      exact booked_recv hb hr.sound token
    | trySend c' x =>
      cases hl
      exact booked_trySend hb hr.sound x
    | tryRecv c' =>
      cases hl
      exact booked_tryRecv hb hr.sound
    | close c' =>
      cases hl
      exact booked_close hb hr.sound
    | _ => cases hl
  · -- to this channel, the call does nothing but prune
    have hr' : Regular {c}ᶜ w w := ⟨hr.sound.rebase, hr.heap⟩
    have hcall := hr'.call (H := H) l fun c' hc' hmem => hl (Set.mem_singleton_iff.mp hmem ▸ hc')
    exact hb.prune (hcall.sound.prunes_view (by simp))

theorem booked_interfere (hb : Booked c (w.view c)) (hr : Regular t w w)
    (sched : List (List Async)) : Booked c ((World.interfere { w with sched }).view c) := by
  have hr' : Regular ∅ w w := ⟨hr.sound.rebase, hr.heap⟩
  exact hb.prune ((hr'.interfere sched).sound.prunes_view (Set.notMem_empty c))

theorem booked_run (hb : Booked c (w.view c)) (hr : Regular .univ w w)
    (ls : List (Call α × List (List Async))) : Booked c ((w.run H ls).view c) := by
  induction ls generalizing w with
  | nil => exact hb
  | cons l ls ih =>
    have hr₁ := hr.interfere l.2
    have hr₁' : Regular .univ _ _ := ⟨hr₁.sound.rebase, hr₁.heap⟩
    have hr₂ := hr₁'.call (H := H) l.1 fun _ _ => trivial
    exact ih (booked_call (booked_interfere hb hr l.2) hr₁' l.1) ⟨hr₂.sound.rebase, hr₂.heap⟩

theorem booked_init (capacity : ℕ → ℕ) (c : ℕ) : Booked c ((init capacity : World α).view c) :=
  .init rfl rfl

theorem Reachable.booked (hw : Reachable H w) (c : ℕ) : Booked c (w.view c) := by
  obtain ⟨capacity, ls, rfl⟩ := hw
  exact booked_run (booked_init capacity c) (regular_init capacity) ls

/-! ### Exactly-once completion -/

/-- A pending operation is taken off the list of its channel only with its completion. -/
theorem Regular.completed_of_not_mem (hr : Regular .univ w w) (hb : Booked c (w.view c))
    (ls : List (Call α × List (List Async))) (hid : id ∈ (w.channel c).waiters)
    (hactive : (w.op id).active = true) (hunlinked : id ∉ ((w.run H ls).channel c).waiters) :
    ((w.run H ls).op id).active = false ∧
      ((w.run H ls).resumed ++ (w.run H ls).loop.ready).count id = 1 := by
  have hs : Sound .univ _ _ w (w.run H ls) := (hr.run ls).sound
  obtain ⟨hlt, hhome, -⟩ := hb.ledger.waiters id hid
  have hinactive : ((w.run H ls).op id).active = false := Bool.eq_false_iff.mpr fun h =>
    hunlinked ((booked_run hb hr ls).linked id (Nat.lt_of_lt_of_le hlt hs.next_le)
      ((hs.home id hlt).trans hhome) h)
  have hsuspended := hs.suspended_subset (hr.sound.pending id hactive).2.1
  exact ⟨hinactive, (hs.completed id).trans (if_pos ⟨hsuspended, hinactive⟩)⟩

/-- **Exactly-once completion of owner-thread suspensions.** In every state between two calls of a
run, whatever flags other threads have raised before and during the calls:

* the operations pushed onto `ready_`, resumed since or not, are the suspended ones that are not
  active any more, each pushed once;
* an active operation is in exactly one of `timers_` and `waits_`, any other in neither;
* the error of a suspended operation is `operation_canceled` only if it was canceled or the loop
  was stopped;
* no further run changes the result of a completed operation;
* completed are: by `set()` all waiters of the event, by `close()` all waiters of the channel, by
  `expire()` every timer that is due, and every timer and every interruptible wait that had been
  canceled, or whose loop had been stopped, when `cancel_` was set;
* a pending operation that any further calls take off the list of its channel, be it by a hand-off
  to a receiver, by the match of a blocked sender, by pruning or by `close()`, is completed then and
  has been pushed once. -/
theorem completes_exactly_once (hw : Reachable H w) :
    (∀ id, (w.resumed ++ w.loop.ready).count id =
      if id ∈ w.suspended ∧ (w.op id).active = false then 1 else 0) ∧
    (∀ id, w.loop.timers.count id + w.loop.waits.count id =
      if (w.op id).active = true then 1 else 0) ∧
    (∀ id ∈ w.suspended, (w.op id).error = some .operationCanceled →
      (w.op id).canceled = true ∨ w.loop.stopping = true) ∧
    (∀ ls, ∀ id ∈ w.suspended, (w.op id).active = false →
      ((w.run H ls).op id).active = false ∧ ((w.run H ls).op id).error = (w.op id).error ∧
      ((w.run H ls).node id).value = (w.node id).value) ∧
    (∀ e, ∀ id ∈ (w.event e).waiters, ((w.set e).op id).active = false) ∧
    (∀ c, ∀ id ∈ (w.channel c).waiters, ((w.close c).op id).active = false) ∧
    (∀ sched now, ∀ id ∈ w.loop.timers, w.due id ≤ now →
      ((expire H { w with sched } now).op id).active = false) ∧
    (∀ sched now id, w.loop.cancel = true →
      id ∈ w.loop.timers ∨ id ∈ w.loop.waits ∧ (w.op id).interruptible = true →
      (w.op id).canceled = true ∨ w.loop.stopping = true →
      ((expire H { w with sched } now).op id).active = false) ∧
    (∀ ls c, ∀ id ∈ (w.channel c).waiters, (w.op id).active = true →
      id ∉ ((w.run H ls).channel c).waiters → ((w.run H ls).op id).active = false ∧
        ((w.run H ls).resumed ++ (w.run H ls).loop.ready).count id = 1) := by
  have hr : Regular .univ w w := hw.regular
  have hs := hr.sound
  have hsched : ∀ sched : List (List Async),
      Sound .univ w.loop.timers w.loop.timers w { w with sched } :=
    fun sched => hs.quiet (.sched w sched)
  refine ⟨hs.completed, hs.count_lists, hs.canceled, fun ls => (hr.run ls).sound.kept, ?_, ?_, ?_,
    ?_, fun ls c id hid hactive => hr.completed_of_not_mem (hw.booked c) ls hid hactive⟩
  · intro e id hid
    refine not_active_foldl_notify (.inl ?_)
    simpa [setEvent] using hid
  · intro c id hid
    refine not_active_closeAll (.inl ?_)
    simpa [setChannel] using hid
  · intro sched now id hid hdue
    obtain ⟨_, _, _, hexpired, _⟩ := (hsched sched).expire (H := H) hr.heap now
    exact hexpired id hid hdue
  · intro sched now
    obtain ⟨_, _, _, _, hcanceled⟩ := (hsched sched).expire (H := H) hr.heap now
    exact hcanceled

/-- A receiver waits at an empty channel. -/
def receivingState : World ℕ := run .sorting (init fun _ => 1) [(.recv 0 none, [])]

/-- A value has been handed to the receiver. -/
def handedState : World ℕ := receivingState.run .sorting [(.send 0 5 none, [])]

theorem completes_exactly_once_handedState : Reachable .sorting receivingState ∧
    (handedState.node 0).value = some 5 ∧ (handedState.op 0).active = false ∧
    (handedState.resumed ++ handedState.loop.ready).count 0 = 1 := by
  have hw : Reachable .sorting receivingState := ⟨_, _, rfl⟩
  have hstate : 0 ∈ (receivingState.channel 0).waiters ∧ (receivingState.op 0).active = true ∧
      0 ∉ (handedState.channel 0).waiters ∧ (handedState.node 0).value = some 5 := by decide
  obtain ⟨hwaiters, hactive, hunlinked, hvalue⟩ := hstate
  obtain ⟨-, -, -, -, -, -, -, -, hhanded⟩ := completes_exactly_once hw
  exact ⟨hw, hvalue, hhanded _ 0 0 hwaiters hactive hunlinked⟩

end Snowy.World
