import Snowy.Owner.Channel

/-!
# Delivery by channels

The two contracts of `channel`: no match is missed, and values are delivered once and in order. The
second has a part on closed channels. After `close()` nothing comes in, so the receives drain the
buffer; but a receive on a stopped loop, or with a token whose stop has been requested, yields
nothing and takes nothing, also from a closed channel that is not empty.

## Main results

* `Snowy.World.channel_never_misses` : the waiters match the contents of the buffer.
* `Snowy.World.channel_fifo` : exactly-once delivery in order.
* `Snowy.World.not_drained_of_stop` : a receive on a stopped loop does not drain.
-/

namespace Snowy.World

variable {α : Type*} {H : HeapRange ℕ ℤ} {w₀ w w' : World α} {id c : ℕ} {T S : List ℕ} {t : Set ℕ}
  {x : α}

/-! ### Matching -/

/-- **A channel never misses a match.** In every state between two calls: all linked waiters have
the same direction; senders are linked only when the buffer is full and receivers only when it is
empty; nobody is linked once the channel is closed; and the engaged slots are exactly the `size_`
slots from `head_` on. So the slot that `push` fills is a disengaged one, the slot that `pop` reads
an engaged one, and the slot that a sender refills after that a disengaged one. -/
theorem channel_never_misses (hw : Reachable H w) (c : ℕ) :
    (∀ i ∈ (w.channel c).waiters, ∀ j ∈ (w.channel c).waiters,
      (w.node i).sending = (w.node j).sending) ∧
    (∀ i ∈ (w.channel c).waiters, (w.node i).sending = true →
      (w.channel c).ring.size = (w.channel c).ring.capacity) ∧
    (∀ i ∈ (w.channel c).waiters, (w.node i).sending = false → (w.channel c).ring.size = 0) ∧
    ((w.channel c).closed = true → (w.channel c).waiters = []) ∧
    (w.channel c).ring.size ≤ (w.channel c).ring.capacity ∧
    (0 < (w.channel c).ring.capacity → (w.channel c).ring.head < (w.channel c).ring.capacity) ∧
    (∀ i < (w.channel c).ring.capacity,
      ((w.channel c).ring.slots[((w.channel c).ring.head + i) %
        (w.channel c).ring.capacity]?).join.isSome
        ↔ i < (w.channel c).ring.size) ∧
    ((w.channel c).ring.size ≠ (w.channel c).ring.capacity →
      0 < (w.channel c).ring.capacity ∧ (w.channel c).ring.slot (w.channel c).ring.size = none) ∧
    ((w.channel c).ring.size ≠ 0 →
      0 < (w.channel c).ring.capacity ∧ ((w.channel c).ring.slot 0).isSome ∧
      (w.channel c).ring.pop.slot (w.channel c).ring.pop.size = none) := by
  obtain ⟨hsides, hfull, hempty, hidle, hvalid⟩ := (hw.booked c).ledger.matching
  change (w.channel c).ring.Valid at hvalid
  refine ⟨hsides, hfull, hempty, hidle, hvalid.size_le, hvalid.head_lt, hvalid.engaged,
    fun hsize => ?_, fun hsize => ?_⟩
  · have hlt := Nat.lt_of_le_of_ne hvalid.size_le hsize
    exact ⟨Nat.zero_lt_of_lt hlt, hvalid.slot_size hlt⟩
  · have hpos := Nat.pos_of_ne_zero hsize
    have hcap := Nat.lt_of_lt_of_le hpos hvalid.size_le
    obtain ⟨x, hx⟩ := hvalid.slot_zero hpos
    refine ⟨hcap, by rw [hx]; rfl, (hvalid.pop hpos).slot_size ?_⟩
    rw [RingBuffer.capacity_pop]
    change (w.channel c).ring.size - 1 < _
    have := hvalid.size_le
    omega

/-- A sender waits at a full channel. -/
def fullState : World ℕ :=
  run .sorting (init fun _ => 1) [(.send 0 5 none, []), (.send 0 6 none, [])]

theorem channel_never_misses_fullState : Reachable .sorting fullState ∧
    1 ∈ (fullState.channel 0).waiters ∧ (fullState.channel 0).ring.size = 1 := by
  have hw : Reachable .sorting fullState := ⟨_, _, rfl⟩
  have hwaits : 1 ∈ (fullState.channel 0).waiters ∧ (fullState.node 1).sending = true := by decide
  exact ⟨hw, hwaits.1, (channel_never_misses hw 0).2.1 1 hwaits.1 hwaits.2⟩

/-! ### Closed channels -/

/-- A receive with the operation `id` takes the first buffered value, or yields `nullopt` if there
is none. -/
structure Drains (c id : ℕ) (w w' : World α) : Prop where
  value : (w'.node id).value = (w.channel c).ring.toList.head?
  error : (w'.op id).error = none
  inactive : (w'.op id).active = false
  buffer : (w'.channel c).ring.toList = (w.channel c).ring.toList.tail
  handed : (w'.channel c).handed.map Prod.snd =
    (w.channel c).handed.map Prod.snd ++ (w.channel c).ring.toList.head?.toList
  closed : (w'.channel c).closed = (w.channel c).closed

/-- A receive with the operation `id` yields no value and leaves the channel as it is. -/
structure Spares (c id : ℕ) (w w' : World α) : Prop where
  value : (w'.node id).value = none
  inactive : (w'.op id).active = false
  channel : w'.channel c = w.channel c

/-- Without waiters, `channel::pop` takes the first buffered value. -/
theorem pop_of_waiters_nil (hws : (w.channel c).waiters = [])
    (hvalid : (w.channel c).ring.Valid) (id : ℕ) :
    (w.channel c).ring.toList = [] ∧ w.pop id c = (w, none) ∨
      ∃ x, (w.channel c).ring.toList = x :: (w.channel c).ring.pop.toList ∧
        w.pop id c = ((w.dropFront c).hand id c x, some x) := by
  have hsender : ∀ (w' : World α) (value : Option α), (w'.channel c).waiters = [] →
      w'.popSender c value = (w', value) := fun w' value h => by
    rw [popSender, h]
    rfl
  unfold pop popBuffered
  dsimp only
  split_ifs with hsize
  · refine .inl ⟨?_, ?_⟩
    · rw [← List.length_eq_zero_iff, hvalid.length_toList, hsize]
    · rw [hsender w none hws]
  · have hpos := Nat.pos_of_ne_zero hsize
    obtain ⟨x, hx⟩ := hvalid.slot_zero hpos
    refine .inr ⟨x, hvalid.toList_pop hpos hx, ?_⟩
    rw [hx, hsender]
    rw [channel_dropFront]
    exact hws

/-- A receive with the operation `id` has begun. -/
structure Begun (c id : ℕ) (w w' : World α) : Prop where
  channel : w'.channel c = w.channel c
  inactive : (w'.op id).active = false
  error : (w'.op id).error = none
  value : (w'.node id).value = none

theorem begun_alloc (w : World α) (c : ℕ) (op : Op) (hactive : op.active = false)
    (herror : op.error = none) : Begun c w.next w (w.alloc op (.call c none)) := by
  have hop := (op_alloc w op (.call c none) w.next).trans (if_pos rfl)
  have hnode := (node_alloc w op (.call c none) w.next).trans (if_pos rfl)
  exact ⟨rfl, (congrArg Op.active hop).trans hactive, (congrArg Op.error hop).trans herror,
    congrArg Node.value hnode⟩

theorem Begun.quiet {w₁ : World α} (h : Begun c id w w₁) (hw : Quiet ∅ w₁ w')
    (hch : w'.channel = w₁.channel) (hnode : w'.node = w₁.node) : Begun c id w w' :=
  ⟨hch ▸ h.channel, (hw.op id).active.trans h.inactive, (hw.op id).error.trans h.error,
    hnode ▸ h.value⟩

/-- A receive that does not find the loop stopped drains a channel without waiters. -/
theorem drains_pop (hws : (w.channel c).waiters = []) (hvalid : (w.channel c).ring.Valid)
    (hb : Begun c id w w') : w'.pop id c = (w', none) ∧ Drains c id w w' ∨
      ∃ w₁ x, w'.pop id c = (w₁, some x) ∧
        Drains c id w (w₁.setNode id fun n => { n with value := some x }) := by
  have hch := hb.channel
  rw [← hch] at hws hvalid
  rcases pop_of_waiters_nil hws hvalid id with ⟨hnil, h⟩ | ⟨x, hcons, h⟩
  · refine .inl ⟨h, ⟨?_, hb.error, hb.inactive, ?_, ?_, congrArg Channel.closed hch⟩⟩ <;>
      rw [hch] at hnil
    · rw [hb.value, hnil, List.head?_nil]
    · rw [hch, hnil, List.tail_nil]
    · rw [hch, hnil, List.head?_nil, Option.toList_none, List.append_nil]
  · refine .inr ⟨_, x, h, ?_⟩
    have hchannel : (((w'.dropFront c).hand id c x).setNode id
        fun n => { n with value := some x }).channel c =
        { w'.channel c with
          ring := (w'.channel c).ring.pop
          handed := (w'.channel c).handed ++ [(id, x)] } := by
      rw [setNode, hand, channel_setChannel, if_pos rfl, channel_dropFront]
    refine ⟨?_, hb.error, hb.inactive, ?_, ?_, ?_⟩
    · rw [node_setNode, if_pos rfl, ← hch, hcons]
      rfl
    · rw [hchannel, ← hch, hcons]
      rfl
    · rw [hchannel, ← hch, hcons]
      simp
    · rw [hchannel, hch]

/-- What `recv()` does on a closed channel. -/
theorem recv_closed (hb : Booked c (w.view c)) (hclosed : (w.channel c).closed = true)
    (token : Option ℕ) :
    Drains c w.next w (w.recv c token) ∨ Spares c w.next w (w.recv c token) ∧
      ((w.recv c token).op w.next).error = some .operationCanceled ∧
      ((w.recv c token).loop.stopping = true ∨ (w.recv c token).stopRequested w.next = true) := by
  obtain ⟨-, -, -, hidle, hvalid⟩ := hb.ledger.matching
  have hws : (w.channel c).waiters = [] := hidle hclosed
  have hb₁ := begun_alloc w c { cls := .wait, token } rfl rfl
  unfold World.recv
  dsimp only
  generalize w.alloc _ _ = w₁ at hb₁ ⊢
  obtain ⟨w₂, hw₂, ⟨hch₂, hnode₂⟩, ⟨h, hflag⟩ | h⟩ := canceledNow_cases (t := ∅) w₁ w.next
  all_goals
    have hb₂ := hb₁.quiet hw₂ hch₂ hnode₂
    rw [h]
    dsimp only
  · refine .inr ⟨⟨hb₂.value, ?_, hb₂.channel⟩, ?_, hflag.imp_right fun h => ?_⟩
    · simp [op_fail, hb₂.inactive]
    · simp [op_fail]
    · exact (Owner.stopRequested_fail ..).trans h
  · refine .inl ?_
    rcases drains_pop hws hvalid hb₂ with ⟨h, hdrains⟩ | ⟨w₃, x, h, hdrains⟩
    · rw [h]
      dsimp only
      rwa [if_pos (by rw [hb₂.channel, hclosed])]
    · rwa [h]

/-- What `try_recv()` does on a closed channel. -/
theorem tryRecv_closed (hb : Booked c (w.view c)) (hclosed : (w.channel c).closed = true) :
    Drains c w.next w (w.tryRecv c) ∨ Spares c w.next w (w.tryRecv c) ∧
      (w.tryRecv c).loop.stopping = true := by
  obtain ⟨-, -, -, hidle, hvalid⟩ := hb.ledger.matching
  have hws : (w.channel c).waiters = [] := hidle hclosed
  have hb₁ := begun_alloc w c {} rfl rfl
  unfold World.tryRecv
  dsimp only
  generalize w.alloc _ _ = w₁ at hb₁ ⊢
  have hb₂ : Begun c w.next w w₁.interfere :=
    hb₁.quiet (.interfere w₁) (channel_interfere w₁) (node_interfere w₁)
  split_ifs with hstop
  · exact .inr ⟨⟨hb₂.value, hb₂.inactive, hb₂.channel⟩, hstop⟩
  · refine .inl ?_
    rcases drains_pop hws hvalid hb₂ with ⟨h, hdrains⟩ | ⟨w₃, x, h, hdrains⟩
    · rwa [h]
    · rwa [h]

/-- What has been delivered and what is left. -/
def stock (w : World α) (c : ℕ) : List α :=
  (w.channel c).handed.map Prod.snd ++ (w.channel c).ring.toList

theorem Drains.stock_eq (hd : Drains c id w w') : w'.stock c = w.stock c := by
  rw [stock, hd.handed, hd.buffer, stock]
  cases (w.channel c).ring.toList <;> simp

/-- A send on a closed channel leaves it as it is. -/
theorem send_closed (hclosed : (w.channel c).closed = true) (x : α) (token : Option ℕ) :
    (w.send c x token).channel c = (w.channel c).refuse w.next x := by
  unfold World.send
  dsimp only
  have hch₁ : (w.alloc { cls := .wait, token } (.call c (some x))).channel = w.channel := rfl
  generalize w.alloc _ _ = w₁ at hch₁ ⊢
  obtain ⟨w₂, -, ⟨hch₂, -⟩, ⟨h, -⟩ | h⟩ := canceledNow_cases (t := ∅) w₁ w.next
  all_goals
    rw [← hch₂] at hch₁
    rw [h]
    dsimp only
  · rw [channel_issue, ← hch₁]
    rfl
  · rw [if_pos (by rw [hch₁, hclosed]), channel_issue, ← hch₁]
    rfl

theorem trySend_closed (hclosed : (w.channel c).closed = true) (x : α) :
    (w.trySend c x).channel c = (w.channel c).refuse w.next x := by
  have hopen : ((w.alloc {} (.call c (some x))).channel c).closed = true := hclosed
  unfold World.trySend
  dsimp only
  rw [if_pos hopen, World.refuse, channel_issue]
  rfl

/-- A second `close()` changes nothing. -/
theorem close_closed (hs : Sound t T S w₀ w) (c : ℕ) :
    ∃ ws, (w.close c).channel c = { w.channel c with waiters := ws, closed := true } := by
  obtain ⟨ws, -, hch, -⟩ := ((hs.close_prunes c).prunes c (Set.notMem_empty c)).channel
  rw [channel_setChannel, if_pos rfl] at hch
  exact ⟨ws, hch⟩

/-- A closed channel stays closed, and nothing is added to it or lost from it. -/
theorem stock_call (hb : Booked c (w.view c)) (hr : Regular t w w)
    (hclosed : (w.channel c).closed = true)
    (l : Call α) : ((w.call H l).channel c).closed = true ∧ (w.call H l).stock c = w.stock c := by
  have hstock : ∀ {w' : World α} {ch : Channel α}, w'.channel c = ch →
      ch.closed = true → ch.handed = (w.channel c).handed → ch.ring = (w.channel c).ring →
      (w'.channel c).closed = true ∧ w'.stock c = w.stock c := by
    rintro w' _ rfl hc hh hring
    exact ⟨hc, by rw [stock, hh, hring, stock]⟩
  -- a receive takes a value out or leaves the channel as it is
  have hreceive : ∀ {w' : World α} {P : Prop}, Drains c w.next w w' ∨ Spares c w.next w w' ∧ P →
      (w'.channel c).closed = true ∧ w'.stock c = w.stock c := by
    rintro w' P (h | ⟨h, -⟩)
    · exact ⟨h.closed.trans hclosed, h.stock_eq⟩
    · exact hstock h.channel hclosed rfl rfl
  by_cases hl : l.channel = some c
  · cases l with
    | send c' x token =>
      cases hl
      exact hstock (send_closed hclosed x token) hclosed rfl rfl
    | recv c' token =>
      cases hl
      exact hreceive (recv_closed hb hclosed token)
    | trySend c' x =>
      cases hl
      exact hstock (trySend_closed hclosed x) hclosed rfl rfl
    | tryRecv c' =>
      cases hl
      exact hreceive (tryRecv_closed hb hclosed)
    | close c' =>
      cases hl
      obtain ⟨ws, h⟩ := close_closed hr.sound c
      exact hstock h rfl rfl rfl
    | _ => cases hl
  · have hr' : Regular {c}ᶜ w w := ⟨hr.sound.rebase, hr.heap⟩
    have hcall := hr'.call (H := H) l fun c' hc' hmem => hl (Set.mem_singleton_iff.mp hmem ▸ hc')
    obtain ⟨ws, -, h, -⟩ := (hcall.sound.prunes c (by simp)).channel
    exact hstock h hclosed rfl rfl

theorem stock_interfere (w : World α) (sched : List (List Async)) (c : ℕ) :
    (World.interfere { w with sched }).channel c = w.channel c := by
  rw [channel_interfere]

theorem stock_run (hb : Booked c (w.view c)) (hr : Regular .univ w w)
    (hclosed : (w.channel c).closed = true) (ls : List (Call α × List (List Async))) :
    ((w.run H ls).channel c).closed = true ∧ (w.run H ls).stock c = w.stock c := by
  induction ls generalizing w with
  | nil => exact ⟨hclosed, rfl⟩
  | cons l ls ih =>
    have hr₁ := hr.interfere l.2
    have hr₁' : Regular .univ _ _ := ⟨hr₁.sound.rebase, hr₁.heap⟩
    have hb₁ := booked_interfere hb hr l.2
    have hch := stock_interfere w l.2 c
    obtain ⟨hclosed', hstock'⟩ := stock_call (H := H) hb₁ hr₁' (by rw [hch, hclosed]) l.1
    have hr₂ := hr₁'.call (H := H) l.1 fun _ _ => trivial
    obtain ⟨h, h'⟩ := ih (booked_call hb₁ hr₁' l.1) ⟨hr₂.sound.rebase, hr₂.heap⟩ hclosed'
    refine ⟨h, h'.trans (hstock'.trans ?_)⟩
    rw [stock, hch, stock]

/-! ### Delivery -/

/-- The operation is a `send` on the channel `c` that has completed without an error, or a
`try_send` that has returned true. -/
def Sent (w : World α) (c i : ℕ) : Prop :=
  (w.node i).home = .channel c ∧ (w.node i).sending = true ∧ (w.op i).active = false ∧
    (w.op i).error = none ∧ (w.node i).refused = false
  deriving Decidable

theorem sent_view (w : World α) (c : ℕ) : (w.view c).sent c = fun i => decide (w.Sent c i) := by
  funext i
  rw [Bool.eq_iff_iff, decide_eq_true_iff, View.sent, View.succeeded, Bool.and_eq_true_iff,
    Bool.and_eq_true_iff, View.isSend_iff, ok_iff, Bool.not_eq_true']
  constructor
  · rintro ⟨⟨⟨hinactive, herror⟩, hrefused⟩, hhome, hsending⟩
    exact ⟨hhome, hsending, hinactive, herror, hrefused⟩
  · rintro ⟨hhome, hsending, hinactive, herror, hrefused⟩
    exact ⟨⟨⟨hinactive, herror⟩, hrefused⟩, hhome, hsending⟩

/-- **A channel delivers exactly once and in order.** In every state between two calls, for every
capacity:

* the values handed to receivers, in the order of the hand-over, followed by the buffered values,
  are the values of the successful sends, in the order of their calls; so a send that has failed or
  been refused contributes nothing;
* a receive has a value if and only if one was handed to it, which happens at most once, and then it
  has ended without an error; so a receive that throws or yields `nullopt` consumes nothing;
* the receivers that had to wait get their values in the order of their calls, and none that still
  waits has been overtaken;
* a closed channel stays closed and takes nothing over. A receive on it gets the first buffered
  value, or `nullopt` if there is none, unless the loop is stopped or the stop of its token has been
  requested: then it may end with nothing, and it takes nothing. -/
theorem channel_fifo (hw : Reachable H w) (c : ℕ) :
    (w.channel c).handed.map Prod.snd ++ (w.channel c).ring.toList =
      ((List.range w.next).filter fun i => w.Sent c i).filterMap (fun i => (w.node i).value) ∧
    (∀ i x, (i, x) ∈ (w.channel c).handed ↔ i < w.next ∧ (w.node i).home = .channel c ∧
      (w.node i).sending = false ∧ (w.node i).value = some x) ∧
    ((w.channel c).handed.map Prod.fst).Nodup ∧
    (∀ i x, (i, x) ∈ (w.channel c).handed → (w.op i).active = false ∧ (w.op i).error = none) ∧
    ((w.channel c).handed.map Prod.fst |>.filter fun i => i ∈ w.suspended).Pairwise (· < ·) ∧
    (∀ i ∈ (w.channel c).handed.map Prod.fst, i ∈ w.suspended → ∀ j ∈ w.suspended,
      (w.node j).home = .channel c → (w.node j).sending = false → (w.op j).active = true → i < j) ∧
    ((w.channel c).closed = true →
      (∀ ls, ((w.run H ls).channel c).closed = true ∧
        ((w.run H ls).channel c).handed.map Prod.snd ++ ((w.run H ls).channel c).ring.toList =
          (w.channel c).handed.map Prod.snd ++ (w.channel c).ring.toList) ∧
      (∀ sched token w', step H w (.recv c token, sched) = w' →
        Drains c w.next w w' ∨ Spares c w.next w w' ∧
          (w'.op w.next).error = some .operationCanceled ∧
          (w'.loop.stopping = true ∨ w'.stopRequested w.next = true)) ∧
      (∀ sched w', step H w (.tryRecv c, sched) = w' →
        Drains c w.next w w' ∨ Spares c w.next w w' ∧ w'.loop.stopping = true)) := by
  have hb := hw.booked c
  have hr : Regular .univ w w := hw.regular
  have hsuspended : (w.view c).suspended = fun i => decide (i ∈ w.suspended) := by
    funext i
    simp [view]
  obtain ⟨hserved, hovertaken⟩ := hb.ledger.service hb.linked
  refine ⟨?_, fun i x => hb.ledger.mem_handed_iff i x, hb.ledger.handed_nodup, fun i x h => ?_, ?_,
    fun i hi hsi j hj hhome hsending hactive => ?_, fun hclosed => ⟨?_, ?_, ?_⟩⟩
  · have hfifo := hb.ledger.fifo hb.complete
    rw [sent_view] at hfifo
    exact hfifo
  · exact ok_iff.mp (hb.ledger.handed _ h).2.2.2.2
  · rw [hsuspended] at hserved
    exact hserved
  · exact hovertaken i hi (by simpa [hsuspended] using hsi) j (hr.sound.suspended_lt j hj) hhome
      hsending (by simpa [hsuspended] using hj) hactive
  · exact fun ls => stock_run hb hr hclosed ls
  all_goals
    intro sched
    -- the state in which the call begins
    obtain ⟨w₁, hw₁⟩ : ∃ w₁, World.interfere { w with sched } = w₁ := ⟨_, rfl⟩
    have hb₁ : Booked c (w₁.view c) := hw₁ ▸ booked_interfere hb hr sched
    have hch₁ : w₁.channel c = w.channel c := hw₁ ▸ stock_interfere w sched c
    have hnext₁ : w₁.next = w.next := by
      rw [← hw₁]
      exact (Quiet.interfere (t := ∅) { w with sched }).next
    have hclosed₁ : (w₁.channel c).closed = true := by rw [hch₁, hclosed]
    have hdrains : ∀ {w'}, Drains c w₁.next w₁ w' → Drains c w.next w w' := fun h => by
      rw [hnext₁] at h
      obtain ⟨h₁, h₂, h₃, h₄, h₅, h₆⟩ := h
      rw [hch₁] at h₁ h₄ h₅ h₆
      exact ⟨h₁, h₂, h₃, h₄, h₅, h₆⟩
    have hspares : ∀ {w'}, Spares c w₁.next w₁ w' → Spares c w.next w w' := fun h => by
      rw [hnext₁] at h
      exact ⟨h.value, h.inactive, h.channel.trans hch₁⟩
  · intro token w' hstep
    have hrecv : w₁.recv c token = w' := by rw [← hstep, ← hw₁]; rfl
    rcases recv_closed hb₁ hclosed₁ token with h | ⟨h, herror, hflag⟩
    · exact .inl (hdrains (hrecv ▸ h))
    · rw [hrecv] at h herror hflag
      rw [hnext₁] at herror hflag
      exact .inr ⟨hspares h, herror, hflag⟩
  · intro w' hstep
    have hrecv : w₁.tryRecv c = w' := by rw [← hstep, ← hw₁]; rfl
    rcases tryRecv_closed hb₁ hclosed₁ with h | ⟨h, hstop⟩
    · exact .inl (hdrains (hrecv ▸ h))
    · rw [hrecv] at h hstop
      exact .inr ⟨hspares h, hstop⟩

/-- A channel that was closed with one value in it. -/
def closedState : World ℕ :=
  run .sorting (init fun _ => 1) [(.trySend 0 7, []), (.close 0, [])]

theorem channel_fifo_closedState : Reachable .sorting closedState ∧
    ∃ w', step .sorting closedState (.tryRecv 0, []) = w' ∧
      (w'.node closedState.next).value = some 7 := by
  have hw : Reachable .sorting closedState := ⟨_, _, rfl⟩
  have hclosed : (closedState.channel 0).closed = true := by decide
  refine ⟨hw, _, rfl, ?_⟩
  have hdrains := (((channel_fifo hw 0).2.2.2.2.2.2 hclosed).2.2 [] _ rfl).resolve_right fun h =>
    absurd h.2 (by decide)
  exact hdrains.value.trans (by decide)

/-- On a stopped loop, `try_recv()` yields `nullopt` although the closed channel has a value, and
`recv()` throws. -/
theorem not_drained_of_stop : Reachable .sorting closedState ∧
    (closedState.channel 0).closed = true ∧ (closedState.channel 0).ring.toList = [7] ∧
    ((step .sorting closedState (.tryRecv 0, [[.stop]])).node closedState.next).value = none ∧
    ((step .sorting closedState (.recv 0 none, [[.stop]])).op closedState.next).error =
      some .operationCanceled :=
  ⟨⟨_, _, rfl⟩, by decide, by decide, by decide, by decide⟩

end Snowy.World
