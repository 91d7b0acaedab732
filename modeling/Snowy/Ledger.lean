import Mathlib.Logic.Function.Basic
import Snowy.Lib.Handoff
import Snowy.Lib.RingBuffer

/-!
# The ledger of a bounded queue

`channel` and `mailbox` move values in the same way and differ in how a waiter is completed: on the
owner thread, or by a message to its loop. This file has the records that both use, and what the
two share: a queue follows the abstract bounded queue `Handoff`, and its history agrees with the
results of the operations.

What the ledger sees of an operation is whether it has had to wait (`View.suspended`), whether it
still waits (`View.pending`) and whether it has completed without an error (`View.ok`).

## Main definitions

* `Snowy.Node`, `Snowy.Channel` : the records of an operation on a queue and of a queue.
* `Snowy.View` : a queue with the operations on it.
* `Snowy.View.Follows` : the queue follows an abstract one.
* `Snowy.View.Sends`, `Snowy.View.Receipts`, `Snowy.View.Arrivals` : the parts of the history.
* `Snowy.Ledger` : the invariant.
* `Snowy.Booked`, `Snowy.During` : the invariant between calls, and during a call.

## Main results

* `Snowy.Ledger.prune` : completing waiters with an error keeps the invariant.
* `Snowy.During.give`, `Snowy.During.store`, `Snowy.During.block` : what a send can do keeps it.
* `Snowy.During.fetch`, `Snowy.During.refill`, `Snowy.During.rendezvous`, `Snowy.During.await` :
  what a receive can do keeps it.
* `Snowy.Ledger.fifo`, `Snowy.Ledger.service` : what it says about the order of values and receives.
-/

namespace Snowy

open Function List

/-- Where an operation waits. -/
inductive Home where
  | timers
  | event (e : ℕ)
  | channel (c : ℕ)
  deriving DecidableEq, Repr

/-- The fields of `channel::node` or `mailbox::node` next to those of `detail::wait`. A call of
`try_send` or `try_recv` has a record too, which keeps what it has returned: `refused` when a
`try_send` has returned false, `value` for the result of a `try_recv`. -/
structure Node (α : Type*) where
  home : Home := .timers
  sending : Bool := false
  value : Option α := none
  refused : Bool := false
  deriving DecidableEq, Repr

/-- The node of a new operation: a send of a value, or a receive. -/
def Node.call {α : Type*} (c : ℕ) (sent : Option α) : Node α :=
  { home := .channel c, sending := sent.isSome, value := sent }

/-- The fields of `channel` or `mailbox`: the ring buffer, `closed_`, and the list of the linked
nodes from the first. The fields from `issued` on are histories that no function reads: the sends
in the order of their calls, those whose value has been taken over, the values handed to receivers
in the order of the hand-over, the receivers that have begun to wait, and those among them that
have got a value. -/
structure Channel (α : Type*) where
  ring : RingBuffer α := .empty 0
  closed : Bool := false
  waiters : List ℕ := []
  issued : List (ℕ × α) := []
  accepted : List (ℕ × α) := []
  handed : List (ℕ × α) := []
  arrived : List ℕ := []
  served : List ℕ := []
  deriving DecidableEq, Repr

namespace Channel

variable {α : Type*} (ch : Channel α) (id : ℕ) (x : α)

/-- A send that transfers nothing. -/
def refuse : Channel α := { ch with issued := ch.issued ++ [(id, x)] }

/-- A send to the waiting receiver `r`. -/
def give (r : ℕ) : Channel α :=
  { ch with
    waiters := ch.waiters.erase r
    issued := ch.issued ++ [(id, x)]
    accepted := ch.accepted ++ [(id, x)]
    handed := ch.handed ++ [(r, x)]
    served := ch.served ++ [r] }

/-- A send to the buffer. -/
def store : Channel α :=
  { ch with
    ring := ch.ring.push x
    issued := ch.issued ++ [(id, x)]
    accepted := ch.accepted ++ [(id, x)] }

/-- A sender that begins to wait. -/
def block : Channel α :=
  { ch with waiters := ch.waiters ++ [id], issued := ch.issued ++ [(id, x)] }

/-- A receiver that begins to wait. -/
def await : Channel α :=
  { ch with waiters := ch.waiters ++ [id], arrived := ch.arrived ++ [id] }

/-- The end of a receive that has taken `x` out of the buffer. -/
def fetch : Channel α := { ch with handed := ch.handed ++ [(id, x)] }

/-- The end of a receive that has taken `x` out of the buffer, when the waiting sender `s` puts `y`
into the slot. -/
def refill (s : ℕ) (y : α) : Channel α :=
  { ch with
    ring := ch.ring.push y
    waiters := ch.waiters.erase s
    accepted := ch.accepted ++ [(s, y)]
    handed := ch.handed ++ [(id, x)] }

/-- A receive from the waiting sender `s`. -/
def rendezvous (s : ℕ) (y : α) : Channel α :=
  { ch with
    waiters := ch.waiters.erase s
    accepted := ch.accepted ++ [(s, y)]
    handed := ch.handed ++ [(id, y)] }

end Channel

/-- A queue with the operations on it, of which `next` is the next unused pointer. -/
structure View (α : Type*) where
  ch : Channel α
  node : ℕ → Node α
  next : ℕ
  suspended : ℕ → Bool
  ok : ℕ → Bool
  pending : ℕ → Bool
  excl : ∀ i, pending i = true → ok i = false

namespace View

variable {α : Type*} {v v' : View α} {c id : ℕ} {ids : List ℕ} {held : Option α}
  {h : Handoff ℕ α}

/-- The same operations with another record of the queue. -/
def put (v : View α) (ch : Channel α) : View α := { v with ch }

/-- A waiter as the abstract queue sees it. -/
def item (v : View α) (i : ℕ) : ℕ × Option α :=
  (i, if (v.node i).sending then (v.node i).value else none)

/-- The queue follows `h`, except that a receive holds the value that it has taken out of the
buffer. -/
structure Follows (v : View α) (held : Option α) (h : Handoff ℕ α) : Prop where
  valid : v.ch.ring.Valid
  capacity : h.capacity = v.ch.ring.capacity
  buffer : h.buffer = held.toList ++ v.ch.ring.toList
  closed : h.closed = v.ch.closed
  waiters : h.waiters = v.ch.waiters.map v.item
  issued : h.issued = v.ch.issued
  accepted : h.accepted = v.ch.accepted
  handed : h.handed = v.ch.handed
  arrived : h.arrived = v.ch.arrived
  served : h.served = v.ch.served

theorem Follows.buffer_eq_nil (hf : v.Follows none h) (hsize : v.ch.ring.size = 0) :
    h.buffer = [] := by
  have hbuffer : h.buffer = v.ch.ring.toList := hf.buffer
  rw [← length_eq_zero_iff, hbuffer, hf.valid.length_toList, hsize]

/-- The operation is a send on the queue `c`. -/
def isSend (v : View α) (c i : ℕ) : Bool :=
  decide ((v.node i).home = .channel c) && (v.node i).sending

theorem isSend_iff {i : ℕ} : v.isSend c i = true ↔
    (v.node i).home = .channel c ∧ (v.node i).sending = true := by
  simp [isSend]

/-- The operation has completed and was not refused. -/
def succeeded (v : View α) (i : ℕ) : Bool := v.ok i && !(v.node i).refused

/-- The operation is a successful send on the queue `c`. -/
def sent (v : View α) (c i : ℕ) : Bool := v.succeeded i && v.isSend c i

/-- All sends on the queue are in its history, except for the one that is being called. -/
def Complete (v : View α) (c : ℕ) (called : Option ℕ) : Prop :=
  ∀ i < v.next, (v.node i).home = .channel c → (v.node i).sending = true →
    i ∈ v.ch.issued.map Prod.fst ∨ called = some i

/-- The operations on the queue that wait are linked. -/
def Linked (v : View α) (c : ℕ) : Prop :=
  ∀ i < v.next, (v.node i).home = .channel c → v.pending i = true → i ∈ v.ch.waiters

/-- The first waiter is the sender `s` of the value `y`. -/
structure Offers (v : View α) (s : ℕ) (y : α) : Prop where
  head : ∃ rest, v.ch.waiters = s :: rest
  sending : (v.node s).sending = true
  value : (v.node s).value = some y

/-- The pointer `id` is an operation on the queue that is in none of its histories. -/
structure New (v : View α) (c id : ℕ) : Prop where
  lt_next : id < v.next
  home : (v.node id).home = .channel c
  issued : ∀ p ∈ v.ch.issued, p.1 < id
  handed : ∀ p ∈ v.ch.handed, p.1 < id
  arrived : ∀ i ∈ v.ch.arrived, i < id

/-- Of the operations, only those in `ids` change, and the values of the senders are kept. -/
structure Touches (ids : List ℕ) (v v' : View α) : Prop where
  next : v'.next = v.next := by rfl
  home : ∀ i, (v'.node i).home = (v.node i).home := by exact fun _ => rfl
  sending : ∀ i, (v'.node i).sending = (v.node i).sending := by exact fun _ => rfl
  value : ∀ i, (v.node i).sending = true → (v'.node i).value = (v.node i).value := by
    exact fun _ _ => rfl
  refused : ∀ i ∈ v.ch.waiters, (v'.node i).refused = (v.node i).refused := by exact fun _ _ => rfl
  node : ∀ i, i ∉ ids → v'.node i = v.node i := by exact fun _ _ => rfl
  suspended : ∀ i, i ∉ ids → v'.suspended i = v.suspended i := by exact fun _ _ => rfl
  ok : ∀ i, i ∉ ids → v'.ok i = v.ok i := by exact fun _ _ => rfl
  pending : ∀ i, i ∉ ids → v'.pending i = v.pending i := by exact fun _ _ => rfl

theorem Touches.item (ht : Touches ids v v') : v'.item = v.item := by
  funext i
  simp only [View.item, ht.sending]
  split_ifs with hi
  · rw [ht.value i hi]
  · rfl

/-- Of the operations in `ids`, only the result may change. -/
theorem Touches.of_node (hnode : v'.node = v.node) (hnext : v'.next = v.next)
    (hsuspended : ∀ i, i ∉ ids → v'.suspended i = v.suspended i)
    (hop : ∀ i, i ∉ ids → v'.ok i = v.ok i ∧ v'.pending i = v.pending i) : Touches ids v v' where
  next := hnext
  home i := by rw [hnode]
  sending i := by rw [hnode]
  value i _ := by rw [hnode]
  refused i _ := by rw [hnode]
  node i _ := by rw [hnode]
  suspended := hsuspended
  ok i hi := (hop i hi).1
  pending i hi := (hop i hi).2

/-- The node of `r` changes. -/
theorem Touches.of_update {r : ℕ} {n : Node α} (hids : r ∈ ids)
    (hnode : v'.node = update v.node r n) (hhome : n.home = (v.node r).home)
    (hsending : n.sending = (v.node r).sending)
    (hvalue : (v.node r).sending = true → n.value = (v.node r).value)
    (hrefused : r ∈ v.ch.waiters → n.refused = (v.node r).refused) (hnext : v'.next = v.next)
    (hsuspended : v'.suspended = v.suspended)
    (hop : ∀ i, i ∉ ids → v'.ok i = v.ok i ∧ v'.pending i = v.pending i) : Touches ids v v' := by
  have hfields : ∀ i, (v'.node i).home = (v.node i).home ∧
      (v'.node i).sending = (v.node i).sending ∧
      ((v.node i).sending = true → (v'.node i).value = (v.node i).value) ∧
      (i ∈ v.ch.waiters → (v'.node i).refused = (v.node i).refused) := fun i => by
    rw [hnode, update_apply]
    split_ifs with hi
    · subst hi
      exact ⟨hhome, hsending, hvalue, hrefused⟩
    · exact ⟨rfl, rfl, fun _ => rfl, fun _ => rfl⟩
  refine ⟨hnext, fun i => (hfields i).1, fun i => (hfields i).2.1, fun i => (hfields i).2.2.1,
    fun i => (hfields i).2.2.2, fun i hi => ?_, fun i _ => congrFun hsuspended i,
    fun i hi => (hop i hi).1, fun i hi => (hop i hi).2⟩
  have hne : i ≠ r := fun h => hi (h ▸ hids)
  rw [hnode, update_of_ne hne]

/-- The receive `r` gets the value `x`. -/
structure Gets (ids : List ℕ) (r : ℕ) (x : α) (v v' : View α) : Prop extends
    Touches ids v v' where
  got : (v'.node r).value = some x
  waited : v'.suspended r = v.suspended r
  done : v'.ok r = true

theorem Gets.of_update {r : ℕ} {x : α} (hr : (v.node r).sending = false) (hids : r ∈ ids)
    (hok : v'.ok r = true) (hnode : v'.node = update v.node r { v.node r with value := some x })
    (hnext : v'.next = v.next) (hsuspended : v'.suspended = v.suspended)
    (hop : ∀ i, i ∉ ids → v'.ok i = v.ok i ∧ v'.pending i = v.pending i) : Gets ids r x v v' where
  toTouches := .of_update hids hnode rfl rfl
    (fun h => absurd (hr.symm.trans h) Bool.false_ne_true) (fun _ => rfl) hnext hsuspended hop
  got := by rw [hnode, update_self]
  waited := congrFun hsuspended r
  done := hok

/-- A `try_send` is refused. -/
theorem Touches.setRefused (v' : View α) (hwaiters : id ∉ v.ch.waiters)
    (hnode : v'.node = update v.node id { v.node id with refused := true })
    (hnext : v'.next = v.next) (hsuspended : v'.suspended = v.suspended) (hok : v'.ok = v.ok)
    (hpending : v'.pending = v.pending) : Touches [id] v v' ∧ (v'.node id).refused = true := by
  refine ⟨.of_update mem_cons_self hnode rfl rfl (fun _ => rfl) (fun h => absurd h hwaiters) hnext
    hsuspended fun i _ => ⟨congrFun hok i, congrFun hpending i⟩, ?_⟩
  rw [hnode, update_self]

/-- Waiters are completed, senders with an error, and unlinked. -/
structure Prunes (c : ℕ) (v v' : View α) : Prop where
  channel : ∃ ws, ws.Sublist v.ch.waiters ∧ v'.ch = { v.ch with waiters := ws } ∧
    ∀ i ∈ v.ch.waiters, v'.pending i = true → i ∈ ws
  next_le : v.next ≤ v'.next
  node : ∀ i < v.next, (v.node i).home = .channel c → v'.node i = v.node i
  home : ∀ i < v'.next, (v'.node i).home = .channel c → i < v.next ∧ (v.node i).home = .channel c
  suspended : ∀ i < v.next, (v.node i).home = .channel c → v'.suspended i = v.suspended i
  settles : ∀ i < v.next, (v.node i).home = .channel c →
    v'.pending i = v.pending i ∧ v'.ok i = v.ok i ∨
      v.pending i = true ∧ v'.pending i = false ∧ ((v.node i).sending = true → v'.ok i = false)

theorem Prunes.refl (c : ℕ) (v : View α) : Prunes c v v where
  channel := ⟨v.ch.waiters, List.Sublist.refl _, rfl, fun _ hi _ => hi⟩
  next_le := Nat.le_refl _
  node _ _ _ := rfl
  home _ hi hhome := ⟨hi, hhome⟩
  suspended _ _ _ := rfl
  settles _ _ _ := .inl ⟨rfl, rfl⟩

theorem Prunes.trans {v'' : View α}
    (hws : ∀ i ∈ v.ch.waiters, i < v.next ∧ (v.node i).home = .channel c) (h : Prunes c v v')
    (h' : Prunes c v' v'') : Prunes c v v'' := by
  obtain ⟨ws, hsub, hch, hkept⟩ := h.channel
  obtain ⟨ws', hsub', hch', hkept'⟩ := h'.channel
  -- an operation on the queue is one in between
  have hmid : ∀ i < v.next, (v.node i).home = .channel c →
      i < v'.next ∧ (v'.node i).home = .channel c := fun i hi hhome =>
    ⟨Nat.lt_of_lt_of_le hi h.next_le, by rwa [h.node i hi hhome]⟩
  refine ⟨⟨ws', ?_, ?_, fun i hi hpending => ?_⟩, h.next_le.trans h'.next_le, fun i hi hhome => ?_,
    fun i hi hhome => ?_, fun i hi hhome => ?_, fun i hi hhome => ?_⟩
  · rw [hch] at hsub'
    exact hsub'.trans hsub
  · rw [hch', hch]
  · obtain ⟨hlt, hhome⟩ := hws i hi
    obtain ⟨hlt', hhome'⟩ := hmid i hlt hhome
    rcases h'.settles i hlt' hhome' with ⟨heq, -⟩ | ⟨-, hfalse, -⟩
    · refine hkept' i ?_ hpending
      rw [hch]
      exact hkept i hi (heq ▸ hpending)
    · exact absurd (hfalse.symm.trans hpending) Bool.false_ne_true
  · obtain ⟨hi', hhome'⟩ := hmid i hi hhome
    rw [h'.node i hi' hhome', h.node i hi hhome]
  · obtain ⟨hi', hhome'⟩ := h'.home i hi hhome
    exact h.home i hi' hhome'
  · obtain ⟨hi', hhome'⟩ := hmid i hi hhome
    rw [h'.suspended i hi' hhome', h.suspended i hi hhome]
  · obtain ⟨hi', hhome'⟩ := hmid i hi hhome
    have hnode := h.node i hi hhome
    rcases h.settles i hi hhome with ⟨hp, hok⟩ | ⟨hp, hp', hok⟩
    · rw [← hp, ← hok, ← hnode]
      exact h'.settles i hi' hhome'
    · refine .inr ⟨hp, ?_⟩
      rcases h'.settles i hi' hhome' with ⟨hp₂, hok₂⟩ | ⟨hp₂, -, -⟩
      · rw [hp₂, hok₂]
        exact ⟨hp', hok⟩
      · exact absurd (hp'.symm.trans hp₂) Bool.false_ne_true

theorem New.prune (hn : v.New c id) (hp : Prunes c v v') : v'.New c id := by
  obtain ⟨ws, -, hch, -⟩ := hp.channel
  exact
  { lt_next := Nat.lt_of_lt_of_le hn.lt_next hp.next_le
    home := by rw [hp.node id hn.lt_next hn.home, hn.home]
    issued := by rw [hch]; exact hn.issued
    handed := by rw [hch]; exact hn.handed
    arrived := by rw [hch]; exact hn.arrived }

theorem Complete.prune {called : Option ℕ} (hall : v.Complete c called) (hp : Prunes c v v') :
    v'.Complete c called := by
  intro i hi hhome hsending
  obtain ⟨ws, -, hch, -⟩ := hp.channel
  obtain ⟨hlt, hhome'⟩ := hp.home i hi hhome
  rw [hp.node i hlt hhome'] at hsending
  rw [hch]
  exact hall i hlt hhome' hsending

theorem Linked.prune (hl : v.Linked c) (hp : Prunes c v v') : v'.Linked c := by
  intro i hi hhome hpending
  obtain ⟨ws, -, hch, hkept⟩ := hp.channel
  obtain ⟨hlt, hhome'⟩ := hp.home i hi hhome
  rw [hch]
  refine hkept i (hl i hlt hhome' ?_) hpending
  rcases hp.settles i hlt hhome' with ⟨heq, -⟩ | ⟨hpending', -⟩
  · exact heq ▸ hpending
  · exact hpending'

/-- Of the operations that change, those that wait afterwards are linked, and the others stay
linked. -/
theorem Linked.touch (hl : v.Linked c) (ht : Touches ids v v') {ch : Channel α}
    (hids : ∀ i ∈ ids, v'.pending i = true → i ∈ ch.waiters)
    (hkept : ∀ i ∈ v.ch.waiters, i ∉ ids → i ∈ ch.waiters) : (v'.put ch).Linked c := by
  intro i hi hhome hpending
  by_cases hmem : i ∈ ids
  · exact hids i hmem hpending
  · refine hkept i (hl i (ht.next ▸ hi) (ht.home i ▸ hhome) ?_) hmem
    exact (ht.pending i hmem).symm.trans hpending

/-- An operation without an error does not wait. -/
theorem not_pending (h : v.ok id = true) : v.pending id ≠ true := fun hpending =>
  Bool.false_ne_true ((v.excl id hpending).symm.trans h)

/-- The send that is called joins the history. -/
theorem Complete.send (hall : v.Complete c (some id)) (ht : Touches ids v v') {ch : Channel α}
    {x : α} (hissued : ch.issued = v.ch.issued ++ [(id, x)]) : (v'.put ch).Complete c none := by
  intro i hi hhome hsending
  refine .inl ?_
  change i ∈ ch.issued.map Prod.fst
  rw [hissued, map_append]
  rcases hall i (ht.next ▸ hi) (ht.home i ▸ hhome) (ht.sending i ▸ hsending) with h | h
  · exact mem_append_left _ h
  · cases h
    exact mem_append_right _ mem_cons_self

/-- A receive does not join the sends. -/
theorem Complete.receive (hall : v.Complete c (some id)) (hid : (v.node id).sending = false)
    (ht : Touches ids v v') {ch : Channel α} (hissued : ch.issued = v.ch.issued) :
    (v'.put ch).Complete c none := by
  intro i hi hhome hsending
  refine .inl ?_
  change i ∈ ch.issued.map Prod.fst
  rw [hissued]
  have hsending' : (v.node i).sending = true := (ht.sending i).symm.trans hsending
  refine (hall i (ht.next ▸ hi) (ht.home i ▸ hhome) hsending').resolve_right fun h => ?_
  cases h
  exact Bool.false_ne_true (hid.symm.trans hsending')

theorem New.not_mem_handed (hn : v.New c id) : id ∉ v.ch.handed.map Prod.fst := by
  intro hmem
  obtain ⟨p, hp, rfl⟩ := mem_map.mp hmem
  exact Nat.lt_irrefl _ (hn.handed p hp)

theorem New.issued_not_mem (hn : v.New c id) : ∀ p ∈ v.ch.issued, p.1 ∉ [id] := fun p hp => by
  simpa using (hn.issued p hp).ne

theorem New.handed_not_mem (hn : v.New c id) : ∀ p ∈ v.ch.handed, p.1 ∉ [id] := fun p hp => by
  simpa using (hn.handed p hp).ne

/-! ### The history -/

section History

variable {r s : ℕ} {x y : α} {ch : Channel α}

/-- The sends in the history, in the order of their pointers, have the values of their nodes, and
those whose value has been taken over are the successful ones. -/
structure Sends (v : View α) (c : ℕ) : Prop where
  issued : ∀ p ∈ v.ch.issued, p.1 < v.next ∧ (v.node p.1).home = .channel c ∧
    (v.node p.1).sending = true ∧ (v.node p.1).value = some p.2
  issued_lt : (v.ch.issued.map Prod.fst).Pairwise (· < ·)
  accepted : ∀ p ∈ v.ch.issued,
    p ∈ v.ch.accepted ↔ v.ok p.1 = true ∧ (v.node p.1).refused = false

/-- The receives that have a value are those to which one was handed. -/
structure Receipts (v : View α) (c : ℕ) : Prop where
  handed : ∀ p ∈ v.ch.handed, p.1 < v.next ∧ (v.node p.1).home = .channel c ∧
    (v.node p.1).sending = false ∧ (v.node p.1).value = some p.2 ∧ v.ok p.1 = true
  handed_nodup : (v.ch.handed.map Prod.fst).Nodup
  received : ∀ i < v.next, (v.node i).home = .channel c → (v.node i).sending = false →
    ∀ x, (v.node i).value = some x → (i, x) ∈ v.ch.handed

/-- The receives that have begun to wait, and those among them that have got a value. -/
structure Arrivals (v : View α) (c : ℕ) : Prop where
  arrived : ∀ i, i ∈ v.ch.arrived ↔ i < v.next ∧ (v.node i).home = .channel c ∧
    (v.node i).sending = false ∧ v.suspended i = true
  arrived_lt : v.ch.arrived.Pairwise (· < ·)
  served : v.ch.served = (v.ch.handed.map Prod.fst).filter v.ch.arrived.contains

theorem Sends.issued_of_touches (h : v.Sends c) (ht : Touches ids v v') : ∀ p ∈ v.ch.issued,
    p.1 < v'.next ∧ (v'.node p.1).home = .channel c ∧ (v'.node p.1).sending = true ∧
      (v'.node p.1).value = some p.2 := by
  intro p hp
  obtain ⟨hlt, hhome, hsending, hvalue⟩ := h.issued p hp
  rw [ht.next, ht.home, ht.sending, ht.value _ hsending]
  exact ⟨hlt, hhome, hsending, hvalue⟩

/-- Other operations change. -/
theorem Sends.touch (h : v.Sends c) (ht : Touches ids v v') (hids : ∀ p ∈ v.ch.issued, p.1 ∉ ids)
    (hissued : ch.issued = v.ch.issued) (haccepted : ch.accepted = v.ch.accepted) :
    (v'.put ch).Sends c := by
  have hmem : ∀ {p}, p ∈ ch.issued → p ∈ v.ch.issued := fun hp => hissued ▸ hp
  refine ⟨fun p hp => h.issued_of_touches ht p (hmem hp), ?_, fun p hp => ?_⟩
  · change (ch.issued.map Prod.fst).Pairwise _
    rw [hissued]
    exact h.issued_lt
  · change p ∈ ch.accepted ↔ v'.ok p.1 = true ∧ (v'.node p.1).refused = false
    rw [haccepted, ht.ok _ (hids p (hmem hp)), ht.node _ (hids p (hmem hp))]
    exact h.accepted p (hmem hp)

theorem pairwise_concat {l : List ℕ} (hl : l.Pairwise (· < ·)) (hid : ∀ i ∈ l, i < id) :
    (l ++ [id]).Pairwise (· < ·) :=
  pairwise_append.mpr ⟨hl, pairwise_singleton .., fun i hi _ hj =>
    mem_singleton.mp hj ▸ hid i hi⟩

/-- A new send joins the history with its result, and the results of the others do not change. -/
theorem Sends.concat (h : v.Sends c) (hn : v.New c id) (ht : Touches ids v v')
    (hids : ∀ p ∈ v.ch.issued, p.1 ∉ ids) (hsending : (v.node id).sending = true)
    (hx : (v.node id).value = some x) (hissued : ch.issued = v.ch.issued ++ [(id, x)])
    (hold : ∀ p ∈ v.ch.issued, p ∈ ch.accepted ↔ p ∈ v.ch.accepted)
    (hnew : (id, x) ∈ ch.accepted ↔ v'.ok id = true ∧ (v'.node id).refused = false) :
    (v'.put ch).Sends c := by
  have hmem : ∀ {p}, p ∈ ch.issued → p ∈ v.ch.issued ∨ p = (id, x) := fun hp => by
    rw [hissued] at hp
    exact (mem_append.mp hp).imp_right mem_singleton.mp
  refine ⟨fun p hp => ?_, ?_, fun p hp => ?_⟩
  · rcases hmem hp with hp | rfl
    · exact h.issued_of_touches ht p hp
    · change id < v'.next ∧ (v'.node id).home = _ ∧ (v'.node id).sending = _ ∧
        (v'.node id).value = _
      rw [ht.next, ht.home, ht.sending, ht.value _ hsending]
      exact ⟨hn.lt_next, hn.home, hsending, hx⟩
  · change (ch.issued.map Prod.fst).Pairwise _
    rw [hissued, map_append]
    refine pairwise_concat h.issued_lt fun i hi => ?_
    obtain ⟨p, hp, rfl⟩ := mem_map.mp hi
    exact hn.issued p hp
  · rcases hmem hp with hp | rfl
    · change p ∈ ch.accepted ↔ v'.ok p.1 = true ∧ (v'.node p.1).refused = false
      rw [hold p hp, ht.ok _ (hids p hp), ht.node _ (hids p hp)]
      exact h.accepted p hp
    · exact hnew

/-- A new send succeeds. -/
theorem Sends.accept (h : v.Sends c) (hn : v.New c id) (ht : Touches ids v v')
    (hids : ∀ i ∈ ids, (v.node i).sending = false) (hsending : (v.node id).sending = true)
    (hx : (v.node id).value = some x) (hrefused : (v.node id).refused = false)
    (hid : v.ok id = true) (hissued : ch.issued = v.ch.issued ++ [(id, x)])
    (haccepted : ch.accepted = v.ch.accepted ++ [(id, x)]) : (v'.put ch).Sends c := by
  have hsender : ∀ i, (v.node i).sending = true → i ∉ ids := fun i hi hmem =>
    Bool.false_ne_true ((hids i hmem).symm.trans hi)
  refine h.concat hn ht (fun p hp => hsender _ (h.issued p hp).2.2.1) hsending hx hissued
    (fun p hp => ?_) ?_
  · have hne : p ≠ (id, x) := by
      rintro rfl
      exact Nat.lt_irrefl _ (hn.issued _ hp)
    rw [haccepted, mem_append, mem_singleton]
    exact or_iff_left hne
  · rw [haccepted, ht.ok id (hsender id hsending), ht.node id (hsender id hsending)]
    exact iff_of_true (mem_append_right _ mem_cons_self) ⟨hid, hrefused⟩

/-- The value of the waiting sender `s` is taken over by the new receive `id`. -/
theorem Sends.takeOver (h : v.Sends c) (hn : v.New c id) (ht : Touches [id, s] v v')
    (hy : (v.node s).value = some y) (hok : v'.ok s = true) (hrefused : (v'.node s).refused = false)
    (hissued : ch.issued = v.ch.issued) (haccepted : ch.accepted = v.ch.accepted ++ [(s, y)]) :
    (v'.put ch).Sends c := by
  have hmem : ∀ {p}, p ∈ ch.issued → p ∈ v.ch.issued := fun hp => hissued ▸ hp
  refine ⟨fun p hp => h.issued_of_touches ht p (hmem hp), ?_, ?_⟩
  · change (ch.issued.map Prod.fst).Pairwise _
    rw [hissued]
    exact h.issued_lt
  rintro ⟨i, z⟩ hp
  replace hp := hmem hp
  change (i, z) ∈ ch.accepted ↔ v'.ok i = true ∧ (v'.node i).refused = false
  rw [haccepted, mem_append, mem_singleton]
  by_cases hi : i = s
  · subst hi
    cases hy.symm.trans (h.issued _ hp).2.2.2
    exact iff_of_true (.inr rfl) ⟨hok, hrefused⟩
  · have hids : i ∉ [id, s] := by simp [(hn.issued _ hp).ne, hi]
    rw [or_iff_left fun heq => hi (congrArg Prod.fst heq), ht.ok i hids, ht.node i hids]
    exact h.accepted _ hp

theorem Receipts.received_of_touches (h : v.Receipts c) (ht : Touches ids v v') {i : ℕ}
    (hi : i < v'.next) (hhome : (v'.node i).home = .channel c)
    (hsending : (v'.node i).sending = false) (hx : (v.node i).value = some x) :
    (i, x) ∈ v.ch.handed :=
  h.received i (ht.next ▸ hi) (ht.home i ▸ hhome) (ht.sending i ▸ hsending) x hx

/-- Operations without a value change. -/
theorem Receipts.touch (h : v.Receipts c) (ht : Touches ids v v')
    (hids : ∀ p ∈ v.ch.handed, p.1 ∉ ids) (hvalue : ∀ i ∈ ids, (v'.node i).value = (v.node i).value)
    (hhanded : ch.handed = v.ch.handed) : (v'.put ch).Receipts c := by
  refine ⟨fun p hp => ?_, ?_, fun i hi hhome hsending x hx => ?_⟩
  · replace hp : p ∈ v.ch.handed := hhanded ▸ hp
    change p.1 < v'.next ∧ (v'.node p.1).home = _ ∧ (v'.node p.1).sending = _ ∧
      (v'.node p.1).value = _ ∧ v'.ok p.1 = true
    rw [ht.next, ht.ok _ (hids p hp), ht.node _ (hids p hp)]
    exact h.handed p hp
  · change (ch.handed.map Prod.fst).Nodup
    rw [hhanded]
    exact h.handed_nodup
  · change (i, x) ∈ ch.handed
    rw [hhanded]
    refine h.received_of_touches ht hi hhome hsending ?_
    by_cases hmem : i ∈ ids
    · exact (hvalue i hmem).symm.trans hx
    · exact (congrArg Node.value (ht.node i hmem)).symm.trans hx

/-- The value `x` is handed to the receive `r`, and the results of the others do not change. -/
theorem Receipts.hand (h : v.Receipts c) (ht : Gets ids r x v v')
    (hids : ∀ i ∈ ids, i = r ∨ (v.node i).sending = true) (hlt : r < v.next)
    (hhome : (v.node r).home = .channel c) (hr : (v.node r).sending = false)
    (hnot : r ∉ v.ch.handed.map Prod.fst) (hhanded : ch.handed = v.ch.handed ++ [(r, x)]) :
    (v'.put ch).Receipts c := by
  refine ⟨fun p hp => ?_, ?_, fun i hi hhome hsending y hy => ?_⟩
  · change p.1 < v'.next ∧ (v'.node p.1).home = _ ∧ (v'.node p.1).sending = _ ∧
      (v'.node p.1).value = _ ∧ v'.ok p.1 = true
    change p ∈ ch.handed at hp
    rw [hhanded] at hp
    rcases mem_append.mp hp with hp | hp
    · have hp' := h.handed p hp
      have hmem : p.1 ∉ ids := fun hmem => by
        rcases hids _ hmem with heq | hsending
        · exact hnot (heq ▸ mem_map_of_mem hp)
        · exact Bool.false_ne_true (hp'.2.2.1.symm.trans hsending)
      rw [ht.next, ht.ok _ hmem, ht.node _ hmem]
      exact hp'
    · obtain rfl := mem_singleton.mp hp
      rw [ht.next, ht.home, ht.sending]
      exact ⟨hlt, hhome, hr, ht.got, ht.done⟩
  · change (ch.handed.map Prod.fst).Nodup
    rw [hhanded, map_append]
    exact h.handed_nodup.append (nodup_singleton r) (by simpa using hnot)
  · change (i, y) ∈ ch.handed
    rw [hhanded]
    by_cases hir : i = r
    · subst hir
      cases ht.got.symm.trans hy
      exact mem_append_right _ mem_cons_self
    · refine mem_append_left _ (h.received_of_touches ht.toTouches hi hhome hsending ?_)
      refine (congrArg Node.value (ht.node i fun hmem => ?_)).symm.trans hy
      have hsending' : (v.node i).sending = false := (ht.sending i).symm.trans hsending
      exact (hids i hmem).elim hir fun h => Bool.false_ne_true (hsending'.symm.trans h)

/-- No receive begins to wait. -/
theorem Arrivals.touch (h : v.Arrivals c) (ht : Touches ids v v')
    (hids : ∀ i ∈ ids, (v.node i).sending = false → v'.suspended i = v.suspended i)
    (harrived : ch.arrived = v.ch.arrived)
    (hserved : ch.served = (ch.handed.map Prod.fst).filter v.ch.arrived.contains) :
    (v'.put ch).Arrivals c := by
  refine ⟨fun i => ?_, ?_, ?_⟩
  · change i ∈ ch.arrived ↔ i < v'.next ∧ (v'.node i).home = _ ∧ (v'.node i).sending = _ ∧
      v'.suspended i = true
    rw [harrived, h.arrived i, ht.next, ht.home, ht.sending]
    refine and_congr_right fun _ => and_congr_right fun _ => and_congr_right fun hsending => ?_
    by_cases hi : i ∈ ids
    · rw [hids i hi hsending]
    · rw [ht.suspended i hi]
  · change ch.arrived.Pairwise _
    rw [harrived]
    exact h.arrived_lt
  · change ch.served = (ch.handed.map Prod.fst).filter ch.arrived.contains
    rw [harrived, hserved]

/-- A receive that did not wait leaves the order of service as it is. -/
theorem Arrivals.fetch (h : v.Arrivals c) (hn : v.New c id) (ht : Touches ids v v')
    (hids : ∀ i ∈ ids, (v.node i).sending = false → v'.suspended i = v.suspended i)
    (harrived : ch.arrived = v.ch.arrived) (hserved : ch.served = v.ch.served)
    (hhanded : ch.handed = v.ch.handed ++ [(id, x)]) : (v'.put ch).Arrivals c := by
  refine h.touch ht hids harrived ?_
  have hnew : id ∉ v.ch.arrived := fun hmem => Nat.lt_irrefl _ (hn.arrived id hmem)
  simp [hserved, hhanded, h.served, hnew]

end History

end View

open View

/-- The queue follows an abstract one, except for the value that a receive holds, and its history
agrees with the operations. -/
structure Ledger {α : Type*} (c : ℕ) (held : Option α) (v : View α) : Prop extends
    v.Sends c, v.Receipts c, v.Arrivals c where
  follows : ∃ h, v.Follows held h
  waiters : ∀ i ∈ v.ch.waiters, i < v.next ∧ (v.node i).home = .channel c ∧
    ((v.node i).sending = true → (v.node i).value.isSome = true) ∧ (v.node i).refused = false

namespace Ledger

variable {α : Type*} {v v' : View α} {c id r s : ℕ} {ids rest : List ℕ} {held : Option α} {x y : α}
  {h : Handoff ℕ α}

/-! ### Consequences -/

theorem item_eq_of_receiver (hr : (v.node r).sending = false) : v.item r = (r, none) := by
  simp [View.item, hr]

theorem item_eq_of_sender (hs : (v.node s).sending = true) (hy : (v.node s).value = some y) :
    v.item s = (s, some y) := by
  simp [View.item, hs, hy]

/-- If the first waiter is no receiver, no receiver waits. -/
theorem receivers_eq_nil (hl : Ledger c held v) (hf : v.Follows held h)
    (hhead : ∀ i ∈ v.ch.waiters.head?, (v.node i).sending ≠ false) :
    Handoff.receivers h.waiters = [] := by
  rw [hf.waiters]
  cases hws : v.ch.waiters with
  | nil => rfl
  | cons s rest =>
    have hs : (v.node s).sending = true := by simpa [hws] using hhead
    have hmem : s ∈ v.ch.waiters := hws ▸ mem_cons_self
    obtain ⟨y, hy⟩ := Option.isSome_iff_exists.mp ((hl.waiters s hmem).2.2.1 hs)
    have hside := h.sides
    rw [hf.waiters, hws, map_cons, item_eq_of_sender hs hy] at hside
    rw [map_cons, item_eq_of_sender hs hy]
    exact hside.resolve_left (cons_ne_nil _ _)

/-- If the first waiter is no sender, no sender waits. -/
theorem senders_eq_nil (hf : v.Follows held h)
    (hhead : ∀ i ∈ v.ch.waiters.head?, (v.node i).sending ≠ true) :
    Handoff.senders h.waiters = [] := by
  rw [hf.waiters]
  cases hws : v.ch.waiters with
  | nil => rfl
  | cons r rest =>
    have hr : (v.node r).sending = false := by simpa [hws] using hhead
    have hside := h.sides
    rw [hf.waiters, hws, map_cons, item_eq_of_receiver hr] at hside
    rw [map_cons, item_eq_of_receiver hr]
    exact hside.resolve_right (cons_ne_nil _ _)

section

variable (hl : Ledger c held v)
include hl

/-- A linked receiver is among those that have begun to wait. -/
theorem mem_arrived (hr : r ∈ v.ch.waiters)
    (hsending : (v.node r).sending = false) : r ∈ v.ch.arrived := by
  obtain ⟨h, hf⟩ := hl.follows
  have hmem : r ∈ Handoff.receivers h.waiters := by
    rw [hf.waiters]
    refine mem_filterMap.mpr ⟨v.item r, mem_map_of_mem hr, ?_⟩
    simp [item_eq_of_receiver hsending]
  exact hf.arrived ▸ h.service.subset (mem_append_right _ hmem)

/-- A linked sender is among the sends. -/
theorem mem_issued (hs : s ∈ v.ch.waiters) (hsending : (v.node s).sending = true)
    (hy : (v.node s).value = some y) : (s, y) ∈ v.ch.issued := by
  obtain ⟨h, hf⟩ := hl.follows
  have hmem : (s, y) ∈ Handoff.senders h.waiters := by
    rw [hf.waiters]
    refine mem_filterMap.mpr ⟨v.item s, mem_map_of_mem hs, ?_⟩
    simp [item_eq_of_sender hsending hy]
  exact hf.issued ▸ h.order.subset (mem_append_right _ hmem)

theorem mem_issued_of_mem_accepted {p : ℕ × α} (hp : p ∈ v.ch.accepted) : p ∈ v.ch.issued := by
  obtain ⟨h, hf⟩ := hl.follows
  exact hf.issued ▸ h.order.subset (mem_append_left _ (hf.accepted ▸ hp))

theorem not_mem_waiters (hn : v.New c id) : id ∉ v.ch.waiters := by
  intro hmem
  cases hsending : (v.node id).sending with
  | false => exact Nat.lt_irrefl _ (hn.arrived id (hl.mem_arrived hmem hsending))
  | true =>
    obtain ⟨y, hy⟩ := Option.isSome_iff_exists.mp ((hl.waiters id hmem).2.2.1 hsending)
    exact Nat.lt_irrefl _ (hn.issued _ (hl.mem_issued hmem hsending hy))

theorem not_mem_handed (hid : v.ok id = false) : id ∉ v.ch.handed.map Prod.fst := by
  intro hmem
  obtain ⟨p, hp, rfl⟩ := mem_map.mp hmem
  have := (hl.handed p hp).2.2.2.2
  simp [hid] at this

/-! ### What changes no history -/

theorem waiters_of_touches (ht : Touches ids v v') : ∀ i ∈ v.ch.waiters,
    i < v'.next ∧ (v'.node i).home = .channel c ∧
      ((v'.node i).sending = true → (v'.node i).value.isSome = true) ∧
      (v'.node i).refused = false := by
  intro i hi
  obtain ⟨hlt, hhome, hvalue, hrefused⟩ := hl.waiters i hi
  rw [ht.next, ht.home, ht.sending, ht.refused i hi]
  exact ⟨hlt, hhome, fun hsending => by rw [ht.value i hsending, hvalue hsending], hrefused⟩

/-- An operation that is in no history may change. -/
theorem touch (hn : v.New c id) (ht : Touches [id] v v')
    (hvalue : (v'.node id).value = (v.node id).value)
    (hsuspended : (v.node id).sending = false → v'.suspended id = v.suspended id) :
    Ledger c held (v'.put v.ch) := by
  obtain ⟨h, hf⟩ := hl.follows
  exact
  { toSends := hl.toSends.touch ht hn.issued_not_mem rfl rfl
    toReceipts := hl.toReceipts.touch ht hn.handed_not_mem (by simpa using hvalue) rfl
    toArrivals := hl.toArrivals.touch ht (by simpa using hsuspended) rfl hl.served
    follows := ⟨h, { hf with waiters := hf.waiters.trans (ht.item ▸ rfl) }⟩
    waiters := fun i hi => hl.waiters_of_touches ht i hi }

/-- The operations on the queue keep what the history says of them, and a new one has not waited and
has got no value. Waiters may be unlinked. -/
theorem transfer {ws : List ℕ} (hws : ws.Sublist v.ch.waiters)
    (hch : v'.ch = { v.ch with waiters := ws })
    (hold : ∀ i < v.next, (v.node i).home = .channel c → i < v'.next ∧ v'.node i = v.node i ∧
      v'.suspended i = v.suspended i ∧
      ((v.node i).sending = true ∨ v.ok i = true → v'.ok i = v.ok i))
    (hnew : ∀ i < v'.next, (v'.node i).home = .channel c →
      i < v.next ∧ (v.node i).home = .channel c ∨
        v'.suspended i = false ∧ ((v'.node i).sending = false → (v'.node i).value = none)) :
    Ledger c held v' := by
  obtain ⟨h, hf⟩ := hl.follows
  have hmap : ws.map v'.item = ws.map v.item := by
    refine map_congr_left fun i hi => ?_
    obtain ⟨hlt, hhome, -⟩ := hl.waiters i (hws.subset hi)
    rw [View.item, View.item, (hold i hlt hhome).2.1]
  have hsub : (ws.map v.item).Sublist h.waiters := hf.waiters ▸ hws.map _
  suffices hput : Ledger c held (v'.put { v.ch with waiters := ws }) by
    rwa [← hch] at hput
  refine
  { follows := ⟨h.prune hsub, { hf with waiters := hmap.symm }⟩
    waiters := fun i hi => ?_
    issued := fun p hp => ?_
    issued_lt := hl.issued_lt
    accepted := fun p hp => ?_
    handed := fun p hp => ?_
    handed_nodup := hl.handed_nodup
    received := fun i hi hhome hsending x hx => ?_
    arrived := fun i => ?_
    arrived_lt := hl.arrived_lt
    served := hl.served }
  all_goals simp only [View.put] at *
  · obtain ⟨hlt, hhome, hvalue⟩ := hl.issued p hp
    obtain ⟨hlt', hnode, -⟩ := hold p.1 hlt hhome
    rw [hnode]
    exact ⟨hlt', hhome, hvalue⟩
  · obtain ⟨hlt, hhome, hsending, -⟩ := hl.issued p hp
    obtain ⟨-, hnode, -, hok⟩ := hold p.1 hlt hhome
    rw [hnode, hok (.inl hsending), hl.accepted p hp]
  · obtain ⟨hlt, hhome, hsending, hvalue, hid⟩ := hl.handed p hp
    obtain ⟨hlt', hnode, -, hok⟩ := hold p.1 hlt hhome
    rw [hnode, hok (.inr hid)]
    exact ⟨hlt', hhome, hsending, hvalue, hid⟩
  · rcases hnew i hi hhome with ⟨hlt, hhome'⟩ | ⟨-, hvalue⟩
    · rw [(hold i hlt hhome').2.1] at hsending hx
      exact hl.received i hlt hhome' hsending x hx
    · exact nomatch (hvalue hsending).symm.trans hx
  · rw [hl.arrived i]
    constructor
    · rintro ⟨hlt, hhome, hsending, hsuspended⟩
      obtain ⟨hlt', hnode, hsame, -⟩ := hold i hlt hhome
      rw [hnode, hsame]
      exact ⟨hlt', hhome, hsending, hsuspended⟩
    · rintro ⟨hlt, hhome, hsending, hsuspended⟩
      rcases hnew i hlt hhome with ⟨hlt', hhome'⟩ | ⟨hsuspended', -⟩
      · obtain ⟨-, hnode, hsame, -⟩ := hold i hlt' hhome'
        rw [hnode] at hsending
        exact ⟨hlt', hhome', hsending, hsame ▸ hsuspended⟩
      · exact absurd (hsuspended'.symm.trans hsuspended) Bool.false_ne_true
  · obtain ⟨hlt, hhome, hvalue⟩ := hl.waiters i (hws.subset hi)
    obtain ⟨hlt', hnode, -⟩ := hold i hlt hhome
    rw [hnode]
    exact ⟨hlt', hhome, hvalue⟩

/-- Waiters that are completed, senders with an error, may be unlinked. -/
theorem prune (hp : Prunes c v v') : Ledger c held v' := by
  obtain ⟨ws, hws, hch, -⟩ := hp.channel
  refine hl.transfer hws hch (fun i hlt hhome => ⟨hlt.trans_le hp.next_le, hp.node i hlt hhome,
    hp.suspended i hlt hhome, fun hor => ?_⟩) fun i hi hhome => .inl (hp.home i hi hhome)
  rcases hp.settles i hlt hhome with ⟨-, hok⟩ | ⟨hpending, -, hok⟩
  · exact hok
  · have hfalse := v.excl i hpending
    rcases hor with hsending | htrue
    · rw [hok hsending, hfalse]
    · exact absurd (hfalse.symm.trans htrue) Bool.false_ne_true

/-- A new operation on the queue. -/
theorem begin (hch : v'.ch = v.ch) (hnext : v'.next = v.next + 1)
    (hnode : ∀ i < v.next, v'.node i = v.node i)
    (hsuspended : ∀ i, v'.suspended i = true ↔ v.suspended i = true ∧ i ≠ v.next)
    (hok : ∀ i < v.next, v'.ok i = v.ok i) (hhome : (v'.node v.next).home = .channel c)
    (hvalue : (v'.node v.next).sending = false → (v'.node v.next).value = none) :
    Ledger c held v' ∧ v'.New c v.next := by
  constructor
  · refine hl.transfer (List.Sublist.refl _) hch (fun i hlt _ => ⟨by omega, hnode i hlt, ?_,
      fun _ => hok i hlt⟩) fun i hi hhome' => ?_
    · rw [Bool.eq_iff_iff, hsuspended]
      exact and_iff_left hlt.ne
    · by_cases hid : i = v.next
      · subst hid
        refine .inr ⟨Bool.eq_false_iff.mpr fun h => ?_, hvalue⟩
        exact ((hsuspended v.next).mp h).2 rfl
      · have hlt : i < v.next := by omega
        exact .inl ⟨hlt, hnode i hlt ▸ hhome'⟩
  · refine ⟨hnext ▸ Nat.lt_succ_self _, hhome, ?_, ?_, ?_⟩ <;> rw [hch]
    · exact fun p hp => (hl.issued p hp).1
    · exact fun p hp => (hl.handed p hp).1
    · exact fun i hi => ((hl.arrived i).mp hi).1

/-- A queue without waiters may be closed. -/
theorem shut (hws : v.ch.waiters = []) : Ledger c held (v.put { v.ch with closed := true }) := by
  obtain ⟨h, hf⟩ := hl.follows
  refine { hl with
    toSends := { hl.toSends with }
    toReceipts := { hl.toReceipts with }
    toArrivals := { hl.toArrivals with }
    follows := ⟨h.close, { hf with waiters := ?_, closed := rfl }⟩ }
  change [] = v.ch.waiters.map _
  rw [hws, map_nil]

/-- The queue is closed, and all waiters are unlinked. -/
theorem close (hp : Prunes c (v.put { v.ch with closed := true }) v')
    (hws : v'.ch.waiters = []) : Ledger c held v' := by
  obtain ⟨ws, hsub, hch, hlinked⟩ := hp.channel
  obtain rfl : ws = [] := by rwa [hch] at hws
  have hpruned : Prunes c v (v'.put { v.ch with waiters := [] }) :=
    { hp with channel := ⟨[], hsub, rfl, hlinked⟩ }
  have hshut := (hl.prune hpruned).shut rfl
  change Ledger c held (v'.put { v.ch with waiters := [], closed := true }) at hshut
  change v'.ch = { v.ch with waiters := [], closed := true } at hch
  rwa [← hch] at hshut

end

/-- The waiters when the first one is a sender. -/
theorem waiters_eq_of_sender (hf : v.Follows held h) (hs : v.Offers s y) :
    h.waiters = (s, some y) :: (v.ch.waiters.erase s).map v.item := by
  obtain ⟨rest, hws⟩ := hs.head
  rw [hf.waiters, hws, map_cons, item_eq_of_sender hs.sending hs.value, erase_cons_head]

/-- A receive takes the first value out of the buffer. -/
theorem dropFront (hl : Ledger c none v) (hsize : v.ch.ring.size ≠ 0) :
    ∃ x, v.ch.ring.slot 0 = some x ∧
      Ledger c (some x) (v.put { v.ch with ring := v.ch.ring.pop }) := by
  obtain ⟨h, hf⟩ := hl.follows
  have hpos := Nat.pos_of_ne_zero hsize
  obtain ⟨x, hx⟩ := hf.valid.slot_zero hpos
  exact ⟨x, hx, { hl with
    toSends := { hl.toSends with }
    toReceipts := { hl.toReceipts with }
    toArrivals := { hl.toArrivals with }
    follows := ⟨h, { hf with
      valid := hf.valid.pop hpos
      capacity := hf.capacity.trans RingBuffer.capacity_pop.symm
      buffer := hf.buffer.trans (hf.valid.toList_pop hpos hx) }⟩ }⟩

/-! ### What the ledger says -/

/-- **No match is missed.** All waiters have the same direction, senders wait only at a full buffer
and receivers only at an empty one, nobody waits at a closed queue, and the engaged slots are those
of the buffered values. -/
theorem matching (hl : Ledger c none v) :
    (∀ i ∈ v.ch.waiters, ∀ j ∈ v.ch.waiters, (v.node i).sending = (v.node j).sending) ∧
    (∀ i ∈ v.ch.waiters, (v.node i).sending = true → v.ch.ring.size = v.ch.ring.capacity) ∧
    (∀ i ∈ v.ch.waiters, (v.node i).sending = false → v.ch.ring.size = 0) ∧
    (v.ch.closed = true → v.ch.waiters = []) ∧ v.ch.ring.Valid := by
  obtain ⟨h, hf⟩ := hl.follows
  have hsender : ∀ i ∈ v.ch.waiters, (v.node i).sending = true →
      Handoff.senders h.waiters ≠ [] := fun i hi hs => by
    obtain ⟨y, hy⟩ := Option.isSome_iff_exists.mp ((hl.waiters i hi).2.2.1 hs)
    refine ne_nil_of_mem (a := (i, y)) ?_
    rw [hf.waiters]
    refine mem_filterMap.mpr ⟨v.item i, mem_map_of_mem hi, ?_⟩
    simp [item_eq_of_sender hs hy]
  have hreceiver : ∀ i ∈ v.ch.waiters, (v.node i).sending = false →
      Handoff.receivers h.waiters ≠ [] := fun i hi hr => by
    refine ne_nil_of_mem (a := i) ?_
    rw [hf.waiters]
    refine mem_filterMap.mpr ⟨v.item i, mem_map_of_mem hi, ?_⟩
    simp [item_eq_of_receiver hr]
  refine ⟨fun i hi j hj => ?_, fun i hi hs => ?_, fun i hi hr => ?_, fun hclosed => ?_, hf.valid⟩
  · cases hsi : (v.node i).sending <;> cases hsj : (v.node j).sending
    · rfl
    · exact (h.sides.elim (hsender j hj hsj) (hreceiver i hi hsi)).elim
    · exact (h.sides.elim (hsender i hi hsi) (hreceiver j hj hsj)).elim
    · rfl
  · rw [← hf.valid.length_toList, ← hf.capacity, ← h.full (hsender i hi hs), hf.buffer]
    rfl
  · have hbuffer : h.buffer = v.ch.ring.toList := hf.buffer
    rw [← hf.valid.length_toList, ← hbuffer, h.empty (hreceiver i hi hr), length_nil]
  · exact map_eq_nil_iff.mp (hf.waiters ▸ h.idle (hf.closed.trans hclosed))

/-- The sends in the history are, in the order of their pointers, all sends on the queue. -/
theorem map_issued (hl : Ledger c held v) (hall : v.Complete c none) :
    v.ch.issued.map Prod.fst = (List.range v.next).filter (v.isSend c) := by
  refine List.Perm.eq_of_pairwise (fun i j _ _ h h' => absurd h' (Nat.lt_asymm h)) hl.issued_lt
    (pairwise_lt_range.filter _) ?_
  refine (perm_ext_iff_of_nodup hl.issued_lt.nodup (nodup_range.filter _)).mpr fun i => ?_
  rw [mem_filter, mem_range, isSend_iff]
  constructor
  · intro hi
    obtain ⟨p, hp, rfl⟩ := mem_map.mp hi
    obtain ⟨hlt, hhome, hsending, -⟩ := hl.issued p hp
    exact ⟨hlt, hhome, hsending⟩
  · rintro ⟨hlt, hhome, hsending⟩
    exact (hall i hlt hhome hsending).resolve_right nofun

/-- **First in, first out.** The values handed to receivers, followed by the buffered values, are
the values of the successful sends in the order of the sends. -/
theorem fifo (hl : Ledger c none v) (hall : v.Complete c none) :
    v.ch.handed.map Prod.snd ++ v.ch.ring.toList =
      ((List.range v.next).filter (v.sent c)).filterMap fun i => (v.node i).value := by
  obtain ⟨h, hf⟩ := hl.follows
  have hfifo : v.ch.accepted.map Prod.snd = v.ch.handed.map Prod.snd ++ v.ch.ring.toList := by
    rw [← hf.accepted, h.fifo, hf.handed, hf.buffer]
    rfl
  have hnodup : v.ch.issued.Nodup := hl.issued_lt.nodup.of_map
  have haccepted : v.ch.accepted = v.ch.issued.filter (v.succeeded ∘ Prod.fst) := by
    have := h.accepted_eq_filter (p := v.succeeded ∘ Prod.fst) (hf.issued ▸ hnodup) fun p hp => by
      rw [hf.accepted, hl.accepted p (hf.issued ▸ hp)]
      simp [View.succeeded]
    rwa [hf.accepted, hf.issued] at this
  calc v.ch.handed.map Prod.snd ++ v.ch.ring.toList
      = (v.ch.issued.filter (v.succeeded ∘ Prod.fst)).map Prod.snd := by rw [← hfifo, haccepted]
    _ = (v.ch.issued.filter (v.succeeded ∘ Prod.fst)).filterMap fun p => (v.node p.1).value := by
      rw [← filterMap_eq_map]
      refine filterMap_congr fun p hp => ?_
      exact (hl.issued p (mem_of_mem_filter hp)).2.2.2.symm
    _ = ((v.ch.issued.map Prod.fst).filter v.succeeded).filterMap fun i => (v.node i).value := by
      rw [filter_map, filterMap_map]
      rfl
    _ = ((List.range v.next).filter (v.sent c)).filterMap fun i => (v.node i).value := by
      rw [hl.map_issued hall, filter_filter]
      rfl

/-- A receive has a value if and only if one was handed to it, which happens once, and then it has
completed without an error. -/
theorem mem_handed_iff (hl : Ledger c held v) (i : ℕ) (x : α) : (i, x) ∈ v.ch.handed ↔
    i < v.next ∧ (v.node i).home = .channel c ∧ (v.node i).sending = false ∧
      (v.node i).value = some x := by
  constructor
  · intro h
    obtain ⟨hlt, hhome, hsending, hvalue, -⟩ := hl.handed _ h
    exact ⟨hlt, hhome, hsending, hvalue⟩
  · rintro ⟨hlt, hhome, hsending, hvalue⟩
    exact hl.received i hlt hhome hsending x hvalue

/-- **Service in the order of arrival.** The receivers that have waited get their values in the
order of their calls, and before those that still wait. -/
theorem service (hl : Ledger c held v) (hlinked : v.Linked c) :
    ((v.ch.handed.map Prod.fst).filter v.suspended).Pairwise (· < ·) ∧
    ∀ i ∈ v.ch.handed.map Prod.fst, v.suspended i = true → ∀ j < v.next,
      (v.node j).home = .channel c → (v.node j).sending = false → v.suspended j = true →
      v.pending j = true → i < j := by
  obtain ⟨h, hf⟩ := hl.follows
  have hfilter : v.ch.served = (v.ch.handed.map Prod.fst).filter v.suspended := by
    refine hl.served.trans (filter_congr fun i hi => ?_)
    obtain ⟨p, hp, rfl⟩ := mem_map.mp hi
    obtain ⟨hlt, hhome, hsending, -⟩ := hl.handed p hp
    rw [Bool.eq_iff_iff, contains_iff_mem, hl.arrived]
    simp [hlt, hhome, hsending]
  have hpairwise := hl.arrived_lt.sublist (hf.arrived ▸ h.service)
  rw [hf.served, hfilter, pairwise_append] at hpairwise
  refine ⟨hpairwise.1, fun i hi hsuspended j hj hhome hsending hsuspended' hpending =>
    hpairwise.2.2 i (mem_filter.mpr ⟨hi, hsuspended⟩) j ?_⟩
  rw [hf.waiters]
  refine mem_filterMap.mpr
    ⟨v.item j, mem_map_of_mem (hlinked j hj hhome hpending), ?_⟩
  simp [item_eq_of_receiver hsending]

end Ledger

/-! ### Calls -/

/-- The ledger between calls. -/
structure Booked {α : Type*} (c : ℕ) (v : View α) : Prop where
  ledger : Ledger c none v
  complete : v.Complete c none
  linked : v.Linked c

/-- The ledger during the call that has the operation `id`, as long as it has not ended. -/
structure During {α : Type*} (c id : ℕ) (sent held : Option α) (v : View α) : Prop where
  ledger : Ledger c held v
  complete : v.Complete c (some id)
  linked : v.Linked c
  new : v.New c id
  node : v.node id = .call c sent
  ok : v.ok id = true

section Calls

variable {α : Type*} {v v' : View α} {c id r s : ℕ} {rest : List ℕ} {sent held : Option α}
  {x y : α}

/-- The ledger is as the record of the queue says. -/
theorem Booked.of_put {ch : Channel α} (hch : v.ch = ch) (hledger : Ledger c none (v.put ch))
    (hcomplete : (v.put ch).Complete c none) (hlinked : (v.put ch).Linked c) : Booked c v := by
  subst hch
  exact ⟨hledger, hcomplete, hlinked⟩

/-- The ledger of a new queue. -/
theorem Booked.init {n : ℕ} (hch : v.ch = { ring := .empty n }) (hnext : v.next = 0) :
    Booked c v where
  ledger :=
    { follows := ⟨.init n,
        { valid := hch ▸ RingBuffer.valid_empty n
          capacity := by rw [hch]; exact (RingBuffer.capacity_empty n).symm
          buffer := by rw [hch]; rfl
          closed := by rw [hch]; rfl
          waiters := by rw [hch]; rfl
          issued := by rw [hch]; rfl
          accepted := by rw [hch]; rfl
          handed := by rw [hch]; rfl
          arrived := by rw [hch]; rfl
          served := by rw [hch]; rfl }⟩
      waiters := by rw [hch]; exact fun _ hi => absurd hi not_mem_nil
      issued := by rw [hch]; exact fun _ hp => absurd hp not_mem_nil
      issued_lt := by rw [hch]; exact List.Pairwise.nil
      accepted := by rw [hch]; exact fun _ hp => absurd hp not_mem_nil
      handed := by rw [hch]; exact fun _ hp => absurd hp not_mem_nil
      handed_nodup := by rw [hch]; exact nodup_nil
      received := fun _ hi => absurd (hnext ▸ hi) (Nat.not_lt_zero _)
      arrived := fun i => by
        rw [hch, hnext]
        exact iff_of_false not_mem_nil fun h => Nat.not_lt_zero _ h.1
      arrived_lt := by rw [hch]; exact List.Pairwise.nil
      served := by rw [hch]; rfl }
  complete _ hi := absurd (hnext ▸ hi) (Nat.not_lt_zero _)
  linked _ hi := absurd (hnext ▸ hi) (Nat.not_lt_zero _)

theorem Booked.prune (hb : Booked c v) (hp : Prunes c v v') : Booked c v' :=
  ⟨hb.ledger.prune hp, hb.complete.prune hp, hb.linked.prune hp⟩

theorem Booked.close (hb : Booked c v) (hp : Prunes c (v.put { v.ch with closed := true }) v')
    (hws : v'.ch.waiters = []) : Booked c v' := by
  have hcomplete : (v.put { v.ch with closed := true }).Complete c none := hb.complete
  have hlinked : (v.put { v.ch with closed := true }).Linked c := hb.linked
  exact ⟨hb.ledger.close hp hws, hcomplete.prune hp, hlinked.prune hp⟩

/-- A call begins with a new operation. -/
theorem Booked.begin (hb : Booked c v) (hch : v'.ch = v.ch) (hnext : v'.next = v.next + 1)
    (hold : ∀ i < v.next, v'.node i = v.node i)
    (hsuspended : ∀ i, v'.suspended i = true ↔ v.suspended i = true ∧ i ≠ v.next)
    (hok : ∀ i < v.next, v'.ok i = v.ok i) (hpending : ∀ i < v.next, v'.pending i = v.pending i)
    (hnode : v'.node v.next = .call c sent) (hid : v'.ok v.next = true) :
    During c v.next sent none v' := by
  obtain ⟨hledger, hnew⟩ := hb.ledger.begin hch hnext hold hsuspended hok (hnode ▸ rfl)
    (hnode ▸ Option.not_isSome_iff_eq_none.mp ∘ Bool.eq_false_iff.mp)
  refine ⟨hledger, fun i hi hi' hsending => ?_, fun i hi hi' hpend => ?_, hnew, hnode, hid⟩
  · by_cases hne : i = v.next
    · exact .inr (hne ▸ rfl)
    · have hlt : i < v.next := by omega
      rw [hold i hlt] at hi' hsending
      rw [hch]
      exact (hb.complete i hlt hi' hsending).imp_right nofun
  · have hne : i ≠ v.next := fun h => not_pending hid (h ▸ hpend)
    have hlt : i < v.next := by omega
    rw [hold i hlt] at hi'
    rw [hch]
    exact hb.linked i hlt hi' (hpending i hlt ▸ hpend)

namespace During

theorem sending (hd : During c id sent held v) : (v.node id).sending = sent.isSome :=
  congrArg Node.sending hd.node

theorem value (hd : During c id sent held v) : (v.node id).value = sent :=
  congrArg Node.value hd.node

theorem prune (hd : During c id sent held v) (hp : Prunes c v v') : During c id sent held v' where
  ledger := hd.ledger.prune hp
  complete := hd.complete.prune hp
  linked := hd.linked.prune hp
  new := hd.new.prune hp
  node := (hp.node id hd.new.lt_next hd.new.home).trans hd.node
  ok := by
    rcases hp.settles id hd.new.lt_next hd.new.home with ⟨-, hok⟩ | ⟨hpending, -⟩
    · exact hok.trans hd.ok
    · exact absurd hpending (not_pending hd.ok)

/-- The send hands its value to the first waiter. -/
theorem give (hd : During c id (some x) none v) (hws : v.ch.waiters = r :: rest)
    (hr : (v.node r).sending = false) (hpending : v.pending r = true) (ht : Gets [r] r x v v')
    (hch : v'.ch = v.ch.give id x r) : Booked c v' := by
  have hl := hd.ledger
  obtain ⟨h, hf⟩ := hl.follows
  have hmem : r ∈ v.ch.waiters := hws ▸ mem_cons_self
  have herase : v.ch.waiters.erase r = rest := by rw [hws, erase_cons_head]
  have hwaiters : h.waiters = (r, none) :: rest.map v.item := by
    rw [hf.waiters, hws, map_cons, Ledger.item_eq_of_receiver hr]
  obtain ⟨hlt, hhome, -⟩ := hl.waiters r hmem
  refine .of_put hch
    { toSends := hl.toSends.accept hd.new ht.toTouches (by simpa using hr) hd.sending hd.value
        (hd.node ▸ rfl) hd.ok rfl rfl
      toReceipts := hl.toReceipts.hand ht (by simp) hlt hhome hr
        (hl.not_mem_handed (v.excl r hpending)) rfl
      toArrivals := hl.toArrivals.touch ht.toTouches (by simp [ht.waited]) rfl ?_
      follows := ⟨h.give id x r _ hwaiters, { hf with
        waiters := (congrArg (rest.map ·) ht.item.symm).trans (congrArg _ herase.symm)
        issued := congrArg (· ++ [(id, x)]) hf.issued
        accepted := congrArg (· ++ [(id, x)]) hf.accepted
        handed := congrArg (· ++ [(r, x)]) hf.handed
        served := congrArg (· ++ [r]) hf.served }⟩
      waiters := fun i hi => hl.waiters_of_touches ht.toTouches i (mem_of_mem_erase hi) }
    (hd.complete.send ht.toTouches rfl) (hd.linked.touch ht.toTouches ?_ ?_)
  · simp [Channel.give, hl.served, hl.mem_arrived hmem hr]
  · simp [not_pending ht.done]
  · exact fun i hi hne => (mem_erase_of_ne (by simpa using hne)).mpr hi

/-- The send buffers its value. -/
theorem store (hd : During c id (some x) none v)
    (hhead : ∀ i ∈ v.ch.waiters.head?, (v.node i).sending ≠ false)
    (hsize : v.ch.ring.size ≠ v.ch.ring.capacity) (ht : Touches [] v v')
    (hch : v'.ch = v.ch.store id x) : Booked c v' := by
  have hl := hd.ledger
  obtain ⟨h, hf⟩ := hl.follows
  have hlt : v.ch.ring.size < v.ch.ring.capacity := Nat.lt_of_le_of_ne hf.valid.size_le hsize
  have hbuffer : h.buffer = v.ch.ring.toList := hf.buffer
  have hfree : h.buffer.length < h.capacity := by
    rwa [hbuffer, hf.capacity, hf.valid.length_toList]
  exact .of_put hch
    { toSends := hl.toSends.accept hd.new ht (by simp) hd.sending hd.value (hd.node ▸ rfl) hd.ok
        rfl rfl
      toReceipts := hl.toReceipts.touch ht (by simp) (by simp) rfl
      toArrivals := hl.toArrivals.touch ht (by simp) rfl hl.served
      follows := ⟨h.store id x hfree (hl.receivers_eq_nil hf hhead), { hf with
        valid := hf.valid.push hlt
        capacity := hf.capacity.trans RingBuffer.capacity_push.symm
        buffer := (congrArg (· ++ [x]) hbuffer).trans (RingBuffer.toList_push hlt).symm
        waiters := hf.waiters.trans (ht.item ▸ rfl)
        issued := congrArg (· ++ [(id, x)]) hf.issued
        accepted := congrArg (· ++ [(id, x)]) hf.accepted }⟩
      waiters := fun i hi => hl.waiters_of_touches ht i hi }
    (hd.complete.send ht rfl) (hd.linked.touch ht nofun fun _ hi _ => hi)

/-- The history when the send `id` does not succeed, or not yet. -/
theorem sends_refuse (hd : During c id (some x) held v) (ht : Touches [id] v v')
    (hfail : v'.ok id = false ∨ (v'.node id).refused = true) {ch : Channel α}
    (hissued : ch.issued = v.ch.issued ++ [(id, x)]) (haccepted : ch.accepted = v.ch.accepted) :
    (v'.put ch).Sends c := by
  refine hd.ledger.toSends.concat hd.new ht hd.new.issued_not_mem hd.sending hd.value hissued
    (fun p _ => by rw [haccepted]) (iff_of_false ?_ fun hok => ?_)
  · rw [haccepted]
    exact fun hmem =>
      Nat.lt_irrefl _ (hd.new.issued _ (hd.ledger.mem_issued_of_mem_accepted hmem))
  · rcases hfail with hfail | hfail
    · exact Bool.false_ne_true (hfail.symm.trans hok.1)
    · exact Bool.false_ne_true (hok.2.symm.trans hfail)

/-- The send ends without a transfer. -/
theorem refuse (hd : During c id (some x) none v) (ht : Touches [id] v v')
    (hfail : v'.ok id = false ∨ (v'.node id).refused = true) (hidle : v'.pending id = v.pending id)
    (hch : v'.ch = v.ch.refuse id x) : Booked c v' := by
  have hl := hd.ledger.touch hd.new ht (ht.value id hd.sending) fun h => by simp [hd.sending] at h
  obtain ⟨h, hf⟩ := hl.follows
  exact .of_put hch
    { hl with
      toSends := hd.sends_refuse ht hfail rfl rfl
      toReceipts := { hl.toReceipts with }
      toArrivals := { hl.toArrivals with }
      follows := ⟨h.refuse id x, { hf with issued := congrArg (· ++ [(id, x)]) hf.issued }⟩ }
    (hd.complete.send ht rfl)
    (hd.linked.touch ht (by simp [hidle, not_pending hd.ok]) fun _ hi _ => hi)

/-- The operation `id` is linked behind the others. -/
theorem waiters_concat (hd : During c id sent held v) (ht : Touches [id] v v')
    (hnode : v'.node id = v.node id) : ∀ i ∈ v.ch.waiters ++ [id], i < v'.next ∧
      (v'.node i).home = .channel c ∧
      ((v'.node i).sending = true → (v'.node i).value.isSome = true) ∧
      (v'.node i).refused = false := by
  intro i hi
  rcases mem_append.mp hi with hi | hi
  · exact hd.ledger.waiters_of_touches ht i hi
  · obtain rfl := mem_singleton.mp hi
    rw [hnode, hd.node, ht.next]
    exact ⟨hd.new.lt_next, rfl, fun h => h, rfl⟩

/-- It stays linked, and the others too. -/
theorem linked_concat (hd : During c id sent held v) (ht : Touches [id] v v') {ch : Channel α}
    (hch : ch.waiters = v.ch.waiters ++ [id]) : (v'.put ch).Linked c := by
  refine hd.linked.touch ht (fun i hi _ => ?_) fun i hi _ => ?_ <;> rw [hch]
  · exact mem_append_right _ hi
  · exact mem_append_left _ hi

/-- The send waits. -/
theorem block (hd : During c id (some x) none v)
    (hhead : ∀ i ∈ v.ch.waiters.head?, (v.node i).sending ≠ false)
    (hsize : v.ch.ring.size = v.ch.ring.capacity) (hopen : v.ch.closed = false)
    (ht : Touches [id] v v') (hnode : v'.node id = v.node id) (hpending : v'.pending id = true)
    (hch : v'.ch = v.ch.block id x) : Booked c v' := by
  have hl := hd.ledger
  obtain ⟨h, hf⟩ := hl.follows
  have hfull : h.buffer.length = h.capacity := by
    rw [hf.buffer, hf.capacity, ← hsize, ← hf.valid.length_toList]
    rfl
  have hitem : v.item id = (id, some x) := Ledger.item_eq_of_sender hd.sending hd.value
  refine .of_put hch
    { toSends := hd.sends_refuse ht (.inl (v'.excl id hpending)) rfl rfl
      toReceipts := hl.toReceipts.touch ht hd.new.handed_not_mem (by simp [hnode]) rfl
      toArrivals := hl.toArrivals.touch ht (by simp [hd.sending]) rfl hl.served
      follows := ⟨h.block id x (hf.closed.trans hopen) hfull (hl.receivers_eq_nil hf hhead),
        { hf with
          waiters := ?_
          issued := congrArg (· ++ [(id, x)]) hf.issued }⟩
      waiters := fun i hi => hd.waiters_concat ht hnode i hi }
    (hd.complete.send ht rfl) (hd.linked_concat ht rfl)
  change h.waiters ++ [(id, some x)] = (v.ch.waiters ++ [id]).map v'.item
  rw [ht.item, map_append, hf.waiters, map_singleton, hitem]

/-- The receive waits. -/
theorem await (hd : During c id none none v)
    (hhead : ∀ i ∈ v.ch.waiters.head?, (v.node i).sending ≠ true) (hsize : v.ch.ring.size = 0)
    (hopen : v.ch.closed = false) (ht : Touches [id] v v') (hnode : v'.node id = v.node id)
    (hsuspended : v'.suspended id = true) (hch : v'.ch = v.ch.await id) : Booked c v' := by
  have hl := hd.ledger
  have hn := hd.new
  obtain ⟨h, hf⟩ := hl.follows
  have hitem : v.item id = (id, none) := Ledger.item_eq_of_receiver hd.sending
  refine .of_put hch
    { toSends := hl.toSends.touch ht hn.issued_not_mem rfl rfl
      toReceipts := hl.toReceipts.touch ht hn.handed_not_mem (by simp [hnode]) rfl
      arrived := fun i => ?_
      arrived_lt := pairwise_concat hl.arrived_lt hn.arrived
      served := ?_
      follows := ⟨h.await id (hf.closed.trans hopen) (hf.buffer_eq_nil hsize)
        (Ledger.senders_eq_nil hf hhead), { hf with
          waiters := ?_
          arrived := congrArg (· ++ [id]) hf.arrived }⟩
      waiters := fun i hi => hd.waiters_concat ht hnode i hi }
    (hd.complete.receive hd.sending ht rfl) (hd.linked_concat ht rfl)
  · change i ∈ v.ch.arrived ++ [id] ↔ i < v'.next ∧ (v'.node i).home = .channel c ∧
      (v'.node i).sending = false ∧ v'.suspended i = true
    rw [mem_append, mem_singleton, hl.arrived i, ht.next, ht.home, ht.sending]
    by_cases hid : i = id
    · subst hid
      simp [hn.lt_next, hn.home, hd.sending, hsuspended]
    · simp [hid, ht.suspended i (by simpa using hid)]
  · refine hl.served.trans (filter_congr fun i hi => ?_)
    have hne : i ≠ id := fun h => hn.not_mem_handed (h ▸ hi)
    simp [View.put, Channel.await, hne]
  · change h.waiters ++ [(id, none)] = (v.ch.waiters ++ [id]).map v'.item
    rw [ht.item, map_append, hf.waiters, map_singleton, hitem]

/-- The receive ends without a value. -/
theorem skip (hd : During c id none none v) (ht : Touches [id] v v')
    (hnode : v'.node id = v.node id) (hsuspended : v'.suspended id = v.suspended id)
    (hidle : v'.pending id = v.pending id) (hch : v'.ch = v.ch) : Booked c v' :=
  .of_put hch (hd.ledger.touch hd.new ht (congrArg Node.value hnode) fun _ => hsuspended)
    (hd.complete.receive hd.sending ht rfl)
    (hd.linked.touch ht (by simp [hidle, not_pending hd.ok]) fun _ hi _ => hi)

/-- The receive takes the first buffered value. -/
theorem dropFront (hd : During c id sent none v) (hsize : v.ch.ring.size ≠ 0) :
    ∃ x, v.ch.ring.slot 0 = some x ∧
      During c id sent (some x) (v.put { v.ch with ring := v.ch.ring.pop }) := by
  obtain ⟨x, hx, hledger⟩ := hd.ledger.dropFront hsize
  exact ⟨x, hx,
    { ledger := hledger
      complete := hd.complete
      linked := hd.linked
      new := { hd.new with }
      node := hd.node
      ok := hd.ok }⟩

/-- The receive that holds a value gets it. -/
theorem fetch (hd : During c id none (some x) v)
    (hhead : ∀ i ∈ v.ch.waiters.head?, (v.node i).sending ≠ true) (ht : Gets [id] id x v v')
    (hch : v'.ch = v.ch.fetch id x) : Booked c v' := by
  have hl := hd.ledger
  have hn := hd.new
  have ht' := ht.toTouches
  obtain ⟨h, hf⟩ := hl.follows
  exact .of_put hch
    { toSends := hl.toSends.touch ht' hn.issued_not_mem rfl rfl
      toReceipts := hl.toReceipts.hand ht (by simp) hn.lt_next hn.home hd.sending hn.not_mem_handed
        rfl
      toArrivals := hl.toArrivals.fetch hn ht' (by simp [ht.waited]) rfl rfl rfl
      follows := ⟨h.fetch id x _ hf.buffer (Ledger.senders_eq_nil hf hhead), { hf with
        buffer := rfl
        waiters := hf.waiters.trans (ht.item ▸ rfl)
        handed := congrArg (· ++ [(id, x)]) hf.handed }⟩
      waiters := fun i hi => hl.waiters_of_touches ht' i hi }
    (hd.complete.receive hd.sending ht' rfl)
    (hd.linked.touch ht' (by simp [not_pending ht.done]) fun _ hi _ => hi)

/-- The receive gets the value `x`, and the value `y` of the first waiter is taken over, whatever
becomes of the buffer. -/
theorem of_sender (hd : During c id none held v) (hs : v.Offers s y) (ht : Gets [id, s] id x v v')
    (hok : v'.ok s = true) (ring : RingBuffer α)
    (hfollows : ∃ h, (v'.put { v.ch.refill id x s y with ring }).Follows none h)
    (hch : v'.ch = { v.ch.refill id x s y with ring }) : Booked c v' := by
  have hl := hd.ledger
  have hn := hd.new
  have ht' := ht.toTouches
  obtain ⟨rest, hws⟩ := hs.head
  have hmem : s ∈ v.ch.waiters := hws ▸ mem_cons_self
  refine .of_put hch
    { toSends := hl.toSends.takeOver hn ht' hs.value hok (hl.waiters_of_touches ht' s hmem).2.2.2
        rfl rfl
      toReceipts := hl.toReceipts.hand ht (by simp [hs.sending]) hn.lt_next hn.home hd.sending
        hn.not_mem_handed rfl
      toArrivals := hl.toArrivals.fetch hn ht' (by simp [ht.waited, hs.sending]) rfl rfl rfl
      follows := hfollows
      waiters := fun i hi => hl.waiters_of_touches ht' i (mem_of_mem_erase hi) }
    (hd.complete.receive hd.sending ht' rfl) (hd.linked.touch ht' ?_ fun i hi hne => ?_)
  · simp [not_pending ht.done, not_pending hok]
  · exact (mem_erase_of_ne fun h => hne (by simp [h])).mpr hi

/-- The first waiter puts its value into the slot that the receive has freed. -/
theorem refill (hd : During c id none (some x) v) (hs : v.Offers s y) (ht : Gets [id, s] id x v v')
    (hok : v'.ok s = true) (hch : v'.ch = v.ch.refill id x s y) : Booked c v' := by
  obtain ⟨h, hf⟩ := hd.ledger.follows
  have hfree : v.ch.ring.size < v.ch.ring.capacity := by
    have hsize := h.size_le
    rw [hf.buffer, hf.capacity, length_append, hf.valid.length_toList] at hsize
    change 1 + v.ch.ring.size ≤ v.ch.ring.capacity at hsize
    omega
  refine hd.of_sender hs ht hok (v.ch.ring.push y)
    ⟨h.refill id x _ s y _ hf.buffer (Ledger.waiters_eq_of_sender hf hs), ?_⟩ hch
  exact
    { hf with
      valid := hf.valid.push hfree
      capacity := hf.capacity.trans RingBuffer.capacity_push.symm
      buffer := (RingBuffer.toList_push hfree).symm
      waiters := congrArg ((v.ch.waiters.erase s).map ·) ht.item.symm
      accepted := congrArg (· ++ [(s, y)]) hf.accepted
      handed := congrArg (· ++ [(id, x)]) hf.handed }

/-- The receive gets the value of the first waiter. -/
theorem rendezvous (hd : During c id none none v) (hsize : v.ch.ring.size = 0)
    (hs : v.Offers s y) (ht : Gets [id, s] id y v v') (hok : v'.ok s = true)
    (hch : v'.ch = v.ch.rendezvous id s y) : Booked c v' := by
  obtain ⟨h, hf⟩ := hd.ledger.follows
  refine hd.of_sender hs ht hok v.ch.ring ⟨h.rendezvous id s y _ (hf.buffer_eq_nil hsize)
    (Ledger.waiters_eq_of_sender hf hs), ?_⟩ hch
  exact
    { hf with
      waiters := congrArg ((v.ch.waiters.erase s).map ·) ht.item.symm
      accepted := congrArg (· ++ [(s, y)]) hf.accepted
      handed := congrArg (· ++ [(id, y)]) hf.handed }

/-- A linked sender has a value. -/
theorem value_ne_none (hd : During c id sent held v) (hs : s ∈ v.ch.waiters)
    (hsending : (v.node s).sending = true) : (v.node s).value ≠ none := by
  intro hnone
  have := (hd.ledger.waiters s hs).2.2.1 hsending
  simp [hnone] at this

end During

end Calls

end Snowy
