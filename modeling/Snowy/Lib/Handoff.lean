import Mathlib.Data.List.Nodup
import Mathlib.Data.List.Basic

/-!
# Bounded queues with waiters

What a bounded channel is for, whatever its implementation: senders offer values, receivers take
them, at most `capacity` values are buffered, and an operation that cannot proceed waits in a
list, from which it may be withdrawn at any time. A value goes from a sender to a receiver
directly, through the buffer, or from a waiting sender into a slot that has just been freed.

The state carries its invariants as fields. The two halves of the invariant are the *matching*:
the waiters all have the same direction, senders wait only at a full buffer and receivers only at
an empty one; and the *ledger*: what has been accepted is what has been handed over followed by
what is buffered, and neither senders nor receivers overtake each other.

## Main definitions

* `Handoff` : the state of a bounded queue with its ledger.
* `Handoff.give`, `Handoff.store` : a value comes in, to a waiting receiver or to the buffer.
* `Handoff.fetch`, `Handoff.refill`, `Handoff.rendezvous` : a value goes out.
* `Handoff.block`, `Handoff.await` : a sender or a receiver begins to wait.
* `Handoff.prune`, `Handoff.close` : waiters are withdrawn.

## Main results

* `List.Sublist.eq_filter` : a sublist of a list without duplicates is the filter by membership.
-/

variable {ι α : Type*}

/-- A sublist of a list without duplicates is determined by its members. -/
theorem List.Sublist.eq_filter {β : Type*} {l m : List β} (h : l.Sublist m) (hm : m.Nodup)
    {p : β → Bool} (hp : ∀ x ∈ m, x ∈ l ↔ p x = true) : l = m.filter p := by
  induction h with
  | slnil => rfl
  | @cons l m a h ih =>
    obtain ⟨ha, hm⟩ := nodup_cons.mp hm
    have hpa : ¬ p a = true := fun h' =>
      ha (h.subset ((hp a mem_cons_self).mpr h'))
    rw [filter_cons_of_neg hpa]
    exact ih hm fun x hx => hp x (mem_cons_of_mem _ hx)
  | @cons_cons l m a h ih =>
    obtain ⟨ha, hm⟩ := nodup_cons.mp hm
    have hpa : p a = true := (hp a mem_cons_self).mp mem_cons_self
    rw [filter_cons_of_pos hpa]
    refine congrArg (a :: ·) (ih hm fun x hx => ?_)
    rw [← hp x (mem_cons_of_mem _ hx), mem_cons]
    exact ⟨.inr, fun h' => h'.resolve_left fun hxa => ha (hxa ▸ hx)⟩

namespace Handoff

open List

/-- The waiting senders with their values. A waiter without a value is a receiver. -/
def senders (waiters : List (ι × Option α)) : List (ι × α) :=
  waiters.filterMap fun w => w.2.map (w.1, ·)

/-- The waiting receivers. -/
def receivers (waiters : List (ι × Option α)) : List ι :=
  waiters.filterMap fun w => if w.2.isNone then some w.1 else none

variable {i : ι} {v : α} {ws vs : List (ι × Option α)}

@[simp] theorem senders_nil : senders ([] : List (ι × Option α)) = [] := rfl

@[simp] theorem receivers_nil : receivers ([] : List (ι × Option α)) = [] := rfl

@[simp] theorem senders_cons_some : senders ((i, some v) :: ws) = (i, v) :: senders ws := rfl

@[simp] theorem senders_cons_none : senders ((i, none) :: ws) = senders ws := rfl

@[simp] theorem receivers_cons_some : receivers ((i, some v) :: ws) = receivers ws := rfl

@[simp] theorem receivers_cons_none : receivers ((i, none) :: ws) = i :: receivers ws := rfl

@[simp] theorem senders_append : senders (ws ++ vs) = senders ws ++ senders vs :=
  filterMap_append

@[simp] theorem receivers_append : receivers (ws ++ vs) = receivers ws ++ receivers vs :=
  filterMap_append

end Handoff

open Handoff in
/-- A bounded queue with waiters. `issued` are the sends in the order of their calls, `accepted`
those whose value has been taken over, `handed` the values with their receivers in the order of
the hand-over; `arrived` are the receivers that have begun to wait, and `served` those among them
that have got a value. -/
structure Handoff (ι α : Type*) where
  capacity : ℕ
  buffer : List α
  closed : Bool
  waiters : List (ι × Option α)
  issued : List (ι × α)
  accepted : List (ι × α)
  handed : List (ι × α)
  arrived : List ι
  served : List ι
  size_le : buffer.length ≤ capacity
  sides : senders waiters = [] ∨ receivers waiters = []
  full : senders waiters ≠ [] → buffer.length = capacity
  empty : receivers waiters ≠ [] → buffer = []
  idle : closed = true → waiters = []
  fifo : accepted.map Prod.snd = handed.map Prod.snd ++ buffer
  order : (accepted ++ senders waiters).Sublist issued
  service : (served ++ receivers waiters).Sublist arrived

namespace Handoff

open List

variable (h : Handoff ι α)

/-- A new queue. -/
def init (capacity : ℕ) : Handoff ι α where
  capacity := capacity
  buffer := []
  closed := false
  waiters := []
  issued := []
  accepted := []
  handed := []
  arrived := []
  served := []
  size_le := Nat.zero_le _
  sides := .inl rfl
  full h := absurd rfl h
  empty _ := rfl
  idle _ := rfl
  fifo := rfl
  order := List.Sublist.refl _
  service := List.Sublist.refl _

/-- Some waiters are withdrawn, wherever they stand. -/
def prune {ws : List (ι × Option α)} (hws : ws.Sublist h.waiters) : Handoff ι α :=
  have hsenders : (senders ws).Sublist (senders h.waiters) := hws.filterMap _
  have hreceivers : (receivers ws).Sublist (receivers h.waiters) := hws.filterMap _
  { h with
    waiters := ws
    sides := by
      refine h.sides.imp (fun h' => ?_) fun h' => ?_
      · exact sublist_nil.mp (h' ▸ hsenders)
      · exact sublist_nil.mp (h' ▸ hreceivers)
    full := fun hne => h.full fun h' => hne (sublist_nil.mp (h' ▸ hsenders))
    empty := fun hne => h.empty fun h' => hne (sublist_nil.mp (h' ▸ hreceivers))
    idle := fun hc => sublist_nil.mp (h.idle hc ▸ hws)
    order := (hsenders.append_left _).trans h.order
    service := (hreceivers.append_left _).trans h.service }

/-- A send is refused. -/
def refuse (i : ι) (v : α) : Handoff ι α :=
  { h with
    issued := h.issued ++ [(i, v)]
    order := h.order.trans (sublist_append_left ..) }

/-- A send hands its value to the first waiting receiver. -/
def give (i : ι) (v : α) (r : ι) (ws : List (ι × Option α)) (hws : h.waiters = (r, none) :: ws) :
    Handoff ι α :=
  have hsenders : senders ws = [] := by simpa [hws] using h.sides
  have hbuffer : h.buffer = [] := h.empty (by simp [hws])
  { h with
    waiters := ws
    issued := h.issued ++ [(i, v)]
    accepted := h.accepted ++ [(i, v)]
    handed := h.handed ++ [(r, v)]
    served := h.served ++ [r]
    sides := .inl hsenders
    full := fun hne => absurd hsenders hne
    empty := fun _ => hbuffer
    idle := fun hc => by simpa [hws] using h.idle hc
    fifo := by simp [h.fifo, hbuffer]
    order := by
      have horder := h.order
      simp only [hws, senders_cons_none, hsenders, append_nil] at horder
      simpa [hsenders] using horder.append (List.Sublist.refl [(i, v)])
    service := by simpa [hws] using h.service }

/-- A send stores its value in the buffer. -/
def store (i : ι) (v : α) (hsize : h.buffer.length < h.capacity)
    (hwaiters : receivers h.waiters = []) : Handoff ι α :=
  have hsenders : senders h.waiters = [] := by
    by_contra hne
    exact absurd (h.full hne) (Nat.ne_of_lt hsize)
  { h with
    buffer := h.buffer ++ [v]
    issued := h.issued ++ [(i, v)]
    accepted := h.accepted ++ [(i, v)]
    size_le := by simpa using Nat.succ_le_of_lt hsize
    full := fun hne => absurd hsenders hne
    empty := fun hne => absurd hwaiters hne
    fifo := by simp [h.fifo]
    order := by
      have horder := h.order
      rw [hsenders, append_nil] at horder ⊢
      exact horder.append (List.Sublist.refl [(i, v)]) }

/-- A sender begins to wait. -/
def block (i : ι) (v : α) (hopen : h.closed = false) (hsize : h.buffer.length = h.capacity)
    (hwaiters : receivers h.waiters = []) : Handoff ι α :=
  { h with
    waiters := h.waiters ++ [(i, some v)]
    issued := h.issued ++ [(i, v)]
    sides := .inr (by simp [hwaiters])
    full := fun _ => hsize
    empty := fun hne => absurd (by simp [hwaiters]) hne
    idle := fun hc => by simp [hopen] at hc
    order := by simpa using h.order.append (List.Sublist.refl [(i, v)])
    service := by simpa using h.service }

/-- A receiver begins to wait. -/
def await (i : ι) (hopen : h.closed = false) (hbuffer : h.buffer = [])
    (hwaiters : senders h.waiters = []) : Handoff ι α :=
  { h with
    waiters := h.waiters ++ [(i, none)]
    arrived := h.arrived ++ [i]
    sides := .inl (by simp [hwaiters])
    full := fun hne => absurd (by simp [hwaiters]) hne
    empty := fun _ => hbuffer
    idle := fun hc => by simp [hopen] at hc
    order := by simpa using h.order
    service := by simpa using h.service.append (List.Sublist.refl [i]) }

/-- A receiver takes the first buffered value, and no sender waits. -/
def fetch (i : ι) (v : α) (rest : List α) (hbuffer : h.buffer = v :: rest)
    (hwaiters : senders h.waiters = []) : Handoff ι α :=
  { h with
    buffer := rest
    handed := h.handed ++ [(i, v)]
    size_le := by
      have hsize := h.size_le
      rw [hbuffer, length_cons] at hsize
      omega
    full := fun hne => absurd hwaiters hne
    empty := fun hne => by simpa [hbuffer] using h.empty hne
    fifo := by simp [h.fifo, hbuffer] }

/-- A receiver takes the first buffered value, and the first waiting sender gets the slot. -/
def refill (i : ι) (v : α) (rest : List α) (s : ι) (x : α) (ws : List (ι × Option α))
    (hbuffer : h.buffer = v :: rest) (hws : h.waiters = (s, some x) :: ws) : Handoff ι α :=
  have hreceivers : receivers ws = [] := by simpa [hws] using h.sides
  have hfull : h.buffer.length = h.capacity := h.full (by simp [hws])
  have hsize : (rest ++ [x]).length = h.capacity := by simpa [hbuffer] using hfull
  { h with
    buffer := rest ++ [x]
    waiters := ws
    accepted := h.accepted ++ [(s, x)]
    handed := h.handed ++ [(i, v)]
    size_le := Nat.le_of_eq hsize
    sides := .inr hreceivers
    full := fun _ => hsize
    empty := fun hne => absurd hreceivers hne
    idle := fun hc => by simpa [hws] using h.idle hc
    fifo := by simp [h.fifo, hbuffer]
    order := by simpa [hws] using h.order
    service := by simpa [hws, hreceivers] using h.service }

/-- A receiver takes the value of the first waiting sender, past an empty buffer. -/
def rendezvous (i : ι) (s : ι) (x : α) (ws : List (ι × Option α)) (hbuffer : h.buffer = [])
    (hws : h.waiters = (s, some x) :: ws) : Handoff ι α :=
  have hreceivers : receivers ws = [] := by simpa [hws] using h.sides
  { h with
    waiters := ws
    accepted := h.accepted ++ [(s, x)]
    handed := h.handed ++ [(i, x)]
    sides := .inr hreceivers
    full := fun _ => h.full (by simp [hws])
    empty := fun hne => absurd hreceivers hne
    idle := fun hc => by simpa [hws] using h.idle hc
    fifo := by simp [h.fifo, hbuffer]
    order := by simpa [hws] using h.order
    service := by simpa [hws, hreceivers] using h.service }

/-- The queue is closed and all waiters are withdrawn. -/
def close : Handoff ι α :=
  { h.prune (nil_sublist h.waiters) with
    closed := true
    idle := fun _ => rfl }

/-- The accepted sends are, in the order of their calls, those that `p` tells apart. -/
theorem accepted_eq_filter (hnodup : h.issued.Nodup) {p : ι × α → Bool}
    (hp : ∀ x ∈ h.issued, x ∈ h.accepted ↔ p x = true) : h.accepted = h.issued.filter p :=
  ((sublist_append_left ..).trans h.order).eq_filter hnodup hp

end Handoff
