import Mathlib.Data.List.Induction
import Snowy.Lib.LinkFamily

/-!
# The intrusive lists and queues

Nothing that waits in the library is allocated for a list: operations and awaiters carry the links
of the lists they are in. There are five kinds of doubly linked lists. Operations are put in front
of `loop::io_` and waiters in front of `loop::waits_`; the awaiters of an event are moreover in
front of its list, and the nodes of a channel and of a queue shared by threads at the end of theirs.
Each kind has links of its own, so a node can be in several lists at once. A removed node keeps its
links, and nothing clears the links of a node that is put in front: the lists are right because each
node is put in once and starts with null pointers.

The objects `ready_operation` are linked by one pointer. They move between `ready_`, `messages_`
and the local queue of `run()`.

All nodes of a kind have numbers in `ι` and all owners of lists (loops, events, channels, queues)
have numbers in `κ`. The `log` of a state is the history of the lists: what a list should contain is
said in terms of the history alone.

## Main definitions

* `Snowy.Intrusive.State` : the heads and the links, with their history.
* `Snowy.Intrusive.Step` : the functions of the library that change lists, in any order.
* `Snowy.Intrusive.present`, `Snowy.Intrusive.fifo` : the nodes that were inserted and not removed,
  and the contents of a first-in-first-out queue.
* `Snowy.Intrusive.State.expireIo`, `Snowy.Intrusive.State.expireWaits` : the traversals of
  `expire`.

## Main results

* `Snowy.Intrusive.Reachable.sound` : the invariant of the lists.
* `Snowy.Intrusive.lists_stay_well_formed` : traversals, links and ends of all lists after any
  sequence of insertions and removals.
-/

namespace Snowy.Intrusive

open Function List

/-! ### The heap -/

/-- The kinds of doubly linked lists: `loop::io_` with `io::next` and `io::prev`, `loop::waits_`
with `wait::next` and `wait::prev`, `event::head_` with `awaiter::next_` and `awaiter::prev_`,
`channel::first_` with `node::next_` and `node::prev_`, and `wait_queue::first` with
`remote_wait::after` and `remote_wait::before`. -/
inductive Kind
  | io
  | waits
  | event
  | channel
  | remote
  deriving DecidableEq

/-- Nodes are put in front of the lists of this kind, which have no pointer to their last node. -/
def Kind.front : Kind → Bool
  | .io | .waits | .event => true
  | .channel | .remote => false

/-- The instances of `ready_queue`: `ready_`, `messages_`, and `messages` in `run()`. -/
inductive Place (κ : Type*)
  | ready (loop : κ)
  | messages (loop : κ)
  | batch (loop : κ)
  deriving DecidableEq

/-- The objects `ready_operation`: the base of an `io`, of a `wait`, of other work such as a timer,
of a message, and the second one of a `remote_wait`, which is a message as well. -/
inductive Work (ι : Type*)
  | io (a : ι)
  | wait (a : ι)
  | work (a : ι)
  | message (a : ι)
  | delivery (a : ι)
  deriving DecidableEq

/-- A change of a list or a queue. -/
inductive Change (κ ι : Type*)
  | insert (kind : Kind) (k : κ) (a : ι)
  | remove (kind : Kind) (a : ι)
  | push (p : Place κ) (w : Work ι)
  | pop (p : Place κ)
  deriving DecidableEq

/-- The lists of one kind. The flag of a node is `active` for `io_` and `waits_`, `linked_` for an
event, and `linked` for the other kinds. -/
structure Nodes (κ ι : Type*) extends LinkFamily κ ι where
  last : κ → Option ι := fun _ => none
  linked : ι → Bool := fun _ => false

/-- All lists and queues, and their history. -/
structure State (κ ι : Type*) where
  nodes : Kind → Nodes κ ι := fun _ => {}
  ready : LinkQueue (Place κ) (Work ι) := {}
  log : List (Change κ ι) := []

variable {κ ι : Type*}

section Operations

variable [DecidableEq κ] [DecidableEq ι]

namespace Nodes

variable (N : Nodes κ ι) (k : κ) (a : ι)

/-- `next = head; if (next) next->prev = this; head = this`. -/
def pushFront : Nodes κ ι :=
  { N with
    toLinkFamily := N.setLinks k ((N.links k).pushFront a)
    linked := update N.linked a true }

/-- `prev = last; if (prev) prev->next = this; else first = this; last = this`. -/
def append : Nodes κ ι where
  toLinkFamily := N.setLinks k ((N.links k).append (N.last k) a)
  last := update N.last k (some a)
  linked := update N.linked a true

/-- `if (prev) prev->next = next; else head = next; if (next) next->prev = prev`. -/
def unlink : Nodes κ ι :=
  { N with toLinkFamily := N.setLinks k ((N.links k).unlink a) }

/-- `if (prev) prev->next = next; else first = next;` and then
`if (next) next->prev = prev; else last = prev`. -/
def unlinkLast : Nodes κ ι :=
  let L := (N.links k).setNext (N.prev a) (N.next a)
  { N with
    toLinkFamily := N.setLinks k ((N.links k).unlink a)
    last := if L.next a = none then update N.last k (L.prev a) else N.last }

/-- `if (next) next->prev = nullptr; head = next`. -/
def popFront : Nodes κ ι :=
  { N with toLinkFamily := N.setLinks k ((N.links k).popFront a) }

/-- The flag of a node is reset. -/
def reset : Nodes κ ι := { N with linked := update N.linked a false }

end Nodes

namespace State

variable (s : State κ ι)

/-- The lists of one kind are changed. -/
def change (kind : Kind) (N : Nodes κ ι) (c : Change κ ι) : State κ ι :=
  { s with nodes := update s.nodes kind N, log := s.log ++ [c] }

/-- `ready_queue::push`. -/
def push (p : Place κ) (w : Work ι) : State κ ι :=
  { s with ready := s.ready.push p w, log := s.log ++ [.push p w] }

/-- `ready_queue::pop`. -/
def pop (p : Place κ) : Option (Work ι) × State κ ι :=
  ((s.ready.pop p).1, { s with ready := (s.ready.pop p).2, log := s.log ++ [.pop p] })

/-! ### The functions that change lists

The owner of a list that a node refers to, `owner`, `event_` or `queue`, is fixed by the
constructor. -/

variable (R : Kind → ι → κ) (a : ι)

/-- A node is put in front of its list. -/
def link (kind : Kind) : State κ ι :=
  s.change kind ((s.nodes kind).pushFront (R kind a) a) (.insert kind (R kind a) a)

/-- A node is put at the end of its list. -/
def append (kind : Kind) : State κ ι :=
  s.change kind ((s.nodes kind).append (R kind a) a) (.insert kind (R kind a) a)

/-- `loop::complete`. An operation with `retire` set is not queued. -/
def complete (retire : Bool) : State κ ι :=
  let t := s.change .io (((s.nodes .io).unlink (R .io a) a).reset a) (.remove .io a)
  if retire then t else t.push (.ready (R .io a)) (.io a)

/-- What becomes of an operation in `io::await_suspend`: `submit` returns, the operation is
completed on the spot, or `submit` throws. -/
inductive Submission
  | pending
  | completed (retire : Bool)
  | failed

/-- `io::await_suspend`, from the place where the operation is linked. `uring::access::start` is the
case of an operation that is pending. -/
def awaitSuspend (submission : Submission) : State κ ι :=
  let t := s.link R a .io
  match submission with
  | .pending => t
  | .completed retire => t.complete R a retire
  | .failed => t.change .io (((t.nodes .io).popFront (R .io a) a).reset a) (.remove .io a)

/-- `wait::park`. -/
def park : State κ ι := s.link R a .waits

/-- `wait::notify`. -/
def notify : State κ ι :=
  if (s.nodes .waits).linked a then
    (s.change .waits (((s.nodes .waits).unlink (R .waits a) a).reset a) (.remove .waits a)).push
      (.ready (R .waits a)) (.wait a)
  else s

/-- `event::awaiter::await_suspend`, if `park` returns true. -/
def listen (set : Bool) : State κ ι :=
  let t := (s.park R a).link R a .event
  if set then t.notify R a else t

/-- `event::awaiter::~awaiter`. The flag is not reset, as the node is gone. -/
def destroy : State κ ι :=
  if (s.nodes .event).linked a then
    s.change .event ((s.nodes .event).unlink (R .event a) a) (.remove .event a)
  else s

/-- `channel::node::await_suspend`, if `park` returns true. -/
def await : State κ ι := (s.park R a).append R a .channel

/-- `remote_wait::enqueue`, if `park` returns true. -/
def enqueue : State κ ι := (s.park R a).append R a .remote

/-- `channel::unlink` and `remote_wait::unlink`. -/
def unlink (kind : Kind) : State κ ι :=
  s.change kind (((s.nodes kind).unlinkLast (R kind a) a).reset a) (.remove kind a)

/-- `remote_wait::interrupt`. -/
def interrupt : State κ ι :=
  if (s.nodes .remote).linked a then (s.unlink R a .remote).notify R a else s

/-- `remote_wait::deliver`. -/
def deliver : State κ ι :=
  (s.unlink R a .remote).push (.messages (R .waits a)) (.delivery a)

/-- A message is detached in `run()`. -/
def detach (k : κ) : State κ ι :=
  match s.pop (.messages k) with
  | (none, t) => t
  | (some w, t) => t.push (.batch k) w

end State

end Operations

/-! ### Histories -/

section Histories

variable [DecidableEq κ]

/-- The node that a change puts into a list. -/
def Change.inserted (kind : Kind) (k : κ) : Change κ ι → Option ι
  | .insert kind' k' a => if kind' = kind ∧ k' = k then some a else none
  | _ => none

/-- The node that a change takes out of a list of a kind. -/
def Change.removed (kind : Kind) : Change κ ι → Option ι
  | .remove kind' a => if kind' = kind then some a else none
  | _ => none

/-- The nodes that were put into a list, in this order. -/
def insertions (kind : Kind) (log : List (Change κ ι)) (k : κ) : List ι :=
  log.filterMap (Change.inserted kind k)

/-- The nodes that were taken out of the lists of a kind. -/
def removals (kind : Kind) (log : List (Change κ ι)) : List ι :=
  log.filterMap (Change.removed kind)

/-- The nodes that were put in and not taken out. -/
def remaining [DecidableEq ι] (ins : κ → List ι) (out : List ι) (k : κ) : List ι :=
  (ins k).filter fun a => a ∉ out

/-- The nodes that were put into a list and not taken out, in the order in which they were put
in. -/
def present [DecidableEq ι] (kind : Kind) (log : List (Change κ ι)) (k : κ) : List ι :=
  remaining (insertions kind log) (removals kind log) k

/-- The order of a list in which nodes are put in front is the reverse order. -/
def Kind.arrange (kind : Kind) (l : List ι) : List ι := if kind.front then l.reverse else l

/-- A change of a first-in-first-out queue. -/
def Change.apply (p : Place κ) (l : List (Work ι)) : Change κ ι → List (Work ι)
  | .push p' w => if p' = p then l ++ [w] else l
  | .pop p' => if p' = p then l.tail else l
  | _ => l

/-- The contents of a first-in-first-out queue. -/
def fifo (log : List (Change κ ι)) (p : Place κ) : List (Work ι) := log.foldl (Change.apply p) []

end Histories

/-! ### The steps -/

/-- A node that has not been in a list of a kind. -/
def Fresh (s : State κ ι) (kind : Kind) (a : ι) : Prop := ∀ k, .insert kind k a ∉ s.log

section Steps

variable [DecidableEq κ] [DecidableEq ι]

/-- The functions of the library that change lists. Each node is put once into a list of a kind, and
operations, channel nodes and remote waiters are taken out when they are in a list. The base of a
message or of other work is queued when it is in no queue. -/
inductive Step (R : Kind → ι → κ) (s : State κ ι) : State κ ι → Prop
  | awaitSuspend (a : ι) (submission : State.Submission) (fresh : Fresh s .io a) :
    Step R s (s.awaitSuspend R a submission)
  | complete (a : ι) (retire : Bool) (active : (s.nodes .io).linked a = true) :
    Step R s (s.complete R a retire)
  | park (a : ι) (fresh : Fresh s .waits a) : Step R s (s.park R a)
  | notify (a : ι) : Step R s (s.notify R a)
  | listen (a : ι) (set : Bool) (fresh : Fresh s .waits a) (fresh' : Fresh s .event a) :
    Step R s (s.listen R a set)
  | destroy (a : ι) (once : .remove .event a ∉ s.log) : Step R s (s.destroy R a)
  | await (a : ι) (fresh : Fresh s .waits a) (fresh' : Fresh s .channel a) :
    Step R s (s.await R a)
  | unlink (a : ι) (linked : (s.nodes .channel).linked a = true) : Step R s (s.unlink R a .channel)
  | enqueue (a : ι) (fresh : Fresh s .waits a) (fresh' : Fresh s .remote a) :
    Step R s (s.enqueue R a)
  | interrupt (a : ι) : Step R s (s.interrupt R a)
  | deliver (a : ι) (linked : (s.nodes .remote).linked a = true) : Step R s (s.deliver R a)
  | finish (k : κ) (a : ι) (free : ∀ p, .work a ∉ fifo s.log p) :
    Step R s (s.push (.ready k) (.work a))
  | send (k : κ) (a : ι) (free : ∀ p, .message a ∉ fifo s.log p) :
    Step R s (s.push (.messages k) (.message a))
  | detach (k : κ) : Step R s (s.detach k)
  | run (k : κ) : Step R s (s.pop (.batch k)).2
  | resume (k : κ) : Step R s (s.pop (.ready k)).2

/-- The states after any sequence of insertions and removals. -/
inductive Reachable (R : Kind → ι → κ) : State κ ι → Prop
  | init : Reachable R {}
  | step {s t : State κ ι} (h : Reachable R s) (hstep : Step R s t) : Reachable R t

/-! ### The traversals of `expire` -/

namespace State

variable (s : State κ ι) (R : Kind → ι → κ) (a : ι)

/-- What `loop::cancel` does: a request is sent and the operation stays in its list (io_uring and
IOCP), the operation is completed (kqueue), or the function throws. -/
inductive Canceling
  | sent
  | completed
  | failed

/-- `loop::cancel`. -/
def cancel : Canceling → State κ ι × Bool
  | .sent => (s, true)
  | .completed => (s.complete R a false, true)
  | .failed => (s, false)

/-- What `expire` does with an operation. -/
def visitIo (all : Bool) (cancelSent canceled : ι → Bool) (cancel : ι → Canceling) :
    State κ ι × Bool :=
  if !cancelSent a && (all || canceled a) then s.cancel R a (cancel a) else (s, true)

/-- What `expire` does with a waiter. -/
def visitWait (all : Bool) (interruptible canceled hook : ι → Bool) : State κ ι × Bool :=
  if interruptible a && (all || canceled a) then
    (if hook a then s.interrupt R a else s.notify R a, true)
  else (s, true)

/-- A traversal that saves the link of a node before the node is visited, with the nodes that it
visits. The function `env` is what other threads do meanwhile. -/
def traverse (kind : Kind) (k : κ) (visit : ι → State κ ι → State κ ι × Bool)
    (env : ι → State κ ι → State κ ι) (n : ℕ) : List ι × State κ ι × Bool :=
  Linked.scan (fun s => (s.nodes kind).next)
    (fun a s => (env a (visit a s).1, (visit a s).2)) n ((s.nodes kind).head k) s

/-- The traversal of `io_` in `expire`. -/
def expireIo (k : κ) (all : Bool) (cancelSent canceled : ι → Bool) (cancel : ι → Canceling)
    (env : ι → State κ ι → State κ ι) (n : ℕ) : List ι × State κ ι × Bool :=
  s.traverse .io k (fun a s => s.visitIo R a all cancelSent canceled cancel) env n

/-- The traversal of `waits_` in `expire`. -/
def expireWaits (k : κ) (all : Bool) (interruptible canceled hook : ι → Bool)
    (env : ι → State κ ι → State κ ι) (n : ℕ) : List ι × State κ ι × Bool :=
  s.traverse .waits k (fun a s => s.visitWait R a all interruptible canceled hook) env n

end State

end Steps

/-! ### Lemmas about histories -/

section Histories

variable {kind : Kind} {log : List (Change κ ι)} {k : κ} {a : ι} {p : Place κ} {w : Work ι}
  {ins : κ → List ι} {out : List ι}

theorem inserted_eq_some_iff [DecidableEq κ] {c : Change κ ι} :
    c.inserted kind k = some a ↔ c = .insert kind k a := by
  cases c with
  | insert kind' k' b => simp [Change.inserted, and_assoc]
  | _ => exact ⟨nofun, nofun⟩

theorem removed_eq_some_iff {c : Change κ ι} : c.removed kind = some a ↔ c = .remove kind a := by
  cases c with
  | remove kind' b => simp [Change.removed]
  | _ => exact ⟨nofun, nofun⟩

theorem mem_insertions [DecidableEq κ] : a ∈ insertions kind log k ↔ .insert kind k a ∈ log := by
  simp only [insertions, mem_filterMap, inserted_eq_some_iff, exists_eq_right]

theorem mem_removals : a ∈ removals kind log ↔ .remove kind a ∈ log := by
  simp only [removals, mem_filterMap, removed_eq_some_iff, exists_eq_right]

theorem removals_subset (c : Change κ ι) (h : a ∈ removals kind log) :
    a ∈ removals kind (log ++ [c]) :=
  mem_removals.mpr (mem_append_left _ (mem_removals.mp h))

theorem Fresh.not_mem [DecidableEq κ] {s : State κ ι} (h : Fresh s kind a) :
    a ∉ insertions kind s.log k := fun hmem => h k (mem_insertions.mp hmem)

theorem insertions_concat_insert [DecidableEq κ] : insertions kind (log ++ [.insert kind k a]) =
    update (insertions kind log) k (insertions kind log k ++ [a]) := by
  funext k'
  rw [insertions, filterMap_append, update_apply]
  by_cases hk : k' = k
  · rw [if_pos hk, hk, filterMap_cons_some (inserted_eq_some_iff.mpr rfl)]
    rfl
  · have hnone : (Change.insert kind k a : Change κ ι).inserted kind k' = none :=
      if_neg fun h => hk h.2.symm
    rw [if_neg hk, filterMap_cons_none hnone, filterMap_nil, append_nil]
    rfl

theorem insertions_concat_of_ne [DecidableEq κ] {c : Change κ ι}
    (hc : ∀ k a, c ≠ .insert kind k a) : insertions kind (log ++ [c]) = insertions kind log := by
  funext k
  have hnone : c.inserted kind k = none :=
    Option.eq_none_iff_forall_ne_some.mpr fun a ha => hc k a (inserted_eq_some_iff.mp ha)
  rw [insertions, filterMap_append, filterMap_cons_none hnone, filterMap_nil,
    append_nil]
  rfl

theorem removals_concat_remove :
    removals kind (log ++ [.remove kind a]) = removals kind log ++ [a] := by
  rw [removals, filterMap_append, filterMap_cons_some (removed_eq_some_iff.mpr rfl)]
  rfl

theorem removals_concat_of_ne {c : Change κ ι} (hc : ∀ a, c ≠ .remove kind a) :
    removals kind (log ++ [c]) = removals kind log := by
  have hnone : c.removed kind = none :=
    Option.eq_none_iff_forall_ne_some.mpr fun a ha => hc a (removed_eq_some_iff.mp ha)
  rw [removals, filterMap_append, filterMap_cons_none hnone, filterMap_nil,
    append_nil]
  rfl

theorem mem_remaining [DecidableEq ι] : a ∈ remaining ins out k ↔ a ∈ ins k ∧ a ∉ out := by
  rw [remaining, mem_filter, decide_eq_true_iff]

/-- A node that was not taken out is put in. -/
theorem remaining_insert [DecidableEq κ] [DecidableEq ι] (ha : a ∉ out) :
    remaining (update ins k (ins k ++ [a])) out =
      update (remaining ins out) k (remaining ins out k ++ [a]) := by
  funext k'
  by_cases hk : k' = k
  · subst hk
    rw [update_self, remaining, update_self, filter_append]
    exact congrArg _ (filter_cons_of_pos (p := fun b => b ∉ out) (decide_eq_true ha))
  · rw [update_of_ne hk, remaining, update_of_ne hk]
    rfl

/-- A node is taken out. -/
theorem remaining_remove [DecidableEq ι] (hnodup : (ins k).Nodup) :
    remaining ins (out ++ [a]) k = (remaining ins out k).erase a := by
  have hrest : (remaining ins out k).Nodup := hnodup.filter _
  rw [hrest.erase_eq_filter, remaining, remaining, filter_filter]
  refine filter_congr fun b _ => Bool.eq_iff_iff.mpr ?_
  simp [and_comm, not_or]

variable [DecidableEq κ]

theorem fifo_concat (log : List (Change κ ι)) (c : Change κ ι) :
    fifo (log ++ [c]) p = Change.apply p (fifo log p) c := foldl_concat ..

/-- A change of one queue. -/
theorem fifo_concat_update {c : Change κ ι} (hc : ∀ p' l, p' ≠ p → Change.apply p' l c = l) :
    fifo (log ++ [c]) = update (fifo log) p (Change.apply p (fifo log p) c) := by
  funext p'
  rw [fifo_concat, update_apply]
  split_ifs with hp
  · rw [hp]
  · exact hc p' _ hp

theorem fifo_concat_push : fifo (log ++ [.push p w]) =
    update (fifo log) p (fifo log p ++ [w]) := by
  have hc (p' : Place κ) (l : List (Work ι)) (hp : p' ≠ p) :
      Change.apply p' l (.push p w) = l := if_neg (Ne.symm hp)
  rw [fifo_concat_update hc, Change.apply, if_pos rfl]

theorem fifo_concat_pop : fifo (log ++ [.pop p]) =
    update (fifo log) p (fifo log p).tail := by
  have hc (p' : Place κ) (l : List (Work ι)) (hp : p' ≠ p) :
      Change.apply p' l (.pop p) = l := if_neg (Ne.symm hp)
  rw [fifo_concat_update hc, Change.apply, if_pos rfl]

/-- What is in a queue was put into it. -/
theorem push_mem_of_mem_fifo (h : w ∈ fifo log p) : .push p w ∈ log := by
  induction log using List.reverseRecOn with
  | nil => cases h
  | append_singleton log c ih =>
    rw [fifo_concat] at h
    rw [mem_append, mem_singleton]
    cases c with
    | push p' w' =>
      rw [Change.apply] at h
      split_ifs at h with hp
      · rcases mem_append.mp h with h | h
        · exact .inl (ih h)
        · rw [hp, mem_singleton.mp h]
          exact .inr rfl
      · exact .inl (ih h)
    | pop p' =>
      rw [Change.apply] at h
      split_ifs at h with hp
      · exact .inl (ih (mem_of_mem_tail h))
      · exact .inl (ih h)
    | _ => exact .inl (ih h)

end Histories

section Arrange

variable {kind : Kind} {a : ι} {l : List ι}

theorem mem_arrange : a ∈ kind.arrange l ↔ a ∈ l := by
  rw [Kind.arrange]
  split_ifs
  · exact mem_reverse
  · exact Iff.rfl

theorem arrange_eq_nil : kind.arrange l = [] ↔ l = [] := by
  rw [Kind.arrange]
  split_ifs
  · exact reverse_eq_nil_iff
  · exact Iff.rfl

theorem arrange_of_back (h : kind.front = false) (l : List ι) : kind.arrange l = l := by
  rw [Kind.arrange, h]
  exact if_neg nofun

theorem arrange_erase [DecidableEq ι] (h : l.Nodup) :
    kind.arrange (l.erase a) = (kind.arrange l).erase a := by
  rw [Kind.arrange, Kind.arrange]
  split_ifs
  · rw [h.erase_eq_filter, (nodup_reverse.mpr h).erase_eq_filter, filter_reverse]
  · rfl

end Arrange

/-! ### The lists of one kind -/

section Tracked

variable [DecidableEq ι] {R : ι → κ} {kind : Kind} {N N' : Nodes κ ι}
  {ins : κ → List ι} {out : List ι} {a b : ι} {k : κ}

/-- The lists have the nodes that were put in and not taken out. A node that was never put in has
null pointers. -/
structure Tracked (R : ι → κ) (kind : Kind) (N : Nodes κ ι) (ins : κ → List ι) (out : List ι) :
    Prop where
  holds : N.Holds fun k => kind.arrange (remaining ins out k)
  last : kind.front = false → ∀ k, N.last k = (remaining ins out k).getLast?
  nodup : ∀ k, (ins k).Nodup
  owner : ∀ {k a}, a ∈ ins k → k = R a
  inserted : ∀ {a}, a ∈ out → a ∈ ins (R a)
  fresh : ∀ {a}, a ∉ ins (R a) → N.next a = none ∧ N.prev a = none
  linked : ∀ {a}, N.linked a = true ↔ a ∈ ins (R a) ∧ (kind = .event ∨ a ∉ out)

namespace Tracked

theorem init : Tracked R kind {} (fun _ => []) [] where
  holds := by
    have hnil : (fun k => kind.arrange (remaining (fun _ : κ => ([] : List ι)) [] k)) =
        fun _ => [] := funext fun _ => arrange_eq_nil.mpr rfl
    rw [hnil]
    exact LinkFamily.holds_init
  last _ _ := rfl
  nodup _ := nodup_nil
  owner := nofun
  inserted := nofun
  fresh _ := ⟨rfl, rfl⟩
  linked := ⟨nofun, nofun⟩

theorem not_mem (h : Tracked R kind N ins out) (hb : b ∉ ins (R b)) (k : κ) :
    b ∉ kind.arrange (remaining ins out k) := by
  intro hmem
  have hins : b ∈ ins k := (mem_remaining.mp (mem_arrange.mp hmem)).1
  exact hb (h.owner hins ▸ hins)

theorem mem (ha : a ∈ ins (R a)) (hout : a ∉ out) : a ∈ kind.arrange (remaining ins out (R a)) :=
  mem_arrange.mpr (mem_remaining.mpr ⟨ha, hout⟩)

variable [DecidableEq κ]

section

variable (h : Tracked R kind N ins out)
include h

/-- A node that has not been in a list is put in. -/
theorem insert (ha : a ∉ ins (R a))
    (hholds : N'.Holds (update (fun k => kind.arrange (remaining ins out k)) (R a)
      (kind.arrange (remaining ins out (R a) ++ [a]))))
    (hlast : kind.front = false → N'.last = update N.last (R a) (some a))
    (hsame : ∀ b, b ≠ a → b ∉ ins (R b) → N'.next b = N.next b ∧ N'.prev b = N.prev b)
    (hlinked : N'.linked = update N.linked a true) :
    Tracked R kind N' (update ins (R a) (ins (R a) ++ [a])) out := by
  have hout : a ∉ out := fun hmem => ha (h.inserted hmem)
  have hmem : ∀ {b k}, b ∈ update ins (R a) (ins (R a) ++ [a]) k ↔
      b ∈ ins k ∨ k = R a ∧ b = a := by
    intro b k
    by_cases hk : k = R a
    · subst hk
      rw [update_self, mem_append, mem_singleton, eq_self_iff_true, true_and]
    · rw [update_of_ne hk, eq_false hk, false_and, or_false]
  constructor
  case holds =>
    have hupdate := Function.comp_update kind.arrange (remaining ins out) (R a)
      (remaining ins out (R a) ++ [a])
    rw [← remaining_insert hout] at hupdate
    change N'.Holds (kind.arrange ∘ remaining (update ins (R a) (ins (R a) ++ [a])) out)
    rw [hupdate]
    exact hholds
  case last =>
    intro hfront k
    rw [hlast hfront, remaining_insert hout, update_apply, update_apply]
    split_ifs
    · exact List.getLast?_concat.symm
    · exact h.last hfront k
  case nodup =>
    intro k
    rw [update_apply]
    split_ifs
    · exact nodup_append.mpr ⟨h.nodup _, nodup_singleton a,
        fun b hb c hc => mem_singleton.mp hc ▸ ne_of_mem_of_not_mem hb ha⟩
    · exact h.nodup k
  case owner =>
    intro k b hb
    rcases hmem.mp hb with hb | ⟨rfl, rfl⟩
    · exact h.owner hb
    · rfl
  case inserted => exact fun hb => hmem.mpr (.inl (h.inserted hb))
  case fresh =>
    intro b hb
    rw [hmem, not_or] at hb
    have hne : b ≠ a := fun hba => hb.2 ⟨congrArg R hba, hba⟩
    rw [(hsame b hne hb.1).1, (hsame b hne hb.1).2]
    exact h.fresh hb.1
  case linked =>
    intro b
    rw [hlinked, hmem]
    by_cases hba : b = a
    · subst hba
      rw [update_self]
      exact ⟨fun _ => ⟨.inr ⟨rfl, rfl⟩, .inr hout⟩, fun _ => rfl⟩
    · rw [update_of_ne hba, eq_false hba, and_false, or_false]
      exact h.linked

/-- A node is taken out of its list. -/
theorem remove (ha : a ∈ ins (R a)) (hout : a ∉ out)
    (hfamily : N'.toLinkFamily = N.setLinks (R a) ((N.links (R a)).unlink a))
    (hlast : kind.front = false →
      N'.last = update N.last (R a) ((remaining ins out (R a)).erase a).getLast?)
    (hlinked : ∀ b, N'.linked b = if kind ≠ .event ∧ b = a then false else N.linked b) :
    Tracked R kind N' ins (out ++ [a]) := by
  have hin : a ∈ kind.arrange (remaining ins out (R a)) := mem ha hout
  rw [(h.holds.lists (R a)).unlink_eq_erase hin] at hfamily
  have herase : ∀ k, remaining ins (out ++ [a]) k = if k = R a then
      (remaining ins out (R a)).erase a else remaining ins out k := by
    intro k
    rw [remaining_remove (h.nodup k)]
    split_ifs with hk
    · rw [hk]
    · refine erase_of_not_mem fun hmem => hk ?_
      exact h.owner (mem_remaining.mp hmem).1
  have hmem : ∀ {b}, b ∈ out ++ [a] ↔ b ∈ out ∨ b = a := by simp
  constructor
  case holds =>
    have hupdate : (fun k => kind.arrange (remaining ins (out ++ [a]) k)) =
        update (fun k => kind.arrange (remaining ins out k)) (R a)
          ((kind.arrange (remaining ins out (R a))).erase a) := by
      funext k
      rw [herase, update_apply]
      split_ifs
      · exact arrange_erase ((h.nodup _).filter _)
      · rfl
    rw [hupdate, hfamily]
    exact h.holds.erase hin
  case last =>
    intro hfront k
    rw [hlast hfront, herase, update_apply]
    split_ifs
    · rfl
    · exact h.last hfront k
  case nodup => exact h.nodup
  case owner => exact h.owner
  case inserted =>
    intro b hb
    rcases hmem.mp hb with hb | rfl
    · exact h.inserted hb
    · exact ha
  case fresh =>
    intro b hb
    obtain ⟨hnext, hprev⟩ := (h.holds.lists (R a)).sameAt_erase hin (h.not_mem hb _)
    rw [hfamily]
    exact ⟨hnext.trans (h.fresh hb).1, hprev.trans (h.fresh hb).2⟩
  case linked =>
    intro b
    rw [hlinked, hmem, not_or]
    by_cases hevent : kind = .event
    · rw [if_neg fun hb => hb.1 hevent, h.linked, hevent]
      simp
    · by_cases hba : b = a
      · rw [if_pos ⟨hevent, hba⟩]
        exact ⟨nofun, fun hb => (hb.2.resolve_left hevent).2.elim hba⟩
      · rw [if_neg fun hb => hba hb.2, h.linked]
        simp [hba]

theorem pushFront (hfront : kind.front = true) (ha : a ∉ ins (R a)) :
    Tracked R kind (N.pushFront (R a) a) (update ins (R a) (ins (R a) ++ [a])) out := by
  refine h.insert ha ?_ (fun hback => ?_) (fun b hne hb => ?_) rfl
  · have hcons : kind.arrange (remaining ins out (R a) ++ [a]) =
        a :: kind.arrange (remaining ins out (R a)) := by
      rw [Kind.arrange, Kind.arrange, if_pos hfront, if_pos hfront, reverse_concat]
    rw [hcons]
    exact h.holds.pushFront (R a) (h.not_mem ha) (h.fresh ha).2
  · exact absurd (hfront.symm.trans hback) nofun
  · exact (h.holds.lists (R a)).sameAt_pushFront (h.not_mem hb _) hne

theorem append (hback : kind.front = false) (ha : a ∉ ins (R a)) :
    Tracked R kind (N.append (R a) a) (update ins (R a) (ins (R a) ++ [a])) out := by
  have hlast : N.last (R a) = (kind.arrange (remaining ins out (R a))).getLast? := by
    rw [h.last hback, arrange_of_back hback]
  have hfamily : (N.append (R a) a).toLinkFamily = N.setLinks (R a) ((N.links (R a)).append
      (kind.arrange (remaining ins out (R a))).getLast? a) := by
    rw [← hlast]
    rfl
  refine h.insert ha ?_ (fun _ => rfl) (fun b hne hb => ?_) rfl
  · have hconcat : kind.arrange (remaining ins out (R a) ++ [a]) =
        kind.arrange (remaining ins out (R a)) ++ [a] := by
      rw [arrange_of_back hback, arrange_of_back hback]
    rw [hfamily, hconcat]
    exact h.holds.append (R a) (h.not_mem ha) (h.fresh ha).1
  · rw [hfamily]
    exact Links.sameAt_append (h.not_mem hb _) hne

theorem unlink_reset (hfront : kind.front = true) (hevent : kind ≠ .event) (ha : a ∈ ins (R a))
    (hout : a ∉ out) : Tracked R kind ((N.unlink (R a) a).reset a) ins (out ++ [a]) := by
  refine h.remove ha hout rfl (fun hback => ?_) fun b => ?_
  · exact absurd (hfront.symm.trans hback) nofun
  · simp [Nodes.reset, Nodes.unlink, update_apply, hevent]

end

theorem unlink_event (h : Tracked R .event N ins out) (ha : a ∈ ins (R a)) (hout : a ∉ out) :
    Tracked R .event (N.unlink (R a) a) ins (out ++ [a]) :=
  h.remove ha hout rfl nofun fun _ => (if_neg fun hb => hb.1 rfl).symm

theorem unlinkLast_reset (h : Tracked R kind N ins out) (hback : kind.front = false)
    (ha : a ∈ ins (R a)) (hout : a ∉ out) :
    Tracked R kind ((N.unlinkLast (R a) a).reset a) ins (out ++ [a]) := by
  have hevent : kind ≠ .event := by
    rintro rfl
    cases hback
  refine h.remove ha hout rfl (fun _ => ?_) fun b => ?_
  · have hlists := h.holds.lists (R a)
    have hmem : a ∈ kind.arrange (remaining ins out (R a)) := mem ha hout
    have hgetLast := hlists.getLast?_erase hmem
    rw [arrange_of_back hback, ← h.last hback] at hgetLast
    -- the link forward is read after the first assignment
    have hnext : ((N.links (R a)).setNext (N.prev a) (N.next a)).next a = N.next a :=
      hlists.next_setNext_prev hmem (N.next a)
    change (if ((N.links (R a)).setNext (N.prev a) (N.next a)).next a = none then
      update N.last (R a) (((N.links (R a)).setNext (N.prev a) (N.next a)).prev a)
      else N.last) = _
    rw [Links.prev_setNext, hnext, hgetLast]
    change _ = update N.last (R a) (if N.next a = none then N.prev a else N.last (R a))
    split_ifs
    · rfl
    · exact (update_eq_self ..).symm
  · simp [Nodes.reset, Nodes.unlinkLast, update_apply, hevent]

/-- Taking off the first node is the same as taking it out. -/
theorem popFront_eq_unlink (h : Tracked R kind N ins out) (ha : a ∈ ins (R a)) (hout : a ∉ out)
    (hprev : N.prev a = none) : N.popFront (R a) a = N.unlink (R a) a := by
  have hprev' : (N.links (R a)).prev a = none := hprev
  rw [Nodes.popFront, Nodes.unlink, (h.holds.lists (R a)).unlink_eq_erase (mem ha hout),
    Links.popFront_eq_erase hprev']

end Tracked

end Tracked

/-! ### The invariant -/

section Sound

variable [DecidableEq κ] [DecidableEq ι] {R : Kind → ι → κ} {s t : State κ ι} {kind : Kind}
  {a : ι} {k : κ} {p : Place κ} {w : Work ι}

/-- The node of a list whose base is queued when it has been taken out. -/
def Work.node : Work ι → Option (Kind × ι)
  | .io a => some (.io, a)
  | .wait a => some (.waits, a)
  | .delivery a => some (.remote, a)
  | .work _ | .message _ => none

/-- The list whose nodes a change concerns. -/
def Change.concerns : Change κ ι → Option Kind
  | .insert kind _ _ | .remove kind _ => some kind
  | .push _ _ | .pop _ => none

/-- The lists and queues are as their history says, and what was queued had been taken out. -/
structure Sound (R : Kind → ι → κ) (s : State κ ι) : Prop where
  nodes : ∀ kind, Tracked (R kind) kind (s.nodes kind) (insertions kind s.log)
    (removals kind s.log)
  ready : s.ready.Holds (fifo s.log)
  pushed : ∀ {p w kind a}, .push p w ∈ s.log → w.node = some (kind, a) →
    a ∈ removals kind s.log

namespace Sound

theorem init : Sound R {} where
  nodes _ := Tracked.init
  ready := LinkQueue.holds_init
  pushed := nofun

section

variable (hs : Sound R s)
include hs

/-- The flag of an operation, a waiter, a channel node or a remote waiter says that it is in its
list. -/
theorem mem_of_linked (h : (s.nodes kind).linked a = true) (hkind : kind ≠ .event) :
    a ∈ insertions kind s.log (R kind a) ∧ a ∉ removals kind s.log := by
  obtain ⟨hins, hout⟩ := (hs.nodes kind).linked.mp h
  exact ⟨hins, hout.resolve_left hkind⟩

/-- A node that is in its list is in no queue. -/
theorem not_mem_fifo (ha : a ∉ removals kind s.log)
    (hw : w.node = some (kind, a)) (p : Place κ) : w ∉ fifo s.log p :=
  fun hmem => ha (hs.pushed (push_mem_of_mem_fifo hmem) hw)

/-- A change of the lists of one kind. -/
theorem change {N : Nodes κ ι} {c : Change κ ι} (hc : c.concerns = some kind)
    (hN : Tracked (R kind) kind N (insertions kind (s.log ++ [c])) (removals kind (s.log ++ [c]))) :
    Sound R (s.change kind N c) := by
  refine ⟨fun kind' => ?_, ?_, fun {p w kind' a} hmem hw => ?_⟩
  · by_cases hkind : kind' = kind
    · subst hkind
      rw [State.change]
      dsimp only
      rwa [update_self]
    · have hins : insertions kind' (s.log ++ [c]) = insertions kind' s.log := by
        refine insertions_concat_of_ne ?_
        rintro k a rfl
        exact hkind (Option.some.inj hc)
      have hout : removals kind' (s.log ++ [c]) = removals kind' s.log := by
        refine removals_concat_of_ne ?_
        rintro a rfl
        exact hkind (Option.some.inj hc)
      rw [State.change]
      dsimp only
      rw [update_of_ne hkind, hins, hout]
      exact hs.nodes kind'
  · have hfifo : fifo (s.log ++ [c]) = fifo s.log := by
      funext p
      rw [fifo_concat]
      cases c with
      | insert | remove => rfl
      | push | pop => cases hc
    rw [State.change]
    dsimp only
    rw [hfifo]
    exact hs.ready
  · rcases mem_append.mp hmem with hmem | hmem
    · exact removals_subset c (hs.pushed hmem hw)
    · obtain rfl := mem_singleton.mp hmem
      cases hc

theorem link (hfront : kind.front = true) (h : Fresh s kind a) : Sound R (s.link R a kind) := by
  refine hs.change rfl ?_
  rw [insertions_concat_insert, removals_concat_of_ne nofun]
  exact (hs.nodes kind).pushFront hfront h.not_mem

theorem append (hback : kind.front = false) (h : Fresh s kind a) : Sound R (s.append R a kind) := by
  refine hs.change rfl ?_
  rw [insertions_concat_insert, removals_concat_of_ne nofun]
  exact (hs.nodes kind).append hback h.not_mem

/-- A node is taken out of a list. -/
theorem remove {N : Nodes κ ι}
    (h : Tracked (R kind) kind N (insertions kind s.log) (removals kind s.log ++ [a])) :
    Sound R (s.change kind N (.remove kind a)) := by
  refine hs.change rfl ?_
  rwa [insertions_concat_of_ne nofun, removals_concat_remove]

/-- A queue operation leaves the lists alone. -/
theorem tracked_concat {c : Change κ ι} (hc : c.concerns = none) (kind : Kind) :
    Tracked (R kind) kind (s.nodes kind) (insertions kind (s.log ++ [c]))
      (removals kind (s.log ++ [c])) := by
  rw [insertions_concat_of_ne, removals_concat_of_ne]
  · exact hs.nodes kind
  · rintro a rfl
    cases hc
  · rintro k a rfl
    cases hc

/-- Something that is in no queue is queued. -/
theorem push (p : Place κ) (hfree : ∀ p, w ∉ fifo s.log p)
    (hw : ∀ {kind a}, w.node = some (kind, a) → a ∈ removals kind s.log) :
    Sound R (s.push p w) := by
  refine ⟨hs.tracked_concat rfl, ?_, fun {p' w' kind a} hmem hw' => ?_⟩
  · rw [State.push]
    dsimp only
    rw [fifo_concat_push]
    exact hs.ready.push p hfree
  · rcases mem_append.mp hmem with hmem | hmem
    · exact removals_subset _ (hs.pushed hmem hw')
    · cases mem_singleton.mp hmem
      exact removals_subset _ (hw hw')

theorem pop (p : Place κ) : Sound R (s.pop p).2 := by
  refine ⟨hs.tracked_concat rfl, ?_, fun {p' w' kind a} hmem hw' => ?_⟩
  · rw [State.pop]
    dsimp only
    rw [fifo_concat_pop]
    exact (hs.ready.pop p).2.2
  · rcases mem_append.mp hmem with hmem | hmem
    · exact removals_subset _ (hs.pushed hmem hw')
    · cases mem_singleton.mp hmem

/-! ### The functions -/

/-- A node of `io_` or `waits_` is taken out. -/
theorem unlink_reset (h : (s.nodes kind).linked a = true)
    (hfront : kind.front = true) (hevent : kind ≠ .event) : Sound R
      (s.change kind (((s.nodes kind).unlink (R kind a) a).reset a) (.remove kind a)) := by
  obtain ⟨hins, hout⟩ := hs.mem_of_linked h hevent
  exact hs.remove ((hs.nodes kind).unlink_reset hfront hevent hins hout)

/-- The base of a node that has just been taken out is queued. -/
theorem push_of_remove {N : Nodes κ ι} (ht : Sound R (s.change kind N (.remove kind a)))
    (ha : a ∉ removals kind s.log) (hw : w.node = some (kind, a)) (p : Place κ) :
    Sound R ((s.change kind N (.remove kind a)).push p w) := by
  refine ht.push p (fun p' => ?_) fun {kind' a'} hw' => ?_
  · have hfifo : fifo (s.change kind N (.remove kind a)).log p' = fifo s.log p' := fifo_concat ..
    rw [hfifo]
    exact hs.not_mem_fifo ha hw p'
  · cases hw.symm.trans hw'
    exact mem_removals.mpr mem_concat_self

theorem complete (retire : Bool) (h : (s.nodes .io).linked a = true) :
    Sound R (s.complete R a retire) := by
  have ht := hs.unlink_reset h rfl nofun
  rw [State.complete]
  split_ifs
  · exact ht
  · exact hs.push_of_remove ht (hs.mem_of_linked h nofun).2 rfl _

theorem notify (a : ι) : Sound R (s.notify R a) := by
  rw [State.notify]
  split_ifs with h
  · exact hs.push_of_remove (hs.unlink_reset h rfl nofun) (hs.mem_of_linked h nofun).2 rfl _
  · exact hs

end

/-- An operation that has just been linked. -/
theorem linked_link : ((s.link R a kind).nodes kind).linked a = true := by
  rw [State.link, State.change]
  dsimp only
  rw [update_self]
  exact update_self ..

/-- The operation is the first one when `submit` throws. -/
theorem prev_link (hs : Sound R s) (h : Fresh s kind a) :
    ((s.link R a kind).nodes kind).prev a = none := by
  have hnodes := hs.nodes kind
  have hprev := ((hnodes.holds.lists (R kind a)).pushFront (hnodes.not_mem h.not_mem _)
    (hnodes.fresh h.not_mem).2).chain.1
  rw [State.link, State.change]
  dsimp only
  rw [update_self]
  exact hprev

theorem awaitSuspend (hs : Sound R s) (submission : State.Submission) (h : Fresh s .io a) :
    Sound R (s.awaitSuspend R a submission) := by
  have ht : Sound R (s.link R a .io) := hs.link rfl h
  cases submission with
  | pending => exact ht
  | completed retire => exact ht.complete retire linked_link
  | failed =>
    obtain ⟨hins, hout⟩ := ht.mem_of_linked linked_link nofun
    rw [State.awaitSuspend, (ht.nodes .io).popFront_eq_unlink hins hout (hs.prev_link h)]
    exact ht.unlink_reset linked_link rfl nofun

/-- A node that has not been in a list of one kind is put into one of another. -/
theorem fresh_link {kind' : Kind} (h : Fresh s kind a) (hkind : kind ≠ kind') :
    Fresh (s.link R a kind') kind a := by
  intro k hmem
  rcases mem_append.mp hmem with hmem | hmem
  · exact h k hmem
  · cases mem_singleton.mp hmem
    exact hkind rfl

section

variable (hs : Sound R s)
include hs

theorem park (h : Fresh s .waits a) : Sound R (s.park R a) := hs.link rfl h

theorem listen (set : Bool) (h : Fresh s .waits a) (h' : Fresh s .event a) :
    Sound R (s.listen R a set) := by
  have ht := (hs.park h).link rfl (fresh_link (R := R) h' nofun)
  rw [State.listen]
  split_ifs
  · exact ht.notify a
  · exact ht

theorem destroy (h : .remove .event a ∉ s.log) : Sound R (s.destroy R a) := by
  rw [State.destroy]
  split_ifs with hlinked
  · have hins := ((hs.nodes .event).linked.mp hlinked).1
    exact hs.remove ((hs.nodes .event).unlink_event hins (mt mem_removals.mp h))
  · exact hs

theorem unlink (hback : kind.front = false)
    (h : (s.nodes kind).linked a = true) : Sound R (s.unlink R a kind) := by
  have hevent : kind ≠ .event := by
    rintro rfl
    cases hback
  obtain ⟨hins, hout⟩ := hs.mem_of_linked h hevent
  exact hs.remove ((hs.nodes kind).unlinkLast_reset hback hins hout)

theorem interrupt (a : ι) : Sound R (s.interrupt R a) := by
  rw [State.interrupt]
  split_ifs with h
  · exact (hs.unlink rfl h).notify a
  · exact hs

theorem deliver (h : (s.nodes .remote).linked a = true) : Sound R (s.deliver R a) :=
  hs.push_of_remove (hs.unlink rfl h) (hs.mem_of_linked h nofun).2 rfl _

/-- A message moves from one queue to another. -/
theorem detach (k : κ) : Sound R (s.detach k) := by
  have ht := hs.pop (.messages k)
  obtain ⟨hhead, -, -⟩ := hs.ready.pop (.messages k)
  rw [State.detach]
  cases hpop : s.pop (.messages k) with
  | mk w t =>
    rw [hpop] at ht
    cases w with
    | none => exact ht
    | some w =>
      have hw : (s.ready.pop (.messages k)).1 = some w := congrArg Prod.fst hpop
      have hlog : t.log = s.log ++ [.pop (.messages k)] :=
        congrArg State.log (congrArg Prod.snd hpop).symm
      obtain ⟨l, hl⟩ := List.head?_eq_some_iff.mp (hhead.symm.trans hw)
      have hmem : w ∈ fifo s.log (.messages k) := hl ▸ mem_cons_self
      refine ht.push _ (fun p hp => ?_) fun {kind a} hnode => ?_
      · -- the message was once in its queue, and in no other
        rw [hlog, fifo_concat_pop] at hp
        by_cases hmessages : p = .messages k
        · rw [hmessages, update_self, hl] at hp
          exact (nodup_cons.mp (hl ▸ hs.ready.nodup (.messages k))).1 hp
        · rw [update_of_ne hmessages] at hp
          exact hmessages (hs.ready.apart hp hmem)
      · rw [hlog]
        exact removals_subset _ (hs.pushed (push_mem_of_mem_fifo hmem) hnode)

/-- Each function keeps the invariant. -/
theorem step (h : Step R s t) : Sound R t := by
  cases h with
  | awaitSuspend a submission fresh => exact hs.awaitSuspend submission fresh
  | complete a retire active => exact hs.complete retire active
  | park a fresh => exact hs.park fresh
  | notify a => exact hs.notify a
  | listen a set fresh fresh' => exact hs.listen set fresh fresh'
  | destroy a once => exact hs.destroy once
  | await a fresh fresh' => exact (hs.park fresh).append rfl (fresh_link fresh' nofun)
  | unlink a linked => exact hs.unlink rfl linked
  | enqueue a fresh fresh' => exact (hs.park fresh).append rfl (fresh_link fresh' nofun)
  | interrupt a => exact hs.interrupt a
  | deliver a linked => exact hs.deliver linked
  | finish k a free => exact hs.push _ free nofun
  | send k a free => exact hs.push _ free nofun
  | detach k => exact hs.detach k
  | run k => exact hs.pop _
  | resume k => exact hs.pop _

end

end Sound

/-- The lists and queues are as their history says after any sequence of insertions and removals. -/
theorem Reachable.sound (h : Reachable R s) : Sound R s := by
  induction h with
  | init => exact Sound.init
  | step _ hstep ih => exact ih.step hstep

/-! ### Traversals with removals -/

theorem present_concat_of_ne {log : List (Change κ ι)} {c : Change κ ι}
    (hc : c.concerns ≠ some kind) : present kind (log ++ [c]) k = present kind log k := by
  rw [present, insertions_concat_of_ne, removals_concat_of_ne]
  · rfl
  · rintro a rfl
    exact hc rfl
  · rintro k a rfl
    exact hc rfl

theorem present_push : present kind (s.push p w).log k = present kind s.log k :=
  present_concat_of_ne nofun

theorem Sound.present_remove (hs : Sound R s) :
    present kind (s.log ++ [.remove kind a]) k = (present kind s.log k).erase a := by
  rw [present, insertions_concat_of_ne nofun, removals_concat_remove]
  exact remaining_remove ((hs.nodes kind).nodup k)

theorem Sound.present_complete (hs : Sound R s) (retire : Bool) :
    present .io (s.complete R a retire).log k = (present .io s.log k).erase a := by
  rw [State.complete]
  split_ifs
  · exact hs.present_remove
  · exact present_push.trans hs.present_remove

/-- A waiter that is notified is taken out, or was not in the list. -/
theorem Sound.present_notify (hs : Sound R s) (a : ι) (k : κ) :
    present .waits (s.notify R a).log k = present .waits s.log k ∨
      present .waits (s.notify R a).log k = (present .waits s.log k).erase a := by
  rw [State.notify]
  split_ifs
  · exact .inr (present_push.trans hs.present_remove)
  · exact .inl rfl

theorem Sound.present_interrupt (hs : Sound R s) (a : ι) (k : κ) :
    present .waits (s.interrupt R a).log k = present .waits s.log k ∨
      present .waits (s.interrupt R a).log k = (present .waits s.log k).erase a := by
  rw [State.interrupt]
  split_ifs with h
  · have hunlink : present .waits (s.unlink R a .remote).log k = present .waits s.log k :=
      present_concat_of_ne nofun
    rw [← hunlink]
    exact (hs.unlink rfl h).present_notify a k
  · exact .inl rfl

/-- What other threads do leaves a list alone. -/
def Elsewhere (R : Kind → ι → κ) (kind : Kind) (k : κ) (s t : State κ ι) : Prop :=
  Reachable R t ∧ present kind t.log k = present kind s.log k

/-- The nodes of a list, in the order of a traversal. -/
def State.list (s : State κ ι) (kind : Kind) (k : κ) : List ι := kind.arrange (present kind s.log k)

theorem Sound.lists (hs : Sound R s) (kind : Kind) (k : κ) :
    ((s.nodes kind).links k).Lists (s.list kind k) := (hs.nodes kind).holds.lists k

/-- The list after the node that is visited was left in it or taken out. -/
theorem Sound.list_eq (hs : Sound R s) {l₁ l₂ : List ι} (hl : s.list kind k = l₁ ++ a :: l₂)
    (ht : present kind t.log k = present kind s.log k ∨
      present kind t.log k = (present kind s.log k).erase a) :
    t.list kind k = l₁ ++ a :: l₂ ∨ t.list kind k = l₁ ++ l₂ := by
  have hnodup : (l₁ ++ a :: l₂).Nodup := hl ▸ (hs.lists kind k).nodup
  rcases ht with ht | ht
  · exact .inl (by rw [State.list, ht, ← hl, State.list])
  · refine .inr ?_
    have ha : a ∉ l₁ := fun hmem =>
      (nodup_append.mp hnodup).2.2 a hmem a mem_cons_self rfl
    have herase : t.list kind k = (s.list kind k).erase a :=
      (congrArg kind.arrange ht).trans (arrange_erase (((hs.nodes kind).nodup k).filter _))
    rw [herase, hl, erase_append_right _ ha, erase_cons_head]

/-- A traversal visits each node once and in order. It ends early only if something was thrown. -/
structure Visits (R : Kind → ι → κ) (l : List ι) (r : List ι × State κ ι × Bool) : Prop where
  inOrder : r.1 <+: l
  all : r.2.2 = true → r.1 = l
  reachable : Reachable R r.2.1

/-- A traversal on which a node may be taken out when it is visited. -/
theorem Reachable.traverse (h : Reachable R s) {visit : ι → State κ ι → State κ ι × Bool}
    (hvisit : ∀ {a s}, Reachable R s → a ∈ present kind s.log k → Reachable R (visit a s).1 ∧
      (present kind (visit a s).1.log k = present kind s.log k ∨
        present kind (visit a s).1.log k = (present kind s.log k).erase a))
    {env : ι → State κ ι → State κ ι} (henv : ∀ a s, Reachable R s → Elsewhere R kind k s (env a s))
    {n : ℕ} (hn : (s.list kind k).length ≤ n) :
    Visits R (s.list kind k) (s.traverse kind k visit env n) := by
  have hhead : (s.nodes kind).head k = (s.list kind k).head? := (h.sound.lists kind k).head
  have hstep : ∀ {a : ι} {s : State κ ι} {l₁ l₂ : List ι}, Reachable R s →
      s.list kind k = l₁ ++ a :: l₂ → Reachable R (env a (visit a s).1) ∧
        ((env a (visit a s).1).list kind k = l₁ ++ a :: l₂ ∨
          (env a (visit a s).1).list kind k = l₁ ++ l₂) := by
    intro a s l₁ l₂ hs hl
    have hmem : a ∈ s.list kind k := hl ▸ mem_append_cons_self
    obtain ⟨ht, hpresent⟩ := hvisit hs (mem_arrange.mp hmem)
    obtain ⟨hreach, hsame⟩ := henv a _ ht
    rw [← hsame] at hpresent
    exact ⟨hreach, hs.sound.list_eq hl hpresent⟩
  have hscan := Linked.scan_eq (fun s : State κ ι => (s.nodes kind).next)
    (fun a s => (env a (visit a s).1, (visit a s).2)) (fun s => s.list kind k)
    (fun hs => (hs.sound.lists kind k).chain.linked) hstep h suffix_rfl hn
  rw [State.traverse, hhead]
  exact ⟨hscan.1, hscan.2.1, hscan.2.2⟩

/-- The traversal of `io_` visits the operations that there were. -/
theorem Reachable.expireIo (h : Reachable R s) {all : Bool} {cancelSent canceled : ι → Bool}
    {cancel : ι → State.Canceling} {env : ι → State κ ι → State κ ι}
    (henv : ∀ a s, Reachable R s → Elsewhere R .io k s (env a s)) {n : ℕ}
    (hn : (s.list .io k).length ≤ n) :
    Visits R (s.list .io k) (s.expireIo R k all cancelSent canceled cancel env n) := by
  refine h.traverse (fun {a s} hs hmem => ?_) henv hn
  rw [State.visitIo]
  split_ifs
  · cases cancel a with
    | sent => exact ⟨hs, .inl rfl⟩
    | failed => exact ⟨hs, .inl rfl⟩
    | completed =>
      obtain ⟨hins, hout⟩ := mem_remaining.mp hmem
      have hnodes := hs.sound.nodes .io
      have hactive : (s.nodes .io).linked a = true :=
        hnodes.linked.mpr ⟨hnodes.owner hins ▸ hins, .inr hout⟩
      exact ⟨hs.step (.complete a false hactive), .inr (hs.sound.present_complete false)⟩
  · exact ⟨hs, .inl rfl⟩

/-- The traversal of `waits_` visits the waiters that there were. -/
theorem Reachable.expireWaits (h : Reachable R s) {all : Bool}
    {interruptible canceled hook : ι → Bool} {env : ι → State κ ι → State κ ι}
    (henv : ∀ a s, Reachable R s → Elsewhere R .waits k s (env a s)) {n : ℕ}
    (hn : (s.list .waits k).length ≤ n) :
    Visits R (s.list .waits k) (s.expireWaits R k all interruptible canceled hook env n) := by
  refine h.traverse (fun {a s} hs _ => ?_) henv hn
  rw [State.visitWait]
  split_ifs
  · exact ⟨hs.step (.interrupt a), hs.sound.present_interrupt a k⟩
  · exact ⟨hs.step (.notify a), hs.sound.present_notify a k⟩
  · exact ⟨hs, .inl rfl⟩

/-- Nothing is thrown on the traversal of `waits_`. -/
theorem expireWaits_ok (s : State κ ι) (R : Kind → ι → κ) (k : κ) (all : Bool)
    (interruptible canceled hook : ι → Bool) (env : ι → State κ ι → State κ ι) (n : ℕ) :
    (s.expireWaits R k all interruptible canceled hook env n).2.2 = true := by
  refine Linked.scan_ok (fun a s => ?_) ..
  change (s.visitWait R a all interruptible canceled hook).2 = true
  rw [State.visitWait]
  split_ifs <;> rfl

/-! ### The result -/

/-- A traversal from the head yields the nodes `l`, and the links are inverse to each other. -/
structure Traversable (L : Links ι) (l : List ι) : Prop where
  walk : ∀ n, l.length ≤ n → Linked.walk L.next n L.head = l
  nodup : l.Nodup
  prev_of_next : ∀ a ∈ l, ∀ b, L.next a = some b → b ∈ l ∧ L.prev b = some a
  next_of_prev : ∀ a ∈ l, ∀ b, L.prev a = some b → b ∈ l ∧ L.next b = some a
  head_eq_none : L.head = none ↔ l = []

omit [DecidableEq ι] in
theorem Traversable.of_lists {L : Links ι} {l : List ι} (h : L.Lists l) : Traversable L l where
  walk _ hn := h.walk_eq hn
  nodup := h.nodup
  prev_of_next a ha b hnext := by
    have hb : b ∈ l := h.mem_of_next ha hnext
    exact ⟨hb, (h.next_eq_some_iff ha hb).mp hnext⟩
  next_of_prev a ha b hprev := by
    have hb : b ∈ l := h.mem_of_prev ha hprev
    exact ⟨hb, (h.next_eq_some_iff hb ha).mpr hprev⟩
  head_eq_none := h.head_eq_none_iff

/-- A queue has the contents `l`, `pop` returns the first of them, and leaves its link null. -/
structure IsFifo (Q : LinkQueue (Place κ) (Work ι)) (p : Place κ) (l : List (Work ι)) : Prop where
  walk : ∀ n, l.length ≤ n → Linked.walk Q.next n (Q.head p) = l
  head_eq_none : Q.head p = none ↔ l = []
  tail_eq_none : Q.tail p = none ↔ l = []
  pop_eq : (Q.pop p).1 = l.head?
  next_pop : ∀ w ∈ (Q.pop p).1, (Q.pop p).2.next w = none

theorem IsFifo.of_holds {Q : LinkQueue (Place κ) (Work ι)} {l : Place κ → List (Work ι)}
    (h : Q.Holds l) (p : Place κ) : IsFifo Q p (l p) where
  walk _ hn := h.walk_eq hn
  head_eq_none := h.head_eq_none_iff
  tail_eq_none := h.tail_eq_none_iff
  pop_eq := (h.pop p).1
  next_pop := (h.pop p).2.1

/-- **The intrusive lists are well-formed after any sequence of insertions and removals.** For every
list the traversal from the head yields the nodes that were put in and not taken out, in the order
in which they were put in, reversed where nodes are put in front. The links are inverse to each
other, and the pointers to the first and the last node are null if and only if the list is empty.
The instances of `ready_queue` have the contents of first-in-first-out queues, and whatever is in
none of them has a null link. The traversals of `expire` visit each node that was there at the
beginning once, unless `cancel` throws, and then no node twice. -/
theorem lists_stay_well_formed (h : Reachable R s) :
    (∀ kind k, Traversable ((s.nodes kind).links k) (kind.arrange (present kind s.log k))) ∧
    (∀ kind k, kind.front = false →
      ((s.nodes kind).last k = none ↔ present kind s.log k = [])) ∧
    (∀ p, IsFifo s.ready p (fifo s.log p)) ∧
    (∀ w, (∀ p, w ∉ fifo s.log p) → s.ready.next w = none) ∧
    (∀ k all cancelSent canceled cancel env n,
      (∀ a s, Reachable R s → Elsewhere R .io k s (env a s)) →
      (present .io s.log k).length ≤ n →
      Visits R (present .io s.log k).reverse
        (s.expireIo R k all cancelSent canceled cancel env n)) ∧
    (∀ k all interruptible canceled hook env n,
      (∀ a s, Reachable R s → Elsewhere R .waits k s (env a s)) →
      (present .waits s.log k).length ≤ n →
      Visits R (present .waits s.log k).reverse
          (s.expireWaits R k all interruptible canceled hook env n) ∧
        (s.expireWaits R k all interruptible canceled hook env n).1 =
          (present .waits s.log k).reverse) := by
  have hs := h.sound
  refine ⟨fun kind k => .of_lists (hs.lists kind k), fun kind k hback => ?_,
    fun p => .of_holds hs.ready p, fun w => hs.ready.free, ?_, ?_⟩
  · rw [(hs.nodes kind).last hback k]
    exact List.getLast?_eq_none_iff
  · intro k all cancelSent canceled cancel env n henv hn
    exact h.expireIo henv (Nat.le_trans (Nat.le_of_eq length_reverse) hn)
  · intro k all interruptible canceled hook env n henv hn
    have hvisits : Visits R (present .waits s.log k).reverse
        (s.expireWaits R k all interruptible canceled hook env n) :=
      h.expireWaits henv (Nat.le_trans (Nat.le_of_eq length_reverse) hn)
    exact ⟨hvisits, hvisits.all (expireWaits_ok ..)⟩

end Sound

/-- Three waiters listen to an event, and the second one is notified and destroyed. -/
def heardState : State (Fin 1) ℕ :=
  let R : Kind → ℕ → Fin 1 := fun _ _ => 0
  ((((State.listen {} R 1 false).listen R 2 false).listen R 3 false).notify R 2).destroy R 2

theorem reachable_heardState : Reachable (fun _ _ => 0) heardState := by
  have h₁ : Reachable (fun _ _ => 0) (State.listen {} (fun _ _ => (0 : Fin 1)) 1 false) :=
    Reachable.init.step (.listen 1 false (fun _ => nofun) fun _ => nofun)
  have h₂ := h₁.step (.listen 2 false (by unfold Fresh; decide) (by unfold Fresh; decide))
  have h₃ := h₂.step (.listen 3 false (by unfold Fresh; decide) (by unfold Fresh; decide))
  exact (h₃.step (.notify 2)).step (.destroy 2 (by decide))

/-- The other waiters are found in the list of the event, the last one first, and in `waits_`. -/
theorem lists_stay_well_formed_heardState :
    Linked.walk (heardState.nodes .event).next 5 ((heardState.nodes .event).head 0) = [3, 1] ∧
    (heardState.expireWaits (fun _ _ => 0) 0 true (fun _ => true) (fun _ => false)
      (fun _ => false) (fun _ s => s) 5).1 = [3, 1] ∧
    (heardState.ready.pop (.ready 0)).1 = some (.wait 2) := by
  obtain ⟨hlists, -, hqueues, -, -, hwaits⟩ := lists_stay_well_formed reachable_heardState
  exact ⟨(hlists .event 0).walk 5 (by decide),
    (hwaits 0 true _ _ _ _ 5 (fun _ _ hs => ⟨hs, rfl⟩) (by decide)).2,
    (hqueues (.ready 0)).pop_eq⟩

end Snowy.Intrusive
