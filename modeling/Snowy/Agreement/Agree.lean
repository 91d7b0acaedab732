import Snowy.Agreement.OfChannel
import Snowy.Agreement.OfMailbox

/-!
# Channel and mailbox agree

A channel and a mailbox that are used by one loop give every operation the same result. The calls
are the same on both; in between each side does chores of its own, at any time. The channel keeps
the nodes of canceled waiters until they are destroyed and completes waiters at once; the mailbox
unlinks them at once and completes them with messages. Both are the same desk.

The one difference is `close()`. A waiter whose cancellation is pending gets `operation_canceled`
from the mailbox, and from the channel what all others get. So no such waiter may be there.

## Main definitions

* `Snowy.World.deskRun`, `Snowy.Mail.deskRun` : the runs that are compared.
* `Snowy.World.Calm` : no waiter has its flag set when the channel is closed.
* `Snowy.World.immediate`, `Snowy.World.result` : what an operation has returned and its result.

## Main results

* `Snowy.channel_mailbox_agree` : both sides agree on every operation and on the buffer.
-/

namespace Snowy

variable {α : Type*}

/-- What a call does at once. -/
inductive Immediate where
  | done
  | parked
  | refused
  deriving DecidableEq, Repr

/-! ### Runs of a desk -/

namespace Desk

/-- No operation that waits is flagged when the queue is closed. -/
def Calm : Desk α → List (Item α) → Prop
  | _, [] => True
  | d, item :: items =>
    (item = .close → ∀ i ∈ d.waiting, d.flagged i = false) ∧ Calm (d.perform item) items

end Desk

/-! ### Runs of the channel -/

namespace World

variable (H : HeapRange ℕ ℤ)

/-- A call on the channel, or a chore. -/
def deskStep (w : World α) : Desk.Item α ⊕ Chore → World α
  | .inl item => w.perform H item
  | .inr a => w.chore a

/-- The state after a sequence of calls and chores. -/
def deskRun (w : World α) (ls : List (Desk.Item α ⊕ Chore)) : World α := ls.foldl (deskStep H) w

/-- No waiter has its flag set when the channel is closed. -/
def Calm : World α → List (Desk.Item α ⊕ Chore) → Prop
  | _, [] => True
  | w, l :: ls =>
    (l = .inl .close → ∀ i ∈ (w.channel 0).waiters, (w.op i).active = true →
      (w.op i).canceled = false) ∧ Calm (w.deskStep H l) ls

instance Calm.decidable [DecidableEq α] :
    (w : World α) → (ls : List (Desk.Item α ⊕ Chore)) → Decidable (Calm H w ls)
  | _, [] => isTrue trivial
  | w, l :: ls => @instDecidableAnd _ _ inferInstance (decidable (w.deskStep H l) ls)

/-- Whether the operation `id` has returned at once, has been parked, or was a `try_send` that has
returned false. -/
def immediate (w : World α) (id : ℕ) : Immediate :=
  if id ∈ w.suspended then .parked else if (w.node id).refused then .refused else .done

/-- The result of the operation `id`, if it has one: an error, or the value of its node. -/
def result (w : World α) (id : ℕ) : Option (Except Errc (Option α)) :=
  if (w.op id).active then none
  else some (match (w.op id).error with
    | some error => .error error
    | none => .ok (w.node id).value)

variable {H} {b : Bool} {w : World α}

/-- A run of the channel is the run of its desk. -/
theorem Tame.deskRun (ht : Tame b b w) (ls : List (Desk.Item α ⊕ Chore)) :
    (∃ b', Tame b' b' (w.deskRun H ls)) ∧
      (w.deskRun H ls).desk = (ls.filterMap Sum.getLeft?).foldl Desk.perform w.desk := by
  induction ls generalizing b w with
  | nil => exact ⟨⟨b, ht⟩, rfl⟩
  | cons l ls ih =>
    cases l with
    | inl item =>
      obtain ⟨⟨b', ht'⟩, hdesk⟩ := ht.perform (H := H) item
      obtain ⟨htame, hrun⟩ := ih ht'
      refine ⟨htame, hrun.trans ?_⟩
      rw [hdesk]
      rfl
    | inr a =>
      obtain ⟨ht', hdesk⟩ := ht.chore a
      obtain ⟨htame, hrun⟩ := ih ht'
      refine ⟨htame, hrun.trans ?_⟩
      rw [hdesk]
      rfl

theorem Tame.calm (ht : Tame b b w) {ls : List (Desk.Item α ⊕ Chore)} (h : Calm H w ls) :
    w.desk.Calm (ls.filterMap Sum.getLeft?) := by
  induction ls generalizing b w with
  | nil => trivial
  | cons l ls ih =>
    obtain ⟨hclose, hrest⟩ := h
    cases l with
    | inl item =>
      obtain ⟨⟨b', ht'⟩, hdesk⟩ := ht.perform (H := H) item
      refine ⟨fun hitem i hi => ?_, ?_⟩
      · obtain ⟨hmem, hactive⟩ := List.mem_filter.mp hi
        have hcanceled := hclose (congrArg Sum.inl hitem) i hmem hactive
        simp [World.desk, Desk.ofOps, hcanceled]
      · rw [← hdesk]
        exact ih ht' hrest
    | inr a =>
      obtain ⟨ht', hdesk⟩ := ht.chore a
      have h' := ih ht' hrest
      rw [hdesk] at h'
      exact h'

end World

/-! ### Runs of the mailbox -/

namespace Mail

/-- A call on the mailbox, or a chore. -/
def deskStep (m : Mail α) : Desk.Item α ⊕ Chore → Mail α
  | .inl item => m.perform item
  | .inr a => m.chore a

/-- The state after a sequence of calls and chores. -/
def deskRun (m : Mail α) (ls : List (Desk.Item α ⊕ Chore)) : Mail α := ls.foldl deskStep m

/-- Whether the operation `id` has returned at once, has been parked, or was a `try_send` that has
returned false. -/
def immediate (m : Mail α) (id : ℕ) : Immediate :=
  if id ∈ m.suspended then .parked else if (m.node id).refused then .refused else .done

/-- The result of the operation `id`, if it has one: an error, or the value of its node. -/
def result (m : Mail α) (id : ℕ) : Option (Except Errc (Option α)) :=
  if (m.op id).linked then none
  else some (match (m.op id).error with
    | some error => .error error
    | none => .ok (m.node id).value)

variable {b : Bool} {m : Mail α}

/-- A run of the mailbox is the run of its desk. -/
theorem Tame.deskRun (ht : Tame b b m) (ls : List (Desk.Item α ⊕ Chore))
    (h : m.desk.Calm (ls.filterMap Sum.getLeft?)) :
    (∃ b', Tame b' b' (m.deskRun ls)) ∧
      (m.deskRun ls).desk = (ls.filterMap Sum.getLeft?).foldl Desk.perform m.desk := by
  induction ls generalizing b m with
  | nil => exact ⟨⟨b, ht⟩, rfl⟩
  | cons l ls ih =>
    cases l with
    | inl item =>
      obtain ⟨hclose, hrest⟩ := h
      obtain ⟨⟨b', ht'⟩, hdesk⟩ := ht.perform item hclose
      rw [← hdesk] at hrest
      obtain ⟨htame, hrun⟩ := ih ht' hrest
      refine ⟨htame, hrun.trans ?_⟩
      rw [hdesk]
      rfl
    | inr a =>
      obtain ⟨ht', hdesk⟩ := ht.chore a
      have h' : (m.chore a).desk.Calm (ls.filterMap Sum.getLeft?) := by
        rw [hdesk]
        exact h
      obtain ⟨htame, hrun⟩ := ih ht' h'
      refine ⟨htame, hrun.trans ?_⟩
      rw [hdesk]
      rfl

end Mail

/-! ### Agreement -/

/-- What a desk tells of an operation. -/
theorem result_congr {b b' : Bool} {w : World α} {m : Mail α} (hw : World.Tame b b w)
    (hm : Mail.Tame b' b' m) (h : w.desk = m.desk) (id : ℕ) :
    w.immediate id = m.immediate id ∧ w.result id = m.result id := by
  have hnode : w.node = m.node := congrArg Desk.node h
  have hparked : w.suspended = m.suspended := congrArg Desk.parked h
  have herror : (w.op id).error = (m.op id).error := congrFun (congrArg Desk.error h) id
  have hwaiting : (w.channel 0).waiters.filter (fun i => (w.op i).active) = m.queue 0 :=
    congrArg Desk.waiting h
  have hpending : (w.op id).active = (m.op id).linked := by
    rw [Bool.eq_iff_iff, ← hm.linked, ← hwaiting, List.mem_filter]
    exact ⟨fun hactive => ⟨hw.linked id hactive, hactive⟩, fun h => h.2⟩
  constructor
  · rw [World.immediate, Mail.immediate, hparked, hnode]
  · rw [World.result, Mail.result, hpending, herror, hnode]

/-- **Channel and mailbox agree.** A channel and a mailbox of the same capacity are used by one loop
with the same calls, and no waiter has its flag set when the channel is closed. Then every operation
has the same immediate outcome and the same result on both, and the buffers have the same values. -/
theorem channel_mailbox_agree (H : HeapRange ℕ ℤ) (capacity : ℕ)
    (cs : List (Desk.Item α ⊕ World.Chore)) (ms : List (Desk.Item α ⊕ Mail.Chore))
    (hcalls : cs.filterMap Sum.getLeft? = ms.filterMap Sum.getLeft?)
    (hcalm : World.Calm H (World.init fun _ => capacity) cs) :
    let w := World.deskRun H (World.init fun _ => capacity) cs
    let m := Mail.deskRun (Mail.init fun _ => capacity) ms
    w.next = m.next ∧ (∀ id, w.immediate id = m.immediate id ∧ w.result id = m.result id) ∧
      (w.channel 0).ring = (m.box 0).ring := by
  have hw₀ := World.tame_init (α := α) fun _ => capacity
  have hm₀ := Mail.tame_init (α := α) fun _ => capacity
  have hinit : (Mail.init fun _ => capacity : Mail α).desk =
      (World.init fun _ => capacity : World α).desk := by
    rw [World.desk_init, Mail.desk_init]
  obtain ⟨⟨b, hw⟩, hwdesk⟩ := hw₀.deskRun (H := H) cs
  have hcalm' := hw₀.calm hcalm
  rw [← hinit, hcalls] at hcalm'
  obtain ⟨⟨b', hm⟩, hmdesk⟩ := hm₀.deskRun ms hcalm'
  have hdesk : (World.deskRun H (World.init fun _ => capacity) cs).desk =
      (Mail.deskRun (Mail.init fun _ => capacity) ms).desk := by
    rw [hwdesk, hmdesk, hcalls, hinit]
  exact ⟨congrArg Desk.next hdesk, result_congr hw hm hdesk, congrArg Desk.ring hdesk⟩

/-- A receive that is served, one that is canceled, and a send that waits until `close()`. -/
def sampleCalls : List (Desk.Item ℕ) :=
  [.recv none, .trySend 7, .recv (some 3), .requestStop 3, .expire, .send 8 none, .close, .tryRecv]

/-- Both sides run the sample; the mailbox completes its waits with messages meanwhile. -/
theorem channel_mailbox_agree_sampleCalls :
    World.Calm .sorting (World.init fun _ => 0) (sampleCalls.map .inl ++ [.inr .resume]) ∧
    (let w := World.deskRun .sorting (World.init fun _ => 0)
      (sampleCalls.map .inl ++ [.inr .resume])
     let m := Mail.deskRun (Mail.init fun _ => 0)
      (sampleCalls.map .inl ++ [.inr (.detach 0 8), .inr (.message 0)])
     (w.result 0 = some (.ok (some 7)) ∧ w.result 2 = some (.error .operationCanceled) ∧
        w.result 3 = some (.error .brokenPipe) ∧ w.immediate 3 = .parked) ∧
      ∀ id, w.immediate id = m.immediate id ∧ w.result id = m.result id) := by
  have hcalm : World.Calm .sorting (World.init fun _ => 0)
      (sampleCalls.map .inl ++ [.inr .resume]) := by decide
  refine ⟨hcalm, by decide, ?_⟩
  exact (channel_mailbox_agree .sorting 0 _ _ rfl hcalm).2.1

end Snowy
