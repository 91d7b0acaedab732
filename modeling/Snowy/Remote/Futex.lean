import Snowy.Remote.Delivery

/-!
# The futex

A futex is a queue of waits with an atomic of its own. Writers store to the atomic without the mutex
of the queue, so the load of an `await_suspend` and its `enqueue`, both under the mutex, are two
steps, and a store may come between them. While a wait holds the mutex, everything else that locks
it has to wait: notifications, the hooks of the loops, constructors and destructors.

## Main definitions

* `Snowy.Futex` : any number of futexes, on any number of loops.
* `Snowy.Futex.check`, `Snowy.Futex.load`, `Snowy.Futex.commit` : the steps of `await_suspend`.
* `Snowy.Remote.notifyOne`, `Snowy.Remote.notifyAll` : the functions of these names.
* `Snowy.Remote.Doomed` : the waits that `front` prunes.

## Main results

* `Snowy.Remote.front_spec` : which waits `front` prunes and which it returns.
* `Snowy.Futex.futex_wakes` : no lost wakeup, and no wasted `notify_one`.
-/

namespace Snowy

open Function List

namespace Remote

variable {s s' s₁ : Remote} {id q : ℕ} {t : Set ℕ}

/-! ### Notifications -/

/-- `futex::notify_one`. -/
def notifyOne (s : Remote) (q : ℕ) : Remote :=
  match s.front (s.queue q) with
  | (s, some w) => s.deliver w none
  | (s, none) => s

/-- `futex::notify_all`. -/
def notifyAll (s : Remote) (q : ℕ) : Remote := s.drain (fun _ => none) (s.queue q)

/-- The condition of the loop in `remote_wait::front`, for flags that do not change. -/
def Doomed (s : Remote) (id : ℕ) : Prop :=
  (s.op id).interruptible = true ∧
    ((s.op id).canceled = true ∨ (s.loop (s.owner id)).stopping = true)

instance (s : Remote) (id : ℕ) : Decidable (s.Doomed id) := inferInstanceAs (Decidable (_ ∧ _))

/-- Flags of waits and loops are only raised, and no wait is notified. -/
structure Raises (s s' : Remote) : Prop where
  op : ∀ i, (s'.op i).interruptible = (s.op i).interruptible ∧
    (s'.op i).active = (s.op i).active := by exact fun _ => ⟨rfl, rfl⟩
  canceled : ∀ i, (s.op i).canceled = true → (s'.op i).canceled = true := by exact fun _ h => h
  stopping : ∀ l, (s.loop l).stopping = true → (s'.loop l).stopping = true := by
    exact fun _ h => h
  owner : s'.owner = s.owner := by rfl

theorem Raises.refl (s : Remote) : Raises s s := {}

theorem Raises.trans (h : Raises s s₁) (h' : Raises s₁ s') : Raises s s' where
  op i := ⟨(h'.op i).1.trans (h.op i).1, (h'.op i).2.trans (h.op i).2⟩
  canceled i hi := h'.canceled i (h.canceled i hi)
  stopping l hl := h'.stopping l (h.stopping l hl)
  owner := h'.owner.trans h.owner

/-- A wait that is doomed stays so. -/
theorem Raises.doomed (h : Raises s s') (hid : s.Doomed id) : s'.Doomed id := by
  refine ⟨(h.op id).1.trans hid.1, ?_⟩
  rw [h.owner]
  exact hid.2.imp (h.canceled id) (h.stopping _)

theorem raises_async (s : Remote) (a : Async) : Raises s (s.async a) := by
  cases a with
  | request token => exact { Raises.refl s with }
  | fire id =>
    simp only [async]
    split_ifs
    · refine { Raises.refl s with op := fun i => ?_, canceled := fun i hi => ?_ }
      · rw [op_setOp]
        split_ifs with h
        · exact h ▸ ⟨rfl, rfl⟩
        · exact ⟨rfl, rfl⟩
      · rw [op_setOp]
        split_ifs
        · rfl
        · exact hi
    · exact .refl s
  | stop l =>
    refine { Raises.refl s with stopping := fun i hi => ?_ }
    simp only [async, loop_setLoop]
    split_ifs
    · rfl
    · exact hi
  | raise l =>
    refine { Raises.refl s with stopping := fun i hi => ?_ }
    simp only [async, loop_setLoop]
    split_ifs with h
    · exact h ▸ hi
    · exact hi

theorem raises_foldl_async (s : Remote) (stores : List Async) :
    Raises s (stores.foldl async s) := by
  induction stores generalizing s with
  | nil => exact .refl s
  | cons a stores ih => exact (raises_async s a).trans (ih (s.async a))

theorem raises_interfere (s : Remote) : Raises s s.interfere := by
  unfold interfere
  split
  · exact .refl s
  · rename_i stores rest _
    have h : Raises s { s with sched := rest } := { Raises.refl s with }
    exact h.trans (raises_foldl_async _ stores)

theorem raises_deliver (s : Remote) (id : ℕ) (failure : Option Errc) :
    Raises s (s.deliver id failure) := by
  have hop : ∀ i, (s.deliver id failure).op i =
      if i = id then { s.op id with linked := false, error := failure } else s.op i :=
    op_settle s id failure
  refine
    { Raises.refl s with
      op := fun i => ?_
      canceled := fun i hi => ?_
      stopping := fun l hl => ?_ }
  · rw [hop]
    split_ifs with h
    · exact h ▸ ⟨rfl, rfl⟩
    · exact ⟨rfl, rfl⟩
  · rw [hop]
    split_ifs with h
    · exact h ▸ hi
    · exact hi
  · change (((s.settle id failure).send (s.owner id) (.wait id)).loop l).stopping = true
    rw [(flags_send ..).1]
    exact hl

/-- What `front` reads of a wait: a wait that it prunes is doomed by then, and one that it returns
was not doomed before. -/
theorem dead_spec (s : Remote) (id : ℕ) : ∃ s₁, Quiet s s₁ ∧ Raises s s₁ ∧
    (s.dead id = (s₁, true) ∧ s₁.Doomed id ∨ s.dead id = (s₁, false) ∧ ¬s.Doomed id) := by
  have h₁ := raises_interfere s
  have h₂ := h₁.trans (raises_interfere s.interfere)
  have hq₁ := Quiet.interfere s
  have hq₂ := hq₁.trans (.interfere s.interfere)
  unfold dead
  dsimp only
  split_ifs with hinterruptible hcanceled
  · exact ⟨_, hq₁, h₁, .inl ⟨rfl, (h₁.op id).1.trans hinterruptible, .inl hcanceled⟩⟩
  · refine ⟨_, hq₂, h₂, ?_⟩
    have howner : s.interfere.owner id = s.interfere.interfere.owner id := by
      rw [h₂.owner, h₁.owner]
    cases hstopping : (s.interfere.interfere.loop (s.interfere.interfere.owner id)).stopping with
    | true => exact .inl ⟨rfl, (h₂.op id).1.trans hinterruptible, .inr hstopping⟩
    | false =>
      -- a flag that is not seen was not set before
      refine .inr ⟨rfl, fun hdoomed => ?_⟩
      rcases hdoomed.2 with h | h
      · exact hcanceled (h₁.canceled id h)
      · rw [h₂.owner] at hstopping
        exact Bool.false_ne_true (hstopping.symm.trans (h₂.stopping _ h))
  · exact ⟨s, .refl s, .refl s, .inr ⟨rfl, fun hdoomed => hinterruptible hdoomed.1⟩⟩

/-- **What `front` prunes.** The waits before the one that it returns are doomed and are delivered
with an error, in their order; the one that it returns was not doomed when it began. -/
theorem front_spec (hs : Wired s) {ids : List ℕ} (hids : s.queue q = ids) :
    ∃ s' pruned rest, ids = pruned ++ rest ∧ s.front ids = (s', rest.head?) ∧ Wired s' ∧
      Moves ∅ s s' ∧ Raises s s' ∧ s'.queue q = rest ∧
      s'.settled = s.settled ++ pruned.map (·, some .operationCanceled) ∧
      (∀ i ∈ pruned, s'.Doomed i) ∧ ∀ w ∈ rest.head?, ¬s.Doomed w := by
  induction ids generalizing s with
  | nil =>
    exact ⟨s, [], [], rfl, rfl, hs, .refl, .refl s, hids, (append_nil _).symm, nofun, nofun⟩
  | cons id rest ih =>
    obtain ⟨s₁, hq, hraises, ⟨hdead, hdoomed⟩ | ⟨hdead, hdoomed⟩⟩ := dead_spec s id
    · have hs₁ := hs.quiet hq
      have hids₁ : s₁.queue q = id :: rest := hq.queue ▸ hids
      have hmem : id ∈ s₁.queue q := hids₁ ▸ mem_cons_self
      have hdeliver := sheds_deliver (hs₁.linked_of_mem hmem) .operationCanceled
      have hids₂ : (s₁.deliver id (some .operationCanceled)).queue q = rest := by
        rw [queue_deliver s₁ id _ (hs₁.queue q id hmem), hids₁, erase_cons_head]
      obtain ⟨s', pruned, rest', hsplit, hfront, hs', hmoves, hraises', hqueue, hsettled, hpruned,
        hhead⟩ := ih (hs₁.moves hdeliver.moves) hids₂
      have hraises₁ := hraises.trans (raises_deliver s₁ id (some .operationCanceled))
      refine ⟨s', id :: pruned, rest', by rw [hsplit]; rfl, ?_, hs',
        (hq.moves.trans hdeliver.moves).trans hmoves, hraises₁.trans hraises', hqueue, ?_, ?_, ?_⟩
      · rw [front, hdead]
        exact hfront
      · rw [hsettled]
        change (s₁.settled ++ [(id, some .operationCanceled)]) ++ _ = _
        rw [hq.settled, append_assoc]
        rfl
      · intro i hi
        rcases mem_cons.mp hi with rfl | hi
        · exact hraises'.doomed ((raises_deliver s₁ i (some .operationCanceled)).doomed hdoomed)
        · exact hpruned i hi
      · exact fun w hw h => hhead w hw (hraises₁.doomed h)
    · refine ⟨s₁, [], id :: rest, rfl, by rw [front, hdead]; rfl, hs.quiet hq, hq.moves, hraises,
        hq.queue ▸ hids, ?_, nofun, ?_⟩
      · rw [hq.settled, map_nil, append_nil]
      · intro w hw
        rw [← Option.some.inj hw]
        exact hdoomed

/-- What `notify_one` completes. -/
theorem notifyOne_spec (hs : Wired s) (q : ℕ) :
    ∃ pruned rest, s.queue q = pruned ++ rest ∧ (s.notifyOne q).queue q = rest.tail ∧
      (s.notifyOne q).settled = s.settled ++ pruned.map (·, some .operationCanceled) ++
        rest.head?.toList.map (·, none) ∧
      (∀ i ∈ pruned, (s.notifyOne q).Doomed i) ∧ (∀ w ∈ rest.head?, ¬s.Doomed w) ∧
      Raises s (s.notifyOne q) ∧ Moves {q} s (s.notifyOne q) := by
  obtain ⟨s', pruned, rest, hsplit, hfront, hs', hmoves, hraises, hqueue, hsettled, hpruned,
    hhead⟩ :=
    front_spec hs (q := q) rfl
  have hmoves' := hmoves.mono (Set.empty_subset {q})
  cases rest with
  | nil =>
    have hnotify : s.notifyOne q = s' := by
      rw [notifyOne, hfront]
      rfl
    rw [hnotify]
    exact ⟨pruned, [], hsplit, hqueue, by rw [hsettled]; exact (append_nil _).symm, hpruned,
      nofun,
      hraises, hmoves'⟩
  | cons w rest =>
    have hnotify : s.notifyOne q = s'.deliver w none := by
      rw [notifyOne, hfront]
      rfl
    have hmem : w ∈ s'.queue q := hqueue ▸ mem_cons_self
    have hhome := hs'.queue q w hmem
    have hdeliver : Micro {q} s' (s'.deliver w none) :=
      .deliver (hs'.linked_of_mem hmem) fun _ => hhome
    have hraises' := raises_deliver s' w none
    rw [hnotify]
    refine ⟨pruned, w :: rest, hsplit, ?_, ?_, fun i hi => hraises'.doomed (hpruned i hi), hhead,
      hraises.trans hraises', hmoves'.trans hdeliver.moves⟩
    · rw [queue_deliver s' w none hhome, hqueue, erase_cons_head]
      rfl
    · change s'.settled ++ [(w, none)] = _
      rw [hsettled]
      rfl

/-- Outside the queues in `t` nothing is enqueued. -/
theorem Micro.queue_subset (h : Micro t s s') (hq : q ∉ t) : s'.queue q ⊆ s.queue q := by
  have hset : ∀ {s : Remote} {id : ℕ} {f : List ℕ → List ℕ},
      (q = s.home id → f (s.queue q) ⊆ s.queue q) →
      (s.setQueue (s.home id) f).queue q ⊆ s.queue q := by
    intro s id f hf
    rw [queue_setQueue]
    split_ifs with h
    · rw [← h]
      exact hf h
    · exact List.Subset.refl _
  cases h with
  | quiet h => rw [h.queue]; exact List.Subset.refl _
  | make hq' hactive hlinked herror => exact List.Subset.refl _
  | fail hid hs' ht error => exact List.Subset.refl _
  | @enqueue id hid ht =>
    change ((s.enlist id).setQueue ((s.enlist id).home id) (· ++ [id])).queue q ⊆
      (s.enlist id).queue q
    exact hset fun h => absurd ht (h ▸ hq)
  | @deliver id failure hlinked ht =>
    change (s.setQueue (s.home id) (·.erase id)).queue q ⊆ s.queue q
    exact hset fun _ => erase_subset
  | @interrupt id l hlinked hwaits =>
    rw [Remote.interrupt, if_pos hlinked]
    change (s.setQueue (s.home id) (·.erase id)).queue q ⊆ s.queue q
    exact hset fun _ => erase_subset
  | send l n => exact List.Subset.refl _
  | detach l budget =>
    rw [Remote.detach]
    split_ifs <;> exact List.Subset.refl _
  | message l =>
    rw [Remote.message]
    split <;> exact List.Subset.refl _
  | resume l =>
    rw [Remote.resume]
    split <;> exact List.Subset.refl _
  | destroy id =>
    rw [Remote.destroy]
    split_ifs <;> exact List.Subset.refl _

theorem Moves.queue_subset (hm : Moves t s s') (hq : q ∉ t) : s'.queue q ⊆ s.queue q := by
  induction hm with
  | refl => exact List.Subset.refl _
  | tail _ h ih => exact List.Subset.trans (h.queue_subset hq) ih

end Remote

/-! ### The futex -/

/-- Futexes: the atomic and the queue with the same number belong together. `old` is the expected
value of a wait. A wait in `passed` has passed the check at the beginning of `await_suspend`, and
the `holder` of a queue has its mutex and has loaded its expected value. The writers in `stored`
have stored to the atomic and have not yet called `notify_all`. -/
structure Futex (T : Type*) extends Remote where
  value : ℕ → T
  old : ℕ → T
  passed : List ℕ := []
  holder : ℕ → Option ℕ := fun _ => none
  stored : ℕ → List ℕ := fun _ => []

namespace Futex

variable {T : Type*} (s : Futex T) (id q w : ℕ)

/-- The same futexes with other waits. -/
def withRemote (s' : Remote) : Futex T := { s with toRemote := s' }

/-- The construction of an awaiter. `join` has no token and is not interruptible. -/
def construct (l : ℕ) (old : T) (token : Option ℕ) (interruptible : Bool) : Futex T :=
  if s.holder q = none then
    { s.withRemote (s.make l q { token, interruptible, interrupt := true }) with
      old := update s.old s.next old }
  else s

/-- The wait has passed the check of `await_suspend`. -/
def pass : Futex T := { s with passed := s.passed ++ [id] }

/-- The beginning of `await_suspend`: `interruptible && canceled_now()`. -/
def check : Futex T :=
  if s.Idle id ∧ id ∉ s.passed ∧ s.holder (s.home id) ≠ some id then
    if (s.op id).interruptible then
      match s.canceledNow id with
      | (s', true) => s.withRemote s'
      | (s', false) => (s.withRemote s').pass id
    else s.pass id
  else s

/-- `await_suspend` locks the mutex and loads the atomic. If it finds another value it returns. -/
def load [DecidableEq T] : Futex T :=
  if id ∈ s.passed ∧ s.holder (s.home id) = none then
    { s with
      passed := s.passed.erase id
      holder := if s.value (s.home id) = s.old id then
        update s.holder (s.home id) (some id) else s.holder }
  else s

/-- The end of `await_suspend`: `enqueue`, and the mutex is unlocked. -/
def commit : Futex T :=
  if s.holder (s.home id) = some id then
    { s.withRemote (if s.Idle id then (s.toRemote.enqueue id).1 else s.toRemote) with
      holder := update s.holder (s.home id) none }
  else s

/-- The writer `w` stores to an atomic. -/
def store (v : T) : Futex T :=
  { s with
    value := update s.value q v
    stored := update s.stored q (w :: s.stored q) }

/-- The writer `w` calls `notify_all`. -/
def notifyAll : Futex T :=
  if s.holder q = none then
    { s.withRemote (s.toRemote.notifyAll q) with
      stored := update s.stored q ((s.stored q).filter (· ≠ w)) }
  else s

/-- Some thread calls `notify_one`. -/
def notifyOne : Futex T :=
  if s.holder q = none then s.withRemote (s.toRemote.notifyOne q) else s

/-- The hook `interrupt` and the destructor of a wait lock the mutex of its queue. -/
def blocked : Remote.OwnerAct → Bool
  | .scan id _ | .destroy id => (s.holder (s.home id)).isSome
  | _ => false

/-- What the threads can do. -/
inductive Act (T : Type*) where
  | construct (q l : ℕ) (old : T) (token : Option ℕ) (interruptible : Bool)
  | check (id : ℕ)
  | load (id : ℕ)
  | commit (id : ℕ)
  | store (q w : ℕ) (v : T)
  | notifyAll (q w : ℕ)
  | notifyOne (q : ℕ)
  | owner (a : Remote.OwnerAct)
  deriving DecidableEq, Repr

/-- One step. -/
def act [DecidableEq T] : Act T → Futex T
  | .construct q l old token interruptible => s.construct q l old token interruptible
  | .check id => s.check id
  | .load id => s.load id
  | .commit id => s.commit id
  | .store q w v => s.store q w v
  | .notifyAll q w => s.notifyAll q w
  | .notifyOne q => s.notifyOne q
  | .owner a => if s.blocked a then s else s.withRemote (s.ownerAct a)

/-- The flags that are raised before a step. -/
def interfere (sched : List (List Remote.Async)) : Futex T :=
  s.withRemote (Remote.interfere { s.toRemote with sched })

/-- A step with the flags that are raised before it (the first entry) and during it. -/
def step [DecidableEq T] (s : Futex T) (a : Act T × List (List Remote.Async)) : Futex T :=
  (s.interfere a.2).act a.1

/-- The state after a sequence of steps. -/
def run [DecidableEq T] (s : Futex T) (as : List (Act T × List (List Remote.Async))) : Futex T :=
  as.foldl step s

/-- Futexes with the given values. -/
def init (value : ℕ → T) : Futex T := { value, old := value }

/-- A state of some run. -/
def Reachable [DecidableEq T] (s : Futex T) : Prop := ∃ value as, s = run (init value) as

/-! ### No lost wakeup -/

variable {s} {id q w}

/-- The waits are wired, and a wait that is linked, or will be as soon as its thread goes on,
expects the value of the atomic unless a writer has still to call `notify_all`. -/
structure Watched (s : Futex T) : Prop where
  wired : s.Wired
  passed : ∀ i ∈ s.passed, i < s.next
  holder : ∀ q i, s.holder q = some i → i < s.next
  cover : ∀ q i, i ∈ s.queue q ∨ s.holder q = some i → s.old i ≠ s.value q → s.stored q ≠ []

theorem watched_init (value : ℕ → T) : Watched (init value) where
  wired := .init
  passed := nofun
  holder := nofun
  cover _ _ hi _ := hi.elim (absurd · not_mem_nil) nofun

section

variable (hs : Watched s)
include hs

/-- The waits change, and nothing is enqueued. -/
theorem Watched.withRemote {s' : Remote} (hw : s'.Wired) (hnext : s.next ≤ s'.next)
    (hqueue : ∀ q, s'.queue q ⊆ s.queue q) : Watched (s.withRemote s') where
  wired := hw
  passed i hi := (hs.passed i hi).trans_le hnext
  holder q i hi := (hs.holder q i hi).trans_le hnext
  cover q i hi := hs.cover q i (hi.imp_left fun h => hqueue q h)

theorem Watched.moves {s' : Remote} (hm : Remote.Moves ∅ s.toRemote s') :
    Watched (s.withRemote s') :=
  hs.withRemote (hs.wired.moves hm) hm.frame.1 fun _ => hm.queue_subset nofun

theorem Watched.interfere (sched : List (List Remote.Async)) : Watched (s.interfere sched) := by
  have hsched : Remote.Quiet s.toRemote { s.toRemote with sched } := .sched ..
  exact hs.moves (hsched.trans (.interfere _)).moves

theorem Watched.pass (hid : id < s.next) : Watched (s.pass id) :=
  { hs with
    passed := fun i hi => by
      rcases mem_append.mp hi with hi | hi
      · exact hs.passed i hi
      · exact mem_singleton.mp hi ▸ hid }

theorem Watched.construct (q l : ℕ) (old : T) (token : Option ℕ)
    (interruptible : Bool) : Watched (s.construct q l old token interruptible) := by
  unfold Futex.construct
  split_ifs
  · have hold : ∀ i < s.next, update s.old s.next old i = s.old i := fun i hi =>
      update_of_ne hi.ne ..
    have hmake : Watched (s.withRemote (s.make l q { token, interruptible, interrupt := true })) :=
      hs.withRemote (hs.wired.make rfl rfl) (Nat.le_succ _) fun _ => List.Subset.refl _
    refine { hmake with cover := fun q i hi hne => ?_ }
    have hlt : i < s.next := hi.elim (fun h => hs.wired.lt_of_mem h) (hs.holder q i)
    change update s.old s.next old i ≠ s.value q at hne
    rw [hold i hlt] at hne
    exact hs.cover q i hi hne
  · exact hs

theorem Watched.check (id : ℕ) : Watched (s.check id) := by
  unfold Futex.check
  split_ifs with hid hinterruptible
  · obtain ⟨s', hq, h | h⟩ := Remote.canceledNow_cases s.toRemote id
    all_goals rw [h]
    · have hidle := hq.idle hid.1
      exact hs.withRemote ((hs.wired.quiet hq).fail hidle.suspended _) hq.next.ge
        fun q => hq.queue ▸ List.Subset.refl _
    · exact (hs.moves hq.moves).pass (hq.next ▸ hid.1.lt_next)
  · exact hs.pass hid.1.lt_next
  · exact hs

/-- The value is the expected one when it is loaded. -/
theorem Watched.load [DecidableEq T] (id : ℕ) : Watched (s.load id) := by
  unfold Futex.load
  split_ifs with hid hvalue
  · refine { hs with passed := fun i hi => hs.passed i (mem_of_mem_erase hi)
                     holder := fun q i hi => ?_
                     cover := fun q i hi hne => ?_ }
    · simp only [update_apply] at hi
      split_ifs at hi with hq
      · exact Option.some.inj hi ▸ hs.passed id hid.1
      · exact hs.holder q i hi
    · rcases hi with hi | hi
      · exact hs.cover q i (.inl hi) hne
      · simp only [update_apply] at hi
        split_ifs at hi with hq
        · rw [← Option.some.inj hi, hq] at hne
          exact absurd hvalue.symm hne
        · exact hs.cover q i (.inr hi) hne
  · exact { hs with passed := fun i hi => hs.passed i (mem_of_mem_erase hi) }
  · exact hs

/-- The wait that holds the mutex is the only one that is enqueued. -/
theorem Watched.commit (id : ℕ) : Watched (s.commit id) := by
  have hfree : ∀ q i, update s.holder (s.home id) none q = some i →
      s.holder q = some i := by
    intro q i hi
    rw [update_apply] at hi
    split_ifs at hi
    exact hi
  unfold Futex.commit
  split_ifs with hholder hid
  · have hm := Remote.moves_enqueue hid (Set.mem_univ (s.home id))
    have hnext := hm.frame.1
    have hqueue : ∀ q i, i ∈ (s.toRemote.enqueue id).1.queue q →
        i ∈ s.queue q ∨ s.holder q = some i := by
      obtain ⟨s', hq, h | h⟩ := Remote.enqueue_cases s.toRemote id
      all_goals rw [h]
      · exact fun q i hi => .inl (hq.queue ▸ hi)
      · intro q i hi
        change i ∈ (s'.setQueue (s'.home id) (· ++ [id])).queue q at hi
        rw [Remote.queue_setQueue, hq.queue, hq.home] at hi
        split_ifs at hi with hhome
        · rw [hhome]
          rcases mem_append.mp hi with hi | hi
          · exact .inl hi
          · exact .inr (mem_singleton.mp hi ▸ hholder)
        · exact .inl hi
    exact
    { wired := hs.wired.moves hm
      passed := fun i hi => (hs.passed i hi).trans_le hnext
      holder := fun q i hi => (hs.holder q i (hfree q i hi)).trans_le hnext
      cover := fun q i hi => hs.cover q i (hi.elim (hqueue q i) fun h => .inr (hfree q i h)) }
  · exact
    { hs with
      holder := fun q i hi => hs.holder q i (hfree q i hi)
      cover := fun q i hi => hs.cover q i (hi.imp_right (hfree q i)) }
  · exact hs

theorem Watched.store (q w : ℕ) (v : T) : Watched (s.store q w v) := by
  refine { hs with cover := fun q' i hi hne => ?_ }
  change update s.stored q (w :: s.stored q) q' ≠ []
  change s.old i ≠ update s.value q v q' at hne
  rw [update_apply] at hne ⊢
  split_ifs at hne ⊢ with hq
  · exact cons_ne_nil _ _
  · exact hs.cover q' i hi hne

/-- After `notify_all` no wait is left. -/
theorem Watched.notifyAll (q w : ℕ) : Watched (s.notifyAll q w) := by
  unfold Futex.notifyAll
  split_ifs with hfree
  · obtain ⟨hm, hempty⟩ := Remote.moves_drain (q := q) hs.wired (fun _ => none) rfl
    have hnext := hm.frame.1
    refine
    { wired := hs.wired.moves hm
      passed := fun i hi => (hs.passed i hi).trans_le hnext
      holder := fun q i hi => (hs.holder q i hi).trans_le hnext
      cover := fun q' i hi hne => ?_ }
    by_cases hq : q' = q
    · subst hq
      rcases hi with hi | hi
      · change i ∈ (s.toRemote.notifyAll q').queue q' at hi
        rw [Remote.notifyAll, hempty] at hi
        cases hi
      · exact absurd (hfree.symm.trans hi) nofun
    · change update s.stored q _ q' ≠ []
      rw [update_of_ne hq]
      have hsubset : (s.toRemote.notifyAll q).queue q' ⊆ s.queue q' := hm.queue_subset hq
      exact hs.cover q' i (hi.imp_left fun h => hsubset h) hne
  · exact hs

theorem Watched.notifyOne (q : ℕ) : Watched (s.notifyOne q) := by
  unfold Futex.notifyOne
  split_ifs
  · obtain ⟨pruned, rest, hsplit, htail, -, -, -, -, hm⟩ := Remote.notifyOne_spec hs.wired q
    refine hs.withRemote (hs.wired.moves hm) hm.frame.1 fun q' => ?_
    by_cases hq : q' = q
    · subst hq
      rw [htail, hsplit]
      exact List.Subset.trans (tail_sublist rest).subset (subset_append_right _ _)
    · exact hm.queue_subset hq
  · exact hs

theorem Watched.act [DecidableEq T] (a : Act T) : Watched (s.act a) := by
  cases a with
  | construct q l old token interruptible => exact hs.construct q l old token interruptible
  | check id => exact hs.check id
  | load id => exact hs.load id
  | commit id => exact hs.commit id
  | store q w v => exact hs.store q w v
  | notifyAll q w => exact hs.notifyAll q w
  | notifyOne q => exact hs.notifyOne q
  | owner a =>
    simp only [Futex.act]
    split_ifs
    · exact hs
    · exact hs.moves (Remote.moves_ownerAct s.toRemote a)

theorem Watched.run [DecidableEq T]
    (as : List (Act T × List (List Remote.Async))) : Watched (s.run as) := by
  induction as generalizing s with
  | nil => exact hs
  | cons a as ih => exact ih ((hs.interfere a.2).act a.1)

end

theorem Reachable.watched [DecidableEq T] (hs : Reachable s) : Watched s := by
  obtain ⟨value, as, rfl⟩ := hs
  exact (watched_init value).run as

/-! ### Results -/

/-- **The futex has no lost wakeup and no wasted `notify_one`.** In every state of a run, if a wait
is linked and the atomic has not the value that it expects, some writer has stored and not yet
called `notify_all`. A `notify_one` that gets the mutex, with whatever flags are raised before and
meanwhile, delivers the waits at the head of the queue that are doomed with `operation_canceled`,
and the next one, which was not doomed when it began, without error. There is a next one if some
wait is not doomed all along, and none if all were doomed before. The message of each of these waits
is at its loop. -/
theorem futex_wakes [DecidableEq T] (hs : Reachable s) :
    (∀ q, ∀ i ∈ s.queue q, s.old i ≠ s.value q → s.stored q ≠ []) ∧
    ∀ q sched, s.holder q = none →
      let s₀ := s.interfere sched
      let s' := s₀.notifyOne q
      ∃ pruned rest, s₀.queue q = pruned ++ rest ∧ s'.queue q = rest.tail ∧
        s'.settled = s₀.settled ++ pruned.map (·, some .operationCanceled) ++
          rest.head?.toList.map (·, none) ∧
        (∀ i ∈ pruned, s'.Doomed i ∧ (s'.op i).error = some .operationCanceled ∧
          s'.inFlight i = 1) ∧
        (∀ w ∈ rest.head?, ¬s₀.Doomed w ∧ (s'.op w).error = none ∧ s'.inFlight w = 1) ∧
        ((∃ i ∈ s₀.queue q, ¬s'.Doomed i) → rest ≠ []) ∧
        ((∀ i ∈ s₀.queue q, s₀.Doomed i) → rest = []) := by
  have hw := hs.watched
  refine ⟨fun q i hi hne => hw.cover q i (.inl hi) hne, fun q sched hfree => ?_⟩
  have hw₀ := hw.interfere sched
  have hnotify : (s.interfere sched).notifyOne q =
      (s.interfere sched).withRemote ((s.interfere sched).toRemote.notifyOne q) := if_pos hfree
  dsimp only
  rw [hnotify]
  generalize s.interfere sched = s₀ at hw₀
  obtain ⟨pruned, rest, hsplit, htail, hsettled, hpruned, hhead, hraises, hm⟩ :=
    Remote.notifyOne_spec hw₀.wired q
  have hwired := hw₀.wired.moves hm
  -- a wait of the queue that is delivered keeps its registration, and has its message
  have hsent : ∀ i ∈ s₀.queue q, ∀ failure, (i, failure) ∈ (s₀.toRemote.notifyOne q).settled →
      ((s₀.toRemote.notifyOne q).op i).error = failure ∧
        (s₀.toRemote.notifyOne q).inFlight i = 1 := by
    intro i hi failure hmem
    refine ⟨hwired.settled _ hmem, hwired.inFlight_eq_one ((hraises.op i).2.trans ?_) hmem⟩
    exact congrArg Remote.Tally.active (hw₀.wired.tally_eq_linked (hw₀.wired.linked_of_mem hi))
  refine ⟨pruned, rest, hsplit, htail, hsettled, fun i hi => ⟨hpruned i hi, hsent i ?_ _ ?_⟩,
    fun w hw => ⟨hhead w hw, hsent w ?_ _ ?_⟩, ?_, fun hall => ?_⟩
  · exact hsplit ▸ mem_append_left _ hi
  · rw [hsettled]
    exact mem_append_left _ (mem_append_right _ (mem_map_of_mem hi))
  · exact hsplit ▸ mem_append_right _ (mem_of_mem_head? hw)
  · rw [hsettled]
    exact mem_append_right _ (mem_map_of_mem (Option.mem_toList.mpr hw))
  · rintro ⟨i, hi, hlive⟩ rfl
    rw [hsplit, append_nil] at hi
    exact hlive (hpruned i hi)
  · cases rest with
    | nil => rfl
    | cons w rest =>
      have hmem : w ∈ s₀.queue q := hsplit ▸ mem_append_right _ mem_cons_self
      exact absurd (hall w hmem) (hhead w rfl)

/-- Two waits are linked, the first one is canceled, and a writer has stored. -/
def contendedState : Futex ℕ :=
  run (init fun _ => 0)
    [(.construct 0 0 0 (some 5) true, []), (.check 0, []), (.load 0, []), (.commit 0, []),
      (.construct 0 1 0 none true, []), (.check 1, []), (.load 1, []), (.commit 1, []),
      (.store 0 9 1, [[.request 5, .fire 0]])]

theorem futex_wakes_contendedState :
    Reachable contendedState ∧ contendedState.queue 0 = [0, 1] ∧
    (contendedState.old 0 ≠ contendedState.value 0 ∧ contendedState.stored 0 ≠ []) ∧
    let s' := (contendedState.interfere []).notifyOne 0
    s'.Doomed 0 ∧ (s'.op 0).error = some .operationCanceled ∧
      (s'.op 1).error = none ∧ s'.inFlight 1 = 1 := by
  have hs : Reachable contendedState := ⟨_, _, rfl⟩
  have hqueue : contendedState.queue 0 = [0, 1] := by decide
  have hne : contendedState.old 0 ≠ contendedState.value 0 := by decide
  obtain ⟨hwatch, hnotify⟩ := futex_wakes hs
  obtain ⟨pruned, rest, hsplit, -, -, hpruned, hhead, hsome, -⟩ := hnotify 0 [] (by decide)
  have hrest := hsome ⟨1, by decide, by decide⟩
  replace hsplit : [0, 1] = pruned ++ rest := hqueue.symm.trans hsplit
  refine ⟨hs, hqueue, ⟨hne, hwatch 0 0 (by decide) hne⟩, ?_⟩
  match pruned with
  | [] =>
    obtain rfl : [0, 1] = rest := hsplit
    exact absurd (by decide) (hhead 0 rfl).1
  | [i] =>
    obtain ⟨rfl, rfl⟩ := cons_eq_cons.mp hsplit
    exact ⟨(hpruned 0 (by decide)).1, (hpruned 0 (by decide)).2.1, (hhead 1 rfl).2⟩
  | i :: j :: l =>
    obtain ⟨-, h⟩ := cons_eq_cons.mp hsplit
    exact absurd (append_eq_nil_iff.mp (cons_eq_cons.mp h).2.symm).2 hrest

end Futex

end Snowy
