import Snowy.Owner.World

/-!
# The invariant of the operations of one owner thread

The functions of the owner thread are made of few kinds of steps: steps that complete nothing
(`Quiet`), the completion of one operation (`Completes`), its suspension (`Suspends`), the
construction of a new one, and the resumption of a coroutine. The invariant `Sound` is preserved
by each kind, and each function is then seen to be made of such steps.

## Main definitions

* `Snowy.World.Quiet`, `Snowy.World.Completes`, `Snowy.World.Suspends` : the kinds of steps.
* `Snowy.World.Moves` : any number of steps that suspend nothing.
* `Snowy.World.Sound` : the invariant, relative to an earlier state whose results are kept.

## Main results

* `Snowy.World.arm_cases`, `Snowy.World.park_cases`, `Snowy.World.live_cases` : what these functions
  can do.
* `Snowy.World.Sound.moves`, `Snowy.World.Sound.complete`, `Snowy.World.Sound.suspend` : the steps
  keep the invariant.
-/

namespace Snowy

open Function List

/-- The fields of an operation that never change, and its `canceled` flag, which is never
cleared. -/
structure Op.Same (o o' : Op) : Prop where
  cls : o'.cls = o.cls := by rfl
  due : o'.due = o.due := by rfl
  interruptible : o'.interruptible = o.interruptible := by rfl
  canceled : o.canceled = true → o'.canceled = true := by exact fun h => h

/-- The operation neither begins nor ends, and its result is kept. -/
structure Op.Calm (o o' : Op) : Prop extends Op.Same o o' where
  active : o'.active = o.active := by rfl
  error : o'.error = o.error := by rfl

theorem Op.Same.refl (o : Op) : o.Same o := {}

theorem Op.Calm.refl (o : Op) : o.Calm o := {}

theorem Op.Same.trans {o₁ o₂ o₃ : Op} (h : o₁.Same o₂) (h' : o₂.Same o₃) : o₁.Same o₃ where
  cls := h'.cls.trans h.cls
  due := h'.due.trans h.due
  interruptible := h'.interruptible.trans h.interruptible
  canceled := h'.canceled ∘ h.canceled

theorem Op.Calm.trans {o₁ o₂ o₃ : Op} (h : o₁.Calm o₂) (h' : o₂.Calm o₃) : o₁.Calm o₃ where
  toSame := h.toSame.trans h'.toSame
  active := h'.active.trans h.active
  error := h'.error.trans h.error

/-- The operation of a channel is as it was, or it has been completed, a sender with an error. -/
def Op.Settles (sending : Bool) (o o' : Op) : Prop :=
  o'.active = o.active ∧ o'.error = o.error ∨
    o.active = true ∧ o'.active = false ∧ (sending = true → o'.error ≠ none)

theorem Op.Settles.trans {sending : Bool} {o₁ o₂ o₃ : Op} (h : o₁.Settles sending o₂)
    (h' : o₂.Settles sending o₃) : o₁.Settles sending o₃ := by
  rcases h with ⟨hactive, herror⟩ | ⟨hactive, hinactive, herror⟩
  · rwa [Settles, hactive, herror] at h'
  · rcases h' with ⟨hactive', herror'⟩ | ⟨hactive', -⟩
    · exact .inr ⟨hactive, hactive'.trans hinactive, fun hs => herror' ▸ herror hs⟩
    · exact absurd (hinactive.symm.trans hactive') Bool.false_ne_true

theorem Op.Settles.active {sending : Bool} {o o' : Op} (h : o.Settles sending o')
    (h' : o'.active = true) : o.active = true := by
  rcases h with ⟨hactive, -⟩ | ⟨hactive, -⟩
  · exact hactive ▸ h'
  · exact hactive

namespace World

variable {α : Type*} {H : HeapRange ℕ ℤ} {w₀ w w' : World α} {id e c : ℕ} {T S : List ℕ}
  {t : Set ℕ}

/-! ### Steps that complete nothing -/

/-- The waiters of `w'` are waiters of `w` or other waits that belong there. -/
def Linkable (w w' : World α) : Prop :=
  (∀ e, ∀ id ∈ (w'.event e).waiters, id ∈ (w.event e).waiters ∨
    id < w.next ∧ (w.op id).cls = .wait ∧ (w.node id).home = .event e) ∧
  ∀ c, ∀ id ∈ (w'.channel c).waiters, id ∈ (w.channel c).waiters ∨
    id < w.next ∧ (w.op id).cls = .wait ∧ (w.node id).home = .channel c

theorem Linkable.of_eq (hevent : w'.event = w.event) (hchannel : w'.channel = w.channel) :
    Linkable w w' :=
  ⟨fun _ _ h => .inl (hevent ▸ h), fun _ _ h => .inl (hchannel ▸ h)⟩

/-- A step does nothing to a channel and its nodes but unlink waiters that are not active
afterwards. -/
structure Keeps (c : ℕ) (w w' : World α) : Prop where
  channel : ∃ ws, ws.Sublist (w.channel c).waiters ∧
    w'.channel c = { w.channel c with waiters := ws } ∧
    ∀ id ∈ (w.channel c).waiters, (w'.op id).active = true → id ∈ ws
  node : ∀ id, (w.node id).home = .channel c → w'.node id = w.node id

theorem Keeps.of_eq (hchannel : w'.channel c = w.channel c)
    (hnode : ∀ id, (w.node id).home = .channel c → w'.node id = w.node id) : Keeps c w w' :=
  ⟨⟨_, .refl _, hchannel, fun _ h _ => h⟩, hnode⟩

/-- No operation begins or ends, and the value of a completed operation is kept. Only the contents
of the channels in `t` change. -/
structure Quiet (t : Set ℕ) (w w' : World α) : Prop where
  ready : w'.loop.ready = w.loop.ready := by rfl
  waits : w'.loop.waits = w.loop.waits := by rfl
  timers : w'.loop.timers = w.loop.timers := by rfl
  stopping : w.loop.stopping = true → w'.loop.stopping = true := by exact fun h => h
  cancel : w.loop.cancel = true → w'.loop.cancel = true := by exact fun h => h
  op : ∀ id, (w.op id).Calm (w'.op id) := by exact fun _ => {}
  next : w'.next = w.next := by rfl
  suspended : w'.suspended = w.suspended := by rfl
  resumed : w'.resumed = w.resumed := by rfl
  linkable : Linkable w w' := by exact .of_eq rfl rfl
  value : ∀ id ∈ w.suspended, (w.op id).active = false →
    (w'.node id).value = (w.node id).value := by exact fun _ _ _ => rfl
  home : ∀ id, (w'.node id).home = (w.node id).home := by exact fun _ => rfl
  keeps : ∀ c ∉ t, Keeps c w w' := by exact fun _ _ => .of_eq rfl fun _ _ => rfl

theorem Quiet.refl (w : World α) : Quiet t w w := {}

/-- A step that changes no channel and no node. -/
theorem keeps_of_eq (hchannel : w'.channel = w.channel) (hnode : w'.node = w.node) :
    ∀ c ∉ t, Keeps c w w' :=
  fun _ _ => .of_eq (hchannel ▸ rfl) fun _ _ => hnode ▸ rfl

theorem Quiet.trans {w₁ w₂ w₃ : World α} (h : Quiet t w₁ w₂) (h' : Quiet t w₂ w₃) :
    Quiet t w₁ w₃ where
  ready := h'.ready.trans h.ready
  waits := h'.waits.trans h.waits
  timers := h'.timers.trans h.timers
  stopping := h'.stopping ∘ h.stopping
  cancel := h'.cancel ∘ h.cancel
  op id := (h.op id).trans (h'.op id)
  next := h'.next.trans h.next
  suspended := h'.suspended.trans h.suspended
  resumed := h'.resumed.trans h.resumed
  linkable := by
    refine ⟨fun e id hid => ?_, fun c id hid => ?_⟩
    · rcases h'.linkable.1 e id hid with hid | ⟨hlt, hcls, hhome⟩
      · exact h.linkable.1 e id hid
      · exact .inr ⟨h.next ▸ hlt, (h.op id).cls ▸ hcls, h.home id ▸ hhome⟩
    · rcases h'.linkable.2 c id hid with hid | ⟨hlt, hcls, hhome⟩
      · exact h.linkable.2 c id hid
      · exact .inr ⟨h.next ▸ hlt, (h.op id).cls ▸ hcls, h.home id ▸ hhome⟩
  value id hid hactive := by
    rw [h'.value id (h.suspended ▸ hid) ((h.op id).active ▸ hactive), h.value id hid hactive]
  home id := (h'.home id).trans (h.home id)
  keeps c hc := by
    obtain ⟨ws, hws, hchannel, hactive⟩ := (h.keeps c hc).channel
    obtain ⟨ws', hws', hchannel', hactive'⟩ := (h'.keeps c hc).channel
    rw [hchannel] at hws' hchannel' hactive'
    refine ⟨⟨ws', hws'.trans hws, hchannel', fun id hid h'' => ?_⟩, fun id hid => ?_⟩
    · exact hactive' id (hactive id hid ((h'.op id).active ▸ h'')) h''
    · rw [(h'.keeps c hc).node id (h.home id ▸ hid), (h.keeps c hc).node id hid]

theorem Quiet.sched (w : World α) (sched : List (List Async)) : Quiet t w { w with sched } :=
  { Quiet.refl (t := t) w with keeps := keeps_of_eq rfl rfl }

/-- Change of one operation in a way that does not decide its completion. -/
theorem Quiet.setOp (w : World α) (id : ℕ) {f : Op → Op} (hf : ∀ o : Op, o.Calm (f o)) :
    Quiet t w (w.setOp id f) where
  __ := Quiet.refl (t := t) w
  op i := by
    rw [op_setOp]
    split_ifs with h
    · exact h ▸ hf _
    · exact .refl _
  keeps := keeps_of_eq rfl rfl

theorem Quiet.async (w : World α) (a : Async) : Quiet t w (w.async a) := by
  cases a with
  | request token => exact { Quiet.refl (t := t) w with keeps := keeps_of_eq rfl rfl }
  | fire id =>
    unfold World.async
    dsimp only
    split_ifs
    · exact .setOp w id fun o => { Op.Calm.refl o with canceled := fun _ => rfl }
    · exact .refl w
  | stop =>
    exact { Quiet.refl (t := t) w with stopping := fun _ => rfl, keeps := keeps_of_eq rfl rfl }
  | raise =>
    exact { Quiet.refl (t := t) w with cancel := fun _ => rfl, keeps := keeps_of_eq rfl rfl }

theorem Quiet.foldl_async (w : World α) (batch : List Async) :
    Quiet t w (batch.foldl World.async w) := by
  induction batch generalizing w with
  | nil => exact .refl w
  | cons a batch ih => exact (Quiet.async w a).trans (ih _)

/-- What other threads do completes nothing. -/
theorem Quiet.interfere (w : World α) : Quiet t w w.interfere := by
  unfold World.interfere
  split
  · exact .refl w
  · exact (Quiet.sched w _).trans (.foldl_async _ _)

/-- Other threads do not change the channels and their nodes. -/
theorem interfere_frame (w : World α) :
    w.interfere.channel = w.channel ∧ w.interfere.node = w.node := by
  have hasync : ∀ (w : World α) (a : Async),
      (w.async a).channel = w.channel ∧ (w.async a).node = w.node := fun w a => by
    cases a with
    | fire id =>
      unfold World.async
      dsimp only
      split_ifs <;> exact ⟨rfl, rfl⟩
    | _ => exact ⟨rfl, rfl⟩
  have hbatch : ∀ (batch : List Async) (w : World α),
      (batch.foldl World.async w).channel = w.channel ∧
        (batch.foldl World.async w).node = w.node := fun batch => by
    induction batch with
    | nil => exact fun _ => ⟨rfl, rfl⟩
    | cons a batch ih =>
      exact fun w => ⟨(ih _).1.trans (hasync w a).1, (ih _).2.trans (hasync w a).2⟩
  unfold World.interfere
  split
  · exact ⟨rfl, rfl⟩
  · exact hbatch _ _

theorem channel_interfere (w : World α) : w.interfere.channel = w.channel := (interfere_frame w).1

theorem node_interfere (w : World α) : w.interfere.node = w.node := (interfere_frame w).2

theorem Quiet.register (w : World α) (id : ℕ) : Quiet t w (w.register id) := by
  unfold World.register Owner.register
  split
  · exact .refl w
  · dsimp only
    split_ifs
    · have hcallback : Quiet t w _ := .setOp w id (f := fun o => { o with callback := true })
        fun o => { Op.Calm.refl o with }
      have hcanceled := hcallback.trans (.setOp _ id (f := fun o => { o with canceled := true })
        fun o => { Op.Calm.refl o with canceled := fun _ => rfl })
      exact hcanceled.trans
        { Quiet.refl (t := t) _ with cancel := fun _ => rfl, keeps := keeps_of_eq rfl rfl }
    · exact .setOp w id fun o => { Op.Calm.refl o with }

/-- The node of an operation that is not completed may get a value. -/
theorem Quiet.setNode (w : World α) {id : ℕ} {f : Node α → Node α}
    (hid : id ∈ w.suspended → (w.op id).active = true) (hf : ∀ n, (f n).home = n.home)
    (hhome : ∀ c, (w.node id).home = .channel c → c ∈ t) : Quiet t w (w.setNode id f) where
  __ := Quiet.refl (t := t) w
  value i hi hactive := by
    have hne : i ≠ id := by
      rintro rfl
      simp [hid hi] at hactive
    rw [node_setNode, if_neg hne]
  home i := by
    rw [node_setNode]
    split_ifs with hi
    · exact (hf _).trans (hi ▸ rfl)
    · rfl
  keeps c hc := .of_eq rfl fun i hi => by
    have hne : i ≠ id := fun h => hc (hhome c (h ▸ hi))
    rw [node_setNode, if_neg hne]

/-- The contents of a channel change, but not its list of waiters. -/
theorem Quiet.setChannel (w : World α) (c : ℕ) {f : Channel α → Channel α}
    (hf : (f (w.channel c)).waiters = (w.channel c).waiters) (hc : c ∈ t) :
    Quiet t w (w.setChannel c f) where
  __ := Quiet.refl (t := t) w
  linkable := by
    refine ⟨fun _ _ => .inl, fun c' id hid => ?_⟩
    rw [channel_setChannel] at hid
    split_ifs at hid with h
    · exact .inl (h ▸ hf ▸ hid)
    · exact .inl hid
  keeps c' hc' := by
    have hne : c' ≠ c := fun h => hc' (h ▸ hc)
    exact .of_eq (by rw [channel_setChannel, if_neg hne]) fun _ _ => rfl

theorem Quiet.setEvent (w : World α) (e : ℕ) {f : Event → Event}
    (hf : ∀ id ∈ (f (w.event e)).waiters, id ∈ (w.event e).waiters ∨
      id < w.next ∧ (w.op id).cls = .wait ∧ (w.node id).home = .event e) :
    Quiet t w (w.setEvent e f) where
  __ := Quiet.refl (t := t) w
  keeps := keeps_of_eq rfl rfl
  linkable := by
    refine ⟨fun e' id hid => ?_, fun _ _ => .inl⟩
    rw [event_setEvent] at hid
    split_ifs at hid with h
    · exact h ▸ hf id hid
    · exact .inl hid

theorem channel_unlink (w : World α) (id c c' : ℕ) : (w.unlink id c).channel c' =
    if c' = c then { w.channel c with waiters := (w.channel c).waiters.erase id }
    else w.channel c' :=
  update_apply ..

theorem op_unlink (w : World α) (id c i : ℕ) : (w.unlink id c).op i =
    if i = id then { w.op id with linked := false } else w.op i := by
  rw [World.unlink, op_setOp]
  rfl

theorem calm_unlink (w : World α) (id c i : ℕ) : (w.op i).Calm ((w.unlink id c).op i) := by
  rw [op_unlink]
  split_ifs with h
  · subst h
    exact { Op.Calm.refl (w.op i) with }
  · exact .refl _

/-- A node that is not active is unlinked. -/
theorem Quiet.unlink (w : World α) {id c : ℕ} (hid : c ∉ t → (w.op id).active = false) :
    Quiet t w (w.unlink id c) where
  __ := Quiet.refl (t := t) w
  op i := calm_unlink w id c i
  linkable := by
    refine ⟨fun _ _ => .inl, fun c' i hi => ?_⟩
    rw [channel_unlink] at hi
    split_ifs at hi with h
    · exact .inl (h ▸ mem_of_mem_erase hi)
    · exact .inl hi
  keeps c' hc' := by
    refine ⟨?_, fun _ _ => rfl⟩
    rw [channel_unlink]
    split_ifs with h
    · subst h
      refine ⟨_, erase_sublist, rfl, fun i hi hactive => ?_⟩
      have hne : i ≠ id := by
        rintro rfl
        rw [(calm_unlink w i c' i).active, hid hc'] at hactive
        cases hactive
      exact (mem_erase_of_ne hne).mpr hi
    · exact ⟨_, .refl _, rfl, fun _ h _ => h⟩

/-! ### What a call that may suspend can do -/

/-- `loop::arm` raises the error when the loop is stopped or the stop of the token requested, and
makes the operation active otherwise. -/
theorem arm_cases (w : World α) (id : ℕ) (fault : Bool) : ∃ w', Quiet t w w' ∧
    (w'.channel = w.channel ∧ w'.node = w.node) ∧
    (w.arm id fault = (w'.fail id .operationCanceled, .no) ∨
      fault = true ∧ w.arm id fault = (w', .thrown) ∨
      w.arm id fault = (w'.activate id, .yes)) := by
  have h₁ : Quiet t w _ := .interfere w
  have h₂ : Quiet t w _ := h₁.trans (.interfere _)
  have hframe : ∀ w : World α,
      (w.register id).channel = w.channel ∧ (w.register id).node = w.node :=
    fun w => ⟨rfl, rfl⟩
  unfold arm
  dsimp only
  split_ifs with hstop hreq hfault
  · exact ⟨_, h₁, interfere_frame w, .inl rfl⟩
  · exact ⟨_, h₂, by simp only [channel_interfere, node_interfere, and_self], .inl rfl⟩
  · exact ⟨_, h₂, by simp only [channel_interfere, node_interfere, and_self],
      .inr (.inl ⟨(Bool.and_eq_true_iff.mp hfault).1, rfl⟩)⟩
  · exact ⟨_, h₂.trans ((Quiet.interfere _).trans (.register _ id)),
      by simp only [hframe, channel_interfere, node_interfere, and_self], .inr (.inr rfl)⟩

/-- An armed operation is enlisted as if `park` alone had made it active. -/
theorem enlist_activate (w : World α) (id : ℕ) : (w.activate id).enlist id = w.enlist id := by
  simp [enlist, activate, setOp, Owner.enlist, Owner.setOp]

/-- `wait::park` either refuses with an error or lists the wait. -/
theorem park_cases (w : World α) (id : ℕ) : ∃ w', Quiet t w w' ∧
    (w'.channel = w.channel ∧ w'.node = w.node) ∧
    (w.park id = (w'.fail id .operationCanceled, false) ∨ w.park id = (w'.enlist id, true)) := by
  unfold park
  split_ifs
  · obtain ⟨w', hw', hframe, h | ⟨hf, -⟩ | h⟩ := arm_cases (t := t) w id false
    · exact ⟨w', hw', hframe, .inl (by rw [h])⟩
    · cases hf
    · exact ⟨w', hw', hframe, .inr (by rw [h]; exact congrArg (·, true) (enlist_activate w' id))⟩
  · exact ⟨w, .refl w, ⟨rfl, rfl⟩, .inr rfl⟩

theorem canceledNow_cases (w : World α) (id : ℕ) : ∃ w', Quiet t w w' ∧
    (w'.channel = w.channel ∧ w'.node = w.node) ∧
    (w.canceledNow id = (w'.fail id .operationCanceled, true) ∧
        (w'.loop.stopping = true ∨ w'.stopRequested id = true) ∨
      w.canceledNow id = (w', false)) := by
  have h₁ : Quiet t w _ := .interfere w
  have h₂ : Quiet t w _ := h₁.trans (.interfere _)
  have hframe : w.interfere.interfere.channel = w.channel ∧
      w.interfere.interfere.node = w.node := by
    simp only [channel_interfere, node_interfere, and_self]
  unfold canceledNow
  dsimp only
  split_ifs with hstop hreq
  · exact ⟨_, h₁, interfere_frame w, .inl ⟨rfl, .inl hstop⟩⟩
  · exact ⟨_, h₂, hframe, .inl ⟨rfl, .inr hreq⟩⟩
  · exact ⟨_, h₂, hframe, .inr rfl⟩

/-- A waiter that `take` finds dead was canceled, its loop was stopped, or it is completed. -/
theorem live_cases (w : World α) (id : ℕ) : ∃ w', Quiet t w w' ∧ w'.channel = w.channel ∧
    (w.live id = (w', true) ∧ (w'.op id).active = true ∨
      w.live id = (w', false) ∧
        ((w'.op id).active = true → (w'.op id).canceled = true ∨ w'.loop.stopping = true)) := by
  have h₁ : Quiet t w _ := .interfere w
  have h₂ : Quiet t _ _ := .interfere w.interfere
  unfold live
  dsimp only
  split_ifs with hactive hcanceled
  · exact ⟨_, h₁, channel_interfere w, .inr ⟨rfl, fun _ => .inl hcanceled⟩⟩
  · refine ⟨_, h₁.trans h₂, (channel_interfere _).trans (channel_interfere w), ?_⟩
    cases hstop : w.interfere.interfere.loop.stopping with
    | false => exact .inl ⟨rfl, by rw [((h₁.trans h₂).op id).active, hactive]⟩
    | true => exact .inr ⟨rfl, fun _ => .inr rfl⟩
  · exact ⟨w, .refl w, rfl, .inr ⟨rfl, fun h => absurd h hactive⟩⟩

/-! ### Completion and suspension -/

/-- The operation `id` is moved to `ready_`, and out of `waits_` if it is there. -/
structure Completes (id : ℕ) (w w' : World α) : Prop where
  active : (w.op id).active = true
  inactive : (w'.op id).active = false
  error : (w'.op id).error = some .operationCanceled →
    (w.op id).canceled = true ∨ w.loop.stopping = true
  same : (w.op id).Same (w'.op id)
  op : ∀ i, i ≠ id → w'.op i = w.op i
  ready : w'.loop.ready = w.loop.ready ++ [id] := by rfl
  waits : w'.loop.waits = w.loop.waits.erase id
  timers : w'.loop.timers = w.loop.timers := by rfl
  stopping : w'.loop.stopping = w.loop.stopping := by rfl
  next : w'.next = w.next := by rfl
  suspended : w'.suspended = w.suspended := by rfl
  resumed : w'.resumed = w.resumed := by rfl
  event : w'.event = w.event := by rfl
  channel : ∀ c, w'.channel c = w.channel c ∨
    w'.channel c = { w.channel c with waiters := (w.channel c).waiters.erase id } := by
      exact fun _ => .inl rfl
  node : w'.node = w.node := by rfl

theorem Completes.linkable (h : Completes id w w') : Linkable w w' := by
  refine ⟨fun _ _ hi => .inl (h.event ▸ hi), fun c i hi => .inl ?_⟩
  rcases h.channel c with heq | heq
  · exact heq ▸ hi
  · rw [heq] at hi
    exact mem_of_mem_erase hi

theorem Completes.keeps (h : Completes id w w') (c : ℕ) : Keeps c w w' := by
  refine ⟨?_, fun _ _ => h.node ▸ rfl⟩
  rcases h.channel c with heq | heq
  · exact ⟨_, .refl _, heq, fun _ hi _ => hi⟩
  · refine ⟨_, erase_sublist, heq, fun i hi hactive => ?_⟩
    have hne : i ≠ id := by
      rintro rfl
      exact Bool.false_ne_true (h.inactive.symm.trans hactive)
    exact (mem_erase_of_ne hne).mpr hi

/-- The waiter of a channel is completed after it has been unlinked. -/
theorem Completes.of_unlink (h : Completes id (w.unlink id c) w')
    (hchannel : w'.channel = (w.unlink id c).channel) : Completes id w w' where
  active := (calm_unlink w id c id).active ▸ h.active
  inactive := h.inactive
  error herror := by
    have := h.error herror
    rwa [op_unlink, if_pos rfl] at this
  same := (calm_unlink w id c id).toSame.trans h.same
  op i hi := by rw [h.op i hi, op_unlink, if_neg hi]
  ready := h.ready
  waits := h.waits
  timers := h.timers
  stopping := h.stopping
  next := h.next
  suspended := h.suspended
  resumed := h.resumed
  event := h.event
  channel c' := by
    rw [hchannel, channel_unlink]
    split_ifs with hc
    · exact .inr (hc ▸ rfl)
    · exact .inl rfl
  node := h.node

theorem Completes.notify (hactive : (w.op id).active = true) (herror : (w.op id).error = none) :
    Completes id w (w.notify id) where
  active := hactive
  inactive := by simp [op_notify, hactive]
  error := by simp [op_notify, hactive, herror]
  same := by
    rw [op_notify, if_pos ⟨rfl, hactive⟩]
    exact { Op.Same.refl (w.op id) with }
  op i hi := by simp [op_notify, hi]
  ready := by simp [World.notify, hactive]
  waits := by simp [World.notify, hactive]
  timers := by simp [World.notify]
  stopping := by simp [World.notify]
  next := rfl
  suspended := rfl
  resumed := rfl
  event := rfl
  channel _ := .inl rfl
  node := rfl

theorem Completes.fail_notify {error : Errc} (hactive : (w.op id).active = true)
    (herror : error = .operationCanceled → (w.op id).canceled = true ∨ w.loop.stopping = true) :
    Completes id w ((w.fail id error).notify id) where
  active := hactive
  inactive := by simp [op_notify, op_fail, hactive]
  error := by simpa [op_notify, op_fail, hactive] using herror
  same := by
    simp only [op_notify, op_fail, if_pos, hactive, and_self]
    exact { Op.Same.refl (w.op id) with }
  op i hi := by simp [op_notify, op_fail, hi]
  ready := by simp [World.notify, World.fail, Owner.op_fail, hactive]
  waits := by simp [World.notify, World.fail, Owner.op_fail, hactive]
  timers := by simp [World.notify, World.fail]
  stopping := by simp [World.notify, World.fail]
  next := rfl
  suspended := rfl
  resumed := rfl
  event := rfl
  channel _ := .inl rfl
  node := rfl

/-- An operation that is not in `waits_` is completed as a notification would complete it. -/
theorem finish_eq_notify (hactive : (w.op id).active = true) (hwaits : id ∉ w.loop.waits) :
    w.finish id = w.notify id := by
  simp [World.finish, World.notify, Owner.notify, hactive, erase_of_not_mem hwaits]

theorem Completes.finish (hactive : (w.op id).active = true) (herror : (w.op id).error = none)
    (hwaits : id ∉ w.loop.waits) : Completes id w (w.finish id) := by
  rw [finish_eq_notify hactive hwaits]
  exact .notify hactive herror

theorem Completes.fail_finish (hactive : (w.op id).active = true)
    (hflag : (w.op id).canceled = true ∨ w.loop.stopping = true) (hwaits : id ∉ w.loop.waits) :
    Completes id w ((w.fail id .operationCanceled).finish id) := by
  have hactive' : ((w.fail id .operationCanceled).op id).active = true := by simp [op_fail, hactive]
  rw [finish_eq_notify hactive' hwaits]
  exact .fail_notify hactive fun _ => hflag

/-- The operation `id` is suspended: it becomes active in one of the two lists. -/
structure Suspends (t : Set ℕ) (id : ℕ) (ts us : List ℕ) (w w' : World α) : Prop where
  fresh : id ∉ w.suspended
  lt_next : id < w.next
  error : (w.op id).error = none
  home : ∀ c, (w.node id).home = .channel c → c ∈ t
  list : ts = [] ∧ us = [id] ∧ (w.op id).cls = .wait ∨ ts = [id] ∧ us = [] ∧ (w.op id).cls = .timer
  op : ∀ i, w'.op i = if i = id then { w.op id with active := true } else w.op i
  ready : w'.loop.ready = w.loop.ready := by rfl
  waits : w'.loop.waits = us ++ w.loop.waits := by rfl
  stopping : w'.loop.stopping = w.loop.stopping := by rfl
  next : w'.next = w.next := by rfl
  suspended : w'.suspended = w.suspended ++ [id] := by rfl
  resumed : w'.resumed = w.resumed := by rfl
  event : w'.event = w.event := by rfl
  channel : w'.channel = w.channel := by rfl
  node : w'.node = w.node := by rfl

/-- The completion of a sender of a channel that is not in `t` is one with an error. -/
def Fails (t : Set ℕ) (id : ℕ) (w w' : World α) : Prop :=
  ∀ c ∉ t, (w.node id).home = .channel c → (w.node id).sending = true → (w'.op id).error ≠ none

theorem Fails.of_error (h : (w'.op id).error ≠ none) : Fails t id w w' := fun _ _ _ _ => h

/-- A step that suspends nothing: quiet, or the completion of a wait. -/
inductive Move (t : Set ℕ) (w w' : World α) : Prop
  | quiet (h : Quiet t w w')
  | complete {id : ℕ} (hcls : (w.op id).cls = .wait) (hfails : Fails t id w w')
      (h : Completes id w w')

/-- Any number of such steps. -/
def Moves (t : Set ℕ) : World α → World α → Prop := Relation.ReflTransGen (Move t)

theorem Moves.refl : Moves t w w := Relation.ReflTransGen.refl

theorem Moves.quiet {w₁ : World α} (hm : Moves t w w₁) (h : Quiet t w₁ w') : Moves t w w' :=
  hm.tail (.quiet h)

theorem Moves.complete {w₁ : World α} (hm : Moves t w w₁) (hcls : (w₁.op id).cls = .wait)
    (hfails : Fails t id w₁ w') (h : Completes id w₁ w') : Moves t w w' :=
  hm.tail (.complete hcls hfails h)

theorem Moves.trans {w₁ : World α} (hm : Moves t w w₁) (hm' : Moves t w₁ w') : Moves t w w' :=
  Relation.ReflTransGen.trans hm hm'

theorem Completes.same_op (h : Completes id w w') (i : ℕ) : (w.op i).Same (w'.op i) := by
  by_cases hi : i = id
  · exact hi ▸ h.same
  · rw [h.op i hi]
    exact .refl _

theorem Moves.same (hm : Moves t w w') (i : ℕ) :
    (w.op i).Same (w'.op i) ∧ (w'.node i).home = (w.node i).home := by
  induction hm with
  | refl => exact ⟨.refl _, rfl⟩
  | tail _ h ih =>
    cases h with
    | quiet h => exact ⟨ih.1.trans (h.op i).toSame, (h.home i).trans ih.2⟩
    | complete _ _ h =>
      exact ⟨ih.1.trans (h.same_op i), (congrArg _ (congrFun h.node i)).trans ih.2⟩

/-- An operation whose `await_suspend` has not yet returned. -/
structure Fresh (t : Set ℕ) (id : ℕ) (w : World α) : Prop where
  not_mem : id ∉ w.suspended
  lt_next : id < w.next
  cls : (w.op id).cls = .wait
  inactive : (w.op id).active = false
  error : (w.op id).error = none
  home : ∀ c, (w.node id).home = .channel c → c ∈ t

theorem Fresh.moves (hf : Fresh t id w) (hm : Moves t w w') : Fresh t id w' := by
  induction hm with
  | refl => exact hf
  | tail _ h ih =>
    cases h with
    | quiet h =>
      exact
      { not_mem := h.suspended ▸ ih.not_mem
        lt_next := h.next ▸ ih.lt_next
        cls := (h.op id).cls.trans ih.cls
        inactive := (h.op id).active.trans ih.inactive
        error := (h.op id).error.trans ih.error
        home := h.home id ▸ ih.home }
    | @complete i _ _ h =>
      have hne : id ≠ i := by
        rintro rfl
        exact Bool.false_ne_true (ih.inactive.symm.trans h.active)
      have hop := h.op id hne
      exact
      { not_mem := h.suspended ▸ ih.not_mem
        lt_next := h.next ▸ ih.lt_next
        cls := hop ▸ ih.cls
        inactive := hop ▸ ih.inactive
        error := hop ▸ ih.error
        home := h.node ▸ ih.home }

/-! ### The invariant -/

/-- From `w₀` to `w` nothing happens to a channel and its operations but that waiters are completed,
senders with an error, and unlinked. -/
structure Prunes (c : ℕ) (w₀ w : World α) : Prop where
  channel : ∃ ws, ws.Sublist (w₀.channel c).waiters ∧
    w.channel c = { w₀.channel c with waiters := ws } ∧
    ∀ id ∈ (w₀.channel c).waiters, (w.op id).active = true → id ∈ ws
  node : ∀ id < w₀.next, (w₀.node id).home = .channel c → w.node id = w₀.node id
  home : ∀ id < w.next, (w.node id).home = .channel c →
    id < w₀.next ∧ (w₀.node id).home = .channel c
  op : ∀ id < w₀.next, (w₀.node id).home = .channel c →
    (w₀.op id).Settles (w₀.node id).sending (w.op id)

theorem Prunes.refl (c : ℕ) (w : World α) : Prunes c w w where
  channel := ⟨_, .refl _, rfl, fun _ h _ => h⟩
  node _ _ _ := rfl
  home _ hid h := ⟨hid, h⟩
  op _ _ _ := .inl ⟨rfl, rfl⟩

theorem Prunes.trans (hp : Prunes c w₀ w) (hp' : Prunes c w w') (hle : w₀.next ≤ w.next)
    (hlinked : ∀ i ∈ (w₀.channel c).waiters, i < w₀.next ∧ (w₀.node i).home = .channel c) :
    Prunes c w₀ w' := by
  have hw : ∀ i < w₀.next, (w₀.node i).home = .channel c →
      i < w.next ∧ (w.node i).home = .channel c := fun i hi h =>
    ⟨Nat.lt_of_lt_of_le hi hle, by rwa [hp.node i hi h]⟩
  refine ⟨?_, fun i hi h => ?_, fun i hi h => ?_, fun i hi h => ?_⟩
  · obtain ⟨ws, hws, hchannel, hactive⟩ := hp.channel
    obtain ⟨ws', hws', hchannel', hactive'⟩ := hp'.channel
    rw [hchannel] at hws' hchannel' hactive'
    refine ⟨ws', hws'.trans hws, hchannel', fun i hi h => hactive' i (hactive i hi ?_) h⟩
    obtain ⟨hlt, hhome⟩ := hw i (hlinked i hi).1 (hlinked i hi).2
    exact (hp'.op i hlt hhome).active h
  · obtain ⟨hlt, hhome⟩ := hw i hi h
    rw [hp'.node i hlt hhome, hp.node i hi h]
  · obtain ⟨hlt, hhome⟩ := hp'.home i hi h
    exact hp.home i hlt hhome
  · obtain ⟨hlt, hhome⟩ := hw i hi h
    have := hp'.op i hlt hhome
    rw [hp.node i hi h] at this
    exact (hp.op i hi h).trans this

theorem Prunes.of_eq (hp : Prunes c w₀ w) (hchannel : w'.channel = w.channel)
    (hnode : w'.node = w.node) (hnext : w'.next = w.next) (hop : w'.op = w.op) :
    Prunes c w₀ w' := by
  refine ⟨?_, ?_, ?_, ?_⟩
  · rw [hchannel, hop]
    exact hp.channel
  · rw [hnode]
    exact hp.node
  · rw [hnode, hnext]
    exact hp.home
  · rw [hop]
    exact hp.op

/-- A new operation belongs to another channel. -/
theorem Prunes.alloc (hp : Prunes c w₀ w) (hle : w₀.next ≤ w.next) {op : Op} {node : Node α}
    (hnode : node.home ≠ .channel c)
    (hlinked : ∀ i ∈ (w₀.channel c).waiters, i < w₀.next ∧ (w₀.node i).home = .channel c) :
    Prunes c w₀ (w.alloc op node) := by
  have hop : ∀ i < w₀.next, (w.alloc op node).op i = w.op i := fun i hi => by
    rw [op_alloc, if_neg (Nat.ne_of_lt (Nat.lt_of_lt_of_le hi hle))]
  refine ⟨?_, fun i hi h => ?_, fun i hi h => ?_, fun i hi h => ?_⟩
  · obtain ⟨ws, hws, hchannel, hactive⟩ := hp.channel
    refine ⟨ws, hws, hchannel, fun i hi => ?_⟩
    rw [hop i (hlinked i hi).1]
    exact hactive i hi
  · rw [← hp.node i hi h]
    exact update_of_ne (Nat.ne_of_lt (Nat.lt_of_lt_of_le hi hle)) ..
  · rw [node_alloc] at h
    split_ifs at h with hne
    · exact absurd h hnode
    · exact hp.home i (Nat.lt_of_le_of_ne (Nat.le_of_lt_succ hi) hne) h
  · rw [hop i hi]
    exact hp.op i hi h

/-- A step that keeps a channel and settles its operations prunes it. -/
theorem Keeps.prunes (hk : Keeps c w w') (hnext : w'.next = w.next)
    (hhome : ∀ i, (w'.node i).home = (w.node i).home)
    (hop : ∀ i, (w.node i).home = .channel c → (w.op i).Settles (w.node i).sending (w'.op i)) :
    Prunes c w w' where
  channel := hk.channel
  node i _ h := hk.node i h
  home i hi h := ⟨hnext ▸ hi, hhome i ▸ h⟩
  op i _ h := hop i h

/-- What never changes from `w₀` on: the linked nodes are waits and belong there, no pointer is
used twice, and no flag is cleared. The channels outside `t` are only pruned. -/
structure Based (t : Set ℕ) (w₀ w : World α) : Prop where
  event : ∀ e, ∀ id ∈ (w.event e).waiters,
    id < w.next ∧ (w.op id).cls = .wait ∧ (w.node id).home = .event e
  channel : ∀ c, ∀ id ∈ (w.channel c).waiters,
    id < w.next ∧ (w.op id).cls = .wait ∧ (w.node id).home = .channel c
  homed : ∀ id c, (w.node id).home = .channel c → (w.op id).cls = .wait
  next_le : w₀.next ≤ w.next
  same : ∀ id < w₀.next, (w₀.op id).Same (w.op id)
  home : ∀ id < w₀.next, (w.node id).home = (w₀.node id).home
  stop : w₀.loop.stopping = true → w.loop.stopping = true
  suspended_subset : w₀.suspended ⊆ w.suspended
  suspended_home : ∀ id ∈ w.suspended,
    id ∈ w₀.suspended ∨ ∀ c, (w.node id).home = .channel c → c ∈ t
  linked : ∀ c, ∀ id ∈ (w₀.channel c).waiters, id < w₀.next ∧ (w₀.node id).home = .channel c
  prunes : ∀ c ∉ t, Prunes c w₀ w

theorem Based.step (hb : Based t w₀ w) (hop : ∀ i, (w.op i).Same (w'.op i))
    (hnext : w'.next = w.next) (hstop : w.loop.stopping = true → w'.loop.stopping = true)
    (hsuspended : w.suspended ⊆ w'.suspended)
    (hnew : ∀ i ∈ w'.suspended, i ∈ w.suspended ∨ ∀ c, (w.node i).home = .channel c → c ∈ t)
    (hlink : Linkable w w') (hhome : ∀ i, (w'.node i).home = (w.node i).home)
    (hkeeps : ∀ c ∉ t, Keeps c w w') (hsettles : ∀ c ∉ t, ∀ i, (w.node i).home = .channel c →
      (w.op i).Settles (w.node i).sending (w'.op i)) : Based t w₀ w' where
  event e id hid := by
    rw [hnext, (hop id).cls, hhome]
    exact (hlink.1 e id hid).elim (hb.event e id) fun h => h
  channel c id hid := by
    rw [hnext, (hop id).cls, hhome]
    exact (hlink.2 c id hid).elim (hb.channel c id) fun h => h
  homed id c hid := by
    rw [hhome] at hid
    rw [(hop id).cls]
    exact hb.homed id c hid
  next_le := hnext ▸ hb.next_le
  same id hid := (hb.same id hid).trans (hop id)
  home id hid := (hhome id).trans (hb.home id hid)
  stop := hstop ∘ hb.stop
  suspended_subset := List.Subset.trans hb.suspended_subset hsuspended
  suspended_home id hid := by
    rw [hhome]
    exact (hnew id hid).elim (hb.suspended_home id) .inr
  linked := hb.linked
  prunes c hc := (hb.prunes c hc).trans
    ((hkeeps c hc).prunes hnext hhome (hsettles c hc)) hb.next_le (hb.linked c)

/-- The state `w`, reached from `w₀`, has the armed timers `T` and the vector `S` in `timers_`.
The two lists are equal between calls. Every suspended operation is either active and in exactly
one of `T` and `waits_`, or completed and counted once in what was and will be resumed, and what
was completed in `w₀` has the same result in `w`. -/
structure Sound (t : Set ℕ) (T S : List ℕ) (w₀ w : World α) : Prop extends Based t w₀ w where
  store : w.loop.timers = S
  timer : ∀ id ∈ T, (w.op id).cls = .timer ∧ (w.op id).active = true
  timers_nodup : T.Nodup
  waiting : ∀ id ∈ w.loop.waits, (w.op id).cls = .wait ∧ (w.op id).active = true
  waits_nodup : w.loop.waits.Nodup
  pending : ∀ id, (w.op id).active = true →
    (id ∈ T ∨ id ∈ w.loop.waits) ∧ id ∈ w.suspended ∧ (w.op id).error = none
  suspended_lt : ∀ id ∈ w.suspended, id < w.next
  suspended_nodup : w.suspended.Nodup
  completed : ∀ id, (w.resumed ++ w.loop.ready).count id =
    if id ∈ w.suspended ∧ (w.op id).active = false then 1 else 0
  canceled : ∀ id ∈ w.suspended, (w.op id).error = some .operationCanceled →
    (w.op id).canceled = true ∨ w.loop.stopping = true
  kept : ∀ id ∈ w₀.suspended, (w₀.op id).active = false → (w.op id).active = false ∧
    (w.op id).error = (w₀.op id).error ∧ (w.node id).value = (w₀.node id).value

namespace Sound

section

variable (hs : Sound t T S w₀ w)
include hs

/-- What holds of a state reached from `w₀` holds of it as a start. -/
theorem rebase {t' : Set ℕ} : Sound t' T S w w :=
  { hs with
    next_le := Nat.le_refl _
    same := fun _ _ => .refl _
    home := fun _ _ => rfl
    stop := fun h => h
    suspended_subset := List.Subset.refl _
    suspended_home := fun _ hid => .inl hid
    linked := fun c id hid => ⟨(hs.channel c id hid).1, (hs.channel c id hid).2.2⟩
    prunes := fun c _ => .refl c w
    kept := fun _ _ h => ⟨h, rfl, rfl⟩ }

theorem mono {t' : Set ℕ} (ht : t ⊆ t') : Sound t' T S w₀ w :=
  { hs with
    suspended_home := fun id hid => (hs.suspended_home id hid).imp_right fun h c hc => ht (h c hc)
    prunes := fun c hc => hs.prunes c fun h => hc (ht h) }

theorem trans {T' S' : List ℕ} (hs' : Sound t T' S' w w') : Sound t T' S' w₀ w' :=
  { hs' with
    next_le := Nat.le_trans hs.next_le hs'.next_le
    same := fun id hid =>
      (hs.same id hid).trans (hs'.same id (Nat.lt_of_lt_of_le hid hs.next_le))
    home := fun id hid =>
      (hs'.home id (Nat.lt_of_lt_of_le hid hs.next_le)).trans (hs.home id hid)
    stop := hs'.stop ∘ hs.stop
    suspended_subset := List.Subset.trans hs.suspended_subset hs'.suspended_subset
    suspended_home := fun id hid => by
      rcases hs'.suspended_home id hid with hw | hw
      · refine (hs.suspended_home id hw).imp_right fun h c hc => ?_
        by_contra hct
        exact hct (h c ((hs'.prunes c hct).home id (hs'.suspended_lt id hid) hc).2)
      · exact .inr hw
    linked := hs.linked
    prunes := fun c hc => (hs.prunes c hc).trans (hs'.prunes c hc) hs.next_le (hs.linked c)
    kept := fun id hid hactive => by
      obtain ⟨hactive, herror, hvalue⟩ := hs.kept id hid hactive
      obtain ⟨hactive', herror', hvalue'⟩ := hs'.kept id (hs.suspended_subset hid) hactive
      exact ⟨hactive', herror'.trans herror, hvalue'.trans hvalue⟩ }

theorem quiet (h : Quiet t w w') : Sound t T S w₀ w' where
  toBased := hs.toBased.step (fun i => (h.op i).toSame) h.next h.stopping
    (h.suspended ▸ List.Subset.refl _) (fun _ hi => .inl (h.suspended ▸ hi)) h.linkable h.home
    h.keeps
    fun _ _ i _ => .inl ⟨(h.op i).active, (h.op i).error⟩
  store := h.timers.trans hs.store
  timer id hid := by
    rw [(h.op id).cls, (h.op id).active]
    exact hs.timer id hid
  timers_nodup := hs.timers_nodup
  waiting id hid := by
    rw [(h.op id).cls, (h.op id).active]
    exact hs.waiting id (h.waits ▸ hid)
  waits_nodup := h.waits ▸ hs.waits_nodup
  pending id hactive := by
    rw [h.waits, h.suspended, (h.op id).error]
    exact hs.pending id ((h.op id).active ▸ hactive)
  suspended_lt := by
    rw [h.suspended, h.next]
    exact hs.suspended_lt
  suspended_nodup := h.suspended ▸ hs.suspended_nodup
  completed id := by
    rw [h.resumed, h.ready, h.suspended, (h.op id).active]
    exact hs.completed id
  canceled id hid herror := by
    rw [h.suspended] at hid
    rw [(h.op id).error] at herror
    exact (hs.canceled id hid herror).imp (h.op id).canceled h.stopping
  kept id hid hactive := by
    obtain ⟨hact, herror, hvalue⟩ := hs.kept id hid hactive
    rw [(h.op id).active, (h.op id).error, h.value id (hs.suspended_subset hid) hact]
    exact ⟨hact, herror, hvalue⟩

/-- The order of the armed timers does not matter. -/
theorem perm {T' : List ℕ} (h : T.Perm T') : Sound t T' S w₀ w :=
  { hs with
    timer := fun id hid => hs.timer id (h.mem_iff.mpr hid)
    timers_nodup := h.nodup_iff.mp hs.timers_nodup
    pending := fun id hactive => (hs.pending id hactive).imp_left (.imp_left h.mem_iff.mp) }

theorem setTimers (S' : List ℕ) : Sound t T S' w₀ (w.setTimers S') :=
  { hs with
    prunes := fun c hc => (hs.prunes c hc).of_eq rfl rfl rfl rfl
    store := rfl }

theorem not_mem_next : w.next ∉ w.suspended := fun h =>
  Nat.lt_irrefl _ (hs.suspended_lt _ h)

theorem lt_next (h : (w.op id).active = true) : id < w.next :=
  hs.suspended_lt id (hs.pending id h).2.1

/-- A new operation is not active. -/
theorem alloc {op : Op} {node : Node α} (hop : op.active = false)
    (hhome : ∀ c, node.home = .channel c → op.cls = .wait ∧ c ∈ t) :
    Sound t T S w₀ (w.alloc op node) := by
  have hop_of_lt : ∀ i < w.next, (w.alloc op node).op i = w.op i := fun i hi => by
    rw [op_alloc, if_neg (Nat.ne_of_lt hi)]
  have hnode_of_lt : ∀ i < w.next, (w.alloc op node).node i = w.node i := fun i hi =>
    update_of_ne (Nat.ne_of_lt hi) ..
  have hactive : ∀ i, ((w.alloc op node).op i).active = true →
      (w.op i).active = true ∧ (w.alloc op node).op i = w.op i := by
    intro i hi
    rw [op_alloc] at hi ⊢
    split_ifs at hi ⊢
    · exact absurd hi (by simp [hop])
    · exact ⟨hi, rfl⟩
  exact
  { hs with
    event := fun e i hi => by
      obtain ⟨hi, hlinked⟩ := hs.event e i hi
      rw [hop_of_lt i hi, hnode_of_lt i hi]
      exact ⟨Nat.lt_succ_of_lt hi, hlinked⟩
    channel := fun c i hi => by
      obtain ⟨hi, hlinked⟩ := hs.channel c i hi
      rw [hop_of_lt i hi, hnode_of_lt i hi]
      exact ⟨Nat.lt_succ_of_lt hi, hlinked⟩
    homed := fun i c hi => by
      rw [node_alloc] at hi
      rw [op_alloc]
      split_ifs at hi ⊢
      · exact (hhome c hi).1
      · exact hs.homed i c hi
    next_le := Nat.le_succ_of_le hs.next_le
    suspended_home := fun i hi => by
      rw [hnode_of_lt i (hs.suspended_lt i hi)]
      exact hs.suspended_home i hi
    prunes := fun c hc => (hs.prunes c hc).alloc hs.next_le (fun h => hc (hhome c h).2)
      (hs.linked c)
    same := fun i hi => by
      rw [hop_of_lt i (Nat.lt_of_lt_of_le hi hs.next_le)]
      exact hs.same i hi
    home := fun i hi => by
      rw [hnode_of_lt i (Nat.lt_of_lt_of_le hi hs.next_le)]
      exact hs.home i hi
    timer := fun i hi => by
      rw [hop_of_lt i (hs.lt_next (hs.timer i hi).2)]
      exact hs.timer i hi
    waiting := fun i hi => by
      rw [hop_of_lt i (hs.lt_next (hs.waiting i hi).2)]
      exact hs.waiting i hi
    pending := fun i hi => by
      obtain ⟨hi, heq⟩ := hactive i hi
      rw [heq]
      exact hs.pending i hi
    suspended_lt := fun i hi => Nat.lt_succ_of_lt (hs.suspended_lt i hi)
    completed := fun i => by
      by_cases hi : i ∈ w.suspended
      · rw [hop_of_lt i (hs.suspended_lt i hi)]
        exact hs.completed i
      · have h := hs.completed i
        rw [if_neg fun h => hi h.1] at h ⊢
        exact h
    canceled := fun i hi => by
      rw [hop_of_lt i (hs.suspended_lt i hi)]
      exact hs.canceled i hi
    kept := fun i hi => by
      have hi' := hs.suspended_lt i (hs.suspended_subset hi)
      rw [hop_of_lt i hi', hnode_of_lt i hi']
      exact hs.kept i hi }

/-- The error of an operation that was not suspended concerns nobody else. -/
theorem fail (hid : id ∉ w.suspended) (hhome : ∀ c, (w.node id).home = .channel c → c ∈ t)
    (error : Errc) : Sound t T S w₀ (w.fail id error) := by
  have hop : ∀ i ∈ w.suspended, (w.fail id error).op i = w.op i := fun i hi => by
    have hne : i ≠ id := fun h => hid (h ▸ hi)
    rw [op_fail, if_neg hne]
  have hsame : ∀ i, (w.op i).Same ((w.fail id error).op i) ∧
      ((w.fail id error).op i).active = (w.op i).active := fun i => by
    rw [op_fail]
    split_ifs with h
    · subst h
      exact ⟨{ Op.Same.refl (w.op i) with }, rfl⟩
    · exact ⟨.refl _, rfl⟩
  exact
  { hs with
    toBased := hs.toBased.step (fun i => (hsame i).1) rfl (fun h => h) (List.Subset.refl _)
      (fun _ => .inl) (.of_eq rfl rfl) (fun _ => rfl)
      (fun _ _ => .of_eq rfl fun _ _ => rfl) fun c hc i hi => by
        have hne : i ≠ id := fun h => hc (hhome c (h ▸ hi))
        rw [op_fail, if_neg hne]
        exact .inl ⟨rfl, rfl⟩
    timer := fun i hi => by
      rw [(hsame i).2, (hsame i).1.cls]
      exact hs.timer i hi
    waiting := fun i hi => by
      rw [(hsame i).2, (hsame i).1.cls]
      exact hs.waiting i hi
    pending := fun i hi => by
      rw [(hsame i).2] at hi
      rw [hop i (hs.pending i hi).2.1]
      exact hs.pending i hi
    completed := fun i => by
      rw [(hsame i).2]
      exact hs.completed i
    canceled := fun i hi => by
      rw [hop i hi]
      exact hs.canceled i hi
    kept := fun i hi => by
      rw [hop i (hs.suspended_subset hi)]
      exact hs.kept i hi }

/-- An active operation leaves its list for `ready_`. -/
theorem complete (h : Completes id w w') (hfails : Fails t id w w') :
    Sound t (T.erase id) S w₀ w' := by
  have hid : id ∈ w.suspended := (hs.pending id h.active).2.1
  have hT : ∀ i ∈ T.erase id, i ∈ T ∧ i ≠ id := fun i hi =>
    ((hs.timers_nodup.mem_erase_iff).mp hi).symm
  have hwaits : ∀ i ∈ w'.loop.waits, i ∈ w.loop.waits ∧ i ≠ id := fun i hi =>
    ((hs.waits_nodup.mem_erase_iff).mp (h.waits ▸ hi)).symm
  have hactive : ∀ i, (w'.op i).active = true → i ≠ id := by
    rintro i hi rfl
    simp [h.inactive] at hi
  exact
  { toBased := hs.toBased.step h.same_op h.next (h.stopping ▸ fun h => h)
      (h.suspended ▸ List.Subset.refl _) (fun _ hi => .inl (h.suspended ▸ hi)) h.linkable
      (fun i => h.node ▸ rfl)
      (fun c _ => h.keeps c) fun c hc i hi => by
        by_cases hne : i = id
        · subst hne
          exact .inr ⟨h.active, h.inactive, hfails c hc hi⟩
        · rw [h.op i hne]
          exact .inl ⟨rfl, rfl⟩
    store := h.timers.trans hs.store
    timer := fun i hi => by
      obtain ⟨hi, hne⟩ := hT i hi
      rw [h.op i hne]
      exact hs.timer i hi
    timers_nodup := hs.timers_nodup.erase id
    waiting := fun i hi => by
      obtain ⟨hi, hne⟩ := hwaits i hi
      rw [h.op i hne]
      exact hs.waiting i hi
    waits_nodup := h.waits ▸ hs.waits_nodup.erase id
    pending := fun i hi => by
      have hne := hactive i hi
      rw [h.op i hne] at hi ⊢
      rw [h.waits, mem_erase_of_ne hne, mem_erase_of_ne hne, h.suspended]
      exact hs.pending i hi
    suspended_lt := by
      rw [h.suspended, h.next]
      exact hs.suspended_lt
    suspended_nodup := h.suspended ▸ hs.suspended_nodup
    completed := fun i => by
      rw [h.resumed, h.ready, h.suspended, ← append_assoc, count_append, hs.completed i]
      by_cases hi : i = id
      · subst hi
        simp [h.active, h.inactive, hid]
      · rw [h.op i hi, count_singleton, beq_false_of_ne (Ne.symm hi)]
        rfl
    canceled := fun i hi herror => by
      rw [h.stopping]
      by_cases hi' : i = id
      · subst hi'
        exact (h.error herror).imp_left h.same.canceled
      · rw [h.op i hi'] at herror ⊢
        exact hs.canceled i (h.suspended ▸ hi) herror
    kept := fun i hi hinactive => by
      obtain ⟨hact, hresult⟩ := hs.kept i hi hinactive
      have hne : i ≠ id := by
        rintro rfl
        simp [h.active] at hact
      rw [h.op i hne, h.node]
      exact ⟨hact, hresult⟩ }

theorem not_mem_timers (hcls : (w.op id).cls = .wait) : id ∉ T := by
  intro h
  simp [(hs.timer id h).1] at hcls

theorem not_mem_waits (hcls : (w.op id).cls = .timer) : id ∉ w.loop.waits := by
  intro h
  simp [(hs.waiting id h).1] at hcls

/-- A timer is no sender. -/
theorem fails_of_timer (hcls : (w.op id).cls = .timer) : Fails t id w w' := fun c _ hhome => by
  rw [hs.homed id c hhome] at hcls
  cases hcls

theorem complete_wait (hcls : (w.op id).cls = .wait)
    (h : Completes id w w') (hfails : Fails t id w w') : Sound t T S w₀ w' := by
  rw [← erase_of_not_mem (hs.not_mem_timers hcls)]
  exact hs.complete h hfails

theorem moves (hm : Moves t w w') : Sound t T S w₀ w' := by
  induction hm with
  | refl => exact hs
  | tail _ h ih =>
    cases h with
    | quiet h => exact ih.quiet h
    | complete hcls hfails h => exact ih.complete_wait hcls h hfails

/-- A wait is notified: it completes without an error, or is completed already. -/
theorem moves_notify (hcls : (w.op id).cls = .wait)
    (hhome : ∀ c ∉ t, (w.node id).home = .channel c → (w.node id).sending = false) :
    Moves t w (w.notify id) := by
  by_cases hactive : (w.op id).active = true
  · refine .single (.complete hcls (fun c hc h hsending => ?_)
      (.notify hactive (hs.pending id hactive).2.2))
    exact absurd (hhome c hc h ▸ hsending) Bool.false_ne_true
  · have : w.notify id = w := by simp [World.notify, Owner.notify, hactive]
    rw [this]
    exact .refl

/-- A new operation is suspended. -/
theorem suspend {ts us : List ℕ} (h : Suspends t id ts us w w') :
    Sound t (ts ++ T) w'.loop.timers w₀ w' := by
  have hop : ∀ i, i ≠ id → w'.op i = w.op i := fun i hi => by rw [h.op, if_neg hi]
  have hself : (w'.op id).active = true := by simp [h.op]
  have hsame : ∀ i, (w.op i).Same (w'.op i) ∧ (w'.op i).error = (w.op i).error := fun i => by
    rw [h.op]
    split_ifs with hi
    · subst hi
      exact ⟨{ Op.Same.refl (w.op i) with }, rfl⟩
    · exact ⟨.refl _, rfl⟩
  have hne : ∀ i, (w.op i).active = true → i ≠ id := by
    rintro i hi rfl
    exact h.fresh (hs.pending i hi).2.1
  have hnew : ∀ i ∈ w'.suspended, i ∈ w.suspended ∨ ∀ c, (w.node i).home = .channel c → c ∈ t := by
    intro i hi
    rw [h.suspended, mem_append, mem_singleton] at hi
    rcases hi with hi | rfl
    · exact .inl hi
    · exact .inr h.home
  have hT : id ∉ T := fun hi => hne id (hs.timer id hi).2 rfl
  have hwaits : id ∉ w.loop.waits := fun hi => hne id (hs.waiting id hi).2 rfl
  exact
  { toBased := hs.toBased.step (fun i => (hsame i).1) h.next (h.stopping ▸ fun h => h)
      (h.suspended ▸ subset_append_left ..) hnew (.of_eq h.event h.channel)
      (fun i => h.node ▸ rfl)
      (fun c _ => .of_eq (h.channel ▸ rfl) fun i _ => h.node ▸ rfl) fun c hc i hi => by
        have hne : i ≠ id := fun h' => hc (h.home c (h' ▸ hi))
        rw [hop i hne]
        exact .inl ⟨rfl, rfl⟩
    store := rfl
    timer := fun i hi => by
      rcases mem_append.mp hi with hi | hi
      · rcases h.list with ⟨rfl, -, -⟩ | ⟨rfl, -, hcls⟩
        · exact absurd hi not_mem_nil
        · obtain rfl := mem_singleton.mp hi
          exact ⟨(hsame i).1.cls.trans hcls, hself⟩
      · rw [hop i (hne i (hs.timer i hi).2)]
        exact hs.timer i hi
    timers_nodup := by
      rcases h.list with ⟨rfl, -, -⟩ | ⟨rfl, -, -⟩
      · exact hs.timers_nodup
      · exact nodup_cons.mpr ⟨hT, hs.timers_nodup⟩
    waiting := fun i hi => by
      rw [h.waits] at hi
      rcases mem_append.mp hi with hi | hi
      · rcases h.list with ⟨-, rfl, hcls⟩ | ⟨-, rfl, -⟩
        · obtain rfl := mem_singleton.mp hi
          exact ⟨(hsame i).1.cls.trans hcls, hself⟩
        · exact absurd hi not_mem_nil
      · rw [hop i (hne i (hs.waiting i hi).2)]
        exact hs.waiting i hi
    waits_nodup := by
      rw [h.waits]
      rcases h.list with ⟨-, rfl, -⟩ | ⟨-, rfl, -⟩
      · exact nodup_cons.mpr ⟨hwaits, hs.waits_nodup⟩
      · exact hs.waits_nodup
    pending := fun i hi => by
      rw [h.waits, h.suspended, (hsame i).2]
      by_cases hid : i = id
      · subst hid
        refine ⟨?_, by simp, h.error⟩
        rcases h.list with ⟨-, rfl, -⟩ | ⟨rfl, -, -⟩
        · exact .inr mem_cons_self
        · exact .inl mem_cons_self
      · rw [hop i hid] at hi
        obtain ⟨hlist, hsuspended, herror⟩ := hs.pending i hi
        exact ⟨hlist.imp (mem_append_right ts) (mem_append_right us),
          mem_append_left _ hsuspended, herror⟩
    suspended_lt := fun i hi => by
      rw [h.next]
      rw [h.suspended, mem_append, mem_singleton] at hi
      rcases hi with hi | rfl
      · exact hs.suspended_lt i hi
      · exact h.lt_next
    suspended_nodup := by
      rw [h.suspended]
      exact hs.suspended_nodup.append (nodup_singleton id) (by simpa using h.fresh)
    completed := fun i => by
      rw [h.resumed, h.ready, h.suspended, hs.completed i]
      by_cases hi : i = id
      · subst hi
        simp [hself, h.fresh]
      · simp [hop i hi, hi]
    canceled := fun i hi herror => by
      rw [h.stopping]
      rw [(hsame i).2] at herror
      rw [h.suspended, mem_append, mem_singleton] at hi
      rcases hi with hi | rfl
      · exact (hs.canceled i hi herror).imp_left (hsame i).1.canceled
      · simp [h.error] at herror
    kept := fun i hi hinactive => by
      have hne : i ≠ id := fun h' => h.fresh (h' ▸ hs.suspended_subset hi)
      rw [hop i hne, h.node]
      exact hs.kept i hi hinactive }

/-- A coroutine is resumed. -/
theorem resume : Sound t T S w₀ w.resume := by
  unfold World.resume
  split
  · exact hs
  · rename_i id rest hready
    exact
    { hs with
      prunes := fun c hc => (hs.prunes c hc).of_eq rfl rfl rfl rfl
      completed := fun i => by
        rw [← hs.completed i, hready]
        simp }

/-- A coroutine that yields is suspended and completed at once. -/
theorem yield : Sound t T S w₀ w.yield := by
  have hs' : Sound t T S w₀ (w.alloc {} {}) := hs.alloc rfl fun _ h => nomatch h
  have hself : w.yield.op w.next = {} := (op_alloc w {} {} _).trans (if_pos rfl)
  exact
  { hs' with
    suspended_subset := fun i hi => mem_append_left _ (hs'.suspended_subset hi)
    suspended_home := fun i hi => by
      rcases mem_append.mp hi with hi | hi
      · exact hs'.suspended_home i hi
      · obtain rfl := mem_singleton.mp hi
        refine .inr fun c hc => ?_
        have hhome : (w.yield.node w.next).home = .timers := by
          change ((w.alloc {} {}).node w.next).home = _
          rw [node_alloc, if_pos rfl]
        cases hhome.symm.trans hc
    prunes := fun c hc => (hs'.prunes c hc).of_eq rfl rfl rfl rfl
    pending := fun i hi => by
      obtain ⟨hlist, hsuspended, herror⟩ := hs'.pending i hi
      exact ⟨hlist, mem_append_left _ hsuspended, herror⟩
    suspended_lt := fun i hi => by
      rcases mem_append.mp hi with hi | hi
      · exact hs'.suspended_lt i hi
      · exact mem_singleton.mp hi ▸ Nat.lt_succ_self _
    suspended_nodup :=
      hs.suspended_nodup.append (nodup_singleton _) (by simpa using hs.not_mem_next)
    completed := fun i => by
      change (w.resumed ++ (w.loop.ready ++ [w.next])).count i =
        if i ∈ w.suspended ++ [w.next] ∧ _ then 1 else 0
      rw [← append_assoc, count_append, hs.completed i]
      by_cases hi : i = w.next
      · subst hi
        simp [hs.not_mem_next, hself]
      · have hop : w.yield.op i = w.op i := (op_alloc w {} {} i).trans (if_neg hi)
        have hcount : [w.next].count i = 0 := count_eq_zero.mpr (by simpa using hi)
        simp [hi, hop, hcount]
    canceled := fun i hi herror => by
      rcases mem_append.mp hi with hi | hi
      · exact hs'.canceled i hi herror
      · rw [mem_singleton.mp hi, hself] at herror
        cases herror }

end

end Sound

end World

end Snowy
