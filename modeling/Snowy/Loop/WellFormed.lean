import Snowy.Loop.Frame

/-!
# The lists of the loop

Which operations the lists of the loop hold, in every state of every interleaving: `timers_`,
`io_` and `waits_` hold operations of their own class, a wait in `waits_` is active and there
once, and a `remote_wait` in `waits_` that has been unlinked from its queue has its delivery
under way.

Only a suspension adds an operation to a list, at its beginning (`State.begin`, which reserves a
place in `timers_`) and at its end (`Links`). All the other steps shrink the lists (`Shrinks`).
The invariant, and every other fact about the places of operations, follows from this.

## Main definitions

* `Snowy.Loop.WellFormed` : the invariant.
* `Snowy.Loop.Shrinks`, `Snowy.Loop.Links` : what a step can do to the lists.

## Main results

* `Snowy.Loop.Reachable.wellFormed` : every reachable state is well formed.
* `Snowy.Loop.Step.shape` : a step shrinks the lists, links an operation or begins a suspension.
* `Snowy.Loop.Step.relinks` : an operation is linked in a queue once in its life.
-/

namespace Snowy.Loop

open List

variable {cfg : Config} {s t : State}

/-- The delivery of a `remote_wait` has been sent and has not run. -/
def State.InFlight (s : State) (id : ℕ) : Prop :=
  .wait id ∈ s.loop.messages ∨ .wait id ∈ s.pc.detached

/-- A scan has still to look at operations of the list it scans, each once. -/
def Phase.Inside (timers io waits : List ℕ) : Phase → Prop
  | .timers _ kept rest => kept ⊆ timers ∧ rest ⊆ timers
  | .io _ rest => rest ⊆ io
  | .waits _ rest => rest ⊆ waits ∧ rest.Nodup
  | _ => True

/-- An operation of a suspension that has not been linked is as `Kind.make` left it, up to its
callback and its flag, and the loop does not know it except for a reserved place in `timers_`. -/
structure Fresh (kind : Kind) (s : State) (id : ℕ) : Prop where
  lt : id < s.next
  cls : (s.op id).cls = kind.cls
  inactive : (s.op id).active = false
  interruptible : (s.op id).interruptible = kind.arms
  interrupt : (s.op id).interrupt = true ↔ ∃ b, kind = .remote b
  linked : (s.op id).linked = false
  not_mem_io : id ∉ s.loop.io
  not_mem_waits : id ∉ s.loop.waits

/-- The lists of the loop hold the right operations. -/
structure WellFormed (s : State) : Prop where
  timers : ∀ id ∈ s.loop.timers, id < s.next ∧ (s.op id).cls = .timer
  io : ∀ id ∈ s.loop.io, id < s.next ∧ (s.op id).cls = .io
  waits : ∀ id ∈ s.loop.waits, id < s.next ∧ (s.op id).cls = .wait ∧ (s.op id).active = true
  nodup : s.loop.waits.Nodup
  unlinked_nodup : s.user.unlinked.Nodup
  unlinked : ∀ kind, s.user.kind = some kind → ∀ id ∈ s.user.unlinked, Fresh kind s id
  linked : ∀ id, (s.op id).linked = true → id < s.next
  inFlight : ∀ id ∈ s.loop.waits, (s.op id).interrupt = true → (s.op id).linked = false →
    s.InFlight id
  inside : ∀ phase, s.pc = .expire phase → phase.Inside s.loop.timers s.loop.io s.loop.waits

/-! ### What a step can do to the lists -/

/-- What such a step can do to one operation: where it belongs does not change, it is completed only
if it is `out` of `waits_`, and leaves the queue of its `remote_wait` only if it is in `flight`. -/
structure Fades (out flight : Prop) (o o' : Op) : Prop where
  cls : o'.cls = o.cls := by rfl
  interrupt : o'.interrupt = o.interrupt := by rfl
  interruptible : o'.interruptible = o.interruptible := by rfl
  cancelSent : o.cancelSent = true → o'.cancelSent = true := by exact fun h => h
  active : o'.active = o.active ∨ o'.active = false ∧ out := by exact .inl rfl
  linked : o'.linked = o.linked ∨ o'.linked = false ∧ flight := by exact .inl rfl

/-- A step that adds no operation to a list, and loses no delivery of a wait. -/
structure Shrinks (s t : State) : Prop where
  timers : t.loop.timers ⊆ s.loop.timers := by exact List.Subset.refl _
  io : t.loop.io ⊆ s.loop.io := by exact List.Subset.refl _
  waits : t.loop.waits.Sublist s.loop.waits := by exact List.Sublist.refl _
  next : s.next ≤ t.next := by exact le_rfl
  kind : t.user.unlinked ≠ [] → t.user.kind = s.user.kind := by exact fun _ => rfl
  unlinked : t.user.unlinked.Sublist s.user.unlinked := by exact List.Sublist.refl _
  op : ∀ id, Fades (id ∉ t.loop.waits) (id ∈ t.loop.waits → t.InFlight id) (s.op id) (t.op id) := by
    exact fun _ => {}
  inFlight : ∀ id ∈ t.loop.waits, s.InFlight id → t.InFlight id := by exact fun _ _ h => h

/-- The last step of a suspension, for one operation: a timer is already in `timers_`, an I/O
request and a wait enter their lists, and a `remote_wait` enters its queue. -/
structure Links (kind : Kind) (id : ℕ) (s t : State) : Prop where
  timers : t.loop.timers ⊆ s.loop.timers := by exact List.Subset.refl _
  io : t.loop.io = s.loop.io ∨ t.loop.io = id :: s.loop.io ∧ kind.cls = .io := by exact .inl rfl
  waits : t.loop.waits = s.loop.waits ∨
    t.loop.waits = id :: s.loop.waits ∧ kind.cls = .wait := by exact .inl rfl
  messages : t.loop.messages = s.loop.messages := by rfl
  pc : t.pc = s.pc := by rfl
  next : t.next = s.next := by rfl
  op : ∃ linked, ((s.op id).interrupt = true → linked = true) ∧
    t.op = Function.update s.op id { s.op id with active := true, linked }

theorem Links.others {kind : Kind} {id : ℕ} (h : Links kind id s t) (i : ℕ) (hi : i ≠ id) :
    t.op i = s.op i := by
  obtain ⟨linked, -, hop⟩ := h.op
  rw [hop, Function.update_of_ne hi]

/-- A notification shrinks `waits_`, whatever it changed before in the notified wait. -/
theorem Shrinks.of_notify (hs : WellFormed s) {id : ℕ} {o : Owner} (hloop : o.loop = s.loop)
    (hothers : ∀ i, i ≠ id → o.op i = s.op i)
    (hop : ∃ linked error, (linked = (s.op id).linked ∨ linked = false) ∧
      o.op id = { s.op id with linked, error })
    (howner : t.toOwner = o.notify id) (hnext : t.next = s.next) (huser : t.user = s.user)
    (hflight : ∀ i, i ≠ id → s.InFlight i → t.InFlight i) : Shrinks s t := by
  obtain ⟨linked, error, hlinked, hop⟩ := hop
  have hsame : ∀ i, i ≠ id → t.op i = s.op i := by
    intro i hi
    rw [howner, Owner.op_notify, if_neg (by simp [hi]), hothers i hi]
  have hdone : t.op id = { s.op id with
      linked, error, active := false,
      callback := if (s.op id).active then false else (s.op id).callback } := by
    rw [howner, Owner.op_notify, hop]
    split_ifs with h h' h' <;> simp_all
  have hwaits : t.loop.waits = s.loop.waits.erase id := by
    simp only [howner, Owner.loop_notify, hloop, hop]
    split_ifs with h
    · rfl
    · exact (erase_of_not_mem fun hid => h (hs.waits id hid).2.2).symm
  have hout : id ∉ t.loop.waits := hwaits ▸ hs.nodup.not_mem_erase
  have hne : ∀ i ∈ t.loop.waits, i ≠ id := fun i hi h => hout (h ▸ hi)
  refine
    { timers := by simp [howner, hloop]
      io := by simp [howner, hloop]
      waits := hwaits ▸ erase_sublist
      next := hnext.ge
      kind := fun _ => by rw [huser]
      unlinked := by rw [huser]
      op := fun i => ?_
      inFlight := fun i hi => hflight i (hne i hi) }
  by_cases hi : i = id
  · rw [hi, hdone]
    exact { active := .inr ⟨rfl, hout⟩
            linked := hlinked.imp_right fun h => ⟨h, fun hid => absurd hid hout⟩ }
  · rw [hsame i hi]
    exact {}

/-- An operation that is not in `waits_` completes. -/
theorem Shrinks.of_done {id : ℕ} (hwait : id ∉ s.loop.waits)
    (hothers : ∀ i, i ≠ id → t.op i = s.op i)
    (hdone : ∃ error, t.op id = { s.op id with error, callback := false, active := false })
    (htimers : t.loop.timers ⊆ s.loop.timers) (hio : t.loop.io ⊆ s.loop.io)
    (hwaits : t.loop.waits = s.loop.waits) (hnext : t.next = s.next)
    (hkind : t.user.unlinked ≠ [] → t.user.kind = s.user.kind)
    (hunlinked : t.user.unlinked.Sublist s.user.unlinked)
    (hflight : ∀ i, s.InFlight i → t.InFlight i) : Shrinks s t := by
  obtain ⟨error, hdone⟩ := hdone
  refine
    { timers := htimers
      io := hio
      waits := hwaits ▸ List.Sublist.refl _
      next := hnext.ge
      kind := hkind
      unlinked := hunlinked
      op := fun i => ?_
      inFlight := fun i _ => hflight i }
  by_cases hi : i = id
  · rw [hi, hdone, hwaits]
    exact { active := .inr ⟨rfl, hwait⟩ }
  · rw [hothers i hi]
    exact {}

/-- The flags of one operation change, and nothing that says where it belongs. -/
theorem Shrinks.of_setOp {id : ℕ} {f : Op → Op} (hop : t.op = (s.setOp id f).op)
    (hf : ∀ o, ∃ error canceled callback cancelSent, (o.cancelSent = true → cancelSent = true) ∧
      f o = { o with error, canceled, callback, cancelSent })
    (hloop : t.loop = s.loop) (hnext : t.next = s.next)
    (hkind : t.user.kind = s.user.kind) (hunlinked : t.user.unlinked = s.user.unlinked)
    (hflight : ∀ i, s.InFlight i → t.InFlight i) : Shrinks s t := by
  obtain ⟨error, canceled, callback, cancelSent, hsent, hf⟩ := hf (s.op id)
  refine
    { timers := by simp [hloop]
      io := by simp [hloop]
      waits := by simp [hloop]
      next := hnext.ge
      kind := fun _ => hkind
      unlinked := by rw [hunlinked]
      op := fun i => ?_
      inFlight := fun i _ => hflight i }
  rw [hop, Owner.op_setOp]
  split_ifs with hi
  · rw [hi, hf]
    exact { cancelSent := hsent }
  · exact {}

theorem WellFormed.of_shrinks (hs : WellFormed s) (h : Shrinks s t)
    (inside : ∀ phase, t.pc = .expire phase → phase.Inside t.loop.timers t.loop.io t.loop.waits) :
    WellFormed t where
  timers id hid := by
    rw [(h.op id).cls]
    exact (hs.timers id (h.timers hid)).imp_left (·.trans_le h.next)
  io id hid := by
    rw [(h.op id).cls]
    exact (hs.io id (h.io hid)).imp_left (·.trans_le h.next)
  waits id hid := by
    have hold := hs.waits id (h.waits.subset hid)
    rw [(h.op id).cls]
    refine ⟨hold.1.trans_le h.next, hold.2.1, ?_⟩
    rcases (h.op id).active with hactive | ⟨-, hout⟩
    · exact hactive.trans hold.2.2
    · exact absurd hid hout
  nodup := h.waits.nodup hs.nodup
  unlinked_nodup := h.unlinked.nodup hs.unlinked_nodup
  unlinked kind hkind id hid := by
    rw [h.kind (ne_nil_of_mem hid)] at hkind
    have hold := hs.unlinked kind hkind id (h.unlinked.subset hid)
    exact
      { lt := hold.lt.trans_le h.next
        cls := (h.op id).cls.trans hold.cls
        inactive := (h.op id).active.elim (·.trans hold.inactive) And.left
        interruptible := (h.op id).interruptible.trans hold.interruptible
        interrupt := by rw [(h.op id).interrupt, hold.interrupt]
        linked := (h.op id).linked.elim (·.trans hold.linked) And.left
        not_mem_io := fun hio => hold.not_mem_io (h.io hio)
        not_mem_waits := fun hw => hold.not_mem_waits (h.waits.subset hw) }
  linked id hl := by
    rcases (h.op id).linked with hlinked | ⟨hlinked, -⟩
    · exact (hs.linked id (hlinked ▸ hl)).trans_le h.next
    · simp [hlinked] at hl
  inFlight id hid hi hl := by
    rcases (h.op id).linked with hlinked | ⟨-, hnew⟩
    · rw [(h.op id).interrupt] at hi
      exact h.inFlight id hid (hs.inFlight id (h.waits.subset hid) hi (hlinked ▸ hl))
    · exact hnew hid
  inside := inside

/-! ### The other threads -/

theorem ThreadStep.shrinks {a : ThreadAct} (h : ThreadStep s a t) : Shrinks s t := by
  cases h
  case post | send =>
    simp only [LoopState.post_eq, LoopState.send_eq]
    exact { inFlight := fun _ _ => .imp_left fun hm => by simp [hm] }
  case deliver id error linked =>
    simp only [LoopState.send_eq]
    refine { op := fun i => ?_, inFlight := fun _ _ => .imp_left fun hm => by simp [hm] }
    by_cases h : i = id
    · subst h
      rw [Owner.op_setOp_self]
      exact { linked := .inr ⟨rfl, fun _ => .inl (by simp)⟩ }
    · rw [Owner.op_setOp_of_ne _ _ _ h]
      exact {}
  case fire id _ _ =>
    exact Shrinks.of_setOp rfl (fun _ => ⟨_, _, _, _, fun h => h, rfl⟩) rfl rfl rfl rfl
      fun _ h => h
  all_goals exact {}

/-- The other threads do not touch the lists that `expire()` scans. -/
theorem ThreadStep.lists_eq {a : ThreadAct} (h : ThreadStep s a t) :
    t.pc = s.pc ∧ t.loop.timers = s.loop.timers ∧ t.loop.io = s.loop.io ∧
      t.loop.waits = s.loop.waits := by
  cases h
  case post | send | deliver =>
    simp only [LoopState.post_eq, LoopState.send_eq]
    trivial
  all_goals exact ⟨rfl, rfl, rfl, rfl⟩

theorem WellFormed.thread {a : ThreadAct} (hs : WellFormed s) (h : ThreadStep s a t) :
    WellFormed t := by
  refine hs.of_shrinks h.shrinks fun phase hphase => ?_
  obtain ⟨hpc, htimers, hio, hwaits⟩ := h.lists_eq
  rw [htimers, hio, hwaits]
  exact hs.inside phase (hpc ▸ hphase)

/-! ### User code -/

namespace Kind

variable (kind : Kind) (token : Option ℕ)

theorem cls_make : (kind.make token).cls = kind.cls := by
  cases kind <;> rfl

theorem active_make : (kind.make token).active = false := by
  cases kind <;> rfl

theorem linked_make : (kind.make token).linked = false := by
  cases kind <;> rfl

theorem canceled_make : (kind.make token).canceled = false := by
  cases kind <;> rfl

theorem interruptible_make : (kind.make token).interruptible = kind.arms := by
  cases kind <;> rfl

theorem interrupt_make : (kind.make token).interrupt = true ↔ ∃ b, kind = .remote b := by
  cases kind <;> simp [make]

end Kind

/-- User code does not run in the middle of `expire()`. -/
theorem UserStep.isUser (hr : Reachable cfg s) (h : UserStep cfg s t) : s.pc.isUser = true := by
  by_contra hpc
  have hnone := hr.user_eq_none (Bool.eq_false_iff.mpr hpc)
  cases h <;> simp_all [Pc.isUser]

/-- The operation that a suspension links next, and those after it. -/
theorem WellFormed.of_link (hs : WellFormed s) {kind : Kind} {ids : List ℕ} {id : ℕ}
    {todo : List ℕ} (h : s.user = .suspend kind ids (.link (id :: todo))) :
    Fresh kind s id ∧ (id :: todo).Nodup ∧ ∀ i ∈ todo, Fresh kind s i := by
  have hnodup := hs.unlinked_nodup
  have hids := hs.unlinked
  simp only [h, User.unlinked, User.kind, Stage.unlinked, Option.some.injEq] at hnodup hids
  exact ⟨hids kind rfl id mem_cons_self, hnodup,
    fun i hi => hids kind rfl i (mem_cons_of_mem _ hi)⟩

theorem WellFormed.of_links (hs : WellFormed s) {kind : Kind} {ids : List ℕ} {id : ℕ}
    {todo : List ℕ} (h : s.user = .suspend kind ids (.link (id :: todo)))
    (htodo : t.user = .suspend kind ids (.link todo)) (hlink : Links kind id s t)
    (inside : ∀ phase, t.pc ≠ .expire phase) : WellFormed t := by
  obtain ⟨hfresh, hnodup, hrest⟩ := hs.of_link h
  obtain ⟨linked, hlinked, hop⟩ := hlink.op
  have hself : t.op id = { s.op id with active := true, linked } := by
    rw [hop, Function.update_self]
  have hcls : ∀ i, (t.op i).cls = (s.op i).cls := by
    intro i
    by_cases hi : i = id
    · rw [hi, hself]
    · rw [hlink.others i hi]
  have mem_io : ∀ i ∈ t.loop.io, i ∈ s.loop.io ∨ i = id ∧ kind.cls = .io := by
    intro i hi
    rcases hlink.io with hio | ⟨hio, hk⟩ <;> rw [hio] at hi
    · exact .inl hi
    · exact (mem_cons.mp hi).symm.imp_right fun hi => ⟨hi, hk⟩
  have mem_waits : ∀ i ∈ t.loop.waits, i ∈ s.loop.waits ∨ i = id ∧ kind.cls = .wait := by
    intro i hi
    rcases hlink.waits with hw | ⟨hw, hk⟩ <;> rw [hw] at hi
    · exact .inl hi
    · exact (mem_cons.mp hi).symm.imp_right fun hi => ⟨hi, hk⟩
  constructor
  case timers =>
    intro i hi
    rw [hlink.next, hcls i]
    exact hs.timers i (hlink.timers hi)
  case io =>
    intro i hi
    rw [hlink.next, hcls i]
    rcases mem_io i hi with hi | ⟨rfl, hk⟩
    · exact hs.io i hi
    · exact ⟨hfresh.lt, hfresh.cls.trans hk⟩
  case waits =>
    intro i hi
    rw [hlink.next, hcls i]
    rcases mem_waits i hi with hi | ⟨rfl, hk⟩
    · have hne : i ≠ id := fun h => hfresh.not_mem_waits (h ▸ hi)
      rw [hlink.others i hne]
      exact hs.waits i hi
    · exact ⟨hfresh.lt, hfresh.cls.trans hk, congrArg Op.active hself⟩
  case nodup =>
    rcases hlink.waits with hw | ⟨hw, -⟩ <;> rw [hw]
    · exact hs.nodup
    · exact nodup_cons.mpr ⟨hfresh.not_mem_waits, hs.nodup⟩
  case unlinked_nodup =>
    rw [htodo]
    exact hnodup.of_cons
  case unlinked =>
    intro k hk i hi
    rw [htodo] at hk hi
    cases hk
    have hold := hrest i hi
    have hne : i ≠ id := fun h => (nodup_cons.mp hnodup).1 (h ▸ hi)
    have hop := hlink.others i hne
    refine
      { lt := hlink.next ▸ hold.lt
        cls := hop ▸ hold.cls
        inactive := hop ▸ hold.inactive
        interruptible := hop ▸ hold.interruptible
        interrupt := hop ▸ hold.interrupt
        linked := hop ▸ hold.linked
        not_mem_io := fun hio => ?_
        not_mem_waits := fun hw => ?_ }
    · exact (mem_io i hio).elim hold.not_mem_io fun h => hne h.1
    · exact (mem_waits i hw).elim hold.not_mem_waits fun h => hne h.1
  case linked =>
    intro i hl
    rw [hlink.next]
    by_cases hi : i = id
    · exact hi ▸ hfresh.lt
    · exact hs.linked i (hlink.others i hi ▸ hl)
  case inFlight =>
    intro i hi hhook hl
    rw [State.InFlight, hlink.messages, hlink.pc]
    rcases mem_waits i hi with hi | ⟨rfl, -⟩
    · have hne : i ≠ id := fun h => hfresh.not_mem_waits (h ▸ hi)
      rw [hlink.others i hne] at hl hhook
      exact hs.inFlight i hi hhook hl
    · rw [hself] at hhook hl
      exact absurd ((hlinked hhook).symm.trans hl) Bool.true_eq_false_eq_False
  case inside => exact fun phase hphase => absurd hphase (inside phase)

namespace State

variable (s : State) {kind : Kind} {n : ℕ} {token : Option ℕ}

/-- The new operations have pointers that nothing holds yet. -/
theorem op_begin_of_lt {id : ℕ} (h : id < s.next) : (s.begin kind n token).op id = s.op id :=
  if_neg (by omega)

theorem op_begin_of_mem {id : ℕ} (h : id ∈ List.range' s.next n) :
    (s.begin kind n token).op id = kind.make token :=
  if_pos (by simpa using h)

theorem unlinked_begin : (s.begin kind n token).user.unlinked = List.range' s.next n := by
  simp only [begin, User.unlinked]
  split <;> rfl

/-- The place that a timer reserves in `timers_`. -/
theorem mem_timers_begin {id : ℕ} (single : n = 1 ∨ ∃ draining, kind = .batch draining)
    (h : id ∈ (s.begin kind n token).loop.timers) :
    id ∈ s.loop.timers ∨ id ∈ List.range' s.next n ∧ kind.cls = .timer := by
  cases kind
  case timer due =>
    have hn : n = 1 := by simpa using single
    rcases mem_append.mp h with h | h
    · exact .inl h
    · exact .inr ⟨by simpa [hn] using h, rfl⟩
  all_goals exact .inl h

end State

theorem WellFormed.begin {kind : Kind} {n : ℕ} {token : Option ℕ} (hs : WellFormed s)
    (single : n = 1 ∨ ∃ draining, kind = .batch draining)
    (inside : ∀ phase, s.pc ≠ .expire phase) : WellFormed (s.begin kind n token) := by
  have next : (s.begin kind n token).next = s.next + n := rfl
  constructor
  case timers =>
    intro id hid
    rcases s.mem_timers_begin single hid with hmem | ⟨hmem, hcls⟩
    · have hold := hs.timers id hmem
      rw [s.op_begin_of_lt hold.1]
      exact ⟨by omega, hold.2⟩
    · rw [s.op_begin_of_mem hmem, Kind.cls_make]
      exact ⟨(mem_range'_1.mp hmem).2, hcls⟩
  case io =>
    intro id hid
    have hold := hs.io id hid
    rw [s.op_begin_of_lt hold.1]
    exact ⟨by omega, hold.2⟩
  case waits =>
    intro id hid
    have hold := hs.waits id hid
    rw [s.op_begin_of_lt hold.1]
    exact ⟨by omega, hold.2⟩
  case nodup => exact hs.nodup
  case unlinked_nodup =>
    rw [s.unlinked_begin]
    exact nodup_range'
  case unlinked =>
    intro k hk id hid
    cases hk
    rw [s.unlinked_begin] at hid
    have hop : (s.begin kind n token).op id = kind.make token := s.op_begin_of_mem hid
    have hrange := mem_range'_1.mp hid
    exact
      { lt := hrange.2
        cls := by rw [hop, Kind.cls_make]
        inactive := by rw [hop, Kind.active_make]
        interruptible := by rw [hop, Kind.interruptible_make]
        interrupt := by rw [hop, Kind.interrupt_make]
        linked := by rw [hop, Kind.linked_make]
        not_mem_io := fun h => absurd (hs.io id h).1 (by omega)
        not_mem_waits := fun h => absurd (hs.waits id h).1 (by omega) }
  case linked =>
    intro id hl
    by_cases hid : id ∈ List.range' s.next n
    · exact (mem_range'_1.mp hid).2
    · have hop : (s.begin kind n token).op id = s.op id := if_neg (by simpa using hid)
      have := hs.linked id (hop ▸ hl)
      omega
  case inFlight =>
    intro id hid
    rw [s.op_begin_of_lt (hs.waits id hid).1]
    exact hs.inFlight id hid
  case inside => exact fun phase hphase => absurd hphase (inside phase)

/-- What a step can do to the lists. -/
inductive Shape (s t : State) : Prop where
  | shrinks (h : Shrinks s t)
  | links (kind : Kind) (ids : List ℕ) (id : ℕ) (todo : List ℕ)
      (h : s.user = .suspend kind ids (.link (id :: todo)))
      (htodo : t.user = .suspend kind ids (.link todo)) (hlink : Links kind id s t)
  | begins (kind : Kind) (n : ℕ) (token : Option ℕ) (idle : s.user = .none)
      (single : n = 1 ∨ ∃ draining, kind = .batch draining) (h : t = s.begin kind n token)

theorem UserStep.shape (hs : WellFormed s) (h : UserStep cfg s t) : Shape s t := by
  cases h
  case begin idle single => exact .begins _ _ _ idle single rfl
  case linkTimer due ids id todo h =>
    have hhook := (hs.of_link h).1.interrupt
    exact .links _ _ _ _ h rfl
      { timers := (cfg.heap.push_perm _ _).subset
        op := ⟨_, fun hi => by simp [hhook] at hi, rfl⟩ }
  case linkIo kind ids id todo h isIo =>
    obtain ⟨draining, isIo⟩ := isIo
    have hhook := (hs.of_link h).1.interrupt
    exact .links _ _ _ _ h rfl
      { io := .inr ⟨rfl, by rcases isIo with rfl | rfl <;> rfl⟩
        op := ⟨_, fun hi => by rcases isIo with rfl | rfl <;> simp [hhook] at hi, rfl⟩ }
  case linkWait kind ids id todo h isWait =>
    obtain ⟨b, rfl⟩ := isWait
    have hhook := (hs.of_link h).1.interrupt
    exact .links _ _ _ _ h rfl
      { waits := .inr ⟨rfl, rfl⟩
        op := ⟨_, fun hi => by simp [hhook] at hi, rfl⟩ }
  case linkRemote kind ids id todo h isRemote =>
    obtain ⟨b, rfl⟩ := isRemote
    exact .links _ _ _ _ h rfl
      { waits := .inr ⟨rfl, rfl⟩
        op := ⟨true, fun _ => rfl, by simp [Owner.enlist, Owner.setOp]⟩ }
  -- The other steps shrink the lists.
  all_goals refine .shrinks ?_
  case refuse kind ids stage h refused =>
    refine
      { timers := ?timers
        kind := fun h => absurd rfl h
        unlinked := nil_sublist _
        op := fun i => ?op }
    case timers =>
      cases kind
      case timer => exact (dropLast_sublist _).subset
      all_goals exact List.Subset.refl _
    case op =>
      dsimp only
      by_cases hi : i ∈ ids
      · rw [if_pos hi]
        exact {}
      · rw [if_neg hi]
        exact {}
  case notStopping kind ids h _ | notRequested kind ids h _ | inlineStore kind ids _ _ h |
      inlineWake kind ids _ _ h | registered kind ids h =>
    exact { kind := fun _ => by rw [h]; rfl, unlinked := by rw [h]; rfl }
  case register kind ids id todo h _ | registerFires kind ids id todo h _ =>
    exact Shrinks.of_setOp rfl (fun _ => ⟨_, _, _, _, fun h => h, rfl⟩) rfl rfl (by rw [h]; rfl)
      (by rw [h]; rfl) fun _ h => h
  case schedule | rootDone | rootFails => exact { next := by simp }
  case streamStop wake id h _ _ =>
    exact Shrinks.of_setOp rfl (fun _ => ⟨_, _, _, _, fun h => h, rfl⟩) rfl rfl rfl rfl
      fun _ h => h
  case suspended kind ids h =>
    exact { kind := fun h => absurd rfl h, unlinked := nil_sublist _ }
  case linkEmpty draining ids id todo h quiet =>
    exact Shrinks.of_done (hs.of_link h).1.not_mem_waits
      (fun i hi => by simp [Owner.op_finish, hi]) ⟨_, by simp [Owner.op_finish]; rfl⟩
      (List.Subset.refl _) (List.Subset.refl _) rfl rfl (fun _ => by rw [h]; rfl)
      (by rw [h]; exact sublist_cons_self ..) fun _ h => h
  case linkThrows draining ids id todo h quiet =>
    exact Shrinks.of_done (hs.of_link h).1.not_mem_waits
      (fun i hi => by simp [hi]) ⟨_, by simp; rfl⟩ (List.Subset.refl _) (List.Subset.refl _) rfl rfl
      (fun h => absurd rfl h) (nil_sublist _) fun _ h => h
  case complete wake id h idle pending quiet =>
    have hwait : id ∉ s.loop.waits := fun hw => by
      have := (hs.waits id hw).2.1
      simp [(hs.io id pending).2] at this
    by_cases hretire : (s.op id).retire <;>
      simp only [hretire, if_true, if_false, Bool.false_eq_true]
    · exact Shrinks.of_done hwait (fun i hi => by simp [hi]) ⟨_, by simp; rfl⟩
        (List.Subset.refl _) erase_subset rfl rfl (fun _ => rfl) (List.Sublist.refl _)
        fun _ h => h
    · exact Shrinks.of_done hwait (fun i hi => by simp [Owner.op_finish, hi])
        ⟨_, by simp [Owner.op_finish]; rfl⟩ (List.Subset.refl _) erase_subset rfl rfl
        (fun _ => rfl) (List.Sublist.refl _) fun _ h => h
  case notify id error at_user idle plain waiting quiet =>
    exact Shrinks.of_notify hs (Owner.loop_setOp ..) (fun i hi => by simp [hi])
      ⟨_, _, .inl rfl, by simp; rfl⟩ rfl rfl rfl fun _ _ => .imp_left (by simp)

theorem WellFormed.user (hr : Reachable cfg s) (hs : WellFormed s) (h : UserStep cfg s t) :
    WellFormed t := by
  have outside : ∀ phase, s.pc ≠ .expire phase := by
    intro phase hphase
    have huser := h.isUser hr
    rw [hphase] at huser
    cases huser
  have outside' : ∀ phase, t.pc ≠ .expire phase := h.pc_eq ▸ outside
  cases h.shape hs with
  | shrinks h => exact hs.of_shrinks h fun phase hphase => absurd hphase (outside' phase)
  | links kind ids id todo h htodo hlink => exact hs.of_links h htodo hlink outside'
  | begins kind n token idle single h => exact h ▸ hs.begin single outside

/-! ### `run()` -/

/-- Messages stay where they are during `expire()`. -/
theorem ExpireStep.inFlight (h : ExpireStep cfg s t) {id : ℕ} (hid : s.InFlight id) :
    t.InFlight id := by
  obtain ⟨p, hp, -⟩ := h.pc_eq
  rcases hid with hid | hid
  · exact .inl (h.sameQueues.messages ▸ hid)
  · simp [hp, Pc.detached] at hid

/-- A timer is not a wait. -/
theorem WellFormed.not_mem_waits (hs : WellFormed s) {id : ℕ} (hid : id ∈ s.loop.timers) :
    id ∉ s.loop.waits := by
  intro hw
  have hcls := (hs.timers id hid).2
  rw [(hs.waits id hw).2.1] at hcls
  cases hcls

theorem ExpireStep.shrinks (hs : WellFormed s) (h : ExpireStep cfg s t) : Shrinks s t := by
  have hflight : ∀ id, s.InFlight id → t.InFlight id := fun _ => h.inFlight
  cases h
  case cancelTimer all kept id rest h dead quiet =>
    exact Shrinks.of_done (hs.not_mem_waits ((hs.inside _ h).2 mem_cons_self))
      (fun i hi => by simp [Owner.op_finish, Owner.fail, hi])
      ⟨_, by simp [Owner.op_finish, Owner.fail]; rfl⟩ (List.Subset.refl _) (List.Subset.refl _)
      rfl rfl (fun _ => rfl) (List.Sublist.refl _) hflight
  case eraseTimers all kept h =>
    exact { timers := fun i hi => (hs.inside _ h).1 ((cfg.heap.make_perm _ _).subset hi)
            inFlight := fun i _ => hflight i }
  case cancelIo all id rest h unsent dead =>
    exact Shrinks.of_setOp rfl (fun _ => ⟨_, _, _, _, fun _ => rfl, rfl⟩) rfl rfl rfl rfl hflight
  case interrupt all id rest h dead hook linked quiet =>
    exact Shrinks.of_notify hs (Owner.loop_setOp ..) (fun i hi => by simp [hi])
      ⟨_, _, .inr rfl, by simp; rfl⟩ rfl rfl rfl fun i _ => hflight i
  case cancelWait all id rest h dead plain quiet =>
    exact Shrinks.of_notify hs (Owner.loop_fail ..) (fun i hi => by simp [Owner.fail, hi])
      ⟨_, _, .inl rfl, by simp [Owner.fail]; rfl⟩ rfl rfl rfl fun i _ => hflight i
  case dueTimer now id rest h front due quiet =>
    exact Shrinks.of_done (hs.not_mem_waits (front ▸ mem_cons_self : id ∈ s.loop.timers))
      (fun i hi => by simp [Owner.op_finish, hi]) ⟨_, by simp [Owner.op_finish]; rfl⟩
      (fun i hi => cfg.heap.mem_of_mem_pop_dropLast hi) (List.Subset.refl _) rfl rfl
      (fun _ => rfl) (List.Sublist.refl _) hflight
  all_goals exact { inFlight := fun i _ => hflight i }

/-- The rest of a scan of `waits_` after the wait at hand has left the list. -/
theorem WellFormed.inside_erase (hs : WellFormed s) {all : Bool} {id : ℕ} {rest : List ℕ}
    (h : s.pc = .expire (.waits all (id :: rest))) :
    (Phase.waits all rest).Inside s.loop.timers s.loop.io (s.loop.waits.erase id) := by
  obtain ⟨hrest, hnodup⟩ := hs.inside _ h
  refine ⟨fun i hi => ?_, hnodup.of_cons⟩
  have hne : i ≠ id := fun h => (nodup_cons.mp hnodup).1 (h ▸ hi)
  exact (mem_erase_of_ne hne).mpr (hrest (mem_cons_of_mem _ hi))

theorem WellFormed.expire (hs : WellFormed s) (h : ExpireStep cfg s t) : WellFormed t := by
  refine hs.of_shrinks (h.shrinks hs) ?_
  cases h
  case exchange | clear | waitsDone =>
    rintro _ ⟨⟩
    trivial
  case load h =>
    rintro _ ⟨⟩
    exact ⟨nil_subset _, List.Subset.refl _⟩
  case cancelTimer all kept id rest h dead quiet =>
    rintro _ ⟨⟩
    obtain ⟨hkept, hrest⟩ := hs.inside _ h
    exact ⟨hkept, List.Subset.trans (subset_cons_self ..) hrest⟩
  case keepTimer all kept id rest h live =>
    rintro _ ⟨⟩
    obtain ⟨hkept, hrest⟩ := hs.inside _ h
    refine ⟨append_subset.mpr ⟨hkept, ?_⟩, List.Subset.trans (subset_cons_self ..) hrest⟩
    exact cons_subset.mpr ⟨hrest mem_cons_self, nil_subset _⟩
  case eraseTimers =>
    rintro _ ⟨⟩
    exact List.Subset.refl _
  case cancelIo h _ _ | keepIo h _ =>
    rintro _ ⟨⟩
    exact List.Subset.trans (subset_cons_self ..) (hs.inside _ h)
  case ioDone =>
    rintro _ ⟨⟩
    exact ⟨List.Subset.refl _, hs.nodup⟩
  case interrupt all id rest h dead hook linked quiet =>
    rintro _ ⟨⟩
    simpa [(hs.waits id ((hs.inside _ h).1 mem_cons_self)).2.2] using hs.inside_erase h
  case cancelWait all id rest h dead plain quiet =>
    rintro _ ⟨⟩
    simpa [Owner.fail, (hs.waits id ((hs.inside _ h).1 mem_cons_self)).2.2]
      using hs.inside_erase h
  case interruptLate h _ _ | keepWait h _ =>
    rintro _ ⟨⟩
    obtain ⟨hrest, hnodup⟩ := hs.inside _ h
    exact ⟨List.Subset.trans (subset_cons_self ..) hrest, hnodup.of_cons⟩
  case dueTimer h _ _ _ =>
    intro phase hphase
    obtain rfl : Phase.due _ = phase := by simpa [h] using hphase
    trivial
  case dueDone => exact fun _ hphase => by cases hphase

theorem RunStep.shrinks {a : RunAct} (hs : WellFormed s) (h : RunStep cfg s a t) : Shrinks s t := by
  cases h
  case expire h => exact h.shrinks hs
  case drain h =>
    refine { inFlight := fun i _ hi => ?_ }
    have hi : .wait i ∈ s.loop.messages := by simpa [State.InFlight, h, Pc.detached] using hi
    rw [← take_append_drop cfg.budget s.loop.messages] at hi
    exact (mem_append.mp hi).symm
  case delivery id msgs h idle quiet =>
    refine Shrinks.of_notify hs rfl (fun _ _ => rfl) ⟨_, _, .inl rfl, rfl⟩ rfl rfl rfl ?_
    intro i hi
    simp [State.InFlight, h, Pc.detached, hi]
  case pollThrows h _ =>
    refine { inFlight := fun i _ => ?_ }
    rcases h with ⟨_, h⟩ | ⟨_, h⟩ <;> simp [State.InFlight, h, Pc.detached]
  all_goals
    refine { inFlight := fun i _ => ?_ }
    simp_all [State.InFlight, State.leave, Pc.detached, LoopState.wake]

theorem WellFormed.run {a : RunAct} (hs : WellFormed s) (h : RunStep cfg s a t) : WellFormed t := by
  have hshrinks := h.shrinks hs
  cases h
  case expire h => exact hs.expire h
  case messagesDone => exact hs.of_shrinks hshrinks (by rintro _ ⟨⟩; trivial)
  all_goals exact hs.of_shrinks hshrinks (by simp [State.leave])

/-- **The lists of the loop are well formed** in every state of every interleaving. -/
theorem Reachable.wellFormed (h : Reachable cfg s) : WellFormed s := by
  refine h.induction (P := WellFormed) ?_ ?_
  · constructor <;> simp [User.unlinked]
  · intro s t a hr hs hstep
    cases hstep with
    | thread h => exact hs.thread h
    | run h => exact hs.run h
    | user h => exact hs.user hr h

/-- **The shape of a step**, of any thread, as far as the lists are concerned. -/
theorem Step.shape {a : Act} (hr : Reachable cfg s) (h : Step cfg s a t) : Shape s t := by
  cases h with
  | thread h => exact .shrinks h.shrinks
  | run h => exact .shrinks (h.shrinks hr.wellFormed)
  | user h => exact h.shape hr.wellFormed

/-! ### The link of a `remote_wait` -/

/-- What a step can do to the link of an operation in its queue. -/
structure Relinks (id : ℕ) (s t : State) : Prop where
  linked : (t.op id).linked = true →
    (s.op id).linked = true ∨ id ∈ s.user.unlinked ∧ id ∉ t.user.unlinked
  unlinked : id ∈ t.user.unlinked → id ∈ s.user.unlinked ∨ s.next ≤ id
  next : s.next ≤ t.next

theorem Step.relinks {a : Act} (hr : Reachable cfg s) (h : Step cfg s a t) (id : ℕ) :
    Relinks id s t := by
  cases h.shape hr with
  | shrinks h =>
    refine ⟨fun hl => .inl ?_, fun hi => .inl (h.unlinked.subset hi), h.next⟩
    rcases (h.op id).linked with hlinked | ⟨hlinked, -⟩
    · exact hlinked ▸ hl
    · simp [hlinked] at hl
  | links kind ids i todo h htodo hlink =>
    have hnodup := (hr.wellFormed.of_link h).2.1
    refine ⟨fun hl => ?_, fun hi => .inl ?_, hlink.next.ge⟩
    · by_cases hi : id = i
      · refine .inr ⟨?_, ?_⟩
        · rw [h, hi]
          exact mem_cons_self
        · rw [htodo, hi]
          exact (nodup_cons.mp hnodup).1
      · exact .inl (hlink.others id hi ▸ hl)
    · rw [htodo] at hi
      rw [h]
      exact mem_cons_of_mem _ hi
  | begins kind n token idle single h =>
    subst h
    refine ⟨fun hl => .inl ?_, fun hi => .inr ?_, Nat.le_add_right ..⟩
    · by_cases hi : id ∈ List.range' s.next n
      · rw [s.op_begin_of_mem hi, Kind.linked_make] at hl
        cases hl
      · have hop : (s.begin kind n token).op id = s.op id := if_neg (by simpa using hi)
        exact hop ▸ hl
    · rw [s.unlinked_begin] at hi
      exact (mem_range'_1.mp hi).1

end Snowy.Loop
