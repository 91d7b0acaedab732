import Snowy.Agreement.Desk
import Snowy.Remote.Exchange

/-!
# The mailbox as a desk

A mailbox whose operations all belong to one loop that is not stopped, and whose flags are raised
between calls only, is a desk. A wait leaves the list of the mailbox when it is delivered or
interrupted; that its loop has still to be told is not seen by the desk. This file is about the
parts that the calls are made of.

## Main definitions

* `Snowy.Mail.desk` : what the mailbox `0` is as a desk.
* `Snowy.Mail.Tame` : the states in which nothing but the calls of the loop `0` happens.

## Main results

* `Snowy.Mail.Tame.front` : `front` prunes the desk.
* `Snowy.Mail.Tame.push`, `Snowy.Mail.Tame.pop` : values are transferred as on the desk.
-/

namespace Snowy.Mail

variable {α : Type*} {m m' m₁ : Mail α} {id r : ℕ} {e : Option Errc} {x y : α} {b c : Bool}
  {token : Option ℕ}

/-- What the mailbox `0` and its operations are as a desk. A wait that is not linked has been
delivered or interrupted. -/
def desk (m : Mail α) : Desk α :=
  .ofOps Op.linked m.op (m.box 0) (m.queue 0) m.node m.next m.suspended m.requested

/-- No flag is raised during steps, all operations are on the mailbox `0` and belong to the loop
`0`, which is not stopped, the linked waits are armed, and those whose flag is set are announced
by `b`. -/
structure Tame (b c : Bool) (m : Mail α) : Prop where
  sched : m.sched = []
  entering : m.entering = []
  owner : ∀ i, m.owner i = 0
  home : ∀ i, m.home i = 0
  stopping : (m.loop 0).stopping = false
  cancel : (m.loop 0).cancel = c
  nodup : (m.queue 0).Nodup
  linked : ∀ i, i ∈ m.queue 0 ↔ (m.op i).linked = true
  lt : ∀ i, (m.op i).linked = true → i < m.next
  waits : ∀ i, (m.op i).linked = true → i ∈ (m.loop 0).waits
  armed : ∀ i, (m.op i).linked = true → (m.op i).Armed b
  value : ∀ i, (m.node i).sending = true → (m.node i).value ≠ none
  messages : ∀ l i, .wait i ∈ (m.loop l).messages ++ m.batch l →
    i < m.next ∧ (m.op i).linked = false

theorem interfere_of_sched {s : Remote} (h : s.sched = []) : s.interfere = s := by
  rw [Remote.interfere, h]

/-- What the completion of waits and the transfer of values leave alone. -/
structure Frame (m m' : Mail α) : Prop where
  closed : (m'.box 0).closed = (m.box 0).closed := by rfl
  next : m'.next = m.next := by rfl
  suspended : m'.suspended = m.suspended := by rfl
  requested : m'.requested = m.requested := by rfl
  sched : m'.sched = m.sched := by rfl
  entering : m'.entering = m.entering := by rfl
  owner : m'.owner = m.owner := by rfl
  home : m'.home = m.home := by rfl
  node : ∀ i, (m.node i).Keeps (m'.node i) := by intro i; exact {}
  stopping : (m'.loop 0).stopping = (m.loop 0).stopping := by rfl
  cancel : (m'.loop 0).cancel = (m.loop 0).cancel := by rfl

theorem Frame.trans (h : Frame m m₁) (h' : Frame m₁ m') : Frame m m' where
  closed := h'.closed.trans h.closed
  next := h'.next.trans h.next
  suspended := h'.suspended.trans h.suspended
  requested := h'.requested.trans h.requested
  sched := h'.sched.trans h.sched
  entering := h'.entering.trans h.entering
  owner := h'.owner.trans h.owner
  home := h'.home.trans h.home
  node i := (h.node i).trans (h'.node i)
  stopping := h'.stopping.trans h.stopping
  cancel := h'.cancel.trans h.cancel

/-! ### Changes of values -/

/-- The buffer, the values of nodes and the histories change, and what the loops do with waits that
are not linked. -/
structure Alters (m m' : Mail α) : Prop extends Frame m m' where
  queue : m'.queue 0 = m.queue 0 := by rfl
  linked : ∀ i, (m'.op i).linked = (m.op i).linked := by intro i; rfl
  error : ∀ i, (m'.op i).error = (m.op i).error := by intro i; rfl
  op : ∀ i, (m.op i).linked = true → m'.op i = m.op i := by intro i _; rfl
  waits : ∀ i, (m.op i).linked = true → i ∈ (m.loop 0).waits → i ∈ (m'.loop 0).waits := by
    intro i _ h; exact h
  messages : ∀ l i, .wait i ∈ (m'.loop l).messages ++ m'.batch l →
    .wait i ∈ (m.loop l).messages ++ m.batch l := by intro l i h; exact h

theorem Alters.desk (h : Alters m m') :
    m'.desk = { m.desk with ring := (m'.box 0).ring, node := m'.node } := by
  rw [Mail.desk, Desk.ofOps_congr h.linked h.error h.op]
  simp only [Mail.desk, Desk.ofOps, h.closed, h.queue, h.next, h.suspended, h.requested]

/-- A sender keeps its value. -/
theorem Tame.value_of_frame (ht : Tame b c m) (h : Frame m m') {i : ℕ}
    (hi : (m'.node i).sending = true) : (m'.node i).value ≠ none :=
  (h.node i).value (ht.value i ((h.node i).sending ▸ hi))

theorem Alters.tame (h : Alters m m') (ht : Tame b c m) : Tame b c m' where
  sched := h.sched.trans ht.sched
  entering := h.entering.trans ht.entering
  owner := h.owner ▸ ht.owner
  home := h.home ▸ ht.home
  stopping := h.stopping.trans ht.stopping
  cancel := h.cancel.trans ht.cancel
  nodup := h.queue ▸ ht.nodup
  linked i := by
    rw [h.queue, h.linked]
    exact ht.linked i
  lt i hi := h.next ▸ ht.lt i (h.linked i ▸ hi)
  waits i hi := by
    rw [h.linked] at hi
    exact h.waits i hi (ht.waits i hi)
  armed i hi := by
    rw [h.linked] at hi
    rw [h.op i hi]
    exact ht.armed i hi
  value _ := ht.value_of_frame h.toFrame
  messages l i hi := by
    rw [h.next, h.linked]
    exact ht.messages l i (h.messages l i hi)

/-- A change of the buffer or of the histories. -/
theorem alters_setBox {f : Channel α → Channel α} (m : Mail α)
    (hclosed : (f (m.box 0)).closed = (m.box 0).closed) : Alters m (m.setBox 0 f) where
  closed := by rw [box_setBox, if_pos rfl, hclosed]

/-- A change of the histories. -/
theorem desk_setBox {f : Channel α → Channel α} (m : Mail α)
    (hclosed : (f (m.box 0)).closed = (m.box 0).closed)
    (hring : (f (m.box 0)).ring = (m.box 0).ring) : (m.setBox 0 f).desk = m.desk := by
  rw [(alters_setBox m hclosed).desk, box_setBox, if_pos rfl, hring]
  rfl

theorem alters_setNode {f : Node α → Node α} (m : Mail α) (id : ℕ)
    (hf : (m.node id).Keeps (f (m.node id))) : Alters m (m.setNode id f) where
  node i := by
    rw [node_setNode]
    split_ifs with h
    · exact h ▸ hf
    · exact {}

theorem Alters.trans (h : Alters m m₁) (h' : Alters m₁ m') : Alters m m' :=
  { h.toFrame.trans h'.toFrame with
    queue := h'.queue.trans h.queue
    linked := fun i => (h'.linked i).trans (h.linked i)
    error := fun i => (h'.error i).trans (h.error i)
    op := fun i hi => (h'.op i (h.linked i ▸ hi)).trans (h.op i hi)
    waits := fun i hi hw => h'.waits i (h.linked i ▸ hi) (h.waits i hi hw)
    messages := fun l i hi => h.messages l i (h'.messages l i hi) }

section

variable (m : Mail α) (id : ℕ) (x : α)

theorem alters_issue : Alters m (m.issue id 0 x) := alters_setBox m rfl

theorem alters_accept : Alters m (m.accept id 0 x) := alters_setBox m rfl

theorem alters_hand : Alters m (m.hand id 0 x) := alters_setBox m rfl

theorem alters_serve : Alters m (m.serve id 0) := alters_setBox m rfl

theorem alters_arrive : Alters m (m.arrive id 0) := alters_setBox m rfl

theorem alters_fill : Alters m (m.fill 0 x) := alters_setBox m rfl

theorem desk_issue : (m.issue id 0 x).desk = m.desk := desk_setBox m rfl rfl

theorem desk_accept : (m.accept id 0 x).desk = m.desk := desk_setBox m rfl rfl

theorem desk_hand : (m.hand id 0 x).desk = m.desk := desk_setBox m rfl rfl

theorem desk_serve : (m.serve id 0).desk = m.desk := desk_setBox m rfl rfl

theorem desk_arrive : (m.arrive id 0).desk = m.desk := desk_setBox m rfl rfl

theorem desk_fill : (m.fill 0 x).desk = m.desk.fill x := by
  rw [(alters_fill m x).desk, fill, box_setBox, if_pos rfl]
  rfl

end

/-! ### Completion of one wait -/

/-- The wait `id` is not linked any more. -/
structure Finishes (id : ℕ) (e : Option Errc) (m m' : Mail α) : Prop extends Frame m m' where
  box : m'.box = m.box := by rfl
  nodes : m'.node = m.node := by rfl
  queue : m'.queue 0 = (m.queue 0).erase id
  op : ∀ i ≠ id, m'.op i = m.op i
  linked : (m'.op id).linked = false
  error : (m'.op id).error = e
  waits : ∀ i ≠ id, i ∈ (m.loop 0).waits → i ∈ (m'.loop 0).waits
  messages : ∀ l i, .wait i ∈ (m'.loop l).messages ++ m'.batch l →
    i = id ∨ .wait i ∈ (m.loop l).messages ++ m.batch l

theorem Finishes.desk (h : Finishes id e m m') (ht : Tame b c m) :
    m'.desk = m.desk.finish id e := by
  rw [Mail.desk, h.box, h.nodes, h.next, h.suspended, h.requested]
  refine Desk.ofOps_finish h.op h.linked h.error ?_
  rw [h.queue, ht.nodup.erase_eq_filter]
  rfl

theorem Finishes.of_linked (h : Finishes id e m m') {i : ℕ} (hi : (m'.op i).linked = true) :
    i ≠ id ∧ m'.op i = m.op i ∧ (m.op i).linked = true := by
  have hne : i ≠ id := by
    rintro rfl
    exact Bool.false_ne_true (h.linked.symm.trans hi)
  have hop := h.op i hne
  exact ⟨hne, hop, hop ▸ hi⟩

theorem Finishes.tame (h : Finishes id e m m') (ht : Tame b c m) (hlt : id < m.next) :
    Tame b c m' where
  sched := h.sched.trans ht.sched
  entering := h.entering.trans ht.entering
  owner := h.owner ▸ ht.owner
  home := h.home ▸ ht.home
  stopping := h.stopping.trans ht.stopping
  cancel := h.cancel.trans ht.cancel
  nodup := h.queue ▸ ht.nodup.erase id
  linked i := by
    rw [h.queue]
    by_cases hi : i = id
    · subst hi
      simp [h.linked, ht.nodup.not_mem_erase]
    · rw [List.mem_erase_of_ne hi, ht.linked, h.op i hi]
  lt i hi := h.next ▸ ht.lt i (h.of_linked hi).2.2
  waits i hi := by
    obtain ⟨hne, -, hlinked⟩ := h.of_linked hi
    exact h.waits i hne (ht.waits i hlinked)
  armed i hi := by
    obtain ⟨-, hop, hlinked⟩ := h.of_linked hi
    rw [hop]
    exact ht.armed i hlinked
  value _ := ht.value_of_frame h.toFrame
  messages l i hi := by
    rw [h.next]
    by_cases hid : i = id
    · exact hid ▸ ⟨hlt, h.linked⟩
    · rw [h.op i hid]
      exact ht.messages l i ((h.messages l i hi).resolve_left hid)

/-- `deliver` unlinks the wait and sends it to its loop. -/
theorem Tame.finishes_deliver (ht : Tame b c m) (id : ℕ) (e : Option Errc) :
    Finishes id e m (m.deliver id e) where
  queue := Remote.queue_deliver m.toRemote id e (ht.home id)
  op i hi := by
    change (m.toRemote.deliver id e).op i = _
    rw [op_deliver, if_neg hi]
  linked := by
    change ((m.toRemote.deliver id e).op id).linked = _
    rw [op_deliver, if_pos rfl]
  error := by
    change ((m.toRemote.deliver id e).op id).error = _
    rw [op_deliver, if_pos rfl]
  waits i _ hi := by
    change i ∈ (((m.settle id e).send (m.owner id) (.wait id)).loop 0).waits
    rw [(Remote.loop_send ..).1]
    exact hi
  messages l i hi := by
    change .wait i ∈ (((m.settle id e).send (m.owner id) (.wait id)).loop l).messages ++
      m.batch l at hi
    rw [(Remote.loop_send ..).2.2] at hi
    change .wait i ∈ (if l = m.owner id then (m.loop l).messages ++ [.wait id]
      else (m.loop l).messages) ++ m.batch l at hi
    split_ifs at hi with hl
    · simp only [List.mem_append, List.mem_singleton, Message.wait.injEq] at hi ⊢
      tauto
    · exact .inr hi
  stopping := (Remote.flags_send (m.settle id e) (m.owner id) 0 (.wait id)).1
  cancel := (Remote.flags_send (m.settle id e) (m.owner id) 0 (.wait id)).2

/-- An operation that is not linked fails. -/
theorem Tame.fail (ht : Tame b c m) (hlt : id < m.next) (hlinked : (m.op id).linked = false)
    (error : Errc) :
    Tame b c (m.fail id error) ∧ (m.fail id error).desk = m.desk.fail id error := by
  have hop : ∀ i, (m.fail id error).op i =
      if i = id then { m.op id with error := some error } else m.op i := Remote.op_fail _ _ _
  have hnot : id ∉ m.queue 0 := fun h => by simp [(ht.linked id).mp h] at hlinked
  have hfinishes : Finishes id (some error) m (m.fail id error) :=
    { queue := (List.erase_of_not_mem hnot).symm
      op := fun i hi => by rw [hop, if_neg hi]
      linked := by
        rw [hop, if_pos rfl]
        exact hlinked
      error := by rw [hop, if_pos rfl]
      waits := fun _ _ h => h
      messages := fun _ _ h => .inr h }
  refine ⟨hfinishes.tame ht hlt, ?_⟩
  rw [hfinishes.desk ht]
  exact Desk.finish_eq_fail hlinked hnot error

/-! ### Operations that begin -/

/-- The operation `id` has begun and is not linked yet. -/
structure New (id : ℕ) (token : Option ℕ) (m : Mail α) : Prop where
  lt : id < m.next
  op : m.op id = { token, interrupt := true }
  messages : ∀ l, .wait id ∉ (m.loop l).messages ++ m.batch l
  requested : m.stopRequested token = false

theorem New.alters (hn : New id token m) (h : Alters m m') (hop : m'.op id = m.op id) :
    New id token m' where
  lt := h.next ▸ hn.lt
  op := hop.trans hn.op
  messages l hl := hn.messages l (h.messages l id hl)
  requested := by
    have hreq := hn.requested
    unfold Remote.stopRequested at hreq ⊢
    rw [h.requested]
    exact hreq

theorem New.finishes (hn : New id token m) (h : Finishes r e m m') (hne : id ≠ r) :
    New id token m' where
  lt := h.next ▸ hn.lt
  op := (h.op id hne).trans hn.op
  messages l hl := hn.messages l ((h.messages l id hl).resolve_left hne)
  requested := by
    have hreq := hn.requested
    unfold Remote.stopRequested at hreq ⊢
    rw [h.requested]
    exact hreq

theorem New.ne_of_linked (hn : New id token m) (h : (m.op r).linked = true) : id ≠ r := by
  rintro rfl
  rw [hn.op] at h
  cases h

/-! ### Pruning -/

section

variable (ht : Tame b c m)
include ht

/-- In a tame state nothing happens between two reads of flags. -/
theorem Tame.dead (hlinked : (m.op id).linked = true) :
    m.dead id = (m.toRemote, (m.op id).canceled) := by
  have hstopping : (m.loop (m.owner id)).stopping = false := by
    rw [ht.owner]
    exact ht.stopping
  simp only [Remote.dead, (ht.armed id hlinked).interruptible, if_true,
    interfere_of_sched ht.sched, hstopping]
  cases (m.op id).canceled <;> rfl

/-- `remote_wait::front` prunes, and returns the first wait. -/
theorem Tame.front {ids : List ℕ} (hids : m.queue 0 = ids) : ∃ s, Tame b c (m.withRemote s) ∧
      (∀ i token, New i token m → New i token (m.withRemote s)) ∧
      (m.withRemote s).desk = m.desk.prune m.desk.waiting ∧
      m.toRemote.front ids = (s, (s.queue 0).head?) := by
  induction ids generalizing m with
  | nil =>
    refine ⟨m.toRemote, ht, fun _ _ h => h, ?_, ?_⟩
    · change m.desk = m.desk.prune (m.queue 0)
      rw [hids, Desk.prune]
    · rw [hids]
      rfl
  | cons id rest ih =>
    have hlinked : (m.op id).linked = true := (ht.linked id).mp (hids ▸ List.mem_cons_self)
    have hdead := ht.dead hlinked
    have hwaiting : m.desk.waiting = id :: rest := hids
    cases hcanceled : (m.op id).canceled with
    | false =>
      rw [hcanceled] at hdead
      have hflag : m.desk.flagged id = false := by simp [Mail.desk, Desk.ofOps, hcanceled]
      refine ⟨m.toRemote, ht, fun _ _ h => h, ?_, ?_⟩
      · rw [hwaiting, Desk.prune, if_neg (by simp [hflag])]
        rfl
      · simp only [Remote.front, hdead, hids, List.head?_cons]
    | true =>
      rw [hcanceled] at hdead
      have hflag : m.desk.flagged id = true := by simp [Mail.desk, Desk.ofOps, hlinked, hcanceled]
      have hfinishes := ht.finishes_deliver id (some .operationCanceled)
      have hrest : (m.deliver id (some .operationCanceled)).queue 0 = rest := by
        rw [hfinishes.queue, hids, List.erase_cons_head]
      obtain ⟨s, hs, hnew, hdesk, hfront⟩ := ih (hfinishes.tame ht (ht.lt id hlinked)) hrest
      refine ⟨s, hs,
        fun i t hn => hnew i t (hn.finishes hfinishes (hn.ne_of_linked hlinked)), ?_, ?_⟩
      · have hwaiting' : (m.deliver id (some .operationCanceled)).desk.waiting = rest := hrest
        rw [hwaiting'] at hdesk
        rw [hwaiting, Desk.prune, if_pos hflag, ← hfinishes.desk ht]
        exact hdesk
      · simp only [Remote.front, hdead]
        exact hfront

/-- `mailbox::front`. -/
theorem Tame.frontOf (sending : Bool) :
    ∃ m₁, Tame b c m₁ ∧ (∀ i token, New i token m → New i token m₁) ∧
      m₁.desk = m.desk.prune m.desk.waiting ∧
      m.front 0 sending = (m₁, m₁.desk.first sending) ∧
      ∀ r ∈ m₁.desk.first sending, (m₁.op r).linked = true ∧ (m₁.node r).sending = sending := by
  obtain ⟨s, hs, hnew, hdesk, hfront⟩ := ht.front rfl
  refine ⟨m.withRemote s, hs, hnew, hdesk, ?_, ?_⟩
  · have hfirst : (m.withRemote s).desk.first sending =
        (s.queue 0).head?.filter fun i => (m.node i).sending == sending := rfl
    rw [Mail.front, hfront, hfirst]
    cases (s.queue 0).head? with
    | none => rfl
    | some w =>
      change (m.withRemote s, if (m.node w).sending = sending then some w else none) =
        (m.withRemote s, Option.filter (fun i => (m.node i).sending == sending) (some w))
      by_cases h : (m.node w).sending = sending <;> simp [h, Option.filter]
  · intro r hr
    obtain ⟨hhead, hsending⟩ := Option.filter_eq_some_iff.mp hr
    exact ⟨(hs.linked r).mp (List.mem_of_mem_head? hhead), beq_iff_eq.mp hsending⟩

/-! ### Transfers -/

/-- The wait `r` is matched; the transfer of its value comes first. -/
theorem Tame.matched (h : Alters m m₁) (hop : m₁.op = m.op) (hlinked : (m.op r).linked = true) :
    Tame b c (m₁.deliver r none) ∧ (m₁.deliver r none).desk = m₁.desk.finish r none ∧
      ∀ i token, New i token m → New i token (m₁.deliver r none) := by
  have ht₁ := h.tame ht
  have hfinishes := ht₁.finishes_deliver r none
  have hlt : r < m₁.next := h.next ▸ ht.lt r hlinked
  exact ⟨hfinishes.tame ht₁ hlt, hfinishes.desk ht₁, fun i t hn =>
    (hn.alters h (congrFun hop i)).finishes hfinishes (hn.ne_of_linked hlinked)⟩

/-- `mailbox::push`. -/
theorem Tame.push (id : ℕ) (x : α) :
    ∃ m₁, Tame b c m₁ ∧ (∀ i token, New i token m → New i token m₁) ∧
      ∃ ok, m.push id 0 x = (m₁, ok) ∧ m.desk.push x = (m₁.desk, ok) := by
  obtain ⟨m₁, ht₁, hnew, hdesk, hfront, hlinked⟩ := ht.frontOf false
  cases hfirst : m₁.desk.first false with
  | none =>
    simp only [Mail.push, hfront, Desk.push, ← hdesk, hfirst]
    have hring : m₁.desk.ring = (m₁.box 0).ring := rfl
    rw [hring]
    split_ifs with hfull
    · exact ⟨m₁, ht₁, hnew, false, rfl, rfl⟩
    · have hstore : Alters m₁ (m₁.store id 0 x) :=
        ((alters_issue m₁ id x).trans (alters_accept _ id x)).trans (alters_fill _ x)
      refine ⟨m₁.store id 0 x, hstore.tame ht₁, fun i t hn => (hnew i t hn).alters hstore rfl, true,
        rfl, ?_⟩
      rw [store, desk_fill, desk_accept, desk_issue]
  | some r =>
    simp only [Mail.push, hfront, Desk.push, ← hdesk, hfirst]
    have hgive : Alters m₁ ((((m₁.setNode r fun n => { n with value := some x }).issue
        id 0 x).accept id 0 x).hand r 0 x |>.serve r 0) :=
      ((((alters_setNode m₁ r { value := fun _ => Option.some_ne_none x }).trans
        (alters_issue _ id x)).trans (alters_accept _ id x)).trans (alters_hand _ r x)).trans
          (alters_serve _ r)
    obtain ⟨ht₂, hdesk₂, hnew₂⟩ := ht₁.matched hgive rfl (hlinked r hfirst).1
    refine ⟨_, ht₂, fun i t hn => hnew₂ i t (hnew i t hn), true, rfl, ?_⟩
    rw [hdesk₂, desk_serve, desk_hand, desk_accept, desk_issue]
    rfl

/-- The first half of `mailbox::pop`. -/
theorem Tame.popBuffered : ∃ m₁, Tame b c m₁ ∧ (∀ i token, New i token m → New i token m₁) ∧
      ∃ v, m.popBuffered 0 = (m₁, v) ∧ m.desk.popBuffered = (m₁.desk, v) := by
  have hring : m.desk.ring = (m.box 0).ring := rfl
  simp only [Mail.popBuffered, Desk.popBuffered, hring]
  split_ifs with hempty
  · exact ⟨m, ht, fun _ _ h => h, none, rfl, rfl⟩
  · have hdrop : Alters m (m.dropFront 0) := alters_setBox m rfl
    refine ⟨_, hdrop.tame ht, fun i t hn => hn.alters hdrop rfl, _, rfl, ?_⟩
    rw [hdrop.desk, dropFront, box_setBox, if_pos rfl]
    rfl

/-- The second half of `mailbox::pop`. -/
theorem Tame.popSender (v : Option α) :
    ∃ m₁, Tame b c m₁ ∧ (∀ i token, New i token m → New i token m₁) ∧
      ∃ v', m.popSender 0 v = (m₁, v') ∧ m.desk.popSender v = (m₁.desk, v') := by
  obtain ⟨m₁, ht₁, hnew, hdesk, hfront, hlinked⟩ := ht.frontOf true
  cases hfirst : m₁.desk.first true with
  | none =>
    simp only [Mail.popSender, hfront, Desk.popSender, ← hdesk, hfirst]
    exact ⟨m₁, ht₁, hnew, v, rfl, rfl⟩
  | some r =>
    have hnode : (m₁.node r).value = (m₁.desk.node r).value := rfl
    obtain ⟨hr, hsending⟩ := hlinked r hfirst
    simp only [Mail.popSender, hfront, Desk.popSender, ← hdesk, hfirst, hnode]
    cases hvalue : (m₁.desk.node r).value with
    | none => exact absurd hvalue (ht₁.value r hsending)
    | some sent =>
      cases v with
      | none =>
        obtain ⟨ht₂, hdesk₂, hnew₂⟩ := ht₁.matched (alters_accept m₁ r sent) rfl hr
        refine ⟨_, ht₂, fun i t hn => hnew₂ i t (hnew i t hn), _, rfl, ?_⟩
        rw [hdesk₂, desk_accept]
      | some x =>
        obtain ⟨ht₂, hdesk₂, hnew₂⟩ :=
          ht₁.matched ((alters_accept m₁ r sent).trans (alters_fill _ sent)) rfl hr
        refine ⟨_, ht₂, fun i t hn => hnew₂ i t (hnew i t hn), _, rfl, ?_⟩
        rw [hdesk₂, desk_fill, desk_accept]

/-- `mailbox::pop`. -/
theorem Tame.pop (id : ℕ) : ∃ m₁, Tame b c m₁ ∧ (∀ i token, New i token m → New i token m₁) ∧
      ∃ v, m.pop id 0 = (m₁, v) ∧ m.desk.pop = (m₁.desk, v) := by
  obtain ⟨m₁, ht₁, hnew₁, v, hbuffered, hdesk₁⟩ := ht.popBuffered
  obtain ⟨m₂, ht₂, hnew₂, v', hsender, hdesk₂⟩ := ht₁.popSender v
  simp only [Mail.pop, hbuffered, hsender, Desk.pop, hdesk₁, hdesk₂]
  cases v' with
  | none => exact ⟨m₂, ht₂, fun i t hn => hnew₂ i t (hnew₁ i t hn), none, rfl, rfl⟩
  | some x =>
    have hhand := alters_hand m₂ id x
    exact ⟨_, hhand.tame ht₂, fun i t hn => (hnew₂ i t (hnew₁ i t hn)).alters hhand rfl, some x,
      rfl, by rw [desk_hand]⟩

end

end Snowy.Mail
