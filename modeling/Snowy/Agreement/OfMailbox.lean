import Snowy.Agreement.MailboxDesk

/-!
# The calls on a mailbox are the calls on its desk

## Main definitions

* `Snowy.Mail.send`, `Snowy.Mail.recv` : both steps of an `await_suspend`.
* `Snowy.Mail.expire`, `Snowy.Mail.requestStop` : the functions of these names, for the loop `0`.
* `Snowy.Mail.perform`, `Snowy.Mail.chore` : the calls, and what else the loops do.

## Main results

* `Snowy.Mail.Tame.perform` : every call on the mailbox is the call on its desk.
-/

namespace Snowy.Mail

open Function List

variable {α : Type*} {m m' m₁ : Mail α} {id r : ℕ} {e : Option Errc} {x y : α} {b c : Bool}
  {token : Option ℕ}

/-! ### Calls -/

/-- The next operation is not linked yet. -/
theorem Tame.linked_next (ht : Tame b c m) : (m.op m.next).linked = false := by
  cases h : (m.op m.next).linked with
  | false => rfl
  | true => exact absurd (ht.lt _ h) (lt_irrefl _)

section alloc

variable {op : Op} {node : Node α}

theorem op_alloc (i : ℕ) : (m.alloc 0 0 op node).op i = if i = m.next then op else m.op i :=
  Remote.op_make _ _ _ _ i

theorem Tame.linked_alloc (ht : Tame b c m) (hlinked : op.linked = false) (i : ℕ) :
    ((m.alloc 0 0 op node).op i).linked = (m.op i).linked := by
  rw [op_alloc]
  split_ifs with h
  · rw [h, hlinked, ht.linked_next]
  · rfl

theorem Tame.op_alloc_of_linked (ht : Tame b c m) {i : ℕ} (hi : (m.op i).linked = true) :
    (m.alloc 0 0 op node).op i = m.op i := by
  rw [op_alloc, if_neg]
  rintro rfl
  exact Bool.false_ne_true (ht.linked_next.symm.trans hi)

end alloc

/-- A new operation of the loop `0`. -/
theorem Tame.alloc (ht : Tame b c m) (op : Op) (node : Node α) (hlinked : op.linked = false)
    (herror : op.error = none) (hvalue : node.sending = true → node.value ≠ none) :
    Tame b c (m.alloc 0 0 op node) ∧ (m.alloc 0 0 op node).desk = m.desk.alloc node := by
  have hsame : ∀ i, ((m.alloc 0 0 op node).op i).linked = (m.op i).linked :=
    ht.linked_alloc hlinked
  have hold : ∀ {i}, (m.op i).linked = true → (m.alloc 0 0 op node).op i = m.op i :=
    fun hi => ht.op_alloc_of_linked hi
  refine ⟨?_, Desk.ofOps_alloc ht.linked_next hlinked herror node⟩
  exact
    { ht with
      owner := fun i => by
        change (m.make 0 0 op).owner i = 0
        rw [Remote.owner_make]
        split_ifs
        · rfl
        · exact ht.owner i
      home := fun i => by
        change (m.make 0 0 op).home i = 0
        rw [Remote.home_make]
        split_ifs
        · rfl
        · exact ht.home i
      linked := fun i => by rw [hsame]; exact ht.linked i
      lt := fun i hi => Nat.lt_succ_of_lt (ht.lt i (hsame i ▸ hi))
      waits := fun i hi => ht.waits i (hsame i ▸ hi)
      armed := fun i hi => by
        rw [hsame] at hi
        rw [hold hi]
        exact ht.armed i hi
      value := fun i hi => by
        rw [node_alloc] at hi ⊢
        split_ifs at hi ⊢ with h
        · exact hvalue hi
        · exact ht.value i hi
      messages := fun l i hi => by
        rw [hsame]
        exact ⟨Nat.lt_succ_of_lt (ht.messages l i hi).1, (ht.messages l i hi).2⟩ }

theorem Tame.halted (ht : Tame b c m) (token : Option ℕ) :
    m.halted 0 token = (m.toRemote, m.stopRequested token) := by
  simp only [Remote.halted, interfere_of_sched ht.sched, ht.stopping]
  rfl

/-- The operation `id` is active and linked behind the others. -/
def parked (m : Mail α) (id : ℕ) (token : Option ℕ) : Mail α :=
  { m with
    op := update m.op id
      { token, interrupt := true, callback := token.isSome, active := true, linked := true }
    queue := update m.queue 0 (m.queue 0 ++ [id])
    loop := update m.loop 0 { m.loop 0 with waits := id :: (m.loop 0).waits }
    suspended := m.suspended ++ [id] }

/-- The callback is registered and does not run. -/
theorem New.parked_eq (hn : New id token m) (ht : Tame b c m) :
    m.withRemote (linkedWaits (m.register id) id) = m.parked id token := by
  have hop : (m.part 0).op id = { token, interrupt := true } := hn.op
  have hreq : (m.part 0).stopRequested id = false := by
    rw [Owner.stopRequested, hop]
    exact hn.requested
  rw [Remote.register, ht.owner, Remote.onLoop, Owner.register_eq hop rfl hreq]
  simp [linkedWaits, Remote.link, Remote.enlist, Remote.onLoop, Remote.setOp, Remote.setQueue,
    Remote.part, Owner.enlist, Owner.setOp, withRemote, ht.owner, ht.home, parked]

theorem op_parked (m : Mail α) (id : ℕ) (token : Option ℕ) (i : ℕ) : (m.parked id token).op i =
    if i = id then
      { token, interrupt := true, callback := token.isSome, active := true, linked := true }
    else m.op i :=
  update_apply ..

theorem queue_parked (m : Mail α) (id : ℕ) (token : Option ℕ) :
    (m.parked id token).queue 0 = m.queue 0 ++ [id] := by
  simp [parked]

theorem loop_parked (m : Mail α) (id : ℕ) (token : Option ℕ) :
    (m.parked id token).loop 0 = { m.loop 0 with waits := id :: (m.loop 0).waits } := by
  simp [parked]

theorem New.tame_parked (hn : New id token m) (ht : Tame b c m) : Tame b c (m.parked id token) :=
  { ht with
    stopping := (congrArg LoopState.stopping (loop_parked ..)).trans ht.stopping
    cancel := (congrArg LoopState.cancel (loop_parked ..)).trans ht.cancel
    nodup := by
      rw [queue_parked]
      refine nodup_append.mpr ⟨ht.nodup, nodup_singleton id, fun i hi j hj hij => ?_⟩
      rw [hij, mem_singleton.mp hj, ht.linked, hn.op] at hi
      cases hi
    linked := fun i => by
      rw [queue_parked, op_parked, mem_append, mem_singleton, ht.linked]
      split_ifs with hi
      · simp [hi]
      · simp [hi]
    lt := fun i hi => by
      rw [op_parked] at hi
      split_ifs at hi with hid
      · exact hid ▸ hn.lt
      · exact ht.lt i hi
    waits := fun i hi => by
      rw [loop_parked]
      rw [op_parked] at hi
      split_ifs at hi with hid
      · exact hid ▸ mem_cons_self
      · exact mem_cons_of_mem id (ht.waits i hi)
    armed := fun i hi => by
      rw [op_parked] at hi ⊢
      split_ifs at hi ⊢
      · exact ⟨rfl, rfl, rfl, nofun⟩
      · exact ht.armed i hi
    messages := fun l i hi => by
      have hold : .wait i ∈ (m.loop l).messages ++ m.batch l := by
        simp only [parked, update_apply] at hi
        split_ifs at hi with hl
        · exact hl ▸ hi
        · exact hi
      have hne : i ≠ id := by
        rintro rfl
        exact hn.messages l hold
      rw [op_parked, if_neg hne]
      exact ht.messages l i hold }

theorem New.desk_parked (hn : New id token m) :
    (m.parked id token).desk = m.desk.park id token := by
  rw [Mail.desk, queue_parked]
  exact Desk.ofOps_park (op_parked m id token) (by rw [hn.op]; exact ⟨rfl, rfl⟩)
    ⟨rfl, rfl, rfl, rfl⟩

/-- The end of `await_suspend`, when the mailbox cannot serve the operation. -/
theorem Tame.enqueue (ht : Tame b c m) (hn : New id token m) :
    ∃ m₁, Tame b c m₁ ∧ m.enqueue id = (m₁, true) ∧ m₁.desk = m.desk.park id token := by
  have hinterruptible : (m.op id).interruptible = true := by rw [hn.op]
  have htoken : (m.op id).token = token := by rw [hn.op]
  have harm : m.arm id = ((m.register id).activate id, true) := by
    have hreq := hn.requested
    simp only [Remote.arm, ht.owner, htoken, ht.halted, hreq, interfere_of_sched ht.sched]
  have henqueue : m.toRemote.enqueue id = (linkedWaits (m.register id) id, true) := by
    simp only [Remote.enqueue, Remote.park, hinterruptible, if_true, harm]
    rw [Remote.enlist_activate]
    rfl
  refine ⟨_, hn.tame_parked ht, ?_, hn.desk_parked⟩
  rw [Mail.enqueue, henqueue, ← hn.parked_eq ht]

/-- A call of `send` (with its value) or of `recv` on the mailbox `0`, by the loop `0`. -/
def entry (token : Option ℕ) (value : Option α) : Entry α := { box := 0, owner := 0, token, value }

/-- `mailbox::send` with `node::await_suspend`, when the loop does nothing else meanwhile. -/
def send (m : Mail α) (value : α) (token : Option ℕ) : Mail α :=
  (m.begin (entry token (some value))).enter 0

/-- `mailbox::recv` with `node::await_suspend`, when the loop does nothing else meanwhile. -/
def recv (m : Mail α) (token : Option ℕ) : Mail α := (m.begin (entry token none)).enter 0

section

variable (ht : Tame b c m)
include ht

/-- The node of a new operation. -/
theorem Tame.allocEntry (token : Option ℕ) (value : Option α) :
    ∃ m₁, m₁ = m.allocEntry (entry token value) ∧ Tame b c m₁ ∧
      m₁.desk = m.desk.alloc (entry token value).node ∧ m.next < m₁.next ∧
      (m₁.op m.next).linked = false ∧ m₁.entering = [] ∧
      (m.stopRequested token = false → New m.next token m₁) := by
  have hvalue : (entry token value).node.sending = true →
      (entry token value).node.value ≠ none := by
    cases value with
    | none => exact fun h => Bool.noConfusion h
    | some v => exact fun _ => Option.some_ne_none v
  have hop : (m.allocEntry (entry token value)).op m.next = { token, interrupt := true } := by
    change (m.make 0 0 { token, interrupt := true }).op m.next = _
    rw [Remote.op_make, if_pos rfl]
  obtain ⟨ht₁, hdesk₁⟩ := ht.alloc { token, interrupt := true }
    (entry token value).node rfl rfl hvalue
  refine ⟨_, rfl, ht₁, hdesk₁, Nat.lt_succ_self _, by rw [hop], ht.entering, fun hreq => ?_⟩
  exact
  { lt := Nat.lt_succ_self _
    op := hop
    messages := fun l h => absurd (ht.messages l _ h).1 (lt_irrefl _)
    requested := hreq }

/-- `await_suspend` of a call whose stop has not been requested. -/
theorem Tame.enter_begin (value : Option α) (hreq : m.stopRequested token = false) :
    (m.begin (entry token value)).enter 0 = m.commit (entry token value) := by
  have hbegin : m.begin (entry token value) = { m with entering := [entry token value] } := by
    have howner : (entry token value).owner = 0 := rfl
    have htoken : (entry token value).token = token := rfl
    simp only [Mail.begin, howner, htoken, ht.halted, hreq, ht.entering]
    rfl
  have hentering : ({ m with entering := [] } : Mail α) = m := by rw [← ht.entering]
  rw [hbegin]
  change Mail.commit { m with entering := [] } (entry token value) = _
  rw [hentering]

/-- `await_suspend` of a call whose stop has been requested. -/
theorem Tame.enter_begin_of_requested (value : Option α) (hreq : m.stopRequested token = true) :
    (m.begin (entry token value)).enter 0 =
      match value with
      | some v =>
        ((m.allocEntry (entry token value)).fail m.next .operationCanceled).issue m.next 0 v
      | none => (m.allocEntry (entry token value)).fail m.next .operationCanceled := by
  have howner : (entry token value).owner = 0 := rfl
  have htoken : (entry token value).token = token := rfl
  have hidle : ∀ m' : Mail α, m'.entering = [] → m'.enter 0 = m' := by
    intro m' h
    rw [enter, h]
    rfl
  cases value with
  | none =>
    simp only [Mail.begin, howner, htoken, ht.halted, hreq]
    exact hidle _ ht.entering
  | some v =>
    simp only [Mail.begin, howner, htoken, ht.halted, hreq]
    exact hidle _ ht.entering

/-- `mailbox::send`. -/
theorem Tame.send (x : α) (token : Option ℕ) :
    Tame b c (m.send x token) ∧ (m.send x token).desk = m.desk.send x token := by
  obtain ⟨m₁, hm₁, ht₁, hdesk₁, hlt, hlinked, -, hnew⟩ := ht.allocEntry token (some x)
  have hnode : (entry token (some x)).node = .call 0 (some x) := rfl
  have hstop : (m.desk.alloc (.call 0 (some x))).stopRequested token = m.stopRequested token := by
    cases token <;> rfl
  rw [hnode] at hdesk₁
  rw [Mail.send, Desk.send, hstop, ← hdesk₁]
  cases hreq : m.stopRequested token with
  | true =>
    obtain ⟨ht₂, hdesk₂⟩ := ht₁.fail hlt hlinked .operationCanceled
    rw [ht.enter_begin_of_requested (some x) hreq, ← hm₁]
    exact ⟨(alters_issue _ _ x).tame ht₂, (desk_issue _ _ x).trans hdesk₂⟩
  | false =>
    have hclosed : (m₁.box 0).closed = m₁.desk.closed := rfl
    rw [ht.enter_begin (some x) hreq, if_neg Bool.false_ne_true]
    have hcommit : m.commit (entry token (some x)) = m₁.commitSend m.next 0 x := by
      rw [hm₁]
      rfl
    rw [hcommit, commitSend, hclosed]
    split_ifs with hshut
    · obtain ⟨ht₂, hdesk₂⟩ := ht₁.fail hlt hlinked .brokenPipe
      exact ⟨(alters_issue _ _ x).tame ht₂, (desk_issue _ _ x).trans hdesk₂⟩
    · obtain ⟨m₂, ht₂, hnew₂, ok, hpush, hdesk₂⟩ := ht₁.push m.next x
      rw [hpush, hdesk₂]
      cases ok with
      | true => exact ⟨ht₂, rfl⟩
      | false =>
        obtain ⟨m₃, ht₃, henqueue, hdesk₃⟩ := ht₂.enqueue (hnew₂ _ _ (hnew hreq))
        simp only [henqueue]
        exact ⟨(alters_issue _ _ x).tame ht₃, (desk_issue _ _ x).trans hdesk₃⟩

/-- `mailbox::recv`. -/
theorem Tame.recv (token : Option ℕ) :
    Tame b c (m.recv token) ∧ (m.recv token).desk = m.desk.recv token := by
  obtain ⟨m₁, hm₁, ht₁, hdesk₁, hlt, hlinked, -, hnew⟩ := ht.allocEntry token none
  have hnode : (entry token none : Entry α).node = .call 0 none := rfl
  have hstop : (m.desk.alloc (.call 0 none)).stopRequested token = m.stopRequested token := by
    cases token <;> rfl
  rw [hnode] at hdesk₁
  rw [Mail.recv, Desk.recv, hstop, ← hdesk₁]
  cases hreq : m.stopRequested token with
  | true =>
    rw [ht.enter_begin_of_requested none hreq, ← hm₁]
    exact ht₁.fail hlt hlinked .operationCanceled
  | false =>
    have hcommit : m.commit (entry token none) = m₁.commitRecv m.next 0 := by
      rw [hm₁]
      rfl
    obtain ⟨m₂, ht₂, hnew₂, v, hpop, hdesk₂⟩ := ht₁.pop m.next
    have hclosed : (m₂.box 0).closed = m₂.desk.closed := rfl
    rw [ht.enter_begin none hreq, if_neg Bool.false_ne_true, hcommit, commitRecv, hpop, hdesk₂]
    cases v with
    | some x =>
      have hvalue : Alters m₂ (m₂.setNode m.next fun n => { n with value := some x }) :=
        alters_setNode m₂ m.next { value := fun _ => Option.some_ne_none x }
      exact ⟨hvalue.tame ht₂, rfl⟩
    | none =>
      simp only [hclosed]
      split_ifs with hshut
      · exact ⟨ht₂, rfl⟩
      · obtain ⟨m₃, ht₃, henqueue, hdesk₃⟩ := ht₂.enqueue (hnew₂ _ _ (hnew hreq))
        simp only [henqueue]
        exact ⟨(alters_arrive _ _).tame ht₃, (desk_arrive _ _).trans hdesk₃⟩

theorem Tame.refuse (id : ℕ) (x : α) :
    Tame b c (m.refuse id 0 x) ∧ (m.refuse id 0 x).desk = m.desk.refuse id := by
  have hnode : Alters m (m.setNode id fun n => { n with refused := true }) :=
    alters_setNode m id {}
  exact ⟨(alters_issue _ id x).tame (hnode.tame ht), desk_issue _ id x⟩

/-- `mailbox::try_send`. -/
theorem Tame.trySend (x : α) :
    Tame b c (m.trySend 0 x) ∧ (m.trySend 0 x).desk = m.desk.trySend x := by
  obtain ⟨ht₁, hdesk₁⟩ := ht.alloc {} (.call 0 (some x)) rfl rfl fun _ => Option.some_ne_none x
  unfold Mail.trySend Desk.trySend
  dsimp only
  rw [← hdesk₁]
  generalize m.alloc 0 0 {} (.call 0 (some x)) = m₁ at ht₁
  have hclosed : (m₁.box 0).closed = m₁.desk.closed := rfl
  rw [hclosed]
  split_ifs with hshut
  · exact ht₁.refuse m.next x
  · obtain ⟨m₂, ht₂, -, ok, hpush, hdesk₂⟩ := ht₁.push m.next x
    rw [hpush, hdesk₂]
    cases ok with
    | true => exact ⟨ht₂, rfl⟩
    | false => exact ht₂.refuse m.next x

/-- `mailbox::try_recv`. -/
theorem Tame.tryRecv : Tame b c (m.tryRecv 0) ∧ (m.tryRecv 0).desk = m.desk.tryRecv := by
  obtain ⟨ht₁, hdesk₁⟩ := ht.alloc {} (.call 0 none) rfl rfl nofun
  obtain ⟨m₂, ht₂, -, v, hpop, hdesk₂⟩ := ht₁.pop m.next
  unfold Mail.tryRecv Desk.tryRecv
  dsimp only
  rw [← hdesk₁, hpop, hdesk₂]
  cases v with
  | none => exact ⟨ht₂, rfl⟩
  | some x =>
    have hvalue : Alters m₂ (m₂.setNode m.next fun n => { n with value := some x }) :=
      alters_setNode m₂ m.next { value := fun _ => Option.some_ne_none x }
    exact ⟨hvalue.tame ht₂, rfl⟩

/-! ### Closing -/

/-- The loop of `mailbox::close`, when no wait has its flag set. -/
theorem Tame.drain (verdict : ℕ → Option Errc) {ids : List ℕ}
    (hids : m.queue 0 = ids) (hcalm : ∀ i ∈ ids, (m.op i).canceled = false) :
    Tame b c (m.withRemote (m.toRemote.drain verdict ids)) ∧
      (m.withRemote (m.toRemote.drain verdict ids)).desk =
        m.desk.settle (fun i => ids.contains i) verdict := by
  induction ids generalizing m with
  | nil => exact ⟨ht, (Desk.settle_eq_self _ (fun _ => rfl) _).symm⟩
  | cons id rest ih =>
    have hlinked : (m.op id).linked = true := (ht.linked id).mp (hids ▸ mem_cons_self)
    have hnot : id ∉ rest := (nodup_cons.mp (hids ▸ ht.nodup)).1
    have hdead := ht.dead hlinked
    rw [hcalm id mem_cons_self] at hdead
    have hfinishes := ht.finishes_deliver id (verdict id)
    have hrest : (m.deliver id (verdict id)).queue 0 = rest := by
      rw [hfinishes.queue, hids, erase_cons_head]
    have hcalm' : ∀ i ∈ rest, ((m.deliver id (verdict id)).op i).canceled = false := by
      intro i hi
      rw [hfinishes.op i fun h => hnot (h ▸ hi)]
      exact hcalm i (mem_cons_of_mem id hi)
    obtain ⟨ht', hdesk⟩ := ih (hfinishes.tame ht (ht.lt id hlinked)) hrest hcalm'
    have hdrain : m.toRemote.drain verdict (id :: rest) =
        (m.deliver id (verdict id)).toRemote.drain verdict rest := by
      simp only [Remote.drain, hdead]
      rfl
    rw [hdrain]
    refine ⟨ht', hdesk.trans ?_⟩
    rw [hfinishes.desk ht, Desk.finish, Desk.settle_settle]
    · rfl
    · intro i hi
      rw [beq_iff_eq.mp hi]

/-- `mailbox::close`, when no wait has its flag set. -/
theorem Tame.close (hcalm : ∀ i ∈ m.desk.waiting, m.desk.flagged i = false) :
    Tame b c (m.close 0) ∧ (m.close 0).desk = m.desk.close := by
  have hbox : (m.shut 0).box 0 = { m.box 0 with closed := true } := by
    rw [shut, box_setBox, if_pos rfl]
  have ht₁ : Tame b c (m.shut 0) := { ht with }
  have hdesk₁ : (m.shut 0).desk = { m.desk with closed := true } := by
    simp only [Mail.desk, hbox]
    rfl
  have hcalm₁ : ∀ i ∈ (m.shut 0).queue 0, ((m.shut 0).op i).canceled = false := by
    intro i hi
    have hlinked : (m.op i).linked = true := (ht.linked i).mp hi
    have hflag := hcalm i hi
    simp only [Mail.desk, Desk.ofOps, hlinked, Bool.true_and] at hflag
    exact hflag
  obtain ⟨ht₂, hdesk₂⟩ := ht₁.drain (m.shut 0).verdict rfl hcalm₁
  refine ⟨ht₂, hdesk₂.trans ?_⟩
  rw [hdesk₁]
  rfl

end

/-! ### Cancellation -/

/-- The scan of the waits of the loop `0` in `expire()`. -/
def scanWaits (m : Mail α) (ids : List ℕ) : Mail α :=
  ids.foldl (fun m id => m.withRemote (m.toRemote.scan id 0)) m

/-- `loop::expire` of the loop `0`, which has no timers. -/
def expire (m : Mail α) : Mail α :=
  if (m.loop 0).cancel then
    let m := m.withRemote (m.setLoop 0 fun loop => { loop with cancel := false })
    m.scanWaits (m.loop 0).waits
  else m

/-- A loop after a notification. -/
theorem loop_notify (s : Remote) (id l k : ℕ) : ∃ ready waits,
    (s.notify id k).loop l = { s.loop l with ready, waits } ∧
      ∀ i ≠ id, i ∈ (s.loop l).waits → i ∈ waits := by
  rw [Remote.loop_notify]
  split_ifs with hl
  · rw [← hl, Owner.loop_notify]
    refine ⟨_, _, rfl, fun i hi hmem => ?_⟩
    split_ifs
    · exact (mem_erase_of_ne hi).mpr hmem
    · exact hmem
  · exact ⟨_, _, rfl, fun _ _ h => h⟩

/-- What a notification changes in an operation. -/
theorem op_notify (s : Remote) (id k i : ℕ) : ∃ active callback,
    (s.notify id k).op i = { s.op i with active, callback } ∧
      (i ≠ id → active = (s.op i).active ∧ callback = (s.op i).callback) := by
  rw [Remote.op_notify]
  split_ifs with h
  · obtain ⟨rfl, -⟩ := h
    exact ⟨false, false, rfl, fun hne => absurd rfl hne⟩
  · exact ⟨_, _, rfl, fun _ => ⟨rfl, rfl⟩⟩

/-- The hook `remote_wait::interrupt` of a linked wait. -/
theorem Tame.finishes_interrupt (ht : Tame b c m) (hlinked : (m.op id).linked = true) :
    Finishes id (some .operationCanceled) m (m.withRemote (m.interrupt id 0)) := by
  have hinterrupt : m.interrupt id 0 =
      (m.settle id (some .operationCanceled)).notify id 0 := by
    rw [Remote.interrupt, if_pos hlinked]
  obtain ⟨ready, waits, hloop, hwaits⟩ := loop_notify (m.settle id (some .operationCanceled)) id 0 0
  obtain ⟨active, callback, hop, -⟩ := op_notify (m.settle id (some .operationCanceled)) id 0 id
  rw [Remote.op_settle, if_pos rfl] at hop
  rw [hinterrupt]
  exact
  { queue := Remote.queue_deliver m.toRemote id (some .operationCanceled) (ht.home id)
    op := fun i hi => by
      obtain ⟨active', callback', hop', hsame⟩ :=
        op_notify (m.settle id (some .operationCanceled)) id 0 i
      change ((m.settle id (some .operationCanceled)).notify id 0).op i = m.op i
      rw [hop', (hsame hi).1, (hsame hi).2, Remote.op_settle, if_neg hi]
    linked := congrArg Op.linked hop
    error := congrArg Op.error hop
    waits := fun i hi hmem => by
      change i ∈ (((m.settle id (some .operationCanceled)).notify id 0).loop 0).waits
      rw [hloop]
      exact hwaits i hi hmem
    messages := fun l i hi => by
      obtain ⟨ready', waits', hloop', -⟩ :=
        loop_notify (m.settle id (some .operationCanceled)) id l 0
      change .wait i ∈ (((m.settle id (some .operationCanceled)).notify id 0).loop l).messages ++
        m.batch l at hi
      rw [hloop'] at hi
      exact .inr hi
    requested := Owner.requested_notify ..
    stopping := (congrArg LoopState.stopping hloop).trans rfl
    cancel := (congrArg LoopState.cancel hloop).trans rfl }

/-- What the scan does with one wait. -/
theorem Tame.scan (ht : Tame b c m) (id : ℕ) :
    Tame b c (m.withRemote (m.toRemote.scan id 0)) ∧ (m.withRemote (m.toRemote.scan id 0)).desk =
      m.desk.settle (fun i => i == id && m.desk.flagged i) fun _ => some .operationCanceled := by
  have hidle : m.desk.flagged id = false →
      m.desk.settle (fun i => i == id && m.desk.flagged i) (fun _ => some .operationCanceled) =
        m.desk := by
    intro hflag
    refine Desk.settle_eq_self _ (fun i => ?_) _
    by_cases hi : i = id
    · rw [hi, hflag, Bool.and_false]
    · simp [hi]
  cases hlinked : (m.op id).linked with
  | false =>
    have hscan : m.toRemote.scan id 0 = m.toRemote := by
      have hinterrupt : m.interrupt id 0 = m.toRemote := by
        rw [Remote.interrupt, if_neg (by simp [hlinked])]
      rw [Remote.scan, hinterrupt, ite_self]
    rw [hscan, hidle (by simp [Mail.desk, Desk.ofOps, hlinked])]
    exact ⟨ht, rfl⟩
  | true =>
    cases hcanceled : (m.op id).canceled with
    | false =>
      have hscan : m.toRemote.scan id 0 = m.toRemote := by
        rw [Remote.scan, if_neg]
        simp [ht.stopping, hcanceled]
      rw [hscan, hidle (by simp [Mail.desk, Desk.ofOps, hcanceled])]
      exact ⟨ht, rfl⟩
    | true =>
      have hscan : m.toRemote.scan id 0 = m.interrupt id 0 := by
        rw [Remote.scan,
          if_pos ⟨ht.waits id hlinked, (ht.armed id hlinked).interruptible, .inr hcanceled⟩]
      have hfinishes := ht.finishes_interrupt hlinked
      rw [hscan]
      refine ⟨hfinishes.tame ht (ht.lt id hlinked), ?_⟩
      rw [hfinishes.desk ht, Desk.finish]
      congr 1
      funext i
      by_cases hi : i = id
      · subst hi
        simp [Mail.desk, Desk.ofOps, hlinked, hcanceled]
      · simp [hi]

theorem Tame.scanWaits (ht : Tame b c m) (ids : List ℕ) :
    Tame b c (m.scanWaits ids) ∧ (m.scanWaits ids).desk =
      m.desk.settle (fun i => ids.contains i && m.desk.flagged i) fun _ =>
        some .operationCanceled := by
  induction ids generalizing m with
  | nil => exact ⟨ht, (Desk.settle_eq_self _ (fun _ => rfl) _).symm⟩
  | cons id rest ih =>
    obtain ⟨ht₁, hdesk₁⟩ := ht.scan id
    obtain ⟨ht₂, hdesk₂⟩ := ih ht₁
    refine ⟨ht₂, hdesk₂.trans ?_⟩
    rw [hdesk₁, Desk.settle_flagged_cons]

/-- `loop::expire`. -/
theorem Tame.expire (ht : Tame b b m) :
    Tame false false m.expire ∧ m.expire.desk = m.desk.expire := by
  unfold Mail.expire
  rw [ht.cancel]
  cases b with
  | false =>
    have hflag : ∀ i, m.desk.flagged i = false := by
      intro i
      cases h : m.desk.flagged i with
      | false => rfl
      | true =>
        obtain ⟨hlinked, hcanceled⟩ := Bool.and_eq_true_iff.mp h
        exact absurd ((ht.armed i hlinked).raised hcanceled) Bool.false_ne_true
    rw [if_neg Bool.false_ne_true]
    exact ⟨ht, (Desk.settle_eq_self _ hflag _).symm⟩
  | true =>
    obtain ⟨m₁, hm₁, ht₁, hdesk₁, hwaits⟩ : ∃ m₁,
        m₁ = m.withRemote (m.setLoop 0 fun loop => { loop with cancel := false }) ∧
          Tame true false m₁ ∧ m₁.desk = m.desk ∧ (m₁.loop 0).waits = (m.loop 0).waits := by
      have hloop : ∀ l, (m.setLoop 0 fun loop => { loop with cancel := false }).loop l =
          if l = 0 then { m.loop 0 with cancel := false } else m.loop l :=
        Remote.loop_setLoop _ _ _
      have hzero : (m.setLoop 0 fun loop => { loop with cancel := false }).loop 0 =
          { m.loop 0 with cancel := false } := by rw [hloop, if_pos rfl]
      refine ⟨m.withRemote (m.setLoop 0 fun loop => { loop with cancel := false }), rfl, ?_, rfl,
        (congrArg LoopState.waits hzero).trans rfl⟩
      exact
      { ht with
        stopping := (congrArg LoopState.stopping hzero).trans ht.stopping
        cancel := congrArg LoopState.cancel hzero
        waits := fun i hi => by
          change i ∈ ((m.setLoop 0 fun loop => { loop with cancel := false }).loop 0).waits
          rw [hzero]
          exact ht.waits i hi
        messages := fun l i hi => by
          change .wait i ∈ ((m.setLoop 0 fun loop => { loop with cancel := false }).loop l).messages
            ++ m.batch l at hi
          rw [hloop] at hi
          split_ifs at hi with hl
          · exact ht.messages 0 i (hl ▸ hi)
          · exact ht.messages l i hi }
    obtain ⟨ht₂, hdesk₂⟩ := ht₁.scanWaits (m₁.loop 0).waits
    have hall : (fun i => (m₁.loop 0).waits.contains i && m₁.desk.flagged i) = m.desk.flagged := by
      rw [hdesk₁, hwaits]
      funext i
      cases h : m.desk.flagged i with
      | false => exact Bool.and_false _
      | true =>
        have hmem : i ∈ (m.loop 0).waits := ht.waits i (Bool.and_eq_true_iff.mp h).1
        simp [hmem]
    rw [hall, hdesk₁] at hdesk₂
    rw [← hm₁, if_pos rfl]
    refine ⟨{ ht₂ with armed := fun i hi => { ht₂.armed i hi with raised := fun hcanceled => ?_ } },
      hdesk₂⟩
    have hflag : (m₁.scanWaits (m₁.loop 0).waits).desk.flagged i = false := by
      rw [hdesk₂]
      exact Bool.and_not_self _
    exact hflag.symm.trans (Bool.and_eq_true_iff.mpr ⟨hi, hcanceled⟩)

/-! ### Stop requests -/

/-- The stop callback of `id` runs if it is registered with the stop state `t`. -/
def strike (m : Mail α) (t id : ℕ) : Mail α :=
  if (m.op id).callback && (m.op id).token == some t then
    m.withRemote ((m.toRemote.async (.fire id)).async (.raise (m.owner id)))
  else m

/-- `request_stop`, called by the loop `0`. -/
def requestStop (m : Mail α) (t : ℕ) : Mail α :=
  if m.requested t then m
  else (List.range m.next).foldl (strike · t) (m.withRemote (m.toRemote.async (.request t)))

/-- The callbacks of the operations in `l` have run. -/
def Struck (t : ℕ) (l : List ℕ) (m m' : Mail α) : Prop :=
  ∃ cancel event, m' = { m with
      op := Desk.strike t l m.op
      loop := update m.loop 0 { m.loop 0 with cancel, event } } ∧
    (cancel = true ∨ cancel = (m.loop 0).cancel ∧ ∀ i ∈ l, ¬(m.op i).Listens t)

theorem struck_strike {t : ℕ} (hreq : m.requested t = true) (hid : m.owner id = 0) :
    Struck t [id] m (m.strike t id) := by
  unfold strike
  split_ifs with h
  · have hlistens : (m.op id).Listens t := by simpa [Op.Listens] using h
    have hfire : m.toRemote.async (.fire id) =
        m.toRemote.setOp id fun o => { o with canceled := true } := by
      have hstop : m.stopRequested (m.op id).token = true := by
        rw [hlistens.2]
        exact hreq
      simp only [Remote.async, hlistens.1, hstop]
      rfl
    refine ⟨true, (m.loop 0).event + 1, ?_, .inl rfl⟩
    rw [hfire, hid, Desk.strike_singleton hlistens]
    rfl
  · have hnot : ¬(m.op id).Listens t := by simpa [Op.Listens] using h
    refine ⟨_, (m.loop 0).event, ?_, .inr ⟨rfl, fun i hi => mem_singleton.mp hi ▸ hnot⟩⟩
    rw [Desk.strike_of_not hnot, update_eq_self]

theorem Struck.trans {t : ℕ} {l l' : List ℕ} (h : Struck t l m m₁) (h' : Struck t l' m₁ m') :
    Struck t (l ++ l') m m' := by
  obtain ⟨cancel, event, rfl, hcancel⟩ := h
  obtain ⟨cancel', event', rfl, hcancel'⟩ := h'
  dsimp only at hcancel' ⊢
  rw [update_self] at hcancel'
  refine ⟨cancel', event', ?_, Desk.announced_trans hcancel hcancel'⟩
  rw [Desk.strike_strike, update_idem, update_self]

theorem struck_foldl {t : ℕ} (hreq : m.requested t = true) (howner : ∀ i, m.owner i = 0)
    (l : List ℕ) : Struck t l m (l.foldl (strike · t) m) := by
  induction l generalizing m with
  | nil =>
    refine ⟨_, (m.loop 0).event, ?_, .inr ⟨rfl, nofun⟩⟩
    rw [Desk.strike_nil, update_eq_self]
    rfl
  | cons id rest ih =>
    have hstrike := struck_strike hreq (howner id)
    refine hstrike.trans (ih ?_ ?_)
    all_goals
      obtain ⟨_, _, heq, -⟩ := hstrike
      rw [heq]
      assumption

/-- The callbacks of the armed waits raise their flags. -/
theorem Struck.tame {t : ℕ} (h : Struck t (List.range m.next) m m') (ht : Tame b b m) :
    Tame (m'.loop 0).cancel (m'.loop 0).cancel m' := by
  obtain ⟨cancel, event, rfl, hcancel⟩ := h
  have hlinked : ∀ i, (Desk.strike t (List.range m.next) m.op i).linked = (m.op i).linked :=
    fun i => by
      obtain ⟨_, hi⟩ := Desk.exists_strike_eq t (List.range m.next) m.op i
      rw [hi]
  rw [ht.cancel] at hcancel
  refine
  { ht with
    stopping := ?_
    cancel := rfl
    linked := fun i => (ht.linked i).trans (by rw [← hlinked])
    lt := fun i hi => ht.lt i (hlinked i ▸ hi)
    waits := fun i hi => ?_
    armed := fun i hi => ?_
    messages := fun l i hi => ?_ }
  · dsimp only
    rw [update_self]
    exact ht.stopping
  · dsimp only
    rw [update_self]
    exact ht.waits i (hlinked i ▸ hi)
  · dsimp only
    rw [update_self]
    exact Desk.armed_strike (ht.armed i (hlinked i ▸ hi)) hcancel
  · dsimp only at hi ⊢
    rw [hlinked]
    rw [update_apply] at hi
    split_ifs at hi with hl
    · exact ht.messages l i (hl ▸ hi)
    · exact ht.messages l i hi

theorem Struck.desk {t : ℕ} (h : Struck t (List.range m.next) m m') (ht : Tame b c m) :
    m'.desk = { m.desk with
      flagged := fun i =>
        m.desk.flagged i || (m.desk.waiting.contains i && m.desk.token i == some t) } := by
  obtain ⟨cancel, event, rfl, -⟩ := h
  exact Desk.ofOps_strike (fun _ _ => rfl) fun i hi =>
    ⟨⟨ht.lt i hi, (ht.linked i).mpr hi⟩, ht.armed i hi⟩

/-- `request_stop`. -/
theorem Tame.requestStop (ht : Tame b b m) (t : ℕ) :
    (∃ b', Tame b' b' (m.requestStop t)) ∧ (m.requestStop t).desk = m.desk.requestStop t := by
  unfold Mail.requestStop Desk.requestStop
  have hreq : m.desk.requested t = m.requested t := rfl
  rw [hreq]
  split_ifs with h
  · exact ⟨⟨b, ht⟩, rfl⟩
  · obtain ⟨m₁, hm₁, hreq₁, ht₁, hdesk₁, hnext⟩ :
        ∃ m₁, m₁ = m.withRemote (m.toRemote.async (.request t)) ∧
          m₁.requested t = true ∧ Tame b b m₁ ∧
          m₁.desk = { m.desk with requested := update m.requested t true } ∧
          m₁.next = m.next :=
      ⟨_, rfl, update_self .., { ht with }, rfl, rfl⟩
    have hstruck := struck_foldl hreq₁ ht₁.owner (List.range m₁.next)
    rw [← hm₁, ← hnext]
    refine ⟨⟨_, hstruck.tame ht₁⟩, ?_⟩
    rw [hstruck.desk ht₁, hdesk₁]
    rfl

/-! ### Runs -/

/-- What else the owner threads do. -/
inductive Chore where
  | send (l n : ℕ)
  | detach (l budget : ℕ)
  | message (l : ℕ)
  | resume (l : ℕ)
  | destroy (id : ℕ)
  deriving DecidableEq, Repr

/-- The step of a chore. -/
def Chore.act : Chore → Remote.OwnerAct
  | .send l n => .send l n
  | .detach l budget => .detach l budget
  | .message l => .message l
  | .resume l => .resume l
  | .destroy id => .destroy id

/-- One chore. -/
def chore (m : Mail α) (a : Chore) : Mail α := m.withRemote (m.ownerAct a.act)

/-- One call on the mailbox `0`. -/
def perform (m : Mail α) : Desk.Item α → Mail α
  | .send value token => m.send value token
  | .recv token => m.recv token
  | .trySend value => m.trySend 0 value
  | .tryRecv => m.tryRecv 0
  | .close => m.close 0
  | .requestStop token => m.requestStop token
  | .expire => m.expire

/-- A loop changes in what `expire()` and the queue do not look at. -/
theorem alters_setLoop (m : Mail α) (l : ℕ) (f : LoopState → LoopState) (bt : ℕ → List Message)
    (hf : (f (m.loop l)).stopping = (m.loop l).stopping ∧
      (f (m.loop l)).cancel = (m.loop l).cancel ∧
      (f (m.loop l)).waits = (m.loop l).waits)
    (hmessages : ∀ i, .wait i ∈ (f (m.loop l)).messages ++ bt l →
      .wait i ∈ (m.loop l).messages ++ m.batch l) (hbatch : ∀ k ≠ l, bt k = m.batch k) :
    Alters m (m.withRemote { m.setLoop l f with batch := bt }) := by
  have hloop : ∀ k, (m.setLoop l f).loop k = if k = l then f (m.loop l) else m.loop k :=
    Remote.loop_setLoop _ _ _
  have hzero : ((m.setLoop l f).loop 0).stopping = (m.loop 0).stopping ∧
      ((m.setLoop l f).loop 0).cancel = (m.loop 0).cancel ∧
      ((m.setLoop l f).loop 0).waits = (m.loop 0).waits := by
    rw [hloop]
    split_ifs with h
    · exact h ▸ hf
    · exact ⟨rfl, rfl, rfl⟩
  refine
    { stopping := hzero.1
      cancel := hzero.2.1
      waits := fun i _ hi => hzero.2.2.symm ▸ hi
      messages := fun k i hi => ?_ }
  change .wait i ∈ ((m.setLoop l f).loop k).messages ++ bt k at hi
  rw [hloop] at hi
  split_ifs at hi with h
  · rw [h] at hi ⊢
    exact hmessages i hi
  · rw [hbatch k h] at hi
    exact hi

/-- A wait that is not linked is notified. -/
theorem alters_notify (m : Mail α) (k : ℕ) (hlinked : (m.op id).linked = false) :
    Alters m (m.withRemote (m.toRemote.notify id k)) := by
  have hop := op_notify m.toRemote id k
  have hloop := fun l => loop_notify m.toRemote id l k
  have hne : ∀ i, (m.op i).linked = true → i ≠ id := by
    rintro i hi rfl
    exact Bool.false_ne_true (hlinked.symm.trans hi)
  refine
  { requested := Owner.requested_notify ..
    stopping := ?_
    cancel := ?_
    linked := fun i => ?_
    error := fun i => ?_
    op := fun i hi => ?_
    waits := fun i hi hmem => ?_
    messages := fun l i hi => ?_ }
  · obtain ⟨_, _, h, -⟩ := hloop 0
    exact (congrArg LoopState.stopping h).trans rfl
  · obtain ⟨_, _, h, -⟩ := hloop 0
    exact (congrArg LoopState.cancel h).trans rfl
  · obtain ⟨_, _, h, -⟩ := hop i
    exact (congrArg Op.linked h).trans rfl
  · obtain ⟨_, _, h, -⟩ := hop i
    exact (congrArg Op.error h).trans rfl
  · obtain ⟨_, _, h, hsame⟩ := hop i
    obtain ⟨rfl, rfl⟩ := hsame (hne i hi)
    exact h
  · obtain ⟨_, _, h, hwaits⟩ := hloop 0
    change i ∈ ((m.toRemote.notify id k).loop 0).waits
    rw [h]
    exact hwaits i (hne i hi) hmem
  · obtain ⟨_, _, h, -⟩ := hloop l
    change .wait i ∈ ((m.toRemote.notify id k).loop l).messages ++ m.batch l at hi
    rw [h] at hi
    exact hi

/-- Chores change only what the loops have to do with waits that are not linked. -/
theorem Tame.alters_chore (ht : Tame b c m) (a : Chore) : Alters m (m.chore a) := by
  cases a with
  | send l n =>
    refine alters_setLoop m l (·.send (.hop n)) m.batch ⟨?_, ?_, ?_⟩ (fun i hi => ?_) fun _ _ => rfl
    · rw [LoopState.send_eq]
    · rw [LoopState.send_eq]
    · rw [LoopState.send_eq]
    · rw [LoopState.send_eq] at hi
      simpa using hi
  | detach l budget =>
    change Alters m (m.withRemote (m.detach l budget))
    unfold Remote.detach
    split_ifs with h
    · refine alters_setLoop m l _ _ ⟨rfl, rfl, rfl⟩ (fun i hi => ?_) fun k hk => ?_
      · rw [update_self] at hi
        rw [h, append_nil]
        rcases mem_append.mp hi with hi | hi
        · exact mem_of_mem_drop hi
        · exact mem_of_mem_take hi
      · rw [update_of_ne hk]
    · exact {}
  | message l =>
    have hdrop : Alters m (m.withRemote (m.dropMessage l)) :=
      { messages := fun k i hi => by
          change .wait i ∈ (m.loop k).messages ++ update m.batch l (m.batch l).tail k at hi
          rw [update_apply] at hi
          split_ifs at hi with hk
          · rw [hk] at hi ⊢
            rcases mem_append.mp hi with hi | hi
            · exact mem_append_left _ hi
            · exact mem_append_right _ (mem_of_mem_tail hi)
          · exact hi }
    change Alters m (m.withRemote (m.message l))
    unfold Remote.message
    split
    · exact {}
    · rename_i id rest h
      have hlinked : (m.op id).linked = false :=
        (ht.messages l id (mem_append_right _ (h ▸ mem_cons_self))).2
      exact hdrop.trans (alters_notify _ l hlinked)
    · exact hdrop
  | resume l =>
    change Alters m (m.withRemote (m.resume l))
    unfold Remote.resume
    split
    · exact {}
    · rename_i id rest h
      have hset : Alters m (m.withRemote (m.setLoop l fun loop => { loop with ready := rest })) :=
        alters_setLoop m l (fun loop => { loop with ready := rest }) m.batch ⟨rfl, rfl, rfl⟩
          (fun _ hi => hi) fun _ _ => rfl
      exact { hset with }
  | destroy id =>
    change Alters m (m.withRemote (m.destroy id))
    unfold Remote.destroy
    split_ifs
    · exact {}
    · exact {}

/-- Chores do not touch the desk. -/
theorem Tame.chore (ht : Tame b c m) (a : Chore) :
    Tame b c (m.chore a) ∧ (m.chore a).desk = m.desk :=
  ⟨(ht.alters_chore a).tame ht, (ht.alters_chore a).desk⟩

/-- **Every call on the mailbox is the call on its desk**, if no wait has its flag set when the
mailbox is closed. -/
theorem Tame.perform (ht : Tame b b m) (item : Desk.Item α)
    (hcalm : item = .close → ∀ i ∈ m.desk.waiting, m.desk.flagged i = false) :
    (∃ b', Tame b' b' (m.perform item)) ∧ (m.perform item).desk = m.desk.perform item := by
  cases item with
  | send value token => exact (ht.send value token).imp_left fun h => ⟨b, h⟩
  | recv token => exact (ht.recv token).imp_left fun h => ⟨b, h⟩
  | trySend value => exact (ht.trySend value).imp_left fun h => ⟨b, h⟩
  | tryRecv => exact ht.tryRecv.imp_left fun h => ⟨b, h⟩
  | close => exact (ht.close (hcalm rfl)).imp_left fun h => ⟨b, h⟩
  | requestStop token => exact ht.requestStop token
  | expire => exact ht.expire.imp_left fun h => ⟨false, h⟩

theorem tame_init (capacity : ℕ → ℕ) : Tame false false (init capacity : Mail α) where
  sched := rfl
  entering := rfl
  owner _ := rfl
  home _ := rfl
  stopping := rfl
  cancel := rfl
  nodup := nodup_nil
  linked _ := ⟨nofun, nofun⟩
  lt _ h := Bool.noConfusion h
  waits _ h := Bool.noConfusion h
  armed _ h := Bool.noConfusion h
  value _ h := Bool.noConfusion h
  messages _ _ h := absurd h not_mem_nil

theorem desk_init (capacity : ℕ → ℕ) : (init capacity : Mail α).desk = Desk.init (capacity 0) := by
  simp [desk, Desk.ofOps, init, Desk.init]

end Snowy.Mail
