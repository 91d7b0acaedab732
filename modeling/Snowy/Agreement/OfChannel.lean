import Snowy.Agreement.ChannelDesk

/-!
# The calls on a channel are the calls on its desk

## Main definitions

* `Snowy.World.requestStop` : `request_stop`, called on the owner thread.
* `Snowy.World.perform`, `Snowy.World.chore` : the calls, and what else the owner thread does.

## Main results

* `Snowy.World.Tame.perform` : every call on the channel is the call on its desk.
-/

namespace Snowy.World

open Function List

variable {α : Type*} {H : HeapRange ℕ ℤ} {w w' w₁ : World α} {id r : ℕ} {e : Option Errc} {x y : α}
  {b c : Bool} {token : Option ℕ}

/-! ### Calls -/

/-- The next operation is not active yet. -/
theorem Tame.active_next (ht : Tame b c w) : (w.op w.next).active = false := by
  cases h : (w.op w.next).active with
  | false => rfl
  | true => exact absurd (ht.lt h) (lt_irrefl _)

section alloc

variable {op : Op} {node : Node α}

theorem Tame.active_alloc (ht : Tame b c w) (hactive : op.active = false) (i : ℕ) :
    ((w.alloc op node).op i).active = (w.op i).active := by
  rw [op_alloc]
  split_ifs with h
  · rw [h, hactive, ht.active_next]
  · rfl

theorem op_alloc_of_active (hactive : op.active = false) {i : ℕ}
    (hi : ((w.alloc op node).op i).active = true) : (w.alloc op node).op i = w.op i := by
  rw [op_alloc]
  split_ifs with h
  · rw [op_alloc, if_pos h, hactive] at hi
    cases hi
  · rfl

/-- A new operation. -/
theorem Tame.alloc (ht : Tame b c w) (hactive : op.active = false) (hlinked : op.linked = false)
    (herror : op.error = none) (hvalue : node.sending = true → node.value ≠ none) :
    Tame b c (w.alloc op node) ∧ (w.alloc op node).desk = w.desk.alloc node := by
  have hop : ∀ i, ((w.alloc op node).op i).active = (w.op i).active := ht.active_alloc hactive
  have hold : ∀ {i}, ((w.alloc op node).op i).active = true → (w.alloc op node).op i = w.op i :=
    fun hi => op_alloc_of_active hactive hi
  have hwaiting : ((w.alloc op node).channel 0).waiters.filter
      (fun i => ((w.alloc op node).op i).active) = w.desk.waiting :=
    filter_congr fun i _ => hop i
  refine ⟨?_, ?_⟩
  swap
  · rw [World.desk, hwaiting]
    exact Desk.ofOps_alloc ht.active_next hactive herror node
  exact
    { ht with
      linked_lt := fun i hi => Nat.lt_succ_of_lt (ht.linked_lt i hi)
      waits := fun i => by rw [hop]; exact ht.waits i
      home := fun i hi => by
        rw [op_alloc] at hi
        rw [node_alloc]
        split_ifs at hi ⊢ with h
        · rw [hlinked] at hi
          cases hi
        · exact ht.home i hi
      value := fun i hi => by
        rw [node_alloc] at hi ⊢
        split_ifs at hi ⊢ with h
        · exact hvalue hi
        · exact ht.value i hi
      linked := fun i hi => ht.linked i (hop i ▸ hi)
      armed := fun i hi => by rw [hold hi]; exact ht.armed i (hop i ▸ hi) }

end alloc

/-- An operation that does not wait fails. -/
theorem Tame.fail (ht : Tame b c w) (hinactive : (w.op id).active = false) (error : Errc) :
    Tame b c (w.fail id error) ∧ (w.fail id error).desk = w.desk.fail id error := by
  have hfinishes : Finishes id (some error) w (w.fail id error) :=
    { waiters := .inl rfl
      op := fun i hi => by rw [op_fail, if_neg hi]
      inactive := by
        rw [op_fail, if_pos rfl]
        exact hinactive
      linked := fun h => by
        rw [op_fail, if_pos rfl] at h
        exact h
      error := by rw [op_fail, if_pos rfl]
      waits := (ht.erase_waits hinactive).symm }
  refine ⟨hfinishes.tame ht, ?_⟩
  rw [hfinishes.desk]
  exact Desk.finish_eq_fail hinactive (not_mem_waiting hinactive) error

/-- `canceled_now` reads the stop state of the operation. -/
theorem Tame.canceledNow (ht : Tame b c w) (id : ℕ) : w.canceledNow id =
    if w.stopRequested id then (w.fail id .operationCanceled, true) else (w, false) := by
  simp only [World.canceledNow, interfere_of_sched ht.sched, ht.stopping]
  rfl

/-- The operation `id` is active and linked behind the others. -/
def parked (w : World α) (id : ℕ) (token : Option ℕ) : World α :=
  { w with
    op := update w.op id
      { cls := .wait, token, callback := token.isSome, active := true, linked := true }
    channel := update w.channel 0 { w.channel 0 with waiters := (w.channel 0).waiters ++ [id] }
    loop := { w.loop with waits := id :: w.loop.waits }
    suspended := w.suspended ++ [id] }

/-- The callback is registered and does not run. -/
theorem New.parked_eq (hn : New id token w) :
    ((w.register id).enlist id).link id 0 = w.parked id token := by
  rw [World.register, Owner.register_eq hn.op rfl hn.requested]
  simp [World.enlist, World.link, World.setOp, setChannel, Owner.enlist, Owner.setOp, parked]

theorem op_parked (w : World α) (id : ℕ) (token : Option ℕ) (i : ℕ) : (w.parked id token).op i =
    if i = id then { cls := .wait, token, callback := token.isSome, active := true, linked := true }
    else w.op i :=
  update_apply ..

theorem channel_parked (w : World α) (id : ℕ) (token : Option ℕ) : (w.parked id token).channel 0 =
    { w.channel 0 with waiters := (w.channel 0).waiters ++ [id] } := by
  simp [parked]

theorem New.tame_parked (hn : New id token w) (ht : Tame b c w) : Tame b c (w.parked id token) :=
  { ht with
    nodup := by
      rw [channel_parked]
      refine nodup_append.mpr ⟨ht.nodup, nodup_singleton id, fun i hi j hj hij => ?_⟩
      rw [hij, mem_singleton.mp hj] at hi
      exact hn.waiters hi
    linked_lt := fun i hi => by
      rw [channel_parked] at hi
      rcases mem_append.mp hi with hi | hi
      · exact ht.linked_lt i hi
      · exact mem_singleton.mp hi ▸ hn.lt
    waits_nodup := by
      refine nodup_cons.mpr ⟨fun hmem => ?_, ht.waits_nodup⟩
      have hactive := (ht.waits id).mp hmem
      rw [hn.op] at hactive
      cases hactive
    waits := fun i => by
      change i ∈ id :: w.loop.waits ↔ _
      rw [op_parked, mem_cons]
      split_ifs with hi
      · simp [hi]
      · simp [hi, ht.waits]
    home := fun i hi => by
      rw [op_parked] at hi
      split_ifs at hi with hid
      · exact hid ▸ hn.home
      · exact ht.home i hi
    linked := fun i hi => by
      rw [op_parked] at hi
      rw [channel_parked]
      split_ifs at hi with hid
      · exact mem_append_right _ (mem_singleton.mpr hid)
      · exact mem_append_left _ (ht.linked i hi)
    armed := fun i hi => by
      rw [op_parked] at hi ⊢
      split_ifs at hi ⊢
      · exact ⟨rfl, rfl, rfl, nofun⟩
      · exact ht.armed i hi }

theorem New.desk_parked (hn : New id token w) :
    (w.parked id token).desk = w.desk.park id token := by
  have hwaiting : ((w.parked id token).channel 0).waiters.filter
      (fun i => ((w.parked id token).op i).active) = w.desk.waiting ++ [id] := by
    rw [channel_parked]
    change ((w.channel 0).waiters ++ [id]).filter _ = _
    rw [filter_append, filter_cons_of_pos (by rw [op_parked, if_pos rfl]), filter_nil]
    refine congrArg (· ++ [id]) (filter_congr fun i hi => ?_)
    have hne : i ≠ id := fun hid => hn.waiters (hid ▸ hi)
    rw [op_parked, if_neg hne]
  rw [World.desk, hwaiting, channel_parked]
  exact Desk.ofOps_park (op_parked w id token) (by rw [hn.op]; exact ⟨rfl, rfl⟩)
    ⟨rfl, rfl, rfl, rfl⟩

section

variable (ht : Tame b c w)
include ht

/-- The end of `await_suspend`, when the channel cannot serve the operation. -/
theorem Tame.enqueue (hn : New id token w) :
    ∃ w₁, Tame b c w₁ ∧ w.enqueue id 0 = (w₁, true) ∧ w₁.desk = w.desk.park id token := by
  have hinterruptible : (w.op id).interruptible = true := by rw [hn.op]
  have hpark : w.park id = ((w.register id).enlist id, true) := by
    simp only [World.park, hinterruptible, if_true, arm, interfere_of_sched ht.sched, ht.stopping,
      hn.requested, Bool.false_and]
    exact congrArg (·, true) (enlist_activate _ id)
  refine ⟨_, hn.tame_parked ht, ?_, hn.desk_parked⟩
  rw [World.enqueue, hpark, ← hn.parked_eq]

/-- A call of `send` or `recv` up to the check of its token. -/
theorem Tame.begin (token : Option ℕ) (node : Node α)
    (hhome : node.home = .channel 0) (hvalue : node.sending = true → node.value ≠ none) :
    ∃ w₁, w₁ = w.alloc { cls := .wait, token } node ∧ Tame b c w₁ ∧ w₁.desk = w.desk.alloc node ∧
      (w₁.op w.next).active = false ∧
      w₁.stopRequested w.next = (w.desk.alloc node).stopRequested token ∧
      (w₁.stopRequested w.next = false → New w.next token w₁) := by
  have hop : (w.alloc { cls := .wait, token } node).op w.next = { cls := .wait, token } := by
    rw [op_alloc, if_pos rfl]
  obtain ⟨ht₁, hdesk⟩ : Tame b c (w.alloc { cls := .wait, token } node) ∧ _ :=
    ht.alloc rfl rfl rfl hvalue
  refine ⟨_, rfl, ht₁, hdesk, by rw [hop], ?_, fun hreq => ?_⟩
  · unfold Owner.stopRequested
    rw [hop]
    cases token <;> rfl
  · exact
    { lt := Nat.lt_succ_self _
      op := hop
      waiters := fun h => absurd (ht.linked_lt _ h) (lt_irrefl _)
      home := by
        rw [node_alloc, if_pos rfl]
        exact hhome
      requested := hreq }

/-- `channel::send`. -/
theorem Tame.send (x : α) (token : Option ℕ) :
    Tame b c (w.send 0 x token) ∧ (w.send 0 x token).desk = w.desk.send x token := by
  obtain ⟨w₁, hw₁, ht₁, hdesk₁, hinactive, hreq, hnew⟩ := ht.begin token (.call 0 (some x)) rfl
    fun _ => Option.some_ne_none x
  unfold World.send Desk.send
  dsimp only
  rw [← hw₁, ht₁.canceledNow, ← hreq, ← hdesk₁]
  cases hstop : w₁.stopRequested w.next with
  | true =>
    obtain ⟨ht₂, hdesk₂⟩ := ht₁.fail hinactive .operationCanceled
    exact ⟨(alters_issue _ _ x).tame ht₂, (desk_issue _ _ x).trans hdesk₂⟩
  | false =>
    have hn := hnew hstop
    have hclosed : (w₁.channel 0).closed = w₁.desk.closed := rfl
    simp only [Bool.false_eq_true, if_false, hclosed]
    split_ifs with hshut
    · obtain ⟨ht₂, hdesk₂⟩ := ht₁.fail hinactive .brokenPipe
      exact ⟨(alters_issue _ _ x).tame ht₂, (desk_issue _ _ x).trans hdesk₂⟩
    · obtain ⟨w₂, ht₂, hnew₂, ok, hpush, hdesk₂⟩ := ht₁.push w.next x
      rw [hpush, hdesk₂]
      cases ok with
      | true => exact ⟨ht₂, rfl⟩
      | false =>
        obtain ⟨w₃, ht₃, henqueue, hdesk₃⟩ := ht₂.enqueue (hnew₂ _ _ hn)
        simp only [henqueue]
        exact ⟨(alters_issue _ _ x).tame ht₃, (desk_issue _ _ x).trans hdesk₃⟩

/-- `channel::recv`. -/
theorem Tame.recv (token : Option ℕ) :
    Tame b c (w.recv 0 token) ∧ (w.recv 0 token).desk = w.desk.recv token := by
  obtain ⟨w₁, hw₁, ht₁, hdesk₁, hinactive, hreq, hnew⟩ := ht.begin token (.call 0 none) rfl nofun
  unfold World.recv Desk.recv
  dsimp only
  rw [← hw₁, ht₁.canceledNow, ← hreq, ← hdesk₁]
  cases hstop : w₁.stopRequested w.next with
  | true => exact ht₁.fail hinactive .operationCanceled
  | false =>
    obtain ⟨w₂, ht₂, hnew₂, v, hpop, hdesk₂⟩ := ht₁.pop w.next
    have hn := hnew₂ _ _ (hnew hstop)
    have hclosed : (w₂.channel 0).closed = w₂.desk.closed := rfl
    simp only [Bool.false_eq_true, if_false, hpop, hdesk₂]
    cases v with
    | some x =>
      have hvalue : Alters w₂ (w₂.setNode w.next fun n => { n with value := some x }) :=
        alters_setNode w₂ w.next { value := fun _ => Option.some_ne_none x }
      exact ⟨hvalue.tame ht₂, rfl⟩
    | none =>
      simp only [hclosed]
      split_ifs with hshut
      · exact ⟨ht₂, rfl⟩
      · obtain ⟨w₃, ht₃, henqueue, hdesk₃⟩ := ht₂.enqueue hn
        simp only [henqueue]
        exact ⟨(alters_arrive _ _).tame ht₃, (desk_arrive _ _).trans hdesk₃⟩

theorem Tame.refuse (id : ℕ) (x : α) :
    Tame b c (w.refuse id 0 x) ∧ (w.refuse id 0 x).desk = w.desk.refuse id := by
  have hnode : Alters w (w.setNode id fun n => { n with refused := true }) :=
    alters_setNode w id {}
  exact ⟨(alters_issue _ id x).tame (hnode.tame ht), desk_issue _ id x⟩

/-- `channel::try_send`. -/
theorem Tame.trySend (x : α) :
    Tame b c (w.trySend 0 x) ∧ (w.trySend 0 x).desk = w.desk.trySend x := by
  obtain ⟨ht₁, hdesk₁⟩ : Tame b c (w.alloc {} (.call 0 (some x))) ∧ _ :=
    ht.alloc rfl rfl rfl fun _ => Option.some_ne_none x
  unfold World.trySend Desk.trySend
  dsimp only
  rw [interfere_of_sched ht₁.sched, ← hdesk₁]
  generalize w.alloc {} (.call 0 (some x)) = w₁ at ht₁
  rw [ht₁.stopping, if_neg Bool.false_ne_true]
  have hclosed : (w₁.channel 0).closed = w₁.desk.closed := rfl
  rw [hclosed]
  split_ifs with hshut
  · exact ht₁.refuse w.next x
  · obtain ⟨w₂, ht₂, -, ok, hpush, hdesk₂⟩ := ht₁.push w.next x
    rw [hpush, hdesk₂]
    cases ok with
    | true => exact ⟨ht₂, rfl⟩
    | false => exact ht₂.refuse w.next x

/-- `channel::try_recv`. -/
theorem Tame.tryRecv : Tame b c (w.tryRecv 0) ∧ (w.tryRecv 0).desk = w.desk.tryRecv := by
  obtain ⟨ht₁, hdesk₁⟩ : Tame b c (w.alloc {} (.call 0 none)) ∧ _ := ht.alloc rfl rfl rfl nofun
  unfold World.tryRecv Desk.tryRecv
  dsimp only
  rw [interfere_of_sched ht₁.sched, ← hdesk₁, ht₁.stopping, if_neg Bool.false_ne_true]
  obtain ⟨w₂, ht₂, -, v, hpop, hdesk₂⟩ := ht₁.pop w.next
  rw [hpop, hdesk₂]
  cases v with
  | none => exact ⟨ht₂, rfl⟩
  | some x =>
    have hvalue : Alters w₂ (w₂.setNode w.next fun n => { n with value := some x }) :=
      alters_setNode w₂ w.next { value := fun _ => Option.some_ne_none x }
    exact ⟨hvalue.tame ht₂, rfl⟩

/-! ### Closing -/

/-- The body of the loop of `channel::close`. -/
theorem Tame.finishes_reject (hactive : (w.op id).active = true) :
    Finishes id (if (w.node id).sending then some .brokenPipe else none) w (w.reject id 0) := by
  have hactive' : ((w.unlink id 0).op id).active = true := (active_unlink w id id).trans hactive
  have hnode : (w.unlink id 0).node = w.node := rfl
  simp only [reject, hactive', if_true, hnode]
  split_ifs with hsending
  · exact (finishes_fail_notify hactive' .brokenPipe).of_unlink rfl
  · have herror : ((w.unlink id 0).op id).error = none := by
      rw [op_unlink, if_pos rfl]
      exact (ht.armed id hactive).error
    exact (herror ▸ finishes_notify hactive').of_unlink rfl

theorem Tame.closeAll {ws : List ℕ} (hws : (w.channel 0).waiters = ws) :
    Tame b c (closeAll 0 w ws) ∧ (closeAll 0 w ws).desk =
      w.desk.settle (fun i => w.desk.waiting.contains i) fun i =>
        if (w.desk.node i).sending then some .brokenPipe else none := by
  induction ws generalizing w with
  | nil =>
    have hwaiting : w.desk.waiting = [] := by
      change (w.channel 0).waiters.filter _ = []
      rw [hws, filter_nil]
    exact ⟨ht, (Desk.settle_eq_self _ (by simp [hwaiting]) _).symm⟩
  | cons id rest ih =>
    have hrest : ((w.reject id 0).channel 0).waiters = rest := by
      rw [channel_reject]
      change (w.channel 0).waiters.erase id = rest
      rw [hws, erase_cons_head]
    change Tame b c (World.closeAll 0 (w.reject id 0) rest) ∧
      (World.closeAll 0 (w.reject id 0) rest).desk = _
    have hring : ((w.reject id 0).channel 0).ring = (w.channel 0).ring := by rw [channel_reject]
    have hnode : (w.reject id 0).node = w.node := by
      unfold reject
      dsimp only
      split_ifs <;> rfl
    cases hactive : (w.op id).active with
    | false =>
      have hreject : w.reject id 0 = w.unlink id 0 := by
        simp only [reject, active_unlink, hactive]
        rfl
      rw [hreject] at hrest ⊢
      obtain ⟨ht', hdesk⟩ := ih ((ht.finishes_unlink hactive).tame ht) hrest
      refine ⟨ht', hdesk.trans ?_⟩
      rw [ht.desk_unlink hactive]
    | true =>
      have hfinishes := ht.finishes_reject hactive
      have hreject : (w.reject id 0).desk =
          w.desk.finish id (if (w.desk.node id).sending then some .brokenPipe else none) := by
        rw [hfinishes.desk, hring, hnode]
        rfl
      have hmem : id ∈ w.desk.waiting :=
        mem_filter.mpr ⟨hws ▸ mem_cons_self, hactive⟩
      obtain ⟨ht', hdesk⟩ := ih (hfinishes.tame ht) hrest
      refine ⟨ht', hdesk.trans ?_⟩
      rw [hreject, Desk.finish]
      refine (Desk.settle_settle _ fun i hi => ?_).trans ?_
      · rw [beq_iff_eq.mp hi]
        rfl
      · congr 1
        funext i
        by_cases hi : i = id
        · simp [hi, hmem]
        · simp [hi, Desk.settle]

/-- `channel::close`. -/
theorem Tame.close : Tame b c (w.close 0) ∧ (w.close 0).desk = w.desk.close := by
  have hchannel : (w.setChannel 0 fun ch => { ch with closed := true }).channel 0 =
      { w.channel 0 with closed := true } := by
    rw [channel_setChannel, if_pos rfl]
  have ht₁ : Tame b c (w.setChannel 0 fun ch => { ch with closed := true }) :=
    { ht with
      nodup := by rw [hchannel]; exact ht.nodup
      linked_lt := by rw [hchannel]; exact ht.linked_lt
      linked := by rw [hchannel]; exact ht.linked }
  have hdesk₁ : (w.setChannel 0 fun ch => { ch with closed := true }).desk =
      { w.desk with closed := true } := by
    simp only [World.desk, hchannel]
    rfl
  obtain ⟨ht₂, hdesk₂⟩ := ht₁.closeAll rfl
  refine ⟨ht₂, hdesk₂.trans ?_⟩
  rw [hdesk₁]
  rfl

end

/-! ### Cancellation -/

/-- The stop callback of `id` runs if it is registered with the stop state `t`. -/
def strike (w : World α) (t id : ℕ) : World α :=
  if (w.op id).callback && (w.op id).token == some t then (w.async (.fire id)).async .raise else w

/-- `request_stop`, called on the owner thread. -/
def requestStop (w : World α) (t : ℕ) : World α :=
  if w.requested t then w else (List.range w.next).foldl (strike · t) (w.async (.request t))

/-- `expire()` completes the waiters whose flag is set. -/
theorem Tame.scanWaits (ht : Tame b c w) {l : List ℕ} (hl : l.Nodup)
    (hactive : ∀ i ∈ l, (w.op i).active = true) :
    Tame b c (scanWaits false w l) ∧ (scanWaits false w l).desk =
      w.desk.settle (fun i => l.contains i && w.desk.flagged i) fun _ =>
        some .operationCanceled := by
  induction l generalizing w with
  | nil => exact ⟨ht, (Desk.settle_eq_self _ (fun _ => rfl) _).symm⟩
  | cons id rest ih =>
    obtain ⟨hnot, hrest⟩ := nodup_cons.mp hl
    have hid := hactive id mem_cons_self
    simp only [World.scanWaits, interfere_of_sched ht.sched, (ht.armed id hid).interruptible,
      Bool.true_and, Bool.false_or]
    rw [← Desk.settle_flagged_cons]
    cases hcanceled : (w.op id).canceled with
    | false =>
      rw [Desk.settle_eq_self w.desk fun i => ?_]
      · exact ih ht hrest fun i hi => hactive i (mem_cons_of_mem id hi)
      by_cases hi : i = id
      · simp [World.desk, Desk.ofOps, hi, hcanceled]
      · simp [hi]
    | true =>
      have hfinishes := finishes_fail_notify hid .operationCanceled
      have hdesk : ((w.fail id .operationCanceled).notify id).desk =
          w.desk.settle (fun i => i == id && w.desk.flagged i)
            fun _ => some .operationCanceled := by
        refine Eq.trans (b := w.desk.finish id (some .operationCanceled)) hfinishes.desk ?_
        refine congrArg (w.desk.settle · _) (funext fun i => ?_)
        by_cases hi : i = id
        · simp [World.desk, Desk.ofOps, hi, hcanceled, hid]
        · simp [hi]
      rw [← hdesk]
      refine ih (hfinishes.tame ht) hrest fun i hi => ?_
      rw [hfinishes.op i fun h => hnot (h ▸ hi)]
      exact hactive i (mem_cons_of_mem id hi)

/-- Without timers, the part of `expire()` that runs when `cancel_` was set looks at the waits. -/
theorem Tame.cancelPending (ht : Tame b c w) :
    cancelPending H w = World.scanWaits false w w.loop.waits := by
  have hmake : H.make w.due [] = [] := perm_nil.mp (H.make_perm w.due [])
  have hset : w.setTimers [] = w := by
    rw [← ht.timers]
    rfl
  simp only [World.cancelPending, interfere_of_sched ht.sched, ht.stopping, ht.timers, scanTimers,
    hmake, hset]

/-- `loop::expire`. -/
theorem Tame.expire (ht : Tame b b w) (now : ℤ) :
    Tame false false (w.expire H now) ∧ (w.expire H now).desk = w.desk.expire := by
  have hdue : ∀ {b c : Bool} {w' : World α}, Tame b c w' →
      expireDue H now w'.loop.timers.length w' = w' := by
    intro b c w' h
    rw [h.timers]
    rfl
  have hexpire : w.expire H now =
      let w' := if w.loop.cancel then
        World.cancelPending H { w with loop := { w.loop with cancel := false } } else w
      expireDue H now w'.loop.timers.length w' := by
    simp only [World.expire, interfere_of_sched ht.sched]
  rw [hexpire, ht.cancel]
  cases b with
  | false =>
    have hflag : ∀ i, w.desk.flagged i = false := by
      intro i
      cases h : w.desk.flagged i with
      | false => rfl
      | true =>
        obtain ⟨hactive, hcanceled⟩ := Bool.and_eq_true_iff.mp h
        exact absurd ((ht.armed i hactive).raised hcanceled) Bool.false_ne_true
    rw [if_neg Bool.false_ne_true]
    change Tame false false (expireDue H now w.loop.timers.length w) ∧ _
    rw [hdue ht]
    exact ⟨ht, (Desk.settle_eq_self _ hflag _).symm⟩
  | true =>
    obtain ⟨w₁, hw₁, ht₁, hdesk₁, hwaits⟩ : ∃ w₁,
        w₁ = { w with loop := { w.loop with cancel := false } } ∧ Tame true false w₁ ∧
          w₁.desk = w.desk ∧ w₁.loop.waits = w.loop.waits :=
      ⟨{ w with loop := { w.loop with cancel := false } }, rfl, { ht with cancel := rfl }, rfl, rfl⟩
    obtain ⟨ht₂, hdesk₂⟩ := ht₁.scanWaits ht₁.waits_nodup fun i hi => (ht₁.waits i).mp hi
    have hall : (fun i => w₁.loop.waits.contains i && w₁.desk.flagged i) = w.desk.flagged := by
      rw [hdesk₁, hwaits]
      funext i
      cases h : w.desk.flagged i with
      | false => exact Bool.and_false _
      | true =>
        have hmem : i ∈ w.loop.waits := (ht.waits i).mpr (Bool.and_eq_true_iff.mp h).1
        simp [hmem]
    rw [hall, hdesk₁] at hdesk₂
    rw [← hw₁, if_pos rfl, ht₁.cancelPending]
    dsimp only
    rw [hdue ht₂]
    refine ⟨{ ht₂ with armed := fun i hi => { ht₂.armed i hi with raised := fun hcanceled => ?_ } },
      hdesk₂⟩
    have hflag : (World.scanWaits false w₁ w₁.loop.waits).desk.flagged i = false := by
      rw [hdesk₂]
      exact Bool.and_not_self _
    exact hflag.symm.trans (Bool.and_eq_true_iff.mpr ⟨hi, hcanceled⟩)

/-! ### Stop requests -/

/-- The callbacks of the operations in `l` have run. -/
def Struck (t : ℕ) (l : List ℕ) (w w' : World α) : Prop :=
  ∃ cancel event, w' = { w with
      op := Desk.strike t l w.op
      loop := { w.loop with cancel, event } } ∧
    (cancel = true ∨ cancel = w.loop.cancel ∧ ∀ i ∈ l, ¬(w.op i).Listens t)

theorem struck_strike {t : ℕ} (hreq : w.requested t = true) (id : ℕ) :
    Struck t [id] w (w.strike t id) := by
  unfold strike
  split_ifs with h
  · have hlistens : (w.op id).Listens t := by simpa [Op.Listens] using h
    have hfire : w.async (.fire id) = w.setOp id fun o => { o with canceled := true } := by
      have hstop : w.stopRequested id = true := by
        unfold Owner.stopRequested
        rw [hlistens.2]
        exact hreq
      simp only [async, hlistens.1, hstop]
      rfl
    refine ⟨true, w.loop.event + 1, ?_, .inl rfl⟩
    rw [hfire, Desk.strike_singleton hlistens]
    rfl
  · have hnot : ¬(w.op id).Listens t := by simpa [Op.Listens] using h
    refine ⟨_, w.loop.event, ?_, .inr ⟨rfl, fun i hi => mem_singleton.mp hi ▸ hnot⟩⟩
    rw [Desk.strike_of_not hnot]

theorem Struck.trans {t : ℕ} {l l' : List ℕ} (h : Struck t l w w₁) (h' : Struck t l' w₁ w') :
    Struck t (l ++ l') w w' := by
  obtain ⟨cancel, event, rfl, hcancel⟩ := h
  obtain ⟨cancel', event', rfl, hcancel'⟩ := h'
  exact ⟨cancel', event', by rw [Desk.strike_strike], Desk.announced_trans hcancel hcancel'⟩

theorem struck_foldl {t : ℕ} (hreq : w.requested t = true) (l : List ℕ) :
    Struck t l w (l.foldl (strike · t) w) := by
  induction l generalizing w with
  | nil => exact ⟨_, _, by rw [Desk.strike_nil]; rfl, .inr ⟨rfl, nofun⟩⟩
  | cons id rest ih =>
    have hstrike := struck_strike hreq id
    refine hstrike.trans (ih ?_)
    obtain ⟨_, _, heq, -⟩ := hstrike
    rw [heq]
    exact hreq

/-- The callbacks of the armed waiters raise their flags. -/
theorem Struck.tame {t : ℕ} (h : Struck t (List.range w.next) w w') (ht : Tame b b w) :
    Tame w'.loop.cancel w'.loop.cancel w' := by
  obtain ⟨cancel, event, rfl, hcancel⟩ := h
  have hop := Desk.exists_strike_eq t (List.range w.next) w.op
  have hactive : ∀ i, (Desk.strike t (List.range w.next) w.op i).active = (w.op i).active :=
    fun i => by
      obtain ⟨_, hi⟩ := hop i
      rw [hi]
  rw [ht.cancel] at hcancel
  exact
  { ht with
    cancel := rfl
    waits := fun i => (ht.waits i).trans (by rw [← hactive])
    home := fun i hi => by
      obtain ⟨_, heq⟩ := hop i
      exact ht.home i (congrArg Op.linked heq ▸ hi)
    linked := fun i hi => ht.linked i (hactive i ▸ hi)
    armed := fun i hi => Desk.armed_strike (ht.armed i (hactive i ▸ hi)) hcancel }

theorem Struck.desk {t : ℕ} (h : Struck t (List.range w.next) w w') (ht : Tame b c w) :
    w'.desk = { w.desk with
      flagged := fun i =>
        w.desk.flagged i || (w.desk.waiting.contains i && w.desk.token i == some t) } := by
  obtain ⟨cancel, event, rfl, -⟩ := h
  have hwaiting : (w.channel 0).waiters.filter
      (fun i => (Desk.strike t (List.range w.next) w.op i).active) = w.desk.waiting :=
    filter_congr fun i _ => by
      obtain ⟨_, hi⟩ := Desk.exists_strike_eq t (List.range w.next) w.op i
      rw [hi]
  rw [World.desk]
  dsimp only
  rw [hwaiting]
  refine Desk.ofOps_strike (fun _ _ => rfl) fun i hi => ⟨⟨ht.lt hi, ?_⟩, ht.armed i hi⟩
  exact mem_filter.mpr ⟨ht.linked i hi, hi⟩

/-- `request_stop`. -/
theorem Tame.requestStop (ht : Tame b b w) (t : ℕ) :
    (∃ b', Tame b' b' (w.requestStop t)) ∧ (w.requestStop t).desk = w.desk.requestStop t := by
  unfold World.requestStop Desk.requestStop
  have hreq : w.desk.requested t = w.requested t := rfl
  rw [hreq]
  split_ifs with h
  · exact ⟨⟨b, ht⟩, rfl⟩
  · obtain ⟨w₁, hw₁, hreq₁, ht₁, hdesk₁, hnext⟩ : ∃ w₁, w₁ = w.async (.request t) ∧
        w₁.requested t = true ∧ Tame b b w₁ ∧
        w₁.desk = { w.desk with requested := Function.update w.requested t true } ∧
        w₁.next = w.next :=
      ⟨_, rfl, update_self .., { ht with }, rfl, rfl⟩
    have hstruck := struck_foldl hreq₁ (List.range w₁.next)
    rw [← hw₁, ← hnext]
    refine ⟨⟨_, hstruck.tame ht₁⟩, ?_⟩
    rw [hstruck.desk ht₁, hdesk₁]
    rfl

/-! ### Runs -/

/-- What else the owner thread does: it resumes coroutines, which destroy their operations. -/
inductive Chore where
  | resume
  | destroy (id : ℕ)
  deriving DecidableEq, Repr

/-- One chore. -/
def chore (w : World α) : Chore → World α
  | .resume => w.resume
  | .destroy id => w.destroy id

/-- One call on the channel `0`. -/
def perform (H : HeapRange ℕ ℤ) (w : World α) : Desk.Item α → World α
  | .send value token => w.send 0 value token
  | .recv token => w.recv 0 token
  | .trySend value => w.trySend 0 value
  | .tryRecv => w.tryRecv 0
  | .close => w.close 0
  | .requestStop token => w.requestStop token
  | .expire => w.expire H 0

/-- Chores do not touch the desk. -/
theorem Tame.chore (ht : Tame b c w) (a : Chore) :
    Tame b c (w.chore a) ∧ (w.chore a).desk = w.desk := by
  cases a with
  | resume =>
    change Tame b c w.resume ∧ w.resume.desk = w.desk
    unfold resume
    split
    · exact ⟨ht, rfl⟩
    · exact ⟨{ ht with }, rfl⟩
  | destroy id =>
    change Tame b c (w.destroy id) ∧ (w.destroy id).desk = w.desk
    unfold destroy
    split_ifs with h
    · rw [ht.home id h.2.2]
      exact ⟨(ht.finishes_unlink h.1).tame ht, ht.desk_unlink h.1⟩
    · exact ⟨ht, rfl⟩

/-- **Every call on the channel is the call on its desk.** -/
theorem Tame.perform (ht : Tame b b w) (item : Desk.Item α) :
    (∃ b', Tame b' b' (w.perform H item)) ∧ (w.perform H item).desk = w.desk.perform item := by
  cases item with
  | send value token => exact (ht.send value token).imp_left fun h => ⟨b, h⟩
  | recv token => exact (ht.recv token).imp_left fun h => ⟨b, h⟩
  | trySend value => exact (ht.trySend value).imp_left fun h => ⟨b, h⟩
  | tryRecv => exact ht.tryRecv.imp_left fun h => ⟨b, h⟩
  | close => exact ht.close.imp_left fun h => ⟨b, h⟩
  | requestStop token => exact ht.requestStop token
  | expire => exact (ht.expire 0).imp_left fun h => ⟨false, h⟩

theorem tame_init (capacity : ℕ → ℕ) : Tame false false (init capacity : World α) where
  sched := rfl
  stopping := rfl
  timers := rfl
  cancel := rfl
  nodup := nodup_nil
  linked_lt := nofun
  waits_nodup := nodup_nil
  waits _ := ⟨nofun, nofun⟩
  home _ h := Bool.noConfusion h
  value _ h := Bool.noConfusion h
  linked _ h := Bool.noConfusion h
  armed _ h := Bool.noConfusion h

theorem desk_init (capacity : ℕ → ℕ) : (init capacity : World α).desk = Desk.init (capacity 0) := by
  simp [desk, Desk.ofOps, init, Desk.init]

end Snowy.World
