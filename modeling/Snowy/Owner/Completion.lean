import Snowy.Owner.Sound

/-!
# Exactly-once completion on the owner thread

A suspended operation can be completed from six places: its deadline, the cancellation scan,
`event::set`, the hand-off of a channel, the pruning of a channel and `channel::close`. It may stay
linked in an event or a channel afterwards. This file shows for each function that it keeps the
invariant `Snowy.World.Sound`, and so that each suspended operation is pushed onto `ready_` once.

## Main results

* `Snowy.World.Sound.expire` : what `expire()` completes.
* `Snowy.World.Regular.run` : the invariant between calls holds in every run.
* `Snowy.World.Sound.count_lists` : a pending operation is in exactly one list.
-/

namespace Snowy.World

open Function List

variable {α : Type*} {H : HeapRange ℕ ℤ} {w₀ w w' : World α} {id e c : ℕ} {T S : List ℕ}
  {t : Set ℕ}

/-- What `timer::await_suspend` does after its registration: the timer at the end of `timers_` is
sifted into the heap, or removed again. -/
def fileTimer (H : HeapRange ℕ ℤ) (id : ℕ) : World α × Armed → World α
  | (w, .yes) => w.pushTimer H id
  | (w, _) => w.popTimer

namespace Sound

theorem due_eq (hs : Sound t T S w₀ w) (h : id < w₀.next) : w.due id = w₀.due id :=
  (hs.same id h).due

/-- An operation that is active was active before, or is suspended since. -/
theorem active_of_active (hs : Sound t T S w₀ w) (hid : id ∈ w₀.suspended)
    (h : (w.op id).active = true) : (w₀.op id).active = true := by
  by_contra hne
  have := (hs.kept id hid (by simpa using hne)).1
  exact Bool.false_ne_true (this.symm.trans h)

/-! ### Timers -/

theorem popTimer (hs : Sound t T (T ++ [id]) w₀ w) : Sound t T T w₀ w.popTimer := by
  have hdrop : w.loop.timers.dropLast = T := by rw [hs.store, dropLast_concat]
  rw [World.popTimer, hdrop]
  exact hs.setTimers T

/-- An armed timer is put into the heap. -/
theorem pushTimer (hs : Sound t T (T ++ [id]) w₀ w) (hfresh : id ∉ w.suspended) (hlt : id < w.next)
    (hcls : (w.op id).cls = .timer) (herror : (w.op id).error = none) :
    Sound t (H.push w.due (T ++ [id])) (H.push w.due (T ++ [id])) w₀
      ((w.activate id).pushTimer H id) := by
  have hsuspends : Suspends t id [id] [] w ((w.activate id).pushTimer H id) :=
    { fresh := hfresh
      lt_next := hlt
      error := herror
      home := fun c h => by cases hcls.symm.trans (hs.homed id c h)
      list := .inr ⟨rfl, rfl, hcls⟩
      op := op_activate w id }
  have hs' := hs.suspend hsuspends
  have hstore : ((w.activate id).pushTimer H id).loop.timers = H.push w.due (T ++ [id]) := by
    rw [← hs.store, ← due_activate w id]
    rfl
  rw [hstore] at hs'
  exact hs'.perm (perm_append_comm.trans (H.push_perm _ _).symm)

/-- `timer::await_suspend` adds the timer to the heap or leaves the heap as it was. -/
theorem sleep (hs : Sound t T T w₀ w) (hheap : IsHeap w.due T) (due : ℤ) (token : Option ℕ)
    (fault : Bool) : ∃ T', Sound t T' T' w₀ (w.sleep H due token fault) ∧
      IsHeap (w.sleep H due token fault).due T' ∧ T ⊆ T' ∧
      ∀ i ∈ T', i ∈ T ∨ (w.sleep H due token fault).due i = due := by
  obtain rfl := hs.store
  let w₁ := w.alloc { cls := .timer, token, due } {}
  let w₂ := w₁.setTimers (w.loop.timers ++ [w.next])
  obtain ⟨w₃, hw₃, -, harm⟩ := arm_cases (t := t) w₂ w.next fault
  have hop : w₂.op w.next = { cls := .timer, token, due } := by
    simp only [w₂, w₁, World.setTimers, op_alloc, if_pos]
  have hs₁ : Sound t w.loop.timers w.loop.timers w w₁ := hs.rebase.alloc rfl fun _ h => nomatch h
  have hs₃ : Sound t w.loop.timers (w.loop.timers ++ [w.next]) w w₃ := (hs₁.setTimers _).quiet hw₃
  have hid : w.next ∉ w₃.suspended := hw₃.suspended ▸ hs.not_mem_next
  have hhome : (w₃.node w.next).home = .timers := by
    rw [hw₃.home]
    simp only [w₂, w₁, World.setTimers, node_alloc, if_pos]
  have hsleep : w.sleep H due token fault = fileTimer H w.next (w₂.arm w.next fault) := rfl
  -- the keys of the old timers are those of `w`
  have hkeys : ∀ {T S : List ℕ} {w' : World α}, Sound t T S w w' → IsHeap w'.due w.loop.timers :=
    fun hs' => hheap.congr fun i hi => hs'.due_eq (hs.lt_next (hs.timer i hi).2)
  rw [hsleep]
  rcases harm with harm | ⟨-, harm⟩ | harm
  · rw [harm]
    have hs' := (hs₃.fail hid (fun _ h => by cases hhome.symm.trans h) .operationCanceled).popTimer
    exact ⟨_, hs.trans hs', hkeys hs', List.Subset.refl _, fun _ => .inl⟩
  · rw [harm]
    exact ⟨_, hs.trans hs₃.popTimer, hkeys hs₃.popTimer, List.Subset.refl _, fun _ => .inl⟩
  · rw [harm]
    have hs' := hs₃.pushTimer (H := H) hid (hw₃.next ▸ Nat.lt_succ_self _)
      (by rw [(hw₃.op w.next).cls, hop]) (by rw [(hw₃.op w.next).error, hop])
    refine ⟨_, hs.trans hs', ?_, fun i hi => ?_, fun i hi => ?_⟩
    · have hheap' := H.push_isHeap w₃.due _ w.next (hkeys hs₃)
      rwa [← due_activate w₃ w.next] at hheap' ⊢
    · exact (H.push_perm _ _).mem_iff.mpr (mem_append_left _ hi)
    · refine (mem_append.mp ((H.push_perm _ _).mem_iff.mp hi)).imp_right fun h => ?_
      rw [mem_singleton.mp h]
      change (w₃.activate w.next).due w.next = due
      rw [due_activate]
      exact (hw₃.op w.next).due.trans (congrArg Op.due hop)

/-- The scan of the timers completes those that it does not keep. -/
theorem scanTimers {all : Bool} (hs : Sound t T S w₀ w) {l : List ℕ} (kept : List ℕ)
    (hT : T.Perm (kept ++ l)) (hall : all = true → w.loop.stopping = true) :
    Sound t (kept ++ (World.scanTimers all w l).2) S w₀ (World.scanTimers all w l).1 := by
  induction l generalizing w kept T with
  | nil => exact hs.perm hT
  | cons id rest ih =>
    have hi := Quiet.interfere (t := t) w
    have hs' := hs.quiet hi
    have hall' : all = true → w.interfere.loop.stopping = true := hi.stopping ∘ hall
    have hT' : T.Perm (id :: (kept ++ rest)) := hT.trans perm_middle
    unfold World.scanTimers
    dsimp only
    split_ifs with hflag
    · obtain ⟨hcls, hactive⟩ := hs'.timer id (hT'.mem_iff.mpr mem_cons_self)
      have hflag : (w.interfere.op id).canceled = true ∨ w.interfere.loop.stopping = true := by
        rcases Bool.or_eq_true_iff.mp hflag with h | h
        · exact .inr (hall' h)
        · exact .inl h
      refine ih (hs'.complete (.fail_finish hactive hflag (hs'.not_mem_waits hcls))
        (hs'.fails_of_timer hcls)) kept ?_ hall'
      simpa using hT'.erase id
    · have hrest := ih hs' (kept ++ [id]) (by simpa using hT) hall'
      rwa [append_assoc] at hrest

end Sound

/-- The scan keeps no timer that had been canceled before it, and none when the loop is
stopped. -/
theorem not_canceled_of_mem_scanTimers {all : Bool} {l : List ℕ} (h : id ∈ (scanTimers all w l).2) :
    all = false ∧ (w.op id).canceled = false := by
  induction l generalizing w with
  | nil => exact absurd h not_mem_nil
  | cons i rest ih =>
    have hmono : (w.interfere.op id).canceled = false → (w.op id).canceled = false := fun h => by
      by_contra hc
      rw [((Quiet.interfere (t := ∅) w).op id).canceled (by simpa using hc)] at h
      cases h
    unfold scanTimers at h
    dsimp only at h
    split_ifs at h with hflag
    · refine (ih h).imp_right fun hcanceled => hmono ?_
      simp only [op_finish, op_fail] at hcanceled
      split_ifs at hcanceled with hi
      · exact hi ▸ hcanceled
      · exact hcanceled
    · rcases mem_cons.mp h with rfl | h
      · have hflag : all = false ∧ (w.interfere.op id).canceled = false := by simpa using hflag
        exact hflag.imp_right hmono
      · exact (ih h).imp_right hmono

namespace Sound

/-- The scan of the waits completes the interruptible ones that had been canceled before it. -/
theorem scanWaits (hs : Sound t T S w₀ w) (all : Bool) {l : List ℕ} (hl : l ⊆ w.loop.waits)
    (hnodup : l.Nodup) (hall : all = true → w.loop.stopping = true) :
    Sound t T S w₀ (World.scanWaits all w l) ∧ ∀ id ∈ l, (w.op id).interruptible = true →
      all = true ∨ (w.op id).canceled = true →
        ((World.scanWaits all w l).op id).active = false := by
  induction l generalizing w w₀ with
  | nil => exact ⟨hs, fun id hid => absurd hid not_mem_nil⟩
  | cons id rest ih =>
    obtain ⟨hid, hnodup⟩ := nodup_cons.mp hnodup
    have hi := Quiet.interfere (t := t) w
    have hs' := hs.rebase.quiet hi
    have hall' : all = true → w.interfere.loop.stopping = true := hi.stopping ∘ hall
    have hl' : id :: rest ⊆ w.interfere.loop.waits := hi.waits ▸ hl
    have hlt : ∀ i ∈ id :: rest, i < w.next := fun i hi => hs.lt_next (hs.waiting i (hl hi)).2
    unfold World.scanWaits
    dsimp only
    split_ifs with hflag
    · obtain ⟨hcls, hactive⟩ := hs'.waiting id (hl' mem_cons_self)
      have hflag' : (w.interfere.op id).canceled = true ∨ w.interfere.loop.stopping = true := by
        rcases Bool.or_eq_true_iff.mp (Bool.and_eq_true_iff.mp hflag).2 with h | h
        · exact .inr (hall' h)
        · exact .inl h
      have hc : Completes id w.interfere ((w.interfere.fail id .operationCanceled).notify id) :=
        .fail_notify hactive fun _ => hflag'
      have hs'' := hs'.complete_wait hcls hc (.of_error (by simp [op_notify, op_fail, hactive]))
      have hrest : rest ⊆ ((w.interfere.fail id .operationCanceled).notify id).loop.waits :=
        fun i hi => by
          rw [hc.waits]
          have hne : i ≠ id := fun h => hid (h ▸ hi)
          exact (mem_erase_of_ne hne).mpr (hl' (mem_cons_of_mem _ hi))
      obtain ⟨hsound, hdone⟩ := ih hs''.rebase hrest hnodup (hc.stopping ▸ hall')
      refine ⟨hs.trans (hs''.trans hsound), fun i hi hint hcan => ?_⟩
      have hsame := hs''.same i (hlt i hi)
      rcases mem_cons.mp hi with rfl | hi
      · exact (hsound.kept i (hs''.suspended_subset (hs.pending i (hs.waiting i (hl hi)).2).2.1)
          hc.inactive).1
      · exact hdone i hi (hsame.interruptible ▸ hint) (hcan.imp_right hsame.canceled)
    · obtain ⟨hsound, hdone⟩ := ih hs'.rebase
        (List.Subset.trans (subset_cons_self id rest) hl') hnodup hall'
      refine ⟨hs.trans (hs'.trans hsound), fun i hi hint hcan => ?_⟩
      have hsame := hs'.same i (hlt i hi)
      have hint' := hsame.interruptible ▸ hint
      have hcan' := hcan.imp_right hsame.canceled
      rcases mem_cons.mp hi with rfl | hi
      · exact absurd (by simpa [hint'] using hcan') hflag
      · exact hdone i hi hint' hcan'

/-- The end of `expire()` completes every timer that is due. -/
theorem expireDue (now : ℤ) {fuel : ℕ} (hs : Sound t T T w₀ w) (hheap : IsHeap w.due T)
    (hfuel : T.length ≤ fuel) :
    ∃ T', Sound t T' T' w₀ (World.expireDue H now fuel w) ∧
      IsHeap (World.expireDue H now fuel w).due T' ∧
      ∀ id ∈ T', now < (World.expireDue H now fuel w).due id := by
  induction fuel generalizing w T with
  | zero =>
    obtain rfl := length_eq_zero_iff.mp (Nat.le_zero.mp hfuel)
    exact ⟨[], hs, .nil, fun id hid => absurd hid not_mem_nil⟩
  | succ fuel ih =>
    unfold World.expireDue
    cases T with
    | nil =>
      simp only [hs.store]
      exact ⟨[], hs, .nil, fun id hid => absurd hid not_mem_nil⟩
    | cons id rest =>
      simp only [hs.store]
      split_ifs with hdue
      · obtain ⟨hperm, hheap'⟩ := H.pop_dropLast hheap
        obtain ⟨hcls, hactive⟩ := hs.timer id mem_cons_self
        have hs₁ := hs.setTimers (H.pop w.due (id :: rest)).dropLast
        have hs₂ := hs₁.complete (.finish hactive (hs.pending id hactive).2.2
          (hs.not_mem_waits hcls)) (hs₁.fails_of_timer hcls)
        rw [erase_cons_head] at hs₂
        refine ih (hs₂.perm hperm.symm) (hheap'.congr fun i _ => ?_) ?_
        · simp only [due, op_finish]
          split_ifs with hi
          · exact hi ▸ rfl
          · rfl
        · rw [hperm.length_eq]
          exact Nat.le_of_succ_le_succ hfuel
      · exact ⟨id :: rest, hs, hheap, fun i hi =>
          lt_of_lt_of_le (not_le.mp hdue) (hheap.front_le hi)⟩

/-- What `expire()` does when `cancel_` was set: it completes every timer that had been canceled,
every interruptible wait that had been canceled, and all of them when the loop is stopped. -/
theorem cancelPending (hs : Sound t T T w₀ w) :
    ∃ T', Sound t T' T' w₀ (w.cancelPending H) ∧ IsHeap (w.cancelPending H).due T' ∧
      ∀ id, id ∈ T ∨ id ∈ w.loop.waits ∧ (w.op id).interruptible = true →
        (w.op id).canceled = true ∨ w.loop.stopping = true →
          ((w.cancelPending H).op id).active = false := by
  have hi := Quiet.interfere (t := t) w
  have hs₁ := hs.rebase.quiet hi
  -- after the scan of the timers
  let all := w.interfere.loop.stopping
  let kept := (World.scanTimers all w.interfere w.interfere.loop.timers).2
  let w₂ := (World.scanTimers all w.interfere w.interfere.loop.timers).1
  have hs₂ : Sound t kept T w.interfere w₂ :=
    hs₁.rebase.scanTimers [] (hs₁.store ▸ .refl _) fun h => h
  -- after the heap is made
  let w₃ := w₂.setTimers (H.make w₂.due kept)
  have hs₃ : Sound t (H.make w₂.due kept) (H.make w₂.due kept) w.interfere w₃ :=
    (hs₂.setTimers _).perm (H.make_perm _ _).symm
  -- after the scan of the waits
  obtain ⟨hs₄, hdone⟩ :=
    hs₃.rebase.scanWaits all (List.Subset.refl _) hs₃.waits_nodup hs₃.stop
  have heq : w.cancelPending H = World.scanWaits all w₃ w₃.loop.waits := rfl
  rw [heq]
  refine ⟨_, hs.trans (hs₁.trans (hs₃.trans hs₄)), ?_, fun id hid hflag => ?_⟩
  · exact (H.make_isHeap w₂.due kept).congr fun i hi =>
      hs₄.due_eq (hs₃.lt_next (hs₃.timer i hi).2)
  · by_contra hne
    have hactive : (w.op id).active = true :=
      hid.elim (fun h => (hs.timer id h).2) fun h => (hs.waiting id h.1).2
    have hsame := hs₃.same id (hi.next ▸ hs.lt_next hactive)
    have hflag : all = true ∨ (w.interfere.op id).canceled = true :=
      hflag.symm.imp hi.stopping (hi.op id).canceled
    have hactive₃ : (w₃.op id).active = true := by
      refine hs₄.active_of_active (hs₃.suspended_subset ?_) (by simpa using hne)
      exact hs₁.suspended_subset (hs.pending id hactive).2.1
    rcases (hs₃.pending id hactive₃).1 with hmem | hmem
    · obtain ⟨hall, hcanceled⟩ := not_canceled_of_mem_scanTimers (H.mem_make.mp hmem)
      simp [hall, hcanceled] at hflag
    · refine hne (hdone id hmem ?_ (hflag.imp_right hsame.canceled))
      rw [hsame.interruptible, (hi.op id).interruptible]
      refine hid.elim (fun h => ?_) And.right
      exact absurd hmem (hs₃.not_mem_waits (hsame.cls.trans (hs₁.timer id h).1))

/-- `expire()` completes every timer that is due, and when `cancel_` is set, everything that has
been canceled. -/
theorem expire (hs : Sound t T T w₀ w) (hheap : IsHeap w.due T) (now : ℤ) :
    ∃ T', Sound t T' T' w₀ (w.expire H now) ∧ IsHeap (w.expire H now).due T' ∧
      (∀ id ∈ T, w.due id ≤ now → ((w.expire H now).op id).active = false) ∧
      ∀ id, w.loop.cancel = true →
        id ∈ T ∨ id ∈ w.loop.waits ∧ (w.op id).interruptible = true →
        (w.op id).canceled = true ∨ w.loop.stopping = true →
          ((w.expire H now).op id).active = false := by
  have hi := Quiet.interfere (t := t) w
  have hs₁ := hs.rebase.quiet hi
  have hheap₁ : IsHeap w.interfere.due T := hheap.congr fun i hi' =>
    hs₁.due_eq (hs.lt_next (hs.timer i hi').2)
  -- the state in which the clock is read
  obtain ⟨w₂, hw₂, T₂, hs₂, hheap₂, hcancel⟩ : ∃ w₂ : World α,
      w.expire H now = World.expireDue H now w₂.loop.timers.length w₂ ∧
      ∃ T₂, Sound t T₂ T₂ w w₂ ∧ IsHeap w₂.due T₂ ∧ ∀ id, w.loop.cancel = true →
        id ∈ T ∨ id ∈ w.loop.waits ∧ (w.op id).interruptible = true →
        (w.op id).canceled = true ∨ w.loop.stopping = true → (w₂.op id).active = false := by
    unfold World.expire
    dsimp only
    split_ifs with hflag
    · have hs' : Sound t T T w { w.interfere with
          loop := { w.interfere.loop with cancel := false } } :=
        { hs₁ with prunes := fun c hc => (hs₁.prunes c hc).of_eq rfl rfl rfl rfl }
      obtain ⟨T₂, hs₂, hheap₂, hdone⟩ := hs'.cancelPending (H := H)
      refine ⟨_, rfl, T₂, hs₂, hheap₂, fun id _ hid hcan => hdone id ?_ ?_⟩
      · exact hid.imp_right fun h =>
          ⟨hi.waits ▸ h.1, (hi.op id).interruptible ▸ h.2⟩
      · exact hcan.imp (hi.op id).canceled hi.stopping
    · exact ⟨_, rfl, T, hs₁, hheap₁, fun id h => absurd (hi.cancel h) hflag⟩
  obtain ⟨T', hs', hheap', hdue⟩ :=
    hs₂.rebase.expireDue (H := H) now hheap₂ (Nat.le_of_eq (congrArg _ hs₂.store.symm))
  rw [hw₂]
  refine ⟨T', hs.trans (hs₂.trans hs'), hheap', fun id hid hle => ?_, fun id hset hid hcan => ?_⟩
  · by_contra hne
    have hactive := (hs.timer id hid).2
    have hsame := (hs₂.trans hs').same id (hs.lt_next hactive)
    have hmem := (hs'.pending id (by simpa using hne)).1.resolve_right
      (hs'.not_mem_waits (hsame.cls.trans (hs.timer id hid).1))
    exact absurd (hdue id hmem) (not_lt.mpr (hsame.due.trans_le hle))
  · by_contra hne
    have hactive : (w.op id).active = true :=
      hid.elim (fun h => (hs.timer id h).2) fun h => (hs.waiting id h.1).2
    have hactive₂ := hs'.active_of_active
      (hs₂.suspended_subset (hs.pending id hactive).2.1) (by simpa using hne)
    exact Bool.false_ne_true ((hcancel id hset hid hcan).symm.trans hactive₂)

/-! ### Events -/

/-- A new wait is parked or refused. -/
theorem park (hs : Sound t T S w₀ w) (hf : Fresh t id w) :
    Sound t T S w₀ (w.park id).1 ∧ id < (w.park id).1.next ∧
      ((w.park id).1.op id).cls = .wait ∧ ((w.park id).1.node id).home = (w.node id).home := by
  obtain ⟨w', hw', -, h | h⟩ := park_cases (t := t) w id
  all_goals
    have hs' := hs.quiet hw'
    have hf' := hf.moves (Moves.refl.quiet hw')
    rw [h]
  · refine ⟨hs'.fail hf'.not_mem hf'.home _, hf'.lt_next, ?_, hw'.home id⟩
    simp [op_fail, hf'.cls]
  · have hsuspends : Suspends t id [] [id] w' (w'.enlist id) :=
      { fresh := hf'.not_mem
        lt_next := hf'.lt_next
        error := hf'.error
        home := hf'.home
        list := .inl ⟨rfl, rfl, hf'.cls⟩
        op := op_enlist w' id }
    refine ⟨hs'.store ▸ hs'.suspend hsuspends, hf'.lt_next, ?_, hw'.home id⟩
    simp [op_enlist, hf'.cls]

/-- A new wait of any kind. -/
theorem begin (hs : Sound t T S w₀ w) (op : Op) (node : Node α)
    (hhome : ∀ c, node.home = .channel c → c ∈ t) (hcls : op.cls = .wait)
    (hactive : op.active = false) (herror : op.error = none) :
    Sound t T S w₀ (w.alloc op node) ∧ Fresh t w.next (w.alloc op node) :=
  ⟨hs.alloc hactive fun c h => ⟨hcls, hhome c h⟩,
    { not_mem := hs.not_mem_next
      lt_next := Nat.lt_succ_self _
      cls := by simp [op_alloc, hcls]
      inactive := by simp [op_alloc, hactive]
      error := by simp [op_alloc, herror]
      home := by simpa [node_alloc] using hhome }⟩

theorem wait (hs : Sound t T S w₀ w) (e : ℕ) (token : Option ℕ) (interruptible : Bool) :
    Sound t T S w₀ (w.wait e token interruptible) := by
  obtain ⟨hs₁, hf⟩ := hs.begin { cls := .wait, token, interruptible } { home := .event e }
    (fun _ h => nomatch h) rfl rfl rfl
  obtain ⟨hs', hlt, hcls, hhome⟩ := hs₁.park hf
  rw [node_alloc, if_pos rfl] at hhome
  unfold World.wait
  dsimp only
  split
  · rename_i heq
    rwa [heq] at hs'
  · rename_i w₁ heq
    rw [heq] at hs' hlt hcls hhome
    have hlink : Quiet t w₁ (w₁.linkEvent w.next e) := by
      refine (Quiet.setEvent w₁ e fun id hid => ?_).trans
        (.setOp _ _ fun o => { Op.Calm.refl o with })
      rcases mem_cons.mp hid with rfl | hid
      · exact .inr ⟨hlt, hcls, hhome⟩
      · exact .inl hid
    have hs'' := hs'.quiet hlink
    split_ifs
    · refine hs''.moves (hs''.moves_notify ((hlink.op w.next).cls.trans hcls) fun c _ h => ?_)
      cases (hlink.home w.next).symm.trans h ▸ hhome
    · exact hs''

theorem moves_foldl_notify (hs : Sound t T S w₀ w) {l : List ℕ}
    (hl : ∀ id ∈ l, (w.op id).cls = .wait ∧ (w.node id).home = .event e) :
    Moves t w (l.foldl World.notify w) := by
  induction l generalizing w with
  | nil => exact .refl
  | cons id rest ih =>
    obtain ⟨hcls, hhome⟩ := hl id mem_cons_self
    have hm := hs.moves_notify hcls fun c _ h => nomatch hhome.symm.trans h
    refine hm.trans (ih (hs.moves hm) fun i hi => ?_)
    obtain ⟨hcls, hhome⟩ := hl i (mem_cons_of_mem _ hi)
    exact ⟨(hm.same i).1.cls.trans hcls, (hm.same i).2.trans hhome⟩

theorem set (hs : Sound t T S w₀ w) (e : ℕ) : Sound t T S w₀ (w.set e) := by
  have hs' := hs.quiet (.setEvent w e (f := fun ev => { ev with set := true }) fun _ => .inl)
  exact hs'.moves (hs'.moves_foldl_notify fun id hid => (hs'.event e id hid).2)

end Sound

/-! ### Channels -/

/-- A dead waiter is completed with an error, unless it is completed already. -/
theorem moves_discard (hcls : (w.op id).cls = .wait) (c : ℕ)
    (hdead : (w.op id).active = true → (w.op id).canceled = true ∨ w.loop.stopping = true) :
    Moves t w (w.discard id c) := by
  unfold discard
  dsimp only
  split_ifs with hactive
  · have hdead' : ((w.unlink id c).op id).canceled = true ∨ w.loop.stopping = true := by
      rw [(calm_unlink w id c id).active] at hactive
      exact (hdead hactive).imp_left (calm_unlink w id c id).canceled
    refine Moves.refl.complete hcls (.of_error ?_)
      (.of_unlink (.fail_notify hactive fun _ => hdead') rfl)
    simp [op_notify, op_fail, hactive]
  · refine Moves.refl.quiet (.unlink w fun _ => ?_)
    simpa [(calm_unlink w id c id).active] using hactive

theorem channel_discard (w : World α) (id c : ℕ) :
    (w.discard id c).channel = (w.unlink id c).channel := by
  unfold discard
  dsimp only
  split_ifs <;> rfl

/-- `channel::take` completes the dead waiters that it passes, and returns the first live one if it
has the right direction. -/
theorem take_cases (sending : Bool) {l : List ℕ} (hw : (w.channel c).waiters = l)
    (hl : ∀ id ∈ l, (w.op id).cls = .wait) : ∃ w', Moves t w w' ∧
      (take c sending w l = (w', none) ∧
          (∀ id ∈ (w'.channel c).waiters.head?, (w'.node id).sending ≠ sending) ∨
        ∃ id rest, (w'.channel c).waiters = id :: rest ∧ (w'.node id).sending = sending ∧
          (w'.op id).active = true ∧ take c sending w l = (w'.unlink id c, some id)) := by
  induction l generalizing w with
  | nil => exact ⟨w, .refl, .inl ⟨rfl, by simp [hw]⟩⟩
  | cons id rest ih =>
    have hcls := hl id mem_cons_self
    obtain ⟨w₁, hw₁, hchannel, ⟨hlive, hactive⟩ | ⟨hlive, hdead⟩⟩ := live_cases (t := t) w id
    · rw [take_cons_live c rest hlive]
      rw [← hchannel] at hw
      refine ⟨w₁, Moves.refl.quiet hw₁, ?_⟩
      split_ifs with hsending
      · exact .inr ⟨id, rest, hw, hsending, hactive, rfl⟩
      · exact .inl ⟨rfl, by simpa [hw] using hsending⟩
    · rw [take_cons_dead c rest hlive]
      have hm : Moves t w (w₁.discard id c) :=
        (Moves.refl.quiet hw₁).trans (moves_discard ((hw₁.op id).cls.trans hcls) c hdead)
      have hrest : ((w₁.discard id c).channel c).waiters = rest := by
        rw [channel_discard, channel_unlink, if_pos rfl, hchannel, hw, erase_cons_head]
      obtain ⟨w', hm', h⟩ := ih hrest fun i hi =>
        (hm.same i).1.cls.trans (hl i (mem_cons_of_mem _ hi))
      exact ⟨w', hm.trans hm', h⟩

/-- `channel::push` hands the value to the first waiter if it is a live receiver. Otherwise it
buffers the value, unless the buffer is full. -/
theorem push_cases (hl : ∀ i ∈ (w.channel c).waiters, (w.op i).cls = .wait) (id : ℕ) (value : α) :
    ∃ w', Moves t w w' ∧
      ((∀ i ∈ (w'.channel c).waiters.head?, (w'.node i).sending ≠ false) ∧
          ((w'.channel c).ring.size = (w'.channel c).ring.capacity ∧
              w.push id c value = (w', false) ∨
            (w'.channel c).ring.size ≠ (w'.channel c).ring.capacity ∧
              w.push id c value = (w'.store id c value, true)) ∨
        ∃ r rest, (w'.channel c).waiters = r :: rest ∧ (w'.node r).sending = false ∧
          (w'.op r).active = true ∧
          w.push id c value = ((w'.unlink r c).give id c r value, true)) := by
  obtain ⟨w', hm, ⟨htake, hhead⟩ | ⟨r, rest, hws, hsending, hactive, htake⟩⟩ :=
    take_cases (t := t) false rfl hl
  · refine ⟨w', hm, .inl ⟨hhead, ?_⟩⟩
    unfold push
    rw [htake]
    dsimp only
    split_ifs with hsize
    · exact .inl ⟨hsize, rfl⟩
    · exact .inr ⟨hsize, rfl⟩
  · refine ⟨w', hm, .inr ⟨r, rest, hws, hsending, hactive, ?_⟩⟩
    unfold push
    rw [htake]

/-- The second half of `channel::pop` takes the value of the first waiter if it is a live
sender. -/
theorem popSender_cases (hl : ∀ i ∈ (w.channel c).waiters, (w.op i).cls = .wait)
    (value : Option α) : ∃ w', Moves t w w' ∧
      ((∀ i ∈ (w'.channel c).waiters.head?, (w'.node i).sending ≠ true) ∧
          w.popSender c value = (w', value) ∨
        ∃ s rest, (w'.channel c).waiters = s :: rest ∧ (w'.node s).sending = true ∧
          (w'.op s).active = true ∧
          ((w'.node s).value = none ∧ w.popSender c value = (w'.unlink s c, value) ∨
            ∃ sent, (w'.node s).value = some sent ∧ w.popSender c value =
              if value.isSome then ((w'.unlink s c).refill c s sent, value)
              else ((w'.unlink s c).rendezvous c s sent, some sent))) := by
  obtain ⟨w', hm, ⟨htake, hhead⟩ | ⟨s, rest, hws, hsending, hactive, htake⟩⟩ :=
    take_cases (t := t) true rfl hl
  · refine ⟨w', hm, .inl ⟨hhead, ?_⟩⟩
    unfold popSender
    rw [htake]
  · refine ⟨w', hm, .inr ⟨s, rest, hws, hsending, hactive, ?_⟩⟩
    have hnode : (w'.unlink s c).node s = w'.node s := rfl
    unfold popSender
    rw [htake]
    dsimp only
    rw [hnode]
    rcases (w'.node s).value with _ | sent
    · exact .inl ⟨rfl, rfl⟩
    · refine .inr ⟨sent, rfl, ?_⟩
      cases value <;> rfl

section Quiet

variable (w : World α) (id : ℕ) (value : α) (hc : c ∈ t)
include hc

theorem quiet_issue : Quiet t w (w.issue id c value) := .setChannel w c rfl hc

theorem quiet_accept : Quiet t w (w.accept id c value) := .setChannel w c rfl hc

theorem quiet_hand : Quiet t w (w.hand id c value) := .setChannel w c rfl hc

theorem quiet_arrive : Quiet t w (w.arrive id c) := .setChannel w c rfl hc

theorem quiet_serve : Quiet t w (w.serve id c) := .setChannel w c rfl hc

theorem quiet_fill : Quiet t w (w.fill c value) := .setChannel w c rfl hc

theorem quiet_dropFront : Quiet t w (w.dropFront c) := .setChannel w c rfl hc

theorem quiet_store : Quiet t w (w.store id c value) :=
  (quiet_issue w id value hc).trans ((quiet_accept _ id value hc).trans (quiet_fill _ value hc))

theorem quiet_popBuffered : Quiet t w (w.popBuffered c).1 := by
  unfold popBuffered
  dsimp only
  split_ifs
  · exact .refl w
  · exact quiet_dropFront w hc

end Quiet

theorem op_link (w : World α) (id c i : ℕ) :
    (w.link id c).op i = if i = id then { w.op id with linked := true } else w.op i := by
  change (w.setOp id fun o => { o with linked := true }).op i = _
  rw [op_setOp]

theorem channel_link (w : World α) (id c c' : ℕ) : (w.link id c).channel c' =
    if c' = c then { w.channel c with waiters := (w.channel c).waiters ++ [id] }
    else w.channel c' :=
  update_apply ..

/-- A parked node is linked. -/
theorem quiet_link (hc : c ∈ t) (hlt : id < w.next) (hcls : (w.op id).cls = .wait)
    (hhome : (w.node id).home = .channel c) : Quiet t w (w.link id c) where
  __ := Quiet.refl (t := t) w
  op i := by
    rw [op_link]
    split_ifs with h
    · subst h
      exact { Op.Calm.refl (w.op i) with }
    · exact .refl _
  linkable := by
    refine ⟨fun _ _ => .inl, fun c' i hi => ?_⟩
    rw [channel_link] at hi
    split_ifs at hi with h
    · subst h
      rcases mem_append.mp hi with hi | hi
      · exact .inl hi
      · exact .inr (mem_singleton.mp hi ▸ ⟨hlt, hcls, hhome⟩)
    · exact .inl hi
  keeps c' hc' := by
    have hne : c' ≠ c := fun h => hc' (h ▸ hc)
    exact .of_eq (by rw [channel_link, if_neg hne]) fun _ _ => rfl

namespace Sound

section

variable (hs : Sound t T S w₀ w)
include hs

/-- The waiter of a channel in `t` is notified. -/
theorem moves_notify_of_mem (hcls : (w.op id).cls = .wait)
    (hhome : (w.node id).home = .channel c) (hc : c ∈ t) : Moves t w (w.notify id) := by
  refine hs.moves_notify hcls fun c' hc' h => ?_
  rw [hhome, Home.channel.injEq] at h
  exact absurd (h ▸ hc) hc'

/-- A live receiver gets its value and completes. -/
theorem moves_give (hc : c ∈ t) (id : ℕ) {r : ℕ} (value : α) (hmem : r ∈ (w.channel c).waiters)
    (hactive : (w.op r).active = true) : Moves t w ((w.unlink r c).give id c r value) := by
  obtain ⟨-, hcls, hhome⟩ := hs.channel c r hmem
  have hu : Quiet t w (w.unlink r c) := .unlink w fun h => absurd hc h
  have hnode : Quiet t (w.unlink r c)
      ((w.unlink r c).setNode r fun n => { n with value := some value }) := by
    refine .setNode _ (fun _ => (hu.op r).active.trans hactive) (fun _ => rfl) fun c' h => ?_
    rw [hu.home, hhome, Home.channel.injEq] at h
    exact h ▸ hc
  have hsend := (hu.trans hnode).trans
    ((quiet_issue _ id value hc).trans (quiet_accept _ id value hc))
  have hquiet := hsend.trans ((quiet_hand _ r value hc).trans (quiet_serve _ r hc))
  exact (Moves.refl.quiet hquiet).trans ((hs.quiet hquiet).moves_notify_of_mem
    ((hquiet.op r).cls.trans hcls) ((hquiet.home r).trans hhome) hc)

theorem moves_push (hc : c ∈ t) (id : ℕ) (value : α) : Moves t w (w.push id c value).1 := by
  obtain ⟨w', hm, ⟨-, ⟨-, h⟩ | ⟨-, h⟩⟩ | ⟨r, rest, hws, -, hactive, h⟩⟩ :=
    push_cases (t := t) (fun i hi => (hs.channel c i hi).2.1) id value
  · rwa [h]
  · rw [h]
    exact hm.quiet (quiet_store w' id value hc)
  · rw [h]
    exact hm.trans ((hs.moves hm).moves_give hc id value (hws ▸ mem_cons_self) hactive)

theorem moves_popSender (hc : c ∈ t) (value : Option α) : Moves t w (w.popSender c value).1 := by
  obtain ⟨w', hm, ⟨-, h⟩ | ⟨s, rest, hws, -, -, h⟩⟩ :=
    popSender_cases (t := t) (fun i hi => (hs.channel c i hi).2.1) value
  · rwa [h]
  · obtain ⟨-, hcls, hhome⟩ := (hs.moves hm).channel c s (hws ▸ mem_cons_self)
    have hu : Quiet t w' (w'.unlink s c) := .unlink w' fun h => absurd hc h
    -- after the value of the sender has been taken over
    have hnotify : ∀ {w₁ : World α}, Quiet t w' w₁ → Moves t w (w₁.notify s) := fun hq =>
      (hm.quiet hq).trans (((hs.moves hm).quiet hq).moves_notify_of_mem
        ((hq.op s).cls.trans hcls) ((hq.home s).trans hhome) hc)
    rcases h with ⟨-, h⟩ | ⟨sent, -, h⟩
    · rw [h]
      exact hm.quiet hu
    · rw [h]
      have hacc := hu.trans (quiet_accept _ s sent hc)
      split_ifs
      · exact hnotify (hacc.trans (quiet_fill _ sent hc))
      · exact hnotify hacc

theorem moves_pop (hc : c ∈ t) (id : ℕ) : Moves t w (w.pop id c).1 := by
  have hquiet := quiet_popBuffered w hc
  have hm : Moves t w ((w.popBuffered c).1.popSender c (w.popBuffered c).2).1 :=
    (Moves.refl.quiet hquiet).trans ((hs.quiet hquiet).moves_popSender hc _)
  unfold World.pop
  dsimp only
  split
  · rename_i heq
    rwa [heq] at hm
  · rename_i w₁ v heq
    rw [heq] at hm
    exact hm.quiet (quiet_hand w₁ id v hc)

/-- The end of `await_suspend`: the node is parked and linked, or refused. -/
theorem enqueue (hf : Fresh t id w) (hhome : (w.node id).home = .channel c) :
    Sound t T S w₀ (w.enqueue id c).1 := by
  obtain ⟨hs', hlt, hcls, hnode⟩ := hs.park hf
  rw [hhome] at hnode
  unfold World.enqueue
  split
  · rename_i heq
    rwa [heq] at hs'
  · rename_i w₁ heq
    rw [heq] at hs' hlt hcls hnode
    exact hs'.quiet (quiet_link (hf.home c hhome) hlt hcls hnode)

theorem send (hc : c ∈ t) (value : α) (token : Option ℕ) :
    Sound t T S w₀ (w.send c value token) := by
  obtain ⟨hs₁, hf₁⟩ := hs.begin { cls := .wait, token } (.call c (some value))
    (fun _ h => Home.channel.inj h ▸ hc) rfl rfl rfl
  have hhome := congrArg Node.home
    ((node_alloc w { cls := .wait, token } (.call c (some value)) w.next).trans (if_pos rfl))
  unfold World.send
  dsimp only
  generalize w.alloc _ _ = w₁ at hs₁ hf₁ hhome ⊢
  obtain ⟨w₂, hw₂, -, ⟨h, -⟩ | h⟩ := canceledNow_cases (t := t) w₁ w.next
  all_goals
    have hf₂ := hf₁.moves (Moves.refl.quiet hw₂)
    have hs₂ := hs₁.quiet hw₂
    rw [h]
    dsimp only
  · exact (hs₂.fail hf₂.not_mem hf₂.home _).quiet (quiet_issue _ w.next value hc)
  · split_ifs
    · exact (hs₂.fail hf₂.not_mem hf₂.home _).quiet (quiet_issue _ w.next value hc)
    · have hm := hs₂.moves_push hc w.next value
      split
      all_goals
        rename_i heq
        rw [heq] at hm
      · exact hs₂.moves hm
      · have hhome' := (hm.same w.next).2.trans ((hw₂.home w.next).trans hhome)
        exact ((hs₂.moves hm).enqueue (hf₂.moves hm) hhome').quiet (quiet_issue _ w.next value hc)

theorem recv (hc : c ∈ t) (token : Option ℕ) : Sound t T S w₀ (w.recv c token) := by
  obtain ⟨hs₁, hf₁⟩ := hs.begin { cls := .wait, token } (.call c none)
    (fun _ h => Home.channel.inj h ▸ hc) rfl rfl rfl
  have hhome := congrArg Node.home
    ((node_alloc w { cls := .wait, token } (.call c none) w.next).trans (if_pos rfl))
  unfold World.recv
  dsimp only
  generalize w.alloc _ _ = w₁ at hs₁ hf₁ hhome ⊢
  obtain ⟨w₂, hw₂, -, ⟨h, -⟩ | h⟩ := canceledNow_cases (t := t) w₁ w.next
  all_goals
    have hf₂ := hf₁.moves (Moves.refl.quiet hw₂)
    have hs₂ := hs₁.quiet hw₂
    rw [h]
    dsimp only
  · exact hs₂.fail hf₂.not_mem hf₂.home _
  · have hm := hs₂.moves_pop hc w.next
    split
    all_goals
      rename_i heq
      rw [heq] at hm
      have hs₃ := hs₂.moves hm
      have hf₃ := hf₂.moves hm
    · exact hs₃.quiet (.setNode _ (fun h => absurd h hf₃.not_mem) (fun _ => rfl) hf₃.home)
    · split_ifs
      · exact hs₃
      · have hs₄ := hs₃.enqueue hf₃ ((hm.same w.next).2.trans ((hw₂.home w.next).trans hhome))
        split
        all_goals
          rename_i heq
          rw [heq] at hs₄
        · exact hs₄.quiet (quiet_arrive _ w.next hc)
        · exact hs₄

theorem refuse (hf : Fresh t id w) (hc : c ∈ t) (value : α) :
    Sound t T S w₀ (w.refuse id c value) := by
  have hnode : Quiet t w (w.setNode id fun n => { n with refused := true }) :=
    .setNode w (fun h => absurd h hf.not_mem) (fun _ => rfl) hf.home
  exact hs.quiet (hnode.trans (quiet_issue _ id value hc))

theorem trySend (hc : c ∈ t) (value : α) : Sound t T S w₀ (w.trySend c value) := by
  obtain ⟨hs₁, hf₁⟩ := hs.begin {} (.call c (some value))
    (fun _ h => Home.channel.inj h ▸ hc) rfl rfl rfl
  unfold World.trySend
  dsimp only
  generalize w.alloc _ _ = w₁ at hs₁ hf₁ ⊢
  have hw₂ := Quiet.interfere (t := t) w₁
  have hs₂ := hs₁.quiet hw₂
  have hf₂ := hf₁.moves (Moves.refl.quiet hw₂)
  split_ifs
  · exact hs₁.refuse hf₁ hc value
  · exact hs₂.refuse hf₂ hc value
  · have hm := hs₂.moves_push hc w.next value
    split
    all_goals
      rename_i heq
      rw [heq] at hm
    · exact hs₂.moves hm
    · exact (hs₂.moves hm).refuse (hf₂.moves hm) hc value

theorem tryRecv (hc : c ∈ t) : Sound t T S w₀ (w.tryRecv c) := by
  obtain ⟨hs₁, hf₁⟩ := hs.begin {} (.call c none)
    (fun _ h => Home.channel.inj h ▸ hc) rfl rfl rfl
  unfold World.tryRecv
  dsimp only
  generalize w.alloc _ _ = w₁ at hs₁ hf₁ ⊢
  have hw₂ := Quiet.interfere (t := t) w₁
  have hs₂ := hs₁.quiet hw₂
  have hf₂ := hf₁.moves (Moves.refl.quiet hw₂)
  split_ifs
  · exact hs₂
  · have hm := hs₂.moves_pop hc w.next
    split
    all_goals
      rename_i heq
      rw [heq] at hm
      have hf₃ := hf₂.moves hm
    · exact hs₂.moves hm
    · exact (hs₂.moves hm).quiet
        (.setNode _ (fun h => absurd h hf₃.not_mem) (fun _ => rfl) hf₃.home)

/-- `channel::close` completes an active waiter, a sender with an error. -/
theorem moves_reject (c : ℕ) (hcls : (w.op id).cls = .wait) : Moves t w (w.reject id c) := by
  unfold World.reject
  dsimp only
  split_ifs with hactive hsending
  · refine Moves.refl.complete hcls (.of_error ?_)
      (.of_unlink (.fail_notify hactive fun h => by cases h) rfl)
    simp [op_notify, op_fail, hactive]
  · have herror : ((w.unlink id c).op id).error = none := by
      rw [(calm_unlink w id c id).active] at hactive
      rw [(calm_unlink w id c id).error]
      exact (hs.pending id hactive).2.2
    refine Moves.refl.complete hcls (fun _ _ _ h => absurd h hsending)
      (.of_unlink (.notify hactive herror) rfl)
  · refine Moves.refl.quiet (.unlink w fun _ => ?_)
    simpa [(calm_unlink w id c id).active] using hactive

theorem moves_closeAll (c : ℕ) {l : List ℕ}
    (hl : ∀ id ∈ l, (w.op id).cls = .wait) : Moves t w (closeAll c w l) := by
  induction l generalizing w with
  | nil => exact .refl
  | cons id rest ih =>
    have hm := hs.moves_reject c (hl id mem_cons_self)
    exact hm.trans (ih (hs.moves hm) fun i hi =>
      (hm.same i).1.cls.trans (hl i (mem_cons_of_mem _ hi)))

theorem close (hc : c ∈ t) : Sound t T S w₀ (w.close c) := by
  have hs' := hs.quiet (.setChannel w c (f := fun ch => { ch with closed := true }) rfl hc)
  exact hs'.moves (hs'.moves_closeAll c fun id hid => (hs'.channel c id hid).2.1)

theorem destroy (id : ℕ) : Sound t T S w₀ (w.destroy id) := by
  unfold World.destroy
  split_ifs with hdead
  · split
    · exact hs
    · exact hs.quiet ((Quiet.setEvent w _ fun _ h => .inl (mem_of_mem_erase h)).trans
        (.setOp _ id fun o => { Op.Calm.refl o with }))
    · exact hs.quiet (.unlink w fun _ => hdead.1)
  · exact hs

end

end Sound

/-! ### Runs -/

/-- The channel that a call is made on. -/
def Call.channel : Call α → Option ℕ
  | .send c _ _ | .recv c _ | .trySend c _ | .tryRecv c | .close c => some c
  | _ => none

/-- What holds between calls: the armed timers are those in the heap `timers_`. -/
structure Regular (t : Set ℕ) (w₀ w : World α) : Prop where
  sound : Sound t w.loop.timers w.loop.timers w₀ w
  heap : IsHeap w.due w.loop.timers

theorem Regular.of_sound (hr : Regular t w₀ w) (hs : Sound t w.loop.timers w.loop.timers w w') :
    Regular t w₀ w' where
  sound := by
    have := hr.sound.trans hs
    rwa [hs.store]
  heap := by
    rw [hs.store]
    exact hr.heap.congr fun i hi => hs.due_eq (hr.sound.lt_next (hr.sound.timer i hi).2)

theorem Regular.of_exists {T : List ℕ} (hs : Sound t T T w₀ w) (hheap : IsHeap w.due T) :
    Regular t w₀ w := by
  obtain rfl := hs.store
  exact ⟨hs, hheap⟩

/-- The calls that add timers to the heap or take them off. -/
def Call.timed : Call α → Bool
  | .sleep _ _ _ | .expire _ => true
  | _ => false

/-- The other calls leave the heap as it is. -/
theorem Regular.sound_call (hr : Regular t w₀ w) (l : Call α) (hl : ∀ c ∈ l.channel, c ∈ t)
    (htimed : l.timed = false) : Sound t w.loop.timers w.loop.timers w (w.call H l) := by
  have hs : Sound t w.loop.timers w.loop.timers w w := hr.sound.rebase
  cases l with
  | sleep due token fault => cases htimed
  | wait e token interruptible => exact hs.wait e token interruptible
  | set e => exact hs.set e
  | reset e =>
    have hreset : Quiet t w (w.reset e) := .setEvent w e fun _ => .inl
    exact hs.quiet hreset
  | send c value token => exact hs.send (hl c rfl) value token
  | recv c token => exact hs.recv (hl c rfl) token
  | trySend c value => exact hs.trySend (hl c rfl) value
  | tryRecv c => exact hs.tryRecv (hl c rfl)
  | close c => exact hs.close (hl c rfl)
  | expire now => cases htimed
  | yield => exact hs.yield
  | resume => exact hs.resume
  | destroy id => exact hs.destroy id

/-- Every call keeps the invariant. -/
theorem Regular.call (hr : Regular t w₀ w) (l : Call α) (hl : ∀ c ∈ l.channel, c ∈ t) :
    Regular t w₀ (w.call H l) := by
  cases htimed : l.timed with
  | false => exact hr.of_sound (hr.sound_call l hl htimed)
  | true =>
    cases l with
    | sleep due token fault =>
      obtain ⟨T, hs', hheap, -⟩ := hr.sound.sleep (H := H) hr.heap due token fault
      exact .of_exists hs' hheap
    | expire now =>
      obtain ⟨T, hs', hheap, -⟩ := hr.sound.expire (H := H) hr.heap now
      exact .of_exists hs' hheap
    | _ => cases htimed

theorem Regular.interfere (hr : Regular t w₀ w) (sched : List (List Async)) :
    Regular t w₀ (World.interfere { w with sched }) := by
  exact hr.of_sound (hr.sound.rebase.quiet ((Quiet.sched w sched).trans (.interfere _)))

theorem Regular.run (hr : Regular .univ w₀ w) (ls : List (Call α × List (List Async))) :
    Regular .univ w₀ (w.run H ls) := by
  induction ls generalizing w with
  | nil => exact hr
  | cons l ls ih => exact ih ((hr.interfere l.2).call l.1 fun _ _ => trivial)

theorem regular_init (capacity : ℕ → ℕ) : Regular t (init capacity : World α) (init capacity) where
  sound :=
    { event := fun _ _ hid => absurd hid not_mem_nil
      channel := fun _ _ hid => absurd hid not_mem_nil
      homed := fun _ _ h => nomatch h
      next_le := Nat.le_refl _
      same := fun _ _ => .refl _
      home := fun _ _ => rfl
      stop := fun h => h
      suspended_subset := List.Subset.refl _
      suspended_home := fun _ => .inl
      linked := fun _ _ hid => absurd hid not_mem_nil
      prunes := fun c _ => .refl c _
      store := rfl
      timer := fun _ hid => absurd hid not_mem_nil
      timers_nodup := nodup_nil
      waiting := fun _ hid => absurd hid not_mem_nil
      waits_nodup := nodup_nil
      pending := fun _ h => by cases h
      suspended_lt := fun _ hid => absurd hid not_mem_nil
      suspended_nodup := nodup_nil
      completed := fun _ => rfl
      canceled := fun _ hid => absurd hid not_mem_nil
      kept := fun _ hid => absurd hid not_mem_nil }
  heap := .nil

theorem Reachable.regular (hw : Reachable H w) : Regular t w w := by
  obtain ⟨capacity, ls, rfl⟩ := hw
  have hr := (regular_init capacity).run (H := H) ls
  exact ⟨hr.sound.rebase, hr.heap⟩

/-! ### What is completed -/

theorem not_active_notify (h : id = e ∨ (w.op id).active = false) :
    ((w.notify e).op id).active = false := by
  rw [op_notify]
  split_ifs with hif
  · rfl
  · rcases h with rfl | h
    · simpa using hif
    · exact h

/-- After `set()`, no waiter of the event is pending. -/
theorem not_active_foldl_notify {l : List ℕ} (h : id ∈ l ∨ (w.op id).active = false) :
    ((l.foldl notify w).op id).active = false := by
  induction l generalizing w with
  | nil => exact h.resolve_left not_mem_nil
  | cons i rest ih =>
    refine ih ?_
    rw [mem_cons, or_assoc, or_left_comm] at h
    exact h.imp_right not_active_notify

theorem not_active_reject (h : id = e ∨ (w.op id).active = false) :
    ((w.reject e c).op id).active = false := by
  rw [← (calm_unlink w e c id).active] at h
  unfold reject
  dsimp only
  split_ifs with hactive
  · refine not_active_notify (h.imp_right fun h => ?_)
    rw [op_fail]
    split_ifs with hi
    · exact hi ▸ h
    · exact h
  · exact not_active_notify h
  · rcases h with rfl | h
    · simpa using hactive
    · exact h

/-- After `close()`, no waiter of the channel is pending. -/
theorem not_active_closeAll {l : List ℕ} (h : id ∈ l ∨ (w.op id).active = false) :
    ((closeAll c w l).op id).active = false := by
  induction l generalizing w with
  | nil => exact h.resolve_left not_mem_nil
  | cons i rest ih =>
    refine ih (w := w.reject i c) ?_
    rw [mem_cons, or_assoc, or_left_comm] at h
    exact h.imp_right not_active_reject

/-- A pending operation is in exactly one list, a completed one in none. -/
theorem Sound.count_lists (hs : Sound t T S w₀ w) (id : ℕ) :
    T.count id + w.loop.waits.count id = if (w.op id).active = true then 1 else 0 := by
  rw [hs.timers_nodup.count, hs.waits_nodup.count]
  by_cases hT : id ∈ T
  · obtain ⟨hcls, hactive⟩ := hs.timer id hT
    simp [hT, hs.not_mem_waits hcls, hactive]
  · by_cases hwaits : id ∈ w.loop.waits
    · simp [hT, hwaits, (hs.waiting id hwaits).2]
    · have hactive : ¬ (w.op id).active = true := fun h =>
        (hs.pending id h).1.elim hT hwaits
      simp [hT, hwaits, hactive]

end Snowy.World
