import Mathlib.Data.List.SplitBy
import Snowy.Uring.Submission

/-!
# Linked chains are submitted intact

The kernel takes an entry with a link flag, the entry behind it in the same submission, and so on up
to the first without a link flag as one chain. What has been handed over and what is queued is laid
out in pieces here: entries that were queued on their own, and batches. Every flush falls between
two pieces, so the chains that the kernel sees are the linked batches and nothing else.

## Main definitions

* `Snowy.Uring.Batch.sqes` : what a batch should look like in the queue.
* `Snowy.Uring.Piece` : an entry on its own, or a batch.
* `Snowy.Uring.linkedRuns` : the maximal linked runs of a submission.
* `Snowy.Uring.Ring.Laid` : a layout of the submissions and of the queue.

## Main results

* `Snowy.Uring.Entry.map_sqe_prepareAll` : `uring::submit` prepares a batch as it should look.
* `Snowy.Uring.Ring.chains_intact` : the maximal linked runs are the linked batches.
-/

namespace Snowy.Uring

open List

/-! ### What a batch looks like -/

/-- The flags with the link flag of the mode and no other. -/
def Flags.linkedAs (f : Flags) (order : Link) : Flags :=
  { f with link := order = .soft, hardlink := order = .hard }

theorem Flags.linkedAs_none {f : Flags} (hlink : f.link = false) (hhardlink : f.hardlink = false) :
    f.linkedAs .none = f := by
  cases f
  simp_all [linkedAs]

/-- The entries of a batch in the queue: in the order of the input, with the link flag of the mode
on all of them but the last. -/
def Batch.sqes (b : Batch) : List Sqe :=
  b.entries.mapIdx fun i e =>
    { tag := .request e.address
      flags := e.flags.linkedAs (if i + 1 < b.entries.length then b.order else .none) }

/-- An entry that passes the checks has no link flag but the one it is given. -/
theorem Entry.sqe_prepare {e e' : Entry} {order : Link} {last : Bool}
    (h : e.prepare order last = .ok e') : e'.sqe =
      { tag := .request e.address, flags := e.flags.linkedAs (if last then .none else order) } := by
  unfold prepare at h
  split_ifs at h with hop hflags hlast
  all_goals
    simp only [Bool.or_eq_true, not_or, Bool.not_eq_true] at hflags
    have hnone := Flags.linkedAs_none hflags.1.2 hflags.2
    rw [← Except.ok.inj h]
  · rw [if_pos hlast, hnone]
    rfl
  · rw [if_neg hlast]
    cases order with
    | none => rw [hnone, chain, sqe]
    | soft => simp [sqe, chain, Flags.linkedAs, hflags.2]
    | hard => simp [sqe, chain, Flags.linkedAs, hflags.1.2]

/-- **The chain is prepared as it should look.** -/
theorem Entry.map_sqe_prepareAll {order : Link} {entries prepared : List Entry}
    (h : prepareAll order entries = .ok prepared) :
    prepared.map Entry.sqe = Batch.sqes ⟨order, entries⟩ := by
  induction entries generalizing prepared with
  | nil =>
    rw [← Except.ok.inj h]
    rfl
  | cons e rest ih =>
    obtain ⟨e', he, h⟩ := exists_of_bind_eq_ok h
    obtain ⟨rest', hrest, h⟩ := exists_of_bind_eq_ok h
    rw [← Except.ok.inj h, map_cons, sqe_prepare he, ih hrest]
    simp only [Batch.sqes, mapIdx_cons, length_cons, Nat.add_lt_add_iff_right]
    cases rest <;> simp

theorem Batch.length_sqes (b : Batch) : b.sqes.length = b.entries.length := length_mapIdx

theorem Batch.linked_sqes {b : Batch} {i : ℕ} (h : i < b.sqes.length) :
    b.sqes[i].linked = (decide (i + 1 < b.entries.length) && b.order != .none) := by
  simp only [Batch.sqes, getElem_mapIdx, Sqe.linked, Flags.linkedAs]
  split_ifs with hlast
  · cases b.order <;> simp [hlast]
  · simp [hlast]

/-! ### Maximal linked runs -/

/-- The maximal linked runs of one submission, in order. An entry without a link flag ends a run. -/
def linkedRuns (l : List Sqe) : List (List Sqe) := l.splitBy fun e _ => e.linked

/-- Linked entries followed by one that is not. -/
structure IsRun (l : List Sqe) : Prop where
  ne_nil : l ≠ []
  linked : l.IsChain fun e _ => e.linked
  last : (l.getLast ne_nil).linked = false

/-- A submission that is made of runs has no other. -/
theorem linkedRuns_flatten {runs : List (List Sqe)} (h : ∀ l ∈ runs, IsRun l) :
    linkedRuns runs.flatten = runs := by
  refine splitBy_flatten (fun hnil => (h [] hnil).ne_nil rfl) (fun l hl => (h l hl).linked)
    (List.Pairwise.isChain (pairwise_of_forall_mem_list fun a ha b hb => ?_))
  exact ⟨(h a ha).ne_nil, (h b hb).ne_nil, (h a ha).last⟩

theorem IsRun.singleton {e : Sqe} (h : e.linked = false) : IsRun [e] :=
  ⟨cons_ne_nil _ _, isChain_singleton e, h⟩

/-! ### Layouts -/

/-- What is queued at once: an entry on its own, or the entries of a batch. -/
inductive Piece where
  | single (e : Sqe)
  | batch (b : Batch)
  deriving DecidableEq, Repr

namespace Piece

/-- The entries of a piece. -/
def sqes : Piece → List Sqe
  | single e => [e]
  | batch b => b.sqes

/-- The linked runs that a piece should have: a linked batch is one run, and every other entry is a
run of its own. -/
def runs : Piece → List (List Sqe)
  | single e => [[e]]
  | batch b => if b.order = .none then b.sqes.map fun e => [e] else [b.sqes]

/-- The batch, if it is one. -/
def batch? : Piece → Option Batch
  | single _ => none
  | batch b => some b

/-- An entry on its own has no link flag, and a batch is not empty. -/
def Valid : Piece → Prop
  | single e => e.linked = false
  | batch b => b.entries ≠ []

theorem flatten_runs (p : Piece) : p.runs.flatten = p.sqes := by
  cases p with
  | single e => rfl
  | batch b =>
    show (if b.order = .none then b.sqes.map fun e => [e] else [b.sqes]).flatten = b.sqes
    split_ifs
    · rw [← flatMap_def, flatMap_singleton']
    · rw [flatten_singleton]

theorem Valid.isRun {p : Piece} (hp : p.Valid) {l : List Sqe} (hl : l ∈ p.runs) : IsRun l := by
  cases p with
  | single e =>
    rw [mem_singleton.mp hl]
    exact .singleton hp
  | batch b =>
    change l ∈ if b.order = .none then b.sqes.map fun e => [e] else [b.sqes] at hl
    split_ifs at hl with horder
    · obtain ⟨e, he, rfl⟩ := mem_map.mp hl
      obtain ⟨i, hi, rfl⟩ := mem_iff_getElem.mp he
      exact .singleton (by simp [Batch.linked_sqes, horder])
    · have hne : b.sqes ≠ [] := fun hnil => hp (mapIdx_eq_nil_iff.mp hnil)
      rw [mem_singleton.mp hl]
      refine ⟨hne, isChain_iff_getElem.mpr fun i hi => ?_, ?_⟩
      · rw [Batch.linked_sqes, ← b.length_sqes]
        simp [hi, horder]
      · rw [getLast_eq_getElem, Batch.linked_sqes, ← b.length_sqes]
        have hpos := length_pos_iff.mpr hne
        simp [Nat.sub_add_cancel hpos]

end Piece

/-- The runs of a submission are those of its pieces. -/
theorem linkedRuns_flatMap {pieces : List Piece} (h : ∀ p ∈ pieces, p.Valid) :
    linkedRuns (pieces.flatMap Piece.sqes) = pieces.flatMap Piece.runs := by
  have hflatten : pieces.flatMap Piece.sqes = (pieces.flatMap Piece.runs).flatten := by
    rw [flatten_eq_flatMap, flatMap_assoc]
    refine flatMap_congr fun p _ => ?_
    rw [← flatten_eq_flatMap, p.flatten_runs]
  rw [hflatten]
  refine linkedRuns_flatten fun l hl => ?_
  obtain ⟨p, hp, hl⟩ := mem_flatMap.mp hl
  exact (h p hp).isRun hl

namespace Ring

variable {o : Options} {s s' : Ring}

/-- A layout: the pieces of each submission, and those in the queue. -/
structure Laid (s : Ring) (front : List (List Piece)) (last : List Piece) : Prop where
  groups : s.groups = front.map fun g => g.flatMap Piece.sqes
  sq : s.sq = last.flatMap Piece.sqes
  batches : (front.flatten ++ last).filterMap Piece.batch? = s.batches
  valid : ∀ p ∈ front.flatten ++ last, p.Valid

/-- Every flush fell between two pieces. -/
def Intact (s : Ring) : Prop := ∃ front last, s.Laid front last

namespace Intact

section

variable (hs : s.Intact)
include hs

/-- Only the queue, the submissions and the history matter. -/
theorem congr (hgroups : s'.groups = s.groups) (hsq : s'.sq = s.sq)
    (hbatches : s'.batches = s.batches) : s'.Intact := by
  obtain ⟨front, last, h⟩ := hs
  exact ⟨front, last, hgroups.trans h.groups, hsq.trans h.sq, h.batches.trans hbatches.symm,
    h.valid⟩

theorem flush : s.flush.Intact := by
  obtain ⟨front, last, h⟩ := hs
  refine ⟨front ++ [last], [], ?_, rfl, ?_, ?_⟩
  · simp [Ring.flush, h.groups, h.sq]
  · simpa [Ring.flush] using h.batches
  · simpa using h.valid

theorem makeRoom (count : ℕ) : (s.makeRoom o count).Intact :=
  makeRoom_induction hs (fun _ h => h.flush) count

/-- An entry is queued on its own. -/
theorem sqe (f : Bool) {e : Sqe} (he : e.linked = false) : (s.sqe o f e).Intact := by
  obtain ⟨s₁, ⟨front, last, h⟩, hsqe⟩ := sqe_induction hs (fun _ h => h.flush) f e (o := o)
  rw [hsqe]
  refine ⟨front, last ++ [.single e], h.groups, ?_, ?_, ?_⟩
  · simp [append, h.sq, Piece.sqes]
  · rw [← append_assoc, filterMap_append, h.batches]
    exact append_nil _
  · rw [← append_assoc]
    intro p hp
    rcases mem_append.mp hp with hp | hp
    · exact h.valid p hp
    · rw [mem_singleton.mp hp]
      exact he

/-- A batch is queued as a whole. -/
theorem publish {order : Link} {entries prepared : List Entry}
    (hne : entries ≠ []) (hprepared : Entry.prepareAll order entries = .ok prepared) :
    ((s.publish prepared).record ⟨order, entries⟩).Intact := by
  obtain ⟨front, last, h⟩ := hs
  refine ⟨front, last ++ [.batch ⟨order, entries⟩], h.groups, ?_, ?_, ?_⟩
  · simp [Ring.publish, record, h.sq, Piece.sqes, Entry.map_sqe_prepareAll hprepared]
  · rw [← append_assoc, filterMap_append, h.batches]
    rfl
  · rw [← append_assoc]
    intro p hp
    rcases mem_append.mp hp with hp | hp
    · exact h.valid p hp
    · rw [mem_singleton.mp hp]
      exact hne

theorem wakePoll (drain : Bool) : (s.wakePoll drain).Intact := by
  unfold Ring.wakePoll
  split_ifs
  · exact hs.congr rfl rfl rfl
  · exact hs

theorem wakeFirst (drain : Bool) : (s.wakeFirst o drain).Intact := by
  unfold Ring.wakeFirst
  split_ifs
  · exact (hs.makeRoom 1).wakePoll true
  · exact hs

theorem watch : (s.watch o).Intact :=
  (hs.sqe (o := o) true (e := { tag := .wake }) rfl).congr rfl rfl rfl

/-- One step. -/
theorem step (h : Step o s s') : s'.Intact := by
  cases h with
  | submit r x idle fresh ok =>
    have hlinked : Sqe.linked { tag := .request r, flags := x.flags } = false := by
      simp [Sqe.linked, x.unlinked]
    rw [eq_of_submit ok]
    exact ((hs.wakeFirst (o := o) _).sqe (o := o) _ hlinked).congr rfl rfl rfl
  | cancel r => exact (hs.sqe (o := o) true (e := { tag := .cancel r }) rfl).congr rfl rfl rfl
  | submitEntries stopped order entries idle fresh nodup ok =>
    rcases eq_of_submitEntries ok with ⟨-, rfl⟩ | ⟨hne, prepared, hprepared, rfl⟩
    · exact hs
    · exact ((hs.makeRoom _).wakePoll _).publish hne hprepared
  | poll => exact hs.flush.congr rfl rfl rfl
  | rearm =>
    unfold rearm
    split_ifs
    · exact (hs.watch (o := o)).congr rfl rfl rfl
    · exact hs.congr rfl rfl rfl
  | _ => exact hs.congr rfl rfl rfl

end

theorem init : (Ring.init o).Intact := by
  have hnew : ({} : Ring).Intact := ⟨[], [], rfl, rfl, rfl, fun p hp => absurd hp not_mem_nil⟩
  unfold Ring.init
  split_ifs
  · exact hnew
  · exact hnew.watch

end Intact

/-! ### Main result -/

/-- A batch that passes the checks and fits the ring is queued behind what is there, or, if the rest
of the queue is too small for it, in an empty queue. -/
theorem exists_submitEntries {order : Link} {entries prepared : List Entry} (hne : entries ≠ [])
    (hlong : entries.length ≤ 32768) (hprepared : Entry.prepareAll order entries = .ok prepared)
    (hfits : entries.length ≤ o.entries) :
    ∃ s', s.submitEntries o false order entries = .ok s' ∧
      s'.batches = s.batches ++ [⟨order, entries⟩] ∧
      (s'.groups, s'.sq) =
        if s.sq.length + entries.length ≤ o.entries then
          (s.groups, s.sq ++ Batch.sqes ⟨order, entries⟩)
        else (s.groups ++ [s.sq], Batch.sqes ⟨order, entries⟩) := by
  have hpos := length_pos_iff.mpr hne
  refine ⟨_, submitEntries_eq hne hlong hprepared hfits, ?_, ?_⟩
  · simp only [submitted, record, Ring.publish, batches_wakePoll]
    exact congrArg (· ++ _) (makeRoom_induction (P := fun s' => s'.batches = s.batches) rfl
      (fun _ h => h) _)
  · simp only [submitted, record, Ring.publish, sq_wakePoll, groups_wakePoll,
      Entry.map_sqe_prepareAll hprepared]
    split_ifs with hroom
    · rw [makeRoom_of_le hroom]
    · rw [Ring.makeRoom, if_pos (by omega)]
      rfl

/-- **Linked chains are submitted intact.** In every state of every run, with any ring size,
threshold and link modes, whatever is queued on its own in between, what each flush has handed over
and what is queued splits into pieces:

* the pieces are entries that were queued on their own, without a link flag, and batches, which are
  those that have been submitted, in this order;
* the entries of a batch lie next to each other in one submission, in the order of the input, with
  the link flag of the mode on all of them but the last (`Batch.sqes`);
* the maximal linked runs of a submission are its soft- or hard-linked batches, and every other
  entry is a run of its own.

A batch that passes the checks and fits the ring is queued, however full the queue is: behind what
is there, or after one flush of it. -/
theorem chains_intact (hs : Reachable o s) :
    (∃ layout : List (List Piece),
      s.groups ++ [s.sq] = layout.map (fun g => g.flatMap Piece.sqes) ∧
      layout.flatten.filterMap Piece.batch? = s.batches ∧
      (∀ g ∈ layout, ∀ e, .single e ∈ g → e.linked = false) ∧
      ∀ g ∈ layout, linkedRuns (g.flatMap Piece.sqes) = g.flatMap Piece.runs) ∧
    ∀ order entries prepared, entries ≠ [] → entries.length ≤ 32768 →
      Entry.prepareAll order entries = .ok prepared → entries.length ≤ o.entries →
      ∃ s', s.submitEntries o false order entries = .ok s' ∧
        s'.batches = s.batches ++ [⟨order, entries⟩] ∧
        (s'.groups, s'.sq) =
          if s.sq.length + entries.length ≤ o.entries then
            (s.groups, s.sq ++ Batch.sqes ⟨order, entries⟩)
          else (s.groups ++ [s.sq], Batch.sqes ⟨order, entries⟩) := by
  refine ⟨?_, fun order entries prepared => exists_submitEntries⟩
  obtain ⟨front, last, h⟩ := hs.induction Intact.init fun _ hs h => hs.step h
  have hflatten : (front ++ [last]).flatten = front.flatten ++ last := by simp
  have hvalid : ∀ g ∈ front ++ [last], ∀ p ∈ g, p.Valid := fun g hg p hp =>
    h.valid p (hflatten ▸ mem_flatten_of_mem hg hp)
  refine ⟨front ++ [last], ?_, ?_, fun g hg e he => hvalid g hg _ he,
    fun g hg => linkedRuns_flatMap (hvalid g hg)⟩
  · simp [h.groups, h.sq]
  · rw [hflatten, h.batches]

/-- A ring of two entries with the lowest threshold. -/
def tinyOptions : Options := { entries := 2, entries_pos := by decide, submitBatch := 1 }

/-- Two entries, the first of which drains. -/
def tinyBatch : Batch :=
  { order := .soft, entries := [{ address := 0, flags := { drain := true } }, { address := 1 }] }

/-- The batch comes when the poll of the eventfd is queued, and a zero-copy send follows it. -/
theorem exists_submitted_tinyBatch : ∃ s, Reachable tinyOptions s ∧ s.batches = [tinyBatch] ∧
    s.groups = [[{ tag := .wake }], tinyBatch.sqes] ∧ s.sq = [{ tag := .request 2 }] :=
  ⟨_, .tail (.tail .refl (.submitEntries false .soft tinyBatch.entries rfl
      (fun _ _ => not_mem_nil) (by decide) rfl))
    (.submit 2 .zcSend rfl (by decide) rfl), rfl, rfl, rfl⟩

theorem chains_intact_tinyBatch : ∃ s, Reachable tinyOptions s ∧
    s.groups = [[{ tag := .wake }], tinyBatch.sqes] ∧ s.sq = [{ tag := .request 2 }] ∧
    ∃ layout : List (List Piece),
      s.groups ++ [s.sq] = layout.map (fun g => g.flatMap Piece.sqes) ∧
      layout.flatten.filterMap Piece.batch? = [tinyBatch] := by
  obtain ⟨s, hs, hbatches, hgroups, hsq⟩ := exists_submitted_tinyBatch
  obtain ⟨⟨layout, hlayout, hb, -, -⟩, -⟩ := chains_intact hs
  exact ⟨s, hs, hgroups, hsq, layout, hlayout, hb.trans hbatches⟩

end Ring

end Snowy.Uring
