import Mathlib.Data.List.Nodup
import Mathlib.Logic.Function.Basic

/-!
# Doubly linked lists

The nodes of an intrusive list hold the links to the nodes before and after them, and the list
itself is a pointer to its first node. A node that is in no list may have any links.

`Links.Lists L l` says that `L` is a doubly linked list with the nodes `l`. Pushing a node to the
front and erasing a node, which needs no search, are right for such lists. Taking off the node that
was pushed last, which stores a null pointer to the link of the next node, restores everything but
the link of the node itself: the link it overwrites was a null pointer, as that node was the first.

## Main definitions

* `Links` : the head and the links.
* `Links.pushFront`, `Links.popFront`, `Links.erase` : the operations.
* `Links.Lists` : the nodes of a list.

## Main results

* `Links.Lists.pushFront`, `Links.Lists.erase` : the nodes after an operation.
* `Links.Lists.head_popFront`, `Links.Lists.prev_popFront`, `Links.next_popFront` : taking off the
  node that was pushed restores the list.
-/

/-- A doubly linked list: its first node, and the links of all nodes. -/
structure Links (ι : Type*) where
  head : Option ι := none
  next : ι → Option ι := fun _ => none
  prev : ι → Option ι := fun _ => none

namespace Links

open Function List

variable {ι : Type*} {L L' : Links ι} {a b : ι} {p : Option ι} {l l₁ l₂ : List ι}

/-! ### The nodes of a list -/

/-- The links of the nodes `l` are right, behind the node `p`. -/
def Chain (L : Links ι) : Option ι → List ι → Prop
  | _, [] => True
  | p, a :: l => L.prev a = p ∧ L.next a = l.head? ∧ Chain L (some a) l

/-- The list has the nodes `l`. -/
structure Lists (L : Links ι) (l : List ι) : Prop where
  head : L.head = l.head?
  nodup : l.Nodup
  chain : L.Chain none l

theorem Chain.congr (h : L.Chain p l) (hnext : ∀ a ∈ l, L'.next a = L.next a)
    (hprev : ∀ a ∈ l, L'.prev a = L.prev a) : L'.Chain p l := by
  induction l generalizing p with
  | nil => trivial
  | cons a l ih =>
    obtain ⟨hp, hn, hrest⟩ := h
    exact ⟨(hprev a mem_cons_self).trans hp, (hnext a mem_cons_self).trans hn,
      ih hrest (fun b hb => hnext b (mem_cons_of_mem a hb))
        fun b hb => hprev b (mem_cons_of_mem a hb)⟩

theorem Chain.next_eq (h : L.Chain p (l₁ ++ a :: l₂)) : L.next a = l₂.head? := by
  induction l₁ generalizing p with
  | nil => exact h.2.1
  | cons b l₁ ih => exact ih h.2.2

/-- The link of a node that is not the first. -/
theorem Chain.exists_prev (h : L.Chain p (b :: l₁ ++ a :: l₂)) :
    ∃ c ∈ b :: l₁, L.prev a = some c := by
  induction l₁ generalizing b p with
  | nil => exact ⟨b, mem_cons_self, h.2.2.1⟩
  | cons d l₁ ih =>
    obtain ⟨c, hc, hprev⟩ := ih h.2.2
    exact ⟨c, mem_cons_of_mem b hc, hprev⟩

theorem Lists.nil : (Links.mk none L.next L.prev).Lists [] := ⟨rfl, nodup_nil, trivial⟩

/-- The links of nodes that are not in the list do not matter. -/
theorem Lists.congr (h : L.Lists l) (hhead : L'.head = L.head)
    (hnext : ∀ a ∈ l, L'.next a = L.next a) (hprev : ∀ a ∈ l, L'.prev a = L.prev a) : L'.Lists l :=
  ⟨hhead.trans h.head, h.nodup, h.chain.congr hnext hprev⟩

theorem Lists.mem_of_head (h : L.Lists l) (hb : b ∈ L.head) : b ∈ l :=
  mem_of_mem_head? (h.head ▸ hb)

/-- The link of a node of the list leads to one. -/
theorem Lists.mem_of_next (h : L.Lists l) (ha : a ∈ l) (hb : b ∈ L.next a) : b ∈ l := by
  obtain ⟨l₁, l₂, rfl⟩ := append_of_mem ha
  rw [h.chain.next_eq] at hb
  exact mem_append_right _ (mem_cons_of_mem a (mem_of_mem_head? hb))

/-- The first node has no link back. -/
theorem Lists.prev_head (h : L.Lists l) (hb : b ∈ L.head) : L.prev b = none := by
  cases l with
  | nil =>
    rw [h.head] at hb
    cases hb
  | cons c l =>
    cases h.head.symm.trans hb
    exact h.chain.1

/-! ### The operations -/

variable [DecidableEq ι]

section Operations

variable (L) (a)

/-- The link of a node to the one before it is changed, if there is such a node. -/
def setPrev (node link : Option ι) : Links ι :=
  match node with
  | some b => { L with prev := Function.update L.prev b link }
  | none => L

/-- The link of a node to the one after it is changed, or the head if there is no such node. -/
def setNext (node link : Option ι) : Links ι :=
  match node with
  | some b => { L with next := Function.update L.next b link }
  | none => { L with head := link }

/-- A node is put in front of the list. -/
def pushFront : Links ι :=
  ((L.setNext (some a) L.head).setPrev L.head (some a)).setNext none (some a)

/-- The node in front of the list is taken off. -/
def popFront : Links ι := (L.setPrev (L.next a) none).setNext none (L.next a)

/-- A node is taken out of the list. -/
def erase : Links ι := (L.setNext (L.prev a) (L.next a)).setPrev (L.next a) (L.prev a)

/-- A node that is in no list gets new links. -/
def clear : Links ι := (L.setNext (some a) none).setPrev (some a) none

end Operations

theorem next_setPrev (node link : Option ι) : (L.setPrev node link).next = L.next := by
  cases node <;> rfl

theorem head_setPrev (node link : Option ι) : (L.setPrev node link).head = L.head := by
  cases node <;> rfl

theorem prev_setNext (node link : Option ι) : (L.setNext node link).prev = L.prev := by
  cases node <;> rfl

theorem prev_setPrev_of_ne {node link : Option ι} (h : ∀ c ∈ node, b ≠ c) :
    (L.setPrev node link).prev b = L.prev b := by
  cases node with
  | none => rfl
  | some c => exact update_of_ne (h c rfl) ..

theorem next_setNext_of_ne {node link : Option ι} (h : ∀ c ∈ node, b ≠ c) :
    (L.setNext node link).next b = L.next b := by
  cases node with
  | none => rfl
  | some c => exact update_of_ne (h c rfl) ..

/-! ### Clearing the links of a node -/

theorem next_clear_of_ne (hb : b ≠ a) : (L.clear a).next b = L.next b := by
  rw [clear, next_setPrev]
  exact update_of_ne hb ..

theorem prev_clear_of_ne (hb : b ≠ a) : (L.clear a).prev b = L.prev b := by
  change Function.update (L.setNext (some a) none).prev a none b = _
  rw [update_of_ne hb, prev_setNext]

theorem prev_clear : (L.clear a).prev a = none := update_self ..

theorem Lists.clear (h : L.Lists l) (ha : a ∉ l) : (L.clear a).Lists l :=
  h.congr rfl (fun _ hb => next_clear_of_ne (ne_of_mem_of_not_mem hb ha))
    fun _ hb => prev_clear_of_ne (ne_of_mem_of_not_mem hb ha)

/-! ### Pushing a node and taking it off -/

theorem head_pushFront : (L.pushFront a).head = some a := rfl

theorem next_pushFront (b : ι) : (L.pushFront a).next b = if b = a then L.head else L.next b := by
  change ((L.setNext (some a) L.head).setPrev L.head (some a)).next b = _
  rw [next_setPrev]
  exact update_apply ..

theorem prev_pushFront_of_ne (hb : b ∉ L.head) : (L.pushFront a).prev b = L.prev b := by
  change ((L.setNext (some a) L.head).setPrev L.head (some a)).prev b = _
  rw [prev_setPrev_of_ne, prev_setNext]
  rintro c hc rfl
  exact hb hc

theorem prev_pushFront_head (hb : b ∈ L.head) : (L.pushFront a).prev b = some a := by
  change ((L.setNext (some a) L.head).setPrev L.head (some a)).prev b = _
  rw [Option.mem_def.mp hb]
  exact update_self ..

theorem Lists.pushFront (h : L.Lists l) (ha : a ∉ l) (hprev : L.prev a = none) :
    (L.pushFront a).Lists (a :: l) := by
  have hhead : a ∉ L.head := fun hmem => ha (h.mem_of_head hmem)
  have hnext : (L.pushFront a).next a = L.head := (next_pushFront a).trans (if_pos rfl)
  refine ⟨head_pushFront, nodup_cons.mpr ⟨ha, h.nodup⟩,
    (prev_pushFront_of_ne hhead).trans hprev, hnext.trans h.head, ?_⟩
  have hkeep : ∀ b ∈ l, (L.pushFront a).next b = L.next b := fun b hb =>
    (next_pushFront b).trans (if_neg (ne_of_mem_of_not_mem hb ha))
  cases l with
  | nil => trivial
  | cons c l =>
    have hc : c ∈ L.head := h.head
    refine ⟨prev_pushFront_head hc, (hkeep c mem_cons_self).trans h.chain.2.1,
      h.chain.2.2.congr (fun b hb => hkeep b (mem_cons_of_mem c hb)) fun b hb => ?_⟩
    refine prev_pushFront_of_ne fun hmem => ?_
    cases h.head.symm.trans hmem
    exact (nodup_cons.mp h.nodup).1 hb

theorem next_popFront (hb : b ≠ a) : ((L.pushFront a).popFront a).next b = L.next b := by
  change ((L.pushFront a).setPrev ((L.pushFront a).next a) none).next b = _
  rw [next_setPrev, next_pushFront, if_neg hb]

theorem head_popFront : ((L.pushFront a).popFront a).head = L.head := by
  change (L.pushFront a).next a = _
  rw [next_pushFront, if_pos rfl]

theorem Lists.prev_popFront (h : L.Lists l) (b : ι) :
    ((L.pushFront a).popFront a).prev b = L.prev b := by
  change ((L.pushFront a).setPrev ((L.pushFront a).next a) none).prev b = _
  rw [next_pushFront, if_pos rfl]
  by_cases hb : b ∈ L.head
  · rw [Option.mem_def.mp hb, h.prev_head hb]
    exact update_self ..
  · rw [prev_setPrev_of_ne, prev_pushFront_of_ne hb]
    rintro c hc rfl
    exact hb hc

/-! ### Erasing a node -/

theorem next_erase_of_ne (hb : ∀ c ∈ L.prev a, b ≠ c) : (L.erase a).next b = L.next b := by
  rw [Links.erase, next_setPrev, next_setNext_of_ne hb]

theorem prev_erase_of_ne (hb : ∀ c ∈ L.next a, b ≠ c) : (L.erase a).prev b = L.prev b := by
  rw [Links.erase, prev_setPrev_of_ne hb, prev_setNext]

theorem next_erase_prev (hb : L.prev a = some b) : (L.erase a).next b = L.next a := by
  rw [Links.erase, next_setPrev, hb]
  exact update_self ..

theorem prev_erase_next (hb : L.next a = some b) : (L.erase a).prev b = L.prev a := by
  rw [Links.erase, hb]
  exact update_self ..

theorem head_erase (L : Links ι) (a : ι) :
    (L.erase a).head = if L.prev a = none then L.next a else L.head := by
  rw [Links.erase, head_setPrev]
  cases L.prev a <;> rfl

/-- The nodes of a segment after one of them was erased. -/
theorem Chain.erase (h : L.Chain p (l₁ ++ a :: l₂)) (hnodup : (l₁ ++ a :: l₂).Nodup)
    (hp : ∀ b ∈ p, b ∉ l₁ ++ a :: l₂) : (L.erase a).Chain p (l₁ ++ l₂) := by
  induction l₁ generalizing p with
  | nil =>
    obtain ⟨hprev, hnext, hrest⟩ := h
    cases l₂ with
    | nil => trivial
    | cons c l₂ =>
      -- the node before `a` is not in the segment, and `c` is the one after it
      have hne : ∀ d ∈ c :: l₂, ∀ b ∈ L.prev a, d ≠ b := by
        rintro d hd b hb rfl
        exact hp d (hprev ▸ hb) (mem_cons_of_mem a hd)
      have hc : ∀ d ∈ l₂, ∀ b ∈ L.next a, d ≠ b := by
        rintro d hd b hb rfl
        cases hnext.symm.trans hb
        exact (nodup_cons.mp (nodup_cons.mp hnodup).2).1 hd
      refine ⟨(prev_erase_next hnext).trans hprev,
        (next_erase_of_ne (hne c mem_cons_self)).trans hrest.2.1, hrest.2.2.congr ?_ ?_⟩
      · exact fun d hd => next_erase_of_ne (hne d (mem_cons_of_mem c hd))
      · exact fun d hd => prev_erase_of_ne (hc d hd)
  | cons b l₁ ih =>
    obtain ⟨hprev, hnext, hrest⟩ := h
    obtain ⟨hb, hnodup'⟩ := nodup_cons.mp hnodup
    have hb₂ : b ∉ l₂ := fun hmem =>
      hb (mem_append_right _ (mem_cons_of_mem a hmem))
    refine ⟨(prev_erase_of_ne ?_).trans hprev, ?_, ih hrest hnodup' ?_⟩
    · rintro c hc rfl
      rw [hrest.next_eq] at hc
      exact hb₂ (mem_of_mem_head? hc)
    · cases l₁ with
      | nil => exact (next_erase_prev hrest.1).trans hrest.2.1
      | cons d l₁ =>
        obtain ⟨c, hc, hprev'⟩ := hrest.exists_prev
        refine (next_erase_of_ne ?_).trans hnext
        rintro c' hc' rfl
        cases hprev'.symm.trans hc'
        exact hb (mem_append_left _ hc)
    · rintro c hc
      cases hc
      exact hb

theorem Lists.erase (h : L.Lists l) (ha : a ∈ l) : (L.erase a).Lists (l.erase a) := by
  obtain ⟨l₁, l₂, -, hl, herase⟩ := exists_erase_eq ha
  have hchain := hl ▸ h.chain
  refine ⟨?_, h.nodup.erase a, herase ▸ hchain.erase (hl ▸ h.nodup) nofun⟩
  rw [head_erase, herase]
  cases l₁ with
  | nil => rw [if_pos hchain.1, hchain.next_eq, nil_append]
  | cons b l₁ =>
    obtain ⟨c, -, hprev⟩ := hchain.exists_prev
    rw [if_neg (by rw [hprev]; exact nofun), h.head, hl]
    rfl

end Links
