import Snowy.Lib.Intrusive
import Snowy.Lib.LinkQueue

/-!
# Families of doubly linked lists

Several lists can share the links of one type of nodes, each node being in at most one of them.
Nodes are put in front of a list, or behind its last node if the list keeps a pointer to it, and are
taken out anywhere. This file has the operations as they are written down for such nodes.

## Main definitions

* `Links.append`, `Links.unlink` : the operations.
* `LinkFamily`, `LinkFamily.Holds` : lists that share their links.

## Main results

* `Links.Lists.append`, `Links.Lists.unlink_eq_erase` : the nodes after an operation.
* `Links.Lists.walk_eq` : a walk visits the nodes.
* `Links.Lists.next_eq_some_iff` : the links are inverse to each other.
* `LinkFamily.Holds.setLinks` : an operation on one list keeps the others.
* `LinkFamily.Holds.pushFront`, `LinkFamily.Holds.append`, `LinkFamily.Holds.erase` : the nodes of
  all lists after an operation on one of them.
-/

namespace Links

open Function List

variable {ι : Type*} {L L' : Links ι} {a b : ι} {p : Option ι} {l l₁ l₂ : List ι}

/-! ### Neighbours -/

theorem Chain.prev_eq (h : L.Chain p (l₁ ++ a :: l₂)) : L.prev a = l₁.getLast?.or p := by
  induction l₁ generalizing p with
  | nil => exact h.1
  | cons b l₁ ih =>
    rw [ih h.2.2]
    cases l₁ with
    | nil => rfl
    | cons c l₁ => rw [List.getLast?_cons_cons, List.getLast?_cons, Option.some_or, Option.some_or]

theorem Lists.prev_eq (h : L.Lists (l₁ ++ a :: l₂)) : L.prev a = l₁.getLast? :=
  h.chain.prev_eq.trans (Option.or_none ..)

theorem Lists.next_eq (h : L.Lists (l₁ ++ a :: l₂)) : L.next a = l₂.head? := h.chain.next_eq

/-- A segment with the last node `b`, and the node `a` behind it. -/
theorem Chain.concat (h : L.Chain p (l ++ [b])) (hprev : ∀ c ∈ l ++ [b], L'.prev c = L.prev c)
    (hnext : ∀ c ∈ l, L'.next c = L.next c) (hb : L'.next b = some a) (ha : L'.prev a = some b)
    (hend : L'.next a = none) : L'.Chain p (l ++ [b, a]) := by
  induction l generalizing p with
  | nil => exact ⟨(hprev b mem_cons_self).trans h.1, hb, ha, hend, trivial⟩
  | cons c l ih =>
    obtain ⟨hp, hn, hrest⟩ := h
    refine ⟨(hprev c mem_cons_self).trans hp, ?_, ih hrest
      (fun d hd => hprev d (mem_cons_of_mem c hd))
      fun d hd => hnext d (mem_cons_of_mem c hd)⟩
    rw [hnext c mem_cons_self, hn]
    cases l <;> rfl

/-- The link back is inverse to the link forward. -/
theorem Lists.next_eq_some_iff (h : L.Lists l) (ha : a ∈ l) (hb : b ∈ l) :
    L.next a = some b ↔ L.prev b = some a := by
  constructor
  · intro hnext
    obtain ⟨l₁, l₂, rfl⟩ := append_of_mem ha
    rw [h.next_eq] at hnext
    obtain ⟨l₃, rfl⟩ := List.head?_eq_some_iff.mp hnext
    have h' : L.Lists ((l₁ ++ [a]) ++ b :: l₃) := by rwa [append_assoc]
    rw [h'.prev_eq, List.getLast?_concat]
  · intro hprev
    obtain ⟨l₁, l₂, rfl⟩ := append_of_mem hb
    rw [h.prev_eq] at hprev
    obtain ⟨l₃, rfl⟩ := List.getLast?_eq_some_iff.mp hprev
    have h' : L.Lists (l₃ ++ a :: (b :: l₂)) := by rwa [append_assoc] at h
    rw [h'.next_eq, List.head?_cons]

/-- No node is linked to itself. -/
theorem Lists.prev_ne_self (h : L.Lists l) (ha : a ∈ l) : L.prev a ≠ some a := by
  obtain ⟨l₁, l₂, rfl⟩ := append_of_mem ha
  rw [h.prev_eq]
  intro hlast
  exact (nodup_append.mp h.nodup).2.2 a (mem_of_getLast? hlast) a mem_cons_self rfl

theorem Lists.mem_of_prev (h : L.Lists l) (ha : a ∈ l) (hb : b ∈ L.prev a) : b ∈ l := by
  obtain ⟨l₁, l₂, rfl⟩ := append_of_mem ha
  rw [h.prev_eq] at hb
  exact mem_append_left _ (mem_of_getLast? hb)

theorem Lists.head_eq_none_iff (h : L.Lists l) : L.head = none ↔ l = [] := by
  rw [h.head, List.head?_eq_none_iff]

/-! ### Walks -/

theorem Chain.linked (h : L.Chain p l) : Linked L.next l := by
  induction l generalizing p with
  | nil => trivial
  | cons a l ih => exact ⟨h.2.1, ih h.2.2⟩

/-- A walk from the head visits the nodes of the list in their order. -/
theorem Lists.walk_eq (h : L.Lists l) {n : ℕ} (hn : l.length ≤ n) :
    Linked.walk L.next n L.head = l := by
  rw [h.head]
  exact h.chain.linked.walk_eq hn

/-! ### Putting a node behind the last one -/

variable [DecidableEq ι]

/-- A node is put behind the node `last`, or in front if there is none. -/
def append (L : Links ι) (last : Option ι) (a : ι) : Links ι :=
  let L := L.setPrev (some a) last
  L.setNext (L.prev a) (some a)

theorem append_eq (L : Links ι) (last : Option ι) (a : ι) :
    L.append last a = (L.setPrev (some a) last).setNext last (some a) := by
  have hprev : (L.setPrev (some a) last).prev a = last := update_self ..
  rw [append, hprev]

theorem prev_append (last : Option ι) (b : ι) :
    (L.append last a).prev b = if b = a then last else L.prev b := by
  rw [append_eq, prev_setNext]
  exact update_apply ..

theorem next_append_of_ne {last : Option ι} (hb : b ∉ last) :
    (L.append last a).next b = L.next b := by
  rw [append_eq, next_setNext_of_ne, next_setPrev]
  rintro c hc rfl
  exact hb hc

theorem next_append_last (hb : p = some b) : (L.append p a).next b = some a := by
  rw [append_eq, hb]
  exact update_self ..

theorem head_append (last : Option ι) :
    (L.append last a).head = if last = none then some a else L.head := by
  rw [append_eq]
  cases last <;> rfl

/-- Putting a node that is in no list, and has no link forward, behind the last one. -/
theorem Lists.append (h : L.Lists l) (ha : a ∉ l) (hnext : L.next a = none) :
    (L.append l.getLast? a).Lists (l ++ [a]) := by
  have hnodup : (l ++ [a]).Nodup := nodup_append.mpr ⟨h.nodup, nodup_singleton a,
    fun b hb c hc => mem_singleton.mp hc ▸ ne_of_mem_of_not_mem hb ha⟩
  have hlast : a ∉ l.getLast? := fun hmem => ha (mem_of_getLast? hmem)
  have hend : (L.append l.getLast? a).next a = none := (next_append_of_ne hlast).trans hnext
  have hprev : (L.append l.getLast? a).prev a = l.getLast? := (prev_append ..).trans (if_pos rfl)
  rcases eq_nil_or_concat l with rfl | ⟨l', b, rfl⟩
  · exact ⟨head_append .., hnodup, hprev, hend, trivial⟩
  · rw [concat_eq_append] at *
    have hb : b ∉ l' := fun hmem =>
      (nodup_append.mp h.nodup).2.2 b hmem b (mem_singleton_self b) rfl
    have hgetLast : (l' ++ [b]).getLast? = some b := List.getLast?_concat
    refine ⟨?_, hnodup, ?_⟩
    · rw [head_append, hgetLast, if_neg nofun, h.head]
      cases l' <;> rfl
    · rw [append_assoc]
      refine h.chain.concat (fun c hc => ?_) (fun c hc => ?_) (next_append_last hgetLast)
        (hprev.trans hgetLast) hend
      · exact (prev_append ..).trans (if_neg (ne_of_mem_of_not_mem hc ha))
      · refine next_append_of_ne fun hmem => hb ?_
        rw [hgetLast] at hmem
        exact Option.some.inj hmem ▸ hc

/-! ### Taking a node out -/

/-- A node is taken out of its list. -/
def unlink (L : Links ι) (a : ι) : Links ι :=
  let L := L.setNext (L.prev a) (L.next a)
  L.setPrev (L.next a) (L.prev a)

/-- The link forward of the node itself is not changed. -/
theorem Lists.next_setNext_prev (h : L.Lists l) (ha : a ∈ l) (link : Option ι) :
    (L.setNext (L.prev a) link).next a = L.next a :=
  next_setNext_of_ne fun _ hc hac => h.prev_ne_self ha (hac ▸ hc)

theorem Lists.unlink_eq_erase (h : L.Lists l) (ha : a ∈ l) : L.unlink a = L.erase a := by
  rw [Links.unlink, h.next_setNext_prev ha, prev_setNext, Links.erase]

/-- The first node is taken off. -/
theorem popFront_eq_erase (h : L.prev a = none) : L.popFront a = L.erase a := by
  rw [Links.popFront, Links.erase, h]
  cases L.next a <;> rfl

/-- The last node after a node was taken out. -/
theorem Lists.getLast?_erase (h : L.Lists l) (ha : a ∈ l) :
    (l.erase a).getLast? = if L.next a = none then L.prev a else l.getLast? := by
  obtain ⟨l₁, l₂, hmem, rfl, herase⟩ := exists_erase_eq ha
  rw [herase, h.next_eq, h.prev_eq]
  cases l₂ with
  | nil => rw [if_pos List.head?_nil, append_nil]
  | cons b l₂ =>
    rw [if_neg (by rw [List.head?_cons]; exact nofun), List.getLast?_append_cons,
      List.getLast?_append_cons, List.getLast?_cons_cons]

/-! ### The other nodes -/

/-- Two heaps have the same links for a node. -/
def SameAt (L L' : Links ι) (b : ι) : Prop := L'.next b = L.next b ∧ L'.prev b = L.prev b

theorem Lists.sameAt_pushFront (h : L.Lists l) (hb : b ∉ l) (hne : b ≠ a) :
    L.SameAt (L.pushFront a) b :=
  ⟨(next_pushFront b).trans (if_neg hne),
    prev_pushFront_of_ne fun hmem => hb (h.mem_of_head hmem)⟩

theorem sameAt_append (hb : b ∉ l) (hne : b ≠ a) : L.SameAt (L.append l.getLast? a) b :=
  ⟨next_append_of_ne fun hmem => hb (mem_of_getLast? hmem),
    (prev_append ..).trans (if_neg hne)⟩

theorem Lists.sameAt_erase (h : L.Lists l) (ha : a ∈ l) (hb : b ∉ l) : L.SameAt (L.erase a) b := by
  refine ⟨next_erase_of_ne ?_, prev_erase_of_ne ?_⟩
  · rintro c hc rfl
    exact hb (h.mem_of_prev ha hc)
  · rintro c hc rfl
    exact hb (h.mem_of_next ha hc)

end Links

/-- Lists that share the links of their nodes. -/
structure LinkFamily (κ ι : Type*) where
  head : κ → Option ι := fun _ => none
  next : ι → Option ι := fun _ => none
  prev : ι → Option ι := fun _ => none

namespace LinkFamily

open Function List

variable {κ ι : Type*} {F : LinkFamily κ ι} {l : κ → List ι} {k : κ} {m : List ι} {L : Links ι}

/-- One of the lists. -/
def links (F : LinkFamily κ ι) (k : κ) : Links ι := ⟨F.head k, F.next, F.prev⟩

/-- The lists have the nodes `l`, and no node is in two of them. -/
structure Holds (F : LinkFamily κ ι) (l : κ → List ι) : Prop where
  lists : ∀ k, (F.links k).Lists (l k)
  apart : Apart l

theorem holds_init : ({} : LinkFamily κ ι).Holds fun _ => [] :=
  ⟨fun _ => ⟨rfl, nodup_nil, trivial⟩, nofun⟩

variable [DecidableEq κ]

/-- An operation on one of the lists. -/
def setLinks (F : LinkFamily κ ι) (k : κ) (L : Links ι) : LinkFamily κ ι where
  head := update F.head k L.head
  next := L.next
  prev := L.prev

theorem links_setLinks (F : LinkFamily κ ι) (k : κ) (L : Links ι) :
    (F.setLinks k L).links k = L := by
  rw [links, setLinks]
  dsimp only
  rw [update_self]

/-- An operation on one list, which changes no links but those of its nodes, keeps the others. -/
theorem Holds.setLinks (h : F.Holds l) (hL : L.Lists m) (hm : ∀ a ∈ m, a ∈ l k ∨ ∀ k', a ∉ l k')
    (hsame : ∀ b, b ∉ l k → b ∉ m → (F.links k).SameAt L b) :
    (F.setLinks k L).Holds (update l k m) := by
  refine ⟨fun k' => ?_, h.apart.update hm⟩
  by_cases hk : k' = k
  · subst hk
    rwa [links_setLinks, update_self]
  · rw [update_of_ne hk]
    have hkeep : ∀ a ∈ l k', (F.links k).SameAt L a := fun a ha =>
      hsame a (h.apart.not_mem hm hk ha).1 (h.apart.not_mem hm hk ha).2
    exact (h.lists k').congr (update_of_ne hk ..) (fun a ha => (hkeep a ha).1)
      fun a ha => (hkeep a ha).2

/-! ### The operations -/

variable [DecidableEq ι] {a : ι}

theorem Holds.pushFront (h : F.Holds l) (k : κ) (ha : ∀ k', a ∉ l k') (hprev : F.prev a = none) :
    (F.setLinks k ((F.links k).pushFront a)).Holds (update l k (a :: l k)) := by
  refine h.setLinks ((h.lists k).pushFront (ha k) hprev) (fun b hb => ?_) fun b hb hbm => ?_
  · rcases mem_cons.mp hb with rfl | hb
    · exact .inr ha
    · exact .inl hb
  · exact (h.lists k).sameAt_pushFront hb (ne_of_not_mem_cons hbm)

theorem Holds.append (h : F.Holds l) (k : κ) (ha : ∀ k', a ∉ l k') (hnext : F.next a = none) :
    (F.setLinks k ((F.links k).append (l k).getLast? a)).Holds
      (update l k (l k ++ [a])) := by
  refine h.setLinks ((h.lists k).append (ha k) hnext) (fun b hb => ?_) fun b hb hbm => ?_
  · rcases mem_append.mp hb with hb | hb
    · exact .inl hb
    · exact .inr (mem_singleton.mp hb ▸ ha)
  · exact Links.sameAt_append hb fun hba =>
      hbm (mem_append_right _ (mem_singleton.mpr hba))

theorem Holds.erase (h : F.Holds l) (ha : a ∈ l k) :
    (F.setLinks k ((F.links k).erase a)).Holds (update l k ((l k).erase a)) :=
  h.setLinks ((h.lists k).erase ha) (fun _ hb => .inl (mem_of_mem_erase hb))
    fun _ hb _ => (h.lists k).sameAt_erase ha hb

end LinkFamily
