import Mathlib.Data.List.Nodup
import Mathlib.Logic.Function.Basic

/-!
# Linked queues

A queue is a pair of pointers to its first and its last node, and each node has a link to the one
behind it. Several queues share the links of one type of nodes, and a node can be moved from one
queue to another, but it is in one queue at a time. A node that is in no queue has no link.

## Main definitions

* `Linked`, `Linked.walk` : nodes that are linked to each other, and the nodes on a walk along the
  links.
* `Linked.scan` : a walk on which nodes are taken out.
* `Apart` : lists of which no two have a node in common.
* `LinkQueue`, `LinkQueue.push`, `LinkQueue.pop` : queues that share the links of their nodes.
* `LinkQueue.Holds` : the nodes in the queues.

## Main results

* `Linked.scan_eq` : a walk on which nodes are taken out visits the nodes that there were.
* `LinkQueue.Holds.push`, `LinkQueue.Holds.pop` : the queues are first-in-first-out queues.
* `LinkQueue.Holds.walk_eq` : a walk along the links visits the nodes of a queue.
-/

section Linked

variable {κ ι : Type*} {next next' : ι → Option ι} {a : ι} {m : List ι}

/-- Each node is linked to the one behind it, and the last node has no link. -/
def Linked (next : ι → Option ι) : List ι → Prop
  | [] => True
  | a :: m => next a = m.head? ∧ Linked next m

/-- The nodes on a walk of at most `n` steps. -/
def Linked.walk (next : ι → Option ι) : ℕ → Option ι → List ι
  | 0, _ => []
  | _ + 1, none => []
  | n + 1, some a => a :: Linked.walk next n (next a)

theorem Linked.congr (h : Linked next m) (hnext : ∀ a ∈ m, next' a = next a) : Linked next' m := by
  induction m with
  | nil => trivial
  | cons a m ih =>
    exact ⟨(hnext a List.mem_cons_self).trans h.1,
      ih h.2 fun b hb => hnext b (List.mem_cons_of_mem a hb)⟩

/-- A walk along linked nodes visits them in their order, and ends with the last of them. -/
theorem Linked.walk_eq (h : Linked next m) {n : ℕ} (hn : m.length ≤ n) :
    Linked.walk next n m.head? = m := by
  induction m generalizing n with
  | nil => cases n <;> rfl
  | cons a m ih =>
    cases n with
    | zero => exact absurd hn (Nat.not_succ_le_zero _)
    | succ n =>
      rw [List.head?_cons, Linked.walk, h.1, ih h.2 (Nat.le_of_succ_le_succ hn)]

theorem Linked.next_eq {l₁ l₂ : List ι} (h : Linked next (l₁ ++ a :: l₂)) : next a = l₂.head? := by
  induction l₁ with
  | nil => exact h.1
  | cons b l₁ ih => exact ih h.2

/-- A node is put behind the last one. -/
theorem Linked.concat {b : ι} (h : Linked next (m ++ [b])) (hm : ∀ c ∈ m, next' c = next c)
    (hb : next' b = some a) (ha : next' a = none) : Linked next' (m ++ [b] ++ [a]) := by
  induction m with
  | nil => exact ⟨hb, ha, trivial⟩
  | cons c m ih =>
    refine ⟨?_, ih h.2 fun d hd => hm d (List.mem_cons_of_mem c hd)⟩
    rw [hm c List.mem_cons_self, h.1]
    cases m <;> rfl

section Scan

variable {σ : Type*} {next : σ → ι → Option ι} {body : ι → σ → σ × Bool} {P : σ → Prop} {s : σ}

/-- A walk that reads the link of a node, does something with the node, and goes on along the link
that was read. The walk ends early if that fails. The result has the nodes that were visited. -/
def Linked.scan (next : σ → ι → Option ι) (body : ι → σ → σ × Bool) :
    ℕ → Option ι → σ → List ι × σ × Bool
  | 0, _, s => ([], s, true)
  | _ + 1, none, s => ([], s, true)
  | n + 1, some a, s =>
    let t := body a s
    if t.2 then
      let rest := Linked.scan next body n (next s a) t.1
      (a :: rest.1, rest.2)
    else ([a], t)

/-- A walk on which a node may be taken out when it is visited visits the nodes that the list had at
its beginning, each of them once. -/
theorem Linked.scan_eq (next : σ → ι → Option ι) (body : ι → σ → σ × Bool) (nodes : σ → List ι)
    (hlinked : ∀ {s}, P s → Linked (next s) (nodes s))
    (hbody : ∀ {a s l₁ l₂}, P s → nodes s = l₁ ++ a :: l₂ → P (body a s).1 ∧
      (nodes (body a s).1 = l₁ ++ a :: l₂ ∨ nodes (body a s).1 = l₁ ++ l₂))
    (hs : P s) (hm : m <:+ nodes s) {n : ℕ} (hn : m.length ≤ n) :
    (Linked.scan next body n m.head? s).1 <+: m ∧
      ((Linked.scan next body n m.head? s).2.2 = true → (Linked.scan next body n m.head? s).1 = m) ∧
      P (Linked.scan next body n m.head? s).2.1 := by
  induction m generalizing s n with
  | nil => cases n <;> exact ⟨List.nil_prefix, fun _ => rfl, hs⟩
  | cons a m ih =>
    cases n with
    | zero => exact absurd hn (Nat.not_succ_le_zero _)
    | succ n =>
      obtain ⟨l₁, hm⟩ := hm
      obtain ⟨ht, hnodes⟩ := hbody hs hm.symm
      have hnext : next s a = m.head? := (hm ▸ hlinked hs).next_eq
      -- the link was read before the node was taken out
      have hrest : m <:+ nodes (body a s).1 := by
        rcases hnodes with hkept | htaken
        · exact hkept ▸ (List.suffix_cons a m).trans (List.suffix_append l₁ _)
        · exact htaken ▸ List.suffix_append l₁ m
      obtain ⟨hpre, hall, hP⟩ := ih ht hrest (Nat.le_of_succ_le_succ hn)
      rw [List.head?_cons, Linked.scan, hnext]
      by_cases hok : (body a s).2 = true
      · rw [if_pos hok]
        exact ⟨List.cons_prefix_cons.mpr ⟨rfl, hpre⟩, fun h => congrArg (a :: ·) (hall h), hP⟩
      · rw [if_neg hok]
        exact ⟨List.cons_prefix_cons.mpr ⟨rfl, List.nil_prefix⟩, fun h => absurd h hok, ht⟩

theorem Linked.scan_ok (h : ∀ a s, (body a s).2 = true) (n : ℕ) (p : Option ι) (s : σ) :
    (Linked.scan next body n p s).2.2 = true := by
  induction n generalizing p s with
  | zero => rfl
  | succ n ih =>
    cases p with
    | none => rfl
    | some a =>
      rw [Linked.scan, if_pos (h a s)]
      exact ih ..

end Scan

/-- No two of the lists have a node in common. -/
def Apart (l : κ → List ι) : Prop := ∀ ⦃k k' : κ⦄ ⦃a : ι⦄, a ∈ l k → a ∈ l k' → k = k'

variable {l : κ → List ι} {k : κ}

theorem Apart.not_mem (h : Apart l) (hm : ∀ a ∈ m, a ∈ l k ∨ ∀ k', a ∉ l k') {k' : κ}
    (hk : k' ≠ k) (ha : a ∈ l k') : a ∉ l k ∧ a ∉ m := by
  have hmem : a ∉ l k := fun hmem => hk (h ha hmem)
  refine ⟨hmem, fun ham => ?_⟩
  rcases hm a ham with hmem' | hnone
  · exact hmem hmem'
  · exact hnone k' ha

/-- One of the lists gets nodes that were in no other. -/
theorem Apart.update [DecidableEq κ] (h : Apart l) (hm : ∀ a ∈ m, a ∈ l k ∨ ∀ k', a ∉ l k') :
    Apart (Function.update l k m) := by
  intro k₁ k₂ a h₁ h₂
  by_cases hk₁ : k₁ = k <;> by_cases hk₂ : k₂ = k
  · exact hk₁.trans hk₂.symm
  · rw [hk₁, Function.update_self] at h₁
    rw [Function.update_of_ne hk₂] at h₂
    exact absurd h₁ (h.not_mem hm hk₂ h₂).2
  · rw [hk₂, Function.update_self] at h₂
    rw [Function.update_of_ne hk₁] at h₁
    exact absurd h₂ (h.not_mem hm hk₁ h₁).2
  · rw [Function.update_of_ne hk₁] at h₁
    rw [Function.update_of_ne hk₂] at h₂
    exact h h₁ h₂

end Linked

/-- Queues that share the links of their nodes. -/
structure LinkQueue (κ ι : Type*) where
  head : κ → Option ι := fun _ => none
  tail : κ → Option ι := fun _ => none
  next : ι → Option ι := fun _ => none

namespace LinkQueue

open Function List

variable {κ ι : Type*} {Q Q' : LinkQueue κ ι} {l : κ → List ι} {k : κ} {a : ι} {m : List ι}

/-- The queues have the nodes `l`, and no node is in two of them. -/
structure Holds (Q : LinkQueue κ ι) (l : κ → List ι) : Prop where
  head : ∀ k, Q.head k = (l k).head?
  tail : ∀ k, Q.tail k = (l k).getLast?
  linked : ∀ k, Linked Q.next (l k)
  nodup : ∀ k, (l k).Nodup
  apart : Apart l
  free : ∀ {a : ι}, (∀ k, a ∉ l k) → Q.next a = none

theorem holds_init : ({} : LinkQueue κ ι).Holds fun _ => [] where
  head _ := rfl
  tail _ := rfl
  linked _ := trivial
  nodup _ := nodup_nil
  apart := nofun
  free _ := rfl

theorem Holds.head_eq_none_iff (h : Q.Holds l) : Q.head k = none ↔ l k = [] := by
  rw [h.head, List.head?_eq_none_iff]

theorem Holds.tail_eq_none_iff (h : Q.Holds l) : Q.tail k = none ↔ l k = [] := by
  rw [h.tail, List.getLast?_eq_none_iff]

/-- A walk from the head visits the nodes of the queue in their order. -/
theorem Holds.walk_eq (h : Q.Holds l) {n : ℕ} (hn : (l k).length ≤ n) :
    Linked.walk Q.next n (Q.head k) = l k := by
  rw [h.head]
  exact (h.linked k).walk_eq hn

/-! ### The operations -/

variable [DecidableEq κ]

/-- An operation on one queue, which changes no links but those of its nodes, keeps the others. -/
theorem Holds.change (h : Q.Holds l) (hhead : Q'.head = Function.update Q.head k m.head?)
    (htail : Q'.tail = Function.update Q.tail k m.getLast?) (hlinked : Linked Q'.next m)
    (hnodup : m.Nodup) (hm : ∀ a ∈ m, a ∈ l k ∨ ∀ k', a ∉ l k')
    (hsame : ∀ b, b ∉ l k → Q'.next b = Q.next b) (hfree : ∀ b ∈ l k, b ∉ m → Q'.next b = none) :
    Q'.Holds (Function.update l k m) := by
  refine ⟨fun k' => ?_, fun k' => ?_, fun k' => ?_, fun k' => ?_, h.apart.update hm, ?_⟩
  case refine_5 =>
    intro b hb
    have hbm : b ∉ m := by
      have := hb k
      rwa [Function.update_self] at this
    by_cases hbk : b ∈ l k
    · exact hfree b hbk hbm
    · rw [hsame b hbk]
      refine h.free fun k' => ?_
      by_cases hk : k' = k
      · rwa [hk]
      · have := hb k'
        rwa [Function.update_of_ne hk] at this
  all_goals by_cases hk : k' = k
  · rw [hhead, hk, Function.update_self, Function.update_self]
  · rw [hhead, Function.update_of_ne hk, Function.update_of_ne hk, h.head]
  · rw [htail, hk, Function.update_self, Function.update_self]
  · rw [htail, Function.update_of_ne hk, Function.update_of_ne hk, h.tail]
  · rwa [hk, Function.update_self]
  · rw [Function.update_of_ne hk]
    exact (h.linked k').congr fun b hb => hsame b (h.apart.not_mem hm hk hb).1
  · rwa [hk, Function.update_self]
  · rw [Function.update_of_ne hk]
    exact h.nodup k'

variable [DecidableEq ι]

/-- A node is put at the end of a queue. -/
def push (Q : LinkQueue κ ι) (k : κ) (a : ι) : LinkQueue κ ι where
  head := if Q.tail k = none then Function.update Q.head k (some a) else Q.head
  tail := Function.update Q.tail k (some a)
  next := match Q.tail k with
    | none => Q.next
    | some b => Function.update Q.next b (some a)

/-- The first node of a queue is taken off, and loses its link. -/
def pop (Q : LinkQueue κ ι) (k : κ) : Option ι × LinkQueue κ ι :=
  match Q.head k with
  | none => (none, Q)
  | some a =>
    (some a,
      { head := Function.update Q.head k (Q.next a)
        tail := if Q.next a = none then Function.update Q.tail k none else Q.tail
        next := Function.update Q.next a none })

theorem next_push_of_ne {b : ι} (hb : b ∉ Q.tail k) : (Q.push k a).next b = Q.next b := by
  rw [push]
  cases htail : Q.tail k with
  | none => rfl
  | some c =>
    refine Function.update_of_ne ?_ ..
    rintro rfl
    exact hb htail

theorem next_push_tail {b : ι} (hb : Q.tail k = some b) : (Q.push k a).next b = some a := by
  rw [push, hb]
  exact Function.update_self ..

/-- Putting a node that is in no queue at the end of one. -/
theorem Holds.push (h : Q.Holds l) (k : κ) (ha : ∀ k', a ∉ l k') :
    (Q.push k a).Holds (Function.update l k (l k ++ [a])) := by
  have hmem : ∀ {b : ι}, b ∈ Q.tail k → b ∈ l k := fun hb =>
    mem_of_getLast? ((h.tail k).symm.trans hb)
  have hnext : (Q.push k a).next a = none :=
    (next_push_of_ne fun hmem' => ha k (hmem hmem')).trans (h.free ha)
  refine h.change ?_ ?_ ?_ ?_ (fun b hb => ?_) (fun b hb => ?_) (fun b hb hbm => ?_)
  · rw [LinkQueue.push]
    dsimp only
    by_cases hnil : l k = []
    · rw [if_pos (h.tail_eq_none_iff.mpr hnil), hnil]
      rfl
    · rw [if_neg (mt h.tail_eq_none_iff.mp hnil), List.head?_append_of_ne_nil _ hnil, ← h.head,
        update_eq_self]
  · rw [List.getLast?_concat]
    rfl
  · rcases eq_nil_or_concat (l k) with hnil | ⟨m, b, hlast⟩
    · rw [hnil]
      exact ⟨hnext, trivial⟩
    · rw [concat_eq_append] at hlast
      have htail : Q.tail k = some b := by rw [h.tail, hlast, List.getLast?_concat]
      have hlinked := h.linked k
      have hnodup := h.nodup k
      rw [hlast] at hlinked hnodup ⊢
      refine hlinked.concat (fun c hc => next_push_of_ne ?_) (next_push_tail htail) hnext
      rw [htail]
      rintro ⟨⟩
      exact (nodup_append.mp hnodup).2.2 b hc b (mem_singleton_self b) rfl
  · exact nodup_append.mpr ⟨h.nodup k, nodup_singleton a,
      fun b hb c hc => mem_singleton.mp hc ▸ ne_of_mem_of_not_mem hb (ha k)⟩
  · rcases mem_append.mp hb with hb | hb
    · exact .inl hb
    · exact .inr (mem_singleton.mp hb ▸ ha)
  · exact next_push_of_ne fun hmem' => hb (hmem hmem')
  · exact absurd (mem_append_left _ hb) hbm

/-- Taking off the first node of a queue. -/
theorem Holds.pop (h : Q.Holds l) (k : κ) : (Q.pop k).1 = (l k).head? ∧
    (∀ a ∈ (Q.pop k).1, (Q.pop k).2.next a = none) ∧
    (Q.pop k).2.Holds (Function.update l k (l k).tail) := by
  cases hl : l k with
  | nil =>
    have hpop : Q.pop k = (none, Q) := by rw [LinkQueue.pop, h.head_eq_none_iff.mpr hl]
    rw [hpop, tail_nil, ← hl, update_eq_self]
    exact ⟨by rw [hl]; rfl, nofun, h⟩
  | cons a m =>
    have hhead : Q.head k = some a := by rw [h.head, hl, List.head?_cons]
    have hlinked := h.linked k
    have hnodup := h.nodup k
    rw [hl] at hlinked hnodup
    have htail : Q.tail k = (a :: m).getLast? := by rw [h.tail, hl]
    rw [LinkQueue.pop, hhead]
    refine ⟨rfl, ?_, h.change ?_ ?_ ?_ ?_ (fun b hb => ?_) (fun b hb => ?_) (fun b hb hbm => ?_)⟩
    · rintro b ⟨⟩
      exact Function.update_self ..
    · dsimp only
      rw [hlinked.1, tail_cons]
    · dsimp only
      rw [hlinked.1, tail_cons]
      cases m with
      | nil => rfl
      | cons b m =>
        rw [if_neg nofun, ← List.getLast?_cons_cons, ← htail, update_eq_self]
    · exact hlinked.2.congr fun b hb => Function.update_of_ne
        (ne_of_mem_of_not_mem hb (nodup_cons.mp hnodup).1) ..
    · exact (nodup_cons.mp hnodup).2
    · exact .inl (hl ▸ List.mem_cons_of_mem a hb)
    · refine Function.update_of_ne ?_ ..
      rintro rfl
      exact hb (hl ▸ List.mem_cons_self)
    · rw [hl] at hb
      rcases mem_cons.mp hb with rfl | hb
      · exact Function.update_self ..
      · exact absurd hb hbm

end LinkQueue
