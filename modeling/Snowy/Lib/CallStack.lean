import Mathlib.Data.List.Nodup
import Mathlib.Data.List.Perm.Subperm
import Mathlib.Data.Set.BooleanAlgebra
import Mathlib.Logic.Function.Basic

/-!
# Call stacks

A machine with any number of call stacks: an activation enters a new one above itself and waits for
it, the uppermost activation of a stack returns to the one below it, and the lowest activation
begins and ends a stack. The same machine is often kept as linked records: every activation has a
pointer to the one that waits for it, and one to the activation that it waits for.

## Main definitions

* `CallStack.Step` : a step of the machine.
* `CallStack.Proper` : no activation is in two places.
* `CallStack.Record`, `CallStack.stacksOf` : linked records, and the stacks that they represent.

## Main results

* `CallStack.Step.proper` : no activation ever gets into two places.
* `CallStack.stacksOf_call`, `CallStack.stacksOf_ret`, `CallStack.stacksOf_spawn`,
  `CallStack.stacksOf_exit` : what an update of the links does to the stacks.
-/

namespace CallStack

open List

variable {F : Type*}

/-- What happens to the stacks: nothing, a stack begins with `r`, the uppermost activation `p`
enters `c`, `c` returns to `p`, or the stack of `r` ends. -/
inductive Event (F : Type*) where
  | idle
  | spawn (r : F)
  | call (c p : F)
  | ret (c p : F)
  | exit (r : F)

/-- A step of the machine. A stack is a list with the uppermost activation first. -/
inductive Step (S : Set (List F)) : Event F → Set (List F) → Prop
  | idle : Step S .idle S
  | spawn {r : F} (hr : ∀ l ∈ S, r ∉ l) : Step S (.spawn r) (insert [r] S)
  | call {c p : F} {l : List F} (hp : p :: l ∈ S) (hc : ∀ m ∈ S, c ∉ m) :
      Step S (.call c p) (insert (c :: p :: l) (S \ {p :: l}))
  | ret {c p : F} {l : List F} (hc : c :: p :: l ∈ S) :
      Step S (.ret c p) (insert (p :: l) (S \ {c :: p :: l}))
  | exit {r : F} (hr : [r] ∈ S) : Step S (.exit r) (S \ {[r]})

/-- No activation is in two stacks, or in two places of one. -/
structure Proper (S : Set (List F)) : Prop where
  nodup : ∀ l ∈ S, l.Nodup
  disjoint : ∀ l ∈ S, ∀ m ∈ S, ∀ f ∈ l, f ∈ m → l = m

/-- Every step keeps the activations apart. -/
theorem Step.proper {S S' : Set (List F)} {e : Event F} (h : Step S e S') (hS : Proper S) :
    Proper S' := by
  obtain ⟨nodup, disjoint⟩ := hS
  cases h with
  | idle => exact ⟨nodup, disjoint⟩
  | @spawn r hr =>
    constructor
    · rintro l (rfl | hl)
      · exact nodup_singleton r
      · exact nodup l hl
    · rintro l (rfl | hl) m (rfl | hm) f hfl hfm
      · rfl
      · rw [mem_singleton.mp hfl] at hfm
        exact absurd hfm (hr m hm)
      · rw [mem_singleton.mp hfm] at hfl
        exact absurd hfl (hr l hl)
      · exact disjoint l hl m hm f hfl hfm
  | @call c p l hp hc =>
    -- a stack that shares an activation with the extended one shares it with what was extended
    have hother : ∀ m ∈ S \ {p :: l}, ∀ f ∈ c :: p :: l, f ∉ m := by
      rintro m ⟨hm, hne⟩ f hf hfm
      rcases mem_cons.mp hf with rfl | hf
      · exact hc m hm hfm
      · exact hne (disjoint m hm _ hp f hfm hf)
    constructor
    · rintro m (rfl | hm)
      · exact nodup_cons.mpr ⟨hc _ hp, nodup _ hp⟩
      · exact nodup m hm.1
    · rintro m (rfl | hm) n (rfl | hn) f hfm hfn
      · rfl
      · exact absurd hfn (hother n hn f hfm)
      · exact absurd hfm (hother m hm f hfn)
      · exact disjoint m hm.1 n hn.1 f hfm hfn
  | @ret c p l hc =>
    have hother : ∀ m ∈ S \ {c :: p :: l}, ∀ f ∈ p :: l, f ∉ m := by
      rintro m ⟨hm, hne⟩ f hf hfm
      exact hne (disjoint m hm _ hc f hfm (mem_cons_of_mem c hf))
    constructor
    · rintro m (rfl | hm)
      · exact (nodup_cons.mp (nodup _ hc)).2
      · exact nodup m hm.1
    · rintro m (rfl | hm) n (rfl | hn) f hfm hfn
      · rfl
      · exact absurd hfn (hother n hn f hfm)
      · exact absurd hfm (hother m hm f hfn)
      · exact disjoint m hm.1 n hn.1 f hfm hfn
  | exit hr =>
    exact ⟨fun l hl => nodup l hl.1, fun l hl m hm => disjoint l hl.1 m hm.1⟩

/-! ### Linked records -/

/-- An activation with its links: the one that waits for it, and the one that it waits for. -/
structure Record (F : Type*) where
  caller : Option F
  callee : Option F
  deriving DecidableEq, Repr

variable {a b : F → Option (Record F)} {c f p r : F} {k l m : List F}

/-- The list `l` has the activations that wait, one for the other, for the activation `c`. -/
def Callers (a : F → Option (Record F)) : F → List F → Prop
  | c, [] => (a c).map Record.caller = some none
  | c, p :: l => (a c).map Record.caller = some (some p) ∧ (a p).bind Record.callee = some c ∧
      Callers a p l

/-- The stacks that the records represent: an activation that waits for none, and its callers. -/
def stacksOf (a : F → Option (Record F)) : Set (List F) :=
  {s | ∃ c l, s = c :: l ∧ (a c).map Record.callee = some none ∧ Callers a c l}

/-- Every activation is above the lowest activation of a stack. -/
def Grounded (a : F → Option (Record F)) : Prop := ∀ f, (a f).isSome → ∃ l, Callers a f l

theorem cons_mem_stacksOf :
    c :: l ∈ stacksOf a ↔ (a c).map Record.callee = some none ∧ Callers a c l := by
  constructor
  · rintro ⟨c', l', h, hc, hl⟩
    cases h
    exact ⟨hc, hl⟩
  · exact fun ⟨hc, hl⟩ => ⟨c, l, rfl, hc, hl⟩

/-- A caller waits for an activation, and this one is in the list as well or is where it begins. -/
theorem Callers.callee (h : Callers a c l) (hp : p ∈ l) :
    ∃ d ∈ c :: l, (a p).bind Record.callee = some d := by
  induction l generalizing c with
  | nil => cases hp
  | cons q l ih =>
    obtain ⟨-, hq, hl⟩ := h
    rcases mem_cons.mp hp with rfl | hp
    · exact ⟨c, mem_cons_self, hq⟩
    · obtain ⟨d, hd, hpd⟩ := ih hl hp
      exact ⟨d, mem_cons_of_mem c hd, hpd⟩

/-- The callers are determined. -/
theorem Callers.unique (hl : Callers a c l) (hm : Callers a c m) : l = m := by
  induction l generalizing c m with
  | nil =>
    cases m with
    | nil => rfl
    | cons q m => exact absurd (hl.symm.trans hm.1) (by simp)
  | cons p l ih =>
    cases m with
    | nil => exact absurd (hl.1.symm.trans hm) (by simp)
    | cons q m =>
      have hpq : p = q := by simpa using hl.1.symm.trans hm.1
      subst hpq
      rw [ih hl.2.2 hm.2.2]

/-- The callers depend on their own records, and on who calls where they begin. -/
theorem Callers.congr (h : Callers a c l) (hc : (b c).map Record.caller = (a c).map Record.caller)
    (hl : ∀ p ∈ l, b p = a p) : Callers b c l := by
  induction l generalizing c with
  | nil => exact hc.trans h
  | cons p l ih =>
    obtain ⟨h₁, h₂, h₃⟩ := h
    have hp : b p = a p := hl p mem_cons_self
    exact ⟨hc.trans h₁, by rw [hp, h₂],
      ih h₃ (by rw [hp]) fun q hq => hl q (mem_cons_of_mem p hq)⟩

/-- An activation that waits for none calls nobody. -/
theorem Callers.not_mem (h : Callers a c l) (hp : (a p).bind Record.callee = none) : p ∉ l := by
  intro hmem
  obtain ⟨d, -, hd⟩ := h.callee hmem
  rw [hp] at hd
  cases hd

/-- The lowest activation is the one that nobody calls. -/
theorem Callers.getLast?_eq_some (h : Callers a c l) (hf : f ∈ c :: l) :
    (c :: l).getLast? = some f ↔ (a f).map Record.caller = some none := by
  induction l generalizing c with
  | nil =>
    obtain rfl := mem_singleton.mp hf
    exact iff_of_true rfl h
  | cons p l ih =>
    obtain ⟨hc, -, hl⟩ := h
    rw [List.getLast?_cons_cons]
    rcases mem_cons.mp hf with rfl | hf
    · refine iff_of_false (fun hlast => ?_) (by rw [hc]; simp)
      have hmem := mem_of_getLast? hlast
      rw [ih hl hmem, hc] at hlast
      simp at hlast
    · exact ih hl hf

section Call

variable {x : Option F} (ha : a p = some { caller := x, callee := none }) (hc : a c = none)
  (hp : b p = some { caller := x, callee := some c })
  (hb : b c = some { caller := some p, callee := none })
  (ho : ∀ f, f ≠ p → f ≠ c → b f = a f)

include ha hc hp ho

theorem callers_of_call (h : Callers a f l) (hf : f ≠ c) : Callers b f l := by
  refine h.congr ?_ fun q hq => ho q ?_ ?_
  · by_cases hfp : f = p
    · rw [hfp, hp, ha]; rfl
    · rw [ho f hfp hf]
  · rintro rfl
    exact h.not_mem (by rw [ha]; rfl) hq
  · rintro rfl
    exact h.not_mem (by rw [hc]; rfl) hq

include hb

/-- The callers of an activation other than the one that was entered were there before. -/
theorem callers_before_call (h : Callers b f l) (hf : f ≠ c) : Callers a f l := by
  have hcl : c ∉ l := h.not_mem (by rw [hb]; rfl)
  have hpl : p ∉ l := fun hmem => by
    -- `p` waits for `c`, which is not in `f :: l`
    obtain ⟨d, hd, hpd⟩ := h.callee hmem
    rw [hp] at hpd
    cases hpd
    rcases mem_cons.mp hd with rfl | hd
    · exact hf rfl
    · exact hcl hd
  refine h.congr ?_ fun q hq => (ho q ?_ ?_).symm
  · by_cases hfp : f = p
    · rw [hfp, hp, ha]; rfl
    · rw [ho f hfp hf]
  · rintro rfl; exact hpl hq
  · rintro rfl; exact hcl hq

/-- **A call.** -/
theorem stacksOf_call (hl : p :: l ∈ stacksOf a) :
    stacksOf b = insert (c :: p :: l) (stacksOf a \ {p :: l}) := by
  have hl := (cons_mem_stacksOf.mp hl).2
  have hpc : p ≠ c := by
    rintro rfl
    rw [ha] at hc
    cases hc
  ext s
  constructor
  · rintro ⟨d, m, rfl, hd, hm⟩
    by_cases hdc : d = c
    · subst hdc
      cases m with
      | nil => exact absurd hm (by simp [Callers, hb])
      | cons q m =>
        obtain ⟨h₁, -, h₃⟩ := hm
        have hq : p = q := by simpa [hb] using h₁
        subst hq
        rw [hl.unique (callers_before_call ha hc hp hb ho h₃ hpc)]
        exact Set.mem_insert _ _
    · have hdp : d ≠ p := by
        rintro rfl
        rw [hp] at hd
        cases hd
      refine Set.mem_insert_of_mem _ ⟨cons_mem_stacksOf.mpr ⟨?_, ?_⟩, ?_⟩
      · rw [← ho d hdp hdc, hd]
      · exact callers_before_call ha hc hp hb ho hm hdc
      · simp [hdp]
  · rintro (rfl | ⟨⟨d, m, rfl, hd, hm⟩, hne⟩)
    · refine cons_mem_stacksOf.mpr ⟨by rw [hb]; rfl, by rw [hb]; rfl, by rw [hp]; rfl, ?_⟩
      exact callers_of_call ha hc hp ho hl hpc
    · have hdc : d ≠ c := by
        rintro rfl
        rw [hc] at hd
        cases hd
      have hdp : d ≠ p := by
        rintro rfl
        exact hne (by rw [hl.unique hm]; rfl)
      refine cons_mem_stacksOf.mpr ⟨by rw [ho d hdp hdc, hd], ?_⟩
      exact callers_of_call ha hc hp ho hm hdc

/-- **A return**, which is a call read backwards. -/
theorem stacksOf_ret (hl : p :: l ∈ stacksOf a) :
    c :: p :: l ∈ stacksOf b ∧ stacksOf a = insert (p :: l) (stacksOf b \ {c :: p :: l}) := by
  have hcall := stacksOf_call ha hc hp hb ho hl
  have hno : c :: p :: l ∉ stacksOf a := fun h => by
    have := (cons_mem_stacksOf.mp h).1
    rw [hc] at this
    cases this
  rw [hcall]
  refine ⟨Set.mem_insert _ _, ?_⟩
  rw [Set.insert_sdiff_self_of_notMem fun h => hno h.1, Set.insert_sdiff_singleton,
    Set.insert_eq_of_mem hl]

theorem grounded_call (h : Grounded a) : Grounded b := by
  have hpc : p ≠ c := by
    rintro rfl
    rw [ha] at hc
    cases hc
  intro f hf
  by_cases hfc : f = c
  · subst hfc
    obtain ⟨l, hl⟩ := h p (by rw [ha]; rfl)
    exact ⟨p :: l, by rw [hb]; rfl, by rw [hp]; rfl, callers_of_call ha hc hp ho hl hpc⟩
  · have hfa : (a f).isSome := by
      by_cases hfp : f = p
      · rw [hfp, ha]; rfl
      · rwa [← ho f hfp hfc]
    obtain ⟨l, hl⟩ := h f hfa
    exact ⟨l, callers_of_call ha hc hp ho hl hfc⟩

theorem grounded_ret (h : Grounded b) : Grounded a := by
  intro f hf
  have hfc : f ≠ c := by
    rintro rfl
    rw [hc] at hf
    cases hf
  have hfb : (b f).isSome := by
    by_cases hfp : f = p
    · rw [hfp, hp]; rfl
    · rwa [ho f hfp hfc]
  obtain ⟨l, hl⟩ := h f hfb
  exact ⟨l, callers_before_call ha hc hp hb ho hl hfc⟩

end Call

section Spawn

variable (ha : a r = none) (hb : b r = some { caller := none, callee := none })
  (ho : ∀ f, f ≠ r → b f = a f)

include ha hb ho

theorem callers_spawn (hf : f ≠ r) : Callers b f l ↔ Callers a f l := by
  constructor <;> intro h <;> refine h.congr (by rw [ho f hf]) fun q hq => ?_
  · refine (ho q ?_).symm
    rintro rfl
    exact h.not_mem (by rw [hb]; rfl) hq
  · refine ho q ?_
    rintro rfl
    exact h.not_mem (by rw [ha]; rfl) hq

/-- **The beginning of a stack.** -/
theorem stacksOf_spawn : stacksOf b = insert [r] (stacksOf a) := by
  ext s
  constructor
  · rintro ⟨d, m, rfl, hd, hm⟩
    by_cases hdr : d = r
    · subst hdr
      cases m with
      | nil => exact Set.mem_insert _ _
      | cons q m => exact absurd hm.1 (by simp [hb])
    · refine Set.mem_insert_of_mem _ (cons_mem_stacksOf.mpr ⟨?_, ?_⟩)
      · rw [← ho d hdr, hd]
      · exact (callers_spawn ha hb ho hdr).mp hm
  · rintro (rfl | ⟨d, m, rfl, hd, hm⟩)
    · exact cons_mem_stacksOf.mpr ⟨by rw [hb]; rfl, by simp [Callers, hb]⟩
    · have hdr : d ≠ r := by
        rintro rfl
        rw [ha] at hd
        cases hd
      exact cons_mem_stacksOf.mpr ⟨by rw [ho d hdr, hd], (callers_spawn ha hb ho hdr).mpr hm⟩

/-- **The end of a stack**, which is its beginning read backwards. -/
theorem stacksOf_exit : [r] ∈ stacksOf b ∧ stacksOf a = stacksOf b \ {[r]} := by
  have hno : [r] ∉ stacksOf a := fun h => by
    have := (cons_mem_stacksOf.mp h).1
    rw [ha] at this
    cases this
  rw [stacksOf_spawn ha hb ho]
  exact ⟨Set.mem_insert _ _, (Set.insert_sdiff_self_of_notMem hno).symm⟩

theorem grounded_spawn (h : Grounded a) : Grounded b := by
  intro f hf
  by_cases hfr : f = r
  · exact ⟨[], by rw [hfr]; simp [Callers, hb]⟩
  · obtain ⟨l, hl⟩ := h f (by rwa [← ho f hfr])
    exact ⟨l, (callers_spawn ha hb ho hfr).mpr hl⟩

theorem grounded_exit (h : Grounded b) : Grounded a := by
  intro f hf
  have hfr : f ≠ r := by
    rintro rfl
    rw [ha] at hf
    cases hf
  obtain ⟨l, hl⟩ := h f (by rwa [ho f hfr])
  exact ⟨l, (callers_spawn ha hb ho hfr).mp hl⟩

end Spawn

/-- An activation that does not exist is in no stack. -/
theorem not_mem_of_none (hc : a c = none) : ∀ l ∈ stacksOf a, c ∉ l := by
  rintro _ ⟨d, m, rfl, hd, hm⟩ hmem
  rcases mem_cons.mp hmem with rfl | hmem
  · rw [hc] at hd
    cases hd
  · exact hm.not_mem (by rw [hc]; rfl) hmem

/-- Below every caller are its own callers. -/
theorem Callers.exists_of_mem (h : Callers a c l) (hp : p ∈ l) :
    ∃ m, Callers a p m ∧ m.length < l.length := by
  induction l generalizing c with
  | nil => cases hp
  | cons q l ih =>
    rcases mem_cons.mp hp with rfl | hp
    · exact ⟨l, h.2.2, Nat.lt_succ_self _⟩
    · obtain ⟨m, hm, hlt⟩ := ih h.2.2 hp
      exact ⟨m, hm, Nat.lt_succ_of_lt hlt⟩

/-- No activation waits for itself. -/
theorem Callers.nodup (h : Callers a c l) : (c :: l).Nodup := by
  induction l generalizing c with
  | nil => exact nodup_singleton c
  | cons p l ih =>
    refine nodup_cons.mpr ⟨fun hmem => ?_, ih h.2.2⟩
    obtain ⟨m, hm, hlt⟩ := h.exists_of_mem hmem
    rw [h.unique hm] at hlt
    exact Nat.lt_irrefl _ hlt

/-- If there are finitely many activations and every one that waits is known to the one it waits
for, then every activation is in a stack. -/
theorem Grounded.exists_stack (h : Grounded a) {s : List F} (hs : ∀ f, (a f).isSome → f ∈ s)
    (hw : ∀ p c, (a p).bind Record.callee = some c →
      (a c).map Record.caller = some (some p)) (hf : (a f).isSome) : ∃ l ∈ stacksOf a, f ∈ l := by
  obtain ⟨l, hl⟩ := h f hf
  -- the stack grows upwards from `f`, and there is no room for more than all activations
  suffices ∀ n c k, s.length < k.length + n → Callers a c k → (a c).isSome →
      ∃ m ∈ stacksOf a, c ∈ m ∧ ∀ q ∈ k, q ∈ m by
    obtain ⟨m, hm, hfm, -⟩ := this (s.length + 1) f l (by omega) hl hf
    exact ⟨m, hm, hfm⟩
  intro n
  induction n with
  | zero =>
    intro c k hlen hk hc
    have hsub : (c :: k) ⊆ s := by
      intro q hq
      refine hs q ?_
      rcases mem_cons.mp hq with rfl | hq
      · exact hc
      · obtain ⟨d, -, hd⟩ := hk.callee hq
        cases hq : a q with
        | none => rw [hq] at hd; cases hd
        | some _ => rfl
    have := (hk.nodup.subperm hsub).length_le
    simp only [length_cons] at this
    omega
  | succ n ih =>
    intro c k hlen hk hc
    cases hcallee : (a c).bind Record.callee with
    | none =>
      refine ⟨c :: k, cons_mem_stacksOf.mpr ⟨?_, hk⟩, mem_cons_self, fun q hq =>
        mem_cons_of_mem c hq⟩
      obtain ⟨q, hq⟩ := Option.isSome_iff_exists.mp hc
      rw [hq] at hcallee ⊢
      exact congrArg some hcallee
    | some d =>
      have hd := hw c d hcallee
      obtain ⟨m, hm, -, hmem⟩ := ih d (c :: k) (by simp only [length_cons]; omega)
        ⟨hd, hcallee, hk⟩ (by cases hq : a d <;> simp_all)
      exact ⟨m, hm, hmem c mem_cons_self, fun q hq => hmem q (mem_cons_of_mem c hq)⟩

end CallStack
