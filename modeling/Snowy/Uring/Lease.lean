import Mathlib.Data.List.Perm.Subperm
import Snowy.Lib.Threaded
import Snowy.Uring.Provided

/-!
# Leases of provided buffers

Every buffer is in one of three places: in the ring of the kernel, in a bundle that the kernel has
selected and that was not decoded yet, or leased to a chunk. The invariant says this with `held_`
and `leases_`, and it says that the array `next_` links the buffers of the ring, and those of each
bundle, in the order of their publication: publishing a buffer overwrites the link of the buffer
published before it, which is the last one of its list wherever it is.

This file has the invariant, and shows that the members of `chunk` keep it.

## Main definitions

* `Snowy.Provided.Accounts` : every buffer is free or held.
* `Snowy.Provided.Handles` : every buffer that is held is leased to one chunk.
* `Snowy.Provided.Frame.Sound` : what a call of `each` has done.
* `Snowy.Provided.Sound` : the invariant.

## Main results

* `Snowy.Provided.Sound.put` : publishing a buffer keeps the invariant.
* `Snowy.Provided.Sound.destroy`, `Sound.moveInto`, `Sound.moveAssign` : the members of `chunk`.
-/

namespace Snowy.Provided

open Function List

/-! ### Flags -/

@[simp]
theorem idOf_withId (flags id : ℕ) : idOf (withId flags id) = id := by
  have hlow : (flags &&& 0xffff) >>> 16 = 0 := by
    rw [Nat.shiftRight_eq_div_pow]
    exact Nat.div_eq_of_lt (Nat.lt_of_le_of_lt Nat.and_le_right (by decide))
  rw [idOf, withId, Nat.shiftRight_or_distrib, hlow, Nat.shiftLeft_shiftRight, Nat.zero_or]

@[simp]
theorem testBit_withId (flags id : ℕ) : (withId flags id).testBit 0 = flags.testBit 0 := by
  have hmask : (0xffff : ℕ).testBit 0 = true := by decide
  rw [withId, Nat.testBit_or, Nat.testBit_and, hmask]
  simp

theorem toShort_of_lt {n : ℕ} (h : n < 65536) : toShort n = n := Nat.mod_eq_of_lt h

/-! ### Buffers -/

/-- Every buffer is either free, that is published or selected by the kernel, or held; `free` lists
the former. -/
structure Accounts (cfg : Config) (free : List ℕ) (held : ℕ → Bool) (leases : ℕ) : Prop where
  lt : ∀ id ∈ free, id < cfg.count
  nodup : free.Nodup
  held : ∀ id < cfg.count, held id = true ↔ id ∉ free
  leases : leases + free.length = cfg.count

namespace Accounts

variable {cfg : Config} {free free' : List ℕ} {held : ℕ → Bool} {leases id : ℕ}

theorem perm (h : Accounts cfg free held leases) (hp : free.Perm free') :
    Accounts cfg free' held leases where
  lt id hid := h.lt id (hp.mem_iff.mpr hid)
  nodup := hp.nodup_iff.mp h.nodup
  held id hid := (h.held id hid).trans (not_congr hp.mem_iff)
  leases := hp.length_eq ▸ h.leases

/-- A free buffer is lent. -/
theorem lend (h : Accounts cfg (id :: free) held leases) :
    Accounts cfg free (update held id true) (leases + 1) where
  lt j hj := h.lt j (mem_cons_of_mem id hj)
  nodup := (nodup_cons.mp h.nodup).2
  held j hj := by
    by_cases hji : j = id
    · subst hji
      rw [update_self]
      exact ⟨fun _ => (nodup_cons.mp h.nodup).1, fun _ => rfl⟩
    · rw [update_of_ne hji, h.held j hj, mem_cons]
      exact not_congr ⟨fun hm => hm.resolve_left hji, .inr⟩
  leases := by
    have := h.leases
    rw [length_cons] at this
    omega

/-- A held buffer is returned. -/
theorem giveBack (h : Accounts cfg free held leases) (hlt : id < cfg.count)
    (hheld : held id = true) : Accounts cfg (id :: free) (update held id false) (leases - 1) where
  lt j hj := by
    rcases mem_cons.mp hj with rfl | hj
    · exact hlt
    · exact h.lt j hj
  nodup := nodup_cons.mpr ⟨(h.held id hlt).mp hheld, h.nodup⟩
  held j hj := by
    by_cases hji : j = id
    · subst hji
      simp
    · rw [update_of_ne hji, h.held j hj, mem_cons]
      exact not_congr ⟨.inr, fun hm => hm.resolve_left hji⟩
  leases := by
    -- the free buffers and the returned one are different, so they are not more than all
    have hnodup : (id :: free).Nodup := nodup_cons.mpr ⟨(h.held id hlt).mp hheld, h.nodup⟩
    have hsub : id :: free ⊆ List.range cfg.count := by
      intro j hj
      rcases mem_cons.mp hj with rfl | hj
      · exact mem_range.mpr hlt
      · exact mem_range.mpr (h.lt j hj)
    have hle := (subperm_of_subset hnodup hsub).length_le
    have hsum := h.leases
    rw [length_range, length_cons] at hle
    rw [length_cons]
    omega

/-- `leases_` is the number of buffers that are held. -/
theorem leases_eq (h : Accounts cfg free held leases) :
    leases = (List.range cfg.count).countP held := by
  have hfree : ((List.range cfg.count).filter fun id => !held id).Perm free := by
    refine (perm_ext_iff_of_nodup (nodup_range.filter _) h.nodup).mpr fun id => ?_
    rw [mem_filter, mem_range]
    constructor
    · rintro ⟨hlt, hnot⟩
      by_contra hid
      rw [(h.held id hlt).mpr hid] at hnot
      exact nomatch hnot
    · intro hid
      have hlt := h.lt id hid
      refine ⟨hlt, ?_⟩
      rw [Bool.not_eq_true', ← Bool.not_eq_true]
      exact fun hheld => (h.held id hlt).mp hheld hid
  have hcount := (List.range cfg.count).length_eq_countP_add_countP held
  have hsum := h.leases
  have hlen := hfree.length_eq
  rw [← countP_eq_length_filter] at hlen
  rw [length_range] at hcount
  simp only [Bool.not_eq_true, Bool.decide_eq_false] at hcount
  omega

end Accounts

/-! ### Chunks -/

/-- The variable `v` is a chunk with the lease of the buffer `id`. -/
def State.Owns (s : State) (v id : ℕ) : Prop := ∃ c, s.chunk v = some c ∧ c.owner = true ∧ c.id = id

/-- Each buffer that is held is leased to exactly one chunk. -/
structure Handles (cfg : Config) (s : State) : Prop where
  owned : ∀ v id, s.Owns v id → id < cfg.count ∧ s.held id = true
  unique : ∀ v w id, s.Owns v id → s.Owns w id → v = w
  leased : ∀ id < cfg.count, s.held id = true → ∃ v, s.Owns v id

namespace Handles

variable {cfg : Config} {s t : State} {v w id : ℕ}

theorem congr (h : Handles cfg s) (hheld : t.held = s.held)
    (howns : ∀ x j, t.Owns x j ↔ s.Owns x j) : Handles cfg t where
  owned x j hx := hheld ▸ h.owned x j ((howns x j).mp hx)
  unique x y j hx hy := h.unique x y j ((howns x j).mp hx) ((howns y j).mp hy)
  leased j hj hheld' := by
    obtain ⟨x, hx⟩ := h.leased j hj (hheld ▸ hheld')
    exact ⟨x, (howns x j).mpr hx⟩

/-- A buffer that was not held is leased to a variable. -/
theorem lend (h : Handles cfg s) (hlt : id < cfg.count) (hfree : s.held id = false)
    (hheld : t.held = update s.held id true)
    (howns : ∀ x j, t.Owns x j ↔ x = v ∧ j = id ∨ x ≠ v ∧ s.Owns x j) (hv : ∀ j, ¬s.Owns v j) :
    Handles cfg t where
  owned x j hx := by
    rcases (howns x j).mp hx with ⟨rfl, rfl⟩ | ⟨-, hx⟩
    · exact ⟨hlt, by rw [hheld, update_self]⟩
    · obtain ⟨hj, hj'⟩ := h.owned x j hx
      refine ⟨hj, ?_⟩
      rw [hheld]
      by_cases hji : j = id
      · rw [hji, update_self]
      · rw [update_of_ne hji, hj']
  unique x y j hx hy := by
    have hne : ∀ z, s.Owns z j → j ≠ id := by
      rintro z hz rfl
      exact Bool.false_ne_true (hfree.symm.trans (h.owned z j hz).2)
    rcases (howns x j).mp hx with ⟨rfl, hj⟩ | ⟨-, hx⟩
    · rcases (howns y j).mp hy with ⟨rfl, -⟩ | ⟨-, hy⟩
      · rfl
      · exact absurd hj (hne y hy)
    · rcases (howns y j).mp hy with ⟨rfl, hj⟩ | ⟨-, hy⟩
      · exact absurd hj (hne x hx)
      · exact h.unique x y j hx hy
  leased j hj hj' := by
    by_cases hji : j = id
    · exact ⟨v, (howns v j).mpr (.inl ⟨rfl, hji⟩)⟩
    · rw [hheld, update_of_ne hji] at hj'
      obtain ⟨x, hx⟩ := h.leased j hj hj'
      refine ⟨x, (howns x j).mpr (.inr ⟨?_, hx⟩)⟩
      rintro rfl
      exact hv j hx

/-- The lease of a variable is returned. -/
theorem giveBack (h : Handles cfg s) (hv : s.Owns v id) (hheld : t.held = update s.held id false)
    (howns : ∀ x j, t.Owns x j ↔ x ≠ v ∧ s.Owns x j) : Handles cfg t where
  owned x j hx := by
    obtain ⟨hne, hx⟩ := (howns x j).mp hx
    obtain ⟨hj, hj'⟩ := h.owned x j hx
    refine ⟨hj, ?_⟩
    rw [hheld, update_of_ne, hj']
    rintro rfl
    exact hne (h.unique x v j hx hv)
  unique x y j hx hy := h.unique x y j ((howns x j).mp hx).2 ((howns y j).mp hy).2
  leased j hj hj' := by
    have hji : j ≠ id := by
      rintro rfl
      rw [hheld, update_self] at hj'
      exact nomatch hj'
    rw [hheld, update_of_ne hji] at hj'
    obtain ⟨x, hx⟩ := h.leased j hj hj'
    refine ⟨x, (howns x j).mpr ⟨?_, hx⟩⟩
    rintro rfl
    obtain ⟨c, hc, -, rfl⟩ := hx
    obtain ⟨d, hd, -, rfl⟩ := hv
    rw [Option.some.inj (hc.symm.trans hd)] at hji
    exact hji rfl

/-- The lease of a variable is moved to one that has none. -/
theorem move (h : Handles cfg s) (hheld : t.held = s.held) (hv : ∀ j, ¬s.Owns v j)
    (howns : ∀ x j, t.Owns x j ↔ x = v ∧ s.Owns w j ∨ x ≠ v ∧ x ≠ w ∧ s.Owns x j) :
    Handles cfg t where
  owned x j hx := by
    rw [hheld]
    rcases (howns x j).mp hx with ⟨-, hw⟩ | ⟨-, -, hx⟩
    · exact h.owned w j hw
    · exact h.owned x j hx
  unique x y j hx hy := by
    rcases (howns x j).mp hx with ⟨rfl, hw⟩ | ⟨-, hxw, hx⟩
    · rcases (howns y j).mp hy with ⟨rfl, -⟩ | ⟨-, hyw, hy⟩
      · rfl
      · exact absurd (h.unique y w j hy hw) hyw
    · rcases (howns y j).mp hy with ⟨rfl, hw⟩ | ⟨-, -, hy⟩
      · exact absurd (h.unique x w j hx hw) hxw
      · exact h.unique x y j hx hy
  leased j hj hj' := by
    obtain ⟨x, hx⟩ := h.leased j hj (hheld ▸ hj')
    by_cases hxw : x = w
    · exact ⟨v, (howns v j).mpr (.inl ⟨rfl, hxw ▸ hx⟩)⟩
    · refine ⟨x, (howns x j).mpr (.inr ⟨?_, hxw, hx⟩)⟩
      rintro rfl
      exact hv j hx

end Handles

/-! ### Bundles -/

/-- The buffers of a CQE hold its bytes, all but the last one filled, and its flags name the
first. -/
structure Cqe.Sound (cfg : Config) (e : Cqe) : Prop where
  buffer : e.flags.testBit 0 = true
  first : e.ids.head? = some (idOf e.flags)
  filled : (e.ids.length - 1) * cfg.size < e.size ∧ e.size ≤ e.ids.length * cfg.size ∨
    e.ids.length = 1 ∧ e.size = 0

/-- The bytes fill the given number of buffers, except the last one. -/
def Fits (cfg : Config) (n size : ℕ) : Prop :=
  size ≤ n * cfg.size ∧ (2 ≤ n → (n - 1) * cfg.size < size)

/-- The buffers of its bundle that a call of `each` has not taken. -/
def Frame.rest (f : Frame) : List ℕ :=
  match f.stage with
  | .head => f.cqe.ids.drop f.i
  | .call .. => f.cqe.ids.drop (f.i + 1)

/-- What a call of `each` has done, and what it is going to do. -/
structure Frame.Sound (cfg : Config) (published : List ℕ) (f : Frame) : Prop where
  buffer : f.flags.testBit 0 = true
  cqe : f.cqe.Sound cfg
  parts : f.parts = f.cqe.ids.length
  visited : f.visited.map Visit.id = f.cqe.ids.take f.i
  full : ∀ j x, f.visited[j]? = some x → j + 1 < f.parts → x.bytes = cfg.size
  returned : ∀ x ∈ f.visited, x.called = true ∧ x.kept = true ∨ x.id ∈ published.drop x.since
  place : match f.stage with
    | .head => f.i ≤ f.parts ∧ (f.i < f.parts → f.cqe.ids[f.i]? = some f.id) ∧
        Fits cfg (f.parts - f.i) f.size ∧ (f.visited.map Visit.bytes).sum + f.size = f.cqe.size
    | .call _ next bytes since => f.i < f.parts ∧ f.cqe.ids[f.i]? = some f.id ∧
        (∀ y, f.cqe.ids[f.i + 1]? = some y → next = y) ∧
        (f.i + 1 < f.parts → bytes = cfg.size) ∧ Fits cfg (f.parts - (f.i + 1)) f.size ∧
        (f.visited.map Visit.bytes).sum + bytes + f.size = f.cqe.size ∧ since ≤ published.length

/-- The bundles that were selected and not decoded. -/
def State.bundles (s : State) : List (List ℕ) := s.cqes.map Cqe.ids ++ s.frames.map Frame.rest

/-- The buffers that are published, or selected by a CQE that was not decoded. -/
def State.free (s : State) : List ℕ := s.ring ++ s.bundles.flatten

/-- The invariant. -/
structure Sound (cfg : Config) (s : State) : Prop where
  accounts : Accounts cfg s.free s.held s.leases
  handles : Handles cfg s
  ring : Threaded s.next s.tail s.ring
  bundle : ∀ l ∈ s.bundles, Threaded s.next s.tail l
  last : ∀ z ∈ s.ring.getLast?, z = s.tail
  published : s.published = s.consumed ++ s.ring
  cqe : ∀ e ∈ s.cqes, e.Sound cfg
  frame : ∀ f ∈ s.frames, f.Sound cfg s.published
  ended : ∀ f ∈ s.ended, f.Sound cfg s.published ∧ f.stage = .head ∧ f.i = f.parts
  faults : s.faults = []

variable {cfg : Config} {s t : State}

/-! ### Sizes -/

theorem Fits.eq_zero {size : ℕ} (h : Fits cfg 0 size) : size = 0 := by
  have := h.1
  omega

/-- A buffer is taken off a bundle: it is full unless it is the last one. -/
theorem Fits.step {n size : ℕ} (h : Fits cfg (n + 1) size) :
    Fits cfg n (size - min size cfg.size) ∧ (0 < n → min size cfg.size = cfg.size) := by
  obtain ⟨hle, hlt⟩ := h
  rw [Nat.add_mul, Nat.one_mul] at hle
  have hmul : ∀ m, 0 < m → m * cfg.size = (m - 1) * cfg.size + cfg.size := by
    intro m hm
    obtain ⟨k, rfl⟩ := Nat.exists_eq_add_of_lt hm
    rw [Nat.zero_add, Nat.add_sub_cancel, Nat.add_mul, Nat.one_mul]
  have hfull : 0 < n → cfg.size < size := by
    intro hn
    have hlt := hlt (by omega)
    rw [Nat.add_sub_cancel, hmul n hn] at hlt
    omega
  refine ⟨⟨by omega, fun hn => ?_⟩, fun hn => Nat.min_eq_right (hfull hn).le⟩
  have hlt := hlt (by omega)
  rw [Nat.add_sub_cancel, hmul n (by omega)] at hlt
  rw [Nat.min_eq_right (hfull (by omega)).le]
  omega

theorem Cqe.Sound.fits {e : Cqe} (h : e.Sound cfg) : Fits cfg e.ids.length e.size := by
  rcases h.filled with ⟨hlt, hle⟩ | ⟨hone, hzero⟩
  · exact ⟨hle, fun _ => hlt⟩
  · rw [hone, hzero]
    exact ⟨Nat.zero_le _, fun h => absurd h (by decide)⟩

theorem Cqe.Sound.ids_pos {e : Cqe} (h : e.Sound cfg) : 0 < e.ids.length :=
  length_pos_iff.mpr fun hnil => nomatch (hnil ▸ h.first : List.head? [] = some (idOf e.flags))

/-- `each` computes the number of buffers that the kernel has used. -/
theorem Cqe.Sound.parts_eq {e : Cqe} (h : e.Sound cfg) : cfg.parts e.size = e.ids.length := by
  have hpos := h.ids_pos
  unfold Config.parts
  rcases h.filled with ⟨hlt, hle⟩ | ⟨hone, hzero⟩
  · have hne : e.size ≠ 0 := by omega
    rw [if_pos hne, Nat.div_eq_of_lt_le (k := e.ids.length - 1)]
    · omega
    · omega
    · have hsucc : e.ids.length - 1 + 1 = e.ids.length := by omega
      rw [hsucc]
      omega
  · rw [if_neg (by omega), hone]

/-! ### Publications -/

/-- The publications are a growing history. -/
theorem Frame.Sound.mono {f : Frame} {published : List ℕ} (h : f.Sound cfg published)
    (later : List ℕ) : f.Sound cfg (published ++ later) := by
  refine { h with returned := fun x hx => (h.returned x hx).imp_right fun hx => ?_, place := ?_ }
  · rw [drop_append]
    exact mem_append_left _ hx
  · have hplace := h.place
    split at hplace
    · exact hplace
    · obtain ⟨h₁, h₂, h₃, h₄, h₅, h₆, h₇⟩ := hplace
      refine ⟨h₁, h₂, h₃, h₄, h₅, h₆, ?_⟩
      rw [length_append]
      omega

theorem free_put (id : ℕ) : (id :: s.free).Perm (s.put id).free := by
  change (id :: (s.ring ++ s.bundles.flatten)).Perm (s.ring ++ [id] ++ s.bundles.flatten)
  rw [append_assoc]
  exact perm_middle.symm

/-- A buffer that is held is not free. -/
theorem Sound.not_mem_free (hs : Sound cfg s) {id : ℕ} (hlt : id < cfg.count)
    (hheld : s.held id = true) : id ∉ s.free := (hs.accounts.held id hlt).mp hheld

@[simp]
theorem chunk_setChunk_self (v : ℕ) (c : Option Chunk) : (s.setChunk v c).chunk v = c :=
  update_self ..

theorem chunk_setChunk_of_ne {v w : ℕ} (c : Option Chunk) (h : w ≠ v) :
    (s.setChunk v c).chunk w = s.chunk w := update_of_ne h ..

theorem owns_setChunk_self {v id : ℕ} {c : Option Chunk} :
    (s.setChunk v c).Owns v id ↔ ∃ d, c = some d ∧ d.owner = true ∧ d.id = id := by
  rw [State.Owns, chunk_setChunk_self]

theorem owns_setChunk_of_ne {v w id : ℕ} {c : Option Chunk} (h : w ≠ v) :
    (s.setChunk v c).Owns w id ↔ s.Owns w id := by
  rw [State.Owns, chunk_setChunk_of_ne c h, State.Owns]

/-- A variable that has no lease can be overwritten by one without a lease. -/
theorem owns_setChunk {v : ℕ} {c : Option Chunk} (hv : ∀ j, ¬s.Owns v j)
    (hc : ∀ d, c = some d → d.owner = false) (x j : ℕ) :
    (s.setChunk v c).Owns x j ↔ s.Owns x j := by
  by_cases hx : x = v
  · subst hx
    refine ⟨fun h => ?_, fun h => absurd h (hv j)⟩
    obtain ⟨d, hd, howner, -⟩ := owns_setChunk_self.mp h
    exact nomatch (hc d hd).symm.trans howner
  · exact owns_setChunk_of_ne hx

/-- The lease of a variable is taken away. -/
theorem owns_setChunk_empty {v : ℕ} {c : Chunk} (hc : c.owner = false) (x j : ℕ) :
    (s.setChunk v (some c)).Owns x j ↔ x ≠ v ∧ s.Owns x j := by
  by_cases hx : x = v
  · subst hx
    refine ⟨fun h => ?_, fun h => absurd rfl h.1⟩
    obtain ⟨d, hd, howner, -⟩ := owns_setChunk_self.mp h
    rw [← Option.some.inj hd, hc] at howner
    exact nomatch howner
  · rw [owns_setChunk_of_ne hx]
    exact ⟨fun h => ⟨hx, h⟩, fun h => h.2⟩

/-- A chunk with a lease returns it. -/
theorem Sound.put (hs : Sound cfg s) {v : ℕ} {c : Chunk} (hc : s.chunk v = some c)
    (howner : c.owner = true) :
    Sound cfg ((s.setChunk v (some { c with owner := false })).put c.id) := by
  have hv : s.Owns v c.id := ⟨c, hc, howner, rfl⟩
  obtain ⟨hlt, hheld⟩ := hs.handles.owned v c.id hv
  have hfree := hs.not_mem_free hlt hheld
  have hshort : toShort c.id = c.id := toShort_of_lt (by have := cfg.count_le; omega)
  exact
    { accounts := (hs.accounts.giveBack hlt hheld).perm (free_put c.id)
      handles := hs.handles.giveBack hv rfl fun x j => owns_setChunk_empty rfl x j
      ring := by
        change Threaded (update s.next s.tail (toShort c.id)) c.id (s.ring ++ [c.id])
        rw [hshort]
        exact hs.ring.append hs.last fun h => hfree (mem_append_left _ h)
      bundle := by
        intro l hl
        change Threaded (update s.next s.tail (toShort c.id)) c.id l
        rw [hshort]
        refine (hs.bundle l hl).append_other fun h => hfree (mem_append_right _ ?_)
        exact mem_flatten.mpr ⟨l, hl, h⟩
      last := by
        intro z hz
        change z ∈ (s.ring ++ [c.id]).getLast? at hz
        rw [List.getLast?_concat] at hz
        exact (Option.some.inj hz).symm
      published := by
        change s.published ++ [c.id] = s.consumed ++ (s.ring ++ [c.id])
        rw [hs.published, append_assoc]
      cqe := hs.cqe
      frame := fun f hf => (hs.frame f hf).mono [c.id]
      ended := fun f hf => ⟨(hs.ended f hf).1.mono [c.id], (hs.ended f hf).2⟩
      faults := hs.faults }

/-- After its release a variable has no lease. -/
theorem not_owns_release (v j : ℕ) : ¬(s.release v).Owns v j := by
  unfold State.release
  cases hc : s.chunk v with
  | none =>
    rintro ⟨c, hc', -⟩
    exact nomatch hc.symm.trans hc'
  | some c =>
    dsimp only
    split_ifs with howner
    · exact fun h => ((owns_setChunk_empty rfl v j).mp h).1 rfl
    · rintro ⟨d, hd, hd', -⟩
      rw [Option.some.inj (hc.symm.trans hd)] at howner
      exact howner hd'

theorem Sound.release (hs : Sound cfg s) (v : ℕ) : Sound cfg (s.release v) := by
  unfold State.release
  cases hc : s.chunk v with
  | none => exact hs
  | some c =>
    dsimp only
    split_ifs with howner
    · exact hs.put hc howner
    · exact hs

/-- A variable without a lease is assigned an empty chunk, or its lifetime ends. -/
theorem Sound.setChunk (hs : Sound cfg s) {v : ℕ} {c : Option Chunk} (hv : ∀ j, ¬s.Owns v j)
    (hc : ∀ d, c = some d → d.owner = false) : Sound cfg (s.setChunk v c) :=
  { hs with handles := hs.handles.congr rfl (owns_setChunk hv hc) }

theorem Sound.destroy (hs : Sound cfg s) (v : ℕ) : Sound cfg (s.destroy v) :=
  (hs.release v).setChunk (not_owns_release v) nofun

/-- The members of a chunk are moved to a variable without a lease. -/
theorem Sound.moveInto (hs : Sound cfg s) {v w : ℕ} (hv : ∀ j, ¬s.Owns v j) (hne : v ≠ w) :
    Sound cfg (s.moveInto v w) := by
  unfold State.moveInto
  cases hc : s.chunk w with
  | none => exact hs
  | some c =>
    refine { hs with handles := hs.handles.move (v := v) (w := w) rfl hv fun x j => ?_ }
    rw [owns_setChunk_empty rfl]
    by_cases hx : x = v
    · subst hx
      rw [owns_setChunk_self]
      constructor
      · rintro ⟨-, d, hd, howner, hid⟩
        exact .inl ⟨rfl, d, hc.trans hd, howner, hid⟩
      · rintro (⟨-, d, hd, howner, hid⟩ | ⟨h, -⟩)
        · exact ⟨hne, d, hc.symm.trans hd, howner, hid⟩
        · exact absurd rfl h
    · rw [owns_setChunk_of_ne hx]
      constructor
      · rintro ⟨hw, h⟩
        exact .inr ⟨hx, hw, h⟩
      · rintro (⟨h, -⟩ | ⟨-, hw, h⟩)
        · exact absurd h hx
        · exact ⟨hw, h⟩

theorem Sound.moveAssign (hs : Sound cfg s) (v w : ℕ) : Sound cfg (s.moveAssign v w) := by
  unfold State.moveAssign
  split_ifs with hne
  · exact (hs.release v).moveInto (not_owns_release v) hne
  · exact hs

end Snowy.Provided
