import Snowy.Uring.Lease

/-!
# Bundles of provided buffers

`each` decodes a bundle by following `next_` from the first buffer. It reads the link of a buffer
before it takes the buffer, since the callback may publish it again. The other links it is going to
follow are those of buffers that were not decoded yet, so they cannot have been published again, and
stay what they were when the kernel selected the bundle.

## Main results

* `Snowy.Provided.Sound.iterate` : an iteration of `each` takes the next buffer of the bundle.
* `Snowy.Provided.Reachable.sound` : the invariant holds in every state of every run.
* `Snowy.Provided.each_publication_order` : bundles are decoded in the order of publication.
* `Snowy.Provided.leases_conserved` : no buffer is lost, leased twice or published twice.
-/

namespace Snowy.Provided

open Function List

variable {cfg : Config} {s t : State}

/-! ### Decoding -/

theorem Config.count_pos (cfg : Config) : 0 < cfg.count := by
  obtain ⟨k, hk⟩ := cfg.single_bit
  rw [hk]
  exact Nat.two_pow_pos k

theorem free_init (cfg : Config) : (State.init cfg).free = List.range cfg.count :=
  append_nil _

theorem sound_init (cfg : Config) : Sound cfg (.init cfg) where
  accounts := by
    rw [free_init]
    refine ⟨fun id => mem_range.mp, nodup_range, fun id hid => ?_, ?_⟩
    · simp [State.init, hid]
    · simp [State.init]
  handles := by
    have hnone : ∀ v id, ¬(State.init cfg).Owns v id := by
      rintro v id ⟨c, hc, -⟩
      exact nomatch hc
    exact ⟨fun v id h => absurd h (hnone v id), fun v _ id h => absurd h (hnone v id),
      fun id _ h => nomatch h⟩
  ring := by
    refine ⟨isChain_iff_getElem.mpr fun i hi => ?_, ?_⟩
    · have hlt : i + 1 < cfg.count := by simpa [State.init] using hi
      have hle := cfg.count_le
      simp only [State.init, getElem_range]
      rw [Nat.mod_eq_of_lt hlt, toShort_of_lt (by omega)]
    · have hpos := cfg.count_pos
      simp only [State.init, dropLast_eq_take, take_range, length_range,
        mem_range]
      omega
  bundle _ h := nomatch h
  last z hz := by
    simp only [State.init, List.getLast?_range] at hz ⊢
    split_ifs at hz
    · exact nomatch hz
    · exact (Option.some.inj hz).symm
  published := rfl
  cqe _ h := nomatch h
  frame _ h := nomatch h
  ended _ h := nomatch h
  faults := rfl

theorem bundles_select (n size low id : ℕ) : (s.select n size low id).bundles =
    s.cqes.map Cqe.ids ++ [s.ring.take n] ++ s.frames.map Frame.rest := by
  change (s.cqes ++ [_]).map Cqe.ids ++ _ = _
  rw [map_append]
  rfl

/-- Selected buffers stay with the kernel or in a bundle. -/
theorem free_select (n size low id : ℕ) : s.free.Perm (s.select n size low id).free := by
  change (s.ring ++ s.bundles.flatten).Perm
    (s.ring.drop n ++ (s.select n size low id).bundles.flatten)
  refine perm_iff_count.mpr fun a => ?_
  have hsplit := congrArg (List.count a) (s.ring.take_append_drop n)
  rw [count_append] at hsplit
  rw [bundles_select, State.bundles]
  simp only [flatten_append, flatten_singleton, count_append]
  omega

/-- The kernel selects buffers from the front of its ring. -/
theorem Sound.select (hs : Sound cfg s) {n size low id : ℕ} {rest : List ℕ}
    (hring : s.ring = id :: rest) (hpos : 0 < n) (hle : n ≤ s.ring.length)
    (hfilled : (n - 1) * cfg.size < size ∧ size ≤ n * cfg.size ∨ n = 1 ∧ size = 0)
    (hbuffer : low.testBit 0 = true) : Sound cfg (s.select n size low id) := by
  have hlen : (s.ring.take n).length = n := length_take_of_le hle
  exact
    { hs with
      accounts := hs.accounts.perm (free_select ..)
      handles := hs.handles.congr rfl fun _ _ => Iff.rfl
      ring := hs.ring.drop n
      bundle := by
        intro l hl
        rw [bundles_select, append_assoc, mem_append, mem_append] at hl
        rcases hl with hl | hl | hl
        · exact hs.bundle l (mem_append_left _ hl)
        · rw [mem_singleton.mp hl]
          exact hs.ring.take n
        · exact hs.bundle l (mem_append_right _ hl)
      last := by
        intro z hz
        refine hs.last z ?_
        change z ∈ (s.ring.drop n).getLast? at hz
        rw [List.getLast?_drop] at hz
        split_ifs at hz
        · exact nomatch hz
        · exact hz
      published := by
        change s.published = s.consumed ++ s.ring.take n ++ s.ring.drop n
        rw [append_assoc, take_append_drop, hs.published]
      cqe := by
        intro e he
        rcases mem_append.mp he with he | he
        · exact hs.cqe e he
        · rw [mem_singleton.mp he]
          refine ⟨by rw [testBit_withId]; exact hbuffer, ?_, ?_⟩
          · rw [idOf_withId]
            change (s.ring.take n).head? = some id
            rw [hring, List.head?_take, if_neg (by omega)]
            rfl
          · change ((s.ring.take n).length - 1) * cfg.size < size ∧
              size ≤ (s.ring.take n).length * cfg.size ∨ (s.ring.take n).length = 1 ∧ size = 0
            rw [hlen]
            exact hfilled }

/-- A bundle has not more buffers than there are. -/
theorem Sound.length_le (hs : Sound cfg s) {l : List ℕ} (hl : l ∈ s.bundles) :
    l.length ≤ cfg.count := by
  have hsub : l.Sublist s.free :=
    (sublist_flatten_of_mem hl).trans (sublist_append_right _ _)
  have hrange : l ⊆ List.range cfg.count := fun id hid =>
    mem_range.mpr (hs.accounts.lt id (hsub.subset hid))
  have hle := (subperm_of_subset (hs.accounts.nodup.sublist hsub) hrange).length_le
  rwa [length_range] at hle

/-- A buffer of a bundle can be taken. -/
theorem Sound.take_eq (hs : Sound cfg s) (flags : ℕ) {size v : ℕ} (hbuffer : flags.testBit 0 = true)
    (hfree : idOf flags ∈ s.free) (hsize : size ≤ cfg.size) (cqes : List Cqe) :
    (s.setCqes cqes).take cfg flags size v =
      some ((s.setCqes cqes).lend cfg (idOf flags) size v) := by
  have hlt := hs.accounts.lt _ hfree
  have hheld : s.held (idOf flags) = false :=
    Bool.eq_false_iff.mpr fun h => hs.not_mem_free hlt h hfree
  have hcond : ¬(¬flags.testBit 0 = true ∨ cfg.count ≤ idOf flags ∨
      s.held (idOf flags) = true ∨ cfg.size < size) := by
    rw [hbuffer, hheld]
    simp only [Bool.false_eq_true, not_true, false_or]
    omega
  exact if_neg hcond

/-- A buffer is taken off the bundles of the CQEs and of the calls of `each`. -/
theorem Sound.lend (hs : Sound cfg s) (cqes : List Cqe) (frames : List Frame) {id v : ℕ} (size : ℕ)
    (hfree : s.free.Perm (id :: ((s.setCqes cqes).setFrames frames).free))
    (hbundle : ∀ l ∈ ((s.setCqes cqes).setFrames frames).bundles, Threaded s.next s.tail l)
    (hcqe : ∀ e ∈ cqes, e.Sound cfg) (hframe : ∀ f ∈ frames, f.Sound cfg s.published)
    (hfresh : s.chunk v = none) :
    Sound cfg (((s.setCqes cqes).setFrames frames).lend cfg id size v) := by
  have hmem : id ∈ s.free := hfree.mem_iff.mpr mem_cons_self
  have hlt := hs.accounts.lt id hmem
  have hheld : s.held id = false :=
    Bool.eq_false_iff.mpr fun h => hs.not_mem_free hlt h hmem
  have hv : ∀ j, ¬s.Owns v j := by
    rintro j ⟨c, hc, -⟩
    exact nomatch hfresh.symm.trans hc
  have howns : ∀ x j, (((s.setCqes cqes).setFrames frames).lend cfg id size v).Owns x j ↔
      x = v ∧ j = id ∨ x ≠ v ∧ s.Owns x j := by
    intro x j
    change (∃ c, Function.update s.chunk v _ x = some c ∧ _) ↔ _
    by_cases hx : x = v
    · subst hx
      rw [update_self]
      constructor
      · rintro ⟨c, hc, -, rfl⟩
        rw [← Option.some.inj hc]
        exact .inl ⟨rfl, rfl⟩
      · rintro (⟨-, rfl⟩ | ⟨h, -⟩)
        · exact ⟨_, rfl, rfl, rfl⟩
        · exact absurd rfl h
    · rw [update_of_ne hx]
      exact ⟨fun h => .inr ⟨hx, h⟩, fun h => (h.resolve_left fun h' => hx h'.1).2⟩
  exact
    { hs with
      accounts := (hs.accounts.perm hfree).lend
      handles := hs.handles.lend hlt hheld rfl howns hv
      bundle := hbundle
      cqe := hcqe
      frame := hframe }

/-- A CQE that is waiting to be decoded. -/
theorem Sound.of_pending (hs : Sound cfg s) {before after : List Cqe} {e : Cqe}
    (h : s.cqes = before ++ e :: after) :
    e.Sound cfg ∧ Threaded s.next s.tail e.ids ∧ (∀ d ∈ before ++ after, d.Sound cfg) ∧
      ∀ l ∈ (s.setCqes (before ++ after)).bundles, Threaded s.next s.tail l := by
  have hmem : ∀ d ∈ before ++ after, d ∈ s.cqes := by
    intro d hd
    rw [h]
    rcases mem_append.mp hd with hd | hd
    · exact mem_append_left _ hd
    · exact mem_append_right _ (mem_cons_of_mem e hd)
  have he : e ∈ s.cqes := h ▸ mem_append_right _ mem_cons_self
  refine ⟨hs.cqe e he, hs.bundle _ (mem_append_left _ (mem_map_of_mem he)),
    fun d hd => hs.cqe d (hmem d hd), fun l hl => hs.bundle l ?_⟩
  rcases mem_append.mp hl with hl | hl
  · obtain ⟨d, hd, rfl⟩ := mem_map.mp hl
    exact mem_append_left _ (mem_map_of_mem (hmem d hd))
  · exact mem_append_right _ hl

/-- The buffers of a CQE that is taken off the queue. -/
theorem free_setCqes {before after : List Cqe} {e : Cqe} (h : s.cqes = before ++ e :: after) :
    s.free.Perm (e.ids ++ (s.setCqes (before ++ after)).free) := by
  refine perm_iff_count.mpr fun a => ?_
  have hcqes : (s.setCqes (before ++ after)).bundles =
      before.map Cqe.ids ++ after.map Cqe.ids ++ s.frames.map Frame.rest := by
    rw [← map_append]
    rfl
  have hring : (s.setCqes (before ++ after)).ring = s.ring := rfl
  rw [State.free, State.free, hcqes, State.bundles, h, hring]
  simp only [map_append, map_cons, flatten_append, flatten_cons,
    count_append]
  omega

/-- `take` on a CQE for one buffer. -/
theorem Sound.take (hs : Sound cfg s) {before after : List Cqe} {e : Cqe} {v : ℕ}
    (h : s.cqes = before ++ e :: after) (hsingle : e.ids.length = 1) (hfresh : s.chunk v = none) :
    Sound cfg (((s.setCqes (before ++ after)).take cfg e.flags e.size v).getD
      ((s.setCqes (before ++ after)).throw .completion)) := by
  obtain ⟨he, -, hcqes, hbundles⟩ := hs.of_pending h
  obtain ⟨id, hid⟩ := length_eq_one_iff.mp hsingle
  have hidOf : idOf e.flags = id := by
    have hfirst := he.first
    rw [hid] at hfirst
    exact (Option.some.inj hfirst).symm
  have hperm := free_setCqes h
  rw [hid] at hperm
  have hsize : e.size ≤ cfg.size := by
    have hfits := he.fits.1
    rwa [hsingle, Nat.one_mul] at hfits
  rw [hs.take_eq e.flags he.buffer (hidOf ▸ hperm.mem_iff.mpr mem_cons_self) hsize,
    Option.getD_some,
    hidOf]
  exact hs.lend (before ++ after) s.frames e.size hperm hbundles hcqes hs.frame hfresh

/-- The locals of `each` at the beginning of its loop. -/
theorem Cqe.Sound.start {e : Cqe} (he : e.Sound cfg) (published : List ℕ) :
    (Frame.start cfg e).Sound cfg published where
  buffer := he.buffer
  cqe := he
  parts := he.parts_eq
  visited := rfl
  full j x h := nomatch h
  returned x h := nomatch h
  place := by
    refine ⟨Nat.zero_le _, fun _ => ?_, ?_, Nat.zero_add _⟩
    · change e.ids[0]? = some (idOf e.flags)
      rw [← List.head?_eq_getElem?, he.first]
    · change Fits cfg (cfg.parts e.size - 0) e.size
      rw [he.parts_eq, Nat.sub_zero]
      exact he.fits

/-- The bundle of a CQE becomes that of a call. -/
theorem free_call {before after : List Cqe} {e : Cqe} (h : s.cqes = before ++ e :: after) :
    s.free.Perm
      ((s.setCqes (before ++ after)).setFrames (Frame.start cfg e :: s.frames)).free := by
  refine (free_setCqes h).trans (perm_iff_count.mpr fun a => ?_)
  have hbundle :
      ((s.setCqes (before ++ after)).setFrames (Frame.start cfg e :: s.frames)).bundles =
      (before ++ after).map Cqe.ids ++ e.ids :: s.frames.map Frame.rest := rfl
  have hbundle' : (s.setCqes (before ++ after)).bundles =
      (before ++ after).map Cqe.ids ++ s.frames.map Frame.rest := rfl
  rw [State.free, State.free, hbundle, hbundle']
  simp only [flatten_append, flatten_cons, count_append]
  change _ + (List.count a s.ring + _) = List.count a s.ring + _
  omega

/-- A call of `each` begins its loop. -/
theorem Sound.call (hs : Sound cfg s) {before after : List Cqe} {e : Cqe}
    (h : s.cqes = before ++ e :: after) : Sound cfg ((s.setCqes (before ++ after)).call cfg e) := by
  obtain ⟨he, hthread, hcqes, hbundles⟩ := hs.of_pending h
  have hlen : e.ids.length ≤ cfg.count := by
    refine hs.length_le (mem_append_left _ (mem_map_of_mem ?_))
    exact h ▸ mem_append_right _ mem_cons_self
  have hparts := he.parts_eq
  have hpos := he.ids_pos
  rw [State.call, if_neg (by rw [hparts]; omega)]
  refine
    { hs with
      accounts := hs.accounts.perm (free_call h)
      handles := hs.handles.congr rfl fun _ _ => Iff.rfl
      bundle := ?_
      cqe := hcqes
      frame := ?_ }
  · intro l hl
    rcases mem_append.mp hl with hl | hl
    · exact hbundles l (mem_append_left _ hl)
    · rcases mem_cons.mp hl with rfl | hl
      · exact hthread
      · exact hbundles l (mem_append_right _ hl)
  · intro f hf
    rcases mem_cons.mp hf with rfl | hf
    · exact he.start _
    · exact hs.frame f hf

/-- The locals of `each` in its callback. -/
theorem Frame.Sound.enter {f : Frame} {published : List ℕ} (hf : f.Sound cfg published)
    (hhead : f.stage = .head) (hmore : f.i < f.parts) {v next : ℕ}
    (hnext : ∀ y, f.cqe.ids[f.i + 1]? = some y → next = y) :
    (f.enter v next (min f.size cfg.size) published.length).Sound cfg published := by
  have hplace := hf.place
  simp only [hhead] at hplace
  obtain ⟨-, hid, hfits, hsum⟩ := hplace
  have hsucc : f.parts - f.i = f.parts - (f.i + 1) + 1 := by omega
  rw [hsucc] at hfits
  obtain ⟨hfits', hfull⟩ := hfits.step
  have hbytes : (f.visited.map Visit.bytes).sum + min f.size cfg.size +
      (f.size - min f.size cfg.size) = f.cqe.size := by
    have hle := Nat.min_le_left f.size cfg.size
    omega
  have hlast : f.i + 1 < f.parts → min f.size cfg.size = cfg.size := fun h => hfull (by omega)
  exact { hf with place := ⟨hmore, hid hmore, hnext, hlast, hfits', hbytes, Nat.le_refl _⟩ }

/-- An iteration of `each` before a failure: the next buffer of the bundle is taken. -/
theorem Sound.enter (hs : Sound cfg s) {f : Frame} {frames : List Frame} {v : ℕ}
    (htop : s.frames = f :: frames) (hhead : f.stage = .head) (hmore : f.i < f.parts)
    (hfresh : s.chunk v = none) :
    f.id < cfg.count ∧ s.take cfg (withId f.flags f.id) (min f.size cfg.size) v =
        some (s.lend cfg f.id (min f.size cfg.size) v) ∧
      Sound cfg ((s.lend cfg f.id (min f.size cfg.size) v).setFrames
        (f.enter v (s.next f.id) (min f.size cfg.size) s.published.length :: frames)) := by
  have hf : f.Sound cfg s.published := hs.frame f (htop ▸ mem_cons_self)
  have hplace := hf.place
  simp only [hhead] at hplace
  have hid := hplace.2.1 hmore
  obtain ⟨hi, hget⟩ := List.getElem?_eq_some_iff.mp hid
  have hrest : f.rest = f.id :: f.cqe.ids.drop (f.i + 1) := by
    rw [Frame.rest, hhead, drop_eq_getElem_cons hi, hget]
  have hbundles : s.bundles = s.cqes.map Cqe.ids ++ f.rest :: frames.map Frame.rest := by
    rw [State.bundles, htop]
    rfl
  have hthread : Threaded s.next s.tail f.rest := hs.bundle _ (by simp [hbundles])
  -- the buffer is the first of what is left of the bundle
  let g := f.enter v (s.next f.id) (min f.size cfg.size) s.published.length
  have hbundles' : ((s.setCqes s.cqes).setFrames (g :: frames)).bundles =
      s.cqes.map Cqe.ids ++ f.cqe.ids.drop (f.i + 1) :: frames.map Frame.rest := rfl
  have hfree : s.free.Perm (f.id :: ((s.setCqes s.cqes).setFrames (g :: frames)).free) := by
    refine perm_iff_count.mpr fun a => ?_
    rw [State.free, State.free, hbundles, hbundles', hrest]
    simp only [flatten_append, flatten_cons, count_append, count_cons]
    change List.count a s.ring + _ = List.count a s.ring + _ + _
    omega
  have hmem : f.id ∈ s.free := hfree.mem_iff.mpr mem_cons_self
  have htake := hs.take_eq (withId f.flags f.id) (v := v)
    (by rw [testBit_withId]; exact hf.buffer) (by rw [idOf_withId]; exact hmem)
    (Nat.min_le_right f.size cfg.size) s.cqes
  rw [idOf_withId] at htake
  refine ⟨hs.accounts.lt _ hmem, htake, ?_⟩
  refine hs.lend s.cqes (g :: frames) (min f.size cfg.size) hfree ?_ hs.cqe ?_ hfresh
  · intro l hl
    rw [hbundles', mem_append, mem_cons] at hl
    rcases hl with hl | rfl | hl
    · exact hs.bundle l (mem_append_left _ hl)
    · have hdrop := hthread.drop 1
      rwa [hrest] at hdrop
    · exact hs.bundle l
        (by rw [hbundles]; exact mem_append_right _ (mem_cons_of_mem _ hl))
  · intro x hx
    rcases mem_cons.mp hx with rfl | hx
    · refine hf.enter hhead hmore fun y hy => ?_
      refine hthread.next_eq (i := 0) (by rw [hrest]; rfl) ?_
      rw [Frame.rest, hhead, List.getElem?_drop]
      exact hy
    · exact hs.frame x (htop ▸ mem_cons_of_mem f hx)

/-- The destructor of a chunk publishes its buffer, if it has one, and does nothing else to the
history of publications. -/
theorem published_destroy (v : ℕ) : ∃ later, (s.destroy v).published = s.published ++ later ∧
    ∀ id, s.kept v id = false → later = [id] := by
  change ∃ later, (s.release v).published = s.published ++ later ∧ _
  unfold State.release State.kept
  cases hc : s.chunk v with
  | none => exact ⟨[], (append_nil _).symm, fun id h => nomatch h⟩
  | some c =>
    dsimp only
    split_ifs with howner
    · refine ⟨[c.id], rfl, fun id h => ?_⟩
      rw [howner, Bool.true_and, Bool.not_eq_false', beq_iff_eq] at h
      rw [h]
    · refine ⟨[], (append_nil _).symm, fun id h => ?_⟩
      rw [Bool.eq_false_iff.mpr howner] at h
      exact nomatch h

/-- The state has the same CQEs, calls of `each` and selections. -/
structure SameCalls (s t : State) : Prop where
  cqes : t.cqes = s.cqes
  frames : t.frames = s.frames
  ended : t.ended = s.ended
  consumed : t.consumed = s.consumed

theorem sameCalls_release (v : ℕ) : SameCalls s (s.release v) := by
  unfold State.release
  cases s.chunk v with
  | none => exact ⟨rfl, rfl, rfl, rfl⟩
  | some c =>
    dsimp only
    split_ifs <;> exact ⟨rfl, rfl, rfl, rfl⟩

theorem sameCalls_destroy (v : ℕ) : SameCalls s (s.destroy v) :=
  ⟨(sameCalls_release v).cqes, (sameCalls_release v).frames, (sameCalls_release v).ended,
    (sameCalls_release v).consumed⟩

theorem sameCalls_moveInto (v w : ℕ) : SameCalls s (s.moveInto v w) := by
  unfold State.moveInto
  cases s.chunk w <;> exact ⟨rfl, rfl, rfl, rfl⟩

theorem sameCalls_moveAssign (v w : ℕ) : SameCalls s (s.moveAssign v w) := by
  unfold State.moveAssign
  split_ifs
  · have hr := sameCalls_release (s := s) v
    have hm := sameCalls_moveInto (s := s.release v) v w
    exact ⟨hm.cqes.trans hr.cqes, hm.frames.trans hr.frames, hm.ended.trans hr.ended,
      hm.consumed.trans hr.consumed⟩
  · exact ⟨rfl, rfl, rfl, rfl⟩

/-- The frame of `each` after an iteration. -/
theorem Frame.Sound.visit {f : Frame} {published : List ℕ} (hf : f.Sound cfg published)
    {v next bytes since : ℕ} (hcall : f.stage = .call v next bytes since) {called kept : Bool}
    (hreturned : called = true ∧ kept = true ∨ f.id ∈ published.drop since) (failure : Option ℕ) :
    (f.visit next { id := f.id, bytes, called, kept, since } failure).Sound cfg published := by
  have hplace := hf.place
  simp only [hcall] at hplace
  obtain ⟨hlt, hid, hnext, hfull, hfits, hsum, -⟩ := hplace
  have hlen : f.visited.length = f.i := by
    have := congrArg List.length hf.visited
    rw [length_map, length_take, ← hf.parts] at this
    omega
  refine
    { buffer := hf.buffer
      cqe := hf.cqe
      parts := hf.parts
      visited := ?_
      full := ?_
      returned := ?_
      place := ⟨hlt, ?_, hfits, ?_⟩ }
  · change (f.visited ++ [_]).map Visit.id = f.cqe.ids.take (f.i + 1)
    rw [map_append, hf.visited, take_add_one, hid]
    rfl
  · intro j x hx hj
    change (f.visited ++ [_])[j]? = some x at hx
    by_cases hjlt : j < f.visited.length
    · rw [List.getElem?_append_left hjlt] at hx
      exact hf.full j x hx hj
    · rw [List.getElem?_append_right (by omega), List.getElem?_singleton] at hx
      split_ifs at hx with hzero
      rw [← Option.some.inj hx]
      have hji : j = f.i := by omega
      exact hfull (hji ▸ hj)
  · intro x hx
    rcases mem_append.mp hx with hx | hx
    · exact hf.returned x hx
    · rw [mem_singleton.mp hx]
      exact hreturned
  · intro h
    have hget := List.getElem?_eq_getElem (hf.parts ▸ h : f.i + 1 < f.cqe.ids.length)
    rw [hnext _ hget]
    exact hget
  · change ((f.visited ++ [_]).map Visit.bytes).sum + f.size = f.cqe.size
    rw [map_append, sum_append]
    exact hsum

/-- The end of an iteration of `each`. A buffer for which the callback was not called is still in
the local variable. -/
theorem Sound.endIteration (hs : Sound cfg s) {f : Frame} {frames : List Frame}
    {v next bytes since : ℕ} (htop : s.frames = f :: frames)
    (hcall : f.stage = .call v next bytes since) (called : Bool)
    (hcalled : called = false → s.kept v f.id = false) (failure : Option ℕ) :
    Sound cfg (s.endIteration f frames v next bytes since called failure) := by
  have ht := hs.destroy v
  have hframes := (sameCalls_destroy (s := s) v).frames
  obtain ⟨later, hpublished, hkept⟩ := published_destroy (s := s) v
  have hf : f.Sound cfg (s.destroy v).published :=
    ht.frame f (by rw [hframes, htop]; exact mem_cons_self)
  have hsince : since ≤ s.published.length := by
    have hplace := (hs.frame f (htop ▸ mem_cons_self)).place
    simp only [hcall] at hplace
    exact hplace.2.2.2.2.2.2
  have hreturned : called = true ∧ s.kept v f.id = true ∨
      f.id ∈ (s.destroy v).published.drop since := by
    by_cases h : s.kept v f.id = false
    · right
      rw [hpublished, hkept f.id h, drop_append_of_le_length hsince]
      exact mem_append_right _ mem_cons_self
    · exact .inl ⟨Bool.of_not_eq_false fun hc => h (hcalled hc), Bool.of_not_eq_false h⟩
  have hrest : (f.visit next { id := f.id, bytes, called, kept := s.kept v f.id, since }
      failure).rest = f.rest := by
    rw [Frame.rest, Frame.rest, hcall]
    rfl
  have hbundles : (s.endIteration f frames v next bytes since called failure).bundles =
      (s.destroy v).bundles := by
    rw [State.bundles, State.bundles, hframes, htop, map_cons, ← hrest]
    rfl
  have hfree : (s.endIteration f frames v next bytes since called failure).free =
      (s.destroy v).free := by
    rw [State.free, hbundles]
    rfl
  refine
    { ht with
      accounts := by rw [hfree]; exact ht.accounts
      handles := ht.handles.congr rfl fun _ _ => Iff.rfl
      bundle := by rw [hbundles]; exact ht.bundle
      frame := ?_ }
  intro x hx
  rcases mem_cons.mp hx with rfl | hx
  · exact hf.visit hcall hreturned failure
  · exact ht.frame x (by rw [hframes, htop]; exact mem_cons_of_mem f hx)

theorem destroy_setFrames (frames : List Frame) (v : ℕ) :
    (s.setFrames frames).destroy v = (s.destroy v).setFrames frames := by
  have hrelease : (s.setFrames frames).release v = (s.release v).setFrames frames := by
    have hchunk : (s.setFrames frames).chunk v = s.chunk v := rfl
    unfold State.release
    rw [hchunk]
    cases s.chunk v with
    | none => rfl
    | some c =>
      dsimp only
      split_ifs <;> rfl
  rw [State.destroy, hrelease]
  rfl

/-- An iteration of `each`. -/
theorem Sound.iterate (hs : Sound cfg s) {f : Frame} {frames : List Frame} {v : ℕ}
    (htop : s.frames = f :: frames) (hhead : f.stage = .head) (hmore : f.i < f.parts)
    (hfresh : s.chunk v = none) : Sound cfg (s.iterate cfg f frames v) := by
  obtain ⟨hlt, htake, henter⟩ := hs.enter htop hhead hmore hfresh
  rw [State.iterate, if_neg (by omega), htake]
  dsimp only
  split_ifs
  · exact henter
  · -- after a failure the chunk is destroyed without a call of the callback
    have hkept : (s.lend cfg f.id (min f.size cfg.size) v).kept v f.id = false := by
      simp [State.kept, State.lend]
    have hend := henter.endIteration rfl rfl false (fun _ => hkept) f.failure
    rw [State.endIteration, destroy_setFrames] at hend
    exact hend

theorem Sound.finish (hs : Sound cfg s) {f : Frame} {frames : List Frame}
    (htop : s.frames = f :: frames) (hhead : f.stage = .head) (hall : f.i = f.parts) :
    Sound cfg (s.finish f frames) := by
  have hf : f.Sound cfg s.published := hs.frame f (htop ▸ mem_cons_self)
  have hrest : f.rest = [] := by
    rw [Frame.rest, hhead]
    exact drop_eq_nil_of_le (by rw [hall, hf.parts])
  have hbundles : s.bundles = s.cqes.map Cqe.ids ++ [] :: frames.map Frame.rest := by
    rw [State.bundles, htop, map_cons, hrest]
  have hbundles' : (s.finish f frames).bundles = s.cqes.map Cqe.ids ++ frames.map Frame.rest := rfl
  have hfree : (s.finish f frames).free = s.free := by
    rw [State.free, State.free, hbundles, hbundles', flatten_append, flatten_append]
    rfl
  refine
    { hs with
      accounts := by rw [hfree]; exact hs.accounts
      handles := hs.handles.congr rfl fun _ _ => Iff.rfl
      bundle := ?_
      frame := fun x hx => hs.frame x (htop ▸ mem_cons_of_mem f hx)
      ended := ?_ }
  · intro l hl
    refine hs.bundle l ?_
    rw [hbundles]
    rw [hbundles', mem_append] at hl
    exact mem_append.mpr (hl.imp_right (mem_cons_of_mem _))
  · intro x hx
    rcases mem_append.mp hx with hx | hx
    · exact hs.ended x hx
    · rw [mem_singleton.mp hx]
      exact ⟨hf, hhead, hall⟩

/-- Every step keeps the invariant. -/
theorem Sound.step {a : Act} (hs : Sound cfg s) (h : Step cfg s a t) : Sound cfg t := by
  cases h with
  | select n size low id rest ring pos le filled buffer => exact hs.select ring pos le filled buffer
  | take before e after v user pending single fresh => exact hs.take pending single fresh
  | each before e after user pending => exact hs.call pending
  | iterate f frames v top at_head more fresh => exact hs.iterate top at_head more fresh
  | callbackEnds f frames v next bytes since fault top at_call =>
    exact hs.endIteration top at_call true nofun fault
  | finish f frames top at_head all => exact hs.finish top at_head all
  | construct v user fresh =>
    refine hs.setChunk ?_ fun d hd => by rw [← Option.some.inj hd]
    rintro j ⟨c, hc, -⟩
    exact nomatch fresh.symm.trans hc
  | moveConstruct v w user fresh alive =>
    refine hs.moveInto ?_ ?_
    · rintro j ⟨c, hc, -⟩
      exact nomatch fresh.symm.trans hc
    · rintro rfl
      rw [fresh] at alive
      exact nomatch alive
  | moveAssign v w user target alive => exact hs.moveAssign v w
  | destroy v user alive own => exact hs.destroy v

/-- The invariant holds in every state of every run. -/
theorem Reachable.sound (h : Reachable cfg s) : Sound cfg s :=
  h.induction (sound_init cfg) fun hs hstep => hs.step hstep

/-! ### What the kernel has consumed -/

/-- The CQE is waiting to be decoded, or is or was decoded by a call of `each`. -/
def State.Knows (s : State) (e : Cqe) : Prop :=
  e ∈ s.cqes ∨ (∃ f ∈ s.frames, f.cqe = e) ∨ ∃ f ∈ s.ended, f.cqe = e

theorem SameCalls.knows (h : SameCalls s t) {e : Cqe} (he : t.Knows e) : s.Knows e := by
  rwa [State.Knows, h.cqes, h.frames, h.ended] at he

theorem sameCalls_take {flags size v : ℕ} (h : s.take cfg flags size v = some t) :
    SameCalls s t := by
  unfold State.take at h
  split_ifs at h
  rw [← Option.some.inj h]
  exact ⟨rfl, rfl, rfl, rfl⟩

/-- A CQE is taken off the queue. -/
theorem knows_setCqes {before after : List Cqe} {d : Cqe} (h : s.cqes = before ++ d :: after)
    {e : Cqe} (he : (s.setCqes (before ++ after)).Knows e) : s.Knows e := by
  refine he.imp_left fun he => ?_
  rw [h]
  rcases mem_append.mp he with he | he
  · exact mem_append_left _ he
  · exact mem_append_right _ (mem_cons_of_mem d he)

/-- The top of the stack moves on in its loop. -/
theorem knows_setFrames {f g : Frame} {frames : List Frame} (htop : s.frames = f :: frames)
    (hcqes : t.cqes = s.cqes) (hended : t.ended = s.ended) {e : Cqe}
    (he : (t.setFrames (g :: frames)).Knows e) (hg : g.cqe = f.cqe) : s.Knows e := by
  rcases he with he | ⟨x, hx, rfl⟩ | ⟨x, hx, rfl⟩
  · exact .inl (hcqes ▸ he)
  · refine .inr (.inl ?_)
    rw [htop]
    rcases mem_cons.mp hx with rfl | hx
    · exact ⟨f, mem_cons_self, hg.symm⟩
    · exact ⟨x, mem_cons_of_mem f hx, rfl⟩
  · exact .inr (.inr ⟨x, hended ▸ hx, rfl⟩)

/-- Only the kernel makes CQEs, and each one lists what it has consumed for it. -/
theorem Step.knows {a : Act} (hs : Sound cfg s) (h : Step cfg s a t) :
    ∃ ids, t.consumed = s.consumed ++ ids ∧ ∀ e, t.Knows e → s.Knows e ∨ e.ids = ids := by
  cases h with
  | select n size low id rest ring pos le filled buffer =>
    refine ⟨s.ring.take n, rfl, fun e he => ?_⟩
    rcases he with he | he
    · rcases mem_append.mp he with he | he
      · exact .inl (.inl he)
      · rw [mem_singleton.mp he]
        exact .inr rfl
    · exact .inl (.inr he)
  | take before e after v user pending single fresh =>
    refine ⟨[], ?_, fun d hd => .inl ?_⟩
    · rw [append_nil]
      cases h : (s.setCqes (before ++ after)).take cfg e.flags e.size v with
      | none => rfl
      | some u => exact (sameCalls_take h).consumed
    · cases h : (s.setCqes (before ++ after)).take cfg e.flags e.size v with
      | none =>
        rw [h] at hd
        exact knows_setCqes pending hd
      | some u =>
        rw [h] at hd
        exact knows_setCqes pending ((sameCalls_take h).knows hd)
  | each before e after user pending =>
    refine ⟨[], ?_, fun d hd => .inl ?_⟩
    · rw [append_nil, State.call]
      split_ifs <;> rfl
    · rw [State.call] at hd
      split_ifs at hd
      · exact knows_setCqes pending hd
      · rcases hd with hd | ⟨f, hf, rfl⟩ | hd
        · exact knows_setCqes pending (.inl hd)
        · rcases mem_cons.mp hf with rfl | hf
          · exact .inl (pending ▸ mem_append_right _ mem_cons_self)
          · exact .inr (.inl ⟨f, hf, rfl⟩)
        · exact .inr (.inr hd)
  | iterate f frames v top at_head more fresh =>
    obtain ⟨hlt, htake, -⟩ := hs.enter top at_head more fresh
    rw [State.iterate, if_neg (by omega), htake]
    dsimp only
    split_ifs
    · exact ⟨[], (append_nil _).symm, fun d hd =>
        .inl (knows_setFrames (t := s.lend cfg f.id (min f.size cfg.size) v) top rfl rfl hd rfl)⟩
    · have hsame := sameCalls_destroy (s := s.lend cfg f.id (min f.size cfg.size) v) v
      exact ⟨[], hsame.consumed.trans (append_nil _).symm, fun d hd =>
        .inl (knows_setFrames top hsame.cqes hsame.ended hd rfl)⟩
  | callbackEnds f frames v next bytes since fault top at_call =>
    have hsame := sameCalls_destroy (s := s) v
    exact ⟨[], hsame.consumed.trans (append_nil _).symm, fun d hd =>
      .inl (knows_setFrames top hsame.cqes hsame.ended hd rfl)⟩
  | finish f frames top at_head all =>
    refine ⟨[], (append_nil _).symm, fun d hd => .inl ?_⟩
    rcases hd with hd | ⟨x, hx, rfl⟩ | ⟨x, hx, rfl⟩
    · exact .inl hd
    · exact .inr (.inl ⟨x, top ▸ mem_cons_of_mem f hx, rfl⟩)
    · rcases mem_append.mp hx with hx | hx
      · exact .inr (.inr ⟨x, hx, rfl⟩)
      · rw [mem_singleton.mp hx]
        exact .inr (.inl ⟨f, top ▸ mem_cons_self, rfl⟩)
  | construct v user fresh => exact ⟨[], (append_nil _).symm, fun d hd => .inl hd⟩
  | moveConstruct v w user fresh alive =>
    have hsame := sameCalls_moveInto (s := s) v w
    exact ⟨[], hsame.consumed.trans (append_nil _).symm, fun d hd => .inl (hsame.knows hd)⟩
  | moveAssign v w user target alive =>
    have hsame := sameCalls_moveAssign (s := s) v w
    exact ⟨[], hsame.consumed.trans (append_nil _).symm, fun d hd => .inl (hsame.knows hd)⟩
  | destroy v user alive own =>
    have hsame := sameCalls_destroy (s := s) v
    exact ⟨[], hsame.consumed.trans (append_nil _).symm, fun d hd => .inl (hsame.knows hd)⟩

/-- The buffers of a CQE were consumed by the kernel one after the other. -/
theorem Reachable.isInfix (h : Reachable cfg s) {e : Cqe} (he : s.Knows e) :
    e.ids <:+: s.consumed := by
  have hinv : Sound cfg s ∧ ∀ e, s.Knows e → e.ids <:+: s.consumed := by
    refine h.induction (P := fun s => Sound cfg s ∧ ∀ e, s.Knows e → e.ids <:+: s.consumed)
      ⟨sound_init cfg, fun e he => ?_⟩ fun ⟨hs, hknows⟩ hstep => ⟨hs.step hstep, ?_⟩
    · rcases he with he | ⟨f, hf, -⟩ | ⟨f, hf, -⟩
      · exact nomatch he
      · exact nomatch hf
      · exact nomatch hf
    · intro e he
      obtain ⟨ids, hconsumed, hnew⟩ := hstep.knows hs
      rw [hconsumed]
      rcases hnew e he with he | rfl
      · exact (hknows e he).trans (prefix_append _ _).isInfix
      · exact (suffix_append _ _).isInfix
  exact hinv.2 e he

/-! ### Results -/

/-- The number of buffers of a CQE. -/
theorem Cqe.Sound.length_eq {e : Cqe} (h : e.Sound cfg) :
    e.ids.length = if e.size = 0 then 1 else (e.size + cfg.size - 1) / cfg.size := by
  have hpos := h.ids_pos
  rcases h.filled with ⟨hlt, hle⟩ | ⟨hone, hzero⟩
  · rw [if_neg (by omega)]
    have hsucc : e.ids.length * cfg.size = (e.ids.length - 1) * cfg.size + cfg.size := by
      conv_lhs => rw [← Nat.sub_add_cancel hpos, Nat.add_mul, Nat.one_mul]
    refine (Nat.div_eq_of_lt_le ?_ ?_).symm
    · rw [hsucc]
      omega
    · rw [Nat.add_mul, Nat.one_mul]
      omega
  · rw [if_pos hzero, hone]

/-- **Bundles are decoded in the order of publication.** In every run, with any history of
selections, takes and returns, and with callbacks that return chunks, decode other CQEs or throw:
* none of the exceptions for invalid CQEs is thrown;
* the kernel has consumed buffers in the order of their publication;
* every call of `each` that has ended has visited exactly the buffers that the kernel has consumed
  for its CQE, one after the other, in this order. They are `⌈size / size_⌉` many, or one if there
  are no bytes; all but the last are full, and their lengths sum up to the number of bytes;
* a call of `each` that has not visited all buffers takes the next one, and then either calls its
  callback or, after a failure, goes on to the next iteration. -/
theorem each_publication_order (h : Reachable cfg s) :
    s.faults = [] ∧ s.published = s.consumed ++ s.ring ∧
    (∀ f ∈ s.ended, f.visited.map Visit.id = f.cqe.ids ∧ f.cqe.ids <:+: s.consumed ∧
      f.visited.length =
        (if f.cqe.size = 0 then 1 else (f.cqe.size + cfg.size - 1) / cfg.size) ∧
      (∀ j x, f.visited[j]? = some x → j + 1 < f.visited.length → x.bytes = cfg.size) ∧
      (f.visited.map Visit.bytes).sum = f.cqe.size) ∧
    ∀ f frames v, s.frames = f :: frames → f.stage = .head → f.i < f.parts → s.chunk v = none →
      ∃ t g, Step cfg s (.iterate v) t ∧ t.faults = [] ∧ t.frames = g :: frames ∧
        g.cqe = f.cqe ∧ g.parts = f.parts ∧
        (g.stage = .call v (s.next f.id) (min f.size cfg.size) s.published.length ∧ g.i = f.i ∨
          f.failure.isSome ∧ g.stage = .head ∧ g.i = f.i + 1) := by
  have hs := h.sound
  refine ⟨hs.faults, hs.published, fun f hf => ?_, fun f frames v htop hhead hmore hfresh => ?_⟩
  · obtain ⟨hsound, hhead, hall⟩ := hs.ended f hf
    have hids : f.visited.map Visit.id = f.cqe.ids := by
      rw [hsound.visited, hall, hsound.parts, take_length]
    have hlen : f.visited.length = f.cqe.ids.length := by
      rw [← hids, length_map]
    have hplace := hsound.place
    simp only [hhead, hall, Nat.sub_self] at hplace
    obtain ⟨-, -, hfits, hsum⟩ := hplace
    refine ⟨hids, h.isInfix (.inr (.inr ⟨f, hf, rfl⟩)), hlen.trans hsound.cqe.length_eq, ?_, ?_⟩
    · intro j x hx hj
      exact hsound.full j x hx (by rw [hsound.parts, ← hlen]; exact hj)
    · rw [hfits.eq_zero] at hsum
      exact hsum
  · have hstep : Step cfg s (.iterate v) (s.iterate cfg f frames v) :=
      .iterate f frames v htop hhead hmore hfresh
    obtain ⟨hlt, htake, -⟩ := hs.enter htop hhead hmore hfresh
    have hfaults := (hs.step hstep).faults
    rw [State.iterate, if_neg (by omega), htake] at hstep hfaults
    dsimp only at hstep hfaults
    by_cases hfail : f.failure.isNone
    · rw [if_pos hfail] at hstep hfaults
      exact ⟨_, _, hstep, hfaults, rfl, rfl, rfl, .inl ⟨rfl, rfl⟩⟩
    · rw [if_neg hfail] at hstep hfaults
      have hsome : f.failure.isSome := Option.isSome_iff_ne_none.mpr fun h => hfail (h ▸ rfl)
      exact ⟨_, _, hstep, hfaults, rfl, rfl, rfl, .inr ⟨hsome, rfl, rfl⟩⟩

/-- Two buffers of four bytes. -/
def smallConfig : Config where
  count := 2
  size := 4
  single_bit := ⟨1, rfl⟩
  count_le := by decide
  size_pos := by decide
  size_le := by decide

/-- A bundle of seven bytes, with a callback that throws at the first buffer. -/
theorem exists_thrown : ∃ s, Reachable smallConfig s ∧ ∃ f ∈ s.ended, f.cqe.size = 7 ∧
    f.cqe.ids = [0, 1] ∧ f.failure = some 5 ∧ s.ring = [0, 1] := by
  refine exists_run_of_step (.select 2 7 1 0 [1] rfl (by decide) (by decide) (by decide) rfl) ?_
  refine exists_run_of_step (.each [] _ [] (fun f hf => nomatch hf) rfl) ?_
  refine exists_run_of_step (.iterate _ [] 0 rfl rfl (by decide) rfl) ?_
  refine exists_run_of_step (.callbackEnds _ [] 0 1 4 2 (some 5) rfl rfl) ?_
  refine exists_run_of_step (.iterate _ [] 0 rfl rfl (by decide) rfl) ?_
  refine exists_run_of_step (.finish _ [] rfl rfl (by decide)) ?_
  exact ⟨_, .refl, _, mem_singleton_self _, rfl, rfl, rfl, rfl⟩

/-- The two buffers of this bundle are visited, with four bytes and with three. -/
theorem each_publication_order_thrown : ∃ s, Reachable smallConfig s ∧ ∃ f ∈ s.ended,
    f.visited.map Visit.id = [0, 1] ∧ f.visited.length = 2 ∧
      (f.visited.map Visit.bytes).sum = 7 := by
  obtain ⟨s, hs, f, hf, hsize, hids, -⟩ := exists_thrown
  obtain ⟨hvisited, -, hlen, -, hsum⟩ := (each_publication_order hs).2.2.1 f hf
  refine ⟨s, hs, f, hf, hvisited.trans hids, ?_, hsum.trans hsize⟩
  rw [hlen, hsize]
  rfl

/-- **Leases are conserved.** In every state of every run:
* each buffer is in exactly one of three places: it is in the ring of the kernel, it is selected by
  a CQE that was not decoded, or it is leased to exactly one chunk;
* `held_` says which buffers are leased, and `leases_` is their number;
* the ring of the kernel has no buffer twice, and not more buffers than there are;
* a call of `each` that has ended, by an exception of its callback or not, has visited all buffers
  of its CQE, and each of them was kept by the callback that it was passed to, or was published
  again after it was taken. -/
theorem leases_conserved (h : Reachable cfg s) :
    (∀ id < cfg.count,
      id ∈ s.ring ∧ id ∉ s.bundles.flatten ∧ (∀ v, ¬s.Owns v id) ∨
      id ∉ s.ring ∧ id ∈ s.bundles.flatten ∧ (∀ v, ¬s.Owns v id) ∨
      id ∉ s.ring ∧ id ∉ s.bundles.flatten ∧ ∃! v, s.Owns v id) ∧
    (∀ v id, s.Owns v id → id < cfg.count) ∧
    (∀ id < cfg.count, s.held id = true ↔ ∃ v, s.Owns v id) ∧
    s.leases = (List.range cfg.count).countP s.held ∧
    s.ring.Nodup ∧ s.ring.length ≤ cfg.count ∧ s.bundles.flatten.Nodup ∧
    ∀ f ∈ s.ended, f.visited.map Visit.id = f.cqe.ids ∧
      ∀ x ∈ f.visited, x.called = true ∧ x.kept = true ∨ x.id ∈ s.published.drop x.since := by
  have hs := h.sound
  have hnodup := nodup_append.mp hs.accounts.nodup
  have hheld : ∀ id < cfg.count, s.held id = true ↔ ∃ v, s.Owns v id := fun id hid =>
    ⟨hs.handles.leased id hid, fun ⟨v, hv⟩ => (hs.handles.owned v id hv).2⟩
  refine ⟨fun id hid => ?_, fun v id hv => (hs.handles.owned v id hv).1, hheld,
    hs.accounts.leases_eq, hnodup.1, ?_, hnodup.2.1, fun f hf => ?_⟩
  · have hnot : id ∈ s.free → ∀ v, ¬s.Owns v id := fun hfree v hv =>
      hs.not_mem_free hid (hs.handles.owned v id hv).2 hfree
    by_cases hring : id ∈ s.ring
    · refine .inl ⟨hring, fun hbundle => ?_, hnot (mem_append_left _ hring)⟩
      exact hnodup.2.2 id hring id hbundle rfl
    · by_cases hbundle : id ∈ s.bundles.flatten
      · exact .inr (.inl ⟨hring, hbundle, hnot (mem_append_right _ hbundle)⟩)
      · have hfree : id ∉ s.free := by
          intro hfree
          rcases mem_append.mp hfree with hm | hm
          · exact hring hm
          · exact hbundle hm
        obtain ⟨v, hv⟩ := hs.handles.leased id hid ((hs.accounts.held id hid).mpr hfree)
        exact .inr (.inr ⟨hring, hbundle, v, hv, fun w hw => hs.handles.unique w v id hw hv⟩)
  · have hle := hs.accounts.leases
    rw [State.free, length_append] at hle
    omega
  · obtain ⟨hsound, -, hall⟩ := hs.ended f hf
    refine ⟨?_, hsound.returned⟩
    rw [hsound.visited, hall, hsound.parts, take_length]

/-- After the callback has thrown at the first of two buffers, both are in the ring again. -/
theorem leases_conserved_thrown : ∃ s, Reachable smallConfig s ∧ s.ring = [0, 1] ∧
    (∀ v, ¬s.Owns v 0) ∧ s.leases = (List.range 2).countP s.held := by
  obtain ⟨s, hs, -, -, -, -, -, hring⟩ := exists_thrown
  obtain ⟨hplace, -, -, hleases, -⟩ := leases_conserved hs
  refine ⟨s, hs, hring, ?_, hleases⟩
  rcases hplace 0 (by decide) with ⟨-, -, h⟩ | ⟨h, -⟩ | ⟨h, -⟩
  · exact h
  · exact absurd (hring ▸ mem_cons_self) h
  · exact absurd (hring ▸ mem_cons_self) h

end Snowy.Provided
