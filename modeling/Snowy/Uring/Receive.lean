import Mathlib.Data.List.Range
import Snowy.Uring.Bundle
import Snowy.Uring.Multishot

/-!
# Multishot receive

`uring::receive` passes the bytes of a stream to a consumer `fn`, in chunks that lie in provided
buffers. A CQE has one buffer, or several if bundles are used, which `provided::each` decodes. The
coroutine returns at the end of the stream or when `fn` has returned `false`, and otherwise goes on
after a shot that has ended with data or for want of a buffer (`ENOBUFS`).

The kernel writes CQEs that carry consecutive bytes of the stream. A CQE that is not the last one of
its shot carries data, and a CQE with data names the buffers. That the buffers of such a CQE can be
decoded is proved in `Snowy.Uring.Bundle`; here the numbers and sizes are checked that depend on
the CQE alone.

## Main definitions

* `Snowy.Uring.Receive.receive` : the operation.
* `Snowy.Uring.Receive.chunks` : the chunks of a list of CQEs.
* `Snowy.Uring.Receive.Finished` : when `receive` returns.

## Main results

* `Snowy.Uring.Receive.map_length_chunksOf` : the chunks have the sizes that `provided::each`
  visits.
* `Snowy.Uring.Receive.delivered_run` : the consumer has been passed a prefix of the chunks.
* `Snowy.Uring.Receive.receive_delivers_in_order` : what `receive` guarantees.
-/

namespace Snowy.Uring.Receive

open List

open Multishot

variable {β ε : Type} (cfg : Provided.Config) (bundle : Bool) (stream : ℕ → β)
  (answer : ℕ → Answer ε)

/-! ### Chunks -/

/-- The `n` bytes of the stream after the first `k`. -/
def slice (k n : ℕ) : List β := (List.range' k n).map stream

/-- The number of bytes that the CQEs carry. -/
def size (l : List (ℤ × ℕ)) : ℕ := (l.map fun p => p.1.toNat).sum

/-- The chunks that `each` makes of the bytes, in `n` iterations with buffers of the size `cap`. -/
def pieces (cap : ℕ) : ℕ → List β → List (List β)
  | 0, _ => []
  | n + 1, data => data.take cap :: pieces cap n (data.drop cap)

/-- The chunks of a CQE that carries data. -/
def chunksOf (data : List β) : List (List β) :=
  if bundle then pieces cfg.size (cfg.parts data.length) data else [data]

/-- The chunks of the CQEs, which carry the bytes of the stream after the first `k`. -/
def chunks (k : ℕ) : List (ℤ × ℕ) → List (List β)
  | [] => []
  | p :: l =>
    (if 0 < p.1 then chunksOf cfg bundle (slice stream k p.1.toNat) else []) ++
      chunks (k + p.1.toNat) l

/-! ### The operation -/

/-- The consumer in a callback: the chunks passed to it, `stopped`, and the exception that `each`
keeps until it has taken all buffers. -/
structure Feed (β ε : Type) where
  passed : List (List β)
  stopped : Bool
  thrown : Option (Failure ε) := none

/-- A chunk is taken. It is passed on unless the consumer has returned `false` or thrown. -/
def Feed.give (a : Feed β ε) (chunk : List β) : Feed β ε :=
  if a.stopped || a.thrown.isSome then a
  else
    { passed := a.passed ++ [chunk]
      stopped := (answer a.passed.length).stop
      thrown := (answer a.passed.length).thrown }

/-- The checks of `take`, or of `each` for a bundle, that depend on the flags and the size alone. -/
def decodes (flags size : ℕ) : Bool :=
  decide (Provided.idOf flags < cfg.count) &&
    if bundle then decide (cfg.parts size ≤ cfg.count) else decide (size ≤ cfg.size)

/-- The callback. The state of the consumer is the list of chunks that were passed to it. -/
def consume (data : List β) (stopped : Bool) (res : ℤ) (flags : ℕ) (passed : List (List β)) :
    Consumed (List (List β)) (Failure ε) :=
  if flags.testBit 0 then
    if decodes cfg bundle flags res.toNat then
      if 0 < res then
        let a := (chunksOf cfg bundle data).foldl (Feed.give answer) { passed, stopped }
        { client := a.passed, stop := a.stopped, thrown := a.thrown }
      else { client := passed }
    else { client := passed, thrown := some .library }
  else if 0 < res then { client := passed, thrown := some .library }
  else { client := passed }

/-- What follows the await: a shot without data ends the stream, and `ENOBUFS` is ignored. -/
def after (x : Option (Exn (Failure ε))) (f : Fields (Failure ε)) : Next (Failure ε) :=
  f.after (f.stopped || (f.error.isNone && f.bytes == 0)) (some enobufs) x

theorem open_of_after {x : Option (Exn (Failure ε))} {f : Fields (Failure ε)}
    (h : after x f = .again) : f.stopped = false ∧ f.failure = none := by
  obtain ⟨hdone, hfailure⟩ :
      f.Ends (f.stopped || (f.error.isNone && f.bytes == 0)) (some enobufs) x .again :=
    h ▸ Fields.ends_after
  exact ⟨(Bool.or_eq_false_iff.mp hdone).1, hfailure⟩

/-- `uring::receive`. The kernel gives each CQE the next bytes of the stream. -/
def receive : Operation (List β) (List (List β)) (Failure ε) where
  consume := consume cfg bundle answer
  after := after
  pauses := true
  payload seen p := slice stream (size seen) p.1.toNat
  contract p := (more p = true → 0 < p.1) ∧ (0 < p.1 → p.2.testBit 0 = true) ∧
    (p.2.testBit 0 = true → decodes cfg bundle p.2 p.1.toNat = true)
  open_of_again _ _ := open_of_after
  after_canceled := Fields.after_thrown rfl rfl fun _ h => Option.some.inj h ▸ nofun
  after_submission _ h := Fields.after_thrown rfl rfl fun _ h' => Option.some.inj h' ▸ h

/-! ### Chunks of CQEs -/

section Chunks

variable {cfg bundle stream}

theorem slice_append (k m n : ℕ) : slice stream k m ++ slice stream (k + m) n =
    slice stream k (m + n) := by
  rw [slice, slice, slice, ← map_append, List.range'_append_1]

theorem size_append (l l' : List (ℤ × ℕ)) : size (l ++ l') = size l + size l' := by
  rw [size, map_append, sum_append]
  rfl

theorem flatten_pieces {cap : ℕ} (n : ℕ) {data : List β} (h : data.length ≤ n * cap) :
    (pieces cap n data).flatten = data := by
  induction n generalizing data with
  | zero => simpa [pieces] using h
  | succ n ih =>
    have hdrop : (data.drop cap).length ≤ n * cap := by
      rw [length_drop]
      rw [Nat.add_mul, Nat.one_mul] at h
      omega
    rw [pieces, flatten_cons, ih hdrop, take_append_drop]

theorem le_parts_mul (n : ℕ) : n ≤ cfg.parts n * cfg.size := by
  unfold Provided.Config.parts
  split_ifs with hn
  · have hlt := Nat.lt_div_mul_add cfg.size_pos (a := n - 1)
    rw [Nat.add_mul, Nat.one_mul]
    omega
  · omega

/-- No byte is lost or repeated by the chunks of a CQE. -/
theorem flatten_chunksOf (data : List β) : (chunksOf cfg bundle data).flatten = data := by
  unfold chunksOf
  split_ifs
  · exact flatten_pieces _ (le_parts_mul _)
  · simp

/-- The chunks of the CQEs are the bytes that these carry. -/
theorem flatten_chunks (k : ℕ) (l : List (ℤ × ℕ)) :
    (chunks cfg bundle stream k l).flatten = slice stream k (size l) := by
  induction l generalizing k with
  | nil => rfl
  | cons p l ih =>
    have hsize : size (p :: l) = p.1.toNat + size l := rfl
    rw [chunks, flatten_append, ih, hsize, ← slice_append]
    congr 1
    split_ifs with hp
    · exact flatten_chunksOf _
    · rw [Int.toNat_of_nonpos (Int.not_lt.mp hp)]
      rfl

theorem chunks_append (k : ℕ) (l : List (ℤ × ℕ)) (p : ℤ × ℕ) :
    chunks cfg bundle stream k (l ++ [p]) = chunks cfg bundle stream k l ++
      if 0 < p.1 then chunksOf cfg bundle (slice stream (k + size l) p.1.toNat) else [] := by
  induction l generalizing k with
  | nil => simp [chunks, size]
  | cons q l ih =>
    have hsize : size (q :: l) = q.1.toNat + size l := rfl
    rw [cons_append, chunks, ih, chunks, append_assoc, hsize, Nat.add_assoc]

/-- The lengths of the chunks of a bundle are determined by their number, the bytes, and that all
but the last are full. -/
theorem map_length_pieces {cap : ℕ} {l : List ℕ} {data : List β} (hsum : l.sum = data.length)
    (hle : data.length ≤ l.length * cap)
    (hfull : ∀ j n, l[j]? = some n → j + 1 < l.length → n = cap) :
    (pieces cap l.length data).map List.length = l := by
  induction l generalizing data with
  | nil => rfl
  | cons n l ih =>
    rw [sum_cons] at hsum
    rw [length_cons, Nat.add_mul, Nat.one_mul] at hle
    have hn : min cap data.length = n := by
      cases l with
      | nil =>
        simp only [sum_nil, length_nil] at hsum hle
        omega
      | cons m l =>
        have := hfull 0 n rfl (by simp)
        omega
    have hdrop : l.sum = (data.drop cap).length := by
      rw [length_drop]
      cases l with
      | nil =>
        simp only [sum_nil, length_nil] at hsum hle ⊢
        omega
      | cons m l =>
        have := hfull 0 n rfl (by simp)
        omega
    have htail : ∀ j m, l[j]? = some m → j + 1 < l.length → m = cap := fun j m hm hj =>
      hfull (j + 1) m hm (by rw [length_cons]; omega)
    rw [length_cons, pieces, map_cons, length_take, hn, ih hdrop ?_ htail]
    rw [length_drop]
    omega

/-- The chunks of a bundle have the lengths that a call of `each` has visited. -/
theorem map_length_chunksOf {s : Provided.State} (hs : Provided.Reachable cfg s)
    {f : Provided.Frame} (hf : f ∈ s.ended) {data : List β} (hdata : data.length = f.cqe.size) :
    (chunksOf cfg true data).map List.length = f.visited.map Provided.Visit.bytes := by
  obtain ⟨hframe, hstage, hi⟩ := hs.sound.ended f hf
  have hplace := hframe.place
  rw [hstage, hi, Nat.sub_self] at hplace
  obtain ⟨-, -, ⟨hfits, -⟩, hsum⟩ := hplace
  have hlength : (f.visited.map Provided.Visit.bytes).length = cfg.parts data.length := by
    have hids := congrArg List.length hframe.visited
    rw [hi, hframe.parts, take_length, length_map] at hids
    rw [length_map, hids, hdata, hframe.cqe.parts_eq]
  rw [chunksOf, if_pos rfl, ← hlength]
  refine map_length_pieces (by omega) (hlength ▸ le_parts_mul _) fun j n hn hj => ?_
  rw [List.getElem?_map] at hn
  obtain ⟨v, hv, rfl⟩ := Option.map_eq_some_iff.mp hn
  rw [hlength, hdata, hframe.cqe.parts_eq, ← hframe.parts] at hj
  exact hframe.full j v hv hj

end Chunks

/-! ### The consumer -/

section Consumer

variable {cfg bundle stream answer}

/-- What a consumer has been given: the chunks up to the one that has ended the calls. -/
structure Delivered (answer : ℕ → Answer ε) (cs passed : List (List β)) (stopped : Bool)
    (failure : Option (Failure ε)) : Prop where
  chunks : passed <+: cs
  all : stopped = false → passed = cs
  answered : Answered answer passed.length stopped failure
  failure_ne : failure ≠ some .library

/-- What a consumer has been given in a callback. -/
def Feed.Delivered (answer : ℕ → Answer ε) (cs : List (List β)) (a : Feed β ε) : Prop :=
  Receive.Delivered answer cs a.passed (a.stopped || a.thrown.isSome) a.thrown

/-- Chunks that come after the end of the calls do not matter. -/
theorem Delivered.append {cs passed : List (List β)} {failure : Option (Failure ε)}
    (h : Delivered answer cs passed true failure) (later : List (List β)) :
    Delivered answer (cs ++ later) passed true failure :=
  { h with chunks := h.chunks.trans (prefix_append ..), all := nofun }

/-- The consumer is called with the next chunk. -/
theorem Delivered.call {cs passed : List (List β)} (h : Delivered answer cs passed false none)
    (c : List β) :
    Delivered answer (cs ++ [c]) (passed ++ [c])
      ((answer passed.length).stop || (answer passed.length).thrown.isSome)
      (answer passed.length).thrown where
  chunks := h.all rfl ▸ prefix_rfl
  all _ := by rw [h.all rfl]
  answered := by
    rw [length_append, length_singleton]
    exact h.answered.call
  failure_ne := by cases answer passed.length <;> exact nofun

/-- A consumer that has ended is not called. -/
theorem foldl_give_of_ended {a : Feed β ε} (h : (a.stopped || a.thrown.isSome) = true)
    (cs : List (List β)) : cs.foldl (Feed.give answer) a = a := by
  induction cs with
  | nil => rfl
  | cons c cs ih => rwa [foldl_cons, Feed.give, if_pos h]

/-- The chunks of a CQE are passed on, up to the call that ends the consumer. -/
theorem Delivered.foldl_give (cs : List (List β)) {cs₀ : List (List β)} {a : Feed β ε}
    (hstopped : a.stopped = false) (hthrown : a.thrown = none)
    (h : Delivered answer cs₀ a.passed false none) :
    (cs.foldl (Feed.give answer) a).Delivered answer (cs₀ ++ cs) := by
  induction cs generalizing cs₀ a with
  | nil =>
    rw [append_nil, foldl_nil, Feed.Delivered, hstopped, hthrown]
    exact h
  | cons c cs ih =>
    have hgive : Feed.give answer a c =
        { passed := a.passed ++ [c]
          stopped := (answer a.passed.length).stop
          thrown := (answer a.passed.length).thrown } := by
      rw [Feed.give, hstopped, hthrown]
      rfl
    have hcall := h.call c
    rw [foldl_cons, hgive, append_cons]
    cases hended : (answer a.passed.length).stop || (answer a.passed.length).thrown.isSome with
    | true =>
      rw [foldl_give_of_ended hended, Feed.Delivered]
      dsimp only
      rw [hended] at hcall ⊢
      exact hcall.append cs
    | false =>
      obtain ⟨hstop, hnone⟩ := Bool.or_eq_false_iff.mp hended
      rw [Option.isSome_eq_false_iff, Option.isNone_iff_eq_none] at hnone
      rw [hended, hnone] at hcall
      exact ih hstop hnone hcall

/-- The callback for a CQE that the kernel may write. -/
theorem Delivered.consume {cs passed : List (List β)} {stopped : Bool}
    {failure : Option (Failure ε)} (h : Delivered answer cs passed stopped failure)
    {p : ℤ × ℕ} (hp : (receive cfg bundle stream answer).contract p) (data : List β) :
    let c := Receive.consume cfg bundle answer data stopped p.1 p.2 passed
    Delivered answer (cs ++ if 0 < p.1 then chunksOf cfg bundle data else []) c.client
      (stopped || c.stop || c.thrown.isSome) (failure.or c.thrown) := by
  obtain ⟨-, hbuffer, hdecodes⟩ := hp
  intro c
  by_cases hdata : 0 < p.1
  · have hc : c = let a := (chunksOf cfg bundle data).foldl (Feed.give answer) { passed, stopped }
        { client := a.passed, stop := a.stopped, thrown := a.thrown } := by
      simp only [c, Receive.consume, if_pos (hbuffer hdata), if_pos (hdecodes (hbuffer hdata)),
        if_pos hdata]
    rw [if_pos hdata, hc]
    cases stopped with
    | true =>
      rw [foldl_give_of_ended rfl]
      simpa using h.append (chunksOf cfg bundle data)
    | false =>
      obtain rfl := h.answered.failure_eq_none
      rw [Bool.false_or, Option.none_or]
      exact Delivered.foldl_give _ rfl rfl h
  · have hc : c = { client := passed } := by
      simp only [c, Receive.consume, if_neg hdata]
      split_ifs with hb hd
      · rfl
      · exact absurd (hdecodes hb) hd
      · rfl
    rw [if_neg hdata, hc]
    simpa using h

/-- **The consumer has been passed the chunks of the CQEs, up to the call that has ended it.** -/
theorem delivered_run {l : List (ℤ × ℕ)}
    (hl : ∀ p ∈ l, (receive cfg bundle stream answer).contract p) :
    let x := (receive cfg bundle stream answer).run [] l
    Delivered answer (chunks cfg bundle stream 0 l) x.client x.stopped x.failure := by
  induction l using List.reverseRecOn with
  | nil => exact ⟨prefix_rfl, fun _ => rfl, .going nofun, nofun⟩
  | append_singleton l p ih =>
    have hih := ih fun q hq => hl q (mem_append_left _ hq)
    have hnext := hih.consume (hl p mem_concat_self) (slice stream (size l) p.1.toNat)
    rw [Operation.run_append, chunks_append, Nat.zero_add]
    simpa [Run.next, receive] using hnext

end Consumer

/-! ### The end of a shot -/

/-- `receive` may return after the last CQE of a shot: the consumer has returned `false` and the
shot has ended with success, `ECANCELED` or `ENOBUFS`, or the end of the stream was reached and the
consumer has not thrown. The consumer has been called `n` times. -/
def Finished (answer : ℕ → Answer ε) (n : ℕ) (res : ℤ) : Prop :=
  (∃ i < n, answer i = .enough) ∧ (0 ≤ res ∨ res = -ecanceled ∨ res = -enobufs) ∨
    res = 0 ∧ ∀ i < n, ∀ e, answer i ≠ .throws e

/-- The decision after a shot without an exception, by the result of its last CQE. -/
theorem after_eq {f : Fields (Failure ε)} {res : ℤ} (hfailure : f.failure = none)
    (herror : f.error = if res < 0 then some (-res).toNat else none)
    (hbytes : 0 ≤ res → f.bytes = res.toNat) :
    after (f.error.map .code) f =
      if res < 0 then
        if f.stopped = true ∧ res = -ecanceled then .finish
        else if res = -enobufs then if f.stopped then .finish else .again
        else .fail (.code (-res).toNat)
      else if f.stopped = true ∨ res = 0 then .finish else .again := by
  have hcanceled : ∀ n : ℕ, res < 0 → ((-res).toNat = n ↔ res = -n) := by omega
  by_cases hres : res < 0
  · rw [if_pos hres] at herror ⊢
    simp only [herror, Option.map_some, after, Fields.after, Exn.errno, hfailure, Fields.proceed,
      Option.isNone_some, Bool.false_and, Bool.or_false, Bool.and_eq_true, beq_iff_eq, ne_eq,
      Option.some.injEq, eq_comm (a := enobufs), hcanceled _ hres, ite_not]
  · rw [if_neg hres] at herror ⊢
    have hzero : f.bytes = 0 ↔ res = 0 := by
      rw [hbytes (Int.not_lt.mp hres)]
      omega
    simp only [herror, Option.map_none, after, Fields.after, Fields.proceed, hfailure,
      Option.isNone_none, Bool.true_and, Bool.or_eq_true, beq_iff_eq, hzero]

theorem after_eq_finish_iff {f : Fields (Failure ε)} {res : ℤ} (hfailure : f.failure = none)
    (herror : f.error = if res < 0 then some (-res).toNat else none)
    (hbytes : 0 ≤ res → f.bytes = res.toNat) :
    after (f.error.map .code) f = .finish ↔
      f.stopped = true ∧ (0 ≤ res ∨ res = -ecanceled ∨ res = -enobufs) ∨ res = 0 := by
  rw [after_eq hfailure herror hbytes]
  split_ifs with h₁ h₂ h₃ h₄ h₅ <;> simp_all <;> omega

section Shot

variable {cfg bundle stream answer} {s : State (List β) (List (List β)) (Failure ε)}

/-- The consumer of a run. -/
theorem delivered (hs : Sound (receive cfg bundle stream answer) [] s) :
    Delivered answer (chunks cfg bundle stream 0 s.results) s.client s.fields.stopped
      s.fields.failure := by
  rw [hs.follows.client, hs.follows.stopped, hs.follows.failure]
  exact delivered_run fun p hp => hs.contract p (mem_append_left _ hp)

/-- The decision after a shot, by its last CQE and the answers of the consumer. -/
theorem exists_next (hs : Sound (receive cfg bundle stream answer) [] s) {r : ℕ}
    (head : s.shots.head? = some r) (done : r ∈ s.driver.retired) :
    ∃ l p, (s.driver.request r).handled = l ++ [p] ∧ more p = false ∧
      (s.next (receive cfg bundle stream answer) = .finish ↔
        Finished answer s.client.length p.1) ∧
      (∀ i < s.client.length, ∀ e, answer i = .throws e →
        s.next (receive cfg bundle stream answer) = .fail (.failure (.consumer e))) ∧
      (p.1 = -enobufs ∨ 0 < p.1 → (∀ i < s.client.length, answer i = .more) →
        s.next (receive cfg bundle stream answer) = .again) := by
  obtain ⟨l, p, hhandled, hlast, -, hl⟩ := hs.exists_terminal head done
  obtain ⟨-, -, hanswered, hlibrary⟩ := delivered hs
  obtain ⟨herror, hbytes⟩ := hs.fields r head
  have hrecorded := Fields.recorded_concat (ε := Failure ε)
    (fun q hq => ((hl q hq).2.1 (hl q hq).1).le) p
  rw [← hhandled, ← herror, ← hbytes] at hrecorded
  refine ⟨l, p, hhandled, hlast, ?_, ?_, ?_⟩
  · cases hfailure : s.fields.failure with
    | none =>
      refine (after_eq_finish_iff hfailure hrecorded.1 hrecorded.2).trans ?_
      have hthrows : ∀ i < s.client.length, ∀ e, answer i ≠ .throws e := fun i hi e h =>
        nomatch hfailure.symm.trans ((hanswered.throws_iff e).mpr ⟨i, hi, h⟩)
      rw [Finished, ← hanswered.enough_iff hlibrary, hfailure, and_iff_left hthrows,
        and_iff_left rfl]
    | some e =>
      have hnext : s.next (receive cfg bundle stream answer) = .fail (.failure e) :=
        Fields.after_of_failure hfailure
      refine iff_of_false (hnext ▸ nofun) ?_
      cases e with
      | library => exact absurd hfailure hlibrary
      | consumer e =>
        rintro (⟨henough, -⟩ | ⟨-, hthrows⟩)
        · exact nomatch hfailure.symm.trans ((hanswered.enough_iff hlibrary).mpr henough).2
        · obtain ⟨i, hi, h⟩ := (hanswered.throws_iff e).mp hfailure
          exact absurd h (hthrows i hi e)
  · intro i hi e h
    exact Fields.after_of_failure ((hanswered.throws_iff e).mpr ⟨i, hi, h⟩)
  · intro hp hmore
    have hstopped := (hanswered.stopped_eq_false_iff hlibrary).mpr hmore
    have hfailure := (hstopped ▸ hanswered).failure_eq_none
    refine (after_eq hfailure hrecorded.1 hrecorded.2).trans ?_
    rcases hp with hp | hp
    · simp [hp, hstopped, enobufs]
    · simp [hstopped, Int.not_lt.mpr hp.le, hp.ne']

end Shot

/-- **Multishot receive delivers a prefix of the stream.** The kernel may end each shot with any CQE
and write data in any portions, in plain CQEs or bundles, and the consumer may return `true` or
`false` or throw at each chunk. In every state of every run, with any number of shots:
* the chunks passed to the consumer are the first chunks of the CQEs that were processed, so that
  their bytes are a prefix of the bytes received; they are all bytes processed as long as the
  consumer has returned `true`;
* the consumer is not called after it has returned `false` or thrown;
* when the coroutine is resumed, the shot has a last CQE. It returns exactly if the consumer has
  returned `false` and the CQE is a success, `ECANCELED` or `ENOBUFS`, or it is the end of the
  stream and the consumer has not thrown. An exception of the consumer is thrown again, whatever the
  CQE. After data or `ENOBUFS` the coroutine goes on if the consumer has always returned `true`;
* it then waits for a buffer and awaits the next request, unless the token is canceled while it
  waits. The await submits the request, unless the token is canceled by then or the submission
  fails;
* it has returned only for a last CQE as above, and at its end no shot is left. -/
theorem receive_delivers_in_order {s : State (List β) (List (List β)) (Failure ε)}
    (h : Multishot.Reachable (receive cfg bundle stream answer) [] s) :
    s.client <+: chunks cfg bundle stream 0 s.results ∧
    s.client.flatten <+: slice stream 0 (size s.written) ∧
    ((∀ i < s.client.length, answer i = .more) →
      s.client.flatten = slice stream 0 (size s.results)) ∧
    (∀ i, i + 1 < s.client.length → answer i = .more) ∧
    (∀ r, s.phase = .shooting r → r ∈ s.driver.retired →
      ∃ l p, (s.driver.request r).handled = l ++ [p] ∧ more p = false ∧
        ((s.resume (receive cfg bundle stream answer)).phase = .returned ↔
          Finished answer s.client.length p.1) ∧
        (∀ i < s.client.length, ∀ e, answer i = .throws e →
          (s.resume (receive cfg bundle stream answer)).phase = .threw (.failure (.consumer e))) ∧
        (p.1 = -enobufs ∨ 0 < p.1 → (∀ i < s.client.length, answer i = .more) →
          (s.resume (receive cfg bundle stream answer)).phase = .pausing)) ∧
    (∀ t, Multishot.Step (receive cfg bundle stream answer) s t →
      (s.phase = .pausing → t.phase = .pausing ∨ t.phase = .arming ∨
        t.phase = .threw (.code ecanceled) ∧ s.canceled = true) ∧
      (s.phase = .arming → t.phase = .arming ∨
        (∃ r, t.phase = .shooting r ∧ t.shots = r :: s.shots) ∨
        t.phase = .threw (.code ecanceled) ∧ s.canceled = true ∨
        ∃ y, t.phase = .threw (.submission y))) ∧
    (s.phase = .returned → ∃ r l p, s.shots.head? = some r ∧
      (s.driver.request r).handled = l ++ [p] ∧ more p = false ∧
      Finished answer s.client.length p.1) ∧
    (s.phase = .returned ∨ (∃ y, s.phase = .threw y) →
      ∀ q ∈ s.shots, q ∈ s.driver.retired ∧ ¬s.driver.Outstanding q) := by
  have hs := h.sound
  have hdelivered := delivered hs
  refine ⟨hdelivered.chunks, ?_, ?_, fun i hi => hdelivered.answered.eq_more hi, ?_,
    fun t ht => ⟨ht.phase_of_pausing, ht.phase_of_arming⟩, ?_, hs.retired_of_ended⟩
  · obtain ⟨later, hlater⟩ := hdelivered.chunks
    have hflatten := congrArg List.flatten hlater
    rw [flatten_append, flatten_chunks] at hflatten
    rw [State.written, size_append, ← slice_append, Nat.zero_add, ← hflatten, append_assoc]
    exact prefix_append ..
  · intro hmore
    have hstopped := (hdelivered.answered.stopped_eq_false_iff hdelivered.failure_ne).mpr hmore
    rw [hdelivered.all hstopped, flatten_chunks]
  · intro r hphase hretired
    obtain ⟨l, p, hhandled, hlast, hfinish, hthrows, hagain⟩ :=
      exists_next hs (hs.shot r hphase) hretired
    refine ⟨l, p, hhandled, hlast, phase_resume_eq_returned_iff.trans hfinish, ?_, ?_⟩
    · intro i hi e he
      rw [phase_resume, hthrows i hi e he]
    · intro hp hmore
      rw [phase_resume, hagain hp hmore]
      rfl
  · intro hphase
    have hsettled := hs.settled
    rw [State.Settled, hphase] at hsettled
    obtain ⟨hshots, hnext⟩ := hsettled
    obtain ⟨r, hr⟩ := Option.ne_none_iff_exists'.mp (mt List.head?_eq_none_iff.mp hshots)
    have hretired := hs.retired_of_ended (.inl hphase) r (mem_of_mem_head? hr) |>.1
    obtain ⟨l, p, hhandled, hlast, hfinish, -⟩ := exists_next hs hr hretired
    exact ⟨r, l, p, hr, hhandled, hlast, hfinish.mp hnext⟩

/-- The numbers, received in a bundle of buffers of four bytes. -/
def numbers : Operation (List ℕ) (List (List ℕ)) (Failure Unit) :=
  receive Provided.smallConfig true id fun _ => .more

/-- A CQE with a bundle of seven bytes. -/
def bundleCqe : Cqe := { tag := .request 0, res := 7, flags := 3 }

/-- The end of the stream. -/
def eofCqe : Cqe := { tag := .request 0, res := 0, flags := 0 }

/-- The kernel has written the two CQEs, and `poll` has peeked them. -/
def receivingState : State (List ℕ) (List (List ℕ)) (Failure Unit) :=
  let s := (State.submit { client := [] } 0).post numbers (7, 3)
    ((({} : Driver).submit 0 .native true false false).write bundleCqe)
  let d := s.driver.write eofCqe
  let t := s.post numbers (0, 0) { d with running := Function.update s.driver.running 0 false }
  { t with driver := t.driver.peek 2 }

/-- The coroutine has returned. -/
def eofState : State (List ℕ) (List (List ℕ)) (Failure Unit) :=
  ((receivingState.handle numbers bundleCqe [eofCqe]).handle numbers eofCqe []).resume numbers

theorem reachable_eofState : Multishot.Reachable numbers [] eofState := by
  have hsubmit : Multishot.Reachable numbers [] _ :=
    .single (.submit (r := 0) rfl rfl (by simp) rfl)
  have hdata := hsubmit.tail (.post (e := bundleCqe) rfl rfl (.more (r := 0) rfl rfl rfl)
    ⟨by decide, by decide, by decide⟩)
  have heof := hdata.tail (.post (e := eofCqe) rfl rfl (.last (r := 0) rfl rfl rfl)
    ⟨by decide, by decide, by decide⟩)
  have hpeek : Multishot.Reachable numbers [] receivingState :=
    heof.tail (.other (.peek 2 rfl) (fun _ => nofun) fun _ _ => rfl)
  have hhandle := (hpeek.tail (.handle (e := bundleCqe) rfl)).tail
    (.handle (e := eofCqe) rfl)
  exact hhandle.tail (.resume (r := 0) rfl (by decide))

theorem receive_delivers_in_order_eofState : eofState.client = [[0, 1, 2, 3], [4, 5, 6]] ∧
    ∃ r l p, eofState.shots.head? = some r ∧ (eofState.driver.request r).handled = l ++ [p] ∧
      more p = false ∧ Finished (fun _ => (.more : Answer Unit)) eofState.client.length p.1 :=
  ⟨rfl, (receive_delivers_in_order _ _ _ _ reachable_eofState).2.2.2.2.2.2.1 rfl⟩

end Snowy.Uring.Receive
