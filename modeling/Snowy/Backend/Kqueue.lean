import Snowy.Backend.Requests

/-!
# The kqueue backend

`loop::submit` tries the system call at once. If it would block, the request is registered with a
one-shot filter of its descriptor, and the kernel keeps a pointer to it; when the filter fires,
`loop::poll` submits the request again. `loop::cancel` deletes the filter and completes the request
at once. The kernel has one filter for each descriptor and direction: a second registration
overwrites the pointer of the first.

The kernel is free in its answers and in the filters that fire; each step takes them as arguments.
The loops around `EINTR` take a list of answers, of which they use as many as they need.

## Main definitions

* `Snowy.Backend.Kqueue.Knotes` : the pointers that the kernel keeps.
* `Snowy.Backend.Kqueue.submit`, `Kqueue.cancel`, `Kqueue.poll` : the functions of the source.
* `Snowy.Backend.Kqueue.Registered` : the kernel has the pending requests, except those of a batch.
* `Snowy.Backend.Kqueue.Ledger` : what a request reports is what the system calls did for it.

## Main results

* `Snowy.Backend.Kqueue.kernel_has_pending_requests` : the pointers of the kernel, and that every
  request is completed once.
* `Snowy.Backend.Kqueue.request_reports_effects` : what a request reports.
-/

namespace Snowy.Backend.Kqueue

open Function List

/-- The numbers of `errno` that the backend tells apart. -/
inductive Errno where
  | again
  | inProgress
  | intr
  | noEntry
  | other (code : ℕ)
  deriving DecidableEq, Repr

/-- The numbers of the errors. -/
def Errno.number : Errno → ℕ
  | .again => 35
  | .inProgress => 36
  | .intr => 4
  | .noEntry => 2
  | .other code => code

/-- The pointer in the one-shot filter of a descriptor and a direction. -/
abbrev Knotes := ℕ × Direction → Option ℕ

/-- The answer of a system call: its result with `MSG_TRUNC` and the value of `SO_ERROR`, as far as
the call has them, or an error. -/
inductive Reply where
  | ok (n : ℕ) (truncated : Bool) (soError : Option Errno)
  | error (e : Errno)
  deriving DecidableEq, Repr

/-- `do … while (r < 0 && errno == EINTR)`: the first answer that does not call for another try. -/
def retry {β : Type*} (again : β → Bool) : List β → Option β
  | [] => none
  | a :: as => if again a then retry again as else some a

/-- The result of a system call for a request. The second try of a connection reads `SO_ERROR`. -/
def attempt (q : Request) : Reply → Except Errno ℕ
  | .error e => .error e
  | .ok n _ soError =>
    match soError with
    | some e => if q.code = .connect ∧ q.started = true then .error e else .ok n
    | none => .ok n

/-- The call was interrupted and is made again. -/
def interrupted (q : Request) (a : Reply) : Bool :=
  a == .error .intr && q.code != .connect

/-- `MSG_TRUNC` of a received datagram. -/
def truncated (q : Request) : Reply → Bool
  | .ok _ t _ => t && q.code == .recvFrom
  | .error _ => false

/-- The result of a system call that succeeded. -/
def store (n : ℕ) (t : Bool) (q : Request) : Request :=
  { q with
    accepted := if q.code = .accept then some n else q.accepted
    bytes := if q.code = .accept then q.bytes else n
    error := if t then some .messageSize else q.error
    effects := n :: q.effects }

/-- The errors after which the request waits for its filter. -/
def waits (q : Request) : Errno → Bool
  | .again | .inProgress => true
  | .intr => q.code == .connect
  | .noEntry | .other _ => false

/-- `kevent` with `EV_ADD | EV_ONESHOT`. -/
def arm (s : State Knotes) (r : ℕ) (adds : List (Option Errno)) : Option (State Knotes) :=
  match retry (· == some .intr) adds with
  | none => none
  | some none => some (s.setKernel (update s.kernel (s.requests r).key (some r)))
  | some (some e) => some (s.fail r (.system e.number))

/-- The end of `loop::submit` with the answer of the system call. -/
def settle (s : State Knotes) (r : ℕ) (a : Reply) (adds : List (Option Errno)) :
    Option (State Knotes) :=
  let t := s.modify r fun q => { q with started := q.started || q.code == .connect }
  match attempt (s.requests r) a with
  | .ok n => some ((t.modify r (store n (truncated (s.requests r) a))).complete r)
  | .error e =>
    if waits (s.requests r) e then arm t r adds else some (t.fail r (.system e.number))

/-- `loop::submit`; `none` if the answers of the kernel run out. -/
def submit (s : State Knotes) (r : ℕ) (replies : List Reply) (adds : List (Option Errno)) :
    Option (State Knotes) :=
  match (s.requests r).code with
  | .nop => some (s.complete r)
  | .fileRead | .fileWrite | .fileSync => some (s.fail r .notSupported)
  | .read | .write | .accept | .connect | .recvFrom | .sendTo =>
    match retry (interrupted (s.requests r)) replies with
    | none => none
    | some a => settle s r a adds

/-- The requests that may wait for a filter. -/
def registers : Opcode → Bool
  | .read | .write | .accept | .connect | .recvFrom | .sendTo => true
  | .nop | .fileRead | .fileWrite | .fileSync => false

/-- `loop::cancel`; the result is an error if it throws. -/
def cancel (s : State Knotes) (r : ℕ) (deletes : List (Option Errno)) :
    Option (Except (State Knotes) (State Knotes)) :=
  match retry (· == some .intr) deletes with
  | none => none
  | some none | some (some .noEntry) =>
    let t := s.setKernel (update s.kernel (s.requests r).key none)
    some (.ok ((t.modify r fun q => { q with cancelSent := true }).fail r .canceled))
  | some (some _) => some (.error s)

/-- A filter that fires: its descriptor and direction, the error of `EV_ERROR`, and what the kernel
answers to the calls that follow. -/
structure Firing where
  key : ℕ × Direction
  error : Option ℕ
  replies : List Reply
  adds : List (Option Errno)

/-- An event that `kevent` returns: the wakeup, or a filter that fires. -/
inductive Event where
  | user
  | filter (e : Firing)

/-- The events that the kernel copies out, each with the pointer that it has in its filter; the
filters are one-shot and are deleted. -/
def deliver (k : Knotes) : List Event → List (ℕ × Firing) × Knotes
  | [] => ([], k)
  | .user :: es => deliver k es
  | .filter e :: es =>
    match k e.key with
    | none => deliver k es
    | some r =>
      let rest := deliver (update k e.key none) es
      ((r, e) :: rest.1, rest.2)

/-- One round of the loop in `loop::poll`. -/
def dispatch (s : State Knotes) (r : ℕ) (e : Firing) : Option (State Knotes) :=
  match e.error with
  | some code => some (s.fail r (.system code))
  | none => submit s r e.replies e.adds

/-- The loop in `loop::poll`. -/
def dispatchAll : List (ℕ × Firing) → State Knotes → Option (State Knotes)
  | [], s => some s
  | (r, e) :: es, s =>
    match dispatch s r e with
    | none => none
    | some t => dispatchAll es t

/-- `loop::poll` with the events that `kevent` returns. -/
def poll (s : State Knotes) (events : List Event) : Option (State Knotes) :=
  let batch := deliver s.kernel events
  dispatchAll batch.1 (s.setKernel batch.2)

/-- A connecting socket belongs to `socket::connect` alone. -/
def Private (s : State Knotes) (r : ℕ) : Prop :=
  ∀ i ∈ s.io, (s.requests i).fd = (s.requests r).fd →
    (s.requests i).code ≠ .connect ∧ (s.requests r).code ≠ .connect

/-- A step of the loop. Only `loop::cancel` may throw. -/
inductive Step (s : State Knotes) : State Knotes → Prop
  | move {t : State Knotes} (h : Move s t) : Step s t
  | awaitSuspend {r : ℕ} {replies : List Reply} {adds : List (Option Errno)}
      {v : Verdict × State Knotes} (hr : (s.requests r).stage = .idle) (hp : Private s r)
      (h : s.awaitSuspend r (fun t => (submit t r replies adds).map .ok) = some v) : Step s v.2
  | expire {answers : ℕ → List (Option Errno)} {v : Except (State Knotes) (State Knotes)}
      {t : State Knotes} (h : s.expire (fun u r => cancel u r (answers r)) = some v)
      (ht : v = .ok t ∨ v = .error t) : Step s t
  | poll {events : List Event} {t : State Knotes} (h : poll s events = some t) : Step s t

/-- The states that a loop can reach. -/
inductive Reachable : State Knotes → Prop
  | init : Reachable { kernel := fun _ => none }
  | step {s t : State Knotes} (h : Reachable s) (hs : Step s t) : Reachable t

/-! ### The pointers of the kernel -/

/-- The kernel has a pointer to every pending request, under the descriptor and the direction of the
request, and to no other; the requests of the batch have no pointer, because their filters have
fired or are not yet there. -/
structure Registered (s : State Knotes) (batch : List ℕ) : Prop where
  kernel : ∀ k r, s.kernel k = some r ↔ r ∈ s.io ∧ r ∉ batch ∧ (s.requests r).key = k
  sockets : ∀ r ∈ s.io, r ∉ batch → registers (s.requests r).code = true
  sub : ∀ r ∈ batch, r ∈ s.io
  apart : ∀ i ∈ s.io, ∀ j ∈ s.io, registers (s.requests i).code = true →
    registers (s.requests j).code = true → (s.requests i).key = (s.requests j).key → i = j

variable {s t : State Knotes} {r : ℕ} {b : List ℕ}

namespace Registered

/-- A step that adds no request to the list and changes no descriptor of one. -/
theorem of_sub (h : Registered s b) {b' : List ℕ} (hio : ∀ i ∈ t.io, i ∈ s.io)
    (hl : ∀ i ∈ s.io, (t.requests i).code = (s.requests i).code ∧
      (t.requests i).fd = (s.requests i).fd)
    (hk : ∀ k i, t.kernel k = some i ↔ i ∈ t.io ∧ i ∉ b' ∧ (s.requests i).key = k)
    (hs : ∀ i ∈ t.io, i ∉ b' → registers (s.requests i).code = true)
    (hb : ∀ i ∈ b', i ∈ t.io) : Registered t b' := by
  have hkey : ∀ i ∈ t.io, (t.requests i).key = (s.requests i).key := fun i hi => by
    rw [Life.key, Life.key, (hl i (hio i hi)).1, (hl i (hio i hi)).2]
  refine ⟨fun k i => ?_, fun i hi hn => ?_, hb, fun i hi j hj => ?_⟩
  · rw [hk]
    exact and_congr_right fun hi => by rw [hkey i hi]
  · rw [(hl i (hio i hi)).1]
    exact hs i hi hn
  · rw [(hl i (hio i hi)).1, (hl j (hio j hj)).1, hkey i hi, hkey j hj]
    exact h.apart i (hio i hi) j (hio j hj)

/-- A step that leaves the list alone, and the descriptors of the requests in it. -/
theorem congr (h : Registered s b) (hi : t.io = s.io) (hk : t.kernel = s.kernel)
    (hl : ∀ i ∈ s.io, (t.requests i).code = (s.requests i).code ∧
      (t.requests i).fd = (s.requests i).fd) : Registered t b :=
  h.of_sub (by rw [hi]; exact fun _ => id) hl (by rw [hi, hk]; exact h.kernel)
    (by rw [hi]; exact h.sockets) (by rw [hi]; exact h.sub)

/-- A request without a filter is completed. -/
theorem complete (h : Registered s (r :: b)) (hc : Core s) (hb : (r :: b).Nodup) :
    Registered (s.complete r) b := by
  have hr := h.sub r mem_cons_self
  have hnb := (nodup_cons.mp hb).1
  have hmem : ∀ i, i ∈ (s.complete r).io ↔ i ≠ r ∧ i ∈ s.io := fun i => by
    rw [State.io_complete hr, hc.io.mem_erase_iff]
  refine h.of_sub (fun i hi => ((hmem i).mp hi).2) (fun i _ => ?_) (fun k i => ?_)
    (fun i hi hn => ?_) fun i hi => ?_
  · rw [State.requests_complete hr]
    split_ifs with he
    · rw [he]; exact ⟨rfl, rfl⟩
    · exact ⟨rfl, rfl⟩
  · rw [State.kernel_complete hr, h.kernel, hmem, mem_cons, not_or]
    exact ⟨fun ⟨hi, ⟨hne, hn⟩, hk⟩ => ⟨⟨hne, hi⟩, hn, hk⟩,
      fun ⟨⟨hne, hi⟩, hn, hk⟩ => ⟨hi, ⟨hne, hn⟩, hk⟩⟩
  · obtain ⟨hne, hi⟩ := (hmem i).mp hi
    exact h.sockets i hi (by simp [hne, hn])
  · exact (hmem i).mpr ⟨fun he => hnb (he ▸ hi), h.sub i (mem_cons_of_mem r hi)⟩

/-- A request gets a filter of its own: no other one waits for its direction. -/
theorem arm (h : Registered s (r :: b)) (hb : (r :: b).Nodup)
    (hc : registers (s.requests r).code = true) :
    Registered (s.setKernel (update s.kernel (s.requests r).key (some r))) b := by
  have hr := h.sub r mem_cons_self
  have hnb := (nodup_cons.mp hb).1
  have hs : ∀ i ∈ s.io, i ∉ b → registers (s.requests i).code = true := fun i hi hn => by
    by_cases he : i = r
    · rw [he]; exact hc
    · exact h.sockets i hi (by simp [he, hn])
  refine h.of_sub (fun _ => id) (fun _ _ => ⟨rfl, rfl⟩) (fun k i => ?_) hs
    fun i hi => h.sub i (mem_cons_of_mem r hi)
  change update s.kernel (s.requests r).key (some r) k = some i ↔ i ∈ s.io ∧ i ∉ b ∧ _
  rw [update_apply]
  split_ifs with hk
  · constructor
    · rintro ⟨⟩
      exact ⟨hr, hnb, hk.symm⟩
    · rintro ⟨hi, hn, hik⟩
      rw [h.apart r hr i hi hc (hs i hi hn) (hk.symm.trans hik.symm)]
  · rw [h.kernel, mem_cons, not_or]
    refine ⟨fun ⟨hi, hn, hik⟩ => ⟨hi, hn.2, hik⟩, fun ⟨hi, hn, hik⟩ => ⟨hi, ⟨?_, hn⟩, hik⟩⟩
    rintro rfl
    exact hk hik.symm

/-- The filter of a pending request is deleted, or fires. -/
theorem disarm (h : Registered s b) {k : ℕ × Direction} (hk : s.kernel k = some r) :
    Registered (s.setKernel (update s.kernel k none)) (r :: b) := by
  obtain ⟨hr, hnb, hkey⟩ := (h.kernel k r).mp hk
  refine h.of_sub (fun _ => id) (fun _ _ => ⟨rfl, rfl⟩) (fun k' i => ?_)
    (fun i hi hn => h.sockets i hi fun hb => hn (mem_cons_of_mem r hb)) fun i hi => ?_
  · change update s.kernel k none k' = some i ↔
      i ∈ s.io ∧ i ∉ r :: b ∧ (s.requests i).key = k'
    rw [update_apply]
    split_ifs with hkk
    · refine iff_of_false nofun fun ⟨hi, hn, hik⟩ => hn (mem_cons.mpr (.inl ?_))
      have hki := (h.kernel k i).mpr ⟨hi, fun hb => hn (mem_cons_of_mem r hb), hik.trans hkk⟩
      exact Option.some.inj (hki.symm.trans hk)
    · rw [h.kernel, mem_cons, not_or]
      refine ⟨fun ⟨hi, hn, hik⟩ => ⟨hi, ⟨?_, hn⟩, hik⟩, fun ⟨hi, hn, hik⟩ => ⟨hi, hn.2, hik⟩⟩
      rintro rfl
      exact hkk (hik.symm.trans hkey)
  · rcases mem_cons.mp hi with rfl | hi
    · exact hr
    · exact h.sub i hi

end Registered

/-- The events that the kernel copies out name pending requests, each once. -/
theorem deliver_registered (events : List Event) {k : Knotes}
    (h : Registered (s.setKernel k) b) (hb : b.Nodup) :
    Registered (s.setKernel (deliver k events).2)
        (((deliver k events).1.map Prod.fst).reverse ++ b) ∧
      (((deliver k events).1.map Prod.fst).reverse ++ b).Nodup := by
  induction events generalizing k b with
  | nil => exact ⟨h, hb⟩
  | cons e es ih =>
    cases e with
    | user => exact ih h hb
    | filter e =>
      cases hk : k e.key with
      | none =>
        rw [show deliver k (.filter e :: es) = deliver k es by rw [deliver, hk]]
        exact ih h hb
      | some r =>
        have hd : deliver k (.filter e :: es) =
            ((r, e) :: (deliver (update k e.key none) es).1,
              (deliver (update k e.key none) es).2) := by rw [deliver, hk]
        rw [hd, map_cons, reverse_cons, append_assoc]
        exact ih (h.disarm hk) (nodup_cons.mpr ⟨((h.kernel _ r).mp hk).2.1, hb⟩)

/-- The order of the batch does not matter. -/
theorem Registered.of_mem_iff (h : Registered s b) {c : List ℕ} (hc : ∀ i, i ∈ c ↔ i ∈ b) :
    Registered s c where
  kernel k r := by rw [h.kernel, hc]
  sockets r hr hn := h.sockets r hr fun hb => hn ((hc r).mpr hb)
  sub r hr := h.sub r ((hc r).mp hr)
  apart := h.apart

/-! ### What a request reports -/

/-- The system calls that succeeded for a request and what it reports of them: nothing has happened
before it is completed, an error other than `message_size` says that nothing has happened, and
otherwise the one result is reported. -/
structure Ledger (q : Request) : Prop extends q.Descriptors where
  blank : q.stage = .absent ∨ q.stage = .idle ∨ q.stage = .pending →
    q.error = none ∧ q.bytes = 0 ∧ q.effects = []
  silent : ∀ e, q.error = some e → e ≠ .messageSize → q.effects = []
  truncated : q.error = some .messageSize → q.code = .recvFrom ∧ q.effects = [q.bytes]
  result : q.error = none → q.stage = .ready ∨ q.stage = .resumed →
    q.effects = [] ∧ q.bytes = 0 ∧
      (q.code = .nop ∨ q.size = 0 ∧ (q.code = .read ∨ q.code = .write)) ∨
    ∃ n, q.effects = [n] ∧ (q.code ≠ .accept → q.bytes = n)

namespace Ledger

variable {q q' : Request}

/-- The request is completed with an error. -/
theorem fail (h : Ledger q) (hq : q.stage = .pending) {e : Error} (he : e ≠ .messageSize) :
    Ledger ({ q with error := some e } : Request).finish where
  toDescriptors := h.congr rfl rfl rfl rfl rfl ⟨by simp [hq], by simp [Request.finish]⟩
  blank hs := by simp [Request.finish] at hs
  silent _ _ _ := (h.blank (.inr (.inr hq))).2.2
  truncated ht := (he (Option.some.inj ht)).elim
  result ht := by cases ht

/-- The request is completed without a system call. -/
theorem finish (h : Ledger q) (hq : q.stage = .pending)
    (hc : q.code = .nop ∨ q.size = 0 ∧ (q.code = .read ∨ q.code = .write)) : Ledger q.finish := by
  obtain ⟨hn, hb, he⟩ := h.blank (.inr (.inr hq))
  exact {
    toDescriptors := h.congr rfl rfl rfl rfl rfl ⟨by simp [hq], by simp [Request.finish]⟩
    blank := fun hs => by simp [Request.finish] at hs
    silent := fun _ _ _ => he
    truncated := h.truncated
    result := fun _ _ => .inl ⟨he, hb, hc⟩ }

/-- The request is completed with the result of a system call. -/
theorem store (h : Ledger q) (hq : q.stage = .pending) (n : ℕ) {t : Bool}
    (ht : t = true → q.code = .recvFrom) : Ledger (store n t q).finish := by
  obtain ⟨hn, -, he⟩ := h.blank (.inr (.inr hq))
  have heff : (Kqueue.store n t q).finish.effects = [n] := congrArg (n :: ·) he
  have hbytes : q.code ≠ .accept → (Kqueue.store n t q).finish.bytes = n := fun hc => if_neg hc
  have herror : (Kqueue.store n t q).finish.error = if t then some .messageSize else none :=
    congrArg (if t then some Error.messageSize else ·) hn
  exact {
    toDescriptors := h.toDescriptors.store he (by simp [hq]) n rfl heff rfl rfl rfl
      (by simp [Request.finish])
    blank := fun hs => by simp [Request.finish] at hs
    silent := fun e hs hne => by
      rw [herror] at hs
      split_ifs at hs
      exact (hne (Option.some.inj hs).symm).elim
    truncated := fun hs => by
      rw [herror] at hs
      split_ifs at hs with hv
      have hc := ht hv
      exact ⟨hc, by rw [heff, hbytes (by simp [hc])]⟩
    result := fun _ _ => .inr ⟨n, heff, hbytes⟩ }

/-- The request is put into the list. -/
theorem link (h : Ledger q) (hq : q.stage = .idle) (v : Bool) :
    Ledger { q.arm with reserved := v } where
  toDescriptors := h.congr rfl rfl rfl rfl rfl ⟨by simp [hq], by simp [Request.arm]⟩
  blank _ := h.blank (.inr (.inl hq))
  silent := h.silent
  truncated := h.truncated
  result _ hs := by simp [Request.arm] at hs

theorem refuse (h : Ledger q) (hq : q.stage = .idle) :
    Ledger { q with error := some .canceled, stage := .refused } where
  toDescriptors := h.congr rfl rfl rfl rfl rfl ⟨by simp [hq], by simp⟩
  blank hs := by simp at hs
  silent _ _ _ := (h.blank (.inr (.inl hq))).2.2
  truncated ht := by simp at ht
  result ht := by cases ht

/-- The flags of a request may change. -/
theorem congr (h : Ledger q) (hd : q'.Descriptors) (hs : q'.stage = q.stage)
    (he : q'.error = q.error) (hb : q'.bytes = q.bytes) (hf : q'.effects = q.effects)
    (hc : q'.code = q.code) (hz : q'.size = q.size) : Ledger q' where
  toDescriptors := hd
  blank := by rw [hs, he, hb, hf]; exact h.blank
  silent := by rw [he, hf]; exact h.silent
  truncated := by rw [he, hc, hf, hb]; exact h.truncated
  result := by rw [hs, he, hb, hf, hc, hz]; exact h.result

/-- The steps in which the kernel takes no part. -/
theorem move (h : Ledger q) (hm : q.Moves q') : Ledger q' := by
  have hd := h.toDescriptors.move hm
  cases hm with
  | refl => exact h
  | construct code fd size _ => exact ⟨hd, by simp, by simp, by simp, by simp⟩
  | resume hq =>
    exact ⟨hd, fun hs => by simp at hs, h.silent, h.truncated, fun he _ => h.result he (.inl hq)⟩
  | take hq _ => exact h.congr hd rfl rfl rfl rfl rfl rfl
  | destroy _ =>
    exact ⟨hd, fun hs => by simp [Request.destroy] at hs, h.silent, h.truncated,
      fun _ hs => by simp [Request.destroy] at hs⟩
  | cancel => exact h.congr hd rfl rfl rfl rfl rfl rfl

end Ledger

/-! ### Every step keeps the invariant -/

/-- The invariant while the requests of the batch have no filter. -/
structure Sound (s : State Knotes) (batch : List ℕ) : Prop where
  core : Core s
  registered : Registered s batch
  nodup : batch.Nodup
  ledger : ∀ r, Ledger (s.requests r)

theorem reserves_of_registers {c : Opcode} (h : registers c = true) (hc : c ≠ .connect) :
    c.reserves = true := by
  cases c <;> simp_all [registers, Opcode.reserves]

/-- `loop::submit` by cases. -/
theorem submit_cases {replies : List Reply} {adds : List (Option Errno)}
    (h : submit s r replies adds = some t) :
    (s.requests r).code = .nop ∧ t = s.complete r ∨ t = s.fail r .notSupported ∨
      registers (s.requests r).code = true ∧ ∃ a, settle s r a adds = some t := by
  unfold submit at h
  cases hc : (s.requests r).code <;> rw [hc] at h <;> simp only [registers, reduceCtorEq] at h ⊢
  case nop => exact .inl ⟨trivial, by simpa using h.symm⟩
  case fileRead | fileWrite | fileSync => exact .inr (.inl (by simpa using h.symm))
  all_goals
    cases hr : retry (interrupted (s.requests r)) replies with
    | none => rw [hr] at h; cases h
    | some a => rw [hr] at h; exact .inr (.inr ⟨trivial, a, h⟩)

namespace Sound

theorem pending (h : Sound s (r :: b)) : r ∈ s.io := h.registered.sub r mem_cons_self

theorem stage (h : Sound s (r :: b)) : (s.requests r).stage = .pending :=
  (h.core.pending r).mp h.pending

/-- One request changes in its life, but keeps its descriptor and its place in the list. -/
theorem of_request (h : Sound s b) {q : Request} (hc : Core t) (hi : t.io = s.io)
    (hk : t.kernel = s.kernel) (hr : ∀ i, t.requests i = if i = r then q else s.requests i)
    (hq : r ∈ s.io → q.code = (s.requests r).code ∧ q.fd = (s.requests r).fd) (hl : Ledger q) :
    Sound t b where
  core := hc
  registered := h.registered.congr hi hk fun i hmem => by
    rw [hr]
    split_ifs with he
    · subst he
      exact hq hmem
    · exact ⟨rfl, rfl⟩
  nodup := h.nodup
  ledger i := by
    rw [hr]
    split_ifs
    · exact hl
    · exact h.ledger i

/-- A request changes in fields that its life does not depend on. -/
theorem modify (h : Sound s b) {f : Request → Request} (hf : ∀ q, (f q).toLife = q.toLife)
    (hl : Ledger (f (s.requests r))) : Sound (s.modify r f) b :=
  h.of_request (h.core.modify hf) rfl rfl (State.requests_modify f)
    (fun _ => by rw [hf]; exact ⟨rfl, rfl⟩) hl

section

variable (h : Sound s (r :: b))
include h

/-- A request is completed after a change of what it reports. -/
theorem complete {f : Request → Request} (hf : ∀ q, (f q).toLife = q.toLife)
    (hl : Ledger (f (s.requests r)).finish) : Sound ((s.modify r f).complete r) b := by
  have hc : Core (s.modify r f) := h.core.modify hf
  have hr : Registered (s.modify r f) (r :: b) := h.registered.congr rfl rfl fun i _ => by
    have hi := s.toLife_modify (r := r) f i
    rw [hf] at hi
    rw [hi]
    split_ifs with he
    · rw [he]; exact ⟨rfl, rfl⟩
    · exact ⟨rfl, rfl⟩
  have hmem : r ∈ (s.modify r f).io := h.pending
  refine ⟨hc.complete hmem, hr.complete hc h.nodup, (nodup_cons.mp h.nodup).2, fun i => ?_⟩
  rw [State.requests_complete hmem, State.requests_modify, State.requests_modify, if_pos rfl]
  split_ifs
  · exact hl
  · exact h.ledger i

/-- A request is completed with an error. -/
theorem fail {e : Error} (he : e ≠ .messageSize) : Sound (s.fail r e) b :=
  h.complete (fun _ => rfl) ((h.ledger r).fail h.stage he)

/-- A request is completed without a system call. -/
theorem finish (hc : (s.requests r).code = .nop ∨ (s.requests r).size = 0 ∧
    ((s.requests r).code = .read ∨ (s.requests r).code = .write)) : Sound (s.complete r) b := by
  have hid : s.modify r id = s := by simp [State.modify]
  rw [← hid]
  exact h.complete (fun _ => rfl) ((h.ledger r).finish h.stage hc)

theorem arm (hc : registers (s.requests r).code = true)
    {adds : List (Option Errno)} (ha : arm s r adds = some t) : Sound t b := by
  unfold Kqueue.arm at ha
  split at ha
  · cases ha
  · cases ha
    exact ⟨h.core.setKernel _, h.registered.arm h.nodup hc, (nodup_cons.mp h.nodup).2,
      h.ledger⟩
  · cases ha
    exact h.fail (by simp)

theorem settle (hc : registers (s.requests r).code = true) {a : Reply}
    {adds : List (Option Errno)} (ha : settle s r a adds = some t) : Sound t b := by
  have hm : Sound (s.modify r fun q => { q with started := q.started || q.code == .connect })
      (r :: b) := by
    refine h.modify (fun _ => rfl) ((h.ledger r).congr ?_ rfl rfl rfl rfl rfl rfl)
    exact (h.ledger r).toDescriptors.congr rfl rfl rfl rfl rfl
      ⟨by simp [h.stage], by simp [h.stage]⟩
  have hreg : registers ((s.modify r fun q =>
      { q with started := q.started || q.code == .connect }).requests r).code = true := by
    rw [State.requests_modify, if_pos rfl]
    exact hc
  simp only [Kqueue.settle] at ha
  split at ha
  · cases ha
    refine hm.complete (fun _ => rfl) ((hm.ledger r).store hm.stage _ ?_)
    intro ht
    rw [State.requests_modify, if_pos rfl]
    cases a <;> simp_all [Kqueue.truncated]
  · split_ifs at ha
    · exact hm.arm hreg ha
    · cases ha
      exact hm.fail (by simp)

/-- `loop::submit` of a request that is pending and has no filter. -/
theorem submit {replies : List Reply} {adds : List (Option Errno)}
    (ha : submit s r replies adds = some t) : Sound t b := by
  obtain ⟨hc, rfl⟩ | rfl | ⟨hc, a, ha⟩ := submit_cases ha
  · exact h.finish (.inl hc)
  · exact h.fail (by simp)
  · exact h.settle hc ha

end

/-- A request is put into the list: no other one waits for its direction. -/
theorem link (h : Sound s []) (hr : (s.requests r).stage = .idle) (hp : Private s r)
    (hk : (s.requests r).code.reserves = true → s.flags (s.requests r).key = false) :
    Sound (s.link r) [r] := by
  have hI : ∀ i, i ∈ (s.link r).io ↔ i = r ∨ i ∈ s.io := fun i => mem_cons
  have hlife : ∀ i, ((s.link r).requests i).code = (s.requests i).code ∧
      ((s.link r).requests i).key = (s.requests i).key := fun i => by
    rw [State.requests_link]
    split_ifs with hi
    · rw [hi]; exact ⟨rfl, rfl⟩
    · exact ⟨rfl, rfl⟩
  have hno : r ∉ s.io := by rw [h.core.pending, hr]; simp
  -- a request that waits for the direction has reserved it
  have hfree : ∀ i ∈ s.io, registers (s.requests i).code = true →
      registers (s.requests r).code = true → (s.requests i).key ≠ (s.requests r).key := by
    intro i hi hci hcr hkey
    obtain ⟨hni, hnr⟩ := hp i hi (congrArg Prod.fst hkey)
    have hv := (h.core.life i).reserved_of_pending ((h.core.pending i).mp hi)
    have hf := h.core.flag i (hv.trans (reserves_of_registers hci hni))
    rw [hkey, hk (reserves_of_registers hcr hnr)] at hf
    cases hf
  refine ⟨h.core.link hr hk, ⟨fun k i => ?_, fun i hi hn => ?_, fun i hi => ?_,
    fun i hi j hj => ?_⟩, nodup_singleton r, fun i => ?_⟩
  · rw [State.kernel_link, h.registered.kernel, hI, (hlife i).2, mem_singleton]
    refine ⟨fun ⟨hi, _, hik⟩ => ⟨.inr hi, fun he => hno (he ▸ hi), hik⟩, fun ⟨hi, hne, hik⟩ => ?_⟩
    exact ⟨hi.resolve_left hne, not_mem_nil, hik⟩
  · rw [(hlife i).1]
    exact h.registered.sockets i (((hI i).mp hi).resolve_left (by simpa using hn)) (by simp)
  · exact (hI i).mpr (.inl (mem_singleton.mp hi))
  · rw [(hlife i).1, (hlife i).2, (hlife j).1, (hlife j).2]
    intro hci hcj hij
    rcases (hI i).mp hi with hir | his <;> rcases (hI j).mp hj with hjr | hjs
    · rw [hir, hjr]
    · exact (hfree j hjs hcj (hir ▸ hci) (hij.symm.trans (by rw [hir]))).elim
    · exact (hfree i his hci (hjr ▸ hcj) (hij.trans (by rw [hjr]))).elim
    · exact h.registered.apart i his j hjs hci hcj hij
  · rw [State.requests_link]
    split_ifs
    · exact (h.ledger r).link hr _
    · exact h.ledger i

theorem refuse (h : Sound s b) (hr : (s.requests r).stage = .idle) : Sound (s.refuse r) b :=
  h.of_request (h.core.refuse hr) rfl rfl
    (State.requests_modify fun q => { q with error := some .canceled, stage := .refused })
    (fun _ => ⟨rfl, rfl⟩) ((h.ledger r).refuse hr)

/-- `io::await_suspend`. -/
theorem awaitSuspend (h : Sound s []) (hr : (s.requests r).stage = .idle) (hp : Private s r)
    {replies : List Reply} {adds : List (Option Errno)} {v : Verdict × State Knotes}
    (hv : s.awaitSuspend r (fun t => (Kqueue.submit t r replies adds).map .ok) = some v) :
    Sound v.2 [] := by
  obtain he | he | ⟨hk, ⟨hempty, he⟩ | ⟨u, hu, -⟩ | hu⟩ := State.awaitSuspend_cases hv
  · rw [he]
    exact h
  · rw [he]
    exact h.refuse hr
  · rw [he]
    refine (h.link hr hp hk).finish (.inr ?_)
    simpa [State.isEmpty] using hempty
  · simp at hu
  · obtain ⟨t, ht, hv⟩ := Option.map_eq_some_iff.mp hu
    rw [← Except.ok.inj hv]
    exact (h.link hr hp hk).submit ht

/-- `loop::cancel` of a request in the list: it throws before it changes anything, or the request
leaves the list. -/
theorem cancel (h : Sound s []) (hr : r ∈ s.io) {deletes : List (Option Errno)}
    {v : Except (State Knotes) (State Knotes)} (ha : cancel s r deletes = some v) :
    v = .error s ∨ ∃ t, v = .ok t ∧ Sound t [] ∧ t.io = s.io.erase r := by
  have hd := h.registered.disarm ((h.registered.kernel _ r).mpr ⟨hr, by simp, rfl⟩)
  have hs : Sound (s.setKernel (update s.kernel (s.requests r).key none)) [r] :=
    ⟨h.core.setKernel _, hd, nodup_singleton r, h.ledger⟩
  have hm : Sound ((s.setKernel (update s.kernel (s.requests r).key none)).modify r
      fun q => { q with cancelSent := true }) [r] := by
    refine hs.modify (fun _ => rfl) ((hs.ledger r).congr ?_ rfl rfl rfl rfl rfl rfl)
    exact (hs.ledger r).toDescriptors.congr rfl rfl rfl rfl rfl
      ⟨by simp [hs.stage], by simp [hs.stage]⟩
  unfold Kqueue.cancel at ha
  split at ha <;> cases ha
  · exact .inr ⟨_, rfl, hm.fail (by simp), State.io_complete hr⟩
  · exact .inr ⟨_, rfl, hm.fail (by simp), State.io_complete hr⟩
  · exact .inl rfl

/-- The requests in `loop::expire`, whether it throws or not. -/
theorem expire (h : Sound s []) {answers : ℕ → List (Option Errno)}
    {v : Except (State Knotes) (State Knotes)}
    (hv : s.expire (fun u r => Kqueue.cancel u r (answers r)) = some v) :
    ∀ t, v = .ok t ∨ v = .error t → Sound t [] := by
  refine State.expire_induction (P := fun s => Sound s []) (fun s r v h hr hv => ?_) h ?_
    h.core.io hv
  · obtain rfl | ⟨t, rfl, ht, hio⟩ := h.cancel hr hv
    · refine ⟨fun t ht => ?_, fun t ht => ?_⟩ <;> cases ht
      exact h
    · refine ⟨fun u hu => ?_, fun u hu => ?_⟩ <;> cases hu
      refine ⟨ht, fun i hne hi => ?_⟩
      rw [hio, h.core.io.mem_erase_iff]
      exact ⟨hne, hi⟩
  · exact ⟨h.core.congr rfl rfl rfl rfl fun _ => rfl,
      h.registered.congr rfl rfl fun _ _ => ⟨rfl, rfl⟩, h.nodup, h.ledger⟩

/-- The loop in `loop::poll`: the requests whose filters have fired are submitted one by one, and
those that come later still have no filter. -/
theorem dispatchAll {l : List (ℕ × Firing)} (h : Sound s (l.map Prod.fst))
    (ht : dispatchAll l s = some t) : Sound t [] := by
  induction l generalizing s with
  | nil =>
    cases ht
    exact h
  | cons p l ih =>
    obtain ⟨r, e⟩ := p
    rw [Kqueue.dispatchAll] at ht
    cases hd : dispatch s r e with
    | none => rw [hd] at ht; cases ht
    | some u =>
      rw [hd] at ht
      refine ih ?_ ht
      unfold dispatch at hd
      split at hd
      · cases hd
        exact h.fail (by simp)
      · exact h.submit hd

theorem poll (h : Sound s []) {events : List Event} (ht : poll s events = some t) : Sound t [] := by
  obtain ⟨hr, hn⟩ := deliver_registered (s := s) events h.registered h.nodup
  rw [append_nil] at hr hn
  refine dispatchAll ⟨h.core.setKernel _, hr.of_mem_iff fun i => ?_, ?_, h.ledger⟩ ht
  · rw [mem_reverse]
  · exact nodup_reverse.mp hn

/-- The steps in which the kernel takes no part. -/
theorem move (h : Sound s []) (hm : Move s t) : Sound t [] := by
  obtain ⟨hc, hio, hk, hq⟩ := hm.spec h.core
  refine ⟨hc, h.registered.congr hio hk fun i hi => ?_, h.nodup, fun i => (h.ledger i).move (hq i)⟩
  obtain he | he := (hq i).pending ((h.core.pending i).mp hi) <;> rw [he]
  · exact ⟨rfl, rfl⟩
  · exact ⟨rfl, rfl⟩

/-- **Every step keeps the invariant.** -/
theorem step (h : Sound s []) (hs : Step s t) : Sound t [] := by
  cases hs with
  | move hm => exact h.move hm
  | awaitSuspend hr hp hv => exact h.awaitSuspend hr hp hv
  | expire hv ht => exact h.expire hv _ ht
  | poll ht => exact h.poll ht

end Sound

/-- **The invariant holds in every state that a loop can reach.** -/
theorem Reachable.sound (h : Reachable s) : Sound s [] := by
  induction h with
  | init =>
    refine ⟨Core.init _, ⟨?_, ?_, ?_, ?_⟩, nodup_nil, fun r => ?_⟩
    · simp
    · simp
    · simp
    · simp
    · exact ⟨by constructor <;> simp, by simp, by simp, by simp, by simp⟩
  | step _ hs ih => exact ih.step hs

/-! ### Main results -/

/-- **The kernel has a pointer to every pending request and to no other one**, under the descriptor
and the direction of the request, at the end of every step. No request is completed twice, completed
outside of the list, or destroyed while it is active, and one whose coroutine was queued was
completed once. -/
theorem kernel_has_pending_requests (h : Reachable s) :
    s.fault = false ∧
    (∀ k r, s.kernel k = some r ↔ (s.requests r).stage = .pending ∧ (s.requests r).key = k) ∧
    ∀ r, (s.requests r).completions ≤ 1 ∧
      ((s.requests r).stage = .ready ∨ (s.requests r).stage = .resumed →
        (s.requests r).completions = 1) := by
  have hs := h.sound
  refine ⟨hs.core.fault, fun k r => ?_, fun r =>
    ⟨(hs.core.life r).completions_le, (hs.core.life r).completions_eq_one⟩⟩
  rw [hs.registered.kernel, ← hs.core.pending]
  simp

/-- A request for a connection of the listener 3. -/
def listeningState : State Knotes := State.construct { kernel := fun _ => none } 0 .accept 3 0

/-- There is no connection, and the request waits for its filter. -/
def waitingState : State Knotes :=
  ((listeningState.awaitSuspend 0 fun t =>
    (submit t 0 [.error .intr, .error .again] [none]).map .ok).getD (.failed, listeningState)).2

theorem waitingState_reachable : Reachable waitingState := by
  have ha : listeningState.awaitSuspend 0 (fun t =>
      (submit t 0 [.error .intr, .error .again] [none]).map .ok) =
      some (.suspended, waitingState) := rfl
  exact (Reachable.init.step (.move (.construct 0 .accept 3 0 rfl))).step
    (.awaitSuspend rfl (fun i hi => by cases hi) ha)

theorem waitingState_kernel : waitingState.kernel (3, .reading) = some 0 :=
  ((kernel_has_pending_requests waitingState_reachable).2.1 (3, .reading) 0).mpr ⟨rfl, rfl⟩

/-- **A request reports what the system calls did for it.** At most one call succeeds for a request.
If the request ends with an error, a cancellation for example, then no call has succeeded for it,
except that `message_size` comes with the datagram that was cut. Otherwise it reports the result of
the call, if it made one. An accepted descriptor is kept until it is taken or closed, and it is one
of the two once the request is destroyed. -/
theorem request_reports_effects (h : Reachable s) (r : ℕ) :
    (s.requests r).effects.length ≤ 1 ∧
    (∀ e, (s.requests r).error = some e → e ≠ .messageSize → (s.requests r).effects = []) ∧
    ((s.requests r).error = some .messageSize →
      (s.requests r).code = .recvFrom ∧ (s.requests r).effects = [(s.requests r).bytes]) ∧
    ((s.requests r).error = none → (s.requests r).stage = .resumed →
      (s.requests r).effects = [] ∧ (s.requests r).bytes = 0 ∧
        ((s.requests r).code = .nop ∨
          (s.requests r).size = 0 ∧ ((s.requests r).code = .read ∨ (s.requests r).code = .write)) ∨
      ∃ n, (s.requests r).effects = [n] ∧
        ((s.requests r).code ≠ .accept → (s.requests r).bytes = n)) ∧
    ((s.requests r).code = .accept → (s.requests r).effects =
      (s.requests r).accepted.toList ++ (s.requests r).adopted.toList ++
        (s.requests r).closed.toList) ∧
    ((s.requests r).stage = .destroyed → (s.requests r).accepted = none) := by
  have hl := h.sound.ledger r
  exact ⟨hl.once, hl.silent, hl.truncated, fun he hr => hl.result he (.inr hr), hl.kept, hl.gone⟩

/-- The filter fires and the connection 7 is accepted, but nobody takes it. -/
def droppedState : State Knotes :=
  (((poll waitingState [.user, .filter ⟨(3, .reading), none, [.ok 7 false none], []⟩]).getD
    waitingState).awaitResume 0).destroy 0

theorem droppedState_reachable : Reachable droppedState := by
  have hp : ∃ t, poll waitingState
      [.user, .filter ⟨(3, .reading), none, [.ok 7 false none], []⟩] = some t ∧
      t.ready = [0] ∧ droppedState = (t.awaitResume 0).destroy 0 := ⟨_, rfl, rfl, rfl⟩
  obtain ⟨t, ht, hr, hd⟩ := hp
  rw [hd]
  have hq := (waitingState_reachable.step (.poll ht)).step (.move (.awaitResume hr))
  refine hq.step (.move (.destroy (.inr (.inr (.inr ?_)))))
  rw [State.requests_awaitResume, if_pos rfl]

theorem droppedState_closed : (droppedState.requests 0).effects = [7] ∧
    [7] = (droppedState.requests 0).accepted.toList ++ (droppedState.requests 0).adopted.toList ++
      (droppedState.requests 0).closed.toList :=
  ⟨rfl, (request_reports_effects droppedState_reachable 0).2.2.2.2.1 rfl⟩

end Snowy.Backend.Kqueue
