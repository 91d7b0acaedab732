import Snowy.Lib.Program
import Snowy.Uring.Submission

/-!
# Flushes that fail

`io_uring_submit` may hand over fewer entries than are queued, be interrupted, or fail.
`driver::sqe` and `access::reserve` call it until there is room and throw when it fails. This file
models the two functions with a kernel that answers each call as it likes. The call waits if there
is no answer.

Whatever the kernel answers, an entry is queued at the end of the call or not at all, and the
entries that were queued before keep their places. With a kernel that takes everything, the two
functions are those of `Snowy.Uring.Ring`.

## Main definitions

* `Snowy.Uring.Reply`, `Snowy.Uring.Thrown` : what `io_uring_submit` returns, and what is thrown.
* `Snowy.Uring.Queue` : the submission queue and the internal poll of the eventfd.
* `Snowy.Uring.Queue.sqe`, `Snowy.Uring.Queue.reserve` : the functions.

## Main results

* `Snowy.Uring.Queue.published_sqe`, `Snowy.Uring.Queue.published_reserve` : what is queued.
* `Snowy.Uring.Queue.inSqe_of_exec_sqe`, `Snowy.Uring.Queue.inReserve_of_exec_reserve` : what is
  thrown.
* `Snowy.Uring.Ring.exec_sqe`, `Snowy.Uring.Ring.exec_reserve` : the functions of `Ring` are those
  of a kernel that takes everything.
-/

namespace Snowy.Uring

/-- What `io_uring_submit` returns: how many entries the kernel has taken, or an error. -/
inductive Reply where
  | took (n : ℕ)
  | failed (errno : ℕ)
  deriving DecidableEq, Repr

/-- `EINTR`. -/
def eintr : ℕ := 4

/-- `EOPNOTSUPP`. -/
def eopnotsupp : ℕ := 95

/-- `ENOBUFS`. -/
def enobufs : ℕ := 105

/-- `ECANCELED`. -/
def ecanceled : ℕ := 125

/-- The exceptions of a submission, by the place that throws them: the checks in `uring::submit`,
the check of the direction in `io::await_suspend`, the check of the ring in `loop::submit`, the
check of the size and the flush in `access::reserve`, and the two flushes in `driver::sqe`. -/
inductive Thrown where
  | refused (error : SubmitError)
  | direction
  | storageOnly
  | capacity
  | room (errno : ℕ)
  | threshold (errno : ℕ)
  | full (errno : ℕ)
  deriving DecidableEq, Repr

namespace Thrown

/-- The code of the exception if it is a `std::system_error`. -/
def code : Thrown → Option ℕ
  | refused .canceled => some ecanceled
  | refused (.notSupported _) => some eopnotsupp
  | refused (.invalidArgument _) => none
  | direction => none
  | storageOnly => some eopnotsupp
  | capacity => none
  | room errno => some errno
  | threshold errno => some errno
  | full errno => some errno

/-- The exception is thrown in `driver::sqe`. -/
def InSqe : Thrown → Prop
  | threshold _ => True
  | full _ => True
  | _ => False

/-- The exception is thrown in `access::reserve`. -/
def InReserve : Thrown → Prop
  | capacity => True
  | room _ => True
  | _ => False

theorem InReserve.not_inSqe {x : Thrown} (h : x.InReserve) : ¬x.InSqe := by
  cases x <;> first | exact id | exact h.elim

theorem InReserve.ne_direction {x : Thrown} (h : x.InReserve) : x ≠ direction := by
  rintro rfl
  exact h

theorem InSqe.ne_direction {x : Thrown} (h : x.InSqe) : x ≠ direction := by
  rintro rfl
  exact h

end Thrown

/-- The submission queue: what is queued, the fields of the driver that belong to the internal poll
of the eventfd, and the counter of the eventfd. `taken` are the entries that the kernel has taken so
far, and `replies` what it is going to answer. -/
structure Queue where
  sq : List Sqe := []
  watching : Bool := false
  watchWaking : Bool := false
  event : ℕ := 0
  taken : List Sqe := []
  replies : List Reply := []

namespace Queue

variable (o : Options)

/-- All entries that have been queued, in order. -/
def published (q : Queue) : List Sqe := q.taken ++ q.sq

/-- The kernel takes some entries. -/
def take (q : Queue) (n : ℕ) (rest : List Reply) : Queue :=
  { q with sq := q.sq.drop n, taken := q.taken ++ q.sq.take n, replies := rest }

/-- The kernel takes no entry. -/
def refuse (q : Queue) (rest : List Reply) : Queue := { q with replies := rest }

/-- An entry is filled in. -/
def append (q : Queue) (e : Sqe) : Queue := { q with sq := q.sq ++ [e] }

/-- The second half of `access::reserve`: make the poll of the eventfd complete. A counter that
would overflow keeps its value. -/
def wakePoll (q : Queue) (drain : Bool) : Queue :=
  if drain && q.watching && !q.watchWaking then
    { q with event := if q.event < 2 ^ 64 - 2 then q.event + 1 else q.event, watchWaking := true }
  else q

/-- There is no room for `count` entries. -/
def lacks (count : ℕ) (q : Queue) : Bool := decide (o.entries - q.sq.length < count)

/-- The number of entries has reached the threshold. -/
def atThreshold (q : Queue) : Bool :=
  decide (o.submitBatch ≠ 0 ∧ o.submitBatch ≤ q.sq.length)

/-- A call of `io_uring_submit` and the check of its result. -/
def enter (thrown : ℕ → Thrown) : Program Queue Thrown Unit := do
  let q ← get
  match q.replies with
  | [] => Program.wait
  | .took n :: rest => set (q.take n rest)
  | .failed errno :: rest =>
    set (q.refuse rest)
    if errno ≠ eintr then
      throw (thrown errno)

/-- Flush until there is room for `count` entries. Each round needs an answer, so that the bound on
the rounds is not reached. -/
def makeRoom (count : ℕ) (thrown : ℕ → Thrown) : Program Queue Thrown Unit := do
  let q ← get
  Program.loop (lacks o count) (enter thrown) (q.replies.length + 1)

/-- `access::reserve`. -/
def reserve (count : ℕ) (drain : Bool) : Program Queue Thrown Unit :=
  if o.entries < count then throw .capacity
  else do
    makeRoom o count .room
    modify fun q => q.wakePoll drain

/-- The flush at the threshold. -/
def threshold (flush : Bool) : Program Queue Thrown Unit := do
  if flush && atThreshold o (← get) then
    enter .threshold

/-- `driver::sqe` and the filling of the slot it returns. -/
def sqe (flush : Bool) (e : Sqe) : Program Queue Thrown Unit := do
  threshold o flush
  makeRoom o 1 .full
  modify fun q => q.append e

/-! ### What is queued -/

variable {o} {q q' : Queue} {l : List Sqe} {e : Sqe} {x : Thrown}

theorem published_take (n : ℕ) (rest : List Reply) : (q.take n rest).published = q.published := by
  change (q.taken ++ q.sq.take n) ++ q.sq.drop n = _
  rw [List.append_assoc, List.take_append_drop, published]

theorem published_wakePoll (drain : Bool) : (q.wakePoll drain).published = q.published := by
  unfold wakePoll
  split_ifs <;> rfl

theorem published_append : (q.append e).published = q.published ++ [e] :=
  (List.append_assoc ..).symm

theorem sq_wakePoll (drain : Bool) : (q.wakePoll drain).sq = q.sq := by
  unfold wakePoll
  split_ifs <;> rfl

/-- A flush changes neither the entries that were queued nor their order. -/
theorem keeps_enter (thrown : ℕ → Thrown) : (enter thrown).Keeps fun q => q.published = l := by
  intro q r q' h hq
  rw [enter, Program.exec_get_bind] at h
  split at h
  · cases h
  · cases h
    exact (published_take ..).trans hq
  · rw [Program.exec_bind_of_ok Program.exec_set] at h
    split_ifs at h <;> cases h <;> exact hq

theorem keeps_makeRoom (count : ℕ) (thrown : ℕ → Thrown) :
    (makeRoom o count thrown).Keeps fun q => q.published = l :=
  .read fun q => (keeps_enter thrown).loop (q.replies.length + 1)

/-- `access::reserve` queues nothing. -/
theorem keeps_reserve (count : ℕ) (drain : Bool) :
    (reserve o count drain).Keeps fun q => q.published = l :=
  .cond (.throw _) <| (keeps_makeRoom count _).bind fun _ =>
    .assign fun _ hq => (published_wakePoll drain).trans hq

theorem published_reserve {count : ℕ} {drain : Bool} {r : Except Thrown Unit}
    (h : (reserve o count drain).exec q = some (r, q')) : q'.published = q.published :=
  keeps_reserve count drain h rfl

theorem keeps_threshold (flush : Bool) : (threshold o flush).Keeps fun q => q.published = l :=
  .read fun _ => .cond (keeps_enter _) (.pure _)

/-- `driver::sqe` queues the entry if it returns, and nothing if it throws. -/
theorem published_sqe {flush : Bool} {r : Except Thrown Unit}
    (h : (sqe o flush e).exec q = some (r, q')) :
    (r = .ok () ∧ q'.published = q.published ++ [e]) ∨
      ∃ x, r = .error x ∧ q'.published = q.published := by
  rcases Program.exec_bind_eq_some.mp h with ⟨x, hx, rfl⟩ | ⟨_, q₁, h₁, hrest⟩
  · exact .inr ⟨x, rfl, keeps_threshold flush hx rfl⟩
  have hpub₁ := keeps_threshold flush h₁ rfl
  rcases Program.exec_bind_eq_some.mp hrest with ⟨x, hx, rfl⟩ | ⟨_, q₂, h₂, hlast⟩
  · exact .inr ⟨x, rfl, keeps_makeRoom 1 _ hx hpub₁⟩
  · cases hlast
    exact .inl ⟨rfl, published_append.trans
      (congrArg (fun l => l ++ [e]) (keeps_makeRoom 1 _ h₂ hpub₁))⟩

/-! ### What is thrown -/

theorem exists_of_exec_enter {thrown : ℕ → Thrown}
    (h : (enter thrown).exec q = some (.error x, q')) : ∃ errno, x = thrown errno := by
  rw [enter, Program.exec_get_bind] at h
  split at h
  · cases h
  · cases h
  · rename_i errno rest _
    rw [Program.exec_bind_of_ok Program.exec_set] at h
    split_ifs at h
    · cases h
      exact ⟨errno, rfl⟩
    · cases h

theorem exists_of_exec_makeRoom {count : ℕ} {thrown : ℕ → Thrown}
    (h : (makeRoom o count thrown).exec q = some (.error x, q')) : ∃ errno, x = thrown errno := by
  rw [makeRoom, Program.exec_get_bind] at h
  obtain ⟨q₁, h₁⟩ := Program.exists_of_exec_loop_eq_error h
  exact exists_of_exec_enter h₁

theorem inReserve_of_exec_reserve {count : ℕ} {drain : Bool}
    (h : (reserve o count drain).exec q = some (.error x, q')) : x.InReserve := by
  unfold reserve at h
  split_ifs at h
  · cases h
    trivial
  · rcases Program.exec_bind_eq_some.mp h with ⟨y, hy, heq⟩ | ⟨-, q₁, -, hlast⟩
    · obtain ⟨errno, rfl⟩ := exists_of_exec_makeRoom hy
      rw [Except.error.inj heq]
      trivial
    · cases hlast

theorem inSqe_of_exec_sqe {flush : Bool} (h : (sqe o flush e).exec q = some (.error x, q')) :
    x.InSqe := by
  rcases Program.exec_bind_eq_some.mp h with ⟨y, hy, heq⟩ | ⟨-, q₁, -, hrest⟩
  · rw [Except.error.inj heq]
    rw [threshold, Program.exec_get_bind] at hy
    split_ifs at hy
    · obtain ⟨errno, rfl⟩ := exists_of_exec_enter hy
      trivial
    · cases hy
  rcases Program.exec_bind_eq_some.mp hrest with ⟨y, hy, heq⟩ | ⟨-, q₂, -, hlast⟩
  · obtain ⟨errno, rfl⟩ := exists_of_exec_makeRoom hy
    rw [Except.error.inj heq]
    trivial
  · cases hlast

/-! ### When there is room -/

theorem exec_makeRoom_of_room {count : ℕ} {thrown : ℕ → Thrown} (h : lacks o count q = false) :
    (makeRoom o count thrown).exec q = some (.ok (), q) := by
  rw [makeRoom, Program.exec_get_bind, Program.loop, Program.exec_get_bind, h]
  rfl

theorem exec_enter_of_took {thrown : ℕ → Thrown} {n : ℕ} {rest : List Reply}
    (h : q.replies = .took n :: rest) : (enter thrown).exec q = some (.ok (), q.take n rest) := by
  rw [enter, Program.exec_get_bind, h]
  rfl

theorem exec_makeRoom_of_took {count : ℕ} {thrown : ℕ → Thrown} {n : ℕ} {rest : List Reply}
    (h : q.replies = .took n :: rest) (hlacks : lacks o count q = true)
    (hroom : lacks o count (q.take n rest) = false) :
    (makeRoom o count thrown).exec q = some (.ok (), q.take n rest) := by
  have hlen : q.replies.length = rest.length + 1 := congrArg List.length h
  rw [makeRoom, Program.exec_get_bind, hlen, Program.loop, Program.exec_get_bind, hlacks,
    if_pos rfl, Program.exec_bind_of_ok (exec_enter_of_took h), Program.loop,
    Program.exec_get_bind, hroom]
  rfl

theorem watchWaking_wakePoll {drain : Bool} (hdrain : drain = true)
    (h : (q.wakePoll drain).watching = true) : (q.wakePoll drain).watchWaking = true := by
  unfold wakePoll at h ⊢
  by_cases hwake : (drain && q.watching && !q.watchWaking) = true
  · rw [if_pos hwake]
  · rw [if_neg hwake] at h ⊢
    simpa [hdrain, h] using hwake

/-- `access::reserve` returns when there is room for all entries, and when the poll of the eventfd
is being woken if an entry drains. -/
theorem lacks_of_exec_reserve {count : ℕ} {drain : Bool} {u : Unit}
    (h : (reserve o count drain).exec q = some (.ok u, q')) :
    lacks o count q' = false ∧
      (drain = true → q'.watching = true → q'.watchWaking = true) := by
  unfold reserve at h
  split_ifs at h
  · cases h
  · rcases Program.exec_bind_eq_some.mp h with ⟨y, -, heq⟩ | ⟨_, q₁, h₁, hlast⟩
    · cases heq
    · cases hlast
      rw [makeRoom, Program.exec_get_bind] at h₁
      have hroom : lacks o count q₁ = false := Program.eq_false_of_exec_loop h₁
      refine ⟨?_, fun hdrain => watchWaking_wakePoll hdrain⟩
      rwa [lacks, sq_wakePoll]

end Queue

/-! ### A kernel that takes everything -/

namespace Ring

variable {o : Options} {s : Ring} {n : ℕ}

/-- The submission queue of a ring. -/
def queue (s : Ring) (replies : List Reply) : Queue where
  sq := s.sq
  watching := s.watching
  watchWaking := s.watchWaking
  event := s.event
  taken := s.groups.flatten
  replies := replies

theorem take_queue (h : s.sq.length ≤ n) (replies rest : List Reply) :
    (s.queue replies).take n rest = s.flush.queue rest := by
  simp only [Queue.take, queue, flush, List.drop_eq_nil_of_le h, List.take_of_length_le h,
    List.flatten_append, List.flatten_singleton]

theorem wakePoll_queue (drain : Bool) (replies : List Reply) :
    (s.queue replies).wakePoll drain = (s.wakePoll drain).queue replies := by
  unfold Queue.wakePoll Ring.wakePoll
  by_cases h : (drain && s.watching && !s.watchWaking) = true
  · rw [if_pos h]
    exact if_pos h
  · rw [if_neg h]
    exact if_neg h

theorem lacks_flush {count : ℕ} (hcount : count ≤ o.entries) (rest : List Reply) :
    Queue.lacks o count (s.flush.queue rest) = false :=
  decide_eq_false (Nat.not_lt.mpr hcount)

theorem exec_makeRoom {count : ℕ} (hcount : count ≤ o.entries) (h : s.sq.length ≤ n)
    (thrown : ℕ → Thrown) (replies : List Reply) :
    ∃ rest, (Queue.makeRoom o count thrown).exec (s.queue (.took n :: replies)) =
      some (.ok (), (s.makeRoom o count).queue rest) := by
  unfold makeRoom
  split_ifs with hroom
  · refine ⟨replies, ?_⟩
    rw [Queue.exec_makeRoom_of_took rfl (decide_eq_true hroom), take_queue h]
    rw [take_queue h]
    exact lacks_flush hcount replies
  · exact ⟨_, Queue.exec_makeRoom_of_room (decide_eq_false hroom)⟩

/-- `access::reserve` with a kernel that takes everything. -/
theorem exec_reserve {count : ℕ} (hcount : count ≤ o.entries) (h : s.sq.length ≤ n) (drain : Bool)
    (replies : List Reply) :
    ∃ rest, (Queue.reserve o count drain).exec (s.queue (.took n :: replies)) =
      some (.ok (), ((s.makeRoom o count).wakePoll drain).queue rest) := by
  obtain ⟨rest, hroom⟩ := exec_makeRoom hcount h .room replies
  refine ⟨rest, ?_⟩
  rw [Queue.reserve, if_neg (Nat.not_lt.mpr hcount), Program.exec_bind_of_ok hroom,
    Program.exec_modify, wakePoll_queue]

/-- `driver::sqe` with a kernel that takes everything. -/
theorem exec_sqe (h : s.sq.length ≤ n) (flush : Bool) (e : Sqe) (replies : List Reply) :
    ∃ rest, (Queue.sqe o flush e).exec (s.queue (.took n :: replies)) =
      some (.ok (), (s.sqe o flush e).queue rest) := by
  unfold Ring.sqe threshold
  split_ifs with hfull
  · -- the flush at the threshold has made room already
    have hroom := lacks_flush (s := s) (Nat.succ_le_of_lt o.entries_pos) replies
    refine ⟨replies, ?_⟩
    have hthreshold : (Queue.threshold o flush).exec (s.queue (.took n :: replies)) =
        some (.ok (), s.flush.queue replies) := by
      rw [Queue.threshold, Program.exec_get_bind, if_pos, Queue.exec_enter_of_took rfl,
        take_queue h]
      exact Bool.and_eq_true_iff.mpr ⟨hfull.1, decide_eq_true hfull.2⟩
    rw [Queue.sqe, Program.exec_bind_of_ok hthreshold,
      Program.exec_bind_of_ok (Queue.exec_makeRoom_of_room hroom), makeRoom, if_neg]
    · rfl
    · exact of_decide_eq_false hroom
  · obtain ⟨rest, hroom⟩ := exec_makeRoom (s := s) (o := o) o.entries_pos h .full replies
    refine ⟨rest, ?_⟩
    have hthreshold : (Queue.threshold o flush).exec (s.queue (.took n :: replies)) =
        some (.ok (), s.queue (.took n :: replies)) := by
      rw [Queue.threshold, Program.exec_get_bind, if_neg]
      · rfl
      · intro hand
        obtain ⟨hf, ht⟩ := Bool.and_eq_true_iff.mp hand
        exact hfull ⟨hf, of_decide_eq_true ht⟩
    rw [Queue.sqe, Program.exec_bind_of_ok hthreshold, Program.exec_bind_of_ok hroom]
    rfl

end Ring

end Snowy.Uring
