import Mathlib.Algebra.Group.Nat.Defs
import Snowy.Lib.Drain

/-!
# Writing a whole buffer

`write_all` repeats a write until the buffer is empty. For a file each write goes to an explicit
offset, an unsigned 64-bit number, and is refused when its last byte would lie beyond the largest
signed one; for a socket the bytes follow each other. One request has at most `INT_MAX` bytes.

A turn is what the environment contributes to one write: it may be refused before a request is made
(the object is empty or busy, the token or the loop is stopped), and the request may fail or write
some of its leading bytes.

## Main definitions

* `Snowy.Turn` : the part of the environment in one write.
* `Snowy.File.transfer`, `Snowy.Socket.write` : one write.
* `Snowy.File.writeAll`, `Snowy.Socket.writeAll` : the two overloads of `write_all`.

## Main results

* `Snowy.write_all_writes_buffer` : what is written, and where.
-/

namespace Snowy

variable {β : Type*}

/-- What a write throws. -/
inductive WriteError where
  | system (code : ℤ)
  | operationCanceled
  | ioError
  | brokenPipe
  | invalidArgument (what : String)
  | logicError (what : String)
  deriving DecidableEq, Repr

/-- The answer to a request for `length` bytes: it fails, or some leading bytes are written. -/
inductive Answer (length : ℕ) where
  | count (n : ℕ) (le : n ≤ length)
  | error (e : WriteError)
  deriving DecidableEq

/-- The environment in one write: why it is refused, if it is, and the answer to a request. -/
structure Turn where
  refusal : Option WriteError := none
  answer : (length : ℕ) → Answer length

/-- `INT_MAX`. -/
def intMax : ℕ := 2 ^ 31 - 1

/-- `INT64_MAX`. -/
def int64Max : ℕ := 2 ^ 63 - 1

/-- The length of the request for a buffer: `std::min<std::size_t>(size, INT_MAX)`. -/
def requestLength (size : ℕ) : ℕ := min size intMax

/-- A request for the beginning of a buffer of the given size; one without bytes completes at
once. -/
def Turn.request (t : Turn) (size : ℕ) : Except WriteError {n : ℕ // n ≤ size} :=
  if requestLength size = 0 then .ok ⟨0, Nat.zero_le _⟩
  else
    match t.answer (requestLength size) with
    | .count n le => .ok ⟨n, le.trans (Nat.min_le_left ..)⟩
    | .error e => .error e

/-! ### Files -/

namespace File

/-- `file::transfer` for writing. -/
def transfer (t : Turn) (size offset : ℕ) : Except WriteError {n : ℕ // n ≤ size} :=
  match t.refusal with
  | some e => .error e
  | none =>
    if int64Max < offset ∨ int64Max - offset < requestLength size then
      .error (.invalidArgument "file offset overflow")
    else t.request size

/-- The loop of `write_all`: an offset has 64 bits. -/
def sink (turns : ℕ → Turn) : Sink WriteError ℕ where
  offer i offset size := transfer (turns i) size offset
  stalled := .ioError
  advance offset n := (offset + n) % 2 ^ 64

/-- `write_all(file&, …)`. -/
def writeAll (turns : ℕ → Turn) (buffer : List β) (offset : ℕ) : Sink.Trace WriteError ℕ β :=
  (sink turns).drain 0 offset buffer

end File

/-! ### Sockets -/

namespace Socket

/-- `socket::write`. -/
def write (t : Turn) (size : ℕ) : Except WriteError {n : ℕ // n ≤ size} :=
  match t.refusal with
  | some e => .error e
  | none => t.request size

/-- The loop of `write_all`, which has no state. -/
def sink (turns : ℕ → Turn) : Sink WriteError Unit where
  offer i _ size := write (turns i) size
  stalled := .brokenPipe
  advance _ _ := ()

/-- `write_all(socket&, …)`. -/
def writeAll (turns : ℕ → Turn) (buffer : List β) : Sink.Trace WriteError Unit β :=
  (sink turns).drain 0 () buffer

end Socket

/-! ### Results -/

/-- A request writes at most its own length. -/
theorem le_requestLength_of_request {t : Turn} {size : ℕ} {n : {n : ℕ // n ≤ size}}
    (h : t.request size = .ok n) : n.1 ≤ requestLength size := by
  unfold Turn.request at h
  split_ifs at h
  · rw [← Except.ok.inj h]
    exact Nat.zero_le _
  · split at h
    case h_1 n le _ =>
      rw [← Except.ok.inj h]
      exact le
    case h_2 => cases h

namespace File

/-- A write that succeeds ends below the limit. -/
theorem add_le_of_transfer {t : Turn} {size offset : ℕ} {n : {n : ℕ // n ≤ size}}
    (h : transfer t size offset = .ok n) : offset + n ≤ int64Max := by
  unfold transfer at h
  cases hrefusal : t.refusal with
  | some e =>
    rw [hrefusal] at h
    cases h
  | none =>
    rw [hrefusal] at h
    dsimp only at h
    split_ifs at h with hrange
    have hle := le_requestLength_of_request h
    omega

/-- So the offset does not wrap around. -/
theorem advance_sink {turns : ℕ → Turn} {i offset size : ℕ} {n : {n : ℕ // n ≤ size}}
    (h : (sink turns).offer i offset size = .ok n) :
    (sink turns).advance offset n = offset + n := by
  have hle : offset + n ≤ int64Max := add_le_of_transfer h
  refine Nat.mod_eq_of_lt (hle.trans_lt ?_)
  decide

/-- Nothing is written from an offset beyond the limit. -/
theorem accepted_writeAll_of_lt (turns : ℕ → Turn) (buffer : List β) {offset : ℕ}
    (h : int64Max < offset) :
    (writeAll turns buffer offset).accepted = [] ∧
      (writeAll turns buffer offset).states = [offset] := by
  refine Sink.drain_induction (k := sink turns) (P := fun _ offset _ t =>
    int64Max < offset → t.accepted = [] ∧ t.states = [offset]) ?_ ?_ ?_ 0 offset buffer h
  · exact fun _ _ _ => ⟨rfl, rfl⟩
  · exact fun _ _ _ _ _ _ => ⟨rfl, rfl⟩
  · intro i offset buffer n t hoffer _ _ h
    have hle : offset + n ≤ int64Max := add_le_of_transfer hoffer
    omega

end File

/-- A turn that writes everything that is requested. -/
def Turn.full : Turn where
  answer length := .count length le_rfl

/-- The running offset can be beyond `INT64_MAX`: the caller may start there. -/
theorem exists_offset_beyond_int64Max : ∃ (buffer : List Bool) (offset : ℕ), offset < 2 ^ 64 ∧
    ∃ o ∈ (File.writeAll (fun _ => .full) buffer offset).states, int64Max < o := by
  refine ⟨[true], 2 ^ 63, by decide, 2 ^ 63, ?_, by decide⟩
  rw [(File.accepted_writeAll_of_lt _ _ (by decide : int64Max < 2 ^ 63)).2]
  exact List.mem_singleton_self _

/-- **`write_all` writes the buffer or a prefix of it.** For every buffer, every starting offset and
all turns, both overloads end after at most one write per byte. If they return, the bytes written
are the whole buffer, in order, each once; if they throw, they are a prefix of it, and not all of
it. In a file they stand at consecutive positions from the starting offset on. The running offset is
always the starting offset plus the number of bytes written so far, without wrapping around, and
each value that it takes after a write is at most `INT64_MAX`; nothing is written if the starting
offset is larger. -/
theorem write_all_writes_buffer (turns : ℕ → Turn) (buffer : List β) :
    (∀ offset, ∃ written, written <+: buffer ∧
      (File.writeAll turns buffer offset).calls ≤ buffer.length ∧
      (File.writeAll turns buffer offset).placed id = place offset written ∧
      ((File.writeAll turns buffer offset).outcome = .ok () ↔ written = buffer) ∧
      (∀ o ∈ (File.writeAll turns buffer offset).states,
        ∃ p, p <+: written ∧ o = offset + p.length) ∧
      (∃ later, (File.writeAll turns buffer offset).states = offset :: later ∧
        ∀ o ∈ later, o ≤ int64Max) ∧
      (int64Max < offset → written = [])) ∧
    ((Socket.writeAll turns buffer).calls ≤ buffer.length ∧
      (Socket.writeAll turns buffer).accepted <+: buffer ∧
      ((Socket.writeAll turns buffer).outcome = .ok () ↔
        (Socket.writeAll turns buffer).accepted = buffer)) := by
  constructor
  · intro offset
    have hadvance : ∀ i offset size n, (File.sink turns).offer i offset size = .ok n → n.1 ≠ 0 →
        id ((File.sink turns).advance offset n) = id offset + n :=
      fun _ _ _ _ h _ => File.advance_sink h
    obtain ⟨hplaced, hstates⟩ := Sink.drain_placed hadvance 0 offset buffer
    obtain ⟨hpre, hok⟩ := Sink.accepted_drain (k := File.sink turns) 0 offset buffer
    refine ⟨(File.writeAll turns buffer offset).accepted, hpre, Sink.drain_calls_le .., hplaced,
      hok, hstates, ?_, fun h => (File.accepted_writeAll_of_lt turns buffer h).1⟩
    refine Sink.drain_states (fun _ offset _ n h _ => ?_) 0 offset buffer
    rw [File.advance_sink h]
    exact File.add_le_of_transfer h
  · exact ⟨Sink.drain_calls_le .., Sink.accepted_drain ..⟩

end Snowy
