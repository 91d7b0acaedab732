import Mathlib.Data.List.Count
import Mathlib.Logic.Relation
import Snowy.Lib.Program
import Snowy.Ranges

/-!
# Registered buffers

A ring can have a table of registered buffers, which the kernel holds. An object of the class
`buffers` stands for the table of the ring of its loop; it keeps a copy of the table, `regions_`,
from which operations take the address and the length of the buffer in a slot. The kernel, however,
goes by the number of the slot. Slots can be replaced, also in part: the kernel may stop after any
number of them. An operation that refers to the table pins it, and a table that is pinned refuses
updates.

The functions are programs over the tables of the kernel, the objects of the class `buffers`, and
the operations that exist. What the kernel answers is a parameter: a registration fails or succeeds,
if the ring has no table yet, and an update fails and leaves the table as it is, or it replaces the
first slots of the range. A program that does not end stands for `std::terminate`, or for the use
of an object that does not exist.

## Main definitions

* `Snowy.Uring.Registered.State` : the tables, the objects and the operations.
* `Snowy.Uring.Registered.Call` : the calls, with `dense`, `sparse`, `clone`, `update`, `buffersAt`,
  `filesRead`, `filesWrite`, `sendZc`, `zcSend` and the destructors.
* `Snowy.Uring.Registered.Effect` : what a call can do.
* `Snowy.Uring.Registered.Sound` : the invariant.

## Main results

* `Snowy.Uring.Registered.Step.effect` : a call has one of the effects.
* `Snowy.Uring.Registered.mirror_equals_kernel` : the copies are the tables of the kernel.
-/

namespace Snowy.Uring.Registered

open Function List

/-! ### The state -/

/-- What the functions throw. The text of an exception of `std::vector::at` is left open. -/
inductive Error where
  | invalidArgument (what : String)
  | logicError (what : String)
  | outOfRange (what : Option String)
  | system (code : ℕ)
  deriving DecidableEq, Repr

/-- The opcodes of operations on registered buffers, and the others. -/
inductive Opcode where
  | readFixed
  | writeFixed
  | sendZc
  | other (code : ℕ)
  deriving DecidableEq, Repr

/-- The members of `io_uring_sqe` that are used. -/
structure Sqe where
  opcode : Opcode
  flags : UInt8 := 0
  ioprio : UInt16 := 0
  fd : ℕ
  off : UInt64 := 0
  addr : UInt64
  len : UInt32
  bufIndex : UInt16 := 0
  deriving DecidableEq, Repr

/-- `IOSQE_FIXED_FILE`. -/
def fixedFile : UInt8 := 1

/-- `IOSQE_CQE_SKIP_SUCCESS | IOSQE_IO_LINK | IOSQE_IO_HARDLINK`. -/
def skipOrLink : UInt8 := 64 ||| 4 ||| 8

/-- `IORING_RECVSEND_FIXED_BUF`. -/
def fixedBuf : UInt16 := 4

/-- An object of the class `buffers`. -/
structure Table where
  loop : ℕ
  regions : List Iovec
  active : ℕ := 0
  deriving DecidableEq, Repr

/-- An object of the class `op`, with `sqe_` and `buffers_`. The entries of operations that are not
made by a function for registered buffers are the user's. -/
structure Op where
  loop : ℕ
  sqe : Sqe
  buffers : Option ℕ
  users : Bool
  deriving DecidableEq, Repr

/-- The tables that the kernel has for the rings, the objects, and the operations. -/
structure State where
  kernel : ℕ → Option (List Iovec) := fun _ => none
  tables : ℕ → Option Table := fun _ => none
  ops : List Op := []

/-- An object of the class `files`. -/
structure Files where
  loop : ℕ
  size : ℕ
  deriving DecidableEq, Repr

/-- A socket. -/
structure Socket where
  loop : ℕ
  fd : ℕ
  deriving DecidableEq, Repr

/-- The answer to an update of `count` slots. -/
inductive Answer (count : ℕ) where
  | failed (code : ℕ)
  | updated (n : ℕ) (le : n ≤ count)

/-- Functions on registered buffers. -/
abbrev Code (α : Type) : Type := Program State Error α

/-! ### Tables -/

/-- `std::copy_n(regions.begin(), n, table.begin() + offset)`. -/
def copyN : List Iovec → ℕ → List Iovec → ℕ → List Iovec
  | r :: regions, n + 1, table, offset => copyN regions n (table.set offset r) (offset + 1)
  | _, _, table, _ => table

/-- The table after an update by the kernel, slot by slot. -/
def replaceSlots (regions : List Iovec) (n : ℕ) (table : List Iovec) (offset : ℕ) :
    List Iovec :=
  table.mapIdx fun i old =>
    if offset ≤ i ∧ i < offset + n then regions.getD (i - offset) old else old

namespace State

variable (s : State)

/-- The kernel has a table for a ring, or none any more. -/
def setKernel (ring : ℕ) (slots : Option (List Iovec)) : State :=
  { s with kernel := Function.update s.kernel ring slots }

/-- An object is created, changed or destroyed. -/
def setTable (t : ℕ) (T : Option Table) : State :=
  { s with tables := Function.update s.tables t T }

/-- The operations are changed. -/
def setOps (ops : List Op) : State := { s with ops }

theorem tables_setTable_self (t : ℕ) (T : Option Table) : (s.setTable t T).tables t = T :=
  update_self ..

end State

/-- An object that exists. -/
def table (t : ℕ) : Code Table := do
  match (← get).tables t with
  | some T => pure T
  | none => Program.wait

/-- An object that does not exist yet. -/
def unused (t : ℕ) : Code Unit := do
  match (← get).tables t with
  | some _ => Program.wait
  | none => pure ()

/-- `EBUSY`. -/
def ebusy : ℕ := 16

/-- `ENXIO`. -/
def enxio : ℕ := 6

/-- The kernel registers a table for a ring, which has none yet. -/
def register (ring : ℕ) (slots : List Iovec) (failure : Option ℕ) : Code Unit := do
  match failure with
  | some code => throw (.system code)
  | none =>
    Program.reject (((← get).kernel ring).isSome = true) (.system ebusy)
    modify fun s => s.setKernel ring (some slots)

/-- The constructor of `buffers` for given regions. -/
def dense (t loop : ℕ) (regions : List Iovec) (failure : Option ℕ) : Code Unit := do
  unused t
  Program.reject (regions = [] ∨ 65536 < regions.length)
    (.invalidArgument "invalid buffer table size")
  Program.reject (∃ r ∈ regions, r.base = 0 ∨ r.len = 0 ∨ .ofNat intMax < r.len)
    (.invalidArgument "invalid registered buffer")
  register loop regions failure
  modify fun s => s.setTable t (some { loop, regions })

/-- The constructor of `buffers` for empty slots. -/
def sparse (t loop count : ℕ) (failure : Option ℕ) : Code Unit := do
  unused t
  Program.reject (count = 0 ∨ 65536 < count) (.invalidArgument "invalid buffer table size")
  register loop (List.replicate count ⟨0, 0⟩) failure
  modify fun s => s.setTable t (some { loop, regions := List.replicate count ⟨0, 0⟩ })

/-- The constructor of `buffers` that clones the table of another ring. The kernel copies its own
table, if there is one, and the object copies the copy of the other object. -/
def clone (t loop source : ℕ) (failure : Option ℕ) : Code Unit := do
  unused t
  let T ← table source
  match (← get).kernel T.loop with
  | none => throw (.system enxio)
  | some slots => register loop slots failure
  modify fun s => s.setTable t (some { loop, regions := T.regions })

/-- `buffers::~buffers`, which terminates the program if the table is pinned or the kernel does not
unregister it. -/
def destroyTable (t : ℕ) (failure : Option ℕ) : Code Unit := do
  let T ← table t
  if T.active ≠ 0 ∨ failure.isSome then Program.wait
  else
    modify fun s => (s.setKernel T.loop none).setTable t none

/-- `buffers::update`. -/
def update (t offset : ℕ) (regions : List Iovec) (answer : Answer regions.length) : Code ℕ := do
  let T ← table t
  Program.reject (T.active ≠ 0) (.logicError "buffer table still referenced")
  Program.reject (T.regions.length < offset ∨ T.regions.length - offset < regions.length)
    (.outOfRange (some "buffer update range"))
  Program.reject (∃ r ∈ regions, ¬(r.base = 0 ↔ r.len = 0) ∨ .ofNat intMax < r.len)
    (.invalidArgument "invalid registered buffer")
  if regions = [] then pure 0
  else
    match answer with
    | .failed code => throw (.system code)
    | .updated n _ =>
      modify fun s => s.setKernel T.loop
        ((s.kernel T.loop).map fun slots => replaceSlots regions n slots offset)
      modify fun s => s.setTable t
        (some { T with regions := copyN regions n T.regions offset })
      pure n

/-- `buffers::at`. -/
def buffersAt (t index : ℕ) : Code Iovec := do
  let T ← table t
  match T.regions[index]? with
  | none => throw (.outOfRange none)
  | some r =>
    Program.reject (r.base = 0) (.logicError "empty buffer slot")
    pure r

/-! ### Operations -/

/-- The constructor of `op` for an entry and a table that it may refer to. -/
def makeOp (loop : ℕ) (sqe : Sqe) (buffers : Option ℕ) (users : Bool) : Code Unit := do
  Program.reject (sqe.flags &&& skipOrLink ≠ 0)
    (.invalidArgument "standalone operation cannot skip or link completions")
  match buffers with
  | none => pure ()
  | some t =>
    let T ← table t
    Program.reject (T.loop ≠ loop)
      (.invalidArgument "registered resource belongs to another loop")
    modify fun s => s.setTable t (some { T with active := T.active + 1 })
  modify fun s => s.setOps ({ loop, sqe, buffers, users } :: s.ops)

/-- `op::~op`. -/
def destroyOp (op : Op) : Code Unit := do
  if op ∈ (← get).ops then
    modify fun s => s.setOps (s.ops.erase op)
    match op.buffers with
    | none => pure ()
    | some t =>
      let T ← table t
      modify fun s => s.setTable t (some { T with active := T.active - 1 })
  else Program.wait

/-- `transfer` for a registered buffer. -/
def transfer (fd : ℕ) (data : Iovec) (off : UInt64) (write : Bool) (slot : ℕ) : Code Sqe := do
  match (bounds data.len off).result with
  | .error e => throw (.invalidArgument e.what)
  | .ok _ =>
    pure
      { opcode := if write then .writeFixed else .readFixed
        fd, off, addr := data.base, len := data.len.toUInt32, bufIndex := .ofNat slot }

/-- `files::read` and `files::write` for registered buffers. -/
def filesTransfer (write : Bool) (f : Files) (index t slot : ℕ) (off : UInt64) : Code Unit := do
  Program.reject (f.size ≤ index) (.outOfRange (some "file table index"))
  let data ← buffersAt t slot
  let sqe ← transfer index data off write slot
  makeOp f.loop { sqe with flags := sqe.flags ||| fixedFile } (some t) false

/-- `files::read` for a registered buffer. -/
def filesRead : Files → ℕ → ℕ → ℕ → UInt64 → Code Unit := filesTransfer false

/-- `files::write` for a registered buffer. -/
def filesWrite : Files → ℕ → ℕ → ℕ → UInt64 → Code Unit := filesTransfer true

/-- `tx` for a registered buffer. -/
def tx (socket : Socket) (t index : ℕ) : Code Sqe := do
  let data ← buffersAt t index
  Program.reject (.ofNat intMax < data.len) (.invalidArgument "send_zc size overflow")
  pure
    { opcode := .sendZc, fd := socket.fd, addr := data.base, len := data.len.toUInt32
      ioprio := fixedBuf, bufIndex := .ofNat index }

/-- `send_zc` for a registered buffer. -/
def sendZc (socket : Socket) (t index : ℕ) : Code Unit := do
  let sqe ← tx socket t index
  makeOp socket.loop sqe (some t) false

/-- The constructor of `zc_send` for a registered buffer, which is an `op`. -/
def zcSend (socket : Socket) (t index : ℕ) : Code Unit := do
  let sqe ← tx socket t index
  makeOp socket.loop sqe (some t) false

/-! ### Runs -/

/-- The calls. -/
inductive Call where
  | dense (t loop : ℕ) (regions : List Iovec) (failure : Option ℕ)
  | sparse (t loop count : ℕ) (failure : Option ℕ)
  | clone (t loop source : ℕ) (failure : Option ℕ)
  | destroyTable (t : ℕ) (failure : Option ℕ)
  | update (t offset : ℕ) (regions : List Iovec) (answer : Answer regions.length)
  | buffersAt (t index : ℕ)
  | makeOp (loop : ℕ) (sqe : Sqe) (buffers : Option ℕ)
  | destroyOp (op : Op)
  | filesRead (f : Files) (index t slot : ℕ) (off : UInt64)
  | filesWrite (f : Files) (index t slot : ℕ) (off : UInt64)
  | sendZc (socket : Socket) (t index : ℕ)
  | zcSend (socket : Socket) (t index : ℕ)

/-- The program of a call. -/
def Call.run : Call → Code Unit
  | .dense t loop regions failure => Registered.dense t loop regions failure
  | .sparse t loop count failure => Registered.sparse t loop count failure
  | .clone t loop source failure => Registered.clone t loop source failure
  | .destroyTable t failure => Registered.destroyTable t failure
  | .update t offset regions answer => do let _ ← Registered.update t offset regions answer
  | .buffersAt t index => do let _ ← Registered.buffersAt t index
  | .makeOp loop sqe buffers => Registered.makeOp loop sqe buffers true
  | .destroyOp op => Registered.destroyOp op
  | .filesRead f index t slot off => Registered.filesRead f index t slot off
  | .filesWrite f index t slot off => Registered.filesWrite f index t slot off
  | .sendZc socket t index => Registered.sendZc socket t index
  | .zcSend socket t index => Registered.zcSend socket t index

/-- A call that ends, by returning or throwing. -/
def Step (s s' : State) : Prop := ∃ (c : Call) (r : Except Error Unit), c.run.exec s = some (r, s')

/-- The states of the runs. -/
def Reachable (s : State) : Prop := Relation.ReflTransGen Step {} s

/-! ### What a call can do -/

section Calls

variable {s s' : State} {t : ℕ} {α : Type} {r : Except Error α}

theorem exec_table_bind {f : Table → Code α} (h : (table t >>= f).exec s = some (r, s')) :
    ∃ T, s.tables t = some T ∧ (f T).exec s = some (r, s') := by
  cases hT : s.tables t with
  | none =>
    have hwait : (table t).exec s = none := by
      rw [table, Program.exec_get_bind, hT]
      rfl
    rw [Program.exec_bind_of_none hwait] at h
    cases h
  | some T =>
    have hpure : (table t).exec s = some (.ok T, s) := by
      rw [table, Program.exec_get_bind, hT]
      rfl
    rw [Program.exec_bind_of_ok hpure] at h
    exact ⟨T, rfl, h⟩

theorem exec_unused_bind {f : Unit → Code α} (h : (unused t >>= f).exec s = some (r, s')) :
    s.tables t = none ∧ (f ()).exec s = some (r, s') := by
  cases hT : s.tables t with
  | some T =>
    have hwait : (unused t).exec s = none := by
      rw [unused, Program.exec_get_bind, hT]
      rfl
    rw [Program.exec_bind_of_none hwait] at h
    cases h
  | none =>
    have hpure : (unused t).exec s = some (.ok (), s) := by
      rw [unused, Program.exec_get_bind, hT]
      rfl
    rw [Program.exec_bind_of_ok hpure] at h
    exact ⟨rfl, h⟩

/-- A registration that fails leaves the kernel's tables as they are. -/
theorem exec_register_bind {ring : ℕ} {slots : List Iovec} {failure : Option ℕ}
    {f : Unit → Code α} (h : (register ring slots failure >>= f).exec s = some (r, s')) :
    s' = s ∨ (s.kernel ring = none ∧
      (f ()).exec (s.setKernel ring (some slots)) = some (r, s')) := by
  cases failure with
  | some code =>
    have hthrow : (register ring slots (some code)).exec s = some (.error (.system code), s) := rfl
    rw [Program.exec_bind_of_error hthrow] at h
    exact .inl (Prod.mk.inj (Option.some.inj h)).2.symm
  | none =>
    rcases Program.exec_bind_eq_some.mp h with ⟨e, he, -⟩ | ⟨u, s₁, hu, hrest⟩
    · rw [register, Program.exec_get_bind] at he
      rcases Program.exec_reject_bind he with ⟨-, -, hs⟩ | ⟨-, hmodify⟩
      · exact .inl hs
      · cases hmodify
    · rw [register, Program.exec_get_bind] at hu
      rcases Program.exec_reject_bind hu with ⟨-, hr, -⟩ | ⟨hfree, hmodify⟩
      · cases hr
      · cases hmodify
        exact .inr ⟨Option.not_isSome_iff_eq_none.mp hfree, hrest⟩

end Calls

/-- The entry has the address and the length of the region in a slot, and the number of the slot. -/
def Sqe.Names (sqe : Sqe) (regions : List Iovec) : Prop :=
  ∃ (slot : ℕ) (r : Iovec), regions[slot]? = some r ∧ sqe.bufIndex = .ofNat slot ∧
    sqe.addr = r.base ∧ sqe.len.toNat = r.len.toNat

/-- What a call can do. -/
inductive Effect (s : State) : State → Prop where
  | skip : Effect s s
  | register (t loop : ℕ) (regions : List Iovec) (fresh : s.tables t = none)
      (free : s.kernel loop = none) (le : regions.length ≤ 65536) :
      Effect s ((s.setKernel loop (some regions)).setTable t (some { loop, regions }))
  | clone (t loop source : ℕ) (T : Table) (slots : List Iovec) (fresh : s.tables t = none)
      (free : s.kernel loop = none) (alive : s.tables source = some T)
      (kernel : s.kernel T.loop = some slots) :
      Effect s ((s.setKernel loop (some slots)).setTable t (some { loop, regions := T.regions }))
  | unregister (t : ℕ) (T : Table) (alive : s.tables t = some T) (idle : T.active = 0) :
      Effect s ((s.setKernel T.loop none).setTable t none)
  | update (t offset : ℕ) (T : Table) (regions : List Iovec) (n : ℕ)
      (alive : s.tables t = some T) (idle : T.active = 0)
      (range : offset + regions.length ≤ T.regions.length) (le : n ≤ regions.length) :
      Effect s ((s.setKernel T.loop
        ((s.kernel T.loop).map fun slots => replaceSlots regions n slots offset)).setTable t
          (some { T with regions := copyN regions n T.regions offset }))
  | add (op : Op) (buffers : op.buffers = none) : Effect s (s.setOps (op :: s.ops))
  | pin (t : ℕ) (T : Table) (op : Op) (alive : s.tables t = some T) (loop : T.loop = op.loop)
      (buffers : op.buffers = some t) (names : op.users = false → op.sqe.Names T.regions) :
      Effect s ((s.setTable t (some { T with active := T.active + 1 })).setOps (op :: s.ops))
  | remove (op : Op) (mem : op ∈ s.ops) (buffers : op.buffers = none) :
      Effect s (s.setOps (s.ops.erase op))
  | unpin (t : ℕ) (T : Table) (op : Op) (mem : op ∈ s.ops) (alive : s.tables t = some T)
      (buffers : op.buffers = some t) :
      Effect s ((s.setOps (s.ops.erase op)).setTable t (some { T with active := T.active - 1 }))

section Effects

variable {s s' : State} {t : ℕ} {α : Type} {r : Except Error α}

theorem effect_dense {loop : ℕ} {regions : List Iovec} {failure : Option ℕ} {r : Except Error Unit}
    (h : (dense t loop regions failure).exec s = some (r, s')) : Effect s s' := by
  obtain ⟨hfresh, h⟩ := exec_unused_bind h
  rcases Program.exec_reject_bind h with ⟨-, -, rfl⟩ | ⟨hsize, h⟩
  · exact .skip
  rcases Program.exec_reject_bind h with ⟨-, -, rfl⟩ | ⟨-, h⟩
  · exact .skip
  rcases exec_register_bind h with rfl | ⟨hfree, h⟩
  · exact .skip
  cases h
  exact .register t loop regions hfresh hfree (Nat.not_lt.mp (not_or.mp hsize).2)

theorem effect_sparse {loop count : ℕ} {failure : Option ℕ} {r : Except Error Unit}
    (h : (sparse t loop count failure).exec s = some (r, s')) : Effect s s' := by
  obtain ⟨hfresh, h⟩ := exec_unused_bind h
  rcases Program.exec_reject_bind h with ⟨-, -, rfl⟩ | ⟨hsize, h⟩
  · exact .skip
  rcases exec_register_bind h with rfl | ⟨hfree, h⟩
  · exact .skip
  cases h
  refine .register t loop _ hfresh hfree ?_
  rw [length_replicate]
  exact Nat.not_lt.mp (not_or.mp hsize).2

theorem effect_clone {loop source : ℕ} {failure : Option ℕ} {r : Except Error Unit}
    (h : (clone t loop source failure).exec s = some (r, s')) : Effect s s' := by
  obtain ⟨hfresh, h⟩ := exec_unused_bind h
  obtain ⟨T, halive, h⟩ := exec_table_bind h
  rw [Program.exec_get_bind] at h
  cases hkernel : s.kernel T.loop with
  | none =>
    rw [hkernel] at h
    cases h
    exact .skip
  | some slots =>
    rw [hkernel] at h
    rcases exec_register_bind h with rfl | ⟨hfree, h⟩
    · exact .skip
    cases h
    exact .clone t loop source T slots hfresh hfree halive hkernel

theorem effect_destroyTable {failure : Option ℕ} {r : Except Error Unit}
    (h : (destroyTable t failure).exec s = some (r, s')) : Effect s s' := by
  obtain ⟨T, halive, h⟩ := exec_table_bind h
  split_ifs at h with hbusy
  · cases h
  · cases h
    exact .unregister t T halive (Decidable.not_not.mp (not_or.mp hbusy).1)

/-- An update that throws changes nothing; one that returns replaces slots of a table that is not
pinned. -/
theorem effect_update {offset : ℕ} {regions : List Iovec} {answer : Answer regions.length}
    {r : Except Error ℕ} (h : (update t offset regions answer).exec s = some (r, s')) :
    Effect s s' ∧ ∀ e, r = .error e → s' = s := by
  obtain ⟨T, halive, h⟩ := exec_table_bind h
  rcases Program.exec_reject_bind h with ⟨-, -, rfl⟩ | ⟨hidle, h⟩
  · exact ⟨.skip, fun _ _ => rfl⟩
  rcases Program.exec_reject_bind h with ⟨-, -, rfl⟩ | ⟨hrange, h⟩
  · exact ⟨.skip, fun _ _ => rfl⟩
  rcases Program.exec_reject_bind h with ⟨-, -, rfl⟩ | ⟨-, h⟩
  · exact ⟨.skip, fun _ _ => rfl⟩
  split_ifs at h
  · cases h
    exact ⟨.skip, fun _ _ => rfl⟩
  · cases answer with
    | failed code =>
      cases h
      exact ⟨.skip, fun _ _ => rfl⟩
    | updated n le =>
      cases h
      refine ⟨.update t offset T regions n halive (Decidable.not_not.mp hidle) ?_ le, nofun⟩
      omega

/-- `buffers::at` changes nothing, and returns the region in the slot or throws. -/
theorem exec_buffersAt {index : ℕ} {r : Except Error Iovec}
    (h : (buffersAt t index).exec s = some (r, s')) :
    s' = s ∧ ∃ T, s.tables t = some T ∧
      match r with
      | .ok x => T.regions[index]? = some x ∧ x.base ≠ 0
      | .error _ => ∀ x, T.regions[index]? = some x → x.base = 0 := by
  obtain ⟨T, halive, h⟩ := exec_table_bind h
  cases hslot : T.regions[index]? with
  | none =>
    rw [hslot] at h
    cases h
    exact ⟨rfl, T, halive, fun x hx => nomatch hslot.symm.trans hx⟩
  | some x =>
    rw [hslot] at h
    rcases Program.exec_reject_bind h with ⟨hnull, rfl, rfl⟩ | ⟨hbase, h⟩
    · exact ⟨rfl, T, halive, fun y hy => Option.some.inj (hslot.symm.trans hy) ▸ hnull⟩
    · cases h
      exact ⟨rfl, T, halive, hslot, hbase⟩

theorem effect_makeOp {loop : ℕ} {sqe : Sqe} {buffers : Option ℕ} {users : Bool}
    {r : Except Error Unit} (h : (makeOp loop sqe buffers users).exec s = some (r, s'))
    (hnames : ∀ t T, buffers = some t → s.tables t = some T → users = false →
      sqe.Names T.regions) : Effect s s' := by
  rcases Program.exec_reject_bind h with ⟨-, -, rfl⟩ | ⟨-, h⟩
  · exact .skip
  cases buffers with
  | none =>
    cases h
    exact .add { loop, sqe, buffers := none, users } rfl
  | some t =>
    obtain ⟨T, halive, h⟩ := exec_table_bind h
    rcases Program.exec_reject_bind h with ⟨-, -, rfl⟩ | ⟨hloop, h⟩
    · exact .skip
    cases h
    exact .pin t T { loop, sqe, buffers := some t, users } halive (Decidable.not_not.mp hloop) rfl
      (hnames t T rfl halive)

theorem effect_destroyOp {op : Op} {r : Except Error Unit}
    (h : (destroyOp op).exec s = some (r, s')) : Effect s s' := by
  rw [destroyOp, Program.exec_get_bind] at h
  split_ifs at h with hmem
  · rw [Program.exec_modify_bind] at h
    cases hbuffers : op.buffers with
    | none =>
      rw [hbuffers] at h
      cases h
      exact .remove op hmem hbuffers
    | some t =>
      rw [hbuffers] at h
      obtain ⟨T, halive, h⟩ := exec_table_bind h
      cases h
      exact .unpin t T op hmem halive hbuffers
  · cases h

/-- A length of at most `INT_MAX` is the same with 32 bits. -/
theorem toNat_toUInt32 {x : UInt64} (h : x.toNat ≤ intMax) : x.toUInt32.toNat = x.toNat := by
  rw [UInt64.toNat_toUInt32]
  exact Nat.mod_eq_of_lt (h.trans_lt (by decide))

/-- `transfer` changes nothing, and its entry names the region and the slot. -/
theorem exec_transfer {fd slot : ℕ} {data : Iovec} {off : UInt64} {write : Bool}
    {r : Except Error Sqe} (h : (transfer fd data off write slot).exec s = some (r, s')) :
    s' = s ∧ ∀ sqe, r = .ok sqe →
      sqe.bufIndex = .ofNat slot ∧ sqe.addr = data.base ∧ sqe.len.toNat = data.len.toNat := by
  unfold transfer at h
  split at h
  case h_1 =>
    cases h
    exact ⟨rfl, nofun⟩
  case h_2 hbounds =>
    cases h
    refine ⟨rfl, fun sqe hsqe => ?_⟩
    cases hsqe
    have hle := ((meets_bounds data.len off).post.mp ⟨_, hbounds⟩).1
    exact ⟨rfl, rfl, toNat_toUInt32 hle⟩

theorem effect_filesTransfer {write : Bool} {f : Files} {index slot : ℕ} {off : UInt64}
    {r : Except Error Unit} (h : (filesTransfer write f index t slot off).exec s = some (r, s')) :
    Effect s s' := by
  rcases Program.exec_reject_bind h with ⟨-, -, rfl⟩ | ⟨-, hread⟩
  · exact .skip
  rcases Program.exec_bind_eq_some.mp hread with ⟨e, he, -⟩ | ⟨data, s₁, hdata, hprepare⟩
  · exact (exec_buffersAt he).1 ▸ .skip
  obtain ⟨rfl, T, halive, hslot, -⟩ := exec_buffersAt hdata
  rcases Program.exec_bind_eq_some.mp hprepare with ⟨e, he, -⟩ | ⟨sqe, s₂, hsqe, hmake⟩
  · exact (exec_transfer he).1 ▸ .skip
  obtain ⟨rfl, hentry⟩ := exec_transfer hsqe
  refine effect_makeOp hmake fun t' T' ht hT _ => ?_
  cases ht
  cases halive.symm.trans hT
  exact ⟨slot, data, hslot, hentry sqe rfl⟩

/-- `tx` changes nothing, and names the slot. -/
theorem exec_tx {socket : Socket} {index : ℕ} {r : Except Error Sqe}
    (h : (tx socket t index).exec s = some (r, s')) :
    s' = s ∧ ∀ sqe T, r = .ok sqe → s.tables t = some T → sqe.Names T.regions := by
  rcases Program.exec_bind_eq_some.mp h with ⟨e, he, rfl⟩ | ⟨data, s₁, hdata, hcheck⟩
  · exact ⟨(exec_buffersAt he).1, nofun⟩
  obtain ⟨rfl, T, halive, hslot, -⟩ := exec_buffersAt hdata
  rcases Program.exec_reject_bind hcheck with ⟨-, rfl, rfl⟩ | ⟨hle, hpure⟩
  · exact ⟨rfl, nofun⟩
  cases hpure
  refine ⟨rfl, fun sqe T' hsqe hT => ?_⟩
  cases hsqe
  cases halive.symm.trans hT
  rw [UInt64.lt_iff_toNat_lt, toNat_intMax, Nat.not_lt] at hle
  exact ⟨index, data, hslot, rfl, rfl, toNat_toUInt32 hle⟩

/-- The sends of a registered buffer. -/
theorem effect_send {socket : Socket} {index : ℕ} {r : Except Error Unit} (h : (do
      let sqe ← tx socket t index
      makeOp socket.loop sqe (some t) false : Code Unit).exec s = some (r, s')) : Effect s s' := by
  rcases Program.exec_bind_eq_some.mp h with ⟨e, he, -⟩ | ⟨sqe, s₁, hsqe, hmake⟩
  · exact (exec_tx he).1 ▸ .skip
  · obtain ⟨rfl, hnames⟩ := exec_tx hsqe
    refine effect_makeOp hmake fun t' T ht hT _ => ?_
    cases ht
    exact hnames sqe T rfl hT

/-- A call has one of the effects. -/
theorem Step.effect (h : Step s s') : Effect s s' := by
  obtain ⟨c, r, h⟩ := h
  cases c with
  | dense t loop regions failure => exact effect_dense h
  | sparse t loop count failure => exact effect_sparse h
  | clone t loop source failure => exact effect_clone h
  | destroyTable t failure => exact effect_destroyTable h
  | update t offset regions answer =>
    rcases Program.exec_bind_eq_some.mp h with ⟨e, he, -⟩ | ⟨n, s₁, hn, h⟩
    · exact (effect_update he).1
    · cases h
      exact (effect_update hn).1
  | buffersAt t index =>
    rcases Program.exec_bind_eq_some.mp h with ⟨e, he, -⟩ | ⟨x, s₁, hx, h⟩
    · exact (exec_buffersAt he).1 ▸ .skip
    · cases h
      exact (exec_buffersAt hx).1 ▸ .skip
  | makeOp loop sqe buffers => exact effect_makeOp h nofun
  | destroyOp op => exact effect_destroyOp h
  | filesRead f index t slot off => exact effect_filesTransfer h
  | filesWrite f index t slot off => exact effect_filesTransfer h
  | sendZc socket t index => exact effect_send h
  | zcSend socket t index => exact effect_send h

end Effects

/-! ### Replacing slots -/

section Slots

variable {regions table : List Iovec} {n offset : ℕ}

theorem length_copyN : (copyN regions n table offset).length = table.length := by
  induction regions generalizing n table offset with
  | nil => rfl
  | cons r regions ih =>
    cases n with
    | zero => rfl
    | succ n => exact ih.trans (length_set ..)

/-- What the copy leaves in a slot. -/
theorem getElem?_copyN (hn : n ≤ regions.length) (hle : offset + n ≤ table.length) (i : ℕ) :
    (copyN regions n table offset)[i]? =
      if offset ≤ i ∧ i < offset + n then regions[i - offset]? else table[i]? := by
  induction regions generalizing n table offset with
  | nil =>
    obtain rfl : n = 0 := Nat.le_zero.mp hn
    exact (if_neg (by omega)).symm
  | cons r regions ih =>
    cases n with
    | zero => exact (if_neg (by omega)).symm
    | succ n =>
      have hset : (table.set offset r).length = table.length := length_set ..
      rw [copyN, ih (Nat.le_of_succ_le_succ hn) (by omega), List.getElem?_set]
      by_cases hi : i = offset
      · subst hi
        rw [if_neg (by omega), if_pos rfl, if_pos (by omega), if_pos (by omega), Nat.sub_self]
        rfl
      · rw [if_neg (Ne.symm hi)]
        split_ifs with h₁ h₂ h₂
        · have hsub : i - offset = i - (offset + 1) + 1 := by omega
          rw [hsub, List.getElem?_cons_succ]
        · omega
        · omega
        · rfl

/-- The copy agrees with what the kernel does. -/
theorem copyN_eq_replaceSlots (hn : n ≤ regions.length) (hle : offset + n ≤ table.length) :
    copyN regions n table offset = replaceSlots regions n table offset := by
  refine ext_getElem? fun i => ?_
  rw [getElem?_copyN hn hle, replaceSlots, List.getElem?_mapIdx]
  cases hi : table[i]? with
  | none =>
    have := List.getElem?_eq_none_iff.mp hi
    rw [if_neg (by omega)]
    rfl
  | some old =>
    split_ifs with hrange
    · have hlt : i - offset < regions.length := by omega
      rw [Option.map_some, getD_eq_getElem?_getD, List.getElem?_eq_getElem hlt,
        Option.getD_some]
    · rfl

end Slots

/-! ### The invariant -/

/-- The number of operations that refer to an object. -/
def pins (ops : List Op) (t : ℕ) : ℕ := ops.countP fun op => op.buffers = some t

section Pins

variable {ops : List Op} {op : Op} {t : ℕ}

theorem pins_cons_self (h : op.buffers = some t) : pins (op :: ops) t = pins ops t + 1 :=
  countP_cons_of_pos (p := fun op : Op => decide (op.buffers = some t)) (decide_eq_true h)

theorem pins_cons_of_ne (h : op.buffers ≠ some t) : pins (op :: ops) t = pins ops t :=
  countP_cons_of_neg fun hp => h (of_decide_eq_true hp)

theorem pins_eq_cons_erase (h : op ∈ ops) : pins ops t = pins (op :: ops.erase op) t :=
  (perm_cons_erase h).countP_eq _

theorem pins_eq_zero_iff : pins ops t = 0 ↔ ∀ op ∈ ops, op.buffers ≠ some t :=
  countP_eq_zero.trans (forall₂_congr fun _ _ => not_congr decide_eq_true_iff)

end Pins

/-- The invariant: the copies agree with the tables of the kernel, a ring has one object, and the
pins are counted. -/
structure Sound (s : State) : Prop where
  mirror : ∀ t T, s.tables t = some T → s.kernel T.loop = some T.regions
  single : ∀ t t' T T', s.tables t = some T → s.tables t' = some T' → T.loop = T'.loop → t = t'
  size : ∀ t T, s.tables t = some T → T.regions.length ≤ 65536
  pinned : ∀ op ∈ s.ops, ∀ t, op.buffers = some t → ∃ T, s.tables t = some T ∧
    T.loop = op.loop ∧ (op.users = false → op.sqe.Names T.regions)
  active : ∀ t T, s.tables t = some T → T.active = pins s.ops t

namespace Sound

variable {s : State} {t : ℕ} {T : Table} {op : Op}

section

variable (hs : Sound s)
include hs

/-- No operation refers to an object that does not exist. -/
theorem buffers_ne_of_none (ht : s.tables t = none) (hop : op ∈ s.ops) : op.buffers ≠ some t := by
  intro hbuffers
  obtain ⟨T, hT, -⟩ := hs.pinned op hop t hbuffers
  exact nomatch ht.symm.trans hT

/-- No operation refers to a table that is not pinned. -/
theorem buffers_ne_of_idle (hT : s.tables t = some T) (hidle : T.active = 0)
    (hop : op ∈ s.ops) : op.buffers ≠ some t :=
  pins_eq_zero_iff.mp ((hs.active t T hT).symm.trans hidle) op hop

/-- What has to be shown for a step that concerns the object `t` only. -/
theorem change {s' : State} (t : ℕ) (hothers : ∀ t', t' ≠ t → s'.tables t' = s.tables t')
    (hkernel : ∀ t', t' ≠ t → ∀ T, s.tables t' = some T → s'.kernel T.loop = s.kernel T.loop)
    (hpins : ∀ t', t' ≠ t → pins s'.ops t' = pins s.ops t')
    (hself : ∀ T, s'.tables t = some T → s'.kernel T.loop = some T.regions ∧
      T.regions.length ≤ 65536 ∧ T.active = pins s'.ops t ∧
      ∀ t', t' ≠ t → ∀ T', s.tables t' = some T' → T'.loop ≠ T.loop)
    (hpinned : ∀ op ∈ s'.ops, op.buffers = some t → ∃ T, s'.tables t = some T ∧
      T.loop = op.loop ∧ (op.users = false → op.sqe.Names T.regions))
    (hops : ∀ op ∈ s'.ops, ∀ t', t' ≠ t → op.buffers = some t' → op ∈ s.ops) : Sound s' where
  mirror t' T hT := by
    by_cases ht : t' = t
    · exact (hself T (ht ▸ hT)).1
    · rw [hothers t' ht] at hT
      rw [hkernel t' ht T hT, hs.mirror t' T hT]
  single t₁ t₂ T₁ T₂ h₁ h₂ hloop := by
    by_cases ht₁ : t₁ = t
    · by_cases ht₂ : t₂ = t
      · exact ht₁.trans ht₂.symm
      · rw [hothers t₂ ht₂] at h₂
        exact absurd hloop.symm ((hself T₁ (ht₁ ▸ h₁)).2.2.2 t₂ ht₂ T₂ h₂)
    · rw [hothers t₁ ht₁] at h₁
      by_cases ht₂ : t₂ = t
      · exact absurd hloop ((hself T₂ (ht₂ ▸ h₂)).2.2.2 t₁ ht₁ T₁ h₁)
      · rw [hothers t₂ ht₂] at h₂
        exact hs.single t₁ t₂ T₁ T₂ h₁ h₂ hloop
  size t' T hT := by
    by_cases ht : t' = t
    · exact (hself T (ht ▸ hT)).2.1
    · exact hs.size t' T (hothers t' ht ▸ hT)
  pinned op hop t' hbuffers := by
    by_cases ht : t' = t
    · subst ht
      exact hpinned op hop hbuffers
    · rw [hothers t' ht]
      exact hs.pinned op (hops op hop t' ht hbuffers) t' hbuffers
  active t' T hT := by
    by_cases ht : t' = t
    · subst ht
      exact (hself T hT).2.2.1
    · rw [hothers t' ht] at hT
      rw [hpins t' ht, hs.active t' T hT]

/-- Two objects are for different rings. -/
theorem loop_ne (hT : s.tables t = some T) (t' : ℕ) (hne : t' ≠ t) (T' : Table)
    (hT' : s.tables t' = some T') : T'.loop ≠ T.loop :=
  fun h => hne (hs.single t' t T' T hT' hT h)

theorem register {loop : ℕ} {regions : List Iovec} (hfresh : s.tables t = none)
    (hfree : s.kernel loop = none) (hle : regions.length ≤ 65536) :
    Sound ((s.setKernel loop (some regions)).setTable t (some { loop, regions })) := by
  have hloop : ∀ t' T', s.tables t' = some T' → T'.loop ≠ loop := by
    rintro t' T' hT' rfl
    exact nomatch hfree.symm.trans (hs.mirror t' T' hT')
  refine hs.change t (fun t' ht => update_of_ne ht ..)
    (fun t' _ T' hT' => update_of_ne (hloop t' T' hT') ..) (fun _ _ => rfl) ?_ ?_
    fun op hop _ _ _ => hop
  · intro T hT
    cases (State.tables_setTable_self ..).symm.trans hT
    refine ⟨update_self .., hle, ?_, fun t' _ T' hT' => hloop t' T' hT'⟩
    exact (pins_eq_zero_iff.mpr fun op hop => hs.buffers_ne_of_none hfresh hop).symm
  · exact fun op hop hbuffers => absurd hbuffers (hs.buffers_ne_of_none hfresh hop)

theorem unregister (hT : s.tables t = some T) (hidle : T.active = 0) :
    Sound ((s.setKernel T.loop none).setTable t none) := by
  refine hs.change t (fun t' ht => update_of_ne ht ..)
    (fun t' ht T' hT' => update_of_ne (hs.loop_ne hT t' ht T' hT') ..)
    (fun _ _ => rfl) ?_ ?_
    fun op hop _ _ _ => hop
  · intro T' hT'
    exact nomatch (State.tables_setTable_self ..).symm.trans hT'
  · exact fun op hop hbuffers => absurd hbuffers (hs.buffers_ne_of_idle hT hidle hop)

theorem update {offset n : ℕ} {regions : List Iovec} (hT : s.tables t = some T)
    (hidle : T.active = 0) (hrange : offset + regions.length ≤ T.regions.length)
    (hle : n ≤ regions.length) :
    Sound ((s.setKernel T.loop
      ((s.kernel T.loop).map fun slots => replaceSlots regions n slots offset)).setTable t
        (some { T with regions := copyN regions n T.regions offset })) := by
  have hloops := hs.loop_ne hT
  refine hs.change t (fun t' ht => update_of_ne ht ..)
    (fun t' ht T' hT' => update_of_ne (hloops t' ht T' hT') ..)
    (fun _ _ => rfl) ?_ ?_
    fun op hop _ _ _ => hop
  · intro T' hT'
    cases (State.tables_setTable_self ..).symm.trans hT'
    refine ⟨?_, length_copyN.trans_le (hs.size t T hT), hs.active t T hT, hloops⟩
    refine (update_self ..).trans ?_
    rw [hs.mirror t T hT, Option.map_some, copyN_eq_replaceSlots hle (by omega)]
  · exact fun op hop hbuffers => absurd hbuffers (hs.buffers_ne_of_idle hT hidle hop)

/-- Operations that refer to no table. -/
theorem setOps {ops : List Op} (hmem : ∀ op ∈ ops, ∀ t, op.buffers = some t → op ∈ s.ops)
    (hpins : ∀ t, pins ops t = pins s.ops t) : Sound (s.setOps ops) where
  mirror := hs.mirror
  single := hs.single
  size := hs.size
  pinned op hop t hbuffers := hs.pinned op (hmem op hop t hbuffers) t hbuffers
  active t T hT := (hs.active t T hT).trans (hpins t).symm

theorem pin (hT : s.tables t = some T) (hloop : T.loop = op.loop)
    (hbuffers : op.buffers = some t) (hnames : op.users = false → op.sqe.Names T.regions) :
    Sound ((s.setTable t (some { T with active := T.active + 1 })).setOps (op :: s.ops)) := by
  have hloops := hs.loop_ne hT
  have hself : ((s.setTable t (some { T with active := T.active + 1 })).setOps
      (op :: s.ops)).tables t = some { T with active := T.active + 1 } :=
    s.tables_setTable_self t _
  refine hs.change t (fun t' ht => update_of_ne ht ..) (fun _ _ _ _ => rfl) ?_ ?_ ?_ ?_
  · exact fun t' ht => pins_cons_of_ne fun h => ht (Option.some.inj (h.symm.trans hbuffers))
  · intro T' hT'
    cases hself.symm.trans hT'
    refine ⟨hs.mirror t T hT, hs.size t T hT, ?_, hloops⟩
    exact (congrArg (· + 1) (hs.active t T hT)).trans (pins_cons_self hbuffers).symm
  · intro op' hop' hbuffers'
    rw [hself]
    rcases mem_cons.mp hop' with rfl | hop'
    · exact ⟨_, rfl, hloop, hnames⟩
    · obtain ⟨T', hT', hpinned⟩ := hs.pinned op' hop' t hbuffers'
      cases hT.symm.trans hT'
      exact ⟨_, rfl, hpinned⟩
  · intro op' hop' t' ht hbuffers'
    rcases mem_cons.mp hop' with rfl | hop'
    · exact absurd (Option.some.inj (hbuffers'.symm.trans hbuffers)) ht
    · exact hop'

theorem unpin (hmem : op ∈ s.ops) (hT : s.tables t = some T) (hbuffers : op.buffers = some t) :
    Sound ((s.setOps (s.ops.erase op)).setTable t (some { T with active := T.active - 1 })) := by
  have hloops := hs.loop_ne hT
  have hself : ((s.setOps (s.ops.erase op)).setTable t
      (some { T with active := T.active - 1 })).tables t = some { T with active := T.active - 1 } :=
    State.tables_setTable_self ..
  refine hs.change t (fun t' ht => update_of_ne ht ..) (fun _ _ _ _ => rfl) ?_ ?_ ?_
    fun op' hop' _ _ _ => mem_of_mem_erase hop'
  · intro t' ht
    rw [pins_eq_cons_erase hmem]
    exact (pins_cons_of_ne fun h => ht (Option.some.inj (h.symm.trans hbuffers))).symm
  · intro T' hT'
    cases hself.symm.trans hT'
    refine ⟨hs.mirror t T hT, hs.size t T hT, ?_, hloops⟩
    change T.active - 1 = pins (s.ops.erase op) t
    rw [hs.active t T hT, pins_eq_cons_erase hmem, pins_cons_self hbuffers, Nat.add_sub_cancel]
  · intro op' hop' hbuffers'
    obtain ⟨T', hT', hpinned⟩ := hs.pinned op' (mem_of_mem_erase hop') t hbuffers'
    cases hT.symm.trans hT'
    rw [hself]
    exact ⟨_, rfl, hpinned⟩

/-- Every effect keeps the invariant. -/
theorem effect {s' : State} (h : Effect s s') : Sound s' := by
  cases h with
  | skip => exact hs
  | register t loop regions fresh free le => exact hs.register fresh free le
  | clone t loop source T slots fresh free alive kernel =>
    cases kernel.symm.trans (hs.mirror source T alive)
    exact hs.register fresh free (hs.size source T alive)
  | unregister t T alive idle => exact hs.unregister alive idle
  | update t offset T regions n alive idle range le => exact hs.update alive idle range le
  | add op buffers =>
    refine hs.setOps (fun op' hop' t hbuffers => ?_) fun t => ?_
    · rcases mem_cons.mp hop' with rfl | hop'
      · exact nomatch buffers.symm.trans hbuffers
      · exact hop'
    · exact pins_cons_of_ne fun h => nomatch buffers.symm.trans h
  | pin t T op alive loop buffers names => exact hs.pin alive loop buffers names
  | remove op mem buffers =>
    refine hs.setOps (fun op' hop' _ _ => mem_of_mem_erase hop') fun t => ?_
    rw [pins_eq_cons_erase mem]
    exact (pins_cons_of_ne fun h => nomatch buffers.symm.trans h).symm
  | unpin t T op mem alive buffers => exact hs.unpin mem alive buffers

end

end Sound

theorem sound_init : Sound {} where
  mirror := nofun
  single := nofun
  size := nofun
  pinned := nofun
  active := nofun

/-- The invariant holds in every run. -/
theorem Reachable.sound {s : State} (h : Reachable s) : Sound s := by
  induction h with
  | refl => exact sound_init
  | tail _ hstep ih => exact ih.effect hstep.effect

/-! ### Pinned tables -/

/-- An effect leaves a table that an operation refers to as it is. -/
theorem Effect.table_of_pinned {s s' : State} (h : Effect s s') (hs : Sound s) {op : Op}
    (hop : op ∈ s.ops) {t : ℕ} (hbuffers : op.buffers = some t) {T : Table}
    (hT : s.tables t = some T) :
    ∃ T', s'.tables t = some T' ∧ T'.loop = T.loop ∧ T'.regions = T.regions := by
  have hother : ∀ {t' : ℕ} {u : State} {T' : Option Table}, t ≠ t' → u.tables = s.tables →
      (u.setTable t' T').tables t = some T := by
    intro t' u T' hne hu
    refine (update_of_ne hne ..).trans ?_
    rw [hu, hT]
  have hfresh : ∀ {t' : ℕ}, s.tables t' = none → t ≠ t' := by
    rintro t' hnone rfl
    exact nomatch hnone.symm.trans hT
  have hidle : ∀ {t' : ℕ} {T' : Table}, s.tables t' = some T' → T'.active = 0 → t ≠ t' := by
    rintro t' T' hT' hactive rfl
    exact hs.buffers_ne_of_idle hT' hactive hop hbuffers
  cases h with
  | skip => exact ⟨T, hT, rfl, rfl⟩
  | register t' loop regions fresh free le => exact ⟨T, hother (hfresh fresh) rfl, rfl, rfl⟩
  | clone t' loop source T' slots fresh free alive kernel =>
    exact ⟨T, hother (hfresh fresh) rfl, rfl, rfl⟩
  | unregister t' T' alive idle => exact ⟨T, hother (hidle alive idle) rfl, rfl, rfl⟩
  | update t' offset T' regions n alive idle range le =>
    exact ⟨T, hother (hidle alive idle) rfl, rfl, rfl⟩
  | add op' buffers => exact ⟨T, hT, rfl, rfl⟩
  | remove op' mem buffers => exact ⟨T, hT, rfl, rfl⟩
  | pin t' T' op' alive loop buffers names =>
    by_cases hne : t = t'
    · subst hne
      cases hT.symm.trans alive
      exact ⟨_, s.tables_setTable_self t _, rfl, rfl⟩
    · exact ⟨T, hother hne rfl, rfl, rfl⟩
  | unpin t' T' op' mem alive buffers =>
    by_cases hne : t = t'
    · subst hne
      cases hT.symm.trans alive
      exact ⟨_, State.tables_setTable_self .., rfl, rfl⟩
    · exact ⟨T, hother hne rfl, rfl, rfl⟩

/-- An entry names a slot by its number. -/
theorem Sqe.Names.getElem? {sqe : Sqe} {regions : List Iovec} (h : sqe.Names regions)
    (hle : regions.length ≤ 65536) :
    ∃ r, regions[sqe.bufIndex.toNat]? = some r ∧ sqe.addr = r.base ∧
      sqe.len.toNat = r.len.toNat := by
  obtain ⟨slot, r, hslot, hindex, haddr, hlen⟩ := h
  have hlt : slot < 65536 := (List.getElem?_eq_some_iff.mp hslot).1.trans_le hle
  have hnat : sqe.bufIndex.toNat = slot := by
    rw [hindex, UInt16.toNat_ofNat']
    exact Nat.mod_eq_of_lt hlt
  exact ⟨r, hnat ▸ hslot, haddr, hlen⟩

/-- What `buffers::at` has to return for a table: the region in the slot, unless there is none. -/
def lookup (slots : List Iovec) (index : ℕ) : Except Error Iovec :=
  match slots[index]? with
  | none => .error (.outOfRange none)
  | some r => if r.base = 0 then .error (.logicError "empty buffer slot") else .ok r

theorem exec_buffersAt_eq {s : State} {t : ℕ} {T : Table} (hT : s.tables t = some T) (index : ℕ) :
    (buffersAt t index).exec s = some (lookup T.regions index, s) := by
  have htable : (table t).exec s = some (.ok T, s) := by
    rw [table, Program.exec_get_bind, hT]
    rfl
  rw [buffersAt, Program.exec_bind_of_ok htable, lookup]
  cases T.regions[index]? with
  | none => rfl
  | some r =>
    dsimp only
    split_ifs with hnull
    · rw [Program.reject, if_pos hnull]
      rfl
    · rw [Program.reject, if_neg hnull]
      rfl

/-- **The copies are the tables of the kernel.** In every run, the copy that an object keeps is the
table of the kernel, and `buffers::at` returns the region that is registered in the slot, or throws.
An update that throws changes neither. While there is an operation that refers to a table, no call
changes a slot; and if the operation was made for a registered buffer, its entry has the address
and the length of the region that is registered in the slot it names. -/
theorem mirror_equals_kernel (s : State) (hs : Reachable s) :
    (∀ t T, s.tables t = some T → s.kernel T.loop = some T.regions ∧
      ∀ index, ∃ slots, s.kernel T.loop = some slots ∧
        (buffersAt t index).exec s = some (lookup slots index, s)) ∧
    (∀ t offset regions answer e s',
      (update t offset regions answer).exec s = some (.error e, s') → s' = s) ∧
    ∀ op ∈ s.ops, ∀ t, op.buffers = some t →
      (∀ s', Step s s' → ∃ T T', s.tables t = some T ∧ s'.tables t = some T' ∧
        T'.loop = T.loop ∧ T'.regions = T.regions ∧ s'.kernel T.loop = s.kernel T.loop) ∧
      (op.users = false → ∃ slots r, s.kernel op.loop = some slots ∧
        slots[op.sqe.bufIndex.toNat]? = some r ∧ op.sqe.addr = r.base ∧
        op.sqe.len.toNat = r.len.toNat) := by
  have hsound := hs.sound
  refine ⟨fun t T hT => ⟨hsound.mirror t T hT, fun index => ?_⟩,
    fun t offset regions answer e s' h => (effect_update h).2 e rfl, fun op hop t hbuffers => ?_⟩
  · exact ⟨T.regions, hsound.mirror t T hT, exec_buffersAt_eq hT index⟩
  · obtain ⟨T, hT, hloop, hnames⟩ := hsound.pinned op hop t hbuffers
    refine ⟨fun s' hstep => ?_, fun husers => ?_⟩
    · obtain ⟨T', hT', hloop', hregions⟩ := hstep.effect.table_of_pinned hsound hop hbuffers hT
      have hmirror := (hsound.effect hstep.effect).mirror t T' hT'
      rw [hloop', hregions, ← hsound.mirror t T hT] at hmirror
      exact ⟨T, T', hT, hT', hloop', hregions, hmirror⟩
    · obtain ⟨r, hslot, hentry⟩ := (hnames husers).getElem? (hsound.size t T hT)
      exact ⟨T.regions, r, hloop ▸ hsound.mirror t T hT, hslot, hentry⟩

/-- A send of a registered buffer. -/
def sendOp : Op where
  loop := 0
  sqe := { opcode := .sendZc, fd := 3, addr := 20480, len := 32, ioprio := fixedBuf, bufIndex := 1 }
  buffers := some 0
  users := false

/-- An object for three regions. -/
def denseState : State :=
  (({} : State).setKernel 0 (some [⟨4096, 8⟩, ⟨8192, 16⟩, ⟨12288, 8⟩])).setTable 0
    (some ⟨0, [⟨4096, 8⟩, ⟨8192, 16⟩, ⟨12288, 8⟩], 0⟩)

/-- Two slots were to be updated, and the kernel has updated the first of them. -/
def updatedState : State :=
  (denseState.setKernel 0 (some [⟨4096, 8⟩, ⟨20480, 32⟩, ⟨12288, 8⟩])).setTable 0
    (some ⟨0, [⟨4096, 8⟩, ⟨20480, 32⟩, ⟨12288, 8⟩], 0⟩)

/-- A send refers to the slot that was updated. -/
def pinnedState : State :=
  (updatedState.setTable 0
    (some ⟨0, [⟨4096, 8⟩, ⟨20480, 32⟩, ⟨12288, 8⟩], 1⟩)).setOps [sendOp]

theorem reachable_pinnedState : Reachable pinnedState := by
  have hdense : Step {} denseState :=
    ⟨.dense 0 0 [⟨4096, 8⟩, ⟨8192, 16⟩, ⟨12288, 8⟩] none, .ok (), rfl⟩
  have hupdate : Step denseState updatedState :=
    ⟨.update 0 1 [⟨20480, 32⟩, ⟨24576, 64⟩] (.updated 1 (by decide)), .ok (), rfl⟩
  have hsend : Step updatedState pinnedState := ⟨.sendZc ⟨0, 3⟩ 0 1, .ok (), rfl⟩
  exact .tail (.tail (.single hdense) hupdate) hsend

theorem mirror_equals_kernel_pinnedState :
    (∃ slots, pinnedState.kernel 0 = some slots ∧
      (buffersAt 0 2).exec pinnedState = some (lookup slots 2, pinnedState)) ∧
    sendOp ∈ pinnedState.ops ∧ ∃ slots r, pinnedState.kernel 0 = some slots ∧
      slots[1]? = some r ∧ (20480 : UInt64) = r.base ∧ 32 = r.len.toNat := by
  have hmem : sendOp ∈ pinnedState.ops := mem_singleton_self _
  obtain ⟨hcopy, -, hpinned⟩ := mirror_equals_kernel pinnedState reachable_pinnedState
  exact ⟨(hcopy 0 _ rfl).2 2, hmem, (hpinned sendOp hmem 0 rfl).2 rfl⟩

end Snowy.Uring.Registered
