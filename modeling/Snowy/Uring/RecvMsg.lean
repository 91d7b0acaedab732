import Mathlib.Algebra.Group.Int.Defs
import Snowy.Lib.Bytes
import Snowy.Uring.Bundle

/-!
# Decoding received messages

A multishot `recvmsg` writes every datagram into a provided buffer, behind a header of four words
with the lengths of its parts: the name of the sender in an area of `msg_namelen` bytes, the control
data in an area of `msg_controllen` bytes, and the payload in the rest of the buffer. The areas have
a fixed size; a part that is longer than its area is cut, and what a shorter one leaves of the area
keeps its old bytes. `message` takes over the chunk with the received bytes and decodes them, with
the functions of the library that goes with the kernel.

The lengths in the header are not trusted. They are unsigned numbers of 32 bits, the number of
received bytes is converted to `int`, and the sums of sizes have 64 bits.

## Main definitions

* `Snowy.Uring.RecvMsg.decode` : what the constructor of `message` reads.
* `Snowy.Uring.RecvMsg.construct` : the constructor, with the lease.
* `Snowy.Uring.RecvMsg.encode` : the bytes of a datagram.

## Main results

* `Snowy.Uring.RecvMsg.message_decodes_safely` : the spans of a message are in the received bytes,
  and decoding inverts the layout.
-/

namespace Snowy.Uring.RecvMsg

open Function List

open Provided

/-- `io_uring_recvmsg_out`. -/
structure Header where
  namelen : UInt32
  controllen : UInt32
  payloadlen : UInt32
  flags : UInt32
  deriving DecidableEq, Repr

/-- The words of the header. -/
def Header.words (output : Header) : List UInt32 :=
  [output.namelen, output.controllen, output.payloadlen, output.flags]

/-- `sizeof(io_uring_recvmsg_out)`. -/
def headerSize : ℕ := 16

/-- The members of `msghdr` that are read. -/
structure Layout where
  namelen : UInt32
  controllen : UInt64
  deriving DecidableEq, Repr

/-- The layout of `recvmsg`: a name has `sizeof(sockaddr_storage)` bytes. -/
def layout (control : UInt32) : Layout where
  namelen := 128
  controllen := control.toUInt64

/-- The members of a `message`: its spans, the flags and the length of the payload. -/
structure Message where
  bytes : Span
  name : Span
  control : Span
  flags : UInt32
  wireSize : UInt32
  deriving DecidableEq, Repr

variable (order : ByteOrder) (memory : ℕ → UInt8)

/-- The header at an address. -/
def Header.load (address : ℕ) : Header where
  namelen := order.load memory address
  controllen := order.load memory (address + 4)
  payloadlen := order.load memory (address + 8)
  flags := order.load memory (address + 12)

/-- `io_uring_recvmsg_validate`. -/
def validate (length : ℤ) (msgh : Layout) : Bool :=
  !(length < 0 ||
    length.toNat < (msgh.controllen.toNat + msgh.namelen.toNat + headerSize) % 2 ^ 64)

/-- The distance from the header to the payload, in `io_uring_recvmsg_payload`. -/
def payloadOffset (msgh : Layout) : ℕ :=
  headerSize + msgh.namelen.toNat + msgh.controllen.toNat

/-- `io_uring_recvmsg_payload_length`: a difference of addresses, converted to `unsigned`. -/
def payloadLength (length : ℤ) (msgh : Layout) : ℕ :=
  ((length - payloadOffset msgh) % 2 ^ 32).toNat

/-- The body of the constructor of `message`, for the bytes `raw`. -/
def decode (raw : Span) (msgh : Layout) : Except String Message :=
  let length := Int.bmod raw.length (2 ^ 32)
  if validate length msgh then
    let output := Header.load order memory raw.start
    .ok
      { flags := output.flags
        wireSize := output.payloadlen
        name := raw.sub headerSize (min output.namelen.toNat msgh.namelen.toNat)
        control := raw.sub (headerSize + msgh.namelen.toNat)
          (min output.controllen.toNat msgh.controllen.toNat)
        bytes := raw.sub (payloadOffset msgh)
          (min output.payloadlen.toNat (payloadLength length msgh)) }
  else .error "invalid recvmsg completion"

/-- `chunk::bytes`. -/
def chunkBytes (s : State) (v : ℕ) : Span :=
  match s.chunk v with
  | some c => ⟨c.offset, c.length⟩
  | none => ⟨0, 0⟩

/-- The end of the constructor. If it throws, the member `storage` is destroyed; the parameter
`data` is destroyed in any case. -/
def conclude (s : State) (data storage : ℕ) :
    Except String Message → State × Except String Message
  | .ok message => (s.destroy data, .ok message)
  | .error e => ((s.destroy storage).destroy data, .error e)

/-- `message{std::move(chunk), layout}`: the chunk `v` is moved to the parameter `data` of the
constructor, and from there to the member `storage`. -/
def construct (s : State) (v data storage : ℕ) (msgh : Layout) : State × Except String Message :=
  let t := (s.moveInto data v).moveInto storage data
  conclude t data storage (decode order memory (chunkBytes t storage) msgh)

/-! ### The bytes of a datagram -/

/-- A part of a datagram in an area of `n` bytes, which held `old` before. -/
def area {n : ℕ} (content : List UInt8) (old : Fin n → UInt8) : List UInt8 :=
  content.take n ++ (List.ofFn old).drop content.length

/-- A datagram in a buffer with the given room for its payload. -/
def encode {control : UInt32} (room : ℕ) (output : Header) (name ancillary payload : List UInt8)
    (oldName : Fin 128 → UInt8) (oldControl : Fin control.toNat → UInt8) : List UInt8 :=
  output.words.flatMap order.encode ++ area name oldName ++ area ancillary oldControl ++
    payload.take room

/-- The lengths in the header belong to the parts. If a name or control data were cut, the header
may have the length before or after that; it has the full length of the payload. -/
structure Header.Describes (output : Header) (control : UInt32)
    (name ancillary payload : List UInt8) : Prop where
  namelen : min output.namelen.toNat 128 = min name.length 128
  controllen : min output.controllen.toNat control.toNat = min ancillary.length control.toNat
  payloadlen : output.payloadlen.toNat = payload.length

/-! ### What is decoded -/

variable {order memory}

theorem length_area {n : ℕ} (content : List UInt8) (old : Fin n → UInt8) :
    (area content old).length = n := by
  rw [area, length_append, length_take, length_drop, length_ofFn]
  omega

/-- The conversions and the sums are exact for the bytes of a buffer. -/
theorem decode_eq {raw : Span} {control : UInt32} (h : raw.length ≤ 2147483647) :
    decode order memory raw (layout control) =
      let output := Header.load order memory raw.start
      if raw.length < 144 + control.toNat then .error "invalid recvmsg completion"
      else .ok
        { flags := output.flags
          wireSize := output.payloadlen
          name := raw.sub 16 (min output.namelen.toNat 128)
          control := raw.sub 144 (min output.controllen.toNat control.toNat)
          bytes := raw.sub (144 + control.toNat)
            (min output.payloadlen.toNat (raw.length - (144 + control.toNat))) } := by
  have hcontrol := control.toNat_lt
  have hlength : Int.bmod raw.length (2 ^ 32) = raw.length := by
    rw [Int.bmod_def]
    omega
  have hoffset : payloadOffset (layout control) = 144 + control.toNat := by
    rw [payloadOffset, layout, UInt32.toNat_toUInt64]
    rfl
  have hsum : ((layout control).controllen.toNat + (layout control).namelen.toNat + headerSize) %
      2 ^ 64 = 144 + control.toNat := by
    rw [layout, UInt32.toNat_toUInt64]
    change (control.toNat + 128 + 16) % 2 ^ 64 = 144 + control.toNat
    omega
  have hvalidate : validate raw.length (layout control) =
      !decide (raw.length < 144 + control.toNat) := by
    rw [validate, hsum, Int.toNat_natCast, decide_eq_false (Int.not_lt.mpr (Int.natCast_nonneg _)),
      Bool.false_or]
  have hpayload : 144 + control.toNat ≤ raw.length →
      payloadLength raw.length (layout control) = raw.length - (144 + control.toNat) := by
    intro hle
    rw [payloadLength, hoffset]
    omega
  rw [decode]
  dsimp only
  rw [hlength, hvalidate, hoffset]
  split_ifs with hvalid hlt hlt
  · simp [hlt] at hvalid
  · rw [hpayload (Nat.not_lt.mp hlt)]
    rfl
  · rfl
  · simp [hlt] at hvalid

/-- The spans of a message are in the received bytes and pairwise disjoint. -/
theorem spans_of_decode {raw : Span} {control : UInt32} {msg : Message}
    (h : raw.length ≤ 2147483647) (hmsg : decode order memory raw (layout control) = .ok msg) :
    (msg.name.addresses ⊆ raw.addresses ∧ msg.control.addresses ⊆ raw.addresses ∧
      msg.bytes.addresses ⊆ raw.addresses) ∧
    Disjoint msg.name.addresses msg.control.addresses ∧
    Disjoint msg.name.addresses msg.bytes.addresses ∧
    Disjoint msg.control.addresses msg.bytes.addresses := by
  rw [decode_eq h] at hmsg
  dsimp only at hmsg
  split_ifs at hmsg with hlt
  cases hmsg
  dsimp only
  refine ⟨⟨?_, ?_, ?_⟩, ?_, ?_, ?_⟩
  · exact Span.addresses_sub_subset (by omega)
  · exact Span.addresses_sub_subset (by omega)
  · exact Span.addresses_sub_subset (by omega)
  · exact Span.disjoint_sub (by omega)
  · exact Span.disjoint_sub (by omega)
  · exact Span.disjoint_sub (by omega)

/-- The header at the beginning of a span. -/
theorem load_of_read {raw : Span} {output : Header} {rest : List UInt8}
    (h : raw.read memory = output.words.flatMap order.encode ++ rest) :
    Header.load order memory raw.start = output := by
  have hword : ∀ {i : ℕ} (hi : i < 4), order.load memory (raw.start + 4 * i) = output.words[i] :=
    fun hi => ByteOrder.load_of_words h hi
  rw [Header.load]
  congr 1
  · exact hword (i := 0) (by decide)
  · exact hword (i := 1) (by decide)
  · exact hword (i := 2) (by decide)
  · exact hword (i := 3) (by decide)

/-- **Decoding inverts the layout.** -/
theorem decode_of_read {raw : Span} {control : UInt32} {room : ℕ} {output : Header}
    {name ancillary payload : List UInt8} {oldName : Fin 128 → UInt8}
    {oldControl : Fin control.toNat → UInt8} (h : raw.length ≤ 2147483647)
    (hlengths : output.Describes control name ancillary payload) (hread : raw.read memory =
      encode order room output name ancillary payload oldName oldControl) :
    ∃ msg, decode order memory raw (layout control) = .ok msg ∧
      msg.name.read memory = name.take 128 ∧
      msg.control.read memory = ancillary.take control.toNat ∧
      msg.bytes.read memory = payload.take room ∧
      msg.flags = output.flags ∧ msg.wireSize.toNat = payload.length := by
  have hwords : (output.words.flatMap order.encode).length = 16 :=
    order.length_flatMap_encode output.words
  have hlength : raw.length = 144 + control.toNat + min room payload.length := by
    rw [← Span.length_read memory raw, hread]
    simp only [encode, length_append, length_area, length_take, hwords]
  have hload : Header.load order memory raw.start = output :=
    load_of_read (hread.trans (by rw [encode, append_assoc, append_assoc]))
  rw [decode_eq h, hload]
  dsimp only
  rw [if_neg (by omega)]
  refine ⟨_, rfl, ?_, ?_, ?_, rfl, hlengths.payloadlen⟩
  · refine Span.read_sub_of_append (a := output.words.flatMap order.encode)
      (c := (List.ofFn oldName).drop name.length ++ (area ancillary oldControl ++
        payload.take room)) ?_ hwords ?_
    · simp only [hread, encode, area, append_assoc]
    · rw [length_take, hlengths.namelen, Nat.min_comm]
  · refine Span.read_sub_of_append (a := output.words.flatMap order.encode ++ area name oldName)
      (c := (List.ofFn oldControl).drop ancillary.length ++ payload.take room) ?_ ?_ ?_
    · have harea : area ancillary oldControl = ancillary.take control.toNat ++
          (List.ofFn oldControl).drop ancillary.length := rfl
      rw [hread, encode, harea]
      simp only [append_assoc]
    · rw [length_append, hwords, length_area]
    · rw [length_take, hlengths.controllen, Nat.min_comm]
  · refine Span.read_sub_of_append (c := []) (a := output.words.flatMap order.encode ++
      area name oldName ++ area ancillary oldControl) ?_ ?_ ?_
    · rw [hread, encode, append_nil]
    · rw [length_append, length_append, hwords, length_area, length_area]
    · rw [length_take, hlengths.payloadlen]
      omega

/-! ### The lease -/

section Lease

variable {cfg : Config} {s : State} {v data storage : ℕ} {c : Chunk}

theorem chunk_moveInto (hc : s.chunk v = some c) (hne : data ≠ v) :
    (s.moveInto data v).chunk data = some c := by
  rw [State.moveInto, hc]
  exact (chunk_setChunk_of_ne _ hne).trans (chunk_setChunk_self ..)

theorem chunk_moveInto_source (hc : s.chunk v = some c) :
    (s.moveInto data v).chunk v = some { c with owner := false } := by
  rw [State.moveInto, hc]
  exact chunk_setChunk_self ..

theorem chunk_moveInto_of_ne {w : ℕ} (hw : w ≠ data) (hw' : w ≠ v) :
    (s.moveInto data v).chunk w = s.chunk w := by
  unfold State.moveInto
  cases s.chunk v with
  | none => rfl
  | some c => exact (chunk_setChunk_of_ne _ hw').trans (chunk_setChunk_of_ne _ hw)

theorem frame_moveInto : (s.moveInto data v).leases = s.leases ∧
    (s.moveInto data v).published = s.published := by
  unfold State.moveInto
  cases s.chunk v with
  | none => exact ⟨rfl, rfl⟩
  | some c => exact ⟨rfl, rfl⟩

/-- A chunk without a lease is destroyed. -/
theorem destroy_of_empty (hc : s.chunk v = some c) (howner : c.owner = false) :
    s.destroy v = s.setChunk v none := by
  rw [State.destroy, State.release, hc]
  dsimp only
  rw [if_neg (by rw [howner]; exact Bool.false_ne_true)]

/-- A chunk with a lease is destroyed, which publishes the buffer. -/
theorem destroy_of_owner (hc : s.chunk v = some c) (howner : c.owner = true) :
    s.destroy v = ((s.setChunk v (some { c with owner := false })).put c.id).setChunk v none := by
  rw [State.destroy, State.release, hc]
  dsimp only
  rw [if_pos howner]

/-- The state after the two moves of the constructor: the member has the chunk and its lease. -/
structure Moved (cfg : Config) (s : State) (c : Chunk) (data storage : ℕ) (t : State) :
    Prop where
  sound : Sound cfg t
  member : t.chunk storage = some c
  param : t.chunk data = some { c with owner := false }
  ne : data ≠ storage
  leases : t.leases = s.leases
  published : t.published = s.published

theorem moved_moveInto (hs : Sound cfg s) (hc : s.chunk v = some c) (hdata : s.chunk data = none)
    (hstorage : s.chunk storage = none) (hne : data ≠ storage) :
    Moved cfg s c data storage ((s.moveInto data v).moveInto storage data) := by
  have hv : data ≠ v := by
    rintro rfl
    exact nomatch hdata.symm.trans hc
  have hv' : storage ≠ v := by
    rintro rfl
    exact nomatch hstorage.symm.trans hc
  have hsound : Sound cfg (s.moveInto data v) := hs.moveInto (fun j ⟨d, hd, _⟩ =>
    nomatch hdata.symm.trans hd) hv
  have hfree : (s.moveInto data v).chunk storage = none :=
    (chunk_moveInto_of_ne hne.symm hv').trans hstorage
  have hmoved := chunk_moveInto hc hv
  exact
    { sound := hsound.moveInto (fun j ⟨d, hd, _⟩ => nomatch hfree.symm.trans hd) hne.symm
      member := chunk_moveInto hmoved hne.symm
      param := chunk_moveInto_source hmoved
      ne := hne
      leases := frame_moveInto.1.trans frame_moveInto.1
      published := frame_moveInto.2.trans frame_moveInto.2 }

/-- If the constructor throws, the lease is returned. -/
theorem Moved.returned {t : State} (h : Moved cfg s c data storage t) (howner : c.owner = true) :
    ((t.destroy storage).destroy data).held c.id = false ∧
      ((t.destroy storage).destroy data).leases + 1 = s.leases ∧
      ((t.destroy storage).destroy data).published = s.published ++ [c.id] ∧
      ∀ w, ¬((t.destroy storage).destroy data).Owns w c.id := by
  obtain ⟨hlt, hheld⟩ := h.sound.handles.owned storage c.id ⟨c, h.member, howner, rfl⟩
  have hdata : (t.destroy storage).chunk data = some { c with owner := false } := by
    rw [destroy_of_owner h.member howner, chunk_setChunk_of_ne _ h.ne]
    exact (chunk_setChunk_of_ne _ h.ne).trans h.param
  have heq : (t.destroy storage).destroy data =
      (((t.setChunk storage (some { c with owner := false })).put c.id).setChunk storage
        none).setChunk data none := by
    rw [destroy_of_empty hdata rfl, destroy_of_owner h.member howner]
  have hfalse : ((t.destroy storage).destroy data).held c.id = false := by
    rw [heq]
    exact update_self ..
  refine ⟨hfalse, ?_, ?_, fun w hw => ?_⟩
  · -- the buffer is not free, so that there is a lease
    have hgive := (h.sound.accounts.giveBack hlt hheld).leases
    have hbefore := h.sound.accounts.leases
    have hleases := h.leases
    rw [length_cons] at hgive
    rw [heq]
    change t.leases - 1 + 1 = s.leases
    omega
  · rw [heq, ← h.published]
    rfl
  · have howned := (((h.sound.destroy storage).destroy data).handles.owned w c.id hw).2
    exact nomatch hfalse.symm.trans howned

/-- The constructor decodes the bytes of the chunk. -/
theorem construct_eq (h : Moved cfg s c data storage ((s.moveInto data v).moveInto storage data))
    (msgh : Layout) :
    construct order memory s v data storage msgh =
      conclude ((s.moveInto data v).moveInto storage data) data storage
        (decode order memory ⟨c.offset, c.length⟩ msgh) := by
  have hbytes : chunkBytes ((s.moveInto data v).moveInto storage data) storage =
      ⟨c.offset, c.length⟩ := by
    rw [chunkBytes, h.member]
  rw [construct, hbytes]

end Lease

/-- **Decoding a received message is safe, and inverts the layout.** For every chunk with a lease,
whatever bytes it holds, and every capacity for control data, the constructor of `message` throws
and returns the lease, or it keeps the lease and the spans for the name, the control data and the
payload are in the received bytes and pairwise disjoint. If the bytes are those of a datagram, it
does not throw, the spans hold its parts, as far as they were received, and `wire_size` is the
length of the payload before it was cut. -/
theorem message_decodes_safely (cfg : Config) (order : ByteOrder) (memory : ℕ → UInt8)
    (control : UInt32) (s : State) (hs : Provided.Reachable cfg s) (v data storage : ℕ) (c : Chunk)
    (hc : s.chunk v = some c) (howner : c.owner = true) (hlength : c.length ≤ cfg.size)
    (hdata : s.chunk data = none) (hstorage : s.chunk storage = none) (hne : data ≠ storage) :
    (∀ t e, construct order memory s v data storage (layout control) = (t, .error e) →
      e = "invalid recvmsg completion" ∧ t.held c.id = false ∧ t.leases + 1 = s.leases ∧
      t.published = s.published ++ [c.id] ∧ ∀ w, ¬t.Owns w c.id) ∧
    (∀ t msg, construct order memory s v data storage (layout control) = (t, .ok msg) →
      t.chunk storage = some c ∧ t.leases = s.leases ∧ t.published = s.published ∧
      (msg.name.addresses ⊆ Set.Ico c.offset (c.offset + c.length) ∧
        msg.control.addresses ⊆ Set.Ico c.offset (c.offset + c.length) ∧
        msg.bytes.addresses ⊆ Set.Ico c.offset (c.offset + c.length)) ∧
      Disjoint msg.name.addresses msg.control.addresses ∧
      Disjoint msg.name.addresses msg.bytes.addresses ∧
      Disjoint msg.control.addresses msg.bytes.addresses) ∧
    ∀ (room : ℕ) (output : Header) (name ancillary payload : List UInt8)
      (oldName : Fin 128 → UInt8) (oldControl : Fin control.toNat → UInt8),
      output.Describes control name ancillary payload →
      (Span.mk c.offset c.length).read memory =
        encode order room output name ancillary payload oldName oldControl →
      ∃ t msg, construct order memory s v data storage (layout control) = (t, .ok msg) ∧
        msg.name.read memory = name.take 128 ∧
        msg.control.read memory = ancillary.take control.toNat ∧
        msg.bytes.read memory = payload.take room ∧
        msg.wireSize.toNat = payload.length := by
  have hmax : (Span.mk c.offset c.length).length ≤ 2147483647 := hlength.trans cfg.size_le
  have hmoved := moved_moveInto hs.sound hc hdata hstorage hne
  rw [construct_eq hmoved]
  refine ⟨fun t e h => ?_, fun t msg h => ?_, ?_⟩
  · cases hdecode : decode order memory ⟨c.offset, c.length⟩ (layout control) with
    | ok msg =>
      rw [hdecode] at h
      cases h
    | error e' =>
      rw [hdecode] at h
      obtain ⟨rfl, he⟩ := Prod.mk.inj h
      cases he
      refine ⟨?_, hmoved.returned howner⟩
      rw [decode_eq hmax] at hdecode
      dsimp only at hdecode
      split_ifs at hdecode
      exact (Except.error.inj hdecode).symm
  · cases hdecode : decode order memory ⟨c.offset, c.length⟩ (layout control) with
    | error e =>
      rw [hdecode] at h
      cases h
    | ok msg' =>
      rw [hdecode] at h
      obtain ⟨rfl, hmsg⟩ := Prod.mk.inj h
      cases hmsg
      rw [destroy_of_empty hmoved.param rfl]
      refine ⟨?_, hmoved.leases, hmoved.published, spans_of_decode hmax hdecode⟩
      exact (chunk_setChunk_of_ne _ hne.symm).trans hmoved.member
  · intro room output name ancillary payload oldName oldControl hlengths hread
    obtain ⟨msg, hdecode, hname, hcontrol, hbytes, -, hsize⟩ := decode_of_read hmax hlengths hread
    rw [hdecode]
    exact ⟨_, msg, rfl, hname, hcontrol, hbytes, hsize⟩

/-- One buffer of 150 bytes. -/
def oneBuffer : Config where
  count := 1
  size := 150
  single_bit := ⟨0, rfl⟩
  count_le := by decide
  size_pos := by decide
  size_le := by decide

/-- A datagram from a sender with a name of two bytes, with three bytes of control data in an area
of four. Its payload has three bytes, of which there is room for two. -/
def datagram : List UInt8 :=
  @encode .littleEndian 4 2 ⟨2, 3, 3, 32⟩ [1, 2] [4, 5, 6] [7, 8, 9] (fun _ => 0) fun _ => 0

/-- The buffer was leased. -/
def leasedState : State :=
  (((State.init oneBuffer).select 1 150 1 0).setCqes []).lend oneBuffer 0 150 0

theorem reachable_leasedState : Provided.Reachable oneBuffer leasedState := by
  have hselect : Provided.Step oneBuffer (.init oneBuffer) (.select 1 150 1)
      ((State.init oneBuffer).select 1 150 1 0) :=
    .select 1 150 1 0 [] rfl Nat.one_pos le_rfl (by decide) rfl
  have htake : Provided.Step oneBuffer ((State.init oneBuffer).select 1 150 1 0)
      (.take ⟨withId 1 0, 150, [0]⟩ 0) leasedState :=
    .take [] ⟨withId 1 0, 150, [0]⟩ [] 0 nofun rfl rfl rfl
  exact .tail (.single ⟨_, hselect⟩) ⟨_, htake⟩

theorem message_decodes_safely_datagram :
    ∃ t msg, construct .littleEndian (fun i => datagram.getD i 0) leasedState 0 1 2 (layout 4) =
        (t, .ok msg) ∧
      msg.name.read (fun i => datagram.getD i 0) = [1, 2] ∧
      msg.control.read (fun i => datagram.getD i 0) = [4, 5, 6] ∧
      msg.bytes.read (fun i => datagram.getD i 0) = [7, 8] ∧ msg.wireSize.toNat = 3 := by
  have hread : (Span.mk 0 150).read (fun i => datagram.getD i 0) = datagram :=
    Span.read_getD datagram 0
  exact (message_decodes_safely oneBuffer .littleEndian
    (fun i => datagram.getD i 0) 4 leasedState reachable_leasedState 0 1 2 ⟨true, 0, 0, 150⟩ rfl
    rfl (by decide) rfl rfl (by decide)).2.2 2 ⟨2, 3, 3, 32⟩ [1, 2] [4, 5, 6] [7, 8, 9]
    (fun _ => 0) (fun _ => 0) ⟨rfl, rfl, rfl⟩ hread

end Snowy.Uring.RecvMsg
