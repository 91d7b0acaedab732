import Snowy.Basic
import Snowy.Ledger

/-!
# One bounded queue, used by one loop

Between two calls on one loop that is not stopped, a `channel` and a `mailbox` are the same thing:
a bounded buffer, the operations that wait, those whose cancellation has been requested among them,
and the results of all operations. This file says what the calls do to it. Lists of waiters that
have been completed already, messages and ready queues are details of the two implementations.

## Main definitions

* `Snowy.Desk` : the state.
* `Snowy.Desk.Item` : the calls.
* `Snowy.Desk.perform` : what a call does.
* `Snowy.Desk.ofOps` : the desk of an implementation, whose operations are records `Op`.

## Main results

* `Snowy.Desk.ofOps_finish`, `Snowy.Desk.ofOps_park`, `Snowy.Desk.ofOps_strike` : what changes of
  the records are on the desk.
-/

namespace Snowy

open Function List

/-- A bounded queue with its operations. `waiting` are the operations that wait, from the first one;
`flagged` says of these whether their cancellation flag is set, and `token` which stop state they
have registered with. `parked` are all operations that have had to wait, `error` and `node` their
results. -/
@[ext]
structure Desk (α : Type*) where
  ring : RingBuffer α
  closed : Bool
  waiting : List ℕ
  node : ℕ → Node α
  next : ℕ
  parked : List ℕ
  error : ℕ → Option Errc
  flagged : ℕ → Bool
  token : ℕ → Option ℕ
  requested : ℕ → Bool

/-- A node stays with its queue, keeps its direction and does not lose its value. -/
structure Node.Keeps {α : Type*} (n n' : Node α) : Prop where
  home : n'.home = n.home := by rfl
  sending : n'.sending = n.sending := by rfl
  value : n.value ≠ none → n'.value ≠ none := by intro h; exact h

theorem Node.Keeps.trans {α : Type*} {n₁ n₂ n₃ : Node α} (h : n₁.Keeps n₂) (h' : n₂.Keeps n₃) :
    n₁.Keeps n₃ where
  home := h'.home.trans h.home
  sending := h'.sending.trans h.sending
  value hv := h'.value (h.value hv)

/-- An operation that waits has no error, its callback is registered, and if its flag is set this is
announced by `b`. -/
structure Op.Armed (b : Bool) (o : Op) : Prop where
  error : o.error = none
  callback : o.callback = o.token.isSome
  interruptible : o.interruptible = true
  raised : o.canceled = true → b = true

/-- A callback whose stop is not requested is registered and does not run. -/
theorem Owner.register_eq {s : Owner} {id : ℕ} {o : Op} (hop : s.op id = o)
    (hcallback : o.callback = false) (hreq : s.stopRequested id = false) :
    s.register id = { s with op := update s.op id { o with callback := o.token.isSome } } := by
  obtain ⟨_, _, _, _, callback, token, _, _, _, _, _, _, _⟩ := o
  obtain rfl : callback = false := hcallback
  simp only [Owner.stopRequested, hop] at hreq
  cases token with
  | none =>
    simp only [Owner.register, hop, Option.isSome_none]
    rw [← hop, update_eq_self]
  | some t => simp [Owner.register, Owner.setOp, hop, hreq]

/-- The stop callback of the operation is registered with the stop state `t`. -/
def Op.Listens (t : ℕ) (o : Op) : Prop := o.callback = true ∧ o.token = some t

instance (t : ℕ) (o : Op) : Decidable (o.Listens t) := inferInstanceAs (Decidable (_ ∧ _))

namespace Desk

variable {α : Type*} (d : Desk α)

/-- The operations in `p` are completed with the given errors. -/
def settle (p : ℕ → Bool) (error : ℕ → Option Errc) : Desk α :=
  { d with
    waiting := d.waiting.filter fun i => !p i
    error := fun i => if p i then error i else d.error i
    flagged := fun i => d.flagged i && !p i
    token := fun i => if p i then none else d.token i }

/-- One operation is completed. -/
def finish (i : ℕ) (error : Option Errc) : Desk α := d.settle (· == i) fun _ => error

theorem settle_eq_self {p : ℕ → Bool} (hp : ∀ i, p i = false) (error : ℕ → Option Errc) :
    d.settle p error = d := by
  simp [settle, hp]

theorem settle_settle {p q : ℕ → Bool} {error error' : ℕ → Option Errc}
    (h : ∀ i, p i = true → error i = error' i) :
    (d.settle p error).settle q error' = d.settle (fun i => p i || q i) error' := by
  ext1
  case waiting =>
    simp only [settle, filter_filter]
    exact filter_congr fun i _ => by cases p i <;> cases q i <;> rfl
  case error =>
    funext i
    cases hp : p i <;> cases hq : q i <;> simp [settle, hp, hq]
    exact h i hp
  case flagged | token =>
    funext i
    cases hp : p i <;> cases hq : q i <;> simp [settle, hp, hq]
  all_goals rfl

/-- The canceled operations at the head of the list are completed. -/
def prune : Desk α → List ℕ → Desk α
  | d, [] => d
  | d, i :: rest => if d.flagged i then prune (d.finish i (some .operationCanceled)) rest else d

/-- The first operation that waits, if it has the given direction. -/
def first (sending : Bool) : Option ℕ :=
  d.waiting.head?.filter fun i => (d.node i).sending == sending

/-- Change one node. -/
def setNode (i : ℕ) (f : Node α → Node α) : Desk α :=
  { d with node := update d.node i (f (d.node i)) }

/-- Put a value into the buffer. -/
def fill (value : α) : Desk α := { d with ring := d.ring.push value }

/-- Transfer a value to a receiver that waits, or to the buffer. -/
def push (value : α) : Desk α × Bool :=
  let d := d.prune d.waiting
  match d.first false with
  | some receiver =>
    ((d.setNode receiver fun n => { n with value := some value }).finish receiver none, true)
  | none => if d.ring.size = d.ring.capacity then (d, false) else (d.fill value, true)

/-- Take the first value out of the buffer. -/
def popBuffered : Desk α × Option α :=
  if d.ring.size = 0 then (d, none) else ({ d with ring := d.ring.pop }, d.ring.slot 0)

/-- Match a sender that waits. -/
def popSender (value : Option α) : Desk α × Option α :=
  let d := d.prune d.waiting
  match d.first true with
  | none => (d, value)
  | some sender =>
    match (d.node sender).value, value with
    | none, _ => (d, value)
    | some sent, some _ => ((d.fill sent).finish sender none, value)
    | some sent, none => (d.finish sender none, some sent)

/-- Take a value out of the buffer or from a sender that waits. -/
def pop : Desk α × Option α :=
  let (d, value) := d.popBuffered
  d.popSender value

/-- A new operation. -/
def alloc (node : Node α) : Desk α :=
  { d with
    node := update d.node d.next node
    error := update d.error d.next none
    next := d.next + 1 }

/-- An operation ends with an error. -/
def fail (i : ℕ) (error : Errc) : Desk α :=
  { d with error := update d.error i (some error) }

/-- An operation begins to wait. -/
def park (i : ℕ) (token : Option ℕ) : Desk α :=
  { d with
    waiting := d.waiting ++ [i]
    parked := d.parked ++ [i]
    token := update d.token i token }

/-- `token.stop_requested()`. -/
def stopRequested : Option ℕ → Bool
  | none => false
  | some token => d.requested token

/-- `send`. -/
def send (value : α) (token : Option ℕ) : Desk α :=
  let id := d.next
  let d := d.alloc (.call 0 (some value))
  if d.stopRequested token then d.fail id .operationCanceled
  else if d.closed then d.fail id .brokenPipe
  else
    match d.push value with
    | (d, true) => d
    | (d, false) => d.park id token

/-- `recv`. -/
def recv (token : Option ℕ) : Desk α :=
  let id := d.next
  let d := d.alloc (.call 0 none)
  if d.stopRequested token then d.fail id .operationCanceled
  else
    match d.pop with
    | (d, some v) => d.setNode id fun n => { n with value := some v }
    | (d, none) => if d.closed then d else d.park id token

/-- A `try_send` that returns false. -/
def refuse (i : ℕ) : Desk α := d.setNode i fun n => { n with refused := true }

/-- `try_send`. -/
def trySend (value : α) : Desk α :=
  let id := d.next
  let d := d.alloc (.call 0 (some value))
  if d.closed then d.refuse id
  else
    match d.push value with
    | (d, true) => d
    | (d, false) => d.refuse id

/-- `try_recv`. -/
def tryRecv : Desk α :=
  let id := d.next
  let d := d.alloc (.call 0 none)
  match d.pop with
  | (d, none) => d
  | (d, some v) => d.setNode id fun n => { n with value := some v }

/-- `close`, when no operation that waits is flagged. -/
def close : Desk α :=
  { d.settle (fun i => d.waiting.contains i) fun i =>
      if (d.node i).sending then some .brokenPipe else none with closed := true }

/-- `request_stop` on a stop state: the first call runs the callbacks that are registered. -/
def requestStop (token : ℕ) : Desk α :=
  if d.requested token then d
  else
    { d with
      requested := update d.requested token true
      flagged := fun i => d.flagged i || (d.waiting.contains i && d.token i == some token) }

/-- What `expire()` does. -/
def expire : Desk α := d.settle d.flagged fun _ => some .operationCanceled

/-- The calls. -/
inductive Item (α : Type*) where
  | send (value : α) (token : Option ℕ)
  | recv (token : Option ℕ)
  | trySend (value : α)
  | tryRecv
  | close
  | requestStop (token : ℕ)
  | expire
  deriving DecidableEq, Repr

/-- What a call does. -/
def perform : Item α → Desk α
  | .send value token => d.send value token
  | .recv token => d.recv token
  | .trySend value => d.trySend value
  | .tryRecv => d.tryRecv
  | .close => d.close
  | .requestStop token => d.requestStop token
  | .expire => d.expire

/-- A new queue. -/
def init (capacity : ℕ) : Desk α where
  ring := .empty capacity
  closed := false
  waiting := []
  node _ := {}
  next := 0
  parked := []
  error _ := none
  flagged _ := false
  token _ := none
  requested _ := false

/-! ### The operations of an implementation -/

variable {d} {p : Op → Bool} {op op' : ℕ → Op} {ch : Channel α} {waiting waiting' l l' : List ℕ}
  {node : ℕ → Node α} {next id t : ℕ} {parked : List ℕ} {requested : ℕ → Bool} {o : Op}
  {e : Option Errc} {b b' b₀ : Bool} {token : Option ℕ}

/-- The desk of a queue `ch`. The implementation says with `p` which of its operations wait. -/
def ofOps (p : Op → Bool) (op : ℕ → Op) (ch : Channel α) (waiting : List ℕ) (node : ℕ → Node α)
    (next : ℕ) (parked : List ℕ) (requested : ℕ → Bool) : Desk α where
  ring := ch.ring
  closed := ch.closed
  waiting := waiting
  node := node
  next := next
  parked := parked
  error i := (op i).error
  flagged i := p (op i) && (op i).canceled
  token i := if p (op i) then (op i).token else none
  requested := requested

theorem ofOps_congr (hp : ∀ i, p (op' i) = p (op i)) (he : ∀ i, (op' i).error = (op i).error)
    (hop : ∀ i, p (op i) = true → op' i = op i) :
    ofOps p op' ch waiting node next parked requested =
      ofOps p op ch waiting node next parked requested := by
  ext1
  case error => exact funext he
  case flagged | token =>
    funext i
    simp only [ofOps, hp]
    cases hi : p (op i) with
    | false => rfl
    | true => rw [hop i hi]
  all_goals rfl

/-- The operation `id` does not wait any more. -/
theorem ofOps_finish (hop : ∀ i ≠ id, op' i = op i) (hp : p (op' id) = false)
    (he : (op' id).error = e) (hw : waiting' = waiting.filter fun i => !(i == id)) :
    ofOps p op' ch waiting' node next parked requested =
      (ofOps p op ch waiting node next parked requested).finish id e := by
  ext1
  case waiting => exact hw
  case error | flagged | token =>
    funext i
    by_cases hi : i = id
    · subst hi
      simp [ofOps, finish, settle, hp, he]
    · simp [ofOps, finish, settle, hop i hi, hi]
  all_goals rfl

/-- Only the error of an operation that does not wait can change. -/
theorem finish_eq_fail (hp : p (op id) = false) (hw : id ∉ waiting) (error : Errc) :
    (ofOps p op ch waiting node next parked requested).finish id (some error) =
      (ofOps p op ch waiting node next parked requested).fail id error := by
  ext1
  case waiting =>
    refine filter_eq_self.mpr fun i hi => ?_
    have hne : i ≠ id := fun h => hw (h ▸ hi)
    simp [hne]
  case error | flagged | token =>
    funext i
    by_cases hi : i = id
    · simp [ofOps, finish, settle, fail, hi, hp]
    · simp [ofOps, finish, settle, fail, hi]
  all_goals rfl

theorem ofOps_alloc (hnext : p (op next) = false) (hp : p o = false) (he : o.error = none)
    (n : Node α) :
    ofOps p (update op next o) ch waiting (update node next n) (next + 1) parked
      requested = (ofOps p op ch waiting node next parked requested).alloc n := by
  ext1
  case error | flagged | token =>
    funext i
    by_cases hi : i = next
    · simp [ofOps, alloc, hi, hp, he, hnext]
    · simp [ofOps, alloc, hi]
  all_goals rfl

/-- A new operation begins to wait. -/
theorem ofOps_park (hop : ∀ i, op' i = if i = id then o else op i)
    (hid : p (op id) = false ∧ (op id).error = none)
    (ho : p o = true ∧ o.error = none ∧ o.canceled = false ∧ o.token = token) :
    ofOps p op' ch (waiting ++ [id]) node next (parked ++ [id]) requested =
      (ofOps p op ch waiting node next parked requested).park id token := by
  obtain ⟨hp, he, hcanceled, htoken⟩ := ho
  ext1
  case error | flagged | token =>
    funext i
    by_cases hi : i = id
    · simp [ofOps, park, hop, hi, hid, hp, he, hcanceled, htoken]
    · simp [ofOps, park, hop, hi]
  all_goals rfl

/-- The flags of the operations in `l` are looked at one by one. -/
theorem settle_flagged_cons (d : Desk α) (id : ℕ) (l : List ℕ) (e : Option Errc) :
    (d.settle (fun i => i == id && d.flagged i) fun _ => e).settle
        (fun i => l.contains i &&
          (d.settle (fun i => i == id && d.flagged i) fun _ => e).flagged i) (fun _ => e) =
      d.settle (fun i => (id :: l).contains i && d.flagged i) fun _ => e := by
  rw [settle_settle _ fun _ _ => rfl]
  congr 1
  funext i
  by_cases hi : i = id
  · cases d.flagged i <;> simp [settle, hi]
  · have hne : (i == id) = false := by simpa using hi
    simp [settle, hne, hi]

/-! ### Stop requests -/

/-- The callbacks of the operations in `l` have run. -/
def strike (t : ℕ) (l : List ℕ) (op : ℕ → Op) (i : ℕ) : Op :=
  if i ∈ l ∧ (op i).Listens t then { op i with canceled := true } else op i

theorem exists_strike_eq (t : ℕ) (l : List ℕ) (op : ℕ → Op) (i : ℕ) :
    ∃ canceled, strike t l op i = { op i with canceled } := by
  unfold strike
  split_ifs
  · exact ⟨true, rfl⟩
  · exact ⟨(op i).canceled, rfl⟩

theorem strike_nil : strike t [] op = op := funext fun _ => if_neg fun h => nomatch h.1

theorem listens_strike {i : ℕ} : (strike t l op i).Listens t ↔ (op i).Listens t := by
  obtain ⟨canceled, h⟩ := exists_strike_eq t l op i
  rw [h]
  rfl

theorem strike_strike : strike t l' (strike t l op) = strike t (l ++ l') op := by
  funext i
  refine (if_congr (and_congr_right' listens_strike) rfl rfl).trans ?_
  by_cases ht : (op i).Listens t
  · by_cases hi : i ∈ l <;> by_cases hi' : i ∈ l' <;> simp [strike, ht, hi, hi']
  · simp [strike, ht]

theorem strike_singleton (h : (op id).Listens t) :
    strike t [id] op = update op id { op id with canceled := true } := by
  funext i
  by_cases hi : i = id
  · simp [strike, hi, h]
  · simp [strike, hi]

theorem strike_of_not (h : ¬(op id).Listens t) : strike t [id] op = op := by
  refine funext fun i => if_neg fun hi => h ?_
  rw [← mem_singleton.mp hi.1]
  exact hi.2

/-- Nothing is announced without need. -/
theorem announced_trans (h : b = true ∨ b = b₀ ∧ ∀ i ∈ l, ¬(op i).Listens t)
    (h' : b' = true ∨ b' = b ∧ ∀ i ∈ l', ¬(strike t l op i).Listens t) :
    b' = true ∨ b' = b₀ ∧ ∀ i ∈ l ++ l', ¬(op i).Listens t := by
  rcases h' with h' | ⟨rfl, hnone'⟩
  · exact .inl h'
  · refine h.imp_right fun ⟨hb, hnone⟩ => ⟨hb, fun i hi => ?_⟩
    rcases mem_append.mp hi with hi | hi
    · exact hnone i hi
    · exact fun ht => hnone' i hi (listens_strike.mpr ht)

/-- The flags that are raised are announced. -/
theorem armed_strike {i : ℕ} (h : (op i).Armed b)
    (hb : b' = true ∨ b' = b ∧ ∀ i ∈ l, ¬(op i).Listens t) : (strike t l op i).Armed b' := by
  rcases hb with rfl | ⟨rfl, hnone⟩
  · obtain ⟨canceled, heq⟩ := exists_strike_eq t l op i
    rw [heq]
    exact ⟨h.error, h.callback, h.interruptible, fun _ => rfl⟩
  · rw [strike, if_neg fun hi => hnone i hi.1 hi.2]
    exact h

/-- The operations that wait are registered with their tokens. -/
theorem ofOps_strike (hp : ∀ (o : Op) (canceled : Bool), p { o with canceled } = p o)
    (hops : ∀ i, p (op i) = true → (i < next ∧ i ∈ waiting) ∧ (op i).Armed b) :
    ofOps p (strike t (List.range next) op) ch waiting node next parked requested =
      { ofOps p op ch waiting node next parked requested with
        flagged := fun i => (ofOps p op ch waiting node next parked requested).flagged i ||
          (waiting.contains i &&
            (ofOps p op ch waiting node next parked requested).token i == some t) } := by
  have heq := exists_strike_eq t (List.range next) op
  ext1
  case error =>
    funext i
    obtain ⟨_, h⟩ := heq i
    simp [ofOps, h]
  case token =>
    funext i
    obtain ⟨_, h⟩ := heq i
    simp [ofOps, h, hp]
  case flagged =>
    funext i
    have hpi : p (strike t (List.range next) op i) = p (op i) := by
      obtain ⟨_, h⟩ := heq i
      rw [h, hp]
    simp only [ofOps, hpi]
    cases hi : p (op i) with
    | false => simp
    | true =>
      obtain ⟨⟨hlt, hmem⟩, harmed⟩ := hops i hi
      have hlistens : (op i).Listens t ↔ (op i).token = some t := by
        refine and_iff_right_of_imp fun h => ?_
        rw [harmed.callback, h]
        rfl
      by_cases ht : (op i).token = some t
      · simp [strike, hlt, hlistens, ht, hmem]
      · simp [strike, hlistens, ht]
  all_goals rfl

end Desk

end Snowy
