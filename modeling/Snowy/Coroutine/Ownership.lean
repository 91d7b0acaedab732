import Mathlib.Data.List.Nodup
import Snowy.Coroutine.Frames

/-!
# Who owns a coroutine frame

A frame whose body has not begun belongs to a task object; one whose body has begun belongs to the
awaiter of the coroutine that waits for it, or to itself if it is detached. The task objects and the
awaiters are moved, assigned and destroyed in any order and on any thread, and still no frame gets a
second owner or loses its only one before it is destroyed. In particular a coroutine is destroyed
before its body begins or after it has ended, and never in between.

## Main definitions

* `Snowy.Coroutine.Custody`, `Snowy.Coroutine.Awaits`, `Snowy.Coroutine.Frame.Sound` : the invariant
  of the task objects, of the awaiters and of each frame.
* `Snowy.Coroutine.State.Owns` : the owners of a frame.
* `Snowy.Coroutine.State.Quiescent` : all work is done.

## Main results

* `Snowy.Coroutine.frame_has_one_owner` : a frame has one owner until it is destroyed, and it is
  destroyed once.
* `Snowy.Coroutine.no_frame_leaks` : when all work is done, every frame was destroyed.
-/

namespace Snowy.Coroutine

open Function List

variable {α ε : Type*} {s s' : State α ε}

namespace Point

/-- The frame exists or has existed, and its body has begun. -/
def Begun : Point → Prop
  | .absent | .initial => False
  | _ => True

variable {p : Point}

theorem Active.begun (h : p.Active) : p.Begun := by
  cases p <;> first | exact trivial | exact h.elim

theorem Active.ne_final (h : p.Active) : p ≠ .final := by
  rintro rfl
  exact h

theorem Active.ne_destroyed (h : p.Active) : p ≠ .destroyed := by
  rintro rfl
  exact h

theorem Begun.ne_initial (h : p.Begun) : p ≠ .initial := by
  rintro rfl
  exact h

theorem Begun.ne_absent (h : p.Begun) : p ≠ .absent := by
  rintro rfl
  exact h

end Point

namespace State

variable (s)

/-- Where a task object lives. -/
def homeOf (x : ℕ) : Option ℕ := (s.objects x).bind Object.home

/-! ### Frames and objects after an update -/

theorem ne_of_points {f g : ℕ} {p q : Point} (hf : (s.frames f).point = p)
    (hg : (s.frames g).point = q) (hpq : p ≠ q) : f ≠ g := by
  rintro rfl
  exact hpq (hf.symm.trans hg)

theorem frames_modify (f : ℕ) (g : Frame α ε → Frame α ε) (i : ℕ) :
    (s.modify f g).frames i = if i = f then g (s.frames f) else s.frames i :=
  update_apply ..

theorem frames_goto (f : ℕ) (p : Point) (i : ℕ) :
    (s.goto f p).frames i = if i = f then { s.frames f with point := p } else s.frames i :=
  s.frames_modify f _ i

theorem frames_allocate (q : Frame α ε) (i : ℕ) :
    (s.allocate q).frames i = if i = s.frameCount then q else s.frames i :=
  update_apply ..

theorem frames_answer (a : Answer α ε) : (s.answer a).frames = s.frames := rfl

theorem frames_moveParams (f : ℕ) (xs : List ℕ) : (moveParams f xs s).frames = s.frames := by
  induction xs generalizing s with
  | nil => rfl
  | cons x xs ih => exact ih _

theorem objects_setHandle (x : ℕ) (h : Option ℕ) (i : ℕ) :
    (s.setHandle x h).objects i =
      if i = x then (s.objects x).map ({ · with handle := h }) else s.objects i :=
  update_apply ..

theorem objects_construct (h home : Option ℕ) (i : ℕ) :
    (s.construct h home).objects i =
      if i = s.objectCount then some { handle := h, home } else s.objects i :=
  update_apply ..

theorem handle_setHandle_none (x i : ℕ) :
    (s.setHandle x none).handle i = if i = x then none else s.handle i := by
  rw [handle, objects_setHandle]
  split
  · cases s.objects x <;> rfl
  · rfl

theorem homeOf_setHandle (x : ℕ) (h : Option ℕ) (i : ℕ) :
    (s.setHandle x h).homeOf i = s.homeOf i := by
  rw [homeOf, objects_setHandle]
  split
  · next hi => subst hi; rw [homeOf]; cases s.objects i <;> rfl
  · rfl

theorem handle_construct (h home : Option ℕ) (i : ℕ) :
    (s.construct h home).handle i = if i = s.objectCount then h else s.handle i := by
  rw [handle, objects_construct]
  split <;> rfl

theorem homeOf_construct (h home : Option ℕ) (i : ℕ) :
    (s.construct h home).homeOf i = if i = s.objectCount then home else s.homeOf i := by
  rw [homeOf, objects_construct]
  split <;> rfl

end State

/-! ### The invariants -/

/-- Every frame whose body has not begun belongs to one task object, and task objects have no other
frames. A task in such a frame was moved there when the frame was made, so that it owns an older
frame. -/
structure Custody (s : State α ε) : Prop where
  absent : ∀ f, (s.frames f).point = .absent ↔ s.frameCount ≤ f
  fresh : ∀ x, s.objectCount ≤ x → s.objects x = none
  handle : ∀ x f, s.handle x = some f → (s.frames f).point = .initial
  unique : ∀ x y f, s.handle x = some f → s.handle y = some f → x = y
  owned : ∀ f, (s.frames f).point = .initial → ∃ x, s.handle x = some f
  home : ∀ x g, s.homeOf x = some g → (s.frames g).point ≠ .absent
  nested : ∀ x f g, s.handle x = some f → s.homeOf x = some g → (s.frames g).point = .initial →
    f < g

namespace Frame

/-- The frames that the awaiters in a frame have, each with whether its body has ended. -/
def held (q : Frame α ε) : List (ℕ × Bool) :=
  (match q.point with
    | .awaiting c => [(c, false)]
    | .resumed c => [(c, true)]
    | _ => []) ++ q.spent.map (·, true)

/-- The continuation of a task whose body has begun and that still exists, with whether the body has
ended. -/
def stage (q : Frame α ε) : Option (Option ℕ × Bool) :=
  match q.point with
  | .final => some (q.promise.continuation, true)
  | .running | .suspended | .awaiting _ | .resumed _ =>
    if q.detached then none else some (q.promise.continuation, false)
  | _ => none

end Frame

/-- A task whose body has begun and that still exists belongs to the awaiter of the coroutine that
is its continuation, and to no other. -/
structure Awaits (frames : ℕ → Frame α ε) : Prop where
  held : ∀ p c b, (c, b) ∈ (frames p).held ↔ (frames c).stage = some (some p, b)
  continued : ∀ c b, (frames c).stage ≠ some (none, b)
  nodup : ∀ p, ((frames p).held.map Prod.fst).Nodup

/-- The shapes of a frame. -/
inductive Frame.Sound : Frame α ε → Prop
  | absent : Sound {}
  | initial (isVoid : Bool) : Sound { point := .initial, promise := { isVoid } }
  | active {point : Point} (hp : point.Active) (detached isVoid : Bool) (continuation : Option ℕ)
      (spent : List ℕ) (root : detached = true → continuation = none) :
      Sound { detached, point, spent, promise := { isVoid, continuation } }
  | final (isVoid : Bool) (continuation : Option ℕ) {o : Outcome α ε} (ho : o.Fits isVoid) :
      Sound
        { point := .final, promise := Promise.finish { isVoid, continuation } o, outcome := some o }
  | unused (isVoid : Bool) :
      Sound { point := .destroyed, promise := { isVoid }, destroyed := 1 }
  | ended (promise : Promise α ε) (o : Outcome α ε) :
      Sound { point := .destroyed, promise, outcome := some o, destroyed := 1 }
  | exited (isVoid : Bool) :
      Sound
        { detached := true, point := .destroyed, promise := { isVoid }, outcome := some .void
          destroyed := 1 }

namespace Custody

section

variable (h : Custody s)
include h

theorem handle_fresh {x : ℕ} (hx : s.objectCount ≤ x) : s.handle x = none := by
  rw [State.handle, h.fresh x hx]; rfl

theorem ne_objectCount {x f : ℕ} (hx : s.handle x = some f) : x ≠ s.objectCount := by
  rintro rfl
  rw [h.handle_fresh (Nat.le_refl _)] at hx
  cases hx

theorem ne_frameCount {f : ℕ} (hf : (s.frames f).point ≠ .absent) : f ≠ s.frameCount := by
  rintro rfl
  exact hf ((h.absent _).mpr (Nat.le_refl _))

theorem ne_frameCount_of_handle {x f : ℕ} (hx : s.handle x = some f) : f ≠ s.frameCount :=
  h.ne_frameCount (by rw [h.handle x f hx]; nofun)

/-- The task objects change hands: the handle of the object `j` goes to the object `τ j`, or its
frame is entered or destroyed. -/
theorem relocate (τ : ℕ → Option ℕ) (hc : s'.frameCount = s.frameCount)
    (hi : ∀ f, (s'.frames f).point = .initial → (s.frames f).point = .initial)
    (ha : ∀ f, (s'.frames f).point = .absent ↔ (s.frames f).point = .absent)
    (hH : ∀ i f, s'.handle i = some f ↔ ∃ j, s.handle j = some f ∧ τ j = some i)
    (hτ : ∀ j f, s.handle j = some f → ((s'.frames f).point = .initial ↔ (τ j).isSome))
    (hO : ∀ i, s'.objectCount ≤ i → s'.objects i = none)
    (hM : ∀ i g, s'.homeOf i = some g → (s.frames g).point ≠ .absent)
    (hN : ∀ i j f g, s.handle j = some f → τ j = some i → s'.homeOf i = some g →
      (s'.frames g).point = .initial → f < g) : Custody s' where
  absent f := by rw [ha, hc, h.absent]
  fresh := hO
  handle i f hx := by
    obtain ⟨j, hj, hi⟩ := (hH i f).mp hx
    exact (hτ j f hj).mpr (by rw [hi]; rfl)
  unique i i' f hx hx' := by
    obtain ⟨j, hj, hi⟩ := (hH i f).mp hx
    obtain ⟨j', hj', hi'⟩ := (hH i' f).mp hx'
    rw [h.unique j j' f hj hj', hi'] at hi
    exact (Option.some.inj hi).symm
  owned f hf := by
    obtain ⟨j, hj⟩ := h.owned f (hi f hf)
    obtain ⟨i, hi⟩ := Option.isSome_iff_exists.mp ((hτ j f hj).mp hf)
    exact ⟨i, (hH i f).mpr ⟨j, hj, hi⟩⟩
  home i g hg := (ha g).not.mpr (hM i g hg)
  nested i f g hx hg hp := by
    obtain ⟨j, hj, hi⟩ := (hH i f).mp hx
    exact hN i j f g hj hi hg hp

/-- What does not touch the task objects and lets no body begin keeps the custody. -/
theorem of_points (ho : s'.objects = s.objects)
    (hn : s'.objectCount = s.objectCount) (hc : s'.frameCount = s.frameCount)
    (hi : ∀ f, (s'.frames f).point = .initial ↔ (s.frames f).point = .initial)
    (ha : ∀ f, (s'.frames f).point = .absent ↔ (s.frames f).point = .absent) : Custody s' := by
  have hH : s'.handle = s.handle := by unfold State.handle; rw [ho]
  have hM : s'.homeOf = s.homeOf := by unfold State.homeOf; rw [ho]
  refine h.relocate some hc (fun f => (hi f).mp) ha (fun i f => by simp [hH])
    (fun j f hj => by simp [hi, h.handle j f hj]) (by rw [hn, ho]; exact h.fresh)
    (by rw [hM]; exact h.home) ?_
  rintro i _ f g hj ⟨⟩ hg hp
  exact h.nested i f g hj (hM ▸ hg) ((hi g).mp hp)

/-- A task object is moved to a new one. -/
theorem moveConstruct {x : ℕ} {home : Option ℕ} (hx : x < s.objectCount)
    (hh : ∀ g, home = some g → (s.frames g).point ≠ .absent ∧
      ((s.frames g).point = .initial → ∀ f, s.handle x = some f → f < g)) :
    Custody (s.moveConstruct x home) := by
  have hH : ∀ i, (s.moveConstruct x home).handle i =
      if i = s.objectCount then s.handle x else if i = x then none else s.handle i := fun i => by
    rw [State.moveConstruct, State.handle_construct, State.handle_setHandle_none]; rfl
  have hM : ∀ i, (s.moveConstruct x home).homeOf i =
      if i = s.objectCount then home else s.homeOf i := fun i => by
    rw [State.moveConstruct, State.homeOf_construct, State.homeOf_setHandle]; rfl
  refine h.relocate (fun j => some (if j = x then s.objectCount else j)) rfl (fun _ => id)
    (fun _ => .rfl) (fun i f => ?_) (fun j f hj => ?_) (fun i hi => ?_) (fun i g hg => ?_)
    fun i j f g hj hi hg hp => ?_
  · rw [hH]
    constructor
    · intro hi
      split_ifs at hi with hn hix
      · exact ⟨x, hi, by rw [if_pos rfl, hn]⟩
      · exact ⟨i, hi, by rw [if_neg hix]⟩
    · rintro ⟨j, hj, hi⟩
      have hi := Option.some.inj hi
      split_ifs at hi with hjx
      · rw [if_pos hi.symm, ← hjx, hj]
      · rw [← hi, if_neg (h.ne_objectCount hj), if_neg hjx, hj]
  · exact ⟨fun _ => rfl, fun _ => h.handle j f hj⟩
  · have hi : s.objectCount + 1 ≤ i := hi
    rw [State.moveConstruct, State.objects_construct, State.objects_setHandle,
      if_neg (by change i ≠ s.objectCount; omega), if_neg (by omega), h.fresh i (by omega)]
  · rw [hM] at hg
    split_ifs at hg
    · exact (hh g hg).1
    · exact h.home i g hg
  · have hi := Option.some.inj hi
    rw [hM] at hg
    split_ifs at hi with hjx
    · rw [if_pos hi.symm] at hg
      exact (hh g hg).2 hp f (hjx ▸ hj)
    · rw [← hi, if_neg (h.ne_objectCount hj)] at hg
      exact h.nested j f g hj hg hp

/-- The frame of a task object is consumed: it is entered or destroyed. The handle of the object `y`
goes to the emptied object, if there is one, and code can name that. -/
theorem consume {x : ℕ} {y : Option ℕ} (hc : s'.frameCount = s.frameCount)
    (hn : s'.objectCount = s.objectCount) (hy : y ≠ some x)
    (hi : ∀ f, (s'.frames f).point = .initial ↔
      (s.frames f).point = .initial ∧ s.handle x ≠ some f)
    (ha : ∀ f, (s'.frames f).point = .absent ↔ (s.frames f).point = .absent)
    (hH : ∀ i, s'.handle i =
      if i = x then y.bind s.handle else if y = some i then none else s.handle i)
    (hM : ∀ i g, s'.homeOf i = some g → s.homeOf i = some g)
    (hO : ∀ i, s.objects i = none → s'.objects i = none)
    (hp : y ≠ none → ∀ g, s.homeOf x = some g → (s.frames g).point ≠ .initial) : Custody s' := by
  refine h.relocate (fun j => if j = x then none else if y = some j then some x else some j) hc
    (fun f hf => ((hi f).mp hf).1) ha (fun i f => ?_) (fun j f hj => ?_)
    (fun i hi => hO i (h.fresh i (hn ▸ hi))) (fun i g hg => h.home i g (hM i g hg))
    fun i j f g hj hji hg hpg => ?_
  · rw [hH]
    constructor
    · intro hf
      split_ifs at hf with hix hyi
      · obtain ⟨j, rfl, hj⟩ := Option.bind_eq_some_iff.mp hf
        exact ⟨j, hj, by rw [if_neg (by simpa using hy), if_pos rfl, hix]⟩
      · exact ⟨i, hf, by rw [if_neg hix, if_neg hyi]⟩
    · rintro ⟨j, hj, hji⟩
      split_ifs at hji with hjx hyj
      · cases hji
        simp [hyj, hj]
      · cases hji
        simp [hjx, hyj, hj]
  · rw [hi, and_iff_right (h.handle j f hj)]
    split_ifs with hjx hyj
    · exact iff_of_false (fun hne => hne (hjx ▸ hj)) nofun
    all_goals exact iff_of_true (fun hx => hjx (h.unique j x f hj hx)) rfl
  · have hhome := hM i g hg
    have hinitial := ((hi g).mp hpg).1
    split_ifs at hji with hjx hyj
    · cases hji
      exact absurd hinitial (hp (by rw [hyj]; nofun) g hhome)
    · cases hji
      exact h.nested i f g hj hhome hinitial

/-- The arguments of a call are moved into the parameters of the new frame. -/
theorem moveParams {f : ℕ} {xs : List ℕ} (hf : (s.frames f).point ≠ .absent)
    (hx : ∀ x ∈ xs, x < s.objectCount ∧ ∀ g, s.handle x = some g → g < f) :
    Custody (State.moveParams f xs s) := by
  induction xs generalizing s with
  | nil => exact h
  | cons x xs ih =>
    obtain ⟨hn, hg⟩ := hx x mem_cons_self
    refine ih (h.moveConstruct hn ?_) hf ?_
    · rintro _ ⟨⟩
      exact ⟨hf, fun _ => hg⟩
    · intro y hy
      obtain ⟨hyn, hyg⟩ := hx y (mem_cons_of_mem x hy)
      refine ⟨Nat.lt_succ_of_lt hyn, fun g hy' => hyg g ?_⟩
      rw [State.moveConstruct, State.handle_construct,
        if_neg (by change y ≠ s.objectCount; omega), State.handle_setHandle_none] at hy'
      split_ifs at hy'
      exact hy'

theorem absent_allocate {q : Frame α ε} (ha : q.point ≠ .absent) (f : ℕ) :
    ((s.allocate q).frames f).point = .absent ↔ s.frameCount + 1 ≤ f := by
  rw [State.frames_allocate]
  split_ifs with hf
  · exact iff_of_false ha (by omega)
  · rw [h.absent f]
    omega

/-- A frame is allocated whose body begins at once. -/
theorem allocate {q : Frame α ε} (hq : q.point.Begun) : Custody (s.allocate q) where
  absent := h.absent_allocate hq.ne_absent
  fresh := h.fresh
  handle x f hx := by
    rw [State.frames_allocate, if_neg (h.ne_frameCount_of_handle hx)]
    exact h.handle x f hx
  unique := h.unique
  owned f hf := by
    rw [State.frames_allocate] at hf
    split_ifs at hf
    · exact absurd hf hq.ne_initial
    · exact h.owned f hf
  home x g hx := by
    rw [State.frames_allocate, if_neg (h.ne_frameCount (h.home x g hx))]
    exact h.home x g hx
  nested x f g hx hg hp := by
    rw [State.frames_allocate, if_neg (h.ne_frameCount (h.home x g hg))] at hp
    exact h.nested x f g hx hg hp

/-- `get_return_object`: a frame is allocated whose body has not begun, and a task owns it. -/
theorem allocate_construct {q : Frame α ε} {home : Option ℕ} (hq : q.point = .initial)
    (hh : ∀ g, home = some g → (s.frames g).point.Begun) :
    Custody ((s.allocate q).construct (some s.frameCount) home) := by
  have hF : ∀ i, ((s.allocate q).construct (some s.frameCount) home).frames i =
      if i = s.frameCount then q else s.frames i := s.frames_allocate q
  have hH : ∀ i, ((s.allocate q).construct (some s.frameCount) home).handle i =
      if i = s.objectCount then some s.frameCount else s.handle i :=
    (s.allocate q).handle_construct (some s.frameCount) home
  have hM : ∀ i, ((s.allocate q).construct (some s.frameCount) home).homeOf i =
      if i = s.objectCount then home else s.homeOf i :=
    (s.allocate q).homeOf_construct (some s.frameCount) home
  constructor
  case absent => exact h.absent_allocate (by rw [hq]; nofun)
  case fresh =>
    intro i hi
    have hi : s.objectCount + 1 ≤ i := hi
    rw [State.objects_construct, if_neg (by change i ≠ s.objectCount; omega)]
    exact h.fresh i (by omega)
  case handle =>
    intro x f hx
    rw [hH] at hx
    rw [hF]
    split_ifs at hx
    · rw [if_pos (Option.some.inj hx).symm, hq]
    · rw [if_neg (h.ne_frameCount_of_handle hx)]
      exact h.handle x f hx
  case unique =>
    intro x y f hx hy
    rw [hH] at hx hy
    split_ifs at hx hy with hxn hyn hyn
    · rw [hxn, hyn]
    · exact absurd (Option.some.inj hx).symm (h.ne_frameCount_of_handle hy)
    · exact absurd (Option.some.inj hy).symm (h.ne_frameCount_of_handle hx)
    · exact h.unique x y f hx hy
  case owned =>
    intro f hf
    rw [hF] at hf
    split_ifs at hf with he
    · exact ⟨s.objectCount, by rw [hH, if_pos rfl, he]⟩
    · obtain ⟨x, hx⟩ := h.owned f hf
      exact ⟨x, by rw [hH, if_neg (h.ne_objectCount hx), hx]⟩
  case home =>
    intro x g hx
    have hg : (s.frames g).point ≠ .absent := by
      rw [hM] at hx
      split_ifs at hx
      · exact (hh g hx).ne_absent
      · exact h.home x g hx
    rwa [hF, if_neg (h.ne_frameCount hg)]
  case nested =>
    intro x f g hx hg hp
    rw [hH] at hx
    rw [hM] at hg
    split_ifs at hx hg
    · rw [hF, if_neg (h.ne_frameCount (hh g hg).ne_absent)] at hp
      exact absurd hp (hh g hg).ne_initial
    · rw [hF, if_neg (h.ne_frameCount (h.home x g hg))] at hp
      exact h.nested x f g hx hg hp

end

end Custody

namespace State

variable (s)

theorem resume_of_suspended {f : ℕ} (hf : (s.frames f).point = .suspended) :
    s.resume f = s.goto f .running := by
  simp [resume, hf]

theorem resume_of_initial {f : ℕ} (hf : (s.frames f).point = .initial) :
    s.resume f = s.goto f .running := by
  simp [resume, hf]

theorem resume_of_awaiting {f c : ℕ} (hf : (s.frames f).point = .awaiting c) :
    s.resume f = s.goto f (.resumed c) := by
  simp [resume, hf]

theorem awaitSuspend_of_initial {f c : ℕ} (hf : (s.frames f).point = .running)
    (hc : (s.frames c).point = .initial) :
    s.awaitSuspend f c = ((s.modify c fun q =>
      { q with promise := q.promise.setContinuation f }).goto f (.awaiting c)).goto c .running := by
  have hne : c ≠ f := s.ne_of_points hc hf nofun
  rw [awaitSuspend, resume_of_initial]
  rw [frames_goto, if_neg hne, frames_modify, if_pos rfl]
  exact hc

theorem frames_awaitSuspend {f c : ℕ} (hf : (s.frames f).point = .running)
    (hc : (s.frames c).point = .initial) (i : ℕ) :
    (s.awaitSuspend f c).frames i =
      if i = c then
        { s.frames c with promise := (s.frames c).promise.setContinuation f, point := .running }
      else if i = f then { s.frames f with point := .awaiting c } else s.frames i := by
  have hne : c ≠ f := s.ne_of_points hc hf nofun
  rw [awaitSuspend_of_initial s hf hc]
  simp only [frames_goto, frames_modify, if_neg hne, if_neg hne.symm, if_true]
  split_ifs <;> rfl

theorem finishTask_of_awaiting {f p : ℕ} (o : Outcome α ε) (hf : (s.frames f).point = .running)
    (hp : (s.frames f).promise.continuation = some p) (hw : (s.frames p).point = .awaiting f) :
    s.finishTask f o = ((s.modify f fun q =>
      { q with promise := q.promise.finish o, outcome := some o }).goto f .final).goto p
        (.resumed f) := by
  have hne : p ≠ f := s.ne_of_points hw hf nofun
  rw [finishTask, finalSuspend]
  simp only [frames_modify, if_true, Promise.continuation_finish, hp]
  rw [resume_of_awaiting (c := f)]
  rw [frames_goto, if_neg hne, frames_modify, if_neg hne, hw]

theorem frames_finishTask {f p : ℕ} (o : Outcome α ε) (hf : (s.frames f).point = .running)
    (hp : (s.frames f).promise.continuation = some p) (hw : (s.frames p).point = .awaiting f)
    (i : ℕ) :
    (s.finishTask f o).frames i =
      if i = p then { s.frames p with point := .resumed f }
      else if i = f then
        { s.frames f with
          promise := (s.frames f).promise.finish o, outcome := some o, point := .final }
      else s.frames i := by
  have hne : p ≠ f := s.ne_of_points hw hf nofun
  rw [finishTask_of_awaiting s o hf hp hw]
  simp only [frames_goto, frames_modify, if_neg hne, if_true]
  split_ifs <;> rfl

theorem awaitResume_of_final {f c : ℕ} {throws : Option ε} {o : Outcome α ε}
    (hc : (s.frames c).point = .final)
    (ho : (s.frames c).promise.takeResult throws = some (o.moved throws)) :
    s.awaitResume f c throws =
      (s.modify f fun q => { q with point := .running, spent := c :: q.spent }).answer
        { parent := f, child := some c, throws, outcome := o.moved throws } := by
  simp [awaitResume, promise, hc, ho]

theorem destroy_of_suspended {f : ℕ}
    (hf : (s.frames f).point = .initial ∨ (s.frames f).point = .final) :
    s.destroy f =
      s.modify f fun q => { q with point := .destroyed, destroyed := q.destroyed + 1 } := by
  rcases hf with hf | hf <;> simp [destroy, hf]

theorem frames_endAwait {f c : ℕ} (hf : (s.frames f).point = .running)
    (hc : (s.frames c).point = .final) (i : ℕ) :
    (s.endAwait f c).frames i =
      if i = c then
        { s.frames c with point := .destroyed, destroyed := (s.frames c).destroyed + 1 }
      else if i = f then { s.frames f with spent := (s.frames f).spent.erase c }
      else s.frames i := by
  have hne : c ≠ f := s.ne_of_points hc hf nofun
  rw [endAwait, destroy_of_suspended]
  · simp only [frames_modify, if_neg hne]
  · rw [frames_modify, if_neg hne]
    exact .inr hc

end State

namespace Frame

variable {q : Frame α ε} {p c : ℕ}

theorem mem_held_false : (c, false) ∈ q.held ↔ q.point = .awaiting c := by
  unfold held
  cases q.point <;> simp [eq_comm]

theorem mem_held_true : (c, true) ∈ q.held ↔ q.point = .resumed c ∨ c ∈ q.spent := by
  unfold held
  cases q.point <;> simp [eq_comm]

theorem stage_eq_false {x : Option ℕ} : q.stage = some (x, false) ↔
    q.point.Active ∧ q.detached = false ∧ q.promise.continuation = x := by
  unfold stage
  cases q.point <;> cases q.detached <;> simp [Point.Active]

theorem stage_eq_true {x : Option ℕ} :
    q.stage = some (x, true) ↔ q.point = .final ∧ q.promise.continuation = x := by
  unfold stage
  cases q.point <;> cases q.detached <;> simp

end Frame

namespace Awaits

variable {frames frames' : ℕ → Frame α ε} {p c : ℕ}

/-! ### Consequences -/

section

variable (h : Awaits frames)
include h

theorem of_awaiting (hp : (frames p).point = .awaiting c) :
    (frames c).point.Active ∧ (frames c).detached = false ∧
      (frames c).promise.continuation = some p :=
  Frame.stage_eq_false.mp ((h.held p c false).mp (Frame.mem_held_false.mpr hp))

theorem of_held (hp : (c, true) ∈ (frames p).held) :
    (frames c).point = .final ∧ (frames c).promise.continuation = some p :=
  Frame.stage_eq_true.mp ((h.held p c true).mp hp)

theorem of_spent (hc : c ∈ (frames p).spent) :
    (frames c).point = .final ∧ (frames c).promise.continuation = some p :=
  h.of_held (Frame.mem_held_true.mpr (.inr hc))

theorem of_resumed (hp : (frames p).point = .resumed c) :
    (frames c).point = .final ∧ (frames c).promise.continuation = some p ∧
      c ∉ (frames p).spent := by
  obtain ⟨hfinal, hcont⟩ := h.of_held (Frame.mem_held_true.mpr (.inl hp))
  have hnodup := h.nodup p
  simp only [Frame.held, hp, map_append, map_map] at hnodup
  exact ⟨hfinal, hcont, fun hmem => (nodup_cons.mp hnodup).1 (by simpa using hmem)⟩

theorem nodup_spent (p : ℕ) : (frames p).spent.Nodup := by
  have hnodup := h.nodup p
  rw [Frame.held, map_append, map_map] at hnodup
  simpa [Function.comp_def] using hnodup.of_append_right

theorem exists_awaiting (hc : (frames c).point.Active) (hd : (frames c).detached = false) :
    ∃ p, (frames c).promise.continuation = some p ∧ (frames p).point = .awaiting c := by
  have hstage : (frames c).stage = some ((frames c).promise.continuation, false) :=
    Frame.stage_eq_false.mpr ⟨hc, hd, rfl⟩
  cases hcont : (frames c).promise.continuation with
  | none => exact absurd (hcont ▸ hstage) (h.continued c false)
  | some p => exact ⟨p, rfl, Frame.mem_held_false.mp ((h.held p c false).mpr (hcont ▸ hstage))⟩

theorem exists_held (hc : (frames c).point = .final) :
    ∃ p, (frames p).point = .resumed c ∨ c ∈ (frames p).spent := by
  have hstage : (frames c).stage = some ((frames c).promise.continuation, true) :=
    Frame.stage_eq_true.mpr ⟨hc, rfl⟩
  cases hcont : (frames c).promise.continuation with
  | none => exact absurd (hcont ▸ hstage) (h.continued c true)
  | some p => exact ⟨p, Frame.mem_held_true.mp ((h.held p c true).mpr (hcont ▸ hstage))⟩

/-! ### Steps -/

/-- A step of one frame that leaves its awaiters and its continuation alone. -/
theorem congr {f : ℕ} (hne : ∀ i, i ≠ f → frames' i = frames i)
    (hheld : (frames' f).held = (frames f).held) (hstage : (frames' f).stage = (frames f).stage) :
    Awaits frames' := by
  have heq : ∀ i, (frames' i).held = (frames i).held ∧ (frames' i).stage = (frames i).stage := by
    intro i
    by_cases hi : i = f
    · rw [hi]
      exact ⟨hheld, hstage⟩
    · rw [hne i hi]
      exact ⟨rfl, rfl⟩
  refine ⟨fun p c b => ?_, fun c b => ?_, fun p => ?_⟩
  · rw [(heq p).1, (heq c).2]
    exact h.held p c b
  · rw [(heq c).2]
    exact h.continued c b
  · rw [(heq p).1]
    exact h.nodup p

/-- A step of a task `c` with its continuation `p`: an awaiter of `p` has it in the stage `x`
before, and in the stage `y` after that. -/
theorem put {x y : Option Bool} {l : List (ℕ × Bool)}
    (hne : ∀ i, i ≠ p → i ≠ c → frames' i = frames i)
    (hheld : (frames' c).held = (frames c).held) (hstage : (frames' p).stage = (frames p).stage)
    (hp : (frames p).held.Perm (x.toList.map (c, ·) ++ l))
    (hp' : (frames' p).held.Perm (y.toList.map (c, ·) ++ l))
    (hc : (frames c).stage = x.map (some p, ·)) (hc' : (frames' c).stage = y.map (some p, ·)) :
    Awaits frames' := by
  have hheld' : ∀ i, i ≠ p → (frames' i).held = (frames i).held := fun i hi => by
    by_cases hic : i = c
    · rw [hic, hheld]
    · rw [hne i hi hic]
  have hstage' : ∀ i, i ≠ c → (frames' i).stage = (frames i).stage := fun i hi => by
    by_cases hip : i = p
    · rw [hip, hstage]
    · rw [hne i hip hi]
  have hnodup := ((hp.map Prod.fst).nodup_iff).mp (h.nodup p)
  rw [map_append] at hnodup
  -- the awaiters of `p` have the task once
  have hl : ∀ b, (c, b) ∉ l := fun b hb => by
    have hmem := (h.held p c b).mp (hp.mem_iff.mpr (mem_append_right _ hb))
    rw [hc] at hmem
    cases x with
    | none => cases hmem
    | some x => exact (nodup_cons.mp hnodup).1 (mem_map.mpr ⟨_, hb, rfl⟩)
  refine ⟨fun i d b => ?_, fun d b => ?_, fun i => ?_⟩
  · by_cases hd : d = c
    · subst hd
      by_cases hi : i = p
      · rw [hi, hp'.mem_iff, mem_append, or_iff_left (hl b), hc']
        cases y <;> simp [eq_comm]
      · rw [hheld' i hi, h.held, hc, hc']
        cases x <;> cases y <;> simp [Ne.symm hi]
    · rw [hstage' d hd, ← h.held]
      by_cases hi : i = p
      · rw [hi, hp'.mem_iff, hp.mem_iff]
        cases x <;> cases y <;> simp [hd]
      · rw [hheld' i hi]
  · by_cases hd : d = c
    · rw [hd, hc']
      cases y <;> simp
    · rw [hstage' d hd]
      exact h.continued d b
  · by_cases hi : i = p
    · rw [hi, (hp'.map Prod.fst).nodup_iff, map_append]
      have hcl : c ∉ l.map Prod.fst := fun hmem => by
        obtain ⟨⟨d, b⟩, hdb, rfl⟩ := mem_map.mp hmem
        exact hl b hdb
      cases y with
      | none => exact hnodup.of_append_right
      | some y => exact nodup_cons.mpr ⟨hcl, hnodup.of_append_right⟩
    · rw [hheld' i hi]
      exact h.nodup i

end

section

variable (h : Awaits s.frames)
include h

/-- A frame is allocated, which nobody awaits. -/
theorem allocate {q : Frame α ε} (hc : s.frames s.frameCount = {})
    (hq : q.point = .initial ∨ q.point = .running ∧ q.detached = true) (hs : q.spent = []) :
    Awaits (s.allocate q).frames := by
  refine h.congr (f := s.frameCount) (fun i hi => ?_) ?_ ?_
  · rw [State.frames_allocate, if_neg hi]
  all_goals rw [State.frames_allocate, if_pos rfl, hc]
  · rcases hq with hq | ⟨hq, -⟩ <;> simp [Frame.held, hq, hs]
  · rcases hq with hq | ⟨hq, hd⟩
    · simp [Frame.stage, hq]
    · simp [Frame.stage, hq, hd]

/-- A step of one frame at which neither of its points is in `co_await`, nor in the body of a
task. -/
theorem modify {f : ℕ} {g : Frame α ε → Frame α ε}
    (hheld : (g (s.frames f)).held = (s.frames f).held)
    (hstage : (g (s.frames f)).stage = (s.frames f).stage) : Awaits (s.modify f g).frames := by
  refine h.congr (f := f) (fun i hi => by rw [State.frames_modify, if_neg hi]) ?_ ?_ <;>
    rw [State.frames_modify, if_pos rfl]
  · exact hheld
  · exact hstage

/-- The handle of a frame whose body has not begun is destroyed; nobody awaits it. -/
theorem destroy {f : ℕ} (hf : (s.frames f).point = .initial) : Awaits (s.destroy f).frames := by
  rw [s.destroy_of_suspended (.inl hf)]
  exact h.modify (by simp [Frame.held, hf]) (by simp [Frame.stage, hf])

/-- A coroutine is suspended in an operation, or resumed from there. -/
theorem goto {f : ℕ} {p : Point}
    (hf : (s.frames f).point = .running ∨ (s.frames f).point = .suspended)
    (hp : p = .running ∨ p = .suspended) : Awaits (s.goto f p).frames := by
  refine h.modify ?_ ?_
  · rcases hf with hf | hf <;> rcases hp with rfl | rfl <;> simp [Frame.held, hf]
  · rcases hf with hf | hf <;> rcases hp with rfl | rfl <;> simp [Frame.stage, hf]

/-- `await_suspend`: the awaiter of `f` gets the frame `c`. -/
theorem enter {f c : ℕ} (hf : (s.frames f).point = .running) (hc : (s.frames c).point = .initial)
    (hd : (s.frames c).detached = false) : Awaits (s.awaitSuspend f c).frames := by
  have hF := s.frames_awaitSuspend hf hc
  have hfc : f ≠ c := s.ne_of_points hf hc nofun
  refine h.put (p := f) (c := c) (x := none) (y := some false) (l := (s.frames f).held)
    (fun i hif hic => by rw [hF, if_neg hic, if_neg hif]) ?_ ?_ (List.Perm.refl _) ?_ ?_ ?_
  · rw [hF, if_pos rfl]
    simp [Frame.held, hc]
  · rw [hF, if_neg hfc, if_pos rfl]
    simp [Frame.stage, hf]
  · rw [hF, if_neg hfc, if_pos rfl]
    simp [Frame.held, hf]
  · simp [Frame.stage, hc]
  · rw [hF, if_pos rfl]
    simp [Frame.stage, hd, Promise.setContinuation]

/-- `await_resume`: the awaiter of `f` keeps the frame `c` until the end of the expression. -/
theorem awaitResume {f c : ℕ} (hf : (s.frames f).point = .resumed c) :
    Awaits (s.modify f fun q => { q with point := .running, spent := c :: q.spent }).frames :=
  h.modify (by simp [Frame.held, hf]) (by simp [Frame.stage, hf])

/-- `~awaiter`: the frame `c` is destroyed, and no other awaiter has it. -/
theorem endAwait {f c : ℕ} (hf : (s.frames f).point = .running)
    (hc : c ∈ (s.frames f).spent) : Awaits (s.endAwait f c).frames := by
  obtain ⟨hfinal, hcont⟩ := h.of_spent hc
  have hF := s.frames_endAwait hf hfinal
  have hfc : f ≠ c := s.ne_of_points hf hfinal nofun
  refine h.put (p := f) (c := c) (x := some true) (y := none)
    (l := ((s.frames f).spent.erase c).map (·, true))
    (fun i hif hic => by rw [hF, if_neg hic, if_neg hif]) ?_ ?_ ?_ ?_
    (Frame.stage_eq_true.mpr ⟨hfinal, hcont⟩) ?_
  · rw [hF, if_pos rfl]
    simp [Frame.held, hfinal]
  · rw [hF, if_neg hfc, if_pos rfl]
    rfl
  · have hperm := (perm_cons_erase hc).map (·, true)
    simpa [Frame.held, hf] using hperm
  · rw [hF, if_neg hfc, if_pos rfl]
    simp [Frame.held, hf]
  · rw [hF, if_pos rfl]
    rfl

/-- The final suspension of `f`: its continuation, which awaits it, is resumed. -/
theorem finishTask {f p : ℕ} (o : Outcome α ε) (hf : (s.frames f).point = .running)
    (hp : (s.frames f).promise.continuation = some p) (hw : (s.frames p).point = .awaiting f) :
    Awaits (s.finishTask f o).frames := by
  have hF := s.frames_finishTask o hf hp hw
  have hfp : f ≠ p := s.ne_of_points hf hw nofun
  have hactive : (s.frames f).point.Active := by rw [hf]; trivial
  refine h.put (p := p) (c := f) (x := some false) (y := some true)
    (l := (s.frames p).spent.map (·, true))
    (fun i hip hif => by rw [hF, if_neg hip, if_neg hif]) ?_ ?_ ?_ ?_
    (Frame.stage_eq_false.mpr ⟨hactive, (h.of_awaiting hw).2.1, hp⟩) ?_
  · rw [hF, if_neg hfp, if_pos rfl]
    simp [Frame.held, hf]
  · rw [hF, if_pos rfl]
    simp [Frame.stage, hw]
  · simp [Frame.held, hw]
  · rw [hF, if_pos rfl]
    exact List.Perm.refl _
  · rw [hF, if_neg hfp, if_pos rfl]
    exact Frame.stage_eq_true.mpr ⟨rfl, (Promise.continuation_finish _ o).trans hp⟩

/-- The end of a detached coroutine, which nobody awaits. -/
theorem finishDetached {f : ℕ} (o : Outcome α ε) (hf : (s.frames f).point = .running)
    (hd : (s.frames f).detached = true) : Awaits (s.finishDetached f o).frames := by
  cases o with
  | exception e => exact h
  | value v | void => exact h.modify (by simp [Frame.held, hf]) (by simp [Frame.stage, hf, hd])

end

end Awaits

/-- The invariant of the frames. -/
structure Sound (s : State α ε) : Prop where
  fault : s.fault = false
  custody : Custody s
  awaits : Awaits s.frames
  frames : ∀ f, (s.frames f).Sound

namespace Frame.Sound

variable {q : Frame α ε}

/-! ### Consequences -/

theorem vacant (h : q.Sound) (hq : q.point = .absent) : q = {} := by
  cases h with
  | absent => rfl
  | active hp => exact absurd hq hp.begun.ne_absent
  | _ => cases hq

theorem detached_eq_false (h : q.Sound) (hq : q.point = .initial ∨ q.point = .final) :
    q.detached = false := by
  cases h with
  | active hp => exact absurd hq fun hq => hq.elim hp.begun.ne_initial hp.ne_final
  | exited => rcases hq with hq | hq <;> cases hq
  | _ => rfl

/-- A body that has not ended has no outcome. -/
theorem outcome_eq_none (h : q.Sound) (hq : q.point = .initial ∨ q.point.Active) :
    q.outcome = none := by
  cases h with
  | final | ended | exited => rcases hq with hq | hq <;> cases hq
  | _ => rfl

theorem takeResult_finish {p : Promise α ε} {o : Outcome α ε} (he : p.exception = none)
    (ho : o.Fits p.isVoid) (throws : Option ε) :
    (p.finish o).takeResult throws = some (o.moved throws) := by
  cases o <;> simp_all [Outcome.Fits, Promise.finish, Promise.takeResult, Promise.returnValue,
    Promise.unhandledException, Outcome.moved]

section

variable (h : q.Sound)
include h

/-- The result of a body that has ended can be taken. -/
theorem takeResult (hq : q.point = .final) : ∃ o, q.outcome = some o ∧
    ∀ throws, q.promise.takeResult throws = some (o.moved throws) := by
  cases h with
  | final isVoid continuation ho => exact ⟨_, rfl, takeResult_finish rfl ho⟩
  | active hp => exact absurd hq hp.ne_final
  | _ => cases hq

/-- A task that was destroyed without an outcome was never awaited. -/
theorem continuation_eq_none (hq : q.point = .destroyed) (ho : q.outcome = none) :
    q.promise.continuation = none := by
  cases h with
  | active hp => exact absurd hq hp.ne_destroyed
  | ended | exited => cases ho
  | unused => rfl
  | _ => cases hq

theorem root (hd : q.detached = true) : q.promise.continuation = none := by
  cases h with
  | active _ _ _ _ _ root => exact root hd
  | exited => rfl
  | _ => cases hd

theorem once : q.destroyed = if q.point = .destroyed then 1 else 0 := by
  cases h with
  | active hp => exact (if_neg hp.ne_destroyed).symm
  | _ => rfl

/-- Only a body in progress has awaiters. -/
theorem active_of_mem {c : ℕ} (hc : c ∈ q.spent) : q.point.Active := by
  cases h with
  | active hp => exact hp
  | _ => cases hc

/-! ### Steps -/

/-- A body that is in progress goes on. -/
theorem goto (hq : q.point.Active) {p : Point} (hp : p.Active) (spent : List ℕ) :
    Frame.Sound { q with point := p, spent } := by
  cases h with
  | active _ detached isVoid continuation _ root =>
    exact .active hp detached isVoid continuation spent root
  | _ => exact absurd hq id

theorem enter (hq : q.point = .initial) (f : ℕ) :
    Frame.Sound { q with promise := q.promise.setContinuation f, point := .running } := by
  cases h with
  | initial isVoid => exact .active (by trivial) false isVoid (some f) [] nofun
  | active hp => exact absurd hq hp.begun.ne_initial
  | _ => cases hq

theorem destroy (hq : q.point = .initial ∨ q.point = .final) :
    Frame.Sound { q with point := .destroyed, destroyed := q.destroyed + 1 } := by
  cases h with
  | initial isVoid => exact .unused isVoid
  | final => exact .ended _ _
  | active hp => exact absurd hq fun hq => hq.elim hp.begun.ne_initial hp.ne_final
  | _ => rcases hq with hq | hq <;> cases hq

theorem finish (hq : q.point = .running) (hd : q.detached = false)
    (hs : q.spent = []) {o : Outcome α ε} (ho : o.Fits q.promise.isVoid) :
    Frame.Sound { q with promise := q.promise.finish o, outcome := some o, point := .final } := by
  cases h with
  | active _ _ isVoid continuation =>
    cases hd
    cases hs
    exact .final isVoid continuation ho
  | _ => cases hq

/-- The end of a detached coroutine. -/
theorem exit (hq : q.point = .running) (hd : q.detached = true) (hs : q.spent = []) : Frame.Sound
      { q with point := .destroyed, outcome := some .void, destroyed := q.destroyed + 1 } := by
  cases h with
  | active _ _ isVoid _ _ root =>
    cases hd
    cases hs
    cases root rfl
    exact .exited isVoid
  | _ => cases hq

end

end Frame.Sound

namespace Sound

theorem init : Sound ({} : State α ε) where
  fault := rfl
  custody := {
    absent := fun f => by simp
    fresh := fun _ _ => rfl
    handle := fun _ _ h => by cases h
    unique := fun _ _ _ h => by cases h
    owned := fun _ h => by cases h
    home := fun _ _ h => by cases h
    nested := fun _ _ _ h => by cases h }
  awaits := {
    held := fun _ _ _ => iff_of_false not_mem_nil nofun
    continued := fun _ _ => nofun
    nodup := fun _ => nodup_nil }
  frames := fun _ => .absent

theorem lt_objectCount (h : Sound s) {x : ℕ} {o : Object} (hx : s.objects x = some o) :
    x < s.objectCount := by
  by_contra hn
  rw [h.custody.fresh x (by omega)] at hx
  cases hx

theorem begun_of_open {home : Option ℕ} (hh : s.Open home) (g : ℕ) (hg : home = some g) :
    (s.frames g).point.Begun := by
  subst hg
  rcases hh with hh | hh
  · exact hh.begun
  · rw [hh]
    trivial

theorem moveConstruct (h : Sound s) {x : ℕ} {home : Option ℕ} (hx : s.Accessible x)
    (hh : s.Open home) : Sound (s.moveConstruct x home) where
  fault := h.fault
  custody := by
    obtain ⟨o, ho, -⟩ := hx
    refine h.custody.moveConstruct (h.lt_objectCount ho) fun g hg => ?_
    have hg := begun_of_open hh g hg
    exact ⟨hg.ne_absent, fun hp => absurd hp hg.ne_initial⟩
  awaits := h.awaits
  frames := h.frames

/-- The arguments of a step that makes a frame. -/
theorem params (h : Sound s) {xs : List ℕ} (hx : ∀ x ∈ xs, s.Accessible x) :
    ∀ x ∈ xs, x < s.objectCount ∧ ∀ g, s.handle x = some g → g < s.frameCount := by
  intro x hmem
  obtain ⟨o, ho, -⟩ := hx x hmem
  refine ⟨h.lt_objectCount ho, fun g hg => ?_⟩
  have hi := h.custody.handle x g hg
  by_contra hn
  rw [(h.custody.absent g).mpr (by omega)] at hi
  cases hi

theorem fault_moveParams (f : ℕ) (xs : List ℕ) : (State.moveParams f xs s).fault = s.fault := by
  induction xs generalizing s with
  | nil => rfl
  | cons x xs ih => exact ih

section

variable (h : Sound s)
include h

theorem absent_frameCount : s.frames s.frameCount = {} :=
  (h.frames _).vacant ((h.custody.absent _).mpr (Nat.le_refl _))

theorem frames_allocate {q : Frame α ε} (hq : q.Sound) (f : ℕ) :
    ((s.allocate q).frames f).Sound := by
  rw [State.frames_allocate]
  split_ifs
  · exact hq
  · exact h.frames f

theorem call {isVoid : Bool} {xs : List ℕ} {home : Option ℕ}
    (hx : ∀ x ∈ xs, s.Accessible x) (hh : s.Open home) : Sound (s.call isVoid xs home) where
  fault := by rw [State.call, fault_moveParams]; exact h.fault
  custody := by
    refine (h.custody.allocate_construct rfl (begun_of_open hh)).moveParams ?_ ?_
    · change ((s.allocate _).frames _).point ≠ _
      rw [State.frames_allocate, if_pos rfl]
      nofun
    · intro x hmem
      obtain ⟨hn, hg⟩ := h.params hx x hmem
      refine ⟨Nat.lt_succ_of_lt hn, fun g hg' => hg g ?_⟩
      rw [State.handle_construct, if_neg (by change x ≠ s.objectCount; omega)] at hg'
      exact hg'
  awaits := by
    rw [State.call, State.frames_moveParams]
    exact h.awaits.allocate h.absent_frameCount (.inl rfl) rfl
  frames := fun f => by
    rw [State.call, State.frames_moveParams]
    exact h.frames_allocate (.initial isVoid) f

theorem detach {xs : List ℕ} (hx : ∀ x ∈ xs, s.Accessible x) : Sound (s.detach xs) where
  fault := by rw [State.detach, fault_moveParams]; exact h.fault
  custody := by
    refine (h.custody.allocate ?_).moveParams ?_ (h.params hx)
    · trivial
    · rw [State.frames_allocate, if_pos rfl]
      nofun
  awaits := by
    rw [State.detach, State.frames_moveParams]
    exact h.awaits.allocate h.absent_frameCount (.inr ⟨rfl, rfl⟩) rfl
  frames := fun f => by
    rw [State.detach, State.frames_moveParams]
    exact h.frames_allocate (.active (by trivial) true true none [] fun _ => rfl) f

/-- A step that changes frames whose body has begun, and no task objects. -/
theorem of_frames (hf : s'.fault = s.fault) (ho : s'.objects = s.objects)
    (hn : s'.objectCount = s.objectCount) (hc : s'.frameCount = s.frameCount)
    (hw : Awaits s'.frames) (hq : ∀ f, s'.frames f = s.frames f ∨ (s.frames f).point.Begun ∧
      (s'.frames f).point.Begun ∧ (s'.frames f).Sound) : Sound s' where
  fault := hf.trans h.fault
  custody := by
    refine h.custody.of_points ho hn hc (fun f => ?_) fun f => ?_
    · rcases hq f with heq | ⟨hb, hb', -⟩
      · rw [heq]
      · exact iff_of_false hb'.ne_initial hb.ne_initial
    · rcases hq f with heq | ⟨hb, hb', -⟩
      · rw [heq]
      · exact iff_of_false hb'.ne_absent hb.ne_absent
  awaits := hw
  frames f := by
    rcases hq f with heq | ⟨-, -, hsound⟩
    · exact heq ▸ h.frames f
    · exact hsound

theorem goto {f : ℕ} {p : Point}
    (hf : (s.frames f).point = .running ∨ (s.frames f).point = .suspended)
    (hp : p = .running ∨ p = .suspended) : Sound (s.goto f p) := by
  have hactive : (s.frames f).point.Active := by rcases hf with hf | hf <;> rw [hf] <;> trivial
  have hactive' : p.Active := by rcases hp with rfl | rfl <;> trivial
  refine h.of_frames rfl rfl rfl rfl (h.awaits.goto hf hp) fun i => ?_
  rw [State.frames_goto]
  split_ifs with hi
  · rw [hi]
    exact .inr ⟨hactive.begun, hactive'.begun, (h.frames f).goto hactive hactive' _⟩
  · exact .inl rfl

theorem awaitResume {f c : ℕ} (hf : (s.frames f).point = .resumed c)
    (throws : Option ε) : Sound (s.awaitResume f c throws) := by
  have hc := (h.awaits.of_resumed hf).1
  have hactive : (s.frames f).point.Active := by rw [hf]; trivial
  obtain ⟨o, -, ho⟩ := (h.frames c).takeResult hc
  rw [State.awaitResume_of_final s hc (ho throws)]
  refine h.of_frames rfl rfl rfl rfl (h.awaits.awaitResume hf) fun i => ?_
  rw [State.frames_answer, State.frames_modify]
  split_ifs with hi
  · rw [hi]
    exact .inr ⟨hactive.begun, trivial, (h.frames f).goto hactive (by trivial) _⟩
  · exact .inl rfl

theorem endAwait {f c : ℕ} (hf : (s.frames f).point = .running)
    (hc : c ∈ (s.frames f).spent) : Sound (s.endAwait f c) := by
  obtain ⟨hfinal, -⟩ := h.awaits.of_spent hc
  have hne : c ≠ f := s.ne_of_points hfinal hf nofun
  have hactive : (s.frames f).point.Active := by rw [hf]; trivial
  have hw := h.awaits.endAwait hf hc
  have hF := s.frames_endAwait hf hfinal
  rw [State.endAwait, State.destroy_of_suspended] at hw hF ⊢
  · refine h.of_frames rfl rfl rfl rfl hw fun i => ?_
    rw [hF]
    split_ifs with hic hif
    · rw [hic, hfinal]
      exact .inr ⟨trivial, trivial, (h.frames c).destroy (.inr hfinal)⟩
    · rw [hif]
      exact .inr ⟨hactive.begun, hactive.begun, (h.frames f).goto hactive hactive _⟩
    · exact .inl rfl
  all_goals
    rw [State.frames_modify, if_neg hne]
    exact .inr hfinal

theorem finishTask {f : ℕ} {o : Outcome α ε} (hf : (s.frames f).point = .running)
    (hd : (s.frames f).detached = false) (hs : (s.frames f).spent = [])
    (ho : o.Fits (s.frames f).promise.isVoid) : Sound (s.finishTask f o) := by
  have hactive : (s.frames f).point.Active := by rw [hf]; trivial
  obtain ⟨p, hp, hpw⟩ := h.awaits.exists_awaiting hactive hd
  have hactive' : (s.frames p).point.Active := by rw [hpw]; trivial
  have hw := h.awaits.finishTask o hf hp hpw
  have hF := s.frames_finishTask o hf hp hpw
  rw [State.finishTask_of_awaiting s o hf hp hpw] at hw hF ⊢
  refine h.of_frames rfl rfl rfl rfl hw fun i => ?_
  rw [hF]
  split_ifs with hip hif
  · rw [hip]
    exact .inr ⟨hactive'.begun, trivial, (h.frames p).goto hactive' (by trivial) _⟩
  · rw [hif]
    exact .inr ⟨hactive.begun, trivial, (h.frames f).finish hf hd hs ho⟩
  · exact .inl rfl

theorem finishDetached {f : ℕ} {o : Outcome α ε} (hf : (s.frames f).point = .running)
    (hd : (s.frames f).detached = true) (hs : (s.frames f).spent = []) :
    Sound (s.finishDetached f o) := by
  have hw := h.awaits.finishDetached o hf hd
  cases o with
  | exception e => exact h.of_frames rfl rfl rfl rfl hw fun _ => .inl rfl
  | value v | void =>
    refine h.of_frames rfl rfl rfl rfl hw fun i => ?_
    rw [State.finishDetached, State.frames_modify]
    split_ifs with hi
    · rw [hi, hf]
      exact .inr ⟨trivial, trivial, (h.frames f).exit hf hd hs⟩
    · exact .inl rfl

end

/-- `destroy` leaves the task objects alone. -/
theorem destroyHandle_objects (s : State α ε) (x : Option ℕ) :
    (s.destroyHandle x).objects = s.objects ∧ (s.destroyHandle x).objectCount = s.objectCount ∧
      (s.destroyHandle x).frameCount = s.frameCount := by
  cases x with
  | none => exact ⟨rfl, rfl, rfl⟩
  | some f =>
    simp only [State.destroyHandle, State.destroy]
    split <;> exact ⟨rfl, rfl, rfl⟩

/-- The frame `c` of the task object `x` is entered or destroyed. -/
theorem points_of_consume (h : Sound s) (s' : State α ε) {x c : ℕ} (hx : s.handle x = some c)
    (hc : (s'.frames c).point.Begun) (hne : ∀ i, i ≠ c → s'.frames i = s.frames i ∨
      (s.frames i).point.Begun ∧ (s'.frames i).point.Begun) :
    (∀ f, (s'.frames f).point = .initial ↔ (s.frames f).point = .initial ∧ s.handle x ≠ some f) ∧
      ∀ f, (s'.frames f).point = .absent ↔ (s.frames f).point = .absent := by
  have hinitial := h.custody.handle x c hx
  refine ⟨fun f => ?_, fun f => ?_⟩
  · by_cases hf : f = c
    · rw [hf]
      exact iff_of_false hc.ne_initial fun hp => hp.2 hx
    · have hxf : s.handle x ≠ some f := fun hxf => hf (Option.some.inj (hxf.symm.trans hx))
      rw [and_iff_left hxf]
      rcases hne f hf with heq | ⟨hb, hb'⟩
      · rw [heq]
      · exact iff_of_false hb'.ne_initial hb.ne_initial
  · by_cases hf : f = c
    · rw [hf, hinitial]
      exact iff_of_false hc.ne_absent nofun
    · rcases hne f hf with heq | ⟨hb, hb'⟩
      · rw [heq]
      · exact iff_of_false hb'.ne_absent hb.ne_absent

/-- The frame of a task object is destroyed, if it has one, and the object is destroyed itself or
gets the handle of another one. -/
theorem release (h : Sound s) {x : ℕ} {y : Option ℕ}
    (hf : s'.frames = (s.destroyHandle (s.handle x)).frames)
    (he : s'.fault = (s.destroyHandle (s.handle x)).fault) (hc : s'.frameCount = s.frameCount)
    (hn : s'.objectCount = s.objectCount) (hy : y ≠ some x) (hH : ∀ i, s'.handle i =
      if i = x then y.bind s.handle else if y = some i then none else s.handle i)
    (hM : ∀ i g, s'.homeOf i = some g → s.homeOf i = some g)
    (hO : ∀ i, s.objects i = none → s'.objects i = none)
    (hp : y ≠ none → ∀ g, s.homeOf x = some g → (s.frames g).point ≠ .initial) : Sound s' := by
  cases hx : s.handle x with
  | none =>
    rw [hx] at hf he
    have hf : s'.frames = s.frames := hf
    exact ⟨he.trans h.fault,
      h.custody.consume hc hn hy (by simp [hf, hx]) (by simp [hf]) hH hM hO hp,
      hf ▸ h.awaits, hf ▸ h.frames⟩
  | some c =>
    have hi := h.custody.handle x c hx
    have hw := h.awaits.destroy hi
    rw [hx, State.destroyHandle] at hf he
    rw [State.destroy_of_suspended _ (.inl hi)] at hf he hw
    have hF : ∀ i, s'.frames i = _ := fun i => by rw [hf, State.frames_modify]
    obtain ⟨hini, hab⟩ := h.points_of_consume s' hx (by rw [hF, if_pos rfl]; trivial)
      fun i hi => .inl (by rw [hF, if_neg hi])
    refine ⟨he.trans h.fault, h.custody.consume hc hn hy hini hab hH hM hO hp, hf ▸ hw,
      fun i => ?_⟩
    rw [hF]
    split_ifs
    · exact (h.frames c).destroy (.inl hi)
    · exact h.frames i

theorem destroyTask (h : Sound s) (x : ℕ) : Sound (s.destroyTask x) := by
  obtain ⟨ho, hn, hc⟩ := destroyHandle_objects s (s.handle x)
  have hO : ∀ i, (s.destroyTask x).objects i = if i = x then none else s.objects i := fun i => by
    rw [← ho]
    exact update_apply ..
  refine h.release (x := x) (y := none) rfl rfl hc hn nofun ?_ ?_ ?_ (fun hy => (hy rfl).elim)
  · intro i
    rw [State.handle, hO]
    split_ifs <;> simp_all [State.handle]
  · intro i g hg
    rw [State.homeOf, hO] at hg
    split_ifs at hg
    · cases hg
    · exact hg
  · intro i hi
    rw [hO, hi, ite_self]

theorem moveAssign (h : Sound s) {x y : ℕ} (hx : s.Accessible x) : Sound (s.moveAssign x y) := by
  unfold State.moveAssign
  split_ifs with hxy
  · exact h
  obtain ⟨o, ho, hopen⟩ := hx
  obtain ⟨hobj, hn, hc⟩ := destroyHandle_objects s (s.handle x)
  have hO : ∀ i, (((s.destroyHandle (s.handle x)).setHandle y none).setHandle x
      (s.handle y)).objects i = if i = x then some { o with handle := s.handle y } else
        if i = y then (s.objects y).map ({ · with handle := none }) else s.objects i := fun i => by
    rw [State.objects_setHandle, State.objects_setHandle, State.objects_setHandle, hobj, if_neg hxy,
      ho]
    rfl
  refine h.release (x := x) (y := some y) rfl rfl hc hn (by simpa using Ne.symm hxy) ?_ ?_ ?_
    fun _ g hg => ?_
  · intro i
    rw [State.handle, hO]
    split_ifs <;> simp_all [State.handle]
  · intro i g hg
    rw [State.homeOf_setHandle, State.homeOf_setHandle, State.homeOf, hobj] at hg
    exact hg
  · intro i hi
    rw [hO]
    split_ifs <;> simp_all
  · rw [State.homeOf, ho] at hg
    exact (begun_of_open hopen g hg).ne_initial

theorem coAwait (h : Sound s) {f x : ℕ} (hf : (s.frames f).point = .running) :
    Sound (s.coAwait f x) := by
  cases hx : s.handle x with
  | none =>
    have he : s.coAwait f x = s.answer { parent := f, outcome := .exception .emptyTask } := by
      simp [State.coAwait, hx]
    rw [he]
    exact h.of_frames rfl rfl rfl rfl h.awaits fun _ => .inl rfl
  | some c =>
    have hc := h.custody.handle x c hx
    have hactive : (s.frames f).point.Active := by rw [hf]; trivial
    have hw := h.awaits.enter hf hc ((h.frames c).detached_eq_false (.inl hc))
    have he : s.coAwait f x = (s.setHandle x none).awaitSuspend f c := by simp [State.coAwait, hx]
    have hF := (s.setHandle x none).frames_awaitSuspend hf hc
    rw [he]
    rw [State.awaitSuspend_of_initial (s.setHandle x none) hf hc] at hF ⊢
    rw [State.awaitSuspend_of_initial _ hf hc] at hw
    obtain ⟨hini, hab⟩ := h.points_of_consume _ hx (by rw [hF, if_pos rfl]; trivial) fun i hi => by
      rw [hF, if_neg hi]
      split_ifs with hif
      · rw [hif]
        exact .inr ⟨hactive.begun, trivial⟩
      · exact .inl rfl
    refine ⟨h.fault, h.custody.consume (x := x) (y := none) rfl rfl nofun hini hab ?_ ?_ ?_
      (fun hy => (hy rfl).elim), hw, fun i => ?_⟩
    · intro i
      simp only [Option.bind_none, reduceCtorEq, if_false]
      exact s.handle_setHandle_none x i
    · intro i g hg
      exact (s.homeOf_setHandle x none i).symm.trans hg
    · intro i hi
      change (s.setHandle x none).objects i = none
      rw [State.objects_setHandle]
      split_ifs with he
      · rw [← he, hi]; rfl
      · exact hi
    · rw [hF]
      split_ifs
      · exact (h.frames c).enter hc f
      · exact (h.frames f).goto hactive (by trivial) _
      · exact h.frames i

/-- **Every step keeps the invariant.** -/
theorem act (h : Sound s) {a : Act α ε} (ha : s.Enabled a) : Sound (s.act a) := by
  cases a with
  | call isVoid params home => exact h.call ha.1 ha.2
  | detach params => exact h.detach ha
  | moveConstruct x home => exact h.moveConstruct ha.1 ha.2
  | moveAssign x y => exact h.moveAssign ha.1
  | destroyTask x => exact h.destroyTask x
  | coAwait f x => exact h.coAwait ha.1
  | suspend f => exact h.goto (.inl ha) (.inr rfl)
  | resume f =>
    change Sound (s.resume f)
    rw [State.resume_of_suspended _ ha]
    exact h.goto (.inr ha) (.inl rfl)
  | awaitResume f c throws => exact h.awaitResume ha throws
  | endAwait f c => exact h.endAwait ha.1 ha.2
  | complete f o =>
    change Sound (s.complete f o)
    obtain ⟨hf, hs, ho⟩ := ha
    unfold State.complete
    split_ifs with hd
    · exact h.finishDetached hf hd hs
    · exact h.finishTask hf (by simpa using hd) hs ho

end Sound

/-- The invariant holds in every state that is reached. -/
theorem Reachable.sound (h : Reachable s) : Sound s := by
  induction h with
  | init => exact Sound.init
  | step _ a _ ha ih => exact ih.act ha

/-! ### Owners -/

/-- What can own a frame: a task object, an awaiter in the frame of another coroutine, or the
coroutine itself. -/
inductive Owner where
  | task (x : ℕ)
  | awaiter (p : ℕ)
  | self
  deriving DecidableEq, Repr

/-- The owners of a frame. -/
def State.Owns (s : State α ε) (f : ℕ) : Owner → Prop
  | .task x => s.handle x = some f
  | .awaiter p => (s.frames p).point = .awaiting f ∨ (s.frames p).point = .resumed f ∨
      f ∈ (s.frames p).spent
  | .self => (s.frames f).detached = true ∧ (s.frames f).point.Active

/-- The stage of a frame with an owner of the given kind. -/
def State.Stage (s : State α ε) (f : ℕ) : Owner → Prop
  | .task _ => (s.frames f).point = .initial
  | .awaiter p => ((s.frames f).point.Active ∨ (s.frames f).point = .final) ∧
      (s.frames f).detached = false ∧ (s.frames f).promise.continuation = some p
  | .self => (s.frames f).point.Active ∧ (s.frames f).detached = true

theorem Sound.stage_of_owns (h : Sound s) {f : ℕ} {o : Owner} (ho : s.Owns f o) : s.Stage f o := by
  cases o with
  | task x => exact h.custody.handle x f ho
  | awaiter p =>
    rcases ho with ho | ho
    · obtain ⟨ha, hd, hc⟩ := h.awaits.of_awaiting ho
      exact ⟨.inl ha, hd, hc⟩
    · obtain ⟨hp, hc⟩ := h.awaits.of_held (Frame.mem_held_true.mpr ho)
      exact ⟨.inr hp, (h.frames f).detached_eq_false (.inr hp), hc⟩
  | self => exact ⟨ho.2, ho.1⟩

/-- A frame with an owner exists, and only a task object owns a frame whose body has not begun. -/
theorem State.Stage.point {f : ℕ} {o : Owner} (h : s.Stage f o) :
    (s.frames f).point ≠ .destroyed ∧ ((∀ x, o ≠ .task x) → (s.frames f).point ≠ .initial) := by
  cases o with
  | task x =>
    rw [show (s.frames f).point = .initial from h]
    exact ⟨nofun, fun hx => absurd rfl (hx x)⟩
  | awaiter p =>
    rcases h.1 with ha | ha
    · exact ⟨ha.ne_destroyed, fun _ => ha.begun.ne_initial⟩
    · rw [ha]
      exact ⟨nofun, fun _ => nofun⟩
  | self => exact ⟨h.1.ne_destroyed, fun _ => h.1.begun.ne_initial⟩

/-- A frame has at most one owner. -/
theorem Sound.owner_unique (h : Sound s) {f : ℕ} {o o' : Owner} (ho : s.Owns f o)
    (ho' : s.Owns f o') : o = o' := by
  have hs := h.stage_of_owns ho
  have hs' := h.stage_of_owns ho'
  cases o with
  | task x =>
    cases o' with
    | task y => rw [h.custody.unique x y f ho ho']
    | _ => exact absurd hs (hs'.point.2 nofun)
  | awaiter p =>
    cases o' with
    | task y => exact absurd hs' (hs.point.2 nofun)
    | awaiter p' => rw [Option.some.inj (hs.2.2.symm.trans hs'.2.2)]
    | self => exact absurd (hs.2.1.symm.trans hs'.2) Bool.false_ne_true
  | self =>
    cases o' with
    | task y => exact absurd hs' (hs.point.2 nofun)
    | awaiter p => exact absurd (hs'.2.1.symm.trans hs.2) Bool.false_ne_true
    | self => rfl

/-- A frame that exists has an owner. -/
theorem Sound.owner_exists (h : Sound s) {f : ℕ} (hf : f < s.frameCount)
    (hd : (s.frames f).point ≠ .destroyed) : ∃ o, s.Owns f o := by
  have hn : (s.frames f).point ≠ .absent := fun ha => by
    have := (h.custody.absent f).mp ha
    omega
  by_cases hi : (s.frames f).point = .initial
  · obtain ⟨x, hx⟩ := h.custody.owned f hi
    exact ⟨.task x, hx⟩
  by_cases hfin : (s.frames f).point = .final
  · obtain ⟨p, hp⟩ := h.awaits.exists_held hfin
    exact ⟨.awaiter p, .inr hp⟩
  have ha : (s.frames f).point.Active := by
    cases hp : (s.frames f).point <;> simp_all [Point.Active]
  by_cases hdet : (s.frames f).detached = true
  · exact ⟨.self, hdet, ha⟩
  · obtain ⟨p, -, hp⟩ := h.awaits.exists_awaiting ha (by simpa using hdet)
    exact ⟨.awaiter p, .inl hp⟩

/-- **A frame has one owner until it is destroyed, and it is destroyed once.** -/
theorem frame_has_one_owner (h : Reachable s) : s.fault = false ∧ ∀ f < s.frameCount,
    (s.frames f).destroyed = 0 ∧ (∃! o, s.Owns f o) ∨
      (s.frames f).destroyed = 1 ∧ ∀ o, ¬s.Owns f o := by
  have hs := h.sound
  refine ⟨hs.fault, fun f hf => ?_⟩
  have honce := (hs.frames f).once
  by_cases hd : (s.frames f).point = .destroyed
  · refine .inr ⟨by rw [honce, if_pos hd], fun o ho => ?_⟩
    exact (hs.stage_of_owns ho).point.1 hd
  · refine .inl ⟨by rw [honce, if_neg hd], ?_⟩
    obtain ⟨o, ho⟩ := hs.owner_exists hf hd
    exact ⟨o, ho, fun o' ho' => hs.owner_unique ho' ho⟩

/-- A detached coroutine was called with a task for its parameter, and is about to await it. -/
def spawnedState : State ℕ Unit :=
  (({} : State ℕ Unit).act (.call false [] none)).act (.detach [0])

theorem spawnedState_reachable : Reachable spawnedState :=
  (Reachable.init.step (.call false [] none) rfl ⟨nofun, trivial⟩).step (.detach [0]) rfl
    (fun x hx => by
      cases mem_singleton.mp hx
      exact ⟨_, rfl, trivial⟩)

/-- The child has returned a value, which the detached coroutine has taken. -/
def answeredState : State ℕ Unit :=
  ((spawnedState.act (.coAwait 1 1)).act (.complete 0 (.value 7))).act (.awaitResume 1 0 none)

theorem answeredState_reachable : Reachable answeredState :=
  ((spawnedState_reachable.step (.coAwait 1 1) rfl ⟨rfl, _, rfl, .inl trivial⟩).step
    (.complete 0 (.value 7)) rfl ⟨rfl, rfl, rfl⟩).step (.awaitResume 1 0 none) rfl rfl

theorem answeredState_owner :
    (answeredState.frames 0).destroyed = 0 ∧ ∃! o, answeredState.Owns 0 o := by
  rcases (frame_has_one_owner answeredState_reachable).2 0 (by decide) with h | ⟨h, -⟩
  · exact h
  · exact absurd h (by decide)

/-- No body is in progress, and every task object that still exists is in a frame whose body has not
begun. -/
def State.Quiescent (s : State α ε) : Prop :=
  (∀ f, ¬(s.frames f).point.Active) ∧
    ∀ x o, s.objects x = some o → ∃ g, o.home = some g ∧ (s.frames g).point = .initial

/-- **No frame leaks.** -/
theorem no_frame_leaks (h : Reachable s) (hq : s.Quiescent) :
    (∀ f < s.frameCount, (s.frames f).destroyed = 1) ∧ ∀ x, s.objects x = none := by
  have hs := h.sound
  obtain ⟨hidle, hobj⟩ := hq
  -- a frame whose body has not begun belongs to a task in a younger frame of the same kind
  have hyoung : ∀ n f, s.frameCount ≤ f + n → (s.frames f).point ≠ .initial := by
    intro n
    induction n with
    | zero =>
      intro f hf hi
      rw [(hs.custody.absent f).mpr (by omega)] at hi
      cases hi
    | succ n ih =>
      intro f hf hi
      obtain ⟨x, hx⟩ := hs.custody.owned f hi
      obtain ⟨o, ho⟩ : ∃ o, s.objects x = some o := by
        cases hx' : s.objects x with
        | none => simp [State.handle, hx'] at hx
        | some o => exact ⟨o, rfl⟩
      obtain ⟨g, hg, hgi⟩ := hobj x o ho
      have hlt := hs.custody.nested x f g hx (by simp [State.homeOf, ho, hg]) hgi
      exact ih g (by omega) hgi
  have hini : ∀ f, (s.frames f).point ≠ .initial := fun f => hyoung s.frameCount f (by omega)
  have hdes : ∀ f < s.frameCount, (s.frames f).point = .destroyed := by
    intro f hf
    by_contra hd
    obtain ⟨o, ho⟩ := hs.owner_exists hf hd
    have hst := hs.stage_of_owns ho
    cases o with
    | task x => exact hini f hst
    | self => exact hidle f hst.1
    | awaiter p =>
      rcases ho with ho | ho | ho
      · exact hidle p (by rw [ho]; trivial)
      · exact hidle p (by rw [ho]; trivial)
      · exact hidle p ((hs.frames p).active_of_mem ho)
  refine ⟨fun f hf => by rw [(hs.frames f).once, if_pos (hdes f hf)], fun x => ?_⟩
  cases hx : s.objects x with
  | none => rfl
  | some o =>
    obtain ⟨g, -, hgi⟩ := hobj x o hx
    exact absurd hgi (hini g)

/-- All frames are destroyed, and the task objects with them. -/
def finishedState : State ℕ Unit :=
  (((answeredState.act (.endAwait 1 0)).act (.complete 1 .void)).act (.destroyTask 1)).act
    (.destroyTask 0)

theorem finishedState_reachable : Reachable finishedState :=
  (((answeredState_reachable.step (.endAwait 1 0) rfl ⟨rfl, mem_cons_self⟩).step
    (.complete 1 .void) rfl ⟨rfl, rfl, rfl⟩).step (.destroyTask 1) rfl
      ⟨_, rfl, .inr ⟨1, rfl, rfl⟩⟩).step (.destroyTask 0) rfl ⟨_, rfl, .inl trivial⟩

theorem finishedState_quiescent : finishedState.Quiescent := by
  constructor
  · intro f
    match f with
    | 0 => exact id
    | 1 => exact id
    | f + 2 => exact id
  · intro x o ho
    match x with
    | 0 => cases ho
    | 1 => cases ho
    | x + 2 => cases ho

theorem finishedState_destroyed :
    (finishedState.frames 0).destroyed = 1 ∧ (finishedState.frames 1).destroyed = 1 := by
  have h := (no_frame_leaks finishedState_reachable finishedState_quiescent).1
  exact ⟨h 0 (by decide), h 1 (by decide)⟩

end Snowy.Coroutine
