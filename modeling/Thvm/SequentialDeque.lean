import Thvm.TransitionRuns
import Mathlib.Data.List.Perm.Basic

/-!
# Sequential histories of a bounded double-ended queue

The specification of a work-stealing deque: one end is pushed and popped, the
other end is stolen from. A list holds the elements from the oldest to the
newest. A history is legal when its events replay on the list one after another.
-/

namespace Thvm.SequentialDeque
open TransitionRuns

variable {α : Type*}

/-- The effects an operation can have on the deque. `stealNone` is a steal that
gives up, which the deque allows at any time. -/
inductive Event (α : Type*)
  | push (x : α)
  | full (x : α)
  | pop (x : α)
  | popNone
  | steal (x : α)
  | stealNone
  deriving DecidableEq, Repr

/-- One event on the contents, oldest element first. A pop takes the newest and
a steal the oldest element; a push is refused exactly at capacity and a pop
comes back empty-handed only from the empty deque. -/
inductive Effect (cap : ℕ) : List α → Event α → List α → Prop
  | push (c : List α) (x : α) (room : c.length < cap) : Effect cap c (.push x) (c ++ [x])
  | full (c : List α) (x : α) (noRoom : c.length = cap) : Effect cap c (.full x) c
  | pop (c : List α) (x : α) : Effect cap (c ++ [x]) (.pop x) c
  | popNone : Effect cap [] .popNone []
  | steal (x : α) (c : List α) : Effect cap (x :: c) (.steal x) c
  | stealNone (c : List α) : Effect cap c .stealNone c

/-- The history replays from the empty deque and leaves the given contents. -/
def Legal (cap : ℕ) (h : List (Event α)) (c : List α) : Prop :=
  Run (Effect cap) [] h c

/-- The element that an event inserts. -/
def pushedBy : Event α → Option α
  | .push x => some x
  | _ => none

/-- The element that an event hands out. -/
def takenBy : Event α → Option α
  | .pop x => some x
  | .steal x => some x
  | _ => none

def pushed (h : List (Event α)) : List α := h.filterMap pushedBy

def taken (h : List (Event α)) : List α := h.filterMap takenBy

@[simp] theorem pushed_append (h h' : List (Event α)) :
    pushed (h ++ h') = pushed h ++ pushed h' := List.filterMap_append

@[simp] theorem taken_append (h h' : List (Event α)) :
    taken (h ++ h') = taken h ++ taken h' := List.filterMap_append

@[simp] theorem pushed_singleton (e : Event α) : pushed [e] = (pushedBy e).toList := by
  cases e <;> rfl

@[simp] theorem taken_singleton (e : Event α) : taken [e] = (takenBy e).toList := by
  cases e <;> rfl

/-- Every inserted element is handed out once or still there, with multiplicity. -/
theorem Legal.pushed_perm {cap : ℕ} {h : List (Event α)} {c : List α}
    (hl : Legal cap h c) : (pushed h).Perm (taken h ++ c) := by
  refine Run.invariant (I := fun h c => (pushed h).Perm (taken h ++ c)) (by rfl) ?_ hl
  intro h c e c' ih heff
  rw [pushed_append, taken_append, pushed_singleton, taken_singleton]
  cases heff with
  | push _ x => simpa [pushedBy, takenBy] using ih.append_right [x]
  | pop _ x =>
    have hx : (c' ++ [x]).Perm ([x] ++ c') := List.perm_append_comm
    simpa [pushedBy, takenBy] using ih.trans (hx.append_left _)
  | full | popNone | steal | stealNone => simpa [pushedBy, takenBy] using ih

theorem Legal.length_le {cap : ℕ} {h : List (Event α)} {c : List α}
    (hl : Legal cap h c) : c.length ≤ cap := by
  refine Run.invariant (I := fun _ c => c.length ≤ cap) (Nat.zero_le _) ?_ hl
  intro h c e c' ih heff
  cases heff with
  | push _ _ room => simpa using Nat.succ_le_of_lt room
  | pop | steal => simp only [List.length_append, List.length_cons, List.length_nil] at ih; omega
  | full | popNone | stealNone => exact ih

/-- Distinct elements are handed out at most once, and never while still there. -/
theorem Legal.taken_nodup {cap : ℕ} {h : List (Event α)} {c : List α}
    (hl : Legal cap h c) (hn : (pushed h).Nodup) : (taken h ++ c).Nodup :=
  (hl.pushed_perm.nodup_iff).mp hn

/-! The elements stored at consecutive indices of an array. -/

/-- The elements at the indices from `t` up to `b`. -/
def window (f : ℕ → α) (t b : ℕ) : List α := (List.range' t (b - t)).map f

@[simp] theorem window_self (f : ℕ → α) (t : ℕ) : window f t t = [] := by simp [window]

@[simp] theorem length_window (f : ℕ → α) (t b : ℕ) : (window f t b).length = b - t := by
  simp [window]

theorem window_snoc (f : ℕ → α) {t b : ℕ} (h : t ≤ b) :
    window f t (b + 1) = window f t b ++ [f b] := by
  have hlen : b + 1 - t = (b - t) + 1 := by omega
  have hlast : t + (b - t) = b := by omega
  rw [window, hlen, List.range'_concat, List.map_append, List.map_singleton, Nat.one_mul, hlast,
    window]

theorem window_cons (f : ℕ → α) {t b : ℕ} (h : t < b) :
    window f t b = f t :: window f (t + 1) b := by
  have hlen : b - t = (b - (t + 1)) + 1 := by omega
  rw [window, hlen, List.range'_succ, List.map_cons, window]

theorem window_congr {f g : ℕ → α} {t b : ℕ} (h : ∀ i, t ≤ i → i < b → f i = g i) :
    window f t b = window g t b := by
  refine List.map_congr_left fun i hi => ?_
  obtain ⟨hlow, hhigh⟩ := List.mem_range'_1.mp hi
  exact h i hlow (by omega)

end Thvm.SequentialDeque
