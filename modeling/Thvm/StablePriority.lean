import Mathlib.Data.List.Sort
import Mathlib.Tactic.Common

/-!
# Stable priorities

Entries with a rank and a turn. Sorted by rank and then by turn, the turns of a list
given out from left to right make the sort a stable one, and an entry with the last
turn goes behind all entries of its rank.
-/

namespace Thvm.Priority

structure Ticket (α : Type) where
  item : α
  rank : ℕ
  turn : ℕ
  deriving DecidableEq, Repr

namespace Ticket

variable {α : Type}

def Before (x y : Ticket α) : Prop := x.rank < y.rank ∨ x.rank = y.rank ∧ x.turn ≤ y.turn

instance (x y : Ticket α) : Decidable (x.Before y) := by
  unfold Before
  infer_instance

instance : DecidableRel (Before (α := α)) := fun x y ↦ inferInstanceAs (Decidable (x.Before y))

instance : Std.Total (Before (α := α)) where
  total x y := by
    unfold Before
    omega

instance : IsTrans (Ticket α) Before where
  trans x y z := by
    unfold Before
    omega

theorem Before.turn_eq {x y : Ticket α} (h : x.Before y) (h' : y.Before x) : x.turn = y.turn := by
  unfold Before at *
  omega

end Ticket

open Ticket

variable {α : Type}

def sort (l : List (Ticket α)) : List (Ticket α) := l.insertionSort Before

theorem sort_perm (l : List (Ticket α)) : (sort l).Perm l := List.perm_insertionSort _ _

theorem sort_pairwise (l : List (Ticket α)) : (sort l).Pairwise Before :=
  List.pairwise_insertionSort _ _

/-- With different turns there is only one order. -/
theorem eq_of_perm {l l' : List (Ticket α)} (hl : l.Pairwise Before) (hl' : l'.Pairwise Before)
    (hp : l.Perm l') (hd : (l.map turn).Nodup) : l = l' := by
  refine hp.eq_of_pairwise (fun x y hx hy hxy hyx ↦ ?_) hl hl'
  exact List.inj_on_of_nodup_map hd hx (hp.mem_iff.2 hy) (hxy.turn_eq hyx)

/-- The entries of a list, with turns from left to right. -/
def number (n : ℕ) : List (α × ℕ) → List (Ticket α)
  | [] => []
  | (a, k) :: l => ⟨a, k, n⟩ :: number (n + 1) l

def unnumber (x : Ticket α) : α × ℕ := (x.item, x.rank)

/-- Stable sorting by the second component. -/
def stableSort (l : List (α × ℕ)) : List (α × ℕ) := l.insertionSort fun x y ↦ x.2 ≤ y.2

theorem map_unnumber_number (n : ℕ) (l : List (α × ℕ)) : (number n l).map unnumber = l := by
  induction l generalizing n with
  | nil => rfl
  | cons x l ih => rw [number, List.map_cons, ih, unnumber]

theorem length_number (n : ℕ) (l : List (α × ℕ)) : (number n l).length = l.length := by
  simpa using congrArg List.length (map_unnumber_number n l)

theorem number_append (n : ℕ) (l l' : List (α × ℕ)) :
    number n (l ++ l') = number n l ++ number (n + l.length) l' := by
  induction l generalizing n with
  | nil => rfl
  | cons x l ih =>
    rw [List.cons_append, number, ih, number, List.cons_append, List.length_cons,
      show n + (l.length + 1) = n + 1 + l.length by omega]

theorem le_turn_of_mem_number {n : ℕ} {l : List (α × ℕ)} {x : Ticket α} (h : x ∈ number n l) :
    n ≤ x.turn := by
  induction l generalizing n with
  | nil => cases h
  | cons y l ih =>
    rcases List.mem_cons.1 h with rfl | h
    · exact le_rfl
    · exact (Nat.le_succ n).trans (ih h)

theorem turn_lt_of_mem_number {n : ℕ} {l : List (α × ℕ)} {x : Ticket α} (h : x ∈ number n l) :
    x.turn < n + l.length := by
  induction l generalizing n with
  | nil => cases h
  | cons y l ih =>
    rw [List.length_cons]
    rcases List.mem_cons.1 h with rfl | h
    · exact Nat.lt_add_of_pos_right (Nat.succ_pos _)
    · exact (ih h).trans_eq (by omega)

theorem mem_of_mem_number {n : ℕ} {l : List (α × ℕ)} {x : Ticket α} (h : x ∈ number n l) :
    unnumber x ∈ l := by
  rw [← map_unnumber_number n l]
  exact List.mem_map_of_mem h

theorem nodup_turn_number (n : ℕ) (l : List (α × ℕ)) : ((number n l).map turn).Nodup := by
  induction l generalizing n with
  | nil => exact List.nodup_nil
  | cons x l ih =>
    refine List.nodup_cons.2 ⟨fun h ↦ ?_, ih (n + 1)⟩
    obtain ⟨y, hy, hn⟩ := List.mem_map.1 h
    have hle := le_turn_of_mem_number hy
    rw [hn] at hle
    exact absurd hle (Nat.not_succ_le_self n)

theorem map_orderedInsert {β : Type} {r : α → α → Prop} {s : β → β → Prop} [DecidableRel r]
    [DecidableRel s] (f : α → β) {x : α} {l : List α} (h : ∀ y ∈ l, r x y ↔ s (f x) (f y)) :
    (l.orderedInsert r x).map f = (l.map f).orderedInsert s (f x) := by
  induction l with
  | nil => rfl
  | cons y l ih =>
    have hy := h y List.mem_cons_self
    simp only [List.orderedInsert_cons, List.map_cons, ← hy]
    split_ifs with hr
    · rfl
    · rw [List.map_cons, ih fun z hz ↦ h z (List.mem_cons_of_mem _ hz)]

/-- Turns from left to right make the sort stable. -/
theorem map_sort_number (n : ℕ) (l : List (α × ℕ)) :
    (sort (number n l)).map unnumber = stableSort l := by
  induction l generalizing n with
  | nil => rfl
  | cons x l ih =>
    rw [stableSort, List.insertionSort_cons, ← stableSort, ← ih (n + 1)]
    refine map_orderedInsert unnumber fun y hy ↦ ?_
    have hle := le_turn_of_mem_number ((sort_perm _).mem_iff.1 hy)
    show x.2 < y.rank ∨ x.2 = y.rank ∧ n ≤ y.turn ↔ x.2 ≤ y.rank
    omega

/-- Put an entry behind all entries of its rank. -/
def enqueue (a : α) (k : ℕ) : List (α × ℕ) → List (α × ℕ)
  | [] => [(a, k)]
  | y :: q => if k < y.2 then (a, k) :: y :: q else y :: enqueue a k q

theorem enqueue_perm (a : α) (k : ℕ) (q : List (α × ℕ)) : (enqueue a k q).Perm ((a, k) :: q) := by
  induction q with
  | nil => exact .refl _
  | cons y q ih =>
    rw [enqueue]
    split_ifs
    · exact .refl _
    · exact (ih.cons y).trans (.swap _ _ _)

theorem mem_enqueue {a : α} {k : ℕ} {q : List (α × ℕ)} {y : α × ℕ} :
    y ∈ enqueue a k q ↔ y = (a, k) ∨ y ∈ q := by
  rw [(enqueue_perm a k q).mem_iff, List.mem_cons]

theorem enqueue_pairwise {a : α} {k : ℕ} {q : List (α × ℕ)}
    (h : q.Pairwise fun x y ↦ x.2 ≤ y.2) : (enqueue a k q).Pairwise fun x y ↦ x.2 ≤ y.2 := by
  induction q with
  | nil => exact List.pairwise_singleton _ _
  | cons y q ih =>
    obtain ⟨hy, hq⟩ := List.pairwise_cons.1 h
    rw [enqueue]
    split_ifs with hk
    · refine List.pairwise_cons.2 ⟨fun z hz ↦ ?_, h⟩
      rcases List.mem_cons.1 hz with rfl | hz
      · exact hk.le
      · exact hk.le.trans (hy z hz)
    · refine List.pairwise_cons.2 ⟨fun z hz ↦ ?_, ih hq⟩
      rcases mem_enqueue.1 hz with rfl | hz
      · exact not_lt.1 hk
      · exact hy z hz

theorem map_orderedInsert_last {l : List (Ticket α)} {x : Ticket α}
    (hx : ∀ y ∈ l, y.turn < x.turn) :
    (l.orderedInsert Before x).map unnumber = enqueue x.item x.rank (l.map unnumber) := by
  induction l with
  | nil => rfl
  | cons y l ih =>
    have hy := hx y List.mem_cons_self
    have hbefore : x.Before y ↔ x.rank < (unnumber y).2 := by
      show x.rank < y.rank ∨ x.rank = y.rank ∧ x.turn ≤ y.turn ↔ x.rank < y.rank
      omega
    simp only [List.orderedInsert_cons, List.map_cons, enqueue, hbefore]
    split_ifs
    · rfl
    · rw [List.map_cons, ih fun z hz ↦ hx z (List.mem_cons_of_mem _ hz)]

/-- The entry with the last turn is sorted behind all entries of its rank. -/
theorem map_sort_append {l : List (Ticket α)} {x : Ticket α} (hx : ∀ y ∈ l, y.turn < x.turn)
    (hd : (l.map turn).Nodup) :
    (sort (l ++ [x])).map unnumber = enqueue x.item x.rank ((sort l).map unnumber) := by
  have hperm : (sort (l ++ [x])).Perm ((sort l).orderedInsert Before x) :=
    calc (sort (l ++ [x])).Perm (l ++ [x]) := sort_perm _
      _ |>.Perm (x :: l) := List.perm_append_singleton _ _
      _ |>.Perm (x :: sort l) := (sort_perm l).symm.cons x
      _ |>.Perm _ := (List.perm_orderedInsert Before x _).symm
  have hnodup : ((sort (l ++ [x])).map turn).Nodup := by
    refine ((sort_perm _).map turn).nodup_iff.2 ?_
    rw [List.map_append]
    refine List.nodup_append.2 ⟨hd, List.nodup_singleton _, fun n hn m hm ↦ ?_⟩
    obtain ⟨y, hy, rfl⟩ := List.mem_map.1 hn
    obtain rfl := List.mem_singleton.1 hm
    exact (hx y hy).ne
  rw [eq_of_perm (sort_pairwise _) (List.Pairwise.orderedInsert x _ (sort_pairwise l)) hperm hnodup]
  exact map_orderedInsert_last fun y hy ↦ hx y ((sort_perm l).mem_iff.1 hy)

/-- Cutting off before sorting gives the best entries exactly when none of the rest is better. -/
theorem stableSort_take_iff (l : List (α × ℕ)) (c : ℕ) :
    stableSort (l.take c) = (stableSort l).take c ↔
      ∀ x ∈ l.take c, ∀ y ∈ l.drop c, x.2 ≤ y.2 := by
  have hperm (m : List (α × ℕ)) : (stableSort m).Perm m := List.perm_insertionSort _ _
  constructor
  · intro h x hx y hy
    have hrest : ((stableSort l).drop c).Perm (l.drop c) := by
      have hall : (l.take c ++ (stableSort l).drop c).Perm (l.take c ++ l.drop c) := by
        refine ((hperm (l.take c)).symm.append_right _).trans ?_
        rw [h, List.take_append_drop, List.take_append_drop]
        exact hperm l
      exact (List.perm_append_left_iff _).1 hall
    have hsorted : (stableSort l).Pairwise fun x y ↦ x.2 ≤ y.2 :=
      List.pairwise_insertionSort _ _
    rw [← List.take_append_drop c (stableSort l)] at hsorted
    refine (List.pairwise_append.1 hsorted).2.2 x ?_ y (hrest.mem_iff.2 hy)
    rw [← h]
    exact (hperm _).mem_iff.2 hx
  · intro h
    have hsplit : sort (number 0 l) =
        sort (number 0 (l.take c)) ++ sort (number (l.take c).length (l.drop c)) := by
      have hnumber : number 0 l =
          number 0 (l.take c) ++ number (l.take c).length (l.drop c) := by
        rw [← Nat.zero_add (l.take c).length, ← number_append, List.take_append_drop]
      refine eq_of_perm (sort_pairwise _) ?_ ?_ ?_
      · refine List.pairwise_append.2 ⟨sort_pairwise _, sort_pairwise _, fun x hx y hy ↦ ?_⟩
        have hx := (sort_perm _).mem_iff.1 hx
        have hy := (sort_perm _).mem_iff.1 hy
        have hrank := h _ (mem_of_mem_number hx) _ (mem_of_mem_number hy)
        have hturn := turn_lt_of_mem_number hx
        have hturn' := le_turn_of_mem_number hy
        simp only [unnumber] at hrank
        unfold Before
        omega
      · rw [hnumber]
        exact (sort_perm _).trans ((sort_perm _).append (sort_perm _)).symm
      · exact ((sort_perm _).map turn).nodup_iff.2 (nodup_turn_number _ _)
    rw [← map_sort_number 0 (l.take c), ← map_sort_number 0 l, hsplit, List.map_append]
    have hlen : ((sort (number 0 (l.take c))).map unnumber).length = min c l.length := by
      rw [List.length_map, (sort_perm _).length_eq, length_number, List.length_take]
    rcases Nat.le_total c l.length with hc | hc
    · exact (List.take_left' (by rw [hlen, Nat.min_eq_left hc])).symm
    · have hrest : sort (number (l.take c).length (l.drop c)) = [] := by
        rw [List.drop_eq_nil_of_le hc]
        rfl
      rw [hrest, List.map_nil, List.append_nil,
        List.take_of_length_le (hlen.trans_le (Nat.min_le_left _ _))]

end Thvm.Priority
