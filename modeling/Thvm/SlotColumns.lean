import Mathlib.Data.List.Basic
import Mathlib.Data.List.Range
import Mathlib.Logic.Function.Basic
import Mathlib.Tactic.Common

/-!
# Columns of slots

A table is kept column by column, each one a function of the slot, and its rows are the first
`n` slots. A row is taken out by moving the later ones down. A sweep goes over the slots in
order and takes some of the rows out on its way.
-/

namespace Thvm.SlotColumns

universe u v

variable {α : Type u} {β : Type v} {f g : ℕ → α} {i j n : ℕ} {a : α}

/-- What a column holds in the first `n` slots. -/
def column (f : ℕ → α) (n : ℕ) : List α := (List.range n).map f

@[simp] theorem length_column : (column f n).length = n := by
  rw [column, List.length_map, List.length_range]

theorem getElem?_column (hj : j < n) : (column f n)[j]? = some (f j) := by
  rw [column, List.getElem?_map, List.getElem?_range hj, Option.map_some]

theorem getElem?_column_eq_some {x : α} : (column f n)[j]? = some x ↔ j < n ∧ f j = x := by
  by_cases hj : j < n
  · rw [getElem?_column hj, Option.some_inj]
    exact (and_iff_right hj).symm
  · rw [List.getElem?_eq_none (by rw [length_column]; omega)]
    simp [hj]

theorem mem_column {x : α} : x ∈ column f n ↔ ∃ j < n, f j = x := by
  rw [column, List.mem_map]
  simp only [List.mem_range]

theorem column_congr (h : ∀ j < n, f j = g j) : column f n = column g n :=
  List.map_congr_left fun j hj => h j (List.mem_range.mp hj)

theorem column_succ : column f (n + 1) = column f n ++ [f n] := by
  rw [column, List.range_succ, List.map_append]
  rfl

theorem column_update_top : column (Function.update f n a) (n + 1) = column f n ++ [a] := by
  rw [column_succ, Function.update_self, column_congr fun j hj => Function.update_of_ne hj.ne a f]

theorem column_update : column (Function.update f i a) n = (column f n).set i a := by
  apply List.ext_getElem?
  intro j
  by_cases hj : j < n
  · rw [getElem?_column hj, List.getElem?_set, length_column]
    by_cases hij : i = j
    · subst hij
      rw [Function.update_self, if_pos rfl, if_pos hj]
    · rw [Function.update_of_ne (Ne.symm hij), if_neg hij, getElem?_column hj]
  · rw [List.getElem?_eq_none (by rw [length_column]; omega),
      List.getElem?_eq_none (by rw [List.length_set, length_column]; omega)]

/-! ## Taking a row out -/

/-- Slot `i` is given up; what stands behind it, up to slot `n`, moves one slot down. -/
def shift (i n : ℕ) (f : ℕ → α) (j : ℕ) : α := if i ≤ j ∧ j + 1 < n then f (j + 1) else f j

theorem shift_of_lt (h : j < i) : shift i n f j = f j := if_neg fun hj => by omega

theorem shift_of_ge (h : i ≤ j) (hj : j + 1 < n) : shift i n f j = f (j + 1) := if_pos ⟨h, hj⟩

theorem shift_of_top (h : n ≤ j + 1) : shift i n f j = f j := if_neg fun hj => by omega

theorem column_shift (hi : i < n) : column (shift i n f) (n - 1) = (column f n).eraseIdx i := by
  apply List.ext_getElem?
  intro j
  rw [List.getElem?_eraseIdx]
  by_cases hj : j < n - 1
  · rw [getElem?_column hj]
    by_cases hij : j < i
    · rw [if_pos hij, getElem?_column (by omega), shift_of_lt hij]
    · rw [if_neg hij, getElem?_column (by omega), shift_of_ge (by omega) (by omega)]
  · rw [List.getElem?_eq_none (by rw [length_column]; omega)]
    split
    · exact (List.getElem?_eq_none (by rw [length_column]; omega)).symm
    · exact (List.getElem?_eq_none (by rw [length_column]; omega)).symm

/-- A column that stays behind does no harm where it is the same in neighbouring slots. -/
theorem shift_of_level (h : ∀ k, i ≤ k → k + 1 < n → f k = f (k + 1)) : shift i n f = f := by
  funext j
  unfold shift
  split
  · next hj => exact (h j hj.1 hj.2).symm
  · rfl

/-! ## Sweeps -/

section Sweeps

variable {S : Type u} {step : ℕ → S → Bool × S} {cond : ℕ → S → Prop} {I : ℕ → ℕ → S → Prop}
  {rest : ℕ} {s : S}

/-- The loop over `rest` more slots from slot `i` on. A slot that is dropped makes room for the
next one. The result counts the slots that were dropped. -/
def sweep (step : ℕ → S → Bool × S) : ℕ → ℕ → S → ℕ × S
  | 0, _, s => (0, s)
  | rest + 1, i, s =>
    let (dropped, s) := step i s
    if dropped then
      let (n, s) := sweep step rest i s
      (n + 1, s)
    else sweep step rest (i + 1) s

/-- Every slot that the loop comes to meets a condition when it does. -/
def Sweeps (step : ℕ → S → Bool × S) (cond : ℕ → S → Prop) : ℕ → ℕ → S → Prop
  | 0, _, _ => True
  | rest + 1, i, s =>
    cond i s ∧ Sweeps step cond rest (if (step i s).1 then i else i + 1) (step i s).2

theorem sweeps_of_forall (h : ∀ i s, cond i s) : Sweeps step cond rest i s := by
  induction rest generalizing i s with
  | zero => trivial
  | succ rest ih => exact ⟨h i s, ih⟩

/-- What both kinds of step keep holds after the loop, which has come to the first slot that it
was not to visit. -/
theorem sweep_invariant
    (hdrop : ∀ rest i s, cond i s → I (rest + 1) i s → (step i s).1 = true → I rest i (step i s).2)
    (hkeep : ∀ rest i s, cond i s → I (rest + 1) i s → (step i s).1 = false →
      I rest (i + 1) (step i s).2)
    (hcond : Sweeps step cond rest i s) (hI : I rest i s) :
    I 0 (i + rest - (sweep step rest i s).1) (sweep step rest i s).2 := by
  induction rest generalizing i s with
  | zero => exact hI
  | succ rest ih =>
    obtain ⟨hc, hrest⟩ := hcond
    unfold sweep
    cases hd : (step i s).1 with
    | true =>
      rw [hd, if_pos rfl] at hrest
      have h := ih hrest (hdrop rest i s hc hI hd)
      simp only [hd, if_true]
      rwa [show i + (rest + 1) - ((sweep step rest i (step i s).2).1 + 1) =
        i + rest - (sweep step rest i (step i s).2).1 by omega]
    | false =>
      rw [hd, if_neg Bool.false_ne_true] at hrest
      have h := ih hrest (hkeep rest i s hc hI hd)
      simp only [hd, Bool.false_eq_true, if_false]
      rwa [show i + (rest + 1) = i + 1 + rest by omega]

end Sweeps

end Thvm.SlotColumns
