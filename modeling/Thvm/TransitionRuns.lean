import Mathlib.Data.List.Basic
import Mathlib.Tactic.Common

/-!
# Finite runs of a labelled step relation

A run records the labels of its steps in order. Invariants may speak of the
labels seen so far, so that a history and the state it leads to can be related
by one induction. A simulation replays the steps of one relation as runs of
another, along a relation between the two state spaces.
-/

namespace Thvm.TransitionRuns

universe u v w x

variable {State : Type u} {Label : Type v}

/-- Runs of a step relation from a fixed state, extended at the end. -/
inductive Run (step : State → Label → State → Prop) (s : State) :
    List Label → State → Prop
  | refl : Run step s [] s
  | snoc {ls : List Label} {t : State} {l : Label} {u : State}
      (run : Run step s ls t) (last : step t l u) : Run step s (ls ++ [l]) u

variable {step : State → Label → State → Prop}

theorem Run.single {s t : State} {l : Label} (h : step s l t) : Run step s [l] t :=
  .snoc .refl h

theorem Run.trans {s t u : State} {ls ms : List Label}
    (h : Run step s ls t) (h' : Run step t ms u) : Run step s (ls ++ ms) u := by
  induction h' with
  | refl => simpa using h
  | snoc run last ih =>
    rw [← List.append_assoc]
    exact ih.snoc last

theorem Run.snoc_inv {s u : State} {ls : List Label} {l : Label}
    (h : Run step s (ls ++ [l]) u) : ∃ t, Run step s ls t ∧ step t l u := by
  generalize hm : ls ++ [l] = ms at h
  cases h with
  | refl => simp at hm
  | snoc run last =>
    obtain ⟨rfl, hl⟩ := List.append_inj' hm rfl
    obtain rfl := List.singleton_inj.mp hl
    exact ⟨_, run, last⟩

/-- An invariant of labels and state holds along every run that starts in it. -/
theorem Run.invariant {I : List Label → State → Prop} {s : State}
    (hinit : I [] s)
    (hstep : ∀ ls t l u, I ls t → step t l u → I (ls ++ [l]) u)
    {ls : List Label} {t : State} (h : Run step s ls t) : I ls t := by
  induction h with
  | refl => exact hinit
  | snoc run last ih => exact hstep _ _ _ _ ih last

/-- An invariant that only needs to be kept while a prefix-closed condition on
the labels holds. -/
theorem Run.invariant_while {I : List Label → State → Prop} {C : List Label → Prop}
    {s : State} (hclosed : ∀ ls l, C (ls ++ [l]) → C ls) (hinit : I [] s)
    (hstep : ∀ ls t l u, I ls t → C (ls ++ [l]) → step t l u → I (ls ++ [l]) u)
    {ls : List Label} {t : State} (h : Run step s ls t) (hc : C ls) : I ls t := by
  induction h with
  | refl => exact hinit
  | snoc run last ih => exact hstep _ _ _ _ (ih (hclosed _ _ hc)) hc last

/-- Each label meets a condition in the state that it comes to. -/
def Along (apply : State → Label → State) (P : State → Label → Prop) : State → List Label → Prop
  | _, [] => True
  | s, l :: ls => P s l ∧ Along apply P (apply s l) ls

/-- A run of a deterministic machine whose steps are all allowed. -/
theorem run_along (step : State → Label → State → Prop) {apply : State → Label → State}
    {P : State → Label → Prop} {s : State} {ls : List Label}
    (hstep : ∀ s l, P s l → step s l (apply s l)) (h : Along apply P s ls) :
    Run step s ls (ls.foldl apply s) := by
  induction ls generalizing s with
  | nil => exact .refl
  | cons l ls ih => exact Run.trans (.single (hstep s l h.1)) (ih h.2)

end Thvm.TransitionRuns
