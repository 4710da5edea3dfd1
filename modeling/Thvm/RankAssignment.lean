import Mathlib.Data.List.Nodup
import Mathlib.Data.Set.Function
import Mathlib.Order.Interval.Set.Defs
import Mathlib.Tactic.Common

/-!
# Ranks from a sorted list

The elements of a list without repetitions, ranked by their positions from the front or from
the back. Where the list is sorted by a key, the ranks compare as the keys do.
-/

namespace Thvm.Ranking

variable {α : Type} [DecidableEq α] {order : List α} {x y : α}

def rankUp (order : List α) (x : α) : ℕ := order.idxOf x + 1

def rankDown (order : List α) (x : α) : ℕ := order.length - order.idxOf x

theorem bijOn_rankUp (h : order.Nodup) :
    Set.BijOn (rankUp order) {x | x ∈ order} (Set.Icc 1 order.length) := by
  refine ⟨fun x hx ↦ ?_, fun x hx y _ hxy ↦ ?_, fun i hi ↦ ?_⟩
  · have hlt := List.idxOf_lt_length_of_mem hx
    exact ⟨Nat.succ_pos _, hlt⟩
  · exact (List.idxOf_inj hx).1 (Nat.succ.inj hxy)
  · obtain ⟨hpos, hle⟩ := hi
    have hlt : i - 1 < order.length := by omega
    refine ⟨order[i - 1], List.getElem_mem hlt, ?_⟩
    rw [rankUp, h.idxOf_getElem]
    omega

theorem bijOn_rankDown (h : order.Nodup) :
    Set.BijOn (rankDown order) {x | x ∈ order} (Set.Icc 1 order.length) := by
  refine ⟨fun x hx ↦ ?_, fun x hx y hy hxy ↦ ?_, fun i hi ↦ ?_⟩
  · have hlt := List.idxOf_lt_length_of_mem hx
    exact ⟨Nat.sub_pos_of_lt hlt, Nat.sub_le _ _⟩
  · have hlt := List.idxOf_lt_length_of_mem hx
    have hlt' := List.idxOf_lt_length_of_mem hy
    refine (List.idxOf_inj hx).1 ?_
    unfold rankDown at hxy
    omega
  · obtain ⟨hpos, hle⟩ := hi
    have hlt : order.length - i < order.length := by omega
    refine ⟨order[order.length - i], List.getElem_mem hlt, ?_⟩
    rw [rankDown, h.idxOf_getElem]
    omega

section Sorted

variable {r : α → α → Prop} (hsorted : order.Pairwise r) (hasymm : ∀ x y, r x y → ¬ r y x)
include hsorted hasymm

/-- In a list sorted by a strict order the positions compare as the elements do. -/
theorem idxOf_lt_iff (hx : x ∈ order) (hy : y ∈ order) :
    order.idxOf x < order.idxOf y ↔ r x y := by
  have hltx := List.idxOf_lt_length_of_mem hx
  have hlty := List.idxOf_lt_length_of_mem hy
  have hforward : ∀ {x y}, (hltx : order.idxOf x < order.length) →
      (hlty : order.idxOf y < order.length) → order.idxOf x < order.idxOf y → r x y := by
    intro x y hltx hlty hlt
    have hpair := List.pairwise_iff_getElem.1 hsorted _ _ hltx hlty hlt
    rwa [List.getElem_idxOf hltx, List.getElem_idxOf hlty] at hpair
  refine ⟨hforward hltx hlty, fun hxy ↦ ?_⟩
  rcases Nat.lt_trichotomy (order.idxOf x) (order.idxOf y) with hlt | heq | hlt
  · exact hlt
  · rw [(List.idxOf_inj hx).1 heq] at hxy
    exact absurd hxy (hasymm _ _ hxy)
  · exact absurd (hforward hlty hltx hlt) (hasymm _ _ hxy)

theorem rankUp_lt_iff (hx : x ∈ order) (hy : y ∈ order) :
    rankUp order x < rankUp order y ↔ r x y := by
  rw [← idxOf_lt_iff hsorted hasymm hx hy]
  exact Nat.succ_lt_succ_iff

theorem rankDown_lt_iff (hx : x ∈ order) (hy : y ∈ order) :
    rankDown order x < rankDown order y ↔ r y x := by
  rw [← idxOf_lt_iff hsorted hasymm hy hx]
  have hlt := List.idxOf_lt_length_of_mem hx
  have hlt' := List.idxOf_lt_length_of_mem hy
  unfold rankDown
  omega

end Sorted

end Thvm.Ranking
