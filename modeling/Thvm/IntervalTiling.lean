import Mathlib.Algebra.GroupWithZero.Nat
import Mathlib.Data.List.Nodup
import Mathlib.Order.Basic
import Mathlib.Order.Defs.PartialOrder
import Mathlib.Tactic.Common

/-!
# Tilings of an interval by blocks

Blocks with a start and a positive size that follow one another without gap or
overlap. Blocks can be cut in two and joined with their neighbours.
-/

namespace Thvm.IntervalTiling

variable {ι : Type*}

/-- The blocks cover the interval from `lo` to `hi` one after another. -/
def Tiles (start size : ι → ℕ) : ℕ → List ι → ℕ → Prop
  | lo, [], hi => lo = hi
  | lo, i :: is, hi => start i = lo ∧ 0 < size i ∧ Tiles start size (lo + size i) is hi

variable {start start' size size' : ι → ℕ} {lo mid hi : ℕ} {is js : List ι} {i j k : ι}

theorem Tiles.congr (h : Tiles start size lo is hi) (hstart : ∀ i ∈ is, start' i = start i)
    (hsize : ∀ i ∈ is, size' i = size i) : Tiles start' size' lo is hi := by
  induction is generalizing lo with
  | nil => exact h
  | cons i is ih =>
    obtain ⟨hlo, hpos, hrest⟩ := h
    have hs := hsize i List.mem_cons_self
    refine ⟨(hstart i List.mem_cons_self).trans hlo, hs ▸ hpos, ?_⟩
    rw [hs]
    exact ih hrest (fun j hj => hstart j (List.mem_cons_of_mem i hj)) fun j hj =>
      hsize j (List.mem_cons_of_mem i hj)

theorem tiles_append : Tiles start size lo (is ++ js) hi ↔
    ∃ mid, Tiles start size lo is mid ∧ Tiles start size mid js hi := by
  induction is generalizing lo with
  | nil => exact ⟨fun h => ⟨lo, rfl, h⟩, fun ⟨mid, he, h⟩ => he ▸ h⟩
  | cons i is ih =>
    constructor
    · rintro ⟨hlo, hpos, hrest⟩
      obtain ⟨mid, hleft, hright⟩ := ih.mp hrest
      exact ⟨mid, ⟨hlo, hpos, hleft⟩, hright⟩
    · rintro ⟨mid, ⟨hlo, hpos, hleft⟩, hright⟩
      exact ⟨hlo, hpos, ih.mpr ⟨mid, hleft, hright⟩⟩

theorem Tiles.le (h : Tiles start size lo is hi) : lo ≤ hi := by
  induction is generalizing lo with
  | nil => exact Nat.le_of_eq h
  | cons i is ih => exact Nat.le_trans (Nat.le_add_right _ _) (ih h.2.2)

theorem Tiles.mem_bounds (h : Tiles start size lo is hi) (hi' : i ∈ is) :
    lo ≤ start i ∧ 0 < size i ∧ start i + size i ≤ hi := by
  obtain ⟨as, bs, rfl⟩ := List.append_of_mem hi'
  obtain ⟨mid, hleft, hstart, hpos, hright⟩ := tiles_append.mp h
  exact ⟨hstart ▸ hleft.le, hpos, hstart ▸ hright.le⟩

/-- A place in the interval lies in one of the blocks. -/
theorem Tiles.exists_mem (h : Tiles start size lo is hi) {a : ℕ} (hlo : lo ≤ a) (hhi : a < hi) :
    ∃ i ∈ is, start i ≤ a ∧ a < start i + size i := by
  induction is generalizing lo with
  | nil => exact absurd hhi (Nat.not_lt_of_le ((show lo = hi from h) ▸ hlo))
  | cons i is ih =>
    obtain ⟨rfl, -, hrest⟩ := h
    by_cases hin : a < start i + size i
    · exact ⟨i, List.mem_cons_self, hlo, hin⟩
    · obtain ⟨j, hj, hbounds⟩ := ih hrest (Nat.le_of_not_lt hin)
      exact ⟨j, List.mem_cons_of_mem i hj, hbounds⟩

/-- The sizes of the blocks add up to the length of the interval. -/
theorem Tiles.sum (h : Tiles start size lo is hi) : lo + (is.map size).sum = hi := by
  induction is generalizing lo with
  | nil => exact h
  | cons i is ih =>
    rw [List.map_cons, List.sum_cons, ← Nat.add_assoc]
    exact ih h.2.2

/-- Two different blocks do not overlap. -/
theorem Tiles.disjoint (h : Tiles start size lo is hi) (hi' : i ∈ is) (hj : j ∈ is) (hne : i ≠ j) :
    start i + size i ≤ start j ∨ start j + size j ≤ start i := by
  obtain ⟨as, bs, rfl⟩ := List.append_of_mem hi'
  obtain ⟨mid, hleft, hstart, hpos, hright⟩ := tiles_append.mp h
  rcases List.mem_append.mp hj with hj | hj
  · exact .inr (hstart ▸ (hleft.mem_bounds hj).2.2)
  · rcases List.mem_cons.mp hj with rfl | hj
    · exact absurd rfl hne
    · exact .inl (hstart ▸ (hright.mem_bounds hj).1)

theorem Tiles.start_inj (h : Tiles start size lo is hi) (hi' : i ∈ is) (hj : j ∈ is)
    (hstart : start i = start j) : i = j := by
  by_contra hne
  have hposi := (h.mem_bounds hi').2.1
  have hposj := (h.mem_bounds hj).2.1
  rcases h.disjoint hi' hj hne with hd | hd <;> omega

/-- Cutting block `i` in two: the new block `k` is its upper part. -/
theorem Tiles.split (h : Tiles start size lo (is ++ i :: js) hi)
    (hnodup : (is ++ i :: js).Nodup) (hk : k ∉ is ++ i :: js) (hstart : start' i = start i)
    (hpos : 0 < size' i) (hlt : size' i < size i) (hstartk : start' k = start i + size' i)
    (hsizek : size' k = size i - size' i)
    (hsame : ∀ j, j ≠ i → j ≠ k → start' j = start j ∧ size' j = size j) :
    Tiles start' size' lo (is ++ i :: k :: js) hi := by
  obtain ⟨mid, hleft, hmid, -, hright⟩ := tiles_append.mp h
  obtain ⟨-, htailNodup, hdisj⟩ := List.nodup_append.mp hnodup
  have hijs := (List.nodup_cons.mp htailNodup).1
  simp only [List.mem_append, List.mem_cons, not_or] at hk
  obtain ⟨hkis, -, hkjs⟩ := hk
  have hleft' : ∀ j ∈ is, start' j = start j ∧ size' j = size j := fun j hj =>
    hsame j (fun he => hdisj j hj i List.mem_cons_self he) fun he => hkis (he ▸ hj)
  have hright' : ∀ j ∈ js, start' j = start j ∧ size' j = size j := fun j hj =>
    hsame j (fun he => hijs (he ▸ hj)) fun he => hkjs (he ▸ hj)
  refine tiles_append.mpr ⟨mid, hleft.congr (fun j hj => (hleft' j hj).1)
    fun j hj => (hleft' j hj).2, hstart.trans hmid, hpos, ?_, by omega, ?_⟩
  · rw [hstartk, hmid]
  · have hend : mid + size' i + size' k = mid + size i := by omega
    rw [hend]
    exact hright.congr (fun j hj => (hright' j hj).1) fun j hj => (hright' j hj).2

/-- Joining block `k` to the block `i` before it. -/
theorem Tiles.join (h : Tiles start size lo (is ++ i :: k :: js) hi)
    (hnodup : (is ++ i :: k :: js).Nodup) (hstart : start' i = start i)
    (hsize : size' i = size i + size k)
    (hsame : ∀ j, j ≠ i → j ≠ k → start' j = start j ∧ size' j = size j) :
    Tiles start' size' lo (is ++ i :: js) hi := by
  obtain ⟨mid, hleft, hmid, hpos, -, -, hright⟩ := tiles_append.mp h
  obtain ⟨-, htailNodup, hdisj⟩ := List.nodup_append.mp hnodup
  simp only [List.nodup_cons, List.mem_cons, not_or] at htailNodup
  obtain ⟨⟨-, hijs⟩, hkjs, -⟩ := htailNodup
  have hleft' : ∀ j ∈ is, start' j = start j ∧ size' j = size j := fun j hj =>
    hsame j (fun he => hdisj j hj i (by simp) he) fun he => hdisj j hj k (by simp) he
  have hright' : ∀ j ∈ js, start' j = start j ∧ size' j = size j := fun j hj =>
    hsame j (fun he => hijs (he ▸ hj)) fun he => hkjs (he ▸ hj)
  refine tiles_append.mpr ⟨mid, hleft.congr (fun j hj => (hleft' j hj).1)
    fun j hj => (hleft' j hj).2, hstart.trans hmid, by omega, ?_⟩
  rw [hsize, ← Nat.add_assoc]
  exact hright.congr (fun j hj => (hright' j hj).1) fun j hj => (hright' j hj).2

end Thvm.IntervalTiling
