import Mathlib.Data.Multiset.OrderedMonoid
import Mathlib.Data.Multiset.Count
import Mathlib.Order.WellFoundedSet
import Mathlib.Order.RelClasses
import Mathlib.Tactic.Common

/-!
# The multiset extension of a relation

One multiset is above another when some of its elements are exchanged for elements
below them. The relation need not be an order: what it must satisfy is asked of the
elements that occur.
-/

namespace Thvm.MultisetOrder

variable {α β : Type} {r : α → α → Prop} {M N P X Y Z : Multiset α}

def Above (r : α → α → Prop) (M N : Multiset α) : Prop :=
  ∃ Z X Y, X ≠ 0 ∧ M = Z + X ∧ N = Z + Y ∧ ∀ y ∈ Y, ∃ x ∈ X, r x y

theorem Above.map {r' : β → β → Prop} {f : α → β} (h : Above r M N)
    (hf : ∀ a ∈ M, ∀ b ∈ N, r a b → r' (f a) (f b)) : Above r' (M.map f) (N.map f) := by
  obtain ⟨Z, X, Y, hX, rfl, rfl, hY⟩ := h
  refine ⟨Z.map f, X.map f, Y.map f, by simpa using hX, by simp, by simp, fun y' hy' => ?_⟩
  obtain ⟨y, hy, rfl⟩ := Multiset.mem_map.mp hy'
  obtain ⟨x, hx, hxy⟩ := hY y hy
  exact ⟨f x, Multiset.mem_map_of_mem f hx,
    hf x (Multiset.mem_add.mpr (.inr hx)) y (Multiset.mem_add.mpr (.inr hy)) hxy⟩

theorem Above.trans (hM : Above r M N) (hN : Above r N P)
    (h : ∀ a ∈ M, ∀ b ∈ N, ∀ c ∈ P, r a b → r b c → r a c) : Above r M P := by
  classical
  obtain ⟨Z, X, Y, hX, rfl, rfl, hY⟩ := hM
  obtain ⟨Z', X', Y', -, hZ, rfl, hY'⟩ := hN
  have hswap : Y + Z = X' + Z' := by rw [add_comm Y, add_comm X', hZ]
  have hleft : Z + X = Z ∩ Z' + (X + (X' - Y)) := by
    conv_lhs => rw [← Multiset.inter_add_sub_of_add_eq_add hswap]
    rw [add_assoc, add_comm X]
  have hright : Z' + Y' = Z ∩ Z' + (Y' + (Y - X')) := by
    conv_lhs => rw [← Multiset.inter_add_sub_of_add_eq_add hswap.symm]
    rw [add_assoc, add_comm Y', Multiset.inter_comm]
  refine ⟨Z ∩ Z', X + (X' - Y), Y' + (Y - X'), ?_, hleft, hright, fun y hy => ?_⟩
  · intro h0
    exact hX (add_eq_zero.mp h0).1
  · have hmem : ∀ {x : α}, x ∈ X' → x ∉ Y → x ∈ X' - Y := by
      intro x hx hxY
      rw [Multiset.mem_sub, Multiset.count_eq_zero_of_notMem hxY]
      exact Multiset.count_pos.mpr hx
    rcases Multiset.mem_add.mp hy with hy | hy
    · obtain ⟨x', hx', hxy⟩ := hY' y hy
      by_cases hxY : x' ∈ Y
      · obtain ⟨x, hx, hxx⟩ := hY x' hxY
        exact ⟨x, Multiset.mem_add.mpr (.inl hx), h x (Multiset.mem_add.mpr (.inr hx)) x'
          (Multiset.mem_add.mpr (.inr hxY)) y (Multiset.mem_add.mpr (.inr hy)) hxx hxy⟩
      · exact ⟨x', Multiset.mem_add.mpr (.inr (hmem hx' hxY)), hxy⟩
    · obtain ⟨x, hx, hxy⟩ := hY y (Multiset.mem_of_le (Multiset.sub_le_self Y X') hy)
      exact ⟨x, Multiset.mem_add.mpr (.inl hx), hxy⟩

/-- Where everything has something above it, a finite set has a loop. -/
theorem exists_loop [IsTrans α r] (hX : X ≠ 0) (h : ∀ y ∈ X, ∃ x ∈ X, r x y) :
    ∃ x ∈ X, r x x := by
  by_contra hloop
  let above : {x // x ∈ X} → {x // x ∈ X} → Prop := fun a b => r a b
  have : IsTrans {x // x ∈ X} above := ⟨fun a b c hab hbc => IsTrans.trans (r := r) _ _ _ hab hbc⟩
  have : Std.Irrefl above := ⟨fun a ha => hloop ⟨a, a.2, ha⟩⟩
  have : Finite {x // x ∈ X} := (Multiset.finite_toSet X).to_subtype
  obtain ⟨a, ha⟩ := Multiset.exists_mem_of_ne_zero hX
  obtain ⟨m, -, hm⟩ :=
    (Finite.wellFounded_of_trans_of_irrefl above).has_min Set.univ ⟨⟨a, ha⟩, trivial⟩
  obtain ⟨x, hx, hxm⟩ := h m m.2
  exact hm ⟨x, hx⟩ trivial hxm

theorem Above.exists_loop [IsTrans α r] (h : Above r M M) : ∃ x ∈ M, r x x := by
  obtain ⟨Z, X, Y, hX, hM, hM', hY⟩ := h
  obtain rfl : X = Y := Multiset.add_right_inj.mp (hM.symm.trans hM')
  obtain ⟨x, hx, hxx⟩ := MultisetOrder.exists_loop hX hY
  exact ⟨x, hM ▸ Multiset.mem_add.mpr (.inr hx), hxx⟩

/-- In a strict order, what has something of `X` above it has something of `X` above it
that nothing of `X` is above. -/
theorem exists_top [IsTrans α r] [Std.Irrefl r] {y : α} (h : ∃ x ∈ X, r x y) :
    ∃ x ∈ X, r x y ∧ ∀ x' ∈ X, ¬ r x' x := by
  classical
  by_contra htop
  push Not at htop
  let W := X.filter fun x => r x y
  have hW : W ≠ 0 := by
    obtain ⟨x, hx, hxy⟩ := h
    exact fun h0 => absurd (Multiset.mem_filter.mpr ⟨hx, hxy⟩) (h0 ▸ Multiset.notMem_zero x)
  obtain ⟨x, -, hxx⟩ := MultisetOrder.exists_loop hW fun x hx => by
    obtain ⟨hxX, hxy⟩ := Multiset.mem_filter.mp hx
    obtain ⟨x', hx', hxx'⟩ := htop x hxX hxy
    exact ⟨x', Multiset.mem_filter.mpr ⟨hx', IsTrans.trans _ _ _ hxx' hxy⟩, hxx'⟩
  exact Std.Irrefl.irrefl x hxx

/-- With nothing left to cancel, the exchange is between what remains. -/
theorem above_iff [IsTrans α r] [Std.Irrefl r] (hdisj : ∀ x ∈ X, x ∉ Y) :
    Above r (Z + X) (Z + Y) ↔ X ≠ 0 ∧ ∀ y ∈ Y, ∃ x ∈ X, r x y := by
  classical
  constructor
  · rintro ⟨Z', X', Y', hX', hM, hN, hY'⟩
    have hcount : ∀ a, X.count a = 0 ∨ Y.count a = 0 := by
      intro a
      by_cases ha : a ∈ X
      · exact .inr (Multiset.count_eq_zero_of_notMem (hdisj a ha))
      · exact .inl (Multiset.count_eq_zero_of_notMem ha)
    have hcountM : ∀ a, Z.count a + X.count a = Z'.count a + X'.count a := by
      intro a
      rw [← Multiset.count_add, ← Multiset.count_add, hM]
    have hcountN : ∀ a, Z.count a + Y.count a = Z'.count a + Y'.count a := by
      intro a
      rw [← Multiset.count_add, ← Multiset.count_add, hN]
    have hleft : ∀ x ∈ X', x ∉ Y' → x ∈ X := by
      intro x hx hxY
      have := Multiset.count_pos.mpr hx
      have := Multiset.count_eq_zero_of_notMem hxY
      have := hcountM x
      have := hcountN x
      apply Multiset.count_pos.mp
      omega
    have hright : ∀ y ∈ Y, y ∈ Y' := by
      intro y hy
      have := Multiset.count_pos.mpr hy
      have := hcount y
      have := hcountM y
      have := hcountN y
      apply Multiset.count_pos.mp
      omega
    constructor
    · rintro rfl
      obtain ⟨x, -, hxx⟩ := MultisetOrder.exists_loop hX' fun x hx =>
        hY' x (by_contra fun hxY => Multiset.notMem_zero x (hleft x hx hxY))
      exact Std.Irrefl.irrefl x hxx
    · intro y hy
      obtain ⟨x, hx, hxy, htop⟩ := exists_top (hY' y (hright y hy))
      refine ⟨x, hleft x hx fun hxY => ?_, hxy⟩
      obtain ⟨x', hx', hxx'⟩ := hY' x hxY
      exact htop x' hx' hxx'
  · rintro ⟨hX, hY⟩
    exact ⟨Z, X, Y, hX, rfl, rfl, hY⟩

end Thvm.MultisetOrder
