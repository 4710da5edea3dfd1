import Thvm.TlsfAllocator
import Mathlib.Tactic.Common
import Mathlib.Algebra.Order.Ring.Nat
import Mathlib.Algebra.Order.Group.Nat
import Mathlib.Tactic.Ring

/-!
# The two levels of size classes

The first level is the bit length of a size, the second cuts each power of two in
sixteen equal parts. Classes grow with sizes, and a size that is rounded up to the
next class is the smallest one of its class.
-/

namespace Thvm.Tlsf
open FixedWidth

theorem bitLength_zero : tlsfBitLength 0 = 0 := by
  rw [tlsfBitLength]
  rfl

theorem lt_bitLength (m v : ℕ) : m < tlsfBitLength v ↔ 2 ^ m ≤ v := by
  induction v using Nat.strong_induction_on generalizing m with
  | h v ih =>
    rw [tlsfBitLength]
    by_cases hv : v = 0
    · subst hv
      simp
    · rw [if_neg hv]
      cases m with
      | zero => simp; omega
      | succ m =>
        rw [Nat.add_lt_add_iff_right, ih (v / 2) (by omega), Nat.pow_succ]
        omega

theorem bitLength_le (m v : ℕ) : tlsfBitLength v ≤ m ↔ v < 2 ^ m := by
  rw [← not_lt, lt_bitLength, not_le]

theorem bitLength_mono {v w : ℕ} (h : v ≤ w) : tlsfBitLength v ≤ tlsfBitLength w :=
  (bitLength_le _ _).mpr (h.trans_lt ((bitLength_le _ _).mp le_rfl))

/-- A positive size lies between the powers of two that its bit length names. -/
theorem bitLength_bounds {v : ℕ} (h : 0 < v) :
    0 < tlsfBitLength v ∧ 2 ^ (tlsfBitLength v - 1) ≤ v ∧ v < 2 ^ tlsfBitLength v := by
  have hpos : 0 < tlsfBitLength v := (lt_bitLength 0 v).mpr h
  exact ⟨hpos, (lt_bitLength _ v).mp (by omega), (bitLength_le _ v).mp le_rfl⟩

theorem lv2_of_pos {v : ℕ} (h : 0 < v) :
    tlsfLv2 v = (v - 2 ^ (tlsfBitLength v - 1)) / 2 ^ lv2Shift (tlsfBitLength v) :=
  if_neg (bitLength_bounds h).1.ne'

theorem lv2_lt (v : ℕ) : tlsfLv2 v < tlsfLv2Cnt := by
  rcases Nat.eq_zero_or_pos v with rfl | h
  · rw [tlsfLv2, if_pos bitLength_zero]
    decide
  · obtain ⟨hpos, hlow, hhigh⟩ := bitLength_bounds h
    rw [lv2_of_pos h, Nat.div_lt_iff_lt_mul (Nat.two_pow_pos _)]
    have hwidth : 2 ^ (tlsfBitLength v - 1) ≤ tlsfLv2Cnt * 2 ^ lv2Shift (tlsfBitLength v) := by
      have hcnt : tlsfLv2Cnt = 2 ^ 5 := rfl
      rw [hcnt, ← pow_add]
      apply Nat.pow_le_pow_right (by decide)
      unfold lv2Shift tlsfL2Bits
      split <;> omega
    have hdouble : 2 ^ tlsfBitLength v = 2 * 2 ^ (tlsfBitLength v - 1) := by
      rw [← pow_succ', Nat.sub_add_cancel hpos]
    omega

/-- The order in which the search goes through the bins. -/
def ClassLe (v w : ℕ) : Prop :=
  tlsfLv1 v < tlsfLv1 w ∨ tlsfLv1 v = tlsfLv1 w ∧ tlsfLv2 v ≤ tlsfLv2 w

theorem classLe_of_le {v w : ℕ} (h : v ≤ w) : ClassLe v w := by
  rcases (bitLength_mono h).lt_or_eq with hlt | heq
  · exact .inl hlt
  · refine .inr ⟨heq, ?_⟩
    unfold tlsfLv2
    rw [heq]
    split
    · exact le_rfl
    · exact Nat.div_le_div_right (Nat.sub_le_sub_right h _)

/-- Every size in the class of `v` or a later one is at least `v`, if `v` is the
smallest size of its class. -/
theorem le_of_classLe {v w : ℕ} (hv : 0 < v) (hdvd : 2 ^ lv2Shift (tlsfBitLength v) ∣ v)
    (h : ClassLe v w) : v ≤ w := by
  obtain ⟨hpos, hlow, hhigh⟩ := bitLength_bounds hv
  rcases h with hlt | ⟨heq, hle⟩
  · exact hhigh.le.trans ((lt_bitLength _ w).mp hlt)
  · have hw : 0 < w := by
      refine Nat.pos_of_ne_zero fun hzero => ?_
      rw [hzero] at heq
      exact hpos.ne' (heq.trans bitLength_zero)
    have heq' : tlsfBitLength v = tlsfBitLength w := heq
    obtain ⟨-, hlow', -⟩ := bitLength_bounds hw
    rw [lv2_of_pos hv, lv2_of_pos hw, ← heq'] at hle
    rw [← heq'] at hlow'
    have hdvd' : 2 ^ lv2Shift (tlsfBitLength v) ∣ v - 2 ^ (tlsfBitLength v - 1) := by
      refine Nat.dvd_sub hdvd (pow_dvd_pow 2 ?_)
      unfold lv2Shift tlsfL2Bits
      split <;> omega
    have hmul := Nat.mul_le_of_le_div _ _ _ hle
    rw [Nat.div_mul_cancel hdvd'] at hmul
    omega

theorem roundUp_spec {v align : ℕ} (ha : 0 < align) (hfit : v + align ≤ 2 ^ 64) :
    v ≤ tlsfRoundUp v align ∧ align ∣ tlsfRoundUp v align ∧
      ∀ m, align ∣ m → v ≤ m → tlsfRoundUp v align ≤ m := by
  have hmod : (v + align - 1) % 2 ^ 64 = v + align - 1 := Nat.mod_eq_of_lt (by omega)
  rw [tlsfRoundUp, if_neg ha.ne', hmod]
  have hdiv := Nat.div_add_mod (v + align - 1) align
  have hlt := Nat.mod_lt (v + align - 1) ha
  have hcomm : (v + align - 1) / align * align = align * ((v + align - 1) / align) := Nat.mul_comm _ _
  refine ⟨by omega, Nat.dvd_mul_left _ _, ?_⟩
  rintro m ⟨q, rfl⟩ hle
  rw [hcomm]
  apply Nat.mul_le_mul_left
  have hlt' : v + align - 1 < align * (q + 1) := by
    rw [Nat.mul_add]
    omega
  exact Nat.le_of_lt_succ ((Nat.div_lt_iff_lt_mul ha).mpr (by rwa [Nat.mul_comm]))

/-- A request that can be rounded without wrapping around. -/
def Fits (reqSize : ℕ) : Prop := reqSize ≤ 2 ^ 64 - 2 ^ 59

theorem atLeastBlock_spec (reqSize : ℕ) :
    reqSize ≤ atLeastBlock reqSize ∧ 0 < atLeastBlock reqSize ∧
      (Fits reqSize → Fits (atLeastBlock reqSize)) := by
  unfold atLeastBlock tlsfBlockSize Fits
  split <;> omega

/-- The rounded request is not below the request and the smallest size of its class. -/
theorem rounded_spec {reqSize : ℕ} (hfit : Fits reqSize) :
    atLeastBlock reqSize ≤ rounded reqSize ∧
      2 ^ lv2Shift (tlsfBitLength (rounded reqSize)) ∣ rounded reqSize := by
  obtain ⟨-, hpos, hfit'⟩ := atLeastBlock_spec reqSize
  generalize hv : atLeastBlock reqSize = v at hpos hfit'
  have hv64 : Fits v := hfit' hfit
  unfold Fits at hv64
  obtain ⟨hbl, -, hhigh⟩ := bitLength_bounds hpos
  have hbl64 : tlsfBitLength v ≤ 64 := (bitLength_le _ _).mpr (by omega)
  have hshift : lv2Shift (tlsfBitLength v) ≤ 59 := by
    unfold lv2Shift tlsfL2Bits
    split <;> omega
  have halign : 2 ^ lv2Shift (tlsfBitLength v) ≤ 2 ^ 59 := Nat.pow_le_pow_right (by decide) hshift
  obtain ⟨hle, hdvd, hleast⟩ := roundUp_spec (Nat.two_pow_pos (lv2Shift (tlsfBitLength v)))
    (v := v) (by omega)
  have hr : rounded reqSize = tlsfRoundUp v (2 ^ lv2Shift (tlsfBitLength v)) := by
    rw [rounded, hv]
  rw [hr]
  refine ⟨hle, ?_⟩
  have hshift_le : lv2Shift (tlsfBitLength v) ≤ tlsfBitLength v := by
    unfold lv2Shift tlsfL2Bits
    split <;> omega
  -- rounding reaches the next power of two at most
  have htop := hleast _ (pow_dvd_pow 2 hshift_le) hhigh.le
  rcases htop.lt_or_eq with hlt | heq
  · have hsame : tlsfBitLength (tlsfRoundUp v (2 ^ lv2Shift (tlsfBitLength v))) =
        tlsfBitLength v :=
      le_antisymm ((bitLength_le _ _).mpr hlt) (bitLength_mono hle)
    rw [hsame]
    exact hdvd
  · rw [heq]
    have hnext : tlsfBitLength (2 ^ tlsfBitLength v) = tlsfBitLength v + 1 := by
      refine le_antisymm ((bitLength_le _ _).mpr (Nat.pow_lt_pow_right (by decide) (by omega))) ?_
      exact (lt_bitLength _ _).mpr le_rfl
    rw [hnext]
    refine pow_dvd_pow 2 ?_
    unfold lv2Shift tlsfL2Bits
    split <;> omega

end Thvm.Tlsf
