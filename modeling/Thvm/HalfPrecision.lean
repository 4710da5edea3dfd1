import Mathlib.Tactic.LinearCombination
import Mathlib.Tactic.NormNum
import Thvm.NearestEven

/-!
# Narrowing to half precision

The portable path of `dtype/fp_convert.c`, by bit manipulation on the single
precision word, and when it rounds correctly.
-/

namespace Thvm.FpConvert

open Rounding

/-- Keep the upper bits `r` of a significand, rounding on its thirteen low bits `round`. -/
def roundUp (round r : BitVec 32) : Bool :=
  0x1000 < round || (round == 0x1000 && r &&& 1 != 0)

def f32ToFp16 (v : BitVec 32) : BitVec 16 :=
  let sign := v >>> 31 &&& 1
  let exp := v >>> 23 &&& 0xFF
  let mant := v &&& 0x7FFFFF
  if exp = 0xFF then
    (sign <<< 15 ||| (0x1F : BitVec 32) <<< 10 ||| if mant ≠ 0 then 0x200 else 0).setWidth 16
  else if exp ≤ 127 - 15 then
    if exp < 127 - 24 then (sign <<< 15).setWidth 16
    else
      let m := (mant ||| 0x800000) >>> (127 - 14 - exp)
      let round := m &&& 0x1FFF
      let r := m >>> 13
      let r := if roundUp round r then r + 1 else r
      (sign <<< 15 ||| r).setWidth 16
  else if 127 + 16 ≤ exp then (sign <<< 15 ||| (0x1F : BitVec 32) <<< 10).setWidth 16
  else
    let fp16Exp := exp - 127 + 15
    let round := mant &&& 0x1FFF
    let m := mant >>> 13
    let carry := roundUp round m && (m + 1) &&& 0x400 != 0
    let m := if roundUp round m then (if carry then 0 else m + 1) else m
    let fp16Exp := if carry then fp16Exp + 1 else fp16Exp
    if 0x1F ≤ fp16Exp then (sign <<< 15 ||| (0x1F : BitVec 32) <<< 10).setWidth 16
    else (sign <<< 15 ||| fp16Exp <<< 10 ||| m).setWidth 16

def single : BinaryFormat := ⟨8, 23⟩

def half : BinaryFormat := ⟨5, 10⟩

example : half.overflow = 65520 := by
  norm_num [half, BinaryFormat.overflow, BinaryFormat.grid, BinaryFormat.magnitude,
    BinaryFormat.infinity, BinaryFormat.tiny, BinaryFormat.bias]

/-! ### The fields of the words -/

def signField (v : BitVec 32) : ℕ := v.toNat / 2 ^ 31

def expField (v : BitVec 32) : ℕ := v.toNat / 2 ^ 23 % 2 ^ 8

def mantField (v : BitVec 32) : ℕ := v.toNat % 2 ^ 23

/-- The rounding decision on natural numbers. -/
def RoundsUp (round r : ℕ) : Prop := 2 ^ 12 < round ∨ round = 2 ^ 12 ∧ ¬ Even r

instance (round r : ℕ) : Decidable (RoundsUp round r) := by
  unfold RoundsUp
  infer_instance

/-- The fifteen low bits of the result. -/
def halfMagnitude (e t : ℕ) : ℕ :=
  if e = 255 then 31 * 2 ^ 10 + if t ≠ 0 then 2 ^ 9 else 0
  else if e < 103 then 0
  else if e ≤ 112 then
    let m := (2 ^ 23 + t) / 2 ^ (113 - e)
    m / 2 ^ 13 + if RoundsUp (m % 2 ^ 13) (m / 2 ^ 13) then 1 else 0
  else if 143 ≤ e then 31 * 2 ^ 10
  else
    (e - 112) * 2 ^ 10 + t / 2 ^ 13 + if RoundsUp (t % 2 ^ 13) (t / 2 ^ 13) then 1 else 0

theorem toNat_sign (v : BitVec 32) : (v >>> 31 &&& 1).toNat = signField v := by
  have := v.isLt
  simp [signField, Nat.shiftRight_eq_div_pow]
  omega

theorem toNat_exp (v : BitVec 32) : (v >>> 23 &&& 0xFF).toNat = expField v := by
  simp [expField, Nat.shiftRight_eq_div_pow, Nat.and_two_pow_sub_one_eq_mod _ 8]

theorem toNat_mant (v : BitVec 32) : (v &&& 0x7FFFFF).toNat = mantField v := by
  simp [mantField, Nat.and_two_pow_sub_one_eq_mod _ 23]

theorem signField_lt (v : BitVec 32) : signField v < 2 := by
  have := v.isLt
  unfold signField
  omega

theorem expField_lt (v : BitVec 32) : expField v < 256 := Nat.mod_lt _ (by norm_num)

theorem mantField_lt (v : BitVec 32) : mantField v < 2 ^ 23 := Nat.mod_lt _ (by norm_num)

theorem toNat_or_sign {s r : BitVec 32} (hs : s.toNat < 2) (hr : r.toNat < 2 ^ 15) :
    ((s <<< 15 ||| r).setWidth 16).toNat = s.toNat * 2 ^ 15 + r.toNat := by
  have hshift : (s <<< 15).toNat = 2 ^ 15 * s.toNat := by
    rw [BitVec.toNat_shiftLeft, Nat.shiftLeft_eq, Nat.mul_comm]
    exact Nat.mod_eq_of_lt (by omega)
  rw [BitVec.toNat_setWidth, BitVec.toNat_or, hshift, ← Nat.two_pow_add_eq_or_of_lt hr]
  omega

theorem toNat_or_exp {e m : BitVec 32} (he : e.toNat < 32) (hm : m.toNat < 2 ^ 10) :
    (e <<< 10 ||| m).toNat = e.toNat * 2 ^ 10 + m.toNat := by
  have hshift : (e <<< 10).toNat = 2 ^ 10 * e.toNat := by
    rw [BitVec.toNat_shiftLeft, Nat.shiftLeft_eq, Nat.mul_comm]
    exact Nat.mod_eq_of_lt (by omega)
  rw [BitVec.toNat_or, hshift, ← Nat.two_pow_add_eq_or_of_lt hm]
  omega

/-- The three fields occupy different bits. -/
theorem toNat_fields {s e m : BitVec 32} (hs : s.toNat < 2) (he : e.toNat < 32)
    (hm : m.toNat < 2 ^ 10) :
    ((s <<< 15 ||| e <<< 10 ||| m).setWidth 16).toNat =
      s.toNat * 2 ^ 15 + (e.toNat * 2 ^ 10 + m.toNat) := by
  have hem := toNat_or_exp he hm
  rw [BitVec.or_assoc, toNat_or_sign hs (by omega), hem]

theorem roundUp_iff (round r : BitVec 32) :
    roundUp round r = true ↔ RoundsUp round.toNat r.toNat := by
  have h1 : (r &&& 1 != 0) = true ↔ ¬ Even r.toNat := by
    rw [bne_iff_ne, ne_eq, ← BitVec.toNat_inj, Nat.even_iff]
    simp
  simp only [roundUp, RoundsUp, Bool.or_eq_true, Bool.and_eq_true, h1, decide_eq_true_eq,
    beq_iff_eq, BitVec.lt_def, ← BitVec.toNat_inj]
  rfl

theorem toNat_low_bits (m : BitVec 32) : (m &&& 0x1FFF).toNat = m.toNat % 2 ^ 13 := by
  simp [Nat.and_two_pow_sub_one_eq_mod _ 13]

theorem toNat_high_bits (m : BitVec 32) : (m >>> 13).toNat = m.toNat / 2 ^ 13 := by
  simp [Nat.shiftRight_eq_div_pow]

/-- The significand, shifted for a subnormal result. -/
theorem toNat_shifted {t e : BitVec 32} (ht : t.toNat < 2 ^ 23) (he : e.toNat ≤ 112) :
    ((t ||| 0x800000) >>> (127 - 14 - e)).toNat = (2 ^ 23 + t.toNat) / 2 ^ (113 - e.toNat) := by
  have hor : (t ||| 0x800000).toNat = 2 ^ 23 + t.toNat := by
    have h := Nat.two_pow_add_eq_or_of_lt ht 1
    rw [BitVec.or_comm, BitVec.toNat_or]
    exact h.symm
  have hsub : (127 - 14 - e).toNat = 113 - e.toNat := by
    rw [BitVec.toNat_sub_of_le]
    · rfl
    · exact BitVec.le_def.2 (show e.toNat ≤ 113 by omega)
  rw [BitVec.ushiftRight_eq', hsub, BitVec.toNat_ushiftRight, hor, Nat.shiftRight_eq_div_pow]

theorem toNat_add_one {m : BitVec 32} (hm : m.toNat < 2 ^ 23) : (m + 1).toNat = m.toNat + 1 := by
  bv_omega

/-- Incrementing a ten bit fraction carries only from the last one. -/
theorem carry_iff {m : BitVec 32} (hm : m.toNat < 2 ^ 10) :
    (m + 1 &&& 0x400 != 0) = true ↔ m.toNat = 1023 := by
  have hadd := toNat_add_one (show m.toNat < 2 ^ 23 by omega)
  rw [bne_iff_ne, ne_eq, ← BitVec.toNat_inj, BitVec.toNat_and, hadd]
  constructor
  · intro h
    by_contra hne
    refine h (Nat.eq_of_testBit_eq fun i ↦ ?_)
    have hbit : (m.toNat + 1).testBit 10 = false := Nat.testBit_lt_two_pow (by omega)
    rw [Nat.testBit_and, show (0x400 : BitVec 32).toNat = 2 ^ 10 from rfl, Nat.testBit_two_pow]
    by_cases hi : 10 = i
    · subst hi
      simp [hbit]
    · simp [hi]
  · intro h
    rw [h]
    decide

/-- The sign goes to the top bit, the rest is `halfMagnitude`. -/
theorem toNat_f32ToFp16 (v : BitVec 32) :
    (f32ToFp16 v).toNat = signField v * 2 ^ 15 + halfMagnitude (expField v) (mantField v) := by
  have hs := toNat_sign v
  have he := toNat_exp v
  have ht := toNat_mant v
  have hs' := signField_lt v
  have he' := expField_lt v
  have ht' := mantField_lt v
  unfold f32ToFp16
  generalize v >>> 31 &&& 1 = s at *
  generalize v >>> 23 &&& 0xFF = e at *
  generalize v &&& 0x7FFFFF = t at *
  generalize signField v = s' at *
  generalize expField v = e' at *
  generalize mantField v = t' at *
  subst hs he ht
  have c1 : e = 0xFF ↔ e.toNat = 255 := by rw [← BitVec.toNat_inj]; rfl
  have c2 : e ≤ 127 - 15 ↔ e.toNat ≤ 112 := Iff.rfl
  have c3 : e < 127 - 24 ↔ e.toNat < 103 := Iff.rfl
  have c4 : 127 + 16 ≤ e ↔ 143 ≤ e.toNat := Iff.rfl
  have inf : ((s <<< 15 ||| (0x1F : BitVec 32) <<< 10).setWidth 16).toNat =
      s.toNat * 2 ^ 15 + 31 * 2 ^ 10 :=
    toNat_or_sign hs' (show ((0x1F : BitVec 32) <<< 10).toNat < 2 ^ 15 by decide)
  unfold halfMagnitude
  simp only [c1, c2, c3, c4]
  by_cases h255 : e.toNat = 255
  · rw [if_pos h255, if_pos h255, BitVec.or_assoc]
    by_cases h0 : t = 0
    · simpa [h0] using toNat_or_sign (r := (0x1F : BitVec 32) <<< 10) hs' (by decide)
    · have h0' : t.toNat ≠ 0 := fun h ↦ h0 (BitVec.eq_of_toNat_eq h)
      rw [if_pos h0, if_pos h0']
      exact toNat_or_sign (r := (0x1F : BitVec 32) <<< 10 ||| 0x200) hs' (by decide)
  rw [if_neg h255, if_neg h255]
  by_cases hsub : e.toNat ≤ 112
  · rw [if_pos hsub]
    by_cases hunder : e.toNat < 103
    · rw [if_pos hunder, if_pos hunder]
      simpa using toNat_or_sign (r := 0) hs' (by simp)
    · rw [if_neg hunder, if_neg hunder, if_pos hsub]
      have hm := toNat_shifted ht' hsub
      generalize (t ||| 0x800000) >>> (127 - 14 - e) = m at *
      have hle : m.toNat < 2 ^ 23 := by
        rw [hm, Nat.div_lt_iff_lt_mul (Nat.two_pow_pos _)]
        calc 2 ^ 23 + t.toNat < 2 ^ 23 * 2 ^ 1 := by omega
          _ ≤ 2 ^ 23 * 2 ^ (113 - e.toNat) :=
            Nat.mul_le_mul_left _ (Nat.pow_le_pow_right (by omega) (by omega))
      have hup := roundUp_iff (m &&& 0x1FFF) (m >>> 13)
      have hhigh := toNat_high_bits m
      rw [toNat_low_bits, hhigh, hm] at hup
      rw [hm] at hhigh hle
      by_cases h : roundUp (m &&& 0x1FFF) (m >>> 13) = true
      · rw [if_pos h, if_pos (hup.1 h), ← hhigh]
        have hadd := toNat_add_one (m := m >>> 13) (by omega)
        rw [toNat_or_sign hs' (by omega), hadd]
      · rw [if_neg h, if_neg (fun h' ↦ h (hup.2 h')), ← hhigh]
        exact toNat_or_sign hs' (by omega)
  rw [if_neg hsub, if_neg (show ¬ e.toNat < 103 by omega), if_neg hsub]
  by_cases hover : 143 ≤ e.toNat
  · rw [if_pos hover, if_pos hover, inf]
  rw [if_neg hover, if_neg hover]
  have hexp : (e - 127 + 15).toNat = e.toNat - 112 := by bv_omega
  have hup := roundUp_iff (t &&& 0x1FFF) (t >>> 13)
  have hhigh := toNat_high_bits t
  rw [toNat_low_bits, hhigh] at hup
  generalize e - 127 + 15 = f at *
  generalize t >>> 13 = m at *
  have hm : m.toNat < 2 ^ 10 := by omega
  have hadd := toNat_add_one (show m.toNat < 2 ^ 23 by omega)
  have hcarry := carry_iff hm
  rw [← hhigh, ← hexp]
  rw [← hhigh] at hup
  have hf : f.toNat < 31 := by omega
  have hf' := toNat_add_one (show f.toNat < 2 ^ 23 by omega)
  have c5 (x : BitVec 32) : 0x1F ≤ x ↔ 31 ≤ x.toNat := Iff.rfl
  simp only [Bool.and_eq_true, hup, hcarry, c5]
  by_cases h : RoundsUp (t.toNat % 2 ^ 13) m.toNat
  · simp only [h, if_true, true_and]
    by_cases hc : m.toNat = 1023
    · simp only [hc, if_true, hf']
      by_cases h31 : 31 ≤ f.toNat + 1
      · rw [if_pos h31, inf]
        omega
      · have h0 : (0 : BitVec 32).toNat = 0 := rfl
        rw [if_neg h31, toNat_fields hs' (by omega) (by omega), hf', h0]
        omega
    · simp only [hc, if_false, if_neg (show ¬ 31 ≤ f.toNat by omega)]
      rw [toNat_fields hs' (by omega) (by omega), hadd]
      omega
  · simp only [h, if_false, false_and, if_neg (show ¬ 31 ≤ f.toNat by omega)]
    rw [toNat_fields hs' (by omega) hm, Nat.add_zero]

/-! ### Which words are rounded correctly -/

/-- The significand shift drops bits that alone say the word lies above a midpoint:
below the smallest subnormal, or between two subnormals with the lower one even. -/
def LosesSticky (e t : ℕ) : Prop :=
  e = 102 ∧ t ≠ 0 ∨
    (103 ≤ e ∧ e ≤ 112) ∧ (2 ^ 23 + t) / 2 ^ (113 - e) % 2 ^ 13 = 2 ^ 12 ∧
      Even ((2 ^ 23 + t) / 2 ^ (113 - e) / 2 ^ 13) ∧ (2 ^ 23 + t) % 2 ^ (113 - e) ≠ 0

instance (e t : ℕ) : Decidable (LosesSticky e t) := by
  unfold LosesSticky
  infer_instance

def singleMagnitude (e t : ℕ) : ℕ := if e = 0 then t else (2 ^ 23 + t) * 2 ^ (e - 1)

theorem magnitudeBits_eq (v : BitVec 32) :
    single.magnitudeBits v.toNat = expField v * 2 ^ 23 + mantField v := by
  simp only [single, BinaryFormat.magnitudeBits, expField, mantField]
  omega

theorem magnitude_single {e t : ℕ} (ht : t < 2 ^ 23) :
    single.magnitude (e * 2 ^ 23 + t) = singleMagnitude e t :=
  single.magnitude_fields ht

theorem half_tiny : half.tiny = 2 ^ 125 * single.tiny := by
  norm_num [half, single, BinaryFormat.tiny, BinaryFormat.bias]

/-- The two neighbours in the subnormal range, in steps of the single precision word. -/
theorem nearest_of_subnormal {e M : ℕ} (he : 1 ≤ e) (he' : e ≤ 112) (hM : M < 2 ^ 24) :
    Nearest half.grid (half.infinity + 1) ((M * 2 ^ (e - 1) : ℕ) * single.tiny)
      (if 2 ^ (125 - e) < M % 2 ^ (126 - e) ∨
          M % 2 ^ (126 - e) = 2 ^ (125 - e) ∧ ¬ Even (M / 2 ^ (126 - e))
        then M / 2 ^ (126 - e) + 1 else M / 2 ^ (126 - e)) := by
  have hq : M / 2 ^ (126 - e) < 2 ^ 10 := by
    rw [Nat.div_lt_iff_lt_mul (Nat.two_pow_pos _)]
    calc M < 2 ^ 10 * 2 ^ 14 := by omega
      _ ≤ 2 ^ 10 * 2 ^ (126 - e) :=
        Nat.mul_le_mul_left _ (Nat.pow_le_pow_right (by omega) (by omega))
  have hdm := Nat.div_add_mod M (2 ^ (126 - e))
  have hr := Nat.mod_lt M (Nat.two_pow_pos (126 - e))
  have hdouble : 2 * 2 ^ (125 - e) = 2 ^ (126 - e) := by
    rw [← pow_succ', show 125 - e + 1 = 126 - e by omega]
  have hscale : (2 : ℚ) ^ 125 = 2 ^ (126 - e) * 2 ^ (e - 1) := by
    rw [← pow_add, show 126 - e + (e - 1) = 125 by omega]
  generalize M / 2 ^ (126 - e) = q at *
  have hgrid (i : ℕ) (hi : i ≤ 2 ^ 10) :
      half.grid i = (2 ^ (126 - e) * i : ℕ) * (2 ^ (e - 1) * single.tiny) := by
    have hmag : half.magnitude i = i := by
      rcases hi.lt_or_eq with hi | rfl
      · exact if_pos hi
      · rfl
    rw [BinaryFormat.grid, hmag, half_tiny, hscale]
    push_cast
    ring
  refine nearest_of_step half.grid_strictMono
    (mul_pos (by positivity) single.tiny_pos) (hgrid q hq.le) ?_ ?_ (by omega) ?_
  · rw [hgrid (q + 1) hq, hdouble, Nat.mul_succ]
  · rw [hdm]
    push_cast
    ring
  · exact (show q + 1 < 31 * 2 ^ 10 + 1 by omega)

/-- The two neighbours in the normal range. -/
theorem nearest_of_normal {e t : ℕ} (he : 113 ≤ e) (he' : e ≤ 142) (ht : t < 2 ^ 23) :
    Nearest half.grid (half.infinity + 1) (((2 ^ 23 + t) * 2 ^ (e - 1) : ℕ) * single.tiny)
      ((e - 112) * 2 ^ 10 + t / 2 ^ 13 +
        if RoundsUp (t % 2 ^ 13) (t / 2 ^ 13) then 1 else 0) := by
  have hscale : (2 : ℚ) ^ (e - 113) * 2 ^ 125 = 2 ^ 13 * 2 ^ (e - 1) := by
    rw [← pow_add, ← pow_add, show e - 113 + 125 = 13 + (e - 1) by omega]
  have hm : t / 2 ^ 13 < 2 ^ 10 := by omega
  have hmag : half.magnitude ((e - 112) * 2 ^ 10 + t / 2 ^ 13) =
      (2 ^ 10 + t / 2 ^ 13) * 2 ^ (e - 113) := by
    refine (half.magnitude_fields hm).trans ?_
    rw [if_neg (by omega), show e - 112 - 1 = e - 113 by omega]
    rfl
  have hmag' := half.magnitude_succ ((e - 112) * 2 ^ 10 + t / 2 ^ 13)
  have hexp : ((e - 112) * 2 ^ 10 + t / 2 ^ 13) / 2 ^ half.fractionBits - 1 = e - 113 := by
    show ((e - 112) * 2 ^ 10 + t / 2 ^ 13) / 2 ^ 10 - 1 = e - 113
    omega
  have heven : Even ((e - 112) * 2 ^ 10 + t / 2 ^ 13) ↔ Even (t / 2 ^ 13) := by
    simp only [Nat.even_iff]
    omega
  have hN : (e - 112) * 2 ^ 10 + t / 2 ^ 13 + 1 < half.infinity + 1 := by
    show (e - 112) * 2 ^ 10 + t / 2 ^ 13 + 1 < 31 * 2 ^ 10 + 1
    omega
  rw [hmag, hexp] at hmag'
  have hgrid (i k : ℕ) (hi : half.magnitude i = k * 2 ^ (e - 113)) :
      half.grid i = (k * 2 ^ 13 : ℕ) * (2 ^ (e - 1) * single.tiny) := by
    rw [BinaryFormat.grid, hi, half_tiny]
    push_cast
    linear_combination (k : ℚ) * single.tiny * hscale
  have hnear := nearest_of_step (h := 2 ^ 12) (r := t % 2 ^ 13) half.grid_strictMono
    (mul_pos (by positivity) single.tiny_pos : (0 : ℚ) < 2 ^ (e - 1) * single.tiny)
    (hgrid _ _ hmag) ((hgrid _ (2 ^ 10 + t / 2 ^ 13 + 1) (by rw [hmag']; ring)).trans ?_)
    (x := ((2 ^ 23 + t) * 2 ^ (e - 1) : ℕ) * single.tiny) ?_ (by omega) hN
  · simp only [heven] at hnear
    by_cases h : RoundsUp (t % 2 ^ 13) (t / 2 ^ 13)
    · rw [if_pos h]
      rwa [if_pos (by exact h)] at hnear
    · simp only [if_neg h, add_zero]
      rwa [if_neg (by exact h)] at hnear
  · rw [show (2 ^ 10 + t / 2 ^ 13 + 1) * 2 ^ 13 =
      (2 ^ 10 + t / 2 ^ 13) * 2 ^ 13 + 2 * 2 ^ 12 by omega]
  · rw [show (2 ^ 10 + t / 2 ^ 13) * 2 ^ 13 + t % 2 ^ 13 = 2 ^ 23 + t by omega]
    push_cast
    ring

/-- From `2 ^ 16` on everything overflows. -/
theorem nearest_of_large {e t : ℕ} (he : 143 ≤ e) :
    Nearest half.grid (half.infinity + 1) (((2 ^ 23 + t) * 2 ^ (e - 1) : ℕ) * single.tiny)
      (31 * 2 ^ 10) := by
  have htop : half.grid (31 * 2 ^ 10) = 2 ^ 165 * single.tiny := by
    rw [BinaryFormat.grid, half_tiny, show half.magnitude (31 * 2 ^ 10) = 2 ^ 40 from rfl]
    norm_num
    ring
  have hle : half.grid (31 * 2 ^ 10) ≤ ((2 ^ 23 + t) * 2 ^ (e - 1) : ℕ) * single.tiny := by
    rw [htop]
    refine mul_le_mul_of_nonneg_right ?_ single.tiny_pos.le
    have h : 2 ^ 165 ≤ (2 ^ 23 + t) * 2 ^ (e - 1) :=
      calc 2 ^ 165 = 2 ^ 23 * 2 ^ 142 := by norm_num
        _ ≤ (2 ^ 23 + t) * 2 ^ (e - 1) :=
          Nat.mul_le_mul (by omega) (Nat.pow_le_pow_right (by omega) (by omega))
    exact_mod_cast h
  refine Nearest.of_neighbours half.grid_strictMono (Nat.lt_succ_self _) (fun k hk ↦ .inl ?_)
    (fun h ↦ absurd h (Nat.lt_irrefl _))
  have hlt : half.grid k < half.grid (31 * 2 ^ 10) := half.grid_strictMono (by omega)
  linarith

/-- A remainder of `13 + s` bits against its midpoint, by its upper and lower bits. -/
theorem midpoint_lt_iff {P r l : ℕ} (hl : l < P) :
    (P * 2 ^ 12 < l + P * r ↔ 2 ^ 12 < r ∨ r = 2 ^ 12 ∧ l ≠ 0) ∧
      (l + P * r = P * 2 ^ 12 ↔ r = 2 ^ 12 ∧ l = 0) := by
  rcases lt_trichotomy r (2 ^ 12) with h | rfl | h
  · have := Nat.mul_le_mul_left P (show r + 1 ≤ 2 ^ 12 from h)
    rw [Nat.mul_succ] at this
    omega
  · omega
  · have := Nat.mul_le_mul_left P (show 2 ^ 12 + 1 ≤ r from h)
    rw [Nat.mul_succ] at this
    omega

/-- In the subnormal range the lost bits are all that separates the computed magnitude
from the correct one. -/
theorem halfMagnitude_of_subnormal {e t : ℕ} (he : 1 ≤ e) (he' : e ≤ 112) (ht : t < 2 ^ 23) :
    (halfMagnitude e t + if LosesSticky e t then 1 else 0) =
      if 2 ^ (125 - e) < (2 ^ 23 + t) % 2 ^ (126 - e) ∨
          (2 ^ 23 + t) % 2 ^ (126 - e) = 2 ^ (125 - e) ∧
            ¬ Even ((2 ^ 23 + t) / 2 ^ (126 - e))
        then (2 ^ 23 + t) / 2 ^ (126 - e) + 1 else (2 ^ 23 + t) / 2 ^ (126 - e) := by
  unfold halfMagnitude
  rw [if_neg (show ¬ e = 255 by omega)]
  by_cases hunder : e < 103
  · have hlt : 2 ^ 23 + t < 2 ^ (126 - e) :=
      calc 2 ^ 23 + t < 2 ^ 24 := by omega
        _ ≤ 2 ^ (126 - e) := Nat.pow_le_pow_right (by omega) (by omega)
    rw [if_pos hunder, Nat.mod_eq_of_lt hlt, Nat.div_eq_of_lt hlt]
    by_cases h102 : e = 102
    · subst h102
      by_cases h0 : t = 0
      · simp [LosesSticky, h0]
      · simp [LosesSticky, h0, Nat.pos_of_ne_zero h0]
    · have hle : 2 ^ 23 + t < 2 ^ (125 - e) :=
        calc 2 ^ 23 + t < 2 ^ 24 := by omega
          _ ≤ 2 ^ (125 - e) := Nat.pow_le_pow_right (by omega) (by omega)
      rw [if_neg (show ¬ LosesSticky e t by unfold LosesSticky; omega), if_neg (by omega)]
  · rw [if_neg hunder, if_pos he']
    have hpow : 2 ^ (126 - e) = 2 ^ (113 - e) * 2 ^ 13 := by
      rw [← pow_add, show 113 - e + 13 = 126 - e by omega]
    have hpow' : 2 ^ (125 - e) = 2 ^ (113 - e) * 2 ^ 12 := by
      rw [← pow_add, show 113 - e + 12 = 125 - e by omega]
    have hlow := Nat.mod_lt (2 ^ 23 + t) (Nat.two_pow_pos (113 - e))
    have hlose : LosesSticky e t ↔ (2 ^ 23 + t) / 2 ^ (113 - e) % 2 ^ 13 = 2 ^ 12 ∧
        Even ((2 ^ 23 + t) / 2 ^ (113 - e) / 2 ^ 13) ∧ (2 ^ 23 + t) % 2 ^ (113 - e) ≠ 0 := by
      unfold LosesSticky
      constructor
      · rintro (h | h)
        · omega
        · exact h.2
      · exact fun h ↦ .inr ⟨by omega, h⟩
    rw [hpow, hpow', Nat.mod_mul, ← Nat.div_div_eq_div_mul]
    obtain ⟨hmid, hmid'⟩ :=
      midpoint_lt_iff (r := (2 ^ 23 + t) / 2 ^ (113 - e) % 2 ^ 13) hlow
    simp only [hmid, hmid', hlose, RoundsUp]
    generalize (2 ^ 23 + t) / 2 ^ (113 - e) % 2 ^ 13 = r
    generalize (2 ^ 23 + t) / 2 ^ (113 - e) / 2 ^ 13 = q
    generalize (2 ^ 23 + t) % 2 ^ (113 - e) = l
    by_cases hr : r = 2 ^ 12
    · subst hr
      by_cases hl : l = 0 <;> by_cases hev : Even q <;> simp [hl, hev]
    · simp only [hr, false_and, or_false, if_false, Nat.add_zero]
      split_ifs <;> rfl

/-- The correct magnitude: one more than the computed one where sticky bits are lost. -/
theorem nearest_halfMagnitude {e t : ℕ} (he : e < 255) (ht : t < 2 ^ 23) :
    Nearest half.grid (half.infinity + 1) (singleMagnitude e t * single.tiny)
      (halfMagnitude e t + if LosesSticky e t then 1 else 0) := by
  by_cases h0 : e = 0
  · subst h0
    have hlose : ¬ LosesSticky 0 t := by
      unfold LosesSticky
      omega
    rw [if_neg hlose, halfMagnitude, if_neg (by omega), if_pos (by omega), singleMagnitude,
      if_pos rfl]
    have hone : half.grid 1 = (0 + 2 * 2 ^ 124 : ℕ) * single.tiny := by
      rw [BinaryFormat.grid, half_tiny, show half.magnitude 1 = 1 from rfl]
      norm_num
    have hlt : t < 2 ^ 124 := ht.trans (by norm_num)
    have hnear := nearest_of_step (n := 0) (x := t * single.tiny) (r := t)
      half.grid_strictMono single.tiny_pos (by simp) hone (by simp) (by omega)
      (show 0 + 1 < half.infinity + 1 by decide)
    rwa [if_neg (by omega)] at hnear
  rw [singleMagnitude, if_neg h0]
  by_cases hsub : e ≤ 112
  · rw [halfMagnitude_of_subnormal (by omega) hsub ht]
    exact nearest_of_subnormal (by omega) hsub (by omega)
  have hlose : ¬ LosesSticky e t := by
    unfold LosesSticky
    omega
  simp only [if_neg hlose, add_zero, halfMagnitude, if_neg (show ¬ e = 255 by omega),
    if_neg (show ¬ e < 103 by omega), if_neg hsub]
  by_cases hbig : 143 ≤ e
  · rw [if_pos hbig]
    exact nearest_of_large hbig
  · rw [if_neg hbig]
    exact nearest_of_normal (by omega) (by omega) ht

theorem negative_single (v : BitVec 32) : single.Negative v.toNat ↔ signField v = 1 := by
  have := v.isLt
  unfold BinaryFormat.Negative signField
  show v.toNat / 2 ^ 31 % 2 = 1 ↔ v.toNat / 2 ^ 31 = 1
  omega

theorem negative_half {s n : ℕ} (hs : s < 2) (hn : n < 2 ^ 15) :
    half.Negative (s * 2 ^ 15 + n) ↔ s = 1 := by
  unfold BinaryFormat.Negative
  show (s * 2 ^ 15 + n) / 2 ^ 15 % 2 = 1 ↔ s = 1
  omega

theorem magnitudeBits_half {s n : ℕ} (hn : n < 2 ^ 15) :
    half.magnitudeBits (s * 2 ^ 15 + n) = n := by
  show (s * 2 ^ 15 + n) % 2 ^ 15 = n
  omega

/-- The result of `f32ToFp16`, with the lost sticky bits made up for. -/
def nearestHalf (v : BitVec 32) : ℕ :=
  (f32ToFp16 v).toNat + if LosesSticky (expField v) (mantField v) then 1 else 0

theorem nearestHalf_eq (v : BitVec 32) :
    nearestHalf v = signField v * 2 ^ 15 + (halfMagnitude (expField v) (mantField v) +
      if LosesSticky (expField v) (mantField v) then 1 else 0) := by
  rw [nearestHalf, toNat_f32ToFp16, Nat.add_assoc]

theorem isFinite_single (v : BitVec 32) : single.IsFinite v.toNat ↔ expField v < 255 := by
  have ht := mantField_lt v
  have he := expField_lt v
  rw [BinaryFormat.IsFinite, magnitudeBits_eq]
  show expField v * 2 ^ 23 + mantField v < 255 * 2 ^ 23 ↔ _
  omega

theorem isNaN_single (v : BitVec 32) :
    single.IsNaN v.toNat ↔ expField v = 255 ∧ mantField v ≠ 0 := by
  have ht := mantField_lt v
  have he := expField_lt v
  rw [BinaryFormat.IsNaN, magnitudeBits_eq]
  show 255 * 2 ^ 23 < expField v * 2 ^ 23 + mantField v ↔ _
  omega

theorem abs_value_single (v : BitVec 32) :
    |single.value v.toNat| = singleMagnitude (expField v) (mantField v) * single.tiny := by
  rw [BinaryFormat.abs_value, magnitudeBits_eq, BinaryFormat.grid,
    magnitude_single (mantField_lt v)]

/-- One unit in the last place on the lossy words makes the conversion correct. -/
theorem correctlyRounded_nearestHalf (v : BitVec 32) :
    single.CorrectlyRounded half v.toNat (nearestHalf v) := by
  have he := expField_lt v
  have hs := signField_lt v
  rw [nearestHalf_eq]
  by_cases hfin : expField v < 255
  · have hnear := nearest_halfMagnitude hfin (mantField_lt v)
    have hlt : (halfMagnitude (expField v) (mantField v) +
        if LosesSticky (expField v) (mantField v) then 1 else 0) < 2 ^ 15 :=
      hnear.lt.trans (by decide)
    refine BinaryFormat.CorrectlyRounded.of_nearest (by decide) (by decide)
      ((isFinite_single v).2 hfin) ?_ ?_
    · rw [negative_half hs hlt, negative_single]
    · rw [magnitudeBits_half hlt, abs_value_single]
      exact hnear
  · have h255 : expField v = 255 := by omega
    have hlose : ¬ LosesSticky 255 (mantField v) := by
      unfold LosesSticky
      omega
    have hhalf : halfMagnitude 255 (mantField v) =
        31 * 2 ^ 10 + if mantField v ≠ 0 then 2 ^ 9 else 0 := if_pos rfl
    have hlt : (31 * 2 ^ 10 + if mantField v ≠ 0 then 2 ^ 9 else 0) < 2 ^ 15 := by
      split_ifs <;> norm_num
    rw [h255, if_neg hlose, hhalf, Nat.add_zero]
    refine ⟨?_, fun hnan ↦ ?_, fun hover ↦ ?_, fun h ↦ absurd ((isFinite_single v).1 h) hfin⟩
    · rw [negative_half hs hlt, negative_single]
    · rw [BinaryFormat.IsNaN, magnitudeBits_half hlt, if_pos ((isNaN_single v).1 hnan).2]
      decide
    · have h0 : mantField v = 0 := by
        by_contra h0
        have hnan := (isNaN_single v).2 ⟨h255, h0⟩
        unfold BinaryFormat.IsNaN BinaryFormat.IsInfinite BinaryFormat.IsFinite at *
        omega
      rw [BinaryFormat.IsInfinite, magnitudeBits_half hlt, h0]
      decide

/-! ### The order of the results -/

/-- Dropping thirteen bits with the rounding decision. -/
def dropLow (m : ℕ) : ℕ :=
  m / 2 ^ 13 + if RoundsUp (m % 2 ^ 13) (m / 2 ^ 13) then 1 else 0

theorem dropLow_of_up {m : ℕ} (h : RoundsUp (m % 2 ^ 13) (m / 2 ^ 13)) :
    dropLow m = m / 2 ^ 13 + 1 := by
  rw [dropLow, if_pos h]

theorem dropLow_of_not_up {m : ℕ} (h : ¬ RoundsUp (m % 2 ^ 13) (m / 2 ^ 13)) :
    dropLow m = m / 2 ^ 13 := by
  rw [dropLow, if_neg h, Nat.add_zero]

theorem dropLow_mono {m m' : ℕ} (h : m ≤ m') : dropLow m ≤ dropLow m' := by
  have hq : m / 2 ^ 13 ≤ m' / 2 ^ 13 := Nat.div_le_div_right h
  by_cases hu : RoundsUp (m % 2 ^ 13) (m / 2 ^ 13) <;>
    by_cases hu' : RoundsUp (m' % 2 ^ 13) (m' / 2 ^ 13)
  · rw [dropLow_of_up hu, dropLow_of_up hu']
    exact Nat.succ_le_succ hq
  · have hlt : m / 2 ^ 13 ≠ m' / 2 ^ 13 := by
      intro heq
      have hr : m % 2 ^ 13 ≤ m' % 2 ^ 13 := by omega
      rw [heq] at hu
      rcases hr.lt_or_eq with hlt | heq'
      · exact hu' (.inl (by rcases hu with h | ⟨h, -⟩ <;> omega))
      · exact hu' (heq' ▸ hu)
    rw [dropLow_of_up hu, dropLow_of_not_up hu']
    exact Nat.lt_of_le_of_ne hq hlt
  · rw [dropLow_of_not_up hu, dropLow_of_up hu']
    exact Nat.le_succ_of_le hq
  · rw [dropLow_of_not_up hu, dropLow_of_not_up hu']
    exact hq

theorem dropLow_mul (q : ℕ) : dropLow (q * 2 ^ 13) = q := by
  have hd : q * 2 ^ 13 / 2 ^ 13 = q := Nat.mul_div_cancel _ (Nat.two_pow_pos _)
  rw [dropLow_of_not_up ?_, hd]
  rw [Nat.mul_mod_left]
  unfold RoundsUp
  omega

theorem halfMagnitude_small {e t : ℕ} (he : e < 103) : halfMagnitude e t = 0 := by
  rw [halfMagnitude, if_neg (by omega), if_pos he]

theorem halfMagnitude_subnormal {e t : ℕ} (he : 103 ≤ e) (he' : e ≤ 112) :
    halfMagnitude e t = dropLow ((2 ^ 23 + t) / 2 ^ (113 - e)) := by
  rw [halfMagnitude, if_neg (by omega), if_neg (by omega), if_pos he']
  rfl

theorem halfMagnitude_normal {e t : ℕ} (he : 113 ≤ e) (he' : e ≤ 142) :
    halfMagnitude e t = (e - 112) * 2 ^ 10 + dropLow t := by
  rw [halfMagnitude, if_neg (by omega), if_neg (by omega), if_neg (by omega),
    if_neg (by omega), Nat.add_assoc]
  rfl

theorem halfMagnitude_large {e t : ℕ} (he : 143 ≤ e) (he' : e < 255) :
    halfMagnitude e t = 31 * 2 ^ 10 := by
  rw [halfMagnitude, if_neg (by omega), if_neg (by omega), if_neg (by omega), if_pos he]

theorem halfMagnitude_mono_mant {e t t' : ℕ} (he : e < 255) (h : t ≤ t') :
    halfMagnitude e t ≤ halfMagnitude e t' := by
  rcases Nat.lt_or_ge e 103 with h1 | h1
  · rw [halfMagnitude_small h1, halfMagnitude_small h1]
  rcases Nat.le_total e 112 with h2 | h2
  · rw [halfMagnitude_subnormal h1 h2, halfMagnitude_subnormal h1 h2]
    exact dropLow_mono (Nat.div_le_div_right (by omega))
  rcases Nat.lt_or_ge e 113 with h3 | h3
  · obtain rfl : e = 112 := by omega
    rw [halfMagnitude_subnormal h1 le_rfl, halfMagnitude_subnormal h1 le_rfl]
    exact dropLow_mono (Nat.div_le_div_right (by omega))
  rcases Nat.lt_or_ge e 143 with h4 | h4
  · rw [halfMagnitude_normal h3 (by omega), halfMagnitude_normal h3 (by omega)]
    exact Nat.add_le_add_left (dropLow_mono h) _
  · rw [halfMagnitude_large h4 he, halfMagnitude_large h4 he]

/-- From the top of one binade to the bottom of the next. -/
theorem halfMagnitude_le_succ {e t : ℕ} (he : e + 1 < 255) (ht : t < 2 ^ 23) :
    halfMagnitude e t ≤ halfMagnitude (e + 1) 0 := by
  have htop : dropLow t ≤ 2 ^ 10 :=
    (dropLow_mono (show t ≤ 2 ^ 10 * 2 ^ 13 by omega)).trans_eq (dropLow_mul _)
  rcases Nat.lt_or_ge e 103 with h1 | h1
  · rw [halfMagnitude_small h1]
    exact Nat.zero_le _
  rcases Nat.lt_or_ge e 112 with h2 | h2
  · rw [halfMagnitude_subnormal h1 h2.le, halfMagnitude_subnormal (by omega) h2]
    refine dropLow_mono ?_
    have hpow : 2 ^ (113 - e) = 2 * 2 ^ (113 - (e + 1)) := by
      rw [← pow_succ', show 113 - (e + 1) + 1 = 113 - e by omega]
    rw [hpow, ← Nat.div_div_eq_div_mul]
    exact Nat.div_le_div_right (by omega)
  rcases h2.lt_or_eq with h3 | rfl
  · rcases Nat.lt_or_ge e 142 with h4 | h4
    · rw [halfMagnitude_normal h3 h4.le, halfMagnitude_normal (by omega) h4]
      omega
    · rw [halfMagnitude_large (e := e + 1) (by omega) he]
      rcases h4.lt_or_eq with h5 | rfl
      · rw [halfMagnitude_large h5 (by omega)]
      · rw [halfMagnitude_normal h3 le_rfl]
        omega
  · rw [halfMagnitude_subnormal h1 le_rfl, halfMagnitude_normal le_rfl (by omega)]
    have := (dropLow_mono (show (2 ^ 23 + t) / 2 ^ (113 - 112) ≤ 2 ^ 10 * 2 ^ 13 by omega))
    rw [dropLow_mul] at this
    omega

theorem halfMagnitude_mono_exp {e e' : ℕ} (h : e ≤ e') (he' : e' < 255) :
    halfMagnitude e 0 ≤ halfMagnitude e' 0 := by
  induction h with
  | refl => exact le_rfl
  | step _ ih => exact (ih (by omega)).trans (halfMagnitude_le_succ he' (Nat.two_pow_pos _))

theorem halfMagnitude_mono {e t e' t' : ℕ} (ht : t < 2 ^ 23) (he' : e' < 255)
    (h : e * 2 ^ 23 + t ≤ e' * 2 ^ 23 + t') (ht' : t' < 2 ^ 23) :
    halfMagnitude e t ≤ halfMagnitude e' t' := by
  rcases Nat.lt_or_ge e e' with hlt | hge
  · calc halfMagnitude e t ≤ halfMagnitude (e + 1) 0 := halfMagnitude_le_succ (by omega) ht
      _ ≤ halfMagnitude e' 0 := halfMagnitude_mono_exp hlt he'
      _ ≤ halfMagnitude e' t' := halfMagnitude_mono_mant he' (Nat.zero_le _)
  · obtain rfl : e = e' := by omega
    exact halfMagnitude_mono_mant he' (by omega)

theorem halfMagnitude_le {e t : ℕ} (he : e < 255) (ht : t < 2 ^ 23) :
    halfMagnitude e t + (if LosesSticky e t then 1 else 0) ≤ half.infinity :=
  Nat.le_of_lt_succ (nearest_halfMagnitude he ht).lt

theorem value_f32ToFp16 {v : BitVec 32} (hv : single.IsFinite v.toNat) :
    half.value (f32ToFp16 v).toNat =
      if signField v = 1 then -half.grid (halfMagnitude (expField v) (mantField v))
      else half.grid (halfMagnitude (expField v) (mantField v)) := by
  have hle := halfMagnitude_le ((isFinite_single v).1 hv) (mantField_lt v)
  have hlt : halfMagnitude (expField v) (mantField v) < 2 ^ 15 :=
    (Nat.le_of_add_right_le hle).trans_lt (by decide)
  have hneg := negative_half (signField_lt v) hlt
  rw [toNat_f32ToFp16]
  split_ifs with hs
  · rw [BinaryFormat.value_of_negative (hneg.2 hs), magnitudeBits_half hlt]
  · rw [BinaryFormat.value_of_not_negative (fun h ↦ hs (hneg.1 h)), magnitudeBits_half hlt]

theorem value_single (v : BitVec 32) :
    single.value v.toNat =
      if signField v = 1 then -single.grid (expField v * 2 ^ 23 + mantField v)
      else single.grid (expField v * 2 ^ 23 + mantField v) := by
  rw [← magnitudeBits_eq]
  split_ifs with hs
  · exact BinaryFormat.value_of_negative ((negative_single v).2 hs)
  · exact BinaryFormat.value_of_not_negative (fun h ↦ hs ((negative_single v).1 h))

/-- Lossy or not, the conversion keeps the order. -/
theorem f32ToFp16_mono {v u : BitVec 32} (hv : single.IsFinite v.toNat)
    (hu : single.IsFinite u.toNat) (h : single.value v.toNat ≤ single.value u.toNat) :
    half.value (f32ToFp16 v).toNat ≤ half.value (f32ToFp16 u).toNat := by
  have step {x y : BitVec 32} (hy : single.IsFinite y.toNat)
      (hle : single.grid (expField x * 2 ^ 23 + mantField x) ≤
        single.grid (expField y * 2 ^ 23 + mantField y)) :
      half.grid (halfMagnitude (expField x) (mantField x)) ≤
        half.grid (halfMagnitude (expField y) (mantField y)) :=
    half.grid_strictMono.monotone (halfMagnitude_mono (mantField_lt x)
      ((isFinite_single y).1 hy) (single.grid_strictMono.le_iff_le.1 hle) (mantField_lt y))
  have hgv := BinaryFormat.grid_nonneg (F := single) (expField v * 2 ^ 23 + mantField v)
  have hgu := BinaryFormat.grid_nonneg (F := single) (expField u * 2 ^ 23 + mantField u)
  have hhv := BinaryFormat.grid_nonneg (F := half) (halfMagnitude (expField v) (mantField v))
  have hhu := BinaryFormat.grid_nonneg (F := half) (halfMagnitude (expField u) (mantField u))
  rw [value_single, value_single] at h
  rw [value_f32ToFp16 hv, value_f32ToFp16 hu]
  split_ifs with hsv hsu hsu
  · rw [if_pos hsv, if_pos hsu] at h
    exact neg_le_neg (step hv (neg_le_neg_iff.1 h))
  · linarith
  · -- Only zeros are left: both results are zero too.
    rw [if_neg hsv, if_pos hsu] at h
    have zero {x : BitVec 32} (hx : single.grid (expField x * 2 ^ 23 + mantField x) = 0) :
        half.grid (halfMagnitude (expField x) (mantField x)) = 0 := by
      have h0 : expField x * 2 ^ 23 + mantField x = 0 :=
        single.grid_strictMono.injective (hx.trans BinaryFormat.grid_zero.symm)
      rw [halfMagnitude_small (by omega), BinaryFormat.grid_zero]
    rw [zero (by linarith), zero (by linarith)]
    norm_num
  · rw [if_neg hsv, if_neg hsu] at h
    exact step hu h

theorem not_isNaN_of_losesSticky {v : BitVec 32}
    (h : LosesSticky (expField v) (mantField v)) :
    ¬ single.IsNaN v.toNat ∧ ¬ half.IsNaN (f32ToFp16 v).toNat := by
  have he : expField v < 255 := by
    unfold LosesSticky at h
    omega
  have hle := halfMagnitude_le he (mantField_lt v)
  rw [if_pos h] at hle
  have hinf : half.infinity < 2 ^ 15 := by decide
  refine ⟨fun hnan ↦ he.ne ((isNaN_single v).1 hnan).1, fun hnan ↦ ?_⟩
  rw [BinaryFormat.IsNaN, toNat_f32ToFp16, magnitudeBits_half (by omega)] at hnan
  omega

theorem correctlyRounded_iff (v : BitVec 32) :
    single.CorrectlyRounded half v.toNat (f32ToFp16 v).toNat ↔
      ¬ LosesSticky (expField v) (mantField v) := by
  have hnear := correctlyRounded_nearestHalf v
  constructor
  · intro hcorrect hlose
    have he : expField v < 255 := by
      unfold LosesSticky at hlose
      omega
    have hle := halfMagnitude_le he (mantField_lt v)
    have hinf : half.infinity < 2 ^ 15 := by decide
    have hbits := hnear.unique (not_isNaN_of_losesSticky hlose).1 hcorrect
    rw [if_pos hlose] at hle
    rw [nearestHalf_eq, if_pos hlose, toNat_f32ToFp16, magnitudeBits_half (by omega),
      magnitudeBits_half (by omega)] at hbits
    omega
  · intro hlose
    rwa [nearestHalf, if_neg hlose, Nat.add_zero] at hnear

theorem half_ext {w u : BitVec 16} (hs : half.Negative w.toNat ↔ half.Negative u.toNat)
    (hm : half.magnitudeBits w.toNat = half.magnitudeBits u.toNat) : w = u := by
  have hw := w.isLt
  have hu := u.isLt
  refine BitVec.eq_of_toNat_eq ?_
  change (w.toNat / 2 ^ 15 % 2 = 1 ↔ u.toNat / 2 ^ 15 % 2 = 1) at hs
  change w.toNat % 2 ^ 15 = u.toNat % 2 ^ 15 at hm
  omega

/-- The narrowing is correct, and agrees with every correct narrowing, exactly on the words
whose sticky bits are not lost; it keeps the order everywhere. -/
theorem f32ToFp16_correct (v : BitVec 32) :
    (single.CorrectlyRounded half v.toNat (f32ToFp16 v).toNat ↔
        ¬ LosesSticky (expField v) (mantField v)) ∧
      (∀ w : BitVec 16, single.CorrectlyRounded half v.toNat w.toNat →
        (f32ToFp16 v = w ∨ half.IsNaN (f32ToFp16 v).toNat ∧ half.IsNaN w.toNat ↔
          ¬ LosesSticky (expField v) (mantField v))) ∧
      ∀ u : BitVec 32, single.IsFinite v.toNat → single.IsFinite u.toNat →
        single.value v.toNat ≤ single.value u.toNat →
          half.value (f32ToFp16 v).toNat ≤ half.value (f32ToFp16 u).toNat := by
  refine ⟨correctlyRounded_iff v, fun w hw ↦ ⟨fun hagree hlose ↦ ?_, fun hlose ↦ ?_⟩,
    fun _ ↦ f32ToFp16_mono⟩
  · rcases hagree with rfl | ⟨hnan, -⟩
    · exact (correctlyRounded_iff v).1 hw hlose
    · exact (not_isNaN_of_losesSticky hlose).2 hnan
  · have hcorrect := (correctlyRounded_iff v).2 hlose
    by_cases hnan : single.IsNaN v.toNat
    · exact .inr ⟨hcorrect.nan hnan, hw.nan hnan⟩
    · exact .inl (half_ext (hcorrect.sign.trans hw.sign.symm) (hcorrect.unique hnan hw))

/-- Just above half of the smallest subnormal the result is zero. -/
theorem f32ToFp16_underflow :
    ¬ ∀ v : BitVec 32, single.CorrectlyRounded half v.toNat (f32ToFp16 v).toNat := by
  intro h
  exact (correctlyRounded_iff 0x33000001).1 (h _) (by decide)

end Thvm.FpConvert
