import Mathlib.Data.Nat.Size
import Mathlib.Tactic.Linarith
import Thvm.IndexBoundsSpec

/-!
# Division by a multiplication and a shift

A late pass of the code generator turns the division of a bounded index by a constant into a
multiplication and a shift, and the remainder into a difference. The constants are searched for.
-/

namespace Thvm.MagicDivision

variable {v d m e s x : ℕ}

/-- With `m * d = 2 ^ s + e` the shifted product is the quotient, for all numbers up to `v`, when
the greatest number up to `v` that is one below a multiple of `d` has a small enough product with
the excess `e`. -/
theorem mul_div_two_pow (hd : 0 < d) (hdv : d ≤ v + 1) (hx : x ≤ v) (hm : m * d = 2 ^ s + e)
    (hs : ((v + 1) / d * d - 1) * e < 2 ^ s) : x * m / 2 ^ s = x / d := by
  obtain ⟨N, hN⟩ : ∃ N, (v + 1) / d * d = N + 1 :=
    Nat.exists_eq_succ_of_ne_zero (Nat.mul_pos (Nat.div_pos hdv hd) hd).ne'
  rw [hN, Nat.add_sub_cancel] at hs
  have hdN : d ≤ N + 1 := hN ▸ Nat.le_mul_of_pos_left d (Nat.div_pos hdv hd)
  have hlow : x / d * d ≤ x := Nat.div_mul_le_self x d
  have hhigh : x + 1 ≤ (x / d + 1) * d := by
    rw [Nat.mul_comm]
    exact Nat.lt_mul_div_succ x hd
  -- the excess stays below the distance to the next multiple of `d`
  have hexcess : x * 2 ^ s + x * e < (x / d + 1) * d * 2 ^ s := by
    rcases Nat.lt_or_ge N x with hlt | hle
    · have hquot : x / d = (v + 1) / d := by
        refine Nat.le_antisymm (Nat.div_le_div_right (hx.trans (Nat.le_succ v))) ?_
        rw [Nat.le_div_iff_mul_le hd, hN]
        exact hlt
      have hnext : v + 1 < ((v + 1) / d + 1) * d := by
        rw [Nat.mul_comm]
        exact Nat.lt_mul_div_succ (v + 1) hd
      have htwo : x + 2 ≤ (x / d + 1) * d := by
        rw [hquot]
        omega
      have hsplit : x = N + (x - N) := by omega
      have hrest : x - N ≤ N := by
        rw [Nat.add_mul, Nat.one_mul, hN] at hnext
        omega
      have hprod : x * e ≤ 2 * (N * e) := by
        calc x * e = N * e + (x - N) * e := by rw [← Nat.add_mul, ← hsplit]
          _ ≤ N * e + N * e := Nat.add_le_add_left (Nat.mul_le_mul_right e hrest) _
          _ = 2 * (N * e) := (Nat.two_mul _).symm
      calc x * 2 ^ s + x * e < x * 2 ^ s + 2 * 2 ^ s := by omega
        _ = (x + 2) * 2 ^ s := (Nat.add_mul _ _ _).symm
        _ ≤ (x / d + 1) * d * 2 ^ s := Nat.mul_le_mul_right _ htwo
    · have hprod : x * e ≤ N * e := Nat.mul_le_mul_right e hle
      calc x * 2 ^ s + x * e < x * 2 ^ s + 1 * 2 ^ s := by omega
        _ = (x + 1) * 2 ^ s := (Nat.add_mul _ _ _).symm
        _ ≤ (x / d + 1) * d * 2 ^ s := Nat.mul_le_mul_right _ hhigh
  have hxm : x * m * d = x * 2 ^ s + x * e := by rw [Nat.mul_assoc, hm, Nat.mul_add]
  refine Nat.div_eq_of_lt_le ?_ ?_
  · refine Nat.le_of_mul_le_mul_right ?_ hd
    calc x / d * 2 ^ s * d = x / d * d * 2 ^ s := Nat.mul_right_comm _ _ _
      _ ≤ x * 2 ^ s := Nat.mul_le_mul_right _ hlow
      _ ≤ x * m * d := hxm ▸ Nat.le_add_right _ _
  · refine Nat.lt_of_mul_lt_mul_right (a := d) ?_
    rw [hxm, Nat.mul_right_comm]
    exact hexcess

end Thvm.MagicDivision

namespace Thvm.Index
namespace IndexExpr

/-- The shifts from `s` on. -/
def magicguFrom (nc d : ℤ) : (rounds s : ℕ) → Option (ℤ × ℕ)
  | 0, _ => none
  | n + 1, s =>
    if 62 ≤ s then none
    else
      let pow2 : ℤ := 2 ^ s
      let rhs := wrap64 (nc * (d - 1 - (pow2 - 1).tmod d))
      if rhs < pow2 then some ((wrap64 (pow2 + d - 1 - (pow2 - 1).tmod d)).tdiv d, s)
      else magicguFrom nc d n (s + 1)

/-- `thvm_magicgu`. -/
def thvmMagicgu (vmax d : ℤ) : Option (ℤ × ℕ) :=
  if d ≤ 0 ∨ vmax < 0 then none
  else
    let nc := wrap64 (wrap64 ((wrap64 (vmax + 1)).tdiv d * d) - 1)
    magicguFrom nc d (2 * Nat.size vmax.toNat + 2) 0

/-- `uop_iconst`. -/
def uopIconst (v : ℤ) : IndexExpr := .const 5 (v % 2 ^ 32).toNat

/-- `uop_fast_idiv_node`, where `mk` builds the nodes. -/
def uopFastIdivNode (kvarHi : ℕ → ℕ) (mk : IntOp → IndexExpr → IndexExpr → IndexExpr) :
    IndexExpr → Option IndexExpr
  | .bin op x den =>
    if op ≠ .idiv ∧ op ≠ .imod then none
    else do
      let bv ← den.iconstValue
      if bv ≤ 1 ∨ Int.land bv (bv - 1) = 0 then none
      else do
        let (lo, hi) ← intBounds kvarHi x
        if lo < 0 ∨ hi < 0 then none
        else if hi < bv then some (if op = .idiv then uopIconst 0 else x)
        else do
          let (m, s) ← thvmMagicgu hi bv
          if m < 1 ∨ 0x7fffffff < m ∨ (0x7fffffff : ℤ).tdiv m < hi then none
          else
            let mul := mk .imul x (uopIconst m)
            let div := mk .ishr mul (uopIconst s)
            if op = .idiv then some div
            else some (mk .isub x (mk .imul div den))
  | _ => none

variable {asg : ℕ → ℕ} {nc vmax d m v x hi : ℤ} {n s r : ℕ} {t : IndexExpr}
  {mk : IntOp → IndexExpr → IndexExpr → IndexExpr}

/-! ## The search -/

/-- What the search returns passed its test. -/
theorem magicguFrom_some (h : magicguFrom nc d n s = some (m, r)) :
    s ≤ r ∧ r < 62 ∧ wrap64 (nc * (d - 1 - ((2 : ℤ) ^ r - 1).tmod d)) < 2 ^ r ∧
      m = (wrap64 (2 ^ r + d - 1 - ((2 : ℤ) ^ r - 1).tmod d)).tdiv d := by
  induction n generalizing s with
  | zero => cases h
  | succ n ih =>
    unfold magicguFrom at h
    split at h
    · cases h
    · next hs =>
      dsimp only at h
      split at h
      · next htest =>
        obtain ⟨rfl, rfl⟩ := Prod.mk.inj (Option.some.inj h)
        exact ⟨le_rfl, not_le.mp hs, htest, rfl⟩
      · obtain ⟨hle, hrest⟩ := ih h
        exact ⟨(Nat.le_succ s).trans hle, hrest⟩

/-- A shift that passes the test is found, or an earlier one. -/
theorem magicguFrom_isSome (hsr : s ≤ r) (hrn : r < s + n) (hr : r < 62)
    (htest : wrap64 (nc * (d - 1 - ((2 : ℤ) ^ r - 1).tmod d)) < 2 ^ r) :
    (magicguFrom nc d n s).isSome := by
  induction n generalizing s with
  | zero => omega
  | succ n ih =>
    unfold magicguFrom
    rw [if_neg (by omega)]
    dsimp only
    split
    · rfl
    · next hfail =>
      refine ih ?_ (by omega)
      rcases Nat.eq_or_lt_of_le hsr with rfl | hlt
      · exact absurd htest hfail
      · exact hlt

/-! ## The constants -/

section Constants

variable {V D : ℕ}

theorem wrap64_small (hl : -2 ^ 63 ≤ v) (hh : v < 2 ^ 63) : wrap64 v = v := by
  refine wrap64_of_fits ?_
  rw [fits64, Bool.and_eq_true]
  exact ⟨decide_eq_true hl, decide_eq_true hh⟩

theorem excess_eq (hD : 0 < D) (s : ℕ) :
    (D : ℤ) - 1 - ((2 : ℤ) ^ s - 1).tmod D = ((D - 1 - (2 ^ s - 1) % D : ℕ) : ℤ) := by
  have hpow : (2 : ℤ) ^ s - 1 = ((2 ^ s - 1 : ℕ) : ℤ) := by
    rw [Nat.cast_sub Nat.one_le_two_pow, Nat.cast_pow]
    rfl
  have hlt := Nat.mod_lt (2 ^ s - 1) hD
  rw [hpow, Int.tmod_eq_emod_of_nonneg (Int.natCast_nonneg _), ← Int.natCast_emod]
  omega

/-- The excess fills up to a multiple of the divisor. -/
theorem two_pow_add_excess (hD : 0 < D) (s : ℕ) :
    2 ^ s + (D - 1 - (2 ^ s - 1) % D) = ((2 ^ s - 1) / D + 1) * D := by
  have hlt := Nat.mod_lt (2 ^ s - 1) hD
  have hdiv := Nat.div_add_mod' (2 ^ s - 1) D
  have hpow := Nat.one_le_two_pow (n := s)
  rw [Nat.add_mul, Nat.one_mul]
  omega

theorem nc_eq (hDV : D ≤ V + 1) (hD : 0 < D) (hV : V < 2 ^ 31) :
    wrap64 (wrap64 ((wrap64 ((V : ℤ) + 1)).tdiv D * D) - 1) =
      (((V + 1) / D * D - 1 : ℕ) : ℤ) := by
  have hle := Nat.div_mul_le_self (V + 1) D
  have hpos : 0 < (V + 1) / D * D := Nat.mul_pos (Nat.div_pos hDV hD) hD
  have hcast : ((V : ℤ) + 1).tdiv D * D = (((V + 1) / D * D : ℕ) : ℤ) := by
    rw [Int.tdiv_eq_ediv_of_nonneg (by omega), Nat.cast_mul, Int.natCast_ediv, Nat.cast_add,
      Nat.cast_one]
  rw [wrap64_small (v := (V : ℤ) + 1) (by omega) (by omega), hcast,
    wrap64_small (v := (((V + 1) / D * D : ℕ) : ℤ)) (by omega) (by omega),
    wrap64_small (by omega) (by omega)]
  omega

/-- The right side of the test does not wrap. -/
theorem rhs_eq (hDV : D ≤ V + 1) (hD : 0 < D) (hV : V < 2 ^ 31) (s : ℕ) :
    wrap64 ((((V + 1) / D * D - 1 : ℕ) : ℤ) * ((D : ℤ) - 1 - ((2 : ℤ) ^ s - 1).tmod D)) =
      ((((V + 1) / D * D - 1) * (D - 1 - (2 ^ s - 1) % D) : ℕ) : ℤ) := by
  have hle := Nat.div_mul_le_self (V + 1) D
  have hprod : ((V + 1) / D * D - 1) * (D - 1 - (2 ^ s - 1) % D) ≤ 2 ^ 31 * 2 ^ 31 :=
    Nat.mul_le_mul (by omega) (by omega)
  rw [excess_eq hD, ← Nat.cast_mul]
  exact wrap64_small (by omega) (by omega)

/-- The constants of the search divide exactly up to a bound of 31 bits when the divisor is not
above its successor. With 30 bits the search succeeds. -/
theorem thvmMagicgu_divides (hd : 0 < d) (hdv : d ≤ vmax + 1) (hv : vmax < 2 ^ 31) :
    (∀ m s, thvmMagicgu vmax d = some (m, s) → 2 ^ s ≤ m * d ∧
      ∀ x, 0 ≤ x → x ≤ vmax → (x * m) >>> s = x / d) ∧
    (vmax < 2 ^ 30 → (thvmMagicgu vmax d).isSome) := by
  obtain ⟨D, rfl⟩ := Int.eq_ofNat_of_zero_le hd.le
  obtain ⟨V, rfl⟩ := Int.eq_ofNat_of_zero_le (show 0 ≤ vmax by omega)
  have hD : 0 < D := by omega
  have hDV : D ≤ V + 1 := by omega
  have hV : V < 2 ^ 31 := by omega
  have hguard : ¬ ((D : ℤ) ≤ 0 ∨ (V : ℤ) < 0) := by omega
  rw [thvmMagicgu, if_neg hguard]
  dsimp only
  rw [nc_eq hDV hD hV, Int.toNat_natCast]
  constructor
  · intro m s h
    obtain ⟨-, hs, htest, rfl⟩ := magicguFrom_some h
    rw [rhs_eq hDV hD hV] at htest
    have hpow : (2 : ℕ) ^ s ≤ 2 ^ 61 := Nat.pow_le_pow_right (by decide) (by omega)
    have hsum : (2 : ℤ) ^ s + D - 1 - ((2 : ℤ) ^ s - 1).tmod D =
        ((((2 ^ s - 1) / D + 1) * D : ℕ) : ℤ) := by
      rw [← two_pow_add_excess hD, Nat.cast_add, ← excess_eq hD, Nat.cast_pow]
      push_cast
      omega
    have hmul := two_pow_add_excess hD s
    have hquot : (wrap64 (2 ^ s + D - 1 - ((2 : ℤ) ^ s - 1).tmod D)).tdiv D =
        (((2 ^ s - 1) / D + 1 : ℕ) : ℤ) := by
      rw [hsum, wrap64_small (by omega) (by omega),
        Int.tdiv_eq_ediv_of_nonneg (Int.natCast_nonneg _), ← Int.natCast_ediv,
        Nat.mul_div_cancel _ hD]
    rw [hquot]
    refine ⟨?_, fun x hx hxv => ?_⟩
    · rw [← Nat.cast_mul, ← hmul]
      push_cast
      omega
    · obtain ⟨X, rfl⟩ := Int.eq_ofNat_of_zero_le hx
      have hexact := MagicDivision.mul_div_two_pow hD hDV (show X ≤ V by omega) hmul.symm
        (by exact_mod_cast htest)
      rw [Int.shiftRight_eq_div_pow, ← Nat.cast_mul, ← Int.natCast_ediv, hexact, Int.natCast_ediv]
  · intro hsmall
    have hsize : Nat.size V ≤ 30 := Nat.size_le.mpr (by omega)
    have hlt : V < 2 ^ Nat.size V := Nat.lt_size_self V
    refine magicguFrom_isSome (r := 2 * Nat.size V) (Nat.zero_le _) (by omega) (by omega) ?_
    rw [rhs_eq hDV hD hV]
    have hle := Nat.div_mul_le_self (V + 1) D
    have hprod : ((V + 1) / D * D - 1) * (D - 1 - (2 ^ (2 * Nat.size V) - 1) % D) <
        2 ^ Nat.size V * 2 ^ Nat.size V :=
      Nat.mul_lt_mul_of_lt_of_le (by omega) (by omega) (Nat.two_pow_pos _)
    rw [← Nat.pow_add, ← Nat.two_mul] at hprod
    exact_mod_cast hprod

end Constants

/-- Below the divisor the search stops at once. -/
theorem thvmMagicgu_of_lt (hpos : 0 ≤ vmax) (hlt : vmax + 1 < d) (hd : d < 2 ^ 62) :
    thvmMagicgu vmax d = some (1, 0) := by
  have hguard : ¬ (d ≤ 0 ∨ vmax < 0) := by omega
  have hnc : wrap64 (wrap64 ((wrap64 (vmax + 1)).tdiv d * d) - 1) = -1 := by
    rw [wrap64_small (v := vmax + 1) (by omega) (by omega),
      Int.tdiv_eq_ediv_of_nonneg (by omega), Int.ediv_eq_zero_of_lt (by omega) hlt, Int.zero_mul]
    decide
  have hrest : ((2 : ℤ) ^ 0 - 1).tmod d = 0 := Int.zero_tmod d
  have htest : wrap64 (-1 * (d - 1 - ((2 : ℤ) ^ 0 - 1).tmod d)) < 2 ^ 0 := by
    rw [hrest, wrap64_small (by omega) (by omega)]
    omega
  have hone : (wrap64 ((2 : ℤ) ^ 0 + d - 1 - ((2 : ℤ) ^ 0 - 1).tmod d)).tdiv d = 1 := by
    rw [hrest, wrap64_small (by omega) (by omega), Int.tdiv_eq_ediv_of_nonneg (by omega)]
    have hsum : (2 : ℤ) ^ 0 + d - 1 - 0 = d := by omega
    rw [hsum]
    exact Int.ediv_self (by omega)
  rw [thvmMagicgu, if_neg hguard]
  dsimp only
  rw [hnc, magicguFrom, if_neg (by decide)]
  dsimp only
  rw [if_pos htest, hone]

/-- For a bound of 31 bits, what the search returns divides exactly up to the bound if and only if
the divisor is at most the successor of the bound, or only zero is divided. With 30 bits there is
always something to return. -/
theorem thvmMagicgu_exact_iff (vmax d : ℤ) (hpos : 0 ≤ vmax) (hv : vmax < 2 ^ 31) (hd : 0 < d)
    (hd' : d < 2 ^ 62) :
    (∀ m s, thvmMagicgu vmax d = some (m, s) →
      ((∀ x, 0 ≤ x → x ≤ vmax → (x * m) >>> s = x / d) ↔ d ≤ vmax + 1 ∨ vmax = 0)) ∧
    (vmax < 2 ^ 30 → (thvmMagicgu vmax d).isSome) := by
  by_cases hdv : d ≤ vmax + 1
  · obtain ⟨hexact, hsome⟩ := thvmMagicgu_divides hd hdv hv
    exact ⟨fun m s h => ⟨fun _ => .inl hdv, fun _ => (hexact m s h).2⟩, hsome⟩
  · have hlt := not_le.mp hdv
    rw [thvmMagicgu_of_lt hpos hlt hd']
    refine ⟨fun m s h => ?_, fun _ => rfl⟩
    obtain ⟨rfl, rfl⟩ := Prod.mk.inj (Option.some.inj h)
    constructor
    · intro hexact
      have hmax := hexact vmax hpos le_rfl
      rw [Int.ediv_eq_zero_of_lt hpos (by omega), Int.mul_one] at hmax
      exact .inr ((Int.shiftRight_zero vmax).symm.trans hmax)
    · rintro (h | rfl) x hx hxv
      · exact absurd h hdv
      · obtain rfl : x = 0 := by omega
        rw [Int.zero_mul, Int.zero_ediv]
        rfl

/-- Up to 31, and by 25. -/
theorem thvmMagicgu_exact_iff_small :
    (∀ m s, thvmMagicgu 31 25 = some (m, s) →
      ((∀ x, 0 ≤ x → x ≤ 31 → (x * m) >>> s = x / 25) ↔ (25 : ℤ) ≤ 31 + 1 ∨ (31 : ℤ) = 0)) ∧
    ((31 : ℤ) < 2 ^ 30 → (thvmMagicgu 31 25).isSome) :=
  thvmMagicgu_exact_iff 31 25 (by decide) (by decide) (by decide) (by decide)

example : thvmMagicgu 31 25 = some (21, 9) := by decide +kernel

/-! ## The rewritten node -/

theorem eval_uopIconst (hl : 0 ≤ v) (hh : v < 2 ^ 31) : eval asg (uopIconst v) = some v := by
  obtain ⟨n, rfl⟩ := Int.eq_ofNat_of_zero_le hl
  have hmod : ((n : ℤ) % 2 ^ 32).toNat = n := by omega
  have hvalue : toI32 n = n := by
    rw [toI32, BitVec.toInt_eq_toNat_cond, BitVec.toNat_ofNat, Nat.mod_eq_of_lt (by omega),
      if_pos (by omega)]
  rw [uopIconst, hmod]
  exact congrArg some hvalue

theorem inI32_of_small (hl : -2 ^ 31 ≤ v) (hh : v < 2 ^ 31) : inI32 v = some v :=
  if_pos ⟨hl, hh⟩

theorem hi_mul_le (hpos : 0 ≤ hi) (hm : 1 ≤ m) (hprod : hi ≤ (0x7fffffff : ℤ).tdiv m) :
    hi ≤ hi * m ∧ hi * m ≤ 0x7fffffff := by
  rw [Int.tdiv_eq_ediv_of_nonneg (by decide)] at hprod
  exact ⟨le_mul_of_one_le_right hpos hm, Int.mul_le_of_le_ediv (by omega) hprod⟩

/-- Under the guard on the multiplier the shifted product is the quotient. The product does not
overflow, and the shift is less than the width. -/
theorem magic_quotient (hmk : ∀ op a b v, eval asg (bin op a b) = some v →
      eval asg (mk op a b) = some v)
    (hx : eval asg t = some x) (hpos : 0 ≤ x) (hle : x ≤ hi) (hd : 0 < d) (hdh : d ≤ hi)
    (hmagic : thvmMagicgu hi d = some (m, s)) (hm : 1 ≤ m) (hmh : m ≤ 0x7fffffff)
    (hprod : hi ≤ (0x7fffffff : ℤ).tdiv m) :
    eval asg (mk .ishr (mk .imul t (uopIconst m)) (uopIconst s)) = some (x / d) := by
  obtain ⟨hhi, hhm⟩ := hi_mul_le (hpos.trans hle) hm hprod
  obtain ⟨hpow, hexact⟩ := (thvmMagicgu_divides hd (by omega) (by omega)).1 m s hmagic
  have hxm : x * m ≤ hi * m := Int.mul_le_mul_of_nonneg_right hle (by omega)
  have hxmpos : 0 ≤ x * m := Int.mul_nonneg hpos (by omega)
  have hs : s < 31 := by
    by_contra hge
    have hbig : (2 : ℤ) ^ 31 ≤ 2 ^ s := pow_le_pow_right₀ (by decide) (not_lt.mp hge)
    have hmd : m * d ≤ hi * m := by
      rw [Int.mul_comm hi]
      exact Int.mul_le_mul_of_nonneg_left hdh (by omega)
    omega
  have hmul : eval asg (mk .imul t (uopIconst m)) = some (x * m) := by
    refine hmk _ _ _ _ ?_
    rw [eval, hx, eval_uopIconst (by omega) (by omega)]
    exact inI32_of_small (by omega) (by omega)
  refine hmk _ _ _ _ ?_
  rw [eval, hmul, eval_uopIconst (by omega) (by omega)]
  have hshift : (0 : ℤ) ≤ s ∧ (s : ℤ) < 32 := by omega
  show evalOp .ishr (x * m) s = some (x / d)
  rw [evalOp, if_pos hshift, Int.toNat_natCast, hexact x hpos hle]

theorem magic_remainder {q den : IndexExpr} (hmk : ∀ op a b v, eval asg (bin op a b) = some v →
      eval asg (mk op a b) = some v)
    (hx : eval asg t = some x) (hq : eval asg q = some (x / d)) (hden : eval asg den = some d)
    (hpos : 0 ≤ x) (hd : 0 < d) (hlt : x < 2 ^ 31) :
    eval asg (mk .isub t (mk .imul q den)) = some (x % d) := by
  have hback : x / d * d ≤ x := Int.ediv_mul_le x hd.ne'
  have hbackpos : 0 ≤ x / d * d := Int.mul_nonneg (Int.ediv_nonneg hpos hd.le) hd.le
  have hmul : eval asg (mk .imul q den) = some (x / d * d) := by
    refine hmk _ _ _ _ ?_
    rw [eval, hq, hden]
    exact inI32_of_small (by omega) (by omega)
  refine hmk _ _ _ _ ?_
  rw [eval, hx, hmul, Int.emod_def, Int.mul_comm d]
  exact inI32_of_small (by omega) (by omega)

/-- What a rewritten node is: an exact value below the divisor, else a product and a shift under
the guards, and for a remainder the difference. -/
theorem uopFastIdivNode_some {kvarHi : ℕ → ℕ} {op : IntOp} {a den : IndexExpr}
    (h : uopFastIdivNode kvarHi mk (bin op a den) = some t) :
    (op = .idiv ∨ op = .imod) ∧ ∃ d lo hi, den.iconstValue = some d ∧ 1 < d ∧
      intBounds kvarHi a = some (lo, hi) ∧ 0 ≤ lo ∧
      (hi < d ∧ t = (if op = .idiv then uopIconst 0 else a) ∨
        ∃ m s, d ≤ hi ∧ thvmMagicgu hi d = some (m, s) ∧ 1 ≤ m ∧ m ≤ 0x7fffffff ∧
          hi ≤ (0x7fffffff : ℤ).tdiv m ∧
          t = if op = .idiv then mk .ishr (mk .imul a (uopIconst m)) (uopIconst s)
            else mk .isub a
              (mk .imul (mk .ishr (mk .imul a (uopIconst m)) (uopIconst s)) den)) := by
  rw [uopFastIdivNode] at h
  split at h
  · cases h
  · next hops =>
    refine ⟨by by_contra hneither; exact hops (not_or.mp hneither), ?_⟩
    obtain ⟨d, hd, h⟩ := Option.bind_eq_some_iff.mp h
    split at h
    · cases h
    · next hconst =>
      obtain ⟨⟨lo, hi⟩, hbounds, h⟩ := Option.bind_eq_some_iff.mp h
      dsimp only at h
      split at h
      · cases h
      · next hnonneg =>
        refine ⟨d, lo, hi, hd, not_le.mp (not_or.mp hconst).1, hbounds,
          not_lt.mp (not_or.mp hnonneg).1, ?_⟩
        split at h
        · next hbelow => exact .inl ⟨hbelow, (Option.some.inj h).symm⟩
        · next habove =>
          obtain ⟨⟨m, s⟩, hmagic, h⟩ := Option.bind_eq_some_iff.mp h
          dsimp only at h
          split at h
          · cases h
          · next hguards =>
            obtain ⟨hm, hguards⟩ := not_or.mp hguards
            obtain ⟨hmh, hprod⟩ := not_or.mp hguards
            refine .inr ⟨m, s, not_lt.mp habove, hmagic, not_lt.mp hm, not_lt.mp hmh,
              not_lt.mp hprod, ?_⟩
            rw [← apply_ite some] at h
            exact (Option.some.inj h).symm

/-- The lowered node has the value of the division or the remainder, for all values of the loop
variables within their extents. -/
theorem uopFastIdivNode_keeps (kvarHi asg : ℕ → ℕ)
    (mk : IntOp → IndexExpr → IndexExpr → IndexExpr) (node t : IndexExpr) (v : ℤ)
    (hmk : ∀ op a b asg v, eval asg (bin op a b) = some v → eval asg (mk op a b) = some v)
    (h : uopFastIdivNode kvarHi mk node = some t) (hadm : Admissible kvarHi asg node)
    (hv : eval asg node = some v) : eval asg t = some v := by
  have hmk := fun op a b v => hmk op a b asg v
  cases node with
  | bin op a den =>
    obtain ⟨x, y, hx, hy, hop⟩ := eval_bin hv
    obtain ⟨hops, d, lo, hi, hd, hd1, hbounds, hlo, hcase⟩ := uopFastIdivNode_some h
    obtain rfl := eval_iconst_eq hd hy
    obtain ⟨hlox, hle⟩ := intBoundsD_sound hadm.left hx hbounds
    have hpos : 0 ≤ x := hlo.trans hlox
    rcases hcase with ⟨hbelow, rfl⟩ | ⟨m, s, habove, hmagic, hm, hmh, hprod, rfl⟩
    · have hlt : x < y := hle.trans_lt hbelow
      rcases hops with rfl | rfl
      · rw [if_pos rfl, evalOp_idiv hop, Int.tdiv_eq_ediv_of_nonneg hpos,
          Int.ediv_eq_zero_of_lt hpos hlt]
        exact eval_uopIconst le_rfl (by decide)
      · rw [if_neg (by decide), evalOp_imod hop, Int.tmod_eq_emod_of_nonneg hpos,
          Int.emod_eq_of_lt hpos hlt]
        exact hx
    · obtain ⟨hhi, hhm⟩ := hi_mul_le (hpos.trans hle) hm hprod
      dsimp only at hle
      have hdiv := magic_quotient hmk hx hpos hle (by omega) habove hmagic hm hmh hprod
      rcases hops with rfl | rfl
      · rw [if_pos rfl, evalOp_idiv hop, Int.tdiv_eq_ediv_of_nonneg hpos]
        exact hdiv
      · rw [if_neg (by decide), evalOp_imod hop, Int.tmod_eq_emod_of_nonneg hpos]
        exact magic_remainder hmk hx hdiv hy hpos (by omega) (by omega)
  | _ => cases h

/-- `(4 * r₀ + r₁) / 25` with the extents 8 and 4 at its last index. -/
example :
    eval (fun axis => if axis = 0 then 7 else 3)
      (bin .ishr (bin .imul packedPair (uopIconst 21)) (uopIconst 9)) = some 1 := by
  refine uopFastIdivNode_keeps (fun _ => 0) _ bin (bin .idiv packedPair (.const 5 25)) _ 1
    (fun _ _ _ _ _ h => h) (by decide +kernel) ?_ (by decide)
  intro r hr
  simp only [packedPair, ranges, List.nil_append, List.append_nil, List.cons_append,
    List.mem_cons, List.not_mem_nil, or_false] at hr
  rcases hr with rfl | rfl <;> decide

end IndexExpr
end Thvm.Index
