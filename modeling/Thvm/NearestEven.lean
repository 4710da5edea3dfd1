import Mathlib.Algebra.Order.Field.Basic
import Mathlib.Algebra.Order.Ring.Abs
import Mathlib.Algebra.Ring.Parity
import Mathlib.Data.Rat.Cast.Order
import Mathlib.Tactic.FieldSimp
import Mathlib.Tactic.Linarith
import Mathlib.Tactic.Positivity
import Mathlib.Tactic.Ring

/-!
# Rounding to nearest, ties to even

An increasing grid of numbers, its nearest points, and the binary interchange
formats whose words count such a grid.
-/

namespace Thvm.Rounding

section Grid

variable {α : Type*} [Field α] [LinearOrder α] [IsStrictOrderedRing α]

/-- Among the first `N` grid points, number `n` is nearest to `x`; where another one
is as near, `n` is even. -/
structure Nearest (g : ℕ → α) (N : ℕ) (x : α) (n : ℕ) : Prop where
  lt : n < N
  near : ∀ k < N, |g n - x| ≤ |g k - x|
  even : ∀ k < N, k ≠ n → |g k - x| = |g n - x| → Even n

variable {g : ℕ → α} {N : ℕ} {x y : α} {n m k : ℕ}

/-- Of two points the lower one is at least as near exactly below their midpoint. -/
theorem abs_sub_le_abs_sub_iff {a b x : α} (h : a < b) :
    |a - x| ≤ |b - x| ↔ 2 * x ≤ a + b := by
  constructor
  · intro hle
    by_contra hlt
    have hb : |b - x| < x - a := abs_lt.2 ⟨by linarith, by linarith⟩
    have ha : x - a ≤ |a - x| := by rw [abs_sub_comm]; exact le_abs_self _
    linarith
  · intro hle
    exact (abs_le.2 ⟨by linarith [le_abs_self (b - x)], by linarith [le_abs_self (b - x)]⟩)

theorem abs_sub_le_abs_sub_iff' {a b x : α} (h : a < b) :
    |b - x| ≤ |a - x| ↔ a + b ≤ 2 * x := by
  constructor
  · intro hle
    by_contra hlt
    have ha : |a - x| < b - x := abs_lt.2 ⟨by linarith, by linarith⟩
    linarith [le_abs_self (b - x)]
  · intro hle
    have ha : x - a ≤ |a - x| := by rw [abs_sub_comm]; exact le_abs_self _
    exact abs_le.2 ⟨by linarith, by linarith⟩

theorem abs_sub_eq_abs_sub_iff {a b x : α} (h : a < b) :
    |a - x| = |b - x| ↔ 2 * x = a + b := by
  rw [le_antisymm_iff, abs_sub_le_abs_sub_iff h, abs_sub_le_abs_sub_iff' h, ← le_antisymm_iff]

/-- It is enough to look at the two neighbours. -/
theorem Nearest.of_neighbours (hg : StrictMono g) (hn : n < N)
    (lo : ∀ k, k + 1 = n → g k + g n < 2 * x ∨ g k + g n = 2 * x ∧ Even n)
    (hi : n + 1 < N → 2 * x < g n + g (n + 1) ∨ 2 * x = g n + g (n + 1) ∧ Even n) :
    Nearest g N x n := by
  have below (k : ℕ) (hk : k < n) : g k + g n ≤ 2 * x ∧ (g k + g n = 2 * x → Even n) := by
    obtain ⟨j, rfl⟩ : ∃ j, n = j + 1 := ⟨n - 1, by omega⟩
    have hj : g k ≤ g j := hg.monotone (by omega)
    rcases lo j rfl with h | ⟨h, he⟩
    · exact ⟨by linarith, fun h' ↦ by linarith⟩
    · exact ⟨by linarith, fun _ ↦ he⟩
  have above (k : ℕ) (hk : n < k) (hN : k < N) :
      2 * x ≤ g n + g k ∧ (2 * x = g n + g k → Even n) := by
    have hj : g (n + 1) ≤ g k := hg.monotone hk
    rcases hi (by omega) with h | ⟨h, he⟩
    · exact ⟨by linarith, fun h' ↦ by linarith⟩
    · exact ⟨by linarith, fun _ ↦ he⟩
  refine ⟨hn, fun k hk ↦ ?_, fun k hk hne he ↦ ?_⟩
  · rcases lt_trichotomy k n with h | rfl | h
    · exact (abs_sub_le_abs_sub_iff' (hg h)).2 (below k h).1
    · exact le_rfl
    · exact (abs_sub_le_abs_sub_iff (hg h)).2 (above k h hk).1
  · rcases lt_or_gt_of_ne hne with h | h
    · exact (below k h).2 ((abs_sub_eq_abs_sub_iff (hg h)).1 he).symm
    · exact (above k h hk).2 ((abs_sub_eq_abs_sub_iff (hg h)).1 he.symm)

theorem Nearest.le (hg : StrictMono g) (hn : Nearest g N x n) (hm : Nearest g N x m) :
    m ≤ n := by
  by_contra hlt
  have hlt : n < m := by omega
  have hmid : |g n - x| = |g m - x| := le_antisymm (hn.near m hm.lt) (hm.near n hn.lt)
  have hne := hn.even m hm.lt hlt.ne' hmid.symm
  have hme := hm.even n hn.lt hlt.ne hmid
  have hgap : n + 1 < m := by
    rcases hne with ⟨i, rfl⟩
    rcases hme with ⟨j, rfl⟩
    omega
  -- The point in between would be nearer than both.
  have h1 : g n < g (n + 1) := hg (by omega)
  have h2 : g (n + 1) < g m := hg hgap
  have h3 := (abs_sub_eq_abs_sub_iff (hg hlt)).1 hmid
  have h4 := (abs_sub_le_abs_sub_iff h1).1 (hn.near (n + 1) (hgap.trans hm.lt))
  linarith

/-- The nearest point is unique. -/
theorem Nearest.unique (hn : Nearest g N x n) (hg : StrictMono g) (hm : Nearest g N x m) :
    n = m :=
  le_antisymm (Nearest.le hg hm hn) (Nearest.le hg hn hm)

/-- Rounding keeps the order. -/
theorem Nearest.mono (hg : StrictMono g) (hxy : x ≤ y) (hn : Nearest g N x n)
    (hm : Nearest g N y m) : n ≤ m := by
  by_contra hlt
  have hlt : m < n := by omega
  have h1 := (abs_sub_le_abs_sub_iff' (hg hlt)).1 (hn.near m hm.lt)
  have h2 := (abs_sub_le_abs_sub_iff (hg hlt)).1 (hm.near n hn.lt)
  have hxy : x = y := by linarith
  exact hlt.ne' (hn.unique hg (hxy ▸ hm))

/-- A point at distance `r` above grid point `n`, whose step is `2 * h`, all in units of `c`. -/
theorem nearest_of_step (hg : StrictMono g) {c : α} (hc : 0 < c) {a h r : ℕ}
    (hn : g n = a * c) (hn' : g (n + 1) = (a + 2 * h : ℕ) * c) (hx : x = (a + r : ℕ) * c)
    (hr : r < 2 * h) (hN : n + 1 < N) :
    Nearest g N x (if h < r ∨ r = h ∧ ¬ Even n then n + 1 else n) := by
  have ha : (0 : α) ≤ r * c := by positivity
  have lt {i j : ℕ} (hij : i < j) : (i : α) * c < j * c :=
    mul_lt_mul_of_pos_right (by exact_mod_cast hij) hc
  push_cast [add_mul] at hn' hx
  split_ifs with hup
  · refine Nearest.of_neighbours hg hN (fun k hk ↦ ?_) (fun hlt ↦ .inl ?_)
    · obtain rfl : k = n := by omega
      rcases hup with hup | ⟨rfl, he⟩
      · exact .inl (by linarith [lt hup])
      · exact .inr ⟨by linarith, Nat.even_add_one.2 he⟩
    · have hlt : g (n + 1) < g (n + 1 + 1) := hg (by omega)
      have := lt hr
      push_cast at this
      linarith
  · have hle : r ≤ h := by omega
    refine Nearest.of_neighbours hg (by omega) (fun k hk ↦ .inl ?_) (fun _ ↦ ?_)
    · have hlt : g k < g n := hg (by omega)
      linarith
    · rcases hle.lt_or_eq with hle | rfl
      · exact .inl (by linarith [lt hle])
      · exact .inr ⟨by linarith, by tauto⟩

/-- The largest point stands for everything from the last midpoint on, and not below. -/
theorem Nearest.last (hg : StrictMono g) (hN : Even (N + 1)) (hn : Nearest g (N + 1 + 1) x n) :
    ((g N + g (N + 1)) / 2 ≤ x → n = N + 1) ∧
      (x < (g N + g (N + 1)) / 2 → Nearest g (N + 1) x n) := by
  have hlt := hn.lt
  constructor
  · intro hx
    by_contra hne
    have h1 : g n < g (N + 1) := hg (by omega)
    have h2 : g n ≤ g N := hg.monotone (by omega)
    have h3 := (abs_sub_le_abs_sub_iff h1).1 (hn.near (N + 1) (by omega))
    have he : n = N := hg.injective (by linarith)
    have heven := hn.even (N + 1) (by omega) (by omega)
      ((abs_sub_eq_abs_sub_iff h1).2 (by linarith)).symm
    exact Nat.even_add_one.1 hN (he ▸ heven)
  · intro hx
    refine ⟨?_, fun k hk ↦ hn.near k (by omega), fun k hk ↦ hn.even k (by omega)⟩
    by_contra hle
    obtain rfl : n = N + 1 := by omega
    have := (abs_sub_le_abs_sub_iff' (hg (show N < N + 1 by omega))).1 (hn.near N (by omega))
    linarith

end Grid

/-- A binary interchange format: one sign bit, exponent bits, fraction bits. -/
structure BinaryFormat where
  exponentBits : ℕ
  fractionBits : ℕ

namespace BinaryFormat

variable (F G : BinaryFormat)

def bias : ℤ := 2 ^ (F.exponentBits - 1) - 1

/-- The bits below the sign, read as a number: they count the magnitudes upwards. -/
def magnitudeBits (w : ℕ) : ℕ := w % 2 ^ (F.exponentBits + F.fractionBits)

def Negative (w : ℕ) : Prop := w / 2 ^ (F.exponentBits + F.fractionBits) % 2 = 1

/-- The magnitude bits of an infinity: all exponent bits, no fraction. -/
def infinity : ℕ := (2 ^ F.exponentBits - 1) * 2 ^ F.fractionBits

def IsNaN (w : ℕ) : Prop := F.infinity < F.magnitudeBits w

def IsInfinite (w : ℕ) : Prop := F.magnitudeBits w = F.infinity

def IsFinite (w : ℕ) : Prop := F.magnitudeBits w < F.infinity

/-- Magnitude number `n` in units of the smallest positive one. -/
def magnitude (n : ℕ) : ℕ :=
  if n < 2 ^ F.fractionBits then n
  else (2 ^ F.fractionBits + n % 2 ^ F.fractionBits) * 2 ^ (n / 2 ^ F.fractionBits - 1)

/-- The smallest positive magnitude. -/
def tiny : ℚ := 2 ^ (1 - F.bias - F.fractionBits)

/-- The magnitudes in increasing order. -/
def grid (n : ℕ) : ℚ := F.magnitude n * F.tiny

/-- The number a finite word stands for. -/
def value (w : ℕ) : ℚ :=
  if w / 2 ^ (F.exponentBits + F.fractionBits) % 2 = 1 then -F.grid (F.magnitudeBits w)
  else F.grid (F.magnitudeBits w)

/-- Half a step above the largest finite magnitude: from here on results overflow. -/
def overflow : ℚ := (F.grid (F.infinity - 1) + F.grid F.infinity) / 2

/-- A finite word nearest to `x`, with an even fraction where another value is as near. -/
structure NearestWord (x : ℚ) (w : ℕ) : Prop where
  finite : F.IsFinite w
  near : ∀ u, F.IsFinite u → |F.value w - x| ≤ |F.value u - x|
  even : ∀ u, F.IsFinite u → F.value u ≠ F.value w → |F.value u - x| = |F.value w - x| →
    Even (F.magnitudeBits w)

/-- Word `w` of format `G` is the correctly rounded image of word `v` of format `F`. -/
structure CorrectlyRounded (v w : ℕ) : Prop where
  sign : G.Negative w ↔ F.Negative v
  nan : F.IsNaN v → G.IsNaN w
  overflow : F.IsInfinite v ∨ F.IsFinite v ∧ G.overflow ≤ |F.value v| → G.IsInfinite w
  nearest : F.IsFinite v → |F.value v| < G.overflow → G.NearestWord (F.value v) w

theorem tiny_pos : 0 < F.tiny := by
  exact zpow_pos (by norm_num) _

/-- The magnitude of an exponent and a fraction. -/
theorem magnitude_fields {e t : ℕ} (ht : t < 2 ^ F.fractionBits) :
    F.magnitude (e * 2 ^ F.fractionBits + t) =
      if e = 0 then t else (2 ^ F.fractionBits + t) * 2 ^ (e - 1) := by
  have hp : 0 < 2 ^ F.fractionBits := by positivity
  unfold magnitude
  generalize 2 ^ F.fractionBits = p at *
  rw [Nat.add_comm, Nat.add_mul_mod_self_right, Nat.add_mul_div_right _ _ hp,
    Nat.mod_eq_of_lt ht, Nat.div_eq_of_lt ht, Nat.zero_add]
  rcases Nat.eq_zero_or_pos e with rfl | he
  · simp [ht]
  · have hle := Nat.le_mul_of_pos_left p he
    rw [if_neg (by omega), if_neg he.ne']

/-- The step from one magnitude to the next is a power of two. -/
theorem magnitude_succ (n : ℕ) :
    F.magnitude (n + 1) = F.magnitude n + 2 ^ (n / 2 ^ F.fractionBits - 1) := by
  have hp : 0 < 2 ^ F.fractionBits := by positivity
  have hd := Nat.div_add_mod n (2 ^ F.fractionBits)
  have hm := Nat.mod_lt n hp
  unfold magnitude
  generalize 2 ^ F.fractionBits = p at *
  generalize hq : n / p = q at *
  generalize hr : n % p = r at *
  rcases lt_trichotomy (n + 1) p with h | h | h
  · have h0 : q = 0 := by rw [← hq]; exact Nat.div_eq_of_lt (by omega)
    simp [h, show n < p by omega, h0]
  · have h0 : q = 0 := by rw [← hq]; exact Nat.div_eq_of_lt (by omega)
    simp [h, show n < p by omega, h0, Nat.div_self hp]
  · obtain ⟨q, rfl⟩ : ∃ i, q = i + 1 :=
      ⟨q - 1, by have := (Nat.one_le_div_iff hp).2 (show p ≤ n by omega); omega⟩
    rw [if_neg (by omega), if_neg (by omega)]
    rcases Nat.lt_or_ge (r + 1) p with hr' | hr'
    · have he : n + 1 = r + 1 + p * (q + 1) := by omega
      rw [he, Nat.add_mul_mod_self_left, Nat.add_mul_div_left _ _ hp, Nat.mod_eq_of_lt hr',
        Nat.div_eq_of_lt hr', Nat.zero_add, Nat.add_sub_cancel]
      ring
    · have he : n + 1 = p * (q + 1 + 1) := by rw [Nat.mul_succ]; omega
      rw [he, Nat.mul_mod_right, Nat.mul_div_cancel_left _ hp, Nat.add_sub_cancel,
        Nat.add_sub_cancel, show r = p - 1 by omega, pow_succ]
      obtain ⟨p, rfl⟩ : ∃ i, p = i + 1 := ⟨p - 1, by omega⟩
      simp only [Nat.add_sub_cancel]
      ring

theorem grid_strictMono : StrictMono F.grid := by
  refine strictMono_nat_of_lt_succ fun n ↦ ?_
  have h : F.magnitude n < F.magnitude (n + 1) := by
    rw [F.magnitude_succ]
    have := Nat.two_pow_pos (n / 2 ^ F.fractionBits - 1)
    omega
  exact mul_lt_mul_of_pos_right (by exact_mod_cast h) F.tiny_pos

variable {F G}

theorem grid_nonneg (n : ℕ) : 0 ≤ F.grid n :=
  mul_nonneg (Nat.cast_nonneg _) F.tiny_pos.le

@[simp] theorem grid_zero : F.grid 0 = 0 := by
  simp [grid, magnitude]

theorem value_of_negative {w : ℕ} (h : F.Negative w) :
    F.value w = -F.grid (F.magnitudeBits w) := if_pos h

theorem value_of_not_negative {w : ℕ} (h : ¬ F.Negative w) :
    F.value w = F.grid (F.magnitudeBits w) := if_neg h

theorem abs_value (w : ℕ) : |F.value w| = F.grid (F.magnitudeBits w) := by
  by_cases h : F.Negative w
  · rw [value_of_negative h, abs_neg, abs_of_nonneg (grid_nonneg _)]
  · rw [value_of_not_negative h, abs_of_nonneg (grid_nonneg _)]

/-- A word of each sign for every magnitude. -/
theorem exists_word (n : ℕ) (hn : n < 2 ^ (F.exponentBits + F.fractionBits)) (s : Prop) :
    ∃ w, F.magnitudeBits w = n ∧ (F.Negative w ↔ s) := by
  by_cases hs : s
  · refine ⟨n + 2 ^ (F.exponentBits + F.fractionBits), ?_, ?_⟩
    · rw [magnitudeBits, Nat.add_mod_right, Nat.mod_eq_of_lt hn]
    · have h2 := Nat.two_pow_pos (F.exponentBits + F.fractionBits)
      simp [Negative, hs, Nat.add_div_right _ h2, Nat.div_eq_of_lt hn]
  · exact ⟨n, Nat.mod_eq_of_lt hn, by simp [Negative, hs, Nat.div_eq_of_lt hn]⟩

theorem infinity_lt : F.infinity < 2 ^ (F.exponentBits + F.fractionBits) := by
  rw [infinity, pow_add]
  have h1 := Nat.two_pow_pos F.exponentBits
  exact Nat.mul_lt_mul_of_pos_right (by omega) (Nat.two_pow_pos _)

theorem abs_value_sub {x : ℚ} {u : ℕ} (hx : F.Negative u → x ≤ 0)
    (hx' : ¬ F.Negative u → 0 ≤ x) :
    |F.value u - x| = |F.grid (F.magnitudeBits u) - (|x|)| := by
  by_cases h : F.Negative u
  · rw [value_of_negative h, abs_of_nonpos (hx h), ← abs_neg]
    congr 1
    ring
  · rw [value_of_not_negative h, abs_of_nonneg (hx' h)]

theorem abs_value_sub_of_opposite {x : ℚ} {u : ℕ} (hx : F.Negative u → 0 ≤ x)
    (hx' : ¬ F.Negative u → x ≤ 0) :
    |F.value u - x| = F.grid (F.magnitudeBits u) + |x| := by
  have hg := grid_nonneg (F := F) (F.magnitudeBits u)
  by_cases h : F.Negative u
  · rw [value_of_negative h, abs_of_nonneg (hx h), abs_of_nonpos (by linarith [hx h])]
    ring
  · rw [value_of_not_negative h, abs_of_nonpos (hx' h), abs_of_nonneg (by linarith [hx' h])]
    ring

/-- With the sign of the argument, the nearest words are the nearest magnitudes. -/
theorem nearestWord_iff {x : ℚ} {w : ℕ} (hx : F.Negative w → x ≤ 0)
    (hx' : ¬ F.Negative w → 0 ≤ x) :
    F.NearestWord x w ↔ Nearest F.grid F.infinity |x| (F.magnitudeBits w) := by
  have same (u : ℕ) (h : F.Negative u ↔ F.Negative w) :
      |F.value u - x| = |F.grid (F.magnitudeBits u) - (|x|)| :=
    abs_value_sub (fun hu ↦ hx (h.1 hu)) (fun hu ↦ hx' (fun hw ↦ hu (h.2 hw)))
  have other (u : ℕ) (h : ¬ (F.Negative u ↔ F.Negative w)) :
      |F.value u - x| = F.grid (F.magnitudeBits u) + |x| :=
    abs_value_sub_of_opposite (fun hu ↦ hx' (by tauto)) (fun hu ↦ hx (by tauto))
  constructor
  · intro hw
    refine ⟨hw.finite, fun k hk ↦ ?_, fun k hk hne he ↦ ?_⟩
    all_goals obtain ⟨u, rfl, hs⟩ := exists_word (F := F) k (hk.trans infinity_lt) (F.Negative w)
    · rw [← same w Iff.rfl, ← same u hs]
      exact hw.near u hk
    · refine hw.even u hk (fun hv ↦ hne ?_) (by rw [same w Iff.rfl, same u hs, he])
      rw [← F.grid_strictMono.injective.eq_iff, ← abs_value, ← abs_value, hv]
  · intro hn
    have h0 : |F.grid 0 - (|x|)| = |x| := by simp
    have hz : |F.value w - x| ≤ |x| := by
      rw [same w Iff.rfl]
      exact (hn.near 0 (Nat.zero_lt_of_lt hn.lt)).trans_eq h0
    refine ⟨hn.lt, fun u hu ↦ ?_, fun u hu hne he ↦ ?_⟩
    · by_cases hs : F.Negative u ↔ F.Negative w
      · rw [same w Iff.rfl, same u hs]
        exact hn.near _ hu
      · rw [other u hs]
        linarith [grid_nonneg (F := F) (F.magnitudeBits u)]
    · by_cases hs : F.Negative u ↔ F.Negative w
      · refine hn.even _ hu (fun hm ↦ hne ?_) (by rw [← same w Iff.rfl, ← same u hs, he])
        by_cases h : F.Negative w
        · rw [value_of_negative h, value_of_negative (hs.2 h), hm]
        · rw [value_of_not_negative h, value_of_not_negative (fun hu ↦ h (hs.1 hu)), hm]
      · -- Across zero only zero itself can be as near.
        rw [other u hs] at he
        have hg := grid_nonneg (F := F) (F.magnitudeBits u)
        by_cases hm : F.magnitudeBits w = 0
        · rw [hm]
          exact Even.zero
        · refine hn.even 0 (Nat.zero_lt_of_lt hn.lt) (Ne.symm hm) ?_
          rw [h0, ← same w Iff.rfl]
          linarith

/-- Rounding on the grid that counts infinity as its last point. -/
theorem CorrectlyRounded.of_nearest {v w : ℕ} (hG : Even G.infinity) (hpos : 0 < G.infinity)
    (hv : F.IsFinite v) (hs : G.Negative w ↔ F.Negative v)
    (hn : Nearest G.grid (G.infinity + 1) |F.value v| (G.magnitudeBits w)) :
    CorrectlyRounded F G v w := by
  obtain ⟨N, hN⟩ : ∃ N, G.infinity = N + 1 := ⟨G.infinity - 1, by omega⟩
  have hover : G.overflow = (G.grid N + G.grid (N + 1)) / 2 := by
    rw [BinaryFormat.overflow, hN, Nat.add_sub_cancel]
  rw [hN] at hn hG
  have hlast := Nearest.last G.grid_strictMono hG hn
  refine ⟨hs, fun h ↦ ?_, fun h ↦ ?_, fun _ h ↦ ?_⟩
  · unfold IsNaN IsFinite at *
    omega
  · rcases h with h | ⟨-, h⟩
    · unfold IsInfinite IsFinite at *
      omega
    · exact (hlast.1 (hover ▸ h)).trans hN.symm
  · refine (nearestWord_iff (fun h ↦ ?_) (fun h ↦ ?_)).2 (hN ▸ hlast.2 (hover ▸ h))
    · rw [value_of_negative (hs.1 h)]
      linarith [grid_nonneg (F := F) (F.magnitudeBits v)]
    · rw [value_of_not_negative (fun h' ↦ h (hs.2 h'))]
      exact grid_nonneg _

/-- Correct rounding settles the sign and the magnitude bits. -/
theorem CorrectlyRounded.unique {v w u : ℕ} (hv : ¬ F.IsNaN v)
    (hw : CorrectlyRounded F G v w) (hu : CorrectlyRounded F G v u) :
    G.magnitudeBits w = G.magnitudeBits u := by
  by_cases ho : F.IsInfinite v ∨ F.IsFinite v ∧ G.overflow ≤ |F.value v|
  · exact (hw.overflow ho).trans (hu.overflow ho).symm
  · have hf : F.IsFinite v := by
      unfold IsNaN IsInfinite IsFinite at *
      omega
    have hlt : |F.value v| < G.overflow := by
      by_contra h
      exact ho (.inr ⟨hf, not_lt.1 h⟩)
    have magnitude {t : ℕ} (ht : CorrectlyRounded F G v t) :
        Nearest G.grid G.infinity |F.value v| (G.magnitudeBits t) := by
      refine (nearestWord_iff (fun hs ↦ ?_) (fun hs ↦ ?_)).1 (ht.nearest hf hlt)
      · rw [value_of_negative (ht.sign.1 hs)]
        linarith [grid_nonneg (F := F) (F.magnitudeBits v)]
      · rw [value_of_not_negative (fun h ↦ hs (ht.sign.2 h))]
        exact grid_nonneg _
    exact (magnitude hw).unique G.grid_strictMono (magnitude hu)

end BinaryFormat

end Thvm.Rounding
