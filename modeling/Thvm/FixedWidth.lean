import Mathlib.Data.Nat.ModEq
import Mathlib.Tactic.Common

/-!
# Unsigned arithmetic of fixed width

The `u32` and `u64` operations of C on natural numbers, with their wrap-around.
-/

namespace Thvm.FixedWidth

def add64 (a b : ℕ) : ℕ := (a + b) % 2 ^ 64

/-- `u64` subtraction, wrapping below zero. -/
def sub64 (a b : ℕ) : ℕ := (a + 2 ^ 64 - b) % 2 ^ 64

def inc64 (n : ℕ) : ℕ := (n + 1) % 2 ^ 64

def dec32 (n : ℕ) : ℕ := (n + 2 ^ 32 - 1) % 2 ^ 32

theorem add64_of_lt {a b : ℕ} (h : a + b < 2 ^ 64) : add64 a b = a + b := Nat.mod_eq_of_lt h

theorem sub64_of_le {a b : ℕ} (h : b ≤ a) (ha : a < 2 ^ 64) : sub64 a b = a - b := by
  have he : a + 2 ^ 64 - b = (a - b) + 2 ^ 64 := by omega
  rw [sub64, he, Nat.add_mod_right, Nat.mod_eq_of_lt (by omega)]

theorem inc64_of_lt {n : ℕ} (h : n + 1 < 2 ^ 64) : inc64 n = n + 1 := Nat.mod_eq_of_lt h

theorem inc64_le (n : ℕ) : inc64 n ≤ n + 1 := Nat.mod_le _ _

theorem inc64_ne (n : ℕ) : inc64 n ≠ n := by
  unfold inc64
  omega

theorem dec32_of_pos {n : ℕ} (hpos : 0 < n) (h : n < 2 ^ 32) : dec32 n = n - 1 := by
  unfold dec32
  omega

end Thvm.FixedWidth
