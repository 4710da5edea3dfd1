import Mathlib.Data.BitVec
import Mathlib.Data.Int.Bitwise
import Mathlib.Data.Int.Init
import Mathlib.Tactic.Common

/-!
# Index expressions

The integer UOps of an index, and their values in the rendered C: signed 32-bit arithmetic
on loop variables. There is no value where the C code overflows, divides by zero, shifts too
far or selects a masked branch.
-/

namespace Thvm.Index

/-- The integer binary UOps. -/
inductive IntOp
  | iadd | isub | imul | idiv | imod | ilt | iand | ior | ixor | ishr
  deriving DecidableEq, Repr

/-- The parts of a UOp DAG that the estimators look at, as a tree. A RANGE has its axis and
the packed extent; `other` is any other term. -/
inductive IndexExpr
  | num (val : ℕ)
  | const (dtype bits : ℕ)
  | range (axis ext : ℕ)
  | bin (op : IntOp) (a b : IndexExpr)
  | iwhere (cond x y : IndexExpr)
  | invalid
  | other (op : ℕ)
  deriving DecidableEq, Repr

/-- `(i32)` of a word. -/
def toI32 (n : ℕ) : ℤ := (BitVec.ofNat 32 n).toInt

/-- `dtype_is_int`: the signed and unsigned rows of the table and the packed nibbles. -/
def dtypeIsInt (dt : ℕ) : Bool := (1 ≤ dt && dt ≤ 8) || dt = 15 || dt = 16

/-! ## Extents -/

/-- `KVAR_FLAG`. -/
def kvarFlag : ℕ := 2 ^ 31

/-- `kvar_pack_extent`. -/
def kvarPackExtent (varId : ℕ) : ℕ := kvarFlag + varId % kvarFlag

/-- `kvar_extent_is_var`. -/
def kvarExtentIsVar (packed : ℕ) : Bool := packed.testBit 31

/-- `kvar_extent_var_id`. -/
def kvarExtentVarId (packed : ℕ) : ℕ := if kvarExtentIsVar packed then packed % kvarFlag else 0

/-- `kvar_extent_static`, with the registry's `kvar_hi`. -/
def kvarExtentStatic (kvarHi : ℕ → ℕ) (packed : ℕ) : ℕ :=
  if kvarExtentIsVar packed then kvarHi (kvarExtentVarId packed) else packed

/-! ## Values -/

def inI32 (v : ℤ) : Option ℤ := if -2 ^ 31 ≤ v ∧ v < 2 ^ 31 then some v else none

/-- The bits of an `int`. -/
def bitwise (f : BitVec 32 → BitVec 32 → BitVec 32) (a b : ℤ) : ℤ :=
  (f (BitVec.ofInt 32 a) (BitVec.ofInt 32 b)).toInt

def evalOp : IntOp → ℤ → ℤ → Option ℤ
  | .iadd, a, b => inI32 (a + b)
  | .isub, a, b => inI32 (a - b)
  | .imul, a, b => inI32 (a * b)
  | .idiv, a, b => if b = 0 then none else inI32 (a.tdiv b)
  | .imod, a, b => if b = 0 then none else (inI32 (a.tdiv b)).map fun _ => a.tmod b
  | .ilt, a, b => some (if a < b then 1 else 0)
  | .iand, a, b => some (bitwise (· &&& ·) a b)
  | .ior, a, b => some (bitwise (· ||| ·) a b)
  | .ixor, a, b => some (bitwise (· ^^^ ·) a b)
  | .ishr, a, b => if 0 ≤ b ∧ b < 32 then some (a >>> b.toNat) else none

namespace IndexExpr

/-- The value under an assignment of the axes. -/
def eval (asg : ℕ → ℕ) : IndexExpr → Option ℤ
  | .num val => some (toI32 val)
  | .const dtype bits => if dtypeIsInt dtype then some (toI32 bits) else none
  | .range axis _ => inI32 (asg axis)
  | .bin op a b => do evalOp op (← eval asg a) (← eval asg b)
  | .iwhere cond x y => do if (← eval asg cond) ≠ 0 then eval asg x else eval asg y
  | .invalid => none
  | .other _ => none

/-- The axis and the packed extent of every RANGE leaf. -/
def ranges : IndexExpr → List (ℕ × ℕ)
  | .range axis ext => [(axis, ext)]
  | .bin _ a b => ranges a ++ ranges b
  | .iwhere cond x y => ranges cond ++ (ranges x ++ ranges y)
  | _ => []

/-- Every RANGE leaf is below its static extent. -/
def Admissible (kvarHi asg : ℕ → ℕ) (t : IndexExpr) : Prop :=
  ∀ r ∈ t.ranges, asg r.1 < kvarExtentStatic kvarHi (r.2 % 2 ^ 32)

variable {kvarHi asg : ℕ → ℕ} {op : IntOp} {a b cond x y : IndexExpr} {v : ℤ}

theorem Admissible.left (h : Admissible kvarHi asg (.bin op a b)) : Admissible kvarHi asg a :=
  fun r hr => h r (List.mem_append_left _ hr)

theorem Admissible.right (h : Admissible kvarHi asg (.bin op a b)) : Admissible kvarHi asg b :=
  fun r hr => h r (List.mem_append_right _ hr)

theorem Admissible.first (h : Admissible kvarHi asg (.iwhere cond x y)) :
    Admissible kvarHi asg x :=
  fun r hr => h r (List.mem_append_right _ (List.mem_append_left _ hr))

theorem Admissible.second (h : Admissible kvarHi asg (.iwhere cond x y)) :
    Admissible kvarHi asg y :=
  fun r hr => h r (List.mem_append_right _ (List.mem_append_right _ hr))

theorem eval_bin (h : eval asg (.bin op a b) = some v) :
    ∃ va vb, eval asg a = some va ∧ eval asg b = some vb ∧ evalOp op va vb = some v := by
  obtain ⟨va, ha, h⟩ := Option.bind_eq_some_iff.mp h
  obtain ⟨vb, hb, h⟩ := Option.bind_eq_some_iff.mp h
  exact ⟨va, vb, ha, hb, h⟩

/-- A select has the value of one of its branches. -/
theorem eval_iwhere (h : eval asg (.iwhere cond x y) = some v) :
    eval asg x = some v ∨ eval asg y = some v := by
  obtain ⟨vc, -, h⟩ := Option.bind_eq_some_iff.mp h
  split at h
  · exact .inl h
  · exact .inr h

end IndexExpr

theorem inI32_eq_some {v w : ℤ} (h : inI32 v = some w) : v = w ∧ -2 ^ 31 ≤ v ∧ v < 2 ^ 31 := by
  unfold inI32 at h
  split at h
  · next hv => exact ⟨Option.some.inj h, hv⟩
  · cases h

end Thvm.Index

/-!
## Interval inference on index expressions

Two estimators of the values of an index expression: a one-sided bound, with a test that
the value is not negative, and an interval computed with overflow checks.
-/

namespace Thvm.Index
namespace IndexExpr

/-- `uop_iconst_value`. -/
def iconstValue : IndexExpr → Option ℤ
  | .const dtype bits => if dtypeIsInt dtype then some (toI32 bits) else none
  | _ => none

/-- `uop_range_extent_into`. -/
def rangeExtentInto : IndexExpr → Option ℕ
  | .range _ ext => some (ext % 2 ^ 32)
  | _ => none

/-- `uop_is_invalid`. -/
def isInvalid : IndexExpr → Bool
  | .invalid => true
  | _ => false

/-- `uop_term_nonneg_d`. -/
def termNonnegD : IndexExpr → ℕ → Bool
  | .range _ _, depth => !(64 < depth : Bool)
  | .const dtype bits, depth =>
    !(64 < depth : Bool) && ((const dtype bits).iconstValue).any fun v => 0 ≤ v
  | .bin op a b, depth =>
    if 64 < depth then false
    else
      match op with
      | .iadd | .imul => termNonnegD a (depth + 1) && termNonnegD b (depth + 1)
      | .idiv | .imod =>
        match b.iconstValue with
        | none => false
        | some dv => if dv ≤ 0 then false else termNonnegD a (depth + 1)
      | .ishr =>
        match b.iconstValue with
        | none => false
        | some sft => if sft < 0 then false else termNonnegD a (depth + 1)
      | _ => false
  | _, _ => false

/-- `uop_term_nonneg`. -/
def termNonneg (t : IndexExpr) : Bool := termNonnegD t 0

/-- The recursion of `uop_term_max_value`; `norm` is what a sum or a product becomes. -/
def termMaxWith (norm : ℤ → ℤ) : IndexExpr → Option ℤ
  | .num val => some (toI32 val)
  | .range _ ext => if ext % 2 ^ 32 = 0 then none else some ((ext % 2 ^ 32 : ℕ) - 1)
  | .const dtype bits => (const dtype bits).iconstValue
  | .bin .iadd x y => do
    let a ← termMaxWith norm x
    let b ← termMaxWith norm y
    some (norm (a + b))
  | .bin .isub x y => if y.termNonneg then termMaxWith norm x else none
  | .bin .imul x y => do
    let a ← termMaxWith norm x
    let b ← termMaxWith norm y
    if a < 0 ∨ b < 0 then none else some (norm (a * b))
  | .bin .idiv x y => do
    let dv ← y.iconstValue
    if dv ≤ 0 then none
    else do
      let a ← termMaxWith norm x
      if a < 0 then none else some (a.tdiv dv)
  | .bin .imod _ y => do
    let dv ← y.iconstValue
    if dv ≤ 0 then none else some (dv - 1)
  | .bin .ishr x y => do
    let sft ← y.iconstValue
    if sft < 0 ∨ 63 ≤ sft then none
    else do
      let a ← termMaxWith norm x
      if a < 0 then none else some (a >>> sft.toNat)
  | .iwhere _ x y => do
    let a ← termMaxWith norm x
    let b ← termMaxWith norm y
    some (if b < a then a else b)
  | _ => none

/-- An `i64` sum or product, which wraps around. -/
def wrap64 (v : ℤ) : ℤ := (BitVec.ofInt 64 v).toInt

/-- `uop_term_max_value`. -/
def termMaxValue (t : IndexExpr) : Option ℤ := termMaxWith wrap64 t

/-! ## Intervals -/

def fits64 (v : ℤ) : Bool := -2 ^ 63 ≤ v && v < 2 ^ 63

def chk (v : ℤ) : Option ℤ := if fits64 v then some v else none

/-- `uop_chk_add`. -/
def chkAdd (a b : ℤ) : Option ℤ := chk (a + b)

/-- `uop_chk_sub`. -/
def chkSub (a b : ℤ) : Option ℤ := chk (a - b)

/-- `uop_chk_mul`. -/
def chkMul (a b : ℤ) : Option ℤ := chk (a * b)

/-- `uop_floordiv_i64`. -/
def floordiv (a d : ℤ) : ℤ :=
  let q := a.tdiv d
  let r := a.tmod d
  if r ≠ 0 ∧ decide (r < 0) ≠ decide (d < 0) then q - 1 else q

/-- `uop_mul_corner_bounds`. -/
def mulCornerBounds (la ha lb hb : ℤ) : Option (ℤ × ℤ) := do
  let c₀ ← chkMul la lb
  let c₁ ← chkMul la hb
  let c₂ ← chkMul ha lb
  let c₃ ← chkMul ha hb
  some (min (min (min c₀ c₁) c₂) c₃, max (max (max c₀ c₁) c₂) c₃)

/-- A constant times an interval. -/
def scaleBounds (c l h : ℤ) : Option (ℤ × ℤ) :=
  if 0 ≤ c then do some (← chkMul c l, ← chkMul c h)
  else do some (← chkMul c h, ← chkMul c l)

/-- `uop_int_bounds_d`. -/
def intBoundsD (kvarHi : ℕ → ℕ) : IndexExpr → ℕ → Option (ℤ × ℤ)
  | .num val, depth => if 64 < depth then none else some (toI32 val, toI32 val)
  | .const dtype bits, depth =>
    if 64 < depth then none
    else do
      let v ← (const dtype bits).iconstValue
      some (v, v)
  | .range _ ext, depth =>
    if 64 < depth then none
    else
      let ext := kvarExtentStatic kvarHi (ext % 2 ^ 32)
      if ext = 0 then none else some (0, (ext : ℤ) - 1)
  | .bin op a b, depth =>
    if 64 < depth then none
    else
      match op with
      | .iadd => do
        let (la, ha) ← intBoundsD kvarHi a (depth + 1)
        let (lb, hb) ← intBoundsD kvarHi b (depth + 1)
        some (← chkAdd la lb, ← chkAdd ha hb)
      | .isub => do
        let (la, ha) ← intBoundsD kvarHi a (depth + 1)
        let (lb, hb) ← intBoundsD kvarHi b (depth + 1)
        some (← chkSub la hb, ← chkSub ha lb)
      | .imul => do
        let (la, ha) ← intBoundsD kvarHi a (depth + 1)
        let (lb, hb) ← intBoundsD kvarHi b (depth + 1)
        match a.iconstValue, b.iconstValue with
        | some c, _ => scaleBounds c lb hb
        | none, some c => scaleBounds c la ha
        | none, none => mulCornerBounds la ha lb hb
      | .idiv => do
        let d ← b.iconstValue
        if d ≤ 0 then none
        else do
          let (la, ha) ← intBoundsD kvarHi a (depth + 1)
          if la < 0 then
            if a.termNonneg then some (floordiv 0 d, floordiv ha d) else none
          else some (floordiv la d, floordiv ha d)
      | .imod => do
        let c ← b.iconstValue
        if c ≤ 0 then none
        else
          match intBoundsD kvarHi a (depth + 1) with
          | some (la, ha) =>
            if 0 ≤ la ∧ ha < c then some (la, ha)
            else if 0 ≤ la ∨ a.termNonneg then some (0, c - 1) else none
          | none => if a.termNonneg then some (0, c - 1) else none
      | .ishr => do
        let sft ← b.iconstValue
        if sft < 0 ∨ 63 ≤ sft then none
        else do
          let (la, ha) ← intBoundsD kvarHi a (depth + 1)
          if la < 0 then
            if a.termNonneg then some (0 >>> sft.toNat, ha >>> sft.toNat) else none
          else some (la >>> sft.toNat, ha >>> sft.toNat)
      | .ilt => some (0, 1)
      | .iand | .ior => do
        let (la, ha) ← intBoundsD kvarHi a (depth + 1)
        let (lb, hb) ← intBoundsD kvarHi b (depth + 1)
        if la < 0 ∨ 1 < ha ∨ lb < 0 ∨ 1 < hb then none else some (0, 1)
      | .ixor => none
  | .iwhere _ x y, depth =>
    if 64 < depth then none
    else if x.isInvalid && y.isInvalid then none
    else if y.isInvalid then intBoundsD kvarHi x (depth + 1)
    else if x.isInvalid then intBoundsD kvarHi y (depth + 1)
    else do
      let (lx, hx) ← intBoundsD kvarHi x (depth + 1)
      let (ly, hy) ← intBoundsD kvarHi y (depth + 1)
      some (if lx < ly then lx else ly, if hy < hx then hx else hy)
  | .invalid, _ => none
  | .other _, _ => none

/-- `uop_int_bounds`. -/
def intBounds (kvarHi : ℕ → ℕ) (t : IndexExpr) : Option (ℤ × ℤ) := intBoundsD kvarHi t 0

end IndexExpr
end Thvm.Index
