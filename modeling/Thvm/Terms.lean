import Mathlib.Algebra.Order.Ring.Int
import Mathlib.Logic.Function.Basic
import Mathlib.Tactic.Common

/-!
# Terms

A term is a word of four fields: a substitution bit, a tag, an extension and a
value. What the value means depends on the tag; for nodes it is the location of
their cells.
-/

namespace Thvm

/-- How a call can fail to return: the fatal exit of the runtime, or a loop past its bound. -/
inductive Halt
  | fatal
  | rounds
  deriving DecidableEq, Repr

/-- A binding in the error monad, taken apart. -/
theorem bind_ok {α β : Type} {x : Except Halt α} {f : α → Except Halt β} {b : β}
    (h : x >>= f = .ok b) : ∃ a, x = .ok a ∧ f a = .ok b := by
  cases x with
  | error e => cases h
  | ok a => exact ⟨a, rfl, h⟩

inductive Tag
  | app | lam | var | era | dp0 | dp1 | sup | dup | ten | uop | num | ref | alo | op2 | mat
  | eql | and | or | any | inc | ctr | when | fvr | bri | ann | pri
  | fOp2Num | fEqlR | fUopChild | dsu | ddu | fDsuLab | fDduLab | bj0 | bj1 | gcFwd
  deriving DecidableEq, Repr

structure Term where
  sub : Bool
  tag : Tag
  ext : ℕ
  val : ℕ
  deriving DecidableEq, Repr

/-- `EXT_MASK` keeps 18 bits and `VAL_MASK` 38. -/
def termNew (sub : Bool) (tag : Tag) (ext val : ℕ) : Term :=
  ⟨sub, tag, ext % 2 ^ 18, val % 2 ^ 38⟩

/-- The word without a bit set. -/
def Term.zero : Term := ⟨false, .app, 0, 0⟩

/-- The 64 bits of a term; the tags are numbered in their order. -/
def Term.bits (t : Term) : ℕ :=
  (if t.sub then 2 ^ 63 else 0) + t.tag.ctorIdx * 2 ^ 56 + t.ext * 2 ^ 38 + t.val

/-- `DUP_GRAD_FLAG` in the extension of a projection. -/
def dupGradFlag (ext : ℕ) : Bool := ext.testBit 17

def dtInt32 : ℕ := 5

/-- A number as a term. -/
def termNum (n : ℕ) : Term := termNew false .num dtInt32 n

def maxDim : ℕ := 8

namespace Uop

@[match_pattern] def kernel : ℕ := 1
@[match_pattern] def const : ℕ := 2
@[match_pattern] def reshape : ℕ := 3
@[match_pattern] def permute : ℕ := 4
@[match_pattern] def expand : ℕ := 5
@[match_pattern] def pad : ℕ := 6
@[match_pattern] def shrink : ℕ := 7
@[match_pattern] def flip : ℕ := 8
@[match_pattern] def add : ℕ := 9
@[match_pattern] def mul : ℕ := 10
@[match_pattern] def neg : ℕ := 11
@[match_pattern] def recip : ℕ := 12
@[match_pattern] def exp2 : ℕ := 13
@[match_pattern] def log2 : ℕ := 14
@[match_pattern] def sqrt : ℕ := 15
@[match_pattern] def cmplt : ℕ := 16
@[match_pattern] def reduce : ℕ := 17
@[match_pattern] def cmpeq : ℕ := 20
@[match_pattern] def load : ℕ := 21
@[match_pattern] def assign : ℕ := 22
@[match_pattern] def cast : ℕ := 23
@[match_pattern] def bitcast : ℕ := 24
@[match_pattern] def range : ℕ := 25
@[match_pattern] def indexE : ℕ := 26
@[match_pattern] def iadd : ℕ := 27
@[match_pattern] def isub : ℕ := 28
@[match_pattern] def imul : ℕ := 29
@[match_pattern] def idiv : ℕ := 30
@[match_pattern] def imod : ℕ := 31
@[match_pattern] def ilt : ℕ := 32
@[match_pattern] def iand : ℕ := 33
@[match_pattern] def iwhere : ℕ := 34
@[match_pattern] def invalid : ℕ := 35
@[match_pattern] def buffer : ℕ := 36
@[match_pattern] def store : ℕ := 37
@[match_pattern] def after : ℕ := 38
@[match_pattern] def opt : ℕ := 39
@[match_pattern] def bufferize : ℕ := 40
@[match_pattern] def ior : ℕ := 41
@[match_pattern] def ixor : ℕ := 42
@[match_pattern] def detach : ℕ := 43
@[match_pattern] def vconst : ℕ := 44
@[match_pattern] def unroll : ℕ := 45
@[match_pattern] def contract : ℕ := 46
@[match_pattern] def gep : ℕ := 47
@[match_pattern] def stack : ℕ := 48
@[match_pattern] def placeholder : ℕ := 49
@[match_pattern] def end' : ℕ := 50
@[match_pattern] def ishr : ℕ := 51
@[match_pattern] def copy : ℕ := 52

end Uop

end Thvm
