import Mathlib.Data.List.Sort
import Thvm.FirstOrderTerms

/-!
# Generated precedences

`atp_auto_precedence`, `atp_occurrence_precedence` and `atp_reverse_frequency_precedence` rank
the symbols of a list of equations. All three find the symbols by a walk with a stack of fixed
size, sort them by a score and number them in that order.
-/

namespace Thvm.Prec

def waldMaxSymbols : ℕ := 64

/-- The `stack` of the walks. -/
def precStack : ℕ := 256

structure AtpSymProps where
  seen : Bool := false
  arity : ℕ := 0
  isCommutative : Bool := false
  isAssociative : Bool := false
  isIdempotent : Bool := false
  hasLeftUnit : Bool := false
  hasRightUnit : Bool := false
  hasInverse : Bool := false
  isUnitSymbol : Bool := false
  isInverseSymbol : Bool := false
  distributes : Bool := false
  distributesOver : ℕ := 0
  deriving DecidableEq, Repr, Inhabited

/-! ### Structural predicates -/

def precIsFvr (t : FTerm) (id : ℕ) : Bool := t = .fvr id

/-- The label and the arguments of a binary constructor. -/
def precIsBinop : FTerm → Option (ℕ × FTerm × FTerm)
  | .node label [a, b] => some (label, a, b)
  | _ => none

def precIsUnary : FTerm → Option (ℕ × FTerm)
  | .node label [a] => some (label, a)
  | _ => none

def precIsConst : FTerm → Option ℕ
  | .node label [] => some label
  | _ => none

/-- `f(x0,x1) = f(x1,x0)`. -/
def precIsCommutativity (l r : FTerm) : Option ℕ := do
  let (fl, l0, l1) ← precIsBinop l
  let (fr, r0, r1) ← precIsBinop r
  if fl = fr && precIsFvr l0 0 && precIsFvr l1 1 && precIsFvr r0 1 && precIsFvr r1 0 then
    some fl
  else none

/-- `a = f(f(x0,x1),x2)` and `b = f(x0,f(x1,x2))`. -/
def precAssocDir (a b : FTerm) (f : ℕ) : Bool :=
  a = .ctr f [.ctr f [.fvr 0, .fvr 1], .fvr 2] && b = .ctr f [.fvr 0, .ctr f [.fvr 1, .fvr 2]]

def precIsAssociativity (l r : FTerm) : Option ℕ := do
  let (fl, _) ← (precIsBinop l).or (precIsBinop r)
  if precAssocDir l r fl || precAssocDir r l fl then some fl else none

/-- `f(x0,x0) = x0`. -/
def precIsIdempotence (l r : FTerm) : Option ℕ := do
  let (fl, l0, l1) ← precIsBinop l
  if precIsFvr l0 0 && precIsFvr l1 0 && precIsFvr r 0 then some fl else none

/-- `f(e,x0) = x0` for the side `0`, and `f(x0,e) = x0` for the side `1`. -/
def precIsIdentity (l r : FTerm) (side : ℕ) : Option (ℕ × ℕ) := do
  let (fl, l0, l1) ← precIsBinop l
  let e ← precIsConst (if side = 0 then l0 else l1)
  if precIsFvr r 0 && precIsFvr (if side = 0 then l1 else l0) 0 then some (fl, e) else none

/-- `f(i(x0),x0) = e` for the side `0`, and `f(x0,i(x0)) = e` for the side `1`. -/
def precIsInverse (l r : FTerm) (side : ℕ) : Option (ℕ × ℕ × ℕ) := do
  let (fl, l0, l1) ← precIsBinop l
  let e ← precIsConst r
  let (i, x) ← precIsUnary (if side = 0 then l0 else l1)
  if precIsFvr (if side = 0 then l1 else l0) 0 && precIsFvr x 0 then some (fl, i, e) else none

/-- `a = f(x0,g(x1,x2))` and `b = g(f(x0,x1),f(x0,x2))`. -/
def precDistribDir (a b : FTerm) : Option (ℕ × ℕ) := do
  let (f, a0, inner) ← precIsBinop a
  let (g, i0, i1) ← precIsBinop inner
  if precIsFvr a0 0 && precIsFvr i0 1 && precIsFvr i1 2 && f ≠ g &&
      b = .ctr g [.ctr f [.fvr 0, .fvr 1], .ctr f [.fvr 0, .fvr 2]] then
    some (f, g)
  else none

def precIsDistributivity (l r : FTerm) : Option (ℕ × ℕ) :=
  (precDistribDir l r).or (precDistribDir r l)

/-! ### The walk -/

/-- The loop over the children of a popped node ends when the stack is full. The stack has its
top first. -/
def pushChildren : List FTerm → List FTerm → List FTerm
  | [], stack => stack
  | c :: cs, stack =>
    if stack.length < precStack then pushChildren cs (c :: stack) else stack

section Walk

variable {S : Type} (visit : ℕ → ℕ → S → S)

/-- The rounds of a walk that visits the labels and arities of the popped constructors. -/
def walk : ℕ → List FTerm → S → S
  | 0, _, s => s
  | _ + 1, [], s => s
  | n + 1, .leaf _ :: stack, s => walk n stack s
  | n + 1, .node label args :: stack, s =>
    walk n (pushChildren args stack) (visit label args.length s)

/-- The walk from a stack; each round pops one node. -/
def walkFrom (stack : List FTerm) : S → S := walk visit (stack.map TermTree.size).sum stack

end Walk

/-! ### `atp_analyze_axioms` -/

/-- A record is changed when the label is one of the table. -/
def setProp (g : AtpSymProps → AtpSymProps) (label : Option ℕ) (out : List AtpSymProps) :
    List AtpSymProps :=
  match label with
  | some label => out.modify label g
  | none => out

def seeSymbol (label arity : ℕ) (out : List AtpSymProps) : List AtpSymProps :=
  setProp (fun p ↦ { p with seen := true, arity := arity }) (some label) out

def setUnit (g : AtpSymProps → AtpSymProps) (found : Option (ℕ × ℕ)) (out : List AtpSymProps) :
    List AtpSymProps :=
  match found with
  | some (f, e) =>
    if f < out.length then
      setProp (fun p ↦ { p with isUnitSymbol := true }) (some e) (setProp g (some f) out)
    else out
  | none => out

def setInverse (found : Option (ℕ × ℕ × ℕ)) (out : List AtpSymProps) : List AtpSymProps :=
  match found with
  | some (f, i, e) =>
    setUnit (fun p ↦ { p with hasInverse := true }) (some (f, e))
      (if f < out.length then setProp (fun p ↦ { p with isInverseSymbol := true }) (some i) out
        else out)
  | none => out

/-- One pass of the loop over `swap`. -/
def tagUnits (a b : FTerm) (out : List AtpSymProps) : List AtpSymProps :=
  let out := setUnit (fun p ↦ { p with hasLeftUnit := true }) (precIsIdentity a b 0) out
  let out := setUnit (fun p ↦ { p with hasRightUnit := true }) (precIsIdentity a b 1) out
  let out := setInverse (precIsInverse a b 0) out
  setInverse (precIsInverse a b 1) out

/-- The property tagging of one equation. -/
def tagEquation (l r : FTerm) (out : List AtpSymProps) : List AtpSymProps :=
  let out := setProp (fun p ↦ { p with isCommutative := true }) (precIsCommutativity l r) out
  let out := setProp (fun p ↦ { p with isAssociative := true }) (precIsAssociativity l r) out
  let out := setProp (fun p ↦ { p with isIdempotent := true }) (precIsIdempotence l r) out
  let out := tagUnits l r out
  let out := tagUnits r l out
  match precIsDistributivity l r with
  | some (f, g) =>
    setProp (fun p ↦ { p with distributes := true, distributesOver := g }) (some f) out
  | none => out

/-- Both sides of an equation are walked from one stack, the right one on top. -/
def atpAnalyzeAxioms (eqns : List (FTerm × FTerm)) (nLabels : ℕ) : List AtpSymProps :=
  eqns.foldl (fun out e ↦ tagEquation e.1 e.2 (walkFrom seeSymbol [e.2, e.1] out))
    (List.replicate nLabels {})

/-! ### Ranks -/

/-- The insertion sort of the scored labels. The sorted part is kept from its end, where the
next entry moves in before the larger scores. -/
def sortScores (entries : List (ℕ × ℕ)) : List (ℕ × ℕ) :=
  (entries.foldl (fun sorted x ↦ sorted.orderedInsert (fun a b ↦ b.1 ≤ a.1) x) []).reverse

/-- The rank of each label of `order` goes into the table, by its position. -/
def assignRanks (rank : ℕ → ℕ) (order prec : List ℕ) : List ℕ :=
  order.zipIdx.foldl (fun prec x ↦ prec.set x.1 (rank x.2)) prec

/-- The labels below `cap` that have been seen, in ascending order of their scores. -/
def rankOrder (seen : ℕ → Bool) (score : ℕ → ℕ) (cap : ℕ) : List ℕ :=
  (sortScores (((List.range cap).filter seen).map fun l ↦ (score l, l))).map Prod.snd

/-- The table with its first `cap` entries set to zero. -/
def clearPrec (cap : ℕ) (prec : List ℕ) : List ℕ := List.replicate cap 0 ++ prec.drop cap

/-- The layers of the score. -/
def symScore (p : AtpSymProps) (l : ℕ) : ℕ :=
  (if p.isInverseSymbol then 1 else 0) <<< 40 ||| (if p.distributes then 1 else 0) <<< 36 |||
    (if 15 < p.arity then 15 else p.arity) <<< 28 |||
    (if p.isCommutative && p.isAssociative then 0 else 1) <<< 24 |||
    (if p.isUnitSymbol then 1 else 0) <<< 20 ||| (l &&& 0xFFFFF)

def atpGeneratePrecedence (props : List AtpSymProps) (nLabels : ℕ) (prec : List ℕ) :
    ℕ × List ℕ :=
  let cap := min nLabels waldMaxSymbols
  let order := rankOrder (fun l ↦ (props.getD l {}).seen) (fun l ↦ symScore (props.getD l {}) l) cap
  (order.length, assignRanks (fun i ↦ i + 1) order (clearPrec cap prec))

def atpAutoPrecedence (eqns : List (FTerm × FTerm)) (nLabels : ℕ) (prec : List ℕ) : ℕ × List ℕ :=
  let cap := min nLabels waldMaxSymbols
  atpGeneratePrecedence (atpAnalyzeAxioms eqns cap) cap prec

/-- The counters have 32 bits. -/
def countSymbol (label _arity : ℕ) (count : List ℕ) : List ℕ :=
  count.modify label fun c ↦ (c + 1) % 2 ^ 32

/-- The occurrences that the walks find, for the labels below `nLabels`. -/
def occurrenceCounts (eqns : List (FTerm × FTerm)) (nLabels : ℕ) : List ℕ :=
  eqns.foldl
    (fun count e ↦ walkFrom countSymbol [e.2] (walkFrom countSymbol [e.1] count))
    (List.replicate nLabels 0)

/-- The labels in ascending order of their counts, and equal counts in that of the labels. -/
def frequencyOrder (eqns : List (FTerm × FTerm)) (nLabels : ℕ) : List ℕ :=
  let count := occurrenceCounts eqns nLabels
  rankOrder (fun l ↦ count.getD l 0 ≠ 0) (fun l ↦ count.getD l 0 <<< 32 ||| l) nLabels

def atpOccurrencePrecedence (eqns : List (FTerm × FTerm)) (nLabels : ℕ) (prec : List ℕ) :
    ℕ × List ℕ :=
  let nLabels := min nLabels waldMaxSymbols
  let order := frequencyOrder eqns nLabels
  (order.length, assignRanks (fun i ↦ order.length - i) order (clearPrec nLabels prec))

def atpReverseFrequencyPrecedence (eqns : List (FTerm × FTerm)) (nLabels : ℕ) (prec : List ℕ) :
    ℕ × List ℕ :=
  let nLabels := min nLabels waldMaxSymbols
  let order := frequencyOrder eqns nLabels
  (order.length, assignRanks (fun i ↦ i + 1) order (clearPrec nLabels prec))

example : atpOccurrencePrecedence [(.ctr 1 [.ctr 1 [.ctr 0 []]], .ctr 2 [])] 3 [9, 9, 9] =
    (3, [3, 1, 2]) := by
  decide +kernel

end Thvm.Prec
