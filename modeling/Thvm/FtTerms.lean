import Thvm.FtArena
import Thvm.FirstOrderTerms
import Thvm.Terms

/-!
# Flat terms in cells

Terms are built into the cells of an arena, read back from them, compared and hashed. A
number is a node with a marker for its symbol, over two constants.
-/

namespace Thvm.Ft

open ThreadedTrees

/-- `WF_VAR_BIT`. -/
def varBit : ℕ := 2 ^ 31

/-- `ATPFT_NUM_MARKER`. -/
def numMarker : ℕ := 2 ^ 30

/-- `ft_is_var`. -/
def ftIsVar (c : FtCell) : Bool := c.data.sym.testBit 31

/-- `ft_var_id` and `ft_ctr_sym`: the symbol without the variable bit. -/
def ftSym (c : FtCell) : ℕ := c.data.sym % varBit

section Build

variable (moves : ℕ → Bool)

/-- `ftnew_var`. -/
def ftnewVar (a : AtpFt) (varId : ℕ) (scratch : Bool) : Option (Addr × AtpFt) := do
  let (c, a) ← a.allocOne moves scratch
  some (c, a.put c ⟨none, c, ⟨varBit + varId % varBit, 0, false⟩⟩)

/-- `ftnew_const`. -/
def ftnewConst (a : AtpFt) (sym : ℕ) (scratch : Bool) : Option (Addr × AtpFt) := do
  let (c, a) ← a.allocOne moves scratch
  some (c, a.put c ⟨none, c, ⟨sym % varBit, 0, true⟩⟩)

/-- `ftnew_ctr`: a term is ground when its arguments are. -/
def ftnewCtr (a : AtpFt) (sym arity : ℕ) (kids : List Addr) (scratch : Bool) :
    Option (Addr × AtpFt) := do
  let (c, a) ← a.allocOne moves scratch
  if arity = 0 then some (c, a.put c ⟨none, c, ⟨sym % varBit, 0, true⟩⟩)
  else
    let first ← kids.head?
    let k ← a.mem first
    let (mem, prevEnd, ground) ← stitch (fun ground d => ground && d.ground) a.mem k.fin
      k.data.ground (kids.take arity).tail
    let _ ← mem prevEnd
    some (c, { a with mem := setNext mem prevEnd none }.put c
      ⟨some first, prevEnd, ⟨sym % varBit, arity, ground⟩⟩)

mutual

/-- `ft_from_term_rec`; the number of arguments is cast to `u16`. -/
def ftFromTerm (scratch : Bool) : FTerm → AtpFt → Option (Addr × AtpFt)
  | .leaf (.fvr id), a => ftnewVar moves a id scratch
  | .leaf (.num dtype value), a => do
    let (dtCell, a) ← ftnewConst moves a (dtype % varBit) scratch
    let (rawCell, a) ← ftnewConst moves a (value % 2 ^ 32 % varBit) scratch
    ftnewCtr moves a numMarker 2 [dtCell, rawCell] scratch
  | .node label args, a =>
    if args.length = 0 then ftnewConst moves a label scratch
    else do
      let (kids, a) ← ftFromTermKids scratch args a
      ftnewCtr moves a label (args.length % 2 ^ 16) kids scratch

def ftFromTermKids (scratch : Bool) : List FTerm → AtpFt → Option (List Addr × AtpFt)
  | [], a => some ([], a)
  | t :: ts, a => do
    let (kid, a) ← ftFromTerm scratch t a
    let (kids, a) ← ftFromTermKids scratch ts a
    some (kid :: kids, a)

end

end Build

section Read

variable (m : FtMemory)

/-- `ft_to_term_rec`, over a number of levels. -/
def ftToTerm : ℕ → Addr → Option FTerm
  | 0, _ => none
  | n + 1, x => do
    let c ← m x
    if ftIsVar c then some (.fvr (ftSym c % 2 ^ 18))
    else if ftSym c = numMarker ∧ c.data.arity = 2 then
      let dtCell ← c.next
      let d ← m dtCell
      let e ← m d.fin
      let rawCell ← e.next
      let r ← m rawCell
      some (.num (ftSym d % 2 ^ 18) (ftSym r % 2 ^ 38))
    else if c.data.arity = 0 then some (.ctr (ftSym c % 2 ^ 18) [])
    else
      let kids ← mapArgs m (ftToTerm n) c.data.arity c.next
      some (.ctr (ftSym c % 2 ^ 18) kids)

/-- The lockstep loop of `ft_eq` over a number of cells. -/
def ftEqLoop (xEnd : Option Addr) : ℕ → Option Addr → Option Addr → Option Bool
  | 0, _, _ => none
  | n + 1, px, py =>
    if px = xEnd then some true
    else match py with
      | none => some false
      | some y => do
        let c ← px.bind m
        let d ← m y
        if c.data.sym ≠ d.data.sym ∨ c.data.arity ≠ d.data.arity then some false
        else ftEqLoop xEnd n c.next d.next

/-- `ft_eq` of two cells. -/
def ftEq (n : ℕ) (x y : Addr) : Option Bool :=
  if x = y then some true
  else do
    let c ← m x
    let e ← m c.fin
    ftEqLoop m e.next n (some x) (some y)

def fnvOffset : ℕ := 0xcbf29ce484222325
def fnvPrime : ℕ := 0x100000001b3
def arityMix : ℕ := 0x9e3779b97f4a7c15
def fvrTag : ℕ := 0xfacefaceface

/-- The loop that mixes the hashes of the arguments into that of the symbol. -/
def mixArgs (sym : ℕ) (hs : List ℕ) : ℕ :=
  hs.foldl (fun h k => (h ^^^ k) * fnvPrime % 2 ^ 64) (fnvOffset ^^^ sym * fnvPrime % 2 ^ 64)

/-- `ft_hash` of a cell, over a number of levels. -/
def ftHash : ℕ → Addr → Option ℕ
  | 0, _ => none
  | n + 1, x => do
    let c ← m x
    if ftIsVar c then some (fvrTag ^^^ ftSym c * fnvPrime % 2 ^ 64)
    else
      let hs ← mapArgs m (ftHash n) c.data.arity c.next
      some (mixArgs (ftSym c) hs ^^^ c.data.arity * arityMix % 2 ^ 64)

end Read

mutual

/-- `atp_term_struct_hash`. -/
def atpTermStructHash : FTerm → ℕ
  | .leaf (.fvr id) => fvrTag ^^^ id * fnvPrime % 2 ^ 64
  | .leaf (.num _ _) => 0xdeadbeefcafebabe ^^^ Tag.num.ctorIdx * fnvPrime % 2 ^ 64
  | .node label args =>
    mixArgs label (structHashes args) ^^^ args.length * arityMix % 2 ^ 64

def structHashes : List FTerm → List ℕ
  | [] => []
  | t :: ts => atpTermStructHash t :: structHashes ts

end

/-- A term as its cells give it: ids of variables at the leaves, symbols at the nodes. -/
abbrev CellTree := TermTree ℕ ℕ

def ftCoding : Coding ℕ ℕ CellData where
  leaf id d := id < varBit ∧ d.sym = varBit + id ∧ d.arity = 0
  node sym n d := sym < varBit ∧ d.sym = sym ∧ d.arity = n

mutual

/-- The tree that `ft_from_term` builds for a term. -/
def cellTree : FTerm → CellTree
  | .leaf (.fvr id) => .leaf (id % varBit)
  | .leaf (.num dtype value) =>
    .node numMarker [.node (dtype % varBit) [], .node (value % 2 ^ 32 % varBit) []]
  | .node label args => .node (label % varBit) ((cellTrees args).take (args.length % 2 ^ 16))

def cellTrees : List FTerm → List CellTree
  | [] => []
  | t :: ts => cellTree t :: cellTrees ts

end

mutual

/-- The number of cells that `ft_from_term` takes. -/
def cellCount : FTerm → ℕ
  | .leaf (.fvr _) => 1
  | .leaf (.num _ _) => 3
  | .node _ args => 1 + cellCounts args

def cellCounts : List FTerm → ℕ
  | [] => 0
  | t :: ts => cellCount t + cellCounts ts

end

end Thvm.Ft
