import Mathlib.Algebra.Order.Ring.Int
import Mathlib.Logic.Function.Basic
import Mathlib.Data.Int.Init
import Mathlib.Tactic.Common

/-!
# The enumeration of finite models

A relation is given as a list of clause sets over numbered cells. The search takes one
clause of every set, binds the cells of its literals and keeps, of the other sets, the
clauses that agree. When no set is left, the cells that are still free run through all
values.
-/

namespace Thvm.Ffmep

/-- The clause database. Offsets do not decrease, a literal names a cell and a value, and the
cells of the operators are cells. -/
structure FfmepDb where
  k : ℕ
  ncells : ℕ
  nops : ℕ
  opOff : ℕ → ℕ
  opSize : ℕ → ℕ
  lit : ℕ → ℤ
  clauseOff : ℕ → ℕ
  nsets : ℕ
  setOff : ℕ → ℕ
  setClause : ℕ → ℕ
  k_lt : k < 2 ^ 32
  ncells_lt : ncells < 2 ^ 32
  ops : ∀ op < nops, opOff op + opSize op ≤ ncells
  sets : ∀ s < nsets, setOff s ≤ setOff (s + 1)
  clauses : ∀ s < nsets, ∀ j, setOff s ≤ j → j < setOff (s + 1) →
    clauseOff (setClause j) ≤ clauseOff (setClause j + 1)
  lits : ∀ s < nsets, ∀ j, setOff s ≤ j → j < setOff (s + 1) →
    ∀ i, clauseOff (setClause j) ≤ i → i < clauseOff (setClause j + 1) →
      0 ≤ lit i ∧ lit i < k * ncells

def unset : ℕ := 0xffffffff

structure FfmepOut where
  cap : ℕ
  rows : List (List ℤ)

/-- The last bound cell comes first in `trail`. -/
structure FfmepSolver where
  assign : ℕ → ℕ
  trail : List ℕ
  out : FfmepOut

structure FfmepRemSet where
  set : ℕ
  clauses : List ℕ

/-! ## Literals and clauses -/

section Db

variable (db : FfmepDb)

def ffmepLitCell (lit : ℤ) : ℕ := (lit.tdiv db.k % 2 ^ 32).toNat

def ffmepLitVal (lit : ℤ) : ℕ := (lit.tmod db.k % 2 ^ 32).toNat

def clauseLits (clause : ℕ) : List ℤ :=
  (List.range (db.clauseOff (clause + 1) - db.clauseOff clause)).map fun i =>
    db.lit (db.clauseOff clause + i)

/-- The first difference of two lists decides. -/
def firstCmp {α : Type} (cmp : α → α → ℤ) : List α → List α → ℤ
  | a :: as, b :: bs => if cmp a b ≠ 0 then cmp a b else firstCmp cmp as bs
  | _, _ => 0

def ffmepClauseCmp (ca cb : ℕ) : ℤ :=
  let as := clauseLits db ca
  let bs := clauseLits db cb
  if decide (as.length = 1) ≠ decide (bs.length = 1) then if as.length = 1 then 1 else -1
  else if as.length ≠ 1 ∧ as.length ≠ bs.length then if as.length < bs.length then -1 else 1
  else firstCmp (fun a b => if a ≠ b then if a < b then -1 else 1 else 0) as bs

def ffmepCsCmp (as bs : List ℕ) : ℤ :=
  if as.length ≠ bs.length then if as.length < bs.length then -1 else 1
  else firstCmp (ffmepClauseCmp db) as bs

/-! ## The trail -/

def FfmepSolver.bind (sv : FfmepSolver) (cell val : ℕ) : FfmepSolver :=
  { sv with assign := Function.update sv.assign cell val, trail := cell :: sv.trail }

def unwind (mark : ℕ) : List ℕ → (ℕ → ℕ) → List ℕ × (ℕ → ℕ)
  | [], a => ([], a)
  | cell :: trail, a =>
    if mark < trail.length + 1 then unwind mark trail (Function.update a cell unset)
    else (cell :: trail, a)

def ffmepUnbind (mark : ℕ) (sv : FfmepSolver) : FfmepSolver :=
  let (trail, assign) := unwind mark sv.trail sv.assign
  { sv with assign := assign, trail := trail }

/-- The loop of `ffmep_clause_compatible`. -/
def ffmepScan : List ℤ → FfmepSolver → Bool × FfmepSolver
  | [], sv => (true, sv)
  | lit :: lits, sv =>
    if sv.assign (ffmepLitCell db lit) ≠ unset then
      if sv.assign (ffmepLitCell db lit) ≠ ffmepLitVal db lit then (false, sv)
      else ffmepScan lits sv
    else ffmepScan lits (sv.bind (ffmepLitCell db lit) (ffmepLitVal db lit))

def ffmepClauseCompatible (sv : FfmepSolver) (clause : ℕ) : Bool × FfmepSolver :=
  let (ok, sv') := ffmepScan db (clauseLits db clause) sv
  (ok, ffmepUnbind sv.trail.length sv')

def ffmepBindClause (sv : FfmepSolver) (clause : ℕ) : FfmepSolver :=
  (clauseLits db clause).foldl (fun sv lit =>
    if sv.assign (ffmepLitCell db lit) = unset then
      sv.bind (ffmepLitCell db lit) (ffmepLitVal db lit)
    else sv) sv

/-! ## Output -/

/-- `none` when the loop does not end: after 32 doublings the capacity is 0. -/
def ffmepGrowLoop (need : ℕ) : ℕ → ℕ → Option ℕ
  | 0, _ => none
  | rounds + 1, cap => if cap < need then ffmepGrowLoop need rounds (cap * 2 % 2 ^ 32) else some cap

def ffmepOutGrow (o : FfmepOut) (need : ℕ) : Option FfmepOut :=
  if need ≤ o.cap then some o
  else (ffmepGrowLoop need 33 (if o.cap ≠ 0 then o.cap else 16)).map fun cap => { o with cap := cap }

/-- Signed 64-bit values wrap around. -/
def wrap64 (x : ℤ) : ℤ := x.bmod (2 ^ 64)

def ffmepIndex (assign : ℕ → ℕ) (base size : ℕ) : ℤ :=
  ((List.range size).foldl (fun (p : ℤ × ℤ) cell =>
    (wrap64 (p.1 + wrap64 (assign (base + cell) * p.2)), wrap64 (p.2 * db.k))) (0, 1)).1

def ffmepRow (assign : ℕ → ℕ) : List ℤ :=
  (List.range db.nops).map fun op => ffmepIndex db assign (db.opOff op) (db.opSize op)

def freeCells (assign : ℕ → ℕ) : List ℕ := (List.range db.ncells).filter fun c => assign c = unset

/-- `total`, as `u64`. -/
def ffmepTotal (free : List ℕ) : ℕ := free.foldl (fun total _ => total * db.k % 2 ^ 64) 1

/-- Set the free cells from the digits of a number. -/
def ffmepFill : List ℕ → ℕ → (ℕ → ℕ) → ℕ → ℕ
  | [], _, a => a
  | c :: cs, rest, a => ffmepFill cs (rest / db.k) (Function.update a c (rest % db.k))

def ffmepPush (o : FfmepOut) (row : List ℤ) : Option FfmepOut := do
  let o ← ffmepOutGrow o ((o.rows.length + 1) % 2 ^ 32)
  some { o with rows := o.rows ++ [row] }

def ffmepEmitModels (sv : FfmepSolver) : Option FfmepSolver := do
  let free := freeCells db sv.assign
  let sv ← (List.range (ffmepTotal db free)).foldlM (fun sv combo => do
    let assign := ffmepFill db free combo sv.assign
    let out ← ffmepPush sv.out (ffmepRow db assign)
    some { sv with assign := assign, out := out }) sv
  some { sv with assign := free.foldl (fun a c => Function.update a c unset) sv.assign }

/-! ## The search -/

def ffmepPick (rem : List FfmepRemSet) : ℕ :=
  (List.range' 1 (rem.length - 1)).foldl (fun pick i =>
    if ffmepCsCmp db (rem.getD i ⟨0, []⟩).clauses (rem.getD pick ⟨0, []⟩).clauses < 0 then i
    else pick) 0

/-- The clauses that are compatible, in their order. -/
def ffmepKeep : List ℕ → FfmepSolver → List ℕ × FfmepSolver
  | [], sv => ([], sv)
  | c :: cs, sv =>
    let (ok, sv) := ffmepClauseCompatible db sv c
    let (keep, sv) := ffmepKeep cs sv
    (if ok then c :: keep else keep, sv)

def ffmepForward : List FfmepRemSet → FfmepSolver → List FfmepRemSet × FfmepSolver
  | [], sv => ([], sv)
  | r :: rest, sv =>
    let (keep, sv) := ffmepKeep db r.clauses sv
    let (rest, sv) := ffmepForward rest sv
    (⟨r.set, keep⟩ :: rest, sv)

/-- The loop over the clauses of the picked set; `rec` is the recursive call. -/
def ffmepTry (rec : List FfmepRemSet → ℤ → FfmepSolver → Option (FfmepSolver × ℤ))
    (rest : List FfmepRemSet) (budget : ℤ) :
    List ℕ → ℤ → FfmepSolver → Option (FfmepSolver × ℤ)
  | [], produced, sv => some (sv, produced)
  | c :: cs, produced, sv =>
    let (ok, sv) := ffmepClauseCompatible db sv c
    if !ok then ffmepTry rec rest budget cs produced sv
    else do
      let mark := sv.trail.length
      let (rest2, sv) := ffmepForward db rest (ffmepBindClause db sv c)
      let (sv, p) ← rec rest2 (if budget < 0 then -1 else budget - produced) sv
      let sv := ffmepUnbind mark sv
      if 0 ≤ budget ∧ budget ≤ produced + p then some (sv, produced + p)
      else ffmepTry rec rest budget cs (produced + p) sv

/-- The first argument is `n_rem`. -/
def ffmepPrune : ℕ → List FfmepRemSet → ℤ → FfmepSolver → Option (FfmepSolver × ℤ)
  | 0, _, budget, sv => if budget = 0 then some (sv, 0) else do some (← ffmepEmitModels db sv, 1)
  | n + 1, rem, budget, sv =>
    if budget = 0 then some (sv, 0)
    else
      let pick := ffmepPick db rem
      ffmepTry db (ffmepPrune n) (rem.eraseIdx pick) budget (rem.getD pick ⟨0, []⟩).clauses 0 sv

def rootRem : List FfmepRemSet :=
  (List.range db.nsets).map fun s =>
    ⟨s, (List.range (db.setOff (s + 1) - db.setOff s)).map fun j => db.setClause (db.setOff s + j)⟩

def solverStart : FfmepSolver := ⟨fun _ => unset, [], ⟨0, []⟩⟩

/-- `none` when a loop does not end. -/
def ffmepSolve (maxItems : ℤ) : Option (List (List ℤ)) := do
  let (sv, _) ← ffmepPrune db db.nsets (rootRem db) maxItems solverStart
  some sv.out.rows

end Db

end Thvm.Ffmep
