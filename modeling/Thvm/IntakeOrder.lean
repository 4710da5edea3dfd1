import Mathlib.Data.BitVec
import Thvm.BubbleSorting
import Thvm.CpQueue
import Thvm.SymbolPrecedence

/-!
# The order of the axioms at intake

`thvm_atp_wm_intake_order` of `src/atp/wm_intake.c`: statistics of every symbol over the axioms
and the goals, the order of the symbols by these, the order of the sides of each axiom, and the
order of the axioms.
-/

namespace Thvm.Atp.WmIntake

open BubbleSorting
open Prec (waldMaxSymbols)
open CpQueue (setCol)

abbrev U32 := BitVec 32

abbrev Column := ℕ → U32

/-- An equation, or a goal. -/
abbrev Equation := FTerm × FTerm

def atpWmiMaxVars : ℕ := 64

/-- The columns over the axioms are those of `eq`, `occ_eq` and so on; the ones over the goals
are those of `goal`. -/
structure SideStats where
  occ : Column
  pos : Column
  kk : Column
  kkOne : Column
  kkOpp : Column

/-- The symbols that have been met. -/
structure Registry where
  present : ℕ → Bool
  arity : ℕ → ℕ

structure AtpWmiStats extends Registry where
  eq : SideStats
  goal : SideStats
  finale : Column
  posOf : ℕ → ℕ

/-! ## The statistics -/

/-- `if (f < WALD_MAX_SYMBOLS) field[f] += v`. -/
def book (f : ℕ) (v : U32) (field : Column) : Column :=
  if f < waldMaxSymbols then setCol field f (field f + v) else field

def Registry.register (f n : ℕ) (reg : Registry) : Registry :=
  if f < waldMaxSymbols then ⟨setCol reg.present f true, setCol reg.arity f n⟩ else reg

mutual

def atpWmiOcc : FTerm → Registry × Column → Registry × Column
  | .leaf _, st => st
  | .node f args, (reg, field) =>
    atpWmiOccArgs args (reg.register f args.length, book f 1 field)

def atpWmiOccArgs : List FTerm → Registry × Column → Registry × Column
  | [], st => st
  | a :: as, st => atpWmiOccArgs as (atpWmiOcc a st)

end

def atpWmiPrimes : List ℕ := [2, 3, 5, 7, 11, 13, 17, 19, 23, 29, 31, 37, 41, 43, 47]

/-- A power in 64 bits, of which the low 32 bits are kept. -/
def atpWmiPrimePow (p e : ℕ) : U32 := BitVec.ofNat 32 (p ^ e % 2 ^ 64)

mutual

def atpWmiPos (position : U32) (depth : ℕ) : FTerm → Column → Column
  | .leaf _, field => field
  | .node f args, field =>
    if 15 ≤ depth then field else book f position (atpWmiPosArgs position depth 1 args field)

/-- The arguments from the `i`-th on, the last one first. -/
def atpWmiPosArgs (position : U32) (depth i : ℕ) : List FTerm → Column → Column
  | [], field => field
  | a :: as, field =>
    atpWmiPos (position * atpWmiPrimePow (atpWmiPrimes.getD depth 0) i) (depth + 1) a
      (atpWmiPosArgs position depth (i + 1) as field)

end

mutual

/-- The walk of `atp_wmi_ctx` and of `atp_wmi_ctx2`, by what a symbol adds to the context. -/
def kontext (own : Column) : FTerm → U32 → U32
  | .leaf _, context => context + 1
  | .node f args, context =>
    kontextArgs own args (if f < waldMaxSymbols then context + own f else context)

/-- The last argument first. -/
def kontextArgs (own : Column) : List FTerm → U32 → U32
  | [], context => context
  | a :: as, context =>
    let context := kontextArgs own as context
    context + kontext own a context

end

def atpWmiCtx (st : AtpWmiStats) : FTerm → U32 → U32 :=
  kontext fun f => st.eq.occ f + st.goal.occ f + st.eq.pos f + st.goal.pos f

def atpWmiCtx2 (st : AtpWmiStats) : FTerm → U32 → U32 :=
  kontext fun f => st.eq.kk f + st.goal.kk f

mutual

def atpWmiFinale (st : AtpWmiStats) (vater : U32) : FTerm → Column → Column
  | .leaf _, field => field
  | .node f args, field =>
    atpWmiFinaleArgs st (atpWmiCtx2 st (.node f args) 0) args (book f vater field)

/-- The last argument first. -/
def atpWmiFinaleArgs (st : AtpWmiStats) (v2 : U32) : List FTerm → Column → Column
  | [], field => field
  | a :: as, field => atpWmiFinale st v2 a (atpWmiFinaleArgs st v2 as field)

end

/-- A set of labels below 64. -/
abbrev Mask := ℕ → Bool

def atpCollectSymbols (t : FTerm) (mask : Mask) : Mask :=
  Prec.walkFrom (fun lab _ mask => if lab < 64 then setCol mask lab true else mask) [t] mask

/-- One round of `atp_wmi_kombi`. -/
def kombiPair (st : AtpWmiStats) (side : SideStats) (e : Equation) : SideStats :=
  let kl := atpWmiCtx st e.1 0
  let kr := atpWmiCtx st e.2 0
  let lm := atpCollectSymbols e.1 fun _ => false
  let rm := atpCollectSymbols e.2 fun _ => false
  { side with
    kk := fun f => side.kk f + (if rm f then kr + kl else 0) + (if lm f then kr + kl else 0)
    kkOne := fun f => side.kkOne f + (if rm f then kr else 0) + (if lm f then kl else 0)
    kkOpp := fun f =>
      side.kkOpp f + (if rm f && !lm f then kl else 0) + (if lm f && !rm f then kr else 0) }

def atpWmiKombi (st : AtpWmiStats) (es : List Equation) (side : SideStats) : SideStats :=
  es.foldl (kombiPair st) side

/-- The occurrences and positions of one pair. -/
def occPos (st : Registry × SideStats) (e : Equation) : Registry × SideStats :=
  let (reg, occ) := atpWmiOcc e.2 (atpWmiOcc e.1 (st.1, st.2.occ))
  (reg, { st.2 with occ := occ, pos := atpWmiPos 1 0 e.2 (atpWmiPos 1 0 e.1 st.2.pos) })

def finalePair (st : AtpWmiStats) (field : Column) (e : Equation) : Column :=
  atpWmiFinale st 0 e.2 (atpWmiFinale st 0 e.1 field)

/-- The columns at the start. -/
def noSide : SideStats := ⟨0, 0, 0, 0, 0⟩

/-- `SymboldatenSammeln`. -/
def symbolData (eqs goals : List Equation) : AtpWmiStats :=
  let (reg, goal) := goals.foldl occPos (⟨fun _ => false, fun _ => 0⟩, noSide)
  let (reg, eq) := eqs.foldl occPos (reg, noSide)
  let st : AtpWmiStats := ⟨reg, eq, goal, 0, fun _ => 0⟩
  let st := { st with eq := atpWmiKombi st eqs st.eq }
  let st := if goals = [] then st else { st with goal := atpWmiKombi st goals st.goal }
  { st with finale := goals.foldl (finalePair st) (eqs.foldl (finalePair st) 0) }

/-! ## The order of the symbols -/

/-- The smaller entry first. -/
def keyMin (field : Column) (f g : ℕ) : Ordering := compare (field f).toNat (field g).toNat

/-- More occurrences in the axioms come first. -/
def atpWmiSymcmp (st : AtpWmiStats) (f g : ℕ) : Ordering :=
  (keyMin st.eq.occ g f).then <| (compare (st.arity f) (st.arity g)).then <|
  (keyMin st.eq.pos f g).then <| (keyMin st.goal.pos f g).then <|
  (keyMin st.eq.kkOne f g).then <| (keyMin st.eq.kkOpp f g).then <|
  (keyMin st.eq.kk f g).then <| (keyMin st.goal.kkOne f g).then <|
  (keyMin st.goal.kkOpp f g).then <| (keyMin st.goal.kk f g).then <| keyMin st.finale f g

/-- The symbols that occur, in the order of their labels and then sorted. -/
def sortedSymbols (st : AtpWmiStats) : List ℕ :=
  bubbleSort (fun f g => (atpWmiSymcmp st f g).isGT)
    ((List.range waldMaxSymbols).filter st.present)

/-- `for (k = 0; k < nsym; k++) pos_of[syms[k]] = k`. -/
def placesFrom (k : ℕ) : List ℕ → (ℕ → ℕ) → ℕ → ℕ
  | [], posOf => posOf
  | f :: syms, posOf => placesFrom (k + 1) syms (setCol posOf f k)

/-- `SymbolReihenfolgeFestlegen`. -/
def withPlaces (st : AtpWmiStats) : AtpWmiStats :=
  { st with posOf := placesFrom 0 (sortedSymbols st) st.posOf }

/-! ## The sides of an axiom -/

mutual

/-- A variable is below every other term and like another variable. -/
def atpWmiLrCmp (st : AtpWmiStats) : FTerm → FTerm → Ordering
  | .leaf _, .leaf _ => .eq
  | .leaf _, .node _ _ => .lt
  | .node _ _, .leaf _ => .gt
  | .node f as, .node g bs => (atpWmiSymcmp st f g).then (atpWmiLrCmpArgs st as bs)

def atpWmiLrCmpArgs (st : AtpWmiStats) : List FTerm → List FTerm → Ordering
  | a :: as, b :: bs => (atpWmiLrCmp st a b).then (atpWmiLrCmpArgs st as bs)
  | _, _ => .eq

end

/-- `0xFFFFFFFF`, a variable that has not been met. -/
def noRank : ℕ := 0xFFFFFFFF

structure VarRanks where
  map : ℕ → ℕ
  next : ℕ

mutual

def atpWmiVarRanks : FTerm → VarRanks → VarRanks
  | .leaf (.fvr v), r =>
    if v < atpWmiMaxVars ∧ r.map v = noRank then ⟨setCol r.map v r.next, r.next + 1⟩ else r
  | .leaf (.num _ _), r => r
  | .node _ args, r => atpWmiVarRanksArgs args r

def atpWmiVarRanksArgs : List FTerm → VarRanks → VarRanks
  | [], r => r
  | a :: as, r => atpWmiVarRanksArgs as (atpWmiVarRanks a r)

end

/-- The canonical sides of an axiom, `swap` when these are its sides exchanged, with the ranks
of the variables. -/
structure Form where
  swap : Bool
  lhs : FTerm
  rhs : FTerm
  vmap : ℕ → ℕ

/-- `LRSortieren` and `GleichungenVariablenNormieren`. -/
def form (st : AtpWmiStats) (e : Equation) : Form :=
  let sw := (atpWmiLrCmp st e.1 e.2).isGT
  let cl := if sw then e.2 else e.1
  let cr := if sw then e.1 else e.2
  ⟨sw, cl, cr, (atpWmiVarRanks cr (atpWmiVarRanks cl ⟨fun _ => noRank, 0⟩)).map⟩

/-! ## The order of the axioms -/

def varRank (vmap : ℕ → ℕ) (v : ℕ) : ℕ := if v < atpWmiMaxVars then vmap v else 0xFFFFFFFE

def place (st : AtpWmiStats) (f : ℕ) : ℕ := if f < waldMaxSymbols then st.posOf f else f

mutual

/-- The variable of the later rank is below, and a variable is below every other term. Numbers,
which do not occur in axioms, are taken as constants. -/
def atpWmiEqTermCmp (st : AtpWmiStats) (amap bmap : ℕ → ℕ) : FTerm → FTerm → Ordering
  | .leaf (.fvr u), .leaf (.fvr v) => compare (varRank bmap v) (varRank amap u)
  | .leaf (.fvr _), _ => .lt
  | _, .leaf (.fvr _) => .gt
  | .leaf (.num d _), .leaf (.num d' _) => compare (place st d) (place st d')
  | .leaf (.num d _), .node g _ => compare (place st d) (place st g)
  | .node f _, .leaf (.num d _) => compare (place st f) (place st d)
  | .node f as, .node g bs =>
    (compare (place st f) (place st g)).then (atpWmiEqTermCmpArgs st amap bmap as bs)

def atpWmiEqTermCmpArgs (st : AtpWmiStats) (amap bmap : ℕ → ℕ) :
    List FTerm → List FTerm → Ordering
  | a :: as, b :: bs =>
    (atpWmiEqTermCmp st amap bmap a b).then (atpWmiEqTermCmpArgs st amap bmap as bs)
  | _, _ => .eq

end

/-- The left sides, and behind them the right ones. -/
def formCmp (st : AtpWmiStats) (a b : Form) : Ordering :=
  (atpWmiEqTermCmp st a.vmap b.vmap a.lhs b.lhs).then
    (atpWmiEqTermCmp st a.vmap b.vmap a.rhs b.rhs)

/-- The comparison of the axioms of two indices. -/
def formGt (st : AtpWmiStats) (forms : List Form) (a b : ℕ) : Bool :=
  match forms[a]?, forms[b]? with
  | some x, some y => (formCmp st x y).isGT
  | _, _ => false

/-- `order_out` and `swap_out`. -/
def thvmAtpWmIntakeOrder (eqs goals : List Equation) : List ℕ × List Bool :=
  let st := withPlaces (symbolData eqs goals)
  let forms := eqs.map (form st)
  (bubbleSort (formGt st forms) (List.range eqs.length), forms.map Form.swap)

end Thvm.Atp.WmIntake
