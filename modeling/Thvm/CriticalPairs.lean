import Thvm.UnifySpec
import Thvm.TermPositions

/-!
# Critical pairs

Rule `j`, with its variables renamed apart, is unified with the subterm of the left side of
rule `i` at every constructor position. Each unifier gives one pair.
-/

namespace Thvm

def cpRenameOffset : ℕ := rewriteMaxVar / 2

def cpMaxDepth : ℕ := 64

mutual

/-- The id of a variable is the extension of its word, of 18 bits. -/
def thvmRenameVars (offset : ℕ) : FTerm → FTerm
  | .fvr id => .fvr ((id + offset) % 2 ^ 18)
  | .num dtype value => .num dtype value
  | .ctr label args =>
    if rewriteMaxArity < args.length then .ctr label args
    else .ctr label (renameArgs offset args)

def renameArgs (offset : ℕ) : List FTerm → List FTerm
  | [] => []
  | a :: as => thvmRenameVars offset a :: renameArgs offset as

end

def cpReplaceAt : FTerm → List ℕ → FTerm → FTerm
  | _, [], repl => repl
  | .ctr label args, i :: p, repl =>
    if args.length ≤ i ∨ rewriteMaxArity < args.length then .ctr label args
    else .ctr label (args.modify i fun a => cpReplaceAt a p repl)
  | t, _ :: _, _ => t

def cpSubtermAt : FTerm → List ℕ → Option FTerm
  | t, [] => some t
  | .ctr _ args, i :: p => if h : i < args.length then cpSubtermAt args[i] p else none
  | _, _ :: _ => none

structure CriticalPair where
  lhs : FTerm
  rhs : FTerm
  peak : Option FTerm
  pos : List ℕ
  combo : ℕ
  deriving DecidableEq

/-- `g_cp_visit_trace` and `g_cp_need_peak`. -/
structure CpFlags where
  visitTrace : Bool
  needPeak : Bool

/-- `CpCtx` without the buffer. -/
structure CpCtx where
  li : FTerm
  ri : FTerm
  lj : FTerm
  rj : FTerm
  cap : ℕ
  skipRoot : Bool

/-- The buffer, the two counters, and the persistent substitution. -/
structure CpState where
  out : List CriticalPair
  droppedCapped : ℕ
  depthCapped : ℕ
  subst : UnifyState

namespace CpState

variable (st : CpState)

def drop : CpState := { st with droppedCapped := st.droppedCapped + 1 }

def capDepth : CpState := { st with depthCapped := st.depthCapped + 1 }

def setSubst (u : UnifyState) : CpState := { st with subst := u }

def push (cp : CriticalPair) : CpState := { st with out := st.out ++ [cp] }

end CpState

/-- Two constructors with different head symbols. -/
def headClash : FTerm → FTerm → Bool
  | .ctr f _, .ctr g _ => f ≠ g
  | _, _ => false

/-- The peak is only built on demand. -/
def cpPeak (flags : CpFlags) (ctx : CpCtx) (b : ℕ → Option FTerm) (rounds : ℕ) :
    Option (Option FTerm) :=
  if flags.needPeak then (thvmUnifyApply b rounds ctx.li).map some else some none

/-- The pair of a unifier. -/
def cpForm (flags : CpFlags) (ctx : CpCtx) (p : List ℕ) (b : ℕ → Option FTerm) (rounds : ℕ) :
    Option CriticalPair := do
  let lhs ← thvmUnifyApply b rounds (cpReplaceAt ctx.li p ctx.rj)
  let rhs ← thvmUnifyApply b rounds ctx.ri
  let peak ← cpPeak flags ctx b rounds
  some ⟨lhs, rhs, peak, p.map (· % 2 ^ 8), 0xff⟩

/-- `cp_visit` below the tests that skip a position. -/
def cpUnify (flags : CpFlags) (ctx : CpCtx) (rounds : ℕ) (p : List ℕ) (sub : FTerm)
    (st : CpState) : Option CpState := do
  let (ok, u) ← thvmUnify rounds sub ctx.lj st.subst.undoBegin
  if ok then
    let cp ← cpForm flags ctx p u.bindings rounds
    some ((st.setSubst u.undo).push cp)
  else some (st.setSubst u.undo)

def cpVisit (flags : CpFlags) (ctx : CpCtx) (rounds : ℕ) (p : List ℕ) (st : CpState) :
    Option CpState :=
  if ctx.skipRoot && p.isEmpty then some st
  else if ctx.cap ≤ st.out.length then some st.drop
  else
    match cpSubtermAt ctx.li p with
    | none => some st
    | some (.fvr _) => some st
    | some sub =>
      if !flags.visitTrace && headClash sub ctx.lj then some st
      else cpUnify flags ctx rounds p sub st

mutual

def cpWalkPositions (maxDepth : ℕ) (visit : List ℕ → CpState → Option CpState) :
    FTerm → List ℕ → CpState → Option CpState
  | .ctr _ args, path, st => do
    let st ← visit path st
    if maxDepth ≤ path.length then
      some (if 0 < args.length then st.capDepth else st)
    else cpWalkArgs maxDepth visit args path 0 st
  | _, _, st => some st

def cpWalkArgs (maxDepth : ℕ) (visit : List ℕ → CpState → Option CpState) :
    List FTerm → List ℕ → ℕ → CpState → Option CpState
  | [], _, _, st => some st
  | a :: as, path, i, st => do
    let st ← cpWalkPositions maxDepth visit a (path ++ [i]) st
    cpWalkArgs maxDepth visit as path (i + 1) st

end

def thvmCriticalPairsPair (flags : CpFlags) (li ri lj rj : FTerm) (cap rounds : ℕ)
    (st : CpState) : Option CpState :=
  cpWalkPositions cpMaxDepth (cpVisit flags ⟨li, ri, lj, rj, cap, false⟩ rounds) li [] st

def thvmCriticalPairsPairNoroot (flags : CpFlags) (li ri lj rj : FTerm) (cap rounds : ℕ)
    (st : CpState) : Option CpState :=
  cpWalkPositions cpMaxDepth (cpVisit flags ⟨li, ri, lj, rj, cap, true⟩ rounds) li [] st

/-- A loop over a list that changes the state. -/
def forEach {α : Type} (f : α → CpState → Option CpState) : List α → CpState → Option CpState
  | [], st => some st
  | a :: as, st => do forEach f as (← f a st)

/-- The rules are pairs of sides. -/
def thvmCriticalPairsRange (flags : CpFlags) (rules : List (FTerm × FTerm))
    (startI endI startJ endJ cap rounds : ℕ) (st : CpState) : Option CpState :=
  forEach (fun ri st =>
    forEach (fun rj st =>
      thvmCriticalPairsPair flags ri.1 ri.2 (thvmRenameVars cpRenameOffset rj.1)
        (thvmRenameVars cpRenameOffset rj.2) cap rounds st)
      ((rules.take endJ).drop startJ) st)
    ((rules.take endI).drop startI) { st with out := [] }

def thvmCriticalPairs (flags : CpFlags) (rules : List (FTerm × FTerm)) (cap rounds : ℕ)
    (st : CpState) : Option CpState :=
  thvmCriticalPairsRange flags rules 0 rules.length 0 rules.length cap rounds st

end Thvm
