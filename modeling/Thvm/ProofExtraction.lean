import Thvm.ClauseInference
import Thvm.OrderLoops
import Thvm.RewriteChains

/-!
# Proof extraction

A goal that the prover has closed is rewritten once more, side by side, and each rewrite is
recorded. The two recorded chains are cut back to the earliest term that they share.
-/

namespace Thvm.Atp
open RewriteChains

def atpProofMaxDepth : ℕ := 32

def atpProofMaxSteps : ℕ := 2 ^ 16

structure ProverRule where
  lhs : FTerm
  rhs : FTerm
  orient : Bool
  trace : ℕ
  deriving DecidableEq

/-- What extraction reads of `AtpState`. -/
structure ProverState where
  rules : List ProverRule
  minConst : FTerm
  goal : Option (FTerm × FTerm)
  goalExistential : Bool

/-- `AtpProofStep`. -/
structure ProofStep where
  side : ℕ
  rule : ℕ
  fwd : Bool
  pos : List ℕ
  before : FTerm
  after : FTerm
  deriving DecidableEq

/-- The reduction order, whether it is total on ground terms (`wpo` and `rpo` are not set), and
the answers of the deadline and the abort hook each time they are asked. -/
structure ExtractWorld where
  compare : FTerm → FTerm → Cmp
  groundTotal : Bool
  interrupted : ℕ → Bool

/-! ## Templates -/

mutual

def atpTermHasVar (id : ℕ) : FTerm → Bool
  | .leaf (.fvr id') => id' = id
  | .leaf (.num _ _) => false
  | .node _ args => atpArgsHaveVar id args

def atpArgsHaveVar (id : ℕ) : List FTerm → Bool
  | [] => false
  | a :: as => atpTermHasVar id a || atpArgsHaveVar id as

end

mutual

/-- Every variable of the term occurs in `other`. -/
def atpVarsContained (other : FTerm) : FTerm → Bool
  | .leaf (.fvr id) => atpTermHasVar id other
  | .leaf (.num _ _) => true
  | .node _ args => atpVarsContainedArgs other args

def atpVarsContainedArgs (other : FTerm) : List FTerm → Bool
  | [] => true
  | a :: as => atpVarsContained other a && atpVarsContainedArgs other as

end

mutual

def atpGroundedInstance (lhs minConst : FTerm) : FTerm → FTerm
  | .leaf (.fvr id) => if atpTermHasVar id lhs then .fvr id else minConst
  | .leaf (.num dtype value) => .num dtype value
  | .node label args =>
    if args.length > rewriteMaxArity then .node label args
    else .node label (atpGroundedInstanceArgs lhs minConst args)

def atpGroundedInstanceArgs (lhs minConst : FTerm) : List FTerm → List FTerm
  | [] => []
  | a :: as => atpGroundedInstance lhs minConst a :: atpGroundedInstanceArgs lhs minConst as

end

namespace ProverState

variable (w : ExtractWorld) (s : ProverState)

def atpUnorientTemplate (pat other : FTerm) : Option FTerm :=
  if atpVarsContained pat other then some other
  else if !w.groundTotal then none
  else some (atpGroundedInstance pat s.minConst other)

/-! ## One rewrite -/

/-- A rewrite with its rule, its direction and the path to the redex. -/
structure Fired where
  rule : ℕ
  fwd : Bool
  pos : List ℕ
  term : FTerm
  deriving DecidableEq

/-- One direction of an equation that is not oriented. -/
def tryFace (t pat other : FTerm) : Option FTerm :=
  let (ok, sub) := thvmMatch pat t fun _ => none
  if ok then
    match s.atpUnorientTemplate w pat other with
    | some tmpl =>
      let repl := thvmSubstApply sub tmpl
      if w.compare t repl = .gt then some repl else none
    | none => none
  else none

def tryRule (orientedOnly : Bool) (t : FTerm) (r : ProverRule) (i : ℕ) : Option Fired :=
  if !r.orient then
    if orientedOnly then none
    else
      match s.tryFace w t r.lhs r.rhs with
      | some repl => some ⟨i, true, [], repl⟩
      | none => (s.tryFace w t r.rhs r.lhs).map (⟨i, false, [], ·⟩)
  else
    let (ok, sub) := thvmMatch r.lhs t fun _ => none
    if ok then some ⟨i, true, [], thvmSubstApply sub r.rhs⟩ else none

def tryRules (orientedOnly : Bool) (t : FTerm) : Option Fired :=
  s.rules.zipIdx.findSome? fun r => s.tryRule w orientedOnly t r.1 r.2

mutual

def atpProofRewriteStep (orientedOnly : Bool) : (depth : ℕ) → FTerm → Option Fired
  | _, .leaf l => s.tryRules w orientedOnly (.leaf l)
  | depth, .node label args =>
    match s.tryRules w orientedOnly (.node label args) with
    | some fired => some fired
    | none =>
      if depth < atpProofMaxDepth then
        if args.length > rewriteMaxArity then none
        else
          (atpProofRewriteArgs orientedOnly (depth + 1) 0 args).map fun (i, fired) =>
            { fired with pos := i :: fired.pos, term := .node label (args.set i fired.term) }
      else none

/-- The first argument, counted from `i`, in which a rule fires. -/
def atpProofRewriteArgs (orientedOnly : Bool) (depth i : ℕ) : List FTerm → Option (ℕ × Fired)
  | [] => none
  | a :: as =>
    match atpProofRewriteStep orientedOnly depth a with
    | some fired => some (i, fired)
    | none => atpProofRewriteArgs orientedOnly depth (i + 1) as

end

/-! ## Recording -/

/-- The term reached, the steps written to `out`, and how often the clock was asked. -/
structure Recording where
  term : FTerm
  out : List ProofStep
  asked : ℕ
  deriving DecidableEq

variable (cap side : ℕ)

def atpProofRecordOne (orientedOnly : Bool) (r : Recording) : Recording × Bool :=
  match s.atpProofRewriteStep w orientedOnly 0 r.term with
  | none => (r, false)
  | some fired =>
    if kboEq r.term fired.term then (r, false)
    else
      let step : ProofStep := ⟨side, fired.rule, fired.fwd, fired.pos, r.term, fired.term⟩
      ({ r with
          term := fired.term
          out := if r.out.length < cap then r.out ++ [step] else r.out }, true)

def Recording.poll (w : ExtractWorld) (r : Recording) : Recording × Bool :=
  ({ r with asked := r.asked + 1 }, w.interrupted r.asked)

/-- The inner loop, at its `j`-th round: whether it progressed, and whether it was
interrupted. -/
def drain : (rounds j : ℕ) → Recording → Bool → Recording × Bool × Bool
  | 0, _, r, progressed => (r, progressed, false)
  | n + 1, j, r, progressed =>
    let (r, fired) := s.atpProofRecordOne w cap side true r
    if !fired then (r, progressed, false)
    else if j % 128 = 0 then
      let (r, stop) := r.poll w
      if stop then (r, true, true) else drain n (j + 1) r true
    else drain n (j + 1) r true

/-- The outer loop, at its `it`-th round. -/
def recordLoop : (rounds it : ℕ) → Recording → Recording
  | 0, _, r => r
  | n + 1, it, r =>
    let (r, stop) := if it % 128 = 0 then r.poll w else (r, false)
    if stop then r
    else
      let (r, progressed, stop) := s.drain w cap side atpProofMaxSteps 0 r false
      if stop then r
      else
        let (r, fired) := s.atpProofRecordOne w cap side false r
        if progressed || fired then recordLoop n (it + 1) r else r

def atpProofRecordSide (r : Recording) : Recording :=
  s.recordLoop w cap side atpProofMaxSteps 0 r

end ProverState

/-! ## Cutting back -/

/-- The term after `k` of the steps. -/
def atpChainTerm (steps : List ProofStep) (seed : FTerm) (k : ℕ) : FTerm :=
  match steps with
  | [] => seed
  | first :: _ => if k = 0 then first.before else (steps[k - 1]?.getD first).after

def Meeting.look (f g : ℕ → FTerm) (i : ℕ) (best : Meeting) (j : ℕ) : Meeting :=
  if i + j ≥ best.sum then best
  else if kboEq (f i) (g j) then ⟨i, j, i + j, true⟩ else best

/-- The two loops that look for the earliest meeting. -/
def earliestMeeting (f g : ℕ → FTerm) (m n : ℕ) : Meeting :=
  (List.range (m + 1)).foldl (fun best i => (List.range (n + 1)).foldl (Meeting.look f g i) best)
    ⟨m, n, m + n, false⟩

/-- `atp_proof_trim_to_meet`, with the steps of the two sides apart. -/
def atpProofTrimToMeet (left right : List ProofStep) (seedLhs seedRhs : FTerm) : List ProofStep :=
  let best := earliestMeeting (atpChainTerm left seedLhs) (atpChainTerm right seedRhs)
    left.length right.length
  if best.found then left.take best.i ++ right.take best.j else left ++ right

/-- `thvm_atp_proof_extract` without the mixmost mode; no steps stand for 0. -/
def ProverState.thvmAtpProofExtract (w : ExtractWorld) (s : ProverState) (cap : ℕ) :
    List ProofStep :=
  match s.goal with
  | none => []
  | some (goalLhs, goalRhs) =>
    if cap = 0 ∨ s.goalExistential then []
    else
      let l := s.atpProofRecordSide w cap 0 ⟨goalLhs, [], 0⟩
      let r := s.atpProofRecordSide w cap 1 ⟨goalRhs, l.out, l.asked⟩
      if !kboEq l.term r.term then []
      else
        let cmin := min cap (atpProofMaxSteps * 2)
        if r.out.length ≤ cmin then
          atpProofTrimToMeet l.out (r.out.drop l.out.length) goalLhs goalRhs
        else r.out

end Thvm.Atp
