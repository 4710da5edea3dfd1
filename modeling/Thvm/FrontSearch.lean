import Thvm.ProofExtraction

/-!
# Front search

Two fronts of terms, one from each side of the goal, are rewritten in both directions until
they share a term. Each term remembers the one it was first reached from, and a proof is read
off the two lines of ancestors with the help of all equations that were ever rules.
-/

namespace Thvm.Atp

def mnfMaxAnti : ℕ := 2

def mnfMaxNodes : ℕ := 400000

def mnfSuccCap : ℕ := 2048

def mnfRootParent : ℕ := 2 ^ 32 - 1

def mnfDeadSentinel : FTerm := .fvr 255

inductive TraceReason
  | traceAxiom | traceOrient | traceCp | traceSimplify | traceFvi | traceNormStep
  deriving DecidableEq

structure TraceEntry where
  reason : TraceReason
  lhs : FTerm
  rhs : FTerm
  deriving DecidableEq

/-- The entries that stand for something that was a rule. -/
def TraceEntry.wasRule (e : TraceEntry) : Bool :=
  e.reason = .traceOrient ∨ e.reason = .traceAxiom ∨ e.reason = .traceSimplify ∨
    e.reason = .traceFvi

inductive Colour
  | red | green
  deriving DecidableEq

/-- The fields that the order of the search alone depends on are left out. -/
structure MnfNode where
  term : FTerm
  parent : ℕ
  colour : Colour
  anti : ℕ
  deriving DecidableEq

instance : Inhabited MnfNode := ⟨⟨.fvr 0, 0, .red, 0⟩⟩

structure AtpMnf where
  nodes : List MnfNode
  joined : Bool
  meetA : ℕ
  meetBParent : ℕ
  meetTerm : FTerm
  meetBCol : Colour
  deriving DecidableEq

/-- The prover with its trace and its fronts; `ticks` counts the calls of `mnf_successors`. -/
structure FrontState extends ProverState where
  trace : List TraceEntry
  mnf : Option AtpMnf
  ticks : ℕ

namespace AtpMnf

variable (m : AtpMnf)

def node (ni : ℕ) : MnfNode := m.nodes[ni]?.getD default

/-- The table holds one node for each term. -/
def mnfLookup (t : FTerm) : Option ℕ := m.nodes.findIdx? fun n => kboEq n.term t

def mnfInsert (t : FTerm) (col : Colour) (anti parent : ℕ) : AtpMnf :=
  match m.mnfLookup t with
  | some idx =>
    if (m.node idx).colour ≠ col then
      { m with meetA := idx, meetBParent := parent, meetTerm := t, meetBCol := col, joined := true }
    else m
  | none =>
    let ni := m.nodes.length
    if ni ≥ mnfMaxNodes then m
    else
      { m with nodes := m.nodes ++ [⟨t, if parent = mnfRootParent then ni else parent, col, anti⟩] }

end AtpMnf

/-! ## Successors -/

/-- A match at the top and what comes in its place. -/
def mnfFire (pat other t : FTerm) : Option FTerm :=
  let (ok, sub) := thvmMatch pat t fun _ => none
  if ok then some (thvmSubstApply sub other) else none

section
variable (cut : ℕ → Bool) (allowAnti : Bool) (rules : List ProverRule)

/-- A rule that is larger than the term cannot match it. -/
def mnfForward (t : FTerm) (size : ℕ) (r : ProverRule) : List (FTerm × Bool) :=
  if r.lhs.size ≤ size then (mnfFire r.lhs r.rhs t).toList.map (·, false) else []

def mnfBackward (t : FTerm) (size : ℕ) (r : ProverRule) : List (FTerm × Bool) :=
  if allowAnti && atpVarsContained r.rhs r.lhs && r.rhs.size ≤ size then
    (mnfFire r.rhs r.lhs t).toList.map (·, true)
  else []

/-- The rules tried at the top of a term of `size` nodes, with `n` successors in the buffer. -/
def mnfTryRules (t : FTerm) (size : ℕ) : List ProverRule → (n : ℕ) → List (FTerm × Bool)
  | [], _ => []
  | r :: rs, n =>
    if n ≥ mnfSuccCap then []
    else
      let fwd := mnfForward t size r
      if !fwd.isEmpty && n + 1 ≥ mnfSuccCap then fwd
      else
        let bwd := mnfBackward allowAnti t size r
        fwd ++ bwd ++ mnfTryRules t size rs (n + fwd.length + bwd.length)

mutual

/-- The size that is returned, the calls so far, and the successors that are added to the `n`
in the buffer; `cut` tells the calls that give up because the time is over. -/
def mnfSuccessors : FTerm → (ticks n : ℕ) → ℕ × ℕ × List (FTerm × Bool)
  | .leaf l, ticks, n =>
    if cut ticks then (0, ticks + 1, [])
    else (1, ticks + 1, mnfTryRules allowAnti (.leaf l) 1 rules n)
  | .node label args, ticks, n =>
    if cut ticks then (0, ticks + 1, [])
    else if args.length > rewriteMaxArity then (0xFFFFFF, ticks + 1, [])
    else
      let (size, ticks, below) := mnfSuccessorsArgs label args 0 args (ticks + 1) n
      (size + 1, ticks,
        below ++ mnfTryRules allowAnti (.node label args) (size + 1) rules (n + below.length))

/-- The successors of the arguments from the `i`-th on, put back among all of them. -/
def mnfSuccessorsArgs (label : ℕ) (all : List FTerm) :
    (i : ℕ) → List FTerm → (ticks n : ℕ) → ℕ × ℕ × List (FTerm × Bool)
  | _, [], ticks, _ => (0, ticks, [])
  | i, a :: as, ticks, n =>
    let (size, ticks, below) := mnfSuccessors a ticks n
    let (sizes, ticks, rest) := mnfSuccessorsArgs label all (i + 1) as ticks (n + below.length)
    (size + sizes, ticks, below.map (fun u => (.node label (all.set i u.1), u.2)) ++ rest)

end

end

/-! ## The edges again -/

/-- An equation that was a rule, and where it stands in the trace. -/
structure HistRule where
  lhs : FTerm
  rhs : FTerm
  trace : ℕ

/-- A rewrite found again: the slot in the history, the direction and the path. -/
structure Edge where
  rule : ℕ
  fwd : Bool
  pos : List ℕ
  deriving DecidableEq

section
variable (hist : List HistRule)

def mnfEdgeRule (before after : FTerm) (r : HistRule) (j : ℕ) : Option Edge :=
  if (mnfFire r.lhs r.rhs before).any fun repl => kboEq repl after then some ⟨j, true, []⟩
  else if atpVarsContained r.rhs r.lhs then
    if (mnfFire r.rhs r.lhs before).any fun repl => kboEq repl after then some ⟨j, false, []⟩
    else none
  else none

def mnfEdgeTop (before after : FTerm) : Option Edge :=
  hist.zipIdx.findSome? fun r => mnfEdgeRule before after r.1 r.2

mutual

def mnfEdgeStep : (depth : ℕ) → (before after : FTerm) → Option Edge
  | _, .leaf l, after => mnfEdgeTop hist (.leaf l) after
  | depth, .node f as, after =>
    match mnfEdgeTop hist (.node f as) after with
    | some e => some e
    | none =>
      match after with
      | .leaf _ => none
      | .node g bs =>
        if f = g ∧ as.length = bs.length ∧ depth < atpProofMaxDepth then
          mnfEdgeArgs (depth + 1) 0 as bs
        else none

/-- The arguments that differ are tried in order. -/
def mnfEdgeArgs (depth i : ℕ) : (before after : List FTerm) → Option Edge
  | a :: as, b :: bs =>
    if kboEq a b then mnfEdgeArgs depth (i + 1) as bs
    else
      match mnfEdgeStep depth a b with
      | some e => some { e with pos := i :: e.pos }
      | none => mnfEdgeArgs depth (i + 1) as bs
  | _, _ => none

end

/-- One step written to `out`, unless the edge is not found or there is no room. -/
def mnfEmitEdge (cap side : ℕ) (before after : FTerm) (out : List ProofStep) :
    Option (List ProofStep) :=
  match mnfEdgeStep hist 0 before after with
  | none => none
  | some e =>
    if out.length ≥ cap then none
    else some (out ++ [⟨side, (hist[e.rule]?.map HistRule.trace).getD 0, e.fwd, e.pos, before, after⟩])

def mnfEmitLineage (m : AtpMnf) (cap side : ℕ) :
    List ℕ → List ProofStep → Option (List ProofStep)
  | n₁ :: n₂ :: rest, out =>
    match mnfEmitEdge hist cap side (m.node n₁).term (m.node n₂).term out with
    | none => none
    | some out => mnfEmitLineage m cap side (n₂ :: rest) out
  | _, out => some out

end

/-- A node and its ancestors, at most `rounds` of them. -/
def mnfClimb (m : AtpMnf) : (rounds ni : ℕ) → List ℕ
  | 0, _ => []
  | n + 1, ni => ni :: if (m.node ni).parent = ni then [] else mnfClimb m n (m.node ni).parent

def mnfCollectLineage (m : AtpMnf) (ni cap : ℕ) : List ℕ :=
  (mnfClimb m (min (min cap (atpProofMaxSteps + 2)) (m.nodes.length + 1)) ni).reverse

def Colour.side (c : Colour) : ℕ := if c = .green then 0 else 1

namespace FrontState

variable (s : FrontState)

def mnfHistoricalRules : List HistRule :=
  s.rules.map (fun r => ⟨r.lhs, r.rhs, r.trace⟩) ++
    (s.trace.zipIdx.filter fun e => e.1.wasRule).map fun e => ⟨e.1.lhs, e.1.rhs, e.2⟩

/-- `thvm_atp_mnf_proof_extract`; no steps stand for 0. -/
def thvmAtpMnfProofExtract (cap : ℕ) : List ProofStep :=
  match s.mnf with
  | none => []
  | some m =>
    if cap = 0 ∨ !m.joined then []
    else
      let linA := mnfCollectLineage m m.meetA (atpProofMaxSteps + 2)
      let linB := mnfCollectLineage m m.meetBParent (atpProofMaxSteps + 1)
      let sideA := (m.node m.meetA).colour.side
      let sideB := m.meetBCol.side
      let hist := s.mnfHistoricalRules
      match mnfEmitLineage hist m cap sideA linA [] with
      | none => []
      | some out =>
        match mnfEmitLineage hist m cap sideB linB out with
        | none => []
        | some out =>
          let before := (m.node m.meetBParent).term
          if kboEq before m.meetTerm then out
          else (mnfEmitEdge hist cap sideB before m.meetTerm out).getD []

/-! ## The prover around the fronts -/

variable (cut : ℕ → Bool)

def mnfExpandNode (m : AtpMnf) (ni lo hi : ℕ) : FrontState :=
  let node := m.node ni
  let (_, ticks, succ) := mnfSuccessors cut (node.anti < mnfMaxAnti) ((s.rules.drop lo).take (hi - lo))
    node.term s.ticks 0
  { s with
    ticks := ticks
    mnf := some (succ.foldl (fun m u =>
      if m.joined then m
      else m.mnfInsert u.1 node.colour (if u.2 then node.anti + 1 else node.anti) ni) m) }

def mnfCreate (goal : FTerm × FTerm) : AtpMnf :=
  let m : AtpMnf := ⟨[], false, 0, 0, .fvr 0, .red⟩
  (m.mnfInsert goal.1 .green 0 mnfRootParent).mnfInsert goal.2 .red 0 mnfRootParent

/-- What happens to the rules, the trace, the goal and the fronts while the prover runs. Which
node is expanded when is left open. -/
inductive FrontOp
  | addRule (lhs rhs : FTerm) (orient fvi : Bool)
  | killRule (i : ℕ)
  | dropRule (i : ℕ)
  | composeRule (i : ℕ) (rhs : FTerm)
  | note (e : TraceEntry)
  | setGoal (goal : Option (FTerm × FTerm)) (existential : Bool)
  | aliasGoal (goal : FTerm × FTerm)
  | create
  | expand (ni lo hi : ℕ)

def apply : FrontOp → FrontState
  | .addRule lhs rhs orient fvi =>
    { s with
      rules := s.rules ++ [⟨lhs, rhs, orient, s.trace.length⟩]
      trace := s.trace ++ [⟨if fvi then .traceFvi else .traceOrient, lhs, rhs⟩] }
  | .killRule i =>
    { s with
      rules := s.rules.modify i fun r => { r with lhs := mnfDeadSentinel, rhs := mnfDeadSentinel } }
  | .dropRule i => { s with rules := s.rules.eraseIdx i }
  | .composeRule i rhs =>
    match s.rules[i]? with
    | none => s
    | some r =>
      { s with
        rules := s.rules.set i { r with rhs := rhs, trace := s.trace.length }
        trace := s.trace ++ [⟨.traceOrient, r.lhs, rhs⟩, ⟨.traceSimplify, r.lhs, rhs⟩] }
  | .note e => { s with trace := s.trace ++ [e] }
  | .setGoal goal existential => { s with goal := goal, goalExistential := existential }
  | .aliasGoal goal => { s with goal := some goal, mnf := none }
  | .create => { s with mnf := s.goal.map mnfCreate }
  | .expand ni lo hi =>
    match s.mnf with
    | none => s
    | some m => s.mnfExpandNode cut m ni lo hi

end FrontState

end Thvm.Atp
