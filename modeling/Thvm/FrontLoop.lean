import Thvm.FrontSearchSpec

/-!
# The loop of the front search

The prover calls the front search with the rules that it has at the time. A call first tries
the rules that are new since the last one on the nodes that have been expanded, and then
expands nodes from the two queues with all rules. `reached`, `meetEqs` and `interrupted`
record what a node was reached with and that an expansion was given up; the program has no
such fields.
-/

namespace Thvm.Atp

/-- The fronts with the marks and queues of the loop. A queue has its newest node first. -/
structure Fronts extends AtpMnf where
  expanded : ℕ → Bool
  irred : ℕ → Bool
  qred : List ℕ
  qgreen : List ℕ
  redLastIrred : Bool
  greenLastIrred : Bool
  nRulesSeen : ℕ
  seedRed : FTerm
  seedGreen : FTerm
  nTrunc : ℕ
  full : Bool
  /-- the calls of `mnf_successors` and of `mnf_loop_guard` -/
  ticks : ℕ
  guards : ℕ
  interrupted : Bool
  reached : ℕ → List (FTerm × FTerm)
  meetEqs : List (FTerm × FTerm)

/-- What `mnf_loop_guard` finds: the time is over, or the heap is full. -/
inductive LoopGuard
  | go | stop | heapFull
  deriving DecidableEq

/-- The calls of `mnf_successors` that give up, and the answers of the guard. -/
structure FrontWorld where
  cut : ℕ → Bool
  guard : ℕ → LoopGuard

namespace Fronts

variable (f : Fronts)

/-- The equations with which a node's own ancestors were reached. -/
def base (parent : ℕ) : List (FTerm × FTerm) :=
  if parent = mnfRootParent then [] else f.reached parent

/-- `mnf_insert`, with the equations of the rules that are there. -/
def insert (eqs : List (FTerm × FTerm)) (t : FTerm) (col : Colour) (anti parent : ℕ) : Fronts :=
  let m := f.mnfInsert t col anti parent
  match f.mnfLookup t with
  | some idx =>
    if (f.node idx).colour ≠ col then
      { f with toAtpMnf := m, meetEqs := f.reached idx ++ (f.base parent ++ eqs) }
    else f
  | none =>
    let ni := f.nodes.length
    if ni ≥ mnfMaxNodes then { f with full := true }
    else
      { f with
        toAtpMnf := m
        expanded := Function.update f.expanded ni false
        irred := Function.update f.irred ni true
        qred := if col = .red then ni :: f.qred else f.qred
        qgreen := if col = .red then f.qgreen else ni :: f.qgreen
        reached := Function.update f.reached ni (f.base parent ++ eqs) }

/-- One successor of a node. -/
def insertSucc (eqs : List (FTerm × FTerm)) (n : MnfNode) (ni : ℕ) (f : Fronts)
    (u : FTerm × Bool) : Fronts :=
  if f.joined then f
  else
    Fronts.insert (if u.2 then f else { f with irred := Function.update f.irred ni false })
      eqs u.1 n.colour (if u.2 then n.anti + 1 else n.anti) ni

variable (w : FrontWorld) (rules : List ProverRule)

/-- The successors of node `ni` by the rules from `lo` up to `hi`. -/
def successors (ni lo hi : ℕ) : ℕ × ℕ × List (FTerm × Bool) :=
  mnfSuccessors w.cut ((f.node ni).anti < mnfMaxAnti) ((rules.drop lo).take (hi - lo))
    (f.node ni).term f.ticks 0

/-- The buffer filled, and whether that was cut short. -/
def collect (ni lo hi : ℕ) : Fronts :=
  let succ := f.successors w rules ni lo hi
  { f with
    ticks := succ.2.1
    nTrunc := if succ.2.2.length ≥ mnfSuccCap then f.nTrunc + 1 else f.nTrunc
    interrupted := f.interrupted || (List.range' f.ticks (succ.2.1 - f.ticks)).any w.cut }

def mnfExpandNode (ni lo hi : ℕ) : Fronts :=
  (f.successors w rules ni lo hi).2.2.foldl (insertSucc (sides rules) (f.node ni) ni)
    (f.collect w rules ni lo hi)

/-- Whether the loop must stop. -/
def mnfLoopGuard : Bool × Fronts :=
  match w.guard f.guards with
  | .go => (false, { f with guards := f.guards + 1 })
  | .stop => (true, { f with guards := f.guards + 1, interrupted := true })
  | .heapFull => (true, { f with guards := f.guards + 1, interrupted := true, full := true })

/-- The first loop of `mnf_step`, over `k` nodes from `ni` on. -/
def reexpandFrom (lo hi : ℕ) : (k ni : ℕ) → Fronts → Fronts
  | 0, _, f => f
  | k + 1, ni, f =>
    if f.joined then f
    else if f.expanded ni then
      let g := f.mnfLoopGuard w
      if g.1 then g.2 else reexpandFrom lo hi k (ni + 1) (g.2.mnfExpandNode w rules ni lo hi)
    else reexpandFrom lo hi k (ni + 1) f

/-- The oldest node of a queue, or the newest. -/
def mnfPop (q : List ℕ) (lastIrred : Bool) : ℕ × List ℕ :=
  if lastIrred then (q.getLastD 0, q.dropLast) else (q.headD 0, q.tail)

/-- A node from a queue is expanded with all rules, if it has not been. -/
def expandOnce (ni : ℕ) : Fronts :=
  if f.expanded ni then f
  else
    let f := f.mnfExpandNode w rules ni 0 rules.length
    { f with expanded := Function.update f.expanded ni true }

def redTurn : Fronts :=
  if f.qred = [] then f
  else
    let p := mnfPop f.qred f.redLastIrred
    let f := Fronts.expandOnce { f with qred := p.2 } w rules p.1
    { f with redLastIrred := f.irred p.1 }

def greenTurn : Fronts :=
  if f.qgreen = [] then f
  else
    let p := mnfPop f.qgreen f.greenLastIrred
    let f := Fronts.expandOnce { f with qgreen := p.2 } w rules p.1
    { f with greenLastIrred := f.irred p.1 }

/-- The second loop of `mnf_step`. -/
def rounds : (budget : ℕ) → Fronts → Fronts
  | 0, f => f
  | b + 1, f =>
    if f.joined then f
    else
      let g := f.mnfLoopGuard w
      if g.1 then g.2
      else
        let r := g.2.redTurn w rules
        if g.2.qred = [] ∧ (r.joined ∨ r.qgreen = []) then r
        else rounds b (if r.joined then r else r.greenTurn w rules)

/-- The rules that the expanded nodes have not been tried with. -/
def feedNewRules : Fronts :=
  if rules.length > f.nRulesSeen then
    { reexpandFrom w rules f.nRulesSeen rules.length f.nodes.length 0 f with
      nRulesSeen := rules.length }
  else f

def mnfStep (budget : ℕ) : Fronts :=
  if f.joined then f else rounds w rules budget (f.feedNewRules w rules)

/-- `mnf_create`. -/
def mnfCreate (goal : FTerm × FTerm) : Fronts :=
  let f : Fronts :=
    { nodes := [], joined := false, meetA := 0, meetBParent := 0, meetTerm := .fvr 0
      meetBCol := .red, expanded := fun _ => false, irred := fun _ => false, qred := []
      qgreen := [], redLastIrred := false, greenLastIrred := false, nRulesSeen := 0
      seedRed := goal.2, seedGreen := goal.1, nTrunc := 0, full := false, ticks := 0, guards := 0
      interrupted := false, reached := fun _ => [], meetEqs := [] }
  (f.insert [] goal.1 .green 0 mnfRootParent).insert [] goal.2 .red 0 mnfRootParent

end Fronts

/-! ## Runs -/

structure FrontLoop where
  prover : FrontState
  fronts : Option Fronts

/-- What happens between the calls, and a call. -/
inductive LoopOp
  | prover (op : FrontState.FrontOp)
  | create
  | step (w : FrontWorld) (budget : ℕ)

namespace FrontLoop

/-- A new goal does away with the fronts of the old one. -/
def apply (s : FrontLoop) : LoopOp → FrontLoop
  | .prover op =>
    ⟨s.prover.apply (fun _ => false) op, match op with | .aliasGoal _ => none | _ => s.fronts⟩
  | .create =>
    match s.fronts with
    | some _ => s
    | none => { s with fronts := s.prover.goal.map Fronts.mnfCreate }
  | .step w budget =>
    { s with fronts := s.fronts.map fun f => f.mnfStep w s.prover.rules budget }

end FrontLoop

end Thvm.Atp
