import Thvm.ClauseInference
import Thvm.OrderLoops

/-!
# Saturation

The given-clause loop. Clauses wait in a queue until they are given; the given clause
meets itself and the active ones, and what comes out goes through simplification.
-/

namespace Thvm.Fol

inductive AtpStatus
  | running | proved | queueEmpty | aborted
  deriving DecidableEq, Repr

inductive CnfSelection
  | none | negative | positive
  deriving DecidableEq, Repr

/-- The store without the trace and the queue of clauses to be freed. `asked` counts the
questions to the `CnfWorld`. -/
structure CnfState where
  clauses : List (Option FolClause)
  active : List ℕ
  passive : List ℕ
  passiveHead : ℕ
  step : ℕ
  stepCap : ℕ
  status : AtpStatus
  cnfSelect : CnfSelection
  asked : ℕ

/-- What a run cannot know from the terms: the verdicts of an ordering, which has tables of
its own, and whether a term that replaces an equal one is the same word of the heap. -/
structure CnfWorld where
  ordering : Option (ℕ → FTerm → FTerm → Cmp)
  sameWord : ℕ → Bool

def cnfInit (stepCap : ℕ) (select : CnfSelection) : CnfState where
  clauses := []
  active := []
  passive := []
  passiveHead := 0
  step := 0
  stepCap := if stepCap = 0 then 2 ^ 30 else stepCap
  status := .running
  cnfSelect := select
  asked := 0

namespace CnfState

variable (s : CnfState)

/-- A slot is empty after its clause was subsumed or rewritten. -/
def clause (id : ℕ) : Option FolClause := s.clauses[id]?.join

def drop (id : ℕ) : CnfState := { s with clauses := s.clauses.set id none }

end CnfState

def cnfAddClause (s : CnfState) (c : FolClause) : CnfState :=
  { s with clauses := s.clauses ++ [some c], passive := s.passive ++ [s.clauses.length] }

/-- The selected literal; without one all literals are allowed. -/
def cnfSelectLit (select : CnfSelection) (c : FolClause) : Option ℕ :=
  match select with
  | .none => none
  | .negative => c.findIdx? fun l => l.sign
  | .positive => c.findIdx? fun l => !l.sign

def cnfAllows (select : CnfSelection) (c : FolClause) (i : ℕ) : Bool :=
  match cnfSelectLit select c with
  | none => true
  | some sel => i == sel

/-! ## Demodulation -/

/-- A term after rewriting, whether it is another word, and the questions asked so far. -/
structure Rewritten where
  term : FTerm
  changed : Bool
  asked : ℕ

/-- The right side has been put in the place of the left one. -/
def cnfReplaced (w : CnfWorld) (term subRhs : FTerm) (asked : ℕ) : Rewritten :=
  if subRhs = term then ⟨subRhs, !w.sameWord asked, asked + 1⟩ else ⟨subRhs, true, asked⟩

/-- The attempt at the root; `none` comes with the questions asked. -/
def cnfRewriteRoot (w : CnfWorld) (lhs rhs term : FTerm) (asked : ℕ) : Option Rewritten × ℕ :=
  let (ok, b) := thvmMatch lhs term fun _ => none
  if !ok then (none, asked)
  else
    let subRhs := thvmSubstApply b rhs
    match w.ordering with
    | none => (some (cnfReplaced w term subRhs asked), asked)
    | some compare =>
      if compare asked term subRhs = .gt then
        (some (cnfReplaced w term subRhs (asked + 1)), asked + 1)
      else (none, asked + 1)

mutual

def cnfRewriteOnce (w : CnfWorld) (lhs rhs : FTerm) : FTerm → ℕ → Rewritten
  | .leaf l, asked =>
    let (root, asked) := cnfRewriteRoot w lhs rhs (.leaf l) asked
    root.getD ⟨.leaf l, false, asked⟩
  | .node label args, asked =>
    match cnfRewriteRoot w lhs rhs (.node label args) asked with
    | (some root, _) => root
    | (none, asked) =>
      if args.length = 0 ∨ args.length > rewriteMaxArity then ⟨.node label args, false, asked⟩
      else
        let (kids, changed, asked) := cnfRewriteKids w lhs rhs args asked
        if changed then ⟨.node label kids, true, asked⟩ else ⟨.node label args, false, asked⟩

def cnfRewriteKids (w : CnfWorld) (lhs rhs : FTerm) : List FTerm → ℕ → List FTerm × Bool × ℕ
  | [], asked => ([], false, asked)
  | a :: as, asked =>
    let r := cnfRewriteOnce w lhs rhs a asked
    let (kids, changed, asked) := cnfRewriteKids w lhs rhs as r.asked
    (r.term :: kids, r.changed || changed, asked)

end

def cnfRewriteLits (w : CnfWorld) (lhs rhs : FTerm) : FolClause → ℕ → FolClause × Bool × ℕ
  | [], asked => ([], false, asked)
  | l :: c, asked =>
    let r := cnfRewriteOnce w lhs rhs l.atom asked
    let (lits, changed, asked) := cnfRewriteLits w lhs rhs c r.asked
    (⟨r.term, l.sign⟩ :: lits, r.changed || changed, asked)

/-- The sides of a clause that is a single positive equality. -/
def unitEqSides : FolClause → Option (FTerm × FTerm)
  | [l] => posEqSides l
  | _ => none

def cnfDemodulateOrdered (w : CnfWorld) (eqClause target : FolClause) (asked : ℕ) :
    Option FolClause × ℕ :=
  match unitEqSides eqClause with
  | none => (none, asked)
  | some (s, t) =>
    let lhs := thvmRenameVars folRenameOffset s
    let rhs := thvmRenameVars folRenameOffset t
    let (lits, changed, asked) := cnfRewriteLits w lhs rhs target asked
    if changed then (folClauseNew lits, asked) else (none, asked)

/-- The first active clause that rewrites the candidate. -/
def cnfForwardPass (w : CnfWorld) (s : CnfState) (c : FolClause) :
    List ℕ → ℕ → Option FolClause × ℕ
  | [], asked => (none, asked)
  | id :: ids, asked =>
    match s.clause id with
    | none => cnfForwardPass w s c ids asked
    | some rule =>
      match cnfDemodulateOrdered w rule c asked with
      | (some d, asked) => (some d, asked)
      | (none, asked) => cnfForwardPass w s c ids asked

def cnfDemodBudget : ℕ := 16

def cnfForwardDemod (w : CnfWorld) (s : CnfState) : ℕ → FolClause → ℕ → FolClause × ℕ
  | 0, c, asked => (c, asked)
  | budget + 1, c, asked =>
    match cnfForwardPass w s c s.active asked with
    | (some d, asked) => cnfForwardDemod w s budget d asked
    | (none, asked) => (c, asked)

/-! ## Subsumption -/

def cnfIsSubsumed (s : CnfState) (c : FolClause) : Bool :=
  (s.active ++ s.passive).any fun id => ((s.clause id).map (folSubsumes · c)).getD false

def cnfBackwardSubsume (s : CnfState) (newId : ℕ) : CnfState :=
  match s.clause newId with
  | none => s
  | some new =>
    { s with clauses := s.clauses.mapIdx fun i old =>
        if i ≠ newId ∧ (old.map (folSubsumes new)).getD false then none else old }

/-- The end of both redundancy filters for a clause that was simplified. -/
def cnfBackwardDemodAt (w : CnfWorld) (newId : ℕ) (rule : FolClause) (s : CnfState) (i : ℕ) :
    CnfState :=
  if s.status ≠ .running ∨ i = newId then s
  else
    match s.clause i with
    | none => s
    | some old =>
      match cnfDemodulateOrdered w rule old s.asked with
      | (none, asked) => { s with asked := asked }
      | (some d, asked) =>
        let s := { s.drop i with asked := asked }
        if d.isEmpty then { cnfAddClause s d with status := .proved }
        else if folIsTautology d then s
        else if cnfIsSubsumed s d then s
        else cnfAddClause s d

def cnfBackwardDemod (w : CnfWorld) (s : CnfState) (newId : ℕ) : CnfState :=
  match s.clause newId with
  | none => s
  | some rule =>
    if (unitEqSides rule).isNone then s
    else (List.range s.clauses.length).foldl (cnfBackwardDemodAt w newId rule) s

/-- A derived clause on its way into the queue. -/
def cnfConsider (w : CnfWorld) (s : CnfState) : Option FolClause → CnfState
  | none => s
  | some c =>
    if s.status ≠ .running then s
    else
      let (c, asked) := cnfForwardDemod w s cnfDemodBudget c s.asked
      let s := { s with asked := asked }
      if c.isEmpty then { cnfAddClause s c with status := .proved }
      else if folIsTautology c then s
      else if cnfIsSubsumed s c then s
      else
        let newId := s.clauses.length
        cnfBackwardDemod w (cnfBackwardSubsume (cnfAddClause s c) newId) newId

/-! ## Generation -/

/-- Each inference of a list, until the status changes. -/
def considerEach {α : Type} (w : CnfWorld) (infer : α → Option (Option FolClause)) :
    List α → CnfState → Option CnfState
  | [], s => some s
  | a :: as, s =>
    if s.status ≠ .running then some s
    else do considerEach w infer as (cnfConsider w s (← infer a))

/-- All pairs of indices, the first one in the outer loop. -/
def indexPairs (m n : ℕ) : List (ℕ × ℕ) :=
  (List.range m).flatMap fun i => (List.range n).map fun j => (i, j)

def cnfGenResolution (w : CnfWorld) (rounds aId bId : ℕ) (s : CnfState) : Option CnfState :=
  match s.clause aId, s.clause bId with
  | some a, some b =>
    considerEach w (fun p => folResolve rounds a p.1 b p.2)
      ((indexPairs a.length b.length).filter fun p =>
        cnfAllows s.cnfSelect a p.1 && cnfAllows s.cnfSelect b p.2) s
  | _, _ => some s

def cnfGenFactoring (w : CnfWorld) (rounds cId : ℕ) (s : CnfState) : Option CnfState :=
  match s.clause cId with
  | none => some s
  | some c =>
    considerEach w (fun p => folFactor rounds c p.1 p.2)
      ((indexPairs c.length c.length).filter fun p => p.1 < p.2) s

def cnfGenReflex (w : CnfWorld) (rounds cId : ℕ) (s : CnfState) : Option CnfState :=
  match s.clause cId with
  | none => some s
  | some c => considerEach w (folReflexResolve rounds c) (List.range c.length) s

mutual

/-- The paths to the constructors, each before those below it. -/
def cnfWalkPositions : FTerm → List ℕ → List (List ℕ)
  | .leaf _, _ => []
  | .node _ args, path =>
    path :: if path.length ≥ cpMaxDepth then [] else cnfWalkArgs args path 0

def cnfWalkArgs : List FTerm → List ℕ → ℕ → List (List ℕ)
  | [], _, _ => []
  | a :: as, path, i => cnfWalkPositions a (path ++ [i]) ++ cnfWalkArgs as path (i + 1)

end

/-- A place for paramodulation: the equality, the literal, the path in it, the orientation. -/
structure ParamodSite where
  eqIdx : ℕ
  targetIdx : ℕ
  path : List ℕ
  swap : Bool

/-- Both orientations at each position of a literal. -/
def paramodSitesAt (target : FolClause) (i j : ℕ) : List ParamodSite :=
  match target[j]? with
  | none => []
  | some l => (cnfWalkPositions l.atom []).flatMap fun path => [⟨i, j, path, false⟩, ⟨i, j, path, true⟩]

def cnfGenParamod (w : CnfWorld) (rounds eqId targetId : ℕ) (s : CnfState) : Option CnfState :=
  match s.clause eqId, s.clause targetId with
  | some eqc, some tgt =>
    considerEach w (fun x => folParamodulate rounds eqc x.eqIdx x.swap tgt x.targetIdx x.path)
      (((indexPairs eqc.length tgt.length).filter fun p =>
        (eqc[p.1]?.bind posEqSides).isSome && cnfAllows s.cnfSelect tgt p.2 &&
          !(eqId == targetId && p.1 == p.2)).flatMap fun p => paramodSitesAt tgt p.1 p.2) s
  | _, _ => some s

def cnfGenEqFactoring (w : CnfWorld) (rounds cId : ℕ) (s : CnfState) : Option CnfState :=
  match s.clause cId with
  | none => some s
  | some c =>
    considerEach w (fun p => folEqFactor rounds c p.1 p.2) (indexPairs c.length c.length) s

/-! ## The loop -/

/-- The next clause of the queue that is still there, and the head behind it. -/
def cnfPop (s : CnfState) : Option ℕ × ℕ :=
  match (s.passive.drop s.passiveHead).findIdx? fun id => (s.clause id).isSome with
  | none => (none, s.passive.length)
  | some n => (s.passive[s.passiveHead + n]?, s.passiveHead + n + 1)

/-- The given clause with itself. -/
def cnfSelf (w : CnfWorld) (rounds given : ℕ) (s : CnfState) : Option CnfState := do
  let s ← cnfGenFactoring w rounds given s
  let s ← cnfGenReflex w rounds given s
  let s ← cnfGenEqFactoring w rounds given s
  cnfGenParamod w rounds given given s

/-- The given clause with an active one. -/
def cnfCross (w : CnfWorld) (rounds given : ℕ) (s : CnfState) (aId : ℕ) : Option CnfState :=
  if s.status ≠ .running ∨ aId = given then some s
  else if (s.clause aId).isNone then some s
  else do
    let s ← cnfGenResolution w rounds given aId s
    let s ← cnfGenResolution w rounds aId given s
    let s ← cnfGenParamod w rounds given aId s
    cnfGenParamod w rounds aId given s

def cnfStep (w : CnfWorld) (rounds : ℕ) (s : CnfState) : Option CnfState :=
  if s.status ≠ .running then some s
  else if s.step ≥ s.stepCap then some { s with status := .aborted }
  else
    match cnfPop s with
    | (none, head) => some { s with passiveHead := head, status := .queueEmpty }
    | (some given, head) => do
      let s ← cnfSelf w rounds given { s with passiveHead := head, active := s.active ++ [given] }
      if s.status ≠ .running then some s
      else if (s.clause given).isNone then some { s with step := s.step + 1 }
      else
        let s ← s.active.dropLast.foldlM (cnfCross w rounds given) s
        if s.status ≠ .running then some s else some { s with step := s.step + 1 }

def cnfRun (w : CnfWorld) (rounds : ℕ) : ℕ → CnfState → Option CnfState
  | 0, _ => none
  | steps + 1, s => if s.status ≠ .running then some s else do cnfRun w rounds steps (← cnfStep w rounds s)

/-- A prover with its input clauses. -/
def cnfStart (stepCap : ℕ) (select : CnfSelection) (cs : List FolClause) : CnfState :=
  cs.foldl cnfAddClause (cnfInit stepCap select)

end Thvm.Fol
