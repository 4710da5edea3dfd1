import Thvm.FirstOrderTerms

/-!
# Clausification

Formulas are brought to negation normal form and Skolemised; the clauses come from
distributing the matrix or from naming its subformulas.
-/

namespace Thvm.Fol

def labEq : ℕ := 0
def labNot : ℕ := 0xFFF0
def labAnd : ℕ := 0xFFF1
def labOr : ℕ := 0xFFF2
def labImp : ℕ := 0xFFF3
def labIff : ℕ := 0xFFF4
def labAll : ℕ := 0xFFF5
def labEx : ℕ := 0xFFF6

def folMaxLits : ℕ := 64

structure FolLit where
  atom : FTerm
  sign : Bool
  deriving DecidableEq

abbrev FolClause := List FolLit

/-- A formula; an atom is a term without a connective at its root. A quantifier has a term in
the place of its variable, since a substitution may put one there. -/
inductive Formula where
  | atom (t : FTerm)
  | not (p : Formula)
  | and (p q : Formula)
  | or (p q : Formula)
  | imp (p q : Formula)
  | iff (p q : Formula)
  | all (var : FTerm) (body : Formula)
  | ex (var : FTerm) (body : Formula)
  deriving DecidableEq

namespace Formula

/-- The term of a formula. -/
def toTerm : Formula → FTerm
  | .atom t => t
  | .not p => .ctr labNot [p.toTerm]
  | .and p q => .ctr labAnd [p.toTerm, q.toTerm]
  | .or p q => .ctr labOr [p.toTerm, q.toTerm]
  | .imp p q => .ctr labImp [p.toTerm, q.toTerm]
  | .iff p q => .ctr labIff [p.toTerm, q.toTerm]
  | .all var body => .ctr labAll [var, body.toTerm]
  | .ex var body => .ctr labEx [var, body.toTerm]

def size : Formula → ℕ
  | .atom _ => 1
  | .not p => p.size + 1
  | .and p q | .or p q | .imp p q | .iff p q => p.size + q.size + 1
  | .all _ body | .ex _ body => body.size + 1

end Formula

/-! ## Negation normal form -/

def folNnfAtom (atom : FTerm) (negate : Bool) : Formula :=
  if negate then .not (.atom atom) else .atom atom

def folNnfRec : Formula → Bool → Formula
  | .atom t, negate => folNnfAtom t negate
  | .not p, negate => folNnfRec p (!negate)
  | .and p q, true => .or (folNnfRec p true) (folNnfRec q true)
  | .and p q, false => .and (folNnfRec p false) (folNnfRec q false)
  | .or p q, true => .and (folNnfRec p true) (folNnfRec q true)
  | .or p q, false => .or (folNnfRec p false) (folNnfRec q false)
  | .imp p q, true => .and (folNnfRec p false) (folNnfRec q true)
  | .imp p q, false => .or (folNnfRec p true) (folNnfRec q false)
  | .iff p q, true =>
    .or (.and (folNnfRec p false) (folNnfRec q true)) (.and (folNnfRec p true) (folNnfRec q false))
  | .iff p q, false =>
    .and (.or (folNnfRec p true) (folNnfRec q false)) (.or (folNnfRec p false) (folNnfRec q true))
  | .all var body, true => .ex var (folNnfRec body true)
  | .all var body, false => .all var (folNnfRec body false)
  | .ex var body, true => .all var (folNnfRec body true)
  | .ex var body, false => .ex var (folNnfRec body false)

def folNnf (f : Formula) : Formula := folNnfRec f false

/-! ## Skolemisation -/

def folLabSkolemBase : ℕ := 0x20000

def folSkolemMaxUniv : ℕ := 256

mutual

/-- A node with too many arguments is left as it is. -/
def folVarSubst (varId : ℕ) (repl : FTerm) : FTerm → FTerm
  | .leaf (.fvr id) => if id = varId then repl else .leaf (.fvr id)
  | .leaf (.num dtype value) => .leaf (.num dtype value)
  | .node label args =>
    if args.length > rewriteMaxArity then .node label args
    else .node label (folVarSubstList varId repl args)

def folVarSubstList (varId : ℕ) (repl : FTerm) : List FTerm → List FTerm
  | [] => []
  | a :: as => folVarSubst varId repl a :: folVarSubstList varId repl as

end

/-- `fol_var_subst` on the term of a formula; it goes below the quantifiers and into them. -/
def Formula.varSubst (varId : ℕ) (repl : FTerm) : Formula → Formula
  | .atom t => .atom (folVarSubst varId repl t)
  | .not p => .not (p.varSubst varId repl)
  | .and p q => .and (p.varSubst varId repl) (q.varSubst varId repl)
  | .or p q => .or (p.varSubst varId repl) (q.varSubst varId repl)
  | .imp p q => .imp (p.varSubst varId repl) (q.varSubst varId repl)
  | .iff p q => .iff (p.varSubst varId repl) (q.varSubst varId repl)
  | .all var body => .all (folVarSubst varId repl var) (body.varSubst varId repl)
  | .ex var body => .ex (folVarSubst varId repl var) (body.varSubst varId repl)

@[simp] theorem Formula.size_varSubst (varId : ℕ) (repl : FTerm) (f : Formula) :
    (f.varSubst varId repl).size = f.size := by
  induction f <;> simp_all [Formula.varSubst, Formula.size]

/-- A term built by `term_new_ctr` keeps 18 bits of its label. -/
def termNewCtr (label : ℕ) (args : List FTerm) : FTerm := .ctr (label % 2 ^ 18) args

/-- `next` is the counter of Skolem symbols. -/
def folSkolemRec : Formula → List FTerm → ℕ → Formula × ℕ
  | .not p, univ, next =>
    let (p', next) := folSkolemRec p univ next
    (.not p', next)
  | .and p q, univ, next =>
    let (p', next) := folSkolemRec p univ next
    let (q', next) := folSkolemRec q univ next
    (.and p' q', next)
  | .or p q, univ, next =>
    let (p', next) := folSkolemRec p univ next
    let (q', next) := folSkolemRec q univ next
    (.or p' q', next)
  | .imp p q, univ, next =>
    let (p', next) := folSkolemRec p univ next
    let (q', next) := folSkolemRec q univ next
    (.imp p' q', next)
  | .iff p q, univ, next =>
    let (p', next) := folSkolemRec p univ next
    let (q', next) := folSkolemRec q univ next
    (.iff p' q', next)
  | .all var body, univ, next =>
    if univ.length ≥ folSkolemMaxUniv then (.all var body, next)
    else folSkolemRec body (univ ++ [var]) next
  | .ex (.leaf (.fvr vid)) body, univ, next =>
    folSkolemRec (body.varSubst vid (termNewCtr (folLabSkolemBase + next) univ)) univ (next + 1)
  | f, _, next => (f, next)
termination_by f => f.size
decreasing_by all_goals simp [Formula.size] <;> omega

def folSkolemize (f : Formula) : Formula := (folSkolemRec f [] 0).1

/-! ## Distribution -/

/-- `none` when the rounds run out. -/
def folDistribute : ℕ → Formula → Option Formula
  | 0, _ => none
  | n + 1, .and p q => do some (.and (← folDistribute n p) (← folDistribute n q))
  | n + 1, .or p q => do
    let dp ← folDistribute n p
    let dq ← folDistribute n q
    match dp, dq with
    | .and a b, dq => some (.and (← folDistribute n (.or a dq)) (← folDistribute n (.or b dq)))
    | dp, .and a b => some (.and (← folDistribute n (.or dp a)) (← folDistribute n (.or dp b)))
    | dp, dq => some (.or dp dq)
  | _ + 1, f => some f

def folExtractOr : Formula → List FolLit
  | .or p q => folExtractOr p ++ folExtractOr q
  | .not p => [⟨p.toTerm, true⟩]
  | f => [⟨f.toTerm, false⟩]

/-- `fol_clause_new` makes no clause of more than `FOL_MAX_LITS` literals. -/
def folClauseNew (lits : List FolLit) : Option FolClause :=
  if lits.length > folMaxLits then none else some lits

def folAppendClause (orRoot : Formula) : List FolClause := (folClauseNew (folExtractOr orRoot)).toList

def folExtractAnd : Formula → List FolClause
  | .and p q => folExtractAnd p ++ folExtractAnd q
  | f => folAppendClause f

def folFormulaToClauses (rounds : ℕ) (f : Formula) : Option (List FolClause) := do
  let cnf ← folDistribute rounds (folSkolemize (folNnf f))
  some (folExtractAnd cnf)

/-! ## Naming subformulas -/

def folLabTseitinBase : ℕ := 0x10000

def folTseitinMaxVars : ℕ := 128

/-- The variables in the order of their first occurrence, at most `cap`. -/
def folCollectVars (cap : ℕ) (t : FTerm) (vars : List ℕ) : List ℕ :=
  (t.leaves.filterMap FTerm.leafId).foldl (fun vars id =>
    if id ∈ vars then vars else if vars.length < cap then vars ++ [id] else vars) vars

/-- The counter of auxiliary symbols and the clauses; `named` remembers which atom names which
subformula, the code keeps it nowhere. -/
structure TseitinState where
  next : ℕ
  out : List FolClause
  named : List (Formula × FTerm)

def folFreshAux (vars : List ℕ) (next : ℕ) : FTerm :=
  termNewCtr (folLabTseitinBase + next) ((vars.take folTseitinMaxVars).map FTerm.fvr)

def folTseitinEmit (out : List FolClause) (lits : List FolLit) : List FolClause :=
  out ++ (folClauseNew lits).toList

def FolLit.neg (l : FolLit) : FolLit := ⟨l.atom, !l.sign⟩

/-- The clauses for a subformula `f` with the names of its two parts. -/
def folTseitinName (f : Formula) (isAnd : Bool) (b c : FolLit) (st : TseitinState) :
    FolLit × TseitinState :=
  let aux := folFreshAux (folCollectVars folTseitinMaxVars f.toTerm []) st.next
  let pos : FolLit := ⟨aux, false⟩
  let neg : FolLit := ⟨aux, true⟩
  let out :=
    if isAnd then
      folTseitinEmit (folTseitinEmit (folTseitinEmit st.out [neg, b]) [neg, c]) [b.neg, c.neg, pos]
    else
      folTseitinEmit (folTseitinEmit (folTseitinEmit st.out [neg, b, c]) [b.neg, pos]) [c.neg, pos]
  (pos, ⟨st.next + 1, out, st.named ++ [(f, aux)]⟩)

/-- Every other connective is taken for a disjunction. -/
def folTseitinRec : Formula → TseitinState → FolLit × TseitinState
  | .not p, st => (⟨p.toTerm, true⟩, st)
  | .atom t, st => (⟨t, false⟩, st)
  | .and p q, st =>
    let (b, st) := folTseitinRec p st
    let (c, st) := folTseitinRec q st
    folTseitinName (.and p q) true b c st
  | .or p q, st =>
    let (b, st) := folTseitinRec p st
    let (c, st) := folTseitinRec q st
    folTseitinName (.or p q) false b c st
  | .imp p q, st =>
    let (b, st) := folTseitinRec p st
    let (c, st) := folTseitinRec q st
    folTseitinName (.imp p q) false b c st
  | .iff p q, st =>
    let (b, st) := folTseitinRec p st
    let (c, st) := folTseitinRec q st
    folTseitinName (.iff p q) false b c st
  | .all var body, st =>
    let (c, st) := folTseitinRec body st
    folTseitinName (.all var body) false ⟨var, false⟩ c st
  | .ex var body, st =>
    let (c, st) := folTseitinRec body st
    folTseitinName (.ex var body) false ⟨var, false⟩ c st

def tseitinRun (matrix : Formula) : FolLit × TseitinState := folTseitinRec matrix ⟨0, [], []⟩

def folTseitinExtractClauses (matrix : Formula) : List FolClause :=
  folTseitinEmit (tseitinRun matrix).2.out [(tseitinRun matrix).1]

def folFormulaToClausesTseitin (f : Formula) : List FolClause :=
  folTseitinExtractClauses (folSkolemize (folNnf f))

end Thvm.Fol
