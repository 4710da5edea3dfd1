import Thvm.Clausification
import Thvm.CriticalPairs

/-!
# Inferences on clauses

Binary resolution, factoring, paramodulation and the two equality rules, with the
substitutions of the unifier, and subsumption and rewriting with those of the matcher. A
result of `none` means that the rounds ran out, and `some none` that there is no inference.
-/

namespace Thvm

/-! ## Matching -/

mutual

/-- The bindings that are made before a clash stay. -/
def thvmMatch : FTerm → FTerm → (ℕ → Option FTerm) → Bool × (ℕ → Option FTerm)
  | .leaf (.fvr id), t, b =>
    if id ≥ rewriteMaxVar then (false, b)
    else
      match b id with
      | none => (true, Function.update b id (some t))
      | some u => (kboEq u t, b)
  | .node f as, .node g bs, b =>
    if f ≠ g then (false, b)
    else if as.length ≠ bs.length then (false, b)
    else thvmMatchArgs as bs b
  | _, _, b => (false, b)

def thvmMatchArgs : List FTerm → List FTerm → (ℕ → Option FTerm) → Bool × (ℕ → Option FTerm)
  | a :: as, t :: ts, b =>
    let (ok, b) := thvmMatch a t b
    if ok then thvmMatchArgs as ts b else (false, b)
  | _, _, b => (true, b)

end

mutual

def thvmSubstApply (b : ℕ → Option FTerm) : FTerm → FTerm
  | .leaf (.fvr id) => if id < rewriteMaxVar then (b id).getD (.fvr id) else .fvr id
  | .leaf (.num dtype value) => .leaf (.num dtype value)
  | .node label args =>
    if args.length > rewriteMaxArity then .node label args
    else .node label (thvmSubstApplyArgs b args)

def thvmSubstApplyArgs (b : ℕ → Option FTerm) : List FTerm → List FTerm
  | [] => []
  | a :: as => thvmSubstApply b a :: thvmSubstApplyArgs b as

end

namespace Fol

def folRenameOffset : ℕ := rewriteMaxVar / 2

def FolLit.map (f : FTerm → FTerm) (l : FolLit) : FolLit := ⟨f l.atom, l.sign⟩

/-- A clause with its variables renamed apart. -/
def folRename (c : FolClause) : FolClause := c.map (·.map (thvmRenameVars folRenameOffset))

/-- `thvm_unify_apply` on the atoms. -/
def applyLits (b : ℕ → Option FTerm) (rounds : ℕ) (c : FolClause) : Option FolClause :=
  c.mapM fun l => do some ⟨← thvmUnifyApply b rounds l.atom, l.sign⟩

/-! ## Resolution and factoring -/

def folResolve (rounds : ℕ) (c₁ : FolClause) (i : ℕ) (c₂ : FolClause) (j : ℕ) :
    Option (Option FolClause) :=
  match c₁[i]?, c₂[j]? with
  | some l₁, some l₂ =>
    if l₁.sign = l₂.sign then some none
    else do
      let (ok, st) ← thvmUnify rounds l₁.atom (thvmRenameVars folRenameOffset l₂.atom) .empty
      if !ok then some none
      else do
        let lits ← applyLits st.bindings rounds (c₁.eraseIdx i ++ folRename (c₂.eraseIdx j))
        some (folClauseNew lits)
  | _, _ => some none

def folFactor (rounds : ℕ) (clause : FolClause) (i j : ℕ) : Option (Option FolClause) :=
  match clause[i]?, clause[j]? with
  | some li, some lj =>
    if i = j then some none
    else if li.sign ≠ lj.sign then some none
    else do
      let (ok, st) ← thvmUnify rounds li.atom lj.atom .empty
      if !ok then some none
      else do
        let lits ← applyLits st.bindings rounds (clause.eraseIdx j)
        some (folClauseNew lits)
  | _, _ => some none

/-! ## Equality -/

/-- `fol_atom_is_eq` with the two sides. -/
def eqSides : FTerm → Option (FTerm × FTerm)
  | .node label [s, t] => if label = labEq then some (s, t) else none
  | _ => none

/-- The sides of a positive equality. -/
def posEqSides (l : FolLit) : Option (FTerm × FTerm) := if l.sign then none else eqSides l.atom

def folParamodulate (rounds : ℕ) (eqClause : FolClause) (eqIdx : ℕ) (swap : Bool)
    (target : FolClause) (targetIdx : ℕ) (path : List ℕ) : Option (Option FolClause) :=
  match eqClause[eqIdx]?.bind posEqSides, target[targetIdx]? with
  | some sides, some l =>
    let s := if swap then sides.2 else sides.1
    let t := if swap then sides.1 else sides.2
    let atom := thvmRenameVars folRenameOffset l.atom
    match cpSubtermAt atom path with
    | none => some none
    | some (.leaf (.fvr _)) => some none
    | some u => do
      let (ok, st) ← thvmUnify rounds s u .empty
      if !ok then some none
      else do
        let lits ← applyLits st.bindings rounds (eqClause.eraseIdx eqIdx ++
          (folRename target).set targetIdx ⟨cpReplaceAt atom path t, l.sign⟩)
        some (folClauseNew lits)
  | _, _ => some none

/-- The witness that the two other sides differ goes to the end. -/
def folEqFactor (rounds : ℕ) (clause : FolClause) (i j : ℕ) : Option (Option FolClause) :=
  match clause[i]?.bind posEqSides, clause[j]?.bind posEqSides with
  | some (s₁, t₁), some (s₂, t₂) =>
    if i = j then some none
    else do
      let (ok, st) ← thvmUnify rounds s₁ s₂ .empty
      if !ok then some none
      else do
        let lits ← applyLits st.bindings rounds (clause.eraseIdx j)
        let t₁ ← thvmUnifyApply st.bindings rounds t₁
        let t₂ ← thvmUnifyApply st.bindings rounds t₂
        some (folClauseNew (lits ++ [⟨.ctr labEq [t₁, t₂], true⟩]))
  | _, _ => some none

def folReflexResolve (rounds : ℕ) (clause : FolClause) (idx : ℕ) : Option (Option FolClause) :=
  match clause[idx]? with
  | none => some none
  | some l =>
    if !l.sign then some none
    else
      match eqSides l.atom with
      | none => some none
      | some (s, t) => do
        let (ok, st) ← thvmUnify rounds s t .empty
        if !ok then some none
        else do
          let lits ← applyLits st.bindings rounds (clause.eraseIdx idx)
          some (folClauseNew lits)

/-! ## Redundancy -/

/-- The literals of the first clause are matched in their order, each with the first unused
literal of the second for which the rest succeeds too. -/
def folSubsumeRec (c₂ : FolClause) : FolClause → List Bool → (ℕ → Option FTerm) → Bool
  | [], _, _ => true
  | l :: c₁, used, b =>
    (List.range c₂.length).any fun j =>
      match c₂[j]?, used[j]? with
      | some l₂, some false =>
        l₂.sign == l.sign &&
          let (ok, b) := thvmMatch l.atom l₂.atom b
          ok && folSubsumeRec c₂ c₁ (used.set j true) b
      | _, _ => false

def folSubsumes (c₁ c₂ : FolClause) : Bool :=
  if c₁.length > c₂.length then false
  else if c₁.length = 0 then true
  else if c₂.length > folMaxLits then false
  else folSubsumeRec (folRename c₂) c₁ (List.replicate c₂.length false) fun _ => none

/-- Whether the literal has an opposite one among others. -/
def folClashes (l : FolLit) (c : FolClause) : Bool :=
  c.any fun l' => l.sign != l'.sign && kboEq l.atom l'.atom

def folComplementary : FolClause → Bool
  | [] => false
  | l :: c => folClashes l c || folComplementary c

def folIsReflexive (l : FolLit) : Bool :=
  match posEqSides l with
  | some (s, t) => kboEq s t
  | none => false

def folIsTautology (c : FolClause) : Bool := folComplementary c || c.any folIsReflexive

end Fol

end Thvm
