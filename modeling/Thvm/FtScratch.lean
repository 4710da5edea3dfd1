import Thvm.FtRoundTrip

/-!
# Terms in the scratch arena

Constructions of scratch terms one after the other since a reset: cells of a variable or a
constant, a node over terms built before, a whole term, and the instance of a term.
-/

namespace Thvm.Ft

open ThreadedTrees

/-- `ATPFT_MAX_VARS`. -/
def atpftMaxVars : ℕ := 64

/-- `AtpFtSubst.bind`. -/
abbrev Bindings := ℕ → Option Addr

/-- `ft_unify_walk`, over a number of rounds. -/
def ftUnifyWalk (m : FtMemory) (s : Bindings) : ℕ → Addr → Option Addr
  | 0, _ => none
  | n + 1, t => do
    let c ← m t
    if ftIsVar c then
      if atpftMaxVars ≤ ftSym c then some t
      else match s (ftSym c) with
        | none => some t
        | some b => ftUnifyWalk m s n b
    else some t

/-- The loop of a constructor over the arguments of another term; `g` builds from one. -/
def buildArgs (g : Addr → AtpFt → Option (Addr × AtpFt)) :
    ℕ → Option Addr → AtpFt → Option (List Addr × AtpFt)
  | 0, _, a => some ([], a)
  | n + 1, child, a => do
    let q ← child
    let (kid, a) ← g q a
    let c ← a.mem q
    let e ← a.mem c.fin
    let (kids, a) ← buildArgs g n e.next a
    some (kid :: kids, a)

/-- `ft_unify_apply`, over a number of levels. -/
def ftUnifyApply (moves : ℕ → Bool) (s : Bindings) (scratch : Bool) :
    ℕ → Addr → AtpFt → Option (Addr × AtpFt)
  | 0, _, _ => none
  | n + 1, t, a => do
    let t ← ftUnifyWalk a.mem s (n + 1) t
    let c ← a.mem t
    if ftIsVar c then ftnewVar moves a (ftSym c) scratch
    else if c.data.arity = 0 then ftnewConst moves a c.data.sym scratch
    else
      let (kids, a) ← buildArgs (ftUnifyApply moves s scratch n) c.data.arity c.next a
      ftnewCtr moves a c.data.sym c.data.arity kids scratch

/-- `ft_unify_walk` on trees. -/
def walkTree (B : ℕ → Option CellTree) : ℕ → CellTree → Option CellTree
  | 0, _ => none
  | n + 1, .leaf id =>
    if atpftMaxVars ≤ id then some (.leaf id)
    else match B id with
      | none => some (.leaf id)
      | some t => walkTree B n t
  | _ + 1, .node sym args => some (.node sym args)

/-- The instance of a tree, over a number of levels. -/
def resolve (B : ℕ → Option CellTree) : ℕ → CellTree → Option CellTree
  | 0, _ => none
  | n + 1, t => do
    match ← walkTree B (n + 1) t with
    | .leaf id => some (.leaf id)
    | .node sym args =>
      let args ← args.mapM (resolve B n)
      some (.node sym args)

/-- The scratch terms since the last reset, with the trees that they were built for; `tops` are
the ones that have not become arguments of others. -/
structure ScratchState where
  arena : AtpFt
  built : List (Addr × CellTree)
  tops : List Addr

inductive ScratchOp where
  | var (id : ℕ)
  | const (sym : ℕ)
  | ctr (sym : ℕ) (kids : List Addr)
  | term (t : FTerm)
  | apply (levels : ℕ) (s : Bindings) (t : Addr)

/-- The tree of a term that is there. -/
def treeOf (known : List (Addr × CellTree)) (p : Addr) : Option CellTree :=
  (known.find? fun e => e.1 = p).map Prod.snd

/-- The tree that a construction is for, and the number of its cells. A node is built over
distinct terms that are not arguments yet; an instance is one of persistent or scratch terms. -/
def ScratchOp.target (rules : List (Addr × CellTree)) (σ : ScratchState) :
    ScratchOp → Option (CellTree × ℕ)
  | .var id => some (.leaf (id % varBit), 1)
  | .const sym => some (.node (sym % varBit) [], 1)
  | .ctr sym kids =>
    if kids.Nodup ∧ kids ⊆ σ.tops ∧ kids.length < 2 ^ 16 then do
      let trees ← kids.mapM (treeOf σ.built)
      some (.node (sym % varBit) trees, 1)
    else none
  | .term t => some (cellTree t, cellCount t)
  | .apply levels s t => do
    let known := rules ++ σ.built
    let root ← treeOf known t
    if ∀ id < atpftMaxVars, (s id).isSome → ((s id).bind (treeOf known)).isSome then
      let r ← resolve (fun id => (s id).bind (treeOf known)) levels root
      some (r, r.size)
    else none

/-- The construction itself. -/
def ScratchOp.exec (moves : ℕ → Bool) (a : AtpFt) : ScratchOp → Option (Addr × AtpFt)
  | .var id => ftnewVar moves a id true
  | .const sym => ftnewConst moves a sym true
  | .ctr sym kids => ftnewCtr moves a sym kids.length kids true
  | .term t => ftFromTerm moves true t a
  | .apply levels s t => ftUnifyApply moves s true levels t a

/-- The terms that a construction makes arguments. -/
def ScratchOp.args : ScratchOp → List Addr
  | .ctr _ kids => kids
  | _ => []

def ScratchState.step (moves : ℕ → Bool) (rules : List (Addr × CellTree)) (σ : ScratchState)
    (op : ScratchOp) : Option ScratchState := do
  let (t, _) ← op.target rules σ
  let (p, a) ← op.exec moves σ.arena
  some ⟨a, (p, t) :: σ.built, p :: σ.tops.filter (· ∉ op.args)⟩

def ScratchState.run (moves : ℕ → Bool) (rules : List (Addr × CellTree)) :
    ScratchState → List ScratchOp → Option ScratchState
  | σ, [] => some σ
  | σ, op :: ops => do
    let σ ← σ.step moves rules op
    run moves rules σ ops

/-- The state right after a reset. -/
def ScratchState.reset (a : AtpFt) : ScratchState := ⟨a.scratchReset, [], []⟩

/-- The region holds no cell whenever it is moved for a construction of the run. -/
def ScratchState.Settled (moves : ℕ → Bool) (rules : List (Addr × CellTree)) :
    ScratchState → List ScratchOp → Prop
  | _, [] => True
  | σ, op :: ops =>
    (∀ t n, op.target rules σ = some (t, n) → σ.arena.bump.Settled moves n) ∧
      ∀ σ', σ.step moves rules op = some σ' → Settled moves rules σ' ops

end Thvm.Ft
