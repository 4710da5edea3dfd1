import Thvm.OrderLoops
import Thvm.TermWeights

/-!
# `thvm_wpo`

The weighted path ordering: weights first, and at equal weight a recursive path ordering.
The weights come from the memo of `thvm_kbo_term_weight`, the verdicts from a memo of its
own that lives for one call.
-/

namespace Thvm.Wpo

open MemoTables Kbo

inductive WpoStatus
  | lex | mul
  deriving DecidableEq, Repr

structure WpoConfig where
  weights : ℕ → ℕ
  precedence : ℕ → ℕ
  status : Option (ℕ → WpoStatus)
  nLabels : ℕ
  varWeight : ℕ

namespace WpoConfig

variable (cfg : WpoConfig)

/-- The configuration that `wpo_weight` makes up. -/
def kbo : KboConfig := ⟨cfg.weights, cfg.precedence, cfg.nLabels, cfg.varWeight⟩

def prec (label : ℕ) : ℕ := if label < cfg.nLabels then cfg.precedence label else 0

end WpoConfig

def wpoStatusIsMul (cfg : WpoConfig) (label : ℕ) : Bool :=
  match cfg.status with
  | none => false
  | some status => if cfg.nLabels ≤ label then false else status label = .mul

def wpoEq (s t : LTerm) : Bool := kboEq s.erase t.erase

/-! ### Variables -/

def wpoMaxVar : ℕ := 64

structure WpoVarMult where
  count : ℕ → ℕ
  spilled : Bool

mutual

def wpoVarMultAcc : LTerm → WpoVarMult → WpoVarMult
  | .leaf (.fvr id), vm =>
    if wpoMaxVar ≤ id then { vm with spilled := true }
    else { vm with count := Function.update vm.count id (vm.count id + 1) }
  | .leaf (.num _ _), vm => vm
  | .node _ args, vm => wpoVarMultArgs args vm

def wpoVarMultArgs : List LTerm → WpoVarMult → WpoVarMult
  | [], vm => vm
  | a :: as, vm => wpoVarMultArgs as (wpoVarMultAcc a vm)

end

def wpoVarMult (t : LTerm) : WpoVarMult := wpoVarMultAcc t ⟨fun _ => 0, false⟩

def wpoVarsSubset (vs vt : WpoVarMult) : Bool :=
  !vs.spilled && !vt.spilled && (List.range wpoMaxVar).all fun i => vt.count i ≤ vs.count i

/-! ### The recursion -/

section Helpers

variable {σ : Type} (rec : LTerm → LTerm → StateM σ Cmp)

def wpoLex (as bs : List LTerm) : StateM σ Cmp := lexCompare rec as bs

def wpoDominatesAllArgs (s : LTerm) (bs : List LTerm) : StateM σ Bool := dominatesAll rec s bs

def wpoSomeArgDominates (t : LTerm) (as : List LTerm) : StateM σ Bool := someDominates rec t as

def wpoMaxKids : ℕ := 16

/-- The unused elements of `T` when the first one equal to `a` is used. -/
def wpoUse (a : LTerm) : List LTerm → StateM σ (Option (List LTerm))
  | [] => pure none
  | b :: bs => do
    let c ← rec a b
    if c = .eq then pure (some bs) else do
      let rest ← wpoUse a bs
      pure (rest.map (b :: ·))

/-- What stays unused on both sides. -/
def wpoCancel : List LTerm → List LTerm → StateM σ (List LTerm × List LTerm)
  | [], ts => pure ([], ts)
  | a :: as, ts => do
    let used ← wpoUse rec a ts
    match used with
    | some ts' => wpoCancel as ts'
    | none => do
      let rest ← wpoCancel as ts
      pure (a :: rest.1, rest.2)

/-- Some element of the list is above `b`. -/
def wpoFound (b : LTerm) : List LTerm → StateM σ Bool
  | [] => pure false
  | a :: as => do
    let c ← rec a b
    if c = .gt then pure true else wpoFound b as

/-- Every element of the second list is below one of the first. -/
def wpoAllDominated (as : List LTerm) : List LTerm → StateM σ Bool
  | [] => pure true
  | b :: bs => do
    let found ← wpoFound rec b as
    if found then wpoAllDominated as bs else pure false

def wpoMultiRest : List LTerm → List LTerm → StateM σ Cmp
  | [], [] => pure .eq
  | _ :: _, [] => pure .gt
  | [], _ :: _ => pure .lt
  | as, bs => do
    let allT ← wpoAllDominated rec as bs
    if allT then pure .gt else do
      let allS ← wpoAllDominated rec bs as
      if allS then pure .lt else pure .un

def wpoMulti (as bs : List LTerm) : StateM σ Cmp :=
  if wpoMaxKids < as.length ∨ wpoMaxKids < bs.length then pure .un else do
    let rest ← wpoCancel rec as bs
    wpoMultiRest rec rest.1 rest.2

/-- A side that wins must have the variables and be above the other's arguments. -/
def wpoWins (dom : Bool) (s : LTerm) (bs : List LTerm) (c : Cmp) : StateM σ Cmp :=
  if dom then do
    let all ← wpoDominatesAllArgs rec s bs
    if all then pure c else pure .un
  else pure .un

/-- The multiset status; the variables still gate the verdict. -/
def wpoMulVerdict (sDom tDom : Bool) : Cmp → Cmp
  | .eq => .eq
  | .gt => if sDom then .gt else .un
  | .lt => if tDom then .lt else .un
  | _ => .un

def wpoLexVerdict (sDom tDom : Bool) (s t : LTerm) (as bs : List LTerm) : Cmp → StateM σ Cmp
  | .eq => pure .eq
  | .gt => wpoWins rec sDom s bs .gt
  | .lt => wpoWins rec tDom t as .lt
  | _ => pure .un

/-- Precedence and status. -/
def wpoHeads (cfg : WpoConfig) (sDom tDom : Bool) (s t : LTerm) (labS labT : ℕ)
    (as bs : List LTerm) : StateM σ Cmp :=
  if cfg.prec labT < cfg.prec labS then wpoWins rec sDom s bs .gt
  else if cfg.prec labS < cfg.prec labT then wpoWins rec tDom t as .lt
  else if as.length ≠ bs.length then pure .un
  else if wpoStatusIsMul cfg labS then do
    let mc ← wpoMulti rec as bs
    pure (wpoMulVerdict sDom tDom mc)
  else do
    let lex ← wpoLex rec as bs
    wpoLexVerdict rec sDom tDom s t as bs lex

variable (weigh : LTerm → StateM σ ℕ)

/-- `wpo_rec_compute`; it reads a count at the id of a variable, which is below
`WPO_MAX_VAR` here. -/
def wpoRecCompute (cfg : WpoConfig) (s t : LTerm) : StateM σ Cmp :=
  if wpoEq s t then pure .eq
  else
    let vs := wpoVarMult s
    let vt := wpoVarMult t
    let sDom := wpoVarsSubset vs vt
    let tDom := wpoVarsSubset vt vs
    match s, t with
    | .leaf (.fvr _), .leaf (.fvr _) => pure .un
    | .leaf (.fvr x), _ => pure (if 0 < vt.count x then .lt else .un)
    | _, .leaf (.fvr y) => pure (if 0 < vs.count y then .gt else .un)
    | .node c as, .node d bs => do
      let ws ← weigh (.node c as)
      let wt ← weigh (.node d bs)
      if wt < ws then pure (if sDom then .gt else .un)
      else if ws < wt then pure (if tDom then .lt else .un)
      else do
        let left ← wpoSomeArgDominates rec (.node d bs) as
        if left then pure (if sDom then .gt else .un) else do
          let right ← wpoSomeArgDominates rec (.node c as) bs
          if right then pure (if tDom then .lt else .un) else
            wpoHeads rec cfg sDom tDom (.node c as) (.node d bs) c.label d.label as bs
    | _, _ => pure .un

end Helpers

/-! ### The entry point -/

def wpoMemoSize : ℕ := 4096

abbrev WpoMemo := Memo (Term × Term) ℕ

def wpoSlot (s t : Term) : ℕ :=
  ((s.bits * 0x9E3779B97F4A7C15 % 2 ^ 64) ^^^ (t.bits * 0xBF58476D1CE4E5B9 % 2 ^ 64)) % wpoMemoSize

/-- The tables of both modules. -/
structure WpoTables where
  kbo : KboMemos
  wpo : WpoMemo

namespace WpoTables

/-- The tables at the start of the program. -/
def start : WpoTables := ⟨.start, .zeroed (⟨false, .app, 0, 0⟩, ⟨false, .app, 0, 0⟩) 0 1⟩

/-- `thvm_wpo_invalidate`. -/
def invalidate (m : WpoTables) : WpoTables := { m with wpo := m.wpo.invalidate }

end WpoTables

abbrev WpoM := StateM WpoTables

/-- `wpo_weight`. -/
def wpoWeight (cfg : WpoConfig) (t : LTerm) : WpoM ℕ := fun m =>
  let run := (thvmKboTermWeight cfg.kbo t).run m.kbo
  (run.1, { m with kbo := run.2 })

/-- `wpo_rec`; `fuel` bounds the depth of the recursion. -/
def wpoRec (cfg : WpoConfig) : ℕ → LTerm → LTerm → WpoM Cmp
  | 0, _, _ => pure .un
  | fuel + 1, s, t => do
    let m ← get
    match m.wpo.find (wpoSlot s.word t.word) (s.word, t.word) with
    | some b => pure (Cmp.ofByte b)
    | none => do
      let c ← wpoRecCompute (wpoRec cfg fuel) (wpoWeight cfg) cfg s t
      modify fun m =>
        { m with wpo := m.wpo.store (wpoSlot s.word t.word) (s.word, t.word) c.byte }
      pure c

def thvmWpo (cfg : WpoConfig) (s t : LTerm) : WpoM Cmp := do
  modify WpoTables.invalidate
  wpoRec cfg (s.size + t.size) s t

end Thvm.Wpo
