import Thvm.CriticalPairs
import Thvm.DiscriminationTree
import Thvm.RuleEdits
import Thvm.TransitionRuns

/-!
# The overlap-partner indexes

Two discrimination trees hold the rules that a new rule may overlap with: one the whole sides
of the rules, the other their subterms. They are kept from one generation of critical pairs to
the next, and the number of rules and a revision counter tell whether they still fit.
-/

namespace Thvm.Atp
open DiscriminationTree TransitionRuns

/-! ## Symbols -/

def dtreeNum : ℕ := 0

def dtreeMaxVars : ℕ := 64

def dtreeStarBase : ℕ := 1

def dtreeCtrBase : ℕ := dtreeStarBase + dtreeMaxVars

def isStar (sym : ℕ) : Bool := dtreeStarBase ≤ sym && sym < dtreeCtrBase

/-- `AtpDTreeVarMap` without `folded`, which these trees do not read: one more than the index of
a variable, or 0. -/
structure VarMap where
  slot : ℕ → ℕ
  n : ℕ
  slot_le : ∀ id, slot id ≤ dtreeMaxVars

namespace VarMap

def reset : VarMap := ⟨fun _ => 0, 0, fun _ => Nat.zero_le _⟩

/-- The index of a new variable; those that are too many share the last one. -/
def fresh (vm : VarMap) : ℕ := if vm.n < dtreeMaxVars then vm.n else dtreeMaxVars - 1

theorem fresh_lt (vm : VarMap) : vm.fresh < dtreeMaxVars := by
  unfold fresh
  split
  · assumption
  · exact Nat.sub_lt (by decide) Nat.one_pos

/-- Ids that are too big share the last place. -/
def place (vid : ℕ) : ℕ := if rewriteMaxVar ≤ vid then rewriteMaxVar - 1 else vid

/-- `atp_dtree_var_index`. -/
def index (vm : VarMap) (vid : ℕ) : ℕ × VarMap :=
  if vm.slot (place vid) = 0 then
    (vm.fresh, {
      slot := Function.update vm.slot (place vid) (vm.fresh + 1)
      n := if vm.n < dtreeMaxVars then vm.n + 1 else vm.n
      slot_le := fun id => by
        by_cases h : id = place vid
        · rw [h, Function.update_self]
          exact vm.fresh_lt
        · rw [Function.update_of_ne h]
          exact vm.slot_le id })
  else (vm.slot (place vid) - 1, vm)

end VarMap

mutual

/-- The symbols that `atp_ri_insert_term` descends by. -/
def insertSyms : FTerm → VarMap → List ℕ × VarMap
  | .fvr id, vm =>
    let (k, vm) := vm.index id
    ([dtreeStarBase + k], vm)
  | .num _ _, vm => ([dtreeNum], vm)
  | .ctr label args, vm =>
    let (syms, vm) := insertSymsArgs args vm
    ((dtreeCtrBase + label) :: syms, vm)

def insertSymsArgs : List FTerm → VarMap → List ℕ × VarMap
  | [], vm => ([], vm)
  | a :: as, vm =>
    let (syms, vm) := insertSyms a vm
    let (rest, vm) := insertSymsArgs as vm
    (syms ++ rest, vm)

end

mutual

/-- The strings that `atp_cp_subindex_insert` enters: one for each constructor position. -/
def subtermSyms : FTerm → VarMap → List (List ℕ) × VarMap
  | .ctr label args, vm =>
    let (syms, vm) := insertSyms (.ctr label args) vm
    let (rest, vm) := subtermSymsArgs args vm
    (syms :: rest, vm)
  | _, vm => ([], vm)

def subtermSymsArgs : List FTerm → VarMap → List (List ℕ) × VarMap
  | [], vm => ([], vm)
  | a :: as, vm =>
    let (strings, vm) := subtermSyms a vm
    let (rest, vm) := subtermSymsArgs as vm
    (strings ++ rest, vm)

end

/-- `atp_ri_flatsym_raw` of a variable. -/
def flatsymRaw (id : ℕ) : ℕ := dtreeStarBase + min id (dtreeMaxVars - 1)

mutual

/-- `atp_ri_flatten` without the bound: the symbols and the spans in preorder. -/
def flattenSyms : FTerm → List (ℕ × ℕ)
  | .fvr id => [(flatsymRaw id, 1)]
  | .num _ _ => [(dtreeNum, 1)]
  | .ctr label args =>
    (dtreeCtrBase + label, (flattenSymsArgs args).length + 1) :: flattenSymsArgs args

def flattenSymsArgs : List FTerm → List (ℕ × ℕ)
  | [] => []
  | a :: as => flattenSyms a ++ flattenSymsArgs as

end

def atpRiFlatCap : ℕ := 65536

def atpRiFlatten (t : FTerm) : Option (List (ℕ × ℕ)) :=
  if atpRiFlatCap < t.size then none else some (flattenSyms t)

/-! ## The two trees -/

/-- `AtpRuleIndex`: the children of the root, and what the tree was built from. -/
structure AtpRuleIndex where
  root : Forest ℕ ℕ
  nRulesBuilt : ℕ
  builtRevision : ℕ

def insertString (root : Forest ℕ ℕ) (rule : ℕ) : List ℕ → Forest ℕ ℕ
  | [] => root
  | s :: ss => root.insert rule s ss

/-- `atp_cp_index_insert_face` for both sides. -/
def faceStrings (rule : FTerm × FTerm) : List (List ℕ) :=
  [(insertSyms rule.1 .reset).1, (insertSyms rule.2 .reset).1]

/-- `atp_cp_subindex_insert` for both sides. -/
def subtermStrings (rule : FTerm × FTerm) : List (List ℕ) :=
  (subtermSyms rule.1 .reset).1 ++ (subtermSyms rule.2 .reset).1

namespace AtpRuleIndex

def new : AtpRuleIndex := ⟨.nil, 0, 0⟩

variable (strings : FTerm × FTerm → List (List ℕ)) (ix : AtpRuleIndex) (s : RuleSlots)

/-- The tree with the rules of the slots from `first` on. -/
def insertRules (root : Forest ℕ ℕ) (first : ℕ) : Forest ℕ ℕ :=
  (List.range' first (s.nRules - first)).foldl (fun root i =>
    (strings (s.lhs i, s.rhs i)).foldl (fun root w => insertString root i w) root) root

/-- `r_revision`, a `u32`. -/
def revision : ℕ := s.rRevision % 2 ^ 32

/-- The tree fits, as far as the two numbers tell. -/
def Current : Prop := ix.nRulesBuilt = s.nRules ∧ ix.builtRevision = revision s

/-- Rules have only been added, as far as the two numbers tell. -/
def Appended : Prop :=
  0 < ix.nRulesBuilt ∧ ix.nRulesBuilt < s.nRules ∧
    (revision s + 2 ^ 32 - ix.builtRevision) % 2 ^ 32 = s.nRules - ix.nRulesBuilt

instance : Decidable (ix.Current s) := inferInstanceAs (Decidable (_ ∧ _))

instance : Decidable (ix.Appended s) := inferInstanceAs (Decidable (_ ∧ _))

/-- The two rebuilds, which differ in what they enter for a rule. -/
def rebuild : AtpRuleIndex where
  root := if ix.Appended s then insertRules strings s ix.root ix.nRulesBuilt
    else insertRules strings s .nil 0
  nRulesBuilt := s.nRules
  builtRevision := revision s

def cpIndexRebuild : AtpRuleIndex := ix.rebuild faceStrings s

def cpSubindexRebuild : AtpRuleIndex := ix.rebuild subtermStrings s

end AtpRuleIndex

def atpCpMaxCand : ℕ := 65536

/-- The rules, the two indexes and the length of `g_atp_cp_seen`. The slots whose right side was
replaced since the indexes were last looked after are no field of the source. -/
structure OverlapState where
  rules : RuleSlots
  cpIndex : AtpRuleIndex
  cpSubindex : AtpRuleIndex
  seenCap : ℕ
  composed : List ℕ

namespace OverlapState

variable (s : OverlapState)

/-- `atp_cp_index_descend` from the root, which has no records. -/
def descend (ix : AtpRuleIndex) (query : List (ℕ × ℕ)) (g : Gathered ℕ) : Gathered ℕ :=
  visitNode isStar (· < s.seenCap) atpCpMaxCand []
    (visitChildren isStar (· < s.seenCap) atpCpMaxCand ix.root)
    (visitBelow (· < s.seenCap) atpCpMaxCand ix.root) query g

/-- One position of `atp_cp_index_collect_face`. -/
def collectAt (flat : List (ℕ × ℕ)) (g : Gathered ℕ) (p : ℕ) : Gathered ℕ :=
  let (sym, size) := flat.getD p (0, 0)
  if g.overflow then g
  else if isStar sym then g
  else s.descend s.cpIndex ((flat.drop p).take size) g

def cpIndexCollectFace (qf : FTerm) (g : Gathered ℕ) : Gathered ℕ :=
  match atpRiFlatten qf with
  | none => { g with overflow := true }
  | some flat => (List.range flat.length).foldl (fun g p => s.collectAt flat g p) g

def cpSubindexCollectFace (qf : FTerm) (g : Gathered ℕ) : Gathered ℕ :=
  match atpRiFlatten qf with
  | none => { g with overflow := true }
  | some flat => s.descend s.cpSubindex flat g

/-- Both sides of the rule are asked for, the second one if the first did not overflow. -/
def collectFaces (collectFace : FTerm → Gathered ℕ → Gathered ℕ) (f : ℕ) : Gathered ℕ :=
  let g := collectFace (s.rules.lhs f) .empty
  if g.overflow then g else collectFace (s.rules.rhs f) g

def cpIndexCollect (f : ℕ) : Gathered ℕ := s.collectFaces s.cpIndexCollectFace f

def cpSubindexCollect (f : ℕ) : Gathered ℕ := s.collectFaces s.cpSubindexCollectFace f

/-- What `thvm_atp_generate_cps_c` does to the indexes before it asks them. -/
def refresh : OverlapState :=
  if s.cpIndex.Current s.rules then { s with composed := [] }
  else
    { s with
      cpIndex := s.cpIndex.cpIndexRebuild s.rules
      cpSubindex := s.cpSubindex.cpSubindexRebuild s.rules
      seenCap := if s.seenCap < s.rules.nRules then RuleSlots.growCap s.rules.nRules s.rules.nRules
          (if s.seenCap = 0 then 1024 else s.seenCap)
        else s.seenCap
      composed := [] }

end OverlapState

/-! ## Runs -/

/-- The rules are edited, and before critical pairs are generated the indexes are looked after. -/
inductive OverlapOp
  | edit (e : RuleEdit)
  | refresh

namespace OverlapState

variable (w : RuleWorld) (o : RuleOptions) (s : OverlapState)

def apply : OverlapOp → OverlapState
  | .edit e => { s with rules := s.rules.edit w o e, composed := e.composes ++ s.composed }
  | .refresh => s.refresh

def Allowed : OverlapOp → Prop
  | .edit e => s.rules.EditAllowed e
  | .refresh => True

/-- An index that is kept or extended has no rule whose right side was replaced, and the revision
counter has not come round. -/
def Careful : OverlapOp → Prop
  | .edit _ => True
  | .refresh => s.rules.rRevision < 2 ^ 32 ∧
      (s.cpIndex.Current s.rules ∨ s.cpIndex.Appended s.rules →
        ∀ i ∈ s.composed, s.cpIndex.nRulesBuilt ≤ i)

def Call (op : OverlapOp) (s' : OverlapState) : Prop := s.Allowed op ∧ s' = s.apply w o op

def Step (op : OverlapOp) (s' : OverlapState) : Prop := s.Careful op ∧ s.Call w o op s'

/-- Before the first rule. The length of `g_atp_cp_seen` is left over from another prover. -/
structure Start : Prop where
  nRules : s.rules.nRules = 0
  rRevision : s.rules.rRevision = 0
  cpIndex : s.cpIndex = .new
  cpSubindex : s.cpSubindex = .new

end OverlapState

/-! ## Generating critical pairs -/

def atpCpBatch : ℕ := 4096

/-- The build without AC symbols and without flat terms for overlaps. The flags depend on the pair
of rules, and the four gates drop pairs. -/
structure OverlapWorld where
  useUnfailingCp : Bool
  flags : ℕ → ℕ → CpFlags
  keeps : Bool → Bool → FTerm → CriticalPair → Bool

namespace RuleSlots

variable (w : RuleWorld) (o : RuleOptions) (v : OverlapWorld) (s : RuleSlots)

/-- `i_eq` and `j_eq`. -/
def isEq (i : ℕ) : Bool := v.useUnfailingCp && !s.rOrient i

/-- An equation is a renaming of its own reverse. -/
def atpEqIsMono (i : ℕ) : Bool :=
  o.varNorm && w.normalizeVars (s.rhs i, s.lhs i) = (s.lhs i, s.rhs i)

/-- `i_un` and `j_un`: both sides of the equation overlap. -/
def twoFaced (i : ℕ) : Bool := s.isEq v i && !s.atpEqIsMono w o i

/-- `skip1` to `skip4`, by which root overlaps are formed once. -/
def skipRoots (i j : ℕ) : Bool × Bool × Bool × Bool :=
  let (skip1, skip2, skip3, skip4) :=
    if i < j then (true, true, true, true)
    else if j < i then (false, false, false, false)
    else (!s.isEq v i, false, true, false)
  if j < i ∧ s.rRederiveCut i ≠ atpTraceNone ∧ s.rTrace j ≠ atpTraceNone ∧
      s.rTrace j ≤ s.rRederiveCut i then
    (if s.rTrace j = s.rRederiveCut i then skip1 else true, true, true, true)
  else (skip1, skip2, skip3, skip4)

/-- One combination of faces, if it is formed, with the gates over what it has added. -/
def overlapFaces (rounds i j : ℕ) (formed skip : Bool) (li ri lj rj : FTerm)
    (buf : List CriticalPair) : Option (List CriticalPair) :=
  if !formed then some buf
  else do
    let pair := if skip then thvmCriticalPairsPairNoroot else thvmCriticalPairsPair
    let st ← pair (v.flags i j) li ri lj rj atpCpBatch rounds ⟨buf, 0, 0, .empty⟩
    some (buf ++ (st.out.drop buf.length).filter (v.keeps (s.isEq v i) (s.isEq v j) li))

/-- Between two calls the substitution is empty. -/
def atpOverlapIj (rounds i j : ℕ) : Option (List CriticalPair) := do
  let li := s.lhs i
  let ri := s.rhs i
  let lj := thvmRenameVars cpRenameOffset (s.lhs j)
  let rj := thvmRenameVars cpRenameOffset (s.rhs j)
  let iUn := s.twoFaced w o v i
  let jUn := s.twoFaced w o v j
  let skip := s.skipRoots v i j
  let buf ← s.overlapFaces v rounds i j true skip.1 li ri lj rj []
  let buf ← s.overlapFaces v rounds i j jUn skip.2.1 li ri rj lj buf
  let buf ← s.overlapFaces v rounds i j iUn skip.2.2.1 ri li lj rj buf
  s.overlapFaces v rounds i j (iUn && jUn) skip.2.2.2 ri li rj lj buf

def atpGenOne (rounds : ℕ) (call : ℕ × ℕ) : Option (List CriticalPair) :=
  if s.rGjStatus call.1 = .joinable ∨ s.rGjStatus call.2 = .joinable then some []
  else s.atpOverlapIj w o v rounds call.1 call.2

def generate (rounds : ℕ) (calls : List (ℕ × ℕ)) : Option (List CriticalPair) := do
  let pairs ← calls.mapM (s.atpGenOne w o v rounds)
  some pairs.flatten

end RuleSlots

namespace OverlapState

variable (s : OverlapState)

/-- How many of the new rules there are. -/
def newCount (first count : ℕ) : ℕ := min (first + count) s.rules.nRules - first

/-- The new rules against all rules, and the old rules against the new ones. -/
def scanCalls (first count : ℕ) : List (ℕ × ℕ) :=
  let new := List.range' first (s.newCount first count)
  (new.flatMap fun i => (List.range s.rules.nRules).map fun j => (i, j)) ++
    (List.range first).flatMap fun i => new.map fun j => (i, j)

/-- The candidates in ascending order, or all rules when there were too many. -/
def partners (g : Gathered ℕ) (n : ℕ) : List ℕ :=
  if g.overflow then List.range n else g.found.mergeSort (· ≤ ·)

/-- The calls of `atp_gen_one` when the indexes are in use. -/
def indexedCalls (first count : ℕ) : List (ℕ × ℕ) :=
  let new := List.range' first (s.newCount first count)
  (new.flatMap fun i =>
      (partners (s.cpIndexCollect i) s.rules.nRules).map fun j => (i, j)) ++
    new.flatMap fun j =>
      ((partners (s.cpSubindexCollect j) first).filter (· < first)).map fun i => (i, j)

end OverlapState

end Thvm.Atp
