import Thvm.FlatTerms
import Thvm.OrderLoops

/-!
# `thvm_lpo`

The lexicographic path ordering twice: a recursion over the terms of the heap, and one
over their flat arrays, which is the one in use. Both keep memos; the memo of the first
may outlive a call.
-/

namespace Thvm.Lpo

open MemoTables Flat

structure LpoConfig where
  precedence : ℕ → ℕ
  nLabels : ℕ

def LpoConfig.prec (cfg : LpoConfig) (label : ℕ) : ℕ :=
  if label < cfg.nLabels then cfg.precedence label else 0

def lpoEq (s t : LTerm) : Bool := kboEq s.erase t.erase

def lpoMaxVar : ℕ := 64

/-! ### The variable pretest -/

mutual

/-- `lpo_var_set_acc`: the ids that are marked, those below `LPO_MAX_VAR`. -/
def lpoVarSetAcc : LTerm → List ℕ
  | .leaf (.fvr id) => if id < lpoMaxVar then [id] else []
  | .leaf (.num _ _) => []
  | .node _ args => lpoVarSetArgs args

def lpoVarSetArgs : List LTerm → List ℕ
  | [] => []
  | a :: as => lpoVarSetAcc a ++ lpoVarSetArgs as

end

mutual

def lpoVarsInRange : LTerm → Bool
  | .leaf (.fvr id) => id < lpoMaxVar
  | .leaf (.num _ _) => true
  | .node _ args => lpoVarsInRangeArgs args

def lpoVarsInRangeArgs : List LTerm → Bool
  | [] => true
  | a :: as => lpoVarsInRange a && lpoVarsInRangeArgs as

end

/-- Some marked id of the first set is not in the second. -/
def hasExtra (vs vt : List ℕ) : Bool :=
  (List.range lpoMaxVar).any fun i => i ∈ vs ∧ i ∉ vt

/-- The pretest is conclusive only for `un`. -/
def lpoPretestVarset (s t : LTerm) : Option Cmp :=
  if !lpoVarsInRange s || !lpoVarsInRange t then none
  else if hasExtra (lpoVarSetAcc s) (lpoVarSetAcc t) && hasExtra (lpoVarSetAcc t) (lpoVarSetAcc s)
    then some .un
  else none

/-! ### The recursion over terms -/

def lpoMemoSize : ℕ := 2 ^ 16

abbrev LpoMemo := Memo (Term × Term) ℕ

def mixWords (s t : Term) : ℕ :=
  (s.bits * 0x9E3779B97F4A7C15 % 2 ^ 64) ^^^ (t.bits * 0xBF58476D1CE4E5B9 % 2 ^ 64)

def lpoMemoHash (s t : Term) : ℕ :=
  (mixWords s t ^^^ (mixWords s t >>> 29)) % lpoMemoSize

/-- The slot of the flat path, whose hash lacks the last mixing step. -/
def lpoTopSlot (s t : Term) : ℕ := mixWords s t % lpoMemoSize

abbrev LpoM := StateM LpoMemo

section Tree

variable (rec : LTerm → LTerm → LpoM Cmp)

def lpoDominatesAllArgs (s : LTerm) (bs : List LTerm) : LpoM Bool := dominatesAll rec s bs

def lpoSomeArgDominates (t : LTerm) (as : List LTerm) : LpoM Bool := someDominates rec t as

def lpoLex (as bs : List LTerm) : LpoM Cmp := lexCompare rec as bs

/-- What is neither `eq` nor `gt` is taken for `lt`. -/
def lpoLexVerdict (s t : LTerm) (as bs : List LTerm) : Cmp → LpoM Cmp
  | .eq => pure .eq
  | .gt => do
    let all ← lpoDominatesAllArgs rec s bs
    if all then pure .gt else pure .un
  | _ => do
    let all ← lpoDominatesAllArgs rec t as
    if all then pure .lt else pure .un

def lpoHeads (cfg : LpoConfig) (s t : LTerm) (labS labT : ℕ) (as bs : List LTerm) : LpoM Cmp :=
  if cfg.prec labT < cfg.prec labS then do
    let all ← lpoDominatesAllArgs rec s bs
    if all then pure .gt else pure .un
  else if cfg.prec labS < cfg.prec labT then do
    let all ← lpoDominatesAllArgs rec t as
    if all then pure .lt else pure .un
  else if as.length ≠ bs.length then pure .un
  else do
    let lex ← lpoLex rec as bs
    lpoLexVerdict rec s t as bs lex

def lpoRecCompute (cfg : LpoConfig) (s t : LTerm) : LpoM Cmp :=
  if lpoEq s t then pure .eq else
    match s, t with
    | .leaf (.fvr _), .leaf (.fvr _) => pure .un
    | .leaf (.fvr x), t => pure (if varOccursIn t x then .lt else .un)
    | s, .leaf (.fvr y) => pure (if varOccursIn s y then .gt else .un)
    | .node c as, .node d bs => do
      let left ← lpoSomeArgDominates rec (.node d bs) as
      if left then pure .gt else do
        let right ← lpoSomeArgDominates rec (.node c as) bs
        if right then pure .lt else
          lpoHeads rec cfg (.node c as) (.node d bs) c.label d.label as bs
    | _, _ => pure .un

end Tree

/-- `lpo_rec`, which reads the memo without the sign; `fuel` bounds the recursion. -/
def lpoRec (cfg : LpoConfig) : ℕ → LTerm → LTerm → LpoM Cmp
  | 0, _, _ => pure .un
  | fuel + 1, s, t =>
    if s.word = t.word then pure .eq else
      memoised (lpoMemoHash s.word t.word) (s.word, t.word) Cmp.byte Cmp.ofRawByte
        (lpoRecCompute (lpoRec cfg fuel) cfg s t)

/-! ### The recursion over flat arrays -/

/-- The encoder of the ordering keeps the precedence as the weight of a node. -/
def LpoConfig.weights (cfg : LpoConfig) : Weights := ⟨fun label => toI32 (cfg.prec label), 0⟩

def lpoFlatEncodeRec (cfg : LpoConfig) (t : LTerm) : Option (List FlatNode) :=
  encode cfg.weights t 0

/-- The precedence of the label of a node. -/
def LpoConfig.symPrec (cfg : LpoConfig) (n : FlatNode) : ℕ := cfg.prec n.sym.toNat

/-- `lpo_pretest_groesser_flat` on two slices: 1, -1 or, when not conclusive, 0. -/
def lpoPretestGroesserFlat (cfg : LpoConfig) : List FlatNode → List FlatNode → ℤ
  | a :: as, b :: bs =>
    if a.sym < 0 then -1
    else if b.sym < 0 then if as.any fun n => n.sym = b.sym then 1 else -1
    else if a.sz = 1 then
      if (b :: bs).all fun n => ¬ n.sym < 0 ∧ cfg.symPrec n < cfg.symPrec a then 1 else -1
    else if b.sz = 1 then
      if (a :: as).any fun n => ¬ n.sym < 0 ∧ cfg.symPrec b ≤ cfg.symPrec n then 1 else -1
    else if as.length ≤ bs.length then 0
    else if (List.range' 1 (as.length - bs.length)).any fun i =>
        let start := nodeAt (a :: as) i
        start.sym = b.sym ∧ start.sz = b.sz ∧
          symsMatch ((a :: as).drop i) (b :: bs) (bs.length + 1) = true then 1
    else 0
  | _, _ => 0

def lpoFlatMemoSize : ℕ := 2 ^ 14

/-- The key of a pair of positions: `pa`, `pb` and the buffer that `pa` is in. -/
abbrev FlatKey := ℕ × ℕ × ℕ

abbrev LpoFlatMemo := Memo FlatKey ℕ

def lpoFlatHash (k : FlatKey) : ℕ :=
  let h := (k.1 * 0x9E3779B97F4A7C15 % 2 ^ 64) ^^^ (k.2.1 * 0xBF58476D1CE4E5B9 % 2 ^ 64) ^^^
    (k.2.2 * 0x94D049BB133111EB % 2 ^ 64)
  (h ^^^ (h >>> 29)) % lpoFlatMemoSize

abbrev LpoFlatM := StateM LpoFlatMemo

/-- The two buffers, `g_lpo_flat_a` and `g_lpo_flat_b`, by their side. -/
structure Buffers where
  a : List FlatNode
  b : List FlatNode

def Buffers.at (bufs : Buffers) (side : ℕ) : List FlatNode := if side = 0 then bufs.a else bufs.b

def lpoFlatSliceEq (a : List FlatNode) (pa : ℕ) (b : List FlatNode) (pb : ℕ) : Bool :=
  (nodeAt a pa).sym = (nodeAt b pb).sym ∧ (nodeAt a pa).sz = (nodeAt b pb).sz ∧
    symsMatch (a.drop pa) (b.drop pb) (nodeAt a pa).sz = true

def lpoFlatVarOccurs (t : List FlatNode) (pos : ℕ) (vsym : ℤ) : Bool :=
  (slice t pos).any fun n => n.sym = vsym

section FlatCases

-- `rec side pa pb` compares `pa` in the buffer of `side` with `pb` in the other one
variable (rec : ℕ → ℕ → ℕ → LpoFlatM Cmp) (bufs : Buffers)

def lpoFlatDominatesFrom (side pa pb start : ℕ) : LpoFlatM Bool :=
  let b := bufs.at (1 - side)
  dominatesAll (rec side) pa (siblings b (pb + (nodeAt b pb).sz) start)

def lpoFlatDominatesAllArgs (side pa pb : ℕ) : LpoFlatM Bool :=
  if (nodeAt (bufs.at (1 - side)) pb).sym < 0 then pure true
  else lpoFlatDominatesFrom rec bufs side pa pb (pb + 1)

def lpoFlatSomeArgDominates (side pa pb : ℕ) : LpoFlatM Bool :=
  if (nodeAt (bufs.at side) pa).sym < 0 then pure false
  else someDominates (rec side) pb (children (bufs.at side) pa)

/-- The lexicographic verdict, and where the arguments differ. -/
def lpoFlatLexDiff (side : ℕ) : List ℕ → List ℕ → LpoFlatM (Cmp × ℕ × ℕ)
  | ca :: cas, cb :: cbs => do
    let c ← rec side ca cb
    if c ≠ .eq then pure (c, ca, cb) else lpoFlatLexDiff side cas cbs
  | _, _ => pure (.eq, 0, 0)

/-- Arguments before the difference need no look. -/
def lpoFlatLexVerdict (side pa pb : ℕ) : Cmp × ℕ × ℕ → LpoFlatM Cmp
  | (.eq, _, _) => pure .eq
  | (.gt, _, diffB) => do
    let all ← lpoFlatDominatesFrom rec bufs side pa pb diffB
    if all then pure .gt else pure .un
  | (_, diffA, _) => do
    let all ← lpoFlatDominatesFrom rec bufs (1 - side) pb pa diffA
    if all then pure .lt else pure .un

def lpoFlatHeads (side pa pb : ℕ) : LpoFlatM Cmp :=
  let precA := (nodeAt (bufs.at side) pa).w
  let precB := (nodeAt (bufs.at (1 - side)) pb).w
  if precB < precA then do
    let all ← lpoFlatDominatesAllArgs rec bufs side pa pb
    if all then pure .gt else do
      let some ← lpoFlatSomeArgDominates rec bufs (1 - side) pb pa
      if some then pure .lt else pure .un
  else if precA < precB then do
    let all ← lpoFlatDominatesAllArgs rec bufs (1 - side) pb pa
    if all then pure .lt else do
      let some ← lpoFlatSomeArgDominates rec bufs side pa pb
      if some then pure .gt else pure .un
  else do
    let left ← lpoFlatSomeArgDominates rec bufs side pa pb
    if left then pure .gt else do
      let right ← lpoFlatSomeArgDominates rec bufs (1 - side) pb pa
      if right then pure .lt else do
        let diff ← lpoFlatLexDiff rec side (children (bufs.at side) pa)
          (children (bufs.at (1 - side)) pb)
        lpoFlatLexVerdict rec bufs side pa pb diff

def lpoFlatRecCompute (cfg : LpoConfig) (side pa pb : ℕ) : LpoFlatM Cmp :=
  let a := bufs.at side
  let b := bufs.at (1 - side)
  let symA := (nodeAt a pa).sym
  let symB := (nodeAt b pb).sym
  if lpoFlatSliceEq a pa b pb then pure .eq
  else if symA < 0 ∧ symB < 0 then pure .un
  else if symA < 0 then pure (if lpoFlatVarOccurs b pb symA then .lt else .un)
  else if symB < 0 then pure (if lpoFlatVarOccurs a pa symB then .gt else .un)
  else if 0 < lpoPretestGroesserFlat cfg (slice a pa) (slice b pb) then pure .gt
  else if 0 < lpoPretestGroesserFlat cfg (slice b pb) (slice a pa) then pure .lt
  else lpoFlatHeads rec bufs side pa pb

end FlatCases

/-- `lpo_flat_rec`. The buffers of `pa` and `pb` always differ, so that its test for one
position in one buffer never holds. -/
def lpoFlatRec (cfg : LpoConfig) (bufs : Buffers) : ℕ → ℕ → ℕ → ℕ → LpoFlatM Cmp
  | 0, _, _, _ => pure .un
  | fuel + 1, side, pa, pb =>
    memoised (lpoFlatHash (pa, pb, side)) (pa, pb, side) Cmp.byte Cmp.ofByte
      (lpoFlatRecCompute (lpoFlatRec cfg bufs fuel) bufs cfg side pa pb)

/-! ### The entry point -/

/-- The switches `THVM_LPO_VORTEST_FLAT` and `THVM_LPO_FLAT_REC` of the environment. -/
structure LpoGates where
  vortest : Bool
  flatRec : Bool

/-- The variables of the module; `lastCfg` is the address of a configuration. -/
structure LpoState where
  memo : LpoMemo
  lastCfg : ℕ
  persist : Bool
  flatMemo : LpoFlatMemo

def wordZero : Term := ⟨false, .app, 0, 0⟩

def lpoStart : LpoState where
  memo := .zeroed (wordZero, wordZero) 0 0
  lastCfg := 0
  persist := false
  flatMemo := .zeroed (0, 0, 0) 0 0

def thvmLpoInvalidate (st : LpoState) : LpoState := { st with memo := st.memo.invalidate }

def thvmLpoSetPersist (on : Bool) (st : LpoState) : LpoState := { st with persist := on }

/-- The memo at the start of a call: kept only while it persists and the configuration is
the one at the same address. -/
def lpoEnter (addr : ℕ) (st : LpoState) : LpoState :=
  if st.persist then
    if addr ≠ st.lastCfg then thvmLpoInvalidate { st with lastCfg := addr } else st
  else thvmLpoInvalidate st

/-- The ids of the variables of a flat term when all are below `LPO_MAX_VAR`. -/
def flatVars (nodes : List FlatNode) : Option (List ℕ) :=
  let ids := nodes.filterMap fun n => if n.sym < 0 then some (-n.sym - 1).toNat else none
  if ids.any fun id => lpoMaxVar ≤ id then none else some ids

def lpoFlatVarset (a b : List FlatNode) : Bool :=
  match flatVars a, flatVars b with
  | some vs, some vt => hasExtra vs vt && hasExtra vt vs
  | _, _ => false

/-- Both directions of the subterm pretest. -/
def lpoVortest (cfg : LpoConfig) (a b : List FlatNode) : Option Cmp :=
  if 0 < lpoPretestGroesserFlat cfg a b then some .gt
  else if 0 < lpoPretestGroesserFlat cfg b a then some .lt
  else none

/-- `lpo_pretest_flat_dispatch`, which encodes with weights of its own. -/
def lpoPretestFlatDispatch (cfg : LpoConfig) (s t : LTerm) : Option Cmp := do
  let a ← encode ⟨fun _ => 0, 0⟩ s 0
  let b ← encode ⟨fun _ => 0, 0⟩ t 0
  lpoVortest cfg a b

/-- The part of the flat path behind its memo of pairs. -/
def lpoFlatPath (gates : LpoGates) (cfg : LpoConfig) (s t : LTerm) (a b : List FlatNode)
    (st : LpoState) : Cmp × LpoState :=
  match if gates.vortest then lpoVortest cfg a b else none with
  | some c => (c, st)
  | none =>
    if lpoFlatVarset a b then (.un, st) else
      let run := (lpoFlatRecCompute (lpoFlatRec cfg ⟨a, b⟩ (a.length + b.length)) ⟨a, b⟩ cfg 0 0 0).run
        st.flatMemo.invalidate
      let memo := if st.persist then
          st.memo.store (lpoTopSlot s.word t.word) (s.word, t.word) run.1.byte
        else st.memo
      (run.1, { st with memo := memo, flatMemo := run.2 })

/-- The fallback behind the flat path. -/
def lpoTreePath (cfg : LpoConfig) (s t : LTerm) (st : LpoState) : Cmp × LpoState :=
  match lpoPretestVarset s t with
  | some c => (c, st)
  | none =>
    let run := (lpoRec cfg (s.size + t.size) s t).run st.memo
    (run.1, { st with memo := run.2 })

def thvmLpo (gates : LpoGates) (addr : ℕ) (cfg : LpoConfig) (s t : LTerm) (st₀ : LpoState) :
    Cmp × LpoState :=
  let st := lpoEnter addr st₀
  match if gates.vortest && !gates.flatRec then lpoPretestFlatDispatch cfg s t else none with
  | some c => (c, st)
  | none =>
    if gates.flatRec then
      match if st.persist then st.memo.find (lpoTopSlot s.word t.word) (s.word, t.word) else none with
      | some b => (.ofByte b, st)
      | none =>
        match lpoFlatEncodeRec cfg s, lpoFlatEncodeRec cfg t with
        | some a, some b => lpoFlatPath gates cfg s t a b st
        | _, _ => lpoTreePath cfg s t st
    else lpoTreePath cfg s t st

end Thvm.Lpo
