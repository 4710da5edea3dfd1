import Thvm.ClauseInference
import Thvm.OrderLoops
import Thvm.SlotColumns

/-!
# Rule slots

The prover keeps its rules in parallel arrays, one for each attribute, and a rule is the row of
a slot. Rules are pushed at the end, marked dead where they stand, and taken out by four
loops that move the rows behind them down.
-/

namespace Thvm.Atp
open SlotColumns

def atpTraceNone : ℕ := 2 ^ 32 - 1

def atpInitRules : ℕ := 256

inductive GjStatus
  | unknown | joinable | valuable | hopeless | failed
  deriving DecidableEq, Repr

/-- The options that the rule arrays depend on; `varNorm` is a build option. -/
structure RuleOptions where
  varNorm : Bool
  useFwdSubsume : Bool
  useBwdSubsume : Bool
  useFlatSubsume : Bool
  useWmInterred : Bool
  keepLhsReducible : Bool
  rightReduce : Bool
  useRhsInterreduce : Bool
  useBwdDemod : Bool

/-- What the arrays do not determine: the reduction order, the renumbering of variables, the
matcher of `atp_eset_subsume_by_new`, and what the normaliser and the trace answer each time
they are asked. -/
structure RuleWorld where
  compare : FTerm → FTerm → Cmp
  normalizeVars : FTerm × FTerm → FTerm × FTerm
  esetSubsumes : ℕ → FTerm × FTerm → FTerm × FTerm → Bool
  normalize : ℕ → FTerm → List (FTerm × FTerm) → ℕ → FTerm
  tracePush : ℕ → ℕ

/-- All the attributes of one rule. A flat mirror is the term that its cells stand for. -/
structure RuleRow where
  lhs : FTerm
  rhs : FTerm
  rTrace : ℕ
  rUid : ℕ
  rOrient : Bool
  rDead : Bool
  rDeadLhsSave : Option FTerm
  rDeadRhsSave : Option FTerm
  rDeadSubsumerLhs : Option FTerm
  rDeadSubsumerRhs : Option FTerm
  rRederiveCut : ℕ
  rGjStatus : GjStatus
  rOverlapDone : Bool
  lhsFt : Option FTerm
  rhsFt : Option FTerm
  rDeadLhsSaveFt : Option FTerm
  rDeadRhsSaveFt : Option FTerm

/-- The arrays, of which the first `nRules` slots are in use and the first `rCap` are there.
`asked` counts the questions to the `RuleWorld`. -/
structure RuleSlots where
  lhs : ℕ → FTerm
  rhs : ℕ → FTerm
  rTrace : ℕ → ℕ
  rUid : ℕ → ℕ
  rOrient : ℕ → Bool
  rDead : ℕ → Bool
  rDeadLhsSave : ℕ → Option FTerm
  rDeadRhsSave : ℕ → Option FTerm
  rDeadSubsumerLhs : ℕ → Option FTerm
  rDeadSubsumerRhs : ℕ → Option FTerm
  rRederiveCut : ℕ → ℕ
  rGjStatus : ℕ → GjStatus
  rOverlapDone : ℕ → Bool
  lhsFt : ℕ → Option FTerm
  rhsFt : ℕ → Option FTerm
  rDeadLhsSaveFt : ℕ → Option FTerm
  rDeadRhsSaveFt : ℕ → Option FTerm
  nRules : ℕ
  rCap : ℕ
  nUnorient : ℕ
  nextRuleUid : ℕ
  uidIdx : ℕ → Option ℕ
  rRevision : ℕ
  asked : ℕ

/-- Out of the range of the matcher, which therefore passes over a dead slot. -/
def deadSentinel : FTerm := .fvr 255

namespace RuleSlots

variable (w : RuleWorld) (o : RuleOptions) (s : RuleSlots)

def row (i : ℕ) : RuleRow where
  lhs := s.lhs i
  rhs := s.rhs i
  rTrace := s.rTrace i
  rUid := s.rUid i
  rOrient := s.rOrient i
  rDead := s.rDead i
  rDeadLhsSave := s.rDeadLhsSave i
  rDeadRhsSave := s.rDeadRhsSave i
  rDeadSubsumerLhs := s.rDeadSubsumerLhs i
  rDeadSubsumerRhs := s.rDeadSubsumerRhs i
  rRederiveCut := s.rRederiveCut i
  rGjStatus := s.rGjStatus i
  rOverlapDone := s.rOverlapDone i
  lhsFt := s.lhsFt i
  rhsFt := s.rhsFt i
  rDeadLhsSaveFt := s.rDeadLhsSaveFt i
  rDeadRhsSaveFt := s.rDeadRhsSaveFt i

/-- The rules, in the order of their slots. -/
def rows : List RuleRow := column s.row s.nRules

/-- The pairs of sides that the normaliser rewrites with. -/
def sides (first count : ℕ) : List (FTerm × FTerm) :=
  (List.range count).map fun k => (s.lhs (first + k), s.rhs (first + k))

def ask : RuleSlots := { s with asked := s.asked + 1 }

/-! ## Adding a rule -/

/-- Twice the capacity until it is enough. -/
def growCap (need : ℕ) : ℕ → ℕ → ℕ
  | 0, cap => cap
  | rounds + 1, cap => if cap < need then growCap need rounds (cap * 2) else cap

/-- The columns that the new slots are filled in. -/
def atpEnsureRuleCap (need : ℕ) : RuleSlots :=
  if need ≤ s.rCap then s
  else
    let cap := growCap need need (if s.rCap = 0 then atpInitRules else s.rCap)
    let fill {α : Type} (a : α) (f : ℕ → α) (i : ℕ) : α := if s.rCap ≤ i ∧ i < cap then a else f i
    { s with
      rUid := fill 0 s.rUid
      rTrace := fill atpTraceNone s.rTrace
      rDead := fill false s.rDead
      rDeadLhsSave := fill none s.rDeadLhsSave
      rDeadRhsSave := fill none s.rDeadRhsSave
      rGjStatus := fill .unknown s.rGjStatus
      rOverlapDone := fill false s.rOverlapDone
      rDeadSubsumerLhs := fill none s.rDeadSubsumerLhs
      rDeadSubsumerRhs := fill none s.rDeadSubsumerRhs
      rRederiveCut := fill atpTraceNone s.rRederiveCut
      lhsFt := fill none s.lhsFt
      rhsFt := fill none s.rhsFt
      rDeadLhsSaveFt := fill none s.rDeadLhsSaveFt
      rDeadRhsSaveFt := fill none s.rDeadRhsSaveFt
      rCap := cap }

def atpUidIdxSet (idx : ℕ → Option ℕ) (uid i : ℕ) : ℕ → Option ℕ :=
  if uid = 0 then idx else Function.update idx uid (some i)

end RuleSlots

def atpRuleSubsumesOriented (pat tg : FTerm × FTerm) : Bool :=
  let (ok, subst) := thvmMatch pat.1 tg.1 fun _ => none
  ok && kboEq (thvmSubstApply subst pat.2) tg.2

def atpRuleSubsumesUnit (r new : FTerm × FTerm) : Bool :=
  atpRuleSubsumesOriented r new || atpRuleSubsumesOriented r new.swap

namespace RuleSlots

variable (w : RuleWorld) (o : RuleOptions) (s : RuleSlots)

/-- The slot is kept, under sides that nothing matches. -/
def softDelete (i : ℕ) : RuleSlots :=
  { s with
    rDeadLhsSave := Function.update s.rDeadLhsSave i (some (s.lhs i))
    rDeadRhsSave := Function.update s.rDeadRhsSave i (some (s.rhs i))
    lhs := Function.update s.lhs i deadSentinel
    rhs := Function.update s.rhs i deadSentinel
    rDead := Function.update s.rDead i true
    rRevision := s.rRevision + 1
    rDeadLhsSaveFt := Function.update s.rDeadLhsSaveFt i (s.lhsFt i)
    rDeadRhsSaveFt := Function.update s.rDeadRhsSaveFt i (s.rhsFt i)
    lhsFt := Function.update s.lhsFt i (some deadSentinel)
    rhsFt := Function.update s.rhsFt i (some deadSentinel) }

/-- The backward subsumption of `atp_push_rule` at slot `i`. -/
def bwdSubsume (new : FTerm × FTerm) (i : ℕ) : RuleSlots :=
  if s.rDead i then s
  else if atpRuleSubsumesUnit new (s.lhs i, s.rhs i) then s.softDelete i
  else s

/-- The trace of the live rule that the slot's subsumer has become. -/
def subsumerTrace (lhs rhs : Option FTerm) : ℕ :=
  match (List.range s.nRules).find? fun m => !s.rDead m &&
      ((some (s.lhs m) = lhs ∧ some (s.rhs m) = rhs) ∨
        (some (s.lhs m) = rhs ∧ some (s.rhs m) = lhs)) with
  | some m => s.rTrace m
  | none => atpTraceNone

/-- Whether the new rule has the shape of one that was subsumed, and since when it is. -/
def rederiveCut (lhs rhs : FTerm) : ℕ :=
  if !o.useFlatSubsume then atpTraceNone
  else
    match (List.range s.nRules).find? fun k => s.rDead k && (s.rDeadSubsumerLhs k).isSome &&
        (s.rDeadLhsSave k = some lhs ∧ s.rDeadRhsSave k = some rhs) with
    | some k => s.subsumerTrace (s.rDeadSubsumerLhs k) (s.rDeadSubsumerRhs k)
    | none => atpTraceNone

/-- The columns of slot `nRules` that `atp_push_rule` writes. -/
def writeRule (lhs rhs : FTerm) : RuleSlots :=
  let n := s.nRules
  let uid := (s.nextRuleUid + 1) % 2 ^ 32
  let greater := w.compare lhs rhs = .gt
  { s with
    lhs := Function.update s.lhs n lhs
    rhs := Function.update s.rhs n rhs
    rGjStatus := Function.update s.rGjStatus n .unknown
    rUid := Function.update s.rUid n uid
    nextRuleUid := uid
    uidIdx := atpUidIdxSet s.uidIdx uid n
    rOverlapDone := Function.update s.rOverlapDone n false
    lhsFt := Function.update s.lhsFt n (some lhs)
    rhsFt := Function.update s.rhsFt n (some rhs)
    rRederiveCut := Function.update s.rRederiveCut n (s.rederiveCut o lhs rhs)
    rOrient := Function.update s.rOrient n greater
    nUnorient := if greater then s.nUnorient else s.nUnorient + 1
    nRules := n + 1
    rRevision := s.rRevision + 1 }

/-- Whether the rule is there already, or an instance of one that is. -/
def rejects (lhs rhs : FTerm) : Bool :=
  (o.varNorm && (List.range s.nRules).any fun i => kboEq (s.lhs i) lhs && kboEq (s.rhs i) rhs) ||
    (o.useFwdSubsume &&
      (List.range s.nRules).any fun i => atpRuleSubsumesUnit (s.lhs i, s.rhs i) (lhs, rhs))

def atpPushRule (lhs rhs : FTerm) : Bool × RuleSlots :=
  let (lhs, rhs) := if o.varNorm then w.normalizeVars (lhs, rhs) else (lhs, rhs)
  if s.rejects o lhs rhs then (false, s)
  else
    let n := s.nRules
    let s := (s.atpEnsureRuleCap (n + 1)).writeRule w o lhs rhs
    (true, if o.useBwdSubsume then (List.range n).foldl (fun s i => s.bwdSubsume (lhs, rhs) i) s
      else s)

/-- `atp_eset_subsume_by_new` at slot `i`. -/
def esetSubsume (new : FTerm × FTerm) (i : ℕ) : RuleSlots :=
  if s.rOrient i then s
  else if s.rDead i then s
  else if w.esetSubsumes s.asked new (s.lhs i, s.rhs i) then
    { s.ask.softDelete i with
      rDeadSubsumerLhs := Function.update s.rDeadSubsumerLhs i (some new.1)
      rDeadSubsumerRhs := Function.update s.rDeadSubsumerRhs i (some new.2) }
  else s.ask

def atpEsetSubsumeByNew (newI : ℕ) : RuleSlots :=
  let new := (s.lhs newI, s.rhs newI)
  (List.range newI).foldl (fun s i => s.esetSubsume w new i) s

/-! ## Taking rules out -/

/-- The loop of the first pass that closes the gap at slot `i`. -/
def shiftSlots (i : ℕ) : RuleSlots :=
  let n := s.nRules
  { s with
    lhs := shift i n s.lhs
    rhs := shift i n s.rhs
    rTrace := shift i n s.rTrace
    rUid := shift i n s.rUid
    uidIdx := (List.range' (i + 1) (n - (i + 1))).foldl
      (fun idx j => atpUidIdxSet idx (s.rUid j) (j - 1)) s.uidIdx
    rOrient := shift i n s.rOrient
    rDead := shift i n s.rDead
    rDeadLhsSave := shift i n s.rDeadLhsSave
    rDeadRhsSave := shift i n s.rDeadRhsSave
    rDeadSubsumerLhs := shift i n s.rDeadSubsumerLhs
    rDeadSubsumerRhs := shift i n s.rDeadSubsumerRhs
    rRederiveCut := shift i n s.rRederiveCut
    rGjStatus := shift i n s.rGjStatus
    rOverlapDone := shift i n s.rOverlapDone
    lhsFt := shift i n s.lhsFt
    rhsFt := shift i n s.rhsFt
    rDeadLhsSaveFt := shift i n s.rDeadLhsSaveFt
    rDeadRhsSaveFt := shift i n s.rDeadRhsSaveFt }

/-- The two loops of the second pass have no line for the ground-join status. -/
def shiftSlotsPass2 (i : ℕ) : RuleSlots := { s.shiftSlots i with rGjStatus := s.rGjStatus }

/-- What stands around each of the loops. -/
def dropSlot (shifted : RuleSlots) (i : ℕ) : RuleSlots :=
  { shifted with
    nUnorient := if s.rOrient i then s.nUnorient else s.nUnorient - 1
    nRules := s.nRules - 1
    rRevision := s.rRevision + 1 }

/-! ## Interreduction -/

/-- The right side that the new rules reduce `s.rhs i` to, or the whole system once they do. -/
def rhsReduct (new : List (FTerm × FTerm)) (i : ℕ) : FTerm × RuleSlots :=
  if o.useRhsInterreduce then
    let stepped := w.normalize s.asked (s.rhs i) new 1
    if kboEq stepped (s.rhs i) then (s.rhs i, s.ask)
    else (w.normalize s.ask.asked stepped (s.sides 0 s.nRules) 64, s.ask.ask)
  else (w.normalize s.asked (s.rhs i) new 16, s.ask)

/-- The rule `l → r` goes over into `l → r'`. -/
def setRhs (i : ℕ) (r : FTerm) : RuleSlots :=
  { s.ask with
    rhs := Function.update s.rhs i r
    rTrace := Function.update s.rTrace i (w.tracePush s.asked)
    rhsFt := Function.update s.rhsFt i (some r) }

/-- Whether `r` takes the place of the right side. -/
def rhsAccepted (i : ℕ) (r : FTerm) : Bool :=
  !kboEq r (s.rhs i) && w.compare (s.lhs i) r = .gt &&
    (o.useRhsInterreduce || r.size ≤ (s.rhs i).size)

def composeRhs (new : List (FTerm × FTerm)) (i : ℕ) : RuleSlots :=
  let (r, s) := s.rhsReduct w o new i
  if s.rhsAccepted w o i r then s.setRhs w i r else s

/-- The step of the first pass: the left side is reduced, or else the right side is. -/
def interreduceSlot (new : List (FTerm × FTerm)) (i : ℕ) (s : RuleSlots) : Bool × RuleSlots :=
  let reduced := w.normalize s.asked (s.lhs i) new 16
  let s := s.ask
  if !o.keepLhsReducible && !kboEq reduced (s.lhs i) then (true, s.dropSlot (s.shiftSlots i) i)
  else if !o.rightReduce then (false, s)
  else if o.useRhsInterreduce && (!s.rOrient i || s.rDead i) then (false, s)
  else (false, s.composeRhs w o new i)

/-- The step of the second pass: backward demodulation, and the right sides of equations. -/
def interreduceSlotPass2 (new : List (FTerm × FTerm)) (i : ℕ) (s : RuleSlots) :
    Bool × RuleSlots :=
  let (lhsChanged, s) :=
    if o.useBwdDemod && !s.rDead i then
      (!kboEq (w.normalize s.asked (s.lhs i) new 16) (s.lhs i), s.ask)
    else (false, s)
  let (rhsChanged, s) :=
    if o.useRhsInterreduce && !s.rDead i && !s.rOrient i then
      (!kboEq (w.normalize s.asked (s.rhs i) new 16) (s.rhs i), s.ask)
    else (false, s)
  if lhsChanged || rhsChanged then (true, s.dropSlot (s.shiftSlotsPass2 i) i) else (false, s)

/-- `WM_IR_DROP_SLOT`. -/
def wmIrDropSlot (new : List (FTerm × FTerm)) (i : ℕ) (s : RuleSlots) : Bool × RuleSlots :=
  let reduced := w.normalize s.asked (s.lhs i) new 16
  let s := s.ask
  if !o.keepLhsReducible && !kboEq reduced (s.lhs i) then (true, s.dropSlot (s.shiftSlots i) i)
  else (false, s)

/-- `WM_IR_DROP_SLOT_RHS`. -/
def wmIrDropSlotRhs (new : List (FTerm × FTerm)) (i : ℕ) (s : RuleSlots) : Bool × RuleSlots :=
  if o.useRhsInterreduce && !s.rDead i then
    let reduced := w.normalize s.asked (s.rhs i) new 16
    let s := s.ask
    if !kboEq reduced (s.rhs i) then (true, s.dropSlot (s.shiftSlots i) i) else (false, s)
  else (false, s)

def wmPhaseA (new : List (FTerm × FTerm)) (i : ℕ) (s : RuleSlots) : Bool × RuleSlots :=
  if s.rOrient i then (false, s)
  else
    let (dropped, s) := wmIrDropSlot w o new i s
    if dropped then (true, s) else wmIrDropSlotRhs w o new i s

def wmPhaseB (new : List (FTerm × FTerm)) (i : ℕ) (s : RuleSlots) : Bool × RuleSlots :=
  if !s.rOrient i then (false, s) else wmIrDropSlot w o new i s

def wmPhaseC (new : List (FTerm × FTerm)) (newFirst count : ℕ) (s : RuleSlots) (i : ℕ) :
    RuleSlots :=
  if newFirst ≤ i ∧ i < newFirst + count then s
  else if !s.rOrient i || s.rDead i then s
  else s.composeRhs w o new i

/-- `added.first` and `added.count`; at most two of the new rules are used. -/
def thvmAtpInterreduceWm (first count : ℕ) : RuleSlots :=
  let new := s.sides first (min count 2)
  let (d₁, s) := sweep (wmPhaseA w o new) first 0 s
  let (d₂, s) := sweep (wmPhaseB w o new) (first - d₁) 0 s
  if o.rightReduce then
    (List.range s.nRules).foldl (wmPhaseC w o new (first - d₁ - d₂) count) s
  else s

def thvmAtpInterreduce (first count : ℕ) : RuleSlots :=
  if count = 0 ∨ first = 0 then s
  else if o.useWmInterred then s.thvmAtpInterreduceWm w o first count
  else
    let new := s.sides first (min count 2)
    let (d, s) := sweep (interreduceSlot w o new) first 0 s
    if o.useRhsInterreduce || o.useBwdDemod then
      (sweep (interreduceSlotPass2 w o new) (first - d) 0 s).2
    else s

end RuleSlots

end Thvm.Atp
