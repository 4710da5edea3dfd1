import Thvm.ProofExtraction
import Thvm.RuleEdits

/-!
# The sweep of the queue

From time to time the prover normalises the critical pairs that wait in its queue. Two shortcuts
leave a pair as it is: no rule that is new since the last sweep has a left side whose top symbol
occurs in the pair, or the pair was found normal under the revision that the rules still have.
-/

namespace Thvm.Atp

def atpCpNormCookieNone : ℕ := 2 ^ 32 - 1

/-- A slot of the queue. The sides of an implicit pair stand in the trace, as they were generated;
the others are packed. -/
structure QueuedPair where
  lhs : FTerm
  rhs : FTerm
  implicit : Bool
  lastNormRevision : ℕ
  trace : ℕ
  deriving DecidableEq

structure SweepOptions where
  useOrphanMurder : Bool
  useRuleSubsumeDrop : Bool

/-- `asked` counts the sweeps. -/
structure QueueState where
  rules : RuleSlots
  cps : List QueuedPair
  useIncrIr : Bool
  irRuleWatermark : ℕ
  asked : ℕ

/-- What the queue does not determine: the least constant, whether a parent of the pair in a slot
has been retired, and whether a term that comes back from the normaliser as it was is the same heap
word. -/
structure SweepWorld extends RuleWorld, ExtractWorld where
  minConst : FTerm
  orphan : ℕ → ℕ → QueuedPair → Bool
  sameWord : FTerm → Bool

/-! ## Rewriting with the rules -/

namespace RuleSlots

variable (w : SweepWorld) (s : RuleSlots)

def proverRule (i : ℕ) : ProverRule := ⟨s.lhs i, s.rhs i, s.rOrient i, s.rTrace i⟩

/-- What rule `i` makes of the term at the top. -/
def fires (t : FTerm) (i : ℕ) : Option FTerm :=
  (ProverState.tryRule w.toExtractWorld ⟨[], w.minConst, none, false⟩ false t (s.proverRule i) i).map
    ProverState.Fired.term

/-- Oriented rules come before the others. -/
def atpOrderedTryTop (t : FTerm) : Option FTerm :=
  let pass (oriented : Bool) := (List.range s.nRules).findSome? fun i =>
    if s.rOrient i = oriented then s.fires w t i else none
  (pass true).or (pass false)

mutual

def atpOrderedRewriteStep : FTerm → Option FTerm
  | .leaf l => s.atpOrderedTryTop w (.leaf l)
  | .node label args =>
    match s.atpOrderedTryTop w (.node label args) with
    | some t => some t
    | none =>
      if args.length > rewriteMaxArity then none
      else (atpOrderedRewriteArgs args).map (.node label)

def atpOrderedRewriteArgs : List FTerm → Option (List FTerm)
  | [] => none
  | a :: as =>
    match atpOrderedRewriteStep a with
    | some a => some (a :: as)
    | none => (atpOrderedRewriteArgs as).map (a :: ·)

end

/-- The scan of all rules at every position, from the outside and the left. -/
def atpRewriteNormalize : (stepCap : ℕ) → FTerm → FTerm
  | 0, t => t
  | n + 1, t =>
    match s.atpOrderedRewriteStep w t with
    | none => t
    | some t => atpRewriteNormalize n t

/-- Both matches extend the same substitution. -/
def atpRuleCovers (pat tg : FTerm × FTerm) : Bool :=
  let (ok, subst) := thvmMatch pat.1 tg.1 fun _ => none
  ok && (thvmMatch pat.2 tg.2 subst).1

def atpCpRuleSubsumed (lhs rhs : FTerm) : Bool :=
  (List.range s.nRules).any fun k => atpRuleCovers (s.lhs k, s.rhs k) (lhs, rhs) ||
    atpRuleCovers (s.lhs k, s.rhs k) (rhs, lhs)

end RuleSlots

/-- The subterms that the rewriter comes to. -/
inductive Visits : FTerm → FTerm → Prop
  | refl (t : FTerm) : Visits t t
  | arg {label : ℕ} {args : List FTerm} {a u : FTerm} (hcap : args.length ≤ rewriteMaxArity)
      (ha : a ∈ args) (h : Visits a u) : Visits (.node label args) u

/-- None of the first `k` rules fires anywhere in the term. -/
def RuleSlots.IrreducibleBelow (w : SweepWorld) (s : RuleSlots) (k : ℕ) (t : FTerm) : Prop :=
  ∀ u, Visits t u → ∀ i < k, s.fires w u i = none

def RuleSlots.Irreducible (w : SweepWorld) (s : RuleSlots) (t : FTerm) : Prop :=
  s.IrreducibleBelow w s.nRules t

/-- One of the strategies that the engine has for normalising, which all leave irreducible terms as
they are. They may give up early, for want of steps or of time. -/
structure Normalizer (w : SweepWorld) where
  run : (asked slot : ℕ) → RuleSlots → FTerm → FTerm
  run_irreducible : ∀ asked slot s t, s.Irreducible w t → run asked slot s t = t

/-! ## Symbols -/

def atpSymBit (label : ℕ) : BitVec 64 := if label < 63 then 1#64 <<< label else 1#64 <<< 63

mutual

def atpTermSymBitmap : FTerm → BitVec 64
  | .leaf _ => 0#64
  | .node label args => atpSymBit label ||| atpTermSymBitmapArgs args

def atpTermSymBitmapArgs : List FTerm → BitVec 64
  | [] => 0#64
  | a :: as => atpTermSymBitmap a ||| atpTermSymBitmapArgs as

end

/-- The loop over the `count` rules from slot `ri` on. -/
def RuleSlots.collectTopSyms (s : RuleSlots) : (count ri : ℕ) → BitVec 64 → BitVec 64
  | 0, _, syms => syms
  | n + 1, ri, syms =>
    match s.lhs ri with
    | .node label _ => s.collectTopSyms n (ri + 1) (syms ||| atpSymBit label)
    | .leaf _ => BitVec.allOnes 64

def QueuedPair.syms (p : QueuedPair) : BitVec 64 :=
  atpTermSymBitmap p.lhs ||| atpTermSymBitmap p.rhs

/-! ## The sweep -/

namespace QueueState

variable (w : SweepWorld) (o : SweepOptions) (nf : Normalizer w) (s : QueueState)

def newTopSyms : BitVec 64 :=
  if s.useIncrIr ∧ s.irRuleWatermark < s.rules.nRules then
    s.rules.collectTopSyms (s.rules.nRules - s.irRuleWatermark) s.irRuleWatermark 0#64
  else 0#64

def revision : ℕ := s.rules.rRevision % 2 ^ 32

/-- The pair is dropped before anything else is looked at. -/
def drops (slot : ℕ) (p : QueuedPair) : Bool :=
  o.useOrphanMurder && w.orphan s.asked slot p ||
    o.useRuleSubsumeDrop && s.rules.atpCpRuleSubsumed p.lhs p.rhs

/-- No new rule has a top symbol of the pair. -/
def bitmapSkips (p : QueuedPair) : Bool :=
  s.useIncrIr && s.newTopSyms != 0#64 && s.irRuleWatermark > 0 &&
    (!p.implicit || p.lastNormRevision != atpCpNormCookieNone) &&
    p.syms &&& s.newTopSyms == 0#64

def cookieSkips (p : QueuedPair) : Bool := p.lastNormRevision == s.revision

def skips (p : QueuedPair) : Bool := s.bitmapSkips p || s.cookieSkips p

/-- The two sides came back as they were. For a packed pair the heap words are compared. -/
def nfWitness (p : QueuedPair) (l r : FTerm) : Bool :=
  kboEq l p.lhs && kboEq r p.rhs && (p.implicit || w.sameWord p.lhs && w.sameWord p.rhs)

/-- The slow path; nothing is left of a pair whose sides join. -/
def normalizePair (slot : ℕ) (p : QueuedPair) : Option QueuedPair :=
  let l := nf.run s.asked slot s.rules p.lhs
  let r := nf.run s.asked slot s.rules p.rhs
  if kboEq l r then none
  else if nfWitness w p l r then some { p with lastNormRevision := s.revision }
  else some { p with
    lhs := l
    rhs := r
    implicit := false
    lastNormRevision := atpCpNormCookieNone }

def sweepPair (slot : ℕ) (p : QueuedPair) : Option QueuedPair :=
  if s.drops w o slot p then none
  else if s.skips p then some p
  else s.normalizePair w nf slot p

/-- The queue with what `visit` makes of each slot. -/
def sweepWith (visit : ℕ → QueuedPair → Option QueuedPair) : QueueState :=
  if s.cps = [] ∨ s.rules.nRules = 0 then s
  else
    { s with
      cps := s.cps.zipIdx.filterMap fun p => visit p.2 p.1
      irRuleWatermark := if s.useIncrIr then s.rules.nRules else s.irRuleWatermark
      asked := s.asked + 1 }

def atpCpSetInterreduce : QueueState := s.sweepWith (s.sweepPair w o nf)

/-- The sweep that takes no shortcut. -/
def fullSweep : QueueState :=
  s.sweepWith fun slot p => if s.drops w o slot p then none else s.normalizePair w nf slot p

def setUseIncrIr (on : Bool) : QueueState :=
  { s with
    useIncrIr := on
    irRuleWatermark := if on then s.rules.nRules else s.irRuleWatermark }

def push (lhs rhs : FTerm) (implicit : Bool) (trace : ℕ) : QueueState :=
  { s with cps := s.cps ++ [⟨lhs, rhs, implicit, atpCpNormCookieNone, trace⟩] }

end QueueState

/-! ## Runs -/

/-- `drop` stands for a selection and for every other way out of the queue, `reorder` for what the
heap does. -/
inductive QueueOp
  | push (lhs rhs : FTerm) (implicit : Bool) (trace : ℕ)
  | edit (e : RuleEdit)
  | setUseIncrIr (on : Bool)
  | sweep
  | drop (slot : ℕ)
  | reorder (cps : List QueuedPair)

namespace QueueState

variable (w : SweepWorld) (ro : RuleOptions) (o : SweepOptions) (nf : Normalizer w) (s : QueueState)

def apply : QueueOp → QueueState
  | .push lhs rhs implicit trace => s.push lhs rhs implicit trace
  | .edit e => { s with rules := s.rules.edit w.toRuleWorld ro e }
  | .setUseIncrIr on => s.setUseIncrIr on
  | .sweep => s.atpCpSetInterreduce w o nf
  | .drop slot => { s with cps := s.cps.eraseIdx slot }
  | .reorder cps => { s with cps := cps }

/-- The rules are edited in slots that are in use, and the heap loses nothing. -/
def Allowed : QueueOp → Prop
  | .edit e => s.rules.EditAllowed e
  | .reorder cps => cps.Perm s.cps
  | _ => True

/-- The prover before its first pair. -/
def Start : Prop := s.cps = [] ∧ s.useIncrIr = false ∧ s.irRuleWatermark = 0

end QueueState

end Thvm.Atp
