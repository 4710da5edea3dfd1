import Mathlib.Algebra.Order.Ring.Int
import Mathlib.Data.Multiset.Basic
import Mathlib.Tactic.Common

/-!
# The queue of critical pairs

The record of a queued pair is spread over columns, one array for each field, and the slots
`0 .. n_cps` are kept as a heap: a binary one, or the two-dimensional one. Sifts swap slots,
extractions and prunes fill a slot from the last one, and the sweep moves the pairs that stay
to the front. `moved` and `compacted` record between which slots this has been done; the
program has no such columns.
-/

namespace Thvm

namespace Atp

namespace CpQueue

/-- `AtpCpImplicit`, the descriptor of a deferred pair. -/
structure CpImplicit where
  parentA : ℕ
  parentB : ℕ
  weight : ℕ
  priority : ℕ
  deriving DecidableEq, Repr

/-- What one slot holds: bytes or, for a deferred pair, its descriptor, and the other fields. -/
structure CpRecord (P : Type) where
  packed : Option P
  implicit : Option CpImplicit
  trace : ℕ
  pri : ℕ
  seq : ℕ
  goal : ℕ
  pri2 : ℕ
  lastNorm : ℕ
  ultimate : Bool
  uidA : ℕ
  uidB : ℕ
  deprio : Bool
  deriving DecidableEq

/-- The `cp_` columns and the counters that the queue reads. -/
structure Queue (P : Type) where
  packed : ℕ → Option P
  trace : ℕ → ℕ
  pri : ℕ → ℕ
  seq : ℕ → ℕ
  goal : ℕ → ℕ
  pri2 : ℕ → ℕ
  lastNorm : ℕ → ℕ
  ultimate : ℕ → Bool
  uidA : ℕ → ℕ
  uidB : ℕ → ℕ
  implicit : ℕ → CpImplicit
  isImplicit : ℕ → Bool
  deprio : ℕ → Bool
  nCps : ℕ
  seqNext : ℕ
  selectCount : ℕ
  rngState : ℕ
  fifoFloorSeq : ℕ
  moved : List (ℕ × ℕ)
  compacted : List (ℕ × ℕ)

structure Config where
  kdheap : Bool
  /-- `use_initial_ultimate || use_database_ultimate` -/
  useUltimate : Bool
  wmItl : Bool
  wmItlTop : ℕ
  w2Modulo : ℕ
  useGoalInterleave : ℕ
  randomModulo : ℕ
  fifoModulo : ℕ
  useIntakeOrder : Bool
  fifoThreshold : ℕ
  useOrphanMurder : Bool

/-- What a step reads outside the queue: the weights of a pair as they are now, which parents
are dead, and the counters of the rule set. -/
structure World (P : Type) where
  priority : P → ℕ
  goalWeight : P → ℕ
  weightBase : P → ℕ
  orphan : ℕ → Bool
  uidOrphan : ℕ → ℕ → Bool
  nActivatedRe : ℕ
  nRules : ℕ

def priNever : ℕ := 0x40000000

def normCookieNone : ℕ := 0xFFFFFFFF

variable {P : Type}

namespace Queue

/-- The descriptor only counts where the tag is set. -/
def slot (s : Queue P) (i : ℕ) : CpRecord P where
  packed := s.packed i
  implicit := if s.isImplicit i then some (s.implicit i) else none
  trace := s.trace i
  pri := s.pri i
  seq := s.seq i
  goal := s.goal i
  pri2 := s.pri2 i
  lastNorm := s.lastNorm i
  ultimate := s.ultimate i
  uidA := s.uidA i
  uidB := s.uidB i
  deprio := s.deprio i

end Queue

/-- A column with two of its entries exchanged. -/
def swapCol {α : Type} (col : ℕ → α) (i j : ℕ) : ℕ → α :=
  fun m => if m = i then col j else if m = j then col i else col m

/-- A column with an entry written. -/
def setCol {α : Type} (col : ℕ → α) (i : ℕ) (v : α) : ℕ → α := fun m => if m = i then v else col m

/-- `atp_cp_before`, with the two switches of the environment off. -/
def atpCpBefore (cfg : Config) (s : Queue P) (i j : ℕ) : Bool :=
  if cfg.useUltimate && s.ultimate i != s.ultimate j then s.ultimate i
  else if cfg.useUltimate && s.ultimate i then s.seq i < s.seq j
  else if s.pri i ≠ s.pri j then s.pri i < s.pri j
  else s.seq i < s.seq j

/-- Every column but `cp_deprio`. -/
def atpCpSwap (s : Queue P) (i j : ℕ) : Queue P :=
  { s with
    packed := swapCol s.packed i j
    trace := swapCol s.trace i j
    pri := swapCol s.pri i j
    seq := swapCol s.seq i j
    goal := swapCol s.goal i j
    pri2 := swapCol s.pri2 i j
    lastNorm := swapCol s.lastNorm i j
    ultimate := swapCol s.ultimate i j
    uidA := swapCol s.uidA i j
    uidB := swapCol s.uidB i j
    implicit := swapCol s.implicit i j
    isImplicit := swapCol s.isImplicit i j
    moved := (i, j) :: s.moved }

/-! ## The binary heap -/

def atpCpSiftUpFrom (cfg : Config) : ℕ → Queue P → ℕ → Queue P
  | 0, s, _ => s
  | rounds + 1, s, i =>
    if i > 0 ∧ atpCpBefore cfg s i ((i - 1) / 2) then
      atpCpSiftUpFrom cfg rounds (atpCpSwap s i ((i - 1) / 2)) ((i - 1) / 2)
    else s

/-- Every round halves the slot. -/
def atpCpSiftUp (cfg : Config) (s : Queue P) (i : ℕ) : Queue P := atpCpSiftUpFrom cfg i s i

/-- `if (c < n_cps && before(c, m)) m = c`. -/
def siftTest (cfg : Config) (s : Queue P) (c m : ℕ) : ℕ :=
  if c < s.nCps ∧ atpCpBefore cfg s c m then c else m

/-- The slot that goes to `i`: the least of it and its children. -/
def siftChild (cfg : Config) (s : Queue P) (i : ℕ) : ℕ :=
  siftTest cfg s ((2 * i + 2) % 2 ^ 32) (siftTest cfg s ((2 * i + 1) % 2 ^ 32) i)

def atpCpSiftDownFrom (cfg : Config) : ℕ → Queue P → ℕ → Queue P
  | 0, s, _ => s
  | rounds + 1, s, i =>
    if siftChild cfg s i = i then s
    else atpCpSiftDownFrom cfg rounds (atpCpSwap s i (siftChild cfg s i)) (siftChild cfg s i)

/-- Every round goes to a larger slot. -/
def atpCpSiftDown (cfg : Config) (s : Queue P) (i : ℕ) : Queue P :=
  atpCpSiftDownFrom cfg s.nCps s i

/-- Floyd's loop over the inner slots below `i`. -/
def floydFrom (cfg : Config) : ℕ → Queue P → Queue P
  | 0, s => s
  | i + 1, s => floydFrom cfg i (atpCpSiftDown cfg s i)

/-! ## The two-dimensional heap -/

/-- Nodes are numbered from 1. -/
def atpKdhGt (s : Queue P) (d na nb : ℕ) : Bool :=
  if d = 0 then
    if s.pri (na - 1) ≠ s.pri (nb - 1) then s.pri (na - 1) > s.pri (nb - 1)
    else s.seq (na - 1) > s.seq (nb - 1)
  else s.seq (na - 1) > s.seq (nb - 1)

def atpKdhLevel (n : ℕ) : ℕ := Nat.log2 n

def atpKdhDmodk (d : ℕ) : ℕ := if d ≥ 2 then d - 2 else d

/-- The nodes of the first `levels` levels under `index`, in the order of the two loops. -/
def kdhNear (index levels : ℕ) : List (ℕ × ℕ) :=
  (List.range levels).flatMap fun l =>
    (List.range (2 ^ (l + 1))).map fun delta => (l + 1, (index * 2 ^ (l + 1) + delta) % 2 ^ 32)

def kdhFindMinIn (s : Queue P) (d : ℕ) : List (ℕ × ℕ) → ℕ × ℕ → ℕ × ℕ
  | [], best => best
  | (ld, j) :: rest, best =>
    if j > s.nCps then best
    else kdhFindMinIn s d rest (if atpKdhGt s d best.1 j then (j, ld) else best)

/-- The node and its level under `index`. -/
def atpKdhFindMin (s : Queue P) (index d levels : ℕ) : ℕ × ℕ :=
  kdhFindMinIn s d (kdhNear index levels) (index, 0)

def atpKdhNormalizeUp (s : Queue P) (index : ℕ) : ℕ → ℕ → Queue P
  | 0, _ => s
  | k + 1, d =>
    atpKdhNormalizeUp
      (if atpKdhGt s (atpKdhDmodk d) (index / 2 ^ (k + 1)) index then
        atpCpSwap s (index / 2 ^ (k + 1) - 1) (index - 1)
      else s)
      index k (atpKdhDmodk d + 1)

def kdhNormalizeDownFrom : ℕ → Queue P → ℕ → ℕ → Queue P
  | 0, s, _, _ => s
  | rounds + 1, s, index, d =>
    let m := atpKdhFindMin s index d 2
    if m.1 = index then s
    else
      kdhNormalizeDownFrom rounds
        (atpKdhNormalizeUp (atpCpSwap s (m.1 - 1) (index - 1)) m.1 (m.2 - 1) (d + 1))
        m.1 (atpKdhDmodk (d + m.2))

/-- Every round goes to a larger node. -/
def atpKdhNormalizeDown (s : Queue P) (index level : ℕ) : Queue P :=
  kdhNormalizeDownFrom (s.nCps + 1) s index (if level < 2 then level else level % 2)

def atpKdhInsert (s : Queue P) (slot : ℕ) : Queue P :=
  atpKdhNormalizeUp s (slot + 1) (atpKdhLevel (slot + 1)) 0

def atpKdhDeleteRepair (s : Queue P) (slot : ℕ) : Queue P :=
  atpKdhNormalizeDown (atpKdhNormalizeUp s (slot + 1) (atpKdhLevel (slot + 1)) 0) (slot + 1)
    (atpKdhLevel (slot + 1))

/-- The first `n` nodes inserted one after the other. -/
def kdhBuildTo (s : Queue P) : ℕ → Queue P
  | 0 => s
  | n + 1 => atpKdhNormalizeUp (kdhBuildTo s n) (n + 1) (atpKdhLevel (n + 1)) 0

def atpKdhBuild (s : Queue P) : Queue P := kdhBuildTo s s.nCps

/-- The heap order after changes all over the array. -/
def reorder (cfg : Config) (s : Queue P) : Queue P :=
  if cfg.kdheap then atpKdhBuild s else floydFrom cfg (s.nCps / 2) s

/-! ## Insertion -/

/-- A pair that is pushed: its bytes or, for a deferred one, its descriptor, and the priority
that its weight gives. -/
structure Push (P : Type) where
  packed : Option P
  trace : ℕ
  weight : ℕ
  goal : ℕ
  pri2 : ℕ
  ultimate : Bool
  uidA : ℕ
  uidB : ℕ
  parentA : ℕ
  parentB : ℕ
  cpNodes : ℕ
  /-- `g_cp_push_deprio` -/
  deprio : Bool

/-- The record of a new slot with the age `seq`. -/
def Push.record (p : Push P) (seq : ℕ) : CpRecord P where
  packed := p.packed
  implicit :=
    if p.packed.isNone then
      some ⟨p.parentA, p.parentB, p.cpNodes, if p.deprio then priNever else p.weight⟩
    else none
  trace := p.trace
  pri := if p.deprio then priNever else p.weight
  seq := seq
  goal := p.goal
  pri2 := p.pri2
  lastNorm := normCookieNone
  ultimate := p.ultimate
  uidA := p.uidA
  uidB := p.uidB
  deprio := p.deprio

/-- A record written to a slot, the mark of `cp_deprio` with it. -/
def writeSlot (s : Queue P) (i : ℕ) (r : CpRecord P) : Queue P :=
  { s with
    packed := setCol s.packed i r.packed
    trace := setCol s.trace i r.trace
    pri := setCol s.pri i r.pri
    seq := setCol s.seq i r.seq
    goal := setCol s.goal i r.goal
    pri2 := setCol s.pri2 i r.pri2
    lastNorm := setCol s.lastNorm i r.lastNorm
    ultimate := setCol s.ultimate i r.ultimate
    uidA := setCol s.uidA i r.uidA
    uidB := setCol s.uidB i r.uidB
    implicit := setCol s.implicit i (r.implicit.getD (s.implicit i))
    isImplicit := setCol s.isImplicit i r.implicit.isSome
    deprio := setCol s.deprio i r.deprio }

/-- `atp_cp_heap_insert_packed` and, for a deferred pair, `atp_cp_implicit_push`. -/
def atpCpPush (cfg : Config) (p : Push P) (s : Queue P) : Queue P :=
  let i := s.nCps
  let s := { writeSlot s i (p.record s.seqNext) with
    nCps := i + 1
    seqNext := (s.seqNext + 1) % 2 ^ 32 }
  if cfg.kdheap then atpKdhInsert s i else atpCpSiftUp cfg s i

/-! ## Selection -/

def atpCpFifoDimension (cfg : Config) (w : World P) (s : Queue P) : Bool :=
  let modulo := if cfg.fifoModulo ≠ 0 then cfg.fifoModulo else 11
  if cfg.useIntakeOrder then w.nActivatedRe % modulo < cfg.fifoThreshold
  else modulo - 1 ≤ s.selectCount % modulo

inductive Dimension where
  | kdh (d : ℕ)
  | itl
  | secondary
  | goal
  | random
  | age
  | weight
  deriving DecidableEq, Repr

def dimension (cfg : Config) (w : World P) (s : Queue P) : Dimension :=
  if cfg.kdheap then .kdh (if w.nActivatedRe % 51 < 1 then 1 else 0)
  else if cfg.wmItl && w.nRules % 51 = 0 then .itl
  else if cfg.w2Modulo > 0 && s.selectCount % cfg.w2Modulo = 0 then .secondary
  else if cfg.useGoalInterleave > 0 && s.selectCount % cfg.useGoalInterleave = 0 then .goal
  else if cfg.randomModulo > 0 && s.selectCount % cfg.randomModulo = 0 then .random
  else if atpCpFifoDimension cfg w s then .age
  else .weight

/-- `for (i = 1; i < n; i++) if (better(i, best)) best = i`. -/
def scanBest (better : ℕ → ℕ → Bool) (n : ℕ) : ℕ :=
  (List.range' 1 (n - 1)).foldl (fun best i => if better i best then i else best) 0

/-- `xorshift64`. -/
def xorshift (x : ℕ) : ℕ :=
  let x := if x ≠ 0 then x else 0x9E3779B97F4A7C15
  let x := x ^^^ (x <<< 13 % 2 ^ 64)
  let x := x ^^^ (x >>> 7)
  x ^^^ (x <<< 17 % 2 ^ 64)

def isOrphan (cfg : Config) (w : World P) (s : Queue P) (i : ℕ) : Bool :=
  cfg.useOrphanMurder && (w.orphan (s.trace i) || w.uidOrphan (s.uidA i) (s.uidB i))

/-- The oldest slot with living parents and an age from the floor on. -/
def oldestLive (cfg : Config) (w : World P) (s : Queue P) : Option ℕ :=
  (List.range s.nCps).foldl (fun best i =>
    if s.seq i < s.fifoFloorSeq then best
    else if best.any fun b => s.seq i ≥ s.seq b then best
    else if isOrphan cfg w s i then best
    else some i) none

/-- The slot that the dimension selects, with the state of the dimensions behind it. -/
def pick (cfg : Config) (w : World P) (s : Queue P) : ℕ × Queue P :=
  match dimension cfg w s with
  | .kdh d => ((atpKdhFindMin s 1 d d).1 - 1, s)
  | .itl =>
    let top := if cfg.wmItlTop = 0 ∨ cfg.wmItlTop > s.nCps then s.nCps else cfg.wmItlTop
    (scanBest (fun i best => s.seq i < s.seq best) top, s)
  | .secondary =>
    (scanBest (fun i best => s.pri2 i < s.pri2 best ||
      (s.pri2 i == s.pri2 best && s.seq i < s.seq best)) s.nCps, s)
  | .goal => (scanBest (fun i best => s.goal i < s.goal best) s.nCps, s)
  | .random =>
    let x := xorshift s.rngState
    (x % s.nCps, { s with rngState := x })
  | .age =>
    match oldestLive cfg w s with
    | some best => (best, { s with fifoFloorSeq := (s.seq best + 1) % 2 ^ 32 })
    | none => (0, s)
  | .weight => (0, s)

/-- The columns that a backfill copies: all but `cp_deprio`. The descriptor's tag moves. -/
def backfill (s : Queue P) (dst src : ℕ) : Queue P :=
  { s with
    packed := setCol (setCol s.packed dst (s.packed src)) src none
    trace := setCol s.trace dst (s.trace src)
    pri := setCol s.pri dst (s.pri src)
    seq := setCol s.seq dst (s.seq src)
    goal := setCol s.goal dst (s.goal src)
    pri2 := setCol s.pri2 dst (s.pri2 src)
    lastNorm := setCol s.lastNorm dst (s.lastNorm src)
    ultimate := setCol s.ultimate dst (s.ultimate src)
    uidA := setCol s.uidA dst (s.uidA src)
    uidB := setCol s.uidB dst (s.uidB src)
    implicit := setCol s.implicit dst (s.implicit src)
    isImplicit := setCol (setCol s.isImplicit dst (s.isImplicit src)) src false
    moved := (dst, src) :: s.moved }

/-- A slot without its bytes, and the queue without its last slot. -/
def emptySlot (s : Queue P) (j : ℕ) : Queue P :=
  { s with
    packed := setCol s.packed j none
    isImplicit := setCol s.isImplicit j false
    nCps := s.nCps - 1 }

/-- The slot is emptied and filled from the last one. -/
def dropSlot (s : Queue P) (j : ℕ) : Queue P :=
  if j ≠ s.nCps - 1 then backfill (emptySlot s j) j (s.nCps - 1) else emptySlot s j

/-- The repair behind an extraction at slot `j`, where a pair has come from the end. -/
def repair (cfg : Config) (s : Queue P) (j : ℕ) : Queue P :=
  if j ≠ s.nCps then
    if cfg.kdheap then atpKdhDeleteRepair s j
    else atpCpSiftDown cfg (atpCpSiftUp cfg s j) j
  else s

/-- Pairs of dead rules are extracted and passed over. The result is the pair selected. -/
def selectFrom (cfg : Config) (w : World P) : ℕ → Queue P → Option (CpRecord P) × Queue P
  | 0, s => (none, s)
  | rounds + 1, s =>
    if s.nCps = 0 then (none, s)
    else
      let (j, s) := pick cfg w s
      let r := s.slot j
      if isOrphan cfg w s j then selectFrom cfg w rounds (repair cfg (dropSlot s j) j)
      else
        let s := { s with selectCount := (s.selectCount + 1) % 2 ^ 32 }
        (some r, repair cfg (dropSlot s j) j)

/-- Every round extracts a pair. -/
def thvmAtpSelectCp (cfg : Config) (w : World P) (s : Queue P) :
    Option (CpRecord P) × Queue P :=
  selectFrom cfg w (s.nCps + 1) s

/-! ## Prunes -/

/-- Slots from `i` down; a slot that has been filled is looked at again. -/
def pruneFrom (horizon : ℕ) : ℕ → Queue P → ℕ → Queue P
  | 0, s, _ => s
  | _, s, 0 => s
  | rounds + 1, s, i + 1 =>
    if s.pri i ≤ horizon then pruneFrom horizon rounds s i
    else
      let s := dropSlot s i
      pruneFrom horizon rounds s (if i < s.nCps then i + 1 else i)

/-- The second half of `atp_lrs_recompute_horizon`: what is done with a horizon. -/
def atpLrsPrune (cfg : Config) (horizon : ℕ) (s : Queue P) : Queue P :=
  if horizon = 0xFFFFFFFF then s
  else
    let s := pruneFrom horizon (2 * s.nCps) s s.nCps
    if s.nCps > 1 then reorder cfg s else s

/-! ## New keys -/

def setKeys (s : Queue P) (i : ℕ) (w : World P) (p : P) : Queue P :=
  { s with
    pri := setCol s.pri i (if s.deprio i then priNever else w.priority p)
    goal := setCol s.goal i (w.goalWeight p)
    pri2 := setCol s.pri2 i (w.weightBase p) }

def rebuildSlot (w : World P) (s : Queue P) (i : ℕ) : Queue P :=
  if s.isImplicit i then { s with pri := setCol s.pri i (s.implicit i).priority }
  else
    match s.packed i with
    | some p => setKeys s i w p
    | none => s

def atpCpRebuildPriorities (w : World P) (s : Queue P) : Queue P :=
  (List.range s.nCps).foldl (rebuildSlot w) s

def atpCpFloydOnly (cfg : Config) (s : Queue P) : Queue P :=
  if s.nCps = 0 then s else reorder cfg s

def thvmAtpCpReheapify (cfg : Config) (w : World P) (s : Queue P) : Queue P :=
  atpCpFloydOnly cfg (atpCpRebuildPriorities w s)

/-- The slot that the map from ages to slots finds; its empty mark hides the last age. -/
def seqSlot (s : Queue P) (seq : ℕ) : Option ℕ :=
  if seq = 0xFFFFFFFF then none else (List.range s.nCps).find? fun i => s.seq i = seq

def setPri (s : Queue P) (key : ℕ × ℕ) : Queue P :=
  match seqSlot s key.1 with
  | some i => { s with pri := setCol s.pri i key.2 }
  | none => s

def setPri2 (s : Queue P) (key : ℕ × ℕ) : Queue P :=
  match seqSlot s key.1 with
  | some i => { s with pri2 := setCol s.pri2 i key.2 }
  | none => s

/-- The heap order is restored as that of a binary heap, whatever the discipline. -/
def thvmAtpSetCpPriBySeq (cfg : Config) (keys : List (ℕ × ℕ)) (s : Queue P) : Queue P :=
  if s.nCps = 0 ∨ keys = [] then s
  else
    let s := keys.foldl setPri s
    floydFrom cfg (s.nCps / 2) s

def thvmAtpSetCpPri2BySeq (keys : List (ℕ × ℕ)) (s : Queue P) : Queue P :=
  if s.nCps = 0 ∨ keys = [] then s else keys.foldl setPri2 s

/-! ## The sweep -/

/-- What the sweep finds out about a slot. -/
inductive Verdict (P : Type) where
  | drop
  /-- unchanged, with this cookie -/
  | keep (lastNorm : ℕ)
  | reduce (p : P)

/-- `atp_cp_commit_priorities`. -/
abbrev atpCpCommitPriorities (w : World P) (s : Queue P) (i : ℕ) (p : P) : Queue P :=
  setKeys s i w p

/-- The descriptor and its tag, from slot `src` to slot `dst`. -/
def atpCpImplicitMove (s : Queue P) (dst src : ℕ) : Queue P :=
  if dst = src then s
  else
    { s with
      implicit := setCol s.implicit dst (s.implicit src)
      isImplicit := setCol (setCol s.isImplicit dst (s.isImplicit src)) src false }

/-- The bytes, unless the slot stays. -/
def moveBytes (s : Queue P) (dst src : ℕ) : Queue P :=
  if dst = src then s
  else { s with packed := setCol (setCol s.packed dst (s.packed src)) src none }

/-- The columns that the sweep copies in every case. -/
def moveCommon (s : Queue P) (dst src cookie : ℕ) : Queue P :=
  { s with
    trace := setCol s.trace dst (s.trace src)
    lastNorm := setCol s.lastNorm dst cookie
    ultimate := setCol s.ultimate dst (s.ultimate src)
    seq := setCol s.seq dst (s.seq src)
    compacted := (dst, src) :: s.compacted }

def keepImplicit (s : Queue P) (dst src : ℕ) : Queue P :=
  atpCpImplicitMove { s with
    pri := setCol s.pri dst (s.pri src)
    goal := setCol s.goal dst (s.goal src)
    pri2 := setCol s.pri2 dst (s.pri2 src) } dst src

def sweepSlot (w : World P) (v : Verdict P) (s : Queue P) (dst src : ℕ) : Queue P × ℕ × Bool :=
  match v with
  | .drop =>
    ({ s with
      packed := setCol s.packed src none
      isImplicit := setCol s.isImplicit src false }, dst, true)
  | .keep cookie =>
    let s' := moveCommon (moveBytes s dst src) dst src cookie
    if s.isImplicit src then (keepImplicit s' dst src, dst + 1, false)
    else
      match s.packed src with
      | some p => (atpCpCommitPriorities w s' dst p, dst + 1, false)
      | none => (s', dst + 1, false)
  | .reduce p =>
    let s := { s with
      packed := setCol (setCol s.packed src none) dst (some p)
      isImplicit := setCol s.isImplicit src false }
    (atpCpCommitPriorities w (moveCommon s dst src normCookieNone) dst p, dst + 1, true)

/-- The slots `src .. src + k`. -/
def sweepFrom (w : World P) (v : ℕ → Verdict P) :
    ℕ → ℕ → Queue P × ℕ × Bool → Queue P × ℕ × Bool
  | 0, _, st => st
  | k + 1, src, (s, dst, touched) =>
    let (s, dst, t) := sweepSlot w (v src) s dst src
    sweepFrom w v k (src + 1) (s, dst, touched || t)

def atpCpSetInterreduce (cfg : Config) (w : World P) (v : ℕ → Verdict P) (s : Queue P) : Queue P :=
  if s.nCps = 0 ∨ w.nRules = 0 then s
  else
    let (s', dst, touched) := sweepFrom w v s.nCps 0 (s, 0, false)
    let s' := { s' with nCps := dst }
    if touched then atpCpFloydOnly cfg s' else s'

/-! ## Runs -/

inductive Op (P : Type) where
  | push (p : Push P)
  | select
  | prune (horizon : ℕ)
  | setPriBySeq (keys : List (ℕ × ℕ))
  | setPri2BySeq (keys : List (ℕ × ℕ))
  | reheapify
  | sweep (v : ℕ → Verdict P)

/-- A queue at the begin of a step: nothing has been moved yet. -/
def clearLog (s : Queue P) : Queue P := { s with moved := [], compacted := [] }

/-- One step, with the pair that it selects. -/
def step (cfg : Config) (w : World P) (op : Op P) (s : Queue P) : Option (CpRecord P) × Queue P :=
  match op with
  | .push p => (none, atpCpPush cfg p (clearLog s))
  | .select => thvmAtpSelectCp cfg w (clearLog s)
  | .prune horizon => (none, atpLrsPrune cfg horizon (clearLog s))
  | .setPriBySeq keys => (none, thvmAtpSetCpPriBySeq cfg keys (clearLog s))
  | .setPri2BySeq keys => (none, thvmAtpSetCpPri2BySeq keys (clearLog s))
  | .reheapify => (none, thvmAtpCpReheapify cfg w (clearLog s))
  | .sweep v => (none, atpCpSetInterreduce cfg w v (clearLog s))

/-- The queues of runs from an empty one whose steps are all `Safe`. -/
inductive Reaches (cfg : Config) (Safe : World P → Op P → Queue P → Prop) : Queue P → Prop
  | start (s : Queue P) (hn : s.nCps = 0) (himplicit : ∀ i, s.isImplicit i = false) :
    Reaches cfg Safe s
  | step {s : Queue P} (run : Reaches cfg Safe s) (w : World P) (op : Op P) (h : Safe w op s) :
    Reaches cfg Safe (step cfg w op s).2

end CpQueue

end Atp

end Thvm
