import Mathlib.Algebra.Order.Ring.Int
import Thvm.LinearProbing
import Thvm.RankedForests

/-!
# Ground congruence closure

Union-find over the nodes, a use list for each class, a signature table for the
applications, a queue of pending merges, and a trail that undoes everything since a mark.
Arrays that shrink and grow at one end only are lists: those read by index (`nodes`, the
use cells) in index order, the others (`pend`, `ne`, `trail`) with the newest entry first.
-/

namespace Thvm
open LinearProbing RankedForests

inductive CcNode where
  | atom (atomId : ℕ)
  | app (fnId : ℕ) (args : List ℕ)
  deriving DecidableEq

def ccNone : ℕ := 0xffffffff

/-- The signature table; a key is a function with the representatives of its arguments. -/
abbrev CcSig := Table (List ℕ) ℕ

inductive CcTrail where
  | union (a b r : ℕ)
  | sigPut (key : List ℕ)
  | sigDel (key : List ℕ) (a : ℕ)
  | use (a b : ℕ) (r : Option ℕ)
  | useSplice (a b r spliceTail : ℕ) (raOldHead : Option ℕ)
  | node
  | ne

structure CcState where
  nodes : List CcNode
  parent : ℕ → ℕ
  rank : ℕ → ℕ
  useHead : ℕ → Option ℕ
  uses : List (ℕ × Option ℕ)
  sig : CcSig
  pend : List (ℕ × ℕ)
  ne : List (ℕ × ℕ)
  trail : List CcTrail

inductive CcResult where
  | sat
  | unsat
  deriving DecidableEq

/-- The FNV hash of a key. -/
def ccHash (key : List ℕ) : ℕ :=
  key.foldl (fun h w => Nat.xor h w * 0x01000193 % 2 ^ 32) 0x811c9dc5

def ccInit : CcState :=
  ⟨[], id, fun _ => 0, fun _ => none, [], LinearProbing.empty 64, [], [], []⟩

namespace CcState

variable (s : CcState)

def trailPush (e : CcTrail) : CcState := { s with trail := e :: s.trail }

def pendPush (a b : ℕ) : CcState := { s with pend := (a, b) :: s.pend }

end CcState

def ccFind (s : CcState) (n : ℕ) : ℕ := findRoot s.parent s.nodes.length n

def ccUseAdd (s : CcState) (r app : ℕ) : CcState :=
  { s.trailPush (.use app r (s.useHead r)) with
    uses := s.uses ++ [(app, s.useHead r)]
    useHead := Function.update s.useHead r (some s.uses.length) }

def ccKey (s : CcState) (fnId : ℕ) (args : List ℕ) : List ℕ := fnId :: args.map (ccFind s)

def ccSigKey (s : CcState) : CcNode → List ℕ
  | .atom _ => ccKey s ccNone []
  | .app fnId args => ccKey s fnId args

def ccSigLookup (s : CcState) (key : List ℕ) : Option (ℕ × Option ℕ) := lookup ccHash s.sig key

def ccSigPutRaw (t : CcSig) (slot : ℕ) (key : List ℕ) (node : ℕ) : Option CcSig :=
  let t := t.place slot key node
  if t.cap * 3 ≤ t.count * 4 then rehash ccHash t else some t

def ccSigPut (s : CcState) (slot : ℕ) (key : List ℕ) (node : ℕ) : Option CcState := do
  let sig ← ccSigPutRaw s.sig slot key node
  some { s.trailPush (.sigPut key) with sig := sig }

def ccNewNode (s : CcState) (node : CcNode) : CcState :=
  { s.trailPush .node with
    nodes := s.nodes ++ [node]
    parent := Function.update s.parent s.nodes.length s.nodes.length
    rank := Function.update s.rank s.nodes.length 0
    useHead := Function.update s.useHead s.nodes.length none }

def ccAtom (s : CcState) (atomId : ℕ) : ℕ × CcState :=
  (s.nodes.length, ccNewNode s (.atom atomId))

/-- The use lists of the arguments' classes. -/
def ccUseArgs (n : ℕ) : List ℕ → CcState → CcState
  | [], s => s
  | a :: as, s => ccUseArgs n as (ccUseAdd s (ccFind s a) n)

def ccApp (s : CcState) (fnId : ℕ) (args : List ℕ) : Option (ℕ × CcState) := do
  let key := ccKey s fnId args
  let (slot, found) ← ccSigLookup s key
  match found with
  | some m => some (m, s)
  | none =>
    let n := s.nodes.length
    let s ← ccSigPut (ccNewNode s (.app fnId args)) slot key n
    some (n, ccUseArgs n args s)

def ccCanonicalize (s : CcState) (app : ℕ) : Option CcState := do
  let key := ccSigKey s (← s.nodes[app]?)
  let (slot, other) ← ccSigLookup s key
  match other with
  | none => ccSigPut s slot key app
  | some m => some (if ccFind s m ≠ ccFind s app then s.pendPush m app else s)

/-- Canonicalize the applications of a use list. -/
def ccCanonUses : ℕ → Option ℕ → CcState → Option CcState
  | 0, _, _ => none
  | _ + 1, none, s => some s
  | rounds + 1, some c, s => do
    let s ← ccCanonicalize s (← s.uses[c]?).1
    ccCanonUses rounds (← s.uses[c]?).2 s

def ccUseTail (uses : List (ℕ × Option ℕ)) : ℕ → ℕ → Option ℕ
  | 0, _ => none
  | rounds + 1, c => do
    match (← uses[c]?).2 with
    | none => some c
    | some c' => ccUseTail uses rounds c'

/-- Put the use list of `rb` before that of `ra`. -/
def ccUseSplice (s : CcState) (ra rb : ℕ) : Option CcState :=
  match s.useHead rb with
  | none => some s
  | some rbHead => do
    let tail ← ccUseTail s.uses s.uses.length rbHead
    some { s.trailPush (.useSplice rb ra rbHead tail (s.useHead ra)) with
      uses := s.uses.modify tail fun cell => (cell.1, s.useHead ra)
      useHead := Function.update (Function.update s.useHead ra (some rbHead)) rb none }

def ccUnion (s : CcState) (ra rb : ℕ) : CcState :=
  { s.trailPush (.union rb ra (s.rank ra)) with
    rank := linkRank s.rank ra rb
    parent := Function.update s.parent rb ra }

/-- Put the root `rb` below the root `ra`. -/
def ccMerge (s : CcState) (ra rb : ℕ) : Option CcState := do
  let s ← ccCanonUses (s.uses.length + 1) (s.useHead rb) (ccUnion s ra rb)
  ccUseSplice s ra rb

def ccPropagate : ℕ → CcState → Option CcState
  | 0, _ => none
  | rounds + 1, s =>
    match s.pend with
    | [] => some s
    | (a, b) :: pend =>
      let s := { s with pend := pend }
      let ra := ccFind s a
      let rb := ccFind s b
      if ra = rb then ccPropagate rounds s
      else if s.rank ra < s.rank rb then ccMerge s rb ra >>= ccPropagate rounds
      else ccMerge s ra rb >>= ccPropagate rounds

def ccAssertEq (rounds : ℕ) (s : CcState) (a b : ℕ) : Option CcState :=
  ccPropagate rounds (s.pendPush a b)

def ccAssertNe (s : CcState) (a b : ℕ) : CcState :=
  { s.trailPush .ne with ne := (a, b) :: s.ne }

def ccCheck (s : CcState) : CcResult :=
  if s.ne.any fun p => ccFind s p.1 = ccFind s p.2 then .unsat else .sat

def ccPush (s : CcState) : ℕ := s.trail.length

/-- Undo what one record stands for. -/
def ccUndo (s : CcState) : CcTrail → Option CcState
  | .union a b r =>
    some { s with parent := Function.update s.parent a a, rank := Function.update s.rank b r }
  | .useSplice a b r spliceTail raOldHead =>
    some { s with
      uses := s.uses.modify spliceTail fun cell => (cell.1, none)
      useHead := Function.update (Function.update s.useHead b raOldHead) a (some r) }
  | .sigPut key => do
    let sig ← erase ccHash s.sig key
    some { s with sig := sig }
  | .sigDel key a => do
    let (slot, _) ← ccSigLookup s key
    let sig ← ccSigPutRaw s.sig slot key a
    some { s with sig := sig }
  | .use _ b r =>
    some { s with useHead := Function.update s.useHead b r, uses := s.uses.dropLast }
  | .node => some { s with nodes := s.nodes.dropLast }
  | .ne => some { s with ne := s.ne.tail }

def ccPopTrail (mark : ℕ) : List CcTrail → CcState → Option CcState
  | [], s => some s
  | e :: es, s =>
    if mark < (e :: es).length then ccUndo { s with trail := es } e >>= ccPopTrail mark es
    else some s

def ccPop (s : CcState) (mark : ℕ) : Option CcState := ccPopTrail mark s.trail s

end Thvm
