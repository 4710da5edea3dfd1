import Thvm.OneWayDescent
import Thvm.OverlapIndex
import Thvm.PackedPairs

/-!
# The index of the queued pairs

The queued critical pairs stand in a discrimination tree, each as the term `Cp(lhs, rhs)`, so
that a candidate which one of them matches can be dropped. A hash table leads from the id of a
pair to its record.
-/

namespace Thvm.Atp.FvIndex
open Acp DiscriminationTree

/-! ## Symbols -/

/-- `AtpDTreeVarMap`. -/
structure DtVarMap extends VarMap where
  folded : Bool

namespace DtVarMap

def reset : DtVarMap := ⟨VarMap.reset, false⟩

/-- `atp_dtree_var_index` with its mark for variables that share a star. -/
def index (vm : DtVarMap) (vid : ℕ) : ℕ × DtVarMap :=
  ((vm.toVarMap.index vid).1,
    ⟨(vm.toVarMap.index vid).2, vm.folded || decide (rewriteMaxVar ≤ vid) ||
      (decide (vm.slot (VarMap.place vid) = 0) && decide (dtreeMaxVars ≤ vm.n))⟩)

end DtVarMap

def ctrSym (label : BitVec 18) : ℕ := dtreeCtrBase + label.toNat

/-- `atp_dtree_flatsym` of a leaf. -/
def leafSym (l : Atom) (vm : DtVarMap) : ℕ × DtVarMap :=
  match l with
  | .num _ _ => (dtreeNum, vm)
  | .fvr id => (dtreeStarBase + (vm.index id.toNat).1, (vm.index id.toNat).2)
  | .other w => (dtreeStarBase + (vm.index w.ext.toNat).1, (vm.index w.ext.toNat).2)

mutual

/-- The symbols that `atp_dt_insert_term` descends by. -/
def insertSyms : CpTerm → DtVarMap → List ℕ × DtVarMap
  | .leaf l, vm => ([(leafSym l vm).1], (leafSym l vm).2)
  | .node f args, vm => (ctrSym f :: (insertSymsArgs args vm).1, (insertSymsArgs args vm).2)

def insertSymsArgs : List CpTerm → DtVarMap → List ℕ × DtVarMap
  | [], vm => ([], vm)
  | a :: as, vm =>
    let (syms, vm) := insertSyms a vm
    let (rest, vm) := insertSymsArgs as vm
    (syms ++ rest, vm)

end

def atpDtFlatCap : ℕ := 32768

mutual

/-- The symbols and the spans in preorder, unless a node stands behind the cap. -/
def atpDtFlatten : CpTerm → DtVarMap → ℕ → Option (List (ℕ × ℕ) × DtVarMap)
  | .leaf l, vm, pos =>
    if atpDtFlatCap ≤ pos then none else some ([((leafSym l vm).1, 1)], (leafSym l vm).2)
  | .node f args, vm, pos =>
    if atpDtFlatCap ≤ pos then none else do
      let (nodes, vm) ← atpDtFlattenArgs args vm (pos + 1)
      some ((ctrSym f, nodes.length + 1) :: nodes, vm)

def atpDtFlattenArgs : List CpTerm → DtVarMap → ℕ → Option (List (ℕ × ℕ) × DtVarMap)
  | [], vm, _ => some ([], vm)
  | a :: as, vm, pos => do
    let (nodes, vm) ← atpDtFlatten a vm pos
    let (rest, vm) ← atpDtFlattenArgs as vm (pos + nodes.length)
    some (nodes ++ rest, vm)

end

/-! ## From ids to records -/

def dtreeNil : ℕ := 0xFFFFFFFF

/-- `AtpDtSeqEnt`. -/
structure SeqEnt where
  seq : ℕ
  record : ℕ

structure SeqMap where
  cap : ℕ
  ents : ℕ → SeqEnt

namespace SeqMap

/-- `atp_dt_seqmap_init`. -/
def init (cap : ℕ) : SeqMap := ⟨cap, fun _ => ⟨dtreeNil, 0⟩⟩

def mask (m : SeqMap) : ℕ := (m.cap + (2 ^ 32 - 1)) % 2 ^ 32

def home (m : SeqMap) (seq : ℕ) : ℕ := seq * 2654435761 % 2 ^ 32 &&& m.mask

def next (m : SeqMap) (h : ℕ) : ℕ := (h + 1) % 2 ^ 32 &&& m.mask

/-- `while (seqmap[h].seq != NIL) h = (h + 1) & mask`, for as many rounds as there are slots. -/
def emptyFrom (m : SeqMap) : ℕ → ℕ → Option ℕ
  | 0, _ => none
  | rounds + 1, h => if (m.ents h).seq = dtreeNil then some h else m.emptyFrom rounds (m.next h)

/-- `atp_dt_seqmap_put` in a table with room. -/
def place (m : SeqMap) (seq rec : ℕ) : Option SeqMap := do
  let h ← m.emptyFrom m.cap (m.home seq)
  some { m with ents := Function.update m.ents h ⟨seq, rec⟩ }

/-- `atp_dt_seqmap_put`, which calls itself through `atp_dt_seqmap_grow`. -/
def putFrom (nLive : ℕ) : ℕ → SeqMap → ℕ → ℕ → Option SeqMap
  | 0, _, _, _ => none
  | calls + 1, m, seq, rec =>
    if (nLive + 1) * 2 % 2 ^ 32 > m.cap then do
      let grown ← (List.range m.cap).foldlM (fun grown i =>
        if (m.ents i).seq ≠ dtreeNil then putFrom nLive calls grown (m.ents i).seq (m.ents i).record
        else some grown) (init (m.cap * 2 % 2 ^ 32))
      grown.place seq rec
    else m.place seq rec

/-- A `u32` can double 32 times. -/
def put (m : SeqMap) (nLive seq rec : ℕ) : Option SeqMap := putFrom nLive 33 m seq rec

/-- The first slot from `h` on that is empty or has the id. -/
def findFrom (m : SeqMap) (seq : ℕ) : ℕ → ℕ → Option ℕ
  | 0, _ => none
  | rounds + 1, h =>
    if (m.ents h).seq = dtreeNil ∨ (m.ents h).seq = seq then some h
    else m.findFrom seq rounds (m.next h)

/-- `atp_dt_seqmap_get`. -/
def get (m : SeqMap) (seq : ℕ) : Option (Option ℕ) := do
  let h ← m.findFrom seq m.cap (m.home seq)
  some (if (m.ents h).seq = dtreeNil then none else some (m.ents h).record)

/-- `seqmap[h].seq = NIL`. -/
def clear (ents : ℕ → SeqEnt) (h : ℕ) : ℕ → SeqEnt :=
  Function.update ents h ⟨dtreeNil, (ents h).record⟩

/-- The entry at `j` may stay behind the hole at `h`: its home `k` lies between the two. -/
def staysBehind (h j k : ℕ) : Bool := if h ≤ j then h < k && k ≤ j else h < k || k ≤ j

/-- The two loops of the back-shift as one: `h` is the hole, `j` what was looked at last. -/
def backShift (m : SeqMap) : ℕ → ℕ → ℕ → (ℕ → SeqEnt) → Option (ℕ → SeqEnt)
  | 0, _, _, _ => none
  | rounds + 1, h, j, ents =>
    let j := m.next j
    if (ents j).seq = dtreeNil then some ents
    else if staysBehind h j (m.home (ents j).seq) then backShift m rounds h j ents
    else backShift m rounds j j (clear (Function.update ents h (ents j)) j)

/-- `atp_dt_seqmap_del`. -/
def del (m : SeqMap) (seq : ℕ) : Option SeqMap := do
  let h ← m.findFrom seq m.cap (m.home seq)
  if (m.ents h).seq = dtreeNil then some m
  else do
    let ents ← m.backShift m.cap h h (clear m.ents h)
    some { m with ents := ents }

end SeqMap

/-! ## The index -/

/-- `AtpDtRec`; the records of a leaf are the list in its node. -/
structure DtRec where
  packed : List UInt8
  seq : ℕ
  live : Bool
  folded : Bool

structure AtpFvIndex where
  root : Forest ℕ ℕ
  recs : List DtRec
  nLive : ℕ
  seqmap : SeqMap

def cpLabel : ℕ := 16

def cpSym : ℕ := dtreeCtrBase + cpLabel

/-- `atp_fv_index_new`. -/
def AtpFvIndex.new : AtpFvIndex := ⟨.nil, [], 0, .init 1024⟩

namespace AtpFvIndex

/-- `atp_fv_index_insert`. -/
def insert (ix : AtpFvIndex) (lhs rhs : CpTerm) (packed : List UInt8) (seq : ℕ) :
    Option AtpFvIndex := do
  let (lsyms, vm) := insertSyms lhs .reset
  let (rsyms, vm) := insertSyms rhs vm
  let seqmap ← ix.seqmap.put ix.nLive seq ix.recs.length
  some {
    root := ix.root.insert ix.recs.length cpSym (lsyms ++ rsyms)
    recs := ix.recs ++ [⟨packed, seq, true, vm.folded⟩]
    nLive := (ix.nLive + 1) % 2 ^ 32
    seqmap := seqmap }

/-- `if (recs[rec].live) { recs[rec].live = 0; n_live--; }`. -/
def kill (ix : AtpFvIndex) (rec : ℕ) : AtpFvIndex :=
  match ix.recs[rec]? with
  | none => ix
  | some rc =>
    if rc.live then
      { ix with recs := ix.recs.set rec { rc with live := false }, nLive := ix.nLive - 1 }
    else ix

/-- `atp_fv_index_remove`. -/
def remove (ix : AtpFvIndex) (seq : ℕ) : Option AtpFvIndex := do
  let found ← ix.seqmap.get seq
  match found with
  | none => some ix
  | some rec =>
    let seqmap ← ix.seqmap.del seq
    some { ix.kill rec with seqmap := seqmap }

/-- What `atp_fv_index_rebuild` does before it inserts the queued pairs. -/
def reset (ix : AtpFvIndex) : AtpFvIndex :=
  ⟨.nil, [], 0, ⟨ix.seqmap.cap, fun i => ⟨dtreeNil, (ix.seqmap.ents i).record⟩⟩⟩

/-! ## Retrieval -/

/-- `acp_match_pair` from no bindings. -/
def matchesPair (packed : List UInt8) (qlhs qrhs : CpTerm) : Bool :=
  (acpMatchPair packed qlhs qrhs fun _ => none).any Prod.fst

/-- `atp_dt_leaf_match` for one record. -/
def leafMatch (ix : AtpFvIndex) (queryFolded : Bool) (qlhs qrhs : CpTerm) (rec : ℕ) : Bool :=
  match ix.recs[rec]? with
  | none => false
  | some rc => rc.live && (!rc.folded && !queryFolded || matchesPair rc.packed qlhs qrhs)

/-- The `k` of `STAR(k)`. -/
def starIndex (sym : ℕ) : Option ℕ := if isStar sym then some (sym - dtreeStarBase) else none

def atpDtDescentDepthCap : ℕ := 1024

/-- The query `Cp(lhs, rhs)` as an array, with the head at position 0. -/
def flattenPair (lhs rhs : CpTerm) : Option (List (ℕ × ℕ) × DtVarMap) := do
  let (lnodes, vm) ← atpDtFlatten lhs .reset 1
  let (rnodes, vm) ← atpDtFlatten rhs vm (1 + lnodes.length)
  some ((cpSym, 1 + lnodes.length + rnodes.length) :: (lnodes ++ rnodes), vm)

/-- `atp_dt_query_orient`. -/
def queryOrient (ix : AtpFvIndex) (lhs rhs : CpTerm) : Bool :=
  match flattenPair lhs rhs with
  | none => ix.recs.any fun rc => rc.live && matchesPair rc.packed lhs rhs
  | some (flat, vm) =>
    match ix.root.find cpSym with
    | none => false
    | some (recs, child) =>
      let ok := ix.leafMatch vm.folded lhs rhs
      descendRec flat atpDtDescentDepthCap ok recs
        (descendChildren starIndex flat atpDtDescentDepthCap ok child) 1 0 fun _ => 0

/-- `atp_fv_index_query`. -/
def query (ix : AtpFvIndex) (lhs rhs : CpTerm) : Bool :=
  ix.queryOrient lhs rhs || ix.queryOrient rhs lhs

end AtpFvIndex

/-! ## Runs -/

inductive FvOp where
  | insert (lhs rhs : CpTerm) (packed : List UInt8) (seq : ℕ)
  | remove (seq : ℕ)
  | reset

/-- A call that does not return leaves nothing. -/
def AtpFvIndex.apply (ix : AtpFvIndex) : FvOp → Option AtpFvIndex
  | .insert lhs rhs packed seq => ix.insert lhs rhs packed seq
  | .remove seq => ix.remove seq
  | .reset => some ix.reset

def AtpFvIndex.runOps (ops : List FvOp) : Option AtpFvIndex :=
  ops.foldlM AtpFvIndex.apply .new

end Thvm.Atp.FvIndex
