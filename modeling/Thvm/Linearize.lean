import Thvm.LinearProbing
import Thvm.Terms

/-!
# The linearizer

A kernel graph is flattened to the list of its nodes. A depth-first pass lists the
nodes below the sink; a second pass starts at the sink and emits, in the order of a
priority, the nodes whose consumers have all been emitted. The list is built from
its end.
-/

namespace Thvm.Linearize

def linKernelCap : ℕ := 4096

def linHtCap : ℕ := 16384

def linSrcCap : ℕ := 16

def stkCap : ℕ := 8192

def kidsCap : ℕ := linKernelCap * 4

/-! ## Hash tables -/

/-- `count` is kept by the table of the model only. -/
abbrev LinHash := LinearProbing.Table Term ℕ

def linHashReset : LinHash := LinearProbing.empty linHtCap

def linHashProbe (key : Term) : ℕ :=
  let k := key.bits
  let k := (k ^^^ (k >>> 33)) * 0xff51afd7ed558ccd % 2 ^ 64
  let k := (k ^^^ (k >>> 33)) * 0xc4ceb9fe1a85ec53 % 2 ^ 64
  (k ^^^ (k >>> 33)) % 2 ^ 32

/-- `true` on insert, `false` on update; a full table drops the entry. -/
def linHashPut (h : LinHash) (key : Term) (val : ℕ) : LinHash × Bool :=
  LinearProbing.put linHashProbe h key val

def linHashGetDefault (h : LinHash) (key : Term) (default : ℕ) : ℕ :=
  (LinearProbing.get linHashProbe h key).getD default

/-! ## Sources -/

def uopArity (op : ℕ) : ℕ :=
  match op with
  | Uop.opt => 1
  | Uop.neg | Uop.recip | Uop.exp2 | Uop.log2 | Uop.sqrt
  | Uop.reshape | Uop.permute | Uop.expand | Uop.pad | Uop.shrink | Uop.flip
  | Uop.reduce | Uop.load | Uop.detach | Uop.cast | Uop.bitcast
  | Uop.copy | Uop.bufferize | Uop.unroll | Uop.contract | Uop.gep => 1
  | Uop.add | Uop.mul | Uop.cmplt | Uop.cmpeq | Uop.assign
  | Uop.iadd | Uop.isub | Uop.imul | Uop.idiv | Uop.imod | Uop.ilt | Uop.iand | Uop.ior | Uop.ixor
  | Uop.ishr | Uop.indexE => 2
  | Uop.iwhere | Uop.store => 3
  | _ => 0

section Heap

variable (heap : ℕ → Term)

/-- The number in a cell, as `u32`. -/
def cellNum (loc : ℕ) : ℕ := (heap loc).val % 2 ^ 32

/-- The cells that are read for the sources of a node. -/
def uopCells (t : Term) : List Term :=
  (List.range (uopArity (t.ext % 2 ^ 8))).map (fun i => heap (t.val + i)) ++
    match t.ext with
    | Uop.after => [heap t.val, heap (t.val + 1)]
    | Uop.stack => (List.range (cellNum heap t.val)).map fun i => heap (t.val + 1 + i)
    | Uop.end' => (List.range (cellNum heap t.val)).map fun i => heap (t.val + 1 + i)
    | _ => []

/-- All sources of a node. -/
def uopSrcs (t : Term) : List Term :=
  if t.tag ≠ .uop then [] else (uopCells heap t).filter (· ≠ Term.zero)

/-- The loops stop at `LIN_SRC_CAP` sources. -/
def linCollectSrcs (t : Term) : List Term := (uopSrcs heap t).take linSrcCap

def uopRangeExtent (r : Term) : ℕ :=
  if r.tag ≠ .uop ∨ r.ext ≠ Uop.range then 0 else cellNum heap (r.val + 2)

/-! ## Priorities -/

def linPriorityPack (runCount : ℕ) (priority : ℤ) (extra : ℕ) : ℕ :=
  let runCount := min runCount 0xFFFFFF
  let pri := min ((priority + 0x800000) % 2 ^ 32).toNat 0xFFFFFF
  let extra := min extra 0xFFFF
  runCount * 2 ^ 40 ||| pri * 2 ^ 16 ||| extra

def linOpcodePriority (op : ℕ) : ℤ :=
  match op with
  | Uop.placeholder => -17
  | Uop.buffer => -18
  | Uop.load => -1
  | Uop.store => 1
  | Uop.range => 5
  | Uop.end' => -5
  | _ => 0

/-- The product of the extents of the ranges below a node; every range counts once. -/
def linRangeProduct : ℕ → Term → LinHash → Option (ℕ × LinHash)
  | 0, _, _ => none
  | rounds + 1, t, seen =>
    if t.tag ≠ .uop then some (1, seen)
    else if t.ext = Uop.range then
      let (seen, inserted) := linHashPut seen t 1
      if inserted then
        let extent := uopRangeExtent heap t
        some (if extent = 0 then 1 else extent, seen)
      else some (1, seen)
    else
      (linCollectSrcs heap t).foldlM (fun (prod, seen) src => do
        let (p, seen) ← linRangeProduct rounds src seen
        some (prod * p % 2 ^ 64, seen)) (1, seen)

def linKey (rounds : ℕ) (t : Term) : Option ℕ := do
  let (runCount, _) ← linRangeProduct heap rounds t linHashReset
  some (linPriorityPack (min runCount 0xFFFFFF) (linOpcodePriority t.ext) 0)

/-! ## The depth-first pass -/

/-- A node being explored, the sources still to look at and the length of `kids` below it. -/
structure StkE where
  t : Term
  kids : List Term
  base : ℕ

structure Toposort where
  stk : List StkE
  kp : ℕ
  out : List Term
  seen : LinHash

def unseen : ℕ := 0xFFFFFFFF

/-- The marker of a leaf: seen, not emitted. -/
def seenLeaf : ℕ := 0xFFFFFFFE

/-- `none` when the rounds run out, `some none` when a capacity does. -/
def linToposortLoop : ℕ → Toposort → Option (Option (List Term))
  | 0, _ => none
  | rounds + 1, st =>
    match st.stk with
    | [] => some (some st.out)
    | ⟨t, [], base⟩ :: stk =>
      if linHashGetDefault st.seen t unseen = unseen then
        if linKernelCap ≤ st.out.length then some none
        else
          linToposortLoop rounds
            ⟨stk, base, st.out ++ [t], (linHashPut st.seen t st.out.length).1⟩
      else linToposortLoop rounds { st with stk := stk, kp := base }
    | ⟨t, child :: kids, base⟩ :: stk =>
      if linHashGetDefault st.seen child unseen ≠ unseen then
        linToposortLoop rounds { st with stk := ⟨t, kids, base⟩ :: stk }
      else if child.tag ≠ .uop then
        linToposortLoop rounds
          { st with
            stk := ⟨t, kids, base⟩ :: stk
            seen := (linHashPut st.seen child seenLeaf).1 }
      else if stkCap ≤ stk.length + 1 then some none
      else if kidsCap < st.kp + (linCollectSrcs heap child).length then some none
      else
        linToposortLoop rounds
          { st with
            stk := ⟨child, linCollectSrcs heap child, st.kp⟩ :: ⟨t, kids, base⟩ :: stk
            kp := st.kp + (linCollectSrcs heap child).length }

def linToposort (rounds : ℕ) (sink : Term) : Option (Option (List Term)) :=
  let srcs := linCollectSrcs heap sink
  linToposortLoop heap rounds ⟨[⟨sink, srcs, 0⟩], srcs.length, [], linHashReset⟩

/-- One more consumer of a source. -/
def linCountSrc (outDeg : LinHash) (src : Term) : LinHash :=
  if src.tag ≠ .uop then outDeg
  else (linHashPut outDeg src (linHashGetDefault outDeg src 0 + 1)).1

def linBuildOutDegree (topo : List Term) : LinHash :=
  topo.foldl (fun outDeg t => (linCollectSrcs heap t).foldl linCountSrc outDeg) linHashReset

/-! ## The ideal order -/

/-- Insert an index into a sorted list, which is read from its largest key on. -/
def linInsert (keys : List ℕ) (cur : ℕ) : List ℕ → List ℕ
  | [] => [cur]
  | prev :: idx =>
    if keys.getD prev 0 ≤ keys.getD cur 0 then cur :: prev :: idx
    else prev :: linInsert keys cur idx

def linSortByKey (idx keys : List ℕ) : List ℕ :=
  (idx.foldl (fun sorted cur => linInsert keys cur sorted) []).reverse

def linAssignNkey (topo : List Term) (keys : List ℕ) : LinHash :=
  let idx := linSortByKey (List.range topo.length) keys
  idx.zipIdx.foldl (fun nkeys p => (linHashPut nkeys (topo.getD p.1 Term.zero) p.2).1) linHashReset

/-! ## The heap -/

structure LinHeapEntry where
  nkey : ℕ
  t : Term

instance : Inhabited LinHeapEntry := ⟨⟨0, Term.zero⟩⟩

/-- The index at least halves: as many rounds as the index are enough. -/
def linSiftUp : ℕ → ℕ → Array LinHeapEntry → Array LinHeapEntry
  | 0, _, h => h
  | rounds + 1, i, h =>
    if i = 0 then h
    else if (h[(i - 1) / 2]!).nkey ≤ (h[i]!).nkey then h
    else linSiftUp rounds ((i - 1) / 2) (h.swapIfInBounds ((i - 1) / 2) i)

def linHeapPush (h : Array LinHeapEntry) (nkey : ℕ) (t : Term) : Array LinHeapEntry :=
  linSiftUp h.size h.size (h.push ⟨2 ^ 32 - 1 - nkey, t⟩)

/-- The smallest of an entry and its two children. -/
def linSmallest (h : Array LinHeapEntry) (i : ℕ) : ℕ :=
  let l := 2 * i + 1
  let r := 2 * i + 2
  let m := if l < h.size ∧ (h[l]!).nkey < (h[i]!).nkey then l else i
  if r < h.size ∧ (h[r]!).nkey < (h[m]!).nkey then r else m

/-- The index grows: as many rounds as entries are enough. -/
def linSiftDown : ℕ → ℕ → Array LinHeapEntry → Array LinHeapEntry
  | 0, _, h => h
  | rounds + 1, i, h =>
    let m := linSmallest h i
    if m = i then h else linSiftDown rounds m (h.swapIfInBounds m i)

def linHeapPop (h : Array LinHeapEntry) : Term × Array LinHeapEntry :=
  let last := h.back!
  let rest := h.pop
  (h[0]!.t, if rest.size = 0 then rest else linSiftDown rest.size 0 (rest.setIfInBounds 0 last))

/-! ## The second pass -/

/-- The last emitted node comes first in `newlst`. -/
structure Emission where
  ready : Array LinHeapEntry
  outDeg : LinHash
  newlst : List Term

/-- One consumer of a source has been emitted. -/
def linRelease (nkeys : LinHash) (st : Emission) (v : Term) : Emission :=
  if v.tag ≠ .uop then st
  else
    let cur := linHashGetDefault st.outDeg v 0
    if cur = 0 then st
    else
      let outDeg := (linHashPut st.outDeg v (cur - 1)).1
      if cur - 1 = 0 then
        { st with
          ready := linHeapPush st.ready (linHashGetDefault nkeys v 0) v
          outDeg := outDeg }
      else { st with outDeg := outDeg }

/-- The rounds left are the free places of `newlst`. -/
def linEmitLoop (nkeys : LinHash) : ℕ → Emission → Option (List Term)
  | rounds, st =>
    if st.ready.size = 0 then some st.newlst
    else
      match rounds with
      | 0 => none
      | rounds + 1 =>
        let (u, ready) := linHeapPop st.ready
        linEmitLoop nkeys rounds
          ((linCollectSrcs heap u).foldl (linRelease nkeys) ⟨ready, st.outDeg, u :: st.newlst⟩)

def linEmit (sink : Term) (nkeys outDeg : LinHash) : Option (List Term) :=
  linEmitLoop heap nkeys linKernelCap
    ⟨linHeapPush #[] (linHashGetDefault nkeys sink 0) sink, outDeg, []⟩

/-- `none` when the rounds run out, `some none` for the result 0. -/
def uopLinearize (rounds : ℕ) (sink : Term) : Option (Option (List Term)) :=
  if sink.tag ≠ .uop then some none
  else do
    match ← linToposort heap rounds sink with
    | none => some none
    | some topo =>
      let keys ← topo.mapM (linKey heap rounds)
      some (linEmit heap sink (linAssignNkey topo keys) (linBuildOutDegree heap topo))

end Heap

end Thvm.Linearize
