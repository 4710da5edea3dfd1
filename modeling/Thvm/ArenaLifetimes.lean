import Mathlib.Data.List.Sort
import Thvm.DepthFirst
import Thvm.Linearize
import Thvm.TlsfAllocator

/-!
# The arena plan of a realize pass

The boundaries of a pass are the nodes that get a kernel and an output buffer of their
own; they fire in the order of a list. The planner finds the last position at which a
boundary's output is read, turns the lifetimes into open and close events and replays
the events on the allocator.
-/

namespace Thvm.ArenaPlan
open Tlsf Linearize

def bufferizeNodesCap : ℕ := 16384

def boundaryOrderCap : ℕ := 16384

inductive Dtype
  | bool | int8 | uint8 | int16 | uint16 | int32 | uint32 | int64 | uint64
  | fp8e4m3 | fp8e5m2 | fp16 | bf16 | fp32 | fp64 | int4 | uint4
  deriving DecidableEq, Repr

def Dtype.bits : Dtype → ℕ
  | bool | int8 | uint8 | fp8e4m3 | fp8e5m2 => 8
  | int16 | uint16 | fp16 | bf16 => 16
  | int32 | uint32 | fp32 => 32
  | int64 | uint64 | fp64 => 64
  | int4 | uint4 => 4

/-- No size of its own for the packed ones. -/
def Dtype.itemsize (dt : Dtype) : ℕ := dt.bits / 8

/-- Two packed elements share a byte. -/
def dtypeStorageBytes (dt : Dtype) (numel : ℕ) : ℕ :=
  if dt.bits = 4 then (numel + 1) / 2 else numel * dt.itemsize % 2 ^ 64

def shapeNumel (dims : List ℕ) : ℕ := dims.foldl (fun n d => n * d % 2 ^ 32) 1

/-- An entry of `BUFFERIZE_NODES`. -/
structure UOpInfo where
  loc : ℕ
  op : ℕ
  consumerCount : ℕ
  realized : Bool
  deriving DecidableEq, Repr

/-- What the planner reads. `resolved` is `term_resolve` of a heap cell; the arrays that
the source indexes by the entries of `BUFFERIZE_NODES` are functions of the node. -/
structure Pass where
  resolved : ℕ → Term
  heapNext : ℕ
  nodes : List UOpInfo
  order : List ℕ
  boundaryDepth : ℕ → Option ℕ
  xpassIsShared : ℕ → Bool
  termShapeIn : Term → Option (List ℕ)
  termDtypeIn : Term → Option Dtype
  spanHolds : Bool
  arenaEnabled : Bool
  resolved_below : ∀ i, (resolved i).tag = .uop → (resolved i).val < heapNext
  nodes_below : ∀ info ∈ nodes, info.loc < heapNext
  nodes_nodup : (nodes.map UOpInfo.loc).Nodup
  nodes_length : nodes.length ≤ bufferizeNodesCap
  order_nodup : order.Nodup
  order_length : order.length ≤ boundaryOrderCap

/-- The marks and the recorded last uses during a descent. -/
structure Descent where
  visited : List ℕ
  lastUse : ℕ → ℕ

namespace Pass

variable (S : Pass)

def bufferizeInfoFind (loc : ℕ) : Option UOpInfo := S.nodes.find? (·.loc == loc)

def boundaryIndexForLoc (loc : ℕ) : Option ℕ := S.order.findIdx? (· == loc)

/-- The nodes that a node reads; a kernel is opaque. -/
def children (op loc : ℕ) : List Term :=
  ((List.range (uopArity op)).map fun c => S.resolved (loc + c)).filter fun child =>
    child.tag = .uop ∧ child.ext ≠ Uop.kernel

def childLocs (op loc : ℕ) : List ℕ := ((S.children op loc).map Term.val).eraseDups

/-! ## Last uses -/

def bump (value loc : ℕ) (use : ℕ → ℕ) : ℕ → ℕ :=
  if use loc < value then Function.update use loc value else use

/-- The descent of one reader: it goes on through the recorded nodes at which it does
not stop, and records `value` where it does. -/
def lastUseDescend (stops : UOpInfo → Bool) (value : ℕ) : ℕ → ℕ → Descent → Descent
  | 0, _, d => d
  | rounds + 1, loc, d =>
    if S.heapNext ≤ loc then d
    else if loc ∈ d.visited then d
    else
      match S.bufferizeInfoFind loc with
      | none => ⟨loc :: d.visited, d.lastUse⟩
      | some info =>
        if stops info then ⟨loc :: d.visited, bump value loc d.lastUse⟩
        else
          (S.childLocs info.op loc).foldl (fun d child => lastUseDescend stops value rounds child d)
            ⟨loc :: d.visited, d.lastUse⟩

/-- The descents from the children of one reader; every reader starts with no marks. -/
def descendFrom (stops : UOpInfo → Bool) (value : ℕ) (p : UOpInfo) (use : ℕ → ℕ) : ℕ → ℕ :=
  ((S.childLocs p.op p.loc).foldl
    (fun d child => S.lastUseDescend stops value (S.heapNext + 1) child d) ⟨[], use⟩).lastUse

def boundaryLastUseStops (info : UOpInfo) : Bool := info.realized

/-- At a node "that is ACTUALLY MATERIALIZED as a buffer", in this pass or in another. -/
def boundaryLastUsePosStops (info : UOpInfo) : Bool :=
  info.realized && ((S.boundaryIndexForLoc info.loc).isSome || S.xpassIsShared info.loc)

/-- `BOUNDARY_LAST_USE`: the greatest depth of a realized reader. -/
def boundaryComputeLastUse : ℕ → ℕ :=
  S.nodes.foldl (fun use p =>
    if p.realized then
      match S.boundaryDepth p.loc with
      | none => use
      | some depth => S.descendFrom boundaryLastUseStops depth p use
    else use) fun _ => 0

/-- `BOUNDARY_LAST_USE_POS`: the greatest position of a realized reader. -/
def boundaryComputeLastUsePos : ℕ → ℕ :=
  S.order.zipIdx.foldl (fun use (ploc, pos) =>
    match S.bufferizeInfoFind ploc with
    | none => use
    | some p => if p.realized then S.descendFrom S.boundaryLastUsePosStops pos p use else use)
    fun _ => 0

/-! ## Plannable boundaries -/

/-- `BOUNDARY_ORDER[ord_idx]`. -/
def orderAt (ordIdx : ℕ) : ℕ := S.order.getD ordIdx 0

def arenaBoundaryIsPlannable (ordIdx : ℕ) : Bool :=
  if S.spanHolds then false
  else
    match S.bufferizeInfoFind (S.orderAt ordIdx) with
    | none => false
    | some info => S.boundaryComputeLastUse info.loc != 0 && info.consumerCount == 1

def arenaBoundaryNbytes (ordIdx : ℕ) : ℕ :=
  match S.bufferizeInfoFind (S.orderAt ordIdx) with
  | none => 0
  | some info =>
    let root := termNew false .uop info.op (S.orderAt ordIdx)
    match S.termShapeIn root with
    | none => 0
    | some dims => dtypeStorageBytes ((S.termDtypeIn root).getD .fp32) (shapeNumel dims)

def planned (i : ℕ) : Bool := S.arenaBoundaryIsPlannable i && S.arenaBoundaryNbytes i != 0

/-- A boundary that other passes read lives to the end of this one. -/
def lastPos (i : ℕ) : ℕ :=
  if S.xpassIsShared (S.orderAt i) then S.order.length - 1
  else max (S.boundaryComputeLastUsePos (S.orderAt i)) i

end Pass

/-! ## Events -/

structure ArenaEvent where
  pos : ℕ
  ordIdx : ℕ
  isOpen : Bool
  deriving DecidableEq, Repr

/-- By position; at the same position the opening events come first. -/
def ArenaEvent.le (a b : ArenaEvent) : Prop :=
  a.pos < b.pos ∨ a.pos = b.pos ∧ (b.isOpen = true → a.isOpen = true)

instance : DecidableRel ArenaEvent.le := fun a b => by
  unfold ArenaEvent.le
  infer_instance

def arenaSortEvents (events : List ArenaEvent) : List ArenaEvent :=
  events.insertionSort ArenaEvent.le

structure ArenaSlot where
  offset : ℕ
  nbytes : ℕ
  inArena : Bool
  deriving DecidableEq, Repr

/-- `ARENA_SLOTS` and `ARENA_SIZE`. -/
structure Plan where
  slots : ℕ → ArenaSlot
  size : ℕ

def arenaReset : Plan := ⟨fun _ => ⟨0, 0, false⟩, 0⟩

/-- The state of the replay. -/
structure Replay where
  tlsf : TlsfAllocator
  slots : ℕ → ArenaSlot
  peak : ℕ

namespace Pass

variable (S : Pass)

def arenaEvents : List ArenaEvent :=
  (List.range S.order.length).flatMap fun i =>
    if S.planned i then [⟨i, i, true⟩, ⟨S.lastPos i + 1, i, false⟩] else []

/-- One event; `none` when an allocation fails. -/
def replayEvent (r : Replay) (e : ArenaEvent) : Except Stop (Option Replay) :=
  if e.isOpen then do
    let nbytes := S.arenaBoundaryNbytes e.ordIdx
    let (tlsf, off) ← tlsfAlloc r.tlsf (tlsfRoundUp nbytes tlsfBlockSize)
    if off = oom then .ok none
    else .ok (some ⟨tlsf, Function.update r.slots e.ordIdx ⟨off, nbytes, true⟩,
      max (off + nbytes) r.peak⟩)
  else do
    let tlsf ← tlsfFree r.tlsf (r.slots e.ordIdx).offset
    .ok (some { r with tlsf := tlsf })

/-- A failed allocation leaves all slots unassigned. -/
def replay : List ArenaEvent → Replay → Except Stop Plan
  | [], r => .ok ⟨r.slots, tlsfRoundUp r.peak tlsfBlockSize⟩
  | e :: events, r => do
    match ← S.replayEvent r e with
    | none => .ok arenaReset
    | some r => replay events r

def arenaTotal : ℕ :=
  ((List.range S.order.length).map fun i =>
    if S.planned i then S.arenaBoundaryNbytes i else 0).sum % 2 ^ 64

def arenaCompute : Except Stop Plan :=
  if ¬S.arenaEnabled ∨ S.order = [] then .ok arenaReset
  else if ∀ i < S.order.length, ¬S.planned i then .ok arenaReset
  else if S.arenaTotal = 0 then .ok arenaReset
  else do
    let tlsf ← tlsfInit (tlsfRoundUp (S.arenaTotal * 2 % 2 ^ 64) tlsfBlockSize)
    S.replay (arenaSortEvents S.arenaEvents) ⟨tlsf, fun _ => ⟨0, 0, false⟩, 0⟩

end Pass

end Thvm.ArenaPlan

/-!
## What the last uses of a plan record

The position recorded for a boundary is that of the last realized reader from which a
descent through the recorded nodes comes to the boundary.
-/

namespace Thvm.ArenaPlan.Pass
open Relation DepthFirst

variable (S : Pass) (stops : UOpInfo → Bool)

/-- The nodes a descent goes on to. -/
def passes (loc : ℕ) : List ℕ :=
  match S.bufferizeInfoFind loc with
  | none => []
  | some info => if stops info then [] else S.childLocs info.op loc

/-- A descent stops at the node and records its value there. -/
def StopsAt (loc : ℕ) : Prop := ∃ info, S.bufferizeInfoFind loc = some info ∧ stops info = true

/-- A descent of the reader comes to the node. -/
def Walks (reader : UOpInfo) (loc : ℕ) : Prop :=
  ∃ child ∈ S.childLocs reader.op reader.loc,
    ReflTransGen (fun a b => b ∈ S.passes stops a) child loc

open Classical in
/-- The recorded values after the nodes of `seen'` that are not in `seen` were met. -/
noncomputable def record (value : ℕ) (seen seen' : List ℕ) (use : ℕ → ℕ) (loc : ℕ) : ℕ :=
  if loc ∈ seen' ∧ loc ∉ seen ∧ S.StopsAt stops loc then max (use loc) value else use loc

variable {S stops} {value rounds loc v : ℕ} {seen mid seen' : List ℕ} {use : ℕ → ℕ} {d : Descent}
  {p info : UOpInfo}

theorem loc_of_find (h : S.bufferizeInfoFind loc = some info) : info.loc = loc := by
  have hp := List.find?_some h
  exact eq_of_beq hp

theorem child_below (h : v ∈ S.childLocs p.op loc) : v < S.heapNext := by
  obtain ⟨child, hchild, rfl⟩ := List.mem_map.mp (List.mem_eraseDups.mp h)
  obtain ⟨hmem, hkind⟩ := List.mem_filter.mp hchild
  obtain ⟨c, -, rfl⟩ := List.mem_map.mp hmem
  exact S.resolved_below _ (of_decide_eq_true hkind).1

theorem passes_below (h : v ∈ S.passes stops loc) : v < S.heapNext := by
  unfold passes at h
  split at h
  · cases h
  · split at h
    · cases h
    · exact child_below h

theorem record_refl : S.record stops value seen seen use = use := by
  funext z
  exact if_neg fun h => h.2.1 h.1

theorem record_trans (h : ∀ z ∈ seen, z ∈ mid) (h' : ∀ z ∈ mid, z ∈ seen') :
    S.record stops value mid seen' (S.record stops value seen mid use) =
      S.record stops value seen seen' use := by
  funext z
  unfold record
  by_cases hz : S.StopsAt stops z
  · by_cases hs : z ∈ seen
    · simp [hs, h z hs]
    · by_cases hm : z ∈ mid
      · simp [hs, hm, h' z hm, hz]
      · simp [hs, hm, hz]
  · simp [hz]

theorem bump_apply {z : ℕ} :
    bump value loc use z = if z = loc then max (use z) value else use z := by
  unfold bump
  by_cases hz : z = loc
  · subst hz
    rw [if_pos rfl]
    split
    · next hlt => rw [Function.update_self, max_eq_right hlt.le]
    · next hge => rw [max_eq_left (Nat.le_of_not_lt hge)]
  · rw [if_neg hz]
    split
    · exact Function.update_of_ne hz _ _
    · rfl

theorem bump_eq_record (h : loc ∉ seen) (hstop : S.StopsAt stops loc) :
    bump value loc use = S.record stops value seen (loc :: seen) use := by
  funext z
  rw [bump_apply, record]
  by_cases hz : z = loc
  · subst hz
    rw [if_pos rfl, if_pos ⟨List.mem_cons_self, h, hstop⟩]
  · rw [if_neg hz, if_neg fun hmem => hmem.2.1 ((List.mem_cons.mp hmem.1).resolve_left hz)]

theorem record_of_passing (hstop : ¬S.StopsAt stops loc) :
    S.record stops value seen (loc :: seen) use = use := by
  funext z
  refine if_neg fun hmem => ?_
  rcases List.mem_cons.mp hmem.1 with rfl | hz
  · exact hstop hmem.2.2
  · exact hmem.2.1 hz

theorem descendAll_eq {xs : List ℕ}
    (h : ∀ x ∈ xs, ∀ d : Descent, S.lastUseDescend stops value rounds x d =
      ⟨mark (S.passes stops) rounds x d.visited, S.record stops value d.visited
        (mark (S.passes stops) rounds x d.visited) d.lastUse⟩) :
    xs.foldl (fun d x => S.lastUseDescend stops value rounds x d) d =
      ⟨markAll (S.passes stops) rounds xs d.visited, S.record stops value d.visited
        (markAll (S.passes stops) rounds xs d.visited) d.lastUse⟩ := by
  induction xs generalizing d with
  | nil => simp [markAll, record_refl]
  | cons x xs ih =>
    rw [List.foldl_cons, h x List.mem_cons_self, ih fun y hy => h y (List.mem_cons_of_mem x hy)]
    congr 1
    exact record_trans (fun z hz => mem_mark_of_mem hz) fun z hz => mem_markAll_of_mem hz

/-- A descent marks as the plain walk does and records its value where it stops. -/
theorem lastUseDescend_eq (hloc : loc < S.heapNext) : S.lastUseDescend stops value rounds loc d =
    ⟨mark (S.passes stops) rounds loc d.visited, S.record stops value d.visited
      (mark (S.passes stops) rounds loc d.visited) d.lastUse⟩ := by
  induction rounds generalizing loc d with
  | zero => simp [lastUseDescend, mark, record_refl]
  | succ rounds ih =>
    unfold lastUseDescend mark
    rw [if_neg (Nat.not_le_of_lt hloc)]
    split
    · rw [record_refl]
    next hnew =>
    cases hfind : S.bufferizeInfoFind loc with
    | none =>
      have hpass : S.passes stops loc = [] := by simp [passes, hfind]
      rw [hpass, List.foldl_nil, record_of_passing]
      rintro ⟨info, hinfo, -⟩
      rw [hfind] at hinfo
      cases hinfo
    | some info =>
      by_cases hstop : stops info = true
      · have hpass : S.passes stops loc = [] := by simp [passes, hfind, hstop]
        rw [hpass, List.foldl_nil, ← bump_eq_record hnew ⟨info, hfind, hstop⟩]
        simp [hstop]
      · have hpass : S.passes stops loc = S.childLocs info.op loc := by simp [passes, hfind, hstop]
        have hnot : ¬S.StopsAt stops loc := by
          rintro ⟨info', hinfo, hstop'⟩
          obtain rfl := Option.some.inj (hfind.symm.trans hinfo)
          exact hstop hstop'
        simp only [hstop, Bool.false_eq_true, if_false]
        rw [descendAll_eq fun x hx d => ih (child_below hx), hpass]
        change Descent.mk _ _ = Descent.mk _ _
        congr 1
        have htrans := @record_trans S stops value d.visited (loc :: d.visited)
          (markAll (S.passes stops) rounds (S.childLocs info.op loc) (loc :: d.visited)) d.lastUse
          (fun z hz => List.mem_cons_of_mem loc hz) fun z hz => mem_markAll_of_mem hz
        rwa [record_of_passing hnot] at htrans

/-- What the descents of one reader record. -/
theorem le_descendFrom : v ≤ S.descendFrom stops value p use loc ↔
    v ≤ use loc ∨ v ≤ value ∧ S.Walks stops p loc ∧ S.StopsAt stops loc := by
  have hmark : loc ∈ markAll (S.passes stops) (S.heapNext + 1) (S.childLocs p.op p.loc) [] ↔
      S.Walks stops p loc :=
    @mem_markAll ℕ (S.passes stops) loc _ _ (S.heapNext + 1) (Finset.range S.heapNext)
      (fun a b hb => Finset.mem_range.mpr (passes_below hb))
      (fun x hx => Finset.mem_range.mpr (child_below hx)) (by simp)
  unfold descendFrom
  rw [descendAll_eq fun x hx d => lastUseDescend_eq (child_below hx)]
  change v ≤ S.record stops value [] _ use loc ↔ _
  unfold record
  split
  · next h => simp [hmark.mp h.1, h.2.2]
  · next h =>
    have hnot : ¬(S.Walks stops p loc ∧ S.StopsAt stops loc) := fun hw =>
      h ⟨hmark.mpr hw.1, List.not_mem_nil, hw.2⟩
    exact ⟨.inl, fun hor => hor.resolve_right fun hr => hnot hr.2⟩

/-- A fold whose steps add to a recorded value. -/
theorem le_foldl_record {α : Type} {l : List α} {f : (ℕ → ℕ) → α → ℕ → ℕ} {C : α → Prop}
    (hf : ∀ use a, v ≤ f use a loc ↔ v ≤ use loc ∨ C a) :
    v ≤ l.foldl f use loc ↔ v ≤ use loc ∨ ∃ a ∈ l, C a := by
  induction l generalizing use with
  | nil => simp
  | cons a l ih =>
    rw [List.foldl_cons, ih, hf]
    simp only [List.mem_cons, exists_eq_or_imp]
    exact or_assoc

/-- A depth is recorded for the nodes that a realized node reads. -/
theorem le_lastUse (hv : 0 < v) : v ≤ S.boundaryComputeLastUse loc ↔
    ∃ p ∈ S.nodes, p.realized = true ∧ ∃ depth, S.boundaryDepth p.loc = some depth ∧
      v ≤ depth ∧ S.Walks boundaryLastUseStops p loc ∧ S.StopsAt boundaryLastUseStops loc := by
  unfold boundaryComputeLastUse
  refine (le_foldl_record fun use p => ?_).trans (or_iff_right (Nat.not_le_of_lt hv))
  split
  · next hreal =>
    cases S.boundaryDepth p.loc with
    | none => simp [hreal]
    | some depth => simp [hreal, le_descendFrom]
  · next hreal => simp [hreal]

/-- A position is recorded for the boundaries that the realized boundary there reads. -/
theorem le_lastUsePos (hv : 0 < v) : v ≤ S.boundaryComputeLastUsePos loc ↔
    ∃ pos p, v ≤ pos ∧ S.order[pos]? = some p.loc ∧ S.bufferizeInfoFind p.loc = some p ∧
      p.realized = true ∧ S.Walks S.boundaryLastUsePosStops p loc ∧
      S.StopsAt S.boundaryLastUsePosStops loc := by
  unfold boundaryComputeLastUsePos
  refine (@le_foldl_record loc v _ _ _ _ (fun a => ∃ p, S.bufferizeInfoFind a.1 = some p ∧
    p.realized = true ∧ v ≤ a.2 ∧ S.Walks S.boundaryLastUsePosStops p loc ∧
    S.StopsAt S.boundaryLastUsePosStops loc) fun use a => ?_).trans
      ((or_iff_right (Nat.not_le_of_lt hv)).trans ?_)
  · obtain ⟨ploc, pos⟩ := a
    cases hfind : S.bufferizeInfoFind ploc with
    | none => simp [hfind]
    | some p =>
      by_cases hreal : p.realized = true
      · simp [hfind, hreal, le_descendFrom]
      · simp [hfind, hreal]
  · constructor
    · rintro ⟨⟨ploc, pos⟩, hmem, p, hfind, hreal, hle, hwalk, hstop⟩
      obtain rfl := loc_of_find hfind
      exact ⟨pos, p, hle, List.mem_zipIdx_iff_getElem?.mp hmem, hfind, hreal, hwalk, hstop⟩
    · rintro ⟨pos, p, hle, hpos, hfind, hreal, hwalk, hstop⟩
      exact ⟨(p.loc, pos), List.mem_zipIdx_iff_getElem?.mpr hpos, p, hfind, hreal, hle, hwalk,
        hstop⟩

end Thvm.ArenaPlan.Pass
