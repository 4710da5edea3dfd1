import Mathlib.Data.Nat.Bitwise
import Thvm.CopyingCollection
import Thvm.NetNodes
import Thvm.ProbeTable

/-!
# The shapes of the binders

A side table gives a binder the shape that its argument will have. All contexts and the book share
it, so that a key is a location together with the context and whether it is in the book.
-/

namespace Thvm.LamShape

open ProbeTable

variable {Shape : Type}

/-- The key of a slot: bit 63, bits 56 to 59 and bits 0 to 37 of a word. -/
structure LamShapeKey where
  book : Bool
  ctx : ℕ
  loc : ℕ
  deriving DecidableEq, Repr

def LamShapeKey.bits (key : LamShapeKey) : ℕ :=
  (if key.book then 2 ^ 63 else 0) + key.ctx * 2 ^ 56 + key.loc

def lamShapeCap : ℕ := 2 ^ 12

/-- The slots; an occupied one has a key and a shape. -/
abbrev LamShapeTable (Shape : Type) := Table ℕ LamShapeKey Shape

/-- `lam_shape_ctx_key`: four bits are kept of the context. -/
def lamShapeCtxKey (ctx raw : ℕ) : LamShapeKey := ⟨false, ctx % 16, raw⟩

def lamShapeBookKey (ctx raw : ℕ) : LamShapeKey := { lamShapeCtxKey ctx raw with book := true }

def lamShapeHash (key : LamShapeKey) : ℕ :=
  let x := key.bits % 2 ^ 64
  let x := x ^^^ (x >>> 33)
  let x := (x * 0xff51afd7ed558ccd) % 2 ^ 64
  let x := x ^^^ (x >>> 33)
  let x := (x * 0xc4ceb9fe1a85ec53) % 2 ^ 64
  let x := x ^^^ (x >>> 33)
  x % lamShapeCap

/-- The slots in the order in which they are probed. -/
def lamShapeSlots (key : LamShapeKey) : List ℕ :=
  (List.range lamShapeCap).map fun probe => (lamShapeHash key + probe) % lamShapeCap

def lamShapeReset : LamShapeTable Shape := fun _ => none

/-- `lam_shape_set_keyed`: the first slot that is free or has the key. -/
def lamShapeSetKeyed (table : LamShapeTable Shape) (key : LamShapeKey) (shape : Shape) :
    LamShapeTable Shape :=
  store table key shape (lamShapeSlots key)

/-- `lam_shape_lookup_keyed`: the search stops at the first free slot. -/
def lamShapeLookupKeyed (table : LamShapeTable Shape) (key : LamShapeKey) : Option Shape :=
  find table key (lamShapeSlots key)

def lamShapeSet (table : LamShapeTable Shape) (ctx lamLoc : ℕ) (shape : Shape) :
    LamShapeTable Shape :=
  lamShapeSetKeyed table (lamShapeCtxKey ctx lamLoc) shape

def lamShapeLookup (table : LamShapeTable Shape) (ctx lamLoc : ℕ) : Option Shape :=
  lamShapeLookupKeyed table (lamShapeCtxKey ctx lamLoc)

def lamShapeSetBook (table : LamShapeTable Shape) (ctx bookLoc : ℕ) (shape : Shape) :
    LamShapeTable Shape :=
  lamShapeSetKeyed table (lamShapeBookKey ctx bookLoc) shape

def lamShapeLookupBook (table : LamShapeTable Shape) (ctx bookLoc : ℕ) : Option Shape :=
  lamShapeLookupKeyed table (lamShapeBookKey ctx bookLoc)

/-- The occupied slots in their order. -/
def lamShapeEntries (table : LamShapeTable Shape) : List (LamShapeKey × Shape) :=
  (List.range lamShapeCap).filterMap table

/-- A table as insertions make it. -/
def Probed (table : LamShapeTable Shape) : Prop := Whole lamShapeSlots table

variable {table : LamShapeTable Shape} {key : LamShapeKey} {shape : Shape} {i : ℕ}

theorem mem_lamShapeSlots : i ∈ lamShapeSlots key ↔ i < lamShapeCap := by
  have hcap : 0 < lamShapeCap := Nat.two_pow_pos 12
  have hhash : lamShapeHash key < lamShapeCap := Nat.mod_lt _ hcap
  rw [lamShapeSlots, List.mem_map]
  constructor
  · rintro ⟨probe, -, rfl⟩
    exact Nat.mod_lt _ hcap
  · intro hi
    refine ⟨(i + lamShapeCap - lamShapeHash key) % lamShapeCap,
      List.mem_range.mpr (Nat.mod_lt _ hcap), ?_⟩
    rw [Nat.add_mod_mod, show lamShapeHash key + (i + lamShapeCap - lamShapeHash key) =
      i + lamShapeCap by omega, Nat.add_mod_right, Nat.mod_eq_of_lt hi]

theorem probed_reset : Probed (lamShapeReset : LamShapeTable Shape) := fun _ _ _ h =>
  (Option.some_ne_none _ h.symm).elim

theorem Probed.setKeyed (h : Probed table) (key : LamShapeKey) (shape : Shape) :
    Probed (lamShapeSetKeyed table key shape) :=
  h.store key shape

theorem lookupKeyed_reset (key : LamShapeKey) :
    lamShapeLookupKeyed (lamShapeReset : LamShapeTable Shape) key = none :=
  Option.eq_none_iff_forall_not_mem.mpr fun _ h => by
    obtain ⟨i, -, hi⟩ := find_mem h
    exact Option.some_ne_none _ hi.symm

/-- What is found after a shape has been noted, when a slot is free. -/
theorem Probed.lookup_setKeyed (h : Probed table) (hi : i < lamShapeCap) (hfree : table i = none)
    (key key' : LamShapeKey) (shape : Shape) :
    lamShapeLookupKeyed (lamShapeSetKeyed table key shape) key' =
      if key' = key then some shape else lamShapeLookupKeyed table key' := by
  obtain ⟨j, hj⟩ := Option.isSome_iff_exists.mp
    (home_isSome (k := key) (mem_lamShapeSlots.mpr hi) hfree)
  exact h.find_store hj key'

/-- The entries are what the lookups give. -/
theorem Probed.mem_entries (h : Probed table) :
    (key, shape) ∈ lamShapeEntries table ↔ lamShapeLookupKeyed table key = some shape := by
  rw [lamShapeLookupKeyed, h.find_iff, lamShapeEntries, List.mem_filterMap]
  constructor
  · rintro ⟨i, -, hi⟩
    exact ⟨i, hi⟩
  · rintro ⟨i, hi⟩
    exact ⟨i, List.mem_range.mpr (mem_lamShapeSlots.mp (home_some (h i key shape hi)).1), hi⟩

/-- No two slots have the same key. -/
theorem Probed.nodup_keys (h : Probed table) : ((lamShapeEntries table).map Prod.fst).Nodup := by
  rw [lamShapeEntries, List.map_filterMap]
  refine List.Nodup.filterMap (fun i j key hi hj => ?_) List.nodup_range
  obtain ⟨e, he, rfl⟩ := Option.map_eq_some_iff.mp hi
  obtain ⟨e', he', hkey⟩ := Option.map_eq_some_iff.mp hj
  have hhome := h j e'.1 e'.2 he'
  rw [hkey] at hhome
  exact Option.some.inj ((h i e.1 e.2 he).symm.trans hhome)

theorem length_entries_le (table : LamShapeTable Shape) :
    (lamShapeEntries table).length ≤ lamShapeCap :=
  (List.length_filterMap_le _ _).trans_eq List.length_range

end Thvm.LamShape

/-!
## The collection of the dynamic heap

The heap is two spaces of one size, and terms are allocated in one of them. A collection evacuates
what the roots and the side tables reach into the other space, depth first, moves the shapes of the
binders along, and swaps the spaces.
-/

namespace Thvm.Gc

open CopyingCollection (Space)
open LamShape

/-! ## The size of a node -/

/-- The cells of a tensor operation that the collector knows: a fixed number, and as many times
`each` more as the cell at `pos` says. -/
def gcUopLayout : ℕ → Net.UopLayout
  | Uop.const => ⟨1, 0, 0⟩
  | Uop.kernel | Uop.assign => ⟨2, 0, 0⟩
  | Uop.neg | Uop.recip | Uop.exp2 | Uop.log2 | Uop.sqrt | Uop.load => ⟨1, 0, 0⟩
  | Uop.copy => ⟨2, 0, 0⟩
  | Uop.add | Uop.mul | Uop.cmplt | Uop.cmpeq => ⟨2, 0, 0⟩
  | Uop.cast | Uop.bitcast | Uop.indexE | Uop.after | Uop.range | Uop.iadd | Uop.isub | Uop.imul
  | Uop.idiv | Uop.imod | Uop.ilt | Uop.iand | Uop.ior | Uop.ixor | Uop.ishr => ⟨2, 0, 0⟩
  | Uop.invalid => ⟨1, 0, 0⟩
  | Uop.iwhere | Uop.store | Uop.opt => ⟨3, 0, 0⟩
  | Uop.flip => ⟨2, 0, 0⟩
  | Uop.reduce => ⟨3, 2, 1⟩
  | Uop.reshape | Uop.expand | Uop.permute => ⟨2, 1, 1⟩
  | Uop.pad | Uop.shrink => ⟨2, 1, 2⟩
  | Uop.buffer => ⟨3, 2, 1⟩
  | _ => ⟨0, 0, 0⟩

/-- The layout of a node by its tag. -/
def gcLayout (t : Term) : Net.UopLayout :=
  match t.tag with
  | .num | .ten | .ref | .era | .any | .fvr => ⟨0, 0, 0⟩
  | .lam | .dup | .inc | .bri | .var => ⟨1, 0, 0⟩
  | .dp0 | .dp1 => if dupGradFlag t.ext then ⟨3, 0, 0⟩ else ⟨1, 0, 0⟩
  | .app | .sup | .op2 | .mat | .alo | .eql | .and | .or | .when | .ann => ⟨2, 0, 0⟩
  | .ctr => ⟨1, 0, 1⟩
  | .pri => if t.val = 0 then ⟨0, 0, 0⟩ else ⟨1, 0, 1⟩
  | .uop => gcUopLayout t.ext
  | _ => ⟨0, 0, 0⟩

/-- `gc_node_size`, in 32 bits; zero where the cell of the count is not a number. -/
def gcNodeSize (cells : ℕ → Term) (t : Term) : ℕ :=
  let layout := gcLayout t
  let count := cells (t.val + layout.pos)
  if layout.each = 0 then layout.fixed
  else if count.tag ≠ .num then 0
  else (layout.fixed + layout.each * (count.val % 2 ^ 32)) % 2 ^ 32

/-! ## Evacuation -/

/-- The cells and the place of the next copy. -/
structure Evacuation where
  cells : ℕ → Term
  alloc : ℕ

/-- The copy of `size` cells, one after the other. -/
def copyCells (src dst : ℕ) : ℕ → (ℕ → Term) → ℕ → Term
  | 0, cells => cells
  | size + 1, cells =>
    let cells := copyCells src dst size cells
    Function.update cells (dst + size) (cells (src + size))

/-- The loop over the cells of a copy. -/
def evacuateCells (evac : Term → Evacuation → Option (Term × Evacuation)) :
    List ℕ → Evacuation → Option Evacuation
  | [], st => some st
  | loc :: locs, st => do
    let (t, st) ← evac (st.cells loc) st
    evacuateCells evac locs { st with cells := Function.update st.cells loc t }

/-- `gc_evacuate_cells`. The first cell of the node is overwritten by a pointer at the copy. -/
def gcEvacuateCells (evac : Term → Evacuation → Option (Term × Evacuation)) (loc size : ℕ)
    (st : Evacuation) : Option (ℕ × Evacuation) :=
  let dst := st.alloc
  let cells := copyCells loc dst size st.cells
  let st := ⟨Function.update cells loc (termNew false .gcFwd 0 dst), dst + size⟩
  (evacuateCells evac (List.range' dst size) st).map fun st => (dst, st)

/-- The tags without a location. -/
def gcAtom (t : Term) : Bool :=
  match t.tag with
  | .num | .ten | .ref | .era | .any | .fvr | .gcFwd => true
  | .pri => t.val = 0
  | _ => false

/-- `gc_evacuate`, with a bound on the depth of the recursion. -/
def gcEvacuate (space : Space) : ℕ → Term → Evacuation → Option (Term × Evacuation)
  | 0, _, _ => none
  | n + 1, t, st =>
    if t = Term.zero then some (t, st)
    else if gcAtom t then some (t, st)
    else if t.val < space.lo ∨ space.hi ≤ t.val then some (t, st)
    else
      let cell := st.cells t.val
      if cell.tag = .gcFwd then some (termNew t.sub t.tag t.ext cell.val, st)
      else
        let size := gcNodeSize st.cells t
        if size = 0 then some (t, st)
        else (gcEvacuateCells (gcEvacuate space n) t.val size st).map fun (loc, st) =>
          (termNew t.sub t.tag t.ext loc, st)

/-- The words of an array, one after the other. A null word stays as it is. -/
def gcEvacuateAll (space : Space) (n : ℕ) : List Term → Evacuation →
    Option (List Term × Evacuation)
  | [], st => some ([], st)
  | t :: ts, st => do
    let (t, st) ← gcEvacuate space n t st
    let (ts, st) ← gcEvacuateAll space n ts st
    return (t :: ts, st)

def gcEvacuateKernels (space : Space) (n : ℕ) : List (List Term) → Evacuation →
    Option (List (List Term) × Evacuation)
  | [], st => some ([], st)
  | ts :: kernels, st => do
    let (ts, st) ← gcEvacuateAll space n ts st
    let (kernels, st) ← gcEvacuateKernels space n kernels st
    return (ts :: kernels, st)

/-- The arrays outside of the heap that hold terms. Of a kernel these are the source, the
bufferization, the roots and buffers of the cached lift, and the inputs, in this order. -/
structure SideTables where
  pinned : List Term
  handles : List Term
  defs : List Term
  stack : List Term
  kernels : List (List Term)

/-- `gc_evacuate_side_tables`. -/
def gcEvacuateSideTables (space : Space) (n : ℕ) (side : SideTables) (st : Evacuation) :
    Option (SideTables × Evacuation) := do
  let (pinned, st) ← gcEvacuateAll space n side.pinned st
  let (handles, st) ← gcEvacuateAll space n side.handles st
  let (defs, st) ← gcEvacuateAll space n side.defs st
  let (stack, st) ← gcEvacuateAll space n side.stack st
  let (kernels, st) ← gcEvacuateKernels space n side.kernels st
  return (⟨pinned, handles, defs, stack, kernels⟩, st)

/-! ## The shapes of the binders -/

variable {Shape : Type}

/-- The key of an entry after the collection, or none if its binder has not survived. Keys of the
book, of other contexts and of locations outside of the space pass through. -/
def gcRemapKey (space : Space) (ctx : ℕ) (cells : ℕ → Term) (key : LamShapeKey) :
    Option LamShapeKey :=
  if key.book then some key
  else if key.ctx ≠ ctx % 16 then some key
  else if key.loc < space.lo ∨ space.hi ≤ key.loc then some key
  else if (cells key.loc).tag = .gcFwd then some (lamShapeCtxKey ctx (cells key.loc).val)
  else none

/-- `gc_remap_lam_shape`: a snapshot of the occupied slots is put into an empty table. -/
def gcRemapLamShape (space : Space) (ctx : ℕ) (cells : ℕ → Term) (table : LamShapeTable Shape) :
    LamShapeTable Shape :=
  (lamShapeEntries table).foldl (fun table e =>
    (gcRemapKey space ctx cells e.1).elim table fun key => lamShapeSetKeyed table key e.2)
    lamShapeReset

/-! ## The collection -/

/-- The heap with its two spaces, and the side tables. -/
structure GcHeap (Shape : Type) where
  cells : ℕ → Term
  next : ℕ
  enabled : Bool
  fromSpace : Space
  toSpace : Space
  count : ℕ
  ctx : ℕ
  side : SideTables
  shapes : LamShapeTable Shape

/-- `gc_init`, where the heap has `heapCells` cells. -/
def gcInit (heapCells spaceWords : ℕ) (h : GcHeap Shape) : Except Halt (GcHeap Shape) :=
  if heapCells < 2 * spaceWords then .error .fatal
  else .ok { h with
    enabled := true
    fromSpace := ⟨0, spaceWords⟩
    toSpace := ⟨spaceWords, 2 * spaceWords⟩
    count := 0
    next := 0 }

/-- `heap_alloc`. -/
def heapAlloc (heapCells size : ℕ) (h : GcHeap Shape) : Except Halt (ℕ × GcHeap Shape) :=
  let cap := if h.enabled then h.fromSpace.hi else heapCells
  if cap < h.next + size then .error .fatal
  else .ok (h.next, { h with next := h.next + size })

/-- `gc_collect`. The depth of the recursion is bounded by `n`. -/
def gcCollect (n : ℕ) (roots : List Term) (h : GcHeap Shape) :
    Option (List Term × GcHeap Shape) :=
  if h.enabled then do
    let (roots, st) ← gcEvacuateAll h.fromSpace n roots ⟨h.cells, h.toSpace.lo⟩
    let (side, st) ← gcEvacuateSideTables h.fromSpace n h.side st
    return (roots, { h with
      cells := st.cells
      next := st.alloc
      fromSpace := h.toSpace
      toSpace := h.fromSpace
      count := h.count + 1
      side := side
      shapes := gcRemapLamShape h.fromSpace h.ctx st.cells h.shapes })
  else some (roots, h)

end Thvm.Gc
