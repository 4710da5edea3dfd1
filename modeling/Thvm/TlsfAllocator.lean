import Thvm.FixedWidth
import Mathlib.Logic.Function.Basic

/-!
# The arena allocator of `schedule/tlsf.c`

Blocks of a pool in address order, linked both ways, and the free ones among them
once more in one list for each size class. Where the source prints a message and
exits the model stops; its loops along pointers carry a bound on their rounds.
-/

namespace Thvm.Tlsf
open FixedWidth

def tlsfBlockSize : ℕ := 256

def tlsfLv2Cnt : ℕ := 32

def tlsfL2Bits : ℕ := 5

def tlsfLv1Max : ℕ := 64

def tlsfBlocksCap : ℕ := 16384

/-- `(u64)-1`, the offset that reports a failed allocation. -/
def oom : ℕ := 2 ^ 64 - 1

/-- How a function can fail to return: `exit(1)`, or a loop past its bound. -/
inductive Stop
  | exit
  | rounds
  deriving DecidableEq, Repr

/-- A block id is `none` where the source has `TLSF_INVALID`. -/
structure TlsfBlock where
  start : ℕ
  size : ℕ
  prev : Option ℕ
  next : Option ℕ
  fnext : Option ℕ
  isFree : Bool
  alive : Bool
  deriving DecidableEq, Repr

structure TlsfAllocator where
  total : ℕ
  blocks : ℕ → TlsfBlock
  nBlocks : ℕ
  freeSlots : List ℕ
  bins : ℕ → ℕ → Option ℕ
  lv1Count : ℕ → ℕ

/-- The position of the highest set bit plus one. -/
def tlsfBitLength (v : ℕ) : ℕ := if v = 0 then 0 else tlsfBitLength (v / 2) + 1

def tlsfLv1 (size : ℕ) : ℕ := tlsfBitLength size

/-- The distance in bits between the second-level bins of one first level. -/
def lv2Shift (bl : ℕ) : ℕ := if tlsfL2Bits < bl then bl - tlsfL2Bits else 0

def tlsfLv2 (size : ℕ) : ℕ :=
  if tlsfBitLength size = 0 then 0
  else (size - 2 ^ (tlsfBitLength size - 1)) / 2 ^ lv2Shift (tlsfBitLength size)

/-- `(v + align - 1) / align * align` in `u64`. -/
def tlsfRoundUp (v align : ℕ) : ℕ :=
  if align = 0 then v else (v + align - 1) % 2 ^ 64 / align * align

namespace TlsfAllocator

variable (a : TlsfAllocator)

/-- A change of one block. -/
def setBlock (id : ℕ) (b : TlsfBlock) : TlsfAllocator :=
  { a with blocks := Function.update a.blocks id b }

def setBin (l1 l2 : ℕ) (id : Option ℕ) : TlsfAllocator :=
  { a with bins := Function.update a.bins l1 (Function.update (a.bins l1) l2 id) }

def setCount (l1 n : ℕ) : TlsfAllocator := { a with lv1Count := Function.update a.lv1Count l1 n }

@[simp] theorem blocks_setBlock_self (id : ℕ) (b : TlsfBlock) : (a.setBlock id b).blocks id = b :=
  Function.update_self _ _ _

@[simp] theorem blocks_setBlock_of_ne {id i : ℕ} (b : TlsfBlock) (h : i ≠ id) :
    (a.setBlock id b).blocks i = a.blocks i := Function.update_of_ne h _ _

@[simp] theorem bins_setBlock (id : ℕ) (b : TlsfBlock) : (a.setBlock id b).bins = a.bins := rfl

@[simp] theorem lv1Count_setBlock (id : ℕ) (b : TlsfBlock) :
    (a.setBlock id b).lv1Count = a.lv1Count := rfl

@[simp] theorem blocks_setBin (l1 l2 : ℕ) (id : Option ℕ) :
    (a.setBin l1 l2 id).blocks = a.blocks := rfl

@[simp] theorem bins_setBin_self (l1 l2 : ℕ) (id : Option ℕ) :
    (a.setBin l1 l2 id).bins l1 l2 = id := by
  simp [setBin]

theorem bins_setBin_of_ne {l1 l2 m1 m2 : ℕ} (id : Option ℕ) (h : ¬ (m1 = l1 ∧ m2 = l2)) :
    (a.setBin l1 l2 id).bins m1 m2 = a.bins m1 m2 := by
  by_cases h1 : m1 = l1
  · subst h1
    simp [setBin, show m2 ≠ l2 from fun he => h ⟨rfl, he⟩]
  · simp [setBin, h1]

@[simp] theorem lv1Count_setBin (l1 l2 : ℕ) (id : Option ℕ) :
    (a.setBin l1 l2 id).lv1Count = a.lv1Count := rfl

@[simp] theorem blocks_setCount (l1 n : ℕ) : (a.setCount l1 n).blocks = a.blocks := rfl

@[simp] theorem bins_setCount (l1 n : ℕ) : (a.setCount l1 n).bins = a.bins := rfl

@[simp] theorem lv1Count_setCount_self (l1 n : ℕ) : (a.setCount l1 n).lv1Count l1 = n :=
  Function.update_self _ _ _

@[simp] theorem lv1Count_setCount_of_ne {l1 m1 : ℕ} (n : ℕ) (h : m1 ≠ l1) :
    (a.setCount l1 n).lv1Count m1 = a.lv1Count m1 := Function.update_of_ne h _ _

end TlsfAllocator

/-- The slot that `tlsf_block_new` hands out. -/
def freshSlot (a : TlsfAllocator) : Except Stop (TlsfAllocator × ℕ) :=
  match a.freeSlots with
  | id :: rest => .ok ({ a with freeSlots := rest }, id)
  | [] =>
    if tlsfBlocksCap ≤ a.nBlocks then .error .exit
    else .ok ({ a with nBlocks := a.nBlocks + 1 }, a.nBlocks)

def tlsfBlockNew (a : TlsfAllocator) : Except Stop (TlsfAllocator × ℕ) := do
  let (a, id) ← freshSlot a
  .ok (a.setBlock id ⟨0, 0, none, none, none, false, true⟩, id)

def tlsfBlockFreeSlot (a : TlsfAllocator) (id : ℕ) : TlsfAllocator :=
  { a.setBlock id { a.blocks id with alive := false } with freeSlots := id :: a.freeSlots }

def tlsfBinInsert (a : TlsfAllocator) (bid : ℕ) : Except Stop TlsfAllocator :=
  let b := a.blocks bid
  let l1 := tlsfLv1 b.size
  let l2 := tlsfLv2 b.size
  if tlsfLv1Max ≤ l1 then .error .exit
  else .ok (((a.setBlock bid { b with fnext := a.bins l1 l2, isFree := true }).setBin l1 l2
    (some bid)).setCount l1 (a.lv1Count l1 + 1))

/-- Where the walk of `tlsf_bin_remove` stands: at the head of the bin, or at the
link of a block. -/
inductive Cursor
  | head
  | link (id : ℕ)
  deriving DecidableEq, Repr

/-- `*cur`. -/
def Cursor.read (a : TlsfAllocator) (l1 l2 : ℕ) : Cursor → Option ℕ
  | .head => a.bins l1 l2
  | .link id => (a.blocks id).fnext

/-- `*cur = id`. -/
def Cursor.write (a : TlsfAllocator) (l1 l2 : ℕ) (next : Option ℕ) : Cursor → TlsfAllocator
  | .head => a.setBin l1 l2 next
  | .link id => a.setBlock id { a.blocks id with fnext := next }

/-- What `tlsf_bin_remove` does once `*cur` is the block. -/
def unlink (a : TlsfAllocator) (l1 l2 bid : ℕ) (cur : Cursor) : TlsfAllocator :=
  let a := cur.write a l1 l2 (a.blocks bid).fnext
  (a.setBlock bid { a.blocks bid with fnext := none, isFree := false }).setCount l1
    (a.lv1Count l1 - 1)

/-- The loop of `tlsf_bin_remove`. -/
def binWalk (a : TlsfAllocator) (l1 l2 bid : ℕ) : ℕ → Cursor → Except Stop TlsfAllocator
  | 0, _ => .error .rounds
  | rounds + 1, cur =>
    match cur.read a l1 l2 with
    | none => .error .exit
    | some id => if id = bid then .ok (unlink a l1 l2 bid cur) else binWalk a l1 l2 bid rounds (.link id)

def tlsfBinRemove (a : TlsfAllocator) (bid : ℕ) : Except Stop TlsfAllocator :=
  binWalk a (tlsfLv1 (a.blocks bid).size) (tlsfLv2 (a.blocks bid).size) bid (a.nBlocks + 1) .head

/-- `if (id != TLSF_INVALID) a->blocks[id].prev = p`. -/
def setPrev (a : TlsfAllocator) (id : Option ℕ) (p : ℕ) : TlsfAllocator :=
  match id with
  | none => a
  | some id => a.setBlock id { a.blocks id with prev := some p }

def tlsfSplit (a : TlsfAllocator) (bid newSize : ℕ) : Except Stop TlsfAllocator := do
  let oldSize := (a.blocks bid).size
  let oldNext := (a.blocks bid).next
  let a ← tlsfBinRemove a bid
  let a ← tlsfBinInsert (a.setBlock bid { a.blocks bid with size := newSize }) bid
  let (a, tail) ← tlsfBlockNew a
  let a ← tlsfBinInsert (a.setBlock tail { a.blocks tail with
    start := add64 (a.blocks bid).start newSize
    size := sub64 oldSize newSize
    prev := some bid
    next := oldNext }) tail
  let a := setPrev a oldNext tail
  .ok (a.setBlock bid { a.blocks bid with next := some tail })

/-- One round of the loop of `tlsf_merge_right`: block `nb` goes up in `bid`. -/
def absorb (a : TlsfAllocator) (bid nb : ℕ) : Except Stop TlsfAllocator := do
  let grown := add64 (a.blocks bid).size (a.blocks nb).size
  let nbNext := (a.blocks nb).next
  let a ← tlsfBinRemove a bid
  let a ← tlsfBinRemove a nb
  let a := a.setBlock bid { a.blocks bid with size := grown, next := nbNext }
  let a := setPrev a nbNext bid
  tlsfBinInsert (tlsfBlockFreeSlot a nb) bid

/-- `id != TLSF_INVALID && a->blocks[id].is_free`, with the block it is about. -/
def freeBlock (a : TlsfAllocator) (id : Option ℕ) : Option ℕ :=
  id.filter fun id => (a.blocks id).isFree

def mergeRightLoop (bid : ℕ) : ℕ → TlsfAllocator → Except Stop TlsfAllocator
  | 0, _ => .error .rounds
  | rounds + 1, a =>
    match freeBlock a (a.blocks bid).next with
    | none => .ok a
    | some nb => do
      let a ← absorb a bid nb
      mergeRightLoop bid rounds a

def tlsfMergeRight (a : TlsfAllocator) (bid : ℕ) : Except Stop TlsfAllocator :=
  if (a.blocks bid).isFree then mergeRightLoop bid (a.nBlocks + 1) a else .ok a

/-- The walk to the left of `tlsf_merge_block`. -/
def leftmostFree (a : TlsfAllocator) : ℕ → ℕ → Except Stop ℕ
  | 0, _ => .error .rounds
  | rounds + 1, bid =>
    match freeBlock a (a.blocks bid).prev with
    | none => .ok bid
    | some left => leftmostFree a rounds left

def tlsfMergeBlock (a : TlsfAllocator) (bid : ℕ) : Except Stop TlsfAllocator := do
  let bid ← leftmostFree a (a.nBlocks + 1) bid
  tlsfMergeRight a bid

/-- The allocator as `memset` leaves it. -/
def blank (total : ℕ) : TlsfAllocator where
  total := total
  blocks := fun _ => ⟨0, 0, some 0, some 0, some 0, false, false⟩
  nBlocks := 0
  freeSlots := []
  bins := fun _ _ => none
  lv1Count := fun _ => 0

def tlsfInit (total : ℕ) : Except Stop TlsfAllocator :=
  if total = 0 then .ok (blank total)
  else do
    let (a, root) ← tlsfBlockNew (blank total)
    tlsfBinInsert (a.setBlock root { a.blocks root with
      start := 0, size := total, prev := none, next := none }) root

def tlsfFindByStart (a : TlsfAllocator) (start : ℕ) : Option ℕ :=
  (List.range a.nBlocks).find? fun id => (a.blocks id).alive && (a.blocks id).start == start

/-- The request after the minimum of one block. -/
def atLeastBlock (reqSize : ℕ) : ℕ := if reqSize < tlsfBlockSize then tlsfBlockSize else reqSize

/-- The request rounded up to the next bucket, so that any entry there can fit. -/
def rounded (reqSize : ℕ) : ℕ :=
  tlsfRoundUp (atLeastBlock reqSize) (2 ^ lv2Shift (tlsfBitLength (atLeastBlock reqSize)))

/-- The head of the first non-empty bin from a size class on. -/
def firstFit (a : TlsfAllocator) (size : ℕ) : Option ℕ :=
  (List.range' (tlsfLv1 size) (tlsfLv1Max - tlsfLv1 size)).findSome? fun l1 =>
    if a.lv1Count l1 = 0 then none
    else
      let low := if l1 = tlsfLv1 size then tlsfLv2 size else 0
      (List.range' low (tlsfLv2Cnt - low)).findSome? fun l2 => a.bins l1 l2

def tlsfAlloc (a : TlsfAllocator) (reqSize : ℕ) : Except Stop (TlsfAllocator × ℕ) :=
  match firstFit a (rounded reqSize) with
  | none => .ok (a, oom)
  | some bid => do
    let a ←
      if atLeastBlock reqSize < (a.blocks bid).size then tlsfSplit a bid (atLeastBlock reqSize)
      else .ok a
    let a ← tlsfBinRemove a bid
    .ok (a, (a.blocks bid).start)

def tlsfFree (a : TlsfAllocator) (start : ℕ) : Except Stop TlsfAllocator :=
  match tlsfFindByStart a start with
  | none => .error .exit
  | some bid =>
    if (a.blocks bid).isFree then .error .exit
    else do
      let a ← tlsfBinInsert a bid
      tlsfMergeBlock a bid

end Thvm.Tlsf
