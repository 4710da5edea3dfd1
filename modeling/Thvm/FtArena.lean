import Thvm.ThreadedTrees

/-!
# The arenas of flat terms

Persistent cells come from blocks that stay where they are and are handed out through a
free list. Scratch cells come from one region that is filled from below; a full region
grows by `realloc`, which may leave it where it is or move it.
-/

namespace Thvm.Ft

open ThreadedTrees

/-- The address of a cell: in a persistent block, or in a scratch region. A region gets a new
number when it is moved. -/
inductive Addr where
  | slab (block off : ℕ)
  | scratch (region off : ℕ)
  deriving DecidableEq, Repr

def Addr.isScratch : Addr → Bool
  | .slab _ _ => false
  | .scratch _ _ => true

/-- The scalars of an `AtpFtCell`; of its flags the one for ground terms. -/
structure CellData where
  sym : ℕ
  arity : ℕ
  ground : Bool
  deriving DecidableEq, Repr

abbrev FtCell := TreeCell Addr CellData

abbrev FtMemory := Memory Addr CellData

/-- `ATPFT_CELLS_PER_BLOCK`. -/
def cellsPerBlock : ℕ := 30000

/-- The cells of `ATPFT_SCRATCH_INIT_BYTES`. -/
def scratchInitCells : ℕ := 256 * 1024 / 24

/-- The scratch region: its number, its size in cells, the cells handed out, and how often it
has grown. No region has been taken yet when `cap` is 0. -/
structure Bump where
  region : ℕ
  cap : ℕ
  top : ℕ
  grows : ℕ
  deriving DecidableEq, Repr

/-- `AtpFt`; an address without a cell is not to be read. -/
structure AtpFt where
  mem : FtMemory
  free : List Addr
  nBlocks : ℕ
  bump : Bump

def ftInit : AtpFt := ⟨fun _ => none, [], 0, ⟨0, 0, 0, 0⟩⟩

/-- A cell as it is handed out. -/
def blank (p : Addr) : FtCell := ⟨none, p, ⟨0, 0, false⟩⟩

namespace AtpFt

def put (a : AtpFt) (p : Addr) (c : FtCell) : AtpFt :=
  { a with mem := fun q => if q = p then some c else a.mem q }

/-- The cell at the top of the scratch region is handed out. -/
def bumpTop (a : AtpFt) : Addr × AtpFt :=
  let p := Addr.scratch a.bump.region a.bump.top
  (p, { a with bump := { a.bump with top := a.bump.top + 1 } }.put p (blank p))

/-- `ft_alloc_persistent`. A new block is threaded onto the free list from its first cell on. -/
def allocPersistent (a : AtpFt) : Addr × AtpFt :=
  match a.free with
  | p :: free => (p, { a with free := free }.put p (blank p))
  | [] =>
    let p := Addr.slab a.nBlocks 0
    let free := (List.range' 1 (cellsPerBlock - 1)).map (Addr.slab a.nBlocks)
    (p, { a with free := free, nBlocks := a.nBlocks + 1 }.put p (blank p))

end AtpFt

/-- The loop `while (new_cells < want_cells) new_cells *= 2u`; after 32 doublings a `u32` is 0
and the loop goes on forever. -/
def growCells : ℕ → ℕ → ℕ → Option ℕ
  | 0, _, _ => none
  | n + 1, newCells, wantCells =>
    if newCells < wantCells then growCells n (newCells * 2 % 2 ^ 32) wantCells else some newCells

/-- The cells of the region after `ft_scratch_grow`. -/
def Bump.newCells (b : Bump) (wantCells : ℕ) : Option ℕ :=
  let curCells := b.cap % 2 ^ 32
  growCells 33 (if curCells ≠ 0 then curCells else scratchInitCells) wantCells

/-- The cells that `ft_alloc_scratch` asks for when the region is full. -/
def Bump.want (b : Bump) : ℕ :=
  if b.cap = 0 then scratchInitCells else (b.cap % 2 ^ 32 + 1) % 2 ^ 32

section

-- whether `realloc` moves the region at its growth of this number
variable (moves : ℕ → Bool)

namespace AtpFt

/-- `ft_scratch_grow`. The cells of a moved region are copied as they are, links included, and
its old addresses are not to be read any more. -/
def scratchGrow (a : AtpFt) (wantCells : ℕ) : Option AtpFt := do
  let b := a.bump
  let newCells ← b.newCells wantCells
  if moves b.grows then
    let region := b.grows + 1
    some { a with
      mem := fun
        | .scratch r off =>
          if r = region then if off < b.cap then a.mem (.scratch b.region off) else none
          else if r = b.region then none else a.mem (.scratch r off)
        | p => a.mem p
      bump := ⟨region, newCells, b.top, b.grows + 1⟩ }
  else some { a with bump := ⟨b.region, newCells, b.top, b.grows + 1⟩ }

/-- `ft_alloc_scratch`. -/
def allocScratch (a : AtpFt) : Option (Addr × AtpFt) := do
  let a ← if a.bump.top = a.bump.cap then a.scratchGrow moves a.bump.want else some a
  some a.bumpTop

/-- `ft_alloc_one` without raw allocation. -/
def allocOne (a : AtpFt) (scratch : Bool) : Option (Addr × AtpFt) :=
  if scratch then a.allocScratch moves else some a.allocPersistent

/-- `ft_scratch_reset`. -/
def scratchReset (a : AtpFt) : AtpFt := { a with bump := { a.bump with top := 0 } }

end AtpFt

/-- The region stays in place over the next `n` cells, or holds no cell when it is moved. -/
def Bump.Settled : ℕ → Bump → Prop
  | 0, _ => True
  | n + 1, b =>
    if b.top = b.cap then
      (b.top = 0 ∨ moves b.grows = false) ∧
        ∀ newCells, b.newCells b.want = some newCells →
          Settled n ⟨if moves b.grows then b.grows + 1 else b.region, newCells, b.top + 1,
            b.grows + 1⟩
    else Settled n { b with top := b.top + 1 }

end

/-- The cells in use have been handed out and are not free. -/
structure InUse (a : AtpFt) (U : Set Addr) : Prop where
  nodup : a.free.Nodup
  free : ∀ p ∈ a.free, p ∉ U ∧ ∃ block off, p = .slab block off ∧ block < a.nBlocks
  slab : ∀ block off, Addr.slab block off ∈ U → block < a.nBlocks
  scratch : ∀ region off, Addr.scratch region off ∈ U →
    region = a.bump.region ∧ off < a.bump.top
  region : a.bump.region ≤ a.bump.grows

variable {moves : ℕ → Bool} {a a' : AtpFt} {U V : Set Addr} {p q : Addr} {c : FtCell} {n : ℕ}

theorem AtpFt.put_self (a : AtpFt) (p : Addr) (c : FtCell) : (a.put p c).mem p = some c :=
  if_pos rfl

theorem AtpFt.put_of_ne (h : q ≠ p) : (a.put p c).mem q = a.mem q := if_neg h

theorem InUse.of_eq (h : InUse a U) (hfree : a'.free = a.free) (hblocks : a'.nBlocks = a.nBlocks)
    (hbump : a'.bump = a.bump) : InUse a' U := by
  obtain ⟨hnodup, hout, hslab, hscratch, hregion⟩ := h
  rw [← hfree] at hnodup hout
  rw [← hblocks] at hout hslab
  rw [← hbump] at hscratch hregion
  exact ⟨hnodup, hout, hslab, hscratch, hregion⟩

theorem InUse.subset (h : InUse a U) (hsub : V ⊆ U) : InUse a V where
  nodup := h.nodup
  free p hp := ⟨fun hV => (h.free p hp).1 (hsub hV), (h.free p hp).2⟩
  slab block off hV := h.slab block off (hsub hV)
  scratch region off hV := h.scratch region off (hsub hV)
  region := h.region

theorem inUse_init : InUse ftInit ∅ where
  nodup := List.nodup_nil
  free := fun _ hp => by cases hp
  slab := fun _ _ hp => by cases hp
  scratch := fun _ _ hp => by cases hp
  region := le_rfl

/-- What handing out a cell does. -/
structure Alloc (scratch : Bool) (a : AtpFt) (U : Set Addr) (p : Addr) (a' : AtpFt) : Prop where
  kind : p.isScratch = scratch
  fresh : p ∉ U
  inUse : InUse a' (insert p U)
  cell : a'.mem p = some (blank p)
  kept : ∀ q ∈ U, a'.mem q = a.mem q

theorem allocPersistent_spec (h : InUse a U) (hrun : a.allocPersistent = (p, a')) :
    Alloc false a U p a' ∧ a'.bump = a.bump := by
  unfold AtpFt.allocPersistent at hrun
  split at hrun
  · rename_i free hfree
    cases hrun
    obtain ⟨hpfree, hnodup⟩ := List.nodup_cons.mp (hfree ▸ h.nodup)
    have hall : ∀ q ∈ p :: free, q ∉ U ∧ ∃ block off, q = .slab block off ∧ block < a.nBlocks :=
      hfree ▸ h.free
    obtain ⟨hpU, block, off, rfl, hblock⟩ := hall p List.mem_cons_self
    refine ⟨⟨rfl, hpU, ⟨hnodup, ?_, ?_, ?_, h.region⟩, AtpFt.put_self _ _ _, ?_⟩, rfl⟩
    · intro q hq
      obtain ⟨hqU, hslab⟩ := hall q (List.mem_cons_of_mem _ hq)
      refine ⟨?_, hslab⟩
      rintro (rfl | hmem)
      · exact hpfree hq
      · exact hqU hmem
    · rintro b o (hp | hU)
      · cases hp
        exact hblock
      · exact h.slab b o hU
    · rintro r o (hp | hU)
      · cases hp
      · exact h.scratch r o hU
    · rintro q hq
      refine AtpFt.put_of_ne ?_
      rintro rfl
      exact hpU hq
  · -- a new block
    cases hrun
    have hnew : ∀ off, Addr.slab a.nBlocks off ∉ U := fun off hU =>
      Nat.lt_irrefl _ (h.slab _ off hU)
    refine ⟨⟨rfl, hnew 0, ⟨?_, ?_, ?_, ?_, h.region⟩, AtpFt.put_self _ _ _, ?_⟩, rfl⟩
    · refine List.Nodup.map ?_ (List.nodup_range' (n := cellsPerBlock - 1))
      intro x y hxy
      cases hxy
      rfl
    · intro q hq
      obtain ⟨off, hoff, rfl⟩ := List.mem_map.mp hq
      refine ⟨?_, _, off, rfl, Nat.lt_succ_self _⟩
      rintro (hp | hU)
      · cases hp
        exact absurd (List.mem_range'_1.mp hoff).1 (by decide)
      · exact hnew off hU
    · rintro b o (hp | hU)
      · cases hp
        exact Nat.lt_succ_self _
      · exact Nat.lt_succ_of_lt (h.slab b o hU)
    · rintro r o (hp | hU)
      · cases hp
      · exact h.scratch r o hU
    · rintro q hq
      refine AtpFt.put_of_ne ?_
      rintro rfl
      exact hnew 0 hq

/-- A growth that does not move used cells keeps them. -/
theorem scratchGrow_spec (h : InUse a U) (hstay : a.bump.top = 0 ∨ moves a.bump.grows = false)
    {want : ℕ} (hrun : a.scratchGrow moves want = some a') :
    ∃ newCells, a.bump.newCells want = some newCells ∧
      a'.bump = ⟨if moves a.bump.grows then a.bump.grows + 1 else a.bump.region, newCells,
        a.bump.top, a.bump.grows + 1⟩ ∧
      InUse a' U ∧ ∀ q ∈ U, a'.mem q = a.mem q := by
  unfold AtpFt.scratchGrow at hrun
  rw [Option.bind_eq_bind, Option.bind_eq_some_iff] at hrun
  obtain ⟨newCells, hnew, hrun⟩ := hrun
  refine ⟨newCells, hnew, ?_⟩
  by_cases hm : moves a.bump.grows = true
  · rw [if_pos hm] at hrun
    cases hrun
    have hempty : ∀ r o, Addr.scratch r o ∉ U := by
      intro r o hU
      have := (h.scratch r o hU).2
      rcases hstay with h0 | h0
      · omega
      · rw [hm] at h0
        cases h0
    refine ⟨by rw [if_pos hm], ⟨h.nodup, h.free, h.slab, ?_, le_rfl⟩, ?_⟩
    · intro r o hU
      exact absurd hU (hempty r o)
    · intro q hq
      cases q with
      | slab b o => rfl
      | scratch r o => exact absurd hq (hempty r o)
  · rw [if_neg hm] at hrun
    cases hrun
    exact ⟨by rw [if_neg hm], ⟨h.nodup, h.free, h.slab, h.scratch, Nat.le_succ_of_le h.region⟩,
      fun _ _ => rfl⟩

theorem bumpTop_spec (h : InUse a U) : Alloc true a U a.bumpTop.1 a.bumpTop.2 := by
  have hfresh : Addr.scratch a.bump.region a.bump.top ∉ U := fun hU =>
    Nat.lt_irrefl _ (h.scratch _ _ hU).2
  refine ⟨rfl, hfresh, ⟨h.nodup, ?_, ?_, ?_, h.region⟩, AtpFt.put_self _ _ _, ?_⟩
  · intro q hq
    obtain ⟨hqU, b, o, rfl, hb⟩ := h.free q hq
    refine ⟨?_, b, o, rfl, hb⟩
    rintro (hp | hU)
    · cases hp
    · exact hqU hU
  · rintro b o (hp | hU)
    · cases hp
    · exact h.slab b o hU
  · rintro r o (hp | hU)
    · cases hp
      exact ⟨rfl, Nat.lt_succ_self _⟩
    · exact ⟨(h.scratch r o hU).1, Nat.lt_succ_of_lt (h.scratch r o hU).2⟩
  · intro q hq
    refine AtpFt.put_of_ne ?_
    rintro rfl
    exact hfresh hq

theorem allocScratch_spec (h : InUse a U) (hset : a.bump.Settled moves (n + 1))
    (hrun : a.allocScratch moves = some (p, a')) :
    Alloc true a U p a' ∧ a'.bump.Settled moves n := by
  unfold AtpFt.allocScratch at hrun
  rw [Bump.Settled] at hset
  by_cases hfull : a.bump.top = a.bump.cap
  · rw [if_pos hfull, Option.bind_eq_bind, Option.bind_eq_some_iff] at hrun
    rw [if_pos hfull] at hset
    obtain ⟨b, hgrow, hrun⟩ := hrun
    cases hrun
    obtain ⟨newCells, hnew, hbump, hin, hkept⟩ := scratchGrow_spec h hset.1 hgrow
    have hcell := bumpTop_spec hin
    refine ⟨⟨rfl, hcell.fresh, hcell.inUse, hcell.cell, fun q hq => ?_⟩, ?_⟩
    · exact (hcell.kept q hq).trans (hkept q hq)
    · have hrest := hset.2 newCells hnew
      change Bump.Settled moves n { b.bump with top := b.bump.top + 1 }
      rw [hbump]
      exact hrest
  · rw [if_neg hfull, Option.bind_eq_bind, Option.bind_some] at hrun
    rw [if_neg hfull] at hset
    cases hrun
    exact ⟨bumpTop_spec h, hset⟩

/-- The next `n` cells of the arena do not move used ones. -/
def AtpFt.Settled (moves : ℕ → Bool) (a : AtpFt) (scratch : Bool) (n : ℕ) : Prop :=
  scratch = true → a.bump.Settled moves n

theorem allocOne_spec {scratch : Bool} (h : InUse a U) (hset : a.Settled moves scratch (n + 1))
    (hrun : a.allocOne moves scratch = some (p, a')) :
    Alloc scratch a U p a' ∧ a'.Settled moves scratch n := by
  cases scratch with
  | false =>
    have hrun' : a.allocPersistent = (p, a') := Option.some.inj hrun
    exact ⟨(allocPersistent_spec h hrun').1, fun hf => by cases hf⟩
  | true =>
    obtain ⟨halloc, hrest⟩ := allocScratch_spec h (hset rfl) hrun
    exact ⟨halloc, fun _ => hrest⟩

end Thvm.Ft
