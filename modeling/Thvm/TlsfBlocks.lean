import Thvm.TlsfBins
import Thvm.IntervalTiling

/-!
# Blocks in address order

The blocks of the pool that are in use tile the arena and are linked in address
order. A block is cut in two and absorbed by its left neighbour; both keep the
tiling, the links and the bins.
-/

namespace Thvm.Tlsf
open LinkedLists IntervalTiling FixedWidth

namespace TlsfAllocator

def start (a : TlsfAllocator) (i : ℕ) : ℕ := (a.blocks i).start

def next (a : TlsfAllocator) (i : ℕ) : Option ℕ := (a.blocks i).next

def prev (a : TlsfAllocator) (i : ℕ) : Option ℕ := (a.blocks i).prev

def alive (a : TlsfAllocator) (i : ℕ) : Bool := (a.blocks i).alive

end TlsfAllocator

/-- The slots that wait to be used again. -/
structure Slots (a : TlsfAllocator) : Prop where
  nodup : a.freeSlots.Nodup
  dead : ∀ i ∈ a.freeSlots, i < a.nBlocks ∧ a.alive i = false

/-- The blocks in use, in address order. -/
structure Layout (a : TlsfAllocator) (order : List ℕ) : Prop where
  nodup : order.Nodup
  mem : ∀ i, i ∈ order ↔ i < a.nBlocks ∧ a.alive i = true
  tiles : Tiles a.start a.size 0 order a.total
  links : Doubly a.next a.prev none order
  slots : Slots a

/-- The state between two operations on blocks. -/
structure Sound (a : TlsfAllocator) (order : List ℕ) : Prop where
  layout : Layout a order
  binned : ∃ chains, Binned a chains
  free : ∀ i, a.isFree i = true → i ∈ order

/-- Every slot of the pool is taken. -/
def Exhausted (a : TlsfAllocator) : Prop := a.freeSlots = [] ∧ tlsfBlocksCap ≤ a.nBlocks

variable {a a' : TlsfAllocator} {order : List ℕ} {bid : ℕ}

theorem SameBlocks.start (h : SameBlocks a a') : a'.start = a.start :=
  funext fun i => (h.blocks i).1

theorem SameBlocks.size (h : SameBlocks a a') : a'.size = a.size :=
  funext fun i => (h.blocks i).2.1

theorem SameBlocks.prev (h : SameBlocks a a') : a'.prev = a.prev :=
  funext fun i => (h.blocks i).2.2.1

theorem SameBlocks.next (h : SameBlocks a a') : a'.next = a.next :=
  funext fun i => (h.blocks i).2.2.2.1

theorem SameBlocks.alive (h : SameBlocks a a') : a'.alive = a.alive :=
  funext fun i => (h.blocks i).2.2.2.2

theorem Slots.same (h : Slots a) (hs : SameBlocks a a') : Slots a' where
  nodup := hs.freeSlots ▸ h.nodup
  dead := fun i hi => by
    rw [hs.freeSlots] at hi
    rw [hs.nBlocks, hs.alive]
    exact h.dead i hi

theorem Layout.same (h : Layout a order) (hs : SameBlocks a a') : Layout a' order where
  nodup := h.nodup
  mem := fun i => by rw [hs.nBlocks, hs.alive, h.mem]
  tiles := by
    rw [hs.start, hs.size, hs.total]
    exact h.tiles
  links := by
    rw [hs.next, hs.prev]
    exact h.links
  slots := h.slots.same hs

theorem Sound.lt (h : Sound a order) {i : ℕ} (hi : a.isFree i = true) : i < a.nBlocks :=
  ((h.layout.mem i).mp (h.free i hi)).1

/-- A block goes into its bin. -/
theorem Sound.insert (h : Sound a order) (hmem : bid ∈ order) (hused : a.isFree bid = false)
    (hbound : tlsfLv1 (a.size bid) < tlsfLv1Max) :
    ∃ a', tlsfBinInsert a bid = .ok a' ∧ Sound a' order ∧ Rebinned a a' bid true := by
  obtain ⟨chains, hbinned⟩ := h.binned
  obtain ⟨a', hok, hre⟩ := binInsert_spec hbinned hused hbound
  refine ⟨a', hok, ⟨h.layout.same hre.same, hre.binned, fun i hi => ?_⟩, hre⟩
  by_cases hib : i = bid
  · exact hib ▸ hmem
  · exact h.free i (hre.others i hib ▸ hi)

/-- A block leaves its bin. -/
theorem Sound.remove (h : Sound a order) (hfree : a.isFree bid = true) :
    ∃ a', tlsfBinRemove a bid = .ok a' ∧ Sound a' order ∧ Rebinned a a' bid false := by
  obtain ⟨chains, hbinned⟩ := h.binned
  obtain ⟨a', hok, hre⟩ := binRemove_spec hbinned hfree fun i hi => h.lt hi
  refine ⟨a', hok, ⟨h.layout.same hre.same, hre.binned, fun i hi => ?_⟩, hre⟩
  by_cases hib : i = bid
  · subst hib
    exact absurd hi (by simp [hre.flag])
  · exact h.free i (hre.others i hib ▸ hi)

/-- What a new slot of the pool comes to. -/
structure Fresh (a a' : TlsfAllocator) (id : ℕ) : Prop where
  total : a'.total = a.total
  bins : a'.bins = a.bins
  lv1Count : a'.lv1Count = a.lv1Count
  blocks : ∀ i, a'.blocks i = if i = id then ⟨0, 0, none, none, none, false, true⟩ else a.blocks i
  out : ¬ (id < a.nBlocks ∧ a.alive id = true)
  slots : Slots a'
  nBlocks : ∀ i, i < a'.nBlocks ∧ (i = id ∨ a.alive i = true) ↔
    i = id ∨ i < a.nBlocks ∧ a.alive i = true

theorem blockNew_spec (h : Slots a) :
    (∃ a' id, tlsfBlockNew a = .ok (a', id) ∧ Fresh a a' id) ∨
      Exhausted a ∧ tlsfBlockNew a = .error .exit := by
  cases hslots : a.freeSlots with
  | cons id rest =>
    have hnodup := h.nodup
    have hdead := h.dead
    rw [hslots] at hnodup hdead
    obtain ⟨hid, hidDead⟩ := hdead id List.mem_cons_self
    have hok : tlsfBlockNew a = .ok (({ a with freeSlots := rest } : TlsfAllocator).setBlock id
        ⟨0, 0, none, none, none, false, true⟩, id) := by
      simp only [tlsfBlockNew, freshSlot, hslots]
      rfl
    refine .inl ⟨_, id, hok, rfl, rfl, rfl, fun i => Function.update_apply _ _ _ _, ?_,
      ⟨(List.nodup_cons.mp hnodup).2, fun i hi => ?_⟩, fun i => ?_⟩
    · simp [hidDead]
    · obtain ⟨hlt, hdead'⟩ := hdead i (List.mem_cons_of_mem id hi)
      have hne : i ≠ id := fun he => (List.nodup_cons.mp hnodup).1 (he ▸ hi)
      exact ⟨hlt, by simpa [TlsfAllocator.alive, hne] using hdead'⟩
    · constructor
      · rintro ⟨hlt, rfl | halive⟩
        · exact .inl rfl
        · exact .inr ⟨hlt, halive⟩
      · rintro (rfl | ⟨hlt, halive⟩)
        · exact ⟨hid, .inl rfl⟩
        · exact ⟨hlt, .inr halive⟩
  | nil =>
    by_cases hcap : tlsfBlocksCap ≤ a.nBlocks
    · refine .inr ⟨⟨hslots, hcap⟩, ?_⟩
      simp only [tlsfBlockNew, freshSlot, hslots, if_pos hcap]
      rfl
    · have hok : tlsfBlockNew a = .ok (({ a with nBlocks := a.nBlocks + 1 } :
          TlsfAllocator).setBlock a.nBlocks ⟨0, 0, none, none, none, false, true⟩, a.nBlocks) := by
        simp only [tlsfBlockNew, freshSlot, hslots, if_neg hcap]
        rfl
      refine .inl ⟨_, a.nBlocks, hok, rfl, rfl, rfl, fun i => Function.update_apply _ _ _ _, ?_, ?_,
        fun i => ?_⟩
      · simp
      · have hempty : ∀ i, i ∉ a.freeSlots := by simp [hslots]
        exact ⟨h.nodup, fun i hi => absurd hi (hempty i)⟩
      · change i < a.nBlocks + 1 ∧ _ ↔ _
        constructor
        · rintro ⟨hlt, rfl | halive⟩
          · exact .inl rfl
          · by_cases hi : i = a.nBlocks
            · exact .inl hi
            · exact .inr ⟨by omega, halive⟩
        · rintro (rfl | ⟨hlt, halive⟩)
          · exact ⟨Nat.lt_succ_self _, .inl rfl⟩
          · exact ⟨by omega, .inr halive⟩

@[simp] theorem blocks_setPrev (id : Option ℕ) (p i : ℕ) :
    (setPrev a id p).blocks i =
      { a.blocks i with prev := if id = some i then some p else (a.blocks i).prev } := by
  cases id with
  | none => simp [setPrev]
  | some id =>
    by_cases hi : i = id
    · subst hi
      simp [setPrev]
    · simp [setPrev, hi, Ne.symm hi]

theorem setPrev_rest (id : Option ℕ) (p : ℕ) : (setPrev a id p).total = a.total ∧
    (setPrev a id p).nBlocks = a.nBlocks ∧ (setPrev a id p).freeSlots = a.freeSlots ∧
    (setPrev a id p).bins = a.bins ∧ (setPrev a id p).lv1Count = a.lv1Count := by
  cases id <;> exact ⟨rfl, rfl, rfl, rfl, rfl⟩

/-- What cutting `bid` in two comes to: `tail` is its upper part. -/
structure Cut (a a' : TlsfAllocator) (bid tail newSize : ℕ) : Prop where
  total : a'.total = a.total
  start : ∀ i, a'.start i = if i = tail then a.start bid + newSize else a.start i
  size : ∀ i, a'.size i = if i = bid then newSize
    else if i = tail then a.size bid - newSize else a.size i
  prev : ∀ i, a'.prev i = if a.next bid = some i then some tail
    else if i = tail then some bid else a.prev i
  next : ∀ i, a'.next i = if i = bid then some tail else if i = tail then a.next bid else a.next i
  isFree : ∀ i, a'.isFree i = if i = bid ∨ i = tail then true else a.isFree i
  out : ¬ (tail < a.nBlocks ∧ a.alive tail = true)
  mem : ∀ i, i < a'.nBlocks ∧ a'.alive i = true ↔ i = tail ∨ i < a.nBlocks ∧ a.alive i = true
  slots : Slots a'
  binned : ∃ chains, Binned a' chains

theorem Cut.sound {tail newSize : ℕ} (h : Cut a a' bid tail newSize) {pre post : List ℕ}
    (hs : Sound a (pre ++ bid :: post)) (hpos : 0 < newSize) (hlt : newSize < a.size bid) :
    Sound a' (pre ++ bid :: tail :: post) := by
  have hl := hs.layout
  have htail : tail ∉ pre ++ bid :: post := fun hmem => h.out ((hl.mem tail).mp hmem)
  have hne : bid ≠ tail := fun he => htail (by simp [he])
  have hnodup : (pre ++ bid :: tail :: post).Nodup := by
    have hperm : (pre ++ bid :: tail :: post).Perm (tail :: (pre ++ bid :: post)) := by
      have hassoc : pre ++ bid :: tail :: post = (pre ++ [bid]) ++ tail :: post := by simp
      rw [hassoc]
      exact List.perm_middle.trans (by simp)
    exact hperm.nodup_iff.mpr (List.nodup_cons.mpr ⟨htail, hl.nodup⟩)
  have hmem : ∀ i, i ∈ pre ++ bid :: tail :: post ↔ i = tail ∨ i ∈ pre ++ bid :: post := by
    intro i
    simp only [List.mem_append, List.mem_cons]
    tauto
  have hnext : ∀ j, a.next bid = some j → j ≠ tail := by
    rintro j hj rfl
    rw [(hl.links.at_cell).1] at hj
    exact htail (by simp [List.mem_of_mem_head? hj])
  refine ⟨⟨hnodup, fun i => ?_, ?_, ?_, h.slots⟩, h.binned, fun i hi => ?_⟩
  · rw [hmem, h.mem, hl.mem]
  · rw [h.total]
    refine hl.tiles.split hl.nodup htail (by rw [h.start, if_neg hne])
      (by rw [h.size, if_pos rfl]; exact hpos) (by rw [h.size, if_pos rfl]; exact hlt)
      (by rw [h.start, h.size, if_pos rfl, if_pos rfl])
      (by rw [h.size, h.size, if_neg hne.symm, if_pos rfl, if_pos rfl]) fun j hj hjt => ?_
    rw [h.start, h.size, if_neg hjt, if_neg hj, if_neg hjt]
    exact ⟨rfl, rfl⟩
  · refine hl.links.insert hl.nodup htail (by rw [h.next, if_pos rfl])
      (by rw [h.next, if_neg hne.symm, if_pos rfl]) ?_ (fun j hj => by rw [h.prev, if_pos hj])
      (fun j hj hjt => by rw [h.next, if_neg hj, if_neg hjt])
      fun j hjt hj => by rw [h.prev, if_neg hj, if_neg hjt]
    rw [h.prev, if_neg fun he => hnext tail he rfl, if_pos rfl]
  · rw [h.isFree] at hi
    rw [hmem]
    by_cases hi' : i = bid ∨ i = tail
    · rcases hi' with rfl | rfl
      · exact .inr (by simp)
      · exact .inl rfl
    · rw [if_neg hi'] at hi
      exact .inr (hs.free i hi)

/-- The first half of a split: the block shrinks and changes its bin. -/
theorem shrink_spec (hs : Sound a order) (hfree : a.isFree bid = true) {newSize : ℕ}
    (hlt : newSize < a.size bid) :
    ∃ a₁ a₂, tlsfBinRemove a bid = .ok a₁ ∧
      tlsfBinInsert (a₁.setBlock bid { a₁.blocks bid with size := newSize }) bid = .ok a₂ ∧
      (∃ chains, Binned a₂ chains) ∧ (∀ i, a₂.isFree i = a.isFree i) ∧ a₂.total = a.total ∧
      a₂.nBlocks = a.nBlocks ∧ a₂.freeSlots = a.freeSlots ∧
      ∀ i, a₂.start i = a.start i ∧ a₂.size i = (if i = bid then newSize else a.size i) ∧
        a₂.prev i = a.prev i ∧ a₂.next i = a.next i ∧ a₂.alive i = a.alive i := by
  obtain ⟨a₁, hok₁, -, hre₁⟩ := hs.remove hfree
  obtain ⟨chains, hb⟩ := hs.binned
  obtain ⟨chains₁, hb₁⟩ := hre₁.binned
  have hsize : (a₁.setBlock bid { a₁.blocks bid with size := newSize }).size bid = newSize := by
    simp [TlsfAllocator.size]
  have hflag : (a₁.setBlock bid { a₁.blocks bid with size := newSize }).isFree bid = false := by
    have h := hre₁.flag
    simpa [TlsfAllocator.isFree] using h
  have hb₂ : Binned (a₁.setBlock bid { a₁.blocks bid with size := newSize }) chains₁ := by
    refine hb₁.frame rfl rfl (fun i => ?_) fun i hi => ?_
    · by_cases hib : i = bid
      · subst hib
        simp [TlsfAllocator.isFree]
      · simp [TlsfAllocator.isFree, hib]
    · have hib : i ≠ bid := by
        rintro rfl
        rw [hre₁.flag] at hi
        cases hi
      simp [TlsfAllocator.size, TlsfAllocator.fnext, hib]
  obtain ⟨a₂, hok₂, hre₂⟩ := binInsert_spec hb₂ hflag (by
    rw [hsize]
    exact (bitLength_mono hlt.le).trans_lt (hb.bound bid hfree))
  have hrest := hre₂.same
  have hfirst := hre₁.same
  refine ⟨a₁, a₂, hok₁, hok₂, hre₂.binned, fun i => ?_, hrest.total.trans hfirst.total,
    hrest.nBlocks.trans hfirst.nBlocks, hrest.freeSlots.trans hfirst.freeSlots, fun i => ?_⟩
  · by_cases hib : i = bid
    · rw [hib, hre₂.flag, hfree]
    · rw [hre₂.others i hib, ← hre₁.others i hib]
      simp [TlsfAllocator.isFree, hib]
  · rw [hrest.start, hrest.size, hrest.prev, hrest.next, hrest.alive, ← hfirst.start, ← hfirst.size,
      ← hfirst.prev, ← hfirst.next, ← hfirst.alive]
    by_cases hib : i = bid
    · subst hib
      simp [TlsfAllocator.start, TlsfAllocator.size, TlsfAllocator.prev, TlsfAllocator.next,
        TlsfAllocator.alive]
    · simp [TlsfAllocator.start, TlsfAllocator.size, TlsfAllocator.prev, TlsfAllocator.next,
        TlsfAllocator.alive, hib]

/-- The links of a new block `k` behind `bid`, whose old neighbour was `id`. -/
def relink (a : TlsfAllocator) (bid k : ℕ) (id : Option ℕ) : TlsfAllocator :=
  (setPrev a id k).setBlock bid { (setPrev a id k).blocks bid with next := some k }

theorem relink_blocks (k i : ℕ) (id : Option ℕ) :
    (relink a bid k id).blocks i = { a.blocks i with
      prev := if id = some i then some k else (a.blocks i).prev
      next := if i = bid then some k else (a.blocks i).next } := by
  by_cases hi : i = bid
  · subst hi
    simp [relink]
  · simp [relink, hi]

theorem relink_rest (a : TlsfAllocator) (bid k : ℕ) (id : Option ℕ) : (relink a bid k id).total = a.total ∧
    (relink a bid k id).nBlocks = a.nBlocks ∧ (relink a bid k id).freeSlots = a.freeSlots ∧
    (relink a bid k id).bins = a.bins ∧ (relink a bid k id).lv1Count = a.lv1Count :=
  setPrev_rest id k

theorem Binned.relink {chains : ℕ → ℕ → List ℕ} (h : Binned a chains) (k : ℕ) (id : Option ℕ) :
    Binned (relink a bid k id) chains := by
  obtain ⟨-, -, -, hbins, hcount⟩ := relink_rest a bid k id
  refine h.frame hbins hcount (fun i => ?_) fun i _ => ?_
  · simp [TlsfAllocator.isFree, relink_blocks]
  · simp [TlsfAllocator.size, TlsfAllocator.fnext, relink_blocks]

/-- The second half of a split: the new block is filled in, binned and linked. -/
theorem fill_spec {a₃ : TlsfAllocator} {tail : ℕ} (bid : ℕ) (b : TlsfBlock) (id : Option ℕ)
    (hb : ∃ chains, Binned a chains) (hfresh : Fresh a a₃ tail) (hused : a.isFree tail = false)
    (hflag : b.isFree = false) (halive : b.alive = true) (hbound : tlsfLv1 b.size < tlsfLv1Max) :
    ∃ a₄, tlsfBinInsert (a₃.setBlock tail b) tail = .ok a₄ ∧
      (∃ chains, Binned (relink a₄ bid tail id) chains) ∧
      (relink a₄ bid tail id).total = a.total ∧ Slots (relink a₄ bid tail id) ∧
      (∀ i, i < (relink a₄ bid tail id).nBlocks ∧ (relink a₄ bid tail id).alive i = true ↔
        i = tail ∨ i < a.nBlocks ∧ a.alive i = true) ∧
      (∀ i, (relink a₄ bid tail id).isFree i = if i = tail then true else a.isFree i) ∧
      ∀ i, (relink a₄ bid tail id).start i = (if i = tail then b.start else a.start i) ∧
        (relink a₄ bid tail id).size i = (if i = tail then b.size else a.size i) ∧
        (relink a₄ bid tail id).prev i = (if id = some i then some tail
          else if i = tail then b.prev else a.prev i) ∧
        (relink a₄ bid tail id).next i = if i = bid then some tail
          else if i = tail then b.next else a.next i := by
  obtain ⟨chains, hb⟩ := hb
  have hblocks : ∀ i, (a₃.setBlock tail b).blocks i = if i = tail then b else a.blocks i := by
    intro i
    by_cases hi : i = tail
    · subst hi
      simp
    · rw [TlsfAllocator.blocks_setBlock_of_ne _ _ hi, hfresh.blocks, if_neg hi, if_neg hi]
  have hb₃ : Binned (a₃.setBlock tail b) chains := by
    refine hb.frame hfresh.bins hfresh.lv1Count (fun i => ?_) fun i hi => ?_
    · unfold TlsfAllocator.isFree at hused ⊢
      rw [hblocks]
      by_cases hit : i = tail
      · rw [if_pos hit, hflag, hit, hused]
      · rw [if_neg hit]
    · have hit : i ≠ tail := by
        rintro rfl
        rw [hused] at hi
        cases hi
      unfold TlsfAllocator.size TlsfAllocator.fnext
      rw [hblocks, if_neg hit]
      exact ⟨rfl, rfl⟩
  obtain ⟨a₄, hok, hre⟩ := binInsert_spec hb₃
    (show (a₃.setBlock tail b).isFree tail = false by simp [TlsfAllocator.isFree, hflag])
    (by simpa [TlsfAllocator.size] using hbound)
  obtain ⟨ht, hn, hsl, -, -⟩ := relink_rest a₄ bid tail id
  obtain ⟨chains₄, hb₄⟩ := hre.binned
  have hfields : ∀ i, (a₄.blocks i).start = (if i = tail then b else a.blocks i).start ∧
      (a₄.blocks i).size = (if i = tail then b else a.blocks i).size ∧
      (a₄.blocks i).prev = (if i = tail then b else a.blocks i).prev ∧
      (a₄.blocks i).next = (if i = tail then b else a.blocks i).next ∧
      (a₄.blocks i).alive = (if i = tail then b else a.blocks i).alive := fun i =>
    hblocks i ▸ hre.same.blocks i
  have halive' : ∀ i, (relink a₄ bid tail id).alive i = true ↔ i = tail ∨ a.alive i = true := by
    intro i
    simp only [TlsfAllocator.alive, relink_blocks, (hfields i).2.2.2.2]
    by_cases hit : i = tail
    · simp [hit, halive]
    · simp [hit]
  have hn₄ : (relink a₄ bid tail id).nBlocks = a₃.nBlocks := hn.trans hre.same.nBlocks
  have hsl₄ : (relink a₄ bid tail id).freeSlots = a₃.freeSlots := hsl.trans hre.same.freeSlots
  refine ⟨a₄, hok, ⟨chains₄, hb₄.relink tail id⟩, ht.trans (hre.same.total.trans hfresh.total),
    ⟨hsl₄ ▸ hfresh.slots.nodup, fun i hi => ?_⟩, fun i => ?_, fun i => ?_, fun i => ?_⟩
  · rw [hsl₄] at hi
    obtain ⟨hlt, hdead⟩ := hfresh.slots.dead i hi
    refine ⟨hn₄ ▸ hlt, ?_⟩
    rw [← Bool.not_eq_true, halive', not_or]
    simp only [TlsfAllocator.alive, hfresh.blocks] at hdead ⊢
    by_cases hit : i = tail
    · simp [hit] at hdead
    · rw [if_neg hit] at hdead
      exact ⟨hit, by simp [hdead]⟩
  · rw [hn₄, halive', ← hfresh.nBlocks]
  · have hflag₄ : (relink a₄ bid tail id).isFree i = a₄.isFree i := by
      simp [TlsfAllocator.isFree, relink_blocks]
    rw [hflag₄]
    by_cases hit : i = tail
    · rw [if_pos hit, hit, hre.flag]
    · rw [if_neg hit, hre.others i hit]
      simp only [TlsfAllocator.isFree, hblocks, if_neg hit]
  · obtain ⟨h1, h2, h3, h4, -⟩ := hfields i
    simp only [TlsfAllocator.start, TlsfAllocator.size, TlsfAllocator.prev, TlsfAllocator.next,
      relink_blocks, h1, h2, h3, h4]
    by_cases hit : i = tail <;> simp [hit]

theorem split_spec (hs : Sound a order) (hmem : bid ∈ order) (hfree : a.isFree bid = true)
    (htotal : a.total < 2 ^ 64) {newSize : ℕ} (hlt : newSize < a.size bid) :
    (∃ a' tail, tlsfSplit a bid newSize = .ok a' ∧ Cut a a' bid tail newSize) ∨
      Exhausted a ∧ tlsfSplit a bid newSize = .error .exit := by
  obtain ⟨a₁, a₂, hok₁, hok₂, hb₂, hfree₂, htotal₂, hn₂, hslots₂, hfields₂⟩ :=
    shrink_spec hs hfree hlt
  have hmem₂ : ∀ i, i < a₂.nBlocks ∧ a₂.alive i = true ↔ i ∈ order := fun i => by
    rw [hn₂, (hfields₂ i).2.2.2.2, hs.layout.mem]
  have hslotsOk : Slots a₂ := by
    refine ⟨hslots₂ ▸ hs.layout.slots.nodup, fun i hi => ?_⟩
    rw [hslots₂] at hi
    rw [hn₂, (hfields₂ i).2.2.2.2]
    exact hs.layout.slots.dead i hi
  rcases blockNew_spec hslotsOk with ⟨a₃, tail, hok₃, hfresh⟩ | ⟨hex, herr⟩
  · left
    have hout : tail ∉ order := fun h => hfresh.out ((hmem₂ tail).mpr h)
    have hne : bid ≠ tail := fun he => hout (he ▸ hmem)
    obtain ⟨-, -, hbid⟩ := hs.layout.tiles.mem_bounds hmem
    have hstart : add64 (a₃.blocks bid).start newSize = a.start bid + newSize := by
      have hold : (a₃.blocks bid).start = a.start bid := by
        rw [hfresh.blocks, if_neg hne]
        exact (hfields₂ bid).1
      rw [hold, add64_of_lt (by omega)]
    have hsize : sub64 (a.blocks bid).size newSize = a.size bid - newSize :=
      sub64_of_le hlt.le (lt_of_le_of_lt (le_trans (Nat.le_add_left _ _) hbid) htotal)
    obtain ⟨chains, hb⟩ := hs.binned
    have hused : a₂.isFree tail = false := by
      rw [hfree₂, ← Bool.not_eq_true]
      exact fun h => hout (hs.free tail h)
    obtain ⟨a₄, hok₄, hb₄, htotal₄, hslots₄, hmem₄, hfree₄, hfields₄⟩ :=
      fill_spec bid { a₃.blocks tail with
        start := add64 (a₃.blocks bid).start newSize
        size := sub64 (a.blocks bid).size newSize
        prev := some bid
        next := (a.blocks bid).next } (a.blocks bid).next hb₂ hfresh hused (by simp [hfresh.blocks])
        (by simp [hfresh.blocks]) (by
          rw [hsize]
          exact (bitLength_mono (Nat.sub_le _ _)).trans_lt (hb.bound bid hfree))
    refine ⟨relink a₄ bid tail (a.blocks bid).next, tail, ?_, htotal₄.trans htotal₂, fun i => ?_,
      fun i => ?_, fun i => ?_, fun i => ?_, fun i => ?_, fun h => hout ((hs.layout.mem tail).mpr h),
      fun i => ?_, hslots₄, hb₄⟩
    · simp only [tlsfSplit, hok₁, hok₂, hok₃, hok₄, bind, Except.bind]
      rfl
    · rw [(hfields₄ i).1, (hfields₂ i).1, hstart]
    · rw [(hfields₄ i).2.1, (hfields₂ i).2.1, hsize]
      by_cases hib : i = bid
      · rw [hib, if_neg hne, if_pos rfl, if_pos rfl]
      · rw [if_neg hib, if_neg hib]
    · rw [(hfields₄ i).2.2.1, (hfields₂ i).2.2.1]
      rfl
    · rw [(hfields₄ i).2.2.2, (hfields₂ i).2.2.2.1]
      rfl
    · rw [hfree₄, hfree₂]
      by_cases hit : i = tail
      · simp [hit]
      · by_cases hib : i = bid
        · simp [hib, hfree]
        · simp [hit, hib]
    · rw [hmem₄, hmem₂, hs.layout.mem]
  · right
    refine ⟨⟨hslots₂ ▸ hex.1, hn₂ ▸ hex.2⟩, ?_⟩
    simp only [tlsfSplit, hok₁, hok₂, herr, bind, Except.bind]

end Thvm.Tlsf
