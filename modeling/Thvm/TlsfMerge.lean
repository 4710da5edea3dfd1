import Thvm.TlsfBlocks
import Mathlib.Data.List.Chain

/-!
# Merging free neighbours

A free block takes up its free right neighbour. Walking left over free blocks and
then taking up free blocks to the right leaves no two free blocks side by side
around the place where a block was freed.
-/

namespace Thvm.Tlsf
open LinkedLists IntervalTiling FixedWidth

variable {a a' : TlsfAllocator} {order : List ℕ} {bid nb : ℕ}

/-- What taking up the right neighbour `nb` in `bid` comes to. -/
structure Joined (a a' : TlsfAllocator) (bid nb : ℕ) : Prop where
  total : a'.total = a.total
  nBlocks : a'.nBlocks = a.nBlocks
  freeSlots : a'.freeSlots = nb :: a.freeSlots
  start : ∀ i, a'.start i = a.start i
  size : ∀ i, a'.size i = if i = bid then a.size bid + a.size nb else a.size i
  prev : ∀ i, a'.prev i = if a.next nb = some i then some bid else a.prev i
  next : ∀ i, a'.next i = if i = bid then a.next nb else a.next i
  alive : ∀ i, a'.alive i = if i = nb then false else a.alive i
  isFree : ∀ i, a'.isFree i = if i = bid then true else if i = nb then false else a.isFree i
  binned : ∃ chains, Binned a' chains

theorem Joined.sound {pre post : List ℕ} (h : Joined a a' bid nb)
    (hs : Sound a (pre ++ bid :: nb :: post)) : Sound a' (pre ++ bid :: post) := by
  have hl := hs.layout
  have hassoc : pre ++ bid :: nb :: post = (pre ++ [bid]) ++ nb :: post := by simp
  have hsplit : nb ∉ pre ++ bid :: post ∧ (pre ++ bid :: post).Nodup := by
    have hnodup := hl.nodup
    rw [hassoc, List.nodup_middle, List.nodup_cons] at hnodup
    simpa using hnodup
  obtain ⟨hnb, hnodup⟩ := hsplit
  have hne : bid ≠ nb := fun he => hnb (by simp [he])
  have hmem : ∀ i, i ∈ pre ++ bid :: post ↔ i ∈ pre ++ bid :: nb :: post ∧ i ≠ nb := by
    intro i
    constructor
    · intro hi
      refine ⟨?_, fun he => hnb (he ▸ hi)⟩
      simp only [List.mem_append, List.mem_cons] at hi ⊢
      tauto
    · rintro ⟨hi, hne⟩
      simp only [List.mem_append, List.mem_cons] at hi ⊢
      tauto
  refine ⟨⟨hnodup, fun i => ?_, ?_, ?_, ⟨?_, fun i hi => ?_⟩⟩, h.binned, fun i hi => ?_⟩
  · rw [hmem, hl.mem, h.nBlocks, h.alive]
    by_cases hi : i = nb
    · simp [hi]
    · simp [hi]
  · rw [h.total]
    refine hl.tiles.join hl.nodup (h.start bid) (by rw [h.size, if_pos rfl]) fun j hj _ => ?_
    rw [h.start, h.size, if_neg hj]
    exact ⟨rfl, rfl⟩
  · refine hl.links.remove hl.nodup (by rw [h.next, if_pos rfl]) (fun j hj => by
      rw [h.prev, if_pos hj]) (fun j hj _ => by rw [h.next, if_neg hj]) fun j _ hj => by
      rw [h.prev, if_neg hj]
  · rw [h.freeSlots]
    refine List.nodup_cons.mpr ⟨fun hdead => ?_, hl.slots.nodup⟩
    have halive := ((hl.mem nb).mp (by simp)).2
    rw [(hl.slots.dead nb hdead).2] at halive
    cases halive
  · rw [h.freeSlots] at hi
    rw [h.nBlocks, h.alive]
    rcases List.mem_cons.mp hi with rfl | hi
    · rw [if_pos rfl]
      exact ⟨((hl.mem i).mp (by simp)).1, rfl⟩
    · obtain ⟨hlt, hdead⟩ := hl.slots.dead i hi
      simp [hlt, hdead]
  · rw [h.isFree] at hi
    rw [hmem]
    by_cases hib : i = bid
    · exact ⟨by simp [hib], hib ▸ hne⟩
    · rw [if_neg hib] at hi
      by_cases hin : i = nb
      · rw [if_pos hin] at hi
        cases hi
      · rw [if_neg hin] at hi
        exact ⟨hs.free i hi, hin⟩

/-- The allocator between the removals and the insertion of `absorb`. -/
def glue (a : TlsfAllocator) (bid nb grown : ℕ) (nbNext : Option ℕ) : TlsfAllocator :=
  tlsfBlockFreeSlot (setPrev (a.setBlock bid { a.blocks bid with size := grown, next := nbNext })
    nbNext bid) nb

theorem glue_blocks (hne : bid ≠ nb) (grown i : ℕ) (nbNext : Option ℕ) :
    (glue a bid nb grown nbNext).blocks i = { a.blocks i with
      size := if i = bid then grown else (a.blocks i).size
      next := if i = bid then nbNext else (a.blocks i).next
      prev := if nbNext = some i then some bid else (a.blocks i).prev
      alive := if i = nb then false else (a.blocks i).alive } := by
  by_cases hin : i = nb
  · subst hin
    simp [glue, tlsfBlockFreeSlot, hne.symm]
  · by_cases hib : i = bid
    · subst hib
      simp [glue, tlsfBlockFreeSlot, hin]
    · simp [glue, tlsfBlockFreeSlot, hin, hib]

theorem glue_rest (a : TlsfAllocator) (bid nb grown : ℕ) (nbNext : Option ℕ) :
    (glue a bid nb grown nbNext).total = a.total ∧
    (glue a bid nb grown nbNext).nBlocks = a.nBlocks ∧
    (glue a bid nb grown nbNext).freeSlots = nb :: a.freeSlots ∧
    (glue a bid nb grown nbNext).bins = a.bins ∧
    (glue a bid nb grown nbNext).lv1Count = a.lv1Count := by
  cases nbNext <;> exact ⟨rfl, rfl, rfl, rfl, rfl⟩

theorem Binned.glue {chains : ℕ → ℕ → List ℕ} (h : Binned a chains) (hne : bid ≠ nb)
    (hused : a.isFree bid = false) (grown : ℕ) (nbNext : Option ℕ) :
    Binned (glue a bid nb grown nbNext) chains := by
  obtain ⟨-, -, -, hbins, hcount⟩ := glue_rest a bid nb grown nbNext
  refine h.frame hbins hcount (fun i => ?_) fun i hi => ?_
  · simp [TlsfAllocator.isFree, glue_blocks hne]
  · have hib : i ≠ bid := by
      rintro rfl
      rw [hused] at hi
      cases hi
    simp [TlsfAllocator.size, TlsfAllocator.fnext, glue_blocks hne, hib]

theorem absorb_spec {pre post : List ℕ} (hs : Sound a (pre ++ bid :: nb :: post))
    (hfree : a.isFree bid = true) (hfree' : a.isFree nb = true)
    (htotal : tlsfLv1 a.total < tlsfLv1Max) :
    ∃ a', absorb a bid nb = .ok a' ∧ Joined a a' bid nb := by
  have hne : bid ≠ nb := by
    rintro rfl
    have hnodup := hs.layout.nodup
    simp [List.nodup_append] at hnodup
  have hbound : a.size bid + a.size nb ≤ a.total := by
    obtain ⟨mid, -, -, -, hright⟩ := tiles_append.mp hs.layout.tiles
    obtain ⟨-, -, hright⟩ := hright
    have := hright.le
    omega
  have htotal64 : a.total < 2 ^ 64 :=
    (bitLength_le 64 a.total).mp htotal.le
  have hgrown : add64 (a.blocks bid).size (a.blocks nb).size = a.size bid + a.size nb :=
    add64_of_lt (lt_of_le_of_lt hbound htotal64)
  obtain ⟨a₁, hok₁, hs₁, hre₁⟩ := hs.remove hfree
  have hfree₁ : a₁.isFree nb = true := (hre₁.others nb hne.symm).trans hfree'
  obtain ⟨a₂, hok₂, hs₂, hre₂⟩ := hs₁.remove hfree₁
  have hused₂ : a₂.isFree bid = false := (hre₂.others bid hne).trans hre₁.flag
  have hsame := hre₁.same.trans hre₂.same
  obtain ⟨chains, hb₂⟩ := hs₂.binned
  have hb₃ := hb₂.glue hne hused₂ (a.size bid + a.size nb) (a.next nb)
  have hsize₃ : (glue a₂ bid nb (a.size bid + a.size nb) (a.next nb)).size bid =
      a.size bid + a.size nb := by
    simp [TlsfAllocator.size, glue_blocks hne]
  have hused₃ : (glue a₂ bid nb (a.size bid + a.size nb) (a.next nb)).isFree bid = false := by
    rw [← hused₂]
    simp [TlsfAllocator.isFree, glue_blocks hne]
  obtain ⟨a', hok, hre⟩ := binInsert_spec hb₃ hused₃ (by
    rw [hsize₃]
    exact (bitLength_mono hbound).trans_lt htotal)
  obtain ⟨ht, hn, hsl, -, -⟩ := glue_rest a₂ bid nb
    (a.size bid + a.size nb) (a.next nb)
  refine ⟨a', ?_, hre.same.total.trans (ht.trans hsame.total),
    hre.same.nBlocks.trans (hn.trans hsame.nBlocks), ?_, fun i => ?_, fun i => ?_, fun i => ?_,
    fun i => ?_, fun i => ?_, fun i => ?_, hre.binned⟩
  · rw [← hok]
    simp only [absorb, hok₁, hok₂, bind, Except.bind, hgrown]
    rfl
  · rw [hre.same.freeSlots, hsl, hsame.freeSlots]
  · rw [hre.same.start, ← hsame.start]
    simp [TlsfAllocator.start, glue_blocks hne]
  · rw [hre.same.size, ← hsame.size]
    simp [TlsfAllocator.size, glue_blocks hne]
  · rw [hre.same.prev, ← hsame.prev]
    simp [TlsfAllocator.prev, glue_blocks hne]
  · rw [hre.same.next, ← hsame.next]
    simp [TlsfAllocator.next, glue_blocks hne]
  · rw [hre.same.alive, ← hsame.alive]
    simp [TlsfAllocator.alive, glue_blocks hne]
  · by_cases hib : i = bid
    · rw [if_pos hib, hib, hre.flag]
    · rw [if_neg hib, hre.others i hib]
      have hkeep : (glue a₂ bid nb (a.size bid + a.size nb) (a.next nb)).isFree i =
          a₂.isFree i := by
        simp [TlsfAllocator.isFree, glue_blocks hne]
      rw [hkeep]
      by_cases hin : i = nb
      · rw [if_pos hin, hin, hre₂.flag]
      · rw [if_neg hin, hre₂.others i hin, hre₁.others i hib]

/-- No two free blocks stand side by side. -/
def Apart (free : ℕ → Bool) : List ℕ → Prop := List.IsChain fun i j => free i = true → free j = false

theorem Apart.congr {free free' : ℕ → Bool} {is : List ℕ} (h : Apart free is)
    (hsame : ∀ i ∈ is, free' i = free i) : Apart free' is := by
  refine List.IsChain.imp_of_mem_imp (fun i j hi hj hij => ?_) h
  rw [hsame i hi, hsame j hj]
  exact hij

/-- What merging leaves alone: the starts and the blocks that are not free. -/
structure Coarser (a a' : TlsfAllocator) (order order' : List ℕ) : Prop where
  total : a'.total = a.total
  start : ∀ i, a'.start i = a.start i
  size : ∀ i, a.isFree i = false → a'.size i = a.size i
  sub : ∀ i ∈ order', i ∈ order
  used : ∀ i, i ∈ order' ∧ a'.isFree i = false ↔ i ∈ order ∧ a.isFree i = false

theorem Coarser.refl (a : TlsfAllocator) (order : List ℕ) : Coarser a a order order :=
  ⟨rfl, fun _ => rfl, fun _ _ => rfl, fun _ hi => hi, fun _ => Iff.rfl⟩

theorem Coarser.trans {b : TlsfAllocator} {order' order'' : List ℕ} (h : Coarser a a' order order')
    (hsame : ∀ i, a.isFree i = false → a'.isFree i = false) (h' : Coarser a' b order' order'') :
    Coarser a b order order'' where
  total := h'.total.trans h.total
  start := fun i => (h'.start i).trans (h.start i)
  size := fun i hi => (h'.size i (hsame i hi)).trans (h.size i hi)
  sub := fun i hi => h.sub i (h'.sub i hi)
  used := fun i => (h'.used i).trans (h.used i)

theorem Joined.isFree_of_used (h : Joined a a' bid nb) (hfree : a.isFree bid = true) {i : ℕ}
    (hi : a.isFree i = false) : a'.isFree i = false := by
  rw [h.isFree]
  by_cases hib : i = bid
  · rw [hib, hfree] at hi
    cases hi
  · rw [if_neg hib, hi, ite_self]

theorem Joined.coarser {pre post : List ℕ} (h : Joined a a' bid nb)
    (hs : Sound a (pre ++ bid :: nb :: post)) (hfree : a.isFree bid = true)
    (hfree' : a.isFree nb = true) :
    Coarser a a' (pre ++ bid :: nb :: post) (pre ++ bid :: post) where
  total := h.total
  start := h.start
  size := fun i hi => by
    have hib : i ≠ bid := by
      rintro rfl
      rw [hfree] at hi
      cases hi
    rw [h.size, if_neg hib]
  sub := fun i hi => by
    simp only [List.mem_append, List.mem_cons] at hi ⊢
    tauto
  used := fun i => by
    constructor
    · rintro ⟨hi, hused⟩
      refine ⟨?_, ?_⟩
      · simp only [List.mem_append, List.mem_cons] at hi ⊢
        tauto
      · have hmem := ((h.sound hs).layout.mem i).mp hi
        rw [h.isFree] at hused
        rw [h.alive] at hmem
        by_cases hib : i = bid
        · rw [if_pos hib] at hused
          cases hused
        · by_cases hin : i = nb
          · simp [hin] at hmem
          · simpa [hib, hin] using hused
    · rintro ⟨hi, hused⟩
      have hin : i ≠ nb := by
        rintro rfl
        rw [hfree'] at hused
        cases hused
      refine ⟨?_, h.isFree_of_used hfree hused⟩
      simp only [List.mem_append, List.mem_cons] at hi ⊢
      tauto

theorem freeBlock_some (a : TlsfAllocator) (i : ℕ) :
    freeBlock a (some i) = if a.isFree i = true then some i else none := by
  unfold TlsfAllocator.isFree freeBlock
  cases h : (a.blocks i).isFree <;> simp [Option.filter, h]

theorem dropWhile_same {p q : ℕ → Bool} {is : List ℕ} (h : ∀ i ∈ is, p i = q i) :
    is.dropWhile p = is.dropWhile q := by
  induction is with
  | nil => rfl
  | cons i is ih =>
    rw [List.dropWhile_cons, List.dropWhile_cons, h i List.mem_cons_self,
      ih fun j hj => h j (List.mem_cons_of_mem i hj)]

/-- The loop takes up the free blocks to the right of a free block. -/
theorem mergeRightLoop_spec {pre tail : List ℕ} {rounds : ℕ} (hs : Sound a (pre ++ bid :: tail))
    (hfree : a.isFree bid = true) (htotal : tlsfLv1 a.total < tlsfLv1Max)
    (hrounds : tail.length < rounds) :
    ∃ a', mergeRightLoop bid rounds a = .ok a' ∧
      Sound a' (pre ++ bid :: tail.dropWhile a.isFree) ∧
      (∀ i ∈ pre ++ bid :: tail.dropWhile a.isFree, a'.isFree i = a.isFree i) ∧
      Coarser a a' (pre ++ bid :: tail) (pre ++ bid :: tail.dropWhile a.isFree) := by
  induction rounds generalizing a tail with
  | zero => exact absurd hrounds (Nat.not_lt_zero _)
  | succ rounds ih =>
    have hnext : (a.blocks bid).next = tail.head? := hs.layout.links.at_cell.1
    cases tail with
    | nil =>
      refine ⟨a, ?_, hs, fun _ _ => rfl, .refl a _⟩
      rw [mergeRightLoop, hnext]
      rfl
    | cons nb rest =>
      cases hnb : a.isFree nb with
      | false =>
        have hstop : freeBlock a (some nb) = none := by simp [freeBlock_some, hnb]
        have hdrop : (nb :: rest).dropWhile a.isFree = nb :: rest := by
          simp [hnb]
        rw [hdrop]
        refine ⟨a, ?_, hs, fun _ _ => rfl, .refl a _⟩
        rw [mergeRightLoop, hnext, List.head?_cons, hstop]
      | true =>
        have hgo : freeBlock a (some nb) = some nb := by simp [freeBlock_some, hnb]
        have hdrop : (nb :: rest).dropWhile a.isFree = rest.dropWhile a.isFree := by
          simp [hnb]
        obtain ⟨a₁, hok, hjoin⟩ := absorb_spec hs hfree hnb htotal
        have hs₁ := hjoin.sound hs
        have hnotin : nb ∉ pre ++ bid :: rest := by
          intro hmem
          have hmem' := ((hs₁.layout.mem nb).mp hmem).2
          rw [hjoin.alive, if_pos rfl] at hmem'
          cases hmem'
        have hsame : ∀ i ∈ pre ++ bid :: rest, a₁.isFree i = a.isFree i := by
          intro i hi
          rw [hjoin.isFree]
          by_cases hib : i = bid
          · rw [if_pos hib, hib, hfree]
          · have hin : i ≠ nb := fun he => hnotin (he ▸ hi)
            rw [if_neg hib, if_neg hin]
        have hdrop₁ : rest.dropWhile a₁.isFree = rest.dropWhile a.isFree :=
          dropWhile_same fun i hi => hsame i (by simp [hi])
        obtain ⟨a', hok', hs', hsame', hcoarse⟩ := ih hs₁ ((hsame bid (by simp)).trans hfree)
          (hjoin.total ▸ htotal) (by simpa using hrounds)
        rw [hdrop₁] at hs' hsame' hcoarse
        rw [hdrop]
        refine ⟨a', ?_, hs', fun i hi => ?_, ?_⟩
        · rw [mergeRightLoop, hnext, List.head?_cons, hgo]
          simp only [hok, bind, Except.bind]
          exact hok'
        · rw [hsame' i hi]
          exact hsame i (hcoarse.sub i hi)
        · exact (hjoin.coarser hs hfree hnb).trans (fun i hi => hjoin.isFree_of_used hfree hi) hcoarse

/-- The walk to the left ends at the first of the free blocks around `bid`. -/
theorem leftmostFree_spec {pre post : List ℕ} {rounds : ℕ} (hs : Sound a (pre ++ bid :: post))
    (hfree : a.isFree bid = true) (hrounds : pre.length < rounds) :
    ∃ pre' left mid, leftmostFree a rounds bid = .ok left ∧
      pre ++ bid :: post = pre' ++ left :: mid ++ post ∧ pre' <+: pre ∧
      (∀ i ∈ left :: mid, a.isFree i = true) ∧
      ∀ i, lastOr none pre' = some i → a.isFree i = false := by
  induction rounds generalizing bid pre post with
  | zero => exact absurd hrounds (Nat.not_lt_zero _)
  | succ rounds ih =>
    have hprev : (a.blocks bid).prev = lastOr none pre := hs.layout.links.at_cell.2
    rcases List.eq_nil_or_concat pre with rfl | ⟨pre, i, rfl⟩
    · refine ⟨[], bid, [], ?_, rfl, List.prefix_refl _, by simpa using hfree, by simp [lastOr]⟩
      rw [leftmostFree, hprev]
      rfl
    · rw [List.concat_eq_append] at hs hprev hrounds ⊢
      rw [lastOr_snoc] at hprev
      cases hi : a.isFree i with
      | false =>
        have hstop : freeBlock a (some i) = none := by simp [freeBlock_some, hi]
        refine ⟨pre ++ [i], bid, [], ?_, by simp, List.prefix_refl _, by simpa using hfree, ?_⟩
        · rw [leftmostFree, hprev, hstop]
        · intro j hj
          rw [lastOr_snoc] at hj
          obtain rfl := Option.some.inj hj
          exact hi
      | true =>
        have hgo : freeBlock a (some i) = some i := by simp [freeBlock_some, hi]
        have hassoc : pre ++ [i] ++ bid :: post = pre ++ i :: (bid :: post) := by simp
        rw [hassoc] at hs ⊢
        obtain ⟨pre', left, mid, hok, hsplit, hpre, hmid, hlast⟩ :=
          ih hs hi (by simpa using hrounds)
        refine ⟨pre', left, mid ++ [bid], ?_, ?_, hpre.trans (List.prefix_append _ _), ?_, hlast⟩
        · rw [leftmostFree, hprev, hgo]
          exact hok
        · rw [hsplit]
          simp
        · intro j hj
          rcases List.mem_append.mp (by simpa using hj : j ∈ (left :: mid) ++ [bid]) with hj | hj
          · exact hmid j hj
          · rw [List.mem_singleton.mp hj, hfree]

theorem Apart.dropWhile {free : ℕ → Bool} {pre mid post : List ℕ} (hpre : Apart free pre)
    (hlast : ∀ i, lastOr none pre = some i → free i = false) (hmid : ∀ i ∈ mid, free i = true)
    (hpost : Apart free post) {i : ℕ} :
    Apart free (pre ++ i :: (mid ++ post).dropWhile free) := by
  have hdrop : (mid ++ post).dropWhile free = post.dropWhile free :=
    List.dropWhile_append_of_pos hmid
  rw [hdrop]
  have hsuffix : Apart free (post.dropWhile free) :=
    List.IsChain.suffix hpost (List.dropWhile_suffix free)
  have hhead : ∀ j ∈ (post.dropWhile free).head?, free j = false := by
    intro j hj
    have hnot := List.head?_dropWhile_not free post
    rwa [hj] at hnot
  refine hpre.append (hsuffix.cons fun j hj _ => hhead j hj) fun j hj k hk hfree => ?_
  rw [hlast j ((lastOr_none pre).trans hj)] at hfree
  cases hfree

/-- Merging around a freed block keeps free blocks apart. -/
theorem mergeBlock_spec {pre post : List ℕ} (hs : Sound a (pre ++ bid :: post))
    (hfree : a.isFree bid = true) (htotal : tlsfLv1 a.total < tlsfLv1Max)
    (hpre : Apart a.isFree pre) (hpost : Apart a.isFree post) :
    ∃ a' order, tlsfMergeBlock a bid = .ok a' ∧ Sound a' order ∧ Apart a'.isFree order ∧
      Coarser a a' (pre ++ bid :: post) order := by
  have hlen : (pre ++ bid :: post).length ≤ a.nBlocks := by
    rw [← List.toFinset_card_of_nodup hs.layout.nodup]
    refine (Finset.card_le_card fun i hi => ?_).trans_eq (Finset.card_range a.nBlocks)
    exact Finset.mem_range.mpr ((hs.layout.mem i).mp (List.mem_toFinset.mp hi)).1
  rw [List.length_append, List.length_cons] at hlen
  obtain ⟨pre', left, mid, hleft, hsplit, hprefix, hmid, hlast⟩ :=
    leftmostFree_spec hs hfree (show pre.length < a.nBlocks + 1 by omega)
  have hleftFree := hmid left List.mem_cons_self
  rw [List.append_assoc, List.cons_append] at hsplit
  have hsplitLen := congrArg List.length hsplit
  simp only [List.length_append, List.length_cons] at hsplitLen
  rw [hsplit] at hs ⊢
  obtain ⟨a', hok, hs', hsame, hcoarse⟩ := mergeRightLoop_spec hs hleftFree htotal
    (show (mid ++ post).length < a.nBlocks + 1 by rw [List.length_append]; omega)
  refine ⟨a', _, ?_, hs', ?_, hcoarse⟩
  · simp only [tlsfMergeBlock, hleft, bind, Except.bind, tlsfMergeRight]
    exact (if_pos hleftFree).trans hok
  · obtain ⟨rest, rfl⟩ := hprefix
    refine Apart.congr (Apart.dropWhile (List.IsChain.left_of_append hpre) hlast
      (fun i hi => hmid i (List.mem_cons_of_mem left hi)) hpost) hsame

end Thvm.Tlsf
