import Thvm.CpQueueSteps
import Mathlib.Data.Multiset.MapFold
import Mathlib.Data.Multiset.Filter
import Mathlib.Data.Multiset.Range
import Mathlib.Logic.Equiv.Basic

/-!
# The records of the queue

The queue as the bag of the records in its slots. A swap and a backfill move all columns of a
slot but `cp_deprio`, so that the bag stays what it is as long as they are between slots that
carry the same mark.
-/

namespace Thvm

namespace Atp

namespace CpQueue

variable {P : Type} {s s' s'' : Queue P} {cfg : Config} {w : World P} {i j : ℕ}

/-- The bag of the queued records. -/
def records (s : Queue P) : Multiset (CpRecord P) := (Multiset.range s.nCps).map s.slot

/-- Every slot that something was moved to has the mark of the slot that it came from. -/
def Agree (s : Queue P) : Prop := ∀ p ∈ s.moved, s.deprio p.1 = s.deprio p.2

theorem map_range_congr {β : Type} {f g : ℕ → β} {n : ℕ} (h : ∀ m < n, f m = g m) :
    (Multiset.range n).map f = (Multiset.range n).map g :=
  Multiset.map_congr rfl fun m hm => h m (Multiset.mem_range.mp hm)

/-- Two families that differ at one index. -/
theorem map_range_update {β : Type} {f g : ℕ → β} {n : ℕ} (hj : j < n)
    (h : ∀ m < n, m ≠ j → f m = g m) :
    g j ::ₘ (Multiset.range n).map f = f j ::ₘ (Multiset.range n).map g := by
  have hmem := Multiset.mem_range.mpr hj
  have hrest : ((Multiset.range n).erase j).map f = ((Multiset.range n).erase j).map g := by
    refine Multiset.map_congr rfl fun m hm => ?_
    obtain ⟨hne, hmn⟩ := (Multiset.nodup_range n).mem_erase_iff.mp hm
    exact h m (Multiset.mem_range.mp hmn) hne
  rw [← Multiset.cons_erase hmem, Multiset.map_cons, Multiset.map_cons, hrest, Multiset.cons_swap]

theorem map_range_swap {β : Type} (f : ℕ → β) {n : ℕ} (hi : i < n) (hj : j < n) :
    (Multiset.range n).map (fun m => f (Equiv.swap i j m)) = (Multiset.range n).map f := by
  have hperm : (Multiset.range n).map (Equiv.swap i j) = Multiset.range n := by
    refine (Multiset.Nodup.ext ?_ (Multiset.nodup_range n)).mpr fun m => ?_
    · exact (Multiset.nodup_range n).map (Equiv.swap i j).injective
    · rw [Multiset.mem_map]
      have hinside : ∀ m < n, Equiv.swap i j m < n := by
        intro m hm
        rw [Equiv.swap_apply_def]
        split
        · exact hj
        · split
          · exact hi
          · exact hm
      constructor
      · rintro ⟨k, hk, rfl⟩
        exact Multiset.mem_range.mpr (hinside k (Multiset.mem_range.mp hk))
      · intro hm
        exact ⟨Equiv.swap i j m, Multiset.mem_range.mpr (hinside m (Multiset.mem_range.mp hm)),
          Equiv.swap_apply_self i j m⟩
  conv_rhs => rw [← hperm, Multiset.map_map]
  rfl

/-! ## Rearrangements -/

/-- A step that only moves slots: the marks stay where they are, the log grows, and if it
agrees in the end the bag of records is the same. -/
structure Rearranges (s s' : Queue P) : Prop where
  nCps : s'.nCps = s.nCps
  deprio : s'.deprio = s.deprio
  moved : s.moved ⊆ s'.moved
  compacted : s'.compacted = s.compacted
  selectCount : s'.selectCount = s.selectCount
  records : Agree s' → records s' = records s

namespace Rearranges

theorem refl (s : Queue P) : Rearranges s s :=
  ⟨rfl, rfl, List.Subset.refl _, rfl, rfl, fun _ => rfl⟩

theorem agree (h : Rearranges s s') (hs' : Agree s') : Agree s := by
  intro p hp
  rw [← h.deprio]
  exact hs' p (h.moved hp)

theorem trans (h : Rearranges s s') (h' : Rearranges s' s'') : Rearranges s s'' where
  nCps := h'.nCps.trans h.nCps
  deprio := h'.deprio.trans h.deprio
  moved := List.Subset.trans h.moved h'.moved
  compacted := h'.compacted.trans h.compacted
  selectCount := h'.selectCount.trans h.selectCount
  records hs'' := (h'.records hs'').trans (h.records (h'.agree hs''))

end Rearranges

theorem slot_swap (h : s.deprio i = s.deprio j) (m : ℕ) :
    (atpCpSwap s i j).slot m = s.slot (Equiv.swap i j m) := by
  rw [Equiv.swap_apply_def]
  by_cases hi : m = i
  · subst hi
    simp [Queue.slot, atpCpSwap, swapCol, h]
  · by_cases hj : m = j
    · subst hj
      simp [Queue.slot, atpCpSwap, swapCol, hi, h]
    · simp [Queue.slot, atpCpSwap, swapCol, hi, hj]

theorem rearranges_swap (hi : i < s.nCps) (hj : j < s.nCps) : Rearranges s (atpCpSwap s i j) where
  nCps := rfl
  deprio := rfl
  moved := List.subset_cons_self _ _
  compacted := rfl
  selectCount := rfl
  records h := by
    have hmark : s.deprio i = s.deprio j := h (i, j) List.mem_cons_self
    calc records (atpCpSwap s i j)
        = (Multiset.range s.nCps).map fun m => s.slot (Equiv.swap i j m) :=
          map_range_congr fun m _ => slot_swap hmark m
      _ = records s := map_range_swap s.slot hi hj

/-! ## Exchanges -/

/-- Exchanges of queued slots, one after the other. -/
inductive Swaps : Queue P → Queue P → Prop
  | refl (s : Queue P) : Swaps s s
  | swap {s s' : Queue P} {i j : ℕ} (hi : i < s.nCps) (hj : j < s.nCps)
    (h : Swaps (atpCpSwap s i j) s') : Swaps s s'

namespace Swaps

theorem trans (h : Swaps s s') (h' : Swaps s' s'') : Swaps s s'' := by
  induction h with
  | refl s => exact h'
  | swap hi hj _ ih => exact .swap hi hj (ih h')

theorem rearranges (h : Swaps s s') : Rearranges s s' := by
  induction h with
  | refl s => exact .refl s
  | swap hi hj _ ih => exact (rearranges_swap hi hj).trans ih

theorem nCps (h : Swaps s s') : s'.nCps = s.nCps := h.rearranges.nCps

end Swaps

theorem swaps_siftUpFrom (rounds : ℕ) (hi : i < s.nCps) :
    Swaps s (atpCpSiftUpFrom cfg rounds s i) := by
  induction rounds generalizing s i with
  | zero => exact .refl s
  | succ rounds ih =>
    rw [atpCpSiftUpFrom]
    split
    · have hparent : (i - 1) / 2 < s.nCps := by omega
      exact .swap hi hparent (ih hparent)
    · exact .refl s

theorem siftChild_cases (cfg : Config) (s : Queue P) (i : ℕ) :
    siftChild cfg s i = i ∨ siftChild cfg s i < s.nCps := by
  have htest : ∀ c m, siftTest cfg s c m = m ∨ siftTest cfg s c m < s.nCps := by
    intro c m
    unfold siftTest
    split
    · rename_i h
      exact .inr h.1
    · exact .inl rfl
  rcases htest ((2 * i + 2) % 2 ^ 32) (siftTest cfg s ((2 * i + 1) % 2 ^ 32) i) with h | h
  · rw [siftChild, h]
    exact htest _ _
  · exact .inr h

theorem swaps_siftDownFrom (rounds : ℕ) (hi : i < s.nCps) :
    Swaps s (atpCpSiftDownFrom cfg rounds s i) := by
  induction rounds generalizing s i with
  | zero => exact .refl s
  | succ rounds ih =>
    rw [atpCpSiftDownFrom]
    split
    · exact .refl s
    · rename_i hne
      have hchild := (siftChild_cases cfg s i).resolve_left hne
      exact .swap hi hchild (ih hchild)

theorem swaps_floydFrom (k : ℕ) (hk : k ≤ s.nCps) : Swaps s (floydFrom cfg k s) := by
  induction k generalizing s with
  | zero => exact .refl s
  | succ k ih =>
    have hdown : Swaps s (atpCpSiftDown cfg s k) := swaps_siftDownFrom _ hk
    refine hdown.trans (ih ?_)
    rw [hdown.nCps]
    omega

theorem swaps_normalizeUp {index : ℕ} (hpos : 0 < index) (hle : index ≤ s.nCps) (k d : ℕ) :
    Swaps s (atpKdhNormalizeUp s index k d) := by
  induction k generalizing s d with
  | zero => exact .refl s
  | succ k ih =>
    have hup : index / 2 ^ (k + 1) - 1 < s.nCps := by
      have := Nat.div_le_self index (2 ^ (k + 1))
      omega
    rw [atpKdhNormalizeUp]
    split
    · exact .swap hup (show index - 1 < s.nCps by omega)
        (ih (s := atpCpSwap s (index / 2 ^ (k + 1) - 1) (index - 1)) hle _)
    · exact ih hle _

theorem swaps_kdhBuildTo (n : ℕ) (hn : n ≤ s.nCps) : Swaps s (kdhBuildTo s n) := by
  induction n with
  | zero => exact .refl s
  | succ n ih =>
    have hbuild := ih (by omega)
    refine hbuild.trans (swaps_normalizeUp (Nat.succ_pos n) ?_ _ _)
    rwa [hbuild.nCps]

theorem swaps_reorder (cfg : Config) (s : Queue P) : Swaps s (reorder cfg s) := by
  unfold reorder
  split
  · exact swaps_kdhBuildTo _ (Nat.le_refl _)
  · exact swaps_floydFrom _ (Nat.div_le_self _ _)

theorem swaps_floydOnly (cfg : Config) (s : Queue P) : Swaps s (atpCpFloydOnly cfg s) := by
  unfold atpCpFloydOnly
  split
  · exact .refl s
  · exact swaps_reorder cfg s

theorem swaps_repair (hbin : cfg.kdheap = false) (hj : j ≤ s.nCps) :
    Swaps s (repair cfg s j) := by
  rw [repair]
  split
  · rename_i hne
    rw [hbin, if_neg Bool.false_ne_true]
    have hj' : j < s.nCps := by omega
    have hup : Swaps s (atpCpSiftUp cfg s j) := swaps_siftUpFrom _ hj'
    refine hup.trans (swaps_siftDownFrom _ ?_)
    rwa [hup.nCps]
  · exact .refl s

theorem rearranges_siftUpFrom (rounds : ℕ) (hi : i < s.nCps) :
    Rearranges s (atpCpSiftUpFrom cfg rounds s i) := (swaps_siftUpFrom rounds hi).rearranges

theorem rearranges_floydFrom (k : ℕ) (hk : k ≤ s.nCps) : Rearranges s (floydFrom cfg k s) :=
  (swaps_floydFrom k hk).rearranges

theorem rearranges_reorder (cfg : Config) (s : Queue P) : Rearranges s (reorder cfg s) :=
  (swaps_reorder cfg s).rearranges

theorem rearranges_floydOnly (cfg : Config) (s : Queue P) :
    Rearranges s (atpCpFloydOnly cfg s) :=
  (swaps_floydOnly cfg s).rearranges

/-! ## Extraction -/

/-- A slot is taken out. -/
structure Extracts (s s' : Queue P) (j : ℕ) : Prop where
  nCps : s'.nCps = s.nCps - 1
  deprio : s'.deprio = s.deprio
  moved : s.moved ⊆ s'.moved
  compacted : s'.compacted = s.compacted
  selectCount : s'.selectCount = s.selectCount
  records : Agree s' → CpQueue.records s = s.slot j ::ₘ CpQueue.records s'

theorem Extracts.agree (h : Extracts s s' j) (hs' : Agree s') : Agree s := by
  intro p hp
  rw [← h.deprio]
  exact hs' p (h.moved hp)

theorem Extracts.rearrange (h : Extracts s s' j) (h' : Rearranges s' s'') : Extracts s s'' j where
  nCps := h'.nCps.trans h.nCps
  deprio := h'.deprio.trans h.deprio
  moved := List.Subset.trans h.moved h'.moved
  compacted := h'.compacted.trans h.compacted
  selectCount := h'.selectCount.trans h.selectCount
  records hs'' := by
    rw [h'.records hs'']
    exact h.records (h'.agree hs'')

theorem slot_emptySlot {m : ℕ} (h : m ≠ j) : (emptySlot s j).slot m = s.slot m := by
  simp [Queue.slot, emptySlot, setCol, h]

theorem slot_backfill {m last : ℕ} (hj : m ≠ j) (hlast : m ≠ last) :
    (backfill s j last).slot m = s.slot m := by
  simp [Queue.slot, backfill, setCol, hj, hlast]

/-- The last record is in the slot that was emptied, if it has the mark of that slot. -/
theorem slot_dropSlot_self {last : ℕ} (hne : j ≠ last) (hmark : s.deprio j = s.deprio last) :
    (backfill (emptySlot s j) j last).slot j = s.slot last := by
  have hne' : last ≠ j := fun h => hne h.symm
  simp [Queue.slot, backfill, emptySlot, setCol, hne, hne', hmark]

theorem extracts_dropSlot (hj : j < s.nCps) : Extracts s (dropSlot s j) j := by
  obtain ⟨last, hn⟩ : ∃ last, s.nCps = last + 1 := ⟨s.nCps - 1, by omega⟩
  have hrange : records s = s.slot last ::ₘ (Multiset.range last).map s.slot := by
    rw [records, hn, Multiset.range_succ, Multiset.map_cons]
  rw [dropSlot, hn, Nat.add_sub_cancel]
  split
  · rename_i hne
    refine ⟨rfl, rfl, List.subset_cons_self _ _, rfl, rfl, fun h => ?_⟩
    have hmark : s.deprio j = s.deprio last := h (j, last) List.mem_cons_self
    have hrest : records (backfill (emptySlot s j) j last) =
        (Multiset.range last).map (backfill (emptySlot s j) j last).slot := by
      change (Multiset.range (s.nCps - 1)).map _ = _
      rw [hn, Nat.add_sub_cancel]
    rw [hrange, hrest, ← slot_dropSlot_self hne hmark]
    refine map_range_update (by omega) fun m hm hmj => ?_
    rw [slot_backfill hmj (by omega), slot_emptySlot hmj]
  · rename_i hlast
    rw [not_not] at hlast
    have hcps : (emptySlot s j).nCps = s.nCps - 1 := rfl
    refine ⟨hcps, rfl, List.Subset.refl _, rfl, rfl, fun _ => ?_⟩
    subst hlast
    rw [hrange]
    refine congrArg (s.slot j ::ₘ ·) ?_
    change _ = (Multiset.range (s.nCps - 1)).map (emptySlot s j).slot
    rw [hn, Nat.add_sub_cancel]
    exact map_range_congr fun m hm => (slot_emptySlot (by omega)).symm

theorem extracts_repair (hbin : cfg.kdheap = false) (hj : j < s.nCps) :
    Extracts s (repair cfg (dropSlot s j) j) j := by
  have hdrop := extracts_dropSlot hj
  refine hdrop.rearrange (swaps_repair hbin ?_).rearranges
  rw [hdrop.nCps]
  omega

end CpQueue

end Atp

end Thvm
