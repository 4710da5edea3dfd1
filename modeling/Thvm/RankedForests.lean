import Mathlib.Data.Finset.Card
import Mathlib.Data.Finset.Range
import Mathlib.Logic.Function.Basic
import Mathlib.Tactic.Common

/-!
# Parent forests with ranks

Disjoint sets as trees that point to their parents. Ranks grow along the parent edges, so
that every path ends at a root.
-/

namespace Thvm.RankedForests

/-- Follow the parents for at most the given number of rounds. -/
def findRoot (parent : ℕ → ℕ) : ℕ → ℕ → ℕ
  | 0, n => n
  | rounds + 1, n => if parent n = n then n else findRoot parent rounds (parent n)

/-- The nodes below `size` with growing ranks. -/
structure Forest (size : ℕ) (parent rank : ℕ → ℕ) : Prop where
  lt : ∀ n < size, parent n < size
  rank_lt : ∀ n < size, parent n ≠ n → rank n < rank (parent n)

variable {size n m ra rb : ℕ} {parent rank : ℕ → ℕ}

/-- The number of nodes of higher rank. -/
def above (size : ℕ) (rank : ℕ → ℕ) (n : ℕ) : ℕ :=
  ((Finset.range size).filter fun m => rank n < rank m).card

theorem Forest.above_lt (h : Forest size parent rank) (hn : n < size) (hne : parent n ≠ n) :
    above size rank (parent n) < above size rank n := by
  have hlt := h.rank_lt n hn hne
  apply Finset.card_lt_card
  rw [Finset.ssubset_iff_of_subset]
  · refine ⟨parent n, ?_, ?_⟩
    · simp [hlt, h.lt n hn]
    · simp
  · intro m hm
    rw [Finset.mem_filter] at hm ⊢
    exact ⟨hm.1, hlt.trans hm.2⟩

theorem above_lt_size (hn : n < size) : above size rank n < size := by
  have hss : (Finset.range size).filter (fun m => rank n < rank m) ⊂ Finset.range size := by
    rw [Finset.ssubset_iff_of_subset (Finset.filter_subset _ _)]
    exact ⟨n, Finset.mem_range.mpr hn, by simp⟩
  simpa [above] using Finset.card_lt_card hss

/-- Induction along the paths to the roots. -/
theorem Forest.induct (h : Forest size parent rank) {motive : (n : ℕ) → n < size → Prop}
    (root : ∀ n (hn : n < size), parent n = n → motive n hn)
    (step : ∀ n (hn : n < size), parent n ≠ n → motive (parent n) (h.lt n hn) → motive n hn)
    (n : ℕ) (hn : n < size) : motive n hn := by
  induction hk : above size rank n using Nat.strong_induction_on generalizing n with
  | _ k ih =>
    by_cases hroot : parent n = n
    · exact root n hn hroot
    · exact step n hn hroot (ih _ (hk ▸ h.above_lt hn hroot) (parent n) (h.lt n hn) rfl)

theorem Forest.findRoot_root (h : Forest size parent rank) {rounds : ℕ} (hn : n < size)
    (hrounds : above size rank n ≤ rounds) :
    parent (findRoot parent rounds n) = findRoot parent rounds n := by
  induction rounds generalizing n with
  | zero =>
    by_contra hne
    have := h.above_lt hn hne
    omega
  | succ rounds ih =>
    rw [findRoot]
    split
    · next hroot => exact hroot
    · next hne =>
      have := h.above_lt hn hne
      exact ih (h.lt n hn) (by omega)

theorem Forest.findRoot_succ (h : Forest size parent rank) {rounds : ℕ} (hn : n < size)
    (hrounds : above size rank n ≤ rounds) :
    findRoot parent (rounds + 1) n = findRoot parent rounds n := by
  induction rounds generalizing n with
  | zero => exact if_pos (h.findRoot_root hn hrounds)
  | succ rounds ih =>
    rw [findRoot]
    conv_rhs => rw [findRoot]
    split
    · rfl
    · next hne =>
      have := h.above_lt hn hne
      exact ih (h.lt n hn) (by omega)

theorem Forest.root_isRoot (h : Forest size parent rank) (hn : n < size) :
    parent (findRoot parent size n) = findRoot parent size n :=
  h.findRoot_root hn (above_lt_size hn).le

theorem root_of_isRoot (hroot : parent n = n) : findRoot parent size n = n := by
  cases size with
  | zero => rfl
  | succ size => rw [findRoot, if_pos hroot]

theorem Forest.root_parent (h : Forest size parent rank) (hn : n < size) :
    findRoot parent size (parent n) = findRoot parent size n := by
  by_cases hroot : parent n = n
  · rw [hroot]
  · have hsucc := h.findRoot_succ hn (above_lt_size hn).le
    rw [← hsucc, findRoot, if_neg hroot]

theorem Forest.root_lt (h : Forest size parent rank) (hn : n < size) :
    findRoot parent size n < size := by
  induction n, hn using h.induct with
  | root n hn hroot => rwa [root_of_isRoot hroot]
  | step n hn _ ih => rwa [h.root_parent hn] at ih

/-- Union by rank. -/
def linkRank (rank : ℕ → ℕ) (ra rb : ℕ) : ℕ → ℕ :=
  if rank ra = rank rb then Function.update rank ra (rank ra + 1) else rank

theorem linkRank_le (rank : ℕ → ℕ) (ra rb m : ℕ) : rank m ≤ linkRank rank ra rb m := by
  unfold linkRank
  split
  · by_cases hm : m = ra
    · simp [hm]
    · simp [hm]
  · exact Nat.le_refl _

/-- One root is put below another one of at least its rank. -/
theorem Forest.link (h : Forest size parent rank) (ha : ra < size) (hra : parent ra = ra)
    (hrank : rank rb ≤ rank ra) (hne : ra ≠ rb) :
    Forest size (Function.update parent rb ra) (linkRank rank ra rb) where
  lt := by
    intro n hn
    by_cases hnb : n = rb
    · rw [hnb, Function.update_self]
      exact ha
    · rw [Function.update_of_ne hnb]
      exact h.lt n hn
  rank_lt := by
    intro n hn hparent
    by_cases hnb : n = rb
    · subst hnb
      rw [Function.update_self]
      unfold linkRank
      split
      · next heq =>
        rw [Function.update_self, Function.update_of_ne hne.symm]
        omega
      · omega
    · rw [Function.update_of_ne hnb] at hparent ⊢
      have hna : n ≠ ra := fun heq => hparent (heq ▸ hra)
      have hlt := h.rank_lt n hn hparent
      have hle := linkRank_le rank ra rb (parent n)
      have heq : linkRank rank ra rb n = rank n := by
        unfold linkRank
        split
        · exact Function.update_of_ne hna _ _
        · rfl
      omega

theorem Forest.root_link (h : Forest size parent rank) (ha : ra < size) (hra : parent ra = ra)
    (hrb : parent rb = rb) (hrank : rank rb ≤ rank ra) (hne : ra ≠ rb) (hn : n < size) :
    findRoot (Function.update parent rb ra) size n =
      if findRoot parent size n = rb then ra else findRoot parent size n := by
  have h' := h.link ha hra hrank hne
  induction n, hn using h.induct with
  | root n hn hroot =>
    rw [root_of_isRoot hroot]
    split
    · next hnb =>
      subst hnb
      rw [← h'.root_parent hn, Function.update_self]
      exact root_of_isRoot (by rw [Function.update_of_ne hne, hra])
    · next hnb => exact root_of_isRoot (by rw [Function.update_of_ne hnb, hroot])
  | step n hn hstep ih =>
    have hnb : n ≠ rb := fun heq => hstep (heq ▸ hrb)
    have hparent := h'.root_parent hn
    rw [Function.update_of_ne hnb] at hparent
    rw [← hparent, ih, h.root_parent hn]

/-- A path of parents. -/
inductive Below (parent : ℕ → ℕ) : ℕ → ℕ → Prop
  | refl (n : ℕ) : Below parent n n
  | step {n m : ℕ} (h : Below parent n m) : Below parent n (parent m)

theorem Below.root (h : Forest size parent rank) (hn : n < size) (hbelow : Below parent n m) :
    m < size ∧ findRoot parent size m = findRoot parent size n := by
  induction hbelow with
  | refl => exact ⟨hn, rfl⟩
  | step _ ih => exact ⟨h.lt _ ih.1, (h.root_parent ih.1).trans ih.2⟩

theorem Below.trans {k : ℕ} (h : Below parent n m) (h' : Below parent m k) : Below parent n k := by
  induction h' with
  | refl => exact h
  | step _ ih => exact .step ih

theorem Forest.below_root (h : Forest size parent rank) (hn : n < size) :
    Below parent n (findRoot parent size n) := by
  induction n, hn using h.induct with
  | root n hn hroot =>
    rw [root_of_isRoot hroot]
    exact .refl n
  | step n hn _ ih =>
    rw [h.root_parent hn] at ih
    exact (Below.step (.refl n)).trans ih

/-- Putting a root below another node lengthens paths. -/
theorem Below.link (hrb : parent rb = rb) (h : Below parent n m) :
    Below (Function.update parent rb ra) n m := by
  induction h with
  | refl => exact .refl n
  | @step m _ ih =>
    by_cases hm : m = rb
    · subst hm
      rwa [hrb]
    · have hstep := Below.step ih
      rwa [Function.update_of_ne hm] at hstep

end Thvm.RankedForests
