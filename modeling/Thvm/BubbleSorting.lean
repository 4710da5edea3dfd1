import Mathlib.Data.List.Sort
import Mathlib.Tactic.Common

/-!
# Bubble sort

Passes of exchanges between neighbours, each pass one place shorter than the one before. When
the comparison is that of keys in a linear order, the keys of the result depend only on the bag
of keys.
-/

namespace Thvm.BubbleSorting

variable {α β κ : Type} {gt : α → α → Bool}

/-- `for (j = 0; j < k; j++) if (gt (l[j], l[j + 1])) swap`. -/
def bubble (gt : α → α → Bool) : ℕ → List α → List α
  | k + 1, a :: b :: l => if gt a b then b :: bubble gt k (a :: l) else a :: bubble gt k (b :: l)
  | _, l => l

/-- The passes from the one with `k` exchanges on. -/
def passes (gt : α → α → Bool) : ℕ → List α → List α
  | 0, l => l
  | k + 1, l => passes gt k (bubble gt (k + 1) l)

def bubbleSort (gt : α → α → Bool) (l : List α) : List α := passes gt (l.length - 1) l

theorem bubble_perm (gt : α → α → Bool) (k : ℕ) (l : List α) : (bubble gt k l).Perm l := by
  induction k generalizing l with
  | zero => exact .refl l
  | succ k ih =>
    match l with
    | [] => exact .refl []
    | [a] => exact .refl [a]
    | a :: b :: l =>
      rw [bubble]
      split
      · exact ((ih (a :: l)).cons b).trans (.swap a b l)
      · exact (ih (b :: l)).cons a

theorem passes_perm (gt : α → α → Bool) (k : ℕ) (l : List α) : (passes gt k l).Perm l := by
  induction k generalizing l with
  | zero => exact .refl l
  | succ k ih => exact (ih _).trans (bubble_perm gt (k + 1) l)

theorem bubbleSort_perm (gt : α → α → Bool) (l : List α) : (bubbleSort gt l).Perm l :=
  passes_perm gt _ l

section Keys

variable [LinearOrder κ] {key : α → κ} {l xs ys : List α} {k : ℕ}

/-- On the elements of the list the comparison is that of their keys. -/
def Compares (gt : α → α → Bool) (key : α → κ) (l : List α) : Prop :=
  ∀ a ∈ l, ∀ b ∈ l, gt a b = true ↔ key b < key a

theorem Compares.of_subset (h : Compares gt key l) (hsub : xs ⊆ l) : Compares gt key xs :=
  fun a ha b hb => h a (hsub ha) b (hsub hb)

/-- A pass takes the greatest of the elements it looks at to their end. -/
theorem bubble_append (hlen : xs.length = k + 1) (h : Compares gt key xs) :
    ∃ zs m, (∀ ys, bubble gt k (xs ++ ys) = zs ++ m :: ys) ∧ (zs ++ [m]).Perm xs ∧
      ∀ z ∈ zs, key z ≤ key m := by
  induction k generalizing xs with
  | zero =>
    obtain ⟨a, rfl⟩ := List.length_eq_one_iff.mp hlen
    exact ⟨[], a, fun _ => rfl, .refl _, fun _ h => nomatch h⟩
  | succ k ih =>
    match xs with
    | a :: b :: l =>
      have hlen' : l.length = k := by simpa using hlen
      by_cases hgt : gt a b = true
      · obtain ⟨zs, m, hrun, hperm, hmax⟩ := ih (show (a :: l).length = k + 1 by simp [hlen'])
          (h.of_subset fun x hx => by
            rcases List.mem_cons.mp hx with rfl | hx
            · exact List.mem_cons_self
            · exact List.mem_cons_of_mem _ (List.mem_cons_of_mem _ hx))
        refine ⟨b :: zs, m, fun ys => ?_, ?_, fun z hz => ?_⟩
        · rw [List.cons_append, List.cons_append, bubble, if_pos hgt, ← List.cons_append, hrun]
          rfl
        · exact (hperm.cons b).trans (.swap a b l)
        · rcases List.mem_cons.mp hz with rfl | hz
          · -- the element moved down is below the one moved up
            have hlt := (h a List.mem_cons_self z
              (List.mem_cons_of_mem _ List.mem_cons_self)).mp hgt
            have ha : a ∈ zs ++ [m] := hperm.mem_iff.mpr List.mem_cons_self
            rcases List.mem_append.mp ha with ha | ha
            · exact hlt.le.trans (hmax a ha)
            · rw [List.mem_singleton.mp ha] at hlt
              exact hlt.le
          · exact hmax z hz
      · obtain ⟨zs, m, hrun, hperm, hmax⟩ := ih (show (b :: l).length = k + 1 by simp [hlen'])
          (h.of_subset (List.subset_cons_self _ _))
        refine ⟨a :: zs, m, fun ys => ?_, hperm.cons a, fun z hz => ?_⟩
        · rw [List.cons_append, List.cons_append, bubble, if_neg hgt, ← List.cons_append, hrun]
          rfl
        · rcases List.mem_cons.mp hz with rfl | hz
          · have hle := not_lt.mp fun hlt => hgt ((h z List.mem_cons_self b
              (List.mem_cons_of_mem _ List.mem_cons_self)).mpr hlt)
            have hb : b ∈ zs ++ [m] := hperm.mem_iff.mpr List.mem_cons_self
            rcases List.mem_append.mp hb with hb | hb
            · exact hle.trans (hmax b hb)
            · rwa [List.mem_singleton.mp hb] at hle
          · exact hmax z hz

/-- Behind the elements that are left the list is sorted. -/
theorem passes_sorted (hlen : xs.length = k + 1) (h : Compares gt key xs)
    (hys : ys.Pairwise fun a b => key a ≤ key b) (hle : ∀ x ∈ xs, ∀ y ∈ ys, key x ≤ key y) :
    (passes gt k (xs ++ ys)).Pairwise fun a b => key a ≤ key b := by
  induction k generalizing xs ys with
  | zero =>
    obtain ⟨a, rfl⟩ := List.length_eq_one_iff.mp hlen
    exact List.pairwise_cons.mpr ⟨hle a List.mem_cons_self, hys⟩
  | succ k ih =>
    obtain ⟨zs, m, hrun, hperm, hmax⟩ := bubble_append hlen h
    have hmem (z) (hz : z ∈ zs ++ [m]) : z ∈ xs := hperm.mem_iff.mp hz
    have hm := hmem m (List.mem_append_right _ (List.mem_singleton_self m))
    have hlen' := hperm.length_eq
    rw [List.length_append, List.length_singleton, hlen] at hlen'
    rw [passes, hrun]
    refine ih (Nat.succ.inj hlen') (h.of_subset fun z hz => hmem z (List.mem_append_left _ hz))
      (List.pairwise_cons.mpr ⟨hle m hm, hys⟩) fun x hx y hy => ?_
    rcases List.mem_cons.mp hy with rfl | hy
    · exact hmax x hx
    · exact hle x (hmem x (List.mem_append_left _ hx)) y hy

theorem bubbleSort_sorted (h : Compares gt key l) :
    (bubbleSort gt l).Pairwise fun a b => key a ≤ key b := by
  match l with
  | [] => exact .nil
  | a :: l =>
    have hsorted := passes_sorted (show (a :: l).length = l.length + 1 from rfl) h .nil
      fun _ _ _ hy => nomatch hy
    rwa [List.append_nil] at hsorted

/-- Lists with the same bag of keys are sorted into the same list of keys. -/
theorem map_bubbleSort_eq {gt' : β → β → Bool} {key' : β → κ} {l' : List β}
    (h : Compares gt key l) (h' : Compares gt' key' l') (hkeys : (l.map key).Perm (l'.map key')) :
    (bubbleSort gt l).map key = (bubbleSort gt' l').map key' := by
  have hperm : ((bubbleSort gt l).map key).Perm ((bubbleSort gt' l').map key') :=
    ((bubbleSort_perm gt l).map key).trans (hkeys.trans ((bubbleSort_perm gt' l').map key').symm)
  exact hperm.eq_of_pairwise' (List.pairwise_map.mpr (bubbleSort_sorted h))
    (List.pairwise_map.mpr (bubbleSort_sorted h'))

end Keys

end Thvm.BubbleSorting
