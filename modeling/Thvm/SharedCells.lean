import Thvm.AloRealize
import Thvm.ProbeTable

/-!
# The table of shared cells

The table keeps the dynamic cell of a duplication for both projections. Read at its
current generation it is a probe table, and a reset forgets all of it.
-/

namespace Thvm.Alo
open ProbeTable

/-- The table of shared cells as a probe table; entries of old generations are free slots. -/
def sharedSlots (table : ℕ → DupShareEntry) (gen : ℕ) : Table ℕ (ℕ × ℕ) ℕ := fun slot =>
  if (table slot).gen = gen then
    some (((table slot).stateId, (table slot).bookLoc), (table slot).dynLoc)
  else none

def Runtime.shared (rt : Runtime) : Table ℕ (ℕ × ℕ) ℕ := sharedSlots rt.dupShare rt.dupShareGen

/-- The slots of a key are all taken by other keys. -/
def Runtime.Crowded (rt : Runtime) (state book : ℕ) : Prop :=
  Full rt.shared (state, book) (dupShareSlots state book)

theorem search_eq_find (table : ℕ → DupShareEntry) (gen state book : ℕ) (is : List ℕ) :
    dupShareSearch table gen state book is = find (sharedSlots table gen) (state, book) is := by
  induction is with
  | nil => rfl
  | cons i is ih =>
    unfold dupShareSearch find
    rw [ih]
    by_cases hgen : (table i).gen = gen
    · by_cases hkey : (table i).stateId = state ∧ (table i).bookLoc = book
      · simp [sharedSlots, hgen, hkey]
      · have hkey' : ¬ ((table i).stateId, (table i).bookLoc) = (state, book) := by
          simpa using hkey
        simp only [sharedSlots, hgen, if_true, Option.elim_some, if_neg hkey', if_neg hkey]
        simp
    · simp [sharedSlots, hgen]

theorem lookup_eq_find (rt : Runtime) (state book : ℕ) :
    dupShareLookup rt state book = find rt.shared (state, book) (dupShareSlots state book) :=
  search_eq_find _ _ _ _ _

theorem insert_eq_push (table : ℕ → DupShareEntry) (e : DupShareEntry) (is : List ℕ) :
    sharedSlots (dupShareInsert table e is) e.gen =
      push (sharedSlots table e.gen) (e.stateId, e.bookLoc) e.dynLoc is := by
  induction is with
  | nil => rfl
  | cons i is ih =>
    unfold dupShareInsert
    by_cases hgen : (table i).gen = e.gen
    · rw [if_neg (not_not_intro hgen), ih]
      have hfree : free (sharedSlots table e.gen) (i :: is) = free (sharedSlots table e.gen) is := by
        simp [free, sharedSlots, hgen]
      unfold push
      rw [hfree]
    · rw [if_pos hgen]
      have hfree : free (sharedSlots table e.gen) (i :: is) = some i := by
        simp [free, sharedSlots, hgen]
      rw [push_some hfree]
      funext j
      by_cases hj : j = i
      · subst hj
        simp [sharedSlots]
      · simp [sharedSlots, hj]

theorem shared_push (rt : Runtime) (state book dyn : ℕ) :
    (dupSharePush rt state book dyn).shared =
      push rt.shared (state, book) dyn (dupShareSlots state book) :=
  insert_eq_push rt.dupShare ⟨rt.dupShareGen, state, book, dyn⟩ (dupShareSlots state book)

theorem insert_gens {table : ℕ → DupShareEntry} {e : DupShareEntry}
    (h : ∀ i, (table i).gen ≤ e.gen) (is : List ℕ) (i : ℕ) :
    (dupShareInsert table e is i).gen ≤ e.gen := by
  induction is with
  | nil => exact h i
  | cons j is ih =>
    unfold dupShareInsert
    split
    · by_cases hi : i = j
      · subst hi
        simp
      · rw [Function.update_of_ne hi]
        exact h i
    · exact ih

/-- A new generation forgets every entry. -/
theorem reset_gens (rt : Runtime) (hlt : rt.dupShareGen < 2 ^ 32)
    (hgens : ∀ i, (rt.dupShare i).gen ≤ rt.dupShareGen) :
    (aloDupShareReset rt).dupShareGen < 2 ^ 32 ∧
    ∀ i, ((aloDupShareReset rt).dupShare i).gen < (aloDupShareReset rt).dupShareGen := by
  unfold aloDupShareReset
  by_cases hwrap : (rt.dupShareGen + 1) % 2 ^ 32 = 0
  · simp only [if_pos hwrap]
    exact ⟨by decide, fun _ => Nat.one_pos⟩
  · simp only [if_neg hwrap]
    refine ⟨Nat.mod_lt _ (Nat.two_pow_pos 32), fun i => ?_⟩
    have := hgens i
    omega

theorem reset_rest (rt : Runtime) : (aloDupShareReset rt).heapCap = rt.heapCap ∧
    (aloDupShareReset rt).heapNext = rt.heapNext ∧
    (aloDupShareReset rt).statesNext = rt.statesNext := by
  by_cases hwrap : (rt.dupShareGen + 1) % 2 ^ 32 = 0
  · simp only [aloDupShareReset, if_pos hwrap, and_self]
  · simp only [aloDupShareReset, if_neg hwrap, and_self]

end Thvm.Alo
