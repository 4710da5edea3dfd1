import Mathlib.Algebra.Group.Basic
import Mathlib.Algebra.Group.Pi.Basic
import Mathlib.Tactic.Common

/-!
# Updates that add an amount of their own

An update of a sum that adds the same amount whatever has been added before. A list of such
updates leads to the same sum in every order.
-/

namespace Thvm.AddingUp

variable {ι M : Type} [AddCommMonoid M] {u v : M → M}

def Adds (u : M → M) : Prop := ∀ g, u g = g + u 0

theorem Adds.id : Adds (fun g : M => g) := fun g => (add_zero g).symm

theorem Adds.add (a : M) : Adds fun g => g + a := fun g => congrArg (g + ·) (zero_add a).symm

theorem Adds.comp (hv : Adds v) (hu : Adds u) : Adds fun g => v (u g) := fun g =>
  calc v (u g) = g + u 0 + v 0 := by rw [hv (u g), hu g]
    _ = g + v (u 0) := by rw [hv (u 0), add_assoc]

theorem Adds.ite {p : Prop} [Decidable p] (hu : Adds u) (hv : Adds v) :
    Adds fun g => if p then u g else v g := by
  by_cases h : p
  · simpa [h] using hu
  · simpa [h] using hv

/-- At one place of a family. -/
theorem Adds.single {ι : Type} [DecidableEq ι] (i : ι) (a : M) :
    Adds fun (g : ι → M) m => if m = i then g i + a else g m := fun g => by
  funext m
  by_cases h : m = i
  · subst h
    simp
  · simp [h]

theorem Adds.comm (hu : Adds u) (hv : Adds v) (g : M) : u (v g) = v (u g) :=
  calc u (v g) = g + v 0 + u 0 := by rw [hu (v g), hv g]
    _ = g + u 0 + v 0 := add_right_comm g (v 0) (u 0)
    _ = v (u g) := by rw [hv (u g), hu g]

theorem Adds.foldl {f : ι → M → M} {l : List ι} (h : ∀ i ∈ l, Adds (f i)) :
    Adds fun g => l.foldl (fun g i => f i g) g := by
  induction l with
  | nil => exact .id
  | cons i l ih =>
    exact (ih fun j hj => h j (List.mem_cons_of_mem i hj)).comp (h i List.mem_cons_self)

/-- The order of the updates does not matter. -/
theorem foldl_perm {f : ι → M → M} {l l' : List ι} (h : ∀ i, Adds (f i)) (hperm : l.Perm l')
    (g : M) : l.foldl (fun g i => f i g) g = l'.foldl (fun g i => f i g) g :=
  hperm.foldl_eq' (fun i _ j _ g => (h j).comm (h i) g) g

end Thvm.AddingUp
