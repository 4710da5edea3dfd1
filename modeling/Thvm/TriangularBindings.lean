import Thvm.TermTrees
import Mathlib.Logic.Relation
import Mathlib.Logic.Function.Basic

/-!
# Triangular substitutions

Leaves are bound to trees whose leaves may be bound in turn. When no leaf needs
itself, the bindings have one solution that leaves the unbound leaves alone, and
every other solution factors through it.
-/

namespace Thvm.Triangular
open Relation TermTree

variable {L F : Type}

abbrev Bindings (L F : Type) := L → Option (TermTree L F)

variable {β : Bindings L F} {θ : L → TermTree L F} {x y : L} {t : TermTree L F}

/-- `y` occurs in the tree that `x` is bound to. -/
def Needs (β : Bindings L F) (y x : L) : Prop := ∃ t, β x = some t ∧ y ∈ t.leaves

def Acyclic (β : Bindings L F) : Prop := WellFounded (Needs β)

def Solves (θ : L → TermTree L F) (β : Bindings L F) : Prop :=
  ∀ x t, β x = some t → θ x = t.subst θ

theorem acyclic_empty : Acyclic (fun _ => none : Bindings L F) := by
  constructor
  intro x
  constructor
  rintro y ⟨t, ht, -⟩
  cases ht

/-- Induction on a tree whose bound leaves are replaced by what they are bound to. -/
theorem Acyclic.induct (h : Acyclic β) {motive : TermTree L F → Prop}
    (unbound : ∀ x, β x = none → motive (.leaf x))
    (bound : ∀ x t, β x = some t → motive t → motive (.leaf x))
    (node : ∀ f args, (∀ a ∈ args, motive a) → motive (.node f args)) (t : TermTree L F) :
    motive t := by
  have spread : ∀ t : TermTree L F, (∀ y ∈ t.leaves, motive (.leaf y)) → motive t := by
    intro t ht
    induction t with
    | leaf l => exact ht l (List.mem_singleton_self l)
    | node f args ih =>
      apply node
      intro a ha
      exact ih a ha fun y hy => ht y (mem_leaves_node.mpr ⟨a, ha, hy⟩)
  apply spread
  intro x hmem
  clear hmem
  induction x using h.induction with
  | _ x ih =>
    cases hx : β x with
    | none => exact unbound x hx
    | some u =>
      apply bound x u hx
      apply spread
      intro y hy
      exact ih y ⟨u, hx, hy⟩

theorem exists_solution (h : Acyclic β) :
    ∃ θ, Solves θ β ∧ ∀ x, β x = none → θ x = .leaf x := by
  classical
  let step : (x : L) → ((y : L) → Needs β y x → TermTree L F) → TermTree L F := fun x rec =>
    (β x).elim (.leaf x) fun t => t.subst fun y => if hy : Needs β y x then rec y hy else .leaf y
  refine ⟨h.fix step, ?_, ?_⟩
  · intro x t hx
    rw [h.fix_eq]
    simp only [step, hx, Option.elim]
    apply subst_congr
    intro y hy
    rw [dif_pos ⟨t, hx, hy⟩]
  · intro x hx
    rw [h.fix_eq]
    simp only [step, hx, Option.elim]

/-- The solution that leaves the unbound leaves alone. -/
noncomputable def resolve (β : Bindings L F) (h : Acyclic β) : L → TermTree L F :=
  (exists_solution h).choose

theorem solves_resolve (h : Acyclic β) : Solves (resolve β h) β := (exists_solution h).choose_spec.1

theorem resolve_bound (h : Acyclic β) (hx : β x = some t) :
    resolve β h x = t.subst (resolve β h) := solves_resolve h x t hx

theorem resolve_unbound (h : Acyclic β) (hx : β x = none) : resolve β h x = .leaf x :=
  (exists_solution h).choose_spec.2 x hx

theorem subst_resolve_subst (h : Acyclic β) (hθ : Solves θ β) (t : TermTree L F) :
    (t.subst (resolve β h)).subst θ = t.subst θ := by
  induction t using h.induct with
  | unbound x hx => rw [subst_leaf, resolve_unbound h hx, subst_leaf]
  | bound x u hx ih => rw [subst_leaf, resolve_bound h hx, ih, subst_leaf, hθ x u hx]
  | node f args ih =>
    simp only [subst_node, List.map_map]
    congr 1
    apply List.map_congr_left
    intro a ha
    exact ih a ha

/-- The leaves of the resolved tree are the unbound ones that the tree needs. -/
theorem mem_leaves_resolve (h : Acyclic β) :
    x ∈ (t.subst (resolve β h)).leaves ↔
      β x = none ∧ ∃ y ∈ t.leaves, ReflTransGen (Needs β) x y := by
  induction t using h.induct with
  | unbound y hy =>
    rw [subst_leaf, resolve_unbound h hy]
    constructor
    · intro hx
      obtain rfl := List.mem_singleton.mp hx
      exact ⟨hy, x, List.mem_singleton_self x, .refl⟩
    · rintro ⟨-, z, hz, hreach⟩
      obtain rfl := List.mem_singleton.mp hz
      rcases hreach.cases_tail with rfl | ⟨w, -, u, hu, -⟩
      · exact List.mem_singleton_self _
      · rw [hy] at hu
        cases hu
  | bound y u hy ih =>
    rw [subst_leaf, resolve_bound h hy, ih]
    constructor
    · rintro ⟨hx, z, hz, hreach⟩
      exact ⟨hx, y, List.mem_singleton_self y, hreach.tail ⟨u, hy, hz⟩⟩
    · rintro ⟨hx, z, hz, hreach⟩
      obtain rfl := List.mem_singleton.mp hz
      rcases hreach.cases_tail with rfl | ⟨w, hw, u', hu', hmem⟩
      · rw [hx] at hy
        cases hy
      · rw [hy] at hu'
        obtain rfl := Option.some.inj hu'
        exact ⟨hx, w, hmem, hw⟩
  | node f args ih =>
    rw [subst_node, mem_leaves_node]
    constructor
    · rintro ⟨b, hb, hx⟩
      obtain ⟨a, ha, rfl⟩ := List.mem_map.mp hb
      obtain ⟨hx, y, hy, hreach⟩ := (ih a ha).mp hx
      exact ⟨hx, y, mem_leaves_node.mpr ⟨a, ha, hy⟩, hreach⟩
    · rintro ⟨hx, y, hy, hreach⟩
      obtain ⟨a, ha, hy⟩ := mem_leaves_node.mp hy
      exact ⟨a.subst (resolve β h), List.mem_map_of_mem ha, (ih a ha).mpr ⟨hx, y, hy, hreach⟩⟩

variable [DecidableEq L]

theorem solves_bind (hx : β x = none) :
    Solves θ (Function.update β x (some t)) ↔ Solves θ β ∧ θ x = t.subst θ := by
  constructor
  · intro h
    constructor
    · intro y u hu
      apply h y u
      rw [Function.update_of_ne, hu]
      rintro rfl
      rw [hx] at hu
      cases hu
    · apply h x t
      exact Function.update_self ..
  · rintro ⟨h, hxt⟩ y u hu
    by_cases hyx : y = x
    · subst hyx
      rw [Function.update_self] at hu
      obtain rfl := Option.some.inj hu
      exact hxt
    · rw [Function.update_of_ne hyx] at hu
      exact h y u hu

/-- The occurs check keeps the bindings acyclic. -/
theorem Acyclic.bind (h : Acyclic β) (hx : β x = none) (hoccurs : x ∉ (t.subst (resolve β h)).leaves) :
    Acyclic (Function.update β x (some t)) := by
  have away : ∀ y, ¬ ReflTransGen (Needs β) x y →
      Acc (Needs (Function.update β x (some t))) y := by
    intro y
    induction y using h.induction with
    | _ y ih =>
      intro hy
      constructor
      rintro z ⟨u, hu, hz⟩
      have hyx : y ≠ x := by
        rintro rfl
        exact hy .refl
      rw [Function.update_of_ne hyx] at hu
      apply ih z ⟨u, hu, hz⟩
      intro hreach
      exact hy (hreach.tail ⟨u, hu, hz⟩)
  have self : Acc (Needs (Function.update β x (some t))) x := by
    constructor
    rintro z ⟨u, hu, hz⟩
    rw [Function.update_self] at hu
    obtain rfl := Option.some.inj hu
    apply away
    intro hreach
    exact hoccurs ((mem_leaves_resolve h).mpr ⟨hx, z, hz, hreach⟩)
  constructor
  intro y
  induction y using h.induction with
  | _ y ih =>
    by_cases hyx : y = x
    · rw [hyx]
      exact self
    · constructor
      rintro z ⟨u, hu, hz⟩
      rw [Function.update_of_ne hyx] at hu
      exact ih z ⟨u, hu, hz⟩

omit [DecidableEq L] in
/-- A leaf below a node cannot be made equal to the node. -/
theorem subst_leaf_ne {f : F} {args : List (TermTree L F)} (hx : x ∈ (node f args).leaves) :
    θ x ≠ (node f args).subst θ := by
  obtain ⟨a, ha, hxa⟩ := mem_leaves_node.mp hx
  intro heq
  have hle : (θ x).size ≤ (a.subst θ).size := size_subst_le hxa
  have hlt : (a.subst θ).size < (node f (args.map (subst θ))).size :=
    size_lt f (List.mem_map_of_mem ha)
  rw [heq, subst_node] at hle
  omega

end Thvm.Triangular
