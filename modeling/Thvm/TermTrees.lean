import Mathlib.Algebra.Order.Ring.Int
import Mathlib.Data.List.Basic
import Mathlib.Data.List.Count
import Mathlib.Algebra.Order.BigOperators.Group.List
import Mathlib.Algebra.Order.Group.Nat
import Mathlib.Tactic.Common

/-!
# Trees with substitution

Finite trees over a type of leaves and a type of node labels. Leaves play the part
of variables: a substitution puts a tree in the place of every leaf.
-/

namespace Thvm

inductive TermTree (L F : Type) where
  | leaf (l : L)
  | node (f : F) (args : List (TermTree L F))

namespace TermTree

variable {L L' L'' F G : Type}

/-- Induction with one hypothesis for each argument. -/
@[elab_as_elim, induction_eliminator]
theorem induct {motive : TermTree L F → Prop} (leaf : ∀ l, motive (.leaf l))
    (node : ∀ f args, (∀ a ∈ args, motive a) → motive (.node f args)) (t : TermTree L F) :
    motive t := by
  apply @TermTree.rec L F motive fun args => ∀ a ∈ args, motive a
  · exact leaf
  · exact node
  · intro a ha
    cases ha
  · intro head tail hhead htail a ha
    rcases List.mem_cons.mp ha with rfl | ha
    · exact hhead
    · exact htail a ha

mutual

def decEq [DecidableEq L] [DecidableEq F] : (s t : TermTree L F) → Decidable (s = t)
  | .leaf l, .leaf l' => if h : l = l' then .isTrue (by rw [h]) else .isFalse (by simp [h])
  | .leaf _, .node _ _ => .isFalse (by simp)
  | .node _ _, .leaf _ => .isFalse (by simp)
  | .node f as, .node g bs =>
    if h : f = g then
      match decEqList as bs with
      | .isTrue h' => .isTrue (by rw [h, h'])
      | .isFalse h' => .isFalse (by simp [h'])
    else .isFalse (by simp [h])

def decEqList [DecidableEq L] [DecidableEq F] : (as bs : List (TermTree L F)) → Decidable (as = bs)
  | [], [] => .isTrue rfl
  | [], _ :: _ => .isFalse (by simp)
  | _ :: _, [] => .isFalse (by simp)
  | a :: as, b :: bs =>
    match decEq a b, decEqList as bs with
    | .isTrue h, .isTrue h' => .isTrue (by rw [h, h'])
    | .isFalse h, _ => .isFalse (by simp [h])
    | _, .isFalse h' => .isFalse (by simp [h'])

end

instance [DecidableEq L] [DecidableEq F] : DecidableEq (TermTree L F) := decEq

mutual

def size : TermTree L F → ℕ
  | .leaf _ => 1
  | .node _ args => 1 + sizeList args

def sizeList : List (TermTree L F) → ℕ
  | [] => 0
  | a :: as => size a + sizeList as

end

mutual

/-- The leaves from left to right, one for each occurrence. -/
def leaves : TermTree L F → List L
  | .leaf l => [l]
  | .node _ args => leavesList args

def leavesList : List (TermTree L F) → List L
  | [] => []
  | a :: as => leaves a ++ leavesList as

end

mutual

def subst (θ : L → TermTree L' F) : TermTree L F → TermTree L' F
  | .leaf l => θ l
  | .node f args => .node f (substList θ args)

def substList (θ : L → TermTree L' F) : List (TermTree L F) → List (TermTree L' F)
  | [] => []
  | a :: as => subst θ a :: substList θ as

end

mutual

/-- New labels on the nodes. -/
def relabel (φ : F → G) : TermTree L F → TermTree L G
  | .leaf l => .leaf l
  | .node f args => .node (φ f) (relabelList φ args)

def relabelList (φ : F → G) : List (TermTree L F) → List (TermTree L G)
  | [] => []
  | a :: as => relabel φ a :: relabelList φ as

end

theorem sizeList_eq (as : List (TermTree L F)) : sizeList as = (as.map size).sum := by
  induction as with
  | nil => rfl
  | cons a as ih => simp [sizeList, ih]

@[simp] theorem size_leaf (l : L) : (leaf l : TermTree L F).size = 1 := rfl

theorem size_node (f : F) (args : List (TermTree L F)) :
    (node f args).size = 1 + (args.map size).sum := by
  rw [size, sizeList_eq]

theorem size_pos (t : TermTree L F) : 0 < t.size := by
  cases t with
  | leaf l => exact Nat.one_pos
  | node f args =>
    rw [size_node]
    omega

theorem size_le_sum {a : TermTree L F} {args : List (TermTree L F)} (h : a ∈ args) :
    a.size ≤ (args.map size).sum :=
  List.single_le_sum (fun _ _ => Nat.zero_le _) _ (List.mem_map_of_mem h)

theorem size_lt {a : TermTree L F} {args : List (TermTree L F)} (f : F) (h : a ∈ args) :
    a.size < (node f args).size := by
  have := size_le_sum h
  rw [size_node]
  omega

theorem mem_leavesList {l : L} {args : List (TermTree L F)} :
    l ∈ leavesList args ↔ ∃ a ∈ args, l ∈ a.leaves := by
  induction args with
  | nil => simp [leavesList]
  | cons a as ih => simp [leavesList, ih]

theorem leavesList_eq (args : List (TermTree L F)) : leavesList args = args.flatMap leaves := by
  induction args with
  | nil => rfl
  | cons a as ih => simp [leavesList, ih]

@[simp] theorem leaves_leaf (l : L) : (leaf l : TermTree L F).leaves = [l] := rfl

@[simp] theorem mem_leaves_node {l : L} {f : F} {args : List (TermTree L F)} :
    l ∈ (node f args).leaves ↔ ∃ a ∈ args, l ∈ a.leaves := mem_leavesList

@[simp] theorem substList_eq (θ : L → TermTree L' F) (as : List (TermTree L F)) :
    substList θ as = as.map (subst θ) := by
  induction as with
  | nil => rfl
  | cons a as ih => simp [substList, ih]

@[simp] theorem subst_leaf (θ : L → TermTree L' F) (l : L) : (leaf l).subst θ = θ l := rfl

@[simp] theorem subst_node (θ : L → TermTree L' F) (f : F) (args : List (TermTree L F)) :
    (node f args).subst θ = node f (args.map (subst θ)) := by
  rw [subst, substList_eq]

@[simp] theorem relabelList_eq (φ : F → G) (as : List (TermTree L F)) :
    relabelList φ as = as.map (relabel φ) := by
  induction as with
  | nil => rfl
  | cons a as ih => simp [relabelList, ih]

@[simp] theorem relabel_leaf (φ : F → G) (l : L) : (leaf l).relabel φ = leaf l := rfl

@[simp] theorem relabel_node (φ : F → G) (f : F) (args : List (TermTree L F)) :
    (node f args).relabel φ = node (φ f) (args.map (relabel φ)) := by
  rw [relabel, relabelList_eq]

theorem subst_congr {θ η : L → TermTree L' F} {t : TermTree L F}
    (h : ∀ l ∈ t.leaves, θ l = η l) : t.subst θ = t.subst η := by
  induction t with
  | leaf l => exact h l (List.mem_singleton_self l)
  | node f args ih =>
    rw [subst_node, subst_node]
    congr 1
    apply List.map_congr_left
    intro a ha
    exact ih a ha fun l hl => h l (mem_leaves_node.mpr ⟨a, ha, hl⟩)

theorem subst_subst (θ : L → TermTree L' F) (η : L' → TermTree L'' F) (t : TermTree L F) :
    (t.subst θ).subst η = t.subst fun l => (θ l).subst η := by
  induction t with
  | leaf l => rfl
  | node f args ih =>
    simp only [subst_node, List.map_map]
    congr 1
    apply List.map_congr_left
    intro a ha
    exact ih a ha

@[simp] theorem subst_id (t : TermTree L F) : t.subst leaf = t := by
  induction t with
  | leaf l => rfl
  | node f args ih =>
    rw [subst_node]
    congr 1
    exact (List.map_congr_left ih).trans (List.map_id _)

theorem mem_leaves_subst {θ : L → TermTree L' F} {t : TermTree L F} {l' : L'} :
    l' ∈ (t.subst θ).leaves ↔ ∃ l ∈ t.leaves, l' ∈ (θ l).leaves := by
  induction t with
  | leaf l => simp
  | node f args ih =>
    rw [subst_node, mem_leaves_node]
    constructor
    · rintro ⟨b, hb, hl'⟩
      obtain ⟨a, ha, rfl⟩ := List.mem_map.mp hb
      obtain ⟨l, hl, hl'⟩ := (ih a ha).mp hl'
      exact ⟨l, mem_leaves_node.mpr ⟨a, ha, hl⟩, hl'⟩
    · rintro ⟨l, hl, hl'⟩
      obtain ⟨a, ha, hl⟩ := mem_leaves_node.mp hl
      exact ⟨a.subst θ, List.mem_map_of_mem ha, (ih a ha).mpr ⟨l, hl, hl'⟩⟩

theorem leaves_node (f : F) (args : List (TermTree L F)) :
    (node f args).leaves = args.flatMap leaves := by
  rw [leaves, leavesList_eq]

theorem leaves_subst (θ : L → TermTree L' F) (t : TermTree L F) :
    (t.subst θ).leaves = t.leaves.flatMap fun l => (θ l).leaves := by
  induction t with
  | leaf l => simp
  | node f args ih =>
    rw [subst_node, leaves_node, leaves_node, List.flatMap_map, List.flatMap_assoc]
    exact List.flatMap_congr ih

/-- A leaf of a tree is put into it as a whole. -/
theorem size_subst_le {θ : L → TermTree L' F} {t : TermTree L F} {l : L} (h : l ∈ t.leaves) :
    (θ l).size ≤ (t.subst θ).size := by
  induction t with
  | leaf l' =>
    obtain rfl := List.mem_singleton.mp h
    exact Nat.le_refl _
  | node f args ih =>
    obtain ⟨a, ha, hl⟩ := mem_leaves_node.mp h
    rw [subst_node]
    have := size_lt f (List.mem_map_of_mem (f := subst θ) ha)
    have := ih a ha hl
    omega

/-- An instance is as large as the tree. -/
theorem size_le_subst (θ : L → TermTree L' F) (t : TermTree L F) : t.size ≤ (t.subst θ).size := by
  induction t with
  | leaf l => exact size_pos _
  | node f args ih =>
    rw [subst_node, size_node, size_node, List.map_map]
    exact Nat.add_le_add_left (List.sum_le_sum ih) 1

/-- Every node satisfies a condition on its label and the number of its arguments. -/
inductive Every (P : F → ℕ → Prop) : TermTree L F → Prop
  | leaf (l : L) : Every P (leaf l)
  | node {f : F} {args : List (TermTree L F)} (hnode : P f args.length)
      (hargs : ∀ a ∈ args, Every P a) : Every P (node f args)

variable {P : F → ℕ → Prop}

theorem every_node {f : F} {args : List (TermTree L F)} :
    Every P (node f args) ↔ P f args.length ∧ ∀ a ∈ args, Every P a := by
  constructor
  · rintro (_ | ⟨hnode, hargs⟩)
    exact ⟨hnode, hargs⟩
  · rintro ⟨hnode, hargs⟩
    exact .node hnode hargs

mutual

def decEvery [inst : ∀ f n, Decidable (P f n)] : (t : TermTree L F) → Decidable (Every P t)
  | .leaf l => .isTrue (.leaf l)
  | .node f args =>
    match inst f args.length, decEveryList args with
    | .isTrue h, .isTrue h' => .isTrue (.node h h')
    | .isFalse h, _ => .isFalse fun h' => h (every_node.mp h').1
    | _, .isFalse h => .isFalse fun h' => h (every_node.mp h').2

def decEveryList [∀ f n, Decidable (P f n)] :
    (args : List (TermTree L F)) → Decidable (∀ a ∈ args, Every P a)
  | [] => .isTrue fun _ h => nomatch h
  | a :: as =>
    match decEvery a, decEveryList as with
    | .isTrue h, .isTrue h' => .isTrue (List.forall_mem_cons.mpr ⟨h, h'⟩)
    | .isFalse h, _ => .isFalse fun h' => h (List.forall_mem_cons.mp h').1
    | _, .isFalse h => .isFalse fun h' => h (List.forall_mem_cons.mp h').2

end

instance [∀ f n, Decidable (P f n)] (t : TermTree L F) : Decidable (Every P t) := decEvery t

theorem Every.subst {θ : L → TermTree L' F} {t : TermTree L F} (h : Every P t)
    (hθ : ∀ l ∈ t.leaves, Every P (θ l)) : Every P (t.subst θ) := by
  induction h with
  | leaf l => exact hθ l (List.mem_singleton_self l)
  | node hnode hargs ih =>
    rw [subst_node]
    refine .node (by simpa using hnode) fun b hb => ?_
    obtain ⟨a, ha, rfl⟩ := List.mem_map.mp hb
    exact ih a ha fun l hl => hθ l (mem_leaves_node.mpr ⟨a, ha, hl⟩)

end TermTree

end Thvm
