import Mathlib.Algebra.Order.Ring.Int
import Mathlib.Logic.Function.Basic
import Mathlib.Data.Nat.Log
import Mathlib.Tactic.Common

/-!
# Heaps in an array

The nodes of a binary tree are numbered from 1, level by level, so that the parent of `j` is
`j / 2`. Every node has an order of its own, and in a heap it is least in that order in the
tree under it. One order for all nodes gives the binary heap, two that alternate by level the
two-dimensional heap of k-d trees. A repair of a heap moves a hole through the tree: `Rising`,
`Settling` and `Sinking` say which pairs of nodes are in order while it is on its way.
-/

namespace Thvm

/-- `i` is a proper ancestor of `j`. -/
inductive Under : ℕ → ℕ → Prop
  | child {i j : ℕ} (hi : 0 < i) (h : j / 2 = i) : Under i j
  | deeper {i j : ℕ} (h : Under i (j / 2)) : Under i j

namespace Under

variable {i j k x : ℕ}

theorem pos (h : Under i j) : 0 < i := by
  induction h with
  | child hi h => exact hi
  | deeper h ih => exact ih

theorem lt (h : Under i j) : i < j := by
  induction h with
  | child hi h => omega
  | deeper h ih => omega

theorem parent (h : Under i j) : i = j / 2 ∨ Under i (j / 2) := by
  cases h with
  | child hi h => exact .inl h.symm
  | deeper h => exact .inr h

theorem trans (hij : Under i j) (hjk : Under j k) : Under i k := by
  induction hjk with
  | child hj h =>
    refine .deeper ?_
    rwa [h]
  | deeper h ih => exact .deeper ih

/-- Under `x` is a child of `x` or under one. -/
theorem step (h : Under x j) : ∃ c, (c = 2 * x ∨ c = 2 * x + 1) ∧ (c = j ∨ Under c j) := by
  induction h with
  | child hi h =>
    rename_i j
    exact ⟨j, by omega, .inl rfl⟩
  | deeper h ih =>
    rename_i j
    obtain ⟨c, hc, rfl | hcj⟩ := ih
    · exact ⟨j / 2, hc, .inr (.child (by have := h.lt; omega) rfl)⟩
    · exact ⟨c, hc, .inr (.deeper hcj)⟩

theorem left (hx : 0 < x) : Under x (2 * x) := .child hx (by omega)

theorem right (hx : 0 < x) : Under x (2 * x + 1) := .child hx (by omega)

/-- The ancestor `k + 1` levels up. -/
theorem ancestor (h : 0 < x / 2 ^ (k + 1)) : Under (x / 2 ^ (k + 1)) x := by
  induction k with
  | zero => exact .child h rfl
  | succ k ih =>
    have heq : x / 2 ^ (k + 2) = x / 2 ^ (k + 1) / 2 := by
      rw [Nat.div_div_eq_div_mul, ← Nat.pow_succ]
    have hup : Under (x / 2 ^ (k + 2)) (x / 2 ^ (k + 1)) := .child h heq.symm
    rw [heq] at h
    exact hup.trans (ih (by omega))

end Under

variable {α : Type}

def swapAt (a : ℕ → α) (i j : ℕ) : ℕ → α := fun m =>
  if m = i then a j else if m = j then a i else a m

section SwapAt

variable {a : ℕ → α} {i j m : ℕ}

@[simp] theorem swapAt_left : swapAt a i j i = a j := if_pos rfl

@[simp] theorem swapAt_right : swapAt a i j j = a i := by
  unfold swapAt
  split
  · rename_i h
    rw [h]
  · rw [if_pos rfl]

theorem swapAt_of_ne (hi : m ≠ i) (hj : m ≠ j) : swapAt a i j m = a m := by
  rw [swapAt, if_neg hi, if_neg hj]

end SwapAt

/-- For every node a total preorder, by what is strictly greater. -/
structure NodeOrder (gt : ℕ → α → α → Bool) : Prop where
  total : ∀ i a b, gt i a b = true → gt i b a = false
  trans : ∀ i a b c, gt i a b = false → gt i b c = false → gt i a c = false

/-- Node `i` is not greater than node `j`. -/
def InOrder (gt : ℕ → α → α → Bool) (a : ℕ → α) (i j : ℕ) : Prop := gt i (a i) (a j) = false

/-- From node `lo` on, every node up to `n` is least in the tree under it. -/
def HeapFrom (gt : ℕ → α → α → Bool) (a : ℕ → α) (n lo : ℕ) : Prop :=
  ∀ i j, lo ≤ i → Under i j → j ≤ n → InOrder gt a i j

abbrev IsHeap (gt : ℕ → α → α → Bool) (a : ℕ → α) (n : ℕ) : Prop := HeapFrom gt a n 1

/-- The hole `x` may be greater than what is under it. -/
def Sinking (gt : ℕ → α → α → Bool) (a : ℕ → α) (n lo x : ℕ) : Prop :=
  ∀ i j, lo ≤ i → Under i j → j ≤ n → i ≠ x → InOrder gt a i j

/-- The hole started at `x₀` and is at `x`: it may be smaller than what is over it. -/
def Rising (gt : ℕ → α → α → Bool) (a : ℕ → α) (n x x₀ : ℕ) : Prop :=
  ∀ i j, Under i j → j ≤ n → j ≠ x → i ≠ x₀ → InOrder gt a i j

/-- The hole `x` is in order with its ancestors down to the one `k + 1` levels up. -/
def Settling (gt : ℕ → α → α → Bool) (a : ℕ → α) (n x k : ℕ) : Prop :=
  ∀ i j, Under i j → j ≤ n → i ≠ x → (j ≠ x ∨ Under i (x / 2 ^ k)) → InOrder gt a i j

section Heaps

variable {gt : ℕ → α → α → Bool} {a : ℕ → α} {n lo x x₀ m k : ℕ}

theorem HeapFrom.congr {b : ℕ → α} (h : HeapFrom gt a n lo) (hab : ∀ i, 0 < i → i ≤ n → b i = a i) :
    HeapFrom gt b n lo := by
  intro i j hi hij hj
  have hlt := hij.lt
  have hpos := hij.pos
  unfold InOrder
  rw [hab i hpos (by omega), hab j (by omega) hj]
  exact h i j hi hij hj

/-- Nothing is under a node of the lower half. -/
theorem heapFrom_half (hlo : n < 2 * lo) : HeapFrom gt a n lo := by
  intro i j hi hij hj
  obtain ⟨c, hc, hcj⟩ := hij.step
  rcases hcj with rfl | hcj
  · omega
  · have := hcj.lt
    omega

theorem HeapFrom.sinking (h : HeapFrom gt a n (x + 1)) : Sinking gt a n x x :=
  fun i j hi hij hj hne => h i j (by omega) hij hj

/-- A node has been replaced: it is in order with nothing yet. -/
theorem HeapFrom.hole {b : ℕ → α} {n' : ℕ} (h : IsHeap gt a n) (hn : n' ≤ n)
    (hab : ∀ i ≤ n', 0 < i → i ≠ x → b i = a i) {i j : ℕ} (hij : Under i j) (hj : j ≤ n')
    (hi : i ≠ x) (hjx : j ≠ x) : InOrder gt b i j := by
  have hlt := hij.lt
  have hpos := hij.pos
  unfold InOrder
  rw [hab i (by omega) hpos hi, hab j hj (by omega) hjx]
  exact h i j hpos hij (by omega)

/-! ### Upwards, step by step -/

theorem Rising.swap (ho : NodeOrder gt) (hsame : ∀ i i', gt i = gt i') (hx : 1 < x) (hn : x ≤ n)
    (hx₀ : x ≤ x₀) (h : Rising gt a n x x₀) (hgt : gt x (a (x / 2)) (a x) = true) :
    Rising gt (swapAt a x (x / 2)) n (x / 2) x₀ := by
  intro i j hij hj hjp hi
  have hpx : Under (x / 2) x := .child (by omega) rfl
  have hlt := hij.lt
  unfold InOrder
  rw [hsame i x]
  by_cases hip : i = x / 2
  · subst hip
    rw [swapAt_right]
    have hle := ho.total _ _ _ hgt
    by_cases hjx : j = x
    · rw [hjx, swapAt_left]
      exact hle
    · rw [swapAt_of_ne hjx hjp]
      have hpj := h _ _ hij hj hjx hi
      rw [InOrder, hsame _ x] at hpj
      exact ho.trans _ _ _ _ hle hpj
  · by_cases hix : i = x
    · subst hix
      rw [swapAt_left, swapAt_of_ne (by omega) hjp]
      have hpj := h _ _ (hpx.trans hij) hj (by omega) (by omega)
      rwa [InOrder, hsame _ i] at hpj
    · rw [swapAt_of_ne hix hip]
      by_cases hjx : j = x
      · subst hjx
        rw [swapAt_left]
        rcases hij.parent with hparent | hparent
        · exact absurd hparent hip
        · have hold := h _ _ hparent (by omega) (by omega) hi
          rwa [InOrder, hsame _ j] at hold
      · rw [swapAt_of_ne hjx hjp]
        have hold := h _ _ hij hj hjx hi
        rwa [InOrder, hsame _ x] at hold

theorem Rising.stop (ho : NodeOrder gt) (hsame : ∀ i i', gt i = gt i') (hx₀ : x ≤ x₀) (hn : x₀ ≤ n)
    (h : Rising gt a n x x₀) (hgt : 1 < x → gt x (a (x / 2)) (a x) = false) :
    Sinking gt a n 1 x₀ := by
  intro i j _ hij hj hi
  by_cases hjx : j = x
  · subst hjx
    have hlt := hij.lt
    have hpos := hij.pos
    have hstop := hgt (by omega)
    rcases hij.parent with rfl | hparent
    · rw [InOrder, hsame _ j]
      exact hstop
    · have hold := h _ _ hparent (by omega) (by omega) hi
      rw [InOrder, hsame _ j] at hold ⊢
      exact ho.trans _ _ _ _ hold hstop
  · exact h i j hij hj hjx hi

/-! ### Upwards from the root down -/

theorem settling_root (hroot : x / 2 ^ k ≤ 1)
    (h : ∀ i j, Under i j → j ≤ n → i ≠ x → j ≠ x → InOrder gt a i j) : Settling gt a n x k := by
  rintro i j hij hj hi (hjx | hup)
  · exact h i j hij hj hi hjx
  · have hlt := hup.lt
    have hpos := hup.pos
    omega

theorem Settling.swap (ho : NodeOrder gt) (hp : 0 < x / 2 ^ (k + 1)) (hn : x ≤ n)
    (h : Settling gt a n x (k + 1))
    (hgt : gt (x / 2 ^ (k + 1)) (a (x / 2 ^ (k + 1))) (a x) = true) :
    Settling gt (swapAt a (x / 2 ^ (k + 1)) x) n x k := by
  have hpx := Under.ancestor hp
  have hplt := hpx.lt
  intro i j hij hj hi hjx
  have hlt := hij.lt
  have hdiv : x / 2 ^ k / 2 = x / 2 ^ (k + 1) := by rw [Nat.div_div_eq_div_mul, ← Nat.pow_succ]
  unfold InOrder
  by_cases hip : i = x / 2 ^ (k + 1)
  · rw [hip] at hij ⊢
    rw [swapAt_left]
    have hle := ho.total _ _ _ hgt
    by_cases hj' : j = x
    · rw [hj', swapAt_right]
      exact hle
    · rw [swapAt_of_ne (by omega) hj']
      exact ho.trans _ _ _ _ hle (h _ _ hij hj (by omega) (.inl hj'))
  · rw [swapAt_of_ne hip hi]
    by_cases hjp : j = x / 2 ^ (k + 1)
    · rw [hjp] at hij ⊢
      rw [swapAt_left]
      exact h _ _ (hij.trans hpx) hn hi (.inr hij)
    · by_cases hj' : j = x
      · subst hj'
        rw [swapAt_right]
        rcases (hjx.resolve_left fun hne => hne rfl).parent with hup | hup
        · exact absurd (hup.trans hdiv) hip
        · rw [hdiv] at hup
          exact h _ _ hup (by omega) hi (.inl (by omega))
      · rw [swapAt_of_ne hjp hj']
        exact h _ _ hij hj hi (.inl hj')

theorem Settling.skip (h : Settling gt a n x (k + 1))
    (hgt : gt (x / 2 ^ (k + 1)) (a (x / 2 ^ (k + 1))) (a x) = false) : Settling gt a n x k := by
  intro i j hij hj hi hjx
  by_cases hj' : j = x
  · subst hj'
    have hdiv : j / 2 ^ k / 2 = j / 2 ^ (k + 1) := by rw [Nat.div_div_eq_div_mul, ← Nat.pow_succ]
    rcases (hjx.resolve_left fun hne => hne rfl).parent with hup | hup
    · rw [hdiv] at hup
      rw [hup]
      exact hgt
    · rw [hdiv] at hup
      exact h _ _ hij hj hi (.inr hup)
  · exact h _ _ hij hj hi (.inl hj')

theorem Settling.sinking (h : Settling gt a n x 0) : Sinking gt a n 1 x := by
  intro i j _ hij hj hi
  refine h i j hij hj hi ?_
  by_cases hj' : j = x
  · subst hj'
    exact .inr (by rwa [Nat.pow_zero, Nat.div_one])
  · exact .inl hj'

/-! ### Downwards -/

/-- The least node under the hole goes up. -/
theorem Sinking.swap (ho : NodeOrder gt) (hm : Under x m) (hn : m ≤ n) (h : Sinking gt a n lo x)
    (hgt : gt x (a x) (a m) = true)
    (hleast : ∀ j, Under x j → j ≤ n → gt x (a m) (a j) = false) {i j : ℕ} (hlo : lo ≤ i)
    (hij : Under i j) (hj : j ≤ n) (hi : i ≠ m) (hjm : j ≠ m ∨ i = x ∨ Under i x) :
    InOrder gt (swapAt a x m) i j := by
  have hxm := hm.lt
  have hlt := hij.lt
  unfold InOrder
  by_cases hix : i = x
  · subst hix
    rw [swapAt_left]
    by_cases hj' : j = m
    · rw [hj', swapAt_right]
      exact ho.total _ _ _ hgt
    · rw [swapAt_of_ne (by omega) hj']
      exact hleast j hij hj
  · rw [swapAt_of_ne hix hi]
    by_cases hjx : j = x
    · subst hjx
      rw [swapAt_left]
      exact h _ _ hlo (hij.trans hm) hn hix
    · by_cases hj' : j = m
      · subst hj'
        rw [swapAt_right]
        rcases hjm with hne | rfl | hup
        · exact absurd rfl hne
        · exact absurd rfl hix
        · exact h _ _ hlo hup (by omega) hix
      · rw [swapAt_of_ne hjx hj']
        exact h _ _ hlo hij hj hix

theorem Sinking.swap_child (ho : NodeOrder gt) (hm : m / 2 = x) (hx : 0 < x) (hn : m ≤ n)
    (h : Sinking gt a n lo x) (hgt : gt x (a x) (a m) = true)
    (hleast : ∀ j, Under x j → j ≤ n → gt x (a m) (a j) = false) :
    Sinking gt (swapAt a x m) n lo m := by
  intro i j hlo hij hj hi
  refine h.swap ho (.child hx hm) hn hgt hleast hlo hij hj hi ?_
  by_cases hj' : j = m
  · subst hj'
    have hparent := hij.parent
    rw [hm] at hparent
    exact .inr hparent
  · exact .inl hj'

theorem Sinking.swap_grandchild (ho : NodeOrder gt) (hm : m / 2 / 2 = x) (hx : 0 < x) (hn : m ≤ n)
    (h : Sinking gt a n 1 x) (hgt : gt x (a x) (a m) = true)
    (hleast : ∀ j, Under x j → j ≤ n → gt x (a m) (a j) = false) :
    Settling gt (swapAt a x m) n m 1 := by
  intro i j hij hj hi hjm
  refine h.swap ho (.deeper (.child hx hm)) hn hgt hleast hij.pos hij hj hi ?_
  refine hjm.imp_right fun hup => ?_
  rw [Nat.pow_one] at hup
  have hparent := hup.parent
  rwa [hm] at hparent

theorem Sinking.stop (h : Sinking gt a n lo x)
    (hleast : ∀ j, Under x j → j ≤ n → gt x (a x) (a j) = false) : HeapFrom gt a n lo := by
  intro i j hlo hij hj
  by_cases hix : i = x
  · subst hix
    exact hleast j hij hj
  · exact h i j hlo hij hj hix

/-- Not greater than the children is not greater than anything under them, where the children
have the order of the node. -/
theorem Sinking.least_of_children (ho : NodeOrder gt) (h : Sinking gt a n lo x) (hlo : lo ≤ x)
    (hx : 0 < x) (hsame : ∀ c, c / 2 = x → gt c = gt x) {v : α}
    (hchildren : ∀ c, c / 2 = x → c ≤ n → gt x v (a c) = false) {j : ℕ} (hxj : Under x j)
    (hj : j ≤ n) : gt x v (a j) = false := by
  obtain ⟨c, hc, rfl | hcj⟩ := hxj.step
  · exact hchildren c (by omega) hj
  · have hlt := hcj.lt
    have hchild := hchildren c (by omega) (by omega)
    have hbelow := h c j (by omega) hcj hj (by omega)
    rw [InOrder, hsame c (by omega)] at hbelow
    exact ho.trans _ _ _ _ hchild hbelow

/-- The same over two levels, where the grandchildren have the order of the node. -/
theorem Sinking.least_of_grandchildren (ho : NodeOrder gt) (h : Sinking gt a n lo x) (hlo : lo ≤ x)
    (hx : 0 < x) (hsame : ∀ c, c / 2 / 2 = x → gt c = gt x) {v : α}
    (hnear : ∀ c, c / 2 = x ∨ c / 2 / 2 = x → c ≤ n → gt x v (a c) = false) {j : ℕ}
    (hxj : Under x j) (hj : j ≤ n) : gt x v (a j) = false := by
  obtain ⟨c, hc, rfl | hcj⟩ := hxj.step
  · exact hnear c (.inl (by omega)) hj
  · obtain ⟨g, hg, rfl | hgj⟩ := hcj.step
    · exact hnear g (.inr (by omega)) hj
    · have hlt := hgj.lt
      have hgrand := hnear g (.inr (by omega)) (by omega)
      have hbelow := h g j (by omega) hgj hj (by omega)
      rw [InOrder, hsame g (by omega)] at hbelow
      exact ho.trans _ _ _ _ hgrand hbelow

end Heaps

end Thvm
