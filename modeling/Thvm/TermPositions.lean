import Thvm.TermTrees

/-!
# Positions in trees

A position is a path of argument indices. A tree is read and changed at a position.
-/

namespace Thvm.TermTree

variable {L L' F : Type} {s t u r : TermTree L F} {i : ℕ} {p q : List ℕ}

/-- The subtree at a position. -/
def sub : TermTree L F → List ℕ → Option (TermTree L F)
  | t, [] => some t
  | .leaf _, _ :: _ => none
  | .node _ args, i :: p => args[i]?.bind fun a => sub a p

/-- The tree with another subtree at a position. -/
def put : TermTree L F → List ℕ → TermTree L F → TermTree L F
  | _, [], r => r
  | .leaf l, _ :: _, _ => .leaf l
  | .node f args, i :: p, r => .node f (args.modify i fun a => put a p r)

@[simp] theorem sub_nil (t : TermTree L F) : t.sub [] = some t := by
  cases t <;> rfl

@[simp] theorem put_nil (t r : TermTree L F) : t.put [] r = r := by
  cases t <;> rfl

theorem sub_cons {s : TermTree L F} :
    t.sub (i :: p) = some s ↔ ∃ f args a, t = node f args ∧ args[i]? = some a ∧ a.sub p = some s := by
  cases t with
  | leaf l => simp [sub]
  | node f args => simp [sub, Option.bind_eq_some_iff]

theorem sub_append (t : TermTree L F) (p q : List ℕ) :
    t.sub (p ++ q) = (t.sub p).bind fun a => a.sub q := by
  induction p generalizing t with
  | nil => simp
  | cons i p ih =>
    cases t with
    | leaf l => rfl
    | node f args =>
      simp only [List.cons_append, sub, Option.bind_assoc]
      congr 1
      funext a
      exact ih a

/-- Changes of an argument that agree on it. -/
theorem modify_congr {α : Type} {l : List α} {a : α} {f g : α → α} (ha : l[i]? = some a)
    (hfg : f a = g a) : l.modify i f = l.modify i g := by
  apply List.ext_getElem?
  intro j
  rw [List.getElem?_modify, List.getElem?_modify]
  split
  · next hij =>
    subst hij
    rw [ha]
    exact congrArg some hfg
  · rfl

theorem put_append (t : TermTree L F) (p q : List ℕ) (r : TermTree L F) (h : t.sub p = some s) :
    t.put (p ++ q) r = t.put p (s.put q r) := by
  induction p generalizing t with
  | nil =>
    obtain rfl : t = s := by simpa using h
    simp
  | cons i p ih =>
    obtain ⟨f, args, a, rfl, ha, hs⟩ := sub_cons.1 h
    simp only [List.cons_append, put, node.injEq, true_and]
    exact modify_congr ha (ih a hs)

theorem sub_put (h : t.sub p = some s) (r : TermTree L F) : (t.put p r).sub p = some r := by
  induction p generalizing t with
  | nil => simp
  | cons i p ih =>
    obtain ⟨f, args, a, rfl, ha, hs⟩ := sub_cons.1 h
    simp [put, sub, ha, ih hs]

theorem sub_subst (θ : L → TermTree L' F) (h : t.sub p = some s) :
    (t.subst θ).sub p = some (s.subst θ) := by
  induction p generalizing t with
  | nil =>
    obtain rfl : t = s := by simpa using h
    simp
  | cons i p ih =>
    obtain ⟨f, args, a, rfl, ha, hs⟩ := sub_cons.1 h
    simp [sub, ha, ih hs]

theorem put_subst (θ : L → TermTree L' F) (h : t.sub p = some s) (r : TermTree L F) :
    (t.put p r).subst θ = (t.subst θ).put p (r.subst θ) := by
  induction p generalizing t with
  | nil => simp
  | cons i p ih =>
    obtain ⟨f, args, a, rfl, ha, hs⟩ := sub_cons.1 h
    simp only [put, subst_node, node.injEq, true_and]
    apply List.ext_getElem?
    intro j
    rw [List.getElem?_map, List.getElem?_modify, List.getElem?_modify, List.getElem?_map]
    split
    · next hij =>
      subst hij
      rw [ha]
      exact congrArg some (ih hs)
    · cases args[j]? <;> rfl

theorem leaves_sub (h : t.sub p = some s) {l : L} (hl : l ∈ s.leaves) : l ∈ t.leaves := by
  induction p generalizing t with
  | nil =>
    obtain rfl : t = s := by simpa using h
    exact hl
  | cons i p ih =>
    obtain ⟨f, args, a, rfl, ha, hs⟩ := sub_cons.1 h
    exact mem_leaves_node.mpr ⟨a, List.mem_of_getElem? ha, ih hs⟩

theorem Every.sub {P : F → ℕ → Prop} (ht : Every P t) (h : t.sub p = some s) : Every P s := by
  induction p generalizing t with
  | nil =>
    obtain rfl : t = s := by simpa using h
    exact ht
  | cons i p ih =>
    obtain ⟨f, args, a, rfl, ha, hs⟩ := sub_cons.1 h
    exact ih ((every_node.1 ht).2 a (List.mem_of_getElem? ha)) hs

theorem Every.put {P : F → ℕ → Prop} (ht : Every P t) (hr : Every P r) (p : List ℕ) :
    Every P (t.put p r) := by
  induction p generalizing t with
  | nil =>
    rw [put_nil]
    exact hr
  | cons i p ih =>
    cases t with
    | leaf l => exact ht
    | node f args =>
      obtain ⟨hnode, hargs⟩ := every_node.1 ht
      apply Every.node
      · rwa [List.length_modify]
      · intro b hb
        obtain ⟨j, hj⟩ := List.mem_iff_getElem?.mp hb
        rw [List.getElem?_modify] at hj
        obtain ⟨a, ha, rfl⟩ := Option.map_eq_some_iff.mp hj
        have ha := hargs a (List.mem_of_getElem? ha)
        split
        · exact ih ha
        · exact ha

end Thvm.TermTree
