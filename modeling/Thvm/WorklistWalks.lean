import Mathlib.Data.List.Nodup
import Mathlib.Logic.Relation
import Mathlib.Tactic.Common

/-!
# Walks with a worklist

A walk pops an item, and pushes its kids unless an item of the same base has been expanded before.
Both the list of expanded bases and the stack have `cap` entries. Where items of one base have the
same kids, a walk that fits pops exactly what can be reached; where different bases have different
kids, it pops everything once.
-/

namespace Thvm.Worklist

variable {α β : Type} [DecidableEq β]

/-- The popped items in their order, if the walk fits. -/
def explore (kids : α → List α) (base : α → β) (cap : ℕ) (expanded : List β) (stack : List α) :
    Option (List α) :=
  match stack with
  | [] => some []
  | x :: stack =>
    if (kids x).isEmpty ∨ base x ∈ expanded then
      (explore kids base cap expanded stack).map (x :: ·)
    else if cap ≤ expanded.length ∨ cap < stack.length + (kids x).length then none
    else (explore kids base cap (base x :: expanded) (kids x ++ stack)).map (x :: ·)
termination_by (cap - expanded.length, stack.length)
decreasing_by
  · exact Prod.Lex.right _ (Nat.lt_succ_self _)
  · rename_i hfit
    refine Prod.Lex.left _ _ ?_
    simp only [List.length_cons]
    omega

variable {kids : α → List α} {base : α → β} {cap : ℕ} {expanded : List β} {stack popped : List α}
  {x y : α}

/-- An item reaches its kids and what they reach. -/
def Reach (kids : α → List α) : α → α → Prop := Relation.ReflTransGen fun x y ↦ y ∈ kids x

theorem explore_nil : explore kids base cap expanded [] = some [] := by
  rw [explore]

/-- How a walk that fits goes on after its first item. -/
theorem explore_cons (h : explore kids base cap expanded (x :: stack) = some popped) :
    ∃ rest, popped = x :: rest ∧
      ((kids x = [] ∨ base x ∈ expanded) ∧ explore kids base cap expanded stack = some rest ∨
        kids x ≠ [] ∧ base x ∉ expanded ∧
          explore kids base cap (base x :: expanded) (kids x ++ stack) = some rest) := by
  rw [explore] at h
  split_ifs at h with hskip hfull
  · obtain ⟨rest, hrest, rfl⟩ := Option.map_eq_some_iff.1 h
    rw [List.isEmpty_iff] at hskip
    exact ⟨rest, rfl, Or.inl ⟨hskip, hrest⟩⟩
  · obtain ⟨rest, hrest, rfl⟩ := Option.map_eq_some_iff.1 h
    rw [List.isEmpty_iff] at hskip
    obtain ⟨hkids, hbase⟩ := not_or.1 hskip
    exact ⟨rest, rfl, Or.inr ⟨hkids, hbase, hrest⟩⟩

/-- Induction over a walk that fits. -/
theorem explore_induct {motive : List β → List α → List α → Prop}
    (nil : ∀ expanded, motive expanded [] [])
    (skip : ∀ expanded x stack rest, kids x = [] ∨ base x ∈ expanded →
      motive expanded stack rest → motive expanded (x :: stack) (x :: rest))
    (expand : ∀ expanded x stack rest, kids x ≠ [] → base x ∉ expanded →
      motive (base x :: expanded) (kids x ++ stack) rest → motive expanded (x :: stack) (x :: rest))
    (h : explore kids base cap expanded stack = some popped) : motive expanded stack popped := by
  induction expanded, stack using explore.induct kids base cap generalizing popped with
  | case1 expanded =>
    rw [explore_nil] at h
    rw [← Option.some.inj h]
    exact nil expanded
  | case2 expanded x stack hskip ih =>
    obtain ⟨rest, rfl, ⟨hx, hrest⟩ | ⟨hkids, hbase, -⟩⟩ := explore_cons h
    · exact skip expanded x stack rest hx (ih hrest)
    · exact absurd (hskip.imp_left List.isEmpty_iff.1) (not_or.2 ⟨hkids, hbase⟩)
  | case3 expanded x stack hskip hfull =>
    rw [explore, if_neg hskip, if_pos hfull] at h
    cases h
  | case4 expanded x stack hskip hfit ih =>
    obtain ⟨rest, rfl, ⟨hx, -⟩ | ⟨hkids, hbase, hrest⟩⟩ := explore_cons h
    · exact absurd (hx.imp_left List.isEmpty_iff.2) hskip
    · exact expand expanded x stack rest hkids hbase (ih hrest)

theorem subset_explore (h : explore kids base cap expanded stack = some popped) :
    stack ⊆ popped := by
  refine explore_induct (motive := fun _ stack popped ↦ stack ⊆ popped) ?_ ?_ ?_ h
  · exact fun _ ↦ List.Subset.refl _
  · exact fun _ x stack rest _ ih ↦ List.cons_subset_cons x ih
  · exact fun _ x stack rest _ _ ih ↦
      List.cons_subset_cons x (List.Subset.trans (List.subset_append_right _ _) ih)

/-- Everything that is popped can be reached from the stack. -/
theorem reach_of_mem_explore (h : explore kids base cap expanded stack = some popped)
    (hy : y ∈ popped) : ∃ x ∈ stack, Reach kids x y := by
  revert y
  refine explore_induct
    (motive := fun _ stack popped ↦ ∀ {y}, y ∈ popped → ∃ x ∈ stack, Reach kids x y) ?_ ?_ ?_ h
  · exact fun _ y hy ↦ absurd hy List.not_mem_nil
  · intro _ x stack rest _ ih y hy
    rcases List.mem_cons.1 hy with rfl | hy
    · exact ⟨y, List.mem_cons_self, .refl⟩
    · obtain ⟨z, hz, hzy⟩ := ih hy
      exact ⟨z, List.mem_cons_of_mem x hz, hzy⟩
  · intro _ x stack rest _ _ ih y hy
    rcases List.mem_cons.1 hy with rfl | hy
    · exact ⟨y, List.mem_cons_self, .refl⟩
    · obtain ⟨z, hz, hzy⟩ := ih hy
      rcases List.mem_append.1 hz with hz | hz
      · exact ⟨x, List.mem_cons_self, .head hz hzy⟩
      · exact ⟨z, List.mem_cons_of_mem x hz, hzy⟩

/-- A popped item has a base that was expanded before, or one of which an item with popped kids
was popped. -/
theorem expanded_of_mem_explore (h : explore kids base cap expanded stack = some popped)
    (hy : y ∈ popped) (hkids : kids y ≠ []) :
    base y ∈ expanded ∨ ∃ z ∈ popped, kids z ≠ [] ∧ base z = base y ∧ kids z ⊆ popped := by
  have hall := explore_induct (h := h) (motive := fun expanded stack popped ↦
    stack ⊆ popped ∧ ∀ y ∈ popped, kids y ≠ [] → base y ∈ expanded ∨
      ∃ z ∈ popped, kids z ≠ [] ∧ base z = base y ∧ kids z ⊆ popped) ?_ ?_ ?_
  · exact hall.2 y hy hkids
  · exact fun _ ↦ ⟨List.Subset.refl _, fun y hy ↦ absurd hy List.not_mem_nil⟩
  · intro expanded x stack rest hskip ih
    refine ⟨List.cons_subset_cons x ih.1, fun y hy hkids ↦ ?_⟩
    rcases List.mem_cons.1 hy with rfl | hy
    · exact Or.inl (hskip.resolve_left hkids)
    · exact (ih.2 y hy hkids).imp_right fun ⟨z, hz, hzkids, hbase, hsub⟩ ↦
        ⟨z, List.mem_cons_of_mem x hz, hzkids, hbase, List.subset_cons_of_subset x hsub⟩
  · intro expanded x stack rest hx hbase ih
    have hxkids : kids x ⊆ x :: rest :=
      List.subset_cons_of_subset x (List.Subset.trans (List.subset_append_left _ _) ih.1)
    refine ⟨List.cons_subset_cons x (List.Subset.trans (List.subset_append_right _ _) ih.1),
      fun y hy hkids ↦ ?_⟩
    rcases List.mem_cons.1 hy with rfl | hy
    · exact Or.inr ⟨y, List.mem_cons_self, hx, rfl, hxkids⟩
    · rcases ih.2 y hy hkids with hmem | ⟨z, hz, hzkids, hzbase, hsub⟩
      · rcases List.mem_cons.1 hmem with heq | hmem
        · exact Or.inr ⟨x, List.mem_cons_self, hx, heq.symm, hxkids⟩
        · exact Or.inl hmem
      · exact Or.inr ⟨z, List.mem_cons_of_mem x hz, hzkids, hzbase,
          List.subset_cons_of_subset x hsub⟩

/-- Items of one base have the same kids, among those that are reached from the root. -/
def Uniform (kids : α → List α) (base : α → β) (root : α) : Prop :=
  ∀ x y, Reach kids root x → Reach kids root y → kids x ≠ [] → kids y ≠ [] → base x = base y →
    kids x = kids y

/-- A walk from the root that fits pops exactly what the root reaches. -/
theorem mem_explore_iff {root : α} (huniform : Uniform kids base root)
    (h : explore kids base cap [] [root] = some popped) :
    y ∈ popped ↔ Reach kids root y := by
  have hreach : ∀ z ∈ popped, Reach kids root z := by
    intro z hz
    obtain ⟨x, hx, hxz⟩ := reach_of_mem_explore h hz
    rwa [List.mem_singleton.1 hx] at hxz
  refine ⟨hreach y, fun hy ↦ ?_⟩
  induction hy with
  | refl => exact subset_explore h List.mem_cons_self
  | @tail z y hz hyz ih =>
    have hkids : kids z ≠ [] := fun h ↦ by
      rw [h] at hyz
      exact List.not_mem_nil hyz
    rcases expanded_of_mem_explore h ih hkids with hmem | ⟨w, hw, hwkids, hbase, hsub⟩
    · exact absurd hmem List.not_mem_nil
    · rw [huniform z w hz (hreach w hw) hkids hwkids hbase.symm] at hyz
      exact hsub hyz

/-- The kids of an item are different items, and different from the kids of other bases. -/
structure Separate (kids : α → List α) (base : α → β) (root : α) : Prop where
  nodup : ∀ x, Reach kids root x → (kids x).Nodup
  disjoint : ∀ x y z, Reach kids root x → Reach kids root y → base x ≠ base y → z ∈ kids x →
    z ∉ kids y
  root : ∀ x, Reach kids root x → root ∉ kids x

/-- A walk from the root that fits pops nothing twice. -/
theorem nodup_explore {root : α} (hsep : Separate kids base root)
    (h : explore kids base cap [] [root] = some popped) : popped.Nodup := by
  have hall := explore_induct (h := h) (motive := fun expanded stack popped ↦
    (∀ s ∈ stack, Reach kids root s) → stack.Nodup →
    (∀ s ∈ stack, ∀ y, Reach kids root y → base y ∉ expanded → s ∉ kids y) →
    popped.Nodup ∧ ∀ p ∈ popped, p ∈ stack ∨
      ∃ y, Reach kids root y ∧ base y ∉ expanded ∧ p ∈ kids y) ?_ ?_ ?_
  · refine (hall ?_ (List.nodup_singleton root) ?_).1
    · exact fun s hs ↦ by rw [List.mem_singleton.1 hs]; exact .refl
    · exact fun s hs y hy _ ↦ by rw [List.mem_singleton.1 hs]; exact hsep.root y hy
  · exact fun _ _ _ _ ↦ ⟨List.nodup_nil, fun p hp ↦ absurd hp List.not_mem_nil⟩
  · intro expanded x stack rest _ ih hreach hnodup hfresh
    obtain ⟨hx, hstack⟩ := List.nodup_cons.1 hnodup
    obtain ⟨hrest, hfrom⟩ := ih (fun s hs ↦ hreach s (List.mem_cons_of_mem x hs)) hstack
      fun s hs ↦ hfresh s (List.mem_cons_of_mem x hs)
    refine ⟨List.nodup_cons.2 ⟨fun hmem ↦ ?_, hrest⟩, fun p hp ↦ ?_⟩
    · rcases hfrom x hmem with h | ⟨y, hy, hbase, hxy⟩
      · exact hx h
      · exact hfresh x List.mem_cons_self y hy hbase hxy
    · rcases List.mem_cons.1 hp with rfl | hp
      · exact Or.inl List.mem_cons_self
      · exact (hfrom p hp).imp_left (List.mem_cons_of_mem x)
  · intro expanded x stack rest hkids hbase ih hreach hnodup hfresh
    obtain ⟨hx, hstack⟩ := List.nodup_cons.1 hnodup
    have hxreach := hreach x List.mem_cons_self
    have hreach' : ∀ s ∈ kids x ++ stack, Reach kids root s := by
      intro s hs
      rcases List.mem_append.1 hs with hs | hs
      · exact hxreach.tail hs
      · exact hreach s (List.mem_cons_of_mem x hs)
    have hnodup' : (kids x ++ stack).Nodup := by
      refine List.nodup_append.2 ⟨hsep.nodup x hxreach, hstack, fun a ha b hb hab ↦ ?_⟩
      exact hfresh b (List.mem_cons_of_mem x hb) x hxreach hbase (hab ▸ ha)
    have hfresh' : ∀ s ∈ kids x ++ stack, ∀ y, Reach kids root y →
        base y ∉ base x :: expanded → s ∉ kids y := by
      intro s hs y hy hybase hsy
      rcases List.mem_append.1 hs with hs | hs
      · exact hsep.disjoint x y s hxreach hy (fun h ↦ hybase (h ▸ List.mem_cons_self)) hs hsy
      · exact hfresh s (List.mem_cons_of_mem x hs) y hy
          (fun h ↦ hybase (List.mem_cons_of_mem _ h)) hsy
    obtain ⟨hrest, hfrom⟩ := ih hreach' hnodup' hfresh'
    refine ⟨List.nodup_cons.2 ⟨fun hmem ↦ ?_, hrest⟩, fun p hp ↦ ?_⟩
    · rcases hfrom x hmem with h | ⟨y, hy, hybase, hxy⟩
      · rcases List.mem_append.1 h with h | h
        · exact hfresh x List.mem_cons_self x hxreach hbase h
        · exact hx h
      · exact hfresh x List.mem_cons_self y hy (fun h ↦ hybase (List.mem_cons_of_mem _ h)) hxy
    · rcases List.mem_cons.1 hp with rfl | hp
      · exact Or.inl List.mem_cons_self
      · rcases hfrom p hp with h | ⟨y, hy, hybase, hpy⟩
        · rcases List.mem_append.1 h with h | h
          · exact Or.inr ⟨x, hxreach, hbase, h⟩
          · exact Or.inl (List.mem_cons_of_mem x h)
        · exact Or.inr ⟨y, hy, fun h ↦ hybase (List.mem_cons_of_mem _ h), hpy⟩

end Thvm.Worklist
