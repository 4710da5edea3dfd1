import Thvm.TermTrees

/-!
# Trees of views

A view shows of each value one layer: a leaf, or a label with further values. Unfolded layer by
layer, a value is a tree, when this comes to an end.
-/

namespace Thvm

/-- One layer of a value. -/
inductive View (L F α : Type) where
  | leaf (l : L)
  | node (f : F) (kids : List α)

namespace View

variable {L F α : Type} (view : α → View L F α)

/-- The tree of a value, if it has at most `n` layers. -/
def unfold : ℕ → α → Option (TermTree L F)
  | 0, _ => none
  | n + 1, a =>
    match view a with
    | .leaf l => some (.leaf l)
    | .node f kids => (kids.mapM (unfold n)).map (.node f)

/-- What is read on the way through a value: `reads` of every value that its layers show. -/
inductive Shows {β : Type} (reads : α → List β) : α → β → Prop
  | here {a : α} {b : β} (h : b ∈ reads a) : Shows reads a b
  | kid {a a' : α} {f : F} {kids : List α} {b : β} (h : view a = .node f kids) (ha : a' ∈ kids)
      (hb : Shows reads a' b) : Shows reads a b

variable {view}
variable {n m : ℕ} {a : α} {t : TermTree L F}

/-- A value that ends in a leaf, or a node with the trees of its kids. -/
theorem unfold_succ : unfold view (n + 1) a = some t ↔
    (∃ l, view a = .leaf l ∧ t = .leaf l) ∨
    ∃ f kids ts, view a = .node f kids ∧ kids.mapM (unfold view n) = some ts ∧
      t = .node f ts := by
  rw [unfold]
  cases hview : view a with
  | leaf l => simp [eq_comm]
  | node f kids => simp [Option.map_eq_some_iff, eq_comm (b := t)]

theorem mapM_cons_some {β : Type} {f : α → Option β} {as : List α} {bs : List β} :
    (a :: as).mapM f = some bs ↔ ∃ b bs', f a = some b ∧ as.mapM f = some bs' ∧ bs = b :: bs' := by
  rw [List.mapM_cons]
  cases f a with
  | none => simp
  | some b => cases as.mapM f <;> simp [eq_comm]

theorem length_of_mapM {β : Type} {f : α → Option β} {as : List α} {bs : List β}
    (h : as.mapM f = some bs) : bs.length = as.length := by
  induction as generalizing bs with
  | nil =>
    obtain rfl : [] = bs := Option.some.inj h
    rfl
  | cons a as ih =>
    obtain ⟨b, bs', -, hbs, rfl⟩ := mapM_cons_some.1 h
    rw [List.length_cons, List.length_cons, ih hbs]

theorem mapM_congr_some {β : Type} {f g : α → Option β} {as : List α} {bs : List β}
    (h : ∀ a ∈ as, ∀ b, f a = some b → g a = some b) (has : as.mapM f = some bs) :
    as.mapM g = some bs := by
  induction as generalizing bs with
  | nil => exact has
  | cons a as ih =>
    obtain ⟨b, bs', hb, hbs, rfl⟩ := mapM_cons_some.1 has
    exact mapM_cons_some.2 ⟨b, bs', h a List.mem_cons_self b hb,
      ih (fun a' ha' ↦ h a' (List.mem_cons_of_mem a ha')) hbs, rfl⟩

/-- More layers give the same tree. -/
theorem unfold_mono (hnm : n ≤ m) (h : unfold view n a = some t) : unfold view m a = some t := by
  induction n generalizing m a t with
  | zero => cases h
  | succ n ih =>
    obtain ⟨m, rfl⟩ := Nat.exists_eq_add_of_lt hnm
    rw [show n + m + 1 = (n + m) + 1 from rfl, unfold_succ]
    rcases unfold_succ.1 h with hleaf | ⟨f, kids, ts, hview, hkids, rfl⟩
    · exact Or.inl hleaf
    · exact Or.inr ⟨f, kids, ts, hview,
        mapM_congr_some (fun a _ b hb ↦ ih (Nat.le_add_right n m) hb) hkids, rfl⟩

theorem mapM_congr {β : Type} {f g : α → Option β} {as : List α} (h : ∀ a ∈ as, g a = f a) :
    as.mapM g = as.mapM f := by
  induction as with
  | nil => rfl
  | cons a as ih =>
    rw [List.mapM_cons, List.mapM_cons, h a List.mem_cons_self,
      ih fun a' ha' ↦ h a' (List.mem_cons_of_mem a ha')]

/-- Two views with the same layers at what a value shows unfold it alike. -/
theorem unfold_eq {view' : α → View L F α} {β : Type} {reads : α → List β}
    {agree : β → Prop} (hviews : ∀ a, (∀ b ∈ reads a, agree b) → view' a = view a)
    (ha : ∀ b, Shows view reads a b → agree b) : unfold view' n a = unfold view n a := by
  induction n generalizing a with
  | zero => rfl
  | succ n ih =>
    rw [unfold, unfold, hviews a fun b hb ↦ ha b (.here hb)]
    cases hview : view a with
    | leaf l => rfl
    | node f kids =>
      simp only [mapM_congr fun a' ha' ↦ ih fun b hb ↦ ha b (.kid hview ha' hb)]

/-- Two views with the same layers at what a value shows unfold it to the same tree. -/
theorem unfold_congr {view' : α → View L F α} {β : Type} {reads : α → List β}
    {agree : β → Prop} (hviews : ∀ a, (∀ b ∈ reads a, agree b) → view' a = view a)
    (ha : ∀ b, Shows view reads a b → agree b) (h : unfold view n a = some t) :
    unfold view' n a = some t :=
  (unfold_eq hviews ha).trans h

theorem mapM_map {β γ δ : Type} {f : α → β} {F : β → Option δ} {G : α → Option γ} {r : γ → δ}
    {as : List α} (h : ∀ a ∈ as, F (f a) = (G a).map r) :
    (as.map f).mapM F = (as.mapM G).map (List.map r) := by
  induction as with
  | nil => rfl
  | cons a as ih =>
    rw [List.map_cons, List.mapM_cons, List.mapM_cons, h a List.mem_cons_self,
      ih fun a' ha' ↦ h a' (List.mem_cons_of_mem a ha')]
    cases G a with
    | none => rfl
    | some c => cases as.mapM G <;> rfl

/-- When the layers of a value and of its image differ in their labels only, so do their trees. -/
theorem unfold_rename {β : Type} {view' : β → View L F β} {f : α → β} {g : L → L} {k : F → F}
    {live : α → Prop} (hleaf : ∀ a l, live a → view a = .leaf l → view' (f a) = .leaf (g l))
    (hnode : ∀ a x kids, live a → view a = .node x kids →
      view' (f a) = .node (k x) (kids.map f) ∧ ∀ b ∈ kids, live b)
    (n : ℕ) (ha : live a) : unfold view' n (f a) =
      (unfold view n a).map fun t ↦ (t.relabel k).subst fun l ↦ .leaf (g l) := by
  induction n generalizing a with
  | zero => rfl
  | succ n ih =>
    rw [unfold, unfold]
    cases hview : view a with
    | leaf l => rw [hleaf a l ha hview, Option.map_some, TermTree.relabel_leaf, TermTree.subst_leaf]
    | node x kids =>
      obtain ⟨hview', hkids⟩ := hnode a x kids ha hview
      simp only [hview', mapM_map fun b hb ↦ ih (hkids b hb), Option.map_map]
      congr 1
      funext ts
      simp only [Function.comp_apply, TermTree.relabel_node, TermTree.subst_node, List.map_map]
      rfl

end View

end Thvm
