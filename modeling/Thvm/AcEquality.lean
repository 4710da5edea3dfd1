import Thvm.TermTrees
import Mathlib.Data.Multiset.Basic
import Mathlib.Data.Multiset.ZeroCons

/-!
# Equality modulo associativity and commutativity

Some labels are binary symbols that are associative and commutative. The tree of nodes with
one such label is its list of leaves; with the leaves put in an order that depends on their
multiset only, every class of equal trees has one normal form.
-/

namespace Thvm.TermTree

variable {L F : Type} {ac : F → Prop} {s t u : TermTree L F} {f g : F}
  {as bs cs xs ys : List (TermTree L F)}

/-- Equality modulo associativity and commutativity of the labels in `ac`. -/
inductive AcEq (ac : F → Prop) : TermTree L F → TermTree L F → Prop
  | refl (t : TermTree L F) : AcEq ac t t
  | symm {s t : TermTree L F} (h : AcEq ac s t) : AcEq ac t s
  | trans {s t u : TermTree L F} (h : AcEq ac s t) (h' : AcEq ac t u) : AcEq ac s u
  | arg {s t : TermTree L F} (f : F) (before after : List (TermTree L F)) (h : AcEq ac s t) :
    AcEq ac (node f (before ++ s :: after)) (node f (before ++ t :: after))
  | comm {f : F} (hf : ac f) (s t : TermTree L F) : AcEq ac (node f [s, t]) (node f [t, s])
  | assoc {f : F} (hf : ac f) (s t u : TermTree L F) :
    AcEq ac (node f [node f [s, t], u]) (node f [s, node f [t, u]])

/-- The labels in `ac` have two arguments. -/
def Binary (ac : F → Prop) (t : TermTree L F) : Prop := t.Every fun f n => ac f → n = 2

/-- A chain to the right over some trees. -/
def chain (f : F) : List (TermTree L F) → TermTree L F
  | [] => node f []
  | [t] => t
  | t :: u :: ts => node f [t, chain f (u :: ts)]

section Spread

variable [DecidableEq F]

mutual

/-- The leaves of the tree of nodes labelled `f` at the root. -/
def spread (f : F) : TermTree L F → List (TermTree L F)
  | .leaf l => [.leaf l]
  | .node g args => if g = f then spreadList f args else [.node g args]

def spreadList (f : F) : List (TermTree L F) → List (TermTree L F)
  | [] => []
  | a :: as => spread f a ++ spreadList f as

end

theorem spreadList_eq (f : F) (as : List (TermTree L F)) :
    spreadList f as = as.flatMap (spread f) := by
  induction as with
  | nil => rfl
  | cons a as ih => simp [spreadList, ih]

@[simp] theorem spread_leaf (f : F) (l : L) : spread f (leaf l) = [leaf l] := rfl

@[simp] theorem spread_self (f : F) (as : List (TermTree L F)) :
    spread f (node f as) = as.flatMap (spread f) := by
  rw [spread, if_pos rfl, spreadList_eq]

theorem spread_of_ne (h : g ≠ f) : spread f (node g as) = [node g as] := by
  rw [spread, if_neg h]

/-- The leaves are not labelled `f` themselves. -/
theorem spread_spread (h : u ∈ spread f t) : spread f u = [u] := by
  induction t with
  | leaf l =>
    obtain rfl := List.mem_singleton.mp h
    rfl
  | node g args ih =>
    by_cases hg : g = f
    · subst hg
      rw [spread_self] at h
      obtain ⟨a, ha, hu⟩ := List.mem_flatMap.mp h
      exact ih a ha hu
    · rw [spread_of_ne hg] at h
      obtain rfl := List.mem_singleton.mp h
      exact spread_of_ne hg

theorem size_le_of_mem_spread (h : u ∈ spread f t) : u.size ≤ t.size := by
  induction t with
  | leaf l =>
    obtain rfl := List.mem_singleton.mp h
    exact le_rfl
  | node g args ih =>
    by_cases hg : g = f
    · subst hg
      rw [spread_self] at h
      obtain ⟨a, ha, hu⟩ := List.mem_flatMap.mp h
      exact (ih a ha hu).trans (size_lt g ha).le
    · rw [spread_of_ne hg] at h
      obtain rfl := List.mem_singleton.mp h
      exact le_rfl

theorem size_lt_of_mem_spread (h : u ∈ spread f (node f as)) : u.size < (node f as).size := by
  rw [spread_self] at h
  obtain ⟨a, ha, hu⟩ := List.mem_flatMap.mp h
  exact (size_le_of_mem_spread hu).trans_lt (size_lt f ha)

theorem spread_ne_nil (hf : ac f) (h : Binary ac t) : spread f t ≠ [] := by
  induction t with
  | leaf l => simp
  | node g args ih =>
    by_cases hg : g = f
    · subst hg
      obtain ⟨hlen, hargs⟩ := every_node.mp h
      obtain ⟨a, b, rfl⟩ := List.length_eq_two.mp (hlen hf)
      have ha := ih a List.mem_cons_self (hargs a List.mem_cons_self)
      simp [ha]
    · simp [spread_of_ne hg]

/-- A chain over leaves has these leaves. -/
theorem spread_chain (h : ∀ x ∈ xs, spread f x = [x]) : spread f (chain f xs) = xs := by
  induction xs with
  | nil => exact spread_self f []
  | cons x xs ih =>
    have hx := h x List.mem_cons_self
    cases xs with
    | nil => exact hx
    | cons y ys =>
      have := ih fun z hz => h z (List.mem_cons_of_mem x hz)
      simp [chain, hx, this]

end Spread

theorem chain_cons (hxs : xs ≠ []) : chain f (t :: xs) = node f [t, chain f xs] := by
  cases xs with
  | nil => exact absurd rfl hxs
  | cons x xs => rfl

/-- A chain of two or more trees has its label on top. -/
theorem chain_top (h : 2 ≤ xs.length) : ∃ bs, chain f xs = node f bs := by
  match xs, h with
  | x :: y :: ys, _ => exact ⟨_, rfl⟩

namespace AcEq

theorem of_eq (h : s = t) : AcEq ac s t := h ▸ refl s

/-- Equal arguments one after another. -/
theorem args_after (f : F) (before : List (TermTree L F)) (h : List.Forall₂ (AcEq ac) as bs) :
    AcEq ac (node f (before ++ as)) (node f (before ++ bs)) := by
  induction h generalizing before with
  | nil => exact refl _
  | @cons a b as bs hab _ ih =>
    have htail := ih (before ++ [b])
    rw [List.append_assoc, List.append_assoc] at htail
    exact (arg f before as hab).trans htail

theorem args (f : F) (h : List.Forall₂ (AcEq ac) as bs) : AcEq ac (node f as) (node f bs) :=
  args_after f [] h

theorem args_map (f : F) {φ : TermTree L F → TermTree L F}
    (h : ∀ a ∈ as, AcEq ac (φ a) a) : AcEq ac (node f (as.map φ)) (node f as) :=
  args f (List.forall₂_map_left_iff.mpr (List.forall₂_same.mpr h))

theorem left (f : F) (h : AcEq ac s t) (u : TermTree L F) :
    AcEq ac (node f [s, u]) (node f [t, u]) :=
  arg f [] [u] h

theorem right (f : F) (s : TermTree L F) (h : AcEq ac t u) :
    AcEq ac (node f [s, t]) (node f [s, u]) :=
  arg f [s] [] h

theorem chain_congr (h : List.Forall₂ (AcEq ac) xs ys) : AcEq ac (chain f xs) (chain f ys) := by
  induction h with
  | nil => exact refl _
  | @cons x y xs ys hxy hrest ih =>
    cases hrest with
    | nil => exact hxy
    | cons hx hrest => exact (left f hxy _).trans (right f y ih)

theorem chain_append (hf : ac f) (hxs : xs ≠ []) (hys : ys ≠ []) :
    AcEq ac (chain f (xs ++ ys)) (node f [chain f xs, chain f ys]) := by
  induction xs with
  | nil => exact absurd rfl hxs
  | cons x xs ih =>
    cases xs with
    | nil => exact of_eq (chain_cons hys)
    | cons x' xs =>
      have hne : x' :: xs ++ ys ≠ [] := by simp
      have htail := ih (List.cons_ne_nil x' xs)
      rw [List.cons_append, chain_cons hne]
      exact (right f x htail).trans (assoc hf x _ _).symm

theorem chain_swap (hf : ac f) (s t : TermTree L F) (xs : List (TermTree L F)) :
    AcEq ac (chain f (s :: t :: xs)) (chain f (t :: s :: xs)) := by
  cases xs with
  | nil => exact comm hf s t
  | cons x xs =>
    have hs := (assoc hf s t (chain f (x :: xs))).symm
    have ht := assoc hf t s (chain f (x :: xs))
    exact hs.trans ((left f (comm hf s t) _).trans ht)

theorem chain_perm (hf : ac f) (h : xs.Perm ys) : AcEq ac (chain f xs) (chain f ys) := by
  induction h with
  | nil => exact refl _
  | @cons x xs ys hperm ih =>
    by_cases hxs : xs = []
    · subst hxs
      rw [List.nil_perm.mp hperm]
      exact refl _
    · have hys : ys ≠ [] := fun h => hxs (List.perm_nil.mp (h ▸ hperm))
      rw [chain_cons hxs, chain_cons hys]
      exact right f x ih
  | swap s t xs => exact chain_swap hf t s xs
  | trans _ _ ih ih' => exact ih.trans ih'

/-- The chain over its leaves is equal to a tree. -/
theorem chain_spread [DecidableEq F] (hf : ac f) (h : Binary ac t) :
    AcEq ac (chain f (spread f t)) t := by
  induction t with
  | leaf l => exact refl _
  | node g args ih =>
    by_cases hg : g = f
    · subst hg
      obtain ⟨hlen, hargs⟩ := every_node.mp h
      obtain ⟨a, b, rfl⟩ := List.length_eq_two.mp (hlen hf)
      have hb := hargs b (by simp)
      have ha := hargs a (by simp)
      have happend := chain_append hf (spread_ne_nil hf ha) (spread_ne_nil hf hb)
      have hspread : spread g (node g [a, b]) = spread g a ++ spread g b := by simp
      rw [hspread]
      exact happend.trans ((left g (ih a (by simp) ha) _).trans (right g a (ih b (by simp) hb)))
    · rw [spread_of_ne hg]
      exact refl _

theorem subst_chain {L' : Type} (θ : L → TermTree L' F) (f : F) (xs : List (TermTree L F)) :
    (chain f xs).subst θ = chain f (xs.map (subst θ)) := by
  induction xs with
  | nil => exact subst_node θ f []
  | cons x xs ih =>
    cases xs with
    | nil => rfl
    | cons y ys => simpa [chain] using ih

/-- Instances of equal trees are equal. -/
theorem subst {L' : Type} (θ : L → TermTree L' F) (h : AcEq ac s t) :
    AcEq ac (s.subst θ) (t.subst θ) := by
  induction h with
  | refl t => exact refl _
  | symm _ ih => exact ih.symm
  | trans _ _ ih ih' => exact ih.trans ih'
  | arg f before after _ ih =>
    simp only [subst_node, List.map_append, List.map_cons]
    exact arg f _ _ ih
  | comm hf s t =>
    simp only [subst_node, List.map_cons, List.map_nil]
    exact comm hf _ _
  | assoc hf s t u =>
    simp only [subst_node, List.map_cons, List.map_nil]
    exact assoc hf _ _ _

end AcEq

/-! ## Normal forms -/

section Normal

variable {α : Type}

/-- The elements of a list in an order that depends on their multiset only. -/
noncomputable def arrange (xs : List α) : List α := (xs : Multiset α).toList

theorem arrange_perm (xs : List α) : (arrange xs).Perm xs :=
  Multiset.coe_eq_coe.mp (Multiset.coe_toList _)

theorem arrange_eq {xs ys : List α} (h : xs.Perm ys) : arrange xs = arrange ys :=
  congrArg Multiset.toList (Multiset.coe_eq_coe.mpr h)

variable [DecidableEq F] [DecidablePred ac]

mutual

/-- Every tree of nodes with one label in `ac` becomes the chain over its arranged leaves. -/
noncomputable def normal (ac : F → Prop) [DecidablePred ac] : TermTree L F → TermTree L F
  | .leaf l => .leaf l
  | .node f args =>
    if ac f then chain f (arrange ((normalList ac args).flatMap (spread f)))
    else .node f (normalList ac args)

noncomputable def normalList (ac : F → Prop) [DecidablePred ac] :
    List (TermTree L F) → List (TermTree L F)
  | [] => []
  | a :: as => normal ac a :: normalList ac as

end

theorem normalList_eq (as : List (TermTree L F)) : normalList ac as = as.map (normal ac) := by
  induction as with
  | nil => rfl
  | cons a as ih => simp [normalList, ih]

theorem normal_of_mem (hf : ac f) :
    normal ac (node f as) = chain f (arrange ((as.map (normal ac)).flatMap (spread f))) := by
  rw [normal, if_pos hf, normalList_eq]

theorem normal_of_notMem (hf : ¬ ac f) : normal ac (node f as) = node f (as.map (normal ac)) := by
  rw [normal, if_neg hf, normalList_eq]

theorem spread_arrange {x : TermTree L F} (hx : x ∈ arrange (as.flatMap (spread f))) :
    spread f x = [x] := by
  obtain ⟨a, _, hxa⟩ := List.mem_flatMap.mp ((arrange_perm _).mem_iff.mp hx)
  exact spread_spread hxa

theorem spread_normal_self (hf : ac f) :
    (spread f (normal ac (node f as))).Perm ((as.map (normal ac)).flatMap (spread f)) := by
  rw [normal_of_mem hf, spread_chain fun x hx => spread_arrange hx]
  exact arrange_perm _

/-- Equal trees have the same normal form. -/
theorem AcEq.normal_eq (h : AcEq ac s t) : normal ac s = normal ac t := by
  induction h with
  | refl t => rfl
  | symm _ ih => exact ih.symm
  | trans _ _ ih ih' => exact ih.trans ih'
  | arg f before after _ ih =>
    by_cases hf : ac f
    · rw [normal_of_mem hf, normal_of_mem hf]
      simp only [List.map_append, List.map_cons, ih]
    · rw [normal_of_notMem hf, normal_of_notMem hf]
      simp only [List.map_append, List.map_cons, ih]
  | comm hf s t =>
    rw [normal_of_mem hf, normal_of_mem hf]
    congr 1
    apply arrange_eq
    simpa using List.perm_append_comm
  | @assoc f hf s t u =>
    have hst := @spread_normal_self L F ac f [s, t] _ _ hf
    have htu := @spread_normal_self L F ac f [t, u] _ _ hf
    simp only [List.map_cons, List.map_nil, List.flatMap_cons, List.flatMap_nil,
      List.append_nil] at hst htu
    rw [normal_of_mem hf, normal_of_mem hf]
    congr 1
    apply arrange_eq
    simp only [List.map_cons, List.map_nil, List.flatMap_cons, List.flatMap_nil, List.append_nil]
    refine (hst.append_right _).trans ?_
    rw [List.append_assoc]
    exact htu.symm.append_left _

theorem normal_top_of_spread (hf : ac f) (hlen : as.length = 2)
    (h : ∀ a ∈ as, spread f (normal ac a) ≠ []) : ∃ bs, normal ac (node f as) = node f bs := by
  obtain ⟨a, b, rfl⟩ := List.length_eq_two.mp hlen
  have ha := List.length_pos_iff.mpr (h a (by simp))
  have hb := List.length_pos_iff.mpr (h b (by simp))
  rw [normal_of_mem hf]
  apply chain_top
  rw [(arrange_perm _).length_eq]
  simp only [List.map_cons, List.map_nil, List.flatMap_cons, List.flatMap_nil, List.append_nil,
    List.length_append]
  omega

/-- The leaves of a normal form are the normal forms of the leaves. -/
theorem spread_normal (hf : ac f) (h : Binary ac t) :
    (spread f (normal ac t)).Perm ((spread f t).map (normal ac)) := by
  induction t generalizing f with
  | leaf l => exact .refl _
  | node g args ih =>
    obtain ⟨hlen, hargs⟩ := every_node.mp h
    by_cases hgf : g = f
    · subst hgf
      rw [spread_self]
      refine (spread_normal_self hf).trans ?_
      rw [List.flatMap_map, List.map_flatMap]
      exact List.Perm.flatMap_left args fun a ha => ih a ha hf (hargs a ha)
    · rw [spread_of_ne hgf, List.map_singleton]
      have htop : ∃ bs, normal ac (node g args) = node g bs := by
        by_cases hg : ac g
        · refine normal_top_of_spread hg (hlen hg) fun a ha hnil => ?_
          have hperm := ih a ha hg (hargs a ha)
          rw [hnil] at hperm
          exact spread_ne_nil hg (hargs a ha) (List.map_eq_nil_iff.mp (List.nil_perm.mp hperm))
        · exact ⟨_, normal_of_notMem hg⟩
      obtain ⟨bs, hbs⟩ := htop
      rw [hbs, spread_of_ne hgf]

/-- The normal form of a node has its label on top. -/
theorem normal_top (h : Binary ac (node f as)) : ∃ bs, normal ac (node f as) = node f bs := by
  by_cases hf : ac f
  · obtain ⟨hlen, hargs⟩ := every_node.mp h
    refine normal_top_of_spread hf (hlen hf) fun a ha hnil => ?_
    have hperm := spread_normal hf (hargs a ha)
    rw [hnil] at hperm
    exact spread_ne_nil hf (hargs a ha) (List.map_eq_nil_iff.mp (List.nil_perm.mp hperm))
  · exact ⟨_, normal_of_notMem hf⟩

/-- The shape of a tree can be read off its normal form. -/
theorem eq_leaf_of_normal {l : L} (ht : Binary ac t) (h : normal ac t = leaf l) : t = leaf l := by
  cases t with
  | leaf l' => exact h
  | node f args =>
    obtain ⟨bs, hbs⟩ := normal_top ht
    rw [hbs] at h
    cases h

theorem eq_node_of_normal (hs : Binary ac (node f as)) (ht : Binary ac t)
    (h : normal ac (node f as) = normal ac t) : ∃ bs, t = node f bs := by
  obtain ⟨cs, hcs⟩ := normal_top hs
  cases t with
  | leaf l =>
    rw [hcs] at h
    cases h
  | node g bs =>
    obtain ⟨ds, hds⟩ := normal_top ht
    rw [hcs, hds, node.injEq] at h
    exact ⟨bs, congrArg (node · bs) h.1.symm⟩

/-- Equal normal forms have equal normal leaves, in some order. -/
theorem spread_perm_of_normal (hf : ac f) (hs : Binary ac s) (ht : Binary ac t)
    (h : normal ac s = normal ac t) :
    ((spread f s).map (normal ac)).Perm ((spread f t).map (normal ac)) :=
  (spread_normal hf hs).symm.trans (h ▸ spread_normal hf ht)

end Normal

end Thvm.TermTree
