import Mathlib.Data.List.Perm.Subperm
import Thvm.LexOrder
import Thvm.TermPositions

/-!
# The Knuth-Bendix ordering

A tree is above another one when it has all its leaves, as often, and weighs more, or
as much and the roots or the arguments decide. Nothing is above a leaf of the same
weight. The ordering is closed under contexts, and under substitutions that put nothing
lighter than a leaf in its place.
-/

namespace Thvm.KnuthBendix

open TermTree

variable {L L' F P : Type}

/-- Weights of labels and of leaves, and a precedence of labels. -/
structure Scale (F P : Type) where
  label : F → ℕ
  leaf : ℕ
  prec : F → P

namespace Scale

mutual

def weight (S : Scale F P) : TermTree L F → ℕ
  | .leaf _ => S.leaf
  | .node f args => S.label f + weightList S args

def weightList (S : Scale F P) : List (TermTree L F) → ℕ
  | [] => 0
  | a :: as => weight S a + weightList S as

end

mutual

/-- The weight without that of the leaves. -/
def labels (S : Scale F P) : TermTree L F → ℕ
  | .leaf _ => 0
  | .node f args => S.label f + labelsList S args

def labelsList (S : Scale F P) : List (TermTree L F) → ℕ
  | [] => 0
  | a :: as => labels S a + labelsList S as

end

variable {S : Scale F P} {f : F} {t : TermTree L F} {args : List (TermTree L F)}

theorem weightList_eq (args : List (TermTree L F)) :
    S.weightList args = (args.map S.weight).sum := by
  induction args with
  | nil => rfl
  | cons a as ih => rw [weightList, ih, List.map_cons, List.sum_cons]

theorem weight_node (f : F) (args : List (TermTree L F)) :
    S.weight (.node f args) = S.label f + (args.map S.weight).sum := by
  rw [weight, weightList_eq]

theorem labelsList_eq (args : List (TermTree L F)) :
    S.labelsList args = (args.map S.labels).sum := by
  induction args with
  | nil => rfl
  | cons a as ih => rw [labelsList, ih, List.map_cons, List.sum_cons]

theorem labels_node (f : F) (args : List (TermTree L F)) :
    S.labels (.node f args) = S.label f + (args.map S.labels).sum := by
  rw [labels, labelsList_eq]

/-- A substitution changes the weight leaf by leaf. -/
theorem weight_subst (θ : L → TermTree L' F) (t : TermTree L F) :
    S.weight (t.subst θ) = S.labels t + (t.leaves.map fun l => S.weight (θ l)).sum := by
  induction t with
  | leaf l => simp [labels]
  | node f args ih =>
    have hargs : (args.map fun a => S.weight (a.subst θ)).sum =
        (args.map S.labels).sum + ((leavesList args).map fun l => S.weight (θ l)).sum := by
      induction args with
      | nil => rfl
      | cons a as ihs =>
        rw [List.map_cons, List.sum_cons, ih a List.mem_cons_self,
          ihs fun b hb => ih b (List.mem_cons_of_mem a hb), leavesList, List.map_cons,
          List.sum_cons, List.map_append, List.sum_append]
        omega
    rw [subst_node, weight_node, labels_node, List.map_map, leaves, Nat.add_assoc, ← hargs]
    rfl

theorem weight_eq (t : TermTree L F) :
    S.weight t = S.labels t + t.leaves.length * S.leaf := by
  have hsubst := weight_subst (S := S) TermTree.leaf t
  rw [subst_id] at hsubst
  rw [hsubst]
  simp [weight]

/-- No tree is lighter than a leaf when no constant is. -/
theorem leaf_le_weight {Q : F → ℕ → Prop} (hconst : ∀ f, Q f 0 → S.leaf ≤ S.label f)
    (ht : t.Every Q) : S.leaf ≤ S.weight t := by
  induction ht with
  | leaf l => exact Nat.le_refl _
  | @node f args hnode hargs ih =>
    rw [weight_node]
    cases args with
    | nil => exact Nat.le_trans (hconst f hnode) (Nat.le_add_right _ _)
    | cons a as =>
      have := ih a List.mem_cons_self
      rw [List.map_cons, List.sum_cons]
      omega

end Scale

variable {S : Scale F P}

/-- The first arguments that differ decide between equal roots. -/
inductive Gt [LT P] (S : Scale F P) : TermTree L F → TermTree L F → Prop
  | weight {s t : TermTree L F} (hleaves : t.leaves.Subperm s.leaves)
      (hweight : S.weight t < S.weight s) : Gt S s t
  | prec {f g : F} {as bs : List (TermTree L F)}
      (hleaves : (node g bs).leaves.Subperm (node f as).leaves)
      (hweight : S.weight (node f as) = S.weight (node g bs)) (hprec : S.prec g < S.prec f) :
      Gt S (node f as) (node g bs)
  | lex {f : F} {pre post post' : List (TermTree L F)} {a b : TermTree L F}
      (hleaves : (node f (pre ++ b :: post')).leaves.Subperm (node f (pre ++ a :: post)).leaves)
      (hweight : S.weight (node f (pre ++ a :: post)) = S.weight (node f (pre ++ b :: post')))
      (hpost : post.length = post'.length) (h : Gt S a b) :
      Gt S (node f (pre ++ a :: post)) (node f (pre ++ b :: post'))

namespace Gt

variable [Preorder P] {f g : F} {s t u : TermTree L F} {as bs cs : List (TermTree L F)}

theorem leaves_subperm (h : Gt S s t) : t.leaves.Subperm s.leaves := by
  cases h <;> assumption

theorem weight_le (h : Gt S s t) : S.weight t ≤ S.weight s := by
  cases h with
  | weight hleaves hweight => exact hweight.le
  | prec hleaves hweight hprec => exact hweight.ge
  | lex hleaves hweight hpost h => exact hweight.ge

theorem of_lex (hleaves : (node f bs).leaves.Subperm (node f as).leaves)
    (hweight : S.weight (node f as) = S.weight (node f bs)) (hlen : as.length = bs.length)
    (h : LexOrder.Above (· = ·) (Gt S) as bs) : Gt S (node f as) (node f bs) := by
  obtain ⟨pre, pre', a, b, post, post', rfl, rfl, hpre, hab⟩ := LexOrder.above_split h
  rw [List.forall₂_eq_eq_eq] at hpre
  subst hpre
  exact .lex hleaves hweight (by simpa using hlen) hab

/-- What decides between trees of one weight. -/
def Tie (S : Scale F P) (f g : F) (as bs : List (TermTree L F)) : Prop :=
  S.prec g < S.prec f ∨
    f = g ∧ as.length = bs.length ∧ LexOrder.Above (· = ·) (Gt S) as bs

theorem tie_iff (hweight : S.weight (node f as) = S.weight (node g bs)) :
    Gt S (node f as) (node g bs) ↔
      (node g bs).leaves.Subperm (node f as).leaves ∧ Tie S f g as bs := by
  constructor
  · intro h
    refine ⟨h.leaves_subperm, ?_⟩
    cases h with
    | weight hleaves hlt => exact absurd hweight hlt.ne'
    | prec hleaves hweight hprec => exact .inl hprec
    | lex hleaves hweight hpost h =>
      refine .inr ⟨rfl, by simp [hpost], LexOrder.above_append ?_ h⟩
      exact List.forall₂_same.mpr fun _ _ => rfl
  · rintro ⟨hleaves, hprec | ⟨rfl, hlen, hlex⟩⟩
    · exact .prec hleaves hweight hprec
    · exact of_lex hleaves hweight hlen hlex

/-- Between trees of one weight, neither is a leaf. -/
theorem nodes (h : Gt S s t) (hweight : S.weight s = S.weight t) :
    ∃ f as g bs, s = node f as ∧ t = node g bs := by
  cases h with
  | weight hleaves hlt => exact absurd hweight hlt.ne'
  | prec hleaves hweight hprec => exact ⟨_, _, _, _, rfl, rfl⟩
  | lex hleaves hweight hpost h => exact ⟨_, _, _, _, rfl, rfl⟩

theorem Tie.trans {k : F} (h : Tie S f g as bs) (h' : Tie S g k bs cs)
    (hgt : ∀ a ∈ as, ∀ b ∈ bs, ∀ c ∈ cs, Gt S a b → Gt S b c → Gt S a c) : Tie S f k as cs := by
  rcases h with hprec | ⟨rfl, hlen, hlex⟩
  · rcases h' with hprec' | ⟨rfl, -, -⟩
    · exact .inl (lt_trans hprec' hprec)
    · exact .inl hprec
  · rcases h' with hprec' | ⟨rfl, hlen', hlex'⟩
    · exact .inl hprec'
    · refine .inr ⟨rfl, hlen.trans hlen', hlex.trans hlex' fun a ha b hb c hc => ?_⟩
      exact ⟨hgt a ha b hb c hc, fun hab hbc => hbc ▸ hab, fun hab hbc => hab ▸ hbc, Eq.trans⟩

theorem trans (h : Gt S s t) (h' : Gt S t u) : Gt S s u := by
  induction s generalizing t u with
  | leaf l =>
    apply Gt.weight (h'.leaves_subperm.trans h.leaves_subperm)
    apply lt_of_le_of_lt h'.weight_le
    apply lt_of_le_of_ne h.weight_le
    intro heq
    obtain ⟨f, as, g, bs, hs, -⟩ := h.nodes heq.symm
    cases hs
  | node f as ih =>
    have hleaves := h'.leaves_subperm.trans h.leaves_subperm
    rcases lt_or_eq_of_le (h'.weight_le.trans h.weight_le) with hlt | heq
    · exact .weight hleaves hlt
    · have hst : S.weight (node f as) = S.weight t :=
        le_antisymm (heq ▸ h'.weight_le) h.weight_le
      have htu : S.weight t = S.weight u := hst.symm.trans heq.symm
      obtain ⟨_, _, g, bs, -, rfl⟩ := h.nodes hst
      obtain ⟨_, _, k, cs, -, rfl⟩ := h'.nodes htu
      refine (tie_iff heq.symm).mpr ⟨hleaves, ?_⟩
      exact ((tie_iff hst).mp h).2.trans ((tie_iff htu).mp h').2
        fun a ha b hb c hc hab hbc => ih a ha hab hbc

theorem irrefl (t : TermTree L F) : ¬ Gt S t t := by
  induction t with
  | leaf l =>
    intro h
    obtain ⟨f, as, g, bs, hs, -⟩ := h.nodes rfl
    cases hs
  | node f as ih =>
    intro h
    rcases ((tie_iff rfl).mp h).2 with hprec | ⟨-, -, hlex⟩
    · exact lt_irrefl _ hprec
    · apply hlex.not_equal (List.forall₂_same.mpr fun a _ => rfl)
      rintro a ha b hb rfl hgt
      exact ih a ha hgt

theorem asymm (h : Gt S s t) : ¬ Gt S t s := fun h' => irrefl s (h.trans h')

theorem ne (h : Gt S s t) : s ≠ t := by
  rintro rfl
  exact irrefl s h

/-- Closed under contexts. -/
theorem context {pre post : List (TermTree L F)} {a b : TermTree L F} (h : Gt S a b) :
    Gt S (node f (pre ++ a :: post)) (node f (pre ++ b :: post)) := by
  have hleaves : (node f (pre ++ b :: post)).leaves.Subperm (node f (pre ++ a :: post)).leaves := by
    rw [leaves_node, leaves_node, List.flatMap_append, List.flatMap_append, List.flatMap_cons,
      List.flatMap_cons]
    exact (List.Subperm.refl _).append (h.leaves_subperm.append (List.Subperm.refl _))
  have hweight : ∀ c : TermTree L F, S.weight (node f (pre ++ c :: post)) =
      S.label f + (pre.map S.weight).sum + (post.map S.weight).sum + S.weight c := by
    intro c
    rw [Scale.weight_node, List.map_append, List.sum_append, List.map_cons, List.sum_cons]
    omega
  rcases lt_or_eq_of_le h.weight_le with hlt | heq
  · apply Gt.weight hleaves
    rw [hweight, hweight]
    omega
  · apply Gt.lex hleaves _ rfl h
    rw [hweight, hweight, heq]

theorem put {p : List ℕ} (h : Gt S s t) {r : TermTree L F} (hp : u.sub p = some r) :
    Gt S (u.put p s) (u.put p t) := by
  induction p generalizing u with
  | nil =>
    rw [put_nil, put_nil]
    exact h
  | cons i p ih =>
    obtain ⟨f, args, a, rfl, ha, hr⟩ := sub_cons.mp hp
    obtain ⟨hi, rfl⟩ := List.getElem?_eq_some_iff.mp ha
    simp only [TermTree.put, List.modify_eq_take_cons_drop hi]
    exact context (ih hr)

theorem exists_rest {ks ls : List L} (h : ks.Subperm ls) : ∃ rest, ls.Perm (ks ++ rest) := by
  obtain ⟨ks', hks, hsub⟩ := h
  obtain ⟨rest, hrest⟩ := hsub.exists_perm_append
  exact ⟨rest, hrest.trans (hks.append_right rest)⟩

omit [Preorder P] in
/-- Leaves that are there more often make up for more. -/
theorem weight_subst_le {θ : L → TermTree L' F} (hleaves : t.leaves.Subperm s.leaves)
    (hθ : ∀ l ∈ s.leaves, S.leaf ≤ S.weight (θ l)) :
    S.weight s + S.weight (t.subst θ) ≤ S.weight t + S.weight (s.subst θ) := by
  obtain ⟨rest, hperm⟩ := exists_rest hleaves
  have hrest : ∀ ls : List L, (∀ l ∈ ls, S.leaf ≤ S.weight (θ l)) →
      ls.length * S.leaf ≤ (ls.map fun l => S.weight (θ l)).sum := by
    intro ls hls
    induction ls with
    | nil => simp
    | cons l ls ih =>
      rw [List.forall_mem_cons] at hls
      have := ih hls.2
      rw [List.length_cons, List.map_cons, List.sum_cons, Nat.succ_mul]
      omega
  have hle := hrest rest fun l hl => hθ l (hperm.mem_iff.mpr (List.mem_append_right _ hl))
  have hsum := (hperm.map fun l => S.weight (θ l)).sum_eq
  rw [List.map_append, List.sum_append] at hsum
  rw [Scale.weight_subst, Scale.weight_subst, hsum, Scale.weight_eq s, Scale.weight_eq t,
    hperm.length_eq, List.length_append, Nat.add_mul]
  omega

theorem leaves_subst_subperm {θ : L → TermTree L' F} (h : t.leaves.Subperm s.leaves) :
    (t.subst θ).leaves.Subperm (s.subst θ).leaves := by
  obtain ⟨rest, hperm⟩ := exists_rest h
  rw [leaves_subst, leaves_subst]
  refine List.Subperm.trans ?_ (hperm.flatMap_right _).symm.subperm
  rw [List.flatMap_append]
  exact (List.sublist_append_left _ _).subperm

/-- Closed under substitutions that put nothing lighter in the place of a leaf. -/
theorem subst {θ : L → TermTree L' F} (h : Gt S s t)
    (hθ : ∀ l ∈ s.leaves, S.leaf ≤ S.weight (θ l)) : Gt S (s.subst θ) (t.subst θ) := by
  induction h with
  | weight hleaves hweight =>
    have := weight_subst_le hleaves hθ
    exact .weight (leaves_subst_subperm hleaves) (by omega)
  | @prec f g as bs hleaves hweight hprec =>
    have hle := weight_subst_le hleaves hθ
    have hleaves' := leaves_subst_subperm (θ := θ) hleaves
    rcases lt_or_eq_of_le (by omega : S.weight ((node g bs).subst θ) ≤ S.weight ((node f as).subst θ))
      with hlt | heq
    · exact .weight hleaves' hlt
    · rw [subst_node, subst_node] at hleaves' heq ⊢
      exact .prec hleaves' heq.symm hprec
  | @lex f pre post post' a b hleaves hweight hpost h ih =>
    have hle := weight_subst_le hleaves hθ
    have hleaves' := leaves_subst_subperm (θ := θ) hleaves
    have hab := ih fun l hl => hθ l (mem_leaves_node.mpr
      ⟨a, List.mem_append_right _ List.mem_cons_self, hl⟩)
    rcases lt_or_eq_of_le (by omega : S.weight ((node f (pre ++ b :: post')).subst θ) ≤
      S.weight ((node f (pre ++ a :: post)).subst θ)) with hlt | heq
    · exact .weight hleaves' hlt
    · rw [subst_node, subst_node, List.map_append, List.map_append, List.map_cons,
        List.map_cons] at hleaves' heq ⊢
      exact .lex hleaves' heq.symm (by simpa using hpost) hab

end Gt

end Thvm.KnuthBendix
