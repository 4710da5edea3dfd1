import Mathlib.Data.List.Forall2
import Mathlib.Data.List.Perm.Basic
import Mathlib.Data.List.Zip
import Thvm.LexOrder
import Thvm.MultisetOrder
import Thvm.TermPositions

/-!
# The recursive path ordering with status

Trees are compared under a precedence of their labels. The arguments of a label are
compared from left to right or as a multiset; a symbol is a label together with the
number of its arguments.
-/

namespace Thvm.PathOrder

open TermTree

variable {L L' F P : Type} {mul : F → Prop}

/-- Equal up to the order of multiset arguments. -/
inductive Eqv (mul : F → Prop) : TermTree L F → TermTree L F → Prop
  | leaf (l : L) : Eqv mul (.leaf l) (.leaf l)
  | lex {f : F} {as bs : List (TermTree L F)} (hlen : as.length = bs.length)
      (hargs : ∀ a b, (a, b) ∈ as.zip bs → Eqv mul a b) : Eqv mul (.node f as) (.node f bs)
  | mul {f : F} {as bs cs : List (TermTree L F)} (hmul : mul f) (hperm : cs.Perm bs)
      (hlen : as.length = cs.length) (hargs : ∀ a c, (a, c) ∈ as.zip cs → Eqv mul a c) :
      Eqv mul (.node f as) (.node f bs)

namespace Eqv

variable {f g : F} {s t u : TermTree L F} {as bs : List (TermTree L F)}

theorem of_args (h : List.Forall₂ (Eqv mul) as bs) : Eqv mul (node f as) (node f bs) := by
  obtain ⟨hlen, hargs⟩ := List.forall₂_iff_zip.mp h
  exact .lex hlen fun a b hab => hargs hab

theorem of_perm (hmul : mul f) {cs : List (TermTree L F)} (hperm : cs.Perm bs)
    (h : List.Forall₂ (Eqv mul) as cs) : Eqv mul (node f as) (node f bs) := by
  obtain ⟨hlen, hargs⟩ := List.forall₂_iff_zip.mp h
  exact .mul hmul hperm hlen fun a b hab => hargs hab

theorem node_inv (h : Eqv mul (node f as) (node g bs)) :
    f = g ∧ (List.Forall₂ (Eqv mul) as bs ∨
      mul f ∧ ∃ cs, List.Forall₂ (Eqv mul) as cs ∧ cs.Perm bs) := by
  cases h with
  | lex hlen hargs =>
    exact ⟨rfl, .inl (List.forall₂_iff_zip.mpr ⟨hlen, fun h => hargs _ _ h⟩)⟩
  | mul hmul hperm hlen hargs =>
    exact ⟨rfl, .inr ⟨hmul, _, List.forall₂_iff_zip.mpr ⟨hlen, fun h => hargs _ _ h⟩, hperm⟩⟩

/-- The arguments correspond, whatever the status. -/
theorem args (h : Eqv mul (node f as) (node g bs)) :
    ∃ cs, List.Forall₂ (Eqv mul) as cs ∧ cs.Perm bs := by
  obtain ⟨-, hargs | ⟨-, hargs⟩⟩ := node_inv h
  · exact ⟨bs, hargs, .refl bs⟩
  · exact hargs

theorem refl (t : TermTree L F) : Eqv mul t t := by
  induction t with
  | leaf l => exact .leaf l
  | node f args ih => exact of_args (List.forall₂_same.mpr ih)

theorem symm (h : Eqv mul s t) : Eqv mul t s := by
  induction h with
  | leaf l => exact .leaf l
  | lex hlen hargs ih =>
    apply of_args
    apply List.Forall₂.flip
    exact List.forall₂_iff_zip.mpr ⟨hlen, fun h => ih _ _ h⟩
  | mul hmul hperm hlen hargs ih =>
    have hflip := List.Forall₂.flip (List.forall₂_iff_zip.mpr ⟨hlen, fun h => ih _ _ h⟩)
    obtain ⟨ds, hds, hperm'⟩ := List.perm_comp_forall₂ hperm.symm hflip
    exact of_perm hmul hperm' hds

theorem size_eq (h : Eqv mul s t) : s.size = t.size := by
  have hsum : ∀ {as cs : List (TermTree L F)},
      List.Forall₂ (fun a c => a.size = c.size) as cs → (as.map size).sum = (cs.map size).sum := by
    intro as cs h
    induction h with
    | nil => rfl
    | cons h _ ih => simp [h, ih]
  induction h with
  | leaf l => rfl
  | lex hlen hargs ih =>
    rw [size_node, size_node, hsum (List.forall₂_iff_zip.mpr ⟨hlen, fun h => ih _ _ h⟩)]
  | mul hmul hperm hlen hargs ih =>
    rw [size_node, size_node, hsum (List.forall₂_iff_zip.mpr ⟨hlen, fun h => ih _ _ h⟩),
      (hperm.map size).sum_eq]

theorem trans (h : Eqv mul s t) (h' : Eqv mul t u) : Eqv mul s u := by
  have hcomp : ∀ {as bs cs : List (TermTree L F)}, (∀ a ∈ as, ∀ {b c : TermTree L F},
      Eqv mul a b → Eqv mul b c → Eqv mul a c) → List.Forall₂ (Eqv mul) as bs →
      List.Forall₂ (Eqv mul) bs cs → List.Forall₂ (Eqv mul) as cs := by
    intro as bs cs ih h h'
    induction h generalizing cs with
    | nil =>
      cases h'
      exact .nil
    | cons hab _ ih' =>
      cases h' with
      | cons hbc htail =>
        exact .cons (ih _ List.mem_cons_self hab hbc)
          (ih' (fun a ha => ih a (List.mem_cons_of_mem _ ha)) htail)
  induction s generalizing t u with
  | leaf l =>
    cases h
    exact h'
  | node f as ih =>
    cases t with
    | leaf l => cases h
    | node g bs =>
      cases u with
      | leaf l => cases h'
      | node k cs =>
        obtain ⟨rfl, hst⟩ := node_inv h
        obtain ⟨rfl, htu⟩ := node_inv h'
        have ih' : ∀ a ∈ as, ∀ {b c : TermTree L F}, Eqv mul a b → Eqv mul b c → Eqv mul a c :=
          fun a ha b c hab hbc => ih a ha hab hbc
        rcases hst with hst | ⟨hmul, ds, hst, hperm⟩
        · rcases htu with htu | ⟨hmul, es, htu, hperm'⟩
          · exact of_args (hcomp ih' hst htu)
          · exact of_perm hmul hperm' (hcomp ih' hst htu)
        · obtain ⟨es, htu, hperm'⟩ := h'.args
          obtain ⟨ds', htu', hperm''⟩ := List.perm_comp_forall₂ hperm htu
          exact of_perm hmul (hperm''.trans hperm') (hcomp ih' hst htu')

theorem subst {θ : L → TermTree L' F} (h : Eqv mul s t) : Eqv mul (s.subst θ) (t.subst θ) := by
  have hmap : ∀ {as cs : List (TermTree L F)},
      List.Forall₂ (fun a c => Eqv mul (a.subst θ) (c.subst θ)) as cs →
      List.Forall₂ (Eqv mul) (as.map (TermTree.subst θ)) (cs.map (TermTree.subst θ)) :=
    fun h => List.forall₂_map_left_iff.mpr (List.forall₂_map_right_iff.mpr h)
  induction h with
  | leaf l => exact refl _
  | lex hlen hargs ih =>
    rw [subst_node, subst_node]
    exact of_args (hmap (List.forall₂_iff_zip.mpr ⟨hlen, fun h => ih _ _ h⟩))
  | mul hmul hperm hlen hargs ih =>
    rw [subst_node, subst_node]
    exact of_perm hmul (hperm.map _) (hmap (List.forall₂_iff_zip.mpr ⟨hlen, fun h => ih _ _ h⟩))

/-- Without multiset arguments only equal trees are equivalent. -/
theorem eq (h : Eqv mul s t) (hlex : ∀ f, ¬ mul f) : s = t := by
  induction h with
  | leaf l => rfl
  | lex hlen hargs ih =>
    congr 1
    exact List.forall₂_eq_eq_eq ▸ List.forall₂_iff_zip.mpr ⟨hlen, fun h => ih _ _ h⟩
  | mul hmul => exact absurd hmul (hlex _)

end Eqv

/-- Equal as multisets, up to `Eqv`. -/
def Matches (mul : F → Prop) (as bs : List (TermTree L F)) : Prop :=
  ∃ cs, List.Forall₂ (Eqv mul) as cs ∧ cs.Perm bs

/-- The recursive path ordering. -/
inductive Gt [LT P] (prec : F → P) (mul : F → Prop) : TermTree L F → TermTree L F → Prop
  | argEqv {f : F} {as : List (TermTree L F)} {a t : TermTree L F} (ha : a ∈ as)
      (h : Eqv mul a t) : Gt prec mul (.node f as) t
  | argGt {f : F} {as : List (TermTree L F)} {a t : TermTree L F} (ha : a ∈ as)
      (h : Gt prec mul a t) : Gt prec mul (.node f as) t
  | prec {f g : F} {as bs : List (TermTree L F)} (hprec : prec g < prec f)
      (hargs : ∀ b ∈ bs, Gt prec mul (.node f as) b) : Gt prec mul (.node f as) (.node g bs)
  | lex {f : F} {pre pre' post post' : List (TermTree L F)} {a b : TermTree L F}
      (hlex : ¬ mul f) (hpre : List.Forall₂ (Eqv mul) pre pre')
      (hpost : post.length = post'.length) (h : Gt prec mul a b)
      (hargs : ∀ c ∈ pre' ++ b :: post', Gt prec mul (.node f (pre ++ a :: post)) c) :
      Gt prec mul (.node f (pre ++ a :: post)) (.node f (pre' ++ b :: post'))
  | mul {f : F} {as bs kept out new : List (TermTree L F)}
      {above : TermTree L F → TermTree L F} (hmul : mul f) (hlen : as.length = bs.length)
      (has : Matches mul as (kept ++ out)) (hbs : Matches mul bs (kept ++ new))
      (hout : out ≠ []) (habove : ∀ b ∈ new, above b ∈ out)
      (h : ∀ b ∈ new, Gt prec mul (above b) b) : Gt prec mul (.node f as) (.node f bs)

def eqvSetoid (mul : F → Prop) : Setoid (TermTree L F) :=
  ⟨Eqv mul, Eqv.refl, Eqv.symm, Eqv.trans⟩

abbrev Class (L : Type) (mul : F → Prop) : Type := Quotient (eqvSetoid (L := L) mul)

/-- The classes of a list of trees, as a multiset. -/
def classes (mul : F → Prop) (as : List (TermTree L F)) : Multiset (Class L mul) :=
  (as.map (Quotient.mk _) : List (Class L mul))

section Classes

variable {s t : TermTree L F} {as bs cs : List (TermTree L F)}

theorem mk_eq_iff : (Quotient.mk (eqvSetoid mul) s = Quotient.mk _ t) ↔ Eqv mul s t :=
  Quotient.eq (r := eqvSetoid mul)

@[simp] theorem classes_nil : classes mul ([] : List (TermTree L F)) = 0 := rfl

@[simp] theorem classes_append :
    classes mul (as ++ bs) = classes mul as + classes mul bs := by
  simp [classes]

theorem mem_classes {q : Class L mul} : q ∈ classes mul as ↔ ∃ a ∈ as, Quotient.mk _ a = q := by
  simp [classes]

theorem exists_classes (M : Multiset (Class L mul)) : ∃ as, classes mul as = M := by
  induction M using Quotient.inductionOn with
  | h l =>
    have hout : (l.map Quotient.out).map (Quotient.mk (eqvSetoid mul)) = l := by
      rw [List.map_map]
      exact (List.map_congr_left fun q _ => Quotient.out_eq q).trans (List.map_id l)
    refine ⟨l.map Quotient.out, ?_⟩
    rw [classes, hout]
    rfl

theorem matches_iff : Matches mul as bs ↔ classes mul as = classes mul bs := by
  constructor
  · rintro ⟨cs, hcs, hperm⟩
    have hmap : as.map (Quotient.mk (eqvSetoid mul)) = cs.map (Quotient.mk _) := by
      rw [← List.forall₂_eq_eq_eq, List.forall₂_map_left_iff, List.forall₂_map_right_iff]
      exact hcs.imp fun a c h => mk_eq_iff.mpr h
    rw [classes, hmap]
    exact Multiset.coe_eq_coe.mpr (hperm.map _)
  · intro h
    have hbs : List.Forall₂ (fun q b => q = Quotient.mk (eqvSetoid mul) b)
        (bs.map (Quotient.mk _)) bs :=
      List.forall₂_map_left_iff.mpr (List.forall₂_same.mpr fun _ _ => rfl)
    obtain ⟨cs, hcs, hperm⟩ := List.perm_comp_forall₂ (Multiset.coe_eq_coe.mp h) hbs
    exact ⟨cs, (List.forall₂_map_left_iff.mp hcs).imp fun a c h => mk_eq_iff.mp h, hperm⟩

theorem Matches.symm (h : Matches mul as bs) : Matches mul bs as :=
  matches_iff.mpr (matches_iff.mp h).symm

theorem Matches.trans (h : Matches mul as bs) (h' : Matches mul bs cs) : Matches mul as cs :=
  matches_iff.mpr ((matches_iff.mp h).trans (matches_iff.mp h'))

theorem Matches.of_args (h : List.Forall₂ (Eqv mul) as bs) : Matches mul as bs :=
  ⟨bs, h, .refl bs⟩

theorem Matches.exists_eqv (h : Matches mul as bs) {a : TermTree L F} (ha : a ∈ as) :
    ∃ b ∈ bs, Eqv mul a b := by
  have hmem : Quotient.mk (eqvSetoid mul) a ∈ classes mul as := mem_classes.mpr ⟨a, ha, rfl⟩
  rw [matches_iff.mp h] at hmem
  obtain ⟨b, hb, hab⟩ := mem_classes.mp hmem
  exact ⟨b, hb, (mk_eq_iff.mp hab).symm⟩

theorem Matches.length_eq (h : Matches mul as bs) : as.length = bs.length := by
  obtain ⟨cs, hcs, hperm⟩ := h
  exact hcs.length_eq.trans hperm.length_eq

end Classes

namespace Gt

variable [Preorder P] {prec : F → P} {f g : F} {s t u : TermTree L F}
  {as bs : List (TermTree L F)}

theorem of_lex (hlex : ¬ mul f) (hlen : as.length = bs.length)
    (h : LexOrder.Above (Eqv mul) (Gt prec mul) as bs) (hargs : ∀ b ∈ bs, Gt prec mul (node f as) b) :
    Gt prec mul (node f as) (node f bs) := by
  obtain ⟨pre, pre', a, b, post, post', rfl, rfl, hpre, hab⟩ := LexOrder.above_split h
  have hpost : post.length = post'.length := by
    have := hpre.length_eq
    simp only [List.length_append, List.length_cons] at hlen
    omega
  exact .lex hlex hpre hpost hab hargs

/-- Above for all trees equivalent to the two. -/
def Stable (prec : F → P) (mul : F → Prop) (s t : TermTree L F) : Prop :=
  ∀ s' t', Eqv mul s s' → Eqv mul t t' → Gt prec mul s' t'

theorem stable (h : Gt prec mul s t) : Stable prec mul s t := by
  intro s' t' hs ht
  induction h generalizing s' t' with
  | argEqv ha h =>
    cases s' with
    | leaf l => cases hs
    | node f' as' =>
      obtain ⟨a', ha', haa⟩ := Matches.exists_eqv hs.args ha
      exact .argEqv ha' ((haa.symm.trans h).trans ht)
  | argGt ha h ih =>
    cases s' with
    | leaf l => cases hs
    | node f' as' =>
      obtain ⟨a', ha', haa⟩ := Matches.exists_eqv hs.args ha
      exact .argGt ha' (ih a' t' haa ht)
  | prec hprec hargs ih =>
    cases s' with
    | leaf l => cases hs
    | node f' as' =>
      cases t' with
      | leaf l => cases ht
      | node g' bs' =>
        obtain ⟨rfl, -⟩ := hs.node_inv
        obtain ⟨rfl, -⟩ := ht.node_inv
        refine .prec hprec fun b' hb' => ?_
        obtain ⟨b, hb, hbb⟩ := Matches.exists_eqv ht.symm.args hb'
        exact ih b hb _ b' hs hbb.symm
  | @lex f pre pre' post post' a b hlex hpre hpost h hargs ih ihargs =>
    cases s' with
    | leaf l => cases hs
    | node f' as' =>
      cases t' with
      | leaf l => cases ht
      | node g' bs' =>
        have hdom : ∀ b' ∈ bs', Gt prec mul (node f' as') b' := by
          intro b' hb'
          obtain ⟨b, hb, hbb⟩ := Matches.exists_eqv ht.symm.args hb'
          exact ihargs b hb _ b' hs hbb.symm
        obtain ⟨rfl, hs | ⟨hmul, -⟩⟩ := hs.node_inv
        · obtain ⟨rfl, ht | ⟨hmul, -⟩⟩ := ht.node_inv
          · have habove : LexOrder.Above (Eqv mul) (Stable prec mul) (pre ++ a :: post)
                (pre' ++ b :: post') := LexOrder.above_append hpre ih
            have hlen : as'.length = bs'.length := by
              rw [← hs.length_eq, ← ht.length_eq]
              simp [hpre.length_eq, hpost]
            apply of_lex hlex hlen _ hdom
            exact habove.congr hs ht (fun hab ha hb => (ha.symm.trans hab).trans hb)
              fun hab ha hb => hab _ _ ha hb
          · exact absurd hmul hlex
        · exact absurd hmul hlex
  | mul hmul hlen has hbs hout habove h ih =>
    cases s' with
    | leaf l => cases hs
    | node f' as' =>
      cases t' with
      | leaf l => cases ht
      | node g' bs' =>
        obtain ⟨rfl, -⟩ := hs.node_inv
        obtain ⟨rfl, -⟩ := ht.node_inv
        have has' : Matches mul as' _ := Matches.trans hs.symm.args has
        have hbs' : Matches mul bs' _ := Matches.trans ht.symm.args hbs
        refine .mul hmul ?_ has' hbs' hout habove h
        rw [← Matches.length_eq hs.args, hlen, Matches.length_eq ht.args]

theorem congr {s' t' : TermTree L F} (h : Gt prec mul s t) (hs : Eqv mul s s')
    (ht : Eqv mul t t') : Gt prec mul s' t' := h.stable s' t' hs ht

/-- The larger tree is above every argument of the smaller one. -/
theorem right_arg {b : TermTree L F} (h : Gt prec mul s (node g bs)) (hb : b ∈ bs) :
    Gt prec mul s b := by
  generalize ht : node g bs = t at h
  induction h with
  | argEqv ha h =>
    subst ht
    exact .argGt ha ((argEqv hb (.refl b)).congr h.symm (.refl b))
  | argGt ha h ih => exact .argGt ha (ih ht)
  | prec hprec hargs ih =>
    obtain ⟨rfl, rfl⟩ := node.inj ht
    exact hargs b hb
  | lex hlex hpre hpost h hargs ih ihargs =>
    obtain ⟨rfl, rfl⟩ := node.inj ht
    exact hargs b hb
  | mul hmul hlen has hbs hout habove h ih =>
    obtain ⟨rfl, rfl⟩ := node.inj ht
    obtain ⟨b', hb', hbb⟩ := hbs.exists_eqv hb
    rcases List.mem_append.mp hb' with hb' | hb'
    · obtain ⟨a, ha, hba⟩ := has.symm.exists_eqv (List.mem_append_left _ hb')
      exact .argEqv ha (hba.symm.trans hbb.symm)
    · obtain ⟨a, ha, hba⟩ := has.symm.exists_eqv (List.mem_append_right _ (habove b' hb'))
      exact .argGt ha ((h b' hb').congr hba hbb.symm)

/-- A leaf is above nothing. -/
theorem not_leaf {l : L} : ¬ Gt prec mul (leaf l) t := nofun

/-- The relation between classes. -/
def onClass (prec : F → P) (mul : F → Prop) : Class L mul → Class L mul → Prop :=
  Quotient.lift₂ (Gt prec mul) fun _ _ _ _ hs ht =>
    propext ⟨fun h => h.congr hs ht, fun h => h.congr hs.symm ht.symm⟩

theorem above_classes_iff : MultisetOrder.Above (onClass prec mul) (classes mul as) (classes mul bs) ↔
    ∃ kept out new, Matches mul as (kept ++ out) ∧ Matches mul bs (kept ++ new) ∧ out ≠ [] ∧
      ∀ b ∈ new, ∃ a ∈ out, Gt prec mul a b := by
  constructor
  · rintro ⟨Z, X, Y, hX, has, hbs, hY⟩
    obtain ⟨kept, rfl⟩ := exists_classes Z
    obtain ⟨out, rfl⟩ := exists_classes X
    obtain ⟨new, rfl⟩ := exists_classes Y
    refine ⟨kept, out, new, ?_, ?_, ?_, fun b hb => ?_⟩
    · rw [matches_iff, has, classes_append]
    · rw [matches_iff, hbs, classes_append]
    · rintro rfl
      exact hX rfl
    · obtain ⟨q, hq, hqb⟩ := hY _ (mem_classes.mpr ⟨b, hb, rfl⟩)
      obtain ⟨a, ha, rfl⟩ := mem_classes.mp hq
      exact ⟨a, ha, hqb⟩
  · rintro ⟨kept, out, new, has, hbs, hout, hnew⟩
    refine ⟨classes mul kept, classes mul out, classes mul new, ?_, ?_, ?_, fun q hq => ?_⟩
    · intro h0
      obtain ⟨a, ha⟩ := List.exists_mem_of_ne_nil out hout
      have hmem : Quotient.mk (eqvSetoid mul) a ∈ classes mul out := mem_classes.mpr ⟨a, ha, rfl⟩
      rw [h0] at hmem
      exact Multiset.notMem_zero _ hmem
    · rw [matches_iff.mp has, classes_append]
    · rw [matches_iff.mp hbs, classes_append]
    · obtain ⟨b, hb, rfl⟩ := mem_classes.mp hq
      obtain ⟨a, ha, hab⟩ := hnew b hb
      exact ⟨_, mem_classes.mpr ⟨a, ha, rfl⟩, hab⟩

theorem of_mul (hmul : mul f) (hlen : as.length = bs.length)
    (h : MultisetOrder.Above (onClass prec mul) (classes mul as) (classes mul bs)) :
    Gt prec mul (node f as) (node f bs) := by
  classical
  obtain ⟨kept, out, new, has, hbs, hout, hnew⟩ := above_classes_iff.mp h
  choose! above habove hgt using hnew
  exact .mul hmul hlen has hbs hout habove hgt

/-- What decides between trees whose roots have the same symbol. -/
def ArgsGt (prec : F → P) (mul : F → Prop) (f : F) (as bs : List (TermTree L F)) : Prop :=
  ¬ mul f ∧ LexOrder.Above (Eqv mul) (Gt prec mul) as bs ∨
    mul f ∧ MultisetOrder.Above (onClass prec mul) (classes mul as) (classes mul bs)

theorem node_iff : Gt prec mul (node f as) (node g bs) ↔
    (∃ a ∈ as, Eqv mul a (node g bs) ∨ Gt prec mul a (node g bs)) ∨
      (∀ b ∈ bs, Gt prec mul (node f as) b) ∧
        (prec g < prec f ∨ f = g ∧ as.length = bs.length ∧ ArgsGt prec mul f as bs) := by
  constructor
  · intro h
    have hdom : ∀ b ∈ bs, Gt prec mul (node f as) b := fun b hb => h.right_arg hb
    cases h with
    | argEqv ha h => exact .inl ⟨_, ha, .inl h⟩
    | argGt ha h => exact .inl ⟨_, ha, .inr h⟩
    | prec hprec hargs => exact .inr ⟨hargs, .inl hprec⟩
    | lex hlex hpre hpost h hargs =>
      refine .inr ⟨hargs, .inr ⟨rfl, ?_, .inl ⟨hlex, LexOrder.above_append hpre h⟩⟩⟩
      simp [hpre.length_eq, hpost]
    | mul hmul hlen has hbs hout habove h =>
      refine .inr ⟨hdom, .inr ⟨rfl, hlen, .inr ⟨hmul, above_classes_iff.mpr ?_⟩⟩⟩
      exact ⟨_, _, _, has, hbs, hout, fun b hb => ⟨_, habove b hb, h b hb⟩⟩
  · rintro (⟨a, ha, h | h⟩ | ⟨hdom, hprec | ⟨rfl, hlen, ⟨hlex, h⟩ | ⟨hmul, h⟩⟩⟩)
    · exact .argEqv ha h
    · exact .argGt ha h
    · exact .prec hprec hdom
    · exact of_lex hlex hlen h hdom
    · exact of_mul hmul hlen h

theorem node_leaf_iff {l : L} : Gt prec mul (node f as) (leaf l) ↔
    ∃ a ∈ as, Eqv mul a (leaf l) ∨ Gt prec mul a (leaf l) := by
  constructor
  · intro h
    cases h with
    | argEqv ha h => exact ⟨_, ha, .inl h⟩
    | argGt ha h => exact ⟨_, ha, .inr h⟩
  · rintro ⟨a, ha, h | h⟩
    · exact .argEqv ha h
    · exact .argGt ha h

/-- A tree is at or above the leaves in it. -/
theorem ge_leaf_iff (prec : F → P) (mul : F → Prop) {l : L} :
    Eqv mul t (leaf l) ∨ Gt prec mul t (leaf l) ↔ l ∈ t.leaves := by
  induction t with
  | leaf l' =>
    rw [leaves_leaf, List.mem_singleton]
    constructor
    · rintro (h | h)
      · cases h
        rfl
      · exact absurd h not_leaf
    · rintro rfl
      exact .inl (.leaf l)
  | node f args ih =>
    rw [mem_leaves_node, ← exists_congr fun a => and_congr_right fun ha => ih a ha, ← node_leaf_iff]
    constructor
    · rintro (h | h)
      · cases h
      · exact h
    · exact .inr

theorem ArgsGt.trans {cs : List (TermTree L F)} (h : ArgsGt prec mul f as bs)
    (h' : ArgsGt prec mul f bs cs) (hgt : ∀ a ∈ as, ∀ b ∈ bs, ∀ c ∈ cs,
      Gt prec mul a b → Gt prec mul b c → Gt prec mul a c) : ArgsGt prec mul f as cs := by
  rcases h with ⟨hlex, h⟩ | ⟨hmul, h⟩
  · rcases h' with ⟨-, h'⟩ | ⟨hmul, -⟩
    · refine .inl ⟨hlex, h.trans h' fun a ha b hb c hc => ⟨hgt a ha b hb c hc, ?_, ?_, ?_⟩⟩
      · exact fun hab hbc => hab.congr (.refl a) hbc
      · exact fun hab hbc => hbc.congr hab.symm (.refl c)
      · exact Eqv.trans
    · exact absurd hmul hlex
  · rcases h' with ⟨hlex, -⟩ | ⟨-, h'⟩
    · exact absurd hmul hlex
    · refine .inr ⟨hmul, h.trans h' fun p hp q hq r hr hpq hqr => ?_⟩
      obtain ⟨a, ha, rfl⟩ := mem_classes.mp hp
      obtain ⟨b, hb, rfl⟩ := mem_classes.mp hq
      obtain ⟨c, hc, rfl⟩ := mem_classes.mp hr
      exact hgt a ha b hb c hc hpq hqr

theorem trans (h : Gt prec mul s t) (h' : Gt prec mul t u) : Gt prec mul s u := by
  generalize hn : s.size + t.size + u.size = n
  induction n using Nat.strong_induction_on generalizing s t u with
  | _ n ih =>
    cases s with
    | leaf l => exact absurd h not_leaf
    | node f as =>
      cases t with
      | leaf l => exact absurd h' not_leaf
      | node g bs =>
        have harg : ∀ b ∈ bs, Gt prec mul (node f as) b → Eqv mul b u ∨ Gt prec mul b u →
            Gt prec mul (node f as) u := by
          rintro b hb hsb (hbu | hbu)
          · exact hsb.congr (.refl _) hbu
          · have := size_lt g hb
            exact ih _ (by omega) hsb hbu rfl
        have hleft : (∃ a ∈ as, Eqv mul a (node g bs) ∨ Gt prec mul a (node g bs)) →
            Gt prec mul (node f as) u := by
          rintro ⟨a, ha, hat | hat⟩
          · exact .argGt ha (h'.congr hat.symm (.refl u))
          · have := size_lt f ha
            exact .argGt ha (ih _ (by omega) hat h' rfl)
        rcases node_iff.mp h with h | ⟨hdom, hhead⟩
        · exact hleft h
        · cases u with
          | leaf l =>
            obtain ⟨b, hb, hbu⟩ := node_leaf_iff.mp h'
            exact harg b hb (hdom b hb) hbu
          | node k cs =>
            rcases node_iff.mp h' with ⟨b, hb, hbu⟩ | ⟨hdom', hhead'⟩
            · exact harg b hb (hdom b hb) hbu
            · have hdom'' : ∀ c ∈ cs, Gt prec mul (node f as) c := by
                intro c hc
                have := size_lt k hc
                exact ih _ (by omega) h (hdom' c hc) rfl
              refine node_iff.mpr (.inr ⟨hdom'', ?_⟩)
              rcases hhead with hfg | ⟨rfl, hlen, hargs⟩
              · rcases hhead' with hgk | ⟨rfl, -, -⟩
                · exact .inl (lt_trans hgk hfg)
                · exact .inl hfg
              · rcases hhead' with hgk | ⟨rfl, hlen', hargs'⟩
                · exact .inl hgk
                · refine .inr ⟨rfl, hlen.trans hlen', hargs.trans hargs' ?_⟩
                  intro a ha b hb c hc hab hbc
                  have := size_lt f ha
                  have := size_lt f hb
                  have := size_lt f hc
                  exact ih _ (by omega) hab hbc rfl

instance : IsTrans (TermTree L F) (Gt prec mul) := ⟨fun _ _ _ => trans⟩

instance : IsTrans (Class L mul) (onClass prec mul) := by
  constructor
  intro p q r
  induction p using Quotient.inductionOn
  induction q using Quotient.inductionOn
  induction r using Quotient.inductionOn
  exact trans

theorem irrefl (t : TermTree L F) : ¬ Gt prec mul t t := by
  induction t with
  | leaf l => exact not_leaf
  | node f as ih =>
    intro h
    rcases node_iff.mp h with ⟨a, ha, hat | hat⟩ | ⟨-, hprec | ⟨-, -, ⟨hlex, h⟩ | ⟨hmul, h⟩⟩⟩
    · have := size_lt f ha
      have := hat.size_eq
      omega
    · exact ih a ha (hat.trans (argEqv ha (.refl a)))
    · exact lt_irrefl _ hprec
    · apply h.not_equal (List.forall₂_same.mpr fun a _ => Eqv.refl a)
      intro a ha b hb hab hgt
      exact ih a ha (hgt.congr (.refl a) hab.symm)
    · obtain ⟨q, hq, hqq⟩ := h.exists_loop
      obtain ⟨a, ha, rfl⟩ := mem_classes.mp hq
      exact ih a ha hqq

instance : Std.Irrefl (Gt (L := L) prec mul) := ⟨irrefl⟩

instance : Std.Irrefl (onClass (L := L) prec mul) := by
  constructor
  intro q
  induction q using Quotient.inductionOn with
  | h t => exact irrefl t

theorem asymm (h : Gt prec mul s t) : ¬ Gt prec mul t s := fun h' => irrefl s (h.trans h')

theorem not_eqv (h : Gt prec mul s t) : ¬ Eqv mul s t :=
  fun heqv => irrefl s (h.congr (.refl s) heqv.symm)

theorem context {pre post : List (TermTree L F)} {a b : TermTree L F} (h : Gt prec mul a b) :
    Gt prec mul (node f (pre ++ a :: post)) (node f (pre ++ b :: post)) := by
  have hdom : ∀ c ∈ pre ++ b :: post, Gt prec mul (node f (pre ++ a :: post)) c := by
    intro c hc
    rcases List.mem_append.mp hc with hc | hc
    · exact .argEqv (List.mem_append_left _ hc) (.refl c)
    · rcases List.mem_cons.mp hc with rfl | hc
      · exact .argGt (List.mem_append_right _ List.mem_cons_self) h
      · exact .argEqv (List.mem_append_right _ (List.mem_cons_of_mem _ hc)) (.refl c)
  by_cases hmul : mul f
  · have hmiddle : ∀ c : TermTree L F, Matches mul (pre ++ c :: post) ((pre ++ post) ++ [c]) := by
      intro c
      refine ⟨_, List.forall₂_same.mpr fun a _ => Eqv.refl a, List.perm_middle.trans ?_⟩
      exact (List.perm_append_singleton c (pre ++ post)).symm
    refine of_mul hmul (by simp) (above_classes_iff.mpr ?_)
    exact ⟨pre ++ post, [a], [b], hmiddle a, hmiddle b, List.cons_ne_nil a [],
      fun c hc => ⟨a, List.mem_singleton_self a, List.mem_singleton.mp hc ▸ h⟩⟩
  · apply of_lex hmul (by simp) _ hdom
    exact LexOrder.above_append (List.forall₂_same.mpr fun a _ => Eqv.refl a) h

/-- Closed under replacement at a position. -/
theorem put {p : List ℕ} (h : Gt prec mul s t) {r : TermTree L F} (hp : u.sub p = some r) :
    Gt prec mul (u.put p s) (u.put p t) := by
  induction p generalizing u with
  | nil =>
    rw [put_nil, put_nil]
    exact h
  | cons i p ih =>
    obtain ⟨f, args, a, rfl, ha, hr⟩ := sub_cons.mp hp
    obtain ⟨hi, rfl⟩ := List.getElem?_eq_some_iff.mp ha
    simp only [TermTree.put, List.modify_eq_take_cons_drop hi]
    exact context (ih hr)

theorem subst {θ : L → TermTree L' F} (h : Gt prec mul s t) :
    Gt prec mul (s.subst θ) (t.subst θ) := by
  have hmatches : ∀ {as bs : List (TermTree L F)}, Matches mul as bs →
      Matches mul (as.map (TermTree.subst θ)) (bs.map (TermTree.subst θ)) := by
    rintro as bs ⟨cs, hcs, hperm⟩
    refine ⟨cs.map (TermTree.subst θ), ?_, hperm.map _⟩
    exact List.forall₂_map_left_iff.mpr (List.forall₂_map_right_iff.mpr (hcs.imp fun _ _ => Eqv.subst))
  induction h with
  | argEqv ha h =>
    rw [subst_node]
    exact .argEqv (List.mem_map_of_mem ha) h.subst
  | argGt ha h ih =>
    rw [subst_node]
    exact .argGt (List.mem_map_of_mem ha) ih
  | prec hprec hargs ih =>
    rw [subst_node] at ih
    rw [subst_node, subst_node]
    exact .prec hprec (List.forall_mem_map.mpr ih)
  | lex hlex hpre hpost h hargs ih ihargs =>
    rw [subst_node] at ihargs
    rw [subst_node, subst_node]
    refine of_lex hlex (by simp [hpre.length_eq, hpost]) ?_ (List.forall_mem_map.mpr ihargs)
    rw [List.map_append, List.map_append]
    apply LexOrder.above_append _ ih
    exact List.forall₂_map_left_iff.mpr (List.forall₂_map_right_iff.mpr (hpre.imp fun _ _ => Eqv.subst))
  | mul hmul hlen has hbs hout habove h ih =>
    rw [subst_node, subst_node]
    refine of_mul hmul (by simpa using hlen) (above_classes_iff.mpr ?_)
    have has' := hmatches has
    have hbs' := hmatches hbs
    rw [List.map_append] at has' hbs'
    refine ⟨_, _, _, has', hbs', by simpa using hout, List.forall_mem_map.mpr fun b hb => ?_⟩
    exact ⟨_, List.mem_map_of_mem (habove b hb), ih b hb⟩

theorem of_sub {p : List ℕ} (h : s.sub p = some t) (hp : p ≠ []) : Gt prec mul s t := by
  induction p generalizing s with
  | nil => exact absurd rfl hp
  | cons i p ih =>
    obtain ⟨f, args, a, rfl, ha, hsub⟩ := sub_cons.mp h
    by_cases hp' : p = []
    · subst hp'
      obtain rfl : a = t := by simpa using hsub
      exact .argEqv (List.mem_of_getElem? ha) (.refl a)
    · exact .argGt (List.mem_of_getElem? ha) (ih hsub hp')

/-- Every leaf below is a leaf above. -/
theorem leaves_subset (h : Gt prec mul s t) : t.leaves ⊆ s.leaves := by
  intro l hl
  cases s with
  | leaf l' => exact absurd h not_leaf
  | node f as =>
    rcases (ge_leaf_iff prec mul).mpr hl with heq | hgt
    · cases heq
      exact (ge_leaf_iff prec mul).mp (.inr h)
    · exact (ge_leaf_iff prec mul).mp (.inr (h.trans hgt))

end Gt

theorem not_eqv_of_prec [Preorder P] {prec : F → P} {f g : F} {as bs : List (TermTree L F)}
    (h : prec g < prec f) : ¬ Eqv mul (node f as) (node g bs) := by
  intro heqv
  obtain ⟨rfl, -⟩ := heqv.node_inv
  exact lt_irrefl _ h

/-- No argument of either tree is the other tree or above it. -/
structure NoArgGe [LT P] (prec : F → P) (mul : F → Prop) (f g : F)
    (as bs : List (TermTree L F)) : Prop where
  left : ¬ ∃ a ∈ as, Eqv mul a (.node g bs) ∨ Gt prec mul a (.node g bs)
  right : ¬ ∃ b ∈ bs, Eqv mul b (.node f as) ∨ Gt prec mul b (.node f as)

namespace NoArgGe

variable [Preorder P] {prec : F → P} {f g : F} {as bs : List (TermTree L F)}

theorem swap (h : NoArgGe prec mul f g as bs) : NoArgGe prec mul g f bs as := ⟨h.right, h.left⟩

theorem gt_iff (h : NoArgGe prec mul f g as bs) : Gt prec mul (node f as) (node g bs) ↔
    (∀ b ∈ bs, Gt prec mul (node f as) b) ∧
      (prec g < prec f ∨ f = g ∧ as.length = bs.length ∧ Gt.ArgsGt prec mul f as bs) :=
  Gt.node_iff.trans (or_iff_right h.left)

theorem gt_prec_iff (h : NoArgGe prec mul f g as bs) (hprec : prec g < prec f) :
    Gt prec mul (node f as) (node g bs) ↔ ∀ b ∈ bs, Gt prec mul (node f as) b :=
  h.gt_iff.trans (and_iff_left (.inl hprec))

theorem not_gt_prec (h : NoArgGe prec mul f g as bs) (hprec : prec f < prec g) :
    ¬ Gt prec mul (node f as) (node g bs) := by
  intro hgt
  rcases (h.gt_iff.mp hgt).2 with hprec' | ⟨rfl, -⟩
  · exact lt_asymm hprec hprec'
  · exact lt_irrefl _ hprec

theorem length_eq (h : NoArgGe prec mul f f as bs) (hgt : Gt prec mul (node f as) (node f bs)) :
    as.length = bs.length := by
  rcases (h.gt_iff.mp hgt).2 with hprec | ⟨-, hlen, -⟩
  · exact absurd hprec (lt_irrefl _)
  · exact hlen

theorem gt_lex_iff (h : NoArgGe prec mul f f as bs) (hlex : ¬ mul f) (hlen : as.length = bs.length) :
    Gt prec mul (node f as) (node f bs) ↔ (∀ b ∈ bs, Gt prec mul (node f as) b) ∧
      LexOrder.Above (Eqv mul) (Gt prec mul) as bs := by
  rw [h.gt_iff]
  apply and_congr_right
  intro _
  constructor
  · rintro (hprec | ⟨-, -, ⟨-, h⟩ | ⟨hmul, -⟩⟩)
    · exact absurd hprec (lt_irrefl _)
    · exact h
    · exact absurd hmul hlex
  · exact fun h => .inr ⟨rfl, hlen, .inl ⟨hlex, h⟩⟩

theorem gt_mul_iff (h : NoArgGe prec mul f f as bs) (hmul : mul f) (hlen : as.length = bs.length) :
    Gt prec mul (node f as) (node f bs) ↔
      MultisetOrder.Above (Gt.onClass prec mul) (classes mul as) (classes mul bs) := by
  constructor
  · intro hgt
    rcases (h.gt_iff.mp hgt).2 with hprec | ⟨-, -, ⟨hlex, -⟩ | ⟨-, h⟩⟩
    · exact absurd hprec (lt_irrefl _)
    · exact absurd hmul hlex
    · exact h
  · exact Gt.of_mul hmul hlen

end NoArgGe

end Thvm.PathOrder
