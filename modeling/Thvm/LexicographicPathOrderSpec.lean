import Thvm.LexicographicPathOrder
import Thvm.PathOrder

/-!
# What the recursion of `thvm_lpo` decides

It decides the lexicographic path ordering but for ties: where the first arguments that
differ are incomparable, it goes on as if the first were the smaller one.
-/

namespace Thvm.Lpo

open MemoTables PathOrder TermTree

abbrev LpoGt (cfg : LpoConfig) : FTerm → FTerm → Prop := Gt cfg.prec fun _ => False

def Incomparable (cfg : LpoConfig) (s t : FTerm) : Prop :=
  s ≠ t ∧ ¬ LpoGt cfg s t ∧ ¬ LpoGt cfg t s

/-- Terms with one root whose first different arguments are incomparable, where `t` is above
every argument of `s` and not above `s`. -/
inductive LpoTie (cfg : LpoConfig) : FTerm → FTerm → Prop
  | intro {f : ℕ} {as bs : List FTerm} (hlen : as.length = bs.length)
      (hfirst : LexOrder.Above (· = ·) (Incomparable cfg) as bs)
      (hbelow : ∀ a ∈ as, LpoGt cfg (.node f bs) a)
      (hnot : ∀ b ∈ bs, ¬ (b = .node f as ∨ LpoGt cfg b (.node f as))) :
      LpoTie cfg (.node f as) (.node f bs)

open Classical in
/-- The verdict of the recursion. -/
noncomputable def lpoVerdict (cfg : LpoConfig) (s t : FTerm) : Cmp :=
  if s = t then .eq else if LpoGt cfg s t then .gt
  else if LpoGt cfg t s ∨ LpoTie cfg s t then .lt else .un

section Verdict

variable {cfg : LpoConfig} {s t : FTerm} {f g : ℕ} {as bs : List FTerm}

theorem eqv_iff_eq : Eqv (fun _ : ℕ => False) s t ↔ s = t := by
  constructor
  · exact fun h => h.eq fun _ => id
  · rintro rfl
    exact .refl s

theorem ge_iff : (∃ a ∈ as, Eqv (fun _ : ℕ => False) a t ∨ LpoGt cfg a t) ↔
    ∃ a ∈ as, a = t ∨ LpoGt cfg a t := by
  simp only [eqv_iff_eq]

abbrev NoArgGe (cfg : LpoConfig) (f g : ℕ) (as bs : List FTerm) : Prop :=
  PathOrder.NoArgGe cfg.prec (fun _ => False) f g as bs

/-- The lexicographic condition, with equality in the place of equivalence. -/
theorem NoArgGe.gt_lex_iff (h : NoArgGe cfg f f as bs) (hlen : as.length = bs.length) :
    LpoGt cfg (.node f as) (.node f bs) ↔ (∀ b ∈ bs, LpoGt cfg (.node f as) b) ∧
      LexOrder.Above (· = ·) (LpoGt cfg) as bs := by
  have heqv : Eqv (L := Leaf) (fun _ : ℕ => False) = (· = ·) := by
    funext s t
    exact propext eqv_iff_eq
  have hiff := PathOrder.NoArgGe.gt_lex_iff h id hlen
  rw [heqv] at hiff
  exact hiff

theorem LpoTie.noArgGe (h : LpoTie cfg (.node f as) (.node g bs)) : NoArgGe cfg f g as bs := by
  cases h with
  | intro hlen hfirst hbelow hnot =>
    constructor
    · rw [ge_iff]
      rintro ⟨a, ha, rfl | hat⟩
      · exact Gt.irrefl _ (hbelow _ ha)
      · exact Gt.asymm (hbelow a ha) hat
    · rw [ge_iff]
      rintro ⟨b, hb, hbs⟩
      exact hnot b hb hbs

theorem incomparable_symm (h : Incomparable cfg s t) : Incomparable cfg t s :=
  ⟨h.1.symm, h.2.2, h.2.1⟩

theorem LpoTie.not_gt (h : LpoTie cfg s t) : ¬ LpoGt cfg s t := by
  cases h with
  | @intro f as bs hlen hfirst hbelow hnot =>
    intro hgt
    have hno := LpoTie.noArgGe (.intro hlen hfirst hbelow hnot)
    obtain ⟨a, -, b, -, hab, hinc⟩ := LexOrder.Above.meet ((hno.gt_lex_iff hlen).mp hgt).2 hfirst
      fun a b hab => hab ▸ ⟨Gt.irrefl a, fun hinc => hinc.1 rfl⟩
    exact hinc.2.1 hab

theorem LpoTie.not_lt (h : LpoTie cfg s t) : ¬ LpoGt cfg t s := by
  cases h with
  | @intro f as bs hlen hfirst hbelow hnot =>
    intro hlt
    have hno := LpoTie.noArgGe (.intro hlen hfirst hbelow hnot)
    have habove := ((NoArgGe.gt_lex_iff hno.swap hlen.symm).mp hlt).2.swap
    have hflip : flip (fun a b : FTerm => a = b) = (· = ·) := by
      funext a b
      exact propext eq_comm
    rw [hflip] at habove
    obtain ⟨a, -, b, -, hba, hinc⟩ := LexOrder.Above.meet habove hfirst
      fun a b hab => hab ▸ ⟨Gt.irrefl a, fun hinc => hinc.1 rfl⟩
    exact hinc.2.2 hba

theorem LpoTie.ne (h : LpoTie cfg s t) : s ≠ t := by
  rintro rfl
  cases h with
  | intro hlen hfirst hbelow hnot =>
    exact hfirst.not_equal (List.forall₂_same.mpr fun a _ => rfl) fun a _ b _ hab hinc => hinc.1 hab

theorem lpoVerdict_self (cfg : LpoConfig) (s : FTerm) : lpoVerdict cfg s s = .eq := if_pos rfl

theorem lpoVerdict_of_gt (h : LpoGt cfg s t) : lpoVerdict cfg s t = .gt := by
  have hne : s ≠ t := fun heq => Gt.irrefl t (heq ▸ h)
  rw [lpoVerdict, if_neg hne, if_pos h]

theorem lpoVerdict_of_lt (h : LpoGt cfg t s) : lpoVerdict cfg s t = .lt := by
  have hne : s ≠ t := fun heq => Gt.irrefl t (heq ▸ h)
  rw [lpoVerdict, if_neg hne, if_neg h.asymm, if_pos (.inl h)]

theorem lpoVerdict_of_tie (h : LpoTie cfg s t) : lpoVerdict cfg s t = .lt := by
  rw [lpoVerdict, if_neg h.ne, if_neg h.not_gt, if_pos (.inr h)]

theorem lpoVerdict_of_not (hne : s ≠ t) (hgt : ¬ LpoGt cfg s t) (hlt : ¬ LpoGt cfg t s)
    (htie : ¬ LpoTie cfg s t) : lpoVerdict cfg s t = .un := by
  rw [lpoVerdict, if_neg hne, if_neg hgt, if_neg fun h => h.elim hlt htie]

theorem lpoVerdict_eq_iff : lpoVerdict cfg s t = .eq ↔ s = t := by
  constructor
  · intro h
    unfold lpoVerdict at h
    split_ifs at h with heq
    exact heq
  · rintro rfl
    exact lpoVerdict_self cfg s

theorem lpoVerdict_gt_iff : lpoVerdict cfg s t = .gt ↔ LpoGt cfg s t := by
  constructor
  · intro h
    unfold lpoVerdict at h
    split_ifs at h with _ hgt
    exact hgt
  · exact lpoVerdict_of_gt

theorem lpoVerdict_lt_iff : lpoVerdict cfg s t = .lt ↔ LpoGt cfg t s ∨ LpoTie cfg s t := by
  constructor
  · intro h
    unfold lpoVerdict at h
    split_ifs at h with _ _ hlt
    exact hlt
  · rintro (h | h)
    · exact lpoVerdict_of_lt h
    · exact lpoVerdict_of_tie h

theorem lpoVerdict_ne_raw (cfg : LpoConfig) (s t : FTerm) : lpoVerdict cfg s t ≠ .raw := by
  unfold lpoVerdict
  split_ifs <;> simp

/-- Verdicts of terms with different roots. -/
theorem lpoVerdict_prec (h : NoArgGe cfg f g as bs) (hprec : cfg.prec g < cfg.prec f) :
    ((∀ b ∈ bs, LpoGt cfg (.node f as) b) → lpoVerdict cfg (.node f as) (.node g bs) = .gt) ∧
      ((¬ ∀ b ∈ bs, LpoGt cfg (.node f as) b) →
        lpoVerdict cfg (.node f as) (.node g bs) = .un) := by
  rw [← h.gt_prec_iff hprec]
  refine ⟨lpoVerdict_of_gt, fun hgt => lpoVerdict_of_not ?_ hgt (h.swap.not_gt_prec hprec) ?_⟩
  · exact fun heq => absurd (eqv_iff_eq.mpr heq) (not_eqv_of_prec hprec)
  · rintro ⟨⟩
    exact lt_irrefl _ hprec

theorem lpoVerdict_prec' (h : NoArgGe cfg f g as bs) (hprec : cfg.prec f < cfg.prec g) :
    ((∀ a ∈ as, LpoGt cfg (.node g bs) a) → lpoVerdict cfg (.node f as) (.node g bs) = .lt) ∧
      ((¬ ∀ a ∈ as, LpoGt cfg (.node g bs) a) →
        lpoVerdict cfg (.node f as) (.node g bs) = .un) := by
  rw [← h.swap.gt_prec_iff hprec]
  refine ⟨lpoVerdict_of_lt, fun hlt => lpoVerdict_of_not ?_ (h.not_gt_prec hprec) hlt ?_⟩
  · exact fun heq => absurd (eqv_iff_eq.mpr heq.symm) (not_eqv_of_prec hprec)
  · rintro ⟨⟩
    exact lt_irrefl _ hprec

theorem lpoVerdict_length (h : NoArgGe cfg f f as bs) (hlen : as.length ≠ bs.length) :
    lpoVerdict cfg (.node f as) (.node f bs) = .un := by
  apply lpoVerdict_of_not
  · rintro heq
    exact hlen (congrArg List.length (node.inj heq).2)
  · exact fun hgt => hlen (h.length_eq hgt)
  · exact fun hlt => hlen (h.swap.length_eq hlt).symm
  · rintro ⟨hlen'⟩
    exact hlen hlen'

theorem flip_eq : flip (fun a b : FTerm => a = b) = (· = ·) := by
  funext a b
  exact propext eq_comm

/-- The comparison from the other side, at the same first difference. -/
theorem above_flip (h : LexOrder.Above (· = ·) (LpoGt cfg) bs as) :
    LexOrder.Above (· = ·) (flip (LpoGt cfg)) as bs := by
  have hswap := h.swap
  rwa [flip_eq] at hswap

theorem not_above_both (h : LexOrder.Above (· = ·) (LpoGt cfg) as bs)
    (h' : LexOrder.Above (· = ·) (LpoGt cfg) bs as) : False := by
  obtain ⟨a, -, b, -, hab, hba⟩ := h.meet (above_flip h')
    fun a b hab => hab ▸ ⟨Gt.irrefl a, Gt.irrefl a⟩
  exact Gt.asymm hab hba

theorem ne_of_above (h : LexOrder.Above (· = ·) (LpoGt cfg) as bs) : as ≠ bs := by
  rintro rfl
  exact h.not_equal (List.forall₂_same.mpr fun a _ => rfl) fun a _ b _ hab hgt =>
    Gt.irrefl b (hab ▸ hgt)

/-- A first difference that is neither way is a tie of the first arguments that differ. -/
theorem above_incomparable (hlen : as.length = bs.length) (hne : as ≠ bs)
    (hgt : ¬ LexOrder.Above (· = ·) (LpoGt cfg) as bs)
    (hlt : ¬ LexOrder.Above (· = ·) (LpoGt cfg) bs as) :
    LexOrder.Above (· = ·) (Incomparable cfg) as bs := by
  obtain ⟨pre, pre', a, b, post, post', rfl, rfl, hpre, hab⟩ :=
    LexOrder.above_split (LexOrder.above_of_ne hlen hne)
  apply LexOrder.above_append hpre
  refine ⟨hab, fun h => hgt (LexOrder.above_append hpre h), fun h => hlt ?_⟩
  rw [List.forall₂_eq_eq_eq] at hpre
  subst hpre
  exact LexOrder.above_append (List.forall₂_same.mpr fun _ _ => rfl) h

theorem lpoVerdict_above (h : NoArgGe cfg f f as bs) (hlen : as.length = bs.length)
    (habove : LexOrder.Above (· = ·) (LpoGt cfg) as bs) :
    ((∀ b ∈ bs, LpoGt cfg (.node f as) b) → lpoVerdict cfg (.node f as) (.node f bs) = .gt) ∧
      ((¬ ∀ b ∈ bs, LpoGt cfg (.node f as) b) →
        lpoVerdict cfg (.node f as) (.node f bs) = .un) := by
  refine ⟨fun hall => lpoVerdict_of_gt ((h.gt_lex_iff hlen).mpr ⟨hall, habove⟩), fun hall => ?_⟩
  apply lpoVerdict_of_not
  · exact fun heq => ne_of_above habove (node.inj heq).2
  · exact fun hgt => hall ((h.gt_lex_iff hlen).mp hgt).1
  · exact fun hlt => not_above_both habove ((NoArgGe.gt_lex_iff h.swap hlen.symm).mp hlt).2
  · rintro ⟨-, hfirst, -, -⟩
    obtain ⟨a, -, b, -, hab, hinc⟩ := habove.meet hfirst
      fun a b hab => hab ▸ ⟨Gt.irrefl a, fun hinc => hinc.1 rfl⟩
    exact hinc.2.1 hab

/-- What is not above counts as below. -/
theorem lpoVerdict_not_above (h : NoArgGe cfg f f as bs) (hlen : as.length = bs.length)
    (hne : as ≠ bs) (habove : ¬ LexOrder.Above (· = ·) (LpoGt cfg) as bs) :
    ((∀ a ∈ as, LpoGt cfg (.node f bs) a) → lpoVerdict cfg (.node f as) (.node f bs) = .lt) ∧
      ((¬ ∀ a ∈ as, LpoGt cfg (.node f bs) a) →
        lpoVerdict cfg (.node f as) (.node f bs) = .un) := by
  have hlt := NoArgGe.gt_lex_iff h.swap hlen.symm
  constructor
  · intro hall
    by_cases hbelow : LexOrder.Above (· = ·) (LpoGt cfg) bs as
    · exact lpoVerdict_of_lt (hlt.mpr ⟨hall, hbelow⟩)
    · apply lpoVerdict_of_tie
      refine .intro hlen (above_incomparable hlen hne habove hbelow) hall fun b hb hbs => ?_
      exact h.right (ge_iff.mpr ⟨b, hb, hbs⟩)
  · intro hall
    apply lpoVerdict_of_not
    · exact fun heq => hne (node.inj heq).2
    · exact fun hgt => habove ((h.gt_lex_iff hlen).mp hgt).2
    · exact fun hgt => hall (hlt.mp hgt).1
    · rintro ⟨-, -, hbelow, -⟩
      exact hall hbelow

theorem lpoVerdict_leaf_right {l : Leaf} {t : FTerm} (hne : t ≠ .leaf l) :
    lpoVerdict cfg t (.leaf l) = if l ∈ t.leaves then .gt else .un := by
  have hmem := Gt.ge_leaf_iff cfg.prec (fun _ => False) (t := t) (l := l)
  rw [eqv_iff_eq, or_iff_right hne] at hmem
  split
  · next h => exact lpoVerdict_of_gt (hmem.mpr h)
  · next h =>
    refine lpoVerdict_of_not hne (fun hgt => h (hmem.mp hgt)) Gt.not_leaf ?_
    rintro ⟨⟩

theorem lpoVerdict_leaf_left {l : Leaf} {t : FTerm} (hne : t ≠ .leaf l) :
    lpoVerdict cfg (.leaf l) t = if l ∈ t.leaves then .lt else .un := by
  have hmem := Gt.ge_leaf_iff cfg.prec (fun _ => False) (t := t) (l := l)
  rw [eqv_iff_eq, or_iff_right hne] at hmem
  split
  · next h => exact lpoVerdict_of_lt (hmem.mpr h)
  · next h =>
    refine lpoVerdict_of_not hne.symm Gt.not_leaf (fun hlt => h (hmem.mp hlt)) ?_
    rintro ⟨⟩

end Verdict

/-! ### The recursion over terms -/

/-- The verdict, or 255 in the place of `lt`. -/
def Agrees (c v : Cmp) : Prop := c = v ∨ c = .raw ∧ v = .lt

theorem telling_agrees : Telling Agrees where
  eq_iff := by
    rintro c v (rfl | ⟨rfl, rfl⟩)
    · rfl
    · simp
  gt_iff := by
    rintro c v (rfl | ⟨rfl, rfl⟩)
    · rfl
    · simp
  refl v := .inl rfl

section Tree

variable {cfg : LpoConfig} {I : LpoMemo → Prop} {rec : LTerm → LTerm → LpoM Cmp} {f g : ℕ}
  {s t : LTerm} {as bs : List LTerm}

noncomputable abbrev locatedVerdict (cfg : LpoConfig) (s t : LTerm) : Cmp :=
  lpoVerdict cfg s.erase t.erase

theorem forall_gt_iff : (∀ b ∈ bs, locatedVerdict cfg s b = .gt) ↔
    ∀ b ∈ bs.map LTerm.erase, LpoGt cfg s.erase b := by
  rw [List.forall_mem_map]
  exact forall₂_congr fun b hb => lpoVerdict_gt_iff

theorem exists_ge_iff : (∃ a ∈ as, locatedVerdict cfg a t = .eq ∨ locatedVerdict cfg a t = .gt) ↔
    ∃ a ∈ as.map LTerm.erase, a = t.erase ∨ LpoGt cfg a t.erase := by
  simp [lpoVerdict_eq_iff, lpoVerdict_gt_iff]

theorem lpoDominatesAllArgs_answers (h : ∀ b ∈ bs, Ensures I (rec s b) (Agrees · (locatedVerdict cfg s b))) :
    Answers I (lpoDominatesAllArgs rec s bs) (decide (∀ b ∈ bs, locatedVerdict cfg s b = .gt)) :=
  dominatesAll_answers telling_agrees h

theorem lpoSomeArgDominates_answers
    (h : ∀ a ∈ as, Ensures I (rec a t) (Agrees · (locatedVerdict cfg a t))) :
    Answers I (lpoSomeArgDominates rec t as)
      (decide (∃ a ∈ as, locatedVerdict cfg a t = .eq ∨ locatedVerdict cfg a t = .gt)) :=
  someDominates_answers telling_agrees h

theorem lpoLexVerdict_answers {c : Cmp}
    (hno : NoArgGe cfg f f (as.map LTerm.erase) (bs.map LTerm.erase)) (hlen : as.length = bs.length)
    (hs : s.erase = .node f (as.map LTerm.erase)) (ht : t.erase = .node f (bs.map LTerm.erase))
    (hne : as.map LTerm.erase ≠ bs.map LTerm.erase)
    (hc : Agrees c (firstOther (locatedVerdict cfg) as bs))
    (h : ∀ b ∈ bs, Ensures I (rec s b) (Agrees · (locatedVerdict cfg s b)))
    (h' : ∀ a ∈ as, Ensures I (rec t a) (Agrees · (locatedVerdict cfg t a))) :
    Answers I (lpoLexVerdict rec s t as bs c) (locatedVerdict cfg s t) := by
  have hlen' : (as.map LTerm.erase).length = (bs.map LTerm.erase).length := by simpa using hlen
  have heq : c = .eq ↔ _ := (telling_agrees.eq_iff hc).trans
    (firstOther_eq_iff (fun _ _ => lpoVerdict_eq_iff) hlen)
  have hgt : c = .gt ↔ _ := (telling_agrees.gt_iff hc).trans
    (firstOther_gt_iff (fun _ _ => lpoVerdict_eq_iff) fun _ _ => lpoVerdict_gt_iff)
  have hbelow : c ≠ .gt → Answers I (do
      let all ← lpoDominatesAllArgs rec t as
      if all then pure .lt else pure .un) (locatedVerdict cfg s t) := by
    intro hcgt
    obtain ⟨hyes, hnot⟩ := lpoVerdict_not_above hno hlen' hne (hgt.not.mp hcgt)
    rw [← hs, ← ht, ← forall_gt_iff] at hyes hnot
    apply (lpoDominatesAllArgs_answers h').bind
    split
    · next hall => exact (Answers.pure _).cast (hyes (of_decide_eq_true hall)).symm
    · next hall => exact (Answers.pure _).cast (hnot (by simpa using hall)).symm
  cases c with
  | eq => exact absurd (heq.mp rfl) hne
  | gt =>
    obtain ⟨hyes, hnot⟩ := lpoVerdict_above hno hlen' (hgt.mp rfl)
    rw [← hs, ← ht, ← forall_gt_iff] at hyes hnot
    apply (lpoDominatesAllArgs_answers h).bind
    split
    · next hall => exact (Answers.pure _).cast (hyes (of_decide_eq_true hall)).symm
    · next hall => exact (Answers.pure _).cast (hnot (by simpa using hall)).symm
  | lt => exact hbelow nofun
  | un => exact hbelow nofun
  | raw => exact hbelow nofun

variable {S : ℕ → ℕ → Prop}

theorem lpoHeads_answers (hinj : InjectiveOn cfg.prec S) (hf : S f as.length) (hg : S g bs.length)
    (hno : NoArgGe cfg f g (as.map LTerm.erase) (bs.map LTerm.erase))
    (hs : s.erase = .node f (as.map LTerm.erase)) (ht : t.erase = .node g (bs.map LTerm.erase))
    (hne : s.erase ≠ t.erase)
    (h : ∀ b ∈ bs, Ensures I (rec s b) (Agrees · (locatedVerdict cfg s b)))
    (h' : ∀ a ∈ as, Ensures I (rec t a) (Agrees · (locatedVerdict cfg t a)))
    (hargs : ∀ a ∈ as, ∀ b ∈ bs, Ensures I (rec a b) (Agrees · (locatedVerdict cfg a b))) :
    Answers I (lpoHeads rec cfg s t f g as bs) (locatedVerdict cfg s t) := by
  unfold lpoHeads
  split
  · next hprec =>
    obtain ⟨hyes, hnot⟩ := lpoVerdict_prec hno hprec
    rw [← hs, ← ht, ← forall_gt_iff] at hyes hnot
    apply (lpoDominatesAllArgs_answers h).bind
    split
    · next hall => exact (Answers.pure _).cast (hyes (of_decide_eq_true hall)).symm
    · next hall => exact (Answers.pure _).cast (hnot (by simpa using hall)).symm
  · next hprec =>
    split
    · next hprec' =>
      obtain ⟨hyes, hnot⟩ := lpoVerdict_prec' hno hprec'
      rw [← hs, ← ht, ← forall_gt_iff] at hyes hnot
      apply (lpoDominatesAllArgs_answers h').bind
      split
      · next hall => exact (Answers.pure _).cast (hyes (of_decide_eq_true hall)).symm
      · next hall => exact (Answers.pure _).cast (hnot (by simpa using hall)).symm
    · next hprec' =>
      obtain rfl := hinj f g _ _ hf hg (by omega)
      split
      · next hlen =>
        rw [locatedVerdict, hs, ht]
        exact (Answers.pure _).cast (lpoVerdict_length hno (by simpa using hlen)).symm
      · next hlen =>
        apply (lexCompare_ensures telling_agrees hargs).bind
        intro c hc
        rw [hs, ht] at hne
        exact lpoLexVerdict_answers hno (not_not.mp hlen) hs ht (fun heq => hne (heq ▸ rfl)) hc h h'

theorem lpoEq_iff : lpoEq s t = true ↔ s.erase = t.erase := kboEq_iff

theorem lpoRecCompute_answers {W : Term → FTerm} (hinj : InjectiveOn cfg.prec S)
    (hs : Domain W S s) (ht : Domain W S t)
    (hrec : ∀ a b, a.size + b.size < s.size + t.size → Domain W S a → Domain W S b →
      Ensures I (rec a b) (Agrees · (locatedVerdict cfg a b))) :
    Answers I (lpoRecCompute rec cfg s t) (locatedVerdict cfg s t) := by
  unfold lpoRecCompute
  split
  · next heq =>
    apply (Answers.pure _).cast
    rw [locatedVerdict, lpoEq_iff.mp heq, lpoVerdict_self]
  · next heq =>
    rw [lpoEq_iff] at heq
    cases s with
    | leaf l =>
      obtain ⟨x, rfl⟩ := hs.leaf
      cases t with
      | leaf l' =>
        obtain ⟨y, rfl⟩ := ht.leaf
        apply (Answers.pure _).cast
        rw [LTerm.erase_leaf, LTerm.erase_leaf] at heq
        rw [locatedVerdict, LTerm.erase_leaf, LTerm.erase_leaf, lpoVerdict_leaf_right heq, if_neg]
        rw [leaves_leaf, List.mem_singleton]
        exact fun h => heq (congrArg TermTree.leaf h.symm)
      | node d bs =>
        apply (Answers.pure _).cast
        rw [LTerm.erase_leaf] at heq
        rw [locatedVerdict, LTerm.erase_leaf, lpoVerdict_leaf_left fun h => heq h.symm]
        simp only [varOccursIn_iff, LTerm.mem_leaves_erase]
    | node c as =>
      cases t with
      | leaf l' =>
        obtain ⟨y, rfl⟩ := ht.leaf
        apply (Answers.pure _).cast
        rw [LTerm.erase_leaf] at heq
        rw [locatedVerdict, LTerm.erase_leaf, lpoVerdict_leaf_right heq]
        simp only [varOccursIn_iff, LTerm.mem_leaves_erase]
      | node d bs =>
        have hleft : ∀ a ∈ as, ∀ u, u.size ≤ (TermTree.node d bs).size → Domain W S u →
            Ensures I (rec a u) (Agrees · (locatedVerdict cfg a u)) := by
          intro a ha u hu hdom
          have := size_lt c ha
          exact hrec a u (by omega) (hs.arg ha) hdom
        have hright : ∀ b ∈ bs, ∀ u, u.size ≤ (TermTree.node c as).size → Domain W S u →
            Ensures I (rec b u) (Agrees · (locatedVerdict cfg b u)) := by
          intro b hb u hu hdom
          have := size_lt d hb
          exact hrec b u (by omega) (ht.arg hb) hdom
        have hge : ∀ {e : Cell} {us : List LTerm} {u : FTerm},
            (∃ a ∈ us.map LTerm.erase, a = u ∨ LpoGt cfg a u) → LpoGt cfg (LTerm.erase (.node e us)) u := by
          rintro e us u ⟨a, ha, rfl | hau⟩
          · exact LTerm.erase_node e us ▸ .argEqv ha (.refl _)
          · exact LTerm.erase_node e us ▸ .argGt ha hau
        apply (lpoSomeArgDominates_answers fun a ha => hleft a ha _ le_rfl ht).bind
        split
        · next hex =>
          have hex := exists_ge_iff.mp (of_decide_eq_true hex)
          exact (Answers.pure _).cast (lpoVerdict_of_gt (hge hex)).symm
        · next hex =>
          rw [decide_eq_true_iff, exists_ge_iff, LTerm.erase_node, ← ge_iff] at hex
          apply (lpoSomeArgDominates_answers fun b hb => hright b hb _ le_rfl hs).bind
          split
          · next hex' =>
            have hex' := exists_ge_iff.mp (of_decide_eq_true hex')
            exact (Answers.pure _).cast (lpoVerdict_of_lt (hge hex')).symm
          · next hex' =>
            rw [decide_eq_true_iff, exists_ge_iff, LTerm.erase_node, ← ge_iff] at hex'
            apply lpoHeads_answers hinj hs.root ht.root ⟨hex, hex'⟩ (LTerm.erase_node c as)
              (LTerm.erase_node d bs) heq
            · intro b hb
              have := size_lt d hb
              exact hrec _ b (by omega) hs (ht.arg hb)
            · intro a ha
              have := size_lt c ha
              exact hrec _ a (by omega) ht (hs.arg ha)
            · exact fun a ha b hb => hleft a ha b (size_lt d hb).le (ht.arg hb)

/-- What a current memo entry says, when both its words mean terms of the signature. -/
def Remembers (cfg : LpoConfig) (W : Term → FTerm) (key : Term × Term) (b : ℕ) : Prop :=
  b = (lpoVerdict cfg (W key.1) (W key.2)).byte

theorem agrees_ofRawByte (s t : FTerm) :
    Agrees (.ofRawByte (lpoVerdict cfg s t).byte) (lpoVerdict cfg s t) := by
  cases h : lpoVerdict cfg s t with
  | lt => exact .inr ⟨rfl, rfl⟩
  | raw => exact absurd h (lpoVerdict_ne_raw cfg s t)
  | _ => exact .inl rfl

theorem lpoRec_ensures {W : Term → FTerm} (hinj : InjectiveOn cfg.prec S) {fuel : ℕ}
    (hs : Domain W S s) (ht : Domain W S t) (hfuel : s.size + t.size ≤ fuel) :
    Ensures (Memo.Sound (Remembers cfg W)) (lpoRec cfg fuel s t)
      (Agrees · (locatedVerdict cfg s t)) := by
  induction fuel generalizing s t with
  | zero =>
    have := TermTree.size_pos s
    omega
  | succ fuel ih =>
    rw [lpoRec]
    split
    · next hword =>
      apply Ensures.pure
      rw [locatedVerdict, ← hs.reads.word_eq, ← ht.reads.word_eq, hword, lpoVerdict_self]
      exact .inl rfl
    · have hcompute := lpoRecCompute_answers hinj hs ht fun a b hab ha hb => ih ha hb (by omega)
      apply memoised_ensures hcompute
      · rintro b rfl
        rw [hs.reads.word_eq, ht.reads.word_eq]
        exact agrees_ofRawByte _ _
      · rintro c rfl
        rw [Remembers, hs.reads.word_eq, ht.reads.word_eq]
      · exact fun c hc => .inl hc

end Tree

end Thvm.Lpo
