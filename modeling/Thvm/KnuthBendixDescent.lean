import Thvm.KnuthBendixLinear

/-!
# The descent of the linear comparison

A scope comes to the balance of its two terms, and the comparison opens one scope after
the other along the first arguments that differ.
-/

namespace Thvm.Kbo

open MemoTables TermTree

/-! ### One scope -/

section Vortest

variable {linear : Bool} {cfg : KboConfig} {W : Term → FTerm} {S : ℕ → ℕ → Prop} {T : FTerm → Prop}
  {s t : LTerm} {as bs : List LTerm} {pairs : List (LTerm × LTerm)} {V : Scan}
  {I : KboMemos → Prop}

def pairBumps (V : Scan) (p : LTerm × LTerm) : List (ℕ × ℤ) := diffBumps V p.1.erase p.2.erase

def pairDiff (cfg : KboConfig) (p : LTerm × LTerm) : ℤ := weightDiff cfg p.1.erase p.2.erase

def PairIdent (p : LTerm × LTerm) : Prop := p.1.erase = p.2.erase

instance (p : LTerm × LTerm) : Decidable (PairIdent p) := inferInstanceAs (Decidable (_ = _))

theorem zip_pairBumps (hlast : V.lastFirst = true) : diffBumpsArgs V (as.map LTerm.erase)
    (bs.map LTerm.erase) = (as.zip bs).reverse.flatMap (pairBumps V) := by
  induction as generalizing bs with
  | nil => cases bs <;> rfl
  | cons a as ih =>
    cases bs with
    | nil => rfl
    | cons b bs =>
      rw [List.map_cons, List.map_cons, diffBumpsArgs, if_pos hlast, ih, List.zip_cons_cons,
        List.reverse_cons, List.flatMap_append, List.flatMap_singleton]
      rfl

theorem zip_pairDiff (hlen : as.length = bs.length) : ((as.zip bs).map (pairDiff cfg)).sum =
    (((as.map LTerm.erase).map cfg.scale.weight).sum : ℤ) -
      ((bs.map LTerm.erase).map cfg.scale.weight).sum := by
  induction as generalizing bs with
  | nil =>
    obtain rfl := List.length_eq_zero_iff.mp hlen.symm
    rfl
  | cons a as ih =>
    cases bs with
    | nil => cases hlen
    | cons b bs =>
      rw [List.zip_cons_cons, List.map_cons, List.sum_cons, ih (Nat.succ.inj hlen)]
      simp only [pairDiff, weightDiff, List.map_cons, List.sum_cons]
      push_cast
      ring

theorem zip_pairIdent (hlen : as.length = bs.length) :
    (∀ p ∈ as.zip bs, PairIdent p) ↔ as.map LTerm.erase = bs.map LTerm.erase := by
  induction as generalizing bs with
  | nil =>
    obtain rfl := List.length_eq_zero_iff.mp hlen.symm
    simp
  | cons a as ih =>
    cases bs with
    | nil => cases hlen
    | cons b bs =>
      rw [List.zip_cons_cons, List.forall_mem_cons, ih (Nat.succ.inj hlen), List.map_cons,
        List.map_cons, List.cons.injEq]
      rfl

theorem zip_size (as bs : List LTerm) :
    ((as.zip bs).map fun p => p.1.size).sum ≤ (as.map TermTree.size).sum := by
  induction as generalizing bs with
  | nil => exact Nat.zero_le _
  | cons a as ih =>
    cases bs with
    | nil => exact Nat.zero_le _
    | cons b bs =>
      have := ih bs
      rw [List.zip_cons_cons, List.map_cons, List.map_cons, List.sum_cons, List.sum_cons]
      exact Nat.add_le_add_left this _

/-- Two terms that match at the root are their pairs of arguments. -/
structure Matches (linear : Bool) (cfg : KboConfig) (W : Term → FTerm) (T : FTerm → Prop)
    (s t : LTerm) (pairs : List (LTerm × LTerm)) : Prop where
  inPlay : ∀ p ∈ pairs, Weighable W T p.1 ∧ Weighable W T p.2
  size : (pairs.map fun p => p.1.size).sum < s.size
  bumps : pairBumps (linScan linear cfg) (s, t) =
    pairs.reverse.flatMap (pairBumps (linScan linear cfg))
  diff : pairDiff cfg (s, t) = (pairs.map (pairDiff cfg)).sum
  ident : PairIdent (s, t) ↔ ∀ p ∈ pairs, PairIdent p

theorem matches_nil (heq : s.erase = t.erase) : Matches linear cfg W T s t [] where
  inPlay := nofun
  size := TermTree.size_pos s
  bumps := by
    rw [pairBumps, heq, diffBumps_self (linScan_exact (S := fun _ _ => True) linear cfg)]
    rfl
  diff := by
    rw [pairDiff, heq]
    exact weightDiff_self _
  ident := ⟨fun _ => nofun, fun _ => heq⟩

theorem kboMatch_some (hT : InPlay linear S T) (hs : Weighable W T s) (ht : Weighable W T t)
    (h : kboMatch s t = some pairs) : Matches linear cfg W T s t pairs := by
  unfold kboMatch at h
  split at h
  · next hword =>
    obtain rfl := Option.some.inj h
    exact matches_nil (erase_eq_of_word hs.reads ht.reads hword)
  · split at h
    · split at h
      · next heq =>
        obtain rfl := Option.some.inj h
        exact matches_nil (by rw [heq])
      · cases h
    · split at h
      · next c as d bs hword hroot =>
        obtain ⟨hlabel, hlen⟩ := hroot
        obtain rfl := Option.some.inj h
        constructor
        · rintro ⟨a, b⟩ hp
          have hmem := List.of_mem_zip hp
          exact ⟨hs.arg hT hmem.1, ht.arg hT hmem.2⟩
        · have := zip_size as bs
          rw [TermTree.size_node]
          omega
        · rw [pairBumps, LTerm.erase_node, LTerm.erase_node, diffBumps,
            if_pos ⟨hlabel, by simpa using hlen, rfl⟩, zip_pairBumps rfl]
        · rw [zip_pairDiff hlen, pairDiff, LTerm.erase_node, LTerm.erase_node, hlabel]
          exact weightDiff_node
        · rw [zip_pairIdent hlen, PairIdent, LTerm.erase_node, LTerm.erase_node, hlabel,
            node.injEq, and_iff_right rfl]
      · cases h
    · cases h

theorem kboMatch_none (h : kboMatch s t = none) :
    pairBumps (linScan linear cfg) (s, t) =
        linSide linear cfg 1 s.erase ++ linSide linear cfg (-1) t.erase ∧
      ¬ PairIdent (s, t) := by
  unfold kboMatch at h
  split at h
  · cases h
  · cases s with
    | leaf l =>
      cases t with
      | leaf l' =>
        dsimp only at h
        split at h
        · cases h
        · next hne =>
          refine ⟨?_, fun heq => hne (leaf.inj heq)⟩
          rw [pairBumps, LTerm.erase_leaf, LTerm.erase_leaf, diffBumps, if_neg hne]
          rfl
      | node d bs =>
        rw [pairBumps, PairIdent, LTerm.erase_leaf, LTerm.erase_node, diffBumps]
        exact ⟨rfl, fun heq => by cases heq⟩
    | node c as =>
      cases t with
      | leaf l' =>
        rw [pairBumps, PairIdent, LTerm.erase_leaf, LTerm.erase_node, diffBumps]
        exact ⟨rfl, fun heq => by cases heq⟩
      | node d bs =>
        dsimp only at h
        split at h
        · cases h
        · next hroot =>
          rw [pairBumps, PairIdent, LTerm.erase_node, LTerm.erase_node, diffBumps,
            if_neg fun h => hroot ⟨h.1, by simpa using h.2.1⟩]
          refine ⟨rfl, fun heq => hroot ?_⟩
          obtain ⟨hlabel, hargs⟩ := node.inj heq
          exact ⟨hlabel, by simpa using congrArg List.length hargs⟩

theorem kboVortestLoop_answers (hI : linear = false → I = Right cfg W T)
    (hT : InPlay linear S T) {n : ℕ} {stack : List (LTerm × LTerm)}
    (hstack : ∀ p ∈ stack, Weighable W T p.1 ∧ Weighable W T p.2)
    (hn : (stack.map fun p => p.1.size).sum ≤ n) (x : KboLin × ℤ) (ident : Bool) :
    Answers I (kboVortestLoop linear cfg n stack x ident)
      ((applyBumps (stack.flatMap (pairBumps (linScan linear cfg))) x.1,
        x.2 + (stack.map (pairDiff cfg)).sum), ident && decide (∀ p ∈ stack, PairIdent p)) := by
  induction n generalizing stack x ident with
  | zero =>
    cases stack with
    | nil => exact (Answers.pure _).cast (by simp)
    | cons p stack =>
      have := TermTree.size_pos p.1
      rw [List.map_cons, List.sum_cons] at hn
      omega
  | succ n ih =>
    cases stack with
    | nil => exact (Answers.pure _).cast (by simp)
    | cons p stack =>
      obtain ⟨s, t⟩ := p
      rw [List.forall_mem_cons] at hstack
      rw [List.map_cons, List.sum_cons] at hn
      dsimp only at hn
      rw [kboVortestLoop, List.flatMap_cons, applyBumps_append, List.map_cons, List.sum_cons]
      split
      · next pairs hmatch =>
        have hp : Matches linear cfg W T s t pairs :=
          kboMatch_some hT hstack.1.1 hstack.1.2 hmatch
        have hsize : (pairs.map fun p => p.1.size).sum < s.size := hp.size
        have hpush : ∀ p ∈ pairs.reverse ++ stack, Weighable W T p.1 ∧ Weighable W T p.2 := by
          intro p hmem
          rcases List.mem_append.mp hmem with hmem | hmem
          · exact hp.inPlay p (List.mem_reverse.mp hmem)
          · exact hstack.2 p hmem
        refine (ih hpush ?_ x ident).cast ?_
        · rw [List.map_append, List.sum_append, List.map_reverse, List.sum_reverse]
          omega
        · rw [List.flatMap_append, applyBumps_append, ← hp.bumps, List.map_append, List.sum_append,
            List.map_reverse, List.sum_reverse, ← hp.diff]
          refine Prod.ext rfl ?_
          simp only [List.forall_mem_cons, List.forall_mem_append, List.mem_reverse, hp.ident]
      · next hmatch =>
        obtain ⟨hbumps, hne⟩ := @kboMatch_none linear cfg s t hmatch
        apply (kboLinAddto_answers hI hT hstack.1.1 1 x).bind
        apply (kboLinAddto_answers hI hT hstack.1.2 (-1) _).bind
        have hsize := TermTree.size_pos s
        refine (ih hstack.2 (by omega) _ false).cast ?_
        rw [hbumps, applyBumps_append]
        refine Prod.ext (Prod.ext rfl ?_) ?_
        · simp only [pairDiff, weightDiff]
          ring
        · simp [hne]

theorem kboVortest_answers (hI : linear = false → I = Right cfg W T)
    (hT : InPlay linear S T) (hs : Weighable W T s) (ht : Weighable W T t) (st : KboLin) :
    Answers I (kboVortest linear cfg s t st)
      ((applyBumps (diffBumps (linScan linear cfg) s.erase t.erase) st,
        weightDiff cfg s.erase t.erase), decide (s.erase = t.erase)) := by
  refine (kboVortestLoop_answers hI hT (List.forall_mem_singleton.mpr ⟨hs, ht⟩) (by simp) _ _).cast ?_
  simp only [List.flatMap_singleton, List.map_singleton, List.sum_singleton, zero_add,
    Bool.true_and, List.forall_mem_singleton]
  rfl

end Vortest

/-! ### The scopes of a comparison -/

/-- The pairs whose scopes a comparison opens: the terms themselves, and below equal
roots, as long as weights tie, the first arguments that differ. -/
inductive Opens (cfg : KboConfig) : FTerm → FTerm → FTerm → FTerm → Prop
  | here (s t : FTerm) : Opens cfg s t s t
  | arg {f : ℕ} {pre post post' : List FTerm} {a b u v : FTerm}
      (hcover : Covers (.node f (pre ++ a :: post)) (.node f (pre ++ b :: post')) ∨
        Covers (.node f (pre ++ b :: post')) (.node f (pre ++ a :: post)))
      (hweight : weightDiff cfg (.node f (pre ++ a :: post)) (.node f (pre ++ b :: post')) = 0)
      (hpost : post.length = post'.length) (hne : a ≠ b) (h : Opens cfg a b u v) :
      Opens cfg (.node f (pre ++ a :: post)) (.node f (pre ++ b :: post')) u v

/-- A scope makes more entries than there is room for. -/
def Overflows (V : Scan) (s t : FTerm) : Prop :=
  kboMaxVar < leavings (fun _ => 0) (diffBumps V s t)

instance (V : Scan) (s t : FTerm) : Decidable (Overflows V s t) :=
  inferInstanceAs (Decidable (_ < _))

/-- Some scope of a comparison makes more entries than there is room for. -/
def Crowded (V : Scan) (cfg : KboConfig) (s t : FTerm) : Prop :=
  ∃ u v, Opens cfg s t u v ∧ Overflows V u v

/-- Some scope below does. -/
def CrowdedBelow (V : Scan) (cfg : KboConfig) (s t : FTerm) : Prop :=
  ∃ f pre post post' a b, s = .node f (pre ++ a :: post) ∧ t = .node f (pre ++ b :: post') ∧
    (Covers s t ∨ Covers t s) ∧ weightDiff cfg s t = 0 ∧ post.length = post'.length ∧
    a ≠ b ∧ Crowded V cfg a b

section Scopes

variable {V : Scan} {cfg : KboConfig} {s t a b : FTerm} {f : ℕ} {pre post post' : List FTerm}

theorem crowded_iff : Crowded V cfg s t ↔ Overflows V s t ∨ CrowdedBelow V cfg s t := by
  constructor
  · rintro ⟨u, v, hopens, hover⟩
    cases hopens with
    | here => exact .inl hover
    | arg hcover hweight hpost hne h =>
      exact .inr ⟨_, _, _, _, _, _, rfl, rfl, hcover, hweight, hpost, hne, u, v, h, hover⟩
  · rintro (hover | ⟨f, pre, post, post', a, b, rfl, rfl, hcover, hweight, hpost, hne, u, v, h, hover⟩)
    · exact ⟨s, t, .here s t, hover⟩
    · exact ⟨u, v, .arg hcover hweight hpost hne h, hover⟩

theorem split_unique {α : Type} {pre pre' post post' qost qost' : List α} {a b c d : α}
    (h : pre ++ a :: post = pre' ++ c :: qost) (h' : pre ++ b :: post' = pre' ++ d :: qost')
    (hne : a ≠ b) (hne' : c ≠ d) : pre = pre' ∧ a = c ∧ b = d := by
  induction pre generalizing pre' with
  | nil =>
    cases pre' with
    | nil => exact ⟨rfl, (List.cons.inj h).1, (List.cons.inj h').1⟩
    | cons x pre' =>
      have hax := (List.cons.inj h).1
      have hbx := (List.cons.inj h').1
      exact absurd (hax.trans hbx.symm) hne
  | cons x pre ih =>
    cases pre' with
    | nil =>
      have hcx := (List.cons.inj h).1
      have hdx := (List.cons.inj h').1
      exact absurd (hcx.symm.trans hdx) hne'
    | cons y pre' =>
      obtain ⟨rfl, hrest⟩ := List.cons.inj h
      obtain ⟨rfl, hac, hbd⟩ := ih hrest (List.cons.inj h').2
      exact ⟨rfl, hac, hbd⟩

theorem crowdedBelow_node (hcover : Covers (.node f (pre ++ a :: post)) (.node f (pre ++ b :: post')) ∨
      Covers (.node f (pre ++ b :: post')) (.node f (pre ++ a :: post)))
    (hweight : weightDiff cfg (.node f (pre ++ a :: post)) (.node f (pre ++ b :: post')) = 0)
    (hpost : post.length = post'.length) (hne : a ≠ b) :
    CrowdedBelow V cfg (.node f (pre ++ a :: post)) (.node f (pre ++ b :: post')) ↔
      Crowded V cfg a b := by
  constructor
  · rintro ⟨g, pre', qost, qost', c, d, hs, ht, -, -, -, hne', h⟩
    obtain ⟨-, rfl, rfl⟩ := split_unique (node.inj hs).2 (node.inj ht).2 hne hne'
    exact h
  · exact fun h => ⟨f, pre, post, post', a, b, rfl, rfl, hcover, hweight, hpost, hne, h⟩

theorem kboPhi_none_iff {phi : ℤ} :
    kboPhi (kboVarcmp s t) phi = none ↔ (Covers s t ∨ Covers t s) ∧ phi = 0 := by
  unfold kboPhi kboVarcmp kboSigns
  by_cases hs : Covers s t <;> by_cases ht : Covers t s <;>
    rcases lt_trichotomy phi 0 with hlt | rfl | hgt <;>
    simp [*, lt_asymm, ne_of_lt, ne_of_gt]

theorem kboVerdict_phi {S : ℕ → ℕ → Prop} (hinj : InjectiveOn cfg.prec S) (hs : s.Over S)
    (ht : t.Over S) (hne : s ≠ t) : kboVerdict cfg s t =
      match kboPhi (kboVarcmp s t) (weightDiff cfg s t) with
      | some here => here
      | none => kboMapThrough (kboVarcmp s t) (kboTie cfg s t) := by
  rw [kboVerdict_level hinj hs ht hne, kboLevel_eq]
  rfl

theorem CrowdedBelow.phi (h : CrowdedBelow V cfg s t) :
    kboPhi (kboVarcmp s t) (weightDiff cfg s t) = none := by
  obtain ⟨f, pre, post, post', a, b, rfl, rfl, hcover, hweight, -⟩ := h
  exact kboPhi_none_iff.mpr ⟨hcover, hweight⟩

theorem CrowdedBelow.root {g : ℕ} {as bs : List FTerm}
    (h : CrowdedBelow V cfg (.node f as) (.node g bs)) : f = g ∧ as.length = bs.length := by
  obtain ⟨k, pre, post, post', a, b, hs, ht, -, -, hpost, -⟩ := h
  obtain ⟨rfl, rfl⟩ := node.inj hs
  obtain ⟨rfl, rfl⟩ := node.inj ht
  exact ⟨rfl, by simp [hpost]⟩

theorem not_crowded_self {S : ℕ → ℕ → Prop} (hV : V.Exact S) (t : FTerm) : ¬ Crowded V cfg t t := by
  rw [crowded_iff]
  rintro (hover | ⟨f, pre, post, post', a, b, rfl, hnode, -, -, -, hne, -⟩)
  · rw [Overflows, diffBumps_self hV, leavings] at hover
    exact absurd hover (Nat.not_lt_zero _)
  · have hargs := List.append_cancel_left (node.inj hnode).2
    exact hne (List.cons.inj hargs).1

theorem firstOther_split {v : FTerm → FTerm → Cmp} (hself : ∀ c ∈ pre, v c c = .eq)
    (hne : v a b ≠ .eq) : firstOther v (pre ++ a :: post) (pre ++ b :: post') = v a b := by
  induction pre with
  | nil => exact if_pos hne
  | cons c pre ih =>
    rw [List.forall_mem_cons] at hself
    rw [List.cons_append, List.cons_append, firstOther, if_neg (not_not.mpr hself.1), ih hself.2]

end Scopes

/-! ### The descent -/

section Descent

variable {linear : Bool} {cfg : KboConfig} {W : Term → FTerm} {S : ℕ → ℕ → Prop} {T : FTerm → Prop}
  {V : Scan} {f : Bool} {I : KboMemos → Prop}

/-- A scope that is read out leaves nothing but its fault. -/
theorem scope_decide {s t : FTerm} (hV : V.Exact S) (hs : s.Over S) (ht : t.Over S)
    (hsv : s.VarsBelow kboMaxVar) (htv : t.VarsBelow kboMaxVar) :
    kboLinDecideClear (applyBumps (diffBumps V s t) (.clear f)) =
      (kboVarcmp s t, .clear (f || decide (Overflows V s t))) := by
  have hscope := (scope_clear f).bumps (diffBumps V s t)
  rw [kboLinDecideClear_eq hscope hs ht hsv htv, hscope.fault, applyBumps_touched]
  · simp only [KboLin.clear, List.length_nil, zero_add]
    rfl
  · intro v hv
    rw [applyBumps_bal hv, net_diffBumps hV hs ht hsv htv]
    exact zero_add _

/-- What a comparison comes to: a verdict, no balance, and a fault in one case. -/
structure Settles (p : Prop) (c : Cmp) (run : Cmp × KboLin) : Prop where
  verdict : run.1 = c
  cleared : run.2 = .clear run.2.fault
  fault : run.2.fault = true ↔ p

theorem settles_pure {p : Prop} {c : Cmp} (h : f = true ↔ p) : Settles p c (c, .clear f) :=
  ⟨rfl, rfl, h⟩

theorem Settles.cast {p q : Prop} {c d : Cmp} {run : Cmp × KboLin} (h : Settles p c run)
    (hpq : p ↔ q) (hcd : c = d) : Settles q d run :=
  ⟨h.verdict.trans hcd, h.cleared, h.fault.trans hpq⟩

variable {as bs : List LTerm} {s t : LTerm}

theorem exists_first_diff (hlen : as.length = bs.length)
    (hne : as.map LTerm.erase ≠ bs.map LTerm.erase) :
    ∃ pre a post pre' b post', as = pre ++ a :: post ∧ bs = pre' ++ b :: post' ∧
      pre.map LTerm.erase = pre'.map LTerm.erase ∧ a.erase ≠ b.erase ∧
      post.length = post'.length := by
  induction as generalizing bs with
  | nil =>
    obtain rfl := List.length_eq_zero_iff.mp hlen.symm
    exact absurd rfl hne
  | cons a as ih =>
    cases bs with
    | nil => cases hlen
    | cons b bs =>
      by_cases hab : LTerm.erase a = LTerm.erase b
      · rw [List.map_cons, List.map_cons, hab] at hne
        obtain ⟨pre, c, post, pre', d, post', rfl, rfl, hpre, hcd, hpost⟩ :=
          ih (Nat.succ.inj hlen) fun h => hne (by rw [h])
        exact ⟨a :: pre, c, post, b :: pre', d, post', rfl, rfl, by simp [hab, hpre], hcd, hpost⟩
      · exact ⟨[], a, as, [], b, bs, rfl, rfl, rfl, hab, Nat.succ.inj hlen⟩

/-- The loop over arguments stops at the first that differ. -/
theorem kboLinLex_answers (hI : linear = false → I = Right cfg W T)
    (hT : InPlay linear S T) {pre pre' post post' : List LTerm} {a b : LTerm}
    (hpre : pre.map LTerm.erase = pre'.map LTerm.erase) (hne : a.erase ≠ b.erase)
    (hs : ∀ c ∈ pre ++ a :: post, Weighable W T c) (ht : ∀ c ∈ pre' ++ b :: post', Weighable W T c) :
    Answers I (kboLinLex linear cfg (pre ++ a :: post) (pre' ++ b :: post') (.clear f))
      (some ⟨a, b, weightDiff cfg a.erase b.erase, kboVarcmp a.erase b.erase⟩,
        .clear (f || decide (Overflows (linScan linear cfg) a.erase b.erase))) := by
  induction pre generalizing pre' with
  | nil =>
    obtain rfl : pre' = [] := by simpa using hpre.symm
    have ha := hs a List.mem_cons_self
    have hb := ht b List.mem_cons_self
    apply (kboVortest_answers hI hT ha hb _).bind
    dsimp only
    rw [if_neg (by simpa using hne), scope_decide (linScan_exact linear cfg) (hT.built _ ha.mem)
      (hT.built _ hb.mem) (hT.vars _ ha.mem) (hT.vars _ hb.mem)]
    exact Answers.pure _
  | cons c pre ih =>
    cases pre' with
    | nil => cases hpre
    | cons d pre' =>
      obtain ⟨hcd, hpre⟩ := List.cons.inj hpre
      rw [List.cons_append, List.forall_mem_cons] at hs ht
      rw [List.cons_append, List.cons_append, kboLinLex]
      apply (kboVortest_answers hI hT hs.1 ht.1 _).bind
      rw [hcd, diffBumps_self (linScan_exact (S := S) linear cfg), decide_eq_true rfl]
      exact ih hpre hs.2 ht.2

/-- The descent gives the verdict, taken through the levels above. -/
theorem kboLinRek_ensures (hI : linear = false → I = Right cfg W T)
    (hT : InPlay linear S T) (hinj : InjectiveOn cfg.prec S) {n : ℕ}
    (hs : Weighable W T s) (ht : Weighable W T t) (hne : s.erase ≠ t.erase) (hn : s.size ≤ n)
    (levels : List Cmp) (f : Bool) : Ensures I
      (kboLinRek linear cfg n ⟨s, t, weightDiff cfg s.erase t.erase, kboVarcmp s.erase t.erase⟩
        levels (.clear f))
      (Settles (f = true ∨ CrowdedBelow (linScan linear cfg) cfg s.erase t.erase)
        (levels.foldl (fun terminal level => kboMapThrough level terminal)
          (kboVerdict cfg s.erase t.erase))) := by
  induction n generalizing s t levels f with
  | zero =>
    have := TermTree.size_pos s
    omega
  | succ n ih =>
    have hsOver := hT.built _ hs.mem
    have htOver := hT.built _ ht.mem
    have hverdict := kboVerdict_phi hinj hsOver htOver hne
    rw [kboLinRek.eq_def]
    dsimp only
    split
    · next here hphi =>
      rw [hphi] at hverdict
      rw [hverdict]
      refine Ensures.pure (settles_pure ⟨.inl, fun h => h.resolve_right fun hbelow => ?_⟩)
      rw [hbelow.phi] at hphi
      cases hphi
    · next hphi =>
      rw [hphi] at hverdict
      dsimp only at hverdict
      rw [hverdict]
      -- a verdict here without a scope below
      have hstop : ∀ here, kboMapThrough (kboVarcmp s.erase t.erase) (kboTie cfg s.erase t.erase) = here →
          ¬ CrowdedBelow (linScan linear cfg) cfg s.erase t.erase →
          Ensures I (pure (levels.foldl
            (fun terminal level => kboMapThrough level terminal) here, KboLin.clear f))
            (Settles (f = true ∨ CrowdedBelow (linScan linear cfg) cfg s.erase t.erase)
              (levels.foldl (fun terminal level => kboMapThrough level terminal)
                (kboMapThrough (kboVarcmp s.erase t.erase) (kboTie cfg s.erase t.erase)))) := by
        rintro here rfl hnot
        exact Ensures.pure (settles_pure ⟨.inl, fun h => h.resolve_right hnot⟩)
      cases s with
      | leaf l =>
        refine hstop .un rfl ?_
        rintro ⟨g, pre, post, post', a, b, hnode, -⟩
        cases hnode
      | node c as =>
        cases t with
        | leaf l =>
          refine hstop .un ?_ ?_
          · rw [LTerm.erase_node]
            rfl
          · rintro ⟨g, pre, post, post', a, b, -, hnode, -⟩
            cases hnode
        | node d bs =>
          dsimp only
          simp only [LTerm.erase_node] at hstop hne hsOver htOver ⊢
          split
          · next hprec =>
            refine hstop _ ?_ ?_
            · simp only [kboTie, if_pos hprec, kboMapThrough]
            · intro hbelow
              rw [hbelow.root.1] at hprec
              exact lt_irrefl _ hprec
          · next hprec =>
            split
            · next hprec' =>
              refine hstop _ ?_ ?_
              · simp only [kboTie, if_neg hprec, if_pos hprec', kboMapThrough]
              · intro hbelow
                rw [hbelow.root.1] at hprec'
                exact lt_irrefl _ hprec'
            · next hprec' =>
              have hlabel := hinj _ _ _ _ hsOver.root htOver.root (by omega)
              rw [if_neg (not_not.mpr hlabel)]
              split
              · next hlen =>
                refine hstop .un ?_ fun hbelow => hlen (by simpa using hbelow.root.2)
                simp only [kboTie, if_neg hprec, if_neg hprec', List.length_map, if_pos hlen,
                  kboMapThrough]
              · next hlen =>
                have hargs : as.map LTerm.erase ≠ bs.map LTerm.erase :=
                  fun h => hne (by rw [hlabel, h])
                obtain ⟨pre, a, post, pre', b, post', rfl, rfl, hpre, hab, hpost⟩ :=
                  exists_first_diff (not_not.mp hlen) hargs
                have hmemA : ∀ x ∈ pre ++ a :: post, Weighable W T x := fun x hx => hs.arg hT hx
                have hmemB : ∀ x ∈ pre' ++ b :: post', Weighable W T x := fun x hx => ht.arg hT hx
                apply (kboLinLex_answers hI hT hpre hab hmemA hmemB).ensures
                have ha : a ∈ pre ++ a :: post := by simp
                have hb : b ∈ pre' ++ b :: post' := by simp
                have hsize : a.size ≤ n := by
                  have := size_lt c ha
                  omega
                refine (ih (hmemA a ha) (hmemB b hb) hab hsize _ _).imp fun run hrun => ?_
                obtain ⟨hcover, hweight⟩ := kboPhi_none_iff.mp hphi
                simp only [LTerm.erase_node, List.map_append, List.map_cons, hlabel, hpre]
                  at hcover hweight hprec hprec' hrun ⊢
                refine hrun.cast ?_ ?_
                · rw [crowdedBelow_node hcover hweight (by simpa using hpost) hab, crowded_iff,
                    Bool.or_eq_true, decide_eq_true_iff, or_assoc]
                · rw [List.foldl_cons, kboTie, if_neg hprec, if_neg hprec',
                    if_neg (by simpa using hpost),
                    firstOther_split (fun c _ => kboVerdict_self cfg c)
                      fun h => hab (kboVerdict_eq_iff.mp h)]

theorem kboCompareCore_ensures (hI : linear = false → I = Right cfg W T)
    (hT : InPlay linear S T) (hinj : InjectiveOn cfg.prec S)
    (hs : Weighable W T s) (ht : Weighable W T t) : Ensures I
      (kboCompareCore linear cfg s t (.clear f))
      (Settles (f = true ∨ Crowded (linScan linear cfg) cfg s.erase t.erase)
        (kboVerdict cfg s.erase t.erase)) := by
  have hV := linScan_exact (S := S) linear cfg
  apply (kboVortest_answers hI hT hs ht _).ensures
  dsimp only
  split
  · next hident =>
    have heq := of_decide_eq_true hident
    rw [heq, diffBumps_self hV, kboVerdict_self]
    exact Ensures.pure (settles_pure ⟨.inl, fun h => h.resolve_right (not_crowded_self hV _)⟩)
  · next hident =>
    have hne := of_decide_eq_false (Bool.eq_false_iff.mpr hident)
    have hdecide := scope_decide (f := f) hV (hT.built _ hs.mem) (hT.built _ ht.mem)
      (hT.vars _ hs.mem) (hT.vars _ ht.mem)
    rw [show ({ KboLin.clear f with touched := [] } : KboLin) = .clear f from rfl, hdecide]
    refine (kboLinRek_ensures hI hT hinj hs ht hne le_rfl [] _).imp fun run hrun => hrun.cast ?_ rfl
    rw [crowded_iff, Bool.or_eq_true, decide_eq_true_iff, or_assoc]

end Descent

end Thvm.Kbo
