import Thvm.BoundedLoops
import Thvm.FirstOrderModels

/-!
# Distribution

Distributing a matrix ends with a conjunction of disjunctions that means the same, and
the clauses that are taken from it mean the same unless one is too long. Negation normal
form and distribution keep the truth value of a quantifier-free formula under every valuation
of the atoms, whatever the atoms are about.
-/

namespace Thvm.Fol

open BoundedLoops

variable {D : Type} {M : Model D} {ρ : ℕ → D} {f g p q : Formula}

/-- Literals and disjunctions of them. -/
inductive IsDisj : Formula → Prop
  | atom (t : FTerm) : IsDisj (.atom t)
  | not (t : FTerm) : IsDisj (.not (.atom t))
  | or {p q : Formula} (hp : IsDisj p) (hq : IsDisj q) : IsDisj (.or p q)

/-- Conjunctions of disjunctions. -/
inductive IsCnf : Formula → Prop
  | disj {f : Formula} (hf : IsDisj f) : IsCnf f
  | and {p q : Formula} (hp : IsCnf p) (hq : IsCnf q) : IsCnf (.and p q)

theorem IsCnf.and_inv (h : IsCnf (.and p q)) : IsCnf p ∧ IsCnf q := by
  cases h with
  | disj h => cases h
  | and hp hq => exact ⟨hp, hq⟩

theorem IsCnf.isDisj (h : IsCnf f) (hf : ∀ p q, f ≠ .and p q) : IsDisj f := by
  cases h with
  | disj h => exact h
  | and _ _ => exact absurd rfl (hf _ _)

theorem IsDisj.isMatrix (h : IsDisj f) : f.IsMatrix := by
  induction h with
  | atom t => exact .atom t
  | not t => exact .not t
  | or _ _ ihp ihq => exact .or ihp ihq

theorem IsCnf.isMatrix (h : IsCnf f) : f.IsMatrix := by
  induction h with
  | disj h => exact h.isMatrix
  | and _ _ ihp ihq => exact .and ihp ihq

/-! ## The result -/

/-- The disjunction of two distributed formulas, distributed with `rounds` rounds. -/
def distributeOr (n : ℕ) (dp dq : Formula) : Option Formula :=
  match dp, dq with
  | .and a b, dq => (folDistribute n (.or a dq)).bind fun a' =>
      (folDistribute n (.or b dq)).bind fun b' => some (.and a' b')
  | dp, .and a b => (folDistribute n (.or dp a)).bind fun a' =>
      (folDistribute n (.or dp b)).bind fun b' => some (.and a' b')
  | dp, dq => some (.or dp dq)

theorem folDistribute_or (n : ℕ) (p q : Formula) :
    folDistribute (n + 1) (.or p q) = folDistribute n p >>= fun dp =>
      folDistribute n q >>= fun dq => distributeOr n dp dq := rfl

theorem folDistribute_and (n : ℕ) (p q : Formula) :
    folDistribute (n + 1) (.and p q) = folDistribute n p >>= fun dp =>
      folDistribute n q >>= fun dq => some (.and dp dq) := rfl

/-- A meaning of formulas that gives conjunction and disjunction theirs. -/
structure Respects (H : Formula → Prop) : Prop where
  and (p q : Formula) : H (.and p q) ↔ H p ∧ H q
  or (p q : Formula) : H (.or p q) ↔ H p ∨ H q

theorem respects_holds (M : Model D) (ρ : ℕ → D) : Respects (M.Holds ρ) :=
  ⟨fun _ _ => Iff.rfl, fun _ _ => Iff.rfl⟩

/-- The formulas mean the same however their literals are read. -/
def Agree (f g : Formula) : Prop := ∀ H, Respects H → (H f ↔ H g)

/-- The formula means the same as another one in every model. -/
def Equivalent (f g : Formula) : Prop :=
  ∀ (D : Type) (M : Model D) (ρ : ℕ → D), M.Holds ρ f ↔ M.Holds ρ g

theorem Agree.equivalent (h : Agree f g) : Equivalent f g := fun _ M ρ =>
  h _ (respects_holds M ρ)

theorem distributeOr_sound {n : ℕ} {dp dq : Formula} (hdp : IsCnf dp) (hdq : IsCnf dq)
    (ih : ∀ f g : Formula, f.IsMatrix → folDistribute n f = some g → IsCnf g ∧ Agree g f)
    (h : distributeOr n dp dq = some g) : IsCnf g ∧ Agree g (.or dp dq) := by
  unfold distributeOr at h
  split at h
  · next a b =>
    obtain ⟨ha, hb⟩ := hdp.and_inv
    obtain ⟨a', hda, h⟩ := Option.bind_eq_some_iff.mp h
    obtain ⟨b', hdb, h⟩ := Option.bind_eq_some_iff.mp h
    obtain rfl := Option.some.inj h
    obtain ⟨hcnfa, hequiva⟩ := ih _ _ (.or ha.isMatrix hdq.isMatrix) hda
    obtain ⟨hcnfb, hequivb⟩ := ih _ _ (.or hb.isMatrix hdq.isMatrix) hdb
    refine ⟨.and hcnfa hcnfb, fun H hH => ?_⟩
    rw [hH.and, hequiva H hH, hequivb H hH, hH.or, hH.or, hH.or, hH.and]
    exact and_or_right.symm
  · next a b hnot =>
    obtain ⟨ha, hb⟩ := hdq.and_inv
    obtain ⟨a', hda, h⟩ := Option.bind_eq_some_iff.mp h
    obtain ⟨b', hdb, h⟩ := Option.bind_eq_some_iff.mp h
    obtain rfl := Option.some.inj h
    obtain ⟨hcnfa, hequiva⟩ := ih _ _ (.or hdp.isMatrix ha.isMatrix) hda
    obtain ⟨hcnfb, hequivb⟩ := ih _ _ (.or hdp.isMatrix hb.isMatrix) hdb
    refine ⟨.and hcnfa hcnfb, fun H hH => ?_⟩
    rw [hH.and, hequiva H hH, hequivb H hH, hH.or, hH.or, hH.or, hH.and]
    exact or_and_left.symm
  · next hnotp hnotq =>
    obtain rfl := Option.some.inj h
    exact ⟨.disj (.or (hdp.isDisj hnotp) (hdq.isDisj hnotq)), fun _ _ => Iff.rfl⟩

/-- The result is a conjunction of disjunctions that means the same. -/
theorem folDistribute_sound {n : ℕ} (hf : f.IsMatrix) (h : folDistribute n f = some g) :
    IsCnf g ∧ Agree g f := by
  induction n generalizing f g with
  | zero => cases h
  | succ n ih =>
    cases hf with
    | atom t =>
      cases h
      exact ⟨.disj (.atom t), fun _ _ => Iff.rfl⟩
    | not t =>
      cases h
      exact ⟨.disj (.not t), fun _ _ => Iff.rfl⟩
    | and hp hq =>
      obtain ⟨dp, hdp, h⟩ := Option.bind_eq_some_iff.mp h
      obtain ⟨dq, hdq, h⟩ := Option.bind_eq_some_iff.mp h
      obtain rfl := Option.some.inj h
      obtain ⟨hcnfp, hequivp⟩ := ih hp hdp
      obtain ⟨hcnfq, hequivq⟩ := ih hq hdq
      refine ⟨.and hcnfp hcnfq, fun H hH => ?_⟩
      rw [hH.and, hH.and, hequivp H hH, hequivq H hH]
    | or hp hq =>
      obtain ⟨dp, hdp, h⟩ := Option.bind_eq_some_iff.mp h
      obtain ⟨dq, hdq, h⟩ := Option.bind_eq_some_iff.mp h
      obtain ⟨hcnfp, hequivp⟩ := ih hp hdp
      obtain ⟨hcnfq, hequivq⟩ := ih hq hdq
      obtain ⟨hcnf, hequiv⟩ := distributeOr_sound hcnfp hcnfq (fun _ _ => ih) h
      refine ⟨hcnf, fun H hH => ?_⟩
      rw [hequiv H hH, hH.or, hH.or, hequivp H hH, hequivq H hH]

/-! ## Termination -/

/-- Every call of the distribution lowers it, and the result has no more than the formula. -/
def weight : Formula → ℕ
  | .and p q => weight p + weight q + 1
  | .or p q => weight p * weight q
  | _ => 2

theorem two_le_weight (f : Formula) : 2 ≤ weight f := by
  induction f with
  | and p q ihp ihq =>
    rw [weight]
    omega
  | or p q ihp ihq => exact Nat.le_trans (by decide) (Nat.mul_le_mul ihp ihq)
  | _ => exact Nat.le_refl 2

theorem settles_distributeOr {dp dq : Formula}
    (ih : ∀ f, weight f < weight (.or dp dq) →
      ∃ g, Settles (folDistribute · f) g ∧ weight g ≤ weight f) :
    ∃ g, Settles (distributeOr · dp dq) g ∧ weight g ≤ weight (.or dp dq) := by
  have hdp := two_le_weight dp
  have hdq := two_le_weight dq
  unfold distributeOr
  split
  · next a b =>
    have hsum : weight (.or (.and a b) dq) = weight (.or a dq) + weight (.or b dq) + weight dq := by
      simp only [weight, Nat.add_mul, Nat.one_mul]
    obtain ⟨a', ha, hwa⟩ := ih (.or a dq) (by omega)
    obtain ⟨b', hb, hwb⟩ := ih (.or b dq) (by omega)
    refine ⟨.and a' b', ha.bind (hb.bind (Settles.const _)), ?_⟩
    rw [hsum, weight]
    omega
  · next a b hnot =>
    have hsum : weight (.or dp (.and a b)) = weight (.or dp a) + weight (.or dp b) + weight dp := by
      simp only [weight, Nat.mul_add, Nat.mul_one]
    obtain ⟨a', ha, hwa⟩ := ih (.or dp a) (by omega)
    obtain ⟨b', hb, hwb⟩ := ih (.or dp b) (by omega)
    refine ⟨.and a' b', ha.bind (hb.bind (Settles.const _)), ?_⟩
    rw [hsum, weight]
    omega
  · exact ⟨_, Settles.const _, Nat.le_refl _⟩

/-- Distribution ends. -/
theorem settles_folDistribute (f : Formula) :
    ∃ g, Settles (folDistribute · f) g ∧ weight g ≤ weight f := by
  induction hw : weight f using Nat.strong_induction_on generalizing f with
  | _ w ih =>
    subst hw
    cases f with
    | and p q =>
      obtain ⟨dp, hdp, hwp⟩ := ih (weight p) (by rw [weight]; omega) p rfl
      obtain ⟨dq, hdq, hwq⟩ := ih (weight q) (by rw [weight]; omega) q rfl
      have hand : Settles (fun n => folDistribute n p >>= fun dp => folDistribute n q >>= fun dq =>
          some (Formula.and dp dq)) (Formula.and dp dq) :=
        hdp.bind (hdq.bind (Settles.const (Formula.and dp dq)))
      refine ⟨.and dp dq, hand.succ fun n => folDistribute_and n p q, ?_⟩
      rw [weight, weight]
      omega
    | or p q =>
      have hp := two_le_weight p
      have hq := two_le_weight q
      have hle : weight p * 2 ≤ weight p * weight q := Nat.mul_le_mul_left _ hq
      have hle' : 2 * weight q ≤ weight p * weight q := Nat.mul_le_mul_right _ hp
      obtain ⟨dp, hdp, hwp⟩ := ih (weight p) (by rw [weight]; omega) p rfl
      obtain ⟨dq, hdq, hwq⟩ := ih (weight q) (by rw [weight]; omega) q rfl
      have hwor : weight (.or dp dq) ≤ weight (.or p q) := Nat.mul_le_mul hwp hwq
      obtain ⟨g, hg, hwg⟩ := @settles_distributeOr dp dq fun f hf =>
        ih (weight f) (Nat.lt_of_lt_of_le hf hwor) f rfl
      exact ⟨g, (hdp.bind (hdq.bind hg)).succ fun n => folDistribute_or n p q,
        hwg.trans hwor⟩
    | _ => exact ⟨_, (Settles.const _).succ fun n => rfl, Nat.le_refl _⟩

/-! ## Clauses -/

/-- The disjunctions of a distributed formula. -/
def disjunctions : Formula → List (List FolLit)
  | .and p q => disjunctions p ++ disjunctions q
  | f => [folExtractOr f]

theorem holds_folExtractOr (hf : IsDisj f) : M.HoldsClause ρ (folExtractOr f) ↔ M.Holds ρ f := by
  induction hf with
  | atom t => exact (Model.holdsClause_cons).trans (or_iff_left Model.holdsClause_nil)
  | not t => exact (Model.holdsClause_cons).trans (or_iff_left Model.holdsClause_nil)
  | or _ _ ihp ihq => exact Model.holdsClause_append.trans (or_congr ihp ihq)

theorem holds_disjunctions (hf : IsCnf f) : M.HoldsClauses ρ (disjunctions f) ↔ M.Holds ρ f := by
  induction hf with
  | disj hf =>
    rw [← holds_folExtractOr hf, ← Model.holdsClauses_singleton]
    cases hf <;> rfl
  | and _ _ ihp ihq => exact Model.holdsClauses_append.trans (and_congr ihp ihq)

/-- Clauses of more than `FOL_MAX_LITS` literals are left out. -/
theorem folExtractAnd_eq (f : Formula) :
    folExtractAnd f = (disjunctions f).filter fun c => c.length ≤ folMaxLits := by
  have hone : ∀ f : Formula, folAppendClause f =
      [folExtractOr f].filter fun c => c.length ≤ folMaxLits := by
    intro f
    rw [folAppendClause, folClauseNew, List.filter_singleton]
    by_cases h : (folExtractOr f).length > folMaxLits
    · rw [if_pos h, decide_eq_false (Nat.not_le.mpr h)]
      rfl
    · rw [if_neg h, decide_eq_true (Nat.not_lt.mp h)]
      rfl
  induction f with
  | and p q ihp ihq => rw [folExtractAnd, disjunctions, List.filter_append, ihp, ihq]
  | _ => exact hone _

/-- The distributed matrix has no clause that is too long. -/
def NoLongClause (matrix : Formula) : Prop :=
  ∀ n cnf, folDistribute n matrix = some cnf → ∀ c ∈ disjunctions cnf, c.length ≤ folMaxLits

namespace Formula

/-- The number of literals of the longest clause. -/
def longest : Formula → ℕ
  | .and p q => max p.longest q.longest
  | .or p q => p.longest + q.longest
  | .all _ body | .ex _ body => body.longest
  | _ => 1

end Formula

theorem longest_distributed_and {n : ℕ} {f f' : Formula}
    (ih : ∀ f g : Formula, folDistribute n f = some g → g.longest ≤ f.longest)
    (h : ((folDistribute n f).bind fun a => (folDistribute n f').bind fun b =>
      some (Formula.and a b)) = some g) : g.longest ≤ max f.longest f'.longest := by
  obtain ⟨a, ha, h⟩ := Option.bind_eq_some_iff.mp h
  obtain ⟨b, hb, h⟩ := Option.bind_eq_some_iff.mp h
  obtain rfl := Option.some.inj h
  exact max_le_max (ih _ _ ha) (ih _ _ hb)

theorem longest_distributeOr {n : ℕ} {dp dq : Formula}
    (ih : ∀ f g : Formula, folDistribute n f = some g → g.longest ≤ f.longest)
    (h : distributeOr n dp dq = some g) : g.longest ≤ dp.longest + dq.longest := by
  unfold distributeOr at h
  split at h
  · next a b =>
    have hmax := longest_distributed_and ih h
    rw [Formula.longest, Formula.longest] at hmax
    rw [Formula.longest]
    omega
  · next a b hnot =>
    have hmax := longest_distributed_and ih h
    rw [Formula.longest, Formula.longest] at hmax
    rw [Formula.longest]
    omega
  · exact (congrArg Formula.longest (Option.some.inj h)).symm.le

/-- Distribution makes no clause longer than the longest one of the formula. -/
theorem longest_folDistribute {n : ℕ} (h : folDistribute n f = some g) :
    g.longest ≤ f.longest := by
  induction n generalizing f g with
  | zero => cases h
  | succ n ih =>
    cases f with
    | and p q =>
      obtain ⟨dp, hdp, h⟩ := Option.bind_eq_some_iff.mp h
      obtain ⟨dq, hdq, h⟩ := Option.bind_eq_some_iff.mp h
      obtain rfl := Option.some.inj h
      exact max_le_max (ih hdp) (ih hdq)
    | or p q =>
      obtain ⟨dp, hdp, h⟩ := Option.bind_eq_some_iff.mp h
      obtain ⟨dq, hdq, h⟩ := Option.bind_eq_some_iff.mp h
      exact (longest_distributeOr (fun _ _ => ih) h).trans (Nat.add_le_add (ih hdp) (ih hdq))
    | _ => exact (congrArg Formula.longest (Option.some.inj h)).symm.le

theorem length_folExtractOr (hf : IsDisj f) : (folExtractOr f).length = f.longest := by
  induction hf with
  | atom t => rfl
  | not t => rfl
  | or _ _ ihp ihq => rw [folExtractOr, List.length_append, ihp, ihq, Formula.longest]

theorem length_disjunctions_le (hf : IsCnf f) : ∀ c ∈ disjunctions f, c.length ≤ f.longest := by
  induction hf with
  | disj hf =>
    intro c hc
    rw [← length_folExtractOr hf]
    cases hf <;> exact (congrArg List.length (List.mem_singleton.mp hc)).le
  | and _ _ ihp ihq =>
    intro c hc
    rcases List.mem_append.mp hc with hc | hc
    · exact (ihp c hc).trans (le_max_left _ _)
    · exact (ihq c hc).trans (le_max_right _ _)

theorem noLongClause_of_longest (hf : f.IsMatrix) (h : f.longest ≤ folMaxLits) : NoLongClause f :=
  fun _ _ hcnf c hc => (length_disjunctions_le (folDistribute_sound hf hcnf).1 c hc).trans
    ((longest_folDistribute hcnf).trans h)

/-- The clauses of the distributed matrix are all its disjunctions and mean the same as it. -/
theorem folFormulaToClauses_spec (f : Formula) (hf : (folSkolemize (folNnf f)).IsMatrix)
    (hlong : NoLongClause (folSkolemize (folNnf f))) :
    ∃ cs cnf, Settles (folFormulaToClauses · f) cs ∧
      Settles (folDistribute · (folSkolemize (folNnf f))) cnf ∧ cs = disjunctions cnf ∧
      ∀ (D : Type) (M : Model D) (ρ : ℕ → D),
        M.HoldsClauses ρ cs ↔ M.Holds ρ (folSkolemize (folNnf f)) := by
  obtain ⟨cnf, hsettles, -⟩ := settles_folDistribute (folSkolemize (folNnf f))
  have hdone := hsettles
  obtain ⟨N, hN⟩ := hsettles
  obtain ⟨hcnf, hequiv⟩ := folDistribute_sound hf (hN N (Nat.le_refl N))
  have hall : folExtractAnd cnf = disjunctions cnf := by
    rw [folExtractAnd_eq, List.filter_eq_self]
    exact fun c hc => decide_eq_true (hlong N cnf (hN N (Nat.le_refl N)) c hc)
  refine ⟨folExtractAnd cnf, cnf, ⟨N, fun n hn => ?_⟩, hdone, hall, fun D M ρ => ?_⟩
  · show (folDistribute n _).bind _ = _
    rw [show folDistribute n _ = some cnf from hN n hn]
    rfl
  · rw [hall, holds_disjunctions hcnf]
    exact hequiv.equivalent D M ρ

/-! ## Quantifier-free formulas -/

/-- Formulas without quantifiers. -/
inductive QuantFree : Formula → Prop
  | atom (t : FTerm) : QuantFree (.atom t)
  | not {p : Formula} (hp : QuantFree p) : QuantFree (.not p)
  | and {p q : Formula} (hp : QuantFree p) (hq : QuantFree q) : QuantFree (.and p q)
  | or {p q : Formula} (hp : QuantFree p) (hq : QuantFree q) : QuantFree (.or p q)
  | imp {p q : Formula} (hp : QuantFree p) (hq : QuantFree q) : QuantFree (.imp p q)
  | iff {p q : Formula} (hp : QuantFree p) (hq : QuantFree q) : QuantFree (.iff p q)

/-- The truth value under a valuation of the atoms; a quantifier has none. -/
def truth (V : FTerm → Prop) : Formula → Prop
  | .atom t => V t
  | .not p => ¬ truth V p
  | .and p q => truth V p ∧ truth V q
  | .or p q => truth V p ∨ truth V q
  | .imp p q => truth V p → truth V q
  | .iff p q => truth V p ↔ truth V q
  | .all _ _ => False
  | .ex _ _ => False

theorem respects_truth (V : FTerm → Prop) : Respects (truth V) :=
  ⟨fun _ _ => Iff.rfl, fun _ _ => Iff.rfl⟩

/-- The normal form is a matrix of literals. -/
theorem isMatrix_folNnfRec (hf : QuantFree f) (negate : Bool) :
    (folNnfRec f negate).IsMatrix := by
  induction hf generalizing negate with
  | atom t =>
    cases negate with
    | true => exact .not t
    | false => exact .atom t
  | not _ ih => exact ih _
  | and _ _ ihp ihq =>
    cases negate with
    | true => exact .or (ihp _) (ihq _)
    | false => exact .and (ihp _) (ihq _)
  | or _ _ ihp ihq =>
    cases negate with
    | true => exact .and (ihp _) (ihq _)
    | false => exact .or (ihp _) (ihq _)
  | imp _ _ ihp ihq =>
    cases negate with
    | true => exact .and (ihp _) (ihq _)
    | false => exact .or (ihp _) (ihq _)
  | iff _ _ ihp ihq =>
    cases negate with
    | true => exact .or (.and (ihp _) (ihq _)) (.and (ihp _) (ihq _))
    | false => exact .and (.or (ihp _) (ihq _)) (.or (ihp _) (ihq _))

/-- Under a negation the normal form has the opposite value. -/
theorem truth_folNnfRec (V : FTerm → Prop) (hf : QuantFree f) :
    (truth V (folNnfRec f false) ↔ truth V f) ∧ (truth V (folNnfRec f true) ↔ ¬ truth V f) := by
  induction hf with
  | atom t => exact ⟨Iff.rfl, Iff.rfl⟩
  | not _ ih => exact ⟨ih.2, ih.1.trans not_not.symm⟩
  | and _ _ ihp ihq =>
    exact ⟨and_congr ihp.1 ihq.1, (or_congr ihp.2 ihq.2).trans not_and_or.symm⟩
  | or _ _ ihp ihq =>
    exact ⟨or_congr ihp.1 ihq.1, (and_congr ihp.2 ihq.2).trans not_or.symm⟩
  | imp _ _ ihp ihq =>
    exact ⟨(or_congr ihp.2 ihq.1).trans imp_iff_not_or.symm,
      (and_congr ihp.1 ihq.2).trans Classical.not_imp.symm⟩
  | iff _ _ ihp ihq =>
    simp only [folNnfRec, truth, ihp.1, ihp.2, ihq.1, ihq.2]
    constructor <;> tauto

/-- From some number of rounds on, normal form and distribution return one formula: it is in
conjunctive normal form and has the truth value of the input under every valuation. -/
theorem folDistribute_folNnf (hf : QuantFree f) :
    ∃ g, Settles (folDistribute · (folNnf f)) g ∧ IsCnf g ∧ ∀ V, truth V g ↔ truth V f := by
  obtain ⟨g, hsettles, -⟩ := settles_folDistribute (folNnf f)
  obtain ⟨N, hN⟩ := hsettles
  obtain ⟨hcnf, hagree⟩ := folDistribute_sound (isMatrix_folNnfRec hf false) (hN N le_rfl)
  exact ⟨g, ⟨N, hN⟩, hcnf, fun V =>
    (hagree _ (respects_truth V)).trans (truth_folNnfRec V hf).1⟩

/-- A negated equivalence of two atoms. -/
theorem folDistribute_folNnf_iff :
    ∃ g, Settles
        (folDistribute · (folNnf (.not (.iff (.atom (.ctr 1 [])) (.atom (.ctr 2 [])))))) g ∧
      IsCnf g ∧
        ∀ V, truth V g ↔ truth V (.not (.iff (.atom (.ctr 1 [])) (.atom (.ctr 2 [])))) :=
  folDistribute_folNnf (.not (.iff (.atom _) (.atom _)))

end Thvm.Fol
