import Mathlib.Data.Set.Insert
import Thvm.CnfDistribution

/-!
# Equisatisfiable clauses

The negation normal form means the same as the formula. Skolemisation and the dropping of
the quantifiers keep satisfiability as long as no variable is bound again in the scope of
its quantifier and the two sides of a disjunction bind different variables.
-/

namespace Thvm.Fol

open BoundedLoops

variable {D : Type} {M M' : Model D} {ρ ρ' σ : ℕ → D} {f g p q body : Formula} {S S' : Set ℕ}
  {t : FTerm} {x : ℕ}

/-! ## Negation normal form -/

theorem holds_folNnfRec (f : Formula) (negate : Bool) (ρ : ℕ → D) :
    M.Holds ρ (folNnfRec f negate) ↔ if negate then ¬M.Holds ρ f else M.Holds ρ f := by
  induction f generalizing negate ρ with
  | atom t => cases negate <;> rfl
  | not p ih =>
    rw [folNnfRec, ih]
    cases negate with
    | true => exact not_not.symm
    | false => rfl
  | and p q ihp ihq =>
    cases negate with
    | true => exact (or_congr (ihp true ρ) (ihq true ρ)).trans not_and_or.symm
    | false => exact and_congr (ihp false ρ) (ihq false ρ)
  | or p q ihp ihq =>
    cases negate with
    | true => exact (and_congr (ihp true ρ) (ihq true ρ)).trans not_or.symm
    | false => exact or_congr (ihp false ρ) (ihq false ρ)
  | imp p q ihp ihq =>
    cases negate with
    | true => exact (and_congr (ihp false ρ) (ihq true ρ)).trans Classical.not_imp.symm
    | false => exact (or_congr (ihp true ρ) (ihq false ρ)).trans imp_iff_not_or.symm
  | iff p q ihp ihq =>
    have hp := ihp true ρ
    have hp' := ihp false ρ
    have hq := ihq true ρ
    have hq' := ihq false ρ
    simp only [if_true, Bool.false_eq_true, if_false] at hp hp' hq hq'
    cases negate with
    | true =>
      simp only [folNnfRec, Model.Holds, hp, hp', hq, hq', if_true]
      tauto
    | false =>
      simp only [folNnfRec, Model.Holds, hp, hp', hq, hq', Bool.false_eq_true, if_false]
      tauto
  | all var body ih =>
    cases negate with
    | true => exact (exists_congr fun d => ih true _).trans Classical.not_forall.symm
    | false => exact forall_congr' fun d => ih false _
  | ex var body ih =>
    cases negate with
    | true => exact (forall_congr' fun d => ih true _).trans not_exists.symm
    | false => exact exists_congr fun d => ih false _

theorem holds_folNnf (f : Formula) (ρ : ℕ → D) : M.Holds ρ (folNnf f) ↔ M.Holds ρ f :=
  holds_folNnfRec f false ρ

theorem everyLabel_folNnfRec {P : ℕ → Prop} (h : f.EveryLabel P) (negate : Bool) :
    (folNnfRec f negate).EveryLabel P := by
  induction f generalizing negate with
  | atom t => cases negate <;> exact h
  | not p ih => exact ih h _
  | and p q ihp ihq | or p q ihp ihq | imp p q ihp ihq =>
    cases negate <;> exact ⟨ihp h.1 _, ihq h.2 _⟩
  | iff p q ihp ihq =>
    cases negate <;> exact ⟨⟨ihp h.1 _, ihq h.2 _⟩, ihp h.1 _, ihq h.2 _⟩
  | all var body ih | ex var body ih => cases negate <;> exact ih h _

/-! ## Scopes -/

namespace Formula

/-- The variables of the universal quantifiers. -/
def univIds : Formula → List ℕ
  | .all (.leaf (.fvr x)) body => x :: body.univIds
  | .all _ body | .ex _ body | .not body => body.univIds
  | .and p q | .or p q | .imp p q | .iff p q => p.univIds ++ q.univIds
  | .atom _ => []

/-- How many universal quantifiers are nested. -/
def univDepth : Formula → ℕ
  | .all _ body => body.univDepth + 1
  | .ex _ body | .not body => body.univDepth
  | .and p q | .or p q | .imp p q | .iff p q => max p.univDepth q.univDepth
  | .atom _ => 0

def exCount : Formula → ℕ
  | .ex _ body => body.exCount + 1
  | .all _ body | .not body => body.exCount
  | .and p q | .or p q | .imp p q | .iff p q => p.exCount + q.exCount
  | .atom _ => 0

end Formula

/-- No node that a variable occurs in has more than `REWRITE_MAX_ARITY` arguments. -/
inductive Fits (x : ℕ) : FTerm → Prop
  | leaf (l : Leaf) : Fits x (.leaf l)
  | node {label : ℕ} {args : List FTerm}
      (harity : Leaf.fvr x ∈ (TermTree.node label args).leaves → args.length ≤ rewriteMaxArity)
      (hargs : ∀ a ∈ args, Fits x a) : Fits x (.node label args)

def FitsIn (x : ℕ) : Formula → Prop
  | .atom t => Fits x t
  | .not p => FitsIn x p
  | .and p q | .or p q | .imp p q | .iff p q => FitsIn x p ∧ FitsIn x q
  | .all _ body | .ex _ body => FitsIn x body

/-- A predicate application with variables of a scope. -/
inductive AtomIn (S : Set ℕ) : FTerm → Prop
  | ctr {label : ℕ} {args : List FTerm}
      (h : ∀ id, Leaf.fvr id ∈ (TermTree.node label args).leaves → id ∈ S) :
      AtomIn S (.ctr label args)

/-- A formula in negation normal form with its variables in a scope. Its quantifiers bind
variables that are new in their scope, and the two sides of a disjunction bind different ones
universally. -/
inductive Scoped : Set ℕ → Formula → Prop
  | atom {S : Set ℕ} {t : FTerm} (h : AtomIn S t) : Scoped S (.atom t)
  | not {S : Set ℕ} {t : FTerm} (h : AtomIn S t) : Scoped S (.not (.atom t))
  | and {S : Set ℕ} {p q : Formula} (hp : Scoped S p) (hq : Scoped S q) : Scoped S (.and p q)
  | or {S : Set ℕ} {p q : Formula} (hp : Scoped S p) (hq : Scoped S q)
      (hdisjoint : ∀ id ∈ p.univIds, id ∉ q.univIds) : Scoped S (.or p q)
  | all {S : Set ℕ} {x : ℕ} {body : Formula} (hnew : x ∉ S) (hbody : Scoped (insert x S) body) :
      Scoped S (.all (.fvr x) body)
  | ex {S : Set ℕ} {x : ℕ} {body : Formula} (hnew : x ∉ S) (hfits : FitsIn x body)
      (hbody : Scoped (insert x S) body) : Scoped S (.ex (.fvr x) body)

theorem AtomIn.mem (h : AtomIn S t) {id : ℕ} (hid : Leaf.fvr id ∈ t.leaves) : id ∈ S := by
  obtain ⟨h⟩ := h
  exact h id hid

/-- Quantifiers bind variables outside the scope. -/
theorem Scoped.univIds_notMem (h : Scoped S f) : ∀ id ∈ f.univIds, id ∉ S := by
  induction h with
  | atom _ => exact fun id hid => nomatch hid
  | not _ => exact fun id hid => nomatch hid
  | and _ _ ihp ihq =>
    exact fun id hid => (List.mem_append.mp hid).elim (ihp id) (ihq id)
  | or _ _ _ ihp ihq =>
    exact fun id hid => (List.mem_append.mp hid).elim (ihp id) (ihq id)
  | all hnew _ ih =>
    intro id hid
    rcases List.mem_cons.mp hid with rfl | hid
    · exact hnew
    · exact fun hS => ih id hid (Set.mem_insert_of_mem _ hS)
  | ex _ _ _ ih => exact fun id hid hS => ih id hid (Set.mem_insert_of_mem _ hS)

/-- The truth of a formula depends on the values in its scope. -/
theorem Scoped.holds_congr (h : Scoped S f) (hρ : ∀ id ∈ S, ρ id = ρ' id) :
    M.Holds ρ f ↔ M.Holds ρ' f := by
  have hupdate : ∀ {S : Set ℕ} {x : ℕ} {ρ ρ' : ℕ → D} (d : D), (∀ id ∈ S, ρ id = ρ' id) →
      ∀ id ∈ insert x S, Function.update ρ x d id = Function.update ρ' x d id := by
    intro S x ρ ρ' d hρ id hid
    by_cases heq : id = x
    · rw [heq, Function.update_self, Function.update_self]
    · rw [Function.update_of_ne heq, Function.update_of_ne heq]
      exact hρ id (hid.resolve_left heq)
  induction h generalizing ρ ρ' with
  | atom h => exact Model.holdsAtom_congr fun id hid => hρ id (h.mem hid)
  | not h => exact not_congr (Model.holdsAtom_congr fun id hid => hρ id (h.mem hid))
  | and _ _ ihp ihq => exact and_congr (ihp hρ) (ihq hρ)
  | or _ _ _ ihp ihq => exact or_congr (ihp hρ) (ihq hρ)
  | all _ _ ih => exact forall_congr' fun d => ih (hupdate d hρ)
  | ex _ _ _ ih => exact exists_congr fun d => ih (hupdate d hρ)

/-! ## Substitution -/

variable {r : FTerm}

/-- The substitution of one variable. -/
def single (x : ℕ) (r : FTerm) (id : ℕ) : FTerm := if id = x then r else .fvr id

theorem mem_leaves_single {id : ℕ}
    (h : Leaf.fvr id ∈ (t.inst (single x r)).leaves) :
    id ≠ x ∧ Leaf.fvr id ∈ t.leaves ∨ Leaf.fvr x ∈ t.leaves ∧ Leaf.fvr id ∈ r.leaves := by
  obtain ⟨l, hl, hid⟩ := TermTree.mem_leaves_subst.mp h
  cases l with
  | fvr y =>
    by_cases hy : y = x
    · subst hy
      rw [onLeaves, single, if_pos rfl] at hid
      exact .inr ⟨hl, hid⟩
    · rw [onLeaves, single, if_neg hy] at hid
      obtain rfl : id = y := Leaf.fvr.inj (List.mem_singleton.mp hid)
      exact .inl ⟨hy, hl⟩
  | num dtype value => exact nomatch List.mem_singleton.mp hid

theorem inst_single_of_notMem (h : Leaf.fvr x ∉ t.leaves) : t.inst (single x r) = t := by
  refine Eq.trans (FTerm.inst_congr fun id hid => ?_) (FTerm.inst_id t)
  rw [single, if_neg]
  rintro rfl
  exact h hid

theorem folVarSubstList_eq (x : ℕ) (r : FTerm) (args : List FTerm) :
    folVarSubstList x r args = args.map (folVarSubst x r) := by
  induction args with
  | nil => rfl
  | cons a args ih => rw [folVarSubstList, ih, List.map_cons]

/-- `fol_var_subst` is substitution where the arities fit. -/
theorem folVarSubst_eq (h : Fits x t) : folVarSubst x r t = t.inst (single x r) := by
  induction h with
  | leaf l => cases l <;> rfl
  | @node label args harity hargs ih =>
    rw [folVarSubst]
    by_cases hx : Leaf.fvr x ∈ (TermTree.node label args).leaves
    · rw [if_neg (Nat.not_lt.mpr (harity hx)), folVarSubstList_eq, List.map_congr_left ih]
      exact (FTerm.inst_ctr _ _ _).symm
    · rw [inst_single_of_notMem hx]
      by_cases hlen : args.length > rewriteMaxArity
      · rw [if_pos hlen]
      · rw [if_neg hlen, folVarSubstList_eq, List.map_congr_left ih]
        refine congrArg _ ((List.map_congr_left fun a ha => ?_).trans (List.map_id args))
        exact inst_single_of_notMem fun hmem => hx (TermTree.mem_leaves_node.mpr ⟨a, ha, hmem⟩)

theorem fits_of_notMem (h : Leaf.fvr x ∉ t.leaves) : Fits x t := by
  induction t using TermTree.induct with
  | leaf l => exact .leaf l
  | node label args ih =>
    exact .node (fun hmem => absurd hmem h) fun a ha =>
      ih a ha fun hmem => h (TermTree.mem_leaves_node.mpr ⟨a, ha, hmem⟩)

theorem Fits.inst {z : ℕ} (h : Fits z t) (hz : Leaf.fvr z ∉ r.leaves) :
    Fits z (t.inst (single x r)) := by
  induction h with
  | leaf l =>
    cases l with
    | fvr y =>
      rw [FTerm.inst_fvr, single]
      split
      · exact fits_of_notMem hz
      · exact .leaf _
    | num dtype value => exact .leaf _
  | @node label args harity hargs ih =>
    rw [FTerm.inst_ctr]
    refine .node (fun hmem => ?_) fun b hb => ?_
    · have hmem : Leaf.fvr z ∈ (FTerm.inst (single x r) (.ctr label args)).leaves := by
        rw [FTerm.inst_ctr]
        exact hmem
      rw [List.length_map]
      exact harity ((mem_leaves_single hmem).resolve_right fun h => hz h.2).2
    · obtain ⟨a, ha, rfl⟩ := List.mem_map.mp hb
      exact ih a ha

theorem value_single (M : Model D) (ρ : ℕ → D) (x : ℕ) (r t : FTerm) :
    M.value ρ (t.inst (single x r)) = M.value (Function.update ρ x (M.value ρ r)) t := by
  rw [Model.value_inst]
  congr 1
  funext id
  rw [single, Function.update_apply]
  split <;> rfl

theorem AtomIn.holds_single (h : AtomIn S t) :
    M.HoldsAtom ρ (t.inst (single x r)) ↔
      M.HoldsAtom (Function.update ρ x (M.value ρ r)) t := by
  obtain ⟨_⟩ := h
  rename_i label args _
  have hargs : (args.map (FTerm.inst (single x r))).map (M.value ρ) =
      args.map (M.value (Function.update ρ x (M.value ρ r))) := by
    rw [List.map_map]
    exact List.map_congr_left fun a _ => value_single M ρ x r a
  rw [FTerm.inst_ctr, Model.HoldsAtom, hargs, Model.HoldsAtom]

theorem AtomIn.inst (h : AtomIn S t) (hS : ∀ id ∈ S, id = x ∨ id ∈ S')
    (hr : ∀ id, Leaf.fvr id ∈ r.leaves → id ∈ S') : AtomIn S' (t.inst (single x r)) := by
  obtain ⟨h⟩ := h
  rename_i label args
  have hmem : ∀ id, Leaf.fvr id ∈ (FTerm.inst (single x r) (.ctr label args)).leaves → id ∈ S' := by
    intro id hid
    rcases mem_leaves_single hid with ⟨hne, hid⟩ | ⟨-, hid⟩
    · exact (hS id (h id hid)).resolve_left hne
    · exact hr id hid
  rw [FTerm.inst_ctr] at hmem ⊢
  exact .ctr hmem

/-- A variable of the scope can be replaced by a term over the other ones. -/
structure Replaces (S S' : Set ℕ) (x : ℕ) (r : FTerm) : Prop where
  mem : x ∈ S
  sub : S' ⊆ S
  rest : ∀ id ∈ S, id = x ∨ id ∈ S'
  term : ∀ id, Leaf.fvr id ∈ r.leaves → id ∈ S'

theorem Replaces.insert (h : Replaces S S' x r) (z : ℕ) :
    Replaces (insert z S) (insert z S') x r where
  mem := Set.mem_insert_of_mem z h.mem
  sub := Set.insert_subset_insert h.sub
  rest id hid := by
    rcases hid with rfl | hid
    · exact .inr (Set.mem_insert id S')
    · exact (h.rest id hid).imp_right (Set.mem_insert_of_mem z)
  term id hid := Set.mem_insert_of_mem z (h.term id hid)

theorem FitsIn.varSubst {z : ℕ} (h : FitsIn z f) (hx : FitsIn x f) (hz : Leaf.fvr z ∉ r.leaves) :
    FitsIn z (f.varSubst x r) := by
  induction f with
  | atom t =>
    show Fits z (folVarSubst x r t)
    rw [folVarSubst_eq hx]
    exact Fits.inst h hz
  | not p ih => exact ih h hx
  | and p q ihp ihq | or p q ihp ihq | imp p q ihp ihq | iff p q ihp ihq =>
    exact ⟨ihp h.1 hx.1, ihq h.2 hx.2⟩
  | all var body ih | ex var body ih => exact ih h hx

/-- A quantifier of another variable stays. -/
theorem folVarSubst_fvr {z : ℕ} (h : z ≠ x) : folVarSubst x r (.fvr z) = .fvr z := if_neg h

theorem Scoped.varSubst (h : Scoped S f) (hr : Replaces S S' x r) (hfits : FitsIn x f) :
    Scoped S' (f.varSubst x r) ∧ (f.varSubst x r).univIds = f.univIds := by
  induction h generalizing S' with
  | atom h =>
    refine ⟨.atom ?_, rfl⟩
    rw [folVarSubst_eq hfits]
    exact h.inst hr.rest hr.term
  | not h =>
    refine ⟨.not ?_, rfl⟩
    rw [folVarSubst_eq hfits]
    exact h.inst hr.rest hr.term
  | and _ _ ihp ihq =>
    obtain ⟨hp, hup⟩ := ihp hr hfits.1
    obtain ⟨hq, huq⟩ := ihq hr hfits.2
    exact ⟨.and hp hq, congrArg₂ (· ++ ·) hup huq⟩
  | or _ _ hdisjoint ihp ihq =>
    obtain ⟨hp, hup⟩ := ihp hr hfits.1
    obtain ⟨hq, huq⟩ := ihq hr hfits.2
    exact ⟨.or hp hq (by rw [hup, huq]; exact hdisjoint), congrArg₂ (· ++ ·) hup huq⟩
  | @all S z body hnew _ ih =>
    obtain ⟨hbody, hu⟩ := ih (hr.insert z) hfits
    have hne : z ≠ x := fun heq => hnew (heq ▸ hr.mem)
    rw [Formula.varSubst, folVarSubst_fvr hne]
    exact ⟨.all (fun hz => hnew (hr.sub hz)) hbody, congrArg (z :: ·) hu⟩
  | @ex S z body hnew hfitsz _ ih =>
    obtain ⟨hbody, hu⟩ := ih (hr.insert z) hfits
    have hne : z ≠ x := fun heq => hnew (heq ▸ hr.mem)
    rw [Formula.varSubst, folVarSubst_fvr hne]
    refine ⟨.ex (fun hz => hnew (hr.sub hz)) (hfitsz.varSubst hfits fun hz => ?_) hbody, hu⟩
    exact hnew (hr.sub (hr.term z hz))

/-- The replaced variable has the value of the term. -/
theorem Scoped.holds_varSubst (h : Scoped S f) (hr : Replaces S S' x r) (hfits : FitsIn x f)
    (ρ : ℕ → D) :
    M.Holds ρ (f.varSubst x r) ↔ M.Holds (Function.update ρ x (M.value ρ r)) f := by
  have hbind : ∀ {S S' : Set ℕ} {z : ℕ} (ρ : ℕ → D) (d : D), Replaces S S' x r → z ∉ S →
      Function.update (Function.update ρ z d) x (M.value (Function.update ρ z d) r) =
        Function.update (Function.update ρ x (M.value ρ r)) z d := by
    intro S S' z ρ d hr hnew
    have hvalue : M.value (Function.update ρ z d) r = M.value ρ r := by
      refine Model.value_congr fun id hid => Function.update_of_ne ?_ d ρ
      rintro rfl
      exact hnew (hr.sub (hr.term id hid))
    rw [hvalue]
    exact Function.update_comm (fun heq : z = x => hnew (heq ▸ hr.mem)) _ _ ρ
  induction h generalizing S' ρ with
  | atom h =>
    show M.HoldsAtom ρ (folVarSubst x r _) ↔ _
    rw [folVarSubst_eq hfits]
    exact h.holds_single
  | not h =>
    show ¬M.HoldsAtom ρ (folVarSubst x r _) ↔ _
    rw [folVarSubst_eq hfits]
    exact not_congr h.holds_single
  | and _ _ ihp ihq => exact and_congr (ihp hr hfits.1 ρ) (ihq hr hfits.2 ρ)
  | or _ _ _ ihp ihq => exact or_congr (ihp hr hfits.1 ρ) (ihq hr hfits.2 ρ)
  | @all S z body hnew _ ih =>
    have hne : z ≠ x := fun heq => hnew (heq ▸ hr.mem)
    rw [Formula.varSubst, folVarSubst_fvr hne]
    refine forall_congr' fun d => ?_
    exact (ih (hr.insert z) hfits _).trans (iff_of_eq (congrArg (M.Holds · body) (hbind ρ d hr hnew)))
  | @ex S z body hnew _ _ ih =>
    have hne : z ≠ x := fun heq => hnew (heq ▸ hr.mem)
    rw [Formula.varSubst, folVarSubst_fvr hne]
    refine exists_congr fun d => ?_
    exact (ih (hr.insert z) hfits _).trans (iff_of_eq (congrArg (M.Holds · body) (hbind ρ d hr hnew)))

theorem counts_varSubst (x : ℕ) (r : FTerm) (f : Formula) :
    (f.varSubst x r).univDepth = f.univDepth ∧ (f.varSubst x r).exCount = f.exCount ∧
      (f.varSubst x r).longest = f.longest := by
  induction f with
  | atom t => exact ⟨rfl, rfl, rfl⟩
  | not p ih => exact ⟨ih.1, ih.2.1, rfl⟩
  | and p q ihp ihq | or p q ihp ihq | imp p q ihp ihq | iff p q ihp ihq =>
    simp only [Formula.varSubst, Formula.univDepth, Formula.exCount, Formula.longest, ihp, ihq,
      and_self]
  | all var body ih | ex var body ih =>
    simp only [Formula.varSubst, Formula.univDepth, Formula.exCount, Formula.longest, ih, and_self]

theorem every_inst {P : ℕ → Prop} (h : t.Every fun label _ => P label)
    (hr : r.Every fun label _ => P label) :
    (t.inst (single x r)).Every fun label _ => P label := by
  refine h.subst fun l _ => ?_
  cases l with
  | fvr id =>
    rw [onLeaves, single]
    split
    · exact hr
    · exact .leaf _
  | num dtype value => exact .leaf _

theorem everyLabel_varSubst {P : ℕ → Prop} (h : f.EveryLabel P) (hfits : FitsIn x f)
    (hr : r.Every fun label _ => P label) : (f.varSubst x r).EveryLabel P := by
  induction f with
  | atom t =>
    show TermTree.Every _ (folVarSubst x r t)
    rw [folVarSubst_eq hfits]
    exact every_inst h hr
  | not p ih => exact ih h hfits
  | and p q ihp ihq | or p q ihp ihq | imp p q ihp ihq | iff p q ihp ihq =>
    exact ⟨ihp h.1 hfits.1, ihq h.2 hfits.2⟩
  | all var body ih | ex var body ih => exact ih h hfits

/-! ## Skolemisation -/

/-- The scope of a list of universal variables. -/
def scopeOf (ids : List ℕ) : Set ℕ := { id | id ∈ ids }

theorem scopeOf_snoc (ids : List ℕ) (x : ℕ) : scopeOf (ids ++ [x]) = insert x (scopeOf ids) := by
  refine Set.ext fun id => ?_
  show id ∈ ids ++ [x] ↔ id = x ∨ id ∈ ids
  rw [List.mem_append, List.mem_singleton, or_comm]

/-- The Skolem term of a quantifier. -/
def skolemTerm (ids : List ℕ) (next : ℕ) : FTerm :=
  termNewCtr (folLabSkolemBase + next) (ids.map FTerm.fvr)

theorem skolemTerm_eq (ids : List ℕ) {next : ℕ} (h : next < 0x20000) :
    skolemTerm ids next = .ctr (folLabSkolemBase + next) (ids.map FTerm.fvr) := by
  have hmod : (folLabSkolemBase + next) % 2 ^ 18 = folLabSkolemBase + next := by
    unfold folLabSkolemBase
    omega
  rw [skolemTerm, termNewCtr, hmod]

theorem mem_leaves_skolemTerm {ids : List ℕ} {next id : ℕ}
    (h : Leaf.fvr id ∈ (skolemTerm ids next).leaves) : id ∈ scopeOf ids := by
  obtain ⟨a, ha, hid⟩ := TermTree.mem_leaves_node.mp h
  obtain ⟨y, hy, rfl⟩ := List.mem_map.mp ha
  obtain rfl : id = y := Leaf.fvr.inj (List.mem_singleton.mp hid)
  exact hy

theorem replaces_skolemTerm (ids : List ℕ) (next : ℕ) :
    Replaces (insert x (scopeOf ids)) (scopeOf ids ) x (skolemTerm ids next) where
  mem := Set.mem_insert x _
  sub := Set.subset_insert x _
  rest _ hid := hid
  term _ hid := mem_leaves_skolemTerm hid

def AgreeOn (S : Set ℕ) (ρ σ : ℕ → D) : Prop := ∀ id ∈ S, σ id = ρ id

theorem AgreeOn.update (h : AgreeOn S ρ σ) : AgreeOn (insert x S) (Function.update ρ x (σ x)) σ := by
  intro id hid
  by_cases heq : id = x
  · rw [heq, Function.update_self]
  · rw [Function.update_of_ne heq]
    exact h id (hid.resolve_left heq)

/-- Where the matrix holds for all values of the other variables, the formula holds. -/
def Sound (S : Set ℕ) (f m : Formula) : Prop :=
  ∀ (D : Type) (M : Model D) (ρ : ℕ → D), (∀ σ, AgreeOn S ρ σ → M.Holds σ m) → M.Holds ρ f

/-- A model changed at the Skolem functions with counters in a range. -/
structure ChangedIn (lo hi : ℕ) (M M' : Model D) : Prop where
  pred : M'.pred = M.pred
  num : M'.num = M.num
  func : ∀ label ds, ¬(folLabSkolemBase + lo ≤ label ∧ label < folLabSkolemBase + hi) →
    M'.func label ds = M.func label ds

theorem ChangedIn.refl (lo hi : ℕ) (M : Model D) : ChangedIn lo hi M M :=
  ⟨rfl, rfl, fun _ _ _ => rfl⟩

theorem ChangedIn.trans {lo mid hi : ℕ} {M'' : Model D} (h : ChangedIn lo mid M M')
    (h' : ChangedIn mid hi M' M'') (hle : lo ≤ mid) (hle' : mid ≤ hi) : ChangedIn lo hi M M'' where
  pred := h'.pred.trans h.pred
  num := h'.num.trans h.num
  func label ds hno := by
    rw [h'.func label ds (by omega), h.func label ds (by omega)]

theorem ChangedIn.holds {lo hi : ℕ} (h : ChangedIn lo hi M M')
    (hlabels : f.EveryLabel (· < folLabSkolemBase + lo)) : M'.Holds ρ f ↔ M.Holds ρ f :=
  Model.holds_func h.pred h.num (fun label ds hlt => h.func label ds fun hin =>
    absurd hlt (Nat.not_lt.mpr hin.1)) hlabels

/-- Skolem functions can be chosen such that the matrix holds where the formula does. -/
def Complete (S : Set ℕ) (f m : Formula) (lo hi : ℕ) : Prop :=
  ∀ (D : Type) (M : Model D), ∃ M', ChangedIn lo hi M M' ∧
    ∀ ρ σ, AgreeOn S ρ σ → M.Holds ρ f → M'.Holds σ m

/-- What Skolemisation of a formula in a scope returns. -/
structure Skolemised (S : Set ℕ) (next : ℕ) (f m : Formula) (next' : ℕ) : Prop where
  next_eq : next' = next + f.exCount
  matrix : m.IsMatrix
  occurs : ∀ id, m.Occurs id → id ∈ S ∨ id ∈ f.univIds
  labels : m.EveryLabel (· < folLabSkolemBase + next')
  longest : m.longest = f.longest
  sound : Sound S f m
  complete : Complete S f m next next'

section Cases

variable {mp mq m : Formula} {next next₁ next₂ : ℕ}

theorem occurs_and {id : ℕ} : (Formula.and p q).Occurs id ↔ p.Occurs id ∨ q.Occurs id := by
  simp [Formula.Occurs, Formula.toTerm]

theorem occurs_or {id : ℕ} : (Formula.or p q).Occurs id ↔ p.Occurs id ∨ q.Occurs id := by
  simp [Formula.Occurs, Formula.toTerm]

theorem skolemised_literal (h : f = .atom t ∨ f = .not (.atom t)) (ht : AtomIn S t)
    (hlabels : f.EveryLabel (· < folLabSkolemBase + next)) : Skolemised S next f f next := by
  have hoccurs : ∀ id, f.Occurs id → id ∈ S := by
    rcases h with rfl | rfl
    · exact fun id hid => ht.mem hid
    · intro id hid
      obtain ⟨a, ha, hid⟩ := TermTree.mem_leaves_node.mp hid
      rw [List.mem_singleton.mp ha] at hid
      exact ht.mem hid
  have hmatrix : f.IsMatrix := by
    rcases h with rfl | rfl
    · exact .atom t
    · exact .not t
  have hcount : f.exCount = 0 := by rcases h with rfl | rfl <;> rfl
  refine ⟨by rw [hcount, Nat.add_zero], hmatrix, fun id hid => .inl (hoccurs id hid), hlabels, rfl,
    fun D M ρ h => h ρ fun _ _ => rfl, fun D M => ⟨M, .refl _ _ M, fun ρ σ hagree hρ => ?_⟩⟩
  exact (Model.holds_congr hmatrix fun id hid => hagree id (hoccurs id hid)).mpr hρ

/-- The parts of a conjunction or disjunction are Skolemised one after the other. -/
theorem complete_parts (hp : Skolemised S next p mp next₁) (hq : Skolemised S next₁ q mq next₂)
    (hlabels : q.EveryLabel (· < folLabSkolemBase + next)) (M : Model D) :
    ∃ M', ChangedIn next next₂ M M' ∧ (∀ ρ σ, AgreeOn S ρ σ → M.Holds ρ p → M'.Holds σ mp) ∧
      ∀ ρ σ, AgreeOn S ρ σ → M.Holds ρ q → M'.Holds σ mq := by
  obtain ⟨M₁, hchanged₁, hp'⟩ := hp.complete D M
  obtain ⟨M₂, hchanged₂, hq'⟩ := hq.complete D M₁
  have hle := hp.next_eq
  have hle' := hq.next_eq
  refine ⟨M₂, hchanged₁.trans hchanged₂ (by omega) (by omega), fun ρ σ hagree hρ => ?_,
    fun ρ σ hagree hρ => ?_⟩
  · exact (hchanged₂.holds hp.labels).mpr (hp' ρ σ hagree hρ)
  · exact hq' ρ σ hagree ((hchanged₁.holds hlabels).mpr hρ)

theorem skolemised_and (hp : Skolemised S next p mp next₁) (hq : Skolemised S next₁ q mq next₂)
    (hlabels : q.EveryLabel (· < folLabSkolemBase + next)) :
    Skolemised S next (.and p q) (.and mp mq) next₂ where
  next_eq := by rw [hq.next_eq, hp.next_eq, Nat.add_assoc]; rfl
  matrix := .and hp.matrix hq.matrix
  occurs id hid := by
    rw [Formula.univIds, List.mem_append]
    exact (occurs_and.mp hid).elim (fun h => (hp.occurs id h).imp_right .inl)
      fun h => (hq.occurs id h).imp_right .inr
  labels := by
    have hle := hq.next_eq
    exact ⟨everyLabel_mono (fun label hlt => by omega) hp.labels, hq.labels⟩
  longest := congrArg₂ max hp.longest hq.longest
  sound D M ρ h := ⟨hp.sound D M ρ fun σ hσ => (h σ hσ).1, hq.sound D M ρ fun σ hσ => (h σ hσ).2⟩
  complete D M := by
    obtain ⟨M', hchanged, hp', hq'⟩ := complete_parts hp hq hlabels M
    exact ⟨M', hchanged, fun ρ σ hagree h => ⟨hp' ρ σ hagree h.1, hq' ρ σ hagree h.2⟩⟩

/-- Values that refute the two sides are put together when the sides bind different variables. -/
theorem skolemised_or (hp : Skolemised S next p mp next₁) (hq : Skolemised S next₁ q mq next₂)
    (hlabels : q.EveryLabel (· < folLabSkolemBase + next)) (hscope : ∀ id ∈ p.univIds, id ∉ S)
    (hdisjoint : ∀ id ∈ p.univIds, id ∉ q.univIds) :
    Skolemised S next (.or p q) (.or mp mq) next₂ where
  next_eq := by rw [hq.next_eq, hp.next_eq, Nat.add_assoc]; rfl
  matrix := .or hp.matrix hq.matrix
  occurs id hid := by
    rw [Formula.univIds, List.mem_append]
    exact (occurs_or.mp hid).elim (fun h => (hp.occurs id h).imp_right .inl)
      fun h => (hq.occurs id h).imp_right .inr
  labels := by
    have hle := hq.next_eq
    exact ⟨everyLabel_mono (fun label hlt => by omega) hp.labels, hq.labels⟩
  longest := congrArg₂ (· + ·) hp.longest hq.longest
  sound D M ρ h := by
    by_contra hnot
    obtain ⟨hnotp, hnotq⟩ := not_or.mp hnot
    have hrefute : ∀ {g mg : Formula}, Sound S g mg → ¬M.Holds ρ g →
        ∃ σ, AgreeOn S ρ σ ∧ ¬M.Holds σ mg := by
      intro g mg hsound hg
      by_contra hno
      push Not at hno
      exact hg (hsound D M ρ hno)
    obtain ⟨σ₁, hagree₁, hσ₁⟩ := hrefute hp.sound hnotp
    obtain ⟨σ₂, hagree₂, hσ₂⟩ := hrefute hq.sound hnotq
    have hsame₁ : M.Holds (fun id => if id ∈ p.univIds then σ₁ id else σ₂ id) mp ↔ M.Holds σ₁ mp := by
      refine Model.holds_congr hp.matrix fun id hid => ?_
      split
      · rfl
      · next hout =>
        have hS := (hp.occurs id hid).resolve_right hout
        rw [hagree₁ id hS, hagree₂ id hS]
    have hsame₂ : M.Holds (fun id => if id ∈ p.univIds then σ₁ id else σ₂ id) mq ↔ M.Holds σ₂ mq := by
      refine Model.holds_congr hq.matrix fun id hid => if_neg fun hin => ?_
      exact (hq.occurs id hid).elim (hscope id hin) (hdisjoint id hin)
    refine (h _ fun id hid => ?_).elim (fun h => hσ₁ (hsame₁.mp h)) fun h => hσ₂ (hsame₂.mp h)
    rw [if_neg fun hin => hscope id hin hid]
    exact hagree₂ id hid
  complete D M := by
    obtain ⟨M', hchanged, hp', hq'⟩ := complete_parts hp hq hlabels M
    exact ⟨M', hchanged, fun ρ σ hagree h => h.imp (hp' ρ σ hagree) (hq' ρ σ hagree)⟩

/-- The quantifier is dropped. -/
theorem skolemised_all (h : Skolemised (insert x S) next body m next₁) (hnew : x ∉ S) :
    Skolemised S next (.all (.fvr x) body) m next₁ where
  next_eq := h.next_eq
  matrix := h.matrix
  occurs id hid := by
    rw [Formula.univIds, List.mem_cons]
    rcases h.occurs id hid with (rfl | hS) | hU
    · exact .inr (.inl rfl)
    · exact .inl hS
    · exact .inr (.inr hU)
  labels := h.labels
  longest := h.longest
  sound D M ρ hall d := by
    refine h.sound D M _ fun σ hσ => hall σ fun id hid => ?_
    have hne : id ≠ x := fun heq => hnew (heq ▸ hid)
    rw [hσ id (Set.mem_insert_of_mem x hid)]
    exact Function.update_of_ne hne d ρ
  complete D M := by
    obtain ⟨M', hchanged, hbody⟩ := h.complete D M
    exact ⟨M', hchanged, fun ρ σ hagree hall => hbody _ σ hagree.update (hall (σ x))⟩

/-- The model with a Skolem function that picks a witness for every value of the scope. -/
noncomputable def withSkolem (M : Model D) (ids : List ℕ) (next x : ℕ) (body : Formula) : Model D where
  pred := M.pred
  num := M.num
  func label ds :=
    if label = folLabSkolemBase + next then
      @Classical.epsilon D ⟨M.func 0 []⟩ fun d =>
        ∃ ρ, ds = ids.map ρ ∧ M.Holds (Function.update ρ x d) body
    else M.func label ds

theorem changedIn_withSkolem (M : Model D) (ids : List ℕ) (next x : ℕ) (body : Formula) :
    ChangedIn next (next + 1) M (withSkolem M ids next x body) where
  pred := rfl
  num := rfl
  func label ds hno := if_neg fun heq => hno (by omega)

/-- The Skolem term has a witness as its value. -/
theorem holds_withSkolem {ids : List ℕ} (hbody : Scoped (insert x (scopeOf ids)) body)
    (hnext : next < 0x20000) (hlabels : body.EveryLabel (· < folLabSkolemBase + next))
    (h : M.Holds ρ (.ex (.fvr x) body)) :
    (withSkolem M ids next x body).Holds (Function.update ρ x
      ((withSkolem M ids next x body).value ρ (skolemTerm ids next))) body := by
  have hpick : ∃ d ρ', ids.map ρ = ids.map ρ' ∧ M.Holds (Function.update ρ' x d) body := by
    obtain ⟨d, hd⟩ := h
    exact ⟨d, ρ, rfl, hd⟩
  have hvalue : (withSkolem M ids next x body).value ρ (skolemTerm ids next) =
      @Classical.epsilon D ⟨M.func 0 []⟩ fun d =>
        ∃ ρ', ids.map ρ = ids.map ρ' ∧ M.Holds (Function.update ρ' x d) body := by
    rw [skolemTerm_eq ids hnext, Model.value_ctr, List.map_map]
    exact if_pos rfl
  rw [(changedIn_withSkolem M ids next x body).holds hlabels, hvalue]
  obtain ⟨ρ', hsame, hholds⟩ := @Classical.epsilon_spec_aux D ⟨M.func 0 []⟩ _ hpick
  refine (hbody.holds_congr fun id hid => ?_).mpr hholds
  by_cases heq : id = x
  · rw [heq, Function.update_self, Function.update_self]
  · rw [Function.update_of_ne heq, Function.update_of_ne heq]
    exact List.map_inj_left.mp hsame id (hid.resolve_left heq)

/-- A witness is named by the Skolem term. -/
theorem skolemised_ex {ids : List ℕ} (hbody : Scoped (insert x (scopeOf ids)) body)
    (hfits : FitsIn x body) (hnext : next < 0x20000)
    (hlabels : body.EveryLabel (· < folLabSkolemBase + next))
    (h : Skolemised (scopeOf ids) (next + 1) (body.varSubst x (skolemTerm ids next)) m next₁) :
    Skolemised (scopeOf ids) next (.ex (.fvr x) body) m next₁ where
  next_eq := by
    rw [h.next_eq, (counts_varSubst x _ body).2.1, Formula.exCount]
    omega
  matrix := h.matrix
  occurs id hid := by
    have := h.occurs id hid
    rwa [(hbody.varSubst (replaces_skolemTerm ids next) hfits).2] at this
  labels := h.labels
  longest := h.longest.trans (counts_varSubst x _ body).2.2
  sound D M ρ hall :=
    ⟨_, (hbody.holds_varSubst (replaces_skolemTerm ids next) hfits ρ).mp (h.sound D M ρ hall)⟩
  complete D M := by
    obtain ⟨M', hchanged, hm⟩ := h.complete D (withSkolem M ids next x body)
    have hle := h.next_eq
    refine ⟨M', (changedIn_withSkolem M ids next x body).trans hchanged (by omega) (by omega),
      fun ρ σ hagree hex => hm ρ σ hagree ?_⟩
    exact (hbody.holds_varSubst (replaces_skolemTerm ids next) hfits ρ).mpr
      (holds_withSkolem hbody hnext hlabels hex)

end Cases

theorem every_skolemTerm (ids : List ℕ) {next : ℕ} (h : next < 0x20000) :
    (skolemTerm ids next).Every fun label _ => label < folLabSkolemBase + (next + 1) := by
  rw [skolemTerm_eq ids h]
  refine .node (by omega) fun a ha => ?_
  obtain ⟨id, -, rfl⟩ := List.mem_map.mp ha
  exact .leaf _

/-- Skolemisation of a formula in the scope of universal quantifiers. -/
theorem folSkolemRec_spec (ids : List ℕ) (next : ℕ) (hscoped : Scoped (scopeOf ids) f)
    (hdepth : ids.length + f.univDepth ≤ 256) (hcount : next + f.exCount ≤ 0x20000)
    (hlabels : f.EveryLabel (· < folLabSkolemBase + next)) :
    Skolemised (scopeOf ids) next f (folSkolemRec f (ids.map FTerm.fvr) next).1
      (folSkolemRec f (ids.map FTerm.fvr) next).2 := by
  induction hsize : f.size using Nat.strong_induction_on generalizing f ids next with
  | _ size ih =>
    subst hsize
    cases hscoped with
    | @atom _ t h =>
      rw [folSkolemRec_matrix (.atom t)]
      exact skolemised_literal (.inl rfl) h hlabels
    | @not _ t h =>
      rw [folSkolemRec_matrix (.not t)]
      exact skolemised_literal (.inr rfl) h hlabels
    | @and _ p q hp hq =>
      rw [Formula.univDepth] at hdepth
      rw [Formula.exCount] at hcount
      have hp' := ih p.size (by rw [Formula.size]; omega) ids next hp (by omega) (by omega)
        hlabels.1 rfl
      have hle := hp'.next_eq
      have hq' := ih q.size (by rw [Formula.size]; omega) ids
        (folSkolemRec p (ids.map FTerm.fvr) next).2 hq (by omega) (by omega)
        (everyLabel_mono (fun label hlt => by omega) hlabels.2) rfl
      rw [folSkolemRec]
      exact skolemised_and hp' hq' hlabels.2
    | @or _ p q hp hq hdisjoint =>
      rw [Formula.univDepth] at hdepth
      rw [Formula.exCount] at hcount
      have hp' := ih p.size (by rw [Formula.size]; omega) ids next hp (by omega) (by omega)
        hlabels.1 rfl
      have hle := hp'.next_eq
      have hq' := ih q.size (by rw [Formula.size]; omega) ids
        (folSkolemRec p (ids.map FTerm.fvr) next).2 hq (by omega) (by omega)
        (everyLabel_mono (fun label hlt => by omega) hlabels.2) rfl
      rw [folSkolemRec]
      exact skolemised_or hp' hq' hlabels.2 hp.univIds_notMem hdisjoint
    | @all _ x body hnew hbody =>
      rw [Formula.univDepth] at hdepth
      have hcap : ¬(ids.map FTerm.fvr).length ≥ folSkolemMaxUniv := by
        rw [List.length_map]
        unfold folSkolemMaxUniv
        omega
      have hsnoc : ids.map FTerm.fvr ++ [FTerm.fvr x] = (ids ++ [x]).map FTerm.fvr := by
        rw [List.map_append, List.map_singleton]
      rw [folSkolemRec, if_neg hcap, hsnoc]
      rw [← scopeOf_snoc] at hbody
      have hbody' := ih body.size (by rw [Formula.size]; omega) (ids ++ [x]) next hbody
        (by rw [List.length_append, List.length_singleton]; omega) hcount hlabels rfl
      rw [scopeOf_snoc] at hbody'
      exact skolemised_all hbody' hnew
    | @ex _ x body hnew hfits hbody =>
      rw [Formula.exCount] at hcount
      have hnext : next < 0x20000 := by omega
      obtain ⟨hcountdepth, hcountex, -⟩ := counts_varSubst x (skolemTerm ids next) body
      obtain ⟨hscoped, -⟩ := hbody.varSubst (replaces_skolemTerm ids next) hfits
      have hbody' := ih (body.varSubst x (skolemTerm ids next)).size
        (by rw [Formula.size_varSubst, Formula.size]; omega) ids (next + 1) hscoped
        (by rw [hcountdepth]; exact hdepth) (by rw [hcountex]; omega)
        (everyLabel_varSubst (everyLabel_mono (fun label hlt => by omega) hlabels) hfits
          (every_skolemTerm ids hnext)) rfl
      rw [folSkolemRec]
      exact skolemised_ex hbody hfits hnext hlabels hbody'

/-! ## The whole way -/

/-- What keeps the clausifier right: the formula is closed, its variables are not bound again
and not on both sides of a disjunction, and the limits are kept. -/
structure Clean (f : Formula) : Prop where
  inScope : Scoped ∅ (folNnf f)
  depth : (folNnf f).univDepth ≤ folSkolemMaxUniv
  count : (folNnf f).exCount ≤ 0x20000
  labels : f.EveryLabel (· < folLabSkolemBase)
  short : (folNnf f).longest ≤ folMaxLits

def SatisfiableFormula (f : Formula) : Prop :=
  ∃ (D : Type) (M : Model D), ∀ ρ, M.Holds ρ f

theorem skolemised_folNnf (h : Clean f) :
    Skolemised ∅ 0 (folNnf f) (folSkolemize (folNnf f)) (folSkolemRec (folNnf f) [] 0).2 := by
  have hempty : scopeOf [] = ∅ := Set.ext fun id => ⟨fun h => (nomatch h), fun h => (nomatch h)⟩
  have hspec := @folSkolemRec_spec (folNnf f) [] 0 (hempty ▸ h.inScope)
    ((Nat.zero_add _).trans_le h.depth) ((Nat.zero_add _).trans_le h.count)
    (everyLabel_folNnfRec h.labels false)
  rw [hempty] at hspec
  exact hspec

/-- `∀ x, ∃ y, P(x, y)`. -/
def everySome : Formula := .all (.fvr 0) (.ex (.fvr 1) (.atom (.ctr 1 [.fvr 0, .fvr 1])))

theorem clean_everySome : Clean everySome where
  inScope := by
    refine .all (Set.notMem_empty 0) (.ex ?_ ?_ (.atom (.ctr ?_)))
    · rintro (h | h)
      · exact absurd h (by decide)
      · exact h
    · exact .node (fun _ => by decide) fun a ha => by
        rcases List.mem_pair.mp ha with rfl | rfl <;> exact .leaf _
    · intro id hid
      obtain ⟨a, ha, hid⟩ := TermTree.mem_leaves_node.mp hid
      rcases List.mem_pair.mp ha with rfl | rfl
      · obtain rfl := Leaf.fvr.inj (List.mem_singleton.mp hid)
        exact .inr (.inl rfl)
      · obtain rfl := Leaf.fvr.inj (List.mem_singleton.mp hid)
        exact .inl rfl
  depth := by decide
  count := by decide
  labels := .node (by decide) fun a ha => by
    rcases List.mem_pair.mp ha with rfl | rfl <;> exact .leaf _
  short := by decide

/-- `(∀ x, P(x)) ∨ (∀ x, Q(x))`, but `P` does not hold of one constant and `Q` not of another. -/
def sharedVariable : Formula :=
  .and (.or (.all (.fvr 0) (.atom (.ctr 1 [.fvr 0]))) (.all (.fvr 0) (.atom (.ctr 2 [.fvr 0]))))
    (.and (.not (.atom (.ctr 1 [.ctr 3 []]))) (.not (.atom (.ctr 2 [.ctr 4 []]))))

def sharedMatrix : Formula :=
  .and (.or (.atom (.ctr 1 [.fvr 0])) (.atom (.ctr 2 [.fvr 0])))
    (.and (.not (.atom (.ctr 1 [.ctr 3 []]))) (.not (.atom (.ctr 2 [.ctr 4 []]))))

theorem isMatrix_sharedMatrix : sharedMatrix.IsMatrix :=
  .and (.or (.atom _) (.atom _)) (.and (.not _) (.not _))

theorem matrix_sharedVariable : folSkolemize (folNnf sharedVariable) = sharedMatrix := by
  have hnnf : folNnf sharedVariable = sharedVariable := rfl
  have hall : ∀ label next, folSkolemRec (.all (.fvr 0) (.atom (.ctr label [.fvr 0]))) [] next =
      (.atom (.ctr label [.fvr 0]), next) := by
    intro label next
    rw [folSkolemRec, if_neg (by decide), folSkolemRec_matrix (.atom _)]
  rw [folSkolemize, hnnf, sharedVariable, folSkolemRec, folSkolemRec, hall]
  dsimp only
  rw [hall]
  dsimp only
  rw [folSkolemRec_matrix (.and (.not _) (.not _))]
  rfl

/-- An instance of a universal predicate. -/
theorem holds_instance {label c : ℕ} (h : ∀ d, M.Holds (Model.bind ρ (.fvr 0) d)
    (.atom (.ctr label [.fvr 0]))) : M.HoldsAtom ρ (.ctr label [.ctr c []]) := by
  have hinst := h (M.func c [])
  have hvalue : M.value (Model.bind ρ (.fvr 0) (M.func c [])) (.fvr 0) = M.value ρ (.ctr c []) := by
    rw [Model.value_fvr, Model.value_ctr, List.map_nil]
    exact Function.update_self 0 _ ρ
  rw [Model.Holds, Model.HoldsAtom, List.map_singleton, hvalue] at hinst
  exact hinst

end Thvm.Fol
