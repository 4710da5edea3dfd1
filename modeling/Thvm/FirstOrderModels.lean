import Mathlib.Logic.Function.Basic
import Thvm.Clausification
import Thvm.TermTrees

/-!
# Values of terms

A meaning of the labels as functions and of the leaves as values gives every tree a
value. The value depends on what occurs in the tree only, and a substitution can be
moved into the meaning of the leaves.
-/

namespace Thvm.TermTree

variable {L L' F D : Type} {φ φ' : F → List D → D} {ν ν' : L → D}

mutual

def eval (φ : F → List D → D) (ν : L → D) : TermTree L F → D
  | .leaf l => ν l
  | .node f args => φ f (evalList φ ν args)

def evalList (φ : F → List D → D) (ν : L → D) : List (TermTree L F) → List D
  | [] => []
  | a :: as => eval φ ν a :: evalList φ ν as

end

@[simp] theorem evalList_eq (φ : F → List D → D) (ν : L → D) (as : List (TermTree L F)) :
    evalList φ ν as = as.map (eval φ ν) := by
  induction as with
  | nil => rfl
  | cons a as ih => rw [evalList, ih, List.map_cons]

@[simp] theorem eval_leaf (φ : F → List D → D) (ν : L → D) (l : L) :
    (leaf l : TermTree L F).eval φ ν = ν l := rfl

@[simp] theorem eval_node (φ : F → List D → D) (ν : L → D) (f : F) (args : List (TermTree L F)) :
    (node f args).eval φ ν = φ f (args.map (eval φ ν)) := by
  rw [eval, evalList_eq]

/-- Substitution lemma. -/
theorem eval_subst (φ : F → List D → D) (ν : L' → D) (θ : L → TermTree L' F) (t : TermTree L F) :
    (t.subst θ).eval φ ν = t.eval φ fun l => (θ l).eval φ ν := by
  induction t with
  | leaf l => rfl
  | node f args ih =>
    rw [subst_node, eval_node, eval_node, List.map_map]
    exact congrArg _ (List.map_congr_left ih)

/-- Coincidence lemma. -/
theorem eval_congr {P : F → ℕ → Prop} {t : TermTree L F} (ht : Every P t)
    (hφ : ∀ f args, P f args.length → φ f args = φ' f args) (hν : ∀ l ∈ t.leaves, ν l = ν' l) :
    t.eval φ ν = t.eval φ' ν' := by
  induction ht with
  | leaf l => exact hν l (List.mem_singleton_self l)
  | @node f args hnode _ ih =>
    have hargs : args.map (eval φ ν) = args.map (eval φ' ν') :=
      List.map_congr_left fun a ha => ih a ha fun l hl => hν l (mem_leaves_node.mpr ⟨a, ha, hl⟩)
    rw [eval_node, eval_node, hargs]
    exact hφ f _ (by rwa [List.length_map])

theorem every_true (t : TermTree L F) : Every (fun _ _ => True) t := by
  induction t with
  | leaf l => exact .leaf l
  | node f args ih => exact .node trivial ih

theorem eval_congr_leaves {t : TermTree L F} (hν : ∀ l ∈ t.leaves, ν l = ν' l) :
    t.eval φ ν = t.eval φ ν' :=
  eval_congr (every_true t) (fun _ _ _ => rfl) hν

end Thvm.TermTree

/-!
## Models of formulas and clauses

A model gives a meaning to all labels; the label `FOL_LAB_EQ` with two arguments is
equality. Clauses hold for all values of their variables.
-/

namespace Thvm.Fol

/-- The domain is not empty, it has the values of the terms. -/
structure Model (D : Type) where
  func : ℕ → List D → D
  pred : ℕ → List D → Prop
  num : ℕ → ℕ → D

namespace Model

variable {D : Type} {M M' : Model D} {ρ ρ' : ℕ → D} {t : FTerm} {f : Formula}

def leafValue (M : Model D) (ρ : ℕ → D) : Leaf → D
  | .fvr id => ρ id
  | .num dtype value => M.num dtype value

def value (M : Model D) (ρ : ℕ → D) (t : FTerm) : D := t.eval M.func (M.leafValue ρ)

def rel (M : Model D) : ℕ → List D → Prop
  | 0, [a, b] => a = b
  | label, ds => M.pred label ds

def HoldsAtom (M : Model D) (ρ : ℕ → D) : FTerm → Prop
  | .leaf _ => False
  | .node label args => M.rel label (args.map (M.value ρ))

/-- The valuation with another value for the variable of a quantifier. -/
def bind (ρ : ℕ → D) (var : FTerm) (d : D) : ℕ → D :=
  match var with
  | .leaf (.fvr id) => Function.update ρ id d
  | _ => ρ

def Holds (M : Model D) (ρ : ℕ → D) : Formula → Prop
  | .atom t => M.HoldsAtom ρ t
  | .not p => ¬M.Holds ρ p
  | .and p q => M.Holds ρ p ∧ M.Holds ρ q
  | .or p q => M.Holds ρ p ∨ M.Holds ρ q
  | .imp p q => M.Holds ρ p → M.Holds ρ q
  | .iff p q => M.Holds ρ p ↔ M.Holds ρ q
  | .all var body => ∀ d, M.Holds (bind ρ var d) body
  | .ex var body => ∃ d, M.Holds (bind ρ var d) body

def HoldsLit (M : Model D) (ρ : ℕ → D) (l : FolLit) : Prop :=
  if l.sign then ¬M.HoldsAtom ρ l.atom else M.HoldsAtom ρ l.atom

def HoldsClause (M : Model D) (ρ : ℕ → D) (c : FolClause) : Prop := ∃ l ∈ c, M.HoldsLit ρ l

def HoldsClauses (M : Model D) (ρ : ℕ → D) (cs : List FolClause) : Prop :=
  ∀ c ∈ cs, M.HoldsClause ρ c

end Model

/-- Some model makes the clauses true for all values of their variables. -/
def Satisfiable (cs : List FolClause) : Prop :=
  ∃ (D : Type) (M : Model D), ∀ ρ, M.HoldsClauses ρ cs

namespace Model

variable {D : Type} {M M' : Model D} {ρ ρ' : ℕ → D} {t : FTerm} {l : FolLit} {c : FolClause}
  {cs : List FolClause}

@[simp] theorem value_fvr (id : ℕ) : M.value ρ (.fvr id) = ρ id := rfl

@[simp] theorem value_num (dtype value : ℕ) : M.value ρ (.num dtype value) = M.num dtype value := rfl

@[simp] theorem value_ctr (label : ℕ) (args : List FTerm) :
    M.value ρ (.ctr label args) = M.func label (args.map (M.value ρ)) :=
  TermTree.eval_node _ _ _ _

@[simp] theorem holdsLit_pos : M.HoldsLit ρ ⟨t, false⟩ ↔ M.HoldsAtom ρ t := Iff.rfl

@[simp] theorem holdsLit_neg : M.HoldsLit ρ ⟨t, true⟩ ↔ ¬M.HoldsAtom ρ t := Iff.rfl

@[simp] theorem holdsLit_not : M.HoldsLit ρ l.neg ↔ ¬M.HoldsLit ρ l := by
  obtain ⟨t, sign⟩ := l
  cases sign with
  | true => exact not_not.symm
  | false => exact Iff.rfl

@[simp] theorem holdsClause_nil : ¬M.HoldsClause ρ [] := fun ⟨_, hl, _⟩ => nomatch hl

@[simp] theorem holdsClause_cons :
    M.HoldsClause ρ (l :: c) ↔ M.HoldsLit ρ l ∨ M.HoldsClause ρ c := List.exists_mem_cons_iff _ _ _

@[simp] theorem holdsClause_append {c' : FolClause} :
    M.HoldsClause ρ (c ++ c') ↔ M.HoldsClause ρ c ∨ M.HoldsClause ρ c' := by
  unfold HoldsClause
  simp only [List.mem_append, or_and_right, exists_or]

@[simp] theorem holdsClauses_nil : M.HoldsClauses ρ [] := fun _ hc => nomatch hc

@[simp] theorem holdsClauses_append {cs' : List FolClause} :
    M.HoldsClauses ρ (cs ++ cs') ↔ M.HoldsClauses ρ cs ∧ M.HoldsClauses ρ cs' := by
  unfold HoldsClauses
  simp only [List.mem_append, or_imp, forall_and]

@[simp] theorem holdsClauses_singleton : M.HoldsClauses ρ [c] ↔ M.HoldsClause ρ c :=
  List.forall_mem_singleton

/-- Substitution lemma. -/
theorem value_inst (M : Model D) (ρ : ℕ → D) (θ : ℕ → FTerm) (t : FTerm) :
    M.value ρ (t.inst θ) = M.value (fun id => M.value ρ (θ id)) t := by
  rw [value, FTerm.inst, TermTree.eval_subst, value]
  congr 1
  funext l
  cases l <;> rfl

theorem rel_of_ne {label : ℕ} (h : label ≠ labEq) (ds : List D) :
    M.rel label ds = M.pred label ds := by
  unfold rel
  split
  · exact absurd rfl h
  · rfl

end Model

/-! ## Symbols and variables -/

namespace Formula

/-- All labels of the atoms satisfy a condition. -/
def EveryLabel (P : ℕ → Prop) : Formula → Prop
  | .atom t => t.Every fun label _ => P label
  | .not p => p.EveryLabel P
  | .and p q | .or p q | .imp p q | .iff p q => p.EveryLabel P ∧ q.EveryLabel P
  | .all _ body | .ex _ body => body.EveryLabel P

/-- A variable that occurs, at a quantifier or elsewhere. -/
def Occurs (id : ℕ) (f : Formula) : Prop := Leaf.fvr id ∈ f.toTerm.leaves

/-- No quantifier, and negations at atoms only. -/
inductive IsMatrix : Formula → Prop
  | atom (t : FTerm) : IsMatrix (.atom t)
  | not (t : FTerm) : IsMatrix (.not (.atom t))
  | and {p q : Formula} (hp : IsMatrix p) (hq : IsMatrix q) : IsMatrix (.and p q)
  | or {p q : Formula} (hp : IsMatrix p) (hq : IsMatrix q) : IsMatrix (.or p q)

end Formula

/-- Skolemisation has nothing to do in a matrix. -/
theorem folSkolemRec_matrix {f : Formula} (hf : f.IsMatrix) (univ : List FTerm) (next : ℕ) :
    folSkolemRec f univ next = (f, next) := by
  induction hf with
  | atom t => rw [folSkolemRec] <;> simp
  | not t =>
    rw [folSkolemRec, folSkolemRec] <;> simp
  | and _ _ ihp ihq =>
    rw [folSkolemRec, ihp]
    dsimp only
    rw [ihq]
  | or _ _ ihp ihq =>
    rw [folSkolemRec, ihp]
    dsimp only
    rw [ihq]

section Labels

variable {f : Formula}

theorem every_forall {ι : Type} {P : ι → ℕ → Prop} {t : FTerm}
    (h : ∀ i, t.Every fun label _ => P i label) : t.Every fun label _ => ∀ i, P i label := by
  induction t using TermTree.induct with
  | leaf l => exact .leaf l
  | node label args ih =>
    have h' := fun i => TermTree.every_node.mp (h i)
    exact .node (fun i => (h' i).1) fun a ha => ih a ha fun i => (h' i).2 a ha

theorem everyLabel_forall {ι : Type} {P : ι → ℕ → Prop} (h : ∀ i, f.EveryLabel (P i)) :
    f.EveryLabel fun label => ∀ i, P i label := by
  induction f with
  | atom t => exact every_forall h
  | not p ihp => exact ihp h
  | and p q ihp ihq => exact ⟨ihp fun i => (h i).1, ihq fun i => (h i).2⟩
  | or p q ihp ihq => exact ⟨ihp fun i => (h i).1, ihq fun i => (h i).2⟩
  | imp p q ihp ihq => exact ⟨ihp fun i => (h i).1, ihq fun i => (h i).2⟩
  | iff p q ihp ihq => exact ⟨ihp fun i => (h i).1, ihq fun i => (h i).2⟩
  | all var body ih => exact ih h
  | ex var body ih => exact ih h

theorem every_mono {P Q : ℕ → Prop} (hPQ : ∀ label, P label → Q label) {t : FTerm}
    (h : t.Every fun label _ => P label) : t.Every fun label _ => Q label := by
  induction h with
  | leaf l => exact .leaf l
  | node hnode _ ih => exact .node (hPQ _ hnode) ih

theorem everyLabel_mono {P Q : ℕ → Prop} (hPQ : ∀ label, P label → Q label)
    (h : f.EveryLabel P) : f.EveryLabel Q := by
  induction f with
  | atom t => exact every_mono hPQ h
  | not p ihp => exact ihp h
  | and p q ihp ihq => exact ⟨ihp h.1, ihq h.2⟩
  | or p q ihp ihq => exact ⟨ihp h.1, ihq h.2⟩
  | imp p q ihp ihq => exact ⟨ihp h.1, ihq h.2⟩
  | iff p q ihp ihq => exact ⟨ihp h.1, ihq h.2⟩
  | all var body ih => exact ih h
  | ex var body ih => exact ih h

end Labels

namespace Model

variable {D : Type} {M M' : Model D} {ρ ρ' : ℕ → D} {t : FTerm} {f : Formula}

theorem value_congr (h : ∀ id, Leaf.fvr id ∈ t.leaves → ρ id = ρ' id) :
    M.value ρ t = M.value ρ' t := by
  refine TermTree.eval_congr_leaves fun l hl => ?_
  cases l with
  | fvr id => exact h id hl
  | num dtype value => rfl

theorem holdsAtom_congr (h : ∀ id, Leaf.fvr id ∈ t.leaves → ρ id = ρ' id) :
    M.HoldsAtom ρ t ↔ M.HoldsAtom ρ' t := by
  cases t with
  | leaf l => exact Iff.rfl
  | node label args =>
    have hargs : args.map (M.value ρ) = args.map (M.value ρ') :=
      List.map_congr_left fun a ha => value_congr fun id hid =>
        h id (TermTree.mem_leaves_node.mpr ⟨a, ha, hid⟩)
    rw [HoldsAtom, HoldsAtom, hargs]

/-- Whether a matrix holds depends on the variables that occur in it. -/
theorem holds_congr (hf : f.IsMatrix) (h : ∀ id, f.Occurs id → ρ id = ρ' id) :
    M.Holds ρ f ↔ M.Holds ρ' f := by
  induction hf with
  | atom t => exact holdsAtom_congr h
  | not t =>
    exact not_congr (holdsAtom_congr fun id hid => h id (TermTree.mem_leaves_node.mpr
      ⟨t, List.mem_singleton_self t, hid⟩))
  | and _ _ ihp ihq =>
    exact and_congr
      (ihp fun id hid => h id (TermTree.mem_leaves_node.mpr ⟨_, List.mem_cons_self, hid⟩))
      (ihq fun id hid => h id (TermTree.mem_leaves_node.mpr ⟨_, by simp, hid⟩))
  | or _ _ ihp ihq =>
    exact or_congr
      (ihp fun id hid => h id (TermTree.mem_leaves_node.mpr ⟨_, List.mem_cons_self, hid⟩))
      (ihq fun id hid => h id (TermTree.mem_leaves_node.mpr ⟨_, by simp, hid⟩))

/-- Models that agree on the predicates of an atom. -/
theorem holdsAtom_pred {P : ℕ → Prop} (hfunc : M'.func = M.func) (hnum : M'.num = M.num)
    (hpred : ∀ label ds, P label → M'.pred label ds = M.pred label ds)
    (ht : t.Every fun label _ => P label) : M'.HoldsAtom ρ t ↔ M.HoldsAtom ρ t := by
  cases ht with
  | leaf l => exact Iff.rfl
  | @node label args hlabel hargs =>
    have hvalue : M'.value ρ = M.value ρ := by
      funext t
      have hleaf : M'.leafValue ρ = M.leafValue ρ := by
        funext l
        cases l with
        | fvr id => rfl
        | num dtype value => exact congrFun (congrFun hnum dtype) value
      rw [value, value, hfunc, hleaf]
    rw [HoldsAtom, HoldsAtom, hvalue]
    unfold rel
    split
    · exact Iff.rfl
    · exact iff_of_eq (hpred _ _ hlabel)

theorem holds_pred {P : ℕ → Prop} (hfunc : M'.func = M.func) (hnum : M'.num = M.num)
    (hpred : ∀ label ds, P label → M'.pred label ds = M.pred label ds) (hf : f.IsMatrix)
    (hlabels : f.EveryLabel P) : M'.Holds ρ f ↔ M.Holds ρ f := by
  induction hf with
  | atom t => exact holdsAtom_pred hfunc hnum hpred hlabels
  | not t => exact not_congr (holdsAtom_pred hfunc hnum hpred hlabels)
  | and _ _ ihp ihq => exact and_congr (ihp hlabels.1) (ihq hlabels.2)
  | or _ _ ihp ihq => exact or_congr (ihp hlabels.1) (ihq hlabels.2)

/-- Models that agree on the functions of a term. -/
theorem value_func {P : ℕ → Prop} (hnum : M'.num = M.num)
    (hfunc : ∀ label ds, P label → M'.func label ds = M.func label ds)
    (ht : t.Every fun label _ => P label) : M'.value ρ t = M.value ρ t := by
  refine TermTree.eval_congr ht (fun label ds hlabel => hfunc label ds hlabel) fun l _ => ?_
  cases l with
  | fvr id => rfl
  | num dtype value => exact congrFun (congrFun hnum dtype) value

theorem holdsAtom_func {P : ℕ → Prop} (hpred : M'.pred = M.pred) (hnum : M'.num = M.num)
    (hfunc : ∀ label ds, P label → M'.func label ds = M.func label ds)
    (ht : t.Every fun label _ => P label) : M'.HoldsAtom ρ t ↔ M.HoldsAtom ρ t := by
  cases ht with
  | leaf l => exact Iff.rfl
  | @node label args hlabel hargs =>
    have hvalue : args.map (M'.value ρ) = args.map (M.value ρ) :=
      List.map_congr_left fun a ha => value_func hnum hfunc (hargs a ha)
    rw [HoldsAtom, HoldsAtom, hvalue]
    unfold rel
    rw [hpred]

theorem holds_func {P : ℕ → Prop} (hpred : M'.pred = M.pred) (hnum : M'.num = M.num)
    (hfunc : ∀ label ds, P label → M'.func label ds = M.func label ds)
    (hlabels : f.EveryLabel P) : M'.Holds ρ f ↔ M.Holds ρ f := by
  induction f generalizing ρ with
  | atom t => exact holdsAtom_func hpred hnum hfunc hlabels
  | not p ih => exact not_congr (ih hlabels)
  | and p q ihp ihq => exact and_congr (ihp hlabels.1) (ihq hlabels.2)
  | or p q ihp ihq => exact or_congr (ihp hlabels.1) (ihq hlabels.2)
  | imp p q ihp ihq => exact imp_congr (ihp hlabels.1) (ihq hlabels.2)
  | iff p q ihp ihq => exact iff_congr (ihp hlabels.1) (ihq hlabels.2)
  | all var body ih => exact forall_congr' fun d => ih hlabels
  | ex var body ih => exact exists_congr fun d => ih hlabels

end Model

end Thvm.Fol
