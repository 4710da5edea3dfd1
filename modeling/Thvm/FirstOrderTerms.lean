import Thvm.TermTrees

/-!
# First-order terms

Terms over `TAG_FVR` variables and `TAG_CTR` constructors, with numbers as atoms.
-/

namespace Thvm

inductive Leaf where
  | fvr (id : ℕ)
  | num (dtype value : ℕ)
  deriving DecidableEq, Repr

abbrev FTerm := TermTree Leaf ℕ

@[match_pattern] abbrev FTerm.fvr (id : ℕ) : FTerm := .leaf (.fvr id)

@[match_pattern] abbrev FTerm.num (dtype value : ℕ) : FTerm := .leaf (.num dtype value)

@[match_pattern] abbrev FTerm.ctr (label : ℕ) (args : List FTerm) : FTerm := .node label args

def rewriteMaxVar : ℕ := 64

def rewriteMaxArity : ℕ := 16

/-- A substitution of variables, as one of leaves. -/
def onLeaves (σ : ℕ → FTerm) : Leaf → FTerm
  | .fvr id => σ id
  | .num dtype value => .num dtype value

namespace FTerm

def inst (σ : ℕ → FTerm) (t : FTerm) : FTerm := t.subst (onLeaves σ)

/-- All variables are below `n`. -/
def VarsBelow (n : ℕ) (t : FTerm) : Prop := ∀ id, Leaf.fvr id ∈ t.leaves → id < n

/-- No constructor has more than `REWRITE_MAX_ARITY` arguments. -/
def ArityCapped (t : FTerm) : Prop := t.Every fun _ n => n ≤ rewriteMaxArity

/-- The id of a variable; a number counts as nothing. -/
def leafId : Leaf → Option ℕ
  | .fvr id => some id
  | .num _ _ => none

instance (n : ℕ) (t : FTerm) : Decidable (t.VarsBelow n) :=
  decidable_of_iff (∀ id ∈ t.leaves.filterMap leafId, id < n) (by
    unfold VarsBelow
    apply forall_congr'
    intro id
    have hmem : id ∈ t.leaves.filterMap leafId ↔ Leaf.fvr id ∈ t.leaves := by
      rw [List.mem_filterMap]
      constructor
      · rintro ⟨l, hl, hid⟩
        cases l with
        | fvr id' =>
          obtain rfl := Option.some.inj hid
          exact hl
        | num dtype value => cases hid
      · intro hl
        exact ⟨.fvr id, hl, rfl⟩
    rw [hmem])

instance (t : FTerm) : Decidable t.ArityCapped :=
  inferInstanceAs (Decidable (TermTree.Every (fun _ n => n ≤ rewriteMaxArity) t))

@[simp] theorem inst_fvr (σ : ℕ → FTerm) (id : ℕ) : inst σ (fvr id) = σ id := rfl

@[simp] theorem inst_num (σ : ℕ → FTerm) (dtype value : ℕ) :
    inst σ (num dtype value) = num dtype value := rfl

@[simp] theorem inst_ctr (σ : ℕ → FTerm) (label : ℕ) (args : List FTerm) :
    inst σ (ctr label args) = ctr label (args.map (inst σ)) := TermTree.subst_node _ _ _

theorem inst_inst (σ τ : ℕ → FTerm) (t : FTerm) :
    inst τ (inst σ t) = inst (fun id => inst τ (σ id)) t := by
  unfold inst
  rw [TermTree.subst_subst]
  apply TermTree.subst_congr
  rintro (id | ⟨dtype, value⟩) _
  · rfl
  · rfl

theorem inst_congr {σ τ : ℕ → FTerm} {t : FTerm} (h : ∀ id, Leaf.fvr id ∈ t.leaves → σ id = τ id) :
    inst σ t = inst τ t := by
  apply TermTree.subst_congr
  rintro (id | ⟨dtype, value⟩) hl
  · exact h id hl
  · rfl

@[simp] theorem inst_id (t : FTerm) : inst fvr t = t := by
  unfold inst
  refine Eq.trans (TermTree.subst_congr fun l _ => ?_) (TermTree.subst_id t)
  cases l with
  | fvr id => rfl
  | num dtype value => rfl

end FTerm

mutual

/-- `kbo_eq`. -/
def kboEq : FTerm → FTerm → Bool
  | .leaf l, .leaf l' => l = l'
  | .node f as, .node g bs => f = g && as.length = bs.length && kboEqArgs as bs
  | _, _ => false

def kboEqArgs : List FTerm → List FTerm → Bool
  | a :: as, b :: bs => kboEq a b && kboEqArgs as bs
  | _, _ => true

end

theorem kboEqArgs_iff {as bs : List FTerm} (hlen : as.length = bs.length)
    (h : ∀ a ∈ as, ∀ b, kboEq a b = true ↔ a = b) : kboEqArgs as bs = true ↔ as = bs := by
  induction as generalizing bs with
  | nil =>
    obtain rfl := List.length_eq_zero_iff.mp hlen.symm
    simp [kboEqArgs]
  | cons a as ih =>
    cases bs with
    | nil => cases hlen
    | cons b bs =>
      have htail := ih (Nat.succ.inj hlen) fun a' ha' => h a' (List.mem_cons_of_mem _ ha')
      simp [kboEqArgs, htail, h a List.mem_cons_self]

/-- `kbo_eq` is structural equality. -/
@[simp] theorem kboEq_iff {s t : FTerm} : kboEq s t = true ↔ s = t := by
  induction s using TermTree.induct generalizing t with
  | leaf l => cases t <;> simp [kboEq]
  | node f as ih =>
    cases t with
    | leaf l => simp [kboEq]
    | node g bs =>
      simp only [kboEq, Bool.and_eq_true, decide_eq_true_eq, TermTree.node.injEq]
      constructor
      · rintro ⟨⟨rfl, hlen⟩, hargs⟩
        exact ⟨rfl, (kboEqArgs_iff hlen fun a ha b => ih a ha).mp hargs⟩
      · rintro ⟨rfl, rfl⟩
        exact ⟨⟨rfl, rfl⟩, (kboEqArgs_iff rfl fun a ha b => ih a ha).mpr rfl⟩

end Thvm
