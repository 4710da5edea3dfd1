import Thvm.FirstOrderTerms
import Thvm.Terms

/-!
# First-order terms in the heap

The orderings work on terms of the heap: a constructor carries the location of its
cells, and a memo is keyed by term words. Which term a word means is fixed as long as
the heap does not change.
-/

namespace Thvm

/-- The label of a constructor and the location of its cells. -/
structure Cell where
  label : ℕ
  loc : ℕ
  deriving DecidableEq, Repr

abbrev LTerm := TermTree Leaf Cell

namespace LTerm

variable {W : Term → FTerm} {S : ℕ → ℕ → Prop} {c : Cell} {args : List LTerm} {t : LTerm}

/-- The term without its locations. -/
def erase (t : LTerm) : FTerm := t.relabel Cell.label

def word : LTerm → Term
  | .leaf (.fvr id) => termNew false .fvr id 0
  | .leaf (.num dtype value) => termNew false .num dtype value
  | .node c _ => termNew false .ctr c.label c.loc

@[simp] theorem erase_leaf (l : Leaf) : erase (.leaf l) = .leaf l := rfl

@[simp] theorem erase_node (c : Cell) (args : List LTerm) :
    erase (.node c args) = .node c.label (args.map erase) := TermTree.relabel_node _ _ _

@[simp] theorem size_erase (t : LTerm) : t.erase.size = t.size := by
  induction t using TermTree.induct with
  | leaf l => rfl
  | node c args ih =>
    rw [erase_node, TermTree.size_node, TermTree.size_node, List.map_map]
    congr 2
    exact List.map_congr_left ih

@[simp] theorem leaves_erase (t : LTerm) : t.erase.leaves = t.leaves := by
  induction t using TermTree.induct with
  | leaf l => rfl
  | node c args ih =>
    rw [erase_node, TermTree.leaves_node, TermTree.leaves_node, List.flatMap_map]
    exact List.flatMap_congr ih

theorem mem_leaves_erase {l : Leaf} {t : LTerm} : l ∈ t.erase.leaves ↔ l ∈ t.leaves := by
  rw [leaves_erase]

/-- Every word in the term means what is under it, when words mean what `W` says. -/
inductive Reads (W : Term → FTerm) : LTerm → Prop
  | leaf {l : Leaf} (h : W (word (.leaf l)) = .leaf l) : Reads W (.leaf l)
  | node {c : Cell} {args : List LTerm} (h : W (word (.node c args)) = erase (.node c args))
      (hargs : ∀ a ∈ args, Reads W a) : Reads W (.node c args)

theorem Reads.word_eq (h : Reads W t) : W t.word = t.erase := by
  cases h with
  | leaf h => exact h
  | node h hargs => exact h

theorem Reads.arg (h : Reads W (.node c args)) {a : LTerm} (ha : a ∈ args) : Reads W a := by
  cases h with
  | node h hargs => exact hargs a ha

mutual

def decReads (W : Term → FTerm) : (t : LTerm) → Decidable (Reads W t)
  | .leaf l =>
    if h : W (word (.leaf l)) = .leaf l then .isTrue (.leaf h)
    else .isFalse fun h' => h h'.word_eq
  | .node c args =>
    if h : W (word (.node c args)) = erase (.node c args) then
      match decReadsArgs W args with
      | .isTrue h' => .isTrue (.node h h')
      | .isFalse h' => .isFalse fun hr => h' fun _ ha => hr.arg ha
    else .isFalse fun h' => h h'.word_eq

def decReadsArgs (W : Term → FTerm) : (args : List LTerm) → Decidable (∀ a ∈ args, Reads W a)
  | [] => .isTrue fun _ h => nomatch h
  | a :: as =>
    match decReads W a, decReadsArgs W as with
    | .isTrue h, .isTrue h' => .isTrue (List.forall_mem_cons.mpr ⟨h, h'⟩)
    | .isFalse h, _ => .isFalse fun h' => h (List.forall_mem_cons.mp h').1
    | _, .isFalse h => .isFalse fun h' => h (List.forall_mem_cons.mp h').2

end

instance (W : Term → FTerm) (t : LTerm) : Decidable (Reads W t) := decReads W t

end LTerm

namespace FTerm

/-- A term over variables and the symbols of a signature: no numbers, and every
constructor is a symbol with one of its numbers of arguments. -/
structure Over (S : ℕ → ℕ → Prop) (t : FTerm) : Prop where
  every : t.Every S
  leaves : ∀ l ∈ t.leaves, ∃ id, l = .fvr id

variable {S : ℕ → ℕ → Prop} {f : ℕ} {args : List FTerm}

theorem Over.root (h : Over S (.node f args)) : S f args.length := (TermTree.every_node.mp h.every).1

theorem Over.arg (h : Over S (.node f args)) {a : FTerm} (ha : a ∈ args) : Over S a where
  every := (TermTree.every_node.mp h.every).2 a ha
  leaves l hl := h.leaves l (TermTree.mem_leaves_node.mpr ⟨a, ha, hl⟩)

theorem Over.leaf {l : Leaf} (h : Over S (.leaf l)) : ∃ id, l = .fvr id :=
  h.leaves l (List.mem_singleton_self l)

theorem exists_fvr_iff {l : Leaf} : (∃ id, l = .fvr id) ↔ (leafId l).isSome = true := by
  cases l with
  | fvr id => exact ⟨fun _ => rfl, fun _ => ⟨id, rfl⟩⟩
  | num dtype value => simp [leafId]

instance [∀ f n, Decidable (S f n)] (t : FTerm) : Decidable (Over S t) :=
  decidable_of_iff (TermTree.Every S t ∧ ∀ l ∈ t.leaves, (leafId l).isSome = true) (by
    constructor
    · rintro ⟨hevery, hleaves⟩
      exact ⟨hevery, fun l hl => exists_fvr_iff.mpr (hleaves l hl)⟩
    · rintro ⟨hevery, hleaves⟩
      exact ⟨hevery, fun l hl => exists_fvr_iff.mp (hleaves l hl)⟩)

theorem over_fvr (id : ℕ) : Over S (.fvr id) where
  every := .leaf _
  leaves _ hl := ⟨id, List.mem_singleton.mp hl⟩

theorem over_node (hf : S f args.length) (hargs : ∀ a ∈ args, Over S a) :
    Over S (.node f args) where
  every := .node hf fun a ha => (hargs a ha).every
  leaves l hl := by
    obtain ⟨a, ha, hla⟩ := TermTree.mem_leaves_node.mp hl
    exact (hargs a ha).leaves l hla

theorem Over.inst {σ : ℕ → FTerm} {t : FTerm} (h : Over S t) (hσ : ∀ id, Over S (σ id)) :
    Over S (inst σ t) where
  every := h.every.subst fun l hl => by
    obtain ⟨id, rfl⟩ := h.leaves l hl
    exact (hσ id).every
  leaves l hl := by
    obtain ⟨l', hl', hmem⟩ := TermTree.mem_leaves_subst.mp hl
    obtain ⟨id, rfl⟩ := h.leaves l' hl'
    exact (hσ id).leaves l hmem

end FTerm

/-- The terms that a call is about: read from the heap and built over the signature. -/
structure Domain (W : Term → FTerm) (S : ℕ → ℕ → Prop) (t : LTerm) : Prop where
  reads : t.Reads W
  built : t.erase.Over S

namespace Domain

variable {W : Term → FTerm} {S : ℕ → ℕ → Prop} {c : Cell} {args : List LTerm}

theorem arg (h : Domain W S (.node c args)) {a : LTerm} (ha : a ∈ args) : Domain W S a where
  reads := h.reads.arg ha
  built := by
    have hover := h.built
    rw [LTerm.erase_node] at hover
    exact hover.arg (List.mem_map_of_mem ha)

theorem root (h : Domain W S (.node c args)) : S c.label args.length := by
  have hover := h.built
  rw [LTerm.erase_node] at hover
  simpa using hover.root

theorem leaf {l : Leaf} (h : Domain W S (.leaf l)) : ∃ id, l = .fvr id := h.built.leaf

end Domain

/-- Precedences tell the symbols of the signature apart. -/
def InjectiveOn (prec : ℕ → ℕ) (S : ℕ → ℕ → Prop) : Prop :=
  ∀ f g n m, S f n → S g m → prec f = prec g → f = g

mutual

/-- `rpo_var_occurs_in`; the other orderings have their own copies. -/
def varOccursIn {F : Type} : TermTree Leaf F → ℕ → Bool
  | .leaf (.fvr id), varId => id = varId
  | .leaf (.num _ _), _ => false
  | .node _ args, varId => varOccursInArgs args varId

def varOccursInArgs {F : Type} : List (TermTree Leaf F) → ℕ → Bool
  | [], _ => false
  | a :: as, varId => varOccursIn a varId || varOccursInArgs as varId

end

theorem varOccursInArgs_iff {F : Type} {args : List (TermTree Leaf F)} {varId : ℕ} :
    varOccursInArgs args varId = true ↔ ∃ a ∈ args, varOccursIn a varId = true := by
  induction args with
  | nil => simp [varOccursInArgs]
  | cons a as ih => simp [varOccursInArgs, ih]

theorem varOccursIn_iff {F : Type} {t : TermTree Leaf F} {varId : ℕ} :
    varOccursIn t varId = true ↔ Leaf.fvr varId ∈ t.leaves := by
  induction t with
  | leaf l =>
    cases l with
    | fvr id => simp [varOccursIn, eq_comm]
    | num dtype value => simp [varOccursIn]
  | node f args ih =>
    rw [varOccursIn, varOccursInArgs_iff, TermTree.mem_leaves_node]
    apply exists_congr
    intro a
    exact and_congr_right fun ha => ih a ha

end Thvm
