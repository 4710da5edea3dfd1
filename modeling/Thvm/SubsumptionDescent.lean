import Mathlib.Data.Finset.Card
import Thvm.OverlapIndexSpec
import Thvm.PackedPairsSpec
import Thvm.SubsumptionIndex

/-!
# Strings of pairs

A term is written down with one symbol for each of its nodes, where the variables are numbered
by their first occurrence. A string stands for a query in the tree when the term that it comes
from matches, except for what the symbols do not tell apart.
-/

namespace Thvm.Atp.FvIndex
open Acp DiscriminationTree

/-! ## Numbering the variables -/

/-- The id that a leaf is numbered by. -/
def leafVar : Atom → Option ℕ
  | .num _ _ => none
  | .fvr id => some id.toNat
  | .other w => some w.ext.toNat

/-- The symbol of a leaf once its variable is numbered. -/
def symOf (vm : DtVarMap) (l : Atom) : ℕ :=
  (leafVar l).elim dtreeNum fun id => dtreeStarBase + (vm.slot (VarMap.place id) - 1)

namespace DtVarMap

/-- Numbers are given out one after the other, to different places. -/
structure Ok (vm : DtVarMap) : Prop where
  le : ∀ i, vm.slot i ≤ vm.n
  inj : ∀ i j, vm.slot i ≠ 0 → vm.slot i = vm.slot j → i = j
  count : vm.n = ((Finset.range rewriteMaxVar).filter fun i => vm.slot i ≠ 0).card
  places : ∀ i, rewriteMaxVar ≤ i → vm.slot i = 0

/-- No number is changed. -/
def Extends (vm vm' : DtVarMap) : Prop := ∀ i, vm.slot i ≠ 0 → vm'.slot i = vm.slot i

/-- The variables of the leaves are numbered. -/
def Sees (vm : DtVarMap) (ls : List Atom) : Prop :=
  ∀ l ∈ ls, ∀ id ∈ leafVar l, vm.slot (VarMap.place id) ≠ 0

/-- The map behind some leaves. -/
def scan (vm : DtVarMap) (ls : List Atom) : DtVarMap := ls.foldl (fun vm l => (leafSym l vm).2) vm

variable {vm vm' vm'' : DtVarMap} {ls ls' : List Atom} {id : ℕ}

theorem ok_reset : reset.Ok where
  le _ := Nat.le_refl 0
  inj _ _ h := absurd rfl h
  count := by simp [reset, VarMap.reset]
  places _ _ := rfl

theorem place_lt (id : ℕ) : VarMap.place id < rewriteMaxVar := by
  unfold VarMap.place
  split
  · decide
  · omega

theorem Extends.refl (vm : DtVarMap) : vm.Extends vm := fun _ _ => rfl

theorem Extends.trans (h : vm.Extends vm') (h' : vm'.Extends vm'') : vm.Extends vm'' := by
  intro i hi
  have hold := h i hi
  rw [h' i (by rwa [hold]), hold]

theorem Extends.sees (h : vm.Extends vm') (hs : vm.Sees ls) : vm'.Sees ls := by
  intro l hl id hid
  have hseen := hs l hl id hid
  rwa [h _ hseen]

theorem Extends.symOf (h : vm.Extends vm') (hs : vm.Sees ls) {l : Atom} (hl : l ∈ ls) :
    symOf vm' l = symOf vm l := by
  unfold FvIndex.symOf
  cases hid : leafVar l with
  | none => rfl
  | some id => rw [Option.elim_some, Option.elim_some, h _ (hs l hl id hid)]

/-- A place without a number means that fewer than all numbers are given out. -/
theorem Ok.lt (h : vm.Ok) (hslot : vm.slot (VarMap.place id) = 0) : vm.n < dtreeMaxVars := by
  rw [h.count, ← Finset.card_range dtreeMaxVars]
  refine Finset.card_lt_card (Finset.filter_ssubset.mpr ?_)
  exact ⟨VarMap.place id, Finset.mem_range.mpr (place_lt id), not_not.mpr hslot⟩

/-- The next number goes to a place that has none. -/
theorem Ok.number (h : vm.Ok) (hslot : vm.slot (VarMap.place id) = 0) (hn : vm'.n = vm.n + 1)
    (hnext : ∀ i, vm'.slot i = if i = VarMap.place id then vm.n + 1 else vm.slot i) :
    vm'.Ok ∧ vm.Extends vm' := by
  have hne : ∀ i, vm.slot i ≠ 0 → i ≠ VarMap.place id := by
    rintro i hi rfl
    exact hi hslot
  refine ⟨⟨fun i => ?_, fun i j hi hij => ?_, ?_, fun i hi => ?_⟩, fun i hi => ?_⟩
  · have hle := h.le i
    rw [hnext, hn]
    split_ifs <;> omega
  · have hlei := h.le i
    have hlej := h.le j
    rw [hnext] at hi
    rw [hnext, hnext] at hij
    split_ifs at hi hij with hi' hj'
    · rw [hi', hj']
    · omega
    · omega
    · exact h.inj i j hi hij
  · have hset : ((Finset.range rewriteMaxVar).filter fun i => vm'.slot i ≠ 0) =
        insert (VarMap.place id) ((Finset.range rewriteMaxVar).filter fun i => vm.slot i ≠ 0) := by
      ext i
      have hplace := place_lt id
      rw [Finset.mem_insert, Finset.mem_filter, Finset.mem_filter, Finset.mem_range, hnext]
      by_cases hi : i = VarMap.place id
      · simp [hi, hplace]
      · simp [hi]
    rw [hset, Finset.card_insert_of_notMem (by simp [hslot]), ← h.count, hn]
  · have hplace := place_lt id
    rw [hnext, if_neg (by omega)]
    exact h.places i hi
  · rw [hnext, if_neg (hne i hi)]

theorem index_spec (h : vm.Ok) (id : ℕ) : (vm.index id).2.Ok ∧ vm.Extends (vm.index id).2 ∧
    (vm.index id).2.slot (VarMap.place id) = (vm.index id).1 + 1 ∧
    (vm.index id).2.folded = (vm.folded || decide (rewriteMaxVar ≤ id)) := by
  by_cases hslot : vm.slot (VarMap.place id) = 0
  · have hlt := h.lt hslot
    have hfresh : vm.fresh = vm.n := if_pos hlt
    have hindex : (vm.index id).1 = vm.n := by
      change (vm.toVarMap.index id).1 = _
      rw [VarMap.index, if_pos hslot]
      exact hfresh
    have hnext : ∀ i, (vm.index id).2.slot i =
        if i = VarMap.place id then vm.n + 1 else vm.slot i := fun i => by
      change (vm.toVarMap.index id).2.slot i = _
      rw [VarMap.index, if_pos hslot]
      by_cases hi : i = VarMap.place id
      · rw [if_pos hi, hi, ← hfresh]
        exact Function.update_self _ _ _
      · rw [if_neg hi]
        exact Function.update_of_ne hi _ _
    have hn : (vm.index id).2.n = vm.n + 1 := by
      change (vm.toVarMap.index id).2.n = _
      rw [VarMap.index, if_pos hslot]
      exact if_pos hlt
    obtain ⟨hok, hext⟩ := h.number hslot hn hnext
    refine ⟨hok, hext, ?_, ?_⟩
    · rw [hnext, if_pos rfl, hindex]
    · simp [index, Nat.not_le.mpr hlt]
  · have hindex : vm.toVarMap.index id = (vm.slot (VarMap.place id) - 1, vm.toVarMap) := by
      rw [VarMap.index, if_neg hslot]
    have hsame : ∀ i, (vm.index id).2.slot i = vm.slot i := fun i => by rw [index, hindex]
    have hn : (vm.index id).2.n = vm.n := by rw [index, hindex]
    refine ⟨⟨fun i => ?_, fun i j => ?_, ?_, fun i hi => ?_⟩, fun i _ => hsame i, ?_, ?_⟩
    · rw [hsame, hn]
      exact h.le i
    · rw [hsame, hsame]
      exact h.inj i j
    · simpa only [hn, hsame] using h.count
    · rw [hsame]
      exact h.places i hi
    · rw [hsame, index, hindex]
      dsimp only
      omega
    · simp [index, hslot]

/-- An id that has no place of its own. -/
def wideLeaf (l : Atom) : Bool := (leafVar l).any fun id => rewriteMaxVar ≤ id

theorem leafSym_spec (h : vm.Ok) (l : Atom) : (leafSym l vm).2.Ok ∧ vm.Extends (leafSym l vm).2 ∧
    (leafSym l vm).1 = FvIndex.symOf (leafSym l vm).2 l ∧ (leafSym l vm).2.Sees [l] ∧
    (leafSym l vm).2.folded = (vm.folded || wideLeaf l) := by
  have hvar : ∀ id, leafVar l = some id →
      leafSym l vm = (dtreeStarBase + (vm.index id).1, (vm.index id).2) →
      (leafSym l vm).2.Ok ∧ vm.Extends (leafSym l vm).2 ∧
        (leafSym l vm).1 = FvIndex.symOf (leafSym l vm).2 l ∧ (leafSym l vm).2.Sees [l] ∧
        (leafSym l vm).2.folded = (vm.folded || wideLeaf l) := by
    intro id hid heq
    obtain ⟨hok, hext, hslot, hfolded⟩ := index_spec h id
    rw [heq]
    refine ⟨hok, hext, ?_, fun l' hl' id' hid' => ?_, ?_⟩
    · rw [FvIndex.symOf, hid, Option.elim_some, hslot, Nat.add_sub_cancel]
    · obtain rfl := List.mem_singleton.mp hl'
      obtain rfl := Option.some.inj (hid.symm.trans hid')
      dsimp only
      rw [hslot]
      exact Nat.succ_ne_zero _
    · rw [wideLeaf, hid]
      exact hfolded
  cases l with
  | num dtype val =>
    refine ⟨h, .refl vm, rfl, fun l' hl' id' hid' => ?_, (Bool.or_false _).symm⟩
    obtain rfl := List.mem_singleton.mp hl'
    cases hid'
  | fvr id => exact hvar _ rfl rfl
  | other w => exact hvar _ rfl rfl

theorem scan_append (vm : DtVarMap) (ls ls' : List Atom) :
    vm.scan (ls ++ ls') = (vm.scan ls).scan ls' := List.foldl_append

theorem scan_spec (h : vm.Ok) (ls : List Atom) : (vm.scan ls).Ok ∧ vm.Extends (vm.scan ls) ∧
    (vm.scan ls).Sees ls ∧ (vm.scan ls).folded = (vm.folded || ls.any wideLeaf) := by
  induction ls generalizing vm with
  | nil => exact ⟨h, .refl vm, fun _ hl => (nomatch hl), (Bool.or_false _).symm⟩
  | cons l ls ih =>
    obtain ⟨hok, hext, -, hsees, hfolded⟩ := leafSym_spec h l
    obtain ⟨hok', hext', hsees', hfolded'⟩ := ih hok
    refine ⟨hok', hext.trans hext', fun l' hl' => ?_, ?_⟩
    · rcases List.mem_cons.mp hl' with rfl | hl'
      · exact hext'.sees hsees l' (List.mem_singleton_self l')
      · exact hsees' l' hl'
    · rw [scan, List.foldl_cons]
      exact hfolded'.trans (by rw [hfolded, List.any_cons, Bool.or_assoc])

/-- Without an id that is too big, different variables have different symbols. -/
theorem Ok.symOf_inj (h : vm.Ok) (hs : vm.Sees ls) {l l' : Atom} {id id' : ℕ} (hl : l ∈ ls)
    (hid : leafVar l = some id) (hid' : leafVar l' = some id') (hl' : l' ∈ ls)
    (hlt : id < rewriteMaxVar) (hlt' : id' < rewriteMaxVar)
    (heq : FvIndex.symOf vm l = FvIndex.symOf vm l') : id = id' := by
  have hseen := hs l hl id hid
  have hseen' := hs l' hl' id' hid'
  rw [FvIndex.symOf, FvIndex.symOf, hid, hid', Option.elim_some, Option.elim_some] at heq
  have hplace := h.inj (VarMap.place id) (VarMap.place id') hseen (by omega)
  unfold VarMap.place at hplace
  rwa [if_neg (by omega), if_neg (by omega)] at hplace

end DtVarMap

/-! ## Terms as strings -/

mutual

/-- The symbols and the spans of a term, given the symbols of its leaves. -/
def flatBy (sym : Atom → ℕ) : CpTerm → List (ℕ × ℕ)
  | .leaf l => [(sym l, 1)]
  | .node f args => (ctrSym f, (flatByArgs sym args).length + 1) :: flatByArgs sym args

def flatByArgs (sym : Atom → ℕ) : List CpTerm → List (ℕ × ℕ)
  | [] => []
  | a :: as => flatBy sym a ++ flatByArgs sym as

end

/-- The symbols alone. -/
def symsBy (sym : Atom → ℕ) (t : CpTerm) : List ℕ := (flatBy sym t).map Prod.fst

def symsByArgs (sym : Atom → ℕ) (ts : List CpTerm) : List ℕ := (flatByArgs sym ts).map Prod.fst

variable {sym sym' : Atom → ℕ} {t : CpTerm} {args : List CpTerm} {f : BitVec 18} {l : Atom}

theorem flatBy_node (f : BitVec 18) (args : List CpTerm) : flatBy sym (.node f args) =
    (ctrSym f, (flatByArgs sym args).length + 1) :: flatByArgs sym args := by
  rw [flatBy]

theorem flatByArgs_eq (args : List CpTerm) : flatByArgs sym args = args.flatMap (flatBy sym) := by
  induction args with
  | nil => rfl
  | cons a as ih => rw [flatByArgs, ih, List.flatMap_cons]

theorem symsBy_node (f : BitVec 18) (args : List CpTerm) :
    symsBy sym (.node f args) = ctrSym f :: symsByArgs sym args := by
  rw [symsBy, flatBy_node, List.map_cons, symsByArgs]

theorem symsByArgs_cons (a : CpTerm) (as : List CpTerm) :
    symsByArgs sym (a :: as) = symsBy sym a ++ symsByArgs sym as := by
  rw [symsByArgs, flatByArgs, List.map_append, symsBy, symsByArgs]

@[simp] theorem length_flatBy (t : CpTerm) : (flatBy sym t).length = t.size := by
  induction t using TermTree.induct with
  | leaf l => rfl
  | node f args ih =>
    rw [flatBy_node, List.length_cons, flatByArgs_eq, List.length_flatMap, List.map_congr_left ih,
      TermTree.size_node, Nat.add_comm]

theorem length_flatByArgs (args : List CpTerm) :
    (flatByArgs sym args).length = (args.map TermTree.size).sum := by
  rw [flatByArgs_eq, List.length_flatMap]
  congr 1
  exact List.map_congr_left fun a _ => length_flatBy a

theorem flatBy_congr (h : ∀ l ∈ t.leaves, sym l = sym' l) : flatBy sym t = flatBy sym' t := by
  induction t using TermTree.induct with
  | leaf l => rw [flatBy, flatBy, h l (List.mem_singleton_self l)]
  | node f args ih =>
    have hargs : flatByArgs sym args = flatByArgs sym' args := by
      rw [flatByArgs_eq, flatByArgs_eq]
      refine List.flatMap_congr fun a ha => ih a ha fun l hl => h l ?_
      exact TermTree.mem_leaves_node.mpr ⟨a, ha, hl⟩
    rw [flatBy_node, flatBy_node, hargs]

section
open DtVarMap
variable {vm vm' : DtVarMap} {pos : ℕ}

/-- Numbered further on, the leaves keep their symbols. -/
theorem flatBy_extends (h : vm.Extends vm') (hs : vm.Sees t.leaves) :
    flatBy (symOf vm') t = flatBy (symOf vm) t :=
  flatBy_congr fun _ hl => h.symOf hs hl

/-- What is entered for a term. -/
theorem insertSyms_spec (h : vm.Ok) (t : CpTerm) :
    insertSyms t vm = (symsBy (symOf (vm.scan t.leaves)) t, vm.scan t.leaves) := by
  induction t using TermTree.induct generalizing vm with
  | leaf l =>
    obtain ⟨-, -, hsym, -⟩ := leafSym_spec h l
    have hscan : vm.scan (TermTree.leaf l : CpTerm).leaves = (leafSym l vm).2 := rfl
    rw [insertSyms, hscan, hsym]
    rfl
  | node f args ih =>
    have hargs : ∀ as ⊆ args, ∀ {vm : DtVarMap}, vm.Ok → insertSymsArgs as vm =
        (symsByArgs (symOf (vm.scan (TermTree.leavesList as))) as,
          vm.scan (TermTree.leavesList as)) := by
      intro as hsub
      induction as with
      | nil => exact fun _ => rfl
      | cons a as ihas =>
        intro vm hvm
        obtain ⟨ha, has⟩ := List.cons_subset.mp hsub
        obtain ⟨hok, hext, hsees, -⟩ := scan_spec hvm a.leaves
        obtain ⟨-, hext', -, -⟩ := scan_spec hok (TermTree.leavesList as)
        rw [insertSymsArgs, ih a ha hvm]
        simp only [ihas has hok]
        rw [TermTree.leavesList, scan_append, symsByArgs_cons, symsBy, symsBy,
          flatBy_extends hext' hsees]
    rw [insertSyms, hargs args (List.Subset.refl _) h, symsBy_node, TermTree.leaves]

/-- What a term is flattened to, when it fits. -/
theorem atpDtFlatten_spec (h : vm.Ok) (t : CpTerm) (pos : ℕ) : atpDtFlatten t vm pos =
    if atpDtFlatCap < pos + t.size then none
    else some (flatBy (symOf (vm.scan t.leaves)) t, vm.scan t.leaves) := by
  induction t using TermTree.induct generalizing vm pos with
  | leaf l =>
    obtain ⟨-, -, hsym, -⟩ := leafSym_spec h l
    have hscan : vm.scan (TermTree.leaf l : CpTerm).leaves = (leafSym l vm).2 := rfl
    rw [atpDtFlatten, hscan, hsym, TermTree.size_leaf]
    by_cases hcap : atpDtFlatCap ≤ pos
    · rw [if_pos hcap, if_pos (by omega)]
    · rw [if_neg hcap, if_neg (by omega)]
      rfl
  | node f args ih =>
    have hargs : ∀ as ⊆ args, ∀ {vm : DtVarMap} (pos : ℕ), vm.Ok → atpDtFlattenArgs as vm pos =
        if atpDtFlatCap < pos + (as.map TermTree.size).sum ∧ as ≠ [] then none
        else some (flatByArgs (symOf (vm.scan (TermTree.leavesList as))) as,
          vm.scan (TermTree.leavesList as)) := by
      intro as hsub
      induction as with
      | nil => exact fun pos _ => (if_neg fun h => h.2 rfl).symm
      | cons a as ihas =>
        intro vm pos hvm
        obtain ⟨ha, has⟩ := List.cons_subset.mp hsub
        obtain ⟨hok, hext, hsees, -⟩ := scan_spec hvm a.leaves
        obtain ⟨-, hext', -, -⟩ := scan_spec hok (TermTree.leavesList as)
        rw [atpDtFlattenArgs, ih a ha hvm, List.map_cons, List.sum_cons]
        by_cases hcap : atpDtFlatCap < pos + a.size
        · rw [if_pos hcap, if_pos ⟨by omega, List.cons_ne_nil a as⟩]
          rfl
        · rw [if_neg hcap]
          simp only [Option.bind_eq_bind, Option.bind_some, length_flatBy, ihas has _ hok]
          by_cases hrest : atpDtFlatCap < pos + a.size + (as.map TermTree.size).sum ∧ as ≠ []
          · rw [if_pos hrest, if_pos ⟨by omega, List.cons_ne_nil a as⟩]
            rfl
          · have hle : ¬ (atpDtFlatCap < pos + (a.size + (as.map TermTree.size).sum) ∧
                a :: as ≠ []) := by
              rintro ⟨hlt, -⟩
              refine hrest ⟨by omega, ?_⟩
              rintro rfl
              rw [List.map_nil, List.sum_nil] at hlt
              omega
            rw [if_neg hrest, if_neg hle, Option.bind_some, TermTree.leavesList, scan_append,
              flatByArgs, flatBy_extends hext' hsees]
    rw [atpDtFlatten, hargs args (List.Subset.refl _) _ h, TermTree.size_node, TermTree.leaves]
    by_cases hcap : atpDtFlatCap ≤ pos
    · rw [if_pos hcap, if_pos (by omega)]
    · rw [if_neg hcap]
      by_cases hlong : atpDtFlatCap < pos + 1 + (args.map TermTree.size).sum ∧ args ≠ []
      · rw [if_pos hlong, if_pos (by omega)]
        rfl
      · have hle : ¬ atpDtFlatCap < pos + (1 + (args.map TermTree.size).sum) := by
          intro hlt
          refine hlong ⟨by omega, ?_⟩
          rintro rfl
          rw [List.map_nil, List.sum_nil] at hlt
          omega
        rw [if_neg hlong, if_neg hle, flatBy_node]
        rfl

end

/-! ## Terms in the query -/

/-- The nodes of the term stand at the position. -/
def Stands (sym : Atom → ℕ) (flat : List (ℕ × ℕ)) (pos : ℕ) (t : CpTerm) : Prop :=
  flatBy sym t <+: flat.drop pos

def StandArgs (sym : Atom → ℕ) (flat : List (ℕ × ℕ)) (pos : ℕ) (ts : List CpTerm) : Prop :=
  flatByArgs sym ts <+: flat.drop pos

/-- The symbol that a term starts with. -/
def headSym (sym : Atom → ℕ) : CpTerm → ℕ
  | .leaf l => sym l
  | .node f _ => ctrSym f

section
variable {flat : List (ℕ × ℕ)} {pos : ℕ} {a : CpTerm} {as : List CpTerm}

theorem flatBy_head (sym : Atom → ℕ) (t : CpTerm) :
    ∃ rest, flatBy sym t = (headSym sym t, t.size) :: rest := by
  cases t with
  | leaf l => exact ⟨[], rfl⟩
  | node f args =>
    refine ⟨flatByArgs sym args, ?_⟩
    rw [flatBy_node, length_flatByArgs, TermTree.size_node, Nat.add_comm]
    rfl

theorem Stands.at (h : Stands sym flat pos t) : flat[pos]? = some (headSym sym t, t.size) := by
  obtain ⟨rest, hrest⟩ := flatBy_head sym t
  obtain ⟨tail, htail⟩ := h
  rw [hrest, List.cons_append] at htail
  rw [← List.head?_drop, ← htail, List.head?_cons]

theorem Stands.slice (h : Stands sym flat pos t) : slice flat pos t.size = symsBy sym t := by
  have htake := List.prefix_iff_eq_take.mp h
  rw [length_flatBy] at htake
  rw [DiscriminationTree.slice, ← htake, symsBy]

theorem Stands.below (h : Stands sym flat pos (.node f args)) :
    StandArgs sym flat (pos + 1) args := by
  obtain ⟨tail, htail⟩ := h
  rw [flatBy_node, List.cons_append] at htail
  refine ⟨tail, ?_⟩
  rw [← List.drop_drop, ← htail, List.drop_one, List.tail_cons]

theorem StandArgs.split (h : StandArgs sym flat pos (a :: as)) :
    Stands sym flat pos a ∧ StandArgs sym flat (pos + a.size) as := by
  obtain ⟨tail, htail⟩ := h
  rw [flatByArgs, List.append_assoc] at htail
  have hlen : (flatBy sym a).length = a.size := length_flatBy a
  refine ⟨⟨_, htail⟩, tail, ?_⟩
  rw [← List.drop_drop, ← htail, ← hlen, List.drop_left]

/-- Where the same term stands, the slices are the same. -/
theorem Stands.same {i : ℕ} (h : Stands sym flat i t) (h' : Stands sym flat pos t) :
    sameSlice flat i pos = true :=
  (sameSlice_iff h.at h'.at).mpr ⟨rfl, h.slice.trans h'.slice.symm⟩

theorem Stands.syms_eq {i : ℕ} {u : CpTerm} (h : Stands sym flat i u) (h' : Stands sym flat pos t)
    (hsame : sameSlice flat i pos = true) : symsBy sym u = symsBy sym t := by
  obtain ⟨hsize, hslice⟩ := (sameSlice_iff h.at h'.at).mp hsame
  dsimp only at hsize hslice
  rw [← h'.slice, ← hslice, ← hsize, h.slice]

end

/-! ## Symbols of leaves -/

section
open AtpFvIndex
variable (vm : DtVarMap)

/-- The number of a variable. -/
def starOf (id : ℕ) : ℕ := vm.slot (VarMap.place id) - 1

theorem starOf_lt (id : ℕ) : starOf vm id < dtreeMaxVars := by
  have hle := vm.slot_le (VarMap.place id)
  have hpos : 0 < dtreeMaxVars := by decide
  unfold starOf
  omega

theorem symOf_var {l : Atom} {id : ℕ} (h : leafVar l = some id) :
    symOf vm l = dtreeStarBase + starOf vm id := by
  rw [symOf, h]
  rfl

theorem starIndex_var {l : Atom} {id : ℕ} (h : leafVar l = some id) :
    starIndex (symOf vm l) = some (starOf vm id) := by
  have hlt := starOf_lt vm id
  have hstar : isStar (dtreeStarBase + starOf vm id) = true := by
    simp [isStar, dtreeCtrBase, hlt]
  rw [symOf_var vm h, starIndex, if_pos hstar, Nat.add_sub_cancel_left]

theorem starIndex_num {l : Atom} (h : leafVar l = none) :
    symOf vm l = dtreeNum ∧ starIndex (symOf vm l) = none := by
  rw [symOf, h]
  exact ⟨rfl, rfl⟩

theorem starIndex_ctr (f : BitVec 18) : starIndex (ctrSym f) = none :=
  if_neg (by rw [ctrSym, isStar_ctr]; exact Bool.false_ne_true)

theorem symOf_lt (l : Atom) : symOf vm l < dtreeCtrBase := by
  cases h : leafVar l with
  | none =>
    rw [(starIndex_num vm h).1]
    decide
  | some id =>
    rw [symOf_var vm h]
    exact Nat.add_lt_add_left (starOf_lt vm id) _

theorem ctrSym_inj {f g : BitVec 18} (h : ctrSym f = ctrSym g) : f = g :=
  BitVec.eq_of_toNat_eq (Nat.add_left_cancel h)

/-- A term that starts with the symbol of a label is a node with that label. -/
theorem node_of_headSym {vm : DtVarMap} {t : CpTerm} {f : BitVec 18}
    (h : ctrSym f = headSym (symOf vm) t) : ∃ args, t = .node f args := by
  cases t with
  | leaf l =>
    have hlt := symOf_lt vm l
    have hle : dtreeCtrBase ≤ ctrSym f := Nat.le_add_right _ _
    rw [headSym] at h
    omega
  | node g args =>
    obtain rfl := ctrSym_inj h
    exact ⟨args, rfl⟩

end

/-! ## Matching -/

def fvrId : Atom → Option ℕ
  | .fvr id => some id.toNat
  | _ => none

/-- The variables of a term, one for each occurrence. -/
def ids (t : CpTerm) : List ℕ := t.leaves.filterMap fvrId

def idsArgs (ts : List CpTerm) : List ℕ := ts.flatMap ids

theorem ids_node (f : BitVec 18) (args : List CpTerm) : ids (.node f args) = idsArgs args := by
  rw [ids, TermTree.leaves_node, List.filterMap_flatMap, idsArgs]
  rfl

theorem idsArgs_cons (a : CpTerm) (as : List CpTerm) : idsArgs (a :: as) = ids a ++ idsArgs as :=
  List.flatMap_cons

section
variable {p c : CpTerm} {ps cs : List CpTerm} {σ σ' : Bindings} {id : BitVec 18}

theorem bindVar_true {i : ℕ} (h : Acp.bindVar i c σ = (true, σ')) : i < rewriteMaxVar ∧
    (σ i = none ∧ σ' = Function.update σ i (some c) ∨ σ i = some c ∧ σ' = σ) := by
  unfold Acp.bindVar at h
  split_ifs at h with hlt
  · cases h
  refine ⟨Nat.lt_of_not_le hlt, ?_⟩
  cases hi : σ i with
  | none =>
    rw [hi] at h
    exact .inl ⟨rfl, (Prod.mk.inj h).2.symm⟩
  | some u =>
    rw [hi] at h
    obtain ⟨heq, hσ⟩ := Prod.mk.inj h
    obtain rfl := of_decide_eq_true heq
    exact .inr ⟨rfl, hσ.symm⟩

theorem thvmMatch_leaf_true {l : Atom} (h : Acp.thvmMatch (.leaf l) c σ = (true, σ')) :
    ∃ id : BitVec 18, l = .fvr id ∧ Acp.bindVar id.toNat c σ = (true, σ') := by
  cases l with
  | fvr id =>
    rw [Acp.thvmMatch] at h
    exact ⟨id, rfl, h⟩
  | num dtype val => simp [Acp.thvmMatch] at h
  | other w => simp [Acp.thvmMatch] at h

theorem thvmMatch_node_true {f : BitVec 18} (h : Acp.thvmMatch (.node f ps) c σ = (true, σ')) :
    ∃ cs, c = .node f cs ∧ ps.length = cs.length ∧ Acp.thvmMatchArgs ps cs σ = (true, σ') := by
  cases c with
  | leaf l => simp [Acp.thvmMatch] at h
  | node g cs =>
    rw [Acp.thvmMatch] at h
    split_ifs at h with hfg hlen
    · cases h
    · cases h
    · obtain rfl := not_not.mp hfg
      exact ⟨cs, rfl, not_not.mp hlen, h⟩

theorem thvmMatchArgs_cons_true (h : Acp.thvmMatchArgs (p :: ps) (c :: cs) σ = (true, σ')) :
    ∃ σ₁, Acp.thvmMatch p c σ = (true, σ₁) ∧ Acp.thvmMatchArgs ps cs σ₁ = (true, σ') := by
  rw [Acp.thvmMatchArgs] at h
  cases hp : Acp.thvmMatch p c σ with
  | mk ok σ₁ =>
    rw [hp] at h
    cases ok with
    | true => exact ⟨σ₁, rfl, h⟩
    | false => simp at h

theorem thvmMatchArgs_cons {σ₁ : Bindings} (h : Acp.thvmMatch p c σ = (true, σ₁)) :
    Acp.thvmMatchArgs (p :: ps) (c :: cs) σ = Acp.thvmMatchArgs ps cs σ₁ := by
  rw [Acp.thvmMatchArgs, h]
  rfl

/-- A match binds the variables of the pattern and no others, and all of them are small. -/
theorem thvmMatch_ids (h : Acp.thvmMatch p c σ = (true, σ')) :
    (∀ i ∈ ids p, i < rewriteMaxVar) ∧ ∀ i ∉ ids p, σ' i = σ i := by
  induction p using TermTree.induct generalizing c σ σ' with
  | leaf l =>
    obtain ⟨id, rfl, h⟩ := thvmMatch_leaf_true h
    obtain ⟨hlt, hbound⟩ := bindVar_true h
    have hids : ids (.leaf (.fvr id)) = [id.toNat] := rfl
    rw [hids]
    refine ⟨fun i hi => (List.mem_singleton.mp hi) ▸ hlt, fun i hi => ?_⟩
    rcases hbound with ⟨-, rfl⟩ | ⟨-, rfl⟩
    · exact Function.update_of_ne (fun h => hi (List.mem_singleton.mpr h)) _ _
    · rfl
  | node f args ih =>
    obtain ⟨cs, rfl, hlen, hargs⟩ := thvmMatch_node_true h
    clear h
    rw [ids_node]
    induction args generalizing cs σ with
    | nil =>
      obtain rfl := List.length_eq_zero_iff.mp hlen.symm
      obtain ⟨-, rfl⟩ := Prod.mk.inj hargs
      exact ⟨fun i hi => (nomatch hi), fun i _ => rfl⟩
    | cons p ps ihps =>
      cases cs with
      | nil => cases hlen
      | cons c cs =>
        obtain ⟨σ₁, hp, hps⟩ := thvmMatchArgs_cons_true hargs
        obtain ⟨hlt, hkeep⟩ := ih p List.mem_cons_self hp
        obtain ⟨hlt', hkeep'⟩ := ihps (fun a ha => ih a (List.mem_cons_of_mem p ha)) cs
          (Nat.succ.inj hlen) hps
        rw [idsArgs_cons]
        refine ⟨fun i hi => (List.mem_append.mp hi).elim (hlt i) (hlt' i), fun i hi => ?_⟩
        rw [List.mem_append, not_or] at hi
        rw [hkeep' i hi.2, hkeep i hi.1]

end

end Thvm.Atp.FvIndex

/-!
## Matching along a string

The descent reads a pattern off the tree, symbol by symbol, and binds its variables to positions
of the query. It takes the same way as the matcher, which binds them to terms, as long as equal
slices come from equal terms.
-/

namespace Thvm.Atp.FvIndex
open Acp DiscriminationTree AtpFvIndex

/-- Variables are bound to the positions where the terms stand that the matcher binds them to. -/
def Binds (vm : DtVarMap) (V : List ℕ) (qry : Atom → ℕ) (flat : List (ℕ × ℕ))
    (P : CpTerm → Prop) (σ : Bindings) (bound : Bound) : Prop :=
  ∀ id ∈ V, (σ id = none → bound (starOf vm id) = 0) ∧ ∀ u, σ id = some u →
    bound (starOf vm id) ≠ 0 ∧ Stands qry flat (bound (starOf vm id)) u ∧ P u

section
variable {vm : DtVarMap} {V : List ℕ} {qry : Atom → ℕ} {flat : List (ℕ × ℕ)} {P : CpTerm → Prop}
  {σ σ' : Bindings} {bound : Bound} {pos depth cap id : ℕ} {p c : CpTerm}

theorem Binds.update (hinj : ∀ i ∈ V, ∀ j ∈ V, starOf vm i = starOf vm j → i = j)
    (hb : Binds vm V qry flat P σ bound) (hid : id ∈ V) (hpos : 0 < pos)
    (hstand : Stands qry flat pos c) (hc : P c) :
    Binds vm V qry flat P (Function.update σ id (some c))
      (Function.update bound (starOf vm id) pos) := by
  intro i hi
  by_cases heq : i = id
  · subst heq
    rw [Function.update_self, Function.update_self]
    refine ⟨fun h => (nomatch h), fun u hu => ?_⟩
    obtain rfl := Option.some.inj hu
    exact ⟨Nat.ne_of_gt hpos, hstand, hc⟩
  · have hstar : starOf vm i ≠ starOf vm id := fun h => heq (hinj i hi id hid h)
    rw [Function.update_of_ne heq, Function.update_of_ne hstar]
    exact hb i hi

theorem ids_fvr (id : BitVec 18) : ids (.leaf (.fvr id)) = [id.toNat] := rfl

/-- Where the matcher succeeds, the string of the pattern can be read. -/
theorem reads_of_match (hinj : ∀ i ∈ V, ∀ j ∈ V, starOf vm i = starOf vm j → i = j)
    (hP : ∀ f as, P (.node f as) → ∀ a ∈ as, P a) (hV : ids p ⊆ V) (hpos : 0 < pos)
    (hstand : Stands qry flat pos c) (hc : P c) (hb : Binds vm V qry flat P σ bound)
    (hdepth : depth + (ids p).length < cap) (hmatch : Acp.thvmMatch p c σ = (true, σ')) :
    ∃ bound', Binds vm V qry flat P σ' bound' ∧
      ∀ w, Reads starIndex flat cap w (pos + c.size) (depth + (ids p).length) bound' →
        Reads starIndex flat cap (symsBy (symOf vm) p ++ w) pos depth bound := by
  induction p using TermTree.induct generalizing c σ σ' bound pos depth with
  | leaf l =>
    obtain ⟨id, rfl, hbind⟩ := thvmMatch_leaf_true hmatch
    have hid : id.toNat ∈ V := hV (by rw [ids_fvr]; exact List.mem_singleton_self _)
    have hstar : starIndex (symOf vm (.fvr id)) = some (starOf vm id.toNat) := starIndex_var vm rfl
    rw [ids_fvr] at hdepth ⊢
    have hspan := TermTree.size_pos c
    obtain ⟨hnone, hsome⟩ := hb id.toNat hid
    rcases (bindVar_true hbind).2 with ⟨hσ, rfl⟩ | ⟨hσ, rfl⟩
    · exact ⟨_, hb.update hinj hid hpos hstand hc, fun w hw =>
        .bind hstand.at hspan hstar (hnone hσ) hdepth hw⟩
    · obtain ⟨hbound, hstand', -⟩ := hsome c hσ
      exact ⟨bound, hb, fun w hw =>
        .again hstand.at hspan hstar hbound (hstand'.same hstand) hdepth hw⟩
  | node f args ih =>
    obtain ⟨cs, rfl, hlen, hargs⟩ := thvmMatch_node_true hmatch
    have hPcs : ∀ a ∈ cs, P a := hP f cs hc
    have hread := hstand.at
    have hbelow := hstand.below
    rw [ids_node] at hV hdepth ⊢
    rw [symsBy_node, TermTree.size_node]
    -- the arguments one after the other, from the position behind the head
    have hrest : ∀ ps ⊆ args, ∀ (cs : List CpTerm) {σ σ' : Bindings} {bound : Bound}
        {pos depth : ℕ}, 0 < pos → ps.length = cs.length → idsArgs ps ⊆ V → (∀ a ∈ cs, P a) →
        StandArgs qry flat pos cs → Binds vm V qry flat P σ bound →
        depth + (idsArgs ps).length < cap → Acp.thvmMatchArgs ps cs σ = (true, σ') →
        ∃ bound', Binds vm V qry flat P σ' bound' ∧
          ∀ w, Reads starIndex flat cap w (pos + (cs.map TermTree.size).sum)
            (depth + (idsArgs ps).length) bound' →
            Reads starIndex flat cap (symsByArgs (symOf vm) ps ++ w) pos depth bound := by
      intro ps hsub
      induction ps with
      | nil =>
        intro cs σ σ' bound pos depth _ hlen _ _ _ hb _ hmatch
        obtain rfl := List.length_eq_zero_iff.mp hlen.symm
        obtain ⟨-, rfl⟩ := Prod.mk.inj hmatch
        exact ⟨bound, hb, fun w hw => hw⟩
      | cons q ps ihps =>
        intro cs σ σ' bound pos depth hpos hlen hV hP hstand hb hdepth hmatch
        obtain ⟨hq, hps⟩ := List.cons_subset.mp hsub
        cases cs with
        | nil => cases hlen
        | cons c cs =>
          obtain ⟨σ₁, hhead, htail⟩ := thvmMatchArgs_cons_true hmatch
          obtain ⟨hc, hcs⟩ := List.forall_mem_cons.mp hP
          obtain ⟨hstandc, hstandcs⟩ := hstand.split
          rw [idsArgs_cons] at hV hdepth ⊢
          rw [List.length_append] at hdepth
          obtain ⟨hVq, hVps⟩ := List.append_subset.mp hV
          have hdq : depth + (ids q).length < cap := by omega
          have hdps : depth + (ids q).length + (idsArgs ps).length < cap := by omega
          obtain ⟨bound₁, hb₁, hread₁⟩ := ih q hq hVq hpos hstandc hc hb hdq hhead
          obtain ⟨bound', hb', hread'⟩ := ihps hps cs (by omega : 0 < pos + c.size)
            (Nat.succ.inj hlen) hVps hcs hstandcs hb₁ hdps htail
          refine ⟨bound', hb', fun w hw => ?_⟩
          rw [symsByArgs_cons, List.append_assoc]
          refine hread₁ _ (hread' w ?_)
          rw [List.map_cons, List.sum_cons, List.length_append] at hw
          rwa [Nat.add_assoc, Nat.add_assoc]
    obtain ⟨bound', hb', hreads⟩ := hrest args (List.Subset.refl _) cs (by omega : 0 < pos + 1) hlen
      hV hPcs hbelow hb hdepth hargs
    refine ⟨bound', hb', fun w hw => ?_⟩
    refine .head hread (TermTree.size_pos _) (starIndex_ctr f) rfl (hreads w ?_)
    rwa [Nat.add_assoc]

/-- What equal slices say about terms of the query: nothing is needed when every variable of
the pattern is met once. -/
def Apart (qry : Atom → ℕ) (P : CpTerm → Prop) (is : List ℕ) (σ : Bindings) : Prop :=
  (∀ u c, P u → P c → symsBy qry u = symsBy qry c → u = c) ∨
    is.Nodup ∧ ∀ i ∈ is, σ i = none

theorem Apart.left {is js : List ℕ} (h : Apart qry P (is ++ js) σ) : Apart qry P is σ :=
  h.imp_right fun ⟨hnodup, hnone⟩ =>
    ⟨(List.nodup_append.mp hnodup).1, fun i hi => hnone i (List.mem_append_left js hi)⟩

theorem Apart.right {is js : List ℕ} (h : Apart qry P (is ++ js) σ)
    (hkeep : ∀ i ∉ is, σ' i = σ i) : Apart qry P js σ' :=
  h.imp_right fun ⟨hnodup, hnone⟩ => by
    obtain ⟨-, hjs, hdisjoint⟩ := List.nodup_append.mp hnodup
    refine ⟨hjs, fun j hj => ?_⟩
    rw [hkeep j fun hi => hdisjoint j hi j hj rfl]
    exact hnone j (List.mem_append_right is hj)

/-- The labels of the pattern and of the query have one arity each. -/
def OneArity (ar : BitVec 18 → ℕ) (t : CpTerm) : Prop := t.Every fun f n => n = ar f

def isNum : Atom → Bool
  | .num _ _ => true
  | _ => false

def isOther : Atom → Bool
  | .other _ => true
  | _ => false

/-- Where the string of the pattern can be read, the matcher succeeds. -/
theorem match_of_reads {vmq : DtVarMap} {ar : BitVec 18 → ℕ} (hqry : qry = symOf vmq)
    (hinj : ∀ i ∈ V, ∀ j ∈ V, starOf vm i = starOf vm j → i = j)
    (hlt : ∀ i ∈ V, i < rewriteMaxVar) (hP : ∀ f as, P (.node f as) → ∀ a ∈ as, P a)
    (hPar : ∀ c, P c → OneArity ar c) (hPother : ∀ l, P (.leaf l) → isOther l = false)
    (hnums : (∀ l ∈ p.leaves, isNum l = false) ∨ ∀ l, P (.leaf l) → isNum l = false)
    (hother : ∀ l ∈ p.leaves, isOther l = false) (hpar : OneArity ar p)
    (hV : ids p ⊆ V) (hpos : 0 < pos) (hstand : Stands qry flat pos c) (hc : P c)
    (hb : Binds vm V qry flat P σ bound) (hapart : Apart qry P (ids p) σ) {w : List ℕ}
    (hreads : Reads starIndex flat cap (symsBy (symOf vm) p ++ w) pos depth bound) :
    ∃ σ' bound', Acp.thvmMatch p c σ = (true, σ') ∧ Binds vm V qry flat P σ' bound' ∧
      Reads starIndex flat cap w (pos + c.size) (depth + (ids p).length) bound' := by
  induction p using TermTree.induct generalizing c σ bound pos depth w with
  | leaf l =>
    have hsyms : symsBy (symOf vm) (.leaf l) ++ w = symOf vm l :: w := rfl
    rw [hsyms] at hreads
    have hspan := TermTree.size_pos c
    cases l with
    | other w' => exact absurd (hother _ (List.mem_singleton_self _)) Bool.noConfusion
    | num dtype val =>
      -- the symbol of all numbers is only met at a number
      obtain ⟨hsym, hstar⟩ := starIndex_num vm (l := .num dtype val) rfl
      rw [reads_head_iff hstand.at hspan hstar, hsym, hqry] at hreads
      rcases hnums with hnum | hnum
      · exact absurd (hnum _ (List.mem_singleton_self _)) Bool.noConfusion
      · have hhead : dtreeNum = headSym (symOf vmq) c := hreads.1
        cases c with
        | node g cs =>
          have hle : dtreeCtrBase ≤ ctrSym g := Nat.le_add_right _ _
          rw [headSym, dtreeNum] at hhead
          rw [← hhead] at hle
          exact absurd hle (by decide)
        | leaf l' =>
          have hl' := hnum l' hc
          have hl'' := hPother l' hc
          cases l' with
          | num => cases hl'
          | other => cases hl''
          | fvr id' =>
            have hvar : symOf vmq (.fvr id') = dtreeStarBase + starOf vmq id'.toNat :=
              symOf_var vmq rfl
            rw [headSym, hvar, dtreeNum, dtreeStarBase] at hhead
            omega
    | fvr id =>
      have hid : id.toNat ∈ V := hV (by rw [ids_fvr]; exact List.mem_singleton_self _)
      have hstar : starIndex (symOf vm (.fvr id)) = some (starOf vm id.toNat) :=
        starIndex_var vm rfl
      have hsmall : ¬ id.toNat ≥ rewriteMaxVar := Nat.not_le.mpr (hlt _ hid)
      obtain ⟨hnone, hsome⟩ := hb id.toNat hid
      rw [ids_fvr] at hapart ⊢
      rw [reads_star_iff hstand.at hspan hstar] at hreads
      cases hσ : σ id.toNat with
      | none =>
        obtain ⟨-, ⟨-, hrest⟩ | ⟨hbound, -⟩⟩ := hreads
        · refine ⟨_, _, ?_, hb.update hinj hid hpos hstand hc, hrest⟩
          rw [Acp.thvmMatch, Acp.bindVar, if_neg hsmall, hσ]
        · exact absurd (hnone hσ) hbound
      | some u =>
        obtain ⟨hbound, hstand', hu⟩ := hsome u hσ
        obtain ⟨-, ⟨hfree, -⟩ | ⟨-, hsame, hrest⟩⟩ := hreads
        · exact absurd hfree hbound
        · rcases hapart with hapart | ⟨-, hunbound⟩
          · obtain rfl := hapart u c hu hc (hstand'.syms_eq hstand hsame)
            refine ⟨σ, bound, ?_, hb, hrest⟩
            rw [Acp.thvmMatch, Acp.bindVar, if_neg hsmall, hσ]
            simp [Acp.kboEq]
          · rw [hunbound _ (List.mem_singleton_self _)] at hσ
            cases hσ
  | node f args ih =>
    rw [symsBy_node, List.cons_append,
      reads_head_iff hstand.at (TermTree.size_pos c) (starIndex_ctr f), hqry] at hreads
    obtain ⟨hhead, hreads⟩ := hreads
    obtain ⟨cs, rfl⟩ := node_of_headSym hhead
    obtain ⟨hlen, hargsar⟩ := TermTree.every_node.mp hpar
    obtain ⟨hlencs, -⟩ := TermTree.every_node.mp (hPar _ hc)
    have hPcs : ∀ a ∈ cs, P a := hP f cs hc
    rw [ids_node] at hV hapart ⊢
    have hrest : ∀ ps ⊆ args, ∀ (cs : List CpTerm) {σ : Bindings} {bound : Bound}
        {pos depth : ℕ}, 0 < pos → ps.length = cs.length → idsArgs ps ⊆ V → (∀ a ∈ cs, P a) →
        StandArgs qry flat pos cs → Binds vm V qry flat P σ bound →
        Apart qry P (idsArgs ps) σ →
        Reads starIndex flat cap (symsByArgs (symOf vm) ps ++ w) pos depth bound →
        ∃ σ' bound', Acp.thvmMatchArgs ps cs σ = (true, σ') ∧ Binds vm V qry flat P σ' bound' ∧
          Reads starIndex flat cap w (pos + (cs.map TermTree.size).sum)
            (depth + (idsArgs ps).length) bound' := by
      intro ps hsub
      induction ps with
      | nil =>
        intro cs σ bound pos depth _ hlen _ _ _ hb _ hreads
        obtain rfl := List.length_eq_zero_iff.mp hlen.symm
        exact ⟨σ, bound, rfl, hb, hreads⟩
      | cons q ps ihps =>
        intro cs σ bound pos depth hpos hlen hV hP hstand hb hapart hreads
        obtain ⟨hq, hps⟩ := List.cons_subset.mp hsub
        cases cs with
        | nil => cases hlen
        | cons c cs =>
          obtain ⟨hc, hcs⟩ := List.forall_mem_cons.mp hP
          obtain ⟨hstandc, hstandcs⟩ := hstand.split
          rw [idsArgs_cons] at hV hapart ⊢
          obtain ⟨hVq, hVps⟩ := List.append_subset.mp hV
          rw [symsByArgs_cons, List.append_assoc] at hreads
          have hmem : ∀ l ∈ q.leaves, l ∈ (TermTree.node f args : CpTerm).leaves := fun l hl =>
            TermTree.mem_leaves_node.mpr ⟨q, hq, hl⟩
          obtain ⟨σ₁, bound₁, hhead, hb₁, hreads₁⟩ := ih q hq
            (hnums.imp_left fun h l hl => h l (hmem l hl)) (fun l hl => hother l (hmem l hl))
            (hargsar q hq) hVq hpos hstandc hc hb hapart.left hreads
          obtain ⟨σ', bound', htail, hb', hreads'⟩ := ihps hps cs (by omega : 0 < pos + c.size)
            (Nat.succ.inj hlen) hVps hcs hstandcs hb₁
            (hapart.right (thvmMatch_ids hhead).2) hreads₁
          refine ⟨σ', bound', (thvmMatchArgs_cons hhead).trans htail, hb', ?_⟩
          rw [List.map_cons, List.sum_cons, List.length_append]
          rwa [Nat.add_assoc, Nat.add_assoc] at hreads'
    obtain ⟨σ', bound', hmatch, hb', hreads'⟩ := hrest args (List.Subset.refl _) cs
      (by omega : 0 < pos + 1) (hlen.trans hlencs.symm) hV hPcs hstand.below hb hapart hreads
    refine ⟨σ', bound', ?_, hb', ?_⟩
    · rw [Acp.thvmMatch, if_neg (not_not.mpr rfl), if_neg (not_not.mpr (hlen.trans hlencs.symm))]
      exact hmatch
    · rwa [TermTree.size_node, ← Nat.add_assoc]

end

end Thvm.Atp.FvIndex
