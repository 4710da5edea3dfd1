import Thvm.Terms
import Thvm.ViewTrees

/-!
# Structural equality of terms

`term_eq_struct` compares two terms of one heap. It follows the cells of the nodes but neither
substitutions nor the cells of tensor operations.
-/

namespace Thvm

def termEqAtom (a b : Term) : Bool := a.tag = b.tag && a.ext = b.ext && a.val = b.val

/-- The loop of `term_eq_n` over `n` cells. -/
def termEqN (eq : Term → Term → Option Bool) (cells : ℕ → Term) : ℕ → ℕ → ℕ → Option Bool
  | _, _, 0 => some true
  | la, lb, n + 1 =>
    match eq (cells la) (cells lb) with
    | some true => termEqN eq cells (la + 1) (lb + 1) n
    | r => r

/-- `term_eq_struct`, with a bound on the depth of the calls. -/
def termEqStruct (cells : ℕ → Term) : ℕ → Term → Term → Option Bool
  | 0, _, _ => none
  | k + 1, a, b =>
    if a = b then some true
    else if a.tag ≠ b.tag then some false
    else match a.tag with
    | .era => some true
    | .num | .ten | .ref | .any | .fvr => some (termEqAtom a b)
    | .var => some (a.val = b.val)
    | .dp0 | .dp1 => some (a.ext = b.ext && a.val = b.val)
    | .lam => termEqStruct cells k (cells a.val) (cells b.val)
    | .app | .sup | .dup | .op2 | .mat | .eql | .and | .or | .when | .ann | .bri =>
      if a.ext ≠ b.ext then some false
      else termEqN (termEqStruct cells k) cells a.val b.val 2
    | .dsu | .ddu => termEqN (termEqStruct cells k) cells a.val b.val 3
    | .alo =>
      if (cells (a.val + 1)).val ≠ (cells (b.val + 1)).val then some false
      else termEqStruct cells k (cells a.val) (cells b.val)
    | .ctr =>
      if a.ext ≠ b.ext then some false
      else
        let na := (cells a.val).val % 2 ^ 32
        let nb := (cells b.val).val % 2 ^ 32
        if na ≠ nb then some false
        else termEqN (termEqStruct cells k) cells (a.val + 1) (b.val + 1) na
    | .uop => some (termEqAtom a b)
    | _ => some (a = b)

/-! ### The trees that are compared -/

/-- A leaf shows what the comparison looks at: nothing, the fields of an atom, the location of
a binder, or the whole word. -/
inductive EqLeaf where
  | era
  | atom (tag : Tag) (ext val : ℕ)
  | var (loc : ℕ)
  | proj (tag : Tag) (ext loc : ℕ)
  | raw (t : Term)
  deriving DecidableEq, Repr

/-- A node shows its tag, and of its extension and first cells what the comparison looks at. -/
inductive EqHead where
  | lam
  | fixed (tag : Tag) (ext : ℕ)
  | dyn (tag : Tag)
  | alo (state : ℕ)
  | ctr (label : ℕ)
  deriving DecidableEq, Repr

/-- One layer of a term, each node with exactly the children it owns. -/
def eqView (cells : ℕ → Term) (t : Term) : View EqLeaf EqHead Term :=
  match t.tag with
  | .era => .leaf .era
  | .num | .ten | .ref | .any | .fvr | .uop => .leaf (.atom t.tag t.ext t.val)
  | .var => .leaf (.var t.val)
  | .dp0 | .dp1 => .leaf (.proj t.tag t.ext t.val)
  | .lam => .node .lam [cells t.val]
  | .dup | .bri => .node (.fixed t.tag t.ext) [cells t.val]
  | .app | .sup | .op2 | .mat | .eql | .and | .or | .when | .ann =>
    .node (.fixed t.tag t.ext) [cells t.val, cells (t.val + 1)]
  | .dsu | .ddu => .node (.dyn t.tag) [cells t.val, cells (t.val + 1), cells (t.val + 2)]
  | .alo => .node (.alo (cells (t.val + 1)).val) [cells t.val]
  | .ctr => .node (.ctr t.ext)
    ((List.range' (t.val + 1) ((cells t.val).val % 2 ^ 32)).map cells)
  | _ => .leaf (.raw t)

/-- The locations that a layer is read from. -/
def ownCells (cells : ℕ → Term) (t : Term) : List ℕ :=
  match t.tag with
  | .lam | .dup | .bri => [t.val]
  | .app | .sup | .op2 | .mat | .eql | .and | .or | .when | .ann | .alo => [t.val, t.val + 1]
  | .dsu | .ddu => [t.val, t.val + 1, t.val + 2]
  | .ctr => t.val :: List.range' (t.val + 1) ((cells t.val).val % 2 ^ 32)
  | _ => []

abbrev EqTree := TermTree EqLeaf EqHead

def unfoldTerm (cells : ℕ → Term) (n : ℕ) (t : Term) : Option EqTree :=
  View.unfold (eqView cells) n t

/-- The node is of one of the kinds of which the comparison reads a cell too many. -/
def EqHead.Overread : EqHead → Prop
  | .fixed tag _ => tag = .dup ∨ tag = .bri
  | _ => False

/-- No node in the tree is a duplication or a bridge. -/
def EqTree.Plain (t : EqTree) : Prop := t.Every fun f _ ↦ ¬ f.Overread

section Spec

variable {cells : ℕ → Term} {k : ℕ} {a b : Term} {ta tb : EqTree}

def EqLeaf.tag : EqLeaf → Tag
  | .era => .era
  | .atom tag _ _ => tag
  | .var _ => .var
  | .proj tag _ _ => tag
  | .raw t => t.tag

def EqHead.tag : EqHead → Tag
  | .lam => .lam
  | .fixed tag _ => tag
  | .dyn tag => tag
  | .alo _ => .alo
  | .ctr _ => .ctr

/-- The tag of the term that a tree is unfolded from. -/
def EqTree.tag : EqTree → Tag
  | .leaf l => l.tag
  | .node f _ => f.tag

theorem tag_of_unfold (ha : unfoldTerm cells k a = some ta) : EqTree.tag ta = a.tag := by
  cases k with
  | zero => cases ha
  | succ k =>
    obtain ⟨sub, tag, ext, val⟩ := a
    rcases View.unfold_succ.1 ha with ⟨l, hview, rfl⟩ | ⟨f, kids, ts, hview, -, rfl⟩
    · cases tag <;> cases hview <;> rfl
    · cases tag <;> cases hview <;> rfl

/-- The comparison of two lists of terms, left to right up to the first difference. -/
def eqAll (eq : Term → Term → Option Bool) : List Term → List Term → Option Bool
  | a :: as, b :: bs =>
    match eq a b with
    | some true => eqAll eq as bs
    | r => r
  | _, _ => some true

theorem eqAll_singleton (eq : Term → Term → Option Bool) (a b : Term) :
    eqAll eq [a] [b] = eq a b := by
  rw [eqAll]
  rcases eq a b with _ | _ | _ <;> rfl

theorem termEqN_eq (eq : Term → Term → Option Bool) (cells : ℕ → Term) (la lb n : ℕ) :
    termEqN eq cells la lb n =
      eqAll eq ((List.range' la n).map cells) ((List.range' lb n).map cells) := by
  induction n generalizing la lb with
  | zero => rfl
  | succ n ih =>
    rw [termEqN, ih, List.range'_succ, List.range'_succ]
    rfl

/-- One layer of the comparison, by the views of the two terms. -/
def eqLayers (eq : Term → Term → Option Bool) :
    View EqLeaf EqHead Term → View EqLeaf EqHead Term → Option Bool
  | .leaf l, .leaf l' => some (l = l')
  | .node f as, .node g bs =>
    if f = g ∧ as.length = bs.length then eqAll eq as bs else some false
  | _, _ => some false

/-- The head of a view is none of a duplication or a bridge. -/
def PlainView : View EqLeaf EqHead Term → Prop
  | .leaf _ => True
  | .node f _ => ¬ f.Overread

theorem termEqStruct_succ (hab : a ≠ b) (htag : a.tag = b.tag)
    (hplain : PlainView (eqView cells a)) : termEqStruct cells (k + 1) a b =
      eqLayers (termEqStruct cells k) (eqView cells a) (eqView cells b) := by
  obtain ⟨sa, tag, ea, va⟩ := a
  obtain ⟨sb, tag', eb, vb⟩ := b
  obtain rfl : tag = tag' := htag
  rw [termEqStruct, if_neg hab, if_neg (not_not_intro rfl)]
  cases tag
  case dup | bri => simp [eqView, PlainView, EqHead.Overread] at hplain
  case ctr =>
    by_cases hext : ea = eb
    · by_cases hn : (cells va).val % 2 ^ 32 = (cells vb).val % 2 ^ 32
      · simp [eqView, eqLayers, termEqN_eq, hext, hn, -Nat.reducePow]
      · simp [eqView, eqLayers, hext, hn, -Nat.reducePow]
    · simp [eqView, eqLayers, hext]
  all_goals
    simp [eqView, eqLayers, termEqAtom, termEqN_eq, eqAll_singleton, List.range'_succ]

/-- The comparison of two terms is exact where both unfold to plain trees. -/
def Exact (cells : ℕ → Term) (k : ℕ) (eq : Term → Term → Option Bool) : Prop :=
  ∀ {a b : Term} {ta tb : EqTree}, unfoldTerm cells k a = some ta →
    unfoldTerm cells k b = some tb → ta.Plain → tb.Plain → eq a b = some (decide (ta = tb))

theorem eqAll_spec {eq : Term → Term → Option Bool} (heq : Exact cells k eq) {as bs : List Term}
    (hlen : as.length = bs.length) {ts us : List EqTree}
    (has : as.mapM (unfoldTerm cells k) = some ts) (hbs : bs.mapM (unfoldTerm cells k) = some us)
    (hpa : ∀ t ∈ ts, EqTree.Plain t) (hpb : ∀ t ∈ us, EqTree.Plain t) :
    eqAll eq as bs = some (decide (ts = us)) := by
  induction as generalizing bs ts us with
  | nil =>
    obtain rfl := List.length_eq_zero_iff.1 hlen.symm
    obtain rfl : [] = ts := Option.some.inj has
    obtain rfl : [] = us := Option.some.inj hbs
    rfl
  | cons a as ih =>
    obtain ⟨b, bs, rfl⟩ := List.exists_cons_of_length_eq_add_one hlen.symm
    obtain ⟨t, ts, ht, has', rfl⟩ := View.mapM_cons_some.1 has
    obtain ⟨u, us, hu, hbs', rfl⟩ := View.mapM_cons_some.1 hbs
    have hhead := heq ht hu (hpa t List.mem_cons_self) (hpb u List.mem_cons_self)
    have htail := ih (Nat.succ.inj hlen) has' hbs' (fun t ht ↦ hpa t (List.mem_cons_of_mem _ ht))
      fun t ht ↦ hpb t (List.mem_cons_of_mem _ ht)
    rw [eqAll, hhead]
    by_cases h : t = u
    · simp [h, htail]
    · simp [h]

theorem plainView_of_unfold (ha : unfoldTerm cells k a = some ta) (hpa : ta.Plain) :
    PlainView (eqView cells a) := by
  cases k with
  | zero => cases ha
  | succ k =>
    rcases View.unfold_succ.1 ha with ⟨l, hview, -⟩ | ⟨f, kids, ts, hview, -, rfl⟩
    · rw [hview]
      trivial
    · rw [hview]
      exact (TermTree.every_node.1 hpa).1

/-- The comparison is exact on plain trees with at most `k` layers. -/
theorem termEqStruct_spec (cells : ℕ → Term) (k : ℕ) : Exact cells k (termEqStruct cells k) := by
  induction k with
  | zero => exact fun ha ↦ by cases ha
  | succ k ih =>
    intro a b ta tb ha hb hpa hpb
    by_cases hab : a = b
    · subst hab
      rw [Option.some.inj (ha.symm.trans hb)]
      simp [termEqStruct]
    by_cases htag : a.tag = b.tag
    · rw [termEqStruct_succ hab htag (plainView_of_unfold ha hpa)]
      rcases View.unfold_succ.1 ha with ⟨l, hva, rfl⟩ | ⟨f, as, ts, hva, has, rfl⟩
      · rcases View.unfold_succ.1 hb with ⟨l', hvb, rfl⟩ | ⟨g, bs, us, hvb, -, rfl⟩
        · simp [hva, hvb, eqLayers]
        · simp [hva, hvb, eqLayers]
      · rcases View.unfold_succ.1 hb with ⟨l', hvb, rfl⟩ | ⟨g, bs, us, hvb, hbs, rfl⟩
        · simp [hva, hvb, eqLayers]
        · rw [hva, hvb, eqLayers]
          split_ifs with hsame
          · rw [eqAll_spec ih hsame.2 has hbs (fun t ht ↦ (TermTree.every_node.1 hpa).2 t ht)
              fun t ht ↦ (TermTree.every_node.1 hpb).2 t ht]
            simp [hsame.1]
          · have hne : ¬ (f = g ∧ ts = us) := by
              rintro ⟨hf, rfl⟩
              exact hsame ⟨hf, (View.length_of_mapM has).symm.trans (View.length_of_mapM hbs)⟩
            simp [hne]
    · have hne : ta ≠ tb := fun h ↦ htag (by rw [← tag_of_unfold ha, ← tag_of_unfold hb, h])
      simp [termEqStruct, hab, htag, hne]

/-- A layer depends on the cells that the term owns only. -/
theorem eqView_congr {cells' : ℕ → Term} (h : ∀ loc ∈ ownCells cells a, cells' loc = cells loc) :
    eqView cells' a = eqView cells a := by
  obtain ⟨sa, tag, ea, va⟩ := a
  cases tag
  case ctr =>
    have harity : cells' va = cells va := h va List.mem_cons_self
    have hkids : ∀ loc ∈ List.range' (va + 1) ((cells va).val % 2 ^ 32), cells' loc = cells loc :=
      fun loc hloc ↦ h loc (List.mem_cons_of_mem _ hloc)
    simp only [eqView, harity, List.map_congr_left hkids]
  all_goals simp_all [eqView, ownCells]

/-- A cell that a term owns, at the top or below. -/
def Owns (cells : ℕ → Term) : Term → ℕ → Prop := View.Shows (eqView cells) (ownCells cells)

theorem unfoldTerm_congr {cells' : ℕ → Term} (h : ∀ loc, Owns cells a loc → cells' loc = cells loc)
    (ha : unfoldTerm cells k a = some ta) : unfoldTerm cells' k a = some ta := by
  have hviews : ∀ t, (∀ loc ∈ ownCells cells t, cells' loc = cells loc) →
      eqView cells' t = eqView cells t := fun _ ↦ eqView_congr
  exact View.unfold_congr hviews h ha

end Spec

instance : DecidablePred EqHead.Overread := fun f ↦ by
  unfold EqHead.Overread
  cases f <;> infer_instance

instance (t : EqTree) : Decidable t.Plain :=
  inferInstanceAs (Decidable (t.Every fun f _ ↦ ¬ f.Overread))

/-- A variable or a projection whose cell holds a substitution stands for what was
substituted. -/
def followSubst (cells : ℕ → Term) (t : Term) : Term :=
  if (t.tag = .var ∨ t.tag = .dp0 ∨ t.tag = .dp1) ∧ (cells t.val).sub then
    { cells t.val with sub := false }
  else t

/-- The cell of a binder for which a number has been substituted. -/
def substCells (loc : ℕ) : Term := if loc = 1 then termNew true .num dtInt32 7 else .zero

/-- Numbers that are the same up to the fourth. -/
def bridgeCells (loc : ℕ) : Term := if loc = 4 then termNum 8 else termNum 7

end Thvm
