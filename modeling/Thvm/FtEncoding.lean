import Thvm.FtMatching
import Thvm.FtScratchSpec
import Thvm.ThreadedForests

/-!
# Terms and the cells that stand for them

A term over variables and constructors is encoded at a cell when its tree stands there, also
inside a longer chain; the arguments of a node are encoded one behind the other. The
bindings of both sides correspond when they bind the same variables to a term and to a cell
that encodes it.
-/

namespace Thvm.Ft

open ThreadedTrees

variable {m m' : FtMemory} {U V : Set Addr} {p q : Addr} {o : Option Addr} {rest as : List Addr}
  {s t : FTerm} {ts : List FTerm} {f id n : ℕ} {args : List FTerm} {c d : FtCell}

/-- Variables below `REWRITE_MAX_VAR` and constructors with at most `REWRITE_MAX_ARITY`
arguments, with the labels of the term layer. -/
structure Plain (t : FTerm) : Prop where
  vars : t.VarsBelow rewriteMaxVar
  arity : t.ArityCapped
  labels : t.Every fun label _ => label < 2 ^ 18
  numberFree : NumberFree t

theorem plain_fvr (hid : id < rewriteMaxVar) : Plain (.fvr id) where
  vars x hx := by
    obtain rfl : x = id := by simpa using hx
    exact hid
  arity := .leaf _
  labels := .leaf _
  numberFree d v hv := by simp at hv

theorem Plain.fvr_lt (h : Plain (.fvr id)) : id < rewriteMaxVar := h.vars id (by simp)

theorem plain_ctr : Plain (.ctr f args) ↔
    f < 2 ^ 18 ∧ args.length ≤ rewriteMaxArity ∧ ∀ a ∈ args, Plain a := by
  constructor
  · rintro ⟨hvars, harity, hlabels, hfree⟩
    obtain ⟨hlen, harity⟩ := TermTree.every_node.mp harity
    obtain ⟨hf, hlabels⟩ := TermTree.every_node.mp hlabels
    refine ⟨hf, hlen, fun a ha => ⟨fun id hid => ?_, harity a ha, hlabels a ha, fun d v hv => ?_⟩⟩
    · exact hvars id (TermTree.mem_leaves_node.mpr ⟨a, ha, hid⟩)
    · exact hfree d v (TermTree.mem_leaves_node.mpr ⟨a, ha, hv⟩)
  · rintro ⟨hf, hlen, hargs⟩
    refine ⟨fun id hid => ?_, TermTree.every_node.mpr ⟨hlen, fun a ha => (hargs a ha).arity⟩,
      TermTree.every_node.mpr ⟨hf, fun a ha => (hargs a ha).labels⟩, fun d v hv => ?_⟩
    · obtain ⟨a, ha, hid⟩ := TermTree.mem_leaves_node.mp hid
      exact (hargs a ha).vars id hid
    · obtain ⟨a, ha, hv⟩ := TermTree.mem_leaves_node.mp hv
      exact (hargs a ha).numberFree d v hv

/-- Induction over the variables and constructors. -/
@[elab_as_elim]
theorem Plain.induct {motive : FTerm → Prop} (fvr : ∀ id, id < rewriteMaxVar → motive (.fvr id))
    (ctr : ∀ f args, Plain (.ctr f args) → (∀ a ∈ args, motive a) → motive (.ctr f args))
    (h : Plain t) : motive t := by
  induction t using TermTree.induct with
  | leaf l =>
    cases l with
    | fvr id => exact fvr id h.fvr_lt
    | num d v => exact absurd (by simp) (h.numberFree d v)
  | node f args ih => exact ctr f args h fun a ha => ih a ha ((plain_ctr.mp h).2.2 a ha)

theorem Plain.inFormat (h : Plain t) : InFormat t where
  vars id hid := by
    have := h.vars id hid
    rw [rewriteMaxVar] at this
    omega
  nums d v hv := absurd hv (h.numberFree d v)
  labels := h.labels

theorem Plain.encodable (h : Plain t) : Encodable t where
  nums d v hv := absurd hv (h.numberFree d v)
  arity := by
    refine h.arity.imp fun _ n hn => ?_
    rw [rewriteMaxArity] at hn
    omega

theorem cellTree_fvr (hid : id < rewriteMaxVar) : cellTree (.fvr id) = .leaf id := by
  rw [cellTree, Nat.mod_eq_of_lt (by rw [rewriteMaxVar] at hid; rw [varBit]; omega)]

theorem cellTree_ctr (h : Plain (.ctr f args)) :
    cellTree (.ctr f args) = .node f (args.map cellTree) := by
  obtain ⟨hf, hlen, -⟩ := plain_ctr.mp h
  rw [rewriteMaxArity] at hlen
  rw [cellTree, cellTrees_eq, Nat.mod_eq_of_lt (by rw [varBit]; omega),
    Nat.mod_eq_of_lt (by omega), List.take_of_length_le (by rw [List.length_map])]

theorem Plain.treeTerm_cellTree (h : Plain t) : treeTerm (cellTree t) = t := by
  rw [Ft.treeTerm_cellTree h.inFormat, (narrow_eq_iff h.inFormat).mpr h.encodable]

theorem cellTree_inj (hs : Plain s) (ht : Plain t) : cellTree s = cellTree t ↔ s = t := by
  constructor
  · intro heq
    rw [← hs.treeTerm_cellTree, ← ht.treeTerm_cellTree, heq]
  · rintro rfl
    rfl

theorem isVar_of_leaf (h : ftCoding.leaf id c.data) : ftIsVar c = true ∧ ftSym c = id := by
  obtain ⟨hid, hsym, -⟩ := h
  rw [ftIsVar, ftSym, hsym]
  constructor
  · rw [varBit, Nat.testBit_two_pow_add_eq, Nat.testBit_lt_two_pow hid]
    rfl
  · rw [Nat.add_mod_left, Nat.mod_eq_of_lt hid]

theorem isVar_of_node {k : ℕ} (h : ftCoding.node f k c.data) :
    ftIsVar c = false ∧ ftSym c = f ∧ c.data.sym = f ∧ c.data.arity = k := by
  obtain ⟨hlt, hsym, harity⟩ := h
  refine ⟨?_, ?_, hsym, harity⟩
  · rw [ftIsVar, hsym, Nat.testBit_lt_two_pow hlt]
  · rw [ftSym, hsym, Nat.mod_eq_of_lt hlt]

/-- The term is encoded in the cells from `p` on. -/
structure Encodes (m : FtMemory) (U : Set Addr) (p : Addr) (t : FTerm) : Prop where
  standing : Standing ftCoding m U p (cellTree t)
  plain : Plain t

/-- The terms are encoded one behind the other, with the cells of `rest` behind them. -/
structure Encodings (m : FtMemory) (U : Set Addr) (o : Option Addr) (ts : List FTerm)
    (rest : List Addr) : Prop where
  forest : Forest ftCoding m U o (ts.map cellTree) rest
  plain : ∀ t ∈ ts, Plain t

theorem Encodes.congr (h : Encodes m U p t) (hsub : U ⊆ V) (hsame : ∀ q ∈ U, m' q = m q) :
    Encodes m' V p t := ⟨h.standing.congr hsub hsame, h.plain⟩

theorem Encodes.source (h : Encodes m U p t) : Source m U p (cellTree t) := h.standing.threaded

theorem Encodes.fvr (h : Encodes m U p (.fvr id)) :
    ∃ c, m p = some c ∧ ftIsVar c = true ∧ ftSym c = id ∧ id < rewriteMaxVar := by
  have hid := h.plain.fvr_lt
  obtain ⟨c, hc, hl⟩ := (cellTree_fvr hid ▸ h.standing).leaf
  obtain ⟨hvar, hsym⟩ := isVar_of_leaf hl
  exact ⟨c, hc, hvar, hsym, hid⟩

theorem Encodes.ctr (h : Encodes m U p (.ctr f args)) : ∃ c rest, m p = some c ∧
    ftIsVar c = false ∧ c.data.sym = f ∧ c.data.arity = args.length ∧
    Encodings m U c.next args rest := by
  obtain ⟨c, rest, hc, hnode, hargs⟩ := (cellTree_ctr h.plain ▸ h.standing).node
  obtain ⟨hvar, -, hsym, harity⟩ := isVar_of_node hnode
  rw [List.length_map] at harity
  exact ⟨c, rest, hc, hvar, hsym, harity, hargs, (plain_ctr.mp h.plain).2.2⟩

/-- The first term on its own, and the terms behind it. -/
theorem Encodings.skip (h : Encodings m U o (t :: ts) rest) : ∃ p o', o = some p ∧
    Encodes m U p t ∧ behind m p = some o' ∧ Encodings m U o' ts rest := by
  obtain ⟨p, c, e, rest', rfl, hc, he, hfirst, -, hrest⟩ := h.forest.skip
  refine ⟨p, e.next, rfl, ⟨⟨rest', hfirst⟩, h.plain t List.mem_cons_self⟩, ?_, hrest,
    fun u hu => h.plain u (List.mem_cons_of_mem t hu)⟩
  rw [behind, hc, Option.bind_eq_bind, Option.bind_some, he]
  rfl

theorem Encodings.nil (h : Encodings m U o [] rest) : o = rest.head? := h.forest.nil

theorem Encodings.cons (h : Encodings m U o (t :: ts) rest) : o ≠ rest.head? :=
  h.forest.cons.choose_spec.choose_spec.2.2

/-- A step onto a variable. -/
theorem Encodings.fvr (h : Encodings m U o (.fvr id :: ts) rest) : ∃ p c, o = some p ∧
    m p = some c ∧ ftIsVar c = true ∧ ftSym c = id ∧ id < rewriteMaxVar ∧
    Encodings m U c.next ts rest := by
  have hid := (h.plain _ List.mem_cons_self).fvr_lt
  have hforest := h.forest
  rw [List.map_cons, cellTree_fvr hid] at hforest
  obtain ⟨p, c, ho, hc, hl, hrest⟩ := hforest.leaf
  obtain ⟨hvar, hsym⟩ := isVar_of_leaf hl
  exact ⟨p, c, ho, hc, hvar, hsym, hid, hrest, fun u hu => h.plain u (List.mem_cons_of_mem _ hu)⟩

/-- A step onto a constructor. -/
theorem Encodings.ctr (h : Encodings m U o (.ctr f args :: ts) rest) : ∃ p c, o = some p ∧
    m p = some c ∧ ftIsVar c = false ∧ c.data.sym = f ∧ c.data.arity = args.length ∧
    Encodings m U c.next (args ++ ts) rest := by
  have hplain := h.plain _ List.mem_cons_self
  have hforest := h.forest
  rw [List.map_cons, cellTree_ctr hplain] at hforest
  obtain ⟨p, c, ho, hc, hnode, hrest⟩ := hforest.node
  obtain ⟨hvar, -, hsym, harity⟩ := isVar_of_node hnode
  rw [List.length_map] at harity
  rw [← List.map_append] at hrest
  refine ⟨p, c, ho, hc, hvar, hsym, harity, hrest, fun u hu => ?_⟩
  rcases List.mem_append.mp hu with hu | hu
  · exact (plain_ctr.mp hplain).2.2 u hu
  · exact h.plain u (List.mem_cons_of_mem _ hu)

/-- A cell encodes at most one term. -/
theorem Encodes.unique (h : Encodes m U p s) (h' : Encodes m V p t) : s = t := by
  obtain ⟨as, hs, -⟩ := h.source
  obtain ⟨bs, ht, -⟩ := h'.source
  have hread := ftToTerm_spec hs (Nat.le_add_right _ (cellTree t).size)
  rw [ftToTerm_spec ht (Nat.le_add_left _ _), h.plain.treeTerm_cellTree,
    h'.plain.treeTerm_cellTree] at hread
  exact (Option.some.inj hread).symm

theorem ftEqLoop_step {xEnd : Option Addr} (e e' : ℕ ⊕ ℕ × ℕ) (hexit : some p ≠ xEnd)
    (hc : m p = some c) (hd : m q = some d) (he : ftCoding.head e c.data)
    (he' : ftCoding.head e' d.data) : ftEqLoop m xEnd (n + 1) (some p) (some q) =
      if e = e' then ftEqLoop m xEnd n c.next d.next else some false := by
  have hinj := head_inj he he'
  rw [ftEqLoop, if_neg hexit]
  simp only [Option.bind_eq_bind, Option.bind_some, hc, hd]
  by_cases heq : e = e'
  · obtain ⟨hsym, harity⟩ := hinj.mpr heq
    rw [if_neg (by simp [hsym, harity]), if_pos heq]
  · rw [if_pos (by rwa [← not_and_or, hinj]), if_neg heq]

/-- The lockstep walk of `ft_eq` compares the trees in front of which it stands. -/
theorem ftEqLoop_forest {xs ys : List CellTree} {px py : Option Addr} {restx resty : List Addr}
    (hlen : xs.length = ys.length) (hx : Forest ftCoding m U px xs restx)
    (hy : Forest ftCoding m V py ys resty) (hn : (xs.map TermTree.size).sum < n) :
    ftEqLoop m restx.head? n px py = some (decide (xs = ys)) := by
  induction xs using TermTree.forest_induct generalizing ys px py n with
  | nil =>
    obtain rfl := List.length_eq_zero_iff.mp hlen.symm
    obtain ⟨n, rfl⟩ := Nat.exists_eq_succ_of_ne_zero (Nat.ne_of_gt hn)
    cases py <;> rw [ftEqLoop, if_pos hx.nil] <;> rfl
  | leaf l xs ih =>
    rw [List.map_cons, List.sum_cons, TermTree.size_leaf] at hn
    obtain ⟨n, rfl⟩ := Nat.exists_eq_succ_of_ne_zero (Nat.ne_zero_of_lt hn)
    obtain ⟨-, -, -, -, hexit⟩ := hx.cons
    obtain ⟨p, c, rfl, hc, hl, hx⟩ := hx.leaf
    cases ys with
    | nil => cases hlen
    | cons y ys =>
      cases y with
      | leaf l' =>
        obtain ⟨q, d, rfl, hd, hl', hy⟩ := hy.leaf
        rw [ftEqLoop_step (.inl l) (.inl l') hexit hc hd hl hl',
          ih (Nat.succ.inj hlen) hx hy (by omega)]
        by_cases heq : l = l' <;> simp [heq]
      | node g bs =>
        obtain ⟨q, d, rfl, hd, hnode, -⟩ := hy.node
        rw [ftEqLoop_step (.inl l) (.inr (g, bs.length)) hexit hc hd hl hnode]
        simp
  | node f args xs _ ih =>
    rw [List.map_cons, List.sum_cons, TermTree.size_node] at hn
    obtain ⟨n, rfl⟩ := Nat.exists_eq_succ_of_ne_zero (Nat.ne_zero_of_lt hn)
    obtain ⟨-, -, -, -, hexit⟩ := hx.cons
    obtain ⟨p, c, rfl, hc, hnode, hx⟩ := hx.node
    cases ys with
    | nil => cases hlen
    | cons y ys =>
      cases y with
      | leaf l =>
        obtain ⟨q, d, rfl, hd, hl, -⟩ := hy.leaf
        rw [ftEqLoop_step (.inr (f, args.length)) (.inl l) hexit hc hd hnode hl]
        simp
      | node g bs =>
        obtain ⟨q, d, rfl, hd, hnode', hy'⟩ := hy.node
        rw [ftEqLoop_step (.inr (f, args.length)) (.inr (g, bs.length)) hexit hc hd
          hnode hnode']
        by_cases heq : f = g ∧ args.length = bs.length
        · obtain ⟨rfl, hargs⟩ := heq
          have hall : args ++ xs = bs ++ ys ↔ args = bs ∧ xs = ys :=
            ⟨fun heq => List.append_inj heq hargs, fun heq => by rw [heq.1, heq.2]⟩
          have hlens : (args ++ xs).length = (bs ++ ys).length := by
            rw [List.length_append, List.length_append, hargs, Nat.succ.inj hlen]
          have hsize : ((args ++ xs).map TermTree.size).sum < n := by
            rw [List.map_append, List.sum_append]
            omega
          rw [hargs, if_pos rfl, ih hlens hx hy' hsize]
          simp [hall]
        · rw [if_neg (by simpa using heq)]
          have hne : ¬(f = g ∧ args = bs) := fun h => heq ⟨h.1, congrArg List.length h.2⟩
          simp [hne]

/-- `ft_eq` decides equality, also of subterms of longer chains. -/
theorem ftEq_encodes (hs : Encodes m U p s) (ht : Encodes m V q t)
    (hn : (cellTree s).size < n) : ftEq m n p q = some (decide (s = t)) := by
  by_cases hpq : p = q
  · subst hpq
    rw [ftEq, if_pos rfl, hs.unique ht, decide_eq_true rfl]
  · obtain ⟨restx, hx⟩ := hs.standing
    obtain ⟨resty, hy⟩ := ht.standing
    obtain ⟨_, c, e, rest', ho, hc, he, -, -, hexit⟩ := hx.skip
    cases ho
    rw [ftEq, if_neg hpq, hc]
    simp only [Option.bind_eq_bind, Option.bind_some, he]
    have hlen : [cellTree s].length = [cellTree t].length := rfl
    rw [hexit.nil, ftEqLoop_forest hlen hx hy (by simpa using hn)]
    simp [cellTree_inj hs.plain ht.plain]

section Rel

variable {α β : Type} {R : α → β → Prop} {a : Option α} {b : Option β}

theorem rel_left {x : α} (h : Option.Rel R a b) (ha : a = some x) : ∃ y, b = some y ∧ R x y := by
  subst ha
  cases h with
  | some h => exact ⟨_, rfl, h⟩

theorem rel_right {y : β} (h : Option.Rel R a b) (hb : b = some y) : ∃ x, a = some x ∧ R x y := by
  subst hb
  cases h with
  | some h => exact ⟨_, rfl, h⟩

theorem rel_none (h : Option.Rel R a b) (hb : b = none) : a = none := by
  subst hb
  cases h
  rfl

end Rel

/-- The bindings of both sides are for the same variables. -/
def Corresponds (m : FtMemory) (U : Set Addr) (s : Bindings) (b : ℕ → Option FTerm) : Prop :=
  ∀ id, Option.Rel (Encodes m U) (s id) (b id)

theorem Corresponds.congr {s : Bindings} {b : ℕ → Option FTerm} (h : Corresponds m U s b)
    (hsub : U ⊆ V) (hsame : ∀ q ∈ U, m' q = m q) : Corresponds m' V s b := by
  intro id
  have := h id
  revert this
  generalize s id = x
  generalize b id = y
  rintro (h | _)
  · exact .some (h.congr hsub hsame)
  · exact .none

theorem Corresponds.free {s : Bindings} {b : ℕ → Option FTerm} (h : Corresponds m U s b)
    (hid : b id = none) : s id = none := rel_none (h id) hid

theorem Corresponds.bound {s : Bindings} {b : ℕ → Option FTerm} (h : Corresponds m U s b)
    (hid : b id = some t) : ∃ p, s id = some p ∧ Encodes m U p t := rel_right (h id) hid

theorem Corresponds.update {s : Bindings} {b : ℕ → Option FTerm} (h : Corresponds m U s b)
    (id : ℕ) (hp : Encodes m U p t) :
    Corresponds m U (Function.update s id (some p)) (Function.update b id (some t)) := by
  intro x
  by_cases hx : x = id
  · subst hx
    rw [Function.update_self, Function.update_self]
    exact .some hp
  · rw [Function.update_of_ne hx, Function.update_of_ne hx]
    exact h x

end Thvm.Ft
