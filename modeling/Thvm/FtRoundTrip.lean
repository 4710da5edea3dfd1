import Thvm.FtTermsSpec
import Thvm.LinkedLists

/-!
# Flat terms read back

Reading, comparing and hashing the cells of a term amounts to functions of the tree that the
cells stand for. The tree keeps the term up to the widths of the cells.
-/

namespace Thvm.Ft

open ThreadedTrees

variable {moves : ℕ → Bool} {a : AtpFt} {U : Set Addr} {m : FtMemory} {p : Addr} {n : ℕ}
  {scratch : Bool} {t : CellTree} {args : List CellTree} {as : List Addr} {c : FtCell}

/-- The symbol of the first cell. -/
def rootSym : CellTree → ℕ
  | .leaf id => id
  | .node sym _ => sym

/-- The symbol of the first cell of an argument. -/
def argSym (args : List CellTree) (i : ℕ) : ℕ := (args[i]?.map rootSym).getD 0

mutual

/-- The term that `ft_to_term` reads from the cells of a tree. -/
def treeTerm : CellTree → FTerm
  | .leaf id => .fvr (id % 2 ^ 18)
  | .node sym args =>
    if sym = numMarker ∧ args.length = 2 then
      .num (argSym args 0 % 2 ^ 18) (argSym args 1 % 2 ^ 38)
    else .ctr (sym % 2 ^ 18) (treeTerms args)

def treeTerms : List CellTree → List FTerm
  | [] => []
  | t :: ts => treeTerm t :: treeTerms ts

end

mutual

/-- The hash that `ft_hash` finds for a tree. -/
def treeHash : CellTree → ℕ
  | .leaf id => fvrTag ^^^ id * fnvPrime % 2 ^ 64
  | .node sym args => mixArgs sym (treeHashes args) ^^^ args.length * arityMix % 2 ^ 64

def treeHashes : List CellTree → List ℕ
  | [] => []
  | t :: ts => treeHash t :: treeHashes ts

end

mutual

/-- The term without what the cells have no room for: the top bit of a number, and the
arguments beyond a number that fits 16 bits. -/
def narrow : FTerm → FTerm
  | .leaf (.fvr id) => .leaf (.fvr id)
  | .leaf (.num dtype value) => .leaf (.num dtype (value % varBit))
  | .node label args => .node label ((narrows args).take (args.length % 2 ^ 16))

def narrows : List FTerm → List FTerm
  | [] => []
  | t :: ts => narrow t :: narrows ts

end

theorem treeTerms_eq (args : List CellTree) : treeTerms args = args.map treeTerm := by
  induction args with
  | nil => rfl
  | cons a args ih => rw [treeTerms, ih, List.map_cons]

theorem treeHashes_eq (args : List CellTree) : treeHashes args = args.map treeHash := by
  induction args with
  | nil => rfl
  | cons a args ih => rw [treeHashes, ih, List.map_cons]

theorem narrows_eq (args : List FTerm) : narrows args = args.map narrow := by
  induction args with
  | nil => rfl
  | cons a args ih => rw [narrows, ih, List.map_cons]

theorem structHashes_eq (args : List FTerm) : structHashes args = args.map atpTermStructHash := by
  induction args with
  | nil => rfl
  | cons a args ih => rw [structHashes, ih, List.map_cons]

/-- What the term layer builds: its fields have these widths. -/
structure InFormat (t : FTerm) : Prop where
  vars : ∀ id, Leaf.fvr id ∈ t.leaves → id < 2 ^ 18
  nums : ∀ dtype value, Leaf.num dtype value ∈ t.leaves → dtype < 2 ^ 18 ∧ value < 2 ^ 32
  labels : t.Every fun label _ => label < 2 ^ 18

/-- The numbers and the numbers of arguments fit their cells. -/
structure Encodable (t : FTerm) : Prop where
  nums : ∀ dtype value, Leaf.num dtype value ∈ t.leaves → value < 2 ^ 31
  arity : t.Every fun _ n => n < 2 ^ 16

/-- Variables and constructors only. -/
def NumberFree (t : FTerm) : Prop := ∀ dtype value, Leaf.num dtype value ∉ t.leaves

theorem InFormat.arg {f : ℕ} {args : List FTerm} (h : InFormat (.node f args)) {b : FTerm}
    (hb : b ∈ args) : InFormat b where
  vars id hid := h.vars id (TermTree.mem_leaves_node.mpr ⟨b, hb, hid⟩)
  nums d v hv := h.nums d v (TermTree.mem_leaves_node.mpr ⟨b, hb, hv⟩)
  labels := (TermTree.every_node.mp h.labels).2 b hb

theorem encodable_node {f : ℕ} {args : List FTerm} :
    Encodable (.node f args) ↔ args.length < 2 ^ 16 ∧ ∀ b ∈ args, Encodable b := by
  constructor
  · intro h
    refine ⟨(TermTree.every_node.mp h.arity).1, fun b hb => ⟨fun d v hv => ?_, ?_⟩⟩
    · exact h.nums d v (TermTree.mem_leaves_node.mpr ⟨b, hb, hv⟩)
    · exact (TermTree.every_node.mp h.arity).2 b hb
  · rintro ⟨hlen, hargs⟩
    refine ⟨fun d v hv => ?_, TermTree.every_node.mpr ⟨hlen, fun b hb => (hargs b hb).arity⟩⟩
    obtain ⟨b, hb, hv⟩ := TermTree.mem_leaves_node.mp hv
    exact (hargs b hb).nums d v hv

theorem map_eq_self {f : FTerm → FTerm} {args : List FTerm} :
    args.map f = args ↔ ∀ b ∈ args, f b = b := by
  conv_lhs => rhs; rw [← List.map_id args]
  exact List.map_inj_left

/-- Nothing is lost just when everything fits. -/
theorem narrow_eq_iff {t : FTerm} (ht : InFormat t) : narrow t = t ↔ Encodable t := by
  induction t using TermTree.induct with
  | leaf l =>
    cases l with
    | fvr id =>
      exact ⟨fun _ => ⟨fun d v hv => by simp at hv, .leaf _⟩, fun _ => rfl⟩
    | num d v =>
      have hv := (ht.nums d v (by simp)).2
      have hnarrow : narrow (.leaf (.num d v)) = .leaf (.num d (v % varBit)) := rfl
      rw [hnarrow, TermTree.leaf.injEq, Leaf.num.injEq]
      constructor
      · rintro ⟨-, hmod⟩
        refine ⟨fun d' v' hv' => ?_, .leaf _⟩
        obtain ⟨rfl, rfl⟩ : d' = d ∧ v' = v := by simpa using hv'
        have := mod_varBit_lt v'
        rw [hmod] at this
        exact this
      · intro h
        exact ⟨rfl, Nat.mod_eq_of_lt (h.nums d v (by simp))⟩
  | node f args ih =>
    have hargs : (∀ b ∈ args, narrow b = b) ↔ ∀ b ∈ args, Encodable b :=
      forall₂_congr fun b hb => ih b hb (ht.arg hb)
    rw [encodable_node, ← hargs, narrow, narrows_eq, TermTree.node.injEq]
    constructor
    · rintro ⟨-, htake⟩
      have hlen := congrArg List.length htake
      rw [List.length_take, List.length_map] at hlen
      have hsmall : args.length < 2 ^ 16 := by
        have := Nat.mod_lt args.length (show 0 < 2 ^ 16 by omega)
        omega
      rw [Nat.mod_eq_of_lt hsmall, List.take_of_length_le (by rw [List.length_map])] at htake
      exact ⟨hsmall, map_eq_self.mp htake⟩
    · rintro ⟨hsmall, hsame⟩
      refine ⟨rfl, ?_⟩
      rw [Nat.mod_eq_of_lt hsmall, List.take_of_length_le (by rw [List.length_map])]
      exact map_eq_self.mpr hsame

theorem treeTerm_cellTree {t : FTerm} (ht : InFormat t) : treeTerm (cellTree t) = narrow t := by
  induction t using TermTree.induct with
  | leaf l =>
    cases l with
    | fvr id =>
      have hid := ht.vars id (by simp)
      have hbit : id % varBit = id := Nat.mod_eq_of_lt (by rw [varBit]; omega)
      rw [cellTree, treeTerm, hbit, Nat.mod_eq_of_lt hid]
      rfl
    | num d v =>
      obtain ⟨hd, hv⟩ := ht.nums d v (by simp)
      have hdbit : d % varBit = d := Nat.mod_eq_of_lt (by rw [varBit]; omega)
      have hvbit : v % varBit % 2 ^ 38 = v % varBit := by
        have := mod_varBit_lt v
        rw [varBit] at this ⊢
        exact Nat.mod_eq_of_lt (by omega)
      rw [cellTree, treeTerm, if_pos ⟨rfl, rfl⟩, hdbit, Nat.mod_eq_of_lt hv]
      change FTerm.num (d % 2 ^ 18) (v % varBit % 2 ^ 38) = _
      rw [hvbit, Nat.mod_eq_of_lt hd]
      rfl
  | node f args ih =>
    have hf := (TermTree.every_node.mp ht.labels).1
    have hbit : f % varBit = f := Nat.mod_eq_of_lt (by rw [varBit]; omega)
    have hmarker : f ≠ numMarker := by
      rw [numMarker]
      omega
    rw [cellTree, treeTerm, hbit, if_neg (fun h => hmarker h.1), narrow, treeTerms_eq, cellTrees_eq,
      narrows_eq, Nat.mod_eq_of_lt hf, List.map_take, List.map_map]
    congr 2
    exact List.map_congr_left fun b hb => ih b hb (ht.arg hb)

theorem treeHash_cellTree {t : FTerm} (ht : InFormat t) (hfree : NumberFree t)
    (h : Encodable t) : treeHash (cellTree t) = atpTermStructHash t := by
  induction t using TermTree.induct with
  | leaf l =>
    cases l with
    | fvr id =>
      have hid := ht.vars id (by simp)
      have hbit : id % varBit = id := Nat.mod_eq_of_lt (by rw [varBit]; omega)
      rw [cellTree, treeHash, hbit]
      rfl
    | num d v => exact absurd (by simp) (hfree d v)
  | node f args ih =>
    have hf := (TermTree.every_node.mp ht.labels).1
    have hbit : f % varBit = f := Nat.mod_eq_of_lt (by rw [varBit]; omega)
    obtain ⟨hlen, hargs⟩ := encodable_node.mp h
    have hall : (cellTrees args).take (args.length % 2 ^ 16) = args.map cellTree := by
      rw [Nat.mod_eq_of_lt hlen, cellTrees_eq, List.take_of_length_le (by rw [List.length_map])]
    rw [cellTree, hall, treeHash, hbit, treeHashes_eq, atpTermStructHash, structHashes_eq,
      List.length_map, List.map_map]
    congr 2
    refine List.map_congr_left fun b hb => ih b hb (ht.arg hb) ?_ (hargs b hb)
    exact fun d v hv => hfree d v (TermTree.mem_leaves_node.mpr ⟨b, hb, hv⟩)

/-- The first cell of a variable. -/
theorem Threaded.leaf {id : ℕ} (h : Threaded ftCoding m (.leaf id) (p :: as)) :
    ∃ c, m p = some c ∧ ftIsVar c = true ∧ ftSym c = id := by
  obtain ⟨q, c, has, hc, ⟨hid, hsym, -⟩, -⟩ := h.shaped
  cases has
  refine ⟨c, hc, ?_, ?_⟩
  · rw [ftIsVar, hsym, varBit, Nat.testBit_two_pow_add_eq, Nat.testBit_lt_two_pow hid]
    rfl
  · rw [ftSym, hsym, Nat.add_mod_left, Nat.mod_eq_of_lt hid]

/-- The first cell of a node. -/
theorem Threaded.node {sym : ℕ} (h : Threaded ftCoding m (.node sym args) (p :: as)) :
    ∃ c, m p = some c ∧ ftIsVar c = false ∧ ftSym c = sym ∧ c.data.arity = args.length ∧
      (∀ q ∈ as.head?, c.next = some q) ∧ Row ftCoding m args as := by
  obtain ⟨q, c, rest, has, hc, ⟨hlt, hsym, harity⟩, hnext, hrow⟩ := h.arguments
  cases has
  refine ⟨c, hc, ?_, ?_, harity, hnext, hrow⟩
  · rw [ftIsVar, hsym, Nat.testBit_lt_two_pow hlt]
  · rw [ftSym, hsym, Nat.mod_eq_of_lt hlt]

theorem Threaded.rootSym (h : Threaded ftCoding m t (p :: as)) (hc : m p = some c) :
    ftSym c = rootSym t := by
  cases t with
  | leaf id =>
    obtain ⟨d, hd, -, hsym⟩ := Threaded.leaf h
    obtain rfl : d = c := Option.some.inj (hd.symm.trans hc)
    exact hsym
  | node sym args =>
    obtain ⟨d, hd, -, hsym, -⟩ := Threaded.node h
    obtain rfl : d = c := Option.some.inj (hd.symm.trans hc)
    exact hsym

theorem ftToTerm_spec (h : Threaded ftCoding m t (p :: as)) (hn : t.size ≤ n) :
    ftToTerm m n p = some (treeTerm t) := by
  induction t using TermTree.induct generalizing p as n with
  | leaf id =>
    obtain ⟨n, rfl⟩ := Nat.exists_eq_succ_of_ne_zero (show n ≠ 0 by
      rw [TermTree.size_leaf] at hn
      omega)
    obtain ⟨c, hc, hvar, hsym⟩ := Threaded.leaf h
    rw [ftToTerm, hc, Option.bind_eq_bind, Option.bind_some, if_pos hvar, hsym, treeTerm]
  | node sym args ih =>
    rw [TermTree.size_node] at hn
    obtain ⟨n, rfl⟩ := Nat.exists_eq_succ_of_ne_zero (show n ≠ 0 by omega)
    obtain ⟨c, hc, hvar, hsym, harity, hnext, hrow⟩ := Threaded.node h
    rw [ftToTerm, hc, Option.bind_eq_bind, Option.bind_some, if_neg (by simp [hvar]), hsym, harity,
      treeTerm]
    by_cases hmarker : sym = numMarker ∧ args.length = 2
    · -- the two constants below the marker
      have hcells := hrow.mapArgs (g := fun q => (m q).map ftSym) (v := rootSym)
        (fun b _ q rest hq => by
          obtain ⟨_, _, d, heq, hd, -⟩ := hq.shaped.root
          cases heq
          rw [hd, Option.map_some, Threaded.rootSym hq hd]) hnext
      obtain ⟨d, r, rfl⟩ := List.length_eq_two.mp hmarker.2
      simp only [List.length_cons, List.length_nil, mapArgs, Option.bind_eq_bind,
        Option.bind_eq_some_iff, Option.map_eq_some_iff] at hcells
      obtain ⟨q, hq, _, ⟨x, hx, rfl⟩, x', hx', e, he, _, hsecond, heq⟩ := hcells
      obtain ⟨q', hq', _, ⟨y, hy, rfl⟩, hrest⟩ := hsecond
      obtain rfl : x' = x := Option.some.inj (hx'.symm.trans hx)
      obtain ⟨y', hy', e', he', _, hnil, hlast⟩ := hrest
      cases hnil
      cases hlast
      obtain ⟨hd, hr⟩ : ftSym x' = rootSym d ∧ ftSym y = rootSym r := by simpa using heq
      rw [if_pos hmarker, if_pos hmarker]
      simp only [hq, hx, he, hq', hy, Option.bind_eq_bind, Option.bind_some, hd, hr]
      rfl
    · rw [if_neg hmarker, if_neg hmarker, treeTerms_eq]
      have hkids := hrow.mapArgs (g := ftToTerm m n) (v := treeTerm) (fun b hb q rest hq => by
        have hb' := TermTree.size_le_sum hb
        exact ih b hb hq (by omega)) hnext
      by_cases h0 : args.length = 0
      · obtain rfl := List.length_eq_zero_iff.mp h0
        rw [if_pos h0]
        rfl
      · rw [if_neg h0, hkids]
        rfl

theorem ftHash_spec (h : Threaded ftCoding m t (p :: as)) (hn : t.size ≤ n) :
    ftHash m n p = some (treeHash t) := by
  induction t using TermTree.induct generalizing p as n with
  | leaf id =>
    obtain ⟨n, rfl⟩ := Nat.exists_eq_succ_of_ne_zero (show n ≠ 0 by
      rw [TermTree.size_leaf] at hn
      omega)
    obtain ⟨c, hc, hvar, hsym⟩ := Threaded.leaf h
    rw [ftHash, hc, Option.bind_eq_bind, Option.bind_some, if_pos hvar, hsym, treeHash]
  | node sym args ih =>
    rw [TermTree.size_node] at hn
    obtain ⟨n, rfl⟩ := Nat.exists_eq_succ_of_ne_zero (show n ≠ 0 by omega)
    obtain ⟨c, hc, hvar, hsym, harity, hnext, hrow⟩ := Threaded.node h
    have hkids := hrow.mapArgs (g := ftHash m n) (v := treeHash) (fun b hb q rest hq => by
      have hb' := TermTree.size_le_sum hb
      exact ih b hb hq (by omega)) hnext
    rw [ftHash, hc, Option.bind_eq_bind, Option.bind_some, if_neg (by simp [hvar]), hsym, harity,
      treeHash, treeHashes_eq, hkids]
    rfl

/-- From this address on, the links run through these cells to the end. -/
def Runs (m : FtMemory) : Option Addr → List Addr → Prop :=
  LinkedLists.Path fun p => (m p).bind TreeCell.next

theorem Runs.tail {o : Option Addr} (h : Runs m o (p :: as)) (hc : m p = some c) :
    o = some p ∧ Runs m c.next as := by
  obtain ⟨ho, hrest⟩ := h
  change LinkedLists.Path _ ((m p).bind TreeCell.next) as at hrest
  rw [hc] at hrest
  exact ⟨ho, hrest⟩

theorem runs_of_chain (hchain : as.IsChain (Follows m))
    (hend : ∀ q ∈ as.getLast?, ∃ c, m q = some c ∧ c.next = none) : Runs m as.head? as := by
  induction as with
  | nil => rfl
  | cons p as ih =>
    refine ⟨rfl, ?_⟩
    cases as with
    | nil =>
      obtain ⟨c, hc, hnext⟩ := hend p rfl
      change (m p).bind TreeCell.next = none
      rw [hc, Option.bind_some, hnext]
    | cons q as =>
      obtain ⟨⟨c, hc, hnext⟩, hrest⟩ := List.isChain_cons_cons.mp hchain
      have htail := ih hrest fun x hx => hend x (by rw [List.getLast?_cons_cons]; exact hx)
      have hlink : (m p).bind TreeCell.next = some q := by rw [hc, Option.bind_some, hnext]
      change LinkedLists.Path _ ((m p).bind TreeCell.next) (q :: as)
      rw [hlink]
      exact htail

/-- Cells with the same symbol and number of arguments have the same heads. -/
theorem head_inj {e e' : ℕ ⊕ ℕ × ℕ} {d d' : CellData} (h : ftCoding.head e d)
    (h' : ftCoding.head e' d') : (d.sym = d'.sym ∧ d.arity = d'.arity) ↔ e = e' := by
  rcases e with id | ⟨f, k⟩ <;> rcases e' with id' | ⟨f', k'⟩ <;>
    obtain ⟨hlt, hsym, harity⟩ := h <;> obtain ⟨hlt', hsym', harity'⟩ := h' <;>
    rw [hsym, harity, hsym', harity']
  · simp
  · simp only [reduceCtorEq, iff_false, not_and]
    omega
  · simp only [reduceCtorEq, iff_false, not_and]
    omega
  · simp

/-- The lockstep walk compares the heads of the two trees. -/
theorem ftEqLoop_spec {hs hs' : List (ℕ ⊕ ℕ × ℕ)} {px py : Option Addr} {bs : List Addr}
    (hx : Runs m px as) (hy : Runs m py bs)
    (hxs : List.Forall₂ (fun p e => ∃ c, m p = some c ∧ ftCoding.head e c.data) as hs)
    (hys : List.Forall₂ (fun p e => ∃ c, m p = some c ∧ ftCoding.head e c.data) bs hs')
    (hn : as.length < n) : ftEqLoop m none n px py = some (decide (hs <+: hs')) := by
  induction hxs generalizing bs hs' px py n with
  | nil =>
    obtain rfl : px = none := hx
    cases n with
    | zero => cases hn
    | succ n => simp [ftEqLoop]
  | @cons p e as hs hhead hrest ih =>
    obtain ⟨c, hc, hcode⟩ := hhead
    obtain ⟨rfl, hxs⟩ := hx.tail hc
    rw [List.length_cons] at hn
    obtain ⟨n, rfl⟩ := Nat.exists_eq_succ_of_ne_zero (show n ≠ 0 by omega)
    cases hys with
    | nil =>
      obtain rfl : py = none := hy
      rw [ftEqLoop, if_neg (by simp)]
      simp
    | @cons q e' bs hs' hhead' hrest' =>
      obtain ⟨d, hd, hcode'⟩ := hhead'
      obtain ⟨rfl, hys⟩ := hy.tail hd
      have hinj := head_inj hcode hcode'
      have htail := ih hxs hys hrest' (n := n) (by omega)
      rw [ftEqLoop, if_neg (by simp)]
      simp only [Option.bind_eq_bind, Option.bind_some, hc, hd, List.cons_prefix_cons]
      by_cases he : e = e'
      · obtain ⟨hsym, harity⟩ := hinj.mpr he
        rw [if_neg (by simp [hsym, harity]), htail]
        simp [he]
      · rw [if_pos (by rwa [← not_and_or, hinj])]
        simp [he]

theorem heads_prefix_iff {s : CellTree} : heads s <+: heads t ↔ s = t := by
  constructor
  · rintro ⟨xs, hxs⟩
    have hall : heads s ++ xs = heads t ++ [] := hxs.trans (List.append_nil _).symm
    exact (heads_append hall).1
  · rintro rfl
    exact List.prefix_rfl

/-- No link leads out of the cells. -/
def Ended (m : FtMemory) (as : List Addr) : Prop :=
  ∃ q c, as.getLast? = some q ∧ m q = some c ∧ c.next = none

theorem Threaded.runs (h : Threaded ftCoding m t as) (hend : Ended m as) : Runs m as.head? as := by
  obtain ⟨x, c, hlast, hc, hnext⟩ := hend
  refine runs_of_chain h.chain fun y hy => ?_
  obtain rfl := Option.some.inj (hlast.symm.trans hy)
  exact ⟨c, hc, hnext⟩

/-- Two trees in cells of their own are compared as a whole. -/
theorem ftEq_spec {s : CellTree} {q : Addr} {bs : List Addr} (hpq : p ≠ q)
    (hs : Threaded ftCoding m s (p :: as)) (ht : Threaded ftCoding m t (q :: bs))
    (hsend : Ended m (p :: as)) (htend : Ended m (q :: bs)) (hn : s.size < n) :
    ftEq m n p q = some (decide (s = t)) := by
  have hruns : Runs m (some p) (p :: as) := Threaded.runs hs hsend
  have hruns' : Runs m (some q) (q :: bs) := Threaded.runs ht htend
  obtain ⟨_, _, c, heq, hc, hfin⟩ := hs.shaped.root
  cases heq
  obtain ⟨x, e, hlast, he, hnext⟩ := hsend
  rw [List.getLast?_eq_some_getLast (List.cons_ne_nil p as), ← hfin] at hlast
  obtain rfl := Option.some.inj hlast
  have hlen : (p :: as).length < n := by
    rw [hs.shaped.length_eq]
    exact hn
  rw [ftEq, if_neg hpq, hc]
  simp only [Option.bind_eq_bind, Option.bind_some, he, hnext]
  rw [ftEqLoop_spec hruns hruns' hs.shaped.heads ht.shaped.heads hlen]
  simp only [heads_prefix_iff]

/-- What the flat terms of `s` and `t` give back. -/
structure GivesBack (m : FtMemory) (n : ℕ) (x y : Addr) (s t : FTerm) : Prop where
  left : ftToTerm m n x = some s
  right : ftToTerm m n y = some t
  eq : ftEq m n x y = some (decide (s = t))
  hashLeft : NumberFree s → ftHash m n x = some (atpTermStructHash s)
  hashRight : NumberFree t → ftHash m n y = some (atpTermStructHash t)

/-- Two terms built one after the other stand in the cells for their trees. -/
theorem ftFromTerm_pair (moves : ℕ → Bool) (s t : FTerm) (h : InUse a U)
    (hroom : a.Room scratch (cellCount s + cellCount t)) : ∃ x y a₁ a₂ as bs,
      ftFromTerm moves scratch s a = some (x, a₁) ∧ ftFromTerm moves scratch t a₁ = some (y, a₂) ∧
        x ≠ y ∧ Threaded ftCoding a₂.mem (cellTree s) (x :: as) ∧
        Threaded ftCoding a₂.mem (cellTree t) (y :: bs) ∧ Ended a₂.mem (x :: as) ∧
        Ended a₂.mem (y :: bs) := by
  obtain ⟨x, as, a₁, hrun₁, hb₁, hsup⟩ := ftFromTerm_supplied s h hroom.supplies
  obtain ⟨y, bs, a₂, hrun₂, hb₂, -⟩ := ftFromTerm_supplied (n := 0) t hb₁.inUse hsup
  have hkept : ∀ q ∈ x :: as, a₂.mem q = a₁.mem q := fun q hq => hb₂.kept q (.inr hq)
  refine ⟨x, y, a₁, a₂, as, bs, hrun₁, hrun₂, ?_, hb₁.threaded.congr_eq hkept, hb₂.threaded, ?_,
    hb₂.ended⟩
  · rintro rfl
    exact hb₂.fresh x List.mem_cons_self (.inr List.mem_cons_self)
  · obtain ⟨q, c, hlast, hc, hnext⟩ := hb₁.ended
    exact ⟨q, c, hlast, (hkept q (List.mem_of_getLast? hlast)).trans hc, hnext⟩

/-- The cells give back just the terms that fit them. -/
theorem givesBack_iff {s t : FTerm} (h : InUse a U)
    (hroom : a.Room scratch (cellCount s + cellCount t)) (hs : InFormat s) (ht : InFormat t) :
    (∃ x y a₁ a₂, ftFromTerm moves scratch s a = some (x, a₁) ∧
      ftFromTerm moves scratch t a₁ = some (y, a₂) ∧
      ∃ rounds, ∀ n, rounds ≤ n → GivesBack a₂.mem n x y s t) ↔ Encodable s ∧ Encodable t := by
  obtain ⟨x, y, a₁, a₂, as, bs, hrun₁, hrun₂, hne, hx, hy, hxend, hyend⟩ :=
    ftFromTerm_pair moves s t h hroom
  have hreads : ∀ n, (cellTree s).size ≤ n → ftToTerm a₂.mem n x = some (narrow s) := by
    intro n hn
    rw [ftToTerm_spec hx hn, treeTerm_cellTree hs]
  have hreadt : ∀ n, (cellTree t).size ≤ n → ftToTerm a₂.mem n y = some (narrow t) := by
    intro n hn
    rw [ftToTerm_spec hy hn, treeTerm_cellTree ht]
  constructor
  · rintro ⟨x', y', b₁, b₂, hrun₁', hrun₂', rounds, hback⟩
    cases hrun₁.symm.trans hrun₁'
    cases hrun₂.symm.trans hrun₂'
    have hg := hback (rounds + (cellTree s).size + (cellTree t).size) (by omega)
    refine ⟨(narrow_eq_iff hs).mp ?_, (narrow_eq_iff ht).mp ?_⟩
    · exact Option.some.inj ((hreads _ (by omega)).symm.trans hg.left)
    · exact Option.some.inj ((hreadt _ (by omega)).symm.trans hg.right)
  · rintro ⟨hes, het⟩
    have hns := (narrow_eq_iff hs).mpr hes
    have hnt := (narrow_eq_iff ht).mpr het
    have hinj : cellTree s = cellTree t ↔ s = t := by
      constructor
      · intro heq
        rw [← hns, ← hnt, ← treeTerm_cellTree hs, ← treeTerm_cellTree ht, heq]
      · rintro rfl
        rfl
    refine ⟨x, y, a₁, a₂, hrun₁, hrun₂, (cellTree s).size + (cellTree t).size + 1, fun n hn => ?_⟩
    refine ⟨?_, ?_, ?_, fun hfree => ?_, fun hfree => ?_⟩
    · rw [hreads n (by omega), hns]
    · rw [hreadt n (by omega), hnt]
    · rw [ftEq_spec hne hx hy hxend hyend (by omega)]
      simp only [hinj]
    · rw [ftHash_spec hx (by omega), treeHash_cellTree hs hfree hes]
    · rw [ftHash_spec hy (by omega), treeHash_cellTree ht hfree het]

theorem inFormat_num : InFormat (.num 5 7) where
  vars id hid := by simp at hid
  nums d v hv := by
    obtain ⟨rfl, rfl⟩ : d = 5 ∧ v = 7 := by simpa using hv
    omega
  labels := .leaf _

theorem givesBack_num :
    (∃ x y a₁ a₂, ftFromTerm (fun _ => true) false (.num 5 7) ftInit = some (x, a₁) ∧
      ftFromTerm (fun _ => true) false (.num 5 7) a₁ = some (y, a₂) ∧
      ∃ rounds, ∀ n, rounds ≤ n → GivesBack a₂.mem n x y (.num 5 7) (.num 5 7)) ↔
        Encodable (.num 5 7) ∧ Encodable (.num 5 7) :=
  givesBack_iff inUse_init (fun h => by cases h) inFormat_num inFormat_num

/-- The number 2^31 comes back as 0. -/
theorem ftToTerm_loses_bit : ∃ x a₁,
    ftFromTerm (fun _ => true) false (.num 5 (2 ^ 31)) ftInit = some (x, a₁) ∧
      ∀ n, 3 ≤ n → ftToTerm a₁.mem n x = some (.num 5 0) := by
  obtain ⟨x, as, a₁, hrun, hb, -⟩ := ftFromTerm_supplied (n := 0) (.num 5 (2 ^ 31)) inUse_init
    AtpFt.Supplies.persistent
  refine ⟨x, a₁, hrun, fun n hn => ?_⟩
  rw [ftToTerm_spec hb.threaded hn]
  decide

end Thvm.Ft
