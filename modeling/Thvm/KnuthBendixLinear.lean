import Thvm.KnuthBendixBalance

/-!
# The linear comparison

The traversal of two terms as the list of its bumps, the descent along the first
arguments that differ, and the scopes that it opens on its way.
-/

namespace Thvm.Kbo

open MemoTables TermTree

/-! ### Bumps of a traversal -/

/-- How a comparison goes over two terms: what a whole subterm comes to, below which
pairs with equal roots it goes on, and whether it takes the last arguments first. -/
structure Scan where
  side : ℤ → FTerm → List (ℕ × ℤ)
  deep : FTerm → FTerm → Bool
  lastFirst : Bool

mutual

def diffBumps (V : Scan) : FTerm → FTerm → List (ℕ × ℤ)
  | .node f as, .node g bs =>
    if f = g ∧ as.length = bs.length ∧ V.deep (.node f as) (.node g bs) = true then
      diffBumpsArgs V as bs
    else V.side 1 (.node f as) ++ V.side (-1) (.node g bs)
  | .leaf l, .leaf l' => if l = l' then [] else V.side 1 (.leaf l) ++ V.side (-1) (.leaf l')
  | .leaf l, .node g bs => V.side 1 (.leaf l) ++ V.side (-1) (.node g bs)
  | .node f as, .leaf l' => V.side 1 (.node f as) ++ V.side (-1) (.leaf l')

def diffBumpsArgs (V : Scan) : List FTerm → List FTerm → List (ℕ × ℤ)
  | a :: as, b :: bs =>
    if V.lastFirst then diffBumpsArgs V as bs ++ diffBumps V a b
    else diffBumps V a b ++ diffBumpsArgs V as bs
  | _, _ => []

end

/-- One side comes to the variables of the subterm, and equal terms are gone into. -/
structure Scan.Exact (V : Scan) (S : ℕ → ℕ → Prop) : Prop where
  side : ∀ sign t, t.Over S → t.VarsBelow kboMaxVar →
    ∀ v, net v (V.side sign t) = sign * t.leaves.count (.fvr v)
  deep : ∀ t, V.deep t t = true

section Bumps

variable {V : Scan} {S : ℕ → ℕ → Prop} {s t : FTerm} {v : ℕ}

theorem diffBumpsArgs_self {as : List FTerm} (h : ∀ a ∈ as, diffBumps V a a = []) :
    diffBumpsArgs V as as = [] := by
  induction as with
  | nil => rw [diffBumpsArgs]; exact nofun
  | cons a as ih =>
    rw [List.forall_mem_cons] at h
    rw [diffBumpsArgs, h.1, ih h.2]
    simp

theorem diffBumps_self (hV : V.Exact S) (t : FTerm) : diffBumps V t t = [] := by
  induction t using TermTree.induct with
  | leaf l => rw [diffBumps, if_pos rfl]
  | node f as ih => rw [diffBumps, if_pos ⟨rfl, rfl, hV.deep _⟩, diffBumpsArgs_self ih]

theorem net_sides (hV : V.Exact S) (hs : s.Over S) (ht : t.Over S) (hsv : s.VarsBelow kboMaxVar)
    (htv : t.VarsBelow kboMaxVar) (v : ℕ) : net v (V.side 1 s ++ V.side (-1) t) = varDiff s t v := by
  rw [net_append, hV.side 1 s hs hsv, hV.side (-1) t ht htv]
  unfold varDiff
  ring

theorem varsBelow_arg {n f : ℕ} {as : List FTerm} {a : FTerm}
    (h : FTerm.VarsBelow n (.node f as)) (ha : a ∈ as) : a.VarsBelow n :=
  fun id hid => h id (mem_leaves_node.mpr ⟨a, ha, hid⟩)

theorem net_diffBumpsArgs {as bs : List FTerm} (hlen : as.length = bs.length)
    (h : ∀ a ∈ as, ∀ b ∈ bs, net v (diffBumps V a b) = varDiff a b v) :
    net v (diffBumpsArgs V as bs) = ((as.flatMap TermTree.leaves).count (.fvr v) : ℤ) -
      (bs.flatMap TermTree.leaves).count (.fvr v) := by
  induction as generalizing bs with
  | nil =>
    obtain rfl := List.length_eq_zero_iff.mp hlen.symm
    rw [diffBumpsArgs]
    · simp
    · exact nofun
  | cons a as ih =>
    cases bs with
    | nil => cases hlen
    | cons b bs =>
      have hhead := h a List.mem_cons_self b List.mem_cons_self
      have htail := ih (Nat.succ.inj hlen) fun a' ha b' hb =>
        h a' (List.mem_cons_of_mem _ ha) b' (List.mem_cons_of_mem _ hb)
      rw [diffBumpsArgs, List.flatMap_cons, List.flatMap_cons, List.count_append, List.count_append]
      unfold varDiff at hhead
      split
      · rw [net_append, hhead, htail]
        push_cast
        ring
      · rw [net_append, hhead, htail]
        push_cast
        ring

/-- A scope balances the variables. -/
theorem net_diffBumps (hV : V.Exact S) (hs : s.Over S) (ht : t.Over S)
    (hsv : s.VarsBelow kboMaxVar) (htv : t.VarsBelow kboMaxVar) :
    net v (diffBumps V s t) = varDiff s t v := by
  induction s using TermTree.induct generalizing t with
  | leaf l =>
    cases t with
    | leaf l' =>
      rw [diffBumps]
      split
      · next heq => rw [heq, varDiff_self, net_nil]
      · exact net_sides hV hs ht hsv htv v
    | node g bs => exact net_sides hV hs ht hsv htv v
  | node f as ih =>
    cases t with
    | leaf l' => exact net_sides hV hs ht hsv htv v
    | node g bs =>
      rw [diffBumps]
      split
      · next hroot =>
        obtain ⟨rfl, hlen, -⟩ := hroot
        rw [varDiff_node]
        apply net_diffBumpsArgs hlen
        intro a ha b hb
        exact ih a ha (hs.arg ha) (ht.arg hb) (varsBelow_arg hsv ha) (varsBelow_arg htv hb)
      · exact net_sides hV hs ht hsv htv v

end Bumps

/-! ### Walks -/

section Walk

variable {σ : Type} (onVar onSym : ℕ → σ → σ)

mutual

/-- What a walk does at a term: its arguments come last to first. -/
def visit : LTerm → σ → σ
  | .leaf (.fvr id), x => onVar id x
  | .leaf (.num _ _), x => x
  | .node c args, x => visitArgs args (onSym c.label x)

def visitArgs : List LTerm → σ → σ
  | [], x => x
  | a :: as, x => visit a (visitArgs as x)

end

variable {onVar onSym}

theorem visitArgs_eq (args : List LTerm) (x : σ) :
    visitArgs onVar onSym args x = args.reverse.foldl (fun x a => visit onVar onSym a x) x := by
  induction args with
  | nil => rfl
  | cons a as ih => rw [visitArgs, ih, List.reverse_cons, List.foldl_append, List.foldl_cons,
      List.foldl_nil]

theorem kboWalk_eq {n : ℕ} {stack : List LTerm} (h : (stack.map TermTree.size).sum ≤ n) (x : σ) :
    kboWalk onVar onSym n stack x = stack.foldl (fun x t => visit onVar onSym t x) x := by
  induction n generalizing stack x with
  | zero =>
    cases stack with
    | nil => rfl
    | cons t stack =>
      have := TermTree.size_pos t
      rw [List.map_cons, List.sum_cons] at h
      omega
  | succ n ih =>
    cases stack with
    | nil => rfl
    | cons t stack =>
      rw [List.map_cons, List.sum_cons] at h
      cases t with
      | leaf l =>
        rw [TermTree.size_leaf] at h
        cases l with
        | fvr id => exact ih (by omega) _
        | num dtype value => exact ih (by omega) _
      | node c args =>
        rw [TermTree.size_node] at h
        rw [kboWalk, ih, List.foldl_append, List.foldl_cons, visit, visitArgs_eq]
        rw [List.map_append, List.sum_append, List.map_reverse, List.sum_reverse]
        omega

end Walk

section Sides

variable {cfg : KboConfig} {W : Term → FTerm} {S : ℕ → ℕ → Prop} {T : FTerm → Prop} {t : FTerm}
  {linear : Bool}

/-- The bumps of a list of leaves. -/
def leafBumps (sign : ℤ) (ls : List Leaf) : List (ℕ × ℤ) :=
  (ls.filterMap FTerm.leafId).map fun id => (id, sign)

@[simp] theorem leafBumps_append (sign : ℤ) (ls ls' : List Leaf) :
    leafBumps sign (ls ++ ls') = leafBumps sign ls ++ leafBumps sign ls' := by
  simp [leafBumps]

theorem net_leafBumps (sign : ℤ) (ls : List Leaf) (v : ℕ) :
    net v (leafBumps sign ls) = sign * ls.count (.fvr v) := by
  induction ls with
  | nil => simp [leafBumps]
  | cons l ls ih =>
    rw [← List.singleton_append, leafBumps_append, net_append, ih, List.count_append,
      List.count_singleton]
    cases l with
    | fvr id =>
      by_cases hid : id = v
      · simp [leafBumps, FTerm.leafId, net_cons, hid, mul_add]
      · simp [leafBumps, FTerm.leafId, net_cons, hid]
    | num dtype value =>
      have hnil : leafBumps sign [Leaf.num dtype value] = [] := rfl
      simp [hnil]

/-- The bumps of a whole subterm: from its profile, or else from a walk. -/
def linSide (linear : Bool) (cfg : KboConfig) (sign : ℤ) : FTerm → List (ℕ × ℤ)
  | .leaf l => leafBumps sign [l]
  | .node f args =>
    match linear, (kboWeigh cfg (.node f args)).profile with
    | false, some p => p.map fun k => (k.1, sign * k.2)
    | _, _ => leafBumps sign (TermTree.node f args).leaves.reverse

theorem linSide_profile {sign : ℤ} {f : ℕ} {args : List FTerm} {p : List (ℕ × ℤ)}
    (hp : (kboWeigh cfg (.node f args)).profile = some p) :
    linSide false cfg sign (.node f args) = p.map fun k => (k.1, sign * k.2) := by
  simp only [linSide, hp]

theorem linSide_walk {sign : ℤ} {f : ℕ} {args : List FTerm}
    (h : linear = true ∨ (kboWeigh cfg (.node f args)).profile = none) :
    linSide linear cfg sign (.node f args) = leafBumps sign (TermTree.node f args).leaves.reverse := by
  rcases h with rfl | hp
  · simp only [linSide]
  · simp only [linSide, hp]

def linScan (linear : Bool) (cfg : KboConfig) : Scan := ⟨linSide linear cfg, fun _ _ => true, true⟩

theorem net_map_mul (sign : ℤ) (p : List (ℕ × ℤ)) (v : ℕ) :
    net v (p.map fun k => (k.1, sign * k.2)) = sign * net v p := by
  induction p with
  | nil => simp
  | cons e p ih =>
    rw [List.map_cons, net_cons, net_cons, ih]
    split
    · ring
    · ring

theorem linScan_exact (linear : Bool) (cfg : KboConfig) : (linScan linear cfg).Exact S where
  side sign t ht htv v := by
    cases t with
    | leaf l => exact net_leafBumps sign [l] v
    | node f args =>
      simp only [linScan, linSide]
      split
      · next p hp => rw [net_map_mul, (kboWeigh_weighed ht htv).profile p hp]
      · rw [net_leafBumps, List.count_reverse]
  deep _ := rfl

theorem visit_bumps (sign : ℤ) (t : LTerm) (st : KboLin) :
    visit (fun id st => st.bump id sign) (fun _ st => st) t st =
      applyBumps (leafBumps sign t.leaves.reverse) st := by
  induction t using TermTree.induct generalizing st with
  | leaf l =>
    cases l with
    | fvr id => rfl
    | num dtype value => rfl
  | node c args ih =>
    rw [visit, leaves_node]
    induction args with
    | nil => rfl
    | cons a as ihs =>
      rw [List.forall_mem_cons] at ih
      rw [visitArgs, ihs ih.2, ih.1, List.flatMap_cons, List.reverse_append, leafBumps_append,
        applyBumps_append]

theorem visit_addto (sign : ℤ) {t : LTerm} (ht : t.erase.Over S) (x : KboLin × ℤ) :
    visit (fun id x => (x.1.bump id sign, x.2 + sign * cfg.varWeight))
      (fun label x => (x.1, x.2 + sign * cfg.weight label)) t x =
      (applyBumps (leafBumps sign t.leaves.reverse) x.1,
        x.2 + sign * cfg.scale.weight t.erase) := by
  induction t using TermTree.induct generalizing x with
  | leaf l =>
    obtain ⟨id, rfl⟩ := ht.leaf
    rfl
  | node c args ih =>
    rw [LTerm.erase_node] at ht
    replace ht : ∀ a ∈ args, (LTerm.erase a).Over S := fun a ha => ht.arg (List.mem_map_of_mem ha)
    have hargs : ∀ x : KboLin × ℤ, visitArgs (fun id x => (x.1.bump id sign, x.2 + sign * cfg.varWeight))
        (fun label x => (x.1, x.2 + sign * cfg.weight label)) args x =
        (applyBumps (leafBumps sign (args.flatMap TermTree.leaves).reverse) x.1,
          x.2 + sign * ((args.map LTerm.erase).map cfg.scale.weight).sum) := by
      induction args with
      | nil => simp [visitArgs, leafBumps]
      | cons a as ihs =>
        rw [List.forall_mem_cons] at ih ht
        intro x
        rw [visitArgs, ihs ih.2 ht.2, ih.1 ht.1, List.flatMap_cons, List.reverse_append,
          leafBumps_append, applyBumps_append]
        refine Prod.ext rfl ?_
        simp only [List.map_cons, List.sum_cons]
        push_cast
        ring
    rw [visit, hargs, leaves_node, LTerm.erase_node, KnuthBendix.Scale.weight_node]
    refine Prod.ext rfl ?_
    simp only [KboConfig.scale]
    push_cast
    ring

/-- A whole subterm is its bumps and its weight. Without the memo nothing is asked of it. -/
theorem kboLinAddto_answers {I : KboMemos → Prop} (hI : linear = false → I = Right cfg W T)
    (hT : InPlay linear S T) {t : LTerm} (ht : Weighable W T t) (sign : ℤ)
    (x : KboLin × ℤ) : Answers I (kboLinAddto linear cfg t sign x)
      (applyBumps (linSide linear cfg sign t.erase) x.1,
        x.2 + sign * cfg.scale.weight t.erase) := by
  have hover := hT.built _ ht.mem
  unfold kboLinAddto
  cases linear with
  | true =>
    apply (Answers.pure _).cast
    rw [kboLinAddtoWalk, kboWalk_eq (by simp), List.foldl_cons, List.foldl_nil,
      visit_addto sign hover]
    cases t with
    | leaf l => rfl
    | node c as =>
      rw [← LTerm.leaves_erase, LTerm.erase_node, linSide_walk (.inl rfl)]
  | false =>
    obtain rfl := hI rfl
    cases t with
    | leaf l =>
      obtain ⟨id, rfl⟩ := hover.leaf
      exact (Answers.pure _).cast rfl
    | node c as =>
      apply (kboSubtreeMemoFast_answers hT ht).bind
      have hvars := hT.vars _ ht.mem
      rw [LTerm.erase_node] at hover hvars
      have hweighed : Weighed cfg _ := kboWeigh_weighed hover hvars
      have hw := hweighed.w
      rw [← LTerm.erase_node] at hw
      split
      · next hp =>
        apply (Answers.pure _).cast
        rw [hw, kboAddvarsWalk, kboWalk_eq (by simp), List.foldl_cons, List.foldl_nil, visit_bumps,
          ← LTerm.leaves_erase]
        rw [LTerm.erase_node] at hp ⊢
        rw [linSide_walk (.inr hp)]
      · next p hp =>
        apply (Answers.pure _).cast
        rw [hw]
        rw [LTerm.erase_node] at hp ⊢
        rw [linSide_profile hp, applyBumps, List.foldl_map]

end Sides

end Thvm.Kbo
