import Thvm.FtScratch

/-!
# Scratch terms stay where they are

As long as the region is moved only when it holds no cell, each construction keeps the terms
built before it: a cell is linked further only behind the last cell of a whole term.
-/

namespace Thvm.Ft

open ThreadedTrees

variable {moves : ℕ → Bool} {a a' : AtpFt} {U V : Set Addr} {m m' : FtMemory} {p q : Addr} {n k : ℕ}
  {scratch : Bool} {t r : CellTree} {args : List CellTree} {as : List Addr} {s : Bindings}
  {B : ℕ → Option CellTree}

theorem forall₂_of_mapM {α β : Type} {f : α → Option β} {xs : List α} {ys : List β}
    (h : xs.mapM f = some ys) : List.Forall₂ (fun x y => f x = some y) xs ys := by
  induction xs generalizing ys with
  | nil =>
    cases h
    exact .nil
  | cons x xs ih =>
    rw [List.mapM_cons, Option.bind_eq_bind, Option.bind_eq_some_iff] at h
    obtain ⟨y, hy, h⟩ := h
    obtain ⟨zs, hzs, h⟩ := Option.bind_eq_some_iff.mp h
    cases h
    exact .cons hy (ih hzs)

/-- A term in use. -/
def Source (m : FtMemory) (U : Set Addr) (p : Addr) (t : CellTree) : Prop :=
  ∃ as, Threaded ftCoding m t (p :: as) ∧ ∀ q ∈ p :: as, q ∈ U

/-- The terms that a substitution binds are these trees. -/
def Bound (m : FtMemory) (U : Set Addr) (s : Bindings) (B : ℕ → Option CellTree) : Prop :=
  ∀ id < atpftMaxVars, (s id = none ∧ B id = none) ∨
    ∃ b t, s id = some b ∧ B id = some t ∧ Source m U b t

theorem Source.congr (h : Source m U p t) (hsub : U ⊆ V) (hsame : ∀ q ∈ U, m' q = m q) :
    Source m' V p t := by
  obtain ⟨as, ht, hU⟩ := h
  exact ⟨as, ht.congr_eq fun q hq => hsame q (hU q hq), fun q hq => hsub (hU q hq)⟩

theorem Bound.congr (h : Bound m U s B) (hsub : U ⊆ V) (hsame : ∀ q ∈ U, m' q = m q) :
    Bound m' V s B := by
  intro id hid
  rcases h id hid with h | ⟨b, t, hs, hB, hsource⟩
  · exact .inl h
  · exact .inr ⟨b, t, hs, hB, hsource.congr hsub hsame⟩

/-- The walk along the bindings is the one along their trees. -/
theorem ftUnifyWalk_spec (hbound : Bound m U s B) (hsource : Source m U p t) {w : CellTree}
    (hwalk : walkTree B n t = some w) : ∃ q, ftUnifyWalk m s n p = some q ∧ Source m U q w := by
  induction n generalizing p t with
  | zero => cases hwalk
  | succ n ih =>
    have hsource' := hsource
    obtain ⟨as, ht, hU⟩ := hsource
    cases t with
    | node sym args =>
      obtain rfl := Option.some.inj hwalk
      obtain ⟨c, hc, hvar, -⟩ := Threaded.node ht
      refine ⟨p, ?_, hsource'⟩
      rw [ftUnifyWalk, hc, Option.bind_eq_bind, Option.bind_some, if_neg (by simp [hvar])]
    | leaf id =>
      obtain ⟨c, hc, hvar, hsym⟩ := Threaded.leaf ht
      rw [ftUnifyWalk, hc, Option.bind_eq_bind, Option.bind_some, if_pos hvar, hsym]
      rw [walkTree] at hwalk
      by_cases hid : atpftMaxVars ≤ id
      · rw [if_pos hid] at hwalk ⊢
        obtain rfl := Option.some.inj hwalk
        exact ⟨p, rfl, hsource'⟩
      · rw [if_neg hid] at hwalk ⊢
        rcases hbound id (Nat.not_le.mp hid) with ⟨hs, hB⟩ | ⟨b, t, hs, hB, hb⟩
        · rw [hB] at hwalk
          obtain rfl := Option.some.inj hwalk
          rw [hs]
          exact ⟨p, rfl, hsource'⟩
        · rw [hB] at hwalk
          rw [hs]
          exact ih hb hwalk

/-- The constructor `g` builds `r` from a term for `t`. -/
def Makes (moves : ℕ → Bool) (scratch : Bool) (s : Bindings) (B : ℕ → Option CellTree)
    (g : Addr → AtpFt → Option (Addr × AtpFt)) (t r : CellTree) : Prop :=
  ∀ (a a' : AtpFt) (U : Set Addr) (q p : Addr) (k : ℕ), InUse a U →
    a.Settled moves scratch (r.size + k) → Bound a.mem U s B → Source a.mem U q t →
    g q a = some (p, a') → ∃ as, Builds scratch a U r (p :: as) a' ∧ a'.Settled moves scratch k

/-- The loop over the arguments builds a row when the constructor below it builds trees. -/
theorem buildArgs_spec {g : Addr → AtpFt → Option (Addr × AtpFt)} {rs : List CellTree}
    (hg : List.Forall₂ (Makes moves scratch s B g) args rs)
    (h : InUse a U) (hset : a.Settled moves scratch ((rs.map TermTree.size).sum + k))
    (hbound : Bound a.mem U s B) (hrow : Row ftCoding a.mem args as) (hU : ∀ q ∈ as, q ∈ U)
    {child : Option Addr} (hchild : ∀ q ∈ as.head?, child = some q) {kids : List Addr}
    (hrun : buildArgs g args.length child a = some (kids, a')) :
    ∃ ass, kids = ass.filterMap List.head? ∧ BuildsRow scratch a U rs ass a' ∧
      a'.Settled moves scratch k := by
  induction hg generalizing a U as child kids with
  | nil =>
    cases hrun
    rw [List.map_nil, List.sum_nil, Nat.zero_add] at hset
    exact ⟨[], rfl, .nil h, hset⟩
  | @cons t r args rs ht _ ih =>
    obtain ⟨q, rest, cs, c, e, rfl, hfirst, hrest, hc, he, hnext⟩ := hrow.first
    obtain rfl := hchild q rfl
    have hsource : Source a.mem U q t :=
      ⟨rest, hfirst, fun x hx => hU x (List.mem_append_left _ hx)⟩
    have hfin : c.fin ∈ U := by
      obtain ⟨_, _, c', heq, hc', hlast⟩ := hfirst.shaped.root
      cases heq
      obtain rfl : c' = c := Option.some.inj (hc'.symm.trans hc)
      rw [hlast]
      exact hU _ (List.mem_append_left _ (List.getLast_mem _))
    rw [List.length_cons, buildArgs, Option.bind_eq_bind, Option.bind_some, Option.bind_eq_bind,
      Option.bind_eq_some_iff] at hrun
    obtain ⟨⟨kid, b⟩, hkid, hrun⟩ := hrun
    rw [List.map_cons, List.sum_cons, Nat.add_assoc] at hset
    obtain ⟨cells, hbuilds, hset'⟩ := ht _ _ _ _ _ _ h hset hbound hsource hkid
    -- the cells of the source are as they were
    have hcb : b.mem q = some c := (hbuilds.kept q (hU q List.mem_cons_self)).trans hc
    have heb : b.mem c.fin = some e := (hbuilds.kept _ hfin).trans he
    simp only [Option.bind_eq_bind, Option.bind_some, hcb, heb, Option.bind_eq_some_iff] at hrun
    obtain ⟨⟨kids', b'⟩, hothers, hrun⟩ := hrun
    cases hrun
    have hsub : U ⊆ U ∪ {x | x ∈ kid :: cells} := fun x hx => .inl hx
    have hcs : ∀ x ∈ cs, x ∈ U := fun x hx => hU x (List.mem_append_right _ hx)
    obtain ⟨ass, rfl, hrow', hset''⟩ := ih hbuilds.inUse hset' (hbound.congr hsub hbuilds.kept)
      (hrest.congr_eq fun x hx => hbuilds.kept x (hcs x hx)) (fun x hx => hsub (hcs x hx)) hnext
      hothers
    exact ⟨(kid :: cells) :: ass, rfl, .cons hbuilds hrow', hset''⟩

/-- `ft_unify_apply` builds the instance. -/
theorem ftUnifyApply_makes (hr : resolve B n t = some r) :
    Makes moves scratch s B (ftUnifyApply moves s scratch n) t r := by
  intro a a' U q p k h hset hbound hsource hrun
  induction n generalizing a a' U q p t r k with
  | zero => cases hr
  | succ n ih =>
    rw [resolve, Option.bind_eq_bind, Option.bind_eq_some_iff] at hr
    obtain ⟨w, hwalk, hr⟩ := hr
    obtain ⟨x, hx, hw⟩ := ftUnifyWalk_spec hbound hsource hwalk
    obtain ⟨rest, hthread, hU⟩ := hw
    rw [ftUnifyApply, hx, Option.bind_eq_bind, Option.bind_some] at hrun
    cases w with
    | leaf id =>
      obtain rfl := Option.some.inj hr
      obtain ⟨c, hc, hvar, hsym⟩ := Threaded.leaf hthread
      obtain ⟨_, _, _, _, ⟨hid, -⟩, -⟩ := hthread.shaped
      rw [hc, Option.bind_eq_bind, Option.bind_some, if_pos hvar, hsym] at hrun
      rw [TermTree.size_leaf, Nat.add_comm] at hset
      obtain ⟨hb, hset'⟩ := ftnewVar_spec h hset hrun
      rw [Nat.mod_eq_of_lt hid] at hb
      exact ⟨[], hb, hset'⟩
    | node sym args =>
      obtain ⟨rs, hrs, hr⟩ := Option.bind_eq_some_iff.mp hr
      obtain rfl := Option.some.inj hr
      obtain ⟨c, hc, hvar, hsym, harity, hnext, hrow⟩ := Threaded.node hthread
      obtain ⟨_, c', _, heq, hc', ⟨hlt, hsym', -⟩, -⟩ := hthread.shaped
      cases heq
      obtain rfl : c' = c := Option.some.inj (hc'.symm.trans hc)
      have hargs := forall₂_of_mapM hrs
      rw [hc, Option.bind_eq_bind, Option.bind_some, if_neg (by simp [hvar]), harity, hsym'] at hrun
      by_cases h0 : args.length = 0
      · obtain rfl := List.length_eq_zero_iff.mp h0
        cases hargs
        rw [if_pos h0] at hrun
        rw [TermTree.size_node, List.map_nil, List.sum_nil, Nat.add_comm] at hset
        obtain ⟨hb, hset'⟩ := ftnewConst_spec h hset hrun
        rw [Nat.mod_eq_of_lt hlt] at hb
        exact ⟨[], hb, hset'⟩
      · have hcount : (TermTree.node sym rs).size + k = (rs.map TermTree.size).sum + (k + 1) := by
          rw [TermTree.size_node]
          omega
        rw [if_neg h0, Option.bind_eq_bind, Option.bind_eq_some_iff] at hrun
        obtain ⟨⟨kids, b⟩, hkids, hrun⟩ := hrun
        rw [hcount] at hset
        have hg : List.Forall₂ (Makes moves scratch s B (ftUnifyApply moves s scratch n)) args rs :=
          hargs.imp fun _ _ hr _ _ _ _ _ _ h' hset' hbound' hsource' hrun' =>
            ih hr _ _ _ _ _ _ h' hset' hbound' hsource' hrun'
        obtain ⟨ass, rfl, hrow', hset'⟩ := buildArgs_spec hg h hset hbound hrow
          (fun x hx => hU x (List.mem_cons_of_mem _ hx)) hnext hkids
        obtain ⟨hb, hset''⟩ := hrow'.join sym args.length hset' hargs.length_eq.le hrun
        rw [Nat.mod_eq_of_lt hlt, List.take_of_length_le hargs.length_eq.ge] at hb
        exact ⟨_, hb, hset''⟩

/-- The scratch terms in use: those that are no arguments stand in cells apart from each other,
and every term built stands inside one of them. -/
structure Scene (rules : List (Addr × CellTree)) (σ : ScratchState) (U : Set Addr)
    (cells : Addr → List Addr) : Prop where
  inUse : InUse σ.arena U
  rules : ∀ e ∈ rules, ∃ as, Threaded ftCoding σ.arena.mem e.2 (e.1 :: as) ∧
    ∀ q ∈ e.1 :: as, q ∈ U ∧ q.isScratch = false
  tops : ∀ p ∈ σ.tops, ∃ t rest, treeOf σ.built p = some t ∧ cells p = p :: rest ∧
    Threaded ftCoding σ.arena.mem t (cells p) ∧ ∀ q ∈ cells p, q ∈ U ∧ q.isScratch = true
  disjoint : ∀ p ∈ σ.tops, ∀ q ∈ σ.tops, p ≠ q → ∀ x ∈ cells p, x ∉ cells q
  built : ∀ e ∈ σ.built, ∃ as, Threaded ftCoding σ.arena.mem e.2 (e.1 :: as) ∧
    ∃ p ∈ σ.tops, (e.1 :: as) <:+: cells p

variable {rules : List (Addr × CellTree)} {σ σ' : ScratchState} {cells : Addr → List Addr}
  {op : ScratchOp}

theorem treeOf_mem {known : List (Addr × CellTree)} (h : treeOf known p = some t) :
    (p, t) ∈ known := by
  obtain ⟨e, he, rfl⟩ := Option.map_eq_some_iff.mp h
  have hkey := List.find?_some he
  rw [decide_eq_true_eq] at hkey
  subst hkey
  exact List.mem_of_find?_eq_some he

theorem treeOf_cons_self (known : List (Addr × CellTree)) (p : Addr) (t : CellTree) :
    treeOf ((p, t) :: known) p = some t := by
  simp [treeOf]

theorem treeOf_cons_of_ne (known : List (Addr × CellTree)) (t : CellTree) (h : q ≠ p) :
    treeOf ((p, t) :: known) q = treeOf known q := by
  rw [treeOf, List.find?_cons_of_neg (by simpa using h.symm), treeOf]

/-- The terms of the scene can be read. -/
theorem Scene.source (h : Scene rules σ U cells) (ht : treeOf (rules ++ σ.built) p = some t) :
    Source σ.arena.mem U p t := by
  rcases List.mem_append.mp (treeOf_mem ht) with he | he
  · obtain ⟨as, hthread, hU⟩ := h.rules _ he
    exact ⟨as, hthread, fun q hq => (hU q hq).1⟩
  · obtain ⟨as, hthread, p', hp', hpart⟩ := h.built _ he
    obtain ⟨_, _, _, _, _, hU⟩ := h.tops p' hp'
    exact ⟨as, hthread, fun q hq => (hU q (hpart.subset hq)).1⟩

theorem Scene.mem_tops (h : Scene rules σ U cells) (hp : p ∈ σ.tops) : p ∈ U := by
  obtain ⟨t, rest, -, hcells, -, hU⟩ := h.tops p hp
  exact (hU p (hcells ▸ List.mem_cons_self)).1

/-- A new term in cells of its own. -/
theorem Scene.add (h : Scene rules σ U cells) (hb : Builds true σ.arena U t (p :: as) a') :
    Scene rules ⟨a', (p, t) :: σ.built, p :: σ.tops⟩ (U ∪ {q | q ∈ p :: as})
      (Function.update cells p (p :: as)) := by
  have hnew : ∀ q ∈ σ.tops, q ≠ p := by
    rintro q hq rfl
    exact hb.fresh q List.mem_cons_self (h.mem_tops hq)
  have hself : Function.update cells p (p :: as) p = p :: as := Function.update_self ..
  have hother : ∀ q ∈ σ.tops, Function.update cells p (p :: as) q = cells q :=
    fun q hq => Function.update_of_ne (hnew q hq) ..
  have hcellsU : ∀ q ∈ σ.tops, ∀ x ∈ cells q, x ∈ U := by
    intro q hq x hx
    obtain ⟨_, _, _, _, _, hU⟩ := h.tops q hq
    exact (hU x hx).1
  refine ⟨hb.inUse, ?_, ?_, ?_, ?_⟩
  · intro e he
    obtain ⟨bs, hthread, hU⟩ := h.rules e he
    exact ⟨bs, hthread.congr_eq fun q hq => hb.kept q (hU q hq).1,
      fun q hq => ⟨.inl (hU q hq).1, (hU q hq).2⟩⟩
  · intro q hq
    rcases List.mem_cons.mp hq with rfl | hq
    · rw [hself]
      exact ⟨t, as, treeOf_cons_self _ _ _, rfl, hb.threaded,
        fun x hx => ⟨.inr hx, hb.kind x hx⟩⟩
    · obtain ⟨u, rest, hu, hcells, hthread, hU⟩ := h.tops q hq
      rw [hother q hq]
      exact ⟨u, rest, (treeOf_cons_of_ne _ _ (hnew q hq)).trans hu, hcells,
        hthread.congr_eq fun x hx => hb.kept x (hU x hx).1,
        fun x hx => ⟨.inl (hU x hx).1, (hU x hx).2⟩⟩
  · intro q hmem q' hmem' hne x hx
    rcases List.mem_cons.mp hmem with rfl | hq
    · rcases List.mem_cons.mp hmem' with rfl | hq'
      · exact absurd rfl hne
      · rw [hself] at hx
        rw [hother q' hq']
        exact fun hx' => hb.fresh x hx (hcellsU q' hq' x hx')
    · rw [hother q hq] at hx
      rcases List.mem_cons.mp hmem' with rfl | hq'
      · rw [hself]
        exact fun hx' => hb.fresh x hx' (hcellsU q hq x hx)
      · rw [hother q' hq']
        exact h.disjoint q hq q' hq' hne x hx
  · intro e he
    rcases List.mem_cons.mp he with rfl | he
    · refine ⟨as, hb.threaded, p, List.mem_cons_self, ?_⟩
      exact hself.symm ▸ List.infix_refl (p :: as)
    · obtain ⟨bs, hthread, q, hq, hpart⟩ := h.built e he
      refine ⟨bs, hthread.congr_eq fun x hx => hb.kept x (hcellsU q hq x (hpart.subset hx)), q,
        List.mem_cons_of_mem p hq, ?_⟩
      rw [hother q hq]
      exact hpart

theorem dropLast_subset_of_part {bs : List Addr} (h : as <:+: bs) (hne : as ≠ []) :
    as.dropLast ⊆ bs.dropLast := by
  obtain ⟨xs, ys, rfl⟩ := h
  rw [List.append_assoc]
  by_cases hys : ys = []
  · subst hys
    rw [List.append_nil, List.dropLast_append_of_ne_nil hne]
    exact List.subset_append_right xs _
  · rw [List.dropLast_append_of_ne_nil (List.append_ne_nil_of_right_ne_nil as hys),
      List.dropLast_append_of_ne_nil hys]
    exact fun x hx => List.mem_append_right xs (List.mem_append_left _ (List.dropLast_subset as hx))

/-- The terms that are joined, in the cells of the scene. -/
theorem Scene.kids (h : Scene rules σ U cells) {kids : List Addr} {trees : List CellTree}
    (hnodup : kids.Nodup) (hsub : kids ⊆ σ.tops)
    (htrees : kids.mapM (treeOf σ.built) = some trees) :
    (kids.map cells).filterMap List.head? = kids ∧
      List.Forall₂ (Threaded ftCoding σ.arena.mem) trees (kids.map cells) ∧
      (kids.map cells).flatten.Nodup ∧ ∀ x ∈ (kids.map cells).flatten, x ∈ U := by
  have hall := forall₂_of_mapM htrees
  clear htrees
  induction hall with
  | nil => exact ⟨rfl, .nil, List.nodup_nil, fun x hx => nomatch hx⟩
  | @cons p t kids trees ht _ ih =>
    obtain ⟨hp, hnodup⟩ := List.nodup_cons.mp hnodup
    obtain ⟨u, rest, hu, hcells, hthread, hU⟩ := h.tops p (hsub List.mem_cons_self)
    obtain rfl : t = u := Option.some.inj (ht.symm.trans hu)
    obtain ⟨hheads, hthreads, hflat, hflatU⟩ := ih hnodup fun x hx =>
      hsub (List.mem_cons_of_mem p hx)
    refine ⟨?_, .cons hthread hthreads, ?_, ?_⟩
    · rw [List.map_cons, hcells, List.filterMap_cons, List.head?_cons, hheads]
    · rw [List.map_cons, List.flatten_cons]
      refine hthread.nodup.append hflat ?_
      intro x hx hx'
      obtain ⟨bs, hbs, hx'⟩ := List.mem_flatten.mp hx'
      obtain ⟨q, hq, rfl⟩ := List.mem_map.mp hbs
      refine h.disjoint p (hsub List.mem_cons_self) q (hsub (List.mem_cons_of_mem p hq)) ?_ x hx hx'
      rintro rfl
      exact hp hq
    · intro x hx
      rcases List.mem_append.mp hx with hx | hx
      · exact (hU x hx).1
      · exact hflatU x hx

/-- Terms joined under a new cell. -/
theorem Scene.join (h : Scene rules σ U cells) {sym : ℕ} {kids : List Addr}
    {trees : List CellTree} (hnodup : kids.Nodup) (hsub : kids ⊆ σ.tops)
    (htrees : kids.mapM (treeOf σ.built) = some trees)
    (hj : Joins true σ.arena U sym kids.length trees (kids.map cells) p a') :
    Scene rules ⟨a', (p, .node (sym % varBit) trees) :: σ.built,
      p :: σ.tops.filter (· ∉ kids)⟩ (insert p U)
      (Function.update cells p (p :: (kids.map cells).flatten)) := by
  obtain ⟨hheads, hthreads, hflat, hflatU⟩ := h.kids hnodup hsub htrees
  have hlen : trees.length = kids.length := (forall₂_of_mapM htrees).length_eq.symm
  have hall : (kids.map cells).take kids.length = kids.map cells := by
    rw [List.take_of_length_le (by rw [List.length_map])]
  have hthread := hj.threaded
  rw [hall, List.take_of_length_le hlen.le] at hthread
  have hnew : ∀ q ∈ σ.tops, q ≠ p := by
    rintro q hq rfl
    exact hj.fresh (h.mem_tops hq)
  have hself : Function.update cells p (p :: (kids.map cells).flatten) p =
    p :: (kids.map cells).flatten := Function.update_self ..
  have hother : ∀ q ∈ σ.tops, Function.update cells p (p :: (kids.map cells).flatten) q = cells q :=
    fun q hq => Function.update_of_ne (hnew q hq) ..
  have hcells : ∀ q ∈ σ.tops, ∀ x ∈ cells q, x ∈ U ∧ x.isScratch = true := by
    intro q hq
    obtain ⟨_, _, _, _, _, hU⟩ := h.tops q hq
    exact hU
  -- only the ends of the joined terms get other links
  have hlast : ∀ x, x ∈ ((kids.map cells).take kids.length).filterMap List.getLast? →
      ∃ q ∈ kids, (cells q).getLast? = some x := by
    intro x hx
    rw [hall] at hx
    obtain ⟨bs, hbs, hx⟩ := List.mem_filterMap.mp hx
    obtain ⟨q, hq, rfl⟩ := List.mem_map.mp hbs
    exact ⟨q, hq, hx⟩
  have hkeep : ∀ q ∈ σ.tops, ∀ u bs, bs <:+: cells q → Threaded ftCoding σ.arena.mem u bs →
      Threaded ftCoding a'.mem u bs := by
    intro q hq u bs hpart hu
    refine hu.congr (hj.shape bs fun x hx => (hcells q hq x (hpart.subset hx)).1) ?_
    rintro x hx y ⟨c, hc, hnext⟩
    have hxq := hpart.subset (List.dropLast_subset bs hx)
    refine ⟨c, (hj.kept x (hcells q hq x hxq).1 fun hl => ?_).trans hc, hnext⟩
    obtain ⟨q', hq', hxlast⟩ := hlast x hl
    have hxq' := List.mem_of_getLast? hxlast
    by_cases heq : q = q'
    · subst heq
      obtain ⟨_, _, _, _, hthread', _⟩ := h.tops q hq
      exact notMem_dropLast hthread'.nodup hxlast (dropLast_subset_of_part hpart hu.ne_nil hx)
    · exact h.disjoint q hq q' (hsub hq') heq x hxq hxq'
  have hflatTops : ∀ x ∈ (kids.map cells).flatten, ∃ q ∈ kids, x ∈ cells q := by
    intro x hx
    obtain ⟨bs, hbs, hx⟩ := List.mem_flatten.mp hx
    obtain ⟨q, hq, rfl⟩ := List.mem_map.mp hbs
    exact ⟨q, hq, hx⟩
  have hrest : ∀ {q}, q ∈ σ.tops.filter (· ∉ kids) → q ∈ σ.tops ∧ q ∉ kids := by
    intro q hq
    simpa using hq
  -- the new cells are apart from those of the terms that stay
  have happart : ∀ q ∈ σ.tops, q ∉ kids → ∀ x ∈ p :: (kids.map cells).flatten, x ∉ cells q := by
    intro q hq hqk x hx hxq
    rcases List.mem_cons.mp hx with rfl | hx
    · exact hj.fresh (hcells q hq x hxq).1
    · obtain ⟨q', hq', hxq'⟩ := hflatTops x hx
      refine h.disjoint q hq q' (hsub hq') ?_ x hxq hxq'
      rintro rfl
      exact hqk hq'
  refine ⟨hj.inUse, ?_, ?_, ?_, ?_⟩
  · intro e he
    obtain ⟨bs, hthread', hU⟩ := h.rules e he
    refine ⟨bs, hthread'.congr_eq fun x hx => hj.kept x (hU x hx).1 fun hl => ?_,
      fun x hx => ⟨.inr (hU x hx).1, (hU x hx).2⟩⟩
    obtain ⟨q, hq, hxlast⟩ := hlast x hl
    have hscratch := (hcells q (hsub hq) x (List.mem_of_getLast? hxlast)).2
    rw [(hU x hx).2] at hscratch
    cases hscratch
  · intro q hmem
    rcases List.mem_cons.mp hmem with rfl | hq
    · rw [hself]
      refine ⟨_, _, treeOf_cons_self _ _ _, rfl, hthread, fun x hx => ?_⟩
      rcases List.mem_cons.mp hx with rfl | hx
      · exact ⟨.inl rfl, hj.kind⟩
      · obtain ⟨q', hq', hx⟩ := hflatTops x hx
        exact ⟨.inr (hcells q' (hsub hq') x hx).1, (hcells q' (hsub hq') x hx).2⟩
    · obtain ⟨hq, -⟩ := hrest hq
      obtain ⟨u, rest, hu, hcellsq, hthread', hU⟩ := h.tops q hq
      rw [hother q hq]
      exact ⟨u, rest, (treeOf_cons_of_ne _ _ (hnew q hq)).trans hu, hcellsq,
        hkeep q hq u _ List.infix_rfl hthread', fun x hx => ⟨.inr (hU x hx).1, (hU x hx).2⟩⟩
  · intro q hmem q' hmem' hne x hx
    rcases List.mem_cons.mp hmem with rfl | hq
    · rcases List.mem_cons.mp hmem' with rfl | hq'
      · exact absurd rfl hne
      · obtain ⟨hq', hqk⟩ := hrest hq'
        rw [hself] at hx
        rw [hother q' hq']
        exact happart q' hq' hqk x hx
    · obtain ⟨hq, hqk⟩ := hrest hq
      rw [hother q hq] at hx
      rcases List.mem_cons.mp hmem' with rfl | hq'
      · rw [hself]
        exact fun hx' => happart q hq hqk x hx' hx
      · obtain ⟨hq', -⟩ := hrest hq'
        rw [hother q' hq']
        exact h.disjoint q hq q' hq' hne x hx
  · intro e hmem
    rcases List.mem_cons.mp hmem with rfl | he
    · refine ⟨_, hthread, p, List.mem_cons_self, ?_⟩
      exact hself.symm ▸ List.infix_refl (p :: (kids.map cells).flatten)
    · obtain ⟨bs, hthread', q, hq, hpart⟩ := h.built e he
      refine ⟨bs, hkeep q hq _ _ hpart hthread', ?_⟩
      by_cases hqk : q ∈ kids
      · refine ⟨p, List.mem_cons_self, ?_⟩
        rw [hself]
        obtain ⟨xs, ys, hsplit⟩ := List.append_of_mem (List.mem_map_of_mem (f := cells) hqk)
        rw [hsplit, List.flatten_append, List.flatten_cons]
        exact hpart.trans ⟨p :: xs.flatten, ys.flatten, by simp⟩
      · refine ⟨q, List.mem_cons_of_mem p ?_, ?_⟩
        · simpa using ⟨hq, hqk⟩
        · rw [hother q hq]
          exact hpart

/-- A construction keeps the scene when the region stays in place for it. -/
theorem Scene.step (h : Scene rules σ U cells)
    (hset : ∀ t n, op.target rules σ = some (t, n) → σ.arena.bump.Settled moves n)
    (hstep : σ.step moves rules op = some σ') : ∃ U' cells', Scene rules σ' U' cells' := by
  obtain ⟨⟨t, n⟩, htarget, hstep⟩ := Option.bind_eq_some_iff.mp hstep
  obtain ⟨⟨p, a'⟩, hexec, hstep⟩ := Option.bind_eq_some_iff.mp hstep
  cases hstep
  have hsettled : σ.arena.Settled moves true n := fun _ => hset t n htarget
  have hadd : ∀ as, Builds true σ.arena U t (p :: as) a' → op.args = [] → ∃ U' cells',
      Scene rules ⟨a', (p, t) :: σ.built, p :: σ.tops.filter (· ∉ op.args)⟩ U' cells' := by
    intro as hb hargs
    have hall : σ.tops.filter (· ∉ op.args) = σ.tops := by simp [hargs]
    rw [hall]
    exact ⟨_, _, h.add hb⟩
  cases op with
  | var id =>
    cases htarget
    exact hadd [] (ftnewVar_spec (n := 0) h.inUse hsettled hexec).1 rfl
  | const sym =>
    cases htarget
    exact hadd [] (ftnewConst_spec (n := 0) h.inUse hsettled hexec).1 rfl
  | term u =>
    cases htarget
    obtain ⟨as, hb, -⟩ := ftFromTerm_spec (n := 0) u h.inUse hsettled hexec
    exact hadd as hb rfl
  | apply levels s q =>
    obtain ⟨root, hroot, htarget⟩ := Option.bind_eq_some_iff.mp htarget
    by_cases hknown : ∀ id < atpftMaxVars, (s id).isSome →
        ((s id).bind (treeOf (rules ++ σ.built))).isSome
    · rw [if_pos hknown] at htarget
      obtain ⟨r, hr, htarget⟩ := Option.bind_eq_some_iff.mp htarget
      cases htarget
      have hbound : Bound σ.arena.mem U s fun id => (s id).bind (treeOf (rules ++ σ.built)) := by
        intro id hid
        cases hs : s id with
        | none =>
          refine .inl ⟨rfl, ?_⟩
          dsimp only
          rw [hs]
          rfl
        | some b =>
          have hsome := hknown id hid (by rw [hs]; rfl)
          rw [hs, Option.bind_some] at hsome
          obtain ⟨u, hu⟩ := Option.isSome_iff_exists.mp hsome
          refine .inr ⟨b, u, rfl, ?_, h.source hu⟩
          dsimp only
          rw [hs, Option.bind_some, hu]
      obtain ⟨as, hb, -⟩ := ftUnifyApply_makes hr _ _ _ _ _ 0 h.inUse hsettled hbound
        (h.source hroot) hexec
      exact hadd as hb rfl
    · rw [if_neg hknown] at htarget
      cases htarget
  | ctr sym kids =>
    by_cases hkids : kids.Nodup ∧ kids ⊆ σ.tops ∧ kids.length < 2 ^ 16
    · rw [ScratchOp.target, if_pos hkids] at htarget
      obtain ⟨trees, htrees, htarget⟩ := Option.bind_eq_some_iff.mp htarget
      cases htarget
      obtain ⟨hheads, hthreads, hflat, hflatU⟩ := h.kids hkids.1 hkids.2.1 htrees
      have hlen : kids.length ≤ trees.length := (forall₂_of_mapM htrees).length_eq.le
      have hexec' : ftnewCtr moves σ.arena sym kids.length ((kids.map cells).filterMap List.head?)
          true = some (p, a') := by
        rw [hheads]
        exact hexec
      obtain ⟨hj, -⟩ := ftnewCtr_spec (n := 0) h.inUse hsettled hthreads hflatU hflat hlen hexec'
      exact ⟨_, _, h.join hkids.1 hkids.2.1 htrees hj⟩
    · rw [ScratchOp.target, if_neg hkids] at htarget
      cases htarget

theorem Scene.run {ops : List ScratchOp} (h : Scene rules σ U cells)
    (hset : σ.Settled moves rules ops) (hrun : σ.run moves rules ops = some σ') :
    ∃ U' cells', Scene rules σ' U' cells' := by
  induction ops generalizing σ U cells with
  | nil =>
    cases hrun
    exact ⟨U, cells, h⟩
  | cons op ops ih =>
    obtain ⟨σ₁, hstep, hrun⟩ := Option.bind_eq_some_iff.mp hrun
    obtain ⟨U₁, cells₁, h₁⟩ := h.step hset.1 hstep
    exact ih h₁ (hset.2 σ₁ hstep) hrun

/-- Right after a reset only persistent terms are in use. -/
theorem Scene.reset (hin : InUse a U) (hslab : ∀ q ∈ U, q.isScratch = false)
    (hrules : ∀ e ∈ rules, Source a.mem U e.1 e.2) :
    Scene rules (ScratchState.reset a) U fun _ => [] where
  inUse := {
    nodup := hin.nodup
    free := hin.free
    slab := hin.slab
    scratch := fun _ _ hq => nomatch hslab _ hq
    region := hin.region }
  rules e he := by
    obtain ⟨as, ht, hU⟩ := hrules e he
    exact ⟨as, ht, fun q hq => ⟨hU q hq, hslab q (hU q hq)⟩⟩
  tops _ hp := nomatch hp
  disjoint _ hp := nomatch hp
  built _ he := nomatch he

/-- Every scratch term built since the reset stands in the region and reads as its tree, in every
run that moves the region only when it holds no cell. -/
theorem scratch_terms_stay (hin : InUse a U) (hslab : ∀ q ∈ U, q.isScratch = false)
    (hrules : ∀ e ∈ rules, Source a.mem U e.1 e.2) {ops : List ScratchOp}
    (hset : (ScratchState.reset a).Settled moves rules ops)
    (hrun : (ScratchState.reset a).run moves rules ops = some σ) : ∀ e ∈ σ.built,
      (∃ as, Threaded ftCoding σ.arena.mem e.2 (e.1 :: as) ∧ ∀ q ∈ e.1 :: as,
        ∃ off, q = .scratch σ.arena.bump.region off ∧ off < σ.arena.bump.top) ∧
      ∀ n, e.2.size ≤ n → ftToTerm σ.arena.mem n e.1 = some (treeTerm e.2) := by
  obtain ⟨U', cells, h⟩ := (Scene.reset hin hslab hrules).run hset hrun
  intro e he
  obtain ⟨as, hthread, p, hp, hpart⟩ := h.built e he
  refine ⟨⟨as, hthread, fun q hq => ?_⟩, fun n hn => ftToTerm_spec hthread hn⟩
  obtain ⟨_, _, _, _, _, hU⟩ := h.tops p hp
  obtain ⟨hqU, hscratch⟩ := hU q (hpart.subset hq)
  cases q with
  | slab block off => cases hscratch
  | scratch region off =>
    obtain ⟨rfl, hlt⟩ := h.inUse.scratch region off hqU
    exact ⟨off, rfl, hlt⟩

theorem Bump.settled_one (b : Bump) (h : b.top = b.cap → b.top = 0 ∨ moves b.grows = false) :
    b.Settled moves 1 := by
  rw [Bump.Settled]
  split
  · rename_i hfull
    exact ⟨h hfull, fun _ _ => trivial⟩
  · exact trivial

/-- Two cells and a node over them, in a region that is taken for the first one. -/
def pairOps : List ScratchOp := [.var 0, .const 5, .ctr 3 [.scratch 1 0, .scratch 1 1]]

theorem pairOps_settled : (ScratchState.reset ftInit).Settled (fun _ => true) [] pairOps := by
  refine ⟨fun t n h => ?_, fun σ h => ?_⟩
  · cases h
    exact Bump.settled_one _ fun _ => .inl rfl
  cases h
  refine ⟨fun t n h => ?_, fun σ h => ?_⟩
  · cases h
    exact Bump.settled_one _ fun hfull => absurd hfull (by decide)
  cases h
  refine ⟨fun t n h => ?_, fun _ _ => trivial⟩
  cases h
  exact Bump.settled_one _ fun hfull => absurd hfull (by decide)

theorem scratch_terms_stay_pair : ∃ σ,
    (ScratchState.reset ftInit).run (fun _ => true) [] pairOps = some σ ∧ ∀ e ∈ σ.built,
      (∃ as, Threaded ftCoding σ.arena.mem e.2 (e.1 :: as) ∧ ∀ q ∈ e.1 :: as,
        ∃ off, q = .scratch σ.arena.bump.region off ∧ off < σ.arena.bump.top) ∧
      ∀ n, e.2.size ≤ n → ftToTerm σ.arena.mem n e.1 = some (treeTerm e.2) :=
  ⟨_, rfl, scratch_terms_stay inUse_init (fun _ h => False.elim h)
    (fun _ h => absurd h List.not_mem_nil) pairOps_settled rfl⟩

theorem run_append (rules : List (Addr × CellTree)) (σ : ScratchState) (ops ops' : List ScratchOp) :
    σ.run moves rules (ops ++ ops') =
      (σ.run moves rules ops).bind fun σ => σ.run moves rules ops' := by
  induction ops generalizing σ with
  | nil => rfl
  | cons op ops ih =>
    rw [List.cons_append, ScratchState.run, ScratchState.run, Option.bind_eq_bind,
      Option.bind_assoc]
    congr 1
    funext σ
    exact ih σ

/-- A variable takes one cell. -/
theorem step_var (rules : List (Addr × CellTree)) (σ : ScratchState) (id : ℕ)
    (halloc : σ.arena.allocScratch moves = some (p, a')) :
    σ.step moves rules (.var id) = some
      ⟨a'.put p ⟨none, p, ⟨varBit + id % varBit, 0, false⟩⟩, (p, .leaf (id % varBit)) :: σ.built,
        p :: σ.tops⟩ := by
  have hexec : (ScratchOp.var id).exec moves σ.arena =
      some (p, a'.put p ⟨none, p, ⟨varBit + id % varBit, 0, false⟩⟩) := by
    rw [ScratchOp.exec, ftnewVar, AtpFt.allocOne, if_pos rfl, halloc]
    rfl
  have hall : σ.tops.filter (· ∉ (ScratchOp.var id).args) = σ.tops := by simp [ScratchOp.args]
  rw [ScratchState.step, hexec]
  change some _ = some _
  rw [hall]

theorem run_var {rules : List (Addr × CellTree)} {ops : List ScratchOp} (id : ℕ)
    (hrun : σ.run moves rules ops = some σ') (halloc : σ'.arena.allocScratch moves = some (p, a')) :
    σ.run moves rules (ops ++ [.var id]) = some
      ⟨a'.put p ⟨none, p, ⟨varBit + id % varBit, 0, false⟩⟩, (p, .leaf (id % varBit)) :: σ'.built,
        p :: σ'.tops⟩ := by
  rw [run_append, hrun, Option.bind_some, ScratchState.run, step_var rules σ' id halloc]
  rfl

/-- Variables fill the first region. -/
theorem run_vars (n : ℕ) (hn : n < scratchInitCells) : ∃ σ,
    (ScratchState.reset ftInit).run (fun _ => true) [] (List.replicate (n + 1) (.var 0)) = some σ ∧
      σ.arena.bump = ⟨1, scratchInitCells, n + 1, 1⟩ ∧
      (Addr.scratch 1 0, TermTree.leaf 0) ∈ σ.built := by
  induction n with
  | zero => exact ⟨_, rfl, rfl, List.mem_cons_self⟩
  | succ n ih =>
    obtain ⟨σ, hrun, hbump, hbuilt⟩ := ih (by omega)
    have halloc : σ.arena.allocScratch (fun _ => true) = some σ.arena.bumpTop := by
      rw [AtpFt.allocScratch, if_neg]
      · rfl
      · rw [hbump]
        exact Nat.ne_of_lt hn
    rw [List.replicate_succ']
    refine ⟨_, run_var 0 hrun halloc, ?_, List.mem_cons_of_mem _ hbuilt⟩
    change ({ σ.arena.bump with top := σ.arena.bump.top + 1 } : Bump) = _
    rw [hbump]

theorem ftToTerm_unmapped (n : ℕ) (h : m p = none) : ftToTerm m n p = none := by
  cases n with
  | zero => rfl
  | succ n =>
    rw [ftToTerm, h]
    rfl

/-- One more variable moves the region, and the first one is not to be read any more. -/
theorem scratch_term_moves : ∃ σ,
    (ScratchState.reset ftInit).run (fun _ => true) []
      (List.replicate (scratchInitCells + 1) (.var 0)) = some σ ∧
      (Addr.scratch 1 0, TermTree.leaf 0) ∈ σ.built ∧
      ∀ n, ftToTerm σ.arena.mem n (.scratch 1 0) = none := by
  obtain ⟨σ, hrun, hbump, hbuilt⟩ := run_vars (scratchInitCells - 1) (by decide)
  have hnew : σ.arena.bump.newCells σ.arena.bump.want = some (2 * scratchInitCells) := by
    rw [hbump]
    decide
  obtain ⟨b, hb, hregion, hmem⟩ : ∃ b,
      σ.arena.scratchGrow (fun _ => true) σ.arena.bump.want = some b ∧ b.bump.region = 2 ∧
        b.mem (.scratch 1 0) = none := by
    rw [AtpFt.scratchGrow, hnew]
    refine ⟨_, rfl, ?_, ?_⟩
    · dsimp only
      rw [hbump]
    · dsimp only
      rw [hbump]
      rfl
  have halloc : σ.arena.allocScratch (fun _ => true) = some b.bumpTop := by
    rw [AtpFt.allocScratch, if_pos (by rw [hbump]; rfl), hb]
    rfl
  have hne : Addr.scratch 1 0 ≠ b.bumpTop.1 := by
    change Addr.scratch 1 0 ≠ .scratch b.bump.region b.bump.top
    rw [hregion]
    intro h
    cases h
  have hsplit : scratchInitCells + 1 = scratchInitCells - 1 + 1 + 1 := by decide
  rw [hsplit, List.replicate_succ']
  refine ⟨_, run_var 0 hrun halloc, List.mem_cons_of_mem _ hbuilt, fun n => ?_⟩
  exact ftToTerm_unmapped n ((AtpFt.put_of_ne hne).trans ((AtpFt.put_of_ne hne).trans hmem))

end Thvm.Ft
