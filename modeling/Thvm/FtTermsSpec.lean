import Thvm.FtTerms

/-!
# What the cells of flat terms stand for

A built term is threaded through fresh cells; the constructors keep what was built before,
and reading the cells gives back the tree they were built for.
-/

namespace Thvm.Ft

open ThreadedTrees

variable {moves : ℕ → Bool} {a a' : AtpFt} {U : Set Addr} {p q : Addr} {c : FtCell} {n : ℕ}
  {scratch : Bool} {t : CellTree} {args : List CellTree} {as : List Addr} {ass : List (List Addr)}

theorem cellTrees_eq (args : List FTerm) : cellTrees args = args.map cellTree := by
  induction args with
  | nil => rfl
  | cons a args ih => rw [cellTrees, ih, List.map_cons]

theorem mod_varBit_lt (n : ℕ) : n % varBit < varBit := Nat.mod_lt n (by rw [varBit]; omega)

/-- A tree has been built into fresh cells; the last one has no link yet. -/
structure Builds (scratch : Bool) (a : AtpFt) (U : Set Addr) (t : CellTree) (as : List Addr)
    (a' : AtpFt) : Prop where
  threaded : Threaded ftCoding a'.mem t as
  kind : ∀ q ∈ as, q.isScratch = scratch
  fresh : ∀ q ∈ as, q ∉ U
  inUse : InUse a' (U ∪ {q | q ∈ as})
  kept : ∀ q ∈ U, a'.mem q = a.mem q
  ended : ∃ q c, as.getLast? = some q ∧ a'.mem q = some c ∧ c.next = none

theorem InUse.put (h : InUse a U) (p : Addr) (c : FtCell) : InUse (a.put p c) U :=
  h.of_eq rfl rfl rfl

theorem Alloc.put (h : Alloc scratch a U p a') (c : FtCell) (hq : q ∈ U) :
    (a'.put p c).mem q = a.mem q := by
  refine Eq.trans (AtpFt.put_of_ne ?_) (h.kept q hq)
  rintro rfl
  exact h.fresh hq

/-- A tree of one cell. -/
theorem Alloc.builds (h : Alloc scratch a U p a') {c : FtCell} (hnext : c.next = none)
    (hshape : Shaped ftCoding (a'.put p c).mem t [p]) :
    Builds scratch a U t [p] (a'.put p c) where
  threaded := ⟨hshape, List.isChain_singleton p, List.nodup_singleton p⟩
  kind := by
    intro q hq
    rw [List.mem_singleton.mp hq]
    exact h.kind
  fresh := by
    intro q hq
    rw [List.mem_singleton.mp hq]
    exact h.fresh
  inUse := (h.inUse.put p c).subset (by
    rintro q (hq | hq)
    · exact .inr hq
    · exact .inl (List.mem_singleton.mp hq))
  kept _ hq := h.put c hq
  ended := ⟨p, c, rfl, AtpFt.put_self _ _ _, hnext⟩

theorem ftnewVar_spec {id : ℕ} (h : InUse a U) (hset : a.Settled moves scratch (n + 1))
    (hrun : ftnewVar moves a id scratch = some (p, a')) :
    Builds scratch a U (.leaf (id % varBit)) [p] a' ∧ a'.Settled moves scratch n := by
  rw [ftnewVar, Option.bind_eq_bind, Option.bind_eq_some_iff] at hrun
  obtain ⟨⟨q, b⟩, halloc, hrun⟩ := hrun
  cases hrun
  obtain ⟨hspec, hrest⟩ := allocOne_spec h hset halloc
  exact ⟨hspec.builds rfl
    ⟨p, _, rfl, AtpFt.put_self _ _ _, ⟨mod_varBit_lt id, rfl, rfl⟩, rfl⟩, hrest⟩

theorem ftnewConst_spec {sym : ℕ} (h : InUse a U) (hset : a.Settled moves scratch (n + 1))
    (hrun : ftnewConst moves a sym scratch = some (p, a')) :
    Builds scratch a U (.node (sym % varBit) []) [p] a' ∧ a'.Settled moves scratch n := by
  rw [ftnewConst, Option.bind_eq_bind, Option.bind_eq_some_iff] at hrun
  obtain ⟨⟨q, b⟩, halloc, hrun⟩ := hrun
  cases hrun
  obtain ⟨hspec, hrest⟩ := allocOne_spec h hset halloc
  exact ⟨hspec.builds rfl
    ⟨p, _, [], rfl, AtpFt.put_self _ _ _, ⟨mod_varBit_lt sym, rfl, rfl⟩, rfl, rfl⟩, hrest⟩

/-- What `ftnew_ctr` does: it links the cells of the arguments behind a new cell. -/
structure Joins (scratch : Bool) (a : AtpFt) (U : Set Addr) (sym arity : ℕ)
    (args : List CellTree) (ass : List (List Addr)) (p : Addr) (a' : AtpFt) : Prop where
  kind : p.isScratch = scratch
  threaded : Threaded ftCoding a'.mem (.node (sym % varBit) (args.take arity))
    (p :: (ass.take arity).flatten)
  fresh : p ∉ U
  inUse : InUse a' (insert p U)
  shape : ∀ as, (∀ q ∈ as, q ∈ U) → SameShape a.mem a'.mem as
  kept : ∀ q ∈ U, q ∉ (ass.take arity).filterMap List.getLast? → a'.mem q = a.mem q
  ended : ∃ q c, (p :: (ass.take arity).flatten).getLast? = some q ∧ a'.mem q = some c ∧
    c.next = none

theorem heads_take {m : FtMemory} (h : List.Forall₂ (Threaded ftCoding m) args ass) (n : ℕ) :
    (ass.filterMap List.head?).take n = (ass.take n).filterMap List.head? := by
  induction h generalizing n with
  | nil => simp
  | cons ht _ ih =>
    obtain ⟨q, rest, c, rfl, -⟩ := ht.shaped.root
    cases n with
    | zero => rfl
    | succ n =>
      rw [List.filterMap_cons, List.head?_cons, List.take_succ_cons, List.take_succ_cons, ih]
      rfl

theorem flatten_take (ass : List (List Addr)) (n : ℕ) :
    ass.flatten = (ass.take n).flatten ++ (ass.drop n).flatten := by
  rw [← List.flatten_append, List.take_append_drop]

theorem forall₂_congr_eq {m m' : FtMemory} (h : List.Forall₂ (Threaded ftCoding m) args ass)
    (hsame : ∀ q ∈ ass.flatten, m' q = m q) : List.Forall₂ (Threaded ftCoding m') args ass := by
  induction h with
  | nil => exact .nil
  | cons ht _ ih =>
    refine .cons (ht.congr_eq fun q hq => hsame q ?_) (ih fun q hq => hsame q ?_)
    · exact List.mem_append_left _ hq
    · exact List.mem_append_right _ hq

theorem ftnewCtr_joins {b : AtpFt} {arity : ℕ} (sym : ℕ) (hspec : Alloc scratch a U p b)
    (halloc : a.allocOne moves scratch = some (p, b))
    (hargs : List.Forall₂ (Threaded ftCoding a.mem) args ass) (hU : ∀ q ∈ ass.flatten, q ∈ U)
    (hnodup : ass.flatten.Nodup) (harity : arity ≤ args.length) : ∃ a',
      ftnewCtr moves a sym arity (ass.filterMap List.head?) scratch = some (p, a') ∧
        Joins scratch a U sym arity args ass p a' ∧ a'.bump = b.bump := by
  rw [ftnewCtr, halloc, Option.bind_eq_bind, Option.bind_some]
  replace hargs := forall₂_congr_eq hargs fun x hx => hspec.kept x (hU x hx)
  by_cases h0 : arity = 0
  · subst h0
    have hb := hspec.builds (c := ⟨none, p, ⟨sym % varBit, 0, true⟩⟩) (t := .node (sym % varBit) [])
      rfl ⟨p, _, [], rfl, AtpFt.put_self _ _ _, ⟨mod_varBit_lt sym, rfl, rfl⟩, rfl, rfl⟩
    refine ⟨_, if_pos rfl, ⟨hspec.kind, hb.threaded, hspec.fresh, hspec.inUse.put _ _,
      fun as has => ?_, fun x hx _ => hb.kept x hx, hb.ended⟩, rfl⟩
    exact .of_eq fun x hx => hb.kept x (has x hx)
  · obtain ⟨k, rfl⟩ := Nat.exists_eq_succ_of_ne_zero h0
    cases hargs with
    | nil => cases harity
    | cons ht hargs =>
      rename_i t bs args ass
      obtain ⟨x, rest, c, rfl, hc, hfin⟩ := ht.shaped.root
      have hsplit := List.dropLast_append_getLast (List.cons_ne_nil x rest)
      rw [← hfin] at hsplit
      have hpending := List.forall₂_take k hargs
      have hcells : ((x :: rest) :: ass.take k).flatten =
          (x :: rest).dropLast ++ [c.fin] ++ (ass.take k).flatten := by
        rw [List.flatten_cons, hsplit]
      have hcells' : ((x :: rest) :: ass.take k).flatten.Nodup :=
        (flatten_take ((x :: rest) :: ass) (k + 1) ▸ hnodup).of_append_left
      have hmemU : ∀ y ∈ ((x :: rest) :: ass.take k).flatten, y ∈ U := by
        intro y hy
        apply hU y
        rw [flatten_take ((x :: rest) :: ass) (k + 1)]
        exact List.mem_append_left _ hy
      have hdone : Row ftCoding b.mem [t] ((x :: rest).dropLast ++ [c.fin]) := by
        rw [hsplit]
        exact ⟨⟨_, [], (List.append_nil _).symm, ht.shaped, rfl⟩, ht.chain, ht.nodup⟩
      obtain ⟨mem, prevEnd, ground, hstitch, hout⟩ := stitch_spec
        (fun ground d => ground && d.ground) c.data.ground hdone hpending (hcells ▸ hcells')
      rw [← hcells, List.singleton_append] at hout
      obtain ⟨e, hend⟩ := hout.row.shaped.mapped (List.mem_of_getLast? hout.fin)
      have hheads : ((((x :: rest) :: ass).filterMap List.head?).take (k + 1)).tail =
          (ass.take k).filterMap List.head? := by
        rw [List.filterMap_cons, List.head?_cons, List.take_succ_cons, List.tail_cons,
          heads_take hargs]
      obtain ⟨a', hfinal⟩ : ∃ a', { b with mem := setNext mem prevEnd none }.put p
          ⟨some x, prevEnd, ⟨sym % varBit, k + 1, ground⟩⟩ = a' := ⟨_, rfl⟩
      refine ⟨a', ?_, ?_, hfinal ▸ rfl⟩
      · simp only [if_neg h0]
        rw [hheads]
        simp only [List.filterMap_cons, List.head?_cons, Option.bind_eq_bind, Option.bind_some, hc,
          hstitch, hend]
        rw [← hfinal]
      have hne : ∀ y ∈ U, y ≠ p := by
        rintro y hy rfl
        exact hspec.fresh hy
      have hself : a'.mem p = some ⟨some x, prevEnd, ⟨sym % varBit, k + 1, ground⟩⟩ :=
        hfinal ▸ AtpFt.put_self _ _ _
      have hother : ∀ y ∈ U, a'.mem y = setNext mem prevEnd none y :=
        fun y hy => hfinal ▸ AtpFt.put_of_ne (hne y hy)
      have hin : InUse a' (insert p U) := by
        refine hspec.inUse.of_eq ?_ ?_ ?_ <;> rw [← hfinal] <;> rfl
      have hrow := (hout.row.relink (n := none) (notMem_dropLast hcells' hout.fin)).congr_eq
        fun y hy => hother y (hmemU y hy)
      have hlasts : ((x :: rest) :: ass.take k).filterMap List.getLast? =
          c.fin :: (ass.take k).filterMap List.getLast? := by
        rw [List.filterMap_cons, List.getLast?_eq_some_getLast (List.cons_ne_nil x rest), ← hfin]
      have hlast : (p :: ((x :: rest) :: ass.take k).flatten).getLast? = some prevEnd := by
        rw [List.getLast?_cons, hout.fin]
        rfl
      refine ⟨hspec.kind, hrow.node (fun hp => hne p (hmemU p hp) rfl) hself ?_ ?_ ?_, hspec.fresh,
        hin, ?_, ?_, prevEnd, _, hlast, (hother _ (hmemU _ (List.mem_of_getLast? hout.fin))).trans
          (setNext_self hend), rfl⟩
      · refine ⟨mod_varBit_lt sym, rfl, ?_⟩
        rw [List.length_cons, List.length_take]
        rw [List.length_cons] at harity
        dsimp only
        omega
      · rw [List.getLast?_eq_some_getLast (List.cons_ne_nil _ _)] at hlast
        exact (Option.some.inj hlast).symm
      · intro y hy
        exact hy
      · intro as has y hy d hd
        obtain ⟨d', hd', hdata, hfin'⟩ := hout.shape as y hy d
          ((hspec.kept y (has y hy)).trans hd)
        obtain ⟨d'', hd'', hdata', hfin''⟩ := sameShape_setNext mem prevEnd none as y hy d' hd'
        exact ⟨d'', (hother y (has y hy)).trans hd'', hdata'.trans hdata, hfin''.trans hfin'⟩
      · intro y hy hnot
        rw [List.take_succ_cons, hlasts] at hnot
        have hy' : y ≠ prevEnd := fun he => hnot (he ▸ hout.last)
        rw [hother y hy, setNext_of_ne hy', hout.outside y hnot, hspec.kept y hy]

theorem ftnewCtr_spec {sym arity : ℕ} (h : InUse a U) (hset : a.Settled moves scratch (n + 1))
    (hargs : List.Forall₂ (Threaded ftCoding a.mem) args ass) (hU : ∀ q ∈ ass.flatten, q ∈ U)
    (hnodup : ass.flatten.Nodup) (harity : arity ≤ args.length)
    (hrun : ftnewCtr moves a sym arity (ass.filterMap List.head?) scratch = some (p, a')) :
    Joins scratch a U sym arity args ass p a' ∧ a'.Settled moves scratch n := by
  obtain ⟨⟨q, b⟩, halloc, -⟩ := Option.bind_eq_some_iff.mp hrun
  obtain ⟨hspec, hrest⟩ := allocOne_spec h hset halloc
  obtain ⟨b', hrun', hjoin, hbump⟩ := ftnewCtr_joins sym hspec halloc hargs hU hnodup harity
  cases hrun.symm.trans hrun'
  exact ⟨hjoin, fun hs => hbump ▸ hrest hs⟩

/-- Trees have been built one after the other into fresh cells. -/
structure BuildsRow (scratch : Bool) (a : AtpFt) (U : Set Addr) (args : List CellTree)
    (ass : List (List Addr)) (a' : AtpFt) : Prop where
  threaded : List.Forall₂ (Threaded ftCoding a'.mem) args ass
  kind : ∀ q ∈ ass.flatten, q.isScratch = scratch
  nodup : ass.flatten.Nodup
  fresh : ∀ q ∈ ass.flatten, q ∉ U
  inUse : InUse a' (U ∪ {q | q ∈ ass.flatten})
  kept : ∀ q ∈ U, a'.mem q = a.mem q

theorem BuildsRow.nil (h : InUse a U) : BuildsRow scratch a U [] [] a where
  threaded := .nil
  kind _ hq := nomatch hq
  nodup := List.nodup_nil
  fresh _ hq := nomatch hq
  inUse := h.subset (by
    rintro q (hq | hq)
    · exact hq
    · cases hq)
  kept _ _ := rfl

theorem BuildsRow.cons {b : AtpFt} (h : Builds scratch a U t as b)
    (hrow : BuildsRow scratch b (U ∪ {q | q ∈ as}) args ass a') :
    BuildsRow scratch a U (t :: args) (as :: ass) a' where
  threaded := .cons (h.threaded.congr_eq fun q hq => hrow.kept q (.inr hq)) hrow.threaded
  kind := by
    intro q hq
    rcases List.mem_append.mp hq with hq | hq
    · exact h.kind q hq
    · exact hrow.kind q hq
  nodup := by
    rw [List.flatten_cons]
    refine h.threaded.nodup.append hrow.nodup ?_
    intro q hq hq'
    exact hrow.fresh q hq' (.inr hq)
  fresh := by
    intro q hq
    rcases List.mem_append.mp hq with hq | hq
    · exact h.fresh q hq
    · exact fun hU => hrow.fresh q hq (.inl hU)
  inUse := by
    refine hrow.inUse.subset ?_
    rintro q (hq | hq)
    · exact .inl (.inl hq)
    · rcases List.mem_append.mp hq with hq | hq
      · exact .inl (.inr hq)
      · exact .inr hq
  kept q hq := (hrow.kept q (.inl hq)).trans (h.kept q hq)

/-- The arguments are built first, then joined. -/
theorem BuildsRow.join {b : AtpFt} (sym arity : ℕ) (h : BuildsRow scratch a U args ass b)
    (hset : b.Settled moves scratch (n + 1)) (harity : arity ≤ args.length)
    (hrun : ftnewCtr moves b sym arity (ass.filterMap List.head?) scratch = some (p, a')) :
    Builds scratch a U (.node (sym % varBit) (args.take arity)) (p :: (ass.take arity).flatten) a' ∧
      a'.Settled moves scratch n := by
  obtain ⟨hjoin, hrest⟩ := ftnewCtr_spec h.inUse hset h.threaded (fun q hq => .inr hq) h.nodup
    harity hrun
  have hsub : ∀ q ∈ (ass.take arity).flatten, q ∈ ass.flatten := by
    intro q hq
    rw [flatten_take ass arity]
    exact List.mem_append_left _ hq
  refine ⟨⟨hjoin.threaded, ?_, ?_, hjoin.inUse.subset ?_, fun q hq => ?_, hjoin.ended⟩, hrest⟩
  · intro q hq
    rcases List.mem_cons.mp hq with rfl | hq
    · exact hjoin.kind
    · exact h.kind q (hsub q hq)
  · intro q hq
    rcases List.mem_cons.mp hq with rfl | hq
    · exact fun hU => hjoin.fresh (.inl hU)
    · exact h.fresh q (hsub q hq)
  · rintro q (hq | hq)
    · exact .inr (.inl hq)
    · rcases List.mem_cons.mp hq with rfl | hq
      · exact .inl rfl
      · exact .inr (.inr (hsub q hq))
  · refine (hjoin.kept q (.inl hq) fun hlast => ?_).trans (h.kept q hq)
    obtain ⟨as, has, hlast⟩ := List.mem_filterMap.mp hlast
    exact h.fresh q (hsub q (List.mem_flatten_of_mem has (List.mem_of_getLast? hlast))) hq

/-- Building the arguments of a term one after the other. -/
theorem ftFromTermKids_spec {ts : List FTerm}
    (hts : ∀ t ∈ ts, ∀ {a a' : AtpFt} {U : Set Addr} {p : Addr} {n : ℕ}, InUse a U →
      a.Settled moves scratch (cellCount t + n) → ftFromTerm moves scratch t a = some (p, a') →
      ∃ rest, Builds scratch a U (cellTree t) (p :: rest) a' ∧ a'.Settled moves scratch n)
    {kids : List Addr} (h : InUse a U) (hset : a.Settled moves scratch (cellCounts ts + n))
    (hrun : ftFromTermKids moves scratch ts a = some (kids, a')) :
    ∃ ass, kids = ass.filterMap List.head? ∧ BuildsRow scratch a U (ts.map cellTree) ass a' ∧
      a'.Settled moves scratch n := by
  induction ts generalizing a U kids with
  | nil =>
    cases hrun
    rw [cellCounts, Nat.zero_add] at hset
    exact ⟨[], rfl, .nil h, hset⟩
  | cons t ts ih =>
    rw [ftFromTermKids, Option.bind_eq_bind, Option.bind_eq_some_iff] at hrun
    obtain ⟨⟨p, b⟩, hfirst, hrun⟩ := hrun
    rw [Option.bind_eq_bind, Option.bind_eq_some_iff] at hrun
    obtain ⟨⟨rest, b'⟩, hothers, hrun⟩ := hrun
    cases hrun
    rw [cellCounts, Nat.add_assoc] at hset
    obtain ⟨cells, hbuilds, hset'⟩ := hts t List.mem_cons_self h hset hfirst
    obtain ⟨ass, rfl, hrow, hset''⟩ := ih (fun s hs => hts s (List.mem_cons_of_mem t hs))
      hbuilds.inUse hset' hothers
    exact ⟨(p :: cells) :: ass, rfl, .cons hbuilds hrow, hset''⟩

/-- `ft_from_term` builds the tree of the term. -/
theorem ftFromTerm_spec (t : FTerm) {a a' : AtpFt} {U : Set Addr} {p : Addr} {n : ℕ}
    (h : InUse a U) (hset : a.Settled moves scratch (cellCount t + n))
    (hrun : ftFromTerm moves scratch t a = some (p, a')) :
    ∃ rest, Builds scratch a U (cellTree t) (p :: rest) a' ∧ a'.Settled moves scratch n := by
  induction t using TermTree.induct generalizing a a' U p n with
  | leaf l =>
    cases l with
    | fvr id =>
      rw [cellCount, Nat.add_comm] at hset
      obtain ⟨hb, hrest⟩ := ftnewVar_spec h hset hrun
      exact ⟨[], hb, hrest⟩
    | num dtype value =>
      rw [ftFromTerm, Option.bind_eq_bind, Option.bind_eq_some_iff] at hrun
      obtain ⟨⟨p₁, b₁⟩, hfirst, hrun⟩ := hrun
      dsimp only at hrun
      rw [Option.bind_eq_some_iff] at hrun
      obtain ⟨⟨p₂, b₂⟩, hsecond, hrun⟩ := hrun
      have hcount : cellCount (.num dtype value) + n = n + 1 + 1 + 1 := by
        rw [cellCount]
        omega
      rw [hcount] at hset
      obtain ⟨hb₁, hset₁⟩ := ftnewConst_spec h hset hfirst
      obtain ⟨hb₂, hset₂⟩ := ftnewConst_spec hb₁.inUse hset₁ hsecond
      have hrow := BuildsRow.cons hb₁ (.cons hb₂ (.nil hb₂.inUse))
      obtain ⟨hb, hrest⟩ := hrow.join numMarker 2 hset₂ le_rfl hrun
      rw [Nat.mod_mod, Nat.mod_mod] at hb
      exact ⟨_, hb, hrest⟩
  | node label args ih =>
    rw [ftFromTerm] at hrun
    by_cases h0 : args.length = 0
    · obtain rfl := List.length_eq_zero_iff.mp h0
      rw [if_pos h0] at hrun
      rw [cellCount, cellCounts, Nat.add_comm] at hset
      obtain ⟨hb, hrest⟩ := ftnewConst_spec h hset hrun
      exact ⟨[], hb, hrest⟩
    · rw [if_neg h0, Option.bind_eq_bind, Option.bind_eq_some_iff] at hrun
      obtain ⟨⟨kids, b⟩, hkids, hrun⟩ := hrun
      have hcount : cellCount (.node label args) + n = cellCounts args + (n + 1) := by
        rw [cellCount]
        omega
      rw [hcount] at hset
      obtain ⟨ass, rfl, hrow, hset'⟩ := ftFromTermKids_spec (fun t ht => ih t ht) h hset hkids
      have harity : args.length % 2 ^ 16 ≤ (args.map cellTree).length := by
        rw [List.length_map]
        exact Nat.mod_le _ _
      obtain ⟨hb, hrest⟩ := hrow.join label _ hset' harity hrun
      rw [cellTree, cellTrees_eq]
      exact ⟨_, hb, hrest⟩

/-- The region gives the next `n` cells and is not moved while cells are in use. -/
def Bump.Supplies (moves : ℕ → Bool) : ℕ → Bump → Prop
  | 0, _ => True
  | n + 1, b =>
    if b.top = b.cap then
      (b.top = 0 ∨ moves b.grows = false) ∧
        ∃ newCells, b.newCells b.want = some newCells ∧
          Supplies moves n ⟨if moves b.grows then b.grows + 1 else b.region, newCells, b.top + 1,
            b.grows + 1⟩
    else Supplies moves n { b with top := b.top + 1 }

/-- The arena hands out the next `n` cells and moves none in use. -/
def AtpFt.Supplies (moves : ℕ → Bool) (a : AtpFt) (scratch : Bool) (n : ℕ) : Prop :=
  scratch = true → a.bump.Supplies moves n

theorem Bump.Supplies.settled {b : Bump} (h : b.Supplies moves n) : b.Settled moves n := by
  induction n generalizing b with
  | zero => exact trivial
  | succ n ih =>
    rw [Bump.Supplies] at h
    rw [Bump.Settled]
    by_cases hfull : b.top = b.cap
    · rw [if_pos hfull] at h ⊢
      obtain ⟨hstay, newCells, hnew, hrest⟩ := h
      refine ⟨hstay, fun newCells' hnew' => ?_⟩
      obtain rfl := Option.some.inj (hnew.symm.trans hnew')
      exact ih hrest
    · rw [if_neg hfull] at h ⊢
      exact ih h

theorem Bump.supplies_of_le (b : Bump) (h : b.top + n ≤ b.cap) : b.Supplies moves n := by
  induction n generalizing b with
  | zero => exact trivial
  | succ n ih =>
    rw [Bump.Supplies, if_neg (by omega)]
    exact ih _ (by dsimp only; omega)

namespace AtpFt.Supplies

theorem settled (h : a.Supplies moves scratch n) : a.Settled moves scratch n :=
  fun hs => (h hs).settled

theorem of_bump (h : a.Supplies moves scratch n) (hbump : a'.bump = a.bump) :
    a'.Supplies moves scratch n := fun hs => hbump ▸ h hs

theorem persistent : a.Supplies moves false n := fun hs => by cases hs

/-- The next cell is there. -/
theorem allocOne (h : a.Supplies moves scratch (n + 1)) :
    ∃ p a', a.allocOne moves scratch = some (p, a') ∧ a'.Supplies moves scratch n := by
  cases scratch with
  | false => exact ⟨_, _, rfl, persistent⟩
  | true =>
    have hbump := h rfl
    rw [Bump.Supplies] at hbump
    by_cases hfull : a.bump.top = a.bump.cap
    · rw [if_pos hfull] at hbump
      obtain ⟨-, newCells, hnew, hrest⟩ := hbump
      obtain ⟨c, hgrow, hc⟩ : ∃ c, a.scratchGrow moves a.bump.want = some c ∧ c.bump =
          ⟨if moves a.bump.grows then a.bump.grows + 1 else a.bump.region, newCells, a.bump.top,
            a.bump.grows + 1⟩ := by
        rw [AtpFt.scratchGrow, hnew]
        by_cases hmoves : moves a.bump.grows = true
        · exact ⟨_, if_pos hmoves, by rw [if_pos hmoves]⟩
        · exact ⟨_, if_neg hmoves, by rw [if_neg hmoves]⟩
      refine ⟨c.bumpTop.1, c.bumpTop.2, ?_, fun _ => ?_⟩
      · rw [AtpFt.allocOne, if_pos rfl, AtpFt.allocScratch, if_pos hfull, hgrow]
        rfl
      · change Bump.Supplies moves n { c.bump with top := c.bump.top + 1 }
        rw [hc]
        exact hrest
    · rw [if_neg hfull] at hbump
      refine ⟨a.bumpTop.1, a.bumpTop.2, ?_, fun _ => hbump⟩
      rw [AtpFt.allocOne, if_pos rfl, AtpFt.allocScratch, if_neg hfull]
      rfl

end AtpFt.Supplies

/-- The scratch region has room for `n` more cells. -/
def AtpFt.Room (a : AtpFt) (scratch : Bool) (n : ℕ) : Prop :=
  scratch = true → a.bump.top + n ≤ a.bump.cap

theorem AtpFt.Room.supplies (h : a.Room scratch n) : a.Supplies moves scratch n :=
  fun hs => a.bump.supplies_of_le (h hs)

theorem ftnewVar_supplied (h : InUse a U) (hsup : a.Supplies moves scratch (n + 1)) (id : ℕ) :
    ∃ p a', ftnewVar moves a id scratch = some (p, a') ∧
      Builds scratch a U (.leaf (id % varBit)) [p] a' ∧ a'.Supplies moves scratch n := by
  obtain ⟨p, b, halloc, hrest⟩ := hsup.allocOne
  have hrun : ftnewVar moves a id scratch =
      some (p, b.put p ⟨none, p, ⟨varBit + id % varBit, 0, false⟩⟩) := by
    rw [ftnewVar, halloc]
    rfl
  exact ⟨p, _, hrun, (ftnewVar_spec h hsup.settled hrun).1, hrest.of_bump rfl⟩

theorem ftnewConst_supplied (h : InUse a U) (hsup : a.Supplies moves scratch (n + 1)) (sym : ℕ) :
    ∃ p a', ftnewConst moves a sym scratch = some (p, a') ∧
      Builds scratch a U (.node (sym % varBit) []) [p] a' ∧ a'.Supplies moves scratch n := by
  obtain ⟨p, b, halloc, hrest⟩ := hsup.allocOne
  have hrun : ftnewConst moves a sym scratch =
      some (p, b.put p ⟨none, p, ⟨sym % varBit, 0, true⟩⟩) := by
    rw [ftnewConst, halloc]
    rfl
  exact ⟨p, _, hrun, (ftnewConst_spec h hsup.settled hrun).1, hrest.of_bump rfl⟩

/-- Joining returns whenever its one cell does. -/
theorem BuildsRow.join_supplied {b : AtpFt} {arity : ℕ} (h : BuildsRow scratch a U args ass b)
    (hsup : b.Supplies moves scratch (n + 1)) (sym : ℕ) (harity : arity ≤ args.length) :
    ∃ p a', ftnewCtr moves b sym arity (ass.filterMap List.head?) scratch = some (p, a') ∧
      Builds scratch a U (.node (sym % varBit) (args.take arity)) (p :: (ass.take arity).flatten)
        a' ∧ a'.Supplies moves scratch n := by
  obtain ⟨p, b', halloc, hrest⟩ := hsup.allocOne
  obtain ⟨hspec, -⟩ := allocOne_spec h.inUse hsup.settled halloc
  obtain ⟨a', hrun, -, hbump⟩ := ftnewCtr_joins sym hspec halloc h.threaded
    (fun q hq => .inr hq) h.nodup harity
  exact ⟨p, a', hrun, (h.join sym arity hsup.settled harity hrun).1, hrest.of_bump hbump⟩

theorem ftFromTermKids_supplied {ts : List FTerm}
    (hts : ∀ t ∈ ts, ∀ {a : AtpFt} {U : Set Addr} {n : ℕ}, InUse a U →
      a.Supplies moves scratch (cellCount t + n) →
      ∃ p as a', ftFromTerm moves scratch t a = some (p, a') ∧
        Builds scratch a U (cellTree t) (p :: as) a' ∧ a'.Supplies moves scratch n)
    (h : InUse a U) (hsup : a.Supplies moves scratch (cellCounts ts + n)) :
    ∃ ass a', ftFromTermKids moves scratch ts a = some (ass.filterMap List.head?, a') ∧
      BuildsRow scratch a U (ts.map cellTree) ass a' ∧ a'.Supplies moves scratch n := by
  induction ts generalizing a U with
  | nil =>
    rw [cellCounts, Nat.zero_add] at hsup
    exact ⟨[], a, rfl, .nil h, hsup⟩
  | cons t ts ih =>
    rw [cellCounts, Nat.add_assoc] at hsup
    obtain ⟨p, as, b, hfirst, hb, hsup'⟩ := hts t List.mem_cons_self h hsup
    obtain ⟨ass, a', hothers, hrow, hsup''⟩ := ih (fun s hs => hts s (List.mem_cons_of_mem t hs))
      hb.inUse hsup'
    refine ⟨(p :: as) :: ass, a', ?_, .cons hb hrow, hsup''⟩
    rw [ftFromTermKids, hfirst, Option.bind_eq_bind, Option.bind_some]
    dsimp only
    rw [hothers]
    rfl

/-- `ft_from_term` returns, and has built the tree of the term. -/
theorem ftFromTerm_supplied (t : FTerm) (h : InUse a U)
    (hsup : a.Supplies moves scratch (cellCount t + n)) :
    ∃ p as a', ftFromTerm moves scratch t a = some (p, a') ∧
      Builds scratch a U (cellTree t) (p :: as) a' ∧ a'.Supplies moves scratch n := by
  induction t using TermTree.induct generalizing a U n with
  | leaf l =>
    cases l with
    | fvr id =>
      rw [cellCount, Nat.add_comm] at hsup
      obtain ⟨p, a', hrun, hb, hsup'⟩ := ftnewVar_supplied h hsup id
      exact ⟨p, [], a', hrun, hb, hsup'⟩
    | num dtype value =>
      have hcount : cellCount (.num dtype value) + n = n + 1 + 1 + 1 := by
        rw [cellCount]
        omega
      rw [hcount] at hsup
      obtain ⟨p₁, b₁, hfirst, hb₁, hsup₁⟩ := ftnewConst_supplied h hsup (dtype % varBit)
      obtain ⟨p₂, b₂, hsecond, hb₂, hsup₂⟩ := ftnewConst_supplied hb₁.inUse hsup₁
        (value % 2 ^ 32 % varBit)
      have hrow := BuildsRow.cons hb₁ (.cons hb₂ (.nil hb₂.inUse))
      obtain ⟨p, a', hrun, hb, hsup'⟩ := hrow.join_supplied hsup₂ numMarker
        (le_refl 2)
      rw [Nat.mod_mod, Nat.mod_mod] at hb
      refine ⟨p, _, a', ?_, hb, hsup'⟩
      rw [ftFromTerm, hfirst, Option.bind_eq_bind, Option.bind_some]
      dsimp only
      rw [hsecond]
      exact hrun
  | node label args ih =>
    rw [ftFromTerm]
    by_cases h0 : args.length = 0
    · obtain rfl := List.length_eq_zero_iff.mp h0
      rw [if_pos h0]
      rw [cellCount, cellCounts, Nat.add_comm] at hsup
      obtain ⟨p, a', hrun, hb, hsup'⟩ := ftnewConst_supplied h hsup label
      exact ⟨p, [], a', hrun, hb, hsup'⟩
    · have hcount : cellCount (.node label args) + n = cellCounts args + (n + 1) := by
        rw [cellCount]
        omega
      rw [hcount] at hsup
      obtain ⟨ass, b, hkids, hrow, hsup'⟩ := ftFromTermKids_supplied (fun t ht => ih t ht) h hsup
      have harity : args.length % 2 ^ 16 ≤ (args.map cellTree).length := by
        rw [List.length_map]
        exact Nat.mod_le _ _
      obtain ⟨p, a', hrun, hb, hsup''⟩ := hrow.join_supplied hsup' label harity
      rw [cellTree, cellTrees_eq]
      refine ⟨p, _, a', ?_, hb, hsup''⟩
      rw [if_neg h0, hkids]
      exact hrun

end Thvm.Ft
