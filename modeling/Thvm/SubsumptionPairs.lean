import Thvm.SubsumptionDescent

/-!
# When a pair is found

A stored pair that matches a candidate is met by the descent, unless it has too many variable
occurrences. A pair that is met matches, unless the symbols do not tell the terms apart: numbers
have one symbol for all of them, and labels do not tell how many arguments follow.
-/

namespace Thvm.Atp.FvIndex
open Acp DiscriminationTree AtpFvIndex DtVarMap

/-! ## Terms from their symbols -/

theorem symsByArgs_inj {sym : Atom → ℕ} {as bs : List CpTerm} {r r' : List ℕ}
    (hlen : as.length = bs.length)
    (h : ∀ a ∈ as, ∀ b ∈ bs, ∀ {r r'}, symsBy sym a ++ r = symsBy sym b ++ r' → a = b ∧ r = r')
    (heq : symsByArgs sym as ++ r = symsByArgs sym bs ++ r') : as = bs ∧ r = r' := by
  induction as generalizing bs with
  | nil =>
    obtain rfl := List.length_eq_zero_iff.mp hlen.symm
    exact ⟨rfl, heq⟩
  | cons a as ih =>
    cases bs with
    | nil => cases hlen
    | cons b bs =>
      rw [symsByArgs_cons, symsByArgs_cons, List.append_assoc, List.append_assoc] at heq
      obtain ⟨rfl, htail⟩ := h a List.mem_cons_self b List.mem_cons_self heq
      obtain ⟨rfl, hr⟩ := ih (Nat.succ.inj hlen)
        (fun a' ha' b' hb' => h a' (List.mem_cons_of_mem _ ha') b' (List.mem_cons_of_mem _ hb'))
        htail
      exact ⟨rfl, hr⟩

/-- With one arity for each label and different symbols for different leaves, the symbols
determine the term. -/
theorem symsBy_inj {vm : DtVarMap} {ar : BitVec 18 → ℕ} {s t : CpTerm} {r r' : List ℕ}
    (hs : OneArity ar s) (ht : OneArity ar t)
    (hleaf : ∀ l ∈ s.leaves, ∀ l' ∈ t.leaves, symOf vm l = symOf vm l' → l = l')
    (h : symsBy (symOf vm) s ++ r = symsBy (symOf vm) t ++ r') : s = t ∧ r = r' := by
  induction s using TermTree.induct generalizing t r r' with
  | leaf l =>
    cases t with
    | leaf l' =>
      obtain ⟨hsym, hr⟩ := List.cons.inj h
      rw [hleaf l (List.mem_singleton_self l) l' (List.mem_singleton_self l') hsym]
      exact ⟨rfl, hr⟩
    | node g bs =>
      rw [symsBy_node] at h
      have hsym : ctrSym g = headSym (symOf vm) (.leaf l) := (List.cons.inj h).1.symm
      obtain ⟨args, hargs⟩ := node_of_headSym hsym
      cases hargs
  | node f as ih =>
    rw [symsBy_node] at h
    cases t with
    | leaf l' =>
      have hsym : ctrSym f = headSym (symOf vm) (.leaf l') := (List.cons.inj h).1
      obtain ⟨args, hargs⟩ := node_of_headSym hsym
      cases hargs
    | node g bs =>
      rw [symsBy_node, List.cons_append, List.cons_append] at h
      obtain ⟨hfg, hargs⟩ := List.cons.inj h
      obtain rfl := ctrSym_inj hfg
      obtain ⟨hlen, has⟩ := TermTree.every_node.mp hs
      obtain ⟨hlen', hbs⟩ := TermTree.every_node.mp ht
      obtain ⟨rfl, hr⟩ := symsByArgs_inj (hlen.trans hlen'.symm) (fun a ha b hb {r r'} hab =>
        ih a ha (has a ha) (hbs b hb) (fun l hl l' hl' =>
          hleaf l (TermTree.mem_leaves_node.mpr ⟨a, ha, hl⟩) l'
            (TermTree.mem_leaves_node.mpr ⟨b, hb, hl'⟩)) hab) hargs
      exact ⟨rfl, hr⟩

/-! ## Pairs -/

/-- One numbering spans both sides. -/
def pairMap (l r : CpTerm) : DtVarMap := reset.scan (l.leaves ++ r.leaves)

def pairSyms (l r : CpTerm) : List ℕ :=
  symsBy (symOf (pairMap l r)) l ++ symsBy (symOf (pairMap l r)) r

def pairIds (l r : CpTerm) : List ℕ := ids l ++ ids r

/-- The pair is made of variables, constructors and numbers. -/
def FirstOrder (l r : CpTerm) : Prop := ∀ x ∈ l.leaves ++ r.leaves, isOther x = false

/-- Some variable has no place of its own. -/
def Wide (l r : CpTerm) : Prop := ∃ i ∈ pairIds l r, rewriteMaxVar ≤ i

/-- The symbols of the pair and of the candidate mean one thing each. -/
structure Plain (l r ql qr : CpTerm) : Prop where
  arity : ∃ ar, OneArity ar l ∧ OneArity ar r ∧ OneArity ar ql ∧ OneArity ar qr
  numbers : (∀ x ∈ l.leaves ++ r.leaves, isNum x = false) ∨
    ∀ x ∈ ql.leaves ++ qr.leaves, isNum x = false
  repeats : (pairIds l r).Nodup ∨ ∀ x ∈ ql.leaves ++ qr.leaves, ∀ y ∈ ql.leaves ++ qr.leaves,
    isNum x = true → isNum y = true → x = y

/-- What a pair and a candidate have to satisfy for the descent to be exact. When a variable is
too big the pair never matches, or the match is checked at the leaf. -/
def Legible (l r ql qr : CpTerm) : Prop :=
  Wide l r ∨ (pairIds l r).length < atpDtDescentDepthCap ∧ (Wide ql qr ∨ Plain l r ql qr)

/-- The candidate does not fit in the arrays, so that all pairs are tried. -/
def TooLong (ql qr : CpTerm) : Prop := atpDtFlatCap < 1 + ql.size + qr.size

variable {l r ql qr : CpTerm}

theorem mem_ids {t : CpTerm} {i : ℕ} :
    i ∈ ids t ↔ ∃ id : BitVec 18, .fvr id ∈ t.leaves ∧ id.toNat = i := by
  rw [ids, List.mem_filterMap]
  constructor
  · rintro ⟨x, hx, hid⟩
    cases x with
    | fvr id => exact ⟨id, hx, Option.some.inj hid⟩
    | num dtype val => cases hid
    | other w => cases hid
  · rintro ⟨id, hx, hid⟩
    exact ⟨_, hx, congrArg some hid⟩

theorem mem_pairIds {i : ℕ} : i ∈ pairIds l r ↔
    ∃ id : BitVec 18, .fvr id ∈ l.leaves ++ r.leaves ∧ id.toNat = i := by
  rw [pairIds, List.mem_append, mem_ids, mem_ids, ← exists_or]
  refine exists_congr fun id => ?_
  rw [List.mem_append, or_and_right]

theorem pairMap_spec (l r : CpTerm) : (pairMap l r).Ok ∧ (pairMap l r).Sees (l.leaves ++ r.leaves) ∧
    (pairMap l r).folded = (l.leaves ++ r.leaves).any wideLeaf := by
  obtain ⟨hok, -, hsees, hfolded⟩ := scan_spec ok_reset (l.leaves ++ r.leaves)
  exact ⟨hok, hsees, hfolded⟩

theorem folded_iff (h : FirstOrder l r) : (pairMap l r).folded = true ↔ Wide l r := by
  rw [(pairMap_spec l r).2.2, List.any_eq_true]
  constructor
  · rintro ⟨x, hx, hwide⟩
    have hother := h x hx
    cases x with
    | fvr id => exact ⟨id.toNat, mem_pairIds.mpr ⟨id, hx, rfl⟩, of_decide_eq_true hwide⟩
    | num dtype val => cases hwide
    | other w => cases hother
  · rintro ⟨i, hi, hwide⟩
    obtain ⟨id, hx, rfl⟩ := mem_pairIds.mp hi
    exact ⟨_, hx, decide_eq_true hwide⟩

/-- The numbers of small variables are different. -/
theorem starOf_inj (hlt : ∀ i ∈ pairIds l r, i < rewriteMaxVar) : ∀ i ∈ pairIds l r,
    ∀ j ∈ pairIds l r, starOf (pairMap l r) i = starOf (pairMap l r) j → i = j := by
  intro i hi j hj heq
  obtain ⟨hok, hsees, -⟩ := pairMap_spec l r
  have hlti := hlt i hi
  have hltj := hlt j hj
  obtain ⟨id, hid, rfl⟩ := mem_pairIds.mp hi
  obtain ⟨id', hid', rfl⟩ := mem_pairIds.mp hj
  refine hok.symOf_inj hsees hid rfl rfl hid' hlti hltj ?_
  rw [symOf_var (pairMap l r) (l := .fvr id) rfl, symOf_var (pairMap l r) (l := .fvr id') rfl, heq]

/-- What is entered for a pair. -/
theorem insertSyms_pair (l r : CpTerm) : insertSyms l .reset =
    (symsBy (symOf (pairMap l r)) l, reset.scan l.leaves) ∧
    insertSyms r (reset.scan l.leaves) = (symsBy (symOf (pairMap l r)) r, pairMap l r) := by
  obtain ⟨hok, -, hsees, -⟩ := scan_spec ok_reset l.leaves
  obtain ⟨-, hext, -, -⟩ := scan_spec hok r.leaves
  have hmap : pairMap l r = (reset.scan l.leaves).scan r.leaves := scan_append _ _ _
  constructor
  · rw [insertSyms_spec ok_reset, hmap, symsBy, symsBy, flatBy_extends hext hsees]
  · rw [insertSyms_spec hok, hmap]

/-- The arrays of a candidate. -/
def pairFlat (ql qr : CpTerm) : List (ℕ × ℕ) :=
  (cpSym, 1 + ql.size + qr.size) ::
    (flatBy (symOf (pairMap ql qr)) ql ++ flatBy (symOf (pairMap ql qr)) qr)

theorem flattenPair_eq (ql qr : CpTerm) : flattenPair ql qr =
    if atpDtFlatCap < 1 + ql.size + qr.size then none
    else some (pairFlat ql qr, pairMap ql qr) := by
  obtain ⟨hok, -, hsees, -⟩ := scan_spec ok_reset ql.leaves
  obtain ⟨-, hext, -, -⟩ := scan_spec hok qr.leaves
  have hmap : pairMap ql qr = (reset.scan ql.leaves).scan qr.leaves := scan_append _ _ _
  rw [flattenPair, atpDtFlatten_spec ok_reset]
  by_cases hleft : atpDtFlatCap < 1 + ql.size
  · rw [if_pos hleft, if_pos (by omega)]
    rfl
  · rw [if_neg hleft]
    simp only [Option.bind_eq_bind, Option.bind_some, atpDtFlatten_spec hok, length_flatBy]
    by_cases hright : atpDtFlatCap < 1 + ql.size + qr.size
    · rw [if_pos hright, if_pos hright]
      rfl
    · rw [if_neg hright, if_neg hright, pairFlat, hmap, flatBy_extends hext hsees]
      simp only [Option.bind_some, length_flatBy]

theorem stands_pairFlat (ql qr : CpTerm) :
    Stands (symOf (pairMap ql qr)) (pairFlat ql qr) 1 ql ∧
      Stands (symOf (pairMap ql qr)) (pairFlat ql qr) (1 + ql.size) qr := by
  constructor
  · exact List.prefix_append _ _
  · have hdrop : (pairFlat ql qr).drop (1 + ql.size) = flatBy (symOf (pairMap ql qr)) qr := by
      have hlen : (flatBy (symOf (pairMap ql qr)) ql).length = ql.size := length_flatBy ql
      rw [Nat.add_comm, pairFlat, List.drop_succ_cons, ← hlen, List.drop_left]
    rw [Stands, hdrop]

theorem length_pairFlat (ql qr : CpTerm) :
    (pairFlat ql qr).length = 1 + ql.size + qr.size := by
  rw [pairFlat, List.length_cons, List.length_append, length_flatBy, length_flatBy]
  omega

theorem binds_none (vm : DtVarMap) (V : List ℕ) (qry : Atom → ℕ) (flat : List (ℕ × ℕ))
    (P : CpTerm → Prop) : Binds vm V qry flat P (fun _ => none) fun _ => 0 :=
  fun _ _ => ⟨fun _ => rfl, fun _ h => nomatch h⟩

theorem thvmMatchPair_true {σ σ' : Bindings} (h : thvmMatchPair l r ql qr σ = (true, σ')) :
    ∃ σ₁, Acp.thvmMatch l ql σ = (true, σ₁) ∧ Acp.thvmMatch r qr σ₁ = (true, σ') := by
  rw [thvmMatchPair] at h
  cases hl : Acp.thvmMatch l ql σ with
  | mk ok σ₁ =>
    rw [hl] at h
    cases ok with
    | true => exact ⟨σ₁, rfl, h⟩
    | false => simp at h

/-- A pair that matches has no variable that is too big. -/
theorem not_wide_of_match {σ σ' : Bindings} (h : thvmMatchPair l r ql qr σ = (true, σ')) :
    ∀ i ∈ pairIds l r, i < rewriteMaxVar := by
  obtain ⟨σ₁, hl, hr⟩ := thvmMatchPair_true h
  intro i hi
  exact (List.mem_append.mp hi).elim ((thvmMatch_ids hl).1 i) ((thvmMatch_ids hr).1 i)

/-- A pair that matches is met, if it has few enough variables. -/
theorem reads_pair {σ' : Bindings} (hfew : (pairIds l r).length < atpDtDescentDepthCap)
    (h : thvmMatchPair l r ql qr (fun _ => none) = (true, σ')) :
    Reads starIndex (pairFlat ql qr) atpDtDescentDepthCap (pairSyms l r) 1 0 fun _ => 0 := by
  have hinj := starOf_inj (not_wide_of_match h)
  obtain ⟨σ₁, hl, hr⟩ := thvmMatchPair_true h
  obtain ⟨hstandl, hstandr⟩ := stands_pairFlat ql qr
  have hlen : (pairIds l r).length = (ids l).length + (ids r).length := List.length_append
  have htrue : ∀ (f : BitVec 18) (as : List CpTerm), True → ∀ a ∈ as, True :=
    fun _ _ _ _ _ => trivial
  have hdl : 0 + (ids l).length < atpDtDescentDepthCap := by omega
  have hdr : 0 + (ids l).length + (ids r).length < atpDtDescentDepthCap := by omega
  obtain ⟨bound₁, hb₁, hread₁⟩ := reads_of_match (P := fun _ => True) hinj htrue
    (List.subset_append_left _ _) Nat.one_pos hstandl trivial (binds_none _ _ _ _ _) hdl hl
  obtain ⟨bound₂, -, hread₂⟩ := reads_of_match hinj htrue (List.subset_append_right _ _)
    (by omega) hstandr trivial hb₁ hdr hr
  refine hread₁ _ ?_
  have hdone := hread₂ [] ?_
  · rwa [List.append_nil] at hdone
  · rw [← length_pairFlat]
    exact .done _ _

/-- A pair that is met matches, if the symbols tell the terms apart. -/
theorem match_pair (hpair : FirstOrder l r) (hcand : FirstOrder ql qr) (hl : ¬ Wide l r)
    (hq : ¬ Wide ql qr) (hplain : Plain l r ql qr)
    (h : Reads starIndex (pairFlat ql qr) atpDtDescentDepthCap (pairSyms l r) 1 0 fun _ => 0) :
    ∃ σ', thvmMatchPair l r ql qr (fun _ => none) = (true, σ') := by
  obtain ⟨ar, harl, harr, harql, harqr⟩ := hplain.arity
  have hsmall : ∀ {l r : CpTerm}, ¬ Wide l r → ∀ i ∈ pairIds l r, i < rewriteMaxVar :=
    fun h i hi => Nat.lt_of_not_le fun hle => h ⟨i, hi, hle⟩
  have hinj := starOf_inj (hsmall hl)
  obtain ⟨hstandl, hstandr⟩ := stands_pairFlat ql qr
  obtain ⟨hok, hsees, -⟩ := pairMap_spec ql qr
  -- the terms of the candidate
  let P : CpTerm → Prop := fun t => OneArity ar t ∧ ∀ x ∈ t.leaves, x ∈ ql.leaves ++ qr.leaves
  have hP : ∀ f as, P (.node f as) → ∀ a ∈ as, P a := fun f as h a ha =>
    ⟨(TermTree.every_node.mp h.1).2 a ha, fun x hx =>
      h.2 x (TermTree.mem_leaves_node.mpr ⟨a, ha, hx⟩)⟩
  have hPleaf : ∀ x, P (.leaf x) → x ∈ ql.leaves ++ qr.leaves := fun x h =>
    h.2 x (List.mem_singleton_self x)
  have hapart : Apart (symOf (pairMap ql qr)) P (pairIds l r) fun _ => none := by
    rcases hplain.repeats with hlinear | hone
    · exact .inr ⟨hlinear, fun _ _ => rfl⟩
    · refine .inl fun u c hu hc heq => ?_
      refine (symsBy_inj hu.1 hc.1 (fun x hx y hy hsym => ?_) (congrArg (· ++ []) heq)).1
      have hx' := hu.2 x hx
      have hy' := hc.2 y hy
      have hxother := hcand x hx'
      have hyother := hcand y hy'
      cases x with
      | other w => cases hxother
      | num d v =>
        cases y with
        | other w => cases hyother
        | num d' v' => exact hone _ hx' _ hy' rfl rfl
        | fvr id =>
          rw [symOf_var (pairMap ql qr) (l := .fvr id) rfl,
            (starIndex_num (pairMap ql qr) (l := .num d v) rfl).1, dtreeNum, dtreeStarBase] at hsym
          omega
      | fvr id =>
        cases y with
        | other w => cases hyother
        | num d' v' =>
          rw [symOf_var (pairMap ql qr) (l := .fvr id) rfl,
            (starIndex_num (pairMap ql qr) (l := .num d' v') rfl).1, dtreeNum,
            dtreeStarBase] at hsym
          omega
        | fvr id' =>
          have hid := hok.symOf_inj hsees hx' rfl rfl hy'
            (hsmall hq _ (mem_pairIds.mpr ⟨id, hx', rfl⟩))
            (hsmall hq _ (mem_pairIds.mpr ⟨id', hy', rfl⟩)) hsym
          rw [BitVec.eq_of_toNat_eq hid]
  have hnums : ∀ {t : CpTerm}, (∀ x ∈ t.leaves, x ∈ l.leaves ++ r.leaves) →
      (∀ x ∈ t.leaves, isNum x = false) ∨ ∀ x, P (.leaf x) → isNum x = false := fun ht =>
    hplain.numbers.imp (fun h x hx => h x (ht x hx)) fun h x hx => h x (hPleaf x hx)
  have hPother : ∀ x, P (.leaf x) → isOther x = false := fun x hx => hcand x (hPleaf x hx)
  have hleft : ∀ x ∈ l.leaves, x ∈ l.leaves ++ r.leaves := fun x => List.mem_append_left _
  have hright : ∀ x ∈ r.leaves, x ∈ l.leaves ++ r.leaves := fun x => List.mem_append_right _
  obtain ⟨σ₁, bound₁, hmatchl, hb₁, hread₁⟩ := match_of_reads rfl hinj (hsmall hl) hP
    (fun c hc => hc.1) hPother (hnums hleft) (fun x hx => hpair x (hleft x hx)) harl
    (List.subset_append_left _ _) Nat.one_pos hstandl ⟨harql, fun x => List.mem_append_left _⟩
    (binds_none _ _ _ _ _) hapart.left h
  rw [← List.append_nil (symsBy _ r)] at hread₁
  obtain ⟨σ₂, bound₂, hmatchr, -, -⟩ := match_of_reads rfl hinj (hsmall hl) hP
    (fun c hc => hc.1) hPother (hnums hright) (fun x hx => hpair x (hright x hx)) harr
    (List.subset_append_right _ _) (by omega) hstandr ⟨harqr, fun x => List.mem_append_right _⟩
    hb₁ (hapart.right (thvmMatch_ids hmatchl).2) hread₁
  refine ⟨σ₂, ?_⟩
  rw [thvmMatchPair, hmatchl]
  exact hmatchr

end Thvm.Atp.FvIndex
