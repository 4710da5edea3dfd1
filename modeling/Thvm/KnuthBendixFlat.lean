import Thvm.KnuthBendixDescent

/-!
# The flat path of `thvm_kbo_flat`

Over symbols of fixed arity and weights that an `i32` holds, the comparison of flat
arrays goes through the same levels; it only takes the arguments from first to last, and
does not go below equal roots of different spans.
-/

namespace Thvm.Kbo

open TermTree Flat

/-- Weights that survive the cast to `i32`. -/
structure FitsI32 (cfg : KboConfig) (S : ℕ → ℕ → Prop) : Prop where
  label : ∀ f n, S f n → cfg.weight f < 2 ^ 31
  var : cfg.varWeight < 2 ^ 31

def flatScan : Scan :=
  ⟨fun sign t => leafBumps sign t.leaves, fun s t => decide (s.size = t.size), false⟩

theorem flatScan_exact {S : ℕ → ℕ → Prop} : flatScan.Exact S where
  side sign t _ _ v := net_leafBumps sign t.leaves v
  deep _ := decide_eq_true rfl

section Sweep

variable {cfg : KboConfig} {S : ℕ → ℕ → Prop} {t : FTerm}

theorem flatten_sweep (hfits : FitsI32 cfg S) (sign : ℤ) (ht : t.Over S) (x : KboLin × ℤ) :
    (flatten cfg.flatWeights t).foldl (kboFlatAdd sign) x =
      (applyBumps (leafBumps sign t.leaves) x.1, x.2 + sign * cfg.scale.weight t) := by
  induction t using TermTree.induct generalizing x with
  | leaf l =>
    obtain ⟨id, rfl⟩ := ht.leaf
    rw [flatten, List.foldl_cons, List.foldl_nil, kboFlatAdd]
    dsimp only
    rw [if_pos (varSym_neg id), varSym_id]
    refine Prod.ext rfl ?_
    simp only [KboConfig.flatWeights, toI32_of_lt hfits.var]
    rfl
  | node f args ih =>
    have hargs : ∀ x : KboLin × ℤ, (flattenArgs cfg.flatWeights args).foldl (kboFlatAdd sign) x =
        (applyBumps (leafBumps sign (args.flatMap TermTree.leaves)) x.1,
          x.2 + sign * ((args.map cfg.scale.weight).sum : ℕ)) := by
      replace ht : ∀ a ∈ args, FTerm.Over S a := fun a ha => ht.arg ha
      induction args with
      | nil => simp [flattenArgs, leafBumps]
      | cons a as ihs =>
        rw [List.forall_mem_cons] at ih ht
        intro x
        rw [flattenArgs, List.foldl_append, ih.1 ht.1, ihs ih.2 ht.2, List.flatMap_cons,
          leafBumps_append, applyBumps_append]
        refine Prod.ext rfl ?_
        simp only [List.map_cons, List.sum_cons]
        push_cast
        ring
    have hsym : ¬ ((f : ℤ) < 0) := by omega
    rw [flatten_node, List.foldl_cons, hargs, kboFlatAdd]
    dsimp only
    rw [if_neg hsym, leaves_node, KnuthBendix.Scale.weight_node]
    refine Prod.ext rfl ?_
    simp only [KboConfig.flatWeights, KboConfig.scale, toI32_of_lt (hfits.label f _ ht.root)]
    push_cast
    ring

end Sweep

section Positions

variable {cfg : KboConfig} {S : ℕ → ℕ → Prop} {a b : List FlatNode} {pa pb n : ℕ} {s t : FTerm}
  {as bs : List FTerm} {ps qs : List ℕ} {w : Weights}

theorem kboFlatAddto_eq (hfits : FitsI32 cfg S) (sign : ℤ) (ht : t.Over S)
    (hat : At cfg.flatWeights a pa t) (x : KboLin × ℤ) : kboFlatAddto a pa sign x =
      (applyBumps (flatScan.side sign t) x.1, x.2 + sign * cfg.scale.weight t) := by
  rw [kboFlatAddto, hat.slice_eq]
  exact flatten_sweep hfits sign ht x

/-- The symbol at the position of a term. -/
def rootSym : FTerm → ℤ
  | .leaf (.fvr id) => varSym id
  | .leaf (.num _ value) => value
  | .node f _ => f

theorem At.sym (h : At w a pa t) : (nodeAt a pa).sym = rootSym t := by
  cases t with
  | leaf l =>
    cases l with
    | fvr id => rw [h.of_fvr, rootSym]
    | num dtype value => rw [h.nodeAt_eq rfl, rootSym]
  | node f args => rw [h.of_node, rootSym]

theorem rootSym_neg_iff (ht : t.Over S) : rootSym t < 0 ↔ ∃ id, t = .fvr id := by
  cases t with
  | leaf l =>
    obtain ⟨id, rfl⟩ := ht.leaf
    exact ⟨fun _ => ⟨id, rfl⟩, fun _ => varSym_neg id⟩
  | node f args =>
    constructor
    · intro h
      rw [rootSym] at h
      omega
    · rintro ⟨id, hid⟩
      cases hid

theorem slice_eq_iff (hfix : FixedArity S) (hs : s.Over S) (ht : t.Over S) (ha : At w a pa s)
    (hb : At w b pb t) : slice a pa = slice b pb ↔ s = t := by
  rw [ha.slice_eq, hb.slice_eq]
  constructor
  · intro h
    have hsyms := congrArg (List.map FlatNode.sym) h
    have happend : syms w s ++ [] = syms w t ++ [] := by
      rw [List.append_nil, List.append_nil]
      exact hsyms
    exact (syms_inj hfix hs ht happend).1
  · rintro rfl
    rfl

/-- What the traversal at a pair of positions comes to. -/
def Traverses (cfg : KboConfig) (rec : ℕ → ℕ → KboLin × ℤ → (KboLin × ℤ) × Bool) (pa pb : ℕ)
    (s t : FTerm) : Prop :=
  ∀ x, rec pa pb x = ((applyBumps (diffBumps flatScan s t) x.1, x.2 + weightDiff cfg s t),
    decide (s = t))

theorem kboFlatVortestArgs_eq {rec : ℕ → ℕ → KboLin × ℤ → (KboLin × ℤ) × Bool}
    (hps : List.Forall₂ (At w a) ps as) (hqs : List.Forall₂ (At w b) qs bs)
    (hlen : as.length = bs.length)
    (h : ∀ u ∈ as, ∀ v ∈ bs, ∀ p q, At w a p u → At w b q v → Traverses cfg rec p q u v)
    (x : KboLin × ℤ) : kboFlatVortestArgs rec ps qs x =
      ((applyBumps (diffBumpsArgs flatScan as bs) x.1,
        x.2 + ((as.map cfg.scale.weight).sum - (bs.map cfg.scale.weight).sum : ℤ)),
        decide (as = bs)) := by
  induction hps generalizing qs bs x with
  | nil =>
    obtain rfl := List.length_eq_zero_iff.mp hlen.symm
    cases hqs
    simp [kboFlatVortestArgs, diffBumpsArgs]
  | @cons p u ps us hp _ ih =>
    cases hqs with
    | nil => cases hlen
    | @cons q v qs vs hq hqs =>
      have hhead := h u List.mem_cons_self v List.mem_cons_self p q hp hq
      rw [kboFlatVortestArgs, hhead, ih hqs (Nat.succ.inj hlen) fun u' hu v' hv =>
        h u' (List.mem_cons_of_mem _ hu) v' (List.mem_cons_of_mem _ hv), diffBumpsArgs]
      dsimp only
      rw [if_neg (by simp [flatScan]), applyBumps_append]
      refine Prod.ext (Prod.ext rfl ?_) ?_
      · simp only [weightDiff, List.map_cons, List.sum_cons]
        push_cast
        ring
      · simp only [List.cons.injEq, Bool.decide_and]

theorem kboFlatVortest_eq (hfix : FixedArity S) (hfits : FitsI32 cfg S) (hs : s.Over S)
    (ht : t.Over S) (ha : At cfg.flatWeights a pa s) (hb : At cfg.flatWeights b pb t)
    (hn : s.size ≤ n) : Traverses cfg (kboFlatVortest a b n) pa pb s t := by
  intro x
  induction n generalizing s t pa pb x with
  | zero =>
    have := TermTree.size_pos s
    omega
  | succ n ih =>
    have hskip : s = t → ((x, true) : (KboLin × ℤ) × Bool) =
        ((applyBumps (diffBumps flatScan s t) x.1, x.2 + weightDiff cfg s t), decide (s = t)) := by
      rintro rfl
      rw [diffBumps_self (flatScan_exact (S := S)), weightDiff_self, add_zero]
      simp
    have hdiverge : diffBumps flatScan s t = flatScan.side 1 s ++ flatScan.side (-1) t → s ≠ t →
        ((kboFlatAddto b pb (-1) (kboFlatAddto a pa 1 x), false) : (KboLin × ℤ) × Bool) =
        ((applyBumps (diffBumps flatScan s t) x.1, x.2 + weightDiff cfg s t), decide (s = t)) := by
      intro hbumps hne
      rw [hbumps, kboFlatAddto_eq hfits 1 hs ha, kboFlatAddto_eq hfits (-1) ht hb, applyBumps_append,
        decide_eq_false hne]
      refine Prod.ext (Prod.ext rfl ?_) rfl
      simp only [weightDiff]
      ring
    rw [kboFlatVortest, At.sym ha, At.sym hb, At.sz ha, At.sz hb]
    split
    · next hvar =>
      apply hskip
      obtain ⟨id, rfl⟩ := (rootSym_neg_iff hs).mp hvar.2
      obtain ⟨id', rfl⟩ := (rootSym_neg_iff ht).mp (hvar.1 ▸ hvar.2)
      rw [varSym_inj hvar.1]
    · next hvar =>
      split
      · next hroot =>
        split
        · next hslice => exact hskip ((slice_eq_iff hfix hs ht ha hb).mp hslice)
        · next hslice =>
          have hne : s ≠ t := fun h => hslice ((slice_eq_iff hfix hs ht ha hb).mpr h)
          cases s with
          | leaf l =>
            obtain ⟨id, rfl⟩ := hs.leaf
            exact absurd ⟨hroot.1, varSym_neg id⟩ hvar
          | node f as =>
            cases t with
            | leaf l =>
              obtain ⟨id, rfl⟩ := ht.leaf
              refine absurd ⟨hroot.1, ?_⟩ hvar
              rw [hroot.1]
              exact varSym_neg id
            | node g bs =>
              obtain ⟨hfg, hsize⟩ := hroot
              obtain rfl : f = g := Int.ofNat.inj hfg
              have hlen := hfix f _ _ hs.root ht.root
              have hrec : ∀ u ∈ as, ∀ v ∈ bs, ∀ p q, At cfg.flatWeights a p u →
                  At cfg.flatWeights b q v → Traverses cfg (kboFlatVortest a b n) p q u v := by
                intro u hu v hv p q hp hq
                have := size_lt f hu
                exact ih (hs.arg hu) (ht.arg hv) hp hq (by omega)
              rw [kboFlatVortestArgs_eq ha.children hb.children hlen hrec, diffBumps,
                if_pos ⟨rfl, hlen, decide_eq_true hsize⟩, weightDiff_node]
              simp
      · next hroot =>
        cases s with
        | leaf l =>
          cases t with
          | leaf l' =>
            have hne : l ≠ l' := by
              rintro rfl
              exact hroot ⟨rfl, rfl⟩
            exact hdiverge (if_neg hne) fun h => hne (leaf.inj h)
          | node g bs => exact hdiverge rfl fun heq => by cases heq
        | node f as =>
          cases t with
          | leaf l' => exact hdiverge rfl fun heq => by cases heq
          | node g bs =>
            apply hdiverge
            · rw [diffBumps, if_neg]
              rintro ⟨rfl, -, hsize⟩
              exact hroot ⟨rfl, of_decide_eq_true hsize⟩
            · intro heq
              exact hroot ⟨by rw [heq], by rw [heq]⟩

/-- The loop over arguments stops at the first that differ. -/
theorem kboFlatLex_eq {pre post post' : List FTerm} {u v : FTerm} {f : Bool}
    (hps : List.Forall₂ (At w a) ps (pre ++ u :: post))
    (hqs : List.Forall₂ (At w b) qs (pre ++ v :: post')) (hne : u ≠ v) (hu : u.Over S)
    (hv : v.Over S) (huv : u.VarsBelow kboMaxVar) (hvv : v.VarsBelow kboMaxVar)
    (hrec : ∀ c ∈ pre ++ u :: post, ∀ d ∈ pre ++ v :: post', ∀ p q, At w a p c → At w b q d →
      Traverses cfg (kboFlatVortest a b n) p q c d) :
    ∃ p q, At w a p u ∧ At w b q v ∧ kboFlatLex a b n ps qs (.clear f) =
      (some (p, q, weightDiff cfg u v, kboVarcmp u v),
        .clear (f || decide (Overflows flatScan u v))) := by
  induction pre generalizing ps qs with
  | nil =>
    obtain ⟨p, ps, hp, -, rfl⟩ := List.forall₂_cons_right_iff.mp hps
    obtain ⟨q, qs, hq, -, rfl⟩ := List.forall₂_cons_right_iff.mp hqs
    refine ⟨p, q, hp, hq, ?_⟩
    rw [kboFlatLex, hrec u List.mem_cons_self v List.mem_cons_self p q hp hq]
    dsimp only
    rw [if_neg (by simpa using hne), scope_decide flatScan_exact hu hv huv hvv, zero_add]
  | cons c pre ih =>
    obtain ⟨p, ps, hp, hps', rfl⟩ := List.forall₂_cons_right_iff.mp hps
    obtain ⟨q, qs, hq, hqs', rfl⟩ := List.forall₂_cons_right_iff.mp hqs
    obtain ⟨p', q', hp', hq', hlex⟩ := ih hps' hqs' fun c' hc d' hd =>
      hrec c' (List.mem_cons_of_mem _ hc) d' (List.mem_cons_of_mem _ hd)
    refine ⟨p', q', hp', hq', ?_⟩
    rw [kboFlatLex, hrec c List.mem_cons_self c List.mem_cons_self p q hp hq]
    dsimp only
    rw [if_pos (decide_eq_true rfl), diffBumps_self (flatScan_exact (S := S)), applyBumps_nil,
      kboLinClear_eq (scope_clear f)]
    exact hlex

theorem exists_first_arg (hlen : as.length = bs.length) (hne : as ≠ bs) :
    ∃ pre u post v post', as = pre ++ u :: post ∧ bs = pre ++ v :: post' ∧ u ≠ v ∧
      post.length = post'.length := by
  induction as generalizing bs with
  | nil =>
    obtain rfl := List.length_eq_zero_iff.mp hlen.symm
    exact absurd rfl hne
  | cons u as ih =>
    cases bs with
    | nil => cases hlen
    | cons v bs =>
      by_cases huv : u = v
      · subst huv
        obtain ⟨pre, u', post, v', post', rfl, rfl, hne', hpost⟩ :=
          ih (Nat.succ.inj hlen) fun h => hne (by rw [h])
        exact ⟨u :: pre, u', post, v', post', rfl, rfl, hne', hpost⟩
      · exact ⟨[], u, as, v, bs, rfl, rfl, huv, Nat.succ.inj hlen⟩

/-- The flat descent gives the verdict. -/
theorem kboFlatRek_settles (hfix : FixedArity S) (hfits : FitsI32 cfg S)
    (hinj : InjectiveOn cfg.prec S) (hs : s.Over S) (ht : t.Over S) (hsv : s.VarsBelow kboMaxVar)
    (htv : t.VarsBelow kboMaxVar) (ha : At cfg.flatWeights a pa s) (hb : At cfg.flatWeights b pb t)
    (hne : s ≠ t) (hn : s.size ≤ n) (f : Bool) :
    Settles (f = true ∨ CrowdedBelow flatScan cfg s t) (kboVerdict cfg s t)
      (kboFlatRek cfg a b n pa pb (weightDiff cfg s t) (kboVarcmp s t) (.clear f)) := by
  induction n generalizing s t pa pb f with
  | zero =>
    have := TermTree.size_pos s
    omega
  | succ n ih =>
    have hverdict := kboVerdict_phi hinj hs ht hne
    rw [kboFlatRek]
    split
    · next here hphi =>
      rw [hphi] at hverdict
      rw [hverdict]
      refine settles_pure ⟨.inl, fun h => h.resolve_right fun hbelow => ?_⟩
      rw [hbelow.phi] at hphi
      cases hphi
    · next hphi =>
      rw [hphi] at hverdict
      dsimp only at hverdict
      rw [hverdict]
      have hstop : ∀ here, kboMapThrough (kboVarcmp s t) (kboTie cfg s t) = here →
          ¬ CrowdedBelow flatScan cfg s t → Settles (f = true ∨ CrowdedBelow flatScan cfg s t)
            (kboMapThrough (kboVarcmp s t) (kboTie cfg s t)) (here, .clear f) := by
        rintro here rfl hnot
        exact settles_pure ⟨.inl, fun h => h.resolve_right hnot⟩
      rw [At.sym ha, At.sym hb]
      dsimp only
      split
      · next hvar =>
        refine hstop .un ?_ ?_
        · rcases hvar with hvar | hvar
          · obtain ⟨id, rfl⟩ := (rootSym_neg_iff hs).mp hvar
            rfl
          · obtain ⟨id, rfl⟩ := (rootSym_neg_iff ht).mp hvar
            cases s <;> rfl
        · rintro ⟨g, pre, post, post', u, v, rfl, rfl, -⟩
          rw [rootSym, rootSym] at hvar
          omega
      · next hvar =>
        cases s with
        | leaf l =>
          obtain ⟨id, rfl⟩ := hs.leaf
          exact absurd (.inl (varSym_neg id)) hvar
        | node k as =>
          cases t with
          | leaf l =>
            obtain ⟨id, rfl⟩ := ht.leaf
            exact absurd (.inr (varSym_neg id)) hvar
          | node g bs =>
            have hk : (rootSym (.node k as)).toNat = k := Int.toNat_natCast k
            have hg : (rootSym (.node g bs)).toNat = g := Int.toNat_natCast g
            rw [hk, hg]
            split
            · next hprec =>
              refine hstop _ ?_ ?_
              · simp only [kboTie, if_pos hprec, kboMapThrough]
              · intro hbelow
                rw [hbelow.root.1] at hprec
                exact lt_irrefl _ hprec
            · next hprec =>
              split
              · next hprec' =>
                refine hstop _ ?_ ?_
                · simp only [kboTie, if_neg hprec, if_pos hprec', kboMapThrough]
                · intro hbelow
                  rw [hbelow.root.1] at hprec'
                  exact lt_irrefl _ hprec'
              · next hprec' =>
                obtain rfl := hinj _ _ _ _ hs.root ht.root (by omega)
                have hlen := hfix k _ _ hs.root ht.root
                have hargs : as ≠ bs := fun h => hne (by rw [h])
                obtain ⟨pre, u, post, v, post', rfl, rfl, huv, hpost⟩ :=
                  exists_first_arg hlen hargs
                have hu : u ∈ pre ++ u :: post := by simp
                have hv : v ∈ pre ++ v :: post' := by simp
                have hrec : ∀ c ∈ pre ++ u :: post, ∀ d ∈ pre ++ v :: post', ∀ p q,
                    At cfg.flatWeights a p c → At cfg.flatWeights b q d →
                    Traverses cfg (kboFlatVortest a b n) p q c d := by
                  intro c hc d hd p q hp hq
                  have := size_lt k hc
                  exact kboFlatVortest_eq hfix hfits (hs.arg hc) (ht.arg hd) hp hq (by omega)
                obtain ⟨p, q, hp, hq, hlex⟩ := kboFlatLex_eq (f := f) ha.children hb.children huv
                  (hs.arg hu) (ht.arg hv) (varsBelow_arg hsv hu) (varsBelow_arg htv hv) hrec
                have hsize := size_lt k hu
                have hrun := ih (hs.arg hu) (ht.arg hv) (varsBelow_arg hsv hu) (varsBelow_arg htv hv)
                  hp hq huv (by omega) (f || decide (Overflows flatScan u v))
                obtain ⟨hcover, hweight⟩ := kboPhi_none_iff.mp hphi
                have hsym : rootSym (.node k (pre ++ u :: post)) = rootSym (.node k (pre ++ v :: post')) :=
                  rfl
                rw [if_neg (not_not.mpr hsym), hlex]
                refine ⟨?_, hrun.cleared, hrun.fault.trans ?_⟩
                · dsimp only
                  rw [hrun.verdict, kboTie, if_neg hprec, if_neg hprec', if_neg (by simpa using hpost),
                    firstOther_split (fun c _ => kboVerdict_self cfg c)
                      fun h => huv (kboVerdict_eq_iff.mp h)]
                · rw [crowdedBelow_node hcover hweight hpost huv, crowded_iff, Bool.or_eq_true,
                    decide_eq_true_iff, or_assoc]

theorem thvmKboFlatSlice_settles (hfix : FixedArity S) (hfits : FitsI32 cfg S)
    (hinj : InjectiveOn cfg.prec S) (hs : s.Over S) (ht : t.Over S) (hsv : s.VarsBelow kboMaxVar)
    (htv : t.VarsBelow kboMaxVar) (f : Bool) :
    Settles (f = true ∨ Crowded flatScan cfg s t) (kboVerdict cfg s t)
      (thvmKboFlatSlice cfg (flatten cfg.flatWeights s) (flatten cfg.flatWeights t) (.clear f)) := by
  have hV := flatScan_exact (S := S)
  have ha := at_zero cfg.flatWeights s
  have hb := at_zero cfg.flatWeights t
  have hrun := kboFlatVortest_eq hfix hfits hs ht ha hb
    (by rw [length_flatten] : s.size ≤ (flatten cfg.flatWeights s).length)
  rw [thvmKboFlatSlice, hrun]
  dsimp only
  split
  · next hident =>
    obtain rfl := of_decide_eq_true hident
    rw [diffBumps_self hV, kboVerdict_self]
    exact settles_pure ⟨.inl, fun h => h.resolve_right (not_crowded_self hV _)⟩
  · next hident =>
    have hne := of_decide_eq_false (Bool.eq_false_iff.mpr hident)
    have hdecide := scope_decide (f := f) hV hs ht hsv htv
    rw [show ({ KboLin.clear f with touched := [] } : KboLin) = .clear f from rfl, hdecide, zero_add]
    refine (kboFlatRek_settles hfix hfits hinj hs ht hsv htv ha hb hne
      (by rw [length_flatten]) _).cast ?_ rfl
    rw [crowded_iff, Bool.or_eq_true, decide_eq_true_iff, or_assoc]

end Positions

end Thvm.Kbo
