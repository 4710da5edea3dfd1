import Thvm.CriticalPairs
import Thvm.UnifySpec

/-!
# The critical pairs cover all overlaps

Every emitted pair consists of two reducts of one term. Every overlap of two rules in a
term, with its two reducts, is an instance of an emitted pair in a context.
-/

namespace Thvm.CriticalPairs
open BoundedLoops Unification

variable {s t u v : FTerm} {p q : List ℕ} {σ τ : ℕ → FTerm}

/-- One rewriting step with the rule `l → r`, in any context. -/
def Rewrites (l r u v : FTerm) : Prop :=
  ∃ p σ, u.sub p = some (l.inst σ) ∧ v = u.put p (r.inst σ)

theorem inst_sub (σ : ℕ → FTerm) (h : t.sub p = some s) : (t.inst σ).sub p = some (s.inst σ) :=
  TermTree.sub_subst _ h

theorem inst_put (σ : ℕ → FTerm) (h : t.sub p = some s) (r : FTerm) :
    FTerm.inst σ (t.put p r) = (t.inst σ).put p (r.inst σ) :=
  TermTree.put_subst _ h r

theorem varsBelow_sub {n : ℕ} (ht : t.VarsBelow n) (h : t.sub p = some s) : s.VarsBelow n :=
  fun id hid => ht id (TermTree.leaves_sub h hid)

theorem renameArgs_eq (offset : ℕ) (args : List FTerm) :
    renameArgs offset args = args.map (thvmRenameVars offset) := by
  induction args with
  | nil => rfl
  | cons a as ih => rw [renameArgs, ih, List.map_cons]

theorem thvmRenameVars_eq (offset : ℕ) (h : t.ArityCapped) :
    thvmRenameVars offset t = t.inst fun id => .fvr ((id + offset) % 2 ^ 18) := by
  induction t using TermTree.induct with
  | leaf l =>
    cases l with
    | fvr id => rfl
    | num dtype value => rfl
  | node label args ih =>
    obtain ⟨hlen, hargs⟩ := TermTree.every_node.mp h
    rw [thvmRenameVars, if_neg (Nat.not_lt.mpr hlen), renameArgs_eq, FTerm.inst_ctr]
    congr 1
    apply List.map_congr_left
    intro a ha
    exact ih a ha (hargs a ha)

theorem thvmRenameVars_arityCapped (offset : ℕ) (h : t.ArityCapped) :
    (thvmRenameVars offset t).ArityCapped := by
  rw [thvmRenameVars_eq offset h]
  apply TermTree.Every.subst h
  rintro (id | ⟨dtype, value⟩) _
  · exact .leaf _
  · exact .leaf _

theorem thvmRenameVars_varsBelow {offset n : ℕ} (h : t.ArityCapped) (hn : t.VarsBelow n) :
    (thvmRenameVars offset t).VarsBelow (n + offset) := by
  rw [thvmRenameVars_eq offset h]
  intro id hid
  obtain ⟨l, hl, hid⟩ := TermTree.mem_leaves_subst.mp hid
  cases l with
  | fvr id' =>
    obtain rfl := Leaf.fvr.inj (List.mem_singleton.mp hid)
    have := hn id' hl
    have := Nat.mod_le (id' + offset) (2 ^ 18)
    omega
  | num dtype value => cases List.mem_singleton.mp hid

theorem cpSubtermAt_eq (t : FTerm) (p : List ℕ) : cpSubtermAt t p = t.sub p := by
  induction p generalizing t with
  | nil =>
    rw [TermTree.sub_nil]
    cases t <;> rfl
  | cons i p ih =>
    cases t with
    | leaf l => cases l <;> rfl
    | node label args =>
      rw [cpSubtermAt, TermTree.sub]
      split
      · next hi =>
        rw [List.getElem?_eq_getElem hi]
        exact ih _
      · next hi => rw [List.getElem?_eq_none (Nat.le_of_not_lt hi), Option.bind_none]

theorem cpReplaceAt_eq (ht : t.ArityCapped) (h : t.sub p = some s) (r : FTerm) :
    cpReplaceAt t p r = t.put p r := by
  induction p generalizing t with
  | nil =>
    rw [TermTree.put_nil]
    cases t <;> rfl
  | cons i p ih =>
    obtain ⟨label, args, a, rfl, ha, hs⟩ := TermTree.sub_cons.mp h
    obtain ⟨hlen, hargs⟩ := TermTree.every_node.mp ht
    obtain ⟨hi, rfl⟩ := List.getElem?_eq_some_iff.mp ha
    rw [cpReplaceAt, if_neg (by omega), TermTree.put]
    congr 1
    exact TermTree.modify_congr ha (ih (hargs _ (List.getElem_mem hi)) hs)

/-- Two rules whose sides are within the caps and have their variables apart. -/
structure Ready (ctx : CpCtx) : Prop where
  capped : ctx.li.ArityCapped ∧ ctx.ri.ArityCapped ∧ ctx.lj.ArityCapped ∧ ctx.rj.ArityCapped
  below : ctx.li.VarsBelow rewriteMaxVar ∧ ctx.lj.VarsBelow rewriteMaxVar

/-- The pair is the two reducts of a peak, and the peak is recorded when it is asked for. -/
def Peak (flags : CpFlags) (ctx : CpCtx) (cp : CriticalPair) : Prop :=
  ∃ u, Rewrites ctx.lj ctx.rj u cp.lhs ∧ Rewrites ctx.li ctx.ri u cp.rhs ∧
    cp.peak = if flags.needPeak then some u else none

/-- The two terms are an instance of the pair. -/
def Covers (cp : CriticalPair) (reducts : FTerm × FTerm) : Prop :=
  ∃ τ, cp.lhs.inst τ = reducts.1 ∧ cp.rhs.inst τ = reducts.2

/-- The reducts of all overlaps at a constructor position. -/
def Overlaps (ctx : CpCtx) (p : List ℕ) : Set (FTerm × FTerm) :=
  fun reducts => ∃ label args σ, ctx.li.sub p = some (FTerm.ctr label args) ∧
    ¬(ctx.skipRoot = true ∧ p = []) ∧
    (FTerm.ctr label args).inst σ = ctx.lj.inst σ ∧
    reducts = (FTerm.inst σ (ctx.li.put p ctx.rj), ctx.ri.inst σ)

/-- What a part of the enumeration has added to the buffer: only peaks, and pairs for all of
`found` unless the cap was hit. -/
structure Added (cap : ℕ) (good : CriticalPair → Prop) (found : Set (FTerm × FTerm))
    (st st' : CpState) : Prop where
  clean : st'.subst.bindings = fun _ => none
  out : ∃ new, st'.out = st.out ++ new ∧ ∀ cp ∈ new, good cp
  dropped : st.droppedCapped ≤ st'.droppedCapped
  full : st'.droppedCapped = st.droppedCapped ∨ cap ≤ st'.out.length
  complete : st'.droppedCapped = st.droppedCapped → ∀ x ∈ found, ∃ cp ∈ st'.out, Covers cp x

variable {good good' : CriticalPair → Prop} {found found' : Set (FTerm × FTerm)}
  {st st' st₁ st₂ : CpState} {cap : ℕ}

theorem Added.refl (hclean : st.subst.bindings = fun _ => none) (hfound : ∀ x, x ∉ found) :
    Added cap good found st st where
  clean := hclean
  out := ⟨[], (List.append_nil _).symm, fun _ hcp => nomatch hcp⟩
  dropped := Nat.le_refl _
  full := .inl rfl
  complete := fun _ x hx => absurd hx (hfound x)

theorem Added.mono (h : Added cap good found st st') (hgood : ∀ cp, good cp → good' cp)
    (hfound : found' ⊆ found) : Added cap good' found' st st' where
  clean := h.clean
  out := by
    obtain ⟨new, hnew, hgood'⟩ := h.out
    exact ⟨new, hnew, fun cp hcp => hgood cp (hgood' cp hcp)⟩
  dropped := h.dropped
  full := h.full
  complete := fun hdropped x hx => h.complete hdropped x (hfound hx)

theorem Added.trans (h : Added cap good found st st₁) (h' : Added cap good found' st₁ st₂) :
    Added cap good (found ∪ found') st st₂ where
  clean := h'.clean
  out := by
    obtain ⟨new, hnew, hgood⟩ := h.out
    obtain ⟨new', hnew', hgood'⟩ := h'.out
    refine ⟨new ++ new', by rw [hnew', hnew, List.append_assoc], fun cp hcp => ?_⟩
    rcases List.mem_append.mp hcp with hcp | hcp
    · exact hgood cp hcp
    · exact hgood' cp hcp
  dropped := h.dropped.trans h'.dropped
  full := by
    obtain ⟨new', hnew', -⟩ := h'.out
    rcases h'.full with heq' | hfull
    · rcases h.full with heq | hfull
      · exact .inl (heq'.trans heq)
      · right
        rw [hnew', List.length_append]
        omega
    · exact .inr hfull
  complete := by
    intro hdropped x hx
    have hle := h.dropped
    have hle' := h'.dropped
    rcases hx with hx | hx
    · obtain ⟨cp, hcp, hcov⟩ := h.complete (by omega) x hx
      obtain ⟨new', hnew', -⟩ := h'.out
      exact ⟨cp, by rw [hnew']; exact List.mem_append_left _ hcp, hcov⟩
    · exact h'.complete (by omega) x hx

theorem Added.drop (hclean : st.subst.bindings = fun _ => none) (hcap : cap ≤ st.out.length) :
    Added cap good found st st.drop where
  clean := hclean
  out := ⟨[], (List.append_nil _).symm, fun _ hcp => nomatch hcp⟩
  dropped := Nat.le_succ _
  full := .inr hcap
  complete := fun h => absurd h (Nat.succ_ne_self _)

theorem Added.capDepth (h : Added cap good found st st') : Added cap good found st st'.capDepth where
  clean := h.clean
  out := h.out
  dropped := h.dropped
  full := h.full
  complete := h.complete

/-- A pass that adds nothing and has nothing to find. -/
theorem Added.setSubst {x : UnifyState} (hclean : x.bindings = fun _ => none)
    (hfound : ∀ x, x ∉ found) : Added cap good found st (st.setSubst x) where
  clean := hclean
  out := ⟨[], (List.append_nil _).symm, fun _ hcp => nomatch hcp⟩
  dropped := Nat.le_refl _
  full := .inl rfl
  complete := fun _ x hx => absurd hx (hfound x)

theorem Added.push {x : UnifyState} {cp : CriticalPair} (hclean : x.bindings = fun _ => none)
    (hgood : good cp) (hfound : ∀ x ∈ found, Covers cp x) :
    Added cap good found st ((st.setSubst x).push cp) where
  clean := hclean
  out := ⟨[cp], rfl, fun _ hcp' => List.mem_singleton.mp hcp' ▸ hgood⟩
  dropped := Nat.le_refl _
  full := .inl rfl
  complete := fun _ x hx => ⟨cp, List.mem_append_right _ (List.mem_singleton_self cp), hfound x hx⟩

variable {flags : CpFlags} {ctx : CpCtx}

theorem cpPeak_settles (flags : CpFlags) {b : ℕ → Option FTerm} {mgu : ℕ → FTerm} (h : MostGeneral s t b mgu)
    (hli : ctx.li.ArityCapped) : Settles (fun n => cpPeak flags ctx b n)
      (if flags.needPeak then some (ctx.li.inst mgu) else none) := by
  by_cases hneed : flags.needPeak = true
  · rw [if_pos hneed]
    apply ((h.apply _ hli).bind (g := fun _ x => some (some x)) (Settles.const _)).congr
    intro n
    rw [cpPeak, if_pos hneed]
    cases thvmUnifyApply b n ctx.li <;> rfl
  · rw [if_neg hneed]
    apply (Settles.const _).congr
    intro n
    rw [cpPeak, if_neg hneed]

/-- The pair formed from a most general unifier. -/
theorem cpForm_spec (flags : CpFlags) {b : ℕ → Option FTerm} {mgu : ℕ → FTerm} (hctx : Ready ctx)
    (hsub : ctx.li.sub p = some s) (h : MostGeneral s ctx.lj b mgu) :
    ∃ cp, Settles (fun n => cpForm flags ctx p b n) cp ∧ Peak flags ctx cp ∧
      ∀ σ, s.inst σ = ctx.lj.inst σ →
        Covers cp (FTerm.inst σ (ctx.li.put p ctx.rj), ctx.ri.inst σ) := by
  obtain ⟨hli, hri, hlj, hrj⟩ := hctx.capped
  have hlhs := h.apply _ (TermTree.Every.put hli hrj p)
  have hpeak := cpPeak_settles flags h hli
  refine ⟨⟨FTerm.inst mgu (ctx.li.put p ctx.rj), ctx.ri.inst mgu, _, p.map (· % 2 ^ 8), 0xff⟩,
    ?_, ⟨ctx.li.inst mgu, ?_, ?_, rfl⟩, ?_⟩
  · have hrest := (h.apply _ hri).bind (g := fun n rhs => cpPeak flags ctx b n >>= fun peak => some
      (⟨FTerm.inst mgu (ctx.li.put p ctx.rj), rhs, peak, p.map (· % 2 ^ 8), 0xff⟩ : CriticalPair))
      (hpeak.bind (Settles.const _))
    apply Settles.congr (hlhs.bind (g := fun n lhs => thvmUnifyApply b n ctx.ri >>= fun rhs =>
      cpPeak flags ctx b n >>= fun peak => some ⟨lhs, rhs, peak, p.map (· % 2 ^ 8), 0xff⟩) hrest)
    intro n
    rw [cpForm, cpReplaceAt_eq hli hsub]
  · refine ⟨p, mgu, ?_, inst_put mgu hsub _⟩
    rw [inst_sub mgu hsub, h.unifies]
  · exact ⟨[], mgu, TermTree.sub_nil _, (TermTree.put_nil _ _).symm⟩
  · intro σ hσ
    have hfactor : ∀ t : FTerm, (t.inst mgu).inst σ = t.inst σ := by
      intro t
      rw [FTerm.inst_inst]
      exact FTerm.inst_congr fun id _ => h.factors σ hσ id
    exact ⟨σ, hfactor _, hfactor _⟩

/-- One position with a constructor. -/
theorem cpUnify_spec (flags : CpFlags) {label : ℕ} {args : List FTerm} (hctx : Ready ctx)
    (hclean : st.subst.bindings = fun _ => none)
    (hsub : ctx.li.sub p = some (FTerm.ctr label args)) :
    ∃ st', Settles (fun n => cpUnify flags ctx n p (.ctr label args) st) st' ∧
      Added ctx.cap (Peak flags ctx) (Overlaps ctx p) st st' := by
  obtain ⟨ok, u, hset, hsucc, hfail⟩ := thvmUnify_empty (s := .ctr label args) (t := ctx.lj)
    st.subst.undoBegin hclean (varsBelow_sub hctx.below.1 hsub) hctx.below.2
    (hctx.capped.1.sub hsub) hctx.capped.2.2.1
  have hundo : u.undo.bindings = fun _ => none := by
    obtain ⟨N, hN⟩ := hset
    exact thvmUnify_undo hclean (hN N (Nat.le_refl N))
  cases ok with
  | false =>
    refine ⟨st.setSubst u.undo, ?_, .setSubst hundo ?_⟩
    · exact hset.bind (Settles.const _)
    · rintro x ⟨label', args', σ, hsub', -, hσ, -⟩
      obtain ⟨rfl, rfl⟩ := TermTree.node.inj (Option.some.inj (hsub.symm.trans hsub'))
      exact hfail rfl σ hσ
  | true =>
    obtain ⟨mgu, hmgu⟩ := hsucc rfl
    obtain ⟨cp, hform, hpeak, hcovers⟩ := cpForm_spec flags hctx hsub hmgu
    refine ⟨(st.setSubst u.undo).push cp, ?_, .push hundo hpeak ?_⟩
    · exact hset.bind (hform.bind (Settles.const _))
    · rintro x ⟨label', args', σ, hsub', -, hσ, rfl⟩
      obtain ⟨rfl, rfl⟩ := TermTree.node.inj (Option.some.inj (hsub.symm.trans hsub'))
      exact hcovers σ hσ

theorem headClash_no_unifier {label : ℕ} {args : List FTerm}
    (h : headClash (.ctr label args) t = true) : (FTerm.ctr label args).inst σ ≠ t.inst σ := by
  cases t with
  | leaf l => cases h
  | node f bs =>
    intro heq
    simp only [FTerm.inst_ctr, TermTree.node.injEq] at heq
    simp [headClash, heq.1] at h

theorem cpVisit_spec (flags : CpFlags) {label : ℕ} {args : List FTerm} (hctx : Ready ctx)
    (hclean : st.subst.bindings = fun _ => none)
    (hsub : ctx.li.sub p = some (FTerm.ctr label args)) :
    ∃ st', Settles (fun n => cpVisit flags ctx n p st) st' ∧
      Added ctx.cap (Peak flags ctx) (Overlaps ctx p) st st' := by
  by_cases hskip : (ctx.skipRoot && p.isEmpty) = true
  · refine ⟨st, (Settles.const st).congr fun n => by rw [cpVisit, if_pos hskip], .refl hclean ?_⟩
    rintro x ⟨label', args', σ, -, hroot, -⟩
    rw [Bool.and_eq_true, List.isEmpty_iff] at hskip
    exact hroot hskip
  by_cases hcap : ctx.cap ≤ st.out.length
  · refine ⟨st.drop, (Settles.const _).congr fun n => ?_, .drop hclean hcap⟩
    rw [cpVisit, if_neg hskip, if_pos hcap]
  by_cases hclash : (!flags.visitTrace && headClash (.ctr label args) ctx.lj) = true
  · refine ⟨st, (Settles.const _).congr fun n => ?_, .refl hclean ?_⟩
    · rw [cpVisit, if_neg hskip, if_neg hcap, cpSubtermAt_eq, hsub]
      exact if_pos hclash
    · rintro x ⟨label', args', σ, hsub', -, hσ, -⟩
      obtain ⟨rfl, rfl⟩ := TermTree.node.inj (Option.some.inj (hsub.symm.trans hsub'))
      exact headClash_no_unifier (Bool.and_eq_true_iff.mp hclash).2 hσ
  · obtain ⟨st', hset, hadded⟩ := cpUnify_spec flags hctx hclean hsub
    refine ⟨st', hset.congr fun n => ?_, hadded⟩
    rw [cpVisit, if_neg hskip, if_neg hcap, cpSubtermAt_eq, hsub]
    exact if_neg hclash

/-- The overlaps at all positions below `path` within the depth cap. -/
def OverlapsBelow (ctx : CpCtx) (maxDepth : ℕ) (path : List ℕ) : Set (FTerm × FTerm) :=
  fun x => ∃ q, (path ++ q).length ≤ maxDepth ∧ x ∈ Overlaps ctx (path ++ q)

/-- The overlaps below the arguments from number `i` on. -/
def OverlapsFrom (ctx : CpCtx) (maxDepth : ℕ) (path : List ℕ) (i : ℕ) : Set (FTerm × FTerm) :=
  fun x => ∃ j, i ≤ j ∧ x ∈ OverlapsBelow ctx maxDepth (path ++ [j])

theorem overlapsBelow_eq (ctx : CpCtx) (maxDepth : ℕ) (path : List ℕ) :
    OverlapsBelow ctx maxDepth path ⊆ Overlaps ctx path ∪ OverlapsFrom ctx maxDepth path 0 := by
  rintro x ⟨q, hlen, hx⟩
  cases q with
  | nil =>
    rw [List.append_nil] at hx
    exact .inl hx
  | cons j q =>
    rw [List.append_cons] at hlen hx
    exact .inr ⟨j, Nat.zero_le j, q, hlen, hx⟩

theorem overlapsBelow_capped (ctx : CpCtx) {maxDepth : ℕ} {path : List ℕ} (h : maxDepth ≤ path.length) :
    OverlapsBelow ctx maxDepth path ⊆ Overlaps ctx path := by
  rintro x ⟨q, hlen, hx⟩
  rw [List.length_append] at hlen
  obtain rfl := List.length_eq_zero_iff.mp (show q.length = 0 by omega)
  rwa [List.append_nil] at hx

/-- There is no constructor below an atom. -/
theorem overlapsBelow_leaf {l : Leaf} {path : List ℕ} {maxDepth : ℕ} {x : FTerm × FTerm}
    (hsub : ctx.li.sub path = some (.leaf l)) : x ∉ OverlapsBelow ctx maxDepth path := by
  rintro ⟨q, -, label, args, σ, hctr, -⟩
  rw [TermTree.sub_append, hsub, Option.bind_some] at hctr
  cases q with
  | nil => cases hctr
  | cons i q => cases hctr

theorem overlapsFrom_succ (ctx : CpCtx) (maxDepth : ℕ) (path : List ℕ) (i : ℕ) :
    OverlapsFrom ctx maxDepth path i ⊆
      OverlapsBelow ctx maxDepth (path ++ [i]) ∪ OverlapsFrom ctx maxDepth path (i + 1) := by
  rintro x ⟨j, hij, hx⟩
  rcases Nat.eq_or_lt_of_le hij with rfl | hlt
  · exact .inl hx
  · exact .inr ⟨j, hlt, hx⟩

/-- There are no overlaps behind the last argument. -/
theorem overlapsFrom_length {label : ℕ} {args : List FTerm} {path : List ℕ} {maxDepth : ℕ}
    {x : FTerm × FTerm} (hsub : ctx.li.sub path = some (FTerm.ctr label args)) :
    x ∉ OverlapsFrom ctx maxDepth path args.length := by
  rintro ⟨j, hj, q, -, label', args', σ, hctr, -⟩
  rw [List.append_assoc, TermTree.sub_append, hsub] at hctr
  simp [TermTree.sub, List.getElem?_eq_none hj] at hctr

/-- The arguments from number `i` on. -/
theorem cpWalkArgs_spec {label maxDepth i : ℕ} {args rest : List FTerm} {path : List ℕ}
    (hclean : st.subst.bindings = fun _ => none)
    (hsub : ctx.li.sub path = some (FTerm.ctr label args)) (hrest : args.drop i = rest)
    (hwalk : ∀ a ∈ args, ∀ (path : List ℕ) (st : CpState), st.subst.bindings = (fun _ => none) →
      ctx.li.sub path = some a →
      ∃ st', Settles (fun n => cpWalkPositions maxDepth (cpVisit flags ctx n) a path st) st' ∧
        Added ctx.cap (Peak flags ctx) (OverlapsBelow ctx maxDepth path) st st') :
    ∃ st', Settles (fun n => cpWalkArgs maxDepth (cpVisit flags ctx n) rest path i st) st' ∧
      Added ctx.cap (Peak flags ctx) (OverlapsFrom ctx maxDepth path i) st st' := by
  induction rest generalizing i st with
  | nil =>
    refine ⟨st, Settles.const _, .refl hclean fun x hx => ?_⟩
    obtain ⟨j, hij, hx⟩ := hx
    exact overlapsFrom_length hsub ⟨j, (List.drop_eq_nil_iff.mp hrest).trans hij, hx⟩
  | cons a rest ih =>
    have ha : args[i]? = some a := by
      rw [← List.head?_drop, hrest]
      rfl
    have hsub' : ctx.li.sub (path ++ [i]) = some a := by
      rw [TermTree.sub_append, hsub]
      simp [TermTree.sub, ha]
    obtain ⟨st₁, hset, hadded⟩ := hwalk a (List.mem_of_getElem? ha) (path ++ [i]) st hclean hsub'
    obtain ⟨st₂, hset', hadded'⟩ := ih (i := i + 1) hadded.clean (by
      rw [← List.drop_drop, hrest]
      rfl)
    refine ⟨st₂, hset.bind hset', ?_⟩
    exact (hadded.trans hadded').mono (fun _ h => h) (overlapsFrom_succ ctx maxDepth path i)

/-- The walk meets every constructor position within the depth cap. -/
theorem cpWalkPositions_spec (flags : CpFlags) (maxDepth : ℕ) {path : List ℕ} (hctx : Ready ctx)
    (hclean : st.subst.bindings = fun _ => none) (hsub : ctx.li.sub path = some t) :
    ∃ st', Settles (fun n => cpWalkPositions maxDepth (cpVisit flags ctx n) t path st) st' ∧
      Added ctx.cap (Peak flags ctx) (OverlapsBelow ctx maxDepth path) st st' := by
  induction t using TermTree.induct generalizing path st with
  | leaf l =>
    refine ⟨st, (Settles.const st).congr fun n => ?_, .refl hclean fun x => overlapsBelow_leaf hsub⟩
    cases l <;> rfl
  | node label args ih =>
    obtain ⟨st₁, hset, hadded⟩ := cpVisit_spec flags hctx hclean hsub
    by_cases hcap : maxDepth ≤ path.length
    · refine ⟨if 0 < args.length then st₁.capDepth else st₁, ?_, ?_⟩
      · apply Settles.congr (hset.bind (g := fun _ st =>
          some (if 0 < args.length then st.capDepth else st)) (Settles.const _))
        intro n
        rw [cpWalkPositions]
        simp only [if_pos hcap]
      · have hbelow := hadded.mono (fun _ h => h) (overlapsBelow_capped ctx hcap)
        split
        · exact hbelow.capDepth
        · exact hbelow
    · obtain ⟨st₂, hset', hadded'⟩ := cpWalkArgs_spec (i := 0) hadded.clean hsub rfl
        fun a ha path st hclean hsub => ih a ha hclean hsub
      refine ⟨st₂, ?_, ?_⟩
      · apply Settles.congr (hset.bind hset')
        intro n
        rw [cpWalkPositions]
        simp only [if_neg hcap]
        rfl
      · exact (hadded.trans hadded').mono (fun _ h => h) (overlapsBelow_eq ctx maxDepth path)

theorem forEach_spec {α : Type} {f : ℕ → α → CpState → Option CpState}
    (found : α → Set (FTerm × FTerm)) {l : List α} (hclean : st.subst.bindings = fun _ => none)
    (h : ∀ a ∈ l, ∀ st : CpState, st.subst.bindings = (fun _ => none) →
      ∃ st', Settles (fun n => f n a st) st' ∧ Added cap good (found a) st st') :
    ∃ st', Settles (fun n => forEach (f n) l st) st' ∧
      Added cap good {x | ∃ a ∈ l, x ∈ found a} st st' := by
  induction l generalizing st with
  | nil => exact ⟨st, Settles.const st, .refl hclean fun x ⟨a, ha, _⟩ => nomatch ha⟩
  | cons a l ih =>
    obtain ⟨st₁, hset, hadded⟩ := h a List.mem_cons_self st hclean
    obtain ⟨st₂, hset', hadded'⟩ := ih hadded.clean fun a' ha' => h a' (List.mem_cons_of_mem a ha')
    refine ⟨st₂, hset.bind hset', (hadded.trans hadded').mono (fun _ h => h) ?_⟩
    rintro x ⟨a', ha', hx⟩
    rcases List.mem_cons.mp ha' with rfl | ha'
    · exact .inl hx
    · exact .inr ⟨a', ha', hx⟩

/-- The rules that the enumeration can take. -/
structure RuleOk (rule : FTerm × FTerm) : Prop where
  capped : rule.1.ArityCapped ∧ rule.2.ArityCapped
  below : rule.1.VarsBelow cpRenameOffset ∧ rule.2.VarsBelow cpRenameOffset

variable {ri rj : FTerm × FTerm} {rules : List (FTerm × FTerm)}

/-- Rule `j` renamed apart. -/
def renamedCtx (ri rj : FTerm × FTerm) (cap : ℕ) : CpCtx :=
  ⟨ri.1, ri.2, thvmRenameVars cpRenameOffset rj.1, thvmRenameVars cpRenameOffset rj.2, cap, false⟩

theorem ready_renamedCtx (hi : RuleOk ri) (hj : RuleOk rj) (cap : ℕ) :
    Ready (renamedCtx ri rj cap) where
  capped := ⟨hi.capped.1, hi.capped.2, thvmRenameVars_arityCapped _ hj.capped.1,
    thvmRenameVars_arityCapped _ hj.capped.2⟩
  below := by
    refine ⟨fun id hid => ?_, thvmRenameVars_varsBelow hj.capped.1 hj.below.1⟩
    exact (hi.below.1 id hid).trans (by decide)

theorem inst_rename (hj : t.ArityCapped) (hbelow : t.VarsBelow cpRenameOffset) :
    (thvmRenameVars cpRenameOffset t).inst σ = t.inst fun id => σ (id + cpRenameOffset) := by
  rw [thvmRenameVars_eq _ hj, FTerm.inst_inst]
  apply FTerm.inst_congr
  intro id hid
  have hlt : id + cpRenameOffset < 2 ^ 18 := (Nat.add_lt_add_right (hbelow id hid) _).trans (by decide)
  rw [FTerm.inst_fvr, Nat.mod_eq_of_lt hlt]

theorem rewrites_rename (hj : RuleOk rj)
    (h : Rewrites (thvmRenameVars cpRenameOffset rj.1) (thvmRenameVars cpRenameOffset rj.2) u v) :
    Rewrites rj.1 rj.2 u v := by
  obtain ⟨p, σ, hu, hv⟩ := h
  rw [inst_rename hj.capped.1 hj.below.1] at hu
  rw [inst_rename hj.capped.2 hj.below.2] at hv
  exact ⟨p, _, hu, hv⟩

/-- One substitution for both rules. -/
def joinSubst (θ θ' : ℕ → FTerm) (id : ℕ) : FTerm :=
  if id < cpRenameOffset then θ id else θ' (id - cpRenameOffset)

theorem inst_joinSubst_left {θ θ' : ℕ → FTerm} (h : t.VarsBelow cpRenameOffset) :
    t.inst (joinSubst θ θ') = t.inst θ :=
  FTerm.inst_congr fun id hid => if_pos (h id hid)

theorem inst_joinSubst_right {θ θ' : ℕ → FTerm} (h : t.ArityCapped)
    (hbelow : t.VarsBelow cpRenameOffset) :
    (thvmRenameVars cpRenameOffset t).inst (joinSubst θ θ') = t.inst θ' := by
  rw [inst_rename h hbelow]
  apply FTerm.inst_congr
  intro id _
  rw [joinSubst, if_neg (by omega), Nat.add_sub_cancel]

/-- An overlap of two rules in an instance of the left side of one is one of their renamed
variants. -/
theorem mem_overlaps {θ θ' : ℕ → FTerm} {label : ℕ} {args : List FTerm} (cap : ℕ) (hi : RuleOk ri)
    (hj : RuleOk rj) (hp : ri.1.sub p = some (FTerm.ctr label args))
    (hover : (ri.1.inst θ).sub p = some (rj.1.inst θ')) :
    ((ri.1.inst θ).put p (rj.2.inst θ'), ri.2.inst θ) ∈ Overlaps (renamedCtx ri rj cap) p := by
  refine ⟨label, args, joinSubst θ θ', hp, fun h => absurd h.1 Bool.false_ne_true, ?_, ?_⟩
  · have hjoin := inst_sub (joinSubst θ θ') hp
    rw [inst_joinSubst_left hi.below.1, hover] at hjoin
    rw [← Option.some.inj hjoin]
    exact (inst_joinSubst_right hj.capped.1 hj.below.1).symm
  · rw [inst_put _ (show (renamedCtx ri rj cap).li.sub p = _ from hp)]
    have hlhs : (renamedCtx ri rj cap).li.inst (joinSubst θ θ') = ri.1.inst θ :=
      inst_joinSubst_left hi.below.1
    have hrhs : (renamedCtx ri rj cap).ri.inst (joinSubst θ θ') = ri.2.inst θ :=
      inst_joinSubst_left hi.below.2
    have hrepl : (renamedCtx ri rj cap).rj.inst (joinSubst θ θ') = rj.2.inst θ' :=
      inst_joinSubst_right hj.capped.2 hj.below.2
    rw [hlhs, hrhs, hrepl]

theorem thvmCriticalPairs_spec (flags : CpFlags) (cap : ℕ) (hrules : ∀ rule ∈ rules, RuleOk rule)
    (hclean : st.subst.bindings = fun _ => none) :
    ∃ st', Settles (fun n => thvmCriticalPairs flags rules cap n st) st' ∧
      Added cap (fun cp => ∃ ri ∈ rules, ∃ rj ∈ rules, Peak flags (renamedCtx ri rj cap) cp)
        {x | ∃ ri ∈ rules, ∃ rj ∈ rules, x ∈ OverlapsBelow (renamedCtx ri rj cap) cpMaxDepth []}
        { st with out := [] } st' := by
  unfold thvmCriticalPairs thvmCriticalPairsRange
  rw [List.take_length, List.drop_zero]
  apply forEach_spec fun ri =>
    {x | ∃ rj ∈ rules, x ∈ OverlapsBelow (renamedCtx ri rj cap) cpMaxDepth []}
  · exact hclean
  · intro ri hri st hclean
    apply forEach_spec fun rj => OverlapsBelow (renamedCtx ri rj cap) cpMaxDepth []
    · exact hclean
    · intro rj hrj st hclean
      obtain ⟨st', hset, hadded⟩ := cpWalkPositions_spec flags cpMaxDepth
        (ready_renamedCtx (hrules ri hri) (hrules rj hrj) cap) hclean (TermTree.sub_nil _)
      exact ⟨st', hset, hadded.mono (fun cp hcp => ⟨ri, hri, rj, hrj, hcp⟩) fun _ h => h⟩

/-- The enumeration ends; each pair is two reducts of one peak; and unless the cap was hit,
every overlap at a constructor position is an instance of a pair in a context. -/
theorem thvmCriticalPairs_lemma (flags : CpFlags) (rules : List (FTerm × FTerm)) (cap : ℕ)
    (st : CpState) (hrules : ∀ rule ∈ rules, RuleOk rule)
    (hclean : st.subst.bindings = fun _ => none) :
    ∃ st', Settles (fun n => thvmCriticalPairs flags rules cap n st) st' ∧
      st'.subst.bindings = (fun _ => none) ∧
      (∀ cp ∈ st'.out, ∃ ri ∈ rules, ∃ rj ∈ rules, ∃ u, Rewrites rj.1 rj.2 u cp.lhs ∧
        Rewrites ri.1 ri.2 u cp.rhs ∧ cp.peak = if flags.needPeak then some u else none) ∧
      (st'.out.length < cap → st'.droppedCapped = st.droppedCapped) ∧
      (st'.droppedCapped = st.droppedCapped → ∀ ri ∈ rules, ∀ rj ∈ rules,
        ∀ (u : FTerm) (q p : List ℕ) (θ θ' : ℕ → FTerm) (label : ℕ) (args : List FTerm),
          u.sub q = some (ri.1.inst θ) → ri.1.sub p = some (FTerm.ctr label args) →
          p.length ≤ cpMaxDepth → (ri.1.inst θ).sub p = some (rj.1.inst θ') →
          ∃ cp ∈ st'.out, ∃ τ, u.put (q ++ p) (rj.2.inst θ') = u.put q (cp.lhs.inst τ) ∧
            u.put q (ri.2.inst θ) = u.put q (cp.rhs.inst τ)) := by
  obtain ⟨st', hset, hadded⟩ := thvmCriticalPairs_spec flags cap hrules hclean
  refine ⟨st', hset, hadded.clean, ?_, ?_, ?_⟩
  · intro cp hcp
    obtain ⟨new, hnew, hgood⟩ := hadded.out
    rw [hnew] at hcp
    obtain ⟨ri, hri, rj, hrj, u, hlhs, hrhs, hpeak⟩ := hgood cp hcp
    exact ⟨ri, hri, rj, hrj, u, rewrites_rename (hrules rj hrj) hlhs, hrhs, hpeak⟩
  · intro hlt
    rcases hadded.full with heq | hfull
    · exact heq
    · exact absurd hlt (Nat.not_lt.mpr hfull)
  · intro hdropped ri hri rj hrj u q p θ θ' label args hu hp hlen hover
    have hmem := mem_overlaps cap (hrules ri hri) (hrules rj hrj) hp hover
    obtain ⟨cp, hcp, τ, hlhs, hrhs⟩ := hadded.complete hdropped _ ⟨ri, hri, rj, hrj, p, hlen, hmem⟩
    refine ⟨cp, hcp, τ, ?_, ?_⟩
    · rw [TermTree.put_append u q p _ hu, hlhs]
    · rw [hrhs]

theorem thvmCriticalPairs_lemma_one : ∃ st',
    Settles (fun n => thvmCriticalPairs ⟨false, true⟩
      [(.ctr 0 [.ctr 0 [.fvr 0]], .ctr 1 [.fvr 0])] 8 n ⟨[], 0, 0, .empty⟩) st' ∧
    st'.subst.bindings = fun _ => none := by
  have hrule : RuleOk (.ctr 0 [.ctr 0 [.fvr 0]], .ctr 1 [.fvr 0]) :=
    ⟨⟨by decide, by decide⟩, ⟨by decide, by decide⟩⟩
  obtain ⟨st', hset, hclean, -⟩ := thvmCriticalPairs_lemma ⟨false, true⟩
    [(.ctr 0 [.ctr 0 [.fvr 0]], .ctr 1 [.fvr 0])] 8 ⟨[], 0, 0, .empty⟩
    (fun rule hmem => List.mem_singleton.mp hmem ▸ hrule) rfl
  exact ⟨st', hset, hclean⟩

/-- A constructor with one argument too many: `f(c, …, c) → d` and `c → e`. -/
def wideRules : List (FTerm × FTerm) :=
  [(.ctr 0 (List.replicate 17 (.ctr 1 [])), .ctr 2 []), (.ctr 1 [], .ctr 3 [])]

/-- Nothing has been replaced in the second pair. -/
theorem wideRules_out : (thvmCriticalPairs ⟨false, true⟩ wideRules 2 4 ⟨[], 0, 0, .empty⟩).map
    CpState.out = some
      [⟨.ctr 2 [], .ctr 2 [], some (.ctr 0 (List.replicate 17 (.ctr 1 []))), [], 0xff⟩,
       ⟨.ctr 0 (List.replicate 17 (.ctr 1 [])), .ctr 2 [],
        some (.ctr 0 (List.replicate 17 (.ctr 1 []))), [0], 0xff⟩] := by decide +kernel

theorem Rewrites.sub {l r : FTerm} (h : Rewrites l r u v) : ∃ p σ, v.sub p = some (r.inst σ) := by
  obtain ⟨p, σ, hu, rfl⟩ := h
  exact ⟨p, σ, TermTree.sub_put hu _⟩

theorem thvmCriticalPairs_wide : ∃ out,
    (thvmCriticalPairs ⟨false, true⟩ wideRules 2 4 ⟨[], 0, 0, .empty⟩).map CpState.out = some out ∧
    ∃ cp ∈ out, ¬∃ u, ∃ ri ∈ wideRules, ∃ rj ∈ wideRules,
      Rewrites rj.1 rj.2 u cp.lhs ∧ Rewrites ri.1 ri.2 u cp.rhs := by
  refine ⟨_, wideRules_out, _, List.mem_cons_of_mem _ List.mem_cons_self, ?_⟩
  rintro ⟨u, ri, hri, rj, hrj, hlhs, -⟩
  obtain ⟨p, σ, hsub⟩ := hlhs.sub
  have hevery : TermTree.Every (fun label _ => label ≤ 1)
      (FTerm.ctr 0 (List.replicate 17 (.ctr 1 []))) := by decide
  have hr := hevery.sub hsub
  rcases List.mem_pair.mp hrj with rfl | rfl
  · exact absurd (TermTree.every_node.mp hr).1 (by decide)
  · exact absurd (TermTree.every_node.mp hr).1 (by decide)

end Thvm.CriticalPairs
