import Thvm.FtInstances

/-!
# Flat terms refine terms

Matching, unification, instances and equality do on cells what the term layer does on the
terms that the cells encode. The flat versions differ in two places: the instance of a
template with a free variable is `NULL`, and the unifier walks along a circle of variables
that the other one does not enter.
-/

namespace Thvm.Ft

open ThreadedTrees BoundedLoops

variable {moves : ℕ → Bool} {scratch : Bool} {a : AtpFt} {m : FtMemory} {U : Set Addr}
  {x y : Addr} {t u : FTerm} {f n : ℕ} {b : ℕ → Option FTerm} {B : Bindings} {s : AtpFtSubst}
  {st : UnifyState}

/-- `ft_from_term` encodes the term. -/
theorem ftFromTerm_added (ht : Plain t) (h : InUse a U)
    (hsup : a.Supplies moves scratch (cellCount t)) :
    ∃ p a', ftFromTerm moves scratch t a = some (p, a') ∧ Added a U p t a' := by
  obtain ⟨p, as, a', hrun, hb, -⟩ := ftFromTerm_supplied (n := 0) t h hsup
  exact ⟨p, a', hrun, hb.added ht⟩

/-- What `ft_subst_apply` makes of the cells of a template. -/
structure SubstAgrees (moves : ℕ → Bool) (scratch : Bool) (a : AtpFt) (U : Set Addr) (q : Addr)
    (t : FTerm) (B : Bindings) (b : ℕ → Option FTerm) : Prop where
  bound : AllBound b t → ∃ p a',
    Settles (fun n => ftSubstApply moves scratch B n q a) (some p, a') ∧
      Added a U p (thvmSubstApply b t) a'
  unbound : ¬AllBound b t → ∃ a',
    Settles (fun n => ftSubstApply moves scratch B n q a) (none, a') ∧
      ∀ x ∈ U, a'.mem x = a.mem x

/-- Both substitutions make the same terms of the same templates. -/
structure InstancesAgree (moves : ℕ → Bool) (a : AtpFt) (U : Set Addr) (B : Bindings)
    (b : ℕ → Option FTerm) : Prop where
  substApply : ∀ scratch q t, Encodes a.mem U q t →
    a.Supplies moves scratch (cellTree (thvmSubstApply b t)).size →
      SubstAgrees moves scratch a U q t B b
  unifyApply : ∀ scratch q t n r, Encodes a.mem U q t → thvmUnifyApply b n t = some r →
    a.Supplies moves scratch (cellTree r).size →
      ∃ p a', Settles (fun n => ftUnifyApply moves B scratch n q a) (p, a') ∧ Added a U p r a'

theorem instances_agree (h : InUse a U) (hcorr : Corresponds a.mem U B b) :
    InstancesAgree moves a U B b where
  substApply scratch q t hq hsup := by
    refine ⟨fun hall => ?_, fun hfree => ?_⟩
    · obtain ⟨p, as, a', ⟨N, hN⟩, hb, -⟩ :=
        ftSubstApply_constructs hcorr hq.plain hall hq a U 0 (.refl h) hsup
      refine ⟨p, a', ⟨N, fun n hn => found_eq_some.mp (hN n hn)⟩, hb.added ?_⟩
      exact thvmSubstApply_plain (fun _ _ h => hcorr.plain h) hq.plain
    · exact ftSubstApply_unbound (k := 0) hcorr hq.plain hfree hq (.refl h) hsup
  unifyApply scratch q t n r hq happly hsup := by
    obtain ⟨p, as, a', hset, hb, -⟩ := ftUnifyApply_constructs hcorr hq happly a U 0 (.refl h) hsup
    refine ⟨p, a', hset, hb.added ?_⟩
    exact thvmUnifyApply_plain (fun _ _ h => hcorr.plain h) hq.plain happly

theorem ftEq_settles (hx : Encodes m U x t) (hy : Encodes m U y u) :
    Settles (fun n => ftEq m n x y) (decide (t = u)) :=
  ⟨(cellTree t).size + 1, fun _ hn => ftEq_encodes hx hy hn⟩

/-- The flat versions on the cells of two terms against those on the terms. -/
structure FlatRefines (moves : ℕ → Bool) (a : AtpFt) (U : Set Addr) (x y : Addr) (t u : FTerm)
    (s : AtpFtSubst) (st : UnifyState) : Prop where
  matching : ∃ s', MatchAgrees a.mem U x y t u s st.bindings s'
  unification : UnifyAgrees a.mem U x y t u s st
  equality : Settles (fun n => ftEq a.mem n x y) (decide (t = u))
  instances : ∀ B b, Corresponds a.mem U B b → InstancesAgree moves a U B b

/-- From every substitution, for all terms that are encoded. -/
theorem flat_refines (moves : ℕ → Bool) (h : InUse a U) (hx : Encodes a.mem U x t)
    (hy : Encodes a.mem U y u) (hcorr : Corresponds a.mem U s.bind st.bindings) :
    FlatRefines moves a U x y t u s st where
  matching := ftMatch_agrees hx hy hcorr
  unification := ftUnify_agrees hx hy hcorr
  equality := ftEq_settles hx hy
  instances _ _ hcorr := instances_agree h hcorr

theorem corresponds_empty : Corresponds m U AtpFtSubst.empty.bind UnifyState.empty.bindings :=
  fun _ => .none

/-- Encoding two terms one after the other. -/
theorem ftFromTerm_both (moves : ℕ → Bool) (ht : Plain t) (hu : Plain u) (h : InUse a U) :
    ∃ x a₁ y a' V, ftFromTerm moves false t a = some (x, a₁) ∧
      ftFromTerm moves false u a₁ = some (y, a') ∧ x ≠ y ∧ U ⊆ V ∧
      (∀ q ∈ U, a'.mem q = a.mem q) ∧ InUse a' V ∧ Encodes a'.mem V x t ∧ Encodes a'.mem V y u := by
  obtain ⟨x, a₁, hrun, -, ⟨V, hV, hin, hx⟩, hkept⟩ := ftFromTerm_added ht h .persistent
  obtain ⟨y, a', hrun', hfresh, ⟨W, hW, hin', hy⟩, hkept'⟩ := ftFromTerm_added hu hin .persistent
  have hsame : ∀ q ∈ U, a'.mem q = a.mem q := fun q hq => (hkept' q (hV hq)).trans (hkept q hq)
  refine ⟨x, a₁, y, a', W, hrun, hrun', ?_, hV.trans hW, hsame, hin', hx.congr hW hkept', hy⟩
  rintro rfl
  exact hfresh hx.mem

theorem plain_single (hf : f < 2 ^ 18) (ht : Plain t) : Plain (.ctr f [t]) := by
  refine plain_ctr.mpr ⟨hf, show 1 ≤ rewriteMaxArity by decide, fun u hu => ?_⟩
  obtain rfl := List.mem_singleton.mp hu
  exact ht

/-- The pattern `f(x0)` and the constant term `f(c)`. -/
theorem flat_refines_pair : ∃ x a₁ y a U,
    ftFromTerm (fun _ => true) false (.ctr 1 [.fvr 0]) ftInit = some (x, a₁) ∧
      ftFromTerm (fun _ => true) false (.ctr 1 [.ctr 2 []]) a₁ = some (y, a) ∧
      FlatRefines (fun _ => true) a U x y (.ctr 1 [.fvr 0]) (.ctr 1 [.ctr 2 []]) .empty .empty := by
  have ht : Plain (.ctr 1 [.fvr 0]) := plain_single (by decide) (plain_fvr (by decide))
  have hc : Plain (.ctr 2 []) :=
    plain_ctr.mpr ⟨by decide, by decide, fun _ h => absurd h List.not_mem_nil⟩
  obtain ⟨x, a₁, y, a, U, hrun, hrun', -, -, -, hin, hx, hy⟩ :=
    ftFromTerm_both (fun _ => true) ht (plain_single (f := 1) (by decide) hc) inUse_init
  exact ⟨x, a₁, y, a, U, hrun, hrun', flat_refines _ hin hx hy corresponds_empty⟩

/-! ## Where they differ -/

theorem unifyWalk_circle (h₀ : b 0 = some (.fvr 1)) (h₁ : b 1 = some (.fvr 0)) (n : ℕ) :
    unifyWalk b n (.fvr 0) = none ∧ unifyWalk b n (.fvr 1) = none := by
  induction n with
  | zero => exact ⟨rfl, rfl⟩
  | succ n ih =>
    rw [unifyWalk, unifyWalk, if_neg (by decide), if_neg (by decide), h₀, h₁]
    exact ih.symm

/-- The walks of the flat unifier below equal nodes. -/
theorem ftUnify_circle (hx : Encodes m U x (.ctr f [.fvr 0])) (hy : Encodes m U y (.ctr f [.fvr 0]))
    (hxy : x ≠ y) (hcorr : Corresponds m U s.bind b) (h₀ : b 0 = some (.fvr 1))
    (h₁ : b 1 = some (.fvr 0)) (n : ℕ) : ftUnify m n x y s = none := by
  refine Option.eq_none_iff_forall_ne_some.mpr fun r hrun => ?_
  cases n with
  | zero => cases hrun
  | succ n =>
    rw [ftUnify] at hrun
    obtain ⟨x', hwalk, hrun₁⟩ := Option.bind_eq_some_iff.mp hrun
    obtain ⟨y', hwalk', hrun₂⟩ := Option.bind_eq_some_iff.mp hrun₁
    have hx' : x' = x := (ftUnifyWalk_self hx).eq_of_lasting (ftUnifyWalk_lasting _ _ _) hwalk
    have hy' : y' = y := (ftUnifyWalk_self hy).eq_of_lasting (ftUnifyWalk_lasting _ _ _) hwalk'
    rw [hx', hy'] at hrun₂
    obtain ⟨o, o', rest, rest', hts, hts', hat⟩ := ftUnifyAt_ctr hx hy
    rw [hat, if_neg hxy, if_neg (not_not_intro rfl), if_neg (not_not_intro rfl)] at hrun₂
    obtain ⟨p, -, rfl, hp, -⟩ := hts.skip
    obtain ⟨q, -, rfl, -⟩ := hts'.skip
    rw [List.length_singleton, ftUnifyKids, Option.bind_eq_bind, Option.bind_some,
      Option.bind_eq_bind, Option.bind_some] at hrun₂
    obtain ⟨r₁, hfirst, hrun₃⟩ := Option.bind_eq_some_iff.mp hrun₂
    cases n with
    | zero => cases hfirst
    | succ n =>
      rw [ftUnify] at hfirst
      obtain ⟨p', hwalk, -⟩ := Option.bind_eq_some_iff.mp hfirst
      obtain ⟨u, hu, -⟩ := rel_left (ftUnifyWalk_rel hcorr hp n) hwalk
      rw [(unifyWalk_circle h₀ h₁ n).1] at hu
      cases hu

theorem thvmUnify_equal {ts : List FTerm} (n : ℕ) :
    thvmUnify (n + 2) (.ctr f ts) (.ctr f ts) st = some (true, st) :=
  unifyAt_same (n := n + 1) _ _

/-- `f(x0)` against itself, where `x0` and `x1` are bound to each other, and the template `x0`
under no bindings. -/
theorem flat_differs :
    (∃ x a, ftFromTerm (fun _ => true) false (.fvr 0) ftInit = some (x, a) ∧
      (∃ a', Settles (fun n => ftSubstApply (fun _ => true) false AtpFtSubst.empty.bind n x a)
        (none, a')) ∧ thvmSubstApply UnifyState.empty.bindings (.fvr 0) = .fvr 0) ∧
    ∃ x a₁ y a₂ p a₃ q a, ∃ s : AtpFtSubst,
      ftFromTerm (fun _ => true) false (.ctr 1 [.fvr 0]) ftInit = some (x, a₁) ∧
      ftFromTerm (fun _ => true) false (.ctr 1 [.fvr 0]) a₁ = some (y, a₂) ∧
      ftFromTerm (fun _ => true) false (.fvr 1) a₂ = some (p, a₃) ∧
      ftFromTerm (fun _ => true) false (.fvr 0) a₃ = some (q, a) ∧
      s.bind = Function.update (Function.update (fun _ => none) 0 (some p)) 1 (some q) ∧
      (∀ n, thvmUnify (n + 2) (.ctr 1 [.fvr 0]) (.ctr 1 [.fvr 0])
          ((UnifyState.empty.bind 0 (.fvr 1)).bind 1 (.fvr 0)) =
        some (true, (UnifyState.empty.bind 0 (.fvr 1)).bind 1 (.fvr 0))) ∧
      ∀ n, ftUnify a.mem n x y s = none := by
  have h₀ : Plain (.fvr 0) := plain_fvr (by decide)
  have h₁ : Plain (.fvr 1) := plain_fvr (by decide)
  have ht : Plain (.ctr 1 [.fvr 0]) := plain_single (by decide) h₀
  constructor
  · obtain ⟨x, a, hrun, -, ⟨V, -, hin, hx⟩, -⟩ := ftFromTerm_added h₀ inUse_init .persistent
    refine ⟨x, a, hrun, ?_, rfl⟩
    obtain ⟨a', hset, -⟩ := ((instances_agree hin corresponds_empty).substApply false x (.fvr 0) hx
      .persistent).unbound fun hall => absurd (hall 0 (by simp)) (by decide)
    exact ⟨a', hset⟩
  · obtain ⟨x, a₁, y, a₂, U, hrun₁, hrun₂, hxy, -, -, hin, hx, hy⟩ :=
      ftFromTerm_both (fun _ => true) ht ht inUse_init
    obtain ⟨p, a₃, q, a, V, hrun₃, hrun₄, -, hUV, hkept, -, hp, hq⟩ :=
      ftFromTerm_both (fun _ => true) h₁ h₀ hin
    let s₀ := AtpFtSubst.empty.push 0 p rfl (by decide)
    let s := s₀.push 1 q rfl (by decide)
    have hcorr : Corresponds a.mem V s.bind
        (Function.update (Function.update (fun _ => none) 0 (some (.fvr 1))) 1 (some (.fvr 0))) :=
      Corresponds.update (Corresponds.update corresponds_empty 0 hp) 1 hq
    exact ⟨x, a₁, y, a₂, p, a₃, q, a, s, hrun₁, hrun₂, hrun₃, hrun₄, rfl, thvmUnify_equal,
      ftUnify_circle (hx.congr hUV hkept) (hy.congr hUV hkept) hxy hcorr rfl rfl⟩

end Thvm.Ft
