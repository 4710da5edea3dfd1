import Thvm.UnifySpec

/-!
# Unification without limits

What a call that succeeds has done, for all variables and arities. Variables from
`REWRITE_MAX_VAR` on are constants to the unifier; a node with more than
`REWRITE_MAX_ARITY` arguments is not entered by a substitution, which is right
when it has no variables.
-/

namespace Thvm

/-- A substitution reaches all variables. -/
inductive FTerm.Substitutable : FTerm → Prop
  | closed {t : FTerm} (h : ∀ id, Leaf.fvr id ∉ t.leaves) : Substitutable t
  | fvr (id : ℕ) : Substitutable (.fvr id)
  | ctr {label : ℕ} {args : List FTerm} (hlen : args.length ≤ rewriteMaxArity)
      (hargs : ∀ a ∈ args, Substitutable a) : Substitutable (.ctr label args)

namespace FTerm

variable {t : FTerm} {label : ℕ} {args : List FTerm} {σ : ℕ → FTerm}

theorem inst_of_closed (h : ∀ id, Leaf.fvr id ∉ t.leaves) : t.inst σ = t :=
  (inst_congr fun id hid => absurd hid (h id)).trans (inst_id t)

theorem closed_arg (h : ∀ id, Leaf.fvr id ∉ (FTerm.ctr label args).leaves) {a : FTerm}
    (ha : a ∈ args) (id : ℕ) : Leaf.fvr id ∉ a.leaves :=
  fun hid => h id (TermTree.mem_leaves_node.mpr ⟨a, ha, hid⟩)

theorem Substitutable.arg (h : (FTerm.ctr label args).Substitutable) {a : FTerm} (ha : a ∈ args) :
    a.Substitutable := by
  cases h with
  | closed hclosed => exact .closed (closed_arg hclosed ha)
  | ctr _ hargs => exact hargs a ha

/-- A node with too many arguments is closed. -/
theorem Substitutable.wide (h : (FTerm.ctr label args).Substitutable)
    (hlen : rewriteMaxArity < args.length) (id : ℕ) : Leaf.fvr id ∉ (FTerm.ctr label args).leaves := by
  cases h with
  | closed hclosed => exact hclosed id
  | ctr hlen' _ => exact absurd hlen (Nat.not_lt.mpr hlen')

theorem Substitutable.inst (h : t.Substitutable) (hσ : ∀ id, (σ id).Substitutable) :
    (t.inst σ).Substitutable := by
  induction h with
  | closed hclosed =>
    rw [inst_of_closed hclosed]
    exact .closed hclosed
  | fvr id => exact hσ id
  | ctr hlen _ ih =>
    rw [inst_ctr]
    refine .ctr (by rwa [List.length_map]) fun b hb => ?_
    obtain ⟨a, ha, rfl⟩ := List.mem_map.mp hb
    exact ih a ha

/-- Substitutions reach all variables of a term with narrow nodes. -/
theorem ArityCapped.substitutable (h : t.ArityCapped) : t.Substitutable := by
  induction h with
  | leaf l =>
    cases l with
    | fvr id => exact .fvr id
    | num dtype value => exact .closed fun id hid => by simp [TermTree.leaves] at hid
  | node hnode _ ih => exact .ctr hnode ih

end FTerm

namespace Unification
open Relation BoundedLoops Triangular

variable {b : ℕ → Option FTerm} {s t u : FTerm} {id : ℕ} {θ : ℕ → FTerm}

/-- The substitution that acyclic bindings stand for. -/
noncomputable def resolved (h : Acyclic (leafBindings b)) (id : ℕ) : FTerm :=
  resolve (leafBindings b) h (.fvr id)

theorem onLeaves_resolved (h : Acyclic (leafBindings b)) :
    onLeaves (resolved h) = resolve (leafBindings b) h := by
  funext l
  cases l with
  | fvr id => rfl
  | num dtype value => exact (resolve_unbound h rfl).symm

theorem resolved_solves (h : Acyclic (leafBindings b)) : Solution (resolved h) b := by
  rw [← solves_onLeaves, onLeaves_resolved h]
  exact solves_resolve h

theorem resolved_unbound (h : Acyclic (leafBindings b)) (hid : b id = none) :
    resolved h id = .fvr id := resolve_unbound h hid

/-- What holds of the bindings between the calls. -/
structure Bound (b : ℕ → Option FTerm) : Prop where
  acyclic : Acyclic (leafBindings b)
  below : ∀ id t, b id = some t → id < rewriteMaxVar
  substitutable : ∀ id t, b id = some t → t.Substitutable

theorem bound_empty : Bound fun _ => none where
  acyclic := sound_empty.acyclic
  below := fun _ _ h => nomatch h
  substitutable := fun _ _ h => nomatch h

theorem Bound.resolved_bound (h : Bound b) (hid : b id = some t) :
    resolved h.acyclic id = t.inst (resolved h.acyclic) := resolved_solves h.acyclic id t hid

theorem Bound.substitutable_inst (h : Bound b) (ht : t.Substitutable) :
    (t.inst (resolved h.acyclic)).Substitutable := by
  induction t using h.acyclic.induct with
  | unbound l hl =>
    cases l with
    | fvr id =>
      rw [FTerm.inst_fvr, resolved_unbound h.acyclic hl]
      exact .fvr id
    | num dtype value => exact ht
  | bound l t hl ih =>
    cases l with
    | fvr id =>
      rw [FTerm.inst_fvr, h.resolved_bound hl]
      exact ih (h.substitutable id t hl)
    | num dtype value => exact ht
  | node label args ih =>
    cases ht with
    | closed hclosed =>
      rw [FTerm.inst_of_closed hclosed]
      exact .closed hclosed
    | ctr hlen hargs =>
      rw [FTerm.inst_ctr]
      refine .ctr (by rwa [List.length_map]) fun b hb => ?_
      obtain ⟨a, ha, rfl⟩ := List.mem_map.mp hb
      exact ih a ha (hargs a ha)

/-- What a walk that ends has found. -/
structure Found (h : Bound b) (t u : FTerm) : Prop where
  inst : u.inst (resolved h.acyclic) = t.inst (resolved h.acyclic)
  unbound : ∀ id, u = .fvr id → b id = none
  substitutable : t.Substitutable → u.Substitutable

theorem unifyWalk_found (h : Bound b) {n : ℕ} (hwalk : unifyWalk b n t = some u) : Found h t u := by
  induction n generalizing t with
  | zero => cases hwalk
  | succ n ih =>
    cases t with
    | node label args =>
      obtain rfl := Option.some.inj hwalk
      exact ⟨rfl, fun id heq => (nomatch heq), fun ht => ht⟩
    | leaf l =>
      cases l with
      | num dtype value =>
        obtain rfl := Option.some.inj hwalk
        exact ⟨rfl, fun id heq => (nomatch heq), fun ht => ht⟩
      | fvr id =>
        have hself : b id = none → Found h (.fvr id) (.fvr id) := by
          intro hid
          refine ⟨rfl, fun id' heq => ?_, fun ht => ht⟩
          cases heq
          exact hid
        unfold unifyWalk at hwalk
        split at hwalk
        · next hlarge =>
          obtain rfl := Option.some.inj hwalk
          refine hself (Option.eq_none_iff_forall_ne_some.mpr fun t ht => ?_)
          exact absurd hlarge (Nat.not_le.mpr (h.below id t ht))
        · split at hwalk
          · next hid =>
            obtain rfl := Option.some.inj hwalk
            exact hself hid
          · next t hid =>
            obtain ⟨hinst, hunbound, hsub⟩ := ih hwalk
            refine ⟨?_, hunbound, fun _ => hsub (h.substitutable id t hid)⟩
            rw [hinst, FTerm.inst_fvr, h.resolved_bound hid]

theorem anyArg_false {p : FTerm → Option Bool} {args : List FTerm} (h : anyArg p args = some false) :
    ∀ a ∈ args, p a = some false := by
  induction args with
  | nil => exact fun a ha => nomatch ha
  | cons a as ih =>
    obtain ⟨x, hx, hrest⟩ := Option.bind_eq_some_iff.mp h
    cases x with
    | true => cases hrest
    | false => exact List.forall_mem_cons.mpr ⟨hx, ih hrest⟩

/-- The occurs check has seen all leaves of the resolved term. -/
theorem unifyOccurs_false (h : Bound b) {n : ℕ} (hoccurs : unifyOccurs b id n t = some false) :
    Leaf.fvr id ∉ (t.inst (resolved h.acyclic)).leaves := by
  induction n generalizing t with
  | zero => cases hoccurs
  | succ n ih =>
    obtain ⟨u, hwalk, hoccurs⟩ := Option.bind_eq_some_iff.mp hoccurs
    have hu := unifyWalk_found h hwalk
    rw [← hu.inst]
    cases u with
    | leaf l =>
      cases l with
      | fvr id' =>
        have hne : id' ≠ id := by simpa [occursAt] using hoccurs
        rw [FTerm.inst_fvr, resolved_unbound h.acyclic (hu.unbound id' rfl)]
        simpa using fun heq => hne heq.symm
      | num dtype value => simp
    | node label args =>
      intro hmem
      rw [FTerm.inst_ctr] at hmem
      obtain ⟨c, hc, hid⟩ := TermTree.mem_leaves_node.mp hmem
      obtain ⟨a, ha, rfl⟩ := List.mem_map.mp hc
      exact ih (anyArg_false hoccurs a ha) hid

theorem mapM_eq_map {α β : Type} {f : α → Option β} {g : α → β} {l : List α} {ys : List β}
    (hf : ∀ a ∈ l, ∀ y, f a = some y → y = g a) (h : l.mapM f = some ys) : ys = l.map g := by
  induction l generalizing ys with
  | nil => exact (Option.some.inj h).symm
  | cons a l ih =>
    rw [List.mapM_cons] at h
    obtain ⟨y, hy, h⟩ := Option.bind_eq_some_iff.mp h
    obtain ⟨zs, hzs, h⟩ := Option.bind_eq_some_iff.mp h
    obtain rfl := Option.some.inj h
    rw [List.map_cons, hf a List.mem_cons_self y hy, ih (fun a ha => hf a (List.mem_cons_of_mem _ ha)) hzs]

/-- Applying the bindings puts what they stand for into the term. -/
theorem thvmUnifyApply_found (h : Bound b) {n : ℕ} (ht : t.Substitutable)
    (happly : thvmUnifyApply b n t = some u) : u = t.inst (resolved h.acyclic) := by
  induction n generalizing t u with
  | zero => cases happly
  | succ n ih =>
    obtain ⟨v, hwalk, happly⟩ := Option.bind_eq_some_iff.mp happly
    have hv := unifyWalk_found h hwalk
    rw [← hv.inst]
    cases v with
    | leaf l =>
      obtain rfl := Option.some.inj happly
      cases l with
      | fvr id => rw [FTerm.inst_fvr, resolved_unbound h.acyclic (hv.unbound id rfl)]
      | num dtype value => rfl
    | node label args =>
      have hsub := hv.substitutable ht
      simp only [applyAt] at happly
      split at happly
      · next hlen =>
        obtain rfl := Option.some.inj happly
        rw [FTerm.inst_of_closed (hsub.wide hlen)]
      · obtain ⟨as, has, happly⟩ := Option.bind_eq_some_iff.mp happly
        obtain rfl := Option.some.inj happly
        rw [FTerm.inst_ctr, mapM_eq_map (fun a ha y hy => ih (hsub.arg ha) hy) has]

/-- What a call that returns 1 has done to the bindings. -/
structure Solved (b : ℕ → Option FTerm) (s t : FTerm) (b' : ℕ → Option FTerm) : Prop where
  bound : Bound b'
  solutions : ∀ θ, Solution θ b' → Solution θ b ∧ s.inst θ = t.inst θ

variable {b' b'' : ℕ → Option FTerm} {s' t' : FTerm} {st st' : UnifyState}

theorem Solved.symm (h : Solved b s t b') : Solved b t s b' :=
  ⟨h.bound, fun θ hθ => (h.solutions θ hθ).imp_right Eq.symm⟩

theorem Found.inst_eq (h : Bound b) (hu : Found h t u) (hθ : Solution θ b) :
    u.inst θ = t.inst θ := by
  have hfactor : ∀ v : FTerm, (v.inst (resolved h.acyclic)).inst θ = v.inst θ := by
    intro v
    unfold FTerm.inst
    rw [onLeaves_resolved]
    exact subst_resolve_subst h.acyclic (solves_onLeaves.mpr hθ) v
  rw [← hfactor u, hu.inst, hfactor t]

/-- Binding an unbound variable that does not occur in the term. -/
theorem Solved.bind (h : Bound b) (hid : b id = none) (hlt : id < rewriteMaxVar)
    (ht : t.Substitutable) (hoccurs : Leaf.fvr id ∉ (t.inst (resolved h.acyclic)).leaves) :
    Solved b (.fvr id) t (Function.update b id (some t)) where
  bound := by
    have hcell : ∀ id' u, Function.update b id (some t) id' = some u →
        (id' = id ∧ u = t) ∨ b id' = some u := by
      intro id' u hu
      by_cases heq : id' = id
      · subst heq
        rw [Function.update_self] at hu
        exact .inl ⟨rfl, (Option.some.inj hu).symm⟩
      · rw [Function.update_of_ne heq] at hu
        exact .inr hu
    refine ⟨?_, fun id' u hu => ?_, fun id' u hu => ?_⟩
    · rw [leafBindings_update]
      apply h.acyclic.bind (by exact hid)
      rw [← onLeaves_resolved h.acyclic]
      exact hoccurs
    · rcases hcell id' u hu with ⟨rfl, -⟩ | hu
      · exact hlt
      · exact h.below id' u hu
    · rcases hcell id' u hu with ⟨-, rfl⟩ | hu
      · exact ht
      · exact h.substitutable id' u hu
  solutions := by
    intro θ hθ
    rw [← solves_onLeaves, leafBindings_update, solves_bind (by exact hid), solves_onLeaves] at hθ
    exact hθ

theorem unifyBind_solved (h : Bound st.bindings) {n : ℕ} (hid : st.bindings id = none)
    (ht : t.Substitutable) (hbind : unifyBind n id t st = some (true, st')) :
    Solved st.bindings (.fvr id) t st'.bindings := by
  unfold unifyBind at hbind
  split at hbind
  · cases hbind
  · next hlt =>
    obtain ⟨occurs, hoccurs, hbind⟩ := Option.bind_eq_some_iff.mp hbind
    cases occurs with
    | true => cases hbind
    | false =>
      obtain rfl := (Prod.mk.inj (Option.some.inj hbind)).2
      rw [bindings_bind]
      exact .bind h hid (Nat.lt_of_not_le hlt) ht (unifyOccurs_false h hoccurs)

theorem unifyArgs_solved {unify : FTerm → FTerm → UnifyState → Option (Bool × UnifyState)}
    {as bs : List FTerm} (hlen : as.length = bs.length) (h : Bound st.bindings)
    (has : ∀ a ∈ as, a.Substitutable) (hbs : ∀ a ∈ bs, a.Substitutable)
    (hunify : ∀ a b st st', Bound st.bindings → a.Substitutable → b.Substitutable →
      unify a b st = some (true, st') → Solved st.bindings a b st'.bindings)
    (hargs : unifyArgs unify as bs st = some (true, st')) (label : ℕ) :
    Solved st.bindings (.ctr label as) (.ctr label bs) st'.bindings := by
  induction as generalizing bs st with
  | nil =>
    obtain rfl := List.length_eq_zero_iff.mp hlen.symm
    obtain rfl := (Prod.mk.inj (Option.some.inj hargs)).2
    exact ⟨h, fun θ hθ => ⟨hθ, rfl⟩⟩
  | cons a as ih =>
    cases bs with
    | nil => cases hlen
    | cons b bs =>
      obtain ⟨⟨ok, st₁⟩, hhead, hargs⟩ := Option.bind_eq_some_iff.mp hargs
      cases ok with
      | false => cases hargs
      | true =>
        have hfirst := hunify a b st st₁ h (has a List.mem_cons_self) (hbs b List.mem_cons_self) hhead
        have hrest := ih (Nat.succ.inj hlen) hfirst.bound
          (fun a ha => has a (List.mem_cons_of_mem _ ha))
          (fun a ha => hbs a (List.mem_cons_of_mem _ ha)) hargs
        refine ⟨hrest.bound, fun θ hθ => ?_⟩
        obtain ⟨hθ₁, htail⟩ := hrest.solutions θ hθ
        obtain ⟨hθ₀, heq⟩ := hfirst.solutions θ hθ₁
        refine ⟨hθ₀, ?_⟩
        simp only [FTerm.inst_ctr, TermTree.node.injEq, true_and, List.map_cons] at htail ⊢
        rw [heq, htail]

/-- A call that returns 1 has made the two terms equal. -/
theorem thvmUnify_solved {n : ℕ} (h : Bound st.bindings) (hs : s.Substitutable)
    (ht : t.Substitutable) (hunify : thvmUnify n s t st = some (true, st')) :
    Solved st.bindings s t st'.bindings := by
  induction n generalizing s t st st' with
  | zero => cases hunify
  | succ n ih =>
    obtain ⟨s', hs', hunify⟩ := Option.bind_eq_some_iff.mp hunify
    obtain ⟨t', ht', hunify⟩ := Option.bind_eq_some_iff.mp hunify
    have hfs := unifyWalk_found h hs'
    have hft := unifyWalk_found h ht'
    have hback : Solved st.bindings s' t' st'.bindings → Solved st.bindings s t st'.bindings := by
      rintro ⟨hbound, hsol⟩
      refine ⟨hbound, fun θ hθ => ?_⟩
      obtain ⟨hθ₀, heq⟩ := hsol θ hθ
      exact ⟨hθ₀, by rw [← hfs.inst_eq h hθ₀, heq, hft.inst_eq h hθ₀]⟩
    apply hback
    unfold unifyAt at hunify
    split at hunify
    · next heq =>
      obtain rfl := (Prod.mk.inj (Option.some.inj hunify)).2
      obtain rfl := kboEq_iff.mp heq
      exact ⟨h, fun θ hθ => ⟨hθ, rfl⟩⟩
    · split at hunify
      · exact unifyBind_solved h (hfs.unbound _ rfl) (hft.substitutable ht) hunify
      · exact (unifyBind_solved h (hft.unbound _ rfl) (hfs.substitutable hs) hunify).symm
      · split at hunify
        · cases hunify
        · next hlabel =>
          split at hunify
          · cases hunify
          · next hlen =>
            obtain rfl := Decidable.not_not.mp hlabel
            exact unifyArgs_solved (Decidable.not_not.mp hlen) h
              (fun a ha => (hfs.substitutable hs).arg ha) (fun a ha => (hft.substitutable ht).arg ha)
              (fun a b st st' hst ha hb hab => ih hst ha hb hab) hunify _
      · cases hunify

/-- From the empty substitution. -/
theorem thvmUnify_resolved {n : ℕ} (hs : s.Substitutable) (ht : t.Substitutable)
    (hunify : thvmUnify n s t .empty = some (true, st')) :
    ∃ h : Bound st'.bindings, s.inst (resolved h.acyclic) = t.inst (resolved h.acyclic) := by
  obtain ⟨hbound, hsol⟩ := thvmUnify_solved bound_empty hs ht hunify
  exact ⟨hbound, (hsol _ (resolved_solves hbound.acyclic)).2⟩

end Unification

end Thvm
