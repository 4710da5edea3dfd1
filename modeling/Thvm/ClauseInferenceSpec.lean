import Thvm.ClauseInference
import Thvm.CriticalPairsSpec
import Thvm.FirstOrderModels
import Thvm.UnifyPartial

/-!
# The inferences are sound

When predicates and functions are apart, and substitutions reach all variables, a clause
that is derived from clauses which hold in a model holds in it as well.
-/

namespace Thvm

open Unification

/-! ## Matching -/

variable {b b' : ℕ → Option FTerm} {p t u : FTerm} {σ : ℕ → FTerm}

/-- The substitution of a matcher. -/
def bindSubst (b : ℕ → Option FTerm) (id : ℕ) : FTerm :=
  if id < rewriteMaxVar then (b id).getD (.fvr id) else .fvr id

/-- What a successful match of `p`, or of a list of arguments, has done to the bindings. -/
structure Matched (b : ℕ → Option FTerm) (ps ts : List FTerm) (b' : ℕ → Option FTerm) : Prop where
  kept : ∀ id u, b id = some u → b' id = some u
  inst : ∀ σ, (∀ id u, id < rewriteMaxVar → b' id = some u → σ id = u) →
    ps.map (FTerm.inst σ) = ts
  substitutable : (∀ t ∈ ts, t.Substitutable) → (∀ id u, b id = some u → u.Substitutable) →
    ∀ id u, b' id = some u → u.Substitutable

theorem Matched.cons {b₁ : ℕ → Option FTerm} {ps ts : List FTerm} (h : Matched b [p] [t] b₁)
    (h' : Matched b₁ ps ts b') : Matched b (p :: ps) (t :: ts) b' where
  kept := fun id u hu => h'.kept id u (h.kept id u hu)
  inst := by
    intro σ hσ
    have hhead := h.inst σ fun id u hlt hu => hσ id u hlt (h'.kept id u hu)
    rw [List.map_cons, h'.inst σ hσ]
    exact congrArg (· ++ ts) hhead
  substitutable := by
    intro hts hb
    obtain ⟨ht, hts⟩ := List.forall_mem_cons.mp hts
    exact h'.substitutable hts (h.substitutable (List.forall_mem_singleton.mpr ht) hb)

theorem Matched.ctr {ps ts : List FTerm} (h : Matched b ps ts b') (label : ℕ) :
    Matched b [.ctr label ps] [.ctr label ts] b' where
  kept := h.kept
  inst := by
    intro σ hσ
    rw [List.map_singleton, FTerm.inst_ctr, h.inst σ hσ]
  substitutable := fun ht => h.substitutable fun a ha => (List.forall_mem_singleton.mp ht).arg ha

theorem thvmMatchArgs_matched {ps ts : List FTerm} (hlen : ps.length = ts.length)
    (ih : ∀ p ∈ ps, ∀ t b b', thvmMatch p t b = (true, b') → Matched b [p] [t] b')
    (h : thvmMatchArgs ps ts b = (true, b')) : Matched b ps ts b' := by
  induction ps generalizing ts b with
  | nil =>
    obtain rfl := List.length_eq_zero_iff.mp hlen.symm
    obtain rfl := (Prod.mk.inj h).2
    exact ⟨fun _ _ hu => hu, fun _ _ => rfl, fun _ hb => hb⟩
  | cons p ps ihps =>
    cases ts with
    | nil => cases hlen
    | cons t ts =>
      rw [thvmMatchArgs] at h
      cases hhead : thvmMatch p t b with
      | mk ok b₁ =>
        rw [hhead] at h
        cases ok with
        | false => cases h
        | true =>
          exact (ih p List.mem_cons_self t b b₁ hhead).cons
            (ihps (Nat.succ.inj hlen) (fun q hq => ih q (List.mem_cons_of_mem _ hq)) h)

theorem matched_fvr {id : ℕ} (hlt : id < rewriteMaxVar) (hkept : ∀ id u, b id = some u → b' id = some u)
    (hid : b' id = some t) (hother : ∀ id' u, b' id' = some u → b id' = some u ∨ u = t) :
    Matched b [.fvr id] [t] b' where
  kept := hkept
  inst := fun σ hσ => congrArg (fun u => [u]) (hσ id t hlt hid)
  substitutable := by
    intro ht hb id' u hu
    rcases hother id' u hu with hu | rfl
    · exact hb id' u hu
    · exact List.forall_mem_singleton.mp ht

/-- A match that succeeds has found the instance. -/
theorem thvmMatch_matched (h : thvmMatch p t b = (true, b')) : Matched b [p] [t] b' := by
  induction p using TermTree.induct generalizing t b b' with
  | leaf l =>
    cases l with
    | num dtype value => cases h
    | fvr id =>
      rw [thvmMatch] at h
      split at h
      · cases h
      · next hlt =>
        have hlt := Nat.lt_of_not_le hlt
        split at h
        · next hid =>
          obtain rfl := (Prod.mk.inj h).2
          refine matched_fvr hlt (fun id' u hu => ?_) (Function.update_self ..) fun id' u hu => ?_
          · rwa [Function.update_of_ne]
            rintro rfl
            rw [hid] at hu
            cases hu
          · by_cases heq : id' = id
            · subst heq
              rw [Function.update_self] at hu
              exact .inr (Option.some.inj hu).symm
            · rw [Function.update_of_ne heq] at hu
              exact .inl hu
        · next u hid =>
          obtain ⟨heq, rfl⟩ := Prod.mk.inj h
          obtain rfl := kboEq_iff.mp heq
          exact matched_fvr hlt (fun _ _ hu => hu) hid fun _ _ hu => .inl hu
  | node f as ih =>
    cases t with
    | leaf l => cases h
    | node g bs =>
      rw [thvmMatch] at h
      split at h
      · cases h
      · next hlabel =>
        split at h
        · cases h
        · next hlen =>
          obtain rfl := Decidable.not_not.mp hlabel
          exact (thvmMatchArgs_matched (Decidable.not_not.mp hlen)
            (fun p hp t b b' hpt => ih p hp hpt) h).ctr f

theorem thvmSubstApplyArgs_eq (b : ℕ → Option FTerm) (args : List FTerm) :
    thvmSubstApplyArgs b args = args.map (thvmSubstApply b) := by
  induction args with
  | nil => rfl
  | cons a as ih => rw [thvmSubstApplyArgs, ih, List.map_cons]

theorem thvmSubstApply_eq (b : ℕ → Option FTerm) (ht : t.Substitutable) :
    thvmSubstApply b t = t.inst (bindSubst b) := by
  induction t using TermTree.induct with
  | leaf l => cases l <;> rfl
  | node label args ih =>
    rw [thvmSubstApply]
    split
    · next hlen => rw [FTerm.inst_of_closed (ht.wide hlen)]
    · rw [thvmSubstApplyArgs_eq, FTerm.inst_ctr, List.map_congr_left fun a ha => ih a ha (ht.arg ha)]

theorem bindSubst_substitutable (hb : ∀ id u, b id = some u → u.Substitutable) (id : ℕ) :
    (bindSubst b id).Substitutable := by
  unfold bindSubst
  split
  · cases hid : b id with
    | none => exact .fvr id
    | some u => exact hb id u hid
  · exact .fvr id

/-- The right side of a rule whose left side matches. -/
theorem thvmMatch_apply {lhs rhs : FTerm} (hrhs : rhs.Substitutable) (ht : t.Substitutable)
    (h : thvmMatch lhs t (fun _ => none) = (true, b)) :
    ∃ σ, lhs.inst σ = t ∧ thvmSubstApply b rhs = rhs.inst σ ∧ ∀ id, (σ id).Substitutable := by
  have hmatched := thvmMatch_matched h
  refine ⟨bindSubst b, List.singleton_inj.mp (hmatched.inst _ ?_), thvmSubstApply_eq b hrhs,
    bindSubst_substitutable (hmatched.substitutable (List.forall_mem_singleton.mpr ht) ?_)⟩
  · intro id u hlt hu
    rw [bindSubst, if_pos hlt, hu, Option.getD_some]
  · exact fun _ _ hu => nomatch hu

/-! ## Renaming and replacing -/

/-- The renaming as a substitution. -/
def renamedVar (offset id : ℕ) : FTerm := .fvr ((id + offset) % 2 ^ 18)

theorem thvmRenameVars_inst (offset : ℕ) (ht : t.Substitutable) :
    thvmRenameVars offset t = t.inst (renamedVar offset) := by
  induction t using TermTree.induct with
  | leaf l => cases l <;> rfl
  | node label args ih =>
    rw [thvmRenameVars]
    split
    · next hlen => rw [FTerm.inst_of_closed (ht.wide hlen)]
    · rw [CriticalPairs.renameArgs_eq, FTerm.inst_ctr,
        List.map_congr_left fun a ha => ih a ha (ht.arg ha)]

theorem FTerm.Substitutable.rename (ht : t.Substitutable) (offset : ℕ) :
    (thvmRenameVars offset t).Substitutable := by
  rw [thvmRenameVars_inst offset ht]
  exact ht.inst fun id => .fvr _

namespace Fol

variable {D : Type} {M : Model D} {P : ℕ → ℕ → Prop} {ρ : ℕ → D} {c c₁ c₂ r : FolClause}
  {l : FolLit} {rounds i j : ℕ}

/-- The head symbol of a constructor, with its arity. -/
def HeadIn (P : ℕ → ℕ → Prop) : FTerm → Prop
  | .leaf _ => False
  | .node label args => P label args.length

/-- A term that no predicate of `P` heads, and that does not stand for all terms. -/
def SideOk (P : ℕ → ℕ → Prop) : FTerm → Prop
  | .leaf (.fvr _) => False
  | .leaf (.num _ _) => True
  | .node label args => ¬P label args.length

/-- The predicates are `P`, and no side of a positive equality has one of them at its head. -/
structure LitOk (P : ℕ → ℕ → Prop) (l : FolLit) : Prop where
  head : HeadIn P l.atom
  sides : ∀ s t, posEqSides l = some (s, t) →
    SideOk P s ∧ SideOk P t
  substitutable : l.atom.Substitutable

def ClauseOk (P : ℕ → ℕ → Prop) (c : FolClause) : Prop := ∀ l ∈ c, LitOk P l

/-- A clause that can be used and holds in the model. -/
structure Good (M : Model D) (P : ℕ → ℕ → Prop) (c : FolClause) : Prop where
  ok : ClauseOk P c
  holds : ∀ ρ, M.HoldsClause ρ c

def FolClause.inst (σ : ℕ → FTerm) (c : FolClause) : FolClause := c.map (·.map (FTerm.inst σ))

/-- The values of the variables below a substitution. -/
def Model.under (M : Model D) (ρ : ℕ → D) (σ : ℕ → FTerm) (id : ℕ) : D := M.value ρ (σ id)

theorem value_under (M : Model D) (ρ : ℕ → D) (σ : ℕ → FTerm) (t : FTerm) :
    M.value (M.under ρ σ) t = M.value ρ (t.inst σ) := (M.value_inst ρ σ t).symm

theorem HeadIn.inst (h : HeadIn P t) : HeadIn P (t.inst σ) := by
  cases t with
  | leaf l => exact h.elim
  | node label args =>
    rw [FTerm.inst_ctr]
    show P label (args.map (FTerm.inst σ)).length
    rwa [List.length_map]

theorem SideOk.inst (h : SideOk P t) : SideOk P (t.inst σ) := by
  cases t with
  | leaf l =>
    cases l with
    | fvr id => exact h.elim
    | num dtype value => exact h
  | node label args =>
    rw [FTerm.inst_ctr]
    show ¬P label (args.map (FTerm.inst σ)).length
    rwa [List.length_map]

theorem holdsAtom_inst (M : Model D) (ρ : ℕ → D) (σ : ℕ → FTerm) (h : HeadIn P t) :
    M.HoldsAtom ρ (t.inst σ) ↔ M.HoldsAtom (M.under ρ σ) t := by
  cases t with
  | leaf l => exact h.elim
  | node label args =>
    have hargs : (args.map (FTerm.inst σ)).map (M.value ρ) = args.map (M.value (M.under ρ σ)) := by
      rw [List.map_map]
      exact List.map_congr_left fun a _ => M.value_inst ρ σ a
    rw [FTerm.inst_ctr, Model.HoldsAtom, hargs, Model.HoldsAtom]

theorem eqSides_some {s t u : FTerm} (h : eqSides u = some (s, t)) : u = .ctr labEq [s, t] := by
  unfold eqSides at h
  split at h
  · split at h
    · next hlabel =>
      obtain ⟨rfl, rfl⟩ := Prod.mk.inj (Option.some.inj h)
      rw [hlabel]
    · cases h
  · cases h

theorem posEqSides_some {s t : FTerm} (h : posEqSides l = some (s, t)) :
    l = ⟨.ctr labEq [s, t], false⟩ := by
  obtain ⟨atom, sign⟩ := l
  cases sign with
  | true => cases h
  | false => exact congrArg (fun t => FolLit.mk t false) (eqSides_some h)

theorem holdsAtom_eq (M : Model D) (ρ : ℕ → D) (s t : FTerm) :
    M.HoldsAtom ρ (.ctr labEq [s, t]) ↔ M.value ρ s = M.value ρ t := Iff.rfl

theorem LitOk.inst (h : LitOk P l) (hσ : ∀ id, (σ id).Substitutable) :
    LitOk P (l.map (FTerm.inst σ)) where
  head := h.head.inst
  sides := by
    intro s' t' hsides
    obtain ⟨atom, sign⟩ := l
    have heq := posEqSides_some hsides
    cases atom with
    | leaf l => exact h.head.elim
    | node label args =>
      simp only [FolLit.map, FTerm.inst_ctr, FolLit.mk.injEq, TermTree.node.injEq] at heq
      obtain ⟨⟨rfl, hargs⟩, rfl⟩ := heq
      match args, hargs with
      | [s, t], hargs =>
        simp only [List.map_cons, List.map_nil, List.cons.injEq, and_true] at hargs
        obtain ⟨rfl, rfl⟩ := hargs
        have hst := h.sides s t rfl
        exact ⟨hst.1.inst, hst.2.inst⟩
  substitutable := h.substitutable.inst hσ

theorem holdsLit_inst (h : LitOk P l) (ρ : ℕ → D) (σ : ℕ → FTerm) :
    M.HoldsLit ρ (l.map (FTerm.inst σ)) ↔ M.HoldsLit (M.under ρ σ) l := by
  unfold Model.HoldsLit
  rw [FolLit.map, holdsAtom_inst M ρ σ h.head]

theorem ClauseOk.inst (h : ClauseOk P c) (hσ : ∀ id, (σ id).Substitutable) :
    ClauseOk P (FolClause.inst σ c) := by
  intro l' hl'
  obtain ⟨l, hl, rfl⟩ := List.mem_map.mp hl'
  exact (h l hl).inst hσ

theorem holdsClause_inst (h : ClauseOk P c) (ρ : ℕ → D) (σ : ℕ → FTerm) :
    M.HoldsClause ρ (FolClause.inst σ c) ↔ M.HoldsClause (M.under ρ σ) c := by
  constructor
  · rintro ⟨l', hl', hholds⟩
    obtain ⟨l, hl, rfl⟩ := List.mem_map.mp hl'
    exact ⟨l, hl, (holdsLit_inst (h l hl) ρ σ).mp hholds⟩
  · rintro ⟨l, hl, hholds⟩
    exact ⟨_, List.mem_map_of_mem hl, (holdsLit_inst (h l hl) ρ σ).mpr hholds⟩

/-- The instance of a clause that holds below the substitution. -/
theorem ClauseOk.good_inst (h : ClauseOk P c) (hσ : ∀ id, (σ id).Substitutable)
    (hc : ∀ ρ, M.HoldsClause (M.under ρ σ) c) : Good M P (FolClause.inst σ c) :=
  ⟨h.inst hσ, fun ρ => (holdsClause_inst h ρ σ).mpr (hc ρ)⟩

theorem Good.inst (h : Good M P c) (hσ : ∀ id, (σ id).Substitutable) :
    Good M P (FolClause.inst σ c) :=
  h.ok.good_inst hσ fun _ => h.holds _

theorem folRename_eq (h : ClauseOk P c) :
    folRename c = FolClause.inst (renamedVar folRenameOffset) c := by
  apply List.map_congr_left
  intro l hl
  rw [FolLit.map, FolLit.map, thvmRenameVars_inst _ (h l hl).substitutable]

theorem Good.rename (h : Good M P c) : Good M P (folRename c) := by
  rw [folRename_eq h.ok]
  exact h.inst fun id => .fvr _

theorem ClauseOk.sublist (h : ClauseOk P c) (hsub : c₁.Sublist c) : ClauseOk P c₁ :=
  fun l hl => h l (hsub.subset hl)

theorem ClauseOk.append (h₁ : ClauseOk P c₁) (h₂ : ClauseOk P c₂) : ClauseOk P (c₁ ++ c₂) :=
  List.forall_mem_append.mpr ⟨h₁, h₂⟩

/-- A clause holds through one literal or through the others. -/
theorem holdsClause_eraseIdx (hl : c₁[i]? = some l) (h : M.HoldsClause ρ c₁) :
    M.HoldsLit ρ l ∨ M.HoldsClause ρ (c₁.eraseIdx i) := by
  obtain ⟨l', hl', hholds⟩ := h
  obtain ⟨k, hk⟩ := List.mem_iff_getElem?.mp hl'
  by_cases heq : k = i
  · subst heq
    rw [hl] at hk
    obtain rfl := Option.some.inj hk
    exact .inl hholds
  · exact .inr ⟨l', List.mem_eraseIdx_iff_getElem?.mpr ⟨k, heq, hk⟩, hholds⟩

theorem folClauseNew_some (h : folClauseNew c = some r) : r = c := by
  unfold folClauseNew at h
  split at h
  · cases h
  · exact (Option.some.inj h).symm

theorem applyLits_eq {b : ℕ → Option FTerm} (h : Bound b) (hc : ClauseOk P c)
    (happly : applyLits b rounds c = some r) : r = FolClause.inst (resolved h.acyclic) c := by
  refine mapM_eq_map (fun l hl l' hl' => ?_) happly
  obtain ⟨atom, hatom, hl'⟩ := Option.bind_eq_some_iff.mp hl'
  obtain rfl := Option.some.inj hl'
  rw [FolLit.map, thvmUnifyApply_found h (hc l hl).substitutable hatom]

theorem resolved_substitutable {b : ℕ → Option FTerm} (h : Bound b) (id : ℕ) :
    (resolved h.acyclic id).Substitutable := h.substitutable_inst (t := .fvr id) (.fvr id)

/-- The clause under the unifier of two terms, when it holds wherever the terms are made equal. -/
theorem unified_inst {s t : FTerm} {st : UnifyState} (hs : s.Substitutable) (ht : t.Substitutable)
    (hunify : thvmUnify rounds s t .empty = some (true, st)) (hc : ClauseOk P c)
    (hholds : ∀ σ, s.inst σ = t.inst σ → ∀ ρ, M.HoldsClause (M.under ρ σ) c) :
    ∃ h : Bound st.bindings, Good M P (FolClause.inst (resolved h.acyclic) c) := by
  obtain ⟨hbound, heq⟩ := thvmUnify_resolved hs ht hunify
  exact ⟨hbound, hc.good_inst (resolved_substitutable hbound) (hholds _ heq)⟩

theorem unified_good {s t : FTerm} {st : UnifyState} (hs : s.Substitutable) (ht : t.Substitutable)
    (hunify : thvmUnify rounds s t .empty = some (true, st)) (hc : ClauseOk P c)
    (hholds : ∀ σ, s.inst σ = t.inst σ → ∀ ρ, M.HoldsClause (M.under ρ σ) c)
    (happly : applyLits st.bindings rounds c = some r) : Good M P r := by
  obtain ⟨hbound, hgood⟩ := unified_inst hs ht hunify hc hholds
  rwa [applyLits_eq hbound hc happly]

/-! ## The rules -/

theorem ok_getElem (h : ClauseOk P c₁) (hl : c₁[i]? = some l) : LitOk P l :=
  h l (List.mem_of_getElem? hl)

theorem folRename_getElem (hl : c₁[i]? = some l) :
    (folRename c₁)[i]? = some (l.map (thvmRenameVars folRenameOffset)) := by
  rw [folRename, List.getElem?_map, hl, Option.map_some]

theorem folRename_eraseIdx (c : FolClause) (j : ℕ) :
    folRename (c.eraseIdx j) = (folRename c).eraseIdx j := List.eraseIdx_map .. |>.symm

theorem folResolve_good (h₁ : Good M P c₁) (h₂ : Good M P c₂)
    (h : folResolve rounds c₁ i c₂ j = some (some r)) : Good M P r := by
  unfold folResolve at h
  split at h
  · next l₁ l₂ hl₁ hl₂ =>
    split at h
    · cases h
    · next hsign =>
      obtain ⟨⟨ok, st⟩, hunify, h⟩ := Option.bind_eq_some_iff.mp h
      cases ok with
      | false => cases h
      | true =>
        obtain ⟨lits, happly, h⟩ := Option.bind_eq_some_iff.mp h
        obtain rfl := folClauseNew_some (Option.some.inj h)
        have hl₂' := folRename_getElem hl₂
        have hok₁ := ok_getElem h₁.ok hl₁
        have hok₂ := ok_getElem h₂.rename.ok hl₂'
        rw [folRename_eraseIdx] at happly
        refine unified_good hok₁.substitutable hok₂.substitutable hunify
          ((h₁.ok.sublist (List.eraseIdx_sublist ..)).append
            (h₂.rename.ok.sublist (List.eraseIdx_sublist ..))) (fun σ heq ρ => ?_) happly
        rw [Model.holdsClause_append]
        rcases holdsClause_eraseIdx hl₁ (h₁.holds (M.under ρ σ)) with hlit₁ | hrest
        · rcases holdsClause_eraseIdx hl₂' (h₂.rename.holds (M.under ρ σ)) with hlit₂ | hrest
          · -- the two literals are opposite under the unifier
            have hatom : M.HoldsAtom (M.under ρ σ) l₁.atom ↔
                M.HoldsAtom (M.under ρ σ) (thvmRenameVars folRenameOffset l₂.atom) := by
              rw [← holdsAtom_inst M ρ σ hok₁.head, heq]
              exact holdsAtom_inst M ρ σ hok₂.head
            unfold Model.HoldsLit at hlit₁ hlit₂
            rw [FolLit.map] at hlit₂
            rw [hatom] at hlit₁
            cases hs₁ : l₁.sign <;> cases hs₂ : l₂.sign <;> simp_all
          · exact .inr hrest
        · exact .inl hrest
  · cases h

theorem folFactor_good (hc : Good M P c) (h : folFactor rounds c i j = some (some r)) :
    Good M P r := by
  unfold folFactor at h
  split at h
  · next li lj hli hlj =>
    split at h
    · cases h
    · next hij =>
      split at h
      · cases h
      · next hsign =>
        obtain ⟨⟨ok, st⟩, hunify, h⟩ := Option.bind_eq_some_iff.mp h
        cases ok with
        | false => cases h
        | true =>
          obtain ⟨lits, happly, h⟩ := Option.bind_eq_some_iff.mp h
          obtain rfl := folClauseNew_some (Option.some.inj h)
          have hoki := ok_getElem hc.ok hli
          have hokj := ok_getElem hc.ok hlj
          refine unified_good hoki.substitutable hokj.substitutable hunify
            (hc.ok.sublist (List.eraseIdx_sublist ..)) (fun σ heq ρ => ?_) happly
          rcases holdsClause_eraseIdx hlj (hc.holds (M.under ρ σ)) with hlit | hrest
          · refine ⟨li, List.mem_eraseIdx_iff_getElem?.mpr ⟨i, hij, hli⟩, ?_⟩
            have hatom : M.HoldsAtom (M.under ρ σ) li.atom ↔ M.HoldsAtom (M.under ρ σ) lj.atom := by
              rw [← holdsAtom_inst M ρ σ hoki.head, heq]
              exact holdsAtom_inst M ρ σ hokj.head
            unfold Model.HoldsLit at hlit ⊢
            rwa [hatom, Decidable.not_not.mp hsign]
          · exact hrest
  · cases h

theorem substitutable_sides {s t : FTerm} (h : (FTerm.ctr labEq [s, t]).Substitutable) :
    s.Substitutable ∧ t.Substitutable := ⟨h.arg (by simp), h.arg (by simp)⟩

theorem folReflexResolve_good (hc : Good M P c) (h : folReflexResolve rounds c i = some (some r)) :
    Good M P r := by
  unfold folReflexResolve at h
  split at h
  · cases h
  · next l hl =>
    split at h
    · cases h
    · next hsign =>
      split at h
      · cases h
      · next s t hsides =>
        obtain ⟨⟨ok, st⟩, hunify, h⟩ := Option.bind_eq_some_iff.mp h
        cases ok with
        | false => cases h
        | true =>
          obtain ⟨lits, happly, h⟩ := Option.bind_eq_some_iff.mp h
          obtain rfl := folClauseNew_some (Option.some.inj h)
          have hatom := eqSides_some hsides
          have hsub := substitutable_sides (hatom ▸ (ok_getElem hc.ok hl).substitutable)
          refine unified_good hsub.1 hsub.2 hunify (hc.ok.sublist (List.eraseIdx_sublist ..))
            (fun σ heq ρ => ?_) happly
          refine (holdsClause_eraseIdx hl (hc.holds (M.under ρ σ))).resolve_left fun hlit => ?_
          have hneg : ¬M.HoldsAtom (M.under ρ σ) l.atom := by
            unfold Model.HoldsLit at hlit
            rwa [if_pos (by simpa using hsign)] at hlit
          rw [hatom, holdsAtom_eq] at hneg
          apply hneg
          rw [value_under, value_under, heq]

/-- A negative equality needs nothing of its sides. -/
theorem litOk_ne {s t : FTerm} (heq : P labEq 2) (hs : s.Substitutable) (ht : t.Substitutable) :
    LitOk P ⟨.ctr labEq [s, t], true⟩ where
  head := heq
  sides := fun _ _ h => nomatch h
  substitutable := .ctr (by simp [rewriteMaxArity]) (by simp [hs, ht])

theorem folEqFactor_good (hc : Good M P c) (h : folEqFactor rounds c i j = some (some r)) :
    Good M P r := by
  unfold folEqFactor at h
  split at h
  · next s₁ t₁ s₂ t₂ hi hj =>
    obtain ⟨li, hli, hi⟩ := Option.bind_eq_some_iff.mp hi
    obtain ⟨lj, hlj, hj⟩ := Option.bind_eq_some_iff.mp hj
    obtain rfl := posEqSides_some hi
    obtain rfl := posEqSides_some hj
    split at h
    · cases h
    · next hij =>
      obtain ⟨⟨ok, st⟩, hunify, h⟩ := Option.bind_eq_some_iff.mp h
      cases ok with
      | false => cases h
      | true =>
        obtain ⟨lits, happly, h⟩ := Option.bind_eq_some_iff.mp h
        obtain ⟨t₁', ht₁, h⟩ := Option.bind_eq_some_iff.mp h
        obtain ⟨t₂', ht₂, h⟩ := Option.bind_eq_some_iff.mp h
        obtain rfl := folClauseNew_some (Option.some.inj h)
        have hoki := ok_getElem hc.ok hli
        obtain ⟨hs₁, ht₁s⟩ := substitutable_sides hoki.substitutable
        obtain ⟨hs₂, ht₂s⟩ := substitutable_sides (ok_getElem hc.ok hlj).substitutable
        have hne : LitOk P ⟨.ctr labEq [t₁, t₂], true⟩ := litOk_ne hoki.head ht₁s ht₂s
        have hrest := hc.ok.sublist (List.eraseIdx_sublist c j)
        have hholds : ∀ σ : ℕ → FTerm, s₁.inst σ = s₂.inst σ → ∀ ρ : ℕ → D,
            M.HoldsClause (M.under ρ σ) (c.eraseIdx j ++ [⟨.ctr labEq [t₁, t₂], true⟩]) := by
          intro σ heq ρ
          rw [Model.holdsClause_append]
          rcases holdsClause_eraseIdx hlj (hc.holds (M.under ρ σ)) with hlit | hothers
          · -- either the two other sides differ, or the first equality holds with the second one
            by_cases hsides : M.value (M.under ρ σ) t₁ = M.value (M.under ρ σ) t₂
            · refine .inl ⟨_, List.mem_eraseIdx_iff_getElem?.mpr ⟨i, hij, hli⟩, ?_⟩
              rw [Model.holdsLit_pos, holdsAtom_eq] at hlit ⊢
              have hs : M.value (M.under ρ σ) s₁ = M.value (M.under ρ σ) s₂ := by
                rw [value_under, value_under, heq]
              rw [hs, hlit, hsides]
            · exact .inr ⟨_, List.mem_singleton_self _, fun h => hsides ((holdsAtom_eq M _ _ _).mp h)⟩
          · exact .inl hothers
        obtain ⟨hbound, hgood⟩ := unified_inst hs₁ hs₂ hunify
          (hrest.append (List.forall_mem_singleton.mpr hne)) hholds
        rw [applyLits_eq hbound hrest happly, thvmUnifyApply_found hbound ht₁s ht₁,
          thvmUnifyApply_found hbound ht₂s ht₂]
        rwa [FolClause.inst, List.map_append] at hgood
  · cases h

/-! ## Replacing equals -/

/-- A term in which `u` may have been replaced by `repl`. -/
structure Replaced (M : Model D) (u repl t t' : FTerm) : Prop where
  substitutable : t'.Substitutable
  value : ∀ ρ, M.value ρ u = M.value ρ repl → M.value ρ t' = M.value ρ t
  side : ∀ Q, SideOk Q repl → SideOk Q t → SideOk Q t'

variable {u repl : FTerm} {args args' : List FTerm} {label : ℕ} {path : List ℕ} {sign : Bool}

theorem Replaced.same (ht : t.Substitutable) : Replaced M u repl t t :=
  ⟨ht, fun _ _ => rfl, fun _ _ h => h⟩

theorem Replaced.whole (hrepl : repl.Substitutable) : Replaced M t repl t repl :=
  ⟨hrepl, fun _ h => h.symm, fun _ h _ => h⟩

theorem values_of_replaced (h : List.Forall₂ (Replaced M u repl) args args')
    (heq : M.value ρ u = M.value ρ repl) : args'.map (M.value ρ) = args.map (M.value ρ) := by
  induction h with
  | nil => rfl
  | cons hhead _ ih => rw [List.map_cons, List.map_cons, hhead.value ρ heq, ih]

/-- The new node below which arguments were replaced. -/
theorem Replaced.ctr (hargs : List.Forall₂ (Replaced M u repl) args args')
    (hsub : (FTerm.ctr label args').Substitutable) :
    Replaced M u repl (.ctr label args) (.ctr label args') where
  substitutable := hsub
  value := by
    intro ρ heq
    rw [Model.value_ctr, Model.value_ctr, values_of_replaced hargs heq]
  side := by
    intro Q _ h
    show ¬Q label args'.length
    rw [← hargs.length_eq]
    exact h

theorem substitutable_replaced (hlen : args.length ≤ rewriteMaxArity)
    (hargs : List.Forall₂ (Replaced M u repl) args args') : (FTerm.ctr label args').Substitutable := by
  refine .ctr (by rwa [← hargs.length_eq]) fun a' ha' => ?_
  obtain ⟨k, hk, rfl⟩ := List.mem_iff_getElem.mp ha'
  exact (hargs.get (by rwa [hargs.length_eq]) hk).substitutable

/-- Replaced equals below the predicate of a literal. -/
theorem LitOk.replaced (h : LitOk P ⟨.ctr label args, sign⟩)
    (hargs : List.Forall₂ (Replaced M u repl) args args')
    (hsub : (FTerm.ctr label args').Substitutable)
    (hrepl : SideOk P repl) : LitOk P ⟨.ctr label args', sign⟩ where
  head := by
    show P label args'.length
    rw [← hargs.length_eq]
    exact h.head
  sides := by
    intro s' t' hsides
    have heq := posEqSides_some hsides
    simp only [FolLit.mk.injEq, TermTree.node.injEq] at heq
    obtain ⟨⟨rfl, rfl⟩, rfl⟩ := heq
    obtain ⟨s, t, rfl, hs, ht⟩ : ∃ s t, args = [s, t] ∧ Replaced M u repl s s' ∧
        Replaced M u repl t t' := by
      cases hargs with
      | cons hs hrest =>
        cases hrest with
        | cons ht hnil =>
          cases hnil
          exact ⟨_, _, rfl, hs, ht⟩
    have hst := h.sides s t rfl
    exact ⟨hs.side _ hrepl hst.1, ht.side _ hrepl hst.2⟩
  substitutable := hsub

theorem holdsLit_replaced (hargs : List.Forall₂ (Replaced M u repl) args args')
    (heq : M.value ρ u = M.value ρ repl) :
    M.HoldsLit ρ ⟨.ctr label args', sign⟩ ↔ M.HoldsLit ρ ⟨.ctr label args, sign⟩ := by
  unfold Model.HoldsLit
  rw [Model.HoldsAtom, Model.HoldsAtom, values_of_replaced hargs heq]

/-! ## Paramodulation -/

/-- One level of the replacement; a node that is too wide is left as it is. -/
theorem cpReplaceAt_node {k : ℕ} (ht : (FTerm.ctr label args).Substitutable)
    (hu : cpSubtermAt (.ctr label args) (k :: path) = some u)
    (ih : ∀ a, a.Substitutable → cpSubtermAt a path = some u →
      Replaced M u repl a (cpReplaceAt a path repl)) :
    ∃ args', cpReplaceAt (.ctr label args) (k :: path) repl = .ctr label args' ∧
      List.Forall₂ (Replaced M u repl) args args' ∧ (FTerm.ctr label args').Substitutable := by
  rw [cpReplaceAt]
  rw [cpSubtermAt] at hu
  have hself : List.Forall₂ (Replaced M u repl) args args :=
    List.forall₂_same.mpr fun a ha => .same (ht.arg ha)
  split at hu
  · next hk =>
    split
    · exact ⟨args, rfl, hself, ht⟩
    · next hlen =>
      have hargs : List.Forall₂ (Replaced M u repl) args
          (args.modify k fun a => cpReplaceAt a path repl) := by
        refine List.forall₂_iff_get.mpr ⟨by rw [List.length_modify], fun n hn hn' => ?_⟩
        simp only [List.get_eq_getElem, List.getElem_modify]
        split
        · next heq =>
          subst heq
          exact ih _ (ht.arg (List.getElem_mem hn)) hu
        · exact .same (ht.arg (List.getElem_mem hn))
      exact ⟨_, rfl, hargs, substitutable_replaced (by omega) hargs⟩
  · cases hu

theorem cpReplaceAt_replaced (ht : t.Substitutable) (hrepl : repl.Substitutable)
    (hu : cpSubtermAt t path = some u) : Replaced M u repl t (cpReplaceAt t path repl) := by
  induction path generalizing t with
  | nil =>
    obtain rfl := Option.some.inj hu
    rw [cpReplaceAt]
    exact .whole hrepl
  | cons k path ih =>
    cases t with
    | leaf l => cases hu
    | node label args =>
      obtain ⟨args', heq, hargs, hsub⟩ := cpReplaceAt_node ht hu fun a ha hua => ih ha hua
      rw [heq]
      exact .ctr hargs hsub

theorem holdsClause_set {l' : FolLit} (hl : c₁[i]? = some l)
    (hiff : M.HoldsLit ρ l' ↔ M.HoldsLit ρ l) (h : M.HoldsClause ρ c₁) :
    M.HoldsClause ρ (c₁.set i l') := by
  obtain ⟨x, hx, hholds⟩ := h
  obtain ⟨k, hk⟩ := List.mem_iff_getElem?.mp hx
  have hlt : i < c₁.length := (List.getElem?_eq_some_iff.mp hl).1
  by_cases heq : i = k
  · subst heq
    rw [hl] at hk
    obtain rfl := Option.some.inj hk
    exact ⟨l', List.mem_iff_getElem?.mpr ⟨i, List.getElem?_set_self hlt⟩, hiff.mpr hholds⟩
  · exact ⟨x, List.mem_iff_getElem?.mpr ⟨k, (List.getElem?_set_ne heq).trans hk⟩, hholds⟩

theorem ClauseOk.set (h : ClauseOk P c) (hl : LitOk P l) : ClauseOk P (c.set i l) := by
  intro l' hl'
  rcases List.mem_or_eq_of_mem_set hl' with hmem | rfl
  · exact h l' hmem
  · exact hl

/-- A side of an equality cannot be unified with an atom. -/
theorem side_not_unified {s u : FTerm} {σ : ℕ → FTerm} (hs : SideOk P s) (hu : HeadIn P u) :
    s.inst σ ≠ u.inst σ := by
  intro heq
  cases u with
  | leaf l => exact hu
  | node g bs =>
    cases s with
    | leaf l =>
      cases l with
      | fvr id => exact hs
      | num dtype value =>
        rw [FTerm.inst_num, FTerm.inst_ctr] at heq
        cases heq
    | node f as =>
      simp only [FTerm.inst_ctr, TermTree.node.injEq] at heq
      have hlen : as.length = bs.length := by simpa using congrArg List.length heq.2
      exact hs (heq.1 ▸ hlen ▸ hu)

/-- An equality in one of its two orientations. -/
structure Oriented (P : ℕ → ℕ → Prop) (l : FolLit) (s t : FTerm) : Prop where
  left : SideOk P s
  right : SideOk P t
  substitutable : s.Substitutable ∧ t.Substitutable
  value : ∀ {D : Type} (M : Model D) (ρ : ℕ → D), M.HoldsLit ρ l → M.value ρ s = M.value ρ t

theorem oriented_swap {sides : FTerm × FTerm} (hl : LitOk P l) (hsides : posEqSides l = some sides)
    (swap : Bool) : Oriented P l (if swap then sides.2 else sides.1)
      (if swap then sides.1 else sides.2) := by
  obtain ⟨s, t⟩ := sides
  obtain ⟨hs, ht⟩ := hl.sides s t hsides
  obtain rfl := posEqSides_some hsides
  obtain ⟨hs', ht'⟩ := substitutable_sides hl.substitutable
  cases swap with
  | true => exact ⟨ht, hs, ⟨ht', hs'⟩, fun M ρ h => ((holdsAtom_eq M ρ s t).mp h).symm⟩
  | false => exact ⟨hs, ht, ⟨hs', ht'⟩, fun M ρ h => (holdsAtom_eq M ρ s t).mp h⟩

theorem cpSubtermAt_substitutable (ht : t.Substitutable) (hu : cpSubtermAt t path = some u) :
    u.Substitutable := by
  induction path generalizing t with
  | nil => exact Option.some.inj hu ▸ ht
  | cons k path ih =>
    cases t with
    | leaf l => cases hu
    | node label args =>
      rw [cpSubtermAt] at hu
      split at hu
      · exact ih (ht.arg (List.getElem_mem _)) hu
      · cases hu

/-- The clause before the unifier is applied. -/
theorem paramodulant_holds {le : FolLit} {s t : FTerm} {σ : ℕ → FTerm} (h₁ : Good M P c₁)
    (h₂ : Good M P c₂) (hle : c₁[i]? = some le) (hl : c₂[j]? = some l) (hst : Oriented P le s t)
    (hu : cpSubtermAt l.atom path = some u) (heq : s.inst σ = u.inst σ) :
    LitOk P ⟨cpReplaceAt l.atom path t, l.sign⟩ ∧ ∀ ρ, M.HoldsClause (M.under ρ σ)
      (c₁.eraseIdx i ++ c₂.set j ⟨cpReplaceAt l.atom path t, l.sign⟩) := by
  have hok := ok_getElem h₂.ok hl
  obtain ⟨atom, sign⟩ := l
  cases path with
  | nil =>
    obtain rfl := Option.some.inj hu
    exact absurd heq (side_not_unified hst.left hok.head)
  | cons k path =>
    cases atom with
    | leaf l => cases hu
    | node label args =>
      obtain ⟨args', hreplace, hargs, hsub⟩ := cpReplaceAt_node (M := M) hok.substitutable hu
        fun a ha hua => cpReplaceAt_replaced ha hst.substitutable.2 hua
      rw [hreplace]
      refine ⟨hok.replaced hargs hsub hst.right, fun ρ => ?_⟩
      rw [Model.holdsClause_append]
      rcases holdsClause_eraseIdx hle (h₁.holds (M.under ρ σ)) with hlit | hrest
      · have hvalue : M.value (M.under ρ σ) u = M.value (M.under ρ σ) t := by
          rw [← hst.value M _ hlit, value_under, value_under, heq]
        exact .inr (holdsClause_set hl (holdsLit_replaced hargs hvalue) (h₂.holds _))
      · exact .inl hrest

theorem folParamodulate_good {swap : Bool} (h₁ : Good M P c₁) (h₂ : Good M P c₂)
    (h : folParamodulate rounds c₁ i swap c₂ j path = some (some r)) : Good M P r := by
  unfold folParamodulate at h
  split at h
  · next sides l hsides hl =>
    obtain ⟨le, hle, hsides⟩ := Option.bind_eq_some_iff.mp hsides
    have hst := oriented_swap (ok_getElem h₁.ok hle) hsides swap
    have hl' := folRename_getElem hl
    dsimp only at h
    split at h
    · cases h
    · cases h
    · next u _ hu =>
      obtain ⟨⟨ok, st⟩, hunify, h⟩ := Option.bind_eq_some_iff.mp h
      cases ok with
      | false => cases h
      | true =>
        obtain ⟨lits, happly, h⟩ := Option.bind_eq_some_iff.mp h
        obtain rfl := folClauseNew_some (Option.some.inj h)
        have hus := cpSubtermAt_substitutable (ok_getElem h₂.rename.ok hl').substitutable hu
        have hholds := fun σ heq => paramodulant_holds (σ := σ) h₁ h₂.rename hle hl' hst hu heq
        obtain ⟨hbound, heq⟩ := thvmUnify_resolved hst.substitutable.1 hus hunify
        exact unified_good hst.substitutable.1 hus hunify
          ((h₁.ok.sublist (List.eraseIdx_sublist ..)).append (h₂.rename.ok.set (hholds _ heq).1))
          (fun σ heq => (hholds σ heq).2) happly
  · cases h

/-! ## Demodulation -/

end Fol

end Thvm
