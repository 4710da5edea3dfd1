import Mathlib.Logic.Relation
import Thvm.ClauseInferenceSpec
import Thvm.Saturation

/-!
# Saturation is sound

All clauses that are kept hold in every model of the input. This needs predicates and
functions apart: an equation whose side is a variable rewrites whole literals.
-/

namespace Thvm.Fol

variable {D : Type} {M : Model D} {P : ℕ → ℕ → Prop} {ρ : ℕ → D} {w : CnfWorld}
  {c d eqClause target : FolClause} {t lhs rhs : FTerm} {args : List FTerm}
  {asked asked' : ℕ}

/-! ## Demodulation -/

/-- An equation that can be used as a rewrite rule. -/
structure Rule (M : Model D) (P : ℕ → ℕ → Prop) (lhs rhs : FTerm) : Prop where
  left : SideOk P lhs
  right : SideOk P rhs
  substitutable : rhs.Substitutable
  value : ∀ ρ, M.value ρ lhs = M.value ρ rhs

theorem term_cnfReplaced (w : CnfWorld) (term subRhs : FTerm) (asked : ℕ) :
    (cnfReplaced w term subRhs asked).term = subRhs := by
  unfold cnfReplaced
  split <;> rfl

/-- What a step at the root puts there. -/
theorem cnfRewriteRoot_some {x : Rewritten} (ht : t.Substitutable) (hrhs : rhs.Substitutable)
    (h : (cnfRewriteRoot w lhs rhs t asked).1 = some x) :
    ∃ σ, lhs.inst σ = t ∧ x.term = rhs.inst σ ∧ ∀ id, (σ id).Substitutable := by
  unfold cnfRewriteRoot at h
  cases hmatch : thvmMatch lhs t fun _ => none with
  | mk ok b =>
    rw [hmatch] at h
    cases ok with
    | false => cases h
    | true =>
      obtain ⟨σ, hlhs, happly, hσ⟩ := thvmMatch_apply hrhs ht hmatch
      refine ⟨σ, hlhs, ?_, hσ⟩
      rw [← happly]
      simp only [Bool.not_true, Bool.false_eq_true, if_false] at h
      split at h
      · obtain rfl := Option.some.inj h
        exact term_cnfReplaced ..
      · split at h
        · obtain rfl := Option.some.inj h
          exact term_cnfReplaced ..
        · cases h

theorem Rule.root {x : Rewritten} (hrule : Rule M P lhs rhs) (ht : t.Substitutable)
    (h : (cnfRewriteRoot w lhs rhs t asked).1 = some x) : Replaced M rhs rhs t x.term := by
  obtain ⟨σ, rfl, hterm, hσ⟩ := cnfRewriteRoot_some ht hrule.substitutable h
  rw [hterm]
  refine ⟨hrule.substitutable.inst hσ, fun ρ _ => ?_, fun Q hQ _ => hQ.inst⟩
  rw [← value_under, ← value_under, hrule.value]

theorem side_disjoint (h : SideOk P t) (h' : HeadIn P t) : False := by
  cases t with
  | leaf l => exact h'
  | node label args => exact h h'

/-- The predicate level is not rewritten. -/
theorem Rule.root_none (hrule : Rule M P lhs rhs) (ht : t.Substitutable) (hhead : HeadIn P t)
    (asked : ℕ) : (cnfRewriteRoot w lhs rhs t asked).1 = none := by
  rw [Option.eq_none_iff_forall_ne_some]
  intro x hx
  obtain ⟨σ, rfl, -, -⟩ := cnfRewriteRoot_some ht hrule.substitutable hx
  exact side_disjoint hrule.left.inst hhead

theorem Rule.kids (ihargs : ∀ a ∈ args, ∀ asked, Replaced M rhs rhs a (cnfRewriteOnce w lhs rhs a asked).term)
    (asked : ℕ) : List.Forall₂ (Replaced M rhs rhs) args (cnfRewriteKids w lhs rhs args asked).1 := by
  induction args generalizing asked with
  | nil => exact .nil
  | cons a as ih =>
    rw [cnfRewriteKids]
    exact .cons (ihargs a List.mem_cons_self asked) (ih (fun a ha => ihargs a (List.mem_cons_of_mem _ ha)) _)

/-- A node in which no step at the root is made. -/
theorem Rule.node {label : ℕ} {args : List FTerm} (ht : (FTerm.ctr label args).Substitutable)
    (hkids : ∀ a ∈ args, ∀ asked, Replaced M rhs rhs a (cnfRewriteOnce w lhs rhs a asked).term)
    (hroot : (cnfRewriteRoot w lhs rhs (.ctr label args) asked).1 = none) :
    ∃ args', (cnfRewriteOnce w lhs rhs (.ctr label args) asked).term = .ctr label args' ∧
      List.Forall₂ (Replaced M rhs rhs) args args' ∧ (FTerm.ctr label args').Substitutable := by
  have hself : List.Forall₂ (Replaced M rhs rhs) args args :=
    List.forall₂_same.mpr fun a ha => .same (ht.arg ha)
  rw [cnfRewriteOnce]
  cases hpair : cnfRewriteRoot w lhs rhs (.ctr label args) asked with
  | mk root asked' =>
    rw [hpair] at hroot
    obtain rfl := hroot
    dsimp only
    split
    · exact ⟨args, rfl, hself, ht⟩
    · next hlen =>
      have hargs := Rule.kids hkids asked'
      split
      · exact ⟨_, rfl, hargs, substitutable_replaced (by omega) hargs⟩
      · exact ⟨args, rfl, hself, ht⟩

theorem Rule.once (hrule : Rule M P lhs rhs) (ht : t.Substitutable) (asked : ℕ) :
    Replaced M rhs rhs t (cnfRewriteOnce w lhs rhs t asked).term := by
  induction t using TermTree.induct generalizing asked with
  | leaf l =>
    rw [cnfRewriteOnce]
    cases hpair : cnfRewriteRoot w lhs rhs (.leaf l) asked with
    | mk root asked' =>
      cases root with
      | none => exact .same ht
      | some x => exact hrule.root ht (congrArg Prod.fst hpair)
  | node label args ih =>
    cases hpair : (cnfRewriteRoot w lhs rhs (.node label args) asked).1 with
    | none =>
      obtain ⟨args', heq, hargs, hsub⟩ := Rule.node ht (fun a ha asked => ih a ha (ht.arg ha) asked) hpair
      rw [heq]
      exact .ctr hargs hsub
    | some x =>
      have hx := hrule.root ht hpair
      rw [cnfRewriteOnce]
      split
      · next root _ heq =>
        rw [heq] at hpair
        obtain rfl := Option.some.inj hpair
        exact hx
      · next heq =>
        rw [heq] at hpair
        cases hpair

/-- A literal whose terms are rewritten. -/
theorem Rule.lit {l : FolLit} (hrule : Rule M P lhs rhs) (hl : LitOk P l) (asked : ℕ) :
    LitOk P ⟨(cnfRewriteOnce w lhs rhs l.atom asked).term, l.sign⟩ ∧ ∀ ρ,
      (M.HoldsLit ρ ⟨(cnfRewriteOnce w lhs rhs l.atom asked).term, l.sign⟩ ↔ M.HoldsLit ρ l) := by
  obtain ⟨atom, sign⟩ := l
  cases atom with
  | leaf l => exact hl.head.elim
  | node label args =>
    obtain ⟨args', heq, hargs, hsub⟩ := Rule.node hl.substitutable
      (fun a ha asked => hrule.once (hl.substitutable.arg ha) asked)
      (hrule.root_none hl.substitutable hl.head asked)
    dsimp only
    rw [heq]
    exact ⟨hl.replaced hargs hsub hrule.right, fun ρ => holdsLit_replaced hargs rfl⟩

theorem Rule.lits (hrule : Rule M P lhs rhs) (hc : ClauseOk P c) (asked : ℕ) :
    ClauseOk P (cnfRewriteLits w lhs rhs c asked).1 ∧
      ∀ ρ, M.HoldsClause ρ (cnfRewriteLits w lhs rhs c asked).1 ↔ M.HoldsClause ρ c := by
  induction c generalizing asked with
  | nil => exact ⟨hc, fun ρ => Iff.rfl⟩
  | cons l c ih =>
    obtain ⟨hl, hrest⟩ := List.forall_mem_cons.mp hc
    obtain ⟨hok, hiff⟩ := hrule.lit hl asked
    obtain ⟨hoks, hiffs⟩ := ih hrest (cnfRewriteOnce w lhs rhs l.atom asked).asked
    rw [cnfRewriteLits]
    refine ⟨List.forall_mem_cons.mpr ⟨hok, hoks⟩, fun ρ => ?_⟩
    rw [Model.holdsClause_cons, Model.holdsClause_cons]
    exact or_congr (hiff ρ) (hiffs ρ)

theorem unitEqSides_some {s t : FTerm} (h : unitEqSides c = some (s, t)) :
    c = [⟨.ctr labEq [s, t], false⟩] := by
  unfold unitEqSides at h
  split at h
  · rw [posEqSides_some h]
  · cases h

theorem Good.rule {s t : FTerm} (h : Good M P c) (hsides : unitEqSides c = some (s, t)) :
    Rule M P (thvmRenameVars folRenameOffset s) (thvmRenameVars folRenameOffset t) := by
  have hc := unitEqSides_some hsides
  have hl : LitOk P ⟨.ctr labEq [s, t], false⟩ := h.ok _ (hc ▸ List.mem_singleton_self _)
  obtain ⟨hs, ht⟩ := hl.sides s t rfl
  obtain ⟨hss, hts⟩ := substitutable_sides hl.substitutable
  have hvalue : ∀ ρ, M.value ρ s = M.value ρ t := by
    intro ρ
    obtain ⟨l, hmem, hlit⟩ := h.holds ρ
    rw [hc, List.mem_singleton] at hmem
    subst hmem
    exact (holdsAtom_eq M ρ s t).mp hlit
  rw [thvmRenameVars_inst _ hss, thvmRenameVars_inst _ hts]
  refine ⟨hs.inst, ht.inst, hts.inst fun id => .fvr _, fun ρ => ?_⟩
  rw [← value_under, ← value_under, hvalue]

theorem cnfDemodulateOrdered_good (heq : Good M P eqClause) (hc : Good M P target)
    (h : (cnfDemodulateOrdered w eqClause target asked).1 = some d) : Good M P d := by
  unfold cnfDemodulateOrdered at h
  split at h
  · cases h
  · next s t hsides =>
    dsimp only at h
    split at h
    · obtain rfl := folClauseNew_some h
      obtain ⟨hok, hiff⟩ := (heq.rule hsides).lits (w := w) hc.ok asked
      exact ⟨hok, fun ρ => (hiff ρ).mpr (hc.holds ρ)⟩
    · cases h

/-! ## The store -/

variable {s s' : CnfState} {id newId rounds steps : ℕ}

/-- What holds of the store between any two operations. -/
structure Kept (M : Model D) (P : ℕ → ℕ → Prop) (s : CnfState) : Prop where
  stored : ∀ c, some c ∈ s.clauses → Good M P c
  proved : s.status = .proved → ∀ ρ, M.HoldsClause ρ []

theorem mem_of_clause (h : s.clause id = some c) : some c ∈ s.clauses := by
  unfold CnfState.clause at h
  exact List.mem_of_getElem? (Option.join_eq_some_iff.mp h)

theorem Kept.clause (h : Kept M P s) (hid : s.clause id = some c) : Good M P c :=
  h.stored c (mem_of_clause hid)

/-- A change of the counters or the queues. -/
theorem Kept.congr (h : Kept M P s) (hclauses : s'.clauses = s.clauses) (hstatus : s'.status = s.status) :
    Kept M P s' := by
  refine ⟨fun c hc => h.stored c (hclauses ▸ hc), fun hp => h.proved (hstatus ▸ hp)⟩

theorem Kept.drop (h : Kept M P s) (id : ℕ) : Kept M P (s.drop id) where
  stored := fun c hc => h.stored c ((List.mem_or_eq_of_mem_set hc).resolve_right nofun)
  proved := h.proved

theorem Kept.add (h : Kept M P s) (hc : Good M P c) : Kept M P (cnfAddClause s c) where
  stored := by
    intro c' hc'
    rcases List.mem_append.mp hc' with hold | hnew
    · exact h.stored c' hold
    · obtain rfl := Option.some.inj (List.mem_singleton.mp hnew)
      exact hc
  proved := h.proved

/-- The empty clause ends the run. -/
theorem Kept.prove (h : Kept M P s) (hc : Good M P c) (hempty : c.isEmpty = true) :
    Kept M P { cnfAddClause s c with status := .proved } where
  stored := (h.add hc).stored
  proved := fun _ ρ => by
    have := hc.holds ρ
    rwa [List.isEmpty_iff.mp hempty] at this

theorem cnfForwardPass_good (h : Kept M P s) (hc : Good M P c) {ids : List ℕ}
    (hd : (cnfForwardPass w s c ids asked).1 = some d) : Good M P d := by
  induction ids generalizing asked with
  | nil => cases hd
  | cons id ids ih =>
    rw [cnfForwardPass] at hd
    split at hd
    · exact ih hd
    · next rule hrule =>
      split at hd
      · next d' asked' heq =>
        obtain rfl := Option.some.inj hd
        exact cnfDemodulateOrdered_good (h.clause hrule) hc (congrArg Prod.fst heq)
      · exact ih hd

theorem cnfForwardDemod_good (h : Kept M P s) (hc : Good M P c) (budget asked : ℕ) :
    Good M P (cnfForwardDemod w s budget c asked).1 := by
  induction budget generalizing c asked with
  | zero => exact hc
  | succ budget ih =>
    rw [cnfForwardDemod]
    split
    · next d asked' heq => exact ih (cnfForwardPass_good h hc (congrArg Prod.fst heq)) _
    · exact hc

theorem Kept.backwardSubsume (h : Kept M P s) (newId : ℕ) : Kept M P (cnfBackwardSubsume s newId) := by
  unfold cnfBackwardSubsume
  split
  · exact h
  · refine ⟨fun c hc => ?_, h.proved⟩
    obtain ⟨i, hi, heq⟩ := List.mem_mapIdx.mp hc
    split at heq
    · cases heq
    · exact h.stored c (heq ▸ List.getElem_mem hi)

theorem Kept.backwardDemodAt (h : Kept M P s) {rule : FolClause} (hrule : Good M P rule) (i : ℕ) :
    Kept M P (cnfBackwardDemodAt w newId rule s i) := by
  unfold cnfBackwardDemodAt
  split
  · exact h
  · split
    · exact h
    · next old hold =>
      split
      · exact h.congr rfl rfl
      · next d asked' heq =>
        have hd := cnfDemodulateOrdered_good hrule (h.clause hold) (congrArg Prod.fst heq)
        have hs : Kept M P { s.drop i with asked := asked' } := (h.drop i).congr rfl rfl
        dsimp only
        split
        · next hempty => exact hs.prove hd hempty
        · split
          · exact hs
          · split
            · exact hs
            · exact hs.add hd

theorem Kept.backwardDemod (h : Kept M P s) (newId : ℕ) : Kept M P (cnfBackwardDemod w s newId) := by
  unfold cnfBackwardDemod
  split
  · exact h
  · next rule hrule =>
    have hgood := h.clause hrule
    split
    · exact h
    · clear hrule
      generalize List.range s.clauses.length = ids
      induction ids generalizing s with
      | nil => exact h
      | cons i ids ih => exact ih (h.backwardDemodAt hgood i)

theorem Kept.consider (h : Kept M P s) {c : Option FolClause} (hc : ∀ d, c = some d → Good M P d) :
    Kept M P (cnfConsider w s c) := by
  cases c with
  | none => exact h
  | some c =>
    rw [cnfConsider]
    split
    · exact h
    · have hd : Good M P (cnfForwardDemod w s cnfDemodBudget c s.asked).1 :=
        cnfForwardDemod_good h (hc c rfl) cnfDemodBudget s.asked
      have hs : Kept M P { s with asked := (cnfForwardDemod w s cnfDemodBudget c s.asked).2 } :=
        h.congr rfl rfl
      dsimp only
      split
      · next hempty => exact hs.prove hd hempty
      · split
        · exact hs
        · split
          · exact hs
          · exact ((hs.add hd).backwardSubsume _).backwardDemod _

/-! ## The loop -/

theorem Kept.considerEach {α : Type} {infer : α → Option (Option FolClause)} {l : List α}
    (h : Kept M P s) (hinfer : ∀ a c, infer a = some (some c) → Good M P c)
    (hrun : considerEach w infer l s = some s') : Kept M P s' := by
  induction l generalizing s with
  | nil =>
    obtain rfl := Option.some.inj hrun
    exact h
  | cons a l ih =>
    rw [Fol.considerEach] at hrun
    split at hrun
    · obtain rfl := Option.some.inj hrun
      exact h
    · obtain ⟨c, hc, hrun⟩ := Option.bind_eq_some_iff.mp hrun
      exact ih (h.consider fun d hd => hinfer a d (hd ▸ hc)) hrun

theorem Kept.genResolution (h : Kept M P s) {aId bId : ℕ}
    (hrun : cnfGenResolution w rounds aId bId s = some s') : Kept M P s' := by
  unfold cnfGenResolution at hrun
  split at hrun
  · next a b ha hb =>
    exact h.considerEach (fun p c hc => folResolve_good (h.clause ha) (h.clause hb) hc) hrun
  · obtain rfl := Option.some.inj hrun
    exact h

theorem Kept.genFactoring (h : Kept M P s) (hrun : cnfGenFactoring w rounds id s = some s') :
    Kept M P s' := by
  unfold cnfGenFactoring at hrun
  split at hrun
  · obtain rfl := Option.some.inj hrun
    exact h
  · next c hc => exact h.considerEach (fun p d hd => folFactor_good (h.clause hc) hd) hrun

theorem Kept.genReflex (h : Kept M P s) (hrun : cnfGenReflex w rounds id s = some s') :
    Kept M P s' := by
  unfold cnfGenReflex at hrun
  split at hrun
  · obtain rfl := Option.some.inj hrun
    exact h
  · next c hc => exact h.considerEach (fun i d hd => folReflexResolve_good (h.clause hc) hd) hrun

theorem Kept.genEqFactoring (h : Kept M P s) (hrun : cnfGenEqFactoring w rounds id s = some s') :
    Kept M P s' := by
  unfold cnfGenEqFactoring at hrun
  split at hrun
  · obtain rfl := Option.some.inj hrun
    exact h
  · next c hc => exact h.considerEach (fun p d hd => folEqFactor_good (h.clause hc) hd) hrun

theorem Kept.genParamod (h : Kept M P s) {eqId targetId : ℕ}
    (hrun : cnfGenParamod w rounds eqId targetId s = some s') : Kept M P s' := by
  unfold cnfGenParamod at hrun
  split at hrun
  · next eqc tgt heqc htgt =>
    exact h.considerEach (fun x c hc => folParamodulate_good (h.clause heqc) (h.clause htgt) hc) hrun
  · obtain rfl := Option.some.inj hrun
    exact h

theorem Kept.self (h : Kept M P s) {given : ℕ} (hrun : cnfSelf w rounds given s = some s') :
    Kept M P s' := by
  obtain ⟨s₁, h₁, hrun⟩ := Option.bind_eq_some_iff.mp hrun
  obtain ⟨s₂, h₂, hrun⟩ := Option.bind_eq_some_iff.mp hrun
  obtain ⟨s₃, h₃, hrun⟩ := Option.bind_eq_some_iff.mp hrun
  exact (((h.genFactoring h₁).genReflex h₂).genEqFactoring h₃).genParamod hrun

theorem Kept.cross (h : Kept M P s) {given aId : ℕ} (hrun : cnfCross w rounds given s aId = some s') :
    Kept M P s' := by
  unfold cnfCross at hrun
  split at hrun
  · obtain rfl := Option.some.inj hrun
    exact h
  · split at hrun
    · obtain rfl := Option.some.inj hrun
      exact h
    · obtain ⟨s₁, h₁, hrun⟩ := Option.bind_eq_some_iff.mp hrun
      obtain ⟨s₂, h₂, hrun⟩ := Option.bind_eq_some_iff.mp hrun
      obtain ⟨s₃, h₃, hrun⟩ := Option.bind_eq_some_iff.mp hrun
      exact (((h.genResolution h₁).genResolution h₂).genParamod h₃).genParamod hrun

theorem Kept.crossAll (h : Kept M P s) {given : ℕ} {ids : List ℕ}
    (hrun : ids.foldlM (cnfCross w rounds given) s = some s') : Kept M P s' := by
  induction ids generalizing s with
  | nil =>
    obtain rfl := Option.some.inj hrun
    exact h
  | cons id ids ih =>
    rw [List.foldlM_cons] at hrun
    obtain ⟨s₁, h₁, hrun⟩ := Option.bind_eq_some_iff.mp hrun
    exact ih (h.cross h₁) hrun

/-- One given clause. -/
theorem Kept.step (h : Kept M P s) (hstep : cnfStep w rounds s = some s') : Kept M P s' := by
  unfold cnfStep at hstep
  split at hstep
  · obtain rfl := Option.some.inj hstep
    exact h
  · split at hstep
    · obtain rfl := Option.some.inj hstep
      exact ⟨h.stored, nofun⟩
    · split at hstep
      · obtain rfl := Option.some.inj hstep
        exact ⟨h.stored, nofun⟩
      · next given head _ =>
        obtain ⟨s₁, h₁, hstep⟩ := Option.bind_eq_some_iff.mp hstep
        have hs : Kept M P { s with passiveHead := head, active := s.active ++ [given] } :=
          h.congr rfl rfl
        have hs₁ := hs.self h₁
        split at hstep
        · obtain rfl := Option.some.inj hstep
          exact hs₁
        · split at hstep
          · obtain rfl := Option.some.inj hstep
            exact hs₁.congr rfl rfl
          · obtain ⟨s₂, h₂, hstep⟩ := Option.bind_eq_some_iff.mp hstep
            have hs₂ := hs₁.crossAll h₂
            split at hstep
            · obtain rfl := Option.some.inj hstep
              exact hs₂
            · obtain rfl := Option.some.inj hstep
              exact hs₂.congr rfl rfl

/-- The states that the loop can come to. -/
def CnfReaches (w : CnfWorld) (rounds : ℕ) : CnfState → CnfState → Prop :=
  Relation.ReflTransGen fun s s' => cnfStep w rounds s = some s'

theorem Kept.reaches (h : Kept M P s) (hrun : CnfReaches w rounds s s') : Kept M P s' := by
  induction hrun with
  | refl => exact h
  | tail _ hstep ih => exact ih.step hstep

theorem cnfRun_reaches (hrun : cnfRun w rounds steps s = some s') : CnfReaches w rounds s s' := by
  induction steps generalizing s with
  | zero => cases hrun
  | succ steps ih =>
    rw [cnfRun] at hrun
    split at hrun
    · obtain rfl := Option.some.inj hrun
      exact .refl
    · obtain ⟨s₁, h₁, hrun⟩ := Option.bind_eq_some_iff.mp hrun
      exact .head h₁ (ih hrun)

theorem Kept.start {cs : List FolClause} (hcs : ∀ c ∈ cs, Good M P c) (stepCap : ℕ)
    (select : CnfSelection) : Kept M P (cnfStart stepCap select cs) := by
  have hinit : Kept M P (cnfInit stepCap select) := ⟨nofun, nofun⟩
  unfold cnfStart
  generalize cnfInit stepCap select = s at hinit
  induction cs generalizing s with
  | nil => exact hinit
  | cons c cs ih =>
    obtain ⟨hc, hrest⟩ := List.forall_mem_cons.mp hcs
    exact ih hrest _ (hinit.add hc)

/-! ## Soundness -/

/-- A symbol, with its arity, at the head of a literal. -/
def IsPredicate (cs : List FolClause) (label n : ℕ) : Prop :=
  ∃ c ∈ cs, ∃ l ∈ c, HeadIn (fun label' n' => label' = label ∧ n' = n) l.atom

/-- Predicates and functions are apart, and substitutions reach all variables. -/
def Apart (cs : List FolClause) : Prop := ∀ c ∈ cs, ClauseOk (IsPredicate cs) c

/-- The clause holds in all models of the other ones. -/
def Entails (cs : List FolClause) (c : FolClause) : Prop :=
  ∀ (D : Type) (M : Model D), (∀ ρ, M.HoldsClauses ρ cs) → ∀ ρ, M.HoldsClause ρ c

theorem entails_of_kept {cs : List FolClause} (h : ∀ (D : Type) (M : Model D),
    (∀ ρ, M.HoldsClauses ρ cs) → Kept M P s) :
    (∀ c, some c ∈ s.clauses → Entails cs c) ∧ (s.status = .proved → ¬Satisfiable cs) := by
  constructor
  · intro c hc D M hM ρ
    exact ((h D M hM).stored c hc).holds ρ
  · rintro hproved ⟨D, M, hM⟩
    exact Model.holdsClause_nil ((h D M hM).proved hproved fun _ => M.num 0 0)

/-- In every run on such clauses all clauses of the store follow from the input, and the
prover stops with a proof only if the input has no model. -/
theorem cnfRun_sound (cs : List FolClause) (hcs : Apart cs) (w : CnfWorld) (rounds stepCap : ℕ)
    (select : CnfSelection) :
    (∀ s, CnfReaches w rounds (cnfStart stepCap select cs) s →
      (∀ c, some c ∈ s.clauses → Entails cs c) ∧ (s.status = .proved → ¬Satisfiable cs)) ∧
    ∀ steps s, cnfRun w rounds steps (cnfStart stepCap select cs) = some s →
      (∀ c, some c ∈ s.clauses → Entails cs c) ∧ (s.status = .proved → ¬Satisfiable cs) := by
  have hreach : ∀ s, CnfReaches w rounds (cnfStart stepCap select cs) s →
      (∀ c, some c ∈ s.clauses → Entails cs c) ∧ (s.status = .proved → ¬Satisfiable cs) := by
    intro s hs
    apply entails_of_kept (P := IsPredicate cs)
    intro D M hM
    exact (Kept.start (fun c hc => ⟨hcs c hc, fun ρ => hM ρ c hc⟩) stepCap select).reaches hs
  exact ⟨hreach, fun steps s hs => hreach s (cnfRun_reaches hs)⟩

/-- No ordering, and the words of equal terms are always the same. -/
def plainWorld : CnfWorld := ⟨none, fun _ => true⟩

/-- `P(x)` and the negation of `P(a)`. -/
def clashing : List FolClause := [[⟨.ctr 1 [.fvr 0], false⟩], [⟨.ctr 1 [.ctr 2 []], true⟩]]

theorem apart_clashing : Apart clashing := by
  intro c hc l hl
  have hsub : ∀ id, Leaf.fvr id ∉ (FTerm.ctr 1 [.ctr 2 []]).leaves := by simp
  have hpred : IsPredicate clashing 1 1 :=
    ⟨_, List.mem_cons_self, _, List.mem_singleton_self _, rfl, rfl⟩
  simp only [clashing, List.mem_cons, List.not_mem_nil, or_false] at hc
  rcases hc with rfl | rfl
  · obtain rfl := List.mem_singleton.mp hl
    refine ⟨hpred, fun s t h => ?_, .ctr (by simp [rewriteMaxArity]) (by simp [FTerm.Substitutable.fvr])⟩
    cases posEqSides_some h
  · obtain rfl := List.mem_singleton.mp hl
    refine ⟨hpred, fun s t h => ?_, .closed hsub⟩
    cases h

theorem cnfRun_sound_clashing :
    ((cnfRun plainWorld 8 3 (cnfStart 0 .none clashing)).map fun s => s.status) = some .proved ∧
      ¬Satisfiable clashing := by
  have hstatus : ((cnfRun plainWorld 8 3 (cnfStart 0 .none clashing)).map fun s => s.status) =
      some .proved := by decide +kernel
  refine ⟨hstatus, ?_⟩
  obtain ⟨s, hs, hproved⟩ := Option.map_eq_some_iff.mp hstatus
  exact ((cnfRun_sound clashing apart_clashing plainWorld 8 0 .none).2 3 s hs).2 hproved

/-- `x = a`, `P(b)` and the negation of `Q(c)`. -/
def everythingEqual : List FolClause :=
  [[⟨.ctr labEq [.fvr 0, .ctr 1 []], false⟩], [⟨.ctr 3 [.ctr 2 []], false⟩],
    [⟨.ctr 4 [.ctr 5 []], true⟩]]

/-- The equation rewrites the other two literals to `a`, although the clauses have a model
with one element. -/
theorem cnfRun_everythingEqual :
    ((cnfRun plainWorld 8 6 (cnfStart 0 .none everythingEqual)).map fun s => s.status) =
      some .proved ∧ Satisfiable everythingEqual := by
  constructor
  · decide +kernel
  · refine ⟨Unit, ⟨fun _ _ => (), fun label _ => label = 3, fun _ _ => ()⟩, fun ρ c hc => ?_⟩
    simp only [everythingEqual, List.mem_cons, List.not_mem_nil, or_false] at hc
    rcases hc with rfl | rfl | rfl
    · exact ⟨_, List.mem_singleton_self _, rfl⟩
    · exact ⟨_, List.mem_singleton_self _, rfl⟩
    · exact ⟨_, List.mem_singleton_self _, fun h : (4 : ℕ) = 3 => absurd h (by decide)⟩

end Thvm.Fol
