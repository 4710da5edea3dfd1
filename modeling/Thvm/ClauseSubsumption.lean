import Mathlib.Data.Fintype.Card
import Mathlib.Data.List.FinRange
import Thvm.ClauseInferenceSpec

/-!
# Subsumption of clauses

The matcher decides whether a pattern has a term as an instance, and the search over the
literals decides whether a clause subsumes another one. A number in a pattern has no case in the
matcher, and the renaming does not enter a node with more than `REWRITE_MAX_ARITY` arguments.
-/

namespace Thvm

open Unification

variable {b : ℕ → Option FTerm} {p t u : FTerm} {ps ts : List FTerm} {id : ℕ}
  {r r' : Bool × (ℕ → Option FTerm)}

/-! ## Matching is exact -/

/-- A term whose leaves are variables that have a slot in the bindings. -/
def FTerm.IsPattern (t : FTerm) : Prop := ∀ l ∈ t.leaves, ∃ id < rewriteMaxVar, l = .fvr id

instance (t : FTerm) : Decidable t.IsPattern :=
  decidable_of_iff (∀ l ∈ t.leaves, ∃ id ∈ FTerm.leafId l, id < rewriteMaxVar) (by
    refine forall₂_congr fun l _ => ?_
    cases l <;> simp [FTerm.leafId])

theorem FTerm.IsPattern.arg {label : ℕ} {args : List FTerm} (h : (FTerm.ctr label args).IsPattern)
    {a : FTerm} (ha : a ∈ args) : a.IsPattern :=
  fun l hl => h l (TermTree.mem_leaves_node.mpr ⟨a, ha, hl⟩)

/-- The substitution gives each bound variable its binding. -/
def Agrees (σ : ℕ → FTerm) (b : ℕ → Option FTerm) : Prop := ∀ id u, b id = some u → σ id = u

theorem exists_agrees (b : ℕ → Option FTerm) : ∃ σ, Agrees σ b := by
  refine ⟨fun id => (b id).getD (.fvr id), fun id u hid => ?_⟩
  show (b id).getD _ = u
  rw [hid, Option.getD_some]

theorem agrees_none (σ : ℕ → FTerm) : Agrees σ fun _ => none := fun _ _ h => nomatch h

theorem agrees_update {σ : ℕ → FTerm} (hid : b id = none) :
    Agrees σ (Function.update b id (some t)) ↔ Agrees σ b ∧ σ id = t := by
  constructor
  · intro h
    refine ⟨fun id' u hu => h id' u ?_, h id t (Function.update_self ..)⟩
    rwa [Function.update_of_ne]
    rintro rfl
    rw [hid] at hu
    cases hu
  · rintro ⟨h, hσ⟩ id' u hu
    by_cases heq : id' = id
    · subst heq
      rw [Function.update_self] at hu
      exact hσ.trans (Option.some.inj hu)
    · rw [Function.update_of_ne heq] at hu
      exact h id' u hu

/-- The result `r` of a match leaves the substitutions which agree with `b` and have `ts` as the
instances of `ps`. -/
def MatchDecides (b : ℕ → Option FTerm) (ps ts : List FTerm) (r : Bool × (ℕ → Option FTerm)) :
    Prop :=
  ∀ σ, r.1 = true ∧ Agrees σ r.2 ↔ Agrees σ b ∧ ps.map (FTerm.inst σ) = ts

theorem matchDecides_false (h : ∀ σ, Agrees σ b → ps.map (FTerm.inst σ) ≠ ts)
    (b' : ℕ → Option FTerm) : MatchDecides b ps ts (false, b') :=
  fun σ => iff_of_false (fun h' => nomatch h'.1) fun h' => h σ h'.1 h'.2

theorem MatchDecides.ctr (h : MatchDecides b ps ts r) (label : ℕ) :
    MatchDecides b [.ctr label ps] [.ctr label ts] r := by
  intro σ
  rw [h σ, List.map_singleton, FTerm.inst_ctr, List.singleton_inj, TermTree.node.injEq]
  exact and_congr_right fun _ => (and_iff_right rfl).symm

theorem MatchDecides.cons (h : MatchDecides b [p] [t] r) (hr : r.1 = true)
    (h' : MatchDecides r.2 ps ts r') : MatchDecides b (p :: ps) (t :: ts) r' := by
  intro σ
  have hhead := h σ
  rw [List.map_singleton, List.singleton_inj, and_iff_right hr] at hhead
  rw [h' σ, hhead, List.map_cons, List.cons.injEq, and_assoc]

theorem MatchDecides.cons_false (h : MatchDecides b [p] [t] r) (hr : r.1 = false)
    (b' : ℕ → Option FTerm) : MatchDecides b (p :: ps) (t :: ts) (false, b') := by
  refine matchDecides_false (fun σ hσ heq => ?_) b'
  rw [List.map_cons, List.cons.injEq] at heq
  have htrue := ((h σ).mpr ⟨hσ, List.singleton_inj.mpr heq.1⟩).1
  rw [hr] at htrue
  cases htrue

theorem thvmMatchArgs_decides (hlen : ps.length = ts.length)
    (ih : ∀ p ∈ ps, ∀ t b, MatchDecides b [p] [t] (thvmMatch p t b)) :
    MatchDecides b ps ts (thvmMatchArgs ps ts b) := by
  induction ps generalizing ts b with
  | nil =>
    obtain rfl := List.length_eq_zero_iff.mp hlen.symm
    exact fun σ => and_comm.trans (and_congr_right fun _ => iff_of_true rfl rfl)
  | cons p ps ihps =>
    cases ts with
    | nil => cases hlen
    | cons t ts =>
      have hhead := ih p List.mem_cons_self t b
      rw [thvmMatchArgs]
      cases hr : thvmMatch p t b with
      | mk ok b₁ =>
        rw [hr] at hhead
        cases ok with
        | false => exact hhead.cons_false rfl b₁
        | true =>
          exact hhead.cons rfl
            (ihps (Nat.succ.inj hlen) fun q hq => ih q (List.mem_cons_of_mem _ hq))

theorem thvmMatch_fvr_decides (hid : id < rewriteMaxVar) :
    MatchDecides b [.fvr id] [t] (thvmMatch (.fvr id) t b) := by
  intro σ
  rw [thvmMatch, if_neg (Nat.not_le.mpr hid), List.map_singleton, FTerm.inst_fvr,
    List.singleton_inj]
  cases hb : b id with
  | none => exact (and_iff_right rfl).trans (agrees_update hb)
  | some u =>
    show kboEq u t = true ∧ Agrees σ b ↔ _
    rw [kboEq_iff, and_comm]
    refine and_congr_right fun hσ => ?_
    rw [hσ id u hb]

/-- A match leaves just the substitutions that take the pattern to the term. -/
theorem thvmMatch_decides (hp : p.IsPattern) : MatchDecides b [p] [t] (thvmMatch p t b) := by
  induction p using TermTree.induct generalizing t b with
  | leaf l =>
    obtain ⟨id, hid, rfl⟩ := hp l (List.mem_singleton.mpr rfl)
    exact thvmMatch_fvr_decides hid
  | node f as ih =>
    cases t with
    | leaf l =>
      refine matchDecides_false (fun σ _ heq => ?_) b
      rw [List.map_singleton, FTerm.inst_ctr] at heq
      cases heq
    | node g bs =>
      rw [thvmMatch]
      have hargs (σ : ℕ → FTerm) (heq : [(FTerm.ctr f as)].map (FTerm.inst σ) = [.ctr g bs]) :
          f = g ∧ as.map (FTerm.inst σ) = bs := by
        rwa [List.map_singleton, FTerm.inst_ctr, List.singleton_inj, TermTree.node.injEq] at heq
      split
      · next hlabel =>
        exact matchDecides_false (fun σ _ heq => hlabel (hargs σ heq).1) b
      · next hlabel =>
        obtain rfl := Decidable.not_not.mp hlabel
        split
        · next hlen =>
          refine matchDecides_false (fun σ _ heq => hlen ?_) b
          rw [← (hargs σ heq).2, List.length_map]
        · next hlen =>
          exact (thvmMatchArgs_decides (Decidable.not_not.mp hlen)
            fun p hpas t b => ih p hpas (hp.arg hpas)).ctr f

namespace Fol

variable {c₁ c₂ : FolClause} {l l₂ : FolLit} {used : List Bool} {σ : ℕ → FTerm}

/-! ## The search over the literals -/

/-- The first clause has an instance whose literals are, each with its sign, at distinct places
of the second. -/
def Subsumes (c₁ c₂ : FolClause) : Prop :=
  ∃ σ : ℕ → FTerm, ∃ f : Fin c₁.length → Fin c₂.length, Function.Injective f ∧
    ∀ i, c₁[i].map (FTerm.inst σ) = c₂[f i]

/-- The instances of the literals are at unused places of the clause, no two at one. -/
def PlacedAt (c₂ : FolClause) (used : List Bool) (σ : ℕ → FTerm) (c₁ : FolClause)
    (places : List ℕ) : Prop :=
  places.Nodup ∧ (∀ j ∈ places, used[j]? = some false) ∧
    List.Forall₂ (fun l j => c₂[j]? = some (l.map (FTerm.inst σ))) c₁ places

theorem getElem?_set_unused {j j' : ℕ} :
    (used.set j true)[j']? = some false ↔ used[j']? = some false ∧ j' ≠ j := by
  rw [List.getElem?_set]
  by_cases heq : j = j'
  · subst heq
    rw [if_pos rfl]
    split
    · exact iff_of_false (fun h => nomatch h) fun h => h.2 rfl
    · exact iff_of_false (fun h => nomatch h) fun h => h.2 rfl
  · rw [if_neg heq]
    exact (and_iff_left (Ne.symm heq)).symm

theorem placedAt_nil {places : List ℕ} : PlacedAt c₂ used σ [] places ↔ places = [] := by
  constructor
  · rintro ⟨-, -, h⟩
    cases h
    rfl
  · rintro rfl
    exact ⟨List.nodup_nil, fun _ hj => (List.not_mem_nil hj).elim, .nil⟩

theorem placedAt_cons {j : ℕ} {places : List ℕ} :
    PlacedAt c₂ used σ (l :: c₁) (j :: places) ↔
      (used[j]? = some false ∧ c₂[j]? = some (l.map (FTerm.inst σ))) ∧
        PlacedAt c₂ (used.set j true) σ c₁ places := by
  unfold PlacedAt
  rw [List.nodup_cons, List.forall_mem_cons, List.forall₂_cons]
  constructor
  · rintro ⟨⟨hj, hnodup⟩, ⟨hused, hrest⟩, hl, hc⟩
    refine ⟨⟨hused, hl⟩, hnodup, fun j' hj' => ?_, hc⟩
    exact getElem?_set_unused.mpr ⟨hrest j' hj', fun heq => hj (heq ▸ hj')⟩
  · rintro ⟨⟨hused, hl⟩, hnodup, hrest, hc⟩
    have hrest j' hj' := getElem?_set_unused.mp (hrest j' hj')
    exact ⟨⟨fun hj => (hrest j hj).2 rfl, hnodup⟩, ⟨hused, fun j' hj' => (hrest j' hj').1⟩, hl, hc⟩

theorem map_inst_eq {l l₂ : FolLit} :
    l.map (FTerm.inst σ) = l₂ ↔ l₂.sign = l.sign ∧ [l.atom].map (FTerm.inst σ) = [l₂.atom] := by
  obtain ⟨atom, sign⟩ := l
  obtain ⟨atom₂, sign₂⟩ := l₂
  rw [List.map_singleton, List.singleton_inj, FolLit.map, FolLit.mk.injEq, and_comm]
  exact and_congr_left fun _ => eq_comm

/-- The search succeeds just when the rest of the clause can be placed. -/
theorem folSubsumeRec_iff (hc₁ : ∀ l ∈ c₁, l.atom.IsPattern) :
    folSubsumeRec c₂ c₁ used b = true ↔
      ∃ σ, Agrees σ b ∧ ∃ places, PlacedAt c₂ used σ c₁ places := by
  induction c₁ generalizing used b with
  | nil =>
    obtain ⟨σ, hσ⟩ := exists_agrees b
    exact iff_of_true rfl ⟨σ, hσ, [], placedAt_nil.mpr rfl⟩
  | cons l c₁ ih =>
    obtain ⟨hl, hc₁⟩ := List.forall_mem_cons.mp hc₁
    rw [folSubsumeRec, List.any_eq_true]
    constructor
    · rintro ⟨j, -, hj⟩
      split at hj
      · next l₂ hl₂ hused =>
        rw [Bool.and_eq_true, beq_iff_eq] at hj
        obtain ⟨hsign, hj⟩ := hj
        have hj := Bool.and_eq_true_iff.mp hj
        obtain ⟨σ, hσ, places, hplaces⟩ := (ih hc₁).mp hj.2
        obtain ⟨hb, heq⟩ := (thvmMatch_decides hl σ).mp ⟨hj.1, hσ⟩
        refine ⟨σ, hb, j :: places, placedAt_cons.mpr ⟨⟨hused, ?_⟩, hplaces⟩⟩
        rw [hl₂, map_inst_eq.mpr ⟨hsign, heq⟩]
      · cases hj
    · rintro ⟨σ, hσ, places, hplaces⟩
      cases places with
      | nil => cases hplaces.2.2
      | cons j places =>
        obtain ⟨⟨hused, hl₂⟩, hrest⟩ := placedAt_cons.mp hplaces
        obtain ⟨hsign, heq⟩ := map_inst_eq.mp (Eq.refl (l.map (FTerm.inst σ)))
        obtain ⟨hok, hb⟩ := (thvmMatch_decides hl σ).mpr ⟨hσ, heq⟩
        refine ⟨j, List.mem_range.mpr (List.getElem?_eq_some_iff.mp hl₂).1, ?_⟩
        rw [hl₂, hused]
        simp only [hsign, beq_self_eq_true, Bool.true_and, Bool.and_eq_true]
        exact ⟨hok, (ih hc₁).mpr ⟨σ, hb, places, hrest⟩⟩

/-! ## Places as a map -/

theorem forall₂_ofFn {f : Fin c₁.length → Fin c₂.length} :
    List.Forall₂ (fun l j => c₂[j]? = some (l.map (FTerm.inst σ))) c₁
      (List.ofFn fun i => (f i : ℕ)) ↔ ∀ i, c₁[i].map (FTerm.inst σ) = c₂[f i] := by
  rw [List.forall₂_iff_get, and_iff_right List.length_ofFn.symm]
  constructor
  · intro h i
    have hi := h i i.2 (by rw [List.length_ofFn]; exact i.2)
    rw [List.get_eq_getElem, List.getElem_ofFn, List.getElem?_eq_getElem (f _).2] at hi
    exact (Option.some.inj hi).symm
  · intro h i hi hi'
    rw [List.get_eq_getElem, List.getElem_ofFn, List.getElem?_eq_getElem (f _).2]
    exact congrArg some (h ⟨i, hi⟩).symm

theorem replicate_unused {n j : ℕ} : (List.replicate n false)[j]? = some false ↔ j < n := by
  rw [List.getElem?_replicate]
  split
  · next h => exact iff_of_true rfl h
  · next h => exact iff_of_false (fun h' => nomatch h') h

/-- When no place is used, the places are an injective map. -/
theorem exists_placedAt_iff : (∃ places, PlacedAt c₂ (List.replicate c₂.length false) σ c₁ places) ↔
    ∃ f : Fin c₁.length → Fin c₂.length, Function.Injective f ∧
      ∀ i, c₁[i].map (FTerm.inst σ) = c₂[f i] := by
  constructor
  · rintro ⟨places, hnodup, hused, hc⟩
    have hlen := hc.length_eq
    have hlt (i : Fin c₁.length) : places.get (i.cast hlen) < c₂.length :=
      replicate_unused.mp (hused _ (List.getElem_mem _))
    have hplaces : places = List.ofFn fun i : Fin c₁.length => (⟨_, hlt i⟩ : Fin c₂.length).val :=
      List.ext_getElem (by rw [List.length_ofFn, hlen]) fun i _ _ => by rw [List.getElem_ofFn]; rfl
    refine ⟨fun i => ⟨_, hlt i⟩, fun i i' heq => ?_, forall₂_ofFn.mp (hplaces ▸ hc)⟩
    exact Fin.ext ((hnodup.getElem_inj_iff).mp (Fin.mk.inj heq))
  · rintro ⟨f, hinj, hf⟩
    refine ⟨List.ofFn fun i => (f i : ℕ), ?_, fun j hj => ?_, forall₂_ofFn.mpr hf⟩
    · exact List.nodup_ofFn.mpr (Fin.val_injective.comp hinj)
    · obtain ⟨i, rfl⟩ := List.mem_ofFn.mp hj
      exact replicate_unused.mpr (f i).2

/-! ## Renaming the second clause -/

/-- The renaming taken back. -/
def unrenamedVar (id : ℕ) : FTerm := .fvr ((id + (2 ^ 18 - folRenameOffset)) % 2 ^ 18)

theorem rename_unrename (ht : t.Substitutable) (hvars : t.VarsBelow (2 ^ 18)) :
    (thvmRenameVars folRenameOffset t).inst unrenamedVar = t := by
  rw [thvmRenameVars_inst _ ht, FTerm.inst_inst]
  refine (FTerm.inst_congr fun id hid => ?_).trans (FTerm.inst_id t)
  have hlt := hvars id hid
  have hoff : folRenameOffset = 32 := rfl
  refine congrArg FTerm.fvr ?_
  rw [hoff]
  omega

theorem FolLit.map_inst_inst (l : FolLit) (σ τ : ℕ → FTerm) :
    (l.map (FTerm.inst σ)).map (FTerm.inst τ) = l.map (FTerm.inst fun id => (σ id).inst τ) :=
  congrArg (fun t => FolLit.mk t l.sign) (FTerm.inst_inst σ τ l.atom)

theorem PlacedAt.imp {c₂' : FolClause} {τ : ℕ → FTerm} {places : List ℕ}
    (h : PlacedAt c₂ used σ c₁ places)
    (hc : ∀ (j : ℕ) (l : FolLit), c₂[j]? = some (l.map (FTerm.inst σ)) →
      c₂'[j]? = some (l.map (FTerm.inst τ))) :
    PlacedAt c₂' used τ c₁ places :=
  ⟨h.1, h.2.1, h.2.2.imp fun l j => hc j l⟩

/-- The renaming of the second clause takes one substitution to another. -/
theorem folRename_placedAt (hc₂ : ∀ l ∈ c₂, l.atom.Substitutable ∧ l.atom.VarsBelow (2 ^ 18)) :
    (∃ σ places, PlacedAt (folRename c₂) used σ c₁ places) ↔
      ∃ σ places, PlacedAt c₂ used σ c₁ places := by
  constructor
  · rintro ⟨σ, places, h⟩
    refine ⟨fun id => (σ id).inst unrenamedVar, places, h.imp fun j l hl => ?_⟩
    rw [folRename, List.getElem?_map, Option.map_eq_some_iff] at hl
    obtain ⟨l₂, hl₂, heq⟩ := hl
    obtain ⟨hsub, hvars⟩ := hc₂ l₂ (List.mem_of_getElem? hl₂)
    rw [hl₂, ← FolLit.map_inst_inst, ← heq]
    exact congrArg (fun t => some (FolLit.mk t l₂.sign)) (rename_unrename hsub hvars).symm
  · rintro ⟨σ, places, h⟩
    refine ⟨fun id => (σ id).inst (renamedVar folRenameOffset), places, h.imp fun j l hl => ?_⟩
    obtain ⟨hsub, -⟩ := hc₂ _ (List.mem_of_getElem? hl)
    rw [folRename, List.getElem?_map, hl, ← FolLit.map_inst_inst]
    exact congrArg (fun t => some (FolLit.mk t l.sign)) (thvmRenameVars_inst _ hsub)

/-! ## Subsumption is exact -/

/-- The first clause is matched in full, and the renaming reaches every variable of the second. -/
structure Subsumable (c₁ c₂ : FolClause) : Prop where
  pattern : ∀ l ∈ c₁, l.atom.IsPattern
  renamed : ∀ l ∈ c₂, l.atom.Substitutable ∧ l.atom.VarsBelow (2 ^ 18)
  short : c₂.length ≤ folMaxLits

theorem Subsumes.length_le (h : Subsumes c₁ c₂) : c₁.length ≤ c₂.length := by
  obtain ⟨-, f, hinj, -⟩ := h
  simpa using Fintype.card_le_of_injective f hinj

theorem subsumes_iff_placedAt :
    Subsumes c₁ c₂ ↔ ∃ σ places, PlacedAt c₂ (List.replicate c₂.length false) σ c₁ places :=
  exists_congr fun _ => exists_placedAt_iff.symm

/-- The search finds a substitution and an injective map of the literals just when there is one. -/
theorem folSubsumes_iff (h : Subsumable c₁ c₂) : folSubsumes c₁ c₂ = true ↔ Subsumes c₁ c₂ := by
  unfold folSubsumes
  split
  · next hlen =>
    exact iff_of_false (fun h' => nomatch h') fun h' => Nat.not_le.mpr hlen h'.length_le
  · split
    · next hempty =>
      obtain rfl := List.length_eq_zero_iff.mp hempty
      exact iff_of_true rfl ⟨.fvr, fun i => i.elim0, fun i => i.elim0, fun i => i.elim0⟩
    · rw [if_neg (Nat.not_lt.mpr h.short), folSubsumeRec_iff h.pattern, subsumes_iff_placedAt,
        ← folRename_placedAt h.renamed]
      exact exists_congr fun σ => and_iff_right (agrees_none σ)

/-- `p(x₀) ∨ p(x₁)` and `p(a) ∨ ¬q ∨ p(x₀)`. -/
theorem folSubsumes_iff_instance :
    folSubsumes [⟨.ctr 1 [.fvr 0], false⟩, ⟨.ctr 1 [.fvr 1], false⟩]
        [⟨.ctr 1 [.ctr 2 []], false⟩, ⟨.ctr 3 [], true⟩, ⟨.ctr 1 [.fvr 0], false⟩] = true ↔
      Subsumes [⟨.ctr 1 [.fvr 0], false⟩, ⟨.ctr 1 [.fvr 1], false⟩]
        [⟨.ctr 1 [.ctr 2 []], false⟩, ⟨.ctr 3 [], true⟩, ⟨.ctr 1 [.fvr 0], false⟩] := by
  have hcapped : ∀ l ∈ ([⟨.ctr 1 [.ctr 2 []], false⟩, ⟨.ctr 3 [], true⟩,
      ⟨.ctr 1 [.fvr 0], false⟩] : FolClause), l.atom.ArityCapped ∧ l.atom.VarsBelow (2 ^ 18) := by
    decide
  exact folSubsumes_iff ⟨by decide, fun l hl => ⟨(hcapped l hl).1.substitutable, (hcapped l hl).2⟩,
    by decide⟩

/-- A clause with a variable below a node of 17 arguments. -/
def wideClause : FolClause :=
  [⟨.ctr 1 (List.replicate 17 (.fvr 0)), false⟩, ⟨.ctr 2 [.fvr 0], false⟩]

theorem Subsumes.refl (clause : FolClause) : Subsumes clause clause :=
  ⟨.fvr, id, Function.injective_id, fun i =>
    congrArg (fun t => FolLit.mk t clause[i].sign) (FTerm.inst_id _)⟩

/-- A number does not match itself, a variable in a wide node is not renamed, and a clause with
more than `FOL_MAX_LITS` literals is not looked at. -/
theorem folSubsumes_misses :
    (folSubsumes [⟨.ctr 1 [.num 0 5], false⟩] [⟨.ctr 1 [.num 0 5], false⟩] = false ∧
      Subsumes [⟨.ctr 1 [.num 0 5], false⟩] [⟨.ctr 1 [.num 0 5], false⟩]) ∧
    (folSubsumes wideClause wideClause = false ∧ Subsumes wideClause wideClause) ∧
    (folSubsumes (List.replicate 65 ⟨.ctr 1 [], false⟩) (List.replicate 65 ⟨.ctr 1 [], false⟩) =
        false ∧
      Subsumes (List.replicate 65 ⟨.ctr 1 [], false⟩) (List.replicate 65 ⟨.ctr 1 [], false⟩)) :=
  ⟨⟨by decide, .refl _⟩, ⟨by decide, .refl _⟩, ⟨by decide, .refl _⟩⟩

end Fol

end Thvm
