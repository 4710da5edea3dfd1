import Thvm.QueueSweep

/-!
# What keeps a term irreducible

Whether a rule fires depends on its sides and its flag. An edit after which every rule that fires
below one slot is a rule that fired below another leaves irreducible terms irreducible.
-/

namespace Thvm.Atp

variable {w : SweepWorld} {s s' s'' : RuleSlots} {t u : FTerm} {i j k k' : ℕ}

theorem Visits.trans {v : FTerm} (h : Visits t u) (h' : Visits u v) : Visits t v := by
  induction h with
  | refl => exact h'
  | arg hcap ha _ ih => exact .arg hcap ha (ih h')

/-! ## Firing -/

namespace RuleSlots

theorem fires_oriented (h : s.rOrient i = true) : s.fires w t i =
    if (thvmMatch (s.lhs i) t fun _ => none).1 then
      some (thvmSubstApply (thvmMatch (s.lhs i) t fun _ => none).2 (s.rhs i))
    else none := by
  unfold fires ProverState.tryRule proverRule
  simp only [h, Bool.not_true, Bool.false_eq_true, ↓reduceIte]
  exact apply_ite _ _ _ _

/-- What an equation makes of the term, left to right or else right to left. -/
def firesFace (w : SweepWorld) (t pat other : FTerm) : Option FTerm :=
  ProverState.tryFace w.toExtractWorld ⟨[], w.minConst, none, false⟩ t pat other

theorem fires_unoriented (h : s.rOrient i = false) : s.fires w t i =
    (firesFace w t (s.lhs i) (s.rhs i)).or (firesFace w t (s.rhs i) (s.lhs i)) := by
  unfold fires ProverState.tryRule proverRule firesFace
  simp only [h, Bool.not_false, Bool.false_eq_true, ↓reduceIte]
  generalize ProverState.tryFace _ _ t (s.lhs i) (s.rhs i) = face
  cases face with
  | some repl => rfl
  | none =>
    rw [Option.map_map, Option.none_or]
    exact congrFun Option.map_id _

theorem fires_congr (hl : s'.lhs j = s.lhs i) (hr : s'.rhs j = s.rhs i)
    (ho : s'.rOrient j = s.rOrient i) : s'.fires w t j = s.fires w t i := by
  cases h : s.rOrient i with
  | true => rw [fires_oriented h, fires_oriented (ho.trans h), hl, hr]
  | false => rw [fires_unoriented h, fires_unoriented (ho.trans h), hl, hr]

/-- Every rule below `k'` fires only where one below `k` did. -/
def Shrinks (w : SweepWorld) (s : RuleSlots) (k : ℕ) (s' : RuleSlots) (k' : ℕ) : Prop :=
  ∀ j < k', (∀ t, s'.fires w t j = none) ∨ ∃ i < k, ∀ t, s.fires w t i = none → s'.fires w t j = none

theorem Shrinks.irreducibleBelow (h : Shrinks w s k s' k') (ht : s.IrreducibleBelow w k t) :
    s'.IrreducibleBelow w k' t := by
  intro u hu j hj
  rcases h j hj with hnone | ⟨i, hi, hle⟩
  · exact hnone u
  · exact hle u (ht u hu i hi)

theorem Shrinks.of_same (h : ∀ j < k', j < k ∧ s'.lhs j = s.lhs j ∧ s'.rhs j = s.rhs j ∧
    s'.rOrient j = s.rOrient j) : Shrinks w s k s' k' := by
  intro j hj
  obtain ⟨hk, hl, hr, ho⟩ := h j hj
  exact .inr ⟨j, hk, fun t ht => (fires_congr hl hr ho).trans ht⟩

theorem Shrinks.trans {k'' : ℕ} (h : Shrinks w s k s' k') (h' : Shrinks w s' k' s'' k'') :
    Shrinks w s k s'' k'' := by
  intro j hj
  rcases h' j hj with hnone | ⟨i, hi, hle⟩
  · exact .inl hnone
  · rcases h i hi with hnone | ⟨i', hi', hle'⟩
    · exact .inl fun t => hle t (hnone t)
    · exact .inr ⟨i', hi', fun t ht => hle t (hle' t ht)⟩

theorem fires_sentinel (hl : s.lhs i = deadSentinel) (hr : s.rhs i = deadSentinel) :
    s.fires w t i = none := by
  have hmatch : thvmMatch deadSentinel t (fun _ => none) = (false, fun _ => none) := by
    unfold deadSentinel thvmMatch
    exact if_pos (by decide)
  cases h : s.rOrient i with
  | true =>
    rw [fires_oriented h, hl, hmatch]
    rfl
  | false =>
    rw [fires_unoriented h, hl, hr, firesFace, ProverState.tryFace, hmatch]
    rfl

theorem shrinks_softDelete (i : ℕ) : Shrinks w s k (s.softDelete i) k := by
  intro j hj
  by_cases hji : j = i
  · subst hji
    exact .inl fun t => fires_sentinel (Function.update_self _ _ _) (Function.update_self _ _ _)
  · have hl : (s.softDelete i).lhs j = s.lhs j := Function.update_of_ne hji _ _
    have hr : (s.softDelete i).rhs j = s.rhs j := Function.update_of_ne hji _ _
    exact .inr ⟨j, hj, fun t ht => (fires_congr hl hr rfl).trans ht⟩

theorem shrinks_foldl_bwdSubsume (new : FTerm × FTerm) (is : List ℕ) :
    Shrinks w s k (is.foldl (fun s i => s.bwdSubsume new i) s) k := by
  have hrefl : ∀ s : RuleSlots, Shrinks w s k s k := fun s =>
    .of_same fun j hj => ⟨hj, rfl, rfl, rfl⟩
  induction is generalizing s with
  | nil => exact hrefl s
  | cons i is ih =>
    have hstep : Shrinks w s k (s.bwdSubsume new i) k := by
      unfold bwdSubsume
      split
      · exact hrefl s
      · split
        · exact shrinks_softDelete i
        · exact hrefl s
    exact hstep.trans ih

/-- A new rule is refused, or it counts and leaves the others as they are. -/
theorem shrinks_push (rw' : RuleWorld) (o : RuleOptions) (s : RuleSlots) (lhs rhs : FTerm) :
    (s.atpPushRule rw' o lhs rhs).2 = s ∨
      (s.rRevision < (s.atpPushRule rw' o lhs rhs).2.rRevision ∧
        (s.atpPushRule rw' o lhs rhs).2.nRules = s.nRules + 1 ∧
          ∀ k ≤ s.nRules, Shrinks w s k (s.atpPushRule rw' o lhs rhs).2 k) := by
  unfold atpPushRule
  generalize (if o.varNorm then rw'.normalizeVars (lhs, rhs) else (lhs, rhs)) = p
  obtain ⟨l, r⟩ := p
  dsimp only
  split
  · exact .inl rfl
  · right
    obtain ⟨hn, -⟩ := ensure_same s (s.nRules + 1)
    obtain ⟨hl, hr, hrev⟩ := ensure_sides s (s.nRules + 1)
    have ho : (s.atpEnsureRuleCap (s.nRules + 1)).rOrient = s.rOrient := by
      unfold atpEnsureRuleCap
      split
      · rfl
      · rfl
    generalize s.atpEnsureRuleCap (s.nRules + 1) = t at hn hl hr hrev ho
    have hkept : ∀ k ≤ s.nRules, Shrinks w s k (t.writeRule rw' o l r) k := fun k hk =>
      .of_same fun j hj => by
        have hne : j ≠ t.nRules := by omega
        exact ⟨hj, (Function.update_of_ne hne _ _).trans (congrFun hl j),
          (Function.update_of_ne hne _ _).trans (congrFun hr j),
          (Function.update_of_ne hne _ _).trans (congrFun ho j)⟩
    have hwritten : (t.writeRule rw' o l r).nRules = s.nRules + 1 ∧
        (t.writeRule rw' o l r).rRevision = s.rRevision + 1 := by
      rw [← hn, ← hrev]
      exact ⟨rfl, rfl⟩
    split
    · have hfades := fades_foldl_bwdSubsume (s := t.writeRule rw' o l r) (l, r)
        (List.range s.nRules)
      have hrev' := hfades.revision
      exact ⟨by dsimp only; omega, hfades.nRules.trans hwritten.1,
        fun k hk => (hkept k hk).trans (shrinks_foldl_bwdSubsume _ _)⟩
    · exact ⟨by dsimp only; omega, hwritten.1, hkept⟩

/-- The rules from slot `i` on move down. -/
theorem shrinks_compact (firstPass : Bool) (h : ∀ j < k', (j < i → j < k) ∧ (i ≤ j → j + 1 < k))
    (hk : k' < s.nRules ∨ k' = 0) : Shrinks w s k
      (s.dropSlot (if firstPass then s.shiftSlots i else s.shiftSlotsPass2 i) i) k' := by
  intro j hj
  have hshift : ∀ {α : Type} (f : ℕ → α), SlotColumns.shift i s.nRules f j =
      f (if j < i then j else j + 1) := fun f => by
    unfold SlotColumns.shift
    split
    · rw [if_neg (by omega)]
    · rw [if_pos (by omega)]
  have hfires : ∀ t, (s.dropSlot (if firstPass then s.shiftSlots i else s.shiftSlotsPass2 i)
      i).fires w t j = s.fires w t (if j < i then j else j + 1) := fun t => by
    cases firstPass
    · exact fires_congr (hshift _) (hshift _) (hshift _)
    · exact fires_congr (hshift _) (hshift _) (hshift _)
  refine .inr ⟨if j < i then j else j + 1, ?_, fun t ht => (hfires t).trans ht⟩
  split
  · exact (h j hj).1 (by assumption)
  · exact (h j hj).2 (by omega)

/-- Whether an oriented rule fires does not depend on its right side. -/
theorem shrinks_setRhs (rw' : RuleWorld) (r : FTerm)
    (h : s.rOrient i = true ∨ k ≤ i) : Shrinks w s k (s.setRhs rw' i r) k := by
  intro j hj
  by_cases hji : j = i
  · subst hji
    have ho : s.rOrient j = true := h.resolve_right (by omega)
    refine .inr ⟨j, hj, fun t ht => ?_⟩
    have ho' : (s.setRhs rw' j r).rOrient j = true := ho
    rw [fires_oriented ho] at ht
    rw [fires_oriented ho']
    split at ht
    · cases ht
    · exact if_neg (by assumption)
  · have hl : (s.setRhs rw' i r).lhs j = s.lhs j := rfl
    have hr : (s.setRhs rw' i r).rhs j = s.rhs j := Function.update_of_ne hji _ _
    exact .inr ⟨j, hj, fun t ht => (fires_congr hl hr rfl).trans ht⟩

end RuleSlots

/-! ## Looking for a redex -/

theorem visits_leaf {l : Leaf} (h : Visits (.leaf l) u) : u = .leaf l := by
  cases h
  rfl

theorem visits_node {label : ℕ} {args : List FTerm} : Visits (.node label args) u ↔
    u = .node label args ∨ (args.length ≤ rewriteMaxArity ∧ ∃ a ∈ args, Visits a u) := by
  constructor
  · intro h
    cases h with
    | refl => exact .inl rfl
    | arg hcap ha h => exact .inr ⟨hcap, _, ha, h⟩
  · rintro (rfl | ⟨hcap, a, ha, h⟩)
    · exact .refl _
    · exact .arg hcap ha h

namespace RuleSlots

theorem atpOrderedTryTop_eq_none :
    s.atpOrderedTryTop w t = none ↔ ∀ i < s.nRules, s.fires w t i = none := by
  unfold atpOrderedTryTop
  simp only [Option.or_eq_none_iff, List.findSome?_eq_none_iff, List.mem_range]
  constructor
  · rintro ⟨horiented, hunoriented⟩ i hi
    cases ho : s.rOrient i with
    | true => exact (if_pos ho).symm.trans (horiented i hi)
    | false => exact (if_pos ho).symm.trans (hunoriented i hi)
  · intro h
    exact ⟨fun i hi => by rw [h i hi, ite_self], fun i hi => by rw [h i hi, ite_self]⟩

theorem atpOrderedRewriteArgs_eq_none {args : List FTerm} :
    s.atpOrderedRewriteArgs w args = none ↔ ∀ a ∈ args, s.atpOrderedRewriteStep w a = none := by
  induction args with
  | nil => simp [atpOrderedRewriteArgs]
  | cons a as ih =>
    rw [atpOrderedRewriteArgs, List.forall_mem_cons, ← ih]
    cases s.atpOrderedRewriteStep w a with
    | none => simp
    | some a' => simp

/-- The rewriter finds nothing exactly in irreducible terms. -/
theorem atpOrderedRewriteStep_eq_none :
    s.atpOrderedRewriteStep w t = none ↔ s.Irreducible w t := by
  unfold Irreducible IrreducibleBelow
  induction t using TermTree.induct with
  | leaf l =>
    rw [atpOrderedRewriteStep, atpOrderedTryTop_eq_none]
    constructor
    · intro h u hu
      rw [visits_leaf hu]
      exact h
    · exact fun h => h _ (.refl _)
  | node label args ih =>
    have hstep : s.atpOrderedRewriteStep w (.node label args) = none ↔
        s.atpOrderedTryTop w (.node label args) = none ∧
          (args.length ≤ rewriteMaxArity → ∀ a ∈ args, s.atpOrderedRewriteStep w a = none) := by
      rw [atpOrderedRewriteStep]
      cases s.atpOrderedTryTop w (.node label args) with
      | some t => simp
      | none =>
        rw [← atpOrderedRewriteArgs_eq_none]
        by_cases hcap : args.length > rewriteMaxArity
        · simp [hcap]
        · simp [hcap, Nat.not_lt.mp hcap]
    rw [hstep, atpOrderedTryTop_eq_none]
    constructor
    · rintro ⟨htop, hargs⟩ u hu
      rcases visits_node.mp hu with rfl | ⟨hcap, a, ha, hu⟩
      · exact htop
      · exact (ih a ha).mp (hargs hcap a ha) u hu
    · exact fun h => ⟨h _ (.refl _), fun hcap a ha =>
        (ih a ha).mpr fun u hu => h u (.arg hcap ha hu)⟩

instance : Decidable (s.Irreducible w t) :=
  decidable_of_iff (s.atpOrderedRewriteStep w t = none) atpOrderedRewriteStep_eq_none

end RuleSlots

/-- The linear scan, of at most `stepCap` steps. -/
def Normalizer.scan (w : SweepWorld) (stepCap : ℕ) : Normalizer w where
  run _ _ s t := s.atpRewriteNormalize w stepCap t
  run_irreducible _ _ s t ht := by
    cases stepCap with
    | zero => rfl
    | succ n =>
      rw [RuleSlots.atpRewriteNormalize, RuleSlots.atpOrderedRewriteStep_eq_none.mpr ht]

/-! ## Symbols -/

/-- Every symbol of the first set is one of the second. -/
def Within (a b : BitVec 64) : Prop := ∀ i, a.getLsbD i = true → b.getLsbD i = true

theorem Within.trans {a b c : BitVec 64} (h : Within a b) (h' : Within b c) : Within a c :=
  fun i hi => h' i (h i hi)

theorem within_or_left (a b : BitVec 64) : Within a (a ||| b) := fun i hi => by
  rw [BitVec.getLsbD_or, hi, Bool.true_or]

theorem within_or_right (a b : BitVec 64) : Within b (a ||| b) := fun i hi => by
  rw [BitVec.getLsbD_or, hi, Bool.or_true]

theorem within_allOnes (a : BitVec 64) : Within a (BitVec.allOnes 64) := fun i hi => by
  rw [BitVec.getLsbD_allOnes, decide_eq_true_iff]
  exact BitVec.lt_of_getLsbD hi

theorem atpSymBit_bit (label : ℕ) : (atpSymBit label).getLsbD (min label 63) = true := by
  unfold atpSymBit
  split
  · rename_i h
    rw [min_eq_left h.le]
    simp [BitVec.getLsbD_shiftLeft]
    omega
  · rename_i h
    rw [min_eq_right (Nat.le_of_not_lt h)]
    rfl

/-- Two sets that share the bit of a symbol are not disjoint. -/
theorem and_ne_zero {a b : BitVec 64} {label : ℕ} (ha : Within (atpSymBit label) a)
    (hb : Within (atpSymBit label) b) : a &&& b ≠ 0#64 := by
  intro h
  have hbit := congrArg (fun x => BitVec.getLsbD x (min label 63)) h
  simp only [BitVec.getLsbD_and, ha _ (atpSymBit_bit label), hb _ (atpSymBit_bit label)] at hbit
  simp at hbit

theorem within_args {args : List FTerm} {a : FTerm} (ha : a ∈ args) :
    Within (atpTermSymBitmap a) (atpTermSymBitmapArgs args) := by
  induction args with
  | nil => cases ha
  | cons b bs ih =>
    rw [atpTermSymBitmapArgs]
    rcases List.mem_cons.mp ha with rfl | ha
    · exact within_or_left _ _
    · exact (ih ha).trans (within_or_right _ _)

/-- The symbols at the top of the subterms are all there. -/
theorem within_of_visits {label : ℕ} {args : List FTerm} (h : Visits t (.node label args)) :
    Within (atpSymBit label) (atpTermSymBitmap t) := by
  generalize hu : TermTree.node label args = u at h
  induction h with
  | refl t =>
    subst hu
    exact within_or_left _ _
  | arg hcap ha h ih => exact ((ih hu).trans (within_args ha)).trans (within_or_right _ _)

namespace RuleSlots

theorem within_collectTopSyms {count ri : ℕ} {syms : BitVec 64} :
    Within syms (s.collectTopSyms count ri syms) := by
  induction count generalizing ri syms with
  | zero => exact fun i hi => hi
  | succ n ih =>
    rw [collectTopSyms]
    split
    · exact (within_or_left _ _).trans ih
    · exact within_allOnes _

/-- What a left side does to the set of the new top symbols. -/
theorem collectTopSyms_covers {count ri : ℕ} {syms : BitVec 64} (hri : ri ≤ j)
    (hj : j < ri + count) :
    (∀ label args, s.lhs j = .node label args →
      Within (atpSymBit label) (s.collectTopSyms count ri syms)) ∧
    ∀ l, s.lhs j = .leaf l → s.collectTopSyms count ri syms = BitVec.allOnes 64 := by
  induction count generalizing ri syms with
  | zero => omega
  | succ n ih =>
    rw [collectTopSyms]
    rcases hri.eq_or_lt with rfl | hlt
    · constructor
      · intro label args hl
        rw [hl]
        exact (within_or_right _ _).trans within_collectTopSyms
      · intro l hl
        rw [hl]
    · split
      · exact ih hlt (by omega)
      · exact ⟨fun label _ _ => within_allOnes _, fun _ _ => rfl⟩

end RuleSlots

end Thvm.Atp
