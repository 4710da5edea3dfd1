import Thvm.QueueSweepSpec
import Thvm.TransitionRuns

/-!
# Sweeps over whole runs

Two facts carry the shortcuts from one sweep to the next. A pair whose stamp is the revision of the
rules is normal, and a pair that the symbols may save is normal for the rules below the watermark.
-/

namespace Thvm.Atp
open TransitionRuns

variable {w : SweepWorld} {ro : RuleOptions} {o : SweepOptions} {nf : Normalizer w}

/-! ## Patterns -/

/-- What a pattern that matches has at its top. -/
theorem thvmMatch_head {pat t : FTerm} {b : ℕ → Option FTerm} (h : (thvmMatch pat t b).1 = true) :
    (∃ id < rewriteMaxVar, pat = .fvr id) ∨
      ∃ label args bs, pat = .ctr label args ∧ t = .ctr label bs := by
  cases pat with
  | leaf l =>
    cases l with
    | fvr id =>
      unfold thvmMatch at h
      split at h
      · cases h
      · exact .inl ⟨id, by omega, rfl⟩
    | num dtype value =>
      unfold thvmMatch at h
      cases h
  | node label args =>
    cases t with
    | leaf l =>
      unfold thvmMatch at h
      cases h
    | node label' bs =>
      unfold thvmMatch at h
      split at h
      · cases h
      · rename_i hne
        exact .inr ⟨label, args, bs, rfl, by rw [not_not.mp hne]⟩

namespace RuleSlots

variable (w : SweepWorld) (s : RuleSlots)

def template (pat other : FTerm) : Option FTerm :=
  ProverState.atpUnorientTemplate w.toExtractWorld ⟨[], w.minConst, none, false⟩ pat other

/-- The sides that rule `i` rewrites from. -/
def faces (i : ℕ) : List FTerm :=
  if s.rOrient i then [s.lhs i]
  else
    (if (template w (s.lhs i) (s.rhs i)).isSome then [s.lhs i] else []) ++
      if (template w (s.rhs i) (s.lhs i)).isSome then [s.rhs i] else []

variable {w s} {t : FTerm} {i : ℕ}

theorem firesFace_ne_none {pat other : FTerm} (h : firesFace w t pat other ≠ none) :
    (thvmMatch pat t fun _ => none).1 = true ∧ (template w pat other).isSome = true := by
  unfold firesFace ProverState.tryFace at h
  generalize hm : thvmMatch pat t (fun _ => none) = m at h
  obtain ⟨ok, sub⟩ := m
  dsimp only at h
  split at h
  · rename_i hok
    split at h
    · rename_i tmpl htmpl
      exact ⟨hok, by rw [template, htmpl]; rfl⟩
    · exact absurd rfl h
  · exact absurd rfl h

/-- A rule fires from one of its faces. -/
theorem exists_face (h : s.fires w t i ≠ none) :
    ∃ pat ∈ s.faces w i, (thvmMatch pat t fun _ => none).1 = true := by
  unfold faces
  cases ho : s.rOrient i with
  | true =>
    rw [fires_oriented ho] at h
    split at h
    · rename_i hok
      exact ⟨s.lhs i, List.mem_singleton_self _, hok⟩
    · exact absurd rfl h
  | false =>
    rw [fires_unoriented ho, ne_eq, Option.or_eq_none_iff, not_and_or] at h
    rw [if_neg Bool.false_ne_true]
    rcases h with h | h
    · obtain ⟨hok, htmpl⟩ := firesFace_ne_none h
      rw [if_pos htmpl]
      exact ⟨s.lhs i, List.mem_append_left _ (List.mem_singleton_self _), hok⟩
    · obtain ⟨hok, htmpl⟩ := firesFace_ne_none h
      rw [if_pos htmpl]
      exact ⟨s.rhs i, List.mem_append_right _ (List.mem_singleton_self _), hok⟩

end RuleSlots

/-! ## Careful steps -/

/-- The sides differ, and none of the first `k` rules rewrites one. -/
structure QueuedPair.NormalBelow (w : SweepWorld) (s : RuleSlots) (k : ℕ) (p : QueuedPair) :
    Prop where
  ne : p.lhs ≠ p.rhs
  lhs : s.IrreducibleBelow w k p.lhs
  rhs : s.IrreducibleBelow w k p.rhs

/-- The symbols of the pair may save it. -/
def QueuedPair.Tested (p : QueuedPair) : Prop :=
  p.implicit = false ∨ p.lastNormRevision ≠ atpCpNormCookieNone

namespace QueueState

variable (w : SweepWorld) (o : SweepOptions) (nf : Normalizer w) (s : QueueState)

/-- How many rules the last sweep has seen. -/
def swept : ℕ := min s.irRuleWatermark s.rules.nRules

/-- The slot is one of a rule that the last sweep has not seen. -/
def Fresh (j : ℕ) : Prop := s.irRuleWatermark ≤ j ∧ j < s.rules.nRules

/-- A new left side stands for the face: by its top symbol, or because it is no constructor term
and every pair has a symbol. -/
def Covered : FTerm → Prop
  | .leaf (.fvr id) => id < rewriteMaxVar →
      (∃ j l, s.Fresh j ∧ s.rules.lhs j = .leaf l) ∧ ∀ p ∈ s.cps, p.syms ≠ 0#64
  | .leaf (.num _ _) => True
  | .node label _ => ∃ j, s.Fresh j ∧ ∀ label' args, s.rules.lhs j = .node label' args →
      atpSymBit label' = atpSymBit label

/-- What the rules may undergo between two sweeps. -/
def CarefulEdit : RuleEdit → Prop
  | .push _ _ => s.useIncrIr = true → s.irRuleWatermark ≤ s.rules.nRules
  | .compact _ i => s.useIncrIr = true → s.irRuleWatermark ≤ i ∨ s.rules.nRules ≤ s.irRuleWatermark
  | .compose i _ => s.rules.rOrient i = true ∨ ((s.useIncrIr = true → s.irRuleWatermark ≤ i) ∧
      ∀ p ∈ s.cps, p.lastNormRevision ≠ s.rules.rRevision)
  | .orient i => s.useIncrIr = true → s.irRuleWatermark ≤ i
  | .softDelete _ => True
  | .touch _ => True

/-- The revision is one that can be stored, a side that counts as normal is irreducible, and the
faces of the new rules are covered. -/
structure CarefulSweep : Prop where
  stamp : s.rules.rRevision < atpCpNormCookieNone
  finished : ∀ p slot, (p, slot) ∈ s.cps.zipIdx → s.drops w o slot p = false → s.skips p = false →
    (s.useIncrIr = true ∨ (nf.run s.asked slot s.rules p.lhs = p.lhs ∧
      nf.run s.asked slot s.rules p.rhs = p.rhs)) →
    s.rules.Irreducible w (nf.run s.asked slot s.rules p.lhs) ∧
      s.rules.Irreducible w (nf.run s.asked slot s.rules p.rhs)
  covered : s.useIncrIr = true → 0 < s.irRuleWatermark → ∀ i, s.Fresh i →
    ∀ pat ∈ s.rules.faces w i, s.Covered pat

def Careful : QueueOp → Prop
  | .push lhs rhs implicit trace => s.useIncrIr = true → 0 < s.irRuleWatermark →
      implicit = false →
      QueuedPair.NormalBelow w s.rules s.swept ⟨lhs, rhs, implicit, atpCpNormCookieNone, trace⟩
  | .edit e => s.CarefulEdit e
  | .setUseIncrIr on => on = true → 0 < s.rules.nRules →
      ∀ p ∈ s.cps, p.Tested → p.NormalBelow w s.rules s.rules.nRules
  | .sweep => s.CarefulSweep w o nf
  | .drop _ => True
  | .reorder _ => True

/-! ## The invariant -/

structure Inv : Prop where
  stamped : ∀ p ∈ s.cps, p.lastNormRevision ≠ atpCpNormCookieNone →
    p.lastNormRevision ≤ s.rules.rRevision ∧
      (p.lastNormRevision = s.rules.rRevision → p.NormalBelow w s.rules s.rules.nRules)
  swept : s.useIncrIr = true → 0 < s.irRuleWatermark →
    ∀ p ∈ s.cps, p.Tested → p.NormalBelow w s.rules s.swept

variable {w o nf s} {p : QueuedPair}

end QueueState

theorem QueuedPair.NormalBelow.shrink {w : SweepWorld} {s s' : RuleSlots} {k k' : ℕ} {p : QueuedPair}
    (hn : p.NormalBelow w s k) (h : RuleSlots.Shrinks w s k s' k') : p.NormalBelow w s' k' :=
  ⟨hn.ne, h.irreducibleBelow hn.lhs, h.irreducibleBelow hn.rhs⟩

namespace QueueState

variable {s : QueueState} {p : QueuedPair}

theorem newTopSyms_covers {j : ℕ} (hincr : s.useIncrIr = true) (hj : s.Fresh j) :
    (∀ label args, s.rules.lhs j = .node label args → Within (atpSymBit label) s.newTopSyms) ∧
      ∀ l, s.rules.lhs j = .leaf l → s.newTopSyms = BitVec.allOnes 64 := by
  obtain ⟨hle, hlt⟩ := hj
  rw [newTopSyms, if_pos ⟨hincr, hle.trans_lt hlt⟩]
  exact RuleSlots.collectTopSyms_covers hle (by omega)

/-- A new rule whose faces are covered fires nowhere in a pair without the new symbols. -/
theorem fires_of_covered {t u : FTerm} {i : ℕ} (hincr : s.useIncrIr = true)
    (hsyms : p.syms &&& s.newTopSyms = 0#64) (hp : p ∈ s.cps)
    (ht : Within (atpTermSymBitmap t) p.syms) (hu : Visits t u)
    (hcovered : ∀ pat ∈ s.rules.faces w i, s.Covered pat) : s.rules.fires w u i = none := by
  by_contra hne
  obtain ⟨pat, hpat, hmatch⟩ := RuleSlots.exists_face hne
  have hc := hcovered pat hpat
  rcases thvmMatch_head hmatch with ⟨id, hid, rfl⟩ | ⟨label, args, bs, rfl, rfl⟩
  · obtain ⟨⟨j, l, hj, hl⟩, hsome⟩ := hc hid
    rw [(newTopSyms_covers hincr hj).2 l hl, BitVec.and_allOnes] at hsyms
    exact hsome p hp hsyms
  · obtain ⟨j, hj, hsame⟩ := hc
    refine and_ne_zero ((within_of_visits hu).trans ht) ?_ hsyms
    cases hl : s.rules.lhs j with
    | leaf l =>
      rw [(newTopSyms_covers hincr hj).2 l hl]
      exact within_allOnes _
    | node label' args' =>
      rw [← hsame label' args' hl]
      exact (newTopSyms_covers hincr hj).1 label' args' hl

variable {o : SweepOptions} {nf : Normalizer w} {slot : ℕ}

theorem skips_iff : s.skips p = true ↔ s.bitmapSkips p = true ∨ s.cookieSkips p = true :=
  Bool.or_eq_true_iff

/-- A pair that a shortcut leaves as it is has nothing to be normalised. -/
theorem Inv.skipped (h : s.Inv w) (hc : s.CarefulSweep w o nf) (hp : p ∈ s.cps)
    (hskip : s.skips p = true) : p.NormalBelow w s.rules s.rules.nRules := by
  rcases skips_iff.mp hskip with hskip | hskip
  · simp only [bitmapSkips, Bool.and_eq_true, Bool.or_eq_true, bne_iff_ne, beq_iff_eq,
      decide_eq_true_eq, Bool.not_eq_true'] at hskip
    obtain ⟨⟨⟨⟨hincr, hsome⟩, hpos⟩, htested⟩, hsyms⟩ := hskip
    have hlt : s.irRuleWatermark < s.rules.nRules := by
      by_contra hge
      exact hsome (if_neg fun h => hge h.2)
    have hbelow := h.swept hincr hpos p hp htested
    have hswept : s.swept = s.irRuleWatermark := min_eq_left hlt.le
    have hwhole : ∀ t, Within (atpTermSymBitmap t) p.syms →
        s.rules.IrreducibleBelow w s.swept t → s.rules.IrreducibleBelow w s.rules.nRules t := by
      intro t ht hold u hu i hi
      by_cases hnew : s.irRuleWatermark ≤ i
      · exact fires_of_covered hincr hsyms hp ht hu (hc.covered hincr hpos i ⟨hnew, hi⟩)
      · exact hold u hu i (by omega)
    exact ⟨hbelow.ne, hwhole _ (within_or_left _ _) hbelow.lhs,
      hwhole _ (within_or_right _ _) hbelow.rhs⟩
  · have hrev : s.revision = s.rules.rRevision :=
      Nat.mod_eq_of_lt (hc.stamp.trans (by decide))
    have heq : p.lastNormRevision = s.rules.rRevision := (beq_iff_eq.mp hskip).trans hrev
    exact (h.stamped p hp (heq ▸ hc.stamp.ne)).2 heq

/-! ## The slow path -/

/-- What the slow path leaves of a pair. -/
theorem normalizePair_some {q : QueuedPair} (h : s.normalizePair w nf slot p = some q) :
    q.lhs ≠ q.rhs ∧ q.lhs = nf.run s.asked slot s.rules p.lhs ∧
      q.rhs = nf.run s.asked slot s.rules p.rhs ∧
        ((q.lhs = p.lhs ∧ q.rhs = p.rhs ∧ q.lastNormRevision = s.revision) ∨
          (q.implicit = false ∧ q.lastNormRevision = atpCpNormCookieNone)) := by
  unfold normalizePair at h
  dsimp only at h
  split at h
  · cases h
  · rename_i hjoin
    rw [kboEq_iff] at hjoin
    split at h
    · rename_i hwitness
      obtain rfl := Option.some.inj h
      simp only [nfWitness, Bool.and_eq_true, kboEq_iff] at hwitness
      obtain ⟨⟨hl, hr⟩, -⟩ := hwitness
      refine ⟨?_, hl.symm, hr.symm, .inl ⟨rfl, rfl, rfl⟩⟩
      rw [hl, hr] at hjoin
      exact hjoin
    · obtain rfl := Option.some.inj h
      exact ⟨hjoin, rfl, rfl, .inr ⟨rfl, rfl⟩⟩

/-- A normal pair comes out of the slow path with the sides that it had. -/
theorem normalizePair_of_normal
    (h : p.NormalBelow w s.rules s.rules.nRules) : ∃ q, s.normalizePair w nf slot p = some q ∧
      q.lhs = p.lhs ∧ q.rhs = p.rhs := by
  have hl := nf.run_irreducible s.asked slot s.rules p.lhs h.lhs
  have hr := nf.run_irreducible s.asked slot s.rules p.rhs h.rhs
  unfold QueueState.normalizePair
  rw [hl, hr]
  dsimp only
  rw [if_neg (by rw [kboEq_iff]; exact h.ne)]
  split
  · exact ⟨_, rfl, rfl, rfl⟩
  · exact ⟨_, rfl, rfl, rfl⟩

/-! ## One step -/

/-- A pair that comes out of a sweep is normal if its stamp or its symbols may save it. -/
theorem Inv.sweepPair (h : s.Inv w) (hc : s.CarefulSweep w o nf) {q : QueuedPair}
    (hp : (p, slot) ∈ s.cps.zipIdx) (hq : s.sweepPair w o nf slot p = some q) :
    (q.lastNormRevision ≠ atpCpNormCookieNone → q.lastNormRevision ≤ s.rules.rRevision) ∧
      (s.useIncrIr = true ∨ q.lastNormRevision = s.rules.rRevision →
        q.NormalBelow w s.rules s.rules.nRules) := by
  have hmem : p ∈ s.cps := (List.mem_zipIdx' hp).2 ▸ List.getElem_mem _
  unfold QueueState.sweepPair at hq
  split at hq
  · cases hq
  · rename_i hdrops
    split at hq
    · rename_i hskip
      obtain rfl := Option.some.inj hq
      exact ⟨fun hne => (h.stamped p hmem hne).1, fun _ => h.skipped hc hmem hskip⟩
    · rename_i hskip
      have hrev : s.revision = s.rules.rRevision :=
        Nat.mod_eq_of_lt (hc.stamp.trans (by decide))
      have hfinished := hc.finished p slot hp (Bool.eq_false_iff.mpr hdrops)
        (Bool.eq_false_iff.mpr hskip)
      obtain ⟨hne, hl, hr, hcase⟩ := normalizePair_some hq
      rw [← hl, ← hr] at hfinished
      rcases hcase with ⟨hql, hqr, hstamp⟩ | ⟨-, hstamp⟩
      · obtain ⟨hirl, hirr⟩ := hfinished (.inr ⟨hql, hqr⟩)
        exact ⟨fun _ => by omega, fun _ => ⟨hne, hirl, hirr⟩⟩
      · refine ⟨fun hsome => absurd hstamp hsome, fun hor => ?_⟩
        have hincr := hor.resolve_right fun heq => hc.stamp.ne (heq.symm.trans hstamp)
        obtain ⟨hirl, hirr⟩ := hfinished (.inl hincr)
        exact ⟨hne, hirl, hirr⟩

theorem Inv.sweep (h : s.Inv w) (hc : s.CarefulSweep w o nf) :
    (s.atpCpSetInterreduce w o nf).Inv w := by
  unfold atpCpSetInterreduce sweepWith
  split
  · exact h
  · constructor
    · intro q hq hne
      obtain ⟨⟨p, slot⟩, hp, hq⟩ := List.mem_filterMap.mp hq
      obtain ⟨hle, hnormal⟩ := h.sweepPair hc hp hq
      exact ⟨hle hne, fun heq => hnormal (.inr heq)⟩
    · intro hincr _ q hq _
      obtain ⟨⟨p, slot⟩, hp, hq⟩ := List.mem_filterMap.mp hq
      have hswept : min (if s.useIncrIr = true then s.rules.nRules else s.irRuleWatermark)
          s.rules.nRules = s.rules.nRules := by
        rw [if_pos hincr, min_self]
      unfold QueueState.swept
      dsimp only
      rw [hswept]
      exact (h.sweepPair hc hp hq).2 (.inl hincr)

/-- The two things that the invariant asks of a change of the rules. -/
theorem Inv.edit (h : s.Inv w) {rules : RuleSlots}
    (hstamp : s.rules.rRevision < rules.rRevision ∨ (rules.rRevision = s.rules.rRevision ∧
      ((∀ p ∈ s.cps, p.lastNormRevision ≠ s.rules.rRevision) ∨
        RuleSlots.Shrinks w s.rules s.rules.nRules rules rules.nRules)))
    (hswept : s.useIncrIr = true →
      RuleSlots.Shrinks w s.rules s.swept rules (min s.irRuleWatermark rules.nRules)) :
    QueueState.Inv w { s with rules := rules } := by
  constructor
  · intro p hp hne
    obtain ⟨hle, hnormal⟩ := h.stamped p hp hne
    rcases hstamp with hlt | ⟨heq, hrest⟩
    · exact ⟨hle.trans hlt.le, fun hsame => absurd hsame (hle.trans_lt hlt).ne⟩
    · refine ⟨hle.trans heq.ge, fun hsame => ?_⟩
      have hcur : p.lastNormRevision = s.rules.rRevision := hsame.trans heq
      rcases hrest with hstale | hshrinks
      · exact absurd hcur (hstale p hp)
      · exact (hnormal hcur).shrink hshrinks
  · exact fun hincr hpos p hp ht => (h.swept hincr hpos p hp ht).shrink (hswept hincr)

theorem inv_edit (h : s.Inv w) (e : RuleEdit) (hallowed : s.rules.EditAllowed e)
    (hc : s.CarefulEdit e) : QueueState.Inv w { s with rules := s.rules.edit w.toRuleWorld ro e } := by
  cases e with
  | push lhs rhs =>
    rcases RuleSlots.shrinks_push (w := w) w.toRuleWorld ro s.rules lhs rhs with
      heq | ⟨hrev, hn, hshrinks⟩
    · have hsame : s.rules.edit w.toRuleWorld ro (.push lhs rhs) = s.rules := heq
      rw [hsame]
      exact h
    · refine h.edit (.inl hrev) fun hincr => ?_
      have hle : s.irRuleWatermark ≤ s.rules.nRules := hc hincr
      have hnow : s.swept = s.irRuleWatermark := min_eq_left hle
      have hnext : min s.irRuleWatermark (s.rules.atpPushRule w.toRuleWorld ro lhs rhs).2.nRules =
          s.irRuleWatermark := min_eq_left (by omega)
      simp only [RuleSlots.edit]
      rw [hnow, hnext]
      exact hshrinks _ hle
  | softDelete i => exact h.edit (.inl (Nat.lt_succ_self _)) fun _ => RuleSlots.shrinks_softDelete i
  | compact firstPass i =>
    refine h.edit (.inl (Nat.lt_succ_self _)) fun hincr => ?_
    have hi : i < s.rules.nRules := hallowed
    have hc := hc hincr
    have hn : (s.rules.edit w.toRuleWorld ro (.compact firstPass i)).nRules = s.rules.nRules - 1 :=
      rfl
    have hswept : s.swept = min s.irRuleWatermark s.rules.nRules := rfl
    rw [hn, hswept]
    exact RuleSlots.shrinks_compact firstPass (fun j hj => by omega) (by omega)
  | compose i rhs =>
    have hn : (s.rules.edit w.toRuleWorld ro (.compose i rhs)).nRules = s.rules.nRules := rfl
    refine h.edit (.inr ⟨rfl, ?_⟩) fun hincr => ?_
    · rcases hc with horient | ⟨-, hstale⟩
      · exact .inr (RuleSlots.shrinks_setRhs _ _ (.inl horient))
      · exact .inl hstale
    · rcases hc with horient | ⟨hi, -⟩
      · exact RuleSlots.shrinks_setRhs _ _ (.inl horient)
      · exact RuleSlots.shrinks_setRhs _ _ (.inr ((min_le_left _ _).trans (hi hincr)))
  | orient i =>
    refine h.edit (.inl (Nat.lt_succ_self _)) fun hincr => .of_same fun j hj => ?_
    have hi : s.irRuleWatermark ≤ i := hc hincr
    have hji : j ≠ i := fun hji => by
      have := hj.trans_le (min_le_left _ _)
      omega
    exact ⟨hj, rfl, rfl, Function.update_of_ne hji _ _⟩
  | touch rules =>
    obtain ⟨hl, hr, ho, hn, hrev⟩ := hallowed
    have hsame : ∀ k, RuleSlots.Shrinks w s.rules k rules k := fun k =>
      .of_same fun j hj => ⟨hj, congrFun hl j, congrFun hr j, congrFun ho j⟩
    refine h.edit (.inr ⟨hrev, .inr ?_⟩) fun _ => ?_
    · exact hn ▸ hsame _
    · rw [show (s.rules.edit w.toRuleWorld ro (.touch rules)).nRules = s.rules.nRules from hn]
      exact hsame _

/-- Whatever a careful step does, the two facts hold after it. -/
theorem inv_apply (h : s.Inv w) (op : QueueOp) (hallowed : s.Allowed op)
    (hc : s.Careful w o nf op) : (s.apply w ro o nf op).Inv w := by
  cases op with
  | push lhs rhs implicit trace =>
    have hmem : ∀ p ∈ (s.push lhs rhs implicit trace).cps, p ∈ s.cps ∨
        p = ⟨lhs, rhs, implicit, atpCpNormCookieNone, trace⟩ := fun p hp => by
      rcases List.mem_append.mp hp with hp | hp
      · exact .inl hp
      · exact .inr (List.mem_singleton.mp hp)
    constructor
    · intro p hp hne
      rcases hmem p hp with hp | rfl
      · exact h.stamped p hp hne
      · exact absurd rfl hne
    · intro hincr hpos p hp ht
      rcases hmem p hp with hp | rfl
      · exact h.swept hincr hpos p hp ht
      · exact hc hincr hpos (ht.resolve_right (not_not.mpr rfl))
  | edit e => exact inv_edit h e hallowed hc
  | setUseIncrIr on =>
    refine ⟨h.stamped, fun hon hpos p hp ht => ?_⟩
    have hon : on = true := hon
    subst hon
    have hswept : (s.setUseIncrIr true).swept = s.rules.nRules := min_self _
    rw [QueueState.apply, hswept]
    exact hc rfl hpos p hp ht
  | sweep => exact h.sweep hc
  | drop slot =>
    have hmem : ∀ p ∈ s.cps.eraseIdx slot, p ∈ s.cps := fun p hp => List.mem_of_mem_eraseIdx hp
    exact ⟨fun p hp => h.stamped p (hmem p hp), fun hincr hpos p hp => h.swept hincr hpos p (hmem p hp)⟩
  | reorder cps =>
    have hmem : ∀ p ∈ cps, p ∈ s.cps := fun p hp => hallowed.mem_iff.mp hp
    exact ⟨fun p hp => h.stamped p (hmem p hp), fun hincr hpos p hp => h.swept hincr hpos p (hmem p hp)⟩

/-! ## Runs -/

variable (w ro o nf)

def Call (s : QueueState) (op : QueueOp) (t : QueueState) : Prop :=
  s.Allowed op ∧ t = s.apply w ro o nf op

def Step (s : QueueState) (op : QueueOp) (t : QueueState) : Prop :=
  s.Careful w o nf op ∧ s.Call w ro o nf op t

/-- What the sweep leaves un-normalised is irreducible, and normalising it would have changed
nothing. -/
structure SkipsNormalForms (s : QueueState) : Prop where
  irreducible : ∀ p slot, (p, slot) ∈ s.cps.zipIdx → s.drops w o slot p = false →
    s.skips p = true → s.rules.Irreducible w p.lhs ∧ s.rules.Irreducible w p.rhs
  survivors : (s.atpCpSetInterreduce w o nf).cps.map (fun p => (p.lhs, p.rhs)) =
    (s.fullSweep w o nf).cps.map fun p => (p.lhs, p.rhs)

variable {w ro o nf}

theorem Inv.of_start (h : s.Start) : s.Inv w := by
  obtain ⟨hcps, hincr, -⟩ := h
  exact ⟨fun p hp => by simp [hcps] at hp, fun hon => by simp [hincr] at hon⟩

theorem inv_run {t : QueueState} {ops : List QueueOp} (hstart : s.Start)
    (hrun : Run (Step w ro o nf) s ops t) : t.Inv w := by
  refine Run.invariant (I := fun _ t => t.Inv w) (.of_start hstart) ?_ hrun
  rintro - t op u h ⟨hc, hallowed, rfl⟩
  exact inv_apply h op hallowed hc

theorem Inv.skipsNormalForms (h : s.Inv w) (hc : s.CarefulSweep w o nf) :
    s.SkipsNormalForms w o nf where
  irreducible p slot hp _ hskip := by
    have hmem : p ∈ s.cps := (List.mem_zipIdx' hp).2 ▸ List.getElem_mem _
    have hnormal := h.skipped hc hmem hskip
    exact ⟨hnormal.lhs, hnormal.rhs⟩
  survivors := by
    unfold atpCpSetInterreduce fullSweep sweepWith
    split
    · rfl
    · dsimp only
      rw [List.map_filterMap, List.map_filterMap]
      refine List.filterMap_congr fun q hq => ?_
      obtain ⟨p, slot⟩ := q
      have hmem : p ∈ s.cps := (List.mem_zipIdx' hq).2 ▸ List.getElem_mem _
      unfold QueueState.sweepPair
      dsimp only
      split
      · rfl
      · split
        · rename_i hskip
          obtain ⟨q, hq, hl, hr⟩ : ∃ q, s.normalizePair w nf slot p = some q ∧ _ :=
            normalizePair_of_normal (h.skipped hc hmem hskip)
          rw [hq, Option.map_some, Option.map_some, hl, hr]
        · rfl

/-- In a careful run every sweep comes out as one that normalises every pair. -/
theorem atpCpSetInterreduce_skipsNormalForms {t t' : QueueState} {ops : List QueueOp}
    (hstart : s.Start) (hrun : Run (Step w ro o nf) s ops t) (hcall : t.Step w ro o nf .sweep t') :
    t.SkipsNormalForms w o nf := by
  obtain ⟨hc, -, -⟩ := hcall
  exact (inv_run hstart hrun).skipsNormalForms hc

/-! ## Runs on fixed rules -/

def blank : QueueState := ⟨RuleSlots.blank, [], false, 0, 0⟩

/-- Terms are compared by their size. -/
def bySize : SweepWorld :=
  { RuleSlots.oneRedex (.num 0 0) (.num 0 0) with
    groundTotal := true
    interrupted := fun _ => false
    minConst := .ctr 1 []
    orphan := fun _ _ _ => false
    sameWord := fun _ => true }

def plain : SweepOptions := ⟨false, false⟩

def scan : Normalizer bySize := .scan bySize 64

def play (ops : List QueueOp) : QueueState :=
  ops.foldl (fun s op => s.apply bySize RuleSlots.noOptions plain scan op) blank

theorem start_blank : blank.Start := ⟨rfl, rfl, rfl⟩

/-- The pair `k(a) = b` is queued under the rule `g(k(a)) → a`. -/
def queuedOps : List QueueOp :=
  [.edit (.push (.ctr 3 [.ctr 4 [.ctr 1 []]]) (.ctr 1 [])),
    .push (.ctr 4 [.ctr 1 []]) (.ctr 2 []) false 0, .setUseIncrIr true]

/-- The rule `k(a) → a` collapses the first one, whose slot it moves into. Then `m(a) → b` is
added. -/
def movedOps : List QueueOp :=
  queuedOps ++ [.edit (.push (.ctr 4 [.ctr 1 []]) (.ctr 1 [])), .edit (.compact true 0),
    .edit (.push (.ctr 5 [.ctr 1 []]) (.ctr 2 []))]

/-- The symbols save the pair, which the rule below the watermark rewrites. -/
theorem atpCpSetInterreduce_skips_reducible : ∃ ops s,
    Run (Call bySize RuleSlots.noOptions plain scan) blank ops s ∧
      ¬s.SkipsNormalForms bySize plain scan := by
  have halong : Along (fun s op => s.apply bySize RuleSlots.noOptions plain scan op)
      (fun s op => s.Allowed op) blank movedOps :=
    ⟨trivial, trivial, trivial, trivial, (by decide +kernel : 0 < _), trivial, trivial⟩
  refine ⟨movedOps, play movedOps, run_along _ (fun s op h => ⟨h, rfl⟩) halong, fun h => ?_⟩
  have hirr := (h.irreducible ⟨.ctr 4 [.ctr 1 []], .ctr 2 [], false, atpCpNormCookieNone, 0⟩ 0
    (by decide +kernel) (by decide +kernel) (by decide +kernel)).1
  exact absurd hirr (by decide +kernel)

/-- The rule `m(a) → b` alone is added. -/
def addedOps : List QueueOp :=
  queuedOps ++ [.edit (.push (.ctr 5 [.ctr 1 []]) (.ctr 2 []))]

theorem atpCpSetInterreduce_skips_added :
    (play addedOps).SkipsNormalForms bySize plain scan := by
  have hcps : (play addedOps).cps =
      [⟨.ctr 4 [.ctr 1 []], .ctr 2 [], false, atpCpNormCookieNone, 0⟩] := by decide +kernel
  have hskip : ∀ p ∈ (play addedOps).cps, (play addedOps).skips p = true := by decide +kernel
  have hsweep : (play addedOps).CarefulSweep bySize plain scan := by
    refine ⟨by decide +kernel, fun p slot hp _ hnot => ?_, fun _ _ i hi pat hpat => ?_⟩
    · have hmem := (List.mem_zipIdx' hp).2 ▸ List.getElem_mem _
      exact absurd (hskip p hmem) (Bool.eq_false_iff.mp hnot)
    · have h1 : (play addedOps).irRuleWatermark = 1 := by decide +kernel
      have h2 : (play addedOps).rules.nRules = 2 := by decide +kernel
      obtain ⟨hle, hlt⟩ := hi
      obtain rfl : i = 1 := by omega
      have hfaces : (play addedOps).rules.faces bySize 1 = [.ctr 5 [.ctr 1 []]] := by
        decide +kernel
      rw [hfaces] at hpat
      obtain rfl := List.mem_singleton.mp hpat
      have hlhs : (play addedOps).rules.lhs 1 = .ctr 5 [.ctr 1 []] := by decide +kernel
      refine ⟨1, ⟨hle, hlt⟩, fun label args heq => ?_⟩
      rw [hlhs] at heq
      cases heq
      rfl
  have halong : Along (fun s op => s.apply bySize RuleSlots.noOptions plain scan op)
      (fun s op => s.Careful bySize plain scan op ∧ s.Allowed op) blank addedOps := by
    refine ⟨⟨nofun, trivial⟩, ⟨nofun, trivial⟩, ⟨fun _ _ p hp _ => ?_, trivial⟩,
      ⟨fun _ => by decide +kernel, trivial⟩, trivial⟩
    have hp : p = ⟨.ctr 4 [.ctr 1 []], .ctr 2 [], false, atpCpNormCookieNone, 0⟩ :=
      List.mem_singleton.mp hp
    subst hp
    exact ⟨by decide, (by decide +kernel : RuleSlots.Irreducible bySize _ _),
      (by decide +kernel : RuleSlots.Irreducible bySize _ _)⟩
  have hrun := run_along (Step bySize RuleSlots.noOptions plain scan)
    (fun s op h => ⟨h.1, h.2, rfl⟩) halong
  exact atpCpSetInterreduce_skipsNormalForms start_blank hrun ⟨hsweep, trivial, rfl⟩

end QueueState

end Thvm.Atp
