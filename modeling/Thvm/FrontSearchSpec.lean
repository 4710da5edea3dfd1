import Thvm.FrontSearch
import Thvm.ProofExtractionSpec
import Thvm.TransitionRuns

/-!
# Proofs from the fronts

Each term of a front is one rewrite away from its parent, by an equation that the trace keeps.
So the edge that is found again is that rewrite, and the two lines of ancestors make a proof as
long as they reach back to the sides of the goal.
-/

namespace Thvm.Atp
open RewriteChains TransitionRuns

/-! ## Rewrites of a front -/

section
variable {eqs eqs' : List (FTerm × FTerm)} {t u : FTerm} {q : List ℕ} {b : ℕ → Option FTerm}

/-- A rule fires at the top, forward, or backward when that brings no variables. -/
def TopFires (eqs : List (FTerm × FTerm)) (t u : FTerm) : Prop :=
  ∃ eq ∈ eqs, mnfFire eq.1 eq.2 t = some u ∨
    (atpVarsContained eq.2 eq.1 = true ∧ mnfFire eq.2 eq.1 t = some u)

theorem TopFires.mono (hsub : ∀ eq ∈ eqs, eq ∈ eqs') (h : TopFires eqs t u) : TopFires eqs' t u := by
  obtain ⟨eq, heq, hfires⟩ := h
  exact ⟨eq, hsub eq heq, hfires⟩

/-- One rewrite, somewhere. -/
def OneStep (eqs : List (FTerm × FTerm)) (t u : FTerm) : Prop := ∃ q, StepAt (TopFires eqs) q t u

theorem OneStep.mono (hsub : ∀ eq ∈ eqs, eq ∈ eqs') (h : OneStep eqs t u) : OneStep eqs' t u := by
  obtain ⟨q, hstep⟩ := h
  exact ⟨q, hstep.mono fun _ _ => TopFires.mono hsub⟩

theorem OneStep.arg {label i : ℕ} {args : List FTerm} {a v : FTerm} (ha : args[i]? = some a)
    (h : OneStep eqs a v) : OneStep eqs (.node label args) (.node label (args.set i v)) := by
  obtain ⟨q, hstep⟩ := h
  exact ⟨i :: q, hstep.arg ha⟩

/-! ## Successors -/

variable {cut : ℕ → Bool} {allowAnti : Bool} {rules : List ProverRule}

/-- The sides of the rules. -/
def sides (rules : List ProverRule) : List (FTerm × FTerm) := rules.map fun r => (r.lhs, r.rhs)

theorem mnfForward_topFires {size : ℕ} {r : ProverRule} {x : FTerm × Bool}
    (h : x ∈ mnfForward t size r) : TopFires [(r.lhs, r.rhs)] t x.1 := by
  unfold mnfForward at h
  split at h
  · obtain ⟨u, hu, rfl⟩ := List.mem_map.mp h
    exact ⟨_, List.mem_cons_self, .inl (Option.mem_toList.mp hu)⟩
  · cases h

theorem mnfBackward_topFires {size : ℕ} {r : ProverRule} {x : FTerm × Bool}
    (h : x ∈ mnfBackward allowAnti t size r) : TopFires [(r.lhs, r.rhs)] t x.1 := by
  unfold mnfBackward at h
  split at h
  · next hanti =>
    obtain ⟨u, hu, rfl⟩ := List.mem_map.mp h
    simp only [Bool.and_eq_true] at hanti
    exact ⟨_, List.mem_cons_self, .inr ⟨hanti.1.2, Option.mem_toList.mp hu⟩⟩
  · cases h

theorem mnfTryRules_topFires {size n : ℕ} {x : FTerm × Bool}
    (h : x ∈ mnfTryRules allowAnti t size rules n) : TopFires (sides rules) t x.1 := by
  induction rules generalizing n with
  | nil => cases h
  | cons r rs ih =>
    have hhead : TopFires [(r.lhs, r.rhs)] t x.1 → TopFires (sides (r :: rs)) t x.1 :=
      TopFires.mono fun eq heq => List.mem_singleton.mp heq ▸ List.mem_cons_self
    rw [mnfTryRules] at h
    split at h
    · cases h
    · simp only at h
      split at h
      · exact hhead (mnfForward_topFires h)
      · rw [List.mem_append, List.mem_append] at h
        rcases h with (hx | hx) | hx
        · exact hhead (mnfForward_topFires hx)
        · exact hhead (mnfBackward_topFires hx)
        · exact (ih hx).mono fun eq heq => List.mem_cons_of_mem _ heq

theorem mnfSuccessorsArgs_oneStep {label i ticks n : ℕ} {all as : List FTerm} {x : FTerm × Bool}
    (hall : ∀ k, as[k]? = all[i + k]?)
    (ih : ∀ a ∈ as, ∀ ticks n, ∀ x ∈ (mnfSuccessors cut allowAnti rules a ticks n).2.2,
      OneStep (sides rules) a x.1)
    (h : x ∈ (mnfSuccessorsArgs cut allowAnti rules label all i as ticks n).2.2) :
    OneStep (sides rules) (.node label all) x.1 := by
  induction as generalizing i ticks n with
  | nil => cases h
  | cons a as ihas =>
    rw [mnfSuccessorsArgs] at h
    simp only [List.mem_append] at h
    rcases h with hx | hx
    · obtain ⟨u, hu, rfl⟩ := List.mem_map.mp hx
      exact (ih a List.mem_cons_self _ _ u hu).arg (hall 0).symm
    · refine ihas (fun k => ?_) (fun a' ha' => ih a' (List.mem_cons_of_mem _ ha')) hx
      have := hall (k + 1)
      rwa [List.getElem?_cons_succ, show i + (k + 1) = i + 1 + k by omega] at this

/-- Every successor is one rewrite away. -/
theorem mnfSuccessors_oneStep {ticks n : ℕ} {x : FTerm × Bool}
    (h : x ∈ (mnfSuccessors cut allowAnti rules t ticks n).2.2) : OneStep (sides rules) t x.1 := by
  induction t using TermTree.induct generalizing ticks n x with
  | leaf l =>
    rw [mnfSuccessors] at h
    split at h
    · cases h
    · exact ⟨[], .root (mnfTryRules_topFires h)⟩
  | node label args ih =>
    rw [mnfSuccessors] at h
    split at h
    · cases h
    · split at h
      · cases h
      · simp only [List.mem_append] at h
        rcases h with hx | hx
        · exact mnfSuccessorsArgs_oneStep (fun k => by rw [Nat.zero_add])
            (fun a ha ticks n x hx => ih a ha hx) hx
        · exact ⟨[], .root (mnfTryRules_topFires hx)⟩

/-! ## The edge found again -/

variable {hist : List HistRule} {named : ℕ → Option (FTerm × FTerm)} {e : Edge} {depth : ℕ}

/-- A slot is dead, or its equation is the one that it names. -/
structure HistRule.Named (named : ℕ → Option (FTerm × FTerm)) (r : HistRule) : Prop where
  named : r.lhs = mnfDeadSentinel ∧ r.rhs = mnfDeadSentinel ∨ named r.trace = some (r.lhs, r.rhs)
  substitutable : r.lhs.Substitutable ∧ r.rhs.Substitutable

/-- The equation of an edge does the rewrite. -/
def Edge.Finds (hist : List HistRule) (named : ℕ → Option (FTerm × FTerm)) (e : Edge)
    (t u : FTerm) : Prop :=
  ∃ r eq, hist[e.rule]? = some r ∧ named r.trace = some eq ∧
    StepAt (InstanceOf (face eq e.fwd)) e.pos t u

theorem mnfFire_dead {other : FTerm} : mnfFire mnfDeadSentinel other t = none := by
  simp [mnfFire, mnfDeadSentinel, thvmMatch, rewriteMaxVar]

theorem mnfFire_instanceOf {pat other : FTerm} (hother : other.Substitutable)
    (h : mnfFire pat other t = some u) : InstanceOf (pat, other) t u := by
  unfold mnfFire at h
  cases hmatch : thvmMatch pat t fun _ => none with
  | mk ok b =>
    cases ok with
    | false => simp [hmatch] at h
    | true =>
      simp only [hmatch, if_true] at h
      obtain rfl := Option.some.inj h
      exact thvmMatch_instanceOf hother hmatch

theorem any_kboEq {x : Option FTerm} : (x.any fun repl => kboEq repl u) = true ↔ x = some u := by
  cases x with
  | none => simp
  | some v => simp

theorem mnfEdgeRule_finds {r : HistRule} {j : ℕ} (hj : hist[j]? = some r) (hr : r.Named named)
    (h : mnfEdgeRule t u r j = some e) : e.Finds hist named t u := by
  have hlive : (∀ {pat other v}, pat = mnfDeadSentinel → mnfFire pat other t ≠ some v) := by
    rintro pat other v rfl
    rw [mnfFire_dead]
    exact nofun
  unfold mnfEdgeRule at h
  split at h
  · next hfwd =>
    obtain rfl := Option.some.inj h
    have hfire := any_kboEq.mp hfwd
    have hnamed := hr.named.resolve_left fun hdead => hlive hdead.1 hfire
    exact ⟨r, _, hj, hnamed, .root (mnfFire_instanceOf hr.substitutable.2 hfire)⟩
  · split at h
    · split at h
      · next hbwd =>
        obtain rfl := Option.some.inj h
        have hfire := any_kboEq.mp hbwd
        have hnamed := hr.named.resolve_left fun hdead => hlive hdead.2 hfire
        exact ⟨r, _, hj, hnamed, .root (mnfFire_instanceOf hr.substitutable.1 hfire)⟩
      · cases h
    · cases h

theorem mnfEdgeRule_eq_none {r : HistRule} {j : ℕ} (h : mnfEdgeRule t u r j = none) :
    mnfFire r.lhs r.rhs t ≠ some u ∧
      ¬(atpVarsContained r.rhs r.lhs = true ∧ mnfFire r.rhs r.lhs t = some u) := by
  unfold mnfEdgeRule at h
  split at h
  · cases h
  · next hfwd =>
    refine ⟨fun hfire => hfwd (any_kboEq.mpr hfire), ?_⟩
    rintro ⟨hvars, hfire⟩
    rw [if_pos hvars, if_pos (any_kboEq.mpr hfire)] at h
    cases h

theorem mnfEdgeTop_finds (hhist : ∀ r ∈ hist, r.Named named) (h : mnfEdgeTop hist t u = some e) :
    e.Finds hist named t u := by
  obtain ⟨⟨r, j⟩, hmem, hrule⟩ := List.exists_of_findSome?_eq_some h
  have hj : hist[j]? = some r := List.mk_mem_zipIdx_iff_getElem?.mp hmem
  exact mnfEdgeRule_finds hj (hhist r (List.mem_of_getElem? hj)) hrule

/-- An equation of the history that fires at the top is found there. -/
theorem mnfEdgeTop_ne_none (heqs : ∀ eq ∈ eqs, ∃ r ∈ hist, (r.lhs, r.rhs) = eq)
    (h : TopFires eqs t u) : mnfEdgeTop hist t u ≠ none := by
  intro hnone
  obtain ⟨eq, heq, hfires⟩ := h
  obtain ⟨r, hr, rfl⟩ := heqs eq heq
  obtain ⟨j, hj⟩ := List.mem_iff_getElem?.mp hr
  have hrule := List.findSome?_eq_none_iff.mp hnone (r, j) (List.mk_mem_zipIdx_iff_getElem?.mpr hj)
  obtain ⟨hfwd, hbwd⟩ := mnfEdgeRule_eq_none hrule
  exact hfires.elim hfwd hbwd

theorem mnfEdgeArgs_self {i : ℕ} (as : List FTerm) : mnfEdgeArgs hist depth i as as = none := by
  induction as generalizing i with
  | nil => rfl
  | cons a as ih => rw [mnfEdgeArgs, if_pos (kboEq_iff.mpr rfl), ih]

/-- When the arguments differ in one place, the edge is found there. -/
theorem mnfEdgeArgs_set {as : List FTerm} {i k : ℕ} {a b : FTerm} (ha : as[k]? = some a)
    (h : mnfEdgeArgs hist depth i as (as.set k b) = some e) :
    ∃ e', mnfEdgeStep hist depth a b = some e' ∧ e = { e' with pos := (i + k) :: e'.pos } := by
  induction as generalizing i k with
  | nil => cases ha
  | cons a' as ih =>
    cases k with
    | zero =>
      obtain rfl := Option.some.inj ha
      rw [List.set_cons_zero, mnfEdgeArgs] at h
      split at h
      · rw [mnfEdgeArgs_self] at h
        cases h
      · split at h
        · next e' he' => exact ⟨e', he', (Option.some.inj h).symm⟩
        · rw [mnfEdgeArgs_self] at h
          cases h
    | succ k =>
      rw [List.set_cons_succ, mnfEdgeArgs, if_pos (kboEq_iff.mpr rfl)] at h
      obtain ⟨e', he', rfl⟩ := ih ha h
      exact ⟨e', he', by rw [Nat.add_right_comm, Nat.add_assoc]⟩

/-- The edge that is found between a term and a rewrite of it is a rewrite. -/
theorem mnfEdgeStep_finds (hhist : ∀ r ∈ hist, r.Named named)
    (heqs : ∀ eq ∈ eqs, ∃ r ∈ hist, (r.lhs, r.rhs) = eq) (hstep : StepAt (TopFires eqs) q t u)
    (h : mnfEdgeStep hist depth t u = some e) : e.Finds hist named t u := by
  induction t using TermTree.induct generalizing u q depth e with
  | leaf l =>
    rw [mnfEdgeStep] at h
    exact mnfEdgeTop_finds hhist h
  | node f as ih =>
    unfold mnfEdgeStep at h
    split at h
    · next e' he' =>
      obtain rfl := Option.some.inj h
      exact mnfEdgeTop_finds hhist he'
    · next hnone =>
      cases q with
      | nil => exact absurd hnone (mnfEdgeTop_ne_none heqs (stepAt_nil.mp hstep))
      | cons i q =>
        obtain ⟨g, args, a, b, hnode, ha, hbelow, rfl⟩ := stepAt_cons.mp hstep
        obtain ⟨rfl, rfl⟩ := TermTree.node.inj hnode
        simp only at h
        split at h
        · obtain ⟨e', he', rfl⟩ := mnfEdgeArgs_set ha h
          obtain ⟨r, eq, hr, hnamed, hfound⟩ := ih a (List.mem_of_getElem? ha) hbelow he'
          refine ⟨r, eq, hr, hnamed, ?_⟩
          rw [Nat.zero_add]
          exact hfound.arg ha
        · cases h

end

/-! ## The table -/

namespace AtpMnf

variable {m m' : AtpMnf} {eqs eqs' : List (FTerm × FTerm)} {t : FTerm} {col : Colour}
  {i ni anti : ℕ} {n : MnfNode}

/-- Every node but the seeds is one rewrite away from its parent, which is older and of the same
colour. Where the fronts have met, the new term was reached from the other one. -/
structure Inv (eqs : List (FTerm × FTerm)) (m : AtpMnf) : Prop where
  size : m.nodes.length ≤ mnfMaxNodes
  older : ∀ i < m.nodes.length, (m.node i).parent ≤ i
  colour : ∀ i < m.nodes.length, (m.node (m.node i).parent).colour = (m.node i).colour
  step : ∀ i < m.nodes.length, (m.node i).parent ≠ i →
    OneStep eqs (m.node (m.node i).parent).term (m.node i).term
  meetA : m.joined = true → m.meetA < m.nodes.length ∧ (m.node m.meetA).term = m.meetTerm ∧
    (m.node m.meetA).colour ≠ m.meetBCol
  meetB : m.joined = true → m.meetBParent < m.nodes.length ∧
    (m.node m.meetBParent).colour = m.meetBCol ∧ OneStep eqs (m.node m.meetBParent).term m.meetTerm

theorem Inv.mono (hsub : ∀ eq ∈ eqs, eq ∈ eqs') (h : m.Inv eqs) : m.Inv eqs' where
  size := h.size
  older := h.older
  colour := h.colour
  step := fun i hi hne => (h.step i hi hne).mono hsub
  meetA := h.meetA
  meetB := fun hjoined => by
    obtain ⟨hlt, hcol, hstep⟩ := h.meetB hjoined
    exact ⟨hlt, hcol, hstep.mono hsub⟩

/-- The table with another node at its end. -/
def push (m : AtpMnf) (n : MnfNode) : AtpMnf := { m with nodes := m.nodes ++ [n] }

theorem length_push : (m.push n).nodes.length = m.nodes.length + 1 := by
  rw [push, List.length_append]
  rfl

theorem node_push_of_lt (hi : i < m.nodes.length) : (m.push n).node i = m.node i := by
  rw [node, node, push, List.getElem?_append_left hi]

theorem node_push_self : (m.push n).node m.nodes.length = n := by
  rw [node, push, List.getElem?_concat_length, Option.getD_some]

/-- A seed, or a rewrite of an older node, is put at the end of the table. -/
theorem Inv.push (h : m.Inv eqs) (hroom : m.nodes.length < mnfMaxNodes)
    (hn : n.parent = m.nodes.length ∨ n.parent < m.nodes.length ∧
      (m.node n.parent).colour = n.colour ∧ OneStep eqs (m.node n.parent).term n.term) :
    (m.push n).Inv eqs := by
  have hold : ∀ i < m.nodes.length, (m.push n).node (m.node i).parent = m.node (m.node i).parent :=
    fun i hi => node_push_of_lt ((h.older i hi).trans_lt hi)
  refine ⟨?_, fun i hi => ?_, fun i hi => ?_, fun i hi hne => ?_, fun hjoined => ?_,
    fun hjoined => ?_⟩
  · rw [length_push]
    exact hroom
  · rw [length_push, Nat.lt_succ_iff_lt_or_eq] at hi
    rcases hi with hi | rfl
    · rw [node_push_of_lt hi]
      exact h.older i hi
    · rw [node_push_self]
      omega
  · rw [length_push, Nat.lt_succ_iff_lt_or_eq] at hi
    rcases hi with hi | rfl
    · rw [node_push_of_lt hi, hold i hi]
      exact h.colour i hi
    · rw [node_push_self]
      rcases hn with heq | ⟨hlt, hcol, _⟩
      · rw [heq, node_push_self]
      · rw [node_push_of_lt hlt, hcol]
  · rw [length_push, Nat.lt_succ_iff_lt_or_eq] at hi
    rcases hi with hi | rfl
    · rw [node_push_of_lt hi] at hne ⊢
      rw [hold i hi]
      exact h.step i hi hne
    · rw [node_push_self] at hne ⊢
      rcases hn with heq | ⟨hlt, _, hstep⟩
      · exact absurd heq hne
      · rw [node_push_of_lt hlt]
        exact hstep
  · obtain ⟨hlt, hterm, hcol⟩ := h.meetA hjoined
    refine ⟨?_, ?_⟩
    · rw [length_push]
      exact Nat.lt_succ_of_lt hlt
    · rw [show (m.push n).meetA = m.meetA from rfl, node_push_of_lt hlt]
      exact ⟨hterm, hcol⟩
  · obtain ⟨hlt, hcol, hstep⟩ := h.meetB hjoined
    refine ⟨?_, ?_⟩
    · rw [length_push]
      exact Nat.lt_succ_of_lt hlt
    · rw [show (m.push n).meetBParent = m.meetBParent from rfl, node_push_of_lt hlt]
      exact ⟨hcol, hstep⟩

/-- The older nodes are as they were. -/
def Extends (m m' : AtpMnf) : Prop :=
  m.nodes.length ≤ m'.nodes.length ∧ ∀ i < m.nodes.length, m'.node i = m.node i

theorem Extends.refl (m : AtpMnf) : m.Extends m := ⟨le_rfl, fun _ _ => rfl⟩

theorem Extends.trans {m₁ m₂ : AtpMnf} (h : m.Extends m₁) (h' : m₁.Extends m₂) : m.Extends m₂ :=
  ⟨h.1.trans h'.1, fun i hi => (h'.2 i (hi.trans_le h.1)).trans (h.2 i hi)⟩

theorem Extends.push : m.Extends (m.push n) :=
  ⟨by rw [length_push]; exact Nat.le_succ _, fun _ hi => node_push_of_lt hi⟩

/-- A rewrite of node `ni` is put into the table, where it may be already. -/
theorem Inv.insert (anti : ℕ) (h : m.Inv eqs) (hni : ni < m.nodes.length)
    (hstep : OneStep eqs (m.node ni).term t) :
    (m.mnfInsert t (m.node ni).colour anti ni).Inv eqs ∧
      m.Extends (m.mnfInsert t (m.node ni).colour anti ni) := by
  unfold mnfInsert
  split
  · next idx hidx =>
    obtain ⟨hlt, hterm, -⟩ := List.findIdx?_eq_some_iff_getElem.mp hidx
    have hnode : m.node idx = m.nodes[idx] := by
      rw [node, List.getElem?_eq_getElem hlt, Option.getD_some]
    split
    · next hcol =>
      refine ⟨⟨h.size, h.older, h.colour, h.step, fun _ => ⟨hlt, ?_, hcol⟩,
        fun _ => ⟨hni, rfl, hstep⟩⟩, .refl m⟩
      exact (congrArg MnfNode.term hnode).trans (kboEq_iff.mp hterm)
    · exact ⟨h, .refl m⟩
  · simp only
    split
    · exact ⟨h, .refl m⟩
    · next hroom =>
      have hroom := Nat.lt_of_not_le hroom
      have hroot : ni ≠ mnfRootParent := by
        have hsize := h.size
        simp only [mnfRootParent, mnfMaxNodes] at hsize ⊢
        omega
      rw [if_neg hroot]
      exact ⟨h.push hroom (.inr ⟨hni, rfl, hstep⟩), .push⟩

/-- All successors of a node are put into the table. -/
theorem Inv.inserts {succ : List (FTerm × Bool)} (h : m.Inv eqs) (hni : ni < m.nodes.length)
    (hn : m.node ni = n) (hsucc : ∀ u ∈ succ, OneStep eqs n.term u.1) :
    (succ.foldl (fun m u => if m.joined then m
      else m.mnfInsert u.1 n.colour (if u.2 then n.anti + 1 else n.anti) ni) m).Inv eqs := by
  induction succ generalizing m with
  | nil => exact h
  | cons u us ih =>
    obtain ⟨hu, hus⟩ := List.forall_mem_cons.mp hsucc
    rw [List.foldl_cons]
    split
    · exact ih h hni hn hus
    · obtain ⟨hinv, hlen, hkept⟩ := h.insert (if u.2 then n.anti + 1 else n.anti) hni
        (hn ▸ hu)
      rw [hn] at hinv hlen hkept
      exact ih hinv (hni.trans_le hlen) ((hkept ni hni).trans hn) hus

theorem inv_mnfCreate {goal : FTerm × FTerm} (hne : goal.1 ≠ goal.2) :
    (FrontState.mnfCreate goal).Inv eqs := by
  let empty : AtpMnf := ⟨[], false, 0, 0, .fvr 0, .red⟩
  let green : MnfNode := ⟨goal.1, 0, .green, 0⟩
  let red : MnfNode := ⟨goal.2, 1, .red, 0⟩
  have hcreate : FrontState.mnfCreate goal = (empty.push green).push red := by
    have hneq : kboEq goal.1 goal.2 = false :=
      Bool.eq_false_iff.mpr fun heq => hne (kboEq_iff.mp heq)
    simp [FrontState.mnfCreate, mnfInsert, mnfLookup, push, empty, green, red, hneq, mnfMaxNodes]
  have hempty : empty.Inv eqs :=
    ⟨Nat.zero_le _, fun i hi => absurd hi (Nat.not_lt_zero i), fun i hi => absurd hi (Nat.not_lt_zero i),
      fun i hi => absurd hi (Nat.not_lt_zero i), fun h => (by cases h), fun h => (by cases h)⟩
  rw [hcreate]
  exact (hempty.push (by decide) (.inl rfl)).push (by simp [length_push, empty, mnfMaxNodes])
    (.inl rfl)

/-! ## Ancestors -/

/-- The ancestors of a node, each one rewrite after the next. -/
theorem Inv.climb_chain (h : m.Inv eqs) (hni : ni < m.nodes.length) (rounds : ℕ) :
    (mnfClimb m rounds ni).IsChain fun c p => OneStep eqs (m.node p).term (m.node c).term := by
  induction rounds generalizing ni with
  | zero => exact .nil
  | succ rounds ih =>
    rw [mnfClimb]
    split
    · exact .singleton ni
    · next hne =>
      have hstep := h.step ni hni hne
      have hrest := ih ((h.older ni hni).trans_lt hni)
      cases rounds with
      | zero => exact .singleton ni
      | succ rounds =>
        rw [mnfClimb] at hrest ⊢
        exact .cons_cons hstep hrest

end AtpMnf

section
variable {m : AtpMnf} {eqs : List (FTerm × FTerm)} {ni cap side : ℕ} {hist : List HistRule}
  {named : ℕ → Option (FTerm × FTerm)} {before after : FTerm} {out out' : List ProofStep}

/-- A line of ancestors, the oldest one first. -/
theorem AtpMnf.Inv.lineage (h : m.Inv eqs) (hni : ni < m.nodes.length) (hcap : 0 < cap) :
    ∃ rest, rest ++ [ni] = mnfCollectLineage m ni cap ∧
      (rest ++ [ni]).IsChain fun p c => OneStep eqs (m.node p).term (m.node c).term := by
  unfold mnfCollectLineage
  obtain ⟨rounds, hrounds⟩ : ∃ k, min (min cap (atpProofMaxSteps + 2)) (m.nodes.length + 1) = k + 1 :=
    Nat.exists_eq_succ_of_ne_zero (by simp [atpProofMaxSteps]; omega)
  have hchain := h.climb_chain hni (rounds + 1)
  rw [hrounds]
  rw [mnfClimb] at hchain ⊢
  refine ⟨_, List.reverse_cons.symm, ?_⟩
  rw [← List.reverse_cons, List.isChain_reverse]
  exact hchain

/-! ## Emission -/

/-- An edge that is written out is a valid step. -/
theorem mnfEmitEdge_step (hhist : ∀ r ∈ hist, r.Named named)
    (heqs : ∀ eq ∈ eqs, ∃ r ∈ hist, (r.lhs, r.rhs) = eq) (hstep : OneStep eqs before after)
    (h : mnfEmitEdge hist cap side before after out = some out') :
    ∃ st, out' = out ++ [st] ∧ Trail named side before [st] after := by
  obtain ⟨q, hstep⟩ := hstep
  unfold mnfEmitEdge at h
  split at h
  · cases h
  · next e he =>
    split at h
    · cases h
    · obtain rfl := Option.some.inj h
      obtain ⟨r, eq, hr, hnamed, hfound⟩ := mnfEdgeStep_finds hhist heqs hstep he
      refine ⟨_, rfl, ⟨⟨rfl, trivial⟩, rfl, List.forall_mem_singleton.mpr rfl,
        List.forall_mem_singleton.mpr ⟨eq, ?_, hfound⟩⟩⟩
      rw [hr]
      exact hnamed

/-- A line of ancestors that is written out is a chain of valid steps. -/
theorem mnfEmitLineage_trail (hhist : ∀ r ∈ hist, r.Named named)
    (heqs : ∀ eq ∈ eqs, ∃ r ∈ hist, (r.lhs, r.rhs) = eq) {n : ℕ} {ns : List ℕ}
    (hchain : (n :: ns).IsChain fun p c => OneStep eqs (m.node p).term (m.node c).term)
    (h : mnfEmitLineage hist m cap side (n :: ns) out = some out') :
    ∃ new, out' = out ++ new ∧
      Trail named side (m.node n).term new (m.node ((n :: ns).getLastD 0)).term := by
  induction ns generalizing n out with
  | nil =>
    obtain rfl := Option.some.inj h
    exact ⟨[], (List.append_nil out).symm, .nil⟩
  | cons n' ns ih =>
    rw [mnfEmitLineage] at h
    split at h
    · cases h
    · next out₁ hedge =>
      obtain ⟨hstep, hrest⟩ := List.isChain_cons_cons.mp hchain
      obtain ⟨st, rfl, hst⟩ := mnfEmitEdge_step hhist heqs hstep hedge
      obtain ⟨new, rfl, hnew⟩ := ih hrest h
      exact ⟨st :: new, by simp, hst.append hnew⟩

end

namespace FrontState

variable {s s' : FrontState} {op : FrontOp} {cut : ℕ → Bool} {es : List TraceEntry}

/-- The equation that a trace index names. -/
def named (s : FrontState) (i : ℕ) : Option (FTerm × FTerm) :=
  s.trace[i]?.map fun e => (e.lhs, e.rhs)

/-- The equations that were rules. -/
def usable (s : FrontState) : List (FTerm × FTerm) :=
  (s.trace.filter TraceEntry.wasRule).map fun e => (e.lhs, e.rhs)

/-- A rule is dead, or the trace has it. -/
def Traced (log : List TraceEntry) (r : ProverRule) : Prop :=
  r.lhs = mnfDeadSentinel ∧ r.rhs = mnfDeadSentinel ∨
    ∃ e, log[r.trace]? = some e ∧ e.wasRule = true ∧ e.lhs = r.lhs ∧ e.rhs = r.rhs

/-- The history is complete, and the fronts were built with it. -/
structure Inv (s : FrontState) : Prop where
  rules : ∀ r ∈ s.rules, Traced s.trace r
  narrow : ∀ e ∈ s.trace, e.lhs.ArityCapped ∧ e.rhs.ArityCapped
  table : ∀ m, s.mnf = some m → m.Inv s.usable

theorem Traced.append {log : List TraceEntry} {r : ProverRule} (h : Traced log r) :
    Traced (log ++ es) r := by
  rcases h with hdead | ⟨e, he, hrule, hsides⟩
  · exact .inl hdead
  · refine .inr ⟨e, ?_, hrule, hsides⟩
    rwa [List.getElem?_append_left (List.getElem?_eq_some_iff.mp he).1]

/-- The trace only grows, and every rule stays in it. -/
theorem Inv.extend (h : s.Inv) (htrace : s'.trace = s.trace ++ es)
    (hes : ∀ e ∈ es, e.lhs.ArityCapped ∧ e.rhs.ArityCapped)
    (hrules : ∀ r ∈ s'.rules, r ∈ s.rules ∨ Traced s'.trace r)
    (hmnf : ∀ m, s'.mnf = some m → s.mnf = some m) : s'.Inv where
  rules := fun r hr => (hrules r hr).elim (fun hr => htrace ▸ (h.rules r hr).append) id
  narrow := by
    intro e he
    rw [htrace] at he
    rcases List.mem_append.mp he with he | he
    · exact h.narrow e he
    · exact hes e he
  table := by
    intro m hm
    refine (h.table m (hmnf m hm)).mono fun eq heq => ?_
    rw [usable, htrace, List.filter_append, List.map_append]
    exact List.mem_append_left _ heq

/-- What a rule of a slice does is done by an equation of the history. -/
theorem Inv.topFires (h : s.Inv) {rules : List ProverRule} (hrules : ∀ r ∈ rules, r ∈ s.rules)
    {t u : FTerm} (hfires : TopFires (sides rules) t u) : TopFires s.usable t u := by
  obtain ⟨eq, heq, hfires⟩ := hfires
  obtain ⟨r, hr, rfl⟩ := List.mem_map.mp heq
  rcases h.rules r (hrules r hr) with ⟨hlhs, hrhs⟩ | ⟨e, he, hrule, hlhs, hrhs⟩
  · simp [hlhs, hrhs, mnfFire_dead] at hfires
  · refine ⟨_, List.mem_map.mpr ⟨e, List.mem_filter.mpr ⟨List.mem_of_getElem? he, hrule⟩, rfl⟩, ?_⟩
    rw [hlhs, hrhs]
    exact hfires

theorem Inv.expandNode (h : s.Inv) {m : AtpMnf} (hm : s.mnf = some m) {ni : ℕ}
    (hni : ni < m.nodes.length) (lo hi : ℕ) : (s.mnfExpandNode cut m ni lo hi).Inv := by
  refine ⟨h.rules, h.narrow, fun m' hm' => ?_⟩
  obtain rfl := Option.some.inj hm'
  refine (h.table m hm).inserts hni rfl fun u hu => ?_
  obtain ⟨q, hstep⟩ := mnfSuccessors_oneStep hu
  exact ⟨q, hstep.mono fun _ _ => h.topFires fun r hr => List.mem_of_mem_drop (List.mem_of_mem_take hr)⟩

/-- The operations that the prover performs. The fronts start from two different terms, since
`thvm_atp_goal_check` has compared them, and equations have narrow terms only. -/
def Allowed (s : FrontState) : FrontOp → Prop
  | .addRule lhs rhs _ _ => lhs.ArityCapped ∧ rhs.ArityCapped
  | .composeRule _ rhs => rhs.ArityCapped
  | .note e => e.lhs.ArityCapped ∧ e.rhs.ArityCapped
  | .create => s.mnf = none ∧ ∃ goal, s.goal = some goal ∧ goal.1 ≠ goal.2
  | .expand ni _ _ => ∃ m, s.mnf = some m ∧ ni < m.nodes.length
  | _ => True

def Step (cut : ℕ → Bool) (s : FrontState) (op : FrontOp) (s' : FrontState) : Prop :=
  s.Allowed op ∧ s' = s.apply cut op

theorem Traced.last {lhs rhs : FTerm} {orient fvi : Bool} {log : List TraceEntry} :
    Traced (log ++ [⟨if fvi then .traceFvi else .traceOrient, lhs, rhs⟩])
      ⟨lhs, rhs, orient, log.length⟩ :=
  .inr ⟨_, List.getElem?_concat_length, by cases fvi <;> rfl, rfl, rfl⟩

theorem Step.inv (h : s.Inv) (hstep : Step cut s op s') : s'.Inv := by
  obtain ⟨hallowed, rfl⟩ := hstep
  have hkeep : ∀ m, s.mnf = some m → s.mnf = some m := fun _ hm => hm
  cases op with
  | addRule lhs rhs orient fvi =>
    refine h.extend rfl (List.forall_mem_singleton.mpr hallowed) (fun r hr => ?_) hkeep
    rcases List.mem_append.mp hr with hr | hr
    · exact .inl hr
    · obtain rfl := List.mem_singleton.mp hr
      exact .inr .last
  | killRule i =>
    refine h.extend (List.append_nil _).symm (fun _ he => nomatch he) (fun r hr => ?_) hkeep
    obtain ⟨j, hj⟩ := List.mem_iff_getElem?.mp hr
    obtain ⟨r₀, hr₀, rfl⟩ := Option.map_eq_some_iff.mp ((List.getElem?_modify ..).symm.trans hj)
    split
    · exact .inr (.inl ⟨rfl, rfl⟩)
    · exact .inl (List.mem_of_getElem? hr₀)
  | dropRule i =>
    exact h.extend (List.append_nil _).symm (fun _ he => nomatch he)
      (fun r hr => .inl (List.mem_of_mem_eraseIdx hr)) hkeep
  | composeRule i rhs =>
    rw [apply]
    split
    · exact h
    · next r hr =>
      have hlhs : r.lhs.ArityCapped := by
        rcases h.rules r (List.mem_of_getElem? hr) with ⟨hlhs, -⟩ | ⟨e, he, -, hlhs, -⟩
        · rw [hlhs]
          exact .leaf _
        · rw [← hlhs]
          exact (h.narrow e (List.mem_of_getElem? he)).1
      refine h.extend rfl (fun e he => ?_) (fun r' hr' => ?_) hkeep
      · simp only [List.mem_cons, List.not_mem_nil, or_false] at he
        rcases he with rfl | rfl <;> exact ⟨hlhs, hallowed⟩
      · rcases List.mem_or_eq_of_mem_set hr' with hr' | rfl
        · exact .inl hr'
        · refine .inr (.inr ⟨⟨.traceOrient, r.lhs, rhs⟩, ?_, rfl, rfl, rfl⟩)
          rw [List.getElem?_append_right le_rfl, Nat.sub_self]
          rfl
  | note e =>
    exact h.extend rfl (List.forall_mem_singleton.mpr hallowed) (fun r hr => .inl hr) hkeep
  | setGoal goal existential => exact ⟨h.rules, h.narrow, h.table⟩
  | aliasGoal goal => exact ⟨h.rules, h.narrow, fun _ hm => nomatch hm⟩
  | create =>
    obtain ⟨-, goal, hgoal, hne⟩ := hallowed
    refine ⟨h.rules, h.narrow, fun m hm => ?_⟩
    rw [apply] at hm
    simp only [hgoal, Option.map_some, Option.some.injEq] at hm
    obtain rfl := hm
    exact AtpMnf.inv_mnfCreate hne
  | expand ni lo hi =>
    obtain ⟨m, hm, hni⟩ := hallowed
    rw [apply, hm]
    exact h.expandNode hm hni lo hi

/-! ## The condition -/

theorem Inv.hist_named (h : s.Inv) : ∀ r ∈ s.mnfHistoricalRules, r.Named s.named := by
  intro r hr
  rcases List.mem_append.mp hr with hr | hr
  · obtain ⟨r, hrule, rfl⟩ := List.mem_map.mp hr
    rcases h.rules r hrule with ⟨hlhs, hrhs⟩ | ⟨e, he, -, hlhs, hrhs⟩
    · refine ⟨.inl ⟨hlhs, hrhs⟩, ?_⟩
      simp only [hlhs, hrhs]
      exact ⟨.fvr 255, .fvr 255⟩
    · obtain ⟨hl, hr⟩ := h.narrow e (List.mem_of_getElem? he)
      refine ⟨.inr ?_, ?_⟩
      · rw [named, he, Option.map_some, hlhs, hrhs]
      · simp only [← hlhs, ← hrhs]
        exact ⟨hl.substitutable, hr.substitutable⟩
  · obtain ⟨⟨e, i⟩, hmem, rfl⟩ := List.mem_map.mp hr
    have he : s.trace[i]? = some e := List.mk_mem_zipIdx_iff_getElem?.mp (List.mem_filter.mp hmem).1
    obtain ⟨hl, hr⟩ := h.narrow e (List.mem_of_getElem? he)
    refine ⟨.inr ?_, hl.substitutable, hr.substitutable⟩
    rw [named, he, Option.map_some]

theorem usable_hist : ∀ eq ∈ s.usable, ∃ r ∈ s.mnfHistoricalRules, (r.lhs, r.rhs) = eq := by
  intro eq heq
  obtain ⟨e, he, rfl⟩ := List.mem_map.mp heq
  obtain ⟨he, hrule⟩ := List.mem_filter.mp he
  obtain ⟨i, hi⟩ := List.mem_iff_getElem?.mp he
  refine ⟨⟨e.lhs, e.rhs, i⟩, List.mem_append_right _ (List.mem_map.mpr ⟨(e, i), ?_, rfl⟩), rfl⟩
  exact List.mem_filter.mpr ⟨List.mk_mem_zipIdx_iff_getElem?.mpr hi, hrule⟩

/-- The side of the goal from which a front starts. -/
def goalSide (goal : FTerm × FTerm) (c : Colour) : FTerm := if c = .green then goal.1 else goal.2

/-- The oldest ancestor that the walk up from a node comes to. -/
def lineStart (m : AtpMnf) (ni cap : ℕ) : FTerm :=
  (m.node ((mnfCollectLineage m ni cap).headD 0)).term

/-- Both walks up from the meeting arrive at the side of the goal in their colour. -/
def FrontsReach (m : AtpMnf) (goal : FTerm × FTerm) : Prop :=
  lineStart m m.meetA (atpProofMaxSteps + 2) = goalSide goal (m.node m.meetA).colour ∧
    lineStart m m.meetBParent (atpProofMaxSteps + 1) = goalSide goal m.meetBCol

variable {m : AtpMnf} {ni lineCap cap side : ℕ} {out out' : List ProofStep} {goal : FTerm × FTerm}

/-- The chain of one front, from the oldest ancestor to the node. -/
theorem Inv.lineage_trail (h : s.Inv) (hm : s.mnf = some m) (hni : ni < m.nodes.length)
    (hcap : 0 < lineCap)
    (hemit : mnfEmitLineage s.mnfHistoricalRules m cap side (mnfCollectLineage m ni lineCap) out =
      some out') :
    ∃ new, out' = out ++ new ∧
      Trail s.named side (lineStart m ni lineCap) new (m.node ni).term := by
  obtain ⟨rest, hline, hchain⟩ := (h.table m hm).lineage hni hcap
  unfold lineStart
  rw [← hline] at hemit ⊢
  cases hns : rest ++ [ni] with
  | nil => simp at hns
  | cons n ns =>
    rw [hns] at hemit hchain
    obtain ⟨new, rfl, htrail⟩ := mnfEmitLineage_trail h.hist_named usable_hist hchain hemit
    rw [← hns, List.getLastD_concat] at htrail
    exact ⟨new, rfl, htrail⟩

theorem goalSide_eq {goal : FTerm × FTerm} {a b : Colour} {x y : FTerm} (hab : a ≠ b) :
    (x = goalSide goal a ∧ y = goalSide goal b) ↔
      (a = .green ∧ goal.1 = x ∧ goal.2 = y) ∨ (a = .red ∧ goal.1 = y ∧ goal.2 = x) := by
  cases a <;> cases b <;> simp [goalSide, eq_comm] at hab ⊢
  exact And.comm

/-- What is read off the fronts is a proof exactly when they reach back to the goal. -/
theorem Inv.mnfProofExtract_isProof (h : s.Inv) (hm : s.mnf = some m)
    (hsome : s.thvmAtpMnfProofExtract cap ≠ []) :
    IsProof s.named goal (s.thvmAtpMnfProofExtract cap) ↔ FrontsReach m goal := by
  revert hsome
  unfold thvmAtpMnfProofExtract
  simp only [hm]
  split
  · exact fun hne => absurd rfl hne
  · next hjoined =>
    have hjoined : m.joined = true := by
      by_contra hfalse
      exact hjoined (.inr (by simpa using hfalse))
    obtain ⟨hltA, htermA, hcolA⟩ := (h.table m hm).meetA hjoined
    obtain ⟨hltB, hcolB, hstepB⟩ := (h.table m hm).meetB hjoined
    split
    · exact fun hne => absurd rfl hne
    · next outA hemitA =>
      obtain ⟨stepsA, hout, htrailA⟩ := h.lineage_trail hm hltA (by omega) hemitA
      obtain rfl : outA = stepsA := hout
      split
      · exact fun hne => absurd rfl hne
      · next outB hemitB =>
        obtain ⟨stepsB, rfl, htrailB⟩ := h.lineage_trail hm hltB (by omega) hemitB
        rw [htermA] at htrailA
        intro hne
        -- with the last step, if there is one, the second chain ends in the meeting as well
        obtain ⟨last, hlast, htrailLast⟩ : ∃ last,
            (if kboEq (m.node m.meetBParent).term m.meetTerm = true then outA ++ stepsB
              else (mnfEmitEdge s.mnfHistoricalRules cap m.meetBCol.side
                (m.node m.meetBParent).term m.meetTerm (outA ++ stepsB)).getD []) =
                outA ++ (stepsB ++ last) ∧
              Trail s.named m.meetBCol.side (m.node m.meetBParent).term last m.meetTerm := by
          split
          · next heq =>
            rw [kboEq_iff.mp heq]
            exact ⟨[], by rw [List.append_nil], .nil⟩
          · next hneq =>
            cases hedge : mnfEmitEdge s.mnfHistoricalRules cap m.meetBCol.side
                (m.node m.meetBParent).term m.meetTerm (outA ++ stepsB) with
            | none => simp [hneq, hedge] at hne
            | some out =>
              obtain ⟨st, rfl, hst⟩ := mnfEmitEdge_step h.hist_named usable_hist hstepB hedge
              exact ⟨[st], List.append_assoc _ _ _, hst⟩
        rw [hlast] at hne ⊢
        have htrailB := htrailB.append htrailLast
        rw [FrontsReach, goalSide_eq hcolA]
        cases hcol : (m.node m.meetA).colour with
        | green =>
          have hred : m.meetBCol = .red := by
            cases hB : m.meetBCol with
            | red => rfl
            | green => exact absurd (hcol.trans hB.symm) hcolA
          rw [hcol] at htrailA
          rw [hred] at htrailB
          rw [Trail.isProof_iff htrailA htrailB hne (.inl rfl)]
          simp
        | red =>
          have hgreen : m.meetBCol = .green := by
            cases hB : m.meetBCol with
            | green => rfl
            | red => exact absurd (hcol.trans hB.symm) hcolA
          rw [hcol] at htrailA
          rw [hgreen] at htrailB
          rw [Trail.isProof_iff htrailB htrailA hne (.inr rfl)]
          simp

/-! ## Extraction in a run -/

/-- Before the first equation. -/
structure Start (s : FrontState) : Prop where
  rules : s.rules = []
  entries : s.trace = []
  mnf : s.mnf = none
  minConst : s.minConst.ArityCapped

variable {s₀ : FrontState} {ops : List FrontOp} {w : ExtractWorld}

theorem Start.inv (h : s₀.Start) : s₀.Inv where
  rules := by simp [h.rules]
  narrow := by simp [h.entries]
  table := by simp [h.mnf]

theorem apply_minConst : (s.apply cut op).minConst = s.minConst := by
  cases op with
  | composeRule i rhs =>
    rw [apply]
    split <;> rfl
  | expand ni lo hi =>
    rw [apply]
    split <;> rfl
  | _ => rfl

theorem inv_run (h : s₀.Start) (hrun : Run (Step cut) s₀ ops s) :
    s.Inv ∧ s.minConst.ArityCapped := by
  refine hrun.invariant (I := fun _ s => s.Inv ∧ s.minConst.ArityCapped) ⟨h.inv, h.minConst⟩
    fun _ t op u hinv hstep => ⟨hstep.inv hinv.1, ?_⟩
  rw [hstep.2, apply_minConst]
  exact hinv.2

theorem Inv.rules_narrow (h : s.Inv) (hmin : s.minConst.ArityCapped) : s.toProverState.Narrow where
  rules := by
    intro r hr
    rcases h.rules r hr with ⟨hlhs, hrhs⟩ | ⟨e, he, -, hlhs, hrhs⟩
    · rw [hlhs, hrhs]
      exact ⟨.leaf _, .leaf _⟩
    · rw [← hlhs, ← hrhs]
      exact h.narrow e (List.mem_of_getElem? he)
  minConst := hmin

def blankFront : FrontState where
  rules := []
  minConst := .ctr 9 []
  goal := none
  goalExistential := false
  trace := []
  mnf := none
  ticks := 0

/-- The goal `a = b` and the rules `a → c` and `b → c`. -/
def twoRuleOps : List FrontOp :=
  [.setGoal (some (.ctr 1 [], .ctr 2 [])) false, .addRule (.ctr 1 []) (.ctr 3 []) true false,
    .addRule (.ctr 2 []) (.ctr 3 []) true false]

def twoRuleState : FrontState := twoRuleOps.foldl (fun s op => s.apply (fun _ => false) op) blankFront

def calmWorld : ExtractWorld where
  compare _ _ := .un
  groundTotal := true
  interrupted _ := false

theorem twoRule_run : Run (Step fun _ => false) blankFront twoRuleOps twoRuleState := by
  have hnarrow : (FTerm.ctr 1 []).ArityCapped ∧ (FTerm.ctr 2 []).ArityCapped ∧
      (FTerm.ctr 3 []).ArityCapped := by decide
  exact ((Run.single ⟨trivial, rfl⟩).snoc ⟨⟨hnarrow.1, hnarrow.2.2⟩, rfl⟩).snoc
    ⟨⟨hnarrow.2.1, hnarrow.2.2⟩, rfl⟩

theorem start_blankFront : blankFront.Start := ⟨rfl, rfl, rfl, by decide⟩

end FrontState

end Thvm.Atp
