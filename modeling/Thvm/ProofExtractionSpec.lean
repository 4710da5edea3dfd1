import Thvm.ClauseInferenceSpec
import Thvm.ProofExtraction

/-!
# Extracted proofs

The rewrites of a side form a chain of instances of rules, of which as many are recorded as
there is room for. What is returned is a proof when the recorded parts of the two chains meet.
-/

namespace Thvm.Atp
open RewriteChains

/-! ## Instances -/

section
variable {t pat other lhs minConst : FTerm} {b : ℕ → Option FTerm} {id : ℕ}

/-- A pair that an equation turns into. -/
def InstanceOf (eq : FTerm × FTerm) (a b : FTerm) : Prop :=
  ∃ σ, a = eq.1.inst σ ∧ b = eq.2.inst σ

/-- An equation read in a direction. -/
def face (eq : FTerm × FTerm) (fwd : Bool) : FTerm × FTerm := if fwd then eq else eq.swap

theorem thvmMatch_inst (h : thvmMatch pat t (fun _ => none) = (true, b)) :
    pat.inst (bindSubst b) = t := by
  refine List.singleton_inj.mp ((thvmMatch_matched h).inst _ fun id u hlt hu => ?_)
  rw [bindSubst, if_pos hlt, hu, Option.getD_some]

/-- A match and the replacement that goes with it. -/
theorem thvmMatch_instanceOf (hother : other.Substitutable)
    (h : thvmMatch pat t (fun _ => none) = (true, b)) :
    InstanceOf (pat, other) t (thvmSubstApply b other) :=
  ⟨bindSubst b, (thvmMatch_inst h).symm, thvmSubstApply_eq b hother⟩

theorem atpArgsHaveVar_iff {args : List FTerm}
    (ih : ∀ a ∈ args, atpTermHasVar id a = true ↔ Leaf.fvr id ∈ a.leaves) :
    atpArgsHaveVar id args = true ↔ ∃ a ∈ args, Leaf.fvr id ∈ a.leaves := by
  induction args with
  | nil => simp [atpArgsHaveVar]
  | cons a as ihas =>
    rw [atpArgsHaveVar, Bool.or_eq_true, ih a List.mem_cons_self,
      ihas fun a' ha' => ih a' (List.mem_cons_of_mem _ ha')]
    simp

theorem atpTermHasVar_iff : atpTermHasVar id t = true ↔ Leaf.fvr id ∈ t.leaves := by
  induction t using TermTree.induct with
  | leaf l =>
    cases l with
    | fvr id' => simp [atpTermHasVar, TermTree.leaves, eq_comm]
    | num dtype value => simp [atpTermHasVar, TermTree.leaves]
  | node label args ih =>
    rw [atpTermHasVar, atpArgsHaveVar_iff ih]
    exact TermTree.mem_leaves_node.symm

/-- What a grounded instance does to a variable. -/
def grounding (lhs minConst : FTerm) (id : ℕ) : FTerm :=
  if atpTermHasVar id lhs then .fvr id else minConst

theorem atpGroundedInstanceArgs_eq (args : List FTerm) :
    atpGroundedInstanceArgs lhs minConst args = args.map (atpGroundedInstance lhs minConst) := by
  induction args with
  | nil => rfl
  | cons a as ih => rw [atpGroundedInstanceArgs, ih, List.map_cons]

theorem atpGroundedInstance_inst (ht : t.Substitutable) :
    atpGroundedInstance lhs minConst t = t.inst (grounding lhs minConst) := by
  induction t using TermTree.induct with
  | leaf l => cases l <;> rfl
  | node label args ih =>
    rw [atpGroundedInstance]
    split
    · next hlen => rw [FTerm.inst_of_closed (ht.wide hlen)]
    · rw [atpGroundedInstanceArgs_eq, FTerm.inst_ctr,
        List.map_congr_left fun a ha => ih a ha (ht.arg ha)]

/-- The grounded equation is an instance of the equation. -/
theorem grounding_fixes : pat.inst (grounding pat minConst) = pat := by
  refine (FTerm.inst_congr fun id hid => ?_).trans (FTerm.inst_id pat)
  rw [grounding, if_pos (atpTermHasVar_iff.mpr hid)]

theorem grounding_substitutable (hmin : minConst.Substitutable) (id : ℕ) :
    (grounding pat minConst id).Substitutable := by
  rw [grounding]
  split
  · exact .fvr id
  · exact hmin

theorem InstanceOf.trans {eq eq' : FTerm × FTerm} {x y : FTerm} {σ : ℕ → FTerm}
    (h : InstanceOf eq' x y) (heq : eq' = (eq.1.inst σ, eq.2.inst σ)) : InstanceOf eq x y := by
  obtain ⟨τ, rfl, rfl⟩ := h
  subst heq
  exact ⟨fun id => (σ id).inst τ, FTerm.inst_inst σ τ eq.1, FTerm.inst_inst σ τ eq.2⟩

end

/-! ## Proofs -/

/-- The named rule, in the direction of the step, does what the step says. -/
def ProofStep.Valid (named : ℕ → Option (FTerm × FTerm)) (st : ProofStep) : Prop :=
  ∃ eq, named st.rule = some eq ∧ StepAt (InstanceOf (face eq st.fwd)) st.pos st.before st.after

/-- The chain of the steps of a side. -/
def onSide (side : ℕ) (steps : List ProofStep) : List ProofStep :=
  steps.filter fun st => st.side = side

abbrev Chain : FTerm → List ProofStep → Prop := Linked ProofStep.before ProofStep.after

abbrev chainEnd : FTerm → List ProofStep → FTerm := final ProofStep.after

/-- Two chains of steps, one from each side of the goal, that end in the same term. -/
structure IsProof (named : ℕ → Option (FTerm × FTerm)) (goal : FTerm × FTerm)
    (steps : List ProofStep) : Prop where
  left : Chain goal.1 (onSide 0 steps)
  right : Chain goal.2 (onSide 1 steps)
  meet : chainEnd goal.1 (onSide 0 steps) = chainEnd goal.2 (onSide 1 steps)
  valid : ∀ st ∈ steps, st.Valid named

/-- No pair of shorter prefixes meets. -/
def Trimmed (goal : FTerm × FTerm) (steps : List ProofStep) : Prop :=
  ∀ i ≤ (onSide 0 steps).length, ∀ j ≤ (onSide 1 steps).length,
    i + j < (onSide 0 steps).length + (onSide 1 steps).length →
    chainEnd goal.1 ((onSide 0 steps).take i) ≠ chainEnd goal.2 ((onSide 1 steps).take j)

theorem onSide_append {x y : ℕ} {xs ys : List ProofStep} (hxy : x ≠ y)
    (hx : ∀ st ∈ xs, st.side = x) (hy : ∀ st ∈ ys, st.side = y) :
    onSide x (xs ++ ys) = xs ∧ onSide y (xs ++ ys) = ys := by
  have hx' : ∀ st ∈ xs, st.side ≠ y := fun st hst heq => hxy ((hx st hst).symm.trans heq)
  have hy' : ∀ st ∈ ys, st.side ≠ x := fun st hst heq => hxy (heq.symm.trans (hy st hst))
  simp only [onSide, List.filter_append]
  rw [List.filter_eq_self.mpr (by simpa using hx), List.filter_eq_nil_iff.mpr (by simpa using hy'),
    List.filter_eq_nil_iff.mpr (by simpa using hx'), List.filter_eq_self.mpr (by simpa using hy)]
  simp

section
variable {named : ℕ → Option (FTerm × FTerm)} {side : ℕ} {t u t' : FTerm} {new new' : List ProofStep}

/-- The steps of a side that lead from `t` to `t'`. -/
structure Trail (named : ℕ → Option (FTerm × FTerm)) (side : ℕ) (t : FTerm)
    (new : List ProofStep) (t' : FTerm) : Prop where
  chain : Chain t new
  ends : chainEnd t new = t'
  side : ∀ st ∈ new, st.side = side
  valid : ∀ st ∈ new, st.Valid named

theorem Trail.nil : Trail named side t [] t :=
  ⟨trivial, rfl, fun _ h => (nomatch h), fun _ h => (nomatch h)⟩

theorem Trail.append (h : Trail named side t new u) (h' : Trail named side u new' t') :
    Trail named side t (new ++ new') t' where
  chain := by
    refine linked_append.mpr ⟨h.chain, ?_⟩
    rw [show final ProofStep.after t new = u from h.ends]
    exact h'.chain
  ends := by
    rw [chainEnd, final_append, show final ProofStep.after t new = u from h.ends]
    exact h'.ends
  side := by
    intro st hst
    rcases List.mem_append.mp hst with hst | hst
    · exact h.side st hst
    · exact h'.side st hst
  valid := by
    intro st hst
    rcases List.mem_append.mp hst with hst | hst
    · exact h.valid st hst
    · exact h'.valid st hst

/-- The trails of the two sides that lead to one term make a proof when they start from the two
sides of the goal. -/
theorem Trail.isProof_iff {goal : FTerm × FTerm} {left right steps : List ProofStep} {l r m : FTerm}
    (h : Trail named 0 l left m) (h' : Trail named 1 r right m) (hne : steps ≠ [])
    (hsteps : steps = left ++ right ∨ steps = right ++ left) :
    IsProof named goal steps ↔ goal.1 = l ∧ goal.2 = r := by
  have hsides : onSide 0 steps = left ∧ onSide 1 steps = right := by
    rcases hsteps with rfl | rfl
    · exact onSide_append Nat.zero_ne_one h.side h'.side
    · exact (onSide_append Nat.one_ne_zero h'.side h.side).symm
  have hvalid : ∀ st ∈ steps, st.Valid named := by
    intro st hst
    have hst : st ∈ left ∨ st ∈ right := by
      rcases hsteps with rfl | rfl
      · exact List.mem_append.mp hst
      · exact (List.mem_append.mp hst).symm
    exact hst.elim (h.valid st) (h'.valid st)
  have hone : left ≠ [] ∨ right ≠ [] := by
    by_contra hnone
    push Not at hnone
    rcases hsteps with rfl | rfl <;> simp [hnone.1, hnone.2] at hne
  rw [← Linked.meet_iff h.chain h.ends h'.chain h'.ends hone]
  constructor
  · rintro ⟨hleft, hright, hmeet, -⟩
    rw [hsides.1] at hleft hmeet
    rw [hsides.2] at hright hmeet
    exact ⟨hleft, hright, hmeet⟩
  · rintro ⟨hleft, hright, hmeet⟩
    refine ⟨?_, ?_, ?_, hvalid⟩
    · rwa [hsides.1]
    · rwa [hsides.2]
    · rwa [hsides.1, hsides.2]

end

namespace ProverState

variable {w : ExtractWorld} {s : ProverState} {t u : FTerm} {f : Fired} {i side depth asked : ℕ}
  {orientedOnly : Bool} {r : ProverRule}

/-- No constructor of the rules has more than `REWRITE_MAX_ARITY` arguments. -/
structure Narrow (s : ProverState) : Prop where
  rules : ∀ r ∈ s.rules, r.lhs.ArityCapped ∧ r.rhs.ArityCapped
  minConst : s.minConst.ArityCapped

/-- The rule of a slot. -/
def named (s : ProverState) (i : ℕ) : Option (FTerm × FTerm) :=
  s.rules[i]?.map fun r => (r.lhs, r.rhs)

/-! ## One rewrite -/

/-- What has fired is a step with a rule of the state. -/
def Fired.Fires (s : ProverState) (f : Fired) (t : FTerm) : Prop :=
  ∃ eq, s.named f.rule = some eq ∧ StepAt (InstanceOf (face eq f.fwd)) f.pos t f.term

theorem tryFace_instanceOf {pat other : FTerm} (hother : other.Substitutable)
    (hmin : s.minConst.Substitutable) (h : s.tryFace w t pat other = some u) :
    InstanceOf (pat, other) t u := by
  unfold tryFace at h
  cases hmatch : thvmMatch pat t fun _ => none with
  | mk ok b =>
    cases ok with
    | false => simp [hmatch] at h
    | true =>
      simp only [hmatch, if_true] at h
      split at h
      · next tmpl htmpl =>
        split at h
        · obtain rfl := Option.some.inj h
          unfold atpUnorientTemplate at htmpl
          split at htmpl
          · obtain rfl := Option.some.inj htmpl
            exact thvmMatch_instanceOf hother hmatch
          · split at htmpl
            · cases htmpl
            · obtain rfl := Option.some.inj htmpl
              rw [atpGroundedInstance_inst hother]
              exact (thvmMatch_instanceOf (hother.inst (grounding_substitutable hmin)) hmatch).trans
                (Prod.ext grounding_fixes.symm rfl)
        · cases h
      · cases h

theorem tryRule_fires (hr : s.rules[i]? = some r) (hlhs : r.lhs.Substitutable)
    (hrhs : r.rhs.Substitutable) (hmin : s.minConst.Substitutable)
    (h : s.tryRule w orientedOnly t r i = some f) : f.Fires s t := by
  have hnamed : s.named i = some (r.lhs, r.rhs) := by rw [named, hr, Option.map_some]
  unfold tryRule at h
  split at h
  · split at h
    · cases h
    · split at h
      · next repl hface =>
        obtain rfl := Option.some.inj h
        exact ⟨_, hnamed, .root (tryFace_instanceOf hrhs hmin hface)⟩
      · obtain ⟨repl, hface, rfl⟩ := Option.map_eq_some_iff.mp h
        exact ⟨_, hnamed, .root (tryFace_instanceOf hlhs hmin hface)⟩
  · cases hmatch : thvmMatch r.lhs t fun _ => none with
    | mk ok b =>
      cases ok with
      | false => simp [hmatch] at h
      | true =>
        simp only [hmatch, if_true] at h
        obtain rfl := Option.some.inj h
        exact ⟨_, hnamed, .root (thvmMatch_instanceOf hrhs hmatch)⟩

theorem tryRules_fires (hs : s.Narrow) (h : s.tryRules w orientedOnly t = some f) : f.Fires s t := by
  obtain ⟨⟨r, i⟩, hmem, htry⟩ := List.exists_of_findSome?_eq_some h
  have hr : s.rules[i]? = some r := List.mk_mem_zipIdx_iff_getElem?.mp hmem
  obtain ⟨hlhs, hrhs⟩ := hs.rules r (List.mem_of_getElem? hr)
  exact tryRule_fires hr hlhs.substitutable hrhs.substitutable hs.minConst.substitutable htry

theorem Fired.Fires.arg {label : ℕ} {args : List FTerm} {a : FTerm} (ha : args[i]? = some a)
    (h : f.Fires s a) :
    Fired.Fires s { f with pos := i :: f.pos, term := .node label (args.set i f.term) }
      (.node label args) := by
  obtain ⟨eq, hnamed, hstep⟩ := h
  exact ⟨eq, hnamed, hstep.arg ha⟩

theorem atpProofRewriteArgs_fires {args : List FTerm} {i k : ℕ}
    (ih : ∀ a ∈ args, ∀ f, s.atpProofRewriteStep w orientedOnly depth a = some f → f.Fires s a)
    (h : s.atpProofRewriteArgs w orientedOnly depth i args = some (k, f)) :
    ∃ j a, k = i + j ∧ args[j]? = some a ∧ f.Fires s a := by
  induction args generalizing i with
  | nil => cases h
  | cons a as ihas =>
    rw [atpProofRewriteArgs] at h
    split at h
    · next fired hfired =>
      obtain ⟨rfl, rfl⟩ := Prod.mk.inj (Option.some.inj h)
      exact ⟨0, a, rfl, rfl, ih a List.mem_cons_self fired hfired⟩
    · obtain ⟨j, a', rfl, ha', hf⟩ := ihas (fun a' ha' => ih a' (List.mem_cons_of_mem _ ha')) h
      exact ⟨j + 1, a', by omega, ha', hf⟩

/-- A recorded rewrite puts an instance of the rule at the recorded position. -/
theorem atpProofRewriteStep_fires (hs : s.Narrow)
    (h : s.atpProofRewriteStep w orientedOnly depth t = some f) : f.Fires s t := by
  induction t using TermTree.induct generalizing depth f with
  | leaf l => exact tryRules_fires hs h
  | node label args ih =>
    rw [atpProofRewriteStep] at h
    split at h
    · next fired hfired =>
      obtain rfl := Option.some.inj h
      exact tryRules_fires hs hfired
    · split at h
      · split at h
        · cases h
        · obtain ⟨⟨k, fired⟩, hargs, rfl⟩ := Option.map_eq_some_iff.mp h
          obtain ⟨j, a, rfl, ha, hf⟩ := atpProofRewriteArgs_fires
            (fun a ha f hf => ih a ha hf) hargs
          rw [Nat.zero_add]
          exact hf.arg ha
      · cases h

/-! ## Recording -/

variable {t' : FTerm} {new new' : List ProofStep} {cap : ℕ}

/-- What a part of the recording has done, for every capacity: the steps it adds are those for
which there is room. -/
def Adds (s : ProverState) (side : ℕ) {α : Type} (run : ℕ → Recording → Recording × α)
    (t : FTerm) (asked bound : ℕ) : Prop :=
  ∃ new t' asked' a, Trail s.named side t new t' ∧ new.length ≤ bound ∧
    ∀ cap out, run cap ⟨t, out, asked⟩ = (⟨t', out ++ new.take (cap - out.length), asked'⟩, a)

/-- Two lists added after each other. -/
theorem take_room (out new new' : List ProofStep) (cap : ℕ) :
    out ++ new.take (cap - out.length) ++
        new'.take (cap - (out ++ new.take (cap - out.length)).length) =
      out ++ (new ++ new').take (cap - out.length) := by
  rw [List.take_append, List.append_assoc, List.length_append, List.length_take]
  congr 2
  by_cases h : new.length ≤ cap - out.length
  · rw [min_eq_right h]
    congr 1
    omega
  · rw [min_eq_left (by omega), Nat.sub_eq_zero_of_le (by omega), Nat.sub_eq_zero_of_le (by omega)]

theorem atpProofRecordOne_adds (side : ℕ) (orientedOnly : Bool) (hs : s.Narrow) (t : FTerm) (asked : ℕ) :
    s.Adds side (fun cap => s.atpProofRecordOne w cap side orientedOnly) t asked 1 := by
  cases hstep : s.atpProofRewriteStep w orientedOnly 0 t with
  | none =>
    refine ⟨[], t, asked, false, .nil, Nat.zero_le 1, fun cap out => ?_⟩
    simp [atpProofRecordOne, hstep]
  | some fired =>
    by_cases heq : kboEq t fired.term = true
    · refine ⟨[], t, asked, false, .nil, Nat.zero_le 1, fun cap out => ?_⟩
      simp [atpProofRecordOne, hstep, heq]
    · let step : ProofStep := ⟨side, fired.rule, fired.fwd, fired.pos, t, fired.term⟩
      have hvalid : step.Valid s.named := atpProofRewriteStep_fires hs hstep
      refine ⟨[step], fired.term, asked, true, ⟨⟨rfl, trivial⟩, rfl, ?_, ?_⟩, le_rfl,
        fun cap out => ?_⟩
      · exact List.forall_mem_singleton.mpr rfl
      · exact List.forall_mem_singleton.mpr hvalid
      · simp only [atpProofRecordOne, hstep, heq, if_false, Bool.false_eq_true]
        by_cases hroom : out.length < cap
        · rw [if_pos hroom, List.take_of_length_le (by simp; omega)]
        · rw [if_neg hroom, Nat.sub_eq_zero_of_le (Nat.le_of_not_lt hroom), List.take_zero,
            List.append_nil]

theorem drain_adds (side : ℕ) (hs : s.Narrow) (rounds j : ℕ) (t : FTerm) (asked : ℕ) (progressed : Bool) :
    s.Adds side (fun cap r => s.drain w cap side rounds j r progressed) t asked rounds := by
  induction rounds generalizing j t asked progressed with
  | zero => exact ⟨[], t, asked, (progressed, false), .nil, le_rfl, fun cap out => by simp [drain]⟩
  | succ n ih =>
    obtain ⟨new, u, asked', fired, htrail, hlen, hone⟩ :=
      atpProofRecordOne_adds (w := w) side true hs t asked
    cases fired with
    | false =>
      refine ⟨new, u, asked', (progressed, false), htrail, by omega, fun cap out => ?_⟩
      simp [drain, hone]
    | true =>
      by_cases hpoll : j % 128 = 0
      · by_cases hstop : w.interrupted asked' = true
        · refine ⟨new, u, asked' + 1, (true, true), htrail, by omega, fun cap out => ?_⟩
          simp [drain, hone, hpoll, Recording.poll, hstop]
        · obtain ⟨new', t', asked'', flags, htrail', hlen', hrest⟩ := ih (j + 1) u (asked' + 1) true
          refine ⟨new ++ new', t', asked'', flags, htrail.append htrail',
            by rw [List.length_append]; omega, fun cap out => ?_⟩
          simp only [drain, hone, hpoll, Recording.poll, hstop, Bool.not_true, Bool.false_eq_true,
            if_false, if_true]
          exact (hrest _ _).trans (by rw [take_room])
      · obtain ⟨new', t', asked'', flags, htrail', hlen', hrest⟩ := ih (j + 1) u asked' true
        refine ⟨new ++ new', t', asked'', flags, htrail.append htrail',
          by rw [List.length_append]; omega, fun cap out => ?_⟩
        simp only [drain, hone, hpoll, Bool.not_true, Bool.false_eq_true, if_false]
        exact (hrest _ _).trans (by rw [take_room])

/-- The clock is asked, or not, at the start of a round. -/
theorem poll_run (w : ExtractWorld) (it asked : ℕ) : ∃ asked' stop, ∀ t out,
    (if it % 128 = 0 then Recording.poll w ⟨t, out, asked⟩ else (⟨t, out, asked⟩, false)) =
      ((⟨t, out, asked'⟩, stop) : Recording × Bool) := by
  by_cases hpoll : it % 128 = 0
  · exact ⟨asked + 1, w.interrupted asked, fun t out => by rw [if_pos hpoll]; rfl⟩
  · exact ⟨asked, false, fun t out => by rw [if_neg hpoll]⟩

theorem recordLoop_adds (side : ℕ) (hs : s.Narrow) (rounds it : ℕ) (t : FTerm) (asked : ℕ) :
    s.Adds side (fun cap r => (s.recordLoop w cap side rounds it r, ())) t asked
      (rounds * (atpProofMaxSteps + 1)) := by
  induction rounds generalizing it t asked with
  | zero =>
    exact ⟨[], t, asked, (), .nil, Nat.zero_le _, fun cap out => by simp [recordLoop]⟩
  | succ n ih =>
    obtain ⟨asked₀, stop₀, hpoll⟩ := poll_run w it asked
    cases stop₀ with
    | true =>
      refine ⟨[], t, asked₀, (), .nil, Nat.zero_le _, fun cap out => ?_⟩
      simp [recordLoop, hpoll]
    | false =>
      obtain ⟨new, u, asked₁, ⟨progressed, stop₁⟩, htrail, hlen, hdrain⟩ :=
        drain_adds (w := w) side hs atpProofMaxSteps 0 t asked₀ false
      have hle : atpProofMaxSteps + 1 ≤ (n + 1) * (atpProofMaxSteps + 1) :=
        Nat.le_mul_of_pos_left _ (Nat.succ_pos n)
      cases stop₁ with
      | true =>
        refine ⟨new, u, asked₁, (), htrail, by omega, fun cap out => ?_⟩
        simp [recordLoop, hpoll, hdrain]
      | false =>
        obtain ⟨new₁, u₁, asked₂, fired, htrail₁, hlen₁, hone⟩ :=
          atpProofRecordOne_adds (w := w) side false hs u asked₁
        by_cases hgo : (progressed || fired) = true
        · obtain ⟨new₂, t', asked₃, _, htrail₂, hlen₂, hrest⟩ := ih (it + 1) u₁ asked₂
          refine ⟨new ++ new₁ ++ new₂, t', asked₃, (), (htrail.append htrail₁).append htrail₂, ?_,
            fun cap out => ?_⟩
          · rw [List.length_append, List.length_append, Nat.succ_mul]
            omega
          · simp only [recordLoop, hpoll, hdrain, hone, hgo, Bool.false_eq_true, if_false, if_true]
            rw [take_room]
            exact (hrest _ _).trans (by rw [take_room])
        · refine ⟨new ++ new₁, u₁, asked₂, (), htrail.append htrail₁, ?_, fun cap out => ?_⟩
          · rw [List.length_append]
            omega
          · simp only [recordLoop, hpoll, hdrain, hone, hgo, Bool.false_eq_true, if_false]
            rw [take_room]

/-- More than a side is ever rewritten. -/
def unlimited : ℕ := 2 ^ 33

/-- All rewrites of the left side, those included for which there is no room. -/
def leftTrail (w : ExtractWorld) (s : ProverState) (goal : FTerm × FTerm) : Recording :=
  s.atpProofRecordSide w unlimited 0 ⟨goal.1, [], 0⟩

/-- All rewrites of the right side, after those of the left one. -/
def rightTrail (w : ExtractWorld) (s : ProverState) (goal : FTerm × FTerm) : Recording :=
  s.atpProofRecordSide w unlimited 1 ⟨goal.2, [], (s.leftTrail w goal).asked⟩

/-- A side is recorded as far as there is room. -/
theorem atpProofRecordSide_trail (side : ℕ) (hs : s.Narrow) (t : FTerm) (asked : ℕ) :
    ∃ new t' asked', Trail s.named side t new t' ∧
      s.atpProofRecordSide w unlimited side ⟨t, [], asked⟩ = ⟨t', new, asked'⟩ ∧
      ∀ cap out, s.atpProofRecordSide w cap side ⟨t, out, asked⟩ =
        ⟨t', out ++ new.take (cap - out.length), asked'⟩ := by
  obtain ⟨new, t', asked', _, htrail, hlen, hrun⟩ :=
    recordLoop_adds (w := w) side hs atpProofMaxSteps 0 t asked
  have hrun : ∀ cap out, s.atpProofRecordSide w cap side ⟨t, out, asked⟩ =
      ⟨t', out ++ new.take (cap - out.length), asked'⟩ :=
    fun cap out => congrArg Prod.fst (hrun cap out)
  refine ⟨new, t', asked', htrail, ?_, hrun⟩
  rw [hrun, List.nil_append, List.take_of_length_le]
  exact hlen.trans (by decide)

end ProverState

/-! ## Cutting back -/

section
variable {f g : ℕ → FTerm} {m n : ℕ} {left right : List ProofStep} {goal : FTerm × FTerm}

theorem Meeting.look_best {V V' : ℕ → ℕ → Prop} {b : Meeting} {i j : ℕ} (h : b.Best f g m n V)
    (hi : i ≤ m) (hj : j ≤ n) (hV : ∀ i' j', V' i' j' → V i' j' ∨ (i' = i ∧ j' = j)) :
    (Meeting.look f g i b j).Best f g m n V' := by
  refine h.look hi hj hV ?_
  unfold Meeting.look
  split
  · next hge => exact .inl ⟨rfl, fun _ => hge⟩
  · next hlt =>
    split
    · next heq => exact .inr ⟨rfl, kboEq_iff.mp heq, Nat.lt_of_not_le hlt⟩
    · next hne => exact .inl ⟨rfl, fun heq => absurd (kboEq_iff.mpr heq) hne⟩

/-- The two loops have looked at all pairs. -/
theorem earliestMeeting_best (f g : ℕ → FTerm) (m n : ℕ) :
    (earliestMeeting f g m n).Best f g m n fun i j => i < m + 1 ∧ j < n + 1 := by
  refine foldl_range_invariant _ (P := fun k (b : Meeting) =>
    b.Best f g m n fun i j => i < k ∧ j < n + 1) ?_ fun i hi b hb => ?_
  · exact ⟨fun h => (by cases h), fun _ => rfl, fun i j hv => absurd hv.1 (Nat.not_lt_zero i)⟩
  · have hrow := foldl_range_invariant (Meeting.look f g i) (n := n + 1) (P := fun k (b : Meeting) =>
      b.Best f g m n fun i' j => (i' < i ∧ j < n + 1) ∨ (i' = i ∧ j < k)) (s := b)
      ?_ fun j hj b hb => ?_
    · exact ⟨hrow.found, hrow.unfound, fun i' j hv => hrow.least i' j (by omega)⟩
    · exact ⟨hb.found, hb.unfound, fun i' j hv => hb.least i' j (by omega)⟩
    · exact Meeting.look_best hb (Nat.le_of_lt_succ hi) (Nat.le_of_lt_succ hj) fun i' j' hv => by
        omega

/-- The term that the code reads after `k` steps. -/
theorem atpChainTerm_eq {steps : List ProofStep} {seed : FTerm} (h : Chain seed steps) {k : ℕ}
    (hk : k ≤ steps.length) : atpChainTerm steps seed k = chainEnd seed (steps.take k) := by
  cases steps with
  | nil => rw [List.take_nil]; rfl
  | cons first rest =>
    cases k with
    | zero => exact h.1
    | succ k =>
      have hlt : k < (first :: rest).length := hk
      rw [chainEnd, final_take_succ hlt]
      simp [atpChainTerm, List.getElem?_eq_getElem hlt]

/-- No pair of places before the two ends is a meeting. -/
def NoneShorter (f g : ℕ → FTerm) (m n : ℕ) : Prop :=
  ∀ i ≤ m, ∀ j ≤ n, i + j < m + n → f i ≠ g j

theorem NoneShorter.meets_iff (h : NoneShorter f g m n) :
    (∃ i ≤ m, ∃ j ≤ n, f i = g j) ↔ f m = g n := by
  constructor
  · rintro ⟨i, hi, j, hj, heq⟩
    by_cases hlt : i + j < m + n
    · exact absurd heq (h i hi j hj hlt)
    · obtain rfl : i = m := by omega
      obtain rfl : j = n := by omega
      exact heq
  · exact fun heq => ⟨m, le_rfl, n, le_rfl, heq⟩

/-- Two chains from the sides of a goal, with the steps of one side each. -/
structure TwoChains (named : ℕ → Option (FTerm × FTerm)) (goal : FTerm × FTerm)
    (left right : List ProofStep) : Prop where
  leftChain : Chain goal.1 left
  rightChain : Chain goal.2 right
  leftSide : ∀ st ∈ left, st.side = 0
  rightSide : ∀ st ∈ right, st.side = 1
  leftValid : ∀ st ∈ left, st.Valid named
  rightValid : ∀ st ∈ right, st.Valid named

variable {named : ℕ → Option (FTerm × FTerm)} {i j : ℕ}

theorem TwoChains.take (h : TwoChains named goal left right) (i j : ℕ) :
    TwoChains named goal (left.take i) (right.take j) where
  leftChain := h.leftChain.take i
  rightChain := h.rightChain.take j
  leftSide := fun st hst => h.leftSide st (List.mem_of_mem_take hst)
  rightSide := fun st hst => h.rightSide st (List.mem_of_mem_take hst)
  leftValid := fun st hst => h.leftValid st (List.mem_of_mem_take hst)
  rightValid := fun st hst => h.rightValid st (List.mem_of_mem_take hst)

theorem TwoChains.isProof_iff (h : TwoChains named goal left right) :
    IsProof named goal (left ++ right) ↔ chainEnd goal.1 left = chainEnd goal.2 right := by
  obtain ⟨hl, hr⟩ := onSide_append Nat.zero_ne_one h.leftSide h.rightSide
  constructor
  · intro hproof
    have hmeet := hproof.meet
    rwa [hl, hr] at hmeet
  · intro hmeet
    refine ⟨by rw [hl]; exact h.leftChain, by rw [hr]; exact h.rightChain, by rw [hl, hr]; exact hmeet, ?_⟩
    intro st hst
    rcases List.mem_append.mp hst with hst | hst
    · exact h.leftValid st hst
    · exact h.rightValid st hst

theorem TwoChains.trimmed_iff (h : TwoChains named goal left right) :
    Trimmed goal (left ++ right) ↔ NoneShorter (fun i => chainEnd goal.1 (left.take i))
      (fun j => chainEnd goal.2 (right.take j)) left.length right.length := by
  obtain ⟨hl, hr⟩ := onSide_append Nat.zero_ne_one h.leftSide h.rightSide
  rw [Trimmed, hl, hr]
  exact Iff.rfl

/-- What is cut back to the earliest meeting is a proof, and no shorter one is there. -/
theorem TwoChains.earliest (h : TwoChains named goal left right)
    (hmeet : EarliestMeeting (fun i => chainEnd goal.1 (left.take i))
      (fun j => chainEnd goal.2 (right.take j)) left.length right.length i j) :
    IsProof named goal (left.take i ++ right.take j) ∧ Trimmed goal (left.take i ++ right.take j) := by
  obtain ⟨hi, hj, heq, hleast⟩ := hmeet
  refine ⟨(h.take i j).isProof_iff.mpr heq, (h.take i j).trimmed_iff.mpr ?_⟩
  rw [List.length_take_of_le hi, List.length_take_of_le hj]
  intro i' hi' j' hj' hlt
  simp only [List.take_take, min_eq_left hi', min_eq_left hj']
  exact hleast i' (hi'.trans hi) j' (hj'.trans hj) hlt

/-- Trimming returns a proof without a shorter one exactly when the two chains meet. -/
theorem TwoChains.trim (h : TwoChains named goal left right) :
    IsProof named goal (atpProofTrimToMeet left right goal.1 goal.2) ∧
        Trimmed goal (atpProofTrimToMeet left right goal.1 goal.2) ↔
      ∃ i ≤ left.length, ∃ j ≤ right.length,
        chainEnd goal.1 (left.take i) = chainEnd goal.2 (right.take j) := by
  have hbest := earliestMeeting_best (atpChainTerm left goal.1) (atpChainTerm right goal.2)
    left.length right.length
  have hall : ∀ i ≤ left.length, ∀ j ≤ right.length,
      i < left.length + 1 ∧ j < right.length + 1 := fun i hi j hj => by omega
  unfold atpProofTrimToMeet
  by_cases hfound : (earliestMeeting (atpChainTerm left goal.1) (atpChainTerm right goal.2)
      left.length right.length).found = true
  · rw [if_pos hfound]
    obtain ⟨hi, hj, heq, hleast⟩ := hbest.earliest hall hfound
    rw [atpChainTerm_eq h.leftChain hi, atpChainTerm_eq h.rightChain hj] at heq
    refine iff_of_true (h.earliest ⟨hi, hj, heq, fun i' hi' j' hj' hlt => ?_⟩) ⟨_, hi, _, hj, heq⟩
    have hne := hleast i' hi' j' hj' hlt
    rwa [atpChainTerm_eq h.leftChain hi', atpChainTerm_eq h.rightChain hj'] at hne
  · rw [if_neg hfound]
    have hnone : NoneShorter (fun i => chainEnd goal.1 (left.take i))
        (fun j => chainEnd goal.2 (right.take j)) left.length right.length := by
      intro i hi j hj hlt
      have hne := hbest.none hall (Bool.eq_false_iff.mpr hfound) hi hj hlt
      rwa [atpChainTerm_eq h.leftChain hi, atpChainTerm_eq h.rightChain hj] at hne
    rw [h.isProof_iff, h.trimmed_iff, and_iff_left hnone, hnone.meets_iff, List.take_length,
      List.take_length]

end

/-! ## The condition -/

namespace ProverState

variable {w : ExtractWorld} {s : ProverState} {goal : FTerm × FTerm} {cap : ℕ}

/-- The parts of the two chains for which there is room have a term in common, and where they
are too long to be cut back, the last terms alone. -/
def MeetsInTime (w : ExtractWorld) (s : ProverState) (goal : FTerm × FTerm) (cap : ℕ) : Prop :=
  let left := (s.leftTrail w goal).out.take cap
  let right := (s.rightTrail w goal).out.take (cap - left.length)
  (∃ i ≤ left.length, ∃ j ≤ right.length,
    chainEnd goal.1 (left.take i) = chainEnd goal.2 (right.take j)) ∧
  (left.length + right.length ≤ atpProofMaxSteps * 2 ∨
    NoneShorter (fun i => chainEnd goal.1 (left.take i)) (fun j => chainEnd goal.2 (right.take j))
      left.length right.length)

theorem thvmAtpProofExtract_isProof (hs : s.Narrow) (hgoal : s.goal = some goal)
    (hsome : s.thvmAtpProofExtract w cap ≠ []) :
    IsProof s.named goal (s.thvmAtpProofExtract w cap) ∧
        Trimmed goal (s.thvmAtpProofExtract w cap) ↔ s.MeetsInTime w goal cap := by
  obtain ⟨newL, nfL, askedL, hleft, hleftAll, hleftRun⟩ :=
    atpProofRecordSide_trail (w := w) 0 hs goal.1 0
  obtain ⟨newR, nfR, askedR, hright, hrightAll, hrightRun⟩ :=
    atpProofRecordSide_trail (w := w) 1 hs goal.2 askedL
  have hL : s.leftTrail w goal = ⟨nfL, newL, askedL⟩ := hleftAll
  have hR : s.rightTrail w goal = ⟨nfR, newR, askedR⟩ := by
    rw [rightTrail, hL]
    exact hrightAll
  have hchains : TwoChains s.named goal newL newR :=
    ⟨hleft.chain, hright.chain, hleft.side, hright.side, hleft.valid, hright.valid⟩
  unfold MeetsInTime
  rw [hL, hR]
  revert hsome
  unfold thvmAtpProofExtract
  simp only [hgoal, hleftRun, hrightRun, List.nil_append, List.length_nil, Nat.sub_zero]
  set left := newL.take cap with hleftDef
  set right := newR.take (cap - left.length) with hrightDef
  have htake : TwoChains s.named goal left right := hchains.take _ _
  split
  · exact fun h => absurd rfl h
  · split
    · exact fun h => absurd rfl h
    · intro _
      rw [List.drop_left]
      have hroom : left.length + right.length ≤ cap := by
        have hle : left.length ≤ cap := List.length_take_le _ _
        have hle' : right.length ≤ cap - left.length := List.length_take_le _ _
        omega
      by_cases hshort : left.length + right.length ≤ atpProofMaxSteps * 2
      · rw [List.length_append, if_pos (le_min hroom hshort), htake.trim]
        exact ⟨fun h => ⟨h, .inl hshort⟩, And.left⟩
      · rw [List.length_append, if_neg fun h => hshort (h.trans (min_le_right _ _)),
          htake.isProof_iff, htake.trimmed_iff]
        constructor
        · rintro ⟨hmeet, hnone⟩
          refine ⟨⟨_, le_rfl, _, le_rfl, ?_⟩, .inr hnone⟩
          rwa [List.take_length, List.take_length]
        · rintro ⟨hmeet, hshort' | hnone⟩
          · exact absurd hshort' hshort
          · have hend := hnone.meets_iff.mp hmeet
            rw [List.take_length, List.take_length] at hend
            exact ⟨hend, hnone⟩

end ProverState

end Thvm.Atp
