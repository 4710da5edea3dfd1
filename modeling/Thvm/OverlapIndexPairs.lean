import Thvm.OverlapIndexSpec

/-!
# Runs of the overlap-partner indexes

A tree that is kept or extended was built when the revision counter was ahead of the number of rules
by as much as it is now, so it holds the strings of its rules, the composed ones apart.
-/

namespace Thvm.Atp
open DiscriminationTree TransitionRuns SlotColumns

/-! ## Trees that fit -/

/-- The numbers that a tree was built with lie behind those of the rules, and as long as the excess
of the revision over the number of rules is the same, the tree holds its rules. -/
structure Fits (strings : FTerm × FTerm → List (List ℕ)) (ix : AtpRuleIndex) (s : RuleSlots)
    (composed : List ℕ) : Prop where
  built : ix.nRulesBuilt ≤ ix.builtRevision
  revision : ix.builtRevision ≤ s.rRevision
  excess : ix.builtRevision + s.nRules ≤ s.rRevision + ix.nRulesBuilt
  kept : ix.builtRevision + s.nRules = s.rRevision + ix.nRulesBuilt → ix.nRulesBuilt ≤ s.nRules ∧
    ∀ i < ix.nRulesBuilt, i ∉ composed → Entered strings ix.root s i
  records : ∀ r ∈ ix.root.records, r < ix.nRulesBuilt

section
variable {strings : FTerm × FTerm → List (List ℕ)} {ix : AtpRuleIndex} {s s' : RuleSlots}
  {composed composed' : List ℕ} {touched : ℕ → Prop}

theorem fits_new (hn : s.nRules = 0) : Fits strings .new s composed where
  built := le_rfl
  revision := Nat.zero_le _
  excess := by simp [AtpRuleIndex.new, hn]
  kept _ := ⟨Nat.zero_le _, fun _ hi => absurd hi (Nat.not_lt_zero _)⟩
  records _ hr := nomatch hr

theorem Fits.advance (h : Fits strings ix s composed) (ha : Advances touched s s')
    (hc : ∀ i, i ∈ composed ∨ touched i → i ∈ composed') : Fits strings ix s' composed' := by
  have hexcess := h.excess
  have hexcess' := ha.excess
  refine ⟨h.built, h.revision.trans ha.revision, by omega, fun heq => ?_, h.records⟩
  obtain ⟨hle, hheld⟩ := h.kept (by omega)
  obtain ⟨hle', hsides⟩ := ha.kept (by omega)
  refine ⟨hle.trans hle', fun i hi hnot => ?_⟩
  obtain ⟨hl, hr⟩ := hsides i (hi.trans_le hle) fun ht => hnot (hc i (.inr ht))
  unfold Entered
  rw [hl, hr]
  exact hheld i hi fun hm => hnot (hc i (.inl hm))

theorem revision_of_lt (h : s.rRevision < 2 ^ 32) : AtpRuleIndex.revision s = s.rRevision :=
  Nat.mod_eq_of_lt h

/-- When the two numbers say that rules have only been added, that is so. -/
theorem Fits.of_appended (h : Fits strings ix s composed) (hrev : s.rRevision < 2 ^ 32)
    (happ : ix.Appended s) : ix.builtRevision + s.nRules = s.rRevision + ix.nRulesBuilt := by
  obtain ⟨-, hlt, hdelta⟩ := happ
  rw [revision_of_lt hrev] at hdelta
  have hle := h.revision
  have hsplit : s.rRevision + 2 ^ 32 - ix.builtRevision =
      s.rRevision - ix.builtRevision + 2 ^ 32 := by omega
  rw [hsplit, Nat.add_mod_right, Nat.mod_eq_of_lt (by omega)] at hdelta
  omega

theorem Fits.rebuild (h : Fits strings ix s composed) (hrev : s.rRevision < 2 ^ 32)
    (hn : s.nRules ≤ s.rRevision)
    (hcomposed : ix.Appended s → ∀ i ∈ composed, ix.nRulesBuilt ≤ i) :
    Fits strings (ix.rebuild strings s) s [] ∧
      ∀ i < s.nRules, Entered strings (ix.rebuild strings s).root s i := by
  have hentered : ∀ i < s.nRules, Entered strings (ix.rebuild strings s).root s i := by
    intro i hi
    unfold AtpRuleIndex.rebuild
    split
    · next happ =>
      obtain ⟨hle, hheld⟩ := h.kept (h.of_appended hrev happ)
      by_cases hold : i < ix.nRulesBuilt
      · have hnot : i ∉ composed := fun hm => absurd (hcomposed happ i hm) (not_le.mpr hold)
        exact fun w hw hne => holds_enterAll (hheld i hold hnot w hw hne) _
      · exact enterAll_entered (List.mem_range'_1.mpr (by omega))
    · exact enterAll_entered (List.mem_range'_1.mpr (by omega))
  refine ⟨⟨?_, ?_, ?_, fun _ => ⟨le_rfl, fun i hi _ => hentered i hi⟩, fun r hr => ?_⟩, hentered⟩
  · exact hn.trans_eq (revision_of_lt hrev).symm
  · exact (revision_of_lt hrev).le
  · exact (congrArg (· + s.nRules) (revision_of_lt hrev)).le
  · have hrange : ∀ first, r ∈ List.range' first (s.nRules - first) → r < s.nRules := by
      intro first hr
      have hr := List.mem_range'_1.mp hr
      omega
    unfold AtpRuleIndex.rebuild at hr
    dsimp only at hr
    split at hr
    · next happ =>
      rcases records_enterAll hr with hr | hr
      · exact hrange _ hr
      · exact (h.records r hr).trans happ.2.1
    · rcases records_enterAll hr with hr | hr
      · exact hrange 0 hr
      · cases hr

end

namespace OverlapState

variable {w : RuleWorld} {o : RuleOptions} {s s' : OverlapState} {op : OverlapOp}

/-- What holds between the operations. -/
structure Inv (s : OverlapState) : Prop where
  room : s.rules.nRules ≤ s.rules.rRevision
  cpIndex : Fits faceStrings s.cpIndex s.rules s.composed
  cpSubindex : Fits subtermStrings s.cpSubindex s.rules s.composed
  sameRules : s.cpSubindex.nRulesBuilt = s.cpIndex.nRulesBuilt
  sameRevision : s.cpSubindex.builtRevision = s.cpIndex.builtRevision

/-- Both trees hold the strings of all rules. -/
structure Ready (s : OverlapState) : Prop where
  cpIndex : ∀ i < s.rules.nRules, Entered faceStrings s.cpIndex.root s.rules i
  cpSubindex : ∀ i < s.rules.nRules, Entered subtermStrings s.cpSubindex.root s.rules i
  records : ∀ r ∈ s.cpIndex.root.records, r < s.rules.nRules

theorem Start.inv (h : s.Start) : s.Inv := by
  refine ⟨(h.nRules.trans h.rRevision.symm).le, ?_, ?_, ?_, ?_⟩
  · rw [h.cpIndex]
    exact fits_new h.nRules
  · rw [h.cpSubindex]
    exact fits_new h.nRules
  · rw [h.cpIndex, h.cpSubindex]
  · rw [h.cpIndex, h.cpSubindex]

theorem Inv.edit {touched : ℕ → Prop} (h : s.Inv) (ha : Advances touched s.rules s'.rules)
    (hcp : s'.cpIndex = s.cpIndex) (hsub : s'.cpSubindex = s.cpSubindex)
    (hc : ∀ i, i ∈ s.composed ∨ touched i → i ∈ s'.composed) : s'.Inv := by
  have hexcess := ha.excess
  have hroom := h.room
  refine ⟨by omega, ?_, ?_, ?_, ?_⟩
  · rw [hcp]
    exact h.cpIndex.advance ha hc
  · rw [hsub]
    exact h.cpSubindex.advance ha hc
  · rw [hcp, hsub]
    exact h.sameRules
  · rw [hcp, hsub]
    exact h.sameRevision

/-- A careful look after the indexes leaves them ready. -/
theorem Inv.refresh (h : s.Inv) (hcareful : s.Careful .refresh) :
    s.refresh.Inv ∧ s.refresh.Ready := by
  obtain ⟨hrev, hcomposed⟩ := hcareful
  unfold OverlapState.refresh
  split
  · next hcur =>
    obtain ⟨hn, hbuilt⟩ := hcur
    rw [revision_of_lt hrev] at hbuilt
    have hnot : ∀ i < s.rules.nRules, i ∉ s.composed := fun i hi hm =>
      absurd (hcomposed (.inl ⟨hn, hbuilt.trans (revision_of_lt hrev).symm⟩) i hm)
        (not_le.mpr (hn.symm ▸ hi))
    have hcp := h.cpIndex.kept (by omega)
    have hsub := h.cpSubindex.kept (by rw [h.sameRules, h.sameRevision]; omega)
    rw [h.sameRules] at hsub
    refine ⟨⟨h.room, ?_, ?_, h.sameRules, h.sameRevision⟩, ?_, ?_, ?_⟩
    · exact { h.cpIndex with
        kept := fun _ => ⟨hcp.1, fun i hi _ => hcp.2 i hi (hnot i (hn ▸ hi))⟩ }
    · exact { h.cpSubindex with
        kept := fun _ => by
          rw [h.sameRules]
          exact ⟨hsub.1, fun i hi _ => hsub.2 i hi (hnot i (hn ▸ hi))⟩ }
    · exact fun i hi => hcp.2 i (hn.symm ▸ hi) (hnot i hi)
    · exact fun i hi => hsub.2 i (hn.symm ▸ hi) (hnot i hi)
    · exact fun r hr => hn ▸ h.cpIndex.records r hr
  · have hsame : s.cpSubindex.Appended s.rules ↔ s.cpIndex.Appended s.rules := by
      unfold AtpRuleIndex.Appended
      rw [h.sameRules, h.sameRevision]
    obtain ⟨hcp, hcpEntered⟩ := h.cpIndex.rebuild hrev h.room fun happ => hcomposed (.inr happ)
    obtain ⟨hsub, hsubEntered⟩ := h.cpSubindex.rebuild hrev h.room fun happ i hi =>
      h.sameRules.trans_le (hcomposed (.inr (hsame.mp happ)) i hi)
    exact ⟨⟨h.room, hcp, hsub, rfl, rfl⟩, hcpEntered, hsubEntered, hcp.records⟩

theorem inv_step (h : s.Inv) (hstep : s.Step w o op s') : s'.Inv := by
  obtain ⟨hcareful, hallowed, rfl⟩ := hstep
  cases op with
  | edit e =>
    refine h.edit (RuleSlots.advances_edit w o s.rules e hallowed) rfl rfl fun i hi => ?_
    exact List.mem_append.mpr hi.symm
  | refresh => exact (h.refresh hcareful).1

theorem inv_run {ops : List OverlapOp} (hstart : s.Start) (hrun : Run (Step w o) s ops s') :
    s'.Inv :=
  hrun.invariant (I := fun _ s => s.Inv) hstart.inv fun _ _ _ _ h hstep => inv_step h hstep

end OverlapState

end Thvm.Atp

/-!
## Critical pairs over the candidates

A critical pair needs a constructor position whose subterm is like a side of the other rule. The
rules that the indexes leave out have none, so the pairs are those of all rules.
-/

namespace Thvm.Atp
open BoundedLoops DiscriminationTree TransitionRuns

/-- A term that is no variable. -/
def NoVar (u : FTerm) : Prop := ∀ id, u ≠ .fvr id

def IsCtr (u : FTerm) : Prop := ∃ label args, u = .ctr label args

namespace RuleSlots

def bothSides (s : RuleSlots) (i : ℕ) : List FTerm := [s.lhs i, s.rhs i]

/-- A subterm, of the given kind, of a side of rule `i` and a side of rule `j` are related. -/
def Meets (s : RuleSlots) (kind : FTerm → Prop) (rel : FTerm → FTerm → Prop) (i j : ℕ) : Prop :=
  ∃ outer ∈ s.bothSides i, ∃ p u, outer.sub p = some u ∧ kind u ∧ ∃ face ∈ s.bothSides j, rel u face

variable {s : RuleSlots} {kind kind' : FTerm → Prop} {rel rel' : FTerm → FTerm → Prop} {i j : ℕ}

theorem Meets.mono (h : s.Meets kind rel i j) (hkind : ∀ u, kind u → kind' u)
    (hrel : ∀ u face, rel u face → rel' u face) : s.Meets kind' rel' i j := by
  obtain ⟨outer, houter, p, u, hu, hk, face, hface, hr⟩ := h
  exact ⟨outer, houter, p, u, hu, hkind u hk, face, hface, hrel u face hr⟩

end RuleSlots

theorem IsCtr.noVar {u : FTerm} (h : IsCtr u) : NoVar u := by
  obtain ⟨label, args, rfl⟩ := h
  exact fun id hid => nomatch hid

/-! ## The strings of a rule -/

theorem insertSyms_ne_nil (t : FTerm) (vm : VarMap) : (insertSyms t vm).1 ≠ [] := by
  cases t with
  | leaf l => cases l <;> exact List.cons_ne_nil _ _
  | node label args => exact List.cons_ne_nil _ _

theorem mem_subtermSymsArgs {args : List FTerm} {a : FTerm} (ha : a ∈ args) (vm : VarMap) :
    ∃ vm', ∀ w ∈ (subtermSyms a vm').1, w ∈ (subtermSymsArgs args vm).1 := by
  induction args generalizing vm with
  | nil => cases ha
  | cons b bs ih =>
    rcases List.mem_cons.mp ha with rfl | ha
    · exact ⟨vm, fun w hw => List.mem_append_left _ hw⟩
    · obtain ⟨vm', h⟩ := ih ha (subtermSyms b vm).2
      exact ⟨vm', fun w hw => List.mem_append_right _ (h w hw)⟩

/-- Every constructor position has its string. -/
theorem mem_subtermSyms {t u : FTerm} {p : List ℕ} (hu : t.sub p = some u) (hctr : IsCtr u)
    (vm : VarMap) : ∃ vm', (insertSyms u vm').1 ∈ (subtermSyms t vm).1 := by
  induction p generalizing t vm with
  | nil =>
    obtain rfl := Option.some.inj ((TermTree.sub_nil t).symm.trans hu)
    obtain ⟨label, args, rfl⟩ := hctr
    exact ⟨vm, List.mem_cons_self⟩
  | cons i p ih =>
    obtain ⟨label, args, a, rfl, ha, hu⟩ := TermTree.sub_cons.mp hu
    obtain ⟨vm', hall⟩ := mem_subtermSymsArgs (List.mem_of_getElem? ha)
      (insertSyms (.ctr label args) vm).2
    obtain ⟨vm'', hmem⟩ := ih hu vm'
    exact ⟨vm'', List.mem_cons_of_mem _ (hall _ hmem)⟩

namespace OverlapState

variable {s : OverlapState} {f j : ℕ}

/-- A rule with a side like a subterm of `f` that is no variable is a candidate. -/
theorem Ready.cpIndexCollect (h : s.Ready) (hj : j < s.rules.nRules)
    (ho : (s.cpIndexCollect f).overflow = false)
    (hmeets : s.rules.Meets NoVar (fun u face => Alike face u) f j) :
    j ∈ (s.cpIndexCollect f).found := by
  obtain ⟨outer, houter, p, u, hu, hvar, face, hface, halike⟩ := hmeets
  have hstring : (insertSyms face .reset).1 ∈ faceStrings (s.rules.lhs j, s.rules.rhs j) := by
    rcases List.mem_pair.mp hface with rfl | rfl
    · exact List.mem_cons_self
    · exact List.mem_cons_of_mem _ List.mem_cons_self
  refine collectFaces_finds (fun qf g hg => s.keeps_cpIndexCollectFace qf hg)
    (List.mem_pair.mp houter) (fun g hg hog => ?_) ho
  exact cpIndexCollectFace_finds hg hu hvar halike
    (h.cpIndex j hj _ hstring (insertSyms_ne_nil face _)) hog

/-- A rule with a constructor subterm like a side of `f` is a candidate. -/
theorem Ready.cpSubindexCollect (h : s.Ready) (hj : j < s.rules.nRules)
    (ho : (s.cpSubindexCollect f).overflow = false) (hmeets : s.rules.Meets IsCtr Alike j f) :
    j ∈ (s.cpSubindexCollect f).found := by
  obtain ⟨outer, houter, p, u, hu, hctr, face, hface, halike⟩ := hmeets
  obtain ⟨vm, hstring⟩ : ∃ vm, (insertSyms u vm).1 ∈
      subtermStrings (s.rules.lhs j, s.rules.rhs j) := by
    obtain ⟨vm, hmem⟩ := mem_subtermSyms hu hctr .reset
    rcases List.mem_pair.mp houter with rfl | rfl
    · exact ⟨vm, List.mem_append_left _ hmem⟩
    · exact ⟨vm, List.mem_append_right _ hmem⟩
  refine collectFaces_finds (fun qf g hg => s.keeps_cpSubindexCollectFace qf hg)
    (List.mem_pair.mp hface) (fun g hg hog => ?_) ho
  exact cpSubindexCollectFace_finds hg halike
    (h.cpSubindex j hj _ hstring (insertSyms_ne_nil u _)) hog

end OverlapState

/-! ## Positions without a pair -/

section
variable {st st' : CpState} {u v : FTerm} {n : ℕ}

theorem unifyWalk_noVar {b : ℕ → Option FTerm} (h : NoVar u) (hwalk : unifyWalk b n u = some v) :
    v = u := by
  cases n with
  | zero => cases hwalk
  | succ n =>
    cases u with
    | leaf l =>
      cases l with
      | fvr id => exact absurd rfl (h id)
      | num d x => exact (Option.some.inj hwalk).symm
    | node label args => exact (Option.some.inj hwalk).symm

theorem alike_of_unifyArgs {unify : FTerm → FTerm → UnifyState → Option (Bool × UnifyState)}
    (hunify : ∀ a b st st', unify a b st = some (true, st') → Alike a b) {as bs : List FTerm}
    {us us' : UnifyState} (h : unifyArgs unify as bs us = some (true, us')) (i : ℕ) {a b : FTerm}
    (ha : as[i]? = some a) (hb : bs[i]? = some b) : Alike a b := by
  induction as generalizing bs us i with
  | nil => cases ha
  | cons a' as ih =>
    cases bs with
    | nil => cases hb
    | cons b' bs =>
      obtain ⟨⟨ok, us₁⟩, hone, hrest⟩ := Option.bind_eq_some_iff.mp h
      cases ok with
      | false => cases hrest
      | true =>
        cases i with
        | zero =>
          obtain rfl := Option.some.inj ha
          obtain rfl := Option.some.inj hb
          exact hunify a' b' us us₁ hone
        | succ i => exact ih hrest i ha hb

theorem alike_of_unifyAt {unify : FTerm → FTerm → UnifyState → Option (Bool × UnifyState)}
    (hunify : ∀ a b st st', unify a b st = some (true, st') → Alike a b) {us us' : UnifyState}
    (hu : NoVar u) (hv : NoVar v) (h : unifyAt n unify u v us = some (true, us')) : Alike u v := by
  unfold unifyAt at h
  split at h
  · next heq => exact kboEq_iff.mp heq ▸ .refl u
  · split at h
    · exact absurd rfl (hu _)
    · exact absurd rfl (hv _)
    · split at h
      · cases h
      · next hlabel =>
        obtain rfl := not_not.mp hlabel
        split at h
        · cases h
        · next hlen =>
          exact .ctr _ (not_not.mp hlen) fun i a b ha hb => alike_of_unifyArgs hunify h i ha hb
    · cases h

/-- Terms that unify, from any substitution, are alike. -/
theorem alike_of_thvmUnify {us us' : UnifyState} (h : thvmUnify n u v us = some (true, us')) :
    Alike u v := by
  induction n generalizing u v us us' with
  | zero => cases h
  | succ n ih =>
    obtain ⟨u', hu', hrest⟩ := Option.bind_eq_some_iff.mp h
    obtain ⟨v', hv', hat⟩ := Option.bind_eq_some_iff.mp hrest
    by_cases hu : NoVar u
    · by_cases hv : NoVar v
      · obtain rfl := unifyWalk_noVar hu hu'
        obtain rfl := unifyWalk_noVar hv hv'
        exact alike_of_unifyAt (fun a b st st' => ih) hu hv hat
      · obtain ⟨id, hid⟩ := not_forall.mp hv
        obtain rfl := not_not.mp hid
        exact .right u id
    · obtain ⟨id, hid⟩ := not_forall.mp hu
      obtain rfl := not_not.mp hid
      exact .left id v

variable {flags : CpFlags} {ctx : CpCtx} {p : List ℕ}

theorem cpUnify_out (h : ¬ Alike u ctx.lj) (hrun : cpUnify flags ctx n p u st = some st') :
    st'.out = st.out := by
  obtain ⟨⟨ok, us⟩, hunify, hrun⟩ := Option.bind_eq_some_iff.mp hrun
  cases ok with
  | true => exact absurd (alike_of_thvmUnify hunify) h
  | false =>
    obtain rfl := Option.some.inj hrun
    rfl

theorem cpVisit_out (hsub : ctx.li.sub p = some u) (hctr : IsCtr u) (h : ¬ Alike u ctx.lj)
    (hrun : cpVisit flags ctx n p st = some st') : st'.out = st.out := by
  unfold cpVisit at hrun
  rw [CriticalPairs.cpSubtermAt_eq, hsub] at hrun
  obtain ⟨label, args, rfl⟩ := hctr
  split at hrun
  · exact congrArg CpState.out (Option.some.inj hrun).symm
  · split at hrun
    · rw [← Option.some.inj hrun]
      rfl
    · dsimp only at hrun
      split at hrun
      · exact congrArg CpState.out (Option.some.inj hrun).symm
      · exact cpUnify_out h hrun

theorem cpWalkArgs_out {li : FTerm} {visit : List ℕ → CpState → Option CpState}
    {maxDepth label i : ℕ} {args rest : List FTerm} (hsub : li.sub p = some (FTerm.ctr label args))
    (hrest : args.drop i = rest)
    (hwalk : ∀ a ∈ args, ∀ path st st', li.sub path = some a →
      cpWalkPositions maxDepth visit a path st = some st' → st'.out = st.out)
    (hrun : cpWalkArgs maxDepth visit rest p i st = some st') : st'.out = st.out := by
  induction rest generalizing i st with
  | nil => exact congrArg CpState.out (Option.some.inj hrun).symm
  | cons a rest ih =>
    obtain ⟨st₁, hone, hrun⟩ := Option.bind_eq_some_iff.mp hrun
    have hget : args[i]? = some a := by
      rw [← List.head?_drop, hrest, List.head?_cons]
    have ha : li.sub (p ++ [i]) = some a := by
      rw [TermTree.sub_append, hsub]
      simp [TermTree.sub, hget]
    have hdrop : args.drop (i + 1) = rest := by
      rw [← List.tail_drop, hrest, List.tail_cons]
    exact (ih hdrop hrun).trans (hwalk a (List.mem_of_getElem? hget) _ st st₁ ha hone)

/-- A walk adds nothing when its visits to constructor positions add nothing. -/
theorem cpWalkPositions_out {li t : FTerm} {visit : List ℕ → CpState → Option CpState}
    {maxDepth : ℕ} (hvisit : ∀ q u st st', li.sub q = some u → IsCtr u →
      visit q st = some st' → st'.out = st.out)
    (hsub : li.sub p = some t) (hrun : cpWalkPositions maxDepth visit t p st = some st') :
    st'.out = st.out := by
  induction t using TermTree.induct generalizing p st st' with
  | leaf l => cases l <;> exact congrArg CpState.out (Option.some.inj hrun).symm
  | node label args ih =>
    obtain ⟨st₁, hone, hrun⟩ := Option.bind_eq_some_iff.mp hrun
    have hout := hvisit p _ st st₁ hsub ⟨label, args, rfl⟩ hone
    split at hrun
    · have hlast := congrArg CpState.out (Option.some.inj hrun)
      rw [← hlast, ← hout]
      split <;> rfl
    · rw [← hout]
      exact cpWalkArgs_out (i := 0) hsub rfl
        (fun a ha path st st' hpath hwalk => ih a ha hpath hwalk) hrun

end

namespace RuleSlots

variable {w : RuleWorld} {o : RuleOptions} {v : OverlapWorld} {s : RuleSlots} {rounds i j : ℕ}
  {li ri lj rj : FTerm} {formed skip : Bool} {buf out : List CriticalPair}

theorem overlapFaces_eq (h : ∀ p u, li.sub p = some u → IsCtr u → ¬ Alike u lj)
    (hrun : s.overlapFaces v rounds i j formed skip li ri lj rj buf = some out) : out = buf := by
  unfold overlapFaces at hrun
  split at hrun
  · exact (Option.some.inj hrun).symm
  · obtain ⟨st, hwalk, hout⟩ := Option.bind_eq_some_iff.mp hrun
    have hvisit : ∀ flags ctx, ctx.li = li → ctx.lj = lj → ∀ q u st st', li.sub q = some u →
        IsCtr u → cpVisit flags ctx rounds q st = some st' → st'.out = st.out := by
      rintro flags ctx rfl rfl q u st st' hq hu
      exact cpVisit_out hq hu (h q u hq hu)
    have hsame : st.out = buf := by
      cases skip with
      | false => exact cpWalkPositions_out (hvisit _ _ rfl rfl) (TermTree.sub_nil li) hwalk
      | true => exact cpWalkPositions_out (hvisit _ _ rfl rfl) (TermTree.sub_nil li) hwalk
    rw [← Option.some.inj hout, hsame, List.drop_length, List.filter_nil, List.append_nil]

/-- Rules without a common overlap have no pair. -/
theorem atpOverlapIj_nil (h : ¬ s.Meets IsCtr Alike i j)
    (hrun : s.atpOverlapIj w o v rounds i j = some out) : out = [] := by
  have hno : ∀ outer ∈ s.bothSides i, ∀ face ∈ s.bothSides j, ∀ p u, outer.sub p = some u →
      IsCtr u → ¬ Alike u (thvmRenameVars cpRenameOffset face) :=
    fun outer ho face hf p u hu hc ha => h ⟨outer, ho, p, u, hu, hc, face, hf, ha.of_rename⟩
  have hlhs : ∀ k, s.lhs k ∈ s.bothSides k := fun k => List.mem_cons_self
  have hrhs : ∀ k, s.rhs k ∈ s.bothSides k := fun k => List.mem_cons_of_mem _ List.mem_cons_self
  obtain ⟨buf₁, h₁, hrun⟩ := Option.bind_eq_some_iff.mp hrun
  obtain ⟨buf₂, h₂, hrun⟩ := Option.bind_eq_some_iff.mp hrun
  obtain ⟨buf₃, h₃, hrun⟩ := Option.bind_eq_some_iff.mp hrun
  calc out = buf₃ := overlapFaces_eq (hno _ (hrhs i) _ (hrhs j)) hrun
    _ = buf₂ := overlapFaces_eq (hno _ (hrhs i) _ (hlhs j)) h₃
    _ = buf₁ := overlapFaces_eq (hno _ (hlhs i) _ (hrhs j)) h₂
    _ = [] := overlapFaces_eq (hno _ (hlhs i) _ (hlhs j)) h₁

theorem atpGenOne_nil (h : ¬ s.Meets IsCtr Alike i j)
    (hrun : s.atpGenOne w o v rounds (i, j) = some out) : out = [] := by
  unfold atpGenOne at hrun
  split at hrun
  · exact (Option.some.inj hrun).symm
  · exact atpOverlapIj_nil h hrun

end RuleSlots

/-! ## Generating ends -/

section
variable {w : RuleWorld} {o : RuleOptions} {v : OverlapWorld} {s : RuleSlots} {i j : ℕ}
  {li ri lj rj : FTerm}
open CriticalPairs

theorem overlapFaces_settles (h : ∀ cap skip, CriticalPairs.Ready ⟨li, ri, lj, rj, cap, skip⟩)
    (formed skip : Bool) (buf : List CriticalPair) :
    ∃ out, Settles (fun n => s.overlapFaces v n i j formed skip li ri lj rj buf) out := by
  unfold RuleSlots.overlapFaces
  split
  · exact ⟨_, .const buf⟩
  · obtain ⟨st, hset, -⟩ := cpWalkPositions_spec (v.flags i j) cpMaxDepth (h atpCpBatch skip)
      (rfl : (CpState.mk buf 0 0 .empty).subst.bindings = _) (TermTree.sub_nil li)
    have hpair : Settles (fun n => (if skip then thvmCriticalPairsPairNoroot else
        thvmCriticalPairsPair) (v.flags i j) li ri lj rj atpCpBatch n ⟨buf, 0, 0, .empty⟩) st := by
      cases skip <;> exact hset
    exact ⟨_, hpair.bind (.const _)⟩

theorem renamed_ready {ri rj : FTerm × FTerm} (hi : RuleOk ri) (hj : RuleOk rj) (cap : ℕ)
    (skip : Bool) : CriticalPairs.Ready ⟨ri.1, ri.2, thvmRenameVars cpRenameOffset rj.1,
      thvmRenameVars cpRenameOffset rj.2, cap, skip⟩ :=
  have h := ready_renamedCtx hi hj cap
  ⟨h.capped, h.below⟩

theorem atpOverlapIj_settles (hi : RuleOk (s.lhs i, s.rhs i)) (hj : RuleOk (s.lhs j, s.rhs j)) :
    ∃ out, Settles (fun n => s.atpOverlapIj w o v n i j) out := by
  have hflip : ∀ {k}, RuleOk (s.lhs k, s.rhs k) → RuleOk (s.rhs k, s.lhs k) := fun h =>
    ⟨h.capped.symm, h.below.symm⟩
  obtain ⟨b₁, h₁⟩ := overlapFaces_settles (s := s) (v := v) (i := i) (j := j) (renamed_ready hi hj)
    true (s.skipRoots v i j).1 []
  obtain ⟨b₂, h₂⟩ := overlapFaces_settles (s := s) (v := v) (i := i) (j := j)
    (renamed_ready hi (hflip hj)) (s.twoFaced w o v j) (s.skipRoots v i j).2.1 b₁
  obtain ⟨b₃, h₃⟩ := overlapFaces_settles (s := s) (v := v) (i := i) (j := j)
    (renamed_ready (hflip hi) hj) (s.twoFaced w o v i) (s.skipRoots v i j).2.2.1 b₂
  obtain ⟨b₄, h₄⟩ := overlapFaces_settles (s := s) (v := v) (i := i) (j := j)
    (renamed_ready (hflip hi) (hflip hj)) (s.twoFaced w o v i && s.twoFaced w o v j)
    (s.skipRoots v i j).2.2.2 b₃
  exact ⟨b₄, h₁.bind (h₂.bind (h₃.bind h₄))⟩

/-- The scan returns when the ids of the variables leave room for the renaming and no constructor
has more arguments than the matcher allows. -/
theorem generate_settles (hrules : ∀ i < s.nRules, RuleOk (s.lhs i, s.rhs i)) {calls : List (ℕ × ℕ)}
    (hcalls : ∀ call ∈ calls, call.1 < s.nRules ∧ call.2 < s.nRules) :
    ∃ out, Settles (fun n => s.generate w o v n calls) out := by
  have hone : ∀ call : ℕ × ℕ, ∃ out, call.1 < s.nRules ∧ call.2 < s.nRules →
      Settles (fun n => s.atpGenOne w o v n call) out := fun call => by
    by_cases hcall : call.1 < s.nRules ∧ call.2 < s.nRules
    · unfold RuleSlots.atpGenOne
      split
      · exact ⟨[], fun _ => .const _⟩
      · obtain ⟨out, hout⟩ := atpOverlapIj_settles (w := w) (o := o) (v := v)
          (hrules _ hcall.1) (hrules _ hcall.2)
        exact ⟨out, fun _ => hout⟩
    · exact ⟨[], fun h => absurd h hcall⟩
  choose out hout using hone
  exact ⟨_, (Settles.mapM fun call hcall => hout call (hcalls call hcall)).bind (.const _)⟩

end

/-! ## Loops that leave out calls -/

section
variable {C P : Type} {gen : C → Option (List P)} {calls : List C} {pairs : List (List P)}

theorem mem_mapM {x : P} (h : calls.mapM gen = some pairs) :
    x ∈ pairs.flatten ↔ ∃ c ∈ calls, ∃ out, gen c = some out ∧ x ∈ out := by
  induction calls generalizing pairs with
  | nil =>
    rw [List.mapM_nil] at h
    obtain rfl := Option.some.inj h
    simp
  | cons call calls ih =>
    rw [List.mapM_cons] at h
    obtain ⟨out, hout, h⟩ := Option.bind_eq_some_iff.mp h
    obtain ⟨rest, hrest, h⟩ := Option.bind_eq_some_iff.mp h
    obtain rfl := Option.some.inj h
    rw [List.flatten_cons, List.mem_append, ih hrest, List.exists_mem_cons_iff, hout]
    simp

theorem mapM_isSome : (calls.mapM gen).isSome ↔ ∀ c ∈ calls, (gen c).isSome := by
  induction calls with
  | nil => simp
  | cons call calls ih =>
    rw [List.mapM_cons, List.forall_mem_cons, ← ih]
    cases gen call <;> cases calls.mapM gen <;> simp

/-- Calls that give nothing can be left out. -/
theorem mapM_skip (calls' : List C) (h : calls.mapM gen = some pairs)
    (hsub : ∀ c ∈ calls', c ∈ calls) (hskip : ∀ c ∈ calls, c ∉ calls' → ∀ out, gen c = some out → out = []) :
    ∃ pairs', calls'.mapM gen = some pairs' ∧ ∀ x, x ∈ pairs'.flatten ↔ x ∈ pairs.flatten := by
  have hall := mapM_isSome.mp (Option.isSome_of_eq_some h)
  obtain ⟨pairs', h'⟩ := Option.isSome_iff_exists.mp
    (mapM_isSome.mpr fun c hc => hall c (hsub c hc))
  refine ⟨pairs', h', fun x => ?_⟩
  rw [mem_mapM h, mem_mapM h']
  constructor
  · rintro ⟨call, hc, out, hout, hx⟩
    exact ⟨call, hsub call hc, out, hout, hx⟩
  · rintro ⟨call, hc, out, hout, hx⟩
    by_cases hin : call ∈ calls'
    · exact ⟨call, hin, out, hout, hx⟩
    · rw [hskip call hc hin out hout] at hx
      cases hx

end

namespace OverlapState

variable {w : RuleWorld} {o : RuleOptions} {v : OverlapWorld} {s t : OverlapState}
  {rounds first count i j : ℕ}

theorem mem_scanCalls : (i, j) ∈ s.scanCalls first count ↔
    (i ∈ List.range' first (s.newCount first count) ∧ j < s.rules.nRules) ∨
      (i < first ∧ j ∈ List.range' first (s.newCount first count)) := by
  simp [scanCalls]

theorem mem_partners {g : Gathered ℕ} {n : ℕ} :
    j ∈ partners g n ↔ if g.overflow then j < n else j ∈ g.found := by
  unfold partners
  split
  · exact List.mem_range
  · exact List.mem_mergeSort

theorem mem_indexedCalls : (i, j) ∈ s.indexedCalls first count ↔
    (i ∈ List.range' first (s.newCount first count) ∧
        j ∈ partners (s.cpIndexCollect i) s.rules.nRules) ∨
      (j ∈ List.range' first (s.newCount first count) ∧
        i ∈ partners (s.cpSubindexCollect j) first ∧ i < first) := by
  simp [indexedCalls]

/-- A call that the indexes leave out gives no pair. -/
theorem Ready.indexed (h : s.Ready) (hij : (i, j) ∈ s.scanCalls first count)
    (hmeets : s.rules.Meets IsCtr Alike i j) : (i, j) ∈ s.indexedCalls first count := by
  rw [mem_indexedCalls, mem_partners, mem_partners]
  have hrange : ∀ k, k ∈ List.range' first (s.newCount first count) → k < s.rules.nRules := by
    intro k hk
    have hk := List.mem_range'_1.mp hk
    unfold newCount at hk
    omega
  rcases mem_scanCalls.mp hij with ⟨hi, hj⟩ | ⟨hi, hj⟩
  · refine .inl ⟨hi, ?_⟩
    split
    · exact hj
    · next ho =>
      exact h.cpIndexCollect hj (Bool.eq_false_iff.mpr ho)
        (hmeets.mono (fun _ => IsCtr.noVar) fun _ _ => Alike.symm)
  · refine .inr ⟨hj, ?_, hi⟩
    split
    · exact hi
    · next ho =>
      have hfirst : first ≤ j := (List.mem_range'_1.mp hj).1
      exact h.cpSubindexCollect ((hi.trans_le hfirst).trans (hrange j hj))
        (Bool.eq_false_iff.mpr ho) hmeets

theorem Ready.scanned (h : s.Ready) (hij : (i, j) ∈ s.indexedCalls first count) :
    (i, j) ∈ s.scanCalls first count := by
  rw [mem_scanCalls]
  rcases mem_indexedCalls.mp hij with ⟨hi, hj⟩ | ⟨hj, -, hi⟩
  · refine .inl ⟨hi, ?_⟩
    rw [mem_partners] at hj
    split at hj
    · exact hj
    · exact h.records j (found_cpIndexCollect hj)
  · exact .inr ⟨hi, hj⟩

theorem Ready.generate (h : s.Ready) {out : List CriticalPair}
    (hout : s.rules.generate w o v rounds (s.scanCalls first count) = some out) :
    ∃ out', s.rules.generate w o v rounds (s.indexedCalls first count) = some out' ∧
      ∀ cp, cp ∈ out' ↔ cp ∈ out := by
  obtain ⟨pairs, hpairs, hout⟩ := Option.bind_eq_some_iff.mp hout
  obtain rfl := Option.some.inj hout
  obtain ⟨pairs', hpairs', hmem⟩ := mapM_skip (s.indexedCalls first count) hpairs
    (fun call hcall => h.scanned hcall) fun call hcall hnot out hgen =>
      RuleSlots.atpGenOne_nil (fun hmeets => hnot (h.indexed hcall hmeets)) hgen
  refine ⟨pairs'.flatten, ?_, hmem⟩
  unfold RuleSlots.generate
  rw [hpairs']
  rfl

/-- Both generators return when the scan does, with the same pairs. -/
theorem Ready.generate_settles (h : s.Ready) (first count : ℕ)
    (hrules : ∀ i < s.rules.nRules, CriticalPairs.RuleOk (s.rules.lhs i, s.rules.rhs i)) :
    ∃ out out', Settles (fun n => s.rules.generate w o v n (s.scanCalls first count)) out ∧
      Settles (fun n => s.rules.generate w o v n (s.indexedCalls first count)) out' ∧
        ∀ cp, cp ∈ out' ↔ cp ∈ out := by
  have hcalls : ∀ call ∈ s.scanCalls first count, call.1 < s.rules.nRules ∧
      call.2 < s.rules.nRules := fun call hcall => by
    have hrange : ∀ k, k ∈ List.range' first (s.newCount first count) →
        first ≤ k ∧ k < s.rules.nRules := by
      intro k hk
      have hk := List.mem_range'_1.mp hk
      unfold newCount at hk
      omega
    rcases mem_scanCalls.mp hcall with ⟨hi, hj⟩ | ⟨hi, hj⟩
    · exact ⟨(hrange _ hi).2, hj⟩
    · exact ⟨(hi.trans_le (hrange _ hj).1).trans (hrange _ hj).2, (hrange _ hj).2⟩
  obtain ⟨out, hout⟩ := Atp.generate_settles (w := w) (o := o) (v := v) hrules hcalls
  obtain ⟨out', hout'⟩ := Atp.generate_settles (w := w) (o := o) (v := v) hrules
    fun call hcall => hcalls call (h.scanned hcall)
  refine ⟨out, out', hout, hout', fun cp => ?_⟩
  obtain ⟨N, hN⟩ := hout
  obtain ⟨N', hN'⟩ := hout'
  obtain ⟨_, hsame, hmem⟩ := h.generate (hN (N + N') (Nat.le_add_right N N'))
  rw [Option.some.inj ((hN' (N + N') (Nat.le_add_left N' N)).symm.trans hsame)]
  exact hmem cp

/-! ## The indexes over whole runs -/

def IsNum (u : FTerm) : Prop := ∃ dtype value, u = .num dtype value

/-- A subterm of a side of rule `i`, which is no variable, unifies with a side of rule `j`. -/
def Overlaps (t : OverlapState) (i j : ℕ) : Prop := t.rules.Meets NoVar Unifies i j

/-- Where a number in a rule unifies with a side of `f`, so does one of the rule's constructor
terms. -/
def NumeralsCovered (t : OverlapState) (f : ℕ) : Prop :=
  ∀ i < t.rules.nRules, t.rules.Meets IsNum Unifies i f → t.rules.Meets IsCtr Unifies i f

/-- What the indexes are for: no live partner of a rule is lost, and so no critical pair. For
the subterms it is only said of some of the rules. -/
structure Complete (w : RuleWorld) (o : RuleOptions) (of : ℕ → Prop) (t : OverlapState) : Prop where
  inner : ∀ f, (t.cpIndexCollect f).overflow = false → ∀ j < t.rules.nRules,
    t.rules.rDead j = false → t.Overlaps f j → j ∈ (t.cpIndexCollect f).found
  outer : ∀ f, of f → (t.cpSubindexCollect f).overflow = false → ∀ i < t.rules.nRules,
    t.rules.rDead i = false → t.Overlaps i f → i ∈ (t.cpSubindexCollect f).found
  pairs : ∀ v rounds first count out,
    t.rules.generate w o v rounds (t.scanCalls first count) = some out →
    ∃ out', t.rules.generate w o v rounds (t.indexedCalls first count) = some out' ∧
      ∀ cp, cp ∈ out' ↔ cp ∈ out

theorem noVar_cases {u : FTerm} (h : NoVar u) : IsCtr u ∨ IsNum u := by
  cases u with
  | leaf l =>
    cases l with
    | fvr id => exact absurd rfl (h id)
    | num d x => exact .inr ⟨d, x, rfl⟩
  | node label args => exact .inl ⟨label, args, rfl⟩

theorem overlaps_ctr (hnum : t.NumeralsCovered j) (hi : i < t.rules.nRules)
    (h : t.Overlaps i j) : t.rules.Meets IsCtr Unifies i j := by
  obtain ⟨outer, houter, p, u, hu, hvar, face, hface, hunify⟩ := h
  rcases noVar_cases hvar with hctr | hn
  · exact ⟨outer, houter, p, u, hu, hctr, face, hface, hunify⟩
  · exact hnum i hi ⟨outer, houter, p, u, hu, hn, face, hface, hunify⟩

theorem Unifies.symm {a b : FTerm} (h : Unifies a b) : Unifies b a := by
  obtain ⟨σ, τ, heq⟩ := h
  exact ⟨τ, σ, heq.symm⟩

theorem Ready.complete (h : t.Ready) : t.Complete w o t.NumeralsCovered where
  inner _ ho _ hj _ hoverlap :=
    h.cpIndexCollect hj ho (hoverlap.mono (fun _ => id) fun _ _ hu => (Unifies.symm hu).alike)
  outer _ hnum ho _ hi _ hoverlap :=
    h.cpSubindexCollect hi ho
      ((overlaps_ctr hnum hi hoverlap).mono (fun _ => id) fun _ _ => Unifies.alike)
  pairs _ _ _ _ _ hout := h.generate hout

/-- In a careful run the indexes are complete whenever they have been looked after. -/
theorem overlapIndexes_complete {ops : List OverlapOp} (hstart : s.Start)
    (hrun : Run (Step w o) s ops t) {t' : OverlapState} (hcall : t.Step w o .refresh t') :
    t'.Complete w o t'.NumeralsCovered := by
  obtain ⟨hcareful, -, rfl⟩ := hcall
  exact ((inv_run hstart hrun).refresh hcareful).2.complete

def blank : OverlapState := ⟨RuleSlots.blank, .new, .new, 0, []⟩

def oriented : RuleWorld := RuleSlots.oneRedex (.num 0 0) (.num 0 0)

/-- `h(x) → g(x)` is indexed, and `g(x) → k(x)` composes it to `h(x) → k(x)`. Then `k(a) → a` is
added. -/
def staleOps : List OverlapOp :=
  [.edit (.push (.ctr 2 [.fvr 0]) (.ctr 3 [.fvr 0])), .refresh,
    .edit (.push (.ctr 3 [.fvr 0]) (.ctr 4 [.fvr 0])), .edit (.compose 0 (.ctr 4 [.fvr 0])), .refresh,
    .edit (.push (.ctr 4 [.ctr 1 []]) (.ctr 1 []))]

def stale : OverlapState :=
  staleOps.foldl (fun s op => s.apply oriented RuleSlots.noOptions op) blank

theorem start_blank : blank.Start := ⟨rfl, rfl, rfl, rfl⟩

/-- The tree is extended twice and still has the right side `g(x)` of the first rule. -/
theorem overlapIndexes_stale : ∃ ops s, Run (Call oriented RuleSlots.noOptions) blank ops s ∧
    ∃ t, s.Call oriented RuleSlots.noOptions .refresh t ∧
      ¬t.Complete oriented RuleSlots.noOptions (fun _ => True) := by
  have halong : Along (fun s op => s.apply oriented RuleSlots.noOptions op)
      (fun s op => s.Allowed op) blank staleOps :=
    ⟨trivial, trivial, trivial, (by decide +kernel : _ < _), trivial, trivial, trivial⟩
  refine ⟨staleOps, stale, run_along _ (fun s op h => ⟨h, rfl⟩) halong, stale.refresh,
    ⟨trivial, rfl⟩, fun hcomplete => ?_⟩
  have hfound : (stale.refresh.cpIndexCollect 2).found = [1, 2] := by decide +kernel
  have hroom : (stale.refresh.cpIndexCollect 2).overflow = false := by decide +kernel
  have hlhs : stale.refresh.rules.lhs 2 = .ctr 4 [.ctr 1 []] := by decide +kernel
  have hrhs : stale.refresh.rules.rhs 0 = .ctr 4 [.fvr 0] := by decide +kernel
  have hoverlap : stale.refresh.Overlaps 2 0 := by
    refine ⟨_, List.mem_cons_self, [], _, TermTree.sub_nil _, ?_, _,
      List.mem_cons_of_mem _ List.mem_cons_self, .fvr, fun _ => .ctr 1 [], ?_⟩
    · rw [hlhs]
      exact fun id hid => nomatch hid
    · rw [hlhs, hrhs]
      rfl
  have hmem := hcomplete.inner 2 hroom 0 (by decide +kernel) (by decide +kernel) hoverlap
  rw [hfound] at hmem
  exact absurd hmem (by decide)

/-- The same without the composition. -/
def freshOps : List OverlapOp :=
  [.edit (.push (.ctr 2 [.fvr 0]) (.ctr 3 [.fvr 0])), .refresh,
    .edit (.push (.ctr 4 [.ctr 1 []]) (.ctr 1 []))]

theorem overlapIndexes_complete_fresh : ∃ t, OverlapState.Complete oriented RuleSlots.noOptions
    t.NumeralsCovered t := by
  have halong : Along (fun s op => s.apply oriented RuleSlots.noOptions op)
      (fun s op => s.Careful op ∧ s.Allowed op) blank (freshOps ++ [.refresh]) :=
    ⟨⟨trivial, trivial⟩, ⟨⟨by decide +kernel, fun _ => nofun⟩, trivial⟩, ⟨trivial, trivial⟩,
      ⟨⟨by decide +kernel, fun _ => nofun⟩, trivial⟩, trivial⟩
  have hrun := run_along (Step oriented RuleSlots.noOptions) (fun s op h => ⟨h.1, h.2, rfl⟩) halong
  obtain ⟨t, hrun, hlast⟩ := hrun.snoc_inv
  exact ⟨_, overlapIndexes_complete start_blank hrun hlast⟩

end OverlapState

end Thvm.Atp
