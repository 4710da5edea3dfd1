import Mathlib.Data.Finset.Card
import Thvm.CnfDistribution

/-!
# Naming against distributing

The clauses of the named subformulas determine the names in every model, so that they
are true only where the matrix is. A model of the matrix extends to the names when these
take all variables and are new.
-/

namespace Thvm.Fol

open BoundedLoops

variable {D : Type} {M M' : Model D} {ρ ρ' : ℕ → D} {f g p q : Formula} {st : TseitinState}
  {b c : FolLit} {isAnd : Bool}

/-! ## The run -/

/-- The conjunctions and disjunctions of a matrix in the order of their names. -/
def compounds : Formula → List Formula
  | .and p q => compounds p ++ compounds q ++ [.and p q]
  | .or p q => compounds p ++ compounds q ++ [.or p q]
  | _ => []

/-- The variables of a formula in the order of their first occurrence. -/
def varIds (f : Formula) : List ℕ := f.toTerm.leaves.filterMap FTerm.leafId

/-- The name of a subformula when the counter has a value. -/
def auxOf (f : Formula) (next : ℕ) : FTerm :=
  folFreshAux (folCollectVars folTseitinMaxVars f.toTerm []) next

theorem emit_eq (out : List FolClause) {lits : List FolLit} (h : lits.length ≤ 64) :
    folTseitinEmit out lits = out ++ [lits] := by
  have hcap : ¬lits.length > folMaxLits := Nat.not_lt.mpr h
  rw [folTseitinEmit, folClauseNew, if_neg hcap]
  rfl

/-- What a name means: its clauses hold when it is equivalent to the subformula. -/
theorem folTseitinName_out :
    M.HoldsClauses ρ (folTseitinName f isAnd b c st).2.out ↔
      M.HoldsClauses ρ st.out ∧ (M.HoldsAtom ρ (auxOf f st.next) ↔
        if isAnd then M.HoldsLit ρ b ∧ M.HoldsLit ρ c else M.HoldsLit ρ b ∨ M.HoldsLit ρ c) := by
  unfold folTseitinName auxOf
  generalize folFreshAux _ _ = aux
  cases isAnd with
  | true =>
    simp only [if_true, emit_eq, List.length_cons, List.length_nil, Nat.reduceAdd, Nat.reduceLeDiff,
      Model.holdsClauses_append, Model.holdsClauses_singleton, Model.holdsClause_cons,
      Model.holdsLit_pos, Model.holdsLit_neg, Model.holdsLit_not, Model.holdsClause_nil, or_false]
    tauto
  | false =>
    simp only [Bool.false_eq_true, if_false, emit_eq, List.length_cons, List.length_nil,
      Nat.reduceAdd, Nat.reduceLeDiff, Model.holdsClauses_append, Model.holdsClauses_singleton,
      Model.holdsClause_cons, Model.holdsLit_pos, Model.holdsLit_neg, Model.holdsLit_not,
      Model.holdsClause_nil, or_false]
    tauto

/-- The steps from one state to another name the given subformulas, with consecutive labels. -/
def Names (fs : List Formula) (st st' : TseitinState) : Prop :=
  st'.next = st.next + fs.length ∧
    st'.named = st.named ++ fs.mapIdx fun i g => (g, auxOf g (st.next + i))

theorem Names.refl (st : TseitinState) : Names [] st st := ⟨rfl, (List.append_nil _).symm⟩

theorem Names.trans {fs gs : List Formula} {st' st'' : TseitinState} (h : Names fs st st')
    (h' : Names gs st' st'') : Names (fs ++ gs) st st'' := by
  obtain ⟨hnext, hnamed⟩ := h
  obtain ⟨hnext', hnamed'⟩ := h'
  refine ⟨by rw [hnext', hnext, List.length_append, Nat.add_assoc], ?_⟩
  rw [hnamed', hnamed, hnext, List.mapIdx_append, List.append_assoc]
  simp only [Nat.add_comm, Nat.add_left_comm]

theorem names_folTseitinName (f : Formula) (isAnd : Bool) (b c : FolLit) (st : TseitinState) :
    Names [f] st (folTseitinName f isAnd b c st).2 := ⟨rfl, rfl⟩

theorem names_folTseitinRec (hf : f.IsMatrix) (st : TseitinState) :
    Names (compounds f) st (folTseitinRec f st).2 := by
  induction hf generalizing st with
  | atom t => exact Names.refl st
  | not t => exact Names.refl st
  | and _ _ ihp ihq => exact ((ihp st).trans (ihq _)).trans (names_folTseitinName _ _ _ _ _)
  | or _ _ ihp ihq => exact ((ihp st).trans (ihq _)).trans (names_folTseitinName _ _ _ _ _)

/-- Every auxiliary is equivalent to what it names. -/
def Defines (M : Model D) (st : TseitinState) : Prop :=
  ∀ e ∈ st.named, ∀ ρ, M.HoldsAtom ρ e.2 ↔ M.Holds ρ e.1

/-- The clauses make the name of a matrix equivalent to it. -/
theorem folTseitinRec_sound (hf : f.IsMatrix)
    (h : M.HoldsClauses ρ (folTseitinRec f st).2.out) :
    M.HoldsClauses ρ st.out ∧ (M.HoldsLit ρ (folTseitinRec f st).1 ↔ M.Holds ρ f) := by
  induction hf generalizing st with
  | atom t => exact ⟨h, Iff.rfl⟩
  | not t => exact ⟨h, Iff.rfl⟩
  | and _ _ ihp ihq =>
    obtain ⟨hout, hname⟩ := folTseitinName_out.mp h
    obtain ⟨hout, hq⟩ := ihq hout
    obtain ⟨hout, hp⟩ := ihp hout
    exact ⟨hout, hname.trans (and_congr hp hq)⟩
  | or _ _ ihp ihq =>
    obtain ⟨hout, hname⟩ := folTseitinName_out.mp h
    obtain ⟨hout, hq⟩ := ihq hout
    obtain ⟨hout, hp⟩ := ihp hout
    exact ⟨hout, hname.trans (or_congr hp hq)⟩

theorem Defines.of_names {fs : List Formula} {st' : TseitinState} (h : Defines M st')
    (hnames : Names fs st st') : Defines M st :=
  fun e he => h e (hnames.2 ▸ List.mem_append_left _ he)

theorem Defines.name (h : Defines M (folTseitinName f isAnd b c st).2) (ρ : ℕ → D) :
    M.HoldsAtom ρ (auxOf f st.next) ↔ M.Holds ρ f :=
  h (f, auxOf f st.next) (List.mem_append_right _ (List.mem_singleton_self _)) ρ

/-- Where all auxiliaries are equivalent to what they name, the clauses hold. -/
theorem folTseitinRec_complete (hf : f.IsMatrix) (h : Defines M (folTseitinRec f st).2)
    (hst : M.HoldsClauses ρ st.out) :
    M.HoldsClauses ρ (folTseitinRec f st).2.out ∧
      (M.HoldsLit ρ (folTseitinRec f st).1 ↔ M.Holds ρ f) := by
  induction hf generalizing st with
  | atom t => exact ⟨hst, Iff.rfl⟩
  | not t => exact ⟨hst, Iff.rfl⟩
  | @and p q _ hqm ihp ihq =>
    have hq := h.of_names (names_folTseitinName (.and p q) true _ _ _)
    obtain ⟨houtp, hp⟩ := ihp (hq.of_names (names_folTseitinRec hqm _)) hst
    obtain ⟨houtq, hq⟩ := ihq hq houtp
    have hname := h.name ρ
    exact ⟨folTseitinName_out.mpr ⟨houtq, hname.trans (and_congr hp hq).symm⟩, hname⟩
  | @or p q _ hqm ihp ihq =>
    have hq := h.of_names (names_folTseitinName (.or p q) false _ _ _)
    obtain ⟨houtp, hp⟩ := ihp (hq.of_names (names_folTseitinRec hqm _)) hst
    obtain ⟨houtq, hq⟩ := ihq hq houtp
    have hname := h.name ρ
    exact ⟨folTseitinName_out.mpr ⟨houtq, hname.trans (or_congr hp hq).symm⟩, hname⟩

/-- A model of the clauses is one of the matrix. -/
theorem holds_of_tseitin (hf : f.IsMatrix) (h : M.HoldsClauses ρ (folTseitinExtractClauses f)) :
    M.Holds ρ f := by
  rw [folTseitinExtractClauses, emit_eq _ (Nat.le_of_ble_eq_true rfl), Model.holdsClauses_append,
    Model.holdsClauses_singleton, Model.holdsClause_cons] at h
  obtain ⟨hout, hroot⟩ := h
  exact (folTseitinRec_sound hf hout).2.mp (hroot.resolve_right Model.holdsClause_nil)

theorem tseitin_of_defines (hf : f.IsMatrix) (h : Defines M (tseitinRun f).2)
    (hholds : M.Holds ρ f) : M.HoldsClauses ρ (folTseitinExtractClauses f) := by
  obtain ⟨hout, hroot⟩ := folTseitinRec_complete hf h Model.holdsClauses_nil
  rw [folTseitinExtractClauses, emit_eq _ (Nat.le_of_ble_eq_true rfl), Model.holdsClauses_append,
    Model.holdsClauses_singleton, Model.holdsClause_cons]
  exact ⟨hout, .inl (hroot.mpr hholds)⟩

/-! ## The names -/

theorem tseitinRun_named (hf : f.IsMatrix) :
    (tseitinRun f).2.named = (compounds f).mapIdx fun i g => (g, auxOf g i) := by
  have h := (names_folTseitinRec hf ⟨0, [], []⟩).2
  rw [List.nil_append] at h
  simp only [Nat.zero_add] at h
  exact h

theorem mem_varIds {id : ℕ} : id ∈ varIds f ↔ f.Occurs id := by
  rw [varIds, List.mem_filterMap]
  constructor
  · rintro ⟨l, hl, hid⟩
    cases l with
    | fvr id' =>
      obtain rfl := Option.some.inj hid
      exact hl
    | num dtype value => cases hid
  · exact fun hid => ⟨.fvr id, hid, rfl⟩

/-- As long as the variables fit, all are collected. -/
theorem foldl_collect {cap : ℕ} {S : Finset ℕ} (hS : S.card ≤ cap) (ids vars : List ℕ)
    (hids : ∀ id ∈ ids, id ∈ S) (hvars : ∀ id ∈ vars, id ∈ S) (hnodup : vars.Nodup) :
    (ids.foldl (fun vars id =>
      if id ∈ vars then vars else if vars.length < cap then vars ++ [id] else vars) vars).Nodup ∧
    ∀ id, id ∈ ids.foldl (fun vars id =>
      if id ∈ vars then vars else if vars.length < cap then vars ++ [id] else vars) vars ↔
        id ∈ vars ∨ id ∈ ids := by
  induction ids generalizing vars with
  | nil => exact ⟨hnodup, fun id => by simp⟩
  | cons x ids ih =>
    rw [List.forall_mem_cons] at hids
    rw [List.foldl_cons]
    by_cases hx : x ∈ vars
    · rw [if_pos hx]
      obtain ⟨hnodup', hmem⟩ := ih vars hids.2 hvars hnodup
      refine ⟨hnodup', fun id => ?_⟩
      rw [hmem, List.mem_cons]
      refine ⟨Or.imp_right .inr, ?_⟩
      rintro (h | rfl | h)
      · exact .inl h
      · exact .inl hx
      · exact .inr h
    · have hcons : (x :: vars).Nodup := List.nodup_cons.mpr ⟨hx, hnodup⟩
      have hlt : vars.length < cap := by
        have hle : (x :: vars).length ≤ S.card := by
          rw [← List.toFinset_card_of_nodup hcons]
          refine Finset.card_le_card fun id hid => ?_
          rw [List.mem_toFinset, List.mem_cons] at hid
          exact hid.elim (fun h => h ▸ hids.1) (hvars id)
        rw [List.length_cons] at hle
        omega
      have hperm : (vars ++ [x]).Perm (x :: vars) := List.perm_append_singleton x vars
      rw [if_neg hx, if_pos hlt]
      obtain ⟨hnodup', hmem⟩ := ih (vars ++ [x]) hids.2
        (fun id hid => (List.mem_cons.mp (hperm.subset hid)).elim (fun h => h ▸ hids.1) (hvars id))
        (hperm.nodup_iff.mpr hcons)
      refine ⟨hnodup', fun id => ?_⟩
      rw [hmem, hperm.mem_iff, List.mem_cons, List.mem_cons, or_assoc, or_left_comm]

/-- An atom is applied to all variables of a formula, each once. -/
def AppliedToAll (aux : FTerm) (f : Formula) : Prop :=
  ∃ (label : ℕ) (ids : List ℕ), aux = .ctr label (ids.map FTerm.fvr) ∧ ids.Nodup ∧
    ∀ id, id ∈ ids ↔ f.Occurs id

theorem auxOf_eq (f : Formula) (next : ℕ) :
    auxOf f next = .ctr ((folLabTseitinBase + next) % 2 ^ 18)
      (((folCollectVars folTseitinMaxVars f.toTerm []).take folTseitinMaxVars).map FTerm.fvr) := rfl

/-- The name of a subformula takes all its variables when there are at most 128. -/
theorem appliedToAll_iff (f : Formula) (next : ℕ) :
    AppliedToAll (auxOf f next) f ↔ (varIds f).toFinset.card ≤ 128 := by
  constructor
  · rintro ⟨label, ids, heq, -, hall⟩
    rw [auxOf_eq] at heq
    have hargs := (TermTree.node.inj heq).2
    have hlen : ids.length ≤ 128 := by
      rw [← List.length_map (f := FTerm.fvr), ← hargs, List.length_map, List.length_take]
      exact Nat.min_le_left _ _
    have hsub : (varIds f).toFinset ⊆ ids.toFinset := fun id hid =>
      List.mem_toFinset.mpr ((hall id).mpr (mem_varIds.mp (List.mem_toFinset.mp hid)))
    exact (Finset.card_le_card hsub).trans ((List.toFinset_card_le ids).trans hlen)
  · intro hcard
    obtain ⟨hnodup, hmem⟩ := foldl_collect hcard (varIds f) []
      (fun id hid => List.mem_toFinset.mpr hid) (fun id hid => absurd hid List.not_mem_nil)
      List.nodup_nil
    have hnodup : (folCollectVars 128 f.toTerm []).Nodup := hnodup
    have hmem : ∀ id, id ∈ folCollectVars 128 f.toTerm [] ↔ f.Occurs id := fun id => by
      rw [← mem_varIds]
      exact (hmem id).trans (or_iff_right List.not_mem_nil)
    have htake : (folCollectVars 128 f.toTerm []).take 128 = folCollectVars 128 f.toTerm [] := by
      refine List.take_of_length_le ?_
      rw [← List.toFinset_card_of_nodup hnodup]
      refine (Finset.card_le_card fun id hid => ?_).trans hcard
      rw [List.mem_toFinset] at hid ⊢
      exact mem_varIds.mpr ((hmem id).mp hid)
    exact ⟨_, _, by rw [auxOf_eq]; exact congrArg _ (congrArg _ htake), hnodup, hmem⟩

/-! ## New symbols -/

/-- The label of the root. -/
def rootLabel : FTerm → ℕ
  | .leaf _ => 0
  | .node label _ => label

/-- The labels of the names differ, and no name has the label of equality or of a symbol of the
matrix. -/
def NewSymbols (named : List (Formula × FTerm)) (matrix : Formula) : Prop :=
  (named.map fun e => rootLabel e.2).Nodup ∧
    ∀ e ∈ named, rootLabel e.2 ≠ labEq ∧ matrix.EveryLabel (· ≠ rootLabel e.2)

/-- The number of names is at most `0x30000`, and their labels are not in the matrix. -/
def LabelsFree (matrix : Formula) : Prop :=
  (compounds matrix).length ≤ 0x30000 ∧
    matrix.EveryLabel fun label =>
      ¬(folLabTseitinBase ≤ label ∧ label < folLabTseitinBase + (compounds matrix).length)

theorem mem_named (hf : f.IsMatrix) {e : Formula × FTerm} :
    e ∈ (tseitinRun f).2.named ↔
      ∃ i, ∃ h : i < (compounds f).length, ((compounds f)[i], auxOf (compounds f)[i] i) = e := by
  rw [tseitinRun_named hf, List.mem_mapIdx]

theorem labels_named (hf : f.IsMatrix) :
    (tseitinRun f).2.named.map (fun e => rootLabel e.2) =
      (List.range (compounds f).length).map fun i => (folLabTseitinBase + i) % 2 ^ 18 := by
  rw [tseitinRun_named hf]
  refine List.ext_getElem (by simp) fun i hi hi' => ?_
  simp only [List.getElem_map, List.getElem_mapIdx, List.getElem_range]
  rfl

/-- From `0x30000` names on the labels wrap around to the label of equality. -/
theorem newSymbols_iff (hf : f.IsMatrix) :
    NewSymbols (tseitinRun f).2.named f ↔ LabelsFree f := by
  have hall : (∀ e ∈ (tseitinRun f).2.named, rootLabel e.2 ≠ labEq ∧
      f.EveryLabel (· ≠ rootLabel e.2)) ↔
      ∀ i < (compounds f).length, (folLabTseitinBase + i) % 2 ^ 18 ≠ labEq ∧
        f.EveryLabel (· ≠ (folLabTseitinBase + i) % 2 ^ 18) := by
    have hmap := @List.forall_mem_map _ _ (fun e : Formula × FTerm => rootLabel e.2)
      (tseitinRun f).2.named fun label => label ≠ labEq ∧ f.EveryLabel (· ≠ label)
    rw [← hmap, labels_named hf, List.forall_mem_map]
    simp only [List.mem_range]
  rw [NewSymbols, hall, labels_named hf]
  constructor
  · rintro ⟨-, hnew⟩
    have hle : (compounds f).length ≤ 0x30000 := by
      by_contra hlt
      exact (hnew 0x30000 (by omega)).1 rfl
    refine ⟨hle, everyLabel_mono (P := fun label => ∀ i : Fin (compounds f).length,
      label ≠ (folLabTseitinBase + i) % 2 ^ 18) ?_ (everyLabel_forall fun i => (hnew i i.2).2)⟩
    rintro label hlabel ⟨hge, hlt⟩
    refine hlabel ⟨label - folLabTseitinBase, by omega⟩ ?_
    dsimp only
    unfold folLabTseitinBase at *
    omega
  · rintro ⟨hle, hfree⟩
    have hmod : ∀ i < (compounds f).length,
        (folLabTseitinBase + i) % 2 ^ 18 = folLabTseitinBase + i := by
      unfold folLabTseitinBase
      omega
    refine ⟨?_, fun i hi => ?_⟩
    · refine List.Nodup.map_on (fun i hi j hj heq => ?_) List.nodup_range
      rw [List.mem_range] at hi hj
      rw [hmod i hi, hmod j hj] at heq
      omega
    · rw [hmod i hi]
      refine ⟨by unfold folLabTseitinBase labEq; omega, everyLabel_mono ?_ hfree⟩
      rintro label hnot rfl
      exact hnot ⟨Nat.le_add_right _ _, Nat.add_lt_add_left hi _⟩

/-! ## Extending a model -/

/-- The model in which the names mean what they name. -/
def extend (M : Model D) (named : List (Formula × FTerm)) : Model D where
  func := M.func
  num := M.num
  pred label ds :=
    (∃ e ∈ named, ∃ ρ args, e.2 = .ctr label args ∧ ds = args.map (M.value ρ) ∧ M.Holds ρ e.1) ∨
    (∀ e ∈ named, rootLabel e.2 ≠ label) ∧ M.pred label ds

theorem compounds_spec (hf : f.IsMatrix) (hg : g ∈ compounds f) :
    g.IsMatrix ∧ ∀ P : ℕ → Prop, f.EveryLabel P → g.EveryLabel P := by
  have hparts : ∀ {p q h : Formula}, h.IsMatrix → (∀ P, h.EveryLabel P → p.EveryLabel P ∧
      q.EveryLabel P) → (g ∈ compounds p → g.IsMatrix ∧ ∀ P : ℕ → Prop, p.EveryLabel P →
      g.EveryLabel P) → (g ∈ compounds q → g.IsMatrix ∧ ∀ P : ℕ → Prop, q.EveryLabel P →
      g.EveryLabel P) → g ∈ compounds p ++ compounds q ++ [h] →
      g.IsMatrix ∧ ∀ P : ℕ → Prop, h.EveryLabel P → g.EveryLabel P := by
    intro p q h hh hlabels ihp ihq hmem
    rcases List.mem_append.mp hmem with hmem | hmem
    · rcases List.mem_append.mp hmem with hmem | hmem
      · exact ⟨(ihp hmem).1, fun P hP => (ihp hmem).2 P (hlabels P hP).1⟩
      · exact ⟨(ihq hmem).1, fun P hP => (ihq hmem).2 P (hlabels P hP).2⟩
    · rw [List.mem_singleton.mp hmem]
      exact ⟨hh, fun _ hP => hP⟩
  induction hf with
  | atom t => exact absurd hg List.not_mem_nil
  | not t => exact absurd hg List.not_mem_nil
  | and hp hq ihp ihq => exact hparts (.and hp hq) (fun _ hP => hP) ihp ihq hg
  | or hp hq ihp ihq => exact hparts (.or hp hq) (fun _ hP => hP) ihp ihq hg

theorem holds_extend (hf : f.IsMatrix) {named : List (Formula × FTerm)}
    (hlabels : f.EveryLabel fun label => ∀ e ∈ named, rootLabel e.2 ≠ label) :
    (extend M named).Holds ρ f ↔ M.Holds ρ f := by
  refine Model.holds_pred rfl rfl (fun label ds hlabel => ?_) hf hlabels
  refine propext (or_iff_right ?_ |>.trans (and_iff_right hlabel))
  rintro ⟨e, he, ρ', args, heq, -⟩
  exact hlabel e he (by rw [heq]; rfl)

theorem defines_extend (hf : f.IsMatrix) (happ : ∀ e ∈ (tseitinRun f).2.named, AppliedToAll e.2 e.1)
    (hnew : NewSymbols (tseitinRun f).2.named f) (M : Model D) :
    f.EveryLabel (fun label => ∀ e ∈ (tseitinRun f).2.named, rootLabel e.2 ≠ label) ∧
      Defines (extend M (tseitinRun f).2.named) (tseitinRun f).2 := by
  have hlabels : f.EveryLabel fun label =>
      ∀ e ∈ (tseitinRun f).2.named, rootLabel e.2 ≠ label := by
    refine everyLabel_mono (P := fun label => ∀ e : { e // e ∈ (tseitinRun f).2.named },
      label ≠ rootLabel e.1.2) (fun label h e he heq => h ⟨e, he⟩ heq.symm)
      (everyLabel_forall fun e => (hnew.2 e.1 e.2).2)
  refine ⟨hlabels, fun e he ρ => ?_⟩
  have hmatrix : e.1.IsMatrix ∧ ∀ P : ℕ → Prop, f.EveryLabel P → e.1.EveryLabel P := by
    obtain ⟨i, hi, rfl⟩ := (mem_named hf).mp he
    exact compounds_spec hf (List.getElem_mem hi)
  obtain ⟨label, ids, heq, -, hids⟩ := happ e he
  have hne : label ≠ labEq := by
    have := (hnew.2 e he).1
    rw [heq] at this
    exact this
  rw [holds_extend hmatrix.1 (hmatrix.2 _ hlabels), heq, Model.HoldsAtom, Model.rel_of_ne hne]
  constructor
  · rintro (⟨e', he', ρ', args, heq', hargs, hholds⟩ | ⟨hno, -⟩)
    · have hsame : e' = e := List.inj_on_of_nodup_map hnew.1 he' he (by rw [heq, heq']; rfl)
      subst hsame
      rw [heq] at heq'
      rw [← (TermTree.node.inj heq').2] at hargs
      refine (Model.holds_congr hmatrix.1 fun id hid => ?_).mpr hholds
      exact List.map_inj_left.mp hargs _ (List.mem_map_of_mem ((hids id).mpr hid))
    · exact absurd (by rw [heq]; rfl) (hno e he)
  · intro hholds
    exact .inl ⟨e, he, ρ, _, heq, rfl, hholds⟩

/-- The clauses of the names are satisfiable when the matrix is. -/
theorem tseitin_of_holds (hf : f.IsMatrix)
    (happ : ∀ e ∈ (tseitinRun f).2.named, AppliedToAll e.2 e.1)
    (hnew : NewSymbols (tseitinRun f).2.named f) (h : ∀ ρ, M.Holds ρ f) (ρ : ℕ → D) :
    (extend M (tseitinRun f).2.named).HoldsClauses ρ (folTseitinExtractClauses f) := by
  obtain ⟨hlabels, hdefines⟩ := defines_extend hf happ hnew M
  exact tseitin_of_defines hf hdefines ((holds_extend hf hlabels).mpr (h ρ))

/-! ## Both ways -/

/-- Both ways accept a formula: no quantifier is left in the matrix, and no clause is too long. -/
structure Accepted (f : Formula) : Prop where
  matrix : (folSkolemize (folNnf f)).IsMatrix
  short : NoLongClause (folSkolemize (folNnf f))

/-- The names are right: they take all variables, have new symbols, keep satisfiability, and a
model of their clauses is one of the matrix. -/
structure TseitinAgrees (f : Formula) : Prop where
  satisfiable : ∃ cs, Settles (folFormulaToClauses · f) cs ∧
    (Satisfiable (folFormulaToClausesTseitin f) ↔ Satisfiable cs)
  applied : ∀ e ∈ (tseitinRun (folSkolemize (folNnf f))).2.named, AppliedToAll e.2 e.1
  new : NewSymbols (tseitinRun (folSkolemize (folNnf f))).2.named (folSkolemize (folNnf f))
  models : ∀ (D : Type) (M : Model D), (∀ ρ, M.HoldsClauses ρ (folFormulaToClausesTseitin f)) →
    ∀ ρ, M.Holds ρ (folSkolemize (folNnf f))

/-- The two ways agree exactly when no compound subformula of the matrix has more than 128
variables and the labels of the names are free. -/
theorem tseitin_agrees_iff (f : Formula) (h : Accepted f) :
    TseitinAgrees f ↔
      (∀ g ∈ compounds (folSkolemize (folNnf f)), (varIds g).toFinset.card ≤ 128) ∧
      LabelsFree (folSkolemize (folNnf f)) := by
  have happlied : (∀ e ∈ (tseitinRun (folSkolemize (folNnf f))).2.named, AppliedToAll e.2 e.1) ↔
      ∀ g ∈ compounds (folSkolemize (folNnf f)), (varIds g).toFinset.card ≤ 128 := by
    constructor
    · intro hall g hg
      obtain ⟨i, hi, rfl⟩ := List.mem_iff_getElem.mp hg
      exact (appliedToAll_iff _ i).mp (hall _ ((mem_named h.matrix).mpr ⟨i, hi, rfl⟩))
    · intro hall e he
      obtain ⟨i, hi, rfl⟩ := (mem_named h.matrix).mp he
      exact (appliedToAll_iff _ i).mpr (hall _ (List.getElem_mem hi))
  rw [← happlied, ← newSymbols_iff h.matrix]
  refine ⟨fun hagrees => ⟨hagrees.applied, hagrees.new⟩, fun ⟨happ, hnew⟩ => ?_⟩
  obtain ⟨cs, -, hsettles, -, -, hcs⟩ := folFormulaToClauses_spec f h.matrix h.short
  refine ⟨⟨cs, hsettles, ?_, ?_⟩, happ, hnew, fun D M hM ρ => holds_of_tseitin h.matrix (hM ρ)⟩
  · rintro ⟨D, M, hM⟩
    exact ⟨D, M, fun ρ => (hcs D M ρ).mpr (holds_of_tseitin h.matrix (hM ρ))⟩
  · rintro ⟨D, M, hM⟩
    exact ⟨D, extend M _, tseitin_of_holds h.matrix happ hnew fun ρ => (hcs D M ρ).mp (hM ρ)⟩

/-- `P ∨ Q`. -/
def disjunction : Formula := .or (.atom (.ctr 1 [])) (.atom (.ctr 2 []))

theorem isMatrix_disjunction : disjunction.IsMatrix := .or (.atom _) (.atom _)

theorem matrix_disjunction : folSkolemize (folNnf disjunction) = disjunction := by
  have hnnf : folNnf disjunction = disjunction := rfl
  rw [folSkolemize, hnnf, folSkolemRec_matrix isMatrix_disjunction]

theorem accepted_disjunction : Accepted disjunction where
  matrix := by
    rw [matrix_disjunction]
    exact isMatrix_disjunction
  short := by
    rw [matrix_disjunction]
    intro n cnf h c hc
    have hcnf : cnf = disjunction := by
      match n, h with
      | n + 2, h => exact (Option.some.inj h).symm
    rw [hcnf] at hc
    revert c
    decide

theorem tseitin_agrees_disjunction : TseitinAgrees disjunction := by
  refine (tseitin_agrees_iff disjunction accepted_disjunction).mpr ?_
  rw [matrix_disjunction]
  refine ⟨by decide, by decide, ?_, ?_⟩
  · exact .node (by decide) fun _ h => nomatch h
  · exact .node (by decide) fun _ h => nomatch h

/-! ## Too many variables -/

/-- Universal quantifiers in front of a formula. -/
def closeAll (ids : List ℕ) (f : Formula) : Formula := ids.foldr (fun id g => .all (.fvr id) g) f

theorem folNnf_closeAll (ids : List ℕ) (f : Formula) :
    folNnf (closeAll ids f) = closeAll ids (folNnf f) := by
  induction ids with
  | nil => rfl
  | cons id ids ih => exact congrArg (Formula.all (.fvr id)) ih

theorem folSkolemRec_closeAll (hf : f.IsMatrix) (ids : List ℕ) (univ : List FTerm) (next : ℕ)
    (h : univ.length + ids.length ≤ 256) : folSkolemRec (closeAll ids f) univ next = (f, next) := by
  induction ids generalizing univ with
  | nil => exact folSkolemRec_matrix hf univ next
  | cons id ids ih =>
    rw [List.length_cons] at h
    have hcap : ¬univ.length ≥ folSkolemMaxUniv := by
      unfold folSkolemMaxUniv
      omega
    show folSkolemRec (.all (.fvr id) (closeAll ids f)) univ next = (f, next)
    rw [folSkolemRec, if_neg hcap]
    exact ih _ (by rw [List.length_append, List.length_singleton]; omega)

/-- `R` of 128 variables, and `S` of another one. -/
def wideLeft : Formula :=
  .or (.atom (.ctr 1 ((List.range 128).map FTerm.fvr))) (.atom (.ctr 2 [.fvr 128]))

/-- `(R(x) ∨ S(y)) ∨ ¬S(y)`, where `R` holds nowhere and `S` of one constant only. -/
def wideMatrix : Formula :=
  .and (.or wideLeft (.not (.atom (.ctr 2 [.fvr 128]))))
    (.and (.not (.atom (.ctr 1 ((List.range 128).map FTerm.fvr))))
      (.and (.atom (.ctr 2 [.ctr 3 []])) (.not (.atom (.ctr 2 [.ctr 4 []])))))

def wide : Formula := closeAll (List.range 129) wideMatrix

theorem isMatrix_wideLeft : wideLeft.IsMatrix := .or (.atom _) (.atom _)

theorem isMatrix_wideMatrix : wideMatrix.IsMatrix :=
  .and (.or isMatrix_wideLeft (.not _)) (.and (.not _) (.and (.atom _) (.not _)))

theorem matrix_wide : folSkolemize (folNnf wide) = wideMatrix := by
  rw [wide, folNnf_closeAll, folSkolemize]
  have hnnf : folNnf wideMatrix = wideMatrix := rfl
  rw [hnnf, folSkolemRec_closeAll isMatrix_wideMatrix _ _ _ (by rw [List.length_range]; decide)]

theorem distribute_wideMatrix (n : ℕ) (cnf : Formula) (h : folDistribute n wideMatrix = some cnf) :
    cnf = wideMatrix := by
  match n, h with
  | n + 4, h => exact (Option.some.inj h).symm

theorem accepted_wide : Accepted wide where
  matrix := matrix_wide ▸ isMatrix_wideMatrix
  short := by
    rw [matrix_wide]
    intro n cnf h c hc
    rw [distribute_wideMatrix n cnf h] at hc
    revert c
    decide +kernel

/-- A model of `wide`: the predicates know the two constants. -/
def wideModel : Model Bool where
  func label _ := label == 3
  pred label ds := label = 2 ∧ ds = [true]
  num _ _ := false

theorem holds_wideModel (ρ : ℕ → Bool) : wideModel.Holds ρ wideMatrix := by
  have hS : ∀ ds, wideModel.rel 2 ds ↔ ds = [true] := fun ds => by
    rw [Model.rel_of_ne (by decide)]
    exact and_iff_right rfl
  have hR : ∀ ds, ¬wideModel.rel 1 ds := fun ds => by
    rw [Model.rel_of_ne (by decide)]
    exact fun h => absurd h.1 (by decide)
  refine ⟨?_, hR _, (hS _).mpr rfl, fun h => ?_⟩
  · by_cases h : wideModel.HoldsAtom ρ (.ctr 2 [.fvr 128])
    · exact .inl (.inr h)
    · exact .inr h
  · exact Bool.noConfusion (List.cons.inj ((hS _).mp h)).1

/-- The name of `wideLeft` does not depend on the variable 128. -/
theorem auxOf_wideLeft (M : Model D) (ρ : ℕ → D) (d : D) :
    M.HoldsAtom (Function.update ρ 128 d) (auxOf wideLeft 0) ↔ M.HoldsAtom ρ (auxOf wideLeft 0) := by
  refine Model.holdsAtom_congr fun id hid => Function.update_of_ne ?_ d ρ
  rintro rfl
  revert hid
  decide +kernel

/-- The clauses make the name of `wideLeft` equivalent to it. -/
theorem sound_wideLeft {M : Model D} (h : M.HoldsClauses ρ (folTseitinExtractClauses wideMatrix)) :
    M.HoldsAtom ρ (auxOf wideLeft 0) ↔ M.Holds ρ wideLeft := by
  rw [folTseitinExtractClauses, emit_eq _ (Nat.le_of_ble_eq_true rfl),
    Model.holdsClauses_append] at h
  have hright := folTseitinRec_sound (.and (.not _) (.and (.atom _) (.not _)))
    (folTseitinName_out.mp h.1).1
  exact (folTseitinRec_sound isMatrix_wideLeft (folTseitinName_out.mp hright.1).1).2

theorem unsat_wide : ¬Satisfiable (folFormulaToClausesTseitin wide) := by
  rintro ⟨D, M, hM⟩
  rw [folFormulaToClausesTseitin, matrix_wide] at hM
  have hholds : ∀ ρ, M.Holds ρ wideMatrix := fun ρ => holds_of_tseitin isMatrix_wideMatrix (hM ρ)
  let ρ : ℕ → D := fun _ => M.func 0 []
  have hconst : ∀ label, M.HoldsAtom (Function.update ρ 128 (M.func label [])) (.ctr 2 [.fvr 128]) ↔
      M.HoldsAtom (Function.update ρ 128 (M.func label [])) (.ctr 2 [.ctr label []]) := by
    intro label
    have hvalue : M.value (Function.update ρ 128 (M.func label [])) (.fvr 128) =
        M.value (Function.update ρ 128 (M.func label [])) (.ctr label []) := by
      rw [Model.value_fvr, Model.value_ctr, Function.update_self, List.map_nil]
    rw [Model.HoldsAtom, Model.HoldsAtom, List.map_singleton, List.map_singleton, hvalue]
  -- the name is true where the variable is the first constant, so everywhere
  obtain ⟨-, -, hfirst, -⟩ := hholds (Function.update ρ 128 (M.func 3 []))
  have hname := (sound_wideLeft (hM _)).mpr (.inr ((hconst 3).mpr hfirst))
  rw [auxOf_wideLeft, ← auxOf_wideLeft M ρ (M.func 4 [])] at hname
  obtain ⟨-, hR, -, hsecond⟩ := hholds (Function.update ρ 128 (M.func 4 []))
  exact ((sound_wideLeft (hM _)).mp hname).elim hR fun hS => hsecond ((hconst 4).mp hS)

/-- With 129 variables the clauses of the names are unsatisfiable, the distributed ones are not,
and a name lacks a variable. -/
theorem wide_disagrees :
    Accepted wide ∧ ¬Satisfiable (folFormulaToClausesTseitin wide) ∧
      (∃ cs, Settles (folFormulaToClauses · wide) cs ∧ Satisfiable cs) ∧
      ∃ e ∈ (tseitinRun (folSkolemize (folNnf wide))).2.named, ¬AppliedToAll e.2 e.1 := by
  refine ⟨accepted_wide, unsat_wide, ?_, ?_⟩
  · obtain ⟨cs, -, hsettles, -, -, hcs⟩ := folFormulaToClauses_spec wide accepted_wide.matrix
      accepted_wide.short
    rw [matrix_wide] at hcs
    exact ⟨cs, hsettles, Bool, wideModel, fun ρ => (hcs _ _ ρ).mpr (holds_wideModel ρ)⟩
  · rw [matrix_wide]
    refine ⟨(wideLeft, auxOf wideLeft 0), (mem_named isMatrix_wideMatrix).mpr
      ⟨0, by decide, rfl⟩, fun happ => ?_⟩
    have hcard := (appliedToAll_iff wideLeft 0).mp happ
    revert hcard
    decide +kernel

end Thvm.Fol
