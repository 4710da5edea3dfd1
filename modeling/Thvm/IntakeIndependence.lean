import Thvm.IntakeRuns

/-!
# Axioms in any order

The queued axioms are those that have been added. Two provers that got the same axioms and goals
in different orders select them in the same order behind the call, up to axioms that the
comparator does not tell apart.
-/

namespace Thvm.Atp.WmIntake

open CpQueue

variable {P : Type} {p : Prover P} {a : Act P} {n : ℕ} {ar : ℕ → ℕ}

/-! ## The axioms that have been added -/

/-- There is room for `n` more entries of the trace and `n` more pairs. -/
structure Room (n : ℕ) (p : Prover P) : Prop where
  trace : p.trace.length + n ≤ p.tMax
  index : p.tMax ≤ atpTraceNone
  queue : p.maxCpQueue = 0 ∨ p.queue.nCps + n ≤ p.maxCpQueue

/-- The axioms that an act adds to the queue. -/
def added (p : Prover P) : Act P → List Equation
  | .equation e _ => if wellSorted p e then [thvmNormalizeVars e] else []
  | _ => []

theorem axioms_bag (p : Prover P) : (axioms p : Multiset Equation) =
    (bag p.queue).filterMap fun x => axiomEntry p.trace x.trace := by
  have hid : (fun i => ((axiomEntry p.trace (p.queue.trace i)).map fun e => (i, e)).map Prod.snd) =
      fun i => axiomEntry p.trace (p.queue.trace i) := by
    funext i
    rw [Option.map_map]
    exact congrFun Option.map_id _
  rw [axioms, axiomRows, List.map_filterMap, hid, ← Multiset.filterMap_coe, bag, records,
    Multiset.filterMap_map]
  rfl

/-- Longer traces have the same axioms in the queue. -/
theorem filterMap_axiomEntry (h : Sound p) {entries : List Entry} (hpre : p.trace <+: entries) :
    ((bag p.queue).filterMap fun x => axiomEntry entries x.trace) = axioms p := by
  have hcongr {s : Multiset (CpRecord P)} (hs : s ≤ bag p.queue) :
      (s.filterMap fun x => axiomEntry entries x.trace) =
        s.filterMap fun x => axiomEntry p.trace x.trace := by
    induction s using Multiset.induction_on with
    | empty => rfl
    | cons x s ih =>
      have hx := Multiset.mem_of_le hs (Multiset.mem_cons_self x s)
      rw [Multiset.filterMap_cons, Multiset.filterMap_cons, axiomEntry_longer hpre (h.entry x hx),
        ih ((Multiset.le_cons_self s x).trans hs)]
  rw [axioms_bag]
  exact hcongr le_rfl

theorem axiomEntry_concat {entries : List Entry} (e : Entry) (hlt : entries.length < atpTraceNone) :
    axiomEntry (entries ++ [e]) entries.length =
      if e.reason = .traceAxiom then some (e.lhs, e.rhs) else none := by
  rw [axiomEntry, if_neg (Nat.ne_of_lt hlt), List.getElem?_append_right (Nat.le_refl _),
    Nat.sub_self, List.getElem?_cons_zero, Option.bind_some]

/-- The trace has room, and so has the queue. -/
theorem axioms_push (h : Sound p) (hbin : p.config.kdheap = false) (hroom : Room (n + 1) p)
    (e : Entry) (push : Push P) :
    let p' := atpCpHeapPush { push with trace := (atpTracePush e p).2 } (atpTracePush e p).1
    (axioms p').Perm ((if e.reason = .traceAxiom then [(e.lhs, e.rhs)] else []) ++ axioms p) ∧
      Room n p' ∧ p'.spec = p.spec := by
  have htrace := hroom.trace
  have hindex := hroom.index
  have hqueue := hroom.queue
  have hpush : atpTracePush e p = ({ p with trace := p.trace ++ [e] }, p.trace.length) :=
    if_pos (by omega)
  rw [hpush, atpCpHeapPush, if_neg (by dsimp only; omega)]
  dsimp only
  have hbag := push_bag (s := p.queue) hbin { push with
    trace := p.trace.length
    ultimate := push.ultimate && p.hasUltimate }
  obtain ⟨hcps, -⟩ := push_counters (s := p.queue) hbin { push with
    trace := p.trace.length
    ultimate := push.ultimate && p.hasUltimate }
  refine ⟨?_, ⟨?_, hindex, ?_⟩, rfl⟩
  · rw [← Multiset.coe_eq_coe, ← Multiset.coe_add, axioms_bag]
    refine (congrArg _ hbag).trans ?_
    rw [Multiset.filterMap_cons, filterMap_axiomEntry h (List.prefix_append _ _)]
    congr 1
    refine (congrArg (fun o => (Option.map singleton o).getD 0)
      (axiomEntry_concat e (by omega))).trans ?_
    split <;> rfl
  · change (p.trace ++ [e]).length + n ≤ p.tMax
    rw [List.length_append, List.length_singleton]
    omega
  · change p.maxCpQueue = 0 ∨ (atpCpPush p.config _ p.queue).nCps + n ≤ p.maxCpQueue
    rw [hcps]
    omega

theorem axioms_enqueue (h : Sound p) (hbin : p.config.kdheap = false) (hroom : Room (n + 1) p)
    (reason : TraceReason) (parent : ℕ) (e : Equation) (push : Push P) :
    let p' := enqueueEquation reason parent e push p
    (axioms p').Perm ((if reason = .traceAxiom then [thvmNormalizeVars e] else []) ++ axioms p) ∧
      Room n p' ∧ p'.spec = p.spec :=
  axioms_push h hbin hroom ⟨⟨reason, (thvmNormalizeVars e).1, (thvmNormalizeVars e).2⟩, parent,
    atpTraceNone⟩ { push with
      ultimate := reason = .traceAxiom ∧ parent = atpTraceNone
      uidA := 0
      uidB := 0 }

theorem axioms_act (h : Sound p) (hbin : p.config.kdheap = false) (hroom : Room (n + 1) p)
    (ha : a.isSelect = false) :
    (axioms (act a p)).Perm (added p a ++ axioms p) ∧ Room n (act a p) ∧
      (act a p).spec = p.spec := by
  have hsame : Room n p := by
    obtain ⟨htrace, hindex, hqueue⟩ := hroom
    exact ⟨by omega, hindex, by omega⟩
  cases a with
  | select dead uidDead w => cases ha
  | equation e push =>
    simp only [act, thvmAtpAddEquation, added]
    split
    · exact axioms_enqueue h hbin hroom _ _ e push
    · exact ⟨.refl _, hsame, rfl⟩
  | goals gs =>
    simp only [act, thvmAtpSetGoals]
    split
    · exact ⟨.refl _, ⟨hsame.trace, hsame.index, hsame.queue⟩, rfl⟩
    · exact ⟨.refl _, hsame, rfl⟩
  | derived pa pb e push =>
    cases push with
    | none =>
      have htrace := hroom.trace
      have hpush (e : Entry) : atpTracePush e p = ({ p with trace := p.trace ++ [e] }, _) :=
        if_pos (by omega)
      simp only [act, pushDerived, atpTracePushCp, hpush]
      refine ⟨?_, ⟨?_, hsame.index, hsame.queue⟩, trivial⟩
      · rw [← Multiset.coe_eq_coe, axioms_bag, filterMap_axiomEntry h (List.prefix_append _ _)]
        rfl
      · dsimp only
        rw [List.length_append, List.length_singleton]
        omega
    | some push =>
      have hdb : (atpTracePushCp pa pb e p).1.useDatabaseUltimate = p.useDatabaseUltimate := by
        unfold atpTracePushCp atpTracePush
        dsimp only
        split <;> rfl
      simp only [act, pushDerived, hdb]
      exact axioms_push h hbin hroom _ { push with ultimate := p.useDatabaseUltimate }
  | simplified parent e push =>
    simp only [act]
    split
    · exact axioms_enqueue h hbin hroom _ _ e push
    · exact ⟨.refl _, hsame, rfl⟩

/-- While there is room the queued axioms are those that have been added, with their variables
in normal form. -/
theorem axioms_play {as : List (Act P)} (h : Sound p) (has : ∀ a ∈ as, a.isSelect = false)
    (hbin : p.config.kdheap = false) (hnext : p.queue.seqNext + as.length < 2 ^ 32)
    (hroom : Room as.length p) :
    (axioms (play as p).1).Perm (as.flatMap (added p) ++ axioms p) := by
  induction as generalizing p with
  | nil => exact .refl _
  | cons a as ih =>
    rw [List.length_cons] at hnext
    have ha := has a List.mem_cons_self
    obtain ⟨hg, -⟩ := act_grown ha p
    obtain ⟨hsound, hle⟩ := h.grown hg hbin (by omega)
    obtain ⟨hadd, hroom', hspec⟩ := axioms_act h hbin hroom ha
    have hadded : added (act a p) = added p := by
      funext b
      cases b with
      | equation e push =>
        have hsorted : wellSorted (act a p) e = wellSorted p e := by
          unfold wellSorted
          rw [hspec]
        simp only [added, hsorted]
      | _ => rfl
    have hrun := ih hsound (fun b hb => has b (List.mem_cons_of_mem a hb))
      (by rw [hg.config]; exact hbin) (by omega) hroom'
    rw [hadded] at hrun
    refine (hrun.trans (hadd.append_left _)).trans ?_
    rw [List.flatMap_cons, ← List.append_assoc]
    exact List.perm_append_comm.append_right _

/-! ## The order behind the call -/

/-- In every run behind the call that `allowed` admits the selections return the axioms in this
order, before any other pair. -/
def LeaveFirst (allowed : List (Act P) → Prover P → Prop) (order : List Equation)
    (p : Prover P) : Prop :=
  ∀ as : List (Act P), p.queue.seqNext + as.length < 2 ^ 31 →
    allowed as (atpWmIntakeCanonicalize p) →
    let outs := (play as (atpWmIntakeCanonicalize p)).2
    (equations p.trace outs).take order.length = (order.map some).take outs.length

/-- The axioms of both provers leave in the same order, up to axioms that the comparator does not
tell apart, and before any other pair. -/
def OrderIndependent (allowed : Prover P → List (Act P) → Prover P → Prop)
    (p p' : Prover P) : Prop :=
  ∃ order order' : List Equation, order.Perm (axioms p) ∧ order'.Perm (axioms p') ∧
    List.Forall₂ (Ties (stats (axioms p) p.goals)) order order' ∧
    LeaveFirst (allowed p) order p ∧ LeaveFirst (allowed p') order' p'

theorem Intake.sound (h : Intake p) (hbin : p.config.kdheap = false) :
    Sound p ∧ p.queue.seqNext < 2 ^ 31 := by
  obtain ⟨p₀, as, hfresh, has, hlen, rfl⟩ := h
  have hconfig : (play as p₀).1.config = p₀.config := config_play has
  rw [hconfig] at hbin
  have hnext := hfresh.seqNext
  obtain ⟨hsound, hle⟩ := hfresh.sound.play has hbin (by omega)
  exact ⟨hsound, by omega⟩

theorem leaveFirst_canonicalize (h : Intake p) (hbin : p.config.kdheap = false)
    (hult : UltimatesYounger p) :
    LeaveFirst (Regular (AxiomsOldest p)) (canonical (axioms p) p.goals) p := by
  intro as hnext hreg outs
  obtain ⟨hsound, hlt⟩ := h.sound hbin
  by_cases hrows : axiomRows p = []
  · have hcanonical := (canonical_perm (axioms p) p.goals).length_eq
    rw [show (axioms p).length = 0 by rw [axioms, hrows]; rfl] at hcanonical
    rw [List.length_eq_zero_iff.mp hcanonical]
    simp
  · have hcount := hsound.count
    have hwaits := waits_canonicalize hsound hbin (by omega) hult hrows
    have hseq : (atpWmIntakeCanonicalize p).queue.seqNext = p.queue.seqNext :=
      (swaps_canonicalize hrows).counters.1.trans (by rw [stampedQueue_frame])
    have hplay := hwaits.play hreg (by rw [hseq]; exact hnext)
    have hfront := congrArg List.length (map_frontOf p)
    rw [List.length_map, List.length_map] at hfront
    rwa [map_frontOf, hfront] at hplay

/-- The call changes no queued pair and keeps the ages, and the order in which the axioms leave
the queue does not depend on the one in which axioms and goals have been given. -/
theorem canonicalize_orderIndependent (ar : ℕ → ℕ) :
    (∀ p : Prover P, pairs (atpWmIntakeCanonicalize p).queue = pairs p.queue ∧
      ages (atpWmIntakeCanonicalize p).queue = ages p.queue) ∧
    ∀ p p' : Prover P, Intake p → Intake p' →
      p.config.kdheap = false → p'.config.kdheap = false →
      UltimatesYounger p → UltimatesYounger p' →
      Signed ar (axioms p) → Signed ar p.goals →
      (axioms p).Perm (axioms p') → p.goals.Perm p'.goals →
      OrderIndependent (fun p => Regular (AxiomsOldest p)) p p' := by
  refine ⟨canonicalize_pairs_ages, ?_⟩
  intro p p' hintake hintake' hbin hbin' hult hult' heqs hgoals hperm hperm'
  exact ⟨canonical (axioms p) p.goals, canonical (axioms p') p'.goals, canonical_perm _ _,
    canonical_perm _ _, canonical_ties heqs hgoals hperm hperm',
    leaveFirst_canonicalize hintake hbin hult, leaveFirst_canonicalize hintake' hbin' hult'⟩

/-! ## Two orders of the same axioms -/

/-- A prover whose queue is empty. -/
def freshProver (cfg : Config) (databaseUltimate tracePack : Bool) : Prover Unit where
  queue := emptyQueue
  cfg := cfg
  useInitialUltimate := false
  useDatabaseUltimate := databaseUltimate
  hasUltimate := databaseUltimate
  maxCpQueue := 0
  spec := none
  goals := []
  trace := []
  tMax := 8
  tracePack := tracePack
  cpTraceLean := false

def intakeConfig (kdheap : Bool) : Config := { plainConfig kdheap with useIntakeOrder := true }

def commutativity : Equation := (.ctr 1 [.fvr 0, .fvr 1], .ctr 1 [.fvr 1, .fvr 0])

def leftUnit : Equation := (.ctr 1 [.ctr 2 [], .fvr 0], .fvr 0)

def rightUnit : Equation := (.ctr 1 [.fvr 0, .ctr 2 []], .fvr 0)

/-- The constant 2 and the binary symbol 1. -/
def unitalArity (f : ℕ) : ℕ := if f = 1 then 2 else 0

def addAxiom (e : Equation) : Act Unit :=
  .equation e { plainPush 9 false with goal := 9, pri2 := 9 }

def addDerived : Act Unit := .derived 0 1 commutativity (some (plainPush 5 false))

def givenFirst : List (Act Unit) :=
  [.goals [rightUnit, leftUnit], addAxiom commutativity, addAxiom leftUnit, addDerived]

def givenSecond : List (Act Unit) :=
  [addAxiom leftUnit, addAxiom commutativity, .goals [leftUnit, rightUnit]]

theorem signed_unital : Signed unitalArity [commutativity, leftUnit, rightUnit] := by
  intro e he
  have hsymbols : ∀ e ∈ [commutativity, leftUnit, rightUnit],
      (e.1.Every fun f n => f < Prec.waldMaxSymbols ∧ n = unitalArity f) ∧
        e.2.Every fun f n => f < Prec.waldMaxSymbols ∧ n = unitalArity f := by decide
  have hnum : ∀ e ∈ [commutativity, leftUnit, rightUnit], ∀ d v,
      Leaf.num d v ∉ e.1.leaves ∧ Leaf.num d v ∉ e.2.leaves := by
    simp [commutativity, leftUnit, rightUnit, TermTree.leaves, TermTree.leavesList]
  exact ⟨⟨fun d v => (hnum e he d v).1, (hsymbols e he).1⟩,
    ⟨fun d v => (hnum e he d v).2, (hsymbols e he).2⟩⟩

theorem fresh_freshProver (cfg : Config) (databaseUltimate tracePack : Bool) :
    Fresh (freshProver cfg databaseUltimate tracePack) := ⟨rfl, rfl, rfl⟩

theorem axioms_freshProver {cfg : Config} (hbin : cfg.kdheap = false)
    (databaseUltimate tracePack : Bool) {as : List (Act Unit)} (has : ∀ a ∈ as, a.isSelect = false)
    (hlen : as.length ≤ 8) :
    (axioms (play as (freshProver cfg databaseUltimate tracePack)).1).Perm
      (as.flatMap (added (freshProver cfg databaseUltimate tracePack))) := by
  have hrun := axioms_play (fresh_freshProver cfg databaseUltimate tracePack).sound has hbin
    (show 0 + as.length < 2 ^ 32 by omega)
    ⟨show 0 + as.length ≤ 8 by omega, show 8 ≤ atpTraceNone by decide, .inl rfl⟩
  rwa [show axioms (freshProver cfg databaseUltimate tracePack) = [] from rfl,
    List.append_nil] at hrun

theorem canonicalize_orderIndependent_unital :
    let p := (play givenFirst (freshProver (intakeConfig false) false true)).1
    let p' := (play givenSecond (freshProver (intakeConfig false) false false)).1
    OrderIndependent (fun p => Regular (AxiomsOldest p)) p p' := by
  intro p p'
  have hperm : (axioms p).Perm [commutativity, leftUnit] :=
    axioms_freshProver rfl false true (by decide) (by decide)
  have hperm' : (axioms p').Perm [leftUnit, commutativity] :=
    axioms_freshProver rfl false false (by decide) (by decide)
  have hsub : [commutativity, leftUnit] ⊆ [commutativity, leftUnit, rightUnit] := by decide
  have hsub' : [rightUnit, leftUnit] ⊆ [commutativity, leftUnit, rightUnit] := by decide
  refine (canonicalize_orderIndependent unitalArity).2 p p'
    ⟨_, givenFirst, fresh_freshProver _ _ _, by decide, by decide, rfl⟩
    ⟨_, givenSecond, fresh_freshProver _ _ _, by decide, by decide, rfl⟩ rfl rfl
    (fun _ _ _ hult => nomatch (show false = true from hult))
    (fun _ _ _ hult => nomatch (show false = true from hult))
    (fun e he => signed_unital e (hsub (hperm.mem_iff.mp he)))
    (fun e he => signed_unital e (hsub' he))
    ((hperm.trans (.swap _ _ _)).trans hperm'.symm) (.swap _ _ _)

/-! ## Selections that take another pair -/

/-- A selection behind the call that returns no axiom. -/
theorem not_leaveFirst (as : List (Act P)) {order : List Equation} (hne : order ≠ [])
    (hlt : p.queue.seqNext + as.length < 2 ^ 31)
    (hrun : equations p.trace (play as (atpWmIntakeCanonicalize p)).2 = [none]) :
    ¬ LeaveFirst (fun _ _ => True) order p := by
  intro hfirst
  have hrun' := hfirst as hlt trivial
  cases order with
  | nil => exact hne rfl
  | cons e order =>
    have hlen := congrArg List.length hrun
    rw [equations, List.length_map, List.length_singleton] at hlen
    dsimp only at hrun'
    rw [hrun, hlen] at hrun'
    simp at hrun'

def selectAt (nActivatedRe : ℕ) : Act Unit :=
  .select (fun _ => false) (fun _ => false)
    { plainWorld with nActivatedRe := nActivatedRe, nRules := 0 }

/-- A prover with these axioms, and with an older derived pair if that is asked for. -/
def given (cfg : Config) (databaseUltimate older : Bool) (es : List Equation) : Prover Unit :=
  (play ((if older then [addDerived] else []) ++ es.map addAxiom)
    (freshProver cfg databaseUltimate true)).1

/-- Two axioms over the signature, which one of the orders lets another pair overtake. -/
def Overtaken (cfg : Config) (databaseUltimate older : Bool) : Prop :=
  let p := given cfg databaseUltimate older [commutativity, leftUnit]
  let p' := given cfg databaseUltimate older [leftUnit, commutativity]
  Intake p ∧ Intake p' ∧ Signed unitalArity (axioms p) ∧ Signed unitalArity p.goals ∧
    (axioms p).Perm (axioms p') ∧ p.goals.Perm p'.goals ∧
    ¬ OrderIndependent (fun _ _ _ => True) p p'

theorem intake_given (cfg : Config) (databaseUltimate older : Bool) (es : List Equation)
    (hlen : es.length ≤ 4) : Intake (given cfg databaseUltimate older es) := by
  refine ⟨_, _, fresh_freshProver cfg databaseUltimate true, fun a ha => ?_, ?_, rfl⟩
  · rcases List.mem_append.mp ha with ha | ha
    · cases older with
      | true => rw [List.mem_singleton.mp ha]; rfl
      | false => cases ha
    · obtain ⟨e, -, rfl⟩ := List.mem_map.mp ha
      rfl
  · rw [List.length_append, List.length_map]
    cases older with
    | true => exact Nat.lt_of_le_of_lt (Nat.add_le_add_left hlen 1) (by decide)
    | false => exact Nat.lt_of_le_of_lt (Nat.add_le_add_left hlen 0) (by decide)

theorem overtaken_of_run (cfg : Config) (databaseUltimate older : Bool) (as : List (Act Unit))
    (haxioms : ∀ es ∈ [[commutativity, leftUnit], [leftUnit, commutativity]],
      (axioms (given cfg databaseUltimate older es)).Perm [commutativity, leftUnit])
    (hlt : (given cfg databaseUltimate older [commutativity, leftUnit]).queue.seqNext +
      as.length < 2 ^ 31)
    (hrun : equations (given cfg databaseUltimate older [commutativity, leftUnit]).trace
      (play as (atpWmIntakeCanonicalize
        (given cfg databaseUltimate older [commutativity, leftUnit]))).2 = [none]) :
    Overtaken cfg databaseUltimate older := by
  have hperm := haxioms [commutativity, leftUnit] (by simp)
  have hperm' := haxioms [leftUnit, commutativity] (by simp)
  have hgoals (es : List Equation) (hes : es ∈ [[commutativity, leftUnit],
      [leftUnit, commutativity]]) : (given cfg databaseUltimate older es).goals = [] := by
    rcases List.mem_pair.mp hes with rfl | rfl <;> cases older <;> rfl
  refine ⟨intake_given _ _ _ _ (by decide), intake_given _ _ _ _ (by decide), fun e he => ?_,
    fun e he => ?_, hperm.trans hperm'.symm, ?_, ?_⟩
  · exact signed_unital e (List.mem_append_left [rightUnit] (hperm.mem_iff.mp he))
  · rw [hgoals _ (by simp)] at he
    cases he
  · rw [hgoals _ (by simp), hgoals _ (by simp)]
  · rintro ⟨order, order', horder, -, -, hfirst, -⟩
    refine not_leaveFirst as (fun hnil => ?_) hlt hrun hfirst
    rw [hnil] at horder
    exact List.cons_ne_nil _ _ (horder.trans hperm).nil_eq.symm

/-- A derived pair is selected before the axioms: by its goal weight, by its second weight, at
random, or from the two-dimensional heap; an older one also by its age or, where it is ultimate,
from the root. -/
theorem axioms_overtaken :
    Overtaken { intakeConfig false with useGoalInterleave := 1 } false false ∧
    Overtaken { intakeConfig false with w2Modulo := 1 } false false ∧
    Overtaken { intakeConfig false with randomModulo := 1 } false false ∧
    Overtaken (intakeConfig true) false false ∧
    Overtaken (intakeConfig false) false true ∧
    Overtaken { intakeConfig false with wmItl := true } false true ∧
    Overtaken { intakeConfig false with fifoThreshold := 0 } true true := by
  refine ⟨?_, ?_, ?_, ?_, ?_, ?_, ?_⟩
  · exact overtaken_of_run _ _ _ [addDerived, selectAt 1] (by decide +kernel) (by decide)
      (by decide +kernel)
  · exact overtaken_of_run _ _ _ [addDerived, selectAt 1] (by decide +kernel) (by decide)
      (by decide +kernel)
  · exact overtaken_of_run _ _ _ [addDerived, addDerived, addDerived, selectAt 1]
      (by decide +kernel) (by decide) (by decide +kernel)
  · exact overtaken_of_run _ _ _ [addDerived, selectAt 1] (by decide +kernel) (by decide)
      (by decide +kernel)
  · exact overtaken_of_run _ _ _ [selectAt 0] (by decide +kernel) (by decide) (by decide +kernel)
  · exact overtaken_of_run _ _ _ [selectAt 1] (by decide +kernel) (by decide) (by decide +kernel)
  · exact overtaken_of_run _ _ _ [selectAt 0] (by decide +kernel) (by decide) (by decide +kernel)

end Thvm.Atp.WmIntake
