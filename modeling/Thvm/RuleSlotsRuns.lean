import Thvm.RuleSlotsSpec
import Thvm.TransitionRuns

/-!
# Runs on the rule slots

Rules are added, marked dead, and reduced by the newest of them, in any order, and the prover
notes down on a slot what it has found out about its rule.
-/

namespace Thvm.Atp
open SlotColumns TransitionRuns

/-- `add` pushes a rule and stamps it with its trace, and `interreduce` is given the first and the
number of the new rules. -/
inductive SlotOp
  | add (lhs rhs : FTerm)
  | esetSubsume (newI : ℕ)
  | interreduce (first count : ℕ)
  | setGjStatus (i : ℕ) (st : GjStatus)
  | setOverlapDone (i : ℕ)

namespace RuleSlots

def stamp (w : RuleWorld) (s : RuleSlots) (i : ℕ) : RuleSlots :=
  { s.ask with rTrace := Function.update s.rTrace i (w.tracePush s.asked) }

def apply (w : RuleWorld) (o : RuleOptions) (s : RuleSlots) : SlotOp → RuleSlots
  | .add lhs rhs =>
    let (pushed, s') := s.atpPushRule w o lhs rhs
    if pushed then s'.stamp w s.nRules else s'
  | .esetSubsume newI => s.atpEsetSubsumeByNew w newI
  | .interreduce first count => s.thvmAtpInterreduce w o first count
  | .setGjStatus i st => { s with rGjStatus := Function.update s.rGjStatus i st }
  | .setOverlapDone i => { s with rOverlapDone := Function.update s.rOverlapDone i true }

/-- The slots that an operation is about are in use. -/
def Allowed (s : RuleSlots) : SlotOp → Prop
  | .add _ _ => True
  | .esetSubsume newI => newI < s.nRules
  | .interreduce first count => first + count ≤ s.nRules
  | .setGjStatus i _ => i < s.nRules
  | .setOverlapDone i => i < s.nRules

instance (s : RuleSlots) : DecidablePred s.Allowed
  | .add _ _ => inferInstanceAs (Decidable True)
  | .esetSubsume newI => inferInstanceAs (Decidable (newI < s.nRules))
  | .interreduce first count => inferInstanceAs (Decidable (first + count ≤ s.nRules))
  | .setGjStatus i _ => inferInstanceAs (Decidable (i < s.nRules))
  | .setOverlapDone i => inferInstanceAs (Decidable (i < s.nRules))

/-- An operation that does not go wrong: the uids do not run out, and interreduction comes to no
slot where it leaves an attribute behind or a flag as it was. -/
def Careful (w : RuleWorld) (o : RuleOptions) (s : RuleSlots) : SlotOp → Prop
  | .add _ _ => s.nextRuleUid + 1 < 2 ^ 32
  | .interreduce first count => InterreduceSafe w o s first count
  | _ => True

def Call (w : RuleWorld) (o : RuleOptions) (s : RuleSlots) (op : SlotOp) (s' : RuleSlots) : Prop :=
  s.Allowed op ∧ s' = s.apply w o op

def Step (w : RuleWorld) (o : RuleOptions) (s : RuleSlots) (op : SlotOp) (s' : RuleSlots) : Prop :=
  s.Careful w o op ∧ s.Call w o op s'

/-- Before `thvm_atp_init` has made room for the first rules. -/
structure Empty (s : RuleSlots) : Prop where
  nRules : s.nRules = 0
  rCap : s.rCap = 0
  nUnorient : s.nUnorient = 0
  nextRuleUid : s.nextRuleUid = 0

/-- What holds between the operations. -/
structure Whole (w : RuleWorld) (s : RuleSlots) : Prop where
  unorient : s.nUnorient = s.rows.countP fun r => !r.rOrient
  slot : ∀ i r, s.rows[i]? = some r → s.uidIdx r.rUid = some i
  flag : ∀ r ∈ s.rows, r.rDead = false → (r.rOrient = true ↔ w.compare r.lhs r.rhs = .gt)
  mirror : ∀ r ∈ s.rows, r.lhsFt = some r.lhs ∧ r.rhsFt = some r.rhs

/-- What an operation does to the rows, all of them being kept whole. -/
def Rides (w : RuleWorld) (o : RuleOptions) (s s' : RuleSlots) : SlotOp → Prop
  | .add lhs rhs => s' = s ∨ ∃ old p trace cut,
      p = (if o.varNorm then w.normalizeVars (lhs, rhs) else (lhs, rhs)) ∧
      List.Forall₂ RuleRow.SoftDeletes s.rows old ∧
      s'.rows = old ++ [.fresh w p.1 p.2 trace (s.nextRuleUid + 1) cut]
  | .esetSubsume _ => List.Forall₂ RuleRow.SoftDeletes s.rows s'.rows
  | .interreduce _ _ => List.SublistForall₂ RuleRow.ComposedFrom s'.rows s.rows
  | .setGjStatus i st => s'.rows = s.rows.modify i fun r => { r with rGjStatus := st }
  | .setOverlapDone i => s'.rows = s.rows.modify i fun r => { r with rOverlapDone := true }

variable {w : RuleWorld} {o : RuleOptions} {s s' s₀ : RuleSlots} {op : SlotOp} {ops : List SlotOp}
  {i : ℕ}

theorem Inv.start (h : s₀.Empty) : Inv w (s₀.atpEnsureRuleCap atpInitRules) := by
  refine Inv.ensure _ ⟨?_, fun i _ hi => ?_, fun i hi => ?_, fun i hi => ?_, fun i hi => ?_,
    fun i hi => ?_, ?_, fun i hi => ?_⟩
  · rw [h.nRules, h.rCap]
  · rw [h.rCap] at hi
    exact absurd hi (Nat.not_lt_zero i)
  · rw [h.nRules] at hi
    exact absurd hi (Nat.succ_ne_zero i)
  all_goals first
    | rw [h.nRules] at hi
      exact absurd hi (Nat.not_lt_zero i)
    | rw [h.nRules, h.nUnorient]
      rfl

theorem Inv.whole (h : Inv w s) : Whole w s := by
  refine ⟨?_, fun i r hr => ?_, fun r hr => ?_, fun r hr => ?_⟩
  · rw [h.unorient, rows, column, column, List.count, List.countP_map, List.countP_map]
    apply List.countP_congr
    intro i _
    simp [row]
  · obtain ⟨hi, rfl⟩ := getElem?_rows.mp hr
    exact h.slot i hi
  · obtain ⟨i, hi, rfl⟩ := mem_column.mp hr
    exact (h.right i hi).flag
  · obtain ⟨i, hi, rfl⟩ := mem_column.mp hr
    exact ⟨(h.right i hi).lhsFt, (h.right i hi).rhsFt⟩

/-- A mark on a slot: the trace, the status and the done flag are not what the invariant is
about. -/
theorem Inv.mark (h : Inv w s) (hi : i < s.nRules) {r' : RuleRow}
    (hrow : s'.row = Function.update s.row i r')
    (hr : r' = { s.row i with
      rTrace := r'.rTrace, rGjStatus := r'.rGjStatus, rOverlapDone := r'.rOverlapDone })
    (hn : s'.nRules = s.nRules) (hcap : s'.rCap = s.rCap) (hidx : s'.uidIdx = s.uidIdx)
    (hnext : s'.nextRuleUid = s.nextRuleUid) (hun : s'.nUnorient = s.nUnorient) : Inv w s' := by
  refine h.edit hi hrow hn hcap hidx hnext hun ?_ ?_ ?_ fun htop => ?_
  · rw [hr]
    rfl
  · rw [hr]
    rfl
  · rw [hr]
    exact ⟨(h.right i hi).flag, (h.right i hi).lhsFt, (h.right i hi).rhsFt⟩
  · obtain ⟨h₁, h₂, h₃, h₄, h₅, h₆, h₇⟩ := h.top i htop
    rw [hr]
    exact ⟨h₁, h₂, h₃, h₄, h₅, h₆, h₇⟩

theorem row_stamp : (s.stamp w i).row =
    Function.update s.row i { s.row i with rTrace := w.tracePush s.asked } :=
  Function.eq_update_iff.mpr
    ⟨by simp [row, stamp, ask], fun j hj => by simp [row, stamp, ask, hj]⟩

theorem Inv.stamp (h : Inv w s) (hi : i < s.nRules) : Inv w (s.stamp w i) :=
  h.mark hi row_stamp rfl rfl rfl rfl rfl rfl

theorem row_modify {r' : RuleRow} {f : RuleRow → RuleRow} (hrow : s'.row = Function.update s.row i r')
    (hn : s'.nRules = s.nRules) (hr : r' = f (s.row i)) : s'.rows = s.rows.modify i f := by
  rw [rows, rows, hn, hrow, column_update]
  apply List.ext_getElem?
  intro j
  rw [List.getElem?_set, List.getElem?_modify, length_column]
  by_cases hij : i = j
  · subst hij
    by_cases hi : i < s.nRules
    · simp only [if_pos hi, getElem?_column hi, hr]
      rfl
    · rw [if_pos rfl, if_neg hi, List.getElem?_eq_none (by rw [length_column]; omega)]
      rfl
  · simp [hij]

theorem Inv.add {lhs rhs : FTerm} (h : Inv w s) (huid : s.nextRuleUid + 1 < 2 ^ 32) :
    Inv w (s.apply w o (.add lhs rhs)) ∧ Rides w o s (s.apply w o (.add lhs rhs)) (.add lhs rhs) := by
  rcases atpPushRule_spec o lhs rhs h huid with
    ⟨hpushed, hsame⟩ | ⟨hpushed, p, hp, hspec⟩
  · have happly : s.apply w o (.add lhs rhs) = s := by
      simp only [apply, hpushed, hsame, Bool.false_eq_true, if_false]
    rw [happly]
    exact ⟨h, .inl rfl⟩
  · generalize ht : (s.atpPushRule w o lhs rhs).2 = t at hspec
    have happly : s.apply w o (.add lhs rhs) = t.stamp w s.nRules := by
      simp only [apply, hpushed, ht, if_true]
    rw [happly]
    have hn : s.nRules < t.nRules := by
      rw [hspec.nRules]
      omega
    refine ⟨hspec.inv.stamp hn, .inr ⟨column t.row s.nRules, p, w.tracePush t.asked, ?_⟩⟩
    obtain ⟨cut, hnew⟩ := hspec.new
    refine ⟨cut, hp, ?_, ?_⟩
    · rw [List.forall₂_iff_get]
      refine ⟨by simp, fun i hi hi' => ?_⟩
      rw [length_rows] at hi
      simpa [rows, column] using hspec.old i hi
    · have hlen : (t.stamp w s.nRules).nRules = s.nRules + 1 := hspec.nRules
      rw [rows, hlen, row_stamp, column_update_top, hnew]
      rfl

theorem Step.sound (h : Inv w s) (hstep : Step w o s op s') : Inv w s' ∧ Rides w o s s' op := by
  obtain ⟨hcareful, hallowed, rfl⟩ := hstep
  cases op with
  | add lhs rhs => exact h.add hcareful
  | esetSubsume newI =>
    have hdel := atpEsetSubsumeByNew_deletes (w := w) hallowed
    exact ⟨hdel.inv h, hdel.edits.forall₂⟩
  | interreduce first count =>
    have hthin := thvmAtpInterreduce_thins hallowed hcareful
    exact ⟨hthin.inv h, hthin.rows⟩
  | setGjStatus i st =>
    have hrow : (s.apply w o (.setGjStatus i st)).row =
        Function.update s.row i { s.row i with rGjStatus := st } :=
      Function.eq_update_iff.mpr ⟨by simp [row, apply], fun j hj => by simp [row, apply, hj]⟩
    exact ⟨h.mark hallowed hrow rfl rfl rfl rfl rfl rfl, row_modify hrow rfl rfl⟩
  | setOverlapDone i =>
    have hrow : (s.apply w o (.setOverlapDone i)).row =
        Function.update s.row i { s.row i with rOverlapDone := true } :=
      Function.eq_update_iff.mpr ⟨by simp [row, apply], fun j hj => by simp [row, apply, hj]⟩
    exact ⟨h.mark hallowed hrow rfl rfl rfl rfl rfl rfl, row_modify hrow rfl rfl⟩

theorem inv_run (h : s₀.Empty) (hrun : Run (Step w o) (s₀.atpEnsureRuleCap atpInitRules) ops s) :
    Inv w s :=
  hrun.invariant (I := fun _ s => Inv w s) (.start h) fun _ _ _ _ hinv hstep => (Step.sound hinv hstep).1

def blank : RuleSlots where
  lhs _ := deadSentinel
  rhs _ := deadSentinel
  rTrace _ := 0
  rUid _ := 0
  rOrient _ := false
  rDead _ := true
  rDeadLhsSave _ := none
  rDeadRhsSave _ := none
  rDeadSubsumerLhs _ := none
  rDeadSubsumerRhs _ := none
  rRederiveCut _ := 0
  rGjStatus _ := .failed
  rOverlapDone _ := true
  lhsFt _ := none
  rhsFt _ := none
  rDeadLhsSaveFt _ := none
  rDeadRhsSaveFt _ := none
  nRules := 0
  rCap := 0
  nUnorient := 0
  nextRuleUid := 0
  uidIdx _ := none
  rRevision := 0
  asked := 0

theorem empty_blank : blank.Empty := ⟨rfl, rfl, rfl, rfl⟩

/-- Terms are compared by their size, and rewriting knows one redex. -/
def oneRedex (redex reduct : FTerm) : RuleWorld where
  compare s t := if t.size < s.size then .gt else .un
  normalizeVars := id
  esetSubsumes _ _ _ := false
  normalize _ t _ _ := if kboEq t redex then reduct else t
  tracePush asked := asked

def noOptions : RuleOptions :=
  ⟨false, false, false, false, false, false, false, false, false⟩

def session (w : RuleWorld) (o : RuleOptions) (ops : List SlotOp) : RuleSlots :=
  ops.foldl (apply w o) (blank.atpEnsureRuleCap atpInitRules)

/-- Each operation meets a condition when its turn comes. -/
def Along (w : RuleWorld) (o : RuleOptions) (P : RuleSlots → SlotOp → Prop) :
    RuleSlots → List SlotOp → Prop
  | _, [] => True
  | s, op :: ops => P s op ∧ Along w o P (s.apply w o op) ops

theorem run_along {P : RuleSlots → SlotOp → Prop} {R : RuleSlots → SlotOp → RuleSlots → Prop}
    (hR : ∀ s op, P s op → R s op (s.apply w o op)) (h : Along w o P s ops) :
    Run R s ops (ops.foldl (apply w o) s) := by
  induction ops generalizing s with
  | nil => exact .refl
  | cons op ops ih => exact Run.trans (.single (hR s op h.1)) (ih h.2)

/-- `h(x) = k(g(a))`, which is not oriented, `m(a) → a` and `g(a) → a`. -/
def statusOps : List SlotOp :=
  [.add (.ctr 2 [.fvr 0]) (.ctr 4 [.ctr 5 [.ctr 1 []]]), .add (.ctr 3 [.ctr 1 []]) (.ctr 1 []),
    .setGjStatus 1 .hopeless, .add (.ctr 5 [.ctr 1 []]) (.ctr 1 [])]

def statusWorld : RuleWorld := oneRedex (.ctr 4 [.ctr 5 [.ctr 1 []]]) (.ctr 4 [.ctr 1 []])

def statusOptions : RuleOptions := { noOptions with useRhsInterreduce := true }

/-- `h(a) = k(x)`, which is not oriented, and `k(x) → a`. -/
def flagOps : List SlotOp :=
  [.add (.ctr 2 [.ctr 1 []]) (.ctr 4 [.fvr 0]), .add (.ctr 4 [.fvr 0]) (.ctr 1 []),
    .interreduce 1 1]

def flagWorld : RuleWorld := oneRedex (.ctr 4 [.fvr 0]) (.ctr 1 [])

def flagOptions : RuleOptions := { noOptions with rightReduce := true }

theorem status_of_thinned {rows rows' : List RuleRow} {r' : RuleRow}
    (h : List.SublistForall₂ RuleRow.ComposedFrom rows' rows) (hr' : r' ∈ rows') :
    ∃ r ∈ rows, r'.rUid = r.rUid ∧ r'.rGjStatus = r.rGjStatus := by
  obtain ⟨kept, hforall, hsub⟩ := List.sublistForall₂_iff.mp h
  obtain ⟨i, hi, rfl⟩ := List.getElem_of_mem hr'
  have hlen := hforall.length_eq
  have hfrom := (List.forall₂_iff_get.mp hforall).2 i hi (hlen ▸ hi)
  refine ⟨kept[i], hsub.subset (List.getElem_mem _), ?_⟩
  rcases hfrom with heq | ⟨rhs, trace, heq⟩
  · exact ⟨congrArg RuleRow.rUid heq, congrArg RuleRow.rGjStatus heq⟩
  · have hcomposed : rows'[i] = kept[i].composed rhs trace := heq
    rw [hcomposed]
    exact ⟨rfl, rfl⟩

/-- `k(x) → b`, which goes when `k(x) → a` comes. -/
def twoRules : List SlotOp :=
  [.add (.ctr 4 [.fvr 0]) (.ctr 2 []), .setGjStatus 0 .valuable, .add (.ctr 4 [.fvr 0]) (.ctr 1 []),
    .interreduce 1 1]

end RuleSlots

end Thvm.Atp
