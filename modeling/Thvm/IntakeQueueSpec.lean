import Mathlib.Data.List.Sort
import Thvm.CpQueue
import Thvm.CpQueueSpec
import Thvm.FrontSearch
import Thvm.IntakeOrder
import Thvm.IntakeOrderSpec
import Thvm.VariableNormalisation
import Thvm.WaldParser

/-!
# The queue without the marks of deprioritised pairs

An exchange of two slots leaves `cp_deprio` where it is, so the whole records of the queue are
only moved while the marks agree. Without that column they always are.
-/

namespace Thvm

namespace Atp

namespace CpQueue

variable {P : Type} {s s' : Queue P} {cfg : Config} {w : World P} {i j : ℕ}

def unmarked (s : Queue P) : Queue P := { s with deprio := fun _ => false }

def CpRecord.unmarked (x : CpRecord P) : CpRecord P := { x with deprio := false }

/-- The records without the marks. -/
def bag (s : Queue P) : Multiset (CpRecord P) := records (unmarked s)

theorem mem_bag {x : CpRecord P} : x ∈ bag s ↔ ∃ i < s.nCps, (s.slot i).unmarked = x :=
  mem_records

theorem agree_unmarked (s : Queue P) : Agree (unmarked s) := fun _ _ => rfl

theorem Swaps.unmarked (h : Swaps s s') : Swaps (unmarked s) (unmarked s') := by
  induction h with
  | refl s => exact .refl _
  | swap hi hj _ ih => exact .swap (s := CpQueue.unmarked _) hi hj ih

theorem Swaps.bag (h : Swaps s s') : bag s' = bag s :=
  h.unmarked.rearranges.records (agree_unmarked s')

theorem Swaps.counters (h : Swaps s s') :
    s'.seqNext = s.seqNext ∧ s'.fifoFloorSeq = s.fifoFloorSeq := by
  induction h with
  | refl s => exact ⟨rfl, rfl⟩
  | swap _ _ _ ih => exact ih

/-! ## Push -/

/-- The new slot rises to its place. -/
theorem swaps_push (hbin : cfg.kdheap = false) (p : Push P) :
    Swaps { writeSlot s s.nCps (p.record s.seqNext) with
      nCps := s.nCps + 1
      seqNext := (s.seqNext + 1) % 2 ^ 32 } (atpCpPush cfg p s) := by
  simp only [atpCpPush, hbin, Bool.false_eq_true, if_false]
  exact swaps_siftUpFrom _ (Nat.lt_succ_self _)

theorem push_bag (hbin : cfg.kdheap = false) (p : Push P) :
    bag (atpCpPush cfg p s) = (p.record s.seqNext).unmarked ::ₘ bag s := by
  rw [(swaps_push hbin p).bag, bag, records]
  simp only [unmarked]
  rw [Multiset.range_succ, Multiset.map_cons]
  congr 1
  · simp only [Queue.slot, writeSlot, setCol, if_true, Push.record, CpRecord.unmarked]
    cases p.packed <;> rfl
  · refine map_range_congr fun m hm => ?_
    have hne : m ≠ s.nCps := by omega
    have hslot : (writeSlot s s.nCps (p.record s.seqNext)).slot m = s.slot m := by
      simp [Queue.slot, writeSlot, setCol, hne]
    exact congrArg CpRecord.unmarked hslot

theorem push_counters (hbin : cfg.kdheap = false) (p : Push P) :
    (atpCpPush cfg p s).nCps = s.nCps + 1 ∧
      (atpCpPush cfg p s).seqNext = (s.seqNext + 1) % 2 ^ 32 ∧
      (atpCpPush cfg p s).fifoFloorSeq = s.fifoFloorSeq :=
  ⟨(swaps_push hbin p).nCps, (swaps_push hbin p).counters⟩

/-! ## Selection of a live pair -/

theorem dropSlot_unmarked (s : Queue P) (j : ℕ) :
    dropSlot (unmarked s) j = unmarked (dropSlot s j) := by
  unfold dropSlot
  by_cases h : j ≠ s.nCps - 1
  · rw [if_pos h]
    exact if_pos h
  · rw [if_neg h]
    exact if_neg h

theorem dropSlot_counters (s : Queue P) (j : ℕ) :
    (dropSlot s j).seqNext = s.seqNext ∧ (dropSlot s j).fifoFloorSeq = s.fifoFloorSeq := by
  unfold dropSlot
  split <;> exact ⟨rfl, rfl⟩

/-- What is left when a slot has been taken out. -/
structure Extracted (cfg : Config) (s u : Queue P) (j : ℕ) : Prop where
  heap : HeapOrdered cfg u
  nCps : u.nCps = s.nCps - 1
  bag : bag s = (s.slot j).unmarked ::ₘ CpQueue.bag u
  seqNext : u.seqNext = s.seqNext
  floor : u.fifoFloorSeq = s.fifoFloorSeq

theorem extracted_repair (hbin : cfg.kdheap = false) (hlen : s.nCps < 2 ^ 31) (hj : j < s.nCps)
    (h : HeapOrdered cfg s) : Extracted cfg s (repair cfg (dropSlot s j) j) j := by
  have hrepair : Swaps (dropSlot s j) (repair cfg (dropSlot s j) j) :=
    swaps_repair hbin (by rw [nCps_dropSlot]; omega)
  refine ⟨heapOrdered_extract hbin hlen hj h, ?_, ?_, ?_, ?_⟩
  · rw [hrepair.nCps, nCps_dropSlot]
  · rw [hrepair.bag, CpQueue.bag, CpQueue.bag, ← dropSlot_unmarked]
    refine (extracts_dropSlot (s := unmarked s) hj).records ?_
    rw [dropSlot_unmarked]
    exact agree_unmarked _
  · exact hrepair.counters.1.trans (dropSlot_counters s j).1
  · exact hrepair.counters.2.trans (dropSlot_counters s j).2

/-- The pair that the dimension picks is returned when its parents live. -/
theorem select_live (hbin : cfg.kdheap = false) (hlen : s.nCps < 2 ^ 31) (hn : 0 < s.nCps)
    (h : HeapOrdered cfg s) (hlive : deadRecord cfg w (s.slot (pick cfg w s).1) = false) :
    ∃ u, thvmAtpSelectCp cfg w s = (some (s.slot (pick cfg w s).1), u) ∧
      HeapOrdered cfg u ∧ u.nCps = s.nCps - 1 ∧
      bag s = (s.slot (pick cfg w s).1).unmarked ::ₘ bag u ∧ u.seqNext = s.seqNext ∧
      u.fifoFloorSeq = (pick cfg w s).2.fifoFloorSeq := by
  have hj := pick_lt hbin w hn
  obtain ⟨rng, floor, hstate⟩ := pick_state cfg w s
  rw [thvmAtpSelectCp, selectFrom, if_neg (Nat.ne_of_gt hn)]
  generalize pick cfg w s = r at hj hstate hlive ⊢
  obtain ⟨j, t⟩ := r
  obtain rfl : t = _ := hstate
  have hdead : isOrphan cfg w { s with rngState := rng, fifoFloorSeq := floor } j = false := hlive
  have hu := extracted_repair (s := { s with
    rngState := rng
    fifoFloorSeq := floor
    selectCount := (s.selectCount + 1) % 2 ^ 32 }) hbin hlen hj (h.congr rfl rfl)
  refine ⟨_, ?_, hu.heap, hu.nCps, hu.bag, hu.seqNext, hu.floor⟩
  simp only [hdead, Bool.false_eq_true, if_false]
  rfl

/-- Of the live pairs from the floor on none is older than the one that is found. -/
theorem oldestLive_spec (hi : i < s.nCps) (hfloor : s.fifoFloorSeq ≤ s.seq i)
    (hlive : isOrphan cfg w s i = false) :
    ∃ best, oldestLive cfg w s = some best ∧ s.seq best ≤ s.seq i ∧
      isOrphan cfg w s best = false := by
  have hfold : ∀ (l : List ℕ) (b : Option ℕ), (∀ k ∈ b, isOrphan cfg w s k = false) →
      (i ∈ l ∨ ∃ k ∈ b, s.seq k ≤ s.seq i) →
      ∃ best, l.foldl (fun best i =>
          if s.seq i < s.fifoFloorSeq then best
          else if best.any fun b => s.seq i ≥ s.seq b then best
          else if isOrphan cfg w s i then best
          else some i) b = some best ∧ s.seq best ≤ s.seq i ∧
        isOrphan cfg w s best = false := by
    intro l
    induction l with
    | nil =>
      rintro b hb (h | ⟨k, hk, hle⟩)
      · cases h
      · exact ⟨k, hk, hle, hb k hk⟩
    | cons k l ih =>
      intro b hb h
      rw [List.foldl_cons]
      by_cases hlow : s.seq k < s.fifoFloorSeq
      · rw [if_pos hlow]
        refine ih b hb (h.imp_left fun hmem => (List.mem_cons.mp hmem).resolve_left ?_)
        rintro rfl
        omega
      rw [if_neg hlow]
      by_cases hany : (b.any fun b => s.seq k ≥ s.seq b) = true
      · -- the pair kept is as old
        rw [if_pos hany]
        refine ih b hb (h.elim (fun hmem => ?_) .inr)
        rcases List.mem_cons.mp hmem with rfl | hmem
        · obtain ⟨b', rfl, hle⟩ := (Option.any_eq_true _ _).mp hany
          exact .inr ⟨b', rfl, of_decide_eq_true hle⟩
        · exact .inl hmem
      rw [if_neg hany]
      by_cases hdead : isOrphan cfg w s k = true
      · rw [if_pos hdead]
        refine ih b hb (h.imp_left fun hmem => (List.mem_cons.mp hmem).resolve_left ?_)
        rintro rfl
        rw [hdead] at hlive
        cases hlive
      · rw [if_neg hdead]
        refine ih (some k) (fun k' hk' => ?_) ?_
        · obtain rfl := Option.some.inj hk'
          exact Bool.eq_false_iff.mpr hdead
        · rcases h with hmem | ⟨b', hb', hle⟩
          · rcases List.mem_cons.mp hmem with rfl | hmem
            · exact .inr ⟨i, rfl, Nat.le_refl _⟩
            · exact .inl hmem
          · obtain rfl : b = some b' := hb'
            have hlt : ¬ s.seq k ≥ s.seq b' := fun hge => hany (decide_eq_true hge)
            exact .inr ⟨k, rfl, by omega⟩
  exact hfold _ none (fun _ h => nomatch h) (.inl (List.mem_range.mpr hi))

end CpQueue

end Atp

end Thvm

/-!
## Axioms in the queue

`thvm_atp_add_equation` queues an axiom with an entry in the trace. Before the first selection
`atp_wm_intake_canonicalize` gives the ages of the queued axioms out again, in their canonical
order, and marks them as ultimate.
-/

namespace Thvm

namespace Wald

mutual

/-- `wald_term_sort` for a specification with sorts. -/
def termSort (spec : WaldSpec) : FTerm → ℕ
  | .leaf (.fvr id) =>
    ((spec.vars.rows.find? fun v => v.varId = id).map WaldVar.sort).getD waldMaxSorts
  | .leaf (.num _ _) => waldMaxSorts
  | .node lab args =>
    match spec.symbols.rows.find? fun sym => sym.label = lab with
    | some sym =>
      if sym.arity = args.length ∧ termSorts spec sym.argSorts args then sym.resultSort
      else waldMaxSorts
    | none => waldMaxSorts

/-- Every argument has the sort at its place. -/
def termSorts (spec : WaldSpec) : List ℕ → List FTerm → Bool
  | sort :: sorts, a :: as => termSort spec a = sort && termSorts spec sorts as
  | _, [] => true
  | [], _ :: _ => false

end

def waldTermSort (spec : WaldSpec) (t : FTerm) : ℕ :=
  if spec.sorts.rows = [] then 0 else termSort spec t

end Wald

namespace Atp.WmIntake

open CpQueue Wald

variable {P : Type}

/-- `ATP_TRACE_NONE`. -/
def atpTraceNone : ℕ := 0xFFFFFFFF

def atpMaxGoals : ℕ := 64

/-- The children of a trace entry up to its pair. -/
structure Entry extends TraceEntry where
  parentA : ℕ
  parentB : ℕ
  deriving DecidableEq

structure Prover (P : Type) where
  queue : Queue P
  cfg : Config
  useInitialUltimate : Bool
  useDatabaseUltimate : Bool
  /-- `cp_ultimate != NULL` -/
  hasUltimate : Bool
  maxCpQueue : ℕ
  spec : Option WaldSpec
  goals : List Equation
  trace : List Entry
  tMax : ℕ
  tracePack : Bool
  cpTraceLean : Bool

/-- The switches that the queue reads. -/
def Prover.config (p : Prover P) : Config :=
  { p.cfg with
    useUltimate := (p.useInitialUltimate || p.useDatabaseUltimate) && p.hasUltimate }

/-! ## The trace -/

/-- An entry that finds no room is dropped. -/
def atpTracePush (e : Entry) (p : Prover P) : Prover P × ℕ :=
  if p.trace.length < p.tMax then ({ p with trace := p.trace ++ [e] }, p.trace.length)
  else (p, atpTraceNone)

/-- Both ways to save room leave `NUM(0)` in the place of the pair. -/
def atpTracePushCp (pa pb : ℕ) (e : Equation) (p : Prover P) : Prover P × ℕ :=
  let pair := if p.tracePack || p.cpTraceLean then (.num 0 0, .num 0 0) else e
  atpTracePush ⟨⟨.traceCp, pair.1, pair.2⟩, pa, pb⟩ p

def atpTraceIsDead (dead : ℕ → Bool) (tr : ℕ) : Bool := tr ≠ atpTraceNone && dead tr

def atpCpIsOrphan (entries : List Entry) (dead : ℕ → Bool) (tr : ℕ) : Bool :=
  tr ≠ atpTraceNone && entries[tr]?.any fun e =>
    e.reason = .traceCp && (atpTraceIsDead dead e.parentA || atpTraceIsDead dead e.parentB)

/-- Uid 0 is that of no rule. -/
def atpUidIsDead (dead : ℕ → Bool) (uid : ℕ) : Bool := uid ≠ 0 && dead uid

/-! ## Additions -/

/-- The mark of an ultimate pair is kept when there is a column for it, and a full queue takes
nothing. -/
def atpCpHeapPush (push : Push P) (p : Prover P) : Prover P :=
  if 0 < p.maxCpQueue ∧ p.maxCpQueue ≤ p.queue.nCps then p
  else
    { p with
      queue := atpCpPush p.config { push with ultimate := push.ultimate && p.hasUltimate } p.queue }

/-- The sort check of an equation or a goal. -/
def wellSorted (p : Prover P) (e : Equation) : Bool :=
  p.spec.all fun spec =>
    waldTermSort spec e.1 ≠ waldMaxSorts && waldTermSort spec e.2 ≠ waldMaxSorts &&
      waldTermSort spec e.1 = waldTermSort spec e.2

/-- `atp_enqueue_equation` behind its checks; `push` has the bytes and the weights. -/
def enqueueEquation (reason : TraceReason) (parent : ℕ) (e : Equation) (push : Push P)
    (p : Prover P) : Prover P :=
  let e := thvmNormalizeVars e
  let (p, tr) := atpTracePush ⟨⟨reason, e.1, e.2⟩, parent, atpTraceNone⟩ p
  let ultimate := reason = .traceAxiom ∧ parent = atpTraceNone
  atpCpHeapPush { push with trace := tr, ultimate := ultimate, uidA := 0, uidB := 0 } p

def thvmAtpAddEquation (e : Equation) (push : Push P) (p : Prover P) : Prover P :=
  if wellSorted p e then enqueueEquation .traceAxiom atpTraceNone e push p else p

/-- All goals are checked before the first one is replaced. -/
def thvmAtpSetGoals (gs : List Equation) (p : Prover P) : Prover P :=
  if gs.length ≤ atpMaxGoals ∧ gs.all (wellSorted p) then { p with goals := gs } else p

/-- A derived pair in `atp_push_cps_traced`, which is queued unless a bound on its weight keeps
it out. -/
def pushDerived (pa pb : ℕ) (e : Equation) (push : Option (Push P)) (p : Prover P) : Prover P :=
  let (p, tr) := atpTracePushCp pa pb e p
  match push with
  | some push => atpCpHeapPush { push with trace := tr, ultimate := p.useDatabaseUltimate } p
  | none => p

/-! ## The intake -/

/-- The pair of the entry when it is that of an axiom. -/
def axiomEntry (entries : List Entry) (tr : ℕ) : Option Equation :=
  if tr = atpTraceNone then none
  else entries[tr]?.bind fun e => if e.reason = .traceAxiom then some (e.lhs, e.rhs) else none

/-- The slots that hold axioms, with their pairs. -/
def axiomRows (p : Prover P) : List (ℕ × Equation) :=
  (List.range p.queue.nCps).filterMap fun i =>
    (axiomEntry p.trace (p.queue.trace i)).map fun e => (i, e)

/-- The column is allocated with all marks off when it is missing. -/
def thvmAtpSetUseInitialUltimate (on : Bool) (p : Prover P) : Prover P :=
  let p := { p with useInitialUltimate := on }
  if on ∧ p.hasUltimate = false then
    { p with hasUltimate := true, queue := { p.queue with ultimate := fun _ => false } }
  else p

/-- The slots in their new order, each with the next of the ages. -/
def restamp : List ℕ → List ℕ → Queue P → Queue P
  | slot :: slots, seq :: seqs, q =>
    restamp slots seqs { q with
      seq := setCol q.seq slot seq
      ultimate := setCol q.ultimate slot true }
  | _, _, q => q

def atpWmIntakeCanonicalize (p : Prover P) : Prover P :=
  let rows := axiomRows p
  if rows = [] then p
  else
    let slots := rows.map Prod.fst
    let order := (thvmAtpWmIntakeOrder (rows.map Prod.snd) p.goals).1
    let seqs := (slots.map p.queue.seq).insertionSort (· ≤ ·)
    let p := thvmAtpSetUseInitialUltimate true p
    { p with
      queue := atpCpFloydOnly p.config (restamp (order.filterMap (slots[·]?)) seqs p.queue) }

/-! ## Runs -/

inductive Act (P : Type) where
  | equation (e : Equation) (push : Push P)
  | goals (gs : List Equation)
  | derived (pa pb : ℕ) (e : Equation) (push : Option (Push P))
  /-- `atp_add_equation_simplified` -/
  | simplified (parent : ℕ) (e : Equation) (push : Push P)
  /-- with the dead entries of the trace and the dead uids -/
  | select (dead uidDead : ℕ → Bool) (w : World P)

/-- What a selection reads of the trace. -/
def world (p : Prover P) (dead uidDead : ℕ → Bool) (w : World P) : World P :=
  { w with
    orphan := atpCpIsOrphan p.trace dead
    uidOrphan := fun a b => atpUidIsDead uidDead a || atpUidIsDead uidDead b }

def act (a : Act P) (p : Prover P) : Prover P :=
  match a with
  | .equation e push => thvmAtpAddEquation e push p
  | .goals gs => thvmAtpSetGoals gs p
  | .derived pa pb e push => pushDerived pa pb e push p
  | .simplified parent e push =>
    if wellSorted p e then enqueueEquation .traceSimplify parent e push p else p
  | .select dead uidDead w =>
    { p with queue := (thvmAtpSelectCp p.config (world p dead uidDead w) p.queue).2 }

/-- What a selection returns. -/
def selected (a : Act P) (p : Prover P) : List (Option (CpRecord P)) :=
  match a with
  | .select dead uidDead w => [(thvmAtpSelectCp p.config (world p dead uidDead w) p.queue).1]
  | _ => []

/-- The prover after the acts, and what their selections have returned. -/
def play : List (Act P) → Prover P → Prover P × List (Option (CpRecord P))
  | [], p => (p, [])
  | a :: as, p => ((play as (act a p)).1, selected a p ++ (play as (act a p)).2)

end Atp.WmIntake

end Thvm

/-!
## What the intake does to the queue

The ages of the axioms are given out again among their slots and the marks of these are set.
Nothing else of a record changes, and the heap is rebuilt by exchanges.
-/

namespace Thvm.Atp.WmIntake

open CpQueue

variable {P : Type} {p : Prover P} {q : Queue P} {slots seqs : List ℕ}

/-! ## New ages -/

theorem restamp_frame (slots seqs : List ℕ) (q : Queue P) : restamp slots seqs q =
    { q with
      seq := (restamp slots seqs q).seq
      ultimate := (restamp slots seqs q).ultimate } := by
  induction slots generalizing seqs q with
  | nil => rfl
  | cons slot slots ih =>
    cases seqs with
    | nil => rfl
    | cons seq seqs => exact ih seqs _

theorem restamp_of_notMem {m : ℕ} (hm : m ∉ slots) :
    (restamp slots seqs q).seq m = q.seq m ∧
      (restamp slots seqs q).ultimate m = q.ultimate m := by
  induction slots generalizing seqs q with
  | nil => exact ⟨rfl, rfl⟩
  | cons slot slots ih =>
    cases seqs with
    | nil => exact ⟨rfl, rfl⟩
    | cons seq seqs =>
      rw [List.mem_cons, not_or] at hm
      rw [restamp, (ih hm.2).1, (ih hm.2).2]
      simp only [setCol, if_neg hm.1, and_self]

/-- Every slot has the age at its place. -/
theorem restamp_of_mem (hnodup : slots.Nodup) (hlen : slots.length = seqs.length) :
    slots.map (restamp slots seqs q).seq = seqs ∧
      ∀ m ∈ slots, (restamp slots seqs q).ultimate m = true := by
  induction slots generalizing seqs q with
  | nil => exact ⟨(List.length_eq_zero_iff.mp hlen.symm).symm, fun m hm => absurd hm List.not_mem_nil⟩
  | cons slot slots ih =>
    cases seqs with
    | nil => cases hlen
    | cons seq seqs =>
      obtain ⟨hslot, hnodup⟩ := List.nodup_cons.mp hnodup
      obtain ⟨hseqs, hultimate⟩ := ih (q := { q with
        seq := setCol q.seq slot seq
        ultimate := setCol q.ultimate slot true }) hnodup (Nat.succ.inj hlen)
      have hself (s : Queue P) : (restamp slots seqs s).seq slot = s.seq slot ∧
          (restamp slots seqs s).ultimate slot = s.ultimate slot := restamp_of_notMem hslot
      rw [restamp, List.map_cons, hseqs, (hself _).1]
      refine ⟨congrArg (· :: seqs) (if_pos rfl), fun m hm => ?_⟩
      rcases List.mem_cons.mp hm with rfl | hm
      · exact (hself _).2.trans (if_pos rfl)
      · exact hultimate m hm

/-- The slots below `n` are those of the list and the others. -/
theorem range_eq_add {n : ℕ} (hnodup : slots.Nodup) (hlt : ∀ m ∈ slots, m < n) :
    Multiset.range n = (slots : Multiset ℕ) + (Multiset.range n).filter (· ∉ slots) := by
  have hin : (Multiset.range n).filter (· ∈ slots) = slots := by
    refine (Multiset.Nodup.ext ((Multiset.nodup_range n).filter _)
      (Multiset.coe_nodup.mpr hnodup)).mpr fun m => ?_
    rw [Multiset.mem_filter, Multiset.mem_range, Multiset.mem_coe]
    exact ⟨And.right, fun hm => ⟨hlt m hm, hm⟩⟩
  conv_lhs => rw [← Multiset.filter_add_not (· ∈ slots) (Multiset.range n), hin]

/-! ## The axioms of the queue -/

theorem mem_axiomRows {i : ℕ} {e : Equation} : (i, e) ∈ axiomRows p ↔
    i < p.queue.nCps ∧ axiomEntry p.trace (p.queue.trace i) = some e := by
  rw [axiomRows, List.mem_filterMap]
  constructor
  · rintro ⟨j, hj, h⟩
    obtain ⟨e', he', hpair⟩ := Option.map_eq_some_iff.mp h
    obtain ⟨rfl, rfl⟩ := Prod.mk.inj hpair
    exact ⟨List.mem_range.mp hj, he'⟩
  · rintro ⟨hi, he⟩
    exact ⟨i, List.mem_range.mpr hi, by rw [he]; rfl⟩

/-- The equations of the queued axioms. -/
def axioms (p : Prover P) : List Equation := (axiomRows p).map Prod.snd

/-- The slots of the axioms with their equations, in canonical order. -/
def canonicalRows (p : Prover P) : List (ℕ × Equation) :=
  (thvmAtpWmIntakeOrder (axioms p) p.goals).1.filterMap ((axiomRows p)[·]?)

theorem canonicalRows_perm (p : Prover P) : (canonicalRows p).Perm (axiomRows p) := by
  have hperm := (order_perm (axioms p) p.goals).filterMap ((axiomRows p)[·]?)
  rwa [axioms, List.length_map, filterMap_range_getElem?] at hperm

theorem map_canonicalRows {α : Type} (f : ℕ × Equation → α) (p : Prover P) :
    (canonicalRows p).map f =
      (thvmAtpWmIntakeOrder (axioms p) p.goals).1.filterMap (((axiomRows p).map f)[·]?) := by
  rw [canonicalRows, List.map_filterMap]
  simp only [List.getElem?_map]

theorem canonicalRows_snd (p : Prover P) :
    (canonicalRows p).map Prod.snd = canonical (axioms p) p.goals := map_canonicalRows _ p

def axiomSlots (p : Prover P) : List ℕ := (canonicalRows p).map Prod.fst

theorem nodup_axiomSlots (p : Prover P) : (axiomSlots p).Nodup := by
  refine ((canonicalRows_perm p).map Prod.fst).nodup_iff.mpr ?_
  refine List.Nodup.sublist ?_ (List.nodup_range (n := p.queue.nCps))
  rw [axiomRows, List.map_filterMap]
  induction List.range p.queue.nCps with
  | nil => exact .slnil
  | cons i l ih =>
    rw [List.filterMap_cons]
    cases axiomEntry p.trace (p.queue.trace i) with
    | none => exact ih.cons i
    | some e => exact ih.cons_cons i

theorem mem_axiomSlots {i : ℕ} : i ∈ axiomSlots p ↔
    i < p.queue.nCps ∧ (axiomEntry p.trace (p.queue.trace i)).isSome := by
  rw [axiomSlots, ((canonicalRows_perm p).map Prod.fst).mem_iff, List.mem_map]
  constructor
  · rintro ⟨⟨j, e⟩, hmem, rfl⟩
    obtain ⟨hlt, he⟩ := mem_axiomRows.mp hmem
    exact ⟨hlt, Option.isSome_iff_exists.mpr ⟨e, he⟩⟩
  · rintro ⟨hlt, hsome⟩
    obtain ⟨e, he⟩ := Option.isSome_iff_exists.mp hsome
    exact ⟨(i, e), mem_axiomRows.mpr ⟨hlt, he⟩, rfl⟩

/-- The ages of the axioms in ascending order. -/
def axiomAges (p : Prover P) : List ℕ :=
  (((axiomRows p).map Prod.fst).map p.queue.seq).insertionSort (· ≤ ·)

theorem axiomAges_perm (p : Prover P) :
    (axiomAges p).Perm ((axiomSlots p).map p.queue.seq) :=
  (List.perm_insertionSort _ _).trans
    (((canonicalRows_perm p).map Prod.fst).map p.queue.seq).symm

theorem length_axiomAges (p : Prover P) : (axiomSlots p).length = (axiomAges p).length := by
  rw [(axiomAges_perm p).length_eq, List.length_map]

/-! ## The call -/

/-- The queue with the marks as the call finds them. -/
def markedQueue (p : Prover P) : Queue P :=
  { p.queue with ultimate := fun i => p.hasUltimate && p.queue.ultimate i }

theorem queue_setUseInitialUltimate (p : Prover P) :
    (thvmAtpSetUseInitialUltimate true p).queue = markedQueue p := by
  unfold thvmAtpSetUseInitialUltimate markedQueue
  cases p.hasUltimate <;> simp

/-- The queue with the new ages, before the heap is rebuilt. -/
def stampedQueue (p : Prover P) : Queue P :=
  restamp (axiomSlots p) (axiomAges p) (markedQueue p)

theorem atpWmIntakeCanonicalize_eq (h : axiomRows p ≠ []) : atpWmIntakeCanonicalize p =
    { thvmAtpSetUseInitialUltimate true p with
      queue := atpCpFloydOnly (thvmAtpSetUseInitialUltimate true p).config (stampedQueue p) } := by
  rw [atpWmIntakeCanonicalize, if_neg h, stampedQueue, axiomSlots, map_canonicalRows,
    ← queue_setUseInitialUltimate]
  rfl

theorem swaps_canonicalize (h : axiomRows p ≠ []) :
    Swaps (stampedQueue p) (atpWmIntakeCanonicalize p).queue := by
  rw [atpWmIntakeCanonicalize_eq h]
  exact swaps_floydOnly _ _

theorem stampedQueue_frame (p : Prover P) : stampedQueue p =
    { p.queue with
      seq := (stampedQueue p).seq
      ultimate := (stampedQueue p).ultimate } := by
  conv_lhs => rw [stampedQueue, restamp_frame]
  rfl

theorem stampedQueue_seq (p : Prover P) : (axiomSlots p).map (stampedQueue p).seq = axiomAges p :=
  (restamp_of_mem (nodup_axiomSlots p) (length_axiomAges p)).1

/-- The other slots. -/
theorem stampedQueue_of_notMem {i : ℕ} (hi : i ∉ axiomSlots p) :
    (stampedQueue p).seq i = p.queue.seq i ∧
      (stampedQueue p).ultimate i = (p.hasUltimate && p.queue.ultimate i) :=
  restamp_of_notMem (q := markedQueue p) hi

/-- A record but for its age and its mark. -/
def pairOf (x : CpRecord P) : CpRecord P := { x with seq := 0, ultimate := false }

/-- The queued pairs. -/
def pairs (q : Queue P) : Multiset (CpRecord P) := (bag q).map pairOf

def ages (q : Queue P) : Multiset ℕ := (bag q).map CpRecord.seq

theorem ages_eq (q : Queue P) : ages q = (Multiset.range q.nCps).map q.seq := by
  rw [ages, bag, records, Multiset.map_map]
  rfl

theorem pairs_stampedQueue (p : Prover P) : pairs (stampedQueue p) = pairs p.queue := by
  rw [stampedQueue_frame, pairs, pairs, bag, bag, records, records, Multiset.map_map,
    Multiset.map_map]
  rfl

theorem ages_stampedQueue (p : Prover P) : ages (stampedQueue p) = ages p.queue := by
  have hn : (stampedQueue p).nCps = p.queue.nCps := by rw [stampedQueue_frame]
  have hrest : ((Multiset.range p.queue.nCps).filter (· ∉ axiomSlots p)).map (stampedQueue p).seq =
      ((Multiset.range p.queue.nCps).filter (· ∉ axiomSlots p)).map p.queue.seq :=
    Multiset.map_congr rfl fun i hi => (stampedQueue_of_notMem (Multiset.mem_filter.mp hi).2).1
  rw [ages_eq, ages_eq, hn, range_eq_add (nodup_axiomSlots p) fun i hi => (mem_axiomSlots.mp hi).1,
    Multiset.map_add, Multiset.map_add, hrest, Multiset.map_coe, Multiset.map_coe,
    stampedQueue_seq, Multiset.coe_eq_coe.mpr (axiomAges_perm p)]

/-- No queued pair is changed, and the ages are the same ones. -/
theorem canonicalize_pairs_ages (p : Prover P) :
    pairs (atpWmIntakeCanonicalize p).queue = pairs p.queue ∧
      ages (atpWmIntakeCanonicalize p).queue = ages p.queue := by
  by_cases h : axiomRows p = []
  · rw [atpWmIntakeCanonicalize, if_pos h]
    exact ⟨rfl, rfl⟩
  · have hbag := (swaps_canonicalize h).bag
    constructor
    · rw [pairs, hbag]
      exact pairs_stampedQueue p
    · rw [ages, hbag]
      exact ages_stampedQueue p

end Thvm.Atp.WmIntake
