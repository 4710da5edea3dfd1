import Thvm.CpQueueRuns
import Thvm.IntakeQueueSpec

/-!
# The order in which the axioms leave the queue

Behind the call the axioms are the front of the queue: they are marked, their ages ascend in the
canonical order, and no other pair that is marked is as old. A push keeps this, and a selection
takes the first of them.
-/

namespace Thvm.Atp.WmIntake

open CpQueue

variable {P : Type} {p p' : Prover P} {a : Act P}

/-! ## Additions -/

def Act.isSelect : Act P → Bool
  | .select _ _ _ => true
  | _ => false

/-- A pushed pair has a new entry of the trace or none, and parents unless it is an axiom. -/
structure NewPair (p p' : Prover P) (push : Push P) : Prop where
  entry : push.trace = atpTraceNone ∨ p.trace.length ≤ push.trace ∧ push.trace < p'.trace.length
  uids : (axiomEntry p'.trace push.trace).isSome → push.uidA = 0 ∧ push.uidB = 0

/-- What an act does that selects nothing: the trace grows, and at most one pair is pushed. -/
structure Grown (p p' : Prover P) : Prop where
  config : p'.config = p.config
  trace : p.trace <+: p'.trace
  queue : p'.queue = p.queue ∨
    ∃ push, p'.queue = atpCpPush p.config push p.queue ∧ NewPair p p' push

theorem Grown.refl (p : Prover P) : Grown p p := ⟨rfl, List.prefix_rfl, .inl rfl⟩

theorem grown_tracePush (e : Entry) (p : Prover P) : Grown p (atpTracePush e p).1 := by
  unfold atpTracePush
  split
  · exact ⟨rfl, List.prefix_append _ _, .inl rfl⟩
  · exact .refl p

theorem axiomEntry_append {entries : List Entry} {e : Entry}
    (h : (axiomEntry (entries ++ [e]) entries.length).isSome) : e.reason = .traceAxiom := by
  unfold axiomEntry at h
  split at h
  · cases h
  · rw [List.getElem?_append_right (Nat.le_refl _), Nat.sub_self, List.getElem?_cons_zero,
      Option.bind_some] at h
    split at h
    · assumption
    · cases h

/-- A pair is pushed with a new entry of the trace. -/
theorem grown_push (e : Entry) (push : Push P) (p : Prover P)
    (huids : e.reason = .traceAxiom → push.uidA = 0 ∧ push.uidB = 0) :
    Grown p (atpCpHeapPush { push with trace := (atpTracePush e p).2 } (atpTracePush e p).1) := by
  have htrace := grown_tracePush e p
  have hpair : NewPair p (atpTracePush e p).1 { push with trace := (atpTracePush e p).2 } := by
    unfold atpTracePush
    split
    · exact ⟨.inr ⟨Nat.le_refl _, by simp⟩, fun h => huids (axiomEntry_append h)⟩
    · refine ⟨.inl rfl, fun h => ?_⟩
      rw [axiomEntry, if_pos rfl] at h
      cases h
  have hqueue : (atpTracePush e p).1.queue = p.queue := by
    unfold atpTracePush
    split <;> rfl
  unfold atpCpHeapPush
  split
  · exact htrace
  · refine ⟨htrace.config, htrace.trace, .inr ⟨{ push with
      trace := (atpTracePush e p).2
      ultimate := push.ultimate && (atpTracePush e p).1.hasUltimate }, ?_, hpair.entry, hpair.uids⟩⟩
    simp only [htrace.config, hqueue]

theorem grown_enqueue (reason : TraceReason) (parent : ℕ) (e : Equation) (push : Push P)
    (p : Prover P) : Grown p (enqueueEquation reason parent e push p) :=
  grown_push _ { push with
    ultimate := reason = .traceAxiom ∧ parent = atpTraceNone
    uidA := 0
    uidB := 0 } p fun _ => ⟨rfl, rfl⟩

theorem act_grown (ha : a.isSelect = false) (p : Prover P) :
    Grown p (act a p) ∧ selected a p = [] := by
  cases a with
  | select dead uidDead w => cases ha
  | equation e push =>
    refine ⟨?_, rfl⟩
    simp only [act, thvmAtpAddEquation]
    split
    · exact grown_enqueue _ _ e push p
    · exact .refl p
  | goals gs =>
    refine ⟨?_, rfl⟩
    simp only [act, thvmAtpSetGoals]
    split
    · exact ⟨rfl, List.prefix_rfl, .inl rfl⟩
    · exact .refl p
  | derived pa pb e push =>
    refine ⟨?_, rfl⟩
    cases push with
    | none => exact grown_tracePush _ p
    | some push =>
      have hdb : (atpTracePushCp pa pb e p).1.useDatabaseUltimate = p.useDatabaseUltimate := by
        unfold atpTracePushCp atpTracePush
        dsimp only
        split <;> rfl
      simp only [act, pushDerived, hdb]
      exact grown_push _ { push with ultimate := p.useDatabaseUltimate } p
        fun h => nomatch (show TraceReason.traceCp = .traceAxiom from h)
  | simplified parent e push =>
    refine ⟨?_, rfl⟩
    simp only [act]
    split
    · exact grown_enqueue _ _ e push p
    · exact .refl p

/-! ## Before the call -/

/-- What holds of the queue while nothing has been selected. -/
structure Sound (p : Prover P) : Prop where
  distinct : (ages p.queue).Nodup
  older : ∀ x ∈ bag p.queue, x.seq < p.queue.seqNext
  count : p.queue.nCps ≤ p.queue.seqNext
  floor : p.queue.fifoFloorSeq = 0
  entry : ∀ x ∈ bag p.queue, x.trace = atpTraceNone ∨ x.trace < p.trace.length
  uids : ∀ x ∈ bag p.queue, (axiomEntry p.trace x.trace).isSome → x.uidA = 0 ∧ x.uidB = 0

/-- An entry is read in a longer trace as it was before. -/
theorem axiomEntry_longer {entries entries' : List Entry} (h : entries <+: entries') {tr : ℕ}
    (htr : tr = atpTraceNone ∨ tr < entries.length) :
    axiomEntry entries' tr = axiomEntry entries tr := by
  obtain ⟨new, rfl⟩ := h
  unfold axiomEntry
  split
  · rfl
  · next hne => rw [List.getElem?_append_left (htr.resolve_left hne)]

theorem Sound.grown (h : Sound p) (hg : Grown p p') (hbin : p.config.kdheap = false)
    (hnext : p.queue.seqNext + 1 < 2 ^ 32) :
    Sound p' ∧ p'.queue.seqNext ≤ p.queue.seqNext + 1 := by
  have hold (x) (hx : x ∈ bag p.queue) : x.trace = atpTraceNone ∨ x.trace < p'.trace.length :=
    (h.entry x hx).imp_right fun hlt => hlt.trans_le hg.trace.length_le
  have huids (x) (hx : x ∈ bag p.queue) (hsome : (axiomEntry p'.trace x.trace).isSome) :
      x.uidA = 0 ∧ x.uidB = 0 := by
    rw [axiomEntry_longer hg.trace (h.entry x hx)] at hsome
    exact h.uids x hx hsome
  rcases hg.queue with hqueue | ⟨push, hqueue, hpair⟩
  · refine ⟨⟨?_, ?_, ?_, ?_, ?_, ?_⟩, ?_⟩ <;> rw [hqueue]
    · exact h.distinct
    · exact h.older
    · exact h.count
    · exact h.floor
    · exact hold
    · exact huids
    · exact Nat.le_succ _
  · have hbag := push_bag (s := p.queue) hbin push
    obtain ⟨hcps, hseq, hfloor⟩ := push_counters (s := p.queue) hbin push
    rw [← hqueue] at hbag hcps hseq hfloor
    rw [Nat.mod_eq_of_lt hnext] at hseq
    refine ⟨⟨?_, fun x hx => ?_, ?_, hfloor.trans h.floor, fun x hx => ?_, fun x hx => ?_⟩,
      hseq.le⟩
    · rw [ages, hbag, Multiset.map_cons]
      refine Multiset.nodup_cons.mpr ⟨fun hmem => ?_, h.distinct⟩
      obtain ⟨x, hx, hxs⟩ := Multiset.mem_map.mp hmem
      exact Nat.ne_of_lt (h.older x hx) hxs
    · rw [hseq]
      rw [hbag] at hx
      rcases Multiset.mem_cons.mp hx with rfl | hx
      · exact Nat.lt_succ_self p.queue.seqNext
      · exact Nat.lt_succ_of_lt (h.older x hx)
    · rw [hcps, hseq]
      exact Nat.succ_le_succ h.count
    · rw [hbag] at hx
      rcases Multiset.mem_cons.mp hx with rfl | hx
      · exact hpair.entry.imp_right And.right
      · exact hold x hx
    · rw [hbag] at hx
      rcases Multiset.mem_cons.mp hx with rfl | hx
      · exact hpair.uids
      · exact huids x hx

/-- A prover whose queue is empty and has never been used. -/
structure Fresh (p : Prover P) : Prop where
  nCps : p.queue.nCps = 0
  seqNext : p.queue.seqNext = 0
  floor : p.queue.fifoFloorSeq = 0

theorem Fresh.sound (h : Fresh p) : Sound p := by
  have hbag : bag p.queue = 0 := by
    rw [bag, records, show (unmarked p.queue).nCps = 0 from h.nCps]
    rfl
  have hno (x) (hx : x ∈ bag p.queue) : False := by
    rw [hbag] at hx
    exact Multiset.notMem_zero x hx
  refine ⟨?_, fun x hx => (hno x hx).elim, ?_, h.floor, fun x hx => (hno x hx).elim,
    fun x hx => (hno x hx).elim⟩
  · rw [ages, hbag]
    exact Multiset.nodup_zero
  · rw [h.nCps]
    exact Nat.zero_le _

theorem config_play {as : List (Act P)} (has : ∀ a ∈ as, a.isSelect = false) :
    (play as p).1.config = p.config := by
  induction as generalizing p with
  | nil => rfl
  | cons a as ih =>
    exact (ih fun b hb => has b (List.mem_cons_of_mem a hb)).trans
      (act_grown (has a List.mem_cons_self) p).1.config

theorem Sound.play {as : List (Act P)} (h : Sound p) (has : ∀ a ∈ as, a.isSelect = false)
    (hbin : p.config.kdheap = false) (hnext : p.queue.seqNext + as.length < 2 ^ 32) :
    Sound (play as p).1 ∧
      (WmIntake.play as p).1.queue.seqNext ≤ p.queue.seqNext + as.length := by
  induction as generalizing p with
  | nil => exact ⟨h, Nat.le_refl _⟩
  | cons a as ih =>
    rw [List.length_cons] at hnext
    obtain ⟨hg, -⟩ := act_grown (has a List.mem_cons_self) p
    obtain ⟨hsound, hle⟩ := h.grown hg hbin (by omega)
    obtain ⟨hplay, hle'⟩ := ih hsound (fun b hb => has b (List.mem_cons_of_mem a hb))
      (by rw [hg.config]; exact hbin) (by omega)
    refine ⟨hplay, hle'.trans ?_⟩
    rw [List.length_cons]
    omega

/-- A prover before its first step: axioms, goals and derived pairs have been added. -/
def Intake (p : Prover P) : Prop :=
  ∃ (p₀ : Prover P) (as : List (Act P)), Fresh p₀ ∧ (∀ a ∈ as, a.isSelect = false) ∧
    as.length < 2 ^ 31 ∧ p = (play as p₀).1

/-! ## Behind the call -/

/-- Every other queued pair is younger than the axioms. -/
def AxiomsOldest (p : Prover P) : Prop :=
  ∀ i < p.queue.nCps, axiomEntry p.trace (p.queue.trace i) = none →
    ∀ r ∈ axiomRows p, p.queue.seq r.1 < p.queue.seq i

/-- Every other queued pair that is marked as ultimate is younger than the axioms. -/
def UltimatesYounger (p : Prover P) : Prop :=
  ∀ i < p.queue.nCps, axiomEntry p.trace (p.queue.trace i) = none →
    p.hasUltimate = true → p.queue.ultimate i = true →
      ∀ r ∈ axiomRows p, p.queue.seq r.1 < p.queue.seq i

/-- The axioms `front` wait before the pairs `rest`. If they are also the oldest pairs, which
`oldest` says, the dimension of the ages takes them first as well. -/
structure Waits (entries : List Entry) (oldest : Prop) (front : List (CpRecord P))
    (rest : Multiset (CpRecord P)) (p : Prover P) : Prop where
  binary : p.config.kdheap = false
  ultimates : p.config.useUltimate = true
  trace : entries <+: p.trace
  heap : HeapOrdered p.config p.queue
  count : p.queue.nCps ≤ p.queue.seqNext
  bag : bag p.queue = (front : Multiset (CpRecord P)) + rest
  ascending : (front.map CpRecord.seq).Pairwise (· < ·)
  marked : ∀ x ∈ front, x.ultimate = true
  row : ∀ x ∈ front, (axiomEntry entries x.trace).isSome
  uids : ∀ x ∈ front, x.uidA = 0 ∧ x.uidB = 0
  older : ∀ x ∈ front, x.seq < p.queue.seqNext
  floor : ∀ x ∈ front, p.queue.fifoFloorSeq ≤ x.seq
  behind : ∀ y ∈ rest, y.ultimate = true ∨ oldest → ∀ x ∈ front, x.seq < y.seq

section Waiting

variable {entries : List Entry} {oldest : Prop} {front : List (CpRecord P)}
  {rest : Multiset (CpRecord P)} {x : CpRecord P}

theorem Waits.grown (h : Waits entries oldest front rest p) (hg : Grown p p')
    (hnext : p.queue.seqNext + 1 < 2 ^ 32) :
    (∃ rest', Waits entries oldest front rest' p') ∧
      p'.queue.seqNext ≤ p.queue.seqNext + 1 := by
  have htrace := h.trace.trans hg.trace
  rcases hg.queue with hqueue | ⟨push, hqueue, -⟩
  · refine ⟨⟨rest, ?_, ?_, htrace, ?_, ?_, ?_, h.ascending, h.marked, h.row, h.uids, ?_, ?_,
      h.behind⟩, ?_⟩
    · rw [hg.config]
      exact h.binary
    · rw [hg.config]
      exact h.ultimates
    · rw [hg.config, hqueue]
      exact h.heap
    all_goals rw [hqueue]
    · exact h.count
    · exact h.bag
    · exact h.older
    · exact h.floor
    · exact Nat.le_succ _
  · have hbag := push_bag (s := p.queue) h.binary push
    obtain ⟨hcps, hseq, hfloor⟩ := push_counters (s := p.queue) h.binary push
    have hheap := heapOrdered_push h.binary push h.heap
    rw [← hqueue] at hbag hcps hseq hfloor hheap
    rw [Nat.mod_eq_of_lt hnext] at hseq
    refine ⟨⟨(push.record p.queue.seqNext).unmarked ::ₘ rest, ?_, ?_, htrace, ?_, ?_, ?_,
      h.ascending, h.marked, h.row, h.uids, fun x hx => ?_, fun x hx => ?_, ?_⟩, hseq.le⟩
    · rw [hg.config]
      exact h.binary
    · rw [hg.config]
      exact h.ultimates
    · rw [hg.config]
      exact hheap
    · rw [hcps, hseq]
      exact Nat.succ_le_succ h.count
    · rw [hbag, h.bag, Multiset.add_cons]
    · rw [hseq]
      exact Nat.lt_succ_of_lt (h.older x hx)
    · rw [hfloor]
      exact h.floor x hx
    · intro y hy hcase x hx
      rcases Multiset.mem_cons.mp hy with rfl | hy
      · exact h.older x hx
      · exact h.behind y hy hcase x hx

/-- The parents of an axiom cannot be dead: it has none. -/
theorem Waits.live (h : Waits entries oldest front rest p) (hx : x ∈ front)
    (dead uidDead : ℕ → Bool) (w : World P) :
    deadRecord p.config (world p dead uidDead w) x = false := by
  have hrow := h.row x hx
  obtain ⟨hA, hB⟩ := h.uids x hx
  have horphan : atpCpIsOrphan p.trace dead x.trace = false := by
    obtain ⟨new, hnew⟩ := h.trace
    unfold axiomEntry at hrow
    split at hrow
    · cases hrow
    · obtain ⟨eq, heq⟩ := Option.isSome_iff_exists.mp hrow
      obtain ⟨e, he, hreason⟩ := Option.bind_eq_some_iff.mp heq
      split at hreason
      · next hkind =>
        obtain ⟨hlt, -⟩ := List.getElem?_eq_some_iff.mp he
        rw [← hnew, atpCpIsOrphan, List.getElem?_append_left hlt, he, Option.any_some, hkind]
        simp
      · cases hreason
  simp [deadRecord, world, horphan, hA, hB, atpUidIsDead]

theorem Waits.mem (h : Waits entries oldest (x :: front) rest p) : x ∈ CpQueue.bag p.queue := by
  rw [h.bag]
  exact Multiset.mem_add.mpr (.inl (Multiset.mem_coe.mpr List.mem_cons_self))

/-- A queued pair that is marked, or any one if the axioms are the oldest, is not as old as the
first axiom unless it is that. -/
theorem Waits.first {y : CpRecord P} (h : Waits entries oldest (x :: front) rest p)
    (hy : y ∈ CpQueue.bag p.queue) (hle : y.seq ≤ x.seq) (hcase : y.ultimate = true ∨ oldest) :
    y = x := by
  rw [h.bag, Multiset.mem_add, Multiset.mem_coe, List.mem_cons] at hy
  rcases hy with (rfl | hy) | hy
  · rfl
  · have hlt := List.rel_of_pairwise_cons (by simpa using h.ascending) (List.mem_map_of_mem hy)
    omega
  · have hlt := h.behind y hy hcase x List.mem_cons_self
    omega

/-- The root of the heap is the first of the axioms that wait. -/
theorem Waits.root (h : Waits entries oldest (x :: front) rest p) :
    0 < p.queue.nCps ∧ (p.queue.slot 0).unmarked = x := by
  obtain ⟨i, hi, hslot⟩ := mem_bag.mp h.mem
  have hroot := h.heap.root hi
  have hultimate : p.queue.ultimate i = true :=
    (congrArg CpRecord.ultimate hslot).trans (h.marked x List.mem_cons_self)
  have hfirst : p.queue.ultimate 0 = true ∧ p.queue.seq 0 ≤ p.queue.seq i := by
    simp only [rank, h.ultimates, heapKey, hultimate, Bool.and_self, if_true,
      Bool.true_and] at hroot
    cases hmark : p.queue.ultimate 0 with
    | true => simpa [hmark, Prod.Lex.toLex_le_toLex] using hroot
    | false => simp [hmark, Prod.Lex.toLex_le_toLex] at hroot
  refine ⟨by omega, h.first (mem_bag.mpr ⟨0, by omega, rfl⟩) ?_ (.inl hfirst.1)⟩
  exact hfirst.2.trans (congrArg CpRecord.seq hslot).le

/-- The dimension takes an axiom that waits. -/
def TakesAxiom (oldest : Prop) : Dimension → Prop
  | .weight => True
  | .age | .itl => oldest
  | _ => False

/-- The dimension picks the first of the axioms that wait. -/
theorem Waits.pick (h : Waits entries oldest (x :: front) rest p) (dead uidDead : ℕ → Bool)
    (w : World P) (hnext : p.queue.seqNext < 2 ^ 31)
    (hdim : TakesAxiom oldest (dimension p.config (world p dead uidDead w) p.queue)) :
    let r := pick p.config (world p dead uidDead w) p.queue
    (p.queue.slot r.1).unmarked = x ∧
      (r.2.fifoFloorSeq = p.queue.fifoFloorSeq ∨ r.2.fifoFloorSeq = x.seq + 1) := by
  obtain ⟨hn, hroot⟩ := h.root
  cases hcase : dimension p.config (world p dead uidDead w) p.queue with
  | weight =>
    have hpick : CpQueue.pick p.config (world p dead uidDead w) p.queue = (0, p.queue) := by
      rw [CpQueue.pick, hcase]
    rw [hpick]
    exact ⟨hroot, .inl rfl⟩
  | itl =>
    rw [hcase] at hdim
    -- no pair is older than the root
    have hbest (n : ℕ) (hle : n ≤ p.queue.nCps) :
        scanBest (fun i best => p.queue.seq i < p.queue.seq best) n = 0 := by
      refine scanBest_eq_zero fun i hi => decide_eq_false fun hlt => ?_
      have hseq : p.queue.seq 0 = x.seq := congrArg CpRecord.seq hroot
      have heq := h.first (mem_bag.mpr ⟨i, by omega, rfl⟩)
        (show p.queue.seq i ≤ x.seq by omega) (.inr hdim)
      have hseq' : p.queue.seq i = x.seq := congrArg CpRecord.seq heq
      omega
    have hpick : CpQueue.pick p.config (world p dead uidDead w) p.queue = (0, p.queue) := by
      rw [CpQueue.pick, hcase]
      dsimp only
      rw [hbest _ (by split <;> omega)]
    rw [hpick]
    exact ⟨hroot, .inl rfl⟩
  | age =>
    rw [hcase] at hdim
    -- the oldest live pair
    obtain ⟨i, hi, hslot⟩ := mem_bag.mp h.mem
    have hseq : p.queue.seq i = x.seq := congrArg CpRecord.seq hslot
    have hlive : isOrphan p.config (world p dead uidDead w) p.queue i = false := by
      rw [show isOrphan p.config (world p dead uidDead w) p.queue i =
        deadRecord p.config (world p dead uidDead w) (p.queue.slot i).unmarked from rfl, hslot]
      exact h.live List.mem_cons_self dead uidDead w
    obtain ⟨best, hbest, hle, -⟩ := oldestLive_spec hi
      (hseq ▸ h.floor x List.mem_cons_self) hlive
    have hpick : CpQueue.pick p.config (world p dead uidDead w) p.queue =
        (best, { p.queue with fifoFloorSeq := (p.queue.seq best + 1) % 2 ^ 32 }) := by
      simp only [CpQueue.pick, hcase, hbest]
    have hfirst : (p.queue.slot best).unmarked = x :=
      h.first (mem_bag.mpr ⟨best, oldestLive_lt hbest, rfl⟩) (hle.trans hseq.le) (.inr hdim)
    have hbestSeq : p.queue.seq best = x.seq := congrArg CpRecord.seq hfirst
    have hlt := h.older x List.mem_cons_self
    rw [hpick]
    refine ⟨hfirst, .inr ?_⟩
    rw [hbestSeq]
    exact Nat.mod_eq_of_lt (by omega)
  | kdh d | secondary | goal | random =>
    rw [hcase] at hdim
    exact hdim.elim

/-- A selection returns the first of the axioms, and the others wait on. -/
theorem Waits.select (h : Waits entries oldest (x :: front) rest p) (dead uidDead : ℕ → Bool)
    (w : World P) (hnext : p.queue.seqNext < 2 ^ 31)
    (hdim : TakesAxiom oldest (dimension p.config (world p dead uidDead w) p.queue)) :
    (∃ y, selected (.select dead uidDead w) p = [some y] ∧ y.trace = x.trace) ∧
      Waits entries oldest front rest (act (.select dead uidDead w) p) ∧
      (act (.select dead uidDead w) p).queue.seqNext = p.queue.seqNext := by
  obtain ⟨hslot, hfloor⟩ := h.pick dead uidDead w hnext hdim
  obtain ⟨hn, -⟩ := h.root
  have hlen : p.queue.nCps < 2 ^ 31 := lt_of_le_of_lt h.count hnext
  obtain ⟨u, hselect, hheap, hcps, hbag, hseqNext, hufloor⟩ :=
    select_live (w := world p dead uidDead w) h.binary hlen hn h.heap (by
      rw [show deadRecord p.config (world p dead uidDead w) (p.queue.slot _) =
        deadRecord p.config (world p dead uidDead w) (p.queue.slot _).unmarked from rfl, hslot]
      exact h.live List.mem_cons_self dead uidDead w)
  have hact : act (.select dead uidDead w) p = { p with queue := u } := by
    simp only [act, hselect]
  have hselected : selected (.select dead uidDead w) p = [some (p.queue.slot
      (CpQueue.pick p.config (world p dead uidDead w) p.queue).1)] := by
    simp only [selected, hselect]
  refine ⟨⟨_, hselected, ?_⟩, ?_, ?_⟩
  · exact (congrArg CpRecord.trace hslot :)
  · rw [hact]
    have hascending : (x.seq :: front.map CpRecord.seq).Pairwise (· < ·) := h.ascending
    refine ⟨h.binary, h.ultimates, h.trace, hheap, ?_, ?_, hascending.of_cons,
      fun y hy => h.marked y (List.mem_cons_of_mem x hy),
      fun y hy => h.row y (List.mem_cons_of_mem x hy),
      fun y hy => h.uids y (List.mem_cons_of_mem x hy), fun y hy => ?_, fun y hy => ?_,
      fun z hz hcase y hy => h.behind z hz hcase y (List.mem_cons_of_mem x hy)⟩
    · rw [hcps, hseqNext]
      exact (Nat.sub_le _ _).trans h.count
    · rw [hslot, h.bag, ← Multiset.cons_coe, Multiset.cons_add] at hbag
      exact ((Multiset.cons_inj_right x).mp hbag).symm
    · rw [hseqNext]
      exact h.older y (List.mem_cons_of_mem x hy)
    · change u.fifoFloorSeq ≤ y.seq
      rw [hufloor]
      rcases hfloor with hsame | hsucc
      · rw [hsame]
        exact h.floor y (List.mem_cons_of_mem x hy)
      · rw [hsucc]
        exact List.rel_of_pairwise_cons hascending (List.mem_map_of_mem hy)
  · rw [hact]
    exact hseqNext

end Waiting

/-! ## Runs -/

/-- Selections by weight, and by age where the axioms are the oldest pairs. -/
def Allowed (oldest : Prop) (a : Act P) (p : Prover P) : Prop :=
  match a with
  | .select dead uidDead w =>
    TakesAxiom oldest (dimension p.config (world p dead uidDead w) p.queue)
  | _ => True

def Regular (oldest : Prop) : List (Act P) → Prover P → Prop
  | [], _ => True
  | a :: as, p => Allowed oldest a p ∧ Regular oldest as (act a p)

/-- The equations of what the selections return, as far as these are axioms of the trace. -/
def equations (entries : List Entry) (outs : List (Option (CpRecord P))) : List (Option Equation) :=
  outs.map fun r => r.bind fun x => axiomEntry entries x.trace

/-- The first selections return the axioms that wait, in their order. -/
theorem Waits.play {entries : List Entry} {oldest : Prop} {front : List (CpRecord P)}
    {rest : Multiset (CpRecord P)} {as : List (Act P)} (h : Waits entries oldest front rest p)
    (hreg : Regular oldest as p) (hnext : p.queue.seqNext + as.length < 2 ^ 31) :
    (equations entries (play as p).2).take front.length =
      (front.map fun x => axiomEntry entries x.trace).take (WmIntake.play as p).2.length := by
  induction as generalizing p front rest with
  | nil => simp [equations, WmIntake.play]
  | cons a as ih =>
    rw [List.length_cons] at hnext
    cases hsel : a.isSelect with
    | false =>
      obtain ⟨hg, hnone⟩ := act_grown hsel p
      obtain ⟨⟨rest', h'⟩, hle⟩ := h.grown hg (by omega)
      simp only [WmIntake.play, hnone, List.nil_append]
      exact ih h' hreg.2 (by omega)
    | true =>
      cases a with
      | select dead uidDead w =>
        cases front with
        | nil => simp
        | cons x front =>
          obtain ⟨⟨y, hy, htrace⟩, h', hseq⟩ := h.select dead uidDead w (by omega) hreg.1
          simp only [WmIntake.play, hy, List.cons_append, List.nil_append, equations,
            List.map_cons, List.length_cons, List.take_succ_cons, Option.bind_some, htrace]
          exact congrArg _ (ih h' hreg.2 (by rw [hseq]; omega))
      | _ => cases hsel

/-! ## The call -/

/-- The front that the call makes: the axioms in canonical order. -/
def frontOf (p : Prover P) : List (CpRecord P) :=
  (axiomSlots p).map fun i => ((stampedQueue p).slot i).unmarked

def restOf (p : Prover P) : Multiset (CpRecord P) :=
  ((Multiset.range p.queue.nCps).filter (· ∉ axiomSlots p)).map fun i =>
    ((stampedQueue p).slot i).unmarked

theorem bag_stampedQueue (p : Prover P) :
    bag (stampedQueue p) = (frontOf p : Multiset (CpRecord P)) + restOf p := by
  have hn : (stampedQueue p).nCps = p.queue.nCps := by rw [stampedQueue_frame]
  rw [bag, records, show (unmarked (stampedQueue p)).nCps = p.queue.nCps from hn,
    range_eq_add (nodup_axiomSlots p) fun i hi => (mem_axiomSlots.mp hi).1, Multiset.map_add,
    Multiset.map_coe]
  rfl

theorem trace_stampedQueue (p : Prover P) : (stampedQueue p).trace = p.queue.trace := by
  rw [stampedQueue_frame]

/-- The equations of the front are the axioms in canonical order. -/
theorem map_frontOf (p : Prover P) : (frontOf p).map (fun x => axiomEntry p.trace x.trace) =
    (canonical (axioms p) p.goals).map some := by
  rw [← canonicalRows_snd, frontOf, axiomSlots, List.map_map, List.map_map, List.map_map]
  refine List.map_congr_left fun r hr => ?_
  obtain ⟨-, he⟩ := mem_axiomRows.mp ((canonicalRows_perm p).mem_iff.mp hr)
  change axiomEntry p.trace ((stampedQueue p).trace r.1) = some r.2
  rw [trace_stampedQueue, he]

theorem axiomAges_ascending (h : Sound p) : (axiomAges p).Pairwise (· < ·) := by
  have hnodup : (axiomAges p).Nodup := by
    have hages := h.distinct
    rw [ages_eq, range_eq_add (nodup_axiomSlots p) fun i hi => (mem_axiomSlots.mp hi).1,
      Multiset.map_add, Multiset.map_coe] at hages
    exact (axiomAges_perm p).nodup_iff.mpr (Multiset.coe_nodup.mp (Multiset.nodup_add.mp hages).1)
  have hsorted : (axiomAges p).Pairwise (· ≤ ·) := List.pairwise_insertionSort _ _
  exact hsorted.imp₂ (fun _ _ => lt_of_le_of_ne) hnodup

/-- The age of an axiom behind the call is that of an axiom before it. -/
theorem mem_axiomAges {n : ℕ} (hn : n ∈ axiomAges p) : ∃ r ∈ axiomRows p, p.queue.seq r.1 = n := by
  obtain ⟨i, hi, hseq⟩ := List.mem_map.mp ((axiomAges_perm p).mem_iff.mp hn)
  obtain ⟨r, hr, rfl⟩ := List.mem_map.mp hi
  exact ⟨r, (canonicalRows_perm p).mem_iff.mp hr, hseq⟩

theorem waits_canonicalize (h : Sound p) (hbin : p.config.kdheap = false)
    (hlen : p.queue.nCps < 2 ^ 31) (hult : UltimatesYounger p) (hrows : axiomRows p ≠ []) :
    Waits p.trace (AxiomsOldest p) (frontOf p) (restOf p) (atpWmIntakeCanonicalize p) := by
  have hswaps := swaps_canonicalize hrows
  have heq := atpWmIntakeCanonicalize_eq hrows
  have hn : (stampedQueue p).nCps = p.queue.nCps := by rw [stampedQueue_frame]
  have hseqNext : (atpWmIntakeCanonicalize p).queue.seqNext = p.queue.seqNext :=
    hswaps.counters.1.trans (by rw [stampedQueue_frame])
  have hfloor : (atpWmIntakeCanonicalize p).queue.fifoFloorSeq = 0 :=
    hswaps.counters.2.trans (by rw [stampedQueue_frame]; exact h.floor)
  have hconfig : (atpWmIntakeCanonicalize p).config.kdheap = false ∧
      (atpWmIntakeCanonicalize p).config.useUltimate = true ∧
      (atpWmIntakeCanonicalize p).trace = p.trace := by
    rw [heq]
    unfold thvmAtpSetUseInitialUltimate Prover.config
    cases hcol : p.hasUltimate with
    | true => simp [show p.cfg.kdheap = false from hbin]
    | false => simp [show p.cfg.kdheap = false from hbin]
  have hfront {x : CpRecord P} (hx : x ∈ frontOf p) : ∃ i ∈ axiomSlots p,
      ((stampedQueue p).slot i).unmarked = x := List.mem_map.mp hx
  have hage {x : CpRecord P} (hx : x ∈ frontOf p) : ∃ r ∈ axiomRows p, p.queue.seq r.1 = x.seq := by
    obtain ⟨i, hi, rfl⟩ := hfront hx
    refine mem_axiomAges ?_
    rw [← stampedQueue_seq]
    exact List.mem_map_of_mem hi
  refine ⟨hconfig.1, hconfig.2.1, ?_, ?_, ?_, hswaps.bag.trans (bag_stampedQueue p), ?_,
    fun x hx => ?_, fun x hx => ?_, fun x hx => ?_, fun x hx => ?_, fun x hx => ?_,
    fun y hy hcase x hx => ?_⟩
  · rw [hconfig.2.2]
  · rw [heq]
    exact heapOrdered_floydOnly (by rw [← heq]; exact hconfig.1) (by rwa [hn])
  · rw [hswaps.nCps, hn, hseqNext]
    exact h.count
  · have hseqs : (frontOf p).map CpRecord.seq = axiomAges p := by
      rw [← stampedQueue_seq, frontOf, List.map_map]
      rfl
    rw [hseqs]
    exact axiomAges_ascending h
  · obtain ⟨i, hi, rfl⟩ := hfront hx
    exact (restamp_of_mem (nodup_axiomSlots p) (length_axiomAges p)).2 i hi
  · obtain ⟨i, hi, rfl⟩ := hfront hx
    change (axiomEntry p.trace ((stampedQueue p).trace i)).isSome
    rw [trace_stampedQueue]
    exact (mem_axiomSlots.mp hi).2
  · obtain ⟨i, hi, rfl⟩ := hfront hx
    obtain ⟨hlt, hsome⟩ := mem_axiomSlots.mp hi
    have huids := h.uids _ (mem_bag.mpr ⟨i, hlt, rfl⟩) hsome
    rwa [stampedQueue_frame]
  · obtain ⟨r, hr, hseq⟩ := hage hx
    rw [hseqNext, ← hseq]
    exact h.older _ (mem_bag.mpr ⟨r.1, (mem_axiomRows.mp hr).1, rfl⟩)
  · rw [hfloor]
    exact Nat.zero_le _
  · obtain ⟨i, hi, rfl⟩ := Multiset.mem_map.mp hy
    obtain ⟨hlt, hnot⟩ := Multiset.mem_filter.mp hi
    rw [Multiset.mem_range] at hlt
    obtain ⟨r, hr, hseq⟩ := hage hx
    obtain ⟨hseqi, hmarki⟩ := stampedQueue_of_notMem hnot
    have hnone : axiomEntry p.trace (p.queue.trace i) = none := by
      rw [← Option.not_isSome_iff_eq_none]
      exact fun hsome => hnot (mem_axiomSlots.mpr ⟨hlt, hsome⟩)
    change x.seq < (stampedQueue p).seq i
    rw [hseqi, ← hseq]
    rcases hcase with hmark | hold
    · have hmark' : (stampedQueue p).ultimate i = true := hmark
      rw [hmarki, Bool.and_eq_true] at hmark'
      exact hult i hlt hnone hmark'.1 hmark'.2 r hr
    · exact hold i hlt hnone r hr

end Thvm.Atp.WmIntake
