import Thvm.CpQueueSpec

/-!
# Runs of the queue

The sweep moves the pairs that stay to the front, without the marks and the ids of their
parents. In a run that never moves a pair between slots with other marks, every queued record
is the one of a push, whole, and the slots are in heap order.
-/

namespace Thvm

namespace Atp

namespace CpQueue

variable {P : Type} {s s' s₀ : Queue P} {cfg : Config} {w : World P}

/-! ## The sweep -/

/-- The columns that the sweep never writes. -/
def markAt (s : Queue P) (i : ℕ) : Bool × ℕ × ℕ := (s.deprio i, s.uidA i, s.uidB i)

/-- A pair without a descriptor has its bytes. -/
def HasBytes (x : CpRecord P) : Prop := x.implicit = none → ∃ p, x.packed = some p

/-- What the sweep does to the slots `dst` and `src`. -/
theorem slot_sweepSlot (v : Verdict P) {dst src : ℕ} (hle : dst ≤ src)
    (htag : dst < src → s.isImplicit dst = false) (hbytes : HasBytes (s.slot src))
    (hmark : (sweepSlot w v s dst src).2.1 = dst + 1 → markAt s dst = markAt s src) :
    (∀ m, m ≠ dst → m ≠ src → (sweepSlot w v s dst src).1.slot m = s.slot m) ∧
      match outcome w v (s.slot src) with
      | none => (sweepSlot w v s dst src).2.1 = dst ∧
          (dst < src → (sweepSlot w v s dst src).1.slot dst = s.slot dst) ∧
          (sweepSlot w v s dst src).1.isImplicit src = false
      | some x => (sweepSlot w v s dst src).2.1 = dst + 1 ∧
          (sweepSlot w v s dst src).1.slot dst = x ∧
          (dst < src → (sweepSlot w v s dst src).1.isImplicit src = false) := by
  cases v with
  | drop =>
    refine ⟨fun m _ hm => ?_, rfl, fun hlt => ?_, ?_⟩
    · simp [sweepSlot, Queue.slot, setCol, hm]
    · have hne : dst ≠ src := by omega
      simp [sweepSlot, Queue.slot, setCol, hne]
    · simp [sweepSlot, setCol]
  | keep cookie =>
    cases himp : s.isImplicit src with
    | true =>
      have hm := hmark (by simp [sweepSlot, himp])
      simp only [markAt, Prod.mk.injEq] at hm
      obtain ⟨hdeprio, huidA, huidB⟩ := hm
      have hout : outcome w (.keep cookie) (s.slot src) =
          some { s.slot src with lastNorm := cookie } := by
        simp [outcome, Queue.slot, himp]
      rw [hout]
      rcases Nat.eq_or_lt_of_le hle with rfl | hlt
      · refine ⟨fun m hm _ => ?_, ?_, ?_, fun hlt => absurd hlt (Nat.lt_irrefl _)⟩
        · simp [sweepSlot, himp, keepImplicit, atpCpImplicitMove, moveCommon, moveBytes,
            Queue.slot, setCol, hm]
        · simp [sweepSlot, himp]
        · simp [sweepSlot, himp, keepImplicit, atpCpImplicitMove, moveCommon, moveBytes,
            Queue.slot, setCol]
      · have hne : dst ≠ src := by omega
        refine ⟨fun m hm hm' => ?_, ?_, ?_, fun _ => ?_⟩
        · simp [sweepSlot, himp, keepImplicit, atpCpImplicitMove, moveCommon, moveBytes, hne,
            Queue.slot, setCol, hm, hm']
        · simp [sweepSlot, himp]
        · simp [sweepSlot, himp, keepImplicit, atpCpImplicitMove, moveCommon, moveBytes, hne,
            Queue.slot, setCol, hdeprio, huidA, huidB]
        · simp [sweepSlot, himp, keepImplicit, atpCpImplicitMove, moveCommon, moveBytes, hne,
            setCol]
    | false =>
      obtain ⟨p, hp⟩ := hbytes (by simp [Queue.slot, himp])
      change s.packed src = some p at hp
      have hm := hmark (by simp [sweepSlot, himp, hp])
      simp only [markAt, Prod.mk.injEq] at hm
      obtain ⟨hdeprio, huidA, huidB⟩ := hm
      have hout : outcome w (.keep cookie) (s.slot src) =
          some (reweigh w { s.slot src with lastNorm := cookie }) := by
        simp [outcome, Queue.slot, himp]
      rw [hout]
      rcases Nat.eq_or_lt_of_le hle with rfl | hlt
      · refine ⟨fun m hm _ => ?_, ?_, ?_, fun hlt => absurd hlt (Nat.lt_irrefl _)⟩
        · simp [sweepSlot, himp, hp, moveCommon, moveBytes, setKeys, Queue.slot, setCol, hm]
        · simp [sweepSlot, himp, hp]
        · simp [sweepSlot, himp, hp, moveCommon, moveBytes, setKeys, Queue.slot, setCol, reweigh]
      · have hne : dst ≠ src := by omega
        refine ⟨fun m hm hm' => ?_, ?_, ?_, fun _ => ?_⟩
        · simp [sweepSlot, himp, hp, moveCommon, moveBytes, setKeys, hne, Queue.slot, setCol, hm,
            hm']
        · simp [sweepSlot, himp, hp]
        · simp [sweepSlot, himp, hp, moveCommon, moveBytes, setKeys, hne, Queue.slot, setCol,
            reweigh, htag hlt, hdeprio, huidA, huidB]
        · simp [sweepSlot, himp, hp, moveCommon, moveBytes, setKeys, hne]
  | reduce p =>
    have hm := hmark rfl
    simp only [markAt, Prod.mk.injEq] at hm
    obtain ⟨hdeprio, huidA, huidB⟩ := hm
    have htag' : setCol s.isImplicit src false dst = false := by
      unfold setCol
      split
      · rfl
      · exact htag (by omega)
    refine ⟨fun m hm hm' => ?_, rfl, ?_, fun _ => ?_⟩
    · simp [sweepSlot, moveCommon, setKeys, Queue.slot, setCol, hm, hm']
    · simp only [setCol] at htag'
      simp [sweepSlot, moveCommon, setKeys, Queue.slot, setCol, reweigh, hdeprio, huidA, huidB,
        htag']
      rfl
    · simp [sweepSlot, moveCommon, setKeys, setCol]

theorem compacted_sweepSlot (v : Verdict P) (dst src : ℕ) :
    s.compacted ⊆ (sweepSlot w v s dst src).1.compacted ∧
      ((sweepSlot w v s dst src).2.1 = dst + 1 →
        (dst, src) ∈ (sweepSlot w v s dst src).1.compacted) := by
  have hmove : ∀ (t : Queue P) (c d : ℕ), (keepImplicit t c d).compacted = t.compacted := by
    intro t c d
    unfold keepImplicit atpCpImplicitMove
    split <;> rfl
  have hcons : ∀ (t : Queue P) (cookie : ℕ), (moveCommon (moveBytes t dst src) dst src
      cookie).compacted = (dst, src) :: t.compacted := by
    intro t cookie
    unfold moveCommon moveBytes
    split <;> rfl
  have hcommit : ∀ (t : Queue P) (p : P), (atpCpCommitPriorities w t dst p).compacted =
      t.compacted := fun _ _ => rfl
  cases v with
  | drop => exact ⟨List.Subset.refl _, fun h => absurd h (Nat.succ_ne_self dst).symm⟩
  | keep cookie =>
    unfold sweepSlot
    simp only
    split
    · rw [hmove, hcons]
      exact ⟨List.subset_cons_self _ _, fun _ => List.mem_cons_self⟩
    · split
      · rw [hcommit, hcons]
        exact ⟨List.subset_cons_self _ _, fun _ => List.mem_cons_self⟩
      · rw [hcons]
        exact ⟨List.subset_cons_self _ _, fun _ => List.mem_cons_self⟩
  | reduce p => exact ⟨List.subset_cons_self _ _, fun _ => List.mem_cons_self⟩

theorem marks_sweepSlot (v : Verdict P) (dst src : ℕ) :
    markAt (sweepSlot w v s dst src).1 = markAt s ∧
      (sweepSlot w v s dst src).1.deprio = s.deprio ∧
      (sweepSlot w v s dst src).1.moved = s.moved := by
  cases v with
  | drop => exact ⟨rfl, rfl, rfl⟩
  | keep cookie =>
    unfold sweepSlot moveBytes keepImplicit atpCpImplicitMove
    simp only
    split
    · split
      · exact ⟨rfl, rfl, rfl⟩
      · exact ⟨rfl, rfl, rfl⟩
    · split
      · split
        · exact ⟨rfl, rfl, rfl⟩
        · exact ⟨rfl, rfl, rfl⟩
      · split
        · exact ⟨rfl, rfl, rfl⟩
        · exact ⟨rfl, rfl, rfl⟩
  | reduce p => exact ⟨rfl, rfl, rfl⟩

/-- The sweep of `s₀` with the slots below `src` done and their pairs below `dst`. -/
structure Swept (w : World P) (v : ℕ → Verdict P) (s₀ : Queue P) (src dst : ℕ) (s : Queue P) :
    Prop where
  le : dst ≤ src
  done : (Multiset.range dst).map s.slot =
    (Multiset.range src).filterMap fun i => outcome w (v i) (s₀.slot i)
  rest : ∀ m, src ≤ m → s.slot m = s₀.slot m
  tags : ∀ m, dst ≤ m → m < src → s.isImplicit m = false
  marks : markAt s = markAt s₀

theorem isImplicit_eq {m : ℕ} (h : s'.slot m = s.slot m) : s'.isImplicit m = s.isImplicit m := by
  have himplicit := congrArg (fun x => x.implicit.isSome) h
  simp only [Queue.slot] at himplicit
  cases hs' : s'.isImplicit m with
  | true =>
    cases hs : s.isImplicit m with
    | true => rfl
    | false => simp [hs', hs] at himplicit
  | false =>
    cases hs : s.isImplicit m with
    | true => simp [hs', hs] at himplicit
    | false => rfl

theorem Swept.slot {v : ℕ → Verdict P} {src dst : ℕ} (h : Swept w v s₀ src dst s)
    (hbytes : HasBytes (s₀.slot src))
    (hmark : ∀ p ∈ (sweepSlot w (v src) s dst src).1.compacted, markAt s₀ p.1 = markAt s₀ p.2) :
    Swept w v s₀ (src + 1) (sweepSlot w (v src) s dst src).2.1
      (sweepSlot w (v src) s dst src).1 := by
  have hsrc := h.rest src (Nat.le_refl src)
  have hsame : (sweepSlot w (v src) s dst src).2.1 = dst + 1 → markAt s dst = markAt s src := by
    intro hnext
    rw [h.marks]
    exact hmark (dst, src) ((compacted_sweepSlot (v src) dst src).2 hnext)
  obtain ⟨hoff, hout⟩ := slot_sweepSlot (w := w) (v src) h.le
    (fun hlt => h.tags dst (Nat.le_refl dst) hlt) (hsrc ▸ hbytes) hsame
  have hmarks := (marks_sweepSlot (w := w) (s := s) (v src) dst src).1.trans h.marks
  have hle := h.le
  rw [hsrc] at hout
  have hrest : ∀ m, src + 1 ≤ m → (sweepSlot w (v src) s dst src).1.slot m = s₀.slot m :=
    fun m hm => (hoff m (by omega) (by omega)).trans (h.rest m (by omega))
  have hbelow : ∀ m < dst, (sweepSlot w (v src) s dst src).1.slot m = s.slot m :=
    fun m hm => hoff m (by omega) (by omega)
  generalize sweepSlot w (v src) s dst src = r at *
  cases hcase : outcome w (v src) (s₀.slot src) with
  | none =>
    rw [hcase] at hout
    obtain ⟨hdst, hkept, htag⟩ := hout
    rw [hdst]
    refine ⟨by omega, ?_, hrest, fun m hm hms => ?_, hmarks⟩
    · rw [Multiset.range_succ,
        Multiset.filterMap_cons_none (f := fun i => outcome w (v i) (s₀.slot i)) src _ hcase,
        ← h.done]
      exact map_range_congr hbelow
    · by_cases hmsrc : m = src
      · rw [hmsrc]
        exact htag
      · by_cases hmdst : m = dst
        · subst hmdst
          rw [isImplicit_eq (hkept (by omega))]
          exact h.tags m hm (by omega)
        · rw [isImplicit_eq (hoff m hmdst hmsrc)]
          exact h.tags m hm (by omega)
  | some x =>
    rw [hcase] at hout
    obtain ⟨hdst, hx, htag⟩ := hout
    rw [hdst]
    refine ⟨by omega, ?_, hrest, fun m hm hms => ?_, hmarks⟩
    · rw [Multiset.range_succ, Multiset.range_succ,
        Multiset.filterMap_cons_some (fun i => outcome w (v i) (s₀.slot i)) src _ hcase,
        ← h.done, Multiset.map_cons, hx]
      exact congrArg (x ::ₘ ·) (map_range_congr hbelow)
    · by_cases hmsrc : m = src
      · rw [hmsrc]
        exact htag (by omega)
      · rw [isImplicit_eq (hoff m (by omega) hmsrc)]
        exact h.tags m (by omega) (by omega)

/-- The log of the whole loop. -/
theorem frame_sweepFrom (v : ℕ → Verdict P) (k : ℕ) : ∀ (src : ℕ) (st : Queue P × ℕ × Bool),
    st.1.compacted ⊆ (sweepFrom w v k src st).1.compacted ∧
      (sweepFrom w v k src st).1.deprio = st.1.deprio ∧
      (sweepFrom w v k src st).1.moved = st.1.moved := by
  induction k with
  | zero => exact fun _ st => ⟨List.Subset.refl _, rfl, rfl⟩
  | succ k ih =>
    rintro src ⟨s, dst, touched⟩
    obtain ⟨hlog, hdeprio, hmoved⟩ := ih (src + 1) ((sweepSlot w (v src) s dst src).1,
      (sweepSlot w (v src) s dst src).2.1, touched || (sweepSlot w (v src) s dst src).2.2)
    have hslot := marks_sweepSlot (w := w) (s := s) (v src) dst src
    exact ⟨List.Subset.trans (compacted_sweepSlot (v src) dst src).1 hlog,
      hdeprio.trans hslot.2.1, hmoved.trans hslot.2.2⟩

theorem swept_sweepFrom {v : ℕ → Verdict P} (k : ℕ) :
    ∀ (src dst : ℕ) (s : Queue P) (touched : Bool), Swept w v s₀ src dst s →
    (∀ i, src ≤ i → i < src + k → HasBytes (s₀.slot i)) →
    (∀ p ∈ (sweepFrom w v k src (s, dst, touched)).1.compacted, markAt s₀ p.1 = markAt s₀ p.2) →
    Swept w v s₀ (src + k) (sweepFrom w v k src (s, dst, touched)).2.1
      (sweepFrom w v k src (s, dst, touched)).1 := by
  induction k with
  | zero => exact fun _ _ _ _ h _ _ => h
  | succ k ih =>
    intro src dst s touched h hbytes hmark
    simp only [sweepFrom] at hmark ⊢
    have hlog := (frame_sweepFrom (w := w) v k (src + 1) ((sweepSlot w (v src) s dst src).1,
      (sweepSlot w (v src) s dst src).2.1, touched || (sweepSlot w (v src) s dst src).2.2)).1
    have hslot := h.slot (hbytes src (Nat.le_refl _) (by omega)) fun p hp => hmark p (hlog hp)
    have hrest := ih (src + 1) _ _ (touched || (sweepSlot w (v src) s dst src).2.2) hslot
      (fun i hi hik => hbytes i (by omega) (by omega)) hmark
    rwa [show src + (k + 1) = src + 1 + k by omega]

theorem sweep_effect (v : ℕ → Verdict P)
    (hbytes : ∀ x ∈ records s, HasBytes x) (hagree : Agree (atpCpSetInterreduce cfg w v s))
    (hmark : ∀ p ∈ (atpCpSetInterreduce cfg w v s).compacted, markAt s p.1 = markAt s p.2) :
    records (atpCpSetInterreduce cfg w v s) = if w.nRules = 0 then records s
      else (Multiset.range s.nCps).filterMap fun i => outcome w (v i) (s.slot i) := by
  rw [atpCpSetInterreduce] at hagree hmark ⊢
  split
  · rename_i hnone
    rcases hnone with hn | hrules
    · rw [records, hn]
      split <;> rfl
    · rw [if_pos hrules]
  · rename_i hgo
    rw [not_or] at hgo
    rw [if_neg (not_or.mpr hgo)] at hagree hmark
    rw [if_neg hgo.2]
    simp only at hagree hmark ⊢
    have hstart : Swept w v s 0 0 s :=
      ⟨Nat.le_refl 0, rfl, fun _ _ => rfl, fun m _ hm => absurd hm (Nat.not_lt_zero m), rfl⟩
    have hloop := swept_sweepFrom (w := w) s.nCps 0 0 s false hstart
      fun i _ hi => hbytes _ (mem_records.mpr ⟨i, by omega, rfl⟩)
    rw [Nat.zero_add] at hloop
    generalize sweepFrom w v s.nCps 0 (s, 0, false) = r at hagree hmark hloop ⊢
    have hfloyd := rearranges_floydOnly cfg { r.1 with nCps := r.2.1 }
    have hdone : (∀ p ∈ r.1.compacted, markAt s p.1 = markAt s p.2) →
        records { r.1 with nCps := r.2.1 } =
          (Multiset.range s.nCps).filterMap fun i => outcome w (v i) (s.slot i) :=
      fun h => (hloop h).done
    split
    · rename_i htouched
      rw [if_pos htouched] at hagree hmark
      rw [hfloyd.compacted] at hmark
      rw [hfloyd.records hagree]
      exact hdone hmark
    · rename_i hquiet
      rw [if_neg hquiet] at hmark
      exact hdone hmark

/-! ## The order of the heap -/

theorem heapOrdered_prune (hbin : cfg.kdheap = false) (horizon : ℕ) (hlen : s.nCps < 2 ^ 31)
    (h : HeapOrdered cfg s) :
    HeapOrdered cfg (atpLrsPrune cfg horizon s) ∧ (atpLrsPrune cfg horizon s).nCps ≤ s.nCps := by
  have hle := nCps_pruneFrom_le horizon (2 * s.nCps) s s.nCps
  rw [atpLrsPrune]
  split
  · exact ⟨h, Nat.le_refl _⟩
  · simp only
    split
    · refine ⟨heapOrdered_reorder hbin (by omega), ?_⟩
      rwa [(rearranges_reorder cfg _).nCps]
    · exact ⟨heapOrdered_of_le_one (by omega), hle⟩

theorem heapOrdered_floydOnly (hbin : cfg.kdheap = false) (hlen : s.nCps < 2 ^ 31) :
    HeapOrdered cfg (atpCpFloydOnly cfg s) := by
  rw [atpCpFloydOnly]
  split
  · exact heapOrdered_of_le_one (by omega)
  · exact heapOrdered_reorder hbin hlen

theorem heapOrdered_sweep (hbin : cfg.kdheap = false) (v : ℕ → Verdict P) (hlen : s.nCps < 2 ^ 31)
    (hsafe : w.nRules = 0 ∨ (∃ i < s.nCps, ∀ c, v i ≠ .keep c) ∨ KeysStand w s)
    (h : HeapOrdered cfg s) :
    HeapOrdered cfg (atpCpSetInterreduce cfg w v s) ∧
      (atpCpSetInterreduce cfg w v s).nCps ≤ s.nCps := by
  rw [atpCpSetInterreduce]
  split
  · exact ⟨h, Nat.le_refl _⟩
  · rename_i hgo
    have hle := (sweepFrom_touched (w := w) (v := v) s.nCps 0 (s, 0, false)).1
    rw [Nat.zero_add] at hle
    simp only
    split
    · refine ⟨heapOrdered_floydOnly hbin (Nat.lt_of_le_of_lt hle hlen), ?_⟩
      rw [(rearranges_floydOnly cfg _).nCps]
      exact hle
    · rename_i hquiet
      obtain ⟨hpri, hseq, hultimate, hn⟩ :=
        sweepFrom_quiet (fun hzero => hgo (.inr hzero)) hsafe hquiet
      refine ⟨h.congr hn ?_, hle⟩
      funext i
      simp only [heapKey, hpri, hseq, hultimate]

theorem setPriBySeq_effect (keys : List (ℕ × ℕ))
    (hagree : Agree (thvmAtpSetCpPriBySeq cfg keys s)) :
    ∃ pri : ℕ → ℕ, (∀ i, pri i = s.pri i ∨ (s.seq i, pri i) ∈ keys) ∧
      records (thvmAtpSetCpPriBySeq cfg keys s) =
        (Multiset.range s.nCps).map fun i => { s.slot i with pri := pri i } := by
  rw [thvmAtpSetCpPriBySeq] at hagree ⊢
  split
  · exact ⟨s.pri, fun i => .inl rfl, rfl⟩
  · rename_i hgo
    rw [if_neg hgo] at hagree
    obtain ⟨pri, hfold, hpri⟩ := foldl_setPri keys s
    simp only [hfold] at hagree ⊢
    refine ⟨pri, hpri, ?_⟩
    have hfloyd : Rearranges { s with pri := pri } (floydFrom cfg (s.nCps / 2) _) :=
      rearranges_floydFrom _ (Nat.div_le_self _ _)
    exact hfloyd.records hagree

theorem setPri2BySeq_effect (keys : List (ℕ × ℕ)) :
    ∃ pri2 : ℕ → ℕ, (∀ i, pri2 i = s.pri2 i ∨ (s.seq i, pri2 i) ∈ keys) ∧
      records (thvmAtpSetCpPri2BySeq keys s) =
        (Multiset.range s.nCps).map fun i => { s.slot i with pri2 := pri2 i } := by
  rw [thvmAtpSetCpPri2BySeq]
  split
  · exact ⟨s.pri2, fun i => .inl rfl, rfl⟩
  · obtain ⟨pri2, hfold, hpri2⟩ := foldl_setPri2 keys s
    rw [hfold]
    exact ⟨pri2, hpri2, rfl⟩

/-! ## Steps -/

/-- What a step moves goes between slots with the same mark, and in the sweep with the same
parents; a sweep that leaves all pairs leaves their priorities; and the numbers of the
children do not wrap. -/
structure Aligned (cfg : Config) (w : World P) (op : Op P) (s : Queue P) : Prop where
  moved : Agree (step cfg w op s).2
  compacted : ∀ p ∈ (step cfg w op s).2.compacted, markAt s p.1 = markAt s p.2
  keys : match op with
    | .push _ => s.nCps + 1 < 2 ^ 31
    | .sweep v => w.nRules = 0 ∨ (∃ i < s.nCps, ∀ c, v i ≠ .keep c) ∨ KeysStand w s
    | _ => True

theorem heapOrdered_step (hbin : cfg.kdheap = false) {op : Op P} (hop : Aligned cfg w op s)
    (hlen : s.nCps < 2 ^ 31) (h : HeapOrdered cfg s) :
    HeapOrdered cfg (step cfg w op s).2 ∧ (step cfg w op s).2.nCps < 2 ^ 31 := by
  have h₀ : HeapOrdered cfg (clearLog s) := h.congr rfl rfl
  have hkeys := hop.keys
  cases op with
  | push p =>
    refine ⟨heapOrdered_push hbin p h₀, ?_⟩
    rw [step]
    simp only [atpCpPush, hbin, Bool.false_eq_true, if_false]
    rw [atpCpSiftUp, nCps_siftUpFrom]
    exact hkeys
  | select =>
    have hframe := selectFrom_frame (s := clearLog s) (w := w) hbin (s.nCps + 1) hlen h₀
    exact ⟨hframe.heap, Nat.lt_of_le_of_lt hframe.nCps hlen⟩
  | prune horizon =>
    obtain ⟨hheap, hle⟩ := heapOrdered_prune (s := clearLog s) hbin horizon hlen h₀
    exact ⟨hheap, Nat.lt_of_le_of_lt hle hlen⟩
  | setPriBySeq keys =>
    simp only [step]
    rw [thvmAtpSetCpPriBySeq]
    split
    · exact ⟨h₀, hlen⟩
    · have hn := setPri_nCps keys (clearLog s)
      simp only
      generalize keys.foldl setPri (clearLog s) = t at hn ⊢
      have hlen' : t.nCps < 2 ^ 31 := by
        rw [hn]
        exact hlen
      refine ⟨floydFrom_heap _ hlen' (Nat.div_le_self _ _) (heapFrom_half (by omega)), ?_⟩
      rw [(rearranges_floydFrom _ (Nat.div_le_self _ _)).nCps]
      exact hlen'
  | setPri2BySeq keys =>
    simp only [step]
    rw [thvmAtpSetCpPri2BySeq]
    split
    · exact ⟨h₀, hlen⟩
    · obtain ⟨pri2, hfold, -⟩ := foldl_setPri2 keys (clearLog s)
      rw [hfold]
      exact ⟨h₀.congr rfl rfl, hlen⟩
  | reheapify =>
    simp only [step]
    have hn : (atpCpRebuildPriorities w (clearLog s)).nCps < 2 ^ 31 := by
      rw [nCps_rebuildPriorities]
      exact hlen
    rw [thvmAtpCpReheapify]
    refine ⟨heapOrdered_floydOnly hbin hn, ?_⟩
    rwa [(rearranges_floydOnly cfg _).nCps]
  | sweep v =>
    obtain ⟨hheap, hle⟩ := heapOrdered_sweep (s := clearLog s) (w := w) hbin v hlen hkeys h₀
    exact ⟨hheap, Nat.lt_of_le_of_lt hle hlen⟩

theorem effect_step (hbin : cfg.kdheap = false) {op : Op P} (hop : Aligned cfg w op s)
    (hlen : s.nCps < 2 ^ 31) (h : HeapOrdered cfg s) (hbytes : ∀ x ∈ records s, HasBytes x) :
    Effect cfg w op s (step cfg w op s).2 (step cfg w op s).1 := by
  have h₀ : HeapOrdered cfg (clearLog s) := h.congr rfl rfl
  have hagree := hop.moved
  have hmark := hop.compacted
  cases op with
  | push p => exact push_effect (s := clearLog s) hbin p hagree
  | select => exact selected_selectFrom (s := clearLog s) hbin _ (Nat.lt_succ_self _) hlen h₀ hagree
  | prune horizon => exact prune_effect (s := clearLog s) horizon hagree
  | setPriBySeq keys => exact setPriBySeq_effect (s := clearLog s) keys hagree
  | setPri2BySeq keys => exact setPri2BySeq_effect (s := clearLog s) keys
  | reheapify => exact reheapify_effect (s := clearLog s) hagree
  | sweep v => exact sweep_effect (s := clearLog s) v hbytes hagree hmark

/-! ## Origins -/

/-- The record `x` is the one that was pushed: its identity and its marks are those of the
push, and it has either its bytes or the descriptor pushed. -/
structure Origin (o : Push P × ℕ) (x : CpRecord P) : Prop where
  trace : x.trace = o.1.trace
  seq : x.seq = o.2
  ultimate : x.ultimate = o.1.ultimate
  uidA : x.uidA = o.1.uidA
  uidB : x.uidB = o.1.uidB
  deprio : x.deprio = o.1.deprio
  descriptor : x.implicit = none ∨ x.implicit = (o.1.record o.2).implicit
  whole : x.packed.isSome = x.implicit.isNone

/-- Every record of the bag comes from a push of its own. -/
def Recorded (H : Multiset (Push P × ℕ)) (t : Multiset (CpRecord P)) : Prop :=
  ∃ M ≤ H, Multiset.Rel Origin M t

namespace Recorded

variable {H : Multiset (Push P × ℕ)} {t t' : Multiset (CpRecord P)}

theorem origin (h : Recorded H t) {x : CpRecord P} (hx : x ∈ t) : ∃ o ∈ H, Origin o x := by
  obtain ⟨M, hM, hrel⟩ := h
  obtain ⟨o, ho, horigin⟩ := Multiset.exists_mem_of_rel_of_mem (Multiset.rel_flip.mpr hrel) hx
  exact ⟨o, Multiset.mem_of_le hM ho, horigin⟩

theorem of_le (h : Recorded H t) (hle : t' ≤ t) : Recorded H t' := by
  obtain ⟨M, hM, hrel⟩ := h
  obtain ⟨u, rfl⟩ := Multiset.le_iff_exists_add.mp hle
  obtain ⟨M', N, hrel', -, rfl⟩ := Multiset.rel_add_right.mp hrel
  exact ⟨M', (Multiset.le_add_right _ _).trans hM, hrel'⟩

theorem push (h : Recorded H t) (p : Push P) (seq : ℕ) :
    Recorded ((p, seq) ::ₘ H) (p.record seq ::ₘ t) := by
  obtain ⟨M, hM, hrel⟩ := h
  refine ⟨(p, seq) ::ₘ M, Multiset.cons_le_cons _ hM, .cons ⟨rfl, rfl, rfl, rfl, rfl, rfl,
    .inr rfl, ?_⟩ hrel⟩
  cases hp : p.packed with
  | none => simp [Push.record, hp]
  | some b => simp [Push.record, hp]

/-- Records that are rewritten one by one, some of them dropped. -/
theorem filterMap {l : Multiset ℕ} {f : ℕ → CpRecord P} {g : ℕ → Option (CpRecord P)}
    (h : Recorded H (l.map f)) (hg : ∀ i o x, Origin o (f i) → g i = some x → Origin o x) :
    Recorded H (l.filterMap g) := by
  obtain ⟨M, hM, hrel⟩ := h
  suffices hsub : ∃ M' ≤ M, Multiset.Rel Origin M' (l.filterMap g) by
    obtain ⟨M', hM', hrel'⟩ := hsub
    exact ⟨M', hM'.trans hM, hrel'⟩
  clear hM
  induction l using Multiset.induction_on generalizing M with
  | empty => exact ⟨0, Multiset.zero_le _, .zero⟩
  | cons i l ih =>
    rw [Multiset.map_cons, Multiset.rel_cons_right] at hrel
    obtain ⟨o, M, horigin, hrest, rfl⟩ := hrel
    obtain ⟨M', hM', hrel'⟩ := ih M hrest
    cases hgi : g i with
    | none =>
      rw [Multiset.filterMap_cons_none _ _ hgi]
      exact ⟨M', hM'.trans (Multiset.le_cons_self _ _), hrel'⟩
    | some x =>
      rw [Multiset.filterMap_cons_some _ _ _ hgi]
      exact ⟨o ::ₘ M', Multiset.cons_le_cons _ hM', .cons (hg i o x horigin hgi) hrel'⟩

theorem map {l : Multiset ℕ} {f g : ℕ → CpRecord P} (h : Recorded H (l.map f))
    (hg : ∀ i o, Origin o (f i) → Origin o (g i)) : Recorded H (l.map g) := by
  rw [← Multiset.filterMap_eq_map]
  refine h.filterMap fun i o x ho hx => ?_
  obtain rfl : g i = x := Option.some.inj hx
  exact hg i o ho

end Recorded

/-! ## Runs -/

/-- The queues of runs whose steps are all `Safe`, with the pushes so far and their ages. -/
inductive Runs (cfg : Config) (Safe : World P → Op P → Queue P → Prop) :
    List (Push P × ℕ) → Queue P → Prop
  | start (s : Queue P) (hn : s.nCps = 0) : Runs cfg Safe [] s
  | push {H : List (Push P × ℕ)} {s : Queue P} (run : Runs cfg Safe H s) (w : World P)
    (p : Push P) (h : Safe w (.push p) s) :
    Runs cfg Safe ((p, s.seqNext) :: H) (step cfg w (.push p) s).2
  | other {H : List (Push P × ℕ)} {s : Queue P} (run : Runs cfg Safe H s) (w : World P)
    (op : Op P) (hop : ∀ p, op ≠ .push p) (h : Safe w op s) :
    Runs cfg Safe H (step cfg w op s).2

theorem Origin.reweigh {o : Push P × ℕ} {x : CpRecord P} (h : Origin o x) :
    Origin o (reweigh w x) := by
  unfold CpQueue.reweigh
  split
  · exact ⟨h.trace, h.seq, h.ultimate, h.uidA, h.uidB, h.deprio, h.descriptor, h.whole⟩
  · split
    · exact ⟨h.trace, h.seq, h.ultimate, h.uidA, h.uidB, h.deprio, h.descriptor, h.whole⟩
    · exact h

theorem Origin.outcome {o : Push P × ℕ} {x y : CpRecord P} {v : Verdict P} (h : Origin o x)
    (hy : outcome w v x = some y) : Origin o y := by
  have hcookie : ∀ cookie, Origin o { x with lastNorm := cookie } := fun _ =>
    ⟨h.trace, h.seq, h.ultimate, h.uidA, h.uidB, h.deprio, h.descriptor, h.whole⟩
  cases v with
  | drop => cases hy
  | keep cookie =>
    unfold CpQueue.outcome at hy
    simp only at hy
    split at hy
    · obtain rfl := Option.some.inj hy
      exact hcookie cookie
    · obtain rfl := Option.some.inj hy
      exact (hcookie cookie).reweigh
  | reduce p =>
    obtain rfl := Option.some.inj hy
    exact Origin.reweigh
      ⟨h.trace, h.seq, h.ultimate, h.uidA, h.uidB, h.deprio, .inl rfl, rfl⟩

/-- The bag after an operation that is not a push. -/
theorem Recorded.effect {H : Multiset (Push P × ℕ)} {op : Op P} {r : Option (CpRecord P)}
    (h : Recorded H (records s)) (hop : ∀ p, op ≠ .push p) (he : Effect cfg w op s s' r) :
    Recorded H (records s') := by
  have hkeys : ∀ {x : CpRecord P} {o : Push P × ℕ} (pri pri2 : ℕ), Origin o x →
      Origin o { x with pri := pri, pri2 := pri2 } := fun _ _ h =>
    ⟨h.trace, h.seq, h.ultimate, h.uidA, h.uidB, h.deprio, h.descriptor, h.whole⟩
  cases op with
  | push p => exact absurd rfl (hop p)
  | select =>
    cases r with
    | none =>
      rw [he.1]
      exact h.of_le (Multiset.zero_le _)
    | some x =>
      obtain ⟨-, ⟨dead, hrest, -⟩, -⟩ := he
      refine h.of_le ?_
      rw [hrest]
      exact (Multiset.le_cons_self _ _).trans (Multiset.le_add_left _ _)
  | prune horizon =>
    simp only [Effect] at he
    rw [he]
    split
    · exact h
    · exact h.of_le (Multiset.filter_le _ _)
  | setPriBySeq keys =>
    obtain ⟨pri, -, hmap⟩ := he
    rw [hmap]
    exact Recorded.map h fun i o ho => hkeys (pri i) (s.pri2 i) ho
  | setPri2BySeq keys =>
    obtain ⟨pri2, -, hmap⟩ := he
    rw [hmap]
    exact Recorded.map h fun i o ho => hkeys (s.pri i) (pri2 i) ho
  | reheapify =>
    simp only [Effect] at he
    rw [he, records, Multiset.map_map]
    exact Recorded.map h fun i o ho => Origin.reweigh ho
  | sweep v =>
    simp only [Effect] at he
    rw [he]
    split
    · exact h
    · exact Recorded.filterMap h fun i o x ho hx => Origin.outcome ho hx

/-- The priority of its own weight, or that which is never selected. -/
def ownPriority (w : World P) (o : Push P × ℕ) (x : CpRecord P) : ℕ :=
  if o.1.deprio then priNever
  else
    match x.packed with
    | some p => w.priority p
    | none => o.1.weight

theorem Origin.ownPriority {o : Push P × ℕ} {x : CpRecord P} (h : Origin o x) :
    (CpQueue.reweigh w x).pri = ownPriority w o (CpQueue.reweigh w x) := by
  have hwhole := h.whole
  unfold CpQueue.reweigh CpQueue.ownPriority
  split
  · rename_i d hd
    rw [hd] at hwhole
    cases hp : x.packed with
    | some p =>
      rw [hp] at hwhole
      cases hwhole
    | none =>
      have hdesc := h.descriptor.resolve_left (by rw [hd]; exact Option.some_ne_none d)
      rw [hd, Push.record] at hdesc
      split at hdesc
      · obtain rfl := Option.some.inj hdesc
        rfl
      · cases hdesc
  · rename_i hnone
    split
    · rename_i p hp
      rw [h.deprio, hp]
    · rename_i hp
      rw [hnone, hp] at hwhole
      cases hwhole

/-- What holds of a queue after the pushes `H`. -/
structure Whole (cfg : Config) (H : List (Push P × ℕ)) (s : Queue P) : Prop where
  recorded : Recorded H (records s)
  ordered : ∀ i, 0 < i → i < s.nCps → atpCpBefore cfg s i ((i - 1) / 2) = false

/-- After a full reweight exactly the pairs pushed as deprioritised have the priority that is
never selected; the others have that of their weight. -/
def ReweighedTo (w : World P) (H : List (Push P × ℕ)) (s : Queue P) : Prop :=
  ∀ x ∈ records s, ∃ o ∈ H, Origin o x ∧ x.pri = ownPriority w o x

/-- A deprioritised pair, and one that goes before it. -/
def markRun : List (Op Unit) := [.push (plainPush 5 false), .push (plainPush 5 true)]

end CpQueue

end Atp

end Thvm
