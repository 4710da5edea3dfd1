import Thvm.CpQueue

/-!
# What the operations of the queue leave as it is

Facts about single operations that hold under both disciplines of the heap: the length of
the queue, the columns an operation does not write, and a sweep that finds nothing to do.
-/

namespace Thvm

namespace Atp

namespace CpQueue

variable {P : Type} {s : Queue P} {w : World P}

@[simp] theorem nCps_atpCpSwap (s : Queue P) (i j : ℕ) : (atpCpSwap s i j).nCps = s.nCps := rfl

@[simp] theorem nCps_dropSlot (s : Queue P) (j : ℕ) : (dropSlot s j).nCps = s.nCps - 1 := by
  unfold dropSlot
  split <;> rfl

theorem nCps_pruneFrom_le (horizon rounds : ℕ) (s : Queue P) (i : ℕ) :
    (pruneFrom horizon rounds s i).nCps ≤ s.nCps := by
  induction rounds generalizing s i with
  | zero => exact Nat.le_refl _
  | succ rounds ih =>
    cases i with
    | zero => exact Nat.le_refl _
    | succ i =>
      rw [pruneFrom]
      split
      · exact ih s i
      · refine Nat.le_trans (ih _ _) ?_
        rw [nCps_dropSlot]
        omega

theorem nCps_rebuildPriorities (w : World P) (s : Queue P) :
    (atpCpRebuildPriorities w s).nCps = s.nCps := by
  rw [atpCpRebuildPriorities]
  generalize List.range s.nCps = l
  induction l generalizing s with
  | nil => rfl
  | cons i l ih =>
    rw [List.foldl_cons, ih]
    unfold rebuildSlot
    split
    · rfl
    · split <;> rfl

theorem setPri2_keys (keys : List (ℕ × ℕ)) (s : Queue P) :
    (keys.foldl setPri2 s).nCps = s.nCps ∧ (keys.foldl setPri2 s).pri = s.pri ∧
      (keys.foldl setPri2 s).seq = s.seq := by
  induction keys generalizing s with
  | nil => exact ⟨rfl, rfl, rfl⟩
  | cons key keys ih =>
    obtain ⟨hn, hpri, hseq⟩ := ih (setPri2 s key)
    rw [List.foldl_cons, hn, hpri, hseq]
    unfold setPri2
    split <;> exact ⟨rfl, rfl, rfl⟩

theorem setPri_nCps (keys : List (ℕ × ℕ)) (s : Queue P) :
    (keys.foldl setPri s).nCps = s.nCps := by
  induction keys generalizing s with
  | nil => rfl
  | cons key keys ih =>
    rw [List.foldl_cons, ih]
    unfold setPri
    split <;> rfl

/-- The weights give every pair the priority that it has. -/
def KeysStand (w : World P) (s : Queue P) : Prop :=
  ∀ i < s.nCps, s.isImplicit i = false → ∀ p, s.packed i = some p →
    (if s.deprio i then priNever else w.priority p) = s.pri i

theorem setCol_self {α : Type} (col : ℕ → α) (i : ℕ) : setCol col i (col i) = col := by
  funext m
  unfold setCol
  split
  · rename_i h
    rw [h]
  · rfl

/-- A slot that is kept where it is. -/
theorem sweepSlot_keep {i : ℕ} (cookie : ℕ)
    (hkeys : s.isImplicit i = false → ∀ p, s.packed i = some p →
      (if s.deprio i then priNever else w.priority p) = s.pri i) :
    let r := sweepSlot w (.keep cookie) s i i
    r.1.pri = s.pri ∧ r.1.seq = s.seq ∧ r.1.packed = s.packed ∧ r.1.isImplicit = s.isImplicit ∧
      r.1.deprio = s.deprio ∧ r.1.ultimate = s.ultimate ∧ r.2 = (i + 1, false) := by
  simp only [sweepSlot, moveBytes, if_true]
  cases himp : s.isImplicit i with
  | true => simp [keepImplicit, atpCpImplicitMove, moveCommon, setCol_self]
  | false =>
    cases hpacked : s.packed i with
    | none => simp [moveCommon, setCol_self]
    | some p =>
      have hkey := hkeys himp p hpacked
      simp [setKeys, moveCommon, setCol_self, hkey]

theorem sweepFrom_keep {v : ℕ → Verdict P} (k : ℕ) : ∀ (src : ℕ) (s : Queue P),
    (∀ i, src ≤ i → i < src + k → ∃ c, v i = .keep c) →
    (∀ i, src ≤ i → i < src + k → s.isImplicit i = false → ∀ p, s.packed i = some p →
      (if s.deprio i then priNever else w.priority p) = s.pri i) →
    let r := sweepFrom w v k src (s, src, false)
    r.1.pri = s.pri ∧ r.1.seq = s.seq ∧ r.1.ultimate = s.ultimate ∧ r.2 = (src + k, false) := by
  induction k with
  | zero => exact fun src s _ _ => ⟨rfl, rfl, rfl, rfl⟩
  | succ k ih =>
    intro src s hkeep hkeys
    obtain ⟨c, hc⟩ := hkeep src (Nat.le_refl _) (by omega)
    have hslot := sweepSlot_keep (w := w) c (hkeys src (Nat.le_refl _) (by omega))
    rw [← hc] at hslot
    obtain ⟨hpri, hseq, hpacked, himp, hdeprio, hultimate, hrest⟩ := hslot
    have hnext := ih (src + 1) (sweepSlot w (v src) s src src).1
      (fun i hi hik => hkeep i (by omega) (by omega))
      (fun i hi hik => by
        rw [himp, hpacked, hdeprio, hpri]
        exact hkeys i (by omega) (by omega))
    rw [hpri, hseq, hultimate, show src + 1 + k = src + (k + 1) by omega] at hnext
    simp only [sweepFrom]
    rw [show (sweepSlot w (v src) s src src).2.1 = src + 1 from congrArg Prod.fst hrest,
      show (sweepSlot w (v src) s src src).2.2 = false from congrArg Prod.snd hrest]
    exact hnext

theorem sweepSlot_dst (w : World P) (v : Verdict P) (s : Queue P) (dst src : ℕ) :
    (sweepSlot w v s dst src).2.1 ≤ dst + 1 ∧
      ((∀ c, v ≠ .keep c) → (sweepSlot w v s dst src).2.2 = true) := by
  unfold sweepSlot
  cases v with
  | drop => exact ⟨Nat.le_succ dst, fun _ => rfl⟩
  | keep cookie =>
    refine ⟨?_, fun h => absurd rfl (h cookie)⟩
    simp only
    split
    · exact Nat.le_refl _
    · split <;> exact Nat.le_refl _
  | reduce p => exact ⟨Nat.le_refl _, fun _ => rfl⟩

theorem sweepFrom_touched {v : ℕ → Verdict P} (k : ℕ) : ∀ (src : ℕ) (st : Queue P × ℕ × Bool),
    (sweepFrom w v k src st).2.1 ≤ st.2.1 + k ∧
      (st.2.2 = true ∨ (∃ i, src ≤ i ∧ i < src + k ∧ ∀ c, v i ≠ .keep c) →
        (sweepFrom w v k src st).2.2 = true) := by
  induction k with
  | zero =>
    refine fun src st => ⟨Nat.le_refl _, ?_⟩
    rintro (h | ⟨i, hi, hik, -⟩)
    · exact h
    · omega
  | succ k ih =>
    rintro src ⟨s, dst, touched⟩
    obtain ⟨hdst, htouched⟩ := sweepSlot_dst w (v src) s dst src
    obtain ⟨hle, htouch⟩ := ih (src + 1) ((sweepSlot w (v src) s dst src).1,
      (sweepSlot w (v src) s dst src).2.1, touched || (sweepSlot w (v src) s dst src).2.2)
    simp only [sweepFrom]
    refine ⟨Nat.le_trans hle (by simp only; omega), fun h => htouch ?_⟩
    rcases h with h | ⟨i, hi, hik, hv⟩
    · exact .inl (by rw [show touched = true from h, Bool.true_or])
    · by_cases his : i = src
      · subst his
        exact .inl (by rw [htouched hv, Bool.or_true])
      · exact .inr ⟨i, by omega, by omega, hv⟩

/-- The pairs that the sweep finds unchanged have the priority that they are given, or it
finds another one and restores the order. -/
theorem sweepFrom_quiet {v : ℕ → Verdict P} (hrules : w.nRules ≠ 0)
    (hsafe : w.nRules = 0 ∨ (∃ i < s.nCps, ∀ c, v i ≠ .keep c) ∨ KeysStand w s)
    (hquiet : (sweepFrom w v s.nCps 0 (s, 0, false)).2.2 ≠ true) :
    let r := sweepFrom w v s.nCps 0 (s, 0, false)
    r.1.pri = s.pri ∧ r.1.seq = s.seq ∧ r.1.ultimate = s.ultimate ∧ r.2.1 = s.nCps := by
  have htouch := (sweepFrom_touched (w := w) (v := v) s.nCps 0 (s, 0, false)).2
  rw [Nat.zero_add] at htouch
  have hkeep : ∀ i, 0 ≤ i → i < 0 + s.nCps → ∃ c, v i = .keep c := by
    intro i _ hi
    by_contra hnot
    rw [not_exists] at hnot
    exact hquiet (htouch (.inr ⟨i, Nat.zero_le i, by omega, hnot⟩))
  have hstand : KeysStand w s := by
    rcases hsafe with hzero | ⟨i, hi, hv⟩ | hstand
    · exact absurd hzero hrules
    · obtain ⟨c, hc⟩ := hkeep i (Nat.zero_le i) (by omega)
      exact absurd hc (hv c)
    · exact hstand
  obtain ⟨hpri, hseq, hultimate, hrest⟩ := sweepFrom_keep (w := w) s.nCps 0 s hkeep
    fun i _ hi => hstand i (by omega)
  refine ⟨hpri, hseq, hultimate, ?_⟩
  rw [hrest, Nat.zero_add]

/-! ## The slot that is selected -/

/-- Only the random state and the floor of the ages are written. -/
theorem pick_state (cfg : Config) (w : World P) (s : Queue P) :
    ∃ rng floor, (pick cfg w s).2 = { s with rngState := rng, fifoFloorSeq := floor } := by
  unfold pick
  split
  case h_6 =>
    split
    · exact ⟨_, _, rfl⟩
    · exact ⟨_, _, rfl⟩
  all_goals exact ⟨_, _, rfl⟩

theorem scanBest_eq_zero {better : ℕ → ℕ → Bool} {n : ℕ} (h : ∀ i < n, better i 0 = false) :
    scanBest better n = 0 := by
  have hkeep (l : List ℕ) (hl : ∀ i ∈ l, better i 0 = false) :
      l.foldl (fun best i => if better i best then i else best) 0 = 0 := by
    induction l with
    | nil => rfl
    | cons i l ih =>
      rw [List.foldl_cons, hl i List.mem_cons_self, if_neg Bool.false_ne_true]
      exact ih fun j hj => hl j (List.mem_cons_of_mem i hj)
  refine hkeep _ fun i hi => h i ?_
  rw [List.mem_range'_1] at hi
  omega

theorem scanBest_lt (better : ℕ → ℕ → Bool) {n : ℕ} (hn : 0 < n) : scanBest better n < n := by
  have hfold : ∀ l : List ℕ, (∀ i ∈ l, i < n) → ∀ best < n,
      l.foldl (fun best i => if better i best then i else best) best < n := by
    intro l
    induction l with
    | nil => exact fun _ best hbest => hbest
    | cons i l ih =>
      intro hl best hbest
      refine ih (fun k hk => hl k (List.mem_cons_of_mem _ hk)) _ ?_
      simp only
      split
      · exact hl i List.mem_cons_self
      · exact hbest
  refine hfold _ (fun i hi => ?_) 0 hn
  rw [List.mem_range'_1] at hi
  omega

theorem oldestLive_lt {cfg : Config} {best : ℕ} (h : oldestLive cfg w s = some best) :
    best < s.nCps := by
  have hfold : ∀ l : List ℕ, (∀ i ∈ l, i < s.nCps) → ∀ b : Option ℕ, (∀ i ∈ b, i < s.nCps) →
      ∀ i ∈ l.foldl (fun best i =>
        if s.seq i < s.fifoFloorSeq then best
        else if best.any fun b => s.seq i ≥ s.seq b then best
        else if isOrphan cfg w s i then best
        else some i) b, i < s.nCps := by
    intro l
    induction l with
    | nil => exact fun _ b hb => hb
    | cons k l ih =>
      intro hl b hb
      refine ih (fun i hi => hl i (List.mem_cons_of_mem _ hi)) _ ?_
      simp only
      split
      · exact hb
      · split
        · exact hb
        · split
          · exact hb
          · intro i hi
            obtain rfl := Option.some.inj hi
            exact hl k List.mem_cons_self
  exact hfold _ (fun i hi => List.mem_range.mp hi) none (fun i hi => nomatch hi) best h

/-- With the binary heap every dimension selects a slot of the queue. -/
theorem pick_lt {cfg : Config} (hbin : cfg.kdheap = false) (w : World P) (hn : 0 < s.nCps) :
    (pick cfg w s).1 < s.nCps := by
  unfold pick
  split
  · rename_i d hdim
    unfold dimension at hdim
    rw [hbin, if_neg Bool.false_ne_true] at hdim
    split at hdim
    · cases hdim
    · split at hdim
      · cases hdim
      · split at hdim
        · cases hdim
        · split at hdim
          · cases hdim
          · split at hdim <;> cases hdim
  · simp only
    split
    · exact scanBest_lt _ hn
    · rename_i htop
      exact Nat.lt_of_lt_of_le (scanBest_lt _ (by omega)) (by omega)
  · exact scanBest_lt _ hn
  · exact scanBest_lt _ hn
  · exact Nat.mod_lt _ hn
  · split
    · rename_i best hbest
      exact oldestLive_lt hbest
    · exact hn
  · exact hn

/-! ## Concrete runs -/

/-- A queue with nothing in it. -/
def emptyQueue : Queue Unit where
  packed _ := none
  trace _ := 0
  pri _ := 0
  seq _ := 0
  goal _ := 0
  pri2 _ := 0
  lastNorm _ := 0
  ultimate _ := false
  uidA _ := 0
  uidB _ := 0
  implicit _ := ⟨0, 0, 0, 0⟩
  isImplicit _ := false
  deprio _ := false
  nCps := 0
  seqNext := 0
  selectCount := 0
  rngState := 0
  fifoFloorSeq := 0
  moved := []
  compacted := []

/-- The configuration with the two-dimensional heap, or with the binary one. -/
def plainConfig (kdheap : Bool) : Config where
  kdheap := kdheap
  useUltimate := false
  wmItl := false
  wmItlTop := 0
  w2Modulo := 0
  useGoalInterleave := 0
  randomModulo := 0
  fifoModulo := 0
  useIntakeOrder := false
  fifoThreshold := 1
  useOrphanMurder := false

def plainWorld : World Unit where
  priority _ := 7
  goalWeight _ := 0
  weightBase _ := 0
  orphan _ := false
  uidOrphan _ _ := false
  nActivatedRe := 0
  nRules := 1

def plainPush (weight : ℕ) (deprio : Bool) : Push Unit where
  packed := some ()
  trace := 0
  weight := weight
  goal := 0
  pri2 := 0
  ultimate := false
  uidA := 0
  uidB := 0
  parentA := 0
  parentB := 0
  cpNodes := 0
  deprio := deprio

/-- The operations of a run from the empty queue, the last one first. -/
def playOps (cfg : Config) (w : World Unit) : List (Op Unit) → Queue Unit
  | [] => emptyQueue
  | op :: ops => (step cfg w op (playOps cfg w ops)).2

theorem reaches_playOps (cfg : Config) (w : World Unit) (ops : List (Op Unit)) :
    Reaches cfg (fun _ _ _ => True) (playOps cfg w ops) := by
  induction ops with
  | nil => exact .start emptyQueue rfl fun _ => rfl
  | cons op ops ih => exact .step ih w op trivial

end CpQueue

end Atp

end Thvm
