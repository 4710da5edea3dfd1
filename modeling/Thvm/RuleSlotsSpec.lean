import Mathlib.Data.List.Nodup
import Mathlib.Data.List.Forall2
import Thvm.RuleSlots

/-!
# Rule slots stay whole

Every operation on the arrays is one on the list of rows. A rule that is pushed starts afresh,
because the slots that a compaction gives up are copies of the last row, and the last row is
never a dead one. Two things may go wrong: the loops of the second pass leave the ground-join
status behind, and a composition does not look at the orientation flag again.
-/

namespace Thvm.Atp
open SlotColumns

/-! ## Rows -/

namespace RuleRow

variable (r : RuleRow)

/-- The row of a rule that was just pushed, once it has its trace. -/
def fresh (w : RuleWorld) (lhs rhs : FTerm) (trace uid cut : ℕ) : RuleRow where
  lhs := lhs
  rhs := rhs
  rTrace := trace
  rUid := uid
  rOrient := w.compare lhs rhs = .gt
  rDead := false
  rDeadLhsSave := none
  rDeadRhsSave := none
  rDeadSubsumerLhs := none
  rDeadSubsumerRhs := none
  rRederiveCut := cut
  rGjStatus := .unknown
  rOverlapDone := false
  lhsFt := some lhs
  rhsFt := some rhs
  rDeadLhsSaveFt := none
  rDeadRhsSaveFt := none

def softDeleted : RuleRow :=
  { r with
    rDeadLhsSave := some r.lhs
    rDeadRhsSave := some r.rhs
    lhs := deadSentinel
    rhs := deadSentinel
    rDead := true
    rDeadLhsSaveFt := r.lhsFt
    rDeadRhsSaveFt := r.rhsFt
    lhsFt := some deadSentinel
    rhsFt := some deadSentinel }

def composed (rhs : FTerm) (trace : ℕ) : RuleRow :=
  { r with rhs := rhs, rTrace := trace, rhsFt := some rhs }

/-- No mark of a soft deletion. -/
structure Clean : Prop where
  dead : r.rDead = false
  lhsSave : r.rDeadLhsSave = none
  rhsSave : r.rDeadRhsSave = none
  subsumerLhs : r.rDeadSubsumerLhs = none
  subsumerRhs : r.rDeadSubsumerRhs = none
  lhsSaveFt : r.rDeadLhsSaveFt = none
  rhsSaveFt : r.rDeadRhsSaveFt = none

/-- What soft deletions may do to a row: a live one is saved and marked, by a subsumer or not. -/
def SoftDeletes (r r' : RuleRow) : Prop :=
  r' = r ∨ r.rDead = false ∧ (r' = r.softDeleted ∨ ∃ lhs rhs,
    r' = { r.softDeleted with rDeadSubsumerLhs := some lhs, rDeadSubsumerRhs := some rhs })

/-- What interreduction may make of a row that it keeps: the right side is composed, and the
trace and the mirror go with it. -/
def ComposedFrom (r' r : RuleRow) : Prop := r' = r ∨ ∃ rhs trace, r' = r.composed rhs trace

variable {r} {r' r'' : RuleRow}

theorem SoftDeletes.refl : SoftDeletes r r := .inl rfl

theorem SoftDeletes.trans (h : SoftDeletes r r') (h' : SoftDeletes r' r'') : SoftDeletes r r'' := by
  rcases h with rfl | ⟨hdead, h⟩
  · exact h'
  · have hdead' : r'.rDead = true := by
      rcases h with rfl | ⟨lhs, rhs, rfl⟩ <;> rfl
    rcases h' with rfl | ⟨hlive, -⟩
    · exact .inr ⟨hdead, h⟩
    · rw [hdead'] at hlive
      cases hlive

instance : Std.Refl ComposedFrom := ⟨fun _ => .inl rfl⟩

instance : IsTrans RuleRow ComposedFrom := by
  refine ⟨fun r'' r' r h' h => ?_⟩
  rcases h' with rfl | ⟨rhs', trace', rfl⟩
  · exact h
  · rcases h with rfl | ⟨rhs, trace, rfl⟩
    · exact .inr ⟨rhs', trace', rfl⟩
    · exact .inr ⟨rhs', trace', rfl⟩

end RuleRow

namespace RuleSlots

variable {w : RuleWorld} {o : RuleOptions} {s s' : RuleSlots} {i : ℕ}

theorem getElem?_rows {r : RuleRow} : s.rows[i]? = some r ↔ i < s.nRules ∧ s.row i = r :=
  getElem?_column_eq_some

@[simp] theorem length_rows : s.rows.length = s.nRules := length_column

@[simp] theorem row_ask : s.ask.row = s.row := rfl

@[simp] theorem rows_ask : s.ask.rows = s.rows := rfl

theorem row_softDelete : (s.softDelete i).row = Function.update s.row i (s.row i).softDeleted := by
  funext j
  by_cases hj : j = i
  · subst hj
    simp [row, softDelete, RuleRow.softDeleted]
  · simp [row, softDelete, hj]

theorem row_setRhs {r : FTerm} :
    (s.setRhs w i r).row = Function.update s.row i ((s.row i).composed r (w.tracePush s.asked)) := by
  funext j
  by_cases hj : j = i
  · subst hj
    simp [row, setRhs, ask, RuleRow.composed]
  · simp [row, setRhs, ask, hj]

theorem row_shiftSlots : (s.shiftSlots i).row = shift i s.nRules s.row := by
  funext j
  unfold shift
  split
  · next hj => simp [row, shiftSlots, shift_of_ge hj.1 hj.2]
  · next hj => simp [row, shiftSlots, shift, hj]

theorem shiftSlotsPass2_eq (h : ∀ k, i ≤ k → k + 1 < s.nRules → s.rGjStatus k = s.rGjStatus (k + 1)) :
    s.shiftSlotsPass2 i = s.shiftSlots i := by
  unfold shiftSlotsPass2 shiftSlots
  simp only [shift_of_level h]

/-! ## The invariant -/

end RuleSlots

/-- The flag of a live row is the verdict on its sides, and the mirrors show its sides. -/
structure RuleRow.Right (w : RuleWorld) (r : RuleRow) : Prop where
  flag : r.rDead = false → (r.rOrient = true ↔ w.compare r.lhs r.rhs = .gt)
  lhsFt : r.lhsFt = some r.lhs
  rhsFt : r.rhsFt = some r.rhs

namespace RuleSlots

structure Inv (w : RuleWorld) (s : RuleSlots) : Prop where
  cap : s.nRules ≤ s.rCap
  spare : ∀ i, s.nRules ≤ i → i < s.rCap → (s.row i).Clean
  top : ∀ i, i + 1 = s.nRules → (s.row i).Clean
  uid : ∀ i < s.nRules, s.rUid i ≠ 0 ∧ s.rUid i ≤ s.nextRuleUid
  uid_inj : ∀ i < s.nRules, ∀ j < s.nRules, s.rUid i = s.rUid j → i = j
  slot : ∀ i < s.nRules, s.uidIdx (s.rUid i) = some i
  unorient : s.nUnorient = (column s.rOrient s.nRules).count false
  right : ∀ i < s.nRules, (s.row i).Right w

/-- Both states have the same slots, and the rows are related one by one. -/
structure Edits (R : RuleRow → RuleRow → Prop) (s s' : RuleSlots) : Prop where
  nRules : s'.nRules = s.nRules
  row : ∀ i < s.nRules, R (s.row i) (s'.row i)

variable {w : RuleWorld} {o : RuleOptions} {s s' s'' : RuleSlots} {i n : ℕ} {r' : RuleRow}
  {R : RuleRow → RuleRow → Prop}

theorem Edits.refl (hR : ∀ r, R r r) : Edits R s s := ⟨rfl, fun _ _ => hR _⟩

theorem Edits.trans (hR : ∀ {r r' r''}, R r r' → R r' r'' → R r r'') (h : Edits R s s')
    (h' : Edits R s' s'') : Edits R s s'' :=
  ⟨h'.nRules.trans h.nRules, fun i hi => hR (h.row i hi) (h'.row i (h.nRules ▸ hi))⟩

theorem Edits.single (hrefl : ∀ r, R r r) (hrow : s'.row = Function.update s.row i r')
    (hn : s'.nRules = s.nRules) (hR : R (s.row i) r') : Edits R s s' := by
  refine ⟨hn, fun j _ => ?_⟩
  rw [hrow]
  by_cases hj : j = i
  · subst hj
    rwa [Function.update_self]
  · rw [Function.update_of_ne hj]
    exact hrefl _

theorem Edits.forall₂ (h : Edits R s s') : List.Forall₂ R s.rows s'.rows := by
  rw [List.forall₂_iff_get]
  refine ⟨by rw [length_rows, length_rows, h.nRules], fun i hi hi' => ?_⟩
  rw [length_rows] at hi
  simpa [rows, column] using h.row i hi

/-- One row is changed in a way that no other part of the state depends on. -/
theorem Inv.edit (h : Inv w s) (hi : i < s.nRules) (hrow : s'.row = Function.update s.row i r')
    (hn : s'.nRules = s.nRules) (hcap : s'.rCap = s.rCap) (hidx : s'.uidIdx = s.uidIdx)
    (hnext : s'.nextRuleUid = s.nextRuleUid) (hun : s'.nUnorient = s.nUnorient)
    (huid : r'.rUid = s.rUid i) (horient : r'.rOrient = s.rOrient i) (hright : r'.Right w)
    (hclean : i + 1 = s.nRules → r'.Clean) : Inv w s' := by
  have hat : ∀ j, j ≠ i → s'.row j = s.row j := fun j hj => by
    rw [hrow, Function.update_of_ne hj]
  have hself : s'.row i = r' := by rw [hrow, Function.update_self]
  have hu : ∀ j, s'.rUid j = s.rUid j := fun j => by
    by_cases hj : j = i
    · subst hj
      exact (congrArg RuleRow.rUid hself).trans huid
    · exact congrArg RuleRow.rUid (hat j hj)
  have ho : ∀ j, s'.rOrient j = s.rOrient j := fun j => by
    by_cases hj : j = i
    · subst hj
      exact (congrArg RuleRow.rOrient hself).trans horient
    · exact congrArg RuleRow.rOrient (hat j hj)
  refine ⟨?_, fun j hj hlt => ?_, fun j hj => ?_, fun j hj => ?_, fun j hj k hk => ?_, fun j hj => ?_,
    ?_, fun j hj => ?_⟩
  · rw [hn, hcap]
    exact h.cap
  · rw [hn] at hj
    rw [hcap] at hlt
    rw [hat j (by omega)]
    exact h.spare j hj hlt
  · rw [hn] at hj
    by_cases hji : j = i
    · subst hji
      rw [hself]
      exact hclean hj
    · rw [hat j hji]
      exact h.top j hj
  · rw [hu, hnext]
    exact h.uid j (hn ▸ hj)
  · rw [hu, hu]
    exact h.uid_inj j (hn ▸ hj) k (hn ▸ hk)
  · rw [hu, hidx]
    exact h.slot j (hn ▸ hj)
  · rw [hun, h.unorient, hn, column_congr fun j _ => (ho j).symm]
  · by_cases hji : j = i
    · subst hji
      rw [hself]
      exact hright
    · rw [hat j hji]
      exact h.right j (hn ▸ hj)

theorem Inv.ask (h : Inv w s) : Inv w s.ask :=
  ⟨h.cap, h.spare, h.top, h.uid, h.uid_inj, h.slot, h.unorient, h.right⟩

theorem right_softDeleted {r : RuleRow} : r.softDeleted.Right w := ⟨nofun, rfl, rfl⟩

theorem Inv.softDelete (h : Inv w s) (hi : i + 1 < s.nRules) : Inv w (s.softDelete i) :=
  h.edit (by omega) row_softDelete rfl rfl rfl rfl rfl rfl rfl right_softDeleted (by omega)

theorem softDelete_edits (hdead : s.rDead i = false) : Edits RuleRow.SoftDeletes s (s.softDelete i) :=
  .single (fun _ => .refl) row_softDelete rfl (.inr ⟨hdead, .inl rfl⟩)

/-! ## Taking a row out -/

theorem foldl_uidIdxSet {f : ℕ → ℕ} (js : List ℕ) (hpos : ∀ j ∈ js, f j ≠ 0)
    (hinj : (js.map f).Nodup) (idx : ℕ → Option ℕ) :
    (∀ j ∈ js, js.foldl (fun idx j => atpUidIdxSet idx (f j) (j - 1)) idx (f j) = some (j - 1)) ∧
      ∀ u ∉ js.map f, js.foldl (fun idx j => atpUidIdxSet idx (f j) (j - 1)) idx u = idx u := by
  induction js generalizing idx with
  | nil => exact ⟨nofun, fun _ _ => rfl⟩
  | cons j js ih =>
    rw [List.map_cons, List.nodup_cons] at hinj
    obtain ⟨hin, hout⟩ := ih (fun k hk => hpos k (List.mem_cons_of_mem _ hk)) hinj.2
      (atpUidIdxSet idx (f j) (j - 1))
    have hset : atpUidIdxSet idx (f j) (j - 1) = Function.update idx (f j) (some (j - 1)) :=
      if_neg (hpos j List.mem_cons_self)
    refine ⟨fun k hk => ?_, fun u hu => ?_⟩
    · rcases List.mem_cons.mp hk with rfl | hk
      · exact (hout _ hinj.1).trans (by rw [hset, Function.update_self])
      · exact hin k hk
    · rw [List.map_cons, List.mem_cons, not_or] at hu
      exact (hout u hu.2).trans (by rw [hset, Function.update_of_ne hu.1])

theorem Inv.dropSlot (h : Inv w s) (hi : i + 1 < s.nRules) :
    Inv w (s.dropSlot (s.shiftSlots i) i) := by
  have hrow : (s.dropSlot (s.shiftSlots i) i).row = shift i s.nRules s.row := row_shiftSlots
  have huid : (s.dropSlot (s.shiftSlots i) i).rUid = shift i s.nRules s.rUid := rfl
  have hlast := h.top (s.nRules - 1) (by omega)
  refine ⟨?_, fun j hj hlt => ?_, fun j hj => ?_, fun j hj => ?_, fun j hj k hk => ?_, fun j hj => ?_,
    ?_, fun j hj => ?_⟩
  · exact (Nat.sub_le _ _).trans h.cap
  · rw [hrow]
    change s.nRules - 1 ≤ j at hj
    rw [shift_of_top (by omega)]
    by_cases hlow : s.nRules ≤ j
    · exact h.spare j hlow hlt
    · rwa [show j = s.nRules - 1 by omega]
  · rw [hrow]
    change j + 1 = s.nRules - 1 at hj
    rw [shift_of_ge (by omega) (by omega)]
    rwa [show j + 1 = s.nRules - 1 by omega]
  · change j < s.nRules - 1 at hj
    rw [huid]
    unfold shift
    split
    · exact h.uid _ (by omega)
    · exact h.uid _ (by omega)
  · change j < s.nRules - 1 at hj
    change k < s.nRules - 1 at hk
    rw [huid]
    unfold shift
    split
    · split
      · intro heq
        have := h.uid_inj _ (by omega) _ (by omega) heq
        omega
      · intro heq
        have := h.uid_inj _ (by omega) _ (by omega) heq
        omega
    · split
      · intro heq
        have := h.uid_inj _ (by omega) _ (by omega) heq
        omega
      · intro heq
        exact h.uid_inj _ (by omega) _ (by omega) heq
  · change j < s.nRules - 1 at hj
    have hmem : ∀ k, k ∈ List.range' (i + 1) (s.nRules - (i + 1)) ↔ i + 1 ≤ k ∧ k < s.nRules := by
      intro k
      rw [List.mem_range'_1]
      omega
    obtain ⟨hin, hout⟩ := foldl_uidIdxSet (f := s.rUid)
      (List.range' (i + 1) (s.nRules - (i + 1)))
      (fun k hk => (h.uid k ((hmem k).mp hk).2).1)
      (List.Nodup.map_on (fun a ha b hb => h.uid_inj a ((hmem a).mp ha).2 b ((hmem b).mp hb).2)
        List.nodup_range') s.uidIdx
    rw [huid]
    by_cases hij : i ≤ j
    · rw [shift_of_ge hij (by omega)]
      exact hin (j + 1) ((hmem _).mpr ⟨by omega, by omega⟩)
    · rw [shift_of_lt (by omega)]
      refine (hout _ fun hmem' => ?_).trans (h.slot j (by omega))
      obtain ⟨k, hk, heq⟩ := List.mem_map.mp hmem'
      have := h.uid_inj k ((hmem k).mp hk).2 j (by omega) heq
      have := (hmem k).mp hk
      omega
  · have hlen : i < (column s.rOrient s.nRules).length := by
      rw [length_column]
      omega
    have hperm := List.getElem_cons_eraseIdx_perm hlen
    have hcount := hperm.count_eq false
    change (if s.rOrient i then s.nUnorient else s.nUnorient - 1) =
      (column (shift i s.nRules s.rOrient) (s.nRules - 1)).count false
    rw [column_shift (by omega), h.unorient, ← hcount]
    have hget : (column s.rOrient s.nRules)[i] = s.rOrient i := by simp [column]
    rw [hget]
    cases s.rOrient i with
    | true => simp
    | false => simp
  · change j < s.nRules - 1 at hj
    rw [hrow]
    unfold shift
    split
    · exact h.right _ (by omega)
    · exact h.right _ (by omega)

theorem rows_dropSlot (hi : i < s.nRules) :
    (s.dropSlot (s.shiftSlots i) i).rows = s.rows.eraseIdx i := by
  rw [rows, rows, ← column_shift hi, ← row_shiftSlots]
  rfl

/-! ## Adding a rule -/

theorem le_growCap (need rounds cap : ℕ) : cap ≤ growCap need rounds cap := by
  induction rounds generalizing cap with
  | zero => exact le_rfl
  | succ rounds ih =>
    unfold growCap
    split
    · exact (by omega : cap ≤ cap * 2).trans (ih _)
    · exact le_rfl

theorem need_le_growCap {need rounds cap : ℕ} (h : need ≤ cap + rounds) (hcap : 0 < cap) :
    need ≤ growCap need rounds cap := by
  induction rounds generalizing cap with
  | zero => exact h
  | succ rounds ih =>
    unfold growCap
    split
    · exact ih (by omega) (by omega)
    · omega

variable {need : ℕ}

theorem ensure_cap : need ≤ (s.atpEnsureRuleCap need).rCap ∧ s.rCap ≤ (s.atpEnsureRuleCap need).rCap := by
  unfold atpEnsureRuleCap
  split
  · next h => exact ⟨h, le_rfl⟩
  · by_cases hzero : s.rCap = 0
    · simp only [hzero, if_true]
      exact ⟨need_le_growCap (by omega) (by decide), Nat.zero_le _⟩
    · simp only [hzero, if_false]
      exact ⟨need_le_growCap (by omega) (by omega), le_growCap _ _ _⟩

theorem ensure_same (s : RuleSlots) (need : ℕ) :
    (s.atpEnsureRuleCap need).nRules = s.nRules ∧
    (s.atpEnsureRuleCap need).nUnorient = s.nUnorient ∧
    (s.atpEnsureRuleCap need).nextRuleUid = s.nextRuleUid ∧
    (s.atpEnsureRuleCap need).uidIdx = s.uidIdx := by
  unfold atpEnsureRuleCap
  split
  · exact ⟨rfl, rfl, rfl, rfl⟩
  · exact ⟨rfl, rfl, rfl, rfl⟩

theorem ensure_row (hi : i < s.rCap) : (s.atpEnsureRuleCap need).row i = s.row i := by
  unfold atpEnsureRuleCap
  split
  · rfl
  · simp [row, Nat.not_le.mpr hi]

theorem ensure_clean (hi : s.rCap ≤ i) (hlt : i < (s.atpEnsureRuleCap need).rCap) :
    ((s.atpEnsureRuleCap need).row i).Clean := by
  unfold atpEnsureRuleCap at hlt ⊢
  split
  · next h =>
    rw [if_pos h] at hlt
    omega
  · next h =>
    rw [if_neg h] at hlt
    constructor <;> exact if_pos ⟨hi, hlt⟩

theorem Inv.ensure (need : ℕ) (h : Inv w s) : Inv w (s.atpEnsureRuleCap need) := by
  obtain ⟨hn, hun, hnext, hidx⟩ := ensure_same s need
  have hrow : ∀ j < s.nRules, (s.atpEnsureRuleCap need).row j = s.row j := fun j hj =>
    ensure_row (hj.trans_le h.cap)
  have huid : ∀ j < s.nRules, (s.atpEnsureRuleCap need).rUid j = s.rUid j := fun j hj =>
    congrArg RuleRow.rUid (hrow j hj)
  refine ⟨?_, fun j hj hlt => ?_, fun j hj => ?_, fun j hj => ?_, fun j hj k hk => ?_, fun j hj => ?_,
    ?_, fun j hj => ?_⟩
  · rw [hn]
    exact h.cap.trans ensure_cap.2
  · rw [hn] at hj
    by_cases hlow : j < s.rCap
    · rw [ensure_row hlow]
      exact h.spare j hj hlow
    · exact ensure_clean (by omega) hlt
  · rw [hn] at hj
    rw [hrow j (by omega)]
    exact h.top j hj
  · rw [hn] at hj
    rw [huid j hj, hnext]
    exact h.uid j hj
  · rw [hn] at hj hk
    rw [huid j hj, huid k hk]
    exact h.uid_inj j hj k hk
  · rw [hn] at hj
    rw [huid j hj, hidx]
    exact h.slot j hj
  · rw [hun, hn, h.unorient]
    exact congrArg _ (column_congr fun j hj => (congrArg RuleRow.rOrient (hrow j hj)).symm)
  · rw [hn] at hj
    rw [hrow j hj]
    exact h.right j hj

variable {lhs rhs : FTerm}

/-- The row that `writeRule` leaves, its trace being the one that was in the slot. -/
theorem row_writeRule (o : RuleOptions) (lhs rhs : FTerm) (hclean : (s.row s.nRules).Clean) :
    (s.writeRule w o lhs rhs).row = Function.update s.row s.nRules (RuleRow.fresh w lhs rhs
      (s.rTrace s.nRules) ((s.nextRuleUid + 1) % 2 ^ 32) (s.rederiveCut o lhs rhs)) := by
  funext j
  by_cases hj : j = s.nRules
  · subst hj
    obtain ⟨h₁, h₂, h₃, h₄, h₅, h₆, h₇⟩ := hclean
    simp only [row] at h₁ h₂ h₃ h₄ h₅ h₆ h₇
    simp [row, writeRule, RuleRow.fresh, h₁, h₂, h₃, h₄, h₅, h₆, h₇]
  · simp [row, writeRule, hj]

theorem right_fresh {trace uid cut : ℕ} : (RuleRow.fresh w lhs rhs trace uid cut).Right w :=
  ⟨fun _ => decide_eq_true_iff, rfl, rfl⟩

theorem clean_fresh {trace uid cut : ℕ} : (RuleRow.fresh w lhs rhs trace uid cut).Clean :=
  ⟨rfl, rfl, rfl, rfl, rfl, rfl, rfl⟩

theorem Inv.writeRule (h : Inv w s) (hroom : s.nRules < s.rCap) (huid : s.nextRuleUid + 1 < 2 ^ 32) :
    Inv w (s.writeRule w o lhs rhs) := by
  have hrow := row_writeRule (w := w) o lhs rhs (h.spare _ le_rfl hroom)
  have hmod : (s.nextRuleUid + 1) % 2 ^ 32 = s.nextRuleUid + 1 := Nat.mod_eq_of_lt huid
  rw [hmod] at hrow
  have hnext : (s.writeRule w o lhs rhs).nextRuleUid = s.nextRuleUid + 1 := hmod
  have hcol : (s.writeRule w o lhs rhs).rUid =
      Function.update s.rUid s.nRules (s.nextRuleUid + 1) := by
    rw [← hmod]
    rfl
  have hidx : (s.writeRule w o lhs rhs).uidIdx =
      Function.update s.uidIdx (s.nextRuleUid + 1) (some s.nRules) := by
    rw [← hmod]
    exact if_neg (by omega)
  have hat : ∀ j, j ≠ s.nRules → (s.writeRule w o lhs rhs).row j = s.row j := fun j hj => by
    rw [hrow, Function.update_of_ne hj]
  have hold : ∀ j < s.nRules, s.rUid j ≠ s.nextRuleUid + 1 := fun j hj => by
    have := (h.uid j hj).2
    omega
  refine ⟨hroom, fun j hj hlt => ?_, fun j hj => ?_, fun j hj => ?_, fun j hj k hk => ?_,
    fun j hj => ?_, ?_, fun j hj => ?_⟩
  · change s.nRules + 1 ≤ j at hj
    rw [hat j (by omega)]
    exact h.spare j (by omega) hlt
  · change j + 1 = s.nRules + 1 at hj
    obtain rfl : j = s.nRules := by omega
    rw [hrow, Function.update_self]
    exact clean_fresh
  · change j < s.nRules + 1 at hj
    rw [hcol, hnext]
    by_cases hj' : j = s.nRules
    · subst hj'
      rw [Function.update_self]
      omega
    · rw [Function.update_of_ne hj']
      have := h.uid j (by omega)
      omega
  · change j < s.nRules + 1 at hj
    change k < s.nRules + 1 at hk
    rw [hcol]
    by_cases hj' : j = s.nRules
    · subst hj'
      by_cases hk' : k = s.nRules
      · intro _
        exact hk'.symm
      · rw [Function.update_self, Function.update_of_ne hk']
        intro heq
        exact absurd heq.symm (hold k (by omega))
    · by_cases hk' : k = s.nRules
      · subst hk'
        rw [Function.update_self, Function.update_of_ne hj']
        intro heq
        exact absurd heq (hold j (by omega))
      · rw [Function.update_of_ne hj', Function.update_of_ne hk']
        exact h.uid_inj j (by omega) k (by omega)
  · change j < s.nRules + 1 at hj
    rw [hcol, hidx]
    by_cases hj' : j = s.nRules
    · subst hj'
      rw [Function.update_self, Function.update_self]
    · rw [Function.update_of_ne hj', Function.update_of_ne (hold j (by omega))]
      exact h.slot j (by omega)
  · change (if w.compare lhs rhs = .gt then s.nUnorient else s.nUnorient + 1) =
      (column (Function.update s.rOrient s.nRules (decide (w.compare lhs rhs = .gt)))
        (s.nRules + 1)).count false
    rw [column_update_top, List.count_append, h.unorient]
    by_cases hgt : w.compare lhs rhs = .gt
    · simp [hgt]
    · simp [hgt]
  · change j < s.nRules + 1 at hj
    by_cases hj' : j = s.nRules
    · subst hj'
      rw [hrow, Function.update_self]
      exact right_fresh
    · rw [hat j hj']
      exact h.right j (by omega)

/-- A soft deletion below slot `n`. -/
structure DeletesBelow (w : RuleWorld) (n : ℕ) (s s' : RuleSlots) : Prop where
  inv : Inv w s → Inv w s'
  edits : Edits RuleRow.SoftDeletes s s'
  above : s'.row n = s.row n

theorem DeletesBelow.refl : DeletesBelow w n s s := ⟨id, .refl fun _ => .refl, rfl⟩

theorem DeletesBelow.trans (h : DeletesBelow w n s s') (h' : DeletesBelow w n s' s'') :
    DeletesBelow w n s s'' :=
  ⟨fun hinv => h'.inv (h.inv hinv), h.edits.trans .trans h'.edits, h'.above.trans h.above⟩

theorem foldl_deletesBelow {f : RuleSlots → ℕ → RuleSlots} {is : List ℕ}
    (hf : ∀ s, ∀ i ∈ is, n < s.nRules → DeletesBelow w n s (f s i)) (hn : n < s.nRules) :
    DeletesBelow w n s (is.foldl f s) := by
  induction is generalizing s with
  | nil => exact .refl
  | cons i is ih =>
    have hstep := hf s i List.mem_cons_self hn
    exact hstep.trans (ih (fun s j hj => hf s j (List.mem_cons_of_mem _ hj))
      (hstep.edits.nRules.symm ▸ hn))

theorem bwdSubsume_deletes {new : FTerm × FTerm} (hi : i < n) (hn : n < s.nRules) :
    DeletesBelow w n s (s.bwdSubsume new i) := by
  unfold bwdSubsume
  split
  · exact .refl
  · next hdead =>
    split
    · refine ⟨fun h => h.softDelete (by omega), softDelete_edits (by simpa using hdead), ?_⟩
      rw [row_softDelete, Function.update_of_ne (by omega)]
    · exact .refl

theorem esetSubsume_deletes {new : FTerm × FTerm} (hi : i < n) (hn : n < s.nRules) :
    DeletesBelow w n s (s.esetSubsume w new i) := by
  unfold esetSubsume
  split
  · exact .refl
  · split
    · exact .refl
    · next hdead =>
      split
      · have hrow : (({ s.ask.softDelete i with
            rDeadSubsumerLhs := Function.update s.rDeadSubsumerLhs i (some new.1)
            rDeadSubsumerRhs := Function.update s.rDeadSubsumerRhs i (some new.2) } : RuleSlots)).row =
            Function.update s.row i { (s.row i).softDeleted with
              rDeadSubsumerLhs := some new.1, rDeadSubsumerRhs := some new.2 } := by
          funext j
          by_cases hj : j = i
          · subst hj
            simp [row, softDelete, ask, RuleRow.softDeleted]
          · simp [row, softDelete, ask, hj]
        refine ⟨fun h => ?_, ?_, ?_⟩
        · exact h.edit (by omega) hrow rfl rfl rfl rfl rfl rfl rfl ⟨nofun, rfl, rfl⟩ (by omega)
        · exact .single (fun _ => .refl) hrow rfl
            (.inr ⟨(by simpa using hdead : s.rDead i = false), .inr ⟨new.1, new.2, rfl⟩⟩)
        · rw [hrow, Function.update_of_ne (by omega)]
      · exact ⟨Inv.ask, ⟨rfl, fun _ _ => .refl⟩, rfl⟩

theorem atpEsetSubsumeByNew_deletes (hn : n < s.nRules) :
    DeletesBelow w n s (s.atpEsetSubsumeByNew w n) :=
  foldl_deletesBelow (fun _ _ hi hn => esetSubsume_deletes (List.mem_range.mp hi) hn) hn

/-- What `atp_push_rule` does when it takes the rule: soft deletions, and a fresh row on top. -/
structure Pushed (w : RuleWorld) (s s' : RuleSlots) (lhs rhs : FTerm) : Prop where
  inv : Inv w s'
  nRules : s'.nRules = s.nRules + 1
  old : ∀ i < s.nRules, (s.row i).SoftDeletes (s'.row i)
  new : ∃ cut, s'.row s.nRules = .fresh w lhs rhs (s'.rTrace s.nRules) (s.nextRuleUid + 1) cut

theorem atpPushRule_spec (o : RuleOptions) (lhs rhs : FTerm) (h : Inv w s) (huid : s.nextRuleUid + 1 < 2 ^ 32) :
    (s.atpPushRule w o lhs rhs).1 = false ∧ (s.atpPushRule w o lhs rhs).2 = s ∨
      (s.atpPushRule w o lhs rhs).1 = true ∧ ∃ p : FTerm × FTerm,
        p = (if o.varNorm then w.normalizeVars (lhs, rhs) else (lhs, rhs)) ∧
          Pushed w s (s.atpPushRule w o lhs rhs).2 p.1 p.2 := by
  unfold atpPushRule
  generalize hp : (if o.varNorm then w.normalizeVars (lhs, rhs) else (lhs, rhs)) = p
  obtain ⟨l, r⟩ := p
  simp only
  split
  · exact .inl ⟨rfl, rfl⟩
  · refine .inr ⟨rfl, (l, r), rfl, ?_⟩
    obtain ⟨hn, -, hnext, -⟩ := ensure_same s (s.nRules + 1)
    have hroom : (s.atpEnsureRuleCap (s.nRules + 1)).nRules < (s.atpEnsureRuleCap (s.nRules + 1)).rCap := by
      rw [hn]
      exact ensure_cap.1
    have hinv := h.ensure (s.nRules + 1)
    have hclean := hinv.spare _ le_rfl hroom
    have hrow := row_writeRule (w := w) o l r hclean
    rw [hn, hnext, Nat.mod_eq_of_lt huid] at hrow
    generalize ht : (s.atpEnsureRuleCap (s.nRules + 1)).writeRule w o l r = t at hrow
    have htn : t.nRules = s.nRules + 1 := by
      rw [← ht]
      exact congrArg (· + 1) hn
    have hwritten : Pushed w s t l r := by
      refine ⟨ht ▸ hinv.writeRule hroom (hnext.symm ▸ huid), htn, fun i hi => ?_,
        (s.atpEnsureRuleCap (s.nRules + 1)).rederiveCut o l r, ?_⟩
      · rw [hrow, Function.update_of_ne (by omega), ensure_row (hi.trans_le h.cap)]
        exact .refl
      · have hself : t.row s.nRules = .fresh w l r ((s.atpEnsureRuleCap (s.nRules + 1)).rTrace s.nRules)
            (s.nextRuleUid + 1) ((s.atpEnsureRuleCap (s.nRules + 1)).rederiveCut o l r) := by
          rw [hrow, Function.update_self]
        rw [hself]
        congr 1
        exact (congrArg RuleRow.rTrace hself).symm
    split
    · have hdel : DeletesBelow w s.nRules t
          ((List.range s.nRules).foldl (fun s i => s.bwdSubsume (l, r) i) t) :=
        foldl_deletesBelow (fun _ _ hi hn => bwdSubsume_deletes (List.mem_range.mp hi) hn) (by omega)
      obtain ⟨cut, hnew⟩ := hwritten.new
      refine ⟨hdel.inv hwritten.inv, hdel.edits.nRules.trans htn,
        fun i hi => (hwritten.old i hi).trans (hdel.edits.row i (by omega)), cut, ?_⟩
      rw [hdel.above, hnew]
      congr 1
      exact (congrArg RuleRow.rTrace hdel.above).symm
    · exact hwritten

/-! ## Interreduction -/

/-- What a step of interreduction does: it drops one row as a whole, or composes some. -/
structure Reduces (w : RuleWorld) (dropped : Bool) (s s' : RuleSlots) : Prop where
  inv : Inv w s → Inv w s'
  rows : List.SublistForall₂ RuleRow.ComposedFrom s'.rows s.rows
  nRules : s'.nRules + dropped.toNat = s.nRules

theorem Reduces.refl : Reduces w false s s := ⟨id, refl_of _ _, rfl⟩

/-- The questions to the normaliser do not touch the arrays. -/
theorem Reduces.asked (asked : ℕ) : Reduces w false s { s with asked := asked } :=
  ⟨fun h => ⟨h.cap, h.spare, h.top, h.uid, h.uid_inj, h.slot, h.unorient, h.right⟩, refl_of _ _, rfl⟩

theorem Reduces.ask : Reduces w false s s.ask := .asked _

theorem Reduces.trans {d : Bool} (h : Reduces w false s s') (h' : Reduces w d s' s'') :
    Reduces w d s s'' :=
  ⟨fun hinv => h'.inv (h.inv hinv), trans_of _ h'.rows h.rows, h'.nRules.trans h.nRules⟩

theorem Reduces.drop (hi : i + 1 < s.nRules) : Reduces w true s (s.dropSlot (s.shiftSlots i) i) := by
  refine ⟨fun h => h.dropSlot hi, ?_, Nat.sub_add_cancel (by omega)⟩
  rw [rows_dropSlot (by omega)]
  exact (List.eraseIdx_sublist _ _).sublistForall₂

theorem Reduces.dropPass2 (hi : i + 1 < s.nRules)
    (hlevel : ∀ k, i ≤ k → k + 1 < s.nRules → s.rGjStatus k = s.rGjStatus (k + 1)) :
    Reduces w true s (s.dropSlot (s.shiftSlotsPass2 i) i) := by
  rw [shiftSlotsPass2_eq hlevel]
  exact .drop hi

theorem Reduces.setRhs {r : FTerm} (hi : i < s.nRules) (hflag : s.rOrient i = true ∨ s.rDead i = true)
    (hgt : w.compare (s.lhs i) r = .gt) : Reduces w false s (s.setRhs w i r) := by
  have hedits : Edits (fun r r' => r'.ComposedFrom r) s (s.setRhs w i r) :=
    .single (fun _ => .inl rfl) row_setRhs rfl (.inr ⟨r, _, rfl⟩)
  refine ⟨fun h => ?_, List.sublistForall₂_iff.mpr ⟨_, hedits.forall₂.flip, .refl _⟩, rfl⟩
  refine h.edit hi row_setRhs rfl rfl rfl rfl rfl rfl rfl ⟨fun hlive => ?_, ?_, rfl⟩ fun htop => ?_
  · have hlive : s.rDead i = false := hlive
    rw [hlive] at hflag
    exact iff_of_true (hflag.resolve_right Bool.false_ne_true) hgt
  · exact (h.right i hi).lhsFt
  · obtain ⟨h₁, h₂, h₃, h₄, h₅, h₆, h₇⟩ := h.top i htop
    exact ⟨h₁, h₂, h₃, h₄, h₅, h₆, h₇⟩

theorem rhsReduct_state (w : RuleWorld) (o : RuleOptions) (s : RuleSlots)
    (new : List (FTerm × FTerm)) (i : ℕ) :
    ∃ asked, (s.rhsReduct w o new i).2 = { s with asked := asked } := by
  unfold rhsReduct
  split
  · dsimp only
    split
    · exact ⟨_, rfl⟩
    · exact ⟨_, rfl⟩
  · exact ⟨_, rfl⟩

/-- A composition is harmless where the flag is set, or nobody asks for it. -/
theorem Reduces.composeRhs {new : List (FTerm × FTerm)} (hi : i < s.nRules)
    (hflag : (s.rhsReduct w o new i).2.rhsAccepted w o i (s.rhsReduct w o new i).1 = true →
      s.rOrient i = true ∨ s.rDead i = true) : Reduces w false s (s.composeRhs w o new i) := by
  unfold RuleSlots.composeRhs
  obtain ⟨asked, hstate⟩ := rhsReduct_state w o s new i
  generalize s.rhsReduct w o new i = p at hflag hstate ⊢
  obtain ⟨r, t⟩ := p
  obtain rfl : t = { s with asked := asked } := hstate
  dsimp only at hflag ⊢
  split
  · next hacc =>
    refine (Reduces.asked asked).trans (.setRhs hi (hflag hacc) ?_)
    unfold rhsAccepted at hacc
    simp only [Bool.and_eq_true, decide_eq_true_eq] at hacc
    exact hacc.1.2
  · exact .asked asked

/-- The slice-only composition replaces the right side of an equation by a smaller one than its
left side. -/
def StaleFlag (w : RuleWorld) (o : RuleOptions) (new : List (FTerm × FTerm)) (i : ℕ)
    (s : RuleSlots) : Prop :=
  (interreduceSlot w o new i s).1 = false ∧ o.rightReduce = true ∧ o.useRhsInterreduce = false ∧
    s.rOrient i = false ∧ s.rDead i = false ∧
    s.rhsAccepted w o i (w.normalize (s.asked + 1) (s.rhs i) new 16) = true

/-- The second pass takes a row out from below a change in the ground-join status. -/
def StaysBehind (w : RuleWorld) (o : RuleOptions) (new : List (FTerm × FTerm)) (i : ℕ)
    (s : RuleSlots) : Prop :=
  (interreduceSlotPass2 w o new i s).1 = true ∧
    ∃ k, i ≤ k ∧ k + 1 < s.nRules ∧ s.rGjStatus k ≠ s.rGjStatus (k + 1)

variable {new : List (FTerm × FTerm)} {first count rest : ℕ}

theorem interreduceSlot_reduces (hi : i + 1 < s.nRules) (hflag : ¬StaleFlag w o new i s) :
    Reduces w (interreduceSlot w o new i s).1 s (interreduceSlot w o new i s).2 := by
  unfold StaleFlag at hflag
  revert hflag
  unfold interreduceSlot
  dsimp only
  split
  · intro _
    exact Reduces.ask.trans (.drop hi)
  · split
    · intro _
      exact .ask
    · next hright =>
      split
      · intro _
        exact .ask
      · next hmode =>
        intro hflag
        refine Reduces.ask.trans (.composeRhs (by omega : i < s.nRules) fun hacc => ?_)
        by_contra hnot
        rw [not_or, Bool.not_eq_true, Bool.not_eq_true] at hnot
        obtain ⟨horient, hdead⟩ := hnot
        have hslice : o.useRhsInterreduce = false := by
          change s.rOrient i = false at horient
          change s.rDead i = false at hdead
          simpa [ask, horient, hdead] using hmode
        refine hflag ⟨rfl, by simpa using hright, hslice, horient, hdead, ?_⟩
        unfold rhsReduct at hacc
        rw [hslice] at hacc
        exact hacc

theorem interreduceSlotPass2_reduces (hi : i + 1 < s.nRules) (hlevel : ¬StaysBehind w o new i s) :
    Reduces w (interreduceSlotPass2 w o new i s).1 s (interreduceSlotPass2 w o new i s).2 := by
  unfold StaysBehind at hlevel
  revert hlevel
  unfold interreduceSlotPass2
  -- the answers of the normaliser change only `asked`
  obtain ⟨b, asked, hfst⟩ : ∃ b asked, (if o.useBwdDemod && !s.rDead i then
      (!kboEq (w.normalize s.asked (s.lhs i) new 16) (s.lhs i), s.ask) else (false, s)) =
        (b, ({ s with asked := asked } : RuleSlots)) := by
    split
    · exact ⟨_, _, rfl⟩
    · exact ⟨_, _, rfl⟩
  rw [hfst]
  generalize ht : ({ s with asked := asked } : RuleSlots) = t
  obtain ⟨b', asked', hsnd⟩ : ∃ b' asked', (if o.useRhsInterreduce && !t.rDead i && !t.rOrient i then
      (!kboEq (w.normalize t.asked (t.rhs i) new 16) (t.rhs i), t.ask) else (false, t)) =
        (b', ({ s with asked := asked' } : RuleSlots)) := by
    rw [← ht]
    split
    · exact ⟨_, _, rfl⟩
    · exact ⟨_, _, rfl⟩
  dsimp only
  rw [hsnd]
  dsimp only
  split
  · intro hlevel
    have hsame : ∀ k, i ≤ k → k + 1 < s.nRules → s.rGjStatus k = s.rGjStatus (k + 1) := by
      intro k hik hk
      by_contra hne
      exact hlevel ⟨rfl, k, hik, hk, hne⟩
    exact (Reduces.asked asked').trans (.dropPass2 hi hsame)
  · intro _
    exact .asked asked'

theorem wmIrDropSlot_reduces (o : RuleOptions) (new : List (FTerm × FTerm)) (hi : i + 1 < s.nRules) :
    Reduces w (wmIrDropSlot w o new i s).1 s (wmIrDropSlot w o new i s).2 := by
  unfold wmIrDropSlot
  dsimp only
  split
  · exact Reduces.ask.trans (.drop hi)
  · exact .ask

theorem wmIrDropSlotRhs_reduces (hi : i + 1 < s.nRules) :
    Reduces w (wmIrDropSlotRhs w o new i s).1 s (wmIrDropSlotRhs w o new i s).2 := by
  unfold wmIrDropSlotRhs
  split
  · dsimp only
    split
    · exact Reduces.ask.trans (.drop hi)
    · exact .ask
  · exact .refl

theorem wmPhaseA_reduces (hi : i + 1 < s.nRules) :
    Reduces w (wmPhaseA w o new i s).1 s (wmPhaseA w o new i s).2 := by
  unfold wmPhaseA
  split
  · exact .refl
  · have hstep := wmIrDropSlot_reduces (w := w) o new hi
    generalize wmIrDropSlot w o new i s = p at hstep ⊢
    obtain ⟨dropped, t⟩ := p
    dsimp only at hstep ⊢
    split
    · next hdropped =>
      rwa [hdropped] at hstep
    · next hdropped =>
      rw [Bool.not_eq_true] at hdropped
      rw [hdropped] at hstep
      exact hstep.trans (wmIrDropSlotRhs_reduces (by rw [← hstep.nRules] at hi; exact hi))

theorem wmPhaseB_reduces (hi : i + 1 < s.nRules) :
    Reduces w (wmPhaseB w o new i s).1 s (wmPhaseB w o new i s).2 := by
  unfold wmPhaseB
  split
  · exact .refl
  · exact wmIrDropSlot_reduces _ _ hi

theorem wmPhaseC_reduces (o : RuleOptions) (new : List (FTerm × FTerm)) (first count : ℕ) (hi : i < s.nRules) :
    Reduces w false s (wmPhaseC w o new first count s i) := by
  unfold wmPhaseC
  split
  · exact .refl
  · split
    · exact .refl
    · next hlive =>
      refine .composeRhs hi fun _ => ?_
      rw [Bool.or_eq_true, not_or] at hlive
      exact .inl (by simpa using hlive.1)

/-- Rows are taken out or composed. -/
structure Thins (w : RuleWorld) (s s' : RuleSlots) : Prop where
  inv : Inv w s → Inv w s'
  rows : List.SublistForall₂ RuleRow.ComposedFrom s'.rows s.rows

theorem Thins.trans (h : Thins w s s') (h' : Thins w s' s'') : Thins w s s'' :=
  ⟨fun hinv => h'.inv (h.inv hinv), trans_of _ h'.rows h.rows⟩

theorem Reduces.thins {d : Bool} (h : Reduces w d s s') : Thins w s s' := ⟨h.inv, h.rows⟩

/-- A sweep below the top leaves the top where the next sweep needs it. -/
theorem sweep_thins (step : ℕ → RuleSlots → Bool × RuleSlots) {cond : ℕ → RuleSlots → Prop}
    (hstep : ∀ i s, cond i s → i + 1 < s.nRules → Reduces w (step i s).1 s (step i s).2)
    (hcond : Sweeps step cond rest 0 s) (hroom : rest < s.nRules) :
    Thins w s (sweep step rest 0 s).2 ∧
      rest - (sweep step rest 0 s).1 < (sweep step rest 0 s).2.nRules := by
  have hloop := sweep_invariant (I := fun rest i t => Thins w s t ∧ i + rest < t.nRules)
    (i := 0) (s := s) ?_ ?_ hcond
    ⟨Reduces.refl.thins, by omega⟩
  · simpa using hloop
  · rintro rest i t hc ⟨ht, hlt⟩ hd
    have h := hstep i t hc (by omega)
    have hn := h.nRules
    rw [hd] at hn
    refine ⟨ht.trans h.thins, ?_⟩
    change (step i t).2.nRules + 1 = t.nRules at hn
    omega
  · rintro rest i t hc ⟨ht, hlt⟩ hd
    have h := hstep i t hc (by omega)
    have hn := h.nRules
    rw [hd] at hn
    refine ⟨ht.trans h.thins, ?_⟩
    change (step i t).2.nRules = t.nRules at hn
    omega

theorem foldl_wmPhaseC_thins {is : List ℕ} (his : ∀ i ∈ is, i < s.nRules) :
    Thins w s (is.foldl (wmPhaseC w o new first count) s) := by
  induction is generalizing s with
  | nil => exact Reduces.refl.thins
  | cons i is ih =>
    have h := wmPhaseC_reduces (w := w) o new first count
      (his i List.mem_cons_self)
    exact h.thins.trans (ih fun j hj => (his j (List.mem_cons_of_mem _ hj)).trans_eq h.nRules.symm)

theorem thvmAtpInterreduceWm_thins (hfirst : first < s.nRules) :
    Thins w s (s.thvmAtpInterreduceWm w o first count) := by
  unfold thvmAtpInterreduceWm
  dsimp only
  obtain ⟨hA, htopA⟩ := sweep_thins (w := w) (wmPhaseA w o (s.sides first (min count 2)))
    (fun i s _ hi => wmPhaseA_reduces hi) (sweeps_of_forall fun _ _ => trivial) hfirst
  obtain ⟨hB, -⟩ := sweep_thins (w := w) (wmPhaseB w o (s.sides first (min count 2)))
    (fun i s _ hi => wmPhaseB_reduces hi) (sweeps_of_forall fun _ _ => trivial) htopA
  split
  · exact (hA.trans hB).trans (foldl_wmPhaseC_thins fun i hi => List.mem_range.mp hi)
  · exact hA.trans hB

/-- The two passes come to no slot where they go wrong. -/
def InterreduceSafe (w : RuleWorld) (o : RuleOptions) (s : RuleSlots) (first count : ℕ) : Prop :=
  o.useWmInterred = false →
    let new := s.sides first (min count 2)
    let (d, s') := sweep (interreduceSlot w o new) first 0 s
    Sweeps (interreduceSlot w o new) (fun i s => ¬StaleFlag w o new i s) first 0 s ∧
      ((o.useRhsInterreduce || o.useBwdDemod) = true →
        Sweeps (interreduceSlotPass2 w o new) (fun i s => ¬StaysBehind w o new i s) (first - d) 0 s')

theorem thvmAtpInterreduce_thins (hfirst : first + count ≤ s.nRules)
    (hsafe : InterreduceSafe w o s first count) : Thins w s (s.thvmAtpInterreduce w o first count) := by
  unfold thvmAtpInterreduce
  split
  · exact Reduces.refl.thins
  · split
    · exact thvmAtpInterreduceWm_thins (by omega)
    · next hwm =>
      obtain ⟨hflags, hlevel⟩ := hsafe (by simpa using hwm)
      obtain ⟨h₁, htop⟩ := sweep_thins _ (fun i s hc hi => interreduceSlot_reduces hi hc) hflags (by omega)
      dsimp only
      split
      · next hpass => exact h₁.trans (sweep_thins _
          (fun i s hc hi => interreduceSlotPass2_reduces hi hc) (hlevel hpass) htop).1
      · exact h₁

end RuleSlots

end Thvm.Atp
