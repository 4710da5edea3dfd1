import Thvm.KnuthBendixSpec

/-!
# The balance of the linear comparison

What a scope adds to the balance of variables, how often a balance leaves zero in it,
and what `kbo_lin_decide_clear` makes of it.
-/

namespace Thvm.Kbo

open TermTree

/-! ### Bumps -/

section Bumps

variable {st : KboLin} {bs : List (ℕ × ℤ)} {f : Bool} {v : ℕ}

def applyBumps (bs : List (ℕ × ℤ)) (st : KboLin) : KboLin :=
  bs.foldl (fun st b => st.bump b.1 b.2) st

@[simp] theorem applyBumps_nil (st : KboLin) : applyBumps [] st = st := rfl

theorem applyBumps_cons (b : ℕ × ℤ) (bs : List (ℕ × ℤ)) (st : KboLin) :
    applyBumps (b :: bs) st = applyBumps bs (st.bump b.1 b.2) := rfl

theorem applyBumps_append (bs cs : List (ℕ × ℤ)) (st : KboLin) :
    applyBumps (bs ++ cs) st = applyBumps cs (applyBumps bs st) := List.foldl_append

/-- How often a balance leaves zero. -/
def leavings (bal : ℕ → ℤ) : List (ℕ × ℤ) → ℕ
  | [] => 0
  | b :: bs =>
    if kboMaxVar ≤ b.1 then leavings bal bs
    else (if bal b.1 = 0 then 1 else 0) +
      leavings (Function.update bal b.1 (bal b.1 + b.2)) bs

theorem bump_bal (id : ℕ) (delta : ℤ) (v : ℕ) (hv : v < kboMaxVar) :
    (st.bump id delta).bal v = st.bal v + if id = v then delta else 0 := by
  unfold KboLin.bump
  split
  · rw [if_neg (by omega), add_zero]
  · simp only [Function.update_apply]
    split
    · next h => rw [if_pos h.symm, h]
    · next h => rw [if_neg (Ne.symm h), add_zero]

theorem applyBumps_bal (hv : v < kboMaxVar) : (applyBumps bs st).bal v = st.bal v + net v bs := by
  induction bs generalizing st with
  | nil => simp
  | cons b bs ih => rw [applyBumps_cons, ih, bump_bal _ _ _ hv, net_cons, add_assoc]

theorem applyBumps_touched :
    (applyBumps bs st).touched.length = st.touched.length + leavings st.bal bs := by
  induction bs generalizing st with
  | nil => rfl
  | cons b bs ih =>
    rw [applyBumps_cons, ih, leavings]
    unfold KboLin.bump
    by_cases hid : kboMaxVar ≤ b.1
    · rw [if_pos hid, if_pos hid]
    · rw [if_neg hid, if_neg hid]
      by_cases hzero : st.bal b.1 = 0
      · simp only [hzero, if_true, List.length_append, List.length_singleton]
        omega
      · simp only [hzero, if_false]
        omega

/-- A scope that a fault may have come before: the ids put down cover the balance, and
there is a fault when they are too many. -/
structure Scope (f : Bool) (st : KboLin) : Prop where
  fault : st.fault = (f || decide (kboMaxVar < st.touched.length))
  covered : ∀ v, st.bal v ≠ 0 → v ∈ st.touched
  below : ∀ v, st.bal v ≠ 0 → v < kboMaxVar

theorem scope_clear (f : Bool) : Scope f (.clear f) :=
  ⟨by simp [KboLin.clear], fun _ h => absurd rfl h, fun _ h => absurd rfl h⟩

theorem Scope.bump (h : Scope f st) (id : ℕ) (delta : ℤ) : Scope f (st.bump id delta) := by
  unfold KboLin.bump
  split
  · exact h
  · next hid =>
    constructor
    · rw [h.fault]
      by_cases hzero : st.bal id = 0
      · simp only [hzero, decide_true, Bool.true_and, if_true, List.length_append,
          List.length_singleton, Bool.or_assoc]
        congr 1
        rw [Bool.eq_iff_iff, Bool.or_eq_true_iff, decide_eq_true_iff, decide_eq_true_iff,
          decide_eq_true_iff]
        omega
      · simp [hzero]
    · intro v hv
      simp only [Function.update_apply] at hv
      by_cases hvid : v = id
      · subst hvid
        dsimp only
        split
        · exact List.mem_append_right _ List.mem_cons_self
        · next hne => exact h.covered v hne
      · rw [if_neg hvid] at hv
        dsimp only
        split
        · exact List.mem_append_left _ (h.covered v hv)
        · exact h.covered v hv
    · intro v hv
      simp only [Function.update_apply] at hv
      split at hv
      · omega
      · exact h.below v hv

theorem Scope.bumps (h : Scope f st) (bs : List (ℕ × ℤ)) : Scope f (applyBumps bs st) := by
  induction bs generalizing st with
  | nil => exact h
  | cons b bs ih => exact ih (h.bump b.1 b.2)

end Bumps

/-! ### Reading the balance out -/

section Decide

variable {st : KboLin} {f : Bool} {ids : List ℕ} {bal : ℕ → ℤ} {s t : FTerm} {S : ℕ → ℕ → Prop}

/-- The verdict of a positive and a negative balance. -/
def kboSigns (pos neg : Bool) : Cmp :=
  if pos then if neg then .un else .gt else if neg then .lt else .eq

theorem kboDecide_signs {pos neg : Bool} {v : ℤ} (hv : v ≠ 0) :
    kboDecide (kboSigns pos neg) v = kboSigns (pos || decide (0 < v)) (neg || decide (v < 0)) := by
  rcases lt_or_gt_of_ne hv with hlt | hgt
  · cases pos <;> cases neg <;> simp [kboSigns, kboDecide, hlt, hlt.not_gt]
  · cases pos <;> cases neg <;> simp [kboSigns, kboDecide, hgt, hgt.not_gt]

theorem any_update {p : ℤ → Bool} (hp : p 0 = false) (id : ℕ) :
    (p (bal id) || ids.any fun i => p (Function.update bal id 0 i)) =
      (p (bal id) || ids.any fun i => p (bal i)) := by
  rw [Bool.eq_iff_iff, Bool.or_eq_true_iff, Bool.or_eq_true_iff, List.any_eq_true, List.any_eq_true]
  constructor
  · rintro (h | ⟨i, hi, h⟩)
    · exact .inl h
    · rw [Function.update_apply] at h
      split at h
      · rw [hp] at h
        cases h
      · exact .inr ⟨i, hi, h⟩
  · rintro (h | ⟨i, hi, h⟩)
    · exact .inl h
    · by_cases hid : i = id
      · exact .inl (hid ▸ h)
      · exact .inr ⟨i, hi, by rwa [Function.update_apply, if_neg hid]⟩

theorem kboDecideLoop_verdict (pos neg : Bool) : (kboDecideLoop ids bal (kboSigns pos neg)).1 =
    kboSigns (pos || ids.any fun i => 0 < bal i) (neg || ids.any fun i => bal i < 0) := by
  induction ids generalizing bal pos neg with
  | nil => simp [kboDecideLoop]
  | cons id ids ih =>
    rw [kboDecideLoop, List.any_cons, List.any_cons]
    have hpos := @any_update ids bal (fun v => decide (0 < v)) rfl id
    have hneg := @any_update ids bal (fun v => decide (v < 0)) rfl id
    rw [← hpos, ← hneg]
    by_cases hzero : bal id = 0
    · rw [if_pos hzero, ih]
      simp [hzero]
    · rw [if_neg hzero, kboDecide_signs hzero, ih, Bool.or_assoc, Bool.or_assoc]

theorem kboDecideLoop_bal {erg : Cmp} (v : ℕ) :
    (kboDecideLoop ids bal erg).2 v = if v ∈ ids then 0 else bal v := by
  induction ids generalizing bal erg with
  | nil => rfl
  | cons id ids ih =>
    rw [kboDecideLoop, ih, Function.update_apply]
    by_cases hid : v = id
    · simp [hid]
    · simp [hid]

theorem foldl_zero_bal (v : ℕ) :
    ids.foldl (fun bal id => Function.update bal id 0) bal v = if v ∈ ids then 0 else bal v := by
  induction ids generalizing bal with
  | nil => rfl
  | cons id ids ih =>
    rw [List.foldl_cons, ih, Function.update_apply]
    by_cases hid : v = id
    · simp [hid]
    · simp [hid]

theorem Scope.zeroed (h : Scope f st) (v : ℕ) : (if v ∈ st.touched then 0 else st.bal v) = 0 := by
  split
  · rfl
  · next hv => exact not_not.mp fun hne => hv (h.covered v hne)

theorem kboLinClear_eq (h : Scope f st) : kboLinClear st = .clear st.fault := by
  unfold kboLinClear KboLin.clear
  congr 1
  funext v
  rw [foldl_zero_bal, h.zeroed]

/-- Which of two terms has all the variables of the other. -/
def kboVarcmp (s t : FTerm) : Cmp := kboSigns (!decide (Covers t s)) (!decide (Covers s t))

theorem any_touched (h : Scope f st) {p : ℤ → Bool} (hp : p 0 = false) :
    (st.touched.any fun i => p (st.bal i)) = true ↔ ∃ v < kboMaxVar, p (st.bal v) = true := by
  rw [List.any_eq_true]
  constructor
  · rintro ⟨v, -, hv⟩
    refine ⟨v, h.below v fun hzero => ?_, hv⟩
    rw [hzero, hp] at hv
    cases hv
  · rintro ⟨v, -, hv⟩
    refine ⟨v, h.covered v fun hzero => ?_, hv⟩
    rw [hzero, hp] at hv
    cases hv

theorem kboLinDecideClear_eq (h : Scope f st) (hs : s.Over S) (ht : t.Over S)
    (hsv : s.VarsBelow kboMaxVar) (htv : t.VarsBelow kboMaxVar)
    (hbal : ∀ v < kboMaxVar, st.bal v = varDiff s t v) :
    kboLinDecideClear st = (kboVarcmp s t, .clear st.fault) := by
  have hpos : (st.touched.any fun i => 0 < st.bal i) = !decide (Covers t s) := by
    rw [Bool.eq_iff_iff, any_touched h (p := fun v => decide (0 < v)) rfl, Bool.not_eq_true',
      decide_eq_false_iff_not, covers_iff hs hsv]
    push Not
    refine exists_congr fun v => and_congr_right fun hv => ?_
    rw [hbal v hv, varDiff_swap t, decide_eq_true_iff]
    omega
  have hneg : (st.touched.any fun i => st.bal i < 0) = !decide (Covers s t) := by
    rw [Bool.eq_iff_iff, any_touched h (p := fun v => decide (v < 0)) rfl, Bool.not_eq_true',
      decide_eq_false_iff_not, covers_iff ht htv]
    push Not
    refine exists_congr fun v => and_congr_right fun hv => ?_
    rw [hbal v hv, decide_eq_true_iff]
  unfold kboLinDecideClear
  dsimp only
  have hverdict := @kboDecideLoop_verdict st.touched st.bal false false
  rw [Bool.false_or, Bool.false_or, hpos, hneg] at hverdict
  have hzero : (kboDecideLoop st.touched st.bal .eq).2 = fun _ => 0 := by
    funext v
    rw [kboDecideLoop_bal, h.zeroed]
  rw [hzero]
  exact Prod.ext hverdict rfl

/-- A level through its weights and variables. -/
theorem kboLevel_eq (a b : Bool) (phi : ℤ) (tie : Cmp) :
    kboLevel a b phi tie = match kboPhi (kboSigns (!b) (!a)) phi with
      | some here => here
      | none => kboMapThrough (kboSigns (!b) (!a)) tie := by
  unfold kboLevel kboPhi kboSigns kboGate
  rcases lt_trichotomy phi 0 with hlt | rfl | hgt
  · cases a <;> cases b <;> simp [hlt, hlt.not_gt]
  · cases a <;> cases b <;> cases tie <;> simp [kboMapThrough]
  · cases a <;> cases b <;> simp [hgt, hgt.not_gt]

end Decide

end Thvm.Kbo
