import Thvm.LocatedTerms
import Thvm.OrderLoops
import Thvm.PathOrder

/-!
# `thvm_rpo`

The recursive path ordering with a lexicographic or multiset status for every symbol.
The recursion goes through a memo of verdicts that lives for one call.
-/

namespace Thvm.Rpo

open MemoTables

inductive RpoStatus
  | lex | mul
  deriving DecidableEq, Repr

structure RpoConfig where
  precedence : ℕ → ℕ
  status : Option (ℕ → RpoStatus)
  nLabels : ℕ

def RpoConfig.prec (cfg : RpoConfig) (label : ℕ) : ℕ :=
  if label < cfg.nLabels then cfg.precedence label else 0

def rpoStatusIsMul (cfg : RpoConfig) (label : ℕ) : Bool :=
  match cfg.status with
  | none => false
  | some status => if cfg.nLabels ≤ label then false else status label = .mul

def rpoMemoSize : ℕ := 4096

abbrev RpoMemo := Memo (Term × Term) ℕ

/-- The table at the start of the program, all zero with `g_rpo_epoch` at one. -/
def rpoMemoStart : RpoMemo := .zeroed (⟨false, .app, 0, 0⟩, ⟨false, .app, 0, 0⟩) 0 1

def rpoSlot (s t : Term) : ℕ :=
  ((s.bits * 0x9E3779B97F4A7C15 % 2 ^ 64) ^^^ (t.bits * 0xBF58476D1CE4E5B9 % 2 ^ 64)) % rpoMemoSize

abbrev RpoM := StateM RpoMemo

def rpoEq (s t : LTerm) : Bool := kboEq s.erase t.erase

section Helpers

variable (rec : LTerm → LTerm → RpoM Cmp)

def rpoDominatesAllArgs (s : LTerm) (bs : List LTerm) : RpoM Bool := dominatesAll rec s bs

def rpoSomeArgDominates (t : LTerm) (as : List LTerm) : RpoM Bool := someDominates rec t as

def rpoLex (as bs : List LTerm) : RpoM Cmp := lexCompare rec as bs

def rpoMaxKids : ℕ := 16

/-- The unused elements of `T` when the first one equal to `a` is used. -/
def rpoUse (a : LTerm) : List LTerm → RpoM (Option (List LTerm))
  | [] => pure none
  | b :: bs => do
    let c ← rec a b
    if c = .eq then pure (some bs) else do
      let rest ← rpoUse a bs
      pure (rest.map (b :: ·))

/-- Phase 1 of `rpo_multi`: what stays unused on both sides. -/
def rpoCancel : List LTerm → List LTerm → RpoM (List LTerm × List LTerm)
  | [], ts => pure ([], ts)
  | a :: as, ts => do
    let used ← rpoUse rec a ts
    match used with
    | some ts' => rpoCancel as ts'
    | none => do
      let rest ← rpoCancel as ts
      pure (a :: rest.1, rest.2)

/-- Some element of the list is above `b`. -/
def rpoFound (b : LTerm) : List LTerm → RpoM Bool
  | [] => pure false
  | a :: as => do
    let c ← rec a b
    if c = .gt then pure true else rpoFound b as

/-- Phase 2 of `rpo_multi`: every element of the second list is below one of the first. -/
def rpoAllDominated (as : List LTerm) : List LTerm → RpoM Bool
  | [] => pure true
  | b :: bs => do
    let found ← rpoFound rec b as
    if found then rpoAllDominated as bs else pure false

def rpoMultiRest : List LTerm → List LTerm → RpoM Cmp
  | [], [] => pure .eq
  | _ :: _, [] => pure .gt
  | [], _ :: _ => pure .lt
  | as, bs => do
    let allT ← rpoAllDominated rec as bs
    if allT then pure .gt else do
      let allS ← rpoAllDominated rec bs as
      if allS then pure .lt else pure .un

def rpoMulti (as bs : List LTerm) : RpoM Cmp :=
  if rpoMaxKids < as.length ∨ rpoMaxKids < bs.length then pure .un else do
    let rest ← rpoCancel rec as bs
    rpoMultiRest rec rest.1 rest.2

/-- The winner of the lexicographic comparison must dominate the other side. -/
def rpoLexVerdict (s t : LTerm) (as bs : List LTerm) : Cmp → RpoM Cmp
  | .eq => pure .eq
  | .gt => do
    let all ← rpoDominatesAllArgs rec s bs
    if all then pure .gt else pure .un
  | .lt => do
    let all ← rpoDominatesAllArgs rec t as
    if all then pure .lt else pure .un
  | _ => pure .un

/-- Cases (2) and (3): the top symbols are compared. -/
def rpoHeads (cfg : RpoConfig) (s t : LTerm) (labS labT : ℕ) (as bs : List LTerm) : RpoM Cmp :=
  if cfg.prec labT < cfg.prec labS then do
    let all ← rpoDominatesAllArgs rec s bs
    if all then pure .gt else pure .un
  else if cfg.prec labS < cfg.prec labT then do
    let all ← rpoDominatesAllArgs rec t as
    if all then pure .lt else pure .un
  else if as.length ≠ bs.length then pure .un
  else if rpoStatusIsMul cfg labS then rpoMulti rec as bs
  else do
    let lex ← rpoLex rec as bs
    rpoLexVerdict rec s t as bs lex

def rpoRecCompute (cfg : RpoConfig) (s t : LTerm) : RpoM Cmp :=
  if rpoEq s t then pure .eq else
    match s, t with
    | .leaf (.fvr _), .leaf (.fvr _) => pure .un
    | .leaf (.fvr x), t => pure (if varOccursIn t x then .lt else .un)
    | s, .leaf (.fvr y) => pure (if varOccursIn s y then .gt else .un)
    | .node c as, .node d bs => do
      let left ← rpoSomeArgDominates rec (.node d bs) as
      if left then pure .gt else do
        let right ← rpoSomeArgDominates rec (.node c as) bs
        if right then pure .lt else
          rpoHeads rec cfg (.node c as) (.node d bs) c.label d.label as bs
    | _, _ => pure .un

end Helpers

/-- `rpo_rec`, which goes through the memo; `fuel` bounds the depth of the recursion. -/
def rpoRec (cfg : RpoConfig) : ℕ → LTerm → LTerm → RpoM Cmp
  | 0, _, _ => pure .un
  | fuel + 1, s, t =>
    memoised (rpoSlot s.word t.word) (s.word, t.word) Cmp.byte Cmp.ofByte
      (rpoRecCompute (rpoRec cfg fuel) cfg s t)

def thvmRpo (cfg : RpoConfig) (s t : LTerm) : RpoM Cmp := do
  modify Memo.invalidate
  rpoRec cfg (s.size + t.size) s t

end Thvm.Rpo

/-!
## `thvm_rpo` decides the recursive path ordering
-/

namespace Thvm.Rpo

open MemoTables PathOrder TermTree

/-- The multiset status as a property of labels. -/
def RpoConfig.Mul (cfg : RpoConfig) (label : ℕ) : Prop := rpoStatusIsMul cfg label = true

abbrev RpoGt (cfg : RpoConfig) : FTerm → FTerm → Prop := Gt cfg.prec cfg.Mul

abbrev RpoEqv (cfg : RpoConfig) : FTerm → FTerm → Prop := Eqv cfg.Mul

open Classical in
/-- The verdict of the ordering itself. -/
noncomputable def rpoVerdict (cfg : RpoConfig) (s t : FTerm) : Cmp :=
  if RpoEqv cfg s t then .eq else if RpoGt cfg s t then .gt else if RpoGt cfg t s then .lt else .un

section Verdict

variable {cfg : RpoConfig} {s t : FTerm}

theorem rpoVerdict_of_eqv (h : RpoEqv cfg s t) : rpoVerdict cfg s t = .eq := if_pos h

theorem rpoVerdict_of_gt (h : RpoGt cfg s t) : rpoVerdict cfg s t = .gt := by
  rw [rpoVerdict, if_neg h.not_eqv, if_pos h]

theorem rpoVerdict_of_lt (h : RpoGt cfg t s) : rpoVerdict cfg s t = .lt := by
  rw [rpoVerdict, if_neg fun he => h.not_eqv he.symm, if_neg h.asymm, if_pos h]

theorem rpoVerdict_of_not (heqv : ¬ RpoEqv cfg s t) (hgt : ¬ RpoGt cfg s t)
    (hlt : ¬ RpoGt cfg t s) : rpoVerdict cfg s t = .un := by
  rw [rpoVerdict, if_neg heqv, if_neg hgt, if_neg hlt]

theorem rpoVerdict_eq_iff : rpoVerdict cfg s t = .eq ↔ RpoEqv cfg s t := by
  unfold rpoVerdict
  split_ifs <;> simp_all

theorem rpoVerdict_gt_iff : rpoVerdict cfg s t = .gt ↔ RpoGt cfg s t := by
  constructor
  · intro h
    unfold rpoVerdict at h
    split_ifs at h with _ hgt
    exact hgt
  · exact rpoVerdict_of_gt

theorem rpoVerdict_lt_iff : rpoVerdict cfg s t = .lt ↔ RpoGt cfg t s := by
  constructor
  · intro h
    unfold rpoVerdict at h
    split_ifs at h with _ _ hlt
    exact hlt
  · exact rpoVerdict_of_lt

theorem rpoVerdict_ne_raw (cfg : RpoConfig) (s t : FTerm) : rpoVerdict cfg s t ≠ .raw := by
  unfold rpoVerdict
  split_ifs <;> simp

theorem rpoVerdict_flip (cfg : RpoConfig) (s t : FTerm) :
    rpoVerdict cfg t s = (rpoVerdict cfg s t).flip := by
  cases h : rpoVerdict cfg s t with
  | eq => exact rpoVerdict_of_eqv (rpoVerdict_eq_iff.mp h).symm
  | gt => exact rpoVerdict_of_lt (rpoVerdict_gt_iff.mp h)
  | lt => exact rpoVerdict_of_gt (rpoVerdict_lt_iff.mp h)
  | raw => exact absurd h (rpoVerdict_ne_raw cfg s t)
  | un =>
    apply rpoVerdict_of_not
    · intro he
      rw [rpoVerdict_of_eqv he.symm] at h
      cases h
    · intro hgt
      rw [rpoVerdict_of_lt hgt] at h
      cases h
    · intro hlt
      rw [rpoVerdict_of_gt hlt] at h
      cases h

end Verdict

/-! ### The loops -/

/-- What stays when equal elements are used up. -/
def leftover (v : LTerm → LTerm → Cmp) : List LTerm → List LTerm → List LTerm × List LTerm
  | [], ts => ([], ts)
  | a :: as, ts =>
    if ∃ b ∈ ts, v a b = .eq then leftover v as (ts.eraseP fun b => v a b = .eq)
    else (a :: (leftover v as ts).1, (leftover v as ts).2)

section Loops

variable {I : RpoMemo → Prop} {rec : LTerm → LTerm → RpoM Cmp} {v : LTerm → LTerm → Cmp}
  {s t a b : LTerm} {as bs : List LTerm}

theorem rpoDominatesAllArgs_answers (h : ∀ b ∈ bs, Answers I (rec s b) (v s b)) :
    Answers I (rpoDominatesAllArgs rec s bs) (decide (∀ b ∈ bs, v s b = .gt)) :=
  dominatesAll_answers .eq h

theorem rpoSomeArgDominates_answers (h : ∀ a ∈ as, Answers I (rec a t) (v a t)) :
    Answers I (rpoSomeArgDominates rec t as) (decide (∃ a ∈ as, v a t = .eq ∨ v a t = .gt)) :=
  someDominates_answers .eq h

theorem rpoLex_answers (h : ∀ a ∈ as, ∀ b ∈ bs, Answers I (rec a b) (v a b)) :
    Answers I (rpoLex rec as bs) (firstOther v as bs) := lexCompare_ensures .eq h

theorem rpoUse_answers (h : ∀ b ∈ bs, Answers I (rec a b) (v a b)) :
    Answers I (rpoUse rec a bs)
      (if ∃ b ∈ bs, v a b = .eq then some (bs.eraseP fun b => v a b = .eq) else none) := by
  induction bs with
  | nil => exact (Answers.pure none).cast (by simp)
  | cons b bs ih =>
    rw [List.forall_mem_cons] at h
    apply h.1.bind
    split
    · next hv => exact (Answers.pure _).cast (by simp [hv])
    · next hv =>
      apply (ih h.2).bind
      apply (Answers.pure _).cast
      split <;> simp_all

theorem leftover_subset (v : LTerm → LTerm → Cmp) (as bs : List LTerm) :
    (leftover v as bs).1 ⊆ as ∧ (leftover v as bs).2 ⊆ bs := by
  induction as generalizing bs with
  | nil => exact ⟨List.Subset.refl _, List.Subset.refl _⟩
  | cons a as ih =>
    rw [leftover]
    split
    · obtain ⟨hleft, hright⟩ := ih (bs.eraseP fun b => v a b = .eq)
      exact ⟨List.Subset.trans hleft (List.subset_cons_self a as),
        List.Subset.trans hright List.eraseP_subset⟩
    · obtain ⟨hleft, hright⟩ := ih bs
      exact ⟨List.cons_subset_cons a hleft, hright⟩

theorem rpoCancel_answers (h : ∀ a ∈ as, ∀ b ∈ bs, Answers I (rec a b) (v a b)) :
    Answers I (rpoCancel rec as bs) (leftover v as bs) := by
  induction as generalizing bs with
  | nil => exact Answers.pure _
  | cons a as ih =>
    apply (rpoUse_answers (h a List.mem_cons_self)).bind
    rw [leftover]
    split
    · next hused =>
      split at hused
      · next hex =>
        cases hused
        rw [if_pos hex]
        apply ih
        exact fun a' ha' b hb => h a' (List.mem_cons_of_mem a ha') b (List.eraseP_subset hb)
      · cases hused
    · next hused =>
      split at hused
      · cases hused
      · next hex =>
        rw [if_neg hex]
        apply (ih fun a' ha' => h a' (List.mem_cons_of_mem a ha')).bind
        exact Answers.pure _

theorem rpoFound_answers (h : ∀ a ∈ as, Answers I (rec a b) (v a b)) :
    Answers I (rpoFound rec b as) (decide (∃ a ∈ as, v a b = .gt)) := by
  induction as with
  | nil => exact (Answers.pure false).cast (by simp)
  | cons a as ih =>
    rw [List.forall_mem_cons] at h
    apply h.1.bind
    split
    · next hv => exact (Answers.pure true).cast (by simp [hv])
    · next hv => exact (ih h.2).cast (by simp [hv])

theorem rpoAllDominated_answers (h : ∀ a ∈ as, ∀ b ∈ bs, Answers I (rec a b) (v a b)) :
    Answers I (rpoAllDominated rec as bs) (decide (∀ b ∈ bs, ∃ a ∈ as, v a b = .gt)) := by
  induction bs with
  | nil => exact (Answers.pure true).cast (by simp)
  | cons b bs ih =>
    apply (rpoFound_answers fun a ha => h a ha b List.mem_cons_self).bind
    split
    · next hv =>
      apply (ih fun a ha b' hb' => h a ha b' (List.mem_cons_of_mem b hb')).cast
      simp [of_decide_eq_true hv]
    · next hv =>
      apply (Answers.pure false).cast
      simp_all

end Loops

/-! ### The cases of the ordering -/

section Cases

variable {cfg : RpoConfig} {I : RpoMemo → Prop} {rec : LTerm → LTerm → RpoM Cmp} {f g : ℕ}
  {s t : LTerm} {as bs : List LTerm}

noncomputable abbrev locatedVerdict (cfg : RpoConfig) (s t : LTerm) : Cmp := rpoVerdict cfg s.erase t.erase

/-- The classes of located terms. -/
def erasedClasses (cfg : RpoConfig) (as : List LTerm) : Multiset (Class Leaf cfg.Mul) :=
  classes cfg.Mul (as.map LTerm.erase)

@[simp] theorem erasedClasses_nil : erasedClasses cfg [] = 0 := rfl

@[simp] theorem erasedClasses_cons (a : LTerm) :
    erasedClasses cfg (a :: as) = Quotient.mk _ a.erase ::ₘ erasedClasses cfg as := rfl

theorem mk_mem_erasedClasses (cfg : RpoConfig) {a : LTerm} (ha : a ∈ as) :
    Quotient.mk _ a.erase ∈ erasedClasses cfg as :=
  mem_classes.mpr ⟨a.erase, List.mem_map_of_mem ha, rfl⟩

theorem mem_erasedClasses {q : Class Leaf cfg.Mul} :
    q ∈ erasedClasses cfg as ↔ ∃ a ∈ as, Quotient.mk _ a.erase = q := by
  simp [erasedClasses, mem_classes]

theorem erasedClasses_eraseP {a : LTerm} (h : ∃ b ∈ bs, locatedVerdict cfg a b = .eq) :
    erasedClasses cfg bs = Quotient.mk _ a.erase ::ₘ
      erasedClasses cfg (bs.eraseP fun b => locatedVerdict cfg a b = .eq) := by
  obtain ⟨b, hb, hab⟩ := h
  obtain ⟨c, pre, post, -, hc, rfl, herase⟩ :=
    List.exists_of_eraseP (p := fun b => locatedVerdict cfg a b = .eq) hb (by simpa using hab)
  have heqv := rpoVerdict_eq_iff.mp (of_decide_eq_true hc)
  rw [herase, mk_eq_iff.mpr heqv, ← erasedClasses_cons]
  exact Multiset.coe_eq_coe.mpr ((List.perm_middle.map LTerm.erase).map _)

/-- `xs` and `ys` are what is left of `as` and `bs` when nothing more can be cancelled. -/
structure Cancelled (cfg : RpoConfig) (as bs xs ys : List LTerm) : Prop where
  classes : ∃ Z, erasedClasses cfg as = Z + erasedClasses cfg xs ∧
    erasedClasses cfg bs = Z + erasedClasses cfg ys
  disjoint : ∀ q ∈ erasedClasses cfg xs, q ∉ erasedClasses cfg ys

theorem Cancelled.swap {xs ys : List LTerm} (h : Cancelled cfg as bs xs ys) :
    Cancelled cfg bs as ys xs where
  classes := by
    obtain ⟨Z, hleft, hright⟩ := h.classes
    exact ⟨Z, hright, hleft⟩
  disjoint q hq hq' := h.disjoint q hq' hq

theorem leftover_classes (cfg : RpoConfig) (as bs : List LTerm) :
    ∃ Z, erasedClasses cfg as = Z + erasedClasses cfg (leftover (locatedVerdict cfg) as bs).1 ∧
      erasedClasses cfg bs = Z + erasedClasses cfg (leftover (locatedVerdict cfg) as bs).2 := by
  induction as generalizing bs with
  | nil => exact ⟨0, by simp [leftover], by simp [leftover]⟩
  | cons a as ih =>
    rw [leftover]
    split
    · next hex =>
      obtain ⟨Z, hleft, hright⟩ := ih (bs.eraseP fun b => locatedVerdict cfg a b = .eq)
      refine ⟨Quotient.mk _ a.erase ::ₘ Z, ?_, ?_⟩
      · rw [erasedClasses_cons, hleft, Multiset.cons_add]
      · rw [erasedClasses_eraseP hex, hright, Multiset.cons_add]
    · obtain ⟨Z, hleft, hright⟩ := ih bs
      refine ⟨Z, ?_, hright⟩
      rw [erasedClasses_cons, erasedClasses_cons, hleft, Multiset.add_cons]

theorem leftover_disjoint (cfg : RpoConfig) (as bs : List LTerm) :
    ∀ q ∈ erasedClasses cfg (leftover (locatedVerdict cfg) as bs).1,
      q ∉ erasedClasses cfg (leftover (locatedVerdict cfg) as bs).2 := by
  induction as generalizing bs with
  | nil =>
    intro q hq
    exact absurd hq (Multiset.notMem_zero q)
  | cons a as ih =>
    rw [leftover]
    split
    · exact ih _
    · next hex =>
      intro q hq hq'
      rw [erasedClasses_cons] at hq
      rcases Multiset.mem_cons.mp hq with rfl | hq
      · obtain ⟨b, hb, hba⟩ := mem_erasedClasses.mp hq'
        have heqv := mk_eq_iff.mp hba
        exact hex ⟨b, (leftover_subset _ as bs).2 hb, rpoVerdict_eq_iff.mpr heqv.symm⟩
      · exact ih bs q hq hq'

/-- Greedy cancellation cancels everything. -/
theorem leftover_cancelled (cfg : RpoConfig) (as bs : List LTerm) :
    Cancelled cfg as bs (leftover (locatedVerdict cfg) as bs).1
      (leftover (locatedVerdict cfg) as bs).2 :=
  ⟨leftover_classes cfg as bs, leftover_disjoint cfg as bs⟩

theorem rpoMultiRest_answers {v : LTerm → LTerm → Cmp}
    (h : ∀ a ∈ as, ∀ b ∈ bs, Answers I (rec a b) (v a b))
    (h' : ∀ b ∈ bs, ∀ a ∈ as, Answers I (rec b a) (v b a)) :
    Answers I (rpoMultiRest rec as bs)
      (if as = [] ∧ bs = [] then .eq
      else if as ≠ [] ∧ ∀ b ∈ bs, ∃ a ∈ as, v a b = .gt then .gt
      else if bs ≠ [] ∧ ∀ a ∈ as, ∃ b ∈ bs, v b a = .gt then .lt else .un) := by
  cases as with
  | nil =>
    cases bs with
    | nil => exact Answers.pure _
    | cons b bs => exact (Answers.pure _).cast (by simp)
  | cons a as =>
    cases bs with
    | nil => exact (Answers.pure _).cast (by simp)
    | cons b bs =>
      apply (rpoAllDominated_answers h).bind
      split
      · next hall =>
        exact (Answers.pure _).cast (by rw [if_neg (by simp), if_pos ⟨by simp, of_decide_eq_true hall⟩])
      · next hall =>
        rw [decide_eq_true_iff] at hall
        apply (rpoAllDominated_answers h').bind
        split
        · next hall' =>
          apply (Answers.pure _).cast
          rw [if_neg (by simp), if_neg fun hc => hall hc.2, if_pos ⟨by simp, of_decide_eq_true hall'⟩]
        · next hall' =>
          rw [decide_eq_true_iff] at hall'
          apply (Answers.pure _).cast
          rw [if_neg (by simp), if_neg fun hc => hall hc.2, if_neg fun hc => hall' hc.2]

section Multi

variable {xs ys : List LTerm}

theorem Cancelled.gt_iff (h : Cancelled cfg as bs xs ys)
    (hno : NoArgGe cfg.prec cfg.Mul f f (as.map LTerm.erase) (bs.map LTerm.erase))
    (hmul : cfg.Mul f) (hlen : as.length = bs.length) :
    RpoGt cfg (.node f (as.map LTerm.erase)) (.node f (bs.map LTerm.erase)) ↔
      xs ≠ [] ∧ ∀ b ∈ ys, ∃ a ∈ xs, locatedVerdict cfg a b = .gt := by
  have habove := hno.gt_mul_iff hmul (by simpa using hlen)
  obtain ⟨Z, hleft, hright⟩ := h.classes
  refine habove.trans ?_
  rw [← erasedClasses, ← erasedClasses, hleft, hright, MultisetOrder.above_iff h.disjoint]
  apply and_congr
  · simp [erasedClasses, PathOrder.classes]
  · constructor
    · intro h b hb
      obtain ⟨q, hq, hqb⟩ := h _ (mk_mem_erasedClasses cfg hb)
      obtain ⟨a, ha, rfl⟩ := mem_erasedClasses.mp hq
      exact ⟨a, ha, rpoVerdict_of_gt hqb⟩
    · intro h q hq
      obtain ⟨b, hb, rfl⟩ := mem_erasedClasses.mp hq
      obtain ⟨a, ha, hab⟩ := h b hb
      exact ⟨_, mk_mem_erasedClasses cfg ha, rpoVerdict_gt_iff.mp hab⟩

theorem Cancelled.eqv_iff (h : Cancelled cfg as bs xs ys) (hmul : cfg.Mul f) :
    RpoEqv cfg (.node f (as.map LTerm.erase)) (.node f (bs.map LTerm.erase)) ↔ xs = [] ∧ ys = [] := by
  have hclasses : RpoEqv cfg (.node f (as.map LTerm.erase)) (.node f (bs.map LTerm.erase)) ↔
      erasedClasses cfg as = erasedClasses cfg bs := by
    constructor
    · intro h
      exact matches_iff.mp h.args
    · intro h
      obtain ⟨cs, hcs, hperm⟩ := matches_iff.mpr h
      exact .of_perm hmul hperm hcs
  obtain ⟨Z, hleft, hright⟩ := h.classes
  rw [hclasses, hleft, hright, Multiset.add_right_inj]
  constructor
  · intro heq
    have hxs : xs = [] := by
      apply List.eq_nil_iff_forall_not_mem.mpr
      intro x hx
      have hmem := mk_mem_erasedClasses cfg hx
      exact h.disjoint _ hmem (heq ▸ hmem)
    have hys : ys = [] := by
      apply List.eq_nil_iff_forall_not_mem.mpr
      intro y hy
      have hmem := mk_mem_erasedClasses cfg hy
      exact h.disjoint _ (heq ▸ hmem) hmem
    exact ⟨hxs, hys⟩
  · rintro ⟨rfl, rfl⟩
    rfl

theorem rpoMulti_answers (hno : NoArgGe cfg.prec cfg.Mul f f (as.map LTerm.erase) (bs.map LTerm.erase))
    (hmul : cfg.Mul f) (hlen : as.length = bs.length) (hcap : as.length ≤ rpoMaxKids)
    (h : ∀ a ∈ as, ∀ b ∈ bs, Answers I (rec a b) (locatedVerdict cfg a b))
    (h' : ∀ b ∈ bs, ∀ a ∈ as, Answers I (rec b a) (locatedVerdict cfg b a)) :
    Answers I (rpoMulti rec as bs)
      (rpoVerdict cfg (.node f (as.map LTerm.erase)) (.node f (bs.map LTerm.erase))) := by
  have hfits : ¬ (rpoMaxKids < as.length ∨ rpoMaxKids < bs.length) := by omega
  rw [rpoMulti, if_neg hfits]
  apply (rpoCancel_answers h).bind
  obtain ⟨hleft, hright⟩ := leftover_subset (locatedVerdict cfg) as bs
  apply Answers.cast (rpoMultiRest_answers (fun a ha b hb => h a (hleft ha) b (hright hb))
    fun b hb a ha => h' b (hright hb) a (hleft ha))
  have hcancel := leftover_cancelled cfg as bs
  have heqv := hcancel.eqv_iff (f := f) hmul
  have hgt := hcancel.gt_iff hno hmul hlen
  have hlt := hcancel.swap.gt_iff hno.swap hmul hlen.symm
  rw [rpoVerdict]
  simp only [heqv, hgt, hlt]

end Multi

section Lex

theorem firstOther_eq_iff (hlen : as.length = bs.length) :
    firstOther (locatedVerdict cfg) as bs = .eq ↔
      List.Forall₂ (RpoEqv cfg) (as.map LTerm.erase) (bs.map LTerm.erase) := by
  induction as generalizing bs with
  | nil =>
    obtain rfl := List.length_eq_zero_iff.mp hlen.symm
    simp [firstOther]
  | cons a as ih =>
    cases bs with
    | nil => cases hlen
    | cons b bs =>
      have htail := ih (Nat.succ.inj hlen)
      rw [firstOther, List.map_cons, List.map_cons, List.forall₂_cons, ← htail,
        ← rpoVerdict_eq_iff]
      split
      · next hv => simp [hv]
      · next hv => simp [not_not.mp hv]

theorem firstOther_gt_iff : firstOther (locatedVerdict cfg) as bs = .gt ↔
    LexOrder.Above (RpoEqv cfg) (RpoGt cfg) (as.map LTerm.erase) (bs.map LTerm.erase) := by
  induction as generalizing bs with
  | nil => simp [firstOther, LexOrder.Above]
  | cons a as ih =>
    cases bs with
    | nil => simp [firstOther, LexOrder.Above]
    | cons b bs =>
      rw [firstOther, List.map_cons, List.map_cons, LexOrder.above_cons, ← ih,
        ← rpoVerdict_eq_iff, ← rpoVerdict_gt_iff]
      split
      · next hv => simp [hv]
      · next hv => simp [not_not.mp hv]

theorem firstOther_flip (as bs : List LTerm) :
    firstOther (locatedVerdict cfg) bs as = (firstOther (locatedVerdict cfg) as bs).flip := by
  induction as generalizing bs with
  | nil =>
    cases bs <;> rfl
  | cons a as ih =>
    cases bs with
    | nil => rfl
    | cons b bs =>
      have hflip : locatedVerdict cfg b a = (locatedVerdict cfg a b).flip := rpoVerdict_flip ..
      rw [firstOther, firstOther, ih, hflip]
      cases locatedVerdict cfg a b <;> rfl

end Lex

/-- The verdict when the first symbol has the higher precedence. -/
theorem rpoVerdict_prec {as bs : List FTerm} (h : NoArgGe cfg.prec cfg.Mul f g as bs)
    (hprec : cfg.prec g < cfg.prec f) :
    ((∀ b ∈ bs, RpoGt cfg (.node f as) b) → rpoVerdict cfg (.node f as) (.node g bs) = .gt) ∧
      ((¬ ∀ b ∈ bs, RpoGt cfg (.node f as) b) →
        rpoVerdict cfg (.node f as) (.node g bs) = .un) := by
  rw [← h.gt_prec_iff hprec]
  exact ⟨rpoVerdict_of_gt,
    fun hgt => rpoVerdict_of_not (not_eqv_of_prec hprec) hgt (h.swap.not_gt_prec hprec)⟩

theorem rpoVerdict_length {as bs : List FTerm} (h : NoArgGe cfg.prec cfg.Mul f f as bs)
    (hlen : as.length ≠ bs.length) : rpoVerdict cfg (.node f as) (.node f bs) = .un := by
  apply rpoVerdict_of_not
  · exact fun heqv => hlen (Matches.length_eq heqv.args)
  · exact fun hgt => hlen (h.length_eq hgt)
  · exact fun hlt => hlen (h.swap.length_eq hlt).symm

theorem rpoEqv_lex_iff (hlex : ¬ cfg.Mul f) (as bs : List FTerm) :
    RpoEqv cfg (.node f as) (.node f bs) ↔ List.Forall₂ (RpoEqv cfg) as bs := by
  constructor
  · intro h
    rcases h.node_inv.2 with h | ⟨hmul, -⟩
    · exact h
    · exact absurd hmul hlex
  · exact Eqv.of_args

section Heads

variable {c d : Cell}

theorem rpoLexVerdict_answers
    (hno : NoArgGe cfg.prec cfg.Mul f f (as.map LTerm.erase) (bs.map LTerm.erase)) (hlex : ¬ cfg.Mul f)
    (hlen : as.length = bs.length) (hs : s.erase = .node f (as.map LTerm.erase))
    (ht : t.erase = .node f (bs.map LTerm.erase))
    (h : ∀ b ∈ bs, Answers I (rec s b) (locatedVerdict cfg s b))
    (h' : ∀ a ∈ as, Answers I (rec t a) (locatedVerdict cfg t a)) :
    Answers I (rpoLexVerdict rec s t as bs (firstOther (locatedVerdict cfg) as bs))
      (rpoVerdict cfg s.erase t.erase) := by
  have heqv := rpoEqv_lex_iff hlex (as.map LTerm.erase) (bs.map LTerm.erase)
  have hgt := hno.gt_lex_iff hlex (by simpa using hlen)
  have hlt := hno.swap.gt_lex_iff hlex (by simpa using hlen.symm)
  rw [← firstOther_eq_iff hlen] at heqv
  rw [← firstOther_gt_iff, List.forall_mem_map] at hgt hlt
  rw [firstOther_flip as bs] at hlt
  rw [← hs, ← ht] at heqv hgt hlt
  cases hfirst : firstOther (locatedVerdict cfg) as bs with
  | eq => exact (Answers.pure _).cast (rpoVerdict_of_eqv (heqv.mpr hfirst)).symm
  | gt =>
    rw [hfirst] at heqv hgt hlt
    apply (rpoDominatesAllArgs_answers h).bind
    split
    · next hall =>
      apply (Answers.pure _).cast
      have hall := of_decide_eq_true hall
      exact (rpoVerdict_of_gt (hgt.mpr ⟨fun b hb => rpoVerdict_gt_iff.mp (hall b hb), rfl⟩)).symm
    · next hall =>
      apply (Answers.pure _).cast
      rw [decide_eq_true_iff] at hall
      have hnot : ¬ RpoGt cfg s.erase t.erase :=
        fun hst => hall fun b hb => rpoVerdict_of_gt ((hgt.mp hst).1 b hb)
      exact (rpoVerdict_of_not (by simp [heqv]) hnot (by simp [hlt, Cmp.flip])).symm
  | lt =>
    rw [hfirst] at heqv hgt hlt
    apply (rpoDominatesAllArgs_answers h').bind
    split
    · next hall =>
      apply (Answers.pure _).cast
      have hall := of_decide_eq_true hall
      exact (rpoVerdict_of_lt (hlt.mpr ⟨fun a ha => rpoVerdict_gt_iff.mp (hall a ha), rfl⟩)).symm
    · next hall =>
      apply (Answers.pure _).cast
      rw [decide_eq_true_iff] at hall
      have hnot : ¬ RpoGt cfg t.erase s.erase :=
        fun hts => hall fun a ha => rpoVerdict_of_gt ((hlt.mp hts).1 a ha)
      exact (rpoVerdict_of_not (by simp [heqv]) (by simp [hgt]) hnot).symm
  | _ =>
    rw [hfirst] at heqv hgt hlt
    apply (Answers.pure _).cast
    exact (rpoVerdict_of_not (by simp [heqv]) (by simp [hgt]) (by simp [hlt, Cmp.flip])).symm

/-- Symbols with multiset status are within the child cap. -/
def RpoConfig.Capped (cfg : RpoConfig) (S : ℕ → ℕ → Prop) : Prop :=
  ∀ f n, S f n → cfg.Mul f → n ≤ rpoMaxKids

variable {S : ℕ → ℕ → Prop}

theorem rpoHeads_answers (hinj : InjectiveOn cfg.prec S) (hcap : cfg.Capped S)
    (hf : S f as.length) (hg : S g bs.length)
    (hno : NoArgGe cfg.prec cfg.Mul f g (as.map LTerm.erase) (bs.map LTerm.erase))
    (hs : s.erase = .node f (as.map LTerm.erase)) (ht : t.erase = .node g (bs.map LTerm.erase))
    (h : ∀ b ∈ bs, Answers I (rec s b) (locatedVerdict cfg s b))
    (h' : ∀ a ∈ as, Answers I (rec t a) (locatedVerdict cfg t a))
    (hargs : ∀ a ∈ as, ∀ b ∈ bs, Answers I (rec a b) (locatedVerdict cfg a b))
    (hargs' : ∀ b ∈ bs, ∀ a ∈ as, Answers I (rec b a) (locatedVerdict cfg b a)) :
    Answers I (rpoHeads rec cfg s t f g as bs) (rpoVerdict cfg s.erase t.erase) := by
  have hbelow : (∀ b ∈ bs, locatedVerdict cfg s b = .gt) ↔
      ∀ b ∈ bs.map LTerm.erase, RpoGt cfg (.node f (as.map LTerm.erase)) b := by
    rw [List.forall_mem_map, ← hs]
    exact forall₂_congr fun b hb => rpoVerdict_gt_iff
  have hbelow' : (∀ a ∈ as, locatedVerdict cfg t a = .gt) ↔
      ∀ a ∈ as.map LTerm.erase, RpoGt cfg (.node g (bs.map LTerm.erase)) a := by
    rw [List.forall_mem_map, ← ht]
    exact forall₂_congr fun a ha => rpoVerdict_gt_iff
  unfold rpoHeads
  split
  · next hprec =>
    obtain ⟨hyes, hnot⟩ := rpoVerdict_prec hno hprec
    rw [← hbelow, ← hs, ← ht] at hyes hnot
    apply (rpoDominatesAllArgs_answers h).bind
    split
    · next hall => exact (Answers.pure _).cast (hyes (of_decide_eq_true hall)).symm
    · next hall => exact (Answers.pure _).cast (hnot (by simpa using hall)).symm
  · next hprec =>
    split
    · next hprec' =>
      obtain ⟨hyes, hnot⟩ := rpoVerdict_prec hno.swap hprec'
      rw [← hbelow', ← hs, ← ht] at hyes hnot
      rw [rpoVerdict_flip cfg t.erase]
      apply (rpoDominatesAllArgs_answers h').bind
      split
      · next hall =>
        exact (Answers.pure _).cast (congrArg Cmp.flip (hyes (of_decide_eq_true hall))).symm
      · next hall =>
        exact (Answers.pure _).cast (congrArg Cmp.flip (hnot (by simpa using hall))).symm
    · next hprec' =>
      obtain rfl := hinj f g _ _ hf hg (by omega)
      split
      · next hlen =>
        rw [hs, ht]
        exact (Answers.pure _).cast (rpoVerdict_length hno (by simpa using hlen)).symm
      · next hlen =>
        rw [not_not] at hlen
        split
        · next hmul =>
          rw [hs, ht]
          exact rpoMulti_answers hno hmul hlen (hcap f _ hf hmul) hargs hargs'
        · next hmul =>
          apply (rpoLex_answers hargs).bind
          exact rpoLexVerdict_answers hno hmul hlen hs ht h h'

end Heads

section Calls

variable {W : Term → FTerm} {S : ℕ → ℕ → Prop} {c : Cell}

theorem rpoVerdict_leaf_right {l : Leaf} {t : FTerm} (hne : t ≠ .leaf l) :
    rpoVerdict cfg t (.leaf l) = if l ∈ t.leaves then .gt else .un := by
  have heqv : ¬ RpoEqv cfg t (.leaf l) := by
    intro h
    cases h
    exact hne rfl
  have hmem := (or_iff_right heqv).symm.trans (Gt.ge_leaf_iff cfg.prec cfg.Mul)
  split
  · next h => exact rpoVerdict_of_gt (hmem.mpr h)
  · next h => exact rpoVerdict_of_not heqv (fun hgt => h (hmem.mp hgt)) Gt.not_leaf

theorem rpoVerdict_occurs {x : ℕ} {t : LTerm} (hne : t.erase ≠ .fvr x) :
    rpoVerdict cfg t.erase (.fvr x) = if varOccursIn t x then .gt else .un := by
  rw [rpoVerdict_leaf_right hne]
  simp only [varOccursIn_iff, LTerm.mem_leaves_erase]

theorem exists_arg_iff : (∃ a ∈ as, locatedVerdict cfg a t = .eq ∨ locatedVerdict cfg a t = .gt) ↔
    ∃ a ∈ as.map LTerm.erase, RpoEqv cfg a t.erase ∨ RpoGt cfg a t.erase := by
  simp [rpoVerdict_eq_iff, rpoVerdict_gt_iff]

theorem gt_of_exists_arg {u : FTerm} (h : ∃ a ∈ as.map LTerm.erase, RpoEqv cfg a u ∨ RpoGt cfg a u) :
    RpoGt cfg (LTerm.erase (.node c as)) u := by
  rw [LTerm.erase_node]
  obtain ⟨a, ha, h | h⟩ := h
  · exact .argEqv ha h
  · exact .argGt ha h

theorem rpoEq_iff : rpoEq s t = true ↔ s.erase = t.erase := kboEq_iff

theorem rpoRecCompute_answers (hinj : InjectiveOn cfg.prec S) (hcap : cfg.Capped S)
    (hs : Domain W S s) (ht : Domain W S t)
    (hrec : ∀ a b, a.size + b.size < s.size + t.size → Domain W S a → Domain W S b →
      Answers I (rec a b) (locatedVerdict cfg a b)) :
    Answers I (rpoRecCompute rec cfg s t) (locatedVerdict cfg s t) := by
  unfold rpoRecCompute
  split
  · next heq =>
    apply (Answers.pure _).cast
    rw [locatedVerdict, rpoEq_iff.mp heq]
    exact (rpoVerdict_of_eqv (.refl _)).symm
  · next heq =>
    rw [rpoEq_iff] at heq
    cases s with
    | leaf l =>
      obtain ⟨x, rfl⟩ := hs.leaf
      cases t with
      | leaf l' =>
        obtain ⟨y, rfl⟩ := ht.leaf
        apply (Answers.pure _).cast
        rw [LTerm.erase_leaf, LTerm.erase_leaf] at heq
        rw [locatedVerdict, LTerm.erase_leaf, LTerm.erase_leaf, rpoVerdict_leaf_right heq, if_neg]
        rw [leaves_leaf, List.mem_singleton]
        exact fun h => heq (congrArg TermTree.leaf h.symm)
      | node d bs =>
        apply (Answers.pure _).cast
        rw [locatedVerdict, rpoVerdict_flip, LTerm.erase_leaf, rpoVerdict_occurs fun h => heq h.symm]
        split <;> rfl
    | node c as =>
      cases t with
      | leaf l' =>
        obtain ⟨y, rfl⟩ := ht.leaf
        apply (Answers.pure _).cast
        exact (rpoVerdict_occurs heq).symm
      | node d bs =>
        have hleft : ∀ a ∈ as, ∀ u, u.size ≤ (TermTree.node d bs).size → Domain W S u →
            Answers I (rec a u) (locatedVerdict cfg a u) := by
          intro a ha u hu hdom
          have := size_lt c ha
          exact hrec a u (by omega) (hs.arg ha) hdom
        have hright : ∀ b ∈ bs, ∀ u, u.size ≤ (TermTree.node c as).size → Domain W S u →
            Answers I (rec b u) (locatedVerdict cfg b u) := by
          intro b hb u hu hdom
          have := size_lt d hb
          exact hrec b u (by omega) (ht.arg hb) hdom
        apply (rpoSomeArgDominates_answers fun a ha => hleft a ha _ le_rfl ht).bind
        split
        · next hex =>
          have hex := exists_arg_iff.mp (of_decide_eq_true hex)
          exact (Answers.pure _).cast (rpoVerdict_of_gt (gt_of_exists_arg hex)).symm
        · next hex =>
          rw [decide_eq_true_iff, exists_arg_iff, LTerm.erase_node] at hex
          apply (rpoSomeArgDominates_answers fun b hb => hright b hb _ le_rfl hs).bind
          split
          · next hex' =>
            have hex' := exists_arg_iff.mp (of_decide_eq_true hex')
            exact (Answers.pure _).cast (rpoVerdict_of_lt (gt_of_exists_arg hex')).symm
          · next hex' =>
            rw [decide_eq_true_iff, exists_arg_iff, LTerm.erase_node] at hex'
            apply rpoHeads_answers hinj hcap hs.root ht.root ⟨hex, hex'⟩ (LTerm.erase_node c as)
              (LTerm.erase_node d bs)
            · intro b hb
              have := size_lt d hb
              exact hrec _ b (by omega) hs (ht.arg hb)
            · intro a ha
              have := size_lt c ha
              exact hrec _ a (by omega) ht (hs.arg ha)
            · exact fun a ha b hb => hleft a ha b (size_lt d hb).le (ht.arg hb)
            · exact fun b hb a ha => hright b hb a (size_lt c ha).le (hs.arg ha)

end Calls

end Cases

/-! ### The calls -/

section Calls

variable {cfg : RpoConfig} {W : Term → FTerm} {S : ℕ → ℕ → Prop} {s t : LTerm}

/-- What a current memo entry says. -/
def Remembers (cfg : RpoConfig) (W : Term → FTerm) (key : Term × Term) (b : ℕ) : Prop :=
  b = (rpoVerdict cfg (W key.1) (W key.2)).byte

theorem rpoRec_answers (hinj : InjectiveOn cfg.prec S) (hcap : cfg.Capped S) {fuel : ℕ}
    (hs : Domain W S s) (ht : Domain W S t) (hfuel : s.size + t.size ≤ fuel) :
    Answers (Memo.Sound (Remembers cfg W)) (rpoRec cfg fuel s t) (locatedVerdict cfg s t) := by
  induction fuel generalizing s t with
  | zero =>
    have := TermTree.size_pos s
    omega
  | succ fuel ih =>
    have hcompute := rpoRecCompute_answers hinj hcap hs ht fun a b hab ha hb => ih ha hb (by omega)
    apply memoised_answers hcompute
    · intro b hb
      rw [hb, hs.reads.word_eq, ht.reads.word_eq]
      exact Cmp.ofByte_byte (rpoVerdict_ne_raw _ _ _)
    · rw [Remembers, hs.reads.word_eq, ht.reads.word_eq]

theorem thvmRpo_run (hinj : InjectiveOn cfg.prec S) (hcap : cfg.Capped S)
    (hs : Domain W S s) (ht : Domain W S t) (memo : RpoMemo) :
    ((thvmRpo cfg s t).run memo).1 = rpoVerdict cfg s.erase t.erase :=
  (rpoRec_answers hinj hcap hs ht le_rfl _ (Memo.sound_invalidate memo)).1

/-- The verdicts are those of the recursive path ordering, from every state of the memo;
substituting and putting both terms into a context keeps `gt`. -/
theorem thvmRpo_decides (hinj : InjectiveOn cfg.prec S) (hcap : cfg.Capped S)
    (hs : Domain W S s) (ht : Domain W S t) (memo : RpoMemo) :
    (((thvmRpo cfg s t).run memo).1 = .gt ↔ RpoGt cfg s.erase t.erase) ∧
    (((thvmRpo cfg s t).run memo).1 = .eq ↔ RpoEqv cfg s.erase t.erase) ∧
    (((thvmRpo cfg s t).run memo).1 = .lt ↔ RpoGt cfg t.erase s.erase) ∧
    (∀ memo', ((thvmRpo cfg t s).run memo').1 = ((thvmRpo cfg s t).run memo).1.flip) ∧
    (((thvmRpo cfg s t).run memo).1 = .gt →
      ∀ (W' : Term → FTerm) (σ : ℕ → FTerm) (u r : FTerm) (p : List ℕ) (s' t' : LTerm)
        (memo' : RpoMemo), u.sub p = some r → Domain W' S s' → Domain W' S t' →
        s'.erase = u.put p (FTerm.inst σ s.erase) → t'.erase = u.put p (FTerm.inst σ t.erase) →
        ((thvmRpo cfg s' t').run memo').1 = .gt) := by
  rw [thvmRpo_run hinj hcap hs ht]
  refine ⟨rpoVerdict_gt_iff, rpoVerdict_eq_iff, rpoVerdict_lt_iff, fun memo' => ?_, ?_⟩
  · rw [thvmRpo_run hinj hcap ht hs, rpoVerdict_flip]
  · intro hgt W' σ u r p s' t' memo' hp hs' ht' hes het
    rw [thvmRpo_run hinj hcap hs' ht', hes, het]
    exact rpoVerdict_of_gt ((rpoVerdict_gt_iff.mp hgt).subst.put hp)

/-- `f(f(x, y), y)` and `f(y, x)` in the heap. -/
def nestedPair : LTerm × LTerm :=
  (.node ⟨1, 5⟩ [.node ⟨1, 9⟩ [.leaf (.fvr 0), .leaf (.fvr 1)], .leaf (.fvr 1)],
    .node ⟨1, 13⟩ [.leaf (.fvr 1), .leaf (.fvr 0)])

def nestedPairWorld (w : Term) : FTerm :=
  match w.tag, w.val with
  | .ctr, 5 => nestedPair.1.erase
  | .ctr, 9 => .ctr 1 [.fvr 0, .fvr 1]
  | .ctr, _ => nestedPair.2.erase
  | _, _ => .fvr w.ext

theorem thvmRpo_decides_nestedPair :
    RpoGt ⟨id, some fun _ => .mul, 8⟩ (.ctr 1 [.ctr 1 [.fvr 0, .fvr 1], .fvr 1])
      (.ctr 1 [.fvr 1, .fvr 0]) := by
  have hinj : InjectiveOn (RpoConfig.prec ⟨id, some fun _ => .mul, 8⟩) fun f n => f = 1 ∧ n = 2 := by
    rintro f g n m ⟨rfl, -⟩ ⟨rfl, -⟩ -
    rfl
  have hcap : RpoConfig.Capped ⟨id, some fun _ => .mul, 8⟩ fun f n => f = 1 ∧ n = 2 := by
    rintro f n ⟨-, rfl⟩ -
    decide
  have hleft : Domain nestedPairWorld (fun f n => f = 1 ∧ n = 2) nestedPair.1 :=
    ⟨by decide, by decide⟩
  have hright : Domain nestedPairWorld (fun f n => f = 1 ∧ n = 2) nestedPair.2 :=
    ⟨by decide, by decide⟩
  exact (thvmRpo_decides hinj hcap hleft hright rpoMemoStart).1.mp (by decide)

end Calls

end Thvm.Rpo
