import Thvm.LexOrder
import Thvm.MemoTables

/-!
# Verdicts and the loops over arguments

What the path orderings share: their verdicts, and the loops that compare the arguments
of two terms through a comparison with a memo.
-/

namespace Thvm

open MemoTables

/-- A value of `LpoCmp`, `RpoCmp`, `KboCmp` or `WpoCmp`; `raw` is 255, which none of them
names: the byte of `lt` when it is read back without its sign. -/
inductive Cmp
  | eq | gt | lt | un | raw
  deriving DecidableEq, Repr

namespace Cmp

/-- The verdict on the swapped pair. -/
def flip : Cmp → Cmp
  | .eq => .eq
  | .gt => .lt
  | .lt => .gt
  | .un => .un
  | .raw => .raw

/-- The byte that a memo keeps: `(u8)c` of 0, 1, -1 or 2. -/
def byte : Cmp → ℕ
  | .eq => 0
  | .gt => 1
  | .lt => 255
  | .un => 2
  | .raw => 255

/-- `(i8)e->cmp`. -/
def ofByte : ℕ → Cmp
  | 0 => .eq
  | 1 => .gt
  | 255 => .lt
  | _ => .un

/-- `e->cmp` as it is. -/
def ofRawByte : ℕ → Cmp
  | 0 => .eq
  | 1 => .gt
  | 255 => .raw
  | _ => .un

theorem ofByte_byte {c : Cmp} (h : c ≠ .raw) : ofByte c.byte = c := by
  cases c with
  | raw => exact absurd rfl h
  | _ => rfl

end Cmp

section Loops

variable {σ α β : Type} (rec : α → β → StateM σ Cmp)

/-- Everything in the list is below `a`. -/
def dominatesAll (a : α) : List β → StateM σ Bool
  | [] => pure true
  | b :: bs => do
    let c ← rec a b
    if c ≠ .gt then pure false else dominatesAll a bs

/-- Something in the list is `b` or above it. -/
def someDominates (b : β) : List α → StateM σ Bool
  | [] => pure false
  | a :: as => do
    let c ← rec a b
    if c = .eq ∨ c = .gt then pure true else someDominates b as

/-- The first verdict that is not `eq`. -/
def lexCompare : List α → List β → StateM σ Cmp
  | a :: as, b :: bs => do
    let c ← rec a b
    if c ≠ .eq then pure c else lexCompare as bs
  | _, _ => pure .eq

/-- The value of `lexCompare`. -/
def firstOther (v : α → β → Cmp) : List α → List β → Cmp
  | a :: as, b :: bs => if v a b ≠ .eq then v a b else firstOther v as bs
  | _, _ => .eq

end Loops

/-- A relation between verdicts that keeps `eq` and `gt` apart from the others. -/
structure Telling (Q : Cmp → Cmp → Prop) : Prop where
  eq_iff : ∀ {c v}, Q c v → (c = .eq ↔ v = .eq)
  gt_iff : ∀ {c v}, Q c v → (c = .gt ↔ v = .gt)
  refl : ∀ v, Q v v

theorem Telling.eq : Telling (· = ·) where
  eq_iff h := by rw [h]
  gt_iff h := by rw [h]
  refl _ := rfl

section Loops

variable {σ α β : Type} {rec : α → β → StateM σ Cmp} {I : σ → Prop} {v : α → β → Cmp}
  {Q : Cmp → Cmp → Prop} {a : α} {b : β} {as : List α} {bs : List β}

theorem dominatesAll_answers (hQ : Telling Q) (h : ∀ b ∈ bs, Ensures I (rec a b) (Q · (v a b))) :
    Answers I (dominatesAll rec a bs) (decide (∀ b ∈ bs, v a b = .gt)) := by
  induction bs with
  | nil => exact (Answers.pure true).cast (by simp)
  | cons b bs ih =>
    rw [List.forall_mem_cons] at h
    apply h.1.bind
    intro c hc
    have hgt := hQ.gt_iff hc
    split
    · next hv => exact (Answers.pure false).cast (by simp [← hgt, hv])
    · next hv => exact (ih h.2).cast (by simp [← hgt, not_not.mp hv])

theorem someDominates_answers (hQ : Telling Q) (h : ∀ a ∈ as, Ensures I (rec a b) (Q · (v a b))) :
    Answers I (someDominates rec b as) (decide (∃ a ∈ as, v a b = .eq ∨ v a b = .gt)) := by
  induction as with
  | nil => exact (Answers.pure false).cast (by simp)
  | cons a as ih =>
    rw [List.forall_mem_cons] at h
    apply h.1.bind
    intro c hc
    have heq := hQ.eq_iff hc
    have hgt := hQ.gt_iff hc
    split
    · next hv => exact (Answers.pure true).cast (by simp [← heq, ← hgt, hv])
    · next hv => exact (ih h.2).cast (by simp [← heq, ← hgt, hv])

theorem lexCompare_ensures (hQ : Telling Q)
    (h : ∀ a ∈ as, ∀ b ∈ bs, Ensures I (rec a b) (Q · (v a b))) :
    Ensures I (lexCompare rec as bs) (Q · (firstOther v as bs)) := by
  induction as generalizing bs with
  | nil => exact Ensures.pure (hQ.refl _)
  | cons a as ih =>
    cases bs with
    | nil => exact Ensures.pure (hQ.refl _)
    | cons b bs =>
      apply (h a List.mem_cons_self b List.mem_cons_self).bind
      intro c hc
      rw [firstOther, ite_not]
      simp only [← hQ.eq_iff hc, ite_not]
      split
      · exact ih fun a' ha' b' hb' =>
          h a' (List.mem_cons_of_mem a ha') b' (List.mem_cons_of_mem b hb')
      · exact Ensures.pure hc

end Loops

section FirstOther

variable {α β γ : Type} {v : α → β → Cmp} {w : β → α → Cmp} {ea : α → γ} {eb : β → γ} {r : γ → γ → Prop}
  {as : List α} {bs : List β}

theorem firstOther_eq_iff (heq : ∀ a b, v a b = .eq ↔ ea a = eb b) (hlen : as.length = bs.length) :
    firstOther v as bs = .eq ↔ as.map ea = bs.map eb := by
  induction as generalizing bs with
  | nil =>
    obtain rfl := List.length_eq_zero_iff.mp hlen.symm
    simp [firstOther]
  | cons a as ih =>
    cases bs with
    | nil => cases hlen
    | cons b bs =>
      rw [firstOther, List.map_cons, List.map_cons, List.cons.injEq, ← ih (Nat.succ.inj hlen),
        ← heq]
      split
      · next hv => simp [hv]
      · next hv => simp [not_not.mp hv]

theorem firstOther_gt_iff (heq : ∀ a b, v a b = .eq ↔ ea a = eb b)
    (hgt : ∀ a b, v a b = .gt ↔ r (ea a) (eb b)) :
    firstOther v as bs = .gt ↔ LexOrder.Above (· = ·) r (as.map ea) (bs.map eb) := by
  induction as generalizing bs with
  | nil => simp [firstOther, LexOrder.Above]
  | cons a as ih =>
    cases bs with
    | nil => simp [firstOther, LexOrder.Above]
    | cons b bs =>
      rw [firstOther, List.map_cons, List.map_cons, LexOrder.above_cons, ← ih, ← heq, ← hgt]
      split
      · next hv => simp [hv]
      · next hv => simp [not_not.mp hv]

theorem firstOther_flip (hflip : ∀ a b, v a b = (w b a).flip) :
    firstOther v as bs = (firstOther w bs as).flip := by
  induction as generalizing bs with
  | nil =>
    cases bs <;> rfl
  | cons a as ih =>
    cases bs with
    | nil => rfl
    | cons b bs =>
      rw [firstOther, firstOther, ih, hflip]
      cases hw : w b a <;> rfl

end FirstOther

end Thvm
