import Mathlib.Data.List.Nodup
import Mathlib.Data.Multiset.Filter
import Mathlib.Data.Multiset.Sections
import Mathlib.Tactic.Common

/-!
# Choices and digits

Taking one element of every part of a family, in every way; a part may be thinned out
first by what all wanted choices satisfy. A choice of digits is a number below a power
of the base.
-/

namespace Thvm.ChoiceTuples

section Sections

variable {α : Type*} {S : Multiset (Multiset α)} {p : α → Prop} {P : Multiset α → Prop}
  [DecidablePred p] [DecidablePred P]

/-- Elements that no wanted choice has can be left out before choosing. -/
theorem filter_sections_filter (h : ∀ ch, P ch → ∀ x ∈ ch, p x) :
    (S.map (Multiset.filter p)).Sections.filter P = S.Sections.filter P := by
  induction S using Multiset.induction_on generalizing P with
  | empty => rfl
  | cons m S ih =>
    rw [Multiset.map_cons, Multiset.sections_cons, Multiset.sections_cons, Multiset.filter_bind,
      Multiset.filter_bind]
    have hsplit : ∀ x, ((S.map (Multiset.filter p)).Sections.map (x ::ₘ ·)).filter P =
        (S.Sections.map (x ::ₘ ·)).filter P := by
      intro x
      rw [Multiset.filter_map, Multiset.filter_map]
      exact congrArg _ (ih fun ch hch y hy => h _ hch y (Multiset.mem_cons_of_mem hy))
    simp only [hsplit]
    -- an element that is left out contributes nothing
    induction m using Multiset.induction_on with
    | empty => rfl
    | cons x m ihm =>
      rw [Multiset.cons_bind]
      by_cases hx : p x
      · rw [Multiset.filter_cons_of_pos _ hx, Multiset.cons_bind, ihm]
      · rw [Multiset.filter_cons_of_neg _ hx, ihm]
        have hnone : (S.Sections.map (x ::ₘ ·)).filter P = 0 := by
          refine Multiset.filter_eq_nil.mpr fun ch hch hP => ?_
          obtain ⟨ch, -, rfl⟩ := Multiset.mem_map.mp hch
          exact hx (h _ hP x (Multiset.mem_cons_self x ch))
        rw [hnone, zero_add]

/-- Some choice has the property everywhere when every part has an element that has it. -/
theorem exists_mem_sections {p : α → Prop} {S : Multiset (Multiset α)} :
    (∃ ch ∈ S.Sections, ∀ x ∈ ch, p x) ↔ ∀ m ∈ S, ∃ x ∈ m, p x := by
  induction S using Multiset.induction_on with
  | empty => simp
  | cons m S ih =>
    rw [Multiset.sections_cons, Multiset.forall_mem_cons, ← ih]
    constructor
    · rintro ⟨ch, hch, hall⟩
      obtain ⟨x, hx, hcons⟩ := Multiset.mem_bind.mp hch
      obtain ⟨ch', hch', rfl⟩ := Multiset.mem_map.mp hcons
      rw [Multiset.forall_mem_cons] at hall
      exact ⟨⟨x, hx, hall.1⟩, ch', hch', hall.2⟩
    · rintro ⟨⟨x, hx, hpx⟩, ch, hch, hall⟩
      exact ⟨x ::ₘ ch, Multiset.mem_bind.mpr ⟨x, hx, Multiset.mem_map_of_mem _ hch⟩,
        Multiset.forall_mem_cons.mpr ⟨hpx, hall⟩⟩

end Sections

section Prefixes

variable {α : Type*} {l l' : List α} {b : ℤ}

/-- The first elements of a list; all when the bound is negative. -/
def upTo (b : ℤ) (l : List α) : List α := if b < 0 then l else l.take b.toNat

theorem upTo_zero : upTo 0 l = [] := by simp [upTo]

theorem upTo_neg (h : b < 0) : upTo b l = l := if_pos h

theorem upTo_nil : upTo b ([] : List α) = [] := by simp [upTo]

theorem length_upTo_le (h : 0 ≤ b) : ((upTo b l).length : ℤ) ≤ b := by
  rw [upTo, if_neg (by omega), List.length_take]
  omega

/-- What is left of the bound goes to the second list. -/
theorem upTo_append (h : 0 ≤ b) :
    upTo b (l ++ l') = upTo b l ++ upTo (b - (upTo b l).length) l' := by
  have hlen := length_upTo_le (l := l) h
  rw [upTo, if_neg (by omega), List.take_append, upTo, if_neg (by omega)]
  rw [upTo, if_neg (by omega)] at hlen
  rw [upTo, if_neg (by omega), List.length_take]
  congr 2
  omega

end Prefixes

section Digits

variable {k : ℕ}

/-- The first digits of a number, the lowest first. -/
def digits (k : ℕ) : ℕ → ℕ → List ℕ
  | 0, _ => []
  | n + 1, r => r % k :: digits k n (r / k)

theorem digits_injOn {n r r' : ℕ} (hr : r < k ^ n) (hr' : r' < k ^ n)
    (h : digits k n r = digits k n r') : r = r' := by
  induction n generalizing r r' with
  | zero => rw [Nat.lt_one_iff.mp hr, Nat.lt_one_iff.mp hr']
  | succ n ih =>
    obtain ⟨hmod, hdiv⟩ := List.cons.inj h
    rw [Nat.pow_succ] at hr hr'
    have := ih (Nat.div_lt_of_lt_mul (Nat.mul_comm k _ ▸ hr))
      (Nat.div_lt_of_lt_mul (Nat.mul_comm k _ ▸ hr')) hdiv
    rw [← Nat.mod_add_div r k, ← Nat.mod_add_div r' k, hmod, this]

theorem exists_digits {l : List ℕ} (h : ∀ d ∈ l, d < k) :
    ∃ r < k ^ l.length, digits k l.length r = l := by
  induction l with
  | nil => exact ⟨0, Nat.one_pos, rfl⟩
  | cons d l ih =>
    rw [List.forall_mem_cons] at h
    obtain ⟨r, hr, heq⟩ := ih h.2
    have hk : 0 < k := Nat.zero_lt_of_lt h.1
    refine ⟨d + k * r, ?_, ?_⟩
    · rw [List.length_cons, Nat.pow_succ]
      calc d + k * r < k + k * r := Nat.add_lt_add_right h.1 _
        _ = k * (r + 1) := by rw [Nat.mul_succ, Nat.add_comm]
        _ ≤ k * k ^ l.length := Nat.mul_le_mul_left k hr
        _ = k ^ l.length * k := Nat.mul_comm _ _
    · rw [List.length_cons, digits, Nat.add_mul_mod_self_left, Nat.mod_eq_of_lt h.1,
        Nat.add_mul_div_left _ _ hk, Nat.div_eq_of_lt h.1, Nat.zero_add, heq]

end Digits

end Thvm.ChoiceTuples
