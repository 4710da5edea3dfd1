import Mathlib.Data.List.Forall2
import Mathlib.Tactic.Common

/-!
# Lexicographic comparison of lists

The first place where two lists differ decides. Equality of elements is a relation of
its own.
-/

namespace Thvm.LexOrder

variable {α β : Type} {e r : α → α → Prop} {as bs cs pre pre' : List α} {a b : α}

def Above (e r : α → α → Prop) : List α → List α → Prop
  | a :: as, b :: bs => r a b ∨ e a b ∧ Above e r as bs
  | _, _ => False

theorem above_cons : Above e r (a :: as) (b :: bs) ↔ r a b ∨ e a b ∧ Above e r as bs := .rfl

theorem above_append (hpre : List.Forall₂ e pre pre') (h : r a b) :
    Above e r (pre ++ a :: as) (pre' ++ b :: bs) := by
  induction hpre with
  | nil => exact .inl h
  | cons hab _ ih => exact .inr ⟨hab, ih⟩

/-- Behind a common prefix, elements that differ decide. -/
theorem above_append_iff (hirrefl : ∀ c, ¬ r c c) (hne : a ≠ b) :
    Above (· = ·) r (pre ++ a :: as) (pre ++ b :: bs) ↔ r a b := by
  induction pre with
  | nil => simp [Above, hne]
  | cons c pre ih =>
    rw [List.cons_append, List.cons_append, above_cons, ih]
    simp [hirrefl]

theorem above_split (h : Above e r as bs) : ∃ pre pre' a b post post', as = pre ++ a :: post ∧
    bs = pre' ++ b :: post' ∧ List.Forall₂ e pre pre' ∧ r a b := by
  induction as generalizing bs with
  | nil => exact h.elim
  | cons a as ih =>
    cases bs with
    | nil => exact h.elim
    | cons b bs =>
      rcases h with h | ⟨he, h⟩
      · exact ⟨[], [], a, b, as, bs, rfl, rfl, .nil, h⟩
      · obtain ⟨pre, pre', a', b', post, post', rfl, rfl, hpre, hr⟩ := ih h
        exact ⟨a :: pre, b :: pre', a', b', post, post', rfl, rfl, .cons he hpre, hr⟩

theorem Above.map {e' r' : β → β → Prop} {f : α → β} (h : Above e r as bs)
    (he : ∀ a ∈ as, ∀ b ∈ bs, e a b → e' (f a) (f b))
    (hr : ∀ a ∈ as, ∀ b ∈ bs, r a b → r' (f a) (f b)) : Above e' r' (as.map f) (bs.map f) := by
  induction as generalizing bs with
  | nil => exact h.elim
  | cons a as ih =>
    cases bs with
    | nil => exact h.elim
    | cons b bs =>
      rcases h with h | ⟨hab, h⟩
      · exact .inl (hr a List.mem_cons_self b List.mem_cons_self h)
      · refine .inr ⟨he a List.mem_cons_self b List.mem_cons_self hab, ih h ?_ ?_⟩
        · exact fun a ha b hb => he a (List.mem_cons_of_mem _ ha) b (List.mem_cons_of_mem _ hb)
        · exact fun a ha b hb => hr a (List.mem_cons_of_mem _ ha) b (List.mem_cons_of_mem _ hb)

/-- Different lists of one length have a first difference. -/
theorem above_of_ne (hlen : as.length = bs.length) (hne : as ≠ bs) :
    Above (· = ·) (· ≠ ·) as bs := by
  induction as generalizing bs with
  | nil => exact hne (List.length_eq_zero_iff.mp hlen.symm).symm
  | cons a as ih =>
    cases bs with
    | nil => cases hlen
    | cons b bs =>
      by_cases hab : a = b
      · subst hab
        exact .inr ⟨rfl, ih (Nat.succ.inj hlen) fun h => hne (congrArg _ h)⟩
      · exact .inl hab

theorem Above.swap (h : Above e r as bs) : Above (flip e) (flip r) bs as := by
  induction as generalizing bs with
  | nil => exact h.elim
  | cons a as ih =>
    cases bs with
    | nil => exact h.elim
    | cons b bs =>
      rcases h with h | ⟨hab, h⟩
      · exact .inl h
      · exact .inr ⟨hab, ih h⟩

/-- The first difference is one place. -/
theorem Above.meet {r' : α → α → Prop} (h : Above e r as bs) (h' : Above e r' as bs)
    (hr : ∀ a b, e a b → ¬ r a b ∧ ¬ r' a b) : ∃ a ∈ as, ∃ b ∈ bs, r a b ∧ r' a b := by
  induction as generalizing bs with
  | nil => exact h.elim
  | cons a as ih =>
    cases bs with
    | nil => exact h.elim
    | cons b bs =>
      rcases h with h | ⟨hab, h⟩
      · rcases h' with h' | ⟨hab, -⟩
        · exact ⟨a, List.mem_cons_self, b, List.mem_cons_self, h, h'⟩
        · exact absurd h (hr a b hab).1
      · rcases h' with h' | ⟨-, h'⟩
        · exact absurd h' (hr a b hab).2
        · obtain ⟨a', ha, b', hb, hrr⟩ := ih h h'
          exact ⟨a', List.mem_cons_of_mem a ha, b', List.mem_cons_of_mem b hb, hrr⟩

/-- What three elements must satisfy for the comparison to chain over them. -/
structure Chains (e r : α → α → Prop) (a b c : α) : Prop where
  rr : r a b → r b c → r a c
  re : r a b → e b c → r a c
  er : e a b → r b c → r a c
  ee : e a b → e b c → e a c

theorem Above.trans (h : Above e r as bs) (h' : Above e r bs cs)
    (hchain : ∀ a ∈ as, ∀ b ∈ bs, ∀ c ∈ cs, Chains e r a b c) : Above e r as cs := by
  induction as generalizing bs cs with
  | nil => exact h.elim
  | cons a as ih =>
    cases bs with
    | nil => exact h.elim
    | cons b bs =>
      cases cs with
      | nil => exact h'.elim
      | cons c cs =>
        have hhead := hchain a List.mem_cons_self b List.mem_cons_self c List.mem_cons_self
        rcases h with h | ⟨hab, h⟩
        · rcases h' with h' | ⟨hbc, -⟩
          · exact .inl (hhead.rr h h')
          · exact .inl (hhead.re h hbc)
        · rcases h' with h' | ⟨hbc, h'⟩
          · exact .inl (hhead.er hab h')
          · refine .inr ⟨hhead.ee hab hbc, ih h h' fun a ha b hb c hc => ?_⟩
            exact hchain a (List.mem_cons_of_mem _ ha) b (List.mem_cons_of_mem _ hb) c
              (List.mem_cons_of_mem _ hc)

theorem Above.congr {r' : α → α → Prop} {as' bs' : List α} (h : Above e r as bs) (has : List.Forall₂ e as as')
    (hbs : List.Forall₂ e bs bs') (he : ∀ {a b a' b'}, e a b → e a a' → e b b' → e a' b')
    (hr : ∀ {a b a' b'}, r a b → e a a' → e b b' → r' a' b') : Above e r' as' bs' := by
  induction has generalizing bs bs' with
  | nil => exact h.elim
  | cons haa _ ih =>
    cases hbs with
    | nil => exact h.elim
    | cons hbb htail =>
      rcases h with h | ⟨hab, h⟩
      · exact .inl (hr h haa hbb)
      · exact .inr ⟨he hab haa hbb, ih h htail⟩

/-- Lists that are equal everywhere are not above each other. -/
theorem Above.not_equal (h : Above e r as bs) (h' : List.Forall₂ e as bs)
    (hr : ∀ a ∈ as, ∀ b ∈ bs, e a b → ¬ r a b) : False := by
  induction h' with
  | nil => exact h
  | cons hab _ ih =>
    rcases h with h | ⟨-, h⟩
    · exact hr _ List.mem_cons_self _ List.mem_cons_self hab h
    · exact ih h fun a ha b hb => hr a (List.mem_cons_of_mem _ ha) b (List.mem_cons_of_mem _ hb)

end Thvm.LexOrder
