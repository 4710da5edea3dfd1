import Mathlib.Data.Finset.Card
import Mathlib.Logic.Relation
import Mathlib.Tactic.Common

/-!
# Depth-first marking

A recursive walk that marks the nodes it comes to and turns back at a marked one.
With enough rounds it marks exactly what can be reached.
-/

namespace Thvm.DepthFirst
open Relation

variable {α : Type*} (next : α → List α)

/-- What a walk from `xs` adds to the marked nodes: all of `xs`, with every node its
successors, and only nodes that can be reached. -/
structure Marks (xs seen seen' : List α) : Prop where
  mono : ∀ z ∈ seen, z ∈ seen'
  roots : ∀ x ∈ xs, x ∈ seen'
  closed : ∀ z ∈ seen', z ∉ seen → ∀ y ∈ next z, y ∈ seen'
  sound : ∀ z ∈ seen', z ∈ seen ∨ ∃ x ∈ xs, ReflTransGen (fun a b => b ∈ next a) x z

variable {next} {x z : α} {xs seen seen' : List α}

theorem Marks.nil : Marks next [] seen seen :=
  ⟨fun _ h => h, by simp, fun _ h hn => absurd h hn, fun _ h => .inl h⟩

theorem Marks.cons {mid : List α} (h : Marks next [x] seen mid) (h' : Marks next xs mid seen') :
    Marks next (x :: xs) seen seen' where
  mono := fun z hz => h'.mono z (h.mono z hz)
  roots := fun y hy => by
    rcases List.mem_cons.mp hy with rfl | hy
    · exact h'.mono y (h.roots y (List.mem_singleton_self y))
    · exact h'.roots y hy
  closed := fun z hz hn y hy => by
    by_cases hmid : z ∈ mid
    · exact h'.mono y (h.closed z hmid hn y hy)
    · exact h'.closed z hz hmid y hy
  sound := fun z hz => by
    rcases h'.sound z hz with hmid | ⟨y, hy, hreach⟩
    · rcases h.sound z hmid with hold | ⟨y, hy, hreach⟩
      · exact .inl hold
      · exact .inr ⟨y, List.mem_cons.mpr (.inl (List.mem_singleton.mp hy)), hreach⟩
    · exact .inr ⟨y, List.mem_cons_of_mem x hy, hreach⟩

/-- Marking `x` first and then walking from its successors. -/
theorem Marks.expand (h : Marks next (next x) (x :: seen) seen') : Marks next [x] seen seen' where
  mono := fun z hz => h.mono z (List.mem_cons_of_mem x hz)
  roots := fun y hy => h.mono y (List.mem_cons.mpr (.inl (List.mem_singleton.mp hy)))
  closed := fun z hz hn y hy => by
    by_cases hzx : z = x
    · exact h.roots y (hzx ▸ hy)
    · exact h.closed z hz (by simp [hzx, hn]) y hy
  sound := fun z hz => by
    rcases h.sound z hz with hold | ⟨y, hy, hreach⟩
    · rcases List.mem_cons.mp hold with rfl | hold
      · exact .inr ⟨z, List.mem_singleton_self z, .refl⟩
      · exact .inl hold
    · exact .inr ⟨x, List.mem_singleton_self x, ReflTransGen.head hy hreach⟩

theorem mem_foldl_of_mem {f : List α → α → List α} (hf : ∀ seen y, ∀ z ∈ seen, z ∈ f seen y)
    (h : z ∈ seen) : z ∈ xs.foldl f seen := by
  induction xs generalizing seen with
  | nil => exact h
  | cons x xs ih => exact ih (hf seen x z h)

section Walk

variable [DecidableEq α]

variable (next) in
/-- The marked nodes after a walk from `x`. -/
def mark : ℕ → α → List α → List α
  | 0, _, seen => seen
  | rounds + 1, x, seen =>
    if x ∈ seen then seen
    else (next x).foldl (fun seen y => mark rounds y seen) (x :: seen)

variable (next) in
/-- The same from several roots, one after another. -/
def markAll (rounds : ℕ) (xs seen : List α) : List α :=
  xs.foldl (fun seen y => mark next rounds y seen) seen

variable {rounds : ℕ} {domain : Finset α}

theorem mem_mark_of_mem (h : z ∈ seen) : z ∈ mark next rounds x seen := by
  induction rounds generalizing x z seen with
  | zero => exact h
  | succ rounds ih =>
    unfold mark
    split
    · exact h
    · exact mem_foldl_of_mem (fun seen y z hz => ih hz) (List.mem_cons_of_mem x h)

theorem mem_markAll_of_mem (h : z ∈ seen) : z ∈ markAll next rounds xs seen :=
  mem_foldl_of_mem (fun _ _ _ hz => mem_mark_of_mem hz) h

theorem card_unseen_mono (h : ∀ z ∈ seen, z ∈ seen') :
    (domain.filter (· ∉ seen')).card ≤ (domain.filter (· ∉ seen)).card :=
  Finset.card_le_card fun z hz => by
    obtain ⟨hd, hn⟩ := Finset.mem_filter.mp hz
    exact Finset.mem_filter.mpr ⟨hd, fun hmem => hn (h z hmem)⟩

theorem card_unseen_cons (hd : x ∈ domain) (hx : x ∉ seen) :
    (domain.filter (· ∉ x :: seen)).card < (domain.filter (· ∉ seen)).card := by
  refine Finset.card_lt_card ⟨fun z hz => ?_, fun hsub => ?_⟩
  · obtain ⟨hzd, hn⟩ := Finset.mem_filter.mp hz
    exact Finset.mem_filter.mpr ⟨hzd, fun hmem => hn (List.mem_cons_of_mem x hmem)⟩
  · have hmem := hsub (Finset.mem_filter.mpr ⟨hd, hx⟩)
    exact (Finset.mem_filter.mp hmem).2 List.mem_cons_self

/-- Every node that a walk marks is one less for the walks below it, so as many rounds
as there are unmarked nodes are enough. -/
theorem mark_spec (hdom : ∀ a, ∀ b ∈ next a, b ∈ domain) (hx : x ∈ domain)
    (hrounds : (domain.filter (· ∉ seen)).card < rounds) :
    Marks next [x] seen (mark next rounds x seen) := by
  induction rounds generalizing x seen with
  | zero => omega
  | succ rounds ih =>
    unfold mark
    split
    · next hmem =>
      exact ⟨fun _ h => h, fun y hy => List.mem_singleton.mp hy ▸ hmem,
        fun _ h hn => absurd h hn, fun _ h => .inl h⟩
    · next hmem =>
      refine Marks.expand ?_
      have hless : (domain.filter (· ∉ x :: seen)).card < rounds :=
        (card_unseen_cons hx hmem).trans_le (Nat.le_of_lt_succ hrounds)
      have hsucc : ∀ y ∈ next x, y ∈ domain := hdom x
      generalize next x = ys at hsucc
      generalize x :: seen = seen₀ at hless
      induction ys generalizing seen₀ with
      | nil => exact .nil
      | cons y ys ihys =>
        have hy := ih (hsucc y List.mem_cons_self) hless
        exact hy.cons (ihys (fun z hz => hsucc z (List.mem_cons_of_mem y hz)) _
          ((card_unseen_mono hy.mono).trans_lt hless))

theorem markAll_spec (hdom : ∀ a, ∀ b ∈ next a, b ∈ domain) (hxs : ∀ x ∈ xs, x ∈ domain)
    (hrounds : (domain.filter (· ∉ seen)).card < rounds) :
    Marks next xs seen (markAll next rounds xs seen) := by
  induction xs generalizing seen with
  | nil => exact .nil
  | cons x xs ih =>
    have hx := mark_spec hdom (hxs x List.mem_cons_self) hrounds
    exact hx.cons (ih (fun y hy => hxs y (List.mem_cons_of_mem x hy))
      ((card_unseen_mono hx.mono).trans_lt hrounds))

/-- A walk from scratch marks what can be reached from a root. -/
theorem mem_markAll (hdom : ∀ a, ∀ b ∈ next a, b ∈ domain) (hxs : ∀ x ∈ xs, x ∈ domain)
    (hrounds : domain.card < rounds) :
    z ∈ markAll next rounds xs [] ↔ ∃ x ∈ xs, ReflTransGen (fun a b => b ∈ next a) x z := by
  have h : Marks next xs [] (markAll next rounds xs []) :=
    markAll_spec hdom hxs ((Finset.card_filter_le _ _).trans_lt hrounds)
  refine ⟨fun hz => (h.sound z hz).resolve_left List.not_mem_nil, ?_⟩
  rintro ⟨x, hx, hreach⟩
  induction hreach with
  | refl => exact h.roots x hx
  | tail _ hstep ih => exact h.closed _ ih List.not_mem_nil _ hstep

end Walk

end Thvm.DepthFirst
