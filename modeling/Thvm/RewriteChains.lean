import Thvm.TermPositions
import Mathlib.Data.List.Range

/-!
# Chains of rewrites

A rewrite replaces the instance of one side of an equation, at a position, by the instance of
the other side. A chain is a list of steps each of which starts where the one before it ended.
Two chains are cut back to the earliest place where they meet.
-/

namespace Thvm.RewriteChains

universe u v

/-! ## Steps below a position -/

section
variable {L F : Type} {R : TermTree L F → TermTree L F → Prop} {s t : TermTree L F} {p : List ℕ}

/-- `t` is `s` with the subtree at `p` replaced by one that `R` allows. -/
def StepAt (R : TermTree L F → TermTree L F → Prop) (p : List ℕ) (s t : TermTree L F) : Prop :=
  ∃ a b, s.sub p = some a ∧ R a b ∧ t = s.put p b

theorem StepAt.root (h : R s t) : StepAt R [] s t :=
  ⟨s, t, TermTree.sub_nil s, h, (TermTree.put_nil s t).symm⟩

theorem stepAt_nil : StepAt R [] s t ↔ R s t := by
  constructor
  · rintro ⟨a, b, hsub, hab, ht⟩
    rw [TermTree.sub_nil] at hsub
    rw [TermTree.put_nil] at ht
    obtain rfl := Option.some.inj hsub
    exact ht ▸ hab
  · exact .root

theorem StepAt.arg {f : F} {args : List (TermTree L F)} {i : ℕ} {a b : TermTree L F}
    (ha : args[i]? = some a) (h : StepAt R p a b) :
    StepAt R (i :: p) (.node f args) (.node f (args.set i b)) := by
  obtain ⟨x, y, hsub, hxy, rfl⟩ := h
  refine ⟨x, y, TermTree.sub_cons.mpr ⟨f, args, a, rfl, ha, hsub⟩, hxy, ?_⟩
  rw [TermTree.put]
  congr 1
  rw [List.modify_eq_set_getElem?, ha]
  rfl

theorem stepAt_cons {i : ℕ} :
    StepAt R (i :: p) s t ↔ ∃ f args a b, s = .node f args ∧ args[i]? = some a ∧
      StepAt R p a b ∧ t = .node f (args.set i b) := by
  constructor
  · rintro ⟨x, y, hsub, hxy, rfl⟩
    obtain ⟨f, args, a, rfl, ha, hsub⟩ := TermTree.sub_cons.mp hsub
    refine ⟨f, args, a, a.put p y, rfl, ha, ⟨x, y, hsub, hxy, rfl⟩, ?_⟩
    rw [TermTree.put, List.modify_eq_set_getElem?, ha]
    rfl
  · rintro ⟨f, args, a, b, rfl, ha, h, rfl⟩
    exact h.arg ha

theorem StepAt.mono {R' : TermTree L F → TermTree L F → Prop} (hR : ∀ a b, R a b → R' a b)
    (h : StepAt R p s t) : StepAt R' p s t := by
  obtain ⟨a, b, hsub, hab, ht⟩ := h
  exact ⟨a, b, hsub, hR a b hab, ht⟩

/-- The step back. -/
theorem StepAt.symm (h : StepAt R p s t) : StepAt (fun a b => R b a) p t s := by
  induction p generalizing s t with
  | nil => exact stepAt_nil.mpr (stepAt_nil.mp h)
  | cons i p ih =>
    obtain ⟨f, args, a, b, rfl, ha, hab, rfl⟩ := stepAt_cons.mp h
    obtain ⟨hlt, rfl⟩ := List.getElem?_eq_some_iff.mp ha
    have hback := (ih hab).arg (f := f) (List.getElem?_set_self hlt)
    rwa [List.set_set, List.set_getElem_self] at hback

theorem StepAt.every {P : F → ℕ → Prop}
    (hR : ∀ a b, R a b → TermTree.Every P a → TermTree.Every P b) (h : StepAt R p s t)
    (hs : TermTree.Every P s) : TermTree.Every P t := by
  induction p generalizing s t with
  | nil => exact hR s t (stepAt_nil.mp h) hs
  | cons i p ih =>
    obtain ⟨f, args, a, b, rfl, ha, hab, rfl⟩ := stepAt_cons.mp h
    obtain ⟨hnode, hargs⟩ := TermTree.every_node.mp hs
    refine .node (by rwa [List.length_set]) fun c hc => ?_
    rcases List.mem_or_eq_of_mem_set hc with hc | rfl
    · exact hargs c hc
    · exact ih hab (hargs a (List.mem_of_getElem? ha))

end

/-! ## Chains -/

section
variable {T : Type u} {S : Type v} {src tgt : S → T} {a b m : T} {ss ss' : List S} {k : ℕ}

/-- Each step starts where the one before it ended, and the first one at `a`. -/
def Linked (src tgt : S → T) : T → List S → Prop
  | _, [] => True
  | a, s :: ss => src s = a ∧ Linked src tgt (tgt s) ss

/-- Where a chain from `a` ends. -/
def final (tgt : S → T) (a : T) (ss : List S) : T := ss.foldl (fun _ s => tgt s) a

@[simp] theorem final_nil : final tgt a [] = a := rfl

@[simp] theorem final_cons (s : S) : final tgt a (s :: ss) = final tgt (tgt s) ss := rfl

@[simp] theorem final_append : final tgt a (ss ++ ss') = final tgt (final tgt a ss) ss' :=
  List.foldl_append

theorem linked_append :
    Linked src tgt a (ss ++ ss') ↔ Linked src tgt a ss ∧ Linked src tgt (final tgt a ss) ss' := by
  induction ss generalizing a with
  | nil => simp [Linked]
  | cons s ss ih => simp [Linked, ih, and_assoc]

theorem Linked.take (h : Linked src tgt a ss) (k : ℕ) : Linked src tgt a (ss.take k) := by
  rw [← List.take_append_drop k ss, linked_append] at h
  exact h.1

theorem final_take_succ (hk : k < ss.length) : final tgt a (ss.take (k + 1)) = tgt ss[k] := by
  rw [List.take_succ_eq_append_getElem hk, final_append]
  rfl

/-- The end of a chain that has a step does not depend on its start. -/
theorem final_eq_of_ne_nil (h : ss ≠ []) : final tgt a ss = final tgt b ss := by
  cases ss with
  | nil => exact absurd rfl h
  | cons s ss => rfl

/-- A chain from `a` to `m` is one from `b` to `m` only if `b` is `a`. -/
theorem Linked.start_iff (h : Linked src tgt a ss) (hm : final tgt a ss = m) :
    Linked src tgt b ss ∧ final tgt b ss = m ↔ b = a := by
  constructor
  · rintro ⟨hb, hfinal⟩
    cases ss with
    | nil => exact hfinal.trans hm.symm
    | cons s ss => exact hb.1.symm.trans h.1
  · rintro rfl
    exact ⟨h, hm⟩

/-- Two chains that lead to one term, and are not both empty, meet from other starts only if
these are theirs. -/
theorem Linked.meet_iff {c c' : T} (h : Linked src tgt a ss) (hm : final tgt a ss = m)
    (h' : Linked src tgt b ss') (hm' : final tgt b ss' = m) (hne : ss ≠ [] ∨ ss' ≠ []) :
    Linked src tgt c ss ∧ Linked src tgt c' ss' ∧ final tgt c ss = final tgt c' ss' ↔
      c = a ∧ c' = b := by
  constructor
  · rintro ⟨hc, hc', heq⟩
    have hend : final tgt c ss = m := by
      rcases hne with hne | hne
      · exact (final_eq_of_ne_nil hne).trans hm
      · exact heq.trans ((final_eq_of_ne_nil hne).trans hm')
    exact ⟨(h.start_iff hm).mp ⟨hc, hend⟩, (h'.start_iff hm').mp ⟨hc', heq ▸ hend⟩⟩
  · rintro ⟨rfl, rfl⟩
    exact ⟨h, h', hm.trans hm'.symm⟩

end

/-! ## The earliest meeting -/

section
variable {T : Type u} {f g : ℕ → T} {i j m n : ℕ}

/-- What a search for a meeting has found. -/
structure Meeting where
  i : ℕ
  j : ℕ
  sum : ℕ
  found : Bool

/-- No pair of places that comes before the meeting is one. -/
def EarliestMeeting (f g : ℕ → T) (m n i j : ℕ) : Prop :=
  i ≤ m ∧ j ≤ n ∧ f i = g j ∧ ∀ i' ≤ m, ∀ j' ≤ n, i' + j' < i + j → f i' ≠ g j'

/-- What holds when the pairs in `V` have been looked at. -/
structure Meeting.Best (f g : ℕ → T) (m n : ℕ) (V : ℕ → ℕ → Prop) (b : Meeting) : Prop where
  found : b.found = true → b.i ≤ m ∧ b.j ≤ n ∧ f b.i = g b.j ∧ b.sum = b.i + b.j ∧ b.sum < m + n
  unfound : b.found = false → b.sum = m + n
  least : ∀ i j, V i j → f i = g j → b.sum ≤ i + j

theorem Meeting.Best.earliest {V : ℕ → ℕ → Prop} {b : Meeting} (h : b.Best f g m n V)
    (hV : ∀ i ≤ m, ∀ j ≤ n, V i j) (hfound : b.found = true) :
    EarliestMeeting f g m n b.i b.j := by
  obtain ⟨hi, hj, hmeet, hsum, _⟩ := h.found hfound
  refine ⟨hi, hj, hmeet, fun i' hi' j' hj' hlt heq => ?_⟩
  have := h.least i' j' (hV i' hi' j' hj') heq
  omega

theorem Meeting.Best.none {V : ℕ → ℕ → Prop} {b : Meeting} (h : b.Best f g m n V)
    (hV : ∀ i ≤ m, ∀ j ≤ n, V i j) (hfound : b.found = false) (hi : i ≤ m) (hj : j ≤ n)
    (hlt : i + j < m + n) : f i ≠ g j := by
  intro heq
  have := h.least i j (hV i hi j hj) heq
  rw [h.unfound hfound] at this
  omega

/-- A loop over `0 … n - 1` keeps what each round keeps. -/
theorem foldl_range_invariant {σ : Type v} (step : σ → ℕ → σ) {P : ℕ → σ → Prop} {s : σ}
    (hinit : P 0 s) (hstep : ∀ k < n, ∀ s, P k s → P (k + 1) (step s k)) :
    P n ((List.range n).foldl step s) := by
  induction n with
  | zero => exact hinit
  | succ n ih =>
    rw [List.range_succ, List.foldl_append]
    exact hstep n (Nat.lt_succ_self n) _
      (ih fun k hk => hstep k (Nat.lt_succ_of_lt hk))

/-- A round of the search keeps the better one of the meeting found so far and the pair it
looks at. -/
theorem Meeting.Best.look {V V' : ℕ → ℕ → Prop} {b b' : Meeting} (h : b.Best f g m n V)
    (hi : i ≤ m) (hj : j ≤ n) (hV : ∀ i' j', V' i' j' → V i' j' ∨ (i' = i ∧ j' = j))
    (hb : b' = b ∧ (f i = g j → b.sum ≤ i + j) ∨
      b' = ⟨i, j, i + j, true⟩ ∧ f i = g j ∧ i + j < b.sum) : b'.Best f g m n V' := by
  have hsum : b.sum ≤ m + n := by
    cases hfound : b.found with
    | true => exact (h.found hfound).2.2.2.2.le
    | false => exact (h.unfound hfound).le
  rcases hb with ⟨rfl, hskip⟩ | ⟨rfl, hmeet, hlt⟩
  · refine ⟨h.found, h.unfound, fun i' j' hv heq => ?_⟩
    rcases hV i' j' hv with hv | ⟨rfl, rfl⟩
    · exact h.least i' j' hv heq
    · exact hskip heq
  · refine ⟨fun _ => ⟨hi, hj, hmeet, rfl, lt_of_lt_of_le hlt hsum⟩, fun hf => (by cases hf),
      fun i' j' hv heq => ?_⟩
    rcases hV i' j' hv with hv | ⟨rfl, rfl⟩
    · exact hlt.le.trans (h.least i' j' hv heq)
    · exact le_rfl

end

end Thvm.RewriteChains
