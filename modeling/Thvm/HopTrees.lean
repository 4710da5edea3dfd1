import Mathlib.Logic.Relation
import Thvm.ViewTrees

/-!
# Trees with silent hops

A value shows a leaf, or a label with further values, or it hops to another value that stands for
it. Hops leave no trace in the tree of a value.
-/

namespace Thvm

/-- One layer of a value, or a hop. -/
inductive Layer (L F α : Type) where
  | leaf (l : L)
  | node (f : F) (kids : List α)
  | hop (a : α)

namespace Layer

variable {L F α β : Type}

/-- The tree of a value, if it takes at most `n` layers and hops. -/
def unfold (view : α → Layer L F α) : ℕ → α → Option (TermTree L F)
  | 0, _ => none
  | n + 1, a =>
    match view a with
    | .leaf l => some (.leaf l)
    | .node f kids => (kids.mapM (unfold view n)).map (.node f)
    | .hop a => unfold view n a

/-- A value has a tree. -/
def Unfolds (view : α → Layer L F α) (a : α) (t : TermTree L F) : Prop :=
  ∃ n, unfold view n a = some t

/-- Hops that follow each other. -/
def Hops (view : α → Layer L F α) : α → α → Prop :=
  Relation.ReflTransGen fun a a' ↦ view a = .hop a'

/-- Two layers that look alike, with related values below. -/
inductive Alike (R : α → β → Prop) : Layer L F α → Layer L F β → Prop
  | leaf (l : L) : Alike R (.leaf l) (.leaf l)
  | node (f : F) {kids : List α} {kids' : List β} (h : List.Forall₂ R kids kids') :
    Alike R (.node f kids) (.node f kids')
  | hop {a : α} {b : β} (h : R a b) : Alike R (.hop a) (.hop b)

variable {view : α → Layer L F α} {n m : ℕ} {a a' : α} {t : TermTree L F} {f : F}
  {kids : List α} {ts : List (TermTree L F)} {l : L}

theorem unfold_leaf (h : view a = .leaf l) : unfold view (n + 1) a = some (.leaf l) := by
  rw [unfold, h]

theorem unfold_hop (h : view a = .hop a') : unfold view (n + 1) a = unfold view n a' := by
  rw [unfold, h]

theorem unfold_node (h : view a = .node f kids) : unfold view (n + 1) a = some t ↔
    ∃ ts, kids.mapM (unfold view n) = some ts ∧ t = .node f ts := by
  rw [unfold, h]
  simp [Option.map_eq_some_iff, eq_comm (b := t)]

/-- More layers and hops give the same tree. -/
theorem unfold_mono (hnm : n ≤ m) (h : unfold view n a = some t) : unfold view m a = some t := by
  induction n generalizing m a t with
  | zero => cases h
  | succ n ih =>
    obtain ⟨m, rfl⟩ := Nat.exists_eq_add_of_lt hnm
    rw [show n + m + 1 = (n + m) + 1 from rfl]
    cases hview : view a with
    | leaf l => rwa [unfold_leaf hview] at h ⊢
    | hop a' =>
      rw [unfold_hop hview] at h ⊢
      exact ih (Nat.le_add_right n m) h
    | node f kids =>
      obtain ⟨ts, hkids, rfl⟩ := (unfold_node hview).1 h
      exact (unfold_node hview).2 ⟨ts,
        View.mapM_congr_some (fun a _ b hb ↦ ih (Nat.le_add_right n m) hb) hkids, rfl⟩

theorem unfolds_leaf (h : view a = .leaf l) : Unfolds view a (.leaf l) :=
  ⟨1, unfold_leaf h⟩

/-- A value has the tree of what it hops to. -/
theorem unfolds_hop (h : view a = .hop a') : Unfolds view a t ↔ Unfolds view a' t := by
  constructor
  · rintro ⟨n, hn⟩
    cases n with
    | zero => cases hn
    | succ n => exact ⟨n, unfold_hop h ▸ hn⟩
  · rintro ⟨n, hn⟩
    exact ⟨n + 1, (unfold_hop h).trans hn⟩

/-- Values that have trees have them with one number of layers and hops. -/
theorem mapM_of_unfolds (h : List.Forall₂ (Unfolds view) kids ts) :
    ∃ n, kids.mapM (unfold view n) = some ts := by
  induction h with
  | nil => exact ⟨0, rfl⟩
  | @cons a t kids ts ha _ ih =>
    obtain ⟨n, hn⟩ := ha
    obtain ⟨m, hm⟩ := ih
    refine ⟨max n m, View.mapM_cons_some.2 ⟨t, ts, unfold_mono (le_max_left n m) hn, ?_, rfl⟩⟩
    exact View.mapM_congr_some (fun a _ b hb ↦ unfold_mono (le_max_right n m) hb) hm

theorem unfolds_node (h : view a = .node f kids) (hkids : List.Forall₂ (Unfolds view) kids ts) :
    Unfolds view a (.node f ts) := by
  obtain ⟨n, hn⟩ := mapM_of_unfolds hkids
  exact ⟨n + 1, (unfold_node h).2 ⟨ts, hn, rfl⟩⟩

theorem Hops.unfolds_iff (h : Hops view a a') : Unfolds view a t ↔ Unfolds view a' t := by
  induction h with
  | refl => exact Iff.rfl
  | tail _ hhop ih => exact ih.trans (unfolds_hop hhop)

/-- After some hops a tree takes no more layers than before. -/
theorem Hops.unfold_le (h : Hops view a a') (ht : unfold view n a = some t) :
    ∃ m ≤ n, unfold view m a' = some t := by
  induction h with
  | refl => exact ⟨n, le_refl n, ht⟩
  | tail _ hhop ih =>
    obtain ⟨m, hm, htree⟩ := ih
    cases m with
    | zero => cases htree
    | succ m =>
      rw [unfold_hop hhop] at htree
      exact ⟨m, by omega, htree⟩

theorem unfolds_kids {view' : β → Layer L F β} {R : α → β → Prop} {kids' : List β}
    (hR : ∀ a b, R a b → ∀ t, unfold view m a = some t → Unfolds view' b t)
    (hkids : List.Forall₂ R kids kids') (hts : kids.mapM (unfold view m) = some ts) :
    List.Forall₂ (Unfolds view') kids' ts := by
  induction hkids generalizing ts with
  | nil =>
    obtain rfl : [] = ts := Option.some.inj hts
    exact .nil
  | cons hab _ ih =>
    obtain ⟨t, ts, hkid, hrest, rfl⟩ := View.mapM_cons_some.1 hts
    exact .cons (hR _ _ hab t hkid) (ih hrest)

/-- If two related values, each after some hops, look alike, then the second has the tree of the
first. -/
theorem unfolds_of_alike {view' : β → Layer L F β} {R : α → β → Prop}
    (hstep : ∀ a b, R a b → ∃ a' b', Hops view a a' ∧ Hops view' b b' ∧
      Alike R (view a') (view' b')) {b : β} (hab : R a b) (ht : unfold view n a = some t) :
    Unfolds view' b t := by
  induction n using Nat.strong_induction_on generalizing a b t with
  | _ n ih =>
    obtain ⟨a', b', ha, hb, halike⟩ := hstep a b hab
    obtain ⟨m, hmn, htree⟩ := ha.unfold_le ht
    rw [hb.unfolds_iff]
    cases m with
    | zero => cases htree
    | succ m =>
      generalize hview : view a' = x at halike
      generalize hview' : view' b' = y at halike
      cases halike with
      | leaf l =>
        rw [unfold_leaf hview] at htree
        rw [← Option.some.inj htree]
        exact unfolds_leaf hview'
      | hop hR =>
        rw [unfold_hop hview] at htree
        exact (unfolds_hop hview').2 (ih m (by omega) hR htree)
      | @node f kids kids' hkids =>
        obtain ⟨ts, hts, rfl⟩ := (unfold_node hview).1 htree
        exact unfolds_node hview'
          (unfolds_kids (fun a b hab t ↦ ih m (by omega) hab) hkids hts)

/-- Two related values have the same trees, if after some hops related values look alike. -/
theorem unfolds_iff_of_alike {view' : β → Layer L F β} {R : α → β → Prop}
    (hstep : ∀ a b, R a b → ∃ a' b', Hops view a a' ∧ Hops view' b b' ∧
      Alike R (view a') (view' b')) {b : β} (hab : R a b) :
    Unfolds view a t ↔ Unfolds view' b t := by
  refine ⟨fun ⟨n, hn⟩ ↦ unfolds_of_alike hstep hab hn, fun ⟨n, hn⟩ ↦ ?_⟩
  refine unfolds_of_alike (R := fun b a ↦ R a b) (fun b a hab ↦ ?_) hab hn
  obtain ⟨a', b', ha, hb, halike⟩ := hstep a b hab
  refine ⟨b', a', hb, ha, ?_⟩
  generalize view a' = x at halike
  generalize view' b' = y at halike
  cases halike with
  | leaf l => exact .leaf l
  | node f hkids => exact .node f (List.Forall₂.flip hkids)
  | hop hR => exact .hop hR

end Layer

end Thvm
