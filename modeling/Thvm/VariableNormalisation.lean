import Mathlib.Data.Finset.Card
import Mathlib.Data.List.Nodup
import Thvm.FirstOrderTerms

/-!
# Normalisation of variables

`thvm_normalize_vars`: the variables of an equation are numbered in the order in which a walk
through the left and then the right side meets them.
-/

namespace Thvm

/-- The entry of a variable in the map, which takes in the variable when it is new. A full map
leaves the variable as it is. -/
def nvId (old : ℕ) (m : List ℕ) : ℕ × List ℕ :=
  match m.idxOf? old with
  | some i => (i, m)
  | none => if rewriteMaxVar ≤ m.length then (old, m) else (m.length, m ++ [old])

mutual

def nvRewrite : FTerm → List ℕ → FTerm × List ℕ
  | .leaf (.fvr old), m => (FTerm.fvr (nvId old m).1, (nvId old m).2)
  | .leaf (.num dtype value), m => (FTerm.num dtype value, m)
  | .node label args, m =>
    if rewriteMaxArity < args.length then (.node label args, m)
    else (.node label (nvRewriteList args m).1, (nvRewriteList args m).2)

def nvRewriteList : List FTerm → List ℕ → List FTerm × List ℕ
  | [], m => ([], m)
  | a :: as, m =>
    let (a', m) := nvRewrite a m
    let (as', m) := nvRewriteList as m
    (a' :: as', m)

end

def thvmNormalizeVars (p : FTerm × FTerm) : FTerm × FTerm :=
  let (lhs, m) := nvRewrite p.1 []
  let (rhs, _) := nvRewrite p.2 m
  (lhs, rhs)

/-! ### First occurrences -/

section FirstSeen

variable {α : Type} [DecidableEq α]

/-- The list `m`, and behind it the new elements of `xs` in the order of their first
occurrences. -/
def firstSeen (m xs : List α) : List α :=
  xs.foldl (fun m x => if x ∈ m then m else m ++ [x]) m

variable {m xs ys : List α} {x : α}

theorem firstSeen_cons : firstSeen m (x :: xs) = firstSeen (if x ∈ m then m else m ++ [x]) xs :=
  rfl

theorem firstSeen_append : firstSeen m (xs ++ ys) = firstSeen (firstSeen m xs) ys :=
  List.foldl_append

theorem mem_firstSeen : x ∈ firstSeen m xs ↔ x ∈ m ∨ x ∈ xs := by
  induction xs generalizing m with
  | nil => simp [firstSeen]
  | cons y xs ih =>
    rw [firstSeen_cons, ih, List.mem_cons]
    split_ifs with hy
    · constructor
      · tauto
      · rintro (h | rfl | h) <;> tauto
    · rw [List.mem_append, List.mem_singleton, or_assoc]

theorem prefix_firstSeen (m xs : List α) : m <+: firstSeen m xs := by
  induction xs generalizing m with
  | nil => exact List.prefix_rfl
  | cons y xs ih =>
    rw [firstSeen_cons]
    refine List.IsPrefix.trans ?_ (ih _)
    split_ifs
    · exact List.prefix_rfl
    · exact List.prefix_append _ _

theorem nodup_firstSeen (hm : m.Nodup) : (firstSeen m xs).Nodup := by
  induction xs generalizing m with
  | nil => exact hm
  | cons y xs ih =>
    rw [firstSeen_cons]
    refine ih ?_
    split_ifs with hy
    · exact hm
    · exact List.nodup_append.2 ⟨hm, List.nodup_singleton y, fun a ha b hb hab => by
        rw [List.mem_singleton.1 hb] at hab
        exact hy (hab ▸ ha)⟩

/-- Positions in the list do not change when it grows. -/
theorem idxOf_firstSeen (hx : x ∈ m) : (firstSeen m xs).idxOf x = m.idxOf x := by
  obtain ⟨t, ht⟩ := prefix_firstSeen m xs
  rw [← ht, List.idxOf_append_of_mem hx]

theorem firstSeen_map {β : Type} [DecidableEq β] {f : α → β}
    (hf : Set.InjOn f {x | x ∈ m ∨ x ∈ xs}) :
    firstSeen (m.map f) (xs.map f) = (firstSeen m xs).map f := by
  induction xs generalizing m with
  | nil => rfl
  | cons y xs ih =>
    have hmem : f y ∈ m.map f ↔ y ∈ m := by
      rw [List.mem_map]
      constructor
      · rintro ⟨z, hz, hzy⟩
        rwa [← hf (Or.inl hz) (Or.inr List.mem_cons_self) hzy]
      · exact fun h ↦ ⟨y, h, rfl⟩
    rw [List.map_cons, firstSeen_cons, firstSeen_cons]
    simp only [hmem]
    by_cases hy : y ∈ m
    · rw [if_pos hy, if_pos hy]
      exact ih (hf.mono fun x hx ↦ hx.imp_right (List.mem_cons_of_mem y))
    · have hgrown : m.map f ++ [f y] = (m ++ [y]).map f := by simp
      rw [if_neg hy, if_neg hy, hgrown]
      refine ih (hf.mono fun x hx ↦ ?_)
      simp only [Set.mem_ofPred_eq, List.mem_append, List.mem_cons] at hx ⊢
      tauto

/-- The elements of `xs` in the order of their first occurrences are the elements of `xs`. -/
theorem length_firstSeen : (firstSeen [] xs).length = xs.toFinset.card := by
  rw [← List.toFinset_card_of_nodup (nodup_firstSeen List.nodup_nil)]
  congr 1
  ext x
  simp [mem_firstSeen]

/-- The positions of the elements of a list without repetitions. -/
theorem map_idxOf_self (hm : m.Nodup) : m.map (fun x ↦ m.idxOf x) = List.range m.length := by
  apply List.ext_getElem
  · simp
  · intro i h₁ h₂
    simp [hm.idxOf_getElem]

/-- A renaming keeps the positions. -/
theorem idxOf_map {β : Type} [DecidableEq β] {f : α → β} (hf : Set.InjOn f {x | x ∈ xs})
    (hx : x ∈ xs) : (xs.map f).idxOf (f x) = xs.idxOf x := by
  induction xs with
  | nil => cases hx
  | cons y xs ih =>
    have hsub : Set.InjOn f {x | x ∈ xs} := hf.mono fun z hz ↦ List.mem_cons_of_mem y hz
    rw [List.map_cons]
    by_cases hy : y = x
    · simp [hy]
    · have hxs : x ∈ xs := (List.mem_cons.1 hx).resolve_left (Ne.symm hy)
      have hfy : f y ≠ f x := fun h ↦ hy (hf List.mem_cons_self hx h)
      rw [List.idxOf_cons_ne _ hfy, List.idxOf_cons_ne _ hy, ih hsub hxs]

end FirstSeen

/-! ### The walk as a renaming -/

namespace FTerm

/-- The variables of a term, in the order of their occurrences. -/
def ids (t : FTerm) : List ℕ := t.leaves.filterMap leafId

/-- A renaming of the variables. -/
def rename (σ : ℕ → ℕ) (t : FTerm) : FTerm := t.inst fun id ↦ fvr (σ id)

theorem mem_ids {t : FTerm} {id : ℕ} : id ∈ t.ids ↔ Leaf.fvr id ∈ t.leaves := by
  rw [ids, List.mem_filterMap]
  constructor
  · rintro ⟨l, hl, hid⟩
    cases l with
    | fvr id' => exact Option.some.inj hid ▸ hl
    | num dtype value => cases hid
  · exact fun hl ↦ ⟨.fvr id, hl, rfl⟩

@[simp] theorem ids_fvr (id : ℕ) : (fvr id).ids = [id] := rfl

@[simp] theorem ids_num (dtype value : ℕ) : (num dtype value).ids = [] := rfl

@[simp] theorem ids_node (label : ℕ) (args : List FTerm) :
    ids (.node label args) = args.flatMap ids := by
  simp [ids, TermTree.leaves_node, List.filterMap_flatMap]
  rfl

@[simp] theorem rename_fvr (σ : ℕ → ℕ) (id : ℕ) : (fvr id).rename σ = fvr (σ id) := rfl

@[simp] theorem rename_num (σ : ℕ → ℕ) (dtype value : ℕ) :
    (num dtype value).rename σ = num dtype value := rfl

@[simp] theorem rename_node (σ : ℕ → ℕ) (label : ℕ) (args : List FTerm) :
    rename σ (.node label args) = .node label (args.map (rename σ)) :=
  inst_ctr _ label args

theorem rename_congr {σ τ : ℕ → ℕ} {t : FTerm} (h : ∀ id ∈ t.ids, σ id = τ id) :
    t.rename σ = t.rename τ :=
  inst_congr fun id hid ↦ congrArg fvr (h id (mem_ids.2 hid))

theorem rename_rename (σ τ : ℕ → ℕ) (t : FTerm) :
    (t.rename σ).rename τ = t.rename fun id ↦ τ (σ id) :=
  inst_inst _ _ t

theorem rename_of_fixed {σ : ℕ → ℕ} {t : FTerm} (h : ∀ id ∈ t.ids, σ id = id) :
    t.rename σ = t :=
  (rename_congr h).trans (inst_id t)

theorem ids_rename (σ : ℕ → ℕ) (t : FTerm) : (t.rename σ).ids = t.ids.map σ := by
  induction t using TermTree.induct with
  | leaf l => cases l <;> rfl
  | node label args ih =>
    simp only [rename_node, ids_node, List.flatMap_map, List.map_flatMap]
    exact List.flatMap_congr fun a ha ↦ ih a ha

end FTerm

open FTerm

theorem nvId_eq {old : ℕ} {m : List ℕ} (hcap : (firstSeen m [old]).length ≤ rewriteMaxVar) :
    nvId old m = ((firstSeen m [old]).idxOf old, firstSeen m [old]) := by
  by_cases hold : old ∈ m
  · have hseen : firstSeen m [old] = m := by simp [firstSeen, hold]
    obtain ⟨i, hi⟩ := Option.isSome_iff_exists.1 (List.isSome_idxOf?.2 hold)
    have hidx : m.idxOf old = i := by
      rw [List.idxOf_eq_getD_idxOf?, hi]
      rfl
    rw [hseen, nvId, hi, hidx]
  · have hseen : firstSeen m [old] = m ++ [old] := by simp [firstSeen, hold]
    rw [hseen, List.length_append, List.length_singleton] at hcap
    rw [hseen, nvId, List.idxOf?_eq_none_iff.2 hold, List.idxOf_append_of_notMem hold]
    simp only [if_neg (Nat.not_le.2 hcap), List.idxOf_cons_self, add_zero]

/-- The walk through a term renames it by the positions in the grown map. -/
def Numbers (t : FTerm) : Prop :=
  ∀ m : List ℕ, (firstSeen m t.ids).length ≤ rewriteMaxVar →
    nvRewrite t m = (t.rename fun id ↦ (firstSeen m t.ids).idxOf id, firstSeen m t.ids)

theorem nvRewriteList_eq {as : List FTerm} (has : ∀ a ∈ as, Numbers a) {m : List ℕ}
    (hcap : (firstSeen m (as.flatMap ids)).length ≤ rewriteMaxVar) :
    nvRewriteList as m = (as.map (rename fun id ↦ (firstSeen m (as.flatMap ids)).idxOf id),
      firstSeen m (as.flatMap ids)) := by
  induction as generalizing m with
  | nil => rfl
  | cons a as ih =>
    have hsplit : firstSeen m ((a :: as).flatMap ids) =
        firstSeen (firstSeen m a.ids) (as.flatMap ids) := by
      rw [List.flatMap_cons, firstSeen_append]
    rw [hsplit] at hcap ⊢
    have hfirst := has a List.mem_cons_self m
      (((prefix_firstSeen _ _).length_le).trans hcap)
    have hrest := ih (fun b hb ↦ has b (List.mem_cons_of_mem a hb)) hcap
    -- the positions given out in the first child are those of the whole map
    have hkept : (a.rename fun id ↦ (firstSeen m a.ids).idxOf id) =
        a.rename fun id ↦ (firstSeen (firstSeen m a.ids) (as.flatMap ids)).idxOf id :=
      rename_congr fun id hid ↦ (idxOf_firstSeen (mem_firstSeen.2 (Or.inr hid))).symm
    simp only [nvRewriteList, hfirst, hrest, hkept, List.map_cons]

theorem nvRewrite_eq {t : FTerm} (ht : t.ArityCapped) : Numbers t := by
  induction t using TermTree.induct with
  | leaf l =>
    intro m hcap
    cases l with
    | fvr id =>
      have hid := nvId_eq hcap
      simp only [nvRewrite, ids_fvr, rename_fvr, hid]
    | num dtype value => rfl
  | node label args ih =>
    intro m hcap
    obtain ⟨harity, hargs⟩ := TermTree.every_node.1 ht
    rw [ids_node] at hcap ⊢
    rw [nvRewrite, if_neg (Nat.not_lt.2 harity),
      nvRewriteList_eq (fun a ha ↦ ih a ha (hargs a ha)) hcap, rename_node]

/-! ### Pairs -/

/-- The variables of a pair, in the order of their occurrences. -/
def pairIds (p : FTerm × FTerm) : List ℕ := p.1.ids ++ p.2.ids

def pairRename (σ : ℕ → ℕ) (p : FTerm × FTerm) : FTerm × FTerm := (p.1.rename σ, p.2.rename σ)

/-- The pairs the walk reads whole: no node is wider than `REWRITE_MAX_ARITY`, and the map has
room for the variables. -/
structure Normalizable (p : FTerm × FTerm) : Prop where
  left : p.1.ArityCapped
  right : p.2.ArityCapped
  room : (pairIds p).toFinset.card ≤ rewriteMaxVar

/-- The number of a variable: its place among the first occurrences. -/
def pairNumber (p : FTerm × FTerm) (id : ℕ) : ℕ := (firstSeen [] (pairIds p)).idxOf id

theorem pairIds_rename {σ : ℕ → ℕ} {p : FTerm × FTerm} :
    pairIds (pairRename σ p) = (pairIds p).map σ := by
  simp [pairIds, pairRename, ids_rename]

theorem pairRename_congr {σ τ : ℕ → ℕ} {p : FTerm × FTerm} (h : ∀ id ∈ pairIds p, σ id = τ id) :
    pairRename σ p = pairRename τ p :=
  Prod.ext (rename_congr fun id hid ↦ h id (List.mem_append_left _ hid))
    (rename_congr fun id hid ↦ h id (List.mem_append_right _ hid))

theorem pairRename_pairRename (σ τ : ℕ → ℕ) (p : FTerm × FTerm) :
    pairRename τ (pairRename σ p) = pairRename (fun id ↦ τ (σ id)) p :=
  Prod.ext (rename_rename σ τ p.1) (rename_rename σ τ p.2)

theorem pairRename_of_fixed {σ : ℕ → ℕ} {p : FTerm × FTerm} (h : ∀ id ∈ pairIds p, σ id = id) :
    pairRename σ p = p :=
  Prod.ext (rename_of_fixed fun id hid ↦ h id (List.mem_append_left _ hid))
    (rename_of_fixed fun id hid ↦ h id (List.mem_append_right _ hid))

theorem rewriteMaxVar_room {p : FTerm × FTerm} (hp : Normalizable p) :
    (firstSeen [] (pairIds p)).length ≤ rewriteMaxVar := by
  rw [length_firstSeen]
  exact hp.room

/-- `thvm_normalize_vars` renames the pair by its numbering. -/
theorem thvmNormalizeVars_eq {p : FTerm × FTerm} (hp : Normalizable p) :
    thvmNormalizeVars p = pairRename (pairNumber p) p := by
  have hroom : (firstSeen [] ([p.1, p.2].flatMap ids)).length ≤ rewriteMaxVar := by
    simpa [pairIds] using rewriteMaxVar_room hp
  have hsides : ∀ a ∈ [p.1, p.2], Numbers a := by
    simp [nvRewrite_eq hp.left, nvRewrite_eq hp.right]
  have hwalk := nvRewriteList_eq hsides hroom
  simp only [nvRewriteList, List.map_cons, List.map_nil, List.flatMap_cons, List.flatMap_nil,
    List.append_nil, Prod.mk.injEq, List.cons.injEq, and_true] at hwalk
  exact Prod.ext hwalk.1.1 hwalk.1.2

theorem injOn_pairNumber (p : FTerm × FTerm) : Set.InjOn (pairNumber p) {id | id ∈ pairIds p} :=
  fun _ hid _ _ heq ↦ (List.idxOf_inj (mem_firstSeen.2 (Or.inr hid))).1 heq

/-- The numbers are given out in the order of the first occurrences. -/
theorem firstSeen_pairNumber (p : FTerm × FTerm) :
    firstSeen [] ((pairIds p).map (pairNumber p)) = List.range (pairIds p).toFinset.card := by
  have hmap := firstSeen_map (m := []) (f := pairNumber p)
    (by simpa using injOn_pairNumber p)
  rw [List.map_nil] at hmap
  rw [hmap, ← length_firstSeen]
  exact map_idxOf_self (nodup_firstSeen List.nodup_nil)

/-- Injectively renamed pairs have the same numbers at the renamed variables. -/
theorem pairNumber_rename {σ : ℕ → ℕ} {p : FTerm × FTerm}
    (hσ : Set.InjOn σ {id | id ∈ pairIds p}) {id : ℕ} (hid : id ∈ pairIds p) :
    pairNumber (pairRename σ p) (σ id) = pairNumber p id := by
  have hmap := firstSeen_map (m := []) (f := σ) (by simpa using hσ)
  rw [List.map_nil] at hmap
  rw [pairNumber, pairIds_rename, hmap]
  refine idxOf_map (hσ.mono fun x hx ↦ ?_) (mem_firstSeen.2 (Or.inr hid))
  simpa using mem_firstSeen.1 hx

/-- The variable that has the number `i`. -/
def pairVar (p : FTerm × FTerm) (i : ℕ) : ℕ := (firstSeen [] (pairIds p)).getD i 0

theorem pairVar_pairNumber {p : FTerm × FTerm} {id : ℕ} (hid : id ∈ pairIds p) :
    pairVar p (pairNumber p id) = id := by
  have hlt := List.idxOf_lt_length_of_mem (mem_firstSeen (m := []).2 (Or.inr hid))
  rw [pairVar, pairNumber, List.getD_eq_getElem?_getD, List.getElem?_eq_getElem hlt,
    List.getElem_idxOf hlt, Option.getD_some]

/-- Two pairs with the same numbered form are renamings of each other. -/
theorem exists_rename {p q : FTerm × FTerm}
    (h : pairRename (pairNumber p) p = pairRename (pairNumber q) q) :
    ∃ σ : ℕ → ℕ, Set.BijOn σ {id | id ∈ pairIds p} {id | id ∈ pairIds q} ∧
      pairRename σ p = q := by
  have hback : pairRename (fun id ↦ pairVar q (pairNumber p id)) p = q := by
    rw [← pairRename_pairRename, h, pairRename_pairRename]
    exact pairRename_of_fixed fun id hid ↦ pairVar_pairNumber hid
  have hids : pairIds q = (pairIds p).map fun id ↦ pairVar q (pairNumber p id) := by
    rw [← pairIds_rename, hback]
  have hnumbers : (pairIds p).map (pairNumber p) = (pairIds q).map (pairNumber q) := by
    rw [← pairIds_rename, h, pairIds_rename]
  -- the number of a variable of `p` is the one of the variable of `q` it is renamed to
  have hnumber : ∀ id ∈ pairIds p, pairNumber q (pairVar q (pairNumber p id)) =
      pairNumber p id := by
    intro id hid
    have hmem : pairNumber p id ∈ (pairIds q).map (pairNumber q) :=
      hnumbers ▸ List.mem_map_of_mem hid
    obtain ⟨id', hid', heq⟩ := List.mem_map.1 hmem
    rw [← heq, pairVar_pairNumber hid']
  refine ⟨_, ⟨fun id hid ↦ ?_, fun id hid id' hid' heq ↦ ?_, fun id hid ↦ ?_⟩, hback⟩
  · have hmem := List.mem_map_of_mem (f := fun id ↦ pairVar q (pairNumber p id)) hid
    rwa [← hids] at hmem
  · refine injOn_pairNumber p hid hid' ?_
    rw [← hnumber id hid, ← hnumber id' hid']
    exact congrArg _ heq
  · have hmem : id ∈ (pairIds p).map fun id ↦ pairVar q (pairNumber p id) := hids ▸ hid
    exact List.mem_map.1 hmem

theorem normalizable_rename {σ : ℕ → ℕ} {p : FTerm × FTerm} (hp : Normalizable p) :
    Normalizable (pairRename σ p) where
  left := hp.left.subst fun l _ ↦ by cases l <;> exact .leaf _
  right := hp.right.subst fun l _ ↦ by cases l <;> exact .leaf _
  room := by
    have himage : (pairIds (pairRename σ p)).toFinset = (pairIds p).toFinset.image σ := by
      ext x
      simp [pairIds_rename]
    rw [himage]
    exact Finset.card_image_le.trans hp.room

/-- A pair numbered in the order of the first occurrences is its own numbered form. -/
theorem pairNumber_numbered {p : FTerm × FTerm} {id : ℕ}
    (hid : id ∈ pairIds (pairRename (pairNumber p) p)) :
    pairNumber (pairRename (pairNumber p) p) id = id := by
  have hseen : firstSeen [] (pairIds (pairRename (pairNumber p) p)) =
      List.range (pairIds p).toFinset.card := by
    rw [pairIds_rename, firstSeen_pairNumber]
  have hmem := mem_firstSeen (m := []).2 (Or.inr hid)
  rw [hseen] at hmem
  rw [pairNumber, hseen]
  have hlt : id < (List.range (pairIds p).toFinset.card).length := by simpa using hmem
  have hself := List.nodup_range.idxOf_getElem id hlt
  rwa [List.getElem_range] at hself

/-- `thvm_normalize_vars` is canonical: its results agree exactly on the pairs that are renamings
of each other, the ids are `0 .. k - 1` in the order of their first occurrences, and a second
run changes nothing. -/
theorem thvmNormalizeVars_canonical {p q : FTerm × FTerm} (hp : Normalizable p)
    (hq : Normalizable q) :
    (thvmNormalizeVars p = thvmNormalizeVars q ↔
      ∃ σ : ℕ → ℕ, Set.BijOn σ {id | id ∈ pairIds p} {id | id ∈ pairIds q} ∧
        pairRename σ p = q) ∧
    firstSeen [] (pairIds (thvmNormalizeVars p)) = List.range (pairIds p).toFinset.card ∧
    thvmNormalizeVars (thvmNormalizeVars p) = thvmNormalizeVars p := by
  rw [thvmNormalizeVars_eq hp, thvmNormalizeVars_eq hq,
    thvmNormalizeVars_eq (normalizable_rename hp)]
  refine ⟨⟨exists_rename, ?_⟩, ?_, ?_⟩
  · rintro ⟨σ, hσ, rfl⟩
    rw [pairRename_pairRename]
    exact pairRename_congr fun id hid ↦ (pairNumber_rename hσ.injOn hid).symm
  · rw [pairIds_rename]
    exact firstSeen_pairNumber p
  · exact pairRename_of_fixed fun id hid ↦ pairNumber_numbered hid

/-- The variables `5` and `0` change places. -/
theorem thvmNormalizeVars_canonical_swap :
    thvmNormalizeVars (.ctr 1 [.fvr 5, .fvr 0], .fvr 5) =
      thvmNormalizeVars (.ctr 1 [.fvr 0, .fvr 5], .fvr 0) :=
  (thvmNormalizeVars_canonical ⟨by decide, by decide, by decide⟩
    ⟨by decide, by decide, by decide⟩).1.2
    ⟨fun id ↦ 5 - id, ⟨by simp [Set.MapsTo, pairIds], by simp [Set.InjOn, pairIds],
      by simp [Set.SurjOn, pairIds, Set.subset_def]⟩, by decide⟩

/-- An equation whose left side is wider than the cap. -/
def wideEquation (id : ℕ) : FTerm × FTerm := (.ctr 1 (List.replicate 17 (.fvr id)), .num 0 0)

/-- A node that is wider than the cap is returned as it is: its variables keep their ids, and
the forms of renamings of it differ. -/
theorem thvmNormalizeVars_wide :
    (pairIds (wideEquation 1)).toFinset.card ≤ rewriteMaxVar ∧
      firstSeen [] (pairIds (thvmNormalizeVars (wideEquation 1))) ≠
        List.range (pairIds (wideEquation 1)).toFinset.card ∧
      pairRename (fun id ↦ id + 1) (wideEquation 1) = wideEquation 2 ∧
      thvmNormalizeVars (wideEquation 1) ≠ thvmNormalizeVars (wideEquation 2) := by
  decide

end Thvm
