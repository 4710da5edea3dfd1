import Thvm.AcCanon

/-!
# The canonical form decides equality modulo AC

A canonical form is equal to its term modulo AC and canonical itself. Two terms equal modulo
AC have, at every AC position, leaves with the same canonical forms in some order; where no
two of these have one hash the sorted chains are the same.
-/

namespace Thvm.Ac

open Ft (atpTermStructHash)
open TermTree (spread chain normal Binary AcEq)

variable {ac : AtpAcInfo} {label : ℕ} {s t u : FTerm} {args xs ys : List FTerm}

/-- The AC labels. -/
abbrev AtpAcInfo.labels (ac : AtpAcInfo) : ℕ → Prop := fun label => ac.isAcLabel label = true

/-- AC symbols are binary, with at most 64 leaves at a position; the other symbols are within
the cap on arguments. -/
structure Fits (ac : AtpAcInfo) (t : FTerm) : Prop where
  binary : Binary ac.labels t
  capped : ∀ p label args, t.sub p = some (.node label args) → ac.isAcLabel label = true →
    (spread label (.node label args)).length ≤ flattenCap
  arity : ∀ p label args, t.sub p = some (.node label args) → ac.isAcLabel label = false →
    args.length ≤ rewriteMaxArity

/-- No two canonical forms of subterms have the same hash. -/
def NoCollision (ac : AtpAcInfo) (t : FTerm) : Prop :=
  ∀ p q u v, t.sub p = some u → t.sub q = some v →
    atpTermStructHash (atpAcCanon ac u) = atpTermStructHash (atpAcCanon ac v) →
    atpAcCanon ac u = atpAcCanon ac v

/-! ## Sorting -/

theorem insertLeaf_perm (xs : List FTerm) (x : FTerm) : (insertLeaf xs x).Perm (x :: xs) :=
  List.perm_orderedInsert _ x xs

theorem foldl_insertLeaf_perm (xs ys : List FTerm) :
    (xs.foldl insertLeaf ys).Perm (xs.reverse ++ ys) := by
  induction xs generalizing ys with
  | nil => exact .refl _
  | cons x xs ih =>
    rw [List.foldl_cons, List.reverse_cons, List.append_assoc]
    exact (ih _).trans ((insertLeaf_perm ys x).append_left _)

theorem sortLeaves_perm (xs : List FTerm) : (sortLeaves xs).Perm xs := by
  have h := foldl_insertLeaf_perm xs []
  rw [List.append_nil] at h
  exact ((List.reverse_perm _).trans h).trans (List.reverse_perm xs)

/-- Ascending hashes. -/
def Sorted (xs : List FTerm) : Prop :=
  xs.Pairwise fun a b => atpTermStructHash a ≤ atpTermStructHash b

/-- Descending hashes, as the sorted prefix has them. -/
abbrev Descends (a b : FTerm) : Prop := atpTermStructHash b ≤ atpTermStructHash a

instance : Std.Total Descends := ⟨fun _ b => Nat.le_total (atpTermStructHash b) _⟩

instance : IsTrans FTerm Descends := ⟨fun _ _ _ h h' => Nat.le_trans h' h⟩

theorem sortLeaves_sorted (xs : List FTerm) : Sorted (sortLeaves xs) := by
  have hfold (ys : List FTerm) (h : ys.Pairwise Descends) :
      (xs.foldl insertLeaf ys).Pairwise Descends := by
    induction xs generalizing ys with
    | nil => exact h
    | cons x xs ih => exact ih _ (h.orderedInsert x ys)
  exact List.pairwise_reverse.mpr (hfold [] .nil)

theorem insertLeaf_of_le {x : FTerm} (h : ∀ y ∈ xs, atpTermStructHash y ≤ atpTermStructHash x) :
    insertLeaf xs x = x :: xs := by
  cases xs with
  | nil => rfl
  | cons y ys => exact List.orderedInsert_cons_of_le _ ys (h y List.mem_cons_self)

/-- Sorted leaves stay where they are. -/
theorem sortLeaves_of_sorted (h : Sorted xs) : sortLeaves xs = xs := by
  have hfold (zs ys : List FTerm) (hsort : Sorted (zs.reverse ++ ys)) :
      ys.foldl insertLeaf zs = ys.reverse ++ zs := by
    induction ys generalizing zs with
    | nil => rfl
    | cons y ys ih =>
      have hle (z) (hz : z ∈ zs) : atpTermStructHash z ≤ atpTermStructHash y :=
        (List.pairwise_append.mp hsort).2.2 z (List.mem_reverse.mpr hz) y List.mem_cons_self
      rw [List.foldl_cons, insertLeaf_of_le hle, ih (y :: zs) (by simpa using hsort)]
      simp
  unfold sortLeaves
  rw [hfold [] xs (by simpa using h), List.append_nil, List.reverse_reverse]

/-- Without collisions the sorted order depends on the multiset of leaves only. -/
theorem sortLeaves_eq (hperm : xs.Perm ys)
    (hinj : ∀ x ∈ xs, ∀ y ∈ xs, atpTermStructHash x = atpTermStructHash y → x = y) :
    sortLeaves xs = sortLeaves ys := by
  have h : (sortLeaves xs).Perm (sortLeaves ys) :=
    (sortLeaves_perm xs).trans (hperm.trans (sortLeaves_perm ys).symm)
  refine h.eq_of_pairwise (fun a b ha hb hab hba => ?_) (sortLeaves_sorted xs)
    (sortLeaves_sorted ys)
  have ha' := (sortLeaves_perm xs).mem_iff.mp ha
  have hb' := hperm.mem_iff.mpr ((sortLeaves_perm ys).mem_iff.mp hb)
  exact hinj a ha' b hb' (Nat.le_antisymm hab hba)

/-! ## One position -/

theorem foldr_eq_chain (label : ℕ) (xs : List FTerm) (last : FTerm) :
    xs.foldr (fun leaf acc => .ctr label [leaf, acc]) last = chain label (xs ++ [last]) := by
  induction xs with
  | nil => rfl
  | cons x xs ih => rw [List.foldr_cons, ih, List.cons_append, TermTree.chain_cons (by simp)]

theorem buildChain_eq (label : ℕ) (xs : List FTerm) : buildChain label xs = chain label xs := by
  unfold buildChain
  split
  · next h =>
    rw [List.getLast?_eq_none_iff.mp h]
    rfl
  · next last h => rw [foldr_eq_chain, List.dropLast_append_getLast? last h]

@[simp] theorem canonRec_leaf (l : Leaf) : canonRec ac (.leaf l) = .leaf l := by
  rw [canonRec]

theorem canonRec_of_fit (hlabel : ac.isAcLabel label = true)
    (hfit : (spread label (.node label args)).length ≤ flattenCap) :
    canonRec ac (.node label args) =
      chain label (sortLeaves ((spread label (.node label args)).map (canonRec ac))) := by
  rw [canonRec, if_pos hlabel]
  split
  · next h =>
    rw [flattenUnder_nil, if_pos hfit] at h
    cases h
  · next leaves h =>
    obtain rfl := eq_spread h
    rw [buildChain_eq, List.attach_map_val]

theorem canonRec_of_full (hlabel : ac.isAcLabel label = true)
    (hfull : ¬ (spread label (.node label args)).length ≤ flattenCap) :
    canonRec ac (.node label args) = .node label args := by
  rw [canonRec, if_pos hlabel]
  split
  · rfl
  · next leaves h =>
    rw [flattenUnder_nil, if_neg hfull] at h
    cases h

theorem canonRec_other (hlabel : ac.isAcLabel label = false)
    (hlen : args.length ≤ rewriteMaxArity) :
    canonRec ac (.node label args) = .node label (args.map (canonRec ac)) := by
  rw [canonRec, if_neg (by simp [hlabel]), if_neg (by omega), List.attach_map_val]

theorem canonRec_wide (hlabel : ac.isAcLabel label = false)
    (hlen : rewriteMaxArity < args.length) : canonRec ac (.node label args) = .node label args := by
  rw [canonRec, if_neg (by simp [hlabel]), if_pos hlen]

/-- A canonical form keeps the label of its term. -/
theorem canonRec_top (h : Binary ac.labels (.node label args)) :
    ∃ bs, canonRec ac (.node label args) = .node label bs := by
  cases hlabel : ac.isAcLabel label with
  | false =>
    by_cases hlen : args.length ≤ rewriteMaxArity
    · exact ⟨_, canonRec_other hlabel hlen⟩
    · exact ⟨_, canonRec_wide hlabel (by omega)⟩
  | true =>
    by_cases hfit : (spread label (.node label args)).length ≤ flattenCap
    · obtain ⟨hlen, hargs⟩ := TermTree.every_node.mp h
      obtain ⟨a, b, rfl⟩ := List.length_eq_two.mp (hlen hlabel)
      have hac : ac.labels label := hlabel
      have ha := List.length_pos_iff.mpr (TermTree.spread_ne_nil hac (hargs a (by simp)))
      have hb := List.length_pos_iff.mpr (TermTree.spread_ne_nil hac (hargs b (by simp)))
      rw [canonRec_of_fit hlabel hfit]
      apply TermTree.chain_top
      rw [(sortLeaves_perm _).length_eq, List.length_map, TermTree.spread_self]
      simp only [List.flatMap_cons, List.flatMap_nil, List.append_nil, List.length_append]
      omega
    · exact ⟨_, canonRec_of_full hlabel hfit⟩

/-- The canonical form of a leaf of a position is a leaf of the position. -/
theorem spread_canonRec (hu : Binary ac.labels u) (h : spread label u = [u]) :
    spread label (canonRec ac u) = [canonRec ac u] := by
  cases u with
  | leaf l => rw [canonRec_leaf, TermTree.spread_leaf]
  | node g as =>
    obtain ⟨bs, hbs⟩ := canonRec_top hu
    rw [hbs]
    by_cases hg : g = label
    · subst hg
      have hmem : TermTree.node g as ∈ spread g (.node g as) := by rw [h]; exact List.mem_cons_self
      exact absurd (TermTree.size_lt_of_mem_spread hmem) (lt_irrefl _)
    · exact TermTree.spread_of_ne hg

/-! ## Whole terms -/

theorem binary_of_mem_spread (h : Binary ac.labels t) (hu : u ∈ spread label t) :
    Binary ac.labels u := by
  induction t using TermTree.induct with
  | leaf l =>
    obtain rfl := List.mem_singleton.mp hu
    exact h
  | node g args ih =>
    by_cases hg : g = label
    · subst hg
      rw [TermTree.spread_self] at hu
      obtain ⟨a, ha, hua⟩ := List.mem_flatMap.mp hu
      exact ih a ha ((TermTree.every_node.mp h).2 a ha) hua
    · rw [TermTree.spread_of_ne hg] at hu
      obtain rfl := List.mem_singleton.mp hu
      exact h

/-- Induction over the leaves of AC positions and the arguments of the other nodes. -/
theorem acInduct {motive : FTerm → Prop} (leaf : ∀ l, motive (.leaf l))
    (node : ∀ label args, (∀ a ∈ args, motive a) →
      (∀ u ∈ spread label (.node label args), motive u) → motive (.node label args))
    (t : FTerm) : motive t := by
  induction hn : t.size using Nat.strong_induction_on generalizing t with
  | _ n ih =>
    cases t with
    | leaf l => exact leaf l
    | node label args =>
      refine node label args (fun a ha => ?_) (fun u hu => ?_)
      · exact ih _ (hn ▸ TermTree.size_lt label ha) a rfl
      · exact ih _ (hn ▸ TermTree.size_lt_of_mem_spread hu) u rfl

/-- The canonical form is equal to the term modulo AC. -/
theorem canonRec_acEq (h : Binary ac.labels t) : AcEq ac.labels (canonRec ac t) t := by
  induction t using acInduct with
  | leaf l => exact .of_eq (canonRec_leaf l)
  | node label args ihargs ihleaves =>
    obtain ⟨-, hargs⟩ := TermTree.every_node.mp h
    cases hlabel : ac.isAcLabel label with
    | false =>
      by_cases hlen : args.length ≤ rewriteMaxArity
      · rw [canonRec_other hlabel hlen]
        exact .args_map label fun a ha => ihargs a ha (hargs a ha)
      · exact .of_eq (canonRec_wide hlabel (by omega))
    | true =>
      by_cases hfit : (spread label (.node label args)).length ≤ flattenCap
      · rw [canonRec_of_fit hlabel hfit]
        have hac : ac.labels label := hlabel
        have hsort := AcEq.chain_perm hac
          (sortLeaves_perm ((spread label (.node label args)).map (canonRec ac)))
        have hleaves : List.Forall₂ (AcEq ac.labels)
            ((spread label (.node label args)).map (canonRec ac))
            (spread label (.node label args)) :=
          List.forall₂_map_left_iff.mpr (List.forall₂_same.mpr fun u hu =>
            ihleaves u hu (binary_of_mem_spread h hu))
        exact hsort.trans ((AcEq.chain_congr hleaves).trans (AcEq.chain_spread hac h))
      · exact .of_eq (canonRec_of_full hlabel hfit)

/-- A canonical form is canonical. -/
theorem canonRec_canonRec (h : Binary ac.labels t) :
    canonRec ac (canonRec ac t) = canonRec ac t := by
  induction t using acInduct with
  | leaf l => rw [canonRec_leaf, canonRec_leaf]
  | node label args ihargs ihleaves =>
    obtain ⟨-, hargs⟩ := TermTree.every_node.mp h
    cases hlabel : ac.isAcLabel label with
    | false =>
      by_cases hlen : args.length ≤ rewriteMaxArity
      · rw [canonRec_other hlabel hlen, canonRec_other hlabel (by simpa using hlen), List.map_map]
        congr 1
        exact List.map_congr_left fun a ha => ihargs a ha (hargs a ha)
      · have hwide := canonRec_wide hlabel (Nat.lt_of_not_le hlen)
        rw [hwide, hwide]
    | true =>
      by_cases hfit : (spread label (.node label args)).length ≤ flattenCap
      · obtain ⟨bs, hbs⟩ := canonRec_top h
        have hcanon := canonRec_of_fit hlabel hfit
        generalize hxs : sortLeaves ((spread label (.node label args)).map (canonRec ac)) = xs
          at hcanon
        have hmem (x) (hx : x ∈ xs) : ∃ u ∈ spread label (.node label args),
            canonRec ac u = x := by
          rw [← hxs] at hx
          exact List.mem_map.mp ((sortLeaves_perm _).mem_iff.mp hx)
        have hspread : spread label (.node label bs) = xs := by
          rw [← hbs, hcanon]
          refine TermTree.spread_chain fun x hx => ?_
          obtain ⟨u, hu, rfl⟩ := hmem x hx
          exact spread_canonRec (binary_of_mem_spread h hu) (TermTree.spread_spread hu)
        have hfix : xs.map (canonRec ac) = xs := by
          refine (List.map_congr_left fun x hx => ?_).trans (List.map_id xs)
          obtain ⟨u, hu, rfl⟩ := hmem x hx
          exact ihleaves u hu (binary_of_mem_spread h hu)
        have hlen : xs.length ≤ flattenCap := by
          rw [← hxs, (sortLeaves_perm _).length_eq, List.length_map]
          exact hfit
        rw [hbs, canonRec_of_fit hlabel (hspread ▸ hlen), hspread, hfix, ← hbs, hcanon, ← hxs,
          sortLeaves_of_sorted (sortLeaves_sorted _)]
      · have hfull := canonRec_of_full hlabel hfit
        rw [hfull, hfull]

/-! ## Deciding equality -/

theorem exists_sub_of_mem_spread (h : u ∈ spread label t) : ∃ p, t.sub p = some u := by
  induction t using TermTree.induct with
  | leaf l =>
    obtain rfl := List.mem_singleton.mp h
    exact ⟨[], rfl⟩
  | node g args ih =>
    by_cases hg : g = label
    · subst hg
      rw [TermTree.spread_self] at h
      obtain ⟨a, ha, hu⟩ := List.mem_flatMap.mp h
      obtain ⟨i, hi⟩ := List.mem_iff_getElem?.mp ha
      obtain ⟨p, hp⟩ := ih a ha hu
      exact ⟨i :: p, TermTree.sub_cons.mpr ⟨g, args, a, rfl, hi, hp⟩⟩
    · rw [TermTree.spread_of_ne hg] at h
      obtain rfl := List.mem_singleton.mp h
      exact ⟨[], rfl⟩

theorem Fits.sub (h : Fits ac t) {p : List ℕ} (hp : t.sub p = some u) : Fits ac u where
  binary := h.binary.sub hp
  capped q label args hq := h.capped (p ++ q) label args (by rw [TermTree.sub_append, hp]; exact hq)
  arity q label args hq := h.arity (p ++ q) label args (by rw [TermTree.sub_append, hp]; exact hq)

theorem NoCollision.sub (h : NoCollision ac t) {p : List ℕ} (hp : t.sub p = some u) :
    NoCollision ac u := by
  intro q q' v v' hv hv'
  apply h (p ++ q) (p ++ q') v v'
  · rw [TermTree.sub_append, hp]
    exact hv
  · rw [TermTree.sub_append, hp]
    exact hv'

/-- Where equal keys mean equal values, permuted keys mean permuted values. -/
theorem map_perm_map {α β γ : Type} {φ : α → β} {ψ : α → γ} {xs ys : List α}
    (hperm : (xs.map φ).Perm (ys.map φ)) (h : ∀ x ∈ xs, ∀ y ∈ ys, φ x = φ y → ψ x = ψ y) :
    (xs.map ψ).Perm (ys.map ψ) := by
  have hcomp := (congrFun (congrFun (List.eq_map_comp_perm φ) (xs.map φ)) ys).mpr hperm
  obtain ⟨zs, hzs, hys⟩ := hcomp
  have hmap : xs.map ψ = zs.map ψ := by
    have hmem (z) (hz : z ∈ zs) : z ∈ ys := hys.mem_iff.mp hz
    clear hys hperm
    induction xs generalizing zs with
    | nil =>
      rw [List.map_eq_nil_iff.mp hzs.symm]
    | cons x xs ih =>
      cases zs with
      | nil => cases hzs
      | cons z zs =>
        rw [List.map_cons, List.map_cons, List.cons.injEq] at hzs
        rw [List.map_cons, List.map_cons, h x List.mem_cons_self z (hmem z List.mem_cons_self) hzs.1,
          ih (fun x' hx' => h x' (List.mem_cons_of_mem x hx')) zs hzs.2
            fun z' hz' => hmem z' (List.mem_cons_of_mem z hz')]
  rw [hmap]
  exact hys.map ψ

/-- Terms with one normal form have one canonical form. -/
theorem canonRec_eq_of_normal (hs : Fits ac s) (ht : Fits ac t) (hapart : NoCollision ac s)
    (h : normal ac.labels s = normal ac.labels t) : canonRec ac s = canonRec ac t := by
  induction s using acInduct generalizing t with
  | leaf l => rw [TermTree.eq_leaf_of_normal ht.binary (h.symm.trans rfl)]
  | node label args ihargs ihleaves =>
    obtain ⟨bs, rfl⟩ := TermTree.eq_node_of_normal hs.binary ht.binary h
    cases hlabel : ac.isAcLabel label with
    | false =>
      have hnot : ¬ ac.labels label := by simp [hlabel]
      rw [TermTree.normal_of_notMem hnot, TermTree.normal_of_notMem hnot,
        TermTree.node.injEq] at h
      have hlen : args.length = bs.length := by simpa using congrArg List.length h.2
      have hcap := hs.arity [] label args rfl hlabel
      rw [canonRec_other hlabel hcap, canonRec_other hlabel (hlen ▸ hcap)]
      congr 1
      apply List.ext_getElem?
      intro i
      have hi := congrArg (·[i]?) h.2
      simp only [List.getElem?_map] at hi ⊢
      cases ha : args[i]? with
      | none =>
        rw [ha] at hi
        rw [Option.map_eq_none_iff.mp hi.symm]
      | some a =>
        rw [ha] at hi
        obtain ⟨b, hb, hab⟩ := Option.map_eq_some_iff.mp hi.symm
        have hasub : (FTerm.ctr label args).sub [i] = some a := by simp [TermTree.sub, ha]
        have hbsub : (FTerm.ctr label bs).sub [i] = some b := by simp [TermTree.sub, hb]
        rw [hb]
        exact congrArg some (ihargs a (List.mem_of_getElem? ha) (hs.sub hasub) (ht.sub hbsub)
          (hapart.sub hasub) hab.symm)
    | true =>
      rw [canonRec_of_fit hlabel (hs.capped [] label args rfl hlabel),
        canonRec_of_fit hlabel (ht.capped [] label bs rfl hlabel)]
      have hac : ac.labels label := hlabel
      have hperm := map_perm_map (ψ := canonRec ac)
        (TermTree.spread_perm_of_normal hac hs.binary ht.binary h)
        fun u hu v hv huv => by
          obtain ⟨p, hp⟩ := exists_sub_of_mem_spread hu
          obtain ⟨q, hq⟩ := exists_sub_of_mem_spread hv
          exact ihleaves u hu (hs.sub hp) (ht.sub hq) (hapart.sub hp) huv
      congr 1
      refine sortLeaves_eq hperm fun x hx y hy => ?_
      obtain ⟨u, hu, rfl⟩ := List.mem_map.mp hx
      obtain ⟨v, hv, rfl⟩ := List.mem_map.mp hy
      obtain ⟨p, hp⟩ := exists_sub_of_mem_spread hu
      obtain ⟨q, hq⟩ := exists_sub_of_mem_spread hv
      exact hapart p q u v hp hq

theorem atpAcCanon_eq_iff (hs : Fits ac s) (ht : Fits ac t) (hapart : NoCollision ac s) :
    atpAcCanon ac s = atpAcCanon ac t ↔ AcEq ac.labels s t := by
  constructor
  · intro h
    have hcs := canonRec_acEq hs.binary
    have hct := canonRec_acEq ht.binary
    exact hcs.symm.trans ((AcEq.of_eq h).trans hct)
  · intro h
    exact canonRec_eq_of_normal hs ht hapart h.normal_eq

/-- With an empty mask no label is AC. -/
theorem isAcLabel_of_mask_zero (h : ac.acMask = 0) (label : ℕ) : ac.isAcLabel label = false := by
  simp [AtpAcInfo.isAcLabel, h]

theorem canonRec_of_no_labels (h : ∀ label, ac.isAcLabel label = false) (t : FTerm) :
    canonRec ac t = t := by
  induction t using TermTree.induct with
  | leaf l => exact canonRec_leaf l
  | node label args ih =>
    by_cases hlen : args.length ≤ rewriteMaxArity
    · rw [canonRec_other (h label) hlen]
      congr 1
      exact (List.map_congr_left ih).trans (List.map_id args)
    · exact canonRec_wide (h label) (by omega)

theorem atpAcEq_eq_true : atpAcEq s t (some ac) = true ↔ atpAcCanon ac s = atpAcCanon ac t := by
  unfold atpAcEq
  by_cases hst : s = t
  · simp [hst]
  · by_cases hmask : ac.acMask = 0
    · have hcanon := canonRec_of_no_labels (isAcLabel_of_mask_zero hmask)
      simp [hst, hmask, atpAcCanon, hcanon]
    · simp [hst, hmask]

theorem atpAcHash_eq : atpAcHash t (some ac) = atpTermStructHash (atpAcCanon ac t) := by
  unfold atpAcHash
  by_cases hmask : ac.acMask = 0
  · simp [hmask, atpAcCanon, canonRec_of_no_labels (isAcLabel_of_mask_zero hmask)]
  · simp [hmask]

/-- The canonical form is a term of the same class and canonical itself, equality is decided
by it, and the hash is one for each class. -/
theorem atpAcCanon_decides (ac : AtpAcInfo) (s t : FTerm) (hs : Fits ac s) (ht : Fits ac t)
    (hapart : NoCollision ac s) :
    AcEq ac.labels (atpAcCanon ac s) s ∧
    atpAcCanon ac (atpAcCanon ac s) = atpAcCanon ac s ∧
    (atpAcEq s t (some ac) = true ↔ AcEq ac.labels s t) ∧
    (AcEq ac.labels s t → atpAcHash s (some ac) = atpAcHash t (some ac)) := by
  have hiff := atpAcCanon_eq_iff hs ht hapart
  refine ⟨canonRec_acEq hs.binary, canonRec_canonRec hs.binary, atpAcEq_eq_true.trans hiff, ?_⟩
  intro h
  rw [atpAcHash_eq, atpAcHash_eq, hiff.mpr h]

/-! ## Two constants -/

/-- The sum of two constants, with label 0. -/
def constSum (i j : ℕ) : FTerm := .ctr 0 [.ctr i [], .ctr j []]

theorem sub_constSum {i j : ℕ} {p : List ℕ} (h : (constSum i j).sub p = some u) :
    u = constSum i j ∨ u = .ctr i [] ∨ u = .ctr j [] := by
  have hconst {k : ℕ} {q : List ℕ} (hq : (FTerm.ctr k []).sub q = some u) : u = .ctr k [] := by
    cases q with
    | nil => simpa using hq.symm
    | cons i q => simp [TermTree.sub] at hq
  cases p with
  | nil => exact .inl (by simpa using h.symm)
  | cons n p =>
    obtain ⟨f, args, a, heq, ha, hu⟩ := TermTree.sub_cons.mp h
    cases heq
    cases n with
    | zero =>
      cases ha
      exact .inr (.inl (hconst hu))
    | succ n =>
      cases n with
      | zero =>
        cases ha
        exact .inr (.inr (hconst hu))
      | succ n => simp at ha

theorem isAcLabel_one (k : ℕ) : AtpAcInfo.isAcLabel ⟨1⟩ k = true ↔ k = 0 := by
  rw [AtpAcInfo.isAcLabel, Bool.and_eq_true, decide_eq_true_eq,
    Nat.testBit_one_eq_true_iff_self_eq_zero]
  omega

theorem fits_constSum {i j : ℕ} (hi : 0 < i) (hj : 0 < j) : Fits ⟨1⟩ (constSum i j) := by
  have hlabel := isAcLabel_one
  constructor
  · unfold Binary constSum
    rw [TermTree.every_node]
    refine ⟨fun _ => rfl, fun a ha => ?_⟩
    rcases List.mem_pair.mp ha with rfl | rfl
    · exact .node (fun h => absurd ((hlabel i).mp h) (by omega)) (by simp)
    · exact .node (fun h => absurd ((hlabel j).mp h) (by omega)) (by simp)
  · intro p label args hp hac
    rcases sub_constSum hp with h | h | h
    · cases h
      rw [TermTree.spread_self]
      simp [TermTree.spread_of_ne (show i ≠ 0 by omega),
        TermTree.spread_of_ne (show j ≠ 0 by omega), flattenCap]
    · cases h
      exact absurd ((hlabel i).mp hac) (by omega)
    · cases h
      exact absurd ((hlabel j).mp hac) (by omega)
  · intro p label args hp hac
    rcases sub_constSum hp with h | h | h <;> cases h <;> simp [rewriteMaxArity]

theorem atpAcCanon_constSum : atpAcCanon ⟨1⟩ (constSum 2 1) = constSum 1 2 := by
  have hconst (k : ℕ) (hk : AtpAcInfo.isAcLabel ⟨1⟩ k = false) :
      canonRec ⟨1⟩ (.ctr k []) = .ctr k [] := canonRec_other hk (Nat.zero_le _)
  unfold atpAcCanon constSum
  rw [canonRec_of_fit (by decide) (by decide)]
  have hspread : spread 0 (FTerm.ctr 0 [FTerm.ctr 2 [], FTerm.ctr 1 []]) =
      [FTerm.ctr 2 [], FTerm.ctr 1 []] := by decide
  rw [hspread, List.map_cons, List.map_cons, List.map_nil, hconst 2 (by decide),
    hconst 1 (by decide)]
  decide

theorem noCollision_constSum : NoCollision ⟨1⟩ (constSum 2 1) := by
  have hconst (k : ℕ) (hk : AtpAcInfo.isAcLabel ⟨1⟩ k = false) :
      atpAcCanon ⟨1⟩ (.ctr k []) = .ctr k [] := canonRec_other hk (Nat.zero_le _)
  have hcanon {p u} (hu : (constSum 2 1).sub p = some u) :
      atpAcCanon ⟨1⟩ u ∈ [constSum 1 2, .ctr 2 [], .ctr 1 []] := by
    rcases sub_constSum hu with rfl | rfl | rfl
    · rw [atpAcCanon_constSum]
      decide
    · rw [hconst 2 (by decide)]
      decide
    · rw [hconst 1 (by decide)]
      decide
  have hinj : ∀ x ∈ [constSum 1 2, .ctr 2 [], .ctr 1 []],
      ∀ y ∈ [constSum 1 2, .ctr 2 [], .ctr 1 []],
      atpTermStructHash x = atpTermStructHash y → x = y := by decide
  exact fun p q u v hu hv heq => hinj _ (hcanon hu) _ (hcanon hv) heq

theorem atpAcCanon_decides_constSum :
    AcEq (AtpAcInfo.labels ⟨1⟩) (atpAcCanon ⟨1⟩ (constSum 2 1)) (constSum 2 1) ∧
    atpAcCanon ⟨1⟩ (atpAcCanon ⟨1⟩ (constSum 2 1)) = atpAcCanon ⟨1⟩ (constSum 2 1) ∧
    (atpAcEq (constSum 2 1) (constSum 1 2) (some ⟨1⟩) = true ↔
      AcEq (AtpAcInfo.labels ⟨1⟩) (constSum 2 1) (constSum 1 2)) ∧
    (AcEq (AtpAcInfo.labels ⟨1⟩) (constSum 2 1) (constSum 1 2) →
      atpAcHash (constSum 2 1) (some ⟨1⟩) = atpAcHash (constSum 1 2) (some ⟨1⟩)) :=
  atpAcCanon_decides ⟨1⟩ (constSum 2 1) (constSum 1 2) (fits_constSum (by decide) (by decide))
    (fits_constSum (by decide) (by decide)) noCollision_constSum

end Thvm.Ac
