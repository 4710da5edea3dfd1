import Thvm.BestFirstSearch
import Thvm.StablePriority

/-!
# Ordered collapse

`collapse/ordered.c`: a depth-first walk gathers the leaves with their number of priority
wrappers, up to the size of the buffer, and then sorts what it has gathered.
-/

namespace Thvm.Collapse

open Priority

/-- A leaf, its `pri`, and its `idx` in depth-first order. -/
abbrev CollapseLeafPri := Ticket Term

def u32 (n : ℕ) : ℕ := n % 2 ^ 32

def collapseWalkPri (w : Readback) (cap : ℕ) :
    ℕ → Term → ℕ → List CollapseLeafPri × Heap → Option (List CollapseLeafPri × Heap)
  | 0, _, _, _ => none
  | rounds + 1, t, pri, (buf, h) =>
    if cap ≤ buf.length then some (buf, h)
    else
      let (v, h) := cnf w t h
      match v.tag with
      | .sup =>
        let l := h v.val
        let r := h (v.val + 1)
        (collapseWalkPri w cap rounds l pri (buf, h)).bind (collapseWalkPri w cap rounds r pri)
      | .era => some (buf, h)
      | .inc => collapseWalkPri w cap rounds (h v.val) (u32 (pri + 1)) (buf, h)
      | _ => some (buf ++ [⟨v, pri, u32 buf.length⟩], h)

/-- The sorted buffer; `none` when the walk runs out of rounds. -/
def thvmCollapseOrdered (w : Readback) (rounds : ℕ) (t : Term) (cap : ℕ) (h : Heap) :
    Option (List Term × Heap) :=
  if cap = 0 then some ([], h)
  else (collapseWalkPri w cap rounds t 0 ([], h)).map fun s ↦ ((sort s.1).map Ticket.item, s.2)

variable {w : Readback} {cells : Set ℕ} {h : Heap} {cap : ℕ}

theorem number_take_append {α : Type} (l : List (α × ℕ)) (x : α × ℕ) (hlen : l.length < cap) :
    number 0 ((l ++ [x]).take cap) = number 0 l ++ [⟨x.1, x.2, l.length⟩] := by
  rw [List.take_of_length_le (by rw [List.length_append]; exact hlen), number_append,
    Nat.zero_add]
  rfl

section Step

variable {rounds pri : ℕ} {t v : Term} {buf : List CollapseLeafPri} {h' : Heap}

theorem collapseWalkPri_full (hlen : cap ≤ buf.length) :
    collapseWalkPri w cap (rounds + 1) t pri (buf, h) = some (buf, h) := by
  rw [collapseWalkPri, if_pos hlen]

variable (hlen : buf.length < cap) (hcnf : cnf w t h = (v, h'))
include hlen hcnf

theorem collapseWalkPri_leaf (hsup : v.tag ≠ .sup) (hera : v.tag ≠ .era) (hinc : v.tag ≠ .inc) :
    collapseWalkPri w cap (rounds + 1) t pri (buf, h) =
      some (buf ++ [⟨v, pri, u32 buf.length⟩], h') := by
  rw [collapseWalkPri, if_neg (not_le.2 hlen), hcnf]
  cases htag : v.tag <;> simp_all

theorem collapseWalkPri_era (hera : v.tag = .era) :
    collapseWalkPri w cap (rounds + 1) t pri (buf, h) = some (buf, h') := by
  rw [collapseWalkPri, if_neg (not_le.2 hlen), hcnf]
  simp [hera]

theorem collapseWalkPri_inc (hinc : v.tag = .inc) :
    collapseWalkPri w cap (rounds + 1) t pri (buf, h) =
      collapseWalkPri w cap rounds (h' v.val) (u32 (pri + 1)) (buf, h') := by
  rw [collapseWalkPri, if_neg (not_le.2 hlen), hcnf]
  simp [hinc]

theorem collapseWalkPri_sup (hsup : v.tag = .sup) :
    collapseWalkPri w cap (rounds + 1) t pri (buf, h) =
      (collapseWalkPri w cap rounds (h' v.val) pri (buf, h')).bind
        (collapseWalkPri w cap rounds (h' (v.val + 1)) pri) := by
  rw [collapseWalkPri, if_neg (not_le.2 hlen), hcnf]
  simp [hsup]

end Step

/-- Only walks into a buffer with room are of interest. -/
theorem walk_cases {t : Term} {T : Tree} {pri rounds : ℕ} {h' : Heap} {l : List (Term × ℕ)}
    (hl : l.length ≤ cap) (hrounds : T.height ≤ rounds) (hsame : SameCells cells h h')
    (step : ∀ r, l.length < cap → (number 0 l).length < cap → T.height ≤ r + 1 →
      ∃ h'', collapseWalkPri w cap (r + 1) t pri (number 0 l, h') =
        some (number 0 ((l ++ T.leaves pri).take cap), h'') ∧ SameCells cells h h'') :
    ∃ h'', collapseWalkPri w cap rounds t pri (number 0 l, h') =
      some (number 0 ((l ++ T.leaves pri).take cap), h'') ∧ SameCells cells h h'' := by
  have hlen := length_number 0 l
  have hpos := T.height_pos
  obtain ⟨r, rfl⟩ : ∃ r, rounds = r + 1 := ⟨rounds - 1, by omega⟩
  rcases hl.lt_or_eq with hlt | heq
  · exact step r hlt (by omega) hrounds
  · rw [collapseWalkPri_full (by omega), List.take_append_of_le_length heq.ge,
      List.take_of_length_le hl]
    exact ⟨h', rfl, hsame⟩

theorem take_take_append {α : Type} (l l' : List α) (c : ℕ) :
    (l.take c ++ l').take c = (l ++ l').take c := by
  rw [List.take_append, List.take_append, List.take_take, Nat.min_self, List.length_take]
  congr 2
  omega

/-- The walk appends the leaves of its tree as long as they fit. -/
theorem collapseWalkPri_spec {t : Term} {T : Tree} (ht : Unfolds w cells h t T) {pri : ℕ}
    (hpri : pri + T.incDepth < 2 ^ 32) {rounds : ℕ} (hrounds : T.height ≤ rounds) {h' : Heap}
    (hsame : SameCells cells h h') {l : List (Term × ℕ)} (hl : l.length ≤ cap)
    (hfit : min cap (l.length + (T.leaves pri).length) ≤ 2 ^ 32) :
    ∃ h'', collapseWalkPri w cap rounds t pri (number 0 l, h') =
        some (number 0 ((l ++ T.leaves pri).take cap), h'') ∧ SameCells cells h h'' := by
  induction ht generalizing pri rounds h' l with
  | @leaf t v hv hsup hera hinc =>
    refine walk_cases hl hrounds hsame fun rounds hlt hlen _ ↦ ?_
    obtain ⟨h1, hcnf, hcells⟩ := hv.cnf_eq hsame
    have hi : u32 l.length = l.length :=
      Nat.mod_eq_of_lt (lt_of_lt_of_le (lt_min hlt (Nat.lt_succ_self _)) hfit)
    rw [collapseWalkPri_leaf hlen hcnf hsup hera hinc, Tree.leaves, number_take_append l _ hlt,
      length_number, hi]
    exact ⟨_, rfl, hcells⟩
  | @era t v hv hera =>
    refine walk_cases hl hrounds hsame fun rounds hlt hlen _ ↦ ?_
    obtain ⟨h1, hcnf, hcells⟩ := hv.cnf_eq hsame
    rw [collapseWalkPri_era hlen hcnf hera, Tree.leaves, List.append_nil,
      List.take_of_length_le hl]
    exact ⟨_, rfl, hcells⟩
  | @inc t v b hv hinc hc hb ih =>
    refine walk_cases hl hrounds hsame fun rounds hlt hlen hle ↦ ?_
    obtain ⟨h1, hcnf, hcells⟩ := hv.cnf_eq hsame
    rw [Tree.incDepth] at hpri
    have hp : u32 (pri + 1) = pri + 1 := Nat.mod_eq_of_lt (by omega)
    rw [collapseWalkPri_inc hlen hcnf hinc, hp, hcells _ hc, Tree.leaves]
    exact ih (by omega) (Nat.le_of_succ_le_succ hle) hcells hl hfit
  | @sup t v l' r hv hsup hcl hcr htl htr ihl ihr =>
    refine walk_cases hl hrounds hsame fun rounds hlt hlen hle ↦ ?_
    obtain ⟨h1, hcnf, hcells⟩ := hv.cnf_eq hsame
    rw [Tree.incDepth] at hpri
    rw [Tree.height] at hle
    rw [Tree.leaves, List.length_append] at hfit
    obtain ⟨h2, hleft, hcells2⟩ := ihl (show pri + l'.incDepth < 2 ^ 32 by omega)
      (show l'.height ≤ rounds by omega) hcells hl (by omega)
    obtain ⟨h3, hright, hcells3⟩ := ihr (show pri + r.incDepth < 2 ^ 32 by omega)
      (show r.height ≤ rounds by omega) hcells2
      (List.length_take_le cap (l ++ l'.leaves pri))
      (by rw [List.length_take, List.length_append]; omega)
    refine ⟨h3, ?_, hcells3⟩
    rw [collapseWalkPri_sup hlen hcnf hsup, hcells _ hcl, hcells _ hcr, hleft,
      Option.bind_some, hright, Tree.leaves, ← List.append_assoc, take_take_append]

/-- The result is the stable sort of the first `cap` leaves; it is the first `cap` of all
sorted leaves exactly when no later leaf has a better priority. -/
theorem thvmCollapseOrdered_spec {t : Term} {T : Tree} (ht : Unfolds w cells h t T)
    (hpri : T.incDepth < 2 ^ 32) (hfit : min cap (T.leaves 0).length ≤ 2 ^ 32) {rounds : ℕ}
    (hrounds : T.height ≤ rounds) :
    (∃ h', thvmCollapseOrdered w rounds t cap h =
        some ((stableSort ((T.leaves 0).take cap)).map Prod.fst, h') ∧ SameCells cells h h') ∧
      (stableSort ((T.leaves 0).take cap) = (stableSort (T.leaves 0)).take cap ↔
        ∀ x ∈ (T.leaves 0).take cap, ∀ y ∈ (T.leaves 0).drop cap, x.2 ≤ y.2) := by
  refine ⟨?_, stableSort_take_iff _ _⟩
  by_cases hcap : cap = 0
  · subst hcap
    exact ⟨h, if_pos rfl, SameCells.refl _ _⟩
  · obtain ⟨h', hwalk, hcells⟩ := collapseWalkPri_spec ht (l := [])
      (show 0 + T.incDepth < 2 ^ 32 by omega) hrounds (SameCells.refl _ _) (Nat.zero_le cap)
      (by simpa using hfit)
    refine ⟨h', ?_, hcells⟩
    rw [thvmCollapseOrdered, if_neg hcap]
    rw [number] at hwalk
    rw [hwalk, List.nil_append, Option.map_some, ← map_sort_number 0, List.map_map]
    rfl

/-! ### A buffer of two for three leaves -/

def numAt (n : ℕ) : Term := ⟨false, .num, dtInt32, n⟩

def incAt (loc : ℕ) : Term := ⟨false, .inc, 0, loc⟩

def supAt (loc : ℕ) : Term := ⟨false, .sup, 7, loc⟩

/-- Priorities 2, 0 and 1 from left to right. -/
def threeHeap : Heap := fun loc ↦
  [numAt 11, incAt 0, numAt 33, incAt 1, numAt 22, supAt 3, incAt 2].getD loc Term.zero

def threeTree : Tree := .sup (.sup (.inc (.inc (.leaf (numAt 11)))) (.leaf (numAt 22)))
  (.inc (.leaf (numAt 33)))

theorem unfolds_three : Unfolds idle Set.univ threeHeap (supAt 5) threeTree := by
  have settles (t : Term) : Settles idle Set.univ threeHeap t t := settles_idle _ _ _
  refine .sup (settles _) rfl trivial trivial (.sup (settles _) rfl trivial trivial
    (.inc (settles _) rfl trivial (.inc (settles _) rfl trivial (.leaf (settles _) ?_ ?_ ?_)))
    (.leaf (settles _) ?_ ?_ ?_)) (.inc (settles _) rfl trivial (.leaf (settles _) ?_ ?_ ?_))
  all_goals decide

/-- The right leaf of priority 1 is lost to the left one of priority 2. -/
theorem thvmCollapseOrdered_truncated :
    ¬ ∀ (w : Readback) (cells : Set ℕ) (h : Heap) (t : Term) (T : Tree) (cap rounds : ℕ),
      Unfolds w cells h t T → T.height ≤ rounds →
        ∃ h', thvmCollapseOrdered w rounds t cap h =
          some (((stableSort (T.leaves 0)).take cap).map Prod.fst, h') := by
  intro hall
  obtain ⟨h', hrun⟩ := hall idle _ _ _ _ 2 5 unfolds_three (by decide)
  have hout : (thvmCollapseOrdered idle 5 (supAt 5) 2 threeHeap).map Prod.fst =
      some (((stableSort (threeTree.leaves 0)).take 2).map Prod.fst) := by
    rw [hrun, Option.map_some]
  clear hrun
  revert hout
  decide

/-- With room for all three leaves they come out sorted. -/
theorem thvmCollapseOrdered_three :
    (∃ h', thvmCollapseOrdered idle 5 (supAt 5) 3 threeHeap =
        some ((stableSort ((threeTree.leaves 0).take 3)).map Prod.fst, h') ∧
          SameCells Set.univ threeHeap h') ∧
      (stableSort ((threeTree.leaves 0).take 3) = (stableSort (threeTree.leaves 0)).take 3 ↔
        ∀ x ∈ (threeTree.leaves 0).take 3, ∀ y ∈ (threeTree.leaves 0).drop 3, x.2 ≤ y.2) :=
  thvmCollapseOrdered_spec unfolds_three (by decide) (by decide) (by decide)

end Thvm.Collapse
