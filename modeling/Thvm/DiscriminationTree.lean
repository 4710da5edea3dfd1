import Mathlib.Algebra.Order.Ring.Int
import Mathlib.Data.List.Basic
import Mathlib.Order.Defs.LinearOrder
import Mathlib.Tactic.Common

/-!
# Discrimination trees

A tree over strings of symbols, laid out by first child and next sibling. Some of the symbols
are stars, which stand for a subterm of any shape. A query is a string in which each symbol
knows the span of the subterm that starts with it; retrieval follows the stars on both sides
and gathers the records of all strings that the query meets.
-/

namespace Thvm.DiscriminationTree

variable {S R : Type}

/-- Siblings, each with the symbol of the edge into it, its records and its children. -/
inductive Forest (S R : Type) where
  | nil
  | cons (sym : S) (recs : List R) (child sibling : Forest S R)

namespace Forest

/-! ## Strings in the tree -/

/-- The record stands at the end of the string. -/
def Holds : Forest S R → List S → R → Prop
  | .nil, _, _ => False
  | .cons _ _ _ _, [], _ => False
  | .cons sym recs child sibling, s :: ss, r =>
    (s = sym ∧ (ss = [] ∧ r ∈ recs ∨ Holds child ss r)) ∨ Holds sibling (s :: ss) r

def records : Forest S R → List R
  | .nil => []
  | .cons _ recs child sibling => recs ++ records child ++ records sibling

/-- A branch that carries one string. -/
def chain (r : R) : S → List S → Forest S R → Forest S R
  | s, [], sibling => .cons s [r] .nil sibling
  | s, s' :: ss, sibling => .cons s [] (chain r s' ss .nil) sibling

section
variable [LinearOrder S]

/-- Siblings stand in ascending order, and a record goes before those that are there. -/
def insert (r : R) : Forest S R → S → List S → Forest S R
  | .nil, s, ss => chain r s ss .nil
  | .cons sym recs child sibling, s, ss =>
    if sym < s then .cons sym recs child (insert r sibling s ss)
    else if sym = s then
      match ss with
      | [] => .cons sym (r :: recs) child sibling
      | s' :: ss' => .cons sym recs (insert r child s' ss') sibling
    else chain r s ss (.cons sym recs child sibling)

end

variable {t : Forest S R} {s : S} {ss w : List S} {r r' : R}

theorem Holds.mem_records (h : t.Holds w r) : r ∈ t.records := by
  induction t generalizing w with
  | nil => cases h
  | cons sym recs child sibling ihc ihs =>
    rw [records, List.mem_append, List.mem_append]
    cases w with
    | nil => cases h
    | cons s ss =>
      rcases h with ⟨-, ⟨-, hr⟩ | h⟩ | h
      · exact .inl (.inl hr)
      · exact .inl (.inr (ihc h))
      · exact .inr (ihs h)

theorem holds_chain_self (t : Forest S R) (s : S) (ss : List S) (r : R) :
    (chain r s ss t).Holds (s :: ss) r := by
  induction ss generalizing s t with
  | nil => exact .inl ⟨rfl, .inl ⟨rfl, List.mem_singleton_self r⟩⟩
  | cons s' ss ih => exact .inl ⟨rfl, .inr (ih .nil s')⟩

theorem Holds.chain (h : t.Holds w r') : (chain r s ss t).Holds w r' := by
  cases w with
  | nil => cases t <;> exact h.elim
  | cons u us => cases ss <;> exact .inr h

theorem mem_records_chain : r' ∈ (chain r s ss t).records ↔ r' = r ∨ r' ∈ t.records := by
  induction ss generalizing s t with
  | nil => simp [Forest.chain, records]
  | cons s' ss ih => simp [Forest.chain, records, ih]

variable [LinearOrder S]

theorem holds_insert_self (t : Forest S R) (s : S) (ss : List S) (r : R) :
    (t.insert r s ss).Holds (s :: ss) r := by
  induction t generalizing s ss with
  | nil => exact holds_chain_self _ s ss r
  | cons sym recs child sibling ihc ihs =>
    unfold insert
    split_ifs with hlt heq
    · exact .inr (ihs s ss)
    · cases ss with
      | nil => exact .inl ⟨heq.symm, .inl ⟨rfl, List.mem_cons_self⟩⟩
      | cons s' ss' => exact .inl ⟨heq.symm, .inr (ihc s' ss')⟩
    · exact holds_chain_self _ s ss r

theorem Holds.insert (h : t.Holds w r') : (t.insert r s ss).Holds w r' := by
  induction t generalizing s ss w with
  | nil => exact h.elim
  | cons sym recs child sibling ihc ihs =>
    cases w with
    | nil => exact h.elim
    | cons u us =>
      unfold Forest.insert
      split_ifs with hlt heq
      · exact h.imp_right ihs
      · cases ss with
        | nil =>
          rcases h with ⟨hu, h⟩ | h
          · exact .inl ⟨hu, h.imp_left fun hr => ⟨hr.1, List.mem_cons_of_mem r hr.2⟩⟩
          · exact .inr h
        | cons s' ss' =>
          rcases h with ⟨hu, h⟩ | h
          · exact .inl ⟨hu, h.imp_right ihc⟩
          · exact .inr h
      · exact h.chain

theorem mem_records_insert : r' ∈ (t.insert r s ss).records ↔ r' = r ∨ r' ∈ t.records := by
  induction t generalizing s ss with
  | nil => exact mem_records_chain
  | cons sym recs child sibling ihc ihs =>
    unfold insert
    split_ifs with hlt heq
    · simp only [records, List.mem_append, ihs]
      tauto
    · cases ss with
      | nil =>
        simp only [records, List.mem_append, List.mem_cons]
        tauto
      | cons s' ss' =>
        simp only [records, List.mem_append, ihc]
        tauto
    · exact mem_records_chain

end Forest

/-! ## Gathering records -/

/-- The buffer of records, those that have been marked, and whether one found no room. -/
structure Gathered (R : Type) where
  found : List R
  seen : List R
  overflow : Bool

namespace Gathered

def empty : Gathered R := ⟨[], [], false⟩

/-- As long as nothing overflows, what is marked is in the buffer. -/
def Sound (g : Gathered R) : Prop := g.overflow = false → ∀ r ∈ g.seen, r ∈ g.found

/-- Nothing is taken back. -/
structure Keeps (g g' : Gathered R) : Prop where
  sound : g'.Sound
  overflow : g'.overflow = false → g.overflow = false
  found : ∀ r ∈ g.found, r ∈ g'.found

theorem sound_empty : (empty : Gathered R).Sound := fun _ _ h => nomatch h

variable {g g' g'' : Gathered R}

theorem Keeps.refl (h : g.Sound) : g.Keeps g := ⟨h, id, fun _ => id⟩

theorem Keeps.trans (h : g.Keeps g') (h' : g'.Keeps g'') : g.Keeps g'' :=
  ⟨h'.sound, fun ho => h.overflow (h'.overflow ho), fun r hr => h'.found r (h.found r hr)⟩

/-- A loop whose steps keep what is there keeps it. -/
theorem keeps_foldl {ι : Type} {step : Gathered R → ι → Gathered R} (l : List ι)
    (hstep : ∀ (g : Gathered R) i, g.Sound → g.Keeps (step g i)) (h : g.Sound) :
    g.Keeps (l.foldl step g) := by
  induction l generalizing g with
  | nil => exact .refl h
  | cons i l ih => exact (hstep g i h).trans (ih (hstep g i h).sound)

/-- What one step finds is there at the end. -/
theorem foldl_finds {ι : Type} {step : Gathered R → ι → Gathered R} {l : List ι} {i : ι} {r : R}
    (hi : i ∈ l) (hstep : ∀ (g : Gathered R) i, g.Sound → g.Keeps (step g i))
    (hfinds : ∀ g : Gathered R, g.Sound → (step g i).overflow = false → r ∈ (step g i).found)
    (h : g.Sound) (ho : (l.foldl step g).overflow = false) : r ∈ (l.foldl step g).found := by
  induction l generalizing g with
  | nil => cases hi
  | cons i' l ih =>
    have hkeeps := hstep g i' h
    rcases List.mem_cons.mp hi with rfl | hi
    · have hrest := keeps_foldl l hstep hkeeps.sound
      exact hrest.found r (hfinds g h (hrest.overflow ho))
    · exact ih hi hkeeps.sound ho

variable [DecidableEq R]

/-- A record is marked if it can be, and left out when it is marked already. -/
def add (marks : R → Bool) (cap : ℕ) (g : Gathered R) (r : R) : Gathered R :=
  if marks r ∧ r ∈ g.seen then g
  else
    { found := if cap ≤ g.found.length then g.found else g.found ++ [r]
      seen := if marks r then r :: g.seen else g.seen
      overflow := g.overflow || cap ≤ g.found.length }

def addAll (marks : R → Bool) (cap : ℕ) (g : Gathered R) (rs : List R) : Gathered R :=
  rs.foldl (fun g r => g.add marks cap r) g

variable {marks : R → Bool} {cap : ℕ} {r : R} {rs : List R}

/-- A record is in the buffer after it has been added. -/
theorem add_spec (marks : R → Bool) (cap : ℕ) (r : R) (h : g.Sound) : g.Keeps (g.add marks cap r) ∧
    ((g.add marks cap r).overflow = false → r ∈ (g.add marks cap r).found) := by
  unfold add
  by_cases hseen : marks r = true ∧ r ∈ g.seen
  · rw [if_pos hseen]
    exact ⟨.refl h, fun ho => h ho r hseen.2⟩
  · rw [if_neg hseen]
    by_cases hfull : cap ≤ g.found.length
    · simp only [hfull, decide_true, Bool.or_true, if_true]
      exact ⟨⟨nofun, nofun, fun _ => id⟩, nofun⟩
    · simp only [hfull, decide_false, Bool.or_false, if_false]
      refine ⟨⟨fun ho r' hr' => ?_, id, fun r' => List.mem_append_left [r]⟩, fun _ => by simp⟩
      have hr' : r' = r ∨ r' ∈ g.seen := by
        dsimp only at hr'
        split at hr'
        · exact List.mem_cons.mp hr'
        · exact .inr hr'
      rcases hr' with rfl | hr'
      · exact List.mem_append_right g.found (List.mem_singleton_self r')
      · exact List.mem_append_left [r] (h ho r' hr')

theorem addAll_spec (marks : R → Bool) (cap : ℕ) (rs : List R) (h : g.Sound) :
    g.Keeps (g.addAll marks cap rs) ∧
      ((g.addAll marks cap rs).overflow = false → ∀ r ∈ rs, r ∈ (g.addAll marks cap rs).found) := by
  induction rs generalizing g with
  | nil => exact ⟨.refl h, fun _ _ hr => nomatch hr⟩
  | cons r rs ih =>
    obtain ⟨hkeeps, hadded⟩ := add_spec marks cap r h
    obtain ⟨hkeeps', hall⟩ := ih hkeeps.sound
    refine ⟨hkeeps.trans hkeeps', fun ho r' hr' => ?_⟩
    rcases List.mem_cons.mp hr' with rfl | hr'
    · exact hkeeps'.found r' (hadded (hkeeps'.overflow ho))
    · exact hall ho r' hr'

theorem found_add {r' : R} (h : r' ∈ (g.add marks cap r).found) : r' = r ∨ r' ∈ g.found := by
  unfold add at h
  split at h
  · exact .inr h
  · by_cases hfull : cap ≤ g.found.length
    · exact .inr (by simpa [hfull] using h)
    · simpa [hfull, or_comm] using h

theorem found_addAll {r' : R} (h : r' ∈ (g.addAll marks cap rs).found) :
    r' ∈ rs ∨ r' ∈ g.found := by
  induction rs generalizing g with
  | nil => exact .inr h
  | cons r rs ih =>
    rcases ih h with hr' | hr'
    · exact .inl (List.mem_cons_of_mem r hr')
    · rcases found_add hr' with rfl | hr'
      · exact .inl List.mem_cons_self
      · exact .inr hr'

end Gathered

/-! ## Retrieval -/

section
variable [DecidableEq S] [DecidableEq R] (star : S → Bool) (marks : R → Bool) (cap : ℕ)

/-- Everything below the siblings. -/
def visitBelow : Forest S R → Gathered R → Gathered R
  | .nil, g => g
  | .cons _ recs child sibling, g =>
    if g.overflow then g
    else visitBelow sibling (visitBelow child (g.addAll marks cap recs))

/-- What is left of the query behind the edge `sym`, if it can be followed: a star on the edge
takes a whole subterm of the query. -/
def follow (sym : S) : List (S × ℕ) → Option (List (S × ℕ))
  | [] => none
  | q :: qs =>
    if star sym then some ((q :: qs).drop q.2) else if sym = q.1 then some qs else none

/-- A node, given the loop over its children and the visit to all that is below it. -/
def visitNode (recs : List R) (children : List (S × ℕ) → Gathered R → Gathered R)
    (below : Gathered R → Gathered R) : List (S × ℕ) → Gathered R → Gathered R
  | [], g => g.addAll marks cap recs
  | q :: qs, g =>
    let g := children (q :: qs) g
    if star q.1 then below (g.addAll marks cap recs) else g

/-- The loop over the siblings. -/
def visitChildren : Forest S R → List (S × ℕ) → Gathered R → Gathered R
  | .nil, _, g => g
  | .cons sym recs child sibling, query, g =>
    if g.overflow then g
    else
      visitChildren sibling query <|
        match follow star sym query with
        | none => g
        | some rest =>
          visitNode star marks cap recs (visitChildren child) (visitBelow marks cap child) rest g

/-- The query may stand for the string: the two agree up to the first star of the query, where
each star of the string has taken a whole subterm. -/
inductive Meets : List S → List (S × ℕ) → Prop
  | done : Meets [] []
  | ofStar (w : List S) (q : S × ℕ) (qs : List (S × ℕ)) : star q.1 = true → Meets w (q :: qs)
  | skip (s : S) (w : List S) (q : S × ℕ) (qs : List (S × ℕ)) :
      star s = true → Meets w ((q :: qs).drop q.2) → Meets (s :: w) (q :: qs)
  | head (s : S) (w : List S) (sz : ℕ) (qs : List (S × ℕ)) :
      star s = false → Meets w qs → Meets (s :: w) ((s, sz) :: qs)

end

section
variable [DecidableEq R] {marks : R → Bool} {cap : ℕ} {g g' : Gathered R} {r : R}

theorem keeps_visitBelow (marks : R → Bool) (cap : ℕ) (t : Forest S R) (h : g.Sound) :
    g.Keeps (visitBelow marks cap t g) := by
  induction t generalizing g with
  | nil => exact .refl h
  | cons sym recs child sibling ihc ihs =>
    rw [visitBelow]
    split
    · exact .refl h
    · have hrecs := (g.addAll_spec marks cap recs h).1
      have hchild := hrecs.trans (ihc hrecs.sound)
      exact hchild.trans (ihs hchild.sound)

/-- The visit to a whole forest finds every record in it. -/
theorem visitBelow_finds (t : Forest S R) (h : g.Sound) (hr : r ∈ t.records)
    (ho : (visitBelow marks cap t g).overflow = false) : r ∈ (visitBelow marks cap t g).found := by
  induction t generalizing g with
  | nil => cases hr
  | cons sym recs child sibling ihc ihs =>
    rw [visitBelow] at ho ⊢
    split at ho
    · next hfull => rw [hfull] at ho; cases ho
    · next hroom =>
      rw [if_neg hroom]
      obtain ⟨hrecs, hadded⟩ := g.addAll_spec marks cap recs h
      have hchild := keeps_visitBelow marks cap child hrecs.sound
      have hsibling := keeps_visitBelow marks cap sibling hchild.sound
      have hoc := hsibling.overflow ho
      rw [Forest.records, List.mem_append, List.mem_append] at hr
      rcases hr with (hr | hr) | hr
      · exact hsibling.found r (hchild.found r (hadded (hchild.overflow hoc) r hr))
      · exact hsibling.found r (ihc hrecs.sound hr hoc)
      · exact ihs hchild.sound hr ho

theorem found_visitBelow (t : Forest S R) {r : R} (hr : r ∈ (visitBelow marks cap t g).found) :
    r ∈ t.records ∨ r ∈ g.found := by
  induction t generalizing g with
  | nil => exact .inr hr
  | cons sym recs child sibling ihc ihs =>
    rw [visitBelow] at hr
    rw [Forest.records, List.mem_append, List.mem_append]
    split at hr
    · exact .inr hr
    · rcases ihs hr with hr | hr
      · exact .inl (.inr hr)
      · rcases ihc hr with hr | hr
        · exact .inl (.inl (.inr hr))
        · exact (Gathered.found_addAll hr).imp_left fun hr => .inl (.inl hr)

end

section
variable [DecidableEq S] [DecidableEq R] {star : S → Bool} {marks : R → Bool} {cap : ℕ}
  {g g' : Gathered R} {r : R} {recs : List R} {w : List S} {child : Forest S R}

/-- What is known of the loop over the children is known of the visit to a node. -/
theorem keeps_visitNode (recs : List R) (hchild : ∀ query (g : Gathered R), g.Sound →
      g.Keeps (visitChildren star marks cap child query g)) (query : List (S × ℕ)) (h : g.Sound) :
    g.Keeps (visitNode star marks cap recs (visitChildren star marks cap child)
      (visitBelow marks cap child) query g) := by
  cases query with
  | nil => exact (g.addAll_spec marks cap recs h).1
  | cons q qs =>
    have hkids := hchild (q :: qs) g h
    rw [visitNode]
    split
    · have hrecs := hkids.trans (Gathered.addAll_spec marks cap recs hkids.sound).1
      exact hrecs.trans (keeps_visitBelow marks cap child hrecs.sound)
    · exact hkids

theorem keeps_visitChildren (star : S → Bool) (marks : R → Bool) (cap : ℕ) (t : Forest S R)
    (query : List (S × ℕ)) (h : g.Sound) :
    g.Keeps (visitChildren star marks cap t query g) := by
  induction t generalizing query g with
  | nil => exact .refl h
  | cons sym recs child sibling ihc ihs =>
    rw [visitChildren]
    split
    · exact .refl h
    · split
      · exact ihs query h
      · next rest _ =>
        have hnode := keeps_visitNode recs (fun query g hg => ihc query hg) rest h
        exact hnode.trans (ihs query hnode.sound)

/-- A visit to a node finds every record whose string the query meets from there on. -/
theorem visitNode_finds (hchild : ∀ w query (g : Gathered R), g.Sound → child.Holds w r →
      Meets star w query → (∀ q ∈ query.head?, star q.1 = false) →
      (visitChildren star marks cap child query g).overflow = false →
      r ∈ (visitChildren star marks cap child query g).found) {query : List (S × ℕ)} (h : g.Sound)
    (hheld : w = [] ∧ r ∈ recs ∨ child.Holds w r) (hmeets : Meets star w query)
    (ho : (visitNode star marks cap recs (visitChildren star marks cap child)
      (visitBelow marks cap child) query g).overflow = false) :
    r ∈ (visitNode star marks cap recs (visitChildren star marks cap child)
      (visitBelow marks cap child) query g).found := by
  cases query with
  | nil =>
    cases hmeets
    rcases hheld with ⟨-, hr⟩ | hheld
    · exact (g.addAll_spec marks cap recs h).2 ho r hr
    · cases child <;> exact hheld.elim
  | cons q qs =>
    have hkids := keeps_visitChildren star marks cap child (q :: qs) h
    rw [visitNode] at ho ⊢
    by_cases hq : star q.1 = true
    · -- a star of the query gathers all that is at the node and below it
      rw [if_pos hq] at ho ⊢
      obtain ⟨hrecs, hadded⟩ := Gathered.addAll_spec marks cap recs hkids.sound
      have hbelow := keeps_visitBelow marks cap child hrecs.sound
      rcases hheld with ⟨-, hr⟩ | hheld
      · exact hbelow.found r (hadded (hbelow.overflow ho) r hr)
      · exact visitBelow_finds child hrecs.sound hheld.mem_records ho
    · rw [if_neg hq] at ho ⊢
      rcases hheld with ⟨rfl, -⟩ | hheld
      · cases hmeets with
        | ofStar _ _ _ hstar => exact absurd hstar hq
      · refine hchild w (q :: qs) g h hheld hmeets (fun q' hq' => ?_) ho
        obtain rfl := Option.some.inj hq'
        exact Bool.eq_false_iff.mpr hq

/-- The edge of the string can be followed. -/
theorem Meets.follow {s : S} {query : List (S × ℕ)} (h : Meets star (s :: w) query)
    (hquery : ∀ q ∈ query.head?, star q.1 = false) :
    ∃ rest, follow star s query = some rest ∧ Meets star w rest := by
  cases h with
  | ofStar _ q qs hq =>
    have hq' := hquery q rfl
    rw [hq] at hq'
    cases hq'
  | skip _ _ q qs hs hrest => exact ⟨_, if_pos hs, hrest⟩
  | head _ _ sz qs hs hrest =>
    refine ⟨qs, ?_, hrest⟩
    rw [DiscriminationTree.follow, hs, if_neg Bool.false_ne_true, if_pos rfl]

theorem visitChildren_finds (t : Forest S R) {query : List (S × ℕ)} (h : g.Sound)
    (hheld : t.Holds w r) (hmeets : Meets star w query)
    (hquery : ∀ q ∈ query.head?, star q.1 = false)
    (ho : (visitChildren star marks cap t query g).overflow = false) :
    r ∈ (visitChildren star marks cap t query g).found := by
  induction t generalizing w query g with
  | nil => exact hheld.elim
  | cons sym recs child sibling ihc ihs =>
    rw [visitChildren] at ho ⊢
    split at ho
    · next hfull => rw [hfull] at ho; cases ho
    · next hroom =>
      rw [if_neg hroom]
      cases w with
      | nil => exact hheld.elim
      | cons s ss =>
        rcases hheld with ⟨rfl, hheld⟩ | hheld
        · obtain ⟨rest, hfollow, hrest⟩ := hmeets.follow hquery
          simp only [hfollow] at ho ⊢
          have hnode := keeps_visitNode recs
            (fun query g hg => keeps_visitChildren star marks cap child query hg) rest h
          have hsibling := keeps_visitChildren star marks cap sibling query hnode.sound
          exact hsibling.found r (visitNode_finds (fun w query g hg hw hm hq => ihc hg hw hm hq) h
            hheld hrest (hsibling.overflow ho))
        · refine ihs ?_ hheld hmeets hquery ho
          split
          · exact h
          · exact (keeps_visitNode recs
              (fun query g hg => keeps_visitChildren star marks cap child query hg) _ h).sound

theorem found_visitNode (hchild : ∀ query (g : Gathered R),
      r ∈ (visitChildren star marks cap child query g).found → r ∈ child.records ∨ r ∈ g.found)
    (query : List (S × ℕ)) (hr : r ∈ (visitNode star marks cap recs
      (visitChildren star marks cap child) (visitBelow marks cap child) query g).found) :
    r ∈ recs ∨ r ∈ child.records ∨ r ∈ g.found := by
  cases query with
  | nil => exact (Gathered.found_addAll hr).imp_right .inr
  | cons q qs =>
    rw [visitNode] at hr
    split at hr
    · rcases found_visitBelow child hr with hr | hr
      · exact .inr (.inl hr)
      · exact (Gathered.found_addAll hr).imp_right (hchild _ g)
    · exact .inr (hchild _ g hr)

/-- Only what is in the tree is found. -/
theorem found_visitChildren (t : Forest S R) (query : List (S × ℕ))
    (hr : r ∈ (visitChildren star marks cap t query g).found) : r ∈ t.records ∨ r ∈ g.found := by
  induction t generalizing query g with
  | nil => exact .inr hr
  | cons sym recs child sibling ihc ihs =>
    rw [visitChildren] at hr
    rw [Forest.records, List.mem_append, List.mem_append]
    split at hr
    · exact .inr hr
    · rcases ihs query hr with hr | hr
      · exact .inl (.inr hr)
      · split at hr
        · exact .inr hr
        · rcases found_visitNode (fun query g => ihc query) _ hr with hr | hr | hr
          · exact .inl (.inl (.inl hr))
          · exact .inl (.inl (.inr hr))
          · exact .inr hr

end

end Thvm.DiscriminationTree
