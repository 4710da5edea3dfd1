import Thvm.DiscriminationTree

/-!
# One-way descent in a discrimination tree

A query without stars of its own is matched against the strings of a tree. The first time a
star is met it is bound to the position of the subterm it takes, and from then on it only takes
the same slice of symbols. The nesting of the stars is bounded.
-/

namespace Thvm.DiscriminationTree

variable {S R : Type}

namespace Forest

/-! ## Ascending siblings -/

/-- The symbols of the siblings. -/
def edges : Forest S R → List S
  | .nil => []
  | .cons sym _ _ sibling => sym :: edges sibling

/-- The siblings stand in ascending order, at every node. -/
def Ascending [LT S] : Forest S R → Prop
  | .nil => True
  | .cons sym _ child sibling =>
    (∀ s ∈ sibling.edges, sym < s) ∧ child.Ascending ∧ sibling.Ascending

/-- The first of the siblings with a symbol: its records and its children. -/
def find [DecidableEq S] : Forest S R → S → Option (List R × Forest S R)
  | .nil, _ => none
  | .cons sym recs child sibling, s => if sym = s then some (recs, child) else find sibling s

variable {t : Forest S R} {s : S} {ss w : List S} {r r' : R}

theorem Holds.mem_edges (h : t.Holds (s :: ss) r) : s ∈ t.edges := by
  induction t with
  | nil => exact h.elim
  | cons sym recs child sibling ihc ihs =>
    rcases h with ⟨rfl, -⟩ | h
    · exact List.mem_cons_self
    · exact List.mem_cons_of_mem _ (ihs h)

theorem not_holds_nil : ¬ t.Holds [] r := by
  cases t <;> exact id

theorem edges_chain (r : R) (s : S) (ss : List S) (t : Forest S R) :
    (chain r s ss t).edges = s :: t.edges := by
  cases ss <;> rfl

/-- What a branch carries is its string, and what stands beside it. -/
theorem Holds.of_chain (h : (Forest.chain r s ss t).Holds w r') :
    w = s :: ss ∧ r' = r ∨ t.Holds w r' := by
  induction ss generalizing s t w with
  | nil =>
    cases w with
    | nil => exact h.elim
    | cons u us =>
      rcases h with ⟨rfl, ⟨rfl, hr⟩ | h⟩ | h
      · exact .inl ⟨rfl, List.mem_singleton.mp hr⟩
      · exact h.elim
      · exact .inr h
  | cons s' ss ih =>
    cases w with
    | nil => exact h.elim
    | cons u us =>
      rcases h with ⟨rfl, ⟨-, hr⟩ | h⟩ | h
      · cases hr
      · rcases ih h with ⟨rfl, rfl⟩ | h
        · exact .inl ⟨rfl, rfl⟩
        · exact h.elim
      · exact .inr h

section
variable [Preorder S]

theorem ascending_chain (h : t.Ascending) (hs : ∀ u ∈ t.edges, s < u) :
    (chain r s ss t).Ascending := by
  induction ss generalizing s t with
  | nil => exact ⟨hs, trivial, h⟩
  | cons s' ss ih => exact ⟨hs, ih trivial (fun _ hu => nomatch hu), h⟩

end

variable [LinearOrder S]

/-- An insertion adds one string for one record. -/
theorem Holds.of_insert (h : (t.insert r s ss).Holds w r') :
    w = s :: ss ∧ r' = r ∨ t.Holds w r' := by
  induction t generalizing s ss w with
  | nil => exact h.of_chain
  | cons sym recs child sibling ihc ihs =>
    unfold Forest.insert at h
    split_ifs at h with hlt heq
    · cases w with
      | nil => exact h.elim
      | cons u us =>
        rcases h with h | h
        · exact .inr (.inl h)
        · exact (ihs h).imp_right .inr
    · subst heq
      cases w with
      | nil => cases ss <;> exact h.elim
      | cons u us =>
        cases ss with
        | nil =>
          rcases h with ⟨rfl, ⟨rfl, hr⟩ | h⟩ | h
          · rcases List.mem_cons.mp hr with rfl | hr
            · exact .inl ⟨rfl, rfl⟩
            · exact .inr (.inl ⟨rfl, .inl ⟨rfl, hr⟩⟩)
          · exact .inr (.inl ⟨rfl, .inr h⟩)
          · exact .inr (.inr h)
        | cons s' ss' =>
          rcases h with ⟨rfl, hr | h⟩ | h
          · exact .inr (.inl ⟨rfl, .inl hr⟩)
          · rcases ihc h with ⟨rfl, rfl⟩ | h
            · exact .inl ⟨rfl, rfl⟩
            · exact .inr (.inl ⟨rfl, .inr h⟩)
          · exact .inr (.inr h)
    · exact h.of_chain

theorem holds_insert : (t.insert r s ss).Holds w r' ↔ w = s :: ss ∧ r' = r ∨ t.Holds w r' := by
  refine ⟨Holds.of_insert, ?_⟩
  rintro (⟨rfl, rfl⟩ | h)
  · exact holds_insert_self t s ss r'
  · exact h.insert

theorem mem_edges_insert {u : S} (h : u ∈ (t.insert r s ss).edges) : u = s ∨ u ∈ t.edges := by
  induction t generalizing ss with
  | nil =>
    rw [Forest.insert, edges_chain] at h
    exact List.mem_cons.mp h
  | cons sym recs child sibling ihc ihs =>
    unfold Forest.insert at h
    split_ifs at h with hlt heq
    · rcases List.mem_cons.mp h with rfl | h
      · exact .inr List.mem_cons_self
      · exact (ihs h).imp_right (List.mem_cons_of_mem sym)
    · cases ss <;> exact .inr h
    · rw [edges_chain] at h
      exact List.mem_cons.mp h

theorem Ascending.insert (h : t.Ascending) (r : R) (s : S) (ss : List S) :
    (t.insert r s ss).Ascending := by
  induction t generalizing s ss with
  | nil => exact ascending_chain trivial fun _ hu => nomatch hu
  | cons sym recs child sibling ihc ihs =>
    obtain ⟨hfirst, hchild, hsibling⟩ := h
    unfold Forest.insert
    split_ifs with hlt heq
    · refine ⟨fun u hu => ?_, hchild, ihs hsibling s ss⟩
      rcases mem_edges_insert hu with rfl | hu
      · exact hlt
      · exact hfirst u hu
    · cases ss with
      | nil => exact ⟨hfirst, hchild, hsibling⟩
      | cons s' ss' => exact ⟨hfirst, ihc hchild s' ss', hsibling⟩
    · have hs : s < sym := lt_of_le_of_ne (not_lt.mp hlt) (Ne.symm heq)
      refine ascending_chain ⟨hfirst, hchild, hsibling⟩ fun u hu => ?_
      rcases List.mem_cons.mp hu with rfl | hu
      · exact hs
      · exact lt_trans hs (hfirst u hu)

/-- What lies under the first edge of a string. -/
theorem holds_cons_iff (h : t.Ascending) : t.Holds (s :: ss) r ↔
    ∃ recs child, t.find s = some (recs, child) ∧ (ss = [] ∧ r ∈ recs ∨ child.Holds ss r) := by
  induction t with
  | nil => exact ⟨False.elim, fun ⟨_, _, h, _⟩ => nomatch h⟩
  | cons sym recs child sibling ihc ihs =>
    obtain ⟨hfirst, -, hsibling⟩ := h
    rw [find]
    split_ifs with hsym
    · subst hsym
      constructor
      · rintro (⟨-, h⟩ | h)
        · exact ⟨recs, child, rfl, h⟩
        · exact absurd (hfirst sym h.mem_edges) (lt_irrefl sym)
      · rintro ⟨_, _, hfound, h⟩
        obtain ⟨rfl, rfl⟩ := Prod.mk.inj (Option.some.inj hfound)
        exact .inl ⟨rfl, h⟩
    · rw [← ihs hsibling]
      exact ⟨fun h => h.resolve_left fun h => hsym h.1.symm, .inr⟩

theorem Ascending.of_find {child : Forest S R} {recs : List R} (h : t.Ascending)
    (hfind : t.find s = some (recs, child)) : child.Ascending := by
  induction t with
  | nil => cases hfind
  | cons sym recs' child' sibling ihc ihs =>
    obtain ⟨-, hchild, hsibling⟩ := h
    rw [find] at hfind
    split_ifs at hfind
    · obtain ⟨-, rfl⟩ := Prod.mk.inj (Option.some.inj hfind)
      exact hchild
    · exact ihs hsibling hfind

end Forest

/-! ## The descent -/

/-- The position that the subterm of a star starts at; 0 for a star that is not bound. -/
abbrev Bound := ℕ → ℕ

/-- The symbols of `n` nodes from a position on. -/
def slice (flat : List (S × ℕ)) (pos n : ℕ) : List S := ((flat.drop pos).take n).map Prod.fst

/-- Two positions have the same span and the same symbols in it. -/
def sameSlice [DecidableEq S] (flat : List (S × ℕ)) (i j : ℕ) : Bool :=
  match flat[i]?, flat[j]? with
  | some p, some q => p.2 = q.2 && slice flat i q.2 = slice flat j q.2
  | _, _ => false

section
variable [DecidableEq S] (star : S → Option ℕ) (flat : List (S × ℕ)) (cap : ℕ) (ok : R → Bool)

/-- A node, given the loop over its children: whether some star led to a record, and where the
query's own symbol led to. -/
def descendNode (recs : List R) (children : S × ℕ → ℕ → ℕ → Bound → Bool × Option Bool)
    (pos depth : ℕ) (bound : Bound) : Bool :=
  if pos = flat.length then recs.any ok
  else
    match flat[pos]? with
    | none => false
    | some q =>
      if q.2 = 0 then false
      else (children q pos depth bound).1 || (children q pos depth bound).2.getD false

/-- A nested call. -/
def descendRec (recs : List R) (children : S × ℕ → ℕ → ℕ → Bound → Bool × Option Bool)
    (pos depth : ℕ) (bound : Bound) : Bool :=
  if cap ≤ depth then false else descendNode flat ok recs children pos depth bound

/-- The loop over the children at a position of the query. -/
def descendChildren : Forest S R → S × ℕ → ℕ → ℕ → Bound → Bool × Option Bool
  | .nil, _, _, _, _ => (false, none)
  | .cons sym recs child sibling, q, pos, depth, bound =>
    let rest := descendChildren sibling q pos depth bound
    match star sym with
    | some k =>
      if bound k = 0 then
        (descendRec flat cap ok recs (descendChildren child) (pos + q.2) (depth + 1)
          (Function.update bound k pos) || rest.1, rest.2)
      else if sameSlice flat (bound k) pos then
        (descendRec flat cap ok recs (descendChildren child) (pos + q.2) (depth + 1) bound ||
          rest.1, rest.2)
      else rest
    | none =>
      if sym = q.1 then
        (rest.1, rest.2.or
          (some (descendNode flat ok recs (descendChildren child) (pos + 1) depth bound)))
      else rest

/-- The string stands for what is left of the query from a position on. -/
inductive Reads : List S → ℕ → ℕ → Bound → Prop
  | done (depth : ℕ) (bound : Bound) : Reads [] flat.length depth bound
  | bind {s : S} {w : List S} {q : S × ℕ} {pos k depth : ℕ} {bound : Bound}
      (hq : flat[pos]? = some q) (hspan : 0 < q.2) (hstar : star s = some k)
      (hbound : bound k = 0) (hdepth : depth + 1 < cap)
      (hrest : Reads w (pos + q.2) (depth + 1) (Function.update bound k pos)) :
      Reads (s :: w) pos depth bound
  | again {s : S} {w : List S} {q : S × ℕ} {pos k depth : ℕ} {bound : Bound}
      (hq : flat[pos]? = some q) (hspan : 0 < q.2) (hstar : star s = some k)
      (hbound : bound k ≠ 0) (hsame : sameSlice flat (bound k) pos = true)
      (hdepth : depth + 1 < cap) (hrest : Reads w (pos + q.2) (depth + 1) bound) :
      Reads (s :: w) pos depth bound
  | head {s : S} {w : List S} {q : S × ℕ} {pos depth : ℕ} {bound : Bound}
      (hq : flat[pos]? = some q) (hspan : 0 < q.2) (hstar : star s = none) (hs : s = q.1)
      (hrest : Reads w (pos + 1) depth bound) : Reads (s :: w) pos depth bound

end

variable {star : S → Option ℕ} {flat : List (S × ℕ)} {cap : ℕ} {ok : R → Bool} {t : Forest S R}
  {pos depth : ℕ} {bound : Bound} {q : S × ℕ} {recs : List R} {child : Forest S R}

section
variable [DecidableEq S]

theorem sameSlice_iff {i j : ℕ} {p q : S × ℕ} (hp : flat[i]? = some p) (hq : flat[j]? = some q) :
    sameSlice flat i j = true ↔ p.2 = q.2 ∧ slice flat i q.2 = slice flat j q.2 := by
  rw [sameSlice, hp, hq]
  simp

/-- A record at a node or below it that the rest of the query leads to. -/
def Reached (star : S → Option ℕ) (flat : List (S × ℕ)) (cap : ℕ) (ok : R → Bool) (recs : List R)
    (child : Forest S R) (pos depth : ℕ) (bound : Bound) : Prop :=
  ∃ w r, (w = [] ∧ r ∈ recs ∨ child.Holds w r) ∧ ok r = true ∧ Reads star flat cap w pos depth bound

/-- The same for the children, with the first symbol. -/
def ReachedBy (star : S → Option ℕ) (flat : List (S × ℕ)) (cap : ℕ) (ok : R → Bool)
    (t : Forest S R) (pos depth : ℕ) (bound : Bound) (s : S) : Prop :=
  ∃ w r, t.Holds (s :: w) r ∧ ok r = true ∧ Reads star flat cap (s :: w) pos depth bound

theorem reads_end (h : Reads star flat cap w flat.length depth bound) : w = [] := by
  cases h with
  | done => rfl
  | bind hq | again hq | head hq => simp at hq

/-- The symbol that a string goes on with is a star or that of the query. -/
theorem Reads.symbol {s : S} {w : List S} (h : Reads star flat cap (s :: w) pos depth bound)
    (hq : flat[pos]? = some q) : (∃ k, star s = some k) ∨ star s = none ∧ s = q.1 := by
  cases h with
  | bind _ _ hstar | again _ _ hstar => exact .inl ⟨_, hstar⟩
  | head hq' _ hstar hs =>
    obtain rfl := Option.some.inj (hq.symm.trans hq')
    exact .inr ⟨hstar, hs⟩

/-- What the loop over the children answers. -/
structure Answers (star : S → Option ℕ) (flat : List (S × ℕ)) (cap : ℕ) (ok : R → Bool)
    (t : Forest S R) (q : S × ℕ) (pos depth : ℕ) (bound : Bound)
    (answer : Bool × Option Bool) : Prop where
  stars : answer.1 = true ↔ ∃ s k, star s = some k ∧ ReachedBy star flat cap ok t pos depth bound s
  next : answer.2 = some true ↔
    star q.1 = none ∧ ReachedBy star flat cap ok t pos depth bound q.1
  absent : q.1 ∉ t.edges → answer.2 = none

/-- One of the two leads to a record, or the other does. -/
theorem Answers.some_iff {answer : Bool × Option Bool} (hq : flat[pos]? = some q)
    (h : Answers star flat cap ok t q pos depth bound answer) :
    (answer.1 || answer.2.getD false) = true ↔
      ∃ s, ReachedBy star flat cap ok t pos depth bound s := by
  have hnext : answer.2.getD false = true ↔ answer.2 = some true := by
    cases answer.2 <;> simp
  rw [Bool.or_eq_true, hnext, h.stars, h.next]
  constructor
  · rintro (⟨s, -, -, h⟩ | ⟨-, h⟩)
    · exact ⟨s, h⟩
    · exact ⟨q.1, h⟩
  · rintro ⟨s, w, r, hheld, hok, hreads⟩
    rcases hreads.symbol hq with ⟨k, hk⟩ | ⟨hstar, rfl⟩
    · exact .inl ⟨s, k, hk, w, r, hheld, hok, hreads⟩
    · exact .inr ⟨hstar, w, r, hheld, hok, hreads⟩

theorem descendNode_iff {children : S × ℕ → ℕ → ℕ → Bound → Bool × Option Bool}
    (hchild : ∀ {q : S × ℕ} {pos depth bound}, flat[pos]? = some q → 0 < q.2 →
      Answers star flat cap ok child q pos depth bound (children q pos depth bound))
    (recs : List R) (pos depth : ℕ) (bound : Bound) :
    descendNode flat ok recs children pos depth bound = true ↔
      Reached star flat cap ok recs child pos depth bound := by
  unfold descendNode
  split_ifs with hend
  · subst hend
    rw [List.any_eq_true]
    constructor
    · rintro ⟨r, hr, hok⟩
      exact ⟨[], r, .inl ⟨rfl, hr⟩, hok, .done depth bound⟩
    · rintro ⟨w, r, hheld, hok, hreads⟩
      obtain rfl := reads_end hreads
      rcases hheld with ⟨-, hr⟩ | hheld
      · exact ⟨r, hr, hok⟩
      · exact absurd hheld Forest.not_holds_nil
  · -- past the end, and at a node without a span, nothing can be read
    have hnil : ∀ {w}, Reads star flat cap w pos depth bound →
        ∃ s w', w = s :: w' ∧ ∃ q : S × ℕ, flat[pos]? = some q ∧ 0 < q.2 := by
      intro w hreads
      cases hreads with
      | done => exact absurd rfl hend
      | bind hq hspan | again hq hspan | head hq hspan => exact ⟨_, _, rfl, _, hq, hspan⟩
    cases hq : flat[pos]? with
    | none =>
      refine ⟨fun h => (nomatch h), ?_⟩
      rintro ⟨w, r, -, -, hreads⟩
      obtain ⟨-, -, -, q, hq', -⟩ := hnil hreads
      rw [hq] at hq'
      cases hq'
    | some q =>
      by_cases hspan : q.2 = 0
      · simp only [hspan, if_true]
        refine ⟨fun h => (nomatch h), ?_⟩
        rintro ⟨w, r, -, -, hreads⟩
        obtain ⟨-, -, -, q', hq', hspan'⟩ := hnil hreads
        obtain rfl := Option.some.inj (hq.symm.trans hq')
        omega
      · simp only [hspan, if_false]
        rw [(hchild hq (Nat.pos_of_ne_zero hspan)).some_iff hq]
        constructor
        · rintro ⟨s, w, r, hheld, hok, hreads⟩
          exact ⟨s :: w, r, .inr hheld, hok, hreads⟩
        · rintro ⟨w, r, hheld, hok, hreads⟩
          obtain ⟨s, w', rfl, -⟩ := hnil hreads
          rcases hheld with ⟨hw, -⟩ | hheld
          · cases hw
          · exact ⟨s, w', r, hheld, hok, hreads⟩

end

section
variable [LinearOrder S]

/-- A string below the first of the siblings, or below another one. -/
theorem reachedBy_cons {sym s : S} {sibling : Forest S R} :
    ReachedBy star flat cap ok (.cons sym recs child sibling) pos depth bound s ↔
      (s = sym ∧ ∃ w r, (w = [] ∧ r ∈ recs ∨ child.Holds w r) ∧ ok r = true ∧
        Reads star flat cap (s :: w) pos depth bound) ∨
      ReachedBy star flat cap ok sibling pos depth bound s := by
  constructor
  · rintro ⟨w, r, ⟨hs, hheld⟩ | hheld, hok, hreads⟩
    · exact .inl ⟨hs, w, r, hheld, hok, hreads⟩
    · exact .inr ⟨w, r, hheld, hok, hreads⟩
  · rintro (⟨hs, w, r, hheld, hok, hreads⟩ | ⟨w, r, hheld, hok, hreads⟩)
    · exact ⟨w, r, .inl ⟨hs, hheld⟩, hok, hreads⟩
    · exact ⟨w, r, .inr hheld, hok, hreads⟩

theorem reads_star_iff {s : S} {w : List S} {k : ℕ} (hq : flat[pos]? = some q) (hspan : 0 < q.2)
    (hstar : star s = some k) : Reads star flat cap (s :: w) pos depth bound ↔
      depth + 1 < cap ∧ (bound k = 0 ∧
          Reads star flat cap w (pos + q.2) (depth + 1) (Function.update bound k pos) ∨
        bound k ≠ 0 ∧ sameSlice flat (bound k) pos = true ∧
          Reads star flat cap w (pos + q.2) (depth + 1) bound) := by
  constructor
  · intro h
    cases h with
    | bind hq' _ hstar' hbound hdepth hrest =>
      obtain rfl := Option.some.inj (hq.symm.trans hq')
      obtain rfl := Option.some.inj (hstar.symm.trans hstar')
      exact ⟨hdepth, .inl ⟨hbound, hrest⟩⟩
    | again hq' _ hstar' hbound hsame hdepth hrest =>
      obtain rfl := Option.some.inj (hq.symm.trans hq')
      obtain rfl := Option.some.inj (hstar.symm.trans hstar')
      exact ⟨hdepth, .inr ⟨hbound, hsame, hrest⟩⟩
    | head _ _ hstar' =>
      rw [hstar] at hstar'
      cases hstar'
  · rintro ⟨hdepth, ⟨hbound, hrest⟩ | ⟨hbound, hsame, hrest⟩⟩
    · exact .bind hq hspan hstar hbound hdepth hrest
    · exact .again hq hspan hstar hbound hsame hdepth hrest

theorem reads_head_iff {s : S} {w : List S} (hq : flat[pos]? = some q) (hspan : 0 < q.2)
    (hstar : star s = none) : Reads star flat cap (s :: w) pos depth bound ↔
      s = q.1 ∧ Reads star flat cap w (pos + 1) depth bound := by
  constructor
  · intro h
    cases h with
    | bind _ _ hstar' | again _ _ hstar' =>
      rw [hstar] at hstar'
      cases hstar'
    | head hq' _ _ hs hrest =>
      obtain rfl := Option.some.inj (hq.symm.trans hq')
      exact ⟨hs, hrest⟩
  · rintro ⟨hs, hrest⟩
    exact .head hq hspan hstar hs hrest

theorem descendRec_iff {children : S × ℕ → ℕ → ℕ → Bound → Bool × Option Bool}
    (hchild : ∀ {q : S × ℕ} {pos depth bound}, flat[pos]? = some q → 0 < q.2 →
      Answers star flat cap ok child q pos depth bound (children q pos depth bound))
    (recs : List R) (pos depth : ℕ) (bound : Bound) :
    descendRec flat cap ok recs children pos depth bound = true ↔
      depth < cap ∧ Reached star flat cap ok recs child pos depth bound := by
  rw [descendRec]
  split_ifs with hcap
  · exact ⟨fun h => (nomatch h), fun h => absurd h.1 (Nat.not_lt.mpr hcap)⟩
  · rw [descendNode_iff hchild]
    exact ⟨fun h => ⟨Nat.lt_of_not_le hcap, h⟩, And.right⟩

/-- The descent finds exactly the records of the strings that stand for the query. -/
theorem descendChildren_answers (t : Forest S R) (hasc : t.Ascending) (hq : flat[pos]? = some q)
    (hspan : 0 < q.2) : Answers star flat cap ok t q pos depth bound
      (descendChildren star flat cap ok t q pos depth bound) := by
  induction t generalizing q pos depth bound with
  | nil =>
    refine ⟨⟨fun h => (nomatch h), ?_⟩, ⟨fun h => (nomatch h), ?_⟩, fun _ => rfl⟩
    · rintro ⟨s, k, -, w, r, h, -⟩
      exact h.elim
    · rintro ⟨-, w, r, h, -⟩
      exact h.elim
  | cons sym recs child sibling ihc ihs =>
    obtain ⟨hfirst, hchild, hsibling⟩ := hasc
    have hrest : Answers star flat cap ok sibling q pos depth bound
        (descendChildren star flat cap ok sibling q pos depth bound) := ihs hsibling hq hspan
    have hrec := descendRec_iff (fun hq' hspan' => ihc hchild hq' hspan') recs (pos + q.2)
      (depth + 1)
    cases hstar : star sym with
    | some k =>
      -- the edge is a star, so that the query's own symbol is looked for among the others
      have hne : star q.1 = none → q.1 ≠ sym := by
        rintro hnone rfl
        rw [hstar] at hnone
        cases hnone
      have hnext : star q.1 = none ∧ ReachedBy star flat cap ok (.cons sym recs child sibling) pos
          depth bound q.1 ↔ star q.1 = none ∧ ReachedBy star flat cap ok sibling pos depth bound
            q.1 := by
        refine and_congr_right fun hnone => ?_
        rw [reachedBy_cons, or_iff_right fun h => hne hnone h.1]
      have habsent : q.1 ∉ (Forest.cons sym recs child sibling).edges →
          (descendChildren star flat cap ok sibling q pos depth bound).2 = none :=
        fun h => hrest.absent fun hmem => h (List.mem_cons_of_mem sym hmem)
      have hfound : ∀ hit : Bool, (hit = true ↔ ∃ w r, (w = [] ∧ r ∈ recs ∨ child.Holds w r) ∧
            ok r = true ∧ Reads star flat cap (sym :: w) pos depth bound) →
          ((hit || (descendChildren star flat cap ok sibling q pos depth bound).1) = true ↔
            ∃ s k, star s = some k ∧
              ReachedBy star flat cap ok (.cons sym recs child sibling) pos depth bound s) := by
        intro hit hhit
        rw [Bool.or_eq_true, hhit, hrest.stars]
        constructor
        · rintro (h | ⟨s, k', hk', h⟩)
          · exact ⟨sym, k, hstar, reachedBy_cons.mpr (.inl ⟨rfl, h⟩)⟩
          · exact ⟨s, k', hk', reachedBy_cons.mpr (.inr h)⟩
        · rintro ⟨s, k', hk', h⟩
          rcases reachedBy_cons.mp h with ⟨rfl, hbelow⟩ | h
          · exact .inl hbelow
          · exact .inr ⟨s, k', hk', h⟩
      simp only [descendChildren, hstar]
      split_ifs with hbound hsame
      · refine ⟨hfound _ ?_, hrest.next.trans hnext.symm, habsent⟩
        rw [hrec]
        constructor
        · rintro ⟨hdepth, w, r, hheld, hok, hreads⟩
          exact ⟨w, r, hheld, hok,
            (reads_star_iff hq hspan hstar).mpr ⟨hdepth, .inl ⟨hbound, hreads⟩⟩⟩
        · rintro ⟨w, r, hheld, hok, hreads⟩
          obtain ⟨hdepth, ⟨-, hreads⟩ | ⟨hbound', -⟩⟩ := (reads_star_iff hq hspan hstar).mp hreads
          · exact ⟨hdepth, w, r, hheld, hok, hreads⟩
          · exact absurd hbound hbound'
      · refine ⟨hfound _ ?_, hrest.next.trans hnext.symm, habsent⟩
        rw [hrec]
        constructor
        · rintro ⟨hdepth, w, r, hheld, hok, hreads⟩
          exact ⟨w, r, hheld, hok,
            (reads_star_iff hq hspan hstar).mpr ⟨hdepth, .inr ⟨hbound, hsame, hreads⟩⟩⟩
        · rintro ⟨w, r, hheld, hok, hreads⟩
          obtain ⟨hdepth, ⟨hbound', -⟩ | ⟨-, -, hreads⟩⟩ :=
            (reads_star_iff hq hspan hstar).mp hreads
          · exact absurd hbound' hbound
          · exact ⟨hdepth, w, r, hheld, hok, hreads⟩
      · refine ⟨?_, hrest.next.trans hnext.symm, habsent⟩
        have hnone := hfound false ⟨fun h => (nomatch h), ?_⟩
        · rwa [Bool.false_or] at hnone
        · rintro ⟨w, r, hheld, hok, hreads⟩
          obtain ⟨-, ⟨hbound', -⟩ | ⟨-, hsame', -⟩⟩ := (reads_star_iff hq hspan hstar).mp hreads
          · exact absurd hbound' hbound
          · exact absurd hsame' hsame
    | none =>
      have hstars : (descendChildren star flat cap ok sibling q pos depth bound).1 = true ↔
          ∃ s k, star s = some k ∧
            ReachedBy star flat cap ok (.cons sym recs child sibling) pos depth bound s := by
        rw [hrest.stars]
        refine exists_congr fun s => exists_congr fun k => and_congr_right fun hk => ?_
        rw [reachedBy_cons, or_iff_right]
        rintro ⟨rfl, -⟩
        rw [hstar] at hk
        cases hk
      simp only [descendChildren, hstar]
      split_ifs with hsym
      · subst hsym
        have hlast : (descendChildren star flat cap ok sibling q pos depth bound).2 = none :=
          hrest.absent fun hmem => lt_irrefl q.1 (hfirst q.1 hmem)
        have hnone : ¬ ReachedBy star flat cap ok sibling pos depth bound q.1 := fun h => by
          have htrue := hrest.next.mpr ⟨hstar, h⟩
          rw [hlast] at htrue
          cases htrue
        refine ⟨hstars, ?_, fun h => absurd List.mem_cons_self h⟩
        rw [hlast, Option.none_or, Option.some.injEq,
          descendNode_iff fun hq' hspan' => ihc hchild hq' hspan']
        constructor
        · rintro ⟨w, r, hheld, hok, hreads⟩
          refine ⟨hstar, reachedBy_cons.mpr (.inl ⟨rfl, w, r, hheld, hok, ?_⟩)⟩
          exact (reads_head_iff hq hspan hstar).mpr ⟨rfl, hreads⟩
        · rintro ⟨-, h⟩
          obtain ⟨-, w, r, hheld, hok, hreads⟩ := (reachedBy_cons.mp h).resolve_right hnone
          exact ⟨w, r, hheld, hok, ((reads_head_iff hq hspan hstar).mp hreads).2⟩
      · refine ⟨hstars, ?_, fun h => hrest.absent fun hmem => h (List.mem_cons_of_mem sym hmem)⟩
        rw [hrest.next]
        refine and_congr_right fun _ => ?_
        rw [reachedBy_cons, or_iff_right fun h => hsym h.1.symm]

end

end Thvm.DiscriminationTree
