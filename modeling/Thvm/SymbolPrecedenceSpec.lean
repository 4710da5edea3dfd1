import Thvm.RankAssignment
import Thvm.SymbolPrecedence

/-!
# Generated precedences rank the symbols that are reached

The walk reaches an occurrence when the child positions on the way to it add up to less than
the size of the stack. The precedences rank exactly the symbols with such occurrences, and the
frequencies count exactly these.
-/

namespace Thvm.Prec

open TermTree Ranking

/-! ### Occurrences and their reach -/

mutual

/-- The labels of the constructors in a term, each with `d` and the child positions on the way
to it added up. -/
def places (d : ℕ) : FTerm → List (ℕ × ℕ)
  | .leaf _ => []
  | .node label args => (label, d) :: placesList d args

def placesList (d : ℕ) : List FTerm → List (ℕ × ℕ)
  | [] => []
  | a :: as => places d a ++ placesList (d + 1) as

end

/-- All occurrences of labels in the equations. -/
def occurrences (eqns : List (FTerm × FTerm)) : List ℕ :=
  eqns.flatMap fun e ↦ (places 0 e.1 ++ places 0 e.2).map Prod.fst

/-- The labels of the occurrences in a term that are within reach. -/
def within (d : ℕ) (t : FTerm) : List ℕ :=
  ((places d t).filter fun x ↦ x.2 < precStack).map Prod.fst

/-- The occurrences within reach; a right side starts from `d` entries on the stack. -/
def reached (d : ℕ) (eqns : List (FTerm × FTerm)) : List ℕ :=
  eqns.flatMap fun e ↦ within 0 e.1 ++ within d e.2

theorem le_of_mem_places {t : FTerm} {d : ℕ} {x : ℕ × ℕ} (hx : x ∈ places d t) : d ≤ x.2 := by
  induction t using TermTree.induct generalizing d with
  | leaf l => simp [places] at hx
  | node label args ih =>
    have hlist : ∀ as : List FTerm, (∀ a ∈ as, a ∈ args) → ∀ d, x ∈ placesList d as → d ≤ x.2 := by
      intro as
      induction as with
      | nil => simp [placesList]
      | cons a as ihas =>
        intro hsub d hmem
        rw [placesList, List.mem_append] at hmem
        rcases hmem with h | h
        · exact ih a (hsub a List.mem_cons_self) h
        · exact (Nat.le_succ d).trans
            (ihas (fun b hb ↦ hsub b (List.mem_cons_of_mem a hb)) (d + 1) h)
    rw [places, List.mem_cons] at hx
    rcases hx with rfl | hx
    · exact le_refl _
    · exact hlist args (fun _ ↦ id) d hx

/-- Nothing of a term is within reach from a full stack. -/
theorem within_eq_nil {d : ℕ} (hd : precStack ≤ d) (t : FTerm) : within d t = [] := by
  rw [within, List.map_eq_nil_iff, List.filter_eq_nil_iff]
  intro x hx
  have hle := le_of_mem_places hx
  simpa using hd.trans hle

def withinList (d : ℕ) (as : List FTerm) : List ℕ :=
  ((placesList d as).filter fun x ↦ x.2 < precStack).map Prod.fst

theorem withinList_cons (d : ℕ) (a : FTerm) (as : List FTerm) :
    withinList d (a :: as) = within d a ++ withinList (d + 1) as := by
  simp [withinList, within, placesList]

theorem within_node {d : ℕ} (hd : d < precStack) (label : ℕ) (args : List FTerm) :
    within d (.node label args) = label :: withinList d args := by
  simp [within, withinList, places, hd]

theorem withinList_eq_nil {d : ℕ} (hd : precStack ≤ d) (as : List FTerm) :
    withinList d as = [] := by
  induction as generalizing d with
  | nil => rfl
  | cons a as ih => rw [withinList_cons, within_eq_nil hd, ih (hd.trans (Nat.le_succ d)),
      List.nil_append]

/-- What is within reach from the entries of a stack. -/
def stackWithin : List FTerm → List ℕ
  | [] => []
  | t :: stack => within stack.length t ++ stackWithin stack

theorem stackWithin_pushChildren (args stack : List FTerm) :
    (stackWithin (pushChildren args stack)).Perm
      (withinList stack.length args ++ stackWithin stack) := by
  induction args generalizing stack with
  | nil => rfl
  | cons c cs ih =>
    rw [pushChildren, withinList_cons]
    split_ifs with hroom
    · refine (ih (c :: stack)).trans ?_
      rw [stackWithin, List.length_cons, ← List.append_assoc]
      exact List.perm_append_comm.append_right _
    · have hfull := Nat.not_lt.1 hroom
      rw [within_eq_nil hfull, withinList_eq_nil (hfull.trans (Nat.le_succ _))]
      rfl

theorem length_pushChildren (args : List FTerm) {stack : List FTerm}
    (h : stack.length ≤ precStack) : (pushChildren args stack).length ≤ precStack := by
  induction args generalizing stack with
  | nil => exact h
  | cons c cs ih =>
    rw [pushChildren]
    split_ifs with hroom
    · exact ih hroom
    · exact h

theorem sum_size_pushChildren (args stack : List FTerm) :
    ((pushChildren args stack).map size).sum ≤
      (args.map size).sum + (stack.map size).sum := by
  induction args generalizing stack with
  | nil => simp [pushChildren]
  | cons c cs ih =>
    rw [pushChildren]
    split_ifs with hroom
    · have hrest := ih (c :: stack)
      simp only [List.map_cons, List.sum_cons] at hrest ⊢
      omega
    · exact Nat.le_add_left _ _

/-! ### What the walks observe -/

section Walk

variable {S : Type} (Observes : S → List ℕ → Prop)
  (hperm : ∀ {s ls ls'}, ls.Perm ls' → Observes s ls → Observes s ls')
include hperm

section Visits

variable (visit : ℕ → ℕ → S → S) (hvisit : ∀ {s ls} label arity, Observes s ls →
  Observes (visit label arity s) (label :: ls))
include hvisit

/-- The walk visits what is within reach: an observation of the state to which a visit adds the
label sees all of it, in some order. -/
theorem walk_observes {n : ℕ} {stack : List FTerm} (hn : (stack.map size).sum ≤ n)
    (hcap : stack.length ≤ precStack) {s : S} {ls : List ℕ} (hs : Observes s ls) :
    Observes (walk visit n stack s) (stackWithin stack ++ ls) := by
  induction n generalizing stack s ls with
  | zero =>
    cases stack with
    | nil => exact hs
    | cons t stack =>
      have hpos := t.size_pos
      rw [List.map_cons, List.sum_cons] at hn
      omega
  | succ n ih =>
    cases stack with
    | nil => exact hs
    | cons t stack =>
      have hpos := t.size_pos
      rw [List.map_cons, List.sum_cons] at hn
      rw [List.length_cons] at hcap
      cases t with
      | leaf l =>
        rw [walk, stackWithin]
        exact ih (by omega) (Nat.le_of_succ_le hcap) hs
      | node label args =>
        rw [size_node] at hn
        have hsize := sum_size_pushChildren args stack
        rw [walk, stackWithin, within_node hcap]
        refine hperm ?_ (ih (by omega) (length_pushChildren args (Nat.le_of_succ_le hcap))
          (hvisit label args.length hs))
        refine ((stackWithin_pushChildren args stack).append_right _).trans ?_
        exact List.perm_middle

theorem walkFrom_observes {stack : List FTerm} (hcap : stack.length ≤ precStack) {s : S}
    {ls : List ℕ} (hs : Observes s ls) :
    Observes (walkFrom visit stack s) (stackWithin stack ++ ls) :=
  walk_observes Observes hperm visit hvisit (le_refl _) hcap hs

end Visits

/-- A loop over the equations observes what its rounds observe. -/
theorem foldl_observes (step : S → FTerm × FTerm → S) {d : ℕ}
    (hstep : ∀ {s ls} e, Observes s ls → Observes (step s e) (within 0 e.1 ++ within d e.2 ++ ls))
    (eqns : List (FTerm × FTerm)) {s : S} {ls : List ℕ} (hs : Observes s ls) :
    Observes (eqns.foldl step s) (reached d eqns ++ ls) := by
  induction eqns generalizing s ls with
  | nil => exact hs
  | cons e eqns ih =>
    refine hperm ?_ (ih (hstep e hs))
    have hcons : reached d (e :: eqns) = within 0 e.1 ++ within d e.2 ++ reached d eqns := by
      simp [reached]
    rw [hcons, ← List.append_assoc]
    exact List.perm_append_comm.append_right ls

end Walk

/-- The table of counters holds the numbers of the occurrences, in 32 bits. -/
def Counts (n : ℕ) (count ls : List ℕ) : Prop :=
  count.length = n ∧ ∀ f < n, count.getD f 0 = ls.count f % 2 ^ 32

theorem Counts.perm {n : ℕ} {count ls ls' : List ℕ} (hp : ls.Perm ls') (h : Counts n count ls) :
    Counts n count ls' :=
  ⟨h.1, fun f hf ↦ by rw [h.2 f hf, hp.count_eq]⟩

theorem Counts.visit {n : ℕ} {count ls : List ℕ} (label arity : ℕ) (h : Counts n count ls) :
    Counts n (countSymbol label arity count) (label :: ls) := by
  refine ⟨by rw [countSymbol, List.length_modify, h.1], fun f hf ↦ ?_⟩
  have hlt : f < count.length := h.1 ▸ hf
  have hold := h.2 f hf
  rw [List.getD_eq_getElem?_getD, List.getElem?_eq_getElem hlt, Option.getD_some] at hold
  rw [countSymbol, List.getD_eq_getElem?_getD, List.getElem?_modify, List.getElem?_eq_getElem hlt,
    List.count_cons]
  by_cases hlabel : label = f
  · simp [hlabel, hold]
  · simp [hlabel, hold]

theorem occurrenceCounts_spec (eqns : List (FTerm × FTerm)) (n : ℕ) :
    Counts n (occurrenceCounts eqns n) (reached 0 eqns) := by
  have hstart : Counts n (List.replicate n 0) [] :=
    ⟨List.length_replicate, fun f hf ↦ by simp [List.getD_eq_getElem?_getD, hf]⟩
  have hone : ∀ t : FTerm, [t].length ≤ precStack :=
    fun _ ↦ Nat.succ_le_succ (Nat.zero_le _)
  have hstep : ∀ {s ls} (e : FTerm × FTerm), Counts n s ls →
      Counts n (walkFrom countSymbol [e.2] (walkFrom countSymbol [e.1] s))
        (within 0 e.1 ++ within 0 e.2 ++ ls) := by
    intro s ls e hs
    have hleft := walkFrom_observes (Counts n) Counts.perm countSymbol Counts.visit (hone e.1) hs
    have hright := walkFrom_observes (Counts n) Counts.perm countSymbol Counts.visit (hone e.2)
      hleft
    refine Counts.perm ?_ hright
    simp only [stackWithin, List.length_nil, List.append_nil, ← List.append_assoc]
    exact List.perm_append_comm.append_right ls
  have hrun := foldl_observes (Counts n) Counts.perm _ hstep eqns hstart
  rwa [List.append_nil] at hrun

/-- The table marks the labels that have been seen. -/
def Marks (n : ℕ) (out : List AtpSymProps) (ls : List ℕ) : Prop :=
  out.length = n ∧ ∀ f < n, (out.getD f {}).seen = true ↔ f ∈ ls

theorem Marks.perm {n : ℕ} {out : List AtpSymProps} {ls ls' : List ℕ} (hp : ls.Perm ls')
    (h : Marks n out ls) : Marks n out ls' :=
  ⟨h.1, fun f hf ↦ by rw [h.2 f hf, hp.mem_iff]⟩

theorem Marks.visit {n : ℕ} {out : List AtpSymProps} {ls : List ℕ} (label arity : ℕ)
    (h : Marks n out ls) : Marks n (seeSymbol label arity out) (label :: ls) := by
  refine ⟨by rw [seeSymbol, setProp, List.length_modify, h.1], fun f hf ↦ ?_⟩
  have hlt : f < out.length := h.1 ▸ hf
  have hold := h.2 f hf
  rw [List.getD_eq_getElem?_getD, List.getElem?_eq_getElem hlt, Option.getD_some] at hold
  rw [seeSymbol, setProp, List.getD_eq_getElem?_getD, List.getElem?_modify,
    List.getElem?_eq_getElem hlt, List.mem_cons]
  by_cases hlabel : label = f
  · simp [hlabel]
  · simp [hlabel, Ne.symm hlabel, hold]

/-- Setting another property of a symbol keeps the marks. -/
theorem Marks.setProp {n : ℕ} {out : List AtpSymProps} {ls : List ℕ}
    {g : AtpSymProps → AtpSymProps} (hg : ∀ p, (g p).seen = p.seen) (label : Option ℕ)
    (h : Marks n out ls) : Marks n (setProp g label out) ls := by
  cases label with
  | none => exact h
  | some label =>
    refine ⟨by rw [Prec.setProp, List.length_modify, h.1], fun f hf ↦ ?_⟩
    have hlt : f < out.length := h.1 ▸ hf
    have hold := h.2 f hf
    rw [List.getD_eq_getElem?_getD, List.getElem?_eq_getElem hlt, Option.getD_some] at hold
    rw [Prec.setProp, List.getD_eq_getElem?_getD, List.getElem?_modify,
      List.getElem?_eq_getElem hlt, ← hold]
    by_cases hlabel : label = f
    · simp [hlabel, hg]
    · simp [hlabel]

section Tagging

variable {n : ℕ} {out : List AtpSymProps} {ls : List ℕ} (h : Marks n out ls)
include h

theorem Marks.setUnit {g : AtpSymProps → AtpSymProps} (hg : ∀ p, (g p).seen = p.seen)
    (found : Option (ℕ × ℕ)) : Marks n (setUnit g found out) ls := by
  rcases found with _ | ⟨f, e⟩
  · exact h
  · rw [Prec.setUnit]
    split_ifs
    · exact (h.setProp hg _).setProp (fun _ ↦ by rfl) _
    · exact h

theorem Marks.setInverse (found : Option (ℕ × ℕ × ℕ)) : Marks n (setInverse found out) ls := by
  rcases found with _ | ⟨f, i, e⟩
  · exact h
  · rw [Prec.setInverse]
    split_ifs
    · exact (h.setProp (fun _ ↦ by rfl) _).setUnit (fun _ ↦ by rfl) _
    · exact h.setUnit (fun _ ↦ by rfl) _

theorem Marks.tagUnits (a b : FTerm) : Marks n (tagUnits a b out) ls :=
  (((h.setUnit (fun _ ↦ by rfl) _).setUnit (fun _ ↦ by rfl) _).setInverse _).setInverse _

/-- The property tagging keeps the marks. -/
theorem Marks.tagEquation (l r : FTerm) : Marks n (tagEquation l r out) ls := by
  have hunits : Marks n (Prec.tagUnits r l (Prec.tagUnits l r (Prec.setProp
      (fun p ↦ { p with isIdempotent := true }) (precIsIdempotence l r) (Prec.setProp
        (fun p ↦ { p with isAssociative := true }) (precIsAssociativity l r) (Prec.setProp
          (fun p ↦ { p with isCommutative := true }) (precIsCommutativity l r) out))))) ls :=
    ((((h.setProp (fun _ ↦ by rfl) _).setProp (fun _ ↦ by rfl) _).setProp (fun _ ↦ by rfl)
      _).tagUnits l r).tagUnits r l
  rw [Prec.tagEquation]
  rcases precIsDistributivity l r with _ | ⟨f, g⟩
  · exact hunits
  · exact hunits.setProp (fun _ ↦ by rfl) _

end Tagging

theorem atpAnalyzeAxioms_spec (eqns : List (FTerm × FTerm)) (n : ℕ) :
    Marks n (atpAnalyzeAxioms eqns n) (reached 1 eqns) := by
  have hstart : Marks n (List.replicate n {}) [] :=
    ⟨List.length_replicate, fun f hf ↦ by simp [List.getD_eq_getElem?_getD, hf]⟩
  have htwo : ∀ t u : FTerm, [t, u].length ≤ precStack :=
    fun _ _ ↦ Nat.succ_le_succ (Nat.succ_le_succ (Nat.zero_le _))
  have hstep : ∀ {s ls} (e : FTerm × FTerm), Marks n s ls →
      Marks n (tagEquation e.1 e.2 (walkFrom seeSymbol [e.2, e.1] s))
        (within 0 e.1 ++ within 1 e.2 ++ ls) := by
    intro s ls e hs
    have hwalk := walkFrom_observes (Marks n) Marks.perm seeSymbol Marks.visit (htwo e.2 e.1) hs
    refine Marks.perm ?_ (hwalk.tagEquation e.1 e.2)
    simp only [stackWithin, List.length_nil, List.length_cons, zero_add, List.append_nil]
    exact List.perm_append_comm.append_right ls
  have hrun := foldl_observes (Marks n) Marks.perm _ hstep eqns hstart
  rwa [List.append_nil] at hrun

/-! ### The order of the ranks -/

theorem sortScores_perm (entries : List (ℕ × ℕ)) : (sortScores entries).Perm entries := by
  have hloop : ∀ sorted : List (ℕ × ℕ), (entries.foldl
      (fun sorted x ↦ sorted.orderedInsert (fun a b ↦ b.1 ≤ a.1) x) sorted).Perm
        (entries ++ sorted) := by
    induction entries with
    | nil => exact fun sorted ↦ List.Perm.refl sorted
    | cons x xs ih =>
      intro sorted
      refine (ih _).trans ?_
      refine ((List.perm_orderedInsert _ x sorted).append_left xs).trans ?_
      exact List.perm_middle
  rw [sortScores]
  refine (List.reverse_perm _).trans ?_
  simpa using hloop []

instance totalFstGe : Std.Total fun a b : ℕ × ℕ ↦ b.1 ≤ a.1 := ⟨fun a b ↦ Nat.le_total b.1 a.1⟩

instance transFstGe : IsTrans (ℕ × ℕ) fun a b ↦ b.1 ≤ a.1 := ⟨fun _ _ _ h h' ↦ h'.trans h⟩

theorem sortScores_pairwise (entries : List (ℕ × ℕ)) :
    (sortScores entries).Pairwise fun a b ↦ a.1 ≤ b.1 := by
  have hloop : ∀ sorted : List (ℕ × ℕ), sorted.Pairwise (fun a b ↦ b.1 ≤ a.1) →
      (entries.foldl (fun sorted x ↦ sorted.orderedInsert (fun a b ↦ b.1 ≤ a.1) x)
        sorted).Pairwise fun a b ↦ b.1 ≤ a.1 := by
    induction entries with
    | nil => exact fun sorted h ↦ h
    | cons x xs ih => exact fun sorted h ↦ ih _ (h.orderedInsert x sorted)
  rw [sortScores, List.pairwise_reverse]
  exact hloop [] List.Pairwise.nil

section RankOrder

variable {seen : ℕ → Bool} {score : ℕ → ℕ} {cap l : ℕ}

theorem rankOrder_perm (seen : ℕ → Bool) (score : ℕ → ℕ) (cap : ℕ) :
    (rankOrder seen score cap).Perm ((List.range cap).filter seen) := by
  have hsorted := (sortScores_perm (((List.range cap).filter seen).map fun l ↦ (score l, l))).map
    Prod.snd
  simpa [rankOrder, Function.comp_def] using hsorted

theorem mem_rankOrder : l ∈ rankOrder seen score cap ↔ l < cap ∧ seen l = true := by
  rw [(rankOrder_perm seen score cap).mem_iff, List.mem_filter, List.mem_range]

theorem nodup_rankOrder (seen : ℕ → Bool) (score : ℕ → ℕ) (cap : ℕ) :
    (rankOrder seen score cap).Nodup :=
  (rankOrder_perm seen score cap).nodup_iff.2 (List.nodup_range.filter _)

theorem rankOrder_pairwise (seen : ℕ → Bool) (score : ℕ → ℕ) (cap : ℕ) :
    (rankOrder seen score cap).Pairwise fun a b ↦ score a ≤ score b := by
  have hentry : ∀ x ∈ sortScores (((List.range cap).filter seen).map fun l ↦ (score l, l)),
      x.1 = score x.2 := by
    intro x hx
    obtain ⟨l, -, rfl⟩ := List.mem_map.1 ((sortScores_perm _).mem_iff.1 hx)
    rfl
  rw [rankOrder, List.pairwise_map]
  refine (sortScores_pairwise _).imp_of_mem fun {a b} ha hb hab ↦ ?_
  rwa [← hentry a ha, ← hentry b hb]

end RankOrder

/-- A label of the order has its rank in the table; the other labels keep their entries. -/
theorem getD_assignRanks {rank : ℕ → ℕ} {order prec : List ℕ} (hnodup : order.Nodup)
    (hlt : ∀ l ∈ order, l < prec.length) (l : ℕ) :
    (assignRanks rank order prec).getD l 0 =
      if l ∈ order then rank (order.idxOf l) else prec.getD l 0 := by
  have hloop : ∀ n, ((order.zipIdx n).foldl (fun prec x ↦ prec.set x.1 (rank x.2)) prec).getD l 0 =
      if l ∈ order then rank (n + order.idxOf l) else prec.getD l 0 := by
    induction order generalizing prec with
    | nil => simp
    | cons f order ih =>
      intro n
      obtain ⟨hf, horder⟩ := List.nodup_cons.1 hnodup
      have hset : ∀ g ∈ order, g < (prec.set f (rank n)).length := fun g hg ↦ by
        simpa using hlt g (List.mem_cons_of_mem f hg)
      rw [List.zipIdx_cons, List.foldl_cons, ih horder hset]
      by_cases hl : l = f
      · subst hl
        simp [hf, hlt l List.mem_cons_self, List.getD_eq_getElem?_getD]
      · have hfl : f ≠ l := Ne.symm hl
        by_cases hmem : l ∈ order
        · simp only [hmem, if_true, List.mem_cons_of_mem, List.idxOf_cons_ne _ hfl]
          congr 1
          omega
        · simp [hmem, hl, hfl, List.getD_eq_getElem?_getD]
  simpa [assignRanks] using hloop 0

theorem getD_clearPrec {cap l : ℕ} (prec : List ℕ) (hl : l < cap) :
    (clearPrec cap prec).getD l 0 = 0 := by
  simp [clearPrec, List.getD_eq_getElem?_getD, List.getElem?_append, hl]

/-! ### Precedences -/

/-- The table ranks the symbols of the equations `1 .. k`, each rank once, and no other label
below `cap`. -/
structure Ranks (eqns : List (FTerm × FTerm)) (cap : ℕ) (result : ℕ × List ℕ) : Prop where
  bijOn : Set.BijOn (fun f ↦ result.2.getD f 0) {f | f ∈ occurrences eqns} (Set.Icc 1 result.1)
  unused : ∀ f < cap, f ∉ occurrences eqns → result.2.getD f 0 = 0

/-- Smaller numbers first, and equal numbers in the order of the labels. -/
def Fewer (number : ℕ → ℕ) (f g : ℕ) : Prop :=
  number f < number g ∨ number f = number g ∧ f < g

/-- The generated precedences are total orders on the symbols, the ones by frequency in the
order of the true numbers of occurrences. -/
structure PrecedencesTotal (eqns : List (FTerm × FTerm)) (nLabels : ℕ) (prec : List ℕ) :
    Prop where
  auto : Ranks eqns (min nLabels waldMaxSymbols) (atpAutoPrecedence eqns nLabels prec)
  occurrence : Ranks eqns (min nLabels waldMaxSymbols) (atpOccurrencePrecedence eqns nLabels prec)
  reverse : Ranks eqns (min nLabels waldMaxSymbols)
    (atpReverseFrequencyPrecedence eqns nLabels prec)
  occurrence_lt : ∀ f ∈ occurrences eqns, ∀ g ∈ occurrences eqns,
    (atpOccurrencePrecedence eqns nLabels prec).2.getD f 0 <
        (atpOccurrencePrecedence eqns nLabels prec).2.getD g 0 ↔
      Fewer (fun l ↦ (occurrences eqns).count l) g f
  reverse_lt : ∀ f ∈ occurrences eqns, ∀ g ∈ occurrences eqns,
    (atpReverseFrequencyPrecedence eqns nLabels prec).2.getD f 0 <
        (atpReverseFrequencyPrecedence eqns nLabels prec).2.getD g 0 ↔
      Fewer (fun l ↦ (occurrences eqns).count l) f g

/-- The occurrences within reach tell of all occurrences: every symbol has one that the analysis
reaches, and their numbers, in 32 bits, are positive and order the symbols as the numbers of all
occurrences do. -/
structure Reached (eqns : List (FTerm × FTerm)) : Prop where
  seen : ∀ f ∈ occurrences eqns, f ∈ reached 1 eqns
  counted : ∀ f ∈ occurrences eqns, (reached 0 eqns).count f % 2 ^ 32 ≠ 0
  order : ∀ f ∈ occurrences eqns, ∀ g ∈ occurrences eqns,
    Fewer (fun l ↦ (reached 0 eqns).count l % 2 ^ 32) f g ↔
      Fewer (fun l ↦ (occurrences eqns).count l) f g

/-- A start higher on the stack moves all occurrences up. -/
theorem places_add (d k : ℕ) (t : FTerm) :
    places (d + k) t = (places d t).map fun x ↦ (x.1, x.2 + k) := by
  induction t using TermTree.induct generalizing d with
  | leaf l => rfl
  | node label args ih =>
    have hlist : ∀ (d : ℕ) (as : List FTerm), (∀ a ∈ as, a ∈ args) →
        placesList (d + k) as = (placesList d as).map fun x ↦ (x.1, x.2 + k) := by
      intro d as
      induction as generalizing d with
      | nil => exact fun _ ↦ rfl
      | cons a as ihas =>
        intro hsub
        have hrest := ihas (d + 1) fun b hb ↦ hsub b (List.mem_cons_of_mem a hb)
        rw [Nat.add_right_comm] at hrest
        rw [placesList, placesList, List.map_append, ih a (hsub a List.mem_cons_self) d, hrest]
    rw [places, places, List.map_cons, hlist d args fun _ ↦ id]

theorem map_fst_places (d : ℕ) (t : FTerm) :
    (places d t).map Prod.fst = (places 0 t).map Prod.fst := by
  rw [← Nat.zero_add d, places_add, List.map_map]
  rfl

theorem within_subset (d : ℕ) (t : FTerm) : within d t ⊆ (places 0 t).map Prod.fst := by
  rw [within, ← map_fst_places d]
  exact List.map_subset _ (List.filter_subset_self _)

theorem reached_subset (d : ℕ) (eqns : List (FTerm × FTerm)) :
    reached d eqns ⊆ occurrences eqns := by
  intro f hf
  obtain ⟨e, he, hfe⟩ := List.mem_flatMap.1 hf
  refine List.mem_flatMap.2 ⟨e, he, ?_⟩
  rw [List.map_append]
  exact (List.mem_append.1 hfe).elim (fun h ↦ List.mem_append_left _ (within_subset 0 _ h))
    fun h ↦ List.mem_append_right _ (within_subset d _ h)

section Tables

variable {eqns : List (FTerm × FTerm)} {prec order : List ℕ} {rank : ℕ → ℕ}

theorem getD_table (rank : ℕ → ℕ) (prec : List ℕ) (hnodup : order.Nodup) {cap : ℕ}
    (hlt : ∀ l ∈ order, l < cap) {f : ℕ} (hf : f < cap) :
    (assignRanks rank order (clearPrec cap prec)).getD f 0 =
      if f ∈ order then rank (order.idxOf f) else 0 := by
  have hlen : ∀ l ∈ order, l < (clearPrec cap prec).length := fun l hl ↦ by
    have := hlt l hl
    simp only [clearPrec, List.length_append, List.length_replicate]
    omega
  rw [getD_assignRanks hnodup hlen, getD_clearPrec prec hf]

/-- A table made from an order ranks the symbols exactly when the order lists them. -/
theorem ranks_iff {cap : ℕ} (hnodup : order.Nodup) (hlt : ∀ l ∈ order, l < cap)
    (hlabels : ∀ f ∈ occurrences eqns, f < cap)
    (hrank : Set.BijOn (fun f ↦ rank (order.idxOf f)) {f | f ∈ order} (Set.Icc 1 order.length)) :
    Ranks eqns cap (order.length, assignRanks rank order (clearPrec cap prec)) ↔
      ∀ f, f ∈ order ↔ f ∈ occurrences eqns := by
  have htable : ∀ f < cap, (assignRanks rank order (clearPrec cap prec)).getD f 0 =
      if f ∈ order then rank (order.idxOf f) else 0 := fun f hf ↦ getD_table rank prec hnodup hlt hf
  constructor
  · rintro ⟨hbij, hunused⟩ f
    constructor
    · intro hf
      by_contra hnot
      have hzero := hunused f (hlt f hf) hnot
      rw [htable f (hlt f hf), if_pos hf] at hzero
      have hpos := (hrank.mapsTo hf).1
      omega
    · intro hf
      by_contra hnot
      have hpos := (hbij.mapsTo hf).1
      simp only [htable f (hlabels f hf), if_neg hnot] at hpos
      omega
  · intro hsame
    have hset : {f | f ∈ order} = {f | f ∈ occurrences eqns} := Set.ext hsame
    refine ⟨?_, fun f hf hnot ↦ ?_⟩
    · rw [← hset]
      refine hrank.congr fun f hf ↦ ?_
      rw [htable f (hlt f hf)]
      exact (if_pos hf).symm
    · rw [htable f hf, if_neg fun h ↦ hnot ((hsame f).1 h)]

end Tables

theorem Fewer.asymm {number : ℕ → ℕ} {f g : ℕ} (h : Fewer number f g) : ¬ Fewer number g f := by
  unfold Fewer at *
  omega

/-- The packed scores compare by the counts and then by the labels. -/
theorem packed_lt_iff {c d f g : ℕ} (hf : f < 2 ^ 32) (hg : g < 2 ^ 32) :
    c <<< 32 ||| f < d <<< 32 ||| g ↔ c < d ∨ c = d ∧ f < g := by
  rw [← Nat.shiftLeft_add_eq_or_of_lt hf, ← Nat.shiftLeft_add_eq_or_of_lt hg, Nat.shiftLeft_eq,
    Nat.shiftLeft_eq]
  omega

/-- The numbers of occurrences within reach, as the counters hold them. -/
def counted (eqns : List (FTerm × FTerm)) (l : ℕ) : ℕ := (reached 0 eqns).count l % 2 ^ 32

section Orders

variable {eqns : List (FTerm × FTerm)} {nLabels n f : ℕ} {prec : List ℕ}

theorem mem_frequencyOrder : f ∈ frequencyOrder eqns n ↔ f < n ∧ counted eqns f ≠ 0 := by
  rw [frequencyOrder, mem_rankOrder, decide_eq_true_eq]
  refine and_congr_right fun hf ↦ ?_
  rw [(occurrenceCounts_spec eqns n).2 f hf, counted]

theorem nodup_frequencyOrder (eqns : List (FTerm × FTerm)) (n : ℕ) :
    (frequencyOrder eqns n).Nodup :=
  nodup_rankOrder _ _ _

theorem frequencyOrder_pairwise (hn : n ≤ waldMaxSymbols) :
    (frequencyOrder eqns n).Pairwise (Fewer (counted eqns)) := by
  have hle := rankOrder_pairwise (fun l ↦ decide ((occurrenceCounts eqns n).getD l 0 ≠ 0))
    (fun l ↦ (occurrenceCounts eqns n).getD l 0 <<< 32 ||| l) n
  have hne : (frequencyOrder eqns n).Pairwise (· ≠ ·) := nodup_frequencyOrder eqns n
  refine (hle.and hne).imp_of_mem fun {a b} ha hb hab ↦ ?_
  obtain ⟨ha, -⟩ := mem_frequencyOrder.1 ha
  obtain ⟨hb, -⟩ := mem_frequencyOrder.1 hb
  have hsmall : ∀ l < n, l < 2 ^ 32 := fun l hl ↦ by
    have hmax : waldMaxSymbols ≤ 2 ^ 32 := by decide
    omega
  obtain ⟨hab, hne⟩ := hab
  rw [(occurrenceCounts_spec eqns n).2 a ha, (occurrenceCounts_spec eqns n).2 b hb,
    ← Nat.not_lt, packed_lt_iff (hsmall b hb) (hsmall a ha)] at hab
  unfold Fewer counted
  omega

theorem mem_autoOrder : f ∈ rankOrder (fun l ↦ ((atpAnalyzeAxioms eqns n).getD l {}).seen)
    (fun l ↦ symScore ((atpAnalyzeAxioms eqns n).getD l {}) l) n ↔
      f < n ∧ f ∈ reached 1 eqns := by
  rw [mem_rankOrder]
  exact and_congr_right fun hf ↦ (atpAnalyzeAxioms_spec eqns n).2 f hf

/-- `atp_auto_precedence` ranks the symbols exactly when the analysis reaches all of them. -/
theorem auto_ranks_iff (hlabels : ∀ f ∈ occurrences eqns, f < min nLabels waldMaxSymbols) :
    Ranks eqns (min nLabels waldMaxSymbols) (atpAutoPrecedence eqns nLabels prec) ↔
      ∀ f ∈ occurrences eqns, f ∈ reached 1 eqns := by
  have hcap : min (min nLabels waldMaxSymbols) waldMaxSymbols = min nLabels waldMaxSymbols := by
    simp
  simp only [atpAutoPrecedence, atpGeneratePrecedence, hcap]
  rw [ranks_iff (nodup_rankOrder _ _ _) (fun l hl ↦ (mem_rankOrder.1 hl).1) hlabels
    (bijOn_rankUp (nodup_rankOrder _ _ _))]
  simp only [mem_autoOrder]
  constructor
  · exact fun h f hf ↦ ((h f).2 hf).2
  · exact fun h f ↦ ⟨fun hf ↦ reached_subset 1 eqns hf.2, fun hf ↦ ⟨hlabels f hf, h f hf⟩⟩

theorem frequency_mem_iff (hlabels : ∀ f ∈ occurrences eqns, f < n) :
    (∀ f, f ∈ frequencyOrder eqns n ↔ f ∈ occurrences eqns) ↔
      ∀ f ∈ occurrences eqns, counted eqns f ≠ 0 := by
  simp only [mem_frequencyOrder]
  constructor
  · exact fun h f hf ↦ ((h f).2 hf).2
  · refine fun h f ↦ ⟨fun hf ↦ reached_subset 0 eqns ?_, fun hf ↦ ⟨hlabels f hf, h f hf⟩⟩
    by_contra hnot
    exact hf.2 (by rw [counted, List.count_eq_zero_of_not_mem hnot, Nat.zero_mod])

section Frequency

variable (hlabels : ∀ f ∈ occurrences eqns, f < min nLabels waldMaxSymbols)
include hlabels

theorem occurrence_ranks_iff :
    Ranks eqns (min nLabels waldMaxSymbols) (atpOccurrencePrecedence eqns nLabels prec) ↔
      ∀ f ∈ occurrences eqns, counted eqns f ≠ 0 := by
  rw [← frequency_mem_iff hlabels]
  exact ranks_iff (nodup_frequencyOrder _ _) (fun l hl ↦ (mem_rankOrder.1 hl).1) hlabels
    (bijOn_rankDown (nodup_frequencyOrder _ _))

theorem reverse_ranks_iff :
    Ranks eqns (min nLabels waldMaxSymbols) (atpReverseFrequencyPrecedence eqns nLabels prec) ↔
      ∀ f ∈ occurrences eqns, counted eqns f ≠ 0 := by
  rw [← frequency_mem_iff hlabels]
  exact ranks_iff (nodup_frequencyOrder _ _) (fun l hl ↦ (mem_rankOrder.1 hl).1) hlabels
    (bijOn_rankUp (nodup_frequencyOrder _ _))

variable {g : ℕ} (hcounted : ∀ f ∈ occurrences eqns, counted eqns f ≠ 0)
  (hf : f ∈ occurrences eqns) (hg : g ∈ occurrences eqns)
include hcounted hf hg

/-- Common symbols have the lower ranks. -/
theorem occurrence_lt_iff : (atpOccurrencePrecedence eqns nLabels prec).2.getD f 0 <
    (atpOccurrencePrecedence eqns nLabels prec).2.getD g 0 ↔ Fewer (counted eqns) g f := by
  have hmem := (frequency_mem_iff hlabels).2 hcounted
  have hbelow : ∀ l ∈ frequencyOrder eqns (min nLabels waldMaxSymbols),
      l < min nLabels waldMaxSymbols := fun l hl ↦ (mem_rankOrder.1 hl).1
  have htable := fun {l} ↦ getD_table (f := l)
    (fun i ↦ (frequencyOrder eqns (min nLabels waldMaxSymbols)).length - i) prec
    (nodup_frequencyOrder _ _) hbelow
  simp only [atpOccurrencePrecedence]
  rw [htable (hlabels f hf), htable (hlabels g hg), if_pos ((hmem f).2 hf),
    if_pos ((hmem g).2 hg)]
  exact rankDown_lt_iff (frequencyOrder_pairwise (Nat.min_le_right _ _)) (fun _ _ ↦ Fewer.asymm)
    ((hmem f).2 hf) ((hmem g).2 hg)

/-- Rare symbols have the lower ranks. -/
theorem reverse_lt_iff : (atpReverseFrequencyPrecedence eqns nLabels prec).2.getD f 0 <
    (atpReverseFrequencyPrecedence eqns nLabels prec).2.getD g 0 ↔ Fewer (counted eqns) f g := by
  have hmem := (frequency_mem_iff hlabels).2 hcounted
  have hbelow : ∀ l ∈ frequencyOrder eqns (min nLabels waldMaxSymbols),
      l < min nLabels waldMaxSymbols := fun l hl ↦ (mem_rankOrder.1 hl).1
  have htable := fun {l} ↦ getD_table (f := l) (fun i ↦ i + 1) prec
    (nodup_frequencyOrder _ _) hbelow
  simp only [atpReverseFrequencyPrecedence]
  rw [htable (hlabels f hf), htable (hlabels g hg), if_pos ((hmem f).2 hf),
    if_pos ((hmem g).2 hg)]
  exact rankUp_lt_iff (frequencyOrder_pairwise (Nat.min_le_right _ _)) (fun _ _ ↦ Fewer.asymm)
    ((hmem f).2 hf) ((hmem g).2 hg)

end Frequency

end Orders

/-- The generated precedences are total orders on the symbols, ranked by their true numbers of
occurrences, exactly when the occurrences within reach tell of all. -/
theorem precedencesTotal_iff {eqns : List (FTerm × FTerm)} {nLabels : ℕ} (prec : List ℕ)
    (hlabels : ∀ f ∈ occurrences eqns, f < min nLabels waldMaxSymbols) :
    PrecedencesTotal eqns nLabels prec ↔ Reached eqns := by
  constructor
  · intro h
    have hcounted := (reverse_ranks_iff hlabels).1 h.reverse
    refine ⟨(auto_ranks_iff hlabels).1 h.auto, hcounted, fun f hf g hg ↦ ?_⟩
    exact (reverse_lt_iff hlabels hcounted hf hg).symm.trans (h.reverse_lt f hf g hg)
  · intro h
    refine ⟨(auto_ranks_iff hlabels).2 h.seen, (occurrence_ranks_iff hlabels).2 h.counted,
      (reverse_ranks_iff hlabels).2 h.counted, fun f hf g hg ↦ ?_, fun f hf g hg ↦ ?_⟩
    · exact (occurrence_lt_iff hlabels h.counted hf hg).trans (h.order g hg f hf)
    · exact (reverse_lt_iff hlabels h.counted hf hg).trans (h.order f hf g hg)

/-- Where no child positions add up to the size of the stack, nothing is out of reach. -/
theorem reached_of_shallow {eqns : List (FTerm × FTerm)}
    (hleft : ∀ e ∈ eqns, ∀ x ∈ places 0 e.1, x.2 < precStack)
    (hright : ∀ e ∈ eqns, ∀ x ∈ places 0 e.2, x.2 + 1 < precStack)
    (hcount : ∀ f, (occurrences eqns).count f < 2 ^ 32) : Reached eqns := by
  have hwithin : ∀ (d : ℕ) (t : FTerm), (∀ x ∈ places 0 t, x.2 + d < precStack) →
      within d t = (places 0 t).map Prod.fst := by
    intro d t h
    have hplaces : ∀ x ∈ places d t, decide (x.2 < precStack) = true := by
      intro x hx
      rw [← Nat.zero_add d, places_add] at hx
      obtain ⟨y, hy, rfl⟩ := List.mem_map.1 hx
      exact decide_eq_true (h y hy)
    rw [within, List.filter_eq_self.2 hplaces, map_fst_places]
  have hall : ∀ d ≤ 1, reached d eqns = occurrences eqns := by
    intro d hd
    refine List.flatMap_congr fun e he ↦ ?_
    rw [hwithin 0 e.1 (hleft e he), hwithin d e.2 fun x hx ↦ ?_, List.map_append]
    have := hright e he x hx
    omega
  have hcounted : ∀ f, (reached 0 eqns).count f % 2 ^ 32 = (occurrences eqns).count f := fun f ↦ by
    rw [hall 0 (Nat.zero_le 1), Nat.mod_eq_of_lt (hcount f)]
  refine ⟨fun f hf ↦ by rwa [hall 1 (le_refl 1)], fun f hf ↦ ?_, fun f _ g _ ↦ ?_⟩
  · rw [hcounted f]
    exact (List.count_pos_iff.2 hf).ne'
  · simp only [Fewer, hcounted]

/-- A symbol within reach of all walks. -/
theorem precedencesTotal_iff_small :
    PrecedencesTotal [(.ctr 1 [.ctr 0 [], .fvr 0], .fvr 0)] 2 [0, 0] :=
  (precedencesTotal_iff [0, 0] (by decide)).2
    ⟨by decide, by decide, by unfold Fewer; decide⟩

/-- A right-nested term: `n` binary constructors, and a constant at the end. -/
def rightSpine : ℕ → FTerm
  | 0 => .ctr 1 []
  | n + 1 => .ctr 0 [.fvr 0, rightSpine n]

/-- The constant below 256 right-nested constructors is not ranked. -/
theorem atpAutoPrecedence_rightSpine :
    ¬ PrecedencesTotal [(rightSpine 256, .fvr 0)] 2 [0, 0] := by
  intro h
  have hmem : 1 ∈ occurrences [(rightSpine 256, .fvr 0)] := by decide +kernel
  have hnot : 1 ∉ reached 1 [(rightSpine 256, .fvr 0)] := by decide +kernel
  exact hnot ((auto_ranks_iff (by decide +kernel)).1 h.auto 1 hmem)

end Thvm.Prec
