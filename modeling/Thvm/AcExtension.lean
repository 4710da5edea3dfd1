import Thvm.AcCanon

/-!
# Extensions of AC rules

The extension of a rule `l → r` with an AC symbol `f` on top is `f(l, z) → f(r, z)`. The
new variable is one above the largest variable found by a walk with a stack of fixed size.
-/

namespace Thvm.Ac

/-- The `stack` of `atp_term_max_var`. -/
def maxVarStack : ℕ := 64

/-- The loop over the children of a popped node ends when the stack is full. The stack has
its top first. -/
def pushKids : List FTerm → List FTerm → List FTerm
  | [], stack => stack
  | kid :: kids, stack =>
    if stack.length < maxVarStack then pushKids kids (kid :: stack) else stack

/-- The rounds of the walk; a round pops one node. -/
def maxVarLoop : ℕ → List FTerm → ℤ → ℤ
  | 0, _, maxId => maxId
  | _ + 1, [], maxId => maxId
  | n + 1, .leaf (.fvr id) :: stack, maxId =>
    maxVarLoop n stack (if maxId < id then id else maxId)
  | n + 1, .leaf (.num _ _) :: stack, maxId => maxVarLoop n stack maxId
  | n + 1, .node _ args :: stack, maxId => maxVarLoop n (pushKids args stack) maxId

/-- `atp_term_max_var`: -1 where no variable is found. -/
def atpTermMaxVar (t : FTerm) : ℤ := maxVarLoop t.size [t] (-1)

/-- `atp_ac_extend_rule`. -/
def atpAcExtendRule (ac : AtpAcInfo) (lhs rhs : FTerm) : Option (FTerm × FTerm) :=
  match lhs with
  | .leaf _ => none
  | .node lab _ =>
    if ac.isAcLabel lab then
      let lMax := atpTermMaxVar lhs
      let rMax := atpTermMaxVar rhs
      let m := if rMax < lMax then lMax else rMax
      let zId := (m + 1).toNat
      if rewriteMaxVar ≤ zId then none
      else some (.ctr lab [lhs, .fvr zId], .ctr lab [rhs, .fvr zId])
    else none

/-- Above `d` entries of the stack the walk sees the variable in `t`: each argument leaves
the ones left of it below itself. -/
def Sees (d : ℕ) (t : FTerm) (id : ℕ) : Prop :=
  ∃ p, t.sub p = some (FTerm.fvr id) ∧ d + p.sum < maxVarStack

/-- The walk sees the variable from some entry of the stack. -/
def StackSees (stack : List FTerm) (id : ℕ) : Prop :=
  ∃ t below, t :: below <:+ stack ∧ Sees below.length t id

variable {d n id : ℕ} {t l r : FTerm} {args stack : List FTerm} {m x : ℤ}

theorem not_stackSees_nil : ¬ StackSees [] id := by
  rintro ⟨t, below, hsuffix, -⟩
  cases List.suffix_nil.mp hsuffix

theorem stackSees_cons :
    StackSees (t :: stack) id ↔ Sees stack.length t id ∨ StackSees stack id := by
  constructor
  · rintro ⟨s, below, hsuffix, hs⟩
    rcases List.suffix_cons_iff.mp hsuffix with h | h
    · obtain ⟨rfl, rfl⟩ := List.cons.inj h
      exact .inl hs
    · exact .inr ⟨s, below, h, hs⟩
  · rintro (h | ⟨s, below, hsuffix, hs⟩)
    · exact ⟨t, stack, List.suffix_rfl, h⟩
    · exact ⟨s, below, hsuffix.trans (List.suffix_cons t stack), hs⟩

theorem sees_fvr {id' : ℕ} (hd : d < maxVarStack) : Sees d (.fvr id') id ↔ id = id' := by
  constructor
  · rintro ⟨p, hp, -⟩
    cases p with
    | nil =>
      rw [TermTree.sub_nil] at hp
      cases hp
      rfl
    | cons i p => cases hp
  · rintro rfl
    exact ⟨[], TermTree.sub_nil _, hd⟩

theorem not_sees_num {dtype value : ℕ} : ¬ Sees d (.num dtype value) id := by
  rintro ⟨p, hp, -⟩
  cases p with
  | nil => cases (TermTree.sub_nil _).symm.trans hp
  | cons i p => cases hp

theorem sees_node {f : ℕ} :
    Sees d (.node f args) id ↔ ∃ i a, args[i]? = some a ∧ Sees (d + i) a id := by
  constructor
  · rintro ⟨p, hp, hsum⟩
    cases p with
    | nil => cases (TermTree.sub_nil _).symm.trans hp
    | cons i p =>
      obtain ⟨_, _, a, h, ha, hsub⟩ := TermTree.sub_cons.mp hp
      cases h
      rw [List.sum_cons, ← Nat.add_assoc] at hsum
      exact ⟨i, a, ha, p, hsub, hsum⟩
  · rintro ⟨i, a, ha, p, hsub, hsum⟩
    refine ⟨i :: p, TermTree.sub_cons.mpr ⟨f, args, a, rfl, ha, hsub⟩, ?_⟩
    rw [List.sum_cons, ← Nat.add_assoc]
    exact hsum

theorem Sees.lt (h : Sees d t id) : d < maxVarStack := by
  obtain ⟨p, -, hsum⟩ := h
  omega

/-- What is seen after the children have been pushed. -/
theorem stackSees_pushKids (args stack : List FTerm) : StackSees (pushKids args stack) id ↔
    (∃ i a, args[i]? = some a ∧ Sees (stack.length + i) a id) ∨ StackSees stack id := by
  induction args generalizing stack with
  | nil => simp [pushKids]
  | cons kid kids ih =>
    have hcons : (∃ i a, (kid :: kids)[i]? = some a ∧ Sees (stack.length + i) a id) ↔
        Sees stack.length kid id ∨
          ∃ i a, kids[i]? = some a ∧ Sees ((kid :: stack).length + i) a id := by
      constructor
      · rintro ⟨i, a, ha, hsees⟩
        cases i with
        | zero =>
          cases ha
          exact .inl hsees
        | succ i =>
          refine .inr ⟨i, a, ha, ?_⟩
          rwa [List.length_cons, Nat.add_assoc, Nat.add_comm 1 i]
      · rintro (h | ⟨i, a, ha, hsees⟩)
        · exact ⟨0, kid, rfl, h⟩
        · refine ⟨i + 1, a, ha, ?_⟩
          rwa [List.length_cons, Nat.add_assoc, Nat.add_comm 1 i] at hsees
    rw [pushKids, hcons]
    by_cases hroom : stack.length < maxVarStack
    · rw [if_pos hroom, ih, stackSees_cons]
      constructor
      · rintro (h | h | h)
        · exact .inl (.inr h)
        · exact .inl (.inl h)
        · exact .inr h
      · rintro ((h | h) | h)
        · exact .inr (.inl h)
        · exact .inl h
        · exact .inr (.inr h)
    · -- no room: nothing of the remaining children can be seen
      rw [if_neg hroom]
      constructor
      · exact .inr
      · rintro ((h | ⟨i, a, -, h⟩) | h)
        · exact absurd h.lt hroom
        · have hlt := h.lt
          rw [List.length_cons] at hlt
          omega
        · exact h

theorem sum_size_pushKids (args stack : List FTerm) :
    ((pushKids args stack).map TermTree.size).sum ≤
      (args.map TermTree.size).sum + (stack.map TermTree.size).sum := by
  induction args generalizing stack with
  | nil => simp [pushKids]
  | cons kid kids ih =>
    rw [pushKids]
    split
    · have := ih (kid :: stack)
      simp only [List.map_cons, List.sum_cons] at this ⊢
      omega
    · exact Nat.le_add_left _ _

theorem length_pushKids (args : List FTerm) (h : stack.length ≤ maxVarStack) :
    (pushKids args stack).length ≤ maxVarStack := by
  induction args generalizing stack with
  | nil => exact h
  | cons kid kids ih =>
    rw [pushKids]
    split
    · exact ih (by rw [List.length_cons]; omega)
    · exact h

/-- The walk ends with the largest variable that it sees. -/
theorem maxVarLoop_le (hn : (stack.map TermTree.size).sum ≤ n) (hlen : stack.length ≤ maxVarStack) :
    maxVarLoop n stack m ≤ x ↔ m ≤ x ∧ ∀ id, StackSees stack id → (id : ℤ) ≤ x := by
  induction n generalizing stack m with
  | zero =>
    obtain rfl : stack = [] := by
      cases stack with
      | nil => rfl
      | cons t stack =>
        have := t.size_pos
        rw [List.map_cons, List.sum_cons] at hn
        omega
    simp [maxVarLoop, not_stackSees_nil]
  | succ n ih =>
    cases stack with
    | nil => simp [maxVarLoop, not_stackSees_nil]
    | cons t stack =>
      rw [List.map_cons, List.sum_cons] at hn
      rw [List.length_cons] at hlen
      have hpos := t.size_pos
      simp only [stackSees_cons]
      rcases t with (id | ⟨dtype, value⟩) | ⟨f, args⟩
      · rw [maxVarLoop, ih (by omega) (by omega)]
        simp only [sees_fvr (show stack.length < maxVarStack by omega)]
        constructor
        · rintro ⟨hm, hstack⟩
          split at hm
          · refine ⟨by omega, ?_⟩
            rintro id' (rfl | h)
            · exact hm
            · exact hstack id' h
          · refine ⟨hm, ?_⟩
            rintro id' (rfl | h)
            · omega
            · exact hstack id' h
        · rintro ⟨hm, hall⟩
          refine ⟨?_, fun id' h => hall id' (.inr h)⟩
          split
          · exact hall id (.inl rfl)
          · exact hm
      · rw [maxVarLoop, ih (by omega) (by omega)]
        simp [not_sees_num]
      · rw [TermTree.size_node] at hn
        have hsize := sum_size_pushKids args stack
        rw [maxVarLoop, ih (by omega) (length_pushKids args (by omega))]
        simp only [stackSees_pushKids, sees_node]

theorem atpTermMaxVar_le : atpTermMaxVar t ≤ x ↔ -1 ≤ x ∧ ∀ id, Sees 0 t id → (id : ℤ) ≤ x := by
  have hlen : [t].length ≤ maxVarStack := Nat.succ_le_succ (Nat.zero_le 63)
  rw [atpTermMaxVar, maxVarLoop_le (by simp) hlen]
  simp [stackSees_cons, not_stackSees_nil]

/-- A variable below `REWRITE_MAX_VAR` stands in the rule only out of sight of the walk, right
above all that it sees. -/
def Captured (l r : FTerm) (z : ℕ) : Prop :=
  z < rewriteMaxVar ∧ (Leaf.fvr z ∈ l.leaves ∨ Leaf.fvr z ∈ r.leaves) ∧
    (∀ id, Sees 0 l id ∨ Sees 0 r id → id < z) ∧ (z = 0 ∨ Sees 0 l (z - 1) ∨ Sees 0 r (z - 1))

/-- The number of the new variable is the one above all that is seen. -/
theorem freshId_iff {lMax rMax : ℤ} (hl : lMax = atpTermMaxVar l) (hr : rMax = atpTermMaxVar r)
    {z : ℕ} : ((if rMax < lMax then lMax else rMax) + 1).toNat = z ↔
      (∀ id, Sees 0 l id ∨ Sees 0 r id → id < z) ∧
        (z = 0 ∨ Sees 0 l (z - 1) ∨ Sees 0 r (z - 1)) := by
  have hseen : ∀ id, Sees 0 l id ∨ Sees 0 r id → (id : ℤ) ≤ if rMax < lMax then lMax else rMax := by
    have hlAll := (atpTermMaxVar_le.mp (le_refl (atpTermMaxVar l))).2
    have hrAll := (atpTermMaxVar_le.mp (le_refl (atpTermMaxVar r))).2
    rintro id (h | h)
    · have := hlAll id h
      split <;> omega
    · have := hrAll id h
      split <;> omega
  have hlow : -1 ≤ if rMax < lMax then lMax else rMax := by
    have := (atpTermMaxVar_le.mp (le_refl (atpTermMaxVar r))).1
    split <;> omega
  have hleast : ∀ x : ℤ, -1 ≤ x → (∀ id, Sees 0 l id ∨ Sees 0 r id → (id : ℤ) ≤ x) →
      (if rMax < lMax then lMax else rMax) ≤ x := by
    intro x hx h
    have hlx := atpTermMaxVar_le.mpr ⟨hx, fun id hid => h id (.inl hid)⟩
    have hrx := atpTermMaxVar_le.mpr ⟨hx, fun id hid => h id (.inr hid)⟩
    split <;> omega
  generalize (if rMax < lMax then lMax else rMax) = m at hseen hlow hleast
  constructor
  · rintro rfl
    refine ⟨fun id h => ?_, ?_⟩
    · have := hseen id h
      omega
    · by_contra hnone
      rw [not_or] at hnone
      have hpos : 0 ≤ m := by omega
      have hle := hleast (m - 1) (by omega) fun id h => by
        have hid := hseen id h
        have hne : id ≠ (m + 1).toNat - 1 := by
          rintro rfl
          exact hnone.2 h
        omega
      omega
  · rintro ⟨hall, hlast⟩
    have hle := hleast ((z : ℤ) - 1) (by omega) fun id h => by
      have := hall id h
      omega
    rcases hlast with rfl | h
    · omega
    · have := hseen _ h
      have := hall _ h
      omega

/-- A successful extension has a new variable in its two sides just when none is captured. -/
theorem atpAcExtendRule_fresh_iff (ac : AtpAcInfo) (f : ℕ) (args : List FTerm) (r : FTerm)
    (hf : ac.isAcLabel f = true) :
    (∀ e, atpAcExtendRule ac (.node f args) r = some e →
      ∃ z, e = (.ctr f [.node f args, .fvr z], .ctr f [r, .fvr z]) ∧
        Leaf.fvr z ∉ (TermTree.node f args : FTerm).leaves ∧ Leaf.fvr z ∉ r.leaves) ↔
      ∀ z, ¬ Captured (.node f args) r z := by
  generalize hl : (TermTree.node f args : FTerm) = l
  obtain ⟨zId, hzId⟩ : ∃ zId, ((if atpTermMaxVar r < atpTermMaxVar l then atpTermMaxVar l
      else atpTermMaxVar r) + 1).toNat = zId := ⟨_, rfl⟩
  have hrun : atpAcExtendRule ac l r = if rewriteMaxVar ≤ zId then none
      else some (.ctr f [l, .fvr zId], .ctr f [r, .fvr zId]) := by
    rw [← hl, atpAcExtendRule, if_pos hf, hl]
    dsimp only
    rw [hzId]
  have hid := (freshId_iff rfl rfl).mp hzId
  rw [hrun]
  constructor
  · rintro hfresh z ⟨hz, hoccurs, hseen⟩
    obtain rfl : zId = z := hzId.symm.trans ((freshId_iff rfl rfl).mpr hseen)
    obtain ⟨z', he, hnl, hnr⟩ := hfresh _ (if_neg (Nat.not_le.mpr hz))
    obtain rfl : zId = z' := by simpa using he
    rcases hoccurs with h | h
    · exact hnl h
    · exact hnr h
  · intro hfree e he
    by_cases hz : rewriteMaxVar ≤ zId
    · rw [if_pos hz] at he
      cases he
    · rw [if_neg hz] at he
      cases he
      refine ⟨zId, rfl, fun h => ?_, fun h => ?_⟩
      · exact hfree zId ⟨Nat.not_le.mp hz, .inl h, hid⟩
      · exact hfree zId ⟨Nat.not_le.mp hz, .inr h, hid⟩

/-- `f(x0, f(x0, … f(x0, last)))` with `n` occurrences of `x0`. -/
def rightChain (f : ℕ) (last : FTerm) : ℕ → FTerm
  | 0 => last
  | n + 1 => FTerm.ctr f [FTerm.fvr 0, rightChain f last n]

/-- The last variable of a chain of 64 occurrences of `f` is taken for the extension. -/
theorem atpAcExtendRule_captures :
    (⟨1⟩ : AtpAcInfo).isAcLabel 0 = true ∧
      atpAcExtendRule ⟨1⟩ (rightChain 0 (.fvr 1) 64) (.fvr 0) =
        some (.ctr 0 [rightChain 0 (.fvr 1) 64, .fvr 1], .ctr 0 [.fvr 0, .fvr 1]) ∧
      Leaf.fvr 1 ∈ (rightChain 0 (.fvr 1) 64).leaves :=
  ⟨by decide, by decide +kernel, by decide +kernel⟩

theorem atpAcExtendRule_fresh_two :
    (∀ e, atpAcExtendRule ⟨1⟩ (.ctr 0 [.fvr 0, .fvr 1]) (.fvr 0) = some e →
      ∃ z, e = (.ctr 0 [.ctr 0 [.fvr 0, .fvr 1], .fvr z], .ctr 0 [.fvr 0, .fvr z]) ∧
        Leaf.fvr z ∉ (FTerm.ctr 0 [.fvr 0, .fvr 1]).leaves ∧
          Leaf.fvr z ∉ (FTerm.fvr 0).leaves) ↔
      ∀ z, ¬ Captured (.ctr 0 [.fvr 0, .fvr 1]) (.fvr 0) z :=
  atpAcExtendRule_fresh_iff ⟨1⟩ 0 [.fvr 0, .fvr 1] (.fvr 0) (by decide)

end Thvm.Ac
