import Thvm.NetNodes

/-!
# Dynamic labels

A dynamic duplication or superposition takes its label from a number. The label becomes the
18-bit extension of the projections and of the superposition, where bit 17 of a projection marks
another kind of cell.
-/

namespace Thvm.Net

/-- The terms of the two sides of a duplication. -/
def dpTag (side : Bool) : Tag := if side then .dp1 else .dp0

/-- The label that the rules read off a number: 32 bits of its value. -/
def labelOf (num : Term) : ℕ := num.val % 2 ^ 32

def interactDduNum (h : NetHeap) (dduLoc : ℕ) (labNum : Term) : Except Halt (NetHeap × Term) := do
  let lab := labelOf labNum
  let v := h.cells (dduLoc + 1)
  let bod := h.cells (dduLoc + 2)
  let (h, c) ← h.alloc 1
  let h := h.set c v
  let x0 := termNew false .dp0 lab c
  let x1 := termNew false .dp1 lab c
  let (h, a0) ← h.alloc 2
  let h := h.set a0 bod
  let h := h.set (a0 + 1) x0
  let app0 := termNew false .app 0 a0
  let (h, a1) ← h.alloc 2
  let h := h.set a1 app0
  let h := h.set (a1 + 1) x1
  .ok (h, termNew false .app 0 a1)

def interactDsuNum (h : NetHeap) (dsuLoc : ℕ) (labNum : Term) : Except Halt (NetHeap × Term) := do
  let lab := labelOf labNum
  let a := h.cells (dsuLoc + 1)
  let b := h.cells (dsuLoc + 2)
  let (h, c) ← h.alloc 2
  let h := h.set c a
  let h := h.set (c + 1) b
  .ok (h, termNew false .sup lab c)

/-- What fires when a projection is forced. -/
inductive Rule
  | gradFwd | gradBwd | subst | dupSupAnn | dupSupCom | dupOther
  deriving DecidableEq, Repr

/-- A rule that fired, the heap after it and the term to go on with. -/
structure Fired where
  rule : Rule
  heap : NetHeap
  next : Term

/-- The branch of `interact_dup_sup` for equal labels. -/
def dupSupAnn (h : NetHeap) (loc : ℕ) (side : Bool) (sup : Term) : Except Halt Fired :=
  let (h', t) := h.substCop side loc (h.cells sup.val) (h.cells (sup.val + 1))
  .ok ⟨.dupSupAnn, h', t⟩

/-- The branch of `interact_dup_sup` for different labels. -/
def dupSupCom (h : NetHeap) (lab loc : ℕ) (side : Bool) (sup : Term) : Except Halt Fired := do
  let a := h.cells sup.val
  let b := h.cells (sup.val + 1)
  let (h, c) ← h.alloc 6
  let h := h.set c a
  let h := h.set (c + 1) b
  let h := h.set (c + 2) (termNew false .dp0 lab c)
  let h := h.set (c + 3) (termNew false .dp0 lab (c + 1))
  let h := h.set (c + 4) (termNew false .dp1 lab c)
  let h := h.set (c + 5) (termNew false .dp1 lab (c + 1))
  let x0 := termNew false .sup sup.ext (c + 2)
  let x1 := termNew false .sup sup.ext (c + 4)
  let (h, t) := h.substCop side loc x0 x1
  .ok ⟨.dupSupCom, h, t⟩

def interactDupSup (h : NetHeap) (lab loc : ℕ) (side : Bool) (sup : Term) : Except Halt Fired :=
  if lab = sup.ext then dupSupAnn h loc side sup else dupSupCom h lab loc side sup

/-- Forcing a projection whose cell holds a superposition or a substitution. A projection with
the gradient flag does not look at its cell as a duplication: one side goes on with what is in
it, the other one is handed to the chain rule. -/
def forceDp (h : NetHeap) (dp : Term) : Except Halt Fired :=
  let loc := dp.val
  let cell := h.cells loc
  if dupGradFlag dp.ext then
    if dp.tag = .dp0 then .ok ⟨.gradFwd, h, cell⟩ else .ok ⟨.gradBwd, h, dp⟩
  else if cell.sub then .ok ⟨.subst, h, { cell with sub := false }⟩
  else if cell.tag = .sup then interactDupSup h dp.ext loc (dp.tag = .dp1) cell
  else .ok ⟨.dupOther, h, dp⟩

/-- The projections that the rule for a dynamic duplication hands to its body. -/
def projection (h : NetHeap) (app : Term) (side : Bool) : Term :=
  if side then h.cells (app.val + 1) else h.cells ((h.cells app.val).val + 1)

/-- A dynamic duplication with the number `n` over a dynamic superposition with the number `m`:
the superposition becomes a plain one with its two components, and both projections annihilate
with it when the numbers are equal and commute with it otherwise. -/
def LabelsBehave (n m : ℕ) : Prop :=
  ∀ (h h₁ h₂ : NetHeap) (dsuLoc dduLoc : ℕ) (sup app : Term),
    interactDsuNum h dsuLoc (termNum m) = .ok (h₁, sup) →
    h₁.cells (dduLoc + 1) = sup →
    interactDduNum h₁ dduLoc (termNum n) = .ok (h₂, app) →
    sup = termNew false .sup m sup.val ∧
    h₁.cells sup.val = h.cells (dsuLoc + 1) ∧ h₁.cells (sup.val + 1) = h.cells (dsuLoc + 2) ∧
    ∀ side, (projection h₂ app side).tag = dpTag side ∧
      forceDp h₂ (projection h₂ app side) =
        if n = m then dupSupAnn h₂ (projection h₂ app side).val side sup
        else dupSupCom h₂ (projection h₂ app side).ext (projection h₂ app side).val side sup

/-! ### What the forcing rules leave in the heap -/

section Forced

variable {h h' : NetHeap} {loc n : ℕ} {t : Term}

theorem labelOf_termNum (hn : n < 2 ^ 32) : labelOf (termNum n) = n := by
  have hval : n < 2 ^ 38 := Nat.lt_of_lt_of_le hn (by decide)
  rw [labelOf, termNum, termNew, Nat.mod_eq_of_lt hval, Nat.mod_eq_of_lt hn]

/-- `interact_dsu_num` allocates the two components of a plain superposition. -/
theorem interactDsuNum_ok (hn : n < 2 ^ 32)
    (hok : interactDsuNum h loc (termNum n) = .ok (h', t)) :
    t = termNew false .sup n h.next ∧ t.val = h.next ∧ h'.cells h.next = h.cells (loc + 1) ∧
      h'.cells (h.next + 1) = h.cells (loc + 2) := by
  obtain ⟨⟨h₁, c⟩, hc, hok⟩ := bind_ok hok
  obtain ⟨rfl, hcells, -, -, hle⟩ := NetHeap.alloc_ok hc
  obtain ⟨rfl, rfl⟩ := Prod.mk.inj (Except.ok.inj hok)
  have hval : h.next % 2 ^ 38 = h.next := Nat.mod_eq_of_lt (by omega)
  refine ⟨by rw [labelOf_termNum hn], hval, ?_, ?_⟩
  · simp [hcells]
  · simp

/-- `interact_ddu_num` puts the value into a fresh cell and hands the body its two
projections. -/
theorem interactDduNum_ok (hn : n < 2 ^ 32)
    (hok : interactDduNum h loc (termNum n) = .ok (h', t)) :
    h'.cells h.next = h.cells (loc + 1) ∧
      ∀ side, projection h' t side = termNew false (dpTag side) n h.next ∧
        (projection h' t side).val = h.next := by
  obtain ⟨⟨h₁, c⟩, hc, hok⟩ := bind_ok hok
  obtain ⟨⟨h₂, a0⟩, ha0, hok⟩ := bind_ok hok
  obtain ⟨⟨h₃, a1⟩, ha1, hok⟩ := bind_ok hok
  obtain ⟨rfl, hcells₁, hnext₁, -, hle₁⟩ := NetHeap.alloc_ok hc
  obtain ⟨rfl, hcells₂, hnext₂, -, hle₂⟩ := NetHeap.alloc_ok ha0
  obtain ⟨rfl, hcells₃, hnext₃, -, hle₃⟩ := NetHeap.alloc_ok ha1
  obtain ⟨rfl, rfl⟩ := Prod.mk.inj (Except.ok.inj hok)
  simp only [NetHeap.set_next, NetHeap.set_cells, hnext₁, hnext₂] at hcells₂ hcells₃ hle₂ hle₃ ⊢
  -- the five new cells are apart, and their locations fit the terms that point to them
  have hval : ∀ i ≤ 3, (h.next + i) % 2 ^ 38 = h.next + i :=
    fun i hi ↦ Nat.mod_eq_of_lt (by omega)
  have hval₀ := hval 0 (Nat.zero_le 3)
  rw [Nat.add_zero] at hval₀
  refine ⟨?_, fun side ↦ ?_⟩
  · simp [hcells₃, hcells₂, Nat.add_assoc]
  · cases side with
    | false =>
      simp [projection, termNew, dpTag, hcells₃, Nat.add_assoc, labelOf_termNum hn, hval₀,
        hval 1 (by decide), hval 3 (by decide), -Nat.reducePow]
    | true =>
      simp [projection, termNew, dpTag, Nat.add_assoc, labelOf_termNum hn, hval₀,
        hval 3 (by decide), -Nat.reducePow]

/-- The packed label has the gradient flag when bit 17 of the number is set. -/
theorem dupGradFlag_packed (n : ℕ) : dupGradFlag (n % 2 ^ 18) = n.testBit 17 := by
  rw [dupGradFlag, Nat.testBit_mod_two_pow]
  rfl

/-- What a projection with the number `n` does over a superposition with the number `m`. -/
theorem forceDp_packed {sup : Term} {m : ℕ} {side : Bool} (hcell : h.cells loc = sup)
    (hsup : sup = termNew false .sup m sup.val) (hloc : loc < 2 ^ 38) :
    forceDp h (termNew false (dpTag side) n loc) =
      if n.testBit 17 then
        if side then .ok ⟨.gradBwd, h, termNew false (dpTag side) n loc⟩
        else .ok ⟨.gradFwd, h, sup⟩
      else if n % 2 ^ 18 = m % 2 ^ 18 then dupSupAnn h loc side sup
      else dupSupCom h (n % 2 ^ 18) loc side sup := by
  have hval : (termNew false (dpTag side) n loc).val = loc := Nat.mod_eq_of_lt hloc
  have hext : (termNew false (dpTag side) n loc).ext = n % 2 ^ 18 := rfl
  have htag : (termNew false (dpTag side) n loc).tag = dpTag side := rfl
  have hsub : sup.sub = false := by rw [hsup]; rfl
  have hsuptag : sup.tag = .sup := by rw [hsup]; rfl
  have hsupext : sup.ext = m % 2 ^ 18 := by rw [hsup]; rfl
  rw [forceDp]
  simp only [hval, hext, htag, hcell, dupGradFlag_packed, hsub, hsuptag, interactDupSup, hsupext]
  cases side <;> simp [dpTag]

end Forced

/-- The result of the commutation shows its rule. -/
theorem rule_dupSupCom {h : NetHeap} {lab loc : ℕ} {side : Bool} {sup : Term} {f : Fired}
    (hok : dupSupCom h lab loc side sup = .ok f) : f.rule = .dupSupCom := by
  obtain ⟨⟨h₁, c⟩, -, hok⟩ := bind_ok hok
  rw [← Except.ok.inj hok]

/-- A heap with a dynamic superposition at `0` and a dynamic duplication at `3`, whose value is
the superposition with the number `m` that the next allocation holds. -/
def labelHeap (m : ℕ) : NetHeap where
  cells loc := if loc = 4 then termNew false .sup m 6 else .zero
  next := 6
  cap := 16
  cap_le := by decide

theorem exists_forced {n m : ℕ} (hm : m < 2 ^ 32) : ∃ h₁ h₂ sup app,
    interactDsuNum (labelHeap m) 0 (termNum m) = .ok (h₁, sup) ∧ h₁.cells 4 = sup ∧
      interactDduNum h₁ 3 (termNum n) = .ok (h₂, app) := by
  refine ⟨_, _, _, _, rfl, ?_, rfl⟩
  simp only [labelOf_termNum hm]
  rfl

section Behaviour

variable {n m : ℕ} (hn : n < 2 ^ 32) (hm : m < 2 ^ 32)
include hn hm

/-- Both labels forced: the projections point to a fresh cell that holds the superposition. -/
theorem forced {h h₁ h₂ : NetHeap} {dsuLoc dduLoc : ℕ} {sup app : Term}
    (hdsu : interactDsuNum h dsuLoc (termNum m) = .ok (h₁, sup))
    (hv : h₁.cells (dduLoc + 1) = sup)
    (hddu : interactDduNum h₁ dduLoc (termNum n) = .ok (h₂, app)) (side : Bool) :
    h₁.next < 2 ^ 38 ∧ projection h₂ app side = termNew false (dpTag side) n h₁.next ∧
      (projection h₂ app side).val = h₁.next ∧ sup = termNew false .sup m sup.val ∧
      h₂.cells h₁.next = sup := by
  obtain ⟨hsup, hsupval, -, -⟩ := interactDsuNum_ok hm hdsu
  obtain ⟨hcell, hproj⟩ := interactDduNum_ok hn hddu
  obtain ⟨hdp, hval⟩ := hproj side
  have hloc : h₁.next < 2 ^ 38 := by
    rw [← hval, hdp]
    exact Nat.mod_lt _ (Nat.two_pow_pos 38)
  exact ⟨hloc, hdp, hval, by rwa [← hsupval] at hsup, hcell.trans hv⟩

theorem LabelsBehave.packed (hbehave : LabelsBehave n m) :
    n.testBit 17 = false ∧ (n = m ∨ n % 2 ^ 18 ≠ m % 2 ^ 18) := by
  obtain ⟨h₁, h₂, sup, app, hdsu, hv, hddu⟩ := exists_forced (n := n) hm
  obtain ⟨hloc, hdp, -, hsup, hcell⟩ := forced hn hm hdsu hv hddu false
  have hfire := ((hbehave _ _ _ 0 3 _ _ hdsu hv hddu).2.2.2 false).2
  rw [hdp, forceDp_packed hcell hsup hloc] at hfire
  cases hflag : n.testBit 17 with
  | true =>
    rw [hflag, if_pos rfl, if_neg Bool.false_ne_true] at hfire
    split_ifs at hfire
    · cases hfire
    · cases rule_dupSupCom hfire.symm
  | false =>
    refine ⟨rfl, ?_⟩
    by_contra hclash
    obtain ⟨hne, hsame⟩ := not_or.1 hclash
    rw [hflag, if_neg Bool.false_ne_true, if_pos (not_not.1 hsame), if_neg hne] at hfire
    cases rule_dupSupCom hfire.symm

theorem labelsBehave_of_packed (hflag : n.testBit 17 = false)
    (hlabels : n = m ∨ n % 2 ^ 18 ≠ m % 2 ^ 18) : LabelsBehave n m := by
  intro h h₁ h₂ dsuLoc dduLoc sup app hdsu hv hddu
  obtain ⟨-, hsupval, ha, hb⟩ := interactDsuNum_ok hm hdsu
  obtain ⟨-, -, -, hsup, -⟩ := forced hn hm hdsu hv hddu false
  refine ⟨hsup, hsupval ▸ ha, hsupval ▸ hb, fun side ↦ ?_⟩
  obtain ⟨hloc, hdp, hval, -, hcell⟩ := forced hn hm hdsu hv hddu side
  rw [hval, hdp, forceDp_packed hcell hsup hloc, hflag, if_neg Bool.false_ne_true]
  refine ⟨rfl, ?_⟩
  rcases hlabels with rfl | hne
  · rw [if_pos rfl, if_pos rfl]
  · rw [if_neg hne, if_neg fun h ↦ hne (by rw [h])]
    rfl

/-- Dynamic labels behave as static ones exactly when bit 17 is clear and the packing does not
identify two different numbers. -/
theorem labelsBehave_iff :
    LabelsBehave n m ↔ n.testBit 17 = false ∧ (n = m ∨ n % 2 ^ 18 ≠ m % 2 ^ 18) :=
  ⟨LabelsBehave.packed hn hm, fun h ↦ labelsBehave_of_packed hn hm h.1 h.2⟩

end Behaviour

/-- The numbers 1 and 2. -/
theorem labelsBehave_iff_small : LabelsBehave 1 2 :=
  (labelsBehave_iff (by decide) (by decide)).2 (by decide)

/-- A duplication with the number `2 ^ 17` becomes one of the gradient, and the numbers `0` and
`2 ^ 18` annihilate. -/
theorem not_labelsBehave : ¬ LabelsBehave (2 ^ 17) 1 ∧ ¬ LabelsBehave 0 (2 ^ 18) := by
  refine ⟨fun h ↦ ?_, fun h ↦ ?_⟩
  · have hpacked := LabelsBehave.packed (by decide) (by decide) h
    revert hpacked
    decide
  · have hpacked := LabelsBehave.packed (by decide) (by decide) h
    revert hpacked
    decide

end Thvm.Net
