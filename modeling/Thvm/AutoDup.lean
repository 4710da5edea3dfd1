import Thvm.DynamicLabels
import Thvm.HopTrees
import Thvm.LamErasure

/-!
# Automatic duplication

A lambda that uses its binder more than once is sealed with a chain of duplications: the walk
collects the cells with a variable of the binder, and each of them becomes a projection.
-/

namespace Thvm.Net

/-! ### Collecting the occurrences -/

/-- `LAM_AUTODUP_MAX_USES`. -/
def lamAutodupMaxUses : ℕ := 1024

/-- A variable of the binder. -/
def Occ (lamLoc : ℕ) (t : Term) : Prop := t.tag = .var ∧ t.val = lamLoc

instance (lamLoc : ℕ) (t : Term) : Decidable (Occ lamLoc t) := inferInstanceAs (Decidable (_ ∧ _))

/-- References and suspensions are closed. -/
def Closed (t : Term) : Prop := t.tag = .ref ∨ t.tag = .alo

instance (t : Term) : Decidable (Closed t) := inferInstanceAs (Decidable (_ ∨ _))

/-- A compiled kernel, with its inputs out of sight. -/
def IsKernel (t : Term) : Prop := t.tag = .uop ∧ t.ext = Uop.kernel

instance (t : Term) : Decidable (IsKernel t) := inferInstanceAs (Decidable (_ ∧ _))

/-- The loop of `auto_dup_collect`, or `none` where it gives up. -/
def collectLoop (cells : ℕ → Term) (lamLoc maxCount : ℕ) (visited found stack : List ℕ) :
    Option (List ℕ) :=
  match stack with
  | [] => some found
  | loc :: stack =>
    if Occ lamLoc (cells loc) then
      if maxCount ≤ found.length then none
      else collectLoop cells lamLoc maxCount visited (found ++ [loc]) stack
    else if Closed (cells loc) then collectLoop cells lamLoc maxCount visited found stack
    else if IsKernel (cells loc) then none
    else if walkCells cells (cells loc) = [] ∨ (cells loc).val ∈ visited then
      collectLoop cells lamLoc maxCount visited found stack
    else if lamBodyMaxVisits ≤ visited.length then none
    else
      -- pushed in reverse, so that the cells are popped from left to right
      match pushAll (walkCells cells (cells loc)).reverse stack with
      | none => none
      | some stack => collectLoop cells lamLoc maxCount ((cells loc).val :: visited) found stack
termination_by (lamBodyMaxVisits - visited.length, stack.length)
decreasing_by
  · exact Prod.Lex.right _ (Nat.lt_succ_self _)
  · exact Prod.Lex.right _ (Nat.lt_succ_self _)
  · exact Prod.Lex.right _ (Nat.lt_succ_self _)
  · refine Prod.Lex.left _ _ ?_
    simp only [List.length_cons]
    omega

def autoDupCollect (cells : ℕ → Term) (lamLoc maxCount : ℕ) : Option (List ℕ) :=
  collectLoop cells lamLoc maxCount [] [] [lamLoc]

/-! ### The chain of duplications -/

/-- The counter for labels, from `AUTO_DUP_LABEL_BASE` to `AUTO_DUP_LABEL_TOP`. -/
structure DupLabel where
  num : ℕ
  low : 2 ^ 16 ≤ num
  high : num < 2 ^ 17

/-- `auto_dup_fresh_label`: what the counter is afterwards. -/
def DupLabel.next (lab : DupLabel) : DupLabel :=
  if h : lab.num + 1 < 2 ^ 17 then ⟨lab.num + 1, Nat.le_succ_of_le lab.low, h⟩
  else ⟨2 ^ 16, le_refl _, by decide⟩

/-- A duplication of the chain: its cell and its label. -/
structure Dup where
  loc : ℕ
  lab : DupLabel

/-- One of the two projections of a duplication. -/
def Dup.proj (d : Dup) (side : Bool) : Term := termNew false (dpTag side) d.lab.num d.loc

/-- `n` cells are allocated. The first one holds `body`, every other one the second projection of
the duplication before it. -/
def dupChain : ℕ → Term → NetHeap → DupLabel → Except Halt (NetHeap × DupLabel × List Dup)
  | 0, _, h, lab => .ok (h, lab, [])
  | n + 1, body, h, lab => do
    let (h, loc) ← h.alloc 1
    let d : Dup := ⟨loc, lab⟩
    let (h, lab, ds) ← dupChain n (d.proj true) (h.set loc body) lab.next
    .ok (h, lab, d :: ds)

/-- What replaces the variables: the first projections, and for the last one of them the second
projection of the last duplication. -/
def useTerms : List Dup → List Term
  | [] => []
  | [d] => [d.proj false, d.proj true]
  | d :: ds => d.proj false :: useTerms ds

/-- The cells are set one after the other. -/
def setCells : List ℕ → List Term → NetHeap → NetHeap
  | loc :: locs, t :: ts, h => setCells locs ts (h.set loc t)
  | _, _, h => h

def autoDupLamAt (h : NetHeap) (lab : DupLabel) (lamLoc : ℕ) (locs : List ℕ) :
    Except Halt (NetHeap × DupLabel) := do
  let (h, lab, ds) ← dupChain (locs.length - 1) (termNew false .var 0 lamLoc) h lab
  .ok (setCells locs (useTerms ds) h, lab)

/-- `lam_seal_ext_with_auto_dup`. A body that is a tensor operation is left to the compiler. -/
def lamSealExtWithAutoDup (h : NetHeap) (lab : DupLabel) (lamLoc baseExt : ℕ) :
    Except Halt (NetHeap × DupLabel × ℕ) :=
  let body := h.cells lamLoc
  if body.tag = .uop ∧ body.ext ≠ Uop.kernel then
    .ok (h, lab, lamSealExt h.cells lamLoc baseExt)
  else
    match autoDupCollect h.cells lamLoc lamAutodupMaxUses with
    | none => .ok (h, lab, lamSealExt h.cells lamLoc baseExt)
    | some locs =>
      if locs.length = 0 then .ok (h, lab, baseExt ||| lamEraMask)
      else if 1 < locs.length then do
        let (h, lab) ← autoDupLamAt h lab lamLoc locs
        .ok (h, lab, baseExt)
      else .ok (h, lab, baseExt)

/-! ### The tree that a term stands for -/

/-- A substituted variable stands for what was substituted, and a projection of a plain
duplication for what is duplicated. -/
def StandsFor (cells : ℕ → Term) (t : Term) : Prop :=
  t.tag = .var ∧ (cells t.val).sub ∨ (t.tag = .dp0 ∨ t.tag = .dp1) ∧ dupGradFlag t.ext = false

instance (cells : ℕ → Term) (t : Term) : Decidable (StandsFor cells t) :=
  inferInstanceAs (Decidable (_ ∨ _))

/-- One layer of what a term stands for. -/
def valueView (side : ℕ → List ℕ) (cells : ℕ → Term) (t : Term) : Layer ReadHead ReadHead Term :=
  if StandsFor cells t then .hop (cells t.val)
  else
    match readView side cells t with
    | .leaf l => .leaf l
    | .node f kids => .node f kids

/-- The same with a term in place of every variable of a binder. -/
def replacedView (side : ℕ → List ℕ) (cells : ℕ → Term) (lamLoc : ℕ) (arg t : Term) :
    Layer ReadHead ReadHead Term :=
  if Occ lamLoc t then .hop arg else valueView side cells t

end Thvm.Net
