import Thvm.NetNodes

/-!
# The walk over the body of a lambda

When a lambda is sealed, a walk over its body looks for a variable of its binder. The walk goes by
a table of arities. If it finds none, the lambda is marked as erasing.
-/

namespace Thvm.Net

/-- `LAM_BODY_MAX_VISITS`: the entries of the visited set, and of the stack. -/
def lamBodyMaxVisits : ℕ := 4096

/-- The table of `lam_body_arity` for the operations. -/
def lamUopArity : ℕ → ℕ
  | Uop.const => 1
  | Uop.add | Uop.mul | Uop.cmplt | Uop.cmpeq | Uop.kernel | Uop.assign => 2
  | Uop.neg | Uop.recip | Uop.exp2 | Uop.log2 | Uop.sqrt | Uop.load | Uop.flip | Uop.cast
  | Uop.bitcast => 1
  | Uop.reduce => 1
  | Uop.reshape | Uop.permute | Uop.expand | Uop.pad | Uop.shrink => 1
  | _ => 0

def lamBodyArity (t : Term) : ℕ :=
  match t.tag with
  | .lam => 1
  | .app => 2
  | .sup => 2
  | .dup => 1
  | .op2 => 2
  | .mat => 2
  | .alo => 2
  | .dp0 | .dp1 => if dupGradFlag t.ext then 3 else 1
  | .uop => lamUopArity (uopOf t)
  | .eql => 2
  | .and => 2
  | .or => 2
  | .inc => 1
  | .when => 2
  | .ann => 2
  | .bri => 1
  | _ => 0

/-- The cells that the walk reads for a term. -/
def walkCells (cells : ℕ → Term) (t : Term) : List ℕ :=
  if t.tag = .ctr then List.range' (t.val + 1) (countAt cells t.val)
  else List.range' t.val (lamBodyArity t)

/-- The terms that end the walk: a variable of the binder, and the opaque references, which may
hide one. -/
def EndsWalk (lamLoc : ℕ) (t : Term) : Prop :=
  t.tag = .var ∧ t.val = lamLoc ∨ t.tag = .ref ∨ t.tag = .alo ∨
    t.tag = .uop ∧ uopOf t = Uop.kernel

instance (lamLoc : ℕ) (t : Term) : Decidable (EndsWalk lamLoc t) :=
  inferInstanceAs (Decidable (_ ∨ _))

/-- Items are pushed one by one, as long as the stack has room. -/
def pushAll {α : Type} : List α → List α → Option (List α)
  | [], stack => some stack
  | x :: xs, stack => if lamBodyMaxVisits ≤ stack.length then none else pushAll xs (x :: stack)

theorem pushAll_eq {α : Type} (xs stack : List α) (hxs : xs ≠ []) :
    pushAll xs stack = if lamBodyMaxVisits < stack.length + xs.length then none
      else some (xs.reverse ++ stack) := by
  induction xs generalizing stack with
  | nil => exact absurd rfl hxs
  | cons x xs ih =>
    rw [pushAll]
    by_cases hfull : lamBodyMaxVisits ≤ stack.length
    · rw [if_pos hfull, if_pos (by simp only [List.length_cons]; omega)]
    · rw [if_neg hfull]
      cases xs with
      | nil =>
        rw [pushAll, if_neg (by simp only [List.length_cons, List.length_nil]; omega)]
        rfl
      | cons x' xs =>
        have hlen : (x :: stack).length + (x' :: xs).length =
            stack.length + (x :: x' :: xs).length := by
          simp only [List.length_cons]
          omega
        rw [ih _ (List.cons_ne_nil _ _), hlen]
        simp

/-- The loop of `lam_body_uses_var`. -/
def bodyWalk (cells : ℕ → Term) (lamLoc : ℕ) (visited : List ℕ) (stack : List Term) : Bool :=
  match stack with
  | [] => false
  | t :: stack =>
    if EndsWalk lamLoc t then true
    else if walkCells cells t = [] ∨ t.val ∈ visited then bodyWalk cells lamLoc visited stack
    else if lamBodyMaxVisits ≤ visited.length then true
    else
      match pushAll ((walkCells cells t).map cells) stack with
      | none => true
      | some stack => bodyWalk cells lamLoc (t.val :: visited) stack
termination_by (lamBodyMaxVisits - visited.length, stack.length)
decreasing_by
  · exact Prod.Lex.right _ (Nat.lt_succ_self _)
  · refine Prod.Lex.left _ _ ?_
    simp only [List.length_cons]
    omega

def lamBodyUsesVar (cells : ℕ → Term) (lamLoc : ℕ) : Bool :=
  bodyWalk cells lamLoc [] [cells lamLoc]

/-- `LAM_ERA_MASK` in the extension of a lambda. -/
def lamEraMask : ℕ := 2 ^ 17

def lamSealExt (cells : ℕ → Term) (lamLoc baseExt : ℕ) : ℕ :=
  if lamBodyUsesVar cells lamLoc then baseExt else baseExt ||| lamEraMask

variable {side : ℕ → List ℕ} {cells : ℕ → Term} {lamLoc ext : ℕ} {t x y : Term}
  {visited : List ℕ} {stack : List Term}

/-! ### The cells that the walk reads -/

theorem lamUopArity_le (op : ℕ) : lamUopArity op ≤ (uopLayout op).fixed := by
  revert op
  refine forall_opcode ?_ fun _ => ?_
  · decide
  · exact le_rfl

/-- The walk reads cells of the term. -/
theorem walkCells_subset (halo : t.tag ≠ .alo) :
    walkCells cells t ⊆ ownCells side cells t := by
  obtain ⟨sub, tag, ext, val⟩ := t
  cases tag
  case ctr =>
    intro c hc
    have hc' := List.mem_range'_1.1 hc
    exact List.mem_range'_1.2 ⟨by omega, by omega⟩
  case alo => exact absurd rfl halo
  case uop =>
    intro c hc
    have harity := lamUopArity_le (uopOf ⟨sub, .uop, ext, val⟩)
    have hc' := List.mem_range'_1.1 hc
    refine List.mem_append_left _ (List.mem_range'_1.2 ⟨hc'.1, hc'.2.trans_le ?_⟩)
    exact Nat.add_le_add_left (harity.trans (Nat.le_add_right _ _)) _
  all_goals simp [walkCells, ownCells, lamBodyArity, List.range'_succ]

/-- A term of a kind. -/
def kindTerm (kind : Tag × ℕ) : Term :=
  ⟨false, kind.1, if kind.1 = .uop then kind.2 else kind.2 * 2 ^ 17, 0⟩

theorem dupGradFlag_kind (flag : Bool) :
    dupGradFlag ((if flag = true then 1 else 0) * 2 ^ 17) = flag := by
  cases flag <;> decide

theorem lamBodyArity_kindTerm (t : Term) :
    lamBodyArity t = lamBodyArity (kindTerm (nodeKind t)) := by
  obtain ⟨sub, tag, ext, val⟩ := t
  cases tag
  case uop => simp [lamBodyArity, kindTerm, nodeKind, uopOf]
  case dp0 =>
    simp only [lamBodyArity, kindTerm, nodeKind, reduceCtorEq, if_false, dupGradFlag_kind]
  case dp1 =>
    simp only [lamBodyArity, kindTerm, nodeKind, reduceCtorEq, if_false, dupGradFlag_kind]
  case dup => simp [lamBodyArity, kindTerm, nodeKind, dupGradFlag]
  all_goals rfl

theorem nodeKind_ctr : (nodeKind t).1 = .ctr ↔ t.tag = .ctr := by
  obtain ⟨sub, tag, ext, val⟩ := t
  cases tag <;> simp [nodeKind]

/-- The kind and the value say what the walk reads. -/
theorem walkCells_eq_of_nodeKind (hkind : nodeKind x = nodeKind y) (hval : x.val = y.val) :
    walkCells cells x = walkCells cells y := by
  have hctr : x.tag = .ctr ↔ y.tag = .ctr := by rw [← nodeKind_ctr, hkind, nodeKind_ctr]
  have harity : lamBodyArity x = lamBodyArity y := by
    rw [lamBodyArity_kindTerm, hkind, ← lamBodyArity_kindTerm]
  simp only [walkCells, hctr, harity, hval]

/-! ### The walk as an exploration -/

/-- The kids of a term on the walk, in the order in which they are popped. -/
def walkKids (cells : ℕ → Term) (lamLoc : ℕ) (t : Term) : List Term :=
  if EndsWalk lamLoc t then [] else ((walkCells cells t).map cells).reverse

/-- Everything that is popped if nothing ends the walk early, unless the tables are too small. -/
def bodyExplore (cells : ℕ → Term) (lamLoc : ℕ) (visited : List ℕ) (stack : List Term) :
    Option (List Term) :=
  Worklist.explore (walkKids cells lamLoc) Term.val lamBodyMaxVisits visited stack

theorem walkKids_of_endsWalk (h : EndsWalk lamLoc t) : walkKids cells lamLoc t = [] := if_pos h

theorem walkKids_eq (h : ¬EndsWalk lamLoc t) :
    walkKids cells lamLoc t = ((walkCells cells t).map cells).reverse := if_neg h

theorem walkKids_isEmpty (h : ¬EndsWalk lamLoc t) :
    (walkKids cells lamLoc t).isEmpty ↔ walkCells cells t = [] := by
  simp [walkKids_eq h]

/-- The walk finds the binder in use if it pops a term that ends it, or gives up. -/
theorem bodyWalk_eq : bodyWalk cells lamLoc visited stack =
    ((bodyExplore cells lamLoc visited stack).map (·.any (EndsWalk lamLoc ·))).getD true := by
  induction visited, stack using bodyWalk.induct cells lamLoc with
  | case1 visited => rw [bodyWalk, bodyExplore, Worklist.explore_nil]; rfl
  | case2 visited t stack hends =>
    rw [bodyWalk, if_pos hends, bodyExplore, Worklist.explore,
      if_pos (Or.inl (by rw [walkKids_of_endsWalk hends]; rfl))]
    cases Worklist.explore (walkKids cells lamLoc) Term.val lamBodyMaxVisits visited stack with
    | none => rfl
    | some popped => simp [hends]
  | case3 visited t stack hends hskip ih =>
    rw [bodyWalk, if_neg hends, if_pos hskip, ih, bodyExplore, bodyExplore, Worklist.explore,
      if_pos (hskip.imp_left (walkKids_isEmpty hends).2)]
    cases Worklist.explore (walkKids cells lamLoc) Term.val lamBodyMaxVisits visited stack with
    | none => rfl
    | some popped => simp [hends]
  | case4 visited t stack hends hskip hfull =>
    rw [bodyWalk, if_neg hends, if_neg hskip, if_pos hfull, bodyExplore, Worklist.explore,
      if_neg (mt (Or.imp_left (walkKids_isEmpty hends).1) hskip), if_pos (Or.inl hfull)]
    rfl
  | case5 visited t stack hends hskip hfull hpush =>
    have hcells : (walkCells cells t).map cells ≠ [] :=
      fun h ↦ hskip (Or.inl (List.map_eq_nil_iff.1 h))
    rw [pushAll_eq _ _ hcells] at hpush
    split_ifs at hpush with hlen
    rw [bodyWalk, if_neg hends, if_neg hskip, if_neg hfull, pushAll_eq _ _ hcells, if_pos hlen,
      bodyExplore, Worklist.explore, if_neg (mt (Or.imp_left (walkKids_isEmpty hends).1) hskip),
      if_pos (Or.inr (by simpa [walkKids_eq hends] using hlen))]
    rfl
  | case6 visited t stack hends hskip hfull stack' hpush ih =>
    have hcells : (walkCells cells t).map cells ≠ [] :=
      fun h ↦ hskip (Or.inl (List.map_eq_nil_iff.1 h))
    rw [pushAll_eq _ _ hcells] at hpush
    split_ifs at hpush with hlen
    obtain rfl := Option.some.inj hpush
    rw [bodyWalk, if_neg hends, if_neg hskip, if_neg hfull, pushAll_eq _ _ hcells, if_neg hlen,
      bodyExplore, Worklist.explore, if_neg (mt (Or.imp_left (walkKids_isEmpty hends).1) hskip),
      if_neg (not_or.2 ⟨hfull, by simpa [walkKids_eq hends] using hlen⟩), walkKids_eq hends]
    simp only [ih, bodyExplore]
    cases Worklist.explore (walkKids cells lamLoc) Term.val lamBodyMaxVisits (t.val :: visited)
      ((List.map cells (walkCells cells t)).reverse ++ stack) with
    | none => rfl
    | some popped => simp [hends]

end Thvm.Net

/-!
## Erasing lambdas

The application rule does not substitute into a lambda that is marked as erasing. This is the same
readback if the binder is not used, but the walk that decides about the mark does not enter every
kind of node.
-/

namespace Thvm.Net

/-- The heap, the inputs of the kernels, the cells of the lambdas, and the shapes that are noted
for some of them. -/
structure World where
  heap : NetHeap
  side : ℕ → List ℕ
  binders : Set ℕ
  shapes : ℕ → Option (List ℕ)

namespace World

/-- `lam_shape_set`. -/
def setShape (w : World) (loc : ℕ) (s : List ℕ) : World :=
  { w with shapes := Function.update w.shapes loc (some s) }

/-- The tree that is read back from a term. -/
def readback (w : World) (n : ℕ) (t : Term) : Option (TermTree ReadHead ReadHead) :=
  Net.readback w.side w.heap.cells n t

def Looks (w : World) (t : Term) (loc : ℕ) : Prop := Net.Looks w.side w.heap.cells t loc

/-- `t` is reached through the cells that terms own. -/
def Reached (w : World) (root t : Term) : Prop :=
  Worklist.Reach (ownTerms w.side w.heap.cells) root t

end World

/-- The shape inference and the compiler of tensor bodies. The shape of a binder that the body
does not look at does not matter, and the compiled body looks at no other binder. -/
structure Jit where
  /-- `term_shape_in`. -/
  shapeIn : World → Term → Option (List ℕ)
  /-- `thvm_materialize`. -/
  materialize : World → Term → World × Term
  setShape_term : ∀ w t s, ∀ loc ∈ w.binders, ¬w.Looks t loc →
    (materialize (w.setShape loc s) t).2 = (materialize w t).2
  setShape_heap : ∀ w t s, ∀ loc ∈ w.binders, ¬w.Looks t loc →
    (materialize (w.setShape loc s) t).1.heap = (materialize w t).1.heap
  setShape_side : ∀ w t s, ∀ loc ∈ w.binders, ¬w.Looks t loc →
    (materialize (w.setShape loc s) t).1.side = (materialize w t).1.side
  looks_binder : ∀ w t, ∀ loc ∈ w.binders, ¬w.Looks t loc →
    ¬(materialize w t).1.Looks (materialize w t).2 loc

/-- `LAM_ERA_MASK` in the extension of a lambda. -/
def lamEraFlag (ext : ℕ) : Bool := ext.testBit 17

/-- A body that is a tensor operation is compiled. -/
def jitBody (jit : Jit) (w : World) (body : Term) : World × Term :=
  if body.tag = .uop ∧ body.ext ≠ Uop.kernel then jit.materialize w body else (w, body)

/-- A binder takes the shape of its argument, if there is one. -/
def noteShape (jit : Jit) (w : World) (loc : ℕ) (arg : Term) : World :=
  match jit.shapeIn w arg with
  | some s => if 0 < s.length then w.setShape loc s else w
  | none => w

def interactAppLam (jit : Jit) (w : World) (lam arg : Term) : World × Term :=
  let loc := lam.val
  let body := w.heap.cells loc
  if lamEraFlag lam.ext then jitBody jit w body
  else
    let (w, body) := jitBody jit (noteShape jit w loc arg) body
    ({ w with heap := w.heap.substVar loc arg }, body)

/-- A lambda with its body in the heap: nodes of different kinds do not share their cells, and the
cell of the binder belongs to the lambda. -/
structure LamBody where
  world : World
  lamLoc : ℕ
  isBinder : lamLoc ∈ world.binders
  fits : lamLoc < 2 ^ 38
  layout : ∀ x y, world.Reached (world.heap.cells lamLoc) x →
    world.Reached (world.heap.cells lamLoc) y →
    ownCells world.side world.heap.cells x ≠ [] → ownCells world.side world.heap.cells y ≠ [] →
    x.val = y.val → nodeKind x = nodeKind y
  owner : ∀ x, world.Reached (world.heap.cells lamLoc) x →
    lamLoc ∈ ownCells world.side world.heap.cells x → x.tag = .var

namespace LamBody

variable (b : LamBody)

def body : Term := b.world.heap.cells b.lamLoc

/-- A variable of the binder is reached from the body. -/
def Used : Prop := ∃ x, b.world.Reached b.body x ∧ x.tag = .var ∧ x.val = b.lamLoc

/-- The lambda with an extension. -/
def lam (ext : ℕ) : Term := termNew false .lam ext b.lamLoc

/-- The extension that the lambda is sealed with. -/
def sealExt (ext : ℕ) : ℕ := lamSealExt b.world.heap.cells b.lamLoc ext

/-- A lambda that the sealing marks as erasing does not use its binder, and an application that
skips the substitution is read back as one that substitutes. -/
def ErasingSound : Prop :=
  ∀ ext, lamEraFlag ext = false → lamEraFlag (b.sealExt ext) = true →
    ¬b.Used ∧ ∀ jit arg n,
      let skipped := interactAppLam jit b.world (b.lam (b.sealExt ext)) arg
      let substituted := interactAppLam jit b.world (b.lam ext) arg
      skipped.1.readback n skipped.2 = substituted.1.readback n substituted.2

/-- A term that ends the walk is reached through the cells that the walk reads. -/
def WalkFinds : Prop :=
  ∃ x, Worklist.Reach (walkKids b.world.heap.cells b.lamLoc) b.body x ∧ EndsWalk b.lamLoc x

/-- The body does not fit the tables of the walk. -/
def Oversize : Prop := bodyExplore b.world.heap.cells b.lamLoc [] [b.body] = none

end LamBody

/-! ### Skipping a substitution -/

section Skipping

variable {w : World} {jit : Jit} {loc : ℕ} {arg t : Term}

/-- Compiling goes the same way, whatever shape a binder has that the body does not look at. -/
theorem jitBody_noteShape (jit : Jit) (arg : Term) (hloc : loc ∈ w.binders)
    (hlooks : ¬w.Looks t loc) :
    (jitBody jit (noteShape jit w loc arg) t).2 = (jitBody jit w t).2 ∧
      (jitBody jit (noteShape jit w loc arg) t).1.heap = (jitBody jit w t).1.heap ∧
      (jitBody jit (noteShape jit w loc arg) t).1.side = (jitBody jit w t).1.side := by
  unfold noteShape
  split
  case h_2 => exact ⟨rfl, rfl, rfl⟩
  case h_1 s _ =>
    split_ifs
    · unfold jitBody
      split_ifs
      · exact ⟨jit.setShape_term w t s loc hloc hlooks, jit.setShape_heap w t s loc hloc hlooks,
          jit.setShape_side w t s loc hloc hlooks⟩
      · exact ⟨rfl, rfl, rfl⟩
    · exact ⟨rfl, rfl, rfl⟩

theorem not_looks_jitBody (jit : Jit) (hloc : loc ∈ w.binders) (hlooks : ¬w.Looks t loc) :
    ¬(jitBody jit w t).1.Looks (jitBody jit w t).2 loc := by
  unfold jitBody
  split_ifs
  · exact jit.looks_binder w t loc hloc hlooks
  · exact hlooks

/-- An erasing lambda is applied like one that substitutes, if its body does not look at the
binder. -/
theorem readback_interactAppLam {era plain : Term} (hera : lamEraFlag era.ext = true)
    (hplain : lamEraFlag plain.ext = false) (hval : era.val = plain.val)
    (hloc : plain.val ∈ w.binders) (hlooks : ¬w.Looks (w.heap.cells plain.val) plain.val) (n : ℕ) :
    (interactAppLam jit w era arg).1.readback n (interactAppLam jit w era arg).2 =
      (interactAppLam jit w plain arg).1.readback n (interactAppLam jit w plain arg).2 := by
  obtain ⟨hterm, hheap, hside⟩ := jitBody_noteShape jit arg hloc hlooks
  have hframe := not_looks_jitBody jit hloc hlooks
  simp only [interactAppLam, hera, hplain, hval, if_true, Bool.false_eq_true, if_false,
    World.readback, hterm, hheap, hside]
  refine (readback_congr (fun c hc ↦ ?_) n).symm
  refine Function.update_of_ne (fun h : c = plain.val ↦ hframe ?_) _ _
  rwa [h] at hc

end Skipping

/-! ### When the mark is right -/

namespace LamBody

variable {b : LamBody} {x y : Term}

theorem walkKids_subset : walkKids b.world.heap.cells b.lamLoc x ⊆
    ownTerms b.world.side b.world.heap.cells x := by
  by_cases hends : EndsWalk b.lamLoc x
  · rw [walkKids_of_endsWalk hends]
    exact List.nil_subset _
  · intro t ht
    rw [walkKids_eq hends, List.mem_reverse] at ht
    exact List.map_subset _ (walkCells_subset fun h ↦ hends (Or.inr (Or.inr (Or.inl h)))) ht

/-- What the walk reaches is reached. -/
theorem reached_of_walk
    (h : Worklist.Reach (walkKids b.world.heap.cells b.lamLoc) b.body x) :
    b.world.Reached b.body x :=
  Relation.ReflTransGen.mono (fun _ _ hkid ↦ walkKids_subset (b := b) hkid) _ _ h

/-- A term that the walk expands does not end it and owns cells. -/
theorem not_endsWalk_of_kids (h : walkKids b.world.heap.cells b.lamLoc x ≠ []) :
    ¬EndsWalk b.lamLoc x :=
  fun hends ↦ h (walkKids_of_endsWalk hends)

theorem ownCells_ne_nil_of_kids (h : walkKids b.world.heap.cells b.lamLoc x ≠ []) :
    ownCells b.world.side b.world.heap.cells x ≠ [] := fun hnil ↦ by
  have hsub := walkKids_subset (b := b) (x := x)
  rw [ownTerms, hnil] at hsub
  exact h (List.subset_nil.1 hsub)

/-- The value of a term identifies its kids on the walk. -/
theorem uniform_walk :
    Worklist.Uniform (walkKids b.world.heap.cells b.lamLoc) Term.val b.body := by
  intro x y hx hy hxkids hykids hval
  have hkind := b.layout x y (reached_of_walk hx) (reached_of_walk hy)
    (ownCells_ne_nil_of_kids hxkids) (ownCells_ne_nil_of_kids hykids) hval
  rw [walkKids_eq (not_endsWalk_of_kids hxkids), walkKids_eq (not_endsWalk_of_kids hykids),
    walkCells_eq_of_nodeKind hkind hval]

/-- The walk finds the binder in use exactly if it reaches a term that ends it, or outgrows its
tables. -/
theorem lamBodyUsesVar_iff :
    lamBodyUsesVar b.world.heap.cells b.lamLoc = true ↔ b.WalkFinds ∨ b.Oversize := by
  have hwalk : lamBodyUsesVar b.world.heap.cells b.lamLoc =
      ((bodyExplore b.world.heap.cells b.lamLoc [] [b.body]).map
        (·.any (EndsWalk b.lamLoc ·))).getD true := bodyWalk_eq
  rw [hwalk]
  cases hpopped : bodyExplore b.world.heap.cells b.lamLoc [] [b.body] with
  | none => exact iff_of_true rfl (Or.inr hpopped)
  | some popped =>
    have hmem := fun x ↦ Worklist.mem_explore_iff (y := x) uniform_walk hpopped
    simp [Oversize, hpopped, WalkFinds, hmem]

/-- A cell of the binder that is looked at is looked at for one of its variables. -/
theorem used_of_looks (h : b.world.Looks b.body b.lamLoc) : b.Used := by
  obtain ⟨x, hx, hmem⟩ := Looks.exists_reach h
  have hvar : x.tag = .var := by
    rcases List.mem_append.1 hmem with hown | hval
    · exact b.owner x hx hown
    · by_contra hne
      rw [if_neg hne] at hval
      exact List.not_mem_nil hval
  exact ⟨x, hx, hvar, ((mem_readCells_var hvar).1 hmem).symm⟩

theorem sealExt_flag {ext : ℕ} (hext : lamEraFlag ext = false) :
    lamEraFlag (b.sealExt ext) = true ↔ ¬(b.WalkFinds ∨ b.Oversize) := by
  rw [← lamBodyUsesVar_iff, sealExt, lamSealExt]
  split_ifs with huses
  · simp [huses, hext]
  · simp [-Nat.reducePow, huses, lamEraFlag, lamEraMask]

theorem lam_ext_flag (ext : ℕ) : lamEraFlag (b.lam ext).ext = lamEraFlag ext := by
  simp [-Nat.reducePow, lam, termNew, lamEraFlag]

theorem lam_val (ext : ℕ) : (b.lam ext).val = b.lamLoc := Nat.mod_eq_of_lt b.fits

/-- The cells of `λx. &(#0){x, #1}`. -/
def dsuCells : ℕ → Term
  | 1 => termNew false .dsu 0 2
  | 2 => termNum 0
  | 3 => termNew false .var 0 1
  | 4 => termNum 1
  | _ => .zero

def dsuWorld : World where
  heap := ⟨dsuCells, 5, 2 ^ 38, le_refl _⟩
  side _ := []
  binders := {1}
  shapes _ := none

theorem reached_dsuBody (h : dsuWorld.Reached (dsuCells 1) x) :
    x ∈ [dsuCells 1, dsuCells 2, dsuCells 3, dsuCells 4] := by
  have hstep : ∀ x ∈ [dsuCells 1, dsuCells 2, dsuCells 3, dsuCells 4],
      ∀ y ∈ ownTerms dsuWorld.side dsuCells x,
        y ∈ [dsuCells 1, dsuCells 2, dsuCells 3, dsuCells 4] := by decide
  induction h with
  | refl => exact List.mem_cons_self
  | tail _ hkid ih => exact hstep _ ih _ hkid

def dsuBody : LamBody where
  world := dsuWorld
  lamLoc := 1
  isBinder := rfl
  fits := by decide
  layout x y hx hy := by
    have hall : ∀ x ∈ [dsuCells 1, dsuCells 2, dsuCells 3, dsuCells 4],
        ∀ y ∈ [dsuCells 1, dsuCells 2, dsuCells 3, dsuCells 4],
        ownCells (fun _ ↦ []) dsuCells x ≠ [] → ownCells (fun _ ↦ []) dsuCells y ≠ [] →
          x.val = y.val → nodeKind x = nodeKind y := by decide
    exact hall x (reached_dsuBody hx) y (reached_dsuBody hy)
  owner x hx := by
    have hall : ∀ x ∈ [dsuCells 1, dsuCells 2, dsuCells 3, dsuCells 4],
        1 ∈ ownCells (fun _ ↦ []) dsuCells x → x.tag = .var := by decide
    exact hall x (reached_dsuBody hx)

end LamBody

end Thvm.Net
