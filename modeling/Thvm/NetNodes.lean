import Thvm.Terms
import Thvm.ViewTrees
import Thvm.WorklistWalks

/-!
# The heap of the net

The dynamic heap as the interaction rules use it: cells, a bump allocator, and substitutions,
which are cells with the substitution bit set.
-/

namespace Thvm

/-- Locations fit the value field of a term. -/
structure NetHeap where
  cells : ℕ → Term
  next : ℕ
  cap : ℕ
  cap_le : cap ≤ 2 ^ 38

namespace NetHeap

variable (h : NetHeap)

def set (loc : ℕ) (t : Term) : NetHeap := { h with cells := Function.update h.cells loc t }

/-- `heap_alloc`. -/
def alloc (size : ℕ) : Except Halt (NetHeap × ℕ) :=
  if h.cap < h.next + size then .error .fatal
  else .ok ({ h with next := h.next + size }, h.next)

/-- `heap_subst_var`. -/
def substVar (loc : ℕ) (t : Term) : NetHeap := h.set loc { t with sub := true }

/-- `heap_subst_cop`: the inactive side is substituted, the active one returned. -/
def substCop (side : Bool) (loc : ℕ) (r0 r1 : Term) : NetHeap × Term :=
  (h.substVar loc (if side then r0 else r1), if side then r1 else r0)

variable {h}

@[simp] theorem set_next (loc : ℕ) (t : Term) : (h.set loc t).next = h.next := rfl

@[simp] theorem set_cap (loc : ℕ) (t : Term) : (h.set loc t).cap = h.cap := rfl

@[simp] theorem set_cells (loc : ℕ) (t : Term) :
    (h.set loc t).cells = Function.update h.cells loc t := rfl

/-- An allocation that succeeds leaves the cells as they are and stays in the heap. -/
theorem alloc_ok {size loc : ℕ} {h' : NetHeap} (hok : h.alloc size = .ok (h', loc)) :
    loc = h.next ∧ h'.cells = h.cells ∧ h'.next = h.next + size ∧ h'.cap = h.cap ∧
      loc + size ≤ 2 ^ 38 := by
  unfold alloc at hok
  split_ifs at hok with hroom
  obtain ⟨rfl, rfl⟩ := Prod.mk.inj (Except.ok.inj hok)
  have hcap := h.cap_le
  exact ⟨rfl, rfl, rfl, rfl, by omega⟩

end NetHeap

end Thvm

/-!
## The nodes of the net

Which cells a term owns, and the tree that is read back from a term.
-/

namespace Thvm.Net

/-- The opcode of a tensor operation, as a byte of the extension. -/
def uopOf (t : Term) : ℕ := t.ext % 2 ^ 8

/-- The count in a number cell. -/
def countAt (cells : ℕ → Term) (loc : ℕ) : ℕ :=
  if (cells loc).tag = .num then (cells loc).val % 2 ^ 32 else 0

/-- The cells of an operation: a fixed number, and as many times `each` more as the cell at
`pos` says. -/
structure UopLayout where
  fixed : ℕ
  pos : ℕ := 0
  each : ℕ := 0

def uopLayout : ℕ → UopLayout
  | Uop.const | Uop.neg | Uop.recip | Uop.exp2 | Uop.log2 | Uop.sqrt | Uop.load | Uop.detach
  | Uop.invalid => ⟨1, 0, 0⟩
  | Uop.kernel | Uop.assign | Uop.copy | Uop.add | Uop.mul | Uop.cmplt | Uop.cmpeq | Uop.cast
  | Uop.bitcast | Uop.indexE | Uop.after | Uop.range | Uop.flip | Uop.placeholder
  | Uop.iadd | Uop.isub | Uop.imul | Uop.idiv | Uop.imod | Uop.ilt | Uop.iand | Uop.ior
  | Uop.ixor | Uop.ishr => ⟨2, 0, 0⟩
  | Uop.iwhere | Uop.store | Uop.opt => ⟨3, 0, 0⟩
  | Uop.reduce | Uop.buffer => ⟨3, 2, 1⟩
  | Uop.bufferize => ⟨4, 3, 1⟩
  | Uop.reshape | Uop.expand | Uop.permute | Uop.vconst | Uop.gep => ⟨2, 1, 1⟩
  | Uop.pad | Uop.shrink | Uop.unroll | Uop.contract => ⟨2, 1, 2⟩
  | Uop.stack | Uop.end' => ⟨1, 0, 1⟩
  | _ => ⟨0, 0, 0⟩

/-- The number of cells of a tensor operation. -/
def uopSize (cells : ℕ → Term) (op loc : ℕ) : ℕ :=
  (uopLayout op).fixed + (uopLayout op).each * countAt cells (loc + (uopLayout op).pos)

/-- The cells that a term owns, and for a substituted variable the cell of the substitution.
References and suspensions are closed. The inputs of a kernel are in a side table, by its location;
they are taken as cells outside of the heap. -/
def ownCells (side : ℕ → List ℕ) (cells : ℕ → Term) (t : Term) : List ℕ :=
  match t.tag with
  | .lam | .dup | .inc | .bri | .bj0 | .bj1 => [t.val]
  | .var => if (cells t.val).sub then [t.val] else []
  | .dp0 | .dp1 => List.range' t.val (if dupGradFlag t.ext then 3 else 1)
  | .app | .sup | .op2 | .mat | .eql | .and | .or | .when | .ann => [t.val, t.val + 1]
  | .dsu | .ddu => [t.val, t.val + 1, t.val + 2]
  | .ctr => List.range' t.val (1 + countAt cells t.val)
  | .pri => if t.val = 0 then [] else List.range' t.val (1 + countAt cells t.val)
  | .uop => List.range' t.val (uopSize cells (uopOf t) t.val) ++
      if uopOf t = Uop.kernel then side t.val else []
  | _ => []

/-- The kind of a node. Nodes of one kind have the same cells for the same value. -/
def nodeKind (t : Term) : Tag × ℕ :=
  match t.tag with
  | .dup => (.dp0, 0)
  | .dp0 | .dp1 => (.dp0, if dupGradFlag t.ext then 1 else 0)
  | .uop => (.uop, uopOf t)
  | tag => (tag, 0)

/-- The terms in the cells that a term owns. -/
def ownTerms (side : ℕ → List ℕ) (cells : ℕ → Term) (t : Term) : List Term :=
  (ownCells side cells t).map cells

/-- A location leads to the cells of the term in it. -/
def ownKids (side : ℕ → List ℕ) (cells : ℕ → Term) (loc : ℕ) : List ℕ :=
  ownCells side cells (cells loc)

/-- The cells that are read to see one layer of a term. -/
def readCells (side : ℕ → List ℕ) (cells : ℕ → Term) (t : Term) : List ℕ :=
  ownCells side cells t ++ if t.tag = .var then [t.val] else []

/-- The word at a node of the tree that is read back: its tag and extension, and the value where
it names a binder or where no cells are owned. -/
structure ReadHead where
  tag : Tag
  ext : ℕ
  val : ℕ
  deriving DecidableEq, Repr

/-- One layer of the tree that is read back. -/
def readView (side : ℕ → List ℕ) (cells : ℕ → Term) (t : Term) :
    View ReadHead ReadHead Term :=
  if ownCells side cells t = [] then .leaf ⟨t.tag, t.ext, t.val⟩
  else .node ⟨t.tag, t.ext, if t.tag = .lam ∨ t.tag = .bri then t.val else 0⟩
    (ownTerms side cells t)

/-- The tree that is read back from a term, if it has at most `n` layers. A substituted variable
is a node over what was substituted. -/
def readback (side : ℕ → List ℕ) (cells : ℕ → Term) (n : ℕ) (t : Term) :
    Option (TermTree ReadHead ReadHead) :=
  View.unfold (readView side cells) n t

variable {side : ℕ → List ℕ} {cells cells' : ℕ → Term} {t : Term} {loc : ℕ}

theorem countAt_congr (h : cells' loc = cells loc) : countAt cells' loc = countAt cells loc := by
  rw [countAt, countAt, h]

/-- The opcodes are below 64. Above that there is one case. -/
theorem forall_opcode {P : ℕ → Prop} (hsmall : ∀ op < 64, P op) (hlarge : ∀ n, P (n + 64))
    (op : ℕ) : P op := by
  rcases Nat.lt_or_ge op 64 with hlt | hge
  · exact hsmall op hlt
  · obtain ⟨n, rfl⟩ := Nat.exists_eq_add_of_le' hge
    exact hlarge n

/-- The count of an operation is among its own cells. -/
theorem uopLayout_pos (op : ℕ) :
    (uopLayout op).each = 0 ∨ (uopLayout op).pos < (uopLayout op).fixed := by
  revert op
  refine forall_opcode ?_ fun _ => ?_
  · decide
  · exact .inl rfl

/-- A row of cells with a count in the first one. -/
theorem mem_counted (val : ℕ) : val ∈ List.range' val (1 + countAt cells val) :=
  List.mem_range'_1.2 ⟨le_refl _, by omega⟩

/-- What a term owns depends on the counts in its cells, and for a variable on whether it has been
substituted. -/
theorem ownCells_eq (hcount : ∀ c ∈ ownCells side cells t, countAt cells' c = countAt cells c)
    (hsub : t.tag = .var → (cells' t.val).sub = (cells t.val).sub) :
    ownCells side cells' t = ownCells side cells t := by
  obtain ⟨sub, tag, ext, val⟩ := t
  cases tag
  case var =>
    have hval : (cells' val).sub = (cells val).sub := hsub rfl
    simp only [ownCells, hval]
  case ctr =>
    have hval : countAt cells' val = countAt cells val := hcount val (mem_counted val)
    simp only [ownCells, hval]
  case pri =>
    simp only [ownCells] at hcount ⊢
    split_ifs at hcount ⊢
    · rfl
    · rw [hcount val (mem_counted val)]
  case uop =>
    have hsize : uopSize cells' (uopOf ⟨sub, .uop, ext, val⟩) val =
        uopSize cells (uopOf ⟨sub, .uop, ext, val⟩) val := by
      rcases uopLayout_pos (uopOf ⟨sub, .uop, ext, val⟩) with heach | hpos
      · simp [uopSize, heach]
      · rw [uopSize, uopSize, hcount _ (List.mem_append_left _ (List.mem_range'_1.2
          ⟨Nat.le_add_right _ _, Nat.add_lt_add_left (hpos.trans_le (Nat.le_add_right _ _)) _⟩))]
    simp only [ownCells, hsize]
  all_goals rfl

/-- What a term owns depends on the cells that are read. -/
theorem ownCells_congr (h : ∀ c ∈ readCells side cells t, cells' c = cells c) :
    ownCells side cells' t = ownCells side cells t := by
  refine ownCells_eq (fun c hc ↦ countAt_congr (h c (List.mem_append_left _ hc))) fun hvar ↦ ?_
  rw [h t.val (List.mem_append_right _ (by simp [hvar]))]

/-- A variable reads the cell that it names, and no other one. -/
theorem mem_readCells_var (h : t.tag = .var) : loc ∈ readCells side cells t ↔ loc = t.val := by
  obtain ⟨sub, tag, ext, val⟩ := t
  obtain rfl : tag = .var := h
  simp only [readCells, ownCells]
  split_ifs <;> simp

/-- One layer of a term depends on the cells that are read for it. -/
theorem readView_congr (h : ∀ c ∈ readCells side cells t, cells' c = cells c) :
    readView side cells' t = readView side cells t := by
  have hterms : ownTerms side cells' t = ownTerms side cells t := by
    rw [ownTerms, ownTerms, ownCells_congr h]
    exact List.map_congr_left fun c hc ↦ h c (List.mem_append_left _ hc)
  simp only [readView, ownCells_congr h, hterms]

/-- The readback of a term looks at a cell. -/
def Looks (side : ℕ → List ℕ) (cells : ℕ → Term) (t : Term) (loc : ℕ) : Prop :=
  View.Shows (readView side cells) (readCells side cells) t loc

/-- Cells that a readback does not look at do not matter for it. -/
theorem readback_congr (h : ∀ c, Looks side cells t c → cells' c = cells c) (n : ℕ) :
    readback side cells' n t = readback side cells n t :=
  View.unfold_eq (fun _ ↦ readView_congr) h

/-- What a readback looks at is read for a term that is reached through cells. -/
theorem Looks.exists_reach (h : Looks side cells t loc) :
    ∃ x, Worklist.Reach (ownTerms side cells) t x ∧ loc ∈ readCells side cells x := by
  induction h with
  | here hc => exact ⟨_, .refl, hc⟩
  | @kid a a' f kids c hview hkid _ ih =>
    obtain ⟨x, hx, hc⟩ := ih
    by_cases hown : ownCells side cells a = []
    · rw [readView, if_pos hown] at hview
      cases hview
    · rw [readView, if_neg hown] at hview
      obtain ⟨-, rfl⟩ := View.node.inj hview
      exact ⟨x, .head hkid hx, hc⟩

end Thvm.Net
