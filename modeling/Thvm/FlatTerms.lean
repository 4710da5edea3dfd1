import Mathlib.Data.List.Forall2
import Thvm.LocatedTerms
import Thvm.TermPositions

/-!
# Flat terms

A term as the array of its nodes in preorder. A node knows the span of its subterm, so
that the arguments of a node are found by skipping.
-/

namespace Thvm

/-- `KboFlatNode`: a label or `-(id + 1)` for a variable, the own weight, the span. -/
structure FlatNode where
  sym : ℤ
  w : ℤ
  sz : ℕ
  deriving DecidableEq, Repr, Inhabited

def kboFlatCap : ℕ := 4096

/-- The cast of a `u32` to `i32`. -/
def toI32 (n : ℕ) : ℤ := if n % 2 ^ 32 < 2 ^ 31 then (n % 2 ^ 32 : ℕ) else (n % 2 ^ 32 : ℕ) - 2 ^ 32

theorem toI32_of_lt {n : ℕ} (h : n < 2 ^ 31) : toI32 n = n := by
  have hmod : n % 2 ^ 32 = n := Nat.mod_eq_of_lt (by omega)
  rw [toI32, hmod, if_pos h]

namespace Flat

/-- The weights of the nodes: of a label, and of a variable. -/
structure Weights where
  label : ℕ → ℤ
  var : ℤ

def varSym (id : ℕ) : ℤ := -(id + 1)

mutual

/-- The encoders fill a buffer of `KBO_FLAT_CAP` nodes from `pos` on and fail when it is
full and at a number. -/
def encode (w : Weights) : LTerm → ℕ → Option (List FlatNode)
  | .leaf (.fvr id), pos => if kboFlatCap ≤ pos then none else some [⟨varSym id, w.var, 1⟩]
  | .leaf (.num _ _), _ => none
  | .node c args, pos =>
    if kboFlatCap ≤ pos then none else do
      let kids ← encodeArgs w args (pos + 1)
      some (⟨c.label, w.label c.label, kids.length + 1⟩ :: kids)

def encodeArgs (w : Weights) : List LTerm → ℕ → Option (List FlatNode)
  | [], _ => some []
  | a :: as, pos => do
    let nodes ← encode w a pos
    let rest ← encodeArgs w as (pos + nodes.length)
    some (nodes ++ rest)

end

mutual

/-- The nodes of a term of any size. -/
def flatten (w : Weights) : FTerm → List FlatNode
  | .leaf (.fvr id) => [⟨varSym id, w.var, 1⟩]
  | .leaf (.num _ value) => [⟨value, 0, 1⟩]
  | .node f args => ⟨f, w.label f, (flattenArgs w args).length + 1⟩ :: flattenArgs w args

def flattenArgs (w : Weights) : List FTerm → List FlatNode
  | [] => []
  | a :: as => flatten w a ++ flattenArgs w as

end

/-- The node at a position. -/
def nodeAt (buf : List FlatNode) (pos : ℕ) : FlatNode := buf.getD pos default

/-- The positions from `child` to `fin`, from each node to the one behind its span. -/
def positions (buf : List FlatNode) (fin : ℕ) : ℕ → ℕ → List ℕ
  | 0, _ => []
  | n + 1, child =>
    if child < fin then child :: positions buf fin n (child + (nodeAt buf child).sz) else []

/-- The loop `while (child < end) child += buf[child].sz` from a position on. -/
def siblings (buf : List FlatNode) (fin child : ℕ) : List ℕ := positions buf fin (fin - child) child

/-- The arguments of the node at `pos`. -/
def children (buf : List FlatNode) (pos : ℕ) : List ℕ :=
  siblings buf (pos + (nodeAt buf pos).sz) (pos + 1)

variable {w : Weights} {buf : List FlatNode} {S : ℕ → ℕ → Prop} {f pos : ℕ} {t : FTerm}
  {args : List FTerm}

theorem flattenArgs_eq (args : List FTerm) : flattenArgs w args = args.flatMap (flatten w) := by
  induction args with
  | nil => rfl
  | cons a as ih => rw [flattenArgs, ih, List.flatMap_cons]

theorem flatten_node (f : ℕ) (args : List FTerm) : flatten w (.node f args) =
    ⟨f, w.label f, (flattenArgs w args).length + 1⟩ :: flattenArgs w args := by
  rw [flatten]

@[simp] theorem length_flatten (t : FTerm) : (flatten w t).length = t.size := by
  induction t using TermTree.induct with
  | leaf l => cases l <;> rfl
  | node f args ih =>
    have hargs : (flattenArgs w args).length = (args.map TermTree.size).sum := by
      rw [flattenArgs_eq, List.length_flatMap]
      congr 1
      exact List.map_congr_left ih
    rw [flatten_node, List.length_cons, hargs, TermTree.size_node, Nat.add_comm]

theorem length_flattenArgs (args : List FTerm) :
    (flattenArgs w args).length = (args.map TermTree.size).sum := by
  have hlen := length_flatten (w := w) (.node 0 args)
  rw [flatten_node, List.length_cons, TermTree.size_node] at hlen
  omega

/-- The nodes of `t` stand at `pos`. -/
def At (w : Weights) (buf : List FlatNode) (pos : ℕ) (t : FTerm) : Prop :=
  flatten w t <+: buf.drop pos

theorem At.nodeAt_eq {node : FlatNode} {rest : List FlatNode} (h : At w buf pos t)
    (ht : flatten w t = node :: rest) : nodeAt buf pos = node := by
  obtain ⟨tail, htail⟩ := h
  rw [ht, List.cons_append] at htail
  have hget : buf[pos]? = some node := by
    rw [← List.head?_drop, ← htail, List.head?_cons]
  rw [nodeAt, List.getD_eq_getElem?_getD, hget, Option.getD_some]

theorem At.of_node (h : At w buf pos (.node f args)) :
    nodeAt buf pos = ⟨f, w.label f, (args.map TermTree.size).sum + 1⟩ := by
  rw [h.nodeAt_eq (flatten_node f args), length_flattenArgs]

theorem At.of_fvr {id : ℕ} (h : At w buf pos (.fvr id)) : nodeAt buf pos = ⟨varSym id, w.var, 1⟩ :=
  h.nodeAt_eq rfl

theorem At.sz (h : At w buf pos t) : (nodeAt buf pos).sz = t.size := by
  cases t with
  | leaf l =>
    cases l with
    | fvr id => rw [h.of_fvr, TermTree.size_leaf]
    | num dtype value => rw [h.nodeAt_eq rfl, TermTree.size_leaf]
  | node f args =>
    rw [h.of_node, TermTree.size_node, Nat.add_comm]

theorem At.behind (h : At w buf pos (.node f args)) :
    flattenArgs w args <+: buf.drop (pos + 1) := by
  obtain ⟨tail, htail⟩ := h
  rw [flatten_node, List.cons_append] at htail
  refine ⟨tail, ?_⟩
  rw [← List.drop_drop, ← htail, List.drop_one, List.tail_cons]

/-- Stepping from node to node visits the arguments. -/
theorem positions_at {child fin n : ℕ} (h : flattenArgs w args <+: buf.drop child)
    (hfin : fin = child + (flattenArgs w args).length) (hn : fin - child ≤ n) :
    List.Forall₂ (At w buf) (positions buf fin n child) args := by
  induction args generalizing child n with
  | nil =>
    rw [flattenArgs, List.length_nil] at hfin
    cases n with
    | zero => exact .nil
    | succ n =>
      rw [positions, if_neg (by omega)]
      exact .nil
  | cons a as ih =>
    have hsize := TermTree.size_pos a
    rw [flattenArgs, List.length_append, length_flatten] at hfin
    obtain ⟨tail, htail⟩ := h
    rw [flattenArgs, List.append_assoc] at htail
    have hat : At w buf child a := ⟨_, htail⟩
    cases n with
    | zero => omega
    | succ n =>
      rw [positions, if_pos (by omega), hat.sz]
      refine .cons hat (ih ⟨tail, ?_⟩ (by omega) (by omega))
      rw [← List.drop_drop, ← htail, ← length_flatten (w := w) a, List.drop_left]

theorem At.children (h : At w buf pos (.node f args)) :
    List.Forall₂ (At w buf) (children buf pos) args := by
  apply positions_at h.behind _ le_rfl
  rw [h.sz, TermTree.size_node, length_flattenArgs, Nat.add_assoc]

/-- The comparison of symbols behind the first nodes of two slices of `n` nodes. -/
def symsMatch (a b : List FlatNode) (n : ℕ) : Bool :=
  (List.range (n - 1)).all fun j => (nodeAt a (j + 1)).sym = (nodeAt b (j + 1)).sym

/-- The slice of the subterm at a position. -/
def slice (buf : List FlatNode) (pos : ℕ) : List FlatNode :=
  (buf.drop pos).take (nodeAt buf pos).sz

theorem At.slice_eq (h : At w buf pos t) : slice buf pos = flatten w t := by
  rw [slice, h.sz, ← length_flatten (w := w) t]
  exact List.prefix_iff_eq_take.mp h |>.symm

theorem at_zero (w : Weights) (t : FTerm) : At w (flatten w t) 0 t := List.prefix_refl _

theorem at_append_left {a : FTerm} {as : List FTerm} {i : ℕ} (h : At w (flatten w a) i t)
    (hi : i < a.size) : At w (flattenArgs w (a :: as)) i t := by
  rw [At, flattenArgs, List.drop_append_of_le_length (by rw [length_flatten]; omega)]
  exact h.trans (List.prefix_append _ _)

theorem at_append_right {a : FTerm} {as : List FTerm} {i : ℕ} (h : At w (flattenArgs w as) i t) :
    At w (flattenArgs w (a :: as)) (a.size + i) t := by
  rw [At, flattenArgs, List.drop_append, length_flatten, Nat.add_sub_cancel_left,
    List.drop_eq_nil_of_le (by rw [length_flatten]; omega), List.nil_append]
  exact h

theorem exists_sub_args {i : ℕ} (h : ∀ a ∈ args, ∀ i < a.size, ∃ p u,
    TermTree.sub a p = some u ∧ At w (flatten w a) i u)
    (hi : i < (args.map TermTree.size).sum) : ∃ (k : ℕ) (p : List ℕ) (a u : FTerm),
      args[k]? = some a ∧ a.sub p = some u ∧ At w (flattenArgs w args) i u := by
  induction args generalizing i with
  | nil => exact absurd hi (Nat.not_lt_zero i)
  | cons a as ih =>
    rw [List.map_cons, List.sum_cons] at hi
    by_cases hia : i < a.size
    · obtain ⟨p, u, hp, hu⟩ := h a List.mem_cons_self i hia
      exact ⟨0, p, a, u, rfl, hp, at_append_left hu hia⟩
    · obtain ⟨j, rfl⟩ := Nat.exists_eq_add_of_le (Nat.le_of_not_lt hia)
      obtain ⟨k, p, b, u, hk, hp, hu⟩ := ih (fun b hb => h b (List.mem_cons_of_mem a hb))
        (by omega : j < _)
      exact ⟨k + 1, p, b, u, hk, hp, at_append_right hu⟩

/-- Every node of the array starts a subterm, the first one the term itself. -/
theorem exists_sub {i : ℕ} (hi : i < t.size) :
    ∃ p u, t.sub p = some u ∧ At w (flatten w t) i u ∧ (p = [] → i = 0) := by
  induction t using TermTree.induct generalizing i with
  | leaf l =>
    obtain rfl : i = 0 := Nat.lt_one_iff.mp hi
    exact ⟨[], _, TermTree.sub_nil _, at_zero w _, fun _ => rfl⟩
  | node f args ih =>
    cases i with
    | zero => exact ⟨[], _, TermTree.sub_nil _, at_zero w _, fun _ => rfl⟩
    | succ i =>
      rw [TermTree.size_node] at hi
      have hih : ∀ a ∈ args, ∀ i < a.size, ∃ p u,
          TermTree.sub a p = some u ∧ At w (flatten w a) i u := by
        intro a ha i hi
        obtain ⟨p, u, hp, hu, -⟩ := ih a ha hi
        exact ⟨p, u, hp, hu⟩
      obtain ⟨k, p, a, u, hk, hp, hu⟩ := exists_sub_args hih (by omega : i < _)
      refine ⟨k :: p, u, TermTree.sub_cons.mpr ⟨f, args, a, rfl, hk, hp⟩, ?_, nofun⟩
      rw [At, flatten_node, List.drop_succ_cons]
      exact hu

/-- Every subterm has its nodes in the array. -/
theorem exists_at {p : List ℕ} {u : FTerm} (h : t.sub p = some u) :
    ∃ i < t.size, At w (flatten w t) i u := by
  induction t using TermTree.induct generalizing p with
  | leaf l =>
    cases p with
    | nil =>
      obtain rfl := Option.some.inj h
      exact ⟨0, Nat.one_pos, at_zero w _⟩
    | cons i p => cases h
  | node f args ih =>
    cases p with
    | nil =>
      obtain rfl : TermTree.node f args = u := by simpa using h
      exact ⟨0, TermTree.size_pos _, at_zero w _⟩
    | cons k p =>
      obtain ⟨_, _, a, heq, hk, hp⟩ := TermTree.sub_cons.mp h
      obtain ⟨rfl, rfl⟩ := TermTree.node.inj heq
      obtain ⟨i, hi, hat⟩ := ih a (List.mem_of_getElem? hk) hp
      have hargs : ∃ j < (args.map TermTree.size).sum, At w (flattenArgs w args) j u := by
        clear ih h heq
        induction args generalizing k with
        | nil => cases hk
        | cons b bs ihb =>
          rw [List.map_cons, List.sum_cons]
          cases k with
          | zero =>
            obtain rfl := Option.some.inj hk
            exact ⟨i, by omega, at_append_left hat hi⟩
          | succ k =>
            obtain ⟨j, hj, hat'⟩ := ihb k hk
            exact ⟨b.size + j, by omega, at_append_right hat'⟩
      obtain ⟨j, hj, hat'⟩ := hargs
      refine ⟨j + 1, by rw [TermTree.size_node]; omega, ?_⟩
      rw [At, flatten_node, List.drop_succ_cons]
      exact hat'

/-- The symbols of a term in preorder. -/
def syms (w : Weights) (t : FTerm) : List ℤ := (flatten w t).map FlatNode.sym

def symsArgs (w : Weights) (args : List FTerm) : List ℤ := (flattenArgs w args).map FlatNode.sym

theorem syms_node (f : ℕ) (args : List FTerm) :
    syms w (.node f args) = (f : ℤ) :: symsArgs w args := by
  rw [syms, flatten_node, List.map_cons, symsArgs]

theorem symsArgs_cons (a : FTerm) (as : List FTerm) :
    symsArgs w (a :: as) = syms w a ++ symsArgs w as := by
  rw [symsArgs, flattenArgs, List.map_append, syms, symsArgs]

theorem varSym_neg (id : ℕ) : varSym id < 0 := by
  unfold varSym
  omega

theorem varSym_inj {id id' : ℕ} (h : varSym id = varSym id') : id = id' := by
  unfold varSym at h
  omega

theorem varSym_id (id : ℕ) : (-varSym id - 1).toNat = id := by
  unfold varSym
  omega

/-- A symbol has one number of arguments. -/
def FixedArity (S : ℕ → ℕ → Prop) : Prop := ∀ f n m, S f n → S f m → n = m

theorem symsArgs_inj {as bs : List FTerm} {r r' : List ℤ} (hlen : as.length = bs.length)
    (h : ∀ a ∈ as, ∀ b ∈ bs, ∀ {r r'}, syms w a ++ r = syms w b ++ r' → a = b ∧ r = r')
    (heq : symsArgs w as ++ r = symsArgs w bs ++ r') : as = bs ∧ r = r' := by
  induction as generalizing bs with
  | nil =>
    obtain rfl := List.length_eq_zero_iff.mp hlen.symm
    exact ⟨rfl, heq⟩
  | cons a as ih =>
    cases bs with
    | nil => cases hlen
    | cons b bs =>
      rw [symsArgs_cons, symsArgs_cons, List.append_assoc, List.append_assoc] at heq
      obtain ⟨rfl, htail⟩ := h a List.mem_cons_self b List.mem_cons_self heq
      obtain ⟨rfl, hr⟩ := ih (Nat.succ.inj hlen)
        (fun a' ha' b' hb' => h a' (List.mem_cons_of_mem _ ha') b' (List.mem_cons_of_mem _ hb')) htail
      exact ⟨rfl, hr⟩

/-- Over symbols of fixed arity the preorder determines the term. -/
theorem syms_inj (hfix : FixedArity S) {s : FTerm} {r r' : List ℤ} (hs : s.Over S) (ht : t.Over S)
    (h : syms w s ++ r = syms w t ++ r') : s = t ∧ r = r' := by
  induction s using TermTree.induct generalizing t r r' with
  | leaf l =>
    obtain ⟨x, rfl⟩ := hs.leaf
    cases t with
    | leaf l' =>
      obtain ⟨y, rfl⟩ := ht.leaf
      obtain ⟨hxy, hr⟩ := List.cons.inj h
      rw [varSym_inj hxy]
      exact ⟨rfl, hr⟩
    | node g bs =>
      rw [syms_node] at h
      have hneg := varSym_neg x
      have hsym : varSym x = g := (List.cons.inj h).1
      omega
  | node f as ih =>
    cases t with
    | leaf l' =>
      obtain ⟨y, rfl⟩ := ht.leaf
      rw [syms_node] at h
      have hneg := varSym_neg y
      have hsym : (f : ℤ) = varSym y := (List.cons.inj h).1
      omega
    | node g bs =>
      rw [syms_node, syms_node, List.cons_append, List.cons_append] at h
      obtain ⟨hfg, hargs⟩ := List.cons.inj h
      obtain rfl : f = g := Int.ofNat.inj hfg
      have hlen := hfix f _ _ hs.root ht.root
      obtain ⟨rfl, hr⟩ := symsArgs_inj hlen
        (fun a ha b hb {r r'} hab => ih a ha (hs.arg ha) (ht.arg hb) hab) hargs
      exact ⟨rfl, hr⟩

theorem At.unique (hfix : FixedArity S) {s : FTerm} (hs : s.Over S) (ht : t.Over S)
    (h : At w buf pos s) (h' : At w buf pos t) : s = t := by
  obtain ⟨r, hr⟩ := h
  obtain ⟨r', hr'⟩ := h'
  have heq := congrArg (List.map FlatNode.sym) (hr.trans hr'.symm)
  rw [List.map_append, List.map_append] at heq
  exact (syms_inj hfix hs ht heq).1

theorem nodeAt_eq_nodeAt {as : List FlatNode} {i : ℕ} (h : flatten w t <+: as) (hi : i < t.size) :
    nodeAt as i = nodeAt (flatten w t) i := by
  have hget := List.prefix_iff_getElem?.mp h i (by rwa [length_flatten])
  rw [nodeAt, nodeAt, List.getD_eq_getElem?_getD, List.getD_eq_getElem?_getD, hget,
    List.getElem?_eq_getElem]

theorem syms_getElem {i : ℕ} (hi : i < (syms w t).length) :
    (syms w t)[i] = (nodeAt (flatten w t) i).sym := by
  rw [syms, List.length_map] at hi
  simp only [syms, List.getElem_map, nodeAt, List.getD_eq_getElem?_getD,
    List.getElem?_eq_getElem hi, Option.getD_some]

/-- Equal spans and equal symbols make equal terms. -/
theorem eq_of_symsMatch (hfix : FixedArity S) {s : FTerm} (hs : s.Over S) (ht : t.Over S)
    {as bs : List FlatNode} (has : flatten w s <+: as) (hbs : flatten w t <+: bs)
    (hhead : (nodeAt as 0).sym = (nodeAt bs 0).sym) (hsize : s.size = t.size)
    (h : symsMatch as bs t.size = true) : s = t := by
  have hnodes : ∀ i < t.size, (nodeAt (flatten w s) i).sym = (nodeAt (flatten w t) i).sym := by
    intro i hi
    rw [← nodeAt_eq_nodeAt has (hsize ▸ hi), ← nodeAt_eq_nodeAt hbs hi]
    cases i with
    | zero => exact hhead
    | succ i =>
      have hall := List.all_eq_true.mp h i (List.mem_range.mpr (by omega))
      exact of_decide_eq_true hall
  have hsyms : syms w s = syms w t := by
    apply List.ext_getElem
    · rw [syms, syms, List.length_map, List.length_map, length_flatten, length_flatten, hsize]
    · intro i hi hi'
      rw [syms_getElem, syms_getElem]
      rw [syms, List.length_map, length_flatten] at hi'
      exact hnodes i hi'
  have happend : syms w s ++ [] = syms w t ++ [] := by rw [hsyms]
  exact (syms_inj hfix hs ht happend).1

theorem symsMatch_refl {as bs : List FlatNode} (has : flatten w t <+: as) (hbs : flatten w t <+: bs) :
    symsMatch as bs t.size = true := by
  rw [symsMatch, List.all_eq_true]
  intro j hj
  have hlt : j + 1 < t.size := by
    have := List.mem_range.mp hj
    omega
  simp only [nodeAt_eq_nodeAt has hlt, nodeAt_eq_nodeAt hbs hlt, decide_true]

theorem encodeArgs_eq {as : List LTerm} (h : ∀ a ∈ as, ∀ {pos}, pos + a.size ≤ kboFlatCap →
    encode w a pos = some (flatten w (LTerm.erase a)))
    (hpos : pos + (as.map TermTree.size).sum ≤ kboFlatCap) :
    encodeArgs w as pos = some (flattenArgs w (as.map LTerm.erase)) := by
  induction as generalizing pos with
  | nil => rfl
  | cons a as ih =>
    rw [List.map_cons, List.sum_cons] at hpos
    have hhead := h a List.mem_cons_self (by omega : pos + a.size ≤ kboFlatCap)
    have hlen : (flatten w (LTerm.erase a)).length = a.size := by
      rw [length_flatten, LTerm.size_erase]
    rw [encodeArgs, hhead, Option.bind_eq_bind, Option.bind_some, hlen,
      ih (fun b hb => h b (List.mem_cons_of_mem a hb)) (by omega)]
    rfl

/-- The encoder does not fail on a term that fits and has no numbers. -/
theorem encode_eq {l : LTerm} (hleaves : ∀ x ∈ l.leaves, ∃ id, x = .fvr id)
    (hpos : pos + l.size ≤ kboFlatCap) : encode w l pos = some (flatten w l.erase) := by
  induction l using TermTree.induct generalizing pos with
  | leaf x =>
    obtain ⟨id, rfl⟩ := hleaves x (List.mem_singleton_self x)
    rw [TermTree.size_leaf] at hpos
    rw [encode, if_neg (by omega)]
    rfl
  | node c as ih =>
    rw [TermTree.size_node] at hpos
    have hargs := encodeArgs_eq (w := w)
      (fun a ha {pos} hfit => ih a ha (fun x hx => hleaves x (TermTree.mem_leaves_node.mpr ⟨a, ha, hx⟩))
        hfit) (by omega : pos + 1 + (as.map TermTree.size).sum ≤ kboFlatCap)
    rw [encode, if_neg (by omega), hargs, LTerm.erase_node, flatten_node]
    rfl

theorem encodeArgs_some {as : List LTerm} {nodes : List FlatNode}
    (h : ∀ a ∈ as, ∀ {pos nodes}, encode w a pos = some nodes → nodes = flatten w (LTerm.erase a))
    (hargs : encodeArgs w as pos = some nodes) : nodes = flattenArgs w (as.map LTerm.erase) := by
  induction as generalizing pos nodes with
  | nil =>
    cases hargs
    rfl
  | cons a as ih =>
    rw [encodeArgs] at hargs
    obtain ⟨x, hx, hrest⟩ := Option.bind_eq_some_iff.mp hargs
    obtain ⟨y, hy, hnodes⟩ := Option.bind_eq_some_iff.mp hrest
    cases hnodes
    rw [h a List.mem_cons_self hx, ih (fun b hb => h b (List.mem_cons_of_mem a hb)) hy]
    rfl

theorem encode_some {l : LTerm} {nodes : List FlatNode} (h : encode w l pos = some nodes) :
    nodes = flatten w l.erase := by
  induction l using TermTree.induct generalizing pos nodes with
  | leaf x =>
    cases x with
    | fvr id =>
      rw [encode] at h
      split at h
      · cases h
      · cases h
        rfl
    | num dtype value => cases h
  | node c as ih =>
    rw [encode] at h
    split at h
    · cases h
    · obtain ⟨kids, hkids, hnodes⟩ := Option.bind_eq_some_iff.mp h
      cases hnodes
      rw [encodeArgs_some (fun a ha {pos nodes} => ih a ha) hkids, LTerm.erase_node, flatten_node]

end Flat

end Thvm
