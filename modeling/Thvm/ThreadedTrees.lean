import Mathlib.Data.List.Chain
import Mathlib.Data.List.Nodup
import Thvm.TermTrees

/-!
# Trees threaded in preorder

A tree stands in cells that are linked in preorder; the cell of a subtree also points to
the last cell of the subtree. The next argument of a node is found behind the end of the
one before.
-/

namespace Thvm.ThreadedTrees

structure TreeCell (A D : Type) where
  next : Option A
  fin : A
  data : D
  deriving DecidableEq, Repr

abbrev Memory (A D : Type) := A → Option (TreeCell A D)

/-- Which data stand for a leaf and for a node with a number of arguments. -/
structure Coding (L F D : Type) where
  leaf : L → D → Prop
  node : F → ℕ → D → Prop

variable {A D L F B : Type} {k : Coding L F D} {m m' : Memory A D} {t : TermTree L F} {f : F}
  {args : List (TermTree L F)} {as bs cs : List A} {p q : A}

mutual

/-- The cells of the tree are these, in preorder; the links are left open. -/
def Shaped (k : Coding L F D) (m : Memory A D) : TermTree L F → List A → Prop
  | .leaf l, as => ∃ p c, as = [p] ∧ m p = some c ∧ k.leaf l c.data ∧ c.fin = p
  | .node f args, as => ∃ p c rest, as = p :: rest ∧ m p = some c ∧
      k.node f args.length c.data ∧ c.fin = (p :: rest).getLast (List.cons_ne_nil p rest) ∧
      ShapedArgs k m args rest

def ShapedArgs (k : Coding L F D) (m : Memory A D) : List (TermTree L F) → List A → Prop
  | [], as => as = []
  | t :: ts, as => ∃ bs cs, as = bs ++ cs ∧ Shaped k m t bs ∧ ShapedArgs k m ts cs

end

mutual

/-- The heads of the subtrees in preorder, the ones of nodes with their numbers of arguments. -/
def heads : TermTree L F → List (L ⊕ F × ℕ)
  | .leaf l => [.inl l]
  | .node f args => .inr (f, args.length) :: headsArgs args

def headsArgs : List (TermTree L F) → List (L ⊕ F × ℕ)
  | [] => []
  | t :: ts => heads t ++ headsArgs ts

end

def Coding.head (k : Coding L F D) : L ⊕ F × ℕ → D → Prop
  | .inl l => k.leaf l
  | .inr (f, n) => k.node f n

def Follows (m : Memory A D) (p q : A) : Prop := ∃ c, m p = some c ∧ c.next = some q

/-- The tree stands in these cells. -/
structure Threaded (k : Coding L F D) (m : Memory A D) (t : TermTree L F) (as : List A) : Prop where
  shaped : Shaped k m t as
  chain : as.IsChain (Follows m)
  nodup : as.Nodup

/-- The arguments of a node stand one behind the other in these cells. -/
structure Row (k : Coding L F D) (m : Memory A D) (args : List (TermTree L F)) (as : List A) :
    Prop where
  shaped : ShapedArgs k m args as
  chain : as.IsChain (Follows m)
  nodup : as.Nodup

theorem Shaped.ne_nil (h : Shaped k m t as) : as ≠ [] := by
  cases t with
  | leaf l =>
    obtain ⟨p, c, rfl, -⟩ := h
    exact List.cons_ne_nil p []
  | node f args =>
    obtain ⟨p, c, rest, rfl, -⟩ := h
    exact List.cons_ne_nil p rest

/-- The first cell of a tree points to its last one. -/
theorem Shaped.root (h : Shaped k m t as) : ∃ p rest c, as = p :: rest ∧ m p = some c ∧
    c.fin = (p :: rest).getLast (List.cons_ne_nil p rest) := by
  cases t with
  | leaf l =>
    obtain ⟨p, c, rfl, hc, -, hfin⟩ := h
    exact ⟨p, [], c, rfl, hc, hfin⟩
  | node f args =>
    obtain ⟨p, c, rest, rfl, hc, -, hfin, -⟩ := h
    exact ⟨p, rest, c, rfl, hc, hfin⟩

theorem Shaped.length_eq (h : Shaped k m t as) : as.length = t.size := by
  induction t using TermTree.induct generalizing as with
  | leaf l =>
    obtain ⟨p, c, rfl, -⟩ := h
    rfl
  | node f args ih =>
    obtain ⟨p, c, rest, rfl, -, -, -, hargs⟩ := h
    rw [List.length_cons, TermTree.size_node, Nat.add_comm]
    congr 1
    clear f
    induction args generalizing rest with
    | nil =>
      obtain rfl : rest = [] := hargs
      rfl
    | cons a args iha =>
      obtain ⟨bs, cs, rfl, ha, hargs⟩ := hargs
      rw [List.length_append, List.map_cons, List.sum_cons, ih a List.mem_cons_self ha,
        iha (fun b hb => ih b (List.mem_cons_of_mem a hb)) cs hargs]

/-- The cells hold the heads of the subtrees. -/
theorem Shaped.heads (h : Shaped k m t as) :
    List.Forall₂ (fun p e => ∃ c, m p = some c ∧ k.head e c.data) as (heads t) := by
  induction t using TermTree.induct generalizing as with
  | leaf l =>
    obtain ⟨p, c, rfl, hc, hl, -⟩ := h
    exact .cons ⟨c, hc, hl⟩ .nil
  | node f args ih =>
    obtain ⟨p, c, rest, rfl, hc, hf, -, hargs⟩ := h
    refine .cons ⟨c, hc, hf⟩ ?_
    clear hf hc
    induction args generalizing rest with
    | nil =>
      obtain rfl : rest = [] := hargs
      exact .nil
    | cons a args iha =>
      obtain ⟨bs, cs, rfl, ha, hargs⟩ := hargs
      exact List.rel_append (ih a List.mem_cons_self ha)
        (iha (fun b hb => ih b (List.mem_cons_of_mem a hb)) cs hargs)

theorem Shaped.mapped (h : Shaped k m t as) (hp : p ∈ as) : ∃ c, m p = some c := by
  obtain ⟨i, hi, rfl⟩ := List.getElem_of_mem hp
  have hhead := List.forall₂_iff_get.mp h.heads
  obtain ⟨c, hc, -⟩ := hhead.2 i hi (hhead.1 ▸ hi)
  exact ⟨c, hc⟩

/-- The heads in preorder determine the tree. -/
theorem heads_append {s : TermTree L F} {xs ys : List (L ⊕ F × ℕ)}
    (h : heads s ++ xs = heads t ++ ys) : s = t ∧ xs = ys := by
  induction s using TermTree.induct generalizing t xs ys with
  | leaf l =>
    cases t with
    | leaf l' =>
      obtain ⟨hl, rfl⟩ := List.cons.inj h
      cases hl
      exact ⟨rfl, rfl⟩
    | node f args => cases (List.cons.inj h).1
  | node f args ih =>
    cases t with
    | leaf l => cases (List.cons.inj h).1
    | node g bs =>
      obtain ⟨hhead, htail⟩ := List.cons.inj h
      obtain ⟨rfl, hlen⟩ : f = g ∧ args.length = bs.length := by simpa using hhead
      suffices hargs : args = bs ∧ xs = ys by rw [hargs.1, hargs.2]; exact ⟨rfl, rfl⟩
      clear h hhead
      change headsArgs args ++ xs = headsArgs bs ++ ys at htail
      induction args generalizing bs with
      | nil =>
        obtain rfl := List.length_eq_zero_iff.mp hlen.symm
        exact ⟨rfl, htail⟩
      | cons a args iha =>
        cases bs with
        | nil => cases hlen
        | cons b bs =>
          rw [headsArgs, headsArgs, List.append_assoc, List.append_assoc] at htail
          obtain ⟨rfl, hrest⟩ := ih a List.mem_cons_self htail
          obtain ⟨rfl, rfl⟩ := iha (fun b hb => ih b (List.mem_cons_of_mem a hb)) bs
            (Nat.succ.inj hlen) hrest
          exact ⟨rfl, rfl⟩

/-- Data and ends of the cells are kept. -/
def SameShape (m m' : Memory A D) (as : List A) : Prop :=
  ∀ p ∈ as, ∀ c, m p = some c → ∃ c', m' p = some c' ∧ c'.data = c.data ∧ c'.fin = c.fin

theorem SameShape.subset (h : SameShape m m' as) (hsub : bs ⊆ as) : SameShape m m' bs :=
  fun p hp => h p (hsub hp)

theorem SameShape.of_eq (h : ∀ p ∈ as, m' p = m p) : SameShape m m' as :=
  fun p hp c hc => ⟨c, (h p hp).trans hc, rfl, rfl⟩

theorem Shaped.congr (h : Shaped k m t as) (hsame : SameShape m m' as) : Shaped k m' t as := by
  induction t using TermTree.induct generalizing as with
  | leaf l =>
    obtain ⟨p, c, rfl, hc, hl, hfin⟩ := h
    obtain ⟨c', hc', hdata, hend⟩ := hsame p List.mem_cons_self c hc
    exact ⟨p, c', rfl, hc', hdata ▸ hl, hend.trans hfin⟩
  | node f args ih =>
    obtain ⟨p, c, rest, rfl, hc, hf, hfin, hargs⟩ := h
    obtain ⟨c', hc', hdata, hend⟩ := hsame p List.mem_cons_self c hc
    refine ⟨p, c', rest, rfl, hc', hdata ▸ hf, hend.trans hfin, ?_⟩
    have hrest := hsame.subset (List.subset_cons_self p rest)
    clear hfin hsame hf hc hdata hend hc'
    induction args generalizing rest with
    | nil => exact hargs
    | cons a args iha =>
      obtain ⟨bs, cs, rfl, ha, hargs⟩ := hargs
      refine ⟨bs, cs, rfl, ih a List.mem_cons_self ha ?_, ?_⟩
      · exact hrest.subset (List.subset_append_left bs cs)
      · exact iha (fun b hb => ih b (List.mem_cons_of_mem a hb)) cs hargs
          (hrest.subset (List.subset_append_right bs cs))

theorem ShapedArgs.congr (h : ShapedArgs k m args as) (hsame : SameShape m m' as) :
    ShapedArgs k m' args as := by
  induction args generalizing as with
  | nil => exact h
  | cons a args ih =>
    obtain ⟨bs, cs, rfl, ha, hargs⟩ := h
    exact ⟨bs, cs, rfl, ha.congr (hsame.subset (List.subset_append_left bs cs)),
      ih hargs (hsame.subset (List.subset_append_right bs cs))⟩

theorem chain_congr (h : as.IsChain (Follows m))
    (hnext : ∀ p ∈ as.dropLast, ∀ q, Follows m p q → Follows m' p q) :
    as.IsChain (Follows m') := by
  rw [List.isChain_iff_getElem] at h ⊢
  intro i hi
  have hmem : as[i] ∈ as.dropLast := by
    have hlen : i < as.dropLast.length := by
      rw [List.length_dropLast]
      omega
    rw [← List.getElem_dropLast hlen]
    exact List.getElem_mem hlen
  exact hnext _ hmem _ (h i hi)

/-- A tree depends on its own cells only, and not on the link of the last one. -/
theorem Threaded.congr (h : Threaded k m t as) (hsame : SameShape m m' as)
    (hnext : ∀ p ∈ as.dropLast, ∀ q, Follows m p q → Follows m' p q) : Threaded k m' t as where
  shaped := h.shaped.congr hsame
  chain := chain_congr h.chain hnext
  nodup := h.nodup

theorem Threaded.congr_eq (h : Threaded k m t as) (hsame : ∀ p ∈ as, m' p = m p) :
    Threaded k m' t as := by
  refine h.congr (.of_eq hsame) ?_
  rintro p hp q ⟨c, hc, hq⟩
  exact ⟨c, (hsame p (List.dropLast_subset as hp)).trans hc, hq⟩

theorem Threaded.ne_nil (h : Threaded k m t as) : as ≠ [] := h.shaped.ne_nil

theorem Row.head (h : Row k m (t :: args) as) : ∃ bs cs, as = bs ++ cs ∧ Threaded k m t bs ∧
    Row k m args cs := by
  obtain ⟨bs, cs, rfl, ht, hargs⟩ := h.shaped
  exact ⟨bs, cs, rfl, ⟨ht, h.chain.left_of_append, h.nodup.of_append_left⟩,
    hargs, h.chain.right_of_append, h.nodup.of_append_right⟩

/-- The arguments stand behind the cell of their node. -/
theorem Threaded.arguments (h : Threaded k m (.node f args) as) : ∃ p c rest, as = p :: rest ∧
    m p = some c ∧ k.node f args.length c.data ∧ (∀ q ∈ rest.head?, c.next = some q) ∧
    Row k m args rest := by
  obtain ⟨p, c, rest, rfl, hc, hf, -, hargs⟩ := h.shaped
  refine ⟨p, c, rest, rfl, hc, hf, ?_, hargs, h.chain.tail, (List.nodup_cons.mp h.nodup).2⟩
  intro q hq
  obtain ⟨c', hc', hnext⟩ := h.chain.rel_head? hq
  obtain rfl : c' = c := Option.some.inj (hc'.symm.trans hc)
  exact hnext

theorem Row.congr_eq (h : Row k m args as) (hsame : ∀ p ∈ as, m' p = m p) : Row k m' args as where
  shaped := h.shaped.congr (.of_eq hsame)
  chain := by
    refine chain_congr h.chain ?_
    rintro p hp q ⟨c, hc, hq⟩
    exact ⟨c, (hsame p (List.dropLast_subset as hp)).trans hc, hq⟩
  nodup := h.nodup

/-- A cell in front of its arguments. -/
theorem Row.node {c : TreeCell A D} (h : Row k m args as) (hp : p ∉ as) (hc : m p = some c)
    (hf : k.node f args.length c.data)
    (hfin : c.fin = (p :: as).getLast (List.cons_ne_nil p as))
    (hnext : ∀ q ∈ as.head?, c.next = some q) : Threaded k m (.node f args) (p :: as) where
  shaped := ⟨p, c, as, rfl, hc, hf, hfin, h.shaped⟩
  chain := List.isChain_cons.mpr ⟨fun q hq => ⟨c, hc, hnext q hq⟩, h.chain⟩
  nodup := List.nodup_cons.mpr ⟨hp, h.nodup⟩

theorem notMem_dropLast {e : A} (h : as.Nodup) (he : as.getLast? = some e) : e ∉ as.dropLast := by
  obtain ⟨init, rfl⟩ := List.getLast?_eq_some_iff.mp he
  rw [List.dropLast_concat]
  intro hmem
  exact List.disjoint_of_nodup_append h hmem List.mem_cons_self

theorem ShapedArgs.head? (h : ShapedArgs k m (t :: args) as) : ∃ p, as.head? = some p := by
  obtain ⟨bs, cs, rfl, ht, -⟩ := h
  obtain ⟨p, rest, c, rfl, -⟩ := ht.root
  exact ⟨p, rfl⟩

/-- The loop over the arguments of a node from the first one on, each found behind the end of
the one before. -/
def mapArgs (m : Memory A D) (g : A → Option B) : ℕ → Option A → Option (List B)
  | 0, _ => some []
  | n + 1, child => do
    let p ← child
    let b ← g p
    let c ← m p
    let e ← m c.fin
    let bs ← mapArgs m g n e.next
    some (b :: bs)

/-- The first argument of a row, and the link from its end to the next one. -/
theorem Row.first (h : Row k m (t :: args) as) : ∃ p rest cs c e, as = p :: rest ++ cs ∧
    Threaded k m t (p :: rest) ∧ Row k m args cs ∧ m p = some c ∧ m c.fin = some e ∧
    ∀ q ∈ cs.head?, e.next = some q := by
  obtain ⟨bs, cs, rfl, ht, hrow⟩ := h.head
  obtain ⟨p, rest, c, rfl, hc, hfin⟩ := ht.shaped.root
  cases cs with
  | nil =>
    obtain ⟨e, he⟩ := ht.shaped.mapped (List.getLast_mem (List.cons_ne_nil p rest))
    exact ⟨p, rest, [], c, e, rfl, ht, hrow, hc, hfin ▸ he, fun q hq => by cases hq⟩
  | cons q cs =>
    obtain ⟨e, he, hnext⟩ := h.chain.rel_getLast_head_of_append (List.cons_ne_nil p rest)
      (List.cons_ne_nil q cs)
    refine ⟨p, rest, q :: cs, c, e, rfl, ht, hrow, hc, hfin ▸ he, ?_⟩
    intro q' hq'
    cases hq'
    exact hnext

/-- The loop handles each argument once. -/
theorem Row.mapArgs {g : A → Option B} {v : TermTree L F → B} (h : Row k m args as)
    (hg : ∀ a ∈ args, ∀ p rest, Threaded k m a (p :: rest) → g p = some (v a)) {child : Option A}
    (hchild : ∀ q ∈ as.head?, child = some q) :
    mapArgs m g args.length child = some (args.map v) := by
  induction args generalizing as child with
  | nil => rfl
  | cons a args ih =>
    obtain ⟨p, rest, cs, c, e, rfl, ha, hrow, hc, he, hnext⟩ := h.first
    have hp := hchild p rfl
    have hrest := ih hrow (fun b hb => hg b (List.mem_cons_of_mem a hb)) hnext
    rw [List.length_cons, ThreadedTrees.mapArgs, hp]
    simp only [Option.bind_eq_bind, Option.bind_some, hg a List.mem_cons_self p rest ha, hc, he,
      hrest, List.map_cons]

theorem shapedArgs_concat (h : ShapedArgs k m args as) (ht : Shaped k m t bs) :
    ShapedArgs k m (args ++ [t]) (as ++ bs) := by
  induction args generalizing as with
  | nil =>
    obtain rfl : as = [] := h
    exact ⟨bs, [], (List.append_nil bs).symm, ht, rfl⟩
  | cons a args ih =>
    obtain ⟨cs, ds, rfl, ha, hargs⟩ := h
    exact ⟨cs, ds ++ bs, List.append_assoc cs ds bs, ha, ih hargs⟩

theorem ShapedArgs.mapped (h : ShapedArgs k m args as) (hp : p ∈ as) : ∃ c, m p = some c := by
  induction args generalizing as with
  | nil =>
    obtain rfl : as = [] := h
    cases hp
  | cons a args ih =>
    obtain ⟨bs, cs, rfl, ha, hargs⟩ := h
    rcases List.mem_append.mp hp with hp | hp
    · exact ha.mapped hp
    · exact ih hargs hp

variable [DecidableEq A]

/-- Another link in the cell at `p`. -/
def setNext (m : Memory A D) (p : A) (n : Option A) : Memory A D :=
  fun q => if q = p then (m q).map fun c => { c with next := n } else m q

theorem setNext_self {c : TreeCell A D} {n : Option A} (h : m p = some c) :
    setNext m p n p = some { c with next := n } := by
  rw [setNext, if_pos rfl, h, Option.map_some]

theorem setNext_of_ne {n : Option A} (h : q ≠ p) : setNext m p n q = m q := if_neg h

theorem sameShape_setNext (m : Memory A D) (p : A) (n : Option A) (as : List A) :
    SameShape m (setNext m p n) as := by
  intro q _ c hc
  by_cases hq : q = p
  · subst hq
    exact ⟨_, setNext_self hc, rfl, rfl⟩
  · exact ⟨c, (setNext_of_ne hq).trans hc, rfl, rfl⟩

theorem follows_setNext {r : A} {n : Option A} (h : Follows m q r) (hne : q ≠ p) :
    Follows (setNext m p n) q r := by
  obtain ⟨c, hc, hnext⟩ := h
  exact ⟨c, (setNext_of_ne hne).trans hc, hnext⟩

theorem Threaded.relink {n : Option A} (h : Threaded k m t as) (hp : p ∉ as.dropLast) :
    Threaded k (setNext m p n) t as :=
  h.congr (sameShape_setNext m p n as) fun _ hq _ hr =>
    follows_setNext hr fun he => hp (he ▸ hq)

theorem Row.relink {n : Option A} (h : Row k m args as) (hp : p ∉ as.dropLast) :
    Row k (setNext m p n) args as where
  shaped := h.shaped.congr (sameShape_setNext m p n as)
  chain := chain_congr h.chain fun _ hq _ hr => follows_setNext hr fun he => hp (he ▸ hq)
  nodup := h.nodup

/-- The last cell of one row is linked to the first of a tree. -/
theorem Row.link {e : A} (h : Row k m args (as ++ [e])) (ht : Threaded k m t (p :: bs))
    (hnodup : (as ++ [e] ++ p :: bs).Nodup) :
    Row k (setNext m e (some p)) (args ++ [t]) (as ++ [e] ++ p :: bs) := by
  obtain ⟨c, hc⟩ := h.shaped.mapped (List.mem_append_right as List.mem_cons_self)
  have hne : e ∉ p :: bs := fun he =>
    (List.disjoint_of_nodup_append hnodup) (List.mem_append_right as List.mem_cons_self) he
  have hlast : e ∉ (as ++ [e]).dropLast := by
    rw [List.dropLast_concat]
    intro he
    exact (List.disjoint_of_nodup_append hnodup.of_append_left) he List.mem_cons_self
  have hrow := h.relink (n := some p) hlast
  have htree := ht.relink (n := some p) (p := e) fun he => hne (List.dropLast_subset _ he)
  refine ⟨shapedArgs_concat hrow.shaped htree.shaped, ?_, hnodup⟩
  refine hrow.chain.append htree.chain ?_
  intro x hx y hy
  rw [List.getLast?_concat] at hx
  cases hx
  cases hy
  exact ⟨_, setNext_self hc, rfl⟩

/-- The loop that links the remaining arguments of a node behind the last cell `e` of the ones
before; `acc` gathers from their first cells. -/
def stitch {G : Type} (g : G → D → G) (m : Memory A D) (e : A) (acc : G) :
    List A → Option (Memory A D × A × G)
  | [] => some (m, e, acc)
  | q :: qs => do
    let _ ← m e
    let m := setNext m e (some q)
    let c ← m q
    stitch g m c.fin (g acc c.data) qs

/-- What the links of the loop change: those of the cells in `lasts`. -/
structure Stitched (k : Coding L F D) (m m' : Memory A D) (args : List (TermTree L F))
    (as lasts : List A) (e' : A) : Prop where
  row : Row k m' args as
  fin : as.getLast? = some e'
  last : e' ∈ lasts
  shape : ∀ cs, SameShape m m' cs
  outside : ∀ q, q ∉ lasts → m' q = m q

theorem forall₂_relink {ass : List (List A)} {n : Option A}
    (h : List.Forall₂ (Threaded k m) args ass) (hp : p ∉ ass.flatten) :
    List.Forall₂ (Threaded k (setNext m p n)) args ass := by
  induction h with
  | nil => exact .nil
  | cons ht _ ih =>
    rw [List.flatten_cons, List.mem_append, not_or] at hp
    exact .cons (ht.relink fun hmem => hp.1 (List.dropLast_subset _ hmem)) (ih hp.2)

theorem stitch_spec {G : Type} (g : G → D → G) (acc : G) {done pending : List (TermTree L F)}
    {as : List A} {e : A} {ass : List (List A)} (hdone : Row k m done (as ++ [e]))
    (hpending : List.Forall₂ (Threaded k m) pending ass)
    (hnodup : (as ++ [e] ++ ass.flatten).Nodup) : ∃ m' e' acc',
      stitch g m e acc (ass.filterMap List.head?) = some (m', e', acc') ∧
        Stitched k m m' (done ++ pending) (as ++ [e] ++ ass.flatten)
          (e :: ass.filterMap List.getLast?) e' := by
  induction pending generalizing m done as e acc ass with
  | nil =>
    cases hpending
    refine ⟨m, e, acc, rfl, ?_⟩
    simp only [List.append_nil, List.flatten_nil]
    exact ⟨hdone, List.getLast?_concat, List.mem_singleton_self e,
      fun cs => .of_eq fun _ _ => rfl, fun _ _ => rfl⟩
  | cons t pending ih =>
    obtain _ | ⟨ht, hpending⟩ := hpending
    rename_i bs ass
    obtain ⟨q, rest, c, rfl, hc, hfin⟩ := ht.shaped.root
    have hsplit := List.dropLast_append_getLast (List.cons_ne_nil q rest)
    have hlast := List.getLast?_eq_some_getLast (List.cons_ne_nil q rest)
    rw [← hfin] at hsplit hlast
    rw [List.flatten_cons, ← List.append_assoc] at hnodup
    obtain ⟨d, hd⟩ := hdone.shaped.mapped (List.mem_append_right as List.mem_cons_self)
    have he : ∀ x ∈ q :: rest, x ≠ e := by
      rintro x hx rfl
      exact List.disjoint_of_nodup_append hnodup.of_append_left
        (List.mem_append_right as List.mem_cons_self) hx
    have hlink := hdone.link ht hnodup.of_append_left
    rw [← hsplit, ← List.append_assoc] at hlink hnodup
    have hrest : List.Forall₂ (Threaded k (setNext m e (some q))) pending ass := by
      refine forall₂_relink hpending fun hmem => ?_
      have hmem' : e ∈ as ++ [e] ++ (q :: rest).dropLast ++ [c.fin] := by simp
      exact List.disjoint_of_nodup_append hnodup hmem' hmem
    obtain ⟨m', e', acc', hrun, hout⟩ := ih (g acc c.data) hlink hrest hnodup
    refine ⟨m', e', acc', ?_, ?_⟩
    · rw [List.filterMap_cons, List.head?_cons, stitch, hd, Option.bind_eq_bind, Option.bind_some]
      dsimp only
      rw [setNext_of_ne (he q List.mem_cons_self), hc, Option.bind_some]
      exact hrun
    · have hlist : as ++ [e] ++ ((q :: rest) :: ass).flatten =
          as ++ [e] ++ (q :: rest).dropLast ++ [c.fin] ++ ass.flatten := by
        rw [List.flatten_cons, ← List.append_assoc, List.append_assoc _ _ [c.fin], hsplit]
      have hargs : done ++ t :: pending = done ++ [t] ++ pending := by simp
      rw [hlist, hargs, List.filterMap_cons, hlast]
      refine ⟨hout.row, hout.fin, List.mem_cons_of_mem e hout.last, fun cs x hx d hd => ?_,
        fun x hx => ?_⟩
      · obtain ⟨d₁, hd₁, hdata₁, hfin₁⟩ := sameShape_setNext m e (some q) cs x hx d hd
        obtain ⟨d₂, hd₂, hdata₂, hfin₂⟩ := hout.shape cs x hx d₁ hd₁
        exact ⟨d₂, hd₂, hdata₂.trans hdata₁, hfin₂.trans hfin₁⟩
      · rw [List.mem_cons, not_or] at hx
        rw [hout.outside x hx.2, setNext_of_ne hx.1]

end Thvm.ThreadedTrees
