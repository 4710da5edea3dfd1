import Thvm.LinkedLists
import Thvm.ThreadedTrees

/-!
# Forests threaded in preorder

A walk along the links of a threaded tree stands in front of a list of trees at every
moment: what is left of the tree. A subtree is left by the link behind its last cell.
-/

namespace Thvm

theorem TermTree.Every.imp {L F : Type} {P Q : F → ℕ → Prop} {t : TermTree L F}
    (h : Every P t) (hPQ : ∀ f n, P f n → Q f n) : Every Q t := by
  induction h with
  | leaf l => exact .leaf l
  | node hnode _ ih => exact .node (hPQ _ _ hnode) ih

/-- Induction over the nodes of a list of trees in preorder. -/
@[elab_as_elim]
theorem TermTree.forest_induct {L F : Type} {motive : List (TermTree L F) → Prop}
    (nil : motive []) (leaf : ∀ l ts, motive ts → motive (.leaf l :: ts))
    (node : ∀ f args ts, motive ts → motive (args ++ ts) → motive (.node f args :: ts))
    (ts : List (TermTree L F)) : motive ts := by
  obtain ⟨n, hn⟩ : ∃ n, (ts.map size).sum ≤ n := ⟨_, le_rfl⟩
  induction n generalizing ts with
  | zero =>
    cases ts with
    | nil => exact nil
    | cons t ts =>
      have := t.size_pos
      rw [List.map_cons, List.sum_cons] at hn
      omega
  | succ n ih =>
    cases ts with
    | nil => exact nil
    | cons t ts =>
      have hpos := t.size_pos
      rw [List.map_cons, List.sum_cons] at hn
      have hrest := ih ts (by omega)
      cases t with
      | leaf l => exact leaf l ts hrest
      | node f args =>
        refine node f args ts hrest (ih (args ++ ts) ?_)
        rw [size_node] at hn
        rw [List.map_append, List.sum_append]
        omega

end Thvm

namespace Thvm.ThreadedTrees

open LinkedLists

variable {A D L F B : Type} {k : Coding L F D} {m m' : Memory A D} {U V : Set A} {o : Option A}
  {t : TermTree L F} {ts : List (TermTree L F)} {f : F} {l : L} {args : List (TermTree L F)}
  {as bs rest : List A} {p q : A}

/-- The link of a cell. -/
def link (m : Memory A D) (p : A) : Option A := (m p).bind TreeCell.next

/-- From `o` on the links run through the cells of the trees and then through `rest` to the
end; the cells are among those of `U`. -/
def Forest (k : Coding L F D) (m : Memory A D) (U : Set A) (o : Option A)
    (ts : List (TermTree L F)) (rest : List A) : Prop :=
  ∃ as, Row k m ts as ∧ Path (link m) o (as ++ rest) ∧ (as ++ rest).Nodup ∧
    ∀ q ∈ as ++ rest, q ∈ U

/-- A tree with its first cell at `p`. -/
def Standing (k : Coding L F D) (m : Memory A D) (U : Set A) (p : A) (t : TermTree L F) : Prop :=
  ∃ rest, Forest k m U (some p) [t] rest

theorem shapedArgs_append (h : ShapedArgs k m args as) (h' : ShapedArgs k m ts bs) :
    ShapedArgs k m (args ++ ts) (as ++ bs) := by
  induction args generalizing as with
  | nil =>
    obtain rfl : as = [] := h
    exact h'
  | cons a args ih =>
    obtain ⟨cs, ds, rfl, ha, hargs⟩ := h
    exact ⟨cs, ds ++ bs, List.append_assoc cs ds bs, ha, ih hargs⟩

theorem Row.single (h : Row k m [t] as) : Threaded k m t as := by
  obtain ⟨bs, cs, rfl, ht, hnil⟩ := h.head
  obtain rfl : cs = [] := hnil.shaped
  rwa [List.append_nil]

theorem Threaded.row (h : Threaded k m t as) : Row k m [t] as :=
  ⟨⟨as, [], (List.append_nil as).symm, h.shaped, rfl⟩, h.chain, h.nodup⟩

theorem Forest.congr (h : Forest k m U o ts rest) (hsub : U ⊆ V)
    (hsame : ∀ q ∈ U, m' q = m q) : Forest k m' V o ts rest := by
  obtain ⟨as, hrow, hpath, hnodup, hU⟩ := h
  refine ⟨as, hrow.congr_eq fun q hq => hsame q (hU q (List.mem_append_left _ hq)), ?_, hnodup,
    fun q hq => hsub (hU q hq)⟩
  exact hpath.congr fun q hq => by rw [link, link, hsame q (hU q hq)]

theorem Standing.congr (h : Standing k m U p t) (hsub : U ⊆ V) (hsame : ∀ q ∈ U, m' q = m q) :
    Standing k m' V p t := by
  obtain ⟨rest, h⟩ := h
  exact ⟨rest, h.congr hsub hsame⟩

/-- No tree is left just at the exit. -/
theorem Forest.nil (h : Forest k m U o [] rest) : o = rest.head? := by
  obtain ⟨as, hrow, hpath, -⟩ := h
  obtain rfl : as = [] := hrow.shaped
  exact hpath.head_eq

theorem Forest.cons (h : Forest k m U o (t :: ts) rest) :
    ∃ p c, o = some p ∧ m p = some c ∧ o ≠ rest.head? := by
  obtain ⟨as, hrow, hpath, hnodup, -⟩ := h
  obtain ⟨p, bs, cs, c, e, rfl, -, -, hc, -⟩ := hrow.first
  have ho := hpath.head_eq
  refine ⟨p, c, ho, hc, fun hexit => ?_⟩
  rw [hexit] at ho
  have hp : p ∈ rest := List.mem_of_mem_head? ho
  exact List.disjoint_of_nodup_append hnodup (List.mem_append_left _ List.mem_cons_self) hp

/-- The first tree on its own, and the trees behind it. -/
theorem Forest.skip (h : Forest k m U o (t :: ts) rest) : ∃ p c e rest', o = some p ∧
    m p = some c ∧ m c.fin = some e ∧ Forest k m U (some p) [t] rest' ∧ e.next = rest'.head? ∧
    Forest k m U e.next ts rest := by
  obtain ⟨as, hrow, hpath, hnodup, hU⟩ := h
  obtain ⟨p, bs, cs, c, e, rfl, hfirst, hrest, hc, he, -⟩ := hrow.first
  have ho : o = some p := hpath.head_eq
  rw [List.append_assoc] at hpath hnodup hU
  obtain ⟨_, _, c', heq, hc', hfin⟩ := hfirst.shaped.root
  cases heq
  obtain rfl : c' = c := Option.some.inj (hc'.symm.trans hc)
  have hleave : Path (link m) e.next (cs ++ rest) := by
    have hlast := List.getLast?_eq_some_getLast (List.cons_ne_nil p bs)
    rw [← hfin] at hlast
    have := hpath.leave hlast
    rwa [link, he] at this
  refine ⟨p, c', e, cs ++ rest, ho, hc, he, ⟨p :: bs, hfirst.row, ho ▸ hpath, hnodup, hU⟩,
    hleave.head_eq, cs, hrest, hleave, hnodup.of_append_right, fun q hq => ?_⟩
  exact hU q (List.mem_append_right _ hq)

/-- A step onto the first cell of a tree of one cell. -/
theorem Forest.leaf (h : Forest k m U o (.leaf l :: ts) rest) : ∃ p c, o = some p ∧
    m p = some c ∧ k.leaf l c.data ∧ Forest k m U c.next ts rest := by
  obtain ⟨as, hrow, hpath, hnodup, hU⟩ := h
  obtain ⟨bs, cs, rfl, hfirst, hrest⟩ := hrow.head
  obtain ⟨p, c, rfl, hc, hl, -⟩ := hfirst.shaped
  rw [List.append_assoc] at hpath hnodup hU
  have hnext : link m p = c.next := by rw [link, hc, Option.bind_some]
  refine ⟨p, c, hpath.1, hc, hl, cs, hrest, hnext ▸ hpath.2, hnodup.of_append_right, fun q hq => ?_⟩
  exact hU q (List.mem_append_right _ hq)

/-- A step onto the first cell of a node, in front of its arguments. -/
theorem Forest.node (h : Forest k m U o (.node f args :: ts) rest) : ∃ p c, o = some p ∧
    m p = some c ∧ k.node f args.length c.data ∧ Forest k m U c.next (args ++ ts) rest := by
  obtain ⟨as, hrow, hpath, hnodup, hU⟩ := h
  obtain ⟨bs, cs, rfl, hfirst, hrest⟩ := hrow.head
  obtain ⟨p, c, bs, rfl, hc, hf, -, hargs⟩ := hfirst.shaped
  rw [List.cons_append] at hpath hnodup hU
  have hnext : link m p = c.next := by rw [link, hc, Option.bind_some]
  refine ⟨p, c, hpath.1, hc, hf, bs ++ cs, ⟨shapedArgs_append hargs hrest.shaped, ?_, ?_⟩,
    hnext ▸ hpath.2, (List.nodup_cons.mp hnodup).2, fun q hq => hU q (List.mem_cons_of_mem _ hq)⟩
  · have hchain := hrow.chain
    rw [List.cons_append] at hchain
    exact hchain.tail
  · have hnodup' := hrow.nodup
    rw [List.cons_append] at hnodup'
    exact (List.nodup_cons.mp hnodup').2

theorem Standing.leaf (h : Standing k m U p (.leaf l)) : ∃ c, m p = some c ∧ k.leaf l c.data := by
  obtain ⟨rest, h⟩ := h
  obtain ⟨_, c, ho, hc, hl, -⟩ := h.leaf
  cases ho
  exact ⟨c, hc, hl⟩

/-- The arguments of a node behind its cell. -/
theorem Standing.node (h : Standing k m U p (.node f args)) : ∃ c rest, m p = some c ∧
    k.node f args.length c.data ∧ Forest k m U c.next args rest := by
  obtain ⟨rest, h⟩ := h
  obtain ⟨_, c, ho, hc, hf, hargs⟩ := h.node
  cases ho
  rw [List.append_nil] at hargs
  exact ⟨c, rest, hc, hf, hargs⟩

theorem Standing.threaded (h : Standing k m U p t) :
    ∃ as, Threaded k m t (p :: as) ∧ ∀ q ∈ p :: as, q ∈ U := by
  obtain ⟨rest, as, hrow, hpath, -, hU⟩ := h
  obtain ⟨_, bs, _, rfl, -⟩ := hrow.single.shaped.root
  cases hpath.head_eq
  exact ⟨bs, hrow.single, fun q hq => hU q (List.mem_append_left _ hq)⟩

/-- A tree that is threaded through its cells and has no link out of them. -/
theorem Threaded.standing {e : A} {c : TreeCell A D} (h : Threaded k m t (p :: as))
    (hlast : (p :: as).getLast? = some e) (hc : m e = some c) (hend : c.next = none)
    (hU : ∀ q ∈ p :: as, q ∈ U) : Standing k m U p t := by
  have hpath : ∀ bs : List A, bs.IsChain (Follows m) → bs.getLast? = some e →
      Path (link m) bs.head? bs := by
    intro bs hchain hlast
    induction bs with
    | nil => rfl
    | cons q bs ih =>
      refine ⟨rfl, ?_⟩
      cases bs with
      | nil =>
        obtain rfl : q = e := by simpa using hlast
        change link m q = none
        rw [link, hc, Option.bind_some, hend]
      | cons r bs =>
        obtain ⟨⟨d, hd, hnext⟩, hrest⟩ := List.isChain_cons_cons.mp hchain
        have hlink : link m q = some r := by rw [link, hd, Option.bind_some, hnext]
        rw [hlink]
        exact ih hrest (by rwa [List.getLast?_cons_cons] at hlast)
  refine ⟨[], p :: as, h.row, ?_⟩
  rw [List.append_nil]
  exact ⟨hpath _ h.chain hlast, h.nodup, hU⟩

end Thvm.ThreadedTrees
