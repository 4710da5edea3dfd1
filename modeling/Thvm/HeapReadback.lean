import Thvm.HeapCollectRuns

/-!
# What is read back after a collection

The tree that is read back from a term does not change by a collection, but for the locations that
name binders.
-/

namespace Thvm.Gc

open CopyingCollection Net

variable {Shape : Type} {h h' : GcHeap Shape} {roots : List Term} {cs : List Copy} {t : Term}
  {cells : ℕ → Term} {n : ℕ}

/-! ## The cells that a term owns -/

deriving instance DecidableEq for Net.UopLayout

theorem gcUopLayout_eq (op : ℕ) :
    gcUopLayout op = ⟨0, 0, 0⟩ ∨ op < 2 ^ 8 ∧ gcUopLayout op = uopLayout op := by
  revert op
  refine forall_opcode ?_ fun _ => ?_
  · decide
  · exact .inl rfl

/-- The count of a node is in the last one of its fixed cells. -/
theorem gcLayout_each (t : Term) : (gcLayout t).each = 0 ∨
    (gcLayout t).fixed = (gcLayout t).pos + 1 ∧
      ((gcLayout t).each = 1 ∨ (gcLayout t).each = 2) := by
  have huop : ∀ op, (gcUopLayout op).each = 0 ∨ (gcUopLayout op).fixed = (gcUopLayout op).pos + 1 ∧
      ((gcUopLayout op).each = 1 ∨ (gcUopLayout op).each = 2) := by
    refine forall_opcode ?_ fun _ => ?_
    · decide
    · exact .inl rfl
  obtain ⟨sub, tag, ext, val⟩ := t
  cases tag
  case uop => exact huop ext
  case dp0 | dp1 | pri =>
    simp only [gcLayout]
    split <;> simp
  all_goals first
    | exact .inl rfl
    | exact .inr ⟨rfl, .inl rfl⟩

/-- The size of a node whose count does not wrap. -/
theorem gcNodeSize_eq (hpos : (gcLayout t).pos < gcNodeSize cells t)
    (hcount : (gcLayout t).each = 2 → countAt cells (t.val + (gcLayout t).pos) < 2 ^ 31) :
    gcNodeSize cells t =
      (gcLayout t).fixed + (gcLayout t).each * countAt cells (t.val + (gcLayout t).pos) := by
  have heach := gcLayout_each t
  rw [gcNodeSize] at hpos ⊢
  by_cases hzero : (gcLayout t).each = 0
  · rw [if_pos hzero, hzero, Nat.zero_mul, Nat.add_zero]
  rw [if_neg hzero] at hpos ⊢
  by_cases hnum : (cells (t.val + (gcLayout t).pos)).tag = .num
  · rw [if_neg (not_not_intro hnum)] at hpos ⊢
    rw [countAt, if_pos hnum] at hcount ⊢
    obtain ⟨hfixed, hone | htwo⟩ := heach.resolve_left hzero
    · have hlt := Nat.mod_lt (cells (t.val + (gcLayout t).pos)).val (Nat.two_pow_pos 32)
      rw [hone, Nat.one_mul] at hpos ⊢
      omega
    · have hlt := hcount htwo
      rw [htwo] at hpos ⊢
      omega
  · rw [if_pos hnum] at hpos
    exact absurd hpos (Nat.not_lt_zero _)

/-- A term that owns the cells of its node: not a variable, which owns a cell only when it has been
substituted, and not a suspension, which is closed. -/
theorem ownCells_node (hl : (termAddr t).isSome) (hvar : t.tag ≠ .var) (halo : t.tag ≠ .alo)
    (hpos : (gcLayout t).pos < gcNodeSize cells t)
    (hcount : (gcLayout t).each = 2 → countAt cells (t.val + (gcLayout t).pos) < 2 ^ 31) :
    Net.ownCells (fun _ => []) cells t = List.range' t.val (gcNodeSize cells t) := by
  have hsize := gcNodeSize_eq hpos hcount
  have hval := val_ne_zero hl
  have hatom := (termAddr_isSome.mp hl).2
  rw [hsize] at hpos ⊢
  obtain ⟨sub, tag, ext, val⟩ := t
  cases tag
  case var => exact absurd rfl hvar
  case alo => exact absurd rfl halo
  case pri =>
    have hne : val ≠ 0 := hval rfl
    simp only [Net.ownCells, gcLayout, if_neg hne, Nat.one_mul, Nat.add_zero]
  case uop =>
    rcases gcUopLayout_eq ext with hzero | ⟨hlt, heq⟩
    · simp [gcLayout, hzero] at hpos
    · have hop : uopOf ⟨sub, .uop, ext, val⟩ = ext := Nat.mod_eq_of_lt hlt
      simp only [Net.ownCells, hop, uopSize, ← heq, gcLayout, ite_self, List.append_nil]
  case dp0 | dp1 =>
    simp only [Net.ownCells, gcLayout]
    split <;> simp
  case ctr => simp only [Net.ownCells, gcLayout, Nat.one_mul, Nat.add_zero]
  case num | ten | ref | era | any | fvr | gcFwd => exact absurd rfl hatom
  case lam | dup | inc | bri | app | sup | op2 | mat | eql | and | or | when | ann =>
    simp [Net.ownCells, gcLayout, List.range']
  all_goals simp [gcLayout] at hpos

/-- An atom owns no cells, and its value is not the location of a binder. -/
theorem ownCells_atom (hatom : gcAtom t) (cells : ℕ → Term) :
    Net.ownCells (fun _ => []) cells t = [] ∧ t.tag ≠ .var ∧ t.tag ≠ .alo := by
  obtain ⟨sub, tag, ext, val⟩ := t
  cases tag
  case pri =>
    have hval : val = 0 := by simpa [gcAtom] using hatom
    exact ⟨if_pos hval, by simp, by simp⟩
  case num | ten | ref | era | any | fvr | gcFwd => exact ⟨rfl, by simp, by simp⟩
  all_goals exact absurd hatom Bool.false_ne_true

/-- A count does not move. -/
theorem countAt_image {m : ℕ → Term} {l d : ℕ} (hcell : m d = termPointers.image cs (cells l)) :
    countAt m d = countAt cells l := by
  rcases image_cases (P := termPointers) cs (cells l) with heq | ⟨e, hsome, heq⟩
  · rw [countAt, countAt, hcell, heq]
  · have hnum : (cells l).tag ≠ .num := fun hnum => by
      refine (termAddr_isSome.mp hsome).2 ?_
      rw [gcAtom, hnum]
    have htag : (m d).tag = (cells l).tag := by
      rw [hcell, heq]
      rfl
    rw [countAt, countAt, if_neg hnum, if_neg (htag ▸ hnum)]

/-! ## The tree that is read back -/

/-- The nodes of a heap that can be read: every term that is live points into the space, no word
is null, and a shape has not more than 2^31 dimensions. -/
structure GcHeap.Readable (h : GcHeap Shape) (roots : List Term) : Prop where
  word : ∀ t, h.Live roots t → t ≠ Term.zero
  inside : ∀ t l, h.Live roots t → termPointers.addr t = some l → h.fromSpace.Has l
  count : ∀ t, h.Live roots t → (gcLayout t).each = 2 →
    countAt h.cells (t.val + (gcLayout t).pos) < 2 ^ 31

/-- The new location of a binder. -/
def moveHead (cs : List Copy) (names : Tag → Bool) (r : ReadHead) : ReadHead :=
  if names r.tag then { r with val := (destination cs r.val).getD r.val } else r

/-- Lambdas and bridges are named by their cell, and so are their variables. A suspension is
closed, and read by the location of its cells. -/
def renamed (cs : List Copy) (tree : TermTree ReadHead ReadHead) : TermTree ReadHead ReadHead :=
  (tree.relabel (moveHead cs fun tag => tag = .lam ∨ tag = .bri)).subst fun r =>
    .leaf (moveHead cs (fun tag => tag = .var ∨ tag = .alo) r)

/-- One layer of the image of a term is the layer of the term, with new names. -/
def LayerMoves (h : GcHeap Shape) (roots : List Term) (h' : GcHeap Shape) (cs : List Copy)
    (t : Term) : Prop :=
  (∀ r, readView (fun _ => []) h.cells t = .leaf r →
    readView (fun _ => []) h'.cells (termPointers.image cs t) =
      .leaf (moveHead cs (fun tag => tag = .var ∨ tag = .alo) r)) ∧
  ∀ r kids, readView (fun _ => []) h.cells t = .node r kids →
    readView (fun _ => []) h'.cells (termPointers.image cs t) =
      .node (moveHead cs (fun tag => tag = .lam ∨ tag = .bri) r)
        (kids.map (termPointers.image cs)) ∧ ∀ b ∈ kids, h.Live roots b

theorem layerMoves_atom (hatom : gcAtom t) : LayerMoves h roots h' cs t := by
  have himage : termPointers.image cs t = t := by
    refine image_of_none (Option.eq_none_iff_forall_not_mem.mpr fun l hl => ?_)
    exact (termAddr_eq_some.mp hl).1.2 hatom
  obtain ⟨-, hvar, halo⟩ := ownCells_atom hatom h.cells
  rw [LayerMoves, himage, readView, if_pos (ownCells_atom hatom h.cells).1, readView,
    if_pos (ownCells_atom hatom h'.cells).1]
  refine ⟨fun r hr => ?_, fun r kids hr => ?_⟩
  · obtain rfl := View.leaf.inj hr
    rw [moveHead, if_neg (by simp [hvar, halo])]
  · cases hr

/-- A live term and the copy of its node. -/
structure Moved (h : GcHeap Shape) (roots : List Term) (h' : GcHeap Shape) (cs : List Copy)
    (t : Term) (c : Copy) : Prop where
  mem : c ∈ cs
  src : c.src = t.val
  tag : (termPointers.image cs t).tag = t.tag
  ext : (termPointers.image cs t).ext = t.ext
  val : (termPointers.image cs t).val = c.dst
  dest : destination cs t.val = some c.dst
  size : gcNodeSize h.cells t = c.size
  pos : (gcLayout t).pos < c.size
  addr : (termAddr (termPointers.image cs t)).isSome
  size_image : gcNodeSize h'.cells (termPointers.image cs t) = c.size
  layout : gcLayout (termPointers.image cs t) = gcLayout t
  live : ∀ i < c.size, h.Live roots (h.cells (t.val + i))
  copied : ∀ i < c.size, h'.cells (c.dst + i) = termPointers.image cs (h.cells (t.val + i))

section Moved

variable {c : Copy} (hm : Moved h roots h' cs t c)
include hm

theorem Moved.head (names : Tag → Bool) (r : ReadHead) (hr : r = ⟨t.tag, t.ext, t.val⟩)
    (hn : names t.tag) : moveHead cs names r = ⟨t.tag, t.ext, c.dst⟩ := by
  rw [hr, moveHead, if_pos hn, hm.dest, Option.getD_some]

/-- A closed term. -/
theorem Moved.leaf (hname : t.tag = .var ∨ t.tag = .alo)
    (hown : Net.ownCells (fun _ => []) h.cells t = [])
    (hown' : Net.ownCells (fun _ => []) h'.cells (termPointers.image cs t) = []) :
    LayerMoves h roots h' cs t := by
  rw [LayerMoves, readView, if_pos hown, readView, if_pos hown', hm.tag, hm.ext, hm.val]
  refine ⟨fun r hr => ?_, fun r kids hr => ?_⟩
  · rw [hm.head _ r (View.leaf.inj hr).symm (decide_eq_true hname)]
  · cases hr

/-- A term that owns the cells of its node. -/
theorem Moved.node (hown : Net.ownCells (fun _ => []) h.cells t = List.range' t.val c.size)
    (hown' : Net.ownCells (fun _ => []) h'.cells (termPointers.image cs t) =
      List.range' c.dst c.size) : LayerMoves h roots h' cs t := by
  have hne : ∀ l, List.range' l c.size ≠ [] := fun l hnil => by
    have hpos := hm.pos
    have hlen := congrArg List.length hnil
    rw [List.length_range', List.length_nil] at hlen
    omega
  rw [LayerMoves, readView, readView, ownTerms, ownTerms, hown, hown', if_neg (hne _),
    if_neg (hne _), hm.tag, hm.ext, hm.val]
  refine ⟨fun r hr => ?_, fun r kids hr => ?_⟩
  · cases hr
  obtain ⟨hhead, rfl⟩ := View.node.inj hr
  refine ⟨?_, fun b hb => ?_⟩
  · have hcells : (List.range' c.dst c.size).map h'.cells =
        ((List.range' t.val c.size).map h.cells).map (termPointers.image cs) := by
      rw [List.range'_eq_map_range, List.range'_eq_map_range, List.map_map, List.map_map,
        List.map_map]
      exact List.map_congr_left fun i hi => hm.copied i (List.mem_range.mp hi)
    rw [hcells]
    congr 1
    by_cases hname : t.tag = .lam ∨ t.tag = .bri
    · rw [if_pos hname]
      rw [if_pos hname] at hhead
      exact (hm.head _ r hhead.symm (decide_eq_true hname)).symm
    · rw [if_neg hname]
      rw [if_neg hname] at hhead
      rw [← hhead, moveHead, if_neg (by simpa using hname)]
  · obtain ⟨l, hl, rfl⟩ := List.mem_map.mp hb
    rw [List.mem_range'_1] at hl
    have hlive := hm.live (l - t.val) (by omega)
    rwa [Nat.add_sub_cancel' hl.1] at hlive

/-- A variable owns its cell once it has been substituted. -/
theorem Moved.var (hvar : t.tag = .var) : LayerMoves h roots h' cs t := by
  have hone : c.size = 1 := by
    rw [← hm.size]
    simp [gcNodeSize, gcLayout, hvar]
  have hcell := hm.copied 0 (by omega)
  rw [Nat.add_zero, Nat.add_zero] at hcell
  have hsub : (h'.cells c.dst).sub = (h.cells t.val).sub := by
    rw [hcell]
    rcases image_cases cs (h.cells t.val) with heq | ⟨e, -, heq⟩
    · rw [heq]
    · rw [heq]
      rfl
  have hown : ∀ cells x, x.tag = .var → Net.ownCells (fun _ => []) cells x =
      if (cells x.val).sub then [x.val] else [] := fun cells x hx => by
    simp only [Net.ownCells, hx]
  have hown' := hown h'.cells _ (hm.tag.trans hvar)
  rw [hm.val, hsub] at hown'
  cases hs : (h.cells t.val).sub with
  | true =>
    refine hm.node ?_ ?_
    · rw [hown _ _ hvar, if_pos hs, hone]
      rfl
    · rw [hown', if_pos hs, hone]
      rfl
  | false =>
    refine hm.leaf (.inl hvar) ?_ ?_
    · rw [hown _ _ hvar, hs]
      rfl
    · rw [hown', hs]
      rfl

end Moved

section Readback

variable (hb : h.Becomes roots h' cs) (hw : h.Whole roots) (hr : h.Readable roots)
  (hkeeps : ∀ t, ∀ c ∈ cs, h.Live roots t → termPointers.addr t = some c.src →
    termPointers.keeps t c.dst)
include hb hw hr hkeeps

theorem GcHeap.Becomes.exists_moved (ht : h.Live roots t) (hl : (termAddr t).isSome) :
    ∃ c, Moved h roots h' cs t c := by
  have haddr : termPointers.addr t = some t.val :=
    termAddr_eq_some.mpr ⟨termAddr_isSome.mp hl, rfl⟩
  have hS := hr.inside t t.val ht haddr
  obtain ⟨c, hc, hsrc, himage, -, haddr', hsize, hsize'⟩ :=
    hb.collected.image_pointer hw.sound hw.spaces hkeeps ht haddr hS
  have hk := hkeeps t c hc ht (hsrc ▸ haddr)
  have hpos := (hw.sound.block t t.val ht haddr hS).1
  refine ⟨c, hc, hsrc, by rw [himage]; rfl, ?_, ?_, ?_, hsize, hsize ▸ hpos, 
    Option.isSome_iff_exists.mpr ⟨_, haddr'⟩, hsize',
    ?_, fun i hi => ?_, fun i hi => ?_⟩
  · rw [himage]
    exact Nat.mod_eq_of_lt hk.1
  · rw [himage]
    exact Nat.mod_eq_of_lt hk.2.1
  · rw [← hsrc]
    exact destination_of_mem hb.collected.nodup hc
  · rw [himage]
    exact gcLayout_repoint hk.2.1 hk.2.2 hk.1 hl
  · exact ht.kid haddr hS (hsize.symm ▸ hi)
  · rw [← hsrc]
    exact hb.collected.copied c hc i hi

theorem GcHeap.Becomes.layerMoves (ht : h.Live roots t) : LayerMoves h roots h' cs t := by
  by_cases hatom : gcAtom t
  · exact layerMoves_atom hatom
  have hl : (termAddr t).isSome := termAddr_isSome.mpr ⟨hr.word t ht, hatom⟩
  obtain ⟨c, hm⟩ := hb.exists_moved hw hr hkeeps ht hl
  by_cases hvar : t.tag = .var
  · exact hm.var hvar
  by_cases halo : t.tag = .alo
  · have hown : ∀ cells x, x.tag = .alo → Net.ownCells (fun _ => []) cells x = [] :=
      fun cells x hx => by simp only [Net.ownCells, hx]
    exact hm.leaf (.inr halo) (hown _ _ halo) (hown _ _ (hm.tag.trans halo))
  have hcount := hr.count t ht
  refine hm.node ?_ ?_
  · rw [ownCells_node hl hvar halo (hm.size ▸ hm.pos) hcount, hm.size]
  · rw [ownCells_node hm.addr (hm.tag ▸ hvar) (hm.tag ▸ halo) ?_ ?_, hm.val, hm.size_image]
    · rw [hm.layout, hm.size_image]
      exact hm.pos
    · rw [hm.layout, hm.val]
      intro heach
      rw [countAt_image (hm.copied _ hm.pos)]
      exact hcount heach

/-- The tree that is read back from a live term is the same after a collection, with the new names
of the binders. -/
theorem GcHeap.Becomes.readback_image (n : ℕ) (ht : h.Live roots t) :
    readback (fun _ => []) h'.cells n (termPointers.image cs t) =
      (readback (fun _ => []) h.cells n t).map (renamed cs) :=
  View.unfold_rename (fun _ r hlive => (hb.layerMoves hw hr hkeeps hlive).1 r)
    (fun _ r kids hlive => (hb.layerMoves hw hr hkeeps hlive).2 r kids) n ht

omit hw hr hkeeps in
/-- Different locations get different names. -/
theorem GcHeap.Becomes.destination_inj {l l' d : ℕ} (hl : destination cs l = some d)
    (hl' : destination cs l' = some d) : l = l' := by
  obtain ⟨c, hc, rfl⟩ := Option.map_eq_some_iff.mp hl
  obtain ⟨c', hc', hdst⟩ := Option.map_eq_some_iff.mp hl'
  have hsrc := List.find?_some hc
  have hsrc' := List.find?_some hc'
  have heq := hb.collected.tiles.start_inj (List.mem_of_find?_eq_some hc')
    (List.mem_of_find?_eq_some hc) hdst
  rw [← of_decide_eq_true hsrc, ← of_decide_eq_true hsrc', heq]

end Readback

theorem readable_identityHeap (shapes : LamShape.LamShapeTable (List ℕ)) :
    (identityHeap shapes).Readable [termNew false .lam 0 0] where
  word t ht := by
    rcases identityHeap_live ht with rfl | rfl <;> decide
  inside t l ht hl := by
    obtain ⟨rfl, -⟩ := identityHeap_node ht hl
    exact ⟨Nat.le_refl 0, Nat.zero_lt_succ 7⟩
  count t ht heach := by
    rcases identityHeap_live ht with rfl | rfl <;> cases heach

end Thvm.Gc
