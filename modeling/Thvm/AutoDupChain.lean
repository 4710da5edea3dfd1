import Thvm.AutoDup

/-!
# What the collector finds

The collector explores the body by its cells. In a body whose nodes do not share their cells it
finds every occurrence of the binder that it can reach, once.
-/

namespace Thvm.Net

section Loop

variable {cells : ℕ → Term} {lamLoc maxCount : ℕ} {visited found stack locs : List ℕ}

/-- The cells that the collector goes on to from a cell. -/
def collectKids (cells : ℕ → Term) (lamLoc loc : ℕ) : List ℕ :=
  if Occ lamLoc (cells loc) ∨ Closed (cells loc) ∨ IsKernel (cells loc) then []
  else walkCells cells (cells loc)

/-- What the collector pops if nothing makes it give up. -/
def collectExplore (cells : ℕ → Term) (lamLoc : ℕ) (visited stack : List ℕ) :
    Option (List ℕ) :=
  Worklist.explore (collectKids cells lamLoc) (fun loc ↦ (cells loc).val) lamBodyMaxVisits visited
    stack

theorem collectExplore_stop {loc : ℕ} (h : collectKids cells lamLoc loc = []) :
    collectExplore cells lamLoc visited (loc :: stack) =
      (collectExplore cells lamLoc visited stack).map (loc :: ·) := by
  rw [collectExplore, Worklist.explore, if_pos (Or.inl (by rw [h]; rfl))]
  rfl

/-- A collector that does not give up has popped no kernel, and found the occurrences among the
cells that it popped. -/
theorem collectLoop_some
    (h : collectLoop cells lamLoc maxCount visited found stack = some locs) :
    ∃ popped, collectExplore cells lamLoc visited stack = some popped ∧
      (∀ loc ∈ popped, ¬IsKernel (cells loc)) ∧
      locs = found ++ popped.filter fun loc ↦ Occ lamLoc (cells loc) := by
  induction visited, found, stack using collectLoop.induct cells lamLoc maxCount with
  | case1 visited found =>
    rw [collectLoop] at h
    refine ⟨[], Worklist.explore_nil, fun _ hmem ↦ absurd hmem List.not_mem_nil, ?_⟩
    rw [← Option.some.inj h]
    simp
  | case2 visited found loc stack hocc hfull =>
    rw [collectLoop, if_pos hocc, if_pos hfull] at h
    cases h
  | case3 visited found loc stack hocc hroom ih =>
    rw [collectLoop, if_pos hocc, if_neg hroom] at h
    obtain ⟨popped, hpopped, hkernel, rfl⟩ := ih h
    have hstop : collectKids cells lamLoc loc = [] := if_pos (Or.inl hocc)
    refine ⟨loc :: popped, by rw [collectExplore_stop hstop, hpopped]; rfl, ?_, by simp [hocc]⟩
    exact List.forall_mem_cons.2 ⟨fun hk ↦ by simp [Occ, hk.1] at hocc, hkernel⟩
  | case4 visited found loc stack hocc hclosed ih =>
    rw [collectLoop, if_neg hocc, if_pos hclosed] at h
    obtain ⟨popped, hpopped, hkernel, rfl⟩ := ih h
    have hstop : collectKids cells lamLoc loc = [] := if_pos (Or.inr (Or.inl hclosed))
    refine ⟨loc :: popped, by rw [collectExplore_stop hstop, hpopped]; rfl, ?_, by simp [hocc]⟩
    exact List.forall_mem_cons.2 ⟨fun hk ↦ by simp [Closed, hk.1] at hclosed, hkernel⟩
  | case5 visited found loc stack hocc hclosed hk =>
    rw [collectLoop, if_neg hocc, if_neg hclosed, if_pos hk] at h
    cases h
  | case6 visited found loc stack hocc hclosed hk hskip ih =>
    rw [collectLoop, if_neg hocc, if_neg hclosed, if_neg hk, if_pos hskip] at h
    obtain ⟨popped, hpopped, hkernel, rfl⟩ := ih h
    have hkids : collectKids cells lamLoc loc = walkCells cells (cells loc) :=
      if_neg (not_or.2 ⟨hocc, not_or.2 ⟨hclosed, hk⟩⟩)
    refine ⟨loc :: popped, ?_, List.forall_mem_cons.2 ⟨hk, hkernel⟩, by simp [hocc]⟩
    rw [collectExplore, Worklist.explore, if_pos (by rwa [List.isEmpty_iff, hkids])]
    exact congrArg (Option.map _) hpopped
  | case7 visited found loc stack hocc hclosed hk hskip hfull =>
    rw [collectLoop, if_neg hocc, if_neg hclosed, if_neg hk, if_neg hskip, if_pos hfull] at h
    cases h
  | case8 visited found loc stack hocc hclosed hk hskip hfull hpush =>
    rw [collectLoop, if_neg hocc, if_neg hclosed, if_neg hk, if_neg hskip, if_neg hfull,
      hpush] at h
    cases h
  | case9 visited found loc stack hocc hclosed hk hskip hfull stack' hpush ih =>
    rw [collectLoop, if_neg hocc, if_neg hclosed, if_neg hk, if_neg hskip, if_neg hfull,
      hpush] at h
    obtain ⟨popped, hpopped, hkernel, rfl⟩ := ih h
    have hkids : collectKids cells lamLoc loc = walkCells cells (cells loc) :=
      if_neg (not_or.2 ⟨hocc, not_or.2 ⟨hclosed, hk⟩⟩)
    have hcells : (walkCells cells (cells loc)).reverse ≠ [] :=
      fun hnil ↦ hskip (Or.inl (List.reverse_eq_nil_iff.1 hnil))
    rw [pushAll_eq _ _ hcells, List.length_reverse, List.reverse_reverse] at hpush
    split_ifs at hpush with hlen
    obtain rfl := Option.some.inj hpush
    refine ⟨loc :: popped, ?_, List.forall_mem_cons.2 ⟨hk, hkernel⟩, by simp [hocc]⟩
    rw [collectExplore, Worklist.explore, if_neg (by rwa [List.isEmpty_iff, hkids]),
      if_neg (by rw [hkids]; exact not_or.2 ⟨hfull, hlen⟩), hkids]
    exact congrArg (Option.map _) hpopped

end Loop

/-- A body before its duplication: cells belong to one node at most, and terms point into the
heap. -/
structure DupBody extends LamBody where
  separate : ∀ x y, world.Reached (world.heap.cells lamLoc) x →
    world.Reached (world.heap.cells lamLoc) y → x.val ≠ y.val →
    ∀ c ∈ ownCells world.side world.heap.cells x, c ∉ ownCells world.side world.heap.cells y
  inHeap : ∀ x, world.Reached (world.heap.cells lamLoc) x →
    ∀ c ∈ readCells world.side world.heap.cells x, c < world.heap.next ∨ 2 ^ 38 ≤ c
  lamLoc_lt : lamLoc < world.heap.next
  unsubst : (world.heap.cells lamLoc).sub = false

namespace DupBody

/-- The cells of the body in the heap before the duplication. -/
def cells (b : DupBody) : ℕ → Term := b.world.heap.cells

def side (b : DupBody) : ℕ → List ℕ := b.world.side

/-- A cell of the body. -/
def ReachedAt (b : DupBody) (c : ℕ) : Prop := Worklist.Reach (ownKids b.side b.cells) b.lamLoc c

/-- A cell of the body with a variable of the binder. -/
def OccursAt (b : DupBody) (c : ℕ) : Prop := b.ReachedAt c ∧ Occ b.lamLoc (b.cells c)

/-- Every occurrence is reached through the cells that the collector goes on to. -/
def Covered (b : DupBody) : Prop :=
  ∀ c, b.OccursAt c → Worklist.Reach (collectKids b.cells b.lamLoc) b.lamLoc c

variable {b : DupBody} {c c' maxCount : ℕ} {locs : List ℕ}

theorem reached_of_reachedAt (h : b.ReachedAt c) : b.world.Reached b.body (b.cells c) := by
  induction h with
  | refl => exact .refl
  | tail _ hkid ih => exact ih.tail (List.mem_map_of_mem hkid)

theorem collectKids_of_ne_nil (h : collectKids b.cells b.lamLoc c ≠ []) :
    collectKids b.cells b.lamLoc c = walkCells b.cells (b.cells c) :=
  if_neg fun hstop ↦ h (if_pos hstop)

theorem collectKids_subset : collectKids b.cells b.lamLoc c ⊆ ownKids b.side b.cells c := by
  unfold collectKids
  split_ifs with hstop
  · exact List.nil_subset _
  · exact walkCells_subset fun halo ↦ hstop (Or.inr (Or.inl (Or.inr halo)))

theorem reachedAt_of_collect (h : Worklist.Reach (collectKids b.cells b.lamLoc) b.lamLoc c) :
    b.ReachedAt c :=
  Relation.ReflTransGen.mono (fun _ _ hkid ↦ collectKids_subset (b := b) hkid) _ _ h

/-- A cell that a node owns and that a node of another kind goes on to would be shared. -/
theorem nodeKind_of_mem (hc : b.ReachedAt c) (hc' : b.ReachedAt c') {d : ℕ}
    (hd : d ∈ ownKids b.side b.cells c) (hd' : d ∈ ownKids b.side b.cells c') :
    nodeKind (b.cells c) = nodeKind (b.cells c') := by
  have hx := reached_of_reachedAt hc
  have hy := reached_of_reachedAt hc'
  have hval : (b.cells c).val = (b.cells c').val := by
    by_contra hne
    exact b.separate _ _ hx hy hne d hd hd'
  exact b.layout _ _ hx hy (List.ne_nil_of_mem hd) (List.ne_nil_of_mem hd') hval

theorem walkCells_var {t : Term} (h : t.tag = .var) : walkCells b.cells t = [] := by
  simp [walkCells, lamBodyArity, h]

/-- The binder's cell is not among those that the collector goes on to. -/
theorem lamLoc_not_mem (hc : b.ReachedAt c) : b.lamLoc ∉ collectKids b.cells b.lamLoc c := by
  intro hmem
  have hvar := b.owner _ (reached_of_reachedAt hc) (collectKids_subset hmem)
  rw [collectKids_of_ne_nil (List.ne_nil_of_mem hmem), walkCells_var hvar] at hmem
  exact List.not_mem_nil hmem

theorem uniform_collect : Worklist.Uniform (collectKids b.cells b.lamLoc)
    (fun loc ↦ (b.cells loc).val) b.lamLoc := by
  intro x y hx hy hxkids hykids hval
  have hkind := b.layout _ _ (reached_of_reachedAt (reachedAt_of_collect hx))
    (reached_of_reachedAt (reachedAt_of_collect hy))
    (fun hnil ↦ hxkids (List.subset_nil.1 (hnil ▸ collectKids_subset (b := b) (c := x))))
    (fun hnil ↦ hykids (List.subset_nil.1 (hnil ▸ collectKids_subset (b := b) (c := y)))) hval
  rw [collectKids_of_ne_nil hxkids, collectKids_of_ne_nil hykids]
  exact walkCells_eq_of_nodeKind hkind hval

theorem separate_collect : Worklist.Separate (collectKids b.cells b.lamLoc)
    (fun loc ↦ (b.cells loc).val) b.lamLoc where
  nodup x _ := by
    unfold collectKids walkCells
    split_ifs
    · exact List.nodup_nil
    · exact List.nodup_range'
    · exact List.nodup_range'
  disjoint x y z hx hy hbase hz hz' :=
    b.separate _ _ (reached_of_reachedAt (reachedAt_of_collect hx))
      (reached_of_reachedAt (reachedAt_of_collect hy)) hbase z (collectKids_subset hz)
      (collectKids_subset hz')
  root x hx := lamLoc_not_mem (reachedAt_of_collect hx)

/-- What the collector finds, if it does not give up. -/
structure Collected (b : DupBody) (locs : List ℕ) : Prop where
  nodup : locs.Nodup
  mem_iff : ∀ c, c ∈ locs ↔
    Worklist.Reach (collectKids b.cells b.lamLoc) b.lamLoc c ∧ Occ b.lamLoc (b.cells c)
  root : ¬IsKernel b.body

theorem collected (h : autoDupCollect b.cells b.lamLoc maxCount = some locs) :
    Collected b locs := by
  obtain ⟨popped, hpopped, hkernel, rfl⟩ := collectLoop_some h
  have hmem := fun c ↦ Worklist.mem_explore_iff (y := c) uniform_collect hpopped
  have hnodup : popped.Nodup := Worklist.nodup_explore separate_collect hpopped
  refine ⟨hnodup.filter _, fun c ↦ ?_, hkernel b.lamLoc ((hmem b.lamLoc).2 .refl)⟩
  simp [hmem]

/-- In a covered body the collector finds the occurrences. -/
theorem Collected.mem_iff_occursAt (h : Collected b locs) (hcov : b.Covered) :
    c ∈ locs ↔ b.OccursAt c := by
  rw [h.mem_iff]
  exact ⟨fun hc ↦ ⟨reachedAt_of_collect hc.1, hc.2⟩, fun hc ↦ ⟨hcov c hc, hc.2⟩⟩

end DupBody

end Thvm.Net

/-!
## The chain of duplications

The cells of the chain and of the replaced variables, each with what it holds.
-/

namespace Thvm.Net

/-- What the cells hold after the duplication: the cells of the chain and the replaced variables
by turns, when `t` is what is duplicated. -/
def wires : Term → List ℕ → List Dup → List (ℕ × Term)
  | t, loc :: locs, d :: ds =>
    (d.loc, t) :: (loc, d.proj false) :: wires (d.proj true) locs ds
  | t, loc :: _, [] => [(loc, t)]
  | _, [], _ => []

/-- The cells of the chain, one after the other. -/
def ChainAt (cells : ℕ → Term) : Term → List Dup → Prop
  | _, [] => True
  | t, d :: ds => cells d.loc = t ∧ ChainAt cells (d.proj true) ds

variable {h h' : NetHeap} {lab lab' : DupLabel} {t : Term} {n : ℕ} {ds : List Dup} {locs : List ℕ}
  {cells cells' : ℕ → Term} {c : ℕ}

theorem ChainAt.congr (hchain : ChainAt cells t ds)
    (hcells : ∀ d ∈ ds, cells' d.loc = cells d.loc) : ChainAt cells' t ds := by
  induction ds generalizing t with
  | nil => trivial
  | cons d ds ih =>
    obtain ⟨hd, hrest⟩ := hchain
    exact ⟨(hcells d List.mem_cons_self).trans hd,
      ih hrest fun d' hd' ↦ hcells d' (List.mem_cons_of_mem d hd')⟩

/-- What the chain leaves in the heap. -/
structure Chained (h h' : NetHeap) (t : Term) (n : ℕ) (ds : List Dup) : Prop where
  locs : ds.map Dup.loc = List.range' h.next n
  next : h'.next = h.next + n
  fits : n = 0 ∨ h.next + n ≤ 2 ^ 38
  old : ∀ c, c ∉ ds.map Dup.loc → h'.cells c = h.cells c
  chain : ChainAt h'.cells t ds

theorem dupChain_ok (hok : dupChain n t h lab = .ok (h', lab', ds)) : Chained h h' t n ds := by
  induction n generalizing h lab t ds with
  | zero =>
    obtain ⟨rfl, hrest⟩ := Prod.mk.inj (Except.ok.inj hok)
    obtain ⟨-, rfl⟩ := Prod.mk.inj hrest
    exact ⟨rfl, rfl, Or.inl rfl, fun _ _ ↦ rfl, trivial⟩
  | succ n ih =>
    obtain ⟨⟨h₁, loc⟩, halloc, hok⟩ := bind_ok hok
    obtain ⟨⟨h₂, lab₂, ds'⟩, hrest, hok⟩ := bind_ok hok
    obtain ⟨rfl, hpair⟩ := Prod.mk.inj (Except.ok.inj hok)
    obtain ⟨rfl, rfl⟩ := Prod.mk.inj hpair
    obtain ⟨rfl, hcells, hnext, -, hle⟩ := NetHeap.alloc_ok halloc
    have hind := ih hrest
    have hnext₁ : (h₁.set h.next t).next = h.next + 1 := hnext
    have hlocs : ds'.map Dup.loc = List.range' (h.next + 1) n := by rw [hind.locs, hnext₁]
    have hnew : h.next ∉ ds'.map Dup.loc := by
      rw [hlocs, List.mem_range'_1]
      omega
    refine ⟨?_, ?_, ?_, fun c hc ↦ ?_, ?_, hind.chain⟩
    · rw [List.map_cons, hlocs, List.range'_succ]
    · rw [hind.next, hnext₁]
      omega
    · have hfits := hind.fits
      rw [hnext₁] at hfits
      exact Or.inr (by omega)
    · rw [List.map_cons, List.mem_cons, not_or] at hc
      rw [hind.old c hc.2, NetHeap.set_cells, Function.update_of_ne hc.1, hcells]
    · rw [hind.old h.next hnew, NetHeap.set_cells, Function.update_self]

/-! ### The cells and what they hold -/

theorem mem_wires_fst (hlen : locs.length = ds.length + 1) :
    (∃ u, (c, u) ∈ wires t locs ds) ↔ c ∈ locs ∨ c ∈ ds.map Dup.loc := by
  induction ds generalizing t locs with
  | nil =>
    obtain ⟨loc, rfl⟩ := List.length_eq_one_iff.1 hlen
    simp [wires]
  | cons d ds ih =>
    obtain ⟨loc, locs, rfl⟩ := List.exists_cons_of_length_eq_add_one hlen
    have hind : (∃ u, (c, u) ∈ wires (d.proj true) locs ds) ↔ c ∈ locs ∨ c ∈ ds.map Dup.loc :=
      ih (by simpa using hlen)
    simp only [wires, List.mem_cons, Prod.mk.injEq, exists_or, exists_and_left,
      exists_eq, and_true, hind, List.map_cons]
    tauto

/-- A cell holds what is duplicated, or a projection of the chain. -/
theorem mem_wires_snd {u : Term} (hmem : (c, u) ∈ wires t locs ds) :
    u = t ∨ ∃ d ∈ ds, ∃ side, u = d.proj side := by
  induction ds generalizing t locs with
  | nil =>
    cases locs with
    | nil => exact absurd hmem List.not_mem_nil
    | cons loc locs =>
      rw [wires, List.mem_singleton] at hmem
      exact Or.inl (Prod.mk.inj hmem).2
  | cons d ds ih =>
    cases locs with
    | nil => exact absurd hmem List.not_mem_nil
    | cons loc locs =>
      rcases List.mem_cons.1 hmem with heq | hmem
      · exact Or.inl (Prod.mk.inj heq).2
      rcases List.mem_cons.1 hmem with heq | hmem
      · exact Or.inr ⟨d, List.mem_cons_self, false, (Prod.mk.inj heq).2⟩
      · rcases ih hmem with hu | ⟨d', hd', side, hu⟩
        · exact Or.inr ⟨d, List.mem_cons_self, true, hu⟩
        · exact Or.inr ⟨d', List.mem_cons_of_mem d hd', side, hu⟩

/-- The uses and the chain are what the cells hold. -/
theorem holds_wires (hlen : locs.length = ds.length + 1) (hds : ds ≠ [])
    (hchain : ChainAt cells t ds) (huses : ∀ p ∈ locs.zip (useTerms ds), cells p.1 = p.2) :
    ∀ p ∈ wires t locs ds, cells p.1 = p.2 := by
  induction ds generalizing t locs with
  | nil => exact absurd rfl hds
  | cons d ds ih =>
    obtain ⟨loc, locs, rfl⟩ := List.exists_cons_of_length_eq_add_one hlen
    have hlen' : locs.length = ds.length + 1 := by simpa using hlen
    obtain ⟨hd, hrest⟩ := hchain
    cases ds with
    | nil =>
      obtain ⟨loc', rfl⟩ := List.length_eq_one_iff.1 hlen'
      simpa [wires, useTerms, hd] using huses
    | cons d' ds =>
      rw [useTerms, List.zip_cons_cons, List.forall_mem_cons] at huses
      · exact List.forall_mem_cons.2 ⟨hd, List.forall_mem_cons.2
          ⟨huses.1, ih hlen' (List.cons_ne_nil _ _) hrest huses.2⟩⟩
      · exact List.cons_ne_nil _ _

section Projections

variable {d d' : Dup} {side side' : Bool}

theorem proj_tag : (d.proj side).tag = dpTag side := rfl

theorem proj_val (hd : d.loc < 2 ^ 38) : (d.proj side).val = d.loc := Nat.mod_eq_of_lt hd

theorem dpTag_inj (h : dpTag side = dpTag side') : side = side' := by
  cases side <;> cases side' <;> simp [dpTag] at h ⊢

theorem proj_inj (hd : d.loc < 2 ^ 38) (hd' : d'.loc < 2 ^ 38)
    (h : d.proj side = d'.proj side') : side = side' ∧ d.loc = d'.loc :=
  ⟨dpTag_inj (congrArg Term.tag h), by rw [← proj_val hd, h, proj_val hd']⟩

/-- Bit 17 is not set in the labels of the chain. -/
theorem proj_plain : dupGradFlag (d.proj side).ext = false := by
  have hlow : d.lab.num < 2 ^ 18 := d.lab.high.trans (by decide)
  have hext : (d.proj side).ext = d.lab.num := Nat.mod_eq_of_lt hlow
  rw [dupGradFlag, hext, Nat.testBit_lt_two_pow d.lab.high]

theorem proj_ne_var (loc : ℕ) : termNew false .var 0 loc ≠ d.proj side := fun h ↦ by
  have htag := congrArg Term.tag h
  cases side <;> cases htag

end Projections

/-- No term is held twice. -/
theorem nodup_wires (hfits : ∀ d ∈ ds, d.loc < 2 ^ 38) (hds : (ds.map Dup.loc).Nodup)
    (ht : ∀ d ∈ ds, ∀ side, t ≠ d.proj side) : ((wires t locs ds).map Prod.snd).Nodup := by
  induction ds generalizing t locs with
  | nil => cases locs <;> simp [wires]
  | cons d ds ih =>
    cases locs with
    | nil => exact List.nodup_nil
    | cons loc locs =>
      rw [List.map_cons, List.nodup_cons] at hds
      have hfit := hfits d List.mem_cons_self
      have hother : ∀ d' ∈ ds, ∀ side side', d.proj side ≠ d'.proj side' := by
        intro d' hd' side side' heq
        have hloc := (proj_inj hfit (hfits d' (List.mem_cons_of_mem d hd')) heq).2
        exact hds.1 (hloc ▸ List.mem_map_of_mem hd')
      have hrest : ∀ u ∈ (wires (d.proj true) locs ds).map Prod.snd,
          u = d.proj true ∨ ∃ d' ∈ ds, ∃ side, u = d'.proj side := by
        intro u hu
        obtain ⟨⟨c, u⟩, hmem, rfl⟩ := List.mem_map.1 hu
        exact mem_wires_snd hmem
      simp only [wires, List.map_cons, List.nodup_cons, List.mem_cons, not_or]
      refine ⟨⟨ht d List.mem_cons_self false, fun hu ↦ ?_⟩, fun hu ↦ ?_, ?_⟩
      · rcases hrest _ hu with heq | ⟨d', hd', side, heq⟩
        · exact ht d List.mem_cons_self true heq
        · exact ht d' (List.mem_cons_of_mem d hd') side heq
      · rcases hrest _ hu with heq | ⟨d', hd', side, heq⟩
        · exact Bool.false_ne_true (proj_inj hfit hfit heq).1
        · exact hother d' hd' false side heq
      · exact ih (fun d' hd' ↦ hfits d' (List.mem_cons_of_mem d hd')) hds.2
          fun d' hd' side ↦ hother d' hd' true side

/-- A projection stands for what is in its cell. -/
theorem valueView_proj {side : ℕ → List ℕ} {d : Dup} {s : Bool} (hd : d.loc < 2 ^ 38) :
    valueView side cells (d.proj s) = .hop (cells d.loc) := by
  have hstands : StandsFor cells (d.proj s) :=
    Or.inr ⟨by cases s <;> simp [proj_tag, dpTag], proj_plain⟩
  rw [valueView, if_pos hstands, proj_val hd]

/-- Whatever a cell holds, it stands for what is duplicated. -/
theorem hops_wires {side : ℕ → List ℕ} {u : Term} (hfits : ∀ d ∈ ds, d.loc < 2 ^ 38)
    (hchain : ChainAt cells t ds) (hmem : (c, u) ∈ wires t locs ds) :
    Layer.Hops (valueView side cells) u t := by
  induction ds generalizing t locs with
  | nil =>
    rcases mem_wires_snd hmem with rfl | ⟨d, hd, -⟩
    · exact .refl
    · exact absurd hd List.not_mem_nil
  | cons d ds ih =>
    cases locs with
    | nil => exact absurd hmem List.not_mem_nil
    | cons loc locs =>
      obtain ⟨hd, hrest⟩ := hchain
      have hproj : ∀ s, Layer.Hops (valueView side cells) (d.proj s) t := fun s ↦
        .single (by rw [valueView_proj (hfits d List.mem_cons_self), hd])
      rcases List.mem_cons.1 hmem with heq | hmem
      · rw [(Prod.mk.inj heq).2]
        exact .refl
      rcases List.mem_cons.1 hmem with heq | hmem
      · rw [(Prod.mk.inj heq).2]
        exact hproj false
      · exact (ih (fun d' hd' ↦ hfits d' (List.mem_cons_of_mem d hd')) hrest hmem).trans
          (hproj true)

/-! ### The heap after the duplication -/

theorem setCells_of_not_mem {ts : List Term} (hc : c ∉ locs) :
    (setCells locs ts h).cells c = h.cells c := by
  induction locs generalizing ts h with
  | nil => rfl
  | cons loc locs ih =>
    rw [List.mem_cons, not_or] at hc
    cases ts with
    | nil => rfl
    | cons t ts =>
      rw [setCells, ih hc.2, NetHeap.set_cells, Function.update_of_ne hc.1]

theorem setCells_next {ts : List Term} : (setCells locs ts h).next = h.next := by
  induction locs generalizing ts h with
  | nil => rfl
  | cons loc locs ih =>
    cases ts with
    | nil => rfl
    | cons t ts => rw [setCells, ih, NetHeap.set_next]

theorem setCells_zip {ts : List Term} (hnodup : locs.Nodup) :
    ∀ p ∈ locs.zip ts, (setCells locs ts h).cells p.1 = p.2 := by
  induction locs generalizing ts h with
  | nil => exact fun p hp ↦ absurd hp List.not_mem_nil
  | cons loc locs ih =>
    rw [List.nodup_cons] at hnodup
    cases ts with
    | nil => exact fun p hp ↦ absurd hp List.not_mem_nil
    | cons t ts =>
      rw [List.zip_cons_cons]
      refine List.forall_mem_cons.2 ⟨?_, ih hnodup.2⟩
      rw [setCells, setCells_of_not_mem hnodup.1, NetHeap.set_cells, Function.update_self]

/-- The heap after the occurrences of a binder have been rewired to a chain. -/
structure Rewired (h h' : NetHeap) (lamLoc : ℕ) (locs : List ℕ) (ds : List Dup) : Prop where
  len : locs.length = ds.length + 1
  ne : ds ≠ []
  dsLocs : ds.map Dup.loc = List.range' h.next ds.length
  fits : h.next + ds.length ≤ 2 ^ 38
  next : h'.next = h.next + ds.length
  old : ∀ c, c ∉ locs → c ∉ ds.map Dup.loc → h'.cells c = h.cells c
  chain : ChainAt h'.cells (termNew false .var 0 lamLoc) ds
  holds : ∀ p ∈ wires (termNew false .var 0 lamLoc) locs ds, h'.cells p.1 = p.2

theorem autoDupLamAt_ok {lamLoc : ℕ} (hlocs : 1 < locs.length) (hnodup : locs.Nodup)
    (hold : ∀ c ∈ locs, c < h.next ∨ 2 ^ 38 ≤ c)
    (hok : autoDupLamAt h lab lamLoc locs = .ok (h', lab')) :
    ∃ ds, Rewired h h' lamLoc locs ds := by
  obtain ⟨⟨h₁, lab₁, ds⟩, hchain, hok⟩ := bind_ok hok
  obtain ⟨rfl, -⟩ := Prod.mk.inj (Except.ok.inj hok)
  have hchained := dupChain_ok hchain
  have hlength : ds.length = locs.length - 1 := by
    rw [← List.length_map (f := Dup.loc), hchained.locs, List.length_range']
  have hfits : h.next + ds.length ≤ 2 ^ 38 := by
    rcases hchained.fits with hzero | hfits
    · omega
    · omega
  have hdslocs : ds.map Dup.loc = List.range' h.next ds.length := by
    rw [hchained.locs, hlength]
  have hne : ds ≠ [] := List.ne_nil_of_length_pos (by omega)
  have hlen : locs.length = ds.length + 1 := by omega
  -- the cells of the chain are new, so the uses do not overwrite them
  have happart : ∀ d ∈ ds, d.loc ∉ locs := by
    intro d hd hmem
    have hnew := hdslocs ▸ List.mem_map_of_mem (f := Dup.loc) hd
    rw [List.mem_range'_1] at hnew
    have := hold d.loc hmem
    omega
  have hchain' : ChainAt (setCells locs (useTerms ds) h₁).cells (termNew false .var 0 lamLoc) ds :=
    hchained.chain.congr fun d hd ↦ setCells_of_not_mem (happart d hd)
  refine ⟨ds, hlen, hne, hdslocs, hfits, ?_, fun c hc hcd ↦ ?_, hchain', ?_⟩
  · rw [setCells_next, hchained.next, hlength]
  · rw [setCells_of_not_mem hc, hchained.old c hcd]
  · exact holds_wires hlen hne hchain' (setCells_zip hnodup)

end Thvm.Net
