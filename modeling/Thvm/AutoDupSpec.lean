import Thvm.AutoDupChain

/-!
# What automatic duplication is for

After the duplication the binder occurs once, every projection of the chain is used once, and the
lambda applied to an argument stands for its body with the argument in place of every occurrence.
-/

namespace Thvm.Net

theorem nodeKind_var {t : Term} : (nodeKind t).1 = .var ↔ t.tag = .var := by
  obtain ⟨sub, tag, ext, val⟩ := t
  cases tag <;> simp [nodeKind]

section Views

variable {side : ℕ → List ℕ} {cells cells' : ℕ → Term} {t : Term} {R : Term → Term → Prop}

theorem ownCells_var (h : t.tag = .var) :
    ownCells side cells t = if (cells t.val).sub then [t.val] else [] := by
  obtain ⟨sub, tag, ext, val⟩ := t
  obtain rfl : tag = .var := h
  rfl

/-- A term that stands for another one owns its cell. -/
theorem mem_ownCells_of_standsFor (h : StandsFor cells t) : t.val ∈ ownCells side cells t := by
  obtain ⟨sub, tag, ext, val⟩ := t
  rcases h with ⟨hvar, hsub⟩ | ⟨hdp, -⟩
  · rw [ownCells_var hvar, if_pos hsub]
    exact List.mem_singleton_self _
  · rcases hdp with hdp | hdp
    · obtain rfl : tag = .dp0 := hdp
      simp only [ownCells, List.mem_range'_1]
      split_ifs <;> omega
    · obtain rfl : tag = .dp1 := hdp
      simp only [ownCells, List.mem_range'_1]
      split_ifs <;> omega

theorem standsFor_congr (hown : ownCells side cells' t = ownCells side cells t) :
    StandsFor cells' t ↔ StandsFor cells t := by
  by_cases hvar : t.tag = .var
  · rw [ownCells_var hvar, ownCells_var hvar] at hown
    have hsub : (cells' t.val).sub = (cells t.val).sub := by
      cases h : (cells t.val).sub <;> cases h' : (cells' t.val).sub <;> simp [h, h'] at hown ⊢
    simp [StandsFor, hsub]
  · simp [StandsFor, hvar]

/-- Two heaps show a term alike, if it owns the same cells in both of them and these hold related
terms. -/
theorem alike_valueView (hown : ownCells side cells' t = ownCells side cells t)
    (hkids : ∀ c ∈ ownCells side cells t, R (cells' c) (cells c)) :
    Layer.Alike R (valueView side cells' t) (valueView side cells t) := by
  unfold valueView
  by_cases hstands : StandsFor cells t
  · rw [if_pos ((standsFor_congr hown).2 hstands), if_pos hstands]
    exact .hop (hkids _ (mem_ownCells_of_standsFor hstands))
  · rw [if_neg (mt (standsFor_congr hown).1 hstands), if_neg hstands]
    by_cases hleaf : ownCells side cells t = []
    · simp only [readView, hown, hleaf, if_true]
      exact .leaf _
    · simp only [readView, ownTerms, hown, hleaf, if_false]
      refine .node _ ?_
      rw [List.forall₂_map_left_iff, List.forall₂_map_right_iff]
      exact List.forall₂_same.2 hkids

theorem ownCells_proj {d : Dup} {s : Bool} (hd : d.loc < 2 ^ 38) :
    ownCells side cells (d.proj s) = [d.loc] := by
  have htag : (d.proj s).tag = .dp0 ∨ (d.proj s).tag = .dp1 := by
    cases s
    · exact Or.inl rfl
    · exact Or.inr rfl
  rcases htag with htag | htag <;> simp [ownCells, htag, proj_plain, proj_val hd]

theorem not_occ_proj {d : Dup} {s : Bool} {lamLoc : ℕ} : ¬Occ lamLoc (d.proj s) := fun h ↦ by
  cases s <;> cases h.1

end Views

namespace DupBody

variable {b : DupBody} {cells' : ℕ → Term} {arg t : Term} {c : ℕ}
  {tree : TermTree ReadHead ReadHead}

/-! ### Reading a substituted body -/

/-- An argument does not look at the binder, nor at one of its variables. -/
def OutOfScope (b : DupBody) (arg : Term) : Prop :=
  ∀ c, Looks b.side b.cells arg c →
    (c < b.world.heap.next ∨ 2 ^ 38 ≤ c) ∧ c ≠ b.lamLoc ∧ ¬Occ b.lamLoc (b.cells c)

/-- A heap in which the body is read as with the argument in place of the binder. -/
structure Substituted (b : DupBody) (arg : Term) (cells' : ℕ → Term) : Prop where
  own : ∀ c, b.ReachedAt c → ¬Occ b.lamLoc (b.cells c) →
    ownCells b.side cells' (b.cells c) = ownCells b.side b.cells (b.cells c)
  same : ∀ c, b.ReachedAt c → c ≠ b.lamLoc → ¬Occ b.lamLoc (b.cells c) → cells' c = b.cells c
  hops : ∀ c, b.ReachedAt c → c ≠ b.lamLoc → Occ b.lamLoc (b.cells c) →
    ∃ sub, Layer.Hops (valueView b.side cells') (cells' c) { arg with sub := sub }
  root : Occ b.lamLoc b.body →
    ∃ sub, Layer.Hops (valueView b.side cells') b.body { arg with sub := sub }
  arg : ∀ c, Looks b.side b.cells arg c → cells' c = b.cells c

/-- Terms that are read alike: the ones in a cell of the body, and those that the argument
reaches. -/
inductive ReadAlike (b : DupBody) (cells' : ℕ → Term) : Term → Term → Prop
  | root : ReadAlike b cells' b.body b.body
  | cell (c : ℕ) (hreached : b.ReachedAt c) (hne : c ≠ b.lamLoc) :
    ReadAlike b cells' (cells' c) (b.cells c)
  | arg (t : Term) (sub : Bool)
    (h : ∀ c, Looks b.side b.cells t c → cells' c = b.cells c ∧ c ≠ b.lamLoc) :
    ReadAlike b cells' { t with sub := sub } t

theorem lamLoc_not_own (hreached : b.ReachedAt c) (hocc : ¬Occ b.lamLoc (b.cells c)) :
    b.lamLoc ∉ ownCells b.side b.cells (b.cells c) := by
  intro hmem
  have hvar := b.owner _ (reached_of_reachedAt hreached) hmem
  rw [ownCells_var hvar] at hmem
  split_ifs at hmem
  · exact hocc ⟨hvar, (List.mem_singleton.1 hmem).symm⟩
  · exact List.not_mem_nil hmem

/-- One layer of a cell of the body that is not an occurrence. -/
theorem Substituted.alike_cell (h : Substituted b arg cells') (hreached : b.ReachedAt c)
    (hocc : ¬Occ b.lamLoc (b.cells c)) :
    Layer.Alike (ReadAlike b cells') (valueView b.side cells' (b.cells c))
      (replacedView b.side b.cells b.lamLoc arg (b.cells c)) := by
  rw [replacedView, if_neg hocc]
  refine alike_valueView (h.own c hreached hocc) fun c' hc' ↦ .cell c' (hreached.tail hc') ?_
  exact fun heq ↦ lamLoc_not_own hreached hocc (heq ▸ hc')

/-- One layer of a term that the argument reaches. -/
theorem alike_arg {sub : Bool}
    (h : ∀ c, Looks b.side b.cells t c → cells' c = b.cells c ∧ c ≠ b.lamLoc) :
    Layer.Alike (ReadAlike b cells') (valueView b.side cells' { t with sub := sub })
      (replacedView b.side b.cells b.lamLoc arg t) := by
  have hocc : ¬Occ b.lamLoc t := fun hocc ↦
    (h b.lamLoc (.here ((mem_readCells_var hocc.1).2 hocc.2.symm))).2 rfl
  rw [replacedView, if_neg hocc]
  have hread : ∀ c ∈ readCells b.side b.cells t, cells' c = b.cells c := fun c hc ↦
    (h c (.here hc)).1
  refine alike_valueView (t := t) (ownCells_congr hread) fun c hc ↦ ?_
  have hkid : ∀ c', Looks b.side b.cells (b.cells c) c' →
      cells' c' = b.cells c' ∧ c' ≠ b.lamLoc := by
    intro c' hc'
    have hview : readView b.side b.cells t = .node _ (ownTerms b.side b.cells t) :=
      if_neg (List.ne_nil_of_mem hc)
    exact h c' (.kid hview (List.mem_map_of_mem hc) hc')
  rw [(h c (.here (List.mem_append_left _ hc))).1]
  exact .arg (b.cells c) (b.cells c).sub hkid

/-- The body stands for the original one with the argument in place of every occurrence. -/
theorem Substituted.unfolds_iff (h : Substituted b arg cells') (hscope : b.OutOfScope arg) :
    Layer.Unfolds (valueView b.side cells') b.body tree ↔
      Layer.Unfolds (replacedView b.side b.cells b.lamLoc arg) b.body tree := by
  have harg : ∀ c, Looks b.side b.cells arg c → cells' c = b.cells c ∧ c ≠ b.lamLoc := fun c hc ↦
    ⟨h.arg c hc, (hscope c hc).2.1⟩
  have hreplaced : ∀ t, Occ b.lamLoc t →
      Layer.Hops (replacedView b.side b.cells b.lamLoc arg) t arg := fun t hocc ↦
    .single (if_pos hocc)
  refine Layer.unfolds_iff_of_alike (R := ReadAlike b cells') ?_ .root
  intro x y hxy
  cases hxy with
  | root =>
    by_cases hocc : Occ b.lamLoc b.body
    · obtain ⟨sub, hhops⟩ := h.root hocc
      exact ⟨_, arg, hhops, hreplaced _ hocc, alike_arg harg⟩
    · exact ⟨_, _, .refl, .refl, h.alike_cell .refl hocc⟩
  | cell c hreached hne =>
    by_cases hocc : Occ b.lamLoc (b.cells c)
    · obtain ⟨sub, hhops⟩ := h.hops c hreached hne hocc
      exact ⟨_, arg, hhops, hreplaced _ hocc, alike_arg harg⟩
    · rw [h.same c hreached hne hocc]
      exact ⟨_, _, .refl, .refl, h.alike_cell hreached hocc⟩
  | arg t sub ht => exact ⟨_, _, .refl, .refl, alike_arg ht⟩

/-! ### The body after the duplication -/

/-- The binder's cell and the cells of the body are in the heap. -/
theorem inHeap_of_reachedAt (h : b.ReachedAt c) : c < b.world.heap.next ∨ 2 ^ 38 ≤ c := by
  rcases Relation.ReflTransGen.cases_tail h with heq | ⟨p, hp, hkid⟩
  · exact Or.inl (heq ▸ b.lamLoc_lt)
  · exact b.inHeap _ (reached_of_reachedAt hp) c (List.mem_append_left _ hkid)

/-- A heap that differs from that of the body in the binder's cell, in new cells, and in
occurrences, which are neither numbers nor substitutions. -/
def Touched (b : DupBody) (cells' : ℕ → Term) : Prop :=
  ∀ c, c ≠ b.lamLoc → c < b.world.heap.next ∨ 2 ^ 38 ≤ c →
    cells' c = b.cells c ∨ b.OccursAt c ∧ (cells' c).tag ≠ .num ∧ (cells' c).sub = false

/-- An occurrence is not a substitution for another variable of the body. -/
theorem sub_of_occursAt (hcov : b.Covered) (hocc : b.OccursAt c) {c' : ℕ} (hc' : b.ReachedAt c')
    (hvar : (b.cells c').tag = .var) (hval : (b.cells c').val = c) (hne : c ≠ b.lamLoc) :
    (b.cells c).sub = false := by
  by_contra hsub
  rw [Bool.not_eq_false] at hsub
  have hmem : c ∈ ownKids b.side b.cells c' := by
    rw [ownKids, ownCells_var hvar, hval, if_pos hsub]
    exact List.mem_singleton_self _
  -- the collector reaches the cell from another node, which cannot own it as well
  rcases Relation.ReflTransGen.cases_tail (hcov c hocc) with heq | ⟨p, hp, hkid⟩
  · exact hne heq
  · have hkind := nodeKind_of_mem (reachedAt_of_collect hp) hc' (collectKids_subset hkid) hmem
    have hpvar : (b.cells p).tag = .var := by rw [← nodeKind_var, hkind, nodeKind_var, hvar]
    rw [collectKids_of_ne_nil (List.ne_nil_of_mem hkid), walkCells_var hpvar] at hkid
    exact List.not_mem_nil hkid

theorem Touched.own (h : b.Touched cells') (hcov : b.Covered) (hreached : b.ReachedAt c)
    (hocc : ¬Occ b.lamLoc (b.cells c)) :
    ownCells b.side cells' (b.cells c) = ownCells b.side b.cells (b.cells c) := by
  refine ownCells_eq (fun c' hc' ↦ ?_) fun hvar ↦ ?_
  · have hne : c' ≠ b.lamLoc := fun heq ↦ lamLoc_not_own hreached hocc (heq ▸ hc')
    rcases h c' hne (inHeap_of_reachedAt (hreached.tail hc')) with heq | ⟨hocc', hnum, -⟩
    · exact countAt_congr heq
    · rw [countAt, countAt, if_neg hnum, if_neg (by rw [hocc'.2.1]; simp)]
  · have hne : (b.cells c).val ≠ b.lamLoc := fun heq ↦ hocc ⟨hvar, heq⟩
    have hin := b.inHeap _ (reached_of_reachedAt hreached) _ ((mem_readCells_var hvar).2 rfl)
    rcases h _ hne hin with heq | ⟨hocc', -, hsub⟩
    · rw [heq]
    · rw [hsub, sub_of_occursAt hcov hocc' hreached hvar rfl hne]

theorem Touched.same (h : b.Touched cells') (hreached : b.ReachedAt c) (hne : c ≠ b.lamLoc)
    (hocc : ¬Occ b.lamLoc (b.cells c)) : cells' c = b.cells c :=
  (h c hne (inHeap_of_reachedAt hreached)).resolve_right fun hocc' ↦ hocc hocc'.1.2

theorem Touched.eq_of_looks (h : b.Touched cells') (hscope : b.OutOfScope arg)
    (hlooks : Looks b.side b.cells arg c) : cells' c = b.cells c := by
  obtain ⟨hin, hne, hocc⟩ := hscope c hlooks
  exact (h c hne hin).resolve_right fun hocc' ↦ hocc hocc'.1.2

/-- A projection of a plain duplication in a new cell. -/
structure IsChainProj (b : DupBody) (h' : NetHeap) (t : Term) : Prop where
  tag : t.tag = .dp0 ∨ t.tag = .dp1
  plain : dupGradFlag t.ext = false
  low : b.world.heap.next ≤ t.val
  high : t.val < h'.next

section Rewiring

variable {h' : NetHeap} {locs : List ℕ} {ds : List Dup} {d : Dup} {s : Bool}
  (hw : Rewired b.world.heap h' b.lamLoc locs ds) (hmem : ∀ c, c ∈ locs ↔ b.OccursAt c)
include hw

theorem new_of_mem (hd : d ∈ ds) : b.world.heap.next ≤ d.loc ∧ d.loc < h'.next := by
  have hloc := hw.dsLocs ▸ List.mem_map_of_mem (f := Dup.loc) hd
  rw [List.mem_range'_1] at hloc
  exact ⟨hloc.1, hw.next ▸ hloc.2⟩

theorem loc_fits : ∀ d ∈ ds, d.loc < 2 ^ 38 := fun d hd ↦ by
  have hnew := new_of_mem hw hd
  have hfits := hw.fits
  rw [hw.next] at hnew
  omega

theorem not_mem_ds (hc : c < b.world.heap.next ∨ 2 ^ 38 ≤ c) : c ∉ ds.map Dup.loc := by
  intro hmem
  obtain ⟨d, hd, rfl⟩ := List.mem_map.1 hmem
  have hnew := new_of_mem hw hd
  have hfits := loc_fits hw d hd
  omega

theorem nodup_ds : (ds.map Dup.loc).Nodup := by
  rw [hw.dsLocs]
  exact List.nodup_range'

/-- No two cells of the chain and of the replaced variables hold the same term. -/
theorem wires_inj {c c' : ℕ} {t : Term}
    (hc : (c, t) ∈ wires (termNew false .var 0 b.lamLoc) locs ds)
    (hc' : (c', t) ∈ wires (termNew false .var 0 b.lamLoc) locs ds) : c = c' := by
  have hnodup : ((wires (termNew false .var 0 b.lamLoc) locs ds).map Prod.snd).Nodup :=
    nodup_wires (loc_fits hw) (nodup_ds hw) fun d _ side ↦ proj_ne_var b.lamLoc
  exact congrArg Prod.fst (List.inj_on_of_nodup_map hnodup hc hc' rfl)

/-- The replaced variables and the cells of the chain hold what the wires say. -/
theorem mem_wires (hc : c ∈ locs ∨ c ∈ ds.map Dup.loc) :
    (c, h'.cells c) ∈ wires (termNew false .var 0 b.lamLoc) locs ds := by
  obtain ⟨u, hu⟩ := (mem_wires_fst hw.len).2 hc
  have hcell : h'.cells c = u := hw.holds _ hu
  rwa [hcell]

include hmem

theorem rewired_eq (hreached : b.ReachedAt c) (hocc : ¬Occ b.lamLoc (b.cells c)) :
    h'.cells c = b.cells c :=
  hw.old c (fun hc ↦ hocc ((hmem c).1 hc).2) (not_mem_ds hw (inHeap_of_reachedAt hreached))

/-- Every occurrence has become a projection of the chain. -/
theorem proj_of_occursAt (hocc : b.OccursAt c) : ∃ d ∈ ds, ∃ s, h'.cells c = d.proj s := by
  obtain ⟨d, ds', rfl⟩ := List.exists_cons_of_ne_nil hw.ne
  have hu := mem_wires hw (Or.inl ((hmem c).2 hocc))
  rcases mem_wires_snd hu with hvar | ⟨d', hd', s, hproj⟩
  · -- the only cell with the variable is the first one of the chain, which is new
    obtain ⟨loc, locs, rfl⟩ := List.exists_cons_of_length_eq_add_one hw.len
    rw [hvar] at hu
    have heq := wires_inj hw hu List.mem_cons_self
    exact absurd (heq ▸ List.mem_cons_self) (not_mem_ds hw (inHeap_of_reachedAt hocc.1))
  · exact ⟨d', hd', s, hproj⟩

theorem touched_rewired : b.Touched h'.cells := by
  intro c _ hin
  by_cases hocc : b.OccursAt c
  · obtain ⟨d, -, s, hproj⟩ := proj_of_occursAt hw hmem hocc
    refine Or.inr ⟨hocc, ?_, ?_⟩
    · rw [hproj, proj_tag]
      cases s <;> simp [dpTag]
    · rw [hproj]
      rfl
  · exact Or.inl (hw.old c (mt (hmem c).1 hocc) (not_mem_ds hw hin))

/-- With more than one occurrence the body is not a variable. -/
theorem not_occ_root (hcov : b.Covered) (hnodup : locs.Nodup) :
    ¬Occ b.lamLoc (b.cells b.lamLoc) := by
  intro hocc
  have hall : ∀ c ∈ locs, c = b.lamLoc := by
    intro c hc
    rcases Relation.ReflTransGen.cases_head (hcov c ((hmem c).1 hc)) with heq | ⟨p, hp, -⟩
    · exact heq.symm
    · rw [collectKids, if_pos (Or.inl hocc)] at hp
      exact absurd hp List.not_mem_nil
  obtain ⟨d, ds', rfl⟩ := List.exists_cons_of_ne_nil hw.ne
  obtain ⟨loc, locs, rfl⟩ := List.exists_cons_of_length_eq_add_one hw.len
  obtain ⟨loc', locs, rfl⟩ := List.exists_cons_of_length_eq_add_one
    (show locs.length = ds'.length + 1 by simpa using hw.len)
  rw [List.nodup_cons] at hnodup
  refine hnodup.1 ?_
  rw [hall loc List.mem_cons_self, ← hall loc' (by simp)]
  exact List.mem_cons_self

/-- The cells of the body are still reached. -/
theorem reach_rewired (hcov : b.Covered) (hreached : b.ReachedAt c) :
    Worklist.Reach (ownKids b.side h'.cells) b.lamLoc c := by
  induction hreached with
  | refl => exact .refl
  | @tail x y hx hkid ih =>
    have hocc : ¬Occ b.lamLoc (b.cells x) := by
      intro hocc
      rw [ownKids, ownCells_var hocc.1, hocc.2, if_neg (by simp [cells, b.unsubst])] at hkid
      exact List.not_mem_nil hkid
    refine ih.tail ?_
    rw [ownKids, rewired_eq hw hmem hx hocc, (touched_rewired hw hmem).own hcov hx hocc]
    exact hkid

/-- The binder's cell still holds the body. -/
theorem rewired_root (hcov : b.Covered) (hnodup : locs.Nodup) : h'.cells b.lamLoc = b.body :=
  rewired_eq hw hmem .refl (not_occ_root hw hmem hcov hnodup)

/-- What is reached after the duplication: cells of the body, and the chain. -/
theorem reached_rewired (hcov : b.Covered) (hnodup : locs.Nodup)
    (h : Worklist.Reach (ownKids b.side h'.cells) b.lamLoc c) :
    b.ReachedAt c ∨ c ∈ ds.map Dup.loc := by
  induction h with
  | refl => exact Or.inl .refl
  | @tail x y _ hkid ih =>
    have hproj : (∃ d ∈ ds, ∃ s, h'.cells x = d.proj s) → y ∈ ds.map Dup.loc := by
      rintro ⟨d, hd, s, hx⟩
      rw [ownKids, hx, ownCells_proj (loc_fits hw d hd), List.mem_singleton] at hkid
      exact hkid ▸ List.mem_map_of_mem hd
    rcases ih with hx | hx
    · by_cases hocc : Occ b.lamLoc (b.cells x)
      · exact Or.inr (hproj (proj_of_occursAt hw hmem ⟨hx, hocc⟩))
      · rw [ownKids, rewired_eq hw hmem hx hocc, (touched_rewired hw hmem).own hcov hx hocc] at hkid
        exact Or.inl (hx.tail hkid)
    · rcases mem_wires_snd (mem_wires hw (Or.inr hx)) with hcell | ⟨d, hd, s, hcell⟩
      · -- the variable at the start of the chain is not substituted
        have hval : (h'.cells x).val = b.lamLoc := by
          rw [hcell]
          exact Nat.mod_eq_of_lt b.fits
        rw [ownKids, ownCells_var (by rw [hcell]; rfl), hval, rewired_root hw hmem hcov hnodup,
          if_neg (by simp [LamBody.body, b.unsubst])] at hkid
        exact absurd hkid List.not_mem_nil
      · exact Or.inr (hproj ⟨d, hd, s, hcell⟩)

/-- The first cell of the chain is the only one with a variable of the binder. -/
theorem existsUnique_occ (hcov : b.Covered) (hnodup : locs.Nodup) :
    ∃! c, Worklist.Reach (ownKids b.side h'.cells) b.lamLoc c ∧ Occ b.lamLoc (h'.cells c) := by
  obtain ⟨d, ds', rfl⟩ := List.exists_cons_of_ne_nil hw.ne
  obtain ⟨loc, locs, rfl⟩ := List.exists_cons_of_length_eq_add_one hw.len
  have hfirst : h'.cells d.loc = termNew false .var 0 b.lamLoc := hw.holds _ List.mem_cons_self
  have huse : h'.cells loc = d.proj false :=
    hw.holds _ (List.mem_cons_of_mem _ List.mem_cons_self)
  have hloc := (hmem loc).1 List.mem_cons_self
  refine ⟨d.loc, ⟨(reach_rewired hw hmem hcov hloc.1).tail ?_, ?_⟩, fun c ⟨hc, hocc⟩ ↦ ?_⟩
  · rw [ownKids, huse, ownCells_proj (loc_fits hw d List.mem_cons_self)]
    exact List.mem_singleton_self _
  · rw [hfirst]
    exact ⟨rfl, Nat.mod_eq_of_lt b.fits⟩
  · have hcd : c ∈ (d :: ds').map Dup.loc := by
      refine (reached_rewired hw hmem hcov hnodup hc).resolve_left fun hreached ↦ ?_
      by_cases hold : Occ b.lamLoc (b.cells c)
      · obtain ⟨d', -, s', hproj⟩ := proj_of_occursAt hw hmem ⟨hreached, hold⟩
        rw [hproj] at hocc
        exact not_occ_proj hocc
      · rw [rewired_eq hw hmem hreached hold] at hocc
        exact hold hocc
    have hu := mem_wires hw (Or.inr hcd)
    rcases mem_wires_snd hu with hvar | ⟨d', -, s', hproj⟩
    · rw [hvar] at hu
      exact wires_inj hw hu List.mem_cons_self
    · rw [hproj] at hocc
      exact absurd hocc not_occ_proj

/-- A projection of the chain that is reached is one of the wires. -/
theorem wire_of_reached (hcov : b.Covered) (hnodup : locs.Nodup)
    (hc : Worklist.Reach (ownKids b.side h'.cells) b.lamLoc c)
    (hproj : IsChainProj b h' (h'.cells c)) :
    ∃ d ∈ ds, ∃ s, h'.cells c = d.proj s ∧
      (c, d.proj s) ∈ wires (termNew false .var 0 b.lamLoc) locs ds := by
  have hin : c ∈ locs ∨ c ∈ ds.map Dup.loc := by
    refine (reached_rewired hw hmem hcov hnodup hc).imp_left fun hreached ↦ ?_
    by_contra hnot
    have hold : h'.cells c = b.cells c := rewired_eq hw hmem hreached fun hocc ↦
      hnot ((hmem c).2 ⟨hreached, hocc⟩)
    -- an old projection points to an old cell
    rw [hold] at hproj
    obtain ⟨htag, hplain, hlow, hhigh⟩ := hproj
    have hmemval := b.inHeap _ (reached_of_reachedAt hreached) _
      (List.mem_append_left _ (mem_ownCells_of_standsFor (Or.inr ⟨htag, hplain⟩)))
    have hfits := hw.fits
    rw [hw.next] at hhigh
    omega
  have hu := mem_wires hw hin
  rcases mem_wires_snd hu with hcell | ⟨d, hd, s, hcell⟩
  · rw [hcell] at hproj
    rcases hproj.tag with htag | htag <;> cases htag
  · exact ⟨d, hd, s, hcell, hcell ▸ hu⟩

/-- A projection of the chain is in one cell only. -/
theorem proj_unique (hcov : b.Covered) (hnodup : locs.Nodup) {c c' : ℕ}
    (hc : Worklist.Reach (ownKids b.side h'.cells) b.lamLoc c)
    (hc' : Worklist.Reach (ownKids b.side h'.cells) b.lamLoc c')
    (hproj : IsChainProj b h' (h'.cells c)) (hproj' : IsChainProj b h' (h'.cells c'))
    (htag : (h'.cells c).tag = (h'.cells c').tag)
    (hval : (h'.cells c).val = (h'.cells c').val) : c = c' := by
  obtain ⟨d, hd, s, hcell, hwire⟩ := wire_of_reached hw hmem hcov hnodup hc hproj
  obtain ⟨d', hd', s', hcell', hwire'⟩ := wire_of_reached hw hmem hcov hnodup hc' hproj'
  rw [hcell, hcell', proj_tag, proj_tag] at htag
  rw [hcell, hcell', proj_val (loc_fits hw d hd), proj_val (loc_fits hw d' hd')] at hval
  obtain rfl := dpTag_inj htag
  obtain rfl := List.inj_on_of_nodup_map (nodup_ds hw) hd hd' hval
  exact wires_inj hw hwire hwire'

end Rewiring

/-! ### The sealed lambda -/

section Applied

variable (jit : Jit) (w : World) (lam arg : Term)

theorem noteShape_heap {loc : ℕ} : (noteShape jit w loc arg).heap = w.heap := by
  unfold noteShape
  split
  · split_ifs <;> rfl
  · rfl

theorem noteShape_side {loc : ℕ} : (noteShape jit w loc arg).side = w.side := by
  unfold noteShape
  split
  · split_ifs <;> rfl
  · rfl

/-- Applying an erasing lambda, of which the body is not compiled. -/
theorem interactAppLam_era (hflag : lamEraFlag lam.ext = true)
    (hbody : ¬((w.heap.cells lam.val).tag = .uop ∧ (w.heap.cells lam.val).ext ≠ Uop.kernel)) :
    interactAppLam jit w lam arg = (w, w.heap.cells lam.val) := by
  simp only [interactAppLam, hflag, if_true, jitBody, if_neg hbody]

/-- Applying another one. -/
theorem interactAppLam_plain (hflag : lamEraFlag lam.ext = false)
    (hbody : ¬((w.heap.cells lam.val).tag = .uop ∧ (w.heap.cells lam.val).ext ≠ Uop.kernel)) :
    (interactAppLam jit w lam arg).2 = w.heap.cells lam.val ∧
      (interactAppLam jit w lam arg).1.side = w.side ∧
      (interactAppLam jit w lam arg).1.heap = w.heap.substVar lam.val arg := by
  simp only [interactAppLam, hflag, Bool.false_eq_true, if_false, jitBody, if_neg hbody,
    noteShape_heap, noteShape_side, and_self]

end Applied

/-- The world with another heap. -/
def withHeap (b : DupBody) (h' : NetHeap) : World := { b.world with heap := h' }

/-- The lambda stands, applied to any argument, for its body with the argument in place of every
occurrence. -/
def Applies (b : DupBody) (h' : NetHeap) (ext : ℕ) : Prop :=
  ∀ jit arg, b.OutOfScope arg → ∀ tree,
    let applied := interactAppLam jit (b.withHeap h') (b.lam ext) arg
    Layer.Unfolds (valueView applied.1.side applied.1.heap.cells) applied.2 tree ↔
      Layer.Unfolds (replacedView b.side b.cells b.lamLoc arg) b.body tree

/-- What sealing with automatic duplication is for. -/
structure Linearised (b : DupBody) (h' : NetHeap) (ext : ℕ) : Prop where
  /-- One occurrence is left, if there were any. -/
  one : (∃ c, b.OccursAt c) →
    ∃! c, Worklist.Reach (ownKids b.side h'.cells) b.lamLoc c ∧ Occ b.lamLoc (h'.cells c)
  /-- Otherwise the lambda is erasing. -/
  unused : (∀ c, ¬b.OccursAt c) → lamEraFlag ext = true
  /-- Several occurrences become projections of the chain. -/
  projections : ∀ c c', b.OccursAt c → b.OccursAt c' → c ≠ c' → IsChainProj b h' (h'.cells c)
  /-- Different occurrences become different ones. -/
  distinct : ∀ c c', b.OccursAt c → b.OccursAt c' → h'.cells c = h'.cells c' → c = c'
  /-- No projection is used twice. -/
  linear : ∀ c c', Worklist.Reach (ownKids b.side h'.cells) b.lamLoc c →
    Worklist.Reach (ownKids b.side h'.cells) b.lamLoc c' → IsChainProj b h' (h'.cells c) →
    IsChainProj b h' (h'.cells c') → (h'.cells c).tag = (h'.cells c').tag →
    (h'.cells c).val = (h'.cells c').val → c = c'
  applies : b.Applies h' ext

section Sealed

variable {h' : NetHeap} {locs : List ℕ} {ds : List Dup} {ext : ℕ}

/-- A substitution into a heap in which the occurrences stand for the variable. -/
theorem applies_of_touched (htouched : b.Touched h'.cells) (hcov : b.Covered)
    (hext : lamEraFlag ext = false) (hroot : h'.cells b.lamLoc = b.body)
    (hbody : ¬(b.body.tag = .uop ∧ b.body.ext ≠ Uop.kernel))
    (hhops : ∀ cells', (∀ c, c ≠ b.lamLoc → cells' c = h'.cells c) → ∀ c, b.OccursAt c →
      c ≠ b.lamLoc → ∃ u, Occ b.lamLoc u ∧ Layer.Hops (valueView b.side cells') (cells' c) u) :
    b.Applies h' ext := by
  intro jit arg hscope tree applied
  have hval : (b.lam ext).val = b.lamLoc := LamBody.lam_val ext
  have hcell : (b.withHeap h').heap.cells (b.lam ext).val = b.body := by
    rw [hval]
    exact hroot
  obtain ⟨hterm, hside, hheap⟩ := interactAppLam_plain jit (b.withHeap h') (b.lam ext) arg
    (by rwa [LamBody.lam_ext_flag]) (by rwa [hcell])
  have hcells : applied.1.heap.cells =
      Function.update h'.cells b.lamLoc { arg with sub := true } := by
    rw [hheap, hval]
    rfl
  rw [hterm, hcell, hside, hcells]
  have hoff : ∀ c, c ≠ b.lamLoc →
      Function.update h'.cells b.lamLoc { arg with sub := true } c = h'.cells c :=
    fun c hc ↦ Function.update_of_ne hc _ _
  have htouched' : b.Touched (Function.update h'.cells b.lamLoc { arg with sub := true }) := by
    intro c hne hin
    rw [hoff c hne]
    exact htouched c hne hin
  -- a variable of the binder stands for the argument
  have hvar : ∀ u, Occ b.lamLoc u → Layer.Hops (valueView b.side
      (Function.update h'.cells b.lamLoc { arg with sub := true })) u { arg with sub := true } := by
    intro u hocc
    have hstands : StandsFor (Function.update h'.cells b.lamLoc { arg with sub := true }) u :=
      Or.inl ⟨hocc.1, by rw [hocc.2, Function.update_self]⟩
    refine .single ?_
    rw [valueView, if_pos hstands, hocc.2, Function.update_self]
  refine Substituted.unfolds_iff ⟨fun c ↦ htouched'.own hcov, fun c ↦ htouched'.same,
    fun c hreached hne hocc ↦ ?_, fun hocc ↦ ⟨true, hvar _ hocc⟩,
    fun c ↦ htouched'.eq_of_looks hscope⟩ hscope
  obtain ⟨u, hu, hhop⟩ := hhops _ hoff c ⟨hreached, hocc⟩ hne
  exact ⟨true, hhop.trans (hvar u hu)⟩

theorem touched_self : b.Touched b.cells := fun _ _ _ ↦ Or.inl rfl

/-- An erasing lambda without occurrences. -/
theorem applies_unused (hnone : ∀ c, ¬b.OccursAt c) (hcov : b.Covered)
    (hext : lamEraFlag ext = true) (hbody : ¬(b.body.tag = .uop ∧ b.body.ext ≠ Uop.kernel)) :
    b.Applies b.world.heap ext := by
  intro jit arg hscope tree applied
  have hval : (b.lam ext).val = b.lamLoc := LamBody.lam_val ext
  have happlied : applied = (b.world, b.body) := by
    have hera := interactAppLam_era jit b.world (b.lam ext) arg
      (by rwa [LamBody.lam_ext_flag]) (by rw [hval]; exact hbody)
    rwa [hval] at hera
  rw [happlied]
  exact Substituted.unfolds_iff ⟨fun c ↦ touched_self.own hcov, fun c ↦ touched_self.same,
    fun c hreached _ hocc ↦ absurd ⟨hreached, hocc⟩ (hnone c),
    fun hocc ↦ absurd ⟨.refl, hocc⟩ (hnone b.lamLoc),
    fun c ↦ touched_self.eq_of_looks hscope⟩ hscope

/-- The lambda whose occurrences have been rewired. -/
theorem linearised_rewired (hw : Rewired b.world.heap h' b.lamLoc locs ds)
    (hmem : ∀ c, c ∈ locs ↔ b.OccursAt c) (hcov : b.Covered) (hnodup : locs.Nodup)
    (hext : lamEraFlag ext = false) (hbody : ¬(b.body.tag = .uop ∧ b.body.ext ≠ Uop.kernel)) :
    b.Linearised h' ext where
  one _ := existsUnique_occ hw hmem hcov hnodup
  unused hnone := by
    obtain ⟨loc, locs, rfl⟩ := List.exists_cons_of_length_eq_add_one hw.len
    exact absurd ((hmem loc).1 List.mem_cons_self) (hnone loc)
  projections c c' hocc _ _ := by
    obtain ⟨d, hd, s, hproj⟩ := proj_of_occursAt hw hmem hocc
    have hval : (d.proj s).val = d.loc := proj_val (loc_fits hw d hd)
    have hnew := new_of_mem hw hd
    rw [hproj]
    refine ⟨?_, proj_plain, by omega, by omega⟩
    cases s
    · exact Or.inl rfl
    · exact Or.inr rfl
  distinct c c' hocc hocc' heq := by
    have hu := mem_wires hw (Or.inl ((hmem c).2 hocc))
    have hu' := mem_wires hw (Or.inl ((hmem c').2 hocc'))
    rw [heq] at hu
    exact wires_inj hw hu hu'
  linear c c' hc hc' hproj hproj' htag hval :=
    proj_unique hw hmem hcov hnodup hc hc' hproj hproj' htag hval
  applies := by
    refine applies_of_touched (touched_rewired hw hmem) hcov hext
      (rewired_root hw hmem hcov hnodup) hbody fun cells' hoff c hocc hne ↦ ?_
    have hu := mem_wires hw (Or.inl ((hmem c).2 hocc))
    have hchain : ChainAt cells' (termNew false .var 0 b.lamLoc) ds :=
      hw.chain.congr fun d hd ↦ hoff _ fun heq ↦ by
        have hnew := new_of_mem hw hd
        have hold := b.lamLoc_lt
        omega
    refine ⟨termNew false .var 0 b.lamLoc, ⟨rfl, Nat.mod_eq_of_lt b.fits⟩, ?_⟩
    rw [hoff c hne]
    exact hops_wires (loc_fits hw) hchain hu

/-- The lambda whose heap is left as it is, with at most one occurrence. -/
theorem linearised_self (hmem : ∀ c, c ∈ locs ↔ b.OccursAt c) (hcov : b.Covered)
    (hlen : locs.length ≤ 1) (hunused : locs = [] ↔ lamEraFlag ext = true)
    (hbody : ¬(b.body.tag = .uop ∧ b.body.ext ≠ Uop.kernel)) :
    b.Linearised b.world.heap ext := by
  have hlocs : ∀ c ∈ locs, ∀ c' ∈ locs, c = c' := by
    rcases locs with - | ⟨loc, - | ⟨loc', locs⟩⟩
    · simp
    · simp
    · simp at hlen
  have hsame : ∀ c c', b.OccursAt c → b.OccursAt c' → c = c' := fun c c' hocc hocc' ↦
    hlocs c ((hmem c).2 hocc) c' ((hmem c').2 hocc')
  refine ⟨fun ⟨c, hocc⟩ ↦ ⟨c, hocc, fun c' hocc' ↦ hsame c' c hocc' hocc⟩, fun hnone ↦ ?_,
    fun c c' hocc hocc' hne ↦ absurd (hsame c c' hocc hocc') hne,
    fun c c' hocc hocc' _ ↦ hsame c c' hocc hocc', fun c c' _ _ hproj _ _ _ ↦ ?_, ?_⟩
  · exact hunused.1 (List.eq_nil_iff_forall_not_mem.2 fun c hc ↦ hnone c ((hmem c).1 hc))
  · exact absurd hproj.high (Nat.not_lt.2 hproj.low)
  · cases hflag : lamEraFlag ext with
    | true =>
      have hnil := hunused.2 hflag
      exact applies_unused (fun c hocc ↦ by simpa [hnil] using (hmem c).2 hocc) hcov hflag hbody
    | false =>
      refine applies_of_touched touched_self hcov hflag rfl hbody fun cells' hoff c hocc hne ↦ ?_
      exact ⟨b.cells c, hocc.2, by rw [hoff c hne]; exact .refl⟩

end Sealed

/-- Sealing with automatic duplication makes the binder linear, in a body that is not a tensor
operation, of which the collector does not give up and sees every occurrence. -/
theorem linearised_lamSealExtWithAutoDup {locs : List ℕ} {lab lab' : DupLabel} {h' : NetHeap}
    {baseExt ext : ℕ} (hbody : ¬(b.body.tag = .uop ∧ b.body.ext ≠ Uop.kernel)) (hcov : b.Covered)
    (hcollect : autoDupCollect b.cells b.lamLoc lamAutodupMaxUses = some locs)
    (hbase : lamEraFlag baseExt = false)
    (hok : lamSealExtWithAutoDup b.world.heap lab b.lamLoc baseExt = .ok (h', lab', ext)) :
    b.Linearised h' ext := by
  have hcollected := collected hcollect
  have hmem := fun c ↦ hcollected.mem_iff_occursAt (c := c) hcov
  have hera : lamEraFlag (baseExt ||| lamEraMask) = true := by
    simp [-Nat.reducePow, lamEraFlag, lamEraMask]
  have hrun : lamSealExtWithAutoDup b.world.heap lab b.lamLoc baseExt =
      if locs.length = 0 then .ok (b.world.heap, lab, baseExt ||| lamEraMask)
      else if 1 < locs.length then
        autoDupLamAt b.world.heap lab b.lamLoc locs >>= fun p ↦ .ok (p.1, p.2, baseExt)
      else .ok (b.world.heap, lab, baseExt) := by
    have hcollect' : autoDupCollect b.world.heap.cells b.lamLoc lamAutodupMaxUses = some locs :=
      hcollect
    simp only [lamSealExtWithAutoDup, hcollect']
    exact if_neg hbody
  rw [hrun] at hok
  split_ifs at hok with hzero hmany
  · obtain ⟨rfl, hpair⟩ := Prod.mk.inj (Except.ok.inj hok)
    obtain ⟨-, rfl⟩ := Prod.mk.inj hpair
    exact linearised_self hmem hcov (by omega)
      (iff_of_true (List.eq_nil_of_length_eq_zero hzero) hera) hbody
  · obtain ⟨⟨h₁, lab₁⟩, hat, hok⟩ := bind_ok hok
    obtain ⟨rfl, hpair⟩ := Prod.mk.inj (Except.ok.inj hok)
    obtain ⟨-, rfl⟩ := Prod.mk.inj hpair
    obtain ⟨ds, hw⟩ := autoDupLamAt_ok hmany hcollected.nodup
      (fun c hc ↦ inHeap_of_reachedAt ((hmem c).1 hc).1) hat
    exact linearised_rewired hw hmem hcov hcollected.nodup hbase hbody
  · obtain ⟨rfl, hpair⟩ := Prod.mk.inj (Except.ok.inj hok)
    obtain ⟨-, rfl⟩ := Prod.mk.inj hpair
    refine linearised_self hmem hcov (by omega) (iff_of_false (fun hnil ↦ ?_) ?_) hbody
    · exact hzero (by rw [hnil]; rfl)
    · rw [hbase]
      exact Bool.false_ne_true

/-! ### A variable twice -/

/-- The body of `λx. (x x)`, or of `λx. x + x`. -/
def twiceHead (app : Bool) : Term :=
  if app then termNew false .app 0 2 else termNew false .uop Uop.add 2

def twiceCells (app : Bool) : ℕ → Term
  | 1 => twiceHead app
  | 2 => termNew false .var 0 1
  | 3 => termNew false .var 0 1
  | _ => .zero

theorem wholeHeap_le : (2 : ℕ) ^ 38 ≤ 2 ^ 38 := le_refl _

def twiceWorld (app : Bool) : World where
  heap := ⟨twiceCells app, 4, 2 ^ 38, wholeHeap_le⟩
  side _ := []
  binders := {1}
  shapes _ := none

theorem reached_twice {app : Bool} {x : Term} (h : (twiceWorld app).Reached (twiceHead app) x) :
    x ∈ [twiceHead app, termNew false .var 0 1] := by
  have hstep : ∀ app, ∀ x ∈ [twiceHead app, termNew false .var 0 1],
      ∀ y ∈ ownTerms (fun _ ↦ []) (twiceCells app) x,
        y ∈ [twiceHead app, termNew false .var 0 1] := by decide
  induction h with
  | refl => exact List.mem_cons_self
  | tail _ hkid ih => exact hstep app _ ih _ hkid

theorem isBinder_twice (app : Bool) : 1 ∈ (twiceWorld app).binders := rfl

theorem one_fits : 1 < 2 ^ 38 := by decide

def twiceBody (app : Bool) : DupBody where
  world := twiceWorld app
  lamLoc := 1
  isBinder := isBinder_twice app
  fits := one_fits
  layout x y hx hy := by
    have hall : ∀ app, ∀ x ∈ [twiceHead app, termNew false .var 0 1],
        ∀ y ∈ [twiceHead app, termNew false .var 0 1],
        ownCells (fun _ ↦ []) (twiceCells app) x ≠ [] →
        ownCells (fun _ ↦ []) (twiceCells app) y ≠ [] →
          x.val = y.val → nodeKind x = nodeKind y := by decide
    exact hall app x (reached_twice hx) y (reached_twice hy)
  owner x hx := by
    have hall : ∀ app, ∀ x ∈ [twiceHead app, termNew false .var 0 1],
        1 ∈ ownCells (fun _ ↦ []) (twiceCells app) x → x.tag = .var := by decide
    exact hall app x (reached_twice hx)
  separate x y hx hy := by
    have hall : ∀ app, ∀ x ∈ [twiceHead app, termNew false .var 0 1],
        ∀ y ∈ [twiceHead app, termNew false .var 0 1], x.val ≠ y.val →
        ∀ c ∈ ownCells (fun _ ↦ []) (twiceCells app) x,
          c ∉ ownCells (fun _ ↦ []) (twiceCells app) y := by decide
    exact hall app x (reached_twice hx) y (reached_twice hy)
  inHeap x hx c hc := by
    have hall : ∀ app, ∀ x ∈ [twiceHead app, termNew false .var 0 1],
        ∀ c ∈ readCells (fun _ ↦ []) (twiceCells app) x, c < 4 := by decide
    exact Or.inl (hall app x (reached_twice hx) c hc)
  lamLoc_lt := show 1 < 4 by decide
  unsubst := by cases app <;> rfl

theorem collect_twice (app : Bool) :
    autoDupCollect (twiceBody app).cells 1 lamAutodupMaxUses = some [2, 3] := by
  cases app <;>
    simp [autoDupCollect, collectLoop, cells, twiceBody, twiceWorld, twiceCells, twiceHead, Occ,
      Closed, IsKernel, termNew, walkCells, lamBodyArity, uopOf, lamUopArity, lamBodyMaxVisits,
      pushAll, lamAutodupMaxUses, Uop.add, Uop.kernel, List.range'_succ]

theorem firstLabel_low : (2 : ℕ) ^ 16 ≤ 2 ^ 16 := le_refl _

theorem firstLabel_high : (2 : ℕ) ^ 16 < 2 ^ 17 := by decide

/-- The counter for labels as it starts. -/
def firstLabel : DupLabel := ⟨2 ^ 16, firstLabel_low, firstLabel_high⟩

theorem covered_twice (app : Bool) : (twiceBody app).Covered := by
  have hstep : ∀ app, ∀ x ∈ [1, 2, 3], ∀ y ∈ ownKids (fun _ ↦ []) (twiceCells app) x,
      y ∈ [1, 2, 3] := by decide
  have hkids : ∀ app, ∀ x ∈ [1, 2, 3], ownKids (fun _ ↦ []) (twiceCells app) x =
      collectKids (twiceCells app) 1 x := by decide
  have hall : ∀ c, Worklist.Reach (ownKids (fun _ ↦ []) (twiceCells app)) 1 c →
      c ∈ [1, 2, 3] ∧ Worklist.Reach (collectKids (twiceCells app) 1) 1 c := by
    intro c hreached
    induction hreached with
    | refl => exact ⟨List.mem_cons_self, .refl⟩
    | tail _ hkid ih =>
      obtain ⟨hmem, hreach⟩ := ih
      exact ⟨hstep app _ hmem _ hkid, hreach.tail (hkids app _ hmem ▸ hkid)⟩
  exact fun c hocc ↦ (hall c hocc.1).2

/-- The two occurrences in `λx. (x x)` become the two projections of one duplication. -/
theorem linearised_twiceBody : ∃ h' lab',
    lamSealExtWithAutoDup (twiceBody true).world.heap firstLabel 1 0 = .ok (h', lab', 0) ∧
      (twiceBody true).Linearised h' 0 := by
  have hrun : ∃ h' lab',
      lamSealExtWithAutoDup (twiceBody true).world.heap firstLabel 1 0 = .ok (h', lab', 0) := by
    have hcollect : autoDupCollect (twiceBody true).world.heap.cells 1 lamAutodupMaxUses =
        some [2, 3] := collect_twice true
    simp only [lamSealExtWithAutoDup, hcollect]
    exact ⟨_, _, rfl⟩
  obtain ⟨h', lab', hrun⟩ := hrun
  exact ⟨h', lab', hrun, linearised_lamSealExtWithAutoDup (by decide) (covered_twice true)
    (collect_twice true) rfl hrun⟩

/-- In `λx. x + x` the binder stays in use twice: a tensor operation is left to the compiler. -/
theorem not_linearised_twiceBody :
    autoDupCollect (twiceBody false).cells 1 lamAutodupMaxUses = some [2, 3] ∧
      lamSealExtWithAutoDup (twiceBody false).world.heap firstLabel 1 0 =
        .ok ((twiceBody false).world.heap, firstLabel, 0) ∧
      ¬(twiceBody false).Linearised (twiceBody false).world.heap 0 := by
  refine ⟨collect_twice false, ?_, fun hlin ↦ ?_⟩
  · have hmark : lamBodyUsesVar (twiceCells false) 1 = true := by
      simp [lamBodyUsesVar, bodyWalk, twiceCells, twiceHead, EndsWalk, termNew, walkCells,
        lamBodyArity, uopOf, lamUopArity, lamBodyMaxVisits, pushAll, Uop.add, Uop.kernel,
        List.range'_succ]
    have hext : lamSealExt (twiceBody false).world.heap.cells 1 0 = 0 := if_pos hmark
    simp only [lamSealExtWithAutoDup, hext]
    exact if_pos (by decide)
  · have hocc : ∀ c ∈ [2, 3], (twiceBody false).OccursAt c := by
      have hkid : ∀ c ∈ [2, 3], c ∈ ownKids (fun _ ↦ []) (twiceCells false) 1 ∧
          Occ 1 (twiceCells false c) := by decide
      exact fun c hc ↦ ⟨.single (hkid c hc).1, (hkid c hc).2⟩
    obtain ⟨c, -, hc⟩ := hlin.one ⟨2, hocc 2 (by simp)⟩
    have h2 := hc 2 (hocc 2 (by simp))
    have h3 := hc 3 (hocc 3 (by simp))
    omega

end DupBody

end Thvm.Net
