import Thvm.ArenaPlanSpec

/-!
# The readers of a boundary

A boundary reads another one directly or through nodes that have no buffer of their
own. The last use that the planner records is that of a realized boundary whose
descent, through recorded nodes only, comes to the other one.
-/

namespace Thvm.ArenaPlan
open Relation Tlsf

namespace Pass

variable (S : Pass)

/-- The node has a buffer of its own, from this pass or from another one. -/
def Materialised (loc : ℕ) : Prop :=
  loc ∈ S.order ∨
    S.xpassIsShared loc = true ∧ ∃ info, S.bufferizeInfoFind loc = some info ∧ info.realized = true

/-- The node is computed within the kernel of the reader, or is read by it. -/
def Inlines (reader : UOpInfo) (node : Term) : Prop :=
  ∃ child ∈ S.children reader.op reader.loc,
    ReflTransGen (fun s t => ¬S.Materialised s.val ∧ t ∈ S.children s.ext s.val) child node

/-- The kernel at position `p` reads the output of the one at position `b`. -/
def ReadsAt (p b : ℕ) : Prop :=
  ∃ reader, S.order[p]? = some reader.loc ∧ S.bufferizeInfoFind reader.loc = some reader ∧
    ∃ node, S.Inlines reader node ∧ node.val = S.orderAt b

/-- From position `p` on there is a realized boundary whose descent comes to `b`. -/
def SeenFrom (p b : ℕ) : Prop :=
  ∃ k reader, p ≤ k ∧ S.order[k]? = some reader.loc ∧
    S.bufferizeInfoFind reader.loc = some reader ∧ reader.realized = true ∧
    S.Walks S.boundaryLastUsePosStops reader (S.orderAt b)

/-- The planner sees a reader of `b` at or after each of them. -/
def ReadersSeen (b : ℕ) : Prop :=
  S.xpassIsShared (S.orderAt b) = true ∨ ∀ p, b < p → S.ReadsAt p b → S.SeenFrom p b

variable {S} {p b : ℕ} {plan : Plan} {reader : UOpInfo}

theorem orderAt_of_lt (h : b < S.order.length) : S.order[b]? = some (S.orderAt b) := by
  rw [orderAt, List.getD_eq_getElem?_getD, List.getElem?_eq_getElem h, Option.getD_some]

/-- The descent stops at a planned boundary. -/
theorem stopsAt_of_planned (hb : b < S.order.length) (h : S.planned b = true) :
    S.StopsAt S.boundaryLastUsePosStops (S.orderAt b) := by
  have hplan := (Bool.and_eq_true _ _ ▸ h : _ ∧ _).1
  unfold arenaBoundaryIsPlannable at hplan
  split at hplan
  · cases hplan
  cases hfind : S.bufferizeInfoFind (S.orderAt b) with
  | none => simp [hfind] at hplan
  | some info =>
    have hloc := loc_of_find hfind
    rw [hfind] at hplan
    have huse : 0 < S.boundaryComputeLastUse info.loc := by
      have hne := (Bool.and_eq_true _ _ ▸ hplan : _ ∧ _).1
      exact Nat.pos_of_ne_zero (bne_iff_ne.mp hne)
    obtain ⟨-, -, -, -, -, -, -, info', hinfo', hreal⟩ := (le_lastUse Nat.one_pos).mp huse
    rw [hloc, hfind] at hinfo'
    obtain rfl := Option.some.inj hinfo'
    have hmem : S.orderAt b ∈ S.order := List.mem_of_getElem? (orderAt_of_lt hb)
    refine ⟨info, hfind, ?_⟩
    unfold boundaryLastUsePosStops boundaryIndexForLoc
    rw [hloc, List.findIdx?_isSome]
    have hany : S.order.any (· == S.orderAt b) = true :=
      List.any_eq_true.mpr ⟨_, hmem, beq_self_eq_true _⟩
    simp [hany, show info.realized = true from hreal]

theorem le_lastPos_iff (hb : b < S.order.length) (hplan : S.planned b = true)
    (hshared : S.xpassIsShared (S.orderAt b) = false) (hp : b < p) :
    p ≤ S.lastPos b ↔ S.SeenFrom p b := by
  have hstop := stopsAt_of_planned hb hplan
  unfold lastPos
  rw [hshared, if_neg Bool.false_ne_true, le_max_iff, or_iff_left (Nat.not_le_of_lt hp),
    le_lastUsePos (by omega)]
  constructor
  · rintro ⟨k, reader, hk, hpos, hfind, hreal, hwalk, -⟩
    exact ⟨k, reader, hk, hpos, hfind, hreal, hwalk⟩
  · rintro ⟨k, reader, hk, hpos, hfind, hreal, hwalk⟩
    exact ⟨k, reader, hk, hpos, hfind, hreal, hwalk, hstop⟩

theorem readers_iff (hb : b < S.order.length) (hplan : S.planned b = true) :
    (∀ p, S.ReadsAt p b → p ≤ S.lastPos b) ↔ S.ReadersSeen b := by
  cases hshared : S.xpassIsShared (S.orderAt b) with
  | true =>
    refine iff_of_true (fun p hp => ?_) (.inl hshared)
    obtain ⟨reader, hpos, -⟩ := hp
    have hlt := (List.getElem?_eq_some_iff.mp hpos).1
    rw [lastPos, if_pos hshared]
    omega
  | false =>
    constructor
    · exact fun h => .inr fun p hp hread => (le_lastPos_iff hb hplan hshared hp).mp (h p hread)
    · intro h p hread
      rcases Nat.lt_or_ge b p with hp | hp
      · have hseen := (h.resolve_left (by simp [hshared])) p hp hread
        exact (le_lastPos_iff hb hplan hshared hp).mpr hseen
      · exact hp.trans (le_lastPos hb)

/-- A plan is safe for the recorded lifetimes, and these reach to the last readers if
and only if the planner sees the readers. -/
theorem arenaCompute_spec (h : S.arenaCompute = .ok plan) :
    S.Safe plan ∧ ((∃ i, (plan.slots i).inArena = true) →
      ((∀ b, (plan.slots b).inArena = true → ∀ p, S.ReadsAt p b → p ≤ S.lastPos b) ↔
        ∀ b < S.order.length, S.planned b = true → S.ReadersSeen b)) := by
  have hsafe := arenaCompute_safe h
  refine ⟨hsafe, ?_⟩
  rintro ⟨i, hi⟩
  rcases hsafe.assigned with hnone | hall
  · rw [hnone i] at hi
    cases hi
  · constructor
    · intro hread b hb hplan
      exact (readers_iff hb hplan).mp (hread b ((hall b).mpr ⟨hb, hplan⟩))
    · intro hseen b hslot
      obtain ⟨hb, hplan⟩ := (hall b).mp hslot
      exact (readers_iff hb hplan).mpr (hseen b hb hplan)

/-- A descent goes through what the kernel of its reader inlines, as far as it is recorded. -/
theorem Inlines.walks {node : Term} (h : S.Inlines reader node)
    (hrec : ∀ s, S.Inlines reader s → ¬S.Materialised s.val →
      ∃ info, S.bufferizeInfoFind s.val = some info ∧ info.op = s.ext) :
    S.Walks S.boundaryLastUsePosStops reader node.val := by
  obtain ⟨child, hchild, hpath⟩ := h
  refine ⟨child.val, List.mem_eraseDups.mpr (List.mem_map_of_mem hchild), ?_⟩
  induction hpath with
  | refl => exact .refl
  | @tail s t hs hst ih =>
    refine ih.tail ?_
    obtain ⟨hmat, ht⟩ := hst
    obtain ⟨info, hfind, hop⟩ := hrec s ⟨child, hchild, hs⟩ hmat
    have hstop : S.boundaryLastUsePosStops info = false := by
      refine Bool.eq_false_iff.mpr fun hstop => hmat ?_
      unfold boundaryLastUsePosStops boundaryIndexForLoc at hstop
      rw [loc_of_find hfind, Bool.and_eq_true, Bool.or_eq_true, List.findIdx?_isSome,
        List.any_eq_true] at hstop
      rcases hstop.2 with ⟨loc, hmem, heq⟩ | hshared
      · exact .inl (eq_of_beq heq ▸ hmem)
      · exact .inr ⟨hshared, info, hfind, hstop.1⟩
    rw [passes, hfind]
    dsimp only
    rw [hstop, hop]
    exact List.mem_eraseDups.mpr (List.mem_map_of_mem ht)

/-- The readers are seen when the boundaries are marked realized and what they inline is
in the table. -/
theorem readersSeen_of_recorded
    (hmarked : ∀ (p : ℕ) (reader : UOpInfo), S.order[p]? = some reader.loc →
      S.bufferizeInfoFind reader.loc = some reader → reader.realized = true)
    (hrec : ∀ reader s, reader.loc ∈ S.order → S.Inlines reader s → ¬S.Materialised s.val →
      ∃ info, S.bufferizeInfoFind s.val = some info ∧ info.op = s.ext) : S.ReadersSeen b := by
  refine .inr fun p _ hread => ?_
  obtain ⟨reader, hpos, hfind, node, hnode, hval⟩ := hread
  have hwalk := hnode.walks (hrec reader · (List.mem_of_getElem? hpos))
  exact ⟨p, reader, Nat.le_refl p, hpos, hfind, hmarked p reader hpos hfind, hval ▸ hwalk⟩

end Pass

/-! ## A pass with more nodes than the table holds -/

/-- A chain of elementwise nodes that fills the table. -/
def crowdedChain : List UOpInfo :=
  (List.range 16378).map fun k => ⟨56 + 8 * k, Uop.neg, 1, false⟩

/-- The nodes in the order in which the classifying walk adds them, but for the chain,
which comes before the last one. -/
def crowdedNodes : List UOpInfo :=
  [⟨0, Uop.add, 0, true⟩, ⟨8, Uop.reduce, 1, true⟩, ⟨16, Uop.add, 1, false⟩,
    ⟨24, Uop.neg, 2, false⟩, ⟨32, Uop.reduce, 1, true⟩, ⟨40, Uop.reduce, 1, true⟩]

theorem crowdedChain_ge {loc : ℕ} (h : loc ∈ crowdedChain.map UOpInfo.loc) : 56 ≤ loc := by
  obtain ⟨info, hinfo, rfl⟩ := List.mem_map.mp h
  obtain ⟨k, -, rfl⟩ := List.mem_map.mp hinfo
  exact Nat.le_add_right 56 _

/-- What the cells below the chain point to. -/
def crowdedEdges : List (ℕ × ℕ × ℕ) :=
  [(0, Uop.reduce, 8), (1, Uop.reduce, 40), (8, Uop.add, 16), (16, Uop.neg, 24), (17, Uop.neg, 56),
    (24, Uop.reduce, 32), (40, Uop.neg, 48), (48, Uop.neg, 24)]

def crowdedCell (i : ℕ) : Term :=
  if i < 56 then
    match crowdedEdges.lookup i with
    | some (op, loc) => ⟨false, .uop, op, loc⟩
    | none => ⟨false, .ten, 0, 1⟩
  else if i % 8 = 0 ∧ i < 56 + 8 * 16377 then ⟨false, .uop, Uop.neg, i + 8⟩
  else ⟨false, .ten, 0, 1⟩

theorem crowdedCell_below (i : ℕ) (h : (crowdedCell i).tag = .uop) :
    (crowdedCell i).val < 131080 := by
  by_cases hi : i < 56
  · have hall : ∀ i < 56, (crowdedCell i).tag = .uop → (crowdedCell i).val < 131080 := by decide
    exact hall i hi h
  · unfold crowdedCell at h ⊢
    rw [if_neg hi] at h ⊢
    split at h
    · next hc =>
      rw [if_pos hc]
      dsimp only
      omega
    · cases h

/-- `root = ADD(R, P)` with `R = REDUCE(ADD(NEG(B), chain))` and `P = REDUCE(NEG(NEG(B)))`,
where the two `NEG(B)` are one node and `B`, `R`, `P` and `root` are the boundaries. The
table is full when the outer `NEG` below `P` is met. -/
def crowdedPass : Pass where
  resolved := crowdedCell
  heapNext := 131080
  nodes := crowdedNodes ++ crowdedChain
  order := [32, 8, 40, 0]
  boundaryDepth := fun loc =>
    if loc = 0 then some 3 else if loc = 8 then some 2 else if loc < 48 then some 1 else some 0
  xpassIsShared := fun _ => false
  termShapeIn := fun t => some (if t.val = 32 then [64] else [1])
  termDtypeIn := fun _ => some .fp32
  spanHolds := false
  arenaEnabled := true
  resolved_below := crowdedCell_below
  nodes_below := by
    intro info hinfo
    rcases List.mem_append.mp hinfo with h | h
    · have hall : ∀ info ∈ crowdedNodes, info.loc < 131080 := by decide
      exact hall info h
    · obtain ⟨k, hk, rfl⟩ := List.mem_map.mp h
      have hlt := List.mem_range.mp hk
      dsimp only
      omega
  nodes_nodup := by
    rw [List.map_append, List.nodup_append]
    refine ⟨by decide, ?_, ?_⟩
    · rw [crowdedChain, List.map_map]
      refine List.Nodup.map (fun k l hkl => ?_) List.nodup_range
      exact Nat.eq_of_mul_eq_mul_left (by decide) (Nat.add_left_cancel hkl)
    · intro a ha b hb
      have hlt : ∀ a ∈ crowdedNodes.map UOpInfo.loc, a < 56 := by decide
      have hge := crowdedChain_ge hb
      have ha := hlt a ha
      omega
  nodes_length := by
    rw [List.length_append, crowdedChain, List.length_map, List.length_range]
    decide
  order_nodup := by decide
  order_length := by decide

namespace Crowded
open Pass

theorem find_of_nodes {loc : ℕ} {info : UOpInfo}
    (h : crowdedNodes.find? (·.loc == loc) = some info) :
    crowdedPass.bufferizeInfoFind loc = some info := by
  change (crowdedNodes ++ crowdedChain).find? _ = _
  rw [List.find?_append, h, Option.some_or]

theorem find_root : crowdedPass.bufferizeInfoFind 0 = some ⟨0, Uop.add, 0, true⟩ :=
  find_of_nodes rfl

theorem find_R : crowdedPass.bufferizeInfoFind 8 = some ⟨8, Uop.reduce, 1, true⟩ :=
  find_of_nodes rfl

theorem find_B : crowdedPass.bufferizeInfoFind 32 = some ⟨32, Uop.reduce, 1, true⟩ :=
  find_of_nodes rfl

theorem find_P : crowdedPass.bufferizeInfoFind 40 = some ⟨40, Uop.reduce, 1, true⟩ :=
  find_of_nodes rfl

theorem find_missing : crowdedPass.bufferizeInfoFind 48 = none := by
  refine List.find?_eq_none.mpr fun info hinfo heq => ?_
  have hloc : info.loc = 48 := eq_of_beq heq
  rcases List.mem_append.mp hinfo with h | h
  · have hall : ∀ info ∈ crowdedNodes, info.loc ≠ 48 := by decide
    exact hall info h hloc
  · have hge := crowdedChain_ge (List.mem_map_of_mem h)
    omega

variable {stops : UOpInfo → Bool} {loc child : ℕ} {reader info : UOpInfo}

theorem passes_of_find (h : crowdedPass.bufferizeInfoFind loc = some info)
    (hstop : stops info = false) :
    crowdedPass.passes stops loc = crowdedPass.childLocs info.op loc := by
  rw [passes, h]
  dsimp only
  rw [hstop]
  rfl

theorem passes_of_stop (h : crowdedPass.bufferizeInfoFind loc = some info)
    (hstop : stops info = true) : crowdedPass.passes stops loc = [] := by
  rw [passes, h]
  dsimp only
  rw [hstop]
  rfl

/-- From a node that is not passed a descent goes nowhere else. -/
theorem eq_of_reach {a b : ℕ} (hnil : crowdedPass.passes stops a = [])
    (h : Relation.ReflTransGen (fun s t => t ∈ crowdedPass.passes stops s) a b) : b = a := by
  rcases Relation.ReflTransGen.cases_head h with heq | ⟨c, hc, -⟩
  · exact heq.symm
  · rw [hnil] at hc
    cases hc

/-- `R` comes to `B`. -/
theorem walks_B (h₁ : stops ⟨16, Uop.add, 1, false⟩ = false)
    (h₂ : stops ⟨24, Uop.neg, 2, false⟩ = false) :
    crowdedPass.Walks stops ⟨8, Uop.reduce, 1, true⟩ 32 := by
  refine ⟨16, by decide, ?_⟩
  have h16 : (24 : ℕ) ∈ crowdedPass.passes stops 16 := by
    rw [passes_of_find (find_of_nodes rfl) h₁]
    decide
  have h24 : (32 : ℕ) ∈ crowdedPass.passes stops 24 := by
    rw [passes_of_find (find_of_nodes rfl) h₂]
    decide
  exact (Relation.ReflTransGen.single h16).tail h24

theorem walks_child (h : loc ∈ crowdedPass.childLocs reader.op reader.loc) :
    crowdedPass.Walks stops reader loc := ⟨loc, h, .refl⟩

/-! Last uses -/

theorem lastUse_pos {depth : ℕ} (hp : reader ∈ crowdedNodes) (hreal : reader.realized = true)
    (hdepth : crowdedPass.boundaryDepth reader.loc = some depth) (hpos : 0 < depth)
    (hwalk : crowdedPass.Walks boundaryLastUseStops reader loc)
    (hfind : crowdedPass.bufferizeInfoFind loc = some info) (hinfo : info.realized = true) :
    crowdedPass.boundaryComputeLastUse loc ≠ 0 := by
  have hle : 1 ≤ crowdedPass.boundaryComputeLastUse loc :=
    (le_lastUse Nat.one_pos).mpr ⟨reader, List.mem_append_left _ hp, hreal, depth, hdepth, hpos,
      hwalk, info, hfind, hinfo⟩
  exact Nat.ne_of_gt hle

theorem order_cases {k : ℕ} (h : crowdedPass.order[k]? = some loc) :
    k = 0 ∧ loc = 32 ∨ k = 1 ∧ loc = 8 ∨ k = 2 ∧ loc = 40 ∨ k = 3 ∧ loc = 0 := by
  change [32, 8, 40, 0][k]? = some loc at h
  match k with
  | 0 => simpa using h.symm
  | 1 => simpa using h.symm
  | 2 => simpa using h.symm
  | 3 => simpa using h.symm
  | k + 4 => simp at h

theorem lastUsePos_le (loc : ℕ) : crowdedPass.boundaryComputeLastUsePos loc ≤ 3 := by
  by_contra h
  obtain ⟨k, p, hk, hpos, -⟩ := (le_lastUsePos (by decide : 0 < 4)).mp (Nat.lt_of_not_le h)
  rcases order_cases hpos with h | h | h | h <;> omega

theorem lastUsePos_root (h : loc ∈ crowdedPass.childLocs Uop.add 0)
    (hstop : crowdedPass.StopsAt crowdedPass.boundaryLastUsePosStops loc) :
    crowdedPass.boundaryComputeLastUsePos loc = 3 :=
  le_antisymm (lastUsePos_le loc) ((le_lastUsePos (by decide)).mpr
    ⟨3, ⟨0, Uop.add, 0, true⟩, Nat.le_refl 3, rfl, find_root, rfl, walks_child h, hstop⟩)

/-- Neither `P` nor the root comes to `B`. -/
theorem lastUsePos_B : crowdedPass.boundaryComputeLastUsePos 32 = 1 := by
  have hstop : crowdedPass.StopsAt crowdedPass.boundaryLastUsePosStops 32 :=
    ⟨_, find_B, rfl⟩
  refine le_antisymm ?_ ((le_lastUsePos Nat.one_pos).mpr
    ⟨1, ⟨8, Uop.reduce, 1, true⟩, Nat.le_refl 1, rfl, find_R, rfl, walks_B rfl rfl, hstop⟩)
  by_contra h
  obtain ⟨k, p, hk, hpos, hfind, -, ⟨child, hchild, hreach⟩, -⟩ :=
    (le_lastUsePos (by decide : 0 < 2)).mp (Nat.lt_of_not_le h)
  rcases order_cases hpos with ⟨rfl, -⟩ | ⟨rfl, -⟩ | ⟨-, hloc⟩ | ⟨-, hloc⟩
  · exact absurd hk (by decide)
  · exact absurd hk (by decide)
  · have hp : p = ⟨40, Uop.reduce, 1, true⟩ :=
      Option.some.inj (hfind.symm.trans (hloc ▸ find_P))
    subst hp
    have hmem : child ∈ [48] := hchild
    rw [List.mem_singleton] at hmem
    subst hmem
    have hnil : crowdedPass.passes crowdedPass.boundaryLastUsePosStops 48 = [] := by
      rw [passes, find_missing]
    exact absurd (eq_of_reach hnil hreach) (by decide)
  · have hp : p = ⟨0, Uop.add, 0, true⟩ :=
      Option.some.inj (hfind.symm.trans (hloc ▸ find_root))
    subst hp
    have hmem : child ∈ [8, 40] := hchild
    have hnil : crowdedPass.passes crowdedPass.boundaryLastUsePosStops child = [] := by
      rcases List.mem_cons.mp hmem with rfl | hmem
      · exact passes_of_stop find_R rfl
      · rw [List.mem_singleton.mp hmem]
        exact passes_of_stop find_P rfl
    have heq := eq_of_reach hnil hreach
    rw [← heq] at hmem
    exact absurd hmem (by decide)

/-! The plan -/

theorem nbytes_of (hfind : crowdedPass.bufferizeInfoFind (crowdedPass.orderAt loc) = some info) :
    crowdedPass.arenaBoundaryNbytes loc = if crowdedPass.orderAt loc = 32 then 256 else 4 := by
  have hlt : crowdedPass.orderAt loc < 131080 := by
    have hmem := List.mem_of_find?_eq_some hfind
    exact loc_of_find hfind ▸ crowdedPass.nodes_below info hmem
  unfold arenaBoundaryNbytes
  rw [hfind]
  have hval : (termNew false .uop info.op (crowdedPass.orderAt loc)).val =
      crowdedPass.orderAt loc := Nat.mod_eq_of_lt (by omega)
  change dtypeStorageBytes .fp32 (shapeNumel (if (termNew false .uop info.op
    (crowdedPass.orderAt loc)).val = 32 then [64] else [1])) = _
  rw [hval]
  split <;> rfl

theorem nbytes_eq : crowdedPass.arenaBoundaryNbytes 0 = 256 ∧
    crowdedPass.arenaBoundaryNbytes 1 = 4 ∧ crowdedPass.arenaBoundaryNbytes 2 = 4 :=
  ⟨nbytes_of find_B, nbytes_of find_R, nbytes_of find_P⟩

theorem planned_of (hfind : crowdedPass.bufferizeInfoFind (crowdedPass.orderAt loc) = some info)
    (huse : crowdedPass.boundaryComputeLastUse info.loc ≠ 0) (hcount : info.consumerCount = 1)
    (hbytes : crowdedPass.arenaBoundaryNbytes loc ≠ 0) : crowdedPass.planned loc = true := by
  have hspan : crowdedPass.spanHolds = false := rfl
  unfold planned arenaBoundaryIsPlannable
  rw [hfind, hspan]
  simp [huse, hcount, hbytes]

theorem planned_root : crowdedPass.planned 3 = false := by
  have hfind : crowdedPass.bufferizeInfoFind (crowdedPass.orderAt 3) =
    some ⟨0, Uop.add, 0, true⟩ := find_root
  unfold planned arenaBoundaryIsPlannable
  rw [hfind]
  simp

theorem planned_eq : crowdedPass.planned 0 = true ∧ crowdedPass.planned 1 = true ∧
    crowdedPass.planned 2 = true := by
  obtain ⟨h0, h1, h2⟩ := nbytes_eq
  refine ⟨planned_of find_B ?_ rfl (by simp [h0]), planned_of find_R ?_ rfl (by simp [h1]),
    planned_of find_P ?_ rfl (by simp [h2])⟩
  · exact @lastUse_pos 32 ⟨8, Uop.reduce, 1, true⟩ _ 2 (by decide) rfl rfl (by decide)
      (walks_B rfl rfl) find_B rfl
  · exact @lastUse_pos 8 ⟨0, Uop.add, 0, true⟩ _ 3 (by decide) rfl rfl (by decide)
      (walks_child (by decide)) find_R rfl
  · exact @lastUse_pos 40 ⟨0, Uop.add, 0, true⟩ _ 3 (by decide) rfl rfl (by decide)
      (walks_child (by decide)) find_P rfl

theorem lastPos_of {i last : ℕ} (hloc : crowdedPass.orderAt i = loc)
    (h : crowdedPass.boundaryComputeLastUsePos loc = last) :
    crowdedPass.lastPos i = max last i := by
  have hshared : crowdedPass.xpassIsShared (crowdedPass.orderAt i) = false := rfl
  rw [lastPos, hshared, if_neg Bool.false_ne_true, hloc, h]

theorem lastPos_eq : crowdedPass.lastPos 0 = 1 ∧ crowdedPass.lastPos 1 = 3 ∧
    crowdedPass.lastPos 2 = 3 := by
  have h8 : crowdedPass.boundaryComputeLastUsePos 8 = 3 :=
    lastUsePos_root (by decide) ⟨_, find_R, rfl⟩
  have h40 : crowdedPass.boundaryComputeLastUsePos 40 = 3 :=
    lastUsePos_root (by decide) ⟨_, find_P, rfl⟩
  have hB : crowdedPass.lastPos 0 = max 1 0 := lastPos_of rfl lastUsePos_B
  have hR : crowdedPass.lastPos 1 = max 3 1 := lastPos_of rfl h8
  have hP : crowdedPass.lastPos 2 = max 3 2 := lastPos_of rfl h40
  exact ⟨hB, hR, hP⟩

theorem arenaEvents_eq : arenaSortEvents crowdedPass.arenaEvents =
    [⟨0, 0, true⟩, ⟨1, 1, true⟩, ⟨2, 2, true⟩, ⟨2, 0, false⟩, ⟨4, 1, false⟩, ⟨4, 2, false⟩] := by
  obtain ⟨hp0, hp1, hp2⟩ := planned_eq
  obtain ⟨hl0, hl1, hl2⟩ := lastPos_eq
  have hevents : crowdedPass.arenaEvents = [⟨0, 0, true⟩, ⟨2, 0, false⟩, ⟨1, 1, true⟩,
      ⟨4, 1, false⟩, ⟨2, 2, true⟩, ⟨4, 2, false⟩] := by
    unfold arenaEvents
    rw [show List.range crowdedPass.order.length = [0, 1, 2, 3] from rfl]
    simp [hp0, hp1, hp2, planned_root, hl0, hl1, hl2]
  rw [hevents]
  decide

theorem sum_three {p : ℕ → Bool} {f : ℕ → ℕ} (hp0 : p 0 = true) (hp1 : p 1 = true)
    (hp2 : p 2 = true) (hp3 : p 3 = false) :
    ([0, 1, 2, 3].map fun i => if p i then f i else 0).sum = f 0 + f 1 + f 2 := by
  simp [hp0, hp1, hp2, hp3, Nat.add_assoc]

theorem arenaTotal_eq : crowdedPass.arenaTotal = 264 := by
  obtain ⟨hp0, hp1, hp2⟩ := planned_eq
  obtain ⟨h0, h1, h2⟩ := nbytes_eq
  have hrange : List.range crowdedPass.order.length = [0, 1, 2, 3] := rfl
  rw [arenaTotal, hrange, sum_three hp0 hp1 hp2 planned_root, h0, h1, h2]
  norm_num

/-- The replay on the arena of this size. -/
theorem arenaCompute_eq : crowdedPass.arenaCompute = (tlsfInit 768).bind fun tlsf =>
    crowdedPass.replay [⟨0, 0, true⟩, ⟨1, 1, true⟩, ⟨2, 2, true⟩, ⟨2, 0, false⟩, ⟨4, 1, false⟩,
      ⟨4, 2, false⟩] ⟨tlsf, fun _ => ⟨0, 0, false⟩, 0⟩ := by
  have henabled : ¬(¬crowdedPass.arenaEnabled ∨ crowdedPass.order = []) := by decide
  have hsome : ¬∀ i < crowdedPass.order.length, ¬crowdedPass.planned i := fun h =>
    h 0 (by decide) planned_eq.1
  rw [arenaCompute, if_neg henabled, if_neg hsome, arenaTotal_eq, if_neg (by decide),
    arenaEvents_eq]
  rfl

theorem ok_of_slot {x : Except Stop Plan} {i : ℕ}
    (h : (x.toOption.map fun plan => (plan.slots i).inArena) = some true) :
    ∃ plan, x = .ok plan ∧ (plan.slots i).inArena = true := by
  cases x with
  | error stop => cases h
  | ok plan => exact ⟨plan, rfl, Option.some.inj h⟩

theorem arenaCompute_ok :
    ∃ plan, crowdedPass.arenaCompute = .ok plan ∧ (plan.slots 0).inArena = true := by
  rw [arenaCompute_eq]
  exact ok_of_slot (by decide +kernel)

/-- The kernel of `P` reads `B` through two nodes without a buffer. -/
theorem readsAt_P : crowdedPass.ReadsAt 2 0 := by
  have hinline : ∀ loc, loc ∉ [32, 8, 40, 0] → ¬crowdedPass.Materialised loc := by
    rintro loc hloc (hmem | ⟨hshared, -⟩)
    · exact hloc hmem
    · cases hshared
  refine ⟨⟨40, Uop.reduce, 1, true⟩, rfl, find_P, ⟨false, .uop, Uop.reduce, 32⟩,
    ⟨⟨false, .uop, Uop.neg, 48⟩, by decide, ?_⟩, rfl⟩
  refine (Relation.ReflTransGen.single (b := ⟨false, .uop, Uop.neg, 24⟩) ?_).tail ?_
  · exact ⟨hinline 48 (by decide), by decide⟩
  · exact ⟨hinline 24 (by decide), by decide⟩

end Crowded

/-- With a full table the planner closes `B` after position 1 and `P` reads it at position 2. -/
theorem crowdedPass_readers : crowdedPass.nodes.length = bufferizeNodesCap ∧
    ∃ plan, crowdedPass.arenaCompute = .ok plan ∧ (plan.slots 0).inArena = true ∧
      crowdedPass.ReadsAt 2 0 ∧ ¬2 ≤ crowdedPass.lastPos 0 := by
  obtain ⟨plan, hplan, hslot⟩ := Crowded.arenaCompute_ok
  have hlast : crowdedPass.lastPos 0 = 1 := Crowded.lastPos_eq.1
  refine ⟨?_, plan, hplan, hslot, Crowded.readsAt_P, by omega⟩
  change (crowdedNodes ++ crowdedChain).length = _
  rw [List.length_append, crowdedChain, List.length_map, List.length_range]
  rfl

/-- Its slots are safe for the recorded lifetimes, but a reader is not seen. -/
theorem crowdedPass_plan : ∃ plan, crowdedPass.Safe plan ∧
    ¬∀ b < crowdedPass.order.length, crowdedPass.planned b = true → crowdedPass.ReadersSeen b := by
  obtain ⟨plan, hplan, hslot⟩ := Crowded.arenaCompute_ok
  obtain ⟨hsafe, hiff⟩ := Pass.arenaCompute_spec hplan
  refine ⟨plan, hsafe, fun hseen => ?_⟩
  have hle := (hiff ⟨0, hslot⟩).mpr hseen 0 hslot 2 Crowded.readsAt_P
  have hlast : crowdedPass.lastPos 0 = 1 := Crowded.lastPos_eq.1
  omega

end Thvm.ArenaPlan
