import Thvm.FrontLoop
import Thvm.FrontSuccessors

/-!
# What the loop of the front search keeps

A front holds terms that are equal to the side of the goal it starts from, modulo the
equations that its terms were reached with. While nothing is given up and no rule slips below
the count of those that have been tried, all rewrites of an expanded term are in the set.
-/

namespace Thvm.Atp
open RewriteChains TransitionRuns

/-! ## Insertion -/

namespace Fronts

variable {f f' f'' : Fronts} {t : FTerm} {col : Colour} {anti parent ni lo hi : ℕ}
  {eqs : List (FTerm × FTerm)} {rules rules' : List ProverRule} {w : FrontWorld}

/-- The side of the goal that a front starts from. -/
def seed (f : Fronts) : Colour → FTerm
  | .red => f.seedRed
  | .green => f.seedGreen

def Has (f : Fronts) (t : FTerm) : Prop := ∃ i < f.nodes.length, (f.node i).term = t

/-- The fronts have not met, and nothing was left out. -/
structure Clean (f : Fronts) : Prop where
  joined : f.joined = false
  full : f.full = false
  nTrunc : f.nTrunc = 0
  interrupted : f.interrupted = false

/-- Every node is equal to the seed of its colour, modulo the equations that it was reached
with, and where the fronts have met so are the sides of the goal. -/
structure Sound (f : Fronts) : Prop where
  size : f.nodes.length ≤ mnfMaxNodes
  equal : ∀ i < f.nodes.length,
    EqualMod (f.reached i) (f.seed (f.node i).colour) (f.node i).term
  meet : f.joined = true → EqualMod f.meetEqs f.seedGreen f.seedRed
  capped : ∀ i < f.nodes.length, (f.node i).term.ArityCapped
  qred : ∀ i ∈ f.qred, i < f.nodes.length
  qgreen : ∀ i ∈ f.qgreen, i < f.nodes.length

/-- The nodes that were there are as they were, and new ones have not been expanded. -/
structure Grows (f f' : Fronts) : Prop where
  table : f.toAtpMnf.Extends f'.toAtpMnf
  reached : ∀ i < f.nodes.length, f'.reached i = f.reached i
  expanded : ∀ i < f.nodes.length, f'.expanded i = f.expanded i
  fresh : ∀ i, f.nodes.length ≤ i → i < f'.nodes.length → f'.expanded i = false
  seen : f'.nRulesSeen = f.nRulesSeen
  seed : f'.seed = f.seed
  clean : f'.Clean → f.Clean

theorem Grows.refl (f : Fronts) : f.Grows f :=
  ⟨.refl _, fun _ _ => rfl, fun _ _ => rfl, fun _ h h' => absurd h' (Nat.not_lt.mpr h), rfl, rfl,
    id⟩

theorem Grows.trans (h : f.Grows f') (h' : f'.Grows f'') : f.Grows f'' where
  table := h.table.trans h'.table
  reached i hi := (h'.reached i (hi.trans_le h.table.1)).trans (h.reached i hi)
  expanded i hi := (h'.expanded i (hi.trans_le h.table.1)).trans (h.expanded i hi)
  fresh i hi hi'' := by
    by_cases hi' : i < f'.nodes.length
    · rw [h'.expanded i hi', h.fresh i hi hi']
    · exact h'.fresh i (Nat.le_of_not_lt hi') hi''
  seen := h'.seen.trans h.seen
  seed := h'.seed.trans h.seed
  clean hc := h.clean (h'.clean hc)

theorem Grows.has (h : f.Grows f') (ht : f.Has t) : f'.Has t := by
  obtain ⟨i, hi, hterm⟩ := ht
  refine ⟨i, hi.trans_le h.table.1, ?_⟩
  rw [h.table.2 i hi]
  exact hterm

theorem mnfLookup_some {m : AtpMnf} {idx : ℕ} (h : m.mnfLookup t = some idx) :
    idx < m.nodes.length ∧ (m.node idx).term = t := by
  obtain ⟨hlt, hterm, -⟩ := List.findIdx?_eq_some_iff_getElem.mp h
  have hnode : m.node idx = m.nodes[idx] := by
    rw [AtpMnf.node, List.getElem?_eq_getElem hlt, Option.getD_some]
  exact ⟨hlt, (congrArg MnfNode.term hnode).trans (kboEq_iff.mp hterm)⟩

/-- A term that is equal to the seed of its colour is put into the set. -/
theorem Sound.insert (anti : ℕ) (h : f.Sound)
    (hequal : EqualMod (f.base parent ++ eqs) (f.seed col) t) (ht : t.ArityCapped) :
    (f.insert eqs t col anti parent).Sound ∧
      f.Grows (f.insert eqs t col anti parent) ∧
      ((f.insert eqs t col anti parent).Clean → (f.insert eqs t col anti parent).Has t) := by
  unfold Fronts.insert
  simp only
  split
  · next idx hidx =>
    obtain ⟨hlt, hterm⟩ := mnfLookup_some hidx
    split
    · next hcol =>
      have hm : f.mnfInsert t col anti parent = { f.toAtpMnf with
          meetA := idx
          meetBParent := parent
          meetTerm := t
          meetBCol := col
          joined := true } := by
        rw [AtpMnf.mnfInsert, hidx]
        exact if_pos hcol
      rw [hm]
      have hmeet : EqualMod (f.reached idx ++ (f.base parent ++ eqs)) f.seedGreen f.seedRed := by
        have hold : EqualMod (f.reached idx ++ (f.base parent ++ eqs)) (f.seed (f.node idx).colour)
            t := (hterm ▸ h.equal idx hlt).mono (List.subset_append_left _ _)
        have hnew := hequal.mono (List.subset_append_right (f.reached idx) _)
        cases hc : (f.node idx).colour with
        | green =>
          cases col with
          | green => exact absurd hc hcol
          | red =>
            rw [hc] at hold
            exact hold.trans hnew.symm
        | red =>
          cases col with
          | red => exact absurd hc hcol
          | green =>
            rw [hc] at hold
            exact hnew.trans hold.symm
      exact ⟨⟨h.size, h.equal, fun _ => hmeet, h.capped, h.qred, h.qgreen⟩,
        ⟨⟨Nat.le_refl _, fun _ _ => rfl⟩, fun _ _ => rfl, fun _ _ => rfl,
          fun _ hi hi' => absurd hi' (Nat.not_lt.mpr hi), rfl, rfl,
          fun hc => absurd hc.joined Bool.true_eq_false_eq_False⟩,
        fun hc => absurd hc.joined Bool.true_eq_false_eq_False⟩
    · exact ⟨h, .refl f, fun _ => ⟨idx, hlt, hterm⟩⟩
  · next hnone =>
    split
    · exact ⟨⟨h.size, h.equal, h.meet, h.capped, h.qred, h.qgreen⟩,
        ⟨.refl _, fun _ _ => rfl, fun _ _ => rfl,
          fun _ hi hi' => absurd hi' (Nat.not_lt.mpr hi), rfl, rfl,
          fun hc => absurd hc.full Bool.true_eq_false_eq_False⟩,
        fun hc => absurd hc.full Bool.true_eq_false_eq_False⟩
    · next hroom =>
      obtain ⟨n, hm, hnterm, hncol⟩ : ∃ n, f.mnfInsert t col anti parent = f.toAtpMnf.push n ∧
          n.term = t ∧ n.colour = col := by
        refine ⟨⟨t, if parent = mnfRootParent then f.nodes.length else parent, col, anti⟩,
          ?_, rfl, rfl⟩
        rw [AtpMnf.mnfInsert, hnone]
        exact if_neg hroom
      rw [hm]
      have hlast : ∀ i, i < (f.toAtpMnf.push n).nodes.length → i < f.nodes.length ∨
          i = f.nodes.length := by
        intro i hi
        rw [AtpMnf.length_push] at hi
        exact Nat.lt_succ_iff_lt_or_eq.mp hi
      have hgrow : f.nodes.length < (f.toAtpMnf.push n).nodes.length := by
        rw [AtpMnf.length_push]
        exact Nat.lt_succ_self _
      refine ⟨⟨?_, fun i hi => ?_, h.meet, fun i hi => ?_, fun i hi => ?_, fun i hi => ?_⟩,
        ⟨AtpMnf.Extends.push, fun i hi => Function.update_of_ne hi.ne _ _,
          fun i hi => Function.update_of_ne hi.ne _ _, fun i hi hi' => ?_, rfl, rfl,
          fun hc => ⟨hc.joined, hc.full, hc.nTrunc, hc.interrupted⟩⟩,
        fun _ => ⟨f.nodes.length, hgrow, ?_⟩⟩
      · change (f.toAtpMnf.push n).nodes.length ≤ mnfMaxNodes
        rw [AtpMnf.length_push]
        exact Nat.lt_of_not_le hroom
      · change EqualMod (Function.update f.reached f.nodes.length (f.base parent ++ eqs) i)
          (f.seed ((f.toAtpMnf.push n).node i).colour) ((f.toAtpMnf.push n).node i).term
        rcases hlast i hi with hi | rfl
        · rw [AtpMnf.node_push_of_lt hi, Function.update_of_ne hi.ne]
          exact h.equal i hi
        · rw [AtpMnf.node_push_self, Function.update_self, hnterm, hncol]
          exact hequal
      · rcases hlast i hi with hi | rfl
        · rw [AtpMnf.node_push_of_lt hi]
          exact h.capped i hi
        · rw [AtpMnf.node_push_self, hnterm]
          exact ht
      · simp only at hi
        split at hi
        · rcases List.mem_cons.mp hi with rfl | hi
          · exact hgrow
          · exact (h.qred i hi).trans hgrow
        · exact (h.qred i hi).trans hgrow
      · simp only at hi
        split at hi
        · exact (h.qgreen i hi).trans hgrow
        · rcases List.mem_cons.mp hi with rfl | hi
          · exact hgrow
          · exact (h.qgreen i hi).trans hgrow
      · obtain rfl := (hlast i hi').resolve_left (Nat.not_lt.mpr hi)
        exact Function.update_self ..
      · rw [AtpMnf.node_push_self]
        exact hnterm

/-- The same set with other marks. -/
theorem Sound.congr (h : f.Sound) (htable : f'.toAtpMnf = f.toAtpMnf)
    (hreached : f'.reached = f.reached)
    (hseed : f'.seedRed = f.seedRed ∧ f'.seedGreen = f.seedGreen) (hmeet : f'.meetEqs = f.meetEqs)
    (hqred : f'.qred ⊆ f.qred) (hqgreen : f'.qgreen ⊆ f.qgreen) : f'.Sound where
  size := by
    rw [htable]
    exact h.size
  equal i hi := by
    have hseeds : f'.seed = f.seed := by
      funext c
      cases c with
      | red => exact hseed.1
      | green => exact hseed.2
    rw [htable] at hi ⊢
    rw [hreached, hseeds]
    exact h.equal i hi
  meet hjoined := by
    rw [hmeet, hseed.1, hseed.2]
    rw [htable] at hjoined
    exact h.meet hjoined
  capped i hi := by
    rw [htable] at hi ⊢
    exact h.capped i hi
  qred i hi := by
    rw [htable]
    exact h.qred i (hqred hi)
  qgreen i hi := by
    rw [htable]
    exact h.qgreen i (hqgreen hi)

/-! ## Expansion -/

theorem Sound.insertSucc (h : f.Sound) (hcapped : CappedEqs eqs) (hni : ni < f.nodes.length)
    {u : FTerm × Bool} (hstep : OneStep eqs (f.node ni).term u.1) :
    (insertSucc eqs (f.node ni) ni f u).Sound ∧ f.Grows (insertSucc eqs (f.node ni) ni f u) ∧
      ((insertSucc eqs (f.node ni) ni f u).Clean →
        (insertSucc eqs (f.node ni) ni f u).Has u.1) := by
  unfold Fronts.insertSucc
  split
  · next hjoined =>
    refine ⟨h, .refl f, fun hc => ?_⟩
    rw [hc.joined] at hjoined
    cases hjoined
  · have hroot : ni ≠ mnfRootParent := by
      have hsize := h.size
      simp only [mnfRootParent, mnfMaxNodes] at hsize ⊢
      omega
    have hterm : EqualMod (f.base ni ++ eqs) (f.seed (f.node ni).colour) u.1 := by
      rw [base, if_neg hroot]
      exact ((h.equal ni hni).mono (List.subset_append_left _ _)).trans
        ((hstep.equalMod hcapped).mono (List.subset_append_right _ _))
    have ht := hstep.capped hcapped (h.capped ni hni)
    split
    · exact h.insert _ hterm ht
    · have hmark : Sound { f with irred := Function.update f.irred ni false } :=
        h.congr rfl rfl ⟨rfl, rfl⟩ rfl (List.Subset.refl _) (List.Subset.refl _)
      obtain ⟨hsound, hgrows, hhas⟩ := hmark.insert (f.node ni).anti hterm ht
      exact ⟨hsound, ⟨hgrows.table, hgrows.reached, hgrows.expanded, hgrows.fresh, hgrows.seen,
        hgrows.seed, fun hc => ⟨(hgrows.clean hc).joined, (hgrows.clean hc).full,
          (hgrows.clean hc).nTrunc, (hgrows.clean hc).interrupted⟩⟩, hhas⟩

/-- All successors of a node are put into the set. -/
theorem Sound.insertSuccs {succ : List (FTerm × Bool)} {n : MnfNode} (h : f.Sound)
    (hcapped : CappedEqs eqs) (hni : ni < f.nodes.length) (hn : f.node ni = n)
    (hstep : ∀ u ∈ succ, OneStep eqs n.term u.1) :
    (succ.foldl (Fronts.insertSucc eqs n ni) f).Sound ∧
      f.Grows (succ.foldl (Fronts.insertSucc eqs n ni) f) ∧
      ((succ.foldl (Fronts.insertSucc eqs n ni) f).Clean →
        ∀ u ∈ succ, (succ.foldl (Fronts.insertSucc eqs n ni) f).Has u.1) := by
  induction succ generalizing f with
  | nil => exact ⟨h, .refl f, fun _ u hu => nomatch hu⟩
  | cons u us ih =>
    obtain ⟨hu, hus⟩ := List.forall_mem_cons.mp hstep
    obtain ⟨hsound, hgrows, hhas⟩ := h.insertSucc hcapped hni (hn ▸ hu)
    rw [hn] at hsound hgrows hhas
    obtain ⟨hsound', hgrows', hhas'⟩ := ih hsound (hni.trans_le hgrows.table.1)
      ((hgrows.table.2 ni hni).trans hn) hus
    rw [List.foldl_cons]
    refine ⟨hsound', hgrows.trans hgrows', fun hc => List.forall_mem_cons.mpr ⟨?_, hhas' hc⟩⟩
    exact hgrows'.has (hhas (hgrows'.clean hc))

/-- The set has every rewrite of node `i` by the rules. -/
def Done (f : Fronts) (rules : List ProverRule) (i : ℕ) : Prop :=
  ∀ q u back, StepAt (Fires ((f.node i).anti < mnfMaxAnti) rules back) q (f.node i).term u → f.Has u

theorem Done.grows (hg : f.Grows f') (hi : ni < f.nodes.length) (h : f.Done rules ni) :
    f'.Done rules ni := by
  intro q u back hstep
  rw [hg.table.2 ni hi] at hstep
  exact hg.has (h q u back hstep)

theorem Done.append (h : f.Done rules ni) (h' : f.Done rules' ni) :
    f.Done (rules ++ rules') ni := by
  intro q u back hstep
  obtain ⟨a, b, hsub, ⟨r, hr, hfires⟩, hu⟩ := hstep
  rcases List.mem_append.mp hr with hr | hr
  · exact h q u back ⟨a, b, hsub, ⟨r, hr, hfires⟩, hu⟩
  · exact h' q u back ⟨a, b, hsub, ⟨r, hr, hfires⟩, hu⟩

theorem Sound.expandNode (h : f.Sound) (hcapped : CappedEqs (sides rules))
    (hni : ni < f.nodes.length) (lo hi : ℕ) :
    (f.mnfExpandNode w rules ni lo hi).Sound ∧ f.Grows (f.mnfExpandNode w rules ni lo hi) ∧
      ((f.mnfExpandNode w rules ni lo hi).Clean →
        (f.mnfExpandNode w rules ni lo hi).Done ((rules.drop lo).take (hi - lo)) ni) := by
  have hcollect : (f.collect w rules ni lo hi).Sound :=
    h.congr rfl rfl ⟨rfl, rfl⟩ rfl (List.Subset.refl _) (List.Subset.refl _)
  have hclean : (f.collect w rules ni lo hi).Clean → f.Clean ∧
      Calm w.cut f.ticks (f.successors w rules ni lo hi).2.1 ∧
      (f.successors w rules ni lo hi).2.2.length < mnfSuccCap := by
    rintro ⟨hjoined, hfull, htrunc, hinterrupted⟩
    simp only [collect] at hjoined hfull htrunc hinterrupted
    rw [Bool.or_eq_false_iff] at hinterrupted
    split at htrunc
    · cases htrunc
    · next hroom =>
      refine ⟨⟨hjoined, hfull, htrunc, hinterrupted.1⟩, fun k hk hk' => ?_, Nat.lt_of_not_le hroom⟩
      exact Bool.eq_false_iff.mpr (List.any_eq_false.mp hinterrupted.2 k
        (List.mem_range'_1.mpr ⟨hk, by omega⟩))
  have hgrow : f.Grows (f.collect w rules ni lo hi) :=
    ⟨.refl _, fun _ _ => rfl, fun _ _ => rfl, fun _ hi hi' => absurd hi' (Nat.not_lt.mpr hi),
      rfl, rfl,
      fun hc => (hclean hc).1⟩
  have hsteps : ∀ u ∈ (f.successors w rules ni lo hi).2.2,
      OneStep (sides rules) (f.node ni).term u.1 := by
    intro u hu
    refine (mnfSuccessors_oneStep hu).mono fun eq heq => ?_
    obtain ⟨r, hr, rfl⟩ := List.mem_map.mp heq
    exact List.mem_map_of_mem (List.mem_of_mem_drop (List.mem_of_mem_take hr))
  obtain ⟨hsound, hgrows, hhas⟩ := hcollect.insertSuccs hcapped hni rfl hsteps
  refine ⟨hsound, hgrow.trans hgrows, fun hc q u back hstep => ?_⟩
  obtain ⟨-, hcalm, hroom⟩ := hclean (hgrows.clean hc)
  have hnode : (f.mnfExpandNode w rules ni lo hi).node ni = f.node ni :=
    (hgrow.trans hgrows).table.2 ni hni
  rw [hnode] at hstep
  have hfound := (mnfSuccessors_complete (h.capped ni hni) hcalm
    (by rwa [Nat.zero_add])).2 q u back hstep
  exact hhas hc _ hfound

/-! ## The loops -/

theorem mnfLoopGuard_spec (w : FrontWorld) (h : f.Sound) :
    (f.mnfLoopGuard w).2.Sound ∧ f.Grows (f.mnfLoopGuard w).2 ∧
      ((f.mnfLoopGuard w).1 = true → ¬(f.mnfLoopGuard w).2.Clean) ∧
      (f.mnfLoopGuard w).2.nodes = f.nodes ∧ (f.mnfLoopGuard w).2.expanded = f.expanded := by
  unfold mnfLoopGuard
  have hgrows : ∀ f' : Fronts, f'.toAtpMnf = f.toAtpMnf → f'.reached = f.reached →
      f'.expanded = f.expanded → f'.nRulesSeen = f.nRulesSeen → f'.seed = f.seed →
      (f'.Clean → f.Clean) → f.Grows f' := by
    intro f' htable hreached hexpanded hseen hseed hclean
    refine ⟨?_, fun i _ => congrFun hreached i, fun i _ => congrFun hexpanded i, ?_, hseen, hseed,
      hclean⟩
    · rw [htable]
      exact .refl _
    · intro i hi hi'
      rw [htable] at hi'
      exact absurd hi' (Nat.not_lt.mpr hi)
  split
  · exact ⟨h.congr rfl rfl ⟨rfl, rfl⟩ rfl (List.Subset.refl _) (List.Subset.refl _),
      hgrows _ rfl rfl rfl rfl rfl fun hc => ⟨hc.joined, hc.full, hc.nTrunc, hc.interrupted⟩,
      nofun, rfl, rfl⟩
  · exact ⟨h.congr rfl rfl ⟨rfl, rfl⟩ rfl (List.Subset.refl _) (List.Subset.refl _),
      hgrows _ rfl rfl rfl rfl rfl fun hc => (nomatch hc.interrupted),
      fun _ hc => (nomatch hc.interrupted), rfl, rfl⟩
  · exact ⟨h.congr rfl rfl ⟨rfl, rfl⟩ rfl (List.Subset.refl _) (List.Subset.refl _),
      hgrows _ rfl rfl rfl rfl rfl fun hc => (nomatch hc.interrupted),
      fun _ hc => (nomatch hc.interrupted), rfl, rfl⟩

/-- The expanded nodes among `k` from `ni` on are tried with the slice of the rules. -/
theorem Sound.reexpandFrom (lo hi : ℕ) (hcapped : CappedEqs (sides rules)) (k : ℕ) (h : f.Sound)
    (hk : ni + k ≤ f.nodes.length) :
    (Fronts.reexpandFrom w rules lo hi k ni f).Sound ∧
      f.Grows (Fronts.reexpandFrom w rules lo hi k ni f) ∧
      ((Fronts.reexpandFrom w rules lo hi k ni f).Clean → ∀ i, ni ≤ i → i < ni + k →
        f.expanded i = true → (Fronts.reexpandFrom w rules lo hi k ni f).Done
          ((rules.drop lo).take (hi - lo)) i) := by
  induction k generalizing ni f with
  | zero => exact ⟨h, .refl f, fun _ i hi hi' => absurd hi (by omega)⟩
  | succ k ih =>
    rw [Fronts.reexpandFrom]
    split
    · next hjoined =>
      refine ⟨h, .refl f, fun hc => ?_⟩
      rw [hc.joined] at hjoined
      cases hjoined
    · split
      · obtain ⟨hguard, hgrows, hstop, hnodes, hexpanded⟩ := mnfLoopGuard_spec w h
        generalize f.mnfLoopGuard w = g at *
        simp only
        split
        · next hhalt => exact ⟨hguard, hgrows, fun hc => absurd hc (hstop hhalt)⟩
        · have hni : ni < g.2.nodes.length := by
            rw [hnodes]
            omega
          obtain ⟨hsound, hexpand, hdone⟩ := hguard.expandNode (w := w) hcapped hni lo hi
          have hlen := hexpand.table.1
          have hnext : ni + 1 + k ≤ (g.2.mnfExpandNode w rules ni lo hi).nodes.length := by
            rw [hnodes] at hlen
            omega
          obtain ⟨hsound', hrest, hdone'⟩ := ih hsound hnext
          refine ⟨hsound', (hgrows.trans hexpand).trans hrest, fun hc i hi hi' hexp => ?_⟩
          by_cases heq : i = ni
          · subst heq
            exact (hdone (hrest.clean hc)).grows hrest (hni.trans_le hlen)
          · refine hdone' hc i (by omega) (by omega) ?_
            rw [(hgrows.trans hexpand).expanded i (by omega)]
            exact hexp
      · next hunexpanded =>
        obtain ⟨hsound', hrest, hdone'⟩ := ih h (show ni + 1 + k ≤ f.nodes.length by omega)
        refine ⟨hsound', hrest, fun hc i hi hi' hexp => ?_⟩
        by_cases heq : i = ni
        · subst heq
          exact absurd hexp hunexpanded
        · exact hdone' hc i (by omega) (by omega) hexp

/-- Every rewrite of every expanded node by the rules is in the set. -/
def Closed (f : Fronts) (rules : List ProverRule) : Prop :=
  ∀ i < f.nodes.length, f.expanded i = true → f.Done rules i

/-- A part of a call, with the rules of the call. -/
structure Advances (rules : List ProverRule) (f f' : Fronts) : Prop where
  sound : f'.Sound
  seen : f'.nRulesSeen = f.nRulesSeen
  clean : f'.Clean → f.Clean
  closed : f'.Clean → f.Closed rules → f'.Closed rules

theorem Advances.trans (h : Advances rules f f') (h' : Advances rules f' f'') :
    Advances rules f f'' where
  sound := h'.sound
  seen := h'.seen.trans h.seen
  clean hc := h.clean (h'.clean hc)
  closed hc hclosed := h'.closed hc (h.closed (h'.clean hc) hclosed)

/-- Growth without expansion. -/
theorem Grows.advances (rules : List ProverRule) (h : f.Grows f') (hsound : f'.Sound) :
    Advances rules f f' where
  sound := hsound
  seen := h.seen
  clean := h.clean
  closed _ hclosed i hi hexp := by
    by_cases hold : i < f.nodes.length
    · rw [h.expanded i hold] at hexp
      exact (hclosed i hold hexp).grows h hold
    · rw [h.fresh i (Nat.le_of_not_lt hold) hi] at hexp
      cases hexp

theorem Sound.expandOnce (hcapped : CappedEqs (sides rules)) (h : f.Sound)
    (hni : ni < f.nodes.length) : Advances rules f (f.expandOnce w rules ni) := by
  unfold Fronts.expandOnce
  split
  · exact ⟨h, rfl, id, fun _ => id⟩
  · obtain ⟨hsound, hgrows, hdone⟩ := h.expandNode (w := w) hcapped hni 0 rules.length
    have hclean : ∀ {g : Fronts} {expanded : ℕ → Bool}, { g with expanded := expanded }.Clean →
        g.Clean := fun hc => ⟨hc.joined, hc.full, hc.nTrunc, hc.interrupted⟩
    have hadvance := hgrows.advances rules hsound
    simp only
    refine ⟨hsound.congr rfl rfl ⟨rfl, rfl⟩ rfl (List.Subset.refl _) (List.Subset.refl _),
      hgrows.seen, fun hc => hgrows.clean (hclean hc), fun hc hclosed i hi hexp => ?_⟩
    by_cases heq : i = ni
    · subst heq
      have hall := hdone (hclean hc)
      rw [List.drop_zero, Nat.sub_zero, List.take_length] at hall
      exact hall
    · simp only [Function.update_of_ne heq] at hexp
      exact hadvance.closed (hclean hc) hclosed i hi hexp

theorem mnfPop_spec {q : List ℕ} (hq : q ≠ []) (lastIrred : Bool) :
    (mnfPop q lastIrred).1 ∈ q ∧ (mnfPop q lastIrred).2 ⊆ q := by
  unfold mnfPop
  split
  · refine ⟨?_, List.dropLast_subset q⟩
    rw [List.getLastD_eq_getLast?, List.getLast?_eq_getLast_of_ne_nil hq]
    exact List.getLast_mem hq
  · refine ⟨?_, List.tail_subset q⟩
    cases q with
    | nil => exact absurd rfl hq
    | cons i q => exact List.mem_cons_self

theorem advances_redTurn (hcapped : CappedEqs (sides rules)) (h : f.Sound) :
    Advances rules f (f.redTurn w rules) := by
  unfold redTurn
  split
  · exact ⟨h, rfl, id, fun _ => id⟩
  · next hq =>
    obtain ⟨hmem, hsub⟩ := mnfPop_spec hq f.redLastIrred
    have hpop : Sound { f with qred := (mnfPop f.qred f.redLastIrred).2 } :=
      h.congr rfl rfl ⟨rfl, rfl⟩ rfl hsub (List.Subset.refl _)
    have hnext := hpop.expandOnce (w := w) hcapped (h.qred _ hmem)
    exact ⟨hnext.sound.congr rfl rfl ⟨rfl, rfl⟩ rfl (List.Subset.refl _) (List.Subset.refl _),
      hnext.seen,
      fun hc => have hc' := hnext.clean ⟨hc.joined, hc.full, hc.nTrunc, hc.interrupted⟩
        ⟨hc'.joined, hc'.full, hc'.nTrunc, hc'.interrupted⟩,
      fun hc hclosed => hnext.closed ⟨hc.joined, hc.full, hc.nTrunc, hc.interrupted⟩ hclosed⟩

theorem advances_greenTurn (hcapped : CappedEqs (sides rules)) (h : f.Sound) :
    Advances rules f (f.greenTurn w rules) := by
  unfold greenTurn
  split
  · exact ⟨h, rfl, id, fun _ => id⟩
  · next hq =>
    obtain ⟨hmem, hsub⟩ := mnfPop_spec hq f.greenLastIrred
    have hpop : Sound { f with qgreen := (mnfPop f.qgreen f.greenLastIrred).2 } :=
      h.congr rfl rfl ⟨rfl, rfl⟩ rfl (List.Subset.refl _) hsub
    have hnext := hpop.expandOnce (w := w) hcapped (h.qgreen _ hmem)
    exact ⟨hnext.sound.congr rfl rfl ⟨rfl, rfl⟩ rfl (List.Subset.refl _) (List.Subset.refl _),
      hnext.seen,
      fun hc => have hc' := hnext.clean ⟨hc.joined, hc.full, hc.nTrunc, hc.interrupted⟩
        ⟨hc'.joined, hc'.full, hc'.nTrunc, hc'.interrupted⟩,
      fun hc hclosed => hnext.closed ⟨hc.joined, hc.full, hc.nTrunc, hc.interrupted⟩ hclosed⟩

theorem advances_rounds (hcapped : CappedEqs (sides rules)) (budget : ℕ) (h : f.Sound) :
    Advances rules f (rounds w rules budget f) := by
  induction budget generalizing f with
  | zero => exact ⟨h, rfl, id, fun _ => id⟩
  | succ budget ih =>
    rw [rounds]
    split
    · exact ⟨h, rfl, id, fun _ => id⟩
    · obtain ⟨hguard, hgrows, -⟩ := mnfLoopGuard_spec w h
      generalize f.mnfLoopGuard w = g at *
      have hfirst := hgrows.advances rules hguard
      simp only
      split
      · exact hfirst
      · have hred := advances_redTurn (w := w) hcapped hguard
        split
        · exact hfirst.trans hred
        · refine (hfirst.trans hred).trans ?_
          split
          · exact ih hred.sound
          · have hgreen := advances_greenTurn (w := w) hcapped hred.sound
            exact hgreen.trans (ih hgreen.sound)

/-- A call leaves every expanded node done with all rules. -/
theorem mnfStep_spec (hcapped : CappedEqs (sides rules)) (budget : ℕ) (h : f.Sound) :
    (f.mnfStep w rules budget).Sound ∧ ((f.mnfStep w rules budget).Clean → f.Clean ∧
      (f.Closed (rules.take f.nRulesSeen) → (f.mnfStep w rules budget).Closed rules ∧
        rules.length ≤ (f.mnfStep w rules budget).nRulesSeen)) := by
  unfold mnfStep
  split
  · next hjoined =>
    refine ⟨h, fun hc => ?_⟩
    rw [hc.joined] at hjoined
    cases hjoined
  · have hfeed : (f.feedNewRules w rules).Sound ∧ ((f.feedNewRules w rules).Clean → f.Clean ∧
        (f.Closed (rules.take f.nRulesSeen) → (f.feedNewRules w rules).Closed rules ∧
          rules.length ≤ (f.feedNewRules w rules).nRulesSeen)) := by
      unfold feedNewRules
      split
      · obtain ⟨hsound, hgrows, hdone⟩ := h.reexpandFrom (w := w) f.nRulesSeen rules.length
          hcapped f.nodes.length (Nat.le_of_eq (Nat.zero_add _))
        have hadvance := hgrows.advances (rules.take f.nRulesSeen) hsound
        generalize Fronts.reexpandFrom w rules f.nRulesSeen rules.length f.nodes.length 0 f = g at *
        have hclean : Clean { g with nRulesSeen := rules.length } → g.Clean := fun hc =>
          ⟨hc.joined, hc.full, hc.nTrunc, hc.interrupted⟩
        refine ⟨hsound.congr rfl rfl ⟨rfl, rfl⟩ rfl (List.Subset.refl _) (List.Subset.refl _),
          fun hc => ⟨hgrows.clean (hclean hc), fun hclosed => ⟨fun i hi hexp => ?_,
            Nat.le_refl _⟩⟩⟩
        have hold := hadvance.closed (hclean hc) hclosed i hi hexp
        have hnew : g.Done (rules.drop f.nRulesSeen) i := by
          by_cases hlt : i < f.nodes.length
          · have hslice := hdone (hclean hc) i (Nat.zero_le i) (by omega)
              ((hgrows.expanded i hlt).symm.trans hexp)
            rwa [← List.length_drop, List.take_length] at hslice
          · rw [hgrows.fresh i (Nat.le_of_not_lt hlt) hi] at hexp
            cases hexp
        have hall := hold.append hnew
        rwa [List.take_append_drop] at hall
      · next hseen =>
        refine ⟨h, fun hc => ⟨hc, fun hclosed => ⟨?_, Nat.le_of_not_lt hseen⟩⟩⟩
        rwa [List.take_of_length_le (Nat.le_of_not_lt hseen)] at hclosed
    obtain ⟨hsound, hfed⟩ := hfeed
    have hrounds := advances_rounds (w := w) hcapped budget hsound
    refine ⟨hrounds.sound, fun hc => ?_⟩
    obtain ⟨hclean, hdone⟩ := hfed (hrounds.clean hc)
    refine ⟨hclean, fun hclosed => ?_⟩
    obtain ⟨hall, hseen⟩ := hdone hclosed
    exact ⟨hrounds.closed hc hall, hrounds.seen ▸ hseen⟩

end Fronts

/-! ## Runs -/

namespace FrontLoop
open Fronts

variable {s s₀ : FrontLoop} {ops : List LoopOp} {rules rules' : List ProverRule}

def Capped (goal : FTerm × FTerm) : Prop := goal.1.ArityCapped ∧ goal.2.ArityCapped

/-- The operations that the prover performs. Equations and goals have narrow terms only. -/
def Allowed (_ : FrontLoop) : LoopOp → Prop
  | .prover (.addRule lhs rhs _ _) => Capped (lhs, rhs)
  | .prover (.composeRule _ rhs) => rhs.ArityCapped
  | .prover (.setGoal goal _) => ∀ g ∈ goal, Capped g
  | .prover (.aliasGoal goal) => Capped goal
  | .prover .create => False
  | .prover (.expand _ _ _) => False
  | _ => True

/-- No rule that has not been tried slips below the count of those that have, and none below
it changes. -/
def Kept (s : FrontLoop) (op : LoopOp) : Prop :=
  ∀ f, s.fronts = some f →
    match op with
    | .prover (.addRule _ _ _ _) => f.nRulesSeen ≤ s.prover.rules.length
    | .prover (.dropRule i) => f.nRulesSeen ≤ i ∨ s.prover.rules.length ≤ f.nRulesSeen
    | .prover (.composeRule i _) => f.nRulesSeen ≤ i
    | _ => True

structure Inv (s : FrontLoop) : Prop where
  rules : ∀ r ∈ s.prover.rules, Capped (r.lhs, r.rhs)
  goal : ∀ g ∈ s.prover.goal, Capped g
  fronts : ∀ f, s.fronts = some f → f.Sound

/-- The expanded nodes are done with the rules below the count. -/
def Tried (s : FrontLoop) : Prop :=
  ∀ f, s.fronts = some f → f.Clean → f.Closed (s.prover.rules.take f.nRulesSeen)

theorem Inv.cappedEqs (h : s.Inv) : CappedEqs (sides s.prover.rules) := by
  intro eq heq
  obtain ⟨r, hr, rfl⟩ := List.mem_map.mp heq
  exact h.rules r hr

theorem sound_mnfCreate {goal : FTerm × FTerm} (h : Capped goal) :
    (Fronts.mnfCreate goal).Sound ∧ ∀ i < (Fronts.mnfCreate goal).nodes.length,
      (Fronts.mnfCreate goal).expanded i = false := by
  unfold Fronts.mnfCreate
  extract_lets f
  have hempty : f.Sound := ⟨Nat.zero_le _, fun i hi => absurd hi (Nat.not_lt_zero i),
    fun hj => (nomatch hj), fun i hi => absurd hi (Nat.not_lt_zero i), fun i hi => (nomatch hi),
    fun i hi => (nomatch hi)⟩
  have hseed : EqualMod (f.base mnfRootParent ++ []) (f.seed .green) goal.1 := .refl goal.1
  obtain ⟨hgreen, hgrows, -⟩ := hempty.insert 0 hseed h.1
  have hseed' : EqualMod ((f.insert [] goal.1 .green 0 mnfRootParent).base mnfRootParent ++ [])
      ((f.insert [] goal.1 .green 0 mnfRootParent).seed .red) goal.2 := by
    rw [hgrows.seed]
    exact .refl goal.2
  obtain ⟨hred, hgrows', -⟩ := hgreen.insert 0 hseed' h.2
  exact ⟨hred, fun i hi => (hgrows.trans hgrows').fresh i (Nat.zero_le i) hi⟩

/-- A rule of the new list is one of the old list, or dead. -/
theorem closed_of_sub {f : Fronts} (hsub : ∀ r ∈ rules', r ∈ rules ∨
      r.lhs = mnfDeadSentinel ∧ r.rhs = mnfDeadSentinel) (h : f.Closed rules) :
    f.Closed rules' := by
  intro i hi hexp q u back hstep
  obtain ⟨a, b, hat, ⟨r, hr, hfires⟩, hu⟩ := hstep
  rcases hsub r hr with hr | ⟨hlhs, hrhs⟩
  · exact h i hi hexp q u back ⟨a, b, hat, ⟨r, hr, hfires⟩, hu⟩
  · rw [hlhs, hrhs, mnfFire_dead] at hfires
    split at hfires
    · cases hfires.2.2
    · cases hfires

theorem Inv.step (h : s.Inv) {op : LoopOp} (hop : s.Allowed op) : (s.apply op).Inv := by
  cases op with
  | create =>
    cases hf : s.fronts with
    | some f =>
      have hsame : s.apply .create = s := by
        unfold apply
        simp only [hf]
      rw [hsame]
      exact h
    | none =>
      unfold apply
      simp only [hf]
      refine ⟨h.rules, h.goal, fun f hf => ?_⟩
      obtain ⟨goal, hgoal, rfl⟩ := Option.map_eq_some_iff.mp hf
      exact (sound_mnfCreate (h.goal goal hgoal)).1
  | step w budget =>
    refine ⟨h.rules, h.goal, fun f' hf' => ?_⟩
    obtain ⟨f, hf, rfl⟩ := Option.map_eq_some_iff.mp hf'
    exact (Fronts.mnfStep_spec h.cappedEqs budget (h.fronts f hf)).1
  | prover op =>
    cases op with
    | addRule lhs rhs orient fvi =>
      refine ⟨fun r hr => ?_, h.goal, h.fronts⟩
      rcases List.mem_append.mp hr with hr | hr
      · exact h.rules r hr
      · obtain rfl := List.mem_singleton.mp hr
        exact hop
    | killRule i =>
      refine ⟨fun r hr => ?_, h.goal, h.fronts⟩
      obtain ⟨j, hj⟩ := List.mem_iff_getElem?.mp hr
      obtain ⟨r₀, hr₀, rfl⟩ := Option.map_eq_some_iff.mp ((List.getElem?_modify ..).symm.trans hj)
      split
      · exact ⟨.leaf _, .leaf _⟩
      · exact h.rules r₀ (List.mem_of_getElem? hr₀)
    | dropRule i => exact ⟨fun r hr => h.rules r (List.mem_of_mem_eraseIdx hr), h.goal, h.fronts⟩
    | composeRule i rhs =>
      have hfronts : (s.apply (.prover (.composeRule i rhs))).fronts = s.fronts := rfl
      have hrules : ∀ r ∈ (s.prover.apply (fun _ => false) (.composeRule i rhs)).rules,
          Capped (r.lhs, r.rhs) := by
        rw [FrontState.apply]
        split
        · exact h.rules
        · next r hr =>
          intro r' hr'
          rcases List.mem_or_eq_of_mem_set hr' with hr' | rfl
          · exact h.rules r' hr'
          · exact ⟨(h.rules r (List.mem_of_getElem? hr)).1, hop⟩
      have hgoal : (s.prover.apply (fun _ => false) (.composeRule i rhs)).goal = s.prover.goal := by
        rw [FrontState.apply]
        split <;> rfl
      refine ⟨hrules, ?_, h.fronts⟩
      change ∀ g ∈ (s.prover.apply (fun _ => false) (.composeRule i rhs)).goal, Capped g
      rw [hgoal]
      exact h.goal
    | note e => exact ⟨h.rules, h.goal, h.fronts⟩
    | setGoal goal existential => exact ⟨h.rules, hop, h.fronts⟩
    | aliasGoal goal =>
      refine ⟨h.rules, fun g hg => ?_, fun f hf => ?_⟩
      · obtain rfl := Option.some.inj hg
        exact hop
      · cases hf
    | create => exact hop.elim
    | expand ni lo hi => exact hop.elim

theorem Tried.step (h : s.Inv) (htried : s.Tried) {op : LoopOp} (hop : s.Allowed op)
    (hkept : s.Kept op) : (s.apply op).Tried := by
  cases op with
  | create =>
    cases hf : s.fronts with
    | some f =>
      have hsame : s.apply .create = s := by
        unfold apply
        simp only [hf]
      rw [hsame]
      exact htried
    | none =>
      unfold apply
      simp only [hf]
      intro f hf _ i hi hexp
      obtain ⟨goal, hgoal, rfl⟩ := Option.map_eq_some_iff.mp hf
      rw [(sound_mnfCreate (h.goal goal hgoal)).2 i hi] at hexp
      cases hexp
  | step w budget =>
    intro f' hf' hc
    obtain ⟨f, hf, rfl⟩ := Option.map_eq_some_iff.mp hf'
    obtain ⟨hclean, hdone⟩ := (Fronts.mnfStep_spec h.cappedEqs budget (h.fronts f hf)).2 hc
    obtain ⟨hall, hseen⟩ := hdone (htried f hf hclean)
    change (f.mnfStep w s.prover.rules budget).Closed (s.prover.rules.take _)
    rwa [List.take_of_length_le hseen]
  | prover op =>
    -- the rules below the count are the ones from before, or dead
    have hsub : ∀ f, s.fronts = some f →
        (∀ r ∈ (s.prover.apply (fun _ => false) op).rules.take f.nRulesSeen,
          r ∈ s.prover.rules.take f.nRulesSeen ∨
            r.lhs = mnfDeadSentinel ∧ r.rhs = mnfDeadSentinel) →
        f.Clean → f.Closed ((s.prover.apply (fun _ => false) op).rules.take f.nRulesSeen) :=
      fun f hf hsub hc => closed_of_sub hsub (htried f hf hc)
    cases op with
    | addRule lhs rhs orient fvi =>
      intro f hf hc
      refine hsub f hf (fun r hr => .inl ?_) hc
      change r ∈ (s.prover.rules ++ _).take _ at hr
      rwa [List.take_append_of_le_length (hkept f hf)] at hr
    | killRule i =>
      intro f hf hc
      refine hsub f hf (fun r hr => ?_) hc
      obtain ⟨j, hj⟩ := List.mem_iff_getElem?.mp hr
      rw [List.getElem?_take] at hj
      split at hj
      · next hlt =>
        obtain ⟨r₀, hr₀, rfl⟩ :=
          Option.map_eq_some_iff.mp ((List.getElem?_modify ..).symm.trans hj)
        split
        · exact .inr ⟨rfl, rfl⟩
        · refine .inl (List.mem_iff_getElem?.mpr ⟨j, ?_⟩)
          rw [List.getElem?_take, if_pos hlt, hr₀]
      · cases hj
    | dropRule i =>
      intro f hf hc
      refine hsub f hf (fun r hr => .inl ?_) hc
      change r ∈ (s.prover.rules.eraseIdx i).take _ at hr
      rcases hkept f hf with hbelow | hall
      · rwa [List.take_eraseIdx_eq_take_of_le _ _ _ hbelow] at hr
      · rw [List.take_of_length_le hall]
        exact List.mem_of_mem_eraseIdx (List.mem_of_mem_take hr)
    | composeRule i rhs =>
      intro f hf hc
      refine hsub f hf (fun r hr => .inl ?_) hc
      rw [FrontState.apply] at hr
      split at hr
      · exact hr
      · change r ∈ (s.prover.rules.set i _).take _ at hr
        rwa [List.take_set_of_le (hkept f hf)] at hr
    | note e => exact htried
    | setGoal goal existential => exact htried
    | aliasGoal goal =>
      intro f hf
      cases hf
    | create => exact hop.elim
    | expand ni lo hi => exact hop.elim

/-- Before the first equation. -/
structure Start (s : FrontLoop) : Prop where
  rules : s.prover.rules = []
  goal : s.prover.goal = none
  fronts : s.fronts = none

theorem Start.inv (h : s.Start) : s.Inv := by
  refine ⟨?_, ?_, ?_⟩
  · rw [h.rules]
    exact fun r hr => nomatch hr
  · rw [h.goal]
    exact fun g hg => nomatch hg
  · rw [h.fronts]
    exact fun f hf => nomatch hf

theorem inv_run (h : s.Inv) (hallowed : Along apply Allowed s ops) : (ops.foldl apply s).Inv := by
  induction ops generalizing s with
  | nil => exact h
  | cons op ops ih => exact ih (h.step hallowed.1) hallowed.2

theorem tried_run (h : s.Inv) (htried : s.Tried) (hallowed : Along apply Allowed s ops)
    (hkept : Along apply Kept s ops) : (ops.foldl apply s).Tried := by
  induction ops generalizing s with
  | nil => exact htried
  | cons op ops ih =>
    exact ih (h.step hallowed.1) (htried.step h hallowed.1 hkept.1) hallowed.2 hkept.2

/-- After a call that leaves nothing out, every rewrite of every expanded node by the rules
that are there is in the set. -/
def ClosedByCalls (s : FrontLoop) : Prop :=
  ∀ w budget f, (s.apply (.step w budget)).fronts = some f → f.Clean → f.Closed s.prover.rules

/-- In every run the nodes are equal to the seeds of their colours and the fronts only meet
where the sides of the goal are equal; and the fronts are closed in every run in which no rule
slips below the count of those that have been tried. -/
theorem fronts_run (h : s₀.Start) (hallowed : Along apply Allowed s₀ ops) :
    (∀ f, (ops.foldl apply s₀).fronts = some f →
      (∀ i < f.nodes.length, EqualMod (f.reached i) (f.seed (f.node i).colour) (f.node i).term) ∧
        (f.joined = true → EqualMod f.meetEqs f.seedGreen f.seedRed)) ∧
      (Along apply Kept s₀ ops → (ops.foldl apply s₀).ClosedByCalls) := by
  have hinv := inv_run h.inv hallowed
  refine ⟨fun f hf => ⟨(hinv.fronts f hf).equal, (hinv.fronts f hf).meet⟩, fun hkept => ?_⟩
  have hstart : s₀.Tried := by
    intro f hf
    rw [h.fronts] at hf
    cases hf
  have htried := tried_run h.inv hstart hallowed hkept
  intro w budget f' hf' hc
  obtain ⟨f, hf, rfl⟩ := Option.map_eq_some_iff.mp hf'
  obtain ⟨hclean, hdone⟩ := (Fronts.mnfStep_spec hinv.cappedEqs budget (hinv.fronts f hf)).2 hc
  exact (hdone (htried f hf hclean)).1

/-! ## Two runs -/

def blankLoop : FrontLoop := ⟨FrontState.blankFront, none⟩

theorem start_blankLoop : blankLoop.Start := ⟨rfl, rfl, rfl⟩

def calmFrontWorld : FrontWorld := ⟨fun _ => false, fun _ => .go⟩

/-- The goal `a = b`, a rule that is tried on both sides, and a new rule `a → c`. -/
def newRuleOps : List LoopOp :=
  [.prover (.setGoal (some (.ctr 1 [], .ctr 2 [])) false),
    .prover (.addRule (.ctr 5 []) (.ctr 6 []) true false), .create, .step calmFrontWorld 8,
    .prover (.addRule (.ctr 1 []) (.ctr 3 []) true false)]

/-- The rule from before is dropped. -/
def slipOps : List LoopOp := newRuleOps ++ [.prover (.dropRule 0)]

theorem capped_consts (x y : ℕ) : Capped (.ctr x [], .ctr y []) :=
  ⟨.node (Nat.zero_le _) (fun _ h => nomatch h), .node (Nat.zero_le _) (fun _ h => nomatch h)⟩

theorem allowed_newRuleOps {ops : List LoopOp}
    (h : Along apply Allowed (newRuleOps.foldl apply blankLoop) ops) :
    Along apply Allowed blankLoop (newRuleOps ++ ops) :=
  ⟨fun _ hg => Option.some.inj hg ▸ capped_consts 1 2, capped_consts 5 6, trivial, trivial,
    capped_consts 1 3, h⟩

/-- With the new rule behind the one that has been tried, the fronts are closed. -/
theorem fronts_run_newRule :
    blankLoop.Start ∧ Along apply Allowed blankLoop newRuleOps ∧
      Along apply Kept blankLoop newRuleOps ∧
      (newRuleOps.foldl apply blankLoop).ClosedByCalls := by
  have hallowed : Along apply Allowed blankLoop (newRuleOps ++ []) := allowed_newRuleOps trivial
  rw [List.append_nil] at hallowed
  have hkept : Along apply Kept blankLoop newRuleOps := by
    refine ⟨fun _ hf => (nomatch hf), fun _ hf => (nomatch hf), fun _ _ => trivial,
      fun _ _ => trivial, fun f hf => ?_, trivial⟩
    obtain rfl := Option.some.inj hf
    decide +kernel
  exact ⟨start_blankLoop, hallowed, hkept, (fronts_run start_blankLoop hallowed).2 hkept⟩

/-- The new rule slips into the place of the one that has been tried, and the expanded `a` is
never rewritten with it. -/
theorem slipped_rule_not_tried :
    blankLoop.Start ∧ Along apply Allowed blankLoop slipOps ∧
      ¬(slipOps.foldl apply blankLoop).ClosedByCalls := by
  refine ⟨start_blankLoop, allowed_newRuleOps ⟨trivial, trivial⟩, fun hclosed => ?_⟩
  have hflags : ((slipOps.foldl apply blankLoop).apply (.step calmFrontWorld 8)).fronts.map
      (fun f => (f.joined, f.full, f.nTrunc, f.interrupted)) =
      some (false, false, 0, false) := by decide +kernel
  have htable : ((slipOps.foldl apply blankLoop).apply (.step calmFrontWorld 8)).fronts.map
      (fun f => (f.expanded 0, f.nodes)) =
      some (true, [⟨.ctr 1 [], 0, .green, 0⟩, ⟨.ctr 2 [], 1, .red, 0⟩]) := by decide +kernel
  obtain ⟨f, hf, hfacts⟩ := Option.map_eq_some_iff.mp hflags
  rw [hf, Option.map_some, Option.some.injEq] at htable
  simp only [Prod.mk.injEq] at hfacts htable
  obtain ⟨hjoined, hfull, htrunc, hinterrupted⟩ := hfacts
  obtain ⟨hexpanded, hnodes⟩ := htable
  have hnode : (f.node 0).term = .ctr 1 [] := by
    rw [AtpMnf.node, hnodes]
    rfl
  have hdone := hclosed calmFrontWorld 8 f hf ⟨hjoined, hfull, htrunc, hinterrupted⟩ 0
    (by rw [hnodes]; decide) hexpanded
  obtain ⟨i, hi, hterm⟩ := hdone [] (FTerm.ctr 3 []) false (.root (by
    rw [hnode]
    refine ⟨⟨.ctr 1 [], .ctr 3 [], true, 1⟩, by decide +kernel, ?_⟩
    rw [if_neg Bool.false_ne_true]
    decide +kernel))
  revert hterm
  rw [AtpMnf.node]
  rw [hnodes] at hi ⊢
  match i, hi with
  | 0, _ => decide
  | 1, _ => decide

end FrontLoop

end Thvm.Atp
