import Thvm.AcCanon
import Thvm.AcCanonSpec
import Thvm.CriticalPairs
import Thvm.CriticalPairsSpec
import Thvm.UnifyPartial

/-!
# Critical pairs by AC unification

The subterm and the left side of the second rule have the same AC symbol on top. Their
leaves are paired off: a variable of the first takes any part of the leaves left of the
second, another leaf takes one of them. Every complete pairing gives one critical pair.
-/

namespace Thvm.Ac

def acUnifyMaxLeaves : ℕ := 8

def acUnifyMaxEmits : ℕ := 64

/-- `atp_ac_flatten`. -/
def atpAcFlatten (ac : AtpAcInfo) (cap : ℕ) (t : FTerm) : Option (List FTerm) :=
  match t with
  | .leaf _ => if cap = 0 then none else some [t]
  | .node label _ =>
    if ac.isAcTop t then flattenUnder label cap t []
    else if cap = 0 then none else some [t]

/-- `AcUnifyCtx` without the buffer. The byte `combo` of a slot keeps what it was. -/
structure AcUnifyCtx where
  li : FTerm
  ri : FTerm
  rj : FTerm
  path : List ℕ
  cap : ℕ
  acLabel : ℕ
  combos : ℕ → ℕ

/-- The buffer as far as it is filled, and `emits_this_call`. -/
structure AcUnifyState where
  out : List CriticalPair
  emits : ℕ

variable (ctx : AcUnifyCtx) (rounds : ℕ)

/-- `atp_ac_emit_unifier`. -/
def emitUnifier (b : ℕ → Option FTerm) (st : AcUnifyState) : Option AcUnifyState :=
  if ctx.cap ≤ st.out.length then some st
  else if acUnifyMaxEmits ≤ st.emits then some st
  else do
    let replaced := cpReplaceAt ctx.li ctx.path ctx.rj
    let lhs ← thvmUnifyApply b rounds replaced
    let rhs ← thvmUnifyApply b rounds ctx.ri
    let peak ← thvmUnifyApply b rounds ctx.li
    some ⟨st.out ++ [⟨lhs, rhs, some peak, ctx.path.map (· % 2 ^ 8), ctx.combos st.out.length⟩],
      st.emits + 1⟩

/-- `full_S` and `full_T`. -/
def fullMask (n : ℕ) : BitVec 32 := if 32 ≤ n then BitVec.allOnes 32 else BitVec.ofNat 32 (2 ^ n - 1)

def bitMask (i : ℕ) : BitVec 32 := 1#32 <<< i

/-- The lowest index whose bit is not set. -/
def lowestUnused (used : BitVec 32) : ℕ → ℕ → ℕ
  | 0, i => i
  | n + 1, i => if used.getLsbD i then lowestUnused used n (i + 1) else i

/-- The leaves whose bits are set, in their order. -/
def picked (leaves : List FTerm) (mask : BitVec 32) : List FTerm :=
  (leaves.zipIdx.filter fun x => mask.getLsbD x.2).map Prod.fst

/-- The masks `sub`, `(sub - 1) & remaining` and so on before 0; each round makes it smaller. -/
def submasks (remaining : BitVec 32) : ℕ → BitVec 32 → List (BitVec 32)
  | 0, _ => []
  | n + 1, sub => if sub = 0 then [] else sub :: submasks remaining n ((sub - 1) &&& remaining)

/-- What a variable can take: trees over leaves of `T`, with their masks. -/
def absorbed (T : List FTerm) (remaining : BitVec 32) : List (FTerm × BitVec 32) :=
  (submasks remaining remaining.toNat remaining).map fun sub =>
    (buildChain ctx.acLabel (picked T sub), sub)

/-- What another leaf can take. -/
def paired (T : List FTerm) (remaining : BitVec 32) : List (FTerm × BitVec 32) :=
  (T.zipIdx.filter fun x => remaining.getLsbD x.2).map fun x => (x.1, bitMask x.2)

/-- The loops over what a leaf can take. The substitution is the one before the loop in each
round; the source does not restore it when it returns at the cap on emits. -/
def tryEach (recurse : BitVec 32 → UnifyState → AcUnifyState → Option AcUnifyState) (s : FTerm)
    (subst : UnifyState) : List (FTerm × BitVec 32) → AcUnifyState → Option AcUnifyState
  | [], st => some st
  | (t, mask) :: rest, st => do
    let (ok, subst') ← thvmUnify rounds s t subst
    if ok then
      let st ← recurse mask subst' st
      if acUnifyMaxEmits ≤ st.emits then some st else tryEach recurse s subst rest st
    else tryEach recurse s subst rest st

/-- `atp_ac_unify_recurse`; a level takes one more leaf of `S`. -/
def acUnifyRecurse (S T : List FTerm) :
    ℕ → BitVec 32 → BitVec 32 → UnifyState → AcUnifyState → Option AcUnifyState
  | 0, _, _, _, _ => none
  | levels + 1, usedS, usedT, subst, st =>
    if ctx.cap ≤ st.out.length then some st
    else if acUnifyMaxEmits ≤ st.emits then some st
    else
      let fullS := fullMask S.length
      let fullT := fullMask T.length
      if usedS = fullS ∧ usedT = fullT then emitUnifier ctx rounds subst.bindings st
      else if usedS = fullS ∨ usedT = fullT then some st
      else do
        let i := lowestUnused usedS S.length 0
        let s ← S[i]?
        let remaining := fullT &&& ~~~usedT
        let recurse mask := acUnifyRecurse S T levels (usedS ||| bitMask i) (usedT ||| mask)
        match s with
        | .fvr _ => tryEach rounds recurse s subst (absorbed ctx T remaining) st
        | s => tryEach rounds recurse s subst (paired T remaining) st

/-- `atp_ac_unify_emit_cps` with the global mask as an argument. The pairs in the buffer
before the call are `out`. -/
def atpAcUnifyEmitCps (acMask : ℕ) (combos : ℕ → ℕ) (li ri sub lj rj : FTerm) (path : List ℕ)
    (cap : ℕ) (out : List CriticalPair) : Option (List CriticalPair) :=
  if cap ≤ out.length then some out
  else if acMask = 0 then some out
  else
    match sub, lj with
    | .node lab _, .node lab' _ =>
      if lab ≠ lab' then some out
      else if 64 ≤ lab then some out
      else if !acMask.testBit lab then some out
      else
        match atpAcFlatten ⟨acMask⟩ acUnifyMaxLeaves sub,
          atpAcFlatten ⟨acMask⟩ acUnifyMaxLeaves lj with
        | some S, some T =>
          if S.length < 2 ∨ T.length < 2 then some out
          else if acUnifyMaxLeaves < S.length ∨ acUnifyMaxLeaves < T.length then some out
          else do
            let ctx : AcUnifyCtx := ⟨li, ri, rj, path, cap, lab, combos⟩
            let st ← acUnifyRecurse ctx rounds S T (S.length + 1) 0 0 .empty ⟨out, 0⟩
            if st.emits < acUnifyMaxEmits ∧ st.out.length < cap then
              let st ← acUnifyRecurse ctx rounds T S (T.length + 1) 0 0 .empty ⟨st.out, 0⟩
              some st.out
            else some st.out
        | _, _ => some out
    | _, _ => some out

end Thvm.Ac

/-!
## Critical pairs by AC unification are sound

Along the recursion the leaves taken from the two sides are equal modulo AC under every
solution of the bindings. A complete pairing makes the subterm and the left side of the
second rule equal, so the pair is the two reducts of its peak.
-/

namespace Thvm.Ac

open TermTree (spread chain Binary AcEq)
open Unification CriticalPairs

variable {ac : AtpAcInfo} {label n i j : ℕ} {s t : FTerm} {S T xs ys zs : List FTerm}
  {m m' used remaining : BitVec 32} {b : ℕ → Option FTerm} {θ : ℕ → FTerm}

/-! ## Masks -/

theorem getLsbD_fullMask (hn : n < 32) : (fullMask n).getLsbD j = decide (j < n) := by
  rw [fullMask, if_neg (by omega), BitVec.getLsbD_ofNat, Nat.testBit_two_pow_sub_one]
  by_cases hj : j < n
  · simp [hj, show j < 32 by omega]
  · simp [hj]

theorem getLsbD_bitMask (hj : j < 32) : (bitMask i).getLsbD j = decide (j = i) := by
  rw [bitMask, BitVec.getLsbD_shiftLeft, BitVec.getLsbD_one]
  by_cases hji : j = i
  · subst hji
    simp [hj]
  · simp only [hji, hj, decide_true, Bool.true_and, decide_false, Nat.zero_lt_succ,
      Bool.and_eq_false_iff, Bool.not_eq_eq_eq_not, Bool.not_false, decide_eq_true_eq,
      decide_eq_false_iff_not]
    omega

theorem eq_fullMask (hn : n < 32) (hm : ∀ j, m.getLsbD j = true → j < n)
    (h : ∀ j < n, m.getLsbD j = true) : m = fullMask n := by
  apply BitVec.eq_of_getLsbD_eq
  intro j _
  rw [getLsbD_fullMask hn]
  cases hj : m.getLsbD j with
  | true => exact (decide_eq_true (hm j hj)).symm
  | false =>
    refine (decide_eq_false fun hlt => ?_).symm
    rw [h j hlt] at hj
    cases hj

/-- The search ends at an index without its bit unless all are set. -/
theorem lowestUnused_spec (h : ∀ k < i, used.getLsbD k = true) :
    used.getLsbD (lowestUnused used n i) = false ∧ lowestUnused used n i < i + n ∨
      ∀ k < i + n, used.getLsbD k = true := by
  induction n generalizing i with
  | zero => exact .inr h
  | succ n ih =>
    unfold lowestUnused
    split
    · next hi =>
      have hnext : ∀ k < i + 1, used.getLsbD k = true := by
        intro k hk
        rcases Nat.lt_succ_iff_lt_or_eq.mp hk with hlt | rfl
        · exact h k hlt
        · exact hi
      have := ih hnext
      rwa [Nat.add_right_comm] at this
    · next hi =>
      exact .inl ⟨by simpa using hi, by omega⟩

theorem submasks_spec (hm : ∀ j, m.getLsbD j = true → remaining.getLsbD j = true)
    {sub : BitVec 32} (h : sub ∈ submasks remaining n m) :
    sub ≠ 0 ∧ ∀ j, sub.getLsbD j = true → remaining.getLsbD j = true := by
  induction n generalizing m with
  | zero => cases h
  | succ n ih =>
    unfold submasks at h
    split at h
    · cases h
    · next hne =>
      rcases List.mem_cons.mp h with rfl | h
      · exact ⟨hne, hm⟩
      · refine ih (fun j hj => ?_) h
        rw [BitVec.getLsbD_and, Bool.and_eq_true] at hj
        exact hj.2

/-! ## Picking leaves -/

theorem filter_or_perm {α : Type} {p q : α → Bool} {l : List α}
    (h : ∀ x ∈ l, p x = true → q x = false) :
    (l.filter fun x => p x || q x).Perm (l.filter p ++ l.filter q) := by
  induction l with
  | nil => exact .refl _
  | cons x l ih =>
    have htail := ih fun y hy => h y (List.mem_cons_of_mem x hy)
    cases hp : p x with
    | true =>
      have hq := h x List.mem_cons_self hp
      simpa [List.filter_cons, hp, hq] using htail
    | false =>
      cases hq : q x with
      | true =>
        simp only [List.filter_cons, hp, hq, Bool.or_true, if_true, Bool.false_eq_true, if_false]
        exact (htail.cons x).trans List.perm_middle.symm
      | false => simpa [List.filter_cons, hp, hq] using htail

theorem picked_or (h : ∀ j < S.length, m.getLsbD j = true → m'.getLsbD j = false) :
    (picked S (m ||| m')).Perm (picked S m ++ picked S m') := by
  unfold picked
  rw [← List.map_append]
  apply List.Perm.map
  simp only [BitVec.getLsbD_or]
  exact filter_or_perm fun x hx => h x.2 (List.snd_lt_of_mem_zipIdx hx)

theorem picked_all (h : ∀ j < S.length, m.getLsbD j = true) : picked S m = S := by
  unfold picked
  rw [List.filter_eq_self.mpr fun x hx => h x.2 (List.snd_lt_of_mem_zipIdx hx), List.zipIdx_map_fst]

theorem picked_zero (S : List FTerm) : picked S 0 = [] := by simp [picked]

theorem mem_picked : t ∈ picked S m ↔ ∃ j, S[j]? = some t ∧ m.getLsbD j = true := by
  simp [picked, List.mem_zipIdx_iff_getElem?]

theorem filter_zipIdx_eq (k : ℕ) (h : S[i]? = some t) :
    ((S.zipIdx k).filter fun x => decide (x.2 = k + i)).map Prod.fst = [t] := by
  induction S generalizing k i with
  | nil => cases h
  | cons s S ih =>
    cases i with
    | zero =>
      obtain rfl : s = t := by simpa using h
      have hrest : (S.zipIdx (k + 1)).filter (fun x => decide (x.2 = k)) = [] := by
        rw [List.filter_eq_nil_iff]
        intro x hx
        have := List.le_snd_of_mem_zipIdx hx
        simp only [decide_eq_true_eq]
        omega
      simp [List.zipIdx_cons, hrest]
    | succ i =>
      have := ih (k + 1) (by simpa using h)
      simpa [List.zipIdx_cons, Nat.add_assoc, Nat.add_comm 1 i] using this

theorem picked_bitMask (hlen : S.length ≤ 32) (h : S[i]? = some t) : picked S (bitMask i) = [t] := by
  have hfilter : S.zipIdx.filter (fun x => (bitMask i).getLsbD x.2) =
      S.zipIdx.filter fun x => decide (x.2 = 0 + i) := by
    apply List.filter_congr
    intro x hx
    have := List.snd_lt_of_mem_zipIdx hx
    rw [getLsbD_bitMask (by omega), Nat.zero_add]
  unfold picked
  rw [hfilter]
  exact filter_zipIdx_eq 0 h

/-! ## Levels -/

/-- Two lists of leaves that are both empty or have chains equal modulo AC. -/
inductive Levels (ac : AtpAcInfo) (label : ℕ) : List FTerm → List FTerm → Prop
  | nil : Levels ac label [] []
  | chains {xs ys : List FTerm} (hxs : xs ≠ []) (hys : ys ≠ [])
      (h : AcEq ac.labels (chain label xs) (chain label ys)) : Levels ac label xs ys

theorem Levels.acEq (h : Levels ac label xs ys) (hxs : xs ≠ []) :
    AcEq ac.labels (chain label xs) (chain label ys) := by
  cases h with
  | nil => exact absurd rfl hxs
  | chains _ _ h => exact h

theorem Levels.perm (hlabel : ac.labels label) (h : Levels ac label xs ys)
    {xs' ys' : List FTerm} (hxs : xs'.Perm xs) (hys : ys'.Perm ys) : Levels ac label xs' ys' := by
  cases h with
  | nil =>
    rw [List.perm_nil.mp hxs, List.perm_nil.mp hys]
    exact .nil
  | chains hx hy h =>
    have hperm := (AcEq.chain_perm hlabel hxs).trans (h.trans (AcEq.chain_perm hlabel hys.symm))
    exact .chains (fun hnil => hx (List.nil_perm.mp (hnil ▸ hxs)))
      (fun hnil => hy (List.nil_perm.mp (hnil ▸ hys))) hperm

/-- One more leaf on one side, and what is equal to it on the other. -/
theorem Levels.add (hlabel : ac.labels label) (h : Levels ac label xs ys) (hzs : zs ≠ [])
    (hs : s = chain label zs) : Levels ac label (xs ++ [s]) (ys ++ zs) := by
  subst hs
  cases h with
  | nil => exact .chains (by simp) hzs (.refl _)
  | chains hx hy h =>
    have hleft := AcEq.chain_append hlabel hx (List.cons_ne_nil (chain label zs) [])
    have hright := AcEq.chain_append hlabel hy hzs
    exact .chains (by simp) (by simp [hy])
      (hleft.trans ((AcEq.left label h _).trans hright.symm))

theorem inst_chain (θ : ℕ → FTerm) (label : ℕ) (xs : List FTerm) :
    FTerm.inst θ (chain label xs) = chain label (xs.map (FTerm.inst θ)) :=
  AcEq.subst_chain (onLeaves θ) label xs

/-- The leaves taken so far agree under every solution of the bindings. -/
structure Pairing (ac : AtpAcInfo) (label : ℕ) (S T : List FTerm) (usedS usedT : BitVec 32)
    (b : ℕ → Option FTerm) : Prop where
  bound : Bound b
  belowS : ∀ j, usedS.getLsbD j = true → j < S.length
  belowT : ∀ j, usedT.getLsbD j = true → j < T.length
  levels : ∀ θ, Solution θ b → Levels ac label ((picked S usedS).map (FTerm.inst θ))
    ((picked T usedT).map (FTerm.inst θ))

/-- What a leaf can take: the chain over some leaves that are left. -/
structure Choice (label : ℕ) (T : List FTerm) (remaining : BitVec 32) (x : FTerm × BitVec 32) :
    Prop where
  tree : x.1 = chain label (picked T x.2)
  some : picked T x.2 ≠ []
  within : ∀ j, x.2.getLsbD j = true → remaining.getLsbD j = true

theorem absorbed_choice {ctx : AcUnifyCtx} (hT : ∀ j, remaining.getLsbD j = true → j < T.length)
    {x : FTerm × BitVec 32} (hx : x ∈ absorbed ctx T remaining) :
    Choice ctx.acLabel T remaining x := by
  obtain ⟨sub, hsub, rfl⟩ := List.mem_map.mp hx
  obtain ⟨hne, hwithin⟩ := submasks_spec (fun j hj => hj) hsub
  refine ⟨buildChain_eq _ _, fun hnil => hne ?_, hwithin⟩
  apply BitVec.eq_of_getLsbD_eq
  intro j _
  cases hj : sub.getLsbD j with
  | false => simp
  | true =>
    have hlt := hT j (hwithin j hj)
    have hmem := mem_picked.mpr ⟨j, List.getElem?_eq_getElem hlt, hj⟩
    rw [hnil] at hmem
    cases hmem

theorem paired_choice (hlen : T.length ≤ 32) {x : FTerm × BitVec 32} (hx : x ∈ paired T remaining) :
    Choice label T remaining x := by
  obtain ⟨⟨t, j⟩, hj, rfl⟩ := List.mem_map.mp hx
  obtain ⟨hmem, hbit⟩ := List.mem_filter.mp hj
  have hget := List.mem_zipIdx_iff_getElem?.mp hmem
  have hpick := picked_bitMask hlen hget
  have hlt := (List.getElem?_eq_some_iff.mp hget).1
  refine ⟨by rw [hpick]; rfl, by simp [hpick], fun k hk => ?_⟩
  by_cases hk32 : k < 32
  · rw [getLsbD_bitMask hk32, decide_eq_true_eq] at hk
    exact hk ▸ hbit
  · rw [BitVec.getLsbD_of_ge _ _ (by omega)] at hk
    cases hk

/-- The mask of what is left. -/
theorem getLsbD_remaining (hlen : T.length < 32) {usedT : BitVec 32} :
    (fullMask T.length &&& ~~~usedT).getLsbD j = true ↔
      j < T.length ∧ usedT.getLsbD j = false := by
  rw [BitVec.getLsbD_and, getLsbD_fullMask hlen, BitVec.getLsbD_not]
  by_cases hj : j < T.length
  · simp [hj, show j < 32 by omega]
  · simp [hj]

/-- A call of the unifier that returns 1 takes a leaf and a choice. -/
theorem Pairing.take {usedS usedT : BitVec 32} {st st' : UnifyState} {x : FTerm × BitVec 32}
    {rounds : ℕ} (hlabel : ac.labels label) (hlenS : S.length < 32) (hlenT : T.length < 32)
    (h : Pairing ac label S T usedS usedT st.bindings) (hi : S[i]? = some s)
    (hiS : usedS.getLsbD i = false) (hs : s.Substitutable) (hx : x.1.Substitutable)
    (hchoice : Choice label T (fullMask T.length &&& ~~~usedT) x)
    (hunify : thvmUnify rounds s x.1 st = some (true, st')) :
    Pairing ac label S T (usedS ||| bitMask i) (usedT ||| x.2) st'.bindings := by
  obtain ⟨hbound, hsolutions⟩ := thvmUnify_solved h.bound hs hx hunify
  have hilt := (List.getElem?_eq_some_iff.mp hi).1
  refine ⟨hbound, fun j hj => ?_, fun j hj => ?_, fun θ hθ => ?_⟩
  · rw [BitVec.getLsbD_or, Bool.or_eq_true] at hj
    rcases hj with hj | hj
    · exact h.belowS j hj
    · by_cases hj32 : j < 32
      · rw [getLsbD_bitMask hj32, decide_eq_true_eq] at hj
        exact hj ▸ hilt
      · rw [BitVec.getLsbD_of_ge _ _ (by omega)] at hj
        cases hj
  · rw [BitVec.getLsbD_or, Bool.or_eq_true] at hj
    rcases hj with hj | hj
    · exact h.belowT j hj
    · exact ((getLsbD_remaining hlenT).mp (hchoice.within j hj)).1
  · obtain ⟨hθ₀, heq⟩ := hsolutions θ hθ
    have hpickS : (picked S (usedS ||| bitMask i)).Perm (picked S usedS ++ [s]) := by
      rw [← picked_bitMask hlenS.le hi]
      refine picked_or fun j hj hused => ?_
      rw [getLsbD_bitMask (by omega), decide_eq_false_iff_not]
      rintro rfl
      rw [hused] at hiS
      cases hiS
    have hpickT : (picked T (usedT ||| x.2)).Perm (picked T usedT ++ picked T x.2) := by
      refine picked_or fun j _ hused => Bool.eq_false_iff.mpr fun hj => ?_
      have := ((getLsbD_remaining hlenT).mp (hchoice.within j hj)).2
      rw [hused] at this
      cases this
    have hchain : s.inst θ = chain label ((picked T x.2).map (FTerm.inst θ)) := by
      rw [heq, hchoice.tree, inst_chain]
    have hsome : (picked T x.2).map (FTerm.inst θ) ≠ [] := by simpa using hchoice.some
    have hadd := (h.levels θ hθ₀).add hlabel hsome hchain
    refine hadd.perm hlabel ((hpickS.map _).trans ?_) ((hpickT.map _).trans ?_)
    · rw [List.map_append, List.map_singleton]
    · rw [List.map_append]

/-! ## The enumeration -/

/-- The pair of a substitution that makes the two lists of leaves equal. -/
def Formed (ac : AtpAcInfo) (ctx : AcUnifyCtx) (S T : List FTerm) (cp : CriticalPair) : Prop :=
  ∃ σ, cp.lhs = (cpReplaceAt ctx.li ctx.path ctx.rj).inst σ ∧ cp.rhs = ctx.ri.inst σ ∧
    cp.peak = some (ctx.li.inst σ) ∧
    AcEq ac.labels (chain ctx.acLabel (S.map (FTerm.inst σ)))
      (chain ctx.acLabel (T.map (FTerm.inst σ)))

/-- Only good pairs have been put behind those in the buffer. -/
def Emits (good : CriticalPair → Prop) (out out' : List CriticalPair) : Prop :=
  ∃ new, out' = out ++ new ∧ ∀ cp ∈ new, good cp

variable {good good' : CriticalPair → Prop} {out out' out'' : List CriticalPair}
  {ctx : AcUnifyCtx} {rounds levels : ℕ} {subst : UnifyState} {st st' : AcUnifyState}
  {usedS usedT : BitVec 32}

theorem Emits.refl (out : List CriticalPair) : Emits good out out :=
  ⟨[], (List.append_nil out).symm, fun _ h => absurd h List.not_mem_nil⟩

theorem Emits.trans (h : Emits good out out') (h' : Emits good out' out'') :
    Emits good out out'' := by
  obtain ⟨new, rfl, hnew⟩ := h
  obtain ⟨new', rfl, hnew'⟩ := h'
  refine ⟨new ++ new', List.append_assoc _ _ _, fun cp hcp => ?_⟩
  rcases List.mem_append.mp hcp with hcp | hcp
  · exact hnew cp hcp
  · exact hnew' cp hcp

theorem Emits.mono (h : Emits good out out') (hgood : ∀ cp, good cp → good' cp) :
    Emits good' out out' := by
  obtain ⟨new, hout, hnew⟩ := h
  exact ⟨new, hout, fun cp hcp => hgood cp (hnew cp hcp)⟩

/-- The terms a pair is built from. -/
structure Applicable (ctx : AcUnifyCtx) : Prop where
  li : ctx.li.Substitutable
  ri : ctx.ri.Substitutable
  replaced : (cpReplaceAt ctx.li ctx.path ctx.rj).Substitutable

theorem emitUnifier_spec (hctx : Applicable ctx) (hS : S ≠ [])
    (h : Pairing ac ctx.acLabel S T (fullMask S.length) (fullMask T.length) subst.bindings)
    (hlenS : S.length < 32) (hlenT : T.length < 32)
    (hemit : emitUnifier ctx rounds subst.bindings st = some st') :
    Emits (Formed ac ctx S T) st.out st'.out := by
  unfold emitUnifier at hemit
  split at hemit
  · obtain rfl := Option.some.inj hemit
    exact .refl _
  · split at hemit
    · obtain rfl := Option.some.inj hemit
      exact .refl _
    · obtain ⟨lhs, hlhs, hemit⟩ := Option.bind_eq_some_iff.mp hemit
      obtain ⟨rhs, hrhs, hemit⟩ := Option.bind_eq_some_iff.mp hemit
      obtain ⟨peak, hpeak, hemit⟩ := Option.bind_eq_some_iff.mp hemit
      obtain rfl := Option.some.inj hemit
      refine ⟨_, rfl, fun cp hcp => ?_⟩
      obtain rfl := List.mem_singleton.mp hcp
      refine ⟨resolved h.bound.acyclic, thvmUnifyApply_found h.bound hctx.replaced hlhs,
        thvmUnifyApply_found h.bound hctx.ri hrhs,
        congrArg some (thvmUnifyApply_found h.bound hctx.li hpeak), ?_⟩
      have hlevels := h.levels _ (resolved_solves h.bound.acyclic)
      rw [picked_all fun j hj => (getLsbD_fullMask hlenS).trans (decide_eq_true hj),
        picked_all fun j hj => (getLsbD_fullMask hlenT).trans (decide_eq_true hj)] at hlevels
      exact hlevels.acEq (by simpa using hS)

/-- The loop adds what its rounds add. -/
theorem tryEach_spec {recurse : BitVec 32 → UnifyState → AcUnifyState → Option AcUnifyState}
    {choices : List (FTerm × BitVec 32)}
    (hrecurse : ∀ x ∈ choices, ∀ subst' st st', thvmUnify rounds s x.1 subst = some (true, subst') →
      recurse x.2 subst' st = some st' → Emits good st.out st'.out)
    (h : tryEach rounds recurse s subst choices st = some st') : Emits good st.out st'.out := by
  induction choices generalizing st with
  | nil =>
    obtain rfl := Option.some.inj h
    exact .refl _
  | cons x rest ih =>
    have hrest := fun x hx => hrecurse x (List.mem_cons_of_mem _ hx)
    obtain ⟨⟨ok, subst'⟩, hunify, h⟩ := Option.bind_eq_some_iff.mp h
    cases ok with
    | false => exact ih hrest h
    | true =>
      obtain ⟨st₁, hround, h⟩ := Option.bind_eq_some_iff.mp h
      have hfirst := hrecurse x List.mem_cons_self subst' st st₁ hunify hround
      split at h
      · obtain rfl := Option.some.inj h
        exact hfirst
      · exact hfirst.trans (ih hrest h)

theorem chain_substitutable (h : ∀ x ∈ xs, x.Substitutable) :
    FTerm.Substitutable (chain label xs) := by
  induction xs with
  | nil => exact .ctr (Nat.zero_le _) fun _ h => absurd h List.not_mem_nil
  | cons x xs ih =>
    have htail := ih fun y hy => h y (List.mem_cons_of_mem x hy)
    cases xs with
    | nil => exact h x List.mem_cons_self
    | cons y ys =>
      refine .ctr (by simp [rewriteMaxArity]) fun a ha => ?_
      rcases List.mem_pair.mp ha with rfl | rfl
      · exact h a List.mem_cons_self
      · exact htail

/-- The recursion emits pairs of complete pairings only, by induction on the levels. -/
theorem acUnifyRecurse_spec (hctx : Applicable ctx) (hlabel : ac.labels ctx.acLabel)
    (hS : S ≠ []) (hlenS : S.length < 32) (hlenT : T.length < 32)
    (hsubS : ∀ x ∈ S, x.Substitutable) (hsubT : ∀ x ∈ T, x.Substitutable)
    (h : Pairing ac ctx.acLabel S T usedS usedT subst.bindings)
    (hrun : acUnifyRecurse ctx rounds S T levels usedS usedT subst st = some st') :
    Emits (Formed ac ctx S T) st.out st'.out := by
  induction levels generalizing usedS usedT subst st st' with
  | zero => cases hrun
  | succ levels ih =>
    unfold acUnifyRecurse at hrun
    split at hrun
    · obtain rfl := Option.some.inj hrun
      exact .refl _
    split at hrun
    · obtain rfl := Option.some.inj hrun
      exact .refl _
    dsimp only at hrun
    split at hrun
    · next hfull =>
      obtain ⟨rfl, rfl⟩ := hfull
      exact emitUnifier_spec hctx hS h hlenS hlenT hrun
    split at hrun
    · obtain rfl := Option.some.inj hrun
      exact .refl _
    next hpart =>
    obtain ⟨s, hs, hrun⟩ := Option.bind_eq_some_iff.mp hrun
    -- some leaf of `S` is left
    have hunused : usedS.getLsbD (lowestUnused usedS S.length 0) = false := by
      rcases @lowestUnused_spec S.length 0 usedS (by omega) with hi | hall
      · exact hi.1
      · rw [Nat.zero_add] at hall
        exact absurd (.inl (eq_fullMask hlenS h.belowS hall)) hpart
    have hloop {choices} (hchoices : ∀ x ∈ choices,
          Choice ctx.acLabel T (fullMask T.length &&& ~~~usedT) x)
        (hrun : tryEach rounds (fun mask => acUnifyRecurse ctx rounds S T levels
          (usedS ||| bitMask (lowestUnused usedS S.length 0)) (usedT ||| mask)) s subst choices st =
          some st') : Emits (Formed ac ctx S T) st.out st'.out := by
      refine tryEach_spec (fun x hx subst' st₁ st₂ hunify hrec => ?_) hrun
      have hx' : x.1.Substitutable := by
        rw [(hchoices x hx).tree]
        refine chain_substitutable fun y hy => ?_
        obtain ⟨j, hj, -⟩ := mem_picked.mp hy
        exact hsubT y (List.mem_of_getElem? hj)
      exact ih (h.take hlabel hlenS hlenT hs hunused (hsubS s (List.mem_of_getElem? hs)) hx'
        (hchoices x hx) hunify) hrec
    have hbelow (j) (hj : (fullMask T.length &&& ~~~usedT).getLsbD j = true) : j < T.length :=
      ((getLsbD_remaining hlenT).mp hj).1
    split at hrun
    · exact hloop (fun x hx => absorbed_choice hbelow hx) hrun
    · exact hloop (fun x hx => paired_choice hlenT.le hx) hrun

theorem pairing_empty (ac : AtpAcInfo) (label : ℕ) (S T : List FTerm) :
    Pairing ac label S T 0 0 UnifyState.empty.bindings where
  bound := bound_empty
  belowS j hj := by simp at hj
  belowT j hj := by simp at hj
  levels θ _ := by
    rw [picked_zero, picked_zero]
    exact .nil

/-! ## The pairs -/

variable {li ri lj rj u v : FTerm} {p : List ℕ} {acMask cap : ℕ} {combos : ℕ → ℕ}

/-- A step modulo AC in a context. -/
theorem acEq_put {t' : FTerm} (h : t.sub p = some s) (hs : AcEq ac.labels s t') :
    AcEq ac.labels t (t.put p t') := by
  induction p generalizing t with
  | nil =>
    obtain rfl : t = s := by simpa using h
    rwa [TermTree.put_nil]
  | cons i p ih =>
    obtain ⟨f, args, a, rfl, ha, hsub⟩ := TermTree.sub_cons.mp h
    obtain ⟨hi, rfl⟩ := List.getElem?_eq_some_iff.mp ha
    have hsplit : args = args.take i ++ args[i] :: args.drop (i + 1) := by
      rw [← List.drop_eq_getElem_cons hi, List.take_append_drop]
    rw [TermTree.put, List.modify_eq_take_cons_drop hi]
    nth_rewrite 1 [hsplit]
    exact .arg f _ _ (ih hsub)

/-- Equality modulo the two rules and AC. -/
def EqModulo (ac : AtpAcInfo) (li ri lj rj : FTerm) : FTerm → FTerm → Prop :=
  Relation.EqvGen fun u v => AcEq ac.labels u v ∨ Rewrites li ri u v ∨ Rewrites lj rj u v

/-- The peak is an instance of `li` and the right component that of `ri`. At `p` the peak is
equal modulo AC to the instance of `lj`, which the left component replaces by that of `rj`. -/
def AcPeak (ac : AtpAcInfo) (li ri lj rj : FTerm) (p : List ℕ) (cp : CriticalPair) : Prop :=
  ∃ σ u, cp.peak = some (li.inst σ) ∧ cp.rhs = ri.inst σ ∧
    (li.inst σ).sub p = some u ∧ AcEq ac.labels u (lj.inst σ) ∧
    cp.lhs = (li.inst σ).put p (rj.inst σ)

theorem put_put {x y : FTerm} (h : t.sub p = some s) : (t.put p x).put p y = t.put p y := by
  induction p generalizing t with
  | nil => simp
  | cons i p ih =>
    obtain ⟨f, args, a, rfl, ha, hs⟩ := TermTree.sub_cons.mp h
    simp only [TermTree.put, TermTree.node.injEq, true_and]
    apply List.ext_getElem?
    intro j
    simp only [List.getElem?_modify]
    split
    · next hij =>
      subst hij
      rw [ha]
      exact congrArg some (ih hs)
    · cases args[j]? <;> rfl

/-- Both components are equal to the peak modulo the rules and AC. -/
theorem AcPeak.eqModulo {cp : CriticalPair} (h : AcPeak ac li ri lj rj p cp)
    (hpeak : cp.peak = some u) :
    EqModulo ac li ri lj rj u cp.lhs ∧ EqModulo ac li ri lj rj u cp.rhs := by
  obtain ⟨σ, v, hu, hrhs, hsub, hac, hlhs⟩ := h
  obtain rfl := Option.some.inj (hpeak.symm.trans hu)
  constructor
  · have hstep : Rewrites lj rj ((li.inst σ).put p (lj.inst σ)) cp.lhs :=
      ⟨p, σ, TermTree.sub_put hsub _, by rw [hlhs, put_put hsub]⟩
    exact .trans _ _ _ (.rel _ _ (.inl (acEq_put hsub hac))) (.rel _ _ (.inr (.inr hstep)))
  · exact .rel _ _ (.inr (.inl ⟨[], σ, TermTree.sub_nil _, by rw [hrhs, TermTree.put_nil]⟩))

theorem isAcLabel_of_mask {lab : ℕ} (h : ¬ 64 ≤ lab) (hbit : ¬ (!acMask.testBit lab) = true) :
    AtpAcInfo.isAcLabel ⟨acMask⟩ lab = true := by
  rw [AtpAcInfo.isAcLabel, Bool.and_eq_true, decide_eq_true_eq]
  exact ⟨Nat.lt_of_not_le h, by simpa using hbit⟩

theorem atpAcFlatten_eq {args : List FTerm} (hlabel : ac.isAcLabel label = true)
    (h : atpAcFlatten ac cap (.node label args) = some S) : S = spread label (.node label args) := by
  unfold atpAcFlatten at h
  dsimp only at h
  rw [if_pos (by exact hlabel)] at h
  exact eq_spread h

theorem spread_substitutable (h : t.ArityCapped) :
    ∀ x ∈ spread label t, FTerm.Substitutable x := by
  intro x hx
  obtain ⟨p, hp⟩ := exists_sub_of_mem_spread hx
  exact FTerm.ArityCapped.substitutable (h.sub hp)

/-- An instance of a term is equal modulo AC to the chain over the instances of its leaves. -/
theorem chain_spread_inst (hlabel : ac.labels label) (h : Binary ac.labels t) (σ : ℕ → FTerm) :
    AcEq ac.labels (chain label ((spread label t).map (FTerm.inst σ))) (t.inst σ) := by
  rw [← inst_chain]
  exact (AcEq.chain_spread hlabel h).subst (onLeaves σ)

/-- A pair formed from the leaves of the subterm and those of `lj`. -/
theorem AcPeak.of_formed {sub : FTerm} {cp : CriticalPair} (hlabel : ac.labels ctx.acLabel)
    (hli : ctx.li.ArityCapped) (hsub : ctx.li.sub ctx.path = some sub)
    (hbi : Binary ac.labels sub) (hbj : Binary ac.labels lj)
    (h : Formed ac ctx (spread ctx.acLabel sub) (spread ctx.acLabel lj) cp) :
    AcPeak ac ctx.li ctx.ri lj ctx.rj ctx.path cp := by
  obtain ⟨σ, hlhs, hrhs, hpeak, hchains⟩ := h
  rw [cpReplaceAt_eq hli hsub, inst_put σ hsub] at hlhs
  exact ⟨σ, sub.inst σ, hpeak, hrhs, inst_sub σ hsub,
    ((chain_spread_inst hlabel hbi σ).symm.trans hchains).trans (chain_spread_inst hlabel hbj σ),
    hlhs⟩

theorem Formed.symm {cp : CriticalPair} (h : Formed ac ctx S T cp) : Formed ac ctx T S cp := by
  obtain ⟨σ, hlhs, hrhs, hpeak, hchains⟩ := h
  exact ⟨σ, hlhs, hrhs, hpeak, hchains.symm⟩

/-- Every emitted pair is the two reducts of its peak, with AC at the overlap. -/
theorem atpAcUnifyEmitCps_sound (rounds acMask : ℕ) (combos : ℕ → ℕ) (li ri sub lj rj : FTerm)
    (p : List ℕ) (cap : ℕ) (out out' : List CriticalPair)
    (hcapped : li.ArityCapped ∧ ri.ArityCapped ∧ lj.ArityCapped ∧ rj.ArityCapped)
    (hbinary : Binary (AtpAcInfo.labels ⟨acMask⟩) li ∧ Binary (AtpAcInfo.labels ⟨acMask⟩) lj)
    (hsub : li.sub p = some sub)
    (h : atpAcUnifyEmitCps rounds acMask combos li ri sub lj rj p cap out = some out') :
    Emits (fun cp => AcPeak ⟨acMask⟩ li ri lj rj p cp ∧ ∀ u, cp.peak = some u →
      EqModulo ⟨acMask⟩ li ri lj rj u cp.lhs ∧ EqModulo ⟨acMask⟩ li ri lj rj u cp.rhs)
      out out' := by
  obtain ⟨hli, hri, hlj, hrj⟩ := hcapped
  have hstay (h : some out = some out') : Emits (AcPeak ⟨acMask⟩ li ri lj rj p) out out' := by
    obtain rfl := Option.some.inj h
    exact .refl _
  refine @Emits.mono (AcPeak ⟨acMask⟩ li ri lj rj p) _ _ _ ?_
    fun cp hcp => ⟨hcp, fun u hu => hcp.eqModulo hu⟩
  unfold atpAcUnifyEmitCps at h
  split at h
  · exact hstay h
  split at h
  · exact hstay h
  split at h
  swap
  · exact hstay h
  next lab args lab' args' =>
  split at h
  · exact hstay h
  next hlab =>
  obtain rfl := Decidable.not_not.mp hlab
  split at h
  · exact hstay h
  next h64 =>
  split at h
  · exact hstay h
  next hbit =>
  have hlabel := isAcLabel_of_mask h64 hbit
  split at h
  swap
  · exact hstay h
  next S T hS hT =>
  split at h
  · exact hstay h
  next hshort =>
  split at h
  · exact hstay h
  next hlong =>
  have hlenS : S.length < 32 := by simp only [acUnifyMaxLeaves] at hlong; omega
  have hlenT : T.length < 32 := by simp only [acUnifyMaxLeaves] at hlong; omega
  have hneS : S ≠ [] := by rintro rfl; simp at hshort
  have hneT : T ≠ [] := by rintro rfl; simp at hshort
  obtain rfl := atpAcFlatten_eq hlabel hS
  obtain rfl := atpAcFlatten_eq hlabel hT
  have hsubCapped := hli.sub hsub
  have hctx : Applicable ⟨li, ri, rj, p, cap, lab, combos⟩ := by
    refine ⟨hli.substitutable, hri.substitutable, ?_⟩
    rw [cpReplaceAt_eq hli hsub]
    exact FTerm.ArityCapped.substitutable (hli.put hrj p)
  have hpeak (cp) (hcp : Formed ⟨acMask⟩ ⟨li, ri, rj, p, cap, lab, combos⟩ _ _ cp) :
      AcPeak ⟨acMask⟩ li ri (.node lab args') rj p cp :=
    AcPeak.of_formed hlabel hli hsub (hbinary.1.sub hsub) hbinary.2 hcp
  obtain ⟨st, hfirst, h⟩ := Option.bind_eq_some_iff.mp h
  have hone := (acUnifyRecurse_spec hctx hlabel hneS hlenS hlenT
    (spread_substitutable hsubCapped) (spread_substitutable hlj)
    (pairing_empty _ _ _ _) hfirst).mono hpeak
  split at h
  · obtain ⟨st', hsecond, h⟩ := Option.bind_eq_some_iff.mp h
    obtain rfl := Option.some.inj h
    exact hone.trans ((acUnifyRecurse_spec hctx hlabel hneT hlenT hlenS
      (spread_substitutable hlj) (spread_substitutable hsubCapped)
      (pairing_empty _ _ _ _) hsecond).mono fun cp hcp => hpeak cp hcp.symm)
  · obtain rfl := Option.some.inj h
    exact hone

/-- The overlap of `f(x, c) → x` and `f(y, d) → y` at the root. -/
theorem atpAcUnifyEmitCps_sound_two : ∃ out',
    atpAcUnifyEmitCps 8 1 (fun _ => 0) (.ctr 0 [.fvr 0, .ctr 1 []]) (.fvr 0)
      (.ctr 0 [.fvr 0, .ctr 1 []]) (.ctr 0 [.fvr 1, .ctr 2 []]) (.fvr 1) [] 8 [] = some out' ∧
    out' ≠ [] ∧
    Emits (fun cp => AcPeak ⟨1⟩ (.ctr 0 [.fvr 0, .ctr 1 []]) (.fvr 0)
      (.ctr 0 [.fvr 1, .ctr 2 []]) (.fvr 1) [] cp ∧ ∀ u, cp.peak = some u →
        EqModulo ⟨1⟩ (.ctr 0 [.fvr 0, .ctr 1 []]) (.fvr 0) (.ctr 0 [.fvr 1, .ctr 2 []]) (.fvr 1)
          u cp.lhs ∧
        EqModulo ⟨1⟩ (.ctr 0 [.fvr 0, .ctr 1 []]) (.fvr 0) (.ctr 0 [.fvr 1, .ctr 2 []]) (.fvr 1)
          u cp.rhs) [] out' := by
  have hbinary (i j : ℕ) (hj : 0 < j) :
      Binary (AtpAcInfo.labels ⟨1⟩) (FTerm.ctr 0 [.fvr i, .ctr j []]) := by
    refine .node (fun _ => rfl) fun a ha => ?_
    rcases List.mem_pair.mp ha with rfl | rfl
    · exact .leaf _
    · exact .node (fun h => absurd ((isAcLabel_one j).mp h) (by omega)) (by simp)
  have hrun : (atpAcUnifyEmitCps 8 1 (fun _ => 0) (.ctr 0 [.fvr 0, .ctr 1 []]) (.fvr 0)
      (.ctr 0 [.fvr 0, .ctr 1 []]) (.ctr 0 [.fvr 1, .ctr 2 []]) (.fvr 1) [] 8 []).map
        List.length = some 2 := by decide +kernel
  obtain ⟨out', hout, hlen⟩ := Option.map_eq_some_iff.mp hrun
  refine ⟨out', hout, fun hnil => ?_, ?_⟩
  · rw [hnil] at hlen
    cases hlen
  · exact atpAcUnifyEmitCps_sound 8 1 (fun _ => 0) _ _ _ _ _ [] 8 [] out' (by decide)
      ⟨hbinary 0 1 (by omega), hbinary 1 2 (by omega)⟩ rfl hout

/-- A constructor with one argument too many: `f(g(x, …, x), x)`. -/
def wideSum : FTerm := .ctr 0 [.ctr 3 (List.replicate 17 (.fvr 0)), .fvr 0]

/-- With `f(y, c)` the second `x` is replaced in the peak and the others are not. -/
theorem wideSum_peak : (atpAcUnifyEmitCps 8 1 (fun _ => 0) wideSum (.fvr 0) wideSum
    (.ctr 0 [.fvr 1, .ctr 2 []]) (.fvr 1) [] 1 []).map (List.map CriticalPair.peak) =
      some [some (.ctr 0 [.ctr 3 (List.replicate 17 (.fvr 0)), .ctr 2 []])] := by decide +kernel

theorem atpAcUnifyEmitCps_wide : ∃ out',
    atpAcUnifyEmitCps 8 1 (fun _ => 0) wideSum (.fvr 0) wideSum (.ctr 0 [.fvr 1, .ctr 2 []])
      (.fvr 1) [] 1 [] = some out' ∧
    ∃ cp ∈ out', ¬∃ σ, cp.peak = some (wideSum.inst σ) := by
  obtain ⟨out', hout, hpeaks⟩ := Option.map_eq_some_iff.mp wideSum_peak
  refine ⟨out', hout, ?_⟩
  match out', hpeaks with
  | [cp], hpeaks =>
    refine ⟨cp, List.mem_cons_self, ?_⟩
    rintro ⟨σ, hσ⟩
    have hpeak := (List.cons.inj hpeaks).1
    rw [hσ] at hpeak
    unfold wideSum at hpeak
    simp only [FTerm.inst_ctr, List.map_cons, List.map_nil, FTerm.inst_fvr, Option.some.injEq,
      TermTree.node.injEq, List.cons.injEq, true_and, and_true, List.map_replicate] at hpeak
    have hfirst := List.replicate_right_injective (by decide) hpeak.1
    rw [hfirst] at hpeak
    cases hpeak.2

end Thvm.Ac
