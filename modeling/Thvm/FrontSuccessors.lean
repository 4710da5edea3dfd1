import Thvm.FrontSearchSpec

/-!
# Successors of a front term

Each successor is equal to the term modulo the equations of the rules, and all one-step
rewrites are among the successors unless a call gives up or the buffer is full.
-/

namespace Thvm.Atp
open RewriteChains

/-! ## Matching -/

section
variable {eqs eqs' : List (FTerm × FTerm)} {t u v pat other : FTerm} {b b' : ℕ → Option FTerm}
  {P : FTerm → Prop} {q : List ℕ}

theorem thvmMatchArgs_bindings {ps ts : List FTerm}
    (ih : ∀ p ∈ ps, ∀ t b b', thvmMatch p t b = (true, b') → P t →
      (∀ id u, b id = some u → P u) → ∀ id u, b' id = some u → P u)
    (h : thvmMatchArgs ps ts b = (true, b')) (hts : ∀ t ∈ ts, P t)
    (hb : ∀ id u, b id = some u → P u) : ∀ id u, b' id = some u → P u := by
  induction ps generalizing ts b with
  | nil =>
    obtain rfl : b = b' := by cases ts <;> exact (Prod.mk.inj h).2
    exact hb
  | cons p ps ihps =>
    cases ts with
    | nil =>
      obtain rfl : b = b' := (Prod.mk.inj h).2
      exact hb
    | cons t ts =>
      rw [thvmMatchArgs] at h
      cases hhead : thvmMatch p t b with
      | mk ok b₁ =>
        rw [hhead] at h
        cases ok with
        | false => cases h
        | true =>
          obtain ⟨ht, hts⟩ := List.forall_mem_cons.mp hts
          exact ihps (fun q hq => ih q (List.mem_cons_of_mem _ hq)) h hts
            (ih p List.mem_cons_self t b b₁ hhead ht hb)

/-- What a match binds are parts of the term. -/
theorem thvmMatch_bindings (hP : ∀ f as, P (.node f as) → ∀ a ∈ as, P a)
    (h : thvmMatch pat t b = (true, b')) (ht : P t) (hb : ∀ id u, b id = some u → P u) :
    ∀ id u, b' id = some u → P u := by
  induction pat using TermTree.induct generalizing t b b' with
  | leaf l =>
    cases l with
    | num dtype value => cases h
    | fvr id =>
      rw [thvmMatch] at h
      split at h
      · cases h
      · split at h
        · obtain rfl := (Prod.mk.inj h).2
          intro id' u hu
          by_cases heq : id' = id
          · subst heq
            rw [Function.update_self] at hu
            exact Option.some.inj hu ▸ ht
          · rw [Function.update_of_ne heq] at hu
            exact hb id' u hu
        · obtain rfl := (Prod.mk.inj h).2
          exact hb
  | node f as ih =>
    cases t with
    | leaf l => cases h
    | node g bs =>
      rw [thvmMatch] at h
      split at h
      · cases h
      · split at h
        · cases h
        · exact thvmMatchArgs_bindings (fun p hp t b b' hpt => ih p hp hpt) h (hP g bs ht) hb

theorem mnfFire_some (h : mnfFire pat other t = some u) :
    ∃ b, thvmMatch pat t (fun _ => none) = (true, b) ∧ u = thvmSubstApply b other := by
  unfold mnfFire at h
  cases hmatch : thvmMatch pat t fun _ => none with
  | mk ok b =>
    cases ok with
    | false => simp [hmatch] at h
    | true =>
      simp only [hmatch, if_true] at h
      exact ⟨b, rfl, (Option.some.inj h).symm⟩

/-- A pattern is not larger than what it matches. -/
theorem mnfFire_size (h : mnfFire pat other t = some u) : pat.size ≤ t.size := by
  obtain ⟨b, hmatch, -⟩ := mnfFire_some h
  rw [← thvmMatch_inst hmatch]
  exact TermTree.size_le_subst _ pat

theorem mnfFire_capped (hother : other.ArityCapped) (ht : t.ArityCapped)
    (h : mnfFire pat other t = some u) : u.ArityCapped := by
  obtain ⟨b, hmatch, rfl⟩ := mnfFire_some h
  have hbound := thvmMatch_bindings (P := FTerm.ArityCapped)
    (fun f as has => (TermTree.every_node.mp has).2) hmatch ht fun _ _ hu => nomatch hu
  rw [thvmSubstApply_eq b hother.substitutable]
  refine TermTree.Every.subst hother fun l _ => ?_
  cases l with
  | num dtype value => exact .leaf _
  | fvr id =>
    change (bindSubst b id).ArityCapped
    unfold bindSubst
    split
    · cases hid : b id with
      | none => exact .leaf _
      | some v => exact hbound id v hid
    · exact .leaf _

/-! ## Equality modulo equations -/

/-- Joined by instances of the equations, read in both directions. -/
def EqualMod (eqs : List (FTerm × FTerm)) : FTerm → FTerm → Prop :=
  Relation.EqvGen fun t u => ∃ eq ∈ eqs, ∃ q, StepAt (InstanceOf eq) q t u

theorem EqualMod.refl (t : FTerm) : EqualMod eqs t t := Relation.EqvGen.refl t

theorem EqualMod.symm (h : EqualMod eqs t u) : EqualMod eqs u t := Relation.EqvGen.symm _ _ h

theorem EqualMod.trans (h : EqualMod eqs t u) (h' : EqualMod eqs u v) : EqualMod eqs t v :=
  Relation.EqvGen.trans _ _ _ h h'

theorem EqualMod.mono (hsub : eqs ⊆ eqs') (h : EqualMod eqs t u) : EqualMod eqs' t u := by
  induction h with
  | rel t u hstep =>
    obtain ⟨eq, heq, hstep⟩ := hstep
    exact .rel _ _ ⟨eq, hsub heq, hstep⟩
  | refl t => exact .refl t
  | symm t u _ ih => exact ih.symm
  | trans t u v _ _ ih ih' => exact ih.trans ih'

/-- The terms of the equations have narrow nodes. -/
def CappedEqs (eqs : List (FTerm × FTerm)) : Prop :=
  ∀ eq ∈ eqs, eq.1.ArityCapped ∧ eq.2.ArityCapped

theorem OneStep.equalMod (hcapped : CappedEqs eqs) (h : OneStep eqs t u) : EqualMod eqs t u := by
  obtain ⟨q, a, b, hsub, ⟨eq, heq, hfires⟩, rfl⟩ := h
  obtain ⟨hl, hr⟩ := hcapped eq heq
  rcases hfires with hfwd | ⟨-, hbwd⟩
  · exact .rel _ _ ⟨eq, heq, q, a, b, hsub, mnfFire_instanceOf hr.substitutable hfwd, rfl⟩
  · obtain ⟨σ, ha, hb⟩ := mnfFire_instanceOf hl.substitutable hbwd
    have hback : StepAt (fun a b => InstanceOf eq b a) q t (t.put q b) :=
      ⟨a, b, hsub, ⟨σ, hb, ha⟩, rfl⟩
    exact EqualMod.symm (.rel _ _ ⟨eq, heq, q, hback.symm⟩)

theorem OneStep.capped (hcapped : CappedEqs eqs) (h : OneStep eqs t u) (ht : t.ArityCapped) :
    u.ArityCapped := by
  obtain ⟨q, hstep⟩ := h
  refine hstep.every ?_ ht
  rintro a b ⟨eq, heq, hfwd | ⟨-, hbwd⟩⟩ ha
  · exact mnfFire_capped (hcapped eq heq).2 ha hfwd
  · exact mnfFire_capped (hcapped eq heq).1 ha hbwd

end

/-! ## Successors -/

section
variable {cut : ℕ → Bool} {allowAnti : Bool} {rules rules' : List ProverRule} {t u : FTerm}
  {back : Bool}

/-- A rule fires at the top: forward, or backward if that is allowed. -/
def Fires (allowAnti : Bool) (rules : List ProverRule) (back : Bool) (t u : FTerm) : Prop :=
  ∃ r ∈ rules,
    if back then allowAnti = true ∧ atpVarsContained r.rhs r.lhs = true ∧
      mnfFire r.rhs r.lhs t = some u
    else mnfFire r.lhs r.rhs t = some u

/-- No call from `a` up to `b` gives up. -/
def Calm (cut : ℕ → Bool) (a b : ℕ) : Prop := ∀ k, a ≤ k → k < b → cut k = false

theorem mnfForward_complete {r : ProverRule} (h : mnfFire r.lhs r.rhs t = some u) :
    (u, false) ∈ mnfForward t t.size r := by
  rw [mnfForward, if_pos (mnfFire_size h), h]
  exact List.mem_cons_self

theorem mnfBackward_complete {r : ProverRule} (hanti : allowAnti = true)
    (hvars : atpVarsContained r.rhs r.lhs = true) (h : mnfFire r.rhs r.lhs t = some u) :
    (u, true) ∈ mnfBackward allowAnti t t.size r := by
  have hsize := mnfFire_size h
  rw [mnfBackward, if_pos (by simp [hanti, hvars, hsize]), h]
  exact List.mem_cons_self

theorem mnfTryRules_complete {n : ℕ} (hroom : n + (mnfTryRules allowAnti t t.size rules n).length <
      mnfSuccCap) (h : Fires allowAnti rules back t u) :
    (u, back) ∈ mnfTryRules allowAnti t t.size rules n := by
  induction rules generalizing n with
  | nil =>
    obtain ⟨r, hr, -⟩ := h
    cases hr
  | cons r rs ih =>
    have hn : ¬n ≥ mnfSuccCap := by omega
    rw [mnfTryRules, if_neg hn] at hroom ⊢
    simp only at hroom ⊢
    split at hroom
    · next hfull =>
      rw [Bool.and_eq_true, decide_eq_true_eq, Bool.not_eq_true', List.isEmpty_eq_false_iff,
        ← List.length_pos_iff] at hfull
      omega
    · next hmore =>
      rw [if_neg hmore]
      simp only [List.length_append] at hroom
      obtain ⟨r', hr', hfires⟩ := h
      rw [List.mem_append, List.mem_append]
      rcases List.mem_cons.mp hr' with rfl | hr'
      · cases back with
        | false => exact .inl (.inl (mnfForward_complete hfires))
        | true => exact .inl (.inr (mnfBackward_complete hfires.1 hfires.2.1 hfires.2.2))
      · exact .inr (ih (by omega) ⟨r', hr', hfires⟩)

theorem ticks_mnfSuccessorsArgs {label i ticks n : ℕ} {all as : List FTerm}
    (ih : ∀ a ∈ as, ∀ ticks n, ticks < (mnfSuccessors cut allowAnti rules a ticks n).2.1) :
    ticks ≤ (mnfSuccessorsArgs cut allowAnti rules label all i as ticks n).2.1 := by
  induction as generalizing i ticks n with
  | nil => exact Nat.le_refl _
  | cons a as ihas =>
    rw [mnfSuccessorsArgs]
    exact (ih a List.mem_cons_self _ _).le.trans
      (ihas fun a' ha' => ih a' (List.mem_cons_of_mem _ ha'))

theorem ticks_mnfSuccessors (t : FTerm) (ticks n : ℕ) :
    ticks < (mnfSuccessors cut allowAnti rules t ticks n).2.1 := by
  induction t using TermTree.induct generalizing ticks n with
  | leaf l =>
    rw [mnfSuccessors]
    split <;> exact Nat.lt_succ_self _
  | node label args ih =>
    rw [mnfSuccessors]
    split
    · exact Nat.lt_succ_self _
    · split
      · exact Nat.lt_succ_self _
      · exact Nat.lt_of_succ_le (ticks_mnfSuccessorsArgs fun a ha => ih a ha)

/-- What is found in a term: its size, and every rewrite of it. -/
def Complete (allowAnti : Bool) (rules : List ProverRule) (t : FTerm)
    (found : ℕ × ℕ × List (FTerm × Bool)) : Prop :=
  found.1 = t.size ∧ ∀ q u back, StepAt (Fires allowAnti rules back) q t u → (u, back) ∈ found.2.2

/-- All that is found in the arguments is put back in its place. -/
theorem mnfSuccessorsArgs_complete {label i ticks n : ℕ} {all as : List FTerm}
    (ih : ∀ a ∈ as, ∀ ticks n, Calm cut ticks (mnfSuccessors cut allowAnti rules a ticks n).2.1 →
      n + (mnfSuccessors cut allowAnti rules a ticks n).2.2.length < mnfSuccCap →
      Complete allowAnti rules a (mnfSuccessors cut allowAnti rules a ticks n))
    (hcalm : Calm cut ticks (mnfSuccessorsArgs cut allowAnti rules label all i as ticks n).2.1)
    (hroom : n + (mnfSuccessorsArgs cut allowAnti rules label all i as ticks n).2.2.length <
      mnfSuccCap) :
    (mnfSuccessorsArgs cut allowAnti rules label all i as ticks n).1 = (as.map TermTree.size).sum ∧
      ∀ k a q u back, as[k]? = some a → StepAt (Fires allowAnti rules back) q a u →
        (.node label (all.set (i + k) u), back) ∈
          (mnfSuccessorsArgs cut allowAnti rules label all i as ticks n).2.2 := by
  induction as generalizing i ticks n with
  | nil => exact ⟨rfl, fun k a q u back ha => nomatch ha⟩
  | cons a as ihas =>
    have hhead := ih a List.mem_cons_self ticks n
    have hfirst : ticks < (mnfSuccessors cut allowAnti rules a ticks n).2.1 :=
      ticks_mnfSuccessors a ticks n
    rw [mnfSuccessorsArgs] at hcalm hroom ⊢
    simp only [List.length_append, List.length_map] at hcalm hroom ⊢
    rw [← Nat.add_assoc] at hroom
    generalize mnfSuccessors cut allowAnti rules a ticks n = found at *
    have hcalmrest : Calm cut found.2.1 (mnfSuccessorsArgs cut allowAnti rules label all (i + 1) as
        found.2.1 (n + found.2.2.length)).2.1 := fun k hk hk' => hcalm k (hfirst.le.trans hk) hk'
    have hrest := ihas (fun a' ha' => ih a' (List.mem_cons_of_mem _ ha')) hcalmrest hroom
    have hticks : found.2.1 ≤ (mnfSuccessorsArgs cut allowAnti rules label all (i + 1) as
        found.2.1 (n + found.2.2.length)).2.1 :=
      ticks_mnfSuccessorsArgs fun a' _ => ticks_mnfSuccessors a'
    obtain ⟨hsize, hfound⟩ := hhead (fun k hk hk' => hcalm k hk (hk'.trans_le hticks))
      (Nat.lt_of_le_of_lt (Nat.le_add_right _ _) hroom)
    obtain ⟨hsizes, htail⟩ := hrest
    refine ⟨?_, fun k a' q u back ha' hstep => ?_⟩
    · rw [hsize, hsizes, List.map_cons, List.sum_cons]
    · rw [List.mem_append]
      cases k with
      | zero =>
        obtain rfl := Option.some.inj ha'
        exact .inl (List.mem_map.mpr ⟨(u, back), hfound q u back hstep, rfl⟩)
      | succ k =>
        have hlater := htail k a' q u back ha' hstep
        rw [Nat.add_right_comm, Nat.add_assoc] at hlater
        exact .inr hlater

/-- Every rewrite is found if no call gives up and there is room. -/
theorem mnfSuccessors_complete (ht : t.ArityCapped) {ticks n : ℕ}
    (hcalm : Calm cut ticks (mnfSuccessors cut allowAnti rules t ticks n).2.1)
    (hroom : n + (mnfSuccessors cut allowAnti rules t ticks n).2.2.length < mnfSuccCap) :
    Complete allowAnti rules t (mnfSuccessors cut allowAnti rules t ticks n) := by
  induction t using TermTree.induct generalizing ticks n with
  | leaf l =>
    have hgo := hcalm ticks (Nat.le_refl _) (ticks_mnfSuccessors _ _ _)
    rw [mnfSuccessors, hgo, if_neg Bool.false_ne_true] at hroom ⊢
    refine ⟨rfl, fun q u back hstep => ?_⟩
    cases q with
    | nil => exact mnfTryRules_complete hroom (stepAt_nil.mp hstep)
    | cons i q =>
      obtain ⟨g, args, a, b, hnode, -⟩ := stepAt_cons.mp hstep
      cases hnode
  | node label args ih =>
    have hgo := hcalm ticks (Nat.le_refl _) (ticks_mnfSuccessors _ _ _)
    obtain ⟨hnarrow, hargs⟩ := TermTree.every_node.mp ht
    rw [mnfSuccessors, hgo, if_neg Bool.false_ne_true, if_neg (Nat.not_lt.mpr hnarrow)] at hcalm
    rw [mnfSuccessors, hgo, if_neg Bool.false_ne_true, if_neg (Nat.not_lt.mpr hnarrow)] at hroom ⊢
    simp only [List.length_append] at hcalm hroom ⊢
    rw [← Nat.add_assoc] at hroom
    obtain ⟨hsizes, hbelow⟩ := mnfSuccessorsArgs_complete
      (fun a ha ticks n hcalm hroom => ih a ha (hargs a ha) hcalm hroom)
      (fun k hk hk' => hcalm k (Nat.le_of_succ_le hk) hk')
      (Nat.lt_of_le_of_lt (Nat.le_add_right _ _) hroom)
    have hsize : (mnfSuccessorsArgs cut allowAnti rules label args 0 args (ticks + 1) n).1 + 1 =
        (FTerm.ctr label args).size := by
      rw [hsizes, TermTree.size_node, Nat.add_comm]
    rw [hsize] at hroom ⊢
    refine ⟨rfl, fun q u back hstep => List.mem_append.mpr ?_⟩
    cases q with
    | nil => exact .inr (mnfTryRules_complete hroom (stepAt_nil.mp hstep))
    | cons i q =>
      obtain ⟨g, args', a, b, hnode, ha, hbelowstep, rfl⟩ := stepAt_cons.mp hstep
      obtain ⟨rfl, rfl⟩ := TermTree.node.inj hnode
      have hfound := hbelow i a q b back ha hbelowstep
      rw [Nat.zero_add] at hfound
      exact .inl hfound

end

end Thvm.Atp
