import Mathlib.Tactic.Ring
import Thvm.KnuthBendix
import Thvm.TermWeightsSpec

/-!
# What the comparisons of `thvm_kbo` decide

All three decide the Knuth-Bendix ordering. A level of the comparison looks at the
variables, then at the weights, then at the roots, and goes on at the first arguments
that differ.
-/

namespace Thvm.Kbo

open MemoTables TermTree

abbrev KboGt (cfg : KboConfig) : FTerm → FTerm → Prop := KnuthBendix.Gt cfg.scale

open Classical in
noncomputable def kboVerdict (cfg : KboConfig) (s t : FTerm) : Cmp :=
  if s = t then .eq else if KboGt cfg s t then .gt else if KboGt cfg t s then .lt else .un

section Verdict

variable {cfg : KboConfig} {s t : FTerm} {f g : ℕ} {as bs : List FTerm}

theorem kboVerdict_self (cfg : KboConfig) (s : FTerm) : kboVerdict cfg s s = .eq := if_pos rfl

theorem kboVerdict_of_gt (h : KboGt cfg s t) : kboVerdict cfg s t = .gt := by
  rw [kboVerdict, if_neg h.ne, if_pos h]

theorem kboVerdict_of_lt (h : KboGt cfg t s) : kboVerdict cfg s t = .lt := by
  rw [kboVerdict, if_neg h.ne.symm, if_neg h.asymm, if_pos h]

theorem kboVerdict_of_not (hne : s ≠ t) (hgt : ¬ KboGt cfg s t) (hlt : ¬ KboGt cfg t s) :
    kboVerdict cfg s t = .un := by
  rw [kboVerdict, if_neg hne, if_neg hgt, if_neg hlt]

theorem kboVerdict_eq_iff : kboVerdict cfg s t = .eq ↔ s = t := by
  constructor
  · intro h
    unfold kboVerdict at h
    split_ifs at h with heq
    exact heq
  · rintro rfl
    exact kboVerdict_self cfg s

theorem kboVerdict_gt_iff : kboVerdict cfg s t = .gt ↔ KboGt cfg s t := by
  constructor
  · intro h
    unfold kboVerdict at h
    split_ifs at h with _ hgt
    exact hgt
  · exact kboVerdict_of_gt

theorem kboVerdict_lt_iff : kboVerdict cfg s t = .lt ↔ KboGt cfg t s := by
  constructor
  · intro h
    unfold kboVerdict at h
    split_ifs at h with _ _ hlt
    exact hlt
  · exact kboVerdict_of_lt

theorem kboVerdict_flip (cfg : KboConfig) (s t : FTerm) :
    kboVerdict cfg t s = (kboVerdict cfg s t).flip := by
  by_cases heq : s = t
  · subst heq
    rw [kboVerdict_self]
    rfl
  · by_cases hgt : KboGt cfg s t
    · rw [kboVerdict_of_gt hgt, kboVerdict_of_lt hgt]
      rfl
    · by_cases hlt : KboGt cfg t s
      · rw [kboVerdict_of_gt hlt, kboVerdict_of_lt hlt]
        rfl
      · rw [kboVerdict_of_not heq hgt hlt, kboVerdict_of_not (Ne.symm heq) hlt hgt]
        rfl

/-- The variables of the second term are among those of the first, as often. -/
abbrev Covers (s t : FTerm) : Prop := t.leaves.Subperm s.leaves

/-- A verdict of one level. -/
def kboLevel (sDom tDom : Bool) (phi : ℤ) (tie : Cmp) : Cmp :=
  if !sDom && !tDom then .un
  else if 0 < phi then if sDom then .gt else .un
  else if phi < 0 then if tDom then .lt else .un
  else kboGate sDom tDom tie

/-- What decides between terms of one weight. -/
noncomputable def kboTie (cfg : KboConfig) : FTerm → FTerm → Cmp
  | .node f as, .node g bs =>
    if cfg.prec g < cfg.prec f then .gt
    else if cfg.prec f < cfg.prec g then .lt
    else if as.length ≠ bs.length then .un
    else firstOther (kboVerdict cfg) as bs
  | _, _ => .un

def weightDiff (cfg : KboConfig) (s t : FTerm) : ℤ := cfg.scale.weight s - cfg.scale.weight t

theorem kboLevel_gt_iff {a b : Bool} {phi : ℤ} {tie : Cmp} :
    kboLevel a b phi tie = .gt ↔ a = true ∧ (0 < phi ∨ phi = 0 ∧ tie = .gt) := by
  unfold kboLevel kboGate
  rcases lt_trichotomy phi 0 with hlt | rfl | hgt
  · cases a <;> cases b <;> simp [hlt, hlt.not_gt, hlt.ne]
  · cases a <;> cases b <;> cases tie <;> simp
  · cases a <;> cases b <;> simp [hgt]

theorem kboLevel_flip {a b : Bool} {phi : ℤ} {tie : Cmp} :
    kboLevel b a (-phi) tie.flip = (kboLevel a b phi tie).flip := by
  unfold kboLevel kboGate
  rcases lt_trichotomy phi 0 with hlt | rfl | hgt
  · cases a <;> cases b <;> simp [hlt, hlt.not_gt, Cmp.flip]
  · cases a <;> cases b <;> cases tie <;> simp [Cmp.flip]
  · cases a <;> cases b <;> simp [hgt, hgt.not_gt, Cmp.flip]

theorem kboTie_flip (cfg : KboConfig) (s t : FTerm) : kboTie cfg t s = (kboTie cfg s t).flip := by
  cases s with
  | leaf l => cases t <;> rfl
  | node f as =>
    cases t with
    | leaf l => rfl
    | node g bs =>
      rw [kboTie, kboTie]
      rcases lt_trichotomy (cfg.prec f) (cfg.prec g) with hlt | heq | hgt
      · simp [hlt, hlt.not_gt, Cmp.flip]
      · simp only [heq, lt_irrefl, if_false]
        by_cases hlen : as.length = bs.length
        · rw [if_neg (by simp [hlen]), if_neg (by simp [hlen])]
          exact firstOther_flip fun a b => kboVerdict_flip cfg b a
        · rw [if_pos (Ne.symm hlen), if_pos hlen]
          rfl
      · simp [hgt, hgt.not_gt, Cmp.flip]

variable {S : ℕ → ℕ → Prop}

theorem firstOther_kboVerdict_eq_iff (hlen : as.length = bs.length) :
    firstOther (kboVerdict cfg) as bs = .eq ↔ as = bs := by
  have heq : ∀ a b, kboVerdict cfg a b = .eq ↔ id a = id b := fun _ _ => kboVerdict_eq_iff
  rw [firstOther_eq_iff heq hlen, List.map_id, List.map_id]

theorem firstOther_kboVerdict_gt_iff : firstOther (kboVerdict cfg) as bs = .gt ↔
    LexOrder.Above (· = ·) (KboGt cfg) as bs := by
  have heq : ∀ a b, kboVerdict cfg a b = .eq ↔ id a = id b := fun _ _ => kboVerdict_eq_iff
  have hgt : ∀ a b, kboVerdict cfg a b = .gt ↔ KboGt cfg (id a) (id b) :=
    fun _ _ => kboVerdict_gt_iff
  rw [firstOther_gt_iff heq hgt, List.map_id, List.map_id]

theorem kboTie_gt_iff (hinj : InjectiveOn cfg.prec S) (hf : S f as.length) (hg : S g bs.length) :
    kboTie cfg (.node f as) (.node g bs) = .gt ↔ KnuthBendix.Gt.Tie cfg.scale f g as bs := by
  rw [kboTie]
  unfold KnuthBendix.Gt.Tie
  rcases lt_trichotomy (cfg.prec g) (cfg.prec f) with hlt | heq | hgt
  · simp [hlt, KboConfig.scale]
  · obtain rfl := hinj f g _ _ hf hg heq.symm
    by_cases hlen : as.length = bs.length
    · rw [if_neg (lt_irrefl _), if_neg (lt_irrefl _), if_neg (not_not.mpr hlen),
        firstOther_kboVerdict_gt_iff, or_iff_right (lt_irrefl _), and_iff_right rfl,
        and_iff_right hlen]
    · simp [hlen]
  · have hne : f ≠ g := by
      rintro rfl
      exact lt_irrefl _ hgt
    simp [hgt, hgt.not_gt, hne, KboConfig.scale]

theorem kboGt_iff (hinj : InjectiveOn cfg.prec S) (hs : s.Over S) (ht : t.Over S) :
    KboGt cfg s t ↔ Covers s t ∧
      (0 < weightDiff cfg s t ∨ weightDiff cfg s t = 0 ∧ kboTie cfg s t = .gt) := by
  unfold weightDiff
  constructor
  · intro h
    refine ⟨h.leaves_subperm, ?_⟩
    rcases lt_or_eq_of_le h.weight_le with hlt | heq
    · exact .inl (by omega)
    · obtain ⟨f, as, g, bs, rfl, rfl⟩ := h.nodes heq.symm
      refine .inr ⟨by omega, (kboTie_gt_iff hinj hs.root ht.root).mpr ?_⟩
      exact ((KnuthBendix.Gt.tie_iff heq.symm).mp h).2
  · rintro ⟨hleaves, hlt | ⟨heq, htie⟩⟩
    · exact .weight hleaves (by omega)
    · cases s with
      | leaf l => cases htie
      | node f as =>
        cases t with
        | leaf l => cases htie
        | node g bs =>
          rw [kboTie_gt_iff hinj hs.root ht.root] at htie
          exact (KnuthBendix.Gt.tie_iff (by omega)).mpr ⟨hleaves, htie⟩

theorem kboTie_ne_eq (hinj : InjectiveOn cfg.prec S) (hs : s.Over S) (ht : t.Over S)
    (hne : s ≠ t) : kboTie cfg s t ≠ .eq := by
  intro heq
  cases s with
  | leaf l => cases heq
  | node f as =>
    cases t with
    | leaf l => cases heq
    | node g bs =>
      rw [kboTie] at heq
      split_ifs at heq with hprec hprec' hlen
      obtain rfl := hinj f g _ _ hs.root ht.root (by omega)
      rw [firstOther_kboVerdict_eq_iff (not_not.mp hlen)] at heq
      exact hne (heq ▸ rfl)

theorem firstOther_ne_raw {v : FTerm → FTerm → Cmp} (h : ∀ a b, v a b ≠ .raw) :
    firstOther v as bs ≠ .raw := by
  induction as generalizing bs with
  | nil => exact nofun
  | cons a as ih =>
    cases bs with
    | nil => exact nofun
    | cons b bs =>
      rw [firstOther]
      split
      · exact h a b
      · exact ih

theorem kboVerdict_ne_raw (cfg : KboConfig) (s t : FTerm) : kboVerdict cfg s t ≠ .raw := by
  unfold kboVerdict
  split_ifs <;> exact nofun

theorem kboTie_ne_raw (cfg : KboConfig) (s t : FTerm) : kboTie cfg s t ≠ .raw := by
  cases s with
  | leaf l => exact nofun
  | node f as =>
    cases t with
    | leaf l => exact nofun
    | node g bs =>
      rw [kboTie]
      split_ifs
      · exact nofun
      · exact nofun
      · exact nofun
      · exact firstOther_ne_raw (kboVerdict_ne_raw cfg)

theorem kboLevel_cases {a b : Bool} {phi : ℤ} {tie : Cmp} (heq : tie ≠ .eq) (hraw : tie ≠ .raw) :
    kboLevel a b phi tie = .gt ∨ kboLevel a b phi tie = .lt ∨ kboLevel a b phi tie = .un := by
  have hgate : kboGate a b tie = .gt ∨ kboGate a b tie = .lt ∨ kboGate a b tie = .un := by
    cases tie with
    | eq => exact absurd rfl heq
    | raw => exact absurd rfl hraw
    | _ => cases a <;> cases b <;> simp [kboGate]
  unfold kboLevel
  split_ifs
  · exact .inr (.inr rfl)
  · exact .inl rfl
  · exact .inr (.inr rfl)
  · exact .inr (.inl rfl)
  · exact .inr (.inr rfl)
  · exact hgate

/-- One level of the comparison. -/
theorem kboVerdict_level (hinj : InjectiveOn cfg.prec S) (hs : s.Over S) (ht : t.Over S)
    (hne : s ≠ t) : kboVerdict cfg s t =
      kboLevel (decide (Covers s t)) (decide (Covers t s)) (weightDiff cfg s t)
        (kboTie cfg s t) := by
  have hgt : KboGt cfg s t ↔ kboLevel (decide (Covers s t)) (decide (Covers t s))
      (weightDiff cfg s t) (kboTie cfg s t) = .gt := by
    rw [kboGt_iff hinj hs ht, kboLevel_gt_iff, decide_eq_true_iff]
  have hlt : KboGt cfg t s ↔ kboLevel (decide (Covers s t)) (decide (Covers t s))
      (weightDiff cfg s t) (kboTie cfg s t) = .lt := by
    have hdiff : weightDiff cfg t s = -weightDiff cfg s t := by
      unfold weightDiff
      omega
    have hflip : KboGt cfg t s ↔ kboLevel (decide (Covers t s)) (decide (Covers s t))
        (weightDiff cfg t s) (kboTie cfg t s) = .gt := by
      rw [kboGt_iff hinj ht hs, kboLevel_gt_iff, decide_eq_true_iff]
    rw [hflip, hdiff, kboTie_flip, kboLevel_flip]
    cases kboLevel (decide (Covers s t)) (decide (Covers t s)) (weightDiff cfg s t)
      (kboTie cfg s t) <;> simp [Cmp.flip]
  rcases @kboLevel_cases (decide (Covers s t)) (decide (Covers t s)) (weightDiff cfg s t) _
    (kboTie_ne_eq hinj hs ht hne) (kboTie_ne_raw cfg s t) with h | h | h
  · rw [h, kboVerdict_of_gt (hgt.mpr h)]
  · rw [h, kboVerdict_of_lt (hlt.mpr h)]
  · rw [h, kboVerdict_of_not hne]
    · rw [hgt, h]
      exact nofun
    · rw [hlt, h]
      exact nofun

end Verdict

/-! ### Counts of variables -/

section Counts

variable {cfg : KboConfig} {W : Term → FTerm} {S : ℕ → ℕ → Prop} {T : FTerm → Prop} {s t : FTerm}

/-- How much more often a variable occurs in the first term. -/
def varDiff (s t : FTerm) (v : ℕ) : ℤ :=
  s.leaves.count (.fvr v) - t.leaves.count (.fvr v)

theorem varDiff_swap (s t : FTerm) (v : ℕ) : varDiff t s v = -varDiff s t v := by
  unfold varDiff
  omega

theorem covers_iff (ht : t.Over S) (hvars : t.VarsBelow kboMaxVar) :
    Covers s t ↔ ∀ v < kboMaxVar, 0 ≤ varDiff s t v := by
  rw [Covers, List.subperm_ext_iff]
  unfold varDiff
  constructor
  · intro h v _
    by_cases hv : Leaf.fvr v ∈ t.leaves
    · have := h _ hv
      omega
    · rw [List.count_eq_zero_of_not_mem hv]
      omega
  · intro h l hl
    obtain ⟨v, rfl⟩ := ht.leaves l hl
    have := h v (hvars v hl)
    omega

end Counts

/-! ### The recursion of the textbook -/

section Naive

variable {cfg : KboConfig} {W : Term → FTerm} {S : ℕ → ℕ → Prop} {T : FTerm → Prop}
  {s t : LTerm} {as bs : List LTerm} {b b' : Balance}

/-- What a step of `kbo_diff` adds to a balance. -/
structure Balances (b b' : Balance) (w : ℤ) (d : ℕ → ℤ) : Prop where
  wb : b'.wb = b.wb + w
  bal : ∀ v < kboMaxVar, b'.bal v = b.bal v + d v

theorem Balances.refl (b : Balance) : Balances b b 0 fun _ => 0 :=
  ⟨(add_zero _).symm, fun _ _ => (add_zero _).symm⟩

theorem Balances.trans {b'' : Balance} {w w' : ℤ} {d d' : ℕ → ℤ} (h : Balances b b' w d)
    (h' : Balances b' b'' w' d') : Balances b b'' (w + w') fun v => d v + d' v where
  wb := by rw [h'.wb, h.wb, add_assoc]
  bal v hv := by rw [h'.bal v hv, h.bal v hv, add_assoc]

theorem Balances.cast {w w' : ℤ} {d d' : ℕ → ℤ} (h : Balances b b' w d) (hw : w = w')
    (hd : ∀ v, d v = d' v) : Balances b b' w' d' where
  wb := hw ▸ h.wb
  bal v hv := hd v ▸ h.bal v hv

theorem kboAddto_balances (sign : ℤ) (ht : t.erase.Over S) (b : Balance) :
    Balances b (kboAddto cfg sign t b) (sign * cfg.scale.weight t.erase)
      fun v => sign * t.erase.leaves.count (.fvr v) := by
  induction t using TermTree.induct generalizing b with
  | leaf l =>
    obtain ⟨id, rfl⟩ := ht.leaf
    constructor
    · rfl
    · intro v hv
      rw [kboAddto, LTerm.erase_leaf, leaves_leaf, List.count_singleton]
      by_cases hid : id = v
      · subst hid
        simp [hv]
      · have hne : (Leaf.fvr v == Leaf.fvr id) = false := by simpa using Ne.symm hid
        split
        · simp [Ne.symm hid, hid]
        · simp [hid]
  | node c args ih =>
    have hargs : ∀ b : Balance, Balances b (kboAddtoArgs cfg sign args b)
        (sign * ((args.map LTerm.erase).map cfg.scale.weight).sum)
        fun v => sign * ((args.map LTerm.erase).flatMap TermTree.leaves).count (.fvr v) := by
      rw [LTerm.erase_node] at ht
      replace ht : ∀ a ∈ args, (LTerm.erase a).Over S :=
        fun a ha => ht.arg (List.mem_map_of_mem ha)
      induction args with
      | nil => exact fun b => (Balances.refl b).cast (by simp) (by simp)
      | cons a as ihs =>
        rw [List.forall_mem_cons] at ih ht
        intro b
        rw [kboAddtoArgs]
        refine ((ih.1 ht.1 b).trans (ihs ih.2 ht.2 _)).cast ?_ ?_
        · simp [mul_add]
        · intro v
          simp [mul_add]
    have hroot : Balances b { b with wb := b.wb + sign * cfg.weight c.label }
        (sign * cfg.weight c.label) fun _ => 0 :=
      ⟨rfl, fun v _ => (add_zero _).symm⟩
    rw [kboAddto, LTerm.erase_node]
    refine (hroot.trans (hargs _)).cast ?_ ?_
    · rw [KnuthBendix.Scale.weight_node]
      simp only [KboConfig.scale]
      push_cast
      ring
    · intro v
      rw [leaves_node, zero_add]

theorem weightDiff_node {f : ℕ} {as bs : List FTerm} :
    weightDiff cfg (.node f as) (.node f bs) =
      ((as.map cfg.scale.weight).sum : ℤ) - (bs.map cfg.scale.weight).sum := by
  rw [weightDiff, KnuthBendix.Scale.weight_node, KnuthBendix.Scale.weight_node]
  push_cast
  ring

theorem varDiff_node {f g v : ℕ} {as bs : List FTerm} : varDiff (.node f as) (.node g bs) v =
    ((as.flatMap TermTree.leaves).count (.fvr v) : ℤ) -
      (bs.flatMap TermTree.leaves).count (.fvr v) := by
  rw [varDiff, leaves_node, leaves_node]

theorem weightDiff_self (s : FTerm) : weightDiff cfg s s = 0 := sub_self _

theorem varDiff_self (s : FTerm) (v : ℕ) : varDiff s s v = 0 := sub_self _

/-- What `kbo_diff` comes to on a pair of terms. -/
structure Diffs (cfg : KboConfig) (s t : FTerm) (b : Balance) (run : Bool × Balance) : Prop where
  ident : run.1 = decide (s = t)
  balance : Balances b run.2 (weightDiff cfg s t) (varDiff s t)

theorem diffs_of_eq {s t : FTerm} (h : s = t) : Diffs cfg s t b (true, b) := by
  subst h
  refine ⟨(decide_eq_true rfl).symm, (Balances.refl b).cast (weightDiff_self s).symm fun v => ?_⟩
  rw [varDiff_self]

theorem kboDiverge_diffs (hs : s.erase.Over S) (ht : t.erase.Over S) (hne : s.erase ≠ t.erase) :
    Diffs cfg s.erase t.erase b (kboDiverge cfg s t b) := by
  refine ⟨(decide_eq_false hne).symm, ?_⟩
  refine ((kboAddto_balances 1 hs b).trans (kboAddto_balances (-1) ht _)).cast ?_ fun v => ?_
  · unfold weightDiff
    ring
  · unfold varDiff
    ring

theorem erase_eq_of_word {s t : LTerm} (hs : s.Reads W) (ht : t.Reads W) (h : s.word = t.word) :
    s.erase = t.erase := by
  rw [← hs.word_eq, ← ht.word_eq, h]

theorem kboDiffArgs_diffs (hlen : as.length = bs.length)
    (h : ∀ a ∈ as, ∀ b ∈ bs, ∀ bal, Diffs cfg a.erase b.erase bal (kboDiff cfg a b bal)) :
    (kboDiffArgs cfg as bs b).1 = decide (as.map LTerm.erase = bs.map LTerm.erase) ∧
      Balances b (kboDiffArgs cfg as bs b).2
        (((as.map LTerm.erase).map cfg.scale.weight).sum -
          ((bs.map LTerm.erase).map cfg.scale.weight).sum : ℤ)
        fun v => (((as.map LTerm.erase).flatMap TermTree.leaves).count (.fvr v) : ℤ) -
          ((bs.map LTerm.erase).flatMap TermTree.leaves).count (.fvr v) := by
  induction as generalizing bs b with
  | nil =>
    obtain rfl := List.length_eq_zero_iff.mp hlen.symm
    refine ⟨by simp [kboDiffArgs], ?_⟩
    rw [kboDiffArgs]
    · exact (Balances.refl b).cast (by simp) (by simp)
    · exact nofun
  | cons a as ih =>
    cases bs with
    | nil => cases hlen
    | cons c cs =>
      have hhead := h a List.mem_cons_self c List.mem_cons_self b
      have htail := ih (Nat.succ.inj hlen) (b := (kboDiff cfg a c b).2)
        fun a' ha b' hb => h a' (List.mem_cons_of_mem _ ha) b' (List.mem_cons_of_mem _ hb)
      rw [kboDiffArgs]
      refine ⟨?_, (hhead.balance.trans htail.2).cast ?_ fun v => ?_⟩
      · simp only [hhead.ident, htail.1, List.map_cons, List.cons.injEq, Bool.decide_and]
      · simp only [weightDiff, List.map_cons, List.sum_cons]
        push_cast
        ring
      · simp only [varDiff, List.map_cons, List.flatMap_cons, List.count_append]
        push_cast
        ring

theorem kboDiff_diffs (hs : Domain W S s) (ht : Domain W S t) (b : Balance) :
    Diffs cfg s.erase t.erase b (kboDiff cfg s t b) := by
  induction s using TermTree.induct generalizing t b with
  | leaf l =>
    unfold kboDiff
    split
    · next hword => exact diffs_of_eq (erase_eq_of_word hs.reads ht.reads hword)
    · cases t with
      | leaf l' =>
        dsimp only
        split
        · next heq => exact diffs_of_eq (by rw [heq])
        · next hne => exact kboDiverge_diffs hs.built ht.built fun h => hne (leaf.inj h)
      | node d bs => exact kboDiverge_diffs hs.built ht.built (by simp)
  | node c as ih =>
    unfold kboDiff
    split
    · next hword => exact diffs_of_eq (erase_eq_of_word hs.reads ht.reads hword)
    · cases t with
      | leaf l' => exact kboDiverge_diffs hs.built ht.built (by simp)
      | node d bs =>
        dsimp only
        split
        · next hroot =>
          obtain ⟨hlabel, hlen⟩ := hroot
          have hargs := @kboDiffArgs_diffs cfg _ _ b hlen
            fun a ha b hb bal => ih a ha (hs.arg ha) (ht.arg hb) bal
          rw [LTerm.erase_node, LTerm.erase_node, hlabel]
          refine ⟨?_, hargs.2.cast weightDiff_node.symm fun v => varDiff_node.symm⟩
          rw [hargs.1]
          simp
        · next hroot =>
          apply kboDiverge_diffs hs.built ht.built
          rw [LTerm.erase_node, LTerm.erase_node]
          intro heq
          obtain ⟨hlabel, hargs⟩ := node.inj heq
          have hlen := congrArg List.length hargs
          rw [List.length_map, List.length_map] at hlen
          exact hroot ⟨hlabel, hlen⟩

/-- A term of a call to the comparisons. -/
structure Comparable (W : Term → FTerm) (S : ℕ → ℕ → Prop) (t : LTerm) : Prop extends
    Domain W S t where
  vars : t.erase.VarsBelow kboMaxVar

theorem Comparable.arg {c : Cell} (h : Comparable W S (.node c as)) {a : LTerm} (ha : a ∈ as) :
    Comparable W S a where
  toDomain := h.toDomain.arg ha
  vars id hid := by
    apply h.vars
    rw [LTerm.erase_node]
    exact mem_leaves_node.mpr ⟨_, List.mem_map_of_mem ha, hid⟩

theorem kboRecArgs_eq (h : ∀ a ∈ as, ∀ b ∈ bs, kboRec cfg a b = kboVerdict cfg a.erase b.erase) :
    kboRecArgs cfg as bs = firstOther (kboVerdict cfg) (as.map LTerm.erase) (bs.map LTerm.erase) := by
  induction as generalizing bs with
  | nil => cases bs <;> rw [kboRecArgs] <;> first | rfl | exact nofun
  | cons a as ih =>
    cases bs with
    | nil => 
      rw [kboRecArgs]
      · rfl
      · exact nofun
    | cons b bs =>
      have hhead := h a List.mem_cons_self b List.mem_cons_self
      have htail := ih fun a' ha b' hb => h a' (List.mem_cons_of_mem _ ha) b' (List.mem_cons_of_mem _ hb)
      rw [kboRecArgs, hhead, htail, List.map_cons, List.map_cons, firstOther]
      cases kboVerdict cfg a.erase b.erase <;> rfl

theorem all_nonneg_iff {bal : ℕ → ℤ} {d : ℕ → ℤ} (h : ∀ v < kboMaxVar, bal v = 0 + d v) :
    ((List.range kboMaxVar).all fun i => 0 ≤ bal i) = decide (∀ v < kboMaxVar, 0 ≤ d v) := by
  rw [Bool.eq_iff_iff, List.all_eq_true, decide_eq_true_iff]
  simp only [List.mem_range, decide_eq_true_eq]
  refine forall₂_congr fun v hv => ?_
  rw [h v hv, zero_add]

theorem all_nonpos_iff {bal : ℕ → ℤ} {d : ℕ → ℤ} (h : ∀ v < kboMaxVar, bal v = 0 + d v) :
    ((List.range kboMaxVar).all fun i => bal i ≤ 0) = decide (∀ v < kboMaxVar, d v ≤ 0) := by
  rw [Bool.eq_iff_iff, List.all_eq_true, decide_eq_true_iff]
  simp only [List.mem_range, decide_eq_true_eq]
  refine forall₂_congr fun v hv => ?_
  rw [h v hv, zero_add]

/-- What decides between terms of one weight, as far as the balance allows it. -/
theorem kboRec_tie (sDom tDom : Bool) : (∀ c as d bs, s = .node c as → t = .node d bs →
      kboRecArgs cfg as bs =
        firstOther (kboVerdict cfg) (as.map LTerm.erase) (bs.map LTerm.erase)) →
    (match s with
      | .leaf _ => Cmp.un
      | .node c as =>
        match t with
        | .leaf _ => Cmp.un
        | .node d bs =>
          if cfg.prec d.label < cfg.prec c.label then if sDom then .gt else .un
          else if cfg.prec c.label < cfg.prec d.label then if tDom then .lt else .un
          else if as.length ≠ bs.length then .un
          else kboGate sDom tDom (kboRecArgs cfg as bs)) =
      kboGate sDom tDom (kboTie cfg s.erase t.erase) := by
  intro hargs
  cases s with
  | leaf l => rfl
  | node c as =>
    cases t with
    | leaf l =>
      rw [LTerm.erase_node]
      rfl
    | node d bs =>
      simp only [LTerm.erase_node, kboTie, List.length_map, hargs c as d bs rfl rfl]
      split_ifs <;> simp_all [kboGate]

/-- One call of `kbo_rec`. -/
theorem kboRec_level (hs : Comparable W S s) (ht : Comparable W S t)
    (hargs : ∀ c as d bs, s = .node c as → t = .node d bs →
      kboRecArgs cfg as bs = firstOther (kboVerdict cfg) (as.map LTerm.erase) (bs.map LTerm.erase)) :
    kboRec cfg s t = if s.erase = t.erase then .eq
      else kboLevel (decide (Covers s.erase t.erase)) (decide (Covers t.erase s.erase))
        (weightDiff cfg s.erase t.erase) (kboTie cfg s.erase t.erase) := by
  have hdiff : Diffs cfg _ _ _ _ := kboDiff_diffs hs.toDomain ht.toDomain ⟨0, fun _ => 0⟩
  have hsDom : ((List.range kboMaxVar).all fun i =>
      0 ≤ (kboDiff cfg s t ⟨0, fun _ => 0⟩).2.bal i) = decide (Covers s.erase t.erase) := by
    rw [all_nonneg_iff hdiff.balance.bal]
    exact decide_eq_decide.mpr (covers_iff ht.built ht.vars).symm
  have htDom : ((List.range kboMaxVar).all fun i =>
      (kboDiff cfg s t ⟨0, fun _ => 0⟩).2.bal i ≤ 0) = decide (Covers t.erase s.erase) := by
    rw [all_nonpos_iff hdiff.balance.bal]
    refine decide_eq_decide.mpr (Iff.trans ?_ (covers_iff hs.built hs.vars).symm)
    refine forall₂_congr fun v hv => ?_
    rw [varDiff_swap t.erase]
    omega
  have hphi : (kboDiff cfg s t ⟨0, fun _ => 0⟩).2.wb = weightDiff cfg s.erase t.erase :=
    hdiff.balance.wb.trans (zero_add _)
  rw [kboRec.eq_def]
  dsimp only
  rw [hsDom, htDom, hphi, hdiff.ident]
  by_cases heq : s.erase = t.erase
  · rw [if_pos (decide_eq_true heq), if_pos heq]
  · rewrite [if_neg (by simpa using heq), if_neg heq, kboLevel, ← kboRec_tie _ _ hargs]
    rfl

theorem thvmKboNaive_eq (hinj : InjectiveOn cfg.prec S) (hs : Comparable W S s)
    (ht : Comparable W S t) : thvmKboNaive cfg s t = kboVerdict cfg s.erase t.erase := by
  unfold thvmKboNaive
  induction s using TermTree.induct generalizing t with
  | leaf l =>
    rw [kboRec_level hs ht fun _ _ _ _ h => nomatch h]
    split
    · next heq => rw [heq, kboVerdict_self]
    · next hne => exact (kboVerdict_level hinj hs.built ht.built hne).symm
  | node c as ih =>
    rw [kboRec_level hs ht]
    · split
      · next heq => rw [heq, kboVerdict_self]
      · next hne => exact (kboVerdict_level hinj hs.built ht.built hne).symm
    · intro c' as' d bs hnode hnode'
      obtain ⟨rfl, rfl⟩ := node.inj hnode
      subst hnode'
      exact kboRecArgs_eq fun a ha b hb => ih a ha (hs.arg ha) (ht.arg hb)

end Naive

end Thvm.Kbo
