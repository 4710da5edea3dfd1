import Thvm.LexicographicPathOrderSpec

/-!
# The flat path of `thvm_lpo`

Over symbols of fixed arity the recursion over flat arrays gives the verdicts of the
recursion over terms: its pretests and shortcuts are consequences of the ordering.
-/

namespace Thvm.Lpo

open MemoTables PathOrder TermTree Flat

section Pretests

variable {cfg : LpoConfig} {S : ℕ → ℕ → Prop} {s t : FTerm} {w : Weights}

theorem mem_flattenArgs {n : FlatNode} {args : List FTerm} :
    n ∈ flattenArgs w args ↔ ∃ a ∈ args, n ∈ flatten w a := by
  rw [flattenArgs_eq, List.mem_flatMap]

theorem mem_leaves_of_sym {n : FlatNode} {x : ℕ} (ht : t.Over S) (hn : n ∈ flatten w t)
    (hsym : n.sym = varSym x) : Leaf.fvr x ∈ t.leaves := by
  induction t using TermTree.induct with
  | leaf l =>
    obtain ⟨y, rfl⟩ := ht.leaf
    rw [flatten, List.mem_singleton] at hn
    subst hn
    rw [varSym_inj hsym]
    exact List.mem_singleton_self _
  | node f args ih =>
    rw [flatten_node, List.mem_cons, mem_flattenArgs] at hn
    rcases hn with rfl | ⟨a, ha, hn⟩
    · have := varSym_neg x
      simp only at hsym
      omega
    · exact mem_leaves_node.mpr ⟨a, ha, ih a ha (ht.arg ha) hn⟩

theorem flattenArgs_eq_nil {args : List FTerm} (h : (flattenArgs w args).length = 0) : args = [] := by
  cases args with
  | nil => rfl
  | cons a as =>
    rw [flattenArgs, List.length_append, length_flatten] at h
    have := TermTree.size_pos a
    omega

/-- A constant is above every ground term of smaller symbols. -/
theorem const_gt {f : ℕ} (ht : t.Over S)
    (h : ∀ n ∈ flatten w t, ¬ n.sym < 0 ∧ cfg.symPrec n < cfg.prec f) :
    LpoGt cfg (.node f []) t := by
  induction t using TermTree.induct with
  | leaf l =>
    obtain ⟨x, rfl⟩ := ht.leaf
    exact absurd (varSym_neg x) (h _ (List.mem_singleton_self _)).1
  | node g args ih =>
    rw [flatten_node] at h
    apply Gt.prec (h _ List.mem_cons_self).2
    intro a ha
    exact ih a ha (ht.arg ha) fun n hn =>
      h n (List.mem_cons_of_mem _ (mem_flattenArgs.mpr ⟨a, ha, hn⟩))

/-- A term with a symbol at least as high is at or above a constant. -/
theorem ge_const (hinj : InjectiveOn cfg.prec S) (hfix : FixedArity S) {g : ℕ} (hg : S g 0)
    (hs : s.Over S) {n : FlatNode} (hn : n ∈ flatten w s) (hsym : ¬ n.sym < 0)
    (hprec : cfg.prec g ≤ cfg.symPrec n) : s = .node g [] ∨ LpoGt cfg s (.node g []) := by
  induction s using TermTree.induct with
  | leaf l =>
    obtain ⟨x, rfl⟩ := hs.leaf
    rw [flatten, List.mem_singleton] at hn
    subst hn
    exact absurd (varSym_neg x) hsym
  | node f args ih =>
    rw [flatten_node, List.mem_cons, mem_flattenArgs] at hn
    rcases hn with rfl | ⟨a, ha, hn⟩
    · rcases Nat.lt_or_eq_of_le hprec with hlt | heq
      · exact .inr (.prec hlt fun b hb => absurd hb List.not_mem_nil)
      · obtain rfl := hinj g f _ _ hg hs.root heq
        obtain rfl := List.length_eq_zero_iff.mp (hfix g _ _ hs.root hg)
        exact .inl rfl
    · rcases ih a ha (hs.arg ha) hn with rfl | hgt
      · exact .inr (.argEqv ha (.refl _))
      · exact .inr (.argGt ha hgt)

theorem over_sub {p : List ℕ} (hs : s.Over S) (h : s.sub p = some t) : t.Over S where
  every := Every.sub hs.every h
  leaves l hl := hs.leaves l (leaves_sub h hl)

theorem lpoPretestGroesserFlat_sound (hinj : InjectiveOn cfg.prec S) (hfix : FixedArity S)
    (hs : s.Over S) (ht : t.Over S)
    (h : 0 < lpoPretestGroesserFlat cfg (flatten w s) (flatten w t)) : LpoGt cfg s t := by
  cases s with
  | leaf l =>
    obtain ⟨x, rfl⟩ := hs.leaf
    have := varSym_neg x
    cases t with
    | leaf l' =>
      obtain ⟨y, rfl⟩ := ht.leaf
      simp only [flatten, lpoPretestGroesserFlat, if_pos this] at h
      omega
    | node g bs =>
      simp only [flatten, lpoPretestGroesserFlat, if_pos this] at h
      omega
  | node f args =>
    have hf : ¬ ((f : ℤ) < 0) := by omega
    cases t with
    | leaf l' =>
      obtain ⟨y, rfl⟩ := ht.leaf
      simp only [flatten, lpoPretestGroesserFlat, if_neg hf, if_pos (varSym_neg y)] at h
      split at h
      · next hany =>
        obtain ⟨n, hn, hsym⟩ := List.any_eq_true.mp hany
        obtain ⟨a, ha, hn⟩ := mem_flattenArgs.mp hn
        have hmem := mem_leaves_of_sym (hs.arg ha) hn (of_decide_eq_true hsym)
        rcases (Gt.ge_leaf_iff cfg.prec fun _ => False).mpr hmem with heqv | hgt
        · exact .argEqv ha heqv
        · exact .argGt ha hgt
      · omega
    | node g bs =>
      have hg : ¬ ((g : ℤ) < 0) := by omega
      simp only [flatten_node, lpoPretestGroesserFlat, if_neg hf, if_neg hg] at h
      split at h
      · next hconst =>
        obtain rfl : args = [] := flattenArgs_eq_nil (w := w) (by omega)
        split at h
        · next hall =>
          rw [← flatten_node, List.all_eq_true] at hall
          exact const_gt ht fun n hn => of_decide_eq_true (hall n hn)
        · omega
      · next hconst =>
        split at h
        · next hconst' =>
          obtain rfl : bs = [] := flattenArgs_eq_nil (w := w) (by omega)
          split at h
          · next hany =>
            rw [← flatten_node] at hany
            obtain ⟨n, hn, hsym⟩ := List.any_eq_true.mp hany
            obtain ⟨hpos, hprec⟩ := of_decide_eq_true hsym
            rcases ge_const hinj hfix ht.root hs hn hpos hprec with heq | hgt
            · obtain ⟨rfl, rfl⟩ := node.inj heq
              exact absurd rfl hconst
            · exact hgt
          · omega
        · split at h
          · omega
          · next hlen =>
            split at h
            · next hany =>
              obtain ⟨i, hi, hmatch⟩ := List.any_eq_true.mp hany
              obtain ⟨hsym, hsz, hmatch⟩ := of_decide_eq_true hmatch
              obtain ⟨hi1, hi2⟩ := List.mem_range'_1.mp hi
              rw [← flatten_node, ← flatten_node] at hmatch
              rw [← flatten_node] at hsym hsz
              have hsize : i < (TermTree.node f args).size := by
                rw [← length_flatten (w := w), flatten_node, List.length_cons]
                omega
              obtain ⟨p, u, hp, hat, hroot⟩ := exists_sub (w := w) hsize
              have hu := over_sub hs hp
              have hut : u.size = (TermTree.node g bs).size := by
                rw [← hat.sz, hsz, ← length_flatten (w := w), flatten_node, List.length_cons]
              have hnode : nodeAt ((flatten w (.node f args)).drop i) 0 =
                  nodeAt (flatten w (.node f args)) i := by
                rw [nodeAt, nodeAt, List.getD_eq_getElem?_getD, List.getD_eq_getElem?_getD,
                  List.getElem?_drop, Nat.add_zero]
              have hut : u = .node g bs := by
                apply eq_of_symsMatch hfix hu ht hat (at_zero w _) _ hut
                · rw [← length_flatten (w := w), flatten_node g, List.length_cons]
                  exact hmatch
                · rw [hnode, hsym, flatten_node]
                  rfl
              subst hut
              apply Gt.of_sub hp
              rintro rfl
              have := hroot rfl
              omega
            · omega

end Pretests

/-! ### The recursion over positions -/

section Positions

variable {cfg : LpoConfig} {S : ℕ → ℕ → Prop} {w : Weights} {buf : List FlatNode} {pos : ℕ}
  {t : FTerm} {ps : List ℕ} {args : List FTerm}

open Classical in
/-- The term of the signature that stands at a position. -/
noncomputable def termAt (w : Weights) (S : ℕ → ℕ → Prop) (buf : List FlatNode) (pos : ℕ) : FTerm :=
  if h : ∃ t : FTerm, t.Over S ∧ At w buf pos t then h.choose else .fvr 0

theorem termAt_eq (hfix : FixedArity S) (ht : t.Over S) (h : At w buf pos t) :
    termAt w S buf pos = t := by
  have hex : ∃ t : FTerm, t.Over S ∧ At w buf pos t := ⟨t, ht, h⟩
  rw [termAt, dif_pos hex]
  exact At.unique hfix hex.choose_spec.1 ht hex.choose_spec.2 h

theorem map_termAt (hfix : FixedArity S) (h : List.Forall₂ (At w buf) ps args)
    (hargs : ∀ a ∈ args, a.Over S) : ps.map (termAt w S buf) = args := by
  induction h with
  | nil => rfl
  | cons hat _ ih =>
    rw [List.forall_mem_cons] at hargs
    rw [List.map_cons, termAt_eq hfix hargs.1 hat, ih hargs.2]

theorem positions_split {fin n child : ℕ} {pre post : List FTerm} {b : FTerm}
    (h : flattenArgs w (pre ++ b :: post) <+: buf.drop child)
    (hfin : fin = child + (flattenArgs w (pre ++ b :: post)).length) (hn : fin - child ≤ n) :
    ∃ ps p qs, positions buf fin n child = ps ++ p :: qs ∧ List.Forall₂ (At w buf) ps pre ∧
      At w buf p b ∧ List.Forall₂ (At w buf) (siblings buf fin p) (b :: post) := by
  induction pre generalizing child n with
  | nil =>
    have hat := positions_at h hfin hn
    have hat' := positions_at h hfin (le_refl (fin - child))
    obtain ⟨p, qs, hp, -, hpos⟩ := List.forall₂_cons_right_iff.mp hat
    have hchild : p = child := by
      cases n with
      | zero => cases hpos
      | succ n =>
        rw [positions] at hpos
        split at hpos
        · exact (List.cons.inj hpos).1.symm
        · cases hpos
    subst hchild
    exact ⟨[], p, qs, hpos, .nil, hp, hat'⟩
  | cons a pre ih =>
    have hsize := TermTree.size_pos a
    rw [List.cons_append, flattenArgs] at h hfin
    rw [List.length_append, length_flatten] at hfin
    obtain ⟨tail, htail⟩ := h
    rw [List.append_assoc] at htail
    have hat : At w buf child a := ⟨_, htail⟩
    cases n with
    | zero => omega
    | succ n =>
      have hrest : flattenArgs w (pre ++ b :: post) <+: buf.drop (child + a.size) := by
        refine ⟨tail, ?_⟩
        rw [← List.drop_drop, ← htail, ← length_flatten (w := w) a, List.drop_left]
      obtain ⟨ps, p, qs, hpos, hps, hp, hsib⟩ := ih hrest (by omega)
        (by omega : fin - (child + a.size) ≤ n)
      refine ⟨child :: ps, p, qs, ?_, .cons hat hps, hp, hsib⟩
      rw [positions, if_pos (by omega), hat.sz, hpos, List.cons_append]

/-- The position of an argument, and the arguments from there on. -/
theorem children_split {f : ℕ} {pre post : List FTerm} {b : FTerm}
    (h : At w buf pos (.node f (pre ++ b :: post))) :
    ∃ ps p qs, children buf pos = ps ++ p :: qs ∧ List.Forall₂ (At w buf) ps pre ∧
      At w buf p b ∧
      List.Forall₂ (At w buf) (siblings buf (pos + (nodeAt buf pos).sz) p) (b :: post) := by
  apply positions_split h.behind _ le_rfl
  rw [h.sz, size_node, length_flattenArgs, Nat.add_assoc]

end Positions

section FlatCases

variable {cfg : LpoConfig} {S : ℕ → ℕ → Prop} {bufs : Buffers} {I : LpoFlatMemo → Prop}
  {rec : ℕ → ℕ → ℕ → LpoFlatM Cmp} {side pa pb : ℕ} {s t : FTerm} {ps : List ℕ}
  {as bs : List FTerm}

/-- A term of the signature stands at a position of the buffer of a side. -/
structure Stands (cfg : LpoConfig) (S : ℕ → ℕ → Prop) (bufs : Buffers) (side pos : ℕ)
    (t : FTerm) : Prop where
  side_le : side ≤ 1
  built : t.Over S
  stands : At cfg.weights (bufs.at side) pos t

/-- What the recursion is known to answer, up to a size. -/
def Known (I : LpoFlatMemo → Prop) (rec : ℕ → ℕ → ℕ → LpoFlatM Cmp) (cfg : LpoConfig)
    (S : ℕ → ℕ → Prop) (bufs : Buffers) (n : ℕ) : Prop :=
  ∀ side pa pb s t, s.size + t.size < n → Stands cfg S bufs side pa s →
    Stands cfg S bufs (1 - side) pb t → Answers I (rec side pa pb) (lpoVerdict cfg s t)

theorem exists_at {buf : List FlatNode} {p : ℕ} (h : List.Forall₂ (At cfg.weights buf) ps bs)
    (hp : p ∈ ps) : ∃ b ∈ bs, At cfg.weights buf p b := by
  induction h with
  | nil => cases hp
  | cons hat _ ih =>
    rcases List.mem_cons.mp hp with rfl | hp
    · exact ⟨_, List.mem_cons_self, hat⟩
    · obtain ⟨b, hb, hat⟩ := ih hp
      exact ⟨b, List.mem_cons_of_mem _ hb, hat⟩

open Classical in
theorem dominatesAll_flat {buf : List FlatNode} (hfix : FixedArity S)
    (hps : List.Forall₂ (At cfg.weights buf) ps bs) (hover : ∀ b ∈ bs, b.Over S)
    (h : ∀ p, ∀ b ∈ bs, At cfg.weights buf p b → Answers I (rec side pa p) (lpoVerdict cfg s b)) :
    Answers I (dominatesAll (rec side) pa ps) (decide (∀ b ∈ bs, LpoGt cfg s b)) := by
  have hrec : ∀ p ∈ ps, Answers I (rec side pa p) (lpoVerdict cfg s (termAt cfg.weights S buf p)) := by
    intro p hp
    obtain ⟨b, hb, hat⟩ := exists_at hps hp
    rw [termAt_eq hfix (hover b hb) hat]
    exact h p b hb hat
  apply (dominatesAll_answers .eq hrec (v := fun _ p => lpoVerdict cfg s (termAt cfg.weights S buf p))).cast
  rw [← map_termAt hfix hps hover]
  simp [lpoVerdict_gt_iff]

open Classical in
theorem someDominates_flat {buf : List FlatNode} (hfix : FixedArity S)
    (hps : List.Forall₂ (At cfg.weights buf) ps as) (hover : ∀ a ∈ as, a.Over S)
    (h : ∀ p, ∀ a ∈ as, At cfg.weights buf p a → Answers I (rec side p pb) (lpoVerdict cfg a t)) :
    Answers I (someDominates (rec side) pb ps) (decide (∃ a ∈ as, a = t ∨ LpoGt cfg a t)) := by
  have hrec : ∀ p ∈ ps, Answers I (rec side p pb) (lpoVerdict cfg (termAt cfg.weights S buf p) t) := by
    intro p hp
    obtain ⟨a, ha, hat⟩ := exists_at hps hp
    rw [termAt_eq hfix (hover a ha) hat]
    exact h p a ha hat
  apply (someDominates_answers .eq hrec (v := fun p _ => lpoVerdict cfg (termAt cfg.weights S buf p) t)).cast
  rw [← map_termAt hfix hps hover]
  simp [lpoVerdict_gt_iff, lpoVerdict_eq_iff]

/-- The loop stops at the first arguments that differ. -/
theorem lpoFlatLexDiff_answers {ps' qs qs' : List ℕ} {p p' : ℕ} {a b : FTerm} {pre : List FTerm}
    {buf buf' : List FlatNode} (hps : List.Forall₂ (At cfg.weights buf) ps pre)
    (hps' : List.Forall₂ (At cfg.weights buf') ps' pre) (hne : a ≠ b)
    (heq : ∀ q q', ∀ c ∈ pre, At cfg.weights buf q c → At cfg.weights buf' q' c →
      Answers I (rec side q q') .eq)
    (hdiff : Answers I (rec side p p') (lpoVerdict cfg a b)) :
    Answers I (lpoFlatLexDiff rec side (ps ++ p :: qs) (ps' ++ p' :: qs'))
      (lpoVerdict cfg a b, p, p') := by
  induction hps generalizing ps' with
  | nil =>
    cases hps'
    apply hdiff.bind
    rw [if_pos fun h => hne (lpoVerdict_eq_iff.mp h)]
    exact Answers.pure _
  | cons hat _ ih =>
    cases hps' with
    | cons hat' htail =>
      apply (heq _ _ _ List.mem_cons_self hat hat').bind
      rw [if_neg (by simp)]
      exact ih htail fun q q' c hc => heq q q' c (List.mem_cons_of_mem _ hc)

theorem Stands.arg_at {f : ℕ} {a : FTerm} {p : ℕ} (h : Stands cfg S bufs side pos (.node f as))
    (ha : a ∈ as) (hat : At cfg.weights (bufs.at side) p a) : Stands cfg S bufs side p a :=
  ⟨h.side_le, h.built.arg ha, hat⟩

theorem Stands.swap_side (h : Stands cfg S bufs side pos s) : 1 - (1 - side) = side := by
  have := h.side_le
  omega

/-- All that the cases of the recursion at a pair of positions rest on. -/
structure Pair (I : LpoFlatMemo → Prop) (rec : ℕ → ℕ → ℕ → LpoFlatM Cmp) (cfg : LpoConfig)
    (S : ℕ → ℕ → Prop) (bufs : Buffers) (side pa pb f g : ℕ) (as bs : List FTerm) : Prop where
  fixed : FixedArity S
  left : Stands cfg S bufs side pa (.node f as)
  right : Stands cfg S bufs (1 - side) pb (.node g bs)
  known : Known I rec cfg S bufs ((TermTree.node f as).size + (TermTree.node g bs).size)

variable {f g : ℕ}

namespace Pair

variable (h : Pair I rec cfg S bufs side pa pb f g as bs)

include h

theorem swap : Pair I rec cfg S bufs (1 - side) pb pa g f bs as where
  fixed := h.fixed
  left := h.right
  right := by
    rw [h.left.swap_side]
    exact h.left
  known := by
    rw [Nat.add_comm]
    exact h.known

open Classical in
theorem dominatesFrom {start : ℕ} {post : List FTerm} (hpost : ∀ b ∈ post, b ∈ bs)
    (hstart : List.Forall₂ (At cfg.weights (bufs.at (1 - side)))
      (siblings (bufs.at (1 - side)) (pb + (nodeAt (bufs.at (1 - side)) pb).sz) start) post) :
    Answers I (lpoFlatDominatesFrom rec bufs side pa pb start)
      (decide (∀ b ∈ post, LpoGt cfg (.node f as) b)) := by
  apply dominatesAll_flat h.fixed hstart fun b hb => h.right.built.arg (hpost b hb)
  intro p b hb hat
  have := size_lt g (hpost b hb)
  exact h.known side pa p _ b (by omega) h.left (h.right.arg_at (hpost b hb) hat)

open Classical in
theorem dominatesAllArgs : Answers I (lpoFlatDominatesAllArgs rec bufs side pa pb)
    (decide (∀ b ∈ bs, LpoGt cfg (.node f as) b)) := by
  have hsym : ¬ (nodeAt (bufs.at (1 - side)) pb).sym < 0 := by
    rw [h.right.stands.of_node]
    simp
  rw [lpoFlatDominatesAllArgs, if_neg hsym]
  exact h.dominatesFrom (fun b hb => hb) h.right.stands.children

open Classical in
theorem someArgDominates : Answers I (lpoFlatSomeArgDominates rec bufs side pa pb)
    (decide (∃ a ∈ as, a = .node g bs ∨ LpoGt cfg a (.node g bs))) := by
  have hsym : ¬ (nodeAt (bufs.at side) pa).sym < 0 := by
    rw [h.left.stands.of_node]
    simp
  rw [lpoFlatSomeArgDominates, if_neg hsym]
  apply someDominates_flat h.fixed h.left.stands.children fun a ha => h.left.built.arg ha
  intro p a ha hat
  have := size_lt f ha
  exact h.known side p pb a _ (by omega) (h.left.arg_at ha hat) h.right

omit h in
theorem forall_gt_append {pre post : List FTerm} {u : FTerm} (hpre : ∀ c ∈ pre, LpoGt cfg u c) :
    (∀ c ∈ pre ++ post, LpoGt cfg u c) ↔ ∀ c ∈ post, LpoGt cfg u c := by
  simp only [List.forall_mem_append, and_iff_right hpre]

end Pair

theorem Pair.lexVerdict (h : Pair I rec cfg S bufs side pa pb f f as bs)
    (hno : NoArgGe cfg f f as bs) (hlen : as.length = bs.length) (hne : as ≠ bs) :
    Answers I (do
      let diff ← lpoFlatLexDiff rec side (children (bufs.at side) pa)
        (children (bufs.at (1 - side)) pb)
      lpoFlatLexVerdict rec bufs side pa pb diff)
      (lpoVerdict cfg (.node f as) (.node f bs)) := by
  classical
  obtain ⟨pre, pre', a, b, post, post', rfl, rfl, hpre, hab⟩ :=
    LexOrder.above_split (LexOrder.above_of_ne hlen hne)
  rw [List.forall₂_eq_eq_eq] at hpre
  subst hpre
  obtain ⟨ps, p, qs, hchildren, hps, hp, hfrom⟩ := children_split h.left.stands
  obtain ⟨ps', p', qs', hchildren', hps', hp', hfrom'⟩ := children_split h.right.stands
  have hmem : ∀ {c d : FTerm} {ds : List FTerm}, c ∈ pre → c ∈ pre ++ d :: ds :=
    fun hc => List.mem_append_left _ hc
  have hmem' : ∀ {d : FTerm} {ds : List FTerm}, d ∈ pre ++ d :: ds :=
    List.mem_append_right _ List.mem_cons_self
  have hpost : ∀ {d : FTerm} {ds : List FTerm}, ∀ c ∈ d :: ds, c ∈ pre ++ d :: ds :=
    fun c hc => List.mem_append_right _ hc
  rw [hchildren, hchildren']
  have hdiff : Answers I (lpoFlatLexDiff rec side (ps ++ p :: qs) (ps' ++ p' :: qs'))
      (lpoVerdict cfg a b, p, p') := by
    apply lpoFlatLexDiff_answers hps hps' hab
    · intro q q' c hc hat hat'
      have hleft := size_lt f (hmem hc : c ∈ pre ++ a :: post)
      have hright := size_lt f (hmem hc : c ∈ pre ++ b :: post')
      exact (h.known side q q' c c (by omega) (h.left.arg_at (hmem hc) hat)
        (h.right.arg_at (hmem hc) hat')).cast (lpoVerdict_self cfg c)
    · have hleft := size_lt f (hmem' : a ∈ pre ++ a :: post)
      have hright := size_lt f (hmem' : b ∈ pre ++ b :: post')
      exact h.known side p p' a b (by omega) (h.left.arg_at hmem' hp) (h.right.arg_at hmem' hp')
  have habove : LexOrder.Above (· = ·) (LpoGt cfg) (pre ++ a :: post) (pre ++ b :: post') ↔
      LpoGt cfg a b := LexOrder.above_append_iff Gt.irrefl hab
  apply hdiff.bind
  have hbelow : lpoVerdict cfg a b ≠ .gt → Answers I (do
      let all ← lpoFlatDominatesFrom rec bufs (1 - side) pb pa p
      if all then pure .lt else pure .un)
      (lpoVerdict cfg (.node f (pre ++ a :: post)) (.node f (pre ++ b :: post'))) := by
    intro hgt
    obtain ⟨hyes, hnot⟩ := lpoVerdict_not_above hno hlen hne
      (habove.not.mpr fun hgt' => hgt (lpoVerdict_of_gt hgt'))
    rw [Pair.forall_gt_append fun c hc => Gt.argEqv (hmem hc) (.refl c)] at hyes hnot
    have hback : List.Forall₂ (At cfg.weights (bufs.at (1 - (1 - side))))
        (siblings (bufs.at (1 - (1 - side)))
          (pa + (nodeAt (bufs.at (1 - (1 - side))) pa).sz) p) (a :: post) := by
      rw [h.left.swap_side]
      exact hfrom
    apply (h.swap.dominatesFrom (fun c hc => hpost c hc) hback).bind
    split
    · next hall => exact (Answers.pure _).cast (hyes (of_decide_eq_true hall)).symm
    · next hall => exact (Answers.pure _).cast (hnot (by simpa using hall)).symm
  cases hv : lpoVerdict cfg a b with
  | eq => exact absurd (lpoVerdict_eq_iff.mp hv) hab
  | gt =>
    obtain ⟨hyes, hnot⟩ := lpoVerdict_above hno hlen (habove.mpr (lpoVerdict_gt_iff.mp hv))
    rw [Pair.forall_gt_append fun c hc => Gt.argEqv (hmem hc) (.refl c)] at hyes hnot
    apply (h.dominatesFrom hpost hfrom').bind
    split
    · next hall => exact (Answers.pure _).cast (hyes (of_decide_eq_true hall)).symm
    · next hall => exact (Answers.pure _).cast (hnot (by simpa using hall)).symm
  | lt => exact hbelow (by rw [hv]; nofun)
  | un => exact hbelow (by rw [hv]; nofun)
  | raw => exact absurd hv (lpoVerdict_ne_raw cfg a b)

/-- The order of the precedences survives their cast to `i32`. -/
def CastSafe (cfg : LpoConfig) (S : ℕ → ℕ → Prop) : Prop :=
  ∀ f g n m, S f n → S g m →
    (toI32 (cfg.prec f) < toI32 (cfg.prec g) ↔ cfg.prec f < cfg.prec g)

theorem castSafe_of_lt (h : ∀ f n, S f n → cfg.prec f < 2 ^ 31) : CastSafe cfg S := by
  intro f g n m hf hg
  rw [toI32_of_lt (h f n hf), toI32_of_lt (h g m hg), Int.ofNat_lt]

theorem Pair.heads (h : Pair I rec cfg S bufs side pa pb f g as bs)
    (hinj : InjectiveOn cfg.prec S) (hcast : CastSafe cfg S)
    (hne : TermTree.node f as ≠ .node g bs) :
    Answers I (lpoFlatHeads rec bufs side pa pb) (lpoVerdict cfg (.node f as) (.node g bs)) := by
  classical
  have hwa : (nodeAt (bufs.at side) pa).w = toI32 (cfg.prec f) := by
    rw [h.left.stands.of_node]
    rfl
  have hwb : (nodeAt (bufs.at (1 - side)) pb).w = toI32 (cfg.prec g) := by
    rw [h.right.stands.of_node]
    rfl
  have hgt : (∃ a ∈ as, a = .node g bs ∨ LpoGt cfg a (.node g bs)) →
      LpoGt cfg (.node f as) (.node g bs) := by
    rintro ⟨a, ha, rfl | hgt⟩
    · exact .argEqv ha (.refl _)
    · exact .argGt ha hgt
  have hlt : (∃ b ∈ bs, b = .node f as ∨ LpoGt cfg b (.node f as)) →
      LpoGt cfg (.node g bs) (.node f as) := by
    rintro ⟨b, hb, rfl | hgt⟩
    · exact .argEqv hb (.refl _)
    · exact .argGt hb hgt
  have hno : ¬ (∃ a ∈ as, a = .node g bs ∨ LpoGt cfg a (.node g bs)) →
      ¬ (∃ b ∈ bs, b = .node f as ∨ LpoGt cfg b (.node f as)) → NoArgGe cfg f g as bs :=
    fun hleft hright => ⟨fun hex => hleft (ge_iff.mp hex), fun hex => hright (ge_iff.mp hex)⟩
  have hdom := h.swap.dominatesAllArgs
  have hsome := h.swap.someArgDominates
  have hleft : ∀ {us : List FTerm} {k l : ℕ} {vs : List FTerm},
      (∃ u ∈ us, u = .node l vs ∨ LpoGt cfg u (.node l vs)) →
      ∀ v ∈ vs, LpoGt cfg (.node k us) v := by
    rintro us k l vs ⟨u, hu, rfl | hgt⟩ v hv
    · exact .argGt hu (.argEqv hv (.refl v))
    · exact .argGt hu (hgt.right_arg hv)
  rw [lpoFlatHeads, hwa, hwb]
  simp only [hcast _ _ _ _ h.left.built.root h.right.built.root,
    hcast _ _ _ _ h.right.built.root h.left.built.root]
  split
  · next hprec =>
    apply h.dominatesAllArgs.bind
    split
    · next hall =>
      exact (Answers.pure _).cast (lpoVerdict_of_gt (.prec hprec (of_decide_eq_true hall))).symm
    · next hall =>
      rw [decide_eq_true_iff] at hall
      apply hsome.bind
      split
      · next hex => exact (Answers.pure _).cast (lpoVerdict_of_lt (hlt (of_decide_eq_true hex))).symm
      · next hex =>
        have hnoArg := hno (fun hex' => hall (hleft hex')) (by simpa using hex)
        exact (Answers.pure _).cast ((lpoVerdict_prec hnoArg hprec).2 hall).symm
  · next hprec =>
    split
    · next hprec' =>
      apply hdom.bind
      split
      · next hall =>
        exact (Answers.pure _).cast (lpoVerdict_of_lt (.prec hprec' (of_decide_eq_true hall))).symm
      · next hall =>
        rw [decide_eq_true_iff] at hall
        apply h.someArgDominates.bind
        split
        · next hex => exact (Answers.pure _).cast (lpoVerdict_of_gt (hgt (of_decide_eq_true hex))).symm
        · next hex =>
          have hnoArg := hno (by simpa using hex) fun hex' => hall (hleft hex')
          exact (Answers.pure _).cast ((lpoVerdict_prec' hnoArg hprec').2 hall).symm
    · next hprec' =>
      obtain rfl := hinj f g _ _ h.left.built.root h.right.built.root (by omega)
      apply h.someArgDominates.bind
      split
      · next hex => exact (Answers.pure _).cast (lpoVerdict_of_gt (hgt (of_decide_eq_true hex))).symm
      · next hex =>
        apply hsome.bind
        split
        · next hex' =>
          exact (Answers.pure _).cast (lpoVerdict_of_lt (hlt (of_decide_eq_true hex'))).symm
        · next hex' =>
          have hlen := h.fixed f _ _ h.left.built.root h.right.built.root
          exact h.lexVerdict (hno (by simpa using hex) (by simpa using hex')) hlen
            fun heq => hne (heq ▸ rfl)

theorem Stands.sym_nonneg (h : Stands cfg S bufs side pos (.node f as)) :
    ¬ (nodeAt (bufs.at side) pos).sym < 0 := by
  rw [h.stands.of_node]
  simp

theorem Stands.sym_eq {x : ℕ} (h : Stands cfg S bufs side pos (.fvr x)) :
    (nodeAt (bufs.at side) pos).sym = varSym x := by
  rw [h.stands.of_fvr]

theorem Stands.sym_neg {x : ℕ} (h : Stands cfg S bufs side pos (.fvr x)) :
    (nodeAt (bufs.at side) pos).sym < 0 := h.sym_eq ▸ varSym_neg x

theorem lpoFlatSliceEq_iff (hfix : FixedArity S) {side' : ℕ} (hs : Stands cfg S bufs side pa s)
    (ht : Stands cfg S bufs side' pb t) :
    lpoFlatSliceEq (bufs.at side) pa (bufs.at side') pb = true ↔ s = t := by
  have hnode : ∀ side pos, nodeAt ((bufs.at side).drop pos) 0 = nodeAt (bufs.at side) pos := by
    intro side pos
    rw [nodeAt, nodeAt, List.getD_eq_getElem?_getD, List.getD_eq_getElem?_getD,
      List.getElem?_drop, Nat.add_zero]
  rw [lpoFlatSliceEq, decide_eq_true_iff]
  constructor
  · rintro ⟨hsym, hsz, hmatch⟩
    rw [hs.stands.sz, ht.stands.sz] at hsz
    rw [hs.stands.sz, hsz] at hmatch
    exact eq_of_symsMatch hfix hs.built ht.built hs.stands ht.stands (by rwa [hnode, hnode]) hsz hmatch
  · rintro rfl
    refine ⟨?_, ?_, ?_⟩
    · rw [← hnode side, ← hnode side', nodeAt_eq_nodeAt hs.stands (TermTree.size_pos s),
        nodeAt_eq_nodeAt ht.stands (TermTree.size_pos s)]
    · rw [hs.stands.sz, ht.stands.sz]
    · rw [hs.stands.sz]
      exact symsMatch_refl hs.stands ht.stands

theorem sym_mem_of_leaves {x : ℕ} {w : Weights} (h : Leaf.fvr x ∈ t.leaves) :
    ∃ n ∈ flatten w t, n.sym = varSym x := by
  induction t using TermTree.induct with
  | leaf l =>
    obtain rfl := List.mem_singleton.mp h
    exact ⟨_, List.mem_singleton_self _, rfl⟩
  | node g args ih =>
    obtain ⟨a, ha, hx⟩ := mem_leaves_node.mp h
    obtain ⟨n, hn, hsym⟩ := ih a ha hx
    refine ⟨n, ?_, hsym⟩
    rw [flatten_node]
    exact List.mem_cons_of_mem _ (mem_flattenArgs.mpr ⟨a, ha, hn⟩)

theorem Stands.varOccurs_iff {x : ℕ} (h : Stands cfg S bufs side pos t) :
    lpoFlatVarOccurs (bufs.at side) pos (varSym x) = true ↔ Leaf.fvr x ∈ t.leaves := by
  rw [lpoFlatVarOccurs, h.stands.slice_eq, List.any_eq_true]
  constructor
  · rintro ⟨n, hn, hsym⟩
    exact mem_leaves_of_sym h.built hn (of_decide_eq_true hsym)
  · intro hx
    obtain ⟨n, hn, hsym⟩ := sym_mem_of_leaves (w := cfg.weights) hx
    exact ⟨n, hn, decide_eq_true hsym⟩

theorem lpoFlatRecCompute_answers (hinj : InjectiveOn cfg.prec S) (hfix : FixedArity S)
    (hcast : CastSafe cfg S) (hs : Stands cfg S bufs side pa s)
    (ht : Stands cfg S bufs (1 - side) pb t)
    (hrec : Known I rec cfg S bufs (s.size + t.size)) :
    Answers I (lpoFlatRecCompute rec bufs cfg side pa pb) (lpoVerdict cfg s t) := by
  have heqv := lpoFlatSliceEq_iff hfix hs ht
  unfold lpoFlatRecCompute
  dsimp only
  split
  · next heq =>
    obtain rfl := heqv.mp heq
    exact (Answers.pure _).cast (lpoVerdict_self cfg s).symm
  · next hslice =>
    have hne : s ≠ t := fun h => hslice (heqv.mpr h)
    cases s with
    | leaf l =>
      obtain ⟨x, rfl⟩ := hs.built.leaf
      rw [if_congr (and_iff_right hs.sym_neg) rfl rfl, if_pos hs.sym_neg, hs.sym_eq]
      cases t with
      | leaf l' =>
        obtain ⟨y, rfl⟩ := ht.built.leaf
        rw [if_pos ht.sym_neg, lpoVerdict_leaf_right hne, if_neg]
        · exact Answers.pure _
        · rw [leaves_leaf, List.mem_singleton]
          exact fun h => hne (congrArg TermTree.leaf h.symm)
      | node g bs =>
        rw [if_neg ht.sym_nonneg, lpoVerdict_leaf_left hne.symm]
        simp only [ht.varOccurs_iff]
        exact Answers.pure _
    | node f as =>
      rw [if_neg fun h => hs.sym_nonneg h.1, if_neg hs.sym_nonneg]
      cases t with
      | leaf l' =>
        obtain ⟨y, rfl⟩ := ht.built.leaf
        rw [if_pos ht.sym_neg, ht.sym_eq, lpoVerdict_leaf_right hne]
        simp only [hs.varOccurs_iff]
        exact Answers.pure _
      | node g bs =>
        rw [if_neg ht.sym_nonneg, hs.stands.slice_eq, ht.stands.slice_eq]
        split
        · next hpre =>
          have hgt := lpoPretestGroesserFlat_sound hinj hfix hs.built ht.built hpre
          exact (Answers.pure _).cast (lpoVerdict_of_gt hgt).symm
        · split
          · next hpre =>
            have hlt := lpoPretestGroesserFlat_sound hinj hfix ht.built hs.built hpre
            exact (Answers.pure _).cast (lpoVerdict_of_lt hlt).symm
          · exact Pair.heads ⟨hfix, hs, ht, hrec⟩ hinj hcast hne

/-- What a current entry of the memo of positions says. -/
def FlatRemembers (cfg : LpoConfig) (S : ℕ → ℕ → Prop) (bufs : Buffers) (key : FlatKey)
    (b : ℕ) : Prop :=
  ∀ s t, Stands cfg S bufs key.2.2 key.1 s → Stands cfg S bufs (1 - key.2.2) key.2.1 t →
    b = (lpoVerdict cfg s t).byte

theorem lpoFlatRec_answers (hinj : InjectiveOn cfg.prec S) (hfix : FixedArity S)
    (hcast : CastSafe cfg S) {fuel : ℕ} (hs : Stands cfg S bufs side pa s)
    (ht : Stands cfg S bufs (1 - side) pb t) (hfuel : s.size + t.size ≤ fuel) :
    Answers (Memo.Sound (FlatRemembers cfg S bufs)) (lpoFlatRec cfg bufs fuel side pa pb)
      (lpoVerdict cfg s t) := by
  induction fuel generalizing side pa pb s t with
  | zero =>
    have := TermTree.size_pos s
    omega
  | succ fuel ih =>
    rw [lpoFlatRec]
    have hcompute := lpoFlatRecCompute_answers hinj hfix hcast hs ht
      fun side pa pb s t hlt hs ht => ih hs ht (by omega)
    apply memoised_answers hcompute
    · intro b hb
      rw [hb s t hs ht]
      exact Cmp.ofByte_byte (lpoVerdict_ne_raw cfg s t)
    · intro s' t' hs' ht'
      rw [At.unique hfix hs'.built hs.built hs'.stands hs.stands,
        At.unique hfix ht'.built ht.built ht'.stands ht.stands]

end FlatCases

end Thvm.Lpo
