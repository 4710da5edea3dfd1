import Thvm.TermWeights

/-!
# What the memo of term weights answers

While no two terms in play have one hash, every answer is the weight of the term asked
for and a profile of its variables, whatever other terms have left in the tables.
-/

namespace Thvm.Kbo

open MemoTables TermTree

/-- The terms in play: closed under arguments, over the signature, with variables that a
balance can count, and told apart by their hashes where the memo is used. -/
structure InPlay (linear : Bool) (S : ℕ → ℕ → Prop) (T : FTerm → Prop) : Prop where
  arg : ∀ f args a, T (.node f args) → a ∈ args → T a
  built : ∀ t, T t → t.Over S
  vars : ∀ t, T t → t.VarsBelow kboMaxVar
  hash : linear = false → ∀ s t, T s → T t → kboHash s = kboHash t → s = t

/-- A term read from the heap that is in play. -/
structure Weighable (W : Term → FTerm) (T : FTerm → Prop) (t : LTerm) : Prop where
  reads : t.Reads W
  mem : T t.erase

/-- Every current entry is that of its term. -/
structure Right (cfg : KboConfig) (W : Term → FTerm) (T : FTerm → Prop) (m : KboMemos) : Prop where
  thash : m.thash.Sound fun t v => v = (kboHash (W t), kboWmemoSlot (kboHash (W t)))
  wmemo : m.wmemo.Sound fun hash e => ∃ u, T u ∧ kboHash u = hash ∧ e = kboWeigh cfg u

section Answers

variable {cfg : KboConfig} {W : Term → FTerm} {S : ℕ → ℕ → Prop} {T : FTerm → Prop}
  {m : KboMemos} {t : LTerm} {c : Cell} {as : List LTerm}

theorem Weighable.arg {linear : Bool} (hT : InPlay linear S T)
    (h : Weighable W T (.node c as)) {a : LTerm} (ha : a ∈ as) : Weighable W T a where
  reads := h.reads.arg ha
  mem := by
    have hmem := h.mem
    rw [LTerm.erase_node] at hmem
    exact hT.arg _ _ _ hmem (List.mem_map_of_mem ha)

theorem right_invalidate (m : KboMemos) : Right cfg W T m.invalidate :=
  ⟨Memo.sound_invalidate _, Memo.sound_invalidate _⟩

theorem Right.storeHash (h : Right cfg W T m) (ht : t.Reads W) :
    Right cfg W T (m.storeHash t.word (kboHash t.erase)) where
  thash := by
    apply h.thash.store
    rw [ht.word_eq]
  wmemo := h.wmemo

theorem Right.storeWeight (h : Right cfg W T m) {u : FTerm} (hu : T u) :
    Right cfg W T (m.storeWeight (kboHash u) (kboWeigh cfg u)) where
  thash := h.thash
  wmemo := h.wmemo.store ⟨u, hu, rfl, rfl⟩

theorem Right.find_wmemo (hT : InPlay false S T) (h : Right cfg W T m) {u : FTerm} (hu : T u) {i : ℕ}
    {e : KboWeight} (he : m.wmemo.find i (kboHash u) = some e) : e = kboWeigh cfg u := by
  obtain ⟨v, hv, hhash, rfl⟩ := h.wmemo.find he
  rw [hT.hash rfl v u hv hu hhash]

theorem Right.lookup (hT : InPlay false S T) (h : Right cfg W T m) (ht : Weighable W T t) {e : KboWeight}
    (he : m.lookup t.word = some e) : e = kboWeigh cfg t.erase := by
  unfold KboMemos.lookup at he
  split at he
  · next hash idx hfind =>
    have hval := h.thash.find hfind
    rw [ht.reads.word_eq] at hval
    obtain ⟨rfl, rfl⟩ := Prod.mk.inj hval
    exact h.find_wmemo hT ht.mem he
  · cases he

theorem kboHashes_eq (as : List FTerm) : kboHashes as = as.map kboHash := by
  induction as with
  | nil => rfl
  | cons a as ih => rw [kboHashes, ih, List.map_cons]

theorem kboLeafHashes_eq (m : KboMemos) (as : List LTerm) :
    kboLeafHashes m as = as.map (kboLeafHash m) := by
  induction as with
  | nil => rfl
  | cons a as ih => rw [kboLeafHashes, ih, List.map_cons]

theorem kboHash_node (c : Cell) (as : List LTerm) : kboHash (LTerm.erase (.node c as)) =
    kboNodeHash c.label ((as.map fun a => kboHash (LTerm.erase a)).take rewriteMaxArity) := by
  rw [LTerm.erase_node, kboHash, kboHashes_eq, List.map_map]
  rfl

theorem Right.leafHash (h : Right cfg W T m) (ht : t.Reads W) :
    kboLeafHash m t = kboHash t.erase := by
  induction t using TermTree.induct with
  | leaf l => rfl
  | node c as ih =>
    rw [kboLeafHash]
    split
    · next hash idx hfind =>
      have hval := h.thash.find hfind
      rw [ht.word_eq] at hval
      exact (Prod.mk.inj hval).1
    · rw [kboLeafHashes_eq, kboHash_node, List.map_congr_left fun a ha => ih a ha (ht.arg ha)]

/-- The weights of constructors below a size are known. -/
def KnownBelow (cfg : KboConfig) (W : Term → FTerm) (T : FTerm → Prop)
    (subtree : LTerm → KboM KboWeight) (n : ℕ) : Prop :=
  ∀ c as, (TermTree.node c as).size < n → Weighable W T (.node c as) →
    Answers (Right cfg W T) (subtree (.node c as)) (kboWeigh cfg (LTerm.erase (.node c as)))

variable {subtree : LTerm → KboM KboWeight} {n : ℕ}

theorem kboMemoChild_answers (hT : InPlay false S T) (ht : Weighable W T t)
    (h : Answers (Right cfg W T) (subtree t) (kboWeigh cfg t.erase)) :
    Answers (Right cfg W T) (kboMemoChild subtree t) (kboWeigh cfg t.erase) := by
  apply Ensures.get_bind
  intro m hm
  split
  · next e he => exact Ensures.pure (hm.lookup hT ht he)
  · exact h

theorem kboMemoAdd_answers (hT : InPlay false S T) (h : KnownBelow cfg W T subtree n)
    (has : ∀ a ∈ as, a.size < n ∧ Weighable W T a) (acc : KboWeight) :
    Answers (Right cfg W T) (kboMemoAdd subtree cfg as acc)
      (kboWeighArgs cfg (as.map LTerm.erase) acc) := by
  induction as generalizing acc with
  | nil => exact Answers.pure acc
  | cons a as ih =>
    rw [List.forall_mem_cons] at has
    cases a with
    | leaf l =>
      cases l with
      | fvr id => exact ih has.2 _
      | num dtype value => exact ih has.2 _
    | node c args =>
      apply (kboMemoChild_answers hT has.1.2 (h c args has.1.1 has.1.2)).bind
      rw [List.map_cons, LTerm.erase_node, kboWeighArgs]
      exact ih has.2 _

theorem kboMemoCombine_answers (hT : InPlay false S T) (h : KnownBelow cfg W T subtree n)
    (ht : Weighable W T (.node c as)) (hn : (TermTree.node c as).size ≤ n) :
    Answers (Right cfg W T) (kboMemoCombine subtree cfg (.node c as))
      (kboWeigh cfg (LTerm.erase (.node c as))) := by
  apply Ensures.get_bind
  intro m hm
  have hhash : kboNodeHash c.label ((kboLeafHashes m as).take rewriteMaxArity) =
      kboHash (LTerm.erase (.node c as)) := by
    rw [kboLeafHashes_eq, kboHash_node, List.map_congr_left fun a ha => hm.leafHash (ht.reads.arg ha)]
  dsimp only
  rw [hhash]
  apply Ensures.modify_bind fun m hm => hm.storeHash ht.reads
  apply Ensures.get_bind
  intro m hm
  split
  · next e he => exact Ensures.pure (hm.find_wmemo hT ht.mem he)
  · have hadd := kboMemoAdd_answers hT h
      (fun a ha => ⟨lt_of_lt_of_le (size_lt c ha) hn, ht.arg hT ha⟩) ⟨cfg.weight c.label, some []⟩
    have hweigh : kboWeighArgs cfg (as.map LTerm.erase) ⟨cfg.weight c.label, some []⟩ =
        kboWeigh cfg (LTerm.erase (.node c as)) := by
      rw [LTerm.erase_node, kboWeigh]
    rw [hweigh] at hadd
    apply hadd.bind
    apply Ensures.modify_bind fun m hm => hm.storeWeight ht.mem
    exact Answers.pure _

/-- The rounds that a worklist takes. -/
def rounds : List (LTerm × List LTerm) → ℕ
  | [] => 0
  | (_, as) :: stack => 1 + 2 * (as.map TermTree.size).sum + rounds stack

/-- A frame of the worklist: a node in play and some of its arguments. -/
def Frame (W : Term → FTerm) (T : FTerm → Prop) (n : ℕ) (frame : LTerm × List LTerm) : Prop :=
  ∃ c args, frame.1 = .node c args ∧ Weighable W T (.node c args) ∧
    (TermTree.node c args).size ≤ n ∧ ∀ a ∈ frame.2, a ∈ args

theorem Frame.tail {a : LTerm} (h : Frame W T n (t, a :: as)) : Frame W T n (t, as) := by
  obtain ⟨c, args, ht, hweigh, hn, hmem⟩ := h
  exact ⟨c, args, ht, hweigh, hn, fun b hb => hmem b (List.mem_cons_of_mem a hb)⟩

theorem Frame.head (hT : InPlay false S T) {args : List LTerm} (h : Frame W T n (t, .node c args :: as)) :
    Frame W T n (.node c args, args) := by
  obtain ⟨d, bs, ht, hweigh, hn, hmem⟩ := h
  have harg := hmem _ List.mem_cons_self
  have := size_lt d harg
  exact ⟨c, args, rfl, hweigh.arg hT harg, by omega, fun b hb => hb⟩

/-- The worklist empties. -/
theorem kboMemoLoop_ensures (hT : InPlay false S T) (h : KnownBelow cfg W T subtree n) {k : ℕ}
    {stack : List (LTerm × List LTerm)} (hstack : ∀ frame ∈ stack, Frame W T n frame)
    (hk : rounds stack ≤ k) :
    Ensures (Right cfg W T) (kboMemoLoop subtree cfg k stack) (· = []) := by
  induction k generalizing stack with
  | zero =>
    cases stack with
    | nil => exact Ensures.pure rfl
    | cons frame stack =>
      rw [rounds] at hk
      omega
  | succ k ih =>
    cases stack with
    | nil => exact Ensures.pure rfl
    | cons frame stack =>
      obtain ⟨t, as⟩ := frame
      rw [List.forall_mem_cons] at hstack
      rw [rounds] at hk
      cases as with
      | nil =>
        obtain ⟨c, args, rfl, hweigh, hn, -⟩ := hstack.1
        apply (kboMemoCombine_answers hT h hweigh hn).bind
        exact ih hstack.2 (by omega)
      | cons a as =>
        have hsize := TermTree.size_pos a
        rw [List.map_cons, List.sum_cons] at hk
        have hskip : Ensures (Right cfg W T) (kboMemoLoop subtree cfg k ((t, as) :: stack)) (· = []) := by
          apply ih (List.forall_mem_cons.mpr ⟨hstack.1.tail, hstack.2⟩)
          rw [rounds]
          omega
        cases a with
        | leaf l => exact hskip
        | node c args =>
          apply Ensures.get_bind
          intro m hm
          split
          · exact hskip
          · apply ih (List.forall_mem_cons.mpr ⟨hstack.1.head hT,
              List.forall_mem_cons.mpr ⟨hstack.1.tail, hstack.2⟩⟩)
            rw [rounds, rounds]
            rw [TermTree.size_node] at hk
            omega

theorem kboSubtreeMemo_answers (hT : InPlay false S T) {fuel : ℕ} (ht : Weighable W T (.node c as))
    (hfuel : (TermTree.node c as).size ≤ fuel) :
    Answers (Right cfg W T) (kboSubtreeMemo cfg fuel (.node c as))
      (kboWeigh cfg (LTerm.erase (.node c as))) := by
  induction fuel generalizing c as with
  | zero =>
    have := TermTree.size_pos (.node c as)
    omega
  | succ fuel ih =>
    have hknown : KnownBelow cfg W T (kboSubtreeMemo cfg fuel) (TermTree.node c as).size := by
      intro d bs hlt hweigh
      exact ih hweigh (by omega)
    have hframe : Frame W T (TermTree.node c as).size (.node c as, as) :=
      ⟨c, as, rfl, ht, le_rfl, fun a ha => ha⟩
    apply Ensures.get_bind
    intro m hm
    split
    · next e he => exact Ensures.pure (hm.lookup hT ht he)
    · apply (kboMemoLoop_ensures hT hknown (List.forall_mem_singleton.mpr hframe) _).bind
      · rintro stack rfl
        apply Ensures.get_bind
        intro m hm
        split
        · next e he => exact Ensures.pure (hm.lookup hT ht he)
        · exact kboMemoCombine_answers hT hknown ht le_rfl
      · rw [rounds, rounds, TermTree.size_node]
        omega

theorem kboSubtreeMemoFast_answers (hT : InPlay false S T) (ht : Weighable W T (.node c as)) :
    Answers (Right cfg W T) (kboSubtreeMemoFast cfg (.node c as))
      (kboWeigh cfg (LTerm.erase (.node c as))) :=
  kboMemoChild_answers hT ht (kboSubtreeMemo_answers hT ht le_rfl)

end Answers

/-! ### Weights and profiles -/

section Profiles

variable {cfg : KboConfig} {p q acc : List (ℕ × ℤ)} {id v : ℕ} {delta : ℤ} {t : FTerm}
  {args : List FTerm}

/-- How much a list of changes adds to a variable. -/
def net (v : ℕ) : List (ℕ × ℤ) → ℤ
  | [] => 0
  | e :: p => (if e.1 = v then e.2 else 0) + net v p

@[simp] theorem net_nil (v : ℕ) : net v [] = 0 := rfl

theorem net_cons (v : ℕ) (e : ℕ × ℤ) (p : List (ℕ × ℤ)) :
    net v (e :: p) = (if e.1 = v then e.2 else 0) + net v p := rfl

@[simp] theorem net_append (v : ℕ) (p q : List (ℕ × ℤ)) : net v (p ++ q) = net v p + net v q := by
  induction p with
  | nil => simp
  | cons e p ih => rw [List.cons_append, net_cons, net_cons, ih, Int.add_assoc]

theorem net_kboVprofAdd {room : ℕ} (h : kboVprofAdd id delta room p = some q) :
    net v q = net v p + if id = v then delta else 0 := by
  induction p generalizing room q with
  | nil =>
    cases room with
    | zero => cases h
    | succ room =>
      rw [kboVprofAdd] at h
      split at h
      · obtain rfl := Option.some.inj h
        rw [net_cons, net_nil]
        omega
      · cases h
  | cons e p ih =>
    obtain ⟨vid, vcnt⟩ := e
    rw [kboVprofAdd] at h
    split at h
    · next heq =>
      split at h
      · obtain rfl := Option.some.inj h
        subst heq
        rw [net_cons, net_cons]
        split <;> omega
      · cases h
    · obtain ⟨q', hq', rfl⟩ := Option.map_eq_some_iff.mp h
      rw [net_cons, net_cons, ih hq', Int.add_assoc]

theorem net_kboVprofMerge (h : kboVprofMerge acc p = some q) : net v q = net v acc + net v p := by
  induction p generalizing acc with
  | nil =>
    obtain rfl := Option.some.inj h
    simp
  | cons e p ih =>
    obtain ⟨acc', hacc, h⟩ := Option.bind_eq_some_iff.mp h
    rw [ih h, net_kboVprofAdd hacc, net_cons, Int.add_assoc]

/-- What going over some children adds to a weight. -/
structure Adds (cfg : KboConfig) (args : List FTerm) (acc e : KboWeight) : Prop where
  w : e.w = acc.w + (args.map cfg.scale.weight).sum
  profile : ∀ q, e.profile = some q → ∃ p, acc.profile = some p ∧
    ∀ v, net v q = net v p + (args.flatMap TermTree.leaves).count (.fvr v)

theorem adds_nil (acc : KboWeight) : Adds cfg [] acc acc where
  w := rfl
  profile q hq := ⟨q, hq, fun v => by simp⟩

theorem Adds.cons {e e' acc : KboWeight} (h : Adds cfg [t] acc e) (h' : Adds cfg args e e') :
    Adds cfg (t :: args) acc e' where
  w := by
    rw [h'.w, h.w, List.map_cons, List.map_cons, List.sum_cons, List.sum_cons]
    simp [Nat.add_assoc]
  profile q hq := by
    obtain ⟨p', hp', hnet'⟩ := h'.profile q hq
    obtain ⟨p, hp, hnet⟩ := h.profile p' hp'
    refine ⟨p, hp, fun v => ?_⟩
    rw [hnet', hnet, List.flatMap_singleton, List.flatMap_cons, List.count_append]
    omega

theorem adds_var (h : id < kboMaxVar) (acc : KboWeight) :
    Adds cfg [.fvr id] acc (acc.addVar cfg id) where
  w := rfl
  profile q hq := by
    rw [KboWeight.addVar, if_pos h] at hq
    obtain ⟨p, hp, hadd⟩ := Option.bind_eq_some_iff.mp hq
    refine ⟨p, hp, fun v => ?_⟩
    rw [net_kboVprofAdd hadd, List.flatMap_singleton, leaves_leaf, List.count_singleton]
    by_cases hid : id = v
    · simp [hid]
    · simp [hid]

theorem adds_child {e : KboWeight} (hw : e.w = cfg.scale.weight t)
    (hprofile : ∀ p, e.profile = some p → ∀ v, net v p = t.leaves.count (.fvr v))
    (acc : KboWeight) : Adds cfg [t] acc (e.addChild acc) where
  w := by
    rw [KboWeight.addChild, hw]
    simp
  profile q hq := by
    obtain ⟨p, hp, h⟩ := Option.bind_eq_some_iff.mp hq
    obtain ⟨p', hp', hmerge⟩ := Option.bind_eq_some_iff.mp h
    refine ⟨p', hp', fun v => ?_⟩
    rw [net_kboVprofMerge hmerge, hprofile p hp]
    simp

/-- The entry of a constructor has its weight, and its profile counts its variables. -/
structure Weighed (cfg : KboConfig) (t : FTerm) : Prop where
  w : (kboWeigh cfg t).w = cfg.scale.weight t
  profile : ∀ p, (kboWeigh cfg t).profile = some p → ∀ v, net v p = t.leaves.count (.fvr v)

variable {S : ℕ → ℕ → Prop}

theorem kboWeighArgs_adds (hover : ∀ a ∈ args, a.Over S) (hvars : ∀ a ∈ args, a.VarsBelow kboMaxVar)
    (h : ∀ f bs, .node f bs ∈ args → Weighed cfg (.node f bs)) (acc : KboWeight) :
    Adds cfg args acc (kboWeighArgs cfg args acc) := by
  induction args generalizing acc with
  | nil => exact adds_nil acc
  | cons a as ih =>
    rw [List.forall_mem_cons] at hover hvars
    have htail := ih hover.2 hvars.2 fun f bs hmem => h f bs (List.mem_cons_of_mem a hmem)
    cases a with
    | leaf l =>
      obtain ⟨id, rfl⟩ := hover.1.leaf
      exact (adds_var (hvars.1 id (List.mem_singleton_self _)) acc).cons (htail _)
    | node f bs =>
      have hhead := h f bs List.mem_cons_self
      exact (adds_child hhead.w hhead.profile acc).cons (htail _)

theorem kboWeigh_weighed {f : ℕ} (hover : FTerm.Over S (.node f args))
    (hvars : FTerm.VarsBelow kboMaxVar (.node f args)) : Weighed cfg (.node f args) := by
  generalize ht : TermTree.node f args = t at hover hvars ⊢
  induction t using TermTree.induct generalizing f args with
  | leaf l => cases ht
  | node g bs ih =>
    obtain ⟨rfl, rfl⟩ := node.inj ht
    have hadds : Adds cfg args ⟨cfg.weight f, some []⟩ (kboWeigh cfg (.node f args)) := by
      rw [kboWeigh]
      apply kboWeighArgs_adds (fun a ha => hover.arg ha)
        (fun a ha id hid => hvars id (mem_leaves_node.mpr ⟨a, ha, hid⟩))
      intro k cs hmem
      exact ih _ hmem rfl (hover.arg hmem)
        fun id hid => hvars id (mem_leaves_node.mpr ⟨_, hmem, hid⟩)
    constructor
    · rw [hadds.w, KnuthBendix.Scale.weight_node]
      rfl
    · intro q hq v
      obtain ⟨p, hp, hnet⟩ := hadds.profile q hq
      obtain rfl := Option.some.inj hp
      rw [hnet, net_nil, Int.zero_add, leaves_node]

end Profiles

theorem thvmKboTermWeight_answers {cfg : KboConfig} {W : Term → FTerm} {S : ℕ → ℕ → Prop}
    {T : FTerm → Prop} {t : LTerm} (hT : InPlay false S T) (ht : Weighable W T t) :
    Answers (Right cfg W T) (thvmKboTermWeight cfg t) (cfg.scale.weight t.erase) := by
  cases t with
  | leaf l => exact Answers.pure _
  | node c as =>
    apply (kboSubtreeMemoFast_answers hT ht).bind
    apply (Answers.pure _).cast
    have hover := hT.built _ ht.mem
    have hvars := hT.vars _ ht.mem
    rw [LTerm.erase_node] at hover hvars ⊢
    exact (kboWeigh_weighed hover hvars).w

end Thvm.Kbo
