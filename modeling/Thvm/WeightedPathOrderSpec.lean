import Thvm.KnuthBendixDescent
import Thvm.WeightedPathOrder

/-!
# What `thvm_wpo` answers from its tables

The recursion without tables fixes a value for every pair. The recursion through the
tables answers this value as long as the weights that the tables hold are those of the
configuration.
-/

namespace Thvm.Wpo

open MemoTables Kbo TermTree

/-! ### The recursion follows another one -/

section Loops

variable {σ : Type} {I : σ → Prop} {rec : LTerm → LTerm → StateM σ Cmp}
  {rec' : LTerm → LTerm → StateM PUnit Cmp} {s t a b : LTerm} {as bs : List LTerm}

theorem wpoDominatesAllArgs_follows (h : ∀ b ∈ bs, Follows I (rec s b) (rec' s b)) :
    Follows I (wpoDominatesAllArgs rec s bs) (wpoDominatesAllArgs rec' s bs) := by
  induction bs with
  | nil => exact Follows.pure _
  | cons b bs ih =>
    rw [List.forall_mem_cons] at h
    apply h.1.bind
    intro c _
    split
    · exact Follows.pure _
    · exact ih h.2

theorem wpoSomeArgDominates_follows (h : ∀ a ∈ as, Follows I (rec a t) (rec' a t)) :
    Follows I (wpoSomeArgDominates rec t as) (wpoSomeArgDominates rec' t as) := by
  induction as with
  | nil => exact Follows.pure _
  | cons a as ih =>
    rw [List.forall_mem_cons] at h
    apply h.1.bind
    intro c _
    split
    · exact Follows.pure _
    · exact ih h.2

theorem wpoLex_follows (h : ∀ a ∈ as, ∀ b ∈ bs, Follows I (rec a b) (rec' a b)) :
    Follows I (wpoLex rec as bs) (wpoLex rec' as bs) := by
  induction as generalizing bs with
  | nil => exact Follows.pure _
  | cons a as ih =>
    cases bs with
    | nil => exact Follows.pure _
    | cons b bs =>
      apply (h a List.mem_cons_self b List.mem_cons_self).bind
      intro c _
      split
      · exact Follows.pure _
      · exact ih fun a' ha b' hb => h a' (List.mem_cons_of_mem a ha) b' (List.mem_cons_of_mem b hb)

theorem wpoUse_follows (h : ∀ b ∈ bs, Follows I (rec a b) (rec' a b)) :
    Follows I (wpoUse rec a bs) (wpoUse rec' a bs) := by
  induction bs with
  | nil => exact Follows.pure _
  | cons b bs ih =>
    rw [List.forall_mem_cons] at h
    apply h.1.bind
    intro c _
    split
    · exact Follows.pure _
    · exact (ih h.2).bind fun rest _ => Follows.pure _

theorem wpoUse_subset {bs' : List LTerm} {m : σ} (h : some bs' = ((wpoUse rec a bs).run m).1) :
    bs' ⊆ bs := by
  induction bs generalizing bs' m with
  | nil => cases h
  | cons b bs ih =>
    rw [wpoUse, StateT.run_bind] at h
    dsimp only [bind] at h
    split at h
    · obtain rfl := Option.some.inj h
      exact List.subset_cons_self _ _
    · have hrest : ((wpoUse rec a bs).run ((rec a b).run m).2).1.map (b :: ·) = some bs' := h.symm
      obtain ⟨rest, hr, rfl⟩ := Option.map_eq_some_iff.mp hrest
      exact List.cons_subset_cons b (ih hr.symm)

theorem wpoCancel_follows {ts : List LTerm} (hsub : ts ⊆ bs)
    (h : ∀ a ∈ as, ∀ b ∈ bs, Follows I (rec a b) (rec' a b)) :
    Follows I (wpoCancel rec as ts) (wpoCancel rec' as ts) := by
  induction as generalizing ts with
  | nil => exact Follows.pure _
  | cons a as ih =>
    rw [List.forall_mem_cons] at h
    apply (wpoUse_follows fun b hb => h.1 b (hsub hb)).bind
    intro used hused
    cases used with
    | some ts' => exact ih (List.Subset.trans (wpoUse_subset hused) hsub) h.2
    | none => exact (ih hsub h.2).bind fun rest _ => Follows.pure _

theorem wpoCancel_subset (ts : List LTerm) (m : σ) :
    ((wpoCancel rec as ts).run m).1.1 ⊆ as ∧ ((wpoCancel rec as ts).run m).1.2 ⊆ ts := by
  induction as generalizing ts m with
  | nil => exact ⟨List.Subset.refl _, List.Subset.refl _⟩
  | cons a as ih =>
    rw [wpoCancel, StateT.run_bind]
    dsimp only [bind]
    split
    · next ts' hused =>
      obtain ⟨hleft, hright⟩ := ih ts' ((wpoUse rec a ts).run m).2
      exact ⟨List.Subset.trans hleft (List.subset_cons_self _ _),
        List.Subset.trans hright (wpoUse_subset hused.symm)⟩
    · obtain ⟨hleft, hright⟩ := ih ts ((wpoUse rec a ts).run m).2
      exact ⟨List.cons_subset_cons a hleft, hright⟩

theorem wpoFound_follows (h : ∀ a ∈ as, Follows I (rec a b) (rec' a b)) :
    Follows I (wpoFound rec b as) (wpoFound rec' b as) := by
  induction as with
  | nil => exact Follows.pure _
  | cons a as ih =>
    rw [List.forall_mem_cons] at h
    apply h.1.bind
    intro c _
    split
    · exact Follows.pure _
    · exact ih h.2

theorem wpoAllDominated_follows (h : ∀ a ∈ as, ∀ b ∈ bs, Follows I (rec a b) (rec' a b)) :
    Follows I (wpoAllDominated rec as bs) (wpoAllDominated rec' as bs) := by
  induction bs with
  | nil => exact Follows.pure _
  | cons b bs ih =>
    apply (wpoFound_follows fun a ha => h a ha b List.mem_cons_self).bind
    intro found _
    split
    · exact ih fun a ha b' hb => h a ha b' (List.mem_cons_of_mem b hb)
    · exact Follows.pure _

/-- The recursion is followed on the arguments of two terms, both ways. -/
def FollowsArgs (I : σ → Prop) (rec : LTerm → LTerm → StateM σ Cmp)
    (rec' : LTerm → LTerm → StateM PUnit Cmp) (as bs : List LTerm) : Prop :=
  ∀ a ∈ as, ∀ b ∈ bs, Follows I (rec a b) (rec' a b) ∧ Follows I (rec b a) (rec' b a)

theorem wpoMultiRest_follows (h : FollowsArgs I rec rec' as bs) :
    Follows I (wpoMultiRest rec as bs) (wpoMultiRest rec' as bs) := by
  cases as with
  | nil => cases bs <;> exact Follows.pure _
  | cons a as =>
    cases bs with
    | nil => exact Follows.pure _
    | cons b bs =>
      apply (wpoAllDominated_follows fun a ha b hb => (h a ha b hb).1).bind
      intro allT _
      split
      · exact Follows.pure _
      · apply (wpoAllDominated_follows fun b hb a ha => (h a ha b hb).2).bind
        intro allS _
        split
        · exact Follows.pure _
        · exact Follows.pure _

theorem wpoMulti_follows (h : FollowsArgs I rec rec' as bs) :
    Follows I (wpoMulti rec as bs) (wpoMulti rec' as bs) := by
  unfold wpoMulti
  split
  · exact Follows.pure _
  · apply (wpoCancel_follows (List.Subset.refl bs) fun a ha b hb => (h a ha b hb).1).bind
    rintro rest rfl
    obtain ⟨hleft, hright⟩ := @wpoCancel_subset _ rec' as bs ⟨⟩
    exact wpoMultiRest_follows fun a ha b hb => h a (hleft ha) b (hright hb)

theorem wpoWins_follows {dom : Bool} {c : Cmp} (h : ∀ b ∈ bs, Follows I (rec s b) (rec' s b)) :
    Follows I (wpoWins rec dom s bs c) (wpoWins rec' dom s bs c) := by
  unfold wpoWins
  split
  · apply (wpoDominatesAllArgs_follows h).bind
    intro all _
    split
    · exact Follows.pure _
    · exact Follows.pure _
  · exact Follows.pure _

/-- All that the cases of two nodes rest on. -/
structure FollowsPair (I : σ → Prop) (rec : LTerm → LTerm → StateM σ Cmp)
    (rec' : LTerm → LTerm → StateM PUnit Cmp) (s t : LTerm) (as bs : List LTerm) : Prop where
  args : FollowsArgs I rec rec' as bs
  left : ∀ b ∈ bs, Follows I (rec s b) (rec' s b) ∧ Follows I (rec b s) (rec' b s)
  right : ∀ a ∈ as, Follows I (rec t a) (rec' t a) ∧ Follows I (rec a t) (rec' a t)

theorem wpoHeads_follows {cfg : WpoConfig} {sDom tDom : Bool} {labS labT : ℕ}
    (h : FollowsPair I rec rec' s t as bs) :
    Follows I (wpoHeads rec cfg sDom tDom s t labS labT as bs)
      (wpoHeads rec' cfg sDom tDom s t labS labT as bs) := by
  have hgt := @wpoWins_follows _ _ _ _ _ _ sDom .gt fun b hb => (h.left b hb).1
  have hlt := @wpoWins_follows _ _ _ _ _ _ tDom .lt fun a ha => (h.right a ha).1
  unfold wpoHeads
  split
  · exact hgt
  · split
    · exact hlt
    · split
      · exact Follows.pure _
      · split
        · exact (wpoMulti_follows h.args).bind fun mc _ => Follows.pure _
        · apply (wpoLex_follows fun a ha b hb => (h.args a ha b hb).1).bind
          intro lex _
          cases lex with
          | gt => exact hgt
          | lt => exact hlt
          | _ => exact Follows.pure _

variable {weigh : LTerm → StateM σ ℕ} {weigh' : LTerm → StateM PUnit ℕ}

/-- The recursion is followed on everything smaller than two terms. -/
def FollowsBelow (I : σ → Prop) (rec : LTerm → LTerm → StateM σ Cmp)
    (rec' : LTerm → LTerm → StateM PUnit Cmp) (Q : LTerm → Prop) (n : ℕ) : Prop :=
  ∀ a b, a.size + b.size < n → Q a → Q b → Follows I (rec a b) (rec' a b)

theorem wpoRecCompute_follows {cfg : WpoConfig} {Q : LTerm → Prop}
    (hQ : ∀ c as a, Q (.node c as) → a ∈ as → Q a) (hs : Q s) (ht : Q t)
    (hrec : FollowsBelow I rec rec' Q (s.size + t.size))
    (hweigh : ∀ c as, Q (.node c as) → Follows I (weigh (.node c as)) (weigh' (.node c as))) :
    Follows I (wpoRecCompute rec weigh cfg s t) (wpoRecCompute rec' weigh' cfg s t) := by
  unfold wpoRecCompute
  split
  · exact Follows.pure _
  · cases s with
    | leaf l =>
      cases t with
      | leaf l' => cases l <;> cases l' <;> exact Follows.pure _
      | node d bs => cases l <;> exact Follows.pure _
    | node c as =>
      cases t with
      | leaf l' => cases l' <;> exact Follows.pure _
      | node d bs =>
        have hpair : FollowsPair I rec rec' (.node c as) (.node d bs) as bs := by
          constructor
          · intro a ha b hb
            have := size_lt c ha
            have := size_lt d hb
            exact ⟨hrec a b (by omega) (hQ _ _ _ hs ha) (hQ _ _ _ ht hb),
              hrec b a (by omega) (hQ _ _ _ ht hb) (hQ _ _ _ hs ha)⟩
          · intro b hb
            have := size_lt d hb
            exact ⟨hrec _ b (by omega) hs (hQ _ _ _ ht hb), hrec b _ (by omega) (hQ _ _ _ ht hb) hs⟩
          · intro a ha
            have := size_lt c ha
            exact ⟨hrec _ a (by omega) ht (hQ _ _ _ hs ha), hrec a _ (by omega) (hQ _ _ _ hs ha) ht⟩
        apply (hweigh c as hs).bind
        intro ws _
        apply (hweigh d bs ht).bind
        intro wt _
        split
        · exact Follows.pure _
        · split
          · exact Follows.pure _
          · apply (wpoSomeArgDominates_follows fun a ha => (hpair.right a ha).2).bind
            intro left _
            split
            · exact Follows.pure _
            · apply (wpoSomeArgDominates_follows fun b hb => (hpair.left b hb).2).bind
              intro right _
              split
              · exact Follows.pure _
              · exact wpoHeads_follows hpair

end Loops

/-! ### No verdict is raw -/

section Raw

variable {σ α : Type} {rec : LTerm → LTerm → StateM σ Cmp} {weigh : LTerm → StateM σ ℕ}

def NotRaw (x : StateM σ Cmp) : Prop := ∀ m, (x.run m).1 ≠ .raw

theorem notRaw_pure {c : Cmp} (h : c ≠ .raw) : NotRaw (pure c : StateM σ Cmp) := fun _ => h

theorem notRaw_bind {x : StateM σ α} {f : α → StateM σ Cmp} (h : ∀ a, NotRaw (f a)) :
    NotRaw (x >>= f) := fun _ => h _ _

theorem notRaw_ite {p : Prop} [Decidable p] {x y : StateM σ Cmp} (hx : NotRaw x) (hy : NotRaw y) :
    NotRaw (if p then x else y) := by
  split
  · exact hx
  · exact hy

theorem ite_ne_raw {p : Prop} [Decidable p] {c d : Cmp} (hc : c ≠ .raw) (hd : d ≠ .raw) :
    (if p then c else d) ≠ .raw := by
  split
  · exact hc
  · exact hd

theorem notRaw_wpoWins (dom : Bool) (s : LTerm) (bs : List LTerm) {c : Cmp} (h : c ≠ .raw) :
    NotRaw (wpoWins rec dom s bs c) :=
  notRaw_ite (notRaw_bind fun _ => notRaw_ite (notRaw_pure h) (notRaw_pure nofun)) (notRaw_pure nofun)

theorem wpoMulVerdict_ne_raw (sDom tDom : Bool) (c : Cmp) : wpoMulVerdict sDom tDom c ≠ .raw := by
  cases c with
  | gt => exact ite_ne_raw nofun nofun
  | lt => exact ite_ne_raw nofun nofun
  | _ => exact nofun

theorem notRaw_wpoHeads (cfg : WpoConfig) (sDom tDom : Bool) (s t : LTerm) (labS labT : ℕ)
    (as bs : List LTerm) : NotRaw (wpoHeads rec cfg sDom tDom s t labS labT as bs) := by
  refine notRaw_ite (notRaw_wpoWins _ _ _ nofun) (notRaw_ite (notRaw_wpoWins _ _ _ nofun) ?_)
  refine notRaw_ite (notRaw_pure nofun) (notRaw_ite ?_ ?_)
  · exact notRaw_bind fun mc => notRaw_pure (wpoMulVerdict_ne_raw _ _ _)
  · refine notRaw_bind fun lex => ?_
    cases lex with
    | gt => exact notRaw_wpoWins _ _ _ nofun
    | lt => exact notRaw_wpoWins _ _ _ nofun
    | _ => exact notRaw_pure nofun

theorem notRaw_wpoRecCompute (cfg : WpoConfig) (s t : LTerm) :
    NotRaw (wpoRecCompute rec weigh cfg s t) := by
  refine notRaw_ite (notRaw_pure nofun) ?_
  cases s with
  | leaf l =>
    cases t with
    | leaf l' =>
      cases l with
      | fvr x => cases l' with
        | fvr y => exact notRaw_pure nofun
        | num dtype value => exact notRaw_pure (ite_ne_raw nofun nofun)
      | num dtype value => cases l' with
        | fvr y => exact notRaw_pure (ite_ne_raw nofun nofun)
        | num dtype' value' => exact notRaw_pure nofun
    | node d bs =>
      cases l with
      | fvr x => exact notRaw_pure (ite_ne_raw nofun nofun)
      | num dtype value => exact notRaw_pure nofun
  | node c as =>
    cases t with
    | leaf l' =>
      cases l' with
      | fvr y => exact notRaw_pure (ite_ne_raw nofun nofun)
      | num dtype value => exact notRaw_pure nofun
    | node d bs =>
      refine notRaw_bind fun ws => notRaw_bind fun wt => ?_
      refine notRaw_ite (notRaw_pure (ite_ne_raw nofun nofun)) ?_
      refine notRaw_ite (notRaw_pure (ite_ne_raw nofun nofun)) ?_
      refine notRaw_bind fun left => notRaw_ite (notRaw_pure (ite_ne_raw nofun nofun)) ?_
      refine notRaw_bind fun right => notRaw_ite (notRaw_pure (ite_ne_raw nofun nofun)) ?_
      exact notRaw_wpoHeads _ _ _ _ _ _ _ _ _

end Raw

/-! ### The value of a pair -/

/-- The recursion without tables. -/
def wpoPlainRec (cfg : WpoConfig) : ℕ → LTerm → LTerm → StateM PUnit Cmp
  | 0, _, _ => pure .un
  | fuel + 1, s, t =>
    wpoRecCompute (wpoPlainRec cfg fuel) (fun t => pure (cfg.kbo.scale.weight t.erase)) cfg s t

def wpoValue (cfg : WpoConfig) (s t : LTerm) : Cmp :=
  ((wpoPlainRec cfg (s.size + t.size) s t).run ⟨⟩).1

section Value

variable {cfg : WpoConfig} {s t : LTerm} {n k : ℕ}

/-- Enough fuel does not matter. -/
theorem wpoPlainRec_follows (hn : s.size + t.size ≤ n) (hk : s.size + t.size ≤ k) :
    Follows (fun _ => True) (wpoPlainRec cfg n s t) (wpoPlainRec cfg k s t) := by
  induction n generalizing s t k with
  | zero =>
    have := TermTree.size_pos s
    omega
  | succ n ih =>
    cases k with
    | zero =>
      have := TermTree.size_pos s
      omega
    | succ k =>
      refine wpoRecCompute_follows (Q := fun _ => True) (fun _ _ _ _ _ => trivial) trivial trivial
        (fun a b hlt _ _ => ih (by omega) (by omega)) fun c as _ => Follows.pure _

theorem wpoPlainRec_eq (hn : s.size + t.size ≤ n) :
    ((wpoPlainRec cfg n s t).run ⟨⟩).1 = wpoValue cfg s t :=
  (wpoPlainRec_follows hn le_rfl PUnit.unit trivial).1

theorem wpoValue_ne_raw (cfg : WpoConfig) (s t : LTerm) : wpoValue cfg s t ≠ .raw := by
  have hsize := TermTree.size_pos s
  obtain ⟨n, hn⟩ := Nat.exists_eq_succ_of_ne_zero (by omega : s.size + t.size ≠ 0)
  rw [wpoValue, hn]
  exact notRaw_wpoRecCompute cfg s t PUnit.unit

end Value

/-! ### Answers from the tables -/

/-- Every word in the term is read as what is under it. -/
inductive Located (read : Term → LTerm) : LTerm → Prop
  | leaf {l : Leaf} (h : read (LTerm.word (.leaf l)) = .leaf l) : Located read (.leaf l)
  | node {c : Cell} {args : List LTerm} (h : read (LTerm.word (.node c args)) = .node c args)
      (hargs : ∀ a ∈ args, Located read a) : Located read (.node c args)

section Answers

variable {cfg : WpoConfig} {read : Term → LTerm} {S : ℕ → ℕ → Prop} {T : FTerm → Prop}
  {s t : LTerm} {c : Cell} {as : List LTerm} {m : WpoTables}

theorem Located.word_eq (h : Located read t) : read t.word = t := by
  cases h with
  | leaf h => exact h
  | node h hargs => exact h

theorem Located.reads (h : Located read t) : t.Reads fun w => (read w).erase := by
  induction h with
  | leaf h => exact .leaf (by rw [h]; rfl)
  | node h hargs ih => exact .node (by rw [h]) ih

/-- A term of a call. -/
structure Placed (read : Term → LTerm) (T : FTerm → Prop) (t : LTerm) : Prop where
  located : Located read t
  mem : T t.erase

theorem Placed.weighable (h : Placed read T t) : Weighable (fun w => (read w).erase) T t :=
  ⟨h.located.reads, h.mem⟩

theorem Placed.arg (hT : InPlay false S T) (h : Placed read T (.node c as)) {a : LTerm}
    (ha : a ∈ as) : Placed read T a where
  located := by
    cases h.located with
    | node h hargs => exact hargs a ha
  mem := (h.weighable.arg hT ha).mem

/-- The weights are those of the configuration, and every current verdict is the value of
its pair. -/
structure WpoRight (cfg : WpoConfig) (read : Term → LTerm) (T : FTerm → Prop) (m : WpoTables) :
    Prop where
  kbo : Right cfg.kbo (fun w => (read w).erase) T m.kbo
  wpo : m.wpo.Sound fun k b => b = (wpoValue cfg (read k.1) (read k.2)).byte

theorem wpoWeight_answers (hT : InPlay false S T) (ht : Placed read T t) :
    Answers (WpoRight cfg read T) (wpoWeight cfg t) (cfg.kbo.scale.weight t.erase) := by
  intro m hm
  obtain ⟨hval, hright⟩ := thvmKboTermWeight_answers hT ht.weighable m.kbo hm.kbo
  exact ⟨hval, hright, hm.wpo⟩

theorem wpoRec_answers (hT : InPlay false S T) {n : ℕ} (hs : Placed read T s)
    (ht : Placed read T t) (hn : s.size + t.size ≤ n) :
    Answers (WpoRight cfg read T) (wpoRec cfg n s t) (wpoValue cfg s t) := by
  induction n generalizing s t with
  | zero =>
    have := TermTree.size_pos s
    omega
  | succ n ih =>
    apply Ensures.get_bind
    intro m hm
    split
    · next b hb =>
      have hval := hm.wpo.find hb
      rw [hs.located.word_eq, ht.located.word_eq] at hval
      rw [hval, Cmp.ofByte_byte (wpoValue_ne_raw cfg s t)]
      exact Answers.pure _
    · have hcompute : Answers (WpoRight cfg read T)
          (wpoRecCompute (wpoRec cfg n) (wpoWeight cfg) cfg s t) (wpoValue cfg s t) := by
        rw [← wpoPlainRec_eq hn]
        refine wpoRecCompute_follows (Q := Placed read T) (fun c as a h ha => h.arg hT ha) hs ht
          (fun a b hlt ha hb => ?_) fun c as h => wpoWeight_answers hT h
        rw [Follows, wpoPlainRec_eq (by omega)]
        exact ih ha hb (by omega)
      apply hcompute.bind
      apply Ensures.modify_bind
      · intro m hm
        refine ⟨hm.kbo, hm.wpo.store ?_⟩
        rw [hs.located.word_eq, ht.located.word_eq]
      · exact Answers.pure _

theorem thvmWpo_answers (hT : InPlay false S T) (hs : Placed read T s) (ht : Placed read T t)
    (hm : Right cfg.kbo (fun w => (read w).erase) T m.kbo) :
    ((thvmWpo cfg s t).run m).1 = wpoValue cfg s t ∧
      Right cfg.kbo (fun w => (read w).erase) T ((thvmWpo cfg s t).run m).2.kbo := by
  obtain ⟨hval, hright⟩ := wpoRec_answers hT hs ht le_rfl m.invalidate
    ⟨hm, Memo.sound_invalidate m.wpo⟩
  exact ⟨hval, hright.kbo⟩

end Answers

end Thvm.Wpo
