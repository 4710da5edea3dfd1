import Thvm.CriticalPairsSpec
import Thvm.OverlapIndex

/-!
# What the overlap-partner indexes retrieve

Terms that have a common instance are alike up to their variables, and the string of the one
then meets the string of the other. So a tree that holds the strings of a rule retrieves it for
every term that one of them unifies with.
-/

namespace Thvm.Atp
open DiscriminationTree

/-! ## Terms that are alike -/

/-- Neither has a symbol where the other has another one. All numbers look the same. -/
inductive Alike : FTerm → FTerm → Prop
  | left (id : ℕ) (t : FTerm) : Alike (.fvr id) t
  | right (s : FTerm) (id : ℕ) : Alike s (.fvr id)
  | num (d v d' v' : ℕ) : Alike (.num d v) (.num d' v')
  | ctr (label : ℕ) {as bs : List FTerm} (hlen : as.length = bs.length)
      (hargs : ∀ (i : ℕ) a b, as[i]? = some a → bs[i]? = some b → Alike a b) :
      Alike (.ctr label as) (.ctr label bs)

/-- The terms have a common instance after their variables are renamed apart. -/
def Unifies (s t : FTerm) : Prop := ∃ σ τ, s.inst σ = t.inst τ

variable {s t : FTerm} {str : List ℕ} {query : List (ℕ × ℕ)}

theorem Alike.refl (t : FTerm) : Alike t t := by
  induction t using TermTree.induct with
  | leaf l =>
    cases l with
    | fvr id => exact .left id _
    | num d v => exact .num d v d v
  | node label args ih =>
    refine .ctr label rfl fun i a b ha hb => ?_
    obtain rfl := Option.some.inj (ha.symm.trans hb)
    exact ih a (List.mem_of_getElem? ha)

theorem Alike.symm (h : Alike s t) : Alike t s := by
  induction h with
  | left id t => exact .right t id
  | right s id => exact .left id s
  | num d v d' v' => exact .num d' v' d v
  | ctr label hlen hargs ih =>
    exact .ctr label hlen.symm fun i b a hb ha => ih i a b ha hb

theorem Unifies.alike (h : Unifies s t) : Alike s t := by
  obtain ⟨σ, τ, h⟩ := h
  induction s using TermTree.induct generalizing t with
  | leaf l =>
    cases l with
    | fvr id => exact .left id t
    | num d v =>
      cases t with
      | leaf l =>
        cases l with
        | fvr id => exact .right _ id
        | num d' v' => exact .num d v d' v'
      | node label args =>
        rw [FTerm.inst_num, FTerm.inst_ctr] at h
        cases h
  | node label args ih =>
    cases t with
    | leaf l =>
      cases l with
      | fvr id => exact .right _ id
      | num d v =>
        rw [FTerm.inst_ctr, FTerm.inst_num] at h
        cases h
    | node label' args' =>
      rw [FTerm.inst_ctr, FTerm.inst_ctr] at h
      obtain ⟨rfl, hargs⟩ := TermTree.node.inj h
      have hlen : args.length = args'.length := by simpa using congrArg List.length hargs
      refine .ctr label hlen fun i a b ha hb => ih a (List.mem_of_getElem? ha) ?_
      simpa [ha, hb] using congrArg (fun l => l[i]?) hargs

/-- Whether two terms are alike does not depend on the names of the variables. -/
theorem Alike.of_rename {k : ℕ} (h : Alike s (thvmRenameVars k t)) : Alike s t := by
  generalize hu : thvmRenameVars k t = u at h
  induction h generalizing t with
  | left id u => exact .left id t
  | right s id =>
    cases t with
    | leaf l =>
      cases l with
      | fvr id' => exact .right s id'
      | num d v => cases hu
    | node label args =>
      rw [thvmRenameVars] at hu
      split at hu <;> cases hu
  | num d v d' v' =>
    cases t with
    | leaf l =>
      cases l with
      | fvr id' => cases hu
      | num d v => exact .num _ _ _ _
    | node label args =>
      rw [thvmRenameVars] at hu
      split at hu <;> cases hu
  | @ctr label as bs hlen hargs ih =>
    cases t with
    | leaf l => cases l <;> cases hu
    | node label' args =>
      rw [thvmRenameVars] at hu
      split at hu
      · obtain ⟨rfl, rfl⟩ := TermTree.node.inj hu
        exact .ctr _ hlen hargs
      · obtain ⟨rfl, rfl⟩ := TermTree.node.inj hu
        rw [CriticalPairs.renameArgs_eq] at hlen hargs ih
        refine .ctr _ (by simpa using hlen) fun i a b ha hb => ?_
        exact ih i a _ ha (by rw [List.getElem?_map, hb]; rfl) rfl

/-! ## Strings that meet -/

theorem isStar_index (vm : VarMap) (id : ℕ) : isStar (dtreeStarBase + (vm.index id).1) = true := by
  have hlt : (vm.index id).1 < dtreeMaxVars := by
    unfold VarMap.index
    split
    · exact vm.fresh_lt
    · next hslot =>
      exact lt_of_lt_of_le (Nat.sub_lt (Nat.pos_of_ne_zero hslot) Nat.one_pos) (vm.slot_le _)
  simp [isStar, dtreeCtrBase, hlt]

theorem isStar_flatsymRaw (id : ℕ) : isStar (flatsymRaw id) = true := by
  have hlt : min id (dtreeMaxVars - 1) < dtreeMaxVars :=
    (Nat.min_le_right _ _).trans_lt (Nat.sub_lt (by decide) Nat.one_pos)
  simp [isStar, flatsymRaw, dtreeCtrBase, hlt]

theorem isStar_ctr (label : ℕ) : isStar (dtreeCtrBase + label) = false := by
  simp [isStar]

theorem flattenSymsArgs_eq (args : List FTerm) :
    flattenSymsArgs args = args.flatMap flattenSyms := by
  induction args with
  | nil => rfl
  | cons a as ih => rw [flattenSymsArgs, ih, List.flatMap_cons]

@[simp] theorem length_flattenSyms (t : FTerm) : (flattenSyms t).length = t.size := by
  induction t using TermTree.induct with
  | leaf l => cases l <;> rfl
  | node label args ih =>
    rw [flattenSyms, List.length_cons, flattenSymsArgs_eq, List.length_flatMap,
      List.map_congr_left ih, TermTree.size_node, Nat.add_comm]

/-- The symbol that a term starts with, and the size of the term. -/
theorem exists_flattenSyms (t : FTerm) :
    ∃ sym rest, flattenSyms t = (sym, t.size) :: rest ∧
      (isStar sym = true ↔ ∃ id, t = .fvr id) := by
  cases t with
  | leaf l =>
    cases l with
    | fvr id => exact ⟨_, [], rfl, by simp [isStar_flatsymRaw]⟩
    | num d v => exact ⟨_, [], rfl, by simp [isStar, dtreeNum, dtreeStarBase]⟩
  | node label args =>
    refine ⟨dtreeCtrBase + label, flattenSymsArgs args, ?_, by simp [isStar_ctr]⟩
    have hlen := length_flattenSyms (.ctr label args)
    rw [flattenSyms, List.length_cons] at hlen
    rw [flattenSyms, hlen]

/-- Strings of alike arguments meet when the strings of each of them do. -/
theorem meets_args {as bs : List FTerm} (hlen : as.length = bs.length)
    (h : ∀ (i : ℕ) a b, as[i]? = some a → bs[i]? = some b → ∀ vm str query, Meets isStar str query →
      Meets isStar ((insertSyms a vm).1 ++ str) (flattenSyms b ++ query))
    (vm : VarMap) (hmeets : Meets isStar str query) :
    Meets isStar ((insertSymsArgs as vm).1 ++ str) (flattenSymsArgs bs ++ query) := by
  induction as generalizing bs vm with
  | nil =>
    obtain rfl := List.length_eq_zero_iff.mp hlen.symm
    exact hmeets
  | cons a as ih =>
    cases bs with
    | nil => cases hlen
    | cons b bs =>
      rw [insertSymsArgs, flattenSymsArgs, List.append_assoc, List.append_assoc]
      refine h 0 a b rfl rfl vm _ _ ?_
      exact ih (Nat.succ.inj hlen) (fun i a' b' ha hb => h (i + 1) a' b' ha hb) _

/-- The string of a term meets the query for one that is like it. -/
theorem Alike.meets (h : Alike s t) (vm : VarMap) (hmeets : Meets isStar str query) :
    Meets isStar ((insertSyms s vm).1 ++ str) (flattenSyms t ++ query) := by
  induction h generalizing vm str query with
  | left id t =>
    obtain ⟨sym, rest, hflat, -⟩ := exists_flattenSyms t
    have hdrop : ((flattenSyms t) ++ query).drop t.size = query := by
      rw [← length_flattenSyms t, List.drop_left]
    rw [insertSyms]
    rw [hflat] at hdrop ⊢
    exact .skip _ _ (sym, t.size) _ (isStar_index vm id) (hdrop.symm ▸ hmeets)
  | right s id => exact .ofStar _ (flatsymRaw id, 1) _ (isStar_flatsymRaw id)
  | num d v d' v' => exact .head dtreeNum _ 1 _ rfl hmeets
  | ctr label hlen hargs ih =>
    rw [insertSyms, flattenSyms]
    refine .head _ _ _ _ (isStar_ctr label) ?_
    exact meets_args hlen (fun i a b ha hb vm str query hm => ih i a b ha hb vm hm) vm hmeets

/-! ## One query -/

theorem flattenSyms_sub {p : List ℕ} {u : FTerm} (h : t.sub p = some u) :
    ∃ before behind, flattenSyms t = before ++ flattenSyms u ++ behind := by
  induction p generalizing t with
  | nil =>
    obtain rfl := Option.some.inj ((TermTree.sub_nil t).symm.trans h)
    exact ⟨[], [], (List.append_nil _).symm⟩
  | cons i p ih =>
    obtain ⟨label, args, a, rfl, ha, hu⟩ := TermTree.sub_cons.mp h
    obtain ⟨before, behind, hsplit⟩ := ih hu
    obtain ⟨l, r, rfl⟩ := List.append_of_mem (List.mem_of_getElem? ha)
    refine ⟨(dtreeCtrBase + label, (flattenSymsArgs (l ++ a :: r)).length + 1) ::
      flattenSymsArgs l ++ before, behind ++ flattenSymsArgs r, ?_⟩
    rw [flattenSyms]
    simp only [flattenSymsArgs_eq, List.flatMap_append, List.flatMap_cons, hsplit]
    simp only [List.cons_append, List.append_assoc]

namespace OverlapState

variable {o : OverlapState} {ix : AtpRuleIndex} {g : Gathered ℕ} {r f : ℕ} {face qf u : FTerm}
  {p : List ℕ}

theorem keeps_descend (o : OverlapState) (ix : AtpRuleIndex) (query : List (ℕ × ℕ)) (h : g.Sound) :
    g.Keeps (o.descend ix query g) :=
  keeps_visitNode [] (fun query _ hg => keeps_visitChildren _ _ _ ix.root query hg) query h

theorem descend_finds (h : g.Sound) (hheld : ix.root.Holds str r) (hmeets : Meets isStar str query)
    (ho : (o.descend ix query g).overflow = false) : r ∈ (o.descend ix query g).found :=
  visitNode_finds (fun _ _ _ hg hw hm hq => visitChildren_finds ix.root hg hw hm hq) h (.inr hheld)
    hmeets ho

theorem found_descend (hr : r ∈ (o.descend ix query g).found) :
    r ∈ ix.root.records ∨ r ∈ g.found := by
  rcases found_visitNode (fun query g => found_visitChildren ix.root query) query hr with hr | hr
  · cases hr
  · exact hr

theorem keeps_collectAt (o : OverlapState) (flat : List (ℕ × ℕ)) (h : g.Sound) (k : ℕ) :
    g.Keeps (o.collectAt flat g k) := by
  unfold collectAt
  dsimp only
  split
  · exact .refl h
  · split
    · exact .refl h
    · exact o.keeps_descend _ _ h

theorem keeps_overflow (g : Gathered ℕ) : g.Keeps { g with overflow := true } :=
  ⟨nofun, nofun, fun _ => id⟩

theorem keeps_cpIndexCollectFace (o : OverlapState) (qf : FTerm) (h : g.Sound) :
    g.Keeps (o.cpIndexCollectFace qf g) := by
  unfold cpIndexCollectFace
  split
  · exact keeps_overflow g
  · exact Gathered.keeps_foldl _ (fun _ k hg => o.keeps_collectAt _ hg k) h

theorem keeps_cpSubindexCollectFace (o : OverlapState) (qf : FTerm) (h : g.Sound) :
    g.Keeps (o.cpSubindexCollectFace qf g) := by
  unfold cpSubindexCollectFace
  split
  · exact keeps_overflow g
  · exact o.keeps_descend _ _ h

/-- A stored side is found when it is like a subterm of the query that is no variable. -/
theorem cpIndexCollectFace_finds {vm : VarMap} (h : g.Sound) (hu : qf.sub p = some u)
    (hvar : ∀ id, u ≠ .fvr id) (halike : Alike face u)
    (hheld : o.cpIndex.root.Holds (insertSyms face vm).1 r)
    (ho : (o.cpIndexCollectFace qf g).overflow = false) :
    r ∈ (o.cpIndexCollectFace qf g).found := by
  unfold cpIndexCollectFace atpRiFlatten at ho ⊢
  split at ho
  · cases ho
  · next flat hflat =>
    split at hflat
    · cases hflat
    · obtain rfl := Option.some.inj hflat
      obtain ⟨before, behind, hsplit⟩ := flattenSyms_sub hu
      obtain ⟨sym, rest, hhead, hstar⟩ := exists_flattenSyms u
      have hslice : ((flattenSyms qf).drop before.length).take u.size = flattenSyms u := by
        rw [hsplit, List.append_assoc, List.drop_left, ← length_flattenSyms u, List.take_left]
      have hget : (flattenSyms qf).getD before.length (0, 0) = (sym, u.size) := by
        rw [hsplit, hhead, List.append_assoc, List.getD_eq_getElem?_getD,
          List.getElem?_append_right le_rfl, Nat.sub_self]
        rfl
      have hlt : before.length < (flattenSyms qf).length := by
        rw [hsplit, hhead]
        simp only [List.length_append, List.length_cons]
        omega
      have hsym : ¬ isStar sym = true := fun hs => by
        obtain ⟨id, hid⟩ := hstar.mp hs
        exact hvar id hid
      refine Gathered.foldl_finds (List.mem_range.mpr hlt) (fun g k hg => o.keeps_collectAt _ hg k)
        (fun g hg hog => ?_) h ho
      unfold collectAt at hog ⊢
      simp only [hget, hslice, hsym] at hog ⊢
      by_cases hfull : g.overflow = true
      · rw [if_pos hfull, hfull] at hog
        cases hog
      · rw [if_neg hfull] at hog ⊢
        refine descend_finds hg hheld ?_ hog
        simpa using halike.meets vm (.done : Meets isStar [] [])

/-- A stored subterm is found when it is like the whole query. -/
theorem cpSubindexCollectFace_finds {vm : VarMap} (h : g.Sound) (halike : Alike u qf)
    (hheld : o.cpSubindex.root.Holds (insertSyms u vm).1 r)
    (ho : (o.cpSubindexCollectFace qf g).overflow = false) :
    r ∈ (o.cpSubindexCollectFace qf g).found := by
  unfold cpSubindexCollectFace atpRiFlatten at ho ⊢
  split at ho
  · cases ho
  · next flat hflat =>
    split at hflat
    · cases hflat
    · obtain rfl := Option.some.inj hflat
      refine descend_finds h hheld ?_ ho
      simpa using halike.meets vm (.done : Meets isStar [] [])

/-- What is found for one side of the rule is found for the rule. -/
theorem collectFaces_finds {collectFace : FTerm → Gathered ℕ → Gathered ℕ}
    (hkeeps : ∀ qf (g : Gathered ℕ), g.Sound → g.Keeps (collectFace qf g))
    (hqf : qf = o.rules.lhs f ∨ qf = o.rules.rhs f)
    (hfinds : ∀ g : Gathered ℕ, g.Sound → (collectFace qf g).overflow = false →
      r ∈ (collectFace qf g).found)
    (ho : (o.collectFaces collectFace f).overflow = false) :
    r ∈ (o.collectFaces collectFace f).found := by
  unfold collectFaces at ho ⊢
  have hleft := hkeeps (o.rules.lhs f) .empty Gathered.sound_empty
  dsimp only at ho ⊢
  split at ho
  · next hfull =>
    rw [hfull] at ho
    cases ho
  · next hroom =>
    rw [if_neg hroom]
    have hright := hkeeps (o.rules.rhs f) _ hleft.sound
    rcases hqf with rfl | rfl
    · exact hright.found r (hfinds _ Gathered.sound_empty (hright.overflow ho))
    · exact hfinds _ hleft.sound ho

theorem found_collectFaces {collectFace : FTerm → Gathered ℕ → Gathered ℕ}
    (hface : ∀ qf (g : Gathered ℕ), r ∈ (collectFace qf g).found →
      r ∈ ix.root.records ∨ r ∈ g.found)
    (hr : r ∈ (o.collectFaces collectFace f).found) : r ∈ ix.root.records := by
  unfold collectFaces at hr
  dsimp only at hr
  have hleft : r ∈ (collectFace (o.rules.lhs f) .empty).found → r ∈ ix.root.records := fun hr =>
    (hface _ _ hr).resolve_right (List.not_mem_nil)
  split at hr
  · exact hleft hr
  · exact (hface _ _ hr).elim id hleft

theorem found_foldl_collectAt {flat : List (ℕ × ℕ)} {ks : List ℕ}
    (hr : r ∈ (ks.foldl (fun g k => o.collectAt flat g k) g).found) :
    r ∈ o.cpIndex.root.records ∨ r ∈ g.found := by
  induction ks generalizing g with
  | nil => exact .inr hr
  | cons k ks ih =>
    rcases ih hr with hr | hr
    · exact .inl hr
    · unfold collectAt at hr
      dsimp only at hr
      split at hr
      · exact .inr hr
      · split at hr
        · exact .inr hr
        · exact found_descend hr

/-- The candidates are records of the index. -/
theorem found_cpIndexCollect (hr : r ∈ (o.cpIndexCollect f).found) :
    r ∈ o.cpIndex.root.records := by
  refine found_collectFaces (fun qf g hr => ?_) hr
  unfold cpIndexCollectFace at hr
  split at hr
  · exact .inr hr
  · exact found_foldl_collectAt hr

end OverlapState

/-! ## What a tree is built from -/

/-- All strings of the rule stand in the tree. -/
def Entered (strings : FTerm × FTerm → List (List ℕ)) (root : Forest ℕ ℕ) (s : RuleSlots) (i : ℕ) :
    Prop :=
  ∀ w ∈ strings (s.lhs i, s.rhs i), w ≠ [] → root.Holds w i

section
variable {strings : FTerm × FTerm → List (List ℕ)} {root : Forest ℕ ℕ} {s : RuleSlots}
  {w : List ℕ} {ws : List (List ℕ)} {i r : ℕ} {is : List ℕ}

theorem holds_insertString (h : root.Holds w r) (v : List ℕ) :
    (insertString root i v).Holds w r := by
  cases v with
  | nil => exact h
  | cons s ss => exact h.insert

theorem holds_insertStrings (h : root.Holds w r) (ws : List (List ℕ)) :
    (ws.foldl (fun root w => insertString root i w) root).Holds w r := by
  induction ws generalizing root with
  | nil => exact h
  | cons v ws ih => exact ih (holds_insertString h v)

theorem insertStrings_holds (hw : w ∈ ws) (hne : w ≠ []) :
    (ws.foldl (fun root w => insertString root i w) root).Holds w i := by
  induction ws generalizing root with
  | nil => cases hw
  | cons v ws ih =>
    rcases List.mem_cons.mp hw with rfl | hw
    · cases w with
      | nil => exact absurd rfl hne
      | cons s ss => exact holds_insertStrings (root.holds_insert_self s ss i) ws
    · exact ih hw

theorem records_insertStrings
    (hr : r ∈ (ws.foldl (fun root w => insertString root i w) root).records) :
    r = i ∨ r ∈ root.records := by
  induction ws generalizing root with
  | nil => exact .inr hr
  | cons v ws ih =>
    rcases ih hr with hr | hr
    · exact .inl hr
    · cases v with
      | nil => exact .inr hr
      | cons s ss => exact Forest.mem_records_insert.mp hr

/-- The loop over the rules that are entered. -/
def enterAll (strings : FTerm × FTerm → List (List ℕ)) (s : RuleSlots) (is : List ℕ)
    (root : Forest ℕ ℕ) : Forest ℕ ℕ :=
  is.foldl (fun root i =>
    (strings (s.lhs i, s.rhs i)).foldl (fun root w => insertString root i w) root) root

theorem holds_enterAll (h : root.Holds w r) (is : List ℕ) :
    (enterAll strings s is root).Holds w r := by
  induction is generalizing root with
  | nil => exact h
  | cons i is ih => exact ih (holds_insertStrings h _)

theorem enterAll_entered (hi : i ∈ is) : Entered strings (enterAll strings s is root) s i := by
  induction is generalizing root with
  | nil => cases hi
  | cons j is ih =>
    rcases List.mem_cons.mp hi with rfl | hi
    · exact fun w hw hne => holds_enterAll (insertStrings_holds hw hne) is
    · exact ih hi

theorem records_enterAll (hr : r ∈ (enterAll strings s is root).records) :
    r ∈ is ∨ r ∈ root.records := by
  induction is generalizing root with
  | nil => exact .inr hr
  | cons i is ih =>
    rcases ih hr with hr | hr
    · exact .inl (List.mem_cons_of_mem i hr)
    · rcases records_insertStrings hr with rfl | hr
      · exact .inl List.mem_cons_self
      · exact .inr hr

end

end Thvm.Atp
