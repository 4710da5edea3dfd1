import Thvm.ClauseInferenceSpec
import Thvm.FtUnifiersAgree

/-!
# Instances of flat terms

A copy, the instance under the bindings of the matcher and the one under those of the unifier
are built cell by cell and encode what the term layer gives. Where a variable of the template
is not bound, the instance of the matcher is `NULL` instead.
-/

namespace Thvm.Ft

open ThreadedTrees BoundedLoops

variable {moves : ℕ → Bool} {scratch : Bool} {a a' : AtpFt} {m m' : FtMemory} {U V : Set Addr}
  {p q x : Addr} {o : Option Addr} {t r : FTerm} {ts rs : List FTerm} {f id n k : ℕ}
  {b : ℕ → Option FTerm} {B : Bindings} {rest as : List Addr}

/-! ## Encoded terms -/

theorem Encodes.mem (h : Encodes m U p t) : p ∈ U := by
  obtain ⟨as, -, hU⟩ := h.source
  exact hU p List.mem_cons_self

/-- The end of a term is read where its cells are as they were. -/
theorem Encodes.behind_eq (h : Encodes m U p t) (hsame : ∀ q ∈ U, m' q = m q) :
    behind m' p = behind m p := by
  obtain ⟨as, hthread, hU⟩ := h.source
  obtain ⟨_, _, c, heq, hc, hfin⟩ := hthread.shaped.root
  cases heq
  have hlast : c.fin ∈ U := by
    rw [hfin]
    exact hU _ (List.getLast_mem _)
  rw [behind, behind, hsame p h.mem, hc]
  simp only [Option.bind_eq_bind, Option.bind_some, hsame c.fin hlast]

theorem Builds.encodes (h : Builds scratch a U (cellTree t) (p :: as) a') (ht : Plain t) :
    Encodes a'.mem (U ∪ {q | q ∈ p :: as}) p t := by
  obtain ⟨e, c, hlast, hc, hend⟩ := h.ended
  exact ⟨h.threaded.standing hlast hc hend fun q hq => .inr hq, ht⟩

/-- The term has been put into fresh cells, and what was in use is as it was. -/
structure Added (a : AtpFt) (U : Set Addr) (p : Addr) (t : FTerm) (a' : AtpFt) : Prop where
  fresh : p ∉ U
  encodes : ∃ V, U ⊆ V ∧ InUse a' V ∧ Encodes a'.mem V p t
  kept : ∀ q ∈ U, a'.mem q = a.mem q

theorem Builds.added (h : Builds scratch a U (cellTree t) (p :: as) a') (ht : Plain t) :
    Added a U p t a' where
  fresh := h.fresh p List.mem_cons_self
  encodes := ⟨_, Set.subset_union_left, h.inUse, h.encodes ht⟩
  kept := h.kept

/-- The arena of a construction that reads the cells of `V` as they are in `m`. -/
structure Site (m : FtMemory) (V : Set Addr) (a : AtpFt) (U : Set Addr) : Prop where
  inUse : InUse a U
  sub : V ⊆ U
  same : ∀ q ∈ V, a.mem q = m q

theorem Site.refl (h : InUse a U) : Site a.mem U a U := ⟨h, subset_rfl, fun _ _ => rfl⟩

theorem Site.builds (hs : Site m V a U) (h : Builds scratch a U (cellTree t) as a') :
    Site m V a' (U ∪ {q | q ∈ as}) where
  inUse := h.inUse
  sub := hs.sub.trans Set.subset_union_left
  same q hq := (h.kept q (hs.sub hq)).trans (hs.same q hq)

/-- The construction builds the term wherever the cells for it are supplied. -/
def Constructs (moves : ℕ → Bool) (scratch : Bool) (m : FtMemory) (V : Set Addr)
    (g : ℕ → AtpFt → Option (Addr × AtpFt)) (r : FTerm) : Prop :=
  ∀ a U k, Site m V a U → a.Supplies moves scratch ((cellTree r).size + k) →
    ∃ p as a', Settles (fun n => g n a) (p, a') ∧ Builds scratch a U (cellTree r) (p :: as) a' ∧
      a'.Supplies moves scratch k

/-- The loop over the arguments builds a row when the constructor below it builds terms. -/
theorem buildArgs_constructs {g : ℕ → Addr → AtpFt → Option (Addr × AtpFt)}
    (h : Encodings m V o ts rest)
    (hg : List.Forall₂ (fun t r => ∀ q, Encodes m V q t →
      Constructs moves scratch m V (fun n => g n q) r) ts rs)
    (hs : Site m V a U)
    (hsup : a.Supplies moves scratch ((rs.map fun r => (cellTree r).size).sum + k)) :
    ∃ ass a', Settles (fun n => buildArgs (g n) ts.length o a) (ass.filterMap List.head?, a') ∧
      BuildsRow scratch a U (rs.map cellTree) ass a' ∧ a'.Supplies moves scratch k := by
  induction hg generalizing o a U with
  | nil =>
    rw [List.map_nil, List.sum_nil, Nat.zero_add] at hsup
    exact ⟨[], a, Settles.const _, .nil hs.inUse, hsup⟩
  | @cons t r ts rs ht _ ih =>
    obtain ⟨q, o', rfl, hq, hbehind, hrest⟩ := h.skip
    rw [List.map_cons, List.sum_cons, Nat.add_assoc] at hsup
    obtain ⟨p, as, a₁, hset, hbuilds, hsup₁⟩ := ht q hq a U _ hs hsup
    have hs₁ := hs.builds hbuilds
    obtain ⟨ass, a₂, hset₂, hrow, hsup₂⟩ := ih hrest hs₁ hsup₁
    refine ⟨(p :: as) :: ass, a₂, ?_, .cons hbuilds hrow, hsup₂⟩
    have hbehind₁ : behind a₁.mem q = some o' := (hq.behind_eq hs₁.same).trans hbehind
    rw [behind] at hbehind₁
    obtain ⟨c, hc, hbehind₁⟩ := Option.bind_eq_some_iff.mp hbehind₁
    obtain ⟨e, he, hnext⟩ := Option.bind_eq_some_iff.mp hbehind₁
    obtain rfl := Option.some.inj hnext
    obtain ⟨N, hN⟩ := hset
    obtain ⟨M, hM⟩ := hset₂
    refine ⟨N + M, fun n hn => ?_⟩
    have hfirst : g n q a = some (p, a₁) := hN n (by omega)
    have hothers : buildArgs (g n) ts.length e.next a₁ = some (ass.filterMap List.head?, a₂) :=
      hM n (by omega)
    change buildArgs (g n) (ts.length + 1) (some q) a = _
    rw [buildArgs]
    simp only [Option.bind_eq_bind, Option.bind_some, hfirst, hc, he, hothers]
    rfl

/-- The constructors: a constant, or a node over what has been built for the arguments. -/
def buildNode (moves : ℕ → Bool) (scratch : Bool) (g : Addr → AtpFt → Option (Addr × AtpFt))
    (f k : ℕ) (o : Option Addr) (a : AtpFt) : Option (Addr × AtpFt) :=
  if k = 0 then ftnewConst moves a f scratch
  else do
    let (kids, a) ← buildArgs g k o a
    ftnewCtr moves a f k kids scratch

theorem buildNode_constructs {g : ℕ → Addr → AtpFt → Option (Addr × AtpFt)}
    (h : Encodings m V o ts rest)
    (hg : List.Forall₂ (fun t r => ∀ q, Encodes m V q t →
      Constructs moves scratch m V (fun n => g n q) r) ts rs) (hplain : Plain (.ctr f rs)) :
    Constructs moves scratch m V (fun n => buildNode moves scratch (g n) f ts.length o)
      (.ctr f rs) := by
  intro a U k hs hsup
  have hf : f % varBit = f := by
    have := (plain_ctr.mp hplain).1
    exact Nat.mod_eq_of_lt (by rw [varBit]; omega)
  have hsize : (cellTree (.ctr f rs)).size + k =
      (rs.map fun r => (cellTree r).size).sum + (k + 1) := by
    rw [cellTree_ctr hplain, TermTree.size_node, List.map_map]
    change 1 + (rs.map fun r => (cellTree r).size).sum + k = _
    omega
  rw [hsize] at hsup
  rw [cellTree_ctr hplain]
  by_cases h0 : ts.length = 0
  · obtain rfl := List.length_eq_zero_iff.mp h0
    cases hg
    rw [List.map_nil, List.sum_nil, Nat.zero_add] at hsup
    obtain ⟨p, a', hrun, hb, hsup'⟩ := ftnewConst_supplied hs.inUse hsup f
    rw [hf] at hb
    exact ⟨p, [], a', (Settles.const _).congr fun n => (if_pos rfl).trans hrun, hb, hsup'⟩
  · obtain ⟨ass, a₁, hset, hrow, hsup₁⟩ := buildArgs_constructs h hg hs hsup
    have hlen : ts.length = (rs.map cellTree).length := by rw [List.length_map, hg.length_eq]
    obtain ⟨p, a', hrun, hb, hsup'⟩ := hrow.join_supplied hsup₁ f hlen.le
    rw [hf, List.take_of_length_le hlen.ge] at hb
    refine ⟨p, _, a', (hset.bind (g := fun _ l => ftnewCtr moves l.2 f ts.length l.1 scratch)
      ((Settles.const _).congr fun n => hrun)).congr fun n => ?_, hb, hsup'⟩
    exact if_neg h0

/-! ## Copies -/

theorem ftDeepCopy_constructs (ht : Plain t) : ∀ q, Encodes m V q t →
    Constructs moves scratch m V (fun n => ftDeepCopy moves scratch n q) t := by
  refine Plain.induct (motive := fun t => ∀ q, Encodes m V q t →
    Constructs moves scratch m V (fun n => ftDeepCopy moves scratch n q) t) ?_ ?_ ht
  · intro id hid q hq a U k hs hsup
    obtain ⟨c, hc, hvar, hsym, -⟩ := hq.fvr
    rw [cellTree_fvr hid, TermTree.size_leaf, Nat.add_comm] at hsup
    obtain ⟨p, a', hrun, hb, hsup'⟩ := ftnewVar_supplied hs.inUse hsup id
    rw [← cellTree] at hb
    refine ⟨p, [], a', (Settles.const (p, a')).succ fun n => ?_, hb, hsup'⟩
    change ftDeepCopy moves scratch (n + 1) q a = _
    rw [ftDeepCopy, hs.same q hq.mem, hc, Option.bind_eq_bind, Option.bind_some, if_pos hvar, hsym,
      hrun]
  · intro f args hplain ih q hq a U k hs hsup
    obtain ⟨c, rest, hc, hvar, hsym, harity, hargs⟩ := hq.ctr
    have hg : List.Forall₂ (fun t r => ∀ q, Encodes m V q t → Constructs moves scratch m V
        (fun n => ftDeepCopy moves scratch n q) r) args args :=
      List.forall₂_same.mpr ih
    obtain ⟨p, as, a', hset, hrest⟩ := buildNode_constructs hargs hg hplain a U k hs hsup
    refine ⟨p, as, a', hset.succ fun n => ?_, hrest⟩
    change ftDeepCopy moves scratch (n + 1) q a = _
    rw [ftDeepCopy, hs.same q hq.mem, hc, Option.bind_eq_bind, Option.bind_some,
      if_neg (by simp [hvar]), hsym, harity]
    rfl

/-! ## The instance of the unifier -/

theorem Corresponds.plain (hcorr : Corresponds m V B b) (hid : b id = some t) : Plain t := by
  obtain ⟨_, _, hp⟩ := hcorr.bound hid
  exact hp.plain

/-- One more round, behind a computation that has come to its end. -/
theorem settles_behind {α β : Type} {f f' : ℕ → Option α} {w : ℕ → Option β} {y : β} {z : α}
    (hw : Settles w y) (h : Settles f z) (hf : ∀ n, w n = some y → f' (n + 1) = f n) :
    Settles f' z := by
  obtain ⟨N, hN⟩ := hw
  obtain ⟨M, hM⟩ := h
  refine ⟨N + M + 1, fun n hn => ?_⟩
  obtain ⟨n, rfl⟩ := Nat.exists_eq_succ_of_ne_zero (Nat.ne_zero_of_lt hn)
  rw [Nat.succ_eq_add_one, hf n (hN n (by omega)), hM n (by omega)]

theorem ftUnifyApply_fvr (hx : Encodes a.mem U x (.fvr id))
    (hwalk : ftUnifyWalk a.mem B (n + 1) q = some x) :
    ftUnifyApply moves B scratch (n + 1) q a = ftnewVar moves a id scratch := by
  obtain ⟨c, hc, hvar, hsym, -⟩ := hx.fvr
  rw [ftUnifyApply, hwalk]
  simp only [Option.bind_eq_bind, Option.bind_some, hc, hvar, if_true, hsym]

theorem ftUnifyApply_ctr (moves : ℕ → Bool) (scratch : Bool) (B : Bindings) (q : Addr)
    (hx : Encodes a.mem U x (.ctr f ts)) : ∃ o rest,
    Encodings a.mem U o ts rest ∧ ∀ n, ftUnifyWalk a.mem B (n + 1) q = some x →
      ftUnifyApply moves B scratch (n + 1) q a =
        buildNode moves scratch (ftUnifyApply moves B scratch n) f ts.length o a := by
  obtain ⟨c, rest, hc, hvar, hsym, harity, hargs⟩ := hx.ctr
  refine ⟨c.next, rest, hargs, fun n hwalk => ?_⟩
  rw [ftUnifyApply, hwalk]
  simp only [Option.bind_eq_bind, Option.bind_some, hc, hvar, Bool.false_eq_true, if_false, hsym,
    harity]
  rfl

theorem plain_args (hplain : Plain (.ctr f ts)) {R : FTerm → FTerm → Prop}
    (h : List.Forall₂ R ts rs) (hR : ∀ t ∈ ts, ∀ r, R t r → Plain r) : Plain (.ctr f rs) := by
  obtain ⟨hf, hlen, -⟩ := plain_ctr.mp hplain
  refine plain_ctr.mpr ⟨hf, h.length_eq ▸ hlen, ?_⟩
  clear hf hlen hplain
  induction h with
  | nil => exact fun _ h => absurd h List.not_mem_nil
  | cons hr _ ih =>
    exact List.forall_mem_cons.mpr ⟨hR _ List.mem_cons_self _ hr,
      ih fun t ht => hR t (List.mem_cons_of_mem _ ht)⟩

theorem unifyWalk_plain (hb : ∀ id t, b id = some t → Plain t) (ht : Plain t)
    (hwalk : unifyWalk b n t = some u) : Plain u := by
  induction n generalizing t with
  | zero => cases hwalk
  | succ n ih =>
    cases t with
    | node f args =>
      obtain rfl := Option.some.inj hwalk
      exact ht
    | leaf l =>
      cases l with
      | num d v =>
        obtain rfl := Option.some.inj hwalk
        exact ht
      | fvr id =>
        change unifyWalk b (n + 1) (.fvr id) = some u at hwalk
        rw [unifyWalk, if_neg (Nat.not_le.mpr ht.fvr_lt)] at hwalk
        cases hid : b id with
        | none =>
          rw [hid] at hwalk
          obtain rfl := Option.some.inj hwalk
          exact ht
        | some t =>
          rw [hid] at hwalk
          exact ih (hb id t hid) hwalk

theorem thvmUnifyApply_plain (hb : ∀ id t, b id = some t → Plain t) (ht : Plain t)
    (happly : thvmUnifyApply b n t = some r) : Plain r := by
  induction n generalizing t r with
  | zero => cases happly
  | succ n ih =>
    obtain ⟨u, hwalk, happly⟩ := Option.bind_eq_some_iff.mp happly
    have hu := unifyWalk_plain hb ht hwalk
    rcases u with l | ⟨f, args⟩
    · obtain rfl : r = .leaf l := by
        cases l <;> exact (Option.some.inj happly).symm
      exact hu
    · obtain ⟨-, hlen, hargs⟩ := plain_ctr.mp hu
      change applyAt (thvmUnifyApply b n) (.ctr f args) = some r at happly
      rw [applyAt, if_neg (Nat.not_lt.mpr hlen)] at happly
      obtain ⟨rs, hrs, happly⟩ := Option.bind_eq_some_iff.mp happly
      obtain rfl := Option.some.inj happly
      exact plain_args hu (forall₂_of_mapM hrs) fun t ht r hr => ih (hargs t ht) hr

/-- What `thvm_unify_apply` gives, `ft_unify_apply` builds from the cells. -/
theorem ftUnifyApply_constructs (hcorr : Corresponds m V B b) (hq : Encodes m V q t)
    (happly : thvmUnifyApply b n t = some r) :
    Constructs moves scratch m V (fun n => ftUnifyApply moves B scratch n q) r := by
  induction n generalizing m V q t r with
  | zero => cases happly
  | succ n ih =>
    have hplain := thvmUnifyApply_plain (fun _ _ => hcorr.plain) hq.plain happly
    intro a U k hs hsup
    obtain ⟨u, hwalk, happly⟩ := Option.bind_eq_some_iff.mp happly
    have hcorr' := hcorr.congr hs.sub hs.same
    obtain ⟨x, hrun, hx⟩ := rel_right (ftUnifyWalk_rel hcorr' (hq.congr hs.sub hs.same) n) hwalk
    have hset : Settles (fun n => ftUnifyWalk a.mem B (n + 1) q) x :=
      (settles_of_lasting (ftUnifyWalk_lasting _ _ _) hrun).pred
    rcases u with (id | ⟨d, v⟩) | ⟨f, args⟩
    · obtain rfl := Option.some.inj happly
      rw [cellTree_fvr hx.plain.fvr_lt, TermTree.size_leaf, Nat.add_comm] at hsup
      obtain ⟨p, a', hrun, hb, hsup'⟩ := ftnewVar_supplied hs.inUse hsup id
      rw [← cellTree] at hb
      exact ⟨p, [], a', settles_behind hset ((Settles.const _).congr fun _ => hrun) fun n hw =>
        ftUnifyApply_fvr hx hw, hb, hsup'⟩
    · exact absurd (by simp) (hx.plain.numberFree d v)
    · change applyAt (thvmUnifyApply b n) (.ctr f args) = some r at happly
      rw [applyAt, if_neg (Nat.not_lt.mpr (plain_ctr.mp hx.plain).2.1)] at happly
      obtain ⟨rs, hrs, happly⟩ := Option.bind_eq_some_iff.mp happly
      obtain rfl := Option.some.inj happly
      obtain ⟨o, rest, hkids, hstep⟩ := ftUnifyApply_ctr moves scratch B q hx
      obtain ⟨p, as, a', hrun, hrest⟩ := buildNode_constructs hkids
        (g := ftUnifyApply moves B scratch) ((forall₂_of_mapM hrs).imp fun t r hr q hq =>
          ih hcorr' hq hr) hplain a U k (.refl hs.inUse) hsup
      exact ⟨p, as, a', settles_behind hset hrun fun n hw => hstep n hw, hrest⟩

/-! ## The instance of the matcher -/

/-- A result that is not `NULL`. -/
def found (e : Option (Option Addr × AtpFt)) : Option (Addr × AtpFt) :=
  e.bind fun r => r.1.map fun p => (p, r.2)

theorem found_eq_some {e : Option (Option Addr × AtpFt)} :
    found e = some (p, a) ↔ e = some (some p, a) := by
  rcases e with _ | ⟨_ | _, _⟩ <;> simp [found]

/-- The loop that stops at `NULL` is the other one where there is none. -/
theorem applyKids_found {g : Addr → AtpFt → Option (Option Addr × AtpFt)} {kids : List Addr}
    (h : buildArgs (fun q a => found (g q a)) k o a = some (kids, a')) :
    applyKids g k o a = some (some kids, a') := by
  induction k generalizing o a kids with
  | zero =>
    cases h
    rfl
  | succ k ih =>
    obtain ⟨q, rfl, h⟩ := Option.bind_eq_some_iff.mp h
    obtain ⟨⟨kid, a₁⟩, hfirst, h⟩ := Option.bind_eq_some_iff.mp h
    obtain ⟨c, hc, h⟩ := Option.bind_eq_some_iff.mp h
    obtain ⟨e, he, h⟩ := Option.bind_eq_some_iff.mp h
    obtain ⟨⟨others, a₂⟩, hothers, h⟩ := Option.bind_eq_some_iff.mp h
    cases h
    have hbehind : behind a₁.mem q = some e.next := by
      rw [behind, hc, Option.bind_eq_bind, Option.bind_some, he]
      rfl
    rw [applyKids]
    simp only [Option.bind_eq_bind, Option.bind_some, found_eq_some.mp hfirst, hbehind, ih hothers]

theorem ftSubstApply_fvr (moves : ℕ → Bool) (scratch : Bool) (B : Bindings) (n : ℕ)
    (hq : Encodes a.mem U q (.fvr id)) : ftSubstApply moves scratch B (n + 1) q a =
      (B id).elim (some (none, a)) fun y =>
        (ftDeepCopy moves scratch n y a).bind fun r => some (some r.1, r.2) := by
  obtain ⟨c, hc, hvar, hsym, hid⟩ := hq.fvr
  rw [ftSubstApply, hc, Option.bind_eq_bind, Option.bind_some, if_pos hvar, hsym,
    if_neg (Nat.not_le.mpr (show id < atpftMaxVars from hid))]
  cases B id <;> rfl

theorem ftSubstApply_ctr (moves : ℕ → Bool) (scratch : Bool) (B : Bindings)
    (hq : Encodes a.mem U q (.ctr f ts)) : ∃ o rest, Encodings a.mem U o ts rest ∧
      ∀ n, ftSubstApply moves scratch B (n + 1) q a =
        if ts.length = 0 then (ftnewConst moves a f scratch).bind fun r => some (some r.1, r.2)
        else (applyKids (ftSubstApply moves scratch B n) ts.length o a).bind fun r =>
          r.1.elim (some (none, r.2)) fun kids =>
            (ftnewCtr moves r.2 f ts.length kids scratch).bind fun r => some (some r.1, r.2) := by
  obtain ⟨c, rest, hc, hvar, hsym, harity, hargs⟩ := hq.ctr
  refine ⟨c.next, rest, hargs, fun n => ?_⟩
  rw [ftSubstApply, hc, Option.bind_eq_bind, Option.bind_some, if_neg (by simp [hvar]), hsym,
    harity]
  by_cases h0 : ts.length = 0
  · rw [if_pos h0, if_pos h0]
    rfl
  · rw [if_neg h0, if_neg h0]
    congr 1
    funext r
    rcases r with ⟨_ | kids, a⟩ <;> rfl

theorem thvmSubstApply_ctr (h : Plain (.ctr f ts)) (b : ℕ → Option FTerm) :
    thvmSubstApply b (.ctr f ts) = .ctr f (ts.map (thvmSubstApply b)) := by
  obtain ⟨-, hlen, -⟩ := plain_ctr.mp h
  rw [thvmSubstApply, if_neg (Nat.not_lt.mpr hlen), thvmSubstApplyArgs_eq]

theorem thvmSubstApply_plain (hb : ∀ id t, b id = some t → Plain t) (ht : Plain t) :
    Plain (thvmSubstApply b t) := by
  refine Plain.induct (motive := fun t => Plain (thvmSubstApply b t)) ?_ ?_ ht
  · intro id hid
    rw [thvmSubstApply, if_pos hid]
    cases hbid : b id with
    | none => exact plain_fvr hid
    | some u => exact hb id u hbid
  · intro f args hplain ih
    rw [thvmSubstApply_ctr hplain]
    obtain ⟨hf, hlen, -⟩ := plain_ctr.mp hplain
    refine plain_ctr.mpr ⟨hf, by rwa [List.length_map], fun r hr => ?_⟩
    obtain ⟨t, ht, rfl⟩ := List.mem_map.mp hr
    exact ih t ht

/-- Every variable of the template is bound. -/
def AllBound (b : ℕ → Option FTerm) (t : FTerm) : Prop :=
  ∀ id, Leaf.fvr id ∈ t.leaves → (b id).isSome

theorem allBound_ctr : AllBound b (.ctr f ts) ↔ ∀ t ∈ ts, AllBound b t := by
  constructor
  · exact fun h t ht id hid => h id (TermTree.mem_leaves_node.mpr ⟨t, ht, hid⟩)
  · intro h id hid
    obtain ⟨t, ht, hid⟩ := TermTree.mem_leaves_node.mp hid
    exact h t ht id hid

/-- Where all variables are bound, `ft_subst_apply` builds what `thvm_subst_apply` gives. -/
theorem ftSubstApply_constructs (hcorr : Corresponds m V B b) (ht : Plain t)
    (hall : AllBound b t) (hq : Encodes m V q t) :
    Constructs moves scratch m V (fun n a => found (ftSubstApply moves scratch B n q a))
      (thvmSubstApply b t) := by
  revert m V q hcorr hall hq
  refine Plain.induct (motive := fun t => ∀ {m V q}, Corresponds m V B b → AllBound b t →
    Encodes m V q t → Constructs moves scratch m V
      (fun n a => found (ftSubstApply moves scratch B n q a)) (thvmSubstApply b t)) ?_ ?_ ht
  · intro id hid m V q hcorr hall hq a U k hs hsup
    obtain ⟨u, hu⟩ := Option.isSome_iff_exists.mp (hall id (by simp))
    obtain ⟨y, hy, hyu⟩ := hcorr.bound hu
    rw [thvmSubstApply, if_pos hid, hu, Option.getD_some] at hsup ⊢
    obtain ⟨p, as, a', hset, hrest⟩ := ftDeepCopy_constructs hyu.plain y hyu a U k hs hsup
    refine ⟨p, as, a', hset.succ fun n => ?_, hrest⟩
    change found (ftSubstApply moves scratch B (n + 1) q a) = _
    rw [ftSubstApply_fvr moves scratch B n (hq.congr hs.sub hs.same), hy, Option.elim_some]
    change found ((ftDeepCopy moves scratch n y a).bind fun r => some (some r.1, r.2)) =
      ftDeepCopy moves scratch n y a
    cases ftDeepCopy moves scratch n y a <;> rfl
  · intro f args hplain ih m V q hcorr hall hq a U k hs hsup
    rw [thvmSubstApply_ctr hplain] at hsup ⊢
    have hplain' := thvmSubstApply_plain (b := b) (fun _ _ h => hcorr.plain h) hplain
    rw [thvmSubstApply_ctr hplain] at hplain'
    obtain ⟨o, rest, hargs, hstep⟩ := ftSubstApply_ctr moves scratch B (hq.congr hs.sub hs.same)
    have hg : List.Forall₂ (fun t r => ∀ q, Encodes a.mem U q t → Constructs moves scratch a.mem U
        (fun n a => found (ftSubstApply moves scratch B n q a)) r) args
          (args.map (thvmSubstApply b)) := by
      refine List.forall₂_map_right_iff.mpr (List.forall₂_same.mpr fun t ht q hq => ?_)
      exact ih t ht (hcorr.congr hs.sub hs.same) (allBound_ctr.mp hall t ht) hq
    obtain ⟨p, as, a', ⟨N, hN⟩, hrest⟩ := buildNode_constructs hargs
      (g := fun n q a => found (ftSubstApply moves scratch B n q a)) hg hplain' a U k
        (.refl hs.inUse) hsup
    refine ⟨p, as, a', ⟨N + 1, fun n hn => ?_⟩, hrest⟩
    obtain ⟨n, rfl⟩ := Nat.exists_eq_succ_of_ne_zero (Nat.ne_zero_of_lt hn)
    have hrun : buildNode moves scratch (fun q a => found (ftSubstApply moves scratch B n q a)) f
      args.length o a = some (p, a') := hN n (by omega)
    refine found_eq_some.mpr ((hstep n).trans ?_)
    rw [buildNode] at hrun
    by_cases h0 : args.length = 0
    · rw [if_pos h0] at hrun ⊢
      rw [hrun]
      rfl
    · rw [if_neg h0] at hrun ⊢
      obtain ⟨⟨kids, a₁⟩, hkids, hrun⟩ := Option.bind_eq_some_iff.mp hrun
      replace hrun : ftnewCtr moves a₁ f args.length kids scratch = some (p, a') := hrun
      rw [applyKids_found hkids, Option.bind_some, Option.elim_some, hrun]
      rfl

/-- The loop over the arguments stops at the first one with a variable that is not bound. -/
theorem applyKids_unbound (h : Encodings m V o ts rest) (hcorr : Corresponds m V B b)
    (hts : ∀ t ∈ ts, ∀ {a U q k}, ¬AllBound b t → Encodes m V q t → Site m V a U →
      a.Supplies moves scratch ((cellTree (thvmSubstApply b t)).size + k) →
      ∃ a', Settles (fun n => ftSubstApply moves scratch B n q a) (none, a') ∧
        ∀ x ∈ U, a'.mem x = a.mem x)
    (hfree : ¬∀ t ∈ ts, AllBound b t) (hs : Site m V a U)
    (hsup : a.Supplies moves scratch
      ((ts.map fun t => (cellTree (thvmSubstApply b t)).size).sum + k)) :
    ∃ a', Settles (fun n => applyKids (ftSubstApply moves scratch B n) ts.length o a) (none, a') ∧
      ∀ x ∈ U, a'.mem x = a.mem x := by
  induction ts generalizing o a U with
  | nil => exact absurd (fun t ht => absurd ht List.not_mem_nil) hfree
  | cons t ts ih =>
    obtain ⟨q, o', rfl, hq, hbehind, hrest⟩ := h.skip
    rw [List.map_cons, List.sum_cons, Nat.add_assoc] at hsup
    by_cases hall : AllBound b t
    · have hfree' : ¬∀ t ∈ ts, AllBound b t := fun h =>
        hfree (List.forall_mem_cons.mpr ⟨hall, h⟩)
      obtain ⟨p, as, a₁, ⟨N, hN⟩, hbuilds, hsup₁⟩ :=
        ftSubstApply_constructs hcorr hq.plain hall hq a U _ hs hsup
      have hs₁ := hs.builds hbuilds
      obtain ⟨a₂, ⟨M, hM⟩, hkept⟩ := ih hrest (fun t ht => hts t (List.mem_cons_of_mem _ ht)) hfree'
        hs₁ hsup₁
      refine ⟨a₂, ⟨N + M, fun n hn => ?_⟩, fun x hx =>
        (hkept x (.inl hx)).trans (hbuilds.kept x hx)⟩
      have hfirst := found_eq_some.mp (hN n (by omega))
      have hothers : applyKids (ftSubstApply moves scratch B n) ts.length o' a₁ = some (none, a₂) :=
        hM n (by omega)
      change applyKids (ftSubstApply moves scratch B n) (ts.length + 1) (some q) a = _
      rw [applyKids]
      simp only [Option.bind_eq_bind, Option.bind_some, hfirst,
        (hq.behind_eq hs₁.same).trans hbehind, hothers]
    · obtain ⟨a', hset, hkept⟩ := hts t List.mem_cons_self hall hq hs hsup
      refine ⟨a', ?_, hkept⟩
      obtain ⟨N, hN⟩ := hset
      refine ⟨N, fun n hn => ?_⟩
      have hfirst : ftSubstApply moves scratch B n q a = some (none, a') := hN n hn
      change applyKids (ftSubstApply moves scratch B n) (ts.length + 1) (some q) a = _
      rw [applyKids]
      simp only [Option.bind_eq_bind, Option.bind_some, hfirst]

/-- Where a variable is not bound, `ft_subst_apply` returns `NULL`. -/
theorem ftSubstApply_unbound (hcorr : Corresponds m V B b) (ht : Plain t) (hfree : ¬AllBound b t)
    (hq : Encodes m V q t) (hs : Site m V a U)
    (hsup : a.Supplies moves scratch ((cellTree (thvmSubstApply b t)).size + k)) :
    ∃ a', Settles (fun n => ftSubstApply moves scratch B n q a) (none, a') ∧
      ∀ x ∈ U, a'.mem x = a.mem x := by
  revert m V q a U k hcorr hfree hq hs hsup
  refine Plain.induct (motive := fun t => ∀ {m V q a U k}, Corresponds m V B b → ¬AllBound b t →
    Encodes m V q t → Site m V a U →
    a.Supplies moves scratch ((cellTree (thvmSubstApply b t)).size + k) →
    ∃ a', Settles (fun n => ftSubstApply moves scratch B n q a) (none, a') ∧
      ∀ x ∈ U, a'.mem x = a.mem x) ?_ ?_ ht
  · intro id hid m V q a U k hcorr hfree hq hs _
    have hnone : b id = none := by
      refine Option.not_isSome_iff_eq_none.mp fun hsome => hfree fun x hx => ?_
      obtain rfl : x = id := by simpa using hx
      exact hsome
    refine ⟨a, (Settles.const (none, a)).succ fun n => ?_, fun _ _ => rfl⟩
    rw [ftSubstApply_fvr moves scratch B n (hq.congr hs.sub hs.same), hcorr.free hnone]
    rfl
  · intro f args hplain ih m V q a U k hcorr hfree hq hs hsup
    have hplain' := thvmSubstApply_plain (b := b) (fun _ _ h => hcorr.plain h) hplain
    rw [thvmSubstApply_ctr hplain] at hsup hplain'
    rw [cellTree_ctr hplain', TermTree.size_node, List.map_map, List.map_map] at hsup
    obtain ⟨o, rest, hargs, hstep⟩ := ftSubstApply_ctr moves scratch B (hq.congr hs.sub hs.same)
    rw [allBound_ctr] at hfree
    have h0 : args.length ≠ 0 := by
      rintro h0
      obtain rfl := List.length_eq_zero_iff.mp h0
      exact hfree fun t ht => absurd ht List.not_mem_nil
    have hcount : 1 + (args.map fun t => (cellTree (thvmSubstApply b t)).size).sum + k =
      (args.map fun t => (cellTree (thvmSubstApply b t)).size).sum + (k + 1) := by omega
    replace hsup := hcount ▸ hsup
    have hcorr' := hcorr.congr hs.sub hs.same
    obtain ⟨a', hset, hkept⟩ := applyKids_unbound hargs hcorr'
      (fun t ht _ _ _ _ hfree hq hs hsup => ih t ht hcorr' hfree hq hs hsup) hfree
      (.refl hs.inUse) hsup
    refine ⟨a', (hset.bind (g := fun _ r => r.1.elim (some (none, r.2)) fun kids =>
      (ftnewCtr moves r.2 f args.length kids scratch).bind fun r => some (some r.1, r.2))
        (Settles.const _)).succ fun n => (hstep n).trans (if_neg h0), hkept⟩

end Thvm.Ft
