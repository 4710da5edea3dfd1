import Thvm.FtMatchingSpec
import Thvm.UnifySpec

/-!
# The flat unifier is the unifier of terms

Both unifiers walk along corresponding bindings and make the same new ones. The one of terms
stops early at equal terms, where the flat one goes on to the variables without a binding
being made.
-/

namespace Thvm.Ft

open ThreadedTrees BoundedLoops

variable {m : FtMemory} {U : Set Addr} {p q x y : Addr} {o o' : Option Addr} {t u v : FTerm}
  {ts us : List FTerm} {rest rest' : List Addr} {id n : ℕ} {b b' : ℕ → Option FTerm}
  {B : Bindings} {s : AtpFtSubst} {st : UnifyState}

theorem settles_of_lasting {α : Type} {f : ℕ → Option α} {r : α} (h : Lasting f) (hr : f n = some r) :
    Settles f r := ⟨n, fun _ hn => h.of_le hn hr⟩

theorem unifyWalk_lasting (b : ℕ → Option FTerm) (t : FTerm) :
    Lasting fun n => unifyWalk b n t := by
  intro n u hu
  induction n generalizing t with
  | zero => cases hu
  | succ n ih =>
    cases t with
    | node f args => exact hu
    | leaf l =>
      cases l with
      | num d v => exact hu
      | fvr id =>
        change unifyWalk b (n + 1) (.fvr id) = some u at hu
        change unifyWalk b (n + 2) (.fvr id) = some u
        rw [unifyWalk] at hu ⊢
        by_cases hid : rewriteMaxVar ≤ id
        · rwa [if_pos hid] at hu ⊢
        · rw [if_neg hid] at hu ⊢
          cases hb : b id with
          | none => rwa [hb] at hu
          | some t =>
            rw [hb] at hu
            exact ih t hu

theorem anyArg_extends {P Q : FTerm → Option Bool} (h : ∀ t r, P t = some r → Q t = some r)
    {r : Bool} (hr : anyArg P ts = some r) : anyArg Q ts = some r := by
  induction ts with
  | nil => exact hr
  | cons t ts ih =>
    obtain ⟨found, hfound, hrest⟩ := Option.bind_eq_some_iff.mp hr
    refine Option.bind_eq_some_iff.mpr ⟨found, h t found hfound, ?_⟩
    cases found with
    | true => exact hrest
    | false => exact ih hrest

theorem unifyOccurs_lasting (b : ℕ → Option FTerm) (id : ℕ) (t : FTerm) :
    Lasting fun n => unifyOccurs b id n t := by
  intro n r hr
  induction n generalizing t r with
  | zero => cases hr
  | succ n ih =>
    obtain ⟨u, hu, hr⟩ := Option.bind_eq_some_iff.mp hr
    refine Option.bind_eq_some_iff.mpr ⟨u, unifyWalk_lasting b t n u hu, ?_⟩
    cases u with
    | leaf l => cases l <;> exact hr
    | node f args => exact anyArg_extends ih hr

theorem ftUnifyWalk_lasting (m : FtMemory) (B : Bindings) (p : Addr) :
    Lasting fun n => ftUnifyWalk m B n p := by
  intro n q hq
  induction n generalizing p with
  | zero => cases hq
  | succ n ih =>
    change ftUnifyWalk m B (n + 1) p = some q at hq
    change ftUnifyWalk m B (n + 2) p = some q
    rw [ftUnifyWalk] at hq ⊢
    obtain ⟨c, hc, hq⟩ := Option.bind_eq_some_iff.mp hq
    refine Option.bind_eq_some_iff.mpr ⟨c, hc, ?_⟩
    by_cases hvar : ftIsVar c = true
    · rw [if_pos hvar] at hq ⊢
      by_cases hid : atpftMaxVars ≤ ftSym c
      · rwa [if_pos hid] at hq ⊢
      · rw [if_neg hid] at hq ⊢
        cases hb : B (ftSym c) with
        | none => rwa [hb] at hq
        | some r =>
          rw [hb] at hq
          exact ih r hq
    · rwa [if_neg hvar] at hq ⊢

/-- The walks lead to corresponding ends in the same number of rounds. -/
theorem ftUnifyWalk_rel (hcorr : Corresponds m U B b) (hp : Encodes m U p t) (n : ℕ) :
    Option.Rel (Encodes m U) (ftUnifyWalk m B n p) (unifyWalk b n t) := by
  induction n generalizing p t with
  | zero => exact .none
  | succ n ih =>
    cases t with
    | node f args =>
      obtain ⟨c, -, hc, hvar, -⟩ := hp.ctr
      rw [ftUnifyWalk, hc, Option.bind_eq_bind, Option.bind_some, if_neg (by simp [hvar])]
      exact .some hp
    | leaf l =>
      cases l with
      | num d v => exact absurd (by simp) (hp.plain.numberFree d v)
      | fvr id =>
        obtain ⟨c, hc, hvar, hsym, hid⟩ := hp.fvr
        rw [ftUnifyWalk, hc, Option.bind_eq_bind, Option.bind_some, if_pos hvar, hsym,
          if_neg (Nat.not_le.mpr (show id < atpftMaxVars from hid))]
        change Option.Rel _ _ (unifyWalk b (n + 1) (.fvr id))
        rw [unifyWalk, if_neg (Nat.not_le.mpr hid)]
        cases hb : b id with
        | none =>
          rw [hcorr.free hb]
          exact .some hp
        | some t =>
          obtain ⟨r, hr, ht⟩ := hcorr.bound hb
          rw [hr]
          exact ih ht

/-- A walk ends in front of a variable only when it is not bound. -/
theorem unifyWalk_end (hwalk : unifyWalk b n t = some (.fvr id)) (hid : id < rewriteMaxVar) :
    b id = none := by
  induction n generalizing t with
  | zero => cases hwalk
  | succ n ih =>
    cases t with
    | node f args => cases hwalk
    | leaf l =>
      cases l with
      | num d v => cases hwalk
      | fvr x =>
        change unifyWalk b (n + 1) (.fvr x) = some (.fvr id) at hwalk
        rw [unifyWalk] at hwalk
        by_cases hx : rewriteMaxVar ≤ x
        · rw [if_pos hx] at hwalk
          cases hwalk
          exact absurd hid (Nat.not_lt.mpr hx)
        · rw [if_neg hx] at hwalk
          cases hb : b x with
          | none =>
            rw [hb] at hwalk
            cases hwalk
            exact hb
          | some t =>
            rw [hb] at hwalk
            exact ih hwalk

theorem walked_free (hwalk : unifyWalk b n t = some u) (hx : Encodes m U x u) :
    ∀ i, u = .fvr i → b i = none := by
  rintro i rfl
  exact unifyWalk_end hwalk hx.plain.fvr_lt

theorem anyKid_eq {g : Addr → Option Bool} {P : FTerm → Option Bool} (h : Encodings m U o ts rest)
    (hg : ∀ t ∈ ts, ∀ q, Encodes m U q t → g q = P t) : anyKid m g ts.length o = anyArg P ts := by
  induction ts generalizing o with
  | nil => rfl
  | cons t ts ih =>
    obtain ⟨q, o', rfl, hq, hbehind, hrest⟩ := h.skip
    have htail := ih hrest fun u hu => hg u (List.mem_cons_of_mem t hu)
    rw [List.length_cons, anyKid, anyArg, Option.bind_eq_bind, Option.bind_some,
      hg t List.mem_cons_self q hq, hbehind]
    simp only [Option.bind_eq_bind, Option.bind_some, htail]

/-- The occurs checks answer alike. -/
theorem ftUnifyOccurs_eq (hcorr : Corresponds m U B b) (hp : Encodes m U p t) (n : ℕ) :
    ftUnifyOccurs m B id n p = unifyOccurs b id n t := by
  induction n generalizing p t with
  | zero => rfl
  | succ n ih =>
    have hrel := ftUnifyWalk_rel hcorr hp n
    rw [ftUnifyOccurs, unifyOccurs]
    cases hu : unifyWalk b n t with
    | none =>
      rw [rel_none hrel hu]
      rfl
    | some u =>
      obtain ⟨x, hwalk, hx⟩ := rel_right hrel hu
      simp only [hwalk, Option.bind_eq_bind, Option.bind_some]
      cases u with
      | node f args =>
        obtain ⟨c, rest, hc, hvar, -, harity, hargs⟩ := hx.ctr
        rw [hc, Option.bind_some, if_neg (by simp [hvar]), harity]
        exact anyKid_eq hargs fun t _ q hq => ih hq
      | leaf l =>
        cases l with
        | num d v => exact absurd (by simp) (hx.plain.numberFree d v)
        | fvr id' =>
          obtain ⟨c, hc, hvar, hsym, -⟩ := hx.fvr
          rw [hc, Option.bind_some, if_pos hvar, hsym]
          rfl

/-- The results of both unifiers. -/
def Agree (m : FtMemory) (U : Set Addr) (r : Bool × AtpFtSubst) (r' : Bool × UnifyState) : Prop :=
  r.1 = r'.1 ∧ Corresponds m U r.2.bind r'.2.bindings

/-! ## Binding a variable -/

theorem agree_push {i : ℕ} (hcorr : Corresponds m U s.bind st.bindings) (hx : Encodes m U x t)
    (hfree : s.bind i = none) (hid : i < atpftMaxVars) :
    Agree m U (true, s.push i x hfree hid) (true, st.bind i t) := by
  refine ⟨rfl, ?_⟩
  rw [Unification.bindings_bind]
  exact hcorr.update i hx

/-- A variable against a term that is none. -/
theorem ftUnifyTo_rel (hcorr : Corresponds m U s.bind st.bindings) (hx : Encodes m U x t)
    (hid : id < rewriteMaxVar) (hfree : st.bindings id = none) (n : ℕ) :
    Option.Rel (Agree m U) (ftUnifyTo m n id x s) (unifyBind n id t st) := by
  have hfree' := hcorr.free hfree
  rw [ftUnifyTo, dif_pos (show id < atpftMaxVars from hid), unifyBind,
    if_neg (Nat.not_le.mpr hid), ftUnifyOccurs_eq hcorr hx]
  cases unifyOccurs st.bindings id n t with
  | none => exact .none
  | some occurs =>
    cases occurs with
    | true => exact .some ⟨rfl, hcorr⟩
    | false =>
      simp only [Option.bind_eq_bind, Option.bind_some, Bool.false_eq_true, if_false]
      split
      · exact .some (agree_push hcorr hx hfree' hid)
      · rename_i q hq
        rw [hfree'] at hq
        cases hq

theorem unifyBind_lasting (id : ℕ) (t : FTerm) (st : UnifyState) :
    Lasting fun n => unifyBind n id t st := by
  intro n r hr
  simp only [unifyBind] at hr ⊢
  split at hr
  · rwa [if_pos ‹_›]
  · rw [if_neg ‹_›]
    obtain ⟨occurs, hoccurs, hr⟩ := Option.bind_eq_some_iff.mp hr
    exact Option.bind_eq_some_iff.mpr ⟨occurs, unifyOccurs_lasting _ _ _ n occurs hoccurs, hr⟩

/-- The occurs check of two variables answers no. -/
theorem unifyBind_vars {i j : ℕ} (hij : i ≠ j) (hi : i < rewriteMaxVar)
    (hfree : st.bindings j = none) :
    Settles (fun n => unifyBind n i (.fvr j) st) (true, st.bind i (.fvr j)) := by
  have hoccurs : Settles (fun n => unifyOccurs st.bindings i n (.fvr j)) false := by
    refine Unification.unifyOccurs_settles (Unification.unifyWalk_unbound hfree) ?_
    refine (Settles.const (j == i)).cast ?_
    simp [Ne.symm hij]
  refine (hoccurs.bind (g := fun _ occurs =>
    if occurs then some (false, st) else some (true, st.bind i (.fvr j))) (Settles.const _)).congr
    fun n => ?_
  rw [unifyBind, if_neg (Nat.not_le.mpr hi)]

theorem ftUnifyVars_push {i j : ℕ} (hij : i ≠ j) (hi : i < rewriteMaxVar)
    (hfree : s.bind i = none) : ftUnifyVars i j y s = some (true, s.push i y hfree hi) := by
  rw [ftUnifyVars, if_neg hij, dif_pos (show i < atpftMaxVars from hi)]
  split
  · rfl
  · rename_i q hq
    rw [hfree] at hq
    cases hq

/-! ## The cases after the walks -/

theorem ftUnifyAt_vars {i j : ℕ} {g : Addr → Addr → AtpFtSubst → Option (Bool × AtpFtSubst)}
    (hx : Encodes m U x (.fvr i)) (hy : Encodes m U y (.fvr j)) :
    ftUnifyAt m n g x y s = ftUnifyVars i j y s := by
  obtain ⟨c, hc, hvar, hsym, -⟩ := hx.fvr
  obtain ⟨d, hd, hvar', hsym', -⟩ := hy.fvr
  by_cases hxy : x = y
  · subst hxy
    obtain rfl : i = j := by
      have := hx.unique hy
      cases this
      rfl
    rw [ftUnifyAt, if_pos rfl, ftUnifyVars, if_pos rfl]
  · rw [ftUnifyAt, if_neg hxy]
    simp only [Option.bind_eq_bind, Option.bind_some, hc, hd, hvar, hvar', hsym, hsym']

theorem ftUnifyAt_left {f : ℕ} {g : Addr → Addr → AtpFtSubst → Option (Bool × AtpFtSubst)}
    (hx : Encodes m U x (.fvr id)) (hy : Encodes m U y (.ctr f us)) :
    ftUnifyAt m n g x y s = ftUnifyTo m n id y s := by
  obtain ⟨c, hc, hvar, hsym, -⟩ := hx.fvr
  obtain ⟨d, -, hd, hvar', -⟩ := hy.ctr
  have hxy : x ≠ y := by
    rintro rfl
    cases hx.unique hy
  rw [ftUnifyAt, if_neg hxy]
  simp only [Option.bind_eq_bind, Option.bind_some, hc, hd, hvar, hvar', hsym]

theorem ftUnifyAt_right {f : ℕ} {g : Addr → Addr → AtpFtSubst → Option (Bool × AtpFtSubst)}
    (hx : Encodes m U x (.ctr f ts)) (hy : Encodes m U y (.fvr id)) :
    ftUnifyAt m n g x y s = ftUnifyTo m n id x s := by
  obtain ⟨c, -, hc, hvar, -⟩ := hx.ctr
  obtain ⟨d, hd, hvar', hsym, -⟩ := hy.fvr
  have hxy : x ≠ y := by
    rintro rfl
    cases hx.unique hy
  rw [ftUnifyAt, if_neg hxy]
  simp only [Option.bind_eq_bind, Option.bind_some, hc, hd, hvar, hvar', hsym]

/-- Two constructors: their heads, and then their arguments. -/
theorem ftUnifyAt_ctr {f f' : ℕ} (hx : Encodes m U x (.ctr f ts)) (hy : Encodes m U y (.ctr f' us)) :
    ∃ o o' rest rest', Encodings m U o ts rest ∧ Encodings m U o' us rest' ∧
      ∀ n g s, ftUnifyAt m n g x y s =
        if x = y then some (true, s)
        else if f ≠ f' then some (false, s)
        else if ts.length ≠ us.length then some (false, s)
        else ftUnifyKids m g ts.length o o' s := by
  obtain ⟨c, rest, hc, hvar, hsym, harity, hargs⟩ := hx.ctr
  obtain ⟨d, rest', hd, hvar', hsym', harity', hargs'⟩ := hy.ctr
  refine ⟨c.next, d.next, rest, rest', hargs, hargs', fun n g s => ?_⟩
  rw [ftUnifyAt]
  simp only [Option.bind_eq_bind, Option.bind_some, hc, hd, hvar, hvar', hsym, hsym', harity,
    harity']

/-! ## Equal terms -/

/-- The same term against itself binds nothing. -/
def Still (m : FtMemory) (U : Set Addr) (s : AtpFtSubst)
    (g : Addr → Addr → AtpFtSubst → Option (Bool × AtpFtSubst)) (t : FTerm) : Prop :=
  ∀ x y r, Encodes m U x t → Encodes m U y t → g x y s = some r → r = (true, s)

theorem ftUnifyKids_still {g : Addr → Addr → AtpFtSubst → Option (Bool × AtpFtSubst)}
    {r : Bool × AtpFtSubst} (h : Encodings m U o ts rest) (h' : Encodings m U o' ts rest')
    (hg : ∀ t ∈ ts, Still m U s g t) (hrun : ftUnifyKids m g ts.length o o' s = some r) :
    r = (true, s) := by
  induction ts generalizing o o' with
  | nil => exact (Option.some.inj hrun).symm
  | cons t ts ih =>
    obtain ⟨x, o₁, rfl, hx, hbehind, hrest⟩ := h.skip
    obtain ⟨y, o₂, rfl, hy, hbehind', hrest'⟩ := h'.skip
    rw [List.length_cons, ftUnifyKids] at hrun
    simp only [Option.bind_eq_bind, Option.bind_some, hbehind, hbehind'] at hrun
    obtain ⟨⟨ok, s'⟩, hfirst, hrun⟩ := Option.bind_eq_some_iff.mp hrun
    cases hg t List.mem_cons_self x y _ hx hy hfirst
    exact ih hrest hrest' (fun u hu => hg u (List.mem_cons_of_mem t hu)) hrun

theorem ftUnifyAt_still {g : Addr → Addr → AtpFtSubst → Option (Bool × AtpFtSubst)}
    {r : Bool × AtpFtSubst} (hg : ∀ t, Still m U s g t) (hx : Encodes m U x t)
    (hy : Encodes m U y t) (hrun : ftUnifyAt m n g x y s = some r) : r = (true, s) := by
  cases t with
  | leaf l =>
    cases l with
    | num d v => exact absurd (by simp) (hx.plain.numberFree d v)
    | fvr id =>
      rw [ftUnifyAt_vars hx hy, ftUnifyVars, if_pos rfl] at hrun
      exact (Option.some.inj hrun).symm
  | node f ts =>
    obtain ⟨o, o', rest, rest', hts, hts', hat⟩ := ftUnifyAt_ctr hx hy
    rw [hat, if_neg (not_not_intro rfl), if_neg (not_not_intro rfl)] at hrun
    split at hrun
    · exact (Option.some.inj hrun).symm
    · exact ftUnifyKids_still hts hts' (fun t _ => hg t) hrun

theorem ftUnify_still (hcorr : Corresponds m U s.bind b) (n : ℕ) (t : FTerm) :
    Still m U s (ftUnify m n) t := by
  induction n generalizing t with
  | zero => exact fun _ _ _ _ _ h => nomatch h
  | succ n ih =>
    intro x y r hx hy hrun
    rw [ftUnify] at hrun
    obtain ⟨x', hwalk, hrun⟩ := Option.bind_eq_some_iff.mp hrun
    obtain ⟨y', hwalk', hrun⟩ := Option.bind_eq_some_iff.mp hrun
    obtain ⟨u, hu, hx'⟩ := rel_left (ftUnifyWalk_rel hcorr hx n) hwalk
    obtain ⟨u', hu', hy'⟩ := rel_left (ftUnifyWalk_rel hcorr hy n) hwalk'
    obtain rfl := Option.some.inj (hu.symm.trans hu')
    exact ftUnifyAt_still ih hx' hy' hrun

/-- No variable leads around a circle of variables. -/
def WalksEnd (b : ℕ → Option FTerm) : Prop := ∀ id, ∃ n u, unifyWalk b n (.fvr id) = some u

/-- The first arguments, and then the others where these are unified. -/
theorem ftUnifyKids_cons {k : ℕ} {r r' : Bool × AtpFtSubst} (hbehind : behind m x = some o)
    (hbehind' : behind m y = some o') (hfirst : Settles (fun n => ftUnify m n x y s) r)
    (hrest : Settles (fun n => if r.1 then ftUnifyKids m (ftUnify m n) k o o' r.2
      else some (false, r.2)) r') :
    Settles (fun n => ftUnifyKids m (ftUnify m n) (k + 1) (some x) (some y) s) r' := by
  refine (hfirst.bind (g := fun n r => if r.1 then ftUnifyKids m (ftUnify m n) k o o' r.2
    else some (false, r.2)) hrest).congr fun n => ?_
  rw [ftUnifyKids]
  simp only [Option.bind_eq_bind, Option.bind_some, hbehind, hbehind']

theorem ftUnifyKids_same (h : Encodings m U o ts rest) (h' : Encodings m U o' ts rest')
    (hg : ∀ t ∈ ts, ∀ x y, Encodes m U x t → Encodes m U y t →
      Settles (fun n => ftUnify m n x y s) (true, s)) :
    Settles (fun n => ftUnifyKids m (ftUnify m n) ts.length o o' s) (true, s) := by
  induction ts generalizing o o' with
  | nil => exact Settles.const _
  | cons t ts ih =>
    obtain ⟨x, o₁, rfl, hx, hbehind, hrest⟩ := h.skip
    obtain ⟨y, o₂, rfl, hy, hbehind', hrest'⟩ := h'.skip
    exact ftUnifyKids_cons hbehind hbehind' (hg t List.mem_cons_self x y hx hy)
      (ih hrest hrest' fun u hu => hg u (List.mem_cons_of_mem t hu))

theorem ftUnifyAt_ctr_same {f : ℕ} (hx : Encodes m U x (.ctr f ts)) (hy : Encodes m U y (.ctr f ts))
    (hg : ∀ t ∈ ts, ∀ x y, Encodes m U x t → Encodes m U y t →
      Settles (fun n => ftUnify m n x y s) (true, s)) :
    Settles (fun n => ftUnifyAt m n (ftUnify m n) x y s) (true, s) := by
  obtain ⟨o, o', rest, rest', hts, hts', hat⟩ := ftUnifyAt_ctr hx hy
  by_cases hxy : x = y
  · refine (Settles.const (true, s)).congr fun n => ?_
    rw [hat, if_pos hxy]
  · refine (ftUnifyKids_same hts hts' hg).congr fun n => ?_
    rw [hat, if_neg hxy, if_neg (not_not_intro rfl), if_neg (not_not_intro rfl)]

theorem ftUnify_settles {x' y' : Addr} {r : Bool × AtpFtSubst}
    (hx : Settles (fun n => ftUnifyWalk m s.bind n x) x')
    (hy : Settles (fun n => ftUnifyWalk m s.bind n y) y')
    (hat : Settles (fun n => ftUnifyAt m n (ftUnify m n) x' y' s) r) :
    Settles (fun n => ftUnify m n x y s) r :=
  (hx.bind (g := fun n x' => ftUnifyWalk m s.bind n y >>= fun y' =>
    ftUnifyAt m n (ftUnify m n) x' y' s) (hy.bind hat)).succ fun _ => rfl

theorem ftUnifyWalk_self {f : ℕ} (hx : Encodes m U x (.ctr f ts)) :
    Settles (fun n => ftUnifyWalk m B n x) x := by
  obtain ⟨c, -, hc, hvar, -⟩ := hx.ctr
  refine (Settles.const x).succ fun n => ?_
  rw [ftUnifyWalk, hc, Option.bind_eq_bind, Option.bind_some, if_neg (by simp [hvar])]

/-- Where the walks end, the unifier returns on equal terms. -/
theorem ftUnify_same (hcorr : Corresponds m U s.bind b) (hends : WalksEnd b) (ht : Plain t) :
    ∀ x y, Encodes m U x t → Encodes m U y t →
      Settles (fun n => ftUnify m n x y s) (true, s) := by
  refine Plain.induct (motive := fun t => ∀ x y, Encodes m U x t → Encodes m U y t →
    Settles (fun n => ftUnify m n x y s) (true, s)) ?_ ?_ ht
  · intro id hid x y hx hy
    obtain ⟨N, u, hu⟩ := hends id
    obtain ⟨x', hwalk, hx'⟩ := rel_right (ftUnifyWalk_rel hcorr hx N) hu
    obtain ⟨y', hwalk', hy'⟩ := rel_right (ftUnifyWalk_rel hcorr hy N) hu
    refine ftUnify_settles (settles_of_lasting (ftUnifyWalk_lasting _ _ _) hwalk)
      (settles_of_lasting (ftUnifyWalk_lasting _ _ _) hwalk') ?_
    -- bound cells lead to the same cell
    have hsame : u = .fvr id ∨ x' = y' := by
      cases N with
      | zero => cases hu
      | succ N =>
        obtain ⟨c, hc, hvar, hsym, -⟩ := hx.fvr
        obtain ⟨d, hd, hvar', hsym', -⟩ := hy.fvr
        rw [ftUnifyWalk, hc, Option.bind_eq_bind, Option.bind_some, if_pos hvar, hsym,
          if_neg (Nat.not_le.mpr (show id < atpftMaxVars from hid))] at hwalk
        rw [ftUnifyWalk, hd, Option.bind_eq_bind, Option.bind_some, if_pos hvar', hsym',
          if_neg (Nat.not_le.mpr (show id < atpftMaxVars from hid))] at hwalk'
        rw [unifyWalk, if_neg (Nat.not_le.mpr hid)] at hu
        cases hb : b id with
        | none =>
          rw [hb] at hu
          exact .inl (Option.some.inj hu).symm
        | some t =>
          obtain ⟨q, hq, -⟩ := hcorr.bound hb
          rw [hq] at hwalk hwalk'
          exact .inr (Option.some.inj (hwalk.symm.trans hwalk'))
    refine (Settles.const (true, s)).congr fun n => ?_
    rcases hsame with rfl | rfl
    · rw [ftUnifyAt_vars hx' hy', ftUnifyVars, if_pos rfl]
    · rw [ftUnifyAt, if_pos rfl]
  · intro f ts _ ih x y hx hy
    exact ftUnify_settles (ftUnifyWalk_self hx) (ftUnifyWalk_self hy) (ftUnifyAt_ctr_same hx hy ih)

end Thvm.Ft
