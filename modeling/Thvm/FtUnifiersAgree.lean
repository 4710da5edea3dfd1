import Thvm.FtUnificationSpec

/-!
# Both unifiers find the same

What the flat unifier finds, the one of terms finds with corresponding bindings. The other
way round a circle of variables is in the way: it keeps the flat one from returning on equal
terms, which the other one does not enter.
-/

namespace Thvm.Ft

open ThreadedTrees BoundedLoops

variable {m : FtMemory} {U : Set Addr} {p q x y : Addr} {o o' : Option Addr} {t u v : FTerm}
  {ts us : List FTerm} {rest rest' : List Addr} {id n : ℕ} {b : ℕ → Option FTerm}
  {s : AtpFtSubst} {st : UnifyState}

/-! ## More bindings -/

/-- A walk over one more binding ends, where the one behind that binding does. -/
theorem unifyWalk_update {k : ℕ} (hid : b id = none) (hwalk : unifyWalk b n t = some u)
    (hv : (unifyWalk (Function.update b id (some v)) k v).isSome) :
    ∃ n, (unifyWalk (Function.update b id (some v)) n t).isSome := by
  induction n generalizing t with
  | zero => cases hwalk
  | succ n ih =>
    cases t with
    | node f args => exact ⟨1, rfl⟩
    | leaf l =>
      cases l with
      | num d w => exact ⟨1, rfl⟩
      | fvr x =>
        change unifyWalk b (n + 1) (.fvr x) = some u at hwalk
        change ∃ n, (unifyWalk (Function.update b id (some v)) n (.fvr x)).isSome
        rw [unifyWalk] at hwalk
        by_cases hx : rewriteMaxVar ≤ x
        · exact ⟨1, by rw [unifyWalk, if_pos hx]; rfl⟩
        rw [if_neg hx] at hwalk
        by_cases hxid : x = id
        · subst hxid
          refine ⟨k + 1, ?_⟩
          rw [unifyWalk, if_neg hx, Function.update_self]
          exact hv
        · cases hb : b x with
          | none =>
            refine ⟨1, ?_⟩
            rw [unifyWalk, if_neg hx, Function.update_of_ne hxid, hb]
            rfl
          | some t =>
            rw [hb] at hwalk
            obtain ⟨n', hn'⟩ := ih hwalk
            refine ⟨n' + 1, ?_⟩
            rw [unifyWalk, if_neg hx, Function.update_of_ne hxid, hb]
            exact hn'

theorem WalksEnd.update {k : ℕ} (h : WalksEnd b) (hid : b id = none)
    (hv : (unifyWalk (Function.update b id (some v)) k v).isSome) :
    WalksEnd (Function.update b id (some v)) := by
  intro x
  obtain ⟨n, u, hu⟩ := h x
  obtain ⟨n', hn'⟩ := unifyWalk_update hid hu hv
  exact ⟨n', Option.isSome_iff_exists.mp hn'⟩

/-- A variable bound to a constructor leads to it. -/
theorem WalksEnd.bind_ctr {f : ℕ} (h : WalksEnd st.bindings) (hid : st.bindings id = none) :
    WalksEnd (st.bind id (.ctr f ts)).bindings := by
  rw [Unification.bindings_bind]
  exact h.update (k := 1) hid rfl

/-- A variable bound to another free one leads to that one. -/
theorem WalksEnd.bind_fvr {i j : ℕ} (h : WalksEnd st.bindings) (hi : st.bindings i = none)
    (hij : i ≠ j) (hj : st.bindings j = none) (hjmax : j < rewriteMaxVar) :
    WalksEnd (st.bind i (.fvr j)).bindings := by
  rw [Unification.bindings_bind]
  refine h.update (k := 1) hi ?_
  rw [unifyWalk, if_neg (Nat.not_le.mpr hjmax), Function.update_of_ne (Ne.symm hij), hj]
  rfl

/-! ## Both unifiers -/

theorem ftUnifyTo_lasting (hcorr : Corresponds m U s.bind b) (hx : Encodes m U x t) (id : ℕ) :
    Lasting fun n => ftUnifyTo m n id x s := by
  intro n r hr
  change ftUnifyTo m n id x s = some r at hr
  change ftUnifyTo m (n + 1) id x s = some r
  rw [ftUnifyTo] at hr ⊢
  by_cases hid : id < atpftMaxVars
  · rw [dif_pos hid, ftUnifyOccurs_eq hcorr hx] at hr ⊢
    obtain ⟨occurs, hoccurs, hr⟩ := Option.bind_eq_some_iff.mp hr
    exact Option.bind_eq_some_iff.mpr ⟨occurs, unifyOccurs_lasting _ _ _ n occurs hoccurs, hr⟩
  · rwa [dif_neg hid] at hr ⊢

theorem unifyAt_same (g : FTerm → FTerm → UnifyState → Option (Bool × UnifyState)) (t : FTerm) :
    unifyAt n g t t st = some (true, st) := by
  unfold unifyAt
  rw [if_pos (kboEq_iff.mpr rfl)]

theorem kboEq_false (h : t ≠ u) : ¬kboEq t u = true := fun heq => h (kboEq_iff.mp heq)

theorem unifyAt_left {g : FTerm → FTerm → UnifyState → Option (Bool × UnifyState)}
    (h : .fvr id ≠ u) : unifyAt n g (.fvr id) u st = unifyBind n id u st := by
  rw [unifyAt, if_neg (kboEq_false h)]

theorem unifyAt_right {f : ℕ} {g : FTerm → FTerm → UnifyState → Option (Bool × UnifyState)} :
    unifyAt n g (.ctr f ts) (.fvr id) st = unifyBind n id (.ctr f ts) st := by
  have hne : FTerm.ctr f ts ≠ .fvr id := by
    intro h
    cases h
  rw [unifyAt, if_neg (kboEq_false hne)]
  intro id h
  cases h

theorem unifyAt_ctr {f f' : ℕ} {g : FTerm → FTerm → UnifyState → Option (Bool × UnifyState)}
    (h : FTerm.ctr f ts ≠ .ctr f' us) : unifyAt n g (.ctr f ts) (.ctr f' us) st =
      if f ≠ f' then some (false, st)
      else if ts.length ≠ us.length then some (false, st)
      else unifyArgs g ts us st := by
  rw [unifyAt, if_neg (kboEq_false h)]

/-- What the unifier of terms finds on two terms, the flat one finds on their cells. -/
def Follows (m : FtMemory) (U : Set Addr) (n : ℕ) (t u : FTerm) : Prop :=
  ∀ x y s st r, Encodes m U x t → Encodes m U y u → Corresponds m U s.bind st.bindings →
    WalksEnd st.bindings → thvmUnify n t u st = some r →
    ∃ r', Settles (fun n => ftUnify m n x y s) r' ∧ Agree m U r' r ∧ WalksEnd r.2.bindings

theorem ftUnifyKids_follows {r : Bool × UnifyState} (hlen : ts.length = us.length)
    (h : Encodings m U o ts rest) (h' : Encodings m U o' us rest')
    (hg : ∀ t u, Follows m U n t u) (hcorr : Corresponds m U s.bind st.bindings)
    (hends : WalksEnd st.bindings) (hrun : unifyArgs (thvmUnify n) ts us st = some r) :
    ∃ r', Settles (fun n => ftUnifyKids m (ftUnify m n) ts.length o o' s) r' ∧ Agree m U r' r ∧
      WalksEnd r.2.bindings := by
  induction ts generalizing us o o' s st with
  | nil =>
    obtain rfl := List.length_eq_zero_iff.mp hlen.symm
    obtain rfl := Option.some.inj hrun
    exact ⟨(true, s), Settles.const _, ⟨rfl, hcorr⟩, hends⟩
  | cons t ts ih =>
    cases us with
    | nil => cases hlen
    | cons u us =>
      obtain ⟨x, o₁, rfl, hx, hbehind, hrest⟩ := h.skip
      obtain ⟨y, o₂, rfl, hy, hbehind', hrest'⟩ := h'.skip
      rw [unifyArgs] at hrun
      obtain ⟨⟨ok, st₁⟩, hfirst, hrun⟩ := Option.bind_eq_some_iff.mp hrun
      obtain ⟨⟨ok', s₁⟩, hset, ⟨hok, hcorr₁⟩, hends₁⟩ := hg t u x y s st _ hx hy hcorr hends hfirst
      obtain rfl : ok' = ok := hok
      cases ok' with
      | false =>
        obtain rfl := Option.some.inj hrun
        exact ⟨(false, s₁), ftUnifyKids_cons hbehind hbehind' hset (Settles.const _),
          ⟨rfl, hcorr₁⟩, hends₁⟩
      | true =>
        obtain ⟨r', hset', hr'⟩ := ih (Nat.succ.inj hlen) hrest hrest' hcorr₁ hends₁ hrun
        exact ⟨r', ftUnifyKids_cons hbehind hbehind' hset hset', hr'⟩

/-- The binding of a variable to a constructor. -/
theorem ftUnifyTo_follows {f : ℕ} {r : Bool × UnifyState}
    (hcorr : Corresponds m U s.bind st.bindings) (hends : WalksEnd st.bindings)
    (hx : Encodes m U x (.ctr f ts)) (hid : id < rewriteMaxVar) (hfree : st.bindings id = none)
    (hrun : unifyBind n id (.ctr f ts) st = some r) :
    ∃ r', Settles (fun n => ftUnifyTo m n id x s) r' ∧ Agree m U r' r ∧ WalksEnd r.2.bindings := by
  obtain ⟨r', hr', hagree⟩ := rel_right (ftUnifyTo_rel hcorr hx hid hfree n) hrun
  refine ⟨r', settles_of_lasting (ftUnifyTo_lasting hcorr hx id) hr', hagree, ?_⟩
  rw [unifyBind, if_neg (Nat.not_le.mpr hid)] at hrun
  obtain ⟨occurs, -, hrun⟩ := Option.bind_eq_some_iff.mp hrun
  cases occurs with
  | true =>
    obtain rfl := Option.some.inj hrun
    exact hends
  | false =>
    obtain rfl := Option.some.inj hrun
    exact hends.bind_ctr hfree

/-- The cells of the same term. -/
theorem ftUnifyAt_same (hcorr : Corresponds m U s.bind b) (hends : WalksEnd b)
    (hx : Encodes m U x t) (hy : Encodes m U y t) :
    Settles (fun n => ftUnifyAt m n (ftUnify m n) x y s) (true, s) := by
  cases t with
  | leaf l =>
    cases l with
    | num d v => exact absurd (by simp) (hx.plain.numberFree d v)
    | fvr id =>
      refine (Settles.const (true, s)).congr fun n => ?_
      rw [ftUnifyAt_vars hx hy, ftUnifyVars, if_pos rfl]
  | node f ts =>
    refine ftUnifyAt_ctr_same hx hy fun t ht => ftUnify_same hcorr hends ?_
    exact (plain_ctr.mp hx.plain).2.2 t ht

/-- After the walks. -/
theorem ftUnifyAt_follows {r : Bool × UnifyState} (hg : ∀ t u, Follows m U n t u)
    (hcorr : Corresponds m U s.bind st.bindings) (hends : WalksEnd st.bindings)
    (hx : Encodes m U x u) (hy : Encodes m U y v)
    (hu : ∀ i, u = .fvr i → st.bindings i = none) (hv : ∀ i, v = .fvr i → st.bindings i = none)
    (hrun : unifyAt n (thvmUnify n) u v st = some r) :
    ∃ r', Settles (fun n => ftUnifyAt m n (ftUnify m n) x y s) r' ∧ Agree m U r' r ∧
      WalksEnd r.2.bindings := by
  by_cases huv : u = v
  · subst huv
    rw [unifyAt_same] at hrun
    obtain rfl := Option.some.inj hrun
    exact ⟨(true, s), ftUnifyAt_same hcorr hends hx hy, ⟨rfl, hcorr⟩, hends⟩
  rcases u with (i | ⟨d, w⟩) | ⟨f, ts⟩
  · obtain ⟨-, -, -, -, hi⟩ := hx.fvr
    have hfree := hu i rfl
    rw [unifyAt_left huv] at hrun
    rcases v with (j | ⟨d, w⟩) | ⟨f, us⟩
    · -- two variables: the occurs check answers no
      have hij : i ≠ j := fun h => huv (congrArg FTerm.fvr h)
      obtain ⟨-, -, -, -, hj⟩ := hy.fvr
      obtain rfl := (unifyBind_vars hij hi (hv j rfl)).eq_of_lasting
        (unifyBind_lasting i (.fvr j) st) hrun
      refine ⟨(true, s.push i y (hcorr.free hfree) hi), ?_,
        agree_push hcorr hy (hcorr.free hfree) hi, hends.bind_fvr hfree hij (hv j rfl) hj⟩
      refine (Settles.const _).congr fun n => ?_
      rw [ftUnifyAt_vars hx hy, ftUnifyVars_push hij hi]
    · exact absurd (by simp) (hy.plain.numberFree d w)
    · obtain ⟨r', hset, hr'⟩ := ftUnifyTo_follows hcorr hends hy hi hfree hrun
      exact ⟨r', hset.congr fun n => ftUnifyAt_left hx hy, hr'⟩
  · exact absurd (by simp) (hx.plain.numberFree d w)
  · rcases v with (j | ⟨d, w⟩) | ⟨f', us⟩
    · obtain ⟨-, -, -, -, hj⟩ := hy.fvr
      rw [unifyAt_right] at hrun
      obtain ⟨r', hset, hr'⟩ := ftUnifyTo_follows hcorr hends hx hj (hv j rfl) hrun
      exact ⟨r', hset.congr fun n => ftUnifyAt_right hx hy, hr'⟩
    · exact absurd (by simp) (hy.plain.numberFree d w)
    · obtain ⟨o, o', rest, rest', hts, hus, hat⟩ := ftUnifyAt_ctr hx hy
      have hxy : x ≠ y := by
        rintro rfl
        exact huv (hx.unique hy)
      rw [unifyAt_ctr huv] at hrun
      by_cases hhead : f = f' ∧ ts.length = us.length
      · obtain ⟨hf, hlen⟩ := hhead
        rw [if_neg (not_not_intro hf), if_neg (not_not_intro hlen)] at hrun
        obtain ⟨r', hset, hr'⟩ := ftUnifyKids_follows hlen hts hus hg hcorr hends hrun
        refine ⟨r', hset.congr fun n => ?_, hr'⟩
        rw [hat, if_neg hxy, if_neg (not_not_intro hf), if_neg (not_not_intro hlen)]
      · obtain rfl : r = (false, st) := by
          by_cases hf : f = f'
          · rw [if_neg (not_not_intro hf), if_pos fun hlen => hhead ⟨hf, hlen⟩] at hrun
            exact (Option.some.inj hrun).symm
          · rw [if_pos hf] at hrun
            exact (Option.some.inj hrun).symm
        refine ⟨(false, s), (Settles.const _).congr fun n => ?_, ⟨rfl, hcorr⟩, hends⟩
        rw [hat, if_neg hxy]
        by_cases hf : f = f'
        · rw [if_neg (not_not_intro hf), if_pos fun hlen => hhead ⟨hf, hlen⟩]
        · rw [if_pos hf]

/-- Where the walks end, the flat unifier finds what the one of terms finds. -/
theorem ftUnify_follows (n : ℕ) (t u : FTerm) : Follows m U n t u := by
  induction n generalizing t u with
  | zero => exact fun _ _ _ _ _ _ _ _ _ h => nomatch h
  | succ n ih =>
    intro x y s st r hx hy hcorr hends hrun
    obtain ⟨t', ht, hrun⟩ := Option.bind_eq_some_iff.mp hrun
    obtain ⟨u', hu, hrun⟩ := Option.bind_eq_some_iff.mp hrun
    obtain ⟨x', hwalk, hx'⟩ := rel_right (ftUnifyWalk_rel hcorr hx n) ht
    obtain ⟨y', hwalk', hy'⟩ := rel_right (ftUnifyWalk_rel hcorr hy n) hu
    obtain ⟨r', hset, hr'⟩ := ftUnifyAt_follows ih hcorr hends hx' hy'
      (walked_free ht hx') (walked_free hu hy') hrun
    exact ⟨r', ftUnify_settles (settles_of_lasting (ftUnifyWalk_lasting _ _ _) hwalk)
      (settles_of_lasting (ftUnifyWalk_lasting _ _ _) hwalk') hset, hr'⟩

/-- What the flat unifier finds on cells, the one of terms finds on what they encode. -/
def Reflects (m : FtMemory) (U : Set Addr) (n : ℕ) : Prop :=
  ∀ x y t u s st r', Encodes m U x t → Encodes m U y u → Corresponds m U s.bind st.bindings →
    ftUnify m n x y s = some r' → ∃ r, Settles (fun n => thvmUnify n t u st) r ∧ Agree m U r' r

theorem unifyArgs_cons {r r' : Bool × UnifyState} (hfirst : Settles (fun n => thvmUnify n t u st) r)
    (hrest : Settles (fun n => if r.1 then unifyArgs (thvmUnify n) ts us r.2
      else some (false, r.2)) r') :
    Settles (fun n => unifyArgs (thvmUnify n) (t :: ts) (u :: us) st) r' := by
  refine (hfirst.bind (g := fun n r => if r.1 then unifyArgs (thvmUnify n) ts us r.2
    else some (false, r.2)) hrest).congr fun n => ?_
  rw [unifyArgs]

theorem thvmUnify_settles {t' u' : FTerm} {r : Bool × UnifyState}
    (ht : Settles (fun n => unifyWalk st.bindings n t) t')
    (hu : Settles (fun n => unifyWalk st.bindings n u) u')
    (hat : Settles (fun n => unifyAt n (thvmUnify n) t' u' st) r) :
    Settles (fun n => thvmUnify n t u st) r :=
  (ht.bind (g := fun n t' => unifyWalk st.bindings n u >>= fun u' =>
    unifyAt n (thvmUnify n) t' u' st) (hu.bind hat)).succ fun _ => rfl

theorem ftUnifyKids_reflects {r' : Bool × AtpFtSubst} (hlen : ts.length = us.length)
    (h : Encodings m U o ts rest) (h' : Encodings m U o' us rest') (hg : Reflects m U n)
    (hcorr : Corresponds m U s.bind st.bindings)
    (hrun : ftUnifyKids m (ftUnify m n) ts.length o o' s = some r') :
    ∃ r, Settles (fun n => unifyArgs (thvmUnify n) ts us st) r ∧ Agree m U r' r := by
  induction ts generalizing us o o' s st with
  | nil =>
    obtain rfl := List.length_eq_zero_iff.mp hlen.symm
    obtain rfl := Option.some.inj hrun
    exact ⟨(true, st), Settles.const _, rfl, hcorr⟩
  | cons t ts ih =>
    cases us with
    | nil => cases hlen
    | cons u us =>
      obtain ⟨x, o₁, rfl, hx, hbehind, hrest⟩ := h.skip
      obtain ⟨y, o₂, rfl, hy, hbehind', hrest'⟩ := h'.skip
      rw [List.length_cons, ftUnifyKids] at hrun
      simp only [Option.bind_eq_bind, Option.bind_some, hbehind, hbehind'] at hrun
      obtain ⟨⟨ok', s₁⟩, hfirst, hrun⟩ := Option.bind_eq_some_iff.mp hrun
      obtain ⟨⟨ok, st₁⟩, hset, hok, hcorr₁⟩ := hg x y t u s st _ hx hy hcorr hfirst
      obtain rfl : ok' = ok := hok
      cases ok' with
      | false =>
        obtain rfl := Option.some.inj hrun
        exact ⟨(false, st₁), unifyArgs_cons hset (Settles.const _), rfl, hcorr₁⟩
      | true =>
        obtain ⟨r, hset', hr⟩ := ih (Nat.succ.inj hlen) hrest hrest' hcorr₁ hrun
        exact ⟨r, unifyArgs_cons hset hset', hr⟩

/-- The binding of a variable to a constructor. -/
theorem ftUnifyTo_reflects {f : ℕ} {r' : Bool × AtpFtSubst}
    (hcorr : Corresponds m U s.bind st.bindings) (hx : Encodes m U x (.ctr f ts))
    (hid : id < rewriteMaxVar) (hfree : st.bindings id = none)
    (hrun : ftUnifyTo m n id x s = some r') :
    ∃ r, Settles (fun n => unifyBind n id (.ctr f ts) st) r ∧ Agree m U r' r := by
  obtain ⟨r, hr, hagree⟩ := rel_left (ftUnifyTo_rel hcorr hx hid hfree n) hrun
  exact ⟨r, settles_of_lasting (unifyBind_lasting id (.ctr f ts) st) hr, hagree⟩

/-- After the walks. -/
theorem ftUnifyAt_reflects {r' : Bool × AtpFtSubst} (hg : Reflects m U n)
    (hcorr : Corresponds m U s.bind st.bindings) (hx : Encodes m U x u) (hy : Encodes m U y v)
    (hu : ∀ i, u = .fvr i → st.bindings i = none) (hv : ∀ i, v = .fvr i → st.bindings i = none)
    (hrun : ftUnifyAt m n (ftUnify m n) x y s = some r') :
    ∃ r, Settles (fun n => unifyAt n (thvmUnify n) u v st) r ∧ Agree m U r' r := by
  by_cases huv : u = v
  · subst huv
    obtain rfl := ftUnifyAt_still (ftUnify_still hcorr n) hx hy hrun
    exact ⟨(true, st), (Settles.const _).congr fun n => unifyAt_same _ u, rfl, hcorr⟩
  rcases u with (i | ⟨d, w⟩) | ⟨f, ts⟩
  · obtain ⟨-, -, -, -, hi⟩ := hx.fvr
    have hfree := hu i rfl
    rcases v with (j | ⟨d, w⟩) | ⟨f, us⟩
    · have hij : i ≠ j := fun h => huv (congrArg FTerm.fvr h)
      rw [ftUnifyAt_vars hx hy, ftUnifyVars_push hij hi (hcorr.free hfree)] at hrun
      obtain rfl := Option.some.inj hrun
      refine ⟨(true, st.bind i (.fvr j)), ?_, agree_push hcorr hy (hcorr.free hfree) hi⟩
      exact (unifyBind_vars hij hi (hv j rfl)).congr fun n => unifyAt_left huv
    · exact absurd (by simp) (hy.plain.numberFree d w)
    · rw [ftUnifyAt_left hx hy] at hrun
      obtain ⟨r, hset, hr⟩ := ftUnifyTo_reflects hcorr hy hi hfree hrun
      exact ⟨r, hset.congr fun n => unifyAt_left huv, hr⟩
  · exact absurd (by simp) (hx.plain.numberFree d w)
  · rcases v with (j | ⟨d, w⟩) | ⟨f', us⟩
    · obtain ⟨-, -, -, -, hj⟩ := hy.fvr
      rw [ftUnifyAt_right hx hy] at hrun
      obtain ⟨r, hset, hr⟩ := ftUnifyTo_reflects hcorr hx hj (hv j rfl) hrun
      exact ⟨r, hset.congr fun n => unifyAt_right, hr⟩
    · exact absurd (by simp) (hy.plain.numberFree d w)
    · obtain ⟨o, o', rest, rest', hts, hus, hat⟩ := ftUnifyAt_ctr hx hy
      have hxy : x ≠ y := by
        rintro rfl
        exact huv (hx.unique hy)
      rw [hat, if_neg hxy] at hrun
      by_cases hf : f = f'
      · rw [if_neg (not_not_intro hf)] at hrun
        by_cases hlen : ts.length = us.length
        · rw [if_neg (not_not_intro hlen)] at hrun
          obtain ⟨r, hset, hr⟩ := ftUnifyKids_reflects hlen hts hus hg hcorr hrun
          refine ⟨r, hset.congr fun n => ?_, hr⟩
          rw [unifyAt_ctr huv, if_neg (not_not_intro hf), if_neg (not_not_intro hlen)]
        · rw [if_pos hlen] at hrun
          obtain rfl := Option.some.inj hrun
          refine ⟨(false, st), (Settles.const _).congr fun n => ?_, rfl, hcorr⟩
          rw [unifyAt_ctr huv, if_neg (not_not_intro hf), if_pos hlen]
      · rw [if_pos hf] at hrun
        obtain rfl := Option.some.inj hrun
        refine ⟨(false, st), (Settles.const _).congr fun n => ?_, rfl, hcorr⟩
        rw [unifyAt_ctr huv, if_pos hf]

/-- The unifier of terms finds what the flat one finds. -/
theorem ftUnify_reflects (n : ℕ) : Reflects m U n := by
  induction n with
  | zero => exact fun _ _ _ _ _ _ _ _ _ _ h => nomatch h
  | succ n ih =>
    intro x y t u s st r' hx hy hcorr hrun
    rw [ftUnify] at hrun
    obtain ⟨x', hwalk, hrun⟩ := Option.bind_eq_some_iff.mp hrun
    obtain ⟨y', hwalk', hrun⟩ := Option.bind_eq_some_iff.mp hrun
    obtain ⟨t', ht, hx'⟩ := rel_left (ftUnifyWalk_rel hcorr hx n) hwalk
    obtain ⟨u', hu, hy'⟩ := rel_left (ftUnifyWalk_rel hcorr hy n) hwalk'
    obtain ⟨r, hset, hr⟩ := ftUnifyAt_reflects ih hcorr hx' hy' (walked_free ht hx')
      (walked_free hu hy') hrun
    exact ⟨r, thvmUnify_settles (settles_of_lasting (unifyWalk_lasting _ _) ht)
      (settles_of_lasting (unifyWalk_lasting _ _) hu) hset, hr⟩

/-- Both unifiers on the same terms: what the flat one finds the other one finds, and the other
way round unless a variable leads around a circle. -/
structure UnifyAgrees (m : FtMemory) (U : Set Addr) (x y : Addr) (t u : FTerm) (s : AtpFtSubst)
    (st : UnifyState) : Prop where
  reflects : ∀ n r', ftUnify m n x y s = some r' →
    ∃ r, Settles (fun n => thvmUnify n t u st) r ∧ Agree m U r' r
  follows : WalksEnd st.bindings → ∀ n r, thvmUnify n t u st = some r →
    ∃ r', Settles (fun n => ftUnify m n x y s) r' ∧ Agree m U r' r

theorem ftUnify_agrees (hx : Encodes m U x t) (hy : Encodes m U y u)
    (hcorr : Corresponds m U s.bind st.bindings) : UnifyAgrees m U x y t u s st where
  reflects n r' hrun := ftUnify_reflects n x y t u s st r' hx hy hcorr hrun
  follows hends n r hrun := by
    obtain ⟨r', hset, hagree, -⟩ := ftUnify_follows n t u x y s st r hx hy hcorr hends hrun
    exact ⟨r', hset, hagree⟩

end Thvm.Ft
