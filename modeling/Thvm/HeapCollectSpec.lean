import Thvm.HeapCollect

/-!
# What a collection of the heap does

A collection copies exactly the nodes that are live, each once and without a gap, and repoints
every term at the copies. It comes to its end, and never leaves the space it copies to.
-/

namespace Thvm.Gc

open CopyingCollection

/-! ## Terms as pointers -/

/-- The word that a term becomes at location 0 is the null word, or an atom. -/
def Bare (t : Term) : Prop := t.tag = .pri ∨ t.tag = .app ∧ t.sub = false ∧ t.ext = 0

/-- Where the cells of a term are. -/
def termAddr (t : Term) : Option ℕ := if t = Term.zero ∨ gcAtom t then none else some t.val

variable {t : Term} {d l : ℕ}

theorem termAddr_eq_some : termAddr t = some l ↔ (t ≠ Term.zero ∧ ¬ gcAtom t) ∧ t.val = l := by
  rw [termAddr, ← not_or]
  split_ifs with h
  · exact ⟨False.elim, fun h' => absurd h h'.1⟩
  · rw [Option.some_inj]
    exact ⟨fun h' => ⟨h, h'⟩, And.right⟩

theorem termAddr_isSome : (termAddr t).isSome ↔ t ≠ Term.zero ∧ ¬ gcAtom t := by
  simp [Option.isSome_iff_exists, termAddr_eq_some]

/-- An accumulator with cells is not at location 0. -/
theorem val_ne_zero (h : (termAddr t).isSome) (htag : t.tag = .pri) : t.val ≠ 0 := by
  have hatom := (termAddr_isSome.mp h).2
  simpa [gcAtom, htag] using hatom

theorem termAddr_repoint (hd : d < 2 ^ 38) (hbare : d = 0 → ¬ Bare t) (hext : t.ext < 2 ^ 18)
    (h : (termAddr t).isSome) : termAddr (termNew t.sub t.tag t.ext d) = some d := by
  have hatom := (termAddr_isSome.mp h).2
  refine termAddr_eq_some.mpr ⟨⟨fun hzero => ?_, fun hatom' => ?_⟩, Nat.mod_eq_of_lt hd⟩
  · obtain ⟨hsub, htag, hext', hval⟩ := Term.mk.inj hzero
    rw [Nat.mod_eq_of_lt hd] at hval
    rw [Nat.mod_eq_of_lt hext] at hext'
    exact hbare hval (.inr ⟨htag, hsub, hext'⟩)
  · by_cases htag : t.tag = .pri
    · have hval : d % 2 ^ 38 = 0 := by simpa [gcAtom, termNew, htag] using hatom'
      exact hbare (Nat.mod_eq_of_lt hd ▸ hval) (.inl htag)
    · refine hatom ?_
      obtain ⟨sub, tag, ext, val⟩ := t
      cases tag
      case pri => exact absurd rfl htag
      all_goals exact hatom'

theorem gcLayout_repoint (hd : d < 2 ^ 38) (hbare : d = 0 → ¬ Bare t) (hext : t.ext < 2 ^ 18)
    (h : (termAddr t).isSome) : gcLayout (termNew t.sub t.tag t.ext d) = gcLayout t := by
  have hval := val_ne_zero h
  obtain ⟨sub, tag, ext, val⟩ := t
  have hext' : ext % 2 ^ 18 = ext := Nat.mod_eq_of_lt hext
  have hd' : d % 2 ^ 38 = d := Nat.mod_eq_of_lt hd
  cases tag
  case pri =>
    have hne : d ≠ 0 := fun h0 => hbare h0 (.inl rfl)
    simp only [gcLayout, termNew, if_neg (hval rfl), hd', if_neg hne]
  all_goals simp only [gcLayout, termNew, hext']

theorem gcNodeSize_congr {cells cells' : ℕ → Term} {t t' : Term}
    (hlayout : gcLayout t' = gcLayout t)
    (htag : (cells' (t'.val + (gcLayout t).pos)).tag = (cells (t.val + (gcLayout t).pos)).tag)
    (hval : (cells (t.val + (gcLayout t).pos)).tag = .num →
      (cells' (t'.val + (gcLayout t).pos)).val = (cells (t.val + (gcLayout t).pos)).val) :
    gcNodeSize cells' t' = gcNodeSize cells t := by
  simp only [gcNodeSize, hlayout, htag]
  split_ifs with heach hnum
  · rfl
  · rfl
  · rw [hval (not_not.mp hnum)]

/-- Terms as words that point at nodes. -/
def termPointers : Pointers Term where
  addr := termAddr
  size := gcNodeSize
  pos t := (gcLayout t).pos
  repoint t d := termNew t.sub t.tag t.ext d
  keeps t d := t.ext < 2 ^ 18 ∧ d < 2 ^ 38 ∧ (d = 0 → ¬ Bare t)
  mark d := termNew false .gcFwd 0 d
  marked t := if t.tag = .gcFwd then some t.val else none
  limit := 2 ^ 38
  marked_mark d hd := by simp only [termNew, if_true, Nat.mod_eq_of_lt hd]
  marked_repoint t d h := by
    by_cases htag : t.tag = .gcFwd
    · rw [if_pos htag] at h
      cases h
    · exact if_neg htag
  addr_repoint t d hk h := termAddr_repoint hk.2.1 hk.2.2 hk.1 h
  pos_repoint t d hk h := congrArg _ (gcLayout_repoint hk.2.1 hk.2.2 hk.1 h)
  size_congr m m' t l hl h := by
    obtain ⟨-, rfl⟩ := termAddr_eq_some.mp hl
    exact gcNodeSize_congr rfl (congrArg Term.tag h) fun _ => congrArg Term.val h
  size_repoint m m' t l d hl hk h := by
    have hval : (termNew t.sub t.tag t.ext d).val = d := Nat.mod_eq_of_lt hk.2.1
    have hsome : (termAddr t).isSome := hl ▸ rfl
    obtain ⟨-, rfl⟩ := termAddr_eq_some.mp hl
    refine gcNodeSize_congr (gcLayout_repoint hk.2.1 hk.2.2 hk.1 hsome) ?_ ?_
    · rw [hval]
      rcases h with h | ⟨e, -, h⟩
      · rw [h]
      · rw [h]
        rfl
    · intro hnum
      rw [hval]
      rcases h with h | ⟨e, hsome', -⟩
      · rw [h]
      · -- a number is an atom
        refine absurd ?_ (termAddr_isSome.mp hsome').2
        rw [gcAtom, hnum]

/-! ## Evacuation -/

theorem copyCells_apply {src dst size : ℕ} {cells : ℕ → Term} {a : ℕ}
    (happart : src + size ≤ dst ∨ dst + size ≤ src) :
    copyCells src dst size cells a =
      if dst ≤ a ∧ a < dst + size then cells (src + (a - dst)) else cells a := by
  induction size generalizing a with
  | zero => rw [copyCells, if_neg (by omega)]
  | succ size ih =>
    have happart' : src + size ≤ dst ∨ dst + size ≤ src := by omega
    rw [copyCells]
    by_cases ha : a = dst + size
    · subst ha
      rw [Function.update_self, ih happart', if_neg (by omega), if_pos (by omega),
        Nat.add_sub_cancel_left]
    · rw [Function.update_of_ne ha, ih happart']
      by_cases hin : dst ≤ a ∧ a < dst + size
      · rw [if_pos hin, if_pos (by omega)]
      · rw [if_neg hin, if_neg (by omega)]

/-- The state of an evacuation, as that of a collection with the terms as pointers. -/
abbrev Evacuating (H : ℕ → Term) (S T : Space) (roots : List Term) (st : Evacuation)
    (cs : List Copy) (grey : List ℕ) : Prop :=
  Collecting termPointers H S T roots st.cells st.alloc cs grey

variable {H : ℕ → Term} {S T : Space} {roots : List Term} {st st' : Evacuation}
  {cs ds : List Copy} {grey : List ℕ} {top n : ℕ}

/-- What evacuating a term does to the state of the evacuation. -/
structure Evacuates (H : ℕ → Term) (S T : Space) (roots : List Term) (cs : List Copy)
    (grey : List ℕ) (t : Term) (ds : List Copy) (st' : Evacuation) : Prop where
  evacuating : Evacuating H S T roots st' (cs ++ ds) grey
  covered : Covered termPointers S (cs ++ ds) t
  first : (cs ++ ds).head?.map Copy.src =
    (cs.head?.map Copy.src).or (termPointers.target S t)

/-- A term that is covered is not copied again. -/
theorem Evacuating.evacuates_self (h : Evacuating H S T roots st cs grey)
    (hcov : Covered termPointers S cs t) : Evacuates H S T roots cs grey t [] st where
  evacuating := (List.append_nil cs).symm ▸ h
  covered := (List.append_nil cs).symm ▸ hcov
  first := by
    rw [List.append_nil]
    cases htarget : termPointers.target S t with
    | none => rw [Option.or_none]
    | some l =>
      obtain ⟨hl, hS⟩ := target_eq_some.mp htarget
      obtain ⟨c, hc, -⟩ := List.mem_map.mp (hcov l hl hS)
      obtain ⟨c', cs', rfl⟩ := List.exists_cons_of_ne_nil (List.ne_nil_of_mem hc)
      rfl

section Spec

variable (hs : Sound termPointers H S T top roots) (hp : Paired (2 ^ 38) S T top)
include hs hp

/-- The loop over the cells of a copy, given what the evacuation of one term does. -/
theorem evacuateCells_spec {evac : Term → Evacuation → Option (Term × Evacuation)} {base : ℕ}
    (hevac : ∀ t st cs grey, Evacuating H S T roots st cs grey → Live termPointers H S roots t →
      base ≤ st.alloc → ∃ ds st', evac t st = some (termPointers.image (cs ++ ds) t, st') ∧
        Evacuates H S T roots cs grey t ds st')
    (as : List ℕ) (h : Evacuating H S T roots st cs (as ++ grey)) (hbase : base ≤ st.alloc) :
    ∃ ds st', evacuateCells evac as st = some st' ∧
      Evacuating H S T roots st' (cs ++ ds) grey := by
  induction as generalizing st cs with
  | nil => exact ⟨[], st, rfl, (List.append_nil cs).symm ▸ h⟩
  | cons a as ih =>
    obtain ⟨c, hc, i, hi, ha⟩ := h.grey_cell List.mem_cons_self
    have hlive := h.live_cell hc hi
    have hcell : st.cells a = H (c.src + i) := by
      rw [ha]
      exact h.unread c hc i hi (ha ▸ List.mem_cons_self)
    obtain ⟨ds, st', hrun, hev⟩ := hevac _ st cs _ h hlive hbase
    have hscan : Evacuating H S T roots ⟨Function.update st'.cells a
        (termPointers.image (cs ++ ds) (H (c.src + i))), st'.alloc⟩ (cs ++ ds) (as ++ grey) :=
      hev.evacuating.scan hs rfl (List.mem_append_left ds hc) hi ha hev.covered hp
    have hbase' : base ≤ st'.alloc := by
      have hsum := h.tiles.sum
      have hsum' := hev.evacuating.tiles.sum
      rw [List.map_append, List.sum_append] at hsum'
      omega
    obtain ⟨ds', st'', hrun', h'⟩ := ih hscan hbase'
    refine ⟨ds ++ ds', st'', ?_, (List.append_assoc cs ds ds') ▸ h'⟩
    rw [evacuateCells, hcell, hrun]
    exact hrun'

/-- The node that a term points at, with the state at the time of its evacuation. -/
theorem gcEvacuateCells_spec {evac : Term → Evacuation → Option (Term × Evacuation)} {size : ℕ}
    (hevac : ∀ t st' cs grey, Evacuating H S T roots st' cs grey → Live termPointers H S roots t →
      st.alloc + size ≤ st'.alloc → ∃ ds st'', evac t st' =
        some (termPointers.image (cs ++ ds) t, st'') ∧
        Evacuates H S T roots cs grey t ds st'')
    (h : Evacuating H S T roots st cs grey) (hb : IsBlock termPointers H S roots l size)
    (hl : l ∉ cs.map Copy.src) :
    ∃ ds st', gcEvacuateCells evac l size st = some (st.alloc, st') ∧
      Evacuating H S T roots st' (cs ++ Copy.mk l size st.alloc :: ds) grey := by
  obtain ⟨hpos, hlo, htop⟩ := hs.bounds hb
  have hroom := (h.room hs hp hb hl).2
  have hnext := h.tiles.le
  have hhi := hp.top_le
  have happart : l + size ≤ st.alloc ∨ st.alloc + size ≤ l := by
    have := hp.apart
    omega
  have hcopy : Evacuating H S T roots ⟨Function.update (copyCells l st.alloc size st.cells) l
      (termNew false .gcFwd 0 st.alloc), st.alloc + size⟩ (cs ++ [Copy.mk l size st.alloc])
      (List.range' st.alloc size ++ grey) := by
    refine h.copy hs hp hb hl (fun i hi => ?_) (Function.update_self ..) fun a ha hout => ?_
    · dsimp only
      rw [Function.update_of_ne (by omega), copyCells_apply happart, if_pos (by omega),
        Nat.add_sub_cancel_left]
      exact h.untouched hs hp hb hl hi
    · dsimp only
      rw [Function.update_of_ne ha, copyCells_apply happart, if_neg (by omega)]
  obtain ⟨ds, st', hrun, h'⟩ := evacuateCells_spec hs hp hevac (List.range' st.alloc size) hcopy
    (le_refl _)
  rw [List.append_assoc, List.singleton_append] at h'
  exact ⟨ds, st', congrArg (Option.map _) hrun, h'⟩

/-- What the evacuation of a live term does. The depth of the recursion is at most the number of
cells that are still to be copied. -/
theorem gcEvacuate_spec (h : Evacuating H S T roots st cs grey)
    (ht : Live termPointers H S roots t) (hn : top - S.lo < n + (st.alloc - T.lo)) :
    ∃ ds st', gcEvacuate S n t st = some (termPointers.image (cs ++ ds) t, st') ∧
      Evacuates H S T roots cs grey t ds st' := by
  induction n generalizing t st cs grey with
  | zero =>
    have hnext := h.next_le hs
    omega
  | succ n ih =>
    have hstay : Covered termPointers S cs t → termPointers.image cs t = t →
        ∃ ds st', some (t, st) = some (termPointers.image (cs ++ ds) t, st') ∧
          Evacuates H S T roots cs grey t ds st' := fun hcov himage =>
      ⟨[], st, by rw [List.append_nil, himage], h.evacuates_self hcov⟩
    have hcs : ∀ c ∈ cs, S.Has c.src := fun c hc => by
      obtain ⟨w, -, -, hS, -⟩ := h.live c hc
      exact hS
    have hout : (∀ l, termPointers.addr t = some l → ¬ S.Has l) →
        ∃ ds st', some (t, st) = some (termPointers.image (cs ++ ds) t, st') ∧
          Evacuates H S T roots cs grey t ds st' := fun hno => by
      refine hstay (fun l hl hS => absurd hS (hno l hl)) ?_
      cases hl : termPointers.addr t with
      | none => exact image_of_none hl
      | some l =>
        refine image_of_notMem hl fun hmem => hno l hl ?_
        obtain ⟨c, hc, rfl⟩ := List.mem_map.mp hmem
        exact hcs c hc
    rw [gcEvacuate]
    by_cases hzero : t = Term.zero
    · rw [if_pos hzero]
      exact hout fun l hl => absurd hzero (termAddr_eq_some.mp hl).1.1
    rw [if_neg hzero]
    by_cases hatom : gcAtom t
    · rw [if_pos hatom]
      exact hout fun l hl => absurd hatom (termAddr_eq_some.mp hl).1.2
    rw [if_neg hatom]
    by_cases hspace : t.val < S.lo ∨ S.hi ≤ t.val
    · rw [if_pos hspace]
      refine hout fun l hl hS => ?_
      obtain ⟨-, rfl⟩ := termAddr_eq_some.mp hl
      have hlt := hS.2
      have hle := hS.1
      omega
    rw [if_neg hspace]
    have hl : termPointers.addr t = some t.val := termAddr_eq_some.mpr ⟨⟨hzero, hatom⟩, rfl⟩
    have hS : S.Has t.val := ⟨by omega, by omega⟩
    have hb : IsBlock termPointers H S roots t.val (gcNodeSize H t) := ⟨t, ht, hl, hS, rfl⟩
    by_cases hmem : t.val ∈ cs.map Copy.src
    · -- the first cell says where the copy is
      obtain ⟨c, hc, hsrc⟩ := List.mem_map.mp hmem
      have hmark := h.marked c hc
      have hdst : c.dst < 2 ^ 38 := by
        have hbounds := h.tiles.mem_bounds hc
        have hnext := h.next_le hs
        have htarget := hp.target
        have hroom := hp.room
        have htop := hp.top_le
        have hlo := hp.lo_le
        omega
      rw [hsrc] at hmark
      have hval : (st.cells t.val).val = c.dst := by
        rw [hmark]
        exact Nat.mod_eq_of_lt hdst
      rw [if_pos (hmark ▸ rfl), hval]
      refine ⟨[], st, ?_, h.evacuates_self fun l' hl' _ => ?_⟩
      · rw [List.append_nil, image_of_mem h.nodup hc (hsrc ▸ hl)]
        rfl
      · obtain rfl : t.val = l' := Option.some.inj (hl.symm.trans hl')
        exact hmem
    · have hpos := (hs.bounds hb).1
      have hsame : ∀ i < gcNodeSize H t, st.cells (t.val + i) = H (t.val + i) := fun i hi =>
        h.untouched hs hp hb hmem hi
      have hfirst : (st.cells t.val).tag ≠ .gcFwd := by
        have hunmarked := hs.unmarked _ (ht.kid hl hS hpos)
        intro hfwd
        rw [← hsame 0 hpos, Nat.add_zero] at hunmarked
        exact Option.some_ne_none _ ((if_pos hfwd).symm.trans hunmarked)
      have hsize : gcNodeSize st.cells t = gcNodeSize H t :=
        termPointers.size_congr H st.cells t t.val hl (hsame _ (hs.block t t.val ht hl hS).1)
      rw [if_neg hfirst, hsize, if_neg (Nat.ne_of_gt hpos)]
      have hlow := h.tiles.le
      obtain ⟨ds, st', hrun, h'⟩ := gcEvacuateCells_spec hs hp
        (fun t' st'' cs' grey' h'' ht' hbase => ih h'' ht' (by omega)) h hb hmem
      have hc : Copy.mk t.val (gcNodeSize H t) st.alloc ∈
          cs ++ Copy.mk t.val (gcNodeSize H t) st.alloc :: ds :=
        List.mem_append_right _ List.mem_cons_self
      refine ⟨_ :: ds, st', ?_, h', fun l' hl' _ => ?_, ?_⟩
      · rw [hrun, Option.map_some, image_of_mem h'.nodup hc hl]
        rfl
      · obtain rfl : t.val = l' := Option.some.inj (hl.symm.trans hl')
        exact List.mem_map.mpr ⟨_, hc, rfl⟩
      · rw [target_eq_some.mpr ⟨hl, hS⟩]
        cases cs with
        | nil => rfl
        | cons c cs => rfl

end Spec

/-! ## The roots and the side tables -/

/-- What evacuating an array of terms, or several ones, does to the state. -/
structure EvacuatesAll (H : ℕ → Term) (S T : Space) (roots : List Term) (cs : List Copy)
    (ts : List Term) (ds : List Copy) (st' : Evacuation) : Prop where
  evacuating : Evacuating H S T roots st' (cs ++ ds) []
  covered : ∀ t ∈ ts, Covered termPointers S (cs ++ ds) t
  first : (cs ++ ds).head?.map Copy.src =
    (cs.head?.map Copy.src).or (ts.findSome? (termPointers.target S))

/-- Later copies do not change what the terms of an array became. -/
theorem EvacuatesAll.map_image {ts : List Term} {fs : List Copy}
    (h : EvacuatesAll H S T roots cs ts ds st) (hpre : cs ++ ds <+: fs)
    (h' : Evacuating H S T roots st' fs []) :
    ts.map (termPointers.image (cs ++ ds)) = ts.map (termPointers.image fs) := by
  obtain ⟨es, rfl⟩ := hpre
  refine List.map_congr_left fun t ht => ((h.covered t ht).image_append fun c hc => ?_).symm
  obtain ⟨w, -, -, hS, -⟩ := h'.live c (List.mem_append_right _ hc)
  exact hS

/-- Two arrays one after the other. -/
theorem EvacuatesAll.append {ts us : List Term} {es : List Copy}
    (h : EvacuatesAll H S T roots cs ts ds st)
    (h' : EvacuatesAll H S T roots (cs ++ ds) us es st') :
    EvacuatesAll H S T roots cs (ts ++ us) (ds ++ es) st' where
  evacuating := (List.append_assoc cs ds es) ▸ h'.evacuating
  covered t ht := by
    rw [← List.append_assoc]
    rcases List.mem_append.mp ht with ht | ht
    · exact (h.covered t ht).append
    · exact h'.covered t ht
  first := by
    rw [← List.append_assoc, h'.first, h.first, List.findSome?_append, Option.or_assoc]

section All

variable (hs : Sound termPointers H S T top roots) (hp : Paired (2 ^ 38) S T top)
  (hn : top - S.lo < n)
include hs hp hn

theorem gcEvacuateAll_spec {ts : List Term} (h : Evacuating H S T roots st cs [])
    (hts : ∀ t ∈ ts, Live termPointers H S roots t) :
    ∃ ds st', gcEvacuateAll S n ts st = some (ts.map (termPointers.image (cs ++ ds)), st') ∧
      EvacuatesAll H S T roots cs ts ds st' := by
  induction ts generalizing st cs with
  | nil =>
    refine ⟨[], st, rfl, (List.append_nil cs).symm ▸ h, by simp, ?_⟩
    rw [List.append_nil, List.findSome?_nil, Option.or_none]
  | cons t ts ih =>
    obtain ⟨ds, st', hrun, hev⟩ := gcEvacuate_spec hs hp h (hts t List.mem_cons_self)
      (Nat.lt_add_right _ hn)
    obtain ⟨es, st'', hrun', hall⟩ := ih hev.evacuating fun t' ht' =>
      hts t' (List.mem_cons_of_mem t ht')
    have hone : EvacuatesAll H S T roots cs [t] ds st' := ⟨hev.evacuating,
      fun t' ht' => List.mem_singleton.mp ht' ▸ hev.covered, by
        rw [hev.first, List.findSome?_cons]
        cases termPointers.target S t <;> rfl⟩
    have himage := List.cons_eq_cons.mp (hone.map_image (List.prefix_append _ es) hall.evacuating)
    refine ⟨ds ++ es, st'', ?_, hone.append hall⟩
    rw [gcEvacuateAll, hrun, Option.bind_eq_bind, Option.bind_some]
    simp only [hrun', Option.bind_eq_bind, Option.bind_some, Option.pure_def, List.map_cons,
      ← List.append_assoc, himage.1]

theorem gcEvacuateKernels_spec {kernels : List (List Term)} (h : Evacuating H S T roots st cs [])
    (hts : ∀ ts ∈ kernels, ∀ t ∈ ts, Live termPointers H S roots t) :
    ∃ ds st', gcEvacuateKernels S n kernels st =
        some (kernels.map (List.map (termPointers.image (cs ++ ds))), st') ∧
      EvacuatesAll H S T roots cs kernels.flatten ds st' := by
  induction kernels generalizing st cs with
  | nil =>
    refine ⟨[], st, rfl, (List.append_nil cs).symm ▸ h, by simp, ?_⟩
    rw [List.append_nil, List.flatten_nil, List.findSome?_nil, Option.or_none]
  | cons ts kernels ih =>
    obtain ⟨ds, st', hrun, hall⟩ := gcEvacuateAll_spec hs hp hn h (hts ts List.mem_cons_self)
    obtain ⟨es, st'', hrun', hall'⟩ := ih hall.evacuating fun us hus =>
      hts us (List.mem_cons_of_mem ts hus)
    have himage := hall.map_image (List.prefix_append _ es) hall'.evacuating
    refine ⟨ds ++ es, st'', ?_, hall.append hall'⟩
    rw [gcEvacuateKernels, hrun, Option.bind_eq_bind, Option.bind_some]
    simp only [hrun', Option.bind_eq_bind, Option.bind_some, Option.pure_def, List.map_cons,
      ← List.append_assoc, himage]

end All

/-- The terms of the side tables, in the order in which they are evacuated. -/
def SideTables.terms (side : SideTables) : List Term :=
  side.pinned ++ (side.handles ++ (side.defs ++ (side.stack ++ side.kernels.flatten)))

def SideTables.map (f : Term → Term) (side : SideTables) : SideTables where
  pinned := side.pinned.map f
  handles := side.handles.map f
  defs := side.defs.map f
  stack := side.stack.map f
  kernels := side.kernels.map (List.map f)

theorem gcEvacuateSideTables_spec (hs : Sound termPointers H S T top roots)
    (hp : Paired (2 ^ 38) S T top) (hn : top - S.lo < n) (side : SideTables)
    (h : Evacuating H S T roots st cs [])
    (hts : ∀ t ∈ side.terms, Live termPointers H S roots t) :
    ∃ ds st', gcEvacuateSideTables S n side st =
        some (side.map (termPointers.image (cs ++ ds)), st') ∧
      EvacuatesAll H S T roots cs side.terms ds st' := by
  simp only [SideTables.terms, List.forall_mem_append] at hts
  obtain ⟨hpinned, hhandles, hdefs, hstack, hkernels⟩ := hts
  obtain ⟨d₁, s₁, h₁, a₁⟩ := gcEvacuateAll_spec hs hp hn h hpinned
  obtain ⟨d₂, s₂, h₂, a₂⟩ := gcEvacuateAll_spec hs hp hn a₁.evacuating hhandles
  obtain ⟨d₃, s₃, h₃, a₃⟩ := gcEvacuateAll_spec hs hp hn a₂.evacuating hdefs
  obtain ⟨d₄, s₄, h₄, a₄⟩ := gcEvacuateAll_spec hs hp hn a₃.evacuating hstack
  obtain ⟨d₅, s₅, h₅, a₅⟩ := gcEvacuateKernels_spec hs hp hn a₄.evacuating fun ts hts t ht =>
    hkernels t (List.mem_flatten.mpr ⟨ts, hts, ht⟩)
  have happ := a₁.append (a₂.append (a₃.append (a₄.append a₅)))
  refine ⟨_, s₅, ?_, happ⟩
  have p₄ := a₄.map_image (List.prefix_append _ d₅) a₅.evacuating
  have p₃ := a₃.map_image ((List.prefix_append _ d₄).trans (List.prefix_append _ d₅)) a₅.evacuating
  have p₂ := a₂.map_image (((List.prefix_append _ d₃).trans (List.prefix_append _ d₄)).trans
    (List.prefix_append _ d₅)) a₅.evacuating
  have p₁ := a₁.map_image ((((List.prefix_append _ d₂).trans (List.prefix_append _ d₃)).trans
    (List.prefix_append _ d₄)).trans (List.prefix_append _ d₅)) a₅.evacuating
  rw [p₁] at h₁
  rw [p₂] at h₂
  rw [p₃] at h₃
  rw [p₄] at h₄
  simp only [gcEvacuateSideTables, h₁, h₂, h₃, h₄, h₅, Option.bind_eq_bind, Option.bind_some,
    Option.pure_def, SideTables.map, ← List.append_assoc]

end Thvm.Gc
