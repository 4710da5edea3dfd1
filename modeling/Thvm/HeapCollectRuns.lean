import Thvm.HeapCollectSpec

/-!
# Collections of a whole heap

What a collection needs of the heap, it leaves behind: heaps stay whole from one collection to the
next one.
-/

namespace Thvm.Gc

open CopyingCollection LamShape
open IntervalTiling (Tiles)

variable {Shape : Type}

/-! ## The shapes -/

/-- The entry of a slot after the collection. -/
def remapEntry (space : Space) (ctx : ℕ) (cells : ℕ → Term) (e : LamShapeKey × Shape) :
    Option (LamShapeKey × Shape) :=
  (gcRemapKey space ctx cells e.1).map fun key => (key, e.2)

variable {S T : Space} {ctx n l d : ℕ} {cells H : ℕ → Term} {table : LamShapeTable Shape}
  {key key' : LamShapeKey} {shape : Shape} {roots : List Term} {cs : List Copy} {t : Term}

theorem gcRemapLamShape_eq : gcRemapLamShape S ctx cells table = ProbeTable.rebuild lamShapeSlots
    ((lamShapeEntries table).filterMap (remapEntry S ctx cells)) := by
  rw [gcRemapLamShape, ProbeTable.rebuild, List.foldl_filterMap]
  generalize lamShapeEntries table = es
  congr 1
  funext table e
  rw [remapEntry]
  cases gcRemapKey S ctx cells e.1 with
  | none => simp only [Option.map_none, Option.elim_none]
  | some key => simp only [Option.map_some, Option.elim_some, lamShapeSetKeyed]

/-- When no two entries get the same key, the table afterwards finds the entries with their new
keys. -/
theorem gcRemapLamShape_spec (h : Probed table)
    (hinj : ∀ key ∈ (lamShapeEntries table).map Prod.fst,
      ∀ key' ∈ (lamShapeEntries table).map Prod.fst, ∀ k, gcRemapKey S ctx cells key = some k →
        gcRemapKey S ctx cells key' = some k → key = key') :
    Probed (gcRemapLamShape S ctx cells table) ∧ ∀ key' shape,
      lamShapeLookupKeyed (gcRemapLamShape S ctx cells table) key' = some shape ↔
        ∃ key, gcRemapKey S ctx cells key = some key' ∧
          lamShapeLookupKeyed table key = some shape := by
  have hkeys :
      (((lamShapeEntries table).filterMap (remapEntry S ctx cells)).map Prod.fst).Nodup := by
    have hmap : ((lamShapeEntries table).filterMap (remapEntry S ctx cells)).map Prod.fst =
        ((lamShapeEntries table).map Prod.fst).filterMap (gcRemapKey S ctx cells) := by
      rw [List.map_filterMap, List.filterMap_map]
      refine List.filterMap_congr fun e _ => ?_
      rw [remapEntry, Option.map_map]
      exact Option.map_id'
    rw [hmap, List.Nodup, List.pairwise_filterMap]
    refine h.nodup_keys.imp_of_mem fun {key key'} hkey hkey' hne k hk k' hk' heq => ?_
    exact hne (hinj key hkey key' hkey' k hk (heq ▸ hk'))
  have hlen : ((lamShapeEntries table).filterMap (remapEntry S ctx cells)).length ≤
      (Finset.range lamShapeCap).card := by
    rw [Finset.card_range]
    exact (List.length_filterMap_le _ _).trans (length_entries_le table)
  obtain ⟨hwhole, hfind, -⟩ := ProbeTable.rebuild_spec (Finset.range lamShapeCap)
    (fun k i hi => mem_lamShapeSlots.mpr (Finset.mem_range.mp hi)) _ hkeys hlen
  rw [← gcRemapLamShape_eq] at hwhole hfind
  refine ⟨hwhole, fun key' shape => (hfind key' shape).trans ?_⟩
  rw [List.mem_filterMap]
  constructor
  · rintro ⟨e, he, hmap⟩
    obtain ⟨k, hk, heq⟩ := Option.map_eq_some_iff.mp hmap
    obtain ⟨rfl, rfl⟩ := Prod.mk.inj heq
    exact ⟨e.1, hk, h.mem_entries.mp he⟩
  · rintro ⟨key, hk, hlookup⟩
    exact ⟨(key, shape), h.mem_entries.mpr hlookup, by rw [remapEntry, hk, Option.map_some]⟩

/-- A key that a collection leaves as it is. -/
def Stays (S : Space) (ctx : ℕ) (key : LamShapeKey) : Prop :=
  key.book = true ∨ key.ctx ≠ ctx % 16 ∨ ¬ S.Has key.loc

theorem gcRemapKey_stays (h : Stays S ctx key) : gcRemapKey S ctx cells key = some key := by
  rw [gcRemapKey]
  split_ifs with hbook hctx hspace hfwd
  · rfl
  · rfl
  · rfl
  all_goals
    rcases h with h | h | h
    · exact absurd h hbook
    · exact absurd h hctx
    · exact absurd ⟨by omega, by omega⟩ h

/-- What becomes of the key of a binder, when the first cells of the copied nodes are marked. -/
theorem gcRemapKey_moves (hS : S.Has l)
    (hmark : ∀ c ∈ cs, cells c.src = termNew false .gcFwd 0 c.dst)
    (hdst : ∀ c ∈ cs, c.dst < 2 ^ 38) (hnodup : (cs.map Copy.src).Nodup)
    (hold : l ∉ cs.map Copy.src → (cells l).tag ≠ .gcFwd) :
    gcRemapKey S ctx cells (lamShapeCtxKey ctx l) =
      (destination cs l).map (lamShapeCtxKey ctx) := by
  have hspace : ¬ (l < S.lo ∨ S.hi ≤ l) := by
    have hlo := hS.1
    have hhi := hS.2
    omega
  rw [gcRemapKey, lamShapeCtxKey, if_neg Bool.false_ne_true, if_neg (not_not_intro rfl),
    if_neg hspace]
  by_cases hl : l ∈ cs.map Copy.src
  · obtain ⟨c, hc, rfl⟩ := List.mem_map.mp hl
    rw [hmark c hc, destination_of_mem hnodup hc]
    exact congrArg _ (congrArg _ (Nat.mod_eq_of_lt (hdst c hc)))
  · rw [if_neg (hold hl), destination_of_notMem hl]
    rfl

theorem stays_or (S : Space) (ctx : ℕ) (key : LamShapeKey) :
    Stays S ctx key ∨ ∃ l, S.Has l ∧ key = lamShapeCtxKey ctx l := by
  obtain ⟨book, c, l⟩ := key
  by_cases hbook : book = true
  · exact .inl (.inl hbook)
  by_cases hc : c = ctx % 16
  · by_cases hS : S.Has l
    · exact .inr ⟨l, hS, by rw [lamShapeCtxKey, hc, Bool.eq_false_of_not_eq_true hbook]⟩
    · exact .inl (.inr (.inr hS))
  · exact .inl (.inr (.inl hc))

theorem not_stays (hS : S.Has l) : ¬ Stays S ctx (lamShapeCtxKey ctx l) := by
  rintro (h | h | h)
  · exact Bool.false_ne_true h
  · exact h rfl
  · exact h hS

theorem lamShapeCtxKey_inj (h : lamShapeCtxKey ctx l = lamShapeCtxKey ctx d) : l = d :=
  congrArg LamShapeKey.loc h

/-- The table after a collection: what was noted for the binders that are copied, and the entries
that stay. -/
structure ShapesMoved (S T : Space) (ctx : ℕ) (cs : List Copy)
    (table table' : LamShapeTable Shape) : Prop where
  probed : Probed table'
  moved : ∀ d s, T.Has d → (lamShapeLookup table' ctx d = some s ↔
    ∃ c ∈ cs, c.dst = d ∧ lamShapeLookup table ctx c.src = some s)
  dropped : ∀ l, S.Has l → lamShapeLookup table' ctx l = none
  stays : ∀ key, Stays S ctx key → Stays T ctx key →
    lamShapeLookupKeyed table' key = lamShapeLookupKeyed table key

section Shapes

variable {top : ℕ} {st : Evacuation} (hp : Paired (2 ^ 38) S T top)
  (hs : Sound termPointers H S T top roots) (hev : Evacuating H S T roots st cs [])
  (hunmarked : ∀ l s, lamShapeLookup table ctx l = some s → S.Has l → (H l).tag ≠ .gcFwd)
  (hclear : ∀ l, T.Has l → lamShapeLookup table ctx l = none)
include hp hs hev

omit hp hs in
theorem Evacuating.src_has {c : Copy} (hc : c ∈ cs) : S.Has c.src := by
  obtain ⟨w, -, -, hS, -⟩ := hev.live c hc
  exact hS

theorem Evacuating.dst_has {c : Copy} (hc : c ∈ cs) : T.Has c.dst ∧ c.dst < 2 ^ 38 := by
  have hnext := hev.next_le hs
  have hbounds := hev.tiles.mem_bounds hc
  have hroom := hp.room
  have htop := hp.top_le
  have hlo := hp.lo_le
  have htarget := hp.target
  exact ⟨⟨hbounds.1, by omega⟩, by omega⟩

include hunmarked

/-- What becomes of the keys of the table. -/
theorem Evacuating.remapKey_iff (hkey : lamShapeLookupKeyed table key = some shape) :
    gcRemapKey S ctx st.cells key = some key' ↔ Stays S ctx key ∧ key' = key ∨
      ∃ c ∈ cs, key = lamShapeCtxKey ctx c.src ∧ key' = lamShapeCtxKey ctx c.dst := by
  rcases stays_or S ctx key with hstays | ⟨l, hS, rfl⟩
  · rw [gcRemapKey_stays hstays, Option.some_inj]
    refine ⟨fun h => .inl ⟨hstays, h.symm⟩, ?_⟩
    rintro (⟨-, rfl⟩ | ⟨c, hc, rfl, -⟩)
    · rfl
    · exact absurd hstays (not_stays (hev.src_has hc))
  have hold : l ∉ cs.map Copy.src → (st.cells l).tag ≠ .gcFwd := fun hl => by
    have hnext := hev.next_le hs
    have happart := hp.apart
    have hroom := hp.room
    have htop := hp.top_le
    have hSlo := hS.1
    have hShi := hS.2
    rw [hev.kept l (by omega) hl]
    exact hunmarked l shape hkey hS
  rw [gcRemapKey_moves hS hev.marked (fun c hc => (hev.dst_has hp hs hc).2) hev.nodup hold]
  constructor
  · intro h
    by_cases hl : l ∈ cs.map Copy.src
    · obtain ⟨c, hc, rfl⟩ := List.mem_map.mp hl
      rw [destination_of_mem hev.nodup hc] at h
      exact .inr ⟨c, hc, rfl, (Option.some.inj h).symm⟩
    · rw [destination_of_notMem hl] at h
      cases h
  · rintro (⟨hstays, -⟩ | ⟨c, hc, hl, rfl⟩)
    · exact absurd hstays (not_stays hS)
    · obtain rfl := lamShapeCtxKey_inj hl
      rw [destination_of_mem hev.nodup hc, Option.map_some]

include hclear

omit hunmarked in
/-- No entry has the key that a binder gets. -/
theorem Evacuating.not_noted {c : Copy} (hc : c ∈ cs) :
    lamShapeLookupKeyed table (lamShapeCtxKey ctx c.dst) ≠ some shape := fun h =>
  Option.some_ne_none shape (h.symm.trans (hclear c.dst (hev.dst_has hp hs hc).1))

theorem Evacuating.remapKey_inj {shape' : Shape} {k : LamShapeKey}
    (hkey : lamShapeLookupKeyed table key = some shape)
    (hkey' : lamShapeLookupKeyed table key' = some shape')
    (hk : gcRemapKey S ctx st.cells key = some k)
    (hk' : gcRemapKey S ctx st.cells key' = some k) : key = key' := by
  rcases (hev.remapKey_iff hp hs hunmarked hkey).mp hk with ⟨-, rfl⟩ | ⟨c, hc, rfl, rfl⟩ <;>
    rcases (hev.remapKey_iff hp hs hunmarked hkey').mp hk' with ⟨-, heq⟩ | ⟨c', hc', rfl, heq⟩
  · exact heq
  · exact absurd (heq ▸ hkey) (hev.not_noted hp hs hclear hc')
  · exact absurd (heq.symm ▸ hkey') (hev.not_noted hp hs hclear hc)
  · rw [hev.tiles.start_inj hc hc' (lamShapeCtxKey_inj heq)]

theorem Evacuating.shapesMoved (hprobed : Probed table) :
    ShapesMoved S T ctx cs table (gcRemapLamShape S ctx st.cells table) := by
  have hmem : ∀ key ∈ (lamShapeEntries table).map Prod.fst,
      ∃ s, lamShapeLookupKeyed table key = some s := by
    intro key hkey
    obtain ⟨⟨_, s⟩, he, rfl⟩ := List.mem_map.mp hkey
    exact ⟨s, hprobed.mem_entries.mp he⟩
  have hinj : ∀ key ∈ (lamShapeEntries table).map Prod.fst,
      ∀ key' ∈ (lamShapeEntries table).map Prod.fst, ∀ k,
        gcRemapKey S ctx st.cells key = some k → gcRemapKey S ctx st.cells key' = some k →
          key = key' := by
    intro key hkey key' hkey' k hk hk'
    obtain ⟨s, hs₁⟩ := hmem key hkey
    obtain ⟨s', hs₂⟩ := hmem key' hkey'
    exact hev.remapKey_inj hp hs hunmarked hclear hs₁ hs₂ hk hk'
  obtain ⟨hprobed', hlookup⟩ := gcRemapLamShape_spec hprobed hinj
  refine ⟨hprobed', fun d s hT => ?_, fun l hS => ?_, fun key hSkey hTkey => ?_⟩
  · rw [lamShapeLookup, hlookup]
    constructor
    · rintro ⟨key, hk, hkey⟩
      rcases (hev.remapKey_iff hp hs hunmarked hkey).mp hk with ⟨-, rfl⟩ | ⟨c, hc, rfl, heq⟩
      · exact absurd hkey fun h => Option.some_ne_none s (h.symm.trans (hclear d hT))
      · exact ⟨c, hc, (lamShapeCtxKey_inj heq).symm, hkey⟩
    · rintro ⟨c, hc, rfl, hkey⟩
      exact ⟨_, (hev.remapKey_iff hp hs hunmarked hkey).mpr (.inr ⟨c, hc, rfl, rfl⟩), hkey⟩
  · refine Option.eq_none_iff_forall_not_mem.mpr fun s hl => ?_
    obtain ⟨key, hk, hkey⟩ := (hlookup _ s).mp hl
    rcases (hev.remapKey_iff hp hs hunmarked hkey).mp hk with ⟨hstays, rfl⟩ | ⟨c, hc, rfl, heq⟩
    · exact not_stays hS hstays
    · obtain rfl := lamShapeCtxKey_inj heq
      exact hp.not_both hS (hev.dst_has hp hs hc).1
  · refine Option.ext fun s => (hlookup key s).trans
      ⟨?_, fun hkey => ⟨key, gcRemapKey_stays hSkey, hkey⟩⟩
    rintro ⟨key', hk, hkey⟩
    rcases (hev.remapKey_iff hp hs hunmarked hkey).mp hk with ⟨-, rfl⟩ | ⟨c, hc, rfl, rfl⟩
    · exact hkey
    · exact absurd hTkey (not_stays (hev.dst_has hp hs hc).1)

end Shapes

/-! ## Whole heaps -/

/-- A term that is reached from the roots or from the side tables. -/
def GcHeap.Live (h : GcHeap Shape) (roots : List Term) (t : Term) : Prop :=
  CopyingCollection.Live termPointers h.cells h.fromSpace (roots ++ h.side.terms) t

/-- The nodes that are live lie in the space in use, apart from each other, and the entries for
binders are of this space. -/
structure GcHeap.Whole (h : GcHeap Shape) (roots : List Term) : Prop where
  spaces : Paired (2 ^ 38) h.fromSpace h.toSpace h.next
  sound : Sound termPointers h.cells h.fromSpace h.toSpace h.next (roots ++ h.side.terms)
  words : ∀ t, h.Live roots t → t.ext < 2 ^ 18
  probed : Probed h.shapes
  unmarked : ∀ l s, lamShapeLookup h.shapes h.ctx l = some s → h.fromSpace.Has l →
    (h.cells l).tag ≠ .gcFwd
  clear : ∀ l, h.toSpace.Has l → lamShapeLookup h.shapes h.ctx l = none

/-- The node that is copied first is not copied to location 0, or no term that points at it is
bare. -/
def GcHeap.FirstKept (h : GcHeap Shape) (roots : List Term) : Prop :=
  h.toSpace.lo = 0 → ∀ l, (roots ++ h.side.terms).findSome? (termPointers.target h.fromSpace) =
    some l → ∀ t, h.Live roots t → termPointers.addr t = some l → ¬ Bare t

/-- What a collection makes of a heap: the copies are all live nodes, the spaces have changed
their places, and the terms of the side tables and the entries for binders have moved along. -/
structure GcHeap.Becomes (h : GcHeap Shape) (roots : List Term) (h' : GcHeap Shape)
    (cs : List Copy) : Prop where
  fromSpace : h'.fromSpace = h.toSpace
  toSpace : h'.toSpace = h.fromSpace
  rest : h'.enabled = h.enabled ∧ h'.count = h.count + 1 ∧ h'.ctx = h.ctx
  side : h'.side = h.side.map (termPointers.image cs)
  collected : Collected termPointers h.cells h.fromSpace h.toSpace (roots ++ h.side.terms)
    h'.cells h'.next (roots.map (termPointers.image cs) ++ h'.side.terms) cs
  shapes : ShapesMoved h.fromSpace h.toSpace h.ctx cs h.shapes h'.shapes

theorem SideTables.terms_map (f : Term → Term) (side : SideTables) :
    (side.map f).terms = side.terms.map f := by
  simp only [SideTables.terms, SideTables.map, List.map_append, List.map_flatten]

variable {h h' : GcHeap Shape}

/-- A word that is not bare, or not at location 0, keeps its place. -/
theorem GcHeap.FirstKept.keeps (hw : h.Whole roots) (hfirst : h.FirstKept roots)
    (htiles : Tiles Copy.dst Copy.size h.toSpace.lo cs n)
    (hhead : cs.head?.map Copy.src =
      (roots ++ h.side.terms).findSome? (termPointers.target h.fromSpace))
    (hdst : ∀ c ∈ cs, c.dst < 2 ^ 38) (t : Term) (c : Copy) (hc : c ∈ cs) (ht : h.Live roots t)
    (hl : termPointers.addr t = some c.src) : termPointers.keeps t c.dst := by
  refine ⟨hw.words t ht, hdst c hc, fun hzero => ?_⟩
  have hlo := (htiles.mem_bounds hc).1
  obtain ⟨c', cs', rfl⟩ := List.exists_cons_of_ne_nil (List.ne_nil_of_mem hc)
  have heq : c' = c := htiles.start_inj List.mem_cons_self hc (by
    rw [htiles.1]
    omega)
  refine hfirst (by omega) c.src ?_ t ht hl
  rw [← hhead, heq]
  rfl

section Becomes

variable (hb : h.Becomes roots h' cs) (hw : h.Whole roots)
  (hkeeps : ∀ t, ∀ c ∈ cs, h.Live roots t → termPointers.addr t = some c.src →
    termPointers.keeps t c.dst)
include hb hw

/-- No more cells are in use after a collection than before. -/
theorem GcHeap.Becomes.next_le : h'.next ≤ h.toSpace.lo + (h.next - h.fromSpace.lo) :=
  hb.collected.next_le hw.sound

theorem GcHeap.Becomes.next_le_hi : h'.next ≤ h.toSpace.hi := by
  have hnext := hb.next_le hw
  have hroom := hw.spaces.room
  have htop := hw.spaces.top_le
  have hordered := hw.spaces.ordered
  omega

include hkeeps

/-- What is live after a collection are the terms that were, at their new places. -/
theorem GcHeap.Becomes.live_iff : h'.Live (roots.map (termPointers.image cs)) t ↔
    ∃ t₀, h.Live roots t₀ ∧ termPointers.image cs t₀ = t := by
  rw [GcHeap.Live, hb.fromSpace]
  exact hb.collected.live_iff hw.sound hw.spaces hkeeps

theorem GcHeap.Becomes.whole : h'.Whole (roots.map (termPointers.image cs)) where
  spaces := by
    rw [hb.fromSpace, hb.toSpace]
    exact hw.spaces.swap hb.collected.tiles.le (hb.next_le_hi hw)
  sound := by
    rw [hb.fromSpace, hb.toSpace]
    exact hb.collected.sound hw.sound hw.spaces hkeeps
  words t ht := by
    obtain ⟨t₀, ht₀, rfl⟩ := (hb.live_iff hw hkeeps).mp ht
    rcases image_cases cs t₀ with heq | ⟨e, -, heq⟩
    · rw [heq]
      exact hw.words t₀ ht₀
    · rw [heq]
      exact Nat.mod_lt _ (Nat.two_pow_pos 18)
  probed := hb.shapes.probed
  unmarked d s hd hT := by
    rw [hb.rest.2.2] at hd
    rw [hb.fromSpace] at hT
    obtain ⟨c, hc, rfl, -⟩ := (hb.shapes.moved d s hT).mp hd
    obtain ⟨w, hlive, hl, hS, hsize⟩ := (hb.collected.blocks c.src c.size).mp ⟨c, hc, rfl, rfl⟩
    have hpos := (hw.sound.bounds ⟨w, hlive, hl, hS, hsize⟩).1
    have hcell := hb.collected.copied c hc 0 hpos
    have hunmarked := hw.sound.unmarked _ (hlive.kid hl hS (hsize ▸ hpos))
    rw [Nat.add_zero] at hcell hunmarked
    rw [hcell]
    intro htag
    have htag₀ : (h.cells c.src).tag = .gcFwd := by
      rcases image_cases cs (h.cells c.src) with heq | ⟨e, -, heq⟩ <;>
        exact (congrArg Term.tag heq).symm.trans htag
    exact Option.some_ne_none _ ((if_pos htag₀).symm.trans hunmarked)
  clear l hS := by
    rw [hb.toSpace] at hS
    rw [hb.rest.2.2]
    exact hb.shapes.dropped l hS

end Becomes

/-- A collection of a whole heap comes to its end. Its depth is at most the number of cells in
use. -/
theorem gcCollect_becomes (hen : h.enabled = true) (hw : h.Whole roots)
    (hn : h.next - h.fromSpace.lo < n) :
    ∃ h' cs, gcCollect n roots h = some (roots.map (termPointers.image cs), h') ∧
      h.Becomes roots h' cs ∧ (h.FirstKept roots → ∀ t, ∀ c ∈ cs, h.Live roots t →
        termPointers.addr t = some c.src → termPointers.keeps t c.dst) := by
  have hlive : ∀ t ∈ roots ++ h.side.terms, h.Live roots t := fun t ht => ⟨t, ht, .refl⟩
  have hstart : Evacuating h.cells h.fromSpace h.toSpace (roots ++ h.side.terms)
      ⟨h.cells, h.toSpace.lo⟩ [] [] := collecting_start
  obtain ⟨ds, st, hrun, hroots⟩ := gcEvacuateAll_spec hw.sound hw.spaces hn hstart fun t ht =>
    hlive t (List.mem_append_left _ ht)
  obtain ⟨es, st', hrun', hside⟩ := gcEvacuateSideTables_spec hw.sound hw.spaces hn h.side
    hroots.evacuating fun t ht => hlive t (List.mem_append_right _ ht)
  have hall := hroots.append hside
  have himage := hroots.map_image (List.prefix_append _ es) hside.evacuating
  have hev := hall.evacuating
  have hhead := hall.first
  rw [List.nil_append] at hrun hrun' himage hev hhead
  rw [himage] at hrun
  have hcollected := hev.collected hw.sound fun r hr => hall.covered r hr
  rw [List.map_append, ← SideTables.terms_map] at hcollected
  have hshapes := hev.shapesMoved hw.spaces hw.sound hw.unmarked hw.clear hw.probed
  have hcollect : gcCollect n roots h = some (roots.map (termPointers.image (ds ++ es)), { h with
      cells := st'.cells
      next := st'.alloc
      fromSpace := h.toSpace
      toSpace := h.fromSpace
      count := h.count + 1
      side := h.side.map (termPointers.image (ds ++ es))
      shapes := gcRemapLamShape h.fromSpace h.ctx st'.cells h.shapes }) := by
    simp only [gcCollect, if_pos hen, hrun, hrun', Option.bind_eq_bind, Option.bind_some,
      Option.pure_def]
  generalize gcRemapLamShape h.fromSpace h.ctx st'.cells h.shapes = shapes at hshapes hcollect
  have hb : h.Becomes roots { h with
      cells := st'.cells
      next := st'.alloc
      fromSpace := h.toSpace
      toSpace := h.fromSpace
      count := h.count + 1
      side := h.side.map (termPointers.image (ds ++ es))
      shapes := shapes } (ds ++ es) :=
    ⟨rfl, rfl, ⟨rfl, rfl, rfl⟩, rfl, hcollected, hshapes⟩
  exact ⟨_, ds ++ es, hcollect, hb, fun hfirst =>
    hfirst.keeps hw hev.tiles hhead fun c hc => (hev.dst_has hw.spaces hw.sound hc).2⟩

/-- The lambda `λx. x` at location 0 of a heap with two spaces of eight cells. -/
def identityHeap (shapes : LamShapeTable (List ℕ)) : GcHeap (List ℕ) where
  cells a := if a = 0 then termNew false .var 0 0 else termNew false .era 0 0
  next := 1
  enabled := true
  fromSpace := ⟨0, 8⟩
  toSpace := ⟨8, 16⟩
  count := 0
  ctx := 0
  side := ⟨[], [], [], [], []⟩
  shapes := shapes

theorem paired_eight : Paired (2 ^ 38) ⟨0, 8⟩ ⟨8, 16⟩ 1 := by constructor <;> decide

section Identity

variable {shapes : LamShapeTable (List ℕ)}

theorem identityHeap_live (ht : (identityHeap shapes).Live [termNew false .lam 0 0] t) :
    t = termNew false .lam 0 0 ∨ t = termNew false .var 0 0 := by
  refine ht.induct (fun t => t = termNew false .lam 0 0 ∨ t = termNew false .var 0 0) ?_ ?_
  · intro r hr
    exact .inl (by simpa [SideTables.terms, identityHeap] using hr)
  · rintro w l i - hw hl - hi
    right
    rcases hw with rfl | rfl
    all_goals
      obtain rfl : 0 = l := Option.some.inj (show some 0 = some l from hl)
      obtain rfl : i = 0 := Nat.lt_one_iff.mp hi
      rfl

theorem identityHeap_node (ht : (identityHeap shapes).Live [termNew false .lam 0 0] t)
    (hl : termPointers.addr t = some l) :
    l = 0 ∧ gcNodeSize (identityHeap shapes).cells t = 1 ∧ (gcLayout t).pos = 0 := by
  rcases identityHeap_live ht with rfl | rfl
  all_goals exact ⟨(Option.some.inj (show some 0 = some l from hl)).symm, rfl, rfl⟩

theorem whole_identityHeap (hprobed : Probed shapes)
    (hclear : ∀ l, l ≠ 0 → lamShapeLookup shapes 0 l = none) :
    (identityHeap shapes).Whole [termNew false .lam 0 0] where
  spaces := paired_eight
  sound := by
    refine ⟨fun t ht => ?_, fun t l ht hl hS => ?_, fun t l ht hl _ => ?_,
      fun t t' l l' ht ht' hl hl' _ _ => ?_⟩
    · rcases identityHeap_live ht with rfl | rfl <;> rfl
    · obtain ⟨rfl, -⟩ := identityHeap_node ht hl
      exact absurd ⟨Nat.le_refl 0, Nat.zero_lt_succ 7⟩ hS
    · obtain ⟨rfl, hsize, hpos⟩ := identityHeap_node ht hl
      exact ⟨hpos.trans_lt (Nat.one_pos.trans_eq hsize.symm),
        (Nat.zero_add _).trans_le hsize.le⟩
    · obtain ⟨rfl, hsize, -⟩ := identityHeap_node ht hl
      obtain ⟨rfl, hsize', -⟩ := identityHeap_node ht' hl'
      exact .inl ⟨rfl, hsize.trans hsize'.symm⟩
  words t ht := by
    rcases identityHeap_live ht with rfl | rfl <;> decide
  probed := hprobed
  unmarked l s _ _ := by
    change (if l = 0 then termNew false .var 0 0 else termNew false .era 0 0).tag ≠ .gcFwd
    split <;> decide
  clear l hT := hclear l fun h => by
    have hlo : 8 ≤ l := hT.1
    omega

end Identity

/-- What is noted for the binder at location 0 is not found at another one. -/
theorem lookup_noted (hl : l ≠ 0) :
    lamShapeLookup (lamShapeSet lamShapeReset 0 0 shape) 0 l = none := by
  have hne : lamShapeCtxKey 0 l ≠ lamShapeCtxKey 0 0 := fun h => hl (lamShapeCtxKey_inj h)
  rw [lamShapeLookup, lamShapeSet, probed_reset.lookup_setKeyed (Nat.two_pow_pos 12) rfl,
    if_neg hne, lookupKeyed_reset]

end Thvm.Gc
