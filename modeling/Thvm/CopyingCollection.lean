import Mathlib.Data.List.Nodup
import Mathlib.Data.List.Perm.Subperm
import Mathlib.Data.List.Range
import Mathlib.Logic.Function.Basic
import Thvm.IntervalTiling
import Thvm.WorklistWalks

/-!
# Copying collection

Words may point at blocks of cells. A collection copies every block that is reached from its roots
out of one space into another one, and leaves a mark in the first cell of a block that says where
it went. A cell of a copy is grey until its word has been replaced by the word for the new space.
-/

namespace Thvm.CopyingCollection

open IntervalTiling (Tiles tiles_append)

/-- A range of cells. -/
structure Space where
  lo : ℕ
  hi : ℕ

def Space.Has (S : Space) (a : ℕ) : Prop := S.lo ≤ a ∧ a < S.hi

/-- A block of cells and where it was copied to. -/
structure Copy where
  src : ℕ
  size : ℕ
  dst : ℕ

/-- How words point at blocks. The size of a block is read from its cell `pos`. A word that `keeps`
a place points there when it is repointed, at a block of the same size. -/
structure Pointers (W : Type) where
  addr : W → Option ℕ
  size : (ℕ → W) → W → ℕ
  pos : W → ℕ
  repoint : W → ℕ → W
  keeps : W → ℕ → Prop
  mark : ℕ → W
  marked : W → Option ℕ
  limit : ℕ
  marked_mark : ∀ d < limit, marked (mark d) = some d
  marked_repoint : ∀ w d, marked w = none → marked (repoint w d) = none
  addr_repoint : ∀ w d, keeps w d → (addr w).isSome → addr (repoint w d) = some d
  pos_repoint : ∀ w d, keeps w d → (addr w).isSome → pos (repoint w d) = pos w
  size_congr : ∀ m m' w l, addr w = some l → m' (l + pos w) = m (l + pos w) →
    size m' w = size m w
  size_repoint : ∀ m m' w l d, addr w = some l → keeps w d →
    (m' (d + pos w) = m (l + pos w) ∨
      ∃ e, (addr (m (l + pos w))).isSome ∧ m' (d + pos w) = repoint (m (l + pos w)) e) →
    size m' (repoint w d) = size m w

variable {W : Type} (P : Pointers W)

/-- The words in the block that a word points at, when it is in the space. -/
def Pointers.kids (m : ℕ → W) (S : Space) (w : W) : List W :=
  match P.addr w with
  | some l => if S.lo ≤ l ∧ l < S.hi then (List.range' l (P.size m w)).map m else []
  | none => []

/-- Where a word points at, when it is in the space. -/
def Pointers.target (S : Space) (w : W) : Option ℕ :=
  (P.addr w).filter fun l => S.lo ≤ l ∧ l < S.hi

/-- A word that is reached from the roots through the blocks of the space. -/
def Live (m : ℕ → W) (S : Space) (roots : List W) (w : W) : Prop :=
  ∃ r ∈ roots, Worklist.Reach (P.kids m S) r w

/-- The blocks that are reached lie in the space below `top`, and two of them are apart or the
same. Other words point neither into the space nor into the other one. -/
structure Sound (m : ℕ → W) (S T : Space) (top : ℕ) (roots : List W) : Prop where
  unmarked : ∀ w, Live P m S roots w → P.marked w = none
  foreign : ∀ w l, Live P m S roots w → P.addr w = some l → ¬ S.Has l → ¬ T.Has l
  block : ∀ w l, Live P m S roots w → P.addr w = some l → S.Has l →
    P.pos w < P.size m w ∧ l + P.size m w ≤ top
  apart : ∀ w w' l l', Live P m S roots w → Live P m S roots w' → P.addr w = some l →
    P.addr w' = some l' → S.Has l → S.Has l' →
    l = l' ∧ P.size m w = P.size m w' ∨ l + P.size m w ≤ l' ∨ l' + P.size m w' ≤ l

/-- Two spaces of one size that do not meet; the first one is in use below `top`. -/
structure Paired (limit : ℕ) (S T : Space) (top : ℕ) : Prop where
  lo_le : S.lo ≤ top
  top_le : top ≤ S.hi
  ordered : T.lo ≤ T.hi
  room : S.hi - S.lo = T.hi - T.lo
  apart : S.hi ≤ T.lo ∨ T.hi ≤ S.lo
  source : S.hi ≤ limit
  target : T.hi ≤ limit

/-- Where a block went. -/
def destination (cs : List Copy) (l : ℕ) : Option ℕ :=
  (cs.find? fun c => c.src = l).map Copy.dst

/-- The word for the new space: a pointer at a block that was copied points at the copy. -/
def Pointers.image (cs : List Copy) (w : W) : W :=
  ((P.addr w).bind (destination cs)).elim w (P.repoint w)

/-- A word that does not point at a block that is still to be copied. -/
def Covered (S : Space) (cs : List Copy) (w : W) : Prop :=
  ∀ l, P.addr w = some l → S.Has l → l ∈ cs.map Copy.src

/-- A block that is reached. -/
def IsBlock (m : ℕ → W) (S : Space) (roots : List W) (l s : ℕ) : Prop :=
  ∃ w, Live P m S roots w ∧ P.addr w = some l ∧ S.Has l ∧ P.size m w = s

/-- The state of a collection that has made the copies `cs`. -/
structure Collecting (H : ℕ → W) (S T : Space) (roots : List W) (m : ℕ → W) (next : ℕ)
    (cs : List Copy) (grey : List ℕ) : Prop where
  tiles : Tiles Copy.dst Copy.size T.lo cs next
  live : ∀ c ∈ cs, IsBlock P H S roots c.src c.size
  nodup : (cs.map Copy.src).Nodup
  marked : ∀ c ∈ cs, m c.src = P.mark c.dst
  kept : ∀ a, a < T.lo ∨ next ≤ a → a ∉ cs.map Copy.src → m a = H a
  black : ∀ c ∈ cs, ∀ i < c.size, c.dst + i ∉ grey →
    Covered P S cs (H (c.src + i)) ∧ m (c.dst + i) = P.image cs (H (c.src + i))
  unread : ∀ c ∈ cs, ∀ i < c.size, c.dst + i ∈ grey → m (c.dst + i) = H (c.src + i)
  grey_nodup : grey.Nodup
  grey_lt : ∀ a ∈ grey, T.lo ≤ a ∧ a < next

/-- What a collection has made of a memory and its roots: the blocks that were reached, each
copied once, one after the other without a gap. -/
structure Collected (H : ℕ → W) (S T : Space) (roots : List W) (m : ℕ → W) (top : ℕ)
    (roots' : List W) (cs : List Copy) : Prop where
  roots_eq : roots' = roots.map (P.image cs)
  tiles : Tiles Copy.dst Copy.size T.lo cs top
  blocks : ∀ l s, (∃ c ∈ cs, c.src = l ∧ c.size = s) ↔ IsBlock P H S roots l s
  nodup : (cs.map Copy.src).Nodup
  copied : ∀ c ∈ cs, ∀ i < c.size, m (c.dst + i) = P.image cs (H (c.src + i))
  kept : ∀ a, ¬ S.Has a → a < T.lo ∨ top ≤ a → m a = H a

variable {P} {H m m' : ℕ → W} {S T : Space} {roots : List W} {limit top next l a d i : ℕ}
  {w w' : W} {cs ds : List Copy} {c c' : Copy} {grey : List ℕ}

/-! ## Words and their images -/

theorem mem_kids (hl : P.addr w = some l) (hS : S.Has l) :
    w' ∈ P.kids m S w ↔ ∃ i < P.size m w, m (l + i) = w' := by
  simp only [Pointers.kids, hl, if_pos (show S.lo ≤ l ∧ l < S.hi from hS), List.mem_map,
    List.mem_range'_1]
  constructor
  · rintro ⟨a, ⟨hle, hlt⟩, rfl⟩
    exact ⟨a - l, by omega, by rw [Nat.add_sub_cancel' hle]⟩
  · rintro ⟨i, hi, rfl⟩
    exact ⟨l + i, ⟨Nat.le_add_right l i, by omega⟩, rfl⟩

theorem target_eq_some : P.target S w = some l ↔ P.addr w = some l ∧ S.Has l := by
  simp [Pointers.target, Option.filter_eq_some_iff, Space.Has]

/-- A word with kids points at a block of the space. -/
theorem exists_of_mem_kids (h : w' ∈ P.kids m S w) : ∃ l, P.addr w = some l ∧ S.Has l ∧
    ∃ i < P.size m w, m (l + i) = w' := by
  cases hl : P.addr w with
  | none => simp [Pointers.kids, hl] at h
  | some l =>
    by_cases hS : S.lo ≤ l ∧ l < S.hi
    · exact ⟨l, rfl, hS, (mem_kids hl hS).mp h⟩
    · simp [Pointers.kids, hl, if_neg hS] at h

theorem Live.kid (h : Live P m S roots w) (hl : P.addr w = some l) (hS : S.Has l)
    (hi : i < P.size m w) : Live P m S roots (m (l + i)) := by
  obtain ⟨r, hr, hreach⟩ := h
  exact ⟨r, hr, hreach.tail ((mem_kids hl hS).mpr ⟨i, hi, rfl⟩)⟩

/-- What holds of the roots and goes over to the words in a block holds of every live word. -/
theorem Live.induct (Q : W → Prop) (hroots : ∀ r ∈ roots, Q r)
    (hstep : ∀ w l i, Live P m S roots w → Q w → P.addr w = some l → S.Has l → i < P.size m w →
      Q (m (l + i))) (h : Live P m S roots w) : Q w := by
  obtain ⟨r, hr, hreach⟩ := h
  induction hreach with
  | refl => exact hroots r hr
  | @tail b b' hreach hkid ih =>
    obtain ⟨l, hl, hS, i, hi, rfl⟩ := exists_of_mem_kids hkid
    exact hstep b l i ⟨r, hr, hreach⟩ ih hl hS hi

theorem destination_of_mem (hnodup : (cs.map Copy.src).Nodup) (hc : c ∈ cs) :
    destination cs c.src = some c.dst := by
  obtain ⟨c', hc'⟩ := Option.isSome_iff_exists.mp
    (List.find?_isSome.mpr ⟨c, hc, decide_eq_true rfl⟩ : (cs.find? fun c' => c'.src = c.src).isSome)
  have hsrc : c'.src = c.src := by simpa using List.find?_some hc'
  have heq : c' = c := List.inj_on_of_nodup_map hnodup (List.mem_of_find?_eq_some hc') hc hsrc
  rw [destination, hc', heq, Option.map_some]

theorem destination_of_notMem (hl : l ∉ cs.map Copy.src) : destination cs l = none := by
  rw [destination, Option.map_eq_none_iff, List.find?_eq_none]
  intro c hc hsrc
  exact hl (List.mem_map.mpr ⟨c, hc, by simpa using hsrc⟩)

theorem destination_append (hl : l ∈ cs.map Copy.src ∨ l ∉ ds.map Copy.src) :
    destination (cs ++ ds) l = destination cs l := by
  by_cases hmem : l ∈ cs.map Copy.src
  · obtain ⟨c, hc, rfl⟩ := List.mem_map.mp hmem
    have hsome : (cs.find? fun c' => c'.src = c.src).isSome :=
      List.find?_isSome.mpr ⟨c, hc, decide_eq_true rfl⟩
    rw [destination, List.find?_append, Option.or_of_isSome hsome, destination]
  · have hds := hl.resolve_left hmem
    rw [destination_of_notMem hmem, destination_of_notMem]
    rw [List.map_append, List.mem_append]
    exact not_or.mpr ⟨hmem, hds⟩

theorem image_of_none (hw : P.addr w = none) : P.image cs w = w := by
  rw [Pointers.image, hw, Option.bind_none, Option.elim_none]

theorem image_of_notMem (hw : P.addr w = some l) (hl : l ∉ cs.map Copy.src) :
    P.image cs w = w := by
  rw [Pointers.image, hw, Option.bind_some, destination_of_notMem hl, Option.elim_none]

theorem image_of_mem (hnodup : (cs.map Copy.src).Nodup) (hc : c ∈ cs)
    (hw : P.addr w = some c.src) : P.image cs w = P.repoint w c.dst := by
  rw [Pointers.image, hw, Option.bind_some, destination_of_mem hnodup hc, Option.elim_some]

/-- An image is the word itself or the word pointing at another place. -/
theorem image_cases (cs : List Copy) (w : W) :
    P.image cs w = w ∨ ∃ e, (P.addr w).isSome ∧ P.image cs w = P.repoint w e := by
  rw [Pointers.image]
  cases hw : P.addr w with
  | none => exact .inl rfl
  | some l =>
    rw [Option.bind_some]
    cases destination cs l with
    | none => exact .inl rfl
    | some e => exact .inr ⟨e, rfl, rfl⟩

/-- Copies that are made later do not matter for a word that is covered. -/
theorem Covered.image_append (h : Covered P S cs w) (hds : ∀ c ∈ ds, S.Has c.src) :
    P.image (cs ++ ds) w = P.image cs w := by
  cases hw : P.addr w with
  | none => rw [image_of_none hw, image_of_none hw]
  | some l =>
    rw [Pointers.image, Pointers.image, hw, Option.bind_some, Option.bind_some,
      destination_append]
    by_cases hS : S.Has l
    · exact .inl (h l hw hS)
    · refine .inr fun hmem => hS ?_
      obtain ⟨c, hc, rfl⟩ := List.mem_map.mp hmem
      exact hds c hc

theorem Covered.append (h : Covered P S cs w) : Covered P S (cs ++ ds) w := by
  intro l hl hS
  rw [List.map_append]
  exact List.mem_append_left _ (h l hl hS)

/-! ## The blocks -/

section Blocks

variable {s l' s' : ℕ} (hs : Sound P H S T top roots)
include hs

theorem Sound.bounds (h : IsBlock P H S roots l s) : 0 < s ∧ S.lo ≤ l ∧ l + s ≤ top := by
  obtain ⟨w, hw, hl, hS, rfl⟩ := h
  obtain ⟨hpos, hle⟩ := hs.block w l hw hl hS
  exact ⟨Nat.zero_lt_of_lt hpos, hS.1, hle⟩

theorem Sound.blocks_apart (h : IsBlock P H S roots l s) (h' : IsBlock P H S roots l' s') :
    l = l' ∧ s = s' ∨ l + s ≤ l' ∨ l' + s' ≤ l := by
  obtain ⟨w, hw, hl, hS, rfl⟩ := h
  obtain ⟨w', hw', hl', hS', rfl⟩ := h'
  exact hs.apart w w' l l' hw hw' hl hl' hS hS'

theorem Sound.size_unique (h : IsBlock P H S roots l s) (h' : IsBlock P H S roots l s') :
    s = s' := by
  have hpos := hs.bounds h
  have hpos' := hs.bounds h'
  rcases hs.blocks_apart h h' with heq | hle | hle
  · exact heq.2
  · omega
  · omega

/-- The sizes of different blocks add up to no more than is used of the space. -/
theorem Sound.total_le (hlive : ∀ c ∈ cs, IsBlock P H S roots c.src c.size)
    (hnodup : (cs.map Copy.src).Nodup) : (cs.map Copy.size).sum ≤ top - S.lo := by
  have hcells : (cs.flatMap fun c => List.range' c.src c.size).Nodup := by
    refine List.nodup_flatMap.mpr ⟨fun c _ => List.nodup_range', ?_⟩
    refine (List.pairwise_map.mp hnodup).imp_of_mem fun {c c'} hc hc' hne a ha ha' => ?_
    rw [List.mem_range'_1] at ha ha'
    have hapart := hs.blocks_apart (hlive c hc) (hlive c' hc')
    omega
  have hsub : (cs.flatMap fun c => List.range' c.src c.size) ⊆ List.range' S.lo (top - S.lo) := by
    intro a ha
    obtain ⟨c, hc, ha⟩ := List.mem_flatMap.mp ha
    obtain ⟨-, hlo, htop⟩ := hs.bounds (hlive c hc)
    rw [List.mem_range'_1] at ha ⊢
    omega
  have hle := (hcells.subperm hsub).length_le
  simpa [List.length_flatMap] using hle

end Blocks

/-! ## The steps of a collection -/

theorem collecting_start : Collecting P H S T roots H T.lo [] [] where
  tiles := rfl
  live := by simp
  nodup := List.nodup_nil
  marked := by simp
  kept _ _ _ := rfl
  black := by simp
  unread := by simp
  grey_nodup := List.nodup_nil
  grey_lt := by simp

section Steps

variable (h : Collecting P H S T roots m next cs grey) (hs : Sound P H S T top roots)
  (hp : Paired limit S T top)
include h

theorem Collecting.next_le (hs : Sound P H S T top roots) : next ≤ T.lo + (top - S.lo) := by
  have hsum := h.tiles.sum
  have htotal := hs.total_le h.live h.nodup
  omega

theorem Collecting.grey_cell (ha : a ∈ grey) : ∃ c ∈ cs, ∃ i < c.size, a = c.dst + i := by
  obtain ⟨hlo, hhi⟩ := h.grey_lt a ha
  obtain ⟨c, hc, hle, hlt⟩ := h.tiles.exists_mem hlo hhi
  exact ⟨c, hc, a - c.dst, by omega, by omega⟩

theorem Collecting.live_cell (hc : c ∈ cs) (hi : i < c.size) :
    Live P H S roots (H (c.src + i)) := by
  obtain ⟨w, hw, hl, hS, hsize⟩ := h.live c hc
  exact hw.kid hl hS (hsize ▸ hi)

include hs hp

/-- There is room for one more block. -/
theorem Collecting.room {s : ℕ} (hb : IsBlock P H S roots l s) (hl : l ∉ cs.map Copy.src) :
    next + s ≤ T.lo + (top - S.lo) ∧ next + s ≤ T.hi := by
  have hlive : ∀ c ∈ cs ++ [Copy.mk l s next], IsBlock P H S roots c.src c.size := by
    intro c hc
    rcases List.mem_append.mp hc with hc | hc
    · exact h.live c hc
    · obtain rfl := List.mem_singleton.mp hc
      exact hb
  have hnodup : ((cs ++ [Copy.mk l s next]).map Copy.src).Nodup := by
    rw [List.map_append, List.map_singleton]
    exact (List.perm_append_singleton _ _).nodup_iff.mpr (List.nodup_cons.mpr ⟨hl, h.nodup⟩)
  have htotal := hs.total_le hlive hnodup
  simp only [List.map_append, List.sum_append, List.map_singleton, List.sum_singleton] at htotal
  have hpos := (hs.bounds hb).1
  have hsum := h.tiles.sum
  have hroom := hp.room
  have htop := hp.top_le
  have hlo := hp.lo_le
  omega

/-- The cells of a block that is still to be copied are as they were. -/
theorem Collecting.untouched {s : ℕ} (hb : IsBlock P H S roots l s) (hl : l ∉ cs.map Copy.src)
    (hi : i < s) : m (l + i) = H (l + i) := by
  obtain ⟨-, hlo, htop⟩ := hs.bounds hb
  have hnext := h.next_le hs
  have happart := hp.apart
  have hroom := hp.room
  have hhi := hp.top_le
  refine h.kept (l + i) (by omega) fun hmem => ?_
  obtain ⟨c, hc, hsrc⟩ := List.mem_map.mp hmem
  have hapart := hs.blocks_apart (h.live c hc) hb
  have hpos := (hs.bounds (h.live c hc)).1
  have hne : c.src ≠ l := fun heq => hl (List.mem_map.mpr ⟨c, hc, heq⟩)
  omega

/-- A block is copied, and the mark left in its first cell. -/
theorem Collecting.copy {s : ℕ} (hb : IsBlock P H S roots l s) (hl : l ∉ cs.map Copy.src)
    (hcells : ∀ i < s, m' (next + i) = H (l + i)) (hmark : m' l = P.mark next)
    (hrest : ∀ a, a ≠ l → a < next ∨ next + s ≤ a → m' a = m a) :
    Collecting P H S T roots m' (next + s) (cs ++ [Copy.mk l s next])
      (List.range' next s ++ grey) := by
  obtain ⟨hpos, hlo, htop⟩ := hs.bounds hb
  obtain ⟨-, hroom⟩ := h.room hs hp hb hl
  have hapart := hp.apart
  have hhi := hp.top_le
  have hnext := h.tiles.le
  have hfrom : ∀ a, S.lo ≤ a → a < top → a < T.lo ∨ next + s ≤ a := fun a _ _ => by omega
  have hold : ∀ c ∈ cs, c.dst + c.size ≤ next ∧ T.lo ≤ c.dst := fun c hc =>
    ⟨(h.tiles.mem_bounds hc).2.2, (h.tiles.mem_bounds hc).1⟩
  -- the cells of the older copies are neither marked nor written to
  have hkeep : ∀ c ∈ cs, ∀ i < c.size, m' (c.dst + i) = m (c.dst + i) := fun c hc i hi => by
    have hc' := hold c hc
    exact hrest _ (by omega) (by omega)
  have hin : ∀ c ∈ cs, ∀ i < c.size,
      (c.dst + i ∈ List.range' next s ++ grey ↔ c.dst + i ∈ grey) := fun c hc i hi => by
    have hc' := hold c hc
    rw [List.mem_append, List.mem_range'_1]
    exact or_iff_right (by omega)
  refine ⟨?_, ?_, ?_, ?_, ?_, ?_, ?_, ?_, ?_⟩
  · exact tiles_append.mpr ⟨next, h.tiles, rfl, hpos, rfl⟩
  · intro c hc
    rcases List.mem_append.mp hc with hc | hc
    · exact h.live c hc
    · obtain rfl := List.mem_singleton.mp hc
      exact hb
  · rw [List.map_append, List.map_singleton]
    exact (List.perm_append_singleton _ _).nodup_iff.mpr (List.nodup_cons.mpr ⟨hl, h.nodup⟩)
  · intro c hc
    rcases List.mem_append.mp hc with hc | hc
    · have hne : c.src ≠ l := fun heq => hl (List.mem_map.mpr ⟨c, hc, heq⟩)
      obtain ⟨hcpos, hclo, hctop⟩ := hs.bounds (h.live c hc)
      rw [hrest c.src hne ((hfrom c.src hclo (by omega)).imp_left (by omega))]
      exact h.marked c hc
    · obtain rfl := List.mem_singleton.mp hc
      exact hmark
  · intro a ha hmem
    rw [List.map_append, List.map_singleton, List.mem_append, List.mem_singleton] at hmem
    obtain ⟨hcs, hne⟩ := not_or.mp hmem
    rw [hrest a hne (by omega)]
    exact h.kept a (by omega) hcs
  · intro c hc i hi hgrey
    rcases List.mem_append.mp hc with hc | hc
    · obtain ⟨hcov, heq⟩ := h.black c hc i hi (fun hmem => hgrey ((hin c hc i hi).mpr hmem))
      refine ⟨hcov.append, (hkeep c hc i hi).trans (heq.trans (hcov.image_append ?_).symm)⟩
      intro c' hc'
      obtain rfl := List.mem_singleton.mp hc'
      exact ⟨hlo, show l < S.hi by omega⟩
    · obtain rfl := List.mem_singleton.mp hc
      exact absurd (List.mem_append_left _ (List.mem_range'_1.mpr ⟨Nat.le_add_right _ _,
        Nat.add_lt_add_left hi _⟩)) hgrey
  · intro c hc i hi hgrey
    rcases List.mem_append.mp hc with hc | hc
    · exact (hkeep c hc i hi).trans (h.unread c hc i hi ((hin c hc i hi).mp hgrey))
    · obtain rfl := List.mem_singleton.mp hc
      exact hcells i hi
  · refine List.Nodup.append List.nodup_range' h.grey_nodup fun a ha ha' => ?_
    have hlt := (h.grey_lt a ha').2
    rw [List.mem_range'_1] at ha
    omega
  · intro a ha
    rcases List.mem_append.mp ha with ha | ha
    · rw [List.mem_range'_1] at ha
      omega
    · have hlt := h.grey_lt a ha
      omega

omit hp in
/-- The word in a grey cell is replaced by its image. -/
theorem Collecting.scan {as : List ℕ} (hg : grey = a :: as) (hc : c ∈ cs) (hi : i < c.size)
    (ha : a = c.dst + i) (hcov : Covered P S cs (H (c.src + i))) (hp : Paired limit S T top) :
    Collecting P H S T roots (Function.update m a (P.image cs (H (c.src + i)))) next cs as := by
  subst hg
  have hnodup := List.nodup_cons.mp h.grey_nodup
  have hbounds := h.grey_lt a List.mem_cons_self
  have hnext := h.next_le hs
  have happart := hp.apart
  have hroom := hp.room
  have hhi := hp.top_le
  have hlo := hp.lo_le
  -- a cell of a copy that is not the scanned one
  have hother : ∀ c' ∈ cs, ∀ j < c'.size, c'.dst + j = a → c' = c ∧ j = i := by
    intro c' hc' j hj heq
    by_cases hne : c' = c
    · subst hne
      exact ⟨rfl, by omega⟩
    · have hd := h.tiles.disjoint hc' hc hne
      omega
  refine { h with
    marked := ?_, kept := ?_, black := ?_, unread := ?_, grey_nodup := hnodup.2, grey_lt := ?_ }
  · intro c' hc'
    obtain ⟨hpos, hclo, hctop⟩ := hs.bounds (h.live c' hc')
    rw [Function.update_of_ne (by omega)]
    exact h.marked c' hc'
  · intro b hb hmem
    rw [Function.update_of_ne (by omega)]
    exact h.kept b hb hmem
  · intro c' hc' j hj hgrey
    by_cases heq : c'.dst + j = a
    · obtain ⟨rfl, rfl⟩ := hother c' hc' j hj heq
      rw [heq, Function.update_self]
      exact ⟨hcov, rfl⟩
    · rw [Function.update_of_ne heq]
      refine h.black c' hc' j hj fun hmem => ?_
      exact (List.mem_cons.mp hmem).elim heq hgrey
  · intro c' hc' j hj hgrey
    have hne : c'.dst + j ≠ a := fun heq => hnodup.1 (heq ▸ hgrey)
    rw [Function.update_of_ne hne]
    exact h.unread c' hc' j hj (List.mem_cons_of_mem a hgrey)
  · exact fun b hb => h.grey_lt b (List.mem_cons_of_mem a hb)

end Steps

/-! ## What a collection has made -/

/-- When all roots are covered and no cell is grey, every live word is covered. -/
theorem Collecting.covered (h : Collecting P H S T roots m next cs [])
    (hs : Sound P H S T top roots) (hroots : ∀ r ∈ roots, Covered P S cs r)
    (hw : Live P H S roots w) : Covered P S cs w := by
  refine hw.induct (Covered P S cs) hroots fun w l i hw ih hl hS hi => ?_
  obtain ⟨c, hc, rfl⟩ := List.mem_map.mp (ih l hl hS)
  obtain hsize := hs.size_unique ⟨w, hw, hl, hS, rfl⟩ (h.live c hc)
  exact (h.black c hc i (hsize ▸ hi) (by simp)).1

theorem Collecting.collected (h : Collecting P H S T roots m next cs [])
    (hs : Sound P H S T top roots) (hroots : ∀ r ∈ roots, Covered P S cs r) :
    Collected P H S T roots m next (roots.map (P.image cs)) cs where
  roots_eq := rfl
  tiles := h.tiles
  blocks l s := by
    constructor
    · rintro ⟨c, hc, rfl, rfl⟩
      exact h.live c hc
    · intro hb
      obtain ⟨w, hw, hl, hS, -⟩ := id hb
      obtain ⟨c, hc, rfl⟩ := List.mem_map.mp (h.covered hs hroots hw l hl hS)
      exact ⟨c, hc, rfl, hs.size_unique (h.live c hc) hb⟩
  nodup := h.nodup
  copied c hc i hi := (h.black c hc i hi (by simp)).2
  kept a hS ha := h.kept a ha fun hmem => by
    obtain ⟨c, hc, rfl⟩ := List.mem_map.mp hmem
    obtain ⟨w, -, -, hS', -⟩ := h.live c hc
    exact hS hS'

theorem Paired.not_both (hp : Paired limit S T top) (hS : S.Has a) (hT : T.Has a) : False := by
  have hS₁ := hS.1
  have hS₂ := hS.2
  have hT₁ := hT.1
  have hT₂ := hT.2
  have happart := hp.apart
  omega

theorem Paired.swap (hp : Paired limit S T top) (hlo : T.lo ≤ next) (hhi : next ≤ T.hi) :
    Paired limit T S next where
  lo_le := hlo
  top_le := hhi
  ordered := hp.lo_le.trans hp.top_le
  room := hp.room.symm
  apart := hp.apart.symm
  source := hp.target
  target := hp.source

section Collected

variable {roots' : List W} (h : Collected P H S T roots m next roots' cs)
  (hs : Sound P H S T top roots) (hp : Paired limit S T top)
  (hkeeps : ∀ w, ∀ c ∈ cs, Live P H S roots w → P.addr w = some c.src → P.keeps w c.dst)
include h

theorem Collected.copy_of (hw : Live P H S roots w) (hl : P.addr w = some l) (hS : S.Has l) :
    ∃ c ∈ cs, c.src = l ∧ c.size = P.size H w :=
  (h.blocks l _).mpr ⟨w, hw, hl, hS, rfl⟩

/-- A live word that points at no block of the space stays as it is. -/
theorem Collected.image_foreign (hw : ∀ l, P.addr w = some l → ¬ S.Has l) : P.image cs w = w := by
  cases hl : P.addr w with
  | none => exact image_of_none hl
  | some l =>
    refine image_of_notMem hl fun hmem => hw l hl ?_
    obtain ⟨c, hc, rfl⟩ := List.mem_map.mp hmem
    obtain ⟨w', -, -, hS, -⟩ := (h.blocks c.src c.size).mp ⟨c, hc, rfl, rfl⟩
    exact hS

include hs

theorem Collected.next_le : next ≤ T.lo + (top - S.lo) := by
  have hsum := h.tiles.sum
  have htotal := hs.total_le (fun c hc => (h.blocks c.src c.size).mp ⟨c, hc, rfl, rfl⟩) h.nodup
  omega

include hp hkeeps

/-- The copy of a block and the words that point at it. -/
theorem Collected.image_pointer (hw : Live P H S roots w)
    (hl : P.addr w = some l) (hS : S.Has l) :
    ∃ c ∈ cs, c.src = l ∧ P.image cs w = P.repoint w c.dst ∧ T.Has c.dst ∧
      P.addr (P.image cs w) = some c.dst ∧ P.size H w = c.size ∧
      P.size m (P.image cs w) = c.size := by
  obtain ⟨c, hc, rfl, hsize⟩ := h.copy_of hw hl hS
  obtain ⟨hlo, hpos, hhi⟩ := h.tiles.mem_bounds hc
  have hnext := h.next_le hs
  have htop := hp.top_le
  have hroom := hp.room
  have hSlo := hp.lo_le
  have hkeep := hkeeps w c hc hw hl
  have himage := image_of_mem h.nodup hc hl
  have hposlt := (hs.block w c.src hw hl hS).1
  have hcell := h.copied c hc (P.pos w) (hsize ▸ hposlt)
  refine ⟨c, hc, rfl, himage, ⟨hlo, by omega⟩, ?_, hsize.symm, ?_⟩
  · rw [himage]
    exact P.addr_repoint w c.dst hkeep (hl ▸ rfl)
  · rw [himage, hsize]
    refine P.size_repoint H m w c.src c.dst hl hkeep ?_
    rw [hcell]
    exact image_cases cs _

/-- What is live afterwards are the images of what was live. -/
theorem Collected.live_iff :
    Live P m T roots' w' ↔ ∃ w, Live P H S roots w ∧ P.image cs w = w' := by
  constructor
  · intro hw'
    refine hw'.induct (fun w' => ∃ w, Live P H S roots w ∧ P.image cs w = w') ?_ ?_
    · intro r hr
      rw [h.roots_eq] at hr
      obtain ⟨r₀, hr₀, rfl⟩ := List.mem_map.mp hr
      exact ⟨r₀, ⟨r₀, hr₀, .refl⟩, rfl⟩
    · rintro w' l' i - ⟨w, hw, rfl⟩ hl' hT hi
      have hS : ∃ l, P.addr w = some l ∧ S.Has l := by
        by_contra hno
        have hout : ∀ l, P.addr w = some l → ¬ S.Has l := fun l hl hS => hno ⟨l, hl, hS⟩
        rw [h.image_foreign hout] at hl'
        exact hs.foreign w l' hw hl' (hout l' hl') hT
      obtain ⟨l, hl, hS⟩ := hS
      obtain ⟨c, hc, rfl, -, -, haddr, hsize, hsize'⟩ := h.image_pointer hs hp hkeeps hw hl hS
      obtain rfl : c.dst = l' := Option.some.inj (haddr.symm.trans hl')
      rw [hsize'] at hi
      exact ⟨_, hw.kid hl hS (hsize ▸ hi), (h.copied c hc i hi).symm⟩
  · rintro ⟨w, hw, rfl⟩
    refine hw.induct (fun w => Live P m T roots' (P.image cs w)) ?_ ?_
    · intro r hr
      exact ⟨_, h.roots_eq ▸ List.mem_map_of_mem hr, .refl⟩
    · intro w l i hw ih hl hS hi
      obtain ⟨c, hc, rfl, -, hT, haddr, hsize, hsize'⟩ := h.image_pointer hs hp hkeeps hw hl hS
      rw [hsize] at hi
      rw [← h.copied c hc i hi]
      exact ih.kid haddr hT (hsize'.symm ▸ hi)

/-- A live word that points into the new space is the image of one that pointed into the old
one. -/
theorem Collected.pointer_of (hw' : Live P m T roots' w') (hl' : P.addr w' = some d)
    (hT : T.Has d) : ∃ w, ∃ c ∈ cs, Live P H S roots w ∧ P.addr w = some c.src ∧ S.Has c.src ∧
      w' = P.repoint w d ∧ c.dst = d ∧ P.size H w = c.size ∧ P.size m w' = c.size := by
  obtain ⟨w, hw, rfl⟩ := (h.live_iff hs hp hkeeps).mp hw'
  by_cases hS : ∃ l, P.addr w = some l ∧ S.Has l
  · obtain ⟨l, hl, hS⟩ := hS
    obtain ⟨c, hc, rfl, himage, -, haddr, hsize, hsize'⟩ := h.image_pointer hs hp hkeeps hw hl hS
    obtain rfl : c.dst = d := Option.some.inj (haddr.symm.trans hl')
    exact ⟨w, c, hc, hw, hl, hS, himage, rfl, hsize, hsize'⟩
  · have hout : ∀ l, P.addr w = some l → ¬ S.Has l := fun l hl hS' => hS ⟨l, hl, hS'⟩
    rw [h.image_foreign hout] at hl'
    exact absurd hT (hs.foreign w d hw hl' (hout d hl'))

/-- The copies are as sound as what was copied. -/
theorem Collected.sound : Sound P m T S next roots' where
  unmarked w' hw' := by
    obtain ⟨w, hw, rfl⟩ := (h.live_iff hs hp hkeeps).mp hw'
    rcases image_cases cs w with heq | ⟨e, -, heq⟩
    · rw [heq]
      exact hs.unmarked w hw
    · rw [heq]
      exact P.marked_repoint w e (hs.unmarked w hw)
  foreign w' l' hw' hl' hT := by
    obtain ⟨w, hw, rfl⟩ := (h.live_iff hs hp hkeeps).mp hw'
    by_cases hS : ∃ l, P.addr w = some l ∧ S.Has l
    · obtain ⟨l, hl, hS⟩ := hS
      obtain ⟨c, -, -, -, hT', haddr, -⟩ := h.image_pointer hs hp hkeeps hw hl hS
      obtain rfl : c.dst = l' := Option.some.inj (haddr.symm.trans hl')
      exact absurd hT' hT
    · have hout : ∀ l, P.addr w = some l → ¬ S.Has l := fun l hl hS' => hS ⟨l, hl, hS'⟩
      rw [h.image_foreign hout] at hl'
      exact hout l' hl'
  block w' l' hw' hl' hT := by
    obtain ⟨w, c, hc, hw, hl, hS, rfl, rfl, hsize, hsize'⟩ := h.pointer_of hs hp hkeeps hw' hl' hT
    rw [P.pos_repoint w c.dst (hkeeps w c hc hw hl) (hl ▸ rfl), hsize', ← hsize]
    refine ⟨(hs.block w c.src hw hl hS).1, ?_⟩
    rw [hsize]
    exact (h.tiles.mem_bounds hc).2.2
  apart w₁ w₂ l₁ l₂ hw₁ hw₂ hl₁ hl₂ hT₁ hT₂ := by
    obtain ⟨v₁, c₁, hc₁, -, -, -, -, rfl, -, hsize₁⟩ := h.pointer_of hs hp hkeeps hw₁ hl₁ hT₁
    obtain ⟨v₂, c₂, hc₂, -, -, -, -, rfl, -, hsize₂⟩ := h.pointer_of hs hp hkeeps hw₂ hl₂ hT₂
    rw [hsize₁, hsize₂]
    by_cases hne : c₁ = c₂
    · exact .inl ⟨hne ▸ rfl, hne ▸ rfl⟩
    · exact .inr (h.tiles.disjoint hc₁ hc₂ hne)

end Collected

end Thvm.CopyingCollection
