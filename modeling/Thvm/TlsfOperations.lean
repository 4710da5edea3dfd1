import Thvm.TlsfMerge

/-!
# Allocation and freeing

The search through the bins returns a block that fits whenever there is one in the
classes it looks at. Allocation takes such a block, after cutting off what is left
over, and freeing gives a block back and merges it with its neighbours.
-/

namespace Thvm.Tlsf
open LinkedLists IntervalTiling FixedWidth

variable {a a' : TlsfAllocator} {order : List ℕ} {chains : ℕ → ℕ → List ℕ} {bid : ℕ}

theorem firstFit_some (h : Binned a chains) {size : ℕ} (hfit : firstFit a size = some bid) :
    a.isFree bid = true ∧ ClassLe size (a.size bid) := by
  obtain ⟨l1, hl1, hsearch⟩ := List.exists_of_findSome?_eq_some hfit
  have hcount : a.lv1Count l1 ≠ 0 := by
    intro hzero
    rw [if_pos hzero] at hsearch
    cases hsearch
  rw [if_neg hcount] at hsearch
  obtain ⟨l2, hl2, hbin⟩ := List.exists_of_findSome?_eq_some hsearch
  have hmem : bid ∈ chains l1 l2 := by
    have hhead := (h.path l1 l2).head_eq
    rw [hbin] at hhead
    exact List.mem_of_mem_head? hhead.symm
  obtain ⟨hfree, h1, h2⟩ := (h.mem l1 l2 bid).mp hmem
  rw [List.mem_range'_1] at hl1 hl2
  refine ⟨hfree, ?_⟩
  rcases hl1.1.lt_or_eq with hlt | heq
  · exact .inl (h1.symm ▸ hlt)
  · rw [if_pos heq.symm] at hl2
    exact .inr ⟨heq.trans h1.symm, h2.symm ▸ hl2.1⟩

theorem firstFit_none (h : Binned a chains) {size i : ℕ} (hfit : firstFit a size = none)
    (hi : a.isFree i = true) : ¬ ClassLe size (a.size i) := by
  intro hclass
  have hmem : i ∈ chains (tlsfLv1 (a.size i)) (tlsfLv2 (a.size i)) := (h.mem _ _ _).mpr ⟨hi, rfl, rfl⟩
  have hle : tlsfLv1 size ≤ tlsfLv1 (a.size i) := by
    rcases hclass with hlt | ⟨heq, -⟩
    · exact hlt.le
    · exact heq.le
  have hbound := h.bound i hi
  have hsearch := List.findSome?_eq_none_iff.mp hfit (tlsfLv1 (a.size i))
    (List.mem_range'_1.mpr ⟨hle, by omega⟩)
  rw [if_neg (h.count_pos hmem (lv2_lt _)).ne'] at hsearch
  have hlow : (if tlsfLv1 (a.size i) = tlsfLv1 size then tlsfLv2 size else 0) ≤
      tlsfLv2 (a.size i) := by
    rcases hclass with hlt | ⟨-, hle2⟩
    · rw [if_neg hlt.ne']
      exact Nat.zero_le _
    · split
      · exact hle2
      · exact Nat.zero_le _
  have hbin := List.findSome?_eq_none_iff.mp hsearch (tlsfLv2 (a.size i))
    (List.mem_range'_1.mpr ⟨hlow, by have := lv2_lt (a.size i); omega⟩)
  have hhead := (h.path (tlsfLv1 (a.size i)) (tlsfLv2 (a.size i))).head_eq
  rw [hbin] at hhead
  rw [List.head?_eq_none_iff.mp hhead.symm] at hmem
  cases hmem

/-- A search for a rounded request finds a block that is large enough, or there is none. -/
theorem firstFit_spec (h : Binned a chains) {reqSize : ℕ} (hfits : Fits reqSize) :
    (∃ bid, firstFit a (rounded reqSize) = some bid ∧ a.isFree bid = true ∧
      atLeastBlock reqSize ≤ a.size bid) ∨
    firstFit a (rounded reqSize) = none ∧ ∀ i, a.isFree i = true → a.size i < rounded reqSize := by
  obtain ⟨hle, hdvd⟩ := rounded_spec hfits
  have hpos := (atLeastBlock_spec reqSize).2.1
  cases hfit : firstFit a (rounded reqSize) with
  | some bid =>
    obtain ⟨hfree, hclass⟩ := firstFit_some h hfit
    exact .inl ⟨bid, rfl, hfree, hle.trans (le_of_classLe (hpos.trans_le hle) hdvd hclass)⟩
  | none =>
    refine .inr ⟨rfl, fun i hi => ?_⟩
    by_contra hge
    exact firstFit_none h hfit hi (classLe_of_le (not_lt.mp hge))

theorem findByStart_spec (hs : Sound a order) (hmem : bid ∈ order) :
    tlsfFindByStart a (a.start bid) = some bid := by
  have hbid := (hs.layout.mem bid).mp hmem
  cases hfind : tlsfFindByStart a (a.start bid) with
  | none =>
    have hnot := List.find?_eq_none.mp hfind bid (List.mem_range.mpr hbid.1)
    have halive : (a.blocks bid).alive = true := hbid.2
    simp [halive, TlsfAllocator.start] at hnot
  | some i =>
    have hi := List.find?_some hfind
    have hlt := List.mem_range.mp (List.mem_of_find?_eq_some hfind)
    simp only [Bool.and_eq_true, beq_iff_eq] at hi
    have hmemi : i ∈ order := (hs.layout.mem i).mpr ⟨hlt, hi.1⟩
    rw [hs.layout.tiles.start_inj hmemi hmem hi.2]

/-- What an allocation comes to: `bid` is the block it returns. -/
structure Taken (a a' : TlsfAllocator) (order order' : List ℕ) (bid reqSize : ℕ) : Prop where
  total : a'.total = a.total
  mem : bid ∈ order
  free : a.isFree bid = true
  size : a'.size bid = atLeastBlock reqSize
  start : ∀ i ∈ order, a'.start i = a.start i
  new : ∀ i ∈ order', i ∈ order ∨ a'.start i = a.start bid + atLeastBlock reqSize
  used : ∀ i, i ∈ order' ∧ a'.isFree i = false ↔ i = bid ∨ i ∈ order ∧ a.isFree i = false
  sizes : ∀ i ∈ order, a.isFree i = false → a'.size i = a.size i

/-- What freeing the block `bid` comes to. -/
structure Given (a a' : TlsfAllocator) (order order' : List ℕ) (bid : ℕ) : Prop where
  total : a'.total = a.total
  start : ∀ i, a'.start i = a.start i
  sub : ∀ i ∈ order', i ∈ order
  used : ∀ i, i ∈ order' ∧ a'.isFree i = false ↔ i ≠ bid ∧ i ∈ order ∧ a.isFree i = false
  sizes : ∀ i, i ≠ bid → a.isFree i = false → a'.size i = a.size i

theorem Sound.size_le (hs : Sound a order) (hmem : bid ∈ order) : a.size bid ≤ a.total :=
  (Nat.le_add_left _ _).trans (hs.layout.tiles.mem_bounds hmem).2.2

theorem free_spec (hs : Sound a order) (hapart : Apart a.isFree order)
    (htotal : tlsfLv1 a.total < tlsfLv1Max) (hmem : bid ∈ order) (hused : a.isFree bid = false) :
    ∃ a' order', tlsfFree a (a.start bid) = .ok a' ∧ Sound a' order' ∧ Apart a'.isFree order' ∧
      Given a a' order order' bid := by
  obtain ⟨a₁, hok₁, hs₁, hre⟩ := hs.insert hmem hused
    ((bitLength_mono (hs.size_le hmem)).trans_lt htotal)
  obtain ⟨pre, post, rfl⟩ := List.append_of_mem hmem
  have hnodup := hs.layout.nodup
  rw [List.nodup_middle, List.nodup_cons] at hnodup
  have hsame : ∀ i ∈ pre ++ post, a₁.isFree i = a.isFree i := fun i hi =>
    hre.others i fun he => hnodup.1 (he ▸ hi)
  have hpre : Apart a₁.isFree pre :=
    Apart.congr hapart.left_of_append fun i hi => hsame i (List.mem_append_left _ hi)
  have hpost : Apart a₁.isFree post :=
    Apart.congr hapart.right_of_append.tail fun i hi => hsame i (List.mem_append_right _ hi)
  obtain ⟨a', order', hok, hs', hapart', hcoarse⟩ := mergeBlock_spec hs₁ hre.flag
    (hre.same.total ▸ htotal) hpre hpost
  refine ⟨a', order', ?_, hs', hapart', hcoarse.total.trans hre.same.total, fun i => ?_,
    hcoarse.sub, fun i => ?_, fun i hi hfree => ?_⟩
  · have hnot : ¬ (a.blocks bid).isFree = true := by
      rw [Bool.not_eq_true]
      exact hused
    simp only [tlsfFree, findByStart_spec hs hmem, if_neg hnot, hok₁, bind, Except.bind]
    exact hok
  · rw [hcoarse.start, hre.same.start]
  · rw [hcoarse.used]
    by_cases hib : i = bid
    · simp [hib, hre.flag]
    · rw [hre.others i hib]
      simp [hib]
  · rw [hcoarse.size i ((hre.others i hi).trans hfree), hre.same.size]

/-- Taking a block out of its bin keeps free blocks apart. -/
theorem Rebinned.apart {is : List ℕ} (hre : Rebinned a a' bid false) (h : Apart a.isFree is) :
    Apart a'.isFree is := by
  refine List.IsChain.imp (fun i j hij hi => ?_) h
  by_cases hj : j = bid
  · rw [hj, hre.flag]
  · rw [hre.others j hj]
    apply hij
    by_cases hib : i = bid
    · rw [hib, hre.flag] at hi
      cases hi
    · rwa [hre.others i hib] at hi

/-- A block of exactly the right size is taken. -/
theorem take_spec (hs : Sound a order) (hapart : Apart a.isFree order) (hmem : bid ∈ order)
    (hfree : a.isFree bid = true) {reqSize : ℕ} (hsize : a.size bid = atLeastBlock reqSize) :
    ∃ a', tlsfBinRemove a bid = .ok a' ∧ Sound a' order ∧ Apart a'.isFree order ∧
      a'.start bid = a.start bid ∧ Taken a a' order order bid reqSize := by
  obtain ⟨a', hok, hs', hre⟩ := hs.remove hfree
  refine ⟨a', hok, hs', hre.apart hapart, by rw [hre.same.start], hre.same.total, hmem, hfree, ?_,
    fun i _ => by rw [hre.same.start], fun i hi => .inl hi, fun i => ?_,
    fun i _ _ => by rw [hre.same.size]⟩
  · rw [hre.same.size, hsize]
  · by_cases hib : i = bid
    · simp [hib, hre.flag, hmem]
    · rw [hre.others i hib]
      simp [hib]

/-- A block that is too large is cut before it is taken. -/
theorem splitTake_spec {a₁ : TlsfAllocator} {tail reqSize : ℕ} {pre post : List ℕ}
    (hs : Sound a (pre ++ bid :: post)) (hapart : Apart a.isFree (pre ++ bid :: post))
    (hfree : a.isFree bid = true) (hlt : atLeastBlock reqSize < a.size bid)
    (hcut : Cut a a₁ bid tail (atLeastBlock reqSize)) :
    ∃ a', tlsfBinRemove a₁ bid = .ok a' ∧ Sound a' (pre ++ bid :: tail :: post) ∧
      Apart a'.isFree (pre ++ bid :: tail :: post) ∧ a'.start bid = a.start bid ∧
      Taken a a' (pre ++ bid :: post) (pre ++ bid :: tail :: post) bid reqSize := by
  have hs₁ := hcut.sound hs (atLeastBlock_spec reqSize).2.1 hlt
  have hfree₁ : a₁.isFree bid = true := by rw [hcut.isFree, if_pos (.inl rfl)]
  obtain ⟨a', hok, hs', hre⟩ := hs₁.remove hfree₁
  have htail : ∀ i ∈ pre ++ bid :: post, i ≠ tail := fun i hi he =>
    hcut.out ((hs.layout.mem tail).mp (he ▸ hi))
  have hnodup := hs.layout.nodup
  rw [List.nodup_middle, List.nodup_cons] at hnodup
  have hother : ∀ i ∈ pre ++ bid :: post, i ≠ bid → a'.isFree i = a.isFree i := by
    intro i hi hib
    rw [hre.others i hib, hcut.isFree, if_neg (by simp [hib, htail i hi])]
  have htailFree : a'.isFree tail = true := by
    rw [hre.others tail (htail bid (by simp)).symm, hcut.isFree, if_pos (.inr rfl)]
  refine ⟨a', hok, hs', ?_, ?_, hre.same.total.trans hcut.total, by simp, hfree, ?_, fun i hi => ?_,
    fun i hi => ?_, fun i => ?_, fun i hi hused => ?_⟩
  · have hpre : Apart a'.isFree pre := Apart.congr hapart.left_of_append fun i hi =>
      hother i (by simp [hi]) fun he => hnodup.1 (by simp [← he, hi])
    have hpost : Apart a'.isFree post := Apart.congr hapart.right_of_append.tail fun i hi =>
      hother i (by simp [hi]) fun he => hnodup.1 (by simp [← he, hi])
    refine hpre.append ((hpost.cons fun j hj _ => ?_).cons fun j hj hbid => ?_) fun i hi j hj _ => ?_
    · have hjpost := List.mem_of_mem_head? hj
      have hjb : j ≠ bid := fun he => hnodup.1 (by simp [← he, hjpost])
      rw [hother j (by simp [hjpost]) hjb]
      exact List.IsChain.rel_head? hapart.right_of_append hj hfree
    · rw [hre.flag] at hbid
      cases hbid
    · obtain rfl : bid = j := by simpa using hj
      exact hre.flag
  · rw [hre.same.start, hcut.start, if_neg (htail bid (by simp))]
  · rw [hre.same.size, hcut.size, if_pos rfl]
  · rw [hre.same.start, hcut.start, if_neg (htail i hi)]
  · by_cases hit : i = tail
    · refine .inr ?_
      rw [hre.same.start, hcut.start, if_pos hit]
    · refine .inl ?_
      simp only [List.mem_append, List.mem_cons] at hi ⊢
      tauto
  · by_cases hit : i = tail
    · subst hit
      have hne : i ≠ bid := (htail bid (by simp)).symm
      have hnot : i ∉ pre ++ bid :: post := fun h => htail i h rfl
      simp only [htailFree, hne, hnot, false_and, and_false, or_self, reduceCtorEq]
    · by_cases hib : i = bid
      · simp [hib, hre.flag]
      · have hmem : i ∈ pre ++ bid :: tail :: post ↔ i ∈ pre ++ bid :: post := by
          simp [hit]
        rw [hmem]
        constructor
        · rintro ⟨hi, hused⟩
          exact .inr ⟨hi, hother i hi hib ▸ hused⟩
        · rintro (rfl | ⟨hi, hused⟩)
          · exact absurd rfl hib
          · exact ⟨hi, (hother i hi hib).trans hused⟩
  · have hib : i ≠ bid := by
      rintro rfl
      rw [hfree] at hused
      cases hused
    rw [hre.same.size, hcut.size, if_neg hib, if_neg (htail i hi)]

theorem alloc_spec (hs : Sound a order) (hapart : Apart a.isFree order)
    (htotal : tlsfLv1 a.total < tlsfLv1Max) {reqSize : ℕ} (hfits : Fits reqSize) :
    (∃ a' order' bid, tlsfAlloc a reqSize = .ok (a', a.start bid) ∧ Sound a' order' ∧
      Apart a'.isFree order' ∧ Taken a a' order order' bid reqSize) ∨
    (tlsfAlloc a reqSize = .ok (a, oom) ∧ ∀ i, a.isFree i = true → a.size i < rounded reqSize) ∨
    Exhausted a ∧ tlsfAlloc a reqSize = .error .exit := by
  obtain ⟨chains, hb⟩ := hs.binned
  rcases firstFit_spec hb hfits with ⟨bid, hfit, hfree, hle⟩ | ⟨hfit, hnone⟩
  · have hmem := hs.free bid hfree
    by_cases hlt : atLeastBlock reqSize < a.size bid
    · have hlt' : atLeastBlock reqSize < (a.blocks bid).size := hlt
      have htotal64 : a.total < 2 ^ 64 := (bitLength_le 64 a.total).mp htotal.le
      rcases split_spec hs hmem hfree htotal64 hlt with ⟨a₁, tail, hok₁, hcut⟩ | ⟨hex, herr⟩
      · obtain ⟨pre, post, rfl⟩ := List.append_of_mem hmem
        obtain ⟨a', hok, hs', hapart', hstart, htaken⟩ := splitTake_spec hs hapart hfree hlt hcut
        refine .inl ⟨a', _, bid, ?_, hs', hapart', htaken⟩
        simp only [tlsfAlloc, hfit, if_pos hlt', hok₁, hok, bind, Except.bind]
        rw [← hstart]
        rfl
      · refine .inr (.inr ⟨hex, ?_⟩)
        simp only [tlsfAlloc, hfit, if_pos hlt', herr, bind, Except.bind]
    · have hsize : a.size bid = atLeastBlock reqSize := le_antisymm (not_lt.mp hlt) hle
      have hlt' : ¬ atLeastBlock reqSize < (a.blocks bid).size := hlt
      obtain ⟨a', hok, hs', hapart', hstart, htaken⟩ := take_spec hs hapart hmem hfree hsize
      refine .inl ⟨a', order, bid, ?_, hs', hapart', htaken⟩
      simp only [tlsfAlloc, hfit, if_neg hlt', hok, bind, Except.bind]
      rw [← hstart]
      rfl
  · refine .inr (.inl ⟨?_, hnone⟩)
    simp only [tlsfAlloc, hfit]

/-- The blank allocator with one block that is not in a bin yet. -/
def rootOnly (total : ℕ) : TlsfAllocator :=
  { blank total with
    nBlocks := 1
    blocks := Function.update (blank total).blocks 0 ⟨0, total, none, none, none, false, true⟩ }

theorem binned_empty (hbins : a.bins = fun _ _ => none) (hcount : a.lv1Count = fun _ => 0)
    (hfree : ∀ i, a.isFree i = false) : Binned a fun _ _ => [] where
  path := fun l1 l2 => by
    rw [hbins]
    rfl
  nodup := fun _ _ => List.nodup_nil
  mem := by simp [hfree]
  count := by simp [hcount]
  bound := by simp [hfree]

theorem sound_blank : Sound (blank 0) [] where
  layout := ⟨List.nodup_nil, by simp [blank], rfl, trivial, List.nodup_nil, by simp [blank]⟩
  binned := ⟨_, binned_empty rfl rfl fun _ => rfl⟩
  free := by simp [blank, TlsfAllocator.isFree]

theorem isFree_rootOnly (total i : ℕ) : (rootOnly total).isFree i = false := by
  by_cases hi : i = 0 <;> simp [rootOnly, blank, TlsfAllocator.isFree, hi]

theorem sound_rootOnly {total : ℕ} (hpos : 0 < total) : Sound (rootOnly total) [0] where
  layout := by
    refine ⟨List.nodup_singleton 0, fun i => ?_, ⟨?_, ?_, ?_⟩, ⟨?_, ?_, trivial⟩, List.nodup_nil, ?_⟩
    · by_cases hi : i = 0
      · simp [rootOnly, TlsfAllocator.alive, hi]
      · simp [rootOnly, hi]
    · simp [rootOnly, TlsfAllocator.start]
    · simpa [rootOnly, TlsfAllocator.size] using hpos
    · simp [Tiles, rootOnly, TlsfAllocator.size, blank]
    · simp [rootOnly, TlsfAllocator.prev]
    · simp [rootOnly, TlsfAllocator.next]
    · simp [rootOnly, blank]
  binned := ⟨_, binned_empty rfl rfl (isFree_rootOnly total)⟩
  free := by simp [isFree_rootOnly]

theorem init_eq {total : ℕ} (hpos : 0 < total) :
    tlsfInit total = tlsfBinInsert (rootOnly total) 0 := by
  rw [tlsfInit, if_neg hpos.ne']
  change tlsfBinInsert _ 0 = _
  congr 1
  simp [rootOnly, TlsfAllocator.setBlock, blank]

/-- A new arena is one free block, and its size must have a class. -/
theorem init_spec (total : ℕ) :
    (∃ a order, tlsfInit total = .ok a ∧ a.total = total ∧ tlsfLv1 total < tlsfLv1Max ∧
      Sound a order ∧ Apart a.isFree order ∧ ∀ i ∈ order, a.start i = 0 ∧ a.isFree i = true) ∨
    tlsfLv1Max ≤ tlsfLv1 total ∧ tlsfInit total = .error .exit := by
  rcases Nat.eq_zero_or_pos total with rfl | hpos
  · refine .inl ⟨blank 0, [], rfl, rfl, ?_, sound_blank, .nil, by simp⟩
    rw [tlsfLv1, bitLength_zero]
    decide
  · have hsize : (rootOnly total).size 0 = total := by simp [rootOnly, TlsfAllocator.size]
    rw [init_eq hpos]
    rcases lt_or_ge (tlsfLv1 total) tlsfLv1Max with hlt | hge
    · obtain ⟨a, hok, hs, hre⟩ := (sound_rootOnly hpos).insert List.mem_cons_self
        (isFree_rootOnly total 0) (hsize.symm ▸ hlt)
      refine .inl ⟨a, [0], hok, hre.same.total, hlt, hs, .singleton 0, fun i hi => ?_⟩
      obtain rfl := List.mem_singleton.mp hi
      refine ⟨?_, hre.flag⟩
      rw [hre.same.start]
      simp [rootOnly, TlsfAllocator.start]
    · refine .inr ⟨hge, ?_⟩
      have hge' : tlsfLv1Max ≤ tlsfLv1 ((rootOnly total).blocks 0).size := by
        rw [← hsize] at hge
        exact hge
      simp only [tlsfBinInsert, if_pos hge']

end Thvm.Tlsf
