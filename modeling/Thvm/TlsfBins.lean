import Thvm.TlsfSizeClasses
import Thvm.LinkedLists
import Mathlib.Algebra.BigOperators.Group.Finset.Basic
import Mathlib.Algebra.BigOperators.Group.Finset.Piecewise
import Mathlib.Algebra.Order.BigOperators.Group.Finset
import Mathlib.Data.Finset.Card

/-!
# The lists of free blocks

Each bin is the head of a list of blocks, and a block is in the bin of its size
exactly when its flag says that it is free. Putting a block into its bin and taking
it out touch nothing but the flag, the lists and their counts.
-/

namespace Thvm.Tlsf
open LinkedLists

namespace TlsfAllocator

def size (a : TlsfAllocator) (i : ℕ) : ℕ := (a.blocks i).size

def fnext (a : TlsfAllocator) (i : ℕ) : Option ℕ := (a.blocks i).fnext

def isFree (a : TlsfAllocator) (i : ℕ) : Bool := (a.blocks i).isFree

end TlsfAllocator

/-- The bins hold exactly the free blocks, each one in the bin of its size. -/
structure Binned (a : TlsfAllocator) (chains : ℕ → ℕ → List ℕ) : Prop where
  path : ∀ l1 l2, Path a.fnext (a.bins l1 l2) (chains l1 l2)
  nodup : ∀ l1 l2, (chains l1 l2).Nodup
  mem : ∀ l1 l2 i, i ∈ chains l1 l2 ↔
    a.isFree i = true ∧ tlsfLv1 (a.size i) = l1 ∧ tlsfLv2 (a.size i) = l2
  count : ∀ l1, a.lv1Count l1 = ∑ l2 ∈ Finset.range tlsfLv2Cnt, (chains l1 l2).length
  bound : ∀ i, a.isFree i = true → tlsfLv1 (a.size i) < tlsfLv1Max

/-- `a'` differs from `a` in the bins and in what belongs to them only. -/
structure SameBlocks (a a' : TlsfAllocator) : Prop where
  total : a'.total = a.total
  nBlocks : a'.nBlocks = a.nBlocks
  freeSlots : a'.freeSlots = a.freeSlots
  blocks : ∀ i, (a'.blocks i).start = (a.blocks i).start ∧ (a'.blocks i).size = (a.blocks i).size ∧
    (a'.blocks i).prev = (a.blocks i).prev ∧ (a'.blocks i).next = (a.blocks i).next ∧
    (a'.blocks i).alive = (a.blocks i).alive

theorem SameBlocks.trans {a b c : TlsfAllocator} (h : SameBlocks a b) (h' : SameBlocks b c) :
    SameBlocks a c where
  total := h'.total.trans h.total
  nBlocks := h'.nBlocks.trans h.nBlocks
  freeSlots := h'.freeSlots.trans h.freeSlots
  blocks := fun i => by
    obtain ⟨h1, h2, h3, h4, h5⟩ := h.blocks i
    obtain ⟨k1, k2, k3, k4, k5⟩ := h'.blocks i
    exact ⟨k1.trans h1, k2.trans h2, k3.trans h3, k4.trans h4, k5.trans h5⟩

variable {a a' : TlsfAllocator} {chains : ℕ → ℕ → List ℕ} {bid : ℕ}

/-- A change that leaves the flags, and the sizes and links of free blocks, alone. -/
theorem Binned.frame (h : Binned a chains) (hbins : a'.bins = a.bins)
    (hcount : a'.lv1Count = a.lv1Count) (hfree : ∀ i, a'.isFree i = a.isFree i)
    (hsame : ∀ i, a.isFree i = true → a'.size i = a.size i ∧ a'.fnext i = a.fnext i) :
    Binned a' chains where
  path := fun l1 l2 => by
    rw [hbins]
    exact (h.path l1 l2).congr fun i hi => (hsame i ((h.mem l1 l2 i).mp hi).1).2
  nodup := h.nodup
  mem := fun l1 l2 i => by
    rw [hfree, h.mem]
    constructor
    · rintro ⟨hi, hclass⟩
      rw [(hsame i hi).1]
      exact ⟨hi, hclass⟩
    · rintro ⟨hi, hclass⟩
      rw [(hsame i hi).1] at hclass
      exact ⟨hi, hclass⟩
  count := fun l1 => hcount ▸ h.count l1
  bound := fun i hi => by
    rw [hfree] at hi
    rw [(hsame i hi).1]
    exact h.bound i hi

/-- The chains with one of them replaced. -/
def withChain (chains : ℕ → ℕ → List ℕ) (l1 l2 : ℕ) (c : List ℕ) : ℕ → ℕ → List ℕ :=
  Function.update chains l1 (Function.update (chains l1) l2 c)

theorem withChain_self (chains : ℕ → ℕ → List ℕ) (l1 l2 : ℕ) (c : List ℕ) :
    withChain chains l1 l2 c l1 l2 = c := by
  simp [withChain]

theorem withChain_of_ne (chains : ℕ → ℕ → List ℕ) {l1 l2 m1 m2 : ℕ} (c : List ℕ)
    (h : ¬ (m1 = l1 ∧ m2 = l2)) : withChain chains l1 l2 c m1 m2 = chains m1 m2 := by
  by_cases h1 : m1 = l1
  · subst h1
    simp [withChain, show m2 ≠ l2 from fun he => h ⟨rfl, he⟩]
  · simp [withChain, h1]

/-- The length of a level after a change of one of its chains. -/
theorem sum_withChain (chains : ℕ → ℕ → List ℕ) (l1 : ℕ) {l2 : ℕ} (c : List ℕ) (h2 : l2 < tlsfLv2Cnt) :
    (∑ m2 ∈ Finset.range tlsfLv2Cnt, (withChain chains l1 l2 c l1 m2).length) +
        (chains l1 l2).length =
      (∑ m2 ∈ Finset.range tlsfLv2Cnt, (chains l1 m2).length) + c.length := by
  have hmem : l2 ∈ Finset.range tlsfLv2Cnt := Finset.mem_range.mpr h2
  have hnew := Finset.sum_erase_add (Finset.range tlsfLv2Cnt)
    (fun m2 => (withChain chains l1 l2 c l1 m2).length) hmem
  have hold := Finset.sum_erase_add (Finset.range tlsfLv2Cnt) (fun m2 => (chains l1 m2).length) hmem
  have hsame : ∑ m2 ∈ (Finset.range tlsfLv2Cnt).erase l2, (withChain chains l1 l2 c l1 m2).length =
      ∑ m2 ∈ (Finset.range tlsfLv2Cnt).erase l2, (chains l1 m2).length := by
    refine Finset.sum_congr rfl fun m2 hm => ?_
    rw [withChain_of_ne chains c fun he => (Finset.mem_erase.mp hm).1 he.2]
  rw [withChain_self] at hnew
  omega

/-- One chain and its count change; the block `bid` changes its flag. -/
theorem Binned.rechain (h : Binned a chains) (bid : ℕ) (flag : Bool) {l1 l2 : ℕ} {c : List ℕ}
    (hsize : ∀ i, a'.size i = a.size i) (hfree : ∀ i, i ≠ bid → a'.isFree i = a.isFree i)
    (hflag : a'.isFree bid = flag)
    (hclass : tlsfLv1 (a.size bid) = l1 ∧ tlsfLv2 (a.size bid) = l2) (hbound : l1 < tlsfLv1Max)
    (hpath : Path a'.fnext (a'.bins l1 l2) c) (hnodup : c.Nodup)
    (hmem : ∀ i, i ∈ c ↔ i ≠ bid ∧ i ∈ chains l1 l2 ∨ i = bid ∧ flag = true)
    (hlink : ∀ i, i ≠ bid → i ∉ chains l1 l2 → a'.fnext i = a.fnext i)
    (hbins : ∀ m1 m2, ¬ (m1 = l1 ∧ m2 = l2) → a'.bins m1 m2 = a.bins m1 m2)
    (hcount : ∀ m1, m1 ≠ l1 → a'.lv1Count m1 = a.lv1Count m1)
    (hcount' : a'.lv1Count l1 + (chains l1 l2).length = a.lv1Count l1 + c.length) :
    Binned a' (withChain chains l1 l2 c) where
  path := fun m1 m2 => by
    by_cases hm : m1 = l1 ∧ m2 = l2
    · obtain ⟨rfl, rfl⟩ := hm
      rwa [withChain_self]
    · rw [withChain_of_ne chains c hm, hbins m1 m2 hm]
      refine (h.path m1 m2).congr fun i hi => ?_
      obtain ⟨-, hi1, hi2⟩ := (h.mem m1 m2 i).mp hi
      refine hlink i (fun he => ?_) fun hin => ?_
      · subst he
        exact hm ⟨hi1.symm.trans hclass.1, hi2.symm.trans hclass.2⟩
      · obtain ⟨-, hj1, hj2⟩ := (h.mem l1 l2 i).mp hin
        exact hm ⟨hi1.symm.trans hj1, hi2.symm.trans hj2⟩
  nodup := fun m1 m2 => by
    by_cases hm : m1 = l1 ∧ m2 = l2
    · obtain ⟨rfl, rfl⟩ := hm
      rwa [withChain_self]
    · rw [withChain_of_ne chains c hm]
      exact h.nodup m1 m2
  mem := fun m1 m2 i => by
    rw [hsize]
    by_cases hi : i = bid
    · subst hi
      rw [hflag]
      by_cases hm : m1 = l1 ∧ m2 = l2
      · obtain ⟨rfl, rfl⟩ := hm
        rw [withChain_self, hmem]
        simp [hclass]
      · rw [withChain_of_ne chains c hm, h.mem]
        constructor
        · rintro ⟨-, h1, h2⟩
          exact absurd ⟨h1.symm.trans hclass.1, h2.symm.trans hclass.2⟩ hm
        · rintro ⟨-, h1, h2⟩
          exact absurd ⟨h1.symm.trans hclass.1, h2.symm.trans hclass.2⟩ hm
    · rw [hfree i hi]
      by_cases hm : m1 = l1 ∧ m2 = l2
      · obtain ⟨rfl, rfl⟩ := hm
        rw [withChain_self, hmem, h.mem]
        simp [hi]
      · rw [withChain_of_ne chains c hm, h.mem]
  count := fun m1 => by
    by_cases hm : m1 = l1
    · subst hm
      have hsum := sum_withChain chains m1 c (hclass.2 ▸ lv2_lt (a.size bid))
      have hold := h.count m1
      omega
    · rw [hcount m1 hm, h.count m1]
      refine Finset.sum_congr rfl fun m2 _ => ?_
      rw [withChain_of_ne chains c fun he => hm he.1]
  bound := fun i hi => by
    rw [hsize]
    by_cases hib : i = bid
    · subst hib
      rw [hclass.1]
      exact hbound
    · exact h.bound i (hfree i hib ▸ hi)

/-- What putting a block into its bin or taking it out comes to. -/
structure Rebinned (a a' : TlsfAllocator) (bid : ℕ) (flag : Bool) : Prop where
  same : SameBlocks a a'
  flag : a'.isFree bid = flag
  others : ∀ i, i ≠ bid → a'.isFree i = a.isFree i
  binned : ∃ chains, Binned a' chains

/-- A new block at the head of its bin. -/
theorem binned_insert (h : Binned a chains) (hused : a.isFree bid = false)
    (hbound : tlsfLv1 (a.size bid) < tlsfLv1Max) :
    Binned (((a.setBlock bid { a.blocks bid with
        fnext := a.bins (tlsfLv1 (a.size bid)) (tlsfLv2 (a.size bid)), isFree := true }).setBin
        (tlsfLv1 (a.size bid)) (tlsfLv2 (a.size bid)) (some bid)).setCount (tlsfLv1 (a.size bid))
        (a.lv1Count (tlsfLv1 (a.size bid)) + 1))
      (withChain chains (tlsfLv1 (a.size bid)) (tlsfLv2 (a.size bid))
        (bid :: chains (tlsfLv1 (a.size bid)) (tlsfLv2 (a.size bid)))) := by
  have hnotin : bid ∉ chains (tlsfLv1 (a.size bid)) (tlsfLv2 (a.size bid)) := by
    rw [h.mem]
    simp [hused]
  refine h.rechain bid true (fun i => ?_) (fun i hi => ?_) ?_ ⟨rfl, rfl⟩ hbound
    ⟨?_, ?_⟩ (List.nodup_cons.mpr ⟨hnotin, h.nodup _ _⟩) (fun i => ?_) (fun i hi _ => ?_)
    (fun m1 m2 hm => ?_) (fun m1 hm => ?_) ?_
  · by_cases hi : i = bid
    · subst hi
      simp [TlsfAllocator.size]
    · simp [TlsfAllocator.size, hi]
  · simp [TlsfAllocator.isFree, hi]
  · simp [TlsfAllocator.isFree]
  · simp
  · have hnext : ∀ x : TlsfBlock, ((((a.setBlock bid x).setBin (tlsfLv1 (a.size bid))
        (tlsfLv2 (a.size bid)) (some bid)).setCount (tlsfLv1 (a.size bid))
        (a.lv1Count (tlsfLv1 (a.size bid)) + 1)).fnext bid) = x.fnext := by
      intro x
      simp [TlsfAllocator.fnext]
    rw [hnext]
    refine (h.path _ _).congr fun i hi => ?_
    have hne : i ≠ bid := fun he => hnotin (he ▸ hi)
    simp [TlsfAllocator.fnext, hne]
  · rw [List.mem_cons]
    by_cases hi : i = bid
    · simp [hi]
    · simp [hi]
  · simp [TlsfAllocator.fnext, hi]
  · simp [TlsfAllocator.bins_setBin_of_ne _ _ hm]
  · simp [hm]
  · simp
    omega

theorem binInsert_spec (h : Binned a chains) (hused : a.isFree bid = false)
    (hbound : tlsfLv1 (a.size bid) < tlsfLv1Max) :
    ∃ a', tlsfBinInsert a bid = .ok a' ∧ Rebinned a a' bid true := by
  have hok : ¬ tlsfLv1Max ≤ tlsfLv1 (a.blocks bid).size := not_le.mpr hbound
  refine ⟨_, if_neg hok, ⟨rfl, rfl, rfl, fun i => ?_⟩, ?_, fun i hi => ?_,
    ⟨_, binned_insert h hused hbound⟩⟩
  · by_cases hi : i = bid
    · subst hi
      simp
    · simp [hi]
  · simp [TlsfAllocator.isFree]
  · simp [TlsfAllocator.isFree, hi]

/-- Where the walk ends that starts at `cur` and passes the blocks `is`. -/
def endCursor : Cursor → List ℕ → Cursor
  | cur, [] => cur
  | _, i :: is => endCursor (.link i) is

theorem endCursor_snoc (cur : Cursor) (is : List ℕ) (i : ℕ) :
    endCursor cur (is ++ [i]) = .link i := by
  induction is generalizing cur with
  | nil => rfl
  | cons j is ih => exact ih (.link j)

/-- The walk finds a block that is in the list. -/
theorem binWalk_ok {l1 l2 rounds : ℕ} {cur : Cursor} {pre post : List ℕ}
    (hpath : Path a.fnext (cur.read a l1 l2) (pre ++ bid :: post)) (hnotin : bid ∉ pre)
    (hrounds : pre.length < rounds) :
    binWalk a l1 l2 bid rounds cur = .ok (unlink a l1 l2 bid (endCursor cur pre)) := by
  induction pre generalizing cur rounds with
  | nil =>
    obtain ⟨rounds, rfl⟩ := Nat.exists_eq_succ_of_ne_zero (Nat.ne_zero_of_lt hrounds)
    rw [binWalk, hpath.1]
    simp [endCursor]
  | cons i pre ih =>
    obtain ⟨rounds, rfl⟩ := Nat.exists_eq_succ_of_ne_zero (Nat.ne_zero_of_lt hrounds)
    rw [binWalk, hpath.1]
    have hne : i ≠ bid := fun he => hnotin (he ▸ List.mem_cons_self)
    simp only [hne, if_false]
    exact ih hpath.2 (fun hmem => hnotin (List.mem_cons_of_mem i hmem)) (Nat.lt_of_succ_lt_succ hrounds)

/-- The fields of the blocks after `bid` has been taken out behind `cur`. -/
theorem unlink_blocks {l1 l2 : ℕ} {cur : Cursor} (hcur : cur ≠ .link bid) (i : ℕ) :
    ((unlink a l1 l2 bid cur).blocks i) = { a.blocks i with
      fnext := if i = bid then none
        else if cur = .link i then (a.blocks bid).fnext else (a.blocks i).fnext
      isFree := if i = bid then false else (a.blocks i).isFree } := by
  cases cur with
  | head =>
    by_cases hi : i = bid
    · subst hi
      simp [unlink, Cursor.write]
    · simp [unlink, Cursor.write, hi]
  | link j =>
    have hj : bid ≠ j := fun he => hcur (he ▸ rfl)
    by_cases hi : i = bid
    · subst hi
      simp [unlink, Cursor.write, hj]
    · by_cases hij : i = j
      · subst hij
        simp [unlink, Cursor.write, hi, hj]
      · simp [unlink, Cursor.write, hi, hij, hj, Ne.symm hij]

theorem size_unlink {l1 l2 : ℕ} {cur : Cursor} (hcur : cur ≠ .link bid) (i : ℕ) :
    (unlink a l1 l2 bid cur).size i = a.size i := by
  simp [TlsfAllocator.size, unlink_blocks hcur]

theorem isFree_unlink {l1 l2 : ℕ} {cur : Cursor} (hcur : cur ≠ .link bid) (i : ℕ) :
    (unlink a l1 l2 bid cur).isFree i = if i = bid then false else a.isFree i := by
  simp [TlsfAllocator.isFree, unlink_blocks hcur]

theorem fnext_unlink {l1 l2 : ℕ} {cur : Cursor} (hcur : cur ≠ .link bid) (i : ℕ) :
    (unlink a l1 l2 bid cur).fnext i = if i = bid then none
      else if cur = .link i then a.fnext bid else a.fnext i := by
  simp [TlsfAllocator.fnext, unlink_blocks hcur]

theorem Binned.count_pos (h : Binned a chains) {l1 l2 i : ℕ} (hi : i ∈ chains l1 l2)
    (h2 : l2 < tlsfLv2Cnt) : 0 < a.lv1Count l1 := by
  rw [h.count l1]
  have hle : (chains l1 l2).length ≤ ∑ m2 ∈ Finset.range tlsfLv2Cnt, (chains l1 m2).length :=
    Finset.single_le_sum (f := fun m2 => (chains l1 m2).length) (fun _ _ => Nat.zero_le _)
      (Finset.mem_range.mpr h2)
  exact (List.length_pos_of_mem hi).trans_le hle

theorem endCursor_ne {is : List ℕ} (hnotin : bid ∉ is) : endCursor .head is ≠ .link bid := by
  rcases List.eq_nil_or_concat is with rfl | ⟨is, i, rfl⟩
  · simp [endCursor]
  · rw [List.concat_eq_append, endCursor_snoc]
    rintro ⟨⟩
    simp at hnotin

/-- The list of a bin after one of its blocks has been taken out. -/
theorem path_unlink {l1 l2 : ℕ} {pre post : List ℕ}
    (hpath : Path a.fnext (a.bins l1 l2) (pre ++ bid :: post))
    (hnodup : (pre ++ bid :: post).Nodup) :
    Path (unlink a l1 l2 bid (endCursor .head pre)).fnext
      ((unlink a l1 l2 bid (endCursor .head pre)).bins l1 l2) (pre ++ post) := by
  have hnotin : bid ∉ pre := by
    simp only [List.nodup_append, List.mem_cons] at hnodup
    exact fun hmem => hnodup.2.2 bid hmem bid (.inl rfl) rfl
  have hcursor := endCursor_ne hnotin
  rcases List.eq_nil_or_concat pre with rfl | ⟨pre, i, rfl⟩
  · have hbin : (unlink a l1 l2 bid .head).bins l1 l2 = a.fnext bid := by
      simp [unlink, Cursor.write, TlsfAllocator.fnext]
    simp only [endCursor, hbin]
    refine hpath.2.congr fun i hi => ?_
    have hne : i ≠ bid := fun he => (List.nodup_cons.mp hnodup).1 (he ▸ hi)
    rw [fnext_unlink (by simp)]
    simp [hne]
  · rw [List.concat_eq_append] at hpath hnodup hnotin hcursor ⊢
    rw [endCursor_snoc] at hcursor ⊢
    have hbin : (unlink a l1 l2 bid (.link i)).bins l1 l2 = a.bins l1 l2 := by
      simp [unlink, Cursor.write]
    have hi : i ≠ bid := fun he => hnotin (by simp [he])
    simp only [List.append_assoc, List.singleton_append] at hpath hnodup ⊢
    rw [hbin]
    refine hpath.unlink hnodup ?_ fun j hji hjb => ?_
    · rw [fnext_unlink hcursor]
      simp [hi]
    · rw [fnext_unlink hcursor]
      simp [hjb, Ne.symm hji]

theorem binned_unlink (h : Binned a chains) (hfree : a.isFree bid = true) {pre post : List ℕ}
    (hsplit : chains (tlsfLv1 (a.size bid)) (tlsfLv2 (a.size bid)) = pre ++ bid :: post) :
    Binned (unlink a (tlsfLv1 (a.size bid)) (tlsfLv2 (a.size bid)) bid (endCursor .head pre))
      (withChain chains (tlsfLv1 (a.size bid)) (tlsfLv2 (a.size bid)) (pre ++ post)) := by
  have hnodup := h.nodup (tlsfLv1 (a.size bid)) (tlsfLv2 (a.size bid))
  rw [hsplit] at hnodup
  have hnotin : bid ∉ pre ++ post := by
    rw [List.nodup_middle, List.nodup_cons] at hnodup
    exact hnodup.1
  have hcursor := endCursor_ne fun hmem => hnotin (List.mem_append_left post hmem)
  have hpos := h.count_pos (hsplit ▸ List.mem_append_right pre List.mem_cons_self)
    (lv2_lt (a.size bid))
  refine h.rechain bid false (fun i => ?_) (fun i hi => ?_) ?_ ⟨rfl, rfl⟩
    (h.bound bid hfree) (path_unlink (hsplit ▸ h.path _ _) hnodup) ?_ (fun i => ?_)
    (fun i hi hout => ?_) (fun m1 m2 hm => ?_) (fun m1 hm => ?_) ?_
  · exact size_unlink hcursor i
  · rw [isFree_unlink hcursor, if_neg hi]
  · rw [isFree_unlink hcursor, if_pos rfl]
  · rw [List.nodup_middle, List.nodup_cons] at hnodup
    exact hnodup.2
  · rw [hsplit]
    by_cases hi : i = bid
    · subst hi
      simpa using hnotin
    · simp [hi]
  · have hcur : endCursor .head pre ≠ .link i := by
      refine endCursor_ne fun hmem => hout ?_
      rw [hsplit]
      exact List.mem_append_left _ hmem
    rw [fnext_unlink hcursor, if_neg hi, if_neg hcur]
  · cases hc : endCursor .head pre <;>
      simp [unlink, Cursor.write, TlsfAllocator.bins_setBin_of_ne _ _ hm]
  · cases hc : endCursor .head pre <;> simp [unlink, Cursor.write, hm]
  · have hcount : (unlink a (tlsfLv1 (a.size bid)) (tlsfLv2 (a.size bid)) bid
        (endCursor .head pre)).lv1Count (tlsfLv1 (a.size bid)) =
          a.lv1Count (tlsfLv1 (a.size bid)) - 1 := by
      cases hc : endCursor .head pre <;> simp [unlink, Cursor.write]
    rw [hcount, hsplit]
    simp only [List.length_append, List.length_cons]
    omega

theorem binRemove_spec (h : Binned a chains) (hfree : a.isFree bid = true)
    (hslots : ∀ i, a.isFree i = true → i < a.nBlocks) :
    ∃ a', tlsfBinRemove a bid = .ok a' ∧ Rebinned a a' bid false := by
  have hmem : bid ∈ chains (tlsfLv1 (a.size bid)) (tlsfLv2 (a.size bid)) :=
    (h.mem _ _ _).mpr ⟨hfree, rfl, rfl⟩
  obtain ⟨pre, post, hsplit⟩ := List.append_of_mem hmem
  have hnodup := h.nodup (tlsfLv1 (a.size bid)) (tlsfLv2 (a.size bid))
  have hnotin : bid ∉ pre := by
    rw [hsplit, List.nodup_middle, List.nodup_cons] at hnodup
    exact fun hmem => hnodup.1 (List.mem_append_left post hmem)
  have hlen : (chains (tlsfLv1 (a.size bid)) (tlsfLv2 (a.size bid))).length ≤ a.nBlocks := by
    rw [← List.toFinset_card_of_nodup hnodup]
    refine (Finset.card_le_card fun i hi => ?_).trans_eq (Finset.card_range a.nBlocks)
    exact Finset.mem_range.mpr (hslots i ((h.mem _ _ _).mp (List.mem_toFinset.mp hi)).1)
  have hwalk := binWalk_ok (hsplit ▸ h.path _ _ : Path a.fnext (Cursor.head.read a _ _) _) hnotin
    (show pre.length < a.nBlocks + 1 by rw [hsplit] at hlen; simp at hlen; omega)
  have hcursor := endCursor_ne hnotin
  refine ⟨_, hwalk, ⟨?_, ?_, ?_, fun i => ?_⟩, ?_, fun i hi => ?_, ⟨_, binned_unlink h hfree hsplit⟩⟩
  · cases endCursor .head pre <;> rfl
  · cases endCursor .head pre <;> rfl
  · cases endCursor .head pre <;> rfl
  · simp [unlink_blocks hcursor]
  · rw [isFree_unlink hcursor, if_pos rfl]
  · rw [isFree_unlink hcursor, if_neg hi]

end Thvm.Tlsf
