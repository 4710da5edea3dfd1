import Thvm.LinearProbing
import Thvm.SubsumptionIndex

/-!
# The map from ids to records

The map is a table with linear probing, whose size is a power of two and which is at most half
full. Its loops do what the search, the insertion and the deletion of such a table do.
-/

namespace Thvm.Atp.FvIndex.SeqMap
open LinearProbing

def hashSeq (seq : ℕ) : ℕ := seq * 2654435761 % 2 ^ 32

/-- A slot as the table has it. -/
def entry (e : SeqEnt) : Option (ℕ × ℕ) := if e.seq = dtreeNil then none else some (e.seq, e.record)

/-- The table with `n` entries that the map stands for. -/
def table (m : SeqMap) (n : ℕ) : Table ℕ ℕ := ⟨m.cap, n, fun i => entry (m.ents i)⟩

/-- From 1024 slots on, as many as a `u32` can count. -/
def SizeOk (m : SeqMap) : Prop := ∃ k, 10 ≤ k ∧ k ≤ 31 ∧ m.cap = 2 ^ k

/-- The map holds `n` ids. -/
structure Keeps (m : SeqMap) (n : ℕ) : Prop where
  size : m.SizeOk
  wellFormed : WellFormed hashSeq (m.table n)
  half : n * 2 ≤ m.cap

/-- The id leads to the record. -/
def Has (m : SeqMap) (seq record : ℕ) : Prop := (m.table 0).Has seq record

variable {m m' : SeqMap} {n seq record i j h k : ℕ} {ents : ℕ → SeqEnt}

theorem has_iff (m : SeqMap) (n : ℕ) : (m.table n).Has seq record ↔ m.Has seq record := Iff.rfl

theorem entry_eq_none {e : SeqEnt} : entry e = none ↔ e.seq = dtreeNil := by
  unfold entry
  split <;> simp [*]

theorem entry_mk (hne : seq ≠ dtreeNil) : entry ⟨seq, record⟩ = some (seq, record) := if_neg hne

theorem entry_update (ents : ℕ → SeqEnt) (i : ℕ) (e : SeqEnt) :
    (fun j => entry (Function.update ents i e j)) =
      Function.update (fun j => entry (ents j)) i (entry e) := by
  funext j
  by_cases hj : j = i
  · subst hj
    rw [Function.update_self, Function.update_self]
  · rw [Function.update_of_ne hj, Function.update_of_ne hj]

theorem SizeOk.pos (hm : m.SizeOk) : 0 < m.cap := by
  obtain ⟨k, -, -, hk⟩ := hm
  rw [hk]
  exact Nat.two_pow_pos k

theorem SizeOk.cap_le (hm : m.SizeOk) : m.cap ≤ 2 ^ 31 := by
  obtain ⟨k, -, hk, hcap⟩ := hm
  rw [hcap]
  exact Nat.pow_le_pow_right (by decide) hk

theorem SizeOk.mask (hm : m.SizeOk) : m.mask = m.cap - 1 := by
  have hpos := hm.pos
  have hle := hm.cap_le
  unfold SeqMap.mask
  omega

theorem SizeOk.and_mask (hm : m.SizeOk) (x : ℕ) : x &&& m.mask = x % m.cap := by
  rw [hm.mask]
  obtain ⟨k, -, -, hk⟩ := hm
  rw [hk]
  exact Nat.and_two_pow_sub_one_eq_mod x k

theorem SizeOk.home (hm : m.SizeOk) (seq : ℕ) : m.home seq = hashSeq seq % m.cap :=
  hm.and_mask _

theorem SizeOk.next (hm : m.SizeOk) (hh : h < m.cap) : m.next h = (h + 1) % m.cap := by
  have hle := hm.cap_le
  rw [SeqMap.next, hm.and_mask, Nat.mod_eq_of_lt (by omega : h + 1 < 2 ^ 32)]

theorem SizeOk.next_lt (hm : m.SizeOk) (hh : h < m.cap) : m.next h < m.cap := by
  rw [hm.next hh]
  exact Nat.mod_lt _ hm.pos

theorem Keeps.home_lt (hm : m.Keeps n) (seq : ℕ) : m.home seq < m.cap := by
  rw [hm.size.home]
  exact hm.wellFormed.home_lt seq

/-- The search for an id looks at the same slots as that of the table. -/
theorem findFrom_eq (hm : m.SizeOk) (n rounds : ℕ) (hh : h < m.cap) :
    m.findFrom seq rounds h = (lookupFrom (m.table n) seq rounds h).map Prod.fst := by
  induction rounds generalizing h with
  | zero => rfl
  | succ rounds ih =>
    have hnext := ih (hm.next_lt hh)
    rw [hm.next hh] at hnext
    rw [findFrom, lookupFrom]
    by_cases hnil : (m.ents h).seq = dtreeNil
    · have hentry : (m.table n).slots h = none := entry_eq_none.mpr hnil
      rw [hentry, if_pos (.inl hnil)]
      rfl
    · have hentry : (m.table n).slots h = some ((m.ents h).seq, (m.ents h).record) := if_neg hnil
      rw [hentry]
      by_cases hseq : (m.ents h).seq = seq
      · simp [hseq]
      · rw [if_neg (not_or.mpr ⟨hnil, hseq⟩), hm.next hh]
        simp only [if_neg hseq]
        exact hnext

/-- For an id that is not there, the search for an empty slot is that for the id. -/
theorem emptyFrom_eq (hm : m.SizeOk) (habsent : ∀ v, ¬ m.Has seq v) (n rounds : ℕ)
    (hh : h < m.cap) : lookupFrom (m.table n) seq rounds h =
      (m.emptyFrom rounds h).map fun i => (i, none) := by
  induction rounds generalizing h with
  | zero => rfl
  | succ rounds ih =>
    have hnext := ih (hm.next_lt hh)
    rw [hm.next hh] at hnext
    rw [emptyFrom, lookupFrom]
    by_cases hnil : (m.ents h).seq = dtreeNil
    · have hentry : (m.table n).slots h = none := entry_eq_none.mpr hnil
      rw [hentry, if_pos hnil]
      rfl
    · have hentry : (m.table n).slots h = some ((m.ents h).seq, (m.ents h).record) := if_neg hnil
      have hseq : (m.ents h).seq ≠ seq := by
        rintro rfl
        exact habsent _ ⟨h, hh, hentry⟩
      rw [hentry, if_neg hnil, hm.next hh]
      exact (if_neg hseq).trans hnext

/-- An insertion where there is room. -/
theorem place_spec (hm : m.SizeOk) (hwf : WellFormed hashSeq (m.table n)) (hroom : n + 1 < m.cap)
    (hne : seq ≠ dtreeNil) (habsent : ∀ v, ¬ m.Has seq v) (record : ℕ) :
    ∃ m', m.place seq record = some m' ∧ m'.cap = m.cap ∧
      WellFormed hashSeq (m'.table (n + 1)) ∧
      ∀ k v, m'.Has k v ↔ seq = k ∧ record = v ∨ m.Has k v := by
  obtain ⟨i, found, hrun, hfound⟩ := lookup_spec hwf seq
  have hempty := emptyFrom_eq hm habsent n m.cap (h := m.home seq)
    (by rw [hm.home]; exact hwf.home_lt seq)
  rw [hm.home] at hempty
  rw [lookup] at hrun
  obtain ⟨i', hi', heq⟩ := Option.map_eq_some_iff.mp (hempty.symm.trans hrun)
  obtain ⟨rfl, rfl⟩ := Prod.mk.inj heq
  obtain ⟨hwf', hhas⟩ := LinearProbing.place_spec hwf hfound hroom record
  have htable : (⟨m.cap, Function.update m.ents i' ⟨seq, record⟩⟩ : SeqMap).table (n + 1) =
      (m.table n).place i' seq record := by
    rw [table, Table.place, entry_update, entry_mk hne]
    rfl
  refine ⟨⟨m.cap, Function.update m.ents i' ⟨seq, record⟩⟩, ?_, rfl, ?_, fun k v => ?_⟩
  · rw [place, hm.home, hi']
    rfl
  · rwa [htable]
  · rw [← has_iff _ (n + 1), htable]
    exact hhas k v

theorem init_wellFormed {cap : ℕ} (hcap : 0 < cap) :
    WellFormed hashSeq ((SeqMap.init cap).table 0) ∧ ∀ k v, ¬ (SeqMap.init cap).Has k v :=
  ⟨empty_wellFormed hcap, fun _ _ => not_has_empty⟩

/-- The slots of a list that are not empty. -/
def filled (m : SeqMap) (is : List ℕ) : List ℕ := is.filter fun i => (m.ents i).seq ≠ dtreeNil

/-- The loop of the growth, after the slots `done`. -/
theorem grow_spec (hwf : WellFormed hashSeq (m.table n)) {grown : SeqMap}
    (calls : ℕ) (done rest : List ℕ) (hsplit : done ++ rest = List.range m.cap)
    (hgrown : grown.SizeOk) (hcap : grown.cap = m.cap * 2)
    (hbig : (n + 1) * 2 ≤ grown.cap)
    (hwf' : WellFormed hashSeq (grown.table (m.filled done).length))
    (hhas : ∀ k v, grown.Has k v ↔ ∃ i ∈ done, entry (m.ents i) = some (k, v)) :
    ∃ m', rest.foldlM (fun grown i => if (m.ents i).seq ≠ dtreeNil then
        putFrom n (calls + 1) grown (m.ents i).seq (m.ents i).record else some grown) grown =
          some m' ∧ m'.cap = grown.cap ∧
        WellFormed hashSeq (m'.table (m.filled (List.range m.cap)).length) ∧
        ∀ k v, m'.Has k v ↔ m.Has k v := by
  induction rest generalizing done grown with
  | nil =>
    rw [List.append_nil] at hsplit
    subst hsplit
    refine ⟨grown, rfl, rfl, hwf', fun k v => (hhas k v).trans ?_⟩
    exact exists_congr fun i => and_congr_left fun _ => List.mem_range
  | cons i rest ih =>
    have hmem : ∀ {j}, j ∈ done ++ i :: rest → j < m.cap := fun hj =>
      List.mem_range.mp (hsplit ▸ hj)
    have hi : i < m.cap := hmem (by simp)
    have hsplit' : (done ++ [i]) ++ rest = List.range m.cap := by
      rw [← hsplit, List.append_assoc, List.singleton_append]
    have hfilled : m.filled (done ++ [i]) =
        m.filled done ++ if (m.ents i).seq ≠ dtreeNil then [i] else [] := by
      rw [filled, List.filter_append, filled]
      congr 1
      by_cases hnil : (m.ents i).seq = dtreeNil <;> simp [hnil]
    rw [List.foldlM_cons]
    by_cases hnil : (m.ents i).seq = dtreeNil
    · rw [if_neg (not_not.mpr hnil), List.append_nil] at hfilled
      rw [if_neg (not_not.mpr hnil)]
      refine ih (done ++ [i]) hsplit' hgrown hcap hbig (by rwa [hfilled]) fun k v => ?_
      rw [hhas]
      constructor
      · rintro ⟨j, hj, he⟩
        exact ⟨j, List.mem_append_left _ hj, he⟩
      · rintro ⟨j, hj, he⟩
        rcases List.mem_append.mp hj with hj | hj
        · exact ⟨j, hj, he⟩
        · rw [List.mem_singleton.mp hj, entry_eq_none.mpr hnil] at he
          cases he
    · have hentry : entry (m.ents i) = some ((m.ents i).seq, (m.ents i).record) := if_neg hnil
      have habsent : ∀ v, ¬ grown.Has (m.ents i).seq v := by
        intro v hv
        obtain ⟨j, hj, he⟩ := (hhas _ v).mp hv
        have hji := hwf.chained.unique j (hmem (List.mem_append_left _ hj)) i hi _ _ _ he hentry
        subst hji
        have hnodup : (done ++ j :: rest).Nodup := hsplit ▸ List.nodup_range
        exact (List.nodup_append.mp hnodup).2.2 j hj j List.mem_cons_self rfl
      have hlen : (m.filled done).length < m.cap := by
        have hle : (m.filled done).length ≤ done.length := List.length_filter_le _ _
        have htotal := congrArg List.length hsplit
        rw [List.length_append, List.length_cons, List.length_range] at htotal
        omega
      obtain ⟨m₁, hput, hcap₁, hwf₁, hhas₁⟩ :=
        place_spec hgrown hwf' (by omega) hnil habsent (m.ents i).record
      have hnogrow : ¬ (n + 1) * 2 % 2 ^ 32 > grown.cap :=
        Nat.not_lt.mpr (Nat.le_trans (Nat.mod_le _ _) hbig)
      rw [if_pos hnil, putFrom, if_neg hnogrow, hput]
      have hsize₁ : m₁.SizeOk := by
        obtain ⟨k, hk, hk', he⟩ := hgrown
        exact ⟨k, hk, hk', hcap₁.trans he⟩
      have hcount : (m.filled (done ++ [i])).length = (m.filled done).length + 1 := by
        rw [hfilled, if_pos hnil, List.length_append, List.length_singleton]
      obtain ⟨m', hrun, hcap', hwf', hhas'⟩ := ih (done ++ [i]) hsplit' hsize₁
        (hcap₁.trans hcap) (by rwa [hcap₁]) (by rwa [hcount]) fun k v => by
          rw [hhas₁, hhas]
          constructor
          · rintro (⟨rfl, rfl⟩ | ⟨j, hj, he⟩)
            · exact ⟨i, by simp, hentry⟩
            · exact ⟨j, List.mem_append_left _ hj, he⟩
          · rintro ⟨j, hj, he⟩
            rcases List.mem_append.mp hj with hj | hj
            · exact .inr ⟨j, hj, he⟩
            · rw [List.mem_singleton.mp hj, hentry] at he
              exact .inl (Prod.mk.inj (Option.some.inj he))
      exact ⟨m', hrun, hcap'.trans hcap₁, hwf', hhas'⟩

/-- A new id, in a table that still can grow. -/
theorem put_spec (hm : m.Keeps n) (hn : n < 2 ^ 30) (hne : seq ≠ dtreeNil)
    (habsent : ∀ v, ¬ m.Has seq v) (record : ℕ) :
    ∃ m', m.put n seq record = some m' ∧ m'.Keeps (n + 1) ∧
      ∀ k v, m'.Has k v ↔ seq = k ∧ record = v ∨ m.Has k v := by
  have hmod : (n + 1) * 2 % 2 ^ 32 = (n + 1) * 2 := Nat.mod_eq_of_lt (by omega)
  have hpos := hm.size.pos
  obtain ⟨k, hk, hk', hcap⟩ := hm.size
  have hlarge : 2 ^ 10 ≤ m.cap := hcap ▸ Nat.pow_le_pow_right (by decide) hk
  rw [put, putFrom, hmod]
  by_cases hfull : (n + 1) * 2 > m.cap
  · have hlt : k < 31 := by
      apply Nat.lt_of_le_of_ne hk'
      rintro rfl
      omega
    have hsize : (SeqMap.init (m.cap * 2 % 2 ^ 32)).SizeOk ∧ m.cap * 2 % 2 ^ 32 = m.cap * 2 := by
      have hpow : m.cap * 2 = 2 ^ (k + 1) := by rw [hcap, Nat.pow_succ]
      have hle : m.cap * 2 ≤ 2 ^ 31 := hpow ▸ Nat.pow_le_pow_right (by decide) hlt
      have hmod' : m.cap * 2 % 2 ^ 32 = m.cap * 2 := Nat.mod_eq_of_lt (by omega)
      exact ⟨⟨k + 1, by omega, hlt, hmod'.trans hpow⟩, hmod'⟩
    obtain ⟨hinit, hempty⟩ := init_wellFormed hsize.1.pos
    have hhalf := hm.half
    have hnone : ∀ k v, (SeqMap.init (m.cap * 2 % 2 ^ 32)).Has k v ↔
        ∃ i ∈ ([] : List ℕ), entry (m.ents i) = some (k, v) := fun k v =>
      ⟨fun h => absurd h (hempty k v), fun h => absurd h.choose_spec.1 List.not_mem_nil⟩
    obtain ⟨grown, hrun, hcap', hwf', hhas'⟩ := grow_spec hm.wellFormed 31 [] (List.range m.cap)
      rfl hsize.1 hsize.2 (by
        change _ ≤ m.cap * 2 % 2 ^ 32
        omega) hinit hnone
    have hcount : (m.filled (List.range m.cap)).length = n := by
      have hcard := hm.wellFormed.count
      refine Eq.trans ?_ hcard.symm
      rw [filled, occupied]
      change _ = ((List.range m.cap).filter fun i => decide (entry (m.ents i) ≠ none)).length
      congr 2
      funext i
      simp [entry_eq_none]
    rw [hcount] at hwf'
    have hgrownsize : grown.SizeOk := by
      obtain ⟨k', hk₁, hk₂, he⟩ := hsize.1
      exact ⟨k', hk₁, hk₂, hcap'.trans he⟩
    have hgrowncap : grown.cap = m.cap * 2 := hcap'.trans hsize.2
    obtain ⟨m', hput, hcap₂, hwf₂, hhas₂⟩ := place_spec hgrownsize hwf' (by omega) hne
      (fun v hv => habsent v ((hhas' seq v).mp hv)) record
    refine ⟨m', ?_, ⟨?_, hwf₂, by omega⟩, fun k v => by rw [hhas₂, hhas']⟩
    · rw [if_pos hfull, hrun]
      exact hput
    · obtain ⟨k', hk₁, hk₂, he⟩ := hgrownsize
      exact ⟨k', hk₁, hk₂, hcap₂.trans he⟩
  · obtain ⟨m', hput, hcap', hwf', hhas'⟩ := place_spec hm.size hm.wellFormed (by omega) hne
      habsent record
    exact ⟨m', by rw [if_neg hfull, hput], ⟨⟨k, hk, hk', hcap'.trans hcap⟩, hwf', by omega⟩, hhas'⟩

/-! ## Deletion -/

/-- The entry may move into the hole exactly when the hole is not before its home. -/
theorem staysBehind_iff {cap hole : ℕ} (hhole : hole < cap) (hj : j < cap) (hk : k < cap) :
    staysBehind hole j k = true ↔ ¬ dist cap k hole ≤ dist cap k j := by
  rw [staysBehind, dist_eq hk hhole, dist_eq hk hj]
  split_ifs <;> simp only [Bool.and_eq_true, Bool.or_eq_true, decide_eq_true_eq] <;> omega

theorem entry_clear (ents : ℕ → SeqEnt) (h : ℕ) : (fun i => entry (clear ents h i)) =
    Function.update (fun i => entry (ents i)) h none := by
  rw [clear, entry_update, entry_eq_none.mpr rfl]

theorem backShift_eq (hm : m.SizeOk) (rounds : ℕ) (ents : ℕ → SeqEnt) (hh : h < m.cap)
    (hj : j < m.cap) :
    (m.backShift rounds h j ents).map (fun ents i => entry (ents i)) =
      shift hashSeq m.cap rounds h ((j + 1) % m.cap) fun i => entry (ents i) := by
  induction rounds generalizing h j ents with
  | zero => rfl
  | succ rounds ih =>
    have hnext := hm.next_lt hj
    rw [backShift, shift, ← hm.next hj]
    by_cases hnil : (ents (m.next j)).seq = dtreeNil
    · simp [hnil, entry_eq_none.mpr hnil]
    · have hentry : entry (ents (m.next j)) =
          some ((ents (m.next j)).seq, (ents (m.next j)).record) := if_neg hnil
      have hhome : hashSeq (ents (m.next j)).seq % m.cap < m.cap := Nat.mod_lt _ hm.pos
      have hstays := staysBehind_iff hh hnext hhome
      rw [if_neg hnil, hentry, hm.home]
      by_cases hmove : dist m.cap (hashSeq (ents (m.next j)).seq % m.cap) h ≤
          dist m.cap (hashSeq (ents (m.next j)).seq % m.cap) (m.next j)
      · rw [if_neg fun h => hstays.mp h hmove, ih _ hnext hnext, entry_clear, entry_update, hentry]
        exact (if_pos hmove).symm
      · rw [if_pos (hstays.mpr hmove), ih _ hh hnext]
        exact (if_neg hmove).symm

theorem Keeps.found (hm : m.Keeps n) (seq : ℕ) :
    ∃ i found, lookup hashSeq (m.table n) seq = some (i, found) ∧
      m.findFrom seq m.cap (m.home seq) = some i ∧ Found hashSeq (m.table n) seq i found := by
  obtain ⟨i, found, hrun, hfound⟩ := lookup_spec hm.wellFormed seq
  refine ⟨i, found, hrun, ?_, hfound⟩
  rw [findFrom_eq hm.size n m.cap (hm.home_lt seq), hm.size.home]
  rw [lookup] at hrun
  exact congrArg (Option.map Prod.fst) hrun

/-- The map leads from an id to its record, and from nothing else to anything. -/
theorem get_spec (hm : m.Keeps n) (seq : ℕ) :
    ∃ r, m.get seq = some r ∧ ∀ record, r = some record ↔ m.Has seq record := by
  obtain ⟨i, found, -, hfind, hfound⟩ := hm.found seq
  refine ⟨_, by rw [get, hfind]; rfl, fun record => ?_⟩
  cases hfound with
  | hit hi hs =>
    have hslot : entry (m.ents i) = some (seq, _) := hs
    have hnil : (m.ents i).seq ≠ dtreeNil := fun h => by
      rw [entry_eq_none.mpr h] at hslot
      cases hslot
    rw [entry, if_neg hnil] at hslot
    obtain ⟨-, rfl⟩ := Prod.mk.inj (Option.some.inj hslot)
    rw [if_neg hnil, Option.some.injEq]
    constructor
    · rintro rfl
      exact ⟨i, hi, hs⟩
    · rintro hhas
      exact hm.wellFormed.has_inj ⟨i, hi, hs⟩ hhas
  | miss hi hs hno =>
    rw [if_pos (entry_eq_none.mp hs)]
    exact ⟨fun h => (nomatch h), fun h => absurd h (hno record)⟩

/-- An id that is there is taken out. -/
theorem del_spec (hm : m.Keeps n) (hhas : m.Has seq record) :
    ∃ m', m.del seq = some m' ∧ m'.Keeps (n - 1) ∧
      ∀ k v, m'.Has k v ↔ k ≠ seq ∧ m.Has k v := by
  obtain ⟨i, found, hrun, hfind, hfound⟩ := hm.found seq
  obtain ⟨t', herase, hwf', hcap', -, hhas'⟩ := erase_spec hm.wellFormed seq
  cases hfound with
  | miss hi hs hno => exact absurd hhas (hno record)
  | hit hi hs =>
    have hslot : entry (m.ents i) = some (seq, _) := hs
    have hnil : (m.ents i).seq ≠ dtreeNil := fun h => by
      rw [entry_eq_none.mpr h] at hslot
      cases hslot
    have hshift := backShift_eq hm.size m.cap (clear m.ents i) hi hi
    rw [entry_clear] at hshift
    simp only [erase, hrun, Option.bind_eq_bind, Option.bind_some, Option.isNone_some,
      Bool.false_eq_true, if_false] at herase
    obtain ⟨slots, hslots, heq⟩ := Option.bind_eq_some_iff.mp herase
    obtain ⟨ents, hents, rfl⟩ := Option.map_eq_some_iff.mp (hshift.trans hslots)
    obtain rfl := Option.some.inj heq
    refine ⟨⟨m.cap, ents⟩, ?_, ⟨hm.size, hwf', ?_⟩, hhas'⟩
    · rw [del, hfind]
      change (if _ then _ else _) = _
      rw [if_neg hnil, hents]
      rfl
    · have hhalf := hm.half
      change (n - 1) * 2 ≤ m.cap
      omega

end Thvm.Atp.FvIndex.SeqMap
