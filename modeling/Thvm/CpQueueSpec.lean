import Thvm.CpQueueRecords
import Thvm.CpQueueBinary

/-!
# What the operations do to the bag of records

The purpose of the queue as operations on a bag of whole records, and that the columns do
just that while no mark is left behind: a push adds a record, a selection takes dead ones and
the one it returns, a prune the ones above the horizon, and the other operations rewrite
records one by one.
-/

namespace Thvm

namespace Atp

namespace CpQueue

variable {P : Type} {s s' : Queue P} {cfg : Config} {w : World P}

/-- The fields that `atp_cp_before` reads. -/
def recordKey (x : CpRecord P) : Bool × ℕ × ℕ := (x.ultimate, x.pri, x.seq)

/-- A parent of the pair is dead. -/
def deadRecord (cfg : Config) (w : World P) (x : CpRecord P) : Bool :=
  cfg.useOrphanMurder && (w.orphan x.trace || w.uidOrphan x.uidA x.uidB)

/-- The keys of a record as a full reweight computes them: a deferred pair takes the priority
of its descriptor. -/
def reweigh (w : World P) (x : CpRecord P) : CpRecord P :=
  match x.implicit with
  | some d => { x with pri := d.priority }
  | none =>
    match x.packed with
    | some p =>
      { x with
        pri := if x.deprio then priNever else w.priority p
        goal := w.goalWeight p
        pri2 := w.weightBase p }
    | none => x

/-- What becomes of a record in the sweep. -/
def outcome (w : World P) (v : Verdict P) (x : CpRecord P) : Option (CpRecord P) :=
  match v with
  | .drop => none
  | .keep cookie =>
    if x.implicit.isSome then some { x with lastNorm := cookie }
    else some (reweigh w { x with lastNorm := cookie })
  | .reduce p =>
    some (reweigh w { x with packed := some p, implicit := none, lastNorm := normCookieNone })

/-- A selection of `r`: what is passed over is dead, and by weight `r` is the least pair that
is not. -/
def Selected (cfg : Config) (w : World P) (s s' : Queue P) : Option (CpRecord P) → Prop
  | some x => deadRecord cfg w x = false ∧
      (∃ dead, records s = dead + x ::ₘ records s' ∧ ∀ d ∈ dead, deadRecord cfg w d = true) ∧
      (dimension cfg w s = .weight → ∀ y ∈ records s, deadRecord cfg w y = false →
        rank cfg (recordKey x) ≤ rank cfg (recordKey y))
  | none => records s' = 0 ∧ ∀ d ∈ records s, deadRecord cfg w d = true

/-- What an operation does to the bag of records. -/
def Effect (cfg : Config) (w : World P) (op : Op P) (s s' : Queue P) (r : Option (CpRecord P)) :
    Prop :=
  match op with
  | .push p => records s' = p.record s.seqNext ::ₘ records s
  | .select => Selected cfg w s s' r
  | .prune horizon =>
    records s' = if horizon = 0xFFFFFFFF then records s
      else (records s).filter fun x => x.pri ≤ horizon
  | .setPriBySeq keys => ∃ pri : ℕ → ℕ, (∀ i, pri i = s.pri i ∨ (s.seq i, pri i) ∈ keys) ∧
      records s' = (Multiset.range s.nCps).map fun i => { s.slot i with pri := pri i }
  | .setPri2BySeq keys => ∃ pri2 : ℕ → ℕ, (∀ i, pri2 i = s.pri2 i ∨ (s.seq i, pri2 i) ∈ keys) ∧
      records s' = (Multiset.range s.nCps).map fun i => { s.slot i with pri2 := pri2 i }
  | .reheapify => records s' = (records s).map (reweigh w)
  | .sweep v =>
    records s' = if w.nRules = 0 then records s
      else (Multiset.range s.nCps).filterMap fun i => outcome w (v i) (s.slot i)

/-! ## Selection -/

theorem dimension_congr (h : s'.selectCount = s.selectCount) :
    dimension cfg w s' = dimension cfg w s := by
  unfold dimension atpCpFifoDimension
  rw [h]

theorem mem_records {x : CpRecord P} : x ∈ records s ↔ ∃ i < s.nCps, s.slot i = x := by
  rw [records, Multiset.mem_map]
  simp only [Multiset.mem_range]

/-- The queue up to its counters. -/
structure SameSlots (s t : Queue P) : Prop where
  slot : t.slot = s.slot
  nCps : t.nCps = s.nCps
  deprio : t.deprio = s.deprio
  moved : t.moved = s.moved
  compacted : t.compacted = s.compacted

namespace SameSlots

variable {t u : Queue P} {j : ℕ}

theorem records_eq (h : SameSlots s t) : records t = records s := by
  rw [records, records, h.slot, h.nCps]

theorem heapKey_eq (h : SameSlots s t) : heapKey t = heapKey s := by
  funext i
  exact congrArg recordKey (congrFun h.slot i)

theorem heapOrdered (h : SameSlots s t) (hs : HeapOrdered cfg s) : HeapOrdered cfg t :=
  hs.congr h.nCps h.heapKey_eq

/-- An extraction from the queue with other counters. -/
theorem extracts (h : SameSlots s t) (hu : Extracts t u j) :
    u.nCps = s.nCps - 1 ∧ u.deprio = s.deprio ∧ s.moved ⊆ u.moved ∧ u.compacted = s.compacted ∧
      (Agree u → records s = s.slot j ::ₘ records u) := by
  refine ⟨?_, hu.deprio.trans h.deprio, ?_, hu.compacted.trans h.compacted, fun hagree => ?_⟩
  · rw [hu.nCps, h.nCps]
  · rw [← h.moved]
    exact hu.moved
  · rw [← h.records_eq, ← h.slot]
    exact hu.records hagree

end SameSlots

theorem pick_same (cfg : Config) (w : World P) (s : Queue P) :
    SameSlots s (pick cfg w s).2 ∧ (pick cfg w s).2.selectCount = s.selectCount := by
  obtain ⟨rng, floor, hstate⟩ := pick_state cfg w s
  rw [hstate]
  exact ⟨⟨rfl, rfl, rfl, rfl, rfl⟩, rfl⟩

/-- The frame of a selection, with the heap order. -/
structure SelectFrame (cfg : Config) (s s' : Queue P) : Prop where
  heap : HeapOrdered cfg s'
  nCps : s'.nCps ≤ s.nCps
  deprio : s'.deprio = s.deprio
  moved : s.moved ⊆ s'.moved
  compacted : s'.compacted = s.compacted

/-- What a round of the selection leads to. -/
theorem selectFrom_round (hbin : cfg.kdheap = false) (rounds : ℕ) (hn : s.nCps ≠ 0)
    (hlen : s.nCps < 2 ^ 31) (h : HeapOrdered cfg s) :
    ∃ j u, j < s.nCps ∧ (dimension cfg w s = .weight → j = 0) ∧ HeapOrdered cfg u ∧
      u.nCps = s.nCps - 1 ∧ u.deprio = s.deprio ∧ s.moved ⊆ u.moved ∧
      u.compacted = s.compacted ∧ (Agree u → records s = s.slot j ::ₘ records u) ∧
      (deadRecord cfg w (s.slot j) = true ∧ u.selectCount = s.selectCount ∧
          selectFrom cfg w (rounds + 1) s = selectFrom cfg w rounds u ∨
        deadRecord cfg w (s.slot j) = false ∧
          selectFrom cfg w (rounds + 1) s = (some (s.slot j), u)) := by
  have hj := pick_lt hbin w (Nat.pos_of_ne_zero hn)
  have hweight : dimension cfg w s = .weight → (pick cfg w s).1 = 0 := by
    intro hdim
    rw [pick, hdim]
  obtain ⟨hsame, hcount⟩ := pick_same cfg w s
  rw [selectFrom, if_neg hn]
  generalize pick cfg w s = p at hj hweight hsame hcount
  obtain ⟨j, t⟩ := p
  have hdead : isOrphan cfg w t j = deadRecord cfg w (s.slot j) := by
    rw [← hsame.slot]
    rfl
  have hround : ∀ t', SameSlots s t' → Extracts t' (repair cfg (dropSlot t' j) j) j ∧
      HeapOrdered cfg (repair cfg (dropSlot t' j) j) := by
    intro t' ht'
    have hjt : j < t'.nCps := by rwa [ht'.nCps]
    exact ⟨extracts_repair hbin hjt,
      heapOrdered_extract hbin (by rwa [ht'.nCps]) hjt (ht'.heapOrdered h)⟩
  cases hd : deadRecord cfg w (s.slot j) with
  | true =>
    obtain ⟨hextract, hheap⟩ := hround t hsame
    obtain ⟨hcps, hdeprio, hmoved, hcompacted, hrecords⟩ := hsame.extracts hextract
    refine ⟨j, _, hj, hweight, hheap, hcps, hdeprio, hmoved, hcompacted, hrecords,
      .inl ⟨hd, hextract.selectCount.trans hcount, ?_⟩⟩
    simp only
    rw [hdead, hd, if_pos rfl]
  | false =>
    have hsame' : SameSlots s { t with selectCount := (t.selectCount + 1) % 2 ^ 32 } :=
      ⟨hsame.slot, hsame.nCps, hsame.deprio, hsame.moved, hsame.compacted⟩
    obtain ⟨hextract, hheap⟩ := hround _ hsame'
    obtain ⟨hcps, hdeprio, hmoved, hcompacted, hrecords⟩ := hsame'.extracts hextract
    refine ⟨j, _, hj, hweight, hheap, hcps, hdeprio, hmoved, hcompacted, hrecords,
      .inr ⟨hd, ?_⟩⟩
    simp only
    rw [hdead, hd, if_neg Bool.false_ne_true, ← hsame.slot]

theorem selectFrom_frame (hbin : cfg.kdheap = false) (rounds : ℕ) (hlen : s.nCps < 2 ^ 31)
    (h : HeapOrdered cfg s) : SelectFrame cfg s (selectFrom cfg w rounds s).2 := by
  have hrefl : ∀ s : Queue P, HeapOrdered cfg s → SelectFrame cfg s s := fun s h =>
    ⟨h, Nat.le_refl _, rfl, List.Subset.refl _, rfl⟩
  induction rounds generalizing s with
  | zero => exact hrefl s h
  | succ rounds ih =>
    by_cases hn : s.nCps = 0
    · rw [selectFrom, if_pos hn]
      exact hrefl s h
    · obtain ⟨j, u, hj, -, hheap, hcps, hdeprio, hmoved, hcompacted, -, hend⟩ :=
        selectFrom_round (w := w) hbin rounds hn hlen h
      rcases hend with ⟨-, -, hgo⟩ | ⟨-, hstop⟩
      · have hrest := ih (by omega) hheap
        rw [hgo]
        exact ⟨hrest.heap, by have := hrest.nCps; omega, hrest.deprio.trans hdeprio,
          List.Subset.trans hmoved hrest.moved, hrest.compacted.trans hcompacted⟩
      · rw [hstop]
        exact ⟨hheap, by simp only; omega, hdeprio, hmoved, hcompacted⟩

theorem selected_selectFrom (hbin : cfg.kdheap = false) (rounds : ℕ) (hrounds : s.nCps < rounds)
    (hlen : s.nCps < 2 ^ 31) (h : HeapOrdered cfg s)
    (hagree : Agree (selectFrom cfg w rounds s).2) :
    Selected cfg w s (selectFrom cfg w rounds s).2 (selectFrom cfg w rounds s).1 := by
  induction rounds generalizing s with
  | zero => omega
  | succ rounds ih =>
    by_cases hn : s.nCps = 0
    · rw [selectFrom, if_pos hn]
      have hempty : records s = 0 := by
        rw [records, hn]
        rfl
      refine ⟨hempty, fun d hd => ?_⟩
      rw [hempty] at hd
      exact absurd hd (Multiset.notMem_zero d)
    · obtain ⟨j, u, hj, hweight, hheap, hcps, hdeprio, hmoved, -, hrecords, hend⟩ :=
        selectFrom_round (w := w) hbin rounds hn hlen h
      have hroot : dimension cfg w s = .weight → ∀ y ∈ records s,
          rank cfg (recordKey (s.slot j)) ≤ rank cfg (recordKey y) := by
        intro hdim y hy
        obtain ⟨i, hi, rfl⟩ := mem_records.mp hy
        rw [hweight hdim]
        exact h.root hi
      rcases hend with ⟨hdead, hcount, hgo⟩ | ⟨hlive, hstop⟩
      · rw [hgo] at hagree ⊢
        have hframe := selectFrom_frame (w := w) hbin rounds (by omega) hheap
        have hsplit := hrecords fun p hp => by
          rw [← hframe.deprio]
          exact hagree p (hframe.moved hp)
        have hsel := ih (by omega) (by omega) hheap hagree
        generalize selectFrom cfg w rounds u = res at hsel ⊢
        obtain ⟨r, s'⟩ := res
        cases r with
        | none =>
          refine ⟨hsel.1, fun d hd => ?_⟩
          rw [hsplit] at hd
          rcases Multiset.mem_cons.mp hd with rfl | hd
          · exact hdead
          · exact hsel.2 d hd
        | some x =>
          obtain ⟨hlive, ⟨dead, hrest, hall⟩, hleast⟩ := hsel
          refine ⟨hlive, ⟨s.slot j ::ₘ dead, ?_, fun d hd => ?_⟩, fun hw y hy hlivey => ?_⟩
          · rw [hsplit, hrest, Multiset.cons_add]
          · rcases Multiset.mem_cons.mp hd with rfl | hd
            · exact hdead
            · exact hall d hd
          · rw [hsplit] at hy
            rcases Multiset.mem_cons.mp hy with rfl | hy
            · rw [hdead] at hlivey
              cases hlivey
            · exact hleast ((dimension_congr hcount).trans hw) y hy hlivey
      · rw [hstop] at hagree ⊢
        refine ⟨hlive, ⟨0, ?_, fun d hd => absurd hd (Multiset.notMem_zero d)⟩,
          fun hdim y hy _ => hroot hdim y hy⟩
        rw [Multiset.zero_add]
        exact hrecords hagree

/-! ## Push -/

theorem push_effect (hbin : cfg.kdheap = false) (p : Push P)
    (hagree : Agree (atpCpPush cfg p s)) :
    records (atpCpPush cfg p s) = p.record s.seqNext ::ₘ records s := by
  rw [atpCpPush] at hagree ⊢
  simp only [hbin, Bool.false_eq_true, if_false] at hagree ⊢
  have hup : Rearranges _ (atpCpSiftUpFrom cfg s.nCps { writeSlot s s.nCps (p.record s.seqNext) with
      nCps := s.nCps + 1
      seqNext := (s.seqNext + 1) % 2 ^ 32 } s.nCps) :=
    rearranges_siftUpFrom _ (Nat.lt_succ_self _)
  rw [atpCpSiftUp] at hagree ⊢
  rw [hup.records hagree, records, Multiset.range_succ, Multiset.map_cons]
  congr 1
  · simp only [Queue.slot, writeSlot, setCol, if_true, Push.record]
    cases p.packed <;> rfl
  · refine map_range_congr fun m hm => ?_
    have hne : m ≠ s.nCps := by omega
    simp [Queue.slot, writeSlot, setCol, hne]

/-! ## Prunes -/

/-- The frame of a prune: what is left is the part of the bag up to the horizon. -/
structure Pruned (horizon : ℕ) (s s' : Queue P) : Prop where
  nCps : s'.nCps ≤ s.nCps
  deprio : s'.deprio = s.deprio
  moved : s.moved ⊆ s'.moved
  compacted : s'.compacted = s.compacted
  records : Agree s' → records s' = (CpQueue.records s).filter fun x => x.pri ≤ horizon

theorem pruneFrom_spec (horizon rounds : ℕ) {i : ℕ} (hi : i ≤ s.nCps)
    (hrounds : i + s.nCps ≤ rounds) (hkept : ∀ k, i ≤ k → k < s.nCps → s.pri k ≤ horizon) :
    Pruned horizon s (pruneFrom horizon rounds s i) := by
  have hall : ∀ t : Queue P, (∀ k < t.nCps, t.pri k ≤ horizon) → Pruned horizon t t := by
    intro t ht
    refine ⟨Nat.le_refl _, rfl, List.Subset.refl _, rfl, fun _ => ?_⟩
    rw [eq_comm, Multiset.filter_eq_self]
    intro x hx
    obtain ⟨k, hk, rfl⟩ := mem_records.mp hx
    exact ht k hk
  induction rounds generalizing s i with
  | zero => exact hall s fun k hk => hkept k (by omega) hk
  | succ rounds ih =>
    cases i with
    | zero => exact hall s fun k hk => hkept k (Nat.zero_le k) hk
    | succ i =>
      rw [pruneFrom]
      split
      · rename_i hle
        refine ih (by omega) (by omega) fun k hk hkn => ?_
        rcases Nat.eq_or_lt_of_le hk with rfl | hlt
        · exact hle
        · exact hkept k hlt hkn
      · rename_i hgt
        have hdrop := extracts_dropSlot (show i < s.nCps by omega)
        have hcps := hdrop.nCps
        simp only
        have hrest : Pruned horizon (dropSlot s i) (pruneFrom horizon rounds (dropSlot s i)
            (if i < (dropSlot s i).nCps then i + 1 else i)) := by
          refine ih ?_ ?_ fun k hk hkn => ?_
          · split <;> omega
          · split <;> omega
          · -- slots from `i` on come from behind it
            rw [hcps] at hkn
            have hkept' : (dropSlot s i).pri k ≤ horizon := by
              by_cases hki : k = i
              · subst hki
                rw [if_pos (by omega)] at hk
                omega
              · have hkey : (dropSlot s i).pri k = s.pri k := by
                  unfold dropSlot
                  split
                  · simp [backfill, emptySlot, setCol, hki]
                  · rfl
                rw [hkey]
                refine hkept k ?_ (by omega)
                split at hk <;> omega
            exact hkept'
        refine ⟨?_, hrest.deprio.trans hdrop.deprio, List.Subset.trans hdrop.moved hrest.moved,
          hrest.compacted.trans hdrop.compacted, fun hagree => ?_⟩
        · have := hrest.nCps
          omega
        · have hmid : Agree (dropSlot s i) := by
            intro p hp
            rw [← hrest.deprio]
            exact hagree p (hrest.moved hp)
          rw [hrest.records hagree, hdrop.records hmid, Multiset.filter_cons_of_neg]
          exact hgt

theorem prune_effect (horizon : ℕ) (hagree : Agree (atpLrsPrune cfg horizon s)) :
    records (atpLrsPrune cfg horizon s) = if horizon = 0xFFFFFFFF then records s
      else (records s).filter fun x => x.pri ≤ horizon := by
  rw [atpLrsPrune] at hagree ⊢
  split
  · rfl
  · rename_i hne
    rw [if_neg hne] at hagree
    have hprune := pruneFrom_spec (s := s) horizon (2 * s.nCps) (Nat.le_refl _) (by omega)
      fun k hk hkn => absurd hkn (by omega)
    simp only at hagree ⊢
    split
    · rename_i hmany
      rw [if_pos hmany] at hagree
      have hre := rearranges_reorder cfg (pruneFrom horizon (2 * s.nCps) s s.nCps)
      rw [hre.records hagree]
      exact hprune.records (hre.agree hagree)
    · rename_i hfew
      rw [if_neg hfew] at hagree
      exact hprune.records hagree

/-! ## New keys -/

theorem seqSlot_spec {seq i : ℕ} (h : seqSlot s seq = some i) : i < s.nCps ∧ s.seq i = seq := by
  unfold seqSlot at h
  split at h
  · cases h
  · have hmem := List.mem_of_find?_eq_some h
    have hfound := List.find?_some h
    exact ⟨List.mem_range.mp hmem, of_decide_eq_true hfound⟩

/-- A column with a value written for a key, if the key has a slot. -/
def writeKey (find : ℕ → Option ℕ) (col : ℕ → ℕ) (key : ℕ × ℕ) : ℕ → ℕ :=
  match find key.1 with
  | some i => setCol col i key.2
  | none => col

/-- What is written to a slot is given for its key. -/
theorem foldl_writeKey {find : ℕ → Option ℕ} {seq : ℕ → ℕ}
    (hfind : ∀ n i, find n = some i → seq i = n) (keys : List (ℕ × ℕ)) (col : ℕ → ℕ) (i : ℕ) :
    keys.foldl (writeKey find) col i = col i ∨ (seq i, keys.foldl (writeKey find) col i) ∈ keys := by
  induction keys generalizing col with
  | nil => exact .inl rfl
  | cons key keys ih =>
    rw [List.foldl_cons]
    rcases ih (writeKey find col key) with hsame | hnew
    · rw [hsame]
      cases hk : find key.1 with
      | none => exact .inl (by simp [writeKey, hk])
      | some k =>
        by_cases hik : i = k
        · refine .inr (List.mem_cons.mpr (.inl ?_))
          rw [hik, hfind _ _ hk]
          simp [writeKey, hk, setCol]
        · exact .inl (by simp [writeKey, hk, setCol, hik])
    · exact .inr (List.mem_cons_of_mem _ hnew)

theorem seq_of_seqSlot (s : Queue P) (n i : ℕ) (h : seqSlot s n = some i) : s.seq i = n :=
  (seqSlot_spec h).2

theorem setPri_eq (s : Queue P) (key : ℕ × ℕ) :
    setPri s key = { s with pri := writeKey (seqSlot s) s.pri key } := by
  cases hk : seqSlot s key.1 <;> simp [setPri, writeKey, hk]

theorem setPri2_eq (s : Queue P) (key : ℕ × ℕ) :
    setPri2 s key = { s with pri2 := writeKey (seqSlot s) s.pri2 key } := by
  cases hk : seqSlot s key.1 <;> simp [setPri2, writeKey, hk]

/-- Only priorities are written, and a new one is given for the age of its slot. -/
theorem foldl_setPri (keys : List (ℕ × ℕ)) (s : Queue P) :
    ∃ pri : ℕ → ℕ, keys.foldl setPri s = { s with pri := pri } ∧
      ∀ i, pri i = s.pri i ∨ (s.seq i, pri i) ∈ keys := by
  refine ⟨keys.foldl (writeKey (seqSlot s)) s.pri, ?_, foldl_writeKey (seq_of_seqSlot s) keys s.pri⟩
  induction keys generalizing s with
  | nil => rfl
  | cons key keys ih =>
    rw [List.foldl_cons, ih, setPri_eq]
    rfl

theorem foldl_setPri2 (keys : List (ℕ × ℕ)) (s : Queue P) :
    ∃ pri2 : ℕ → ℕ, keys.foldl setPri2 s = { s with pri2 := pri2 } ∧
      ∀ i, pri2 i = s.pri2 i ∨ (s.seq i, pri2 i) ∈ keys := by
  refine ⟨keys.foldl (writeKey (seqSlot s)) s.pri2, ?_,
    foldl_writeKey (seq_of_seqSlot s) keys s.pri2⟩
  induction keys generalizing s with
  | nil => rfl
  | cons key keys ih =>
    rw [List.foldl_cons, ih, setPri2_eq]
    rfl

theorem slot_rebuildSlot (i m : ℕ) :
    (rebuildSlot w s i).slot m = if m = i then reweigh w (s.slot i) else s.slot m := by
  unfold rebuildSlot
  split
  · rename_i himp
    split
    · rename_i hm
      subst hm
      simp [Queue.slot, reweigh, setCol, himp]
    · rename_i hm
      simp [Queue.slot, setCol, hm]
  · rename_i himp
    split
    · rename_i p hp
      split
      · rename_i hm
        subst hm
        simp [Queue.slot, reweigh, setKeys, setCol, himp, hp]
      · rename_i hm
        simp only [Queue.slot, setKeys, setCol, hm, if_false]
        rfl
    · rename_i hp
      split
      · rename_i hm
        subst hm
        simp [Queue.slot, reweigh, himp, hp]
      · rfl

/-- The loop over the first `k` slots. -/
theorem foldl_rebuildSlot (k : ℕ) (s : Queue P) :
    let t := (List.range k).foldl (rebuildSlot w) s
    t.nCps = s.nCps ∧ t.deprio = s.deprio ∧ t.moved = s.moved ∧ t.compacted = s.compacted ∧
      ∀ m, t.slot m = if m < k then reweigh w (s.slot m) else s.slot m := by
  induction k with
  | zero => exact ⟨rfl, rfl, rfl, rfl, fun m => by rw [if_neg (Nat.not_lt_zero m)]; rfl⟩
  | succ k ih =>
    obtain ⟨hcps, hdeprio, hmoved, hcompacted, hslot⟩ := ih
    rw [List.range_succ, List.foldl_append]
    simp only [List.foldl_cons, List.foldl_nil]
    generalize (List.range k).foldl (rebuildSlot w) s = t at hcps hdeprio hmoved hcompacted hslot
    have hframe : (rebuildSlot w t k).nCps = t.nCps ∧ (rebuildSlot w t k).deprio = t.deprio ∧
        (rebuildSlot w t k).moved = t.moved ∧ (rebuildSlot w t k).compacted = t.compacted := by
      unfold rebuildSlot
      split
      · exact ⟨rfl, rfl, rfl, rfl⟩
      · split <;> exact ⟨rfl, rfl, rfl, rfl⟩
    refine ⟨hframe.1.trans hcps, hframe.2.1.trans hdeprio, hframe.2.2.1.trans hmoved,
      hframe.2.2.2.trans hcompacted, fun m => ?_⟩
    rw [slot_rebuildSlot]
    split
    · rename_i hm
      subst hm
      rw [hslot, if_neg (Nat.lt_irrefl m), if_pos (Nat.lt_succ_self m)]
    · rename_i hm
      rw [hslot]
      by_cases hlt : m < k
      · rw [if_pos hlt, if_pos (by omega)]
      · rw [if_neg hlt, if_neg (by omega)]

theorem reheapify_effect (hagree : Agree (thvmAtpCpReheapify cfg w s)) :
    records (thvmAtpCpReheapify cfg w s) = (records s).map (reweigh w) := by
  obtain ⟨hcps, hdeprio, hmoved, hcompacted, hslot⟩ := foldl_rebuildSlot (w := w) s.nCps s
  rw [thvmAtpCpReheapify] at hagree ⊢
  rw [(rearranges_floydOnly cfg _).records hagree, records, records, Multiset.map_map,
    atpCpRebuildPriorities, hcps]
  refine map_range_congr fun m hm => ?_
  rw [hslot, if_pos hm]
  rfl

end CpQueue

end Atp

end Thvm
