import Thvm.SubsumptionMap
import Thvm.SubsumptionPairs
import Thvm.TransitionRuns

/-!
# The index and the scan

After any sequence of insertions and removals the index stands for the pairs that were inserted
and not removed. It answers like the scan over them, for a candidate that can be told apart from
each of them.
-/

namespace Thvm.Atp.FvIndex
open Acp DiscriminationTree AtpFvIndex TransitionRuns

/-- A pair of the queue. -/
structure CpPair where
  lhs : CpTerm
  rhs : CpTerm
  packed : List UInt8
  seq : ℕ

namespace CpPair

/-- The sides are terms, and the bytes are those that they are packed to. -/
structure Ok (e : CpPair) : Prop where
  firstOrder : FirstOrder e.lhs e.rhs
  packed : ∃ (rounds : ℕ) (cap : ScratchCap) (p : Packed),
    acpPack rounds cap e.lhs e.rhs = some p ∧ e.packed = p.bytes

/-- The record of the pair as long as it is in the queue. -/
def record (e : CpPair) : DtRec := ⟨e.packed, e.seq, true, (pairMap e.lhs e.rhs).folded⟩

def string (e : CpPair) : List ℕ := cpSym :: pairSyms e.lhs e.rhs

/-- `acp_match_pair` accepts the candidate. -/
def Matches (e : CpPair) (ql qr : CpTerm) : Prop := matchesPair e.packed ql qr = true

variable {e : CpPair} {ql qr : CpTerm}

/-- A term that is small has no label with too many arguments. -/
theorem aritiesBelow_of_size {n : ℕ} {t : CpTerm} (h : t.size ≤ n) : AritiesBelow n t := by
  induction t using TermTree.induct with
  | leaf l => exact .leaf l
  | node f args ih =>
    rw [TermTree.size_node] at h
    have hlen : args.length ≤ (args.map TermTree.size).sum := by
      have hsum := List.length_le_sum_of_one_le (args.map TermTree.size) fun n hn => by
        obtain ⟨a, -, rfl⟩ := List.mem_map.mp hn
        exact TermTree.size_pos a
      rwa [List.length_map] at hsum
    refine .node (by omega) fun a ha => ih a ha ?_
    have hle := TermTree.size_le_sum ha
    omega

/-- The packed matcher decides whether the pair matches. -/
theorem Ok.matches_iff (h : e.Ok) : e.Matches ql qr ↔
    ∃ σ, thvmMatchPair e.lhs e.rhs ql qr (fun _ => none) = (true, σ) := by
  obtain ⟨rounds, cap, p, hpack, hbytes⟩ := h.packed
  obtain ⟨hfits, hpacking, -⟩ := acpPack_spec hpack
  obtain ⟨hfitsl, hfitsr⟩ := fits_append.mp hfits
  have hlenl := hfitsl.length_le (fun rec hrec => (length_record e.lhs rec hrec).2) (Nat.zero_le _)
  have hlenr := hfitsr.length_le (fun rec hrec => (length_record e.rhs rec hrec).2) hlenl
  have hsizel := size_le_length_packing e.lhs
  have hsizer := size_le_length_packing e.rhs
  rw [packing] at hsizel hsizer
  have hl : AritiesBelow (2 ^ 32) e.lhs := aritiesBelow_of_size (by omega)
  have hr : AritiesBelow (2 ^ 32) e.rhs := aritiesBelow_of_size (by omega)
  rw [Matches, matchesPair, hbytes, hpacking, acpMatchPair_packing hl hr, Option.any_some]
  constructor
  · exact fun h => ⟨_, Prod.ext h rfl⟩
  · rintro ⟨σ, hσ⟩
    rw [hσ]

end CpPair

variable {l r ql qr : CpTerm} {e : CpPair} {ix : AtpFvIndex} {store : List CpPair}

theorem mem_swap {x : Atom} (h : x ∈ qr.leaves ++ ql.leaves) : x ∈ ql.leaves ++ qr.leaves :=
  List.mem_append.mpr (List.mem_append.mp h).symm

theorem Plain.swap (h : Plain l r ql qr) : Plain l r qr ql := by
  obtain ⟨ar, hl, hr, hql, hqr⟩ := h.arity
  exact ⟨⟨ar, hl, hr, hqr, hql⟩, h.numbers.imp_right fun h x hx => h x (mem_swap hx),
    h.repeats.imp_right fun h x hx y hy => h x (mem_swap hx) y (mem_swap hy)⟩

theorem Wide.swap (h : Wide ql qr) : Wide qr ql := by
  obtain ⟨i, hi, hwide⟩ := h
  exact ⟨i, List.mem_append.mpr (List.mem_append.mp hi).symm, hwide⟩

/-- Nothing depends on the orientation of the candidate. -/
theorem Legible.swap (h : Legible l r ql qr) : Legible l r qr ql :=
  h.imp_right (And.imp_right (Or.imp Wide.swap Plain.swap))

/-- At the leaf of a pair the answer is that of the matcher. -/
theorem leaf_exact (h : e.Ok) (hcand : FirstOrder ql qr) (hlegible : Legible e.lhs e.rhs ql qr) :
    ((pairMap e.lhs e.rhs).folded = false ∧ (pairMap ql qr).folded = false ∨ e.Matches ql qr) ∧
        Reads starIndex (pairFlat ql qr) atpDtDescentDepthCap (pairSyms e.lhs e.rhs) 1 0
          (fun _ => 0) ↔ e.Matches ql qr := by
  have hnot : ∀ {l r : CpTerm}, FirstOrder l r → (pairMap l r).folded = false → ¬ Wide l r :=
    fun hfo hfalse hwide => by
      rw [(folded_iff hfo).mpr hwide] at hfalse
      cases hfalse
  constructor
  · rintro ⟨⟨hpair, hquery⟩ | hmatch, hreads⟩
    · have hplain := (hlegible.resolve_left (hnot h.firstOrder hpair)).2.resolve_left
        (hnot hcand hquery)
      exact h.matches_iff.mpr (match_pair h.firstOrder hcand (hnot h.firstOrder hpair)
        (hnot hcand hquery) hplain hreads)
    · exact hmatch
  · intro hmatch
    refine ⟨.inr hmatch, ?_⟩
    obtain ⟨σ, hσ⟩ := h.matches_iff.mp hmatch
    have hsmall : ¬ Wide e.lhs e.rhs := fun ⟨i, hi, hwide⟩ =>
      absurd (not_wide_of_match hσ i hi) (Nat.not_lt.mpr hwide)
    exact reads_pair (hlegible.resolve_left hsmall).1 hσ

/-! ## What the index keeps -/

/-- The index stands for the pairs of the queue. -/
structure Tracks (ix : AtpFvIndex) (store : List CpPair) : Prop where
  ascending : ix.root.Ascending
  bounded : ∀ w rec, ix.root.Holds w rec → rec < ix.recs.length
  live : ∀ (rec : ℕ) rc, ix.recs[rec]? = some rc → rc.live = true →
    ∃ e ∈ store, rc = e.record ∧ ∀ w, ix.root.Holds w rec ↔ w = e.string
  kept : ∀ e ∈ store, ∃ rec : ℕ, ix.recs[rec]? = some e.record
  map : ix.seqmap.Keeps ix.nLive
  has : ∀ seq rec, ix.seqmap.Has seq rec ↔
    ∃ e ∈ store, e.seq = seq ∧ ix.recs[rec]? = some e.record
  count : ix.nLive = store.length
  seqs : (store.map CpPair.seq).Nodup
  pairs : ∀ e ∈ store, e.Ok

theorem Tracks.eq_of_seq (h : Tracks ix store) {e e' : CpPair} (he : e ∈ store) (he' : e' ∈ store)
    (hseq : e.seq = e'.seq) : e = e' :=
  List.inj_on_of_nodup_map h.seqs he he' hseq

theorem leafMatch_iff {queryFolded : Bool} {rec : ℕ} : ix.leafMatch queryFolded ql qr rec = true ↔
    ∃ rc, ix.recs[rec]? = some rc ∧ rc.live = true ∧
      (rc.folded = false ∧ queryFolded = false ∨ matchesPair rc.packed ql qr = true) := by
  rw [leafMatch]
  cases ix.recs[rec]? with
  | none => simp
  | some rc => simp

/-- The records that the tree leads to are those of the pairs that are read off it. -/
theorem Tracks.descend_iff (h : Tracks ix store) (flat : List (ℕ × ℕ)) (queryFolded : Bool) :
    (∃ w rec, ix.root.Holds (cpSym :: w) rec ∧ ix.leafMatch queryFolded ql qr rec = true ∧
        Reads starIndex flat atpDtDescentDepthCap w 1 0 fun _ => 0) ↔
      ∃ e ∈ store, ((pairMap e.lhs e.rhs).folded = false ∧ queryFolded = false ∨
          e.Matches ql qr) ∧
        Reads starIndex flat atpDtDescentDepthCap (pairSyms e.lhs e.rhs) 1 0 fun _ => 0 := by
  constructor
  · rintro ⟨w, rec, hheld, hleaf, hreads⟩
    obtain ⟨rc, hrc, hlive, hok⟩ := leafMatch_iff.mp hleaf
    obtain ⟨e, he, rfl, hstring⟩ := h.live rec rc hrc hlive
    obtain ⟨-, rfl⟩ := List.cons.inj ((hstring _).mp hheld)
    exact ⟨e, he, hok, hreads⟩
  · rintro ⟨e, he, hok, hreads⟩
    obtain ⟨rec, hrec⟩ := h.kept e he
    obtain ⟨e', he', hrecord, hstring⟩ := h.live rec e.record hrec rfl
    obtain rfl := h.eq_of_seq he he' (congrArg DtRec.seq hrecord)
    exact ⟨_, rec, (hstring _).mpr rfl, leafMatch_iff.mpr ⟨_, hrec, rfl, hok⟩, hreads⟩

theorem Tracks.queryOrient_iff (h : Tracks ix store) (hcand : FirstOrder ql qr)
    (hlegible : TooLong ql qr ∨ ∀ e ∈ store, Legible e.lhs e.rhs ql qr) :
    ix.queryOrient ql qr = true ↔ ∃ e ∈ store, e.Matches ql qr := by
  rw [queryOrient, flattenPair_eq]
  by_cases hlong : atpDtFlatCap < 1 + ql.size + qr.size
  · rw [if_pos hlong]
    simp only [List.any_eq_true, Bool.and_eq_true]
    constructor
    · rintro ⟨rc, hrc, hlive, hmatch⟩
      obtain ⟨rec, hrec⟩ := List.mem_iff_getElem?.mp hrc
      obtain ⟨e, he, rfl, -⟩ := h.live rec rc hrec hlive
      exact ⟨e, he, hmatch⟩
    · rintro ⟨e, he, hmatch⟩
      obtain ⟨rec, hrec⟩ := h.kept e he
      exact ⟨_, List.mem_of_getElem? hrec, rfl, hmatch⟩
  · rw [if_neg hlong]
    have hexact : (∃ e ∈ store, ((pairMap e.lhs e.rhs).folded = false ∧
          (pairMap ql qr).folded = false ∨ e.Matches ql qr) ∧
        Reads starIndex (pairFlat ql qr) atpDtDescentDepthCap (pairSyms e.lhs e.rhs) 1 0
          fun _ => 0) ↔ ∃ e ∈ store, e.Matches ql qr :=
      exists_congr fun e => and_congr_right fun he =>
        leaf_exact (h.pairs e he) hcand (hlegible.resolve_left hlong e he)
    rw [← hexact, ← h.descend_iff]
    simp only [Forest.holds_cons_iff h.ascending]
    cases hfind : ix.root.find cpSym with
    | none =>
      constructor
      · intro h
        cases h
      · rintro ⟨w, rec, ⟨recs, child, hfound, -⟩, -⟩
        cases hfound
    | some node =>
      obtain ⟨recs, child⟩ := node
      have hasc := Forest.Ascending.of_find h.ascending hfind
      rw [descendRec_iff fun hq hspan => descendChildren_answers child hasc hq hspan]
      constructor
      · rintro ⟨-, w, rec, hheld, hok, hreads⟩
        exact ⟨w, rec, ⟨recs, child, rfl, hheld⟩, hok, hreads⟩
      · rintro ⟨w, rec, ⟨recs', child', hfound, hheld⟩, hok, hreads⟩
        obtain ⟨rfl, rfl⟩ := Prod.mk.inj (Option.some.inj hfound)
        exact ⟨by decide, w, rec, hheld, hok, hreads⟩

/-! ## Steps -/

theorem tracks_empty {ix : AtpFvIndex} (hroot : ix.root = .nil) (hrecs : ix.recs = [])
    (hlive : ix.nLive = 0) (hmap : ix.seqmap.Keeps 0) (hhas : ∀ seq rec, ¬ ix.seqmap.Has seq rec) :
    Tracks ix [] where
  ascending := by rw [hroot]; trivial
  bounded w rec h := by rw [hroot] at h; exact h.elim
  live rec rc h := by rw [hrecs] at h; cases h
  kept e he := nomatch he
  map := by rwa [hlive]
  has seq rec := ⟨fun h => absurd h (hhas seq rec), fun ⟨_, he, _⟩ => nomatch he⟩
  count := hlive
  seqs := List.nodup_nil
  pairs e he := nomatch he

/-- What an operation does to the queue. -/
def storeStep (store : List CpPair) : FvOp → List CpPair
  | .insert lhs rhs packed seq => store ++ [⟨lhs, rhs, packed, seq⟩]
  | .remove seq => store.filter fun e => e.seq ≠ seq
  | .reset => []

/-- A pair comes with its bytes and with an id that no other pair has; the id is not the one of
an empty slot, and the table can still be doubled. -/
def Allowed (store : List CpPair) : FvOp → Prop
  | .insert lhs rhs packed seq =>
    CpPair.Ok ⟨lhs, rhs, packed, seq⟩ ∧ seq ∉ store.map CpPair.seq ∧ seq ≠ dtreeNil ∧
      store.length < 2 ^ 30
  | _ => True

theorem Tracks.insert (h : Tracks ix store) {lhs rhs : CpTerm} {packed : List UInt8} {seq : ℕ}
    (hop : Allowed store (.insert lhs rhs packed seq)) :
    ∃ ix', ix.insert lhs rhs packed seq = some ix' ∧
      Tracks ix' (storeStep store (.insert lhs rhs packed seq)) := by
  obtain ⟨hok, hnew, hne, hroom⟩ := hop
  let e : CpPair := ⟨lhs, rhs, packed, seq⟩
  have habsent : ∀ rec, ¬ ix.seqmap.Has seq rec := by
    intro rec hrec
    obtain ⟨e', he', hseq, -⟩ := (h.has seq rec).mp hrec
    exact hnew (List.mem_map.mpr ⟨e', he', hseq⟩)
  have hlive : ix.nLive < 2 ^ 30 := by rw [h.count]; exact hroom
  obtain ⟨m', hput, hkeeps, hhas⟩ := SeqMap.put_spec h.map hlive hne habsent ix.recs.length
  obtain ⟨hlhs, hrhs⟩ := insertSyms_pair lhs rhs
  have hmod : (ix.nLive + 1) % 2 ^ 32 = ix.nLive + 1 := Nat.mod_eq_of_lt (by omega)
  refine ⟨⟨ix.root.insert ix.recs.length cpSym (pairSyms lhs rhs), ix.recs ++ [e.record],
    ix.nLive + 1, m'⟩, ?_, ?_⟩
  · rw [AtpFvIndex.insert, hlhs]
    simp only [hrhs, hput, hmod]
    rfl
  have hold : ∀ {rec : ℕ}, rec < ix.recs.length →
      (ix.recs ++ [e.record])[rec]? = ix.recs[rec]? := fun hlt => List.getElem?_append_left hlt
  have hlast : (ix.recs ++ [e.record])[ix.recs.length]? = some e.record := by simp
  have hlt : ∀ {rec : ℕ} {rc}, ix.recs[rec]? = some rc → rec < ix.recs.length := fun hrc =>
    (List.getElem?_eq_some_iff.mp hrc).1
  have hholds : ∀ {w rec}, (ix.root.insert ix.recs.length cpSym (pairSyms lhs rhs)).Holds w rec ↔
      w = e.string ∧ rec = ix.recs.length ∨ ix.root.Holds w rec := Forest.holds_insert
  refine ⟨h.ascending.insert _ _ _, ?_, ?_, ?_, hkeeps, ?_, ?_, ?_, ?_⟩
  · intro w rec hheld
    rw [List.length_append, List.length_singleton]
    rcases hholds.mp hheld with ⟨-, rfl⟩ | hheld
    · exact Nat.lt_succ_self _
    · exact Nat.lt_succ_of_lt (h.bounded w rec hheld)
  · intro rec rc hrc hrclive
    dsimp only at hrc
    by_cases hrec : rec < ix.recs.length
    · rw [hold hrec] at hrc
      obtain ⟨e', he', hrecord, hstring⟩ := h.live rec rc hrc hrclive
      refine ⟨e', List.mem_append_left _ he', hrecord, fun w => ?_⟩
      rw [hholds, or_iff_right fun h => Nat.ne_of_lt hrec h.2]
      exact hstring w
    · have heq : rec = ix.recs.length := by
        have := (List.getElem?_eq_some_iff.mp hrc).1
        rw [List.length_append, List.length_singleton] at this
        omega
      subst heq
      rw [hlast] at hrc
      obtain rfl := Option.some.inj hrc
      refine ⟨e, List.mem_append_right _ (List.mem_singleton_self e), rfl, fun w => ?_⟩
      rw [hholds]
      exact ⟨fun hw => hw.elim And.left fun hheld => absurd (h.bounded _ _ hheld) (lt_irrefl _),
        fun hw => .inl ⟨hw, rfl⟩⟩
  · intro e' he'
    rcases List.mem_append.mp he' with he' | he'
    · obtain ⟨rec, hrec⟩ := h.kept e' he'
      exact ⟨rec, (hold (hlt hrec)).trans hrec⟩
    · obtain rfl := List.mem_singleton.mp he'
      exact ⟨_, hlast⟩
  · intro k rec
    rw [hhas, h.has]
    constructor
    · rintro (⟨rfl, rfl⟩ | ⟨e', he', hseq, hrec⟩)
      · exact ⟨e, List.mem_append_right _ (List.mem_singleton_self e), rfl, hlast⟩
      · exact ⟨e', List.mem_append_left _ he', hseq, (hold (hlt hrec)).trans hrec⟩
    · rintro ⟨e', he', rfl, hrec⟩
      dsimp only at hrec
      by_cases hin : rec < ix.recs.length
      · rw [hold hin] at hrec
        rcases List.mem_append.mp he' with he' | he'
        · exact .inr ⟨e', he', rfl, hrec⟩
        · obtain rfl := List.mem_singleton.mp he'
          obtain ⟨e'', he'', hrecord, -⟩ := h.live rec _ hrec rfl
          exact absurd (List.mem_map.mpr ⟨e'', he'', (congrArg DtRec.seq hrecord).symm⟩) hnew
      · have heq : rec = ix.recs.length := by
          have := (List.getElem?_eq_some_iff.mp hrec).1
          rw [List.length_append, List.length_singleton] at this
          omega
        subst heq
        rw [hlast] at hrec
        exact .inl ⟨congrArg DtRec.seq (Option.some.inj hrec), rfl⟩
  · change ix.nLive + 1 = (store ++ [e]).length
    rw [h.count, List.length_append, List.length_singleton]
  · change ((store ++ [e]).map CpPair.seq).Nodup
    rw [List.map_append, List.map_singleton, List.nodup_append]
    refine ⟨h.seqs, List.nodup_singleton _, fun k hk k' hk' => ?_⟩
    rintro rfl
    have hseq : k = seq := List.mem_singleton.mp hk'
    exact hnew (hseq ▸ hk)
  · intro e' he'
    rcases List.mem_append.mp he' with he' | he'
    · exact h.pairs e' he'
    · obtain rfl := List.mem_singleton.mp he'
      exact hok

/-- Taking out one id takes out one pair. -/
theorem length_filter_seq {e : CpPair} (hnodup : (store.map CpPair.seq).Nodup) (he : e ∈ store) :
    (store.filter fun e' => e'.seq ≠ e.seq).length = store.length - 1 := by
  induction store with
  | nil => cases he
  | cons e' store ih =>
    rw [List.map_cons, List.nodup_cons] at hnodup
    rcases List.mem_cons.mp he with rfl | he
    · have hrest : store.filter (fun e' => e'.seq ≠ e.seq) = store :=
        List.filter_eq_self.mpr fun e' he' => by
          simp only [decide_eq_true_eq]
          exact fun h => hnodup.1 (List.mem_map.mpr ⟨e', he', h⟩)
      rw [List.filter_cons_of_neg (by simp), hrest]
      rfl
    · have hne : e'.seq ≠ e.seq := fun h => hnodup.1 (List.mem_map.mpr ⟨e, he, h.symm⟩)
      have hpos := List.length_pos_of_mem he
      rw [List.filter_cons_of_pos (by simpa using hne), List.length_cons, ih hnodup.2 he,
        List.length_cons]
      omega

theorem Tracks.remove (h : Tracks ix store) (seq : ℕ) :
    ∃ ix', ix.remove seq = some ix' ∧ Tracks ix' (storeStep store (.remove seq)) := by
  obtain ⟨found, hget, hfound⟩ := SeqMap.get_spec h.map seq
  cases found with
  | none =>
    have hstore : storeStep store (.remove seq) = store := by
      refine List.filter_eq_self.mpr fun e he => ?_
      simp only [decide_eq_true_eq]
      rintro rfl
      obtain ⟨rec, hrec⟩ := h.kept e he
      exact nomatch (hfound rec).mpr ((h.has e.seq rec).mpr ⟨e, he, rfl, hrec⟩)
    refine ⟨ix, ?_, by rwa [hstore]⟩
    rw [AtpFvIndex.remove, hget]
    rfl
  | some rec =>
    have hhas := (hfound rec).mp rfl
    obtain ⟨e, he, rfl, hrec⟩ := (h.has seq rec).mp hhas
    obtain ⟨m', hdel, hkeeps, hhas'⟩ := SeqMap.del_spec h.map hhas
    have hkill : ix.kill rec = { ix with
        recs := ix.recs.set rec { e.record with live := false }, nLive := ix.nLive - 1 } := by
      rw [kill, hrec]
      exact if_pos rfl
    have hlt : rec < ix.recs.length := (List.getElem?_eq_some_iff.mp hrec).1
    have hset : ∀ {rec' : ℕ}, rec' ≠ rec →
        (ix.recs.set rec { e.record with live := false })[rec']? = ix.recs[rec']? := fun hne =>
      List.getElem?_set_ne hne.symm
    have hdead : (ix.recs.set rec { e.record with live := false })[rec]? =
        some { e.record with live := false } := List.getElem?_set_self hlt
    -- a record of another pair stands elsewhere
    have hother : ∀ {e' : CpPair} {rec' : ℕ}, e'.seq ≠ e.seq → ix.recs[rec']? = some e'.record →
        rec' ≠ rec := by
      rintro e' rec' hseq hrec' rfl
      exact hseq (congrArg DtRec.seq (Option.some.inj (hrec'.symm.trans hrec)))
    have hmem : ∀ {e' : CpPair}, e' ∈ storeStep store (.remove e.seq) ↔
        e' ∈ store ∧ e'.seq ≠ e.seq := by
      intro e'
      rw [storeStep, List.mem_filter, decide_eq_true_eq]
    refine ⟨{ ix.kill rec with seqmap := m' }, ?_, ?_⟩
    · rw [AtpFvIndex.remove, hget]
      change (do
        let seqmap ← ix.seqmap.del e.seq
        some { ix.kill rec with seqmap := seqmap }) = _
      rw [hdel]
      rfl
    rw [hkill]
    refine ⟨h.ascending, ?_, ?_, ?_, hkeeps, ?_, ?_, ?_, ?_⟩
    · intro w rec' hheld
      rw [List.length_set]
      exact h.bounded w rec' hheld
    · intro rec' rc hrc hlive
      dsimp only at hrc
      by_cases hne : rec' = rec
      · subst hne
        rw [hdead] at hrc
        obtain rfl := Option.some.inj hrc
        cases hlive
      · rw [hset hne] at hrc
        obtain ⟨e', he', hrecord, hstring⟩ := h.live rec' rc hrc hlive
        refine ⟨e', hmem.mpr ⟨he', fun hseq => ?_⟩, hrecord, hstring⟩
        have hhas₂ : ix.seqmap.Has e.seq rec' :=
          (h.has e.seq rec').mpr ⟨e', he', hseq, by rw [hrc, hrecord]⟩
        exact hne (h.map.wellFormed.has_inj hhas₂ hhas)
    · intro e' he'
      obtain ⟨he', hseq⟩ := hmem.mp he'
      obtain ⟨rec', hrec'⟩ := h.kept e' he'
      exact ⟨rec', (hset (hother hseq hrec')).trans hrec'⟩
    · intro k rec'
      rw [hhas', h.has]
      constructor
      · rintro ⟨hk, e', he', rfl, hrec'⟩
        exact ⟨e', hmem.mpr ⟨he', hk⟩, rfl, (hset (hother hk hrec')).trans hrec'⟩
      · rintro ⟨e', he', rfl, hrec'⟩
        obtain ⟨he', hseq⟩ := hmem.mp he'
        refine ⟨hseq, e', he', rfl, ?_⟩
        dsimp only at hrec'
        by_cases hne : rec' = rec
        · subst hne
          rw [hdead] at hrec'
          exact absurd (congrArg DtRec.live (Option.some.inj hrec')) Bool.noConfusion
        · rwa [hset hne] at hrec'
    · change ix.nLive - 1 = (store.filter fun e' => e'.seq ≠ e.seq).length
      rw [length_filter_seq h.seqs he, h.count]
    · exact h.seqs.sublist (List.filter_sublist.map _)
    · intro e' he'
      exact h.pairs e' (hmem.mp he').1

theorem Tracks.reset (h : Tracks ix store) : Tracks ix.reset [] := by
  have hpos := h.map.size.pos
  refine tracks_empty rfl rfl rfl ⟨h.map.size, LinearProbing.empty_wellFormed hpos, ?_⟩
    fun _ _ => ?_
  · rw [Nat.zero_mul]
    exact Nat.zero_le _
  · exact LinearProbing.not_has_empty

theorem Tracks.step (h : Tracks ix store) {op : FvOp} (hop : Allowed store op) :
    ∃ ix', ix.apply op = some ix' ∧ Tracks ix' (storeStep store op) := by
  cases op with
  | insert lhs rhs packed seq => exact h.insert hop
  | remove seq => exact h.remove seq
  | reset => exact ⟨ix.reset, rfl, h.reset⟩

theorem Tracks.run {ops : List FvOp} (h : Tracks ix store)
    (hallowed : Along storeStep Allowed store ops) :
    ∃ ix', ops.foldlM AtpFvIndex.apply ix = some ix' ∧ Tracks ix' (ops.foldl storeStep store) := by
  induction ops generalizing ix store with
  | nil => exact ⟨ix, rfl, h⟩
  | cons op ops ih =>
    obtain ⟨ix₁, hstep, htracks⟩ := h.step hallowed.1
    obtain ⟨ix', hrun, htracks'⟩ := ih htracks hallowed.2
    refine ⟨ix', ?_, htracks'⟩
    rw [List.foldlM_cons, hstep]
    exact hrun

theorem tracks_new : Tracks .new [] := by
  have hinit := SeqMap.init_wellFormed (by decide : 0 < 1024)
  exact tracks_empty rfl rfl rfl ⟨⟨10, by decide, by decide, rfl⟩, hinit.1, by decide⟩ hinit.2

/-! ## The scan -/

/-- Some queued pair matches the candidate in one of its two orientations. -/
def Scan (store : List CpPair) (ql qr : CpTerm) : Prop :=
  ∃ e ∈ store, e.Matches ql qr ∨ e.Matches qr ql

/-- The index answers every candidate like the scan. -/
def ScansExactly (ix : AtpFvIndex) (store : List CpPair) : Prop :=
  ∀ ql qr, FirstOrder ql qr → (ix.query ql qr = true ↔ Scan store ql qr)

/-- The map leads from the id of each queued pair to its record, and from no other id to one. -/
def FoundById (ix : AtpFvIndex) (store : List CpPair) : Prop :=
  ∀ seq, ∃ found, ix.seqmap.get seq = some found ∧
    (found = none → ∀ e ∈ store, e.seq ≠ seq) ∧
    ∀ rec, found = some rec → ∃ e ∈ store, e.seq = seq ∧ ix.recs[rec]? = some e.record

theorem Tracks.foundById (h : Tracks ix store) : FoundById ix store := by
  intro seq
  obtain ⟨found, hget, hfound⟩ := SeqMap.get_spec h.map seq
  refine ⟨found, hget, fun hnone e he hseq => ?_, fun rec hrec => ?_⟩
  · obtain ⟨rec, hrec⟩ := h.kept e he
    have hsome := (hfound rec).mpr ((h.has seq rec).mpr ⟨e, he, hseq, hrec⟩)
    rw [hnone] at hsome
    cases hsome
  · exact (h.has seq rec).mp ((hfound rec).mp hrec)

theorem Tracks.query_iff (h : Tracks ix store) (hcand : FirstOrder ql qr)
    (hlegible : TooLong ql qr ∨ ∀ e ∈ store, Legible e.lhs e.rhs ql qr) :
    ix.query ql qr = true ↔ Scan store ql qr := by
  have hcand' : FirstOrder qr ql := fun x hx => hcand x (mem_swap hx)
  have hlegible' : TooLong qr ql ∨ ∀ e ∈ store, Legible e.lhs e.rhs qr ql := by
    refine hlegible.imp (fun hlong => ?_) fun hall e he => (hall e he).swap
    unfold TooLong at hlong ⊢
    omega
  rw [query, Bool.or_eq_true, h.queryOrient_iff hcand hlegible, h.queryOrient_iff hcand' hlegible']
  constructor
  · rintro (⟨e, he, hmatch⟩ | ⟨e, he, hmatch⟩)
    · exact ⟨e, he, .inl hmatch⟩
    · exact ⟨e, he, .inr hmatch⟩
  · rintro ⟨e, he, hmatch | hmatch⟩
    · exact .inl ⟨e, he, hmatch⟩
    · exact .inr ⟨e, he, hmatch⟩

/-- After every run the pairs of the queue, and no others, are found by their ids, and the index
answers like the scan for every candidate that can be told apart from the pairs in the queue. -/
theorem index_run {ops : List FvOp} (h : Along storeStep Allowed [] ops) :
    ∃ ix, AtpFvIndex.runOps ops = some ix ∧ FoundById ix (ops.foldl storeStep []) ∧
      ∀ ql qr, FirstOrder ql qr →
        (TooLong ql qr ∨ ∀ e ∈ ops.foldl storeStep [], Legible e.lhs e.rhs ql qr) →
        (ix.query ql qr = true ↔ Scan (ops.foldl storeStep []) ql qr) := by
  obtain ⟨ix, hrun, htracks⟩ := tracks_new.run h
  exact ⟨ix, hrun, htracks.foundById, fun ql qr hcand hlegible =>
    htracks.query_iff hcand hlegible⟩

/-! ## Two runs -/

instance (l r : CpTerm) : Decidable (FirstOrder l r) :=
  inferInstanceAs (Decidable (∀ x ∈ l.leaves ++ r.leaves, isOther x = false))

theorem fits_of_few {pos : ℕ} {rs : List (List UInt8)} (hlen : ∀ rec ∈ rs, rec.length ≤ 21)
    (hpos : pos + 21 * rs.length ≤ 2 ^ 31) : Acp.Fits pos rs := by
  induction rs generalizing pos with
  | nil => trivial
  | cons rec rs ih =>
    have hrec := hlen rec List.mem_cons_self
    rw [List.length_cons] at hpos
    exact ⟨by omega, ih (fun r hr => hlen r (List.mem_cons_of_mem _ hr)) (by omega)⟩

/-- A small pair is packed to its records. -/
theorem ok_of_small {l r : CpTerm} {seq : ℕ} (hfo : FirstOrder l r)
    (hsmall : (records l).length + (records r).length ≤ 100) :
    CpPair.Ok ⟨l, r, packing l ++ packing r, seq⟩ := by
  have hfits : Acp.Fits 0 (records l ++ records r) := by
    refine fits_of_few (fun rec hrec => ?_) ?_
    · exact (List.mem_append.mp hrec).elim (fun h => (length_record l rec h).2)
        fun h => (length_record r rec h).2
    · rw [List.length_append]
      omega
  obtain ⟨p, hp⟩ := exists_acpPack (Nat.le_refl 20) ⟨0, .inl rfl⟩ hfits
  exact ⟨hfo, 20, ⟨0, .inl rfl⟩, p, hp, (acpPack_spec hp).2.1.symm⟩

def constA : CpTerm := .node 5 []

def varX : CpTerm := .leaf (.fvr 0)

def num (v : BitVec 38) : CpTerm := .leaf (.num 0 v)

/-- The pair `f(x) = x` with the id 7. -/
def applyOps : List FvOp :=
  [.insert (.node 6 [varX]) varX (packing (.node 6 [varX]) ++ packing varX) 7]

/-- The pair `1 = a` with the id 7. -/
def numberOps : List FvOp := [.insert (num 1) constA (packing (num 1) ++ packing constA) 7]

theorem allowed_insert {l r : CpTerm} (hfo : FirstOrder l r)
    (hsmall : (records l).length + (records r).length ≤ 100) :
    Along storeStep Allowed [] [.insert l r (packing l ++ packing r) 7] :=
  ⟨⟨ok_of_small hfo hsmall, List.not_mem_nil, by decide, by decide⟩, trivial⟩

/-- The candidate `f(a) = a` is found, and so is the pair by its id. -/
theorem index_run_apply : ∃ ix, AtpFvIndex.runOps applyOps = some ix ∧
    FoundById ix (applyOps.foldl storeStep []) ∧
    (ix.query (.node 6 [constA]) constA = true ↔
      Scan (applyOps.foldl storeStep []) (.node 6 [constA]) constA) := by
  have hallowed : Along storeStep Allowed [] applyOps := allowed_insert (by decide) (by decide)
  obtain ⟨ix, hrun, hfound, hquery⟩ := index_run hallowed
  refine ⟨ix, hrun, hfound, hquery _ _ (by decide) (.inr fun e he => ?_)⟩
  obtain rfl := List.mem_singleton.mp he
  refine .inr ⟨by decide, .inr ⟨⟨fun f => if f = 6 then 1 else 0, ?_⟩, .inl (by decide), ?_⟩⟩
  · unfold OneArity
    decide
  · exact .inr (by decide)

/-- The number 2 is met as the number 1, and no match is tried. -/
theorem number_met_as_another : Along storeStep Allowed [] numberOps ∧
    ∃ ix, AtpFvIndex.runOps numberOps = some ix ∧
      ¬ ScansExactly ix (numberOps.foldl storeStep []) := by
  have hallowed : Along storeStep Allowed [] numberOps := allowed_insert (by decide) (by decide)
  refine ⟨hallowed, ?_⟩
  have hyes : (AtpFvIndex.runOps numberOps).map (fun ix => ix.query (num 2) constA) =
      some true := by decide +kernel
  obtain ⟨ix, hrun, hquery⟩ := Option.map_eq_some_iff.mp hyes
  refine ⟨ix, hrun, fun hexact => ?_⟩
  obtain ⟨e, he, hmatch⟩ := (hexact (num 2) constA (by decide)).mp hquery
  obtain rfl := List.mem_singleton.mp he
  -- a number in a pattern matches nothing
  have hnone : ∀ {ql qr : CpTerm}, ¬ CpPair.Matches
      ⟨num 1, constA, packing (num 1) ++ packing constA, 7⟩ ql qr := fun hmatch => by
    obtain ⟨σ, hσ⟩ := hallowed.1.1.matches_iff.mp hmatch
    obtain ⟨σ₁, hleft, -⟩ := thvmMatchPair_true hσ
    obtain ⟨id, hid, -⟩ := thvmMatch_leaf_true hleft
    cases hid
  exact hmatch.elim hnone hnone

end Thvm.Atp.FvIndex
