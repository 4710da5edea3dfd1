import Thvm.LexicographicPathOrderFlat
import Thvm.TransitionRuns

/-!
# Runs of `thvm_lpo`

The entry point, from any state that earlier calls leave behind. A caller that lets the
memo persist invalidates it when the heap or a configuration changes.
-/

namespace Thvm.Lpo

open MemoTables PathOrder TermTree Flat TransitionRuns

/-! ### The pretests of the entry point -/

section Pretests

variable {cfg : LpoConfig} {S : ℕ → ℕ → Prop} {s t : FTerm} {w : Weights} {vs vt : List ℕ}

theorem LpoTie.leaves_subset (h : LpoTie cfg s t) : s.leaves ⊆ t.leaves := by
  cases h with
  | intro hlen hfirst hbelow hnot =>
    intro l hl
    obtain ⟨a, ha, hla⟩ := mem_leaves_node.mp hl
    exact (hbelow a ha).leaves_subset hla

/-- Terms that each have a variable of their own are incomparable. -/
theorem lpoVerdict_of_extra {l l' : Leaf} (hl : l ∈ s.leaves) (hlt : l ∉ t.leaves)
    (hl' : l' ∈ t.leaves) (hls' : l' ∉ s.leaves) : lpoVerdict cfg s t = .un := by
  apply lpoVerdict_of_not
  · rintro rfl
    exact hlt hl
  · exact fun hgt => hls' (hgt.leaves_subset hl')
  · exact fun hlt' => hlt (hlt'.leaves_subset hl)
  · exact fun htie => hlt (htie.leaves_subset hl)

theorem exists_of_hasExtra (h : hasExtra vs vt = true) : ∃ i ∈ vs, i ∉ vt := by
  rw [hasExtra, List.any_eq_true] at h
  obtain ⟨i, -, hi⟩ := h
  exact ⟨i, of_decide_eq_true hi⟩

theorem mem_flatVars {x : ℕ} (ht : t.Over S) (h : flatVars (flatten w t) = some vs) :
    x ∈ vs ↔ Leaf.fvr x ∈ t.leaves := by
  have hvs : vs = (flatten w t).filterMap
      fun n => if n.sym < 0 then some (-n.sym - 1).toNat else none := by
    unfold flatVars at h
    dsimp only at h
    split at h
    · cases h
    · exact (Option.some.inj h).symm
  rw [hvs, List.mem_filterMap]
  constructor
  · rintro ⟨n, hn, hid⟩
    split at hid
    · next hneg =>
      obtain rfl := Option.some.inj hid
      apply mem_leaves_of_sym ht hn
      unfold varSym
      omega
    · cases hid
  · intro hx
    obtain ⟨n, hn, hsym⟩ := sym_mem_of_leaves (w := w) hx
    refine ⟨n, hn, ?_⟩
    rw [hsym, if_pos (varSym_neg x), varSym_id]

theorem lpoFlatVarset_un (hs : s.Over S) (ht : t.Over S)
    (h : lpoFlatVarset (flatten w s) (flatten w t) = true) : lpoVerdict cfg s t = .un := by
  unfold lpoFlatVarset at h
  split at h
  · next vs vt hvs hvt =>
    obtain ⟨hleft, hright⟩ := Bool.and_eq_true_iff.mp h
    obtain ⟨x, hx, hxt⟩ := exists_of_hasExtra hleft
    obtain ⟨y, hy, hys⟩ := exists_of_hasExtra hright
    rw [mem_flatVars hs hvs] at hx hys
    rw [mem_flatVars ht hvt] at hy hxt
    exact lpoVerdict_of_extra hx hxt hy hys
  · cases h

theorem lpoVortest_sound (hinj : InjectiveOn cfg.prec S) (hfix : FixedArity S)
    (hs : s.Over S) (ht : t.Over S) {c : Cmp}
    (h : lpoVortest cfg (flatten w s) (flatten w t) = some c) : c = lpoVerdict cfg s t := by
  unfold lpoVortest at h
  split at h
  · next hgt =>
    obtain rfl := Option.some.inj h
    exact (lpoVerdict_of_gt (lpoPretestGroesserFlat_sound hinj hfix hs ht hgt)).symm
  · split at h
    · next hlt =>
      obtain rfl := Option.some.inj h
      exact (lpoVerdict_of_lt (lpoPretestGroesserFlat_sound hinj hfix ht hs hlt)).symm
    · cases h

theorem mem_lpoVarSetArgs {args : List LTerm} {x : ℕ} :
    x ∈ lpoVarSetArgs args ↔ ∃ a ∈ args, x ∈ lpoVarSetAcc a := by
  induction args with
  | nil => simp [lpoVarSetArgs]
  | cons a as ih => simp [lpoVarSetArgs, ih]

theorem mem_lpoVarSetAcc {t : LTerm} {x : ℕ} :
    x ∈ lpoVarSetAcc t ↔ x < lpoMaxVar ∧ Leaf.fvr x ∈ t.leaves := by
  induction t using TermTree.induct with
  | leaf l =>
    cases l with
    | fvr id =>
      rw [lpoVarSetAcc, leaves_leaf, List.mem_singleton, Leaf.fvr.injEq]
      split
      · next h =>
        rw [List.mem_singleton]
        exact ⟨fun hx => ⟨hx ▸ h, hx⟩, And.right⟩
      · next h =>
        constructor
        · exact fun hx => absurd hx List.not_mem_nil
        · rintro ⟨hx, rfl⟩
          exact absurd hx h
    | num dtype value => simp [lpoVarSetAcc]
  | node c args ih =>
    rw [lpoVarSetAcc, mem_lpoVarSetArgs, mem_leaves_node]
    constructor
    · rintro ⟨a, ha, hx⟩
      exact ⟨((ih a ha).mp hx).1, a, ha, ((ih a ha).mp hx).2⟩
    · rintro ⟨hx, a, ha, hxa⟩
      exact ⟨a, ha, (ih a ha).mpr ⟨hx, hxa⟩⟩

theorem exists_of_hasExtra_tree {s t : LTerm} (h : hasExtra (lpoVarSetAcc s) (lpoVarSetAcc t) = true) :
    ∃ l ∈ s.erase.leaves, l ∉ t.erase.leaves := by
  obtain ⟨x, hx, hxt⟩ := exists_of_hasExtra h
  rw [mem_lpoVarSetAcc] at hx hxt
  refine ⟨.fvr x, LTerm.mem_leaves_erase.mpr hx.2, fun hmem => hxt ⟨hx.1, ?_⟩⟩
  exact LTerm.mem_leaves_erase.mp hmem

theorem lpoPretestVarset_sound {s t : LTerm} {c : Cmp} (h : lpoPretestVarset s t = some c) :
    c = locatedVerdict cfg s t := by
  unfold lpoPretestVarset at h
  split at h
  · cases h
  · split at h
    · next hextra =>
      obtain ⟨hleft, hright⟩ := Bool.and_eq_true_iff.mp hextra
      obtain ⟨l, hl, hlt⟩ := exists_of_hasExtra_tree hleft
      obtain ⟨l', hl', hls'⟩ := exists_of_hasExtra_tree hright
      obtain rfl := Option.some.inj h
      exact (lpoVerdict_of_extra hl hlt hl' hls').symm
    · cases h

end Pretests

/-! ### One call -/

section Calls

variable {gates : LpoGates} {addr : ℕ} {cfg : LpoConfig} {W : Term → FTerm} {S : ℕ → ℕ → Prop}
  {s t : LTerm} {st : LpoState}

/-- The call gets to the recursion over terms. -/
def LpoFallsBack (gates : LpoGates) (cfg : LpoConfig) (s t : LTerm) (st : LpoState) : Prop :=
  (gates.flatRec = false → gates.vortest = true → lpoPretestFlatDispatch cfg s t = none) ∧
    (gates.flatRec = true → (st.persist = true →
      st.memo.find (lpoTopSlot s.word t.word) (s.word, t.word) = none) ∧
      (lpoFlatEncodeRec cfg s = none ∨ lpoFlatEncodeRec cfg t = none)) ∧
    lpoPretestVarset s t = none

/-- The recursion over terms starts from the byte of `lt` in the memo. -/
def RawHit (gates : LpoGates) (cfg : LpoConfig) (s t : LTerm) (st : LpoState) : Prop :=
  LpoFallsBack gates cfg s t st ∧ s.word ≠ t.word ∧
    st.memo.find (lpoMemoHash s.word t.word) (s.word, t.word) = some (Cmp.byte .lt)

theorem ofRawByte_of_ne {c : Cmp} (h : c.byte ≠ Cmp.byte .lt) : Cmp.ofRawByte c.byte = c := by
  cases c with
  | lt => exact absurd rfl h
  | raw => exact absurd rfl h
  | _ => rfl

open Classical in
/-- What a call comes to: the verdict, or 255, and a state whose memo is as good as before. -/
structure Returns (cfg : LpoConfig) (W : Term → FTerm) (st : LpoState) (hit : Prop) (v : Cmp)
    (run : Cmp × LpoState) : Prop where
  result : run.1 = if hit then .raw else v
  sound : run.2.memo.Sound (Remembers cfg W)
  persist : run.2.persist = st.persist
  lastCfg : run.2.lastCfg = st.lastCfg

theorem Returns.of_not {hit : Prop} {v : Cmp} {run : Cmp × LpoState} (hnot : ¬ hit)
    (hresult : run.1 = v) (hsound : run.2.memo.Sound (Remembers cfg W))
    (hpersist : run.2.persist = st.persist) (hlast : run.2.lastCfg = st.lastCfg) :
    Returns cfg W st hit v run :=
  ⟨hresult.trans (if_neg hnot).symm, hsound, hpersist, hlast⟩

theorem Returns.congr {hit hit' : Prop} {v : Cmp} {run : Cmp × LpoState} (hiff : hit ↔ hit')
    (h : Returns cfg W st hit v run) : Returns cfg W st hit' v run := by
  rw [← propext hiff]
  exact h

theorem lpoTreePath_returns (hinj : InjectiveOn cfg.prec S) (hs : Domain W S s)
    (ht : Domain W S t) (hsound : st.memo.Sound (Remembers cfg W)) :
    Returns cfg W st (lpoPretestVarset s t = none ∧ s.word ≠ t.word ∧
        st.memo.find (lpoMemoHash s.word t.word) (s.word, t.word) = some (Cmp.byte .lt))
      (locatedVerdict cfg s t) (lpoTreePath cfg s t st) := by
  unfold lpoTreePath
  split
  · next c hc =>
    exact .of_not (by simp [hc]) (lpoPretestVarset_sound hc) hsound rfl rfl
  · next hpre =>
    have hens := lpoRec_ensures hinj hs ht le_rfl st.memo hsound
    refine ⟨?_, hens.2, rfl, rfl⟩
    obtain ⟨fuel, hfuel⟩ := Nat.exists_eq_succ_of_ne_zero
      (Nat.pos_iff_ne_zero.mp (Nat.add_pos_left (TermTree.size_pos s) t.size))
    rw [hfuel, lpoRec] at hens ⊢
    split at hens
    · next hword =>
      rw [if_pos hword, if_neg fun h => h.2.1 hword]
      rcases hens.1 with heq | ⟨hraw, -⟩
      · exact heq
      · cases hraw
    · next hword =>
      rw [if_neg hword]
      cases hfind : st.memo.find (lpoMemoHash s.word t.word) (s.word, t.word) with
      | some b =>
        have hb := hsound.find hfind
        rw [Remembers, hs.reads.word_eq, ht.reads.word_eq] at hb
        rw [memoised_hit hfind]
        by_cases hlt : b = Cmp.byte .lt
        · rw [if_pos ⟨hpre, hword, congrArg some hlt⟩, hlt]
          rfl
        · rw [if_neg fun h => hlt (Option.some.inj h.2.2)]
          dsimp only
          subst hb
          exact ofRawByte_of_ne hlt
      | none =>
        have hcompute := lpoRecCompute_answers hinj hs ht
          (fun a b hab ha hb => lpoRec_ensures hinj ha hb (by omega : _ ≤ fuel)) st.memo hsound
        rw [memoised_miss hfind, if_neg (by simp)]
        exact hcompute.1

theorem lpoFlatPath_returns (hinj : InjectiveOn cfg.prec S) (hfix : FixedArity S)
    (hcast : CastSafe cfg S) (hs : Domain W S s) (ht : Domain W S t)
    (hsound : st.memo.Sound (Remembers cfg W)) :
    Returns cfg W st False (locatedVerdict cfg s t) (lpoFlatPath gates cfg s t
      (flatten cfg.weights s.erase) (flatten cfg.weights t.erase) st) := by
  unfold lpoFlatPath
  split
  · next c hc =>
    split at hc
    · exact .of_not id (lpoVortest_sound hinj hfix hs.built ht.built hc) hsound rfl rfl
    · cases hc
  · split
    · next hvar =>
      exact .of_not id (lpoFlatVarset_un hs.built ht.built hvar).symm hsound rfl rfl
    · have hleft : Stands cfg S ⟨flatten cfg.weights s.erase, flatten cfg.weights t.erase⟩ 0 0
          s.erase := ⟨Nat.zero_le 1, hs.built, at_zero _ _⟩
      have hright : Stands cfg S ⟨flatten cfg.weights s.erase, flatten cfg.weights t.erase⟩ (1 - 0) 0
          t.erase := ⟨Nat.le_refl 1, ht.built, at_zero _ _⟩
      have hrun := lpoFlatRecCompute_answers hinj hfix hcast hleft hright
        (fun side pa pb u v hlt hu hv => lpoFlatRec_answers hinj hfix hcast hu hv
          (by
            rw [length_flatten, length_flatten]
            omega : _ ≤ (flatten cfg.weights s.erase).length + (flatten cfg.weights t.erase).length))
        _ (Memo.sound_invalidate st.flatMemo)
      refine .of_not id hrun.1 ?_ rfl rfl
      dsimp only
      split
      · apply hsound.store
        rw [Remembers, hs.reads.word_eq, ht.reads.word_eq, hrun.1]
      · exact hsound

theorem lpoPretestFlatDispatch_sound (hinj : InjectiveOn cfg.prec S) (hfix : FixedArity S)
    (hs : Domain W S s) (ht : Domain W S t) {c : Cmp}
    (h : lpoPretestFlatDispatch cfg s t = some c) : c = locatedVerdict cfg s t := by
  obtain ⟨a, ha, h⟩ := Option.bind_eq_some_iff.mp h
  obtain ⟨b, hb, h⟩ := Option.bind_eq_some_iff.mp h
  rw [encode_some ha, encode_some hb] at h
  exact lpoVortest_sound hinj hfix hs.built ht.built h

theorem lpoEnter_sound {R : Term × Term → ℕ → Prop}
    (h : st.persist = true → addr = st.lastCfg → st.memo.Sound R) :
    (lpoEnter addr st).memo.Sound R := by
  unfold lpoEnter
  split
  · next hpersist =>
    split
    · exact Memo.sound_invalidate _
    · next haddr => exact h hpersist (not_not.mp haddr)
  · exact Memo.sound_invalidate _

@[simp] theorem lpoEnter_persist : (lpoEnter addr st).persist = st.persist := by
  unfold lpoEnter
  split
  · split <;> rfl
  · rfl

theorem lpoEnter_lastCfg (h : st.persist = true) : (lpoEnter addr st).lastCfg = addr := by
  rw [lpoEnter, if_pos h]
  split
  · rfl
  · next haddr => exact (not_not.mp haddr).symm

theorem thvmLpo_returns (hinj : InjectiveOn cfg.prec S) (hfix : FixedArity S)
    (hcast : CastSafe cfg S) (hs : Domain W S s) (ht : Domain W S t)
    (hsound : st.persist = true → addr = st.lastCfg → st.memo.Sound (Remembers cfg W)) :
    Returns cfg W (lpoEnter addr st) (RawHit gates cfg s t (lpoEnter addr st))
      (locatedVerdict cfg s t) (thvmLpo gates addr cfg s t st) := by
  replace hsound := lpoEnter_sound hsound
  have htree := lpoTreePath_returns hinj hs ht hsound
  unfold thvmLpo
  dsimp only
  split
  · next c hc =>
    split at hc
    · next hgate =>
      obtain ⟨hvor, hflat⟩ := Bool.and_eq_true_iff.mp hgate
      refine .of_not ?_ (lpoPretestFlatDispatch_sound hinj hfix hs ht hc) hsound rfl rfl
      rintro ⟨⟨hnone, -⟩, -⟩
      rw [hnone (by simpa using hflat) hvor] at hc
      cases hc
    · cases hc
  · next hc =>
    have hdispatch : gates.flatRec = false → gates.vortest = true →
        lpoPretestFlatDispatch cfg s t = none := by
      intro hflat hvor
      simpa [hflat, hvor] using hc
    split
    · next hflat =>
      split
      · next b hb =>
        split at hb
        · next hpersist =>
          refine .of_not ?_ ?_ hsound rfl rfl
          · rintro ⟨⟨-, htop, -⟩, -⟩
            rw [(htop hflat).1 hpersist] at hb
            cases hb
          · have hbyte := hsound.find hb
            rw [Remembers, hs.reads.word_eq, ht.reads.word_eq] at hbyte
            dsimp only
            rw [hbyte, Cmp.ofByte_byte (lpoVerdict_ne_raw cfg _ _)]
        · cases hb
      · next hb =>
        have htop : (lpoEnter addr st).persist = true →
            (lpoEnter addr st).memo.find (lpoTopSlot s.word t.word) (s.word, t.word) = none := by
          intro hpersist
          rwa [if_pos hpersist] at hb
        split
        · next a b ha hb =>
          obtain rfl := encode_some ha
          obtain rfl := encode_some hb
          refine (lpoFlatPath_returns hinj hfix hcast hs ht hsound).congr ?_
          rw [false_iff]
          rintro ⟨⟨-, hfall, -⟩, -⟩
          rcases (hfall hflat).2 with hnone | hnone
          · rw [hnone] at ha
            cases ha
          · rw [hnone] at hb
            cases hb
        · next hnone =>
          refine htree.congr ?_
          have hencode : lpoFlatEncodeRec cfg s = none ∨ lpoFlatEncodeRec cfg t = none := by
            cases ha : lpoFlatEncodeRec cfg s with
            | none => exact .inl rfl
            | some a =>
              cases hb : lpoFlatEncodeRec cfg t with
              | none => exact .inr rfl
              | some b => exact absurd hb (hnone a b ha)
          have hfalls : LpoFallsBack gates cfg s t (lpoEnter addr st) ↔ lpoPretestVarset s t = none :=
            (and_iff_right hdispatch).trans (and_iff_right fun _ => ⟨htop, hencode⟩)
          rw [RawHit, hfalls]
    · next hflat =>
      refine htree.congr ?_
      have hfalls : LpoFallsBack gates cfg s t (lpoEnter addr st) ↔ lpoPretestVarset s t = none :=
        (and_iff_right hdispatch).trans (and_iff_right fun h => absurd h hflat)
      rw [RawHit, hfalls]

end Calls

/-! ### Runs -/

/-- What the words mean, the signature, and the configuration at each address. -/
structure LpoWorld where
  read : Term → FTerm
  sig : ℕ → ℕ → Prop
  cfg : ℕ → LpoConfig
  fixed : FixedArity sig
  injective : ∀ addr, InjectiveOn (cfg addr).prec sig
  castSafe : ∀ addr, CastSafe (cfg addr) sig

structure LpoSession where
  world : LpoWorld
  st : LpoState

inductive LpoOp where
  | call (gates : LpoGates) (addr : ℕ) (s t : LTerm)
  | change (w : LpoWorld)
  | drift (w : LpoWorld)
  | persist
  | unpersist

namespace LpoSession

def start (w : LpoWorld) : LpoSession := ⟨w, lpoStart⟩

def call (σ : LpoSession) (gates : LpoGates) (addr : ℕ) (s t : LTerm) : Cmp × LpoState :=
  thvmLpo gates addr (σ.world.cfg addr) s t σ.st

/-- The memo that a call starts from. -/
def memoAt (σ : LpoSession) (addr : ℕ) : LpoMemo := (lpoEnter addr σ.st).memo

/-- A term of the session. -/
def Has (σ : LpoSession) (t : LTerm) : Prop := Domain σ.world.read σ.world.sig t

def RawHit (σ : LpoSession) (gates : LpoGates) (addr : ℕ) (s t : LTerm) : Prop :=
  Lpo.RawHit gates (σ.world.cfg addr) s t (lpoEnter addr σ.st)

end LpoSession

open LpoSession in
/-- While the memo persists, the heap and the configurations change under an invalidation,
and so does the switch itself. -/
inductive LpoStep : LpoSession → LpoOp → LpoSession → Prop
  | call {σ : LpoSession} (gates : LpoGates) (addr : ℕ) {s t : LTerm} (hs : σ.Has s) (ht : σ.Has t) :
      LpoStep σ (.call gates addr s t) ⟨σ.world, (σ.call gates addr s t).2⟩
  | change (σ : LpoSession) (w : LpoWorld) : LpoStep σ (.change w) ⟨w, thvmLpoInvalidate σ.st⟩
  | drift {σ : LpoSession} (w : LpoWorld) (hpersist : σ.st.persist = false) :
      LpoStep σ (.drift w) ⟨w, σ.st⟩
  | persist (σ : LpoSession) :
      LpoStep σ .persist ⟨σ.world, thvmLpoInvalidate (thvmLpoSetPersist true σ.st)⟩
  | unpersist (σ : LpoSession) : LpoStep σ .unpersist ⟨σ.world, thvmLpoSetPersist false σ.st⟩

section Runs

variable {w w' : LpoWorld} {σ σ' : LpoSession} {op : LpoOp} {ops ops' : List LpoOp}
  {gates gates' : LpoGates} {addr addr' : ℕ} {s t s' t' : LTerm}

/-- The memo that persists holds verdicts of the configuration it was last used with. -/
def LpoSession.Sound (σ : LpoSession) : Prop :=
  σ.st.persist = true → σ.st.memo.Sound (Remembers (σ.world.cfg σ.st.lastCfg) σ.world.read)

theorem LpoSession.Sound.returns (h : σ.Sound) (gates : LpoGates) (addr : ℕ) (hs : σ.Has s)
    (ht : σ.Has t) :
    Returns (σ.world.cfg addr) σ.world.read (lpoEnter addr σ.st) (σ.RawHit gates addr s t)
      (locatedVerdict (σ.world.cfg addr) s t) (σ.call gates addr s t) := by
  apply thvmLpo_returns (σ.world.injective addr) σ.world.fixed (σ.world.castSafe addr) hs ht
  rintro hpersist rfl
  exact h hpersist

theorem LpoStep.sound (h : LpoStep σ op σ') (hσ : σ.Sound) : σ'.Sound := by
  cases h with
  | call gates addr hs ht =>
    have hret := hσ.returns gates addr hs ht
    intro hpersist
    dsimp only at hpersist ⊢
    rw [hret.persist, lpoEnter_persist] at hpersist
    rw [hret.lastCfg, lpoEnter_lastCfg hpersist]
    exact hret.sound
  | change w => exact fun _ => Memo.sound_invalidate _
  | drift w hpersist =>
    intro h
    rw [hpersist] at h
    cases h
  | persist => exact fun _ => Memo.sound_invalidate _
  | unpersist => nofun

theorem LpoSession.sound_of_run (h : Run LpoStep (start w) ops σ) : σ.Sound := by
  apply h.invariant (I := fun _ σ => LpoSession.Sound σ)
  · intro hpersist
    cases hpersist
  · exact fun ls σ op σ' hσ hstep => hstep.sound hσ

/-- What the ordering says of a pair of terms. -/
structure Decides (cfg : LpoConfig) (s t : FTerm) (c : Cmp) : Prop where
  gt_iff : c = .gt ↔ LpoGt cfg s t
  eq_iff : c = .eq ↔ s = t
  lt_iff : c = .lt ↔ LpoGt cfg t s
  un_iff : c = .un ↔ Incomparable cfg s t

theorem Decides.ne_raw {cfg : LpoConfig} {s t : FTerm} {c : Cmp} (h : Decides cfg s t c) :
    c ≠ .raw := by
  rintro rfl
  have hinc : Incomparable cfg s t := by
    refine ⟨fun heq => ?_, fun hgt => ?_, fun hlt => ?_⟩
    · cases h.eq_iff.mpr heq
    · cases h.gt_iff.mpr hgt
    · cases h.lt_iff.mpr hlt
  cases h.un_iff.mpr hinc

theorem decides_lpoVerdict_iff {cfg : LpoConfig} {s t : FTerm} :
    Decides cfg s t (lpoVerdict cfg s t) ↔ ¬ LpoTie cfg s t := by
  constructor
  · exact fun h htie => htie.not_lt (h.lt_iff.mp (lpoVerdict_of_tie htie))
  · intro htie
    have hlt := @lpoVerdict_lt_iff cfg s t
    rw [or_iff_left htie] at hlt
    refine ⟨lpoVerdict_gt_iff, lpoVerdict_eq_iff, hlt, ?_⟩
    constructor
    · intro hun
      refine ⟨fun heq => ?_, fun hgt' => ?_, fun hlt' => ?_⟩
      · rw [lpoVerdict_eq_iff.mpr heq] at hun
        cases hun
      · rw [lpoVerdict_of_gt hgt'] at hun
        cases hun
      · rw [lpoVerdict_of_lt hlt'] at hun
        cases hun
    · exact fun hinc => lpoVerdict_of_not hinc.1 hinc.2.1 hinc.2.2 htie

theorem lpoVerdict_flip {cfg : LpoConfig} {s t : FTerm} (h : ¬ LpoTie cfg s t)
    (h' : ¬ LpoTie cfg t s) : lpoVerdict cfg t s = (lpoVerdict cfg s t).flip := by
  have hdecides := decides_lpoVerdict_iff.mpr h
  have hdecides' := decides_lpoVerdict_iff.mpr h'
  cases hv : lpoVerdict cfg s t with
  | eq => exact lpoVerdict_eq_iff.mpr (lpoVerdict_eq_iff.mp hv).symm
  | gt => exact lpoVerdict_of_lt (lpoVerdict_gt_iff.mp hv)
  | lt => exact lpoVerdict_of_gt (hdecides.lt_iff.mp hv)
  | un => exact hdecides'.un_iff.mpr (incomparable_symm (hdecides.un_iff.mp hv))
  | raw => exact absurd hv (lpoVerdict_ne_raw cfg s t)

/-- `f(x, y)` with the variables given. -/
def variablePair (loc x y : ℕ) : LTerm := .node ⟨1, loc⟩ [.leaf (.fvr x), .leaf (.fvr y)]

/-- Unary symbols over one variable. -/
def unaryWorld : LpoWorld where
  read w := if w.tag = .ctr then .ctr w.ext [.fvr 0] else .fvr w.ext
  sig f n := f < 8 ∧ n = 1
  cfg _ := ⟨id, 8⟩
  fixed := by
    rintro f n m ⟨-, rfl⟩ ⟨-, rfl⟩
    rfl
  injective := by
    rintro addr f g n m ⟨hf, -⟩ ⟨hg, -⟩ heq
    rw [LpoConfig.prec, LpoConfig.prec, if_pos hf, if_pos hg] at heq
    exact heq
  castSafe := by
    intro addr
    apply castSafe_of_lt
    rintro f n ⟨hf, -⟩
    rw [LpoConfig.prec, if_pos hf]
    exact lt_trans hf (by decide : 8 < 2 ^ 31)

def unaryTerm (f loc : ℕ) : LTerm := .node ⟨f, loc⟩ [.leaf (.fvr 0)]

theorem has_unaryTerm {f : ℕ} (hf : f < 8) (loc : ℕ) :
    (LpoSession.start unaryWorld).Has (unaryTerm f loc) where
  reads := by
    have hext : f % 2 ^ 18 = f := Nat.mod_eq_of_lt (lt_trans hf (by decide : 8 < 2 ^ 18))
    refine .node ?_ fun a ha => ?_
    · simp only [LpoSession.start, unaryWorld, LTerm.word, termNew, if_pos, hext]
      rfl
    · obtain rfl := List.mem_singleton.mp ha
      exact .leaf rfl
  built := by
    rw [unaryTerm, LTerm.erase_node]
    refine FTerm.over_node ⟨hf, rfl⟩ fun a ha => ?_
    obtain rfl := List.mem_singleton.mp ha
    exact FTerm.over_fvr 0

theorem not_tie_unaryTerm {cfg : LpoConfig} {f g : ℕ} (h : f ≠ g) (loc loc' : ℕ) :
    ¬ LpoTie cfg (unaryTerm f loc).erase (unaryTerm g loc').erase := by
  rw [unaryTerm, unaryTerm, LTerm.erase_node, LTerm.erase_node]
  rintro ⟨⟩
  exact h rfl

theorem not_rawHit_start (w : LpoWorld) (gates : LpoGates) (addr : ℕ) (s t : LTerm) :
    ¬ (LpoSession.start w).RawHit gates addr s t := by
  rintro ⟨-, -, hfind⟩
  cases hfind

theorem LpoSession.encode (hs : σ.Has s) (hfit : s.size ≤ kboFlatCap) (cfg : LpoConfig) :
    ∃ nodes, lpoFlatEncodeRec cfg s = some nodes := by
  refine ⟨_, encode_eq (fun l hl => ?_) (by omega)⟩
  exact hs.built.leaves l (LTerm.mem_leaves_erase.mpr hl)

/-- Both recursions answer the same on terms that fit the buffers. -/
theorem thvmLpo_flat_eq_tree (addr addr' : ℕ) (h : Run LpoStep (.start w) ops σ)
    (h' : Run LpoStep (.start w') ops' σ') (hcfg : σ'.world.cfg addr' = σ.world.cfg addr)
    (hflat : gates.flatRec = true) (hs : σ.Has s) (ht : σ.Has t) (hs' : σ'.Has s')
    (ht' : σ'.Has t') (hss : s'.erase = s.erase) (htt : t'.erase = t.erase)
    (hfit : s.size ≤ kboFlatCap) (hfit' : t.size ≤ kboFlatCap) :
    (σ.call gates addr s t).1 =
      ((lpoRecCompute (lpoRec (σ'.world.cfg addr') (s'.size + t'.size)) (σ'.world.cfg addr')
        s' t').run (σ'.memoAt addr')).1 := by
  have hret := ((LpoSession.sound_of_run h).returns gates addr hs ht).result
  have hhit : ¬ σ.RawHit gates addr s t := by
    rintro ⟨⟨-, hfall, -⟩, -⟩
    obtain ⟨a, ha⟩ := LpoSession.encode hs hfit (σ.world.cfg addr)
    obtain ⟨b, hb⟩ := LpoSession.encode ht hfit' (σ.world.cfg addr)
    rcases (hfall hflat).2 with hnone | hnone
    · rw [hnone] at ha
      cases ha
    · rw [hnone] at hb
      cases hb
  have hsound : (σ'.memoAt addr').Sound (Remembers (σ'.world.cfg addr') σ'.world.read) := by
    apply lpoEnter_sound
    rintro hpersist rfl
    exact LpoSession.sound_of_run h' hpersist
  have htree := lpoRecCompute_answers (σ'.world.injective addr') hs' ht'
    (fun a b hab ha hb => lpoRec_ensures (σ'.world.injective addr') ha hb hab.le) _ hsound
  rw [hret, if_neg hhit, htree.1, hcfg, locatedVerdict, locatedVerdict, hss, htt]

/-- `f(a, ..., a)`. -/
def constantArgs (loc n : ℕ) : LTerm := .node ⟨1, loc⟩ (List.replicate n (.node ⟨2, 20⟩ []))

/-- With two numbers of arguments for one symbol the recursions differ. -/
theorem thvmLpo_constantArgs :
    (thvmLpo ⟨false, true⟩ 0 ⟨id, 8⟩ (constantArgs 5 1) (constantArgs 9 2) lpoStart).1 = .eq ∧
      ((lpoRecCompute (lpoRec ⟨id, 8⟩ 5) ⟨id, 8⟩ (constantArgs 5 1) (constantArgs 9 2)).run
        lpoStart.memo).1 = .un := by
  decide

theorem thvmLpo_flat_eq_tree_unaryTerm :
    let σ := LpoSession.start unaryWorld
    (σ.call ⟨false, true⟩ 0 (unaryTerm 2 5) (unaryTerm 1 9)).1 =
      ((lpoRecCompute (lpoRec (σ.world.cfg 0) ((unaryTerm 2 5).size + (unaryTerm 1 9).size))
        (σ.world.cfg 0) (unaryTerm 2 5) (unaryTerm 1 9)).run (σ.memoAt 0)).1 := by
  intro σ
  have hs := has_unaryTerm (by decide : 2 < 8) 5
  have ht := has_unaryTerm (by decide : 1 < 8) 9
  exact thvmLpo_flat_eq_tree 0 0 .refl .refl rfl rfl hs ht hs ht rfl rfl (by decide) (by decide)

end Runs

end Thvm.Lpo
