import Thvm.KnuthBendixFlat
import Thvm.TransitionRuns

/-!
# Runs of `thvm_kbo`

The entry points, from any state that earlier calls leave behind. A caller that lets the
memo persist invalidates it when the heap or a configuration changes.
-/

namespace Thvm.Kbo

open MemoTables TermTree Flat TransitionRuns

/-! ### One call -/

section Calls

variable {linear : Bool} {addr : ℕ} {cfg : KboConfig} {W : Term → FTerm} {S : ℕ → ℕ → Prop}
  {T : FTerm → Prop} {s t : LTerm} {st : KboState} {p : Prop} {c : Cmp}

/-- A call comes to nothing in one case, and otherwise to a verdict with no balance left. -/
structure Concludes (p : Prop) (c : Cmp) (run : Option Cmp × KboState) : Prop where
  none_iff : run.1 = none ↔ p
  some_eq : ∀ v, run.1 = some v → v = c
  lin : ¬ p → run.2.lin = .clear false

theorem Concludes.result {run : Option Cmp × KboState} (h : Concludes p c run) (hp : ¬ p) :
    run.1 = some c := by
  obtain ⟨v, hv⟩ := Option.ne_none_iff_exists'.mp fun hnone => hp (h.none_iff.mp hnone)
  rw [hv, h.some_eq v hv]

theorem Concludes.result_iff {run : Option Cmp × KboState} (h : Concludes p c run) :
    run.1 = some c ↔ ¬ p := by
  refine ⟨fun hres hp => ?_, h.result⟩
  rw [h.none_iff.mpr hp] at hres
  cases hres

theorem Concludes.congr {q : Prop} {run : Option Cmp × KboState} (h : Concludes p c run)
    (hpq : p ↔ q) : Concludes q c run := propext hpq ▸ h

theorem Settles.concludes {run : Cmp × KboLin} (h : Settles p c run) (st : KboState) (m : KboMemos) :
    Concludes p c (st.finish (run, m)) where
  none_iff := by
    rw [← h.fault, KboState.finish]
    dsimp only
    split
    · next hfault => simp [hfault]
    · next hfault => simp [hfault]
  some_eq v hv := by
    rw [KboState.finish] at hv
    dsimp only at hv
    split at hv
    · cases hv
    · rw [← Option.some.inj hv, h.verdict]
  lin hp := by
    have hfault : run.2.fault = false := Bool.eq_false_iff.mpr fun hf => hp (h.fault.mp hf)
    rw [KboState.finish]
    dsimp only
    rw [h.cleared, hfault]

@[simp] theorem kboEnter_lin (addr : ℕ) (st : KboState) : (kboEnter addr st).lin = st.lin := by
  unfold kboEnter
  split
  · split <;> rfl
  · rfl

@[simp] theorem kboEnter_persist (addr : ℕ) (st : KboState) :
    (kboEnter addr st).persist = st.persist := by
  unfold kboEnter
  split
  · split <;> rfl
  · rfl

theorem kboEnter_lastCfg (h : st.persist = true) : (kboEnter addr st).lastCfg = addr := by
  rw [kboEnter, if_pos h]
  split
  · rfl
  · next haddr => exact (not_not.mp haddr).symm

theorem kboEnter_right (h : st.persist = true → addr = st.lastCfg → Right cfg W T st.memos) :
    Right cfg W T (kboEnter addr st).memos := by
  unfold kboEnter
  split
  · next hpersist =>
    split
    · exact right_invalidate _
    · next haddr => exact h hpersist (not_not.mp haddr)
  · exact right_invalidate _

theorem thvmKbo_concludes (hT : InPlay linear S T) (hinj : InjectiveOn cfg.prec S)
    (hlin : st.lin = .clear false)
    (hright : st.persist = true → addr = st.lastCfg → Right cfg W T st.memos)
    (hs : Weighable W T s) (ht : Weighable W T t) :
    Concludes (Crowded (linScan linear cfg) cfg s.erase t.erase) (kboVerdict cfg s.erase t.erase)
        (thvmKbo linear addr cfg s t st) ∧
      Right cfg W T (thvmKbo linear addr cfg s t st).2.memos := by
  obtain ⟨hsettles, hmemos⟩ := kboCompareCore_ensures (f := false) (fun _ => rfl) hT hinj hs ht _
    (kboEnter_right hright)
  unfold thvmKbo
  dsimp only
  rw [kboEnter_lin, hlin]
  exact ⟨(hsettles.concludes _ _).congr (by simp), hmemos⟩

theorem thvmKboNomemo_concludes (hT : InPlay true S T) (hinj : InjectiveOn cfg.prec S)
    (hlin : st.lin = .clear false) (hs : Weighable W T s) (ht : Weighable W T t) :
    Concludes (Crowded (linScan true cfg) cfg s.erase t.erase) (kboVerdict cfg s.erase t.erase)
        (thvmKboNomemo cfg s t st) ∧
      (thvmKboNomemo cfg s t st).2.memos = st.memos := by
  have hI : true = false → (· = st.memos) = Right cfg W T := nofun
  obtain ⟨hsettles, hmemos⟩ := kboCompareCore_ensures (f := false) hI hT hinj hs ht _ rfl
  rw [thvmKboNomemo, hlin]
  exact ⟨(hsettles.concludes _ _).congr (by simp), hmemos⟩

theorem encode_fits {w : Weights} {l : LTerm} {pos : ℕ} {nodes : List FlatNode}
    (h : encode w l pos = some nodes) : pos + l.size ≤ kboFlatCap := by
  induction l using TermTree.induct generalizing pos nodes with
  | leaf x =>
    rw [TermTree.size_leaf]
    cases x with
    | fvr id =>
      rw [encode] at h
      split at h
      · cases h
      · omega
    | num dtype value => cases h
  | node c args ih =>
    rw [encode] at h
    split at h
    · cases h
    · next hpos =>
      obtain ⟨kids, hkids, -⟩ := Option.bind_eq_some_iff.mp h
      rw [TermTree.size_node]
      have hargs : ∀ {pos kids}, pos ≤ kboFlatCap → encodeArgs w args pos = some kids →
          pos + (args.map TermTree.size).sum ≤ kboFlatCap := by
        clear h hkids hpos
        induction args with
        | nil => exact fun hpos _ => hpos
        | cons a as ihs =>
          rw [List.forall_mem_cons] at ih
          intro pos kids hpos hkids
          rw [encodeArgs] at hkids
          obtain ⟨x, hx, hrest⟩ := Option.bind_eq_some_iff.mp hkids
          obtain ⟨y, hy, -⟩ := Option.bind_eq_some_iff.mp hrest
          have hhead := ih.1 hx
          have hlen : x.length = a.size := by
            rw [encode_some hx, length_flatten, LTerm.size_erase]
          rw [hlen] at hy
          have htail := ihs ih.2 hhead hy
          rw [List.map_cons, List.sum_cons]
          omega
      have := hargs (by omega) hkids
      omega

theorem kboFlatEncode_eq (hs : Weighable W T s) (hT : InPlay linear S T) (hfit : s.size ≤ kboFlatCap) :
    kboFlatEncode cfg s = some (flatten cfg.flatWeights s.erase) := by
  apply encode_eq _ (by omega)
  intro l hl
  exact (hT.built _ hs.mem).leaves l (LTerm.mem_leaves_erase.mpr hl)

/-- Both terms fit the buffers. -/
def Fit (s t : LTerm) : Prop := s.size ≤ kboFlatCap ∧ t.size ≤ kboFlatCap

theorem thvmKboFlat_concludes (hfix : FixedArity S) (hfits : FitsI32 cfg S)
    (hT : InPlay linear S T) (hinj : InjectiveOn cfg.prec S) (hlin : st.lin = .clear false)
    (hs : Weighable W T s) (ht : Weighable W T t) (hfit : Fit s t) :
    Concludes (Crowded flatScan cfg s.erase t.erase) (kboVerdict cfg s.erase t.erase)
        (thvmKboFlat linear addr cfg s t st) ∧
      (thvmKboFlat linear addr cfg s t st).2 = { st with
        lin := (thvmKboFlat linear addr cfg s t st).2.lin } := by
  have hsettles := thvmKboFlatSlice_settles hfix hfits hinj (hT.built _ hs.mem) (hT.built _ ht.mem)
    (hT.vars _ hs.mem) (hT.vars _ ht.mem) false
  rw [thvmKboFlat, kboFlatEncode_eq hs hT hfit.1, kboFlatEncode_eq ht hT hfit.2, hlin]
  exact ⟨(hsettles.concludes _ _).congr (by simp), rfl⟩

theorem thvmKboFlat_of_not_fit (hfit : ¬ Fit s t) :
    thvmKboFlat linear addr cfg s t st = thvmKbo linear addr cfg s t st := by
  rw [thvmKboFlat]
  split
  · next a b ha hb =>
    have hs := encode_fits ha
    have ht := encode_fits hb
    exact absurd ⟨by omega, by omega⟩ hfit
  · rfl

end Calls

/-! ### Runs -/

/-- What the words mean, the signature, the terms in play, and the configuration at each
address. -/
structure KboWorld where
  read : Term → FTerm
  sig : ℕ → ℕ → Prop
  play : FTerm → Prop
  cfg : ℕ → KboConfig
  fixed : FixedArity sig
  inPlay : InPlay false sig play
  injective : ∀ addr, InjectiveOn (cfg addr).prec sig
  fits : ∀ addr, FitsI32 (cfg addr) sig

structure KboSession where
  world : KboWorld
  st : KboState

inductive KboOp where
  | call (linear : Bool) (addr : ℕ) (s t : LTerm)
  | flat (linear : Bool) (addr : ℕ) (s t : LTerm)
  | nomemo (addr : ℕ) (s t : LTerm)
  | change (w : KboWorld)
  | drift (w : KboWorld)
  | persist
  | unpersist

namespace KboSession

def start (w : KboWorld) : KboSession := ⟨w, .start⟩

def kbo (σ : KboSession) (linear : Bool) (addr : ℕ) (s t : LTerm) : Option Cmp × KboState :=
  thvmKbo linear addr (σ.world.cfg addr) s t σ.st

def kboFlat (σ : KboSession) (linear : Bool) (addr : ℕ) (s t : LTerm) : Option Cmp × KboState :=
  thvmKboFlat linear addr (σ.world.cfg addr) s t σ.st

def kboNomemo (σ : KboSession) (addr : ℕ) (s t : LTerm) : Option Cmp × KboState :=
  thvmKboNomemo (σ.world.cfg addr) s t σ.st

def kboNaive (σ : KboSession) (addr : ℕ) (s t : LTerm) : Cmp := thvmKboNaive (σ.world.cfg addr) s t

/-- A term of the session. -/
def Has (σ : KboSession) (t : LTerm) : Prop := Weighable σ.world.read σ.world.play t

end KboSession

open KboSession in
/-- A call that writes behind the touched ids ends the run. While the memo persists, the
heap and the configurations change under an invalidation, and so does the switch itself. -/
inductive KboStep : KboSession → KboOp → KboSession → Prop
  | call {σ : KboSession} (linear : Bool) (addr : ℕ) {s t : LTerm} (hs : σ.Has s) (ht : σ.Has t)
      (hres : (σ.kbo linear addr s t).1 ≠ none) :
      KboStep σ (.call linear addr s t) ⟨σ.world, (σ.kbo linear addr s t).2⟩
  | flat {σ : KboSession} (linear : Bool) (addr : ℕ) {s t : LTerm} (hs : σ.Has s) (ht : σ.Has t)
      (hres : (σ.kboFlat linear addr s t).1 ≠ none) :
      KboStep σ (.flat linear addr s t) ⟨σ.world, (σ.kboFlat linear addr s t).2⟩
  | nomemo {σ : KboSession} (addr : ℕ) {s t : LTerm} (hs : σ.Has s) (ht : σ.Has t)
      (hres : (σ.kboNomemo addr s t).1 ≠ none) :
      KboStep σ (.nomemo addr s t) ⟨σ.world, (σ.kboNomemo addr s t).2⟩
  | change (σ : KboSession) (w : KboWorld) : KboStep σ (.change w) ⟨w, σ.st.invalidate⟩
  | drift {σ : KboSession} (w : KboWorld) (hpersist : σ.st.persist = false) :
      KboStep σ (.drift w) ⟨w, σ.st⟩
  | persist (σ : KboSession) : KboStep σ .persist ⟨σ.world, (σ.st.setPersist true).invalidate⟩
  | unpersist (σ : KboSession) : KboStep σ .unpersist ⟨σ.world, σ.st.setPersist false⟩

section Runs

variable {w : KboWorld} {σ σ' : KboSession} {op : KboOp} {ops : List KboOp} {linear : Bool}
  {addr : ℕ} {s t : LTerm}

/-- Between calls there is no balance, and the memo that persists holds weights of the
configuration it was last used with. -/
structure KboSession.Sound (σ : KboSession) : Prop where
  lin : σ.st.lin = .clear false
  right : σ.st.persist = true → Right (σ.world.cfg σ.st.lastCfg) σ.world.read σ.world.play σ.st.memos

theorem InPlay.walks {S : ℕ → ℕ → Prop} {T : FTerm → Prop} (h : InPlay false S T) (linear : Bool) :
    InPlay linear S T :=
  ⟨h.arg, h.built, h.vars, fun _ => h.hash rfl⟩

theorem KboSession.Has.comparable (h : σ.Has t) : Comparable σ.world.read σ.world.sig t where
  reads := h.reads
  built := σ.world.inPlay.built _ h.mem
  vars := σ.world.inPlay.vars _ h.mem

theorem KboSession.Sound.kbo (h : σ.Sound) (linear : Bool) (addr : ℕ) (hs : σ.Has s) (ht : σ.Has t) :
    Concludes (Crowded (linScan linear (σ.world.cfg addr)) (σ.world.cfg addr) s.erase t.erase)
        (kboVerdict (σ.world.cfg addr) s.erase t.erase) (σ.kbo linear addr s t) ∧
      Right (σ.world.cfg addr) σ.world.read σ.world.play (σ.kbo linear addr s t).2.memos := by
  apply thvmKbo_concludes (σ.world.inPlay.walks linear) (σ.world.injective addr) h.lin _ hs ht
  rintro hpersist rfl
  exact h.right hpersist

theorem KboSession.Sound.kboFlat (h : σ.Sound) (linear : Bool) (addr : ℕ) (hs : σ.Has s)
    (ht : σ.Has t) (hfit : Fit s t) :
    Concludes (Crowded flatScan (σ.world.cfg addr) s.erase t.erase)
        (kboVerdict (σ.world.cfg addr) s.erase t.erase) (σ.kboFlat linear addr s t) ∧
      (σ.kboFlat linear addr s t).2 = { σ.st with lin := (σ.kboFlat linear addr s t).2.lin } :=
  thvmKboFlat_concludes σ.world.fixed (σ.world.fits addr) (σ.world.inPlay.walks linear)
    (σ.world.injective addr) h.lin hs ht hfit

theorem KboSession.Sound.kboNomemo (h : σ.Sound) (addr : ℕ) (hs : σ.Has s) (ht : σ.Has t) :
    Concludes (Crowded (linScan true (σ.world.cfg addr)) (σ.world.cfg addr) s.erase t.erase)
        (kboVerdict (σ.world.cfg addr) s.erase t.erase) (σ.kboNomemo addr s t) ∧
      (σ.kboNomemo addr s t).2.memos = σ.st.memos :=
  thvmKboNomemo_concludes (σ.world.inPlay.walks true) (σ.world.injective addr) h.lin hs ht

theorem KboSession.Sound.of_kbo (h : σ.Sound) (hs : σ.Has s) (ht : σ.Has t)
    (hres : (σ.kbo linear addr s t).1 ≠ none) :
    KboSession.Sound ⟨σ.world, (σ.kbo linear addr s t).2⟩ := by
  obtain ⟨hconc, hright⟩ := h.kbo linear addr hs ht
  refine ⟨hconc.lin fun hp => hres (hconc.none_iff.mpr hp), fun hpersist => ?_⟩
  have hlast : (σ.kbo linear addr s t).2.lastCfg = addr := by
    have hstate : (σ.kbo linear addr s t).2.persist = (kboEnter addr σ.st).persist := rfl
    dsimp only at hpersist
    rw [hstate, kboEnter_persist] at hpersist
    exact kboEnter_lastCfg hpersist
  dsimp only
  rw [hlast]
  exact hright

theorem KboStep.sound (h : KboStep σ op σ') (hσ : σ.Sound) : σ'.Sound := by
  cases h with
  | call linear addr hs ht hres => exact hσ.of_kbo hs ht hres
  | @flat linear addr s t hs ht hres =>
    by_cases hfit : Fit s t
    · obtain ⟨hconc, hstate⟩ := hσ.kboFlat linear addr hs ht hfit
      refine ⟨hconc.lin fun hp => hres (hconc.none_iff.mpr hp), ?_⟩
      dsimp only
      rw [hstate]
      exact hσ.right
    · have heq : σ.kboFlat linear addr s t = σ.kbo linear addr s t := thvmKboFlat_of_not_fit hfit
      rw [heq] at hres ⊢
      exact hσ.of_kbo hs ht hres
  | @nomemo addr s t hs ht hres =>
    obtain ⟨hconc, hmemos⟩ := hσ.kboNomemo addr hs ht
    refine ⟨hconc.lin fun hp => hres (hconc.none_iff.mpr hp), fun hpersist => ?_⟩
    dsimp only
    rw [hmemos]
    exact hσ.right hpersist
  | change w => exact ⟨hσ.lin, fun _ => right_invalidate _⟩
  | drift w hpersist =>
    refine ⟨hσ.lin, fun h => ?_⟩
    rw [hpersist] at h
    cases h
  | persist => exact ⟨hσ.lin, fun _ => right_invalidate _⟩
  | unpersist => exact ⟨hσ.lin, nofun⟩

theorem KboSession.sound_of_run (h : Run KboStep (start w) ops σ) : σ.Sound := by
  apply h.invariant (I := fun _ σ => KboSession.Sound σ)
  · exact ⟨rfl, nofun⟩
  · exact fun ls σ op σ' hσ hstep => hstep.sound hσ

/-- Some scope of one of the comparisons makes more entries than there is room for. -/
def SomeCrowded (linear : Bool) (cfg : KboConfig) (s t : LTerm) : Prop :=
  Crowded (linScan linear cfg) cfg s.erase t.erase ∨
    Fit s t ∧ Crowded flatScan cfg s.erase t.erase

def unitConfig : KboConfig := ⟨fun _ => 1, id, 8, 1⟩

theorem injectiveOn_unitConfig {S : ℕ → ℕ → Prop} (h : ∀ f n, S f n → f < 8) :
    InjectiveOn unitConfig.prec S := by
  intro f g n m hf hg heq
  have hprec : ∀ {f}, f < 8 → unitConfig.prec f = f := fun hf => if_pos hf
  rwa [hprec (h f n hf), hprec (h g m hg)] at heq

theorem fitsI32_unitConfig {S : ℕ → ℕ → Prop} (h : ∀ f n, S f n → f < 8) :
    FitsI32 unitConfig S where
  label f n hf := by
    have hweight : unitConfig.weight f = 1 := if_pos (h f n hf)
    rw [hweight]
    decide
  var := by decide

/-- `f(x)` and `x`. -/
def unaryWorld : KboWorld where
  read w := if w.tag = .ctr then .ctr w.ext [.fvr 0] else .fvr w.ext
  sig f n := f = 1 ∧ n = 1
  play t := t = .fvr 0 ∨ t = .ctr 1 [.fvr 0]
  cfg _ := unitConfig
  fixed := by
    rintro f n m ⟨-, rfl⟩ ⟨-, rfl⟩
    rfl
  inPlay := by
    constructor
    · rintro f args a (h | h) ha
      · cases h
      · obtain ⟨rfl, rfl⟩ := node.inj h
        exact .inl (List.mem_singleton.mp ha)
    · rintro t (rfl | rfl)
      · exact FTerm.over_fvr 0
      · refine FTerm.over_node ⟨rfl, rfl⟩ fun a ha => ?_
        obtain rfl := List.mem_singleton.mp ha
        exact FTerm.over_fvr 0
    · rintro t (rfl | rfl) id hid
      · obtain rfl := Leaf.fvr.inj (List.mem_singleton.mp hid)
        decide
      · obtain rfl := Leaf.fvr.inj (List.mem_singleton.mp hid)
        decide
    · rintro - s t (rfl | rfl) (rfl | rfl) heq
      · rfl
      · exact absurd heq (by decide)
      · exact absurd heq (by decide)
      · rfl
  injective _ := injectiveOn_unitConfig (by rintro f n ⟨rfl, -⟩; decide)
  fits _ := fitsI32_unitConfig (by rintro f n ⟨rfl, -⟩; decide)

def unaryTerm : LTerm := .node ⟨1, 5⟩ [.leaf (.fvr 0)]

theorem has_unaryTerm : (KboSession.start unaryWorld).Has unaryTerm where
  reads := by
    refine .node rfl fun a ha => ?_
    obtain rfl := List.mem_singleton.mp ha
    exact .leaf rfl
  mem := .inr rfl

theorem has_variable : (KboSession.start unaryWorld).Has (.leaf (.fvr 0)) := ⟨.leaf rfl, .inl rfl⟩

theorem not_crowded_leaf {V : Scan} {cfg : KboConfig} {s : FTerm} {l : Leaf}
    (h : ¬ Overflows V s (.leaf l)) : ¬ Crowded V cfg s (.leaf l) := by
  rw [crowded_iff]
  rintro (hover | ⟨f, pre, post, post', a, b, -, hnode, -⟩)
  · exact h hover
  · cases hnode

end Runs

section Crossed

variable {n x y : ℕ}

/-- `f(x, f(y, f(x, ...)))`. -/
def crossed : ℕ → ℕ → ℕ → LTerm
  | 0, x, _ => .leaf (.fvr x)
  | n + 1, x, y => .node ⟨1, 2 * n + x⟩ [.leaf (.fvr x), crossed n y x]

def crossedRead (w : Term) : FTerm :=
  if w.tag = .ctr then (crossed (w.val / 2 + 1) (w.val % 2) (1 - w.val % 2)).erase else .fvr w.ext

theorem reads_crossed (hn : n < 2 ^ 16) (hx : x ≤ 1) (hy : y = 1 - x) :
    (crossed n x y).Reads crossedRead := by
  have hleaf : LTerm.Reads crossedRead (.leaf (.fvr x)) := by
    obtain rfl | rfl : x = 0 ∨ x = 1 := by omega
    · exact .leaf rfl
    · exact .leaf rfl
  induction n generalizing x y with
  | zero => exact hleaf
  | succ n ih =>
    rw [crossed]
    refine .node ?_ fun a ha => ?_
    · have hval : (2 * n + x) % 2 ^ 38 = 2 * n + x := Nat.mod_eq_of_lt (by omega)
      have hdiv : (2 * n + x) / 2 = n := by omega
      have hmod : (2 * n + x) % 2 = x := by omega
      simp only [crossedRead, LTerm.word, termNew, if_pos, hval, hdiv, hmod, hy, crossed]
    · rcases List.mem_pair.mp ha with rfl | rfl
      · exact hleaf
      · apply ih (by omega) (by omega) (by omega)
        obtain rfl | rfl : x = 0 ∨ x = 1 := by omega
        · subst hy; exact .leaf rfl
        · subst hy; exact .leaf rfl

def crossedSig (f n : ℕ) : Prop := f = 1 ∧ n = 2

def crossedPlay (t : FTerm) : Prop := t.Over crossedSig ∧ t.VarsBelow kboMaxVar

theorem inPlay_crossed : InPlay true crossedSig crossedPlay where
  arg _ _ _ h ha := ⟨h.1.arg ha, varsBelow_arg h.2 ha⟩
  built _ h := h.1
  vars _ h := h.2
  hash := nofun

theorem play_crossed (hx : x < kboMaxVar) (hy : y < kboMaxVar) : crossedPlay (crossed n x y).erase := by
  have hleaf : ∀ {z}, z < kboMaxVar → crossedPlay (.fvr z) := by
    intro z hz
    refine ⟨FTerm.over_fvr z, fun id hid => ?_⟩
    obtain rfl := Leaf.fvr.inj (List.mem_singleton.mp hid)
    exact hz
  induction n generalizing x y with
  | zero => exact hleaf hx
  | succ n ih =>
    have hmem : ∀ a ∈ [LTerm.erase (.leaf (.fvr x)), (crossed n y x).erase], crossedPlay a := by
      intro a ha
      rcases List.mem_pair.mp ha with rfl | rfl
      · exact hleaf hx
      · exact ih hy hx
    rw [crossed, LTerm.erase_node]
    refine ⟨FTerm.over_node ⟨rfl, rfl⟩ fun a ha => (hmem a ha).1, fun id hid => ?_⟩
    obtain ⟨a, ha, hid⟩ := mem_leaves_node.mp hid
    exact (hmem a ha).2 id hid

theorem diffBumps_crossed (cfg : KboConfig) (n x y : ℕ) (hne : x ≠ y) :
    diffBumps (linScan true cfg) (crossed (n + 1) x y).erase (crossed (n + 1) y x).erase =
      diffBumps (linScan true cfg) (crossed n y x).erase (crossed n x y).erase ++
        [(x, 1), (y, -1)] := by
  have hleaf : Leaf.fvr x ≠ Leaf.fvr y := fun h => hne (Leaf.fvr.inj h)
  rw [crossed, crossed, LTerm.erase_node, LTerm.erase_node, diffBumps, if_pos ⟨rfl, rfl, rfl⟩]
  simp only [List.map_cons, List.map_nil, diffBumpsArgs, linScan, LTerm.erase_leaf, diffBumps,
    if_neg hleaf]
  rfl

/-- What the bumps of two different variables do. -/
theorem bump_pair (hx : x < kboMaxVar) (hy : y < kboMaxVar) (hne : x ≠ y) (st : KboLin) :
    (applyBumps [(x, 1), (y, -1)] st).bal x = st.bal x + 1 ∧
      (applyBumps [(x, 1), (y, -1)] st).bal y = st.bal y - 1 ∧
      (applyBumps [(x, 1), (y, -1)] st).touched.length = st.touched.length +
        (if st.bal x = 0 then 1 else 0) + if st.bal y = 0 then 1 else 0 := by
  rw [applyBumps_bal hx, applyBumps_bal hy, applyBumps_touched]
  refine ⟨?_, ?_, ?_⟩
  · simp [net_cons, hne.symm]
  · simp only [net_cons, net_nil, if_neg hne, if_true]
    ring
  · simp only [leavings, if_neg (Nat.not_le.mpr hx), if_neg (Nat.not_le.mpr hy),
      Function.update_of_ne hne.symm, add_zero, add_assoc]

/-- The two variables are put down anew every second level. -/
theorem applyBumps_crossed (cfg : KboConfig) (hx : x < kboMaxVar) (hy : y < kboMaxVar) (hne : x ≠ y)
    {st : KboLin} (hst : st = applyBumps (diffBumps (linScan true cfg) (crossed n x y).erase
      (crossed n y x).erase) (.clear false)) :
    (n % 2 = 0 → st.bal x = 1 ∧ st.bal y = -1 ∧ st.touched.length = n + 2) ∧
      (n % 2 = 1 → st.bal x = 0 ∧ st.bal y = 0 ∧ st.touched.length = n + 1) := by
  induction n generalizing x y st with
  | zero =>
    have hleaf : Leaf.fvr x ≠ Leaf.fvr y := fun h => hne (Leaf.fvr.inj h)
    have hbumps : diffBumps (linScan true cfg) (crossed 0 x y).erase (crossed 0 y x).erase =
        [(x, 1), (y, -1)] := by
      simp only [crossed, LTerm.erase_leaf, diffBumps, if_neg hleaf]
      rfl
    obtain ⟨hbx, hby, hlen⟩ := bump_pair hx hy hne (.clear false)
    rw [hbumps] at hst
    rw [hst, hbx, hby, hlen]
    exact ⟨fun _ => ⟨rfl, rfl, rfl⟩, fun h => absurd h (by decide)⟩
  | succ n ih =>
    obtain ⟨heven, hodd⟩ := ih hy hx hne.symm rfl
    rw [diffBumps_crossed cfg n x y hne, applyBumps_append] at hst
    obtain ⟨hbx, hby, hlen⟩ := bump_pair hx hy hne (applyBumps (diffBumps (linScan true cfg)
      (crossed n y x).erase (crossed n x y).erase) (.clear false))
    rw [hst, hbx, hby, hlen]
    constructor
    · intro h
      obtain ⟨hy', hx', hlen'⟩ := hodd (by omega)
      rw [hx', hy', hlen']
      exact ⟨rfl, rfl, rfl⟩
    · intro h
      obtain ⟨hy', hx', hlen'⟩ := heven (by omega)
      rw [hx', hy', hlen']
      exact ⟨rfl, rfl, rfl⟩

theorem crowded_crossed (cfg : KboConfig) :
    Crowded (linScan true cfg) cfg (crossed 64 0 1).erase (crossed 64 1 0).erase := by
  refine ⟨_, _, .here _ _, ?_⟩
  obtain ⟨-, -, hlen⟩ := (applyBumps_crossed (n := 64) cfg (by decide : 0 < kboMaxVar)
    (by decide : 1 < kboMaxVar) (by decide) rfl).1 rfl
  rw [applyBumps_touched] at hlen
  rw [Overflows]
  have hzero : (KboLin.clear false).touched.length = 0 := rfl
  rw [hzero, zero_add] at hlen
  exact lt_of_lt_of_eq (by decide : kboMaxVar < 64 + 2) hlen.symm

end Crossed

end Thvm.Kbo

/-!
## `thvm_kbo` as a reduction ordering

What the calls of all runs answer for one configuration is a reduction ordering. Ids from
`KBO_MAX_VAR` on have no balance, and terms with one hash have one weight; such terms
are not in play.
-/

namespace Thvm.Kbo

open TermTree TransitionRuns

/-- The conditions on weights and precedence that make the ordering one. -/
structure Admissible (cfg : KboConfig) (S : ℕ → ℕ → Prop) : Prop where
  injective : InjectiveOn cfg.prec S
  var_pos : 0 < cfg.varWeight
  const : ∀ f, S f 0 → cfg.varWeight ≤ cfg.weight f
  unary : ∀ f, S f 1 → cfg.weight f = 0 → ∀ g n, S g n → cfg.prec g ≤ cfg.prec f

/-- In some run, a call on terms of the signature answers so. -/
def KboTells (cfg : KboConfig) (S : ℕ → ℕ → Prop) (s t : FTerm) (c : Cmp) : Prop :=
  ∃ (w : KboWorld) (ops : List KboOp) (σ : KboSession) (linear : Bool) (addr : ℕ) (s' t' : LTerm),
    Run KboStep (.start w) ops σ ∧ σ.world.cfg addr = cfg ∧ σ.world.sig = S ∧ σ.Has s' ∧ σ.Has t' ∧
      s'.erase = s ∧ t'.erase = t ∧ (σ.kbo linear addr s' t').1 = some c

variable {cfg : KboConfig} {S : ℕ → ℕ → Prop} {s t u : FTerm} {c c' : Cmp}

theorem KboTells.verdict (h : KboTells cfg S s t c) : c = kboVerdict cfg s t := by
  obtain ⟨w, ops, σ, linear, addr, s', t', hrun, rfl, -, hs, ht, rfl, rfl, hres⟩ := h
  exact ((KboSession.sound_of_run hrun).kbo linear addr hs ht).1.some_eq c hres

theorem KboTells.over_left (h : KboTells cfg S s t c) : s.Over S := by
  obtain ⟨w, ops, σ, linear, addr, s', t', -, -, rfl, hs, -, rfl, -⟩ := h
  exact σ.world.inPlay.built _ hs.mem

theorem KboTells.gt (h : KboTells cfg S s t .gt) : KboGt cfg s t := kboVerdict_gt_iff.mp h.verdict.symm

theorem KboTells.eq_gt (h : KboTells cfg S s t c) (hgt : KboGt cfg s t) : c = .gt := by
  rw [h.verdict, kboVerdict_of_gt hgt]

/-- The answers of a comparison to all calls, as far as it answers them. -/
structure ReductionOrder (R : FTerm → FTerm → Cmp → Prop) : Prop where
  irrefl : ∀ t, ¬ R t t .gt
  trans : ∀ s t u c, R s t .gt → R t u .gt → R s u c → c = .gt
  context : ∀ f pre post a b c, R a b .gt →
    R (.node f (pre ++ a :: post)) (.node f (pre ++ b :: post)) c → c = .gt
  subst : ∀ θ s t c, R s t .gt → R (s.subst θ) (t.subst θ) c → c = .gt
  converse : ∀ s t c c', R s t c → R t s c' → c' = c.flip

theorem over_subst {θ : Leaf → FTerm} {l : Leaf} (h : FTerm.Over S (s.subst θ)) (hl : l ∈ s.leaves) :
    (θ l).Over S := by
  induction s using TermTree.induct with
  | leaf l' =>
    obtain rfl := List.mem_singleton.mp hl
    exact h
  | node f args ih =>
    obtain ⟨a, ha, hla⟩ := mem_leaves_node.mp hl
    rw [subst_node] at h
    exact ih a ha (h.arg (List.mem_map_of_mem ha)) hla

theorem leaf_le_of_over (hadm : Admissible cfg S) (h : t.Over S) :
    cfg.scale.leaf ≤ cfg.scale.weight t :=
  KnuthBendix.Scale.leaf_le_weight hadm.const h.every

theorem admissible_unitConfig : Admissible unitConfig fun f n => f = 1 ∧ n = 1 where
  injective := injectiveOn_unitConfig (by rintro f n ⟨rfl, -⟩; decide)
  var_pos := by decide
  const := by rintro f ⟨-, h⟩; cases h
  unary := by rintro f ⟨rfl, -⟩ h; cases h

/-- `f(...f(a))`. -/
def nestedConst : ℕ → LTerm
  | 0 => .node ⟨2, 0⟩ []
  | n + 1 => .node ⟨1, n + 1⟩ [nestedConst n]

/-- `k(g(a, ..., a, t))` with 16 arguments before `t`. -/
def behindArgs (label loc : ℕ) (t : LTerm) : LTerm :=
  .node ⟨label, loc⟩ [.node ⟨3, loc + 1⟩ (List.replicate 16 (nestedConst 0) ++ [t])]

end Thvm.Kbo
