import Thvm.KnuthBendixRuns
import Thvm.WeightedPathOrderSpec

/-!
# Runs of the comparators around `thvm_wpo`

`thvm_wpo` empties its own memo and takes weights from the tables of `thvm_kbo`, which
others fill too. Its result is that of empty tables while these hold weights of its
configuration and of the heap as it is.
-/

namespace Thvm.Wpo

open MemoTables Kbo TermTree TransitionRuns

/-! ### Weights that two configurations share -/

def SameWeights (k cfg : KboConfig) : Prop := k.weight = cfg.weight ∧ k.varWeight = cfg.varWeight

section Same

variable {k cfg : KboConfig} {W : Term → FTerm} {T : FTerm → Prop} {m : KboMemos}

theorem SameWeights.symm (h : SameWeights k cfg) : SameWeights cfg k := ⟨h.1.symm, h.2.symm⟩

theorem SameWeights.trans {k' : KboConfig} (h : SameWeights k k') (h' : SameWeights k' cfg) :
    SameWeights k cfg :=
  ⟨h.1.trans h'.1, h.2.trans h'.2⟩

theorem kboWeighArgs_same (h : SameWeights k cfg) {args : List FTerm}
    (hargs : ∀ a ∈ args, kboWeigh k a = kboWeigh cfg a) (acc : KboWeight) :
    kboWeighArgs k args acc = kboWeighArgs cfg args acc := by
  induction args generalizing acc with
  | nil => rfl
  | cons a as ih =>
    rw [List.forall_mem_cons] at hargs
    cases a with
    | leaf l =>
      cases l with
      | fvr id =>
        have hvar : acc.addVar k id = acc.addVar cfg id := by
          rw [KboWeight.addVar, KboWeight.addVar, h.2]
        rw [kboWeighArgs, kboWeighArgs, hvar, ih hargs.2]
      | num dtype value => exact ih hargs.2 _
    | node f bs => rw [kboWeighArgs, kboWeighArgs, hargs.1, ih hargs.2]

theorem kboWeigh_same (h : SameWeights k cfg) (t : FTerm) : kboWeigh k t = kboWeigh cfg t := by
  induction t using TermTree.induct with
  | leaf l => rfl
  | node f args ih => rw [kboWeigh, kboWeigh, h.1, kboWeighArgs_same h ih]

theorem right_of_same (h : SameWeights k cfg) (hm : Right k W T m) : Right cfg W T m where
  thash := hm.thash
  wmemo := hm.wmemo.imp fun hash e he => by
    obtain ⟨u, hu, hhash, rfl⟩ := he
    exact ⟨u, hu, hhash, kboWeigh_same h u⟩

theorem right_start : Right cfg W T .start :=
  ⟨fun _ h => absurd h Nat.zero_ne_one, fun _ h => absurd h Nat.zero_ne_one⟩

end Same

/-! ### Any comparison by `thvm_kbo` keeps the tables right, or as they are -/

section Core

variable {linear : Bool} {cfg : KboConfig} {W : Term → FTerm} {S : ℕ → ℕ → Prop} {T : FTerm → Prop}
  {s t : LTerm} {as bs : List LTerm} {I : KboMemos → Prop}

theorem kboLinLex_right (hI : linear = false → I = Right cfg W T)
    (hT : InPlay linear S T) (hs : ∀ a ∈ as, Weighable W T a)
    (ht : ∀ b ∈ bs, Weighable W T b) (st : KboLin) :
    Ensures I (kboLinLex linear cfg as bs st)
      fun run => ∀ p, run.1 = some p → Weighable W T p.s ∧ Weighable W T p.t := by
  induction as generalizing bs st with
  | nil => exact Ensures.pure nofun
  | cons a as ih =>
    cases bs with
    | nil => exact Ensures.pure nofun
    | cons b bs =>
      rw [List.forall_mem_cons] at hs ht
      apply (kboVortest_answers hI hT hs.1 ht.1 st).ensures
      dsimp only
      split
      · exact ih hs.2 ht.2 _
      · refine Ensures.pure fun p hp => ?_
        obtain rfl := Option.some.inj hp
        exact ⟨hs.1, ht.1⟩

theorem kboLinRek_right (hI : linear = false → I = Right cfg W T)
    (hT : InPlay linear S T) {n : ℕ} (p : KboPair) (hs : Weighable W T p.s)
    (ht : Weighable W T p.t) (levels : List Cmp) (st : KboLin) :
    Ensures I (kboLinRek linear cfg n p levels st) fun _ => True := by
  induction n generalizing p levels st with
  | zero => exact Ensures.pure trivial
  | succ n ih =>
    obtain ⟨s, t, phidiff, varcmp⟩ := p
    rw [kboLinRek.eq_def]
    dsimp only
    split
    · exact Ensures.pure trivial
    · split
      · split
        · exact Ensures.pure trivial
        · split
          · exact Ensures.pure trivial
          · split
            · exact Ensures.pure trivial
            · split
              · exact Ensures.pure trivial
              · apply (kboLinLex_right hI hT (fun a ha => hs.arg hT ha) (fun b hb => ht.arg hT hb) st).bind
                rintro ⟨next, st'⟩ hnext
                cases next with
                | none => exact Ensures.pure trivial
                | some q =>
                  obtain ⟨hqs, hqt⟩ := hnext q rfl
                  exact ih q hqs hqt _ _
      · exact Ensures.pure trivial

theorem kboCompareCore_right (hI : linear = false → I = Right cfg W T)
    (hT : InPlay linear S T) (hs : Weighable W T s) (ht : Weighable W T t)
    (lin : KboLin) :
    Ensures I (kboCompareCore linear cfg s t lin) fun _ => True := by
  apply (kboVortest_answers hI hT hs ht _).ensures
  dsimp only
  split
  · exact Ensures.pure trivial
  · exact kboLinRek_right hI hT _ hs ht _ _

end Core

/-! ### Runs -/

/-- What the words mean, the signature and the terms in play. -/
structure WpoWorld where
  read : Term → LTerm
  sig : ℕ → ℕ → Prop
  play : FTerm → Prop
  inPlay : InPlay false sig play

/-- The state of both modules with the configurations of `thvm_kbo` by address. The
configurations that the tables were filled under since they were last emptied are kept,
and whether the heap has moved under what they hold. -/
structure WpoSession where
  world : WpoWorld
  cfgs : ℕ → KboConfig
  st : KboState
  wpo : WpoMemo
  filled : List KboConfig
  moved : Bool

inductive WpoOp where
  | wpo (cfg : WpoConfig) (s t : LTerm)
  | weigh (cfg : KboConfig) (t : LTerm)
  | kbo (linear : Bool) (addr : ℕ) (s t : LTerm)
  | flat (linear : Bool) (addr : ℕ) (s t : LTerm)
  | nomemo (addr : ℕ) (s t : LTerm)
  | edit (cfgs : ℕ → KboConfig)
  | invalidateWpo
  | invalidateKbo
  | collect (w : WpoWorld)
  | drift (w : WpoWorld)
  | persist (on : Bool)

namespace WpoSession

def start (w : WpoWorld) (cfgs : ℕ → KboConfig) : WpoSession :=
  ⟨w, cfgs, .start, WpoTables.start.wpo, [], false⟩

def tables (σ : WpoSession) : WpoTables := ⟨σ.st.memos, σ.wpo⟩

/-- A call of `thvm_wpo`. -/
def call (σ : WpoSession) (cfg : WpoConfig) (s t : LTerm) : Cmp × WpoTables :=
  (thvmWpo cfg s t).run σ.tables

/-- A term of the session. -/
def Has (σ : WpoSession) (t : LTerm) : Prop := Placed σ.world.read σ.world.play t

/-- The tables hold nothing, or weights of the configuration under the heap as it is. -/
def Steady (σ : WpoSession) (cfg : KboConfig) : Prop :=
  σ.moved = false ∧ ∀ k ∈ σ.filled, SameWeights k cfg

def fill (σ : WpoSession) (cfg : KboConfig) (memos : KboMemos) : WpoSession :=
  { σ with st := { σ.st with memos := memos }, filled := cfg :: σ.filled }

def emptied (σ : WpoSession) (st : KboState) : WpoSession :=
  { σ with st := st, filled := [], moved := false }

/-- The session in which `thvm_kbo` compares, after `kbo_enter`. -/
def entered (σ : WpoSession) (addr : ℕ) : WpoSession :=
  if σ.st.persist = true ∧ addr = σ.st.lastCfg then σ else σ.emptied (kboEnter addr σ.st)

/-- The session after `thvm_kbo`. -/
def compared (σ : WpoSession) (linear : Bool) (addr : ℕ) (s t : LTerm) : WpoSession :=
  { σ.entered addr with
    st := (thvmKbo linear addr (σ.cfgs addr) s t σ.st).2
    filled := σ.cfgs addr :: (σ.entered addr).filled }

end WpoSession

open WpoSession in
/-- The heap, the configurations and the switches may change at any time. -/
inductive WpoStep : WpoSession → WpoOp → WpoSession → Prop
  | wpo {σ : WpoSession} (cfg : WpoConfig) {s t : LTerm} (hs : σ.Has s) (ht : σ.Has t) :
      WpoStep σ (.wpo cfg s t)
        { σ.fill cfg.kbo (σ.call cfg s t).2.kbo with wpo := (σ.call cfg s t).2.wpo }
  | weigh {σ : WpoSession} (cfg : KboConfig) {t : LTerm} (ht : σ.Has t) :
      WpoStep σ (.weigh cfg t) (σ.fill cfg ((thvmKboTermWeight cfg t).run σ.st.memos).2)
  | kbo {σ : WpoSession} (linear : Bool) (addr : ℕ) {s t : LTerm} (hs : σ.Has s) (ht : σ.Has t)
      (hres : (thvmKbo linear addr (σ.cfgs addr) s t σ.st).1 ≠ none) :
      WpoStep σ (.kbo linear addr s t) (σ.compared linear addr s t)
  | flat {σ : WpoSession} (linear : Bool) (addr : ℕ) {s t : LTerm} (hs : σ.Has s) (ht : σ.Has t)
      (hfit : Fit s t) (hres : (thvmKboFlat linear addr (σ.cfgs addr) s t σ.st).1 ≠ none) :
      WpoStep σ (.flat linear addr s t)
        { σ with st := (thvmKboFlat linear addr (σ.cfgs addr) s t σ.st).2 }
  | nomemo {σ : WpoSession} (addr : ℕ) {s t : LTerm} (hs : σ.Has s) (ht : σ.Has t)
      (hres : (thvmKboNomemo (σ.cfgs addr) s t σ.st).1 ≠ none) :
      WpoStep σ (.nomemo addr s t) { σ with st := (thvmKboNomemo (σ.cfgs addr) s t σ.st).2 }
  | edit (σ : WpoSession) (cfgs : ℕ → KboConfig) : WpoStep σ (.edit cfgs) { σ with cfgs := cfgs }
  | invalidateWpo (σ : WpoSession) :
      WpoStep σ .invalidateWpo { σ with wpo := σ.tables.invalidate.wpo }
  | invalidateKbo (σ : WpoSession) : WpoStep σ .invalidateKbo (σ.emptied σ.st.invalidate)
  | collect (σ : WpoSession) (w : WpoWorld) :
      WpoStep σ (.collect w) { σ.emptied σ.st.invalidate with world := w }
  | drift (σ : WpoSession) (w : WpoWorld) :
      WpoStep σ (.drift w) { σ with world := w, moved := σ.moved || !σ.filled.isEmpty }
  | persist (σ : WpoSession) (on : Bool) :
      WpoStep σ (.persist on) { σ with st := σ.st.setPersist on }

section Runs

variable {w : WpoWorld} {cfgs : ℕ → KboConfig} {σ σ' : WpoSession} {op : WpoOp} {ops : List WpoOp}
  {cfg : WpoConfig} {k : KboConfig} {s t : LTerm}

/-- The tables are right for every configuration that they are steady for, and for
everything while nothing has filled them. -/
structure WpoSession.Sound (σ : WpoSession) : Prop where
  right : ∀ k, σ.Steady k →
    Right k (fun w => (σ.world.read w).erase) σ.world.play σ.st.memos
  empty : σ.filled = [] → ∀ k W T, Right k W T σ.st.memos

theorem WpoSession.sound_emptied (σ : WpoSession) (st : KboState)
    (h : ∀ k W T, Right k W T st.memos) : (σ.emptied st).Sound :=
  ⟨fun k _ => h k _ _, fun _ => h⟩

theorem WpoSession.Steady.of_cons {k' : KboConfig} {ks : List KboConfig} (h : σ.Steady k)
    (hfilled : σ.filled = k' :: ks) : SameWeights k' k ∧ ∀ l ∈ ks, SameWeights l k' := by
  have hall := h.2
  rw [hfilled, List.forall_mem_cons] at hall
  exact ⟨hall.1, fun l hl => (hall.2 l hl).trans hall.1.symm⟩

theorem WpoSession.Sound.fill (h : σ.Sound) {memos : KboMemos}
    (hmemos : Right k (fun w => (σ.world.read w).erase) σ.world.play σ.st.memos →
      Right k (fun w => (σ.world.read w).erase) σ.world.play memos) : (σ.fill k memos).Sound where
  right k' hk' := by
    obtain ⟨hsame, hrest⟩ := hk'.of_cons rfl
    exact right_of_same hsame (hmemos (h.right k ⟨hk'.1, hrest⟩))
  empty := nofun

theorem WpoSession.Sound.entered (h : σ.Sound) (addr : ℕ) : (σ.entered addr).Sound := by
  unfold WpoSession.entered
  split
  · exact h
  · next hnot =>
    refine σ.sound_emptied _ fun k W T => kboEnter_right fun hpersist haddr => ?_
    exact absurd ⟨hpersist, haddr⟩ hnot

theorem WpoSession.entered_memos (σ : WpoSession) (addr : ℕ) :
    (σ.entered addr).st.memos = (kboEnter addr σ.st).memos := by
  unfold WpoSession.entered
  split
  · next h => rw [kboEnter, if_pos h.1, if_neg (not_not.mpr h.2)]
  · rfl

theorem WpoSession.entered_world (σ : WpoSession) (addr : ℕ) :
    (σ.entered addr).world = σ.world := by
  unfold WpoSession.entered
  split
  · rfl
  · rfl

theorem WpoSession.Sound.compared (h : σ.Sound) (linear : Bool) (addr : ℕ) (hs : σ.Has s)
    (ht : σ.Has t) : (σ.compared linear addr s t).Sound where
  right k hk := by
    obtain ⟨hsame, hrest⟩ := hk.of_cons rfl
    have hright := (h.entered addr).right (σ.cfgs addr) ⟨hk.1, hrest⟩
    rw [WpoSession.entered_memos, WpoSession.entered_world] at hright
    have hworld : (σ.compared linear addr s t).world = σ.world := σ.entered_world addr
    rw [hworld]
    refine right_of_same hsame ?_
    exact (kboCompareCore_right (fun _ => rfl) (σ.world.inPlay.walks linear) hs.weighable ht.weighable
      _ _ hright).2
  empty := nofun

/-- A step that leaves the tables alone. -/
theorem WpoSession.Sound.of_memos (h : σ.Sound) (st : KboState) (hst : st.memos = σ.st.memos) :
    WpoSession.Sound { σ with st := st } where
  right k hk := hst ▸ h.right k hk
  empty hfilled := hst ▸ h.empty hfilled

theorem thvmKboFlat_memos {linear : Bool} {addr : ℕ} {st : KboState} (hs : σ.Has s) (ht : σ.Has t)
    (hfit : Fit s t) : (thvmKboFlat linear addr k s t st).2.memos = st.memos := by
  rw [thvmKboFlat, kboFlatEncode_eq hs.weighable σ.world.inPlay hfit.1,
    kboFlatEncode_eq ht.weighable σ.world.inPlay hfit.2]
  rfl

theorem thvmKboNomemo_memos {st : KboState} (hs : σ.Has s) (ht : σ.Has t) :
    (thvmKboNomemo k s t st).2.memos = st.memos :=
  have hI : true = false → (· = st.memos) =
      Right k (fun w => (σ.world.read w).erase) σ.world.play := nofun
  (kboCompareCore_right hI (σ.world.inPlay.walks true) hs.weighable ht.weighable st.lin st.memos rfl).2

theorem WpoStep.sound (h : WpoStep σ op σ') (hσ : σ.Sound) : σ'.Sound := by
  cases h with
  | @wpo cfg s t hs ht =>
    have hfill : (σ.fill cfg.kbo (σ.call cfg s t).2.kbo).Sound := by
      apply hσ.fill
      exact fun hm => (thvmWpo_answers (m := σ.tables) σ.world.inPlay hs ht hm).2
    exact ⟨hfill.right, hfill.empty⟩
  | weigh cfg ht =>
    exact hσ.fill fun hm => (thvmKboTermWeight_answers σ.world.inPlay ht.weighable _ hm).2
  | kbo linear addr hs ht hres => exact hσ.compared linear addr hs ht
  | flat linear addr hs ht hfit hres => exact hσ.of_memos _ (thvmKboFlat_memos hs ht hfit)
  | nomemo addr hs ht hres => exact hσ.of_memos _ (thvmKboNomemo_memos hs ht)
  | edit cfgs => exact ⟨hσ.right, hσ.empty⟩
  | invalidateWpo => exact ⟨hσ.right, hσ.empty⟩
  | invalidateKbo => exact σ.sound_emptied _ fun _ _ _ => right_invalidate _
  | collect w => exact ⟨fun _ _ => right_invalidate _, fun _ _ _ _ => right_invalidate _⟩
  | drift w =>
    refine ⟨fun k hk => ?_, hσ.empty⟩
    obtain ⟨-, hempty⟩ := Bool.or_eq_false_iff.mp hk.1
    apply hσ.empty
    simpa using hempty
  | persist on => exact hσ.of_memos _ rfl

theorem WpoSession.sound_of_run (h : Run WpoStep (start w cfgs) ops σ) : σ.Sound := by
  apply h.invariant (I := fun _ σ => WpoSession.Sound σ)
  · exact ⟨fun _ _ => right_start, fun _ _ _ _ => right_start⟩
  · exact fun ls σ op σ' hσ hstep => hstep.sound hσ

/-- `f(x)` and `x`. -/
def unaryWorld : WpoWorld where
  read w := if w.tag = .ctr then .node ⟨w.ext, w.val⟩ [.leaf (.fvr 0)] else .leaf (.fvr w.ext)
  sig := Kbo.unaryWorld.sig
  play := Kbo.unaryWorld.play
  inPlay := Kbo.unaryWorld.inPlay

theorem has_unaryTerm : (WpoSession.start unaryWorld fun _ => unitConfig).Has unaryTerm where
  located := by
    refine .node rfl fun a ha => ?_
    obtain rfl := List.mem_singleton.mp ha
    exact .leaf rfl
  mem := .inr rfl

theorem has_variable : (WpoSession.start unaryWorld fun _ => unitConfig).Has (.leaf (.fvr 0)) :=
  ⟨.leaf rfl, .inl rfl⟩

/-- `f(a)`. -/
def unaryConst (f loc : ℕ) : LTerm := .node ⟨f, loc⟩ [.node ⟨3, 20⟩ []]

/-- Weight two for one symbol and one for all others. -/
def heavy (f : ℕ) : WpoConfig := ⟨fun g => if g = f then 2 else 1, id, none, 8, 1⟩

end Runs

end Thvm.Wpo
