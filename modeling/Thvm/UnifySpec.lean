import Mathlib.Data.Finset.Card
import Mathlib.Data.Finset.Range
import Mathlib.Logic.Function.Basic
import Thvm.BoundedLoops
import Thvm.FirstOrderTerms
import Thvm.TriangularBindings

/-!
# Unification

The substitution is triangular and is updated in place. A log of the bound ids,
when it is armed, lets the caller clear what one attempt has bound.
-/

namespace Thvm

/-- `RewriteSubst` with the undo log. -/
structure UnifyState where
  bindings : ℕ → Option FTerm
  log : List ℕ
  armed : Bool
  unOver : Bool

def unLogCap : ℕ := 128

namespace UnifyState

variable (st : UnifyState)

def empty : UnifyState := ⟨fun _ => none, [], false, false⟩

def undoBegin : UnifyState := { st with log := [], unOver := false, armed := true }

def clear (b : ℕ → Option FTerm) : List ℕ → ℕ → Option FTerm
  | [] => b
  | id :: ids => clear (Function.update b id none) ids

def undo : UnifyState where
  bindings := if st.unOver then fun _ => none else clear st.bindings st.log
  log := []
  armed := false
  unOver := false

def unLogBind (id : ℕ) : UnifyState :=
  if !st.armed then st
  else if st.log.length < unLogCap then { st with log := st.log ++ [id] }
  else { st with unOver := true }

def bind (id : ℕ) (t : FTerm) : UnifyState :=
  unLogBind { st with bindings := Function.update st.bindings id (some t) } id

end UnifyState

def unifyWalk (b : ℕ → Option FTerm) : ℕ → FTerm → Option FTerm
  | 0, _ => none
  | rounds + 1, .fvr id =>
    if rewriteMaxVar ≤ id then some (.fvr id)
    else
      match b id with
      | none => some (.fvr id)
      | some t => unifyWalk b rounds t
  | _ + 1, t => some t

def anyArg (p : FTerm → Option Bool) : List FTerm → Option Bool
  | [] => some false
  | a :: as => do if ← p a then some true else anyArg p as

/-- The occurs check after the walk. -/
def occursAt (occurs : FTerm → Option Bool) (varId : ℕ) : FTerm → Option Bool
  | .fvr id => some (id == varId)
  | .ctr _ args => anyArg occurs args
  | _ => some false

def unifyOccurs (b : ℕ → Option FTerm) (varId : ℕ) : ℕ → FTerm → Option Bool
  | 0, _ => none
  | rounds + 1, t => do occursAt (unifyOccurs b varId rounds) varId (← unifyWalk b rounds t)

/-- The binding sites of `thvm_unify`. -/
def unifyBind (rounds id : ℕ) (t : FTerm) (st : UnifyState) : Option (Bool × UnifyState) :=
  if rewriteMaxVar ≤ id then some (false, st)
  else do
    if ← unifyOccurs st.bindings id rounds t then some (false, st) else some (true, st.bind id t)

def unifyArgs (unify : FTerm → FTerm → UnifyState → Option (Bool × UnifyState)) :
    List FTerm → List FTerm → UnifyState → Option (Bool × UnifyState)
  | a :: as, b :: bs, st => do
    let (ok, st) ← unify a b st
    if ok then unifyArgs unify as bs st else some (false, st)
  | _, _, st => some (true, st)

/-- `thvm_unify` after the walks. -/
def unifyAt (rounds : ℕ) (unify : FTerm → FTerm → UnifyState → Option (Bool × UnifyState))
    (s t : FTerm) (st : UnifyState) : Option (Bool × UnifyState) :=
  if kboEq s t then some (true, st)
  else
    match s, t with
    | .fvr id, t => unifyBind rounds id t st
    | s, .fvr id => unifyBind rounds id s st
    | .ctr f as, .ctr g bs =>
      if f ≠ g then some (false, st)
      else if as.length ≠ bs.length then some (false, st)
      else unifyArgs unify as bs st
    | _, _ => some (false, st)

def thvmUnify : ℕ → FTerm → FTerm → UnifyState → Option (Bool × UnifyState)
  | 0, _, _, _ => none
  | rounds + 1, s, t, st => do
    let s ← unifyWalk st.bindings rounds s
    let t ← unifyWalk st.bindings rounds t
    unifyAt rounds (thvmUnify rounds) s t st

/-- `thvm_unify_apply` after the walk. -/
def applyAt (apply : FTerm → Option FTerm) : FTerm → Option FTerm
  | .ctr label args =>
    if rewriteMaxArity < args.length then some (.ctr label args)
    else do
      let args ← args.mapM apply
      some (.ctr label args)
  | t => some t

def thvmUnifyApply (b : ℕ → Option FTerm) : ℕ → FTerm → Option FTerm
  | 0, _ => none
  | rounds + 1, t => do applyAt (thvmUnifyApply b rounds) (← unifyWalk b rounds t)

end Thvm

/-!
## Unification finds a most general unifier

The bindings stay acyclic, every solution of the new bindings is a solution of the
old ones that makes the two terms equal, and the other way round. Each call either
leaves the bindings alone or binds one more variable.
-/

namespace Thvm.Unification
open Relation BoundedLoops Triangular

variable {b : ℕ → Option FTerm} {s t u : FTerm} {id : ℕ} {θ : ℕ → FTerm}

def leafBindings (b : ℕ → Option FTerm) : Bindings Leaf ℕ
  | .fvr id => b id
  | .num _ _ => none

def Solution (θ : ℕ → FTerm) (b : ℕ → Option FTerm) : Prop :=
  ∀ id t, b id = some t → θ id = t.inst θ

theorem solves_onLeaves : Solves (onLeaves θ) (leafBindings b) ↔ Solution θ b := by
  constructor
  · intro h id t ht
    exact h (.fvr id) t ht
  · rintro h (id | ⟨dtype, value⟩) t ht
    · exact h id t ht
    · cases ht

/-- What holds of the bindings between the calls. -/
structure Sound (b : ℕ → Option FTerm) : Prop where
  acyclic : Acyclic (leafBindings b)
  below : ∀ id t, b id = some t → id < rewriteMaxVar ∧ t.VarsBelow rewriteMaxVar ∧ t.ArityCapped

/-- The substitution that the bindings stand for. -/
noncomputable def solution (h : Sound b) (id : ℕ) : FTerm :=
  resolve (leafBindings b) h.acyclic (.fvr id)

theorem onLeaves_solution (h : Sound b) :
    onLeaves (solution h) = resolve (leafBindings b) h.acyclic := by
  funext l
  cases l with
  | fvr id => rfl
  | num dtype value => exact (resolve_unbound h.acyclic rfl).symm

theorem solution_solves (h : Sound b) : Solution (solution h) b := by
  rw [← solves_onLeaves, onLeaves_solution h]
  exact solves_resolve h.acyclic

theorem solution_unbound (h : Sound b) (hid : b id = none) : solution h id = .fvr id :=
  resolve_unbound h.acyclic hid

theorem inst_solution_inst (h : Sound b) (hθ : Solution θ b) (t : FTerm) :
    (t.inst (solution h)).inst θ = t.inst θ := by
  unfold FTerm.inst
  rw [onLeaves_solution h]
  exact subst_resolve_subst h.acyclic (solves_onLeaves.mpr hθ) t

theorem Sound.congr {b' : ℕ → Option FTerm} (h : Sound b) (h' : Sound b') (heq : b' = b)
    (t : FTerm) : t.inst (solution h') = t.inst (solution h) := by
  subst heq
  rfl

theorem Sound.induct (h : Sound b) {motive : FTerm → Prop}
    (unbound : ∀ id, b id = none → motive (.fvr id)) (num : ∀ d v, motive (.num d v))
    (bound : ∀ id t, b id = some t → motive t → motive (.fvr id))
    (ctr : ∀ label args, (∀ a ∈ args, motive a) → motive (.ctr label args)) (t : FTerm) :
    motive t := by
  apply h.acyclic.induct
  · rintro (id | ⟨dtype, value⟩) hl
    · exact unbound id hl
    · exact num dtype value
  · rintro (id | ⟨dtype, value⟩) t ht hmotive
    · exact bound id t ht hmotive
    · cases ht
  · exact ctr

/-- The result of a walk: a term with the same meaning that is not a bound variable. -/
structure Walked (h : Sound b) (t u : FTerm) : Prop where
  settles : Settles (fun n => unifyWalk b n t) u
  inst : u.inst (solution h) = t.inst (solution h)
  unbound : ∀ id, u = .fvr id → b id = none
  below : t.VarsBelow rewriteMaxVar → u.VarsBelow rewriteMaxVar
  capped : t.ArityCapped → u.ArityCapped

theorem unifyWalk_self (hwalk : ∀ n, unifyWalk b (n + 1) t = some t) :
    Settles (fun n => unifyWalk b n t) t :=
  (Settles.const t).succ hwalk

theorem unifyWalk_unbound (hid : b id = none) : Settles (fun n => unifyWalk b n (.fvr id)) (.fvr id) := by
  apply unifyWalk_self
  intro n
  rw [unifyWalk, hid]
  split <;> rfl

theorem Walked.self (h : Sound b) (hwalk : Settles (fun n => unifyWalk b n t) t)
    (hid : ∀ id, t = .fvr id → b id = none) : Walked h t t where
  settles := hwalk
  inst := rfl
  unbound := hid
  below := fun ht => ht
  capped := fun ht => ht

theorem unifyWalk_spec (h : Sound b) (t : FTerm) : ∃ u, Walked h t u := by
  induction t using h.induct with
  | unbound id hid =>
    refine ⟨.fvr id, .self h (unifyWalk_unbound hid) ?_⟩
    intro id' heq
    cases heq
    exact hid
  | num d v => exact ⟨.num d v, .self h (unifyWalk_self fun n => rfl) fun id heq => nomatch heq⟩
  | bound id t hid ih =>
    obtain ⟨u, hu⟩ := ih
    obtain ⟨hlt, hbelow, hcapped⟩ := h.below id t hid
    refine ⟨u, hu.settles.succ fun n => ?_, ?_, hu.unbound, fun _ => hu.below hbelow,
      fun _ => hu.capped hcapped⟩
    · rw [unifyWalk, if_neg (Nat.not_le.mpr hlt), hid]
    · rw [hu.inst, FTerm.inst_fvr, solution_solves h id t hid]
  | ctr label args _ =>
    exact ⟨.ctr label args, .self h (unifyWalk_self fun n => rfl) fun id heq => nomatch heq⟩

theorem Walked.bound (h : Sound b) (hid : b id = some t) (hu : Walked h t u) :
    Settles (fun n => unifyWalk b n (.fvr id)) u := by
  obtain ⟨hlt, -, -⟩ := h.below id t hid
  apply hu.settles.succ
  intro n
  rw [unifyWalk, if_neg (Nat.not_le.mpr hlt), hid]

theorem anyArg_settles {p : ℕ → FTerm → Option Bool} {q : FTerm → Bool} {args : List FTerm}
    (h : ∀ a ∈ args, Settles (fun n => p n a) (q a)) :
    Settles (fun n => anyArg (p n) args) (args.any q) := by
  induction args with
  | nil => exact Settles.const false
  | cons a as ih =>
    have hhead := h a List.mem_cons_self
    have htail := ih fun a' ha' => h a' (List.mem_cons_of_mem a ha')
    apply hhead.bind
    rw [List.any_cons]
    cases q a with
    | true => exact Settles.const true
    | false => exact htail

theorem unifyOccurs_settles {x : Bool} (hwalk : Settles (fun n => unifyWalk b n t) u)
    (hx : Settles (fun n => occursAt (unifyOccurs b id n) id u) x) :
    Settles (fun n => unifyOccurs b id n t) x :=
  (hwalk.bind hx).succ fun _ => rfl

/-- The occurs check looks for an unbound variable in the resolved term. -/
theorem unifyOccurs_spec (h : Sound b) (id : ℕ) (t : FTerm) :
    Settles (fun n => unifyOccurs b id n t) (decide (Leaf.fvr id ∈ (t.inst (solution h)).leaves)) := by
  induction t using h.induct with
  | unbound id' hid' =>
    apply unifyOccurs_settles (unifyWalk_unbound hid')
    rw [FTerm.inst_fvr, solution_unbound h hid']
    apply (Settles.const (id' == id)).cast
    by_cases heq : id' = id
    · simp [heq]
    · simp [heq, Ne.symm heq]
  | num d v => exact unifyOccurs_settles (unifyWalk_self fun n => rfl) (Settles.const _)
  | bound id' t hid' ih =>
    obtain ⟨u, hu⟩ := unifyWalk_spec h t
    rw [FTerm.inst_fvr, solution_solves h id' t hid']
    have hstep : Settles (fun n => unifyWalk b n t >>= occursAt (unifyOccurs b id n) id) _ := ih.pred
    exact (hu.settles.exchange (hu.bound h hid') hstep).succ fun _ => rfl
  | ctr label args ih =>
    apply unifyOccurs_settles (unifyWalk_self fun n => rfl)
    apply (anyArg_settles ih).cast
    rw [Bool.eq_iff_iff]
    simp

theorem applyAt_settles {x : FTerm} (hwalk : Settles (fun n => unifyWalk b n t) u)
    (hx : Settles (fun n => applyAt (thvmUnifyApply b n) u) x) :
    Settles (fun n => thvmUnifyApply b n t) x :=
  (hwalk.bind hx).succ fun _ => rfl

/-- Applying the bindings puts their solution into the term. -/
theorem thvmUnifyApply_spec (h : Sound b) (t : FTerm) (hcapped : t.ArityCapped) :
    Settles (fun n => thvmUnifyApply b n t) (t.inst (solution h)) := by
  induction t using h.induct with
  | unbound id hid =>
    rw [FTerm.inst_fvr, solution_unbound h hid]
    exact applyAt_settles (unifyWalk_unbound hid) (Settles.const _)
  | num d v => exact applyAt_settles (unifyWalk_self fun n => rfl) (Settles.const _)
  | bound id t hid ih =>
    obtain ⟨u, hu⟩ := unifyWalk_spec h t
    rw [FTerm.inst_fvr, solution_solves h id t hid]
    have hstep : Settles (fun n => unifyWalk b n t >>= applyAt (thvmUnifyApply b n)) _ :=
      (ih (h.below id t hid).2.2).pred
    exact (hu.settles.exchange (hu.bound h hid) hstep).succ fun _ => rfl
  | ctr label args ih =>
    obtain ⟨hlen, hargs⟩ := TermTree.every_node.mp hcapped
    apply applyAt_settles (unifyWalk_self fun n => rfl)
    rw [FTerm.inst_ctr]
    apply Settles.congr (f := fun n => args.mapM (thvmUnifyApply b n) >>= fun as => some (.ctr label as))
    · exact (Settles.mapM fun a ha => ih a ha (hargs a ha)).bind (Settles.const _)
    · intro n
      simp only [applyAt, if_neg (Nat.not_lt.mpr hlen)]

/-- The number of variables that are not bound yet. -/
def unbound (b : ℕ → Option FTerm) : ℕ := ((Finset.range rewriteMaxVar).filter fun id => b id = none).card

/-- The same bindings, or some with fewer unbound variables. -/
def Later (b b' : ℕ → Option FTerm) : Prop := b' = b ∨ unbound b' < unbound b

theorem Later.trans {b₁ b₂ b₃ : ℕ → Option FTerm} (h : Later b₁ b₂) (h' : Later b₂ b₃) :
    Later b₁ b₃ := by
  rcases h' with rfl | hlt
  · exact h
  · rcases h with rfl | hlt'
    · exact .inr hlt
    · exact .inr (hlt.trans hlt')

/-- What a call that returns 1 has done to the bindings. -/
structure Unified (b : ℕ → Option FTerm) (s t : FTerm) (b' : ℕ → Option FTerm) : Prop where
  sound : Sound b'
  solutions : ∀ θ, Solution θ b' ↔ Solution θ b ∧ s.inst θ = t.inst θ
  later : Later b b'

inductive Outcome (b : ℕ → Option FTerm) (s t : FTerm) : Bool → (ℕ → Option FTerm) → Prop
  | success {b' : ℕ → Option FTerm} (h : Unified b s t b') : Outcome b s t true b'
  | failure {b' : ℕ → Option FTerm} (h : ∀ θ, Solution θ b → s.inst θ ≠ t.inst θ) :
      Outcome b s t false b'

variable {b' : ℕ → Option FTerm} {s' t' : FTerm} {ok : Bool}

theorem Unified.refl (h : Sound b) (heq : ∀ θ, Solution θ b → s.inst θ = t.inst θ) :
    Unified b s t b where
  sound := h
  solutions := fun θ => ⟨fun hθ => ⟨hθ, heq θ hθ⟩, fun hθ => hθ.1⟩
  later := .inl rfl

theorem Outcome.congr (h : Outcome b s t ok b') (hs : ∀ θ, Solution θ b → s.inst θ = s'.inst θ)
    (ht : ∀ θ, Solution θ b → t.inst θ = t'.inst θ) : Outcome b s' t' ok b' := by
  cases h with
  | success h =>
    refine .success ⟨h.sound, fun θ => ?_, h.later⟩
    rw [h.solutions θ]
    apply and_congr_right
    intro hθ
    rw [hs θ hθ, ht θ hθ]
  | failure h =>
    apply Outcome.failure
    intro θ hθ
    rw [← hs θ hθ, ← ht θ hθ]
    exact h θ hθ

theorem Outcome.symm (h : Outcome b s t ok b') : Outcome b t s ok b' := by
  cases h with
  | success h =>
    refine .success ⟨h.sound, fun θ => ?_, h.later⟩
    rw [h.solutions θ, eq_comm]
  | failure h =>
    apply Outcome.failure
    intro θ hθ heq
    exact h θ hθ heq.symm

theorem Walked.inst_eq (h : Sound b) (hu : Walked h t u) (hθ : Solution θ b) :
    u.inst θ = t.inst θ := by
  rw [← inst_solution_inst h hθ u, hu.inst, inst_solution_inst h hθ t]

theorem bindings_unLogBind (st : UnifyState) (id : ℕ) : (st.unLogBind id).bindings = st.bindings := by
  unfold UnifyState.unLogBind
  split
  · rfl
  · split <;> rfl

theorem bindings_bind (st : UnifyState) (id : ℕ) (t : FTerm) :
    (st.bind id t).bindings = Function.update st.bindings id (some t) :=
  bindings_unLogBind _ id

theorem leafBindings_update (b : ℕ → Option FTerm) (id : ℕ) (t : FTerm) :
    leafBindings (Function.update b id (some t)) =
      Function.update (leafBindings b) (.fvr id) (some t) := by
  funext l
  rcases l with id' | ⟨dtype, value⟩
  · by_cases hid : id' = id
    · subst hid
      simp [leafBindings]
    · simp [leafBindings, hid]
  · simp [leafBindings]

theorem unbound_update (hid : b id = none) (hlt : id < rewriteMaxVar) (t : FTerm) :
    unbound (Function.update b id (some t)) < unbound b := by
  apply Finset.card_lt_card
  rw [Finset.ssubset_iff_of_subset]
  · refine ⟨id, ?_, ?_⟩
    · simp [hid, hlt]
    · simp
  · intro id' hid'
    rw [Finset.mem_filter] at hid' ⊢
    refine ⟨hid'.1, ?_⟩
    by_cases heq : id' = id
    · rw [heq, hid]
    · rw [← hid'.2, Function.update_of_ne heq]

/-- Binding an unbound variable that does not occur in the term. -/
theorem Unified.bind (h : Sound b) (hid : b id = none) (hlt : id < rewriteMaxVar)
    (hbelow : t.VarsBelow rewriteMaxVar) (hcapped : t.ArityCapped)
    (hoccurs : Leaf.fvr id ∉ (t.inst (solution h)).leaves) :
    Unified b (.fvr id) t (Function.update b id (some t)) where
  sound := by
    constructor
    · rw [leafBindings_update]
      apply h.acyclic.bind
      · exact hid
      · rw [← onLeaves_solution h]
        exact hoccurs
    · intro id' t' ht'
      by_cases heq : id' = id
      · subst heq
        rw [Function.update_self] at ht'
        obtain rfl := Option.some.inj ht'
        exact ⟨hlt, hbelow, hcapped⟩
      · rw [Function.update_of_ne heq] at ht'
        exact h.below id' t' ht'
  solutions := by
    intro θ
    rw [← solves_onLeaves, leafBindings_update, solves_bind (by exact hid), solves_onLeaves]
    rfl
  later := .inr (unbound_update hid hlt t)

/-- A variable below a constructor cannot be made equal to it. -/
theorem no_unifier_of_occurs (h : Sound b) (hne : t.inst (solution h) ≠ .fvr id)
    (hoccurs : Leaf.fvr id ∈ (t.inst (solution h)).leaves) (hθ : Solution θ b) :
    (FTerm.fvr id).inst θ ≠ t.inst θ := by
  rw [← inst_solution_inst h hθ t]
  cases ht : t.inst (solution h) with
  | leaf l =>
    rw [ht] at hoccurs hne
    obtain rfl := List.mem_singleton.mp hoccurs
    exact absurd rfl hne
  | node label args =>
    rw [ht] at hoccurs
    exact subst_leaf_ne (θ := onLeaves θ) hoccurs

theorem unifyBind_spec (h : Sound b) {st : UnifyState} (hst : st.bindings = b) (hid : b id = none)
    (hlt : id < rewriteMaxVar) (hbelow : t.VarsBelow rewriteMaxVar) (hcapped : t.ArityCapped)
    (hne : t.inst (solution h) ≠ .fvr id) :
    ∃ ok st', Settles (fun n => unifyBind n id t st) (ok, st') ∧
      Outcome b (.fvr id) t ok st'.bindings := by
  subst hst
  have hoccurs := unifyOccurs_spec h id t
  by_cases hmem : Leaf.fvr id ∈ (t.inst (solution h)).leaves
  · refine ⟨false, st, ?_, .failure fun θ hθ => no_unifier_of_occurs h hne hmem hθ⟩
    rw [decide_eq_true hmem] at hoccurs
    apply Settles.congr (hoccurs.bind (g := fun _ occurs =>
      if occurs then some (false, st) else some (true, st.bind id t)) (Settles.const _))
    intro n
    rw [unifyBind, if_neg (Nat.not_le.mpr hlt)]
  · refine ⟨true, st.bind id t, ?_, .success ?_⟩
    · rw [decide_eq_false hmem] at hoccurs
      apply Settles.congr (hoccurs.bind (g := fun _ occurs =>
        if occurs then some (false, st) else some (true, st.bind id t)) (Settles.const _))
      intro n
      rw [unifyBind, if_neg (Nat.not_le.mpr hlt)]
    · rw [bindings_bind]
      exact Unified.bind h hid hlt hbelow hcapped hmem

/-- The arguments one after the other, each under the bindings of those before it. -/
theorem unifyArgs_spec {as bs : List FTerm} {st : UnifyState} (hlen : as.length = bs.length)
    (hst : Sound st.bindings) (hlater : Later b st.bindings)
    (hunify : ∀ p ∈ as.zip bs, ∀ st : UnifyState, Sound st.bindings → Later b st.bindings →
      ∃ ok st', Settles (fun n => thvmUnify n p.1 p.2 st) (ok, st') ∧
        Outcome st.bindings p.1 p.2 ok st'.bindings) (label : ℕ) :
    ∃ ok st', Settles (fun n => unifyArgs (thvmUnify n) as bs st) (ok, st') ∧
      Outcome st.bindings (.ctr label as) (.ctr label bs) ok st'.bindings := by
  induction as generalizing bs st with
  | nil =>
    obtain rfl := List.length_eq_zero_iff.mp hlen.symm
    exact ⟨true, st, Settles.const _, .success (.refl hst fun _ _ => rfl)⟩
  | cons a as ih =>
    cases bs with
    | nil => cases hlen
    | cons c bs =>
      obtain ⟨ok, st₁, hhead, hout⟩ := hunify (a, c) List.mem_cons_self st hst hlater
      cases hout with
      | failure hfail =>
        refine ⟨false, st₁, hhead.bind (Settles.const _), .failure fun θ hθ heq => ?_⟩
        simp only [FTerm.inst_ctr, List.map_cons, TermTree.node.injEq, List.cons.injEq] at heq
        exact hfail θ hθ heq.2.1
      | success hsucc =>
        obtain ⟨ok, st₂, htail, hout⟩ := ih (Nat.succ.inj hlen) hsucc.sound
          (hlater.trans hsucc.later) fun p hp => hunify p (List.mem_cons_of_mem _ hp)
        refine ⟨ok, st₂, hhead.bind htail, ?_⟩
        cases hout with
        | success hrest =>
          refine .success ⟨hrest.sound, fun θ => ?_, hsucc.later.trans hrest.later⟩
          rw [hrest.solutions θ, hsucc.solutions θ]
          simp [and_assoc]
        | failure hfail =>
          apply Outcome.failure
          intro θ hθ heq
          simp only [FTerm.inst_ctr, List.map_cons, TermTree.node.injEq, List.cons.injEq] at heq
          apply hfail θ ((hsucc.solutions θ).mpr ⟨hθ, heq.2.1⟩)
          simp [heq.2.2]

theorem Walked.inst_ne (h : Sound b) (hu : Walked h t u) (hne : u ≠ .fvr id) :
    u.inst (solution h) ≠ .fvr id := by
  cases u with
  | node label args => exact fun heq => nomatch heq
  | leaf l =>
    cases l with
    | num dtype value => exact fun heq => nomatch heq
    | fvr id' =>
      rw [FTerm.inst_fvr, solution_unbound h (hu.unbound id' rfl)]
      exact hne

/-- The rest of a call on two walked terms that are not equal. -/
theorem unifyAt_spec (h : Sound b) {st : UnifyState} (hst : st.bindings = b)
    (hs : Walked h s s') (ht : Walked h t t') (hne : s' ≠ t')
    (hsb : s'.VarsBelow rewriteMaxVar) (htb : t'.VarsBelow rewriteMaxVar) (hsc : s'.ArityCapped)
    (htc : t'.ArityCapped)
    (hargs : ∀ label as bs, s' = .ctr label as → t' = .ctr label bs → as.length = bs.length →
      ∃ ok st', Settles (fun n => unifyArgs (thvmUnify n) as bs st) (ok, st') ∧
        Outcome b (.ctr label as) (.ctr label bs) ok st'.bindings) :
    ∃ ok st', Settles (fun n => unifyAt n (thvmUnify n) s' t' st) (ok, st') ∧
      Outcome b s' t' ok st'.bindings := by
  have hneq : kboEq s' t' = false := Bool.eq_false_iff.mpr fun heq => hne (kboEq_iff.mp heq)
  have clash : (∀ θ : ℕ → FTerm, s'.inst θ ≠ t'.inst θ) →
      (∀ n, unifyAt n (thvmUnify n) s' t' st = some (false, st)) →
      ∃ ok st', Settles (fun n => unifyAt n (thvmUnify n) s' t' st) (ok, st') ∧
        Outcome b s' t' ok st'.bindings := by
    intro hclash hrun
    exact ⟨false, st, (Settles.const _).congr hrun, .failure fun θ _ => hclash θ⟩
  have right : ∀ id, t' = .fvr id → (∀ n, unifyAt n (thvmUnify n) s' t' st = unifyBind n id s' st) →
      ∃ ok st', Settles (fun n => unifyAt n (thvmUnify n) s' t' st) (ok, st') ∧
        Outcome b s' t' ok st'.bindings := by
    intro id hid hrun
    obtain ⟨ok, st', hset, hout⟩ := unifyBind_spec h hst (ht.unbound id hid)
      (htb id (by rw [hid]; exact List.mem_singleton_self _)) hsb hsc
      (hs.inst_ne h (by rw [← hid]; exact hne))
    refine ⟨ok, st', hset.congr hrun, ?_⟩
    rw [hid]
    exact hout.symm
  rcases s' with (id | ⟨dtype, value⟩) | ⟨f, as⟩
  · obtain ⟨ok, st', hset, hout⟩ := unifyBind_spec h hst (hs.unbound id rfl)
      (hsb id (List.mem_singleton_self _)) htb htc (ht.inst_ne h hne.symm)
    refine ⟨ok, st', hset.congr fun n => ?_, hout⟩
    simp only [unifyAt, hneq, Bool.false_eq_true, if_false]
  · rcases t' with (id | ⟨dtype', value'⟩) | ⟨g, bs⟩
    · apply right id rfl
      intro n
      simp only [unifyAt, hneq, Bool.false_eq_true, if_false]
    · apply clash
      · intro θ
        exact hne
      · intro n
        simp only [unifyAt, hneq, Bool.false_eq_true, if_false]
    · apply clash
      · intro θ heq
        simp at heq
      · intro n
        simp only [unifyAt, hneq, Bool.false_eq_true, if_false]
  · rcases t' with (id | ⟨dtype', value'⟩) | ⟨g, bs⟩
    · apply right id rfl
      intro n
      simp only [unifyAt, hneq, Bool.false_eq_true, if_false]
    · apply clash
      · intro θ heq
        simp at heq
      · intro n
        simp only [unifyAt, hneq, Bool.false_eq_true, if_false]
    · by_cases hfg : f = g
      · subst hfg
        by_cases hlen : as.length = bs.length
        · obtain ⟨ok, st', hset, hout⟩ := hargs f as bs rfl rfl hlen
          refine ⟨ok, st', hset.congr fun n => ?_, hout⟩
          simp [unifyAt, hneq, hlen]
        · apply clash
          · intro θ heq
            simp only [FTerm.inst_ctr, TermTree.node.injEq] at heq
            apply hlen
            simpa using congrArg List.length heq.2
          · intro n
            simp [unifyAt, hneq, hlen]
      · apply clash
        · intro θ heq
          simp only [FTerm.inst_ctr, TermTree.node.injEq] at heq
          exact hfg heq.1
        · intro n
          simp [unifyAt, hneq, hfg]

/-- Every call returns, by induction on the number of unbound variables and, below it, on
the size of the resolved left term. -/
theorem thvmUnify_spec (st : UnifyState) (h : Sound st.bindings) (hsb : s.VarsBelow rewriteMaxVar)
    (htb : t.VarsBelow rewriteMaxVar) (hsc : s.ArityCapped) (htc : t.ArityCapped) :
    ∃ ok st', Settles (fun n => thvmUnify n s t st) (ok, st') ∧
      Outcome st.bindings s t ok st'.bindings := by
  induction hk : unbound st.bindings using Nat.strong_induction_on generalizing st s t with
  | _ k ihk =>
  induction hn : (s.inst (solution h)).size using Nat.strong_induction_on generalizing st s t with
  | _ n ihn =>
    obtain ⟨s', hs⟩ := unifyWalk_spec h s
    obtain ⟨t', ht⟩ := unifyWalk_spec h t
    have finish : (∃ ok st', Settles (fun n => unifyAt n (thvmUnify n) s' t' st) (ok, st') ∧
        Outcome st.bindings s' t' ok st'.bindings) →
        ∃ ok st', Settles (fun n => thvmUnify n s t st) (ok, st') ∧
          Outcome st.bindings s t ok st'.bindings := by
      rintro ⟨ok, st', hset, hout⟩
      refine ⟨ok, st', ?_, hout.congr (fun θ hθ => hs.inst_eq h hθ) fun θ hθ => ht.inst_eq h hθ⟩
      exact (hs.settles.bind (ht.settles.bind hset)).succ fun n => rfl
    apply finish
    by_cases hne : s' = t'
    · refine ⟨true, st, (Settles.const _).congr fun n => ?_, .success (.refl h fun θ _ => ?_)⟩
      · simp only [unifyAt, kboEq_iff.mpr hne, if_true]
      · rw [hne]
    · refine unifyAt_spec h rfl hs ht hne (hs.below hsb) (ht.below htb) (hs.capped hsc)
        (ht.capped htc) fun label as bs hsas htbs hlen => ?_
      have hsb' := hs.below hsb
      have htb' := ht.below htb
      have hsc' := hs.capped hsc
      have htc' := ht.capped htc
      rw [hsas] at hsb' hsc'
      rw [htbs] at htb' htc'
      refine unifyArgs_spec hlen h (.inl rfl) (fun p hp st₁ h₁ hlater => ?_) label
      obtain ⟨ha, hb⟩ := List.of_mem_zip hp
      have hab : p.1.VarsBelow rewriteMaxVar := fun id hid =>
        hsb' id (TermTree.mem_leaves_node.mpr ⟨p.1, ha, hid⟩)
      have hbb : p.2.VarsBelow rewriteMaxVar := fun id hid =>
        htb' id (TermTree.mem_leaves_node.mpr ⟨p.2, hb, hid⟩)
      have hac := (TermTree.every_node.mp hsc').2 p.1 ha
      have hbc := (TermTree.every_node.mp htc').2 p.2 hb
      rcases hlater with heq | hlt
      · refine ihn _ ?_ st₁ h₁ hab hbb hac hbc (by rw [heq, hk]) rfl
        rw [h.congr h₁ heq p.1, ← hn, ← hs.inst, hsas, FTerm.inst_ctr]
        exact TermTree.size_lt label (List.mem_map_of_mem ha)
      · exact ihk _ (hk ▸ hlt) st₁ h₁ hab hbb hac hbc rfl

theorem sound_empty : Sound fun _ => none where
  acyclic := by
    have : leafBindings (fun _ => none) = fun _ => none := by
      funext l
      cases l with
      | fvr id => rfl
      | num dtype value => rfl
    rw [this]
    exact acyclic_empty
  below := by
    intro id t ht
    cases ht

/-- The bindings stand for a most general unifier and can be applied. -/
structure MostGeneral (s t : FTerm) (b : ℕ → Option FTerm) (mgu : ℕ → FTerm) : Prop where
  acyclic : Acyclic (leafBindings b)
  walk : ∀ u, ∃ v, Settles (fun n => unifyWalk b n u) v
  apply : ∀ u : FTerm, u.ArityCapped → Settles (fun n => thvmUnifyApply b n u) (u.inst mgu)
  unifies : s.inst mgu = t.inst mgu
  factors : ∀ σ, s.inst σ = t.inst σ → ∀ id, (mgu id).inst σ = σ id

theorem Unified.mostGeneral (hempty : b = fun _ => none) (h : Unified b s t b') :
    MostGeneral s t b' (solution h.sound) where
  acyclic := h.sound.acyclic
  walk := by
    intro u
    obtain ⟨v, hv⟩ := unifyWalk_spec h.sound u
    exact ⟨v, hv.settles⟩
  apply := thvmUnifyApply_spec h.sound
  unifies := ((h.solutions _).mp (solution_solves h.sound)).2
  factors := by
    intro σ hσ id
    have hsol : Solution σ b := by
      intro id' u hu
      rw [hempty] at hu
      cases hu
    exact inst_solution_inst h.sound ((h.solutions σ).mpr ⟨hsol, hσ⟩) (.fvr id)

/-- A call from the empty substitution. -/
theorem thvmUnify_empty (st : UnifyState) (hempty : st.bindings = fun _ => none)
    (hsb : s.VarsBelow rewriteMaxVar) (htb : t.VarsBelow rewriteMaxVar) (hsc : s.ArityCapped)
    (htc : t.ArityCapped) :
    ∃ ok st', Settles (fun n => thvmUnify n s t st) (ok, st') ∧
      (ok = true → ∃ mgu, MostGeneral s t st'.bindings mgu) ∧
      (ok = false → ∀ σ, s.inst σ ≠ t.inst σ) := by
  have h : Sound st.bindings := hempty ▸ sound_empty
  obtain ⟨ok, st', hset, hout⟩ := thvmUnify_spec st h hsb htb hsc htc
  refine ⟨ok, st', hset, ?_⟩
  cases hout with
  | success hsucc =>
    exact ⟨fun _ => ⟨_, hsucc.mostGeneral hempty⟩, fun hok => absurd hok.symm Bool.false_ne_true⟩
  | failure hfail =>
    refine ⟨fun hok => absurd hok Bool.false_ne_true, fun _ σ => hfail σ ?_⟩
    intro id u hu
    rw [hempty] at hu
    cases hu

/-- What every binding keeps is kept by a call. -/
theorem thvmUnify_keeps {P : UnifyState → Prop} (hbind : ∀ st id t, P st → P (st.bind id t))
    {n : ℕ} {st st' : UnifyState} (h : thvmUnify n s t st = some (ok, st')) (hst : P st) : P st' := by
  have hunifyBind : ∀ n id t st x, unifyBind n id t st = some x → P st → P x.2 := by
    intro n id t st x hx hst
    unfold unifyBind at hx
    split at hx
    · cases hx
      exact hst
    · obtain ⟨occurs, -, hx⟩ := Option.bind_eq_some_iff.mp hx
      cases occurs <;> cases hx
      · exact hbind st id t hst
      · exact hst
  induction n generalizing s t st st' ok with
  | zero => cases h
  | succ n ih =>
    have hargs : ∀ as bs st x, unifyArgs (thvmUnify n) as bs st = some x → P st → P x.2 := by
      intro as
      induction as with
      | nil =>
        intro bs st x hx hst
        cases bs <;> cases hx <;> exact hst
      | cons a as iha =>
        intro bs st x hx hst
        cases bs with
        | nil =>
          cases hx
          exact hst
        | cons b bs =>
          obtain ⟨⟨ok, st₁⟩, h₁, hx⟩ := Option.bind_eq_some_iff.mp hx
          cases ok
          · cases hx
            exact ih h₁ hst
          · exact iha bs st₁ x hx (ih h₁ hst)
    obtain ⟨s', -, h⟩ := Option.bind_eq_some_iff.mp h
    obtain ⟨t', -, h⟩ := Option.bind_eq_some_iff.mp h
    unfold unifyAt at h
    split at h
    · cases h
      exact hst
    · split at h
      · exact hunifyBind _ _ _ _ _ h hst
      · exact hunifyBind _ _ _ _ _ h hst
      · split at h
        · cases h
          exact hst
        · split at h
          · cases h
            exact hst
          · exact hargs _ _ _ _ h hst
      · cases h
        exact hst

/-- Every bound variable can be cleared. -/
structure Logged (st : UnifyState) : Prop where
  armed : st.armed = true
  logged : st.unOver = true ∨ ∀ id, st.bindings id ≠ none → id ∈ st.log

theorem Logged.bind {st : UnifyState} (h : Logged st) (id : ℕ) (t : FTerm) :
    Logged (st.bind id t) := by
  unfold UnifyState.bind UnifyState.unLogBind
  rw [h.armed]
  simp only [Bool.not_true, Bool.false_eq_true, if_false]
  split
  · refine ⟨rfl, h.logged.imp_right fun hlog id' hid' => ?_⟩
    by_cases heq : id' = id
    · simp [heq]
    · apply List.mem_append_left
      apply hlog
      simpa [heq] using hid'
  · exact ⟨rfl, .inl rfl⟩

theorem clear_eq (b : ℕ → Option FTerm) (ids : List ℕ) (id : ℕ) :
    UnifyState.clear b ids id = if id ∈ ids then none else b id := by
  induction ids generalizing b with
  | nil => simp [UnifyState.clear]
  | cons id' ids ih =>
    rw [UnifyState.clear, ih]
    by_cases heq : id = id'
    · simp [heq]
    · simp [heq]

theorem Logged.undo {st : UnifyState} (h : Logged st) : st.undo.bindings = fun _ => none := by
  funext id
  unfold UnifyState.undo
  rcases h.logged with hover | hlog
  · simp [hover]
  · split
    · rfl
    · apply (clear_eq _ _ _).trans
      split
      · rfl
      · next hmem => exact Decidable.not_not.mp fun hne => hmem (hlog id hne)

/-- Between `undo_begin` and `undo` a call from the empty substitution leaves nothing behind. -/
theorem thvmUnify_undo {n : ℕ} {st st' : UnifyState} (hempty : st.bindings = fun _ => none)
    (h : thvmUnify n s t st.undoBegin = some (ok, st')) : st'.undo.bindings = fun _ => none := by
  apply Logged.undo
  apply thvmUnify_keeps (fun st id t hst => Logged.bind hst id t) h
  refine ⟨rfl, .inr fun id hid => absurd ?_ hid⟩
  exact congrFun hempty id

/-- From the empty substitution the call succeeds when there is a unifier; the bindings
are then acyclic, so that walking and applying them ends, and stand for a unifier
through which every other one factors. -/
theorem thvmUnify_mgu (s t : FTerm) (hsb : s.VarsBelow rewriteMaxVar)
    (htb : t.VarsBelow rewriteMaxVar) (hsc : s.ArityCapped) (htc : t.ArityCapped)
    (st : UnifyState) (hempty : st.bindings = fun _ => none) :
    ∃ ok st', Settles (fun n => thvmUnify n s t st) (ok, st') ∧
      (ok = true ↔ ∃ σ, s.inst σ = t.inst σ) ∧
      (ok = true → Acyclic (leafBindings st'.bindings) ∧
        (∀ u, ∃ v, Settles (fun n => unifyWalk st'.bindings n u) v) ∧
        ∃ mgu : ℕ → FTerm,
          (∀ u : FTerm, u.ArityCapped →
            Settles (fun n => thvmUnifyApply st'.bindings n u) (u.inst mgu)) ∧
          s.inst mgu = t.inst mgu ∧
          ∀ σ, s.inst σ = t.inst σ → ∀ id, (mgu id).inst σ = σ id) := by
  obtain ⟨ok, st', hset, hsucc, hfail⟩ := thvmUnify_empty st hempty hsb htb hsc htc
  refine ⟨ok, st', hset, ?_, ?_⟩
  · constructor
    · intro hok
      obtain ⟨mgu, hmgu⟩ := hsucc hok
      exact ⟨mgu, hmgu.unifies⟩
    · rintro ⟨σ, hσ⟩
      apply Bool.eq_true_of_not_eq_false
      intro hok
      exact hfail hok σ hσ
  · intro hok
    obtain ⟨mgu, hmgu⟩ := hsucc hok
    exact ⟨hmgu.acyclic, hmgu.walk, mgu, hmgu.apply, hmgu.unifies, hmgu.factors⟩

theorem thvmUnify_mgu_two : ∃ ok st',
    Settles (fun n => thvmUnify n (.ctr 0 [.fvr 0, .ctr 1 [.num 5 1]])
      (.ctr 0 [.ctr 1 [.fvr 1], .fvr 0]) .empty) (ok, st') ∧
    (ok = true ↔ ∃ σ, (FTerm.ctr 0 [.fvr 0, .ctr 1 [.num 5 1]]).inst σ =
      (FTerm.ctr 0 [.ctr 1 [.fvr 1], .fvr 0]).inst σ) := by
  obtain ⟨ok, st', hset, hiff, -⟩ := thvmUnify_mgu (.ctr 0 [.fvr 0, .ctr 1 [.num 5 1]])
    (.ctr 0 [.ctr 1 [.fvr 1], .fvr 0]) (by decide) (by decide) (by decide) (by decide) .empty rfl
  exact ⟨ok, st', hset, hiff⟩

end Thvm.Unification
