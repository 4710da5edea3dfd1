import Thvm.Unfoldings

/-!
# Runs of unfoldings

The steps of a run keep the invariant as long as projections are realised in a scope
of their own realisation and their keys have room in the table. Two unfoldings of a
definition with a duplication outside of every binder share its cell.
-/

namespace Thvm.Alo
open ProbeTable TransitionRuns

variable {w w' : World} {rt' : Runtime} {t r : Term} {real state n : ℕ}

theorem Outcome.gens {rt : Runtime} (h : Outcome rt t state rt' r n)
    (hgens : ∀ i, (rt.dupShare i).gen ≤ rt.dupShareGen) (i : ℕ) :
    (rt'.dupShare i).gen ≤ rt'.dupShareGen := by
  cases h with
  | verbatim hrt | bound hrt | shared hrt =>
    rw [hrt]
    exact hgens i
  | binder hnode _ _ _ _ _ hpush | node hnode _ _ _ _ hpush =>
    rw [hpush, hnode.dupShareGen]
    exact hgens i
  | first hnode _ _ _ _ _ hpush =>
    rw [hpush, hnode.dupShareGen]
    exact insert_gens hgens _ i

/-- A change of the heap and the book that leaves pending suspensions alone. -/
theorem Inv.rewrite (h : Inv w) {rt' : Runtime} (hcap : rt'.heapCap = w.rt.heapCap)
    (hlow : w.rt.heapNext ≤ rt'.heapNext) (hhigh : rt'.heapNext ≤ w.rt.heapCap)
    (hstates : rt'.states = w.rt.states) (hstatesNext : rt'.statesNext = w.rt.statesNext)
    (htable : rt'.dupShare = w.rt.dupShare) (hgen : rt'.dupShareGen = w.rt.dupShareGen)
    (hheap : ∀ e ∈ w.emitted, ∀ l ∈ e.alos, (rt'.heap (l + 1)).tag = .num →
      rt'.heap (l + 1) = w.rt.heap (l + 1)) : Inv { w with rt := rt' } := by
  have hchain : ∀ {r₁ id}, Chain w.rt w.emitted r₁ id → Chain rt' w.emitted r₁ id := by
    intro r₁ id hc
    induction hc with
    | nil => exact .nil
    | cons hpos hlt howns hparent _ ih =>
      refine .cons hpos (hstatesNext ▸ hlt) ?_ ?_ ?_
      · rw [hstates]
        exact howns
      · rw [hstates]
        exact hparent
      · rw [hstates]
        exact ih
  have hlook : ∀ s b, dupShareLookup rt' s b = dupShareLookup w.rt s b := fun s b => by
    simp only [dupShareLookup, htable, hgen]
  have hshared : rt'.shared = w.rt.shared := by simp only [Runtime.shared, htable, hgen]
  refine ⟨hcap ▸ h.heapCap, hcap ▸ hhigh, hstatesNext ▸ h.statesPos, hstatesNext ▸ h.statesCap,
    hgen ▸ h.genLt, fun i => ?_, h.sorted,
    fun e he => ⟨(h.bounded e he).1, (h.bounded e he).2.trans hlow⟩, h.cells, h.projection,
    fun e he => hchain (h.chain e he), fun e he l hl => ?_, h.apart,
    fun slot s b loc hslot => h.memo slot s b loc ?_, fun e he hplain => ?_, h.once⟩
  · rw [htable, hgen]
    exact h.gens i
  · obtain ⟨hlo, hhi, hc⟩ := h.alos e he l hl
    refine ⟨hlo, hhi, fun htag => ?_⟩
    have hcell := hheap e he l hl htag
    change Chain rt' _ _ ((rt'.heap (l + 1)).val % 2 ^ 32)
    rw [hcell]
    exact hchain (hc (hcell ▸ htag))
  · rw [← hshared]
    exact hslot
  · unfold Runtime.Crowded
    change dupShareLookup rt' _ _ = _ ∨ Full rt'.shared _ _
    rw [hlook, hshared]
    exact h.known e he hplain

/-- Conditions on the runtime at the start of a run. -/
structure Booted (rt : Runtime) : Prop where
  heapCap : rt.heapCap ≤ 2 ^ 38
  heapNext : rt.heapNext ≤ rt.heapCap
  statesNext : rt.statesNext = 1
  genLt : rt.dupShareGen < 2 ^ 32
  gens : ∀ i, (rt.dupShare i).gen < rt.dupShareGen

theorem Booted.inv {rt : Runtime} (h : Booted rt) (count : ℕ) : Inv ⟨rt, [], count⟩ := by
  refine ⟨h.heapCap, h.heapNext, ?_, ?_, h.genLt, fun i => (h.gens i).le, .nil, by simp, by simp,
    by simp, by simp, by simp, by simp, fun slot s b loc hslot => ?_, by simp, by simp⟩
  · simp only [h.statesNext]
    decide
  · simp only [h.statesNext]
    decide
  · simp [Runtime.shared, sharedSlots, (h.gens slot).ne] at hslot

theorem Inv.reset (h : Inv w) {heapCap : ℕ} (hcap : heapCap ≤ 2 ^ 38) : Inv (w.reset heapCap) := by
  obtain ⟨hlt, hgens⟩ := reset_gens { w.rt with heapNext := 0, heapCap := heapCap, statesNext := 1 }
    h.genLt h.gens
  obtain ⟨hcap', hnext, hstates⟩ := reset_rest
    { w.rt with heapNext := 0, heapCap := heapCap, statesNext := 1 }
  exact Booted.inv ⟨hcap' ▸ hcap, hnext ▸ hcap' ▸ Nat.zero_le _, hstates, hlt, hgens⟩ w.count

theorem Inv.recount (h : Inv w) (count : ℕ) : Inv { w with count := count } :=
  ⟨h.heapCap, h.heapNext, h.statesPos, h.statesCap, h.genLt, h.gens, h.sorted, h.bounded, h.cells,
    h.projection, h.chain, h.alos, h.apart, h.memo, h.known, h.once⟩

/-- Conditions on the state before a step: what a projection that is realised meets. -/
def Clear (w : World) : Event → Prop
  | .unfold name => ∀ book, w.rt.defs name = some book → Plain book → ClearAt w w.count book 0
  | .force loc => ∀ e ∈ w.emitted, loc ∈ e.alos → (w.rt.heap (loc + 1)).tag = .num →
      Plain (w.rt.heap loc) →
      ClearAt w e.real (w.rt.heap loc) ((w.rt.heap (loc + 1)).val % 2 ^ 32)
  | .reduce | .define | .reset => True

theorem Inv.unfold (h : Inv w) {name : ℕ} (hclear : Clear w (.unfold name))
    (hcall : w.unfold name = .ok w') : Inv w' := by
  unfold World.unfold at hcall
  split at hcall
  · obtain rfl := Except.ok.inj hcall
    exact h
  case h_2 book hbook =>
    obtain ⟨⟨rt', r⟩, hreal, hcall⟩ := bind_ok hcall
    obtain rfl := Except.ok.inj hcall
    have hout := realize_spec h.heapCap hreal
    have hdef : w.rt.defs name = some book := by
      split at hbook
      · exact hbook
      · cases hbook
    exact (h.emit hout (hout.gens h.gens) .nil (hclear book hdef)).recount _

/-- Two pending suspensions of a run do not overlap. -/
theorem Inv.alos_apart (h : Inv w) {e e' : Emission} (he : e ∈ w.emitted) (he' : e' ∈ w.emitted)
    {l l' : ℕ} (hl : l ∈ e.alos) (hl' : l' ∈ e'.alos) (hne : l ≠ l') :
    l + 2 ≤ l' ∨ l' + 2 ≤ l := by
  obtain ⟨hlo, hhi, -⟩ := h.alos e he l hl
  obtain ⟨hlo', hhi', -⟩ := h.alos e' he' l' hl'
  by_cases hee : e = e'
  · subst hee
    have hsym : e.alos.Pairwise fun l l' => l + 2 ≤ l' ∨ l' + 2 ≤ l :=
      (h.apart e he).imp fun hle => .inl hle
    have hinst : Std.Symm fun l l' : ℕ => l + 2 ≤ l' ∨ l' + 2 ≤ l := ⟨fun _ _ hor => hor.symm⟩
    exact hsym.forall hl hl' hne
  · have hsym : w.emitted.Pairwise fun e e' => e'.hi ≤ e.lo ∨ e.hi ≤ e'.lo :=
      h.sorted.imp fun hle => .inl hle
    have hinst : Std.Symm fun e e' : Emission => e'.hi ≤ e.lo ∨ e.hi ≤ e'.lo :=
      ⟨fun _ _ hor => hor.symm⟩
    rcases hsym.forall he he' hee with hle | hle <;> omega

theorem alosIn_congr {heap heap' : ℕ → Term} {start n : ℕ}
    (h : ∀ c, start ≤ c → heap' c = heap c) : alosIn heap' start n = alosIn heap start n := by
  refine List.filterMap_congr fun c hc => ?_
  rw [h c (List.mem_range'_1.mp hc).1]

/-- Writing back into the suspension that was forced does not touch the new layer. -/
theorem emit_retire {rt₁ : Runtime} {loc : ℕ} {a b : Term} (hloc : loc + 1 < w.rt.heapNext) :
    w.emit real t state ((rt₁.heapSet loc a).heapSet (loc + 1) b) r n =
      { w.emit real t state rt₁ r n with rt := (rt₁.heapSet loc a).heapSet (loc + 1) b } := by
  have halos : alosIn ((rt₁.heapSet loc a).heapSet (loc + 1) b).heap w.rt.heapNext n =
      alosIn rt₁.heap w.rt.heapNext n := by
    refine alosIn_congr fun c hc => ?_
    simp [Runtime.heapSet, show c ≠ loc + 1 by omega, show c ≠ loc by omega]
  simp only [World.emit, halos]
  rfl

theorem Inv.force (h : Inv w) {e : Emission} {loc : ℕ} (he : e ∈ w.emitted) (hloc : loc ∈ e.alos)
    (hclear : Clear w (.force loc)) (hcall : w.force e.real loc = .ok w') : Inv w' := by
  unfold World.force at hcall
  split at hcall
  · obtain rfl := Except.ok.inj hcall
    exact h
  case isFalse hnum =>
    rw [not_not] at hnum
    obtain ⟨⟨rt₂, r⟩, hforce, hcall⟩ := bind_ok hcall
    obtain rfl := Except.ok.inj hcall
    unfold aloForce at hforce
    rw [if_neg (not_not_intro hnum)] at hforce
    obtain ⟨⟨rt₁, realised⟩, hreal, hforce⟩ := bind_ok hforce
    obtain ⟨rfl, rfl⟩ := Prod.mk.inj (Except.ok.inj hforce)
    have hout := realize_spec h.heapCap hreal
    obtain ⟨hlo, hhi, hchain⟩ := h.alos e he loc hloc
    have hinv := h.emit hout (hout.gens h.gens) (hchain hnum) (hclear e he hloc hnum)
    have hle := (h.bounded e he).2
    have hgrows := hout.grows h.heapNext
    have hlt : loc + 1 < w.rt.heapNext := by omega
    rw [emit_retire hlt]
    refine hinv.rewrite rfl (Nat.le_refl _) hinv.heapNext rfl rfl rfl rfl fun e' he' l hl htag => ?_
    by_cases hll : l = loc
    · subst hll
      simp [Runtime.heapSet, termNew] at htag
    · have hap := hinv.alos_apart he' (mem_emit.mpr (.inr he)) hl hloc hll
      have hne : l + 1 ≠ loc + 1 := by omega
      have hne' : l + 1 ≠ loc := by omega
      change Function.update (Function.update rt₁.heap loc realised) (loc + 1) _ (l + 1) =
        rt₁.heap (l + 1)
      rw [Function.update_of_ne hne, Function.update_of_ne hne']

/-- A step that meets the conditions. -/
def ClearStep (w : World) (ev : Event) (w' : World) : Prop := Step w ev w' ∧ Clear w ev

theorem inv_step {ev : Event} (h : Inv w) (hstep : ClearStep w ev w') : Inv w' := by
  obtain ⟨hstep, hclear⟩ := hstep
  cases hstep with
  | unfold hcall => exact h.unfold hclear hcall
  | force he hloc hcall => exact h.force he hloc hclear hcall
  | reduce hr =>
    exact h.rewrite hr.same.heapCap hr.next hr.cap hr.same.states hr.same.statesNext hr.same.dupShare
      hr.same.dupShareGen fun e he l hl _ => (hr.alos e he l hl).2
  | define book defs =>
    exact h.rewrite rfl (Nat.le_refl _) h.heapNext rfl rfl rfl rfl fun _ _ _ _ _ => rfl
  | reset hcap => exact h.reset hcap

theorem inv_run {rt : Runtime} {evs : List Event} (hrt : Booted rt)
    (hrun : Run ClearStep ⟨rt, [], 0⟩ evs w) : Inv w := by
  induction hrun with
  | refl => exact hrt.inv 0
  | snoc run last ih => exact inv_step ih last

theorem Chain.realize_total {es : List Emission} {rt : Runtime} (hchain : Chain rt es real state)
    (t : Term) : aloRealize rt t state ≠ .error .rounds := by
  refine Alo.realize_total fun b => ?_
  have hlt : state < rt.statesNext + 1 := by
    cases hchain with
    | nil => exact Nat.succ_pos _
    | cons _ hlt => exact Nat.lt_succ_of_lt hlt
  obtain ⟨found, hok⟩ := hchain.walk_ok b hlt
  unfold aloStateLookup
  rw [hok]
  simp

theorem unfold_total (w : World) (name : ℕ) : w.unfold name ≠ .error .rounds := by
  unfold World.unfold
  split
  · simp
  · exact bind_total (Chain.realize_total (.nil : Chain w.rt w.emitted 0 0) _) fun _ => by simp

theorem Inv.force_total (h : Inv w) {e : Emission} {loc : ℕ} (he : e ∈ w.emitted)
    (hloc : loc ∈ e.alos) : w.force e.real loc ≠ .error .rounds := by
  unfold World.force
  split
  · simp
  case isFalse hnum =>
    rw [not_not] at hnum
    refine bind_total ?_ fun _ => by simp
    unfold aloForce
    rw [if_neg (not_not_intro hnum)]
    exact bind_total (((h.alos e he loc hloc).2.2 hnum).realize_total _) fun _ => by simp

/-- A runtime after start-up with one definition. -/
def bootWith (book : ℕ → Term) (root : Term) : Runtime where
  book := book
  defs := fun name => if name = 0 then some root else none
  heap := fun _ => ⟨false, .app, 0, 0⟩
  heapNext := 0
  heapCap := 2 ^ 28
  states := fun _ => ⟨0, 0, 0⟩
  statesNext := 1
  dupShare := fun _ => ⟨0, 0, 0, 0⟩
  dupShareGen := 1

theorem booted_bootWith (book : ℕ → Term) (root : Term) : Booted (bootWith book root) :=
  ⟨Nat.pow_le_pow_right (by decide) (by decide), Nat.zero_le _, rfl,
    (by decide : 1 < 2 ^ 32), fun _ => Nat.one_pos⟩

/-- The world after a call that returns. -/
def World.after (w : World) (x : Except Halt World) : World :=
  match x with
  | .ok w' => w'
  | .error _ => w

theorem eq_after {x : Except Halt World} (h : x.isOk = true) : x = .ok (w.after x) := by
  cases x with
  | ok w' => rfl
  | error e => cases h

theorem step_unfold {name : ℕ} (h : (w.unfold name).isOk = true) :
    Step w (.unfold name) (w.after (w.unfold name)) := .unfold (eq_after h)

theorem step_force (real : ℕ) {loc : ℕ} (h : (w.force real loc).isOk = true)
    (he : ∃ e ∈ w.emitted, e.real = real ∧ loc ∈ e.alos) :
    Step w (.force loc) (w.after (w.force real loc)) := by
  obtain ⟨e, he, rfl, hloc⟩ := he
  exact .force he hloc (eq_after h)

theorem clear_of_no_projection (h : ∀ e ∈ w.emitted, ¬ Plain e.bookTerm) (ev : Event) :
    Clear w ev := by
  have hat : ∀ real t state, ClearAt w real t state := fun _ _ _ =>
    ⟨fun _ _ e he hp => absurd hp (h e he), fun e he hp => absurd hp (h e he),
      fun e he hp => absurd hp (h e he)⟩
  cases ev with
  | unfold name => exact fun _ _ _ => hat _ _ _
  | force loc => exact fun _ _ _ _ _ => hat _ _ _
  | reduce | define | reset => trivial

/-- `λx. (d₀ d₁)` with the duplication of `x` under the binder. -/
def scopedBook : ℕ → Term
  | 1 => ⟨false, .app, 0, 2⟩
  | 2 => ⟨false, .bj0, 0, 4⟩
  | 3 => ⟨false, .bj1, 0, 4⟩
  | _ => ⟨false, .var, 0, 1⟩

def scoped₀ : World := ⟨bootWith scopedBook ⟨false, .lam, 0, 1⟩, [], 0⟩
def scoped₁ : World := scoped₀.after (scoped₀.unfold 0)
def scoped₂ : World := scoped₁.after (scoped₁.unfold 0)
def scoped₃ : World := scoped₂.after (scoped₂.force 0 1)
def scoped₄ : World := scoped₃.after (scoped₃.force 0 8)

/-- `(d₀ d₁)` with a duplication outside of every binder. -/
def closedBook : ℕ → Term
  | 1 => ⟨false, .bj0, 0, 3⟩
  | 2 => ⟨false, .bj1, 0, 3⟩
  | _ => ⟨false, .num, 5, 7⟩

def closed₀ : World := ⟨bootWith closedBook ⟨false, .app, 0, 1⟩, [], 0⟩
def closed₁ : World := closed₀.after (closed₀.unfold 0)
def closed₂ : World := closed₁.after (closed₁.unfold 0)
def closed₃ : World := closed₂.after (closed₂.force 0 2)
def closed₄ : World := closed₃.after (closed₃.force 1 8)

end Thvm.Alo
