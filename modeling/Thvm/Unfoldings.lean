import Thvm.AloSpec
import Thvm.SharedCells
import Thvm.TransitionRuns
import Mathlib.Data.Set.BooleanAlgebra
import Mathlib.Data.Set.Disjoint
import Mathlib.Data.List.Pairwise
import Mathlib.Order.CompletePartialOrder

/-!
# Unfoldings of book definitions over a run

Every reference that is unfolded starts a realisation, and forcing its suspensions
carries it on. A run records what each realisation emits; the cells of different
realisations are to be kept apart, and a duplication of the book is to have one cell
for each realisation.
-/

namespace Thvm.Alo
open ProbeTable TransitionRuns

/-- One realised layer: the book term, the state it was realised in, the term that
came out with the number of its cells, the part of the heap that was allocated and
the suspensions that wait in it. -/
structure Emission where
  real : ℕ
  bookTerm : Term
  state : ℕ
  term : Term
  span : ℕ
  lo : ℕ
  hi : ℕ
  alos : List ℕ

/-- The dynamic cells of a layer. -/
def Emission.cells (e : Emission) : Set ℕ :=
  {c | e.term.val ≤ c ∧ c < e.term.val + e.span ∨ e.lo ≤ c ∧ c < e.hi}

structure World where
  rt : Runtime
  emitted : List Emission
  count : ℕ

namespace World

variable (w : World)

def emit (real : ℕ) (t : Term) (state : ℕ) (rt' : Runtime) (r : Term) (span : ℕ) : World where
  rt := rt'
  emitted := {
    real := real
    bookTerm := t
    state := state
    term := r
    span := span
    lo := w.rt.heapNext
    hi := rt'.heapNext
    alos := if w.rt.heapNext < rt'.heapNext then alosIn rt'.heap w.rt.heapNext span
      else [] } :: w.emitted
  count := w.count

def defsCap : ℕ := 256

/-- `TAG_REF` in the reducer: an undefined name is stuck. -/
def unfold (name : ℕ) : Except Halt World :=
  match if name < defsCap then w.rt.defs name else none with
  | none => .ok w
  | some book => do
    let (rt', r) ← aloRealize w.rt book 0
    .ok { w.emit w.count book 0 rt' r (nodeSpan w.rt book 0) with count := w.count + 1 }

/-- `TAG_ALO` in the reducer: the suspension at `loc`, of realisation `real`. -/
def force (real loc : ℕ) : Except Halt World :=
  if (w.rt.heap (loc + 1)).tag ≠ .num then .ok w
  else do
    let bookTerm := w.rt.heap loc
    let state := (w.rt.heap (loc + 1)).val % 2 ^ 32
    let (rt', r) ← aloForce w.rt ⟨false, .alo, 0, loc⟩
    .ok (w.emit real bookTerm state rt' r (nodeSpan w.rt bookTerm state))

def reset (heapCap : ℕ) : World where
  rt := aloDupShareReset { w.rt with heapNext := 0, heapCap := heapCap, statesNext := 1 }
  emitted := []
  count := w.count

end World

inductive Event
  | unfold (name : ℕ)
  | force (loc : ℕ)
  | reduce
  | define
  | reset

/-- What the rest of the runtime may do: allocate, and write anywhere but into
suspensions. -/
structure Reduces (w : World) (rt' : Runtime) : Prop where
  same : SameTables w.rt rt'
  next : w.rt.heapNext ≤ rt'.heapNext
  cap : rt'.heapNext ≤ w.rt.heapCap
  alos : ∀ e ∈ w.emitted, ∀ l ∈ e.alos, rt'.heap l = w.rt.heap l ∧
    rt'.heap (l + 1) = w.rt.heap (l + 1)

inductive Step : World → Event → World → Prop
  | unfold {w w' : World} {name : ℕ} (hcall : w.unfold name = .ok w') : Step w (.unfold name) w'
  | force {w w' : World} {e : Emission} {loc : ℕ} (he : e ∈ w.emitted) (hloc : loc ∈ e.alos)
      (hcall : w.force e.real loc = .ok w') : Step w (.force loc) w'
  | reduce {w : World} {rt' : Runtime} (hreduces : Reduces w rt') : Step w .reduce { w with rt := rt' }
  | define {w : World} (book : ℕ → Term) (defs : ℕ → Option Term) :
      Step w .define { w with rt := { w.rt with book := book, defs := defs } }
  | reset {w : World} {heapCap : ℕ} (hcap : heapCap ≤ 2 ^ 38) : Step w .reset (w.reset heapCap)

/-- Cell `c` was allocated by a layer of realisation `real`. -/
def Owns (es : List Emission) (real c : ℕ) : Prop :=
  ∃ e ∈ es, e.real = real ∧ e.lo ≤ c ∧ c < e.hi

/-- The state and its ancestors were pushed by realisation `real`. -/
inductive Chain (rt : Runtime) (es : List Emission) (real : ℕ) : ℕ → Prop
  | nil : Chain rt es real 0
  | cons {id : ℕ} (hpos : id ≠ 0) (hlt : id < rt.statesNext)
      (howns : Owns es real (rt.states id).newLoc) (hparent : (rt.states id).parent < id)
      (hrest : Chain rt es real (rt.states id).parent) : Chain rt es real id

/-- What holds between the steps of a run. -/
structure Inv (w : World) : Prop where
  heapCap : w.rt.heapCap ≤ 2 ^ 38
  heapNext : w.rt.heapNext ≤ w.rt.heapCap
  statesPos : 0 < w.rt.statesNext
  statesCap : w.rt.statesNext ≤ aloStateCap
  genLt : w.rt.dupShareGen < 2 ^ 32
  gens : ∀ i, (w.rt.dupShare i).gen ≤ w.rt.dupShareGen
  sorted : w.emitted.Pairwise fun e e' => e'.hi ≤ e.lo
  bounded : ∀ e ∈ w.emitted, e.lo ≤ e.hi ∧ e.hi ≤ w.rt.heapNext
  cells : ∀ e ∈ w.emitted, ∀ c ∈ e.cells, Owns w.emitted e.real c
  projection : ∀ e ∈ w.emitted, Plain e.bookTerm → e.span = 1
  chain : ∀ e ∈ w.emitted, Chain w.rt w.emitted e.real e.state
  alos : ∀ e ∈ w.emitted, ∀ l ∈ e.alos, e.lo ≤ l ∧ l + 2 ≤ e.hi ∧
    ((w.rt.heap (l + 1)).tag = .num →
      Chain w.rt w.emitted e.real ((w.rt.heap (l + 1)).val % 2 ^ 32))
  apart : ∀ e ∈ w.emitted, e.alos.Pairwise fun l l' => l + 2 ≤ l'
  memo : ∀ slot state book loc, w.rt.shared slot = some ((state, book), loc) →
    ∃ e ∈ w.emitted, Plain e.bookTerm ∧ e.bookTerm.val = book ∧ e.state = state ∧ e.term.val = loc
  known : ∀ e ∈ w.emitted, Plain e.bookTerm →
    dupShareLookup w.rt e.state e.bookTerm.val = some e.term.val ∨
      w.rt.Crowded e.state e.bookTerm.val
  once : ∀ e ∈ w.emitted, ∀ e' ∈ w.emitted, Plain e.bookTerm → Plain e'.bookTerm →
    e.bookTerm.val = e'.bookTerm.val → e.real = e'.real → e.term.val = e'.term.val

variable {w w' : World} {rt' : Runtime} {t r : Term} {real state n : ℕ}

theorem Owns.mono {es : List Emission} {c : ℕ} (e : Emission) (h : Owns es real c) :
    Owns (e :: es) real c := by
  obtain ⟨e', he', hreal, hlo, hhi⟩ := h
  exact ⟨e', List.mem_cons_of_mem e he', hreal, hlo, hhi⟩

theorem Chain.mono {rt rt' : Runtime} {es : List Emission} (e : Emission) {id : ℕ}
    (hnext : rt.statesNext ≤ rt'.statesNext)
    (hstates : ∀ i < rt.statesNext, rt'.states i = rt.states i) (h : Chain rt es real id) :
    Chain rt' (e :: es) real id := by
  induction h with
  | nil => exact .nil
  | cons hpos hlt howns hparent _ ih =>
    have hsame := hstates _ hlt
    refine .cons hpos (Nat.lt_of_lt_of_le hlt hnext) ?_ ?_ ?_
    · rw [hsame]
      exact howns.mono e
    · rw [hsame]
      exact hparent
    · rw [hsame]
      exact ih

/-- Two layers allocate different parts of the heap. -/
theorem Inv.eq_of_mem (h : Inv w) {e e' : Emission} (he : e ∈ w.emitted) (he' : e' ∈ w.emitted)
    {c : ℕ} (hc : e.lo ≤ c ∧ c < e.hi) (hc' : e'.lo ≤ c ∧ c < e'.hi) : e = e' := by
  by_contra hne
  have hsym : w.emitted.Pairwise fun e e' => e'.hi ≤ e.lo ∨ e.hi ≤ e'.lo :=
    h.sorted.imp fun hle => .inl hle
  have hinst : Std.Symm fun e e' : Emission => e'.hi ≤ e.lo ∨ e.hi ≤ e'.lo :=
    ⟨fun _ _ hor => hor.symm⟩
  rcases hsym.forall he he' hne with hle | hle
  · omega
  · omega

theorem Inv.owner_unique (h : Inv w) {r₁ r₂ c : ℕ} (h₁ : Owns w.emitted r₁ c)
    (h₂ : Owns w.emitted r₂ c) : r₁ = r₂ := by
  obtain ⟨e, he, rfl, hc⟩ := h₁
  obtain ⟨e', he', rfl, hc'⟩ := h₂
  rw [h.eq_of_mem he he' hc hc']

theorem Inv.chain_unique (h : Inv w) {r₁ r₂ : ℕ} (hpos : state ≠ 0)
    (h₁ : Chain w.rt w.emitted r₁ state) (h₂ : Chain w.rt w.emitted r₂ state) : r₁ = r₂ := by
  cases h₁ with
  | nil => exact absurd rfl hpos
  | cons _ _ howns₁ _ _ =>
    cases h₂ with
    | nil => exact absurd rfl hpos
    | cons _ _ howns₂ _ _ => exact h.owner_unique howns₁ howns₂

theorem Inv.owned_lt (h : Inv w) {c : ℕ} (howns : Owns w.emitted real c) : c < w.rt.heapNext := by
  obtain ⟨e, he, -, -, hhi⟩ := howns
  exact Nat.lt_of_lt_of_le hhi (h.bounded e he).2

/-- The bindings of a chain are cells of its realisation. -/
theorem Chain.bound {rt : Runtime} {es : List Emission} {id oldLoc loc rounds : ℕ}
    (h : Chain rt es real id) (hwalk : aloStateWalk rt oldLoc rounds id = .ok (some loc)) :
    Owns es real loc := by
  induction h generalizing rounds with
  | nil =>
    cases rounds with
    | zero => cases hwalk
    | succ rounds => cases hwalk
  | cons hpos _ howns _ _ ih =>
    cases rounds with
    | zero => cases hwalk
    | succ rounds =>
      rw [aloStateWalk, if_neg hpos] at hwalk
      split at hwalk
      · obtain rfl := Option.some.inj (Except.ok.inj hwalk)
        exact howns
      · exact ih hwalk

theorem Chain.walk_ok {rt : Runtime} {es : List Emission} {id rounds : ℕ}
    (h : Chain rt es real id) (oldLoc : ℕ) (hrounds : id < rounds) :
    ∃ found, aloStateWalk rt oldLoc rounds id = .ok found := by
  induction h generalizing rounds with
  | nil =>
    obtain ⟨rounds, rfl⟩ := Nat.exists_eq_succ_of_ne_zero (Nat.ne_zero_of_lt hrounds)
    exact ⟨none, rfl⟩
  | cons hpos _ _ hparent _ ih =>
    obtain ⟨rounds, rfl⟩ := Nat.exists_eq_succ_of_ne_zero (Nat.ne_zero_of_lt hrounds)
    rw [aloStateWalk, if_neg hpos]
    split
    · exact ⟨_, rfl⟩
    · exact ih (by omega)

/-- Conditions on the state before a layer of a projection is realised. -/
structure ClearAt (w : World) (real : ℕ) (t : Term) (state : ℕ) : Prop where
  closed : state = 0 → ¬ w.rt.Crowded 0 t.val →
    ∀ e ∈ w.emitted, Plain e.bookTerm → e.bookTerm.val = t.val → e.state = 0 → e.real = real
  scope : ∀ e ∈ w.emitted, Plain e.bookTerm → e.bookTerm.val = t.val → e.real = real →
    e.state = state
  room : ∀ e ∈ w.emitted, Plain e.bookTerm → e.bookTerm.val = t.val → e.real = real →
    ¬ w.rt.Crowded state t.val

/-- What every outcome keeps. -/
structure Grows (rt rt' : Runtime) : Prop where
  heapCap : rt'.heapCap = rt.heapCap
  heapNext : rt.heapNext ≤ rt'.heapNext
  cap : rt'.heapNext ≤ rt.heapCap
  old : ∀ c < rt.heapNext, rt'.heap c = rt.heap c
  statesNext : rt.statesNext ≤ rt'.statesNext
  statesCap : rt.statesNext ≤ aloStateCap → rt'.statesNext ≤ aloStateCap
  states : ∀ i < rt.statesNext, rt'.states i = rt.states i
  gen : rt'.dupShareGen = rt.dupShareGen

theorem Outcome.grows {rt : Runtime} (h : Outcome rt t state rt' r n)
    (hnext : rt.heapNext ≤ rt.heapCap) : Grows rt rt' := by
  cases h with
  | verbatim hrt | bound hrt | shared hrt =>
    subst hrt
    exact ⟨rfl, Nat.le_refl _, hnext, fun _ _ => rfl, Nat.le_refl _, id, fun _ _ => rfl, rfl⟩
  | first hnode _ _ _ hstates hstatesNext =>
    exact ⟨hnode.heapCap, Nat.le_of_add_right_le hnode.next, hnode.cap, hnode.old,
      Nat.le_of_eq hstatesNext.symm, fun hcap => hstatesNext ▸ hcap, fun i _ => by rw [hstates],
      hnode.dupShareGen⟩
  | binder hnode _ _ hroom hstates hstatesNext =>
    refine ⟨hnode.heapCap, Nat.le_of_add_right_le hnode.next, hnode.cap, hnode.old,
      hstatesNext ▸ Nat.le_succ _, fun _ => hstatesNext ▸ hroom, fun i hi => ?_, hnode.dupShareGen⟩
    rw [hstates, Function.update_of_ne (Nat.ne_of_lt hi)]
  | node hnode _ _ hstates hstatesNext =>
    exact ⟨hnode.heapCap, Nat.le_of_add_right_le hnode.next, hnode.cap, hnode.old,
      Nat.le_of_eq hstatesNext.symm, fun hcap => hstatesNext ▸ hcap, fun i _ => by rw [hstates],
      hnode.dupShareGen⟩

theorem Outcome.projection {rt : Runtime} (h : Outcome rt t state rt' r n) (hplain : Plain t) :
    n = 1 := by
  cases h with
  | shared | first => rfl
  | verbatim _ _ hnot | bound _ hnot | binder _ hnot | node _ hnot => exact absurd hplain hnot

/-- The fresh part of the heap belongs to the layer that allocates it. -/
theorem owns_fresh (w : World) (rt' : Runtime) {c : ℕ} (hlo : w.rt.heapNext ≤ c)
    (hhi : c < rt'.heapNext) : Owns (w.emit real t state rt' r n).emitted real c :=
  ⟨_, List.mem_cons_self, rfl, hlo, hhi⟩

/-- A hit of the table is a cell of the realisation that asks. -/
theorem Inv.hit (h : Inv w) (hchain : Chain w.rt w.emitted real state)
    (hclear : ClearAt w real t state) {loc : ℕ}
    (hlook : dupShareLookup w.rt state t.val = some loc) :
    ∃ e ∈ w.emitted, Plain e.bookTerm ∧ e.bookTerm.val = t.val ∧ e.state = state ∧
      e.real = real ∧ e.term.val = loc := by
  rw [lookup_eq_find] at hlook
  obtain ⟨slot, -, hslot⟩ := find_mem hlook
  obtain ⟨e, he, hplain, hval, hstate, hterm⟩ := h.memo _ _ _ _ hslot
  refine ⟨e, he, hplain, hval, hstate, ?_, hterm⟩
  by_cases hzero : state = 0
  · subst hzero
    refine hclear.closed rfl (fun hfull => ?_) e he hplain hval hstate
    rw [Full.find_eq_none hfull] at hlook
    cases hlook
  · have hchain' := h.chain e he
    rw [hstate] at hchain'
    exact h.chain_unique hzero hchain' hchain

theorem Inv.projection_owned (h : Inv w) {e : Emission} (he : e ∈ w.emitted)
    (hplain : Plain e.bookTerm) : Owns w.emitted e.real e.term.val := by
  refine h.cells e he _ (.inl ⟨Nat.le_refl _, ?_⟩)
  rw [h.projection e he hplain]
  exact Nat.lt_succ_self _

theorem Inv.emit_cells (h : Inv w) (hout : Outcome w.rt t state rt' r n)
    (hchain : Chain w.rt w.emitted real state) (hclear : Plain t → ClearAt w real t state) {c : ℕ}
    (hlo : r.val ≤ c) (hhi : c < r.val + n) :
    Owns (w.emit real t state rt' r n).emitted real c := by
  have hcap := h.heapCap
  have hnext := h.heapNext
  cases hout with
  | verbatim => exact absurd hhi (Nat.not_lt.mpr hlo)
  | @bound loc _ _ hlook hval =>
    have howns := hchain.bound hlook
    have hlt := h.owned_lt howns
    obtain rfl : c = loc := by
      rw [hval, Nat.mod_eq_of_lt (by omega)] at hlo hhi
      omega
    exact howns.mono _
  | @shared loc _ hplain hlook hval =>
    obtain ⟨e, he, hplain', -, -, rfl, rfl⟩ := h.hit hchain (hclear hplain) hlook
    have howns := h.projection_owned he hplain'
    have hlt := h.owned_lt howns
    obtain rfl : c = e.term.val := by
      rw [hval, Nat.mod_eq_of_lt (by omega)] at hlo hhi
      omega
    exact howns.mono _
  | first hnode _ _ hval | binder hnode _ hval | node hnode _ hval =>
    have := hnode.next
    exact owns_fresh w rt' (by omega) (by omega)

/-- What a layer does to the table of shared cells. -/
theorem Outcome.shared_eq {rt : Runtime} (h : Outcome rt t state rt' r n) :
    (rt'.shared = rt.shared ∧
      (Plain t → ∃ loc, dupShareLookup rt state t.val = some loc ∧ r.val = loc % 2 ^ 38)) ∨
    (Plain t ∧ r.val = rt.heapNext ∧ dupShareLookup rt state t.val = none ∧
      rt'.shared = push rt.shared (state, t.val) rt.heapNext (dupShareSlots state t.val)) := by
  cases h with
  | verbatim hrt _ hnot | bound hrt hnot =>
    exact .inl ⟨by rw [hrt], fun hplain => absurd hplain hnot⟩
  | shared hrt _ hlook hval => exact .inl ⟨by rw [hrt], fun _ => ⟨_, hlook, hval⟩⟩
  | binder hnode hnot _ _ _ _ hpush | node hnode hnot _ _ _ hpush =>
    exact .inl ⟨by simp only [Runtime.shared, hpush, hnode.dupShareGen],
      fun hplain => absurd hplain hnot⟩
  | first hnode hplain hlook hval _ _ hpush =>
    refine .inr ⟨hplain, hval, hlook, ?_⟩
    rw [← shared_push]
    simp only [Runtime.shared, hpush, hnode.dupShareGen]
    rfl

/-- Nothing is lost from the table. -/
theorem Outcome.shared_mono {rt : Runtime} (h : Outcome rt t state rt' r n) {s b : ℕ} :
    (∀ loc, dupShareLookup rt s b = some loc → dupShareLookup rt' s b = some loc) ∧
    (rt.Crowded s b → rt'.Crowded s b) := by
  unfold Runtime.Crowded
  rcases h.shared_eq with ⟨hsame, -⟩ | ⟨-, -, -, hpush⟩
  · simp only [lookup_eq_find, hsame]
    exact ⟨fun _ => id, id⟩
  · simp only [lookup_eq_find, hpush]
    exact ⟨fun _ hfind => find_push hfind, fun hfull => hfull.push⟩

/-- After a projection its key is found, or its slots are taken by others. -/
theorem Inv.emit_known (h : Inv w) (hout : Outcome w.rt t state rt' r n) (hplain : Plain t) :
    dupShareLookup rt' state t.val = some r.val ∨ rt'.Crowded state t.val := by
  have hcap := h.heapCap
  have hnext := h.heapNext
  rcases hout.shared_eq with ⟨hsame, hlook⟩ | ⟨-, hval, hlook, hpush⟩
  · obtain ⟨loc, hlook, hval⟩ := hlook hplain
    have hfind := hlook
    rw [lookup_eq_find] at hfind
    obtain ⟨slot, -, hslot⟩ := find_mem hfind
    obtain ⟨e, he, hplain', -, -, rfl⟩ := h.memo _ _ _ _ hslot
    have hlt := h.owned_lt (h.projection_owned he hplain')
    rw [Nat.mod_eq_of_lt (by omega)] at hval
    rw [hval]
    exact .inl (hout.shared_mono.1 _ hlook)
  · unfold Runtime.Crowded
    rw [lookup_eq_find] at hlook ⊢
    rw [hpush, hval]
    rcases find_none hlook with hfull | ⟨i, hi⟩
    · exact .inr hfull.push
    · exact .inl (find_push_self hlook hi)

/-- A projection resolves to the cell of the earlier ones of its realisation. -/
theorem Inv.emit_once (h : Inv w) (hout : Outcome w.rt t state rt' r n) (hplain : Plain t)
    (hclear : ClearAt w real t state) {e : Emission} (he : e ∈ w.emitted)
    (hplain' : Plain e.bookTerm) (hval : e.bookTerm.val = t.val) (hreal : e.real = real) :
    e.term.val = r.val := by
  have hstate := hclear.scope e he hplain' hval hreal
  have hroom := hclear.room e he hplain' hval hreal
  have hknown := h.known e he hplain'
  rw [hstate, hval] at hknown
  have hlook := hknown.resolve_right hroom
  rcases hout.shared_eq with ⟨-, hhit⟩ | ⟨-, -, hmiss, -⟩
  · obtain ⟨loc, hlook', hval'⟩ := hhit hplain
    obtain rfl := Option.some.inj (hlook.symm.trans hlook')
    have hlt := h.owned_lt (h.projection_owned he hplain')
    have hcap := h.heapCap
    have hnext := h.heapNext
    rw [hval', Nat.mod_eq_of_lt (by omega)]
  · rw [hmiss] at hlook
    cases hlook

/-- The suspensions of a new layer. -/
theorem Inv.emit_alos (h : Inv w) (hout : Outcome w.rt t state rt' r n)
    (hchain : Chain w.rt w.emitted real state) (hfresh : w.rt.heapNext < rt'.heapNext) :
    (alosIn rt'.heap w.rt.heapNext n).Pairwise (fun l l' => l + 2 ≤ l') ∧
    ∀ l ∈ alosIn rt'.heap w.rt.heapNext n, w.rt.heapNext ≤ l ∧ l + 2 ≤ rt'.heapNext ∧
      Chain rt' (w.emit real t state rt' r n).emitted real ((rt'.heap (l + 1)).val % 2 ^ 32) := by
  have hgrows := hout.grows h.heapNext
  have hcap : aloStateCap = 2 ^ 22 := rfl
  have hstates := h.statesCap
  have hmod : ∀ id, id ≤ w.rt.statesNext → id < aloStateCap →
      (termNew false .num dtInt32 id).val % 2 ^ 32 = id := by
    intro id hle hlt
    simp only [termNew]
    omega
  have hchain' : Chain rt' (w.emit real t state rt' r n).emitted real state :=
    hchain.mono _ hgrows.statesNext hgrows.states
  have hstate : state < aloStateCap := by
    cases hchain with
    | nil => decide
    | cons _ hlt => omega
  have hle : state ≤ w.rt.statesNext := by
    cases hchain with
    | nil => exact Nat.zero_le _
    | cons _ hlt => exact hlt.le
  cases hout with
  | verbatim hrt | bound hrt | shared hrt =>
    rw [hrt] at hfresh
    exact absurd hfresh (Nat.lt_irrefl _)
  | first hnode | node hnode =>
    refine ⟨hnode.apart, fun l hl => ?_⟩
    obtain ⟨hlo, hhi, hcell⟩ := hnode.alos l hl
    refine ⟨by omega, hhi, ?_⟩
    rw [hcell, hmod state hle hstate]
    exact hchain'
  | binder hnode _ hval hroom hupd hnext =>
    refine ⟨hnode.apart, fun l hl => ?_⟩
    obtain ⟨hlo, hhi, hcell⟩ := hnode.alos l hl
    refine ⟨by omega, hhi, ?_⟩
    rw [hcell, hmod w.rt.statesNext (Nat.le_refl _) hroom]
    have hnew : rt'.states w.rt.statesNext = ⟨state, t.val, w.rt.heapNext⟩ := by
      rw [hupd, Function.update_self]
    refine .cons (Nat.pos_iff_ne_zero.mp h.statesPos) (hnext ▸ Nat.lt_succ_self _) ?_ ?_ ?_
    · rw [hnew]
      exact owns_fresh w rt' (Nat.le_refl _) hfresh
    · rw [hnew]
      cases hchain with
      | nil => exact h.statesPos
      | cons _ hlt => exact hlt
    · rw [hnew]
      exact hchain'

theorem mem_emit {e : Emission} : e ∈ (w.emit real t state rt' r n).emitted ↔
    e = ⟨real, t, state, r, n, w.rt.heapNext, rt'.heapNext,
      if w.rt.heapNext < rt'.heapNext then alosIn rt'.heap w.rt.heapNext n else []⟩ ∨
    e ∈ w.emitted := List.mem_cons

theorem Inv.emit (h : Inv w) (hout : Outcome w.rt t state rt' r n)
    (hgens : ∀ i, (rt'.dupShare i).gen ≤ rt'.dupShareGen)
    (hchain : Chain w.rt w.emitted real state) (hclear : Plain t → ClearAt w real t state) :
    Inv (w.emit real t state rt' r n) := by
  have hgrows := hout.grows h.heapNext
  have hmono : ∀ {r₁ id}, Chain w.rt w.emitted r₁ id →
      Chain rt' (w.emit real t state rt' r n).emitted r₁ id := fun hc =>
    hc.mono _ hgrows.statesNext hgrows.states
  refine ⟨hgrows.heapCap ▸ h.heapCap, hgrows.heapCap ▸ hgrows.cap,
    Nat.lt_of_lt_of_le h.statesPos hgrows.statesNext, hgrows.statesCap h.statesCap,
    hgrows.gen ▸ h.genLt, hgens,
    List.pairwise_cons.mpr ⟨fun e he => (h.bounded e he).2, h.sorted⟩, ?_, ?_, ?_, ?_, ?_, ?_, ?_, ?_,
    ?_⟩
  · intro e he
    rcases mem_emit.mp he with rfl | he
    · exact ⟨hgrows.heapNext, Nat.le_refl _⟩
    · exact ⟨(h.bounded e he).1, (h.bounded e he).2.trans hgrows.heapNext⟩
  · intro e he c hc
    rcases mem_emit.mp he with rfl | he
    · rcases hc with ⟨hlo, hhi⟩ | ⟨hlo, hhi⟩
      · exact h.emit_cells hout hchain hclear hlo hhi
      · exact owns_fresh w rt' hlo hhi
    · exact (h.cells e he c hc).mono _
  · intro e he hplain
    rcases mem_emit.mp he with rfl | he
    · exact hout.projection hplain
    · exact h.projection e he hplain
  · intro e he
    rcases mem_emit.mp he with rfl | he
    · exact hmono hchain
    · exact hmono (h.chain e he)
  · intro e he l hl
    rcases mem_emit.mp he with rfl | he
    · by_cases hfresh : w.rt.heapNext < rt'.heapNext
      · simp only [if_pos hfresh] at hl
        obtain ⟨hlo, hhi, hc⟩ := (h.emit_alos hout hchain hfresh).2 l hl
        exact ⟨hlo, hhi, fun _ => hc⟩
      · simp only [if_neg hfresh] at hl
        cases hl
    · obtain ⟨hlo, hhi, hc⟩ := h.alos e he l hl
      have hle := (h.bounded e he).2
      refine ⟨hlo, hhi, fun htag => ?_⟩
      have hcell : rt'.heap (l + 1) = w.rt.heap (l + 1) := hgrows.old _ (by omega)
      change (rt'.heap (l + 1)).tag = .num at htag
      change Chain rt' _ e.real ((rt'.heap (l + 1)).val % 2 ^ 32)
      rw [hcell] at htag ⊢
      exact hmono (hc htag)
  · intro e he
    rcases mem_emit.mp he with rfl | he
    · by_cases hfresh : w.rt.heapNext < rt'.heapNext
      · simp only [if_pos hfresh]
        exact (h.emit_alos hout hchain hfresh).1
      · simp only [if_neg hfresh]
        exact List.Pairwise.nil
    · exact h.apart e he
  · intro slot s b loc hslot
    rcases hout.shared_eq with ⟨hsame, -⟩ | ⟨hplain, hval, -, hpush⟩
    · change rt'.shared slot = _ at hslot
      rw [hsame] at hslot
      obtain ⟨e, he, hrest⟩ := h.memo slot s b loc hslot
      exact ⟨e, List.mem_cons_of_mem _ he, hrest⟩
    · change rt'.shared slot = _ at hslot
      rw [hpush] at hslot
      rcases push_mem hslot with hold | hnew
      · obtain ⟨e, he, hrest⟩ := h.memo slot s b loc hold
        exact ⟨e, List.mem_cons_of_mem _ he, hrest⟩
      · obtain ⟨hkey, rfl⟩ := Prod.mk.inj hnew
        obtain ⟨rfl, rfl⟩ := Prod.mk.inj hkey
        exact ⟨_, List.mem_cons_self, hplain, rfl, rfl, hval⟩
  · intro e he hplain
    rcases mem_emit.mp he with rfl | he
    · exact h.emit_known hout hplain
    · exact (h.known e he hplain).imp (hout.shared_mono.1 _) hout.shared_mono.2
  · intro e he e' he' hplain hplain' hval hreal
    rcases mem_emit.mp he with rfl | he
    · rcases mem_emit.mp he' with rfl | he'
      · rfl
      · exact (h.emit_once hout hplain (hclear hplain) he' hplain' hval.symm hreal.symm).symm
    · rcases mem_emit.mp he' with rfl | he'
      · exact h.emit_once hout hplain' (hclear hplain') he hplain hval hreal
      · exact h.once e he e' he' hplain hplain' hval hreal

end Thvm.Alo
