import Thvm.TransitionRuns
import Mathlib.Algebra.BigOperators.Group.Finset.Piecewise
import Mathlib.Algebra.BigOperators.Group.Multiset.Basic
import Mathlib.Algebra.Order.BigOperators.Group.Finset
import Mathlib.Data.Fintype.Card
import Mathlib.Tactic.Abel

/-!
# Termination detection by counting active workers

Every worker has a bag that only it fills and that everybody may take from. A
shared counter counts the workers that can still produce work. A worker whose bag
has run dry looks for work elsewhere, gives up its place in the count when it finds
none, and watches: it rejoins when it sees work and leaves when the count is zero.
-/

namespace Thvm.TerminationDetection
open TransitionRuns

variable {ι α : Type*}

/-- `out` is the driver between rounds, `feeding` a worker whose bag may hold tasks,
`hunting` one that looks for tasks elsewhere, `idle` one outside the count, `left`
one that is out of its loop and `done` one that has reported so. -/
inductive Status
  | out
  | feeding
  | hunting
  | idle
  | left
  | done
  deriving DecidableEq, Repr

/-- Counted as able to produce work. -/
def Status.active : Status → Bool
  | .feeding | .hunting => true
  | _ => false

/-- Still to report the end of the round. -/
def Status.engaged : Status → Bool
  | .out | .done => false
  | _ => true

inductive Event (ι α : Type*)
  | silent
  | push (v : ι) (x : α)
  | fire (w : ι) (x : α)
  | ret
  deriving DecidableEq, Repr

structure Net (ι α : Type*) where
  status : ι → Status
  load : ι → Multiset α
  hand : ι → Multiset α
  alive : ℕ
  pending : ℕ

/-- Nothing is left to do and nobody does anything. -/
def Net.Quiet (s : Net ι α) : Prop := ∀ w, s.load w = 0 ∧ s.hand w = 0

def pushedBy : Event ι α → Option α
  | .push _ x => some x
  | _ => none

def firedBy : Event ι α → Option α
  | .fire _ x => some x
  | _ => none

def pushed (es : List (Event ι α)) : Multiset α := es.filterMap pushedBy

def fired (es : List (Event ι α)) : Multiset α := es.filterMap firedBy

theorem pushed_append (es fs : List (Event ι α)) : pushed (es ++ fs) = pushed es + pushed fs := by
  simp only [pushed, List.filterMap_append, Multiset.coe_add]

theorem fired_append (es fs : List (Event ι α)) : fired (es ++ fs) = fired es + fired fs := by
  simp only [fired, List.filterMap_append, Multiset.coe_add]

@[simp] theorem pushed_snoc (es : List (Event ι α)) (e : Event ι α) :
    pushed (es ++ [e]) = pushed es + (pushedBy e).elim 0 ({·}) := by
  cases e <;> simp [pushed, pushedBy, List.filterMap_append, ← Multiset.coe_add]

@[simp] theorem fired_snoc (es : List (Event ι α)) (e : Event ι α) :
    fired (es ++ [e]) = fired es + (firedBy e).elim 0 ({·}) := by
  cases e <;> simp [fired, firedBy, List.filterMap_append, ← Multiset.coe_add]

variable [DecidableEq ι]

/-- The moves of a round driven by `d`, and of `d` between two rounds. -/
inductive Move [Fintype ι] (d : ι) : Net ι α → Event ι α → Net ι α → Prop
  | silent (s : Net ι α) : Move d s .silent s
  | push (s : Net ι α) (w : ι) (x : α)
      (may : s.status w = .feeding ∧ s.hand w ≠ 0 ∨ s.status d = .out) :
      Move d s (.push w x) { s with load := Function.update s.load w ({x} + s.load w) }
  | take (s : Net ι α) (w : ι) (x : α) {rest : Multiset α}
      (may : s.status w = .feeding ∨ s.status d = .out) (some : s.load w = {x} + rest) :
      Move d s .silent { s with
        load := Function.update s.load w rest
        hand := Function.update s.hand w ({x} + s.hand w) }
  | steal (s : Net ι α) (w v : ι) (x : α) {rest : Multiset α} (may : s.status w = .hunting)
      (some : s.load v = {x} + rest) :
      Move d s .silent { s with
        status := Function.update s.status w .feeding
        load := Function.update s.load v rest
        hand := Function.update s.hand w ({x} + s.hand w) }
  | fire (s : Net ι α) (w : ι) (x : α) {rest : Multiset α} (some : s.hand w = {x} + rest) :
      Move d s (.fire w x) { s with hand := Function.update s.hand w rest }
  | starve (s : Net ι α) (w : ι) (may : s.status w = .feeding) (load : s.load w = 0)
      (hand : s.hand w = 0) :
      Move d s .silent { s with status := Function.update s.status w .hunting }
  | quit (s : Net ι α) (w : ι) (may : s.status w = .hunting) :
      Move d s .silent { s with
        status := Function.update s.status w (if s.alive = 1 then .left else .idle)
        alive := s.alive - 1 }
  | rejoin (s : Net ι α) (w : ι) (may : s.status w = .idle) :
      Move d s .silent { s with
        status := Function.update s.status w .feeding
        alive := s.alive + 1 }
  | leave (s : Net ι α) (w : ι) (may : s.status w = .idle) (none : s.alive = 0) :
      Move d s .silent { s with status := Function.update s.status w .left }
  | retire (s : Net ι α) (w : ι) (may : s.status w = .left) :
      Move d s .silent { s with
        status := Function.update s.status w .done
        pending := s.pending - 1 }
  | announce (s : Net ι α) (k : ℕ) (may : s.status d = .out) :
      Move d s .silent { s with alive := k }
  | start (s : Net ι α) (may : s.status d = .out) (all : s.alive = Fintype.card ι) :
      Move d s .silent { s with status := fun _ => .feeding, pending := Fintype.card ι }
  | finish (s : Net ι α) (may : s.status d = .done) (none : s.pending = 0) :
      Move d s .ret { s with status := Function.update s.status d .out }
  | finishAlone (s : Net ι α) (may : s.status d = .out) (quiet : s.Quiet) : Move d s .ret s

/-! Sums over all workers when one of them changes. -/

section Sums
variable [Fintype ι] {M : Type*} [AddCommMonoid M]

theorem sum_update_add (f : ι → M) (w : ι) (x : M) :
    (∑ v, Function.update f w x v) + f w = (∑ v, f v) + x := by
  have hnew := Finset.sum_update_of_mem (Finset.mem_univ w) f x
  have hold := Finset.add_sum_erase Finset.univ f (Finset.mem_univ w)
  rw [hnew, ← hold, Finset.sdiff_singleton_eq_erase]
  abel

theorem sum_insert (f : ι → M) (w : ι) (x : M) :
    ∑ v, Function.update f w (x + f w) v = x + ∑ v, f v := by
  have hold := Finset.add_sum_erase Finset.univ f (Finset.mem_univ w)
  rw [Finset.sum_update_of_mem (Finset.mem_univ w), Finset.sdiff_singleton_eq_erase, ← hold]
  abel

theorem sum_remove (f : ι → M) (w : ι) {x rest : M} (h : f w = x + rest) :
    ∑ v, f v = x + ∑ v, Function.update f w rest v := by
  have hback : Function.update (Function.update f w rest) w (x + rest) = f := by
    rw [Function.update_idem, ← h, Function.update_eq_self]
  have hsum := sum_insert (Function.update f w rest) w x
  rwa [Function.update_self, hback] at hsum

/-- The number of workers whose status passes the test. -/
def count (p : Status → Bool) (f : ι → Status) : ℕ := ∑ w, (p (f w)).toNat

theorem count_update (p : Status → Bool) (f : ι → Status) (w : ι) (x : Status) :
    count p (Function.update f w x) + (p (f w)).toNat = count p f + (p x).toNat := by
  have hcomp : ∀ v, (p (Function.update f w x v)).toNat =
      Function.update (fun v => (p (f v)).toNat) w (p x).toNat v :=
    fun v => Function.apply_update (fun _ y => (p y).toNat) f w x v
  rw [count, count, Finset.sum_congr rfl fun v _ => hcomp v]
  exact sum_update_add (fun v => (p (f v)).toNat) w _

omit [DecidableEq ι] in
theorem count_eq_zero {p : Status → Bool} {f : ι → Status} (h : count p f = 0) (w : ι) :
    p (f w) = false := by
  have hw := Finset.sum_eq_zero_iff.mp h w (Finset.mem_univ w)
  simpa using hw

omit [DecidableEq ι] in
theorem count_pos {p : Status → Bool} {f : ι → Status} {w : ι} (h : p (f w) = true) :
    0 < count p f := by
  refine Nat.pos_of_ne_zero fun hzero => ?_
  have hw := count_eq_zero hzero w
  exact Bool.noConfusion (h.symm.trans hw)

omit [DecidableEq ι] in
theorem count_le_card (p : Status → Bool) (f : ι → Status) : count p f ≤ Fintype.card ι := by
  rw [← Finset.card_univ, Finset.card_eq_sum_ones]
  exact Finset.sum_le_sum fun w _ => Bool.toNat_le _

end Sums

variable [Fintype ι] {d : ι}

/-- Nothing is lost between the bags and the hands, the two counters count, and a
worker that is out of its loop has seen the end of all work. -/
structure Inv (d : ι) (es : List (Event ι α)) (s : Net ι α) : Prop where
  balance : pushed es = fired es + (∑ w, s.load w + ∑ w, s.hand w)
  driver : ∀ w, s.status w = .out → w = d
  rest : s.status d = .out → ∀ w, w ≠ d → s.status w = .done
  alive : s.status d ≠ .out → s.alive = count Status.active s.status
  pending : s.status d ≠ .out → s.pending = count Status.engaged s.status
  barren : s.status d ≠ .out → ∀ w, s.status w ≠ .feeding → s.load w = 0 ∧ s.hand w = 0
  ended : s.status d ≠ .out → ∀ w, s.status w = .left ∨ s.status w = .done → s.Quiet

variable {es : List (Event ι α)} {s : Net ι α}

/-- A worker with any status but `out` and `done` shows that the round is running. -/
theorem Inv.running (h : Inv d es s) {w : ι} (hout : s.status w ≠ .out)
    (hdone : s.status w ≠ .done) : s.status d ≠ .out := by
  intro hd
  by_cases hw : w = d
  · exact hout (hw ▸ hd)
  · exact hdone (h.rest hd w hw)

omit [DecidableEq ι] in
/-- With nobody in the count all bags and hands are empty. -/
theorem Inv.quiet_of_alive (h : Inv d es s) (hd : s.status d ≠ .out) (hzero : s.alive = 0) :
    s.Quiet := by
  intro w
  have hactive := count_eq_zero ((h.alive hd).symm.trans hzero) w
  refine h.barren hd w fun hw => ?_
  rw [hw] at hactive
  exact Bool.noConfusion hactive

/-- The last worker in the count, with an empty bag and empty hands, is the last to do anything. -/
theorem Inv.quiet_of_last (h : Inv d es s) {w : ι} (hw : s.status w = .hunting)
    (hone : s.alive = 1) : s.Quiet := by
  have hd : s.status d ≠ .out := h.running (w := w) (by simp [hw]) (by simp [hw])
  have hcount := count_update Status.active s.status w .idle
  rw [← h.alive hd, hone, hw] at hcount
  intro v
  by_cases hv : v = w
  · exact h.barren hd v (by simp [hv, hw])
  · have hactive := count_eq_zero (Nat.add_right_cancel hcount) v
    rw [Function.update_of_ne hv] at hactive
    refine h.barren hd v fun hfeed => ?_
    rw [hfeed] at hactive
    exact Bool.noConfusion hactive

/-- A running round with one status changed, the counters changed along with it. -/
theorem Inv.restatus (h : Inv d es s) {w : ι} {x : Status} {alive pending : ℕ}
    (hd : s.status d ≠ .out) (hx : x ≠ .out)
    (halive : alive + (s.status w).active.toNat = s.alive + x.active.toNat)
    (hpending : pending + (s.status w).engaged.toNat = s.pending + x.engaged.toNat)
    (hbarren : x ≠ .feeding → s.load w = 0 ∧ s.hand w = 0)
    (hover : x = .left ∨ x = .done → s.Quiet) :
    Inv d es { s with
      status := Function.update s.status w x, alive := alive, pending := pending } := by
  have hstatus : ∀ v, v ≠ w → Function.update s.status w x v = s.status v :=
    fun v hv => Function.update_of_ne hv _ _
  have hd' : Function.update s.status w x d ≠ .out := by
    by_cases hdw : d = w
    · rw [hdw, Function.update_self]
      exact hx
    · rwa [hstatus d hdw]
  refine ⟨h.balance, fun v hv => ?_, fun hout => absurd hout hd', fun _ => ?_, fun _ => ?_,
    fun _ v hv => ?_, fun _ v hv => ?_⟩
  · by_cases hvw : v = w
    · simp only [hvw, Function.update_self] at hv
      exact absurd hv hx
    · exact h.driver v (hstatus v hvw ▸ hv)
  · have hcount := count_update Status.active s.status w x
    have hold := h.alive hd
    simp only
    omega
  · have hcount := count_update Status.engaged s.status w x
    have hold := h.pending hd
    simp only
    omega
  · by_cases hvw : v = w
    · simp only [hvw, Function.update_self] at hv ⊢
      exact hbarren hv
    · exact h.barren hd v (by rwa [← hstatus v hvw])
  · by_cases hvw : v = w
    · simp only [hvw, Function.update_self] at hv
      exact hover hv
    · exact h.ended hd v (by rwa [← hstatus v hvw])

omit [DecidableEq ι] in
/-- Tasks that move between bags and hands, of workers that may have some. -/
theorem Inv.carry (h : Inv d es s) {e : Event ι α} {load hand : ι → Multiset α}
    (hbalance : pushed (es ++ [e]) =
      fired (es ++ [e]) + (∑ w, load w + ∑ w, hand w))
    (hkeep : s.status d ≠ .out → ∀ w, s.status w ≠ .feeding → s.load w = 0 → s.hand w = 0 →
      load w = 0 ∧ hand w = 0)
    (hbusy : s.status d ≠ .out → ¬ s.Quiet) :
    Inv d (es ++ [e]) { s with load := load, hand := hand } where
  balance := hbalance
  driver := h.driver
  rest := h.rest
  alive := h.alive
  pending := h.pending
  barren := fun hd w hw => hkeep hd w hw (h.barren hd w hw).1 (h.barren hd w hw).2
  ended := fun hd w hw => absurd (h.ended hd w hw) (hbusy hd)

omit [DecidableEq ι] in
/-- An event that neither pushes nor fires. -/
theorem Inv.event (h : Inv d es s) {e : Event ι α} (hpushed : pushedBy e = none)
    (hfired : firedBy e = none) : Inv d (es ++ [e]) s := by
  refine ⟨?_, h.driver, h.rest, h.alive, h.pending, h.barren, h.ended⟩
  rw [pushed_snoc, fired_snoc, hpushed, hfired]
  simpa using h.balance

theorem inv_step {s' : Net ι α} {e : Event ι α} (h : Inv d es s) (hm : Move d s e s') :
    Inv d (es ++ [e]) s' := by
  cases hm with
  | silent => exact h.event rfl rfl
  | push w x may =>
    refine h.carry ?_ (fun hd v hv hload hhand => ⟨?_, hhand⟩) fun hd hquiet => ?_
    · rw [pushed_snoc, fired_snoc, h.balance, sum_insert]
      simp only [pushedBy, firedBy, Option.elim_some, Option.elim_none]
      abel
    · have hvw : v ≠ w := fun he => hv (he ▸ (may.resolve_right hd).1)
      rwa [Function.update_of_ne hvw]
    · exact (may.resolve_right hd).2 (hquiet w).2
  | take w x may some =>
    refine h.carry ?_ (fun hd v hv hload hhand => ?_) fun hd hquiet => ?_
    · rw [pushed_snoc, fired_snoc, h.balance, sum_insert, sum_remove _ _ some]
      simp only [pushedBy, firedBy, Option.elim_none]
      abel
    · have hvw : v ≠ w := fun he => hv (he ▸ may.resolve_right hd)
      rw [Function.update_of_ne hvw, Function.update_of_ne hvw]
      exact ⟨hload, hhand⟩
    · have hempty := (hquiet w).1
      simp [some] at hempty
  | steal w v x may some =>
    have hd := h.running (w := w) (by simp [may]) (by simp [may])
    have hjoin : Inv d es { s with status := Function.update s.status w .feeding } :=
      h.restatus hd (by simp) (by simp [may, Status.active]) (by simp [may, Status.engaged])
        (by simp) (by simp)
    refine hjoin.carry ?_ (fun hd u hu hload hhand => ?_) fun hd hquiet => ?_
    · rw [pushed_snoc, fired_snoc, h.balance, sum_insert, sum_remove _ _ some]
      simp only [pushedBy, firedBy, Option.elim_none]
      abel
    · have huw : u ≠ w := fun he => hu (by simp [he])
      refine ⟨?_, by rwa [Function.update_of_ne huw]⟩
      by_cases huv : u = v
      · have hempty : s.load v = 0 := huv ▸ hload
        simp [hempty] at some
      · rwa [Function.update_of_ne huv]
    · have hempty : s.load v = 0 := (hquiet v).1
      simp [some] at hempty
  | fire w x some =>
    refine h.carry ?_ (fun hd v hv hload hhand => ⟨hload, ?_⟩) fun hd hquiet => ?_
    · rw [pushed_snoc, fired_snoc, h.balance, sum_remove _ _ some]
      simp only [pushedBy, firedBy, Option.elim_none, Option.elim_some]
      abel
    · by_cases hvw : v = w
      · subst hvw
        simp [hhand] at some
      · rwa [Function.update_of_ne hvw]
    · have hempty := (hquiet w).2
      simp [some] at hempty
  | starve w may load hand =>
    have hd := h.running (w := w) (by simp [may]) (by simp [may])
    exact (h.restatus hd (by simp) (by simp [may, Status.active]) (by simp [may, Status.engaged])
      (fun _ => ⟨load, hand⟩) (by simp)).event rfl rfl
  | quit w may =>
    have hd := h.running (w := w) (by simp [may]) (by simp [may])
    have hpos : 0 < s.alive := h.alive hd ▸ count_pos (w := w) (by simp [may, Status.active])
    have hempty := h.barren hd w (by simp [may])
    refine Inv.event (h.restatus hd ?_ ?_ ?_ (fun _ => hempty) fun hleft => ?_) rfl rfl
    · split <;> simp
    · split <;> simp [may, Status.active] <;> omega
    · split <;> simp [may, Status.engaged]
    · refine h.quiet_of_last may ?_
      by_contra hone
      simp [hone] at hleft
  | rejoin w may =>
    have hd := h.running (w := w) (by simp [may]) (by simp [may])
    exact (h.restatus hd (by simp) (by simp [may, Status.active]) (by simp [may, Status.engaged])
      (by simp) (by simp)).event rfl rfl
  | leave w may none =>
    have hd := h.running (w := w) (by simp [may]) (by simp [may])
    exact (h.restatus hd (by simp) (by simp [may, Status.active]) (by simp [may, Status.engaged])
      (fun _ => h.barren hd w (by simp [may])) (fun _ => h.quiet_of_alive hd none)).event rfl rfl
  | retire w may =>
    have hd := h.running (w := w) (by simp [may]) (by simp [may])
    have hpos : 0 < s.pending := h.pending hd ▸ count_pos (w := w) (by simp [may, Status.engaged])
    refine Inv.event (h.restatus hd (by simp) (by simp [may, Status.active]) ?_
      (fun _ => h.barren hd w (by simp [may])) fun _ => h.ended hd w (.inl may)) rfl rfl
    simp [may, Status.engaged]
    omega
  | announce k may =>
    have hout : Inv d es { s with alive := k } :=
      ⟨h.balance, h.driver, h.rest, fun hd => absurd may hd, fun hd => absurd may hd,
        fun hd => absurd may hd, fun hd => absurd may hd⟩
    exact hout.event rfl rfl
  | start may all =>
    have hcard : ∀ p : Status → Bool, p .feeding = true →
        Fintype.card ι = count p fun _ : ι => .feeding := by
      intro p hp
      simp [count, hp]
    have hall : Inv d es { s with status := fun _ => .feeding, pending := Fintype.card ι } := by
      refine ⟨h.balance, ?_, ?_, fun _ => all.trans (hcard _ rfl), fun _ => hcard _ rfl, ?_, ?_⟩ <;>
        simp
    exact hall.event rfl rfl
  | finish may none =>
    have hd : s.status d ≠ .out := by simp [may]
    have hdone : ∀ w, w ≠ d → s.status w = .done := by
      intro w hw
      have hengaged := count_eq_zero ((h.pending hd).symm.trans none) w
      cases hs : s.status w <;> rw [hs] at hengaged <;> simp [Status.engaged] at hengaged
      exact absurd (h.driver w hs) hw
    have hback : Inv d es { s with status := Function.update s.status d .out } := by
      refine ⟨h.balance, fun w hw => ?_, fun _ w hw => ?_, ?_, ?_, ?_, ?_⟩
      · by_contra hwd
        simp only [Function.update_of_ne hwd] at hw
        exact hwd (h.driver w hw)
      · simp only [Function.update_of_ne hw]
        exact hdone w hw
      all_goals simp
    exact hback.event rfl rfl
  | finishAlone may quiet => exact h.event rfl rfl

theorem inv_run {s' : Net ι α} (h : Inv d [] s) (hrun : Run (Move d) s es s') : Inv d es s' :=
  hrun.invariant h fun _ _ _ _ ih hm => inv_step ih hm

/-- What the driver may rely on when a round returns. -/
theorem quiet_of_ret {s' : Net ι α} (h : Inv d es s) (hm : Move d s .ret s') : s'.Quiet := by
  cases hm with
  | finish may none => exact h.ended (by simp [may]) d (.inr may)
  | finishAlone may quiet => exact quiet

end Thvm.TerminationDetection
