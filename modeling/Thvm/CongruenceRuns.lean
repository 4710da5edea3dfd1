import Thvm.CongruenceExact
import Thvm.TransitionRuns

/-!
# Runs of the congruence closure

A session interns nodes, asserts equations and disequalities, takes marks and pops to them.
It remembers what is currently asserted, and for each mark the state in which it was taken.
-/

namespace Thvm.CongruenceClosure
open LinearProbing RankedForests BoundedLoops TransitionRuns

/-- A mark, with what was there when it was taken. -/
structure Mark where
  pos : ℕ
  cc : CcState
  eqs : List (ℕ × ℕ)
  nes : List (ℕ × ℕ)

/-- The outstanding marks stand with the newest one first. -/
structure Session where
  cc : CcState
  eqs : List (ℕ × ℕ)
  nes : List (ℕ × ℕ)
  marks : List Mark

inductive CcOp where
  | atom (atomId : ℕ)
  | app (fnId : ℕ) (args : List ℕ)
  | assertEq (a b : ℕ)
  | assertNe (a b : ℕ)
  | push
  | pop (k : ℕ)

namespace Session

def start : Session := ⟨ccInit, [], [], []⟩

def takeMark (σ : Session) : Session :=
  { σ with marks := ⟨ccPush σ.cc, σ.cc, σ.eqs, σ.nes⟩ :: σ.marks }

end Session

/-- `pop k` goes back to an outstanding mark, past the `k` newer ones. -/
inductive Step : Session → CcOp → Session → Prop
  | atom (σ : Session) (atomId : ℕ) : Step σ (.atom atomId) { σ with cc := (ccAtom σ.cc atomId).2 }
  | app {σ : Session} {fnId : ℕ} {args : List ℕ} {n : ℕ} {s : CcState}
      (hargs : ∀ a ∈ args, a < σ.cc.nodes.length) (h : ccApp σ.cc fnId args = some (n, s)) :
      Step σ (.app fnId args) { σ with cc := s }
  | assertEq {σ : Session} {a b : ℕ} {s : CcState} (ha : a < σ.cc.nodes.length)
      (hb : b < σ.cc.nodes.length) (h : Settles (fun rounds => ccAssertEq rounds σ.cc a b) s) :
      Step σ (.assertEq a b) { σ with cc := s, eqs := (a, b) :: σ.eqs }
  | assertNe {σ : Session} {a b : ℕ} (ha : a < σ.cc.nodes.length) (hb : b < σ.cc.nodes.length) :
      Step σ (.assertNe a b) { σ with cc := ccAssertNe σ.cc a b, nes := (a, b) :: σ.nes }
  | push (σ : Session) : Step σ .push σ.takeMark
  | pop {σ : Session} {newer older : List Mark} {m : Mark} {s : CcState}
      (hmarks : σ.marks = newer ++ m :: older) (h : ccPop σ.cc m.pos = some s) :
      Step σ (.pop newer.length) ⟨s, m.eqs, m.nes, older⟩

/-- The operations that a caller may ask for. -/
def Allowed (σ : Session) : CcOp → Prop
  | .atom _ => True
  | .app _ args => ∀ a ∈ args, a < σ.cc.nodes.length
  | .assertEq a b => a < σ.cc.nodes.length ∧ b < σ.cc.nodes.length
  | .assertNe a b => a < σ.cc.nodes.length ∧ b < σ.cc.nodes.length
  | .push => True
  | .pop k => k < σ.marks.length

variable {s s' t : CcState} {eqs : List (ℕ × ℕ)} {σ σ₁ σ₂ σ' : Session} {op : CcOp}
  {ops ops' : List CcOp} {m : Mark} {newer older : List Mark}

theorem Settled.same (h : Settled s eqs) (hsame : Same t s) (hpend : t.pend = []) :
    Settled t eqs := by
  obtain ⟨⟨lists, hinv⟩, hspend⟩ := h
  refine ⟨⟨lists, ?_⟩, hpend⟩
  obtain ⟨nodes, parent, rank, useHead, uses, sig, pend, ne, trail⟩ := t
  obtain ⟨rfl, rfl, rfl, rfl, rfl, rfl, hok, hhas⟩ := hsame
  have hjoin : ∀ m n, Joined s m n → Joined ⟨s.nodes, s.parent, s.rank, s.useHead, s.uses, sig, pend,
      s.ne, trail⟩ m n := fun m n hj =>
    hj.mono (fun _ _ hf => .rel _ _ (.inl hf)) fun _ _ hp => by
      rw [hspend] at hp
      cases hp
  refine ⟨hinv.forest, hinv.fresh, hinv.args, hinv.linked, hinv.apps, hok,
    fun key n hn => hinv.keys key n ((hhas key n).mp hn), hinv.used, hinv.sound, ?_, ?_, ?_⟩
  · intro p hp
    obtain rfl : pend = [] := hpend
    cases hp
  · intro p hp
    obtain ⟨h₁, h₂, hj⟩ := hinv.eqs p hp
    exact ⟨h₁, h₂, hjoin _ _ hj⟩
  · intro n f as hn hopen
    obtain ⟨m, hm, hj⟩ := hinv.closed n f as hn hopen
    exact ⟨m, (hhas _ _).mpr hm, hjoin _ _ hj⟩

theorem Undoes.same (h : Undoes s s') (hsame : Same t s') (htrail : t.trail = s'.trail) :
    Undoes s t := by
  obtain ⟨es, hes, hundo⟩ := h
  refine ⟨es, htrail.trans hes, fun u hu => hundo u ?_⟩
  exact ⟨hu.nodes.trans hsame.nodes, hu.parent.trans hsame.parent, hu.rank.trans hsame.rank,
    hu.useHead.trans hsame.useHead, hu.uses.trans hsame.uses, hu.ne.trans hsame.ne, hu.sigOk,
    fun key node => (hu.sig key node).trans (hsame.sig key node)⟩

/-- The current state, or one that a mark remembers. -/
structure Remembered (cc : CcState) (eqs nes : List (ℕ × ℕ)) : Prop where
  settled : Settled cc eqs
  ne : cc.ne = nes

/-- Between the operations: each state leads back to all the marked ones. -/
structure Sound (σ : Session) : Prop where
  now : Remembered σ.cc σ.eqs σ.nes
  marks : ∀ m ∈ σ.marks, m.pos = ccPush m.cc ∧ Remembered m.cc m.eqs m.nes
  back : (σ.cc :: σ.marks.map Mark.cc).Pairwise fun newer older => Undoes older newer

theorem inv_init : CcInv ccInit [] (fun _ => []) (fun _ => False) fun _ _ => False where
  forest := ⟨fun n hn => absurd hn (Nat.not_lt_zero n), fun n hn => absurd hn (Nat.not_lt_zero n)⟩
  fresh := fun n _ => ⟨rfl, rfl, rfl⟩
  args := by
    intro n f as hn
    cases hn
  linked :=
    { path := fun r => rfl
      lt := fun r c hc => absurd hc List.not_mem_nil
      nodup := fun r => List.nodup_nil
      disjoint := fun r r' c hc => absurd hc List.not_mem_nil }
  apps := by
    intro c p hp
    cases hp
  sigOk := ⟨empty_wellFormed (by decide), by decide, by decide⟩
  keys := fun key n hn => absurd hn not_has_empty
  used := by
    intro n f as hn
    cases hn
  sound := fun m hm => absurd hm (Nat.not_lt_zero m)
  pendSound := fun p hp => absurd hp List.not_mem_nil
  eqs := fun p hp => absurd hp List.not_mem_nil
  closed := by
    intro n f as hn
    cases hn

theorem Sound.start : Sound .start where
  now := ⟨⟨⟨_, inv_init⟩, rfl⟩, rfl⟩
  marks := fun _ hm => absurd hm List.not_mem_nil
  back := List.pairwise_singleton _ _

/-- An operation that leaves the marks alone. -/
theorem Sound.advance {nes : List (ℕ × ℕ)} (h : Sound σ) (hsettled : Settled s eqs) (hne : s.ne = nes)
    (hundo : Undoes σ.cc s) : Sound ⟨s, eqs, nes, σ.marks⟩ where
  now := ⟨hsettled, hne⟩
  marks := h.marks
  back := by
    obtain ⟨hnow, hrest⟩ := List.pairwise_cons.mp h.back
    refine List.pairwise_cons.mpr ⟨fun u hu => ?_, hrest⟩
    exact (hnow u hu).trans hundo

theorem Sound.push (h : Sound σ) : Sound σ.takeMark where
  now := h.now
  marks := by
    intro m hm
    rcases List.mem_cons.mp hm with rfl | hm
    · exact ⟨rfl, h.now⟩
    · exact h.marks m hm
  back := by
    refine List.pairwise_cons.mpr ⟨fun u hu => ?_, h.back⟩
    rcases List.mem_cons.mp hu with rfl | hu
    · exact .refl _
    · exact (List.pairwise_cons.mp h.back).1 u hu

/-- The state of a mark comes back. -/
theorem Sound.restored (h : Sound σ) (hmarks : σ.marks = newer ++ m :: older) :
    ∃ t, ccPop σ.cc m.pos = some t ∧ Same t m.cc ∧ t.trail = m.cc.trail ∧ t.pend = [] := by
  have hm : m ∈ σ.marks := hmarks ▸ List.mem_append_right _ List.mem_cons_self
  obtain ⟨hpos, -⟩ := h.marks m hm
  have hundo := (List.pairwise_cons.mp h.back).1 m.cc (List.mem_map_of_mem hm)
  obtain ⟨⟨⟨lists, hinv⟩, hpend⟩, -⟩ := h.now
  obtain ⟨t, hrun, hsame, htrail, hpend'⟩ := ccPop_spec hundo hinv.sigOk
  exact ⟨t, by rw [hpos, hrun], hsame, htrail, hpend'.trans hpend⟩

theorem Sound.pop (h : Sound σ) (hmarks : σ.marks = newer ++ m :: older) (hsame : Same t m.cc)
    (htrail : t.trail = m.cc.trail) (hpend : t.pend = []) : Sound ⟨t, m.eqs, m.nes, older⟩ where
  now := by
    have hm : m ∈ σ.marks := hmarks ▸ List.mem_append_right _ List.mem_cons_self
    obtain ⟨-, hremembered⟩ := h.marks m hm
    exact ⟨hremembered.settled.same hsame hpend, hsame.ne.trans hremembered.ne⟩
  marks := fun m' hm' => h.marks m' (hmarks ▸ List.mem_append_right _ (List.mem_cons_of_mem _ hm'))
  back := by
    have hback := (List.pairwise_cons.mp h.back).2
    rw [hmarks, List.map_append, List.map_cons] at hback
    obtain ⟨hfirst, hrest⟩ := List.pairwise_cons.mp (List.pairwise_append.mp hback).2.1
    exact List.pairwise_cons.mpr ⟨fun u hu => (hfirst u hu).same hsame htrail, hrest⟩

theorem sound_step (h : Sound σ) (hstep : Step σ op σ') : Sound σ' := by
  obtain ⟨hsettled, hne⟩ := h.now
  cases hstep with
  | atom atomId =>
    obtain ⟨lists, hinv⟩ := hsettled.inv
    exact h.advance (hsettled.atom atomId) hne (hinv.undoes_newNode _)
  | app hargs hrun =>
    obtain ⟨n, s', hrun', hsettled', -, -, hne', hundo⟩ := hsettled.app _ hargs
    obtain ⟨-, rfl⟩ := Prod.mk.inj (Option.some.inj (hrun.symm.trans hrun'))
    exact h.advance hsettled' (hne'.trans hne) hundo
  | assertEq ha hb hset =>
    obtain ⟨s', hset', hsettled', -, hne', hundo⟩ := hsettled.assertEq ha hb
    obtain rfl := hset.unique hset'
    exact h.advance hsettled' (hne'.trans hne) hundo
  | assertNe ha hb =>
    refine h.advance (hsettled.assertNe _ _) ?_ (undoes_ne _ _ _)
    rw [← hne]
    rfl
  | push => exact h.push
  | pop hmarks hrun =>
    obtain ⟨t, hrun', hsame, htrail, hpend⟩ := h.restored hmarks
    obtain rfl := Option.some.inj (hrun.symm.trans hrun')
    exact h.pop hmarks hsame htrail hpend

theorem sound_run (h : Sound σ) (hrun : Run Step σ ops σ') : Sound σ' :=
  hrun.invariant (I := fun _ σ => Sound σ) h fun _ _ _ _ h hstep => sound_step h hstep

/-- Every operation that is asked for returns. -/
theorem Sound.progress (h : Sound σ) (hop : Allowed σ op) : ∃ σ', Step σ op σ' := by
  obtain ⟨hsettled, -⟩ := h.now
  cases op with
  | atom atomId => exact ⟨_, .atom σ atomId⟩
  | app fnId args =>
    obtain ⟨n, s', hrun, -⟩ := hsettled.app fnId hop
    exact ⟨_, .app hop hrun⟩
  | assertEq a b =>
    obtain ⟨s', hset, -⟩ := hsettled.assertEq hop.1 hop.2
    exact ⟨_, .assertEq hop.1 hop.2 hset⟩
  | assertNe a b => exact ⟨_, .assertNe hop.1 hop.2⟩
  | push => exact ⟨_, .push σ⟩
  | pop k =>
    have hk : k < σ.marks.length := hop
    have hmarks : σ.marks = σ.marks.take k ++ σ.marks[k] :: σ.marks.drop (k + 1) := by simp
    obtain ⟨t, hrun, -⟩ := h.restored hmarks
    have hstep := Step.pop hmarks hrun
    rw [List.length_take_of_le hk.le] at hstep
    exact ⟨_, hstep⟩

theorem ccCheck_unsat (s : CcState) :
    ccCheck s = .unsat ↔ ∃ p ∈ s.ne, ccFind s p.1 = ccFind s p.2 := by
  unfold ccCheck
  split
  · next h => simpa using h
  · next h => simpa using h

end Thvm.CongruenceClosure
