import Thvm.WorkStealingLinearization

/-!
# Linearizability of whole runs, and the limit of the 64-bit counters

Each operation takes effect at one of its own steps, between its call and its
return and with the value it returns; the effects in that order are a legal
sequential history. The counters only ever grow, so the argument stops at
`2 ^ 64` pushes, which the source declares unreachable in practice.
-/

namespace Thvm.WorkStealingDeque
open SequentialDeque TransitionRuns FixedWidth

variable {α ι : Type*}

/-- Which effect answers which operation, and with which value. -/
inductive Answers : Op α → Event α → Reply α → Prop
  | push (x : α) : Answers (.push x) (.push x) .pushed
  | full (x : α) : Answers (.push x) (.full x) .full
  | pop (x : α) : Answers .pop (.pop x) (.got x)
  | popNone : Answers .pop .popNone .none
  | steal (x : α) : Answers .steal (.steal x) (.got x)
  | stealNone : Answers .steal .stealNone .none

/-- An actor between operations, inside one, or past the effect of one. -/
inductive Phase (α : Type*)
  | idle
  | pending (op : Op α)
  | decided (r : Reply α)

/-- The steps of one actor: call, effect and return come in this order, once each. -/
inductive Advance (ι : Type*) {α : Type*} : Phase α → Label ι α → Phase α → Prop
  | call (a : Actor ι) (op : Op α) : Advance ι .idle ⟨a, some op, none, none⟩ (.pending op)
  | silent (a : Actor ι) (p : Phase α) : Advance ι p ⟨a, none, none, none⟩ p
  | decide (a : Actor ι) {op : Op α} {e : Event α} {r : Reply α} (h : Answers op e r) :
      Advance ι (.pending op) ⟨a, none, some e, none⟩ (.decided r)
  | reply (a : Actor ι) (r : Reply α) : Advance ι (.decided r) ⟨a, none, none, some r⟩ .idle
  | decideReply (a : Actor ι) {op : Op α} {e : Event α} {r : Reply α} (h : Answers op e r) :
      Advance ι (.pending op) ⟨a, none, some e, some r⟩ .idle

def ownerPhase : OwnerPc α → Phase α
  | .idle => .idle
  | .push x | .pushTop x _ | .pushSlot x _ | .pushBot x _ => .pending (.push x)
  | .popWon x _ => .decided (.got x)
  | _ => .pending .pop

def thiefPhase : ThiefPc α → Phase α
  | .idle => .idle
  | _ => .pending .steal

def State.phase (s : State ι α) : Actor ι → Phase α
  | .owner => ownerPhase s.owner
  | .thief i => thiefPhase (s.thief i)

theorem advance_ownerStep (q : WsDeque α) (pc : OwnerPc α) :
    Advance ι (ownerPhase pc) ⟨.owner, none, (ownerStep q pc).event, (ownerStep q pc).reply⟩
      (ownerPhase (ownerStep q pc).pc) := by
  cases pc with
  | idle | push | pushSlot | popDec => exact .silent _ _
  | pushTop x b =>
    simp only [ownerStep]
    split
    · exact .decideReply _ (.full x)
    · exact .silent _ _
  | pushBot x b => exact .decideReply _ (.push x)
  | pop | popTop =>
    simp only [ownerStep]
    split
    · first | exact .decideReply _ .popNone | exact .silent _ _
    · exact .silent _ _
  | popSlot b₁ t =>
    simp only [ownerStep]
    split
    · exact .silent _ _
    · exact .decideReply _ (.pop _)
  | popCas x t =>
    simp only [ownerStep]
    split
    · exact .decide _ (.pop x)
    · exact .silent _ _
  | popWon x t => exact .reply _ (.got x)
  | popLost t | popEmpty t => exact .decideReply _ .popNone

theorem advance_thiefStep (q : WsDeque α) (i : ι) (th : ThiefPc α) :
    Advance ι (thiefPhase th) ⟨.thief i, none, (thiefStep q th).event, (thiefStep q th).reply⟩
      (thiefPhase (thiefStep q th).pc) := by
  cases th with
  | idle | steal | stealSlot => exact .silent _ _
  | stealBot t =>
    simp only [thiefStep]
    split
    · exact .decideReply _ .stealNone
    · exact .silent _ _
  | stealCas x t =>
    simp only [thiefStep]
    split
    · exact .decideReply _ (.steal x)
    · exact .decideReply _ .stealNone

variable [DecidableEq ι]

/-- A step advances the phase of its own actor and of no other. -/
theorem advance_step {s s' : State ι α} {l : Label ι α} (h : Step s l s') :
    Advance ι (s.phase l.actor) l (s'.phase l.actor) ∧
      ∀ a, a ≠ l.actor → s'.phase a = s.phase a := by
  cases h with
  | ownerCall hidle hop =>
    refine ⟨?_, fun a ha => ?_⟩
    · simp only [State.phase, hidle]
      rename_i op pc
      cases op <;> simp only [ownerEntry, Option.some.injEq, reduceCtorEq] at hop
      all_goals subst hop; exact .call _ _
    · cases a with
      | owner => exact absurd rfl ha
      | thief j => rfl
  | ownerRun hbusy =>
    refine ⟨advance_ownerStep _ _, fun a ha => ?_⟩
    cases a with
    | owner => exact absurd rfl ha
    | thief j => rfl
  | thiefCall i hidle =>
    refine ⟨?_, fun a ha => ?_⟩
    · simp only [State.phase, hidle, Function.update_self]
      exact .call _ _
    · cases a with
      | owner => rfl
      | thief j =>
        have hne : j ≠ i := fun he => ha (he ▸ rfl)
        simp only [State.phase, Function.update_of_ne hne]
  | thiefRun i hbusy =>
    refine ⟨?_, fun a ha => ?_⟩
    · simp only [State.phase, Function.update_self]
      exact advance_thiefStep _ _ _
    · cases a with
      | owner => rfl
      | thief j =>
        have hne : j ≠ i := fun he => ha (he ▸ rfl)
        simp only [State.phase, Function.update_of_ne hne]

/-- The operations of one actor never overlap and each takes effect exactly once. -/
theorem advance_run {s t : State ι α} {ls : List (Label ι α)} (h : Run Step s ls t)
    (a : Actor ι) :
    Run (Advance ι) (s.phase a) (ls.filter (·.actor = a)) (t.phase a) := by
  induction h with
  | refl => exact .refl
  | @snoc ls t l u run last ih =>
    obtain ⟨hown, hother⟩ := advance_step last
    rw [List.filter_append]
    by_cases ha : l.actor = a
    · subst ha
      simpa using ih.snoc hown
    · have hphase : u.phase a = t.phase a := hother a (Ne.symm ha)
      simpa [ha, hphase] using ih

/-- The step lemma: the invariant is kept and the contents change as announced. -/
theorem inv_step {s s' : State ι α} {l : Label ι α} (h : Inv s) (hs : Step s l s')
    (hroom : ∀ x, l.event = some (.push x) → s.q.bot + 1 < 2 ^ 64) :
    Inv s' ∧ Changes s.q.cap (content s.q s.owner) l.event (content s'.q s'.owner) := by
  cases hs with
  | @ownerCall op pc hidle hop =>
    have hbottom : bottom s.q pc = bottom s.q s.owner ∧ ceiling s.q pc = ceiling s.q s.owner ∧
        OwnerInv s.q pc := by
      rw [hidle]
      cases op <;> simp only [ownerEntry, Option.some.injEq, reduceCtorEq] at hop
      all_goals subst hop; exact ⟨rfl, rfl, trivial⟩
    have hmove : OwnerMove s.q s.owner ⟨s.q, pc, none, none⟩ :=
      .local_step h.core hbottom.2.2 hbottom.1 hbottom.2.1
    exact ⟨⟨hmove.core, fun i => hmove.thief _ (h.thief i)⟩, hmove.effect⟩
  | ownerRun hbusy =>
    have hmove := ownerMove_step h.core fun x b hpc => hroom x (by rw [hpc]; rfl)
    exact ⟨⟨hmove.core, fun i => hmove.thief _ (h.thief i)⟩, hmove.effect⟩
  | thiefCall i hidle =>
    refine ⟨⟨h.core, fun j => ?_⟩, rfl⟩
    by_cases hj : j = i
    · subst hj
      simp only [Function.update_self]
      trivial
    · simp only [Function.update_of_ne hj]
      exact h.thief j
  | thiefRun i hbusy =>
    have hmove := thiefMove_step h.core (h.thief i)
    refine ⟨⟨hmove.core, fun j => ?_⟩, hmove.effect⟩
    by_cases hj : j = i
    · subst hj
      simp only [Function.update_self]
      exact hmove.self
    · simp only [Function.update_of_ne hj]
      exact hmove.other _ (h.thief j)

theorem bottom_ownerStep {q : WsDeque α} {pc : OwnerPc α} (hcore : Core q pc) :
    bottom (ownerStep q pc).deque (ownerStep q pc).pc ≤
      bottom q pc + (pushed (ownerStep q pc).event.toList).length := by
  have h := hcore.owner
  have htop := hcore.top_le.trans (ceiling_le_bottom q pc)
  cases pc <;> simp only [ownerStep, OwnerInv] at h ⊢
  case pushBot x b => exact (inc64_le b).trans (h.1 ▸ le_rfl)
  case popDec b => simp only [bottom]; omega
  case popWon x t => exact (inc64_le t).trans le_rfl
  case popLost t => exact (inc64_le t).trans (Nat.le_add_right _ _)
  all_goals first
    | exact Nat.le_add_right _ _
    | (simp only [bottom] at htop; split <;> simp only [bottom] <;> omega)

/-- The bottom index counts successful pushes, less what the owner popped back. -/
theorem bottom_step {s s' : State ι α} {l : Label ι α} (h : Inv s) (hs : Step s l s') :
    bottom s'.q s'.owner ≤ bottom s.q s.owner + (pushed l.event.toList).length := by
  cases hs with
  | @ownerCall op pc hidle hop =>
    rw [hidle]
    cases op <;> simp only [ownerEntry, Option.some.injEq, reduceCtorEq] at hop
    all_goals subst hop; exact Nat.le_add_right _ _
  | ownerRun hbusy => exact bottom_ownerStep h.core
  | thiefCall i hidle => exact Nat.le_add_right _ _
  | thiefRun i hbusy =>
    have hbottom : bottom (thiefStep s.q (s.thief i)).deque s.owner = bottom s.q s.owner := by
      cases hth : s.thief i <;> simp only [thiefStep]
      all_goals first | rfl | (split <;> cases s.owner <;> rfl)
    exact hbottom.le.trans (Nat.le_add_right _ _)

@[simp] theorem cap_step {s s' : State ι α} {l : Label ι α} (hs : Step s l s') :
    s'.q.cap = s.q.cap := by
  cases hs with
  | ownerCall | thiefCall => rfl
  | ownerRun hbusy => cases hpc : s.owner <;> simp only [ownerStep] <;> first | rfl | (split <;> rfl)
  | thiefRun i hbusy =>
    cases hth : s.thief i <;> simp only [thiefStep] <;> first | rfl | (split <;> rfl)

omit [DecidableEq ι] in
theorem events_snoc (ls : List (Label ι α)) (l : Label ι α) :
    events (ls ++ [l]) = events ls ++ l.event.toList := by
  rw [events, List.filterMap_append, events]
  cases h : l.event <;> simp [h]

omit [DecidableEq ι] in
theorem pushes_snoc (ls : List (Label ι α)) (l : Label ι α) :
    pushes (ls ++ [l]) = pushes ls + (pushed l.event.toList).length := by
  rw [pushes, events_snoc, pushed_append, List.length_append, pushes]

omit [DecidableEq ι] in
theorem bot_le_bottom {s : State ι α} (h : Inv s) : s.q.bot ≤ bottom s.q s.owner :=
  h.core.owner.bot_le_ceiling.trans (ceiling_le_bottom _ _)

/-- The run lemma: fewer than `2 ^ 64` pushes keep the invariant and the history legal. -/
theorem inv_run {capacityPow2 : ℕ} {buf : ℕ → α} {s : State ι α} {ls : List (Label ι α)}
    (h : Run Step (init capacityPow2 buf) ls s) (hfew : pushes ls < 2 ^ 64) :
    Inv s ∧ bottom s.q s.owner ≤ pushes ls ∧ s.q.cap = 2 ^ capacityPow2 ∧
      Legal (2 ^ capacityPow2) (events ls) (content s.q s.owner) := by
  refine Run.invariant_while (I := fun ls s => Inv s ∧ bottom s.q s.owner ≤ pushes ls ∧
      s.q.cap = 2 ^ capacityPow2 ∧ Legal (2 ^ capacityPow2) (events ls) (content s.q s.owner))
    (C := fun ls => pushes ls < 2 ^ 64) ?_ ?_ ?_ h hfew
  · intro ls l hc
    rw [pushes_snoc] at hc
    omega
  · exact ⟨inv_init _ _, le_rfl, rfl, .refl⟩
  · intro ls s l s' ⟨hinv, hbottom, hcap, hlegal⟩ hc hs
    have hroom : ∀ x, l.event = some (.push x) → s.q.bot + 1 < 2 ^ 64 := by
      intro x hx
      have hbot := bot_le_bottom hinv
      rw [pushes_snoc, hx] at hc
      simp only [Option.toList_some, pushed_singleton, pushedBy, List.length_singleton] at hc
      omega
    obtain ⟨hinv', hchange⟩ := inv_step hinv hs hroom
    have hgrow := bottom_step hinv hs
    refine ⟨hinv', ?_, (cap_step hs).trans hcap, ?_⟩
    · rw [pushes_snoc]
      omega
    · rw [events_snoc]
      rw [hcap] at hchange
      cases he : l.event with
      | none =>
        rw [he] at hchange
        simpa [show content s'.q s'.owner = content s.q s.owner from hchange] using hlegal
      | some e =>
        rw [he] at hchange
        exact hlegal.snoc hchange

omit [DecidableEq ι] in
theorem events_append (ls ms : List (Label ι α)) :
    events (ls ++ ms) = events ls ++ events ms := List.filterMap_append

theorem Step.owner_of_eq {q q' : WsDeque α} {pc pc' : OwnerPc α} {th : ι → ThiefPc α}
    {e : Option (Event α)} {r : Option (Reply α)} (hbusy : pc ≠ .idle)
    (h : ownerStep q pc = ⟨q', pc', e, r⟩) :
    Step ⟨q, pc, th⟩ ⟨.owner, none, e, r⟩ ⟨q', pc', th⟩ := by
  have hstep : Step ⟨q, pc, th⟩ _ _ := .ownerRun hbusy
  rwa [h] at hstep

theorem Step.thief_of_eq {q q' : WsDeque α} {pc : OwnerPc α} {th : ι → ThiefPc α} {i : ι}
    {t t' : ThiefPc α} {e : Option (Event α)} {r : Option (Reply α)} (hbusy : t ≠ .idle)
    (h : thiefStep q t = ⟨q', t', e, r⟩) :
    Step ⟨q, pc, Function.update th i t⟩ ⟨.thief i, none, e, r⟩
      ⟨q', pc, Function.update th i t'⟩ := by
  have hpc : Function.update th i t i = t := Function.update_self _ _ _
  have hstep : Step ⟨q, pc, Function.update th i t⟩ _ _ :=
    .thiefRun i (hpc.symm ▸ hbusy : Function.update th i t i ≠ .idle)
  simpa only [hpc, h, Function.update_idem] using hstep

/-- A push that nobody disturbs and that finds room runs to its end. -/
theorem run_push (q : WsDeque α) (th : ι → ThiefPc α) (x : α)
    (hroom : sub64 q.bot q.top < q.cap) :
    ∃ ls, Run Step ⟨q, .idle, th⟩ ls
        ⟨{ q.setSlot q.bot x with bot := inc64 q.bot }, .idle, th⟩ ∧
      events ls = [.push x] := by
  have hcall : Step ⟨q, .idle, th⟩ ⟨.owner, some (.push x), none, none⟩ ⟨q, .push x, th⟩ :=
    .ownerCall rfl rfl
  have htop : ownerStep q (.pushTop x q.bot) = ⟨q, .pushSlot x q.bot, none, none⟩ :=
    if_neg (Nat.not_le.mpr hroom)
  have hrun := ((((Run.single hcall).snoc (.owner_of_eq (by simp) rfl)).snoc
    (.owner_of_eq (by simp) htop)).snoc (.owner_of_eq (by simp) rfl)).snoc
    (.owner_of_eq (by simp) rfl)
  exact ⟨_, hrun, rfl⟩

/-- A steal that nobody disturbs and that finds a task runs to its end. -/
theorem run_steal (q : WsDeque α) (pc : OwnerPc α) (th : ι → ThiefPc α) (i : ι)
    (hidle : th i = .idle) (hsome : q.top < q.bot) :
    ∃ ls, Run Step ⟨q, pc, th⟩ ls ⟨{ q with top := inc64 q.top }, pc, th⟩ ∧
      events ls = [.steal (q.slot q.top)] := by
  have hcall : Step ⟨q, pc, th⟩ _ ⟨q, pc, Function.update th i .steal⟩ := .thiefCall i hidle
  have hbot : thiefStep q (.stealBot q.top) = ⟨q, .stealSlot q.top, none, none⟩ :=
    if_neg (Nat.not_le.mpr hsome)
  have hcas : thiefStep q (.stealCas (q.slot q.top) q.top) =
      ⟨{ q with top := inc64 q.top }, .idle, some (.steal (q.slot q.top)),
        some (.got (q.slot q.top))⟩ := if_pos rfl
  have hrun := ((((Run.single hcall).snoc (.thief_of_eq (by simp) rfl)).snoc
    (.thief_of_eq (by simp) hbot)).snoc (.thief_of_eq (by simp) rfl)).snoc
    (.thief_of_eq (by simp) hcas)
  have hback : Function.update th i .idle = th := by rw [← hidle, Function.update_eq_self]
  rw [hback] at hrun
  exact ⟨_, hrun, rfl⟩

/-- The deque of one cell after `n` tasks went through it. -/
def passed (n : ℕ) : State Unit ℕ := ⟨⟨n, n, fun _ => 0, 0⟩, .idle, fun _ => .idle⟩

theorem run_passed (n : ℕ) (hn : n < 2 ^ 64) :
    ∃ ls, Run Step (init 0 fun _ => 0) ls (passed n) ∧
      (pushed (events ls)).length = n ∧ (taken (events ls)).length = n := by
  induction n with
  | zero => exact ⟨[], .refl, rfl, rfl⟩
  | succ n ih =>
    obtain ⟨ls, hrun, hpushed, htaken⟩ := ih (by omega)
    have hinc : inc64 n = n + 1 := Nat.mod_eq_of_lt hn
    have hroom : sub64 n n < 1 := by simp only [sub64]; omega
    obtain ⟨ms, hpush, hms⟩ := run_push ⟨n, n, fun _ => 0, 0⟩ (fun _ : Unit => .idle) 0 hroom
    obtain ⟨ns, hsteal, hns⟩ := run_steal ⟨n, n + 1, fun _ => 0, 0⟩ .idle
      (fun _ : Unit => .idle) () rfl n.lt_succ_self
    have hsame : Function.update (fun _ => 0 : ℕ → ℕ) (n &&& 0) 0 = fun _ => 0 :=
      Function.update_eq_self _ _
    have hpush' : Run Step (passed n) ms ⟨⟨n, n + 1, fun _ => 0, 0⟩, .idle, fun _ => .idle⟩ := by
      simpa [passed, WsDeque.setSlot, WsDeque.mask, WsDeque.cap, hinc, hsame] using hpush
    have hsteal' : Run Step (⟨⟨n, n + 1, fun _ => 0, 0⟩, .idle, fun _ => .idle⟩) ns
        (passed (n + 1)) := by
      simpa [passed, hinc] using hsteal
    refine ⟨ls ++ ms ++ ns, (hrun.trans hpush').trans hsteal', ?_, ?_⟩
    · simp only [events_append, hms, hns, pushed_append, pushed_singleton, pushedBy,
        List.length_append, hpushed]
      rfl
    · simp only [events_append, hms, hns, taken_append, taken_singleton, takenBy,
        List.length_append, htaken]
      rfl

end Thvm.WorkStealingDeque
