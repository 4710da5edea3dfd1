import Thvm.WorkerPool
import Thvm.WorkStealingClient

/-!
# The worker pool refines termination detection by an active count

A worker's position decides whether its bag may hold tasks and whether it is
counted. Under that reading every step of the pool is one move of the abstract
round, and the tasks in a bag are the contents of its deque.
-/

namespace Thvm.WorkerPool
open WorkStealingDeque TerminationDetection FixedWidth
open TransitionRuns (Run)

variable {n : ℕ}

def Loop.status : Loop → Status
  | .workerLoop _ => .feeding
  | .drainLocal _ => .out

/-- What a position means for the count; a parked worker that has been signalled
belongs to the drain already. -/
def statusAt (signal : Bool) : WorkerPc n → Status
  | .parked => if signal then .feeding else .done
  | .outside | .seeding _ _ | .starting | .drainCheck _ => .out
  | .popping l | .firing l _ | .pushing l _ _ => l.status
  | .hunt _ _ | .stealing _ _ _ | .goIdle _ => .hunting
  | .scan _ _ | .scanBot _ _ _ | .checkAlive _ | .reawake _ => .idle
  | .left => .left
  | .waiting => .done

/-- The task a worker is firing. -/
def holding : WorkerPc n → Multiset Task
  | .firing _ r | .pushing _ r _ => {r}
  | _ => 0

def Pool.signal (s : Pool n) (w : Fin n) : Bool := s.drainGen ≠ s.workerSeenGen w

def bagContent (b : WorkStealingDeque.State (Fin n) Task) : Multiset Task := content b.q b.owner

/-- The abstract round that a pool is in. -/
def Pool.net (s : Pool n) : Net (Fin n) Task where
  status := fun w => statusAt (s.signal w) (s.pc w)
  load := fun w => bagContent (s.bag w)
  hand := fun w => inFlight (s.bag w).owner + holding (s.pc w)
  alive := s.alive
  pending := s.pending

/-- Positions of the calling thread only. -/
def WorkerPc.driverOnly : WorkerPc n → Bool
  | .outside | .seeding _ _ | .starting | .drainCheck _ | .waiting => true
  | .popping (.drainLocal _) | .firing (.drainLocal _) _ | .pushing (.drainLocal _) _ _ => true
  | _ => false

/-- The fires that a drain on a single worker has counted so far. -/
def WorkerPc.counted : WorkerPc n → Option ℕ
  | .drainCheck fired | .popping (.drainLocal fired) => some fired
  | .firing (.drainLocal fired) _ | .pushing (.drainLocal fired) _ _ => some fired
  | _ => none

/-! The abstract round after a step that moves one worker. -/

section Net
variable {s : Pool n} {w v : Fin n} {pc : WorkerPc n}
  {b' : WorkStealingDeque.State (Fin n) Task}

theorem net_access (hflight : v ≠ w → inFlight b'.owner = inFlight (s.bag v).owner) :
    ({ s.goto w pc with bag := Function.update s.bag v b' } : Pool n).net =
      { s.net with
        status := Function.update s.net.status w (statusAt (s.signal w) pc)
        load := Function.update s.net.load v (bagContent b')
        hand := Function.update s.net.hand w
          (inFlight (Function.update s.bag v b' w).owner + holding pc) } := by
  simp only [Pool.net, Pool.goto, Net.mk.injEq, and_true]
  refine ⟨?_, ?_, ?_⟩ <;> funext u
  · by_cases hu : u = w
    · subst hu
      simp [Pool.signal]
    · simp [Pool.signal, hu]
  · by_cases hu : u = v
    · subst hu
      simp
    · simp [hu]
  · by_cases hu : u = w
    · subst hu
      simp
    · by_cases huv : u = v
      · subst huv
        simp [hu, hflight hu]
      · simp [hu, huv]

theorem net_goto :
    (s.goto w pc).net = { s.net with
      status := Function.update s.net.status w (statusAt (s.signal w) pc)
      hand := Function.update s.net.hand w (inFlight (s.bag w).owner + holding pc) } := by
  have hself := @net_access n s w w pc (s.bag w) (fun hne => absurd rfl hne)
  simpa [Function.update_eq_self, Pool.net, Pool.goto] using hself

theorem net_goto_of_holding (hhold : holding pc = holding (s.pc w)) :
    (s.goto w pc).net = { s.net with
      status := Function.update s.net.status w (statusAt (s.signal w) pc) } := by
  rw [net_goto, hhold]
  exact congrArg (Net.mk _ _ · _ _) (Function.update_eq_self w s.net.hand)

theorem net_goto_same (hhold : holding pc = holding (s.pc w))
    (hstatus : statusAt (s.signal w) pc = statusAt (s.signal w) (s.pc w)) :
    (s.goto w pc).net = s.net := by
  rw [net_goto_of_holding hhold, hstatus]
  exact congrArg (Net.mk · _ _ _ _) (Function.update_eq_self w s.net.status)

theorem net_status (hpc : s.pc w = pc) : s.net.status w = statusAt (s.signal w) pc := hpc ▸ rfl

end Net


variable [NeZero n]

/-- The invariant of the pool apart from the counters. -/
structure Sound (es : List (Event (Fin n) Task)) (s : Pool n) : Prop where
  bag : ∀ v, WorkStealingDeque.Inv (s.bag v) ∧
    bottom (s.bag v).q (s.bag v).owner ≤ pushesOn v es
  serves : ∀ v, ownerOp (s.bag v).owner = none ∨
    ∃ w op, access w (s.pc w) = some (v, .owner, op) ∧ ownerOp (s.bag v).owner = some op
  driver : ∀ w, (s.pc w).driverOnly → w = 0
  awake : s.pc 0 ≠ .parked
  starting : s.pc 0 = .starting → s.alive = n
  seen : ∀ w, w ≠ 0 → s.pc w ≠ .parked → s.workerSeenGen w = s.drainGen
  counted : ∀ w f, (s.pc w).counted = some f → n = 1 ∧ f ≤ Multiset.card (fired es)

variable {es : List (Event (Fin n) Task)} {s : Pool n}

omit [NeZero n] in
theorem access_owner {w v : Fin n} {pc : WorkerPc n} {op : Op Task}
    (h : access w pc = some (v, .owner, op)) :
    v = w ∧ (∃ l, pc = .popping l ∧ op = .pop ∨ ∃ r t, pc = .pushing l r t ∧ op = .push t) ∨
      ∃ t, pc = .seeding v t ∧ op = .push t := by
  cases pc <;> simp only [access, Option.some.injEq, Prod.mk.injEq, reduceCtorEq, false_and,
    and_false] at h
  all_goals obtain ⟨rfl, -, rfl⟩ := h
  · exact .inr ⟨_, rfl, rfl⟩
  · exact .inl ⟨rfl, _, .inl ⟨rfl, rfl⟩⟩
  · exact .inl ⟨rfl, _, .inr ⟨_, _, rfl, rfl⟩⟩

/-- The owner's operations on a bag are run by the worker it belongs to, or by the
driver between two drains. -/
theorem Sound.accessor (h : Sound es s) {w v : Fin n} {op : Op Task}
    (hw : access w (s.pc w) = some (v, .owner, op)) :
    s.net.status w ≠ .done ∧ (w = v ∨ w = 0 ∧ s.net.status 0 = .out) := by
  have hloop : ∀ l : Loop, l.status ≠ .done := by
    intro l
    cases l <;> simp [Loop.status]
  obtain ⟨rfl, l, ⟨hpc, -⟩ | ⟨r, t, hpc, -⟩⟩ | ⟨t, hpc, -⟩ := access_owner hw
  · exact ⟨net_status hpc ▸ hloop l, .inl rfl⟩
  · exact ⟨net_status hpc ▸ hloop l, .inl rfl⟩
  · have hzero : w = 0 := h.driver w (hpc ▸ rfl)
    subst hzero
    have hout := net_status hpc
    exact ⟨by simp [hout, statusAt], .inr ⟨rfl, hout⟩⟩

/-- At most one worker is inside the owner's operations of a bag. -/
theorem Sound.owner_unique (h : Sound es s) (hinv : TerminationDetection.Inv 0 es s.net)
    {w w' v : Fin n} {op op' : Op Task} (hw : access w (s.pc w) = some (v, .owner, op))
    (hw' : access w' (s.pc w') = some (v, .owner, op')) : w = w' := by
  obtain ⟨hdone, rfl | ⟨rfl, hout⟩⟩ := h.accessor hw <;>
    obtain ⟨hdone', rfl | ⟨rfl, hout'⟩⟩ := h.accessor hw'
  · rfl
  · by_contra hne
    exact hdone (hinv.rest hout' w hne)
  · by_contra hne
    exact hdone' (hinv.rest hout w' (Ne.symm hne))
  · rfl

/-- Inside an operation on a bag, the deque agrees about the operation. -/
theorem Sound.in_op (h : Sound es s) (hinv : TerminationDetection.Inv 0 es s.net)
    {w v : Fin n} {op : Op Task} (hw : access w (s.pc w) = some (v, .owner, op)) :
    ownerOp (s.bag v).owner = none ∨ ownerOp (s.bag v).owner = some op := by
  refine (h.serves v).imp_right ?_
  rintro ⟨w', op', hw', hop⟩
  obtain rfl := h.owner_unique hinv hw hw'
  rw [hw] at hw'
  simp only [Option.some.injEq, Prod.mk.injEq, true_and] at hw'
  exact hw' ▸ hop

omit [NeZero n] in
theorem pushesOn_snoc (v : Fin n) (es : List (Event (Fin n) Task)) (e : Event (Fin n) Task) :
    pushesOn v (es ++ [e]) = pushesOn v es + pushesOn v [e] := List.countP_append

/-- The step of an owner that the pool sees. -/
theorem Sound.owner_shows (h : Sound es s) (hinv : TerminationDetection.Inv 0 es s.net)
    {w v : Fin n} {op : Op Task} {l : WorkStealingDeque.Label (Fin n) Task}
    {b' : WorkStealingDeque.State (Fin n) Task} (hactor : l.actor = .owner)
    (hw : access w (s.pc w) = some (v, .owner, op)) (hcall : l.call = none ∨ l.call = some op)
    (hstep : WorkStealingDeque.Step (s.bag v) l b')
    (hroom : ∀ x, l.event = some (.push x) → (s.bag v).q.bot + 1 < 2 ^ 64) :
    OwnerShows op (content (s.bag v).q (s.bag v).owner) (inFlight (s.bag v).owner) l.event l.reply
        (content b'.q b'.owner) (inFlight b'.owner) ∧
      ownerOp b'.owner = stillIn op l.reply :=
  ownerShows (h.bag v).1 hstep hactor hcall (h.in_op hinv hw) hroom

theorem coe_snoc (c : List Task) (x : Task) :
    ((c ++ [x] : List Task) : Multiset Task) = {x} + (c : Multiset Task) := by
  rw [← Multiset.coe_add, add_comm]
  rfl

section Access
variable {w v : Fin n} {l : WorkStealingDeque.Label (Fin n) Task}
  {b' : WorkStealingDeque.State (Fin n) Task} {c c' : List Task} {f f' : Multiset Task}

theorem move_popping {p : Loop} (hpc : s.pc w = .popping p)
    (hdriver : ∀ k, p = .drainLocal k → w = 0 ∧ n = 1)
    (hc : content (s.bag w).q (s.bag w).owner = c) (hf : inFlight (s.bag w).owner = f)
    (hc' : content b'.q b'.owner = c') (hf' : inFlight b'.owner = f')
    (h : OwnerShows .pop c f l.event l.reply c' f') :
    Move 0 s.net (shown w (.popping p) l)
      ({ s.goto w (proceed (.popping p) l.reply) with
        bag := Function.update s.bag w b' } : Pool n).net := by
  have hstatus : s.net.status w = p.status := net_status hpc
  have hload : s.net.load w = c := congrArg _ hc
  have hhand : s.net.hand w = f := by
    simp only [Pool.net, hpc, hf, holding, add_zero]
  have hout : p.status = .feeding ∨ s.net.status 0 = .out := by
    cases p with
    | workerLoop k => exact .inl rfl
    | drainLocal k =>
      obtain ⟨rfl, -⟩ := hdriver k rfl
      exact .inr hstatus
  rw [net_access (fun hne => absurd rfl hne), Function.update_self, hf', bagContent, hc']
  obtain ⟨actor, call, ev, rep⟩ := l
  simp only at h ⊢
  cases h with
  | quiet =>
    have hsame : statusAt (s.signal w) (.popping p : WorkerPc n) = s.net.status w := hstatus.symm
    simp only [proceed, holding, add_zero, hsame, ← hload, ← hhand, Function.update_eq_self]
    exact .silent _
  | pop _ x =>
    have hsame : statusAt (s.signal w) (.firing p x : WorkerPc n) = s.net.status w := hstatus.symm
    have hmove : Move 0 s.net .silent _ :=
      .take s.net w x (hstatus ▸ hout) (hload.trans (coe_snoc c' x))
    rw [hhand, add_comm] at hmove
    simpa only [shown, proceed, resume, holding, hsame, Function.update_eq_self] using hmove
  | won _ x =>
    have hsame : statusAt (s.signal w) (.popping p : WorkerPc n) = s.net.status w := hstatus.symm
    have hmove : Move 0 s.net .silent _ :=
      .take s.net w x (hstatus ▸ hout) (hload.trans (coe_snoc c' x))
    rw [hhand] at hmove
    simpa only [shown, proceed, holding, hsame, Function.update_eq_self] using hmove
  | handOver _ x =>
    have hsame : statusAt (s.signal w) (.firing p x : WorkerPc n) = s.net.status w := hstatus.symm
    simp only [proceed, resume, holding, zero_add, hsame, ← hload, ← hhand,
      Function.update_eq_self]
    exact .silent _
  | empty =>
    cases p with
    | workerLoop k =>
      have hmove : Move 0 s.net .silent _ := .starve s.net w hstatus hload hhand
      have hload' : (([] : List Task) : Multiset Task) = s.net.load w := hload.symm
      have hhand' : 0 + holding (.hunt k 1 : WorkerPc n) = s.net.hand w := hhand.symm
      simpa only [shown, emptyHanded, proceed, resume, hload', hhand', Function.update_eq_self,
        statusAt] using hmove
    | drainLocal k =>
      obtain ⟨rfl, hone⟩ := hdriver k rfl
      have hquiet : s.net.Quiet := by
        intro u
        obtain rfl : u = 0 := by
          subst hone
          exact Subsingleton.elim _ _
        exact ⟨hload, hhand⟩
      have hload' : (([] : List Task) : Multiset Task) = s.net.load 0 := hload.symm
      have hsame : statusAt (s.signal 0) (.outside : WorkerPc n) = s.net.status 0 := hstatus.symm
      have hhand' : 0 + holding (.outside : WorkerPc n) = s.net.hand 0 := hhand.symm
      simp only [proceed, resume, hload', hhand', Function.update_eq_self, hsame]
      exact .finishAlone _ hstatus hquiet

theorem move_pushing {p : Loop} {r t : Task} (hpc : s.pc w = .pushing p r t)
    (hdriver : ∀ k, p = .drainLocal k → w = 0)
    (hc : content (s.bag w).q (s.bag w).owner = c) (hf : inFlight (s.bag w).owner = f)
    (hc' : content b'.q b'.owner = c') (hf' : inFlight b'.owner = f')
    (h : OwnerShows (.push t) c f l.event l.reply c' f') :
    Move 0 s.net (shown w (.pushing p r t) l)
      ({ s.goto w (proceed (.pushing p r t) l.reply) with
        bag := Function.update s.bag w b' } : Pool n).net := by
  have hstatus : s.net.status w = p.status := net_status hpc
  have hload : s.net.load w = c := congrArg _ hc
  have hhand : s.net.hand w = f + {r} := by
    simp only [Pool.net, hpc, hf, holding]
  rw [net_access (fun hne => absurd rfl hne), Function.update_self, hf', bagContent, hc']
  obtain ⟨actor, call, ev, rep⟩ := l
  simp only at h ⊢
  cases h with
  | quiet | full =>
    have hsame : statusAt (s.signal w) (.pushing p r t : WorkerPc n) = s.net.status w :=
      hstatus.symm
    simp only [proceed, resume, holding, hsame, ← hload, ← hhand, Function.update_eq_self]
    exact .silent _
  | push =>
    have hsame : statusAt (s.signal w) (.firing p r : WorkerPc n) = s.net.status w := hstatus.symm
    have hout : s.net.status w = .feeding ∧ s.net.hand w ≠ 0 ∨ s.net.status 0 = .out := by
      cases p with
      | workerLoop k => exact .inl ⟨hstatus, by simp [hhand]⟩
      | drainLocal k =>
        obtain rfl := hdriver k rfl
        exact .inr hstatus
    have hmove : Move 0 s.net (.push w t) _ := .push s.net w t hout
    rw [hload, ← coe_snoc] at hmove
    simpa only [shown, proceed, resume, holding, hsame, ← hhand, Function.update_eq_self]
      using hmove

theorem move_seeding {t : Task} (hpc : s.pc w = .seeding v t) (hdriver : w = 0)
    (hc : content (s.bag v).q (s.bag v).owner = c) (hf : inFlight (s.bag v).owner = f)
    (hc' : content b'.q b'.owner = c') (hf' : inFlight b'.owner = f')
    (h : OwnerShows (.push t) c f l.event l.reply c' f') :
    Move 0 s.net (shown v (.seeding v t) l)
      ({ s.goto w (proceed (.seeding v t) l.reply) with
        bag := Function.update s.bag v b' } : Pool n).net := by
  have hstatus : s.net.status w = .out := net_status hpc
  have hload : s.net.load v = c := congrArg _ hc
  obtain ⟨actor, call, ev, rep⟩ := l
  have hflight : inFlight b'.owner = inFlight (s.bag v).owner := by
    rw [hf, hf']
    simp only at h
    cases h <;> rfl
  have hhand : ∀ pc : WorkerPc n, holding pc = 0 →
      inFlight (Function.update s.bag v b' w).owner + holding pc = s.net.hand w := by
    intro pc hpc'
    have hold : s.net.hand w = inFlight (s.bag w).owner + 0 := by
      simp only [Pool.net, hpc, holding]
    rw [hpc', hold]
    by_cases hvw : w = v
    · subst hvw
      rw [Function.update_self, hflight]
    · rw [Function.update_of_ne hvw]
  have hsame : ∀ pc : WorkerPc n, statusAt (s.signal w) pc = .out →
      statusAt (s.signal w) pc = s.net.status w := fun pc h => h.trans hstatus.symm
  rw [net_access (fun _ => hflight), bagContent, hc']
  simp only at h ⊢
  cases h with
  | quiet | full =>
    simp only [proceed, resume]
    rw [hhand _ rfl, hsame _ rfl, ← hload]
    simp only [Function.update_eq_self]
    exact .silent _
  | push =>
    have hmove : Move 0 s.net (.push v t) _ := .push s.net v t (.inr (hdriver ▸ hstatus))
    simp only [proceed, resume]
    rw [hload, ← coe_snoc] at hmove
    rw [hhand _ rfl, hsame _ rfl]
    simpa only [shown, Function.update_eq_self] using hmove

theorem move_stealing {start k : ℕ} (hpc : s.pc w = .stealing start k v)
    (hc : content (s.bag v).q (s.bag v).owner = c) (hc' : content b'.q b'.owner = c')
    (hown : b'.owner = (s.bag v).owner) (h : ThiefShows c l.event l.reply c') :
    Move 0 s.net (shown v (.stealing start k v) l)
      ({ s.goto w (proceed (.stealing start k v) l.reply) with
        bag := Function.update s.bag v b' } : Pool n).net := by
  have hstatus : s.net.status w = .hunting := net_status hpc
  have hload : s.net.load v = c := congrArg _ hc
  have hflight : inFlight (Function.update s.bag v b' w).owner = s.net.hand w := by
    simp only [Pool.net, hpc, holding, add_zero]
    by_cases hvw : w = v
    · subst hvw
      rw [Function.update_self, hown]
    · rw [Function.update_of_ne hvw]
  rw [net_access (fun _ => hown ▸ rfl), bagContent, hc', hflight]
  obtain ⟨actor, call, ev, rep⟩ := l
  simp only at h ⊢
  cases h with
  | quiet | lost =>
    have hsame : (Status.hunting) = s.net.status w := hstatus.symm
    simp only [proceed, resume, holding, statusAt, add_zero, hsame, ← hload,
      Function.update_eq_self]
    exact .silent _
  | steal x =>
    have hmove : Move 0 s.net .silent _ := .steal s.net w v x hstatus
      (hload.trans (Multiset.singleton_add x (c' : Multiset Task)).symm)
    rw [add_comm] at hmove
    simpa only [shown, proceed, resume, holding, statusAt, Loop.status] using hmove

end Access

omit [NeZero n] in
theorem access_thief {w v i : Fin n} {pc : WorkerPc n} {op : Op Task}
    (h : access w pc = some (v, .thief i, op)) : i = w ∧ ∃ start k, pc = .stealing start k v := by
  cases pc <;> simp only [access, Option.some.injEq, Prod.mk.injEq, reduceCtorEq, false_and,
    and_false, Actor.thief.injEq] at h
  obtain ⟨rfl, rfl, -⟩ := h
  exact ⟨rfl, _, _, rfl⟩

/-- Fewer than `2 ^ 64` pushes leave room for one more index. -/
theorem Sound.room (h : Sound es s) {v : Fin n} {pc : WorkerPc n}
    {l : WorkStealingDeque.Label (Fin n) Task}
    (hfew : pushesOn v (es ++ [shown v pc l]) < 2 ^ 64) (x : Task)
    (hx : l.event = some (.push x)) : (s.bag v).q.bot + 1 < 2 ^ 64 := by
  obtain ⟨hinv, hbottom⟩ := h.bag v
  have hbot := bot_le_bottom hinv
  have hone : pushesOn v [shown v pc l] = 1 := by simp [pushesOn, shown, hx]
  rw [pushesOn_snoc, hone] at hfew
  omega

theorem move_access (h : Sound es s) (hinv : TerminationDetection.Inv 0 es s.net)
    {w v : Fin n} {op : Op Task} {l : WorkStealingDeque.Label (Fin n) Task}
    {b' : WorkStealingDeque.State (Fin n) Task} (hw : access w (s.pc w) = some (v, l.actor, op))
    (hcall : l.call = none ∨ l.call = some op) (hstep : WorkStealingDeque.Step (s.bag v) l b')
    (hfew : pushesOn v (es ++ [shown v (s.pc w) l]) < 2 ^ 64) :
    Move 0 s.net (shown v (s.pc w) l)
      ({ s.goto w (proceed (s.pc w) l.reply) with
        bag := Function.update s.bag v b' } : Pool n).net := by
  cases hactor : l.actor with
  | owner =>
    rw [hactor] at hw
    have hshows := (h.owner_shows hinv hactor hw hcall hstep (h.room hfew)).1
    obtain ⟨rfl, p, ⟨hpc, rfl⟩ | ⟨r, t, hpc, rfl⟩⟩ | ⟨t, hpc, rfl⟩ := access_owner hw
    · rw [hpc]
      refine move_popping hpc (fun k hk => ?_) rfl rfl rfl rfl hshows
      subst hk
      exact ⟨h.driver v (hpc ▸ rfl), (h.counted v k (hpc ▸ rfl)).1⟩
    · rw [hpc]
      refine move_pushing hpc (fun k hk => ?_) rfl rfl rfl rfl hshows
      subst hk
      exact h.driver v (hpc ▸ rfl)
    · rw [hpc]
      exact move_seeding hpc (h.driver w (hpc ▸ rfl)) rfl rfl rfl rfl hshows
  | thief i =>
    rw [hactor] at hw
    obtain ⟨hshows, hown⟩ := thiefShows (h.bag v).1 hstep hactor
    obtain ⟨-, start, k, hpc⟩ := access_thief hw
    rw [hpc]
    exact move_stealing hpc rfl rfl hown hshows

/-- On a single worker every pushed task went onto its bag. -/
theorem card_pushed (hone : n = 1) (v : Fin n) (es : List (Event (Fin n) Task)) :
    Multiset.card (pushed es) = pushesOn v es := by
  subst hone
  induction es using List.reverseRecOn with
  | nil => rfl
  | append_singleton es e ih =>
    rw [pushed_snoc, pushesOn_snoc, Multiset.card_add, ih]
    cases e with
    | push u x => simp [pushedBy, pushesOn, Subsingleton.elim u v]
    | silent | fire | ret => simp [pushedBy, pushesOn]

/-- The fire limit is reached only when every task has been fired. -/
theorem quiet_of_limit (hinv : TerminationDetection.Inv 0 es s.net) (hone : n = 1)
    (hlimit : maxFires ≤ Multiset.card (fired es)) (hfew : ∀ v, pushesOn v es < 2 ^ 64) :
    s.net.Quiet := by
  have hcard := congrArg Multiset.card hinv.balance
  rw [card_pushed hone 0, Multiset.card_add, Multiset.card_add] at hcard
  have hfew' := hfew 0
  have hsum : Multiset.card (∑ w, s.net.load w) = 0 ∧ Multiset.card (∑ w, s.net.hand w) = 0 := by
    unfold maxFires at hlimit
    omega
  rw [Multiset.card_eq_zero, Multiset.card_eq_zero] at hsum
  intro w
  exact ⟨Finset.sum_eq_zero_iff.mp hsum.1 w (Finset.mem_univ w),
    Finset.sum_eq_zero_iff.mp hsum.2 w (Finset.mem_univ w)⟩

/-- The count of a running drain is far from the range of its counters. -/
theorem alive_le (hinv : TerminationDetection.Inv 0 es s.net) (hn : n ≤ maxThreads)
    (hrun : s.net.status 0 ≠ .out) : s.alive ≤ 64 ∧ s.pending ≤ 64 := by
  have halive : s.alive ≤ Fintype.card (Fin n) :=
    (hinv.alive hrun).trans_le (count_le_card _ _)
  have hpending : s.pending ≤ Fintype.card (Fin n) :=
    (hinv.pending hrun).trans_le (count_le_card _ _)
  rw [Fintype.card_fin] at halive hpending
  exact ⟨halive.trans hn, hpending.trans hn⟩

/-- Between two drains the persistent threads wait for the next generation. -/
theorem Sound.parked_of_out (h : Sound es s) (hinv : TerminationDetection.Inv 0 es s.net)
    (hout : s.net.status 0 = .out) {u : Fin n} (hu : u ≠ 0) :
    s.pc u = .parked ∧ s.drainGen = s.workerSeenGen u := by
  have hdone : statusAt (s.signal u) (s.pc u) = .done := hinv.rest hout u hu
  have hdriver := h.driver u
  cases hpc : s.pc u <;> rw [hpc] at hdone hdriver <;> simp only [statusAt, reduceCtorEq] at hdone
  case parked =>
    refine ⟨rfl, ?_⟩
    by_contra hne
    simp [Pool.signal, hne] at hdone
  case waiting => exact absurd (hdriver rfl) hu
  case popping p => cases p <;> simp [Loop.status] at hdone
  case firing p r => cases p <;> simp [Loop.status] at hdone
  case pushing p r t => cases p <;> simp [Loop.status] at hdone

theorem move_broadcast (h : Sound es s) (hinv : TerminationDetection.Inv 0 es s.net)
    (hpc : s.pc 0 = .starting) :
    Move 0 s.net .silent ({ s.goto 0 (.popping (.workerLoop (1 % n))) with
      pending := n, drainGen := inc64 s.drainGen } : Pool n).net := by
  have hout : s.net.status 0 = .out := net_status hpc
  have hall : s.net.alive = Fintype.card (Fin n) := (h.starting hpc).trans (Fintype.card_fin n).symm
  have hmove : Move 0 s.net .silent _ := .start s.net hout hall
  convert hmove using 1
  simp only [Pool.net, Pool.goto, Fintype.card_fin, Net.mk.injEq, and_true, true_and]
  refine ⟨?_, ?_⟩ <;> funext u <;> by_cases hu : u = 0
  · subst hu
    simp [statusAt, Loop.status]
  · obtain ⟨hparked, hgen⟩ := h.parked_of_out hinv hout hu
    have hne : inc64 s.drainGen ≠ s.workerSeenGen u := hgen ▸ inc64_ne _
    simp [hu, hparked, statusAt, Pool.signal, hne]
  · subst hu
    simp [hpc, holding]
  · simp [hu]

omit [NeZero n] in
theorem move_wake {w : Fin n} {p : Loop} (hpc : s.pc w = .parked)
    (hsignal : s.drainGen ≠ s.workerSeenGen w) (hp : p.status = .feeding) :
    ({ s.goto w (.popping p) with
      workerSeenGen := Function.update s.workerSeenGen w s.drainGen } : Pool n).net = s.net := by
  simp only [Pool.net, Pool.goto, Net.mk.injEq, and_true, true_and]
  refine ⟨?_, ?_⟩ <;> funext u <;> by_cases hu : u = w
  · subst hu
    simp [statusAt, hp, hpc, Pool.signal, hsignal]
  · simp [hu, Pool.signal]
  · subst hu
    simp [hpc, holding]
  · simp [hu]

theorem move_retire (h : Sound es s) (hinv : TerminationDetection.Inv 0 es s.net)
    (hn : n ≤ maxThreads) {w : Fin n} (hpc : s.pc w = .left) :
    Move 0 s.net .silent ({ s.goto w (if w = 0 then .waiting else .parked) with
      pending := dec32 s.pending } : Pool n).net := by
  have hleft : s.net.status w = .left := net_status hpc
  have hrun := hinv.running (w := w) (by simp [hleft]) (by simp [hleft])
  have hpos : 0 < s.pending :=
    (count_pos (by rw [hleft]; rfl)).trans_eq (hinv.pending hrun).symm
  have hle := (alive_le hinv hn hrun).2
  have hdec : dec32 s.pending = s.pending - 1 := dec32_of_pos hpos (by omega)
  have hstatus : statusAt (s.signal w) (if w = 0 then .waiting else .parked : WorkerPc n) =
      .done := by
    by_cases hw : w = 0
    · simp [hw, statusAt]
    · have hseen := h.seen w hw (by simp [hpc])
      simp [hw, statusAt, Pool.signal, hseen]
  have hhold : holding (if w = 0 then .waiting else .parked : WorkerPc n) = holding (s.pc w) := by
    rw [hpc]
    split <;> rfl
  have hgoto := net_goto_of_holding hhold
  rw [hstatus] at hgoto
  have hnet : ({ s.goto w (if w = 0 then .waiting else .parked) with
      pending := s.pending - 1 } : Pool n).net = { s.net with
        status := Function.update s.net.status w .done, pending := s.pending - 1 } :=
    congrArg (fun m : Net (Fin n) Task => { m with pending := s.pending - 1 }) hgoto
  rw [hdec, hnet]
  exact .retire s.net w hleft

theorem move_goIdle (hinv : TerminationDetection.Inv 0 es s.net) (hn : n ≤ maxThreads)
    {w : Fin n} {cursor : ℕ} (hpc : s.pc w = .goIdle cursor) :
    Move 0 s.net .silent ({ s.goto w (if s.alive % 2 ^ 32 = 1 then .left else .scan cursor 0) with
      alive := sub64 s.alive 1 } : Pool n).net := by
  have hhunt : s.net.status w = .hunting := net_status hpc
  have hrun := hinv.running (w := w) (by simp [hhunt]) (by simp [hhunt])
  have hpos : 0 < s.alive :=
    (count_pos (by rw [hhunt]; rfl)).trans_eq (hinv.alive hrun).symm
  have hle := (alive_le hinv hn hrun).1
  have hmod : s.alive % 2 ^ 32 = s.alive := Nat.mod_eq_of_lt (by omega)
  have hsub : sub64 s.alive 1 = s.alive - 1 := sub64_of_le hpos (by omega)
  have hhold : holding (if s.alive = 1 then .left else .scan cursor 0 : WorkerPc n) =
      holding (s.pc w) := by
    rw [hpc]
    split <;> rfl
  have hstatus : statusAt (s.signal w) (if s.alive = 1 then .left else .scan cursor 0 : WorkerPc n) =
      if s.alive = 1 then .left else .idle := by
    split <;> rfl
  have hgoto := net_goto_of_holding hhold
  rw [hstatus] at hgoto
  have hnet : ({ s.goto w (if s.alive = 1 then .left else .scan cursor 0) with
      alive := s.alive - 1 } : Pool n).net = { s.net with
        status := Function.update s.net.status w (if s.alive = 1 then .left else .idle)
        alive := s.alive - 1 } :=
    congrArg (fun m : Net (Fin n) Task => { m with alive := s.alive - 1 }) hgoto
  rw [hmod, hsub, hnet]
  exact .quit s.net w hhunt

theorem move_reawake (hinv : TerminationDetection.Inv 0 es s.net) (hn : n ≤ maxThreads)
    {w : Fin n} {cursor : ℕ} (hpc : s.pc w = .reawake cursor) :
    Move 0 s.net .silent ({ s.goto w (.popping (.workerLoop cursor)) with
      alive := inc64 s.alive } : Pool n).net := by
  have hidle : s.net.status w = .idle := net_status hpc
  have hrun := hinv.running (w := w) (by simp [hidle]) (by simp [hidle])
  have hle := (alive_le hinv hn hrun).1
  have hinc : inc64 s.alive = s.alive + 1 := inc64_of_lt (by omega)
  have hhold : holding (.popping (.workerLoop cursor) : WorkerPc n) = holding (s.pc w) := by
    rw [hpc]
    rfl
  have hnet : ({ s.goto w (.popping (.workerLoop cursor)) with
      alive := s.alive + 1 } : Pool n).net = { s.net with
        status := Function.update s.net.status w .feeding, alive := s.alive + 1 } :=
    congrArg (fun m : Net (Fin n) Task => { m with alive := s.alive + 1 })
      (net_goto_of_holding hhold)
  rw [hinc, hnet]
  exact .rejoin s.net w hidle

theorem move_fired {w : Fin n} {l : Loop} {r : Task} (hpc : s.pc w = .firing l r) :
    Move 0 s.net (.fire w r) (s.goto w (afterFire l)).net := by
  have hstatus : statusAt (s.signal w) (afterFire l : WorkerPc n) = s.net.status w := by
    rw [net_status hpc]
    cases l <;> rfl
  have hhold : holding (afterFire l : WorkerPc n) = 0 := by cases l <;> rfl
  have hhand : s.net.hand w = {r} + inFlight (s.bag w).owner := by
    simp only [Pool.net, hpc, holding, add_comm]
  rw [net_goto, hstatus, hhold, add_zero, Function.update_eq_self]
  exact .fire s.net w r hhand

theorem move_step {s' : Pool n} {e : Event (Fin n) Task} (h : Sound es s)
    (hinv : TerminationDetection.Inv 0 es s.net) (hn : n ≤ maxThreads) (hs : Step s e s')
    (hfew : ∀ v, pushesOn v (es ++ [e]) < 2 ^ 64) : Move 0 s.net e s'.net := by
  cases hs with
  | access at_op call step => exact move_access h hinv at_op call step (hfew _)
  | seed at_pc | drainAlone at_pc =>
    rw [net_goto_same (by rw [at_pc]; rfl) (by rw [at_pc]; rfl)]
    exact .silent _
  | announce at_pc =>
    have hsame : (s.goto 0 .starting).net = s.net :=
      net_goto_same (by rw [at_pc]; rfl) (by rw [at_pc]; rfl)
    have hnet : ({ s.goto 0 .starting with alive := n } : Pool n).net = { s.net with alive := n } :=
      congrArg (fun m : Net (Fin n) Task => { m with alive := n }) hsame
    rw [hnet]
    exact .announce _ _ (net_status at_pc)
  | broadcast at_pc => exact move_broadcast h hinv at_pc
  | finish at_pc none =>
    rw [net_goto_of_holding (by rw [at_pc]; rfl)]
    exact .finish _ (net_status at_pc) none
  | wake at_pc signal =>
    rw [move_wake at_pc signal rfl]
    exact .silent _
  | retire at_pc => exact move_retire h hinv hn at_pc
  | drainCheck at_pc more =>
    rw [net_goto_same (by rw [at_pc]; rfl) (by rw [at_pc]; rfl)]
    exact .silent _
  | @drainLimit w fired at_pc limit =>
    obtain ⟨hone, hcard⟩ := h.counted w fired (by rw [at_pc]; rfl)
    obtain rfl : w = 0 := h.driver w (by rw [at_pc]; rfl)
    rw [net_goto_same (by rw [at_pc]; rfl) (by rw [at_pc]; rfl)]
    refine .finishAlone _ (net_status at_pc) (quiet_of_limit hinv hone (limit.trans hcard) fun v => ?_)
    exact lt_of_le_of_lt (by rw [pushesOn_snoc]; exact Nat.le_add_right _ _) (hfew v)
  | firePush at_pc task =>
    rw [net_goto_same (by rw [at_pc]; rfl) (by rw [at_pc]; rfl)]
    exact .silent _
  | fired at_pc => exact move_fired at_pc
  | hunt at_pc | scan at_pc | scanBot at_pc =>
    rw [net_goto_same]
    · exact .silent _
    · rw [at_pc]
      repeat' split
      all_goals rfl
    · rw [at_pc]
      repeat' split
      all_goals rfl
  | goIdle at_pc => exact move_goIdle hinv hn at_pc
  | reawake at_pc => exact move_reawake hinv hn at_pc
  | @checkAlive w cursor at_pc =>
    by_cases hzero : s.alive = 0
    · rw [if_pos hzero, net_goto_of_holding (by rw [at_pc]; rfl)]
      exact .leave _ _ (net_status at_pc) hzero
    · rw [if_neg hzero, net_goto_same (by rw [at_pc]; rfl) (by rw [at_pc]; rfl)]
      exact .silent _

end Thvm.WorkerPool
